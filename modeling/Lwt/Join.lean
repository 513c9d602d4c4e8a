import Lwt.Exit

/-! `lwt_join` receives the last word of the child over its exit channel and then
yields to the child. What it returns is followed from the call to the return, through
the stacks that the joining thread can have in between. -/

namespace Lwt

open State

variable {σ τ σ' σ₀ : State} {l : Label} {cur t u J : ThreadId} {f : Frame} {rest : List Frame}
  {c : ChanId} {d : Data} {n : Next} {k : KthdId} {tr : List (State × Label)}

/-- The instance of `t` that `J` started and whose exit channel is `c`. Another instance in
structure `t` has another exit channel. -/
structure State.Child (σ : State) (J t : ThreadId) (c : ChanId) : Prop where
  lt : t < σ.nthreads
  made : c < σ.nchans
  size : (σ.chans c).size = 0
  others : ∀ u < σ.nthreads, u ≠ t → (σ.threads u).chl ≠ c
  parent : (σ.threads t).chl = c → (σ.threads t).parent = some J

/-- Thread `t` is inside `lwt_die`, behind the send of its last word or resumed in it. -/
def State.Leaving (σ : State) (t : ThreadId) : Prop :=
  (σ.threads t).context = [.dieSnd] ∨
    (∃ c, (σ.threads t).context = [.sndRet c, .dieSnd]) ∧ (σ.threads t).task.CanRun

/-- `d` is the last word of the child of `J` with exit channel `c`, which has been taken. -/
structure State.Taken (σ : State) (J t : ThreadId) (c : ChanId) (d : Data) : Prop where
  word : LastWord σ.history J t d
  leaving : (σ.threads t).chl = c → σ.Living t → σ.Leaving t

/-- The stacks of a thread `J` inside `lwt_join(t)`, where `t` has exit channel `c`. -/
inductive State.Joining (σ : State) (J t : ThreadId) (c : ChanId) : List Frame → Prop
  | enter (hcur : σ.lwtCurrent = some J) (hc : (σ.threads t).chl = c) :
      Joining σ J t c [.call (.lwtRcv c), .joinRcv t]
  | wait (h : (σ.threads J).task.CanRun → σ.Taken J t c (σ.threads J).messageData) :
      Joining σ J t c [.rcvRet c, .joinRcv t]
  | loop : Joining σ J t c [.syncRcvLoop c, .joinRcv t]
  | block : Joining σ J t c [.syncRcvBlock c, .joinRcv t]
  | got (hcur : σ.lwtCurrent = some J) (h : σ.Taken J t c (σ.threads J).eax) :
      Joining σ J t c [.joinRcv t]
  | yield (d : Data) (hcur : σ.lwtCurrent = some J) (h : σ.Taken J t c d) :
      Joining σ J t c [.call (.lwtYield (some t)), .joinYield t d]
  | back (d : Data) (h : σ.Taken J t c d) : Joining σ J t c [.joinYield t d]

section Sections

variable (hs : Section σ l τ cur f rest)

/-- A child stays the child of its parent, or the structure is used again. -/
theorem child_section (hs : Section σ l τ cur f rest) (ht : WellFramed σ) (hwd : σ.sched.Wired)
    (hc : σ.Child J t c) : τ.Child J t c := by
  have hlt : t < τ.nthreads := hc.lt.trans_le (ht.effect hs).ntasks_le
  refine ⟨hlt, hc.made.trans_le (exec_net hs.exec).nchans_le, (hs.size hc.made).trans hc.size,
    fun u hu hne => ?_, fun hchl => ?_⟩
  · rcases hs.instance_cases hwd hu with ⟨hu', hid, -⟩ | ⟨hcr, -⟩
    · exact fun h => hc.others u hu' hne ((congrArg Ident.chl hid).symm.trans h)
    · rw [hcr.chl]
      exact hc.made.ne'
  · rcases hs.instance_cases hwd hlt with ⟨-, hid, -⟩ | ⟨hcr, -⟩
    · have hpar := hc.parent ((congrArg Ident.chl hid).symm.trans hchl)
      exact (congrArg Ident.parent hid).trans hpar
    · exact absurd (hcr.chl.symm.trans hchl) hc.made.ne'

include hs in
/-- Who is alive behind a section was alive before, or has been started by it. -/
theorem Section.living_back (hS : InPlace σ k) (hwd : σ.sched.Wired) (hw : OwnerWaits σ l)
    (hl : τ.Living t) : σ.Living t ∨ Creates σ τ cur t := by
  by_cases hf : ∃ flags mem, f = .call (.lwtCreate flags mem)
  · obtain ⟨flags, mem, rfl⟩ := hf
    obtain ⟨u, hc⟩ := hs.creates hwd
    by_cases htu : t = u
    · exact .inr (htu ▸ hc)
    · exact .inl (hc.living_of htu hl)
  · exact .inl ((hs.living_iff hS hwd hw (by simpa using hf)).mp hl).1

/-- A last word that has been taken stays so until `t` has gone. -/
theorem taken_section (hs : Section σ l τ cur f rest) (hS : InPlace σ k)
    (hwd : σ.sched.Wired) (hw : OwnerWaits σ l) (hP : σ.Parting c t) (hc : σ.Child J t c)
    (hJ : cur = J → ∀ flags mem, f ≠ .call (.lwtCreate flags mem))
    (h : σ.Taken J t c d) : τ.Taken J t c d := by
  refine ⟨?_, fun hchl hl => ?_⟩
  · obtain ⟨es, he, hlogs⟩ := (exec_net hs.exec).history
    have he : τ.history = σ.history ++ es := he
    rw [he]
    refine h.word.append fun j hmem => ?_
    obtain ⟨rfl, flags, mem, hf⟩ := hlogs _ hmem
    exact hJ rfl flags mem hf
  · have hnew (hcr : Creates σ τ cur t) : False :=
      hc.made.ne' (hcr.chl.symm.trans hchl)
    have hl' := (hs.living_back hS hwd hw hl).resolve_right hnew
    have hid : (τ.threads t).ident = (σ.threads t).ident := by
      rcases hs.instance_cases hwd hl.1 with ⟨-, hid, -⟩ | ⟨hcr, -⟩
      · exact hid
      · exact (hnew hcr).elim
    rcases h.leaving ((congrArg Ident.chl hid).symm.trans hchl) hl' with hσ | ⟨⟨c', hσ⟩, hr⟩
    · obtain rfl := Option.some.inj (hs.current.symm.trans (hP.said hσ))
      obtain ⟨rfl, rfl⟩ := hs.stack hσ
      exact absurd (dieSnd_section hwd hs).1 hl.2
    · by_cases hcur : t = cur
      · subst hcur
        obtain ⟨rfl, rfl⟩ := hs.stack hσ
        obtain ⟨⟨σ', n⟩, hb, hfin⟩ := bind_ok hs.exec
        cases hb
        exact .inl (finish_frames hfin)
      · have hother := (hS.effect hs).other hS.placed (hS.running_cur hs.current) hs.at_
          (InPlace.owner hw hs) hcur hl'.1
        have hgoal : (τ.sched.tasks t).context = [.sndRet c', .dieSnd] ∧
            (τ.sched.tasks t).CanRun := by
          cases hother with
          | same hsame => exact ⟨hsame.context.trans hσ, hsame.canRun_iff.mpr hr⟩
          | woken _ hctx _ hr' => exact ⟨hctx.trans hσ, hr'⟩
          | started hz => exact absurd hz hl'.2
        exact .inr ⟨⟨c', hgoal.1⟩, hgoal.2⟩

/-- What holds in a run in which only last words are sent on `c`. -/
structure Watched (σ : State) (k : KthdId) (c : ChanId) (t : ThreadId) : Prop where
  inPlace : InPlace σ k
  wellFramed : WellFramed σ
  wired : σ.sched.Wired
  exits : σ.Exits
  parting : t < σ.nthreads → σ.Parting c t

/-- A message handed to `J`, which waits for the last word of its child, is that word. -/
theorem taken_handOff (hs : Section σ l τ cur (.call (.lwtSnd c d)) rest) (hW : Watched σ k c t)
    (hO : LastWordsOnly c σ l) (hc : σ.Child J t c) (hJ : J ≠ cur)
    (hr : (σ.chans c).receiver = some J) (hrcv : (σ.threads J).task.Receiving)
    (hn : (σ.threads J).nowRcving = some c) : τ.Taken J t c (τ.threads J).messageData := by
  obtain ⟨rfl, hown⟩ := last_word_chl hs hW.exits hO
  have hlt := hW.wired.current _ _ hs.current
  obtain rfl : t = cur := by
    by_contra hne
    exact hc.others cur hlt (Ne.symm hne) hown
  have hctx : (σ.threads t).context = [.call (.lwtSnd c d), .dieSnd] :=
    hs.at_.resolve_right (by simp)
  have hword := ((hW.parting hlt).asks c d hctx).2 J (hc.parent hown)
  have hmsg : (τ.threads J).messageData = d := by
    obtain ⟨⟨σ', n⟩, hb, hfin⟩ := bind_ok hs.exec
    rw [(finish_fields hfin).2.2 J]
    cases (lwtSnd_ok hb).2.2 with
    | sync r _ _ _ hne => exact absurd hc.size hne
    | noReceiver _ hr' => exact absurd (hr.symm.trans hr') (by simp)
    | handOff r _ hr' =>
      obtain rfl := Option.some.inj (hr.symm.trans hr')
      exact (resumeThread_message _ t J J).trans (by simp)
    | ring r σ₁ _ hr' hno | block r σ₁ _ hr' hno =>
      obtain rfl := Option.some.inj (hr.symm.trans hr')
      exact absurd ⟨hrcv, hn⟩ hno
  rw [hmsg]
  refine ⟨?_, fun _ _ => ?_⟩
  · obtain ⟨es, he, hborn⟩ := hs.history (by simp)
    rw [he]
    exact hword.append (not_create_of_born (hborn t))
  · cases lastSend hs hc.size with
    | taken hτ => exact .inl hτ
    | stuck _ r hr' hno =>
      obtain rfl := Option.some.inj (hr.symm.trans hr')
      exact absurd ⟨hrcv, hn⟩ hno

/-- A section that resumes a joining thread hands it the last word. -/
theorem taken_woken (hs : Section σ l τ cur f rest) (hW : Watched σ k c t)
    (hO : LastWordsOnly c σ l) (hc : σ.Child J t c) (hJ : J ≠ cur) (hlt : J < σ.nthreads)
    (hctx : (σ.threads J).context = [.rcvRet c, .joinRcv t]) (hσ : ¬ (σ.threads J).task.CanRun)
    (hr : (τ.threads J).task.CanRun) (hwk : σ.sched.Wakes f J) :
    τ.Taken J t c (τ.threads J).messageData := by
  have hpark : (σ.threads J).task.Parked := hW.inPlace.placed.parked J hlt
  cases hwk with
  | sender c' _ hq =>
    obtain ⟨-, -, fs, hfs⟩ := hW.inPlace.placed.mem_sender (List.mem_of_mem_head? hq)
    have hfs : (σ.threads J).context = .sndRet c' :: fs := hfs
    simp [hctx] at hfs
  | group c' d g _ hg hb ho =>
    have hhead := hW.inPlace.placed.blocked g hg hb
    rw [ho] at hhead
    have hhead : (σ.threads J).context.head? = some (.cgrpWaitLoop g) := hhead
    simp [hctx] at hhead
  | handOff c' d hf _ hrcv hn =>
    subst hf
    obtain rfl : c' = c := by
      have hrc : (σ.threads J).task.rcving = some c := Task.rcving_eq hctx
      exact Option.some.inj (hn.symm.trans (hpark.of_rcving hrcv hrc))
    by_cases hrec : (σ.chans c').receiver = some J
    · exact taken_handOff hs hW hO hc hJ hrec hrcv hn
    · rcases hs.snd_other hW.inPlace hJ (fun h => hrec h.1) with hsame | ⟨⟨g, hg⟩, -⟩
      · exact absurd (hsame.canRun_iff.mp hr) hσ
      · have hg : (σ.threads J).context.head? = some (.cgrpWaitLoop g) := hg
        simp [hctx] at hg

/-- The sections of others leave a joining thread where it is. -/
theorem joining_other (hs : Section σ l τ cur f rest) (hW : Watched σ k c t)
    (hw : OwnerWaits σ l) (hO : LastWordsOnly c σ l) (hc : σ.Child J t c) (hJ : J ≠ cur)
    (hlt : J < σ.nthreads) (h : σ.Joining J t c (σ.threads J).context) :
    τ.Joining J t c (τ.threads J).context := by
  have hpark : (σ.threads J).task.Parked := hW.inPlace.placed.parked J hlt
  have hother := (hW.inPlace.effect hs).other hW.inPlace.placed
    (hW.inPlace.running_cur hs.current) hs.at_
    (InPlace.owner hw hs) hJ hlt
  have hcur (hcur : σ.lwtCurrent = some J) : False :=
    hJ (Option.some.inj (hcur.symm.trans hs.current))
  have htaken {d : Data} (h : σ.Taken J t c d) : τ.Taken J t c d :=
    taken_section hs hW.inPlace hW.wired hw (hW.parting hc.lt) hc (fun h => absurd h.symm hJ) h
  have halive : (σ.threads J).state ≠ .zombies := by
    intro hz
    obtain ⟨fs, hctx⟩ := hpark.dead hz
    have hctx : (σ.threads J).context = .died :: fs := hctx
    rw [hctx] at h
    cases h
  have hsame : (τ.threads J).context = (σ.threads J).context := by
    have hgoal : (τ.sched.tasks J).context = (σ.threads J).context := by
      cases hother with
      | same hsame => exact hsame.context
      | woken _ hctx => exact hctx
      | started hz => exact absurd hz halive
    exact hgoal
  rw [hsame]
  generalize hctx : (σ.threads J).context = ctx at h
  cases h with
  | enter h | got h | yield _ h => exact (hcur h).elim
  | loop => exact .loop
  | block => exact .block
  | back d h => exact .back d (htaken h)
  | wait h =>
    refine .wait fun hr => ?_
    by_cases hσ : (σ.threads J).task.CanRun
    · have hmsg : (τ.threads J).messageData = (σ.threads J).messageData := by
        refine (exec_net hs.exec).message hJ ?_ hlt ?_
        · intro hz
          have hk : σ.currentKthd = k := hW.inPlace.placed.kthd
          rw [hk] at hz
          exact halive (hW.inPlace.placed.mem_recycle_iff.mp hz).2
        · exact fun _ _ _ hrcv => hσ.not_receiving hrcv.1
      rw [hmsg]
      exact htaken (h hσ)
    · cases hother with
      | same hsame => exact absurd (hsame.canRun_iff.mp hr) hσ
      | started hz => exact absurd hz halive
      | woken hwk => exact taken_woken hs hW hO hc hJ hlt hctx hσ hr hwk

/-- The receive of a last word that waits in the sender queue. -/
theorem taken_sender (hs : Section σ l τ J (.call (.lwtRcv c)) [.joinRcv t]) (hW : Watched σ k c t)
    (hc : σ.Child J t c) (hchl : (σ.threads t).chl = c)
    (hq : (σ.queues (.sender c)).head? = some u) :
    u = t ∧ LastWord τ.history J t (σ.threads t).messageData ∧
      (σ.threads t).context = [.sndRet c, .dieSnd] := by
  have hP := hW.parting hc.lt
  have hmem := List.mem_of_mem_head? hq
  obtain ⟨rfl, hd⟩ := hP.queue hchl u hmem
  obtain ⟨-, -, fs, hfs⟩ := hW.inPlace.placed.mem_sender hmem
  have hfs : (σ.threads u).context = .sndRet c :: fs := hfs
  have hshape := hW.exits.mortal.dying u hd
  rw [hfs] at hshape
  cases hshape
  obtain ⟨es, he, hborn⟩ := hs.history (by simp)
  refine ⟨rfl, ?_, hfs⟩
  rw [he]
  exact (hP.waits c hfs J (hc.parent hchl)).append (not_create_of_born (hborn u))

/-- A section that returns leaves its thread running, with the result. -/
theorem finish_ret_fields (h : σ.finish cur rest (.ret d) = .ok τ) :
    τ.lwtCurrent = σ.lwtCurrent ∧ (τ.threads cur).eax = d := by
  cases h
  exact ⟨rfl, by simp⟩

/-- The receive of a joining thread goes on, ends with the last word or waits for it. -/
theorem joining_enter (hs : Section σ l τ J (.call (.lwtRcv c)) [.joinRcv t])
    (hW : Watched σ k c t) (hw : OwnerWaits σ l) (hc : σ.Child J t c)
    (hctx : (σ.threads J).context = [.call (.lwtRcv c), .joinRcv t])
    (hcur : σ.lwtCurrent = some J) (hchl : (σ.threads t).chl = c) :
    τ.Joining J t c (τ.threads J).context := by
  have hself := (hW.inPlace.effect hs).self hW.inPlace.placed (hW.inPlace.running_cur hs.current)
    hs.at_ (InPlace.owner hw hs)
  obtain ⟨⟨σ', n⟩, hb, hfin⟩ := bind_ok hs.exec
  have hframes := finish_frames hfin
  rw [hframes]
  cases (lwtRcv_ok hb).2.2 with
  | sync => exact .loop
  | ring _ _ hne | refill s _ _ _ hne => exact absurd hc.size hne
  | sender s fs _ _ hq =>
    obtain ⟨hcur', heax⟩ := finish_ret_fields hfin
    obtain ⟨rfl, hword, hσ⟩ := taken_sender hs hW hc hchl (u := s) (by simp [hq])
    have hne : s ≠ J := by
      rintro rfl
      simp [hσ] at hctx
    refine .got (hcur'.trans ?_) ?_
    · simpa [lwtCurrent, kthd, resumeThread] using hcur
    · rw [heax]
      refine ⟨hword, fun _ _ => .inr ⟨⟨c, ?_⟩, ?_⟩⟩
      · cases hfin
        simpa [hne, resumeThread] using hσ
      · cases hfin
        simp [hne, resumeThread, Task.CanRun]
  | block =>
    refine .wait fun hr => ?_
    have hframes : (τ.sched.tasks J).context = [.rcvRet c, .joinRcv t] := hframes
    have hr : (τ.sched.tasks J).CanRun := hr
    generalize τ.sched.tasks J = th at hself hframes hr
    cases hself with
    | goesOn fs hpush hfs =>
      obtain rfl : fs = [.rcvRet c] := by
        have happ : fs ++ [.joinRcv t] = [.rcvRet c] ++ [.joinRcv t] := hfs.symm.trans hframes
        exact List.append_cancel_right happ
      exact absurd (hpush.entry _ rfl) (by simp)
    | sleepRcv _ _ _ _ _ hrcv => exact absurd hrcv hr.not_receiving
    | sleepGroup g hf => cases hf
    | sleepSnd _ _ hf => cases hf
    | die hf => cases hf

/-- The sections of the joining thread take it from one stack to the next. -/
theorem joining_self (hs : Section σ l τ J f rest) (hW : Watched σ k c t)
    (hw : OwnerWaits σ l) (hc : σ.Child J t c) (hf : ∀ d, f ≠ .joinYield t d)
    (h : σ.Joining J t c (σ.threads J).context) : τ.Joining J t c (τ.threads J).context := by
  have hrun := hW.inPlace.running_cur hs.current
  have htaken {d : Data} (hcr : ∀ flags mem, f ≠ .call (.lwtCreate flags mem))
      (h : σ.Taken J t c d) : τ.Taken J t c d :=
    taken_section hs hW.inPlace hW.wired hw (hW.parting hc.lt) hc (fun _ => hcr) h
  obtain ⟨⟨σ', n⟩, hb, hfin⟩ := bind_ok hs.exec
  have hframes := finish_frames hfin
  generalize hctx : (σ.threads J).context = ctx at h
  cases h with
  | enter hcur hchl =>
    obtain ⟨rfl, rfl⟩ := hs.stack hctx
    exact joining_enter hs hW hw hc hctx hcur hchl
  | wait h =>
    obtain ⟨rfl, rfl⟩ := hs.stack hctx
    have htk := htaken (by simp) (h hrun.canRun)
    cases hb
    obtain ⟨hcur', heax⟩ := finish_ret_fields hfin
    rw [hframes]
    exact .got (hcur'.trans hs.current) (heax ▸ htk)
  | loop =>
    obtain ⟨rfl, rfl⟩ := hs.stack hctx
    cases (lwtSyncRcvLoop_ok hb).2.2 with
    | read _ hne => exact absurd hc.size hne
    | empty =>
      rw [hframes]
      exact .block
  | block =>
    obtain ⟨rfl, rfl⟩ := hs.stack hctx
    cases hb
    rw [hframes]
    exact .loop
  | got hcur h =>
    obtain ⟨rfl, rfl⟩ := hs.stack hctx
    have htk := htaken (by simp) h
    cases hb
    rw [hframes]
    cases hfin
    exact .yield _ hcur htk
  | yield d hcur h =>
    obtain ⟨rfl, rfl⟩ := hs.stack hctx
    have htk := htaken (by simp) h
    have hback : (τ.threads J).context = [.joinYield t d] := by
      rw [hframes]
      have hy : σ.lwtYield J (some t) = .ok (σ', n) := hb
      obtain ⟨-, -, rfl⟩ | ⟨_, -, -, ⟨-, -, rfl⟩ | ⟨-, -, -, rfl⟩⟩ := lwtYield_ok hy
      · rfl
      · rfl
      · rfl
    rw [hback]
    exact .back d htk
  | back d h =>
    obtain ⟨rfl, rfl⟩ := hs.stack hctx
    exact absurd rfl (hf d)

end Sections
section Runs

theorem boot_exits (hb : σ.Boot k) : σ.Exits := by
  have h := boot_ok hb
  refine ⟨boot_mortal hb, fun t ht u hu _ => (h.thread_eq ht).trans (h.thread_eq hu).symm,
    fun t c d hctx => ?_, fun c hc _ => ?_⟩
  · simp [h.context] at hctx
  · obtain rfl := h.chan_eq hc
    exact RingBuffer.count_empty h.chan.1 h.chan.2.1

theorem boot_watched (hb : σ.Boot k) (c : ChanId) (t : ThreadId) : Watched σ k c t := by
  have h := boot_ok hb
  refine ⟨h.inPlace, h.wellFramed, boot_wired hb, boot_exits hb, fun ht => ?_⟩
  obtain rfl := h.thread_eq ht
  have hp : (σ.threads 0).parent = none := (boot_ident hb).1
  have hctx := h.thread.2.1
  refine ⟨fun u hu => ?_, fun c' d hc => ?_, fun c' hc => ?_, fun hc => ?_, fun _ s hs => ?_⟩
  · simp [hp] at hu
  · simp [hctx] at hc
  · simp [hctx] at hc
  · simp [hctx] at hc
  · simp [h.queues] at hs

theorem Watched.step (hW : Watched σ k c t) (hC : Ordinary σ l) (hO : LastWordsOnly c σ l)
    (hs : Step σ l τ) : Watched τ k c t := by
  obtain ⟨cur, f, rest, hsec⟩ := step_local hs hC.1
  have hS' := hW.inPlace.step hC.1 hC.2 hs
  exact ⟨hS', hW.wellFramed.step hs, wired_step hW.wellFramed hW.wired hs,
    exits_section hsec hW.exits hW.wellFramed hW.wired,
    parting_section hW.inPlace hS' hW.wellFramed hC.2 hW.exits hW.wired hO hsec hW.parting⟩

theorem Run.watched (h : Run σ₀ tr σ) (hb : σ₀.Boot k) (hC : ∀ p ∈ tr, Ordinary p.1 p.2)
    (hO : ∀ p ∈ tr, LastWordsOnly c p.1 p.2) {p : State × Label} (hp : p ∈ tr) :
    Watched p.1 k c t := by
  obtain ⟨tr', s', hr, hpre, -⟩ := h.of_mem hp
  refine hr.invariant_of (I := fun u => Watched u k c t)
    (C := fun s l => Ordinary s l ∧ LastWordsOnly c s l)
    (fun q hq => ⟨hC q (hpre.subset hq), hO q (hpre.subset hq)⟩) (boot_watched hb c t) ?_
  exact fun s l s' hI hC hs => hI.step hC.1 hC.2 hs

/-- In the run `tr` thread `J` calls `lwt_join(t)` in step `i`, for a child of its own with exit
channel `c`, and the call returns `d` in step `j`. -/
structure JoinCall (tr : List (State × Label)) (i j : ℕ) (J t : ThreadId) (c : ChanId) (d : Data) :
    Prop where
  lt : i < j
  called : ∃ σ, tr[i]? = some (σ, .call (.lwtJoin t)) ∧ σ.lwtCurrent = some J ∧
    (σ.threads t).parent = some J ∧ (σ.threads t).nojoin = false ∧ (σ.threads t).chl = c
  returned : ∃ q, tr[j]? = some q ∧ q.1.lwtCurrent = some J ∧
    q.1.frame q.2 = some (.joinYield t d)
  first : ∀ m, i < m → m < j → ∀ r, tr[m]? = some r → r.1.lwtCurrent = some J →
    ∀ d', r.1.frame r.2 ≠ some (.joinYield t d')

/-- A call is a section at the bottom of the stack. -/
theorem step_call {a : Call} (h : Step σ (.call a) τ) :
    ∃ cur, Section σ (.call a) τ cur (.call a) [] := by
  obtain ⟨cur, f, rest, hs⟩ := step_local h trivial
  obtain rfl : .call a = f := Option.some.inj hs.frame
  have hnil : (σ.threads cur).context = [] := by
    have h : σ.step (.call a) = .ok τ := h
    have hcur : σ.lwtCurrent = some cur := hs.current
    simp only [State.step, hcur] at h
    split_ifs at h with hc
    exact hc.1
  rcases hs.at_ with hctx | ⟨-, -, rfl⟩
  · exact absurd (Eq.trans (Eq.symm hnil) hctx) (by simp)
  · exact ⟨cur, hs⟩

/-- The call of `lwt_join` for a child takes the thread to the receive. -/
theorem join_enter (hs : Section σ l τ J (.call (.lwtJoin t)) []) (hW : Watched σ k c t)
    (hp : (σ.threads t).parent = some J) (hnj : (σ.threads t).nojoin = false)
    (hchl : (σ.threads t).chl = c) :
    τ.Child J t c ∧ (τ.threads J).context = [.call (.lwtRcv c), .joinRcv t] ∧
      τ.Joining J t c (τ.threads J).context := by
  obtain ⟨⟨σ', n⟩, hb, hfin⟩ := bind_ok hs.exec
  obtain ⟨th, hth, hb⟩ := bind_ok hb
  obtain ⟨rfl, hlt⟩ := thread?_ok hth
  have hchild : σ.Child J t c := by
    obtain ⟨hc, h0⟩ := hW.exits.mortal.chl t hlt
    subst hchl
    exact ⟨hlt, hc, h0, fun u hu hne h => hne (hW.exits.inj u hu t hlt h), fun _ => hp⟩
  refine ⟨child_section hs hW.wellFramed hW.wired hchild, ?_⟩
  split_ifs at hb with hno
  · exact absurd hno (by simp [hp, hnj])
  · cases hb
    have hframes : (τ.threads J).context = [.call (.lwtRcv c), .joinRcv t] := by
      rw [finish_frames hfin, hchl]
      rfl
    cases hfin
    refine ⟨hframes, ?_⟩
    rw [hframes]
    refine .enter hs.current ?_
    by_cases ht : t = J
    · subst ht
      simpa [saveContext] using hchl
    · simpa [saveContext, ht] using hchl

/-- The joining thread is on its way from the call to the return. -/
theorem joining_run (h : Run σ₀ tr σ) (hb : σ₀.Boot k) (hC : ∀ p ∈ tr, Ordinary p.1 p.2)
    (hO : ∀ p ∈ tr, LastWordsOnly c p.1 p.2) {i j : ℕ} (hj : JoinCall tr i j J t c d) :
    ∀ m, i < m → m ≤ j → ∀ v, (Transition.visited tr σ)[m]? = some v →
      v.Child J t c ∧ J < v.nthreads ∧ v.Joining J t c (v.threads J).context := by
  intro m him hmj
  have hW {p : State × Label} (hp : p ∈ tr) : Watched p.1 k c t := h.watched hb hC hO hp
  obtain ⟨s, hp, hcur, hpar, hnj, hchl⟩ := hj.called
  refine h.between (P := fun v => v.Child J t c ∧ J < v.nthreads ∧
    v.Joining J t c (v.threads J).context) (Nat.succ_le_of_lt him) ?_ ?_
  · intro v hv
    obtain ⟨cur, hs⟩ := step_call (h.step_visited hp hv)
    obtain rfl := Option.some.inj (hcur.symm.trans hs.current)
    have hWs := hW (List.mem_of_getElem? hp)
    obtain ⟨hchild, -, hjoin⟩ := join_enter hs hWs hpar hnj hchl
    have hle := (hWs.wellFramed.effect hs).ntasks_le
    exact ⟨hchild, (hWs.wired.current _ _ hcur).trans_le hle, hjoin⟩
  · rintro m' p v him' hmj' hp hs ⟨hchild, hlt, hjoin⟩
    have hmem := List.mem_of_getElem? hp
    have hWp := hW hmem
    obtain ⟨hl, hw⟩ := hC p hmem
    obtain ⟨cur, f, rest, hsec⟩ := step_local hs hl
    refine ⟨child_section hsec hWp.wellFramed hWp.wired hchild,
      hlt.trans_le (hWp.wellFramed.effect hsec).ntasks_le, ?_⟩
    by_cases hJ : J = cur
    · subst hJ
      refine joining_self hsec hWp hw hchild (fun d' hf => ?_) hjoin
      subst hf
      exact hj.first m' him' (hmj'.trans_le hmj) p hp hsec.current d' hsec.frame
    · exact joining_other hsec hWp hw (hO p hmem) hchild hJ hlt hjoin

instance (c : ChanId) (σ : State) (l : Label) : Decidable (LastWordsOnly c σ l) :=
  decidable_of_iff (∀ a ∈ (σ.frame l).bind Frame.sends,
      a.1 = c → ∀ s ∈ σ.lwtCurrent, .dieSnd ∈ (σ.threads s).context) <| by
    rw [forall_frame_iff Frame.sends_eq_some]
    constructor
    · exact fun h d s hf hs => h (c, d) hf rfl s hs
    · rintro h ⟨c', d⟩ hf rfl s hs
      exact h d s hf hs

/-- That a join has not returned yet can be checked on a run. -/
theorem first_iff {i j : ℕ} :
    (∀ m < j, i < m → ∀ r ∈ tr[m]?, r.1.lwtCurrent = some J →
      ∀ a ∈ (r.1.frame r.2).bind Frame.joined, a.1 ≠ t) ↔
    ∀ m, i < m → m < j → ∀ r, tr[m]? = some r → r.1.lwtCurrent = some J →
      ∀ d', r.1.frame r.2 ≠ some (.joinYield t d') := by
  constructor
  · intro h m him hmj r hr hcur d' hf
    exact h m hmj him r hr hcur (t, d') (by rw [hf]; rfl) rfl
  · rintro h m hmj him r hr hcur ⟨t', d'⟩ ha rfl
    exact h m him hmj r hr hcur d' ((frame_eq_iff Frame.joined_eq_some).mp ha)

/-- The main thread waits for a child, which calls `lwt_join` on a thread that is none of its
own, dies, and is resumed by the receive and dispatched by the yield. -/
def joinRun : List Label :=
  [.call (.lwtCreate 0 createMem), .call (.lwtJoin 1), .resume, .call (.lwtJoin 0),
    .call (.lwtDie (.word 7)), .resume, .resume, .resume, .resume, .resume, .resume]

theorem joinRun_joins : JoinCall (booted.trace joinRun) 1 10 0 1 1 (.word 7) where
  lt := by decide
  called := ⟨_, trace_getElem? booted rfl (by decide +kernel), by decide +kernel,
    by decide +kernel, by decide +kernel, by decide +kernel⟩
  returned := ⟨_, trace_getElem? booted rfl (by decide +kernel), by decide +kernel,
    (frame_eq_iff (a := (1, .word 7)) Frame.joined_eq_some).mp (by decide +kernel)⟩
  first := first_iff.mp (by decide +kernel)

/-- The main thread waits for its first child, and its second child sends on the exit channel of
the first. -/
def forgedRun : List Label :=
  [.call (.lwtCreate 0 createMem), .call (.lwtCreate 0 createMem), .call (.lwtJoin 1), .resume,
    .call (.lwtYield none), .call (.lwtSnd 1 (.word 5)), .call (.lwtYield none), .resume, .resume,
    .resume, .resume]

theorem forgedRun_joins : JoinCall (booted.trace forgedRun) 2 10 0 1 1 (.word 5) where
  lt := by decide
  called := ⟨_, trace_getElem? booted rfl (by decide +kernel), by decide +kernel,
    by decide +kernel, by decide +kernel, by decide +kernel⟩
  returned := ⟨_, trace_getElem? booted rfl (by decide +kernel), by decide +kernel,
    (frame_eq_iff (a := (1, .word 5)) Frame.joined_eq_some).mp (by decide +kernel)⟩
  first := first_iff.mp (by decide +kernel)

end Runs

end Lwt
