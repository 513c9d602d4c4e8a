import Lwt.Instances
import Lwt.Delivery

/-! The exit channel of a thread and the last word sent over it. The channel has no
slots, is made together with the thread and belongs to it alone, so what is
received from it is the last word of its thread as long as nobody else sends on it. -/

namespace Lwt

open State

variable {σ τ σ' σ₀ : State} {l : Label} {cur t u J : ThreadId} {f : Frame} {rest : List Frame}
  {c : ChanId} {d : Data} {n : Next} {k : KthdId} {h h' : List Event}

/-- Exit channels have no slots, and every thread has its own. -/
structure State.Exits (σ : State) : Prop where
  mortal : σ.Mortal
  inj : ∀ t < σ.nthreads, ∀ u < σ.nthreads, (σ.threads t).chl = (σ.threads u).chl → t = u
  asks : ∀ t c d, (σ.threads t).context = [.call (.lwtSnd c d), .dieSnd] → c = (σ.threads t).chl
  hollow : ∀ c < σ.nchans, (σ.chans c).size = 0 → (σ.chans c).buffer.count = 0

def StartedBy (h : List Event) (u t : ThreadId) : Prop :=
  ∃ h₁ h₂ i, h = h₁ ++ .create u t i :: h₂ ∧ born h₂ t = 0

/-- The last instance of `t` that `u` started has passed `d` to `lwt_die`. -/
def LastWord (h : List Event) (u t : ThreadId) (d : Data) : Prop :=
  ∃ h₁ h₂ h₃ i, h = h₁ ++ .create u t i :: (h₂ ++ .die t d :: h₃) ∧ born h₂ t = 0 ∧
    ∀ j, .create u t j ∉ h₃

theorem StartedBy.append (hst : StartedBy h u t) (hb : born h' t = 0) :
    StartedBy (h ++ h') u t := by
  obtain ⟨h₁, h₂, i, rfl, h0⟩ := hst
  exact ⟨h₁, h₂ ++ h', i, by simp, by simp [h0, hb]⟩

theorem StartedBy.die (hst : StartedBy h u t) : LastWord (h ++ [.die t d]) u t d := by
  obtain ⟨h₁, h₂, i, rfl, h0⟩ := hst
  exact ⟨h₁, h₂, [], i, by simp, h0, by simp⟩

theorem LastWord.append (hw : LastWord h u t d) (hn : ∀ j, .create u t j ∉ h') :
    LastWord (h ++ h') u t d := by
  obtain ⟨h₁, h₂, h₃, i, rfl, h0, hno⟩ := hw
  refine ⟨h₁, h₂, h₃ ++ h', i, by simp, h0, fun j hj => ?_⟩
  rcases List.mem_append.mp hj with hj | hj
  · exact hno j hj
  · exact hn j hj

theorem LastWord.mem_die (hw : LastWord h u t d) : .die t d ∈ h := by
  obtain ⟨h₁, h₂, h₃, i, rfl, -, -⟩ := hw
  simp

/-- No instance of `t` started, so nobody started one. -/
theorem not_create_of_born (hb : born h t = 0) (j : ℤ) : .create u t j ∉ h := by
  intro hmem
  rw [born, List.count_eq_zero] at hb
  exact hb (List.mem_filterMap.mpr ⟨_, hmem, rfl⟩)

/-- How far the present instance of `t` has got with its last word; if its exit channel is
`c`, nobody else waits to send on that. -/
structure State.Parting (σ : State) (c : ChanId) (t : ThreadId) : Prop where
  started : ∀ u, (σ.threads t).parent = some u → StartedBy σ.history u t
  asks : ∀ c' d, (σ.threads t).context = [.call (.lwtSnd c' d), .dieSnd] →
    σ.lwtCurrent = some t ∧
      ∀ u, (σ.threads t).parent = some u → LastWord σ.history u t d
  waits : ∀ c', (σ.threads t).context = [.sndRet c', .dieSnd] →
    ∀ u, (σ.threads t).parent = some u → LastWord σ.history u t (σ.threads t).messageData
  said : (σ.threads t).context = [.dieSnd] → σ.lwtCurrent = some t
  queue : (σ.threads t).chl = c →
    ∀ s ∈ σ.queues (.sender c), s = t ∧ .dieSnd ∈ (σ.threads t).context

/-- If step `l` sends on `c`, it is the send of a last word. -/
def LastWordsOnly (c : ChanId) (σ : State) (l : Label) : Prop :=
  ∀ d s, σ.frame l = some (.call (.lwtSnd c d)) → σ.lwtCurrent = some s →
    .dieSnd ∈ (σ.threads s).context

/-- A thread left in the middle of `lwt_snd` is alive and does not wait for a message. -/
theorem InPlace.sending_frame (hS : InPlace σ k) (ht : t < σ.nthreads) {fs : List Frame}
    (hctx : (σ.threads t).context = .sndRet c :: fs) :
    (σ.threads t).state ≠ .zombies ∧ ¬ (σ.threads t).task.Receiving := by
  have hpark : (σ.threads t).task.Parked := hS.placed.parked t ht
  have hne {fr : Frame} {fs' : List Frame} (h : (σ.threads t).task.context = fr :: fs') :
      fr = .sndRet c := by
    obtain ⟨hfr, -⟩ := List.cons.inj (Eq.trans (Eq.symm hctx) h)
    exact hfr.symm
  constructor
  · intro hz
    obtain ⟨fs', h⟩ := hpark.dead hz
    cases hne h
  · intro hr
    rcases hpark.receiving hr with ⟨c', fs', h, -⟩ | ⟨c', fs', h, -⟩ | ⟨g, fs', h⟩
    · cases hne h
    · cases hne h
    · cases hne h

section Sections

variable (hs : Section σ l τ cur f rest)

include hs in
/-- A section of a thread with frames on its stack goes on at the innermost. -/
theorem Section.stack {fr : Frame} {fs : List Frame} (hctx : (σ.threads cur).context = fr :: fs) :
    f = fr ∧ rest = fs := by
  rcases hs.at_ with h | ⟨-, h, -⟩
  · exact List.cons.inj (Eq.trans (Eq.symm h) hctx)
  · exact absurd (Eq.trans (Eq.symm h) hctx) (by simp)

include hs in
/-- Nothing moves through the ring of a channel without slots. -/
theorem Section.hollow (hc : c < σ.nchans) (h0 : (σ.chans c).size = 0) :
    (τ.chans c).buffer = (σ.chans c).buffer := by
  obtain ⟨⟨σ', n⟩, hb, hfin⟩ := bind_ok hs.exec
  rw [(finish_fields hfin).2.1]
  by_cases hsnd : ∃ d, f = .call (.lwtSnd c d)
  · obtain ⟨d, rfl⟩ := hsnd
    cases (lwtSnd_ok hb).2.2 with
    | sync r _ _ _ hne => exact absurd h0 hne
    | ring r σ₁ _ _ _ _ _ hne => exact absurd h0 hne
    | noReceiver | handOff => rfl
    | block r σ₁ _ _ _ hw =>
      rw [blockThread_sending]
      exact (congrArg Chan.buffer (congrFun hw.chans c)).trans (by simp)
  · by_cases hrcv : f = .call (.lwtRcv c)
    · subst hrcv
      cases (lwtRcv_ok hb).2.2 with
      | ring _ _ hne => exact absurd h0 hne
      | refill s _ _ _ hne => exact absurd h0 hne
      | sync => rfl
      | sender s => simp
      | block =>
        rw [blockThread_receiving]
        rfl
    · by_cases hl : f = .syncRcvLoop c
      · subst hl
        cases (lwtSyncRcvLoop_ok hb).2.2 with
        | read _ hne => exact absurd h0 hne
        | empty => rfl
      · rw [← (finish_fields hfin).2.1]
        exact ((exec_net hs.exec).chanEffect hc).buffer (by simpa using hsnd) hrcv hl

/-- Exit channels stay what they are. -/
theorem exits_section (hs : Section σ l τ cur f rest) (hE : σ.Exits) (ht : WellFramed σ)
    (hw : σ.sched.Wired) : τ.Exits where
  mortal := mortal_section hs hE.mortal ht hw
  inj t hlt u hlu heq := by
    have hl : t < τ.roster.nthreads := hlt
    have hl' : u < τ.roster.nthreads := hlu
    have heq' : (τ.roster.ident t).chl = (τ.roster.ident u).chl := heq
    have hroster := hs.roster
    generalize τ.roster = ρ at hroster hl hl' heq'
    have hold {t : ThreadId} (h : t < σ.nthreads) : (σ.threads t).chl ≠ σ.nchans :=
      (hE.mortal.chl t h).1.ne
    cases hroster with
    | same => exact hE.inj t hl u hl' heq'
    | recycle flags mem t' hf =>
      by_cases htt : t = t'
      · subst htt
        by_cases hut : u = t
        · exact hut.symm
        · exact absurd (by simpa [hut] using heq'.symm) (hold hl')
      · by_cases hut : u = t'
        · subst hut
          exact absurd (by simpa [htt] using heq') (hold hl)
        · exact hE.inj t hl u hl' (by simpa [htt, hut] using heq')
    | fresh flags mem stack hf =>
      have hlt' {v : ThreadId} (hv : v < σ.nthreads + 1) (hne : v ≠ σ.nthreads) : v < σ.nthreads :=
        lt_of_le_of_ne (Nat.le_of_lt_succ hv) hne
      by_cases htt : t = σ.nthreads
      · subst htt
        by_cases hut : u = σ.nthreads
        · exact hut.symm
        · exact absurd (by simpa [hut] using heq'.symm) (hold (hlt' hl' hut))
      · by_cases hut : u = σ.nthreads
        · subst hut
          exact absurd (by simpa [htt] using heq') (hold (hlt' hl htt))
        · exact hE.inj t (hlt' hl htt) u (hlt' hl' hut) (by simpa [htt, hut] using heq')
  asks t c d hctx := by
    by_cases hcur : t = cur
    · subst hcur
      rcases dying_self hs hE.mortal (by simp [hctx]) with
        ⟨d', rfl, hτ⟩ | ⟨c', d', rfl, rfl, hc', h0⟩ | ⟨c', -, -, hτ⟩
      · have hid := congrArg (fun ρ : Roster => (ρ.ident t).chl)
          (exec_roster_eq (by simp) hs.exec)
        rw [hτ] at hctx
        obtain ⟨hcall, -⟩ := List.cons.inj hctx
        simp only [Frame.call.injEq, Call.lwtSnd.injEq] at hcall
        exact hcall.1.symm.trans hid.symm
      · cases lastSend hs h0 with
        | taken hτ => simp [hτ] at hctx
        | stuck hτ => simp [hτ] at hctx
      · simp [hτ] at hctx
    · rcases (ht.effect hs).context_other hcur with hσ | hσ
      · have hσ : (τ.threads t).context = (σ.threads t).context := hσ
        have hid := hs.ident_eq hcur (by simp [hctx])
        exact (hE.asks t c d (hσ ▸ hctx)).trans (congrArg Ident.chl hid).symm
      · have hσ : (τ.threads t).context = [] := hσ
        simp [hσ] at hctx
  hollow c hc h0 := by
    by_cases hlt : c < σ.nchans
    · rw [hs.hollow hlt ((hs.size hlt).symm.trans h0)]
      exact hE.hollow c hlt ((hs.size hlt).symm.trans h0)
    · have hcr := ((exec_net hs.exec).created (not_lt.mp hlt) hc).2.empty
      exact RingBuffer.count_empty hcr.1 hcr.2.1

/-- The send of a last word goes to the exit channel of the thread that dies. -/
theorem last_word_chl (hs : Section σ l τ cur (.call (.lwtSnd c d)) rest) (hE : σ.Exits)
    (hO : LastWordsOnly c σ l) : rest = [.dieSnd] ∧ (σ.threads cur).chl = c := by
  have hd := hO d cur hs.frame hs.current
  have hshape := hE.mortal.dying cur hd
  have hctx : (σ.threads cur).context = .call (.lwtSnd c d) :: rest := by
    rcases hs.at_ with hctx | ⟨-, hctx, -⟩
    · exact hctx
    · have hctx : (σ.threads cur).context = [] := hctx
      simp [hctx] at hd
  have hrest : rest = [.dieSnd] := by
    rw [hctx] at hshape
    cases hshape
    rfl
  subst hrest
  exact ⟨rfl, (hE.asks cur c d hctx).symm⟩

/-- Behind a section a sender queue holds who was there and the thread of the section. -/
theorem mem_sender_section (hS : InPlace σ k) (hS' : InPlace τ k) (hw : OwnerWaits σ l)
    (hs : Section σ l τ cur f rest) {s : ThreadId} (hmem : s ∈ τ.queues (.sender c)) :
    (s ≠ cur ∧ s ∈ σ.queues (.sender c)) ∨
      s = cur ∧ (∃ d, f = .call (.lwtSnd c d)) ∧ (τ.threads cur).context = .sndRet c :: rest := by
  obtain ⟨hlt, hsend, fs, hctx⟩ := hS'.placed.mem_sender hmem
  have heff := hS.effect hs
  by_cases hcur : s = cur
  · subst hcur
    refine .inr ⟨rfl, ?_⟩
    have hself := heff.self hS.placed (hS.running_cur hs.current) hs.at_ (InPlace.owner hw hs)
    have hgoal : (∃ d, f = .call (.lwtSnd c d)) ∧
        (τ.sched.tasks s).context = .sndRet c :: rest := by
      generalize τ.sched.tasks s = th at hself hsend hctx
      cases hself with
      | goesOn fs _ _ _ hr => exact absurd hsend hr.not_sending
      | sleepRcv _ _ _ _ _ hr | sleepGroup _ _ _ _ hr =>
        exact absurd (hr.2.symm.trans hsend.2) (by simp)
      | sleepSnd c' d hf hc hr =>
        obtain ⟨hc', -⟩ := List.cons.inj (hc.symm.trans hctx)
        cases hc'
        exact ⟨⟨d, hf⟩, hc⟩
      | die _ _ hr => exact absurd (hr.symm.trans hsend.1) (by simp)
    exact hgoal
  · refine .inl ⟨hcur, ?_⟩
    have hlt' : s < σ.nthreads := by
      by_contra hge
      have hnil : (τ.threads s).context = [] := heff.context_new (not_lt.mp hge) hlt hcur
      simp [hnil] at hctx
    have hown := InPlace.owner hw hs
    cases heff.other hS.placed (hS.running_cur hs.current) hs.at_ hown hcur hlt' with
    | same hsame =>
      have hsend' := hsame.sending_iff.mp hsend
      exact (hS.placed.mem_iff hlt').mpr (hsend'.home (hsame.context.symm.trans hctx))
    | woken _ _ _ hr | started _ _ hr => exact absurd hsend hr.not_sending

/-- A thread that has just been started has said nothing. -/
theorem parting_creates (hS : InPlace σ k) (hs : Section σ l τ cur f rest)
    (hf : ∃ flags mem, f = .call (.lwtCreate flags mem)) (hc : Creates σ τ cur t) :
    τ.Parting c t := by
  obtain ⟨flags, mem, rfl⟩ := hf
  have hne : t ≠ cur := fun h => hc.not_living hS (h ▸ hS.living_cur hs.current)
  have hctx := hc.context hne
  refine ⟨fun u hu => ?_, fun c' d h => ?_, fun c' h => ?_, fun h => ?_, fun hchl s hmem => ?_⟩
  · obtain rfl := Option.some.inj (hc.parent.symm.trans hu)
    obtain ⟨i, hi⟩ := hc.history
    exact ⟨σ.history ++ [.chan (some cur) σ.nchans, .acquire t σ.nchans], [], i, by simp [hi], rfl⟩
  · simp [hctx] at h
  · simp [hctx] at h
  · simp [hctx] at h
  · rw [← hchl, hc.chl] at hmem
    have hnil := (hS.effect hs).sender_eq_nil (c := σ.nchans) (by simp)
      (hS.fresh σ.nchans le_rfl)
    have hnil : τ.queues (.sender σ.nchans) = [] := hnil
    simp [hnil] at hmem

/-- The call of `lwt_die(d)`. -/
theorem Section.dies (hs : Section σ l τ cur (.call (.lwtDie d)) rest) :
    τ.lwtCurrent = some cur ∧ τ.history = σ.history ++ [.die cur d] := by
  obtain ⟨⟨σ', n⟩, hb, hfin⟩ := bind_ok hs.exec
  cases hb
  cases hfin
  have hcur := hs.current
  exact ⟨by simpa [lwtCurrent, kthd, saveContext] using hcur, rfl⟩

/-- A thread that is left suspended in `lwt_snd(c, d)` carries `d`. -/
theorem Section.carries (hs : Section σ l τ cur (.call (.lwtSnd c d)) [.dieSnd])
    (hctx : (τ.threads cur).context = [.sndRet c, .dieSnd]) :
    (τ.threads cur).messageData = d := by
  obtain ⟨⟨σ', n⟩, hb, hfin⟩ := bind_ok hs.exec
  have hframes := finish_frames hfin
  rw [hctx] at hframes
  rw [(finish_fields hfin).2.2 cur]
  cases (lwtSnd_ok hb).2.2 with
  | sync | noReceiver | handOff | ring => simp [Next.frames] at hframes
  | block r σ₁ =>
    rw [blockThread_sending]
    exact (countBlocked_message _ cur .sending cur).trans (by simp)

/-- A section of another thread leaves a stack as it is. -/
theorem WellFramed.context_eq (ht : WellFramed σ) (hs : Section σ l τ cur f rest) (hne : t ≠ cur)
    {ctx : List Frame} (h : (τ.threads t).context = ctx) (hnil : ctx ≠ []) :
    (σ.threads t).context = ctx := by
  rcases (ht.effect hs).context_other hne with hsame | hsame
  · exact hsame.symm.trans h
  · exact absurd (h.symm.trans hsame) hnil

section Parting

variable (ht : WellFramed σ) (hE : σ.Exits) (hP : σ.Parting c t)
  (hpar : ∀ u, (τ.threads t).parent = some u → (σ.threads t).parent = some u)

include hs ht hE hP hpar

/-- The send of a last word is asked for by `lwt_die`. -/
theorem parting_asks {c' : ChanId} {d : Data}
    (h : (τ.threads t).context = [.call (.lwtSnd c' d), .dieSnd]) :
    τ.lwtCurrent = some t ∧ ∀ u, (τ.threads t).parent = some u → LastWord τ.history u t d := by
  by_cases hcur : t = cur
  · subst hcur
    rcases dying_self hs hE.mortal (by simp [h]) with
      ⟨d', rfl, hτ⟩ | ⟨_, _, rfl, rfl, _, h0⟩ | ⟨_, -, -, hτ⟩
    · obtain ⟨hrun, hdie⟩ := hs.dies
      obtain ⟨hcall, -⟩ := List.cons.inj (hτ.symm.trans h)
      simp only [Frame.call.injEq, Call.lwtSnd.injEq] at hcall
      obtain ⟨-, rfl⟩ := hcall
      exact ⟨hrun, fun u hu => hdie ▸ (hP.started u (hpar u hu)).die⟩
    · cases lastSend hs h0 with
      | taken hτ => simp [hτ] at h
      | stuck hτ => simp [hτ] at h
    · simp [hτ] at h
  · have hrun := (hP.asks c' d (ht.context_eq hs hcur h (by simp))).1
    exact absurd (Option.some.inj (hrun.symm.trans hs.current)) hcur

omit hpar in
theorem parting_said (h : (τ.threads t).context = [.dieSnd]) : τ.lwtCurrent = some t := by
  by_cases hcur : t = cur
  · subst hcur
    rcases dying_self hs hE.mortal (by simp [h]) with
      ⟨d', rfl, hτ⟩ | ⟨_, d', rfl, rfl, _, h0⟩ | ⟨_, rfl, rfl, -⟩
    · simp [hτ] at h
    · cases lastSend hs h0 with
      | taken _ hrun => exact hrun
      | stuck hτ => simp [hτ] at h
    · obtain ⟨⟨σ', n⟩, hb, hfin⟩ := bind_ok hs.exec
      cases hb
      cases hfin
      exact hs.current
  · have hrun := hP.said (ht.context_eq hs hcur h (by simp))
    exact absurd (Option.some.inj (hrun.symm.trans hs.current)) hcur

/-- A last word that waits for its receiver stays the last word. -/
theorem parting_waits (hS : InPlace σ k) (hlt : t < σ.nthreads)
    (hword : ∀ u d, LastWord σ.history u t d → LastWord τ.history u t d) {c' : ChanId}
    (h : (τ.threads t).context = [.sndRet c', .dieSnd]) :
    ∀ u, (τ.threads t).parent = some u → LastWord τ.history u t (τ.threads t).messageData := by
  by_cases hcur : t = cur
  · subst hcur
    rcases dying_self hs hE.mortal (by simp [h]) with
      ⟨d', rfl, hτ⟩ | ⟨c₁, d', rfl, rfl, _, h0⟩ | ⟨_, -, -, hτ⟩
    · simp [hτ] at h
    · have hσ : (σ.threads t).context = [.call (.lwtSnd c₁ d'), .dieSnd] :=
        hs.at_.resolve_right (by simp)
      cases lastSend hs h0 with
      | taken hτ => simp [hτ] at h
      | stuck hτ =>
        rw [hs.carries hτ]
        exact fun u hu => hword u d' ((hP.asks c₁ d' hσ).2 u (hpar u hu))
    · simp [hτ] at h
  · have hσ := ht.context_eq hs hcur h (by simp)
    have hsame : (τ.threads t).messageData = (σ.threads t).messageData := by
      refine (exec_net hs.exec).message hcur ?_ hlt ?_
      · intro hz
        have hk : σ.currentKthd = k := hS.placed.kthd
        rw [hk] at hz
        exact (hS.sending_frame hlt hσ).1 (hS.placed.mem_recycle_iff.mp hz).2
      · exact fun _ _ _ hr => (hS.sending_frame hlt hσ).2 hr.1
    rw [hsame]
    exact fun u hu => hword u _ (hP.waits c' hσ u (hpar u hu))

omit hpar in
/-- Nobody but `t` waits to send on its exit channel. -/
theorem parting_queue (hS : InPlace σ k) (hS' : InPlace τ k) (hw : OwnerWaits σ l)
    (hwd : σ.sched.Wired) (hO : LastWordsOnly c σ l) (hlt : t < σ.nthreads)
    (hc : (σ.threads t).chl = c) {s : ThreadId} (hmem : s ∈ τ.queues (.sender c)) :
    s = t ∧ .dieSnd ∈ (τ.threads t).context := by
  rcases mem_sender_section hS hS' hw hs hmem with ⟨hcur, hσ⟩ | ⟨rfl, ⟨d, rfl⟩, hτ⟩
  · obtain ⟨rfl, hd⟩ := hP.queue hc s hσ
    refine ⟨rfl, ?_⟩
    obtain ⟨-, -, fs, hτ⟩ := hS'.placed.mem_sender hmem
    have hτ : (τ.threads s).context = .sndRet c :: fs := hτ
    rw [hτ, ← ht.context_eq hs hcur hτ (by simp)]
    exact hd
  · obtain ⟨rfl, hown⟩ := last_word_chl hs hE hO
    obtain rfl := hE.inj s (hwd.current _ _ hs.current) t hlt (hown.trans hc.symm)
    exact ⟨rfl, by simp [hτ]⟩

end Parting

/-- A section keeps the last word of `t` if only last words are sent on its exit channel. -/
theorem parting_section (hS : InPlace σ k) (hS' : InPlace τ k) (ht : WellFramed σ)
    (hw : OwnerWaits σ l)
    (hE : σ.Exits) (hwd : σ.sched.Wired) (hO : LastWordsOnly c σ l) (hs : Section σ l τ cur f rest)
    (hP : t < σ.nthreads → σ.Parting c t) (hlt : t < τ.nthreads) : τ.Parting c t := by
  rcases hs.instance_cases hwd hlt with ⟨hlt', hid, es, he, hborn⟩ | ⟨hc, hf⟩
  · have hP := hP hlt'
    have hpar (u : ThreadId) (hu : (τ.threads t).parent = some u) :
        (σ.threads t).parent = some u := (congrArg Ident.parent hid).symm.trans hu
    have hchl : (τ.threads t).chl = (σ.threads t).chl := congrArg Ident.chl hid
    have hword (u : ThreadId) (d : Data) (hl : LastWord σ.history u t d) :
        LastWord τ.history u t d := he ▸ hl.append (not_create_of_born hborn)
    exact {
      started := fun u hu => he ▸ (hP.started u (hpar u hu)).append hborn
      asks := fun c' d h => parting_asks hs ht hE hP hpar h
      waits := fun c' h => parting_waits hs ht hE hP hpar hS hlt' hword h
      said := fun h => parting_said hs ht hE hP h
      queue := fun hc s hmem =>
        parting_queue hs ht hE hP hS hS' hw hwd hO hlt' (hchl.symm.trans hc) hmem }
  · exact parting_creates hS hs hf hc

end Sections
end Lwt
