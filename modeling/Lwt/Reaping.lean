import Lwt.Join
import Lwt.Ledger
import Lwt.Lib.Overtaking

/-! What is left of a child when `lwt_join` returns. The child may have been resumed by the
receive of its last word only, and has to get the processor once more before the parent does:
it has to stay in front of the parent on the run queue, where `lwt_yield` to a thread
puts it before the last only. -/

namespace Lwt

open State

variable {σ τ σ' σ₀ : State} {l : Label} {cur t u z x J : ThreadId} {f : Frame}
  {rest : List Frame} {c : ChanId} {d : Data} {n : Next} {k : KthdId} {tr : List (State × Label)}

/-- A thread left at a frame at which no thread falls asleep or ends can run. -/
theorem Task.Parked.canRun {th : Task} (hp : th.Parked) {fr : Frame} {fs : List Frame}
    (hctx : th.context = fr :: fs) (hfr : fr ≠ .died ∧ (∀ c, fr ≠ .sndRet c) ∧
      (∀ c, fr ≠ .rcvRet c) ∧ (∀ c, fr ≠ .syncRcvLoop c) ∧ ∀ g, fr ≠ .cgrpWaitLoop g) :
    th.CanRun := by
  obtain ⟨hdied, hsnd, hrcv, hloop, hwait⟩ := hfr
  have hhead {fr' : Frame} {fs' : List Frame} (h : th.context = fr' :: fs') : fr = fr' :=
    (List.cons.inj (hctx.symm.trans h)).1
  cases hst : th.state with
  | runnable => exact .inl hst
  | running => exact .inr hst
  | zombies =>
    obtain ⟨fs', h⟩ := hp.dead hst
    exact absurd (hhead h) hdied
  | blocked =>
    cases hbf : th.blockFor with
    | sending =>
      obtain ⟨c, fs', h⟩ := hp.sending ⟨hst, hbf⟩
      exact absurd (hhead h) (hsnd c)
    | receiving =>
      rcases hp.receiving ⟨hst, hbf⟩ with ⟨c, fs', h, -⟩ | ⟨c, fs', h, -⟩ | ⟨g, fs', h⟩
      · exact absurd (hhead h) (hrcv c)
      · exact absurd (hhead h) (hloop c)
      · exact absurd (hhead h) (hwait g)

namespace Sched

variable {s s' s₁ : Sched} {b : Bool}

/-- Nobody resumes a thread that can run, unless it is inside a group wait. -/
theorem Placed.not_wakes (hp : s.Placed k) (hr : (s.tasks u).CanRun)
    (hg : ∀ g, (s.tasks u).context.head? ≠ some (.cgrpWaitLoop g)) : ¬ s.Wakes f u := by
  intro hw
  cases hw with
  | handOff c d _ _ h => exact hr.not_receiving h
  | sender c _ h => exact hr.not_sending (hp.mem_sender (List.mem_of_head? h)).2.1
  | group c d g _ hlt hb ho => exact hg g (ho ▸ hp.blocked g hlt hb)

variable (hp : s.Placed k) (hrun : s.Running k cur)

include hp hrun in
/-- The sections of others that move neither `z` nor `x` keep `z` in front of `x`. -/
theorem Act.behind (h : s.Act cur f rest b s₁) (hz : cur = z → ∃ c, f = .sndRet c)
    (hx : cur ≠ x) (hxq : x ∈ s.queues (.run k)) (hw : ∀ u, s.Wakes f u → u ≠ z ∧ u ≠ x)
    (hrcv : f ≠ .rcvThdRcv) (hyield : ∀ u, f ≠ .call (.lwtYield (some u)))
    (hB : Rings.Behind z x (s.queues (.run k))) : Rings.Behind z x (s₁.queues (.run k)) := by
  have hnd := hp.homed.nodup (.run k)
  have hk := hp.kthd
  have hown : (s.tasks cur).ownerKthd = k := hp.owner cur hrun.lt
  have herase (h : ∀ c, f ≠ .sndRet c) : Rings.Behind z x ((s.queues (.run k)).erase cur) := by
    refine hB.erase hnd fun hcz => ?_
    obtain ⟨c, hf⟩ := hz hcz
    exact h c hf
  have hwake {u : ThreadId} (hwu : s.Wakes f u) :
      Rings.Behind z x ((s.wake cur u).queues (.run k)) := by
    obtain ⟨huz, hux⟩ := hw u hwu
    simpa [hown] using (hB.erase hnd huz).beforeLast hux
  cases h with
  | quiet | lastWord | slThdBlock | newGroup | freeGroup | waitDone | adopt | idle => exact hB
  | wake u hwu => exact hwake hwu
  | recycle u fl mem hf hu =>
    have hu : u ∈ s.queues (.recycle s.currentKthd) := List.mem_of_head? hu
    have hne {v : ThreadId} (hv : v ∈ s.queues (.run k)) : u ≠ v := by
      rintro rfl
      exact absurd (hp.homed.unique hu hv) (by simp)
    simpa [hk] using (hB.erase hnd (hne hB.1)).concat (hne hxq)
  | create th =>
    have hne : s.ntasks ≠ x := (hp.mem_run_iff.mp hxq).1.ne'
    simpa [hk] using hB.concat hne
  | adoptMove u hf => exact absurd hf hrcv
  | yieldTo u hf => exact absurd hf (hyield u)
  | yield hf =>
    simpa [hown] using (herase (by simp [hf])).concat hx
  | sleepRcv rcving fr hf => exact herase (by cases hf <;> simp [*])
  | sleepGroup g hf => exact herase (by simp [hf])
  | sleepSnd c d hf => simpa [Rings.add_of_ne] using herase (by simp [hf])
  | wakeSleepSnd u c d hf hwu =>
    have hcz : cur ≠ z := fun h => by
      obtain ⟨c', hf'⟩ := hz h
      simp [hf'] at hf
    have hnd' := (hp.wake (hp.wakes_lt hwu) hrun.lt).homed.nodup (.run k)
    have hB' := (hwake hwu).erase hnd' hcz
    simpa [Rings.add_of_ne] using hB'
  | die hf => simpa [Rings.add_of_ne] using herase (by simp [hf])

end Sched

/-- The thread that step `l` links before the last of the run queue although it can run:
the one yielded to, or one that has been received over a channel. -/
def State.moved (σ : State) (l : Label) : Option ThreadId :=
  match σ.lwtCurrent, σ.frame l with
  | some cur, some (.call (.lwtYield (some t))) =>
    if t ≠ cur ∧ (σ.threads t).task.CanRun then some t else none
  | some cur, some .rcvThdRcv =>
    match (σ.threads cur).eax with
    | .thd t => if (σ.threads t).state = .runnable then some t else none
    | _ => none
  | _, _ => none

/-- If step `l` moves `z` or `x` on the run queue, `z` comes to stand in front of `x`. -/
def State.MovesInTurn (σ : State) (l : Label) (z x : ThreadId) : Prop :=
  ∀ u, σ.moved l = some u →
    (u = z → ((σ.queues (.run σ.currentKthd)).erase z).getLast? = some x) ∧
      (u = x → ((σ.queues (.run σ.currentKthd)).erase x).getLast? ≠ some z)

section Sections

variable (hs : Section σ l τ cur f rest)

include hs in
/-- The thread that runs behind a section has run before, or is the first of the run queue. -/
theorem Section.dispatches (hS : InPlace σ k) (hw : OwnerWaits σ l) :
    τ.lwtCurrent = some cur ∨
      ∃ t q, τ.queues (.run k) = t :: q ∧ τ.lwtCurrent = some t := by
  have hplaced {b : Bool} {s₁ : Sched} (h : σ.sched.Act cur f rest b s₁) :=
    h.placed hS.placed (hS.running_cur hs.current) hs.at_ (InPlace.owner hw hs)
  have hcurrent {t : ThreadId} (hk : τ.sched.currentKthd = k)
      (h : (τ.sched.kthds k).currentThread = some t) : τ.lwtCurrent = some t := by
    have hk : τ.currentKthd = k := hk
    simpa [lwtCurrent, kthd, hk] using h
  have heff := hS.effect hs
  have hgoal : τ.lwtCurrent = some cur ∨
      ∃ t q, τ.sched.queues (.run k) = t :: q ∧ τ.lwtCurrent = some t := by
    generalize τ.sched = s' at heff hcurrent
    cases heff with
    | stay h =>
      obtain ⟨hp, hrun⟩ := hplaced h
      exact .inl (hcurrent hp.kthd (hrun rfl).current)
    | @switch s₁ _ h hd =>
      obtain ⟨t, q, hq, rfl⟩ := hd
      have hk : s₁.currentKthd = k := (hplaced h).1.kthd
      rw [hk] at hq
      exact .inr ⟨t, q, hq, hcurrent hk (by simp [hk])⟩
  exact hgoal

/-- A thread moved in turn leaves `z` in front of `x`. -/
theorem behind_move (hS : InPlace σ k) (hmv : σ.MovesInTurn l z x)
    (hB : Rings.Behind z x (σ.queues (.run k))) (h : σ.moved l = some u) :
    Rings.Behind z x (Rings.beforeLast u ((σ.queues (.run k)).erase u)) := by
  have hturn := hmv u h
  have hk : σ.currentKthd = k := hS.placed.kthd
  rw [hk] at hturn
  exact hB.move (hS.placed.homed.nodup (.run k)) hturn.1 hturn.2

/-- `lwt_rcv_thd` moves the thread that it returns. -/
theorem behind_rcvThd (hs : Section σ l τ cur .rcvThdRcv rest) (hS : InPlace σ k)
    (hmv : σ.MovesInTurn l z x) (hB : Rings.Behind z x (σ.queues (.run k))) :
    Rings.Behind z x (τ.queues (.run k)) := by
  have hk : σ.currentKthd = k := hS.placed.kthd
  have hown : (σ.threads cur).ownerKthd = k :=
    hS.placed.owner cur (hS.running_cur hs.current).lt
  obtain ⟨⟨σ', n⟩, hb, hfin⟩ := bind_ok hs.exec
  rw [finish_queues hfin]
  obtain ⟨u, hu, -, -, ⟨-, rfl⟩ | ⟨hst, rfl⟩⟩ := lwtRcvThdRcv_ok hb
  · exact hB
  · have hmoved : σ.moved l = some u := by
      have hcur : σ.lwtCurrent = some cur := hs.current
      simp [moved, hcur, hs.frame, hu, hst]
    have hq : (σ.modThread u fun th => { th with ownerKthd := σ.currentKthd }).ownerRunQueue
        cur = .run k := by
      refine congrArg Queue.run ?_
      by_cases huc : cur = u
      · subst huc
        simp [hk]
      · simp [huc, hown]
    rw [hq]
    simpa using behind_move hS hmv hB hmoved

/-- `lwt_yield(u)` moves `u`. -/
theorem behind_yieldTo (hs : Section σ l τ cur (.call (.lwtYield (some u))) rest)
    (hS : InPlace σ k) (hmv : σ.MovesInTurn l z x) (hB : Rings.Behind z x (σ.queues (.run k))) :
    Rings.Behind z x (τ.queues (.run k)) := by
  have hown : (σ.threads cur).ownerKthd = k :=
    hS.placed.owner cur (hS.running_cur hs.current).lt
  obtain ⟨⟨σ', n⟩, hb, hfin⟩ := bind_ok hs.exec
  have hb : σ.lwtYield cur (some u) = .ok (σ', n) := hb
  rw [finish_queues hfin]
  obtain ⟨h, -⟩ | ⟨v, hv, -, ⟨-, rfl, -⟩ | ⟨hne, hr, rfl, -⟩⟩ := lwtYield_ok hb
  · cases h
  · exact hB
  · obtain rfl := Option.some.inj hv
    have hmoved : σ.moved l = some u := by
      have hcur : σ.lwtCurrent = some cur := hs.current
      simp [moved, hcur, hs.frame, hne, hr]
    simpa [ownerRunQueue, hown] using behind_move hS hmv hB hmoved

/-- The sections of others keep `z` in front of `x`, if what they move they move in turn. -/
theorem behind_section (hs : Section σ l τ cur f rest) (hS : InPlace σ k) (hS' : InPlace τ k)
    (hw : OwnerWaits σ l) (hz : cur = z → ∃ c, f = .sndRet c) (hx : cur ≠ x)
    (hxq : x ∈ σ.queues (.run k)) (hwk : ∀ u, σ.sched.Wakes f u → u ≠ z ∧ u ≠ x)
    (hmv : σ.MovesInTurn l z x) (hB : Rings.Behind z x (σ.queues (.run k))) :
    Rings.Behind z x (τ.queues (.run k)) ∧ τ.lwtCurrent ≠ some x := by
  have hp := hS.placed
  have hrun := hS.running_cur hs.current
  have hτ : Rings.Behind z x (τ.queues (.run k)) := by
    by_cases hrcv : f = .rcvThdRcv
    · subst hrcv
      exact behind_rcvThd hs hS hmv hB
    · by_cases hyield : ∃ u, f = .call (.lwtYield (some u))
      · obtain ⟨u, rfl⟩ := hyield
        exact behind_yieldTo hs hS hmv hB
      · have hyield : ∀ u, f ≠ .call (.lwtYield (some u)) := by simpa using hyield
        have hgoal : Rings.Behind z x (τ.sched.queues (.run k)) := by
          cases hS.effect hs with
          | stay h => exact h.behind hp hrun hz hx hxq hwk hrcv hyield hB
          | @switch s₁ _ h hd =>
            obtain ⟨t, q, -, hτ⟩ := hd
            have hB' := h.behind hp hrun hz hx hxq hwk hrcv hyield hB
            rw [hτ]
            exact hB'
        exact hgoal
  refine ⟨hτ, fun hcur => ?_⟩
  rcases hs.dispatches hS hw with h | ⟨t, q, hq, h⟩
  · exact hx (Option.some.inj (h.symm.trans hcur))
  · have hnd' := hS'.placed.homed.nodup (.run k)
    have hq' : τ.sched.queues (.run k) = t :: q := hq
    rw [hq'] at hnd'
    rw [hq] at hτ
    exact hτ.head_ne hnd' (Option.some.inj (h.symm.trans hcur))

/-- Thread `t`, which is to have exit channel `c`, is in front of `J` on the run queue of `k`
when `J` is about to return from `lwt_join(t)`, unless it has died. -/
def State.Ahead (σ : State) (k : KthdId) (J t : ThreadId) (c : ChanId) : Prop :=
  (∃ d, (σ.threads J).context = [.joinYield t d]) → (σ.threads t).chl = c → σ.Living t →
    Rings.Behind t J (σ.queues (.run k)) ∧ σ.lwtCurrent ≠ some J

/-- If step `l` moves `J`, which is in the yield of `lwt_join(t)`, or its child `t`, while this
is alive, the child comes to stand in front of `J`. -/
def KeepsTurn (J t : ThreadId) (c : ChanId) (σ : State) (l : Label) : Prop :=
  (σ.threads J).context.any (fun fr => fr.joined.any fun a => a.1 = t) = true →
    (σ.threads t).chl = c → σ.Living t → σ.MovesInTurn l t J

theorem keepsTurn_of_mem (hK : KeepsTurn J t c σ l) (hctx : .joinYield t d ∈ (σ.threads J).context)
    (hchl : (σ.threads t).chl = c) (hl : σ.Living t) : σ.MovesInTurn l t J := by
  refine hK ?_ hchl hl
  rw [List.any_eq_true]
  exact ⟨_, hctx, by simp [Frame.joined]⟩

/-- `__lwt_schedule` runs the first of the run queue. -/
theorem finish_schedule_head {fs : List Frame} (h : σ.finish cur rest (.schedule fs) = .ok τ) :
    ∃ t q, τ.queues τ.currentRunQueue = t :: q ∧ τ.lwtCurrent = some t := by
  obtain ⟨t, q, hq, rfl⟩ := lwtSchedule_ok h
  exact ⟨t, q, hq, by simp [lwtCurrent, kthd]⟩

/-- The stack of a child that is alive when its last word has been taken. -/
theorem taken_context (hW : Watched σ k c t) (hT : σ.Taken J t c d)
    (hchl : (σ.threads t).chl = c) (hl : σ.Living t) :
    (σ.threads t).task.CanRun ∧ ((∃ c', (σ.threads t).context = [.sndRet c', .dieSnd]) ∨
      (σ.threads t).context = [.dieSnd] ∧ σ.lwtCurrent = some t) := by
  rcases hT.leaving hchl hl with h | ⟨⟨c', h⟩, hr⟩
  · refine ⟨?_, .inr ⟨h, (hW.parting hl.1).said h⟩⟩
    have hctx : (σ.threads t).task.context = [.dieSnd] := h
    exact (hW.inPlace.placed.parked t hl.1).canRun hctx (by simp)
  · exact ⟨hr, .inl ⟨c', h⟩⟩

/-- The yield of `lwt_join` puts the child in front of its parent. -/
theorem ahead_yield (hs : Section σ l τ J (.call (.lwtYield (some t))) rest)
    (hW : Watched σ k c t) (hS' : InPlace τ k) (hT : σ.Taken J t c d)
    (hne : ∀ c', (σ.threads J).context.head? ≠ some (.sndRet c'))
    (hne' : (σ.threads J).context.head? ≠ some .dieSnd)
    (hchl : (σ.threads t).chl = c) (hl : σ.Living t) (hmv : σ.MovesInTurn l t J) :
    Rings.Behind t J (τ.queues (.run k)) ∧ τ.lwtCurrent ≠ some J := by
  have hk : σ.currentKthd = k := hW.inPlace.placed.kthd
  have hk' : τ.currentKthd = k := hS'.placed.kthd
  have hcur : σ.lwtCurrent = some J := hs.current
  have hown : (σ.threads J).ownerKthd = k :=
    hW.inPlace.placed.owner J (hW.inPlace.running_cur hs.current).lt
  obtain ⟨hr, hctx⟩ := taken_context hW hT hchl hl
  have htJ : t ≠ J := by
    rintro rfl
    rcases hctx with ⟨c', h⟩ | ⟨h, -⟩
    · exact hne c' (by simp [h])
    · exact hne' (by simp [h])
  obtain ⟨⟨σ', n⟩, hb, hfin⟩ := bind_ok hs.exec
  have hb : σ.lwtYield J (some t) = .ok (σ', n) := hb
  obtain ⟨h, -⟩ | ⟨v, hv, -, ⟨hno, -⟩ | ⟨-, -, rfl, rfl⟩⟩ := lwtYield_ok hb
  · cases h
  · obtain rfl := Option.some.inj hv
    rcases hno with h | h
    · exact absurd h htJ
    · exact absurd hr h
  · obtain rfl := Option.some.inj hv
    have hmoved : σ.moved l = some t := by simp [moved, hcur, hs.frame, htJ, hr]
    have hturn := (hmv t hmoved).1 rfl
    rw [hk] at hturn
    have hB : Rings.Behind t J (τ.queues (.run k)) := by
      rw [finish_queues hfin]
      simpa [ownerRunQueue, hown] using Rings.Behind.move_self hturn
    refine ⟨hB, fun hJ => ?_⟩
    obtain ⟨u, q, hq, hu⟩ := finish_schedule_head hfin
    have hq : τ.queues (.run k) = u :: q := hk' ▸ hq
    have hnd : (τ.queues (.run k)).Nodup := hS'.placed.homed.nodup (.run k)
    rw [hq] at hB hnd
    exact hB.head_ne hnd (Option.some.inj (hu.symm.trans hJ))

/-- The parent comes to the yield of `lwt_join` with the child in front of it. -/
theorem ahead_self (hs : Section σ l τ J f rest) (hW : Watched σ k c t) (hS' : InPlace τ k)
    (hj : σ.Joining J t c (σ.threads J).context) (hf : ∀ d, f ≠ .joinYield t d)
    (hK : KeepsTurn J t c σ l) (hτ : (τ.threads J).context = [.joinYield t d])
    (hchl : (σ.threads t).chl = c) (hl : σ.Living t) :
    Rings.Behind t J (τ.queues (.run k)) ∧ τ.lwtCurrent ≠ some J := by
  obtain ⟨⟨σ', n⟩, hb, hfin⟩ := bind_ok hs.exec
  have hframes := finish_frames hfin
  rw [hτ] at hframes
  have hrcv (fs : List Frame) : [.joinYield t d] ≠ fs ++ [.joinRcv t] := by
    intro h
    cases fs <;> simp at h
  generalize hctx : (σ.threads J).context = ctx at hj
  cases hj with
  | enter | wait | loop | block =>
    obtain ⟨rfl, rfl⟩ := hs.stack hctx
    exact absurd hframes (hrcv _)
  | got =>
    obtain ⟨rfl, rfl⟩ := hs.stack hctx
    cases hb
    simp [Next.frames] at hframes
  | yield d' _ hT =>
    obtain ⟨rfl, rfl⟩ := hs.stack hctx
    have hmv := keepsTurn_of_mem (d := d') hK (by simp [hctx]) hchl hl
    exact ahead_yield hs hW hS' hT (by simp [hctx]) (by simp [hctx]) hchl hl hmv
  | back d' =>
    obtain ⟨rfl, rfl⟩ := hs.stack hctx
    exact absurd rfl (hf d')

/-- The sections of others leave the child in front of its parent. -/
theorem ahead_other (hs : Section σ l τ cur f rest) (hW : Watched σ k c t) (hS' : InPlace τ k)
    (hw : OwnerWaits σ l) (hlt : J < σ.nthreads) (hJ : J ≠ cur)
    (hctx : (σ.threads J).context = [.joinYield t d]) (hT : σ.Taken J t c d)
    (hmv : σ.MovesInTurn l t J) (hchl : (σ.threads t).chl = c) (hl : σ.Living t)
    (hl' : τ.Living t) (hB : Rings.Behind t J (σ.queues (.run k))) :
    Rings.Behind t J (τ.queues (.run k)) ∧ τ.lwtCurrent ≠ some J := by
  have hp := hW.inPlace.placed
  obtain ⟨hr, hstack⟩ := taken_context hW hT hchl hl
  have hpark : (σ.threads J).task.Parked := hp.parked J hlt
  have hctx' : (σ.threads J).task.context = [.joinYield t d] := hctx
  have hrJ : (σ.threads J).task.CanRun := hpark.canRun hctx' (by simp)
  refine behind_section hs hW.inPlace hS' hw (fun hcur => ?_) (Ne.symm hJ)
    (hp.mem_run_iff.mpr ⟨hlt, hrJ⟩) (fun u hu => ⟨?_, ?_⟩) hmv hB
  · subst hcur
    rcases hstack with ⟨c', h⟩ | ⟨h, -⟩
    · exact ⟨c', (hs.stack h).1⟩
    · obtain ⟨rfl, rfl⟩ := hs.stack h
      exact absurd (dieSnd_section hW.wired hs).1 hl'.2
  · rintro rfl
    refine hp.not_wakes hr (fun g hg => ?_) hu
    have hg : (σ.threads u).context.head? = some (.cgrpWaitLoop g) := hg
    rcases hstack with ⟨c', h⟩ | ⟨h, -⟩
    · simp [h] at hg
    · simp [h] at hg
  · rintro rfl
    refine hp.not_wakes hrJ (fun g hg => ?_) hu
    have hg : (σ.threads u).context.head? = some (.cgrpWaitLoop g) := hg
    simp [hctx] at hg

/-- A section keeps the child in front of its parent. -/
theorem ahead_section (hs : Section σ l τ cur f rest) (hW : Watched σ k c t) (hS' : InPlace τ k)
    (hw : OwnerWaits σ l) (hc : σ.Child J t c) (hlt : J < σ.nthreads)
    (hj : σ.Joining J t c (σ.threads J).context) (hf : cur = J → ∀ d, f ≠ .joinYield t d)
    (hK : KeepsTurn J t c σ l) (hA : σ.Ahead k J t c) : τ.Ahead k J t c := by
  rintro ⟨d, hτ⟩ hchl hl
  have hold : (σ.threads t).chl = c ∧ σ.Living t := by
    have hnew (hcr : Creates σ τ cur t) : False := hc.made.ne' (hcr.chl.symm.trans hchl)
    refine ⟨?_, (hs.living_back hW.inPlace hW.wired hw hl).resolve_right hnew⟩
    rcases hs.instance_cases hW.wired hl.1 with ⟨-, hid, -⟩ | ⟨hcr, -⟩
    · exact (congrArg Ident.chl hid).symm.trans hchl
    · exact (hnew hcr).elim
  obtain ⟨hchlσ, hlσ⟩ := hold
  by_cases hJ : J = cur
  · subst hJ
    exact ahead_self hs hW hS' hj (hf rfl) hK hτ hchlσ hlσ
  · have hctx : (σ.threads J).context = [.joinYield t d] :=
      hW.wellFramed.context_eq hs hJ hτ (by simp)
    have hT : σ.Taken J t c d := by
      rw [hctx] at hj
      cases hj with
      | back _ hT => exact hT
    have hmv := keepsTurn_of_mem (d := d) hK (by simp [hctx]) hchlσ hlσ
    exact ahead_other hs hW hS' hw hlt hJ hctx hT hmv hchlσ hlσ hl
      (hA ⟨d, hctx⟩ hchlσ hlσ).1

end Sections

/-- Thread `t` has finished `lwt_die`: it waits for its structure to be used again, is not
counted as dying, and what it put on the block counter has been taken off again. -/
structure State.Reaped (σ : State) (k : KthdId) (t : ThreadId) : Prop where
  state : (σ.threads t).state = .zombies
  queue : ∀ q, t ∈ σ.queues q ↔ q = .recycle k
  zombieCounter : (σ.kthds k).zombieCounter = σ.numThreads fun th => .dieSnd ∈ th.context
  notDying : .dieSnd ∉ (σ.threads t).context
  blockCounter : (σ.kthds k).blockCounter = ∑ u ∈ Finset.range σ.nthreads, σ.blockShare u
  share : σ.blockShare t ≤ 0

/-- The books of kernel thread `k` are in order. -/
structure State.Audited (σ : State) (k : KthdId) : Prop where
  inPlace : InPlace σ k
  wellFramed : WellFramed σ
  wired : σ.sched.Wired
  mortal : σ.Mortal
  ledger : σ.Ledger k
  dying : σ.CountsDying k

/-- Who has died and has not been started again is reaped. -/
theorem State.Audited.reaped (hA : σ.Audited k) (ht : t < σ.nthreads) (hl : ¬ σ.Living t) :
    σ.Reaped k t := by
  have hz : (σ.threads t).state = .zombies := not_not.mp fun h => hl ⟨ht, h⟩
  have hq : t ∈ σ.queues (.recycle k) := hA.inPlace.placed.mem_recycle_iff.mpr ⟨ht, hz⟩
  refine ⟨hz, fun q => ⟨fun h => hA.wired.unique h hq, fun h => h ▸ hq⟩, hA.dying, fun hd => ?_,
    hA.ledger.total, hA.ledger.queued t (.inr hq)⟩
  obtain ⟨fs, hctx⟩ := (hA.inPlace.placed.parked t ht).dead hz
  have hctx : (σ.threads t).context = .died :: fs := hctx
  have hshape := hA.mortal.dying t hd
  rw [hctx] at hshape
  cases hshape

theorem Run.audited (h : Run σ₀ tr σ) (hb : σ₀.Boot k) (hC : ∀ p ∈ tr, Ordinary p.1 p.2) :
    ∀ v ∈ Transition.visited tr σ, v.Audited k := by
  intro v hv
  obtain ⟨tr', hr, hpre⟩ := h.of_mem_visited hv
  refine hr.invariant_of (I := fun u => u.Audited k) (C := Ordinary)
    (fun p hp => hC p (hpre.subset hp)) ?_ ?_
  · have hboot := boot_ok hb
    exact ⟨hboot.inPlace, hboot.wellFramed, boot_wired hb, boot_mortal hb, boot_ledger hb,
      boot_countsDying hb⟩
  · intro s l s' hI hC hs
    obtain ⟨cur, f, rest, hsec⟩ := step_local hs hC.1
    have hS' := hI.inPlace.step hC.1 hC.2 hs
    exact ⟨hS', hI.wellFramed.step hs, wired_step hI.wellFramed hI.wired hs,
      mortal_section hsec hI.mortal hI.wellFramed hI.wired,
      ledger_section hsec hI.inPlace hS' hC.2 hI.ledger,
      dying_section hsec hI.inPlace hC.2 hI.mortal hI.dying⟩

/-- The child stays in front of its parent up to the return of `lwt_join`. -/
theorem ahead_run (h : Run σ₀ tr σ) (hb : σ₀.Boot k) (hC : ∀ p ∈ tr, Ordinary p.1 p.2)
    (hO : ∀ p ∈ tr, LastWordsOnly c p.1 p.2) (hK : ∀ p ∈ tr, KeepsTurn J t c p.1 p.2) {i j : ℕ}
    (hj : JoinCall tr i j J t c d) :
    ∀ v, (Transition.visited tr σ)[j]? = some v → v.Ahead k J t c := by
  obtain ⟨s, hp, hcur, hpar, hnj, hchl⟩ := hj.called
  refine h.between (P := fun v => v.Ahead k J t c) (Nat.succ_le_of_lt hj.lt) ?_ ?_
  · intro v hv
    obtain ⟨cur, hs⟩ := step_call (h.step_visited hp hv)
    obtain rfl := Option.some.inj (hcur.symm.trans hs.current)
    have hWs := h.watched hb hC hO (t := t) (List.mem_of_getElem? hp)
    obtain ⟨-, hctx, -⟩ := join_enter hs hWs hpar hnj hchl
    rintro ⟨d', hd⟩
    simp [hctx] at hd
  · intro m p v him hmj hp hs hA
    have hmem := List.mem_of_getElem? hp
    obtain ⟨hl, hw⟩ := hC p hmem
    obtain ⟨hc, hlt, hjoin⟩ :=
      joining_run h hb hC hO hj m him hmj.le p.1 (Transition.visited_of_getElem? hp)
    obtain ⟨cur, f, rest, hsec⟩ := step_local hs hl
    have hW := h.watched hb hC hO (t := t) hmem
    refine ahead_section hsec hW (hW.inPlace.step hl hw hs) hw hc hlt hjoin ?_ (hK p hmem) hA
    rintro rfl d' rfl
    exact hj.first m him hmj p hp hsec.current d' hsec.frame

/-- If the child is still in its structure when the join returns, it has finished `lwt_die`. -/
theorem reaped_back (h : Run σ₀ tr σ) (hb : σ₀.Boot k) (hC : ∀ p ∈ tr, Ordinary p.1 p.2)
    {i j : ℕ} {q : State × Label} (hj : JoinCall tr i j J t c d)
    (hO : ∀ p ∈ tr, LastWordsOnly c p.1 p.2) (hK : ∀ p ∈ tr, KeepsTurn J t c p.1 p.2)
    (hq : tr[j]? = some q) (hcur : q.1.lwtCurrent = some J)
    (hf : q.1.frame q.2 = some (.joinYield t d)) (hchl : (q.1.threads t).chl = c) :
    q.1.Reaped k t := by
  have hqv := Transition.visited_of_getElem? (s := σ) hq
  obtain ⟨hchild, -, hjoin⟩ := joining_run h hb hC hO hj j hj.lt le_rfl q.1 hqv
  refine (h.audited hb hC q.1 (List.mem_of_getElem? hqv)).reaped hchild.lt fun hl => ?_
  obtain ⟨-, s', -, -, hs⟩ := h.of_mem (List.mem_of_getElem? hq)
  obtain ⟨cur, f, rest, hsec⟩ := step_local hs (hC q (List.mem_of_getElem? hq)).1
  obtain rfl := Option.some.inj (hcur.symm.trans hsec.current)
  obtain rfl := Option.some.inj (hf.symm.trans hsec.frame)
  have hctx : (q.1.threads J).context = .joinYield t d :: rest :=
    hsec.at_.resolve_right (by simp)
  have hback : ∃ d', (q.1.threads J).context = [.joinYield t d'] := by
    rw [hctx] at hjoin
    cases hjoin
    exact ⟨d, hctx⟩
  exact (ahead_run h hb hC hO hK hj q.1 hqv hback hchl hl).2 hcur

/-- A child whose structure is used again before the join returns has finished `lwt_die` before. -/
theorem reaped_reused (h : Run σ₀ tr σ) (hb : σ₀.Boot k) (hC : ∀ p ∈ tr, Ordinary p.1 p.2)
    {i j m : ℕ} {p : State × Label} {s' : State} (hj : JoinCall tr i j J t c d)
    (hO : ∀ p ∈ tr, LastWordsOnly c p.1 p.2) (him : i ≤ m) (hmj : m < j)
    (hp : tr[m]? = some p) (hs' : (Transition.visited tr σ)[m + 1]? = some s')
    (hchl : (p.1.threads t).chl = c) (hnew : (s'.threads t).chl ≠ c) :
    i < m ∧ p.1.Reaped k t := by
  obtain ⟨s, hi, -⟩ := hj.called
  have hvm := Transition.visited_of_getElem? (s := σ) hp
  have hA := h.audited hb hC p.1 (List.mem_of_getElem? hvm)
  have hlt' := (joining_run h hb hC hO hj (m + 1) (Nat.lt_succ_of_le him) hmj s' hs').1.lt
  obtain ⟨cur, f, rest, hsec⟩ :=
    step_local (h.step_visited hp hs') (hC p (List.mem_of_getElem? hp)).1
  -- what is used again was on the recycle queue
  obtain ⟨hcr, flags, mem, rfl⟩ : Creates p.1 s' cur t ∧
      ∃ flags mem, f = .call (.lwtCreate flags mem) := by
    refine (hsec.instance_cases hA.wired hlt').resolve_left fun hsame => hnew ?_
    exact (congrArg Ident.chl hsame.2.1).trans hchl
  have hne : i ≠ m := by
    rintro rfl
    obtain rfl := Option.some.inj (hi.symm.trans hp)
    cases hsec.frame
  have hlt := lt_of_le_of_ne him hne
  obtain ⟨hchild, -⟩ := joining_run h hb hC hO hj m hlt hmj.le p.1 hvm
  exact ⟨hlt, hA.reaped hchild.lt (hcr.not_living hA.inPlace)⟩

/-- When `lwt_join(t)` returns, the child that was in structure `t` has finished `lwt_die`, if
nobody but the child sends its last word and whenever the child or its parent is moved on the
run queue the child comes to stand in front. -/
theorem join_reaps (h : Run σ₀ tr σ) (hb : σ₀.Boot k) (hC : ∀ p ∈ tr, Ordinary p.1 p.2) {i j : ℕ}
    (hj : JoinCall tr i j J t c d) (hO : ∀ p ∈ tr, LastWordsOnly c p.1 p.2)
    (hK : ∀ p ∈ tr, KeepsTurn J t c p.1 p.2) :
    (∃ m v, i < m ∧ m ≤ j ∧ (Transition.visited tr σ)[m]? = some v ∧ (v.threads t).chl = c ∧
      v.Reaped k t) ∧
    ∀ v, (Transition.visited tr σ)[j]? = some v → (v.threads t).chl = c → v.Reaped k t := by
  obtain ⟨q, hq, hcur, hf⟩ := hj.returned
  have hqv := Transition.visited_of_getElem? (s := σ) hq
  refine ⟨?_, fun v hv hchl => ?_⟩
  · by_cases hchl : (q.1.threads t).chl = c
    · exact ⟨j, q.1, hj.lt, le_rfl, hqv, hchl, reaped_back h hb hC hj hO hK hq hcur hf hchl⟩
    · obtain ⟨s, hp, -, -, -, hs⟩ := hj.called
      have hi : ∀ u, (Transition.visited tr σ)[i]? = some u → (u.threads t).chl = c := by
        intro u hu
        obtain rfl := Option.some.inj ((Transition.visited_of_getElem? hp).symm.trans hu)
        exact hs
      obtain ⟨m, p, s', him, hmj, hpm, hs', hPm, hnm⟩ := Transition.exists_lost
        (P := fun v => (v.threads t).chl = c) hj.lt.le hi hqv hchl
      obtain ⟨hlt, hreaped⟩ := reaped_reused h hb hC hj hO him hmj hpm hs' hPm hnm
      exact ⟨m, p.1, hlt, hmj.le, Transition.visited_of_getElem? hpm, hPm, hreaped⟩
  · obtain rfl := Option.some.inj (hv.symm.trans hqv)
    exact reaped_back h hb hC hj hO hK hq hcur hf hchl

instance (σ : State) (l : Label) (z x : ThreadId) : Decidable (σ.MovesInTurn l z x) :=
  decidable_of_iff (∀ u ∈ σ.moved l,
    (u = z → ((σ.queues (.run σ.currentKthd)).erase z).getLast? = some x) ∧
      (u = x → ((σ.queues (.run σ.currentKthd)).erase x).getLast? ≠ some z)) Iff.rfl

instance (J t : ThreadId) (c : ChanId) (σ : State) (l : Label) : Decidable (KeepsTurn J t c σ l) :=
  inferInstanceAs (Decidable (_ → _ → _ → _))

/-- A child dies and is suspended in the send of its last word. The main thread, alone on the
run queue, joins it. -/
def reapRun : List Label :=
  [.call (.lwtCreate 0 createMem), .call (.lwtYield none), .call (.lwtDie (.word 7)), .resume,
    .call (.lwtJoin 1), .resume, .resume, .resume, .resume, .resume, .resume]

theorem reapRun_joins : JoinCall (booted.trace reapRun) 4 10 0 1 1 (.word 7) where
  lt := by decide
  called := ⟨_, trace_getElem? booted rfl (by decide +kernel), by decide +kernel,
    by decide +kernel, by decide +kernel, by decide +kernel⟩
  returned := ⟨_, trace_getElem? booted rfl (by decide +kernel), by decide +kernel,
    (frame_eq_iff (a := (1, .word 7)) Frame.joined_eq_some).mp (by decide +kernel)⟩
  first := first_iff.mp (by decide +kernel)

theorem reapRun_reaps : (booted.after (reapRun.take 10)).Reaped 1 1 := by
  have hlen : 10 < (booted.trace reapRun).length := by decide +kernel
  have hlast : (Transition.visited (booted.trace reapRun) (booted.after reapRun))[10]? =
      some (booted.after (reapRun.take 10)) := visited_trace_getElem? booted rfl hlen
  have hchl : ((booted.after (reapRun.take 10)).threads 1).chl = 1 := by decide +kernel
  have h := join_reaps (run_trace booted reapRun) boot_booted (by decide +kernel) reapRun_joins
    (by decide +kernel) (by decide +kernel)
  exact h.2 _ hlast hchl

/-- A second child is on the run queue when the main thread joins the first. -/
def crowdRun : List Label :=
  [.call (.lwtCreate 0 createMem), .call (.lwtCreate 0 createMem), .call (.lwtYield none),
    .call (.lwtDie (.word 7)), .resume, .call (.lwtYield none), .call (.lwtJoin 1), .resume,
    .resume, .resume, .resume]

theorem crowdRun_joins : JoinCall (booted.trace crowdRun) 6 10 0 1 1 (.word 7) where
  lt := by decide
  called := ⟨_, trace_getElem? booted rfl (by decide +kernel), by decide +kernel,
    by decide +kernel, by decide +kernel, by decide +kernel⟩
  returned := ⟨_, trace_getElem? booted rfl (by decide +kernel), by decide +kernel,
    (frame_eq_iff (a := (1, .word 7)) Frame.joined_eq_some).mp (by decide +kernel)⟩
  first := first_iff.mp (by decide +kernel)

/-- The join has returned, and the child is still on the run queue, inside `lwt_die`. -/
theorem crowdRun_returns_early : (∀ p ∈ booted.trace crowdRun, Ordinary p.1 p.2) ∧
    JoinCall (booted.trace crowdRun) 6 10 0 1 1 (.word 7) ∧
      (∀ p ∈ booted.trace crowdRun, LastWordsOnly 1 p.1 p.2) ∧
        1 ∈ (booted.after crowdRun).queues (.run 1) ∧
          ((booted.after crowdRun).kthds 1).zombieCounter = 1 ∧
            ¬ (booted.after crowdRun).Reaped 1 1 := by
  have hstate : ((booted.after crowdRun).threads 1).state = .runnable := by decide +kernel
  have hrun : 1 ∈ (booted.after crowdRun).queues (.run 1) := by decide +kernel
  have hcount : ((booted.after crowdRun).kthds 1).zombieCounter = 1 := by decide +kernel
  refine ⟨by decide +kernel, crowdRun_joins, by decide +kernel, hrun, hcount, fun h => ?_⟩
  exact absurd (h.state.symm.trans hstate) (by decide)

end Lwt
