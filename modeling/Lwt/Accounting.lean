import Lwt.Single
import Lwt.Lib.Count

/-! The counters of blocked threads. They are exact as long as no group wake-up
resumes an owner that is not asleep: `lwt_snd` tests the flag of the group, which
stays up from the first wake-up until the owner has run. -/

namespace Lwt

namespace Sched

variable {s s' s₁ : Sched} {k : KthdId} {cur t : ThreadId} {f : Frame} {rest : List Frame}
  {b : Bool}

abbrev number (s : Sched) (p : Task → Prop) [DecidablePred p] : ℕ := numBelow p s.tasks s.ntasks

/-- The counters of kernel thread `k` are the numbers of its blocked threads. -/
structure Accounted (s : Sched) (k : KthdId) : Prop where
  blocked : (s.kthds k).blockCounter = s.number fun th => th.state = .blocked
  receiving : (s.kthds k).nrcving = s.number Task.Receiving
  sending : (s.kthds k).nsnding = s.number Task.Sending

/-- Counters and threads change together. -/
theorem accounted_congr (hk : (s₁.kthds k).blockCounter = (s.kthds k).blockCounter ∧
      (s₁.kthds k).nrcving = (s.kthds k).nrcving ∧ (s₁.kthds k).nsnding = (s.kthds k).nsnding)
    (hn : s₁.ntasks = s.ntasks)
    (ht : ∀ t < s.ntasks, ((s₁.tasks t).state = .blocked ↔ (s.tasks t).state = .blocked) ∧
      (s₁.tasks t).blockFor = (s.tasks t).blockFor) : s₁.Accounted k ↔ s.Accounted k := by
  have hnum (p : Task → Prop) [DecidablePred p]
      (hp : ∀ t < s.ntasks, p (s₁.tasks t) ↔ p (s.tasks t)) : s₁.number p = s.number p := by
    rw [number, hn]
    exact numBelow_congr hp
  have h1 := hnum (fun th => th.state = .blocked) fun t h => (ht t h).1
  have h2 := hnum Task.Receiving fun t h => by simp only [Task.Receiving, ht t h]
  have h3 := hnum Task.Sending fun t h => by simp only [Task.Sending, ht t h]
  obtain ⟨hk1, hk2, hk3⟩ := hk
  constructor
  · rintro ⟨a, b, c⟩
    exact ⟨by rw [← h1, ← a, hk1], by rw [← h2, ← b, hk2], by rw [← h3, ← c, hk3]⟩
  · rintro ⟨a, b, c⟩
    exact ⟨by rw [h1, ← a, hk1], by rw [h2, ← b, hk2], by rw [h3, ← c, hk3]⟩

/-- The three counters, compared with three numbers of threads. -/
theorem accounted_iff : s.Accounted k ↔
    (s.kthds k).blockCounter = s.number (fun th => th.state = .blocked) ∧
      (s.kthds k).nrcving = s.number Task.Receiving ∧ (s.kthds k).nsnding = s.number Task.Sending :=
  ⟨fun h => ⟨h.blocked, h.receiving, h.sending⟩, fun h => ⟨h.1, h.2.1, h.2.2⟩⟩

/-- A thread that was not blocked falls asleep and is counted. -/
theorem count_accounted_iff (hk : s.currentKthd = k) (ht : t < s.ntasks)
    (hr : (s.tasks t).state ≠ .blocked) (th : Task) (hth : th.state = .blocked)
    (queues : Rings Queue ThreadId) :
    ({ s.count th.blockFor with
      tasks := Function.update s.tasks t th, queues := queues } : Sched).Accounted k ↔
      s.Accounted k := by
  subst hk
  have h1 := numBelow_update (fun th : Task => th.state = .blocked) s.tasks ht th
  have h2 := numBelow_update Task.Receiving s.tasks ht th
  have h3 := numBelow_update Task.Sending s.tasks ht th
  simp only [hr, if_false, hth, if_true, add_zero] at h1
  simp only [Task.Receiving, Task.Sending, hr, false_and, if_false, hth, true_and, add_zero]
    at h2 h3
  simp only [accounted_iff, number, count_kthds, count_ntasks, Function.update_self]
  refine and_congr ?_ (and_congr ?_ ?_)
  · rw [h1]
    push_cast
    omega
  · rw [h2]
    push_cast
    omega
  · rw [h3]
    push_cast
    omega

/-- A thread that is resumed is taken off the counters, which is right exactly if
it was on them. -/
theorem wake_accounted_iff (hs : s.Accounted k) (hk : s.currentKthd = k) (ht : t < s.ntasks) :
    (s.wake cur t).Accounted k ↔ (s.tasks t).state = .blocked := by
  subst hk
  let th : Task := { s.tasks t with state := .runnable }
  have htasks : (s.wake cur t).tasks = Function.update s.tasks t th := rfl
  have h1 := numBelow_update (fun th : Task => th.state = .blocked) s.tasks ht th
  have h2 := numBelow_update Task.Receiving s.tasks ht th
  have h3 := numBelow_update Task.Sending s.tasks ht th
  rw [accounted_iff] at hs
  obtain ⟨a, b, c⟩ := hs
  simp only [th, reduceCtorEq, if_false, add_zero] at h1
  simp only [Task.Receiving, Task.Sending, th, reduceCtorEq, false_and, if_false, add_zero] at h2 h3
  simp only [accounted_iff, number, wake_kthds, htasks, wake_ntasks, Function.update_self, a, b, c]
  dsimp only [th]
  constructor
  · rintro ⟨a', -, -⟩
    by_contra hne
    rw [if_neg hne] at h1
    omega
  · intro hb
    simp only [hb, if_true, true_and] at h1 h2 h3
    refine ⟨?_, ?_, ?_⟩
    · rw [← h1]
      push_cast
      omega
    · rw [← h2]
      push_cast
      omega
    · rw [← h3]
      push_cast
      omega

theorem leave_accounted_iff {ctx : List Frame} :
    (s.leave cur ctx).Accounted k ↔ s.Accounted k :=
  accounted_congr ⟨rfl, rfl, rfl⟩ rfl fun t _ => ⟨by rw [leave_state], by rw [leave_blockFor]⟩

theorem Placed.dispatch_accounted_iff (hp : s.Placed k) (h : s.Dispatch s') :
    s'.Accounted k ↔ s.Accounted k := by
  have hsame := hp.dispatch_same h
  obtain ⟨t, rest, -, rfl⟩ := h
  refine accounted_congr ?_ rfl fun u _ => ⟨(hsame u).state_iff, (hsame u).blockFor⟩
  rw [← hp.kthd]
  simp

theorem sleepRcv_accounted_iff (hk : s.currentKthd = k) (ht : cur < s.ntasks)
    (hr : (s.tasks cur).CanRun) {rcving : Option ChanId} {ctx : List Frame} :
    (s.sleepRcv cur rcving ctx).Accounted k ↔ s.Accounted k :=
  count_accounted_iff hk ht (by rcases hr with h | h <;> simp [h])
    ⟨.blocked, .receiving, rcving, ctx, (s.tasks cur).ownerKthd⟩ rfl _

theorem sleepSnd_accounted_iff (hk : s.currentKthd = k) (ht : cur < s.ntasks)
    (hr : (s.tasks cur).CanRun) {c : ChanId} {ctx : List Frame} :
    (s.sleepSnd cur c ctx).Accounted k ↔ s.Accounted k :=
  count_accounted_iff hk ht (by rcases hr with h | h <;> simp [h])
    ⟨.blocked, .sending, (s.tasks cur).nowRcving, ctx, (s.tasks cur).ownerKthd⟩ rfl _

theorem moved_accounted_iff {queues : Rings Queue ThreadId} :
    ({ s with queues := queues } : Sched).Accounted k ↔ s.Accounted k :=
  accounted_congr ⟨rfl, rfl, rfl⟩ rfl fun _ _ => ⟨Iff.rfl, rfl⟩

theorem grouped_accounted_iff {cgrps : CgrpId → Cgrp} {n : ℕ} :
    ({ s with cgrps := cgrps, ncgrps := n } : Sched).Accounted k ↔ s.Accounted k :=
  accounted_congr ⟨rfl, rfl, rfl⟩ rfl fun _ _ => ⟨Iff.rfl, rfl⟩

theorem modKthd_accounted_iff {k' : KthdId} {f : Kthd → Kthd}
    (hf : ∀ kt, (f kt).blockCounter = kt.blockCounter ∧ (f kt).nrcving = kt.nrcving ∧
      (f kt).nsnding = kt.nsnding) : (s.modKthd k' f).Accounted k ↔ s.Accounted k := by
  refine accounted_congr ?_ rfl fun _ _ => ⟨Iff.rfl, rfl⟩
  by_cases hk : k = k'
  · subst hk
    simpa using hf _
  · simp [hk]

/-- A thread that was not blocked gets other fields and is not blocked. -/
theorem awake_accounted_iff (t : ThreadId) (th : Task)
    (hk : (s₁.kthds k).blockCounter = (s.kthds k).blockCounter ∧
      (s₁.kthds k).nrcving = (s.kthds k).nrcving ∧ (s₁.kthds k).nsnding = (s.kthds k).nsnding)
    (hn : s₁.ntasks = s.ntasks) (ht : s₁.tasks = Function.update s.tasks t th)
    (h0 : (s.tasks t).state ≠ .blocked) (h1 : th.state ≠ .blocked) :
    s₁.Accounted k ↔ s.Accounted k := by
  have hnum (p : Task → Prop) [DecidablePred p] (hp : ∀ th, p th → th.state = .blocked) :
      s₁.number p = s.number p := by
    rw [number, hn, ht]
    refine numBelow_congr fun u _ => ?_
    by_cases hu : u = t
    · subst hu
      rw [Function.update_self]
      exact iff_of_false (fun h => h1 (hp _ h)) fun h => h0 (hp _ h)
    · rw [Function.update_of_ne hu]
  rw [accounted_iff, accounted_iff, hnum _ fun _ h => h, hnum Task.Receiving fun _ h => h.1,
    hnum Task.Sending fun _ h => h.1, hk.1, hk.2.1, hk.2.2]

/-- A thread starts in a structure of its own. -/
theorem create_accounted_iff {th : Task} :
    ({ s.spawn s.ntasks th with ntasks := s.ntasks + 1 } : Sched).Accounted k ↔
      s.Accounted k := by
  have hnum (p : Task → Prop) [DecidablePred p]
      (h1 : ¬ p { th with state := .running, context := [], ownerKthd := s.currentKthd }) :
      ({ s.spawn s.ntasks th with ntasks := s.ntasks + 1 } : Sched).number p = s.number p :=
    (numBelow_push p s.tasks _).trans (by rw [if_neg h1]; rfl)
  rw [accounted_iff, accounted_iff, hnum, hnum, hnum]
  · rfl
  all_goals simp [Task.Receiving, Task.Sending]

/-- A section keeps the counters exact if it resumes blocked threads only. -/
theorem Act.accounted (hp : s.Placed k) (hrun : s.Running k cur)
    (hw : ∀ t, s.Wakes f t → (s.tasks t).state = .blocked) (hs : s.Accounted k)
    (h : s.Act cur f rest b s₁) : s₁.Accounted k := by
  cases h with
  | quiet => exact leave_accounted_iff.mpr hs
  | lastWord => exact leave_accounted_iff.mpr ((modKthd_accounted_iff (by simp)).mpr hs)
  | slThdBlock => exact leave_accounted_iff.mpr ((modKthd_accounted_iff (by simp)).mpr hs)
  | wake t h =>
    exact leave_accounted_iff.mpr ((wake_accounted_iff hs hp.kthd (hp.wakes_lt h)).mpr (hw t h))
  | recycle t fl mem hf ht =>
    rw [hp.kthd] at ht
    have hz := (hp.mem_recycle_iff.mp (List.mem_of_head? ht)).2
    refine leave_accounted_iff.mpr ((awake_accounted_iff t
      { s.tasks t with state := .running, context := [], ownerKthd := s.currentKthd }
      ?_ ?_ ?_ (by simp [hz]) (by simp)).mpr hs)
    exacts [⟨rfl, rfl, rfl⟩, rfl, rfl]
  | create => exact leave_accounted_iff.mpr (create_accounted_iff.mpr hs)
  | newGroup =>
    exact leave_accounted_iff.mpr (grouped_accounted_iff (s := s).mpr hs)
  | freeGroup | waitDone => exact leave_accounted_iff.mpr (grouped_accounted_iff (s := s).mpr hs)
  | adopt t hf ht =>
    rw [hp.adopt ht]
    exact leave_accounted_iff.mpr hs
  | adoptMove t hf ht =>
    rw [hp.adopt ht]
    exact leave_accounted_iff.mpr (moved_accounted_iff.mpr hs)
  | yield | yieldTo => exact moved_accounted_iff.mpr (leave_accounted_iff.mpr hs)
  | idle => exact leave_accounted_iff.mpr hs
  | sleepRcv => exact (sleepRcv_accounted_iff hp.kthd hrun.lt hrun.canRun).mpr hs
  | sleepGroup =>
    exact (sleepRcv_accounted_iff (s := s.modCgrp _ _) hp.kthd hrun.lt hrun.canRun).mpr
      (grouped_accounted_iff.mpr hs)
  | sleepSnd => exact (sleepSnd_accounted_iff hp.kthd hrun.lt hrun.canRun).mpr hs
  | wakeSleepSnd t c d hf h =>
    have hrun' := hrun.wake t
    exact (sleepSnd_accounted_iff (s := s.wake cur t) hp.kthd hrun'.lt hrun'.canRun).mpr
      ((wake_accounted_iff hs hp.kthd (hp.wakes_lt h)).mpr (hw t h))
  | die =>
    refine (awake_accounted_iff cur
      { s.tasks cur with state := .zombies, context := .died :: rest } ?_ ?_ ?_ ?_ (by simp)).mpr hs
    · rw [← hp.kthd]
      simp
    · rfl
    · rfl
    · rcases hrun.canRun with h | h <;> simp [h]

end Sched

/-- A send to `c` that wakes the group of `c` finds the owner of the group asleep. -/
def State.WakesAsleep (σ : State) (c : ChanId) : Prop :=
  ∀ r g, (σ.chans c).type = .local → (σ.chans c).receiver = some r →
    ¬ ((σ.threads r).task.Receiving ∧ (σ.threads r).nowRcving = some c) →
    (σ.chans c).cgroup = some g → (σ.cgrps g).blocked = true →
    (σ.threads (σ.cgrps g).owner).state = .blocked

/-- If the step calls `lwt_snd`, it wakes the group only while its owner sleeps. -/
def WakesAsleep (σ : State) (l : Label) : Prop :=
  ∀ c d, σ.frame l = some (.call (.lwtSnd c d)) → σ.WakesAsleep c

section Steps

variable {σ τ σ' σ₀ : State} {l : Label} {k : KthdId} {cur : ThreadId} {f : Frame}
  {rest : List Frame} {c : ChanId} {d : Data} {n : Next}

open Sched

/-- The group wake-up keeps the counters exact if and only if the owner slept. -/
theorem State.WakeGroup.accounted_iff {cgroup : Option CgrpId} (hp : σ.sched.Placed k)
    (ha : σ.sched.Accounted k) (h : WakeGroup σ cur cgroup τ) :
    τ.sched.Accounted k ↔ ∀ g, cgroup = some g → (σ.cgrps g).blocked = true →
      (σ.threads (σ.cgrps g).owner).state = .blocked := by
  cases h with
  | skip h =>
    refine iff_of_true ha fun g hg hb => ?_
    rw [h g hg] at hb
    cases hb
  | wake g hc hg hb =>
    rw [State.resumeThread_sched]
    refine (wake_accounted_iff ha hp.kthd (hp.cgrpOwner g hg)).trans ?_
    constructor
    · rintro hs g' hg' -
      obtain rfl : g = g' := Option.some.inj (hc.symm.trans hg')
      exact hs
    · exact fun hs => hs g hc hb

/-- `lwt_snd` keeps the counters exact if and only if it wakes no owner that is
not asleep. -/
theorem snd_accounted_iff (h : InPlace σ k) (hs : Section σ l τ cur (.call (.lwtSnd c d)) rest)
    (ha : σ.sched.Accounted k) : τ.sched.Accounted k ↔ σ.WakesAsleep c := by
  obtain ⟨⟨σ', n⟩, hb, hfin⟩ := bind_ok hs.exec
  obtain ⟨-, -, hsnd⟩ := State.lwtSnd_ok hb
  have hrun := h.running_cur hs.current
  have wakes {σ₁ : State} {r : ThreadId} (ht : (σ.chans c).type = .local)
      (hr : (σ.chans c).receiver = some r)
      (hb : ¬ ((σ.threads r).task.Receiving ∧ (σ.threads r).nowRcving = some c))
      (hw : State.WakeGroup (σ.modChan c fun ch => { ch with ready := 1 }) cur (σ.chans c).cgroup
        σ₁) : σ₁.sched.Accounted k ↔ σ.WakesAsleep c := by
    rw [hw.accounted_iff (σ := σ.modChan c _) (k := k) h.placed ha]
    constructor
    · exact fun hg r' g _ hr' _ => hg g
    · exact fun hg g => hg r g ht hr hb
  cases hsnd with
  | sync r ht =>
    rw [State.finish_goto hfin, leave_accounted_iff]
    exact iff_of_true ha fun r g hl => by simp [ht] at hl
  | noReceiver ht hr =>
    rw [State.finish_ret hfin, leave_accounted_iff]
    exact iff_of_true ha fun r g _ hr' => by simp [hr] at hr'
  | handOff r ht hr hlt hrcv hn =>
    rw [State.finish_ret hfin, leave_accounted_iff, State.emit_sched, State.emit_sched,
      State.resumeThread_sched, State.modThread_sched_self
        (f := fun th => { th with messageData := d }) _ _ fun _ => rfl]
    refine iff_of_true ((wake_accounted_iff ha h.placed.kthd hlt).mpr hrcv.1) ?_
    intro r' g _ hr' hne
    obtain rfl : r = r' := Option.some.inj (hr.symm.trans hr')
    exact absurd ⟨hrcv, hn⟩ hne
  | ring r σ₁ ht hr hne hw =>
    rw [State.finish_ret hfin, leave_accounted_iff, State.emit_sched, State.modChan_sched,
      State.emit_sched]
    exact wakes ht hr hne hw
  | block r σ₁ ht hr hne hw =>
    have hd := State.finish_schedule hfin
    rw [State.sleepSnd_sched, State.emit_sched] at hd
    rw [← wakes ht hr hne hw, (h.sleepSnd_placed hs hw).dispatch_accounted_iff hd]
    rcases hw.sched (d := d) with hs₁ | ⟨t, -, hs₁⟩ <;> rw [hs₁]
    · exact sleepSnd_accounted_iff h.placed.kthd hrun.lt hrun.canRun
    · exact sleepSnd_accounted_iff (s := σ.sched.wake cur t) h.placed.kthd (hrun.wake t).lt
        (hrun.wake t).canRun

/-- Every other section resumes blocked threads only. -/
theorem wakes_blocked (hp : σ.sched.Placed k) (hf : ∀ c d, f ≠ .call (.lwtSnd c d)) {t : ThreadId}
    (h : σ.sched.Wakes f t) : (σ.sched.tasks t).state = .blocked := by
  cases h with
  | handOff c d h => exact absurd h (hf c d)
  | sender c _ ht => exact (hp.mem_sender (List.mem_of_head? ht)).2.1.1
  | group c d g h => exact absurd h (hf c d)

/-- A step keeps the counters exact if and only if it wakes no owner that is not
asleep. -/
theorem InPlace.accounted_iff (h : InPlace σ k) (hC : Ordinary σ l) (hstep : Step σ l τ)
    (ha : σ.sched.Accounted k) : τ.sched.Accounted k ↔ WakesAsleep σ l := by
  obtain ⟨cur, f, rest, hs⟩ := step_local hstep hC.1
  have hframe : WakesAsleep σ l ↔ ∀ c d, f = .call (.lwtSnd c d) → σ.WakesAsleep c := by
    simp only [WakesAsleep, hs.frame, Option.some.injEq]
  rw [hframe]
  by_cases hf : ∃ c d, f = .call (.lwtSnd c d)
  · obtain ⟨c, d, rfl⟩ := hf
    rw [snd_accounted_iff h hs ha]
    constructor
    · rintro hw c' d' ⟨⟩
      exact hw
    · exact fun hw => hw c d rfl
  · simp only [not_exists] at hf
    refine iff_of_true ?_ fun c d h => absurd h (hf c d)
    have hrun := h.running_cur hs.current
    have hw := fun t => wakes_blocked (t := t) h.placed hf
    cases h.effect hs with
    | stay ha' => exact ha'.accounted h.placed hrun hw ha
    | switch ha' hd =>
      have hp := (ha'.placed h.placed hrun hs.at_ (InPlace.owner hC.2 hs)).1
      exact (hp.dispatch_accounted_iff hd).mpr (ha'.accounted h.placed hrun hw ha)

def State.numThreads (σ : State) (p : Thread → Prop) [DecidablePred p] : ℕ :=
  numBelow p σ.threads σ.nthreads

/-- The counters of kernel thread `k` are what `lwt_info` says they are. -/
structure State.CountsBlocked (σ : State) (k : KthdId) : Prop where
  blockCounter : (σ.kthds k).blockCounter = σ.numThreads fun th => th.state = .blocked
  nrcving : (σ.kthds k).nrcving =
    σ.numThreads fun th => th.state = .blocked ∧ th.blockFor = .receiving
  nsnding : (σ.kthds k).nsnding =
    σ.numThreads fun th => th.state = .blocked ∧ th.blockFor = .sending
  lwtInfo : σ.lwtInfo 1 = (σ.kthds k).blockCounter ∧ σ.lwtInfo 4 = (σ.kthds k).nsnding ∧
    σ.lwtInfo 5 = (σ.kthds k).nrcving

theorem State.CountsBlocked.nonneg (h : σ.CountsBlocked k) :
    0 ≤ (σ.kthds k).blockCounter ∧ 0 ≤ (σ.kthds k).nrcving ∧ 0 ≤ (σ.kthds k).nsnding := by
  rw [h.blockCounter, h.nrcving, h.nsnding]
  exact ⟨Int.natCast_nonneg _, Int.natCast_nonneg _, Int.natCast_nonneg _⟩

theorem InPlace.countsBlocked_iff (h : InPlace σ k) : σ.CountsBlocked k ↔ σ.sched.Accounted k := by
  have hk : σ.currentKthd = k := h.placed.kthd
  constructor
  · exact fun hc => ⟨hc.blockCounter, hc.nrcving, hc.nsnding⟩
  · intro ha
    refine ⟨ha.blocked, ha.receiving, ha.sending, ?_⟩
    subst hk
    exact ⟨rfl, rfl, rfl⟩

theorem Booted.accounted (h : Booted σ k) : σ.sched.Accounted k := by
  have hnum (p : Task → Prop) [DecidablePred p] (hp : ¬ p (σ.sched.tasks 0)) :
      σ.sched.number p = 0 := by
    rw [number, State.sched_ntasks, h.nthreads, numBelow_succ, if_neg hp]
    rfl
  have hs : (σ.threads 0).state = .running := h.thread.1
  rw [accounted_iff, hnum, hnum, hnum, State.sched_kthds, h.kthd]
  · exact ⟨rfl, rfl, rfl⟩
  all_goals simp [Task.Receiving, Task.Sending, hs]

/-- The counters are exact in every state of a run if and only if no send of the
run wakes the owner of a group that is not asleep. -/
theorem counts_blocked_iff {tr : List (State × Label)} (h : Run σ₀ tr σ) (hb : σ₀.Boot k)
    (hC : ∀ p ∈ tr, Ordinary p.1 p.2) :
    (∀ τ ∈ Transition.visited tr σ, τ.CountsBlocked k ∧ 0 ≤ (τ.kthds k).blockCounter ∧
      0 ≤ (τ.kthds k).nrcving ∧ 0 ≤ (τ.kthds k).nsnding) ↔ ∀ p ∈ tr, WakesAsleep p.1 p.2 := by
  have hboot := boot_ok hb
  rw [← h.forall_visited_iff (I := fun σ => InPlace σ k) (P := fun σ => σ.sched.Accounted k) hC
    hboot.inPlace hboot.accounted (fun _ _ _ hs hC hstep => hs.step hC.1 hC.2 hstep)
    fun _ _ _ hs ha hC hstep => hs.accounted_iff hC hstep ha]
  refine forall₂_congr fun τ hτ => ?_
  obtain ⟨tr', hr, hpre⟩ := h.of_mem_visited hτ
  have hplace := Run.inPlace hr hb fun p hp => hC p (hpre.subset hp)
  rw [hplace.countsBlocked_iff]
  exact ⟨fun h => h.1, fun h => ⟨h, (hplace.countsBlocked_iff.mpr h).nonneg⟩⟩

theorem groupRun_counts_blocked_iff :
    (∀ τ ∈ Transition.visited (booted.trace groupRun) (booted.after groupRun),
      τ.CountsBlocked 1 ∧ 0 ≤ (τ.kthds 1).blockCounter ∧ 0 ≤ (τ.kthds 1).nrcving ∧
        0 ≤ (τ.kthds 1).nsnding) ↔ ∀ p ∈ booted.trace groupRun, WakesAsleep p.1 p.2 :=
  counts_blocked_iff (State.run_trace booted groupRun) boot_booted (by decide +kernel)

/-- The second of two sends resumes the owner of the group again. -/
theorem second_send_miscounts : ¬ ∀ (k : KthdId) (σ₀ σ : State) (tr : List (State × Label)),
    σ₀.Boot k → Run σ₀ tr σ → (∀ p ∈ tr, Ordinary p.1 p.2) →
      σ.CountsBlocked k ∧ 0 ≤ (σ.kthds k).blockCounter := by
  intro h
  have hneg : ¬ 0 ≤ ((booted.after groupRun).kthds 1).blockCounter := by decide +kernel
  exact hneg (h 1 _ _ _ boot_booted (State.run_trace booted groupRun) (by decide +kernel)).2

end Steps

end Lwt
