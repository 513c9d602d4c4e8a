import Lwt.Accounting
import Lwt.InMemory

/-! What `lwt_info` counts. The queue sizes are counted along the links in memory, with any number
of kernel threads. With one kernel thread every thread is counted once, as long as no group wake-up
resumes an owner that is not asleep. -/

namespace Lwt

section Sizes

variable {H N : Type} [DecidableEq H] [DecidableEq N] {L : Links (H ⊕ N)} {h : H} {l : List N}
  {n : ℕ}

/-- `__get_queue_size`, if its loop ends within that many tests of its condition. -/
def getQueueSize (n : ℕ) (L : Links (H ⊕ N)) (inputList : H) : Option ℕ :=
  (loopUntil (fun s : (H ⊕ N) × ℕ => s.1 = .inl inputList) (fun s => (L.next s.1, s.2 + 1)) n
    (L.next (.inl inputList), 0)).map Prod.snd

theorem Traversal.getQueueSize (ht : Traversal L h l) (hn : l.length < n) :
    getQueueSize n L h = some l.length := by
  have hnot : (.inl h : H ⊕ N) ∉ l.map .inr := by simp
  rw [Lwt.getQueueSize, Linked.loopUntil_count ht hnot (by simpa using hn)]
  simp

end Sizes

variable {σ τ σ₀ : State} {tr : List (State × Label)} {l : Label} {k : KthdId} {c : ChanId}
  {d : Data} {cur t : ThreadId} {rest : List Frame} {n : ℕ}

/-- `lwt_info`, where the loops over the queues end within that many tests. -/
def State.lwtInfoIn (σ : State) (n : ℕ) (L : Links (Queue ⊕ ThreadId)) (t : ℕ) : Option ℤ :=
  match t with
  | 0 => (getQueueSize n L σ.currentRunQueue).map Nat.cast
  | 1 => some σ.kthd.blockCounter
  | 2 => some σ.kthd.zombieCounter
  | 3 => (getQueueSize n L σ.currentRecycleQueue).map Nat.cast
  | 4 => some σ.kthd.nsnding
  | 5 => some σ.kthd.nrcving
  | _ => some (-1)

/-- No queue is longer than there are threads. -/
theorem Sched.Wired.length_le {s : Sched} (hw : s.Wired) (q : Queue) :
    (s.queues q).length ≤ s.ntasks := by
  have hsub : s.queues q ⊆ List.range s.ntasks := fun t ht => List.mem_range.mpr (hw.lt ht)
  simpa using ((hw.nodup q).subperm hsub).length_le

theorem InLinks.getQueueSize {L : Links (Queue ⊕ ThreadId)}
    (hI : InLinks L σ.live σ.made σ.queues) (hw : σ.sched.Wired) {q : Queue} (hq : q ∈ σ.live)
    (hn : σ.nthreads < n) : getQueueSize n L q = some (σ.queues q).length :=
  (hI.forward hq).getQueueSize ((hw.length_le q).trans_lt hn)

/-- In every state that a run of any kernel threads visits, `lwt_info` comes back and counts the
queues of the state, if no channel is freed while somebody waits to send on it. -/
theorem lwtInfo_in_memory (h : Run σ₀ tr σ) (hb : σ₀.Boot k)
    (hC : ∀ p ∈ tr, FreesEmpty p.1 p.2) (L : Links (Queue ⊕ ThreadId)) {i : ℕ} {v : State}
    (hv : (Transition.visited tr σ)[i]? = some v) (hcur : v.lwtCurrent ≠ none)
    (hn : v.nthreads < n) (t : ℕ) :
    v.lwtInfoIn n (linksAfter (bootLinks k L) (tr.take i)) t = some (v.lwtInfo t) := by
  obtain ⟨-, hw, -⟩ := Run.owned (h.take_visited hv) hb
  have hI := (Run.inLinks_iff h hb L).mpr (fun i p hp => hC p (List.mem_of_getElem? hp)) i v hv
  have hrun := hI.getQueueSize hw (q := v.currentRunQueue) hcur hn
  have hrecycle := hI.getQueueSize hw (q := v.currentRecycleQueue) hcur hn
  rcases t with _ | _ | _ | _ | _ | _ | t
  · rw [State.lwtInfoIn, hrun]
    rfl
  · rfl
  · rfl
  · rw [State.lwtInfoIn, hrecycle]
    rfl
  · rfl
  · rfl
  · rfl

/-- Each thread has run, sleeps or is dead. -/
theorem Sched.Placed.partition {s : Sched} (hp : s.Placed k) :
    (s.queues (.run k)).length + (s.number fun th => th.state = .blocked) +
      (s.queues (.recycle k)).length = s.ntasks := by
  rw [length_eq_numBelow (hp.homed.nodup _) fun t => hp.mem_run_iff,
    length_eq_numBelow (p := fun th : Task => th.state = .zombies) (f := s.tasks)
      (hp.homed.nodup _) fun t => hp.mem_recycle_iff]
  refine numBelow_partition _ _ _ fun t _ => ?_
  cases hs : (s.tasks t).state <;> simp [Task.CanRun, hs]

namespace Sched

variable {s s' s₁ : Sched}

def CountsAsleep (s : Sched) (k : KthdId) : Prop :=
  (s.kthds k).blockCounter = s.number fun th => th.state = .blocked

theorem countsAsleep_congr (hk : (s₁.kthds k).blockCounter = (s.kthds k).blockCounter)
    (hn : s₁.ntasks = s.ntasks)
    (ht : ∀ t < s.ntasks, (s₁.tasks t).state = .blocked ↔ (s.tasks t).state = .blocked) :
    s₁.CountsAsleep k ↔ s.CountsAsleep k := by
  rw [CountsAsleep, CountsAsleep, hk, number, hn, numBelow_congr ht]

theorem leave_countsAsleep_iff {ctx : List Frame} :
    (s.leave cur ctx).CountsAsleep k ↔ s.CountsAsleep k :=
  countsAsleep_congr rfl rfl fun t _ => by rw [leave_state]

theorem Placed.dispatch_countsAsleep_iff (hp : s.Placed k) (h : s.Dispatch s') :
    s'.CountsAsleep k ↔ s.CountsAsleep k := by
  have hsame := hp.dispatch_same h
  obtain ⟨t, rest, -, rfl⟩ := h
  refine countsAsleep_congr ?_ rfl fun u _ => (hsame u).state_iff
  rw [← hp.kthd]
  simp

theorem sleepSnd_countsAsleep_iff (hk : s.currentKthd = k) (ht : cur < s.ntasks)
    (hr : (s.tasks cur).CanRun) {ctx : List Frame} :
    (s.sleepSnd cur c ctx).CountsAsleep k ↔ s.CountsAsleep k := by
  subst hk
  have hne : (s.tasks cur).state ≠ .blocked := by rcases hr with h | h <;> simp [h]
  let th : Task := ⟨.blocked, .sending, (s.tasks cur).nowRcving, ctx, (s.tasks cur).ownerKthd⟩
  have htasks : (s.sleepSnd cur c ctx).tasks = Function.update s.tasks cur th := rfl
  have h1 := numBelow_update (fun th : Task => th.state = .blocked) s.tasks ht th
  simp only [th, hne, if_false, if_true, add_zero] at h1
  simp only [CountsAsleep, number, sleepSnd_kthds, htasks, sleepSnd_ntasks, Function.update_self,
    th, h1]
  push_cast
  omega

/-- A thread that is resumed but was not asleep is taken off the counter. -/
theorem wake_not_countsAsleep (hs : s.CountsAsleep k) (hk : s.currentKthd = k)
    (ht : t < s.ntasks) (hr : (s.tasks t).state ≠ .blocked) :
    ¬ (s.wake cur t).CountsAsleep k := by
  subst hk
  have hs : (s.kthds s.currentKthd).blockCounter =
    numBelow (fun th : Task => th.state = .blocked) s.tasks s.ntasks := hs
  have htasks : (s.wake cur t).tasks =
    Function.update s.tasks t { s.tasks t with state := .runnable } := rfl
  have h1 := numBelow_update (fun th : Task => th.state = .blocked) s.tasks ht
    { s.tasks t with state := .runnable }
  simp only [hr, if_false, reduceCtorEq, add_zero] at h1
  simp only [CountsAsleep, number, wake_kthds, htasks, wake_ntasks, Function.update_self, hs, h1]
  omega

end Sched

section Steps

open Sched

theorem State.WakeGroup.countsAsleep {cgroup : Option CgrpId} (hp : σ.sched.Placed k)
    (ha : σ.sched.CountsAsleep k) (h : WakeGroup σ cur cgroup τ) (hτ : τ.sched.CountsAsleep k)
    {g : CgrpId} (hg : cgroup = some g) (hb : (σ.cgrps g).blocked = true) :
    (σ.threads (σ.cgrps g).owner).state = .blocked := by
  cases h with
  | skip h =>
    rw [h g hg] at hb
    cases hb
  | wake g' hc hlt =>
    obtain rfl : g' = g := Option.some.inj (hc.symm.trans hg)
    by_contra hne
    rw [State.resumeThread_sched] at hτ
    exact wake_not_countsAsleep ha hp.kthd (hp.cgrpOwner g' hlt) hne hτ

/-- A call of `lwt_snd` that leaves the counter right wakes no owner that is not asleep. -/
theorem snd_countsAsleep (h : InPlace σ k) (hs : Section σ l τ cur (.call (.lwtSnd c d)) rest)
    (ha : σ.sched.CountsAsleep k) (hτ : τ.sched.CountsAsleep k) : σ.WakesAsleep c := by
  intro r g ht hr hne hg hblocked
  obtain ⟨⟨σ', n⟩, hb, hfin⟩ := bind_ok hs.exec
  obtain ⟨-, -, hsnd⟩ := State.lwtSnd_ok hb
  have hrun := h.running_cur hs.current
  cases hsnd with
  | sync r' ht' => simp [ht] at ht'
  | noReceiver ht' hr' => simp [hr] at hr'
  | handOff r' ht' hr' hlt hrcv hn =>
    obtain rfl : r' = r := Option.some.inj (hr'.symm.trans hr)
    exact absurd ⟨hrcv, hn⟩ hne
  | ring r' σ₁ ht' hr' hne' hw =>
    rw [State.finish_ret hfin, leave_countsAsleep_iff, State.emit_sched, State.modChan_sched,
      State.emit_sched] at hτ
    exact hw.countsAsleep (σ := σ.modChan c _) h.placed ha hτ hg hblocked
  | block r' σ₁ ht' hr' hne' hw =>
    have hd := State.finish_schedule hfin
    rw [State.sleepSnd_sched, State.emit_sched] at hd
    rw [(h.sleepSnd_placed hs hw).dispatch_countsAsleep_iff hd] at hτ
    refine hw.countsAsleep (σ := σ.modChan c _) h.placed ha ?_ hg hblocked
    rcases hw.sched (d := d) with hs₁ | ⟨t, -, hs₁⟩ <;> rw [hs₁] at hτ ⊢
    · exact (sleepSnd_countsAsleep_iff h.placed.kthd hrun.lt hrun.canRun).mp hτ
    · exact (sleepSnd_countsAsleep_iff (s := σ.sched.wake cur t) h.placed.kthd (hrun.wake t).lt
        (hrun.wake t).canRun).mp hτ

theorem InPlace.wakesAsleep (h : InPlace σ k) (hl : l.Local) (hstep : Step σ l τ)
    (ha : σ.sched.CountsAsleep k) (hτ : τ.sched.CountsAsleep k) : WakesAsleep σ l := by
  intro c d hf
  obtain ⟨cur, f, rest, hs⟩ := step_local hstep hl
  obtain rfl : f = .call (.lwtSnd c d) := Option.some.inj (hs.frame.symm.trans hf)
  exact snd_countsAsleep h hs ha hτ

/-- Every thread is counted once if the counter of blocked threads is right. -/
theorem InPlace.counted_iff (h : InPlace σ k) :
    σ.lwtInfo 0 + σ.lwtInfo 1 + σ.lwtInfo 3 = σ.nthreads ↔ σ.sched.CountsAsleep k := by
  have hsum := h.placed.partition
  have hk : σ.currentKthd = k := h.placed.kthd
  subst hk
  have hinfo : σ.lwtInfo 0 + σ.lwtInfo 1 + σ.lwtInfo 3 =
      (σ.sched.queues (.run σ.currentKthd)).length +
        (σ.sched.kthds σ.currentKthd).blockCounter +
        (σ.sched.queues (.recycle σ.currentKthd)).length := rfl
  rw [hinfo, CountsAsleep]
  simp only [State.sched_ntasks] at hsum
  omega

theorem Run.accounted (h : Run σ₀ tr σ) (hb : σ₀.Boot k) (hC : ∀ p ∈ tr, Ordinary p.1 p.2)
    (hw : ∀ p ∈ tr, WakesAsleep p.1 p.2) : InPlace σ k ∧ σ.sched.Accounted k := by
  have hboot := boot_ok hb
  refine h.invariant_of (I := fun σ => InPlace σ k ∧ σ.sched.Accounted k)
    (C := fun σ l => Ordinary σ l ∧ WakesAsleep σ l) (fun p hp => ⟨hC p hp, hw p hp⟩)
    ⟨hboot.inPlace, hboot.accounted⟩ fun s l s' hI hC hs => ?_
  exact ⟨hI.1.step hC.1.1 hC.1.2 hs, (hI.1.accounted_iff hC.1 hs hI.2).mpr hC.2⟩

/-- In every run of one kernel thread `lwt_info` counts each thread once, on the run queue, among
the blocked or on the recycle queue, if and only if no send wakes an owner that is not asleep. -/
theorem threads_counted_iff (h : Run σ₀ tr σ) (hb : σ₀.Boot k)
    (hC : ∀ p ∈ tr, Ordinary p.1 p.2) :
    (∀ τ ∈ Transition.visited tr σ, τ.lwtInfo 0 + τ.lwtInfo 1 + τ.lwtInfo 3 = τ.nthreads) ↔
      ∀ p ∈ tr, WakesAsleep p.1 p.2 := by
  induction h with
  | nil =>
    have hboot := boot_ok hb
    simpa [Transition.visited] using hboot.inPlace.counted_iff.mpr hboot.accounted.blocked
  | @snoc tr s s' l hr hs ih =>
    obtain ⟨hC, hl⟩ := Transition.forall_steps_snoc.mp hC
    rw [Transition.forall_visited_snoc, Transition.forall_steps_snoc, ih hC]
    refine and_congr_right fun hw => ?_
    obtain ⟨hplace, ha⟩ := Run.accounted hr hb hC hw
    rw [(hplace.step hl.1 hl.2 hs).counted_iff]
    exact ⟨hplace.wakesAsleep hl.1 hs ha.blocked, fun hw =>
      ((hplace.accounted_iff hl hs ha).mpr hw).blocked⟩

end Steps

instance (σ : State) (c : ChanId) : Decidable (σ.WakesAsleep c) :=
  decidable_of_iff (∀ r ∈ (σ.chans c).receiver, ∀ g ∈ (σ.chans c).cgroup,
    (σ.chans c).type = .local →
      ¬ ((σ.threads r).task.Receiving ∧ (σ.threads r).nowRcving = some c) →
        (σ.cgrps g).blocked = true → (σ.threads (σ.cgrps g).owner).state = .blocked)
    ⟨fun h r g ht hr hn hg => h r hr g hg ht hn, fun h r hr g hg ht hn => h r g ht hr hn hg⟩

instance (σ : State) (l : Label) : Decidable (WakesAsleep σ l) :=
  decidable_of_iff (∀ a ∈ (σ.frame l).bind Frame.sends, σ.WakesAsleep a.1) <| by
    rw [forall_frame_iff Frame.sends_eq_some]
    exact ⟨fun h c d hf => h (c, d) hf, fun h a hf => h a.1 a.2 hf⟩

/-- The links of `servedRun`, walked when the thread waits to send. -/
theorem servedRun_lwtInfo : (booted.after (servedRun.take 6)).lwtCurrent = some 0 ∧ ∀ t,
    (booted.after (servedRun.take 6)).lwtInfoIn 3
      (linksAfter (bootLinks 1 ⟨id, id⟩) (booted.trace (servedRun.take 6))) t =
        some ((booted.after (servedRun.take 6)).lwtInfo t) := by
  have hcur : (booted.after (servedRun.take 6)).lwtCurrent = some 0 := by decide +kernel
  have hlast : (Transition.visited (booted.trace (servedRun.take 6))
      (booted.after (servedRun.take 6)))[(booted.trace (servedRun.take 6)).length]? =
        some (booted.after (servedRun.take 6)) := Transition.visited_getElem?_length
  have hinfo := lwtInfo_in_memory (State.run_trace booted (servedRun.take 6)) boot_booted
    (by decide +kernel) ⟨id, id⟩ hlast (by rw [hcur]; exact Option.some_ne_none 0)
    (n := 3) (by decide +kernel)
  rw [List.take_length] at hinfo
  exact ⟨hcur, hinfo⟩

/-- The first send of `groupRun` wakes the owner of the group, who sleeps. -/
theorem groupRun_counted : (booted.after (groupRun.take 7)).nthreads = 2 ∧
    ∀ τ ∈ Transition.visited (booted.trace (groupRun.take 7)) (booted.after (groupRun.take 7)),
      τ.lwtInfo 0 + τ.lwtInfo 1 + τ.lwtInfo 3 = τ.nthreads :=
  ⟨by decide +kernel, (threads_counted_iff (State.run_trace booted (groupRun.take 7)) boot_booted
    (by decide +kernel)).mpr (by decide +kernel)⟩

/-- After the second send somebody is missing. -/
example : (booted.after groupRun).nthreads = 2 ∧ (booted.after groupRun).lwtInfo 0 = 2 ∧
    (booted.after groupRun).lwtInfo 1 = -1 := by decide +kernel

end Lwt
