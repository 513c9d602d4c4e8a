import Lwt.Instances

/-! The state `LWT_RUNNING`. `__lwt_schedule` gives it to the thread it dispatches and takes it
from nobody, and a thread that `lwt_create` makes has it from the start. `lwt_rcv_thd` moves a
thread by the state alone. -/

namespace Lwt

open State

variable {σ τ σ₀ : State} {l : Label} {cur t : ThreadId} {f : Frame} {rest : List Frame}
  {k : KthdId} {tr : List (State × Label)}

namespace Sched

variable {s s' s₁ : Sched} {b : Bool}

/-- The running thread of `k` is the one with state `LWT_RUNNING`. -/
def OneRunning (s : Sched) (k : KthdId) : Prop :=
  ∀ t < s.ntasks, (s.tasks t).state = .running ↔ (s.kthds k).currentThread = some t

def NoneRunningBut (s : Sched) (cur : ThreadId) : Prop :=
  ∀ t < s.ntasks, t ≠ cur → (s.tasks t).state ≠ .running

theorem OneRunning.others (h : s.OneRunning k) (hcur : (s.kthds k).currentThread = some cur) :
    s.NoneRunningBut cur := by
  intro t ht hne hr
  exact hne (Option.some.inj (((h t ht).mp hr).symm.trans hcur))

/-- A dispatch leaves one running thread if and only if the thread that gave way is not left with
state `LWT_RUNNING`. -/
theorem run_oneRunning_iff (hk : s.currentKthd = k) (h : s.NoneRunningBut cur)
    (hlt : cur < s.ntasks) :
    (s.run t).OneRunning k ↔ t = cur ∨ (s.tasks cur).state ≠ .running := by
  have hcurrent : ((s.run t).kthds k).currentThread = some t := by simp [← hk]
  constructor
  · intro hone
    by_contra hno
    obtain ⟨hne, hr⟩ := not_or.mp hno
    have hrun := (hone cur hlt).mp (by simpa [Ne.symm hne] using not_not.mp hr)
    exact hne (Option.some.inj (hcurrent.symm.trans hrun))
  · intro hC u hu
    rw [hcurrent, Option.some.injEq]
    by_cases hut : u = t
    · simp [hut]
    · have hstate : ((s.run t).tasks u).state = (s.tasks u).state := by simp [hut]
      rw [hstate]
      refine iff_of_false (fun hr => ?_) (Ne.symm hut)
      by_cases huc : u = cur
      · subst huc
        exact hC.elim (fun h => hut h.symm) fun h => h hr
      · exact h u hu huc hr

/-- An activation that goes on without `__lwt_schedule` and makes no thread leaves the states of
the running thread and of the others as they are, but for one that it resumes. -/
theorem Act.oneRunning (h : s.Act cur f rest false s₁) (hone : s.OneRunning k)
    (hcur : (s.kthds k).currentThread = some cur) (hk : s.currentKthd = k)
    (hf : ∀ flags mem, f ≠ .call (.lwtCreate flags mem))
    (hwake : ∀ t, s.Wakes f t → t ≠ cur) : s₁.OneRunning k := by
  have hkeep {s' : Sched} (hn : s'.ntasks = s.ntasks)
      (hc : (s'.kthds k).currentThread = (s.kthds k).currentThread)
      (hst : ∀ t, (s'.tasks t).state = (s.tasks t).state) : s'.OneRunning k := by
    intro t ht
    rw [hst, hc]
    exact hone t (hn ▸ ht)
  cases h with
  | recycle t fl mem hf' => exact absurd hf' (hf fl mem)
  | create th fl mem hf' => exact absurd hf' (hf fl mem)
  | wake t hw =>
    intro u hu
    have hc : (((s.wake cur t).leave cur rest).kthds k).currentThread = some cur := by
      simp [← hk, ← hcur]
    by_cases hut : u = t
    · subst hut
      rw [hc, leave_state]
      simp [Ne.symm (hwake u hw)]
    · rw [hc, leave_state, ← hcur, ← hone u hu]
      simp [hut]
  | quiet => exact hkeep rfl rfl fun t => leave_state ..
  | lastWord =>
    refine hkeep rfl ?_ fun t => leave_state ..
    simp [← hk]
  | slThdBlock =>
    refine hkeep rfl ?_ fun t => leave_state ..
    simp [← hk]
  | newGroup | freeGroup | waitDone => exact hkeep rfl rfl fun t => leave_state ..
  | adopt t | adoptMove t =>
    refine hkeep rfl rfl fun u => (leave_state ..).trans ?_
    by_cases hut : u = t
    · subst hut
      simp
    · simp [hut]

/-- An activation that falls asleep or dies leaves no thread with state `LWT_RUNNING`. -/
theorem Act.noneRunning (h : s.Act cur f rest true s₁) (hothers : s.NoneRunningBut cur)
    (hyield : ∀ o, f ≠ .call (.lwtYield o)) (hidle : f ≠ .kthdBlocked)
    (hrun : (s.tasks cur).CanRun) :
    s₁.ntasks = s.ntasks ∧ s₁.NoneRunningBut cur ∧ (s₁.tasks cur).state ≠ .running := by
  have hsleep {s' : Sched} (hn : s'.ntasks = s.ntasks)
      (hst : ∀ t, t ≠ cur → (s'.tasks t).state = (s.tasks t).state ∨
        (s'.tasks t).state ≠ .running) (hc : (s'.tasks cur).state ≠ .running) :
      s'.ntasks = s.ntasks ∧ s'.NoneRunningBut cur ∧ (s'.tasks cur).state ≠ .running := by
    refine ⟨hn, fun t ht hne => ?_, hc⟩
    rcases hst t hne with h | h
    · rw [h]
      exact hothers t (hn ▸ ht) hne
    · exact h
  cases h with
  | yield hf => exact absurd hf (hyield none)
  | yieldTo t hf => exact absurd hf (hyield (some t))
  | idle fs hf hpush hfs hr => exact absurd hrun (hr.resolve_left hidle)
  | sleepRcv rcving fr => exact hsleep rfl (fun t hne => .inl (by simp [hne])) (by simp)
  | sleepGroup g => exact hsleep rfl (fun t hne => .inl (by simp [hne])) (by simp)
  | sleepSnd c d => exact hsleep rfl (fun t hne => .inl (by simp [hne])) (by simp)
  | wakeSleepSnd t c d =>
    refine hsleep rfl (fun u hne => ?_) (by simp)
    by_cases hut : u = t
    · subst hut
      exact .inr (by simp [hne])
    · exact .inl (by simp [hne, hut])
  | die => exact hsleep rfl (fun t hne => .inl (by simp [hne])) (by simp)

variable (hp : s.Placed k) (hrun : s.Running k cur) (hat : s.At cur f rest)

include hp hrun hat in
/-- The running thread resumes others only. -/
theorem Wakes.ne (h : s.Wakes f t) : t ≠ cur := by
  rintro rfl
  cases h with
  | handOff c d hf hlt ht hc => exact hrun.canRun.not_receiving ht
  | sender c hf ht => exact hrun.canRun.not_sending (hp.mem_sender (List.mem_of_head? ht)).2.1
  | group c d g hf hg hb ht => exact hp.owner_ne hat (by simp [hf]) hg hb ht

end Sched

section Queues

variable {l : List ThreadId}

/-- A thread that goes to the end of its queue is first there only if it was alone. -/
theorem head_erase_concat (hnd : l.Nodup) (hmem : cur ∈ l) :
    (l.erase cur ++ [cur]).head? = some cur ↔ l = [cur] := by
  constructor
  · intro h
    have hnil : l.erase cur = [] := by
      cases he : l.erase cur with
      | nil => rfl
      | cons a l' =>
        rw [he, List.cons_append, List.head?_cons, Option.some.injEq] at h
        subst h
        exact absurd (he ▸ List.mem_cons_self) hnd.not_mem_erase
    exact (List.perm_cons_erase hmem).trans (by rw [hnil]) |>.eq_singleton
  · rintro rfl
    simp

/-- A thread that goes before the last of its queue leaves the first where it is if another is
behind it. -/
theorem head_beforeLast (hne : t ≠ cur) :
    (Rings.beforeLast t l).head? = some cur ↔ l.head? = some cur ∧ 1 < l.length := by
  match l with
  | [] | [_] | _ :: _ :: _ => simp [Rings.beforeLast, hne]

end Queues

namespace State

/-- Behind frame `f` of the running thread `cur` no thread starts, and a yield goes back to `cur`
at once. -/
def goesOn (σ : State) (cur : ThreadId) : Frame → Prop
  | .call (.lwtCreate _ _) => False
  | .call (.lwtYield none) => σ.queues (.run σ.currentKthd) = [cur]
  | .call (.lwtYield (some t)) =>
    t = cur ∨ ¬ (σ.threads t).task.CanRun ∨
      ((σ.queues (.run σ.currentKthd)).erase t).head? = some cur ∧
        1 < ((σ.queues (.run σ.currentKthd)).erase t).length
  | .kthdBlocked => (σ.queues (.run σ.currentKthd)).head? = some cur
  | _ => True

instance (σ : State) (cur : ThreadId) : DecidablePred (σ.goesOn cur) := fun f => by
  unfold goesOn
  split <;> infer_instance

/-- The running thread of `k` is the only one of its threads with state `LWT_RUNNING`, and the
others of its run queue have state `LWT_RUNNABLE`. -/
structure OneRunning (σ : State) (k : KthdId) : Prop where
  running : ∀ t < σ.nthreads, (σ.threads t).ownerKthd = k →
    ((σ.threads t).state = .running ↔ (σ.kthds k).currentThread = some t)
  queued : ∀ t ∈ σ.queues (.run k), (σ.kthds k).currentThread ≠ some t →
    (σ.threads t).state = .runnable

end State

/-- Step `l` starts no thread, and does not yield to another. -/
def KeepsRunning (σ : State) (l : Label) : Prop :=
  ∀ cur ∈ σ.lwtCurrent, ∀ f ∈ σ.frame l, σ.goesOn cur f

instance (σ : State) (l : Label) : Decidable (KeepsRunning σ l) :=
  inferInstanceAs (Decidable (∀ cur ∈ σ.lwtCurrent, ∀ f ∈ σ.frame l, σ.goesOn cur f))

section Runs

theorem InPlace.oneRunning_iff (h : InPlace σ k) : σ.OneRunning k ↔ σ.sched.OneRunning k := by
  constructor
  · exact fun hone t ht => hone.running t ht (h.placed.owner t ht)
  · intro hone
    refine ⟨fun t ht _ => hone t ht, fun t ht hne => ?_⟩
    obtain ⟨hlt, hr⟩ := h.placed.mem_run_iff.mp ht
    exact hr.resolve_right fun hr => hne ((hone t hlt).mp hr)

theorem Section.keepsRunning_iff (hs : Section σ l τ cur f rest) :
    KeepsRunning σ l ↔ σ.goesOn cur f := by
  constructor
  · exact fun h => h cur hs.current f hs.frame
  · intro h cur' hcur f' hf
    obtain rfl := Option.some.inj (hs.current.symm.trans hcur)
    obtain rfl := Option.some.inj (hs.frame.symm.trans hf)
    exact h

theorem InPlace.others (h : InPlace σ k) (hone : σ.sched.OneRunning k)
    (hcur : σ.lwtCurrent = some cur) :
    cur < σ.nthreads ∧ σ.sched.NoneRunningBut cur ∧ (σ.threads cur).state = .running := by
  have hrun := h.running_cur hcur
  exact ⟨hrun.lt, hone.others hrun.current, (hone cur hrun.lt).mpr hrun.current⟩

/-- A section that comes to `__lwt_schedule` with the states of the threads as they were. -/
theorem Section.oneRunning_of_schedule (hs : Section σ l τ cur f rest) (hS : InPlace σ k)
    (hone : σ.sched.OneRunning k) {σ' : State} {fs : List Frame}
    (hb : σ.body cur f = .ok (σ', .schedule fs)) (hn : σ'.nthreads = σ.nthreads)
    (hk : σ'.currentKthd = σ.currentKthd) (ht : σ'.threads = σ.threads) :
    τ.sched.OneRunning k ↔ (σ'.queues (.run k)).head? = some cur := by
  obtain ⟨⟨σ'', n⟩, hb', hfin⟩ := bind_ok hs.exec
  rw [hb] at hb'
  cases hb'
  obtain ⟨hlt, hothers, hr⟩ := hS.others hone hs.current
  have hk : σ'.currentKthd = k := hk.trans hS.placed.kthd
  obtain ⟨t, q, hq, hτ⟩ := State.finish_schedule hfin
  have hhead : (σ'.queues (.run k)).head? = some t := by
    have hq : σ'.queues (.run σ'.currentKthd) = t :: q := hq
    rw [← hk, hq, List.head?_cons]
  have hstate (u : ThreadId) : ((σ'.sched.leave cur (fs ++ rest)).tasks u).state =
      (σ.sched.tasks u).state := by
    rw [Sched.leave_state]
    simp [ht]
  have hnone : (σ'.sched.leave cur (fs ++ rest)).NoneRunningBut cur := by
    intro u hu hne
    rw [hstate]
    exact hothers u (by simpa [hn] using hu) hne
  rw [hτ, Sched.run_oneRunning_iff hk hnone (by simpa [hn] using hlt), hhead, hstate,
    Option.some.injEq]
  exact or_iff_left fun h => h hr

/-- `lwt_create` makes a second thread with state `LWT_RUNNING`. -/
theorem Section.create_not_oneRunning {flags : ℤ} {mem : CreateMem}
    (hs : Section σ l τ cur (.call (.lwtCreate flags mem)) rest) (hS : InPlace σ k)
    (hw : σ.sched.Wired) (hone : σ.sched.OneRunning k) : ¬ τ.sched.OneRunning k := by
  intro h
  obtain ⟨hlt, -, hr⟩ := hS.others hone hs.current
  have hrun := hS.running_cur hs.current
  obtain ⟨t, hc⟩ := hs.creates hw
  have hne : cur ≠ t := by
    rintro rfl
    rcases hc.slot with hslot | ⟨-, rfl⟩
    · have hk : σ.currentKthd = k := hS.placed.kthd
      have hmem : cur ∈ σ.sched.queues (.recycle k) := List.mem_of_head? (hk ▸ hslot)
      have hz : (σ.threads cur).state = .zombies := (hS.placed.mem_recycle_iff.mp hmem).2
      rw [hr] at hz
      cases hz
    · exact lt_irrefl _ hlt
  have hcur := (h cur (hlt.trans_le hc.le)).mp ((hc.others cur hne).1.trans hr)
  have ht := (h t hc.lt).mp hc.state
  exact hne (Option.some.inj (hcur.symm.trans ht))

/-- Of the sections that make no thread and do not yield, one that goes on keeps the states, and
one that falls asleep or dies leaves its thread without the state `LWT_RUNNING`. -/
theorem Section.oneRunning (hs : Section σ l τ cur f rest) (hS : InPlace σ k) (hw : OwnerWaits σ l)
    (hone : σ.sched.OneRunning k) (hcreate : ∀ flags mem, f ≠ .call (.lwtCreate flags mem))
    (hyield : ∀ o, f ≠ .call (.lwtYield o)) (hidle : f ≠ .kthdBlocked) : τ.sched.OneRunning k := by
  have hrun := hS.running_cur hs.current
  obtain ⟨hlt, hothers, hr⟩ := hS.others hone hs.current
  cases hS.effect hs with
  | stay h =>
    exact h.oneRunning hone hrun.current hS.placed.kthd hcreate fun t ht =>
      ht.ne hS.placed hrun hs.at_
  | switch h hd =>
    have hk := (h.placed hS.placed hrun hs.at_ (InPlace.owner hw hs)).1.kthd
    obtain ⟨hn, hothers', hr'⟩ := h.noneRunning hothers hyield hidle hrun.canRun
    obtain ⟨t, q, hq, hτ⟩ := hd
    rw [hτ]
    exact (Sched.run_oneRunning_iff hk hothers' (hn ▸ hlt)).mpr (.inr hr')

/-- A yield keeps one running thread if and only if it comes back at once. -/
theorem Section.yield_oneRunning_iff {o : Option ThreadId}
    (hs : Section σ l τ cur (.call (.lwtYield o)) rest) (hS : InPlace σ k)
    (hone : σ.sched.OneRunning k) :
    τ.sched.OneRunning k ↔ σ.goesOn cur (.call (.lwtYield o)) := by
  have hrun := hS.running_cur hs.current
  have hk : σ.currentKthd = k := hS.placed.kthd
  have hown : σ.ownerRunQueue cur = .run k := congrArg Queue.run (hS.placed.owner cur hrun.lt)
  obtain ⟨⟨σ', n⟩, hb, hfin⟩ := bind_ok hs.exec
  obtain ⟨rfl, rfl, rfl⟩ | ⟨t, rfl, ht, ⟨hno, rfl, rfl⟩ | ⟨hne, hr, rfl, rfl⟩⟩ :=
    State.lwtYield_ok hb
  · have hcan : (σ.threads cur).task.CanRun := hrun.canRun
    have hnd : (σ.queues (.run k)).Nodup := hS.placed.homed.nodup _
    have hmem : cur ∈ σ.queues (.run k) := hS.placed.mem_run_iff.mpr ⟨hrun.lt, hcan⟩
    have hq : ((σ.listRem cur).listHeadAdd (.run k) cur).queues (.run k) =
        (σ.queues (.run k)).erase cur ++ [cur] := Rings.add_self _ _ _
    rw [State.requeue_of_canRun hcan, hown] at hb
    rw [hs.oneRunning_of_schedule hS hone hb rfl rfl rfl, hq, head_erase_concat hnd hmem,
      State.goesOn, hk]
  · have hkeep : τ.sched.OneRunning k := by
      rw [State.finish_ret hfin]
      intro u hu
      rw [Sched.leave_state]
      exact hone u hu
    exact iff_of_true hkeep (hno.imp_right .inl)
  · have hq : ((σ.listRem t).listHeadAppend (.run k) t).queues (.run k) =
        Rings.beforeLast t ((σ.queues (.run k)).erase t) := Rings.append_self _ _ _
    rw [hown] at hb
    rw [hs.oneRunning_of_schedule hS hone hb rfl rfl rfl, hq, head_beforeLast hne, State.goesOn,
      hk, or_iff_right hne, or_iff_right (not_not.mpr hr)]

/-- One step keeps one running thread if and only if it starts no thread and does not yield to
another. -/
theorem Section.oneRunning_iff (hs : Section σ l τ cur f rest) (hS : InPlace σ k)
    (hW : σ.sched.Wired) (hw : OwnerWaits σ l) (hone : σ.sched.OneRunning k) :
    τ.sched.OneRunning k ↔ σ.goesOn cur f := by
  by_cases hcreate : ∃ flags mem, f = .call (.lwtCreate flags mem)
  · obtain ⟨flags, mem, rfl⟩ := hcreate
    exact iff_of_false (hs.create_not_oneRunning hS hW hone) id
  by_cases hyield : ∃ o, f = .call (.lwtYield o)
  · obtain ⟨o, rfl⟩ := hyield
    exact hs.yield_oneRunning_iff hS hone
  by_cases hidle : f = .kthdBlocked
  · subst hidle
    have hk : σ.currentKthd = k := hS.placed.kthd
    rw [hs.oneRunning_of_schedule hS hone rfl rfl rfl rfl, State.goesOn, hk]
  push Not at hcreate hyield
  refine iff_of_true (hs.oneRunning hS hw hone hcreate hyield hidle) ?_
  unfold State.goesOn
  split
  · exact hcreate _ _ rfl
  · exact absurd rfl (hyield none)
  · exact absurd rfl (hyield (some _))
  · exact absurd rfl hidle
  · trivial

theorem Booted.oneRunning (h : Booted σ k) : σ.sched.OneRunning k := by
  intro t ht
  obtain rfl : t = 0 := by
    rw [State.sched_ntasks, h.nthreads] at ht
    omega
  exact iff_of_true h.thread.1 (by simp [h.kthd])

/-- Behind `lwt_rcv_thd` the thread `t` that it returns is on the run queue that belongs to the
running thread, if `t` was on the run queue of a kernel thread that did not execute it. -/
def Adopts (σ : State) (l : Label) (τ : State) : Prop :=
  ∀ cur t j, σ.lwtCurrent = some cur → σ.frame l = some .rcvThdRcv →
    (σ.threads cur).eax = .thd t → t ∈ σ.queues (.run j) →
    (σ.kthds j).currentThread ≠ some t → t ∈ τ.queues (.run (τ.threads cur).ownerKthd)

/-- Such a thread `t` has state `LWT_RUNNABLE`, or is where it belongs already. -/
def AdoptsRunnable (σ : State) (l : Label) : Prop :=
  ∀ cur t j, σ.lwtCurrent = some cur → σ.frame l = some .rcvThdRcv →
    (σ.threads cur).eax = .thd t → t ∈ σ.queues (.run j) →
    (σ.kthds j).currentThread ≠ some t → (σ.threads t).state = .runnable ∨
      j = if t = cur then σ.currentKthd else (σ.threads cur).ownerKthd

/-- What `lwt_rcv_thd` does with the thread `t` that it has received. -/
theorem Section.adopted (hs : Section σ l τ cur .rcvThdRcv rest) :
    ∃ t, (σ.threads cur).eax = .thd t ∧
      (τ.threads cur).ownerKthd =
        (if t = cur then σ.currentKthd else (σ.threads cur).ownerKthd) ∧
      ((σ.threads t).state = .runnable ∧
          τ.queues = (σ.queues.rem t).append (.run (τ.threads cur).ownerKthd) t ∨
        (σ.threads t).state ≠ .runnable ∧ τ.queues = σ.queues) := by
  obtain ⟨⟨σ', n⟩, hb, hfin⟩ := bind_ok hs.exec
  obtain ⟨t, ht, -, rfl, h⟩ := State.lwtRcvThdRcv_ok hb
  cases hfin
  have howner : ((σ.modThread t fun th =>
      { th with ownerKthd := σ.currentKthd }).threads cur).ownerKthd =
        if t = cur then σ.currentKthd else (σ.threads cur).ownerKthd := by
    by_cases hc : t = cur
    · subst hc
      simp
    · simp [hc, Ne.symm hc]
  obtain ⟨hno, rfl⟩ | ⟨hr, rfl⟩ := h
  · exact ⟨t, ht, by simpa using howner, .inr ⟨hno, rfl⟩⟩
  · refine ⟨t, ht, by simpa using howner, .inl ⟨hr, ?_⟩⟩
    exact congrArg (fun j => (σ.queues.rem t).append (.run j) t) (by simp)

/-- The thread that `lwt_rcv_thd` returns is moved if and only if its state says that it waits to
be dispatched. -/
theorem adopts_iff (hw : σ.sched.Wired) (hs : Step σ l τ) : Adopts σ l τ ↔ AdoptsRunnable σ l := by
  have hsec {cur : ThreadId} (hcur : σ.lwtCurrent = some cur) (hf : σ.frame l = some .rcvThdRcv) :
      ∃ rest, Section σ l τ cur .rcvThdRcv rest := by
    obtain ⟨cur', f, rest, hsec⟩ | ⟨k, rfl, -⟩ | ⟨k, mem, rfl, -⟩ := step_cases hs
    · obtain rfl := Option.some.inj (hcur.symm.trans hsec.current)
      obtain rfl := Option.some.inj (hf.symm.trans hsec.frame)
      exact ⟨rest, hsec⟩
    · cases hf
    · cases hf
  refine forall₃_congr fun cur t j => forall₄_congr fun hcur hf heax hq =>
    imp_congr_right fun _ => ?_
  obtain ⟨rest, hsec⟩ := hsec hcur hf
  obtain ⟨t', ht', howner, ⟨hr, hτ⟩ | ⟨hno, hτ⟩⟩ := hsec.adopted
  · obtain rfl : t' = t := by simpa using ht'.symm.trans heax
    rw [hτ, Rings.append_self]
    exact iff_of_true (by simp) (.inl hr)
  · obtain rfl : t' = t := by simpa using ht'.symm.trans heax
    rw [hτ, howner, or_iff_right hno]
    constructor
    · exact fun h => Queue.run.inj (hw.unique hq h)
    · intro h
      rw [← h]
      exact hq

/-- In the runs of one kernel thread its running thread is the one with state `LWT_RUNNING` as
long as no thread is created and none yields to another. With any number of kernel threads
`lwt_rcv_thd` moves the threads with state `LWT_RUNNABLE`. -/
theorem one_running_iff (h : Run σ₀ tr σ) (hb : σ₀.Boot k) :
    ((∀ p ∈ tr, Ordinary p.1 p.2) →
      ((∀ v ∈ Transition.visited tr σ, v.OneRunning k) ↔ ∀ p ∈ tr, KeepsRunning p.1 p.2)) ∧
    ∀ p ∈ tr, ∀ τ, Step p.1 p.2 τ → (Adopts p.1 p.2 τ ↔ AdoptsRunnable p.1 p.2) := by
  refine ⟨fun hC => ?_, fun p hp τ hs => ?_⟩
  · refine Transition.Run.forall_visited_iff
      (I := fun u => InPlace u k ∧ u.sched.Wired ∧ WellFramed u)
      (D := Ordinary) h hC ?_ ?_ ?_ ?_
    · exact ⟨(boot_ok hb).inPlace, boot_wired hb, (boot_ok hb).wellFramed⟩
    · exact (boot_ok hb).inPlace.oneRunning_iff.mpr (boot_ok hb).oneRunning
    · rintro u m v ⟨hS, hW, hT⟩ hO hs
      exact ⟨hS.step hO.1 hO.2 hs, wired_step hT hW hs, hT.step hs⟩
    · rintro u m v ⟨hS, hW, hT⟩ hone hO hs
      obtain ⟨cur, f, rest, hsec⟩ := step_local hs hO.1
      rw [(hS.step hO.1 hO.2 hs).oneRunning_iff, hsec.keepsRunning_iff]
      exact hsec.oneRunning_iff hS hW hO.2 (hS.oneRunning_iff.mp hone)
  · obtain ⟨tr', s', hr, -, -⟩ := h.of_mem hp
    exact adopts_iff (Run.wired hr hb) hs

def singleRun : List Label :=
  [.call (.lwtChan 2 chanMem), .call (.lwtChan 0 chanMem), .call (.lwtCgrp true),
    .call (.lwtCgrpAdd 0 2), .call (.lwtYield none), .call (.lwtSnd 1 (.word 5)),
    .call (.lwtRcv 1)]

/-- The main thread starts thread `1`, which sleeps in a receive; the main thread resumes it and
sends it to itself. -/
def adoptedRun : List Label :=
  [.call (.lwtChan 2 chanMem), .call (.lwtCreate 0 createMem), .call (.lwtYield none),
    .call (.lwtChan 0 chanMem), .call (.lwtRcv 3), .call (.lwtSnd 3 (.word 5)),
    .call (.lwtSndThd 1 1), .resume, .call (.lwtRcvThd 1), .resume, .resume]

theorem adoptedRun_runnable : AdoptsRunnable (booted.after (adoptedRun.take 10)) .resume := by
  intro cur t j hcur _ heax _ _
  have hcur' : (booted.after (adoptedRun.take 10)).lwtCurrent = some 0 := by decide +kernel
  have heax' : ((booted.after (adoptedRun.take 10)).threads 0).eax = .thd 1 := by decide +kernel
  obtain rfl : 0 = cur := Option.some.inj (hcur'.symm.trans hcur)
  obtain rfl : 1 = t := Data.thd.inj (heax'.symm.trans heax)
  exact .inl (by decide +kernel)

theorem adoptedRun_one_running :
    (∀ v ∈ Transition.visited (booted.trace singleRun) (booted.after singleRun),
      v.OneRunning 1) ∧
    (¬ ∀ v ∈ Transition.visited (booted.trace adoptedRun) (booted.after adoptedRun),
      v.OneRunning 1) ∧
    Adopts (booted.after (adoptedRun.take 10)) .resume (booted.after adoptedRun) := by
  have hsingle := one_running_iff (State.run_trace booted singleRun) boot_booted
  have hadopted := one_running_iff (State.run_trace booted adoptedRun) boot_booted
  have hlen : (booted.trace adoptedRun).length = adoptedRun.length := by decide +kernel
  have hlast : (booted.trace adoptedRun)[(booted.trace adoptedRun).length - 1]? =
      some (booted.after (adoptedRun.take 10), .resume) := by
    rw [hlen]
    exact trace_getElem? booted rfl (by rw [hlen]; decide)
  have hstep := Transition.Run.step_last (State.run_trace booted adoptedRun) hlast
  have hiff := hadopted.2 _ (List.mem_of_getElem? hlast) _ hstep
  dsimp only at hiff
  exact ⟨(hsingle.1 (by decide +kernel)).mpr (by decide +kernel),
    mt (hadopted.1 (by decide +kernel)).mp (by decide +kernel), hiff.mpr adoptedRun_runnable⟩

/-- The main thread starts thread `1` and sends it, before it has run, to the main thread of
another kernel thread, which is about to return from `lwt_rcv_thd`. -/
def strayRun : List Label :=
  [.call (.lwtCreate 0 createMem), .initiate 2 createMem, .switch 2,
    .call (.lwtChan 1 chanMem), .switch 1, .call (.lwtSndThd 3 1), .resume, .switch 2,
    .call (.lwtRcvThd 3), .resume]

/-- A created thread has state `LWT_RUNNING` while its creator runs, and `lwt_rcv_thd` leaves it
on the run queue of the kernel thread that it was created on. -/
theorem created_running :
    ¬ (booted.after [.call (.lwtCreate 0 createMem)]).OneRunning 1 ∧
      ∃ τ, Step (booted.after strayRun) .resume τ ∧ ¬ Adopts (booted.after strayRun) .resume τ := by
  constructor
  · intro h
    have hrun := (h.running 1 (by decide +kernel) (by decide +kernel)).mp (by decide +kernel)
    revert hrun
    decide +kernel
  · have hw : (booted.after strayRun).sched.Wired :=
      Run.wired (State.run_trace booted strayRun) boot_booted
    have hok : ((booted.after strayRun).step .resume).isOk = true := by decide +kernel
    obtain ⟨f, hf, hr⟩ : ∃ f ∈ (booted.after strayRun).frame .resume, f.isRcvThdRcv = true := by
      decide +kernel
    rw [Frame.isRcvThdRcv_iff] at hr
    subst hr
    cases hs : (booted.after strayRun).step .resume with
    | error e =>
      rw [hs] at hok
      cases hok
    | ok τ =>
      refine ⟨τ, hs, fun h => ?_⟩
      have hrun := (adopts_iff hw hs).mp h 2 1 1 (by decide +kernel) hf (by decide +kernel)
        (by decide +kernel) (by decide +kernel)
      revert hrun
      decide +kernel

end Runs

end Lwt
