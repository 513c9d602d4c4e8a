import Lwt.Refinement
import Lwt.Lib.Links
import Mathlib.Data.List.Dedup

/-! The polling loop of `__lwt_schedule`, with the entries of the wake-up queue as nodes that are
linked, unlinked and given back. The loop takes its next entry from the one that it has just
unlinked. -/

namespace Lwt

/-- The position of a `struct __lwt_wrap` among those that `lwt_sync_snd` has allocated. -/
abbrev EntryId := ℕ

/-- The wake-up queue of a kernel thread. The node `none` is its list head. -/
structure WakeupQueue where
  links : Links (Option EntryId)
  /-- What the entries point at. -/
  thd : EntryId → Option ThreadId
  /-- How often each entry was given to `ufree`. -/
  frees : EntryId → ℕ

namespace WakeupQueue

variable (w : WakeupQueue)

/-- The field `x` of entry `i`. With `retained` a block keeps what was in it when it is freed;
without, it must not be read any more. -/
def read {α : Type} (retained : Bool) (i : EntryId) (x : α) : Result α :=
  if retained ∨ w.frees i = 0 then .ok x else .error .useAfterFree

/-- `lwt_sync_snd` puts entry `i` for thread `t` at the end. -/
def enqueue (i : EntryId) (t : Option ThreadId) : WakeupQueue where
  links := w.links.add none (some i)
  thd := Function.update w.thd i t
  frees := w.frees

/-- `list_rem_d` and `ufree` of entry `i`. -/
def free (i : EntryId) : WakeupQueue where
  links := w.links.rem (some i)
  thd := w.thd
  frees := Function.update w.frees i (w.frees i + 1)

structure Holds (is : List EntryId) (l : List (Option ThreadId)) : Prop where
  ring : w.links.Ring none (is.map some)
  thd : is.map w.thd = l
  live : ∀ i ∈ is, w.frees i = 0

end WakeupQueue

namespace State

variable (σ : State) (addr : Option ThreadId → ℕ) (cur : ThreadId)

/-- What the loop does for an entry of `thd`: the pointer is compared with `LWT_BLOCKED`, which
is `1`. The address of a thread structure is given by `addr`. -/
def pollEntry (thd : Option ThreadId) : Result State :=
  if addr thd = 1 then
    match thd with
    | none => .error .nullPointer
    | some t => do
      let th ← σ.thread? t
      if th.blockFor = .receiving then
        let τ := σ.modKthd σ.currentKthd fun kt =>
          { kt with
            nrcving := kt.nrcving - if th.blockFor = .receiving then 1 else 0
            nsnding := kt.nsnding - if th.blockFor = .sending then 1 else 0 }
        let τ := τ.modThread t fun th => { th with state := .runnable }
        let τ := τ.modKthd σ.currentKthd fun kt => { kt with blockCounter := kt.blockCounter - 1 }
        .ok (τ.listHeadAppend (τ.ownerRunQueue cur) t)
      else .ok σ
  else .ok σ

/-- One round of the loop, at entry `i`, with the entry that it comes to. -/
def pollRound (retained : Bool) (w : WakeupQueue) (i : EntryId) :
    Result (State × WakeupQueue × Option EntryId) := do
  let thd ← w.read retained i (w.thd i)
  let τ ← σ.pollEntry addr cur thd
  let w := w.free i
  let next ← w.read retained i (w.links.next (some i))
  .ok (τ, w, next)

/-- The loop from entry `lw` on, if it ends within that many tests of its condition. -/
def pollLoop (retained : Bool) : ℕ → State → WakeupQueue → Option EntryId →
    Option (Result (State × WakeupQueue))
  | 0, _, _, _ => none
  | _ + 1, σ, w, none => some (.ok (σ, w))
  | n + 1, σ, w, some i =>
    match σ.pollRound addr cur retained w i with
    | .error e => some (.error e)
    | .ok (τ, w', lw) => pollLoop retained n τ w' lw

/-- The part of `__lwt_schedule` under the polling flag. -/
def poll (retained : Bool) (n : ℕ) (w : WakeupQueue) : Option (Result (State × WakeupQueue)) :=
  if σ.kthd.pollingFlag then pollLoop addr cur retained n σ w (w.links.next none)
  else some (.ok (σ, w))

end State

variable {σ τ : State} {w w' : WakeupQueue} {is : List EntryId} {i : EntryId}
  {l : List (Option ThreadId)} {t : Option ThreadId} {addr : Option ThreadId → ℕ} {cur : ThreadId}
  {retained : Bool} {lw : Option EntryId}

namespace WakeupQueue.Holds

open State

/-- `list_head_init`. -/
theorem init (w : WakeupQueue) : { w with links := w.links.init none }.Holds [] [] :=
  ⟨Links.ring_init _ _, rfl, by simp⟩

theorem enqueue (h : w.Holds is l) (hi : i ∉ is) (hfree : w.frees i = 0) (t : Option ThreadId) :
    (w.enqueue i t).Holds (is ++ [i]) (l ++ [t]) := by
  refine ⟨?_, ?_, ?_⟩
  · rw [List.map_append, List.map_singleton]
    exact h.ring.add (by simpa using hi)
  · rw [List.map_append, List.map_singleton, ← h.thd]
    congr 1
    · refine List.map_congr_left fun j hj => Function.update_of_ne ?_ _ _
      rintro rfl
      exact hi hj
    · exact congrArg (fun t => [t]) (Function.update_self ..)
  · intro j hj
    rcases List.mem_append.mp hj with hj | hj
    · exact h.live j hj
    · rw [List.mem_singleton.mp hj]
      exact hfree

/-- The memory of the queue follows `lwt_sync_snd`. -/
theorem syncSndWakeup {c : ChanId} {remote : KthdId} {n : Next}
    (hs : σ.lwtSyncSndWakeup cur c remote = .ok (τ, n)) (h : w.Holds is (σ.wakeupQueues remote))
    (hi : i ∉ is) (hfree : w.frees i = 0) :
    (w.enqueue i (σ.chans c).receiver).Holds (is ++ [i]) (τ.wakeupQueues remote) := by
  obtain ⟨-, rfl, -⟩ := lwtSyncSndWakeup_ok hs
  simp only [emit_wakeupQueues, Function.update_self]
  exact h.enqueue hi hfree _

/-- The loop starts at the first entry. -/
theorem first (h : w.Holds is l) : w.links.next none = is.head? := by
  rw [h.ring.next_head]
  cases is <;> rfl

end WakeupQueue.Holds

namespace State

/-- A round that does not fault comes back to the entry that it has unlinked and freed. -/
theorem pollRound_ok {n : State × WakeupQueue × Option EntryId}
    (h : σ.pollRound addr cur retained w i = .ok n) : n.2 = (w.free i, some i) := by
  obtain ⟨thd, -, h⟩ := bind_ok h
  obtain ⟨τ, -, h⟩ := bind_ok h
  obtain ⟨next, hn, h⟩ := bind_ok h
  cases h
  unfold WakeupQueue.read at hn
  split_ifs at hn
  cases hn
  exact congrArg (Prod.mk _) (Links.rem_next_self _ _)

/-- The loop never leaves the entry that it comes to. -/
theorem pollLoop_ne_ok (n : ℕ) :
    pollLoop addr cur retained n σ w (some i) ≠ some (.ok (τ, w')) := by
  induction n generalizing σ w with
  | zero => exact nofun
  | succ n ih =>
    unfold pollLoop
    split
    · exact nofun
    · rename_i τ₁ w₁ lw hr
      obtain ⟨-, rfl⟩ := Prod.mk.inj (pollRound_ok hr)
      exact ih

/-- How many threads that sleep in a receive the entries name. -/
def numListed (σ : State) (w : WakeupQueue) (is : List EntryId) : ℕ :=
  (is.filterMap w.thd).dedup.countP fun t => (σ.threads t).task.Receiving

/-- What the entries `is` of memory `w` ask for has been done when the loop has led from `σ`
to `τ`. -/
structure Drained (σ : State) (w : WakeupQueue) (is : List EntryId) (τ : State)
    (w' : WakeupQueue) : Prop where
  empty : w'.links.Ring none []
  unlinked : ∀ i ∈ is, w'.links.next (some i) = some i ∧ w'.links.prev (some i) = some i
  freed : ∀ i ∈ is, w'.frees i = w.frees i + 1
  woken : ∀ i ∈ is, ∀ t, w.thd i = some t → (σ.threads t).task.Receiving →
    (τ.threads t).state = .runnable ∧ (τ.queues (.run σ.currentKthd)).count t = 1
  blockCounter : τ.kthd.blockCounter = σ.kthd.blockCounter - σ.numListed w is
  nrcving : τ.kthd.nrcving = σ.kthd.nrcving - σ.numListed w is
  others : ∀ t, (∀ i ∈ is, w.thd i = some t → ¬ (σ.threads t).task.Receiving) →
    τ.threads t = σ.threads t ∧ ∀ q, (τ.queues q).count t = (σ.queues q).count t

/-- Without freed memory to be read, and with no thread structure at address `1`, the loop does
what `pollWakeupQueue` says. -/
theorem poll_refines (haddr : ∀ t, addr t ≠ 1) (hw : w.Holds is (σ.wakeupQueues σ.currentKthd)) :
    (σ.poll addr cur false 2 w).map (Except.map Prod.fst) = some σ.pollWakeupQueue := by
  unfold poll pollWakeupQueue
  split_ifs with hp
  · rw [hw.first, ← hw.thd]
    cases is with
    | nil => rfl
    | cons i is =>
      have hlive : w.frees i = 0 := hw.live i (by simp)
      have hround : σ.pollRound addr cur false w i = .error .useAfterFree := by
        simp [pollRound, WakeupQueue.read, hlive, pollEntry, haddr, WakeupQueue.free, bind,
          Except.bind]
      simp only [List.head?_cons, pollLoop, hround]
      rfl
  · rfl

end State

open State

/-- With the polling flag up the loop ends and does what the entries ask for if and only if there
are none, whether or not a freed block keeps its contents. -/
theorem drains_iff (retained : Bool) (addr : Option ThreadId → ℕ) (cur : ThreadId)
    (hp : σ.kthd.pollingFlag = true) (hw : w.Holds is (σ.wakeupQueues σ.currentKthd)) :
    (∃ n τ w', σ.poll addr cur retained n w = some (.ok (τ, w')) ∧ Drained σ w is τ w') ↔
      σ.wakeupQueues σ.currentKthd = [] := by
  have hpoll (n : ℕ) : σ.poll addr cur retained n w =
      pollLoop addr cur retained n σ w is.head? := by
    rw [poll, if_pos hp, hw.first]
  have hnil : σ.wakeupQueues σ.currentKthd = [] ↔ is = [] := by
    rw [← hw.thd, List.map_eq_nil_iff]
  rw [hnil]
  cases is with
  | nil =>
    refine iff_of_true ⟨1, σ, w, hpoll 1, ?_⟩ rfl
    exact {
      empty := hw.ring
      unlinked := by simp
      freed := by simp
      woken := by simp
      blockCounter := by simp [numListed]
      nrcving := by simp [numListed]
      others := fun _ _ => ⟨rfl, fun _ => rfl⟩ }
  | cons i is =>
    refine iff_of_false ?_ (by simp)
    rintro ⟨n, τ, w', h, -⟩
    rw [hpoll] at h
    exact pollLoop_ne_ok n h

def sleepRun : List Label :=
  [.call (.lwtCreate 0 createMem), .call (.lwtYield none), .call (.lwtChan 1 chanMem),
    .call (.lwtRcv 2)]

/-- Behind `sleepRun` the polling flag is up, and there are entries for the threads `l`. -/
def polled (l : List (Option ThreadId)) : State :=
  { (booted.after sleepRun).modKthd 1 fun kt => { kt with pollingFlag := true } with
    wakeupQueues := fun _ => l }

def emptyQueue : WakeupQueue where
  links := Links.init ⟨id, id⟩ none
  thd _ := none
  frees _ := 0

theorem emptyQueue_holds : emptyQueue.Holds [] [] :=
  .init ⟨⟨id, id⟩, fun _ => none, fun _ => 0⟩

theorem polled_drains :
    (∃ n τ w', (polled []).poll (fun _ => 0) 0 true n emptyQueue = some (.ok (τ, w')) ∧
      Drained (polled []) emptyQueue [] τ w') ∧
    ¬ ∃ n τ w', (polled [some 1]).poll (fun _ => 0) 0 true n (emptyQueue.enqueue 0 (some 1)) =
        some (.ok (τ, w')) ∧
      Drained (polled [some 1]) (emptyQueue.enqueue 0 (some 1)) [0] τ w' := by
  have hw : (emptyQueue.enqueue 0 (some 1)).Holds [0] [some 1] :=
    emptyQueue_holds.enqueue (by simp) rfl (some 1)
  have hempty := drains_iff (σ := polled []) true (fun _ => 0) 0 (by decide +kernel)
    emptyQueue_holds
  have hone := drains_iff (σ := polled [some 1]) true (fun _ => 0) 0 (by decide +kernel) hw
  exact ⟨hempty.mpr rfl, mt hone.mp (by decide +kernel)⟩

/-- An entry for the sleeping thread is never done with. A program that must not read freed
memory fails behind it. -/
theorem polled_never_drains :
    ((polled [some 1]).threads 1).task.Receiving ∧
    (emptyQueue.enqueue 0 (some 1)).Holds [0] ((polled [some 1]).wakeupQueues 1) ∧
    (¬ ∃ retained addr n τ w', (polled [some 1]).poll addr 0 retained n
      (emptyQueue.enqueue 0 (some 1)) = some (.ok (τ, w'))) ∧
    ((polled [some 1]).poll (fun _ => 0) 0 false 2 (emptyQueue.enqueue 0 (some 1))).map
      (Except.map Prod.fst) = some (.error .useAfterFree) := by
  have hw : (emptyQueue.enqueue 0 (some 1)).Holds [0] [some 1] :=
    emptyQueue_holds.enqueue (by simp) rfl (some 1)
  have hk : (polled [some 1]).kthd.pollingFlag = true := by decide +kernel
  refine ⟨by decide +kernel, hw, ?_, (poll_refines (by simp) hw).trans ?_⟩
  · rintro ⟨retained, addr, n, τ, w', h⟩
    rw [poll, if_pos hk, hw.first] at h
    exact pollLoop_ne_ok n h
  · rw [pollWakeupQueue, if_pos hk]
    rfl

end Lwt
