import Lwt.Types
import Mathlib.Tactic.Simps.Basic

/-! Reads and writes of the state. Every write touches one map and leaves the
others alone. -/

namespace Lwt

namespace State

variable (σ : State)

def kthd : Kthd := σ.kthds σ.currentKthd

def lwtCurrent : Option ThreadId := σ.kthd.currentThread

def currentRunQueue : Queue := .run σ.currentKthd

def currentRecycleQueue : Queue := .recycle σ.currentKthd

/-- `owner_run_queue()`, with `cur` the running thread. -/
def ownerRunQueue (cur : ThreadId) : Queue := .run (σ.threads cur).ownerKthd

@[simps] def modKthd (k : KthdId) (f : Kthd → Kthd) : State :=
  { σ with kthds := Function.update σ.kthds k (f (σ.kthds k)) }

@[simps] def modThread (t : ThreadId) (f : Thread → Thread) : State :=
  { σ with threads := Function.update σ.threads t (f (σ.threads t)) }

@[simps] def modChan (c : ChanId) (f : Chan → Chan) : State :=
  { σ with chans := Function.update σ.chans c (f (σ.chans c)) }

@[simps] def modCgrp (g : CgrpId) (f : Cgrp → Cgrp) : State :=
  { σ with cgrps := Function.update σ.cgrps g (f (σ.cgrps g)) }

@[simps] def listRem (t : ThreadId) : State := { σ with queues := σ.queues.rem t }

/-- `list_head_add_d` of a thread: the new node becomes the last. -/
@[simps] def listHeadAdd (q : Queue) (t : ThreadId) : State :=
  { σ with queues := σ.queues.add q t }

/-- `list_head_append_d` of a thread: the new node goes before the last. -/
@[simps] def listHeadAppend (q : Queue) (t : ThreadId) : State :=
  { σ with queues := σ.queues.append q t }

@[simps] def emit (e : Event) : State := { σ with history := σ.history ++ [e] }

/-- The return stack of a thread, as `__lwt_dispatch` saves it. -/
def saveContext (t : ThreadId) (k : List Frame) : State :=
  σ.modThread t fun th => { th with context := k }

/-- The channel behind a pointer that is about to be followed. -/
def chan? (c : ChanId) : Result Chan :=
  if σ.nchans ≤ c then .error .badPointer
  else if (σ.chans c).freed then .error .useAfterFree
  else .ok (σ.chans c)

def cgrp? (g : CgrpId) : Result Cgrp :=
  if σ.ncgrps ≤ g then .error .badPointer
  else if (σ.cgrps g).freed then .error .useAfterFree
  else .ok (σ.cgrps g)

def thread? (t : ThreadId) : Result Thread :=
  if σ.nthreads ≤ t then .error .badPointer else .ok (σ.threads t)

end State

theorem chan?_ok {σ : State} {c : ChanId} {ch : Chan} (h : σ.chan? c = .ok ch) :
    ch = σ.chans c ∧ c < σ.nchans ∧ (σ.chans c).freed = false := by
  unfold State.chan? at h
  split_ifs at h
  simp_all

theorem cgrp?_ok {σ : State} {g : CgrpId} {gr : Cgrp} (h : σ.cgrp? g = .ok gr) :
    gr = σ.cgrps g ∧ g < σ.ncgrps ∧ (σ.cgrps g).freed = false := by
  unfold State.cgrp? at h
  split_ifs at h
  simp_all

theorem thread?_ok {σ : State} {t : ThreadId} {th : Thread} (h : σ.thread? t = .ok th) :
    th = σ.threads t ∧ t < σ.nthreads := by
  unfold State.thread? at h
  split_ifs at h
  simp_all

/-- `x` does not fail with `e`. -/
def Avoids {α : Type} (e : Fault) (x : Result α) : Prop := x ≠ .error e

section Avoids

variable {α β : Type} {e e' : Fault} {x : Result α} {f : α → Result β}

@[simp] theorem avoids_ok {a : α} : Avoids e (.ok a : Result α) := fun h => by cases h

@[simp] theorem avoids_error : Avoids e (.error e' : Result α) ↔ e' ≠ e := by
  simp [Avoids]

theorem Avoids.bind (hx : Avoids e x) (hf : ∀ a, x = .ok a → Avoids e (f a)) :
    Avoids e (x >>= f) := by
  cases hv : x with
  | error e' =>
    rw [hv] at hx
    exact fun h => hx (by injection h with h; rw [h])
  | ok a => exact hf a hv

theorem Avoids.ite {p : Prop} [Decidable p] {y : Result α} (hx : p → Avoids e x)
    (hy : ¬ p → Avoids e y) : Avoids e (if p then x else y) := by
  split_ifs with h
  · exact hx h
  · exact hy h

end Avoids

/-- The result of a section behind a fallible one. -/
theorem bind_ok {α β : Type} {x : Result α} {f : α → Result β} {b : β}
    (h : (x >>= f) = .ok b) : ∃ a, x = .ok a ∧ f a = .ok b := by
  cases x with
  | error e => simp [bind, Except.bind] at h
  | ok a => exact ⟨a, rfl, h⟩

end Lwt
