import Mathlib.Logic.Function.Basic
import Mathlib.Data.List.Nodup

/-! Families of rings: a list head for each `h : H`, a ring of nodes behind it.
A node can be taken off whatever ring it is on without naming the ring, as an
intrusive doubly linked list allows. `Homed r home` says that the rings are the
inverse image of a map giving each node its ring, each node once: what a family
looks like when every node is where its owner says. -/

/-- The nodes behind each list head, in forward order. -/
abbrev Rings (H N : Type*) := H → List N

namespace Rings

variable {H N : Type*} [DecidableEq H] [DecidableEq N]

/-- `n` just before the last node. -/
def beforeLast (n : N) : List N → List N
  | [] => [n]
  | [x] => [n, x]
  | x :: y :: l => x :: beforeLast n (y :: l)

/-- Link `n` as the last node of ring `h`. -/
def add (r : Rings H N) (h : H) (n : N) : Rings H N := Function.update r h (r h ++ [n])

/-- Link `n` just before the last node of ring `h`. -/
def append (r : Rings H N) (h : H) (n : N) : Rings H N := Function.update r h (beforeLast n (r h))

def rem (r : Rings H N) (n : N) : Rings H N := fun h => (r h).erase n

def clear (r : Rings H N) (h : H) : Rings H N := Function.update r h []

omit [DecidableEq N] in
theorem beforeLast_perm (n : N) (l : List N) : (beforeLast n l).Perm (n :: l) := by
  induction l with
  | nil => rfl
  | cons x l ih =>
    cases l with
    | nil => rfl
    | cons y l => exact (ih.cons x).trans (List.Perm.swap n x _)

omit [DecidableEq N] in
@[simp] theorem mem_beforeLast {m n : N} {l : List N} : m ∈ beforeLast n l ↔ m = n ∨ m ∈ l := by
  rw [(beforeLast_perm n l).mem_iff, List.mem_cons]

omit [DecidableEq N] in
@[simp] theorem beforeLast_ne_nil (n : N) (l : List N) : beforeLast n l ≠ [] := by
  intro h
  have := (beforeLast_perm n l).length_eq
  simp [h] at this

omit [DecidableEq N] in
/-- Just before the last node is the front of a ring of one node at most. -/
theorem cons_eq_beforeLast_iff {n : N} {l : List N} (hn : n ∉ l) :
    n :: l = beforeLast n l ↔ l.length ≤ 1 := by
  cases l with
  | nil => simp [beforeLast]
  | cons x l =>
    cases l with
    | nil => simp [beforeLast]
    | cons y l =>
      have hx : n ≠ x := fun he => hn (he ▸ List.mem_cons_self)
      simp [beforeLast, hx]

omit [DecidableEq N] in
/-- `n` goes between the last node and those before it. -/
theorem beforeLast_concat (n z : N) (l : List N) : beforeLast n (l ++ [z]) = l ++ [n, z] := by
  induction l with
  | nil => rfl
  | cons x l ih =>
    cases l with
    | nil => rfl
    | cons y l =>
      show x :: beforeLast n ((y :: l) ++ [z]) = _
      rw [ih]
      rfl

omit [DecidableEq N] in
@[simp] theorem add_self (r : Rings H N) (h : H) (n : N) : r.add h n h = r h ++ [n] := by
  simp [add]

omit [DecidableEq N] in
theorem add_of_ne (r : Rings H N) {h h' : H} (n : N) (hh : h' ≠ h) : r.add h n h' = r h' := by
  simp [add, hh]

omit [DecidableEq N] in
@[simp] theorem append_self (r : Rings H N) (h : H) (n : N) :
    r.append h n h = beforeLast n (r h) := by
  simp [append]

omit [DecidableEq N] in
theorem append_of_ne (r : Rings H N) {h h' : H} (n : N) (hh : h' ≠ h) :
    r.append h n h' = r h' := by
  simp [append, hh]

omit [DecidableEq N] in
theorem mem_add {r : Rings H N} {h h' : H} {m n : N} :
    m ∈ r.add h n h' ↔ m ∈ r h' ∨ h' = h ∧ m = n := by
  by_cases hh : h' = h
  · subst hh
    simp
  · simp [add_of_ne r n hh, hh]

omit [DecidableEq N] in
theorem mem_append {r : Rings H N} {h h' : H} {m n : N} :
    m ∈ r.append h n h' ↔ m ∈ r h' ∨ h' = h ∧ m = n := by
  by_cases hh : h' = h
  · subst hh
    simp [or_comm]
  · simp [append_of_ne r n hh, hh]

omit [DecidableEq H] in
theorem mem_of_mem_rem {r : Rings H N} {h : H} {m n : N} (hm : m ∈ r.rem n h) : m ∈ r h :=
  List.mem_of_mem_erase hm

omit [DecidableEq N] in
theorem mem_of_mem_clear {r : Rings H N} {h h' : H} {n : N} (hn : n ∈ r.clear h h') :
    n ∈ r h' := by
  rw [clear, Function.update_apply] at hn
  split_ifs at hn
  · cases hn
  · exact hn

omit [DecidableEq H] in
@[simp] theorem rem_apply (r : Rings H N) (n : N) (h : H) : r.rem n h = (r h).erase n := rfl

omit [DecidableEq H] in
theorem rem_of_not_mem (r : Rings H N) {n : N} {h : H} (hn : n ∉ r h) : r.rem n h = r h :=
  List.erase_of_not_mem hn

/-- The rings are the inverse image of `home`, each node once. -/
structure Homed (r : Rings H N) (home : N → Option H) : Prop where
  nodup : ∀ h, (r h).Nodup
  mem_iff : ∀ h n, n ∈ r h ↔ home n = some h

variable {r : Rings H N} {home : N → Option H} {h : H} {n : N}

omit [DecidableEq H] [DecidableEq N] in
theorem Homed.congr (hr : Homed r home) {home' : N → Option H} (he : ∀ m, home' m = home m) :
    Homed r home' := by
  rwa [show home' = home from funext he]

omit [DecidableEq H] [DecidableEq N] in
/-- A node is on one ring at most. -/
theorem Homed.unique (hr : Homed r home) {h h' : H} (hn : n ∈ r h) (hn' : n ∈ r h') : h = h' := by
  rw [hr.mem_iff] at hn hn'
  exact Option.some.inj (hn.symm.trans hn')

omit [DecidableEq H] in
theorem Homed.rem (hr : Homed r home) (n : N) : Homed (r.rem n) (Function.update home n none) where
  nodup h := (hr.nodup h).erase n
  mem_iff h m := by
    rw [rem_apply, (hr.nodup h).mem_erase_iff, hr.mem_iff]
    by_cases hm : m = n <;> simp [hm]

theorem Homed.add (hr : Homed r home) (hn : home n = none) (h : H) :
    Homed (r.add h n) (Function.update home n (some h)) where
  nodup h' := by
    by_cases hh : h' = h
    · subst hh
      rw [add_self, List.nodup_append]
      refine ⟨hr.nodup h', by simp, ?_⟩
      rintro a ha b hb rfl
      rw [List.mem_singleton] at hb
      rw [hr.mem_iff, hb, hn] at ha
      cases ha
    · rw [add_of_ne r n hh]
      exact hr.nodup h'
  mem_iff h' m := by
    by_cases hm : m = n
    · subst hm
      have hnot : ∀ h, m ∉ r h := fun h => by simp [hr.mem_iff, hn]
      by_cases hh : h' = h
      · subst hh; simp
      · simp [add_of_ne r m hh, hnot, Ne.symm hh]
    · by_cases hh : h' = h
      · subst hh; simp [hm, hr.mem_iff]
      · simp [add_of_ne r n hh, hm, hr.mem_iff]

theorem Homed.append (hr : Homed r home) (hn : home n = none) (h : H) :
    Homed (r.append h n) (Function.update home n (some h)) where
  nodup h' := by
    by_cases hh : h' = h
    · subst hh
      rw [append_self, (beforeLast_perm n _).nodup_iff, List.nodup_cons]
      exact ⟨by simp [hr.mem_iff, hn], hr.nodup h'⟩
    · rw [append_of_ne r n hh]
      exact hr.nodup h'
  mem_iff h' m := by
    rw [← (hr.add hn h).mem_iff]
    by_cases hh : h' = h
    · subst hh; simp [or_comm]
    · rw [append_of_ne r n hh, add_of_ne r n hh]

omit [DecidableEq N] in
theorem Homed.clear (hr : Homed r home) (h : H) :
    Homed (r.clear h) fun n => if home n = some h then none else home n where
  nodup h' := by
    by_cases hh : h' = h
    · simp [Rings.clear, hh]
    · simpa [Rings.clear, hh] using hr.nodup h'
  mem_iff h' m := by
    by_cases hh : h' = h
    · simp [Rings.clear, hh]
    · simp only [Rings.clear, Function.update_of_ne hh, hr.mem_iff]
      constructor
      · intro hm
        rw [hm, if_neg (by simpa using hh), ]
      · intro hm
        split_ifs at hm
        exact hm

/-- Moving a node to the end of a ring. -/
theorem Homed.move_add (hr : Homed r home) (n : N) (h : H) :
    Homed ((r.rem n).add h n) (Function.update home n (some h)) := by
  have := (hr.rem n).add (n := n) (by simp) h
  rwa [Function.update_idem] at this

/-- Moving a node before the last of a ring. -/
theorem Homed.move_append (hr : Homed r home) (n : N) (h : H) :
    Homed ((r.rem n).append h n) (Function.update home n (some h)) := by
  have := (hr.rem n).append (n := n) (by simp) h
  rwa [Function.update_idem] at this

end Rings
