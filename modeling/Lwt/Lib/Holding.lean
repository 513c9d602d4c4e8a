import Mathlib.Data.List.Basic
import Mathlib.Order.Lattice
import Mathlib.Tactic.Common

/-! Who holds how much. Parties take one piece at a time and give one back at a time; what a set of
them holds is what they took less what they gave back. If nobody gives back what it does not hold,
no set of parties ever holds less than nothing, and nothing is held at all exactly if nobody holds
anything. -/

namespace Holding

inductive Move (A : Type*) where
  | take (a : A)
  | give (a : A)

variable {A : Type*} {p q : A → Bool} {l l' : List (Move A)} {a : A}

def Move.party : Move A → A
  | .take a | .give a => a

def Move.worth (p : A → Bool) : Move A → ℤ
  | .take a => if p a then 1 else 0
  | .give a => if p a then -1 else 0

/-- What the parties `p` hold behind the moves `l`. -/
def balance (p : A → Bool) : List (Move A) → ℤ
  | [] => 0
  | m :: l => m.worth p + balance p l

@[simp] theorem balance_nil : balance p [] = 0 := rfl

@[simp] theorem balance_cons (m : Move A) : balance p (m :: l) = m.worth p + balance p l := rfl

theorem balance_append : balance p (l ++ l') = balance p l + balance p l' := by
  induction l with
  | nil => simp
  | cons m l ih =>
    rw [List.cons_append, balance_cons, balance_cons, ih]
    omega

theorem balance_snoc (m : Move A) : balance p (l ++ [m]) = balance p l + m.worth p := by
  simp [balance_append]

theorem balance_map_take (as : List A) : balance (fun _ => true) (as.map .take) = as.length := by
  induction as with
  | nil => rfl
  | cons a as ih =>
    rw [List.map_cons, balance_cons, ih, List.length_cons]
    simp [Move.worth]
    omega

theorem balance_congr (h : ∀ m ∈ l, p m.party = q m.party) : balance p l = balance q l := by
  induction l with
  | nil => rfl
  | cons m l ih =>
    have hm := h m List.mem_cons_self
    rw [balance_cons, balance_cons, ih fun m' hm' => h m' (List.mem_cons_of_mem _ hm')]
    cases m with
    | take a | give a => simp only [Move.worth, show p a = q a from hm]

theorem balance_none : balance (fun _ => false) l = 0 := by
  induction l with
  | nil => rfl
  | cons m l ih =>
    rw [balance_cons, ih]
    cases m <;> rfl

/-- Some of the parties and the others. -/
theorem balance_split (p q : A → Bool) (l : List (Move A)) :
    balance p l = balance (fun a => p a && q a) l + balance (fun a => p a && !q a) l := by
  induction l with
  | nil => rfl
  | cons m l ih =>
    have hm : m.worth p = m.worth (fun a => p a && q a) + m.worth (fun a => p a && !q a) := by
      cases m with
      | take a | give a =>
        by_cases hp : p a <;> by_cases hq : q a <;> simp [Move.worth, hp, hq]
    rw [balance_cons, balance_cons, balance_cons, ih, hm]
    omega

section

variable [DecidableEq A]

def held (a : A) (l : List (Move A)) : ℤ := balance (fun b => b = a) l

theorem balance_eq_held_add (h : p a) :
    balance p l = held a l + balance (fun b => p b && b ≠ a) l := by
  rw [balance_split p (fun b => b = a) l, held]
  congr 1
  · refine balance_congr fun m _ => ?_
    by_cases hm : m.party = a
    · simp [hm, h]
    · simp [hm]
  · exact balance_congr fun m _ => by simp

/-- If nobody holds anything, nothing is held. -/
theorem balance_eq_zero (h : ∀ a, held a l = 0) (p : A → Bool) : balance p l = 0 := by
  have key : ∀ (as : List A) (p : A → Bool), (∀ m ∈ l, p m.party → m.party ∈ as) →
      balance p l = 0 := by
    intro as
    induction as with
    | nil =>
      intro p hp
      rw [← balance_none (l := l)]
      refine balance_congr fun m hm => ?_
      by_contra hne
      have hpm : p m.party = true := by simpa using hne
      simpa using hp m hm hpm
    | cons a as ih =>
      intro p hp
      by_cases ha : p a
      · rw [balance_eq_held_add ha, h a, ih]
        · rfl
        · intro m hm hpm
          obtain ⟨hpm, hne⟩ : p m.party = true ∧ m.party ≠ a := by simpa using hpm
          exact (List.mem_cons.mp (hp m hm hpm)).resolve_left hne
      · refine ih p fun m hm hpm => (List.mem_cons.mp (hp m hm hpm)).resolve_left ?_
        rintro rfl
        exact ha hpm
  exact key (l.map Move.party) p fun m hm _ => List.mem_map_of_mem hm

/-- Nobody gives back what it does not hold. -/
inductive Fair : List (Move A) → Prop
  | nil : Fair []
  | take (l : List (Move A)) (a : A) : Fair l → Fair (l ++ [.take a])
  | give (l : List (Move A)) (a : A) : Fair l → 0 < held a l → Fair (l ++ [.give a])

namespace Fair

theorem nonneg (h : Fair l) (p : A → Bool) : 0 ≤ balance p l := by
  induction h generalizing p with
  | nil => exact le_rfl
  | take l a _ ih =>
    have := ih p
    rw [balance_snoc, Move.worth]
    split_ifs <;> omega
  | give l a _ ha ih =>
    rw [balance_snoc, Move.worth]
    split_ifs with hp
    · have := ih fun b => p b && b ≠ a
      rw [balance_eq_held_add hp]
      omega
    · have := ih p
      omega

theorem held_nonneg (h : Fair l) (a : A) : 0 ≤ held a l := h.nonneg _

theorem held_le (h : Fair l) (hp : p a) : held a l ≤ balance p l := by
  have := h.nonneg fun b => p b && b ≠ a
  rw [balance_eq_held_add hp]
  omega

/-- Two parties hold no more than all. -/
theorem held_add_le (h : Fair l) {b : A} (hab : a ≠ b) (ha : p a) (hb : p b) :
    held a l + held b l ≤ balance p l := by
  have := h.held_le (p := fun c => p c && c ≠ a) (a := b) (by simp [hb, hab.symm])
  rw [balance_eq_held_add ha]
  omega

theorem balance_eq_zero_iff (h : Fair l) :
    balance (fun _ => true) l = 0 ↔ ∀ a, held a l = 0 := by
  refine ⟨fun h0 a => ?_, fun h0 => balance_eq_zero h0 _⟩
  have hle : held a l ≤ balance (fun _ => true) l := h.held_le rfl
  have := h.held_nonneg a
  omega

theorem append_takes (h : Fair l) (as : List A) : Fair (l ++ as.map .take) := by
  induction as generalizing l with
  | nil => simpa using h
  | cons a as ih =>
    rw [List.map_cons, List.append_cons]
    exact ih (.take l a h)

end Fair

theorem held_map_take_pos {as : List A} (ha : a ∈ as) : 0 < held a (as.map .take) := by
  obtain ⟨as₁, as₂, rfl⟩ := List.append_of_mem ha
  have h₁ : 0 ≤ held a (as₁.map .take) := (Fair.nil.append_takes as₁).held_nonneg a
  have h₂ : 0 ≤ held a (as₂.map .take) := (Fair.nil.append_takes as₂).held_nonneg a
  simp only [held] at h₁ h₂
  simp only [held, List.map_append, List.map_cons, balance_append, balance_cons, Move.worth]
  simp
  omega

end

end Holding
