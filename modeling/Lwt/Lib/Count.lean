import Mathlib.Algebra.BigOperators.Group.Finset.Basic
import Mathlib.Algebra.BigOperators.Group.Finset.Piecewise
import Mathlib.Algebra.BigOperators.Intervals

/-! How many of the first `n` entries of a table have a property, and how the
number changes when one entry does. -/

section Count

variable {α : Type*} (p : α → Prop) [DecidablePred p] (f : ℕ → α) {n i : ℕ}

/-- The number of entries below `n` with `p`. -/
def numBelow (n : ℕ) : ℕ := ((Finset.range n).filter fun i => p (f i)).card

variable {p f}

theorem numBelow_congr {g : ℕ → α} (h : ∀ i < n, p (g i) ↔ p (f i)) :
    numBelow p g n = numBelow p f n := by
  unfold numBelow
  congr 1
  exact Finset.filter_congr fun i hi => h i (Finset.mem_range.mp hi)

variable (p f)

theorem numBelow_succ (n : ℕ) :
    numBelow p f (n + 1) = numBelow p f n + if p (f n) then 1 else 0 := by
  simp only [numBelow, Finset.card_filter, Finset.sum_range_succ]

/-- Replacing one entry takes off its old contribution and adds its new one. -/
theorem numBelow_update (hi : i < n) (v : α) :
    numBelow p (Function.update f i v) n + (if p (f i) then 1 else 0) =
      numBelow p f n + if p v then 1 else 0 := by
  induction n with
  | zero => omega
  | succ n ih =>
    rw [numBelow_succ, numBelow_succ]
    rcases Nat.lt_succ_iff_lt_or_eq.mp hi with hi | rfl
    · have := ih hi
      rw [Function.update_of_ne (by omega)]
      omega
    · rw [Function.update_self, numBelow_congr (f := f)]
      · omega
      · intro j hj
        rw [Function.update_of_ne (by omega)]

/-- Appending an entry. -/
theorem numBelow_push (v : α) :
    numBelow p (Function.update f n v) (n + 1) = numBelow p f n + if p v then 1 else 0 := by
  rw [numBelow_succ, Function.update_self, numBelow_congr (f := f)]
  intro j hj
  rw [Function.update_of_ne (by omega)]

variable {p f}

/-- Entries change at one place only. -/
theorem numBelow_change {g : ℕ → α} (hi : i < n) (h : ∀ j < n, j ≠ i → (p (g j) ↔ p (f j))) :
    numBelow p g n + (if p (f i) then 1 else 0) =
      numBelow p f n + if p (g i) then 1 else 0 := by
  rw [← numBelow_update p f hi (g i)]
  congr 1
  refine numBelow_congr fun j hj => ?_
  by_cases hji : j = i
  · subst hji
    simp
  · simp [hji, h j hj hji]

/-- The entries of a list without repetitions are counted. -/
theorem length_le_numBelow {l : List ℕ} (hl : l.Nodup) (h : ∀ i ∈ l, i < n ∧ p (f i)) :
    l.length ≤ numBelow p f n := by
  rw [← List.toFinset_card_of_nodup hl]
  refine Finset.card_le_card fun i hi => ?_
  obtain ⟨hlt, hp⟩ := h i (List.mem_toFinset.mp hi)
  exact Finset.mem_filter.mpr ⟨Finset.mem_range.mpr hlt, hp⟩

/-- A list of exactly the entries with the property has as many places. -/
theorem length_eq_numBelow {l : List ℕ} (hl : l.Nodup) (h : ∀ i, i ∈ l ↔ i < n ∧ p (f i)) :
    l.length = numBelow p f n := by
  rw [← List.toFinset_card_of_nodup hl, numBelow]
  congr 1
  ext i
  simp [h]

/-- If every entry has one of three properties, their numbers add up. -/
theorem numBelow_partition (p q r : α → Prop) [DecidablePred p] [DecidablePred q]
    [DecidablePred r] (h : ∀ i < n, (if p (f i) then 1 else 0) + (if q (f i) then 1 else 0) +
      (if r (f i) then 1 else 0) = 1) :
    numBelow p f n + numBelow q f n + numBelow r f n = n := by
  induction n with
  | zero => rfl
  | succ n ih =>
    have hn := h n (Nat.lt_succ_self n)
    have hih := ih fun i hi => h i (Nat.lt_succ_of_lt hi)
    simp only [numBelow_succ]
    omega

/-- Entries without the property do not count. -/
theorem numBelow_of_le {m : ℕ} (hmn : m ≤ n) (h : ∀ i, m ≤ i → i < n → ¬ p (f i)) :
    numBelow p f n = numBelow p f m := by
  induction hmn with
  | refl => rfl
  | @step n hmn ih =>
    rw [numBelow_succ, if_neg (h n hmn (Nat.lt_succ_self n)), add_zero]
    exact ih fun i hm hi => h i hm (Nat.lt_succ_of_lt hi)

end Count
