import Mathlib.Data.List.Count
import Mathlib.Data.List.Pairwise
import Mathlib.Data.List.Perm.Basic
import Mathlib.Data.Nat.Basic
import Mathlib.Order.Basic
import Mathlib.Tactic.Common

/-! Blocks of consecutive units of a memory. A list of blocks is compared with another by how
often it holds each unit, so that blocks can be split, joined and moved between lists, and
disjointness is read off the numbers. -/

/-- `units` units from `start` on. -/
structure Extent where
  start : ℕ
  units : ℕ
  deriving DecidableEq

namespace Extent

variable {b b' : Extent} {u s m n : ℕ} {bs bs' : List Extent}

/-- The first unit behind the block. -/
def stop (b : Extent) : ℕ := b.start + b.units

def Holds (b : Extent) (u : ℕ) : Prop := b.start ≤ u ∧ u < b.stop

instance (b : Extent) (u : ℕ) : Decidable (b.Holds u) := inferInstanceAs (Decidable (_ ∧ _))

theorem holds_start (hb : 0 < b.units) : b.Holds b.start := ⟨le_rfl, Nat.lt_add_of_pos_right hb⟩

def Apart (b b' : Extent) : Prop := ∀ u, ¬ (b.Holds u ∧ b'.Holds u)

theorem Apart.symm (h : b.Apart b') : b'.Apart b := fun u hu => h u hu.symm

instance : Std.Symm Apart := ⟨fun _ _ h => h.symm⟩

def Within (b b' : Extent) : Prop := ∀ u, b.Holds u → b'.Holds u

theorem Apart.mono {c : Extent} (h : b'.Apart c) (hb : b.Within b') : b.Apart c :=
  fun u hu => h u ⟨hb u hu.1, hu.2⟩

/-- The last units of a block lie in it. -/
theorem within_last (h : m ≤ b.units) : (⟨b.stop - m, m⟩ : Extent).Within b := by
  rintro u ⟨h0, h1⟩
  simp only [Holds, stop] at h0 h1 ⊢
  omega

/-- Of two disjoint blocks one lies before the other. -/
theorem Apart.order (h : b.Apart b') (hb : 0 < b.units) (hb' : 0 < b'.units) :
    b.stop ≤ b'.start ∨ b'.stop ≤ b.start := by
  by_contra hne
  have hlt : b'.start < b.stop ∧ b.start < b'.stop := by omega
  rcases Nat.le_total b.start b'.start with hle | hle
  · exact h b'.start ⟨⟨hle, hlt.1⟩, holds_start hb'⟩
  · exact h b.start ⟨holds_start hb, hle, hlt.2⟩

theorem apart_of_stop_le (h : b.stop ≤ b'.start) : b.Apart b' := by
  rintro u ⟨⟨-, h1⟩, h2, -⟩
  omega

/-- How many of the blocks hold unit `u`. -/
def tally (bs : List Extent) (u : ℕ) : ℕ := bs.countP fun b => b.Holds u

@[simp] theorem tally_nil : tally [] u = 0 := rfl

theorem tally_cons : tally (b :: bs) u = tally [b] u + tally bs u := by
  rw [tally, tally, tally, ← List.countP_append, List.singleton_append]

@[simp] theorem tally_append : tally (bs ++ bs') u = tally bs u + tally bs' u :=
  List.countP_append

theorem tally_append_cons :
    tally (bs ++ b :: bs') u = tally bs u + (tally [b] u + tally bs' u) := by
  rw [tally_append, tally_cons]

theorem tally_perm (h : bs.Perm bs') : tally bs u = tally bs' u := h.countP_eq _

theorem tally_singleton : tally [b] u = if b.Holds u then 1 else 0 := by
  by_cases h : b.Holds u <;> simp [tally, h]

/-- A block is as much as its two parts. -/
theorem tally_split : tally [⟨s, m + n⟩] u = tally [⟨s, m⟩] u + tally [⟨s + m, n⟩] u := by
  have hor : (⟨s, m + n⟩ : Extent).Holds u ↔
      (⟨s, m⟩ : Extent).Holds u ∨ (⟨s + m, n⟩ : Extent).Holds u := by
    simp only [Holds, stop]
    omega
  have hnot (h : (⟨s, m⟩ : Extent).Holds u) : ¬ (⟨s + m, n⟩ : Extent).Holds u := by
    simp only [Holds, stop] at h ⊢
    omega
  by_cases h : (⟨s, m⟩ : Extent).Holds u
  · simp [tally_singleton, hor, h, hnot h]
  · simp [tally_singleton, hor, h]

theorem tally_pos_iff : 0 < tally bs u ↔ ∃ b ∈ bs, b.Holds u := by
  simp [tally, List.countP_pos_iff]

/-- Blocks are disjoint if and only if no unit is held twice. -/
theorem pairwise_apart_iff : bs.Pairwise Apart ↔ ∀ u, tally bs u ≤ 1 := by
  induction bs with
  | nil => simp
  | cons b bs ih =>
    rw [List.pairwise_cons, ih]
    constructor
    · rintro ⟨hb, hbs⟩ u
      rw [tally_cons, tally_singleton]
      have hle := hbs u
      by_cases hu : b.Holds u
      · have hzero : tally bs u = 0 := by
          by_contra hne
          obtain ⟨b', hb', hu'⟩ := tally_pos_iff.mp (Nat.pos_of_ne_zero hne)
          exact hb b' hb' u ⟨hu, hu'⟩
        rw [if_pos hu]
        omega
      · rw [if_neg hu]
        omega
    · intro h
      have hsum (u : ℕ) : tally [b] u + tally bs u ≤ 1 := tally_cons ▸ h u
      refine ⟨fun b' hb' u hu => ?_, fun u => ?_⟩
      · have hone : tally [b] u = 1 := by rw [tally_singleton, if_pos hu.1]
        have hpos : 0 < tally bs u := tally_pos_iff.mpr ⟨b', hb', hu.2⟩
        have := hsum u
        omega
      · have := hsum u
        omega

end Extent
