import Mathlib.Data.Set.Finite.Basic
import Mathlib.Data.Set.Finite.Lattice
import Mathlib.Logic.Relation
import Mathlib.Tactic.Common

/-! Parties that wait for one another. A chain of waits that starts at somebody for whom nobody
waits cannot come back to itself if nobody is waited for twice, so among finitely many parties
it ends, at somebody who does not wait. It ends everywhere if those waited for are of
higher rank. -/

namespace Waiting

open Relation

variable {α : Type*} {waits : α → α → Prop} {root a : α}

/-- Nobody is waited for by two, and nobody waits for `root`. -/
structure Forest (waits : α → α → Prop) (root : α) : Prop where
  unique : ∀ a a' b, waits a b → waits a' b → a = a'
  root : ∀ a, ¬ waits a root

/-- A chain of waits from the root does not come back to itself. -/
theorem Forest.injective (h : Forest waits root) {f : ℕ → α} (h0 : f 0 = root)
    (hf : ∀ i, waits (f i) (f (i + 1))) : Function.Injective f := by
  intro i
  induction i with
  | zero =>
    intro j he
    cases j with
    | zero => rfl
    | succ j => exact absurd ((he.symm.trans h0) ▸ hf j) (h.root (f j))
  | succ i ih =>
    intro j he
    cases j with
    | zero => exact absurd ((he.trans h0) ▸ hf i) (h.root (f i))
    | succ j => exact congrArg (· + 1) (ih (h.unique _ _ _ (hf i) (he ▸ hf j)))

/-- A chain of waits from the root ends. -/
theorem Forest.exists_end (h : Forest waits root) (hfin : {b | ReflTransGen waits root b}.Finite) :
    ∃ b, ReflTransGen waits root b ∧ ∀ c, ¬ waits b c := by
  by_contra! hno
  choose! next hnext using hno
  let f : ℕ → α := fun i => next^[i] root
  have hf : ∀ i, ReflTransGen waits root (f i) := by
    intro i
    induction i with
    | zero => exact .refl
    | succ i ih =>
      have hstep : f (i + 1) = next (f i) := Function.iterate_succ_apply' next i root
      exact hstep ▸ ih.tail (hnext _ ih)
  have hstep : ∀ i, waits (f i) (f (i + 1)) := by
    intro i
    have he : f (i + 1) = next (f i) := Function.iterate_succ_apply' next i root
    exact he ▸ hnext _ (hf i)
  exact Set.infinite_of_injective_forall_mem (h.injective rfl hstep) hf hfin

/-- If ranks go up along the waits, and not for ever, every chain of waits ends. -/
theorem exists_end_of_rank {rank : α → ℕ} {n : ℕ}
    (hup : ∀ a b, waits a b → rank a < rank b ∧ rank b ≤ n) (a : α) :
    ∃ b, ReflTransGen waits a b ∧ ∀ c, ¬ waits b c := by
  induction hm : n - rank a using Nat.strong_induction_on generalizing a with
  | _ m ih =>
    by_cases hw : ∃ b, waits a b
    · obtain ⟨b, hb⟩ := hw
      obtain ⟨hlt, hle⟩ := hup a b hb
      obtain ⟨c, hc, hend⟩ := ih (n - rank b) (by omega) b rfl
      exact ⟨c, .head hb hc, hend⟩
    · exact ⟨a, .refl, fun c hc => hw ⟨c, hc⟩⟩

end Waiting
