import Mathlib.Data.List.Forall2
import Mathlib.Tactic.Common

/-! Two runs of a machine that can fail, in lockstep: the second reads other inputs than the first,
and shows the same at every step. -/

namespace Lockstep

universe u v

section Agree

variable {ε : Type*} {α γ : Type u} {β δ : Type v} {R : α → β → Prop} {T : γ → δ → Prop}
  {x : Except ε α} {y : Except ε β}

/-- Both computations fail for one reason, or both succeed with related results. -/
inductive Agree (R : α → β → Prop) : Except ε α → Except ε β → Prop
  | ok {a : α} {b : β} (h : R a b) : Agree R (.ok a) (.ok b)
  | error (e : ε) : Agree R (.error e) (.error e)

theorem Agree.mono (h : Agree R x y) (R' : α → β → Prop)
    (hR : ∀ a b, x = .ok a → y = .ok b → R a b → R' a b) : Agree R' x y := by
  cases h with
  | ok h => exact .ok (hR _ _ rfl rfl h)
  | error e => exact .error e

theorem Agree.bind {f : α → Except ε γ} {g : β → Except ε δ} (h : Agree R x y)
    (hf : ∀ a b, R a b → Agree T (f a) (g b)) : Agree T (x >>= f) (y >>= g) := by
  cases h with
  | ok h => exact hf _ _ h
  | error e => exact .error e

theorem Agree.ite {p q : Prop} [Decidable p] [Decidable q] {x' : Except ε α} {y' : Except ε β}
    (hpq : p ↔ q) (h : p → Agree R x y) (h' : ¬ p → Agree R x' y') :
    Agree R (if p then x else x') (if q then y else y') := by
  by_cases hp : p
  · rw [if_pos hp, if_pos (hpq.mp hp)]
    exact h hp
  · rw [if_neg hp, if_neg (fun hq => hp (hpq.mpr hq))]
    exact h' hp

end Agree

section Runs

variable {ε L : Type*} {S V : Type u} (step : S → L → Except ε S) (view : S → V)

/-- What each step of a run shows: why it failed, or what can be seen of the state behind it. -/
def outcomes (s : S) : List L → List (Except ε V)
  | [] => []
  | l :: ls =>
    (step s l).map view :: match step s l with
      | .ok t => outcomes t ls
      | .error _ => []

/-- The steps that a run tries, the one that fails included. -/
def tried (s : S) : List L → List (S × L)
  | [] => []
  | l :: ls =>
    (s, l) :: match step s l with
      | .ok t => tried t ls
      | .error _ => []

variable {step view} {s t : S} {ls ls' : List L} {C : S → L → Prop}

theorem tried_of_ok {l : L} (h : step s l = .ok t) :
    tried step s (l :: ls) = (s, l) :: tried step t ls := by
  rw [tried, h]

theorem outcomes_of_ok {l : L} (h : step s l = .ok t) :
    outcomes step view s (l :: ls) = .ok (view t) :: outcomes step view t ls := by
  rw [outcomes, h]
  rfl

theorem mem_of_mem_tried {p : S × L} (hp : p ∈ tried step s ls) : p.2 ∈ ls := by
  induction ls generalizing s with
  | nil => cases hp
  | cons l ls ih =>
    rcases List.mem_cons.mp hp with rfl | hp
    · exact List.mem_cons_self
    cases hs : step s l with
    | error e =>
      rw [hs] at hp
      cases hp
    | ok t =>
      rw [hs] at hp
      exact List.mem_cons_of_mem _ (ih hp)

/-- Two runs show the same if their states are related and look the same, for as long as the steps
of the first meet `C`. -/
theorem outcomes_eq {R : S → S → Prop} {K : L → L → Prop} (hview : ∀ s t, R s t → view s = view t)
    (hstep : ∀ s t l l', R s t → K l l' → C s l → Agree R (step s l) (step t l'))
    (hls : List.Forall₂ K ls ls') (hst : R s t) (hC : ∀ p ∈ tried step s ls, C p.1 p.2) :
    outcomes step view s ls = outcomes step view t ls' := by
  induction hls generalizing s t with
  | nil => rfl
  | @cons l l' ls ls' hl _ ih =>
    have ha := hstep s t l l' hst hl (hC (s, l) (by rw [tried]; exact List.mem_cons_self))
    generalize hs : step s l = x, hs' : step t l' = y at ha
    cases ha with
    | error e =>
      rw [outcomes, outcomes, hs, hs']
    | @ok u v h =>
      rw [outcomes_of_ok hs, outcomes_of_ok hs', hview u v h]
      rw [tried_of_ok hs] at hC
      exact congrArg _ (ih h fun p hp => hC p (List.mem_cons_of_mem _ hp))

/-- If any two inputs make the runs show the same, every step meets `C`: at a step that does not,
two of the inputs can be told apart. -/
theorem forall_tried_of_outcomes_eq (view : S → V) {M : Type*} {fill : M → L → L}
    {R : M → S → S → Prop} {t : M → S} {P : L → Prop}
    (hstep : ∀ m s t l, R m s t → P l → C s l → Agree (R m) (step s l) (step t (fill m l)))
    (hdist : ∀ s l, ¬ C s l → ∃ m m', ∀ t t', R m s t → R m' s t' →
      (step t (fill m l)).map view ≠ (step t' (fill m' l)).map view)
    (hP : ∀ l ∈ ls, P l) (hR : ∀ m, R m s (t m))
    (h : ∀ m m', outcomes step view (t m) (ls.map (fill m)) =
      outcomes step view (t m') (ls.map (fill m'))) :
    ∀ p ∈ tried step s ls, C p.1 p.2 := by
  induction ls generalizing s t with
  | nil => simp [tried]
  | cons l ls ih =>
    have hC : C s l := by
      by_contra hC
      obtain ⟨m, m', hne⟩ := hdist s l hC
      exact hne (t m) (t m') (hR m) (hR m') (List.cons.inj (h m m')).1
    intro p hp
    rcases List.mem_cons.mp hp with rfl | hp
    · exact hC
    cases hs : step s l with
    | error e =>
      rw [hs] at hp
      cases hp
    | ok u =>
      rw [hs] at hp
      have hnext (m : M) : ∃ v, step (t m) (fill m l) = .ok v ∧ R m u v := by
        have ha := hstep m s (t m) l (hR m) (hP l List.mem_cons_self) hC
        rw [hs] at ha
        generalize hs' : step (t m) (fill m l) = y at ha
        cases ha with
        | @ok _ v h => exact ⟨v, rfl, h⟩
      choose v hv hR' using hnext
      refine ih (fun l hl => hP l (List.mem_cons_of_mem _ hl)) hR' (fun m m' => ?_) p hp
      have hh := h m m'
      rw [List.map_cons, List.map_cons, outcomes_of_ok (hv m), outcomes_of_ok (hv m')] at hh
      exact (List.cons.inj hh).2

end Runs

end Lockstep
