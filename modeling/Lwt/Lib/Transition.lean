import Mathlib.Algebra.Ring.Nat
import Mathlib.Data.List.Induction
import Mathlib.Tactic.Common

/-! Labelled transition systems and their finite runs. A run keeps every state
it leaves together with the label it took, so that a property of all visited
states can be compared with a condition on all steps. Each induction over runs
is made here once; a development supplies what one step does. -/

namespace Transition

variable {S L : Type*} {step : S → L → S → Prop} {s₀ s : S} {tr : List (S × L)}

/-- A finite run from `s₀`: the states left with the labels taken, oldest
first, and the state reached. -/
inductive Run (step : S → L → S → Prop) (s₀ : S) : List (S × L) → S → Prop
  | nil : Run step s₀ [] s₀
  | snoc {tr : List (S × L)} {s s' : S} {l : L} :
      Run step s₀ tr s → step s l s' → Run step s₀ (tr ++ [(s, l)]) s'

/-- All states of a run, the last one included. -/
def visited (tr : List (S × L)) (s : S) : List S := tr.map Prod.fst ++ [s]

theorem last_mem_visited (tr : List (S × L)) (s : S) : s ∈ visited tr s := by
  simp [visited]

theorem forall_visited_snoc {P : S → Prop} {l : L} {s' : S} :
    (∀ u ∈ visited (tr ++ [(s, l)]) s', P u) ↔ (∀ u ∈ visited tr s, P u) ∧ P s' := by
  simp only [visited, List.map_append, List.map_cons, List.map_nil, List.forall_mem_append,
    List.forall_mem_singleton]

theorem forall_steps_snoc {C : S → L → Prop} {l : L} :
    (∀ p ∈ tr ++ [(s, l)], C p.1 p.2) ↔ (∀ p ∈ tr, C p.1 p.2) ∧ C s l := by
  simp only [List.forall_mem_append, List.forall_mem_singleton]

/-- What holds at the start and is kept by every step holds at the end. -/
theorem Run.invariant {I : S → Prop} (h : Run step s₀ tr s) (init : I s₀)
    (keep : ∀ s l s', I s → step s l s' → I s') : I s := by
  induction h with
  | nil => exact init
  | snoc _ hs ih => exact keep _ _ _ ih hs

/-- The same, for runs whose steps all meet the condition `C`. -/
theorem Run.invariant_of {I : S → Prop} {C : S → L → Prop} (h : Run step s₀ tr s)
    (hC : ∀ p ∈ tr, C p.1 p.2) (init : I s₀)
    (keep : ∀ s l s', I s → C s l → step s l s' → I s') : I s := by
  induction h with
  | nil => exact init
  | snoc _ hs ih =>
    obtain ⟨hC, hl⟩ := forall_steps_snoc.mp hC
    exact keep _ _ _ (ih hC) hl hs

/-- Amortised cost. If every step is paid for by what it takes off a potential and by a budget
of its own, the run is paid for by the start and by the budgets. -/
theorem Run.amortised {I : S → Prop} {C : S → L → Prop} {Φ : S → ℕ} {cost budget : L → ℕ}
    (h : Run step s₀ tr s) (hC : ∀ p ∈ tr, C p.1 p.2) (init : I s₀)
    (keep : ∀ s l s', I s → C s l → step s l s' → I s')
    (hpay : ∀ s l s', I s → C s l → step s l s' → Φ s' + cost l ≤ Φ s + budget l) :
    Φ s + (tr.map fun p => cost p.2).sum ≤ Φ s₀ + (tr.map fun p => budget p.2).sum := by
  induction h with
  | nil => simp
  | snoc hr hs ih =>
    obtain ⟨hC, hl⟩ := forall_steps_snoc.mp hC
    have hstep := hpay _ _ _ (hr.invariant_of hC init keep) hl hs
    have hrun := ih hC
    simp only [List.map_append, List.map_cons, List.map_nil, List.sum_append, List.sum_cons,
      List.sum_nil]
    omega

/-- Every state of a run is reached by a prefix of it. -/
theorem Run.of_mem_visited (h : Run step s₀ tr s) {u : S} (hu : u ∈ visited tr s) :
    ∃ tr', Run step s₀ tr' u ∧ tr' <+: tr := by
  induction h with
  | nil =>
    simp only [visited, List.map_nil, List.nil_append, List.mem_singleton] at hu
    subst hu
    exact ⟨[], .nil, List.prefix_rfl⟩
  | @snoc tr s s' l hr hs ih =>
    simp only [visited, List.map_append, List.map_cons, List.map_nil, List.mem_append,
      List.mem_singleton] at hu
    rcases hu with hu | rfl
    · obtain ⟨tr', hr', hp⟩ := ih (by simpa [visited] using hu)
      exact ⟨tr', hr', hp.trans (List.prefix_append _ _)⟩
    · exact ⟨_, .snoc hr hs, List.prefix_rfl⟩

/-- Every step of a run is made from a state that a prefix of it reaches. -/
theorem Run.of_mem (h : Run step s₀ tr s) {p : S × L} (hp : p ∈ tr) :
    ∃ tr' s', Run step s₀ tr' p.1 ∧ tr' <+: tr ∧ step p.1 p.2 s' := by
  induction h with
  | nil => simp at hp
  | @snoc tr s s' l hr hs ih =>
    rcases List.mem_append.mp hp with hp | hp
    · obtain ⟨tr', s'', hr', hpre, hs'⟩ := ih hp
      exact ⟨tr', s'', hr', hpre.trans (List.prefix_append _ _), hs'⟩
    · obtain rfl := List.mem_singleton.mp hp
      exact ⟨tr, s', hr, List.prefix_append _ _, hs⟩

/-- The last step of a run leads to the state reached. -/
theorem Run.step_last (h : Run step s₀ tr s) {p : S × L} (hp : tr[tr.length - 1]? = some p) :
    step p.1 p.2 s := by
  cases h with
  | nil => simp at hp
  | snoc hr hs =>
    rw [List.length_append, List.length_singleton, Nat.add_sub_cancel,
      List.getElem?_append_right (Nat.le_refl _), Nat.sub_self, List.getElem?_cons_zero,
      Option.some.injEq] at hp
    subst hp
    exact hs

/-- Every step of a run leads to the state that the next one is made from. -/
theorem Run.step_getElem (h : Run step s₀ tr s) {i : ℕ} {p q : S × L} (hp : tr[i]? = some p)
    (hq : tr[i + 1]? = some q) : step p.1 p.2 q.1 := by
  induction h with
  | nil => simp at hp
  | @snoc tr s s' l hr hs ih =>
    obtain ⟨hi, -⟩ := List.getElem?_eq_some_iff.mp hq
    rw [List.length_append, List.length_singleton] at hi
    rw [List.getElem?_append_left (by omega)] at hp
    by_cases hlast : i + 1 < tr.length
    · rw [List.getElem?_append_left hlast] at hq
      exact ih hp hq
    · have hlen : i + 1 = tr.length := by omega
      rw [hlen, List.getElem?_append_right (Nat.le_refl _), Nat.sub_self,
        List.getElem?_cons_zero, Option.some.injEq] at hq
      subst hq
      refine hr.step_last ?_
      rw [← hlen]
      exact hp

/-- The steps before one of a run lead to where it is made from. -/
theorem Run.take (h : Run step s₀ tr s) {i : ℕ} {p : S × L} (hp : tr[i]? = some p) :
    Run step s₀ (tr.take i) p.1 := by
  induction h with
  | nil => simp at hp
  | @snoc tr s s' l hr hs ih =>
    rcases Nat.lt_or_ge i tr.length with hi | hi
    · rw [List.getElem?_append_left hi] at hp
      rw [List.take_append_of_le_length (Nat.le_of_lt hi)]
      exact ih hp
    · obtain ⟨hlt, -⟩ := List.getElem?_eq_some_iff.mp hp
      rw [List.length_append, List.length_singleton] at hlt
      obtain rfl : i = tr.length := by omega
      rw [List.getElem?_concat_length, Option.some.injEq] at hp
      subst hp
      rwa [List.take_left]

/-- Where the count of a kind of steps has a value that it passes, such a step is made. -/
theorem exists_of_lt_countP {p : S × L → Bool} {n : ℕ} (hn : n < tr.countP p) :
    ∃ (i : ℕ) (q : S × L), tr[i]? = some q ∧ p q = true ∧ (tr.take i).countP p = n := by
  induction tr using List.reverseRecOn with
  | nil => simp at hn
  | append_singleton tr q ih =>
    rcases Nat.lt_or_ge n (tr.countP p) with hlt | hge
    · obtain ⟨i, q', hi, hq', hc⟩ := ih hlt
      obtain ⟨hlen, -⟩ := List.getElem?_eq_some_iff.mp hi
      refine ⟨i, q', ?_, hq', ?_⟩
      · rwa [List.getElem?_append_left hlen]
      · rwa [List.take_append_of_le_length (Nat.le_of_lt hlen)]
    · rw [List.countP_append, List.countP_singleton] at hn
      have hq : p q = true := by
        by_contra hq
        simp [hq] at hn
        omega
      refine ⟨tr.length, q, List.getElem?_concat_length, hq, ?_⟩
      rw [hq] at hn
      rw [List.take_left]
      exact Nat.le_antisymm hge (Nat.le_of_lt_succ hn)

theorem visited_of_getElem? {i : ℕ} {p : S × L} (hp : tr[i]? = some p) :
    (visited tr s)[i]? = some p.1 := by
  obtain ⟨hi, -⟩ := List.getElem?_eq_some_iff.mp hp
  rw [visited, List.getElem?_append_left (by rwa [List.length_map]), List.getElem?_map, hp]
  rfl

theorem visited_getElem?_length : (visited tr s)[tr.length]? = some s := by
  simp [visited]

theorem visited_getElem? {i : ℕ} {v : S} (hv : (visited tr s)[i]? = some v) :
    (∃ p, tr[i]? = some p ∧ p.1 = v) ∨ i = tr.length ∧ v = s := by
  rw [visited] at hv
  rcases Nat.lt_or_ge i tr.length with hi | hi
  · rw [List.getElem?_append_left (by rwa [List.length_map]), List.getElem?_map,
      Option.map_eq_some_iff] at hv
    exact .inl hv
  · rw [List.getElem?_append_right (by rwa [List.length_map]), List.length_map] at hv
    obtain ⟨hlt, rfl⟩ := List.getElem?_eq_some_iff.mp hv
    rw [List.length_singleton] at hlt
    refine .inr ⟨by omega, ?_⟩
    rw [List.getElem_singleton]

/-- The steps before a state visited lead to it. -/
theorem Run.take_visited (h : Run step s₀ tr s) {i : ℕ} {v : S}
    (hv : (visited tr s)[i]? = some v) : Run step s₀ (tr.take i) v := by
  rcases visited_getElem? hv with ⟨p, hp, rfl⟩ | ⟨rfl, rfl⟩
  · exact h.take hp
  · rwa [List.take_length]

/-- Every step of a run leads to the next state visited. -/
theorem Run.step_visited (h : Run step s₀ tr s) {i : ℕ} {p : S × L} {v : S}
    (hp : tr[i]? = some p) (hv : (visited tr s)[i + 1]? = some v) : step p.1 p.2 v := by
  rcases visited_getElem? hv with ⟨q, hq, rfl⟩ | ⟨hi, rfl⟩
  · exact h.step_getElem hp hq
  · refine h.step_last ?_
    rwa [← hi, Nat.add_sub_cancel]

/-- What holds at one place of a run and is kept by the steps up to another holds there. -/
theorem Run.between (h : Run step s₀ tr s) {P : S → Prop} {i j : ℕ} (hij : i ≤ j)
    (hi : ∀ u, (visited tr s)[i]? = some u → P u)
    (keep : ∀ m p s', i ≤ m → m < j → tr[m]? = some p → step p.1 p.2 s' → P p.1 → P s') :
    ∀ v, (visited tr s)[j]? = some v → P v := by
  induction hij with
  | refl => exact hi
  | @step j hij ih =>
    intro v hv
    have hj : j < tr.length := by
      obtain ⟨hlt, -⟩ := List.getElem?_eq_some_iff.mp hv
      rw [visited, List.length_append, List.length_map, List.length_singleton] at hlt
      omega
    have hp : tr[j]? = some tr[j] := List.getElem?_eq_getElem hj
    refine keep j tr[j] v hij (Nat.lt_succ_self j) hp (h.step_visited hp hv) ?_
    exact ih (fun m p s' h0 h1 => keep m p s' h0 (Nat.lt_succ_of_lt h1)) _ (visited_of_getElem? hp)

/-- What holds at one place of a run and no more at another is lost in a step in between. -/
theorem exists_lost {P : S → Prop} {i j : ℕ} (hij : i ≤ j)
    (hi : ∀ u, (visited tr s)[i]? = some u → P u) {v : S} (hv : (visited tr s)[j]? = some v)
    (hn : ¬ P v) :
    ∃ m p s', i ≤ m ∧ m < j ∧ tr[m]? = some p ∧ (visited tr s)[m + 1]? = some s' ∧ P p.1 ∧
      ¬ P s' := by
  induction hij generalizing v with
  | refl => exact absurd (hi v hv) hn
  | @step j hij ih =>
    have hj : j < tr.length := by
      obtain ⟨hlt, -⟩ := List.getElem?_eq_some_iff.mp hv
      rw [visited, List.length_append, List.length_map, List.length_singleton] at hlt
      omega
    have hp : tr[j]? = some tr[j] := List.getElem?_eq_getElem hj
    by_cases hP : P tr[j].1
    · exact ⟨j, tr[j], v, hij, Nat.lt_succ_self j, hp, hv, hP, hn⟩
    · obtain ⟨m, p, s', him, hmj, h⟩ := ih (visited_of_getElem? hp) hP
      exact ⟨m, p, s', him, Nat.lt_succ_of_lt hmj, h⟩

/-- Let the steps with `D` that meet the condition `C` keep `I`. If a step with `D` from
a state with `I` leads to `P` exactly when it meets `C`, then a run visits only states with
`P` exactly when all its steps meet `C`. -/
theorem Run.forall_visited_iff_until {I P : S → Prop} {C D : S → L → Prop}
    (h : Run step s₀ tr s) (hD : ∀ p ∈ tr, D p.1 p.2) (initI : I s₀) (initP : P s₀)
    (keepI : ∀ s l s', I s → D s l → C s l → step s l s' → I s')
    (keepP : ∀ s l s', I s → D s l → step s l s' → (P s' ↔ C s l)) :
    (∀ u ∈ visited tr s, P u) ↔ ∀ p ∈ tr, C p.1 p.2 := by
  induction h with
  | nil => simp [visited, initP]
  | @snoc tr s s' l hr hs ih =>
    obtain ⟨hD, hDl⟩ := forall_steps_snoc.mp hD
    rw [forall_visited_snoc, forall_steps_snoc, ih hD]
    refine and_congr_right fun hC => keepP _ _ _ ?_ hDl hs
    exact hr.invariant_of (C := fun s l => D s l ∧ C s l) (fun p hp => ⟨hD p hp, hC p hp⟩) initI
      fun _ _ _ hI hl => keepI _ _ _ hI hl.1 hl.2

/-- The same for a property of the steps. -/
theorem Run.forall_steps_iff {I : S → Prop} {A C D : S → L → Prop} (h : Run step s₀ tr s)
    (hD : ∀ p ∈ tr, D p.1 p.2) (init : I s₀)
    (keep : ∀ s l s', I s → D s l → C s l → step s l s' → I s')
    (same : ∀ s l s', I s → D s l → step s l s' → (A s l ↔ C s l)) :
    (∀ p ∈ tr, A p.1 p.2) ↔ ∀ p ∈ tr, C p.1 p.2 := by
  induction h with
  | nil => simp
  | @snoc tr s s' l hr hs ih =>
    obtain ⟨hD, hDl⟩ := forall_steps_snoc.mp hD
    rw [forall_steps_snoc, forall_steps_snoc, ih hD]
    refine and_congr_right fun hC => same _ _ _ ?_ hDl hs
    exact hr.invariant_of (C := fun s l => D s l ∧ C s l) (fun p hp => ⟨hD p hp, hC p hp⟩) init
      fun _ _ _ hI hl => keep _ _ _ hI hl.1 hl.2

/-- Let `I` be an invariant of the runs whose steps all meet `D`. If such a step
from a state with `P` keeps `P` exactly when it meets the condition `C`, then a
run visits only states with `P` exactly when all its steps meet `C`. -/
theorem Run.forall_visited_iff {I P : S → Prop} {C D : S → L → Prop} (h : Run step s₀ tr s)
    (hD : ∀ p ∈ tr, D p.1 p.2) (initI : I s₀) (initP : P s₀)
    (keepI : ∀ s l s', I s → D s l → step s l s' → I s')
    (keepP : ∀ s l s', I s → P s → D s l → step s l s' → (P s' ↔ C s l)) :
    (∀ u ∈ visited tr s, P u) ↔ ∀ p ∈ tr, C p.1 p.2 := by
  refine h.forall_visited_iff_until (I := fun s => I s ∧ P s) hD ⟨initI, initP⟩ initP ?_
    fun s l s' hs => keepP s l s' hs.1 hs.2
  intro s l s' hs hl hC hstep
  exact ⟨keepI s l s' hs.1 hl hstep, (keepP s l s' hs.1 hs.2 hl hstep).mpr hC⟩

/-- What holds at every place of a list holds at those before the last and at the last. -/
theorem forall_getElem?_snoc {α : Type*} {l : List α} {x : α} {Q : ℕ → α → Prop} :
    (∀ i a, (l ++ [x])[i]? = some a → Q i a) ↔
      (∀ i a, l[i]? = some a → Q i a) ∧ Q l.length x := by
  constructor
  · intro h
    refine ⟨fun i a ha => h i a ?_, h l.length x List.getElem?_concat_length⟩
    obtain ⟨hi, -⟩ := List.getElem?_eq_some_iff.mp ha
    rwa [List.getElem?_append_left hi]
  · rintro ⟨h, hx⟩ i a ha
    rcases Nat.lt_or_ge i l.length with hi | hi
    · rw [List.getElem?_append_left hi] at ha
      exact h i a ha
    · obtain ⟨hlt, -⟩ := List.getElem?_eq_some_iff.mp ha
      rw [List.length_append, List.length_singleton] at hlt
      obtain rfl : i = l.length := by omega
      rw [List.getElem?_concat_length, Option.some.injEq] at ha
      exact ha ▸ hx

/-- The same for properties of a state and the steps that have led there. -/
theorem Run.forall_prefix_iff {P : List (S × L) → S → Prop} {C : List (S × L) → S → L → Prop}
    (h : Run step s₀ tr s) (init : P [] s₀)
    (keep : ∀ tr s l s', Run step s₀ tr s → P tr s → step s l s' →
      (P (tr ++ [(s, l)]) s' ↔ C tr s l)) :
    (∀ i v, (visited tr s)[i]? = some v → P (tr.take i) v) ↔
      ∀ i p, tr[i]? = some p → C (tr.take i) p.1 p.2 := by
  induction h with
  | nil =>
    refine iff_of_true (fun i v hv => ?_) fun i p hp => by simp at hp
    obtain ⟨p, hp, -⟩ | ⟨rfl, rfl⟩ := visited_getElem? hv
    · simp at hp
    · exact init
  | @snoc tr s s' l hr hs ih =>
    have hvisited : visited (tr ++ [(s, l)]) s' = visited tr s ++ [s'] := by simp [visited]
    have hlen : (visited tr s).length = (tr ++ [(s, l)]).length := by simp [visited]
    have htake {i : ℕ} (hi : i ≤ tr.length) : (tr ++ [(s, l)]).take i = tr.take i :=
      List.take_append_of_le_length hi
    have hbefore {i : ℕ} {v : S} (hv : (visited tr s)[i]? = some v) : i ≤ tr.length := by
      obtain ⟨hi, -⟩ := List.getElem?_eq_some_iff.mp hv
      rw [hlen, List.length_append, List.length_singleton] at hi
      omega
    have hP : (∀ i v, (visited tr s)[i]? = some v → P ((tr ++ [(s, l)]).take i) v) ↔
        ∀ i v, (visited tr s)[i]? = some v → P (tr.take i) v :=
      forall₃_congr fun i v hv => by rw [htake (hbefore hv)]
    have hC : (∀ i p, tr[i]? = some p → C ((tr ++ [(s, l)]).take i) p.1 p.2) ↔
        ∀ i p, tr[i]? = some p → C (tr.take i) p.1 p.2 :=
      forall₃_congr fun i p hp => by
        rw [htake (Nat.le_of_lt (List.getElem?_eq_some_iff.mp hp).1)]
    rw [hvisited, forall_getElem?_snoc, forall_getElem?_snoc, hlen, List.take_length,
      List.take_left, hP, hC, ih]
    refine and_congr_right fun hC => keep tr s l s' hr ?_ hs
    have hlast := ih.mpr hC tr.length s visited_getElem?_length
    rwa [List.take_length] at hlast

/-- A run whose steps all meet a condition is a run of those steps. -/
theorem run_restrict_iff {D : S → L → Prop} :
    Run (fun s l s' => step s l s' ∧ D s l) s₀ tr s ↔
      Run step s₀ tr s ∧ ∀ p ∈ tr, D p.1 p.2 := by
  constructor
  · intro h
    induction h with
    | nil => exact ⟨.nil, by simp⟩
    | snoc _ hs ih => exact ⟨.snoc ih.1 hs.1, forall_steps_snoc.mpr ⟨ih.2, hs.2⟩⟩
  · rintro ⟨h, hD⟩
    induction h with
    | nil => exact .nil
    | snoc _ hs ih =>
      obtain ⟨hD, hl⟩ := forall_steps_snoc.mp hD
      exact .snoc (ih hD) ⟨hs, hl⟩

/-- A run can be extended at its start. -/
theorem Run.cons {l : L} {s' : S} (hs : step s₀ l s') (h : Run step s' tr s) :
    Run step s₀ ((s₀, l) :: tr) s := by
  induction h with
  | nil => exact .snoc .nil hs
  | snoc _ hs' ih => exact .snoc ih hs'

section Executed

variable {E : Type*} (f : S → L → Except E S)

/-- The state behind the steps `ls` of a step function, up to the first that cannot be made. -/
def exec (s : S) : List L → S
  | [] => s
  | l :: ls =>
    match f s l with
    | .ok s' => exec s' ls
    | .error _ => s

/-- The states that the steps `ls` leave. -/
def execTrace (s : S) : List L → List (S × L)
  | [] => []
  | l :: ls =>
    match f s l with
    | .ok s' => (s, l) :: execTrace s' ls
    | .error _ => []

theorem run_exec (s : S) (ls : List L) :
    Run (fun s l s' => f s l = .ok s') s (execTrace f s ls) (exec f s ls) := by
  induction ls generalizing s with
  | nil => exact .nil
  | cons l ls ih =>
    unfold execTrace exec
    cases h : f s l with
    | ok s' => exact .cons h (ih s')
    | error e => exact .nil

theorem execTrace_ok {s s' : S} {l : L} (h : f s l = .ok s') (ls : List L) :
    execTrace f s (l :: ls) = (s, l) :: execTrace f s' ls := by
  rw [execTrace, h]

theorem exec_ok {s s' : S} {l : L} (h : f s l = .ok s') (ls : List L) :
    exec f s (l :: ls) = exec f s' ls := by
  rw [exec, h]

/-- The state behind the first `i` steps is visited. -/
theorem visited_exec {s : S} {ls : List L} {i : ℕ} (hi : i ≤ (execTrace f s ls).length) :
    (visited (execTrace f s ls) (exec f s ls))[i]? = some (exec f s (ls.take i)) := by
  induction ls generalizing s i with
  | nil =>
    obtain rfl : i = 0 := by simpa [execTrace] using hi
    rfl
  | cons l ls ih =>
    cases h : f s l with
    | error e =>
      have hnil : execTrace f s (l :: ls) = [] := by rw [execTrace, h]
      rw [hnil] at hi ⊢
      obtain rfl : i = 0 := by simpa using hi
      simp [visited, exec, h]
    | ok s' =>
      rw [execTrace_ok f h] at hi ⊢
      rw [exec_ok f h]
      cases i with
      | zero => rfl
      | succ i =>
        rw [List.take_succ_cons, exec_ok f h]
        exact ih (by simpa using hi)

end Executed

end Transition
