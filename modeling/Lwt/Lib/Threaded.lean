import Mathlib.Data.List.Basic
import Mathlib.Data.List.Chain
import Mathlib.Data.Nat.Find
import Mathlib.Logic.Function.Iterate
import Mathlib.Tactic.Common

/-! Singly linked rings in a memory of links, and loops that walk along them. -/

section Linked

variable {α : Type*} {next next' : α → α} {a b c p q : α} {l l₁ l₂ : List α}

/-- The links from `a` lead through the nodes `l` to `b`. -/
def Linked (next : α → α) (a : α) : List α → α → Prop
  | [], b => next a = b
  | x :: l, b => next a = x ∧ Linked next x l b

namespace Linked

theorem append : Linked next a (l₁ ++ p :: l₂) b ↔ Linked next a l₁ p ∧ Linked next p l₂ b := by
  induction l₁ generalizing a with
  | nil => exact Iff.rfl
  | cons x l₁ ih => simp only [List.cons_append, Linked, ih, and_assoc]

/-- What is linked behind a node depends on its link only. -/
theorem of_next (h : Linked next a l b) (hc : next c = next a) : Linked next c l b := by
  cases l with
  | nil => exact hc.trans h
  | cons x l => exact ⟨hc.trans h.1, h.2⟩

/-- A list of nodes can be cut behind any of them. -/
theorem cut : Linked next a (l₁ ++ l₂) b ↔
    Linked next a l₁ (next ((a :: l₁).getLast (by simp))) ∧
      Linked next ((a :: l₁).getLast (by simp)) l₂ b := by
  induction l₁ generalizing a with
  | nil => simp [Linked]
  | cons x l₁ ih => simp only [List.cons_append, Linked, ih, and_assoc, List.getLast_cons_cons]

theorem congr (h : Linked next a l b) (hn : ∀ x ∈ a :: l, next' x = next x) :
    Linked next' a l b := by
  induction l generalizing a with
  | nil => exact (hn a (by simp)).trans h
  | cons x l ih =>
    exact ⟨(hn a (by simp)).trans h.1, ih h.2 fun y hy => hn y (List.mem_cons_of_mem _ hy)⟩

/-- The nodes between two others are what the links say. -/
theorem unique {l' : List α} (h : Linked next a l b) (h' : Linked next a l' b) (hl : b ∉ l)
    (hl' : b ∉ l') : l = l' := by
  induction l generalizing a l' with
  | nil =>
    cases l' with
    | nil => rfl
    | cons y l' => exact absurd (h.symm.trans h'.1 ▸ List.mem_cons_self) hl'
  | cons x l ih =>
    cases l' with
    | nil => exact absurd (h'.symm.trans h.1 ▸ List.mem_cons_self) hl
    | cons y l' =>
      obtain rfl : x = y := h.1.symm.trans h'.1
      rw [ih h.2 h'.2 (fun hm => hl (List.mem_cons_of_mem _ hm))
        fun hm => hl' (List.mem_cons_of_mem _ hm)]

theorem iff_isChain : Linked next a l b ↔ (a :: (l ++ [b])).IsChain fun x y => next x = y := by
  induction l generalizing a with
  | nil => rw [List.nil_append, List.isChain_pair, Linked]
  | cons x l ih => rw [List.cons_append, List.isChain_cons_cons, Linked, ih]

/-- The link of the last node is set. -/
theorem redirect (h : Linked next a l b) (hn : ∀ x ∈ (a :: l).dropLast, next' x = next x)
    (hl : next' ((a :: l).getLast (by simp)) = c) : Linked next' a l c := by
  induction l generalizing a with
  | nil => exact hl
  | cons x l ih =>
    refine ⟨(hn a (by simp)).trans h.1, ih h.2 (fun y hy => hn y ?_) (by simpa using hl)⟩
    rw [List.dropLast_cons_cons]
    exact List.mem_cons_of_mem _ hy

/-- The end is reached. -/
theorem exists_iterate (h : Linked next a l b) : ∃ n, next^[n + 1] a = b := by
  induction l generalizing a with
  | nil => exact ⟨0, h⟩
  | cons x l ih =>
    obtain ⟨n, hn⟩ := ih h.2
    refine ⟨n + 1, ?_⟩
    rw [Function.iterate_succ_apply, h.1, hn]

/-- The links of a ring stay in it. -/
theorem next_mem (h : Linked next a l b) (hp : p ∈ a :: l) : next p ∈ l ∨ next p = b := by
  induction l generalizing a with
  | nil =>
    rw [List.mem_singleton.mp hp]
    exact .inr h
  | cons x l ih =>
    rcases List.mem_cons.mp hp with rfl | hp
    · exact .inl (by simp [h.1])
    · exact (ih h.2 hp).imp_left (List.mem_cons_of_mem _)

/-- In a ring every node is reached from every node. -/
theorem reach (h : Linked next a l a) (hp : p ∈ a :: l) (hq : q ∈ a :: l) :
    ∃ n, next^[n + 1] p = q := by
  have htail : ∃ n, next^[n + 1] p = a := by
    rcases List.mem_cons.mp hp with rfl | hp
    · exact h.exists_iterate
    · obtain ⟨l₁, l₂, rfl⟩ := List.append_of_mem hp
      exact (append.mp h).2.exists_iterate
  rcases List.mem_cons.mp hq with rfl | hq
  · exact htail
  · obtain ⟨l₁, l₂, rfl⟩ := List.append_of_mem hq
    obtain ⟨m, hm⟩ := htail
    obtain ⟨n, hn⟩ := (append.mp h).1.exists_iterate
    refine ⟨n + (m + 1), ?_⟩
    rw [show n + (m + 1) + 1 = n + 1 + (m + 1) by omega, Function.iterate_add_apply, hm, hn]

end Linked

end Linked

section Loop

variable {α : Type*} (done : α → Prop) [DecidablePred done] (next : α → α)

/-- `while (!done(p)) p = next(p);`, if it ends within that many tests of its condition. -/
def loopUntil : ℕ → α → Option α
  | 0, _ => none
  | n + 1, p => if done p then some p else loopUntil n (next p)

variable {done next} {p q : α} {n : ℕ} {I : α → Prop}

/-- What the steps of the loop keep holds where it ends. -/
theorem loopUntil_ok (h : loopUntil done next n p = some q) (hp : I p)
    (keep : ∀ p, I p → ¬ done p → I (next p)) : I q ∧ done q := by
  induction n generalizing p with
  | zero => cases h
  | succ n ih =>
    rw [loopUntil] at h
    split_ifs at h with hd
    · cases h
      exact ⟨hp, hd⟩
    · exact ih h (keep p hp hd)

/-- The loop ends if it comes to where it is done. -/
theorem exists_loopUntil (h : done (next^[n] p)) : ∃ m q, loopUntil done next m p = some q := by
  induction n generalizing p with
  | zero => exact ⟨1, p, if_pos h⟩
  | succ n ih =>
    obtain ⟨m, q, hm⟩ := ih h
    by_cases hd : done p
    · exact ⟨1, p, if_pos hd⟩
    · refine ⟨m + 1, q, ?_⟩
      rw [loopUntil, if_neg hd, hm]

/-- A walk along the links from `p` counts the nodes before `a`. -/
theorem Linked.loopUntil_count [DecidableEq α] {a : α} {l : List α} {m : ℕ}
    (h : Linked next p l a) (ha : a ∉ l) (hn : l.length < n) :
    loopUntil (fun s : α × ℕ => s.1 = a) (fun s => (next s.1, s.2 + 1)) n (next p, m) =
      some (a, m + l.length) := by
  induction n generalizing p l m with
  | zero => cases hn
  | succ n ih =>
    cases l with
    | nil =>
      have hp : next p = a := h
      rw [loopUntil, if_pos hp, hp]
      rfl
    | cons x l =>
      obtain ⟨hx, hl⟩ := h
      have hxa : next p ≠ a := by
        rintro rfl
        exact ha (hx ▸ List.mem_cons_self)
      rw [loopUntil, if_neg hxa, hx, ih hl (fun hm => ha (List.mem_cons_of_mem x hm))
        (Nat.lt_of_succ_lt_succ hn)]
      simp only [List.length_cons]
      congr 2
      omega

end Loop
