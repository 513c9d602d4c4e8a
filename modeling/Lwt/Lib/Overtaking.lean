import Lwt.Lib.Rings

/-! Who is served first in a queue. `Behind z x l` says that in the queue `l`, on
which `z` waits, `x` is not in front of `z`. It is kept by whatever happens to
others, and by `x` when it queues up at the end; a node linked just before the
last is behind all others but the last. -/

namespace Rings

variable {N : Type*} {x y z : N} {l : List N}

/-- `z` waits in `l`, and `x` is not in front of it. -/
def Behind (z x : N) (l : List N) : Prop := z ∈ l ∧ (x ∉ l ∨ [z, x].Sublist l)

theorem sublist_beforeLast (y : N) (l : List N) : l.Sublist (beforeLast y l) := by
  rcases List.eq_nil_or_concat l with rfl | ⟨l', w, rfl⟩
  · exact List.nil_sublist _
  · rw [List.concat_eq_append, beforeLast_concat]
    exact (List.Sublist.refl l').append (List.sublist_cons_self y [w])

/-- A node linked before the last is behind all but the last. -/
theorem pair_sublist_beforeLast (hz : z ∈ l) (hl : l.getLast? ≠ some z) :
    [z, x].Sublist (beforeLast x l) := by
  rcases List.eq_nil_or_concat l with rfl | ⟨l', w, rfl⟩
  · simp at hz
  · simp only [List.concat_eq_append, List.getLast?_append, List.getLast?_singleton,
      Option.some_or, Option.some.injEq, ne_eq] at hl
    rw [List.concat_eq_append, List.mem_append, List.mem_singleton] at hz
    have hz : z ∈ l' := hz.resolve_right (Ne.symm hl)
    rw [List.concat_eq_append, beforeLast_concat]
    exact (List.singleton_sublist.mpr hz).append (List.singleton_sublist.mpr (by simp))

/-- It is in front of the last. -/
theorem pair_sublist_last (y z : N) (l : List N) : [y, z].Sublist (beforeLast y (l ++ [z])) := by
  rw [beforeLast_concat]
  exact List.sublist_append_right l [y, z]

/-- The first of a queue is not behind another. -/
theorem pair_not_sublist_cons (hl : (x :: l).Nodup) : ¬ [z, x].Sublist (x :: l) := by
  intro h
  rw [List.nodup_cons] at hl
  cases h with
  | cons _ h => exact hl.1 (h.subset (by simp))
  | cons_cons _ h => exact hl.1 (List.singleton_sublist.mp h)

namespace Behind

theorem erase [DecidableEq N] (h : Behind z x l) (hl : l.Nodup) (hy : y ≠ z) :
    Behind z x (l.erase y) := by
  refine ⟨(List.mem_erase_of_ne hy.symm).mpr h.1, ?_⟩
  rcases h.2 with hx | hs
  · exact .inl fun hx' => hx (List.mem_of_mem_erase hx')
  · by_cases hyx : y = x
    · subst hyx
      exact .inl hl.not_mem_erase
    · have hs' := hs.erase y
      rw [List.erase_of_not_mem (by simp [hy, hyx])] at hs'
      exact .inr hs'

/-- A queue that only grows by others, `x` not among them. -/
theorem mono {l' : List N} (h : Behind z x l) (hl : l.Sublist l') (hx : x ∈ l' → x ∈ l) :
    Behind z x l' :=
  ⟨hl.subset h.1, h.2.imp (fun hn hx' => hn (hx hx')) fun hs => hs.trans hl⟩

theorem beforeLast (h : Behind z x l) (hy : y ≠ x) : Behind z x (beforeLast y l) :=
  h.mono (sublist_beforeLast y l) fun hx => (mem_beforeLast.mp hx).resolve_left hy.symm

/-- The last of the others may not be `z` when `x` is linked before it. -/
theorem beforeLast_self (hz : z ∈ l) (hl : l.getLast? ≠ some z) :
    Behind z x (Rings.beforeLast x l) :=
  ⟨mem_beforeLast.mpr (.inr hz), .inr (pair_sublist_beforeLast hz hl)⟩

theorem concat (h : Behind z x l) (hy : y ≠ x) : Behind z x (l ++ [y]) := by
  refine h.mono (List.sublist_append_left l [y]) fun hx => ?_
  rw [List.mem_append, List.mem_singleton] at hx
  exact hx.resolve_right hy.symm

theorem concat_self (hz : z ∈ l) : Behind z x (l ++ [x]) :=
  ⟨List.mem_append_left _ hz, .inr ((List.singleton_sublist.mpr hz).append (.refl [x]))⟩

/-- `z` is linked before the last, which is `x`. -/
theorem move_self [DecidableEq N] (h : (l.erase z).getLast? = some x) :
    Behind z x (Rings.beforeLast z (l.erase z)) := by
  obtain ⟨l', hl'⟩ := List.getLast?_eq_some_iff.mp h
  rw [hl']
  exact ⟨mem_beforeLast.mpr (.inl rfl), .inr (pair_sublist_last z x l')⟩

/-- A node is linked before the last. -/
theorem move [DecidableEq N] (h : Behind z x l) (hl : l.Nodup)
    (hz : y = z → (l.erase z).getLast? = some x) (hx : y = x → (l.erase x).getLast? ≠ some z) :
    Behind z x (Rings.beforeLast y (l.erase y)) := by
  by_cases hyz : y = z
  · subst hyz
    exact move_self (hz rfl)
  · have h' := h.erase hl hyz
    by_cases hyx : y = x
    · subst hyx
      exact beforeLast_self h'.1 (hx rfl)
    · exact h'.beforeLast hyx

/-- The first of the queue is not `x`. -/
theorem head_ne (h : Behind z x (y :: l)) (hl : (y :: l).Nodup) : y ≠ x := by
  rintro rfl
  exact h.2.elim (fun hn => hn (by simp)) (pair_not_sublist_cons hl)

end Behind

end Rings
