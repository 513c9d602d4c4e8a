import Lwt.Arena
import Mathlib.Data.List.Rotate

/-! The shape of the list of free blocks: one cycle through the base of the list, in the order of
the addresses, whose blocks do not touch. Hence the loops over it end. A request whose size wraps
puts more units on the list than there are pages, and a later block lies inside it. -/

namespace Lwt

open Extent

variable {base first : ℕ} {page : ℕ → Option ℕ} {h h' : Heap} {out free : List Extent} {b : Extent}
  {n k nu fuel prevp p nbytes : ℕ} {r : Option ℕ}

/-- The list from `freep` on is one cycle of the base and the free blocks. It ascends but for one
place, and no two blocks of it touch. -/
structure Shaped (base : ℕ) (h : Heap) (free : List Extent) : Prop where
  cycle : ∃ p rest, h.freep = some p ∧ Linked h.ptr p rest p ∧
    (p :: rest).IsRotated (base :: free.map start)
  size : ∀ b ∈ free, h.size b.start = b.units
  ascending : (base :: free.map start).Pairwise (· < ·)
  apart : ∀ b ∈ free, ∀ b' ∈ free, b.stop ≠ b'.start

namespace FreeList

/-- The list can be read from any of its nodes on. -/
theorem cycle (hl : FreeList base h free) : ∃ p rest, h.freep = some p ∧
    Linked h.ptr p rest p ∧ (p :: rest).IsRotated (base :: free.map start) := by
  obtain ⟨p, hp, hfreep⟩ := hl.freep
  rcases List.mem_cons.mp hp with rfl | hp
  · exact ⟨p, _, hfreep, hl.linked, List.IsRotated.refl _⟩
  · obtain ⟨l₁, l₂, he⟩ := List.append_of_mem hp
    have hlinked := hl.linked
    rw [he] at hlinked ⊢
    obtain ⟨h₁, h₂⟩ := Linked.append.mp hlinked
    refine ⟨p, l₂ ++ base :: l₁, hfreep, Linked.append.mpr ⟨h₂, h₁⟩, ?_⟩
    rw [← List.cons_append, ← List.cons_append]
    exact List.isRotated_append

end FreeList

namespace HeapInv

theorem shaped (hI : HeapInv base first h out free) (hfirst : base < first)
    (hs : Spaced free) : Shaped base h free := by
  refine ⟨hI.list.cycle, hI.list.size, ?_, fun b hb b' hb' he => ?_⟩
  · refine List.pairwise_cons.mpr ⟨fun q hq => ?_, List.pairwise_map.mpr ?_⟩
    · obtain ⟨b, hb, rfl⟩ := List.mem_map.mp hq
      exact hfirst.trans_le (hI.order.inside b hb).1
    · exact hs.imp fun {b b'} hlt => (Nat.le_add_right b.start b.units).trans_lt hlt
  · have hpos := (hI.order.inside b hb).2.2
    have hpos' := (hI.order.inside b' hb').2.2
    have hsep : free.Pairwise fun c c' => c.stop ≠ c'.start ∧ c'.stop ≠ c.start := by
      refine hs.imp fun {c c'} hlt => ⟨hlt.ne, ?_⟩
      unfold stop at hlt ⊢
      omega
    have : Std.Symm fun c c' : Extent => c.stop ≠ c'.start ∧ c'.stop ≠ c.start :=
      ⟨fun _ _ hcc => hcc.symm⟩
    by_cases hne : b = b'
    · subst hne
      unfold stop at he
      omega
    · exact (hsep.forall hb hb' hne).1 he

section Once

variable (hp : Consecutive base first page) (hnu : 0 < nu) (hnu' : nu * 8 < 4294967296)

theorem carve_added {ap : ℕ} (hc : h.carve nu prevp p = (h', ap)) : h'.added = h.added := by
  unfold Heap.carve at hc
  split_ifs at hc <;> cases hc <;> rfl

/-- The loop takes no memory if it meets a block that is large enough before `freep`. -/
theorem mallocLoop_added_of_iterate (hk : nu ≤ h.size (h.ptr^[k + 1] prevp))
    (hne : ∀ j < k, some (h.ptr^[j + 1] prevp) ≠ h.freep)
    (hm : Heap.mallocLoop page fuel nu n h prevp = some (h', r)) : h'.added = h.added := by
  induction k generalizing n prevp with
  | zero =>
    cases n with
    | zero => cases hm
    | succ n =>
      have hle : h.size (h.ptr prevp) ≥ nu := hk
      rw [Heap.mallocLoop, if_pos hle] at hm
      cases hm
      exact carve_added rfl
  | succ k ih =>
    cases n with
    | zero => cases hm
    | succ n =>
      rw [Heap.mallocLoop] at hm
      split_ifs at hm with hle hfreep
      · cases hm
        exact carve_added rfl
      · exact absurd hfreep (hne 0 (Nat.succ_pos k))
      · exact ih hk (fun j hj => hne (j + 1) (Nat.succ_lt_succ hj)) hm

include hp hnu hnu' in
/-- The loop calls `morecore` at most once: what that adds is large enough. -/
theorem mallocLoop_added (hI : HeapInv base first h out free)
    (hprev : prevp ∈ base :: free.map start)
    (hm : Heap.mallocLoop page fuel nu n h prevp = some (h', r))
    (hfit : 512 * h'.npages < 4294967296) :
    h'.added = h.added ∨ ∃ b, h'.added = h.added ++ [b] := by
  induction n generalizing prevp with
  | zero => cases hm
  | succ n ih =>
    rw [Heap.mallocLoop] at hm
    split_ifs at hm with hle hfreep
    · cases hm
      exact .inl (carve_added rfl)
    · split at hm
      · cases hm
      · rename_i hmore
        cases hm
        obtain ⟨p, free', he, -⟩ := hI.morecore_ok hp hnu hnu' hmore hfit
        cases he
      · rename_i h₁ p hmore
        have hle₁ := mallocLoop_npages hp hnu' hm
        obtain ⟨p', free₁, he, hfp, hinv, -, hlarge⟩ :=
          hI.morecore_ok hp hnu hnu' hmore (by omega)
        cases he
        obtain ⟨k, hk, hne⟩ := hinv.exists_fit hfp hlarge
        have hadded : h₁.added = h.added ++ [⟨first + 512 * h.npages, nu⟩] := by
          rw [morecore_eq hp hnu'] at hmore
          obtain ⟨g, hf, he⟩ := Option.map_eq_some_iff.mp hmore
          have hg : g = h₁ := congrArg Prod.fst he
          rw [← hg]
          exact (ufree_fields hf).2.1
        exact .inr ⟨_, (mallocLoop_added_of_iterate hk hne hm).trans hadded⟩
    · exact ih (hI.ptr_mem hprev) hm

end Once

end HeapInv

open Arena

/-- In every state that calls lead to, the free list is one cycle in the order of the addresses,
without blocks that touch; `ufree` of a block that is held returns, and so does a request, for which
`morecore` is called once at most. -/
theorem free_list_shaped {a₀ a : Arena} {tr : List (Arena × Request)}
    (hp : Consecutive base first page) (h : Arena.Run base page a₀ tr a) (hf : a₀.Fresh)
    (hreq : ∀ p ∈ tr, ∀ nbytes, p.2 = .umalloc nbytes → nbytes + 15 < 4294967296)
    (hfit : 512 * a.heap.npages < 4294967296) :
    (∃ free, a.heap.freep = none ∧ free = [] ∨ Shaped base a.heap free) ∧
    (∀ b ∈ a.out, ∃ fuel h', a.heap.ufree fuel (b.start + 1) = some h') ∧
    ∀ nbytes, nbytes + 15 < 4294967296 →
      (512 * (a.heap.npages + 1 + Heap.nunits nbytes / 512) < 4294967296 →
        ∃ fuel n h' ap, a.heap.umalloc base page fuel n nbytes = some (h', some ap)) ∧
      ∀ fuel n h' r, a.heap.umalloc base page fuel n nbytes = some (h', r) →
        512 * h'.npages < 4294967296 →
        h'.added = a.heap.added ∨ ∃ b, h'.added = a.heap.added ++ [b] := by
  obtain ⟨free, hI, hs⟩ := Run.inv hp h hf hreq hfit
  obtain ⟨p, hmem, hfreep⟩ := hI.exists_freep
  have hnp : (a.heap.init base).npages = a.heap.npages := init_fields.1
  refine ⟨⟨free, ?_⟩, fun b hb => ?_, fun nbytes hn => ⟨fun hroom => ?_, ?_⟩⟩
  · cases he : a.heap.freep with
    | none => exact .inl ⟨rfl, (hI.unused he).2⟩
    | some p =>
      have hinit : a.heap.init base = a.heap := init_fields.2.2 (by simp [he])
      exact .inr (hinit ▸ hI.heap.shaped hp.above hs)
  · have hne : a.heap.freep ≠ none := fun he => by simp [(hI.unused he).1] at hb
    have hinit : a.heap.init base = a.heap := init_fields.2.2 hne
    have hheap := hI.heap
    rw [hinit] at hheap
    exact hheap.exists_ufree hp.above hb
  · obtain ⟨fuel, m, h', ap, hm⟩ := HeapInv.exists_mallocLoop hp (Nat.succ_pos _) (nunits_eq hn).2
      hI.heap hfreep (hnp ▸ hroom)
    refine ⟨fuel, m, h', ap, ?_⟩
    simp only [Heap.umalloc, hfreep, Option.getD_some]
    exact hm
  · intro fuel n h' r hm hfit'
    simp only [Heap.umalloc, hfreep, Option.getD_some] at hm
    have hadded : (a.heap.init base).added = a.heap.added := init_fields.2.1
    rw [← hadded]
    exact hI.heap.mallocLoop_added hp (Nat.succ_pos _) (nunits_eq hn).2 hmem hm hfit'

theorem reuseArena_shaped : ∃ free, Shaped 0 reuseArena.heap free := by
  obtain ⟨tr, h, hreq⟩ := reuseArena_run
  obtain ⟨⟨free, hfree⟩, -⟩ := free_list_shaped ⟨Nat.zero_lt_one, fun _ => rfl⟩ h
    ⟨rfl, rfl, rfl, rfl⟩ hreq (by decide)
  rcases hfree with ⟨hnone, -⟩ | hs
  · exact absurd hnone (by decide)
  · exact ⟨free, hs⟩

/-- A block of all memory and one of two units are handed out and given back, and most of the first
is handed out again. -/
def wrapArena : Arena :=
  (((((freshArena.umalloc 4294967288).umalloc 1).ufree ⟨513, 2⟩).ufree ⟨1, 536870912⟩).umalloc
    4294963192)

theorem wrapArena_run : ∃ tr, Arena.Run 0 lowPages freshArena tr wrapArena := by
  refine ⟨_, .snoc (.snoc (.snoc (.snoc (.snoc .nil (umalloc_step ?_)) (umalloc_step ?_))
    (ufree_step ?_ ?_)) (ufree_step ?_ ?_)) (umalloc_step ?_)⟩
  all_goals decide

/-- The second block is on the free list, right behind the first. -/
theorem wrapArena_not_shaped : (∃ tr, Arena.Run 0 lowPages freshArena tr wrapArena) ∧
    ∀ free, ¬ Shaped 0 wrapArena.heap free := by
  refine ⟨wrapArena_run, fun free hs => ?_⟩
  obtain ⟨p, rest, -, hl, hrot⟩ := hs.cycle
  have hnode (q : ℕ) (hq : q ∈ p :: rest) : wrapArena.heap.ptr q ∈ p :: rest := by
    rcases hl.next_mem hq with hn | hn
    · exact List.mem_cons_of_mem _ hn
    · exact hn ▸ List.mem_cons_self
  have hblock (q : ℕ) (hq : q ∈ p :: rest) (hne : q ≠ 0) : ∃ b ∈ free, b.start = q := by
    have hmem := hrot.perm.mem_iff.mp hq
    exact List.mem_map.mp ((List.mem_cons.mp hmem).resolve_left hne)
  have h0 : 0 ∈ p :: rest := hrot.perm.mem_iff.mpr List.mem_cons_self
  have h1 : 1 ∈ p :: rest := hnode 0 h0
  have h513 : 513 ∈ p :: rest := hnode 1 h1
  obtain ⟨b, hb, hbs⟩ := hblock 1 h1 (by decide)
  obtain ⟨b', hb', hbs'⟩ := hblock 513 h513 (by decide)
  have hsize : wrapArena.heap.size 1 = b.units := hbs ▸ hs.size b hb
  have hunits : b.units = 512 := hsize.symm.trans (by decide)
  refine hs.apart b hb b' hb' ?_
  rw [stop, hbs, hunits, hbs']

end Lwt
