import Lwt.Arena

/-! The sizes that `umalloc` and `morecore` compute. Rounding a request up wraps for the seven
largest, which are given a block of one header. The eight below them are rounded to all of memory,
and the number of bytes that `morecore` divides by the size of a page wraps to zero. -/

namespace Lwt

open Extent

variable {base first : ℕ} {page : ℕ → Option ℕ} {h h' : Heap} {n nu fuel prevp p ap nbytes : ℕ}
  {r : Option ℕ}

/-- The block that is handed out has the size asked for in its header. -/
theorem carve_size (hc : h.carve nu prevp p = (h', ap)) : h'.size (ap - 1) = nu := by
  unfold Heap.carve at hc
  split_ifs at hc with hn
  · cases hc
    exact hn
  · cases hc
    exact Function.update_self _ _ _

theorem mallocLoop_size (hm : Heap.mallocLoop page fuel nu n h prevp = some (h', some ap)) :
    h'.size (ap - 1) = nu := by
  induction n generalizing h prevp with
  | zero => cases hm
  | succ n ih =>
    rw [Heap.mallocLoop] at hm
    split_ifs at hm
    · cases hm
      exact carve_size rfl
    · split at hm
      · cases hm
      · cases hm
      · exact ih hm
    · exact ih hm

/-- The pages that `morecore` takes. -/
theorem morecore_pages (hm : h.morecore page fuel nu = some (h', r)) :
    h'.npages = h.npages + 1 + uint (nu * 8) / 4096 := by
  simp only [Heap.morecore] at hm
  split at hm
  · cases hm
    rfl
  · obtain ⟨h₁, hf, he⟩ := Option.bind_eq_some_iff.mp hm
    cases he
    exact (ufree_fields hf).1

/-- A block has room for the request unless rounding it up wraps. -/
theorem room_iff (hn : nbytes < 4294967296) :
    nbytes ≤ 8 * (Heap.nunits nbytes - 1) ↔ nbytes + 7 < 4294967296 := by
  unfold Heap.nunits uint
  omega

/-- The pages have room for the units of a request unless their bytes wrap. -/
theorem pages_iff (hn : nbytes < 4294967296) :
    8 * Heap.nunits nbytes ≤ 4096 * (1 + uint (Heap.nunits nbytes * 8) / 4096) ↔
      nbytes + 15 < 4294967296 ∨ 4294967296 ≤ nbytes + 7 := by
  unfold Heap.nunits uint
  omega

/-- A block that `umalloc` hands out for `nbytes` bytes has room for them, and the pages that
`morecore` takes for it have room for the units that it adds. -/
structure SizedFor (base : ℕ) (page : ℕ → Option ℕ) (nbytes : ℕ) : Prop where
  payload : ∀ {a₀ a : Arena} {tr fuel n h' ap}, a₀.Fresh → Arena.Run base page a₀ tr a →
    a.heap.umalloc base page fuel n nbytes = some (h', some ap) →
    nbytes ≤ 8 * (h'.size (ap - 1) - 1)
  pages : ∀ {a₀ a : Arena} {tr fuel h' r}, a₀.Fresh → Arena.Run base page a₀ tr a →
    (a.heap.init base).morecore page fuel (Heap.nunits nbytes) = some (h', r) →
    8 * Heap.nunits nbytes ≤ 4096 * (h'.npages - a.heap.npages)

/-- `ufree` of a block behind an empty list. -/
theorem exists_ufree_first (hb : base < p) (hf : h.freep = some base) (hptr : h.ptr base = base) :
    ∃ h', h.ufree 1 (p + 1) = some h' ∧ h'.freep = some base := by
  have hfind : h.findFree p 1 base = some base := by
    rw [Heap.findFree, loopUntil]
    refine if_pos (.inr ?_)
    rw [hptr]
    exact ⟨le_rfl, .inl hb⟩
  exact ⟨((h.joinUpper p base).joinLower p base).setFreep base,
    by simp [Heap.ufree, hf, hfind], rfl⟩

/-- The first call of `morecore` returns, whatever size it is called with. -/
theorem exists_morecore_first (hp : Consecutive base first page) {a : Arena} (ha : a.Fresh) :
    ∃ h', (a.heap.init base).morecore page 1 nu = some (h', some base) := by
  have hinit : a.heap.init base = ((a.heap.setPtr base base).setFreep base).setSize base 0 := by
    simp [Heap.init, ha.freep]
  have hpage : page (a.heap.init base).npages = some first := by
    rw [Arena.init_fields.1, ha.npages, hp.next]
    rfl
  have hfreep : (a.heap.init base).freep = some base := by
    rw [hinit]
    rfl
  have hptr : (a.heap.init base).ptr base = base := by
    rw [hinit]
    exact Function.update_self _ _ _
  simp only [Heap.morecore, hpage]
  generalize hg : Heap.mk _ _ _ _ _ = g
  have hgf : g.freep = some base := by
    rw [← hg]
    exact hfreep
  have hgp : g.ptr base = base := by
    rw [← hg]
    exact hptr
  obtain ⟨h', hu, hf'⟩ := exists_ufree_first hp.above hgf hgp
  exact ⟨h', by simp [hu, hf']⟩

/-- Every request that rounds up to one unit is granted by the first call. -/
theorem exists_umalloc_first (hp : Consecutive base first page) {a : Arena} (ha : a.Fresh)
    (hn : Heap.nunits nbytes = 1) :
    ∃ fuel n h' ap, a.heap.umalloc base page fuel n nbytes = some (h', some ap) := by
  have hinv : Arena.Inv base first a [] := ha.inv
  have hI := hinv.heap
  obtain ⟨p, hmem, hfreep⟩ := hI.list.freep
  have hnp : (a.heap.init base).npages = 0 := Arena.init_fields.1.trans ha.npages
  obtain ⟨fuel, n, h', ap, hm⟩ : ∃ fuel n h' ap,
      Heap.mallocLoop page fuel 1 n (a.heap.init base) p = some (h', some ap) :=
    HeapInv.exists_mallocLoop hp (by decide) (by decide) hI hfreep (by rw [hnp]; decide)
  refine ⟨fuel, n, h', ap, ?_⟩
  simp only [Heap.umalloc, hfreep, Option.getD_some, hn]
  exact hm

theorem freshArena_fresh : freshArena.Fresh := ⟨rfl, rfl, rfl, rfl⟩

/-- A request gets the memory that it needs if and only if none of its sizes wraps. -/
theorem umalloc_sized_iff (hp : Consecutive base first page) (hn : nbytes < 4294967296) :
    SizedFor base page nbytes ↔ nbytes + 15 < 4294967296 := by
  have ha := freshArena_fresh
  constructor
  · intro h
    by_contra hbig
    by_cases hwrap : 4294967296 ≤ nbytes + 7
    · have hone : Heap.nunits nbytes = 1 := by
        unfold Heap.nunits uint
        omega
      obtain ⟨fuel, n, h', ap, hm⟩ := exists_umalloc_first hp ha hone
      have hroom := h.payload ha .nil hm
      rw [mallocLoop_size hm, room_iff hn] at hroom
      omega
    · obtain ⟨h', hm⟩ : ∃ h',
          (freshArena.heap.init base).morecore page 1 (Heap.nunits nbytes) = some (h', some base) :=
        exists_morecore_first hp ha
      have hpages := h.pages ha .nil hm
      rw [morecore_pages hm, Arena.init_fields.1, Nat.add_assoc, Nat.add_sub_cancel_left,
        pages_iff hn] at hpages
      omega
  · intro hsmall
    refine ⟨fun _ _ hm => ?_, fun _ _ hm => ?_⟩
    · rw [mallocLoop_size hm, room_iff hn]
      omega
    · rw [morecore_pages hm, Arena.init_fields.1, Nat.add_assoc, Nat.add_sub_cancel_left,
        pages_iff hn]
      omega

theorem hundred_sized : SizedFor 0 lowPages 100 :=
  (umalloc_sized_iff ⟨Nat.zero_lt_one, fun _ => rfl⟩ (by decide)).mpr (by decide)

/-- The largest request gets a block of one header. For one that is rounded to all of memory one
page is taken. -/
theorem wrapped_not_sized :
    ¬ SizedFor 0 lowPages 4294967295 ∧ ¬ SizedFor 0 lowPages 4294967288 := by
  constructor
  · intro h
    have hm : ∃ h' ap, freshArena.heap.umalloc 0 lowPages 3 3 4294967295 = some (h', some ap) ∧
        h'.size (ap - 1) = 1 := ⟨_, _, rfl, by decide⟩
    obtain ⟨h', ap, hm, hsize⟩ := hm
    have hroom := h.payload freshArena_fresh .nil hm
    omega
  · intro h
    have hm : ∃ h' r, (freshArena.heap.init 0).morecore lowPages 3 (Heap.nunits 4294967288) =
        some (h', r) ∧ h'.npages = 1 := ⟨_, _, rfl, by decide⟩
    obtain ⟨h', r, hm, hnp⟩ := hm
    have hpages := h.pages freshArena_fresh .nil hm
    rw [hnp] at hpages
    exact absurd hpages (by decide)

end Lwt
