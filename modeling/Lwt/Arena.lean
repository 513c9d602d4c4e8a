import Lwt.FreeList

/-! The blocks that the callers of the allocator hold and the blocks on its free list divide what
`morecore` has added, in every state that calls of `umalloc` and `ufree` lead to. -/

namespace Lwt

open Extent

variable {base first : ℕ} {page : ℕ → Option ℕ} {h h' : Heap} {out free : List Extent} {b : Extent}
  {n k nu fuel prevp p u : ℕ}

/-- Successive calls of `cos_page_bump_alloc` return consecutive pages, above the static base of
the list and never `(char*)-1`. -/
structure Consecutive (base first : ℕ) (page : ℕ → Option ℕ) : Prop where
  above : base < first
  next : ∀ i, page i = some (first + 512 * i)

/-- What holds of the allocator between two calls, and between two rounds of its loops. -/
structure HeapInv (base first : ℕ) (h : Heap) (out free : List Extent) : Prop where
  list : FreeList base h free
  order : Ordered first (first + 512 * h.npages) free
  header : ∀ b ∈ out, h.size b.start = b.units ∧ 0 < b.units
  tally : ∀ u, tally (out ++ free) u = tally h.added u
  apart : ∀ u, Extent.tally h.added u ≤ 1
  pages : ∀ r ∈ h.added, first ≤ r.start ∧ r.stop ≤ first + 512 * h.npages

namespace HeapInv

/-- All blocks are disjoint. -/
theorem pairwise_apart (hI : HeapInv base first h out free) : (out ++ free).Pairwise Apart :=
  pairwise_apart_iff.mpr fun u => (hI.tally u).trans_le (hI.apart u)

/-- A unit of a block is one that `morecore` has added. -/
theorem mem_pages (hI : HeapInv base first h out free) (hb : b ∈ out ++ free) (hu : b.Holds u) :
    first ≤ u ∧ u < first + 512 * h.npages := by
  have hpos : 0 < Extent.tally h.added u := hI.tally u ▸ tally_pos_iff.mpr ⟨b, hb, hu⟩
  obtain ⟨r, hr, hlo, hhi⟩ := tally_pos_iff.mp hpos
  obtain ⟨h1, h2⟩ := hI.pages r hr
  exact ⟨h1.trans hlo, hhi.trans_le h2⟩

/-- A block lies in the pages. -/
theorem inside (hI : HeapInv base first h out free) (hb : b ∈ out) :
    first ≤ b.start ∧ b.stop ≤ first + 512 * h.npages ∧ 0 < b.units := by
  have hpos := (hI.header b hb).2
  have hmem : b ∈ out ++ free := List.mem_append_left _ hb
  have hlast : b.Holds (b.stop - 1) := by
    unfold Holds stop
    omega
  refine ⟨(hI.mem_pages hmem (holds_start hpos)).1, ?_, hpos⟩
  have := (hI.mem_pages hmem hlast).2
  unfold stop at this ⊢
  omega

theorem out_apart (hI : HeapInv base first h out free) (hb : b ∈ out) :
    ∀ f ∈ free, f.Apart b := by
  intro f hf
  exact ((List.pairwise_append.mp hI.pairwise_apart).2.2 b hb f hf).symm

/-- The header of a block that is held is not on the list. -/
theorem header_not_mem (hI : HeapInv base first h out free) (hfirst : base < first)
    (hb : b ∈ out) : b.start ∉ base :: free.map start := by
  intro hmem
  have hin := hI.inside hb
  rcases List.mem_cons.mp hmem with he | hmem
  · omega
  · obtain ⟨f, hf, he⟩ := List.mem_map.mp hmem
    have hpos := (hI.order.inside f hf).2.2
    exact hI.out_apart hb f hf b.start ⟨he ▸ holds_start hpos, holds_start hin.2.2⟩

/-- `ufree` takes a block from its holder. -/
theorem ufree_ok (hI : HeapInv base first h out free) (hfirst : base < first)
    (hfit : 512 * h.npages < 4294967296) (hb : b ∈ out)
    (hf : h.ufree n (b.start + 1) = some h') :
    ∃ free', HeapInv base first h' (out.erase b) free' ∧ (Spaced free → Spaced free') ∧
      ∃ f ∈ free', b.units ≤ f.units := by
  obtain ⟨hnp, hadded, -⟩ := ufree_fields hf
  obtain ⟨free', hl, ho, hunits, hsp, htally, hframe⟩ := hI.list.ufree_ok hI.order hfirst
    (hI.inside hb) (hI.out_apart hb) (by omega) (hI.header b hb).1 hf
  have hperm : (out ++ free).Perm (out.erase b ++ b :: free) :=
    ((List.perm_cons_erase hb).append_right free).trans List.perm_middle.symm
  have hout : (b :: out.erase b).Pairwise Apart := by
    refine pairwise_apart_iff.mpr fun u => ?_
    rw [← tally_perm (List.perm_cons_erase hb)]
    have hle := (hI.tally u).trans_le (hI.apart u)
    rw [tally_append] at hle
    omega
  refine ⟨free', ⟨hl, hnp ▸ ho, fun c hc => ?_, fun u => ?_, hadded ▸ hI.apart,
    by rw [hnp, hadded]; exact hI.pages⟩, hsp, hunits⟩
  · have hco : c ∈ out := List.mem_of_mem_erase hc
    have hpos := (hI.header c hco).2
    have hne : c.start ≠ b.start := by
      intro he
      have hb0 := (hI.header b hb).2
      exact List.rel_of_pairwise_cons hout hc c.start ⟨he ▸ holds_start hb0, holds_start hpos⟩
    rw [hframe c.start hne (hI.header_not_mem hfirst hco)]
    exact hI.header c hco
  · rw [hadded, ← hI.tally, tally_perm hperm, tally_append, tally_append, htally]

/-- `ufree` of a block that is held returns. -/
theorem exists_ufree (hI : HeapInv base first h out free) (hfirst : base < first)
    (hb : b ∈ out) : ∃ n h', h.ufree n (b.start + 1) = some h' :=
  hI.list.exists_ufree hI.order hfirst (hI.inside hb) (hI.out_apart hb)

section Morecore

variable (hI : HeapInv base first h out free) (hp : Consecutive base first page)
  (hnu : 0 < nu) (hnu' : nu * 8 < 4294967296)

def more (h : Heap) (hp nu : ℕ) : Heap :=
  { h.setSize hp nu with
    npages := h.npages + 1 + nu / 512
    added := h.added ++ [⟨hp, nu⟩] }

include hp hnu' in
theorem morecore_eq : h.morecore page fuel nu =
    ((more h (first + 512 * h.npages) nu).ufree fuel (first + 512 * h.npages + 1)).map
      fun h => (h, h.freep) := by
  have hk : uint (nu * 8) / 4096 = nu / 512 := by
    rw [uint, Nat.mod_eq_of_lt hnu']
    omega
  simp only [Heap.morecore, hp.next, hk, more, Option.map_eq_bind]
  rfl

include hI hnu in
/-- A new block is held by nobody. -/
theorem more_inv (hfirst : base < first) : HeapInv base first
    (more h (first + 512 * h.npages) nu) (⟨first + 512 * h.npages, nu⟩ :: out) free := by
  have hnew (u : ℕ) (hu : u < first + 512 * h.npages) :
      (more h (first + 512 * h.npages) nu).size u = h.size u := Function.update_of_ne hu.ne _ _
  have hle : first + 512 * h.npages ≤ first + 512 * (h.npages + 1 + nu / 512) := by omega
  have hadded : (more h (first + 512 * h.npages) nu).added =
      h.added ++ [⟨first + 512 * h.npages, nu⟩] := rfl
  refine ⟨⟨hI.list.linked, fun b hb => ?_, ?_, hI.list.freep⟩, hI.order.mono hle, ?_, fun u => ?_,
    fun u => ?_, ?_⟩
  · have hin := hI.order.inside b hb
    have hlt : b.start < first + 512 * h.npages := by
      unfold stop at hin
      omega
    rw [hnew b.start hlt]
    exact hI.list.size b hb
  · rw [hnew base (by omega)]
    exact hI.list.base_size
  · refine List.forall_mem_cons.mpr ⟨⟨Function.update_self _ _ _, hnu⟩, fun b hb => ?_⟩
    have hin := hI.inside hb
    have hlt : b.start < first + 512 * h.npages := by
      unfold stop at hin
      omega
    rw [hnew b.start hlt]
    exact hI.header b hb
  · rw [hadded, List.cons_append, tally_cons, hI.tally, tally_append, Nat.add_comm]
  · rw [hadded, tally_append, tally_singleton]
    split_ifs with hu
    · have hzero : Extent.tally h.added u = 0 := by
        by_contra hne
        obtain ⟨r, hr, -, hlt⟩ := tally_pos_iff.mp (Nat.pos_of_ne_zero hne)
        have := (hI.pages r hr).2
        have hge : first + 512 * h.npages ≤ u := hu.1
        omega
      omega
    · exact hI.apart u
  · rw [hadded]
    refine List.forall_mem_append.mpr ⟨fun r hr => ?_, ?_⟩
    · exact ⟨(hI.pages r hr).1, (hI.pages r hr).2.trans hle⟩
    · rw [List.forall_mem_singleton]
      have hstop : first + 512 * h.npages + nu ≤ first + 512 * (h.npages + 1 + nu / 512) := by omega
      exact ⟨Nat.le_add_right _ _, hstop⟩

include hI hp hnu hnu' in
/-- `morecore` puts its units on the list, in a block that is large enough. -/
theorem morecore_ok {r : Option ℕ} (hm : h.morecore page fuel nu = some (h', r))
    (hfit : 512 * h'.npages < 4294967296) : ∃ p free', r = some p ∧ h'.freep = some p ∧
      HeapInv base first h' out free' ∧ (Spaced free → Spaced free') ∧
      ∃ f ∈ free', nu ≤ f.units := by
  rw [morecore_eq hp hnu'] at hm
  obtain ⟨h₁, hf, he⟩ := Option.map_eq_some_iff.mp hm
  cases he
  obtain ⟨hnp, -, p, hfreep⟩ := ufree_fields hf
  have hmore := hI.more_inv hnu hp.above
  obtain ⟨free', hinv, hsp, hunits⟩ := hmore.ufree_ok hp.above (hnp ▸ hfit) List.mem_cons_self hf
  rw [List.erase_cons_head] at hinv
  exact ⟨p, free', hfreep, hfreep, hinv, hsp, hunits⟩

include hI hp hnu hnu' in
/-- `morecore` returns. -/
theorem exists_morecore : ∃ fuel h' p, h.morecore page fuel nu = some (h', some p) ∧
    h'.npages = h.npages + 1 + nu / 512 := by
  have hmore := hI.more_inv hnu hp.above
  obtain ⟨n, h', hf⟩ := hmore.exists_ufree hp.above List.mem_cons_self
  obtain ⟨hnp, -, p, hfreep⟩ := ufree_fields hf
  have hf : (more h (first + 512 * h.npages) nu).ufree n (first + 512 * h.npages + 1) = some h' :=
    hf
  refine ⟨n, h', p, ?_, hnp⟩
  rw [morecore_eq hp hnu', hf, Option.map_some, hfreep]

end Morecore

/-- A node that is large enough is a block of the list. -/
theorem carve_ok {ap : ℕ} (hI : HeapInv base first h out free) (hfirst : base < first)
    (hprev : prevp ∈ base :: free.map start) (hnu : 0 < nu) (hle : nu ≤ h.size (h.ptr prevp))
    (hc : h.carve nu prevp (h.ptr prevp) = (h', ap)) :
    ∃ free', HeapInv base first h' (⟨ap - 1, nu⟩ :: out) free' ∧ (Spaced free → Spaced free') := by
  obtain ⟨L, R, rfl, rfl⟩ := exists_split hprev
  have hptr := hI.list.ptr_lastNode
  cases R with
  | nil =>
    have hptr : h.ptr (lastNode base L) = base := hptr
    rw [hptr, hI.list.base_size] at hle
    omega
  | cons f R =>
    have hptr : h.ptr (lastNode base L) = f.start := hptr
    have hf : f ∈ L ++ f :: R := by simp
    rw [hptr] at hle hc
    rw [hI.list.size f hf] at hle
    obtain ⟨free', hl, ho, hsp, htally, hsize, hframe, hnp, hadded⟩ :=
      hI.list.carve_ok hI.order hfirst hnu hle hc
    refine ⟨free', ⟨hl, hnp ▸ ho, ?_, fun u => ?_, hadded ▸ hI.apart,
      by rw [hnp, hadded]; exact hI.pages⟩, hsp⟩
    · refine List.forall_mem_cons.mpr ⟨⟨hsize, hnu⟩, fun c hc => ?_⟩
      have hpos := (hI.header c hc).2
      have hnot : ¬ f.Holds c.start := fun hu =>
        hI.out_apart hc f hf c.start ⟨hu, holds_start hpos⟩
      rw [hframe c.start hnot]
      exact hI.header c hc
    · have hperm : ((⟨ap - 1, nu⟩ :: out) ++ free').Perm (out ++ ⟨ap - 1, nu⟩ :: free') :=
        List.perm_middle.symm
      rw [hadded, ← hI.tally, tally_perm hperm, tally_append, tally_append, htally]

/-- The list is never left. -/
theorem ptr_mem (hI : HeapInv base first h out free) (hp : p ∈ base :: free.map start) :
    h.ptr p ∈ base :: free.map start := by
  rcases hI.list.linked.next_mem hp with hn | hn
  · exact List.mem_cons_of_mem _ hn
  · rw [hn]
    exact List.mem_cons_self

section MallocLoop

variable (hp : Consecutive base first page) (hnu : 0 < nu) (hnu' : nu * 8 < 4294967296)

theorem carve_npages {ap : ℕ} (hc : h.carve nu prevp p = (h', ap)) : h'.npages = h.npages := by
  unfold Heap.carve at hc
  split_ifs at hc <;> cases hc <;> rfl

include hp hnu' in
theorem morecore_npages {r : Option ℕ} (hm : h.morecore page fuel nu = some (h', r)) :
    h.npages ≤ h'.npages := by
  rw [morecore_eq hp hnu'] at hm
  obtain ⟨h₁, hf, he⟩ := Option.map_eq_some_iff.mp hm
  cases he
  have hnp : h'.npages = h.npages + 1 + nu / 512 := (ufree_fields hf).1
  omega

include hp hnu' in
/-- Pages are never given back. -/
theorem mallocLoop_npages {r : Option ℕ}
    (hm : Heap.mallocLoop page fuel nu n h prevp = some (h', r)) : h.npages ≤ h'.npages := by
  induction n generalizing h prevp with
  | zero => cases hm
  | succ n ih =>
    rw [Heap.mallocLoop] at hm
    split_ifs at hm
    · cases hm
      exact (carve_npages rfl).ge
    · split at hm
      · cases hm
      · rename_i hmore
        cases hm
        exact morecore_npages hp hnu' hmore
      · rename_i hmore
        exact (morecore_npages hp hnu' hmore).trans (ih hm)
    · exact ih hm

include hp hnu hnu' in
/-- The loop of `umalloc` hands out a block. -/
theorem mallocLoop_ok {r : Option ℕ} (hI : HeapInv base first h out free)
    (hprev : prevp ∈ base :: free.map start)
    (hm : Heap.mallocLoop page fuel nu n h prevp = some (h', r))
    (hfit : 512 * h'.npages < 4294967296) :
    ∃ ap free', r = some ap ∧ HeapInv base first h' (⟨ap - 1, nu⟩ :: out) free' ∧
      (Spaced free → Spaced free') := by
  induction n generalizing h free prevp with
  | zero => cases hm
  | succ n ih =>
    rw [Heap.mallocLoop] at hm
    split_ifs at hm with hle hfreep
    · cases hm
      obtain ⟨free', hinv, hsp⟩ := hI.carve_ok hp.above hprev hnu hle rfl
      exact ⟨_, free', rfl, hinv, hsp⟩
    · split at hm
      · cases hm
      · rename_i hmore
        cases hm
        obtain ⟨p, free', he, -⟩ := hI.morecore_ok hp hnu hnu' hmore hfit
        cases he
      · rename_i h₁ p hmore
        have hle₁ := mallocLoop_npages hp hnu' hm
        obtain ⟨p', free₁, he, hfp, hinv, hsp₁, -⟩ := hI.morecore_ok hp hnu hnu' hmore (by omega)
        cases he
        obtain ⟨q, hq, hfp'⟩ := hinv.list.freep
        obtain rfl : p = q := Option.some.inj (hfp.symm.trans hfp')
        obtain ⟨ap, free', he, hinv', hsp⟩ := ih hinv hq hm
        exact ⟨ap, free', he, hinv', fun hs => hsp (hsp₁ hs)⟩
    · exact ih hI (hI.ptr_mem hprev) hm

end MallocLoop

/-- The loop ends at a block that is large enough, if it does not come to `freep` before. -/
theorem exists_mallocLoop_of_iterate (hk : nu ≤ h.size (h.ptr^[k + 1] prevp))
    (hne : ∀ j < k, some (h.ptr^[j + 1] prevp) ≠ h.freep) :
    ∃ n h' ap, Heap.mallocLoop page fuel nu n h prevp = some (h', some ap) := by
  induction k generalizing prevp with
  | zero =>
    refine ⟨1, (h.carve nu prevp (h.ptr prevp)).1, (h.carve nu prevp (h.ptr prevp)).2, ?_⟩
    rw [Heap.mallocLoop]
    exact if_pos hk
  | succ k ih =>
    by_cases hle : nu ≤ h.size (h.ptr prevp)
    · refine ⟨1, (h.carve nu prevp (h.ptr prevp)).1, (h.carve nu prevp (h.ptr prevp)).2, ?_⟩
      rw [Heap.mallocLoop]
      exact if_pos hle
    · have hfreep : some (h.ptr prevp) ≠ h.freep := hne 0 (Nat.succ_pos k)
      have hk' : nu ≤ h.size (h.ptr^[k + 1] (h.ptr prevp)) := hk
      obtain ⟨n, h', ap, hn⟩ := ih hk' fun j hj => hne (j + 1) (Nat.succ_lt_succ hj)
      refine ⟨n + 1, h', ap, ?_⟩
      rw [Heap.mallocLoop]
      simpa only [ge_iff_le, hle, if_false, hfreep] using hn

/-- If the loop comes to `freep` without a block that is large enough, it goes on behind
`morecore`. -/
theorem mallocLoop_round {h₁ : Heap} (hsmall : ∀ j ≤ k, ¬ nu ≤ h.size (h.ptr^[j + 1] prevp))
    (hne : ∀ j < k, some (h.ptr^[j + 1] prevp) ≠ h.freep)
    (hk : some (h.ptr^[k + 1] prevp) = h.freep)
    (hm : h.morecore page fuel nu = some (h₁, some p)) :
    Heap.mallocLoop page fuel nu (n + k + 1) h prevp = Heap.mallocLoop page fuel nu n h₁ p := by
  induction k generalizing prevp with
  | zero =>
    have hle : ¬ nu ≤ h.size (h.ptr prevp) := hsmall 0 le_rfl
    have hfreep : some (h.ptr prevp) = h.freep := hk
    rw [Heap.mallocLoop]
    simp only [ge_iff_le, hle, if_false, hfreep, if_true, hm]
  | succ k ih =>
    have hle : ¬ nu ≤ h.size (h.ptr prevp) := hsmall 0 (Nat.zero_le _)
    have hfreep : some (h.ptr prevp) ≠ h.freep := hne 0 (Nat.succ_pos k)
    rw [Heap.mallocLoop]
    simp only [ge_iff_le, hle, if_false, hfreep]
    have hk' : some (h.ptr^[k + 1] (h.ptr prevp)) = h.freep := hk
    exact ih (fun j hj => hsmall (j + 1) (Nat.succ_le_succ hj))
      (fun j hj => hne (j + 1) (Nat.succ_lt_succ hj)) hk'

/-- From `freep` on the loop meets a block that is large enough before it comes back. -/
theorem exists_fit (hI : HeapInv base first h out free) (hfreep : h.freep = some p)
    (hf : ∃ f ∈ free, nu ≤ f.units) : ∃ k, nu ≤ h.size (h.ptr^[k + 1] p) ∧
      ∀ j < k, some (h.ptr^[j + 1] p) ≠ h.freep := by
  obtain ⟨f, hmem, hle⟩ := hf
  obtain ⟨q, hq, hfq⟩ := hI.list.freep
  obtain rfl : p = q := Option.some.inj (hfreep.symm.trans hfq)
  have hfit : ∃ k, nu ≤ h.size (h.ptr^[k + 1] p) := by
    obtain ⟨k, hk⟩ := hI.list.linked.reach hq
      (List.mem_cons_of_mem base (List.mem_map_of_mem (f := start) hmem))
    exact ⟨k, by rw [hk, hI.list.size f hmem]; exact hle⟩
  classical
  refine ⟨Nat.find hfit, Nat.find_spec hfit, fun j hj he => ?_⟩
  -- from `freep` on the block would be met again, and before
  rw [hfreep] at he
  have hback : h.ptr^[j + 1] p = p := Option.some.inj he
  refine Nat.find_min hfit (m := Nat.find hfit - (j + 1)) (by omega) ?_
  have hspec := Nat.find_spec hfit
  rw [show Nat.find hfit + 1 = Nat.find hfit - (j + 1) + 1 + (j + 1) by omega,
    Function.iterate_add_apply, hback] at hspec
  exact hspec

/-- The loop ends if the list has a block that is large enough. -/
theorem exists_mallocLoop_of_fit (hI : HeapInv base first h out free) (hfreep : h.freep = some p)
    (hf : ∃ f ∈ free, nu ≤ f.units) :
    ∃ n h' ap, Heap.mallocLoop page fuel nu n h p = some (h', some ap) := by
  obtain ⟨k, hk, hne⟩ := hI.exists_fit hfreep hf
  exact exists_mallocLoop_of_iterate hk hne

/-- The loop of `umalloc` ends. -/
theorem exists_mallocLoop (hp : Consecutive base first page) (hnu : 0 < nu)
    (hnu' : nu * 8 < 4294967296) (hI : HeapInv base first h out free)
    (hfreep : h.freep = some prevp)
    (hfit : 512 * (h.npages + 1 + nu / 512) < 4294967296) :
    ∃ fuel n h' ap, Heap.mallocLoop page fuel nu n h prevp = some (h', some ap) := by
  by_cases hf : ∃ f ∈ free, nu ≤ f.units
  · exact ⟨0, hI.exists_mallocLoop_of_fit hfreep hf⟩
  · obtain ⟨q, hq, hfq⟩ := hI.list.freep
    obtain rfl : prevp = q := Option.some.inj (hfreep.symm.trans hfq)
    have hmem (j : ℕ) : h.ptr^[j] prevp ∈ base :: free.map start := by
      induction j with
      | zero => exact hq
      | succ j ih =>
        rw [Function.iterate_succ_apply']
        exact hI.ptr_mem ih
    have hsmall (j : ℕ) : ¬ nu ≤ h.size (h.ptr^[j + 1] prevp) := by
      intro hle
      rcases List.mem_cons.mp (hmem (j + 1)) with he | hj
      · rw [he, hI.list.base_size] at hle
        omega
      · obtain ⟨f, hmf, he⟩ := List.mem_map.mp hj
        rw [← he, hI.list.size f hmf] at hle
        exact hf ⟨f, hmf, hle⟩
    obtain ⟨fuel, h₁, p, hm, hnp⟩ := hI.exists_morecore hp hnu hnu'
    obtain ⟨p', free', he, hfp, hinv, -, hfit'⟩ :=
      hI.morecore_ok hp hnu hnu' hm (hnp ▸ hfit)
    cases he
    have hloop : ∃ n h' ap, Heap.mallocLoop page fuel nu n h₁ p = some (h', some ap) :=
      hinv.exists_mallocLoop_of_fit hfp hfit'
    obtain ⟨n, h', ap, hn⟩ := hloop
    have hround := hI.list.linked.reach hq hq
    classical
    refine ⟨fuel, n + Nat.find hround + 1, h', ap, (mallocLoop_round ?_ ?_ ?_ hm).trans hn⟩
    · exact fun j _ => hsmall j
    · intro j hj he
      rw [hfreep] at he
      exact Nat.find_min hround hj (Option.some.inj he)
    · rw [Nat.find_spec hround, hfreep]

/-- Writes behind the headers of the blocks that are held leave the list alone. -/
theorem write {ptr size : ℕ → ℕ} (hI : HeapInv base first h out free) (hfirst : base < first)
    (hw : ∀ u, (¬ ∃ b ∈ out, b.Holds u ∧ u ≠ b.start) → ptr u = h.ptr u ∧ size u = h.size u) :
    HeapInv base first { h with ptr := ptr, size := size } out free := by
  have hapart := hI.pairwise_apart
  have hnode (u : ℕ) (hu : u ∈ base :: free.map start) : ptr u = h.ptr u ∧ size u = h.size u := by
    refine hw u ?_
    rintro ⟨b, hb, hbu, -⟩
    rcases List.mem_cons.mp hu with rfl | hu
    · have := (hI.mem_pages (List.mem_append_left _ hb) hbu).1
      omega
    · obtain ⟨f, hf, rfl⟩ := List.mem_map.mp hu
      exact hI.out_apart hb f hf f.start ⟨holds_start (hI.order.inside f hf).2.2, hbu⟩
  have hheader (b : Extent) (hb : b ∈ out) : size b.start = h.size b.start := by
    refine (hw b.start ?_).2
    rintro ⟨c, hc, hcb, hne⟩
    have hbc : b ≠ c := by
      rintro rfl
      exact hne rfl
    have hout := (List.pairwise_append.mp hapart).1
    exact hout.forall hb hc hbc b.start ⟨holds_start (hI.header b hb).2, hcb⟩
  refine ⟨⟨hI.list.linked.congr fun u hu => (hnode u hu).1, fun f hf => ?_, ?_, hI.list.freep⟩,
    hI.order, fun b hb => ?_, hI.tally, hI.apart, hI.pages⟩
  · have hmem : f.start ∈ base :: free.map start :=
      List.mem_cons_of_mem _ (List.mem_map_of_mem hf)
    exact (hnode f.start hmem).2.trans (hI.list.size f hf)
  · exact (hnode base List.mem_cons_self).2.trans hI.list.base_size
  · exact ⟨(hheader b hb).trans (hI.header b hb).1, (hI.header b hb).2⟩

end HeapInv

/-- The blocks on the free list. There is none before the first call. -/
def Heap.Lists (base : ℕ) (h : Heap) (free : List Extent) : Prop :=
  h.freep = none ∧ free = [] ∨ FreeList base h free

namespace Arena

variable {a a' a₀ : Arena} {l : Request}

/-- The blocks that are held and those on the free list are disjoint, lie in pages that were
taken, and are together what `morecore` has added. -/
structure Partitioned (page : ℕ → Option ℕ) (a : Arena) (free : List Extent) : Prop where
  apart : (a.out ++ free).Pairwise Apart
  units : ∀ b ∈ a.out ++ free, 0 < b.units
  inPages : ∀ b ∈ a.out ++ free, ∀ u, b.Holds u →
    ∃ i < a.heap.npages, ∃ p, page i = some p ∧ p ≤ u ∧ u < p + 512
  cover : ∀ u, (∃ b ∈ a.out ++ free, b.Holds u) ↔ ∃ r ∈ a.heap.added, r.Holds u

/-- The blocks that are held and those on the list that the next call of `umalloc` finds. -/
structure Inv (base first : ℕ) (a : Arena) (free : List Extent) : Prop where
  heap : HeapInv base first (a.heap.init base) a.out free
  unused : a.heap.freep = none → a.out = [] ∧ free = []

theorem init_fields : (h.init base).npages = h.npages ∧ (h.init base).added = h.added ∧
    (h.freep ≠ none → h.init base = h) := by
  unfold Heap.init
  split
  · rename_i hn
    exact ⟨rfl, rfl, fun hne => absurd hn hne⟩
  · exact ⟨rfl, rfl, fun _ => rfl⟩

/-- The size of a request that is not too large. -/
theorem nunits_eq (hn : n + 15 < 4294967296) :
    Heap.nunits n = (n + 7) / 8 + 1 ∧ Heap.nunits n * 8 < 4294967296 := by
  have hu : Heap.nunits n = (n + 7) / 8 + 1 := by
    rw [Heap.nunits, uint, Nat.mod_eq_of_lt (by omega)]
  omega

theorem Fresh.inv (hf : a.Fresh) : Inv base first a [] := by
  obtain ⟨hfreep, hnp, hadded, hout⟩ := hf
  have hinit : a.heap.init base = ((a.heap.setPtr base base).setFreep base).setSize base 0 := by
    simp [Heap.init, hfreep]
  refine ⟨⟨⟨?_, by simp, ?_, base, by simp, ?_⟩, .nil, by simp [hout], ?_, ?_, ?_⟩,
    fun _ => ⟨hout, rfl⟩⟩
  · rw [hinit]
    exact Function.update_self _ _ _
  · rw [hinit]
    exact Function.update_self _ _ _
  · rw [hinit]
    rfl
  · simp [init_fields.2.1, hadded, hout]
  · simp [init_fields.2.1, hadded]
  · simp [init_fields.2.1, hadded]

namespace Inv

variable (hp : Consecutive base first page) (hI : Inv base first a free)

include hI in
theorem lists : a.heap.Lists base free := by
  cases hf : a.heap.freep with
  | none => exact .inl ⟨hf, (hI.unused hf).2⟩
  | some p =>
    have hinit : a.heap.init base = a.heap := init_fields.2.2 (by simp [hf])
    exact .inr (hinit ▸ hI.heap.list)

include hp hI in
theorem partitioned : Partitioned page a free := by
  have hnp : (a.heap.init base).npages = a.heap.npages := init_fields.1
  have hadded : (a.heap.init base).added = a.heap.added := init_fields.2.1
  refine ⟨hI.heap.pairwise_apart, ?_, fun b hb u hu => ?_, fun u => ?_⟩
  · refine List.forall_mem_append.mpr ⟨fun b hb => (hI.heap.header b hb).2, fun b hb => ?_⟩
    exact (hI.heap.order.inside b hb).2.2
  · obtain ⟨hlo, hhi⟩ := hI.heap.mem_pages hb hu
    rw [hnp] at hhi
    refine ⟨(u - first) / 512, by omega, first + 512 * ((u - first) / 512), hp.next _, ?_, ?_⟩ <;>
      omega
  · rw [← tally_pos_iff, ← tally_pos_iff, hI.heap.tally, hadded]

/-- The first node of the list that `umalloc` looks at. -/
theorem exists_freep (hI : Inv base first a free) :
    ∃ p ∈ base :: free.map start, (a.heap.init base).freep = some p := hI.heap.list.freep

include hp in
/-- A call keeps the blocks apart, if the sizes do not wrap. -/
theorem step (hI : Inv base first a free) (hs : Step base page a l a')
    (hreq : ∀ nbytes, l = .umalloc nbytes → nbytes + 15 < 4294967296)
    (hfit : 512 * a'.heap.npages < 4294967296) :
    ∃ free', Inv base first a' free' ∧ (Spaced free → Spaced free') := by
  obtain ⟨p, hmem, hfreep⟩ := hI.heap.list.freep
  have hused {a : Arena} {h : Heap} {free : List Extent} (hh : HeapInv base first h a.out free)
      (he : a.heap = h) : Inv base first a free := by
    subst he
    have hne : a.heap.freep ≠ none := by
      obtain ⟨q, -, hq⟩ := hh.list.freep
      simp [hq]
    have hinit : a.heap.init base = a.heap := init_fields.2.2 hne
    exact ⟨by rw [hinit]; exact hh, fun hn => absurd hn hne⟩
  cases hs with
  | umalloc hm =>
    obtain ⟨hn, hn'⟩ := nunits_eq (hreq _ rfl)
    simp only [Heap.umalloc, hfreep, Option.getD_some] at hm
    obtain ⟨ap, free', he, hinv, hsp⟩ := hI.heap.mallocLoop_ok hp (Nat.succ_pos _) hn' hmem hm hfit
    cases he
    exact ⟨free', hused (hn ▸ hinv) rfl, hsp⟩
  | umallocNull hm =>
    obtain ⟨hn, hn'⟩ := nunits_eq (hreq _ rfl)
    simp only [Heap.umalloc, hfreep, Option.getD_some] at hm
    obtain ⟨ap, free', he, -⟩ := hI.heap.mallocLoop_ok hp (Nat.succ_pos _) hn' hmem hm hfit
    cases he
  | ufree hb hf =>
    have hne : a.heap.freep ≠ none := fun hn => by simp [(hI.unused hn).1] at hb
    have hinit : a.heap.init base = a.heap := init_fields.2.2 hne
    have hheap := hI.heap
    rw [hinit] at hheap
    have hnp := (ufree_fields hf).1
    obtain ⟨free', hinv, hsp, -⟩ := hheap.ufree_ok hp.above (hnp ▸ hfit) hb hf
    exact ⟨free', hused hinv rfl, hsp⟩
  | @write ptr size hw =>
    cases hf : a.heap.freep with
    | none =>
      have hout := (hI.unused hf).1
      have hsame (u : ℕ) : ptr u = a.heap.ptr u ∧ size u = a.heap.size u := by
        refine hw u ?_
        rintro ⟨b, hb, -⟩
        simp [hout] at hb
      have hptr : ptr = a.heap.ptr := funext fun u => (hsame u).1
      have hsize : size = a.heap.size := funext fun u => (hsame u).2
      exact ⟨free, by subst hptr hsize; exact hI, id⟩
    | some q =>
      have hinit : a.heap.init base = a.heap := init_fields.2.2 (by simp [hf])
      have hheap := hI.heap
      rw [hinit] at hheap
      exact ⟨free, hused (hheap.write hp.above hw) rfl, id⟩

end Inv

/-- Pages are never given back. -/
theorem Step.npages (hp : Consecutive base first page) (hs : Step base page a l a')
    (hreq : ∀ nbytes, l = .umalloc nbytes → nbytes + 15 < 4294967296) :
    a.heap.npages ≤ a'.heap.npages := by
  have hinit : (a.heap.init base).npages = a.heap.npages := init_fields.1
  cases hs with
  | umalloc hm => exact hinit ▸ HeapInv.mallocLoop_npages hp (nunits_eq (hreq _ rfl)).2 hm
  | umallocNull hm => exact hinit ▸ HeapInv.mallocLoop_npages hp (nunits_eq (hreq _ rfl)).2 hm
  | ufree hb hf => exact (ufree_fields hf).1.ge
  | write => exact le_rfl

/-- Behind calls whose sizes do not wrap the blocks are apart. -/
theorem Run.inv {tr : List (Arena × Request)} (hp : Consecutive base first page)
    (h : Arena.Run base page a₀ tr a) (hf : a₀.Fresh)
    (hreq : ∀ p ∈ tr, ∀ nbytes, p.2 = .umalloc nbytes → nbytes + 15 < 4294967296) :
    512 * a.heap.npages < 4294967296 → ∃ free, Inv base first a free ∧ Spaced free := by
  refine h.invariant_of
    (I := fun a => 512 * a.heap.npages < 4294967296 → ∃ free, Inv base first a free ∧ Spaced free)
    (C := fun _ l => ∀ nbytes, l = .umalloc nbytes → nbytes + 15 < 4294967296) hreq
    (fun _ => ⟨[], hf.inv, .nil⟩) fun a l a' hI hreq hs hfit => ?_
  have hle := hs.npages hp hreq
  obtain ⟨free, hI, hsp⟩ := hI (by omega)
  obtain ⟨free', hI', hsp'⟩ := hI.step hp hs hreq hfit
  exact ⟨free', hI', hsp' hsp⟩

/-- A request whose sizes do not wrap is granted. -/
theorem Inv.exists_umalloc (hp : Consecutive base first page) (hI : Inv base first a free)
    (hn : n + 15 < 4294967296)
    (hfit : 512 * (a.heap.npages + 1 + Heap.nunits n / 512) < 4294967296) :
    ∃ a' b, Step base page a (.umalloc n) a' ∧ a'.out = b :: a.out := by
  obtain ⟨p, hmem, hfreep⟩ := hI.exists_freep
  have hnp : (a.heap.init base).npages = a.heap.npages := init_fields.1
  obtain ⟨fuel, m, h', ap, hm⟩ := HeapInv.exists_mallocLoop hp (Nat.succ_pos _) (nunits_eq hn).2
    hI.heap hfreep (hnp ▸ hfit)
  have hu : a.heap.umalloc base page fuel m n = some (h', some ap) := by
    simp only [Heap.umalloc, hfreep, Option.getD_some]
    exact hm
  exact ⟨_, _, .umalloc hu, rfl⟩

/-- The blocks that are held can be given back in any order. -/
theorem Inv.exists_frees (hp : Consecutive base first page) (hI : Inv base first a free)
    (hfit : 512 * a.heap.npages < 4294967296) {bs : List Extent} (hbs : bs.Perm a.out) :
    ∃ tr a' free', Arena.Run base page a tr a' ∧ tr.map Prod.snd = bs.map .ufree ∧
      a'.out = [] ∧ a'.heap.added = a.heap.added ∧ Inv base first a' free' := by
  induction bs generalizing a free with
  | nil => exact ⟨[], a, free, .nil, rfl, hbs.symm.eq_nil, rfl, hI⟩
  | cons b bs ih =>
    have hb : b ∈ a.out := hbs.subset List.mem_cons_self
    have hne : a.heap.freep ≠ none := fun hn => by simp [(hI.unused hn).1] at hb
    have hinit : a.heap.init base = a.heap := init_fields.2.2 hne
    have hheap := hI.heap
    rw [hinit] at hheap
    obtain ⟨n, h', hf⟩ := hheap.exists_ufree hp.above hb
    have hs : Step base page a (.ufree b) ⟨h', a.out.erase b⟩ := .ufree hb hf
    obtain ⟨hnp, hadded, -⟩ := ufree_fields hf
    obtain ⟨free₁, hI₁, -⟩ := hI.step hp hs (fun _ => nofun) (hnp ▸ hfit)
    obtain ⟨tr, a', free', hrun, htr, hout, hadded', hI'⟩ := ih hI₁ (hnp ▸ hfit)
      (List.cons_perm_iff_perm_erase.mp hbs).2
    exact ⟨_, a', free', hrun.cons hs, by simp [htr], hout, hadded'.trans hadded, hI'⟩

end Arena

open Arena

/-- In every state that calls lead to, the blocks that are held and the blocks on the free list
divide what `morecore` has added. A request is granted, and when all blocks are given back, in any
order, the free list has everything. -/
theorem arena_partitioned {a₀ a : Arena} {tr : List (Arena × Request)}
    (hp : Consecutive base first page) (h : Arena.Run base page a₀ tr a) (hf : a₀.Fresh)
    (hreq : ∀ p ∈ tr, ∀ nbytes, p.2 = .umalloc nbytes → nbytes + 15 < 4294967296)
    (hfit : 512 * a.heap.npages < 4294967296) :
    ∃ free, a.heap.Lists base free ∧ a.Partitioned page free ∧
      (∀ nbytes, nbytes + 15 < 4294967296 →
        512 * (a.heap.npages + 1 + Heap.nunits nbytes / 512) < 4294967296 →
        ∃ a' b, Arena.Step base page a (.umalloc nbytes) a' ∧ a'.out = b :: a.out) ∧
      ∀ bs : List Extent, bs.Perm a.out → ∃ tr' a' free',
        Arena.Run base page a tr' a' ∧ tr'.map Prod.snd = bs.map .ufree ∧ a'.out = [] ∧
        a'.heap.Lists base free' ∧ a'.Partitioned page free' ∧
        ∀ u, (∃ b ∈ free', b.Holds u) ↔ ∃ r ∈ a.heap.added, r.Holds u := by
  obtain ⟨free, hI, -⟩ := Run.inv hp h hf hreq hfit
  refine ⟨free, hI.lists, hI.partitioned hp, fun nbytes => hI.exists_umalloc hp, fun bs hbs => ?_⟩
  obtain ⟨tr', a', free', hrun, htr, hout, hadded, hI'⟩ := hI.exists_frees hp hfit hbs
  have hpart := hI'.partitioned hp
  refine ⟨tr', a', free', hrun, htr, hout, hI'.lists, hpart, fun u => ?_⟩
  have hcover := hpart.cover u
  rwa [hout, List.nil_append, hadded] at hcover

def freshArena : Arena := ⟨⟨fun _ => 0, fun _ => 0, none, 0, []⟩, []⟩

/-- Pages right above a static base at `0`. -/
def lowPages (i : ℕ) : Option ℕ := some (1 + 512 * i)

namespace Arena

variable {a : Arena}

/-- `umalloc`, with few tests in its loops. -/
def umalloc (a : Arena) (nbytes : ℕ) : Arena :=
  match a.heap.umalloc 0 lowPages 3 3 nbytes with
  | some (h, some ap) => ⟨h, ⟨ap - 1, (nbytes + 7) / 8 + 1⟩ :: a.out⟩
  | _ => a

/-- `ufree`, with few tests in its loop. -/
def ufree (a : Arena) (b : Extent) : Arena :=
  match a.heap.ufree 3 (b.start + 1) with
  | some h => ⟨h, a.out.erase b⟩
  | none => a

theorem umalloc_step (h : (a.umalloc n).out ≠ a.out) :
    Step 0 lowPages a (.umalloc n) (a.umalloc n) := by
  unfold umalloc at h ⊢
  split
  · exact .umalloc (by assumption)
  · simp_all

theorem ufree_step (hb : b ∈ a.out) (h : (a.ufree b).out ≠ a.out) :
    Step 0 lowPages a (.ufree b) (a.ufree b) := by
  unfold ufree at h ⊢
  split
  · exact .ufree hb (by assumption)
  · simp_all

end Arena

/-- Two blocks are handed out, and a third from the memory of the first. -/
def reuseArena : Arena := (((freshArena.umalloc 100).umalloc 3).ufree ⟨1, 14⟩).umalloc 16

theorem reuseArena_run : ∃ tr, Arena.Run 0 lowPages freshArena tr reuseArena ∧
    ∀ p ∈ tr, ∀ nbytes, p.2 = .umalloc nbytes → nbytes + 15 < 4294967296 := by
  refine ⟨_, .snoc (.snoc (.snoc (.snoc .nil (umalloc_step ?_)) (umalloc_step ?_))
    (ufree_step ?_ ?_)) (umalloc_step ?_), ?_⟩
  · decide
  · decide
  · decide
  · decide
  · decide
  · simp only [List.nil_append, List.cons_append, List.forall_mem_cons]
    simp

theorem reuseArena_partitioned : ∃ free,
    reuseArena.heap.Lists 0 free ∧ reuseArena.Partitioned lowPages free ∧
    reuseArena.out = [⟨12, 3⟩, ⟨513, 2⟩] := by
  obtain ⟨tr, h, hreq⟩ := reuseArena_run
  obtain ⟨free, hl, hpart, -⟩ := arena_partitioned ⟨Nat.zero_lt_one, fun _ => rfl⟩ h
    ⟨rfl, rfl, rfl, rfl⟩ hreq (by decide)
  exact ⟨free, hl, hpart, by decide⟩

end Lwt
