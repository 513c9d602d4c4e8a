import Lwt.Umalloc

/-! The list of free blocks in the memory of the allocator, and what `ufree` and `umalloc` make of
it: the blocks stay in the order of their addresses, and hold the same units as before, with
those of the block that is freed or without those of the block that is handed out. -/

namespace Lwt

open Extent

variable {base lo hi : ℕ} {h h' : Heap} {free L R : List Extent} {b r : Extent} {p q bp n u : ℕ}

/-- Blocks in the order of their addresses, between two addresses. -/
structure Ordered (lo hi : ℕ) (bs : List Extent) : Prop where
  sorted : bs.Pairwise fun b b' => b.stop ≤ b'.start
  inside : ∀ b ∈ bs, lo ≤ b.start ∧ b.stop ≤ hi ∧ 0 < b.units

namespace Ordered

theorem nil : Ordered lo hi [] := ⟨.nil, by simp⟩

theorem append : Ordered lo hi (L ++ R) ↔
    Ordered lo hi L ∧ Ordered lo hi R ∧ ∀ b ∈ L, ∀ r ∈ R, b.stop ≤ r.start := by
  constructor
  · rintro ⟨hs, hi⟩
    obtain ⟨hL, hR, hLR⟩ := List.pairwise_append.mp hs
    obtain ⟨hiL, hiR⟩ := List.forall_mem_append.mp hi
    exact ⟨⟨hL, hiL⟩, ⟨hR, hiR⟩, hLR⟩
  · rintro ⟨⟨hL, hiL⟩, ⟨hR, hiR⟩, hLR⟩
    exact ⟨List.pairwise_append.mpr ⟨hL, hR, hLR⟩, List.forall_mem_append.mpr ⟨hiL, hiR⟩⟩

theorem cons : Ordered lo hi (b :: R) ↔
    (lo ≤ b.start ∧ b.stop ≤ hi ∧ 0 < b.units) ∧ Ordered lo hi R ∧ ∀ r ∈ R, b.stop ≤ r.start := by
  constructor
  · rintro ⟨hs, hi⟩
    obtain ⟨hb, hR⟩ := List.pairwise_cons.mp hs
    obtain ⟨hib, hiR⟩ := List.forall_mem_cons.mp hi
    exact ⟨hib, ⟨hR, hiR⟩, hb⟩
  · rintro ⟨hib, ⟨hR, hiR⟩, hb⟩
    exact ⟨List.pairwise_cons.mpr ⟨hb, hR⟩, List.forall_mem_cons.mpr ⟨hib, hiR⟩⟩

theorem mono {hi' : ℕ} (h : Ordered lo hi free) (hle : hi ≤ hi') : Ordered lo hi' free :=
  ⟨h.sorted, fun b hb => ⟨(h.inside b hb).1, (h.inside b hb).2.1.trans hle, (h.inside b hb).2.2⟩⟩

/-- The blocks around one. -/
theorem around (h : Ordered lo hi (L ++ b :: R)) :
    (∀ f ∈ L, f.start < b.start) ∧ ∀ f ∈ R, b.start < f.start := by
  obtain ⟨hL, hbR, hLR⟩ := append.mp h
  obtain ⟨⟨-, -, hb⟩, -, hR⟩ := cons.mp hbR
  constructor
  · intro f hf
    have hstop : f.start + f.units ≤ b.start := hLR f hf b (by simp)
    have := (hL.inside f hf).2.2
    omega
  · intro f hf
    have hstop : b.start + b.units ≤ f.start := hR f hf
    omega

/-- A block takes its place between those before and those behind it. -/
theorem insert (h : Ordered lo hi (L ++ R)) (hb : lo ≤ b.start ∧ b.stop ≤ hi ∧ 0 < b.units)
    (ha : ∀ f ∈ L ++ R, f.Apart b) (hL : ∀ f ∈ L, f.start < b.start)
    (hR : ∀ f ∈ R, b.start < f.start) : Ordered lo hi (L ++ b :: R) := by
  obtain ⟨hoL, hoR, hLR⟩ := append.mp h
  refine append.mpr ⟨hoL, cons.mpr ⟨hb, hoR, fun f hf => ?_⟩, fun f hf g hg => ?_⟩
  · have hpos := (hoR.inside f hf).2.2
    rcases (ha f (List.mem_append_right _ hf)).symm.order hb.2.2 hpos with hle | hle
    · exact hle
    · have := hR f hf
      unfold stop at hle
      omega
  · rcases List.mem_cons.mp hg with rfl | hg
    · have hpos := (hoL.inside f hf).2.2
      rcases (ha f (List.mem_append_left _ hf)).order hpos hb.2.2 with hle | hle
      · exact hle
      · have := hL f hf
        unfold stop at hle
        omega
    · exact hLR f hf g hg

/-- Two neighbours that touch become one block. -/
theorem join (h : Ordered lo hi (L ++ b :: r :: R)) (hbr : b.stop = r.start) :
    Ordered lo hi (L ++ ⟨b.start, b.units + r.units⟩ :: R) := by
  obtain ⟨hL, hbR, hLR⟩ := append.mp h
  obtain ⟨⟨hlo, -, hb⟩, hrR, -⟩ := cons.mp hbR
  obtain ⟨⟨-, hhi, -⟩, hR, hrR⟩ := cons.mp hrR
  have hstop : stop ⟨b.start, b.units + r.units⟩ = r.stop := by
    simp only [stop] at hbr ⊢
    omega
  refine append.mpr ⟨hL, cons.mpr ⟨⟨hlo, hstop ▸ hhi, Nat.add_pos_left hb _⟩, hR, fun f hf => ?_⟩,
    fun f hf g hg => ?_⟩
  · rw [hstop]
    exact hrR f hf
  · rcases List.mem_cons.mp hg with rfl | hg
    · exact hLR f hf b (by simp)
    · exact hLR f hf g (by simp [hg])

/-- The size of a joined block does not wrap. -/
theorem uint_join (h : Ordered lo hi (L ++ b :: r :: R)) (hhi : hi < lo + 4294967296)
    (hbr : b.stop = r.start) : uint (b.units + r.units) = b.units + r.units := by
  have hb := (h.inside b (by simp)).1
  have hr := (h.inside r (by simp)).2.1
  simp only [stop] at hbr hr
  exact Nat.mod_eq_of_lt (by omega)

theorem remove (h : Ordered lo hi (L ++ b :: R)) : Ordered lo hi (L ++ R) := by
  obtain ⟨hL, hbR, hLR⟩ := append.mp h
  exact append.mpr ⟨hL, (cons.mp hbR).2.1, fun f hf g hg => hLR f hf g (List.mem_cons_of_mem _ hg)⟩

/-- A block loses its last units. -/
theorem shrink (h : Ordered lo hi (L ++ b :: R)) (hn : 0 < n) (hle : n ≤ b.units) :
    Ordered lo hi (L ++ ⟨b.start, n⟩ :: R) := by
  obtain ⟨hL, hbR, hLR⟩ := append.mp h
  obtain ⟨⟨hlo, hhi, -⟩, hR, hb⟩ := cons.mp hbR
  have hstop : stop ⟨b.start, n⟩ ≤ b.stop := Nat.add_le_add_left hle _
  refine append.mpr ⟨hL, cons.mpr ⟨⟨hlo, hstop.trans hhi, hn⟩, hR, fun f hf => ?_⟩,
    fun f hf g hg => ?_⟩
  · exact hstop.trans (hb f hf)
  · rcases List.mem_cons.mp hg with rfl | hg
    · exact hLR f hf b (by simp)
    · exact hLR f hf g (List.mem_cons_of_mem _ hg)

end Ordered

/-- No two blocks touch. -/
def Spaced (bs : List Extent) : Prop := bs.Pairwise fun b b' => b.stop < b'.start

theorem Spaced.cons (hR : Spaced R) (hb : ∀ f ∈ R, b.stop < f.start) : Spaced (b :: R) :=
  List.pairwise_cons.mpr ⟨hb, hR⟩

/-- A block that does not touch the one behind it. -/
theorem Ordered.spaced_cons (ho : Ordered lo hi (b :: R)) (hR : Spaced R)
    (hne : ∀ f ∈ R.head?, b.stop ≠ f.start) : Spaced (b :: R) := by
  refine hR.cons fun f hf => ?_
  have hle := (Ordered.cons.mp ho).2.2
  cases R with
  | nil => simp at hf
  | cons r R =>
    have hr : b.stop < r.start := lt_of_le_of_ne (hle r (by simp)) (hne r rfl)
    rcases List.mem_cons.mp hf with rfl | hf
    · exact hr
    · have hor : Ordered lo hi ([] ++ r :: R) := (Ordered.cons.mp ho).2.1
      exact hr.trans (hor.around.2 f hf)

/-- Blocks that do not touch the one behind them. -/
theorem Ordered.spaced_append (ho : Ordered lo hi (L ++ b :: R)) (hL : Spaced L)
    (hR : Spaced (b :: R)) (hne : ∀ f ∈ L.getLast?, f.stop ≠ b.start) :
    Spaced (L ++ b :: R) := by
  refine List.pairwise_append.mpr ⟨hL, hR, fun f hf g hg => ?_⟩
  have hlt : f.stop < b.start := by
    have hle := (Ordered.append.mp ho).2.2
    rcases List.eq_nil_or_concat' L with rfl | ⟨L, l, rfl⟩
    · simp at hf
    · have hl : l.stop < b.start := lt_of_le_of_ne (hle l (by simp) b (by simp)) (hne l (by simp))
      rcases List.mem_append.mp hf with hf | hf
      · have hfl : f.stop < l.start := (List.pairwise_append.mp hL).2.2 f hf l (by simp)
        unfold stop at hfl hl ⊢
        omega
      · rwa [List.mem_singleton.mp hf]
  rcases List.mem_cons.mp hg with rfl | hg
  · exact hlt
  · exact hlt.trans (ho.around.2 g hg)

theorem Spaced.join (hs : Spaced (r :: R)) (hbr : b.stop = r.start) :
    Spaced (⟨b.start, b.units + r.units⟩ :: R) := by
  obtain ⟨hr, hR⟩ := List.pairwise_cons.mp hs
  refine Spaced.cons hR fun f hf => ?_
  have hlt := hr f hf
  unfold stop at hbr hlt ⊢
  dsimp only
  omega

theorem Spaced.shrink (hs : Spaced (L ++ b :: R)) (ho : Ordered lo hi (L ++ ⟨b.start, n⟩ :: R))
    (hle : n ≤ b.units) : Spaced (L ++ ⟨b.start, n⟩ :: R) := by
  obtain ⟨hL, hbR, hLb⟩ := List.pairwise_append.mp hs
  obtain ⟨hbR, hR⟩ := List.pairwise_cons.mp hbR
  refine ho.spaced_append hL (Spaced.cons hR fun f hf => ?_) fun f hf => ?_
  · have hlt := hbR f hf
    unfold stop at hlt ⊢
    dsimp only
    omega
  · exact (hLb f (List.mem_of_getLast? hf) b (by simp)).ne

/-- Joining neighbours moves no unit. -/
theorem tally_join (hbr : b.stop = r.start) :
    tally (L ++ ⟨b.start, b.units + r.units⟩ :: R) u = tally (L ++ b :: r :: R) u := by
  have hsplit : tally [⟨b.start, b.units + r.units⟩] u = tally [b] u + tally [r] u := by
    rw [tally_split, show b.start + b.units = r.start from hbr]
  have hr : tally (r :: R) u = tally [r] u + tally R u := tally_cons
  rw [tally_append_cons, hsplit, tally_append_cons, hr, Nat.add_assoc]

structure FreeList (base : ℕ) (h : Heap) (free : List Extent) : Prop where
  linked : Linked h.ptr base (free.map start) base
  size : ∀ b ∈ free, h.size b.start = b.units
  base_size : h.size base = 0
  freep : ∃ p ∈ base :: free.map start, h.freep = some p

def lastNode (base : ℕ) (L : List Extent) : ℕ := (base :: L.map start).getLast (by simp)

@[simp] theorem lastNode_nil : lastNode base [] = base := rfl

@[simp] theorem lastNode_concat : lastNode base (L ++ [b]) = b.start := by simp [lastNode]

theorem lastNode_mem : lastNode base L ∈ base :: L.map start := List.getLast_mem _

/-- A node of the list splits it. -/
theorem exists_split (hp : p ∈ base :: free.map start) :
    ∃ L R, free = L ++ R ∧ lastNode base L = p := by
  rcases List.mem_cons.mp hp with rfl | hp
  · exact ⟨[], free, rfl, rfl⟩
  · obtain ⟨b, hb, rfl⟩ := List.mem_map.mp hp
    obtain ⟨L, R, rfl⟩ := List.append_of_mem hb
    exact ⟨L ++ [b], R, by simp, by simp⟩

namespace FreeList

/-- The list on both sides of a node. -/
theorem split (hl : FreeList base h (L ++ R)) :
    Linked h.ptr base (L.map start) (h.ptr (lastNode base L)) ∧
      Linked h.ptr (lastNode base L) (R.map start) base := by
  have hlinked := hl.linked
  rw [List.map_append] at hlinked
  exact Linked.cut.mp hlinked

/-- The block behind a node. -/
theorem ptr_lastNode (hl : FreeList base h (L ++ R)) :
    h.ptr (lastNode base L) = (R.map start).headD base := by
  have hr := hl.split.2
  cases R with
  | nil => exact hr
  | cons r R => exact hr.1

end FreeList

/-- The last node before some blocks in order lies before them. -/
theorem Ordered.lastNode_lt (ho : Ordered lo hi (L ++ R)) (hbase : base < lo) :
    (∀ f ∈ L, f.start ≤ lastNode base L) ∧ ∀ f ∈ R, lastNode base L < f.start := by
  rcases List.eq_nil_or_concat' L with rfl | ⟨L, b, rfl⟩
  · exact ⟨by simp, fun f hf => hbase.trans_le (ho.inside f hf).1⟩
  · rw [List.append_assoc, List.singleton_append] at ho
    obtain ⟨hL, hR⟩ := ho.around
    rw [lastNode_concat]
    refine ⟨fun f hf => ?_, hR⟩
    rcases List.mem_append.mp hf with hf | hf
    · exact (hL f hf).le
    · rw [List.mem_singleton.mp hf]

/-- An address between blocks in order parts them. -/
theorem Ordered.exists_part (ho : Ordered lo hi free) (hne : ∀ f ∈ free, f.start ≠ bp) :
    ∃ L R, free = L ++ R ∧ (∀ f ∈ L, f.start < bp) ∧ ∀ f ∈ R, bp < f.start := by
  induction free with
  | nil => exact ⟨[], [], rfl, by simp, by simp⟩
  | cons b free ih =>
    rcases lt_or_gt_of_ne (hne b (by simp)) with hlt | hgt
    · obtain ⟨L, R, rfl, hL, hR⟩ := ih (Ordered.cons.mp ho).2.1
        fun f hf => hne f (List.mem_cons_of_mem _ hf)
      exact ⟨b :: L, R, rfl, List.forall_mem_cons.mpr ⟨hlt, hL⟩, hR⟩
    · have ho' : Ordered lo hi ([] ++ b :: free) := ho
      refine ⟨[], b :: free, rfl, by simp, List.forall_mem_cons.mpr ⟨hgt, fun f hf => ?_⟩⟩
      exact hgt.trans (ho'.around.2 f hf)

namespace FreeList

variable {p₀ : ℕ}

/-- The loop of `ufree` ends at the last node before `bp`. -/
theorem findFree_ok (hl : FreeList base h free) (ho : Ordered lo hi free) (hbase : base < lo)
    (hbp : lo ≤ bp) (hp₀ : p₀ ∈ base :: free.map start) (hf : h.findFree bp n p₀ = some p) :
    ∃ L R, free = L ++ R ∧ lastNode base L = p ∧ (∀ f ∈ L, f.start < bp) ∧
      ∀ f ∈ R, bp < f.start := by
  have hkeep (p : ℕ) (hp : p ∈ base :: free.map start) : h.ptr p ∈ base :: free.map start := by
    rcases hl.linked.next_mem hp with hn | hn
    · exact List.mem_cons_of_mem _ hn
    · rw [hn]
      exact List.mem_cons_self
  obtain ⟨hp, hdone⟩ := loopUntil_ok hf hp₀ fun p hp _ => hkeep p hp
  obtain ⟨L, R, rfl, rfl⟩ := exists_split hp
  obtain ⟨hlast, hnext⟩ := ho.lastNode_lt hbase
  have hptr := hl.ptr_lastNode
  refine ⟨L, R, rfl, rfl, ?_⟩
  cases R with
  | nil =>
    -- behind the last block the list comes back to its base
    have hptr : h.ptr (lastNode base L) = base := hptr
    refine ⟨fun f hf => (hlast f hf).trans_lt ?_, by simp⟩
    rw [hptr] at hdone
    omega
  | cons r R =>
    have hptr : h.ptr (lastNode base L) = r.start := hptr
    have hr := hnext r (by simp)
    rw [hptr] at hdone
    obtain ⟨hlt, hgt⟩ : lastNode base L < bp ∧ bp < r.start := by omega
    refine ⟨fun f hf => (hlast f hf).trans_lt hlt, List.forall_mem_cons.mpr ⟨hgt, fun f hf => ?_⟩⟩
    have hor : Ordered lo hi ([] ++ r :: R) := (Ordered.append.mp ho).2.1
    exact hgt.trans (hor.around.2 f hf)

/-- The loop of `ufree` ends. -/
theorem exists_findFree (hl : FreeList base h free) (ho : Ordered lo hi free) (hbase : base < lo)
    (hbp : lo ≤ bp) (hne : ∀ f ∈ free, f.start ≠ bp) (hp₀ : p₀ ∈ base :: free.map start) :
    ∃ n p, h.findFree bp n p₀ = some p := by
  obtain ⟨L, R, rfl, hL, hR⟩ := ho.exists_part hne
  have hmem : lastNode base L ∈ base :: (L ++ R).map start := by
    rw [List.map_append, ← List.cons_append]
    exact List.mem_append_left _ lastNode_mem
  obtain ⟨k, hk⟩ := hl.linked.reach hp₀ hmem
  have hptr := hl.ptr_lastNode
  have hlt : base ≤ lastNode base L ∧ lastNode base L < bp := by
    rcases List.mem_cons.mp (lastNode_mem : lastNode base L ∈ _) with hb | hb
    · rw [hb]
      omega
    · obtain ⟨f, hf, hb⟩ := List.mem_map.mp hb
      rw [← hb]
      exact ⟨hbase.le.trans (ho.inside f (List.mem_append_left _ hf)).1, hL f hf⟩
  refine exists_loopUntil (n := k + 1) ?_
  rw [hk]
  cases R with
  | nil =>
    have hptr : h.ptr (lastNode base L) = base := hptr
    rw [hptr]
    omega
  | cons r R =>
    have hptr : h.ptr (lastNode base L) = r.start := hptr
    have := hR r (by simp)
    rw [hptr]
    omega

end FreeList

/-- Extent `b` is linked to the blocks `R` behind it, but not to the blocks `L` before it. -/
structure Linking (base : ℕ) (h : Heap) (L R : List Extent) (b : Extent) : Prop where
  left : Linked h.ptr base (L.map start) (h.ptr (lastNode base L))
  right : Linked h.ptr b.start (R.map start) base
  size : ∀ f ∈ L ++ b :: R, h.size f.start = f.units
  base_size : h.size base = 0

section Nodes

variable (ho : Ordered lo hi (L ++ b :: R)) (hbase : base < lo)

include ho hbase

/-- The base of the list and the blocks around `b` are not at its address. -/
theorem Ordered.ne_start : b.start ≠ base ∧ (∀ f ∈ L, f.start ≠ b.start) ∧
    ∀ f ∈ R, f.start ≠ b.start := by
  obtain ⟨hL, hR⟩ := ho.around
  have hb := (ho.inside b (by simp)).1
  exact ⟨by omega, fun f hf => (hL f hf).ne, fun f hf => (hR f hf).ne'⟩

theorem Ordered.lastNode_ne : ∀ x ∈ base :: L.map start, x ≠ b.start := by
  obtain ⟨hb, hL, -⟩ := ho.ne_start hbase
  intro x hx
  rcases List.mem_cons.mp hx with rfl | hx
  · exact hb.symm
  · obtain ⟨f, hf, rfl⟩ := List.mem_map.mp hx
    exact hL f hf

/-- The nodes before the last one lie before it. -/
theorem Ordered.dropLast_ne : ∀ x ∈ (base :: L.map start).dropLast, x ≠ lastNode base L := by
  rcases List.eq_nil_or_concat' L with rfl | ⟨L, l, rfl⟩
  · simp
  · rw [List.append_assoc, List.singleton_append] at ho
    rw [List.map_append, List.map_singleton, ← List.cons_append, List.dropLast_concat,
      lastNode_concat]
    exact ho.lastNode_ne hbase

end Nodes

/-- `b` takes in the block behind it, which it touches. -/
theorem FreeList.joined (hl : FreeList base h (L ++ r :: R))
    (ho : Ordered lo hi (L ++ b :: r :: R)) (hbase : base < lo) :
    Linking base ((h.setSize b.start (b.units + r.units)).setPtr b.start (h.ptr r.start)) L R
      ⟨b.start, b.units + r.units⟩ := by
  obtain ⟨hne, hneL, hneR⟩ := ho.ne_start hbase
  have hnode := ho.lastNode_ne hbase
  obtain ⟨hleft, hright⟩ := hl.split
  have hright : Linked h.ptr r.start (R.map start) base := hright.2
  have hlast : lastNode base L ≠ b.start := hnode _ lastNode_mem
  have hsize (f : Extent) (hf : f ∈ L ++ r :: R) : h.size f.start = f.units := hl.size f hf
  have hne' : ∀ x ∈ r.start :: R.map start, x ≠ b.start := by
    simpa using hneR
  constructor
  · rw [Heap.setPtr_ptr, Function.update_of_ne hlast]
    exact hleft.congr fun x hx => Function.update_of_ne (hnode x hx) _ _
  · refine (hright.congr fun x hx => Function.update_of_ne (hne' x hx) _ _).of_next ?_
    simp [hne' r.start (by simp)]
  · intro f hf
    rcases List.mem_append.mp hf with hfL | hf
    · simp [hneL f hfL, hsize f (by simp [hfL])]
    · rcases List.mem_cons.mp hf with rfl | hfR
      · simp
      · simp [hneR f (by simp [hfR]), hsize f (by simp [hfR])]
  · simp [hne.symm, hl.base_size]

/-- `b` is linked to the blocks behind it. -/
theorem FreeList.attached (hl : FreeList base h (L ++ R)) (ho : Ordered lo hi (L ++ b :: R))
    (hbase : base < lo) (hb : h.size b.start = b.units) :
    Linking base (h.setPtr b.start (h.ptr (lastNode base L))) L R b := by
  obtain ⟨-, -, hneR⟩ := ho.ne_start hbase
  have hnode := ho.lastNode_ne hbase
  obtain ⟨hleft, hright⟩ := hl.split
  have hlast : lastNode base L ≠ b.start := hnode _ lastNode_mem
  constructor
  · rw [Heap.setPtr_ptr, Function.update_of_ne hlast]
    exact hleft.congr fun x hx => Function.update_of_ne (hnode x hx) _ _
  · have hne' : ∀ x ∈ lastNode base L :: R.map start, x ≠ b.start := by
      simpa using ⟨hlast, hneR⟩
    refine (hright.congr fun x hx => Function.update_of_ne (hne' x hx) _ _).of_next ?_
    simp [hlast]
  · intro f hf
    rcases List.mem_append.mp hf with hfL | hf
    · exact hl.size f (List.mem_append_left _ hfL)
    · rcases List.mem_cons.mp hf with rfl | hfR
      · exact hb
      · exact hl.size f (List.mem_append_right _ hfR)
  · exact hl.base_size

/-- What `ufree` does to the blocks behind the one that is freed. -/
theorem joinUpper_ok (ho : Ordered lo hi (L ++ b :: R)) (hbase : base < lo)
    (hl : FreeList base h (L ++ R)) (hhi : hi < lo + 4294967296)
    (hb : h.size b.start = b.units) : ∃ b' R',
      Linking base (h.joinUpper b.start (lastNode base L)) L R' b' ∧ b'.start = b.start ∧
      b.units ≤ b'.units ∧ Ordered lo hi (L ++ b' :: R') ∧ (Spaced R → Spaced (b' :: R')) ∧
      ∀ u, tally (L ++ b' :: R') u = tally (L ++ b :: R) u := by
  have hptr := hl.ptr_lastNode
  unfold Heap.joinUpper
  split_ifs with hj
  · cases R with
    | nil =>
      -- the base lies before all blocks
      have hptr : h.ptr (lastNode base L) = base := hptr
      have := (ho.inside b (by simp)).1
      omega
    | cons r R =>
      have hptr : h.ptr (lastNode base L) = r.start := hptr
      have hr : h.size r.start = r.units := hl.size r (by simp)
      rw [hptr, hb] at hj
      rw [hptr, hb, hr]
      have hstop : b.stop = r.start := hj
      rw [ho.uint_join hhi hstop]
      exact ⟨⟨b.start, b.units + r.units⟩, R, hl.joined ho hbase, rfl, Nat.le_add_right _ _,
        ho.join hstop, fun hs => hs.join hstop, fun u => tally_join hstop⟩
  · have hsp (hR : Spaced R) : Spaced (b :: R) := by
      refine (Ordered.append.mp ho).2.1.spaced_cons hR fun f hf he => hj ?_
      obtain ⟨R', rfl⟩ := List.head?_eq_some_iff.mp hf
      rw [hb]
      exact he.trans hptr.symm
    exact ⟨b, R, hl.attached ho hbase hb, rfl, le_rfl, ho, hsp, fun u => rfl⟩

/-- The block before `b`, which touches it, takes it in. -/
theorem Linking.joined {l : Extent} (hk : Linking base h (L ++ [l]) R b)
    (ho : Ordered lo hi (L ++ l :: b :: R)) (hbase : base < lo) :
    FreeList base (((h.setSize l.start (l.units + b.units)).setPtr l.start (h.ptr b.start)).setFreep
      l.start) (L ++ ⟨l.start, l.units + b.units⟩ :: R) := by
  obtain ⟨hleft, hright, hsize, hbase_size⟩ := hk
  obtain ⟨hne, hneL, hneR⟩ := ho.ne_start hbase
  have hne' : ∀ x ∈ b.start :: R.map start, x ≠ l.start := by
    simpa using hneR
  refine ⟨?_, fun f hf => ?_, ?_, l.start, by simp, rfl⟩
  · rw [List.map_append] at hleft
    rw [List.map_append, List.map_cons]
    refine Linked.append.mpr ⟨?_, ?_⟩
    · refine (Linked.append.mp hleft).1.congr fun x hx => ?_
      exact Function.update_of_ne (ho.lastNode_ne hbase x hx) _ _
    · refine (hright.congr fun x hx => Function.update_of_ne (hne' x hx) _ _).of_next ?_
      simp [hne' b.start (by simp)]
  · rcases List.mem_append.mp hf with hfL | hf
    · simp [hneL f hfL, hsize f (by simp [hfL])]
    · rcases List.mem_cons.mp hf with rfl | hfR
      · simp
      · simp [hneR f (by simp [hfR]), hsize f (by simp [hfR])]
  · simp [hne.symm, hbase_size]

/-- The block before `b` is linked to it. -/
theorem Linking.attached (hk : Linking base h L R b) (ho : Ordered lo hi (L ++ b :: R))
    (hbase : base < lo) : FreeList base
      ((h.setPtr (lastNode base L) b.start).setFreep (lastNode base L)) (L ++ b :: R) := by
  obtain ⟨hleft, hright, hsize, hbase_size⟩ := hk
  refine ⟨?_, hsize, hbase_size, lastNode base L, ?_, rfl⟩
  · rw [List.map_append, List.map_cons]
    refine Linked.append.mpr ⟨?_, ?_⟩
    · refine hleft.redirect (fun x hx => Function.update_of_ne (ho.dropLast_ne hbase x hx) _ _) ?_
      exact Function.update_self _ _ _
    · have hlt := (ho.lastNode_lt hbase).2
      have hne' : ∀ x ∈ b.start :: R.map start, x ≠ lastNode base L := by
        simpa using ⟨(hlt b (by simp)).ne', fun f hf => (hlt f (by simp [hf])).ne'⟩
      exact hright.congr fun x hx => Function.update_of_ne (hne' x hx) _ _
  · rw [List.map_append, ← List.cons_append]
    exact List.mem_append_left _ lastNode_mem

/-- What `ufree` does to the blocks before the one that is freed. -/
theorem joinLower_ok (ho : Ordered lo hi (L ++ b :: R)) (hbase : base < lo)
    (hk : Linking base h L R b) (hhi : hi < lo + 4294967296) : ∃ free',
    FreeList base ((h.joinLower b.start (lastNode base L)).setFreep (lastNode base L)) free' ∧
      (∃ f ∈ free', b.units ≤ f.units) ∧ Ordered lo hi free' ∧
      (Spaced L → Spaced (b :: R) → Spaced free') ∧
      ∀ u, tally free' u = tally (L ++ b :: R) u := by
  have hb : h.size b.start = b.units := hk.size b (by simp)
  unfold Heap.joinLower
  split_ifs with hj
  · rcases List.eq_nil_or_concat' L with rfl | ⟨L, l, rfl⟩
    · -- the base lies before all blocks
      have := (ho.inside b (by simp)).1
      rw [lastNode_nil, hk.base_size] at hj
      omega
    · rw [List.append_assoc, List.singleton_append] at ho
      have hl : h.size l.start = l.units := hk.size l (by simp)
      rw [lastNode_concat, hl] at hj
      rw [lastNode_concat, hl, hb]
      have hstop : l.stop = b.start := hj
      rw [ho.uint_join hhi hstop]
      have hjoin := ho.join hstop
      have hsp (hL : Spaced (L ++ [l])) (hR : Spaced (b :: R)) :
          Spaced (L ++ ⟨l.start, l.units + b.units⟩ :: R) := by
        obtain ⟨hL, -, hLl⟩ := List.pairwise_append.mp hL
        exact hjoin.spaced_append hL (hR.join hstop) fun f hf =>
          (hLl f (List.mem_of_getLast? hf) l (by simp)).ne
      refine ⟨L ++ ⟨l.start, l.units + b.units⟩ :: R, hk.joined ho hbase, ?_, hjoin, hsp,
        fun u => ?_⟩
      · exact ⟨⟨l.start, l.units + b.units⟩, by simp, Nat.le_add_left _ _⟩
      · rw [List.append_assoc, List.singleton_append]
        exact tally_join hstop
  · have hsp (hL : Spaced L) (hR : Spaced (b :: R)) : Spaced (L ++ b :: R) := by
      refine ho.spaced_append hL hR fun f hf he => hj ?_
      obtain ⟨L', rfl⟩ := List.getLast?_eq_some_iff.mp hf
      rw [lastNode_concat, hk.size f (by simp)]
      exact he
    exact ⟨L ++ b :: R, hk.attached ho hbase, ⟨b, by simp, le_rfl⟩, ho, hsp, fun u => rfl⟩

section Frame

theorem joinUpper_size (hu : u ≠ bp) : (h.joinUpper bp p).size u = h.size u := by
  unfold Heap.joinUpper
  split_ifs <;> simp [hu]

theorem joinLower_size (hu : u ≠ p) : (h.joinLower bp p).size u = h.size u := by
  unfold Heap.joinLower
  split_ifs <;> simp [hu]

/-- `ufree` takes no pages. -/
theorem ufree_fields {ap : ℕ} (hf : h.ufree n ap = some h') :
    h'.npages = h.npages ∧ h'.added = h.added ∧ ∃ p, h'.freep = some p := by
  unfold Heap.ufree at hf
  split at hf
  · cases hf
  · obtain ⟨p, -, hf⟩ := Option.bind_eq_some_iff.mp hf
    cases hf
    unfold Heap.joinUpper Heap.joinLower
    split_ifs <;> exact ⟨rfl, rfl, p, rfl⟩

end Frame

namespace FreeList

section Ufree

variable (hl : FreeList base h free) (ho : Ordered lo hi free) (hbase : base < lo)
  (hb : lo ≤ b.start ∧ b.stop ≤ hi ∧ 0 < b.units) (ha : ∀ f ∈ free, f.Apart b)

include hl ho hbase hb ha

/-- `ufree` puts a block on the list. -/
theorem ufree_ok (hhi : hi < lo + 4294967296) (hsize : h.size b.start = b.units)
    (hf : h.ufree n (b.start + 1) = some h') : ∃ free', FreeList base h' free' ∧
      Ordered lo hi free' ∧ (∃ f ∈ free', b.units ≤ f.units) ∧ (Spaced free → Spaced free') ∧
      (∀ u, tally free' u = tally (b :: free) u) ∧
      ∀ u, u ≠ b.start → u ∉ base :: free.map start → h'.size u = h.size u := by
  obtain ⟨p₀, hp₀, hfreep⟩ := hl.freep
  simp only [Heap.ufree, Nat.add_sub_cancel, hfreep, Option.bind_eq_bind,
    Option.bind_eq_some_iff, Option.some.injEq] at hf
  obtain ⟨p, hp, rfl⟩ := hf
  obtain ⟨L, R, rfl, rfl, hL, hR⟩ := hl.findFree_ok ho hbase hb.1 hp₀ hp
  have hins : Ordered lo hi (L ++ b :: R) := ho.insert hb ha hL hR
  obtain ⟨b', R', hk, hstart, hunits, hord, hsp, htally⟩ := joinUpper_ok hins hbase hl hhi hsize
  obtain ⟨free', hl', ⟨f, hf, hle⟩, hord', hsp', htally'⟩ := joinLower_ok hord hbase hk hhi
  rw [hstart] at hl'
  refine ⟨free', hl', hord', ⟨f, hf, hunits.trans hle⟩, fun hs => ?_, fun u => ?_,
    fun u hu hnode => ?_⟩
  · obtain ⟨hL, hR, -⟩ := List.pairwise_append.mp hs
    exact hsp' hL (hsp hR)
  · rw [htally', htally]
    exact tally_perm List.perm_middle
  · have hlast : u ≠ lastNode base L := by
      rintro rfl
      rw [List.map_append, ← List.cons_append] at hnode
      exact hnode (List.mem_append_left _ lastNode_mem)
    rw [Heap.setFreep_size, joinLower_size hlast, joinUpper_size hu]

/-- `ufree` returns. -/
theorem exists_ufree : ∃ n h', h.ufree n (b.start + 1) = some h' := by
  obtain ⟨p₀, hp₀, hfreep⟩ := hl.freep
  have hne (f : Extent) (hf : f ∈ free) : f.start ≠ b.start := by
    intro he
    have hpos := (ho.inside f hf).2.2
    exact ha f hf b.start ⟨he ▸ holds_start hpos, holds_start hb.2.2⟩
  obtain ⟨n, p, hp⟩ := hl.exists_findFree ho hbase hb.1 hne hp₀
  exact ⟨n, ((h.joinUpper b.start p).joinLower b.start p).setFreep p,
    by simp [Heap.ufree, hfreep, hp]⟩

end Ufree

/-- Block `f` is taken out of the list. -/
theorem taken {f : Extent} (hl : FreeList base h (L ++ f :: R))
    (ho : Ordered lo hi (L ++ f :: R)) (hbase : base < lo) :
    FreeList base ((h.setPtr (lastNode base L) (h.ptr f.start)).setFreep (lastNode base L))
      (L ++ R) := by
  obtain ⟨hleft, hright⟩ := hl.split
  have hright : Linked h.ptr f.start (R.map start) base := hright.2
  have hlt := (ho.lastNode_lt hbase).2
  have hne : ∀ x ∈ f.start :: R.map start, x ≠ lastNode base L := by
    simpa using ⟨(hlt f (by simp)).ne', fun r hr => (hlt r (by simp [hr])).ne'⟩
  refine ⟨?_, fun b hb => hl.size b ?_, hl.base_size, lastNode base L, ?_, rfl⟩
  · rw [List.map_append]
    refine Linked.cut.mpr ⟨?_, ?_⟩
    · exact hleft.redirect (fun x hx => Function.update_of_ne (ho.dropLast_ne hbase x hx) _ _) rfl
    · refine (hright.congr fun x hx => Function.update_of_ne (hne x hx) _ _).of_next ?_
      change Function.update h.ptr (lastNode base L) _ (lastNode base L) = _
      rw [Function.update_self]
      exact (Function.update_of_ne (hne f.start (by simp)) _ _).symm
  · rcases List.mem_append.mp hb with hb | hb <;> simp [hb]
  · rw [List.map_append, ← List.cons_append]
    exact List.mem_append_left _ lastNode_mem

/-- Block `f` stays in the list without its last `n` units. -/
theorem cut {f : Extent} (hl : FreeList base h (L ++ f :: R)) (ho : Ordered lo hi (L ++ f :: R))
    (hbase : base < lo) (hn : 0 < n) (hlt : n < f.units) :
    FreeList base (((h.setSize f.start (f.units - n)).setSize (f.start + (f.units - n)) n).setFreep
      (lastNode base L)) (L ++ ⟨f.start, f.units - n⟩ :: R) := by
  obtain ⟨-, hneL, hneR⟩ := ho.ne_start hbase
  have hlo := (ho.inside f (by simp)).1
  have hstop : f.start + (f.units - n) < f.stop := by
    unfold stop
    omega
  have hsize : ∀ b ∈ L ++ f :: R, b.start ≠ f.start → b.start ≠ f.start + (f.units - n) →
      Function.update (Function.update h.size f.start (f.units - n))
        (f.start + (f.units - n)) n b.start = b.units := by
    intro b hb h1 h2
    rw [Function.update_of_ne h2, Function.update_of_ne h1]
    exact hl.size b hb
  refine ⟨?_, fun b hb => ?_, ?_, lastNode base L, ?_, rfl⟩
  · have hlinked : Linked h.ptr base ((L ++ ⟨f.start, f.units - n⟩ :: R).map start) base := by
      simpa using hl.linked
    exact hlinked
  · rcases List.mem_append.mp hb with hbL | hb
    · have := ho.around.1 b hbL
      exact hsize b (by simp [hbL]) (hneL b hbL) (by omega)
    · rcases List.mem_cons.mp hb with rfl | hbR
      · refine (Function.update_of_ne (by simp; omega) _ _).trans ?_
        exact Function.update_self _ _ _
      · have := (Ordered.cons.mp (Ordered.append.mp ho).2.1).2.2 b hbR
        exact hsize b (by simp [hbR]) (hneR b hbR) (by omega)
  · refine (Function.update_of_ne (by omega) _ _).trans ?_
    exact (Function.update_of_ne (by omega) _ _).trans hl.base_size
  · rw [List.map_append, ← List.cons_append]
    exact List.mem_append_left _ lastNode_mem

/-- Part of a block of the list, or all of it, is handed out. -/
theorem carve_ok {f : Extent} {ap : ℕ} (hl : FreeList base h (L ++ f :: R))
    (ho : Ordered lo hi (L ++ f :: R)) (hbase : base < lo) (hn : 0 < n) (hle : n ≤ f.units)
    (hc : h.carve n (lastNode base L) f.start = (h', ap)) : ∃ free', FreeList base h' free' ∧
      Ordered lo hi free' ∧ (Spaced (L ++ f :: R) → Spaced free') ∧
      (∀ u, tally (⟨ap - 1, n⟩ :: free') u = tally (L ++ f :: R) u) ∧
      h'.size (ap - 1) = n ∧ (∀ u, ¬ f.Holds u → h'.size u = h.size u) ∧
      h'.npages = h.npages ∧ h'.added = h.added := by
  have hf : h.size f.start = f.units := hl.size f (by simp)
  have hpos := (ho.inside f (by simp)).2.2
  unfold Heap.carve at hc
  rw [hf] at hc
  split_ifs at hc with hn'
  · cases hc
    have hsp (hs : Spaced (L ++ f :: R)) : Spaced (L ++ R) :=
      hs.sublist ((List.sublist_cons_self f R).append_left L)
    refine ⟨L ++ R, hl.taken ho hbase, ho.remove, hsp, fun u => ?_, hf.trans hn', fun u _ => rfl,
      rfl, rfl⟩
    subst hn'
    exact tally_perm List.perm_middle.symm
  · cases hc
    have hlt : n < f.units := lt_of_le_of_ne hle (Ne.symm hn')
    have hshrink : Ordered lo hi (L ++ ⟨f.start, f.units - n⟩ :: R) :=
      ho.shrink (by omega) (by omega)
    refine ⟨L ++ ⟨f.start, f.units - n⟩ :: R, hl.cut ho hbase hn hlt, hshrink,
      fun hs => hs.shrink hshrink (by omega), fun u => ?_, Function.update_self _ _ _,
      fun u hu => ?_, rfl, rfl⟩
    · have hsplit : tally [f] u =
          tally [⟨f.start, f.units - n⟩] u + tally [⟨f.start + (f.units - n), n⟩] u := by
        rw [← tally_split, Nat.sub_add_cancel hle]
      rw [Nat.add_sub_cancel, tally_cons, tally_append_cons, tally_append_cons, hsplit]
      omega
    · have h1 : u ≠ f.start := by
        rintro rfl
        exact hu (holds_start hpos)
      have h2 : u ≠ f.start + (f.units - n) := by
        rintro rfl
        refine hu ⟨Nat.le_add_right _ _, ?_⟩
        unfold stop
        omega
      exact (Function.update_of_ne h2 _ _).trans (Function.update_of_ne h1 _ _)

end FreeList

end Lwt
