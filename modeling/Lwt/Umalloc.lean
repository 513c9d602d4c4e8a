import Lwt.Lib.Extents
import Lwt.Lib.Threaded
import Lwt.Lib.Transition

/-! The allocator of `umalloc.c`: a circular list of free blocks in the order of their addresses.
Addresses and sizes are counted in units of a `Header`, which is 8 bytes, so that a page is 512
units. -/

namespace Lwt

/-- A sum or product of sizes, which are of type `uint`. -/
def uint (x : ℕ) : ℕ := x % 4294967296

/-- The memory of the allocator: the two fields of every header, the variables of `umalloc.c`,
and the number of pages taken so far. -/
structure Heap where
  ptr : ℕ → ℕ
  size : ℕ → ℕ
  freep : Option ℕ
  npages : ℕ
  /-- What `morecore` has added. -/
  added : List Extent

namespace Heap

variable (h : Heap) (base : ℕ) (page : ℕ → Option ℕ)

@[simps] def setPtr (p q : ℕ) : Heap := { h with ptr := Function.update h.ptr p q }

@[simps] def setSize (p : ℕ) (n : ℕ) : Heap := { h with size := Function.update h.size p n }

@[simps] def setFreep (p : ℕ) : Heap := { h with freep := some p }

/-- The loop of `ufree` from `freep` on: it ends between two blocks around `bp`, or at the last
block if `bp` lies behind it or before the first. -/
def findFree (bp : ℕ) : ℕ → ℕ → Option ℕ :=
  loopUntil
    (fun p => bp > p ∧ bp < h.ptr p ∨ p ≥ h.ptr p ∧ (bp > p ∨ bp < h.ptr p)) h.ptr

/-- The block at `bp` is joined with the one behind `p` or linked to it. -/
def joinUpper (bp p : ℕ) : Heap :=
  if bp + h.size bp = h.ptr p then
    (h.setSize bp (uint (h.size bp + h.size (h.ptr p)))).setPtr bp (h.ptr (h.ptr p))
  else h.setPtr bp (h.ptr p)

/-- The block at `p` is joined with the one at `bp` or linked to it. -/
def joinLower (bp p : ℕ) : Heap :=
  if p + h.size p = bp then (h.setSize p (uint (h.size p + h.size bp))).setPtr p (h.ptr bp)
  else h.setPtr p bp

/-- `ufree`, if its loop ends within `fuel` tests. -/
def ufree (fuel : ℕ) (ap : ℕ) : Option Heap :=
  let bp := ap - 1
  match h.freep with
  -- a null `freep` is dereferenced
  | none => none
  | some freep => do
    let p ← h.findFree bp fuel freep
    some (((h.joinUpper bp p).joinLower bp p).setFreep p)

/-- `morecore`. The result of the `i`-th call of `cos_page_bump_alloc` is `page i`, or `none` for
`(char*)-1`. -/
def morecore (fuel : ℕ) (nu : ℕ) : Option (Heap × Option ℕ) :=
  let p := page h.npages
  let k := uint (nu * 8) / 4096
  let h := { h with npages := h.npages + 1 + k }
  match p with
  | none => some (h, none)
  | some hp => do
    let h : Heap := { h.setSize hp nu with added := h.added ++ [⟨hp, nu⟩] }
    let h ← h.ufree fuel (hp + 1)
    some (h, h.freep)

/-- What `umalloc` does with a block at `p` that is large enough, behind `prevp`. -/
def carve (nunits : ℕ) (prevp p : ℕ) : Heap × ℕ :=
  if h.size p = nunits then ((h.setPtr prevp (h.ptr p)).setFreep prevp, p + 1)
  else
    let n := h.size p - nunits
    ((((h.setSize p n).setSize (p + n) nunits).setFreep prevp), p + n + 1)

/-- The loop of `umalloc`, if it ends within `n` rounds. -/
def mallocLoop (fuel nunits : ℕ) : ℕ → Heap → ℕ → Option (Heap × Option ℕ)
  | 0, _, _ => none
  | n + 1, h, prevp =>
    let p := h.ptr prevp
    if h.size p ≥ nunits then
      let (h, ap) := h.carve nunits prevp p
      some (h, some ap)
    else if some p = h.freep then
      match h.morecore page fuel nunits with
      | none => none
      | some (h, none) => some (h, none)
      | some (h, some p) => mallocLoop fuel nunits n h p
    else mallocLoop fuel nunits n h p

/-- The first call of `umalloc` makes the list, of a block without units. -/
def init : Heap :=
  match h.freep with
  | none => ((h.setPtr base base).setFreep base).setSize base 0
  | some _ => h

def nunits (nbytes : ℕ) : ℕ := uint (nbytes + 7) / 8 + 1

/-- `umalloc`, if its loop ends within `n` rounds and those of `ufree` within `fuel` tests. -/
def umalloc (fuel n : ℕ) (nbytes : ℕ) : Option (Heap × Option ℕ) :=
  let h := h.init base
  mallocLoop page fuel (nunits nbytes) n h (h.freep.getD base)

end Heap

/-- The allocator and the blocks that its callers hold. -/
structure Arena where
  heap : Heap
  out : List Extent

/-- What the callers of the allocator do. -/
inductive Request where
  | umalloc (nbytes : ℕ)
  | ufree (b : Extent)
  /-- Writes to the memory behind the headers of the blocks that are held. -/
  | write

namespace Arena

/-- Unit `u` is a caller's: it is held and no header. -/
def Payload (a : Arena) (u : ℕ) : Prop := ∃ b ∈ a.out, b.Holds u ∧ u ≠ b.start

/-- One call, or writes of the callers. -/
inductive Step (base : ℕ) (page : ℕ → Option ℕ) : Arena → Request → Arena → Prop
  | umalloc {a : Arena} {fuel n nbytes : ℕ} {h : Heap} {ap : ℕ}
      (hm : a.heap.umalloc base page fuel n nbytes = some (h, some ap)) :
      Step base page a (.umalloc nbytes) ⟨h, ⟨ap - 1, (nbytes + 7) / 8 + 1⟩ :: a.out⟩
  | umallocNull {a : Arena} {fuel n nbytes : ℕ} {h : Heap}
      (hm : a.heap.umalloc base page fuel n nbytes = some (h, none)) :
      Step base page a (.umalloc nbytes) ⟨h, a.out⟩
  | ufree {a : Arena} {fuel : ℕ} {h : Heap} {b : Extent} (hb : b ∈ a.out)
      (hf : a.heap.ufree fuel (b.start + 1) = some h) :
      Step base page a (.ufree b) ⟨h, a.out.erase b⟩
  | write {a : Arena} {ptr : ℕ → ℕ} {size : ℕ → ℕ}
      (hp : ∀ u, ¬ a.Payload u → ptr u = a.heap.ptr u ∧ size u = a.heap.size u) :
      Step base page a .write ⟨{ a.heap with ptr := ptr, size := size }, a.out⟩

abbrev Run (base : ℕ) (page : ℕ → Option ℕ) (a₀ : Arena) :=
  Transition.Run (Step base page) a₀

/-- The state before the first call, whatever memory contains. -/
structure Fresh (a : Arena) : Prop where
  freep : a.heap.freep = none
  npages : a.heap.npages = 0
  added : a.heap.added = []
  out : a.out = []

end Arena

end Lwt
