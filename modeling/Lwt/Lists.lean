import Lwt.Lib.Links
import Lwt.Lib.Threaded
import Lwt.Lib.Transition
import Mathlib.Data.Set.Insert

/-! The lists of `lwt_list.h`, over a memory of links. A list head `.inl h` is linked to the nodes
`.inr n` of its list and they back to it, all in both directions. Every operation does to the
lists what it is to do, except that `list_head_append` puts a node before the last one of a list
and not before the first. -/

namespace Lwt

variable {H N : Type} {L : Links (H ⊕ N)} {r q : Rings H N} {h h' : H} {n m : N} {l : List N}

/-- What the library does with its lists. -/
inductive ListOp (H N : Type) where
  | headAdd (h : H) (n : N)
  | headAppend (h : H) (n : N)
  | rem (n : N)

def listHeadFirst (L : Links (H ⊕ N)) (h : H) : H ⊕ N := L.next (.inl h)

/-- The nodes that `list_foreach` comes to. -/
def Traversal (L : Links (H ⊕ N)) (h : H) (l : List N) : Prop :=
  Linked L.next (.inl h) (l.map .inr) (.inl h)

/-- Those before one another, from the last to the first. -/
def BackTraversal (L : Links (H ⊕ N)) (h : H) (l : List N) : Prop :=
  Linked L.prev (.inl h) (l.map .inr) (.inl h)

def OnList (L : Links (H ⊕ N)) (n : N) : Prop := ∃ h l, Traversal L h l ∧ n ∈ l

/-- The lists of the heads are `q`, and every other node that was initialised or has been on a list
is alone. -/
structure Shows (L : Links (H ⊕ N)) (used : Set N) (q : Rings H N) : Prop where
  forward : ∀ h, Traversal L h (q h)
  backward : ∀ h, BackTraversal L h (q h).reverse
  nodup : ∀ h, (q h).Nodup
  apart : ∀ {h h' n}, n ∈ q h → n ∈ q h' → h = h'
  single : ∀ n ∈ used, (∀ h, n ∉ q h) → L.Single (.inr n)

section Traversal

theorem Traversal.unique {l' : List N} (hl : Traversal L h l) (hl' : Traversal L h l') :
    l = l' := by
  have hmap : l.map Sum.inr = l'.map (Sum.inr (α := H)) :=
    Linked.unique hl hl' (by simp) (by simp)
  exact List.map_injective_iff.mpr (fun _ _ he => Sum.inr.inj he) hmap

/-- A ring is gone through in both directions. -/
theorem Traversal.of_ring (hr : L.Ring (.inl h) (l.map .inr)) : Traversal L h l :=
  Linked.iff_isChain.mpr (hr.chain.imp fun _ _ hab => hab.1)

theorem BackTraversal.of_ring (hr : L.Ring (.inl h) (l.map .inr)) :
    BackTraversal L h l.reverse := by
  refine Linked.iff_isChain.mpr ?_
  have hc : ((.inl h :: (l.map .inr ++ [.inl h])).reverse).IsChain fun x y => L.prev x = y :=
    List.isChain_reverse.mpr (hr.chain.imp fun _ _ hab => hab.2)
  simpa using hc

variable (hf : L.Family r)

include hf

theorem traversal_family (h : H) : Traversal L h (r h) := .of_ring (hf.ring h)

theorem backTraversal_family (h : H) : BackTraversal L h (r h).reverse := .of_ring (hf.ring h)

/-- What the lists of a family are. -/
theorem traversal_iff : Traversal L h l ↔ l = r h := by
  constructor
  · exact fun hl => hl.unique (traversal_family hf h)
  · rintro rfl
    exact traversal_family hf h

theorem onList_iff : OnList L n ↔ ∃ h, n ∈ r h := by
  simp only [OnList, traversal_iff hf, exists_eq_left]

theorem nodup_family (h : H) : (r h).Nodup :=
  List.Nodup.of_map _ (List.nodup_cons.mp (hf.ring h).nodup).2

/-- A list has at most one node if the first one is linked to the head. -/
theorem next_next_iff : L.next (L.next (.inl h)) = .inl h ↔ (r h).length ≤ 1 := by
  have hr := traversal_family hf h
  unfold Traversal at hr
  match r h, hr with
  | [], hr =>
    have hr : L.next (.inl h) = .inl h := hr
    simp [hr]
  | [a], hr =>
    have hlast : L.next (.inr a) = .inl h := hr.2
    simp [hr.1, hlast]
  | a :: b :: l, hr => simp [hr.1, hr.2.1]

end Traversal

variable [DecidableEq H] [DecidableEq N]

namespace ListOp

/-- The operation on the memory of links. -/
def run (L : Links (H ⊕ N)) : ListOp H N → Links (H ⊕ N)
  | .headAdd h n => L.add (.inl h) (.inr n)
  | .headAppend h n => L.add (L.prev (.inl h)) (.inr n)
  | .rem n => L.rem (.inr n)

/-- What the operation is to do with the lists: a node becomes the last one or the first one of a
list, or is taken off. -/
def intended (q : Rings H N) : ListOp H N → Rings H N
  | .headAdd h n => q.add h n
  | .headAppend h n => Function.update q h (n :: q h)
  | .rem n => q.rem n

/-- What it does. -/
def rings (r : Rings H N) : ListOp H N → Rings H N
  | .headAdd h n => r.add h n
  | .headAppend h n => r.append h n
  | .rem n => r.rem n

def node : ListOp H N → N
  | .headAdd _ n | .headAppend _ n | .rem n => n

/-- Nodes are inserted if they are on no list, and removed if they are on one or alone. -/
def Allowed (L : Links (H ⊕ N)) : ListOp H N → Prop
  | .headAdd _ n | .headAppend _ n => ¬ OnList L n
  | .rem n => OnList L n ∨ L.Single (.inr n)

end ListOp

/-- The memory of links, the lists as they are meant to be, and the nodes whose links have been
written. -/
structure Lists (H N : Type) where
  links : Links (H ⊕ N)
  queues : Rings H N
  used : Set N

namespace Lists

def Step (s : Lists H N) (op : ListOp H N) (s' : Lists H N) : Prop :=
  op.Allowed s.links ∧ s' = ⟨op.run s.links, op.intended s.queues, insert op.node s.used⟩

abbrev Run (s₀ : Lists H N) := Transition.Run Step s₀

/-- All heads have been initialised, and those nodes that are in use. -/
structure Initialised (s : Lists H N) : Prop where
  heads : ∀ h, s.links.Single (.inl h)
  nodes : ∀ n ∈ s.used, s.links.Single (.inr n)
  queues : ∀ h, s.queues h = []

/-- The memory is one of circular and disjoint lists. -/
structure Inv (s : Lists H N) (r : Rings H N) : Prop where
  family : s.links.Family r
  single : ∀ n ∈ s.used, (∀ h, n ∉ r h) → s.links.Single (.inr n)

variable {s s' s₀ : Lists H N} {op : ListOp H N}

omit [DecidableEq H] [DecidableEq N] in
theorem Inv.shows (hI : s.Inv r) : Shows s.links s.used r :=
  ⟨traversal_family hI.family, backTraversal_family hI.family, nodup_family hI.family,
    hI.family.apart, hI.single⟩

omit [DecidableEq H] [DecidableEq N] in
/-- The lists are as meant if and only if they are those in memory. -/
theorem Inv.shows_iff (hI : s.Inv r) : Shows s.links s.used s.queues ↔ s.queues = r := by
  constructor
  · exact fun hs => funext fun h => (traversal_iff hI.family).mp (hs.forward h)
  · intro he
    rw [he]
    exact hI.shows

omit [DecidableEq H] [DecidableEq N] in
/-- A node on no list can be inserted. -/
theorem Inv.not_onList (hI : s.Inv r) (hn : ∀ h, n ∉ r h) : ¬ OnList s.links n := by
  rw [onList_iff hI.family]
  exact fun hh => hh.elim hn

omit [DecidableEq H] [DecidableEq N] in
theorem Initialised.inv (h₀ : s.Initialised) : s.Inv fun _ => [] := by
  refine ⟨⟨fun h => ⟨by simp, ?_⟩, by simp⟩, fun n hn _ => h₀.nodes n hn⟩
  rw [List.map_nil, List.nil_append, List.isChain_pair]
  exact h₀.heads h

/-- A node that is linked before a node of a list. -/
theorem Inv.insert {x : H ⊕ N} {r' : Rings H N} (hI : s.Inv r) (hn : ∀ h, n ∉ r h)
    (hx : x ∈ .inl h :: (r h).map .inr) (hf : (s.links.add x (.inr n)).Family r')
    (hr : ∀ m, (∀ h, m ∉ r' h) → m ≠ n ∧ ∀ h, m ∉ r h) :
    Inv ⟨s.links.add x (.inr n), q, insert n s.used⟩ r' := by
  refine ⟨hf, fun m hm hnot => ?_⟩
  obtain ⟨hmn, hmr⟩ := hr m hnot
  have hp : s.links.prev x ∈ .inl h :: (r h).map .inr := (hI.family.ring h).prev_mem hx
  have hout (k : N) (hk : ∀ h, k ∉ r h) (y : H ⊕ N) (hy : y ∈ .inl h :: (r h).map .inr) :
      .inr k ≠ y := by
    rintro rfl
    exact Links.Family.inr_not_mem (hk h) hy
  have hs : s.links.Single (.inr m) :=
    hI.single m ((Set.mem_insert_iff.mp hm).resolve_left hmn) hmr
  exact hs.add (by simpa using hmn) (hout m hmr x hx) (hout m hmr _ hp) (hout n hn _ hp)

/-- What an operation does to the lists in memory. -/
theorem Inv.step (hI : s.Inv r) (hs : s.Step op s') : s'.Inv (op.rings r) := by
  obtain ⟨hop, rfl⟩ := hs
  cases op with
  | headAdd h n =>
    have hn : ∀ h, n ∉ r h := by simpa [ListOp.Allowed, onList_iff hI.family] using hop
    refine hI.insert hn List.mem_cons_self (hI.family.add hn h) fun m hm => ?_
    have hmh := hm h
    simp only [ListOp.rings, Rings.add_self, List.mem_append, List.mem_singleton, not_or] at hmh
    refine ⟨hmh.2, fun h' => ?_⟩
    by_cases hh : h' = h
    · exact hh ▸ hmh.1
    · have := hm h'
      rwa [ListOp.rings, Rings.add_of_ne r n hh] at this
  | headAppend h n =>
    have hn : ∀ h, n ∉ r h := by simpa [ListOp.Allowed, onList_iff hI.family] using hop
    have hx := (hI.family.ring h).prev_mem List.mem_cons_self
    refine hI.insert hn hx (hI.family.append hn h) fun m hm => ?_
    have hmh := hm h
    simp only [ListOp.rings, Rings.append_self, Rings.mem_beforeLast, not_or] at hmh
    refine ⟨hmh.1, fun h' => ?_⟩
    by_cases hh : h' = h
    · exact hh ▸ hmh.2
    · have := hm h'
      rwa [ListOp.rings, Rings.append_of_ne r n hh] at this
  | rem n =>
    have hn : (∃ h, n ∈ r h) ∨ s.links.Single (.inr n) := by
      simpa only [ListOp.Allowed, onList_iff hI.family] using hop
    refine ⟨hI.family.rem hn, fun m hm hnot => ?_⟩
    by_cases hmn : m = n
    · rw [hmn]
      exact Links.single_rem
    · have hmr (h : H) : m ∉ r h := fun hh => hnot h ((List.mem_erase_of_ne hmn).mpr hh)
      have hsm : s.links.Single (.inr m) :=
        hI.single m ((Set.mem_insert_iff.mp hm).resolve_left hmn) hmr
      rcases hn with hn | hn
      · obtain ⟨h, hh⟩ := hn
        have hmem : (.inr n : H ⊕ N) ∈ .inl h :: (r h).map .inr := by simpa using hh
        have hne (y : H ⊕ N) (hy : y ∈ .inl h :: (r h).map .inr) : .inr m ≠ y := by
          rintro rfl
          exact Links.Family.inr_not_mem (hmr h) hy
        exact hsm.rem_of_ne (hne _ ((hI.family.ring h).next_mem hmem))
          (hne _ ((hI.family.ring h).prev_mem hmem))
      · simp only [ListOp.run, hn.rem]
        exact hsm

/-- Lists are as meant behind an operation if and only if it appends to a list of one node at
most. -/
theorem Inv.intended_eq_iff (hI : s.Inv r) (hop : op.Allowed s.links) :
    op.intended r = op.rings r ↔
      ∀ h n, op = .headAppend h n → s.links.next (s.links.next (.inl h)) = .inl h := by
  cases op with
  | headAdd h n => simp [ListOp.intended, ListOp.rings]
  | rem n => simp [ListOp.intended, ListOp.rings]
  | headAppend h n =>
    have hn : ∀ h, n ∉ r h := by simpa [ListOp.Allowed, onList_iff hI.family] using hop
    have hfront := Rings.cons_eq_beforeLast_iff (hn h)
    constructor
    · rintro he h' n' heq
      cases heq
      have hh := congrFun he h
      rw [ListOp.intended, ListOp.rings, Function.update_self, Rings.append_self] at hh
      exact (next_next_iff hI.family).mpr (hfront.mp hh)
    · intro hc
      have hlen := (next_next_iff hI.family).mp (hc h n rfl)
      rw [ListOp.intended, ListOp.rings, Rings.append, hfront.mpr hlen]

end Lists

open Lwt.Lists

/-- In a run every operation does to the lists what `ListOp.rings` says, and they stay circular and
disjoint. In all its states they are as they are meant to be if and only if `list_head_append` is
used on lists of one node at most. -/
theorem lists_as_intended_iff {s s₀ : Lists H N} {tr : List (Lists H N × ListOp H N)}
    (h : Lists.Run s₀ tr s) (h₀ : s₀.Initialised) :
    (∀ op s', s.Step op s' →
      ∃ r, Shows s.links s.used r ∧ Shows s'.links s'.used (op.rings r)) ∧
    ((∀ u ∈ Transition.visited tr s, Shows u.links u.used u.queues) ↔
      ∀ p ∈ tr, ∀ h n, p.2 = .headAppend h n →
        p.1.links.next (p.1.links.next (.inl h)) = .inl h) := by
  have hkeep (s : Lists H N) (op : ListOp H N) (s' : Lists H N) (hI : ∃ r, s.Inv r)
      (hs : s.Step op s') : ∃ r, s'.Inv r := by
    obtain ⟨r, hI⟩ := hI
    exact ⟨op.rings r, hI.step hs⟩
  constructor
  · intro op s' hs
    obtain ⟨r, hI⟩ := h.invariant ⟨_, h₀.inv⟩ hkeep
    exact ⟨r, hI.shows, (hI.step hs).shows⟩
  · refine h.forall_visited_iff (P := fun s => Shows s.links s.used s.queues)
      (C := fun s op => ∀ h n, op = .headAppend h n →
        s.links.next (s.links.next (.inl h)) = .inl h) (D := fun _ _ => True)
      (fun _ _ => trivial) ⟨_, h₀.inv⟩ (h₀.inv.shows_iff.mpr (funext h₀.queues))
      (fun s op s' hI _ => hkeep s op s' hI) ?_
    rintro s op s' ⟨r, hI⟩ hP - hs
    have he := hI.shows_iff.mp hP
    rw [(hI.step hs).shows_iff, hs.2, ← hI.intended_eq_iff hs.1, he]

namespace Lists

def exec (s : Lists H N) (op : ListOp H N) : Lists H N :=
  ⟨op.run s.links, op.intended s.queues, insert op.node s.used⟩

def alone : Lists Unit ℕ := ⟨⟨id, id⟩, fun _ => [], Set.univ⟩

theorem alone_initialised : alone.Initialised :=
  ⟨fun _ => ⟨rfl, rfl⟩, fun _ _ => ⟨rfl, rfl⟩, fun _ => rfl⟩

def one : Lists Unit ℕ := alone.exec (.headAdd () 0)

def two : Lists Unit ℕ := one.exec (.headAppend () 1)

theorem one_step : alone.Step (.headAdd () 0) one :=
  ⟨alone_initialised.inv.not_onList (by simp), rfl⟩

theorem two_step : one.Step (.headAppend () 1) two :=
  ⟨(alone_initialised.inv.step one_step).not_onList (by simp [ListOp.rings]), rfl⟩

theorem two_run : Lists.Run alone [(alone, .headAdd () 0), (one, .headAppend () 1)] two :=
  .snoc (.snoc .nil one_step) two_step

end Lists

theorem two_as_intended : Shows two.links two.used two.queues ∧
    two.queues () = [1, 0] ∧ listHeadFirst two.links () = .inr 1 := by
  refine ⟨(lists_as_intended_iff two_run alone_initialised).2.mpr ?_ two
    (Transition.last_mem_visited _ two), rfl, rfl⟩
  simp only [List.forall_mem_cons]
  refine ⟨nofun, ?_, nofun⟩
  intro h n he
  exact (show one.links.next (one.links.next (.inl ())) = .inl () from rfl)

/-- A thread that is appended to a run queue of two does not become the first. -/
theorem append_not_first : ∃ tr s, Lists.Run alone tr s ∧ s.queues () = [2, 1, 0] ∧
    listHeadFirst s.links () = .inr 1 ∧ ¬ Shows s.links s.used s.queues := by
  have hI := (alone_initialised.inv.step one_step).step two_step
  have hs : two.Step (.headAppend () 2) (two.exec (.headAppend () 2)) :=
    ⟨hI.not_onList (by simp [ListOp.rings]), rfl⟩
  refine ⟨_, _, .snoc two_run hs, rfl, rfl, fun hshows => ?_⟩
  have hfirst : (two.exec (.headAppend () 2)).links.next (.inl ()) = .inr 2 := (hshows.forward ()).1
  exact absurd hfirst (by decide)

end Lwt
