import Lwt.Lib.Rings
import Mathlib.Data.List.Chain
import Mathlib.Data.List.Basic
import Mathlib.Data.Set.Insert

/-! Circular doubly linked lists as two maps of nodes. A new node is linked between two
neighbours, and a node that is unlinked is linked to itself. A list head with its nodes
is a ring of nodes, each linked both ways to the next; a family of them on disjoint nodes
represents `Rings`. -/

/-- The two links of every node. -/
structure Links (M : Type*) where
  next : M → M
  prev : M → M

namespace Links

variable {M : Type*}

def Linked (L : Links M) (a b : M) : Prop := L.next a = b ∧ L.prev b = a

/-- The nodes behind head `h` are `l`. -/
structure Ring (L : Links M) (h : M) (l : List M) : Prop where
  nodup : (h :: l).Nodup
  chain : (h :: (l ++ [h])).IsChain L.Linked

section Frame

variable {L L' : Links M} {h : M} {l : List M}

/-- A chain reads the forward links of its nodes but the last and the backward links of its
nodes but the first. -/
theorem isChain_congr (hc : l.IsChain L.Linked) (hn : ∀ a ∈ l.dropLast, L'.next a = L.next a)
    (hp : ∀ b ∈ l.tail, L'.prev b = L.prev b) : l.IsChain L'.Linked := by
  induction l with
  | nil => simp
  | cons a l ih =>
    cases l with
    | nil => simp
    | cons b l =>
      obtain ⟨⟨hab, hba⟩, hc⟩ := List.isChain_cons_cons.mp hc
      refine List.isChain_cons_cons.mpr ⟨⟨?_, ?_⟩, ih hc (fun x hx => ?_) fun x hx => ?_⟩
      · rw [hn a (by simp), hab]
      · rw [hp b (by simp), hba]
      · exact hn x (by simp [hx])
      · exact hp x (List.mem_cons_of_mem _ hx)

theorem Ring.congr (hr : L.Ring h l) (hn : ∀ a ∈ h :: l, L'.next a = L.next a)
    (hp : ∀ a ∈ h :: l, L'.prev a = L.prev a) : L'.Ring h l := by
  refine ⟨hr.nodup, isChain_congr hr.chain (fun a ha => hn a ?_) fun b hb => hp b ?_⟩
  · rw [← List.cons_append, List.dropLast_concat] at ha
    exact ha
  · rw [List.tail_cons, List.mem_append, List.mem_singleton] at hb
    exact List.mem_cons.mpr hb.symm

/-- The first node behind the head. -/
theorem Ring.next_head (hr : L.Ring h l) : L.next h = l.headD h := by
  have hc := hr.chain
  cases l with
  | nil => exact (List.isChain_cons_cons.mp hc).1.1
  | cons a l => exact (List.isChain_cons_cons.mp hc).1.1

/-- The last node before the head. -/
theorem Ring.prev_head {z : M} {m : List M} (hr : L.Ring h l) (hl : h :: l = m ++ [z]) :
    L.prev h = z := by
  have hc := hr.chain
  rw [← List.cons_append, hl, List.append_assoc, List.singleton_append,
    List.isChain_append_cons_cons] at hc
  exact hc.2.1.2

end Frame

variable [DecidableEq M] (L : Links M)

def init (a : M) : Links M where
  next := Function.update L.next a a
  prev := Function.update L.prev a a

/-- `list_ll_add`: `new` is linked right before `link`. -/
def add (link new : M) : Links M :=
  let prev := Function.update L.prev new (L.prev link)
  let next := Function.update L.next new link
  let next := Function.update next (prev new) new
  let prev := Function.update prev (next new) new
  ⟨next, prev⟩

/-- `list_ll_rem`: the neighbours of `a` are linked to each other, and `a` to itself. -/
def rem (a : M) : Links M :=
  let prev := Function.update L.prev (L.next a) (L.prev a)
  let next := Function.update L.next (prev a) (L.next a)
  ⟨Function.update next a a, Function.update prev a a⟩

/-- A node that has been unlinked is its own neighbour. -/
@[simp] theorem rem_next_self (a : M) : (L.rem a).next a = a := Function.update_self ..

@[simp] theorem rem_prev_self (a : M) : (L.rem a).prev a = a := Function.update_self ..

variable {L} {h : M} {l : List M} {n : M}

theorem ring_init (L : Links M) (h : M) : (L.init h).Ring h [] := by
  refine ⟨List.nodup_singleton h, ?_⟩
  simp [Linked, init]

/-- What linking `n` before `h` writes. -/
theorem add_next (a : M) : (L.add h n).next a =
    if a = L.prev h then n else if a = n then h else L.next a := by
  simp [add, Function.update_apply]

theorem add_prev (hn : n ≠ L.prev h) (a : M) : (L.add h n).prev a =
    if a = h then n else if a = n then L.prev h else L.prev a := by
  simp [add, Function.update_apply, hn]

/-- What unlinking `n` writes. -/
theorem rem_next (a : M) : (L.rem n).next a =
    if a = n then n else if a = L.prev n then L.next n else L.next a := by
  simp only [rem, Function.update_apply, ite_self]

theorem rem_prev (a : M) : (L.rem n).prev a =
    if a = n then n else if a = L.next n then L.prev n else L.prev a := by
  simp only [rem, Function.update_apply]

/-- A new node becomes the last. -/
theorem Ring.add (hr : L.Ring h l) (hn : n ∉ h :: l) : (L.add h n).Ring h (l ++ [n]) := by
  obtain ⟨m, z, hl⟩ : ∃ m z, h :: l = m ++ [z] :=
    ⟨_, _, (List.dropLast_append_getLast (List.cons_ne_nil h l)).symm⟩
  have hz : L.prev h = z := hr.prev_head hl
  have hnd : (m ++ [z]).Nodup := hl ▸ hr.nodup
  have hzm : z ∉ m := fun hm => (List.nodup_append.mp hnd).2.2 z hm z (by simp) rfl
  have hnm : n ∉ m ++ [z] := hl ▸ hn
  have hnz : n ≠ L.prev h := by
    rintro rfl
    exact hnm (by simp [hz])
  have hnh : n ≠ h := fun he => hn (by simp [he])
  refine ⟨?_, ?_⟩
  · rw [← List.cons_append, ← List.concat_eq_append]
    exact hr.nodup.concat hn
  · have hc := hr.chain
    rw [← List.cons_append, hl, List.append_assoc, List.singleton_append,
      List.isChain_append_cons_cons] at hc
    rw [List.append_assoc, ← List.cons_append, hl, List.append_assoc]
    refine List.isChain_append_cons_cons.mpr ⟨isChain_congr hc.1 (fun a ha => ?_) fun a ha => ?_,
      ⟨?_, ?_⟩, List.isChain_pair.mpr ⟨?_, ?_⟩⟩
    · rw [List.dropLast_concat] at ha
      rw [add_next, if_neg, if_neg]
      · rintro rfl
        exact hnm (List.mem_append_left _ ha)
      · rw [hz]
        rintro rfl
        exact hzm ha
    · rw [← hl, List.tail_cons] at ha
      rw [add_prev hnz, if_neg, if_neg]
      · rintro rfl
        exact hn (List.mem_cons_of_mem _ ha)
      · rintro rfl
        exact (List.nodup_cons.mp hr.nodup).1 ha
    · rw [add_next, if_pos hz.symm]
    · rw [add_prev hnz, if_neg hnh, if_pos rfl, hz]
    · rw [add_next, if_neg hnz, if_pos rfl]
    · rw [add_prev hnz, if_pos rfl]

/-- An unlinked node is gone from its ring, and the others keep their order. -/
theorem Ring.rem {l₁ l₂ : List M} (hr : L.Ring h (l₁ ++ n :: l₂)) :
    (L.rem n).Ring h (l₁ ++ l₂) := by
  obtain ⟨m, p, hp⟩ : ∃ m p, h :: l₁ = m ++ [p] :=
    ⟨_, _, (List.dropLast_append_getLast (List.cons_ne_nil h l₁)).symm⟩
  obtain ⟨q, t, hq⟩ : ∃ q t, l₂ ++ [h] = q :: t := List.exists_cons_of_ne_nil (by simp)
  have hc := hr.chain
  rw [List.append_assoc, ← List.cons_append, hp, List.append_assoc, List.singleton_append,
    List.cons_append, hq, List.isChain_append_cons_cons, List.isChain_cons_cons] at hc
  obtain ⟨hc₁, ⟨-, hnp⟩, ⟨hnq, -⟩, hc₂⟩ := hc
  have hnd : ((h :: l₁) ++ n :: l₂).Nodup := hr.nodup
  obtain ⟨hnd₁, hnd₂, hdis⟩ := List.nodup_append.mp hnd
  have hpm : p ∉ m := by
    rw [hp, ← List.concat_eq_append] at hnd₁
    exact (List.nodup_concat m p).mp hnd₁ |>.1
  have hmem (a : M) (ha : a ∈ m ∨ a = p) : a ∈ h :: l₁ := by
    rw [hp, List.mem_append, List.mem_singleton]
    exact ha
  have hqt (a : M) (ha : a = q ∨ a ∈ t) : a ∈ l₂ ∨ a = h := by
    rw [← List.mem_cons, ← hq, List.mem_append, List.mem_singleton] at ha
    exact ha
  have hne (a : M) (ha : a ∈ l₂ ∨ a = h) : a ≠ n := by
    rcases ha with ha | rfl
    · exact fun he => (List.nodup_cons.mp hnd₂).1 (he ▸ ha)
    · exact hdis a (by simp) n (by simp)
  have hqnd : q ∉ t := by
    have hperm : (q :: t).Nodup := by
      rw [← hq, ← List.concat_eq_append, List.nodup_concat]
      exact ⟨fun hh => hdis h (by simp) h (by simp [hh]) rfl, (List.nodup_cons.mp hnd₂).2⟩
    exact (List.nodup_cons.mp hperm).1
  refine ⟨hnd.sublist ((List.sublist_cons_self n l₂).append_left (h :: l₁)), ?_⟩
  rw [List.append_assoc, ← List.cons_append, hp, hq, List.append_assoc]
  refine List.isChain_append_cons_cons.mpr ⟨isChain_congr hc₁ (fun a ha => ?_) fun a ha => ?_,
    ⟨?_, ?_⟩, isChain_congr hc₂ (fun a ha => ?_) fun a ha => ?_⟩
  · rw [List.dropLast_concat] at ha
    rw [rem_next, hnp, if_neg (hdis a (hmem a (.inl ha)) n (by simp)), if_neg]
    rintro rfl
    exact hpm ha
  · rw [← hp, List.tail_cons] at ha
    rw [rem_prev, hnq, if_neg (hdis a (by simp [ha]) n (by simp)), if_neg]
    rintro rfl
    rcases hqt a (.inl rfl) with hl | rfl
    · exact hdis a (by simp [ha]) a (by simp [hl]) rfl
    · exact (List.nodup_cons.mp hnd₁).1 ha
  · rw [rem_next, if_neg (hdis p (hmem p (.inr rfl)) n (by simp)), if_pos hnp.symm, hnq]
  · rw [rem_prev, if_neg (hne q (hqt q (.inl rfl))), if_pos hnq.symm, hnp]
  · rw [← hq, List.dropLast_concat] at ha
    rw [rem_next, hnp, if_neg (hne a (.inl ha)), if_neg]
    exact fun he => hdis p (hmem p (.inr rfl)) a (by simp [ha]) he.symm
  · rw [List.tail_cons] at ha
    rw [rem_prev, hnq, if_neg (hne a (hqt a (.inr ha))), if_neg]
    rintro rfl
    exact hqnd ha

section Around

variable {x : M} {l₁ l₂ : List M}

omit [DecidableEq M] in
/-- A ring can be read from any of its nodes on. -/
theorem Ring.rotate (hr : L.Ring h (l₁ ++ x :: l₂)) : L.Ring x (l₂ ++ h :: l₁) := by
  refine ⟨?_, ?_⟩
  · have hperm : (x :: (l₂ ++ h :: l₁)).Perm (h :: (l₁ ++ x :: l₂)) := by
      rw [← List.cons_append, ← List.cons_append]
      exact List.perm_append_comm
    exact hperm.nodup_iff.mpr hr.nodup
  · have hc := hr.chain
    rw [List.append_assoc, List.cons_append, ← List.cons_append, List.isChain_split] at hc
    rw [List.append_assoc, List.cons_append, ← List.cons_append, List.isChain_split]
    exact ⟨hc.2, hc.1⟩

omit [DecidableEq M] in
/-- The neighbours of a node are on its ring. -/
theorem Ring.next_mem (hr : L.Ring h l) (hx : x ∈ h :: l) : L.next x ∈ h :: l := by
  rcases List.mem_cons.mp hx with rfl | hx
  · rw [hr.next_head]
    cases l <;> simp
  · obtain ⟨l₁, l₂, rfl⟩ := List.append_of_mem hx
    rw [hr.rotate.next_head]
    cases l₂ <;> simp

omit [DecidableEq M] in
theorem Ring.prev_mem (hr : L.Ring h l) (hx : x ∈ h :: l) : L.prev x ∈ h :: l := by
  have hlast {y : M} {m : List M} (hm : L.Ring y m) : L.prev y ∈ y :: m := by
    have hsplit : y :: m = (y :: m).dropLast ++ [(y :: m).getLast (by simp)] :=
      (List.dropLast_append_getLast (List.cons_ne_nil y m)).symm
    rw [hm.prev_head hsplit]
    exact List.getLast_mem _
  rcases List.mem_cons.mp hx with rfl | hx
  · exact hlast hr
  · obtain ⟨l₁, l₂, rfl⟩ := List.append_of_mem hx
    have hmem := hlast hr.rotate
    simp only [List.mem_cons, List.mem_append] at hmem ⊢
    tauto

/-- A new node goes right before the node it is linked to. -/
theorem Ring.insert (hr : L.Ring h (l₁ ++ x :: l₂)) (hn : n ∉ h :: (l₁ ++ x :: l₂)) :
    (L.add x n).Ring h (l₁ ++ n :: x :: l₂) := by
  have hn' : n ∉ x :: (l₂ ++ h :: l₁) := by
    simp only [List.mem_cons, List.mem_append] at hn ⊢
    tauto
  have hadd := hr.rotate.add hn'
  rw [List.append_assoc, List.cons_append] at hadd
  have hback := hadd.rotate
  rwa [List.append_assoc, List.singleton_append] at hback

/-- Linking a node leaves a ring alone that neither it nor its neighbours are on. -/
theorem Ring.add_frame (hr : L.Ring h l) (hn : n ∉ h :: l) (hx : x ∉ h :: l)
    (hp : L.prev x ∉ h :: l) (hnp : n ≠ L.prev x) : (L.add x n).Ring h l := by
  refine hr.congr (fun a ha => ?_) fun a ha => ?_
  · rw [add_next, if_neg, if_neg]
    · rintro rfl
      exact hn ha
    · rintro rfl
      exact hp ha
  · rw [add_prev hnp, if_neg, if_neg]
    · rintro rfl
      exact hn ha
    · rintro rfl
      exact hx ha

/-- Unlinking a node leaves a ring alone that neither it nor its neighbours are on. -/
theorem Ring.rem_frame (hr : L.Ring h l) (hn : n ∉ h :: l) (hnext : L.next n ∉ h :: l)
    (hprev : L.prev n ∉ h :: l) : (L.rem n).Ring h l := by
  refine hr.congr (fun a ha => ?_) fun a ha => ?_
  · rw [rem_next, if_neg, if_neg]
    · rintro rfl
      exact hprev ha
    · rintro rfl
      exact hn ha
  · rw [rem_prev, if_neg, if_neg]
    · rintro rfl
      exact hnext ha
    · rintro rfl
      exact hn ha

end Around

section Single

def Single (L : Links M) (n : M) : Prop := L.next n = n ∧ L.prev n = n

theorem single_rem : (L.rem n).Single n := ⟨rem_next_self L n, rem_prev_self L n⟩

/-- Unlinking a single node changes nothing. -/
theorem Single.rem (hs : L.Single n) : L.rem n = L := by
  obtain ⟨hnext, hprev⟩ := hs
  have hn (a : M) : (L.rem n).next a = L.next a := by
    rw [rem_next, hnext, hprev]
    split_ifs with ha
    · rw [ha, hnext]
    · rfl
  have hp (a : M) : (L.rem n).prev a = L.prev a := by
    rw [rem_prev, hnext, hprev]
    split_ifs with ha
    · rw [ha, hprev]
    · rfl
  cases L
  exact congrArg₂ mk (funext hn) (funext hp)

variable {x m : M}

/-- Linking a node leaves other single nodes alone. -/
theorem Single.add (hs : L.Single m) (hm : m ≠ n) (hx : m ≠ x) (hp : m ≠ L.prev x)
    (hnp : n ≠ L.prev x) : (L.add x n).Single m := by
  refine ⟨?_, ?_⟩
  · rw [add_next, if_neg hp, if_neg hm, hs.1]
  · rw [add_prev hnp, if_neg hx, if_neg hm, hs.2]

theorem Single.rem_of_ne (hs : L.Single m) (hnext : m ≠ L.next n) (hprev : m ≠ L.prev n) :
    (L.rem n).Single m := by
  by_cases hm : m = n
  · rw [hm]
    exact single_rem
  · refine ⟨?_, ?_⟩
    · rw [rem_next, if_neg hm, if_neg hprev, hs.1]
    · rw [rem_prev, if_neg hm, if_neg hnext, hs.2]

end Single

section Family

variable {H N : Type*} {L : Links (H ⊕ N)} {r : Rings H N} {h h' : H} {n m : N} {x : H ⊕ N}

/-- Every list head has its ring, and no node is on two of them. -/
structure Family (L : Links (H ⊕ N)) (r : Rings H N) : Prop where
  ring : ∀ h, L.Ring (.inl h) ((r h).map .inr)
  apart : ∀ {h h' n}, n ∈ r h → n ∈ r h' → h = h'

/-- A node, or the head, of one ring is on no other. -/
theorem Family.not_mem (hf : L.Family r) (hx : x ∈ .inl h :: (r h).map .inr) (hne : h' ≠ h) :
    x ∉ .inl h' :: (r h').map .inr := by
  cases x with
  | inl k =>
    have hk : k = h := by simpa using hx
    simp [hk, Ne.symm hne]
  | inr k =>
    simp only [List.mem_cons, reduceCtorEq, List.mem_map, Sum.inr.injEq, exists_eq_right,
      false_or] at hx ⊢
    exact fun hx' => hne (hf.apart hx' hx)

theorem Family.inr_not_mem (hn : n ∉ r h) :
    (.inr n : H ⊕ N) ∉ .inl h :: (r h).map .inr := by simpa using hn

variable [DecidableEq H] [DecidableEq N]

/-- A detached node is linked somewhere on the ring of `h`. -/
theorem Family.insert {l : List N} (hf : L.Family r) (hn : ∀ h, n ∉ r h)
    (hx : x ∈ .inl h :: (r h).map .inr) (hring : (L.add x (.inr n)).Ring (.inl h) (l.map .inr))
    (hl : ∀ m, m ∈ l ↔ m = n ∨ m ∈ r h) :
    (L.add x (.inr n)).Family (Function.update r h l) := by
  have hp : L.prev x ∈ .inl h :: (r h).map .inr := (hf.ring h).prev_mem hx
  have hnp : .inr n ≠ L.prev x := by
    intro he
    exact inr_not_mem (hn h) (he ▸ hp)
  refine ⟨fun h' => ?_, ?_⟩
  · by_cases hh : h' = h
    · subst hh
      rw [Function.update_self]
      exact hring
    · rw [Function.update_of_ne hh]
      exact (hf.ring h').add_frame (inr_not_mem (hn h')) (hf.not_mem hx hh) (hf.not_mem hp hh) hnp
  · intro h₁ h₂ k h₁k h₂k
    rw [Function.update_apply] at h₁k h₂k
    split_ifs at h₁k h₂k with he₁ he₂ he₂
    · rw [he₁, he₂]
    · rcases (hl k).mp h₁k with rfl | hk
      · exact absurd h₂k (hn h₂)
      · exact he₁.trans (hf.apart hk h₂k)
    · rcases (hl k).mp h₂k with rfl | hk
      · exact absurd h₁k (hn h₁)
      · exact (hf.apart h₁k hk).trans he₂.symm
    · exact hf.apart h₁k h₂k

/-- A detached node that is linked before the head becomes the last. -/
theorem Family.add (hf : L.Family r) (hn : ∀ h, n ∉ r h) (h : H) :
    (L.add (.inl h) (.inr n)).Family (r.add h n) := by
  refine hf.insert hn List.mem_cons_self ?_ fun m => ?_
  · rw [List.map_append, List.map_singleton]
    exact (hf.ring h).add (inr_not_mem (hn h))
  · rw [List.mem_append, List.mem_singleton, or_comm]

/-- A detached node that is linked before the last node goes there. -/
theorem Family.append (hf : L.Family r) (hn : ∀ h, n ∉ r h) (h : H) :
    (L.add (L.prev (.inl h)) (.inr n)).Family (r.append h n) := by
  refine hf.insert hn ((hf.ring h).prev_mem List.mem_cons_self) ?_ fun m => Rings.mem_beforeLast
  have hr := hf.ring h
  have hnot := inr_not_mem (hn h)
  rcases List.eq_nil_or_concat' (r h) with hnil | ⟨l, z, hl⟩
  · rw [hnil] at hr hnot ⊢
    rw [hr.prev_head (m := []) rfl]
    exact hr.add hnot
  · rw [hl, List.map_append, List.map_singleton] at hr hnot
    have hz : L.prev (.inl h) = .inr z := hr.prev_head (m := .inl h :: l.map .inr) rfl
    rw [hl, hz, Rings.beforeLast_concat, List.map_append]
    exact hr.insert hnot

/-- A node that is linked, or single, is unlinked. -/
theorem Family.rem (hf : L.Family r) (hn : (∃ h, n ∈ r h) ∨ L.Single (.inr n)) :
    (L.rem (.inr n)).Family (r.rem n) := by
  have hapart : ∀ {h h' m}, m ∈ r.rem n h → m ∈ r.rem n h' → h = h' := by
    intro h h' m hm hm'
    exact hf.apart (List.mem_of_mem_erase hm) (List.mem_of_mem_erase hm')
  by_cases hlinked : ∃ h, n ∈ r h
  · obtain ⟨h, hh⟩ := hlinked
    have hmem : (.inr n : H ⊕ N) ∈ .inl h :: (r h).map .inr := by simpa using hh
    refine ⟨fun h' => ?_, hapart⟩
    by_cases he : h' = h
    · obtain ⟨l₁, l₂, hl⟩ := List.append_of_mem hh
      have hr := hf.ring h
      have hnot : n ∉ l₁ := by
        have hnd : (r h).Nodup := List.Nodup.of_map _ (List.nodup_cons.mp hr.nodup).2
        rw [hl] at hnd
        exact fun hn₁ => (List.nodup_append.mp hnd).2.2 n hn₁ n (by simp) rfl
      rw [he, Rings.rem_apply, hl, List.erase_append_right _ hnot, List.erase_cons_head,
        List.map_append]
      rw [hl, List.map_append, List.map_cons] at hr
      exact hr.rem
    · have hnot : n ∉ r h' := fun hh' => he (hf.apart hh' hh)
      rw [Rings.rem_of_not_mem r hnot]
      exact (hf.ring h').rem_frame (inr_not_mem hnot)
        (hf.not_mem ((hf.ring h).next_mem hmem) he) (hf.not_mem ((hf.ring h).prev_mem hmem) he)
  · have hs : L.Single (.inr n) := hn.resolve_left hlinked
    refine ⟨fun h' => ?_, hapart⟩
    rw [hs.rem, Rings.rem_of_not_mem r fun hh => hlinked ⟨h', hh⟩]
    exact hf.ring h'

end Family

section Settle

variable {H N : Type*} {L : Links (H ⊕ N)} {live : Set H} {h : H} {n m : N} {x y : H ⊕ N}

/-- A list head that is not one of `live`. -/
def Dead (live : Set H) : H ⊕ N → Prop
  | .inl h => h ∉ live
  | .inr _ => False

open Classical in
/-- The links, but heads that are not in use are linked to themselves whatever their memory is. -/
noncomputable def settle (L : Links (H ⊕ N)) (live : Set H) : Links (H ⊕ N) where
  next x := if Dead live x then x else L.next x
  prev x := if Dead live x then x else L.prev x

theorem settle_next (hx : ¬ Dead live x) : (L.settle live).next x = L.next x := if_neg hx

theorem settle_prev (hx : ¬ Dead live x) : (L.settle live).prev x = L.prev x := if_neg hx

@[simp] theorem settle_next_inr : (L.settle live).next (.inr n) = L.next (.inr n) := if_neg id

@[simp] theorem settle_prev_inr : (L.settle live).prev (.inr n) = L.prev (.inr n) := if_neg id

@[simp] theorem settle_single : (L.settle live).Single (.inr n) ↔ L.Single (.inr n) := by
  simp [Single]

theorem settle_single_dead (hh : h ∉ live) : (L.settle live).Single (.inl h) :=
  ⟨if_pos hh, if_pos hh⟩

/-- Heads that lead only to themselves may be in use or not. -/
theorem settle_congr {live' : Set H}
    (h : ∀ h, (h ∈ live ↔ h ∈ live') ∨ L.next (.inl h) = .inl h ∧ L.prev (.inl h) = .inl h) :
    L.settle live = L.settle live' := by
  classical
  have key : ∀ x : H ⊕ N, (Dead live x ↔ Dead live' x) ∨ L.next x = x ∧ L.prev x = x := by
    rintro (h' | n)
    · exact (h h').imp_left not_congr
    · exact .inl Iff.rfl
  refine congrArg₂ Links.mk (funext fun x => ?_) (funext fun x => ?_) <;>
    rcases key x with hx | ⟨hn, hp⟩
  · exact if_congr hx rfl rfl
  · rw [hn, ite_self, ite_self]
  · exact if_congr hx rfl rfl
  · rw [hp, ite_self, ite_self]

variable [DecidableEq H] [DecidableEq N]

theorem settle_add (hx : ¬ Dead live x) (hp : ¬ Dead live (L.prev x))
    (hn : .inr n ≠ L.prev x) :
    (L.add x (.inr n)).settle live = (L.settle live).add x (.inr n) := by
  have hp' : (L.settle live).prev x = L.prev x := settle_prev hx
  have hnext : ∀ y, ((L.add x (.inr n)).settle live).next y =
      ((L.settle live).add x (.inr n)).next y := by
    intro y
    rw [add_next, hp']
    by_cases hy : Dead live y
    · have hyp : y ≠ L.prev x := fun he => hp (he ▸ hy)
      rw [if_neg hyp, if_neg (by rintro rfl; exact hy)]
      exact (if_pos hy).trans (if_pos hy).symm
    · rw [settle_next hy, settle_next hy, add_next]
  have hprev : ∀ y, ((L.add x (.inr n)).settle live).prev y =
      ((L.settle live).add x (.inr n)).prev y := by
    intro y
    rw [add_prev (hp' ▸ hn), hp']
    by_cases hy : Dead live y
    · rw [if_neg (by rintro rfl; exact hx hy), if_neg (by rintro rfl; exact hy)]
      exact (if_pos hy).trans (if_pos hy).symm
    · rw [settle_prev hy, settle_prev hy, add_prev hn]
  exact congrArg₂ Links.mk (funext hnext) (funext hprev)

theorem settle_rem (hnext : ¬ Dead live (L.next (.inr n))) (hprev : ¬ Dead live (L.prev (.inr n))) :
    (L.rem (.inr n)).settle live = (L.settle live).rem (.inr n) := by
  have hn : ∀ y, ((L.rem (.inr n)).settle live).next y =
      ((L.settle live).rem (.inr n)).next y := by
    intro y
    rw [rem_next, settle_next_inr, settle_prev_inr]
    by_cases hy : Dead live y
    · have hyp : y ≠ L.prev (.inr n) := fun he => hprev (he ▸ hy)
      rw [if_neg (by rintro rfl; exact hy), if_neg hyp]
      exact (if_pos hy).trans (if_pos hy).symm
    · rw [settle_next hy, settle_next hy, rem_next]
  have hp : ∀ y, ((L.rem (.inr n)).settle live).prev y =
      ((L.settle live).rem (.inr n)).prev y := by
    intro y
    rw [rem_prev, settle_next_inr, settle_prev_inr]
    by_cases hy : Dead live y
    · have hyn : y ≠ L.next (.inr n) := fun he => hnext (he ▸ hy)
      rw [if_neg (by rintro rfl; exact hy), if_neg hyn]
      exact (if_pos hy).trans (if_pos hy).symm
    · rw [settle_prev hy, settle_prev hy, rem_prev]
  exact congrArg₂ Links.mk (funext hn) (funext hp)

theorem settle_init (hh : h ∉ live) :
    (L.init (.inl h)).settle (insert h live) = L.settle live := by
  classical
  have key : ∀ y : H ⊕ N, y = .inl h ∨ y ≠ .inl h ∧ (Dead (insert h live) y ↔ Dead live y) := by
    intro y
    by_cases hy : y = .inl h
    · exact .inl hy
    · refine .inr ⟨hy, ?_⟩
      cases y with
      | inl h' =>
        have hne : h' ≠ h := fun he => hy (he ▸ rfl)
        simp [Dead, hne]
      | inr => exact Iff.rfl
  have hlive : ¬ Dead (N := N) (insert h live) (.inl h) := not_not.mpr (Set.mem_insert h live)
  have hdead : Dead (N := N) live (.inl h) := hh
  refine congrArg₂ Links.mk (funext fun y => ?_) (funext fun y => ?_) <;>
    rcases key y with rfl | ⟨hy, hiff⟩
  · rw [if_neg hlive, if_pos hdead]
    exact Function.update_self ..
  · simp only [init, Function.update_of_ne hy]
    exact if_congr hiff rfl rfl
  · rw [if_neg hlive, if_pos hdead]
    exact Function.update_self ..
  · simp only [init, Function.update_of_ne hy]
    exact if_congr hiff rfl rfl

end Settle

end Links
