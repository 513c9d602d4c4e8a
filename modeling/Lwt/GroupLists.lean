import Lwt.InMemory

/-! The channel lists of the groups in the memory of their links, with any number of kernel threads.
A group is freed when its list is empty, a channel at any time. -/

namespace Lwt

variable {σ τ σ₀ σ' : State} {l : Label} {cur : ThreadId} {f : Frame} {rest : List Frame}
  {n : Next} {c : ChanId} {g : CgrpId} {k : KthdId} {tr : List (State × Label)}
  {L : Links (CgrpId ⊕ ChanId)} {used : Set ChanId}

namespace State

def groups (σ : State) : Set CgrpId := {g | g < σ.ncgrps ∧ (σ.cgrps g).freed = false}

/-- The operations of the section at a frame on the channel lists of the groups. -/
def groupOps (σ : State) : Frame → List (LinkOp CgrpId ChanId)
  | .call (.lwtCgrp true) => [.init σ.ncgrps]
  | .call (.lwtCgrpAdd g c) =>
    if (σ.chans c).cgroup.isSome then [] else [.op (.headAppend g c)]
  | .call (.lwtCgrpRem g c) =>
    if (σ.chans c).ready ≠ 0 then []
    else if (σ.chans c).cgroup ≠ some g then []
    else [.op (.rem c)]
  | _ => []

def groupStepOps (σ : State) (l : Label) : List (LinkOp CgrpId ChanId) :=
  match σ.frame l with
  | some f => σ.groupOps f
  | none => []

/-- Other calls leave the channel lists alone. -/
theorem NetEffect.chlLists {ν : Net} (hnet : NetEffect σ cur f ν)
    (hadd : ∀ g c, f ≠ .call (.lwtCgrpAdd g c)) (hrem : ∀ g c, f ≠ .call (.lwtCgrpRem g c))
    (hnew : f ≠ .call (.lwtCgrp true)) : ν.chlLists = σ.chlLists := by
  cases hnet with
  | snd _ _ h => exact h.chlLists
  | rcv _ _ h => exact h.chlLists
  | syncRcv _ _ h => exact h.chlLists
  | cgrpAdd g c => exact absurd rfl (hadd g c)
  | cgrpRem g c => exact absurd rfl (hrem g c)
  | cgrp => exact absurd rfl hnew
  | _ => rfl

theorem groupOps_other (hadd : ∀ g c, f ≠ .call (.lwtCgrpAdd g c))
    (hrem : ∀ g c, f ≠ .call (.lwtCgrpRem g c)) (hnew : f ≠ .call (.lwtCgrp true)) :
    σ.groupOps f = [] := by
  unfold groupOps
  split
  · exact absurd rfl hnew
  · exact absurd rfl (hadd _ _)
  · exact absurd rfl (hrem _ _)
  · rfl

end State

def groupLinksAfter (L : Links (CgrpId ⊕ ChanId)) (tr : List (State × Label)) :
    Links (CgrpId ⊕ ChanId) :=
  tr.foldl (fun L p => runOps L (p.1.groupStepOps p.2)) L

section Steps

variable (hI : InLinks L σ.groups used σ.chlLists) (hG : σ.Grouped)
  (hs : Section σ l τ cur f rest)

include hs in
theorem Section.groupStepOps : σ.groupStepOps l = σ.groupOps f := by
  rw [State.groupStepOps, hs.frame]

include hI hs in
/-- `lwt_cgrp` makes a list head. -/
theorem groupLinks_new (hf : f = .call (.lwtCgrp true)) :
    InLinks (runOps L (σ.groupOps f)) τ.groups used τ.chlLists := by
  subst hf
  have hex := hs.exec
  cases hex
  have hnot : σ.ncgrps ∉ σ.groups := fun h => lt_irrefl _ h.1
  refine (hI.init hnot).congr fun g => .inl ?_
  by_cases hg : g = σ.ncgrps
  · subst hg
    simp [State.groups]
  · have hlt : g < σ.ncgrps + 1 ↔ g < σ.ncgrps :=
      ⟨fun h => lt_of_le_of_ne (Nat.le_of_lt_succ h) hg, Nat.lt_succ_of_lt⟩
    rw [Set.mem_insert_iff, or_iff_right hg]
    show g < σ.ncgrps ∧ (σ.cgrps g).freed = false ↔
      g < σ.ncgrps + 1 ∧ (Function.update σ.cgrps σ.ncgrps _ g).freed = false
    rw [Function.update_of_ne hg, hlt]

include hI hG hs in
/-- `lwt_cgrp_add` puts a channel of no group on a list. -/
theorem groupLinks_add (hf : f = .call (.lwtCgrpAdd g c)) :
    ∃ used', InLinks (runOps L (σ.groupOps f)) τ.groups used' τ.chlLists := by
  subst hf
  obtain ⟨⟨σ', n⟩, hb, hfin⟩ := bind_ok hs.exec
  obtain ⟨hc, ⟨d, rfl⟩, ⟨hne, rfl⟩ | ⟨hnone, hfree, hg, hgf, rfl⟩⟩ := State.lwtCgrpAdd_ok hb
  · cases hfin
    rw [State.groupOps, if_pos (Option.isSome_iff_ne_none.mpr hne)]
    exact ⟨used, hI⟩
  · cases hfin
    rw [State.groupOps, if_neg (by simp [hnone])]
    have hout : ∀ g', c ∉ σ.chlLists g' := by
      intro g' hmem
      have hgc := (hG.homed.mem_iff g' c).mp hmem
      rw [State.groupOf_of_lt hc, hnone] at hgc
      cases hgc
    exact ⟨_, hI.headAppend (h := g) ⟨hg, hgf⟩ hout⟩

include hI hG hs in
/-- `lwt_cgrp_rem` takes a channel off the list of its group. -/
theorem groupLinks_rem (hf : f = .call (.lwtCgrpRem g c)) :
    InLinks (runOps L (σ.groupOps f)) τ.groups used τ.chlLists := by
  subst hf
  obtain ⟨⟨σ', n⟩, hb, hfin⟩ := bind_ok hs.exec
  obtain ⟨ch, hch, hb⟩ := bind_ok hb
  obtain ⟨rfl, hc, -⟩ := chan?_ok hch
  rw [State.groupOps]
  split_ifs at hb ⊢ with hr hg <;> cases hb <;> cases hfin
  · exact hI
  · exact hI
  · have hmem : c ∈ σ.chlLists g := by
      rw [hG.homed.mem_iff, State.groupOf_of_lt hc]
      exact not_not.mp hg
    exact hI.rem (hI.used g c hmem)

include hI hs in
/-- A group is freed when its list is empty. -/
theorem groupLinks_free (hf : f = .call (.lwtCgrpFree g)) :
    InLinks (runOps L (σ.groupOps f)) τ.groups used τ.chlLists := by
  subst hf
  obtain ⟨⟨σ', n⟩, hb, hfin⟩ := bind_ok hs.exec
  obtain ⟨hg, ⟨d, rfl⟩, rfl | ⟨hnil, rfl⟩⟩ := State.lwtCgrpFree_ok hb
  · cases hfin
    exact hI
  · cases hfin
    refine hI.congr fun g' => ?_
    by_cases hg' : g' = g
    · subst hg'
      by_cases hlive : g' ∈ σ.groups
      · exact .inr ⟨hlive, hnil⟩
      · exact .inl (iff_of_false hlive (by simp [State.groups]))
    · exact .inl (by simp [State.groups, hg'])

include hI hG hs in
theorem Section.groupLinks (ht : WellFramed σ) :
    ∃ used', InLinks (runOps L (σ.groupStepOps l)) τ.groups used' τ.chlLists := by
  rw [hs.groupStepOps]
  by_cases hnew : ∃ mem, f = .call (.lwtCgrp mem)
  · obtain ⟨mem, hf⟩ := hnew
    cases mem with
    | true => exact ⟨used, groupLinks_new hI hs hf⟩
    | false =>
      subst hf
      have hex := hs.exec
      cases hex
      exact ⟨used, hI⟩
  by_cases hfree : ∃ g, f = .call (.lwtCgrpFree g)
  · obtain ⟨g, hf⟩ := hfree
    exact ⟨used, groupLinks_free hI hs hf⟩
  by_cases hadd : ∃ g c, f = .call (.lwtCgrpAdd g c)
  · obtain ⟨g, c, hf⟩ := hadd
    exact groupLinks_add hI hG hs hf
  by_cases hrem : ∃ g c, f = .call (.lwtCgrpRem g c)
  · obtain ⟨g, c, hf⟩ := hrem
    exact ⟨used, groupLinks_rem hI hG hs hf⟩
  push Not at hnew hfree hadd hrem
  obtain ⟨hn, hgf⟩ := (ht.effect hs).cgrps_eq hnew hfree
  have hlists : τ.chlLists = σ.chlLists :=
    State.NetEffect.chlLists (State.exec_net hs.exec) hadd hrem (hnew true)
  have hgroups : τ.groups = σ.groups := by
    have hn : τ.ncgrps = σ.ncgrps := hn
    have hgf : ∀ g, (τ.cgrps g).freed = (σ.cgrps g).freed := hgf
    ext g
    simp only [State.groups, Set.mem_ofPred_eq, hn, hgf]
  rw [State.groupOps_other hadd hrem (hnew true), hlists, hgroups]
  exact ⟨used, hI⟩

include hI hG in
theorem groupLinks_step (ht : WellFramed σ) (hs : Step σ l τ) :
    ∃ used', InLinks (runOps L (σ.groupStepOps l)) τ.groups used' τ.chlLists := by
  obtain ⟨cur, f, rest, hs⟩ | ⟨k, rfl, rfl⟩ | ⟨k, mem, rfl, -, hi⟩ := step_cases hs
  · exact hs.groupLinks hI hG ht
  · exact ⟨used, hI⟩
  · obtain ⟨th, ch, -, -, -, -, -, -, -, -, -, -, -, rfl⟩ := State.initiate_ok hi
    exact ⟨used, hI⟩

end Steps

/-- The channel lists of the groups are in memory: from the list head of each group that is there
the links lead through its channels and back, forwards and backwards. No channel is on two lists,
none is on the list of a group that is gone, and those on a list have not been freed. -/
structure State.GroupsInMemory (σ : State) (L : Links (CgrpId ⊕ ChanId)) : Prop where
  forward : ∀ g ∈ σ.groups, Traversal L g (σ.chlLists g)
  backward : ∀ g ∈ σ.groups, BackTraversal L g (σ.chlLists g).reverse
  nodup : ∀ g, (σ.chlLists g).Nodup
  apart : ∀ g g' c, c ∈ σ.chlLists g → c ∈ σ.chlLists g' → g = g'
  member : ∀ g, ∀ c ∈ σ.chlLists g, c < σ.nchans ∧ (σ.chans c).freed = false
  gone : ∀ g ∉ σ.groups, σ.chlLists g = []

/-- The links are those of the lists in any case, so it depends on the channels. -/
theorem InLinks.groupsInMemory_iff (hI : InLinks L σ.groups used σ.chlLists) (hG : σ.Grouped) :
    σ.GroupsInMemory L ↔ σ.FreedAlone := by
  constructor
  · intro h c hc hfreed
    by_contra hne
    obtain ⟨g, hg⟩ := Option.ne_none_iff_exists'.mp hne
    have hmem : c ∈ σ.chlLists g :=
      (hG.homed.mem_iff g c).mpr (State.groupOf_eq_some.mpr ⟨hc, hg⟩)
    rw [(h.member g c hmem).2] at hfreed
    cases hfreed
  · intro h
    refine ⟨fun g => hI.forward, fun g => hI.backward, nodup_family hI.inv.family,
      fun _ _ _ => hI.inv.family.apart, fun g c hmem => ?_, hI.dead⟩
    obtain ⟨hc, hg⟩ := State.groupOf_eq_some.mp ((hG.homed.mem_iff g c).mp hmem)
    refine ⟨hc, Bool.eq_false_iff.mpr fun hfreed => ?_⟩
    rw [h c hc hfreed] at hg
    cases hg

theorem Run.groupLinks (h : Run σ₀ tr σ) (hb : σ₀.Boot k) (hb0 : (σ₀.chans 0).cgroup = none)
    (hnull : ∀ p ∈ tr, NullGroup p.1 p.2) (L : Links (CgrpId ⊕ ChanId)) :
    ∃ used, InLinks (groupLinksAfter L tr) σ.groups used σ.chlLists := by
  induction h with
  | nil =>
    have hboot := boot_ok hb
    have hnone : ∀ g, g ∉ σ₀.groups := fun g hg => Nat.not_lt_zero g (hboot.ncgrps ▸ hg.1)
    have hinit : Lists.Initialised ⟨L.settle σ₀.groups, fun _ => [], ∅⟩ :=
      ⟨fun g => Links.settle_single_dead (hnone g), fun c hc => absurd hc (Set.notMem_empty c),
        fun _ => rfl⟩
    rw [hboot.chlLists]
    exact ⟨∅, hinit.inv, fun _ _ hc => absurd hc List.not_mem_nil, fun _ _ => rfl⟩
  | @snoc tr s s' l hr hs ih =>
    obtain ⟨hnull, -⟩ := Transition.forall_steps_snoc.mp hnull
    obtain ⟨used, hI⟩ := ih hnull
    obtain ⟨ht, hG⟩ := Run.grouped hr hb hb0 hnull
    have hstep := groupLinks_step hI hG ht hs
    rwa [groupLinksAfter, List.foldl_append]

/-- In every run of any kernel threads, the list operations of the group calls keep in memory,
whatever was there at boot, the channel lists of every state visited, with nothing freed on them, if
and only if no channel is freed while it is in a group. -/
theorem groups_in_memory_iff (h : Run σ₀ tr σ) (hb : σ₀.Boot k)
    (hb0 : (σ₀.chans 0).cgroup = none) (hnull : ∀ p ∈ tr, NullGroup p.1 p.2)
    (L : Links (CgrpId ⊕ ChanId)) :
    (∀ i (v : State), (Transition.visited tr σ)[i]? = some v →
      v.GroupsInMemory (groupLinksAfter L (tr.take i))) ↔ ∀ p ∈ tr, KeepsMembers p.1 p.2 := by
  have hkey (i : ℕ) (v : State) (hv : (Transition.visited tr σ)[i]? = some v) :
      v.GroupsInMemory (groupLinksAfter L (tr.take i)) ↔ v.FreedAlone := by
    have hr := h.take_visited hv
    have hnull' : ∀ p ∈ tr.take i, NullGroup p.1 p.2 :=
      fun p hp => hnull p (List.mem_of_mem_take hp)
    obtain ⟨used, hI⟩ := Run.groupLinks hr hb hb0 hnull' L
    exact hI.groupsInMemory_iff (Run.grouped hr hb hb0 hnull').2
  rw [← Run.freedAlone_iff h hb hb0]
  constructor
  · intro hall v hv
    obtain ⟨i, hi⟩ := List.mem_iff_getElem?.mp hv
    exact (hkey i v hi).mp (hall i v hi)
  · intro hall i v hi
    exact (hkey i v hi).mpr (hall v (List.mem_of_getElem? hi))

theorem leaveRun_inMemory : (booted.after (leaveRun.take 3)).chlLists 0 = [1] ∧
    ∀ i (v : State),
      (Transition.visited (booted.trace leaveRun) (booted.after leaveRun))[i]? = some v →
        v.GroupsInMemory (groupLinksAfter ⟨id, id⟩ ((booted.trace leaveRun).take i)) :=
  ⟨by decide +kernel, (groups_in_memory_iff (State.run_trace booted leaveRun) boot_booted
    (by decide +kernel) (by decide +kernel) ⟨id, id⟩).mpr (by decide +kernel)⟩

end Lwt
