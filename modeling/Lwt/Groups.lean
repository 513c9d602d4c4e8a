import Lwt.Channels

/-! Channel groups: the channel list of a group and the back pointers of the
channels. They agree in every run. What can go wrong is the lifetime of a
channel: `lwt_chan_deref` frees it without a look at its group. -/

namespace Lwt

variable {σ τ σ' σ₀ : State} {l : Label} {cur : ThreadId} {f : Frame} {rest : List Frame}
  {n : Next} {c : ChanId} {d : Data} {g : CgrpId} {k : KthdId} {tr : List (State × Label)}

/-- The memory that a call about to be made gets for a channel. -/
def Frame.newChan : Frame → Option ChanMem
  | .call (.lwtChan _ mem) => some mem
  | .call (.lwtCreate _ mem) => some mem.chl
  | _ => none

namespace State

def newChan (σ : State) (l : Label) : Option ChanMem :=
  match l with
  | .initiate _ mem => some mem.chl
  | l => (σ.frame l).bind Frame.newChan

def groupOf (σ : State) (c : ChanId) : Option CgrpId :=
  if c < σ.nchans then (σ.chans c).cgroup else none

theorem groupOf_of_lt (h : c < σ.nchans) : σ.groupOf c = (σ.chans c).cgroup := if_pos h

theorem groupOf_eq_some : σ.groupOf c = some g ↔ c < σ.nchans ∧ (σ.chans c).cgroup = some g := by
  unfold groupOf
  split_ifs with h <;> simp [h]

/-- The channel lists are those of the back pointers, and no back pointer is dangling. -/
structure Grouped (σ : State) : Prop where
  homed : Rings.Homed σ.chlLists σ.groupOf
  live : ∀ c g, σ.groupOf c = some g → g < σ.ncgrps ∧ (σ.cgrps g).freed = false

/-- Membership in groups is recorded twice, in agreement, and leads to nothing freed. -/
structure Membership (σ : State) : Prop where
  nodup : ∀ g < σ.ncgrps, (σ.cgrps g).freed = false → (σ.chlLists g).Nodup
  mem_iff : ∀ g < σ.ncgrps, (σ.cgrps g).freed = false →
    ∀ c < σ.nchans, c ∈ σ.chlLists g ↔ (σ.chans c).cgroup = some g
  member : ∀ g < σ.ncgrps, (σ.cgrps g).freed = false →
    ∀ c ∈ σ.chlLists g, c < σ.nchans ∧ (σ.chans c).freed = false
  group : ∀ c < σ.nchans, (σ.chans c).freed = false →
    ∀ g, (σ.chans c).cgroup = some g → g < σ.ncgrps ∧ (σ.cgrps g).freed = false

theorem Grouped.membership_iff_freedAlone (h : σ.Grouped) :
    σ.Membership ↔ ∀ c < σ.nchans, (σ.chans c).freed = true → (σ.chans c).cgroup = none := by
  constructor
  · intro hm c hc hf
    by_contra hne
    obtain ⟨g, hg⟩ := Option.ne_none_iff_exists'.mp hne
    obtain ⟨hlt, hgf⟩ := h.live c g (groupOf_eq_some.mpr ⟨hc, hg⟩)
    have := (hm.member g hlt hgf c ((hm.mem_iff g hlt hgf c hc).mpr hg)).2
    rw [hf] at this
    cases this
  · intro hfree
    have hmem {g : CgrpId} {c : ChanId} : c ∈ σ.chlLists g ↔
        c < σ.nchans ∧ (σ.chans c).cgroup = some g := by
      rw [h.homed.mem_iff, groupOf_eq_some]
    refine ⟨fun g _ _ => h.homed.nodup g, fun g _ _ c hc => ?_, fun g _ _ c hcg => ?_,
      fun c hc _ g hg => h.live c g (groupOf_eq_some.mpr ⟨hc, hg⟩)⟩
    · rw [hmem]
      exact and_iff_right hc
    · obtain ⟨hc, hg⟩ := hmem.mp hcg
      refine ⟨hc, ?_⟩
      by_contra hf
      rw [hfree c hc (by simpa using hf)] at hg
      cases hg

end State

def NullGroup (σ : State) (l : Label) : Prop :=
  ∀ mem ∈ σ.newChan l, ∀ raw ∈ mem.chan, raw.cgroup = none

/-- Step `l` does not give up the last reference to a channel that is in a group. -/
def KeepsMembers (σ : State) (l : Label) : Prop :=
  ∀ c, σ.frame l = some (.call (.lwtChanDeref c)) →
    ((σ.chans c).receiver = σ.lwtCurrent ∧ (σ.chans c).sndCnt = 0 ∨
      (σ.chans c).receiver = none ∧ (σ.chans c).sndCnt = 1) → (σ.chans c).cgroup = none

namespace Sched

variable {s s' s₁ : Sched} {b : Bool}

/-- Groups are made and freed by the calls for it. -/
theorem Act.cgrps_eq (h : s.Act cur f rest b s₁) (hn : ∀ m, f ≠ .call (.lwtCgrp m))
    (hf : ∀ g, f ≠ .call (.lwtCgrpFree g)) :
    s₁.ncgrps = s.ncgrps ∧ ∀ g, (s₁.cgrps g).freed = (s.cgrps g).freed := by
  cases h with
  | newGroup m hf' => exact absurd hf' (hn m)
  | freeGroup g hf' => exact absurd hf' (hf g)
  | waitDone g | sleepGroup g =>
    refine ⟨rfl, fun g' => ?_⟩
    by_cases hg : g' = g
    · subst hg
      simp
    · simp [hg]
  | _ => exact ⟨rfl, fun _ => rfl⟩

theorem Effect.cgrps_eq (h : s.Effect cur f rest s') (hn : ∀ m, f ≠ .call (.lwtCgrp m))
    (hf : ∀ g, f ≠ .call (.lwtCgrpFree g)) :
    s'.ncgrps = s.ncgrps ∧ ∀ g, (s'.cgrps g).freed = (s.cgrps g).freed := by
  cases h with
  | stay h => exact h.cgrps_eq hn hf
  | switch h hd =>
    obtain ⟨t, l, -, rfl⟩ := hd
    exact h.cgrps_eq hn hf

end Sched

namespace State

/-- Nothing happens to the groups that a channel can point to. -/
theorem Grouped.congr (h : σ.Grouped) (hl : τ.chlLists = σ.chlLists)
    (hg : ∀ c, τ.groupOf c = σ.groupOf c)
    (hlive : ∀ g < σ.ncgrps, (σ.cgrps g).freed = false → (∃ c, σ.groupOf c = some g) →
      g < τ.ncgrps ∧ (τ.cgrps g).freed = false) : τ.Grouped where
  homed := by
    rw [hl]
    exact h.homed.congr hg
  live c g hc := by
    rw [hg] at hc
    obtain ⟨hlt, hf⟩ := h.live c g hc
    exact hlive g hlt hf ⟨c, hc⟩

theorem groupOf_congr (hn : τ.nchans = σ.nchans)
    (hg : ∀ c < σ.nchans, (τ.chans c).cgroup = (σ.chans c).cgroup) (c : ChanId) :
    τ.groupOf c = σ.groupOf c := by
  unfold groupOf
  rw [hn]
  split_ifs with hc
  · exact hg c hc
  · rfl

/-- A new channel is in no group. -/
theorem groupOf_new (hn : τ.nchans = σ.nchans + 1) (hnull : (τ.chans σ.nchans).cgroup = none)
    (hg : ∀ c < σ.nchans, (τ.chans c).cgroup = (σ.chans c).cgroup) (c : ChanId) :
    τ.groupOf c = σ.groupOf c := by
  unfold groupOf
  rw [hn]
  rcases lt_trichotomy c σ.nchans with hc | rfl | hc
  · rw [if_pos (hc.trans (Nat.lt_succ_self _)), if_pos hc]
    exact hg c hc
  · rw [if_pos (Nat.lt_succ_self _), if_neg (lt_irrefl _)]
    exact hnull
  · rw [if_neg (not_lt.mpr (Nat.succ_le_of_lt hc)), if_neg (not_lt.mpr hc.le)]

/-- One channel changes its group. -/
theorem groupOf_update {cg : Option CgrpId} (hlt : c < σ.nchans) (hn : τ.nchans = σ.nchans)
    (hc : τ.chans = Function.update σ.chans c { σ.chans c with cgroup := cg }) (c' : ChanId) :
    τ.groupOf c' = Function.update σ.groupOf c cg c' := by
  by_cases hcc : c' = c
  · subst hcc
    rw [groupOf_of_lt (hn ▸ hlt), hc]
    simp
  · rw [Function.update_of_ne hcc]
    simp [groupOf, hn, hc, hcc]

/-- The groups stay consistent if the new group of the one channel is live. -/
theorem Grouped.update {cg : Option CgrpId} (h : σ.Grouped)
    (hh : Rings.Homed τ.chlLists (Function.update σ.groupOf c cg))
    (hg : ∀ c', τ.groupOf c' = Function.update σ.groupOf c cg c')
    (hnew : ∀ g ∈ cg, g < τ.ncgrps ∧ (τ.cgrps g).freed = false)
    (hlive : ∀ g < σ.ncgrps, (σ.cgrps g).freed = false →
      g < τ.ncgrps ∧ (τ.cgrps g).freed = false) : τ.Grouped where
  homed := hh.congr hg
  live c' g hc' := by
    rw [hg] at hc'
    by_cases hcc : c' = c
    · subst hcc
      rw [Function.update_self] at hc'
      exact hnew g hc'
    · rw [Function.update_of_ne hcc] at hc'
      obtain ⟨hlt, hf⟩ := h.live c' g hc'
      exact hlive g hlt hf

/-- What one section makes of the back pointer of a channel. -/
theorem ChanEffect.cgroup {ch : Chan} (h : ChanEffect σ cur c f ch)
    (ha : ∀ g, f ≠ .call (.lwtCgrpAdd g c)) (hr : ∀ g, f ≠ .call (.lwtCgrpRem g c)) :
    ch.cgroup = (σ.chans c).cgroup := by
  cases h with
  | deref => exact (derefChan_fields cur _).2.2.2.2
  | add g hf => exact absurd hf (ha g)
  | rem g hf => exact absurd hf (hr g)
  | _ => rfl

/-- A channel is freed by `lwt_chan_deref` only. -/
theorem ChanEffect.freed {ch : Chan} (h : ChanEffect σ cur c f ch)
    (hd : f ≠ .call (.lwtChanDeref c)) : ch.freed = (σ.chans c).freed := by
  cases h with
  | deref hf => exact absurd hf hd
  | _ => rfl

theorem WakeGroup.chlLists {cgroup : Option CgrpId} (h : WakeGroup σ cur cgroup τ) :
    τ.chlLists = σ.chlLists := by
  cases h <;> rfl

theorem LwtSnd.chlLists (h : LwtSnd σ cur c d σ' n) : σ'.chlLists = σ.chlLists := by
  cases h with
  | ring r σ₁ _ _ _ hw => exact hw.chlLists
  | block r σ₁ _ _ _ hw =>
    rw [blockThread_sending]
    exact hw.chlLists
  | _ => rfl

theorem LwtRcv.chlLists (h : LwtRcv σ cur c σ' n) : σ'.chlLists = σ.chlLists := by
  cases h with
  | block => rw [blockThread_receiving]; rfl
  | _ => rfl

theorem SyncRcvLoop.chlLists (h : SyncRcvLoop σ cur c σ' n) : σ'.chlLists = σ.chlLists := by
  cases h <;> rfl

/-- The channel lists and the back pointers change together. -/
theorem NetEffect.grouped {ν : Net} (hnet : NetEffect σ cur f ν) (h : σ.Grouped)
    (hnull : ∀ mem ∈ f.newChan, ∀ raw ∈ mem.chan, raw.cgroup = none) (hν : τ.net = ν)
    (hf : f ≠ .call (.lwtCgrp true)) (hng : τ.ncgrps = σ.ncgrps)
    (hgf : ∀ g, (τ.cgrps g).freed = (σ.cgrps g).freed) : τ.Grouped := by
  have hlive {g : CgrpId} (hlt : g < σ.ncgrps) (hfree : (σ.cgrps g).freed = false) :
      g < τ.ncgrps ∧ (τ.cgrps g).freed = false := ⟨hng ▸ hlt, (hgf g).trans hfree⟩
  have hl : τ.chlLists = ν.chlLists := congrArg Net.chlLists hν
  have hc : τ.chans = ν.chans := congrArg Net.chans hν
  have hn : τ.nchans = ν.nchans := congrArg Net.nchans hν
  -- the calls that leave the groups alone
  have keep (hl' : ν.chlLists = σ.chlLists) (hn' : ν.nchans = σ.nchans)
      (hcg : ∀ c < σ.nchans, (ν.chans c).cgroup = (σ.chans c).cgroup) : τ.Grouped := by
    refine h.congr (hl.trans hl') (groupOf_congr (hn.trans hn') fun c hlt => ?_)
      fun _ h0 h1 _ => hlive h0 h1
    rw [hc]
    exact hcg c hlt
  have new {ch : Chan} (hl' : ν.chlLists = σ.chlLists) (hn' : ν.nchans = σ.nchans + 1)
      (hc' : ν.chans = Function.update σ.chans σ.nchans ch) (hch : ch.cgroup = none) :
      τ.Grouped := by
    refine h.congr (hl.trans hl') (groupOf_new (hn.trans hn') ?_ fun c hlt => ?_)
      fun _ h0 h1 _ => hlive h0 h1
    · rw [hc, hc']
      simpa using hch
    · rw [hc, hc', Function.update_of_ne hlt.ne]
  have other (ha : ∀ g c, f ≠ .call (.lwtCgrpAdd g c)) (hr : ∀ g c, f ≠ .call (.lwtCgrpRem g c)) :
      ∀ c < σ.nchans, (ν.chans c).cgroup = (σ.chans c).cgroup :=
    fun c hlt => (hnet.chanEffect hlt).cgroup (fun g => ha g c) fun g => hr g c
  cases hnet with
  | same => exact keep rfl rfl fun _ _ => rfl
  | sleep => exact keep rfl rfl fun _ _ => rfl
  | snd hc' hfree hs => exact keep hs.chlLists hs.nchans (other (by simp) (by simp))
  | rcv hc' hfree hs => exact keep hs.chlLists hs.nchans (other (by simp) (by simp))
  | syncRcv hc' hfree hs => exact keep hs.chlLists hs.nchans (other (by simp) (by simp))
  | thread fl mem raw t hraw => exact new rfl rfl rfl (hnull _ rfl raw hraw)
  | chan size mem raw hraw => exact new rfl rfl rfl (hnull _ rfl raw hraw)
  | cgrpAdd g c hlt hn' hfree hglt hgfree =>
    have hnone : σ.groupOf c = none := by rw [groupOf_of_lt hlt, hn']
    refine h.update ?_ (groupOf_update hlt hn hc) ?_ fun _ => hlive
    · rw [hl]
      exact h.homed.append hnone g
    · rintro _ ⟨⟩
      exact hlive hglt hgfree
  | cgrpRem g c hlt hr hn' =>
    refine h.update ?_ (groupOf_update hlt hn hc) (by simp) fun _ => hlive
    rw [hl]
    exact h.homed.rem c
  | cgrp => exact absurd rfl hf
  | _ => exact keep rfl rfl (other (by simp) (by simp))

end State

section Steps

variable (h : σ.Grouped) (ht : WellFramed σ) (hs : Section σ l τ cur f rest)

include hs in
theorem Section.newChan : σ.newChan l = f.newChan := by
  have hfr := hs.frame
  cases l with
  | call a => simp only [State.newChan, hfr, Option.bind_some]
  | resume => simp only [State.newChan, hfr, Option.bind_some]
  | switch k => cases hfr
  | initiate k mem => cases hfr

include h hs in
theorem grouped_cgrp {mem : Bool} (hf : f = .call (.lwtCgrp mem)) : τ.Grouped := by
  subst hf
  have hex := hs.exec
  cases mem with
  | false =>
    cases hex
    exact h.congr rfl (fun _ => rfl) fun g hg hfree _ => ⟨hg, hfree⟩
  | true =>
    cases hex
    refine ⟨?_, fun c g hc => ?_⟩
    · refine (h.homed.clear σ.ncgrps).congr fun c => ?_
      by_cases hc : σ.groupOf c = some σ.ncgrps
      · exact absurd (h.live c _ hc).1 (lt_irrefl _)
      · rw [if_neg hc]
        rfl
    · obtain ⟨hlt, hfree⟩ := h.live c g hc
      refine ⟨hlt.trans (Nat.lt_succ_self _), ?_⟩
      simpa [hlt.ne] using hfree

include h hs in
theorem grouped_free (hf : f = .call (.lwtCgrpFree g)) : τ.Grouped := by
  subst hf
  obtain ⟨⟨σ', n⟩, hb, hfin⟩ := bind_ok hs.exec
  obtain ⟨-, ⟨d, rfl⟩, rfl | ⟨hnil, rfl⟩⟩ := State.lwtCgrpFree_ok hb
  · cases hfin
    exact h.congr rfl (fun _ => rfl) fun g hg hfree _ => ⟨hg, hfree⟩
  · cases hfin
    refine h.congr rfl (fun _ => rfl) fun g' hg hfree ⟨c, hc⟩ => ⟨hg, ?_⟩
    have hne : g' ≠ g := by
      rintro rfl
      have hmem := (h.homed.mem_iff g' c).mpr hc
      simp [hnil] at hmem
    simpa [hne] using hfree

include h ht hs in
theorem grouped_section (hnull : NullGroup σ l) : τ.Grouped := by
  by_cases hc : ∃ mem, f = .call (.lwtCgrp mem)
  · obtain ⟨mem, hf⟩ := hc
    exact grouped_cgrp h hs hf
  by_cases hfr : ∃ g, f = .call (.lwtCgrpFree g)
  · obtain ⟨g, hf⟩ := hfr
    exact grouped_free h hs hf
  · push Not at hc hfr
    obtain ⟨hn, hg⟩ := (ht.effect hs).cgrps_eq hc hfr
    have hnew := hs.newChan
    exact (State.exec_net hs.exec).grouped h (fun mem hmem => hnull mem (hnew ▸ hmem)) rfl
      (hc true) hn hg

end Steps

/-- A new kernel thread makes a channel, which is in no group. -/
theorem grouped_initiate {mem : CreateMem} (h : σ.Grouped)
    (hnull : ∀ raw ∈ mem.chl.chan, raw.cgroup = none) (hi : σ.initiate k mem = .ok τ) :
    τ.Grouped := by
  obtain ⟨raw, hraw, hcg, -⟩ := State.initiate_chan hi
  obtain ⟨th, ch, -, -, -, -, -, -, -, -, -, -, -, rfl⟩ := State.initiate_ok hi
  refine h.congr rfl (State.groupOf_new rfl (hcg.trans (hnull raw hraw)) fun c hc => ?_)
    fun g hg hfree _ => ⟨hg, hfree⟩
  exact congrArg Chan.cgroup (Function.update_of_ne hc.ne _ _)

theorem grouped_step (h : σ.Grouped) (ht : WellFramed σ) (hnull : NullGroup σ l) (hs : Step σ l τ) :
    τ.Grouped := by
  obtain ⟨cur, f, rest, hs⟩ | ⟨k, -, rfl⟩ | ⟨k, mem, rfl, -, hi⟩ := step_cases hs
  · exact grouped_section h ht hs hnull
  · exact ⟨h.homed, h.live⟩
  · exact grouped_initiate h (hnull mem.chl rfl) hi

theorem Booted.grouped (h : Booted σ k) (hnull : (σ.chans 0).cgroup = none) : σ.Grouped := by
  have hnone (c : ChanId) : σ.groupOf c = none := by
    unfold State.groupOf
    split_ifs with hc
    · obtain rfl := h.chan_eq hc
      exact hnull
    · rfl
  refine ⟨⟨fun g => by simp [h.chlLists], fun g c => ?_⟩, fun c g hc => ?_⟩
  · simp [h.chlLists, hnone]
  · rw [hnone] at hc
    cases hc

/-- `lwt_chan_deref` frees a channel with the last reference to it. -/
theorem derefChan_freed_iff (cur : ThreadId) {ch : Chan} (hfree : ch.freed = false) :
    (State.derefChan cur ch).freed = true ↔
      ch.receiver = some cur ∧ ch.sndCnt = 0 ∨ ch.receiver = none ∧ ch.sndCnt = 1 := by
  rw [State.derefChan_freed, State.derefChan_sndCnt, State.derefChan_receiver, hfree]
  by_cases hr : ch.receiver = some cur
  · simp [hr]
  · simp only [hr, if_false, false_and, false_or]
    by_cases h : ch.sndCnt = 1 <;> simp [h, and_comm]
    omega

def State.FreedAlone (σ : State) : Prop :=
  ∀ c < σ.nchans, (σ.chans c).freed = true → (σ.chans c).cgroup = none

/-- A section leaves no freed channel in a group, unless it frees one there. -/
theorem freedAlone_section (h : σ.FreedAlone) (hs : Section σ l τ cur f rest) :
    τ.FreedAlone ↔ KeepsMembers σ l := by
  have hnet := State.exec_net hs.exec
  constructor
  · intro hτ c hf hlast
    have hf : f = .call (.lwtChanDeref c) := by
      have hfr := hs.frame
      rw [hf, Option.some.injEq] at hfr
      exact hfr.symm
    subst hf
    obtain ⟨⟨σ', n⟩, hb, hfin⟩ := bind_ok hs.exec
    obtain ⟨hc, hfree, rfl, rfl⟩ := State.lwtChanDeref_ok hb
    cases hfin
    rw [hs.current] at hlast
    have hfreed := (derefChan_freed_iff cur hfree).mpr hlast
    have := hτ c hc (by simpa using hfreed)
    simpa [(State.derefChan_fields cur (σ.chans c)).2.2.2.2] using this
  · intro hk c hc hfreed
    rcases lt_or_ge c σ.nchans with hlt | hge
    · by_cases hd : f = .call (.lwtChanDeref c)
      · subst hd
        obtain ⟨⟨σ', n⟩, hb, hfin⟩ := bind_ok hs.exec
        obtain ⟨-, hfree, rfl, rfl⟩ := State.lwtChanDeref_ok hb
        cases hfin
        have hlast := (derefChan_freed_iff cur hfree).mp (by simpa using hfreed)
        have hnone := hk c hs.frame (by rwa [hs.current])
        simpa [(State.derefChan_fields cur (σ.chans c)).2.2.2.2] using hnone
      · have heff : State.ChanEffect σ cur c f (τ.chans c) := hnet.chanEffect hlt
        have hold := (heff.freed hd).symm.trans hfreed
        have hnone := h c hlt hold
        generalize τ.chans c = ch at heff
        cases heff with
        | deref hf => exact absurd hf hd
        | add g hf hn hfree =>
          rw [hold] at hfree
          cases hfree
        | rem => rfl
        | _ => exact hnone
    · have hcr : State.Created σ f (τ.chans c) := (hnet.created hge hc).2
      rw [hcr.freed] at hfreed
      cases hfreed

instance (σ : State) (l : Label) : Decidable (NullGroup σ l) :=
  inferInstanceAs (Decidable (∀ mem ∈ σ.newChan l, ∀ raw ∈ mem.chan, raw.cgroup = none))

instance (σ : State) (l : Label) : Decidable (KeepsMembers σ l) :=
  decidable_of_iff _ (forall_frame_iff Frame.derefs_eq_some)

/-- A step leaves no freed channel in a group, unless it frees one there. -/
theorem freedAlone_step (h : σ.FreedAlone) (hs : Step σ l τ) : τ.FreedAlone ↔ KeepsMembers σ l := by
  obtain ⟨cur, f, rest, hsec⟩ | ⟨k, rfl, rfl⟩ | ⟨k, mem, rfl, -, hi⟩ := step_cases hs
  · exact freedAlone_section h hsec
  · exact iff_of_true h fun c hf => by cases hf
  · obtain ⟨th, ch, -, -, -, -, -, -, -, -, -, hfree, -, rfl⟩ := State.initiate_ok hi
    refine iff_of_true (fun c hc hfreed => ?_) fun c hf => by cases hf
    by_cases hcn : c = σ.nchans
    · subst hcn
      simp [hfree] at hfreed
    · have hlt : c < σ.nchans := lt_of_le_of_ne (Nat.le_of_lt_succ hc) hcn
      simp only [Function.update_of_ne hcn] at hfreed ⊢
      exact h c hlt hfreed

theorem Run.freedAlone_iff (h : Run σ₀ tr σ) (hb : σ₀.Boot k) (hb0 : (σ₀.chans 0).cgroup = none) :
    (∀ τ ∈ Transition.visited tr σ, τ.FreedAlone) ↔ ∀ p ∈ tr, KeepsMembers p.1 p.2 := by
  refine h.forall_visited_iff (I := fun _ => True) (D := fun _ _ => True) (fun _ _ => trivial)
    trivial (fun c hc _ => ?_) (fun _ _ _ _ _ _ => trivial) fun _ _ _ _ hP _ hs =>
      freedAlone_step hP hs
  obtain rfl := (boot_ok hb).chan_eq hc
  exact hb0

theorem Run.grouped (h : Run σ₀ tr σ) (hb : σ₀.Boot k) (hb0 : (σ₀.chans 0).cgroup = none)
    (hnull : ∀ p ∈ tr, NullGroup p.1 p.2) : WellFramed σ ∧ σ.Grouped :=
  h.invariant_of (I := fun σ => WellFramed σ ∧ σ.Grouped) (C := NullGroup) hnull
    ⟨(boot_ok hb).wellFramed, (boot_ok hb).grouped hb0⟩ fun _ _ _ hI hD hs =>
      ⟨hI.1.step hs, grouped_step hI.2 hI.1 hD hs⟩

/-- Membership in groups stays recorded twice in agreement, and leads to nothing freed,
if and only if no channel is freed while it is in a group. -/
theorem membership_iff (h : Run σ₀ tr σ) (hb : σ₀.Boot k) (hb0 : (σ₀.chans 0).cgroup = none)
    (hnull : ∀ p ∈ tr, NullGroup p.1 p.2) :
    (∀ τ ∈ Transition.visited tr σ, τ.Membership) ↔ ∀ p ∈ tr, KeepsMembers p.1 p.2 := by
  rw [← Run.freedAlone_iff h hb hb0]
  refine forall₂_congr fun τ hτ => ?_
  obtain ⟨tr', hr, hpre⟩ := h.of_mem_visited hτ
  exact (Run.grouped hr hb hb0 fun p hp => hnull p (hpre.subset hp)).2.membership_iff_freedAlone

/-- `lwt_cgrp_wait` looks at channels that exist. -/
theorem State.Membership.firstReady (h : σ.Membership) (hg : g < σ.ncgrps)
    (hfree : (σ.cgrps g).freed = false) : ∃ o, σ.firstReady (σ.chlLists g) = .ok o := by
  have hmem := h.member g hg hfree
  revert hmem
  induction σ.chlLists g with
  | nil => exact fun _ => ⟨none, rfl⟩
  | cons c cs ih =>
    intro hmem
    obtain ⟨hc, hcf⟩ := hmem c (by simp)
    obtain ⟨o, ho⟩ := ih fun c' hc' => hmem c' (List.mem_cons_of_mem c hc')
    have hget : σ.chan? c = .ok (σ.chans c) := by
      simp [State.chan?, not_le.mpr hc, hcf]
    by_cases hr : (σ.chans c).ready = 1
    · exact ⟨some c, by simp [State.firstReady, hget, bind, Except.bind, hr]⟩
    · exact ⟨o, by simp [State.firstReady, hget, bind, Except.bind, hr, ho]⟩

/-- `lwt_snd` looks at a group that exists. -/
theorem State.Membership.cgrp (h : σ.Membership) (hc : c < σ.nchans)
    (hfree : (σ.chans c).freed = false) (hg : (σ.chans c).cgroup = some g) :
    σ.cgrp? g = .ok (σ.cgrps g) := by
  obtain ⟨hlt, hgf⟩ := h.group c hc hfree g hg
  simp [State.cgrp?, not_le.mpr hlt, hgf]

def leaveRun : List Label :=
  [.call (.lwtChan 0 chanMem), .call (.lwtCgrp true), .call (.lwtCgrpAdd 0 1),
    .call (.lwtCgrpRem 0 1), .call (.lwtChanDeref 1), .call (.lwtCgrpFree 0)]

theorem leaveRun_membership :
    (∀ τ ∈ Transition.visited (booted.trace leaveRun) (booted.after leaveRun), τ.Membership) ↔
      ∀ p ∈ booted.trace leaveRun, KeepsMembers p.1 p.2 :=
  membership_iff (State.run_trace booted leaveRun) boot_booted (by decide +kernel)
    (by decide +kernel)

def freedRun : List Label :=
  [.call (.lwtChan 0 chanMem), .call (.lwtCgrp true), .call (.lwtCgrpAdd 0 1),
    .call (.lwtChanDeref 1)]

theorem freedRun_no_membership : ¬ (booted.after freedRun).Membership := by
  intro h
  have hfree := (h.member 0 (by decide +kernel) (by decide +kernel) 1 (by decide +kernel)).2
  exact absurd hfree (by decide +kernel)

end Lwt
