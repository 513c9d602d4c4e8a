import Lwt.Ready

/-! `lwt_cgrp_wait` looks at the channels of its group once before it blocks.
`lwt_snd` to a member wakes the owner, and `lwt_rcv` and `lwt_cgrp_rem` leave
nothing new to be received. `lwt_cgrp_add` does not look at the channel it adds:
an owner that sleeps goes on sleeping when the new member has something to be
received. That is the only way in which it comes to sleep on pending data. -/

namespace Lwt

open State

variable {σ τ σ' σ₀ : State} {l : Label} {cur : ThreadId} {f : Frame} {rest : List Frame}
  {c : ChanId} {d : Data} {n : Next} {g : CgrpId} {k : KthdId} {tr : List (State × Label)}

namespace State

def AsleepIn (σ : State) (g : CgrpId) : Prop :=
  (σ.threads (σ.cgrps g).owner).state = .blocked ∧
    (σ.threads (σ.cgrps g).owner).context.head? = some (.cgrpWaitLoop g)

/-- No owner sleeps in a group wait while something can be received from a member. -/
def NoneMissed (σ : State) : Prop :=
  ∀ g < σ.ncgrps, σ.AsleepIn g → ∀ c ∈ σ.chlLists g,
    (σ.chans c).ready ≠ 1 ∧ (σ.chans c).buffer.count = 0 ∧ σ.queues (.sender c) = []

end State

/-- A step of a run of one kernel thread with LOCAL channels, which start with a
size, with the flag down and in no group. -/
structure GroupUse (σ : State) (l : Label) : Prop where
  ordinary : Ordinary σ l
  type : ∀ c, σ.frame l ≠ some (.call (.setChanType c .global))
  size : ∀ size mem, σ.frame l = some (.call (.lwtChan size mem)) → 0 ≤ size ∧ size < 2147483648
  memory : ∀ mem ∈ σ.newChan l, ∀ raw ∈ mem.chan, raw.ready = 0 ∧ raw.cgroup = none

theorem GroupUse.flagUse (h : GroupUse σ l) (c : ChanId) : FlagUse c σ l where
  type := h.type c
  size size mem hf _ := h.size size mem hf
  ready _ mem hmem raw hraw := (h.memory mem hmem raw hraw).1

theorem GroupUse.nullGroup (h : GroupUse σ l) : NullGroup σ l := fun mem hmem raw hraw =>
  (h.memory mem hmem raw hraw).2

/-- Step `l` adds a channel from which something can be received to a group whose
owner sleeps in its wait. -/
def AddsPending (σ : State) (l : Label) : Prop :=
  ∃ g c, σ.frame l = some (.call (.lwtCgrpAdd g c)) ∧ (σ.chans c).cgroup = none ∧ σ.AsleepIn g ∧
    ((σ.chans c).ready = 1 ∨ σ.Pending c)

structure Attended (σ : State) (k : KthdId) : Prop where
  inPlace : InPlace σ k
  wellFramed : WellFramed σ
  grouped : σ.Grouped
  flagged : ∀ c, σ.Flagged c

section Steps

variable (h : Attended σ k) (hs : Section σ l τ cur f rest)

include h in
theorem Attended.step (hu : GroupUse σ l) (hs : Step σ l τ) : Attended τ k where
  inPlace := h.inPlace.step hu.ordinary.1 hu.ordinary.2 hs
  wellFramed := h.wellFramed.step hs
  grouped := grouped_step h.grouped h.wellFramed hu.nullGroup hs
  flagged c := flagged_step (h.flagged c) h.wellFramed (hu.flagUse c)
    (h.inPlace.sendersStay hu.ordinary) hs

include h in
/-- Nothing can be received from a channel exactly when its flag is not up. -/
theorem Attended.not_ready_iff (hc : c < σ.nchans) : (σ.chans c).ready ≠ 1 ↔ ¬ σ.Pending c :=
  not_congr ((h.flagged c).exact hc).ready

include h in
theorem Attended.member_lt (hc : c ∈ σ.chlLists g) : c < σ.nchans :=
  (groupOf_eq_some.mp ((h.grouped.homed.mem_iff g c).mp hc)).1

/-- The owner of a sleeping group is a thread that receives. -/
theorem InPlace.asleep (h : InPlace σ k) (hg : g < σ.ncgrps) (ha : σ.AsleepIn g) :
    (σ.cgrps g).owner < σ.nthreads ∧ (σ.threads (σ.cgrps g).owner).task.Receiving := by
  have hlt : (σ.cgrps g).owner < σ.nthreads := h.placed.cgrpOwner g hg
  refine ⟨hlt, ha.1, ?_⟩
  cases hb : (σ.threads (σ.cgrps g).owner).blockFor with
  | receiving => exact hb
  | sending =>
    obtain ⟨c, fs, hctx⟩ := (h.placed.parked _ hlt).sending ⟨ha.1, hb⟩
    have hhead := ha.2
    rw [show (σ.threads (σ.cgrps g).owner).context = .sndRet c :: fs from hctx] at hhead
    simp at hhead

include hs in
/-- An owner that sleeps in its wait behind a section slept there before, or has
just gone to sleep. -/
theorem Section.asleep (h : InPlace σ k) (hw : OwnerWaits σ l) (hτ : InPlace τ k)
    (hg : g < τ.ncgrps)
    (ha : τ.AsleepIn g) :
    f = .cgrpWaitLoop g ∧ (τ.cgrps g).owner = cur ∨
      (σ.cgrps g).owner ≠ cur ∧ (τ.cgrps g).owner = (σ.cgrps g).owner ∧ g < σ.ncgrps ∧
        σ.AsleepIn g := by
  obtain ⟨hlt, hrcv⟩ := hτ.asleep hg ha
  have hrun := h.running_cur hs.current
  have heff := h.effect hs
  have hown := InPlace.owner hw hs
  by_cases hcur : (τ.cgrps g).owner = cur
  · rw [AsleepIn, hcur] at ha
    rw [hcur] at hrcv
    have hhead : (τ.sched.tasks cur).context.head? = some (.cgrpWaitLoop g) := ha.2
    cases heff.self h.placed hrun hs.at_ hown with
    | goesOn fs hpush hc hn hr => exact absurd hrcv hr.not_receiving
    | sleepRcv rcving fr hf hc =>
      rw [hc] at hhead
      cases hf <;> simp at hhead
    | sleepGroup g' hf hc =>
      rw [hc] at hhead
      simp only [List.head?_cons, Option.some.injEq, Frame.cgrpWaitLoop.injEq] at hhead
      exact .inl ⟨hhead ▸ hf, hcur⟩
    | sleepSnd c d hf hc =>
      rw [hc] at hhead
      simp at hhead
    | die hf hc hr =>
      rw [hc] at hhead
      simp at hhead
  · refine .inr ?_
    have hlt' : (τ.cgrps g).owner < σ.nthreads := by
      by_contra hge
      have hctx : (τ.threads (τ.cgrps g).owner).context = [] :=
        heff.context_new (not_lt.mp hge) hlt hcur
      have hhead := ha.2
      simp [hctx] at hhead
    cases heff.other h.placed hrun hs.at_ hown hcur hlt' with
    | same hsame =>
      have hhead : (σ.threads (τ.cgrps g).owner).context.head? = some (.cgrpWaitLoop g) := by
        rw [← ha.2]
        exact congrArg List.head? hsame.context.symm
      obtain ⟨hg', ho⟩ := h.placed.waits _ hlt' g (List.mem_of_mem_head? hhead)
      have ho : (σ.cgrps g).owner = (τ.cgrps g).owner := ho
      rw [← ho] at hcur hhead hsame
      exact ⟨hcur, ho.symm, hg', hsame.state_iff.mp (ho ▸ ha.1), hhead⟩
    | woken hw hc hn hr => exact absurd hrcv hr.not_receiving
    | started hz hc hr => exact absurd hrcv hr.not_receiving

/-- A dispatch blocks no thread. -/
theorem Sched.Dispatch.not_blocked {s s' : Sched} {t : ThreadId} (hd : s.Dispatch s')
    (ht : (s.tasks t).state ≠ .blocked) : (s'.tasks t).state ≠ .blocked := by
  obtain ⟨u, _, -, rfl⟩ := hd
  by_cases hu : t = u
  · subst hu
    simp
  · simpa [hu] using ht

theorem State.WakeGroup.owner_not_blocked {σ₁ : State}
    (hw : WakeGroup (σ.modChan c fun ch => { ch with ready := 1 }) cur (σ.chans c).cgroup σ₁)
    (hg : (σ.chans c).cgroup = some g) (hb : (σ.cgrps g).blocked = true) :
    (σ₁.threads (σ.cgrps g).owner).state ≠ .blocked := by
  cases hw with
  | skip hno => exact absurd (hno g hg) (by simp [hb])
  | wake g' hg' =>
    obtain rfl := Option.some.inj (hg.symm.trans hg')
    simp [resumeThread]

/-- A message to a member of a sleeping group is handed over, or wakes the owner. -/
theorem snd_member (hs : Section σ l τ cur (.call (.lwtSnd c d)) rest)
    (htype : (σ.chans c).type = .local) (hg : (σ.chans c).cgroup = some g)
    (hb : (σ.cgrps g).blocked = true) (ho : (σ.cgrps g).owner ≠ cur) :
    (τ.chans c = σ.chans c ∧ ∀ t, t ∈ τ.queues (.sender c) → t ∈ σ.queues (.sender c)) ∨
      (τ.threads (σ.cgrps g).owner).state ≠ .blocked := by
  obtain ⟨⟨σ', n⟩, hbody, hfin⟩ := bind_ok hs.exec
  have hch : τ.chans c = σ'.chans c := congrFun (finish_fields hfin).2.1 c
  have hqs : τ.queues (.sender c) = σ'.queues (.sender c) := by rw [finish_queues hfin]
  cases (lwtSnd_ok hbody).2.2 with
  | sync r ht => exact absurd ht (by simp [htype])
  | noReceiver => exact .inl ⟨hch, fun t ht => hqs ▸ ht⟩
  | handOff r =>
    have hqs' : τ.queues (.sender c) = (σ.queues (.sender c)).erase r :=
      hqs.trans (resumeThread_sender _ cur r c)
    exact .inl ⟨hch, fun t ht => List.mem_of_mem_erase (hqs' ▸ ht)⟩
  | ring r σ₁ _ _ _ hwk =>
    refine .inr ?_
    have hτ := congrArg (fun s => (s.tasks (σ.cgrps g).owner).state) (finish_ret hfin)
    have hrun := hwk.owner_not_blocked hg hb
    simp only [Sched.leave_state] at hτ
    exact fun hbl => hrun (hτ.symm.trans hbl)
  | block r σ₁ _ _ _ hwk =>
    refine .inr ((finish_schedule hfin).not_blocked (t := (σ.cgrps g).owner) ?_)
    have hrun := hwk.owner_not_blocked hg hb
    rw [Sched.leave_state, blockThread_sending]
    simpa [countBlocked, ho] using hrun

include hs in
/-- A channel gets into a list by `lwt_cgrp_add` of it. -/
theorem mem_chlLists (hc : c ∈ τ.chlLists g) :
    c ∈ σ.chlLists g ∨ f = .call (.lwtCgrpAdd g c) ∧ (σ.chans c).cgroup = none := by
  have hnet := exec_net hs.exec
  have hc : c ∈ τ.net.chlLists g := hc
  generalize τ.net = ν at hnet hc
  cases hnet with
  | snd hlt hfree h => exact .inl (h.chlLists ▸ hc)
  | rcv hlt hfree h => exact .inl (h.chlLists ▸ hc)
  | syncRcv hlt hfree h => exact .inl (h.chlLists ▸ hc)
  | cgrpAdd g' c' hlt hn =>
    have hc : c ∈ σ.chlLists.append g' c' g := hc
    by_cases hg : g = g'
    · subst hg
      rw [Rings.append_self, Rings.mem_beforeLast] at hc
      rcases hc with rfl | hc
      · exact .inr ⟨rfl, hn⟩
      · exact .inl hc
    · rw [Rings.append_of_ne _ _ hg] at hc
      exact .inl hc
  | cgrpRem g' c' => exact .inl (List.mem_of_mem_erase hc)
  | cgrp => exact .inl (Rings.mem_of_mem_clear hc)
  | _ => exact .inl hc

include h hs in
/-- The owner of a group goes to sleep when nothing can be received from a member. -/
theorem wait_not_pending (hf : f = .cgrpWaitLoop g) (ho : (τ.cgrps g).owner = cur)
    (ha : τ.AsleepIn g) (hc : c ∈ σ.chlLists g) : ¬ σ.Pending c := by
  subst hf
  obtain ⟨⟨σ', n⟩, hbody, hfin⟩ := bind_ok hs.exec
  have hbl := ha.1
  rw [ho] at hbl
  cases (lwtCgrpWaitLoop_ok hbody).2 with
  | done c' =>
    have hτ := congrArg (fun s => (s.tasks cur).state) (finish_ret hfin)
    simp only [Sched.leave_state] at hτ
    exact absurd (hτ.symm.trans hbl) (h.inPlace.running_cur hs.current).canRun.not_blocked
  | block hr => exact (h.not_ready_iff (h.member_lt hc)).mp (hr c hc)

include h hs in
/-- A channel that is added to a sleeping group is a member of it, and the owner sleeps on. -/
theorem add_asleep (hf : f = .call (.lwtCgrpAdd g c)) (hn : (σ.chans c).cgroup = none)
    (ha : σ.AsleepIn g) (hg : g < σ.ncgrps) :
    g < τ.ncgrps ∧ τ.AsleepIn g ∧ c ∈ τ.chlLists g := by
  subst hf
  obtain ⟨⟨σ', n⟩, hbody, hfin⟩ := bind_ok hs.exec
  obtain ⟨-, ⟨d, rfl⟩, ⟨hsome, -⟩ | ⟨-, -, -, -, rfl⟩⟩ := lwtCgrpAdd_ok hbody
  · exact absurd hn hsome
  have hne : (σ.cgrps g).owner ≠ cur := by
    intro ho
    refine (h.inPlace.running_cur hs.current).canRun.not_blocked ?_
    rw [← ho]
    exact ha.1
  simp only [State.finish, Except.ok.injEq] at hfin
  subst hfin
  refine ⟨hg, ?_, ?_⟩
  · simpa [AsleepIn, hne] using ha
  · simp

include h hs in
/-- A step misses nothing if and only if it does not add a pending channel to a
sleeping group. -/
theorem noneMissed_step (hu : GroupUse σ l) (hstep : Step σ l τ) (hP : σ.NoneMissed) :
    τ.NoneMissed ↔ ¬ AddsPending σ l := by
  have hτ := h.step hu hstep
  have hsec (c : ChanId) (hc : c < σ.nchans) :=
    inbox_section hs (h.flagged c) hc h.wellFramed hstep (h.inPlace.sendersStay hu.ordinary)
  constructor
  · rintro hP' ⟨g, c, hf, hn, ha, hpend⟩
    obtain rfl := Option.some.inj (hs.frame.symm.trans hf)
    obtain ⟨⟨σ', n⟩, hbody, hfin⟩ := bind_ok hs.exec
    obtain ⟨hc, -, ⟨hsome, -⟩ | ⟨-, -, hg, -, -⟩⟩ := lwtCgrpAdd_ok hbody
    · exact absurd hn hsome
    obtain ⟨hg', ha', hmem⟩ := add_asleep h hs rfl hn ha hg
    have hnot := (hP' g hg' ha' c hmem).1
    have hready : (τ.chans c).ready = (σ.chans c).ready :=
      congrArg Inbox.ready ((hsec c hc).resolve_right (by simp))
    rw [hready, h.not_ready_iff hc] at hnot
    rcases hpend with hr | hp
    · exact (h.not_ready_iff hc).mpr hnot hr
    · exact hnot hp
  · intro hno g hg ha c hc
    have hcτ : c < τ.nchans := hτ.member_lt hc
    suffices hnp : ¬ τ.Pending c by
      refine ⟨(hτ.not_ready_iff hcτ).mpr hnp, ?_⟩
      simpa [State.Pending, not_or] using hnp
    intro hp
    rcases hs.asleep h.inPlace hu.ordinary.2 hτ.inPlace hg ha with ⟨rfl, hcur⟩ | ⟨hne, ho, hg', ha'⟩
    · have hmem : c ∈ σ.chlLists g := (mem_chlLists hs hc).resolve_right (by simp)
      have heq : τ.inbox c = σ.inbox c := (hsec c (h.member_lt hmem)).resolve_right (by simp)
      have hpend : (σ.inbox c).Pending := heq ▸ hp
      exact wait_not_pending h hs rfl hcur ha hmem hpend
    rcases mem_chlLists hs hc with hmem | ⟨rfl, hnull⟩
    · have hlt := h.member_lt hmem
      have hnp : ¬ σ.Pending c := (h.not_ready_iff hlt).mp (hP g hg' ha' c hmem).1
      rcases hsec c hlt with heq | ⟨⟨d, rfl⟩, -⟩ | ⟨-, htake⟩
      · have hpend : (σ.inbox c).Pending := heq ▸ hp
        exact hnp hpend
      · -- the owner of the group is woken by the message, or it is handed over
        obtain ⟨hlto, hrcv⟩ := h.inPlace.asleep hg' ha'
        have hb := h.inPlace.placed.asleep _ hlto g hrcv ha'.2
        have hgrp := (groupOf_eq_some.mp ((h.grouped.homed.mem_iff g c).mp hmem)).2
        rcases snd_member hs ((h.flagged c).type hlt) hgrp hb hne with ⟨hch, hq⟩ | hrun
        · refine hnp (hp.imp (fun hn => hch ▸ hn) fun hne => ?_)
          obtain ⟨t, ht⟩ := List.exists_mem_of_ne_nil _ hne
          exact List.ne_nil_of_mem (hq t ht)
        · exact hrun (ho ▸ ha.1)
      · exact hnp htake.pending
    · obtain ⟨⟨σ', n⟩, hbody, hfin⟩ := bind_ok hs.exec
      have hlt := (lwtCgrpAdd_ok hbody).1
      have heq : τ.inbox c = σ.inbox c := (hsec c hlt).resolve_right (by simp)
      have hpend : (σ.inbox c).Pending := heq ▸ hp
      exact hno ⟨g, c, hs.frame, hnull, ha', .inr hpend⟩

end Steps

section Runs

theorem Booted.attended (h : Booted σ k) (hready : (σ.chans 0).ready = 0)
    (hnull : (σ.chans 0).cgroup = none) : Attended σ k where
  inPlace := h.inPlace
  wellFramed := h.wellFramed
  grouped := h.grouped hnull
  flagged _ := h.flagged fun _ => hready

instance (σ : State) (g : CgrpId) : Decidable (σ.AsleepIn g) :=
  decidable_of_iff ((σ.threads (σ.cgrps g).owner).state = .blocked ∧
    (σ.threads (σ.cgrps g).owner).context.head?.bind Frame.waitsIn = some g) <| by
    simp only [AsleepIn, Option.bind_eq_some_iff, Frame.waitsIn_eq_some, exists_eq_right]

instance (σ : State) : Decidable σ.NoneMissed :=
  inferInstanceAs (Decidable (∀ g < σ.ncgrps, σ.AsleepIn g → ∀ c ∈ σ.chlLists g,
    (σ.chans c).ready ≠ 1 ∧ (σ.chans c).buffer.count = 0 ∧ σ.queues (.sender c) = []))

instance (σ : State) (l : Label) : Decidable (GroupUse σ l) :=
  decidable_of_iff
    (Ordinary σ l ∧ (∀ a ∈ (σ.frame l).bind Frame.setsType, a.2 ≠ .global) ∧
      (∀ a ∈ (σ.frame l).bind Frame.makes, 0 ≤ a.1 ∧ a.1 < 2147483648) ∧
      ∀ mem ∈ σ.newChan l, ∀ raw ∈ mem.chan, raw.ready = 0 ∧ raw.cgroup = none) <| by
    rw [forall_frame_iff Frame.setsType_eq_some, forall_frame_iff Frame.makes_eq_some]
    exact ⟨fun h => ⟨h.1, fun c hf => h.2.1 (c, .global) hf rfl,
      fun size mem => h.2.2.1 (size, mem), h.2.2.2⟩, fun h => ⟨h.ordinary,
      fun a hf ha => h.type a.1 (ha ▸ hf), fun a => h.size a.1 a.2, h.memory⟩⟩

/-- No owner sleeps in a group wait on pending data in any state of a run if and only
if no step adds a channel with something to be received to a group whose owner sleeps. -/
theorem none_missed_iff (h : Run σ₀ tr σ) (hb : σ₀.Boot k) (hready : (σ₀.chans 0).ready = 0)
    (hnull : (σ₀.chans 0).cgroup = none) (hu : ∀ p ∈ tr, GroupUse p.1 p.2) :
    (∀ τ ∈ Transition.visited tr σ, τ.NoneMissed) ↔ ∀ p ∈ tr, ¬ AddsPending p.1 p.2 := by
  have hboot := boot_ok hb
  refine Transition.Run.forall_visited_iff (I := fun σ => Attended σ k)
    (P := NoneMissed) (C := fun σ l => ¬ AddsPending σ l) (D := GroupUse) h hu
    (hboot.attended hready hnull) ?_ ?_ ?_
  · intro g hg
    rw [hboot.ncgrps] at hg
    exact absurd hg (Nat.not_lt_zero g)
  · exact fun σ l τ hI hu hs => hI.step hu hs
  · intro σ l τ hI hP hu hs
    obtain ⟨cur, f, rest, hsec⟩ := step_local hs hu.ordinary.1
    exact noneMissed_step hI hsec hu hs hP

/-- A thread waits on a group, and is woken by a message to a member. -/
theorem readyRun_none_missed :
    (∀ τ ∈ Transition.visited (booted.trace readyRun) (booted.after readyRun), τ.NoneMissed) ↔
      ∀ p ∈ booted.trace readyRun, ¬ AddsPending p.1 p.2 :=
  none_missed_iff (State.run_trace booted readyRun) boot_booted (by decide +kernel)
    (by decide +kernel) (by decide +kernel)

/-- A thread waits on a group with channel `2`; another sends to channel `1` and adds
it to the group. -/
def lateAddRun : List Label :=
  [.call (.lwtChan 1 chanMem), .call (.lwtChan 1 chanMem), .call (.lwtCgrp true),
    .call (.lwtCgrpAdd 0 2), .call (.lwtCreate 0 createMem), .call (.lwtCgrpWait 0), .resume,
    .call (.lwtSnd 1 (.word 5)), .call (.lwtCgrpAdd 0 1)]

theorem lateAddRun_missed : (∀ p ∈ booted.trace lateAddRun, GroupUse p.1 p.2) ∧
    ¬ (booted.after lateAddRun).NoneMissed := by
  constructor <;> decide +kernel

end Runs

end Lwt
