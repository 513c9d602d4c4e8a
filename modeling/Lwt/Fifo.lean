import Lwt.Conservation

/-! Order on a LOCAL channel. Where only its receiver receives from a channel, nobody
gives it up and there are no groups, messages are returned in the order in which
they were sent. -/

namespace Lwt

namespace Sched

variable {s s' s₁ : Sched} {cur : ThreadId} {f : Frame} {rest : List Frame} {b : Bool}

/-- Groups come from `lwt_cgrp` only. -/
theorem Act.ncgrps_eq (h : s.Act cur f rest b s₁) (hf : ∀ mem, f ≠ .call (.lwtCgrp mem)) :
    s₁.ncgrps = s.ncgrps := by
  cases h with
  | newGroup mem h => exact absurd h (hf mem)
  | _ => rfl

theorem Effect.ncgrps_eq (h : s.Effect cur f rest s') (hf : ∀ mem, f ≠ .call (.lwtCgrp mem)) :
    s'.ncgrps = s.ncgrps := by
  cases h with
  | stay h => exact h.ncgrps_eq hf
  | switch h hd =>
    obtain ⟨u, l, -, rfl⟩ := hd
    exact h.ncgrps_eq hf

end Sched

def Event.passed (c : ChanId) : Event → Option Data
  | .snd _ c' d | .sndNone _ c' d => if c' = c then some d else none
  | _ => none

/-- A step of a run of one kernel thread without groups in which channel `c` stays
LOCAL, is received from by its receiver only and is not given up. -/
structure FifoUse (c : ChanId) (σ : State) (l : Label) : Prop where
  localUse : LocalUse c σ l
  receiver : σ.frame l = some (.call (.lwtRcv c)) → σ.lwtCurrent = (σ.chans c).receiver
  deref : σ.frame l ≠ some (.call (.lwtChanDeref c))
  group : ∀ mem, σ.frame l ≠ some (.call (.lwtCgrp mem))

instance (c : ChanId) (σ : State) (l : Label) : Decidable (FifoUse c σ l) :=
  decidable_of_iff
    (LocalUse c σ l ∧
      ((σ.frame l).bind Frame.receives = some c → σ.lwtCurrent = (σ.chans c).receiver) ∧
      (σ.frame l).bind Frame.derefs ≠ some c ∧ ∀ mem ∈ (σ.frame l).bind Frame.groups, False) <| by
    rw [ne_eq, frame_eq_iff Frame.receives_eq_some, frame_eq_iff Frame.derefs_eq_some,
      forall_frame_iff Frame.groups_eq_some]
    exact ⟨fun h => ⟨h.1, h.2.1, h.2.2.1, h.2.2.2⟩,
      fun h => ⟨h.localUse, h.receiver, h.deref, h.group⟩⟩

section Runs

variable {σ₀ σ τ : State} {l : Label} {k : KthdId} {c : ChanId} {tr : List (State × Label)}

structure InOrder (σ : State) (k : KthdId) (c : ChanId) : Prop where
  inUse : InUse σ k c
  groups : σ.ncgrps = 0
  received : c < σ.nchans → ∃ r, (σ.chans c).receiver = some r
  accepted : ∀ t d, .sndNone t c d ∉ σ.history
  inOrder : c < σ.nchans → (σ.mailbox c).InOrder

/-- Without groups nobody is asleep in one. -/
theorem not_stale (h : InPlace σ k) (hn : σ.ncgrps = 0)
    (hlt : ∀ r, (σ.chans c).receiver = some r → r < σ.nthreads) : ¬ σ.Stale c := by
  rintro ⟨r, g, hr, -, -, hg⟩
  have := (h.placed.waits r (hlt r hr) g (List.mem_of_head? hg)).1
  rw [State.sched_ncgrps, hn] at this
  omega

/-- Messages stay in order in a step in which nobody but the receiver receives and no
message is handed to a receiver that has forgotten that it is no longer in `lwt_rcv`. -/
theorem InUse.inOrder_step (h : InUse σ k c) (hl : LocalUse c σ l)
    (hrcv : σ.frame l = some (.call (.lwtRcv c)) → σ.lwtCurrent = (σ.chans c).receiver)
    (hns : ¬ StaleSend c σ l) (hs : Step σ l τ) (ho : c < σ.nchans → (σ.mailbox c).InOrder)
    (hc : c < τ.nchans) : (τ.mailbox c).InOrder := by
  obtain ⟨cur, f, rest, hsec⟩ := step_local hs hl.ordinary.1
  rcases lt_or_ge c σ.nchans with hc' | hc'
  · have hns' : (∃ d, f = .call (.lwtSnd c d)) → ¬ σ.Stale c :=
      fun ⟨d, hf⟩ hst => hns ⟨⟨d, hf ▸ hsec.frame⟩, hst⟩
    cases moves h.inPlace h.wellFramed hl.ordinary.2 h.plain hc' hsec hns' with
    | same he =>
      rw [he]
      exact ho hc'
    | step hstep => exact hstep.inOrder (handFree σ c) (ho hc')
    | take hf htake =>
      subst hf
      have hr := hrcv hsec.frame
      rw [hsec.current] at hr
      refine htake.inOrder ?_ (ho hc')
      simp only [State.mailbox_hand, State.hand, ← hr]
      exact if_neg fun hd => by cases (hsec.handed_iff h.inPlace).mp hd
  · exact mailbox_created h.plain h.inPlace h.wellFramed hl hsec hc' hc

theorem InOrder.step (h : InOrder σ k c) (hu : FifoUse c σ l) (hs : Step σ l τ) :
    InOrder τ k c := by
  obtain ⟨hin, hgr, hrcvd, hacc, hord⟩ := h
  have hin' := hin.step hu.localUse hs
  obtain ⟨cur, f, rest, hsec⟩ := step_local hs hu.localUse.ordinary.1
  have hnet := State.exec_net hsec.exec
  have hsome : c < τ.nchans → ∃ r, (τ.chans c).receiver = some r := by
    intro hc
    rcases lt_or_ge c σ.nchans with hc' | hc'
    · rcases receiver_cases hsec hc' with hr | ⟨-, -, rfl⟩
      · rw [hr]
        exact hrcvd hc'
      · exact absurd hsec.frame hu.deref
    · obtain ⟨he, hcr⟩ := hnet.created hc' hc
      exact ⟨cur, (State.Plain.of_created hu.localUse he.symm hsec hcr).2.2⟩
  refine ⟨hin', ?_, hsome, ?_, fun hc => ?_⟩
  · have heff := hin.inPlace.effect hsec
    exact (heff.ncgrps_eq fun mem hf => hu.group mem (hf ▸ hsec.frame)).trans hgr
  · intro t d hmem
    obtain ⟨es, he, hes⟩ := hnet.history
    have he : τ.history = σ.history ++ es := he
    rw [he] at hmem
    rcases List.mem_append.mp hmem with hmem | hmem
    · exact hacc t d hmem
    · obtain ⟨-, rfl, hr⟩ := hes _ hmem
      obtain ⟨r, hr'⟩ := hrcvd hnet.snd_lt
      rw [hr] at hr'
      cases hr'
  · refine hin.inOrder_step hu.localUse hu.receiver (fun hst => ?_) hs hord hc
    obtain ⟨⟨d, hf⟩, hst⟩ := hst
    obtain rfl := Option.some.inj (hf.symm.trans hsec.frame)
    exact not_stale hin.inPlace hgr (fun r => hin.plain.receiver r hnet.snd_lt) hst

/-- Messages of channel `c` are returned in the order in which they were passed to
`lwt_snd`, and those not yet returned are in the hand of the receiver, in the ring
and with the queued senders, in this order. -/
theorem fifo_delivery (h : Run σ₀ tr σ) (hb : σ₀.Boot k) (hc : σ₀.nchans ≤ c)
    (hu : ∀ p ∈ tr, FifoUse c p.1 p.2) :
    ∀ τ ∈ Transition.visited tr σ, c < τ.nchans →
      τ.history.filterMap (Event.rcvd c) <+: τ.history.filterMap (Event.passed c) ∧
      τ.history.filterMap (Event.passed c) = τ.history.filterMap (Event.rcvd c) ++
        (τ.hand c ++ (τ.chans c).buffer.contents (τ.chans c).size ++
          (τ.queues (.sender c)).map fun t => (τ.threads t).messageData) := by
  intro τ hτ hcτ
  obtain ⟨tr', hr, hpre⟩ := h.of_mem_visited hτ
  have hboot := boot_ok hb
  have hinit : InOrder σ₀ k c :=
    ⟨hboot.inUse c, hboot.ncgrps, fun h => absurd hc (not_le.mpr h), by simp [hboot.history],
      fun h => absurd hc (not_le.mpr h)⟩
  have hin : InOrder τ k c := hr.invariant_of (I := fun σ => InOrder σ k c)
    (fun p hp => hu p (hpre.subset hp)) hinit fun _ _ _ h hu hs => h.step hu hs
  have hpassed : τ.history.filterMap (Event.passed c) = (τ.mailbox c).sent := by
    refine List.filterMap_congr fun e he => ?_
    cases e with
    | sndNone t c' d =>
      refine if_neg ?_
      rintro rfl
      exact hin.accepted t d he
    | _ => rfl
  rw [hpassed]
  exact ⟨(hin.inOrder hcτ).isPrefix, (hin.inOrder hcτ).sent⟩

/-- Two threads send to a channel of one slot, while the receiver waits, while
the ring has room and while it is full. -/
def fifoRun : List Label :=
  [.call (.lwtChan 1 chanMem), .call (.lwtCreate 0 createMem), .call (.lwtCreate 0 createMem),
    .call (.lwtRcv 1), .call (.lwtSnd 1 (.word 5)), .call (.lwtSnd 1 (.word 6)),
    .call (.lwtSnd 1 (.word 7)), .resume, .call (.lwtYield (some 2)), .call (.lwtSnd 1 (.word 8)),
    .call (.lwtRcv 1), .call (.lwtRcv 1)]

theorem fifoRun_delivery :
    (booted.after fifoRun).history.filterMap (Event.rcvd 1) <+:
        (booted.after fifoRun).history.filterMap (Event.passed 1) ∧
      (booted.after fifoRun).history.filterMap (Event.passed 1) =
        (booted.after fifoRun).history.filterMap (Event.rcvd 1) ++
          ((booted.after fifoRun).hand 1 ++
            ((booted.after fifoRun).chans 1).buffer.contents
              ((booted.after fifoRun).chans 1).size ++
            ((booted.after fifoRun).queues (.sender 1)).map fun t =>
              ((booted.after fifoRun).threads t).messageData) :=
  fifo_delivery (State.run_trace booted fifoRun) boot_booted (by decide +kernel) (by decide +kernel)
    _ (Transition.last_mem_visited _ _) (by decide +kernel)

end Runs

end Lwt
