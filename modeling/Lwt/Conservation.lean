import Lwt.Delivery

/-! Runs with a LOCAL channel on one kernel thread. No message of the channel is
lost as long as none is sent while its receiver sleeps in a group wait with a stale
`now_rcving`. Without groups that cannot happen, and messages arrive in order. -/

namespace Lwt

section Runs

variable {σ₀ σ τ : State} {l : Label} {k : KthdId} {c : ChanId} {tr : List (State × Label)}

theorem Booted.plain (h : Booted σ k) (c : ChanId) : σ.Plain c := by
  obtain ⟨ht, hh, hsz, hty, -, -⟩ := h.chan
  refine ⟨fun hc => ?_, fun hc => ?_, fun r hc hr => ?_, fun hc => ?_, fun t => ?_, fun t hfr => ?_,
    fun t ht hd => ?_⟩
  · rw [h.chan_eq hc]
    exact hty
  · rw [h.chan_eq hc]
    exact RingBuffer.valid_empty ht hh hsz.ge (by rw [hsz]; decide)
  · rw [h.chan_eq hc] at hr
    rw [h.receiver r hr, h.nthreads]
    exact Nat.one_pos
  · simp [h.history, Event.sent, Event.rcvd]
  · simp [h.context]
  · simp [h.context] at hfr
  · have := hd.1
    rw [Task.rcving_eq_some_iff, Thread.task_context, h.context] at this
    simp at this

theorem Booted.inOrder (h : Booted σ k) (hc : c < σ.nchans) : (σ.mailbox c).InOrder := by
  obtain rfl := h.chan_eq hc
  obtain ⟨ht, hh, -⟩ := h.chan
  have hnot : (σ.threads 0).task.rcving ≠ some 0 := by
    rw [ne_eq, Task.rcving_eq_some_iff, Thread.task_context, h.thread.2.1]
    simp
  have hhand : σ.hand 0 = [] := by
    cases hr : (σ.chans 0).receiver with
    | none => simp only [State.hand, hr]
    | some r =>
      obtain rfl := h.receiver r hr
      simp only [State.hand, hr]
      exact if_neg fun hd => hnot hd.1
  have hring : (σ.mailbox 0).ring = [] := RingBuffer.contents_empty ht hh
  have hsenders : (σ.mailbox 0).senders = [] := by simp [h.queues]
  refine ⟨?_, fun _ => ⟨hring, hsenders⟩, fun h => absurd hsenders h⟩
  rw [Mailbox.pending, hring, hsenders, State.mailbox_hand, hhand]
  simp [h.history, Event.sent, Event.rcvd, List.filterMap_cons]

/-- What holds in a run in which channel `c` stays LOCAL. -/
structure InUse (σ : State) (k : KthdId) (c : ChanId) : Prop where
  inPlace : InPlace σ k
  wellFramed : WellFramed σ
  plain : σ.Plain c

theorem InUse.step (h : InUse σ k c) (hl : LocalUse c σ l) (hs : Step σ l τ) : InUse τ k c := by
  obtain ⟨cur, f, rest, hsec⟩ := step_local hs hl.ordinary.1
  exact ⟨h.inPlace.step hl.ordinary.1 hl.ordinary.2 hs, h.wellFramed.step hs,
    h.plain.step h.inPlace h.wellFramed hl hsec⟩

theorem Booted.inUse (h : Booted σ k) (c : ChanId) : InUse σ k c :=
  ⟨h.inPlace, h.wellFramed, h.plain c⟩

instance (c : ChanId) (σ : State) (l : Label) : Decidable (LocalUse c σ l) :=
  decidable_of_iff
    (Ordinary σ l ∧ (σ.frame l).bind Frame.setsType ≠ some (c, .global) ∧
      ∀ a ∈ (σ.frame l).bind Frame.makes, σ.nchans = c → 0 ≤ a.1 ∧ a.1 < 2147483648) <| by
    rw [ne_eq, frame_eq_iff Frame.setsType_eq_some, forall_frame_iff Frame.makes_eq_some]
    exact ⟨fun h => ⟨h.1, h.2.1, fun size mem => h.2.2 (size, mem)⟩,
      fun h => ⟨h.ordinary, h.type, fun a => h.size a.1 a.2⟩⟩

/-- `lwt_snd(c, ·)` is called while the receiver of `c` sleeps in `lwt_cgrp_wait`
with its `now_rcving` still `c`. -/
def StaleSend (c : ChanId) (σ : State) (l : Label) : Prop :=
  (∃ d, σ.frame l = some (.call (.lwtSnd c d))) ∧ σ.Stale c

/-- A step that is no stale send conserves the messages of `c`. -/
theorem InUse.conserved (h : InUse σ k c) (hl : LocalUse c σ l) (hs : Step σ l τ)
    (hns : ¬ StaleSend c σ l) (hcons : c < σ.nchans → (σ.mailbox c).Conserved) (hc : c < τ.nchans) :
    (τ.mailbox c).Conserved := by
  obtain ⟨cur, f, rest, hsec⟩ := step_local hs hl.ordinary.1
  rcases lt_or_ge c σ.nchans with hc' | hc'
  · have hns' : (∃ d, f = .call (.lwtSnd c d)) → ¬ σ.Stale c :=
      fun ⟨d, hf⟩ hst => hns ⟨⟨d, hf ▸ hsec.frame⟩, hst⟩
    cases moves h.inPlace h.wellFramed hl.ordinary.2 h.plain hc' hsec hns' with
    | same he =>
      rw [he]
      exact hcons hc'
    | step hstep => exact hstep.conserved (handFree σ c) (hcons hc')
    | take _ htake => exact htake.conserved (hcons hc')
  · exact (mailbox_created h.plain h.inPlace h.wellFramed hl hsec hc' hc).conserved

end Runs

end Lwt
