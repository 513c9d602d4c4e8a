import Lwt.Groups
import Lwt.Conservation
import Lwt.Lib.Inbox

/-! The flag `ready` of a LOCAL channel. `lwt_snd` sets it before it knows where
the value goes; `lwt_rcv` computes it from the counters of the ring when it has
read from it, and from the sender queue when it has not. The flag is exact in
every state of a run, for any size and any number of kernel threads, as long as
the threads that wait to send are taken off their queue by `lwt_rcv`. Hence a
channel that `lwt_cgrp_wait` has returned can be received from at once. -/

namespace Lwt

variable {σ τ σ' σ₀ : State} {l : Label} {cur : ThreadId} {f : Frame} {rest : List Frame}
  {c : ChanId} {d : Data} {n : Next} {g : CgrpId} {k : KthdId} {tr : List (State × Label)}

namespace State

@[simps] def inbox (σ : State) (c : ChanId) : Inbox Data where
  buffer := (σ.chans c).buffer
  size := (σ.chans c).size
  ready := (σ.chans c).ready
  waiting := σ.queues (.sender c) ≠ []

def Pending (σ : State) (c : ChanId) : Prop :=
  (σ.chans c).buffer.count ≠ 0 ∨ σ.queues (.sender c) ≠ []

instance (σ : State) (c : ChanId) : Decidable (σ.Pending c) :=
  inferInstanceAs (Decidable (_ ∨ _))

/-- Channel `c` is LOCAL and its flag is exact. -/
structure Flagged (σ : State) (c : ChanId) : Prop where
  type : c < σ.nchans → (σ.chans c).type = .local
  sync : ∀ t, .syncRcvLoop c ∉ (σ.threads t).context ∧ .syncRcvBlock c ∉ (σ.threads t).context
  exact : c < σ.nchans → (σ.inbox c).Exact
  freed : c < σ.nchans → (σ.chans c).freed = true → (σ.chans c).receiver = none

/-- What a section makes of the flag of a channel. -/
theorem ChanEffect.ready {ch : Chan} (h : ChanEffect σ cur c f ch)
    (hs : ∀ d, f ≠ .call (.lwtSnd c d)) (hr : f ≠ .call (.lwtRcv c)) (hl : f ≠ .syncRcvLoop c) :
    ch.ready = (σ.chans c).ready := by
  cases h with
  | same | setType | acquire | mark | add | rem => rfl
  | traffic b r hf =>
    rcases hf with ⟨d, rfl⟩ | rfl | rfl
    · exact absurd rfl (hs d)
    · exact absurd rfl hr
    · exact absurd rfl hl
  | deref => exact (derefChan_fields cur _).2.2.2.1

end State

/-- A step of a run in which channel `c`, if it exists, is LOCAL, and starts with a
size and with the flag down. -/
structure FlagUse (c : ChanId) (σ : State) (l : Label) : Prop where
  type : σ.frame l ≠ some (.call (.setChanType c .global))
  size : ∀ size mem, σ.frame l = some (.call (.lwtChan size mem)) → σ.nchans = c →
    0 ≤ size ∧ size < 2147483648
  ready : σ.nchans = c → ∀ mem ∈ σ.newChan l, ∀ raw ∈ mem.chan, raw.ready = 0

/-- Nothing but `lwt_rcv(c)` takes a thread off the sender queue of `c`. -/
def SendersStay (c : ChanId) (σ : State) (l : Label) : Prop :=
  σ.frame l ≠ some (.call (.lwtRcv c)) →
    ∀ τ, Step σ l τ → ∀ t ∈ σ.queues (.sender c), t ∈ τ.queues (.sender c)

section Sections

open State

variable (hs : Section σ l τ cur f rest) (hfl : σ.Flagged c) (hc : c < σ.nchans)

/-- In one kernel thread the senders stay on their queue. -/
theorem InPlace.sendersStay (h : InPlace σ k) (ho : Ordinary σ l) : SendersStay c σ l := by
  intro hr τ hstep t ht
  obtain ⟨cur, f, rest, hs⟩ := step_local hstep ho.1
  obtain ⟨hlt, hsnd, fs, hctx⟩ := h.placed.mem_sender ht
  have hrun := h.running_cur hs.current
  have hne : t ≠ cur := by
    rintro rfl
    exact hrun.canRun.not_sending hsnd
  have hplaced := (h.step ho.1 ho.2 hstep).placed
  have hle : σ.nthreads ≤ τ.nthreads := (h.effect hs).ntasks_le
  refine (hplaced.mem_iff (hlt.trans_le hle)).mpr ?_
  cases (h.effect hs).other h.placed hrun hs.at_ (InPlace.owner ho.2 hs) hne hlt with
  | same hsame =>
    exact (hsame.sending_iff.mpr hsnd).home (hsame.context.trans hctx)
  | woken hw =>
    obtain rfl := hw.mem_sender h.placed ht
    exact absurd hs.frame hr
  | started hz =>
    have := hsnd.1
    rw [hz] at this
    cases this

/-- The channel read off its fields. -/
theorem inbox_of_chan {b : Inbox Data} {ch : Chan} (hch : τ.chans c = ch)
    (hb : ch.buffer = b.buffer) (hsize : ch.size = b.size) (hr : ch.ready = b.ready)
    (hq : τ.queues (.sender c) ≠ [] ↔ b.waiting) : τ.inbox c = b := by
  subst hch
  exact Inbox.ext hb hsize hr (propext hq)

theorem inbox_eq (hch : τ.chans c = σ.chans c)
    (hq : τ.queues (.sender c) ≠ [] ↔ σ.queues (.sender c) ≠ []) : τ.inbox c = σ.inbox c :=
  inbox_of_chan hch rfl rfl rfl hq

theorem State.WakeGroup.mem_sender {σ₁ : State} {cgroup : Option CgrpId} {t : ThreadId}
    (h : State.WakeGroup (σ.modChan c fun ch => { ch with ready := 1 }) cur cgroup σ₁)
    (ht : t ∈ σ₁.queues (.sender c)) : t ∈ σ.queues (.sender c) := by
  cases h with
  | skip => exact ht
  | wake g =>
    rw [resumeThread_sender] at ht
    exact List.mem_of_mem_erase ht

include hs hfl hc in
/-- `lwt_snd(c, d)` hands `d` over or puts it into the channel. -/
theorem inbox_snd (hf : f = .call (.lwtSnd c d))
    (hkeep : σ.queues (.sender c) ≠ [] → τ.queues (.sender c) ≠ []) :
    τ.inbox c = σ.inbox c ∨ (σ.inbox c).Send (τ.inbox c) := by
  subst hf
  obtain ⟨⟨σ', n⟩, hb, hfin⟩ := bind_ok hs.exec
  have hch : τ.chans c = σ'.chans c := congrFun (finish_fields hfin).2.1 c
  have hqs : τ.queues (.sender c) = σ'.queues (.sender c) := by rw [State.finish_queues hfin]
  cases (lwtSnd_ok hb).2.2 with
  | sync r ht => exact absurd ht (by simp [hfl.type hc])
  | noReceiver => exact .inl (inbox_eq hch (by rw [hqs]; rfl))
  | handOff r =>
    have hqs' : τ.queues (.sender c) = (σ.queues (.sender c)).erase r :=
      hqs.trans (resumeThread_sender _ cur r c)
    refine .inl (inbox_eq hch ⟨fun hne => ?_, hkeep⟩)
    rw [hqs'] at hne
    obtain ⟨t, ht⟩ := List.exists_mem_of_ne_nil _ hne
    exact List.ne_nil_of_mem (List.mem_of_mem_erase ht)
  | ring r σ₁ _ _ _ hwk hn _ hf =>
    refine .inr ?_
    have heq : τ.inbox c = { σ.inbox c with
        buffer := (σ.chans c).buffer.push (σ.chans c).size d, ready := 1 } := by
      have hch' : τ.chans c = { σ.chans c with
          buffer := (σ.chans c).buffer.push (σ.chans c).size d, ready := 1 } := by
        rw [hch]
        simp [hwk.chans]
      refine inbox_of_chan hch' rfl rfl rfl ⟨fun hne => ?_, hkeep⟩
      rw [hqs] at hne
      obtain ⟨t, ht⟩ := List.exists_mem_of_ne_nil _ hne
      exact List.ne_nil_of_mem (hwk.mem_sender ht)
    rw [heq]
    exact .put d hn hf
  | block r σ₁ _ _ _ hwk hn =>
    refine .inr ?_
    have heq : τ.inbox c = { σ.inbox c with ready := 1, waiting := True } := by
      have hch' : τ.chans c = { σ.chans c with ready := 1 } := by
        rw [hch, blockThread_sending]
        simp [countBlocked, hwk.chans]
      refine inbox_of_chan hch' rfl rfl rfl (iff_of_true ?_ trivial)
      rw [hqs, blockThread_sending]
      simp [Rings.add]
    rw [heq]
    exact .wait hn

include hs hfl hc in
/-- `lwt_rcv(c)` blocks or takes a value. -/
theorem inbox_rcv (hf : f = .call (.lwtRcv c)) :
    τ.inbox c = σ.inbox c ∨ (σ.inbox c).Take (τ.inbox c) := by
  subst hf
  obtain ⟨⟨σ', n⟩, hb, hfin⟩ := bind_ok hs.exec
  have hch : τ.chans c = σ'.chans c := congrFun (finish_fields hfin).2.1 c
  have hqs : τ.queues (.sender c) = σ'.queues (.sender c) := by rw [State.finish_queues hfin]
  cases (lwtRcv_ok hb).2.2 with
  | sync r ht => exact absurd ht (by simp [hfl.type hc])
  | ring _ hn _ _ hq =>
    have heq : τ.inbox c = { σ.inbox c with
        buffer := (σ.chans c).buffer.pop
        ready := if (σ.chans c).buffer.pop.head = (σ.chans c).buffer.tail then 0 else 1 } := by
      have hch' : τ.chans c = { σ.chans c with
          buffer := (σ.chans c).buffer.pop
          ready := if (σ.chans c).buffer.pop.head = (σ.chans c).buffer.tail then 0 else 1 } := by
        rw [hch]
        simp
      exact inbox_of_chan hch' rfl rfl rfl (by rw [hqs]; rfl)
    rw [heq]
    exact .inr (.ring hn (by simpa using hq))
  | refill s l' _ hn _ _ hq hf' =>
    have heq : τ.inbox c = { σ.inbox c with
        buffer := (σ.chans c).buffer.pop.push (σ.chans c).size (σ.threads s).messageData
        ready := if (σ.chans c).buffer.pop.head = ((σ.chans c).buffer.pop.push (σ.chans c).size
          (σ.threads s).messageData).tail then 0 else 1
        waiting := τ.queues (.sender c) ≠ [] } := by
      have hch' : τ.chans c = { σ.chans c with
          buffer := (σ.chans c).buffer.pop.push (σ.chans c).size (σ.threads s).messageData
          ready := if (σ.chans c).buffer.pop.head = ((σ.chans c).buffer.pop.push (σ.chans c).size
            (σ.threads s).messageData).tail then 0 else 1 } :=
        hch.trans (Function.update_self _ _ _)
      exact inbox_of_chan hch' rfl rfl rfl Iff.rfl
    rw [heq]
    exact .inr (.refill _ _ hn (by simp [hq]) hf')
  | sender s l' _ hn hq =>
    have heq : τ.inbox c = { σ.inbox c with
        ready := if (σ.resumeThread cur s).queues (.sender c) = [] then 0 else 1
        waiting := τ.queues (.sender c) ≠ [] } := by
      have hch' : τ.chans c = { σ.chans c with
          ready := if (σ.resumeThread cur s).queues (.sender c) = [] then 0 else 1 } := by
        rw [hch]
        simp
      exact inbox_of_chan hch' rfl rfl rfl Iff.rfl
    have hqs' : τ.queues (.sender c) = (σ.resumeThread cur s).queues (.sender c) := hqs
    rw [heq]
    refine .inr (.handOver _ _ ?_ hn (by simp [hq]))
    rw [hqs']
    split_ifs with he <;> simp [he]
  | block _ hn hq =>
    refine .inl (inbox_eq ?_ ?_)
    · rw [hch, blockThread_receiving]
      simp [countBlocked]
    · rw [hqs, blockThread_receiving]
      simp [countBlocked, Rings.rem, hq]

include hs hfl hc in
/-- What a section does to a LOCAL channel and its flag. -/
theorem inbox_section (ht : WellFramed σ) (hstep : Step σ l τ) (hstay : SendersStay c σ l) :
    τ.inbox c = σ.inbox c ∨
      (∃ d, f = .call (.lwtSnd c d)) ∧ (σ.inbox c).Send (τ.inbox c) ∨
      f = .call (.lwtRcv c) ∧ (σ.inbox c).Take (τ.inbox c) := by
  by_cases hr : f = .call (.lwtRcv c)
  · rcases inbox_rcv hs hfl hc hr with heq | htake
    · exact .inl heq
    · exact .inr (.inr ⟨hr, htake⟩)
  have hkeep : σ.queues (.sender c) ≠ [] → τ.queues (.sender c) ≠ [] := by
    intro hne
    obtain ⟨t, hmem⟩ := List.exists_mem_of_ne_nil _ hne
    have hfr : σ.frame l ≠ some (.call (.lwtRcv c)) := by
      rw [hs.frame]
      simpa using hr
    exact List.ne_nil_of_mem (hstay hfr τ hstep t hmem)
  by_cases hsnd : ∃ d, f = .call (.lwtSnd c d)
  · obtain ⟨d, hf⟩ := hsnd
    rcases inbox_snd hs hfl hc hf hkeep with heq | hsend
    · exact .inl heq
    · exact .inr (.inl ⟨⟨d, hf⟩, hsend⟩)
  · have hsnd : ∀ d, f ≠ .call (.lwtSnd c d) := by simpa using hsnd
    have hl : f ≠ .syncRcvLoop c := by
      rintro rfl
      have hctx : (σ.threads cur).context = .syncRcvLoop c :: rest := hs.at_.eq (by simp)
      exact (hfl.sync cur).1 (by simp [hctx])
    have heff : ChanEffect σ cur c f (τ.chans c) := (exec_net hs.exec).chanEffect hc
    refine .inl (inbox_of_chan rfl (heff.buffer hsnd hr hl) heff.size (heff.ready hsnd hr hl) ?_)
    refine ⟨fun hne he => hne ?_, hkeep⟩
    exact (ht.effect hs).sender_eq_nil hsnd he

include hs hc in
/-- The receiver of a freed channel is null. -/
theorem freed_section (hfree : (σ.chans c).freed = true → (σ.chans c).receiver = none) :
    (τ.chans c).freed = true → (τ.chans c).receiver = none := by
  have heff : ChanEffect σ cur c f (τ.chans c) := (exec_net hs.exec).chanEffect hc
  intro hτ
  by_cases hd : f = .call (.lwtChanDeref c)
  · subst hd
    obtain ⟨⟨σ', n⟩, hb, hfin⟩ := bind_ok hs.exec
    have hch : τ.chans c = σ'.chans c := congrFun (finish_fields hfin).2.1 c
    obtain ⟨-, hσ, rfl, -⟩ := lwtChanDeref_ok hb
    have hch : τ.chans c = derefChan cur (σ.chans c) := by
      rw [hch]
      simp
    rw [hch, derefChan_freed] at hτ
    rw [hch]
    split_ifs at hτ with hlast
    · exact hlast.2
    · simp [hσ] at hτ
  · rw [heff.freed hd] at hτ
    rcases heff.receiver with hr | ⟨hf, -, -⟩
    · rw [hr]
      exact hfree hτ
    · exact absurd hf hd

include hs in
theorem FlagUse.of_created {ch : Chan} (hu : FlagUse c σ l) (hcr : Created σ f ch)
    (hc : σ.nchans = c) :
    ch.type = .local ∧ ch.ready = 0 ∧ 0 ≤ ch.size ∧ ch.size < 2147483648 := by
  have hraw : ∀ mem ∈ f.newChan, ∀ raw ∈ mem.chan, raw.ready = 0 := by
    rw [← hs.newChan]
    exact hu.ready hc
  cases hcr with
  | chan size mem raw hmem hf =>
    obtain ⟨h0, h1⟩ := hu.size size mem (hf ▸ hs.frame) hc
    exact ⟨rfl, hraw mem (by simp [hf, Frame.newChan]) raw hmem, h0, h1⟩
  | thread flags mem raw hmem hf =>
    have hlt : (0 : ℤ) < 2147483648 := by decide
    exact ⟨rfl, hraw mem.chl (by simp [hf, Frame.newChan]) raw hmem, le_rfl, hlt⟩

include hs in
/-- A channel that has just been made is empty, and its flag is down. -/
theorem inbox_created (ht : WellFramed σ) (hu : FlagUse c σ l) (hc : σ.nchans ≤ c)
    (hc' : c < τ.nchans) :
    (τ.chans c).type = .local ∧ (τ.chans c).freed = false ∧ (τ.inbox c).Exact := by
  obtain ⟨rfl, hcr⟩ := (exec_net hs.exec).created hc hc'
  have hempty := hcr.empty
  have hq : τ.queues (.sender σ.nchans) = [] := by
    refine (ht.effect hs).sender_eq_nil ?_ (ht.fresh _ le_rfl)
    rcases hempty.2.2 with ⟨_, _, rfl⟩ | ⟨_, _, rfl⟩ <;> simp
  obtain ⟨htype, hready, h0, h1⟩ := hu.of_created hs hcr rfl
  exact ⟨htype, hcr.freed, Inbox.exact_empty hempty.1 hempty.2.1 h0 h1 hready (by simp [hq])⟩

include hs hfl in
theorem flagged_section (ht : WellFramed σ) (hstep : Step σ l τ) (hu : FlagUse c σ l)
    (hstay : SendersStay c σ l) : τ.Flagged c := by
  refine ⟨fun hc => ?_, hs.no_sync ht hfl.type hfl.sync, fun hc => ?_, fun hc => ?_⟩
  · rcases lt_or_ge c σ.nchans with hc' | hc'
    · exact hs.type_local hc' (hfl.type hc') hu.type
    · exact (inbox_created hs ht hu hc' hc).1
  · rcases lt_or_ge c σ.nchans with hc' | hc'
    · rcases inbox_section hs hfl hc' ht hstep hstay with heq | ⟨-, hsend⟩ | ⟨-, htake⟩
      · rw [heq]
        exact hfl.exact hc'
      · exact (hfl.exact hc').send hsend
      · exact (hfl.exact hc').take htake
    · exact (inbox_created hs ht hu hc' hc).2.2
  · rcases lt_or_ge c σ.nchans with hc' | hc'
    · exact freed_section hs hc' (hfl.freed hc')
    · intro hτ
      simp [(inbox_created hs ht hu hc' hc).2.1] at hτ

end Sections

section Runs

open State

/-- The exit channel of a new kernel thread starts with its flag down. -/
theorem flagged_initiate {mem : CreateMem} (h : σ.Flagged c)
    (hraw : σ.nchans = c → ∀ raw ∈ mem.chl.chan, raw.ready = 0)
    (hi : σ.initiate k mem = .ok τ) : τ.Flagged c := by
  obtain ⟨raw, hmem, -, hready, -⟩ := initiate_chan hi
  obtain ⟨th, ch, -, hctx, -, -, htail, hhead, hsize, htype, -, hfree, -, hτ⟩ := initiate_ok hi
  have hthreads : τ.threads = Function.update σ.threads σ.nthreads th := by rw [hτ]
  have hchans : τ.chans = Function.update σ.chans σ.nchans ch := by rw [hτ]
  have hnchans : τ.nchans = σ.nchans + 1 := by rw [hτ]
  have hsync (t : ThreadId) :
      .syncRcvLoop c ∉ (τ.threads t).context ∧ .syncRcvBlock c ∉ (τ.threads t).context := by
    rw [hthreads]
    by_cases hn : t = σ.nthreads
    · subst hn
      simp [hctx]
    · simpa [Function.update_of_ne hn] using h.sync t
  by_cases hc : c = σ.nchans
  · subst hc
    have hch : τ.chans σ.nchans = ch := by rw [hchans, Function.update_self]
    have hq : τ.queues (.sender σ.nchans) = [] := by
      rw [hτ]
      simp [Rings.append, Rings.clear]
    have hlt : ch.size < 2147483648 := by
      rw [hsize]
      decide
    rw [hch] at hready
    refine ⟨fun _ => by rw [hch, htype], hsync, fun _ => ?_, fun _ hf => ?_⟩
    · rw [inbox_of_chan (b := ⟨ch.buffer, ch.size, ch.ready, False⟩) hch rfl rfl rfl (by simp [hq])]
      exact Inbox.exact_empty htail hhead hsize.ge hlt (hready.trans (hraw rfl raw hmem)) not_false
    · rw [hch, hfree] at hf
      cases hf
  · have hch : τ.chans c = σ.chans c := by rw [hchans, Function.update_of_ne hc]
    have hold (hlt : c < τ.nchans) : c < σ.nchans := by
      rw [hnchans] at hlt
      exact lt_of_le_of_ne (Nat.le_of_lt_succ hlt) hc
    have hq : τ.queues (.sender c) = σ.queues (.sender c) := by
      rw [hτ]
      simp [Rings.append, Rings.clear, hc]
    refine ⟨fun hlt => ?_, hsync, fun hlt => ?_, fun hlt hf => ?_⟩
    · rw [hch]
      exact h.type (hold hlt)
    · rw [inbox_eq hch (by rw [hq])]
      exact h.exact (hold hlt)
    · rw [hch] at hf ⊢
      exact h.freed (hold hlt) hf

theorem flagged_step (h : σ.Flagged c) (ht : WellFramed σ) (hu : FlagUse c σ l)
    (hstay : SendersStay c σ l) (hs : Step σ l τ) : τ.Flagged c := by
  obtain ⟨cur, f, rest, hsec⟩ | ⟨k, -, rfl⟩ | ⟨k, mem, rfl, -, hi⟩ := step_cases hs
  · exact flagged_section hsec h ht hs hu hstay
  · exact ⟨h.type, h.sync, h.exact, h.freed⟩
  · exact flagged_initiate h (fun hc => hu.ready hc _ rfl) hi

theorem Booted.flagged (h : Booted σ k) (hready : c = 0 → (σ.chans 0).ready = 0) :
    σ.Flagged c := by
  obtain ⟨htail, hhead, hsize, htype, -, hfree⟩ := h.chan
  refine ⟨fun hc => ?_, fun t => ?_, fun hc => ?_, fun hc hf => ?_⟩
  · rw [h.chan_eq hc]
    exact htype
  · simp [h.context]
  · obtain rfl := h.chan_eq hc
    have hlt : (σ.inbox 0).size < 2147483648 := by
      rw [inbox_size, hsize]
      decide
    exact Inbox.exact_empty htail hhead hsize.ge hlt (hready rfl) (by simp [h.queues])
  · rw [h.chan_eq hc, hfree] at hf
    cases hf

theorem Run.flagged (h : Run σ₀ tr σ) (hb : σ₀.Boot k) (h0 : c = 0 → (σ₀.chans 0).ready = 0)
    (hu : ∀ p ∈ tr, FlagUse c p.1 p.2) (hstay : ∀ p ∈ tr, SendersStay c p.1 p.2) :
    WellFramed σ ∧ σ.Flagged c := by
  refine Transition.Run.invariant_of (I := fun σ => WellFramed σ ∧ σ.Flagged c)
    (C := fun σ l => FlagUse c σ l ∧ SendersStay c σ l) h (fun p hp => ⟨hu p hp, hstay p hp⟩)
    ⟨(boot_ok hb).wellFramed, (boot_ok hb).flagged h0⟩ ?_
  rintro σ l τ ⟨ht, hfl⟩ ⟨hu, hstay⟩ hs
  exact ⟨ht.step hs, flagged_step hfl ht hu hstay hs⟩

/-- What can be received stays until it is received. -/
theorem State.Flagged.pending_step (h : σ.Flagged c) (ht : WellFramed σ) (hstay : SendersStay c σ l)
    (hc : c < σ.nchans) (hr : σ.frame l ≠ some (.call (.lwtRcv c))) (hs : Step σ l τ)
    (hp : σ.Pending c) : τ.Pending c := by
  obtain ⟨cur, f, rest, hsec⟩ | ⟨k, -, rfl⟩ | ⟨k, mem, rfl, -, hi⟩ := step_cases hs
  · rcases inbox_section hsec h hc ht hs hstay with heq | ⟨-, hsend⟩ | ⟨rfl, -⟩
    · have hpend : (τ.inbox c).Pending := heq ▸ hp
      exact hpend
    · exact (h.exact hc).pending_send hsend
    · exact absurd hsec.frame hr
  · exact hp
  · obtain ⟨th, ch, -, -, -, -, -, -, -, -, -, -, -, hτ⟩ := initiate_ok hi
    have hch : τ.chans c = σ.chans c := by
      rw [hτ]
      exact Function.update_of_ne hc.ne _ _
    have hq : τ.queues (.sender c) = σ.queues (.sender c) := by
      rw [hτ]
      simp [Rings.append, Rings.clear, hc.ne]
    rw [Pending, hch, hq]
    exact hp

/-- `lwt_rcv(c)` by thread `cur` does not block, and it returns a value unless the
counter of the values put into the ring has overflowed. -/
structure State.RcvReturns (σ : State) (cur : ThreadId) (c : ChanId) : Prop where
  atOnce : ∀ τ n, σ.lwtRcv cur c = .ok (τ, n) → ∃ d, n = .ret d
  returns : 0 ≤ (σ.chans c).buffer.tail → ∃ τ d, σ.lwtRcv cur c = .ok (τ, .ret d)

theorem State.Flagged.rcvReturns (h : σ.Flagged c) (hc : c < σ.nchans)
    (hr : (σ.chans c).receiver = some cur) (hp : σ.Pending c) : σ.RcvReturns cur c := by
  have hring : (σ.chans c).buffer.Written (σ.chans c).size := (h.exact hc).ring
  have hfree : (σ.chans c).freed = false := by
    cases hf : (σ.chans c).freed with
    | false => rfl
    | true =>
      rw [h.freed hc hf] at hr
      cases hr
  have hchan : σ.chan? c = .ok (σ.chans c) := by
    simp [State.chan?, not_le.mpr hc, hfree]
  constructor
  · intro τ n hok
    cases (lwtRcv_ok hok).2.2 with
    | sync r ht => exact absurd ht (by simp [h.type hc])
    | ring | refill | sender => exact ⟨_, rfl⟩
    | block _ hn hq =>
      rcases hp with hp | hp
      · exact absurd hn hp
      · exact absurd hq hp
  · intro htail
    have hlocal : (σ.chans c).type ≠ .global := by simp [h.type hc]
    by_cases hn : (σ.chans c).buffer.count = 0
    · have hq : σ.queues (.sender c) ≠ [] := hp.resolve_left (not_not.mpr hn)
      obtain ⟨s, l', hq⟩ := List.exists_cons_of_ne_nil hq
      simp [State.lwtRcv, hchan, hlocal, hn, hq, bind, Except.bind]
    · have hsize : 0 < (σ.chans c).size :=
        lt_of_lt_of_le (lt_of_le_of_ne hring.valid.count_nonneg (Ne.symm hn)) hring.valid.count_le
      have hread : σ.ringRead c =
          .ok (σ.modChan c fun ch => { ch with buffer := ch.buffer.pop },
            (σ.chans c).buffer.front (σ.chans c).size) := by
        simp [State.ringRead, hsize.ne', hring.fits_head hn]
      cases hq : σ.queues (.sender c) with
      | nil =>
        simp [State.lwtRcv, State.lwtRcvRing, hchan, hlocal, hn, hread, hq, bind, Except.bind]
      | cons s l' =>
        have hfull : (σ.chans c).buffer.count = (σ.chans c).size := (h.exact hc).full (by simp [hq])
        have hfits : (σ.chans c).buffer.Fits (σ.chans c).size (σ.chans c).buffer.tail :=
          hring.fits_tail hfull hsize htail
        simp [State.lwtRcv, State.lwtRcvRing, hchan, hlocal, hn, hread, hq, bind, Except.bind,
          State.ringWrite, hsize.ne', hfits]

theorem State.firstReady_lt {l : List ChanId} (h : σ.firstReady l = .ok (some c)) :
    c < σ.nchans := by
  induction l with
  | nil => cases h
  | cons c' l ih =>
    unfold State.firstReady at h
    obtain ⟨ch, hch, h⟩ := bind_ok h
    split_ifs at h with hr
    · simp only [Except.ok.injEq, Option.some.injEq] at h
      rw [← h]
      exact (chan?_ok hch).2.1
    · exact ih h

/-- What the running thread gets from a round of `lwt_cgrp_wait(g)`, if it returns. -/
def State.waitResult (σ : State) (g : CgrpId) : Option Data :=
  match σ.lwtCurrent with
  | none => none
  | some cur =>
    match σ.lwtCgrpWaitLoop cur g with
    | .ok (_, .ret d) => some d
    | _ => none

/-- Step `l` is a round of `lwt_cgrp_wait(g)` that returns `c`. -/
def WaitReturns (g : CgrpId) (c : ChanId) (σ : State) (l : Label) : Prop :=
  σ.frame l = some (.cgrpWaitLoop g) ∧ σ.waitResult g = some (.chan c)

/-- `lwt_cgrp_wait` returns a member of the group whose flag is up. -/
theorem WaitReturns.mem (h : WaitReturns g c σ l) :
    c ∈ σ.chlLists g ∧ c < σ.nchans ∧ (σ.chans c).ready = 1 := by
  obtain ⟨-, h⟩ := h
  unfold State.waitResult at h
  split at h
  · cases h
  split at h
  · rename_i cur _ τ d hok
    obtain rfl := Option.some.inj h
    unfold State.lwtCgrpWaitLoop at hok
    obtain ⟨gr, -, hok⟩ := bind_ok hok
    obtain ⟨o, ho, hok⟩ := bind_ok hok
    cases o with
    | none => simp at hok
    | some c' =>
      simp only [Except.ok.injEq, Prod.mk.injEq, Next.ret.injEq, Data.chan.injEq] at hok
      obtain ⟨-, rfl⟩ := hok
      rcases firstReady_ok ho with ⟨c, hmem, hc, hr⟩ | ⟨hno, -⟩
      · obtain rfl := Option.some.inj hc
        exact ⟨hmem, firstReady_lt ho, hr⟩
      · cases hno
  · cases h

instance (g : CgrpId) (c : ChanId) (σ : State) (l : Label) : Decidable (WaitReturns g c σ l) :=
  decidable_of_iff ((σ.frame l).bind Frame.waitsIn = some g ∧ σ.waitResult g = some (.chan c)) <| by
    rw [frame_eq_iff Frame.waitsIn_eq_some]
    rfl

theorem step_nchans_le (hs : Step σ l τ) : σ.nchans ≤ τ.nchans := by
  obtain ⟨cur, f, rest, hsec⟩ | ⟨k, -, rfl⟩ | ⟨k, mem, rfl, -, hi⟩ := step_cases hs
  · exact (exec_net hsec.exec).nchans_le
  · exact le_rfl
  · obtain ⟨th, ch, -, -, -, -, -, -, -, -, -, -, -, rfl⟩ := initiate_ok hi
    exact Nat.le_succ _

instance (c : ChanId) (σ : State) (l : Label) : Decidable (FlagUse c σ l) :=
  decidable_of_iff
    ((σ.frame l).bind Frame.setsType ≠ some (c, .global) ∧
      (∀ a ∈ (σ.frame l).bind Frame.makes, σ.nchans = c → 0 ≤ a.1 ∧ a.1 < 2147483648) ∧
      (σ.nchans = c → ∀ mem ∈ σ.newChan l, ∀ raw ∈ mem.chan, raw.ready = 0)) <| by
    rw [ne_eq, frame_eq_iff Frame.setsType_eq_some, forall_frame_iff Frame.makes_eq_some]
    exact ⟨fun h => ⟨h.1, fun size mem => h.2.1 (size, mem), h.2.2⟩,
      fun h => ⟨h.type, fun a => h.size a.1 a.2, h.ready⟩⟩

def readyRun : List Label :=
  [.call (.lwtChan 1 chanMem), .call (.lwtCgrp true), .call (.lwtCgrpAdd 0 1),
    .call (.lwtCreate 0 createMem), .call (.lwtCgrpWait 0), .resume,
    .call (.lwtSnd 1 (.word 5)), .call (.lwtYield none), .resume]

end Runs

end Lwt
