import Lwt.Fifo
import Lwt.Ledger
import Lwt.Ready

/-! The capacity of a LOCAL channel. A call of `lwt_snd` that has passed its value either has
returned or is left behind `__block_thread`; counted over all threads this bounds the calls that
have returned by the values taken and those in the ring. -/

namespace Lwt

open State

variable {σ τ σ' σ₀ : State} {l : Label} {cur t : ThreadId} {f : Frame} {rest : List Frame}
  {c : ChanId} {d : Data} {n : Next} {k : KthdId} {tr : List (State × Label)}

/-- The call of `lwt_snd(c, ·)` that the event tells has returned `0`. -/
def Event.done (c : ChanId) : Event → Bool
  | .sndDone _ c' => c' = c
  | _ => false

/-- The innermost of these frames is behind the `__block_thread` of `lwt_snd(c, ·)`. -/
def InSend (c : ChanId) (fs : List Frame) : Prop := fs.head?.bind Frame.sendsIn = some c

instance (c : ChanId) (fs : List Frame) : Decidable (InSend c fs) :=
  inferInstanceAs (Decidable (_ = _))

theorem inSend_iff {fs : List Frame} : InSend c fs ↔ fs.head? = some (.sndRet c) := by
  rw [InSend, Option.bind_eq_some_iff]
  simp only [Frame.sendsIn_eq_some, exists_eq_right]

namespace State

def numDone (σ : State) (c : ChanId) : ℕ := σ.history.countP (Event.done c)

/-- The values taken from `c`: returned by `lwt_rcv(c)`, or in the hand of the receiver. -/
def numTaken (σ : State) (c : ChanId) : ℕ :=
  (σ.history.filterMap (Event.rcvd c)).length + (σ.hand c).length

/-- The threads that are left in `lwt_snd(c, ·)`. -/
def numInSend (σ : State) (c : ChanId) : ℕ := σ.numThreads fun th => InSend c th.context

/-- A call of `lwt_snd(c, ·)` that has passed its value has returned or is under way, and
`lwt_sync_snd` is not used. -/
structure SendsCounted (σ : State) (c : ChanId) : Prop where
  passed : (σ.mailbox c).sent.length = σ.numDone c + σ.numInSend c
  sync : ∀ t k, .syncSndWakeup c k ∉ (σ.threads t).context

end State

/-- Nothing is said of `c`. -/
theorem done_of_logs {es : List Event} (hes : ∀ e ∈ es, σ.Logs cur f e)
    (hsnd : ∀ d, f ≠ .call (.lwtSnd c d)) (hret : f ≠ .sndRet c)
    (hwake : ∀ k, f ≠ .syncSndWakeup c k) : es.countP (Event.done c) = 0 := by
  rw [List.countP_eq_zero]
  intro e he hd
  have hlog := hes e he
  cases e with
  | sndDone t c' =>
    obtain rfl : c' = c := of_decide_eq_true hd
    obtain ⟨-, ⟨d, hf⟩ | hf | ⟨k, hf⟩⟩ := hlog
    · exact hsnd d hf
    · exact hret hf
    · exact hwake k hf
  | _ => cases hd

section Sections

variable (hs : Section σ l τ cur f rest)

include hs in
theorem done_eq (hsnd : ∀ d, f ≠ .call (.lwtSnd c d)) (hret : f ≠ .sndRet c)
    (hwake : ∀ k, f ≠ .syncSndWakeup c k) : τ.numDone c = σ.numDone c := by
  obtain ⟨es, he, hes⟩ := (exec_net hs.exec).history
  have he : τ.history = σ.history ++ es := he
  rw [State.numDone, he, List.countP_append, done_of_logs hes hsnd hret hwake, add_zero]
  rfl

include hs in
/-- A thread is in `lwt_snd(c, ·)` before its section only at the section behind it. -/
theorem Section.inSend_before : InSend c (σ.threads cur).context ↔ f = .sndRet c := by
  rw [inSend_iff]
  rcases hs.at_ with hctx | ⟨⟨a, rfl⟩, hctx, -⟩
  · have hctx : (σ.threads cur).context = f :: rest := hctx
    simp [hctx]
  · have hctx : (σ.threads cur).context = [] := hctx
    simp [hctx]

include hs in
/-- A thread is in `lwt_snd(c, ·)` behind its section only if it called it. -/
theorem Section.inSend_after (ht : WellFramed σ) (hin : InSend c (τ.threads cur).context) :
    ∃ d, f = .call (.lwtSnd c d) := by
  rw [inSend_iff] at hin
  obtain ⟨fs, hctx, hfs⟩ := exec_frames hs.exec
  rw [hctx] at hin
  cases fs with
  | nil => exact absurd (ht.rest_outer hs _ (List.mem_of_mem_head? hin)) (by simp)
  | cons fr fs =>
    obtain rfl : fr = .sndRet c := by simpa using hin
    obtain ⟨d, hf, -⟩ := hfs (.sndRet c) (by simp)
    exact ⟨d, hf⟩

/-- What `lwt_snd(c, ·)` to a LOCAL channel logs, and how it leaves its thread. -/
theorem snd_counts (hs : Section σ l τ cur (.call (.lwtSnd c d)) rest) (ht : WellFramed σ)
    (hlocal : (σ.chans c).type = .local) :
    (τ.mailbox c).sent.length + σ.numDone c = (σ.mailbox c).sent.length + τ.numDone c +
      if InSend c (τ.threads cur).context then 1 else 0 := by
  obtain ⟨⟨σ', n⟩, hb, hfin⟩ := bind_ok hs.exec
  have hhist : τ.history = σ'.history := (finish_fields hfin).1
  have hctx : (τ.threads cur).context = n.frames ++ rest := finish_frames hfin
  have hrest : ¬ InSend c rest := by
    rw [inSend_iff]
    exact fun h => absurd (ht.rest_outer hs _ (List.mem_of_mem_head? h)) (by simp)
  have hwoken {cgroup : Option CgrpId} {σ₁ : State}
      (hw : WakeGroup (σ.modChan c fun ch => { ch with ready := 1 }) cur cgroup σ₁) :
      σ₁.history.filterMap (Event.sent c) = σ.history.filterMap (Event.sent c) ∧
        σ₁.history.countP (Event.done c) = σ.history.countP (Event.done c) := by
    cases hw with
    | skip => exact ⟨rfl, rfl⟩
    | wake => simp [State.resumeThread, Event.sent, Event.done]
  simp only [State.mailbox_sent, State.numDone, hhist, hctx]
  cases (lwtSnd_ok hb).2.2 with
  | sync r h => exact absurd (hlocal.symm.trans h) (by simp)
  | noReceiver => simp [Next.frames, hrest, Event.sent, Event.done]
  | handOff r =>
    simp [Next.frames, hrest, State.resumeThread, Event.sent, Event.done, List.filterMap_cons]
    omega
  | ring r σ₁ _ _ _ hw =>
    simp [Next.frames, hrest, Event.sent, Event.done, List.filterMap_cons, (hwoken hw).1,
      (hwoken hw).2]
    omega
  | block r σ₁ _ _ _ hw =>
    have hin : InSend c (.sndRet c :: rest) := inSend_iff.mpr rfl
    simp [Next.frames, hin, blockThread_sending, State.countBlocked, Event.sent, Event.done,
      List.filterMap_cons, (hwoken hw).1, (hwoken hw).2]
    omega

include hs in
/-- A section keeps the calls of `lwt_snd(c, ·)` counted. -/
theorem sendsCounted_section (hS : InPlace σ k) (ht : WellFramed σ) (hw : OwnerWaits σ l)
    (hlocal : c < σ.nchans → (σ.chans c).type = .local) (hC : σ.SendsCounted c) :
    τ.SendsCounted c := by
  obtain ⟨hpassed, hsync⟩ := hC
  have hdead : ∀ t < σ.nthreads, (σ.threads t).state = .zombies →
      ¬ InSend c (σ.threads t).context := by
    intro t hlt hz
    obtain ⟨fs, hctx⟩ := (hS.placed.parked t hlt).dead hz
    have hctx : (σ.threads t).context = .died :: fs := hctx
    simp [inSend_iff, hctx]
  have hnil : ¬ InSend c [] := by simp [inSend_iff]
  have hnum := numThreads_section hs hS hw hnil hdead
  have hbefore := hs.inSend_before (c := c)
  constructor
  · unfold State.numInSend at hpassed ⊢
    by_cases hsnd : ∃ d, f = .call (.lwtSnd c d)
    · obtain ⟨d, rfl⟩ := hsnd
      have hc : c < σ.nchans := (exec_net hs.exec).snd_lt
      have hcounts := snd_counts hs ht (hlocal hc)
      rw [if_neg (by simp [hbefore])] at hnum
      omega
    · have hafter : ¬ InSend c (τ.threads cur).context := fun h => hsnd (hs.inSend_after ht h)
      have hsnd : ∀ d, f ≠ .call (.lwtSnd c d) := by simpa using hsnd
      rw [if_neg hafter] at hnum
      rw [sent_eq hs hsnd]
      by_cases hret : f = .sndRet c
      · subst hret
        rw [if_pos (hbefore.mpr rfl)] at hnum
        have hdone : τ.numDone c = σ.numDone c + 1 := by
          obtain ⟨⟨σ', n⟩, hb, hfin⟩ := bind_ok hs.exec
          rw [State.numDone, (finish_fields hfin).1]
          cases hb
          simp [State.numDone, Event.done]
        omega
      · rw [if_neg (by simp [hbefore, hret])] at hnum
        have hwake : ∀ k, f ≠ .syncSndWakeup c k := by
          rintro k rfl
          have hctx : (σ.threads cur).context = .syncSndWakeup c k :: rest := hs.at_.eq (by simp)
          exact hsync cur k (by simp [hctx])
        rw [done_eq hs hsnd hret hwake]
        omega
  · intro t k hmem
    rcases ht.mem_context hs hmem with h | ⟨rfl, d, rfl, hg⟩
    · exact hsync t k h
    · exact absurd ((hlocal (exec_net hs.exec).snd_lt).symm.trans hg) (by simp)

end Sections

/-- A step in which channel `c` stays LOCAL, with a size that is not too large, only its receiver
receives from it and does not give it up, and a message is handed over only to a receiver that
is suspended in `lwt_rcv(c)`. -/
structure LawfulUse (c : ChanId) (σ : State) (l : Label) : Prop where
  type : σ.frame l ≠ some (.call (.setChanType c .global))
  size : ∀ size mem, σ.frame l = some (.call (.lwtChan size mem)) → σ.nchans = c →
    0 ≤ size ∧ size < 1073741824
  receiver : σ.frame l = some (.call (.lwtRcv c)) → σ.lwtCurrent = (σ.chans c).receiver
  deref : σ.frame l ≠ some (.call (.lwtChanDeref c))
  handOff : ∀ d, σ.frame l = some (.call (.lwtSnd c d)) → ∀ r, (σ.chans c).receiver = some r →
    (σ.threads r).task.Receiving → (σ.threads r).nowRcving = some c → (σ.threads r).task.Waits c

instance (th : Task) (c : ChanId) : Decidable (th.Waits c) := inferInstanceAs (Decidable (_ ∧ _))

instance (c : ChanId) (σ : State) (l : Label) : Decidable (LawfulUse c σ l) :=
  decidable_of_iff
    ((σ.frame l).bind Frame.setsType ≠ some (c, .global) ∧
      (∀ a ∈ (σ.frame l).bind Frame.makes, σ.nchans = c → 0 ≤ a.1 ∧ a.1 < 1073741824) ∧
      ((σ.frame l).bind Frame.receives = some c → σ.lwtCurrent = (σ.chans c).receiver) ∧
      (σ.frame l).bind Frame.derefs ≠ some c ∧
      ∀ a ∈ (σ.frame l).bind Frame.sends, a.1 = c → ∀ r ∈ (σ.chans c).receiver,
        (σ.threads r).task.Receiving → (σ.threads r).nowRcving = some c →
          (σ.threads r).task.Waits c) <| by
    rw [ne_eq, ne_eq, frame_eq_iff Frame.setsType_eq_some, forall_frame_iff Frame.makes_eq_some,
      frame_eq_iff Frame.receives_eq_some, frame_eq_iff Frame.derefs_eq_some,
      forall_frame_iff Frame.sends_eq_some]
    constructor
    · rintro ⟨ht, hs, hr, hd, hh⟩
      exact ⟨ht, fun size mem => hs (size, mem), hr, hd, fun d hf => hh (c, d) hf rfl⟩
    · rintro ⟨ht, hs, hr, hd, hh⟩
      refine ⟨ht, fun a => hs a.1 a.2, hr, hd, ?_⟩
      rintro ⟨c', d⟩ hf rfl
      exact hh d hf

/-- Such a step of a run of one kernel thread whose groups are waited on by their owners. -/
structure CapacityUse (c : ChanId) (σ : State) (l : Label) : Prop where
  ordinary : Ordinary σ l
  lawful : LawfulUse c σ l

instance (c : ChanId) (σ : State) (l : Label) : Decidable (CapacityUse c σ l) :=
  decidable_of_iff (Ordinary σ l ∧ LawfulUse c σ l) ⟨fun h => ⟨h.1, h.2⟩, fun h => ⟨h.1, h.2⟩⟩

structure State.Capacity (σ : State) (c : ChanId) : Prop where
  room : 0 ≤ (σ.chans c).buffer.count ∧ (σ.chans c).buffer.count ≤ (σ.chans c).size
  full : σ.queues (.sender c) ≠ [] → (σ.chans c).buffer.count = (σ.chans c).size
  idle : ∀ r, (σ.chans c).receiver = some r → (σ.threads r).task.Waits c →
    (σ.chans c).buffer.count = 0 ∧ σ.queues (.sender c) = []
  ahead : (σ.numDone c : ℤ) ≤ σ.numTaken c + (σ.chans c).size

structure Measured (σ : State) (k : KthdId) (c : ChanId) : Prop where
  inUse : InUse σ k c
  inOrder : c < σ.nchans → (σ.mailbox c).InOrder
  counted : σ.SendsCounted c

section Runs

theorem CapacityUse.localUse (hu : CapacityUse c σ l) : LocalUse c σ l :=
  ⟨hu.ordinary, hu.lawful.type, fun size mem hf hn => by
    obtain ⟨h0, h1⟩ := hu.lawful.size size mem hf hn
    omega⟩

theorem LawfulUse.not_staleSend (hu : LawfulUse c σ l) : ¬ StaleSend c σ l := by
  rintro ⟨⟨d, hf⟩, r, g, hr, hrcv, hn, hg⟩
  have hwt := (hu.handOff d hf r hr hrcv hn).1
  rw [Task.rcving_eq_some_iff, Thread.task_context, hg] at hwt
  cases hwt

theorem Measured.step (h : Measured σ k c) (hu : CapacityUse c σ l) (hs : Step σ l τ) :
    Measured τ k c := by
  obtain ⟨hin, hord, hcount⟩ := h
  obtain ⟨cur, f, rest, hsec⟩ := step_local hs hu.ordinary.1
  constructor
  · exact hin.step hu.localUse hs
  · exact hin.inOrder_step hu.localUse hu.lawful.receiver hu.lawful.not_staleSend hs hord
  · exact sendsCounted_section hsec hin.inPlace hin.wellFramed hu.ordinary.2 hin.plain.type hcount

theorem Booted.measured (h : Booted σ k) (c : ChanId) : Measured σ k c := by
  have hnone : σ.numInSend c = 0 := by
    refine (numBelow_of_le (Nat.zero_le _) fun t _ _ => ?_).trans rfl
    rw [h.context]
    simp [inSend_iff]
  refine ⟨h.inUse c, h.inOrder, ?_, by simp [h.context]⟩
  rw [hnone]
  simp [State.numDone, h.history, Event.sent, Event.done, List.filterMap_cons]

/-- Senders, ring and counts. -/
theorem Measured.capacity (h : Measured σ k c) (hc : c < σ.nchans) : σ.Capacity c := by
  obtain ⟨hin, hord, hpassed, -⟩ := h
  obtain ⟨hsent, hwait, hfull⟩ := hord hc
  have hvalid := hin.plain.valid hc
  have hlen : ((σ.mailbox c).ring.length : ℤ) = (σ.chans c).buffer.count := hvalid.length_contents
  have hle : ((σ.mailbox c).ring.length : ℤ) ≤ (σ.chans c).size := hvalid.length_le
  have hqueue : (σ.queues (.sender c)).length ≤ σ.numInSend c := by
    refine length_le_numBelow (hin.inPlace.placed.homed.nodup _) fun t ht => ?_
    obtain ⟨hlt, -, fs, hctx⟩ := hin.inPlace.placed.mem_sender ht
    have hctx : (σ.threads t).context = .sndRet c :: fs := hctx
    exact ⟨hlt, inSend_iff.mpr (by rw [hctx]; rfl)⟩
  have hsenders : (σ.mailbox c).senders.length = (σ.queues (.sender c)).length := by simp
  constructor
  · omega
  · intro hne
    rw [← hlen]
    exact hfull fun hnil => hne (List.map_eq_nil_iff.mp hnil)
  · intro r hr hwt
    obtain ⟨hring, hnil⟩ := hwait ⟨r, hr, hwt⟩
    exact ⟨by rw [← hlen, hring]; rfl, List.map_eq_nil_iff.mp hnil⟩
  · have htotal := congrArg List.length hsent
    simp only [Mailbox.pending, List.length_append] at htotal
    have htaken : σ.numTaken c = (σ.mailbox c).rcvd.length + (σ.mailbox c).hand.length := rfl
    omega

/-- The capacity law holds in every state of every run of one kernel thread, if only the
receiver of the channel receives from it and does not give it up. -/
theorem capacity_law (h : Run σ₀ tr σ) (hb : σ₀.Boot k) (hu : ∀ p ∈ tr, CapacityUse c p.1 p.2) :
    ∀ τ ∈ Transition.visited tr σ, c < τ.nchans → τ.Capacity c := by
  intro τ hτ hc
  obtain ⟨tr', hr, hpre⟩ := h.of_mem_visited hτ
  have hin : Measured τ k c := hr.invariant_of (I := fun σ => Measured σ k c)
    (fun p hp => hu p (hpre.subset hp)) ((boot_ok hb).measured c)
    fun _ _ _ h hu hs => h.step hu hs
  exact hin.capacity hc

/-- A thread sends three values to a channel of one slot before the receiver takes two. -/
def fillRun : List Label :=
  [.call (.lwtChan 1 chanMem), .call (.lwtCreate 0 createMem), .call (.lwtYield none),
    .call (.lwtSnd 1 (.word 5)), .call (.lwtSnd 1 (.word 6)), .call (.lwtRcv 1),
    .call (.lwtRcv 1), .call (.lwtRcv 1), .resume, .call (.lwtSnd 1 (.word 7))]

theorem fillRun_capacity : (booted.after fillRun).Capacity 1 :=
  capacity_law (State.run_trace booted fillRun) boot_booted (by decide +kernel) _
    (Transition.last_mem_visited _ _) (by decide +kernel)

/-- Thread `2` waits on a group of thread `1`, which then blocks behind a send to channel `1`;
the main thread sends to the channel of the group and so resumes thread `1`. -/
def strangerRun : List Label :=
  [.call (.lwtChan 0 chanMem), .call (.lwtCreate 0 createMem), .call (.lwtCreate 0 createMem),
    .call (.lwtYield none), .call (.lwtCgrp true), .call (.lwtChan 0 chanMem),
    .call (.lwtCgrpAdd 0 4), .call (.lwtYield none), .call (.lwtCgrpWait 0), .resume,
    .call (.lwtYield none), .call (.lwtSnd 1 (.word 5)), .call (.lwtSnd 4 (.word 6)), .resume]

theorem State.Capacity.not_of_lt (h : (σ.numTaken c : ℤ) + (σ.chans c).size < σ.numDone c) :
    ¬ σ.Capacity c := fun hC => absurd hC.ahead (not_le.mpr h)

/-- A group that is waited on by another than its owner makes a call of `lwt_snd` return
while its value waits. -/
theorem capacity_exceeded : (∀ p ∈ booted.trace strangerRun, LawfulUse 1 p.1 p.2 ∧ p.2.Local) ∧
    1 < (booted.after strangerRun).nchans ∧ ¬ (booted.after strangerRun).Capacity 1 := by
  refine ⟨by decide +kernel, by decide +kernel, ?_⟩
  exact State.Capacity.not_of_lt (by decide +kernel)

end Runs

end Lwt
