import Lwt.Channels
import Lwt.Wired

/-! The sections that read a field that nothing has been written to since its block was allocated.
As long as none is made, no channel comes into a group and none keeps a message: every value goes
to the hand of a receiver that waits for it. -/

namespace Lwt

variable {σ τ : State} {l : Label} {cur t : ThreadId} {f : Frame} {rest : List Frame} {c : ChanId}
  {d : Data}

namespace State

def Live (σ : State) (c : ChanId) : Prop := c < σ.nchans ∧ (σ.chans c).freed = false

/-- Thread `r` is suspended in `lwt_rcv` of the LOCAL channel `c`. -/
def Awaits (σ : State) (r : ThreadId) (c : ChanId) : Prop :=
  (σ.chans c).type = .local ∧ (σ.threads r).state = .blocked ∧
    (σ.threads r).blockFor = .receiving ∧ (σ.threads r).nowRcving = some c

/-- The section at a frame reads a field that nothing has been written to: `cgroup` or `ready` of a
channel that is put into a group, taken out of one or sent to, `rb_occupied` of a GLOBAL channel,
`init_sp` of a main thread. A send that finds its receiver waiting reads none of these. -/
def ReadsLeftover (σ : State) : Frame → Prop
  | .call (.lwtCgrpAdd _ c) | .call (.lwtCgrpRem _ c) => σ.Live c
  | .call (.lwtSnd c _) => σ.Live c ∧ ∃ r ∈ (σ.chans c).receiver, r < σ.nthreads ∧ ¬ σ.Awaits r c
  | .call (.lwtCreate _ mem) =>
    mem.chl.chan.isSome ∧
      ∃ t ∈ (σ.queues σ.currentRecycleQueue).head?, (σ.threads t).parent = none
  | _ => False

instance (c : ChanId) : Decidable (σ.Live c) := inferInstanceAs (Decidable (_ ∧ _))

instance (r : ThreadId) (c : ChanId) : Decidable (σ.Awaits r c) :=
  inferInstanceAs (Decidable (_ ∧ _ ∧ _ ∧ _))

theorem readsLeftover_iff : σ.ReadsLeftover f ↔ (∃ a ∈ f.adds, σ.Live a.2) ∨
    (∃ a ∈ f.removes, σ.Live a.2) ∨ (∃ a ∈ f.sends, σ.Live a.1 ∧
      ∃ r ∈ (σ.chans a.1).receiver, r < σ.nthreads ∧ ¬ σ.Awaits r a.1) ∨
    ∃ a ∈ f.creates, a.2.chl.chan.isSome ∧
      ∃ t ∈ (σ.queues σ.currentRecycleQueue).head?, (σ.threads t).parent = none := by
  cases f with
  | call a =>
    cases a <;> simp [ReadsLeftover, Frame.adds, Frame.removes, Frame.sends, Frame.creates]
  | _ => simp [ReadsLeftover, Frame.adds, Frame.removes, Frame.sends, Frame.creates]

instance (f : Frame) : Decidable (σ.ReadsLeftover f) := decidable_of_iff _ readsLeftover_iff.symm

theorem chan?_eq (h : σ.Live c) : σ.chan? c = .ok (σ.chans c) := by
  rw [chan?, if_neg (not_le.mpr h.1), if_neg (by simp [h.2])]

theorem thread?_eq (h : t < σ.nthreads) : σ.thread? t = .ok (σ.threads t) := by
  rw [thread?, if_neg (not_le.mpr h)]

/-- `lwt_snd` follows the pointer to the receiver. -/
theorem lwtSnd_receiver_lt {n : Next} {r : ThreadId} (hr : (σ.chans c).receiver = some r)
    (h : σ.lwtSnd cur c d = .ok (τ, n)) : r < σ.nthreads := by
  unfold lwtSnd at h
  obtain ⟨ch, hch, h⟩ := bind_ok h
  obtain ⟨rfl, -, -⟩ := chan?_ok hch
  split_ifs at h with ht
  · rw [setChanType_self ht, lwtSyncSnd] at h
    obtain ⟨ch, hch, h⟩ := bind_ok h
    obtain ⟨rfl, -, -⟩ := chan?_ok hch
    rw [hr] at h
    obtain ⟨rcv, hrcv, -⟩ := bind_ok h
    exact (thread?_ok hrcv).2
  · rw [hr] at h
    obtain ⟨rcv, hrcv, -⟩ := bind_ok h
    exact (thread?_ok hrcv).2

/-- A send that reads no leftovers finds nobody, or a receiver that waits for it. -/
theorem lwtSnd_of_not_reads {n : Next} (hr : ¬ σ.ReadsLeftover (.call (.lwtSnd c d)))
    (h : σ.lwtSnd cur c d = .ok (τ, n)) :
    (σ.chans c).receiver = none ∧ τ = σ.emit (.sndNone cur c d) ∧ n = .ret (.word (-1)) ∨
      ∃ r, (σ.chans c).receiver = some r ∧ σ.Awaits r c ∧
        τ = (((σ.modThread r fun th => { th with messageData := d }).resumeThread cur r).emit
          (.snd cur c d)).emit (.sndDone cur c) ∧ n = .ret .null := by
  obtain ⟨hc, hfree, hs⟩ := lwtSnd_ok h
  have hwaits (r : ThreadId) (hrcv : (σ.chans c).receiver = some r) : σ.Awaits r c := by
    by_contra hw
    exact hr ⟨⟨hc, hfree⟩, r, hrcv, lwtSnd_receiver_lt hrcv h, hw⟩
  cases hrcv : (σ.chans c).receiver with
  | none =>
    refine .inl ⟨rfl, ?_⟩
    cases hs with
    | noReceiver => exact ⟨rfl, rfl⟩
    | sync r _ hr' => simp [hrcv] at hr'
    | handOff r _ hr' => simp [hrcv] at hr'
    | ring r _ _ hr' => simp [hrcv] at hr'
    | block r _ _ hr' => simp [hrcv] at hr'
  | some r =>
    have hw := hwaits r hrcv
    refine .inr ⟨r, rfl, hw, ?_⟩
    cases hs with
    | noReceiver _ hr' => simp [hrcv] at hr'
    | sync r' ht => simp [hw.1] at ht
    | handOff r' _ hr' =>
      obtain rfl : r = r' := by simpa [hrcv] using hr'
      exact ⟨rfl, rfl⟩
    | ring r' _ _ hr' hb =>
      obtain rfl : r = r' := by simpa [hrcv] using hr'
      exact absurd ⟨⟨hw.2.1, hw.2.2.1⟩, hw.2.2.2⟩ hb
    | block r' _ _ hr' hb =>
      obtain rfl : r = r' := by simpa [hrcv] using hr'
      exact absurd ⟨⟨hw.2.1, hw.2.2.1⟩, hw.2.2.2⟩ hb

theorem live_of_rem {g : CgrpId} (h : σ.exec cur (.call (.lwtCgrpRem g c)) rest = .ok τ) :
    σ.Live c := by
  obtain ⟨x, hx, -⟩ := bind_ok h
  obtain ⟨ch, hch, -⟩ := bind_ok hx
  exact (chan?_ok hch).2

theorem context_of_wait {g : CgrpId} (hg : σ.chlLists g = [])
    (h : σ.exec cur (.call (.lwtCgrpWait g)) rest = .ok τ) : (τ.threads cur).context = rest := by
  obtain ⟨x, hx, hfin⟩ := bind_ok h
  obtain ⟨gr, -, hx⟩ := bind_ok hx
  rw [if_pos hg] at hx
  cases hx
  exact finish_frames hfin

theorem LwtRcv.same {σ' : State} {n : Next} (h : LwtRcv σ cur c σ' n)
    (hn : (σ.chans c).buffer.count = 0) (hq : σ.queues (.sender c) = []) :
    σ'.chans = σ.chans ∧ σ'.chlLists = σ.chlLists := by
  cases h with
  | sync => exact ⟨rfl, rfl⟩
  | ring _ hn' => exact absurd hn hn'
  | refill _ _ _ hn' => exact absurd hn hn'
  | sender s rest _ _ hq' => simp [hq] at hq'
  | block =>
    rw [blockThread_receiving]
    exact ⟨rfl, rfl⟩

theorem SyncRcvLoop.same {σ' : State} {n : Next} (h : SyncRcvLoop σ cur c σ' n)
    (hn : (σ.chans c).buffer.count = 0) : σ' = σ := by
  cases h with
  | read hn' => exact absurd hn hn'
  | empty => rfl

/-- What such a send leaves alone, whichever of the two it finds. -/
theorem exec_snd_of_not_reads (hr : ¬ σ.ReadsLeftover (.call (.lwtSnd c d)))
    (h : σ.exec cur (.call (.lwtSnd c d)) rest = .ok τ) :
    τ.chans = σ.chans ∧ τ.nchans = σ.nchans ∧ τ.chlLists = σ.chlLists ∧
      ∀ c', σ.queues (.sender c') = [] → τ.queues (.sender c') = [] := by
  obtain ⟨⟨σ', n⟩, hs, hfin⟩ := bind_ok h
  obtain ⟨-, rfl, rfl⟩ | ⟨r, -, -, rfl, rfl⟩ := lwtSnd_of_not_reads hr hs
  · cases hfin
    exact ⟨rfl, rfl, rfl, fun _ h => h⟩
  · cases hfin
    refine ⟨rfl, rfl, rfl, fun c' hc' => ?_⟩
    simp [resumeThread, Rings.append, hc', ownerRunQueue]

end State

/-- Channels with the same contents, and the same in the fields that `__init_chan` leaves as they
are, the mark apart. -/
structure Chan.Kept (a b : Chan) : Prop where
  cgroup : b.cgroup = a.cgroup
  ready : b.ready = a.ready
  rbOccupied : b.rbOccupied = a.rbOccupied
  buffer : b.buffer = a.buffer

theorem Chan.Kept.refl (ch : Chan) : ch.Kept ch := ⟨rfl, rfl, rfl, rfl⟩

theorem Chan.Kept.deref (cur : ThreadId) (ch : Chan) : ch.Kept (State.derefChan cur ch) := by
  simp only [State.derefChan]
  split_ifs <;> exact ⟨rfl, rfl, rfl, rfl⟩

/-- No channel is in a group, none keeps a message, and no thread is in a group wait. -/
structure Untouched (σ : State) : Prop where
  wellFramed : WellFramed σ
  wired : σ.sched.Wired
  ungrouped : ∀ g, σ.chlLists g = []
  empty : ∀ c < σ.nchans, (σ.chans c).buffer.count = 0
  senders : ∀ c, σ.queues (.sender c) = []
  waits : ∀ t g, .cgrpWaitLoop g ∉ (σ.threads t).context
  marks : ∀ t c, .call (.lwtChanMarkGet c) ∉ (σ.threads t).context

theorem zero_context (t : ThreadId) : (State.zero.threads t).context = [] := rfl

theorem wired_zero : State.zero.sched.Wired where
  homed :=
    ⟨fun _ => none, ⟨fun _ => List.nodup_nil, fun _ _ => by simp [State.zero]⟩, fun _ _ => rfl⟩
  owner g hg := absurd hg (Nat.not_lt_zero g)
  current k t ht := by cases ht
  polling _ := rfl

theorem untouched_zero : Untouched State.zero where
  wellFramed := ⟨fun _ _ => rfl, fun t fr hfr => by simp [zero_context] at hfr⟩
  wired := wired_zero
  ungrouped _ := rfl
  empty c hc := absurd hc (Nat.not_lt_zero c)
  senders _ := rfl
  waits t g := by simp [zero_context]
  marks t c := by simp [zero_context]

namespace Untouched

variable (h : Untouched σ) (hs : Section σ l τ cur f rest) (hr : ¬ σ.ReadsLeftover f)

include h hs in
theorem not_waiting (g : CgrpId) : f ≠ .cgrpWaitLoop g := by
  rintro rfl
  rcases hs.at_ with hctx | ⟨⟨a, ha⟩, -, -⟩
  · have hctx : (σ.threads cur).context = .cgrpWaitLoop g :: rest := hctx
    exact h.waits cur g (by rw [hctx]; exact List.mem_cons_self)
  · cases ha

include h hs hr

/-- The channels keep what nothing has been written to, and stay empty and out of any group. -/
theorem net : (∀ c < σ.nchans, (σ.chans c).Kept (τ.chans c)) ∧ ∀ g, τ.chlLists g = [] := by
  have hupd {c' : ChanId} {ch : Chan} (hk : c' < σ.nchans → (σ.chans c').Kept ch) :
      ∀ c < σ.nchans, (σ.chans c).Kept (Function.update σ.chans c' ch c) := by
    intro c hc
    by_cases hcc : c = c'
    · subst hcc
      simpa using hk hc
    · simpa [hcc] using Chan.Kept.refl (σ.chans c)
  suffices hν : (∀ c < σ.nchans, (σ.chans c).Kept (τ.net.chans c)) ∧ ∀ g, τ.net.chlLists g = [] from
    hν
  have heff := State.exec_net hs.exec
  generalize hν : τ.net = ν at heff ⊢
  cases heff with
  | snd =>
    obtain ⟨hch, -, hl, -⟩ := State.exec_snd_of_not_reads hr hs.exec
    rw [← hν]
    exact ⟨fun c _ => congrFun hch c ▸ .refl _, fun g => (congrFun hl g).trans (h.ungrouped g)⟩
  | rcv hc _ hrcv =>
    have hsame := hrcv.same (h.empty _ hc) (h.senders _)
    exact ⟨fun c _ => hsame.1 ▸ .refl _, fun g => (congrFun hsame.2 g).trans (h.ungrouped g)⟩
  | syncRcv hc _ hrcv =>
    obtain rfl := hrcv.same (h.empty _ hc)
    exact ⟨fun c _ => .refl _, h.ungrouped⟩
  | thread | chan =>
    exact ⟨hupd fun hlt => absurd hlt (lt_irrefl _), h.ungrouped⟩
  | setType | createChan | rcvChan | mark =>
    exact ⟨hupd fun _ => ⟨rfl, rfl, rfl, rfl⟩, h.ungrouped⟩
  | deref => exact ⟨hupd fun _ => .deref cur _, h.ungrouped⟩
  | cgrpAdd g c hc _ hfree => exact absurd ⟨hc, hfree⟩ hr
  | cgrpRem => exact absurd (State.live_of_rem hs.exec) hr
  | cgrp =>
    refine ⟨fun c _ => .refl _, fun g => ?_⟩
    by_cases hg : g = σ.ncgrps
    · simp [Rings.clear, hg]
    · simpa [Rings.clear, hg] using h.ungrouped g
  | _ => exact ⟨fun c _ => .refl _, h.ungrouped⟩

theorem section_ : Untouched τ := by
  obtain ⟨hkept, hgroups⟩ := h.net hs hr
  have hcur := h.wired.current _ _ hs.current
  refine ⟨h.wellFramed.section_ hs, (h.wellFramed.effect hs).wired h.wired hcur, hgroups,
    fun c hc => ?_,
    fun c => ?_, fun t g hg => ?_, fun t c hc => ?_⟩
  · by_cases h0 : c < σ.nchans
    · rw [(hkept c h0).buffer]
      exact h.empty c h0
    · obtain ⟨ht, hh, -⟩ := ((State.exec_net hs.exec).created (not_lt.mp h0) hc).2.empty
      exact RingBuffer.count_empty ht hh
  · by_cases hf : ∃ c' d, f = .call (.lwtSnd c' d)
    · obtain ⟨c', d, rfl⟩ := hf
      exact (State.exec_snd_of_not_reads hr hs.exec).2.2.2 c (h.senders c)
    · simp only [not_exists] at hf
      exact (h.wellFramed.effect hs).sender_eq_nil (hf c) (h.senders c)
  · rcases h.wellFramed.mem_context hs hg with hold | ⟨rfl, rfl | hf⟩
    · exact h.waits t g hold
    · have hctx := State.context_of_wait (h.ungrouped g) hs.exec
      rw [hctx] at hg
      exact h.waits t g (hs.at_.mem hg)
    · exact h.not_waiting hs g hf
  · rcases h.wellFramed.mem_context hs hc with hold | ⟨rfl, hf⟩
    · exact h.marks t c hold
    · exact hf

end Untouched

/-- The section of a step is the one that the step tries. -/
theorem Section.attempt (hs : Section σ l τ cur f rest) (hstep : Step σ l τ) :
    σ.attempt l = some (cur, f, rest) := by
  have hcur := hs.current
  have hframe := hs.frame
  cases l with
  | call a =>
    obtain rfl : Frame.call a = f := by simpa [State.frame] using hframe
    simp only [Step, State.step, hcur] at hstep
    split_ifs at hstep with hc
    obtain rfl : rest = [] := by
      rcases hs.at_ with hctx | ⟨-, -, hrest⟩
      · exact absurd (hc.1.symm.trans hctx) (by simp)
      · exact hrest
    simp [State.attempt, hcur, hc.1, hc.2]
  | resume =>
    simp only [Step, State.step, hcur] at hstep
    split at hstep
    · cases hstep
    · rename_i f' k hctx
      split_ifs at hstep with hb
      obtain rfl : f' = f := by simpa [State.frame, hcur, hctx] using hframe
      obtain rfl : k = rest := by
        rcases hs.at_ with hctx' | ⟨-, hctx', -⟩
        · exact (List.cons.inj (hctx.symm.trans hctx')).2
        · exact absurd (hctx.symm.trans hctx') (by simp)
      simp [State.attempt, hcur, hctx, hb]
  | switch k => cases hframe
  | initiate k mem => cases hframe

def State.Reads (σ : State) (l : Label) : Prop := ∃ x ∈ σ.attempt l, σ.ReadsLeftover x.2.1

instance : Decidable (σ.Reads l) := inferInstanceAs (Decidable (∃ x ∈ σ.attempt l, _))

theorem Untouched.step (h : Untouched σ) (hr : ¬ σ.Reads l) (hs : Step σ l τ) : Untouched τ := by
  obtain ⟨cur, f, rest, hsec⟩ | ⟨k, -, rfl⟩ | ⟨k, mem, -, -, hi⟩ := step_cases hs
  · exact h.section_ hsec fun hf => hr ⟨_, hsec.attempt hs, hf⟩
  · exact ⟨⟨h.wellFramed.fresh, h.wellFramed.shaped⟩, wired_step h.wellFramed h.wired hs,
      h.ungrouped, h.empty,
      h.senders, h.waits, h.marks⟩
  · have hwell := h.wellFramed.step hs
    have hwired := wired_step h.wellFramed h.wired hs
    obtain ⟨th, ch, -, hctx, -, -, ht, hh, -, -, -, -, -, rfl⟩ := State.initiate_ok hi
    refine ⟨hwell, hwired, h.ungrouped, fun c hc => ?_, fun c => ?_, fun t g => ?_, fun t c => ?_⟩
    · by_cases h0 : c = σ.nchans
      · subst h0
        simpa using RingBuffer.count_empty ht hh
      · have hlt : c < σ.nchans := lt_of_le_of_ne (Nat.le_of_lt_succ hc) h0
        simpa [h0] using h.empty c hlt
    · simp [Rings.append, Rings.clear, Function.update_apply, h.senders]
    · by_cases h0 : t = σ.nthreads
      · subst h0
        simp [hctx]
      · simpa [h0] using h.waits t g
    · by_cases h0 : t = σ.nthreads
      · subst h0
        simp [hctx]
      · simpa [h0] using h.marks t c

end Lwt
