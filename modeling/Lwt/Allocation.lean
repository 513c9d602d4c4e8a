import Lwt.Departure

/-! Calls that get no memory. `lwt_chan` and `lwt_create` look at nothing that `umalloc`
returns: they write through a null structure, and keep a null buffer for a buffer. -/

namespace Lwt

open State

/-- The blocks that `lwt_create` and `lwt_chan` ask `umalloc` for. -/
inductive Block where
  | thread | stack | chan | buffer
  deriving DecidableEq

variable {σ τ : State} {l : Label} {cur t : ThreadId} {k : KthdId} {a : Call} {b : Block}
  {rest : List Frame} {c : ChanId}

/-- The first block of a channel that is not given. -/
def ChanMem.firstNull (mem : ChanMem) : Option Block :=
  match mem.chan, mem.buffer with
  | none, _ => some .chan
  | some _, none => some .buffer
  | some _, some _ => none

namespace State

def firstNull (σ : State) : Call → Option Block
  | .lwtChan _ mem => mem.firstNull
  | .lwtCreate _ mem =>
    match σ.queues σ.currentRecycleQueue, mem.thread, mem.stack with
    | _ :: _, _, _ => mem.chl.firstNull
    | [], none, _ => some .thread
    | [], some _, none => some .stack
    | [], some _, some _ => mem.chl.firstNull
  | _ => none

/-- The call has returned `NULL` and nothing is left of it. -/
structure RollsBack (σ : State) (cur : ThreadId) (τ : State) : Prop where
  result : (τ.threads cur).eax = .null
  queues : τ.queues = σ.queues
  counters : τ.lwtCounter = σ.lwtCounter ∧ τ.chanCounter = σ.chanCounter
  chans : τ.nchans = σ.nchans ∧ τ.chans = σ.chans
  threads : τ.nthreads = σ.nthreads ∧ ∀ t, t ≠ cur → τ.threads t = σ.threads t

/-- A channel that is new in `τ`, whose buffer is null. -/
structure NullBuffer (σ τ : State) : Prop where
  nchans : τ.nchans = σ.nchans + 1
  cap : (τ.chans σ.nchans).buffer.cap = 0

theorem lwtChan_null (size : ℤ) {mem : ChanMem} (h : mem.firstNull = some b) :
    (b ≠ .buffer → σ.lwtChan size mem = .error .nullPointer) ∧
      (b = .buffer → ∃ τ, σ.lwtChan size mem = .ok (τ, σ.nchans) ∧ σ.NullBuffer τ) := by
  unfold ChanMem.firstNull at h
  unfold lwtChan
  cases hc : mem.chan with
  | none =>
    rw [hc] at h
    cases h
    exact ⟨fun _ => rfl, fun h => by cases h⟩
  | some raw =>
    cases hb : mem.buffer with
    | none =>
      rw [hc, hb] at h
      cases h
      exact ⟨fun h => absurd rfl h, fun _ => ⟨_, rfl, rfl, by simp [initChan]⟩⟩
    | some buffer =>
      rw [hc, hb] at h
      cases h

theorem initThread_null {mem : ChanMem} (h : mem.firstNull = some b) :
    (b ≠ .buffer → σ.initThread t k mem = .error .nullPointer) ∧
      (b = .buffer → ∃ τ, σ.initThread t k mem = .ok τ ∧ σ.NullBuffer τ) := by
  obtain ⟨hfault, hkeep⟩ := lwtChan_null (σ := σ) 0 h
  unfold initThread
  refine ⟨fun hb => by rw [hfault hb]; rfl, fun hb => ?_⟩
  obtain ⟨τ, hτ, hn, hcap⟩ := hkeep hb
  rw [hτ]
  exact ⟨_, rfl, hn, by simpa using hcap⟩

/-- The exit channel of a thread is asked for last. -/
theorem lwtCreate_null (cur : ThreadId) {flags : ℤ} {mem : CreateMem}
    (h : σ.firstNull (.lwtCreate flags mem) = some b) :
    (b ≠ .buffer → σ.lwtCreate cur flags mem = .error .nullPointer) ∧
      (b = .buffer → ∃ τ t, σ.lwtCreate cur flags mem = .ok (τ, t) ∧ σ.NullBuffer τ) := by
  have hexit (hal : ∃ τ t, σ.allocThread mem = .ok (τ, t) ∧ τ.nchans = σ.nchans)
      (hm : mem.chl.firstNull = some b) :
      (b ≠ .buffer → σ.lwtCreate cur flags mem = .error .nullPointer) ∧
        (b = .buffer → ∃ τ t, σ.lwtCreate cur flags mem = .ok (τ, t) ∧ σ.NullBuffer τ) := by
    obtain ⟨τ, t, hal, hn⟩ := hal
    obtain ⟨hfault, hkeep⟩ := initThread_null (σ := τ) (t := t) (k := τ.currentKthd) hm
    unfold lwtCreate
    rw [hal]
    refine ⟨fun hb => by simp only [bind, Except.bind, hfault hb], fun hb => ?_⟩
    obtain ⟨τ', hτ', hn', hcap⟩ := hkeep hb
    simp only [bind, Except.bind, hτ']
    exact ⟨_, _, rfl, hn'.trans (congrArg (· + 1) hn), hn ▸ hcap⟩
  have hnone (hal : σ.allocThread mem = .error .nullPointer) :
      σ.lwtCreate cur flags mem = .error .nullPointer := by
    unfold lwtCreate
    rw [hal]
    rfl
  unfold allocThread at hexit hnone
  simp only [firstNull] at h
  cases hq : σ.queues σ.currentRecycleQueue with
  | cons t ts =>
    rw [hq] at h hexit
    exact hexit ⟨_, _, rfl, rfl⟩ h
  | nil =>
    rw [hq] at h hexit hnone
    cases hth : mem.thread with
    | none =>
      rw [hth] at h hnone
      cases h
      exact ⟨fun _ => hnone rfl, fun h => by cases h⟩
    | some raw =>
      cases hst : mem.stack with
      | none =>
        rw [hth, hst] at h hnone
        cases h
        exact ⟨fun _ => hnone rfl, fun h => by cases h⟩
      | some stack =>
        rw [hth, hst] at h hexit
        exact hexit ⟨_, _, rfl, rfl⟩ h

end State

/-- A call that is refused a structure or a stack writes through a null pointer; refused a
buffer it returns a channel without one, or a thread whose exit channel has none. It is never
rolled back. -/
theorem not_rolls_back (ha : σ.attempt l = some (cur, .call a, rest))
    (hb : σ.firstNull a = some b) : (b ≠ .buffer → σ.step l = .error .nullPointer) ∧
      (b = .buffer → ∃ τ, Step σ l τ ∧ (τ.threads cur).eax ≠ .null ∧ σ.NullBuffer τ) ∧
      ¬ ∃ τ, Step σ l τ ∧ σ.RollsBack cur τ := by
  obtain ⟨-, -, hstep⟩ := attempt_ok ha
  have hreturn {τ : State} {d : Data} (hbody : σ.call cur a = .ok (τ, .ret d)) (hd : d ≠ .null)
      (hτ : σ.NullBuffer τ) : ∃ τ, Step σ l τ ∧ (τ.threads cur).eax ≠ .null ∧ σ.NullBuffer τ := by
    refine ⟨τ.modThread cur fun th => { th with context := rest, eax := d }, ?_, ?_, hτ.1, hτ.2⟩
    · simp only [Step, hstep, State.exec, State.body, hbody, bind, Except.bind, State.finish]
    · simpa using hd
  have hfault (hbody : σ.call cur a = .error .nullPointer) : σ.step l = .error .nullPointer := by
    simp only [hstep, State.exec, State.body, hbody, bind, Except.bind]
  have houtcome : (b ≠ .buffer → σ.step l = .error .nullPointer) ∧
      (b = .buffer → ∃ τ, Step σ l τ ∧ (τ.threads cur).eax ≠ .null ∧ σ.NullBuffer τ) := by
    cases a with
    | lwtChan size mem =>
      obtain ⟨h, h'⟩ := lwtChan_null (σ := σ) size hb
      refine ⟨fun hne => hfault ?_, fun heq => ?_⟩
      · simp only [State.call, h hne, bind, Except.bind]
      · obtain ⟨τ, hτ, hnull⟩ := h' heq
        exact hreturn (d := .chan σ.nchans) (by simp only [State.call, hτ, bind, Except.bind])
          (by simp) hnull
    | lwtCreate flags mem =>
      obtain ⟨h, h'⟩ := lwtCreate_null cur hb
      refine ⟨fun hne => hfault ?_, fun heq => ?_⟩
      · simp only [State.call, h hne, bind, Except.bind]
      · obtain ⟨τ, t, hτ, hnull⟩ := h' heq
        exact hreturn (d := .thd t) (by simp only [State.call, hτ, bind, Except.bind])
          (by simp) hnull
    | _ => cases hb
  refine ⟨houtcome.1, houtcome.2, ?_⟩
  rintro ⟨τ, hs, hτ⟩
  by_cases hbuf : b = .buffer
  · obtain ⟨τ', hs', hne, -⟩ := houtcome.2 hbuf
    obtain rfl := Except.ok.inj (hs.symm.trans hs')
    exact hne hτ.result
  · exact absurd (hs.symm.trans (houtcome.1 hbuf)) (by simp)

def noExitMem : CreateMem := { createMem with chl := ⟨none, none⟩ }

theorem booted_not_rolls_back :
    ¬ ∃ τ, Step booted (.call (.lwtCreate 0 noExitMem)) τ ∧ booted.RollsBack 0 τ :=
  (not_rolls_back (b := .chan) (show booted.attempt _ = some (0, _, []) from rfl) rfl).2.2

/-- The thread structure is unlinked and its stack is set up when the exit channel fails. -/
theorem booted_create_faults :
    booted.firstNull (.lwtCreate 0 noExitMem) = some .chan ∧
      booted.step (.call (.lwtCreate 0 noExitMem)) = .error .nullPointer ∧
      ¬ ∃ τ, booted.step (.call (.lwtCreate 0 noExitMem)) = .ok τ := by
  refine ⟨rfl, rfl, ?_⟩
  rintro ⟨τ, h⟩
  cases h

end Lwt
