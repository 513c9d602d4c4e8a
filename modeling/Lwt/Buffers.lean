import Lwt.Indices

/-! The data buffer of a channel. `lwt_chan` asks for `size * sizeof(uint)` bytes, in unsigned
arithmetic; `lwt_snd` compares the number of values in the ring with `size`, which is signed. For a
size whose bytes fit the two agree. For any other the ring is not full when the buffer is. -/

namespace Lwt

open State

variable {σ τ σ₀ : State} {l : Label} {cur : ThreadId} {f : Frame} {rest : List Frame}
  {c : ChanId} {d : Data} {k : KthdId} {tr : List (State × Label)} {size : ℤ} {n : ℕ}

def bufferSlots (size : ℤ) : ℤ := size * 4 % 4294967296 / 4

/-- The ring of channel `c` keeps to its buffer: it holds no more values than that has slots, and
the section at frame `f` uses slots of the buffer only. -/
structure InBuffer (σ : State) (c : ChanId) (f : Frame) : Prop where
  stored : (σ.chans c).buffer.count ≤ (σ.chans c).buffer.cap
  slots : ∀ i ∈ σ.readSlots c f ++ σ.writeSlots c f, 0 ≤ i ∧ i < (σ.chans c).buffer.cap

/-- Channels of this size keep to their buffers, in every run with fewer than `2 ^ 31` messages. -/
def KeepsToBuffer (size : ℤ) : Prop :=
  ∀ {σ₀ σ : State} {tr : List (State × Label)} {k : KthdId} {c : ChanId}, σ₀.Boot k → Run σ₀ tr σ →
    (∀ p ∈ tr, StaysLocal c p.1 p.2) → numPuts c tr < 2147483648 → c < σ.nchans →
    (σ.chans c).size = size → (σ.chans c).buffer.cap = bufferSlots size →
    ∀ f, InBuffer σ c f

/-- A ring of a size that can be represented keeps to its buffer. -/
theorem keepsToBuffer_of_fits (h0 : 0 ≤ size) (h1 : size < 1073741824) : KeepsToBuffer size := by
  intro σ₀ σ tr k c hb h hl hputs hc hsize hcap f
  have hslots : bufferSlots size = size := by
    unfold bufferSlots
    omega
  obtain ⟨n, hn, hat⟩ := (h.ringUsed hb hl).used hc (by omega) (by omega)
  have hle : (n : ℤ) ≤ (σ.chans c).size := hat.le_size
  refine ⟨?_, fun i hi => ?_⟩
  · rw [hat.count, hcap, hslots, ← hsize]
    exact hle
  · rw [hcap, hslots, ← hsize]
    rcases List.mem_append.mp hi with hi | hi
    · have hcount := (mem_readSlots hi).1
      rw [hat.count] at hcount
      exact readSlots_inRange hat (by omega) hi
    · simp only [writeSlots, List.mem_ite_nil_right, List.mem_singleton] at hi
      obtain ⟨hp, rfl⟩ := hi
      have hpos : 1 ≤ (σ.chans c).size := by
        by_contra hneg
        have hzero : (σ.chans c).size = 0 ∧ (σ.chans c).buffer.count = 0 := by
          rw [hat.count]
          omega
        unfold puts at hp
        split at hp <;> simp_all
      exact (hat.slot_tail_iff hpos).mpr (.inr (.inl (hn ▸ hputs)))

section Fill

/-- The main thread has put `n` values into the ring of its channel, and nothing was taken out. -/
structure Filled (σ : State) (size : ℤ) (n : ℕ) : Prop extends Own σ where
  size : (σ.chans 1).size = size ∧ (σ.chans 1).buffer.cap = bufferSlots size
  counters : (σ.chans 1).buffer.tail = n ∧ (σ.chans 1).buffer.head = 0

theorem Own.sent (h : Own σ) (d : Data) : Own (σ.sentOwn d) := by
  constructor
  · simpa [sentOwn, lwtCurrent, kthd] using h.current
  · simpa [sentOwn, kthd] using h.runs
  · simpa [sentOwn] using ⟨h.thread.1, h.thread.2.2⟩
  · simpa [sentOwn] using h.chan

namespace Filled

theorem count (h : Filled σ size n) (hn : n < 2147483648) : (σ.chans 1).buffer.count = n := by
  rw [RingBuffer.count, h.counters.1, h.counters.2, sub_zero]
  exact wrap32_of_bounds (by omega) (by omega)

theorem sent (h : Filled σ size n) (hn : n + 1 < 2147483648) (d : Data) :
    Filled (σ.sentOwn d) size (n + 1) := by
  refine ⟨h.toOwn.sent d, ?_, ?_⟩
  · simpa [sentOwn] using h.size
  · have htl : wrap32 ((σ.chans 1).buffer.tail + 1) = (n + 1 : ℕ) := by
      rw [h.counters.1]
      exact wrap32_of_bounds (by omega) (by omega)
    simpa [sentOwn, htl] using h.counters.2

/-- The next send uses slot `n % size`. -/
theorem writeSlots (h : Filled σ size n) (hn : n < 2147483648) (hne : (n : ℤ) ≠ size) :
    σ.writeSlots 1 (.call (.lwtSnd 1 d)) = [RingBuffer.slot size n] := by
  have hst : (σ.threads 0).state = .running := h.thread.2.2
  have hputs : σ.puts 1 (.call (.lwtSnd 1 d)) = true := by
    simp [puts, h.count hn, h.size.1, hne, h.chan.2.2.2.1, Task.Receiving, hst]
  rw [State.writeSlots, if_pos hputs, h.size.1, h.counters.1]

/-- It is made if that slot is in the buffer. -/
theorem step (h : Filled σ size n) (hn : n < 2147483648) (hne : (n : ℤ) ≠ size) (hs : size ≠ 0)
    (hslot : 0 ≤ RingBuffer.slot size n ∧ RingBuffer.slot size n < bufferSlots size) :
    Step σ (.call (.lwtSnd 1 d)) (σ.sentOwn d) := by
  have hfits : (σ.chans 1).buffer.Fits (σ.chans 1).size (σ.chans 1).buffer.tail := by
    unfold RingBuffer.Fits
    rw [h.size.1, h.size.2, h.counters.1]
    exact hslot
  have hsnd := h.toOwn.snd_step (d := d) (by rwa [h.count hn, h.size.1]) (by rwa [h.size.1])
  rwa [if_pos hfits] at hsnd

end Filled

theorem exists_chan (size : ℤ) :
    ∃ τ, Step booted (.call (.lwtChan size chanMem)) τ ∧ Filled τ size 0 := by
  refine ⟨_, rfl, ⟨?_, ?_, ?_, ?_⟩, ?_, ?_⟩
  · rfl
  · exact fun h => SlState.noConfusion h
  · exact ⟨Nat.zero_lt_one, rfl, rfl⟩
  · exact ⟨Nat.one_lt_two, rfl, rfl, rfl, rfl⟩
  · exact ⟨rfl, rfl⟩
  · exact ⟨rfl, rfl⟩

def Unfit (size : ℤ) : Prop :=
  -2147483648 ≤ size ∧ size < 2147483648 ∧ (size < 0 ∨ 1073741824 ≤ size)

theorem Unfit.slots (hs : Unfit size) : 0 ≤ bufferSlots size ∧ bufferSlots size < 1073741824 ∧
    size ≠ 0 ∧ ∀ n : ℕ, (n : ℤ) ≤ bufferSlots size → (n : ℤ) ≠ size := by
  obtain ⟨hlo, hhi, hs⟩ := hs
  unfold bufferSlots
  refine ⟨by omega, by omega, by omega, fun n hn => by omega⟩

/-- The slot of the value with number `n` is not behind it. -/
theorem slot_le (n : ℕ) (size : ℤ) : 0 ≤ RingBuffer.slot size n ∧ RingBuffer.slot size n ≤ n := by
  have h0 : 0 ≤ RingBuffer.slot size n := Int.tmod_nonneg _ (by omega)
  have hle : (RingBuffer.slot size n).natAbs ≤ n := by
    rw [RingBuffer.slot, Int.natAbs_tmod, Int.natAbs_natCast]
    exact Nat.mod_le _ _
  omega

/-- The buffer of a channel of such a size can be filled. -/
theorem exists_filled (hs : Unfit size) (hn : (n : ℤ) ≤ bufferSlots size) :
    ∃ tr σ, Run booted tr σ ∧ Filled σ size n ∧ tr.length = n + 1 ∧
      ∀ p ∈ tr, StaysLocal 1 p.1 p.2 := by
  obtain ⟨-, hlt, hne, hnsize⟩ := hs.slots
  induction n with
  | zero =>
    obtain ⟨τ, hstep, hfill⟩ := exists_chan size
    exact ⟨_, τ, .snoc .nil hstep, hfill, rfl, by simp [StaysLocal, State.frame]⟩
  | succ n ih =>
    obtain ⟨tr, σ, hr, hfill, hlen, hl⟩ := ih (by omega)
    obtain ⟨h0, hle⟩ := slot_le n size
    have hstep := hfill.step (d := .word 5) (by omega) (hnsize n (by omega)) hne ⟨h0, by omega⟩
    refine ⟨_, _, hr.snoc hstep, hfill.sent (by omega) _, by simp [hlen], ?_⟩
    refine Transition.forall_steps_snoc.mpr ⟨hl, ?_⟩
    simp [StaysLocal, State.frame]

end Fill

/-- Channels of a size keep to their buffers if and only if the size is not negative and its bytes
fit. -/
theorem keepsToBuffer_iff (hlo : -2147483648 ≤ size) (hhi : size < 2147483648) :
    KeepsToBuffer size ↔ 0 ≤ size ∧ size < 1073741824 := by
  constructor
  · intro h
    by_contra hbad
    have hs : Unfit size := ⟨hlo, hhi, by omega⟩
    obtain ⟨h0, hlt, hne, hnsize⟩ := hs.slots
    obtain ⟨n, hn⟩ := Int.eq_ofNat_of_zero_le h0
    obtain ⟨tr, σ, hr, hfill, hlen, hl⟩ := exists_filled hs hn.ge
    have hputs {tr : List (State × Label)} (hlen : tr.length ≤ n + 2) :
        numPuts 1 tr < 2147483648 := by
      have hle : numPuts 1 tr ≤ tr.length := List.countP_le_length
      omega
    have hslot := (h boot_booted hr hl (hputs (by omega)) hfill.chan.1 hfill.size.1 hfill.size.2
      (.call (.lwtSnd 1 (.word 5)))).slots
    rw [hfill.writeSlots (by omega) (hnsize n hn.ge), hfill.size.2] at hslot
    have hstep := hfill.step (d := .word 5) (by omega) (hnsize n hn.ge) hne (hslot _ (by simp))
    -- there is room for one value more than the buffer has slots
    have hnext := hfill.sent (d := .word 5) (by omega)
    have hstored := (h boot_booted (hr.snoc hstep)
      (Transition.forall_steps_snoc.mpr ⟨hl, by simp [StaysLocal, State.frame]⟩)
      (hputs (by simp [hlen])) hnext.chan.1 hnext.size.1 hnext.size.2 .died).stored
    rw [hnext.count (by omega), hnext.size.2, hn] at hstored
    omega
  · exact fun hs => keepsToBuffer_of_fits hs.1 hs.2

theorem three_keepsToBuffer : KeepsToBuffer 3 :=
  (keepsToBuffer_iff (by decide) (by decide)).mpr (by decide)

/-- The main thread makes a channel of size `2 ^ 30`. -/
def hugeRun : List Label := [.call (.lwtChan 1073741824 chanMem)]

/-- Its buffer has no slot, and a send writes slot `0`. -/
theorem huge_not_kept : ¬ KeepsToBuffer 1073741824 ∧
    (booted.after hugeRun).writeSlots 1 (.call (.lwtSnd 1 (.word 5))) = [0] ∧
    ((booted.after hugeRun).chans 1).buffer.cap = 0 := by
  have hslots : (booted.after hugeRun).writeSlots 1 (.call (.lwtSnd 1 (.word 5))) = [0] := by
    decide +kernel
  have hcap : ((booted.after hugeRun).chans 1).buffer.cap = 0 := by decide +kernel
  refine ⟨fun h => ?_, hslots, hcap⟩
  have hin := h (c := 1) boot_booted (State.run_trace booted hugeRun) (by decide +kernel)
    (by decide +kernel) (by decide +kernel) (by decide +kernel) (by decide +kernel)
    (.call (.lwtSnd 1 (.word 5)))
  have hslot := hin.slots 0 (by simp [hslots])
  rw [hcap] at hslot
  omega

end Lwt
