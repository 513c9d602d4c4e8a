import Lwt.Lib.RingBuffer

/-! A bounded channel that shows by a flag whether something can be taken from
it. A value is put into the ring; a sender that finds the ring full waits, and
its value goes into the slot that the next taker frees. The flag is written from
different fields at different places, and still says at every moment whether a
taker would find something. -/

namespace RingBuffer

variable {α : Type*} {b : RingBuffer α} {size : ℤ} {x : α}

/-- A ring in which every value held has been written within the buffer. -/
def Written (b : RingBuffer α) (size : ℤ) : Prop :=
  ∃ h n, b.At size h n ∧ ∀ i, h ≤ i → i < h + n → (i : ℤ) % size < b.cap

theorem Written.valid (hb : b.Written size) : b.Valid size := by
  obtain ⟨h, n, hat, -⟩ := hb
  exact ⟨h, n, hat⟩

theorem written_empty (ht : b.tail = 0) (hh : b.head = 0) (h0 : 0 ≤ size)
    (h1 : size < 2147483648) : b.Written size :=
  ⟨0, 0, ⟨by rw [hh]; rfl, by rw [ht]; rfl, h1, by simpa using h0, by simp⟩, by omega⟩

/-- The counters agree exactly when nothing is held. -/
theorem Valid.head_eq_tail_iff (hb : b.Valid size) : b.head = b.tail ↔ b.count = 0 := by
  obtain ⟨h, n, hat⟩ := hb
  have hlt := hat.size_lt
  have hle := hat.le_size
  rw [hat.count, hat.head, hat.tail]
  constructor
  · intro he
    unfold wrap32 at he
    omega
  · intro hn
    rw [hn, add_zero]

theorem Written.push (hb : b.Written size) (hn : b.count ≠ size)
    (hf : b.Fits size b.tail) : (b.push size x).Written size := by
  obtain ⟨h, n, hat, hw⟩ := hb
  have hlt : (n : ℤ) < size := lt_of_le_of_ne hat.le_size (hat.count ▸ hn)
  have hat' : (b.push size x).At size h (n + 1) := hat.push hlt hf.1
  refine ⟨h, n + 1, hat', fun i h0 h1 => ?_⟩
  rcases (show i < h + n ∨ i = h + n by omega) with hi | rfl
  · exact hw i h0 hi
  · have hslot : slot size (wrap32 (h + n : ℕ)) = (h + n : ℕ) % size := hat'.slots _ (by omega)
    rw [← hslot, push_cap, Nat.cast_add, ← hat.tail]
    exact hf.2

theorem Written.pop (hb : b.Written size) (hn : b.count ≠ 0) : b.pop.Written size := by
  obtain ⟨h, n, hat, hw⟩ := hb
  rw [hat.count] at hn
  obtain ⟨n, rfl⟩ := Nat.exists_eq_succ_of_ne_zero (show n ≠ 0 by omega)
  exact ⟨h + 1, n, hat.pop, fun i h0 h1 => hw i (by omega) (by omega)⟩

theorem Written.count_pop (hb : b.Written size) (hn : b.count ≠ 0) :
    b.pop.count = b.count - 1 := by
  obtain ⟨h, n, hat, -⟩ := hb
  rw [hat.count] at hn ⊢
  obtain ⟨n, rfl⟩ := Nat.exists_eq_succ_of_ne_zero (show n ≠ 0 by omega)
  rw [hat.pop.count]
  push_cast
  omega

theorem Valid.count_push (hb : b.Valid size) (hn : b.count ≠ size)
    (hf : b.Fits size b.tail) : (b.push size x).count = b.count + 1 := by
  obtain ⟨h, n, hat⟩ := hb
  have hlt : (n : ℤ) < size := lt_of_le_of_ne hat.le_size (hat.count ▸ hn)
  rw [(hat.push hlt hf.1).count, hat.count]
  push_cast
  rfl

theorem Valid.count_nonneg (hb : b.Valid size) : 0 ≤ b.count := by
  obtain ⟨h, n, hat⟩ := hb
  rw [hat.count]
  omega

theorem Valid.count_le (hb : b.Valid size) : b.count ≤ size := by
  obtain ⟨h, n, hat⟩ := hb
  rw [hat.count]
  exact hat.le_size

/-- The oldest value can be read. -/
theorem Written.fits_head (hb : b.Written size) (hn : b.count ≠ 0) : b.Fits size b.head := by
  obtain ⟨h, n, hat, hw⟩ := hb
  rw [hat.count] at hn
  have hle := hat.le_size
  have hslot : slot size b.head = h % size := by
    rw [hat.head]
    exact hat.slots h (by omega)
  rw [Fits, hslot]
  exact ⟨Int.emod_nonneg _ (by omega), hw h le_rfl (by omega)⟩

/-- In a full ring the next slot to write is that of the oldest value, as long as
the counter has not left the non-negative numbers. -/
theorem Written.fits_tail (hb : b.Written size) (hn : b.count = size) (h0 : 0 < size)
    (ht : 0 ≤ b.tail) : b.Fits size b.tail := by
  obtain ⟨h, n, hat, hw⟩ := hb
  rw [hat.count] at hn
  have htail : b.tail = wrap32 (h + n : ℕ) := by
    rw [hat.tail]
    push_cast
    rfl
  have hnn : 0 ≤ slot size (wrap32 (h + n : ℕ)) := by
    rw [← htail]
    exact Int.tmod_nonneg _ ht
  have hslot : slot size b.tail = h % size := by
    rw [htail, slot_wrap32 h0 hat.slots hnn]
    push_cast
    rw [hn, Int.add_emod_right]
  rw [Fits, hslot]
  exact ⟨Int.emod_nonneg _ (by omega), hw h le_rfl (by omega)⟩

end RingBuffer

/-- A channel with its flag; `waiting` says that a sender waits. -/
@[ext]
structure Inbox (α : Type*) where
  buffer : RingBuffer α
  size : ℤ
  ready : ℤ
  waiting : Prop

namespace Inbox

variable {α : Type*} {b b' : Inbox α}

def Pending (b : Inbox α) : Prop := b.buffer.count ≠ 0 ∨ b.waiting

/-- The flag says whether something can be taken. -/
structure Exact (b : Inbox α) : Prop where
  ring : b.buffer.Written b.size
  full : b.waiting → b.buffer.count = b.size
  ready : b.ready = 1 ↔ b.Pending

inductive Send (b : Inbox α) : Inbox α → Prop
  /-- It goes into the ring. -/
  | put (x : α) (hn : b.buffer.count ≠ b.size) (hf : b.buffer.Fits b.size b.buffer.tail) :
      Send b { b with buffer := b.buffer.push b.size x, ready := 1 }
  /-- Its sender waits. -/
  | wait (hn : b.buffer.count = b.size) : Send b { b with ready := 1, waiting := True }

inductive Take (b : Inbox α) : Inbox α → Prop
  | ring (hn : b.buffer.count ≠ 0) (hq : ¬ b.waiting) :
      Take b { b with
        buffer := b.buffer.pop
        ready := if b.buffer.pop.head = b.buffer.tail then 0 else 1 }
  /-- The slot that gets free goes to the first waiting sender. -/
  | refill (x : α) (w : Prop) (hn : b.buffer.count ≠ 0) (hq : b.waiting)
      (hf : b.buffer.Fits b.size b.buffer.tail) :
      Take b { b with
        buffer := b.buffer.pop.push b.size x
        ready := if b.buffer.pop.head = (b.buffer.pop.push b.size x).tail then 0 else 1
        waiting := w }
  /-- Nothing is buffered and the first waiting sender hands its value over. -/
  | handOver (w : Prop) (r : ℤ) (hr : r = 1 ↔ w) (hn : b.buffer.count = 0) (hq : b.waiting) :
      Take b { b with ready := r, waiting := w }

theorem exact_empty (ht : b.buffer.tail = 0) (hh : b.buffer.head = 0) (h0 : 0 ≤ b.size)
    (h1 : b.size < 2147483648) (hr : b.ready = 0) (hw : ¬ b.waiting) : b.Exact where
  ring := RingBuffer.written_empty ht hh h0 h1
  full h := absurd h hw
  ready := by
    have hn : b.buffer.count = 0 := RingBuffer.count_empty ht hh
    rw [hr, Pending, hn]
    simpa using hw

theorem Exact.send (h : b.Exact) (hs : b.Send b') : b'.Exact := by
  cases hs with
  | put x hn hf =>
    have hcount : (b.buffer.push b.size x).count = b.buffer.count + 1 :=
      h.ring.valid.count_push hn hf
    have hnn := h.ring.valid.count_nonneg
    refine ⟨h.ring.push hn hf, fun hw => absurd (h.full hw) hn, iff_of_true rfl (.inl ?_)⟩
    show (b.buffer.push b.size x).count ≠ 0
    omega
  | wait hn => exact ⟨h.ring, fun _ => hn, iff_of_true rfl (.inr trivial)⟩

theorem Exact.take (h : b.Exact) (ht : b.Take b') : b'.Exact := by
  cases ht with
  | ring hn hq =>
    have hring := h.ring.pop hn
    refine ⟨hring, fun hw => absurd hw hq, ?_⟩
    show (if b.buffer.pop.head = b.buffer.tail then (0 : ℤ) else 1) = 1 ↔
      b.buffer.pop.count ≠ 0 ∨ b.waiting
    have hiff : b.buffer.pop.head = b.buffer.tail ↔ b.buffer.pop.count = 0 :=
      hring.valid.head_eq_tail_iff
    split_ifs with hc <;> simp_all
  | refill x w hn hq hf =>
    have hcount := h.ring.count_pop hn
    have hfull := h.full hq
    have hroom : b.buffer.pop.count ≠ b.size := by omega
    have hring : (b.buffer.pop.push b.size x).Written b.size := (h.ring.pop hn).push hroom hf
    have hcount' : (b.buffer.pop.push b.size x).count = b.size := by
      rw [(h.ring.pop hn).valid.count_push hroom hf, hcount]
      omega
    have hne : b.buffer.pop.head ≠ (b.buffer.pop.push b.size x).tail := by
      intro he
      have hzero : (b.buffer.pop.push b.size x).count = 0 := hring.valid.head_eq_tail_iff.mp he
      omega
    refine ⟨hring, fun _ => hcount', ?_⟩
    show (if b.buffer.pop.head = (b.buffer.pop.push b.size x).tail then (0 : ℤ) else 1) = 1 ↔
      (b.buffer.pop.push b.size x).count ≠ 0 ∨ w
    rw [if_neg hne]
    exact iff_of_true rfl (.inl (by omega))
  | handOver w r hr hn hq =>
    refine ⟨h.ring, fun _ => h.full hq, ?_⟩
    show r = 1 ↔ b.buffer.count ≠ 0 ∨ w
    rw [hr, hn]
    simp

/-- What is taken was there to be taken. -/
theorem Take.pending (h : b.Take b') : b.Pending := by
  cases h with
  | ring hn => exact .inl hn
  | refill x w hn => exact .inl hn
  | handOver w r hr hn hq => exact .inr hq

/-- What can be taken stays until it is taken. -/
theorem Exact.pending_send (h : b.Exact) (hs : b.Send b') : b'.Pending := by
  have hready : b'.ready = 1 := by cases hs <;> rfl
  exact (h.send hs).ready.mp hready

end Inbox
