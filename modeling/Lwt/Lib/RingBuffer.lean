import Mathlib.Data.Int.ModEq
import Mathlib.Data.List.Basic
import Mathlib.Logic.Function.Basic
import Mathlib.Tactic.Ring
import Mathlib.Tactic.Common

/-! A bounded ring buffer indexed by two free-running 32-bit counters. The
counters wrap like two's-complement machine integers and a slot index is the
truncated remainder by the capacity, so an index can become negative once the
counters have wrapped. As long as no access has left the buffer, the ring is a
FIFO list of at most `size` values, for any number of operations. -/

/-- The 32-bit two's-complement reading of an integer. -/
def wrap32 (x : ℤ) : ℤ := (x + 2147483648) % 4294967296 - 2147483648

theorem wrap32_of_bounds {x : ℤ} (h0 : -2147483648 ≤ x) (h1 : x < 2147483648) : wrap32 x = x := by
  unfold wrap32; omega

theorem wrap32_add_wrap32 (x y : ℤ) : wrap32 (wrap32 x + y) = wrap32 (x + y) := by
  unfold wrap32; omega

theorem wrap32_sub_wrap32 (x y : ℤ) : wrap32 (wrap32 x - wrap32 y) = wrap32 (x - y) := by
  unfold wrap32; omega

theorem wrap32_sub_eq_zero_of_eq {x y : ℤ} (h : x = y) : wrap32 (x - y) = 0 := by
  subst h; simp [wrap32]

/-- `head` and `tail` count the values taken and put; `data` holds `cap` slots. -/
structure RingBuffer (α : Type*) where
  tail : ℤ
  head : ℤ
  data : ℤ → α
  cap : ℤ

namespace RingBuffer

variable {α : Type*} {b : RingBuffer α} {size : ℤ} {x : α} {xs : List α}

/-- The slot of counter value `i`: the truncated remainder. -/
def slot (size i : ℤ) : ℤ := i.tmod size

/-- The slot of counter value `i` lies in the buffer. -/
def Fits (b : RingBuffer α) (size i : ℤ) : Prop := 0 ≤ slot size i ∧ slot size i < b.cap

instance (b : RingBuffer α) (size i : ℤ) : Decidable (b.Fits size i) :=
  inferInstanceAs (Decidable (_ ∧ _))

/-- The number of values held, as the code computes it. -/
def count (b : RingBuffer α) : ℤ := wrap32 (b.tail - b.head)

def push (b : RingBuffer α) (size : ℤ) (x : α) : RingBuffer α :=
  { b with data := Function.update b.data (slot size b.tail) x, tail := wrap32 (b.tail + 1) }

def front (b : RingBuffer α) (size : ℤ) : α := b.data (slot size b.head)

def pop (b : RingBuffer α) : RingBuffer α := { b with head := wrap32 (b.head + 1) }

/-- The values held, oldest first. -/
def contents (b : RingBuffer α) (size : ℤ) : List α :=
  (List.range b.count.toNat).map fun i : ℕ => b.data (slot size (wrap32 (b.head + i)))

@[simp] theorem push_head : (b.push size x).head = b.head := rfl

@[simp] theorem push_tail : (b.push size x).tail = wrap32 (b.tail + 1) := rfl

@[simp] theorem push_cap : (b.push size x).cap = b.cap := rfl

@[simp] theorem pop_head : b.pop.head = wrap32 (b.head + 1) := rfl

@[simp] theorem pop_tail : b.pop.tail = b.tail := rfl

@[simp] theorem pop_cap : b.pop.cap = b.cap := rfl

@[simp] theorem push_fits {i : ℤ} : (b.push size x).Fits size i ↔ b.Fits size i := Iff.rfl

@[simp] theorem pop_fits {i : ℤ} : b.pop.Fits size i ↔ b.Fits size i := Iff.rfl

/-- A ring after `h` values taken and `h + n` put. Every slot used so far is the
natural-number remainder of its counter value. -/
structure At (b : RingBuffer α) (size : ℤ) (h n : ℕ) : Prop where
  head : b.head = wrap32 h
  tail : b.tail = wrap32 (h + n)
  size_lt : size < 2147483648
  le_size : n ≤ size
  slots : ∀ i < h + n, slot size (wrap32 i) = i % size

/-- A ring in a state that in-bounds operations can reach. -/
def Valid (b : RingBuffer α) (size : ℤ) : Prop := ∃ h n, b.At size h n

theorem At.count {h n : ℕ} (hb : b.At size h n) : b.count = n := by
  have := hb.size_lt
  have := hb.le_size
  rw [RingBuffer.count, hb.head, hb.tail, wrap32_sub_wrap32]
  rw [wrap32_of_bounds] <;> omega

theorem At.length_contents {h n : ℕ} (hb : b.At size h n) : (b.contents size).length = n := by
  simp [contents, hb.count]

/-- The value of the `i`-th counter after `head`. -/
theorem At.contents_get {h n : ℕ} (hb : b.At size h n) (i : ℕ) (hi : i < n) :
    (b.contents size)[i]? = some (b.data ((h + i : ℕ) % size)) := by
  have hs := hb.slots (h + i) (by omega)
  simp only [contents, hb.count, Int.toNat_natCast, List.getElem?_map, List.getElem?_range hi,
    Option.map_some]
  rw [hb.head, wrap32_add_wrap32, ← hs]
  push_cast
  rfl

theorem Valid.length_contents (hb : b.Valid size) : ((b.contents size).length : ℤ) = b.count := by
  obtain ⟨h, n, hb⟩ := hb
  rw [hb.length_contents, hb.count]

theorem Valid.length_le (hb : b.Valid size) : ((b.contents size).length : ℤ) ≤ size := by
  obtain ⟨h, n, hb⟩ := hb
  rw [hb.length_contents]
  exact hb.le_size

theorem Valid.contents_eq_nil_iff (hb : b.Valid size) : b.contents size = [] ↔ b.count = 0 := by
  rw [← List.length_eq_zero_iff, ← hb.length_contents]
  omega

/-- An empty ring that nothing went through. -/
theorem At.empty {b : RingBuffer α} (ht : b.tail = 0) (hh : b.head = 0) (h0 : 0 ≤ size)
    (h1 : size < 2147483648) : b.At size 0 0 where
  head := by rw [hh]; rfl
  tail := by rw [ht]; rfl
  size_lt := h1
  le_size := by simpa using h0
  slots := by simp

theorem valid_empty {b : RingBuffer α} (ht : b.tail = 0) (hh : b.head = 0) (h0 : 0 ≤ size)
    (h1 : size < 2147483648) : b.Valid size :=
  ⟨0, 0, .empty ht hh h0 h1⟩

theorem count_empty {b : RingBuffer α} (ht : b.tail = 0) (hh : b.head = 0) : b.count = 0 := by
  simp [count, ht, hh, wrap32]

theorem contents_empty {b : RingBuffer α} (ht : b.tail = 0) (hh : b.head = 0) :
    b.contents size = [] := by
  simp [contents, count, ht, hh, wrap32]

/-- A remainder by `s` that comes out non-negative on a non-positive dividend is zero. -/
private theorem dvd_of_tmod_neg {s x : ℤ} (hx : 0 ≤ x) (h : 0 ≤ (-x).tmod s) : s ∣ x := by
  rw [Int.neg_tmod] at h
  have h0 : 0 ≤ x.tmod s := Int.tmod_nonneg _ hx
  exact Int.dvd_of_tmod_eq_zero (by omega)

/-- No slot behind the first wrap is negative only if the size divides `2 ^ 31`. -/
private theorem dvd_of_slots {N : ℕ} (h0 : 0 < size)
    (hs : ∀ i < N, slot size (wrap32 i) = i % size) (hN : 0 ≤ slot size (wrap32 N))
    (hge : 2147483648 ≤ N) : size ∣ 2147483648 := by
  have hw : wrap32 (2147483648 : ℕ) = -2147483648 := by decide
  apply dvd_of_tmod_neg (by omega)
  rcases hge.eq_or_lt with rfl | hgt
  · rwa [hw] at hN
  · have := hs 2147483648 hgt
    rw [hw, slot] at this
    rw [this]
    exact Int.emod_nonneg _ (by omega)

/-- From the second value behind the first wrap on the size is one. -/
private theorem eq_one_of_slots {N : ℕ} (h0 : 0 < size)
    (hs : ∀ i < N, slot size (wrap32 i) = i % size) (hN : 0 ≤ slot size (wrap32 N))
    (hgt : 2147483648 < N) : size = 1 := by
  have hd : size ∣ 2147483648 := dvd_of_slots h0 hs hN hgt.le
  have hw : wrap32 (2147483649 : ℕ) = -2147483647 := by decide
  have hd' : size ∣ 2147483647 := by
    apply dvd_of_tmod_neg (by omega)
    rcases (show 2147483649 ≤ N from hgt).eq_or_lt with rfl | hgt'
    · rwa [hw] at hN
    · have := hs 2147483649 hgt'
      rw [hw, slot] at this
      rw [this]
      exact Int.emod_nonneg _ (by omega)
  have hdvd : size ∣ 1 := by simpa using Int.dvd_sub hd hd'
  exact Int.eq_one_of_dvd_one (by omega) hdvd

/-- Slots stay natural remainders as long as they are not negative: at the first
wrap the size divides `2 ^ 31`, and from the second value on it is one. -/
theorem slot_wrap32 {N : ℕ} (h0 : 0 < size) (hs : ∀ i < N, slot size (wrap32 i) = i % size)
    (hN : 0 ≤ slot size (wrap32 N)) : slot size (wrap32 N) = N % size := by
  rcases lt_trichotomy N 2147483648 with hlt | rfl | hgt
  · rw [wrap32_of_bounds (by omega) (by omega), slot, Int.tmod_eq_emod_of_nonneg (by omega)]
  · have hd : size ∣ 2147483648 := dvd_of_slots h0 hs hN le_rfl
    have hw : wrap32 (2147483648 : ℕ) = -2147483648 := by decide
    rw [hw, slot, Int.tmod_eq_zero_of_dvd ((Int.dvd_neg).mpr hd)]
    exact (Int.emod_eq_zero_of_dvd (by exact_mod_cast hd)).symm
  · obtain rfl : size = 1 := eq_one_of_slots h0 hs hN hgt
    simp [slot, Int.tmod_one]

/-- Putting a value into a ring that is not full appends it. -/
theorem At.push {h n : ℕ} (hb : b.At size h n) (hn : n < size) (hf : 0 ≤ slot size b.tail) :
    (b.push size x).At size h (n + 1) where
  head := hb.head
  tail := by rw [push_tail, hb.tail, wrap32_add_wrap32]; push_cast; ring_nf
  size_lt := hb.size_lt
  le_size := by push_cast; omega
  slots i hi := by
    rcases (show i < h + n ∨ i = h + n by omega) with hi | rfl
    · exact hb.slots i hi
    · refine slot_wrap32 (by omega) hb.slots ?_
      rw [hb.tail] at hf
      exact_mod_cast hf

theorem At.contents_push {h n : ℕ} (hb : b.At size h n) (hn : n < size)
    (hf : 0 ≤ slot size b.tail) : (b.push size x).contents size = b.contents size ++ [x] := by
  have hb' : (b.push size x).At size h (n + 1) := hb.push hn hf
  have htail : slot size b.tail = (h + n : ℕ) % size := by
    have := hb'.slots (h + n) (by omega)
    rw [← this, hb.tail]
    push_cast
    rfl
  apply List.ext_getElem?
  intro i
  rcases lt_trichotomy i n with hi | rfl | hi
  · have hlen : i < (b.contents size).length := by
      rw [hb.length_contents]
      omega
    rw [hb'.contents_get i (by omega), List.getElem?_append_left hlen, hb.contents_get i hi]
    congr 1
    refine Function.update_of_ne ?_ _ _
    rw [htail]
    -- two counters less than `size` apart use different slots
    intro he
    have hdvd := Int.ModEq.dvd he
    push_cast at hdvd
    have := Int.le_of_dvd (by omega) hdvd
    omega
  · rw [hb'.contents_get i (by omega), List.getElem?_append_right (by rw [hb.length_contents]),
      hb.length_contents, Nat.sub_self]
    simp only [List.getElem?_cons_zero, RingBuffer.push, htail, Function.update_self]
  · have hlen : (b.contents size ++ [x]).length ≤ i := by
      rw [List.length_append, hb.length_contents, List.length_singleton]
      omega
    rw [List.getElem?_eq_none (by rw [hb'.length_contents]; omega), List.getElem?_eq_none hlen]

theorem At.pop {h n : ℕ} (hb : b.At size h (n + 1)) : b.pop.At size (h + 1) n where
  head := by rw [pop_head, hb.head, wrap32_add_wrap32]; push_cast; rfl
  tail := by rw [pop_tail, hb.tail]; push_cast; ring_nf
  size_lt := hb.size_lt
  le_size := by have := hb.le_size; push_cast at this; omega
  slots i hi := hb.slots i (by omega)

theorem At.contents_pop {h n : ℕ} (hb : b.At size h (n + 1)) :
    b.contents size = b.front size :: b.pop.contents size := by
  have hb' := hb.pop
  apply List.ext_getElem?
  intro i
  rcases i with _ | i
  · rw [hb.contents_get 0 (by omega), List.getElem?_cons_zero]
    have := hb.slots h (by omega)
    rw [← hb.head] at this
    rw [front, this, add_zero]
  · rw [List.getElem?_cons_succ]
    rcases lt_or_ge i n with hi | hi
    · rw [hb.contents_get (i + 1) (by omega), hb'.contents_get i hi,
        show h + (i + 1) = h + 1 + i by omega]
      rfl
    · rw [List.getElem?_eq_none (by rw [hb.length_contents]; omega),
        List.getElem?_eq_none (by rw [hb'.length_contents]; omega)]

/-- An operation on a ring within its bounds, and whether it takes and puts a value. -/
inductive Moves (b : RingBuffer α) (size : ℤ) : Bool → Bool → RingBuffer α → Prop
  | same : Moves b size false false b
  | put (x : α) (hn : b.count ≠ size) (hf : b.Fits size b.tail) :
      Moves b size false true (b.push size x)
  | take (hn : b.count ≠ 0) (hf : b.Fits size b.head) : Moves b size true false b.pop
  | refill (x : α) (hn : b.count ≠ 0) (hf : b.Fits size b.head) (hf' : b.Fits size b.tail) :
      Moves b size true true (b.pop.push size x)

/-- The numbers of values taken and put go on with the counters. -/
theorem At.moves {b' : RingBuffer α} {h n : ℕ} {takes puts : Bool} (hb : b.At size h n)
    (hm : b.Moves size takes puts b') :
    ∃ n', h + n + puts.toNat = h + takes.toNat + n' ∧ b'.At size (h + takes.toNat) n' := by
  have hcount : b.count = n := hb.count
  have hle : (n : ℤ) ≤ size := hb.le_size
  cases hm with
  | same => exact ⟨n, rfl, hb⟩
  | put x hn hf =>
    have hlt : (n : ℤ) < size := lt_of_le_of_ne hle (hcount ▸ hn)
    exact ⟨n + 1, rfl, hb.push hlt hf.1⟩
  | take hn hf =>
    obtain ⟨n, rfl⟩ := Nat.exists_eq_succ_of_ne_zero (show n ≠ 0 by omega)
    exact ⟨n, by simp [Nat.add_right_comm, Nat.add_assoc], hb.pop⟩
  | refill x hn hf hf' =>
    obtain ⟨n, rfl⟩ := Nat.exists_eq_succ_of_ne_zero (show n ≠ 0 by omega)
    have hlt : (n : ℤ) < size := by
      push_cast at hle
      omega
    exact ⟨n + 1, by simp; omega, hb.pop.push hlt hf'.1⟩

/-- The slot of the next value to be put is in the ring for the first `2 ^ 31` values, for the
one behind them if the size divides their number, and for all if the size is one. -/
theorem At.slot_tail_iff {h n : ℕ} (hb : b.At size h n) (h1 : 1 ≤ size) :
    (0 ≤ slot size b.tail ∧ slot size b.tail < size) ↔
      size = 1 ∨ h + n < 2147483648 ∨ h + n = 2147483648 ∧ size ∣ 2147483648 := by
  have hlt : slot size b.tail < size := Int.tmod_lt_of_pos _ (by omega)
  rw [and_iff_left hlt, hb.tail]
  have hcast : ((h : ℤ) + n) = (h + n : ℕ) := by push_cast; rfl
  rw [hcast]
  have hslots := hb.slots
  generalize h + n = N at hslots ⊢
  constructor
  · intro h0
    rcases Nat.lt_trichotomy N 2147483648 with hN | hN | hN
    · exact .inr (.inl hN)
    · subst hN
      refine .inr (.inr ⟨rfl, dvd_of_tmod_neg (by omega) ?_⟩)
      have hw : wrap32 (2147483648 : ℕ) = -2147483648 := by decide
      rwa [hw] at h0
    · exact .inl (eq_one_of_slots (by omega) hslots h0 hN)
  · rintro (rfl | hN | ⟨rfl, hd⟩)
    · simp [slot]
    · rw [wrap32_of_bounds (by omega) (by omega)]
      exact Int.tmod_nonneg _ (by omega)
    · have hw : wrap32 (2147483648 : ℕ) = -2147483648 := by decide
      rw [hw, slot, Int.tmod_eq_zero_of_dvd ((Int.dvd_neg).mpr hd)]

/-- The write of a value into a valid ring that is not full. -/
theorem Valid.push (hb : b.Valid size) (hn : b.count ≠ size) (hf : 0 ≤ slot size b.tail) :
    (b.push size x).Valid size ∧ (b.push size x).contents size = b.contents size ++ [x] := by
  obtain ⟨h, n, hb⟩ := hb
  have hlt : (n : ℤ) < size := lt_of_le_of_ne hb.le_size (hb.count ▸ hn)
  exact ⟨⟨h, n + 1, hb.push hlt hf⟩, hb.contents_push hlt hf⟩

/-- The read of a value from a valid ring that is not empty. -/
theorem Valid.pop (hb : b.Valid size) (hn : b.count ≠ 0) :
    b.pop.Valid size ∧ b.contents size = b.front size :: b.pop.contents size := by
  obtain ⟨h, n, hb⟩ := hb
  rw [hb.count] at hn
  obtain ⟨n, rfl⟩ := Nat.exists_eq_succ_of_ne_zero (show n ≠ 0 by omega)
  exact ⟨⟨h + 1, n, hb.pop⟩, hb.contents_pop⟩

/-- Counter values less than `size` apart have different slots. -/
theorem slot_ne {i j : ℤ} (h0 : 0 ≤ i) (hij : i < j) (hlt : j < i + size) :
    slot size i ≠ slot size j := by
  rw [slot, slot, Int.tmod_eq_emod_of_nonneg h0, Int.tmod_eq_emod_of_nonneg (h0.trans hij.le)]
  intro he
  have hdvd : size ∣ j - i := Int.ModEq.dvd he
  have hle := Int.le_of_dvd (by omega) hdvd
  omega

/-- A value put into a ring that is not full leaves the one taken next as it is. -/
theorem front_push (h0 : 0 ≤ b.head) (hne : b.head < b.tail) (hlt : b.tail < b.head + size) :
    (b.push size x).front size = b.front size :=
  Function.update_of_ne (slot_ne h0 hne hlt) ..

/-- A ring into which the values `log` were put, whether or not it was full, and from which `h`
were taken. The last `size` of them are in their slots. -/
structure Logged (b : RingBuffer α) (size : ℤ) (log : List α) (h : ℕ) : Prop where
  tail : b.tail = log.length
  head : b.head = h
  le : h ≤ log.length
  bound : log.length < 2147483648
  slots : ∀ i : ℕ, i < log.length → log.length ≤ i + size → log[i]? = some (b.data (i % size))

namespace Logged

variable {log : List α} {h : ℕ}

theorem empty {b : RingBuffer α} (ht : b.tail = 0) (hh : b.head = 0) : b.Logged size [] 0 where
  tail := ht
  head := hh
  le := le_rfl
  bound := by simp
  slots i hi := absurd hi (Nat.not_lt_zero i)

/-- The number of values held is exact. -/
theorem count (hb : b.Logged size log h) : b.count = log.length - h := by
  have hle := hb.le
  have hlt := hb.bound
  rw [RingBuffer.count, hb.tail, hb.head, wrap32_of_bounds (by omega) (by omega)]

/-- A value that is put overwrites the one `size` places before it. -/
theorem push (hb : b.Logged size log h) (hlt : log.length + 1 < 2147483648) :
    (b.push size x).Logged size (log ++ [x]) h := by
  have hslot : slot size b.tail = log.length % size := by
    rw [hb.tail, slot, Int.tmod_eq_emod_of_nonneg (by omega)]
  have hdata : (b.push size x).data = Function.update b.data (log.length % size) x := by
    rw [RingBuffer.push, hslot]
  constructor
  · rw [push_tail, hb.tail, wrap32_of_bounds (by omega) (by omega)]
    simp
  · exact hb.head
  · rw [List.length_append]
    exact hb.le.trans (Nat.le_add_right _ _)
  · simpa using hlt
  · intro i hi hwin
    rw [List.length_append, List.length_singleton] at hi hwin
    rw [hdata]
    rcases Nat.lt_succ_iff_lt_or_eq.mp hi with hi | rfl
    · have hne : (i : ℤ) % size ≠ log.length % size := by
        intro he
        have hdvd : size ∣ log.length - i := Int.ModEq.dvd he
        have hle := Int.le_of_dvd (by omega) hdvd
        push_cast at hwin
        omega
      rw [List.getElem?_append_left hi, Function.update_of_ne hne]
      exact hb.slots i hi (by push_cast at hwin; omega)
    · rw [List.getElem?_concat_length, Function.update_self]

theorem pop (hb : b.Logged size log h) (hlt : h < log.length) : b.pop.Logged size log (h + 1) where
  tail := hb.tail
  head := by
    have := hb.bound
    rw [pop_head, hb.head, wrap32_of_bounds (by omega) (by omega)]
    push_cast
    rfl
  le := hlt
  bound := hb.bound
  slots := hb.slots

/-- The value taken next is the oldest one not taken, if that is among the last `size`. -/
theorem front (hb : b.Logged size log h) (hlt : h < log.length) (hwin : log.length ≤ h + size) :
    log[h]? = some (b.front size) := by
  rw [hb.slots h hlt hwin, RingBuffer.front, hb.head, slot, Int.tmod_eq_emod_of_nonneg (by omega)]

end Logged

end RingBuffer
