import Lwt.Exit

/-! The slots of a ring. `lwt_snd` and `lwt_rcv` index the buffer of a channel by the remainder
of a counter that is never reduced, and divide by the size of the channel whenever they do.
The counters are read off the run: they count the values put into the ring and taken out. -/

namespace Lwt

open State

variable {σ τ σ₀ : State} {l : Label} {cur : ThreadId} {f : Frame} {rest : List Frame}
  {c : ChanId} {d : Data} {k : KthdId} {tr : List (State × Label)}

namespace State

/-- The section at a frame puts a value into the ring of the LOCAL channel `c`. -/
def puts (σ : State) (c : ChanId) : Frame → Bool
  | .call (.lwtSnd c' _) =>
    c' = c && (σ.chans c).buffer.count ≠ (σ.chans c).size && (σ.chans c).receiver.any fun r =>
      ¬ ((σ.threads r).task.Receiving ∧ (σ.threads r).nowRcving = some c)
  | .call (.lwtRcv c') =>
    c' = c && (σ.chans c).buffer.count ≠ 0 && !(σ.queues (.sender c)).isEmpty
  | _ => false

def takes (σ : State) (c : ChanId) : Frame → Bool
  | .call (.lwtRcv c') | .syncRcvLoop c' => c' = c && (σ.chans c).buffer.count ≠ 0
  | _ => false

/-- The slots that the section writes: `tail++ % size`. -/
def writeSlots (σ : State) (c : ChanId) (f : Frame) : List ℤ :=
  if σ.puts c f then [RingBuffer.slot (σ.chans c).size (σ.chans c).buffer.tail] else []

def readSlots (σ : State) (c : ChanId) (f : Frame) : List ℤ :=
  if σ.takes c f then [RingBuffer.slot (σ.chans c).size (σ.chans c).buffer.head] else []

end State

section Sections

variable (hs : Section σ l τ cur f rest)

include hs in
/-- The ring of a LOCAL channel in a section. -/
theorem Section.ringMoves (hc : c < σ.nchans) (ht : (σ.chans c).type = .local) :
    (σ.chans c).buffer.Moves (σ.chans c).size (σ.takes c f) (σ.puts c f) (τ.chans c).buffer := by
  have hnet := exec_net hs.exec
  obtain ⟨⟨σ', n⟩, hb, hfin⟩ := bind_ok hs.exec
  by_cases hsnd : ∃ d, f = .call (.lwtSnd c d)
  · obtain ⟨d, rfl⟩ := hsnd
    rw [(finish_fields hfin).2.1]
    cases (lwtSnd_ok hb).2.2 with
    | sync r ht' => simp [ht] at ht'
    | noReceiver _ hr => simpa [puts, takes, hr] using RingBuffer.Moves.same
    | handOff r _ hr _ hrcv hn => simpa [puts, takes, hr, hrcv, hn] using RingBuffer.Moves.same
    | ring r σ₁ _ hr hne hw hn _ hf =>
      have hputs : σ.puts c (.call (.lwtSnd c d)) = true := by
        simpa [puts, hr, hn, ← not_and_or] using hne
      rw [hputs]
      simpa [takes, hw.chans] using RingBuffer.Moves.put d hn hf
    | block r σ₁ _ hr hne hw hn =>
      simpa [puts, takes, hn, blockThread_sending, countBlocked, hw.chans] using
        RingBuffer.Moves.same
  · by_cases hrcv : f = .call (.lwtRcv c)
    · subst hrcv
      rw [(finish_fields hfin).2.1]
      cases (lwtRcv_ok hb).2.2 with
      | sync r ht' => simp [ht] at ht'
      | ring _ hn _ hf hq => simpa [puts, takes, hn, hq] using RingBuffer.Moves.take hn hf
      | refill s l' _ hn _ hf hq hf' =>
        simpa [puts, takes, hn, hq] using
          RingBuffer.Moves.refill (σ.threads s).messageData hn hf hf'
      | sender s l' _ hn => simpa [puts, takes, hn] using RingBuffer.Moves.same
      | block _ hn hq =>
        simpa [puts, takes, hn, blockThread_receiving, countBlocked] using RingBuffer.Moves.same
    · by_cases hl : f = .syncRcvLoop c
      · subst hl
        rw [(finish_fields hfin).2.1]
        cases (lwtSyncRcvLoop_ok hb).2.2 with
        | read hn _ hf => simpa [puts, takes, hn] using RingBuffer.Moves.take hn hf
        | empty hn => simpa [puts, takes, hn] using RingBuffer.Moves.same
      · have hputs : σ.puts c f = false := by
          unfold puts
          split <;> simp_all
        have htakes : σ.takes c f = false := by
          unfold takes
          split <;> simp_all
        have heq := (hnet.chanEffect hc).buffer (by simpa using hsnd) hrcv hl
        rw [hputs, htakes]
        exact heq ▸ .same

include hs in
/-- A section that puts or takes a value does so in a channel that exists. -/
theorem Section.ring_lt (hf : σ.puts c f = true ∨ σ.takes c f = true) : c < σ.nchans := by
  have hnet := exec_net hs.exec
  obtain ⟨⟨σ', n⟩, hb, -⟩ := bind_ok hs.exec
  cases f with
  | call a =>
    cases a with
    | lwtSnd c' d =>
      obtain rfl : c' = c := by
        rcases hf with hf | hf
        · exact of_decide_eq_true (by simp only [puts, Bool.and_eq_true] at hf; exact hf.1.1)
        · cases hf
      exact hnet.snd_lt
    | lwtRcv c' =>
      obtain rfl : c' = c := by
        rcases hf with hf | hf
        · exact of_decide_eq_true (by simp only [puts, Bool.and_eq_true] at hf; exact hf.1.1)
        · exact of_decide_eq_true (by simp only [takes, Bool.and_eq_true] at hf; exact hf.1)
      exact hnet.rcv_lt
    | _ => simp [puts, takes] at hf
  | syncRcvLoop c' =>
    obtain rfl : c' = c := by
      rcases hf with hf | hf
      · cases hf
      · exact of_decide_eq_true (by simp only [takes, Bool.and_eq_true] at hf; exact hf.1)
    exact (lwtSyncRcvLoop_ok hb).1
  | _ => simp [puts, takes] at hf

end Sections

section Runs

def numPuts (c : ChanId) (tr : List (State × Label)) : ℕ :=
  tr.countP fun p => (p.1.frame p.2).any (p.1.puts c)

def numTakes (c : ChanId) (tr : List (State × Label)) : ℕ :=
  tr.countP fun p => (p.1.frame p.2).any (p.1.takes c)

theorem numPuts_snoc : numPuts c (tr ++ [(σ, l)]) =
    numPuts c tr + ((σ.frame l).any (σ.puts c)).toNat := by
  rw [numPuts, List.countP_append, List.countP_singleton, numPuts]
  cases (σ.frame l).any (σ.puts c) <;> rfl

theorem numTakes_snoc : numTakes c (tr ++ [(σ, l)]) =
    numTakes c tr + ((σ.frame l).any (σ.takes c)).toNat := by
  rw [numTakes, List.countP_append, List.countP_singleton, numTakes]
  cases (σ.frame l).any (σ.takes c) <;> rfl

/-- What the ring of the LOCAL channel `c` owes to the run behind it. -/
structure RingUsed (σ : State) (c : ChanId) (tr : List (State × Label)) : Prop where
  type : c < σ.nchans → (σ.chans c).type = .local
  unused : σ.nchans ≤ c → numPuts c tr = 0 ∧ numTakes c tr = 0
  used : c < σ.nchans → 0 ≤ (σ.chans c).size → (σ.chans c).size < 2147483648 →
    ∃ n, numPuts c tr = numTakes c tr + n ∧
      (σ.chans c).buffer.At (σ.chans c).size (numTakes c tr) n

/-- The type of `c` is not set to GLOBAL in step `l`. -/
def StaysLocal (c : ChanId) (σ : State) (l : Label) : Prop :=
  σ.frame l ≠ some (.call (.setChanType c .global))

instance (c : ChanId) (σ : State) (l : Label) : Decidable (StaysLocal c σ l) :=
  decidable_of_iff ((σ.frame l).bind Frame.setsType ≠ some (c, .global)) <|
    not_congr (frame_eq_iff Frame.setsType_eq_some)

theorem ringUsed_section (hs : Section σ l τ cur f rest) (hu : RingUsed σ c tr)
    (hl : StaysLocal c σ l) : RingUsed τ c (tr ++ [(σ, l)]) := by
  have hnet := exec_net hs.exec
  have hle : σ.nchans ≤ τ.nchans := hnet.nchans_le
  have hputs : (σ.frame l).any (σ.puts c) = σ.puts c f := by rw [hs.frame]; rfl
  have htakes : (σ.frame l).any (σ.takes c) = σ.takes c f := by rw [hs.frame]; rfl
  have hnone (hc : σ.nchans ≤ c) : σ.puts c f = false ∧ σ.takes c f = false := by
    have h : ¬ (σ.puts c f = true ∨ σ.takes c f = true) :=
      fun hf => absurd (hs.ring_lt hf) (not_lt.mpr hc)
    simpa [not_or] using h
  have hnew (hc : σ.nchans ≤ c) (hc' : c < τ.nchans) := (hnet.created hc hc').2
  constructor
  · intro hc
    rcases lt_or_ge c σ.nchans with hlt | hge
    · exact hs.type_local hlt (hu.type hlt) hl
    · exact (hnew hge hc).type
  · intro hc
    obtain ⟨hp, ht⟩ := hnone (hle.trans hc)
    obtain ⟨hp', ht'⟩ := hu.unused (hle.trans hc)
    rw [numPuts_snoc, numTakes_snoc, hputs, htakes, hp, ht, hp', ht']
    exact ⟨rfl, rfl⟩
  · intro hc h0 h1
    rw [numPuts_snoc, numTakes_snoc, hputs, htakes]
    rcases lt_or_ge c σ.nchans with hlt | hge
    · have hsize : (τ.chans c).size = (σ.chans c).size := (hnet.chanEffect hlt).size
      rw [hsize] at h0 h1 ⊢
      obtain ⟨n, hn, hat⟩ := hu.used hlt h0 h1
      obtain ⟨n', hn', hat'⟩ := hat.moves (hs.ringMoves hlt (hu.type hlt))
      exact ⟨n', by rw [hn, hn'], hat'⟩
    · obtain ⟨hp, ht⟩ := hnone hge
      obtain ⟨hp', ht'⟩ := hu.unused hge
      obtain ⟨htl, hhd, -⟩ := (hnew hge hc).empty
      rw [hp, ht, hp', ht']
      exact ⟨0, rfl, .empty htl hhd h0 h1⟩

theorem ringUsed_step (hu : RingUsed σ c tr) (hl : StaysLocal c σ l) (hs : Step σ l τ) :
    RingUsed τ c (tr ++ [(σ, l)]) := by
  obtain ⟨cur, f, rest, hsec⟩ | ⟨k, rfl, rfl⟩ | ⟨k, mem, rfl, -, hi⟩ := step_cases hs
  · exact ringUsed_section hsec hu hl
  · refine ⟨hu.type, fun hc => ?_, fun hc h0 h1 => ?_⟩
    · rw [numPuts_snoc, numTakes_snoc]
      exact hu.unused hc
    · rw [numPuts_snoc, numTakes_snoc]
      exact hu.used hc h0 h1
  · have hputs : numPuts c (tr ++ [(σ, .initiate k mem)]) = numPuts c tr := numPuts_snoc
    have htakes : numTakes c (tr ++ [(σ, .initiate k mem)]) = numTakes c tr := numTakes_snoc
    obtain ⟨_, ch, -, -, -, -, htl, hhd, -, htype, -, -, -, rfl⟩ := initiate_ok hi
    constructor
    · intro hc
      by_cases hn : c = σ.nchans
      · simp [hn, htype]
      · simpa [hn] using hu.type (lt_of_le_of_ne (Nat.le_of_lt_succ hc) hn)
    · intro hc
      rw [hputs, htakes]
      exact hu.unused (Nat.le_of_succ_le hc)
    · intro hc h0 h1
      rw [hputs, htakes]
      by_cases hn : c = σ.nchans
      · obtain ⟨hp, ht⟩ := hu.unused hn.ge
        rw [hp, ht]
        simp only [hn, Function.update_self] at h0 h1 ⊢
        exact ⟨0, rfl, .empty htl hhd h0 h1⟩
      · simp only [ne_eq, hn, not_false_eq_true, Function.update_of_ne] at h0 h1 ⊢
        exact hu.used (lt_of_le_of_ne (Nat.le_of_lt_succ hc) hn) h0 h1

theorem boot_ringUsed (hb : σ.Boot k) : RingUsed σ c [] := by
  have h := boot_ok hb
  obtain ⟨htl, hhd, -, htype, -⟩ := h.chan
  have hzero (hc : c < σ.nchans) : c = 0 := h.chan_eq hc
  constructor
  · intro hc
    rw [hzero hc, htype]
  · intro hc
    exact ⟨rfl, rfl⟩
  · intro hc h0 h1
    rw [hzero hc] at h0 h1 ⊢
    exact ⟨0, rfl, .empty htl hhd h0 h1⟩

/-- The counters of a channel that stays LOCAL count its puts and takes. -/
theorem Run.ringUsed (h : Run σ₀ tr σ) (hb : σ₀.Boot k) (hl : ∀ p ∈ tr, StaysLocal c p.1 p.2) :
    RingUsed σ c tr := by
  induction h with
  | nil => exact boot_ringUsed hb
  | snoc hr hs ih =>
    obtain ⟨hl, hlast⟩ := Transition.forall_steps_snoc.mp hl
    exact ringUsed_step (ih hl) hlast hs

/-- Channels keep their size. -/
theorem size_step (hs : Step σ l τ) (hc : c < σ.nchans) :
    c < τ.nchans ∧ (τ.chans c).size = (σ.chans c).size := by
  obtain ⟨cur, f, rest, hsec⟩ | ⟨k, rfl, rfl⟩ | ⟨k, mem, rfl, -, hi⟩ := step_cases hs
  · have hnet := exec_net hsec.exec
    exact ⟨hc.trans_le hnet.nchans_le, (hnet.chanEffect hc).size⟩
  · exact ⟨hc, rfl⟩
  · obtain ⟨_, ch, -, -, -, -, -, -, -, -, -, -, -, rfl⟩ := initiate_ok hi
    exact ⟨Nat.lt_succ_of_lt hc, by simp [hc.ne]⟩

/-- The counter with which a step of a run puts a value into the ring. -/
theorem Run.tail_of_puts (h : Run σ₀ tr σ) (hb : σ₀.Boot k) (hl : ∀ p ∈ tr, StaysLocal c p.1 p.2)
    {m : ℕ} {p : State × Label} (hp : tr[m]? = some p) (hf : p.1.frame p.2 = some f)
    (hputs : p.1.puts c f = true) (h0 : 0 ≤ (σ.chans c).size)
    (h1 : (σ.chans c).size < 2147483648) :
    (p.1.chans c).size = (σ.chans c).size ∧
      (p.1.chans c).buffer.tail = wrap32 (numPuts c (tr.take m)) := by
  obtain ⟨-, s', -, -, hs⟩ := h.of_mem (List.mem_of_getElem? hp)
  have hc : c < p.1.nchans := by
    obtain ⟨cur, f', rest, hsec⟩ | ⟨k, hk, -⟩ | ⟨k, mem, hk, -⟩ := step_cases hs
    · obtain rfl : f = f' := Option.some.inj (hf.symm.trans hsec.frame)
      exact hsec.ring_lt (.inl hputs)
    · rw [hk] at hf
      cases hf
    · rw [hk] at hf
      cases hf
  have hm : m < tr.length := (List.getElem?_eq_some_iff.mp hp).1
  have hsize : (σ.chans c).size = (p.1.chans c).size := by
    refine (h.between (P := fun u => c < u.nchans ∧ (u.chans c).size = (p.1.chans c).size)
      hm.le (fun u hu => ?_) (fun i q s'' _ _ _ hs' hP => ?_) σ
      Transition.visited_getElem?_length).2
    · rw [Transition.visited_of_getElem? hp, Option.some.injEq] at hu
      exact hu ▸ ⟨hc, rfl⟩
    · obtain ⟨hlt, heq⟩ := size_step hs' hP.1
      exact ⟨hlt, heq.trans hP.2⟩
  have hl' : ∀ q ∈ tr.take m, StaysLocal c q.1 q.2 := fun q hq => hl q (List.mem_of_mem_take hq)
  obtain ⟨n, hn, hat⟩ := (Run.ringUsed (h.take hp) hb hl').used hc (hsize ▸ h0) (hsize ▸ h1)
  refine ⟨hsize.symm, ?_⟩
  rw [hat.tail, hn]
  push_cast
  rfl

/-- The slots that a section of a run uses lie in the ring, and what it reads is the slot that
was written for the value of the same number. -/
structure SlotsValid (σ : State) (c : ChanId) (f : Frame) (tr : List (State × Label)) : Prop where
  inRange : ∀ i ∈ σ.readSlots c f ++ σ.writeSlots c f, 0 ≤ i ∧ i < (σ.chans c).size
  sameSlot : ∀ i ∈ σ.readSlots c f, ∃ m p g, tr[m]? = some p ∧ p.1.frame p.2 = some g ∧
    numPuts c (tr.take m) = numTakes c tr ∧ i ∈ p.1.writeSlots c g

theorem mem_readSlots {i : ℤ} (hi : i ∈ σ.readSlots c f) : (σ.chans c).buffer.count ≠ 0 ∧
    i = RingBuffer.slot (σ.chans c).size (σ.chans c).buffer.head := by
  simp only [readSlots, List.mem_ite_nil_right, List.mem_singleton] at hi
  obtain ⟨ht, rfl⟩ := hi
  refine ⟨?_, rfl⟩
  unfold takes at ht
  split at ht <;> simp_all

/-- The slots that are read lie in the ring. -/
theorem readSlots_inRange {t n : ℕ} (hat : (σ.chans c).buffer.At (σ.chans c).size t n)
    (h1 : 1 ≤ (σ.chans c).size) {i : ℤ} (hi : i ∈ σ.readSlots c f) :
    0 ≤ i ∧ i < (σ.chans c).size := by
  obtain ⟨hcount, rfl⟩ := mem_readSlots hi
  rw [hat.count] at hcount
  rw [hat.head, hat.slots _ (by omega)]
  exact ⟨Int.emod_nonneg _ (by omega), Int.emod_lt_of_pos _ (by omega)⟩

/-- The slots that the next section of a run uses on a channel that stays LOCAL are valid if and
only if it does not put a value into a ring of several slots behind the first `2 ^ 31` values,
or behind one more if the size divides their number. -/
theorem slots_valid_iff (h : Run σ₀ tr σ) (hb : σ₀.Boot k)
    (hl : ∀ p ∈ tr, StaysLocal c p.1 p.2) (hc : c < σ.nchans) (h1 : 1 ≤ (σ.chans c).size)
    (h2 : (σ.chans c).size < 1073741824) :
    SlotsValid σ c f tr ↔ (σ.puts c f = true → (σ.chans c).size = 1 ∨
      numPuts c tr < 2147483648 ∨
      numPuts c tr = 2147483648 ∧ (σ.chans c).size ∣ 2147483648) := by
  obtain ⟨n, hn, hat⟩ := (h.ringUsed hb hl).used hc (by omega) (by omega)
  have htail := hat.slot_tail_iff h1
  rw [← hn] at htail
  constructor
  · rintro ⟨hrange, -⟩ hp
    refine htail.mp (hrange _ ?_)
    simp [writeSlots, hp]
  · intro hC
    constructor
    · intro i hi
      rcases List.mem_append.mp hi with hi | hi
      · exact readSlots_inRange hat h1 hi
      · simp only [writeSlots, List.mem_ite_nil_right, List.mem_singleton] at hi
        obtain ⟨hp, rfl⟩ := hi
        exact htail.mpr (hC hp)
    · intro i hi
      obtain ⟨h0, hi'⟩ := mem_readSlots hi
      rw [hat.count] at h0
      rw [hat.head] at hi'
      obtain ⟨m, p, hp, hputs, hm⟩ :=
        Transition.exists_of_lt_countP (show numTakes c tr < numPuts c tr by omega)
      obtain ⟨g, hg, hputs⟩ := (Option.any_eq_true _ _).mp hputs
      obtain ⟨hsize, htl⟩ := h.tail_of_puts hb hl hp hg hputs (by omega) (by omega)
      refine ⟨m, p, g, hp, hg, hm, ?_⟩
      rw [writeSlots, if_pos hputs, hsize, htl, List.mem_singleton, hi', ← hm]
      rfl

end Runs

def slotRun : List Label :=
  [.call (.lwtChan 2 chanMem), .call (.lwtSnd 1 (.word 5)), .call (.lwtSnd 1 (.word 6)),
    .call (.lwtRcv 1)]

theorem slotRun_valid :
    SlotsValid (booted.after slotRun) 1 (.call (.lwtRcv 1)) (booted.trace slotRun) :=
  (slots_valid_iff (State.run_trace booted slotRun) boot_booted (by decide +kernel)
    (by decide +kernel) (by decide +kernel) (by decide +kernel)).mpr
    fun _ => .inr (.inl (by decide +kernel))

structure Own (σ : State) : Prop where
  current : σ.lwtCurrent = some 0
  runs : σ.kthd.slState ≠ .blocked
  thread : 0 < σ.nthreads ∧ (σ.threads 0).context = [] ∧ (σ.threads 0).state = .running
  chan : 1 < σ.nchans ∧ (σ.chans 1).freed = false ∧ (σ.chans 1).type = .local ∧
    (σ.chans 1).receiver = some 0 ∧ (σ.chans 1).cgroup = none

/-- A value that the main thread has put into the ring of its channel. -/
def State.sentOwn (σ : State) (d : Data) : State :=
  ((((σ.modChan 1 fun ch => { ch with ready := 1 }).emit (.snd 0 1 d)).modChan 1 fun ch =>
    { ch with buffer := ch.buffer.push ch.size d }).emit (.sndDone 0 1)).modThread 0 fun th =>
      { th with context := [], eax := .null }

/-- A send to a ring that is not full is a write to the next slot. -/
theorem Own.snd_step (h : Own σ) (hcount : (σ.chans 1).buffer.count ≠ (σ.chans 1).size)
    (hs : (σ.chans 1).size ≠ 0) : σ.step (.call (.lwtSnd 1 d)) =
      if (σ.chans 1).buffer.Fits (σ.chans 1).size (σ.chans 1).buffer.tail then .ok (σ.sentOwn d)
      else .error .outOfBounds := by
  obtain ⟨hlt, hctx, hst⟩ := h.thread
  obtain ⟨hc, hfree, ht, hr, hg⟩ := h.chan
  have hchan : σ.chan? 1 = .ok (σ.chans 1) := by simp [State.chan?, not_le.mpr hc, hfree]
  have hthread : σ.thread? 0 = .ok (σ.threads 0) := by simp [State.thread?, hlt.ne']
  have hexec : σ.step (.call (.lwtSnd 1 d)) = σ.exec 0 (.call (.lwtSnd 1 d)) [] := by
    simp [State.step, h.current, h.runs, hctx]
  have hbody : σ.lwtSnd 0 1 d = σ.lwtSndQueue 0 1 d := by
    simp [State.lwtSnd, hchan, bind, Except.bind, ht, hr, hthread, hst]
  rw [hexec]
  simp only [State.exec, State.body, State.call, hbody]
  by_cases hf : (σ.chans 1).buffer.Fits (σ.chans 1).size (σ.chans 1).buffer.tail
  · simp [State.lwtSndQueue, State.wakeGroup, hg, hcount, hs, State.ringWrite, bind, Except.bind,
      hf, State.finish, State.sentOwn]
  · simp [State.lwtSndQueue, State.wakeGroup, hg, hcount, hs, State.ringWrite, bind, Except.bind,
      hf]

/-- The ring of channel `1`, of three slots, has these counters. -/
structure Solo (σ : State) (tail head : ℤ) : Prop extends Own σ where
  size : (σ.chans 1).size = 3 ∧ (σ.chans 1).buffer.cap = 3
  counters : (σ.chans 1).buffer.tail = tail ∧ (σ.chans 1).buffer.head = head
  senders : σ.queues (.sender 1) = []

namespace Solo

variable {n : ℤ}

/-- A send to the ring with room: it is a write to slot `n % 3`. -/
theorem snd_step (h : Solo σ n n) : σ.step (.call (.lwtSnd 1 d)) =
    if 0 ≤ n.tmod 3 then .ok (σ.sentOwn d) else .error .outOfBounds := by
  obtain ⟨hs, hcap⟩ := h.size
  obtain ⟨htl, hhd⟩ := h.counters
  have hcount : (σ.chans 1).buffer.count = 0 := by
    simp [RingBuffer.count, htl, hhd, wrap32]
  have hmod : n.tmod 3 < 3 := Int.tmod_lt_of_pos _ (by decide)
  rw [h.toOwn.snd_step (by rw [hcount, hs]; decide) (by rw [hs]; decide)]
  simp [RingBuffer.Fits, RingBuffer.slot, htl, hs, hcap, hmod]

/-- The ring of the channel is all that matters. -/
theorem moved {t t' n' : ℤ} {b : RingBuffer Data} {r : ℤ} (h : Solo σ t n)
    (hk : τ.kthds = σ.kthds ∧ τ.currentKthd = σ.currentKthd)
    (hth : τ.nthreads = σ.nthreads ∧ (τ.threads 0).context = [] ∧
      (τ.threads 0).state = (σ.threads 0).state)
    (hch : τ.nchans = σ.nchans ∧ τ.chans 1 = { σ.chans 1 with buffer := b, ready := r })
    (hq : τ.queues = σ.queues) (hb : b.cap = 3 ∧ b.tail = t' ∧ b.head = n') : Solo τ t' n' := by
  obtain ⟨hk, hck⟩ := hk
  obtain ⟨hn, hctx, hst⟩ := hth
  obtain ⟨hnc, hch⟩ := hch
  refine ⟨⟨?_, ?_, ?_, ?_⟩, ?_, ?_, ?_⟩
  · rw [← h.current, State.lwtCurrent, State.lwtCurrent, State.kthd, State.kthd, hk, hck]
  · rw [State.kthd, hk, hck]
    exact h.runs
  · exact ⟨hn ▸ h.thread.1, hctx, hst.trans h.thread.2.2⟩
  · rw [hnc, hch]
    exact h.chan
  · rw [hch]
    exact ⟨h.size.1, hb.1⟩
  · rw [hch]
    exact hb.2
  · rw [hq]
    exact h.senders

/-- A receive of the one value in the ring: it is a read of slot `n % 3`. -/
theorem rcv_step (h : Solo σ (wrap32 (n + 1)) n) (h0 : 0 ≤ n.tmod 3) :
    ∃ τ, Step σ (.call (.lwtRcv 1)) τ ∧ Solo τ (wrap32 (n + 1)) (wrap32 (n + 1)) := by
  obtain ⟨hlt, hctx, hst⟩ := h.thread
  obtain ⟨hc, hfree, ht, hr, hg⟩ := h.chan
  obtain ⟨hs, hcap⟩ := h.size
  obtain ⟨htl, hhd⟩ := h.counters
  have hcount : (σ.chans 1).buffer.count = 1 := by
    rw [RingBuffer.count, htl, hhd]
    unfold wrap32
    omega
  have hmod : n.tmod 3 < 3 := Int.tmod_lt_of_pos _ (by decide)
  have hchan : σ.chan? 1 = .ok (σ.chans 1) := by simp [State.chan?, not_le.mpr hc, hfree]
  have hexec : σ.step (.call (.lwtRcv 1)) = σ.exec 0 (.call (.lwtRcv 1)) [] := by
    simp [State.step, h.current, h.runs, hctx]
  have hbody : σ.lwtRcv 0 1 = σ.lwtRcvRing 0 1 := by
    simp [State.lwtRcv, hchan, bind, Except.bind, ht, hcount]
  have hstep : σ.step (.call (.lwtRcv 1)) =
      .ok (((((σ.modChan 1 fun ch => { ch with buffer := ch.buffer.pop }).modChan 1 fun ch =>
        { ch with ready := if ch.buffer.head = ch.buffer.tail then 0 else 1 }).emit
          (.rcv 0 1 ((σ.chans 1).buffer.front 3))).modThread 0 fun th =>
            { th with context := [], eax := (σ.chans 1).buffer.front 3 })) := by
    rw [hexec]
    simp only [State.exec, State.body, State.call, hbody]
    simp [State.lwtRcvRing, State.ringRead, hs, RingBuffer.Fits, RingBuffer.slot, hhd, hcap, hmod,
      h0, bind, Except.bind, h.senders, State.finish]
  refine ⟨_, hstep, h.moved (b := (σ.chans 1).buffer.pop)
    (r := if (σ.chans 1).buffer.pop.head = (σ.chans 1).buffer.tail then 0 else 1)
    ⟨rfl, rfl⟩ ⟨rfl, ?_, ?_⟩ ⟨rfl, ?_⟩ rfl ?_⟩
  · simp
  · simp
  · simp
    rfl
  · exact ⟨hcap, htl, congrArg (fun x => wrap32 (x + 1)) hhd⟩

/-- One round of a send and a receive. -/
theorem round (h : Solo σ n n) (h0 : 0 ≤ n.tmod 3) (d : Data) : ∃ σ' τ,
    Step σ (.call (.lwtSnd 1 d)) σ' ∧ Step σ' (.call (.lwtRcv 1)) τ ∧
      Solo τ (wrap32 (n + 1)) (wrap32 (n + 1)) := by
  have hsnd := h.snd_step (d := d)
  rw [if_pos h0] at hsnd
  obtain ⟨hs, hcap⟩ := h.size
  obtain ⟨htl, hhd⟩ := h.counters
  have hmid : Solo (σ.sentOwn d) (wrap32 (n + 1)) n := by
    refine h.moved (b := (σ.chans 1).buffer.push (σ.chans 1).size d) (r := 1) ⟨rfl, rfl⟩
      ⟨rfl, ?_, ?_⟩ ⟨rfl, ?_⟩ rfl ?_
    · simp [sentOwn]
    · simp [sentOwn]
    · simp [sentOwn]
    · exact ⟨hcap, congrArg (fun x => wrap32 (x + 1)) htl, hhd⟩
  obtain ⟨τ, hrcv, hτ⟩ := hmid.rcv_step h0
  exact ⟨_, τ, hsnd, hrcv, hτ⟩

end Solo

/-- `n` rounds can be made as long as the counters have not wrapped. -/
theorem exists_rounds {n : ℕ} (hn : n ≤ 2147483648) :
    ∃ tr σ, Run booted tr σ ∧ Solo σ (wrap32 n) (wrap32 n) := by
  induction n with
  | zero =>
    refine ⟨_, _, State.run_trace booted [.call (.lwtChan 3 chanMem)], ⟨?_, ?_, ?_, ?_⟩, ?_, ?_, ?_⟩
    all_goals decide +kernel
  | succ n ih =>
    obtain ⟨tr, σ, hr, hsolo⟩ := ih (Nat.le_of_succ_le hn)
    have hw : wrap32 n = n := wrap32_of_bounds (by omega) (by omega)
    rw [hw] at hsolo
    obtain ⟨σ', τ, hsnd, hrcv, hsolo'⟩ := hsolo.round (Int.tmod_nonneg _ (by omega)) (.word 5)
    exact ⟨_, τ, (hr.snoc hsnd).snoc hrcv, hsolo'⟩

/-- The send of the value with number `2 ^ 31` to a ring of three slots writes slot `-2`. -/
theorem late_send_out_of_bounds : ∃ tr σ, Run booted tr σ ∧ (σ.chans 1).type = .local ∧
    (σ.chans 1).size = 3 ∧ σ.writeSlots 1 (.call (.lwtSnd 1 (.word 5))) = [-2] ∧
    σ.step (.call (.lwtSnd 1 (.word 5))) = .error .outOfBounds := by
  obtain ⟨tr, σ, hr, hsolo⟩ := exists_rounds le_rfl
  have hw : wrap32 (2147483648 : ℕ) = -2147483648 := by decide
  rw [hw] at hsolo
  obtain ⟨hc, hfree, ht, hrcv, hg⟩ := hsolo.chan
  obtain ⟨hs, hcap⟩ := hsolo.size
  obtain ⟨htl, hhd⟩ := hsolo.counters
  have hcount : (σ.chans 1).buffer.count = 0 := by
    simp [RingBuffer.count, htl, hhd, wrap32]
  refine ⟨tr, σ, hr, ht, hs, ?_, ?_⟩
  · have hst : (σ.threads 0).state = .running := hsolo.thread.2.2
    simp [writeSlots, puts, hcount, hs, hrcv, Task.Receiving, hst, htl, RingBuffer.slot]
  · rw [hsolo.snd_step, if_neg (by decide)]

end Lwt
