import Lwt.Accesses
import Lwt.State

/-! The two locks of `lwt_sync_snd`, for any number of kernel threads, any order of their accesses
and any order of the unsequenced ones. At most one kernel thread is in each locked section, no
update of the ring or of the wake-up queue is lost, and the receiver, which takes no lock, reads
only counters that it may rely on. -/

namespace Lwt.Access

def Pc.inRb : Pc → Option (Send × RbPc)
  | .rb a p => some (a, p)
  | _ => none

def Pc.inWq : Pc → Option (Send × WqPc)
  | .wq a p => some (a, p)
  | _ => none

def Pc.inRcv : Pc → Option RcvPc
  | .rcv _ p => some p
  | _ => none

/-- The ring `m` stands for `b` while a sender is in its locked section. -/
def RbAt (size : ℤ) (x : Send × RbPc) (b m : RingBuffer Data) : Prop :=
  match x.2 with
  | .load | .unlock => m = b
  | .write tail => m = b ∧ tail = b.tail
  | .writeTail tail =>
    tail = b.tail ∧
      m = { b with data := Function.update b.data (RingBuffer.slot size tail) x.1.data }
  | .writeSlot tail =>
    0 ≤ tail ∧
      b = { m with data := Function.update m.data (RingBuffer.slot size tail) x.1.data }

/-- With the links `L` the wake-up queue holds the wraps `l`, for the threads `q`. -/
structure Wakeups.Holds (w : Wakeups) (L : Links (Option ℕ)) (l : List ℕ)
    (q : List (Option ThreadId)) : Prop where
  ring : L.Ring none (l.map some)
  old : ∀ i ∈ l, i < w.lws
  thds : l.map w.thd = q

def WqFree (q : List (Option ThreadId)) (w : Wakeups) : Prop := ∃ l, w.Holds w.links l q

/-- Wrap `lw` for thread `r` is being linked; before, the links were `L`. -/
structure Wakeups.Adds (w : Wakeups) (r : ThreadId) (lw : ℕ) (L : Links (Option ℕ))
    (q : List (Option ThreadId)) : Prop where
  holds : ∃ l, w.Holds L l q ∧ lw ∉ l
  thd : w.thd lw = some r
  given : lw < w.lws

/-- The wake-up queue `w` stands for `q` while a sender is in its locked section. -/
def WqAt (r : ThreadId) (x : Send × WqPc) (q : List (Option ThreadId)) (w : Wakeups) : Prop :=
  match x.2 with
  | .wrap | .unlock => WqFree q w
  | .linkPrev lw => w.Adds r lw w.links q
  | .linkNext lw => ∃ L, w.Adds r lw L q ∧
      w.links = { L with prev := Function.update L.prev (some lw) (L.prev none) }
  | .linkBefore lw => ∃ L, w.Adds r lw L q ∧
      w.links = ⟨Function.update L.next (some lw) none,
        Function.update L.prev (some lw) (L.prev none)⟩
  | .linkAfter lw => ∃ L, w.Adds r lw L q ∧
      w.links = ⟨Function.update (Function.update L.next (some lw) none) (L.prev none) (some lw),
        Function.update L.prev (some lw) (L.prev none)⟩

/-- What the receiver has found out about the counters. -/
def RcvPc.Noted (b : RingBuffer Data) : RcvPc → Prop
  | .tail => True
  | .head i => b.head ≤ i ∧ i ≤ b.tail
  | .take => b.head < b.tail
  | .read i => i = b.head ∧ b.head < b.tail
  | .readHead i _ => i = b.head ∧ b.head < b.tail
  | .readSlot i => 0 ≤ i

def Op.woken (r : ThreadId) : Op → Option (Option ThreadId)
  | .wake _ => some (some r)
  | _ => none

/-- The ring stands for `b` and the wake-up queue for one entry a wake-up. -/
structure Locked (cf : Conf) (s : State) (b : RingBuffer Data) : Prop where
  rb : SpinLock.Guards Pc.inRb (fun b m => m = b) (RbAt cf.size) s.rbOccupied s.pc s.buffer b
  wq : SpinLock.Guards Pc.inWq WqFree (WqAt cf.receiver) s.wqOccupied s.pc s.wakeup
    (s.record.filterMap (Op.woken cf.receiver))
  remote : ∀ t, (s.pc t).inRcv.isSome → t = cf.remote
  noted : ∀ t p, (s.pc t).inRcv = some p → p.Noted b
  logged : ∃ h : ℕ, b.Logged cf.size s.sent h

/-- What a step of kernel thread `t` does to the ring that `s` stands for and to the record. -/
inductive Effect (cf : Conf) (s s' : State) (t : KthdId) (b b' : RingBuffer Data) : Prop
  | quiet (ring : b' = b) (record : s'.record = s.record)
  | put (a : Send) (tail : ℤ)
      (pc : s.pc t = .rb a (.writeTail tail) ∨ cf.code.snd = .counter)
      (ring : b' = b.push cf.size a.data) (record : s'.record = s.record ++ [.put a])
  | wake (a : Send) (pc : (s.pc t).inWq.isSome) (ring : b' = b)
      (record : s'.record = s.record ++ [.wake a])
  | take (cur : ThreadId) (head : ℤ) (result : Data)
      (pc : s.pc t = .rcv cur (.readHead head result)) (ring : b' = b.pop)
      (record : s'.record = s.record ++ [.take cur result])
  | advance (code : cf.code.rcv = .counter) (ring : b' = b.pop) (record : s'.record = s.record)
  | late (cur : ThreadId) (head : ℤ) (result : Data) (pc : s.pc t = .rcv cur (.readSlot head))
      (ring : b' = b) (record : s'.record = s.record ++ [.take cur result])

section

variable {cf : Conf} {s s' : State} {b b' : RingBuffer Data} {t u : KthdId} {a : Send}
  {cur : ThreadId} {p : Pc}

theorem RcvPc.Noted.mono {p : RcvPc} (h : p.Noted b) (hh : b'.head = b.head)
    (ht : b.tail ≤ b'.tail) : p.Noted b' := by
  cases p with
  | tail => trivial
  | readSlot => exact h
  | head tail => exact ⟨hh ▸ h.1, h.2.trans ht⟩
  | take => exact lt_of_lt_of_le (hh.trans_lt h) ht
  | read head => exact ⟨hh ▸ h.1, lt_of_lt_of_le (hh ▸ h.2) ht⟩
  | readHead head result => exact ⟨hh ▸ h.1, lt_of_lt_of_le (hh ▸ h.2) ht⟩

theorem storeSlot_ok {size i : ℤ} {d : Data} (h : s.storeSlot size i d = .ok s') :
    s' = { s with buffer :=
      { s.buffer with data := Function.update s.buffer.data (RingBuffer.slot size i) d } } := by
  unfold State.storeSlot at h
  split_ifs at h
  exact (Except.ok.inj h).symm

theorem loadSlot_ok {size i : ℤ} {d : Data} (h : s.loadSlot size i = .ok d) :
    d = s.buffer.data (RingBuffer.slot size i) := by
  unfold State.loadSlot at h
  split_ifs at h
  exact (Except.ok.inj h).symm

theorem woken_put (r : ThreadId) (ops : List Op) (a : Send) :
    (ops ++ [Op.put a]).filterMap (Op.woken r) = ops.filterMap (Op.woken r) := by simp [Op.woken]

theorem woken_take (r : ThreadId) (ops : List Op) (cur : ThreadId) (d : Data) :
    (ops ++ [Op.take cur d]).filterMap (Op.woken r) = ops.filterMap (Op.woken r) := by
  simp [Op.woken]

theorem woken_wake (r : ThreadId) (ops : List Op) (a : Send) :
    (ops ++ [Op.wake a]).filterMap (Op.woken r) = ops.filterMap (Op.woken r) ++ [some r] := by
  simp [Op.woken]

theorem sent_take (ops : List Op) (cur : ThreadId) (d : Data) :
    (ops ++ [Op.take cur d]).filterMap Op.sent = ops.filterMap Op.sent := by simp [Op.sent]

/-- Stores to links alone leave the wraps as they are. -/
theorem Wakeups.Adds.frame {w w' : Wakeups} {r : ThreadId} {lw : ℕ} {L : Links (Option ℕ)}
    {q : List (Option ThreadId)} (h : w.Adds r lw L q) (ht : w'.thd = w.thd) (hl : w'.lws = w.lws) :
    w'.Adds r lw L q := by
  obtain ⟨⟨l, hl', hlw⟩, hthd, hgiven⟩ := h
  refine ⟨⟨l, ⟨hl'.ring, ?_, ?_⟩, hlw⟩, ?_, ?_⟩
  · rw [hl]
    exact hl'.old
  · rw [ht]
    exact hl'.thds
  · rw [ht]
    exact hthd
  · rw [hl]
    exact hgiven

/-- With its four links a wrap is the last of the queue. -/
theorem Wakeups.Adds.linked {w : Wakeups} {r : ThreadId} {lw : ℕ} {L : Links (Option ℕ)}
    {q : List (Option ThreadId)} (h : w.Adds r lw L q) (hw : w.links = L.add none (some lw)) :
    WqFree (q ++ [some r]) w := by
  obtain ⟨⟨l, hl, hlw⟩, hthd, hgiven⟩ := h
  refine ⟨l ++ [lw], ?_, ?_, ?_⟩
  · rw [hw, List.map_append]
    refine hl.ring.add ?_
    simpa using hlw
  · intro i hi
    rcases List.mem_append.mp hi with hi | hi
    · exact hl.old i hi
    · rw [List.mem_singleton.mp hi]
      exact hgiven
  · rw [List.map_append, hl.thds, List.map_singleton, hthd]

namespace Locked

/-- The ring never differs from what it stands for in more than a slot. -/
theorem counters (h : Locked cf s b) :
    s.buffer.tail = b.tail ∧ s.buffer.head = b.head ∧ s.buffer.cap = b.cap := by
  by_cases h0 : s.rbOccupied = 0
  · rw [h.rb.free h0]
    exact ⟨rfl, rfl, rfl⟩
  · obtain ⟨t, ht⟩ : ∃ t, (s.pc t).inRb ≠ none := by
      by_contra hall
      push Not at hall
      exact h0 (h.rb.zero_iff.mpr hall)
    obtain ⟨⟨a, p⟩, hx⟩ := Option.ne_none_iff_exists'.mp ht
    have hmid := h.rb.mid t _ hx
    cases p with
    | load | unlock =>
      have hm : s.buffer = b := hmid
      rw [hm]
      exact ⟨rfl, rfl, rfl⟩
    | write tail =>
      have hm : s.buffer = b := hmid.1
      rw [hm]
      exact ⟨rfl, rfl, rfl⟩
    | writeTail tail =>
      rw [hmid.2]
      exact ⟨rfl, rfl, rfl⟩
    | writeSlot tail =>
      rw [hmid.2]
      exact ⟨rfl, rfl, rfl⟩

theorem head_nonneg (h : Locked cf s b) : 0 ≤ b.head := by
  obtain ⟨n, hl⟩ := h.logged
  rw [hl.head]
  exact Int.natCast_nonneg n

theorem tail_nonneg (h : Locked cf s b) : 0 ≤ b.tail := by
  obtain ⟨n, hl⟩ := h.logged
  rw [hl.tail]
  exact Int.natCast_nonneg _

theorem noted_rcv (h : Locked cf s b) {q : RcvPc} (hpc : s.pc t = .rcv cur q) : q.Noted b :=
  h.noted t q (by rw [hpc]; rfl)

/-- The receiver's part, in a step of a thread that goes to a place where it does not receive. -/
theorem receiver (h : Locked cf s b) (b' : RingBuffer Data) (hp : p.inRcv = none)
    (hh : b'.head = b.head) (ht : b.tail ≤ b'.tail) :
    (∀ u, (Function.update s.pc t p u).inRcv.isSome → u = cf.remote) ∧
      ∀ u q, (Function.update s.pc t p u).inRcv = some q → q.Noted b' := by
  refine ⟨fun u hu => ?_, fun u q hu => ?_⟩
  · by_cases hut : u = t
    · rw [hut, Function.update_self, hp] at hu
      cases hu
    · rw [Function.update_of_ne hut] at hu
      exact h.remote u hu
  · by_cases hut : u = t
    · rw [hut, Function.update_self, hp] at hu
      cases hu
    · rw [Function.update_of_ne hut] at hu
      exact (h.noted u q hu).mono hh ht

theorem tail_le_push (h : Locked cf s b) (hlt : s.sent.length + 1 < 2147483648) (d : Data) :
    b.tail ≤ (b.push cf.size d).tail := by
  obtain ⟨n, hl⟩ := h.logged
  rw [RingBuffer.push_tail, hl.tail, wrap32_of_bounds (by omega) (by omega)]
  omega

theorem logged_push (h : Locked cf s b) (hlt : s.sent.length + 1 < 2147483648) (a : Send)
    (hr : s'.record = s.record ++ [.put a]) :
    ∃ n : ℕ, (b.push cf.size a.data).Logged cf.size s'.sent n := by
  obtain ⟨n, hl⟩ := h.logged
  refine ⟨n, ?_⟩
  have hsent : s'.sent = s.sent ++ [a.data] := by simp [State.sent, hr, Op.sent]
  rw [hsent]
  exact hl.push hlt

/-- A step in the section locked by `rb_occupied`. -/
theorem rbStep {q : RbPc} (h : Locked cf s b) (hpc : s.pc t = .rb a q)
    (hlt : s.sent.length + 1 < 2147483648) (hs : s.rbStep t cf a q = .ok s') :
    ∃ b', Locked cf s' b' ∧ Effect cf s s' t b b' := by
  have hin : (s.pc t).inRb = some (a, q) := by rw [hpc]; rfl
  have hout : (s.pc t).inWq = none := by rw [hpc]; rfl
  cases q with
  | load =>
    obtain rfl := Except.ok.inj hs
    have hr := h.receiver (t := t) (p := .rb a (.write s.buffer.tail)) b rfl rfl le_rfl
    refine ⟨b, ⟨?_, h.wq.outside hout rfl, hr.1, hr.2, h.logged⟩, .quiet rfl rfl⟩
    exact h.rb.advance hin rfl fun hm => ⟨hm, congrArg RingBuffer.tail hm⟩
  | write tail =>
    simp only [State.rbStep] at hs
    cases hcode : cf.code.snd with
    | slot =>
      rw [hcode] at hs
      obtain ⟨s₁, hst, hs⟩ := bind_ok hs
      obtain rfl := storeSlot_ok hst
      obtain rfl := Except.ok.inj hs
      have hr := h.receiver (t := t) (p := .rb a (.writeTail tail)) b rfl rfl le_rfl
      refine ⟨b, ⟨?_, h.wq.outside hout rfl, hr.1, hr.2, h.logged⟩, .quiet rfl rfl⟩
      refine h.rb.advance hin rfl fun hm => ⟨hm.2, ?_⟩
      rw [hm.1]
      rfl
    | counter =>
      rw [hcode] at hs
      obtain rfl := Except.ok.inj hs
      have hr := h.receiver (t := t) (p := .rb a (.writeSlot tail)) (b.push cf.size a.data)
        rfl rfl (h.tail_le_push hlt a.data)
      refine ⟨_, ⟨?_, ?_, hr.1, hr.2, h.logged_push hlt a rfl⟩, .put a tail (.inr hcode) rfl rfl⟩
      · refine h.rb.advance hin rfl fun hm => ⟨hm.2 ▸ h.tail_nonneg, ?_⟩
        rw [hm.2, RingBuffer.push]
        simp [State.storeTail, hm.1]
      · have hw := h.wq.outside (t := t) (p := .rb a (.writeSlot tail)) hout rfl
        rwa [← woken_put cf.receiver s.record a] at hw
  | writeTail tail =>
    obtain rfl := Except.ok.inj hs
    have hr := h.receiver (t := t) (p := .rb a .unlock) (b.push cf.size a.data) rfl rfl
      (h.tail_le_push hlt a.data)
    refine ⟨_, ⟨?_, ?_, hr.1, hr.2, h.logged_push hlt a rfl⟩, .put a tail (.inl hpc) rfl rfl⟩
    · refine h.rb.advance hin rfl fun hm => ?_
      rw [hm.1, RbAt, RingBuffer.push]
      simp [State.storeTail, hm.2, hm.1]
    · have hw := h.wq.outside (t := t) (p := .rb a .unlock) hout rfl
      rwa [← woken_put cf.receiver s.record a] at hw
  | writeSlot tail =>
    obtain ⟨s₁, hst, hs⟩ := bind_ok hs
    obtain rfl := storeSlot_ok hst
    obtain rfl := Except.ok.inj hs
    have hr := h.receiver (t := t) (p := .rb a .unlock) b rfl rfl le_rfl
    refine ⟨b, ⟨?_, h.wq.outside hout rfl, hr.1, hr.2, h.logged⟩, .quiet rfl rfl⟩
    exact h.rb.advance hin rfl fun hm => hm.2.symm
  | unlock =>
    obtain rfl := Except.ok.inj hs
    have hr := h.receiver (t := t) (p := .wqLock a) b rfl rfl le_rfl
    refine ⟨b, ⟨?_, h.wq.outside hout rfl, hr.1, hr.2, h.logged⟩, .quiet rfl rfl⟩
    exact h.rb.release hin rfl fun hm => hm

/-- A step in the section locked by `wq_occupied`. -/
theorem wqStep {q : WqPc} (h : Locked cf s b) (hpc : s.pc t = .wq a q) :
    Locked cf (s.wqStep t cf a q) b ∧ Effect cf s (s.wqStep t cf a q) t b b := by
  have hin : (s.pc t).inWq = some (a, q) := by rw [hpc]; rfl
  have hout : (s.pc t).inRb = none := by rw [hpc]; rfl
  cases q with
  | wrap =>
    have hr := h.receiver (t := t) (p := .wq a (.linkPrev s.wakeup.lws)) b rfl rfl le_rfl
    refine ⟨⟨h.rb.outside hout rfl, ?_, hr.1, hr.2, h.logged⟩, .quiet rfl rfl⟩
    refine h.wq.advance hin rfl fun hm => ?_
    obtain ⟨l, hl⟩ := hm
    have hfresh : s.wakeup.lws ∉ l := fun hmem => lt_irrefl _ (hl.old _ hmem)
    refine ⟨⟨l, ⟨hl.ring, fun i hi => Nat.lt_succ_of_lt (hl.old i hi), ?_⟩, hfresh⟩,
      Function.update_self .., Nat.lt_succ_self _⟩
    refine Eq.trans (List.map_congr_left fun i hi => Function.update_of_ne ?_ ..) hl.thds
    rintro rfl
    exact hfresh hi
  | linkPrev lw =>
    have hr := h.receiver (t := t) (p := .wq a (.linkNext lw)) b rfl rfl le_rfl
    refine ⟨⟨h.rb.outside hout rfl, ?_, hr.1, hr.2, h.logged⟩, .quiet rfl rfl⟩
    exact h.wq.advance hin rfl fun hm => ⟨s.wakeup.links, hm.frame rfl rfl, rfl⟩
  | linkNext lw =>
    have hr := h.receiver (t := t) (p := .wq a (.linkBefore lw)) b rfl rfl le_rfl
    refine ⟨⟨h.rb.outside hout rfl, ?_, hr.1, hr.2, h.logged⟩, .quiet rfl rfl⟩
    refine h.wq.advance hin rfl fun ⟨L, hL, hlinks⟩ => ⟨L, hL.frame rfl rfl, ?_⟩
    change ({ s.wakeup.links with next := _ } : Links (Option ℕ)) = _
    rw [hlinks]
  | linkBefore lw =>
    have hr := h.receiver (t := t) (p := .wq a (.linkAfter lw)) b rfl rfl le_rfl
    refine ⟨⟨h.rb.outside hout rfl, ?_, hr.1, hr.2, h.logged⟩, .quiet rfl rfl⟩
    refine h.wq.advance hin rfl fun ⟨L, hL, hlinks⟩ => ⟨L, hL.frame rfl rfl, ?_⟩
    change ({ s.wakeup.links with next := _ } : Links (Option ℕ)) = _
    rw [hlinks]
    simp only [Function.update_self]
  | linkAfter lw =>
    have hr := h.receiver (t := t) (p := .wq a .unlock) b rfl rfl le_rfl
    have hsent : ((s.setPrev (s.wakeup.links.next (some lw)) (some lw)).log (.wake a)).sent =
        s.sent := by simp [State.sent, Op.sent]
    have hmid : WqAt cf.receiver (a, .linkAfter lw) (s.record.filterMap (Op.woken cf.receiver))
          s.wakeup →
        WqAt cf.receiver (a, .unlock)
          (s.record.filterMap (Op.woken cf.receiver) ++ [some cf.receiver])
          (s.setPrev (s.wakeup.links.next (some lw)) (some lw)).wakeup := by
      rintro ⟨L, hL, hlinks⟩
      have hadds : Wakeups.Adds (s.setPrev (s.wakeup.links.next (some lw)) (some lw)).wakeup
          cf.receiver lw L (s.record.filterMap (Op.woken cf.receiver)) := hL.frame rfl rfl
      refine hadds.linked ?_
      change ({ s.wakeup.links with prev := _ } : Links (Option ℕ)) = _
      rw [hlinks, Links.add, Function.update_self]
    refine ⟨⟨h.rb.outside hout rfl, ?_, hr.1, hr.2, ?_⟩, .wake a (by rw [hin]; rfl) rfl rfl⟩
    · have hw := h.wq.advance (p := .wq a .unlock) hin rfl hmid
      rwa [← woken_wake cf.receiver s.record a] at hw
    · exact hsent ▸ h.logged
  | unlock =>
    have hr := h.receiver (t := t) (p := .user) b rfl rfl le_rfl
    refine ⟨⟨h.rb.outside hout rfl, ?_, hr.1, hr.2, h.logged⟩, .quiet rfl rfl⟩
    exact h.wq.release hin rfl fun hm => hm

/-- The receiver's part, in a step of the receiver. -/
theorem receiver_self (h : Locked cf s b) (b' : RingBuffer Data) (hin : (s.pc t).inRcv.isSome)
    (hp : ∀ q, p.inRcv = some q → q.Noted b') :
    (∀ u, (Function.update s.pc t p u).inRcv.isSome → u = cf.remote) ∧
      ∀ u q, (Function.update s.pc t p u).inRcv = some q → q.Noted b' := by
  have hone : ∀ u, (Function.update s.pc t p u).inRcv.isSome → u = cf.remote := by
    intro u hu
    by_cases hut : u = t
    · rw [hut]
      exact h.remote t hin
    · rw [Function.update_of_ne hut] at hu
      exact h.remote u hu
  refine ⟨hone, fun u q' hu => ?_⟩
  obtain rfl : u = t := (hone u (by simp [hu])).trans (h.remote t hin).symm
  rw [Function.update_self] at hu
  exact hp q' hu

/-- The receiver advances its counter. -/
theorem pop (h : Locked cf s b) (hlt : b.head < b.tail) :
    (∃ n : ℕ, b.pop.Logged cf.size s.sent n) ∧
      SpinLock.Guards Pc.inRb (fun b m => m = b) (RbAt cf.size) s.rbOccupied s.pc s.buffer.pop
        b.pop := by
  obtain ⟨n, hl⟩ := h.logged
  have hn : n < s.sent.length := by
    rw [hl.tail, hl.head] at hlt
    exact_mod_cast hlt
  refine ⟨⟨n + 1, hl.pop hn⟩, h.rb.env (fun hm => congrArg RingBuffer.pop hm) ?_⟩
  rintro ⟨a, q⟩ hm
  cases q with
  | load | unlock => exact congrArg RingBuffer.pop hm
  | write tail => exact ⟨congrArg RingBuffer.pop hm.1, hm.2⟩
  | writeTail tail => exact ⟨hm.1, congrArg RingBuffer.pop hm.2⟩
  | writeSlot tail => exact ⟨hm.1, congrArg RingBuffer.pop hm.2⟩

theorem storeHead_pop (h : Locked cf s b) {head : ℤ} (hh : head = b.head) :
    (s.storeHead (wrap32 (head + 1))).buffer = s.buffer.pop := by
  rw [RingBuffer.pop, h.counters.2.1, hh]
  rfl

/-- A step of the receiver that leaves the buffer alone. -/
theorem rcv_quiet {q : RcvPc} {p : Pc} (h : Locked cf s b) (hpc : s.pc t = .rcv cur q)
    (hrb : p.inRb = none) (hwq : p.inWq = none) (hp : ∀ q, p.inRcv = some q → q.Noted b) :
    Locked cf (s.goto t p) b ∧ Effect cf s (s.goto t p) t b b := by
  have hself : (s.pc t).inRcv.isSome := by rw [hpc]; rfl
  have hrb' : (s.pc t).inRb = none := by rw [hpc]; rfl
  have hwq' : (s.pc t).inWq = none := by rw [hpc]; rfl
  have hr := h.receiver_self b hself hp
  exact ⟨⟨h.rb.outside hrb' hrb, h.wq.outside hwq' hwq, hr.1, hr.2, h.logged⟩, .quiet rfl rfl⟩

/-- The receiver advances the head, before or after it reads the slot. -/
theorem rcv_read {head : ℤ} (h : Locked cf s b) (hpc : s.pc t = .rcv cur (.read head))
    (hs : s.rcvStep t cf cur (.read head) = .ok s') :
    ∃ b', Locked cf s' b' ∧ Effect cf s s' t b b' := by
  have hself : (s.pc t).inRcv.isSome := by rw [hpc]; rfl
  have hrb : (s.pc t).inRb = none := by rw [hpc]; rfl
  have hwq : (s.pc t).inWq = none := by rw [hpc]; rfl
  have hnoted := h.noted_rcv hpc
  simp only [State.rcvStep] at hs
  cases hcode : cf.code.rcv with
  | slot =>
    rw [hcode] at hs
    obtain ⟨result, -, hs⟩ := bind_ok hs
    obtain rfl := Except.ok.inj hs
    refine ⟨b, h.rcv_quiet hpc rfl rfl ?_⟩
    rintro _ ⟨⟩
    exact hnoted
  | counter =>
    rw [hcode] at hs
    obtain rfl := Except.ok.inj hs
    have hr := h.receiver_self (p := .rcv cur (.readSlot head)) b.pop hself (by
      rintro _ ⟨⟩
      exact hnoted.1 ▸ h.head_nonneg)
    obtain ⟨hlog, hguards⟩ := h.pop hnoted.2
    rw [← h.storeHead_pop hnoted.1] at hguards
    exact ⟨b.pop, ⟨hguards.outside hrb rfl, h.wq.outside hwq rfl, hr.1, hr.2, hlog⟩,
      .advance hcode rfl rfl⟩

/-- The receiver advances the head with the message in hand. -/
theorem rcv_readHead {head : ℤ} {result : Data} (h : Locked cf s b)
    (hpc : s.pc t = .rcv cur (.readHead head result))
    (hs : s.rcvStep t cf cur (.readHead head result) = .ok s') :
    ∃ b', Locked cf s' b' ∧ Effect cf s s' t b b' := by
  have hself : (s.pc t).inRcv.isSome := by rw [hpc]; rfl
  have hrb : (s.pc t).inRb = none := by rw [hpc]; rfl
  have hwq : (s.pc t).inWq = none := by rw [hpc]; rfl
  have hnoted := h.noted_rcv hpc
  obtain rfl := Except.ok.inj hs
  have hr := h.receiver_self (p := .user) b.pop hself (by rintro _ ⟨⟩)
  obtain ⟨hlog, hguards⟩ := h.pop hnoted.2
  rw [← h.storeHead_pop hnoted.1] at hguards
  have hw := h.wq.outside (p := .user) hwq rfl
  rw [← woken_take cf.receiver s.record cur result] at hw
  rw [State.sent, ← sent_take s.record cur result] at hlog
  exact ⟨b.pop, ⟨hguards.outside hrb rfl, hw, hr.1, hr.2, hlog⟩,
    .take cur head result hpc rfl rfl⟩

/-- The receiver reads the slot behind the head that it has advanced. -/
theorem rcv_readSlot {head : ℤ} (h : Locked cf s b) (hpc : s.pc t = .rcv cur (.readSlot head))
    (hs : s.rcvStep t cf cur (.readSlot head) = .ok s') :
    ∃ b', Locked cf s' b' ∧ Effect cf s s' t b b' := by
  have hself : (s.pc t).inRcv.isSome := by rw [hpc]; rfl
  have hrb : (s.pc t).inRb = none := by rw [hpc]; rfl
  have hwq : (s.pc t).inWq = none := by rw [hpc]; rfl
  obtain ⟨result, -, hs⟩ := bind_ok hs
  obtain rfl := Except.ok.inj hs
  have hr := h.receiver_self (p := .user) b hself (by rintro _ ⟨⟩)
  have hw := h.wq.outside (p := .user) hwq rfl
  rw [← woken_take cf.receiver s.record cur result] at hw
  have hlog := h.logged
  rw [State.sent, ← sent_take s.record cur result] at hlog
  exact ⟨b, ⟨h.rb.outside hrb rfl, hw, hr.1, hr.2, hlog⟩, .late cur head result hpc rfl rfl⟩

/-- A step of the receiver. -/
theorem rcvStep {q : RcvPc} (h : Locked cf s b) (hpc : s.pc t = .rcv cur q)
    (hs : s.rcvStep t cf cur q = .ok s') : ∃ b', Locked cf s' b' ∧ Effect cf s s' t b b' := by
  have hnoted := h.noted_rcv hpc
  obtain ⟨n, hl⟩ := h.logged
  cases q with
  | tail =>
    obtain rfl := Except.ok.inj hs
    refine ⟨b, h.rcv_quiet hpc rfl rfl ?_⟩
    rintro _ ⟨⟩
    rw [h.counters.1]
    refine ⟨?_, le_rfl⟩
    rw [hl.head, hl.tail]
    exact_mod_cast hl.le
  | head tail =>
    simp only [State.rcvStep] at hs
    split_ifs at hs with hne
    · obtain rfl := Except.ok.inj hs
      refine ⟨b, h.rcv_quiet hpc rfl rfl ?_⟩
      rintro _ ⟨⟩
      refine lt_of_le_of_ne (hnoted.1.trans hnoted.2) fun he => hne ?_
      rw [h.counters.2.1, le_antisymm (he ▸ hnoted.2) hnoted.1]
      exact wrap32_sub_eq_zero_of_eq rfl
    · obtain rfl := Except.ok.inj hs
      exact ⟨b, h.rcv_quiet hpc rfl rfl (by rintro _ ⟨⟩)⟩
  | take =>
    obtain rfl := Except.ok.inj hs
    refine ⟨b, h.rcv_quiet hpc rfl rfl ?_⟩
    rintro _ ⟨⟩
    exact ⟨h.counters.2.1, hnoted⟩
  | read head => exact h.rcv_read hpc hs
  | readHead head result => exact h.rcv_readHead hpc hs
  | readSlot head => exact h.rcv_readSlot hpc hs

/-- A step of a thread that is outside of both sections and does not receive. -/
theorem goto {p : Pc} (h : Locked cf s b) (hrb : (s.pc t).inRb = none) (hwq : (s.pc t).inWq = none)
    (hp : p.inRb = none) (hp' : p.inWq = none)
    (hr : ∀ q, p.inRcv = some q → q = .tail ∧ t = cf.remote) : Locked cf (s.goto t p) b := by
  refine ⟨h.rb.outside hrb hp, h.wq.outside hwq hp', fun u hu => ?_, fun u q hu => ?_, h.logged⟩
  · by_cases hut : u = t
    · subst hut
      rw [State.goto_pc, Function.update_self] at hu
      obtain ⟨q, hq⟩ := Option.isSome_iff_exists.mp hu
      exact (hr q hq).2
    · rw [State.goto_pc, Function.update_of_ne hut] at hu
      exact h.remote u hu
  · by_cases hut : u = t
    · subst hut
      rw [State.goto_pc, Function.update_self] at hu
      rw [(hr q hu).1]
      trivial
    · rw [State.goto_pc, Function.update_of_ne hut] at hu
      exact h.noted u q hu

theorem step {l : Label} (h : Locked cf s b) (hs : Step cf s l s')
    (hlt : s.sent.length + 1 < 2147483648) :
    ∃ b', Locked cf s' b' ∧ Effect cf s s' l.kthd b b' := by
  unfold Step State.step at hs
  split at hs
  · rename_i a hpc _
    obtain rfl := Except.ok.inj hs
    exact ⟨b, h.goto (by rw [hpc]; rfl) (by rw [hpc]; rfl) rfl rfl (by rintro _ ⟨⟩), .quiet rfl rfl⟩
  · rename_i cur hpc _
    split_ifs at hs with ht
    obtain rfl := Except.ok.inj hs
    refine ⟨b, h.goto (by rw [hpc]; rfl) (by rw [hpc]; rfl) rfl rfl ?_, .quiet rfl rfl⟩
    rintro _ ⟨⟩
    exact ⟨rfl, ht⟩
  · rename_i a hpc _
    split at hs
    · rename_i w hw
      obtain rfl := Except.ok.inj hs
      have hr := h.receiver (t := l.kthd) (p := .rb a .load) b rfl rfl le_rfl
      refine ⟨b, ⟨?_, h.wq.outside (by rw [hpc]; rfl) rfl, hr.1, hr.2, h.logged⟩, .quiet rfl rfl⟩
      exact h.rb.acquire hw rfl fun hm => hm
    · obtain rfl := Except.ok.inj hs
      exact ⟨b, h, .quiet rfl rfl⟩
  · rename_i a p hpc _
    exact h.rbStep hpc hlt hs
  · rename_i a hpc _
    split at hs
    · rename_i w hw
      obtain rfl := Except.ok.inj hs
      have hr := h.receiver (t := l.kthd) (p := .wq a .wrap) b rfl rfl le_rfl
      refine ⟨b, ⟨h.rb.outside (by rw [hpc]; rfl) rfl, ?_, hr.1, hr.2, h.logged⟩, .quiet rfl rfl⟩
      exact h.wq.acquire hw rfl fun hm => hm
    · obtain rfl := Except.ok.inj hs
      exact ⟨b, h, .quiet rfl rfl⟩
  · rename_i a p hpc _
    obtain rfl := Except.ok.inj hs
    exact ⟨b, h.wqStep hpc⟩
  · rename_i cur p hpc _
    exact h.rcvStep hpc hs
  · cases hs

end Locked

/-- A channel that nobody has used and a wake-up queue that nobody has put anything in. -/
structure State.Boot (s : State) : Prop where
  tail : s.buffer.tail = 0
  head : s.buffer.head = 0
  rb : s.rbOccupied = 0
  wq : s.wqOccupied = 0
  wakeup : s.wakeup.links.Ring none []
  user : ∀ t, s.pc t = .user
  record : s.record = []

/-- The counters do not wrap: fewer than `2 ^ 31` messages are sent. -/
def Few (s : State) (_ : Label) : Prop := s.sent.length + 1 < 2147483648

instance (s : State) (l : Label) : Decidable (Few s l) := inferInstanceAs (Decidable (_ < _))

theorem State.Boot.locked (h : s.Boot) : Locked cf s s.buffer := by
  have hsent : s.sent = [] := by simp [State.sent, h.record]
  refine ⟨?_, ?_, fun t ht => ?_, fun t q ht => ?_, ⟨0, ?_⟩⟩
  · rw [h.rb]
    exact SpinLock.guards_free (fun t => by rw [h.user]; rfl) rfl
  · rw [h.wq, h.record]
    exact SpinLock.guards_free (fun t => by rw [h.user]; rfl) ⟨[], h.wakeup, by simp, rfl⟩
  · simp [h.user, Pc.inRcv] at ht
  · simp [h.user, Pc.inRcv] at ht
  · rw [hsent]
    exact .empty h.tail h.head

theorem Locked.run {s₀ : State} {tr : List (State × Label)} (h : Transition.Run (Step cf) s₀ tr s)
    (hb : s₀.Boot) (hlt : ∀ p ∈ tr, Few p.1 p.2) : ∃ b, Locked cf s b := by
  refine h.invariant_of (I := fun s => ∃ b, Locked cf s b) (C := Few) hlt ⟨_, hb.locked⟩ ?_
  rintro s l s' ⟨b, hl⟩ hfew hs
  obtain ⟨b', hl', -⟩ := hl.step hs hfew
  exact ⟨b', hl'⟩

/-- Each lock word says whether a kernel thread is in its section, and no second one is. While
nobody is in the first, the ring holds the last `size` of the values sent, and its counter of values
put is their number; while nobody is in the second, the wake-up queue has one wrap for each
wake-up. -/
structure Intact (cf : Conf) (s : State) : Prop where
  rbOne : ∀ t u, (s.pc t).inRb.isSome → (s.pc u).inRb.isSome → t = u
  wqOne : ∀ t u, (s.pc t).inWq.isSome → (s.pc u).inWq.isSome → t = u
  rbWord : s.rbOccupied = 0 ↔ ∀ t, (s.pc t).inRb = none
  wqWord : s.wqOccupied = 0 ↔ ∀ t, (s.pc t).inWq = none
  ring : s.rbOccupied = 0 → ∃ n : ℕ, s.buffer.Logged cf.size s.sent n
  queue : s.wqOccupied = 0 → ∃ l : List ℕ, s.wakeup.links.Ring none (l.map some) ∧
    l.map s.wakeup.thd = s.record.filterMap (Op.woken cf.receiver)

theorem locked_sections {s₀ : State} {tr : List (State × Label)}
    (h : Transition.Run (Step cf) s₀ tr s) (hb : s₀.Boot) (hlt : ∀ p ∈ tr, Few p.1 p.2) :
    Intact cf s := by
  obtain ⟨b, hl⟩ := Locked.run h hb hlt
  refine ⟨hl.rb.exclusive, hl.wq.exclusive, hl.rb.zero_iff, hl.wq.zero_iff, fun h0 => ?_,
    fun h0 => ?_⟩
  · rw [hl.rb.free h0]
    exact hl.logged
  · obtain ⟨l, hw⟩ := hl.wq.free h0
    exact ⟨l, hw.ring, hw.thds⟩

def fresh (size : ℤ) : State where
  buffer := { tail := 0, head := 0, data := fun _ => .word 0, cap := size }
  rbOccupied := 0
  wqOccupied := 0
  wakeup := { links := ⟨fun _ => none, fun _ => none⟩, thd := fun _ => none, lws := 0 }
  pc _ := .user
  record := []

theorem boot_fresh (size : ℤ) : (fresh size).Boot where
  tail := rfl
  head := rfl
  rb := rfl
  wq := rfl
  wakeup := ⟨by simp, by simp [Links.Linked, fresh]⟩
  user _ := rfl
  record := rfl

/-- The receiver is thread 7 of kernel thread 0. -/
def toSeven (size : ℤ) (code : Compiled) : Conf := { size, receiver := 7, remote := 0, code }

def ran (cf : Conf) (ls : List Label) : State :=
  Transition.exec (fun s l => s.step l.kthd cf l.inp) (fresh cf.size) ls

def ranTrace (cf : Conf) (ls : List Label) : List (State × Label) :=
  Transition.execTrace (fun s l => s.step l.kthd cf l.inp) (fresh cf.size) ls

theorem run_ran (cf : Conf) (ls : List Label) :
    Transition.Run (Step cf) (fresh cf.size) (ranTrace cf ls) (ran cf ls) :=
  Transition.run_exec _ _ _

/-- Kernel threads 1 and 2 send at the same time, both locks are contended. -/
def crossing : List Label :=
  [⟨1, .snd ⟨1, .word 10⟩⟩, ⟨2, .snd ⟨2, .word 20⟩⟩] ++ List.replicate 3 ⟨1, .none⟩ ++
    [⟨2, .none⟩] ++ List.replicate 3 ⟨1, .none⟩ ++ List.replicate 5 ⟨2, .none⟩ ++
    List.replicate 3 ⟨1, .none⟩ ++ [⟨2, .none⟩] ++ List.replicate 3 ⟨1, .none⟩ ++
    List.replicate 7 ⟨2, .none⟩

theorem locked_sections_crossing :
    Intact (toSeven 2 ⟨.slot, .slot⟩) (ran (toSeven 2 ⟨.slot, .slot⟩) crossing) :=
  locked_sections (run_ran _ crossing) (boot_fresh 2) (by decide +kernel)

end

end Lwt.Access
