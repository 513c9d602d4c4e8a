import Lwt.Locking
import Lwt.Leftovers

/-! What the receiver of a GLOBAL channel gets, for any number of kernel threads and any order of
their accesses. If the compiled code accesses each slot before it publishes the counter that goes
with it, and no value is written into a full ring, the accesses refine the atomic sections of
`lwt_sync_snd` and `lwt_sync_rcv`, and the values are received in the order of the locked sections.
Any other order of these accesses lets the receiver get values that were never sent to it. -/

namespace Lwt.Access

/-- The slot is accessed before its counter, by the senders and by the receiver. -/
def slotsFirst : Compiled := ⟨.slot, .slot⟩

def Pc.writing : Pc → Bool
  | .rb _ (.write _) => true
  | _ => false

/-- The step writes no value into a full ring. -/
def Roomy (cf : Conf) (s : State) (l : Label) : Prop :=
  (s.pc l.kthd).writing → s.buffer.tail - s.buffer.head < cf.size

instance (cf : Conf) (s : State) (l : Label) : Decidable (Roomy cf s l) :=
  inferInstanceAs (Decidable (_ → _))

/-- The ring stands for `b`, which holds what was sent and is not yet received. -/
structure Served (cf : Conf) (s : State) (b : RingBuffer Data) : Prop where
  locked : Locked cf s b
  head : b.head = s.rcvd.length
  order : s.rcvd <+: s.sent
  window : b.tail ≤ b.head + cf.size
  room : ∀ t a tail, s.pc t = .rb a (.writeTail tail) → b.tail < b.head + cf.size
  sender : ∀ t a tail, s.pc t ≠ .rb a (.writeSlot tail)
  receiver : ∀ t cur head, s.pc t ≠ .rcv cur (.readSlot head)
  front : ∀ t cur head result, s.pc t = .rcv cur (.readHead head result) →
    result = b.front cf.size

/-- The first of the two unsequenced accesses is made. -/
def Pc.pending : Pc → Bool
  | .rb _ (.writeTail _) | .rb _ (.writeSlot _) => true
  | .rcv _ (.readHead _ _) | .rcv _ (.readSlot _) => true
  | _ => false

/-- Where a step comes from that makes the first of the two unsequenced accesses. -/
inductive Came (cf : Conf) (s : State) (t : KthdId) : Pc → Prop
  | writeTail (a : Send) (tail : ℤ) (pc : s.pc t = .rb a (.write tail)) :
      Came cf s t (.rb a (.writeTail tail))
  | writeSlot (a : Send) (tail : ℤ) (code : cf.code.snd = .counter) :
      Came cf s t (.rb a (.writeSlot tail))
  | readHead (cur : ThreadId) (head : ℤ) (pc : s.pc t = .rcv cur (.read head)) :
      Came cf s t (.rcv cur (.readHead head (s.buffer.data (RingBuffer.slot cf.size head))))
  | readSlot (cur : ThreadId) (head : ℤ) (code : cf.code.rcv = .counter) :
      Came cf s t (.rcv cur (.readSlot head))

inductive Goes (cf : Conf) (s s' : State) (t : KthdId) : Prop
  | stay (pc : s'.pc = s.pc) (out : (s.pc t).pending = false)
  | plain (p : Pc) (pc : s'.pc = Function.update s.pc t p) (out : p.pending = false)
  | first (p : Pc) (pc : s'.pc = Function.update s.pc t p) (came : Came cf s t p)

section

variable {cf : Conf} {s s' : State} {b b' : RingBuffer Data} {t u : KthdId} {a : Send}
  {cur : ThreadId} {p : Pc} {l : Label}

theorem rbStep_goes {q : RbPc} (hpc : s.pc t = .rb a q) (hs : s.rbStep t cf a q = .ok s') :
    Goes cf s s' t := by
  cases q with
  | load | writeTail | unlock =>
    obtain rfl := Except.ok.inj hs
    exact .plain _ rfl rfl
  | write tail =>
    simp only [State.rbStep] at hs
    split at hs
    · obtain ⟨s₁, hst, hs⟩ := bind_ok hs
      obtain rfl := storeSlot_ok hst
      obtain rfl := Except.ok.inj hs
      exact .first _ rfl (.writeTail a tail hpc)
    · rename_i hcode
      obtain rfl := Except.ok.inj hs
      exact .first _ rfl (.writeSlot a tail hcode)
  | writeSlot tail =>
    obtain ⟨s₁, hst, hs⟩ := bind_ok hs
    obtain rfl := storeSlot_ok hst
    obtain rfl := Except.ok.inj hs
    exact .plain _ rfl rfl

theorem wqStep_goes {q : WqPc} : Goes cf s (s.wqStep t cf a q) t := by
  cases q <;> exact .plain _ rfl rfl

theorem rcvStep_goes {q : RcvPc} (hpc : s.pc t = .rcv cur q)
    (hs : s.rcvStep t cf cur q = .ok s') : Goes cf s s' t := by
  cases q with
  | tail | take | readHead =>
    obtain rfl := Except.ok.inj hs
    exact .plain _ rfl rfl
  | head tail =>
    simp only [State.rcvStep] at hs
    split_ifs at hs
    · obtain rfl := Except.ok.inj hs
      exact .plain _ rfl rfl
    · obtain rfl := Except.ok.inj hs
      exact .plain _ rfl rfl
  | read head =>
    simp only [State.rcvStep] at hs
    split at hs
    · obtain ⟨result, hld, hs⟩ := bind_ok hs
      obtain rfl := loadSlot_ok hld
      obtain rfl := Except.ok.inj hs
      exact .first _ rfl (.readHead cur head hpc)
    · rename_i hcode
      obtain rfl := Except.ok.inj hs
      exact .first _ rfl (.readSlot cur head hcode)
  | readSlot head =>
    obtain ⟨result, -, hs⟩ := bind_ok hs
    obtain rfl := Except.ok.inj hs
    exact .plain _ rfl rfl

theorem step_goes (hs : Step cf s l s') : Goes cf s s' l.kthd := by
  unfold Step State.step at hs
  split at hs
  · obtain rfl := Except.ok.inj hs
    exact .plain _ rfl rfl
  · split_ifs at hs
    obtain rfl := Except.ok.inj hs
    exact .plain _ rfl rfl
  · rename_i hpc _
    split at hs
    · obtain rfl := Except.ok.inj hs
      exact .plain _ rfl rfl
    · obtain rfl := Except.ok.inj hs
      exact .stay rfl (by rw [hpc]; rfl)
  · rename_i hpc _
    exact rbStep_goes hpc hs
  · rename_i hpc _
    split at hs
    · obtain rfl := Except.ok.inj hs
      exact .plain _ rfl rfl
    · obtain rfl := Except.ok.inj hs
      exact .stay rfl (by rw [hpc]; rfl)
  · obtain rfl := Except.ok.inj hs
    exact wqStep_goes
  · rename_i hpc _
    exact rcvStep_goes hpc hs
  · cases hs

theorem Goes.pc_of_ne (h : Goes cf s s' t) (hu : u ≠ t) : s'.pc u = s.pc u := by
  cases h with
  | stay hpc => rw [hpc]
  | plain p hpc | first p hpc => rw [hpc, Function.update_of_ne hu]

theorem Goes.came (h : Goes cf s s' t) (hp : (s'.pc t).pending) : Came cf s t (s'.pc t) := by
  cases h with
  | stay hpc hout =>
    rw [hpc, hout] at hp
    cases hp
  | plain p hpc hout =>
    rw [hpc, Function.update_self, hout] at hp
    cases hp
  | first p hpc hcame =>
    rw [hpc, Function.update_self]
    exact hcame

namespace Served

theorem bounds (h : Served cf s b) :
    0 ≤ b.head ∧ b.head ≤ b.tail ∧ b.tail = s.sent.length ∧ b.tail < 2147483648 := by
  obtain ⟨n, hl⟩ := h.locked.logged
  have hle := hl.le
  have hlt := hl.bound
  rw [hl.head, hl.tail]
  omega

theorem logged (h : Served cf s b) : b.Logged cf.size s.sent s.rcvd.length := by
  obtain ⟨n, hl⟩ := h.locked.logged
  have hn : n = s.rcvd.length := by exact_mod_cast hl.head.symm.trans h.head
  exact hn ▸ hl

/-- The receiver finds the oldest value in its slot, also while a sender is in its section. -/
theorem read (h : Served cf s b) (hne : b.head < b.tail) :
    s.buffer.data (RingBuffer.slot cf.size b.head) = b.front cf.size := by
  by_cases h0 : s.rbOccupied = 0
  · rw [h.locked.rb.free h0, RingBuffer.front]
  · obtain ⟨t, ht⟩ : ∃ t, (s.pc t).inRb ≠ none := by
      by_contra hall
      push Not at hall
      exact h0 (h.locked.rb.zero_iff.mpr hall)
    obtain ⟨⟨a, p⟩, hx⟩ := Option.ne_none_iff_exists'.mp ht
    have hmid := h.locked.rb.mid t _ hx
    have hpc : s.pc t = .rb a p := by
      cases hp : s.pc t with
      | rb a' p' =>
        rw [hp] at hx
        cases hx
        rfl
      | _ =>
        rw [hp] at hx
        cases hx
    cases p with
    | load | unlock => rw [show s.buffer = b from hmid, RingBuffer.front]
    | write tail => rw [show s.buffer = b from hmid.1, RingBuffer.front]
    | writeTail tail =>
      rw [hmid.2, hmid.1, RingBuffer.front]
      exact Function.update_of_ne
        (RingBuffer.slot_ne h.bounds.1 hne (h.room t a tail hpc)) ..
    | writeSlot tail => exact absurd hpc (h.sender t a tail)

/-- What becomes of the ring. -/
theorem ring (h : Served cf s b) (hcode : cf.code = slotsFirst) (heff : Effect cf s s' t b b') :
    b' = b ∨ (∃ a tail, s.pc t = .rb a (.writeTail tail) ∧ b' = b.push cf.size a.data) ∨
      ∃ cur head result, s.pc t = .rcv cur (.readHead head result) ∧ b' = b.pop := by
  cases heff with
  | quiet hb | wake a _ hb => exact .inl hb
  | put a tail hpc hb =>
    refine .inr (.inl ⟨a, tail, hpc.resolve_right ?_, hb⟩)
    simp [hcode, slotsFirst]
  | take cur head result hpc hb => exact .inr (.inr ⟨cur, head, result, hpc, hb⟩)
  | advance hc => simp [hcode, slotsFirst] at hc
  | late cur head result hpc => exact absurd hpc (h.receiver t cur head)

theorem push_tail (h : Served cf s b) (hfew : Few s l) (a : Send) :
    (b.push cf.size a.data).tail = b.tail + 1 := by
  have hb := h.bounds
  have hlt : s.sent.length + 1 < 2147483648 := hfew
  rw [RingBuffer.push_tail, wrap32_of_bounds (by omega) (by omega)]

theorem pop_head (h : Served cf s b) (hlt : b.head < b.tail) : b.pop.head = b.head + 1 := by
  have hb := h.bounds
  rw [RingBuffer.pop_head, wrap32_of_bounds (by omega) (by omega)]

/-- The values received stay in the order of those sent, and the ring within its bounds. -/
theorem values (h : Served cf s b) (hcode : cf.code = slotsFirst) (hfew : Few s l)
    (heff : Effect cf s s' t b b') :
    b'.head = s'.rcvd.length ∧ s'.rcvd <+: s'.sent ∧ b'.tail ≤ b'.head + cf.size := by
  cases heff with
  | quiet hb hrec =>
    rw [State.sent, State.rcvd, hrec, hb]
    exact ⟨h.head, h.order, h.window⟩
  | wake a _ hb hrec =>
    have hs : s'.sent = s.sent := by simp [State.sent, hrec, Op.sent]
    have hr : s'.rcvd = s.rcvd := by simp [State.rcvd, hrec, Op.rcvd]
    rw [hs, hr, hb]
    exact ⟨h.head, h.order, h.window⟩
  | put a tail hpc hb hrec =>
    have hs : s'.sent = s.sent ++ [a.data] := by simp [State.sent, hrec, Op.sent]
    have hr : s'.rcvd = s.rcvd := by simp [State.rcvd, hrec, Op.rcvd]
    have hpc : s.pc t = .rb a (.writeTail tail) :=
      hpc.resolve_right (by simp [hcode, slotsFirst])
    have hroom := h.room t a tail hpc
    rw [hs, hr, hb, h.push_tail hfew, RingBuffer.push_head]
    exact ⟨h.head, h.order.trans (List.prefix_append _ _), by omega⟩
  | take cur head result hpc hb hrec =>
    have hs : s'.sent = s.sent := by simp [State.sent, hrec, Op.sent]
    have hr : s'.rcvd = s.rcvd ++ [result] := by simp [State.rcvd, hrec, Op.rcvd]
    have hnoted : head = b.head ∧ b.head < b.tail := h.locked.noted_rcv hpc
    have hlog := h.logged
    have hlt : s.rcvd.length < s.sent.length := by
      have := h.bounds
      have := h.head
      omega
    have hwin : (s.sent.length : ℤ) ≤ s.rcvd.length + cf.size := by
      rw [← hlog.tail, ← hlog.head]
      exact h.window
    have hget := hlog.front hlt hwin
    rw [hs, hr, hb, h.pop_head hnoted.2]
    refine ⟨?_, ?_, ?_⟩
    · rw [h.head, List.length_append]
      rfl
    · rw [h.front t cur head result hpc]
      obtain ⟨rest, hrest⟩ := h.order
      rw [← hrest, List.getElem?_append_right le_rfl, Nat.sub_self] at hget
      cases rest with
      | nil => cases hget
      | cons x rest =>
        obtain rfl : x = b.front cf.size := Option.some.inj hget
        exact ⟨rest, by rw [← hrest, List.append_assoc, List.singleton_append]⟩
    · have := h.window
      rw [RingBuffer.pop_tail]
      omega
  | advance hc => simp [hcode, slotsFirst] at hc
  | late cur head result hpc => exact absurd hpc (h.receiver t cur head)

/-- A sender that has not made the put of this step still has room. -/
theorem room_of_ne (h : Served cf s b) (hcode : cf.code = slotsFirst)
    (heff : Effect cf s s' t b b') {q : RbPc} (hu : s.pc u = .rb a q)
    (hne : ∀ tail, u = t → q ≠ .writeTail tail) (hroom : b.tail < b.head + cf.size) :
    b'.tail < b'.head + cf.size := by
  rcases h.ring hcode heff with rfl | ⟨a', tail, hpc, -⟩ | ⟨cur, head, result, hpc, rfl⟩
  · exact hroom
  · obtain rfl : u = t :=
      h.locked.rb.exclusive u t (by rw [hu]; rfl) (by rw [hpc]; rfl)
    obtain ⟨-, rfl⟩ : a = a' ∧ q = .writeTail tail := by simpa [hpc] using hu.symm
    exact absurd rfl (hne tail rfl)
  · have hnoted : head = b.head ∧ b.head < b.tail := h.locked.noted_rcv hpc
    rw [h.pop_head hnoted.2, RingBuffer.pop_tail]
    omega

/-- The value that the receiver has read stays the oldest one. -/
theorem front_of_ne (h : Served cf s b) (hcode : cf.code = slotsFirst)
    (heff : Effect cf s s' t b b') {q : RcvPc} (hu : s.pc u = .rcv cur q)
    (hne : ∀ head result, u = t → q ≠ .readHead head result) (hlt : b.head < b.tail) :
    b'.front cf.size = b.front cf.size := by
  rcases h.ring hcode heff with rfl | ⟨a', tail, hpc, rfl⟩ | ⟨cur', head, result, hpc, -⟩
  · rfl
  · exact RingBuffer.front_push h.bounds.1 hlt (h.room t a' tail hpc)
  · obtain rfl : u = t :=
      (h.locked.remote u (by rw [hu]; rfl)).trans (h.locked.remote t (by rw [hpc]; rfl)).symm
    obtain ⟨-, rfl⟩ : cur = cur' ∧ q = .readHead head result := by simpa [hpc] using hu.symm
    exact absurd rfl (hne head result rfl)

theorem step (h : Served cf s b) (hs : Step cf s l s') (hcode : cf.code = slotsFirst)
    (hfew : Few s l) (hroom : Roomy cf s l) :
    ∃ b', Served cf s' b' ∧ Effect cf s s' l.kthd b b' := by
  obtain ⟨b', hl, heff⟩ := h.locked.step hs hfew
  have hgoes := step_goes hs
  obtain ⟨hhead, horder, hwindow⟩ := h.values hcode hfew heff
  refine ⟨b', ⟨hl, hhead, horder, hwindow, ?_, ?_, ?_, ?_⟩, heff⟩
  · intro u a tail hu
    by_cases hut : u = l.kthd
    · subst hut
      have hcame := hgoes.came (by rw [hu]; rfl)
      rw [hu] at hcame
      cases hcame with
      | writeTail _ _ hpc =>
        refine h.room_of_ne hcode heff hpc (by simp) ?_
        have := hroom (by rw [hpc]; rfl)
        have := h.locked.counters
        omega
    · have hpc := (hgoes.pc_of_ne hut).symm.trans hu
      exact h.room_of_ne hcode heff hpc (fun _ he => absurd he hut) (h.room u a tail hpc)
  · intro u a tail hu
    by_cases hut : u = l.kthd
    · subst hut
      have hcame := hgoes.came (by rw [hu]; rfl)
      rw [hu] at hcame
      cases hcame with
      | writeSlot _ _ hc => simp [hcode, slotsFirst] at hc
    · exact h.sender u a tail ((hgoes.pc_of_ne hut).symm.trans hu)
  · intro u cur head hu
    by_cases hut : u = l.kthd
    · subst hut
      have hcame := hgoes.came (by rw [hu]; rfl)
      rw [hu] at hcame
      cases hcame with
      | readSlot _ _ hc => simp [hcode, slotsFirst] at hc
    · exact h.receiver u cur head ((hgoes.pc_of_ne hut).symm.trans hu)
  · intro u cur head result hu
    by_cases hut : u = l.kthd
    · subst hut
      have hcame := hgoes.came (by rw [hu]; rfl)
      rw [hu] at hcame
      cases hcame with
      | readHead _ _ hpc =>
        have hnoted : head = b.head ∧ b.head < b.tail := h.locked.noted_rcv hpc
        rw [h.front_of_ne hcode heff hpc (by simp) hnoted.2, hnoted.1]
        exact h.read hnoted.2
    · have hpc := (hgoes.pc_of_ne hut).symm.trans hu
      have hnoted : head = b.head ∧ b.head < b.tail := h.locked.noted_rcv hpc
      rw [h.front_of_ne hcode heff hpc (fun _ _ he => absurd he hut) hnoted.2]
      exact h.front u cur head result hpc

end Served

theorem State.Boot.served (h : s.Boot) (hsize : 1 ≤ cf.size) : Served cf s s.buffer := by
  have hsent : s.sent = [] := by simp [State.sent, h.record]
  have hrcvd : s.rcvd = [] := by simp [State.rcvd, h.record]
  refine ⟨h.locked, ?_, ?_, ?_, fun t a tail hpc => ?_, fun t a tail hpc => ?_,
    fun t cur head hpc => ?_, fun t cur head result hpc => ?_⟩
  · rw [h.head, hrcvd]
    rfl
  · rw [hrcvd]
    exact List.nil_prefix
  · rw [h.tail, h.head]
    omega
  · simp [h.user] at hpc
  · simp [h.user] at hpc
  · simp [h.user] at hpc
  · simp [h.user] at hpc

/-- The sections of the model in which `lwt_snd` and `lwt_rcv` on a GLOBAL channel are atomic. -/
def Atomic (cf : Conf) (c : ChanId) (σ : Lwt.State) (o : Op) (τ : Lwt.State) : Prop :=
  match o with
  | .put a => σ.lwtSnd a.cur c a.data = .ok (τ, .goto [.syncSndWakeup c cf.remote])
  | .wake a => σ.lwtSyncSndWakeup a.cur c cf.remote = .ok (τ, .ret .null)
  | .take cur result => σ.lwtSyncRcvLoop cur c = .ok (τ, .ret result)

/-- Channel `c` is the one of `cf`, with a buffer for its slots and both locks free. -/
structure Site (cf : Conf) (c : ChanId) (σ : Lwt.State) : Prop where
  live : σ.Live c
  type : (σ.chans c).type = .global
  size : (σ.chans c).size = cf.size
  slots : 1 ≤ cf.size ∧ cf.size ≤ (σ.chans c).buffer.cap
  receiver : (σ.chans c).receiver = some cf.receiver
  thread : cf.receiver < σ.nthreads
  owner : (σ.threads cf.receiver).ownerKthd = cf.remote
  rb : (σ.chans c).rbOccupied = 0
  wq : (σ.kthds cf.remote).wqOccupied = 0

section

variable {c : ChanId} {σ τ : Lwt.State} {d : Data}

theorem Site.fits (h : Site cf c σ) {i : ℤ} (h0 : 0 ≤ i) :
    (σ.chans c).size ≠ 0 ∧ (σ.chans c).buffer.Fits (σ.chans c).size i := by
  obtain ⟨hpos, hcap⟩ := h.slots
  rw [h.size, RingBuffer.Fits, RingBuffer.slot, Int.tmod_eq_emod_of_nonneg h0]
  have hlt := Int.emod_lt_of_pos i (show 0 < cf.size by omega)
  have hge := Int.emod_nonneg i (show cf.size ≠ 0 by omega)
  exact ⟨by omega, hge, by omega⟩

/-- A step that touches nothing of the channel but its ring. -/
theorem Site.step (h : Site cf c σ) (bf : RingBuffer Data)
    (hc : τ.chans c = { σ.chans c with buffer := bf }) (hcap : bf.cap = (σ.chans c).buffer.cap)
    (hn : τ.nchans = σ.nchans) (hk : τ.kthds = σ.kthds) (ht : τ.threads = σ.threads)
    (hnt : τ.nthreads = σ.nthreads) : Site cf c τ where
  live := by rw [Lwt.State.Live, hn, hc]; exact h.live
  type := by rw [hc]; exact h.type
  size := by rw [hc]; exact h.size
  slots := by rw [hc, hcap]; exact h.slots
  receiver := by rw [hc]; exact h.receiver
  thread := by rw [hnt]; exact h.thread
  owner := by rw [ht]; exact h.owner
  rb := by rw [hc]; exact h.rb
  wq := by rw [hk]; exact h.wq

theorem Site.put (h : Site cf c σ) (ht : 0 ≤ (σ.chans c).buffer.tail) (a : Send) :
    ∃ τ, Atomic cf c σ (.put a) τ ∧ Site cf c τ ∧ τ.wakeupQueues = σ.wakeupQueues ∧
      (τ.chans c).buffer = (σ.chans c).buffer.push cf.size a.data := by
  obtain ⟨h0, hfits⟩ := h.fits ht
  have hchans : ((σ.modChan c fun ch => { ch with buffer := ch.buffer.push ch.size a.data }).emit
      (.snd a.cur c a.data)).chans c =
        { σ.chans c with buffer := (σ.chans c).buffer.push (σ.chans c).size a.data } :=
    Function.update_self ..
  refine ⟨_, ?_, h.step _ hchans rfl rfl rfl rfl rfl, rfl, ?_⟩
  · rw [Atomic, Lwt.State.lwtSnd_global h.live h.receiver h.thread h.type, if_neg (by simp [h.rb]),
      State.ringWrite, if_neg h0, if_pos hfits, h.owner]
    rfl
  · rw [hchans, h.size]

theorem Site.wake (h : Site cf c σ) (a : Send) :
    ∃ τ, Atomic cf c σ (.wake a) τ ∧ Site cf c τ ∧ τ.chans = σ.chans ∧
      τ.wakeupQueues cf.remote = σ.wakeupQueues cf.remote ++ [some cf.receiver] := by
  let queue := σ.wakeupQueues cf.remote ++ [some cf.receiver]
  refine ⟨{ σ with wakeupQueues := Function.update σ.wakeupQueues cf.remote queue }.emit
    (.sndDone a.cur c), ?_, h.step (σ.chans c).buffer rfl rfl rfl rfl rfl rfl, rfl,
    Function.update_self ..⟩
  rw [Atomic, State.lwtSyncSndWakeup, if_neg (by simp [h.wq]), Lwt.State.chan?_eq h.live]
  simp only [bind, Except.bind, h.receiver]
  rfl

theorem Site.take (h : Site cf c σ) (hh : 0 ≤ (σ.chans c).buffer.head)
    (hne : (σ.chans c).buffer.count ≠ 0) (cur : ThreadId) :
    ∃ τ, Atomic cf c σ (.take cur ((σ.chans c).buffer.front cf.size)) τ ∧ Site cf c τ ∧
      τ.wakeupQueues = σ.wakeupQueues ∧ (τ.chans c).buffer = (σ.chans c).buffer.pop := by
  obtain ⟨h0, hfits⟩ := h.fits hh
  have hchans : ((σ.modChan c fun ch => { ch with buffer := ch.buffer.pop }).emit
      (.rcv cur c ((σ.chans c).buffer.front (σ.chans c).size))).chans c =
        { σ.chans c with buffer := (σ.chans c).buffer.pop } :=
    Function.update_self ..
  refine ⟨_, ?_, h.step _ hchans rfl rfl rfl rfl rfl, rfl, ?_⟩
  · rw [Atomic, State.lwtSyncRcvLoop, Lwt.State.chan?_eq h.live, ← h.size]
    simp only [bind, Except.bind, if_pos hne, State.ringRead, if_neg h0, if_pos hfits]
  · rw [hchans]

/-- The accesses so far stand for the sections that led to `σ`. -/
structure Simulates (cf : Conf) (c : ChanId) (s : State) (σ : Lwt.State) : Prop where
  served : Served cf s (σ.chans c).buffer
  site : Site cf c σ
  woken : σ.wakeupQueues cf.remote = s.record.filterMap (Op.woken cf.receiver)

theorem Simulates.step (h : Simulates cf c s σ) (hs : Step cf s l s')
    (hcode : cf.code = slotsFirst) (hfew : Few s l) (hroom : Roomy cf s l) :
    (Simulates cf c s' σ ∧ s'.record = s.record) ∨
      ∃ o τ, Atomic cf c σ o τ ∧ Simulates cf c s' τ ∧ s'.record = s.record ++ [o] := by
  obtain ⟨b', hserved, heff⟩ := h.served.step hs hcode hfew hroom
  have hb := h.served.bounds
  cases heff with
  | quiet ring record =>
    subst ring
    exact .inl ⟨⟨hserved, h.site, record ▸ h.woken⟩, record⟩
  | put a tail pc ring record =>
    subst ring
    obtain ⟨τ, hat, hsite, hq, hbuf⟩ := h.site.put (hb.1.trans hb.2.1) a
    refine .inr ⟨.put a, τ, hat, ⟨hbuf ▸ hserved, hsite, ?_⟩, record⟩
    rw [hq, record, woken_put, h.woken]
  | wake a pc ring record =>
    subst ring
    obtain ⟨τ, hat, hsite, hc, hq⟩ := h.site.wake a
    refine .inr ⟨.wake a, τ, hat, ⟨hc ▸ hserved, hsite, ?_⟩, record⟩
    rw [hq, record, woken_wake, h.woken]
  | take cur head result pc ring record =>
    subst ring
    have hnoted : head = _ ∧ _ := h.served.locked.noted_rcv pc
    have hne : (σ.chans c).buffer.count ≠ 0 := by
      rw [RingBuffer.count, wrap32_of_bounds (by omega) (by omega)]
      omega
    obtain ⟨τ, hat, hsite, hq, hbuf⟩ := h.site.take hb.1 hne cur
    rw [← h.served.front _ cur head result pc] at hat
    refine .inr ⟨.take cur result, τ, hat, ⟨hbuf ▸ hserved, hsite, ?_⟩, record⟩
    rw [hq, record, woken_take, h.woken]
  | advance code => simp [hcode, slotsFirst] at code
  | late cur head result pc => exact absurd pc (h.served.receiver _ cur head)

/-- The accesses refine the atomic sections: what takes effect in a run does so in a run of the
sections, with the same results, and leaves the same memory when no sender is in a section. -/
theorem accesses_refine {s₀ : State} {σ₀ : Lwt.State} {tr : List (State × Label)}
    (h : Transition.Run (Step cf) s₀ tr s) (hboot : s₀.Boot) (hsite : Site cf c σ₀)
    (hbuf : (σ₀.chans c).buffer = s₀.buffer) (hq : σ₀.wakeupQueues cf.remote = [])
    (hcode : cf.code = slotsFirst) (hfew : ∀ p ∈ tr, Few p.1 p.2)
    (hroom : ∀ p ∈ tr, Roomy cf p.1 p.2) :
    ∃ ops σ, Transition.Run (Atomic cf c) σ₀ ops σ ∧ ops.map Prod.snd = s.record ∧
      (s.rbOccupied = 0 → s.buffer = (σ.chans c).buffer) ∧
      (s.wqOccupied = 0 → ∃ l : List ℕ, s.wakeup.links.Ring none (l.map some) ∧
        l.map s.wakeup.thd = σ.wakeupQueues cf.remote) := by
  have hsim : ∃ ops σ, Transition.Run (Atomic cf c) σ₀ ops σ ∧ ops.map Prod.snd = s.record ∧
      Simulates cf c s σ := by
    refine h.invariant_of (C := fun s l => Few s l ∧ Roomy cf s l)
      (I := fun s => ∃ ops σ, Transition.Run (Atomic cf c) σ₀ ops σ ∧
        ops.map Prod.snd = s.record ∧ Simulates cf c s σ)
      (fun p hp => ⟨hfew p hp, hroom p hp⟩) ?_ ?_
    · refine ⟨[], σ₀, .nil, hboot.record.symm, ?_, hsite, ?_⟩
      · rw [hbuf]
        exact hboot.served hsite.slots.1
      · rw [hq, hboot.record]
        rfl
    · rintro s l s' ⟨ops, σ, hrun, hrec, hsim⟩ ⟨hfew, hroom⟩ hs
      rcases hsim.step hs hcode hfew hroom with ⟨hsim', hrec'⟩ | ⟨o, τ, hat, hsim', hrec'⟩
      · exact ⟨ops, σ, hrun, hrec.trans hrec'.symm, hsim'⟩
      · refine ⟨_, τ, hrun.snoc hat, ?_, hsim'⟩
        rw [List.map_append, hrec, hrec']
        rfl
  obtain ⟨ops, σ, hrun, hrec, hsim⟩ := hsim
  refine ⟨ops, σ, hrun, hrec, hsim.served.locked.rb.free, fun h0 => ?_⟩
  obtain ⟨l, hl⟩ := hsim.served.locked.wq.free h0
  exact ⟨l, hl.ring, hl.thds.trans hsim.woken.symm⟩

def made : Lwt.State := booted.after [.call (.lwtChan 2 chanMem), .call (.setChanType 1 .global)]

def madeConf : Conf := { size := 2, receiver := 0, remote := 1, code := slotsFirst }

def madeAccess : State := { fresh 2 with buffer := (made.chans 1).buffer }

/-- Kernel threads 2 and 3 send at the same time, while the receiver looks for values. -/
def whileReceiving : List Label :=
  [⟨2, .snd ⟨1, .word 10⟩⟩, ⟨3, .snd ⟨2, .word 20⟩⟩, ⟨1, .rcv 0⟩] ++
    List.replicate 4 ⟨2, .none⟩ ++ [⟨1, .none⟩, ⟨3, .none⟩, ⟨2, .none⟩] ++
    List.replicate 3 ⟨3, .none⟩ ++ List.replicate 4 ⟨1, .none⟩ ++ List.replicate 7 ⟨2, .none⟩

def receivingTrace : List (State × Label) :=
  Transition.execTrace (fun s l => s.step l.kthd madeConf l.inp) madeAccess whileReceiving

def received : State :=
  Transition.exec (fun s l => s.step l.kthd madeConf l.inp) madeAccess whileReceiving

theorem accesses_refine_received :
    ∃ ops σ, Transition.Run (Atomic madeConf 1) made ops σ ∧ ops.map Prod.snd = received.record ∧
      (received.rbOccupied = 0 → received.buffer = (σ.chans 1).buffer) ∧
      (received.wqOccupied = 0 → ∃ l : List ℕ, received.wakeup.links.Ring none (l.map some) ∧
        l.map received.wakeup.thd = σ.wakeupQueues 1) := by
  have h : Transition.Run (Step madeConf) madeAccess receivingTrace received :=
    Transition.run_exec _ _ _
  refine accesses_refine h ?_ ?_ rfl (by decide +kernel) rfl (by decide +kernel)
    (by decide +kernel)
  · exact { boot_fresh 2 with tail := by decide +kernel, head := by decide +kernel }
  · exact ⟨by decide +kernel, by decide +kernel, by decide +kernel, by decide +kernel,
      by decide +kernel, by decide +kernel, by decide +kernel, by decide +kernel,
      by decide +kernel⟩

end

end

/-- A sender that has advanced the counter and not written the slot, and the receiver. -/
def early : List Label :=
  [⟨1, .snd ⟨1, .word 10⟩⟩] ++ List.replicate 3 ⟨1, .none⟩ ++ [⟨0, .rcv 7⟩] ++
    List.replicate 5 ⟨0, .none⟩

/-- The receiver has advanced the counter of a ring of one slot and not read it, and a second sender
comes. -/
def late : List Label :=
  [⟨1, .snd ⟨1, .word 10⟩⟩] ++ List.replicate 5 ⟨1, .none⟩ ++ [⟨0, .rcv 7⟩] ++
    List.replicate 4 ⟨0, .none⟩ ++ [⟨2, .snd ⟨2, .word 20⟩⟩] ++ List.replicate 4 ⟨2, .none⟩ ++
    [⟨0, .none⟩]

/-- The value received is not one that was sent before. -/
theorem early_received (rcv : First) :
    (∀ p ∈ ranTrace (toSeven 1 ⟨.counter, rcv⟩) early,
      Few p.1 p.2 ∧ Roomy (toSeven 1 ⟨.counter, rcv⟩) p.1 p.2) ∧
      ¬ (ran (toSeven 1 ⟨.counter, rcv⟩) early).rcvd <+:
        (ran (toSeven 1 ⟨.counter, rcv⟩) early).sent := by
  cases rcv <;> decide +kernel

/-- The value received is the one that was sent second. -/
theorem late_received :
    (∀ p ∈ ranTrace (toSeven 1 ⟨.slot, .counter⟩) late,
      Few p.1 p.2 ∧ Roomy (toSeven 1 ⟨.slot, .counter⟩) p.1 p.2) ∧
      ¬ (ran (toSeven 1 ⟨.slot, .counter⟩) late).rcvd <+:
        (ran (toSeven 1 ⟨.slot, .counter⟩) late).sent := by
  decide +kernel

/-- Values are received in the order in which they were sent, in every run that writes none into a
full ring, exactly if the slots are accessed before the counters. -/
theorem slots_first_iff (code : Compiled) :
    (∀ cf s₀ tr s, cf.code = code → 1 ≤ cf.size → Transition.Run (Step cf) s₀ tr s → s₀.Boot →
      (∀ p ∈ tr, Few p.1 p.2) → (∀ p ∈ tr, Roomy cf p.1 p.2) → s.rcvd <+: s.sent) ↔
      code = slotsFirst := by
  constructor
  · intro hall
    -- each other order has a run in which the prefix fails
    have key : ∀ ls, (∀ p ∈ ranTrace (toSeven 1 code) ls,
        Few p.1 p.2 ∧ Roomy (toSeven 1 code) p.1 p.2) →
        (ran (toSeven 1 code) ls).rcvd <+: (ran (toSeven 1 code) ls).sent := by
      intro ls hls
      exact hall _ _ _ _ rfl le_rfl (run_ran (toSeven 1 code) ls) (boot_fresh 1)
        (fun p hp => (hls p hp).1) fun p hp => (hls p hp).2
    obtain ⟨snd, rcv⟩ := code
    cases snd with
    | counter => exact absurd (key early (early_received rcv).1) (early_received rcv).2
    | slot =>
      cases rcv with
      | slot => rfl
      | counter => exact absurd (key late late_received.1) late_received.2
  · rintro rfl cf s₀ tr s hcode hsize h hboot hfew hroom
    have hserved : ∃ b, Served cf s b := by
      refine h.invariant_of (C := fun s l => Few s l ∧ Roomy cf s l)
        (I := fun s => ∃ b, Served cf s b) (fun p hp => ⟨hfew p hp, hroom p hp⟩)
        ⟨_, hboot.served hsize⟩ ?_
      rintro s l s' ⟨b, hb⟩ ⟨hfew, hroom⟩ hs
      obtain ⟨b', hb', -⟩ := hb.step hs hcode hfew hroom
      exact ⟨b', hb'⟩
    obtain ⟨b, hb⟩ := hserved
    exact hb.order

end Lwt.Access
