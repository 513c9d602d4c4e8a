import Lwt.Types
import Lwt.Lib.Links
import Lwt.Lib.SpinLock
import Lwt.Lib.Transition
import Mathlib.Tactic.Simps.Basic

/-! `lwt_sync_snd` and `lwt_sync_rcv` on one GLOBAL channel, access by access. Kernel threads are
interleaved at every access to the memory they share: the lock words, the counters and the slots of
the ring, the links of the wake-up queue. The source leaves the increment in
`data_buffer[tail++ % size] = data` unsequenced with the access to the slot, and so is the one in
`data_buffer[head++ % size]`: which of the two comes first is up to the compiler. -/

namespace Lwt.Access

/-- Which of two unsequenced accesses the compiler puts first. -/
inductive First where
  | slot
  | counter
  deriving DecidableEq

/-- The order of the accesses in the compiled code of `lwt_sync_snd` and of `lwt_sync_rcv`. -/
structure Compiled where
  snd : First
  rcv : First
  deriving DecidableEq

/-- What does not change: `chan->size`, `chan->receiver`, the kernel thread that owns the receiver,
and the order of the accesses. -/
structure Conf where
  size : ℤ
  receiver : ThreadId
  remote : KthdId
  code : Compiled

/-- A call of `lwt_sync_snd` by thread `cur`. -/
structure Send where
  cur : ThreadId
  data : Data
  deriving DecidableEq

inductive RbPc where
  | load
  /-- Neither store of `data_buffer[tail++ % size] = data` is made. -/
  | write (tail : ℤ)
  /-- The slot is written, the counter is not. -/
  | writeTail (tail : ℤ)
  /-- The counter is written, the slot is not. -/
  | writeSlot (tail : ℤ)
  | unlock
  deriving DecidableEq

inductive WqPc where
  /-- `lw = umalloc(..)` and `lw->thd = chan->receiver`. -/
  | wrap
  /-- The four assignments of `list_ll_add`. -/
  | linkPrev (lw : ℕ)
  | linkNext (lw : ℕ)
  | linkBefore (lw : ℕ)
  | linkAfter (lw : ℕ)
  | unlock
  deriving DecidableEq

inductive RcvPc where
  | tail
  | head (tail : ℤ)
  | take
  /-- Neither access of `data_buffer[head++ % size]` is made. -/
  | read (head : ℤ)
  /-- The slot is read, the counter is not written. -/
  | readHead (head : ℤ) (result : Data)
  /-- The counter is written, the slot is not read. -/
  | readSlot (head : ℤ)
  deriving DecidableEq

inductive Pc where
  | user
  | rbLock (a : Send)
  | rb (a : Send) (p : RbPc)
  | wqLock (a : Send)
  | wq (a : Send) (p : WqPc)
  | rcv (cur : ThreadId) (p : RcvPc)
  deriving DecidableEq

/-- What has taken effect, for the record. -/
inductive Op where
  | put (a : Send)
  | wake (a : Send)
  | take (cur : ThreadId) (result : Data)
  deriving DecidableEq

def Op.sent : Op → Option Data
  | .put a => some a.data
  | _ => none

def Op.rcvd : Op → Option Data
  | .take _ result => some result
  | _ => none

/-- The wake-up queue of the receiver's kernel thread: the links of its nodes, where `none` is its
head, the `thd` of each `struct __lwt_wrap`, and how many wraps `umalloc` has given out. -/
structure Wakeups where
  links : Links (Option ℕ)
  thd : ℕ → Option ThreadId
  lws : ℕ

/-- The memory that the kernel threads share. The program never reads `record`. -/
structure State where
  buffer : RingBuffer Data
  rbOccupied : ℤ
  wqOccupied : ℤ
  wakeup : Wakeups
  pc : KthdId → Pc
  record : List Op

inductive Input where
  | none
  /-- A call of `lwt_sync_snd`. -/
  | snd (a : Send)
  /-- A call of `lwt_sync_rcv`, or the return of the `lwt_yield` in it. -/
  | rcv (cur : ThreadId)
  deriving DecidableEq

namespace State

variable (s : State) (t : KthdId)

@[simps] def goto (pc : Pc) : State := { s with pc := Function.update s.pc t pc }

@[simps] def log (o : Op) : State := { s with record := s.record ++ [o] }

def sent : List Data := s.record.filterMap Op.sent

def rcvd : List Data := s.record.filterMap Op.rcvd

/-- `data_buffer[i % size] = d`. -/
def storeSlot (size i : ℤ) (d : Data) : Result State :=
  if size = 0 then .error .divByZero
  else if s.buffer.Fits size i then
    .ok { s with buffer :=
      { s.buffer with data := Function.update s.buffer.data (RingBuffer.slot size i) d } }
  else .error .outOfBounds

/-- `data_buffer[i % size]`. -/
def loadSlot (size i : ℤ) : Result Data :=
  if size = 0 then .error .divByZero
  else if s.buffer.Fits size i then .ok (s.buffer.data (RingBuffer.slot size i))
  else .error .outOfBounds

@[simps] def storeTail (tail : ℤ) : State := { s with buffer := { s.buffer with tail := tail } }

@[simps] def storeHead (head : ℤ) : State := { s with buffer := { s.buffer with head := head } }

@[simps] def setPrev (a b : Option ℕ) : State :=
  { s with wakeup.links := { s.wakeup.links with prev := Function.update s.wakeup.links.prev a b } }

@[simps] def setNext (a b : Option ℕ) : State :=
  { s with wakeup.links := { s.wakeup.links with next := Function.update s.wakeup.links.next a b } }

variable (cf : Conf)

/-- The section locked by `rb_occupied`. -/
def rbStep (a : Send) : RbPc → Result State
  | .load => .ok (s.goto t (.rb a (.write s.buffer.tail)))
  | .write tail =>
    match cf.code.snd with
    | .slot => do
      let s ← s.storeSlot cf.size tail a.data
      .ok (s.goto t (.rb a (.writeTail tail)))
    | .counter =>
      .ok (((s.storeTail (wrap32 (tail + 1))).log (.put a)).goto t (.rb a (.writeSlot tail)))
  | .writeTail tail =>
    .ok (((s.storeTail (wrap32 (tail + 1))).log (.put a)).goto t (.rb a .unlock))
  | .writeSlot tail => do
    let s ← s.storeSlot cf.size tail a.data
    .ok (s.goto t (.rb a .unlock))
  | .unlock => .ok ({ s with rbOccupied := 0 }.goto t (.wqLock a))

/-- The section locked by `wq_occupied`. -/
def wqStep (a : Send) : WqPc → State
  | .wrap =>
    let lw := s.wakeup.lws
    { s with
      wakeup.thd := Function.update s.wakeup.thd lw (some cf.receiver)
      wakeup.lws := lw + 1 }.goto t (.wq a (.linkPrev lw))
  | .linkPrev lw => (s.setPrev (some lw) (s.wakeup.links.prev none)).goto t (.wq a (.linkNext lw))
  | .linkNext lw => (s.setNext (some lw) none).goto t (.wq a (.linkBefore lw))
  | .linkBefore lw =>
    (s.setNext (s.wakeup.links.prev (some lw)) (some lw)).goto t (.wq a (.linkAfter lw))
  | .linkAfter lw =>
    ((s.setPrev (s.wakeup.links.next (some lw)) (some lw)).log (.wake a)).goto t (.wq a .unlock)
  | .unlock => { s with wqOccupied := 0 }.goto t .user

/-- `lwt_sync_rcv`. Having found the ring empty the receiver blocks, and its kernel thread goes on
with other threads. -/
def rcvStep (cur : ThreadId) : RcvPc → Result State
  | .tail => .ok (s.goto t (.rcv cur (.head s.buffer.tail)))
  | .head tail =>
    if wrap32 (tail - s.buffer.head) ≠ 0 then .ok (s.goto t (.rcv cur .take))
    else .ok (s.goto t .user)
  | .take => .ok (s.goto t (.rcv cur (.read s.buffer.head)))
  | .read head =>
    match cf.code.rcv with
    | .slot => do
      let result ← s.loadSlot cf.size head
      .ok (s.goto t (.rcv cur (.readHead head result)))
    | .counter => .ok ((s.storeHead (wrap32 (head + 1))).goto t (.rcv cur (.readSlot head)))
  | .readHead head result =>
    .ok (((s.storeHead (wrap32 (head + 1))).log (.take cur result)).goto t .user)
  | .readSlot head => do
    let result ← s.loadSlot cf.size head
    .ok ((s.log (.take cur result)).goto t .user)

/-- A step of kernel thread `t`. Only the kernel thread that owns the receiver receives. -/
def step (inp : Input) : Result State :=
  match s.pc t, inp with
  | .user, .snd a => .ok (s.goto t (.rbLock a))
  | .user, .rcv cur =>
    if t = cf.remote then .ok (s.goto t (.rcv cur .tail)) else .error .notReady
  | .rbLock a, .none =>
    match SpinLock.tryLock s.rbOccupied with
    | some w => .ok ({ s with rbOccupied := w }.goto t (.rb a .load))
    | none => .ok s
  | .rb a p, .none => s.rbStep t cf a p
  | .wqLock a, .none =>
    match SpinLock.tryLock s.wqOccupied with
    | some w => .ok ({ s with wqOccupied := w }.goto t (.wq a .wrap))
    | none => .ok s
  | .wq a p, .none => .ok (s.wqStep t cf a p)
  | .rcv cur p, .none => s.rcvStep t cf cur p
  | _, _ => .error .notReady

end State

structure Label where
  kthd : KthdId
  inp : Input
  deriving DecidableEq

def Step (cf : Conf) (s : State) (l : Label) (s' : State) : Prop :=
  s.step l.kthd cf l.inp = .ok s'

end Lwt.Access
