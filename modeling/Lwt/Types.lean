import Lwt.Lib.Rings
import Lwt.Lib.RingBuffer

/-! The data of `lwt.h`. Structures live in maps keyed by the order of their
allocation: a freed block keeps its key and is only marked as freed, and touching
it afterwards is a fault. Where a later channel in the same block is taken for an
earlier one, addresses come in (`State.lwtSndAt`). Thread structures are recycled by
the library itself, under the same key.

The saved context of a thread is its return stack. `Frame` lists the places
where an activation of a library function can be left: a call about to be made,
or the rest of a function behind a nested call or a dispatch. An empty stack is
user code. -/

namespace Lwt

/-- `lwt_t`: the address of a thread structure. -/
abbrev ThreadId := ℕ

/-- `lwt_chan_t`: the address of a channel structure. -/
abbrev ChanId := ℕ

/-- `lwt_cgrp_t`: the address of a channel group. -/
abbrev CgrpId := ℕ

/-- `thdid_t`: an index into `kthds`. -/
abbrev KthdId := ℕ

/-- A `void *`: a plain word, or a pointer together with what it points to. -/
inductive Data where
  | word (n : ℤ)
  | chan (c : ChanId)
  | thd (t : ThreadId)
  | cgrp (g : CgrpId)
  deriving DecidableEq, Inhabited

/-- `NULL`, also the result `0`. -/
abbrev Data.null : Data := .word 0

inductive Status where
  | runnable | blocked | zombies | running
  deriving DecidableEq, Inhabited

inductive BlockStatus where
  | receiving | sending
  deriving DecidableEq, Inhabited

inductive ChanType where
  | «local» | global
  deriving DecidableEq, Inhabited

/-- `sl_thd` states of a kernel thread. -/
inductive SlState where
  | runnable | blocked | woken
  deriving DecidableEq, Inhabited

/-- The block that `umalloc` returned for a channel, read as a channel: the
fields that `__init_chan` leaves as they are. -/
structure RawChan where
  cgroup : Option CgrpId
  ready : ℤ
  rbOccupied : ℤ
  mark : Data

/-- What `umalloc` returns to `lwt_chan`: the structure, then the ring buffer.
`none` is a null pointer. -/
structure ChanMem where
  chan : Option RawChan
  buffer : Option (ℤ → Data)

/-- The fields of a fresh thread block that `__init_thread` leaves as they are. -/
structure RawThread where
  blockFor : BlockStatus
  nowRcving : Option ChanId
  initSp : ℕ

/-- What `umalloc` returns to `lwt_create`: structure, stack and exit channel. -/
structure CreateMem where
  thread : Option RawThread
  stack : Option ℕ
  chl : ChanMem

/-- A call of the library by user code. -/
inductive Call where
  | lwtCreate (flags : ℤ) (mem : CreateMem)
  | lwtCreateChan (chan : ChanId) (mem : CreateMem)
  | lwtYield (yieldTo : Option ThreadId)
  | lwtDie (message : Data)
  | lwtJoin (threadToWait : ThreadId)
  | lwtChan (size : ℤ) (mem : ChanMem)
  | setChanType (chan : ChanId) (type : ChanType)
  | lwtChanDeref (chan : ChanId)
  | lwtSnd (chan : ChanId) (data : Data)
  | lwtRcv (chan : ChanId)
  | lwtSndChan (through sending : ChanId)
  | lwtRcvChan (chan : ChanId)
  | lwtCgrp (mem : Bool)
  | lwtCgrpAdd (cgrp : CgrpId) (chan : ChanId)
  | lwtCgrpRem (cgrp : CgrpId) (chan : ChanId)
  | lwtCgrpFree (cgrp : CgrpId)
  | lwtCgrpWait (cgrp : CgrpId)
  | lwtChanMarkSet (chan : ChanId) (mark : Data)
  | lwtChanMarkGet (chan : ChanId)
  | lwtSndThd (chan : ChanId) (sending : ThreadId)
  | lwtRcvThd (chan : ChanId)
  /-- The start function of a kernel thread has returned to `lwt_kthd_trampline`. -/
  | lwtKthdTrampline

/-- A place where an activation of a library function can be left. -/
inductive Frame where
  /-- A call about to be made. -/
  | call (c : Call)
  /-- `lwt_create_chan` behind `lwt_create`. -/
  | createChanRet (chan : ChanId)
  /-- `lwt_snd` behind `__block_thread`. -/
  | sndRet (chan : ChanId)
  /-- `lwt_rcv` behind `__block_thread`. -/
  | rcvRet (chan : ChanId)
  /-- `lwt_sync_snd` between its two locked sections. -/
  | syncSndWakeup (chan : ChanId) (remote : KthdId)
  /-- `lwt_sync_rcv` at the head of its loop. -/
  | syncRcvLoop (chan : ChanId)
  /-- `lwt_sync_rcv` having found the ring empty. -/
  | syncRcvBlock (chan : ChanId)
  /-- `lwt_cgrp_wait` at the head of its loop. -/
  | cgrpWaitLoop (cgrp : CgrpId)
  /-- `lwt_die` behind the send of the last word. -/
  | dieSnd
  /-- `lwt_die` behind `__lwt_schedule`. -/
  | died
  /-- `lwt_join` behind the receive of the last word. -/
  | joinRcv (threadToWait : ThreadId)
  /-- `lwt_join` behind `lwt_yield`, holding the last word. -/
  | joinYield (threadToWait : ThreadId) (dataReceived : Data)
  /-- `lwt_snd_chan` behind `lwt_snd`. -/
  | sndChanSnd
  /-- `lwt_snd_chan` behind `lwt_yield`, holding the result. -/
  | sndChanYield (returnValue : Data)
  /-- `lwt_rcv_chan` behind `lwt_rcv`. -/
  | rcvChanRcv
  /-- `lwt_rcv_thd` behind `lwt_rcv`. -/
  | rcvThdRcv
  /-- `lwt_kthd_trampline` at the head of its loop. -/
  | kthdLoop
  /-- `lwt_kthd_trampline` behind `sl_thd_block`. -/
  | kthdBlocked

/-- `struct _lwt_t`. `context` is the saved return stack, innermost first, and
`eax` the value that the last finished call returned. -/
structure Thread where
  lwtId : ℤ
  state : Status
  blockFor : BlockStatus
  parent : Option ThreadId
  messageData : Data
  initSp : ℕ
  context : List Frame
  eax : Data
  chl : ChanId
  nowRcving : Option ChanId
  nojoin : Bool
  ownerKthd : KthdId
  deriving Inhabited

/-- `struct _lwt_channel`. The sender queue is one of the queues of the state. -/
structure Chan where
  chanId : ℤ
  type : ChanType
  sndCnt : ℤ
  receiver : Option ThreadId
  buffer : RingBuffer Data
  size : ℤ
  rbOccupied : ℤ
  cgroup : Option CgrpId
  ready : ℤ
  mark : Data
  freed : Bool

instance : Inhabited Chan :=
  ⟨⟨0, .local, 0, none, ⟨0, 0, fun _ => .null, 0⟩, 0, 0, none, 0, .null, false⟩⟩

/-- `struct _lwt_cgrp`. The channel list is one of the lists of the state. -/
structure Cgrp where
  owner : ThreadId
  blocked : Bool
  freed : Bool
  deriving Inhabited

/-- `struct _kthd_info`, with the state `sl` keeps of the kernel thread. Its
three queues are queues of the state. -/
structure Kthd where
  blockCounter : ℤ
  zombieCounter : ℤ
  nrcving : ℤ
  nsnding : ℤ
  pollingFlag : Bool
  currentThread : Option ThreadId
  mainThread : Option ThreadId
  wqOccupied : ℤ
  slState : SlState
  deriving Inhabited

/-- The list heads that thread structures are linked behind. -/
inductive Queue where
  | run (k : KthdId)
  | recycle (k : KthdId)
  | sender (c : ChanId)
  deriving DecidableEq

/-- What the history of a run records. The program never reads it. -/
inductive Event where
  /-- `lwt_create` by `creator` started an instance of `t` with this `lwt_id`. -/
  | create (creator t : ThreadId) (lwtId : ℤ)
  /-- `t` called `lwt_die(d)`. -/
  | die (t : ThreadId) (d : Data)
  /-- `t` made channel `c`. -/
  | chan (t : Option ThreadId) (c : ChanId)
  /-- `t` called `lwt_snd(c, d)` and `c` had a receiver. -/
  | snd (t : ThreadId) (c : ChanId) (d : Data)
  /-- `t` called `lwt_snd(c, d)` and `c` had no receiver. -/
  | sndNone (t : ThreadId) (c : ChanId) (d : Data)
  /-- `lwt_snd(c, ·)` by `t` returned `0`. -/
  | sndDone (t : ThreadId) (c : ChanId)
  /-- `lwt_rcv(c)` by `t` returned `d`. -/
  | rcv (t : ThreadId) (c : ChanId) (d : Data)
  /-- `lwt_join(child)` by `t` returned `d`. -/
  | join (t child : ThreadId) (d : Data)
  /-- `t` went to sleep on kernel thread `k`, counted there. -/
  | block (t : ThreadId) (k : KthdId)
  /-- `__resume_thread(t)` took `t` off the counters of `k` and put it on the
  run queue of `q`, while `t->owner_kthd` was `owner`. -/
  | resume (t : ThreadId) (k q owner : KthdId)
  /-- `t` got a reference to channel `c`. -/
  | acquire (t : ThreadId) (c : ChanId)
  /-- `t` called `lwt_chan_deref(c)`. -/
  | deref (t : ThreadId) (c : ChanId)
  deriving DecidableEq

/-- What makes a run end: the program text leaves what C defines, an assertion
fails, or the call cannot be made in this state. -/
inductive Fault where
  | nullPointer
  | badPointer
  | useAfterFree
  | outOfBounds
  | divByZero
  | emptyRunQueue
  | lockHeld
  | assertion
  | overflow
  | notReturning
  | notReady
  deriving DecidableEq

/-- The whole memory of the library. -/
@[ext]
structure State where
  kthds : KthdId → Kthd
  currentKthd : KthdId
  lwtCounter : ℤ
  chanCounter : ℤ
  threads : ThreadId → Thread
  nthreads : ℕ
  chans : ChanId → Chan
  nchans : ℕ
  cgrps : CgrpId → Cgrp
  ncgrps : ℕ
  queues : Rings Queue ThreadId
  chlLists : Rings CgrpId ChanId
  wakeupQueues : KthdId → List (Option ThreadId)
  history : List Event

abbrev Result := Except Fault

/-- How a section of a library function ends: it returns a value, goes on with
these frames, or calls `__lwt_schedule` with them saved. -/
inductive Next where
  | ret (d : Data)
  | goto (frames : List Frame)
  | schedule (frames : List Frame)

end Lwt
