import Lwt.State

/-! The functions of `lwt.c`, and those of `lwt_chl.c` they are built from.
`cur` is `lwt_current()`. A function that can leave its activation is a section:
it says how the activation goes on. -/

namespace Lwt

namespace State

variable (σ : State) (cur : ThreadId)

/-- `__init_chan`, on the block that `umalloc` returned. -/
def initChan (raw : RawChan) (buffer : Option (ℤ → Data)) (size : ℤ) : Chan where
  chanId := σ.chanCounter
  type := .local
  sndCnt := 0
  receiver := σ.lwtCurrent
  buffer :=
    { tail := 0
      head := 0
      data := buffer.getD fun _ => .null
      -- a null `data_buffer` has no slots
      cap := if buffer.isSome then size * 4 % 4294967296 / 4 else 0 }
  size := size
  rbOccupied := raw.rbOccupied
  cgroup := raw.cgroup
  ready := raw.ready
  mark := raw.mark
  freed := false

def lwtChan (size : ℤ) (mem : ChanMem) : Result (State × ChanId) :=
  match mem.chan with
  | none => .error .nullPointer
  | some raw =>
    let c := σ.nchans
    .ok ({ σ with
      chans := Function.update σ.chans c (σ.initChan raw mem.buffer size)
      nchans := c + 1
      chanCounter := wrap32 (σ.chanCounter + 1)
      queues := σ.queues.clear (.sender c)
      history := σ.history ++ [.chan σ.lwtCurrent c] }, c)

def initThread (t : ThreadId) (k : KthdId) (mem : ChanMem) : Result State := do
  let (τ, c) ← σ.lwtChan 0 mem
  let τ := (τ.modChan c fun ch => { ch with sndCnt := ch.sndCnt + 1 }).emit (.acquire t c)
  .ok { τ.modThread t fun th =>
      { th with
        lwtId := σ.lwtCounter
        state := .running
        parent := none
        messageData := .null
        chl := c
        nojoin := false
        ownerKthd := k } with
    lwtCounter := wrap32 (σ.lwtCounter + 1) }

/-- The structure that `lwt_create` starts a thread in: a recycled one if there
is one, a fresh one otherwise. `MAX_STACK_SIZE` is 819200. -/
def allocThread (mem : CreateMem) : Result (State × ThreadId) :=
  match σ.queues σ.currentRecycleQueue, mem.thread, mem.stack with
  | t :: _, _, _ => .ok (σ.listRem t, t)
  | [], some raw, some stack =>
    let t := σ.nthreads
    .ok ({ σ.modThread t fun _ =>
        { (default : Thread) with
          blockFor := raw.blockFor
          nowRcving := raw.nowRcving
          initSp := stack + 819200 } with
      nthreads := t + 1 }, t)
  | [], _, _ => .error .nullPointer

def lwtCreate (flags : ℤ) (mem : CreateMem) : Result (State × ThreadId) := do
  let (τ, t) ← σ.allocThread mem
  let τ ← τ.initThread t τ.currentKthd mem.chl
  let τ := τ.modThread t fun th =>
    { th with
      parent := some cur
      context := []
      eax := .null
      nojoin := flags % 2 = 1 }
  .ok ((τ.listHeadAdd τ.currentRunQueue t).emit (.create cur t (τ.threads t).lwtId), t)

def resumeThread (t : ThreadId) : State :=
  ((((σ.modKthd σ.currentKthd fun kt =>
    { kt with
      nrcving := kt.nrcving - if (σ.threads t).blockFor = .receiving then 1 else 0
      nsnding := kt.nsnding - if (σ.threads t).blockFor = .sending then 1 else 0
      blockCounter := kt.blockCounter - 1 }).listRem t).modThread t fun th =>
    { th with state := .runnable }).listHeadAppend (σ.ownerRunQueue cur) t).emit
    (.resume t σ.currentKthd (σ.threads cur).ownerKthd (σ.threads t).ownerKthd)

/-- The counting half of `__block_thread`, `lwt_sync_rcv` and `lwt_cgrp_wait`:
the running thread leaves its queue and is marked blocked. -/
def countBlocked (blockFor : BlockStatus) : State :=
  (((σ.listRem cur).modKthd σ.currentKthd fun kt =>
    { kt with
      nrcving := kt.nrcving + if blockFor = .receiving then 1 else 0
      nsnding := kt.nsnding + if blockFor = .sending then 1 else 0
      blockCounter := kt.blockCounter + 1 }).modThread cur fun th =>
    { th with state := .blocked, blockFor := blockFor }).emit (.block cur σ.currentKthd)

/-- The part of `lwt_yield(NULL)` before `__lwt_schedule`: a thread that can run
goes to the end of its run queue. -/
def requeue : State :=
  if (σ.threads cur).state = .runnable ∨ (σ.threads cur).state = .running then
    (σ.listRem cur).listHeadAdd (σ.ownerRunQueue cur) cur
  else σ

/-- `__block_thread` on the running thread, up to `__lwt_schedule`. -/
def blockThread (blockFor : BlockStatus) (c : ChanId) : State :=
  let τ := σ.countBlocked cur blockFor
  let τ := if blockFor = .receiving then τ else τ.listHeadAdd (.sender c) cur
  τ.requeue cur

def lwtYield (yieldTo : Option ThreadId) : Result (State × Next) :=
  match yieldTo with
  | none => .ok (σ.requeue cur, .schedule [])
  | some t => do
    let th ← σ.thread? t
    if t = cur ∨ (th.state ≠ .runnable ∧ th.state ≠ .running) then .ok (σ, .ret .null)
    else .ok ((σ.listRem t).listHeadAppend (σ.ownerRunQueue cur) t, .schedule [])

/-- The polling loop of `__lwt_schedule`. The pointer `_thd` never equals the
constant `LWT_BLOCKED`, so no entry wakes a thread, and the loop steps on through
the entry it has just freed. -/
def pollWakeupQueue : Result State :=
  if σ.kthd.pollingFlag then
    match σ.wakeupQueues σ.currentKthd with
    | [] => .ok σ
    | _ :: _ => .error .useAfterFree
  else .ok σ

/-- `__lwt_schedule`, the context of the running thread already saved. The head
of an empty run queue is not a thread. -/
def lwtSchedule : Result State :=
  match σ.queues σ.currentRunQueue with
  | [] => .error .emptyRunQueue
  | t :: _ => do
    let τ ← σ.pollWakeupQueue
    .ok ((τ.modThread t fun th => { th with state := .running }).modKthd τ.currentKthd fun kt =>
      { kt with currentThread := some t })

/-- `lwt_die` up to the send of the last word. -/
def lwtDie (message : Data) : Result (State × Next) :=
  let τ := σ.modKthd σ.currentKthd fun kt => { kt with zombieCounter := kt.zombieCounter + 1 }
  .ok ((τ.modThread cur fun th => { th with messageData := message }).emit (.die cur message),
    .goto [.call (.lwtSnd (σ.threads cur).chl message), .dieSnd])

/-- The rest of `lwt_die`. -/
def lwtDieSnd : Result (State × Next) :=
  let τ := σ.modThread cur fun th => { th with state := .zombies }
  let τ := τ.modKthd σ.currentKthd fun kt => { kt with zombieCounter := kt.zombieCounter - 1 }
  .ok ((τ.listRem cur).listHeadAdd τ.currentRecycleQueue cur, .schedule [.died])

/-- `lwt_join` up to the receive of the last word. -/
def lwtJoin (t : ThreadId) : Result (State × Next) := do
  let th ← σ.thread? t
  if th.parent ≠ some cur ∨ th.nojoin then .ok (σ, .ret .null)
  else .ok (σ, .goto [.call (.lwtRcv th.chl), .joinRcv t])

def initKthd (k : KthdId) : State :=
  let τ := σ.modKthd k fun kt =>
    { kt with
      blockCounter := 0
      zombieCounter := 0
      nrcving := 0
      nsnding := 0
      wqOccupied := 0
      pollingFlag := false }
  { τ with
    queues := (τ.queues.clear (.run k)).clear (.recycle k)
    wakeupQueues := Function.update τ.wakeupQueues k [] }

/-- `__initiate` up to `__init_thread`. -/
def initMain (k : KthdId) (raw : RawThread) : State :=
  let t := σ.nthreads
  let τ := (σ.initKthd k).modThread t fun _ =>
    { (default : Thread) with
      blockFor := raw.blockFor
      nowRcving := raw.nowRcving
      initSp := raw.initSp }
  { τ with nthreads := t + 1 }.modKthd k fun kt => { kt with currentThread := some t }

def initiate (k : KthdId) (mem : CreateMem) : Result State :=
  match mem.thread with
  | none => .error .nullPointer
  | some raw => do
    let t := σ.nthreads
    let τ ← (σ.initMain k raw).initThread t k mem.chl
    let τ := τ.modKthd k fun kt => { kt with mainThread := some t }
    .ok (τ.listHeadAppend (.run k) t)

end State

end Lwt
