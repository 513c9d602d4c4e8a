import Lwt.Thread

/-! The functions of `lwt_chl.c`: channels, channel groups, and what moves
threads and channels between threads. -/

namespace Lwt

namespace State

variable (σ : State) (cur : ThreadId)

/-- `data_buffer[tail++ % size] = data`. -/
def ringWrite (c : ChanId) (data : Data) : Result State :=
  let ch := σ.chans c
  if ch.size = 0 then .error .divByZero
  else if ch.buffer.Fits ch.size ch.buffer.tail then
    .ok (σ.modChan c fun ch => { ch with buffer := ch.buffer.push ch.size data })
  else .error .outOfBounds

/-- `result = data_buffer[head++ % size]`. -/
def ringRead (c : ChanId) : Result (State × Data) :=
  let ch := σ.chans c
  if ch.size = 0 then .error .divByZero
  else if ch.buffer.Fits ch.size ch.buffer.head then
    .ok (σ.modChan c fun ch => { ch with buffer := ch.buffer.pop }, ch.buffer.front ch.size)
  else .error .outOfBounds

def incSndCnt (c : ChanId) : Result State :=
  if (σ.chans c).sndCnt < 2147483647 then
    .ok (σ.modChan c fun ch => { ch with sndCnt := ch.sndCnt + 1 })
  else .error .overflow

def setChanType (c : ChanId) (type : ChanType) : State :=
  σ.modChan c fun ch => { ch with type := type }

/-- `lwt_create_chan` behind `lwt_create`, which returned `created`. -/
def lwtCreateChanRet (c : ChanId) (created : Data) : Result (State × Next) := do
  let _ ← σ.chan? c
  match created with
  | .thd t => do
    let τ ← σ.incSndCnt c
    .ok (τ.emit (.acquire t c), .ret created)
  | _ => .error .badPointer

/-- `lwt_chan_deref` on the channel, called by thread `cur`. -/
def derefChan (ch : Chan) : Chan :=
  let ch :=
    if ch.receiver = some cur then { ch with receiver := none }
    else { ch with sndCnt := ch.sndCnt - 1 }
  if ch.sndCnt = 0 ∧ ch.receiver = none then { ch with freed := true } else ch

def lwtChanDeref (c : ChanId) : Result (State × Next) := do
  let ch ← σ.chan? c
  if ch.receiver ≠ some cur ∧ ch.sndCnt ≤ -2147483648 then .error .overflow
  else .ok ((σ.modChan c (derefChan cur)).emit (.deref cur c), .ret .null)

/-- The group wake-up of `lwt_snd`. -/
def wakeGroup (cgroup : Option CgrpId) : Result State :=
  match cgroup with
  | none => .ok σ
  | some g => do
    let gr ← σ.cgrp? g
    .ok (if gr.blocked then σ.resumeThread cur gr.owner else σ)

/-- `lwt_sync_snd` up to the end of its first locked section. -/
def lwtSyncSnd (c : ChanId) (data : Data) : Result (State × Next) := do
  let ch ← σ.chan? c
  match ch.receiver with
  | none => .error .nullPointer
  | some r => do
    let rcv ← σ.thread? r
    if ch.rbOccupied ≠ 0 then .error .lockHeld
    else do
      let τ ← σ.ringWrite c data
      .ok (τ.emit (.snd cur c data), .goto [.syncSndWakeup c rcv.ownerKthd])

/-- The second locked section of `lwt_sync_snd`. -/
def lwtSyncSndWakeup (c : ChanId) (remote : KthdId) : Result (State × Next) := do
  if (σ.kthds remote).wqOccupied ≠ 0 then .error .lockHeld
  else do
    let ch ← σ.chan? c
    let queue := σ.wakeupQueues remote ++ [ch.receiver]
    let τ := { σ with wakeupQueues := Function.update σ.wakeupQueues remote queue }
    .ok (τ.emit (.sndDone cur c), .ret .null)

/-- `lwt_snd` when the receiver is not waiting for this channel. -/
def lwtSndQueue (c : ChanId) (data : Data) : Result (State × Next) := do
  let τ := σ.modChan c fun ch => { ch with ready := 1 }
  let τ ← τ.wakeGroup cur (σ.chans c).cgroup
  let τ := τ.emit (.snd cur c data)
  if (σ.chans c).buffer.count ≠ (σ.chans c).size then do
    let τ ← τ.ringWrite c data
    .ok (τ.emit (.sndDone cur c), .ret .null)
  else
    let τ := τ.modThread cur fun th => { th with messageData := data }
    .ok (τ.blockThread cur .sending c, .schedule [.sndRet c])

def lwtSnd (c : ChanId) (data : Data) : Result (State × Next) := do
  let ch ← σ.chan? c
  if ch.type = .global then (σ.setChanType c .global).lwtSyncSnd cur c data
  else match ch.receiver with
  | none => .ok (σ.emit (.sndNone cur c data), .ret (.word (-1)))
  | some r => do
    let rcv ← σ.thread? r
    if rcv.state = .blocked ∧ rcv.blockFor = .receiving ∧ rcv.nowRcving = some c then
      let τ := σ.modThread r fun th => { th with messageData := data }
      .ok (((τ.resumeThread cur r).emit (.snd cur c data)).emit (.sndDone cur c), .ret .null)
    else σ.lwtSndQueue cur c data

/-- `lwt_rcv` from a ring that is not empty: the first waiting sender gets the slot. -/
def lwtRcvRing (c : ChanId) : Result (State × Next) := do
  let (τ, result) ← σ.ringRead c
  let τ ← match τ.queues (.sender c) with
    | [] => .ok τ
    | s :: _ => (τ.resumeThread cur s).ringWrite c (τ.threads s).messageData
  let τ := τ.modChan c fun ch =>
    { ch with ready := if ch.buffer.head = ch.buffer.tail then 0 else 1 }
  .ok (τ.emit (.rcv cur c result), .ret result)

def lwtRcv (c : ChanId) : Result (State × Next) := do
  let ch ← σ.chan? c
  if ch.type = .global then
    match ch.receiver with
    | none => .error .nullPointer
    | some r => do
      let _ ← σ.thread? r
      .ok (σ, .goto [.syncRcvLoop c])
  else if ch.buffer.count ≠ 0 then σ.lwtRcvRing cur c
  else match σ.queues (.sender c) with
  | s :: _ =>
    let result := (σ.threads s).messageData
    let τ := σ.resumeThread cur s
    let τ := τ.modChan c fun ch =>
      { ch with ready := if τ.queues (.sender c) = [] then 0 else 1 }
    .ok (τ.emit (.rcv cur c result), .ret result)
  | [] =>
    let τ := σ.modThread cur fun th => { th with nowRcving := some c }
    .ok (τ.blockThread cur .receiving c, .schedule [.rcvRet c])

/-- `lwt_sync_rcv` at the head of its loop. -/
def lwtSyncRcvLoop (c : ChanId) : Result (State × Next) := do
  let ch ← σ.chan? c
  if ch.buffer.count ≠ 0 then do
    let (τ, result) ← σ.ringRead c
    .ok (τ.emit (.rcv cur c result), .ret result)
  else .ok (σ, .goto [.syncRcvBlock c])

/-- `lwt_sync_rcv` having found the ring empty. -/
def lwtSyncRcvBlock (c : ChanId) : State × Next :=
  let τ := σ.modThread cur fun th => { th with nowRcving := some c }
  ((τ.countBlocked cur .receiving).requeue cur, .schedule [.syncRcvLoop c])

/-- `lwt_rcv_chan` behind `lwt_rcv`. -/
def lwtRcvChanRcv (rec : Data) : Result (State × Next) :=
  match rec with
  | .word 0 => .ok (σ, .ret rec)
  | .chan c => do
    let _ ← σ.chan? c
    let τ ← σ.incSndCnt c
    .ok (τ.emit (.acquire cur c), .ret rec)
  | _ => .error .badPointer

/-- `lwt_cgrp`; `mem` tells whether `umalloc` returned a block. -/
def lwtCgrp (mem : Bool) : State × Next :=
  if mem then
    let g := σ.ncgrps
    ({ σ with
      cgrps := Function.update σ.cgrps g { owner := cur, blocked := false, freed := false }
      ncgrps := g + 1
      chlLists := σ.chlLists.clear g }, .ret (.cgrp g))
  else (σ, .ret .null)

def lwtCgrpAdd (g : CgrpId) (c : ChanId) : Result (State × Next) := do
  let ch ← σ.chan? c
  if ch.cgroup.isSome then .ok (σ, .ret (.word (-1)))
  else do
    let _ ← σ.cgrp? g
    .ok ({ σ.modChan c fun ch => { ch with cgroup := some g } with
      chlLists := σ.chlLists.append g c }, .ret .null)

def lwtCgrpRem (g : CgrpId) (c : ChanId) : Result (State × Next) := do
  let ch ← σ.chan? c
  if ch.ready ≠ 0 then .ok (σ, .ret (.word 1))
  else if ch.cgroup ≠ some g then .ok (σ, .ret (.word (-1)))
  else .ok ({ σ.modChan c fun ch => { ch with cgroup := none } with
      chlLists := σ.chlLists.rem c }, .ret .null)

/-- `lwt_cgrp_free`. Its first loop returns at the first channel, ready or not. -/
def lwtCgrpFree (g : CgrpId) : Result (State × Next) := do
  let _ ← σ.cgrp? g
  match σ.chlLists g with
  | c :: _ => do
    let _ ← σ.chan? c
    .ok (σ, .ret (.word (-1)))
  | [] => .ok (σ.modCgrp g fun gr => { gr with freed := true }, .ret .null)

/-- `lwt_cgrp_wait` up to its loop. -/
def lwtCgrpWait (g : CgrpId) : Result (State × Next) := do
  let _ ← σ.cgrp? g
  if σ.chlLists g = [] then .ok (σ, .ret .null)
  else .ok (σ, .goto [.cgrpWaitLoop g])

def firstReady : List ChanId → Result (Option ChanId)
  | [] => .ok none
  | c :: l => do
    let ch ← σ.chan? c
    if ch.ready = 1 then .ok (some c) else firstReady l

/-- One round of `lwt_cgrp_wait`. -/
def lwtCgrpWaitLoop (g : CgrpId) : Result (State × Next) := do
  let _ ← σ.cgrp? g
  match ← σ.firstReady (σ.chlLists g) with
  | some c => .ok (σ.modCgrp g fun gr => { gr with blocked := false }, .ret (.chan c))
  | none =>
    let τ := σ.modCgrp g fun gr => { gr with blocked := true }
    .ok ((τ.countBlocked cur .receiving).requeue cur, .schedule [.cgrpWaitLoop g])

def lwtSndThd (c : ChanId) (sending : ThreadId) : Result (State × Next) :=
  if cur = sending then .error .assertion
  else .ok (σ, .goto [.call (.lwtSnd c (.thd sending))])

/-- `lwt_rcv_thd` behind `lwt_rcv`. -/
def lwtRcvThdRcv (rec : Data) : Result (State × Next) :=
  match rec with
  | .thd t => do
    let th ← σ.thread? t
    let τ := σ.modThread t fun th => { th with ownerKthd := σ.currentKthd }
    if th.state = .runnable then
      .ok ((τ.listRem t).listHeadAppend (τ.ownerRunQueue cur) t, .ret rec)
    else .ok (τ, .ret rec)
  | _ => .error .badPointer

/-- `lwt_kthd_trampline` once its start function has returned, on the main
thread of the kernel thread. -/
def lwtKthdTrampline : Result (State × Next) :=
  if σ.kthd.mainThread = some cur then .ok (σ, .goto [.kthdLoop]) else .error .notReady

def slThdBlock : Result State :=
  match σ.kthd.slState with
  | .woken => .ok (σ.modKthd σ.currentKthd fun kt => { kt with slState := .runnable })
  | .runnable => .ok (σ.modKthd σ.currentKthd fun kt => { kt with slState := .blocked })
  | .blocked => .error .assertion

/-- One round of `lwt_kthd_trampline`. -/
def lwtKthdLoop : Result (State × Next) :=
  if (σ.queues σ.currentRunQueue).length = 1 then do
    let τ ← σ.slThdBlock
    .ok (τ, .goto [.kthdBlocked])
  else .ok (σ, .goto [.kthdLoop])

/-- `lwt_info`, in the order of `enum lwt_info_t`. -/
def lwtInfo (t : ℕ) : ℤ :=
  match t with
  | 0 => (σ.queues σ.currentRunQueue).length
  | 1 => σ.kthd.blockCounter
  | 2 => σ.kthd.zombieCounter
  | 3 => (σ.queues σ.currentRecycleQueue).length
  | 4 => σ.kthd.nsnding
  | 5 => σ.kthd.nrcving
  | _ => -1

end State

end Lwt
