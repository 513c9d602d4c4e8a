import Lwt.Types
import Lwt.Lib.Transition
import Mathlib.Logic.Function.Basic
import Mathlib.Tactic.Simps.Basic

/-! The critical section of the scheduler library `sl`, and what kernel threads do in it. Threads
are interleaved at every access to shared memory: a read of the lock, a compare and swap, a read or
a write of a thread's state, a call of the scheduling policy. The policy and the kernel are not
part of the library: the policy is a parameter, and what the kernel returns is an input. -/

namespace Lwt.Sl

/-- `union sl_cs_intern` by its bit fields, `thdcap_t owner:31` and `u32_t contention:1`. -/
structure CsIntern where
  owner : BitVec 31
  contention : Bool
  deriving DecidableEq

namespace CsIntern

def v (w : CsIntern) : BitVec 32 := BitVec.cons w.contention w.owner

/-- The lock when nobody is in the critical section. -/
def free : CsIntern := ⟨0, false⟩

theorem v_injective : Function.Injective v := by
  intro w w' h
  have hc : w.contention = w'.contention := by
    simpa [v, BitVec.msb_cons] using congrArg BitVec.msb h
  have ho : w.owner = w'.owner := by
    simpa [v, BitVec.setWidth_cons] using congrArg (BitVec.setWidth 31) h
  cases w
  cases w'
  simp_all

end CsIntern

/-- `ps_cas(&lock.u.v, cached.v, new.v)`: the new lock, if the swap was made. -/
def psCas (lock cached new : CsIntern) : Option CsIntern :=
  if lock.v = cached.v then some new else none

theorem psCas_eq_some {lock cached new w : CsIntern} :
    psCas lock cached new = some w ↔ lock = cached ∧ w = new := by
  simp [psCas, CsIntern.v_injective.eq_iff, eq_comm]

theorem psCas_eq_none {lock cached new : CsIntern} :
    psCas lock cached new = none ↔ lock ≠ cached := by
  simp [psCas, CsIntern.v_injective.eq_iff]

/-- `thdid_t`; `0` is no thread. -/
abbrev ThdId := KthdId

/-- `struct sl_thd`. -/
structure Thd where
  thdcap : ℕ
  state : SlState

/-- The functions of the scheduling policy that `sl` calls, on the data `P` it keeps. -/
structure Policy (P : Type) where
  block : P → ThdId → P
  wakeup : P → ThdId → P
  yield : P → ThdId → P
  execution : P → ThdId → ℕ → P
  schedule : P → P × Option ThdId

/-- Which function called `sl_cs_exit_schedule_nospin_arg`: the scheduler loop, which does not look
at its result, or `sl_cs_exit_schedule` and `sl_cs_exit_switchto`, which go on until it is `0`. -/
inductive Caller where
  | loop
  | spin
  deriving DecidableEq

/-- What stands behind `sl_cs_enter`. -/
inductive Body where
  | block
  | wakeup (tid : ThdId)
  | yield (tid : ThdId)
  | loop
  | schedule (dest : Option ThdId) (caller : Caller)
  deriving DecidableEq

/-- What stands behind `sl_cs_exit`. -/
inductive Exit where
  | ret
  | switch (target : ThdId) (caller : Caller)
  deriving DecidableEq

inductive Pc where
  /-- Not in a function of `sl`. -/
  | user
  /-- `sl_cs_enter` at `retry`. -/
  | enter (b : Body)
  /-- `sl_cs_enter` at its swap. -/
  | enterCas (cached : CsIntern) (b : Body)
  /-- `sl_cs_enter_contention`. -/
  | contend (cached : CsIntern) (b : Body)
  /-- `sl_cs_enter_contention` at the switch to the owner. -/
  | contendSwitch (owner : BitVec 31) (b : Body)
  /-- Behind `sl_cs_enter`. -/
  | body (b : Body)
  /-- `sl_thd_block` of a thread found woken. -/
  | blockClear
  /-- `sl_thd_block` of a thread found runnable. -/
  | blockSet
  | blockMod
  /-- `sl_thd_wakeup` of a thread found runnable. -/
  | wakeMark (tid : ThdId)
  /-- `sl_thd_wakeup` at the assertion that assigns. -/
  | wakeAssert (tid : ThdId)
  | wakeSet (tid : ThdId)
  | wakeMod (tid : ThdId)
  | yieldMod
  /-- `sl_cs_exit_schedule_nospin_arg`, called in the critical section. -/
  | schedule (dest : Option ThdId) (caller : Caller)
  /-- `sl_cs_exit_schedule_nospin_arg`, called again because the switch has failed. -/
  | reschedule
  /-- `current_kthd = t->thdid`. -/
  | dispatch (target : ThdId) (caller : Caller)
  /-- `sl_cs_exit` at `retry`. -/
  | exit (x : Exit)
  /-- `sl_cs_exit` at its swap. -/
  | exitCas (cached : CsIntern) (x : Exit)
  /-- `sl_cs_exit_contention`. -/
  | exitContend (cached : CsIntern) (x : Exit)
  /-- `sl_cs_exit_contention` at the switch to the scheduler thread. -/
  | exitSwitch (x : Exit)
  /-- `cos_defswitch` at the end of `sl_cs_exit_schedule_nospin_arg`. -/
  | switch (target : ThdId) (caller : Caller)
  deriving DecidableEq

/-- Behind the test of `pending` in `sl_sched_loop`. -/
def Pc.round (pending : Bool) : Pc := if pending then .body .loop else .schedule none .loop

/-- A call that has changed the state of a thread, for the record. -/
inductive Change where
  | block
  | wakeup
  deriving DecidableEq

/-- The memory of `sl`. `changes` records, for each thread, the calls of `sl_thd_block` by it and of
`sl_thd_wakeup` on it in the order in which they wrote its state. The program never reads it. -/
structure State (P : Type) where
  lock : CsIntern
  thds : ThdId → Option Thd
  idle : ThdId
  policy : P
  currentKthd : ThdId
  pc : ThdId → Pc
  changes : ThdId → List Change

inductive Input where
  | none
  /-- A call by the thread: `sl_thd_block`, `sl_thd_wakeup`, `sl_thd_yield` or `sl_sched_loop`. -/
  | call (b : Body)
  /-- The result of `cos_defswitch`: whether the switch was made. -/
  | switched (ok : Bool)
  /-- The result of `cos_sched_rcv`. -/
  | notified (pending : Bool) (tid : ThdId) (blocked : Bool) (cycles : ℕ)

namespace State

variable {P : Type} (σ : State P) (t : ThdId)

/-- `sl_thd_curr()->thdcap`, and `0` if there is no such thread. -/
def cap : ℕ := ((σ.thds t).map Thd.thdcap).getD 0

/-- The state of a thread, and `SL_THD_RUNNABLE` if there is no such thread. -/
def stateOf : SlState := ((σ.thds t).map Thd.state).getD .runnable

def csOwner : Prop := σ.lock.owner.toNat = σ.cap t

instance : Decidable (σ.csOwner t) := inferInstanceAs (Decidable (_ = _))

@[simps] def goto (pc : Pc) : State P := { σ with pc := Function.update σ.pc t pc }

@[simps] def setState (u : ThdId) (s : SlState) : State P :=
  { σ with thds := Function.update σ.thds u ((σ.thds u).map fun th => { th with state := s }) }

@[simps] def record (u : ThdId) (c : Change) : State P :=
  { σ with changes := Function.update σ.changes u (σ.changes u ++ [c]) }

/-- The choice of the next thread in `sl_cs_exit_schedule_nospin_arg`. -/
def pick (pol : Policy P) (dest : Option ThdId) (caller : Caller) : State P :=
  match dest with
  | some u =>
    if σ.stateOf u = .runnable then σ.goto t (.dispatch u caller)
    else
      let (p, next) := pol.schedule σ.policy
      { σ with policy := p }.goto t (.dispatch (next.getD σ.idle) caller)
  | none =>
    let (p, next) := pol.schedule σ.policy
    { σ with policy := p }.goto t (.dispatch (next.getD σ.idle) caller)

/-- Behind `sl_cs_exit`. -/
def leave : Exit → State P
  | .ret => σ.goto t .user
  | .switch target caller => σ.goto t (.switch target caller)

/-- Behind `sl_cs_enter`. -/
def enterBody (pol : Policy P) : Body → Input → Result (State P)
  | .block, .none =>
    match σ.stateOf t with
    | .woken => .ok (σ.goto t .blockClear)
    | .runnable => .ok (σ.goto t .blockSet)
    | .blocked => .error .assertion
  | .wakeup tid, .none =>
    match σ.thds tid with
    | none => .ok (σ.goto t (.exit .ret))
    | some u =>
      if u.state = .runnable then .ok (σ.goto t (.wakeMark tid))
      else .ok (σ.goto t (.wakeAssert tid))
  | .yield tid, .none =>
    if tid = 0 then .ok (σ.goto t .yieldMod)
    else if (σ.thds tid).isSome then .ok (σ.goto t (.schedule (some tid) .spin))
    else .error .assertion
  | .loop, .notified pending tid blocked cycles =>
    -- `continue` goes on at the test of `pending`
    if tid = 0 then .ok (σ.goto t (.round pending))
    else if (σ.thds tid).isNone then .error .assertion
    else if tid = σ.idle then .ok (σ.goto t (.round pending))
    else
      let p := pol.execution σ.policy tid cycles
      let p := if blocked then pol.block p tid else pol.wakeup p tid
      .ok ({ σ with policy := p }.goto t (.round pending))
  | .schedule dest caller, .none => .ok (σ.pick t pol dest caller)
  | _, _ => .error .notReady

def step (pol : Policy P) (inp : Input) : Result (State P) :=
  match σ.pc t, inp with
  | .user, .call b =>
    if (σ.thds t).isSome then
      match b with
      | .schedule _ _ => .error .notReady
      | _ => .ok (σ.goto t (.enter b))
    else .error .assertion
  | .enter b, .none =>
    if σ.lock.owner ≠ 0 then .ok (σ.goto t (.contend σ.lock b))
    else .ok (σ.goto t (.enterCas σ.lock b))
  | .enterCas cached b, .none =>
    match psCas σ.lock cached { cached with owner := BitVec.ofNat 31 (σ.cap t) } with
    | some w => .ok ({ σ with lock := w }.goto t (.body b))
    | none => .ok (σ.goto t (.enter b))
  | .contend cached b, .none =>
    if cached.owner.toNat = σ.cap t then .error .assertion
    else if cached.contention then .ok (σ.goto t (.contendSwitch cached.owner b))
    else
      match psCas σ.lock cached { cached with contention := true } with
      | some w => .ok ({ σ with lock := w }.goto t (.contendSwitch cached.owner b))
      | none => .ok (σ.goto t (.enter b))
  | .contendSwitch _ b, .switched _ => .ok (σ.goto t (.enter b))
  | .body b, inp => σ.enterBody t pol b inp
  | .blockClear, .none => .ok (((σ.setState t .runnable).record t .block).goto t (.exit .ret))
  | .blockSet, .none => .ok (((σ.setState t .blocked).record t .block).goto t .blockMod)
  | .blockMod, .none =>
    .ok ({ σ with policy := pol.block σ.policy t }.goto t (.schedule none .spin))
  | .wakeMark u, .none => .ok (((σ.setState u .woken).record u .wakeup).goto t (.exit .ret))
  | .wakeAssert u, .none => .ok ((σ.setState u .blocked).goto t (.wakeSet u))
  | .wakeSet u, .none => .ok (((σ.setState u .runnable).record u .wakeup).goto t (.wakeMod u))
  | .wakeMod u, .none =>
    .ok ({ σ with policy := pol.wakeup σ.policy u }.goto t (.schedule none .spin))
  | .yieldMod, .none =>
    .ok ({ σ with policy := pol.yield σ.policy t }.goto t (.schedule none .spin))
  | .schedule dest caller, .none =>
    if σ.csOwner t then .ok (σ.pick t pol dest caller)
    else .ok (σ.goto t (.enter (.schedule dest caller)))
  | .reschedule, .none =>
    if σ.csOwner t then .ok (σ.pick t pol none .spin)
    else .ok (σ.goto t (.enter (.schedule none .spin)))
  | .dispatch target caller, .none =>
    .ok ({ σ with currentKthd := target }.goto t (.exit (.switch target caller)))
  | .exit x, .none =>
    if σ.lock.contention then .ok (σ.goto t (.exitContend σ.lock x))
    else .ok (σ.goto t (.exitCas σ.lock x))
  | .exitCas cached x, .none =>
    match psCas σ.lock cached .free with
    | some w => .ok ({ σ with lock := w }.leave t x)
    | none => .ok (σ.goto t (.exit x))
  | .exitContend cached x, .none =>
    match psCas σ.lock cached .free with
    | some w => .ok ({ σ with lock := w }.goto t (.exitSwitch x))
    | none => .ok (σ.goto t (.exit x))
  | .exitSwitch x, .switched _ => .ok (σ.leave t x)
  | .switch _ .loop, .switched _ => .ok (σ.goto t (.enter .loop))
  | .switch _ .spin, .switched ok => .ok (σ.goto t (if ok then .user else .reschedule))
  | _, _ => .error .notReady

end State

structure Label where
  thd : ThdId
  inp : Input

def Step {P : Type} (pol : Policy P) (σ : State P) (l : Label) (τ : State P) : Prop :=
  σ.step l.thd pol l.inp = .ok τ

end Lwt.Sl
