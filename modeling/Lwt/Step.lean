import Lwt.Channel
import Lwt.Lib.Transition

/-! Runs of the library. User code of the running thread calls the library
whenever no activation is open; an open activation goes on at its innermost
frame; between sections the kernel may switch to another kernel thread. -/

namespace Lwt

namespace State

variable (σ : State) (cur : ThreadId)

/-- The first section of a call. -/
def call : Call → Result (State × Next)
  | .lwtCreate flags mem => do
    let (τ, t) ← σ.lwtCreate cur flags mem
    .ok (τ, .ret (.thd t))
  | .lwtCreateChan c mem => .ok (σ, .goto [.call (.lwtCreate 0 mem), .createChanRet c])
  | .lwtYield yieldTo => σ.lwtYield cur yieldTo
  | .lwtDie message => σ.lwtDie cur message
  | .lwtJoin t => σ.lwtJoin cur t
  | .lwtChan size mem => do
    let (τ, c) ← σ.lwtChan size mem
    .ok (τ, .ret (.chan c))
  | .setChanType c type => do
    let _ ← σ.chan? c
    .ok (σ.setChanType c type, .ret .null)
  | .lwtChanDeref c => σ.lwtChanDeref cur c
  | .lwtSnd c d => σ.lwtSnd cur c d
  | .lwtRcv c => σ.lwtRcv cur c
  | .lwtSndChan through sending =>
    .ok (σ, .goto [.call (.lwtSnd through (.chan sending)), .sndChanSnd])
  | .lwtRcvChan c => .ok (σ, .goto [.call (.lwtRcv c), .rcvChanRcv])
  | .lwtCgrp mem => .ok (σ.lwtCgrp cur mem)
  | .lwtCgrpAdd g c => σ.lwtCgrpAdd g c
  | .lwtCgrpRem g c => σ.lwtCgrpRem g c
  | .lwtCgrpFree g => σ.lwtCgrpFree g
  | .lwtCgrpWait g => σ.lwtCgrpWait g
  | .lwtChanMarkSet c mark => do
    let _ ← σ.chan? c
    .ok (σ.modChan c fun ch => { ch with mark := mark }, .ret .null)
  | .lwtChanMarkGet c => do
    let ch ← σ.chan? c
    .ok (σ, .ret ch.mark)
  | .lwtSndThd c t => σ.lwtSndThd cur c t
  | .lwtRcvThd c => .ok (σ, .goto [.call (.lwtRcv c), .rcvThdRcv])
  | .lwtKthdTrampline => σ.lwtKthdTrampline cur

/-- The section at a frame. The value that a nested call has returned is in `eax`. -/
def body : Frame → Result (State × Next)
  | .call a => σ.call cur a
  | .createChanRet c => σ.lwtCreateChanRet c (σ.threads cur).eax
  | .sndRet c => .ok (σ.emit (.sndDone cur c), .ret .null)
  | .rcvRet c =>
    .ok (σ.emit (.rcv cur c (σ.threads cur).messageData), .ret (σ.threads cur).messageData)
  | .syncSndWakeup c remote => σ.lwtSyncSndWakeup cur c remote
  | .syncRcvLoop c => σ.lwtSyncRcvLoop cur c
  | .syncRcvBlock c => .ok (σ.lwtSyncRcvBlock cur c)
  | .cgrpWaitLoop g => σ.lwtCgrpWaitLoop cur g
  | .dieSnd => σ.lwtDieSnd cur
  | .died => .error .notReturning
  | .joinRcv t => .ok (σ, .goto [.call (.lwtYield (some t)), .joinYield t (σ.threads cur).eax])
  | .joinYield t received => .ok (σ.emit (.join cur t received), .ret received)
  | .sndChanSnd => .ok (σ, .goto [.call (.lwtYield none), .sndChanYield (σ.threads cur).eax])
  | .sndChanYield returnValue => .ok (σ, .ret returnValue)
  | .rcvChanRcv => σ.lwtRcvChanRcv cur (σ.threads cur).eax
  | .rcvThdRcv => σ.lwtRcvThdRcv cur (σ.threads cur).eax
  | .kthdLoop => σ.lwtKthdLoop
  | .kthdBlocked => .ok (σ, .schedule [.kthdLoop])

/-- The end of a section: the running thread is left with the frames `k` below it. -/
def finish (k : List Frame) : Next → Result State
  | .ret d => .ok (σ.modThread cur fun th => { th with context := k, eax := d })
  | .goto frames => .ok (σ.saveContext cur (frames ++ k))
  -- behind `__lwt_schedule` stands the result `0` of `lwt_yield`
  | .schedule frames =>
    (σ.modThread cur fun th => { th with context := frames ++ k, eax := .null }).lwtSchedule

/-- The section at frame `f` with the frames `k` below it. -/
def exec (f : Frame) (k : List Frame) : Result State := do
  let (τ, next) ← σ.body cur f
  τ.finish cur k next

end State

/-- What can happen next: the running thread calls the library or goes on with
an open activation, the kernel switches, or a kernel thread is created with
identifier `k`. -/
inductive Label where
  | call (a : Call)
  | resume
  | switch (k : KthdId)
  | initiate (k : KthdId) (mem : CreateMem)

namespace State

/-- One step. `MAX_KTHD_NUM` is 35. -/
def step (σ : State) : Label → Result State
  | .call a =>
    match σ.lwtCurrent with
    | none => .error .notReady
    | some cur =>
      if (σ.threads cur).context = [] ∧ σ.kthd.slState ≠ .blocked then σ.exec cur (.call a) []
      else .error .notReady
  | .resume =>
    match σ.lwtCurrent with
    | none => .error .notReady
    | some cur =>
      match (σ.threads cur).context with
      | [] => .error .notReady
      | f :: k => if σ.kthd.slState ≠ .blocked then σ.exec cur f k else .error .notReady
  | .switch k =>
    if (σ.kthds k).currentThread.isSome ∧ (σ.kthds k).slState ≠ .blocked then
      .ok { σ with currentKthd := k }
    else .error .notReady
  | .initiate k mem =>
    if (σ.kthds k).currentThread = none then
      if k < 35 then σ.initiate k mem else .error .outOfBounds
    else .error .notReady

/-- The zeroed memory before the library is initialised. -/
def zero : State where
  kthds _ := default
  currentKthd := 0
  lwtCounter := 0
  chanCounter := 0
  threads _ := default
  nthreads := 0
  chans _ := default
  nchans := 0
  cgrps _ := default
  ncgrps := 0
  queues _ := []
  chlLists _ := []
  wakeupQueues _ := []
  history := []

/-- A state in which kernel thread `k`, the first one, starts to run. -/
def Boot (k : KthdId) (σ : State) : Prop :=
  ∃ mem τ, zero.step (.initiate k mem) = .ok τ ∧ τ.step (.switch k) = .ok σ

end State

/-- The step relation of the library. -/
def Step (σ : State) (l : Label) (τ : State) : Prop := σ.step l = .ok τ

abbrev Run (σ₀ : State) := Transition.Run Step σ₀

namespace State

/-- The state behind the steps `ls`, up to the first that cannot be made. -/
def after (σ : State) : List Label → State
  | [] => σ
  | l :: ls =>
    match σ.step l with
    | .ok τ => τ.after ls
    | .error _ => σ

def trace (σ : State) : List Label → List (State × Label)
  | [] => []
  | l :: ls =>
    match σ.step l with
    | .ok τ => (σ, l) :: τ.trace ls
    | .error _ => []

theorem run_trace (σ : State) (ls : List Label) : Run σ (σ.trace ls) (σ.after ls) := by
  induction ls generalizing σ with
  | nil => exact .nil
  | cons l ls ih =>
    unfold trace after
    cases h : σ.step l with
    | ok τ => exact .cons h (ih τ)
    | error e => exact .nil

/-- The step that the trace leaves a state by. -/
theorem trace_getElem? (σ : State) {ls : List Label} {i : ℕ} {l : Label} (hl : ls[i]? = some l)
    (hi : i < (σ.trace ls).length) : (σ.trace ls)[i]? = some (σ.after (ls.take i), l) := by
  induction ls generalizing σ i with
  | nil => simp at hl
  | cons l' ls ih =>
    unfold trace at hi ⊢
    cases hstep : σ.step l' with
    | error e => simp [hstep] at hi
    | ok τ =>
      cases i with
      | zero =>
        obtain rfl : l' = l := by simpa using hl
        simp [after]
      | succ i =>
        have hi : i < (τ.trace ls).length := by simpa [hstep] using hi
        have hl : ls[i]? = some l := by simpa using hl
        simpa [after, hstep] using ih τ hl hi

/-- The state behind the first `i` steps is visited. -/
theorem visited_trace_getElem? (σ : State) {ls : List Label} {i : ℕ} {l : Label}
    (hl : ls[i]? = some l) (hi : i < (σ.trace ls).length) :
    (Transition.visited (σ.trace ls) (σ.after ls))[i]? = some (σ.after (ls.take i)) :=
  Transition.visited_of_getElem? (σ.trace_getElem? hl hi)

end State

def chanMem : ChanMem := ⟨some ⟨none, 0, 0, .null⟩, some fun _ => .null⟩

def createMem : CreateMem := ⟨some ⟨.receiving, none, 0⟩, some 0, chanMem⟩

/-- The library booted on kernel thread `1`, in zeroed memory. -/
def booted : State := State.zero.after [.initiate 1 createMem, .switch 1]

theorem boot_booted : booted.Boot 1 := ⟨createMem, _, rfl, rfl⟩

end Lwt
