import Lwt.Step

/-! The scheduler behind the library: threads that move between run queues,
recycle queues and sender queues, the counters, and the channel groups. Channels
and their contents are left out, so that a section of the library does one of a
few things to it. `Effect` lists them. -/

namespace Lwt

/-- The rest of a function behind a nested call. -/
@[simp] def Frame.Outer : Frame → Prop
  | .createChanRet _ | .dieSnd | .joinRcv _ | .joinYield _ _ | .sndChanSnd | .sndChanYield _
  | .rcvChanRcv | .rcvThdRcv => True
  | _ => False

/-- A place that control goes to from within the same activation. -/
@[simp] def Frame.Entry : Frame → Prop
  | .call _ | .syncSndWakeup _ _ | .syncRcvLoop _ | .syncRcvBlock _ | .cgrpWaitLoop _
  | .kthdLoop | .kthdBlocked => True
  | _ => False

/-- Frames that a section can put on the return stack: a place to go to, with
the rest of the function below it. -/
structure Pushed (fs : List Frame) : Prop where
  entry : ∀ fr ∈ fs.head?, fr.Entry
  outer : ∀ fr ∈ fs.tail, fr.Outer

@[simp] theorem pushed_iff {fs : List Frame} :
    Pushed fs ↔ (∀ fr ∈ fs.head?, fr.Entry) ∧ ∀ fr ∈ fs.tail, fr.Outer :=
  ⟨fun h => ⟨h.entry, h.outer⟩, fun h => ⟨h.1, h.2⟩⟩

theorem Pushed.nil : Pushed [] := ⟨by simp, by simp⟩

/-- What the scheduler knows of a thread. -/
structure Task where
  state : Status
  blockFor : BlockStatus
  nowRcving : Option ChanId
  context : List Frame
  ownerKthd : KthdId
  deriving Inhabited

namespace Task

def CanRun (th : Task) : Prop := th.state = .runnable ∨ th.state = .running

def Receiving (th : Task) : Prop := th.state = .blocked ∧ th.blockFor = .receiving

def Sending (th : Task) : Prop := th.state = .blocked ∧ th.blockFor = .sending

instance (th : Task) : Decidable th.CanRun := inferInstanceAs (Decidable (_ ∨ _))

instance (th : Task) : Decidable th.Receiving := inferInstanceAs (Decidable (_ ∧ _))

instance (th : Task) : Decidable th.Sending := inferInstanceAs (Decidable (_ ∧ _))

end Task

/-- The scheduler's part of the state. -/
@[ext]
structure Sched where
  kthds : KthdId → Kthd
  currentKthd : KthdId
  tasks : ThreadId → Task
  ntasks : ℕ
  queues : Rings Queue ThreadId
  cgrps : CgrpId → Cgrp
  ncgrps : ℕ

def Thread.task (th : Thread) : Task where
  state := th.state
  blockFor := th.blockFor
  nowRcving := th.nowRcving
  context := th.context
  ownerKthd := th.ownerKthd

@[simp] theorem Thread.task_state (th : Thread) : th.task.state = th.state := rfl

@[simp] theorem Thread.task_blockFor (th : Thread) : th.task.blockFor = th.blockFor := rfl

@[simp] theorem Thread.task_nowRcving (th : Thread) : th.task.nowRcving = th.nowRcving := rfl

@[simp] theorem Thread.task_context (th : Thread) : th.task.context = th.context := rfl

@[simp] theorem Thread.task_ownerKthd (th : Thread) : th.task.ownerKthd = th.ownerKthd := rfl

@[simps] def State.sched (σ : State) : Sched where
  kthds := σ.kthds
  currentKthd := σ.currentKthd
  tasks t := (σ.threads t).task
  ntasks := σ.nthreads
  queues := σ.queues
  cgrps := σ.cgrps
  ncgrps := σ.ncgrps

namespace Sched

variable (s : Sched) (cur : ThreadId)

@[simps] def modTask (t : ThreadId) (f : Task → Task) : Sched :=
  { s with tasks := Function.update s.tasks t (f (s.tasks t)) }

@[simps] def modKthd (k : KthdId) (f : Kthd → Kthd) : Sched :=
  { s with kthds := Function.update s.kthds k (f (s.kthds k)) }

@[simps] def modCgrp (g : CgrpId) (f : Cgrp → Cgrp) : Sched :=
  { s with cgrps := Function.update s.cgrps g (f (s.cgrps g)) }

@[simps] def moveLast (q : Queue) (t : ThreadId) : Sched :=
  { s with queues := (s.queues.rem t).add q t }

@[simps] def moveBeforeLast (q : Queue) (t : ThreadId) : Sched :=
  { s with queues := (s.queues.rem t).append q t }

/-- The running thread leaves the activation it is in for `ctx`. -/
@[simps!] def leave (ctx : List Frame) : Sched :=
  s.modTask cur fun th => { th with context := ctx }

section Leave

variable (ctx : List Frame) (t : ThreadId)

/-- Leaving touches nothing of a thread but its frames. -/
theorem leave_task : ((s.leave cur ctx).tasks t) =
    { s.tasks t with context := if t = cur then ctx else (s.tasks t).context } := by
  by_cases h : t = cur
  · subst h
    simp
  · simp [h]

@[simp] theorem leave_state : ((s.leave cur ctx).tasks t).state = (s.tasks t).state := by
  rw [leave_task]

@[simp] theorem leave_blockFor : ((s.leave cur ctx).tasks t).blockFor = (s.tasks t).blockFor := by
  rw [leave_task]

@[simp] theorem leave_nowRcving :
    ((s.leave cur ctx).tasks t).nowRcving = (s.tasks t).nowRcving := by
  rw [leave_task]

@[simp] theorem leave_ownerKthd :
    ((s.leave cur ctx).tasks t).ownerKthd = (s.tasks t).ownerKthd := by
  rw [leave_task]

@[simp] theorem leave_canRun : ((s.leave cur ctx).tasks t).CanRun ↔ (s.tasks t).CanRun := by
  simp only [Task.CanRun, leave_state]

@[simp] theorem leave_receiving :
    ((s.leave cur ctx).tasks t).Receiving ↔ (s.tasks t).Receiving := by
  simp only [Task.Receiving, leave_state, leave_blockFor]

@[simp] theorem leave_sending : ((s.leave cur ctx).tasks t).Sending ↔ (s.tasks t).Sending := by
  simp only [Task.Sending, leave_state, leave_blockFor]

end Leave

@[simps!] def uncount (bf : BlockStatus) : Sched :=
  s.modKthd s.currentKthd fun kt =>
    { kt with
      nrcving := kt.nrcving - if bf = .receiving then 1 else 0
      nsnding := kt.nsnding - if bf = .sending then 1 else 0
      blockCounter := kt.blockCounter - 1 }

@[simps!] def count (bf : BlockStatus) : Sched :=
  s.modKthd s.currentKthd fun kt =>
    { kt with
      nrcving := kt.nrcving + if bf = .receiving then 1 else 0
      nsnding := kt.nsnding + if bf = .sending then 1 else 0
      blockCounter := kt.blockCounter + 1 }

/-- `__resume_thread`. -/
@[simps!] def wake (t : ThreadId) : Sched :=
  (((s.uncount (s.tasks t).blockFor).modTask t fun th =>
    { th with state := .runnable })).moveBeforeLast (.run (s.tasks cur).ownerKthd) t

/-- The running thread falls asleep at the frames `ctx`, receiving. -/
@[simps] def sleepRcv (rcving : Option ChanId) (ctx : List Frame) : Sched :=
  { (s.count .receiving).modTask cur fun th =>
      { th with
        state := .blocked
        blockFor := .receiving
        nowRcving := rcving
        context := ctx } with
    queues := s.queues.rem cur }

/-- The running thread falls asleep at the frames `ctx`, sending on `c`. -/
@[simps!] def sleepSnd (c : ChanId) (ctx : List Frame) : Sched :=
  ((s.count .sending).modTask cur fun th =>
    { th with state := .blocked, blockFor := .sending, context := ctx }).moveLast (.sender c) cur

/-- The running thread dies. -/
@[simps!] def die (ctx : List Frame) : Sched :=
  (((s.modTask cur fun th => { th with state := .zombies, context := ctx })).modKthd s.currentKthd
    fun kt => { kt with zombieCounter := kt.zombieCounter - 1 }).moveLast
      (.recycle s.currentKthd) cur

/-- A thread starts in structure `t`, whose leftovers are `th`. -/
@[simps!] def spawn (t : ThreadId) (th : Task) : Sched :=
  { s.modTask t fun _ =>
    { th with state := .running, context := [], ownerKthd := s.currentKthd } with
    queues := s.queues.add (.run s.currentKthd) t }

@[simps!] def run (t : ThreadId) : Sched :=
  (s.modTask t fun th => { th with state := .running }).modKthd s.currentKthd fun kt =>
    { kt with currentThread := some t }

/-- `__lwt_schedule`. -/
def Dispatch (s' : Sched) : Prop :=
  ∃ t rest, s.queues (.run s.currentKthd) = t :: rest ∧ s' = s.run t

/-- Why a section that starts at frame `f` resumes thread `t`. -/
inductive Wakes (f : Frame) (t : ThreadId) : Prop
  /-- `t` takes a message from the hand of its sender. -/
  | handOff (c : ChanId) (d : Data) (hf : f = .call (.lwtSnd c d)) (hlt : t < s.ntasks)
      (ht : (s.tasks t).Receiving) (hc : (s.tasks t).nowRcving = some c)
  /-- `t` is the first waiting sender. -/
  | sender (c : ChanId) (hf : f = .call (.lwtRcv c)) (ht : (s.queues (.sender c)).head? = some t)
  /-- `t` owns a group that sleeps. -/
  | group (c : ChanId) (d : Data) (g : CgrpId) (hf : f = .call (.lwtSnd c d)) (hg : g < s.ncgrps)
      (hb : (s.cgrps g).blocked = true) (ht : (s.cgrps g).owner = t)

/-- A receive that falls asleep, with the frame it is left at. -/
inductive SleepsAt (f : Frame) : Option ChanId → Frame → Prop
  | rcv (c : ChanId) (hf : f = .call (.lwtRcv c)) : SleepsAt f (some c) (.rcvRet c)
  | sync (c : ChanId) (hf : f = .syncRcvBlock c) : SleepsAt f (some c) (.syncRcvLoop c)

/-- What a section of the running thread that starts at frame `f`, with the
frames `k` below it, does to the scheduler, and whether `__lwt_schedule` follows. -/
inductive Act (f : Frame) (k : List Frame) : Bool → Sched → Prop
  /-- No thread moves. -/
  | quiet (fs : List Frame) (hf : ∀ g, f ≠ .cgrpWaitLoop g) (hpush : Pushed fs)
      (hfs : ∀ g, .cgrpWaitLoop g ∈ fs → f = .call (.lwtCgrpWait g) ∧ g < s.ncgrps) :
      Act f k false (s.leave cur (fs ++ k))
  | lastWord (fs : List Frame) (hf : ∃ d, f = .call (.lwtDie d)) (hpush : Pushed fs)
      (hfs : ∀ g, .cgrpWaitLoop g ∉ fs) :
      Act f k false ((s.modKthd s.currentKthd fun kt =>
        { kt with zombieCounter := kt.zombieCounter + 1 }).leave cur (fs ++ k))
  | slThdBlock (st : SlState) (hf : f = .kthdLoop) :
      Act f k false ((s.modKthd s.currentKthd fun kt => { kt with slState := st }).leave cur
        ([.kthdBlocked] ++ k))
  | wake (t : ThreadId) (hw : s.Wakes f t) : Act f k false ((s.wake cur t).leave cur k)
  | recycle (t : ThreadId) (fl : ℤ) (mem : CreateMem) (hf : f = .call (.lwtCreate fl mem))
      (ht : (s.queues (.recycle s.currentKthd)).head? = some t) :
      Act f k false (({ s with queues := s.queues.rem t }.spawn t (s.tasks t)).leave cur k)
  | create (th : Task) (fl : ℤ) (mem : CreateMem) (hf : f = .call (.lwtCreate fl mem)) :
      Act f k false ({ s.spawn s.ntasks th with ntasks := s.ntasks + 1 }.leave cur k)
  | newGroup (mem : Bool) (hf : f = .call (.lwtCgrp mem)) :
      Act f k false ({ s.modCgrp s.ncgrps fun _ => ⟨cur, false, false⟩ with
        ncgrps := s.ncgrps + 1 }.leave cur k)
  | freeGroup (g : CgrpId) (hf : f = .call (.lwtCgrpFree g)) :
      Act f k false ((s.modCgrp g fun gr => { gr with freed := true }).leave cur k)
  | waitDone (g : CgrpId) (hf : f = .cgrpWaitLoop g) :
      Act f k false ((s.modCgrp g fun gr => { gr with blocked := false }).leave cur k)
  | adopt (t : ThreadId) (hf : f = .rcvThdRcv) (ht : t < s.ntasks) :
      Act f k false ((s.modTask t fun th => { th with ownerKthd := s.currentKthd }).leave cur k)
  | adoptMove (t : ThreadId) (hf : f = .rcvThdRcv) (ht : t < s.ntasks)
      (hr : (s.tasks t).state = .runnable) :
      Act f k false (((s.modTask t fun th => { th with ownerKthd := s.currentKthd }).moveBeforeLast
        (.run ((s.modTask t fun th => { th with ownerKthd := s.currentKthd }).tasks cur).ownerKthd)
        t).leave cur k)
  | yield (hf : f = .call (.lwtYield none)) (hr : (s.tasks cur).CanRun) :
      Act f k true ((s.leave cur k).moveLast (.run (s.tasks cur).ownerKthd) cur)
  | yieldTo (t : ThreadId) (hf : f = .call (.lwtYield (some t))) (ht : t < s.ntasks)
      (hr : (s.tasks t).CanRun) :
      Act f k true ((s.leave cur k).moveBeforeLast (.run (s.tasks cur).ownerKthd) t)
  | idle (fs : List Frame) (hf : ∀ g, f ≠ .cgrpWaitLoop g) (hpush : Pushed fs)
      (hfs : ∀ g, .cgrpWaitLoop g ∉ fs) (hr : f = .kthdBlocked ∨ ¬ (s.tasks cur).CanRun) :
      Act f k true (s.leave cur (fs ++ k))
  | sleepRcv (rcving : Option ChanId) (fr : Frame) (hf : SleepsAt f rcving fr) :
      Act f k true (s.sleepRcv cur rcving (fr :: k))
  | sleepGroup (g : CgrpId) (hf : f = .cgrpWaitLoop g) :
      Act f k true ((s.modCgrp g fun gr => { gr with blocked := true }).sleepRcv cur
        (s.tasks cur).nowRcving (.cgrpWaitLoop g :: k))
  | sleepSnd (c : ChanId) (d : Data) (hf : f = .call (.lwtSnd c d)) :
      Act f k true (s.sleepSnd cur c (.sndRet c :: k))
  | wakeSleepSnd (t : ThreadId) (c : ChanId) (d : Data) (hf : f = .call (.lwtSnd c d))
      (hw : s.Wakes f t) : Act f k true ((s.wake cur t).sleepSnd cur c (.sndRet c :: k))
  | die (hf : f = .dieSnd) : Act f k true (s.die cur (.died :: k))

/-- A section, with the dispatch at its end if there is one. -/
inductive Effect (f : Frame) (k : List Frame) : Sched → Prop
  | stay {s' : Sched} (h : s.Act cur f k false s') : Effect f k s'
  | switch {s₁ s' : Sched} (h : s.Act cur f k true s₁) (hd : s₁.Dispatch s') : Effect f k s'

end Sched

end Lwt
