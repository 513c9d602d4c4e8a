import Lwt.Untouched
import Lwt.Lib.Lockstep

/-! Two states that differ in what `umalloc` left in its blocks and nowhere else. A section that
reads none of that leaves them so, and goes on in the same way. -/

namespace Lwt

open Lockstep

/-- What is in the blocks that `umalloc` hands out. -/
structure Leftover where
  chan : RawChan
  buffer : ℤ → Data
  thread : RawThread

def Leftover.zero : Leftover := ⟨⟨none, 0, 0, .null⟩, fun _ => .null, ⟨.receiving, none, 0⟩⟩

section Fill

variable (m m' : Leftover)

def ChanMem.fill (mem : ChanMem) : ChanMem :=
  ⟨mem.chan.map fun _ => m.chan, mem.buffer.map fun _ => m.buffer⟩

def CreateMem.fill (mem : CreateMem) : CreateMem :=
  ⟨mem.thread.map fun _ => m.thread, mem.stack, mem.chl.fill m⟩

/-- The call, with that in all blocks it gets. -/
def Call.fill : Call → Call
  | .lwtCreate flags mem => .lwtCreate flags (mem.fill m)
  | .lwtCreateChan c mem => .lwtCreateChan c (mem.fill m)
  | .lwtChan size mem => .lwtChan size (mem.fill m)
  | a => a

def Frame.fill : Frame → Frame
  | .call a => .call (a.fill m)
  | f => f

def Next.fill : Next → Next
  | .ret d => .ret d
  | .goto fs => .goto (fs.map (Frame.fill m))
  | .schedule fs => .schedule (fs.map (Frame.fill m))

def Label.fill : Label → Label
  | .call a => .call (a.fill m)
  | .initiate k mem => .initiate k (mem.fill m)
  | l => l

@[simp] theorem ChanMem.fill_fill (mem : ChanMem) : (mem.fill m').fill m = mem.fill m := by
  simp [ChanMem.fill, Function.comp_def]

@[simp] theorem CreateMem.fill_fill (mem : CreateMem) : (mem.fill m').fill m = mem.fill m := by
  simp [CreateMem.fill, Function.comp_def]

@[simp] theorem Call.fill_fill (a : Call) : (a.fill m').fill m = a.fill m := by
  cases a <;> simp [Call.fill]

@[simp] theorem Frame.fill_fill (f : Frame) : (f.fill m').fill m = f.fill m := by
  cases f <;> simp [Frame.fill]

@[simp] theorem Label.fill_fill (l : Label) : (l.fill m').fill m = l.fill m := by
  cases l <;> simp [Label.fill]

end Fill

/-- A call without what is in the blocks it gets. -/
abbrev Call.bare : Call → Call := Call.fill .zero

abbrev Frame.bare : Frame → Frame := Frame.fill .zero

abbrev Next.bare : Next → Next := Next.fill .zero

abbrev Label.bare : Label → Label := Label.fill .zero

/-- Threads that differ in fields that nothing has been written to: the frames of calls that wait
for their memory, why and for which channel a thread sleeps that never has slept, and where the
stack of a main thread starts. -/
structure Thread.Alike (a b : Thread) : Prop where
  lwtId : b.lwtId = a.lwtId
  state : b.state = a.state
  parent : b.parent = a.parent
  messageData : b.messageData = a.messageData
  eax : b.eax = a.eax
  chl : b.chl = a.chl
  nojoin : b.nojoin = a.nojoin
  ownerKthd : b.ownerKthd = a.ownerKthd
  context : b.context.map Frame.bare = a.context.map Frame.bare
  blockFor : a.state = .blocked → b.blockFor = a.blockFor
  nowRcving : a.state = .blocked → a.blockFor = .receiving → b.nowRcving = a.nowRcving
  initSp : a.parent ≠ none → b.initSp = a.initSp

/-- Channels that differ in what is in the ring buffer and in the four fields that `__init_chan`
leaves as they are. -/
structure Chan.Alike (a b : Chan) : Prop where
  chanId : b.chanId = a.chanId
  type : b.type = a.type
  sndCnt : b.sndCnt = a.sndCnt
  receiver : b.receiver = a.receiver
  tail : b.buffer.tail = a.buffer.tail
  head : b.buffer.head = a.buffer.head
  cap : b.buffer.cap = a.buffer.cap
  size : b.size = a.size
  freed : b.freed = a.freed

inductive State.Alike (σ : State) : State → Prop
  | mk (threads : ThreadId → Thread) (chans : ChanId → Chan)
      (ht : ∀ t, (σ.threads t).Alike (threads t)) (hc : ∀ c, (σ.chans c).Alike (chans c)) :
      Alike σ { σ with threads := threads, chans := chans }

theorem Thread.Alike.refl (th : Thread) : th.Alike th :=
  ⟨rfl, rfl, rfl, rfl, rfl, rfl, rfl, rfl, rfl, fun _ => rfl, fun _ _ => rfl, fun _ => rfl⟩

/-- The fields that a fresh block keeps are not read before they are written. -/
theorem Thread.Alike.fresh (bf bf' : BlockStatus) (c c' : Option ChanId) (sp sp' : ℕ) :
    Thread.Alike { (default : Thread) with blockFor := bf, nowRcving := c, initSp := sp }
      { (default : Thread) with blockFor := bf', nowRcving := c', initSp := sp' } := by
  have hs : (default : Thread).state ≠ .blocked := by decide
  exact ⟨rfl, rfl, rfl, rfl, rfl, rfl, rfl, rfl, rfl, fun h => absurd h hs, fun h => absurd h hs,
    fun h => absurd rfl h⟩

theorem Chan.Alike.refl (ch : Chan) : ch.Alike ch := ⟨rfl, rfl, rfl, rfl, rfl, rfl, rfl, rfl, rfl⟩

namespace State.Alike

variable {σ σ' : State} (h : σ.Alike σ')

protected theorem refl (σ : State) : σ.Alike σ :=
  .mk σ.threads σ.chans (fun _ => .refl _) fun _ => .refl _

include h

theorem thread (t : ThreadId) : (σ.threads t).Alike (σ'.threads t) := by
  cases h with
  | mk threads chans ht hc => exact ht t

theorem chan (c : ChanId) : (σ.chans c).Alike (σ'.chans c) := by
  cases h with
  | mk threads chans ht hc => exact hc c

theorem kthds : σ'.kthds = σ.kthds := by cases h; rfl

theorem currentKthd : σ'.currentKthd = σ.currentKthd := by cases h; rfl

theorem lwtCounter : σ'.lwtCounter = σ.lwtCounter := by cases h; rfl

theorem nthreads : σ'.nthreads = σ.nthreads := by cases h; rfl

theorem nchans : σ'.nchans = σ.nchans := by cases h; rfl

theorem ncgrps : σ'.ncgrps = σ.ncgrps := by cases h; rfl

theorem cgrps : σ'.cgrps = σ.cgrps := by cases h; rfl

theorem queues : σ'.queues = σ.queues := by cases h; rfl

theorem chlLists : σ'.chlLists = σ.chlLists := by cases h; rfl

theorem wakeupQueues : σ'.wakeupQueues = σ.wakeupQueues := by cases h; rfl

theorem kthd : σ'.kthd = σ.kthd := by cases h; rfl

theorem lwtCurrent : σ'.lwtCurrent = σ.lwtCurrent := by cases h; rfl

theorem modThread {t : ThreadId} {f g : Thread → Thread}
    (hf : (f (σ.threads t)).Alike (g (σ'.threads t))) :
    (σ.modThread t f).Alike (σ'.modThread t g) := by
  cases h with
  | mk threads chans ht hc =>
    refine .mk (Function.update threads t (g (threads t))) chans (fun u => ?_) hc
    by_cases hu : u = t
    · subst hu
      simpa using hf
    · simpa [hu] using ht u

theorem modChan {c : ChanId} {f g : Chan → Chan} (hf : (f (σ.chans c)).Alike (g (σ'.chans c))) :
    (σ.modChan c f).Alike (σ'.modChan c g) := by
  cases h with
  | mk threads chans ht hc =>
    refine .mk threads (Function.update chans c (g (chans c))) ht fun u => ?_
    by_cases hu : u = c
    · subst hu
      simpa using hf
    · simpa [hu] using hc u

theorem modKthd (k : KthdId) (f : Kthd → Kthd) : (σ.modKthd k f).Alike (σ'.modKthd k f) := by
  cases h with
  | mk threads chans ht hc => exact .mk threads chans ht hc

theorem modCgrp (g : CgrpId) (f : Cgrp → Cgrp) : (σ.modCgrp g f).Alike (σ'.modCgrp g f) := by
  cases h with
  | mk threads chans ht hc => exact .mk threads chans ht hc

theorem listRem (t : ThreadId) : (σ.listRem t).Alike (σ'.listRem t) := by
  cases h with
  | mk threads chans ht hc => exact .mk threads chans ht hc

theorem listHeadAdd (q : Queue) (t : ThreadId) :
    (σ.listHeadAdd q t).Alike (σ'.listHeadAdd q t) := by
  cases h with
  | mk threads chans ht hc => exact .mk threads chans ht hc

theorem listHeadAppend (q : Queue) (t : ThreadId) :
    (σ.listHeadAppend q t).Alike (σ'.listHeadAppend q t) := by
  cases h with
  | mk threads chans ht hc => exact .mk threads chans ht hc

theorem setWakeupQueues (w : KthdId → List (Option ThreadId)) :
    { σ with wakeupQueues := w }.Alike { σ' with wakeupQueues := w } := by
  cases h with
  | mk threads chans ht hc => exact .mk threads chans ht hc

theorem setLwtCounter (n : ℤ) : { σ with lwtCounter := n }.Alike { σ' with lwtCounter := n } := by
  cases h with
  | mk threads chans ht hc => exact .mk threads chans ht hc

theorem setNthreads (n : ℕ) : { σ with nthreads := n }.Alike { σ' with nthreads := n } := by
  cases h with
  | mk threads chans ht hc => exact .mk threads chans ht hc

theorem setCurrentKthd (k : KthdId) :
    { σ with currentKthd := k }.Alike { σ' with currentKthd := k } := by
  cases h with
  | mk threads chans ht hc => exact .mk threads chans ht hc

theorem emit (e : Event) : (σ.emit e).Alike (σ'.emit e) := by
  cases h with
  | mk threads chans ht hc => exact .mk threads chans ht hc

theorem chan? (c : ChanId) :
    Agree (fun a b => a = σ.chans c ∧ b = σ'.chans c ∧ a.Alike b ∧ σ.Live c)
      (σ.chan? c) (σ'.chan? c) := by
  unfold State.chan?
  rw [h.nchans, (h.chan c).freed]
  split_ifs with hc hf
  · exact .error _
  · exact .error _
  · exact .ok ⟨rfl, rfl, h.chan c, not_le.mp hc, by simpa using hf⟩

theorem thread? (t : ThreadId) :
    Agree (fun a b => a = σ.threads t ∧ b = σ'.threads t ∧ a.Alike b ∧ t < σ.nthreads)
      (σ.thread? t) (σ'.thread? t) := by
  unfold State.thread?
  rw [h.nthreads]
  split_ifs with ht
  · exact .error _
  · exact .ok ⟨rfl, rfl, h.thread t, not_le.mp ht⟩

theorem cgrp? (g : CgrpId) : σ'.cgrp? g = σ.cgrp? g := by
  cases h
  rfl

theorem resumeThread (cur : ThreadId) {t : ThreadId} (hb : (σ.threads t).state = .blocked) :
    (σ.resumeThread cur t).Alike (σ'.resumeThread cur t) := by
  have ht := h.thread t
  unfold State.resumeThread ownerRunQueue
  rw [h.currentKthd, ht.blockFor hb, ht.ownerKthd, (h.thread cur).ownerKthd]
  refine ((((h.modKthd _ _).listRem t).modThread ?_).listHeadAppend _ t).emit _
  exact { ht with state := rfl, blockFor := by simp, nowRcving := by simp }

/-- A thread that goes to sleep in a receive has written for which channel. -/
theorem countBlocked (cur : ThreadId)
    (hn : (σ'.threads cur).nowRcving = (σ.threads cur).nowRcving) :
    (σ.countBlocked cur .receiving).Alike (σ'.countBlocked cur .receiving) := by
  unfold State.countBlocked
  rw [h.currentKthd]
  refine (((h.listRem cur).modKthd _ _).modThread ?_).emit _
  exact { h.thread cur with state := rfl, blockFor := fun _ => rfl, nowRcving := fun _ _ => hn }

theorem requeue (cur : ThreadId) : (σ.requeue cur).Alike (σ'.requeue cur) := by
  unfold State.requeue ownerRunQueue
  rw [(h.thread cur).state, (h.thread cur).ownerKthd]
  split_ifs
  · exact (h.listRem cur).listHeadAdd _ cur
  · exact h

theorem lwtSchedule : Agree State.Alike σ.lwtSchedule σ'.lwtSchedule := by
  have hq : σ'.queues σ'.currentRunQueue = σ.queues σ.currentRunQueue := by
    rw [h.queues, State.currentRunQueue, h.currentKthd, State.currentRunQueue]
  have hp : Agree State.Alike σ.pollWakeupQueue σ'.pollWakeupQueue := by
    cases h with
    | mk threads chans ht hc =>
      unfold pollWakeupQueue
      refine .ite Iff.rfl (fun _ => ?_) fun _ => .ok (.mk threads chans ht hc)
      cases hw : σ.wakeupQueues σ.currentKthd with
      | nil => exact .ok (.mk threads chans ht hc)
      | cons w ws => exact .error _
  unfold State.lwtSchedule
  rw [hq]
  cases σ.queues σ.currentRunQueue with
  | nil => exact .error _
  | cons t ts =>
    refine hp.bind fun τ τ' hτ => .ok ?_
    rw [hτ.currentKthd]
    refine (hτ.modThread ?_).modKthd _ _
    exact { hτ.thread t with state := rfl, blockFor := by simp, nowRcving := by simp }

/-- What is left on the return stack does not tell the states apart. -/
theorem leave (cur : ThreadId) {k k' : List Frame} (hk : k'.map Frame.bare = k.map Frame.bare)
    (d : Data) : (σ.modThread cur fun th => { th with context := k, eax := d }).Alike
      (σ'.modThread cur fun th => { th with context := k', eax := d }) :=
  h.modThread { h.thread cur with eax := rfl, context := hk }

theorem finish (cur : ThreadId) {k k' : List Frame} {n n' : Next}
    (hk : k'.map Frame.bare = k.map Frame.bare) (hn : n'.bare = n.bare) :
    Agree State.Alike (σ.finish cur k n) (σ'.finish cur k' n') := by
  have hfs {fs fs' : List Frame} (hfs : fs'.map Frame.bare = fs.map Frame.bare) :
      (fs' ++ k').map Frame.bare = (fs ++ k).map Frame.bare := by
    rw [List.map_append, List.map_append, hfs, hk]
  cases n with
  | ret d =>
    cases n' with
    | ret d' =>
      obtain rfl : d' = d := by simpa [Next.fill] using hn
      exact .ok (h.leave cur hk d')
    | _ => cases hn
  | goto fs =>
    cases n' with
    | goto fs' =>
      refine .ok (h.modThread ?_)
      exact { h.thread cur with context := hfs (by simpa [Next.fill] using hn) }
    | _ => cases hn
  | schedule fs =>
    cases n' with
    | schedule fs' => exact (h.leave cur (hfs (by simpa [Next.fill] using hn)) .null).lwtSchedule
    | _ => cases hn

theorem ownerRunQueue (cur : ThreadId) : σ'.ownerRunQueue cur = σ.ownerRunQueue cur := by
  rw [State.ownerRunQueue, (h.thread cur).ownerKthd, State.ownerRunQueue]

theorem currentRecycleQueue : σ'.currentRecycleQueue = σ.currentRecycleQueue := by
  rw [State.currentRecycleQueue, h.currentKthd, State.currentRecycleQueue]

end State.Alike

end Lwt
