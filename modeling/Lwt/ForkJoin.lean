import Lwt.Fifo
import Lwt.Idle
import Lwt.Join
import Lwt.Schedule
import Lwt.Stacks

/-! Programs that use the thread functions of `lwt.c` only: they start threads, yield, die and
join. The messages in such a program are last words, and a thread sleeps in `lwt_join` until its
child has said its own, or in `lwt_die` until its parent has listened. -/

namespace Lwt

open State

variable {σ τ σ' σ₀ : State} {l : Label} {cur t u v : ThreadId} {f : Frame} {rest fs : List Frame}
  {c : ChanId} {d : Data} {n : Next} {k : KthdId} {tr : List (State × Label)}

/-- Nothing has been received from the exit channel of `t`. -/
def State.Unjoined (σ : State) (t : ThreadId) : Prop :=
  ∀ e ∈ σ.history, e.rcvd (σ.threads t).chl = none

/-- A step of a program that uses the thread functions only. `umalloc` returns blocks, that of a
channel with no group in it; the main thread does not die; a thread that can be joined is
joined once. -/
def State.ForkJoin (σ : State) : Label → Prop
  | .resume => True
  | .call (.lwtCreate _ mem) => mem.thread.isSome ∧ mem.stack.isSome ∧
      mem.chl.chan.map RawChan.cgroup = some none
  | .call (.lwtYield yieldTo) => ∀ t ∈ yieldTo, t < σ.nthreads
  | .call (.lwtDie _) => σ.lwtCurrent ≠ σ.kthd.mainThread
  | .call (.lwtJoin t) => t < σ.nthreads ∧
      ((σ.threads t).parent = σ.lwtCurrent → (σ.threads t).nojoin = false → σ.Unjoined t)
  | _ => False

instance (σ : State) (l : Label) : Decidable (σ.ForkJoin l) :=
  match l with
  | .resume => isTrue trivial
  | .call (.lwtCreate _ mem) => inferInstanceAs (Decidable (mem.thread.isSome ∧
      mem.stack.isSome ∧ mem.chl.chan.map RawChan.cgroup = some none))
  | .call (.lwtYield yieldTo) => inferInstanceAs (Decidable (∀ t ∈ yieldTo, t < σ.nthreads))
  | .call (.lwtDie _) => inferInstanceAs (Decidable (σ.lwtCurrent ≠ σ.kthd.mainThread))
  | .call (.lwtJoin t) => inferInstanceAs (Decidable (t < σ.nthreads ∧
      ((σ.threads t).parent = σ.lwtCurrent → (σ.threads t).nojoin = false →
        ∀ e ∈ σ.history, e.rcvd (σ.threads t).chl = none)))
  | .switch _ | .initiate _ _ => isFalse id
  | .call (.lwtCreateChan _ _) | .call (.lwtChan _ _) | .call (.setChanType _ _)
  | .call (.lwtChanDeref _) | .call (.lwtSnd _ _) | .call (.lwtRcv _) | .call (.lwtSndChan _ _)
  | .call (.lwtRcvChan _) | .call (.lwtCgrp _) | .call (.lwtCgrpAdd _ _)
  | .call (.lwtCgrpRem _ _) | .call (.lwtCgrpFree _) | .call (.lwtCgrpWait _)
  | .call (.lwtChanMarkSet _ _) | .call (.lwtChanMarkGet _) | .call (.lwtSndThd _ _)
  | .call (.lwtRcvThd _) | .call .lwtKthdTrampline => isFalse id

/-- The stacks of a thread of such a program, with `n` threads. -/
inductive Station (n : ℕ) : List Frame → Prop
  | outside : Station n []
  | lastWord (c : ChanId) (d : Data) : Station n [.call (.lwtSnd c d), .dieSnd]
  | sending (c : ChanId) : Station n [.sndRet c, .dieSnd]
  | sent : Station n [.dieSnd]
  | died : Station n [.died]
  | receive (c : ChanId) (v : ThreadId) (hv : v < n) :
      Station n [.call (.lwtRcv c), .joinRcv v]
  | waiting (c : ChanId) (v : ThreadId) (hv : v < n) : Station n [.rcvRet c, .joinRcv v]
  | received (v : ThreadId) (hv : v < n) : Station n [.joinRcv v]
  | yield (v : ThreadId) (d : Data) (hv : v < n) :
      Station n [.call (.lwtYield (some v)), .joinYield v d]
  | back (v : ThreadId) (d : Data) (hv : v < n) : Station n [.joinYield v d]

theorem Station.mono {n m : ℕ} (h : Station n fs) (hnm : n ≤ m) : Station m fs := by
  cases h with
  | outside => exact .outside
  | lastWord c d => exact .lastWord c d
  | sending c => exact .sending c
  | sent => exact .sent
  | died => exact .died
  | receive c v hv => exact .receive c v (hv.trans_le hnm)
  | waiting c v hv => exact .waiting c v (hv.trans_le hnm)
  | received v hv => exact .received v (hv.trans_le hnm)
  | yield v d hv => exact .yield v d (hv.trans_le hnm)
  | back v d hv => exact .back v d (hv.trans_le hnm)

namespace State

structure Hears (σ : State) (u v : ThreadId) (c : ChanId) : Prop where
  lt : v < σ.nthreads
  ne : v ≠ 0
  chl : (σ.threads v).chl = c
  parent : (σ.threads v).parent = some u

def SleepsInJoin (σ : State) (u v : ThreadId) : Prop :=
  u < σ.nthreads ∧ (σ.threads u).task.Receiving ∧
    ∃ c, (σ.threads u).context = [.rcvRet c, .joinRcv v]

def Said (σ : State) (t : ThreadId) : Prop := (σ.mailbox (σ.threads t).chl).sent ≠ []

/-- Thread `t` is behind the send of its last word. -/
def Past (σ : State) (t : ThreadId) : Prop :=
  (σ.threads t).state = .zombies ∨ (∃ c, (σ.threads t).context = [.sndRet c, .dieSnd]) ∨
    (σ.threads t).context = [.dieSnd]

/-- What holds in every state of such a program on kernel thread `k`. -/
structure Family (σ : State) (k : KthdId) : Prop where
  inPlace : InPlace σ k
  wellFramed : WellFramed σ
  wired : σ.sched.Wired
  exits : σ.Exits
  plain : ∀ c, σ.Plain c
  inOrder : ∀ c < σ.nchans, (σ.mailbox c).InOrder
  groups : σ.ncgrps = 0
  awake : ∀ k, (σ.kthds k).slState ≠ .blocked
  mainThread : (σ.kthds k).mainThread = some 0
  root : 0 < σ.nthreads ∧ (σ.threads 0).parent = none ∧ (σ.threads 0).state ≠ .zombies ∧
    .dieSnd ∉ (σ.threads 0).context
  station : ∀ t < σ.nthreads, Station σ.nthreads (σ.threads t).context
  child : ∀ t < σ.nthreads, t ≠ 0 → ∃ u < σ.nthreads, (σ.threads t).parent = some u ∧
    (σ.chans (σ.threads t).chl).receiver = some u ∧
      (σ.chans (σ.threads t).chl).cgroup = none ∧ (σ.chans (σ.threads t).chl).freed = false
  said : ∀ t < σ.nthreads, t ≠ 0 → σ.Past t → σ.Said t
  died : ∀ t < σ.nthreads, (σ.threads t).context = [.died] → (σ.threads t).state = .zombies
  receive : ∀ u c v, (σ.threads u).context = [.call (.lwtRcv c), .joinRcv v] →
    σ.lwtCurrent = some u ∧ σ.Hears u v c ∧ (σ.mailbox c).rcvd = []
  waiting : ∀ u < σ.nthreads, ∀ c v, (σ.threads u).task.Receiving →
    (σ.threads u).context = [.rcvRet c, .joinRcv v] → σ.Hears u v c ∧ ¬ σ.Said v

end State

/-- A section of such a program, and the stack it leaves its thread with. -/
inductive Passage (σ τ : State) (cur : ThreadId) : Frame → List Frame → List Frame → Prop
  | create (flags : ℤ) (mem : CreateMem) (raw : RawChan) (hraw : mem.chl.chan = some raw)
      (hg : raw.cgroup = none) : Passage σ τ cur (.call (.lwtCreate flags mem)) [] []
  | yield (yieldTo : Option ThreadId) : Passage σ τ cur (.call (.lwtYield yieldTo)) [] []
  | die (d : Data) (hmain : cur ≠ 0) : Passage σ τ cur (.call (.lwtDie d)) []
      [.call (.lwtSnd (σ.threads cur).chl d), .dieSnd]
  | refuse (v : ThreadId) : Passage σ τ cur (.call (.lwtJoin v)) [] []
  | join (v : ThreadId) (hv : v < σ.nthreads) (hp : (σ.threads v).parent = some cur)
      (hu : σ.Unjoined v) (hcur : τ.lwtCurrent = some cur) : Passage σ τ cur (.call (.lwtJoin v)) []
      [.call (.lwtRcv (σ.threads v).chl), .joinRcv v]
  | handed (d : Data) (hsnd : .snd cur (σ.threads cur).chl d ∈ τ.history) :
      Passage σ τ cur (.call (.lwtSnd (σ.threads cur).chl d)) [.dieSnd] [.dieSnd]
  | queued (d : Data) (hsnd : .snd cur (σ.threads cur).chl d ∈ τ.history) :
      Passage σ τ cur (.call (.lwtSnd (σ.threads cur).chl d)) [.dieSnd]
        [.sndRet (σ.threads cur).chl, .dieSnd]
  | taken (c : ChanId) : Passage σ τ cur (.sndRet c) [.dieSnd] [.dieSnd]
  | recycle : Passage σ τ cur .dieSnd [] [.died]
  | hear (c : ChanId) (v : ThreadId) (hv : v < σ.nthreads) :
      Passage σ τ cur (.call (.lwtRcv c)) [.joinRcv v] [.joinRcv v]
  | sleep (c : ChanId) (v : ThreadId) (hv : v < σ.nthreads)
      (hq : σ.queues (.sender c) = []) :
      Passage σ τ cur (.call (.lwtRcv c)) [.joinRcv v] [.rcvRet c, .joinRcv v]
  | woken (c : ChanId) (v : ThreadId) (hv : v < σ.nthreads) :
      Passage σ τ cur (.rcvRet c) [.joinRcv v] [.joinRcv v]
  | joined (v : ThreadId) (d : Data) (hv : v < σ.nthreads) :
      Passage σ τ cur (.joinRcv v) [] [.call (.lwtYield (some v)), .joinYield v d]
  | yieldTo (v : ThreadId) (d : Data) (hv : v < σ.nthreads) :
      Passage σ τ cur (.call (.lwtYield (some v))) [.joinYield v d] [.joinYield v d]
  | back (v : ThreadId) (d : Data) : Passage σ τ cur (.joinYield v d) [] []

section Passages

theorem passage_call {a : Call} (hF : σ.Family k) (ha : σ.ForkJoin (.call a))
    (hs : Section σ (.call a) τ cur (.call a) []) :
    Passage σ τ cur (.call a) [] (τ.threads cur).context := by
  obtain ⟨⟨σ', n⟩, hb, hfin⟩ := bind_ok hs.exec
  rw [finish_frames hfin]
  cases a with
  | lwtCreate flags mem =>
    obtain ⟨-, -, hraw⟩ := ha
    obtain ⟨raw, hraw, hg⟩ := Option.map_eq_some_iff.mp hraw
    obtain ⟨x, -, hb⟩ := bind_ok hb
    cases hb
    exact .create flags mem raw hraw hg
  | lwtYield yieldTo =>
    obtain ⟨-, -, rfl⟩ | ⟨t, -, -, ⟨-, -, rfl⟩ | ⟨-, -, -, rfl⟩⟩ := lwtYield_ok hb
    · exact .yield yieldTo
    · exact .yield yieldTo
    · exact .yield yieldTo
  | lwtDie d =>
    have hmain : cur ≠ 0 := by
      rintro rfl
      have hk : σ.currentKthd = k := hF.inPlace.placed.kthd
      refine ha (hs.current.trans ?_)
      rw [kthd, hk]
      exact hF.mainThread.symm
    cases hb
    exact .die d hmain
  | lwtJoin v =>
    obtain ⟨hv, hu⟩ := ha
    obtain ⟨th, hth, hb⟩ := bind_ok hb
    obtain ⟨rfl, -⟩ := thread?_ok hth
    split_ifs at hb with hno
    · cases hb
      exact .refuse v
    · push Not at hno
      obtain ⟨hp, hn⟩ := hno
      cases hb
      have hcur : τ.lwtCurrent = some cur := by
        cases hfin
        exact hs.current
      exact .join v hv hp (hu (hp.trans hs.current.symm) (by simpa using hn)) hcur
  | _ => exact ha.elim

theorem passage_resume (hF : σ.Family k) (hs : Section σ .resume τ cur f rest)
    (hctx : (σ.threads cur).context = f :: rest) :
    Passage σ τ cur f rest (τ.threads cur).context := by
  have hrun := hF.inPlace.running_cur hs.current
  have hstation := hF.station cur hrun.lt
  rw [hctx] at hstation
  obtain ⟨⟨σ', n⟩, hb, hfin⟩ := bind_ok hs.exec
  rw [finish_frames hfin]
  cases hstation with
  | lastWord c d =>
    obtain rfl := hF.exits.asks cur c d hctx
    have h0 := (hF.exits.mortal.chl cur hrun.lt).2
    have hne : cur ≠ 0 := by
      rintro rfl
      exact hF.root.2.2.2 (by simp [hctx])
    obtain ⟨u, -, -, hrcv, -⟩ := hF.child cur hrun.lt hne
    have hhist := (finish_fields hfin).1
    cases (lwtSnd_ok hb).2.2 with
    | sync r _ _ _ hne => exact absurd h0 hne
    | ring r σ₁ _ _ _ _ _ hne => exact absurd h0 hne
    | noReceiver _ hr => exact absurd (hrcv.symm.trans hr) (by simp)
    | handOff => exact .handed d (by simp [hhist])
    | block =>
      rw [blockThread_sending] at hhist
      exact .queued d (by simp [hhist, countBlocked])
  | sending c =>
    cases hb
    exact .taken c
  | sent =>
    cases hb
    exact .recycle
  | died => cases hb
  | receive c v hv =>
    obtain ⟨hc, -, hrcv⟩ := lwtRcv_ok hb
    have h0 : (σ.chans c).size = 0 := by
      obtain ⟨-, hh, -⟩ := hF.receive cur c v hctx
      rw [← hh.chl]
      exact (hF.exits.mortal.chl v hh.lt).2
    cases hrcv with
    | sync r ht => simp [(hF.plain c).type hc] at ht
    | ring _ _ hne | refill s _ _ _ hne => exact absurd h0 hne
    | sender => exact .hear c v hv
    | block _ _ hq => exact .sleep c v hv hq
  | waiting c v hv =>
    cases hb
    exact .woken c v hv
  | received v hv =>
    cases hb
    exact .joined v _ hv
  | yield v d hv =>
    have hb : σ.lwtYield cur (some v) = .ok (σ', n) := hb
    obtain ⟨-, -, rfl⟩ | ⟨t, -, -, ⟨-, -, rfl⟩ | ⟨-, -, -, rfl⟩⟩ := lwtYield_ok hb
    · exact .yieldTo v d hv
    · exact .yieldTo v d hv
    · exact .yieldTo v d hv
  | back v d hv =>
    cases hb
    exact .back v d

theorem State.Family.passage (hF : σ.Family k) (hl : σ.ForkJoin l) (hs : Step σ l τ) :
    ∃ cur f rest, Section σ l τ cur f rest ∧ Passage σ τ cur f rest (τ.threads cur).context := by
  cases l with
  | call a =>
    obtain ⟨cur, hsec⟩ := step_call hs
    exact ⟨cur, _, _, hsec, passage_call hF hl hsec⟩
  | resume =>
    obtain ⟨cur, f, rest, hsec⟩ := step_local hs trivial
    refine ⟨cur, f, rest, hsec, passage_resume hF hsec ?_⟩
    rcases hsec.at_ with hctx | ⟨-, hctx, -⟩
    · exact hctx
    · have hctx : (σ.threads cur).context = [] := hctx
      have hf := hsec.frame
      simp [State.frame, hsec.current, hctx] at hf
  | switch k => exact hl.elim
  | initiate k mem => exact hl.elim

variable (hT : Passage σ τ cur f rest fs)

include hT

/-- No passage makes a channel GLOBAL, makes one with slots, or touches a group. -/
theorem Passage.localUse (hs : Section σ l τ cur f rest) (hl : σ.ForkJoin l) (c : ChanId) :
    LocalUse c σ l := by
  refine ⟨⟨?_, fun g hf => ?_⟩, fun hf => ?_, fun size mem hf => ?_⟩
  · cases l with
    | call | resume => trivial
    | switch | initiate => exact hl.elim
  · obtain rfl := Option.some.inj (hs.frame.symm.trans hf)
    cases hT
  · obtain rfl := Option.some.inj (hs.frame.symm.trans hf)
    cases hT
  · obtain rfl := Option.some.inj (hs.frame.symm.trans hf)
    cases hT

/-- A channel keeps its receiver, and stays out of groups and in use. -/
theorem Passage.chan (hs : Section σ l τ cur f rest) (hc : c < σ.nchans) :
    (τ.chans c).receiver = (σ.chans c).receiver ∧ (τ.chans c).cgroup = (σ.chans c).cgroup ∧
      (τ.chans c).freed = (σ.chans c).freed := by
  have heff : ChanEffect σ cur c f (τ.chans c) := (exec_net hs.exec).chanEffect hc
  generalize τ.chans c = ch at heff
  cases heff with
  | same | traffic | mark => exact ⟨rfl, rfl, rfl⟩
  | setType _ hf | deref hf | add _ hf | rem _ hf =>
    subst hf
    cases hT
  | acquire hf =>
    rcases hf with ⟨t, rfl, -⟩ | ⟨rfl, -⟩
    · cases hT
    · cases hT

/-- The exit channel of a new thread. -/
theorem Passage.exit (hs : Section σ l τ cur f rest)
    (hf : ∃ flags mem, f = .call (.lwtCreate flags mem)) :
    (τ.chans σ.nchans).cgroup = none ∧ (τ.chans σ.nchans).freed = false := by
  obtain ⟨flags, mem, rfl⟩ := hf
  have hnet := exec_net hs.exec
  have hgoal : (τ.net.chans σ.nchans).cgroup = none ∧ (τ.net.chans σ.nchans).freed = false := by
    generalize τ.net = ν at hnet
    cases hT with
    | create _ _ raw hraw hg =>
      cases hnet with
      | same hf => exact hf.elim
      | sleep hf => rcases hf with ⟨_, hf⟩ | ⟨_, hf⟩ <;> cases hf
      | thread _ _ raw' t hraw' =>
        obtain rfl := Option.some.inj (hraw.symm.trans hraw')
        simp [initChan, hg]
  exact hgoal

end Passages

section Steps

variable (hF : σ.Family k) (hs : Section σ l τ cur f rest)

/-- A message for a thread that sleeps in the receive of the channel wakes it. -/
theorem handOff_canRun (hS : InPlace σ k) (hs : Section σ l τ cur (.call (.lwtSnd c d)) rest)
    (h0 : (σ.chans c).size = 0) (hr : (σ.chans c).receiver = some u)
    (hrcv : (σ.threads u).task.Receiving) (hn : (σ.threads u).nowRcving = some c) :
    (τ.threads u).task.CanRun := by
  have hne : u ≠ cur := by
    rintro rfl
    exact (hS.running_cur hs.current).canRun.not_receiving hrcv
  obtain ⟨⟨σ', n⟩, hb, hfin⟩ := bind_ok hs.exec
  cases (lwtSnd_ok hb).2.2 with
  | sync r _ _ _ hsize => exact absurd h0 hsize
  | noReceiver _ hr' => exact absurd (hr.symm.trans hr') (by simp)
  | handOff r _ hr' =>
    obtain rfl := Option.some.inj (hr.symm.trans hr')
    have htask : τ.sched.tasks u = { σ.sched.tasks u with state := .runnable } := by
      rw [State.finish_ret hfin, State.emit_sched, State.emit_sched, State.resumeThread_sched,
        State.modThread_sched_self (f := fun th => { th with messageData := d }) _ _ fun _ => rfl]
      simp [hne]
    have htask : (τ.threads u).task = { σ.sched.tasks u with state := .runnable } := htask
    rw [htask]
    exact .inl rfl
  | ring r σ₁ _ hr' hno | block r σ₁ _ hr' hno =>
    obtain rfl := Option.some.inj (hr.symm.trans hr')
    exact absurd ⟨hrcv, hn⟩ hno

/-- What becomes of another thread: it stays where it is, and may be woken, or it was dead and
has been started anew. -/
theorem Section.others (hS : InPlace σ k) (hs : Section σ l τ cur f rest) (hw : OwnerWaits σ l)
    (ht : t ≠ cur) (hlt : t < σ.nthreads) :
    (τ.threads t).context = (σ.threads t).context ∧
        ((τ.threads t).task.Receiving → (σ.threads t).task.Receiving) ∧
        ((τ.threads t).state = .zombies → (σ.threads t).state = .zombies) ∨
      (σ.threads t).state = .zombies ∧ (τ.threads t).context = [] ∧
        (τ.threads t).state ≠ .zombies := by
  have hother := (hS.effect hs).other hS.placed (hS.running_cur hs.current) hs.at_
    (InPlace.owner hw hs) ht hlt
  have halive {th : Task} (h : th.CanRun) : th.state ≠ .zombies := by
    rcases h with h | h <;> simp [h]
  cases hother with
  | same h =>
    refine .inl ⟨h.context, h.receiving_iff.mp, fun hz => ?_⟩
    rcases h.state with he | ⟨-, hr⟩
    · exact he.symm.trans hz
    · exact absurd hz (halive hr)
  | woken _ hc _ hr =>
    exact .inl ⟨hc, fun h => absurd h hr.not_receiving, fun hz => absurd hz (halive hr)⟩
  | started hz hc hr => exact .inr ⟨hz, hc, halive hr⟩

namespace State.Family

include hF in
/-- A thread that has not said its last word is alive. -/
theorem living_of_not_said (ht : t < σ.nthreads) (h0 : t ≠ 0) (h : ¬ σ.Said t) : σ.Living t :=
  ⟨ht, fun hz => h (hF.said t ht h0 (.inl hz))⟩

include hF hs in
/-- A living thread, and any if no thread is started, stays the instance that it was. -/
theorem ident_eq (ht : t < τ.nthreads)
    (h : σ.Living t ∨ ∀ flags mem, f ≠ .call (.lwtCreate flags mem)) :
    t < σ.nthreads ∧ (τ.threads t).ident = (σ.threads t).ident := by
  rcases hs.instance_cases hF.wired ht with ⟨hlt, hid, -⟩ | ⟨hc, flags, mem, hf⟩
  · exact ⟨hlt, hid⟩
  · rcases h with h | h
    · exact absurd h (hc.not_living hF.inPlace)
    · exact absurd hf (h flags mem)

include hF hs in
theorem hears_step (hh : σ.Hears u v c)
    (h : σ.Living v ∨ ∀ flags mem, f ≠ .call (.lwtCreate flags mem)) : τ.Hears u v c := by
  have hlt : v < τ.nthreads := hh.lt.trans_le (hF.wellFramed.effect hs).ntasks_le
  obtain ⟨-, hid⟩ := hF.ident_eq hs hlt h
  exact ⟨hlt, hh.ne, (congrArg Ident.chl hid).trans hh.chl,
    (congrArg Ident.parent hid).trans hh.parent⟩

/-- What has been sent stays sent. -/
theorem sent_ne_nil (hs : Section σ l τ cur f rest) (h : (σ.mailbox c).sent ≠ []) :
    (τ.mailbox c).sent ≠ [] := by
  obtain ⟨es, he, -⟩ := (exec_net hs.exec).history
  have he : τ.history = σ.history ++ es := he
  rw [mailbox_sent, he, List.filterMap_append]
  exact List.append_ne_nil_of_left_ne_nil h _

variable (hT : Passage σ τ cur f rest (τ.threads cur).context)

include hF hs hT in
/-- A thread comes past the send of its last word by sending it. -/
theorem past_self (hw : OwnerWaits σ l) (h : τ.Past cur) :
    σ.Past cur ∨ (τ.mailbox (σ.threads cur).chl).sent ≠ [] := by
  have hsent {d : Data} (h : .snd cur (σ.threads cur).chl d ∈ τ.history) :
      (τ.mailbox (σ.threads cur).chl).sent ≠ [] := by
    have hmem : d ∈ (τ.mailbox (σ.threads cur).chl).sent :=
      List.mem_filterMap.mpr ⟨_, h, by simp [Event.sent]⟩
    exact List.ne_nil_of_mem hmem
  have hself := (hF.inPlace.effect hs).self hF.inPlace.placed
    (hF.inPlace.running_cur hs.current) hs.at_
    (InPlace.owner hw hs)
  have hat : f = .dieSnd → rest = [] → σ.Past cur := by
    rintro rfl rfl
    exact .inr (.inr (hs.at_.resolve_right (by simp)))
  generalize hctx : (τ.threads cur).context = ctx at hT
  rcases h with hz | ⟨c, h⟩ | h
  · have hz : (τ.sched.tasks cur).state = .zombies := hz
    generalize τ.sched.tasks cur = th at hself hz
    cases hself with
    | goesOn _ _ _ _ hr => rcases hr with h | h <;> simp [h] at hz
    | sleepRcv _ _ _ _ _ hr | sleepGroup _ _ _ _ hr | sleepSnd _ _ _ _ hr => simp [hr.1] at hz
    | die hf =>
      subst hf
      cases hT
      exact .inl (hat rfl rfl)
  · rw [hctx] at h
    subst h
    cases hT with
    | queued d hsnd => exact .inr (hsent hsnd)
  · rw [hctx] at h
    subst h
    cases hT with
    | handed d hsnd => exact .inr (hsent hsnd)
    | taken c => exact .inl (.inr (.inl ⟨c, hs.at_.resolve_right (by simp)⟩))

include hF hs hT in
theorem said_step (hw : OwnerWaits σ l) (ht : t < τ.nthreads) (h0 : t ≠ 0) (h : τ.Past t) :
    τ.Said t := by
  rcases hs.instance_cases hF.wired ht with ⟨hlt, hid, -⟩ | ⟨hc, -⟩
  · have hchl : (τ.threads t).chl = (σ.threads t).chl := congrArg Ident.chl hid
    have hold (h : σ.Past t) : τ.Said t := by
      rw [Said, hchl]
      exact sent_ne_nil hs (hF.said t hlt h0 h)
    by_cases hcur : t = cur
    · subst hcur
      rcases hF.past_self hs hT hw h with h | h
      · exact hold h
      · rw [Said, hchl]
        exact h
    · rcases hs.others hF.inPlace hw hcur hlt with ⟨hctx, -, hz⟩ | ⟨-, hctx, hz⟩
      · refine hold ?_
        rw [Past, hctx] at h
        exact h.imp_left hz
      · exfalso
        rcases h with h | ⟨c, h⟩ | h
        · exact hz h
        · simp [hctx] at h
        · simp [hctx] at h
  · have hcur : t ≠ cur := by
      rintro rfl
      exact hc.not_living hF.inPlace (hF.inPlace.living_cur hs.current)
    have hctx := hc.context hcur
    exfalso
    rcases h with h | ⟨c, h⟩ | h
    · simp [hc.state] at h
    · simp [hctx] at h
    · simp [hctx] at h

include hF hs hT in
theorem died_step (hw : OwnerWaits σ l) (ht : t < τ.nthreads)
    (hctx : (τ.threads t).context = [.died]) : (τ.threads t).state = .zombies := by
  by_cases hcur : t = cur
  · subst hcur
    rw [hctx] at hT
    cases hT
    exact (dieSnd_section hF.wired hs).1
  · have hlt : t < σ.nthreads := by
      by_contra hge
      have hnil : (τ.threads t).context = [] :=
        (hF.wellFramed.effect hs).context_new (not_lt.mp hge) ht hcur
      simp [hnil] at hctx
    rcases hs.others hF.inPlace hw hcur hlt with ⟨hsame, -⟩ | ⟨-, hnil, -⟩
    · have hz := hF.died t hlt (hsame.symm.trans hctx)
      by_contra hτ
      rcases hs.living_back hF.inPlace hF.wired hw ⟨ht, hτ⟩ with hl | hc
      · exact hl.2 hz
      · exact absurd ((hc.context hcur).symm.trans hctx) (by simp)
    · simp [hnil] at hctx

include hF in
/-- Nothing has been said where a thread that is about to listen finds nobody. -/
theorem not_said_of_nil (hctx : (σ.threads u).context = [.call (.lwtRcv c), .joinRcv v])
    (hq : σ.queues (.sender c) = []) : ¬ σ.Said v := by
  obtain ⟨hcur, hh, hrcvd⟩ := hF.receive u c v hctx
  have hchan := hF.exits.mortal.chl v hh.lt
  rw [hh.chl] at hchan
  obtain ⟨hc, h0⟩ := hchan
  obtain ⟨u', -, hp, hr, -⟩ := hF.child v hh.lt hh.ne
  obtain rfl := Option.some.inj (hp.symm.trans hh.parent)
  rw [hh.chl] at hr
  have hhand : σ.hand c = [] := by
    simp only [hand, hr]
    refine if_neg fun hd => ?_
    have hd : (σ.threads u').context.head? = some (.rcvRet c) :=
      Task.rcving_eq_some_iff.mp hd.1
    simp [hctx] at hd
  have hring : (σ.mailbox c).ring = [] := by
    have hlen := ((hF.plain c).valid hc).length_contents
    rw [hF.exits.hollow c hc h0] at hlen
    exact List.length_eq_zero_iff.mp (by exact_mod_cast hlen)
  have hsent : (σ.mailbox c).sent = [] := by
    rw [(hF.inOrder c hc).sent, hrcvd, Mailbox.pending, hring, mailbox_hand, hhand,
      mailbox_senders, hq]
    rfl
  rw [Said, hh.chl, hsent]
  simp

include hF hs hT in
/-- Who has just gone to sleep in `lwt_join` has found nothing, and nothing had been received. -/
theorem waiting_self (hctx : (τ.threads cur).context = [.rcvRet c, .joinRcv v]) :
    τ.Hears cur v c ∧ ¬ τ.Said v := by
  rw [hctx] at hT
  cases hT with
  | sleep _ _ hv hq =>
    have hσ : (σ.threads cur).context = [.call (.lwtRcv c), .joinRcv v] :=
      hs.at_.resolve_right (by simp)
    have hh := (hF.receive cur c v hσ).2.1
    have hh' := hF.hears_step hs hh (.inr (by simp))
    have hsaid := hF.not_said_of_nil hσ hq
    rw [Said, hh.chl] at hsaid
    refine ⟨hh', ?_⟩
    rw [Said, hh'.chl, sent_eq hs (by simp)]
    exact hsaid

include hF hs hT in
theorem waiting_step (hw : OwnerWaits σ l) (hu : u < τ.nthreads)
    (hrcv : (τ.threads u).task.Receiving)
    (hctx : (τ.threads u).context = [.rcvRet c, .joinRcv v]) : τ.Hears u v c ∧ ¬ τ.Said v := by
  by_cases hcur : u = cur
  · subst hcur
    exact hF.waiting_self hs hT hctx
  · have hlt : u < σ.nthreads := by
      by_contra hge
      have hnil : (τ.threads u).context = [] :=
        (hF.wellFramed.effect hs).context_new (not_lt.mp hge) hu hcur
      simp [hnil] at hctx
    rcases hs.others hF.inPlace hw hcur hlt with ⟨hsame, hrcv', -⟩ | ⟨-, hnil, -⟩
    · have hσ := hsame.symm.trans hctx
      obtain ⟨hh, hsaid⟩ := hF.waiting u hlt c v (hrcv' hrcv) hσ
      have hh' := hF.hears_step hs hh (.inl (hF.living_of_not_said hh.lt hh.ne hsaid))
      refine ⟨hh', ?_⟩
      by_cases hsnd : ∃ d, f = .call (.lwtSnd c d)
      · -- the child sends, and wakes its parent
        exfalso
        obtain ⟨d, rfl⟩ := hsnd
        have hchl : c = (σ.threads cur).chl := by
          generalize (τ.threads cur).context = ctx at hT
          cases hT <;> rfl
        obtain rfl : v = cur := hF.exits.inj v hh.lt cur
          (hF.inPlace.running_cur hs.current).lt (hh.chl.trans hchl)
        obtain ⟨hc, h0⟩ := hF.exits.mortal.chl v hh.lt
        obtain ⟨u', -, hp, hr, -⟩ := hF.child v hh.lt hh.ne
        obtain rfl := Option.some.inj (hp.symm.trans hh.parent)
        rw [hh.chl] at h0 hr
        have hn : (σ.threads u').task.nowRcving = some c :=
          (hF.inPlace.placed.parked u' hlt).of_rcving (hrcv' hrcv) (Task.rcving_eq hσ)
        exact (handOff_canRun hF.inPlace hs h0 hr (hrcv' hrcv) hn).not_receiving hrcv
      · rw [Said, hh'.chl, sent_eq hs (by simpa using hsnd), ← hh.chl]
        exact hsaid
    · simp [hnil] at hctx

include hF hs hT in
theorem receive_step
    (hctx : (τ.threads u).context = [.call (.lwtRcv c), .joinRcv v]) :
    τ.lwtCurrent = some u ∧ τ.Hears u v c ∧ (τ.mailbox c).rcvd = [] := by
  by_cases hcur : u = cur
  · subst hcur
    rw [hctx] at hT
    cases hT with
    | join _ hv hp hun hcur' =>
      have h0 : v ≠ 0 := by
        rintro rfl
        exact absurd (hF.root.2.1.symm.trans hp) (by simp)
      refine ⟨hcur', hF.hears_step hs ⟨hv, h0, rfl, hp⟩ (.inr (by simp)), ?_⟩
      rw [rcvd_eq hs (by simp) (by simp) (by simp)]
      exact List.filterMap_eq_nil_iff.mpr hun
  · exfalso
    rcases (hF.wellFramed.effect hs).context_other hcur with hsame | hnil
    · have hσ : (σ.threads u).context = [.call (.lwtRcv c), .joinRcv v] := hsame.symm.trans hctx
      obtain ⟨hrun, -⟩ := hF.receive u c v hσ
      exact hcur (Option.some.inj (hrun.symm.trans hs.current))
    · exact absurd (hctx.symm.trans hnil) (by simp)

include hF hs hT in
theorem child_step (ht : t < τ.nthreads) (h0 : t ≠ 0) :
    ∃ u < τ.nthreads, (τ.threads t).parent = some u ∧
      (τ.chans (τ.threads t).chl).receiver = some u ∧
        (τ.chans (τ.threads t).chl).cgroup = none ∧ (τ.chans (τ.threads t).chl).freed = false := by
  have hle : σ.nthreads ≤ τ.nthreads := (hF.wellFramed.effect hs).ntasks_le
  rcases hs.instance_cases hF.wired ht with ⟨hlt, hid, -⟩ | ⟨hc, hf⟩
  · obtain ⟨u, hu, hp, hr, hg, hfree⟩ := hF.child t hlt h0
    obtain ⟨hr', hg', hfree'⟩ := hT.chan hs (hF.exits.mortal.chl t hlt).1
    have hchl : (τ.threads t).chl = (σ.threads t).chl := congrArg Ident.chl hid
    rw [hchl]
    exact ⟨u, hu.trans_le hle, (congrArg Ident.parent hid).trans hp, hr'.trans hr, hg'.trans hg,
      hfree'.trans hfree⟩
  · obtain ⟨hg, hfree⟩ := hT.exit hs hf
    rw [hc.chl]
    have hlt := (hF.inPlace.running_cur hs.current).lt.trans_le hle
    exact ⟨cur, hlt, hc.parent, hc.receiver, hg, hfree⟩

include hF hs hT in
theorem station_step (hw : OwnerWaits σ l) (ht : t < τ.nthreads) :
    Station τ.nthreads (τ.threads t).context := by
  have hle : σ.nthreads ≤ τ.nthreads := (hF.wellFramed.effect hs).ntasks_le
  by_cases hcur : t = cur
  · subst hcur
    generalize (τ.threads t).context = ctx at hT
    cases hT with
    | create | yield | refuse | back => exact .outside
    | die d => exact .lastWord _ d
    | join v hv => exact .receive _ v (hv.trans_le hle)
    | handed | taken => exact .sent
    | queued => exact .sending _
    | recycle => exact .died
    | hear c v hv | woken c v hv => exact .received v (hv.trans_le hle)
    | sleep c v hv => exact .waiting c v (hv.trans_le hle)
    | joined v d hv => exact .yield v d (hv.trans_le hle)
    | yieldTo v d hv => exact .back v d (hv.trans_le hle)
  · by_cases hlt : t < σ.nthreads
    · rcases hs.others hF.inPlace hw hcur hlt with ⟨hsame, -⟩ | ⟨-, hnil, -⟩
      · rw [hsame]
        exact (hF.station t hlt).mono hle
      · rw [hnil]
        exact .outside
    · have hnil : (τ.threads t).context = [] :=
        (hF.wellFramed.effect hs).context_new (not_lt.mp hlt) ht hcur
      rw [hnil]
      exact .outside

include hF hs hT in
/-- The main thread lives on and calls `lwt_die` never. -/
theorem root_step (hw : OwnerWaits σ l) :
    0 < τ.nthreads ∧ (τ.threads 0).parent = none ∧ (τ.threads 0).state ≠ .zombies ∧
      .dieSnd ∉ (τ.threads 0).context := by
  obtain ⟨h0, hp, hz, hd⟩ := hF.root
  have hlt : 0 < τ.nthreads := h0.trans_le (hF.wellFramed.effect hs).ntasks_le
  obtain ⟨-, hid⟩ := hF.ident_eq hs hlt (.inl ⟨h0, hz⟩)
  refine ⟨hlt, (congrArg Ident.parent hid).trans hp, ?_⟩
  by_cases hcur : 0 = cur
  · subst hcur
    have hrest : .dieSnd ∉ rest := fun h => hd (hs.at_.mem h)
    have hne : f ≠ .dieSnd := by
      rintro rfl
      have hctx : (σ.threads 0).context = .dieSnd :: rest := hs.at_.resolve_right (by simp)
      exact hd (by simp [hctx])
    constructor
    · by_cases hf : ∃ flags mem, f = .call (.lwtCreate flags mem)
      · obtain ⟨flags, mem, rfl⟩ := hf
        obtain ⟨t, hc⟩ := hs.creates hF.wired
        exact (hc.living (fun h => hc.not_living hF.inPlace (h ▸ ⟨h0, hz⟩)) ⟨h0, hz⟩).2
      · exact ((hs.living_iff hF.inPlace hF.wired hw (by simpa using hf)).mpr
          ⟨⟨h0, hz⟩, fun h => hne h.1⟩).2
    · generalize (τ.threads 0).context = ctx at hT
      cases hT with
      | die d hmain => exact absurd rfl hmain
      | handed | queued | taken => exact absurd (List.mem_singleton_self _) hrest
      | recycle => exact absurd rfl hne
      | _ => simp
  · rcases hs.others hF.inPlace hw hcur h0 with ⟨hsame, -, hz'⟩ | ⟨hz', -⟩
    · exact ⟨fun h => hz (hz' h), hsame ▸ hd⟩
    · exact absurd hz' hz

end State.Family

end Steps

/-- A step of such a program keeps it such. -/
theorem State.Family.step (hF : σ.Family k) (hl : σ.ForkJoin l) (hstep : Step σ l τ) :
    τ.Family k := by
  obtain ⟨cur, f, rest, hs, hT⟩ := hF.passage hl hstep
  have huse := hT.localUse hs hl
  have hw : OwnerWaits σ l := (huse 0).ordinary.2
  have hin (c : ChanId) : Lwt.InUse σ k c := ⟨hF.inPlace, hF.wellFramed, hF.plain c⟩
  refine ⟨hF.inPlace.step (huse 0).ordinary.1 hw hstep, hF.wellFramed.step hstep,
    wired_step hF.wellFramed hF.wired hstep, exits_section hs hF.exits hF.wellFramed hF.wired,
    fun c => ((hin c).step (huse c) hstep).plain,
    fun c hc => ?_, ?_, fun k' => ?_, ?_, hF.root_step hs hT hw,
    fun t ht => hF.station_step hs hT hw ht, fun t ht h0 => hF.child_step hs hT ht h0,
    fun t ht h0 h => hF.said_step hs hT hw ht h0 h,
    fun t ht hctx => hF.died_step hs hT hw ht hctx,
    fun u c v hctx => hF.receive_step hs hT hctx,
    fun u hu c v hrcv hctx => hF.waiting_step hs hT hw hu hrcv hctx⟩
  · refine (hin c).inOrder_step (huse c) (fun hf => ?_) (fun hst => ?_) hstep (hF.inOrder c) hc
    · obtain rfl := Option.some.inj (hs.frame.symm.trans hf)
      have hctx : ∃ v, (σ.threads cur).context = [.call (.lwtRcv c), .joinRcv v] := by
        generalize (τ.threads cur).context = ctx at hT
        cases hT with
        | hear _ v | sleep _ v => exact ⟨v, hs.at_.resolve_right (by simp)⟩
      obtain ⟨v, hctx⟩ := hctx
      obtain ⟨hcur, hh, -⟩ := hF.receive cur c v hctx
      obtain ⟨u, -, hp, hr, -⟩ := hF.child v hh.lt hh.ne
      obtain rfl := Option.some.inj (hp.symm.trans hh.parent)
      rw [hcur, ← hr, hh.chl]
    · obtain ⟨⟨d, hf⟩, hst⟩ := hst
      obtain rfl := Option.some.inj (hs.frame.symm.trans hf)
      exact not_stale hF.inPlace hF.groups
        (fun r => (hF.plain c).receiver r (exec_net hs.exec).snd_lt) hst
  · refine ((hF.inPlace.effect hs).ncgrps_eq fun mem hf => ?_).trans hF.groups
    subst hf
    cases hT
  · have halarm := hs.alarm (by rintro rfl; cases hT) (by rintro c remote rfl; cases hT)
    rw [halarm.slState]
    exact hF.awake k'
  · exact ((hF.wellFramed.effect hs).kthd k).1.trans hF.mainThread

theorem boot_family (hb : σ.Boot k) : σ.Family k := by
  have h := boot_ok hb
  have hnil (t : ThreadId) : (σ.threads t).context = [] := h.context t
  have hzero {t : ThreadId} (ht : t < σ.nthreads) : t = 0 := h.thread_eq ht
  refine ⟨h.inPlace, h.wellFramed, boot_wired hb, boot_exits hb, h.plain, fun c hc => h.inOrder hc,
    h.ncgrps, fun k' => ?_, by rw [h.kthd], ⟨by simp [h.nthreads], ?_, by simp [h.thread.1],
    by simp [hnil]⟩, fun t _ => hnil t ▸ .outside, fun t ht h0 => absurd (hzero ht) h0,
    fun t ht h0 => absurd (hzero ht) h0, fun t _ hctx => ?_, fun u c v hctx => ?_,
    fun u _ c v _ hctx => ?_⟩
  · by_cases hk : k' = k
    · rw [hk, h.kthd]
      decide
    · rw [boot_kthds hb hk]
      decide
  · exact (boot_ident hb).1
  · exact absurd ((hnil t).symm.trans hctx) (by simp)
  · exact absurd ((hnil u).symm.trans hctx) (by simp)
  · exact absurd ((hnil u).symm.trans hctx) (by simp)

theorem Run.family (h : Run σ₀ tr σ) (hb : σ₀.Boot k) (hl : ∀ p ∈ tr, p.1.ForkJoin p.2) :
    σ.Family k :=
  h.invariant_of (I := fun σ => σ.Family k) hl (boot_family hb) fun _ _ _ hF hl hs => hF.step hl hs

end Lwt
