import Lwt.Calls
import Lwt.Net
import Lwt.Tasks

/-! Steps as sections, and the runs of a single kernel thread: their invariant,
and that it holds in every state that such a run visits. -/

namespace Lwt

variable {σ τ σ₀ : State} {l : Label} {cur : ThreadId} {f : Frame} {rest : List Frame}

/-- A step that the running kernel thread makes. -/
def Label.Local : Label → Prop
  | .call _ | .resume => True
  | _ => False

/-- Step `l` of `σ` is the section of thread `cur` at frame `f` with the frames
`rest` below, and leads to `τ`. -/
structure Section (σ : State) (l : Label) (τ : State) (cur : ThreadId) (f : Frame)
    (rest : List Frame) : Prop where
  current : σ.lwtCurrent = some cur
  frame : σ.frame l = some f
  at_ : σ.sched.At cur f rest
  exec : σ.exec cur f rest = .ok τ

/-- A step is a section, a switch of the kernel or a new kernel thread. -/
theorem step_cases (h : Step σ l τ) : (∃ cur f rest, Section σ l τ cur f rest) ∨
    (∃ k, l = .switch k ∧ τ = { σ with currentKthd := k }) ∨
    ∃ k mem, l = .initiate k mem ∧ (σ.kthds k).currentThread = none ∧ σ.initiate k mem = .ok τ := by
  cases l with
  | call a =>
    simp only [Step, State.step] at h
    split at h
    · cases h
    · rename_i cur hcur
      split_ifs at h with hctx
      exact .inl ⟨cur, .call a, [], hcur, rfl, .inr ⟨⟨a, rfl⟩, hctx.1, rfl⟩, h⟩
  | resume =>
    simp only [Step, State.step] at h
    split at h
    · cases h
    · rename_i cur hcur
      split at h
      · cases h
      · rename_i f k hctx
        split_ifs at h
        exact .inl ⟨cur, f, k, hcur, by simp [State.frame, hcur, hctx], .inl hctx, h⟩
  | switch k =>
    simp only [Step, State.step] at h
    split_ifs at h
    cases h
    exact .inr (.inl ⟨k, rfl, rfl⟩)
  | initiate k mem =>
    simp only [Step, State.step] at h
    split_ifs at h with hk
    exact .inr (.inr ⟨k, mem, rfl, hk, h⟩)

theorem step_local (h : Step σ l τ) (hl : l.Local) : ∃ cur f rest, Section σ l τ cur f rest := by
  obtain h | ⟨k, rfl, -⟩ | ⟨k, mem, rfl, -⟩ := step_cases h
  · exact h
  · exact hl.elim
  · exact hl.elim

/-- A wait on a group is made by its owner. -/
def OwnerWaits (σ : State) (l : Label) : Prop :=
  ∀ g, σ.frame l = some (.call (.lwtCgrpWait g)) → σ.lwtCurrent = some (σ.cgrps g).owner

instance (l : Label) : Decidable l.Local :=
  match l with
  | .call _ | .resume => isTrue trivial
  | .switch _ | .initiate _ _ => isFalse id

instance (σ : State) (l : Label) : Decidable (OwnerWaits σ l) :=
  decidable_of_iff _ (forall_frame_iff Frame.waitsOn_eq_some)

/-- What holds whenever kernel thread `k`, the only one, is between two sections. -/
structure InPlace (σ : State) (k : KthdId) : Prop where
  placed : σ.sched.Placed k
  running : ∃ cur, σ.sched.Running k cur
  fresh : ∀ c, σ.nchans ≤ c → σ.queues (.sender c) = []

section Boot

variable {k : KthdId}

structure Booted (σ : State) (k : KthdId) : Prop where
  currentKthd : σ.currentKthd = k
  kthd : σ.kthds k = { (default : Kthd) with currentThread := some 0, mainThread := some 0 }
  nthreads : σ.nthreads = 1
  thread : (σ.threads 0).state = .running ∧ (σ.threads 0).context = [] ∧
    (σ.threads 0).ownerKthd = k ∧ (σ.threads 0).messageData = .null
  others : ∀ t, t ≠ 0 → σ.threads t = default
  nchans : σ.nchans = 1
  chan : (σ.chans 0).buffer.tail = 0 ∧ (σ.chans 0).buffer.head = 0 ∧ (σ.chans 0).size = 0 ∧
    (σ.chans 0).type = .local ∧ (σ.chans 0).sndCnt = 1 ∧ (σ.chans 0).freed = false
  receiver : ∀ r, (σ.chans 0).receiver = some r → r = 0
  ncgrps : σ.ncgrps = 0
  queues : σ.queues = Function.update (fun _ => []) (.run k) [0]
  chlLists : σ.chlLists = fun _ => []
  wakeupQueues : σ.wakeupQueues = fun _ => []
  history : σ.history = [.chan (σ.chans 0).receiver 0, .acquire 0 0]

theorem boot_ok (h : σ.Boot k) : Booted σ k := by
  obtain ⟨mem, τ, hi, hs⟩ := h
  simp only [State.step] at hi
  split_ifs at hi
  obtain ⟨th, ch, h1, h2, h3, h4, h5, h6, h7, h8, h9, h10, h11, rfl⟩ := State.initiate_ok hi
  simp only [State.step] at hs
  split_ifs at hs
  cases hs
  refine ⟨rfl, ?_, rfl, ?_, fun t ht => ?_, rfl, ?_, fun r hr => ?_, rfl, ?_, rfl, ?_, ?_⟩
  · simp [State.zero]
    exact ⟨rfl, rfl, rfl, rfl, rfl, rfl⟩
  · simp [State.zero, h1, h2, h3, h4]
  · simp [State.zero, ht]
  · simp [State.zero, h5, h6, h7, h8, h9, h10]
  · replace hr : ch.receiver = some r := by simpa [State.zero] using hr
    rw [h11] at hr
    by_cases hk : 0 = k
    · simpa [State.lwtCurrent, State.kthd, State.zero, hk] using hr.symm
    · simp [State.lwtCurrent, State.kthd, State.zero, hk] at hr
      cases hr
  · funext q
    simp only [Rings.clear, Rings.append, State.zero]
    by_cases hq : q = .run k
    · subst hq
      simp [Rings.beforeLast]
    · simp [hq]
  · funext k'
    by_cases hk : k' = k
    · subst hk
      simp
    · simp [hk, State.zero]
  · simp [State.zero]

section Booted

variable (h : Booted σ k)
include h

/-- No thread is inside a function of the library. -/
theorem Booted.context (t : ThreadId) : (σ.threads t).context = [] := by
  by_cases ht : t = 0
  · rw [ht]
    exact h.thread.2.1
  · rw [h.others t ht]
    rfl

theorem Booted.thread_eq {t : ThreadId} (ht : t < σ.nthreads) : t = 0 := by
  rw [h.nthreads] at ht
  exact Nat.lt_one_iff.mp ht

theorem Booted.chan_eq {c : ChanId} (hc : c < σ.nchans) : c = 0 := by
  rw [h.nchans] at hc
  exact Nat.lt_one_iff.mp hc

end Booted

theorem Booted.placed (h : Booted σ k) : σ.sched.Placed k := by
  obtain ⟨hs, hctx, hown, -⟩ := h.thread
  have hrun : (σ.sched.tasks 0).CanRun := .inr hs
  have hzero : ∀ t < σ.sched.ntasks, t = 0 := by
    intro t ht
    rw [State.sched_ntasks, h.nthreads] at ht
    omega
  have hg : ∀ g, ¬ g < σ.sched.ncgrps := by
    intro g hg
    rw [State.sched_ncgrps, h.ncgrps] at hg
    omega
  refine ⟨h.currentKthd, ?_, ⟨fun q => ?_, fun q t => ?_⟩, ?_, ?_, fun g hlt => absurd hlt (hg g),
    fun g hlt => absurd hlt (hg g), ?_⟩
  · intro t ht
    rw [hzero t ht]
    exact hown
  · by_cases hq : q = .run k
    · subst hq
      simp [h.queues]
    · simp [h.queues, hq]
  · by_cases ht : t < σ.sched.ntasks
    · rw [Sched.Placed.homeOf_of_lt _ ht, hzero t ht, hrun.home]
      by_cases hq : q = .run k
      · subst hq
        simp [h.queues]
      · simp [h.queues, hq, Ne.symm hq]
    · have ht0 : t ≠ 0 := by
        rintro rfl
        exact ht (by simp [h.nthreads])
      have hnone : Sched.homeOf k σ.sched.tasks σ.sched.ntasks t = none := if_neg ht
      rw [hnone]
      by_cases hq : q = .run k
      · subst hq
        simp [h.queues, ht0]
      · simp [h.queues, hq]
  · intro t ht
    rw [hzero t ht]
    exact hrun.parked
  · intro t ht g hg
    rw [hzero t ht] at hg
    simp [hctx] at hg
  · intro t ht g hr
    rw [hzero t ht] at hr
    exact absurd hr hrun.not_receiving

theorem Booted.inPlace (h : Booted σ k) : InPlace σ k where
  placed := h.placed
  running := ⟨0, by simp [h.kthd], by simp [h.nthreads], .inr h.thread.1⟩
  fresh c _ := by simp [h.queues]

end Boot

namespace InPlace

variable {k : KthdId}

theorem running_cur (h : InPlace σ k) (hcur : σ.lwtCurrent = some cur) : σ.sched.Running k cur := by
  obtain ⟨u, hu⟩ := h.running
  have hk : σ.currentKthd = k := h.placed.kthd
  have : some u = some cur := by
    rw [← hu.current, ← hcur, State.lwtCurrent, State.kthd, hk]
    rfl
  exact Option.some.inj this ▸ hu

theorem owner (hw : OwnerWaits σ l) (hs : Section σ l τ cur f rest) (g : CgrpId)
    (hf : f = .call (.lwtCgrpWait g)) : (σ.sched.cgrps g).owner = cur := by
  have := hw g (hf ▸ hs.frame)
  rw [hs.current] at this
  exact (Option.some.inj this).symm

theorem effect (h : InPlace σ k) (hs : Section σ l τ cur f rest) :
    σ.sched.Effect cur f rest τ.sched :=
  State.exec_effect (h.fresh _ le_rfl) hs.exec

/-- The threads are placed before the dispatch at the end of a blocking send. -/
theorem sleepSnd_placed {σ₁ : State} {c : ChanId} {d : Data} (h : InPlace σ k)
    (hs : Section σ l τ cur (.call (.lwtSnd c d)) rest)
    (hw : State.WakeGroup (σ.modChan c fun ch => { ch with ready := 1 }) cur (σ.chans c).cgroup
      σ₁) : (σ₁.sched.sleepSnd cur c (.sndRet c :: rest)).Placed k := by
  have hrun := h.running_cur hs.current
  rcases hw.sched (d := d) with hs₁ | ⟨t, ht, hs₁⟩ <;> rw [hs₁]
  · exact ((Sched.Act.sleepSnd c d rfl).placed h.placed hrun hs.at_ (by simp)).1
  · exact ((Sched.Act.wakeSleepSnd t c d rfl ht).placed h.placed hrun hs.at_ (by simp)).1

/-- A step keeps the threads in place. -/
theorem step (h : InPlace σ k) (hl : l.Local) (hw : OwnerWaits σ l) (hs : Step σ l τ) :
    InPlace τ k := by
  obtain ⟨cur, f, rest, hs⟩ := step_local hs hl
  have hrun := h.running_cur hs.current
  obtain ⟨hp, hrun'⟩ := (h.effect hs).placed h.placed hrun hs.at_ (owner hw hs)
  have hnet := State.exec_net hs.exec
  refine ⟨hp, hrun', fun c hc => ?_⟩
  have hc' : σ.nchans ≤ c := hnet.nchans_le.trans hc
  refine ((h.effect hs).sender_eq h.placed hrun ?_ ?_).trans (h.fresh c hc')
  · rintro d rfl
    exact absurd hc' (not_le.mpr hnet.snd_lt)
  · rintro rfl
    exact absurd hc' (not_le.mpr hnet.rcv_lt)

end InPlace

/-- A step of a run of one kernel thread whose groups are waited on by their
owners only. -/
def Ordinary (σ : State) (l : Label) : Prop := l.Local ∧ OwnerWaits σ l

instance (σ : State) (l : Label) : Decidable (Ordinary σ l) := inferInstanceAs (Decidable (_ ∧ _))

theorem Run.inPlace {k : KthdId} {tr : List (State × Label)} (h : Run σ₀ tr σ) (hb : σ₀.Boot k)
    (hC : ∀ p ∈ tr, Ordinary p.1 p.2) : InPlace σ k :=
  h.invariant_of (I := fun σ => InPlace σ k) (C := Ordinary) hC (boot_ok hb).inPlace
    fun _ _ _ hs hC hstep => hs.step hC.1 hC.2 hstep

/-- Every thread that exists is linked once, and where its state says; the
running thread is on the run queue. -/
structure State.Linked (σ : State) (k : KthdId) : Prop where
  runQueue : ∀ t < σ.nthreads, (σ.threads t).state = .runnable ∨ (σ.threads t).state = .running ↔
    t ∈ σ.queues (.run k)
  recycleQueue : ∀ t < σ.nthreads, (σ.threads t).state = .zombies ↔ t ∈ σ.queues (.recycle k)
  senderQueue : ∀ t < σ.nthreads,
    (σ.threads t).state = .blocked ∧ (σ.threads t).blockFor = .sending ↔
      ∃! c, t ∈ σ.queues (.sender c)
  noQueue : ∀ t < σ.nthreads,
    (σ.threads t).state = .blocked ∧ (σ.threads t).blockFor = .receiving ↔ ∀ q, t ∉ σ.queues q
  once : ∀ q, (σ.queues q).Nodup
  unique : ∀ t q q', t ∈ σ.queues q → t ∈ σ.queues q' → q = q'
  current : ∃ cur < σ.nthreads, σ.lwtCurrent = some cur ∧ cur ∈ σ.queues (.run k) ∧
    ((σ.threads cur).state = .runnable ∨ (σ.threads cur).state = .running)

theorem InPlace.linked {k : KthdId} (h : InPlace σ k) : σ.Linked k := by
  obtain ⟨hp, ⟨cur, hrun⟩, -⟩ := h
  have hk : σ.currentKthd = k := hp.kthd
  refine ⟨fun t ht => ?_, fun t ht => ?_, fun t ht => ?_, fun t ht => ?_, hp.homed.nodup,
    fun t q q' => hp.homed.unique,
    cur, hrun.lt, ?_, hp.mem_run_iff.mpr ⟨hrun.lt, hrun.canRun⟩, hrun.canRun⟩
  · exact ⟨fun h => hp.mem_run_iff.mpr ⟨ht, h⟩, fun h => (hp.mem_run_iff.mp h).2⟩
  · exact ⟨fun h => hp.mem_recycle_iff.mpr ⟨ht, h⟩, fun h => (hp.mem_recycle_iff.mp h).2⟩
  · constructor
    · intro hs
      have hs : (σ.sched.tasks t).Sending := hs
      obtain ⟨c, fs, hctx⟩ := (hp.parked t ht).sending hs
      refine ⟨c, (hp.mem_iff ht).mpr (hs.home hctx), fun c' hc' => ?_⟩
      obtain ⟨-, -, fs', hctx'⟩ := hp.mem_sender hc'
      rw [hctx] at hctx'
      cases hctx'
      rfl
    · rintro ⟨c, hc, -⟩
      exact (hp.mem_sender hc).2.1
  · constructor
    · intro hr q hq
      have hr : (σ.sched.tasks t).Receiving := hr
      have hq : (σ.sched.tasks t).home k = some q := (hp.mem_iff ht).mp hq
      rw [hr.home] at hq
      cases hq
    · intro hnone
      refine Task.receiving_of_home_eq_none (k := k) (hp.parked t ht) ?_
      rw [Option.eq_none_iff_forall_not_mem]
      exact fun q hq => hnone q ((hp.mem_iff ht).mpr hq)
  · rw [State.lwtCurrent, State.kthd, hk]
    exact hrun.current

theorem thread_placement {k : KthdId} {tr : List (State × Label)} (h : Run σ₀ tr σ)
    (hb : σ₀.Boot k) (hC : ∀ p ∈ tr, Ordinary p.1 p.2) :
    ∀ τ ∈ Transition.visited tr σ, τ.Linked k := by
  intro τ hτ
  obtain ⟨tr', hr, hpre⟩ := h.of_mem_visited hτ
  exact (Run.inPlace hr hb fun p hp => hC p (hpre.subset hp)).linked

def groupRun : List Label :=
  [.call (.lwtChan 2 chanMem), .call (.lwtCgrp true), .call (.lwtCgrpAdd 0 1),
    .call (.lwtCreate 0 createMem), .call (.lwtCgrpWait 0), .resume,
    .call (.lwtSnd 1 (.word 5)), .call (.lwtSnd 1 (.word 6)), .call (.lwtYield none), .resume]

theorem groupRun_placement : (booted.after groupRun).Linked 1 :=
  thread_placement (State.run_trace booted groupRun) boot_booted (by decide +kernel) _
    (Transition.last_mem_visited _ _)

end Lwt
