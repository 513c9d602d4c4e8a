import Lwt.Placement

/-! What one section can do to one thread: to the thread that runs it, and to
any other. Everything that later modules need to know of a thread's state and
frames follows from these two lists. -/

namespace Lwt

/-- `b` is `a`, adopted or dispatched at most. -/
structure Task.Same (a b : Task) : Prop where
  context : b.context = a.context
  blockFor : b.blockFor = a.blockFor
  nowRcving : b.nowRcving = a.nowRcving
  state : b.state = a.state ∨ a.CanRun ∧ b.CanRun

namespace Task.Same

variable {a b c : Task}

theorem refl (a : Task) : Same a a := ⟨rfl, rfl, rfl, .inl rfl⟩

theorem canRun_iff (h : Same a b) : b.CanRun ↔ a.CanRun := by
  rcases h.state with hs | ⟨ha, hb⟩
  · simp only [CanRun, hs]
  · exact iff_of_true hb ha

theorem trans (hab : Same a b) (hbc : Same b c) : Same a c := by
  refine ⟨hbc.context.trans hab.context, hbc.blockFor.trans hab.blockFor,
    hbc.nowRcving.trans hab.nowRcving, ?_⟩
  rcases hbc.state with hs | ⟨hb, hc⟩
  · rw [hs]
    rcases hab.state with hs' | ⟨ha, hb⟩
    · exact .inl hs'
    · exact .inr ⟨ha, by simpa only [CanRun, hs] using hb⟩
  · exact .inr ⟨hab.canRun_iff.mp hb, hc⟩

theorem state_iff (h : Same a b) : b.state = .blocked ↔ a.state = .blocked := by
  rcases h.state with hs | ⟨ha, hb⟩
  · rw [hs]
  · constructor
    · intro h'
      simp [CanRun, h'] at hb
    · intro h'
      simp [CanRun, h'] at ha

theorem receiving_iff (h : Same a b) : b.Receiving ↔ a.Receiving := by
  simp only [Receiving, h.state_iff, h.blockFor]

theorem sending_iff (h : Same a b) : b.Sending ↔ a.Sending := by
  simp only [Sending, h.state_iff, h.blockFor]

end Task.Same

namespace Sched

variable {s s' s₁ : Sched} {k : KthdId} {cur t : ThreadId} {f : Frame} {rest : List Frame}
  {b : Bool}

/-- What a section at `f` makes of a thread that does not run it. -/
inductive Other (s : Sched) (f : Frame) (t : ThreadId) (th : Task) : Prop
  | same (h : (s.tasks t).Same th)
  | woken (hw : s.Wakes f t) (hc : th.context = (s.tasks t).context)
      (hn : th.nowRcving = (s.tasks t).nowRcving) (hr : th.CanRun)
  | started (hz : (s.tasks t).state = .zombies) (hc : th.context = []) (hr : th.CanRun)

/-- What a section at `f` with the frames `rest` below makes of its own thread. -/
inductive Self (s : Sched) (cur : ThreadId) (f : Frame) (rest : List Frame) : Task → Prop
  | goesOn {th : Task} (fs : List Frame) (hpush : Pushed fs) (hc : th.context = fs ++ rest)
      (hn : th.nowRcving = (s.tasks cur).nowRcving) (hr : th.CanRun) : Self s cur f rest th
  | sleepRcv {th : Task} (rcving : Option ChanId) (fr : Frame) (hf : SleepsAt f rcving fr)
      (hc : th.context = fr :: rest) (hn : th.nowRcving = rcving) (hr : th.Receiving) :
      Self s cur f rest th
  | sleepGroup {th : Task} (g : CgrpId) (hf : f = .cgrpWaitLoop g)
      (hc : th.context = .cgrpWaitLoop g :: rest)
      (hn : th.nowRcving = (s.tasks cur).nowRcving) (hr : th.Receiving) : Self s cur f rest th
  | sleepSnd {th : Task} (c : ChanId) (d : Data) (hf : f = .call (.lwtSnd c d))
      (hc : th.context = .sndRet c :: rest) (hr : th.Sending) : Self s cur f rest th
  | die {th : Task} (hf : f = .dieSnd) (hc : th.context = .died :: rest)
      (hr : th.state = .zombies) : Self s cur f rest th

theorem Other.congr {th th' : Task} (h : Other s f t th) (hs : th.Same th') : Other s f t th' := by
  cases h with
  | same h => exact .same (h.trans hs)
  | woken hw hc hn hr =>
    exact .woken hw (hs.context.trans hc) (hs.nowRcving.trans hn) (hs.canRun_iff.mpr hr)
  | started hz hc hr => exact .started hz (hs.context.trans hc) (hs.canRun_iff.mpr hr)

theorem Self.congr {th th' : Task} (h : Self s cur f rest th) (hs : th.Same th') :
    Self s cur f rest th' := by
  cases h with
  | goesOn fs hpush hc hn hr =>
    exact .goesOn fs hpush (hs.context.trans hc) (hs.nowRcving.trans hn) (hs.canRun_iff.mpr hr)
  | sleepRcv rcving fr hf hc hn hr =>
    exact .sleepRcv rcving fr hf (hs.context.trans hc) (hs.nowRcving.trans hn)
      (hs.receiving_iff.mpr hr)
  | sleepGroup g hf hc hn hr =>
    exact .sleepGroup g hf (hs.context.trans hc) (hs.nowRcving.trans hn) (hs.receiving_iff.mpr hr)
  | sleepSnd c d hf hc hr =>
    exact .sleepSnd c d hf (hs.context.trans hc) (hs.sending_iff.mpr hr)
  | die hf hc hr =>
    refine .die hf (hs.context.trans hc) ?_
    rcases hs.state with h | ⟨h, -⟩
    · exact h.trans hr
    · simp [Task.CanRun, hr] at h

/-- A dispatch changes the state of a thread that can run. -/
theorem Placed.dispatch_same (hp : s.Placed k) (h : s.Dispatch s') (t : ThreadId) :
    (s.tasks t).Same (s'.tasks t) := by
  obtain ⟨u, rest, hq, rfl⟩ := h
  by_cases hu : t = u
  · subst hu
    have hmem : t ∈ s.queues (.run k) := by simp [← hp.kthd, hq]
    refine ⟨by simp, by simp, by simp, .inr ⟨(hp.mem_run_iff.mp hmem).2, ?_⟩⟩
    simp [Task.CanRun]
  · simpa [hu] using Task.Same.refl _

variable (hp : s.Placed k) (hrun : s.Running k cur)

include hp in
theorem Act.other (h : s.Act cur f rest b s₁) (ht : t ≠ cur) (hlt : t < s.ntasks) :
    Other s f t (s₁.tasks t) := by
  have same {th : Task} (h : th = s.tasks t) : Other s f t th := .same (h ▸ .refl _)
  have wake {u : ThreadId} (hw : s.Wakes f u) : Other s f t ((s.wake cur u).tasks t) := by
    by_cases hu : t = u
    · subst hu
      exact .woken hw (by simp) (by simp) (by simp [Task.CanRun])
    · exact same (by simp [hu])
  cases h with
  | quiet | lastWord | slThdBlock | freeGroup | newGroup | waitDone => exact same (by simp [ht])
  | idle | yield | yieldTo => exact same (by simp [ht])
  | sleepRcv | sleepGroup | sleepSnd | die => exact same (by simp [ht])
  | wake u hw => simpa [leave_task, ht] using wake hw
  | wakeSleepSnd u c d hf hw => simpa [ht] using wake hw
  | recycle u fl mem hf hu =>
    by_cases hut : t = u
    · subst hut
      rw [hp.kthd] at hu
      exact .started (hp.mem_recycle_iff.mp (List.mem_of_head? hu)).2 (by simp [ht])
        (by simp [Task.CanRun, ht])
    · exact same (by simp [ht, hut])
  | create => exact same (by simp [ht, hlt.ne])
  | adopt u hf hu =>
    rw [hp.adopt hu]
    exact same (by simp [ht])
  | adoptMove u hf hu =>
    rw [hp.adopt hu]
    exact same (by simp [ht])

include hp hrun in
theorem Act.self (h : s.Act cur f rest b s₁) : Self s cur f rest (s₁.tasks cur) := by
  have goes {th : Task} (fs : List Frame) (hpush : Pushed fs)
      (h : th = { s.tasks cur with context := fs ++ rest }) : Self s cur f rest th := by
    subst h
    exact .goesOn fs hpush rfl rfl hrun.canRun
  cases h with
  | quiet fs hf hpush | lastWord fs hf hpush | idle fs hf hpush =>
    exact goes fs hpush (by simp)
  | slThdBlock => exact goes [.kthdBlocked] (by simp) (by simp)
  | freeGroup | newGroup | waitDone | yield | yieldTo => exact goes [] .nil (by simp)
  | wake t hw =>
    by_cases h : cur = t
    · subst h
      exact .goesOn [] .nil (by simp) (by simp) (by simp [Task.CanRun])
    · exact goes [] .nil (by simp [h])
  | recycle t fl mem hf ht =>
    have hne : cur ≠ t := by
      rintro rfl
      rw [hp.kthd] at ht
      have hz := (hp.mem_recycle_iff.mp (List.mem_of_head? ht)).2
      simpa [Task.CanRun, hz] using hrun.canRun
    exact goes [] .nil (by simp [hne])
  | create => exact goes [] .nil (by simp [hrun.lt.ne])
  | adopt t hf ht =>
    rw [hp.adopt ht]
    exact goes [] .nil (by simp)
  | adoptMove t hf ht =>
    rw [hp.adopt ht]
    exact goes [] .nil (by simp)
  | sleepRcv rcving fr hf =>
    exact .sleepRcv rcving fr hf (by simp) (by simp) (by simp [Task.Receiving])
  | sleepGroup g hf => exact .sleepGroup g hf (by simp) (by simp) (by simp [Task.Receiving])
  | sleepSnd c d hf | wakeSleepSnd _ c d hf =>
    exact .sleepSnd c d hf (by simp) (by simp [Task.Sending])
  | die hf => exact .die hf (by simp) (by simp)

variable (hat : s.At cur f rest)
  (howner : ∀ g, f = .call (.lwtCgrpWait g) → (s.cgrps g).owner = cur)

include hp hrun hat howner in
theorem Effect.other (h : s.Effect cur f rest s') (ht : t ≠ cur) (hlt : t < s.ntasks) :
    Other s f t (s'.tasks t) := by
  cases h with
  | stay h => exact h.other hp ht hlt
  | switch h hd =>
    exact (h.other hp ht hlt).congr ((h.placed hp hrun hat howner).1.dispatch_same hd t)

include hp hrun hat howner in
theorem Effect.self (h : s.Effect cur f rest s') : Self s cur f rest (s'.tasks cur) := by
  cases h with
  | stay h => exact h.self hp hrun
  | switch h hd =>
    exact (h.self hp hrun).congr ((h.placed hp hrun hat howner).1.dispatch_same hd cur)

end Sched

end Lwt
