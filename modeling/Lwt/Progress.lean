import Lwt.ForkJoin
import Lwt.Lib.Waiting
import Mathlib.Algebra.Order.BigOperators.Group.Finset

/-! A program that uses the thread functions only comes to a standstill never. A thread sleeps in
`lwt_join` until its child has said its last word, nobody is joined by two threads, and nobody
joins the main thread, so from there a chain of joins leads to a thread that can run. -/

namespace Lwt

open State

variable {σ τ σ' σ₀ : State} {l : Label} {cur t u v : ThreadId} {f : Frame} {rest fs : List Frame}
  {c : ChanId} {d : Data} {n : Next} {k : KthdId} {tr : List (State × Label)}

namespace State

/-- `u` is inside `lwt_join(v)`, before or in the receive of the last word. -/
def Listens (σ : State) (u v : ThreadId) : Prop :=
  σ.SleepsInJoin u v ∨ ∃ c, (σ.threads u).context = [.call (.lwtRcv c), .joinRcv v]

namespace Family

variable (hF : σ.Family k)

include hF

theorem hears (h : σ.Listens u v) : ∃ c, σ.Hears u v c := by
  rcases h with ⟨hu, hrcv, c, hctx⟩ | ⟨c, hctx⟩
  · exact ⟨c, (hF.waiting u hu c v hrcv hctx).1⟩
  · exact ⟨c, (hF.receive u c v hctx).2.1⟩

/-- Nobody is joined by two, and the main thread by nobody. -/
theorem forest : Waiting.Forest σ.Listens 0 where
  unique a a' b h h' := by
    obtain ⟨c, hh⟩ := hF.hears h
    obtain ⟨c', hh'⟩ := hF.hears h'
    exact Option.some.inj (hh.parent.symm.trans hh'.parent)
  root a h := by
    obtain ⟨c, hh⟩ := hF.hears h
    exact hh.ne rfl

theorem finite : {b | Relation.ReflTransGen σ.Listens 0 b}.Finite := by
  refine (Set.finite_lt_nat σ.nthreads).subset fun b hb => ?_
  rcases Relation.ReflTransGen.cases_tail hb with rfl | ⟨a, -, hab⟩
  · exact hF.root.1
  · exact (hF.hears hab).choose_spec.lt

/-- A thread that is neither past its last word nor asleep in `lwt_join` can run. -/
theorem canRun (ht : t < σ.nthreads) (hp : ¬ σ.Past t) (hl : ∀ v, ¬ σ.Listens t v) :
    (σ.threads t).task.CanRun := by
  have hpark : (σ.threads t).task.Parked := hF.inPlace.placed.parked t ht
  have hstation := hF.station t ht
  have hctx : (σ.threads t).task.context = (σ.threads t).context := rfl
  by_contra hrun
  cases hst : (σ.threads t).state with
  | runnable => exact hrun (.inl hst)
  | running => exact hrun (.inr hst)
  | zombies => exact hp (.inl hst)
  | blocked =>
    cases hbf : (σ.threads t).blockFor with
    | sending =>
      obtain ⟨c, fs, h⟩ := hpark.sending ⟨hst, hbf⟩
      rw [hctx.symm.trans h] at hstation
      cases hstation
      exact hp (.inr (.inl ⟨c, h⟩))
    | receiving =>
      rcases hpark.receiving ⟨hst, hbf⟩ with ⟨c, fs, h, -⟩ | ⟨c, fs, h, -⟩ | ⟨g, fs, h⟩
      · rw [hctx.symm.trans h] at hstation
        cases hstation with
        | waiting _ v => exact hl v (.inl ⟨ht, ⟨hst, hbf⟩, c, h⟩)
      · rw [hctx.symm.trans h] at hstation
        cases hstation
      · rw [hctx.symm.trans h] at hstation
        cases hstation

/-- The main thread is not past a last word. -/
theorem root_not_past : ¬ σ.Past 0 := by
  obtain ⟨-, -, hz, hd⟩ := hF.root
  rintro (h | ⟨c, h⟩ | h)
  · exact hz h
  · simp [h] at hd
  · simp [h] at hd

/-- If `cur` is on its way to join somebody, or is neither the main thread nor joined by anyone,
another thread can run. -/
theorem exists_other (hcur : (∃ v, σ.Listens cur v) ∨ cur ≠ 0 ∧ ∀ a, ¬ σ.Listens a cur)
    (hq : ∀ u c v, (σ.threads u).context = [.call (.lwtRcv c), .joinRcv v] → ¬ σ.Said v) :
    ∃ w < σ.nthreads, w ≠ cur ∧ (σ.threads w).task.CanRun := by
  obtain ⟨w, hw, hend⟩ := hF.forest.exists_end hF.finite
  rcases Relation.ReflTransGen.cases_tail hw with rfl | ⟨a, -, haw⟩
  · refine ⟨0, hF.root.1, ?_, hF.canRun hF.root.1 hF.root_not_past hend⟩
    rintro rfl
    rcases hcur with ⟨v, hv⟩ | ⟨h0, -⟩
    · exact hend v hv
    · exact h0 rfl
  · obtain ⟨c, hh⟩ := hF.hears haw
    have hsaid : ¬ σ.Said w := by
      rcases haw with ⟨ha, hrcv, c', hctx⟩ | ⟨c', hctx⟩
      · exact (hF.waiting a ha c' w hrcv hctx).2
      · exact hq a c' w hctx
    refine ⟨w, hh.lt, ?_, hF.canRun hh.lt (fun h => hsaid (hF.said w hh.lt hh.ne h)) hend⟩
    rintro rfl
    rcases hcur with ⟨v, hv⟩ | ⟨-, hno⟩
    · exact hend v hv
    · exact hno a haw

/-- A section whose function returns is made, unless it comes to `__lwt_schedule` with an empty
run queue. -/
theorem exec_ok (hcur : σ.lwtCurrent = some cur) (hb : σ.body cur f = .ok (σ', n))
    (hn : ∀ fs, n = .schedule fs → ∃ u, u ∈ σ.queues (.run k) ∧ u ∉ σ.taken cur f ∨
      u ∈ σ.given cur f) : ∃ τ, σ.exec cur f rest = .ok τ := by
  have hk : σ.currentKthd = k := hF.inPlace.placed.kthd
  have hexec : σ.exec cur f rest = σ'.finish cur rest n := by
    simp [exec, hb, bind, Except.bind]
  rw [hexec]
  cases n with
  | ret d => exact ⟨_, rfl⟩
  | goto fs => exact ⟨_, rfl⟩
  | schedule fs =>
    obtain ⟨hands, hsame⟩ := body_hands hb
    have hown : (σ.threads cur).ownerKthd = k :=
      hF.inPlace.placed.owner cur (hF.inPlace.running_cur hcur).lt
    obtain ⟨u, hu⟩ := hn fs rfl
    have hmem : u ∈ σ'.queues (.run k) :=
      (hands.mem_run_iff hF.wired).mpr (hu.imp_right fun h => ⟨hown, h⟩)
    obtain ⟨t, q, hq⟩ := List.exists_cons_of_ne_nil (List.ne_nil_of_mem hmem)
    have hq : σ'.queues σ'.currentRunQueue = t :: q := by
      rw [currentRunQueue, hsame.currentKthd, hk]
      exact hq
    obtain ⟨τ, hτ, -⟩ := lwtSchedule_of_cons (σ := σ'.modThread cur fun th =>
      { th with context := fs ++ rest, eax := .null }) (t := t) (l := q) hq
      (hsame.polling.trans (hF.wired.polling _))
    exact ⟨τ, hτ⟩

/-- The other threads that can run are on the run queue. -/
theorem mem_run (ht : t < σ.nthreads) (hr : (σ.threads t).task.CanRun) :
    t ∈ σ.queues (.run k) :=
  hF.inPlace.placed.mem_run_iff.mpr ⟨ht, hr⟩

/-- The send of a last word. -/
theorem lastWord_ok (hcur : σ.lwtCurrent = some cur)
    (hctx : (σ.threads cur).context = [.call (.lwtSnd c d), .dieSnd]) :
    ∃ τ, σ.exec cur (.call (.lwtSnd c d)) [.dieSnd] = .ok τ := by
  have hlt := (hF.inPlace.running_cur hcur).lt
  obtain rfl := hF.exits.asks cur c d hctx
  obtain ⟨hc, h0⟩ := hF.exits.mortal.chl cur hlt
  have hne : cur ≠ 0 := by
    rintro rfl
    exact hF.root.2.2.2 (by simp [hctx])
  obtain ⟨u, hu, hp, hr, hg, hfree⟩ := hF.child cur hlt hne
  have hlocal := (hF.plain (σ.threads cur).chl).type hc
  have hcount := hF.exits.hollow _ hc h0
  have hbody : ∃ x, σ.lwtSnd cur (σ.threads cur).chl d = .ok x := by
    simp only [lwtSnd, chan?, thread?, not_le.mpr hc, hfree, hlocal, hr, not_le.mpr hu, if_false,
      bind, Except.bind, Bool.false_eq_true, reduceCtorEq]
    split_ifs
    · exact ⟨_, rfl⟩
    · simp [lwtSndQueue, wakeGroup, hg, hcount, h0, bind, Except.bind]
  obtain ⟨⟨σ', n⟩, hb⟩ := hbody
  refine hF.exec_ok hcur hb fun fs hn => ?_
  have hawoken : σ.awoken (σ.threads cur).chl = none := by simp [awoken, hg]
  have hasleep : ∀ a, ¬ σ.Listens a cur := by
    rintro a (⟨ha, hrcv, c, hac⟩ | ⟨c, hac⟩)
    · -- the parent waits, so that the message is handed over
      have hh := (hF.waiting a ha c cur hrcv hac).1
      obtain rfl := Option.some.inj (hp.symm.trans hh.parent)
      have hn' : (σ.threads u).task.nowRcving = some c :=
        (hF.inPlace.placed.parked u ha).of_rcving hrcv (Task.rcving_eq hac)
      subst hn
      cases (lwtSnd_ok hb).2.2 with
      | block r σ₁ _ hr' hno =>
        obtain rfl := Option.some.inj (hr.symm.trans hr')
        exact hno ⟨hrcv, hh.chl ▸ hn'⟩
    · obtain ⟨ha, hh, -⟩ := hF.receive a c cur hac
      obtain rfl := Option.some.inj (ha.symm.trans hcur)
      simp [hctx] at hac
  obtain ⟨w, hw, hwc, hwr⟩ := hF.exists_other (.inr ⟨hne, hasleep⟩) fun a c v hac => by
    obtain ⟨ha, -⟩ := hF.receive a c v hac
    obtain rfl := Option.some.inj (ha.symm.trans hcur)
    simp [hctx] at hac
  exact ⟨w, .inl ⟨hF.mem_run hw hwr, by simp [taken, hawoken, hwc]⟩⟩

/-- The end of `lwt_die`. -/
theorem recycle_ok (hcur : σ.lwtCurrent = some cur)
    (hctx : (σ.threads cur).context = [.dieSnd]) : ∃ τ, σ.exec cur .dieSnd [] = .ok τ := by
  have hlt := (hF.inPlace.running_cur hcur).lt
  have hne : cur ≠ 0 := by
    rintro rfl
    exact hF.root.2.2.2 (by simp [hctx])
  refine hF.exec_ok hcur rfl fun fs _ => ?_
  have hasleep : ∀ a, ¬ σ.Listens a cur := by
    rintro a (⟨ha, hrcv, c, hac⟩ | ⟨c, hac⟩)
    · exact (hF.waiting a ha c cur hrcv hac).2 (hF.said cur hlt hne (.inr (.inr hctx)))
    · obtain ⟨ha, -⟩ := hF.receive a c cur hac
      obtain rfl := Option.some.inj (ha.symm.trans hcur)
      simp [hctx] at hac
  obtain ⟨w, hw, hwc, hwr⟩ := hF.exists_other (.inr ⟨hne, hasleep⟩) fun a c v hac => by
    obtain ⟨ha, -⟩ := hF.receive a c v hac
    obtain rfl := Option.some.inj (ha.symm.trans hcur)
    simp [hctx] at hac
  exact ⟨w, .inl ⟨hF.mem_run hw hwr, by simp [taken, hwc]⟩⟩

/-- The receive of a last word. -/
theorem receive_ok (hcur : σ.lwtCurrent = some cur)
    (hctx : (σ.threads cur).context = [.call (.lwtRcv c), .joinRcv v]) :
    ∃ τ, σ.exec cur (.call (.lwtRcv c)) [.joinRcv v] = .ok τ := by
  obtain ⟨-, hh, -⟩ := hF.receive cur c v hctx
  obtain ⟨hc, h0⟩ := hF.exits.mortal.chl v hh.lt
  obtain ⟨u, -, -, -, -, hfree⟩ := hF.child v hh.lt hh.ne
  rw [hh.chl] at hc h0 hfree
  have hlocal := (hF.plain c).type hc
  have hcount := hF.exits.hollow c hc h0
  cases hq : σ.queues (.sender c) with
  | cons s q =>
    have hbody : ∃ σ' d, σ.lwtRcv cur c = .ok (σ', .ret d) := by
      simp [lwtRcv, chan?, not_le.mpr hc, hfree, hlocal, hcount, hq, bind, Except.bind]
    obtain ⟨σ', d, hb⟩ := hbody
    exact hF.exec_ok hcur hb fun fs hn => by cases hn
  | nil =>
    have hbody : ∃ σ', σ.lwtRcv cur c = .ok (σ', .schedule [.rcvRet c]) := by
      simp [lwtRcv, chan?, not_le.mpr hc, hfree, hlocal, hcount, hq, bind, Except.bind]
    obtain ⟨σ', hb⟩ := hbody
    refine hF.exec_ok hcur hb fun fs _ => ?_
    obtain ⟨w, hw, hwc, hwr⟩ := hF.exists_other (.inl ⟨v, .inr ⟨c, hctx⟩⟩) fun a c' v' hac => by
      obtain ⟨ha, -⟩ := hF.receive a c' v' hac
      obtain rfl := Option.some.inj (ha.symm.trans hcur)
      rw [hctx] at hac
      cases hac
      exact hF.not_said_of_nil hctx hq
    exact ⟨w, .inl ⟨hF.mem_run hw hwr, by simp [taken, hwc]⟩⟩

/-- A yield to a thread that exists. -/
theorem yieldTo_ok (hcur : σ.lwtCurrent = some cur) (hv : v < σ.nthreads) :
    ∃ τ, σ.exec cur (.call (.lwtYield (some v))) rest = .ok τ := by
  have hbody : ∃ x, σ.lwtYield cur (some v) = .ok x := by
    simp only [lwtYield, thread?, not_le.mpr hv, if_false, bind, Except.bind]
    split_ifs
    · exact ⟨_, rfl⟩
    · exact ⟨_, rfl⟩
  obtain ⟨⟨σ', n⟩, hb⟩ := hbody
  exact hF.exec_ok hcur hb fun fs _ => ⟨v, .inr (by simp [given])⟩

/-- A thread runs. -/
theorem exists_current : ∃ cur, σ.lwtCurrent = some cur ∧ cur < σ.nthreads := by
  obtain ⟨cur, hrun⟩ := hF.inPlace.running
  have hk : σ.currentKthd = k := hF.inPlace.placed.kthd
  refine ⟨cur, ?_, hrun.lt⟩
  rw [lwtCurrent, kthd, hk]
  exact hrun.current

/-- A thread inside a function of the library goes on. -/
theorem resume_ok (hcur : σ.lwtCurrent = some cur) (hctx : (σ.threads cur).context ≠ []) :
    ∃ τ, Step σ .resume τ := by
  obtain ⟨f, rest, hctx⟩ := List.exists_cons_of_ne_nil hctx
  have hrun := hF.inPlace.running_cur hcur
  have hstation := hF.station cur hrun.lt
  have hexec : ∃ τ, σ.exec cur f rest = .ok τ := by
    rw [hctx] at hstation
    cases hstation with
    | lastWord c d => exact hF.lastWord_ok hcur hctx
    | sending c => exact ⟨_, rfl⟩
    | sent => exact hF.recycle_ok hcur hctx
    | died =>
      -- the running thread is not behind its death
      exact absurd (hF.died cur hrun.lt hctx) (hF.inPlace.living_cur hcur).2
    | receive c v hv => exact hF.receive_ok hcur hctx
    | waiting c v hv => exact ⟨_, rfl⟩
    | received v hv => exact ⟨_, rfl⟩
    | yield v d hv => exact hF.yieldTo_ok hcur hv
    | back v d hv => exact ⟨_, rfl⟩
  obtain ⟨τ, hτ⟩ := hexec
  refine ⟨τ, ?_⟩
  have hawake : σ.kthd.slState ≠ .blocked := hF.awake _
  simp [Step, State.step, hcur, hctx, hawake, hτ]

/-- A thread in its own code makes any call of the program. -/
theorem call_ok {a : Call} (hcur : σ.lwtCurrent = some cur) (hctx : (σ.threads cur).context = [])
    (ha : σ.ForkJoin (.call a)) : ∃ τ, Step σ (.call a) τ := by
  have hrun := hF.inPlace.running_cur hcur
  have hexec : ∃ τ, σ.exec cur (.call a) [] = .ok τ := by
    cases a with
    | lwtCreate flags mem =>
      obtain ⟨hth, hst, hraw⟩ := ha
      obtain ⟨raw', hth⟩ := Option.isSome_iff_exists.mp hth
      obtain ⟨stack, hst⟩ := Option.isSome_iff_exists.mp hst
      obtain ⟨raw, hraw, -⟩ := Option.map_eq_some_iff.mp hraw
      cases hq : σ.queues σ.currentRecycleQueue with
      | nil =>
        simp [exec, body, call, lwtCreate, allocThread, hq, hth, hst, initThread, lwtChan, hraw,
          bind, Except.bind, finish]
      | cons t q =>
        simp [exec, body, call, lwtCreate, allocThread, hq, initThread, lwtChan, hraw, bind,
          Except.bind, finish]
    | lwtYield yieldTo =>
      cases yieldTo with
      | none =>
        have hcan : (σ.threads cur).task.CanRun := hrun.canRun
        exact hF.exec_ok hcur rfl fun fs _ => ⟨cur, .inr (by simp [given, hcan])⟩
      | some v => exact hF.yieldTo_ok hcur (ha v rfl)
    | lwtDie d => exact ⟨_, rfl⟩
    | lwtJoin v =>
      simp only [exec, body, call, lwtJoin, thread?, not_le.mpr ha.1, if_false, bind, Except.bind]
      split_ifs
      · exact ⟨_, rfl⟩
      · exact ⟨_, rfl⟩
    | _ => exact ha.elim
  obtain ⟨τ, hτ⟩ := hexec
  refine ⟨τ, ?_⟩
  have hawake : σ.kthd.slState ≠ .blocked := hF.awake _
  simp [Step, State.step, hcur, hctx, hawake, hτ]

end Family

end State

/-- A program that uses the thread functions only, whose main thread does not die and in which no
thread is joined twice, never comes to a standstill and never faults: there is always a running
thread, which goes on if it is inside a function of the library, and can make any call of the
program if it is not. -/
theorem fork_join_progress (h : Run σ₀ tr σ) (hb : σ₀.Boot k) (hl : ∀ p ∈ tr, p.1.ForkJoin p.2) :
    ∃ cur < σ.nthreads, σ.lwtCurrent = some cur ∧
      ((σ.threads cur).context ≠ [] → ∃ τ, Step σ .resume τ) ∧
      ((σ.threads cur).context = [] → ∀ a, σ.ForkJoin (.call a) → ∃ τ, Step σ (.call a) τ) := by
  have hF := h.family hb hl
  obtain ⟨cur, hcur, hlt⟩ := hF.exists_current
  exact ⟨cur, hlt, hcur, hF.resume_ok hcur, fun hctx a ha => hF.call_ok hcur hctx ha⟩

def familyRun : List Label :=
  [.call (.lwtCreate 0 createMem), .call (.lwtYield none), .call (.lwtCreate 0 createMem),
    .call (.lwtJoin 2), .resume, .call (.lwtJoin 1), .resume]

theorem familyRun_progress : ∃ cur < (booted.after familyRun).nthreads,
    (booted.after familyRun).lwtCurrent = some cur ∧
      (((booted.after familyRun).threads cur).context ≠ [] →
        ∃ τ, Step (booted.after familyRun) .resume τ) ∧
      (((booted.after familyRun).threads cur).context = [] → ∀ a,
        (booted.after familyRun).ForkJoin (.call a) →
          ∃ τ, Step (booted.after familyRun) (.call a) τ) :=
  fork_join_progress (run_trace booted familyRun) boot_booted (by decide +kernel)

/-- How many sections there are at most from a frame to where it is left. -/
def Frame.toGo : Frame → ℕ
  | .call (.lwtSnd _ _) | .call (.lwtRcv _) => 2
  | .joinRcv _ => 3
  | .sndRet _ | .dieSnd | .rcvRet _ | .call (.lwtYield _) | .joinYield _ _ => 1
  | _ => 0

/-- How many sections there are at most until every thread is in its own code or dead. -/
def State.toGo (σ : State) : ℕ :=
  ∑ t ∈ Finset.range σ.nthreads, ((σ.threads t).context.map Frame.toGo).sum

/-- A step inside a function of the library. -/
def Label.resumed : Label → ℕ
  | .resume => 1
  | _ => 0

def Label.budget : Label → ℕ
  | .call (.lwtJoin _) => 5
  | .call (.lwtDie _) => 3
  | _ => 0

/-- A thread in its own code makes a step by a call. -/
theorem Section.label_of_nil {a : Call} (hs : Section σ l τ cur (.call a) rest)
    (hl : σ.ForkJoin l) (hnil : (σ.threads cur).context = []) : l = .call a := by
  cases l with
  | call a' => exact congrArg Label.call (Frame.call.inj (Option.some.inj hs.frame))
  | resume => simpa [State.frame, hs.current, hnil] using hs.frame
  | switch | initiate => exact hl.elim

section Budget

variable (hF : σ.Family k)

include hF

/-- The frames of the running thread are used up. -/
theorem Passage.toGo (hT : Passage σ τ cur f rest fs) (hs : Section σ l τ cur f rest)
    (hl : σ.ForkJoin l) :
    (fs.map Frame.toGo).sum + l.resumed ≤
      ((σ.threads cur).context.map Frame.toGo).sum + l.budget := by
  rcases hs.at_ with hctx | ⟨⟨a, rfl⟩, hnil, rfl⟩
  · have hctx : (σ.threads cur).context = f :: rest := hctx
    have hstation := hF.station cur (hF.inPlace.running_cur hs.current).lt
    have hres : l.resumed ≤ 1 := by cases l <;> simp [Label.resumed]
    rw [hctx] at hstation ⊢
    cases hT with
    | create | yield | die | refuse | join => cases hstation
    | _ =>
      simp only [Frame.toGo, List.map_cons, List.map_nil, List.sum_cons, List.sum_nil]
      omega
  · obtain rfl := hs.label_of_nil hl hnil
    cases hT <;> simp [Frame.toGo, Label.resumed, Label.budget]

/-- What a step takes off the sections to go, the budget of its call added. -/
theorem State.Family.toGo_step (hl : σ.ForkJoin l) (hstep : Step σ l τ) :
    τ.toGo + l.resumed ≤ σ.toGo + l.budget := by
  obtain ⟨cur, f, rest, hs, hT⟩ := hF.passage hl hstep
  have hw : OwnerWaits σ l := (hT.localUse hs hl 0).ordinary.2
  have hlt := (hF.inPlace.running_cur hs.current).lt
  have hle : σ.nthreads ≤ τ.nthreads := (hF.wellFramed.effect hs).ntasks_le
  let w (υ : State) (t : ThreadId) : ℕ := ((υ.threads t).context.map Frame.toGo).sum
  have hnew : τ.toGo = ∑ t ∈ Finset.range σ.nthreads, w τ t := by
    refine (Finset.sum_subset (Finset.range_subset_range.mpr hle) fun t ht hge => ?_).symm
    have ht : t < τ.nthreads := Finset.mem_range.mp ht
    have hge : σ.nthreads ≤ t := by simpa using hge
    have hctx : (τ.threads t).context = [] :=
      (hF.wellFramed.effect hs).context_new hge ht (hlt.trans_le hge).ne'
    simp [hctx]
  have hothers : ∑ t ∈ (Finset.range σ.nthreads).erase cur, w τ t ≤
      ∑ t ∈ (Finset.range σ.nthreads).erase cur, w σ t := by
    refine Finset.sum_le_sum fun t ht => ?_
    obtain ⟨hne, hmem⟩ := Finset.mem_erase.mp ht
    rcases hs.others hF.inPlace hw hne (Finset.mem_range.mp hmem) with ⟨hsame, -⟩ | ⟨-, hnil, -⟩
    · simp only [w, hsame, le_refl]
    · simp [w, hnil]
  have hcur : w τ cur + l.resumed ≤ w σ cur + l.budget := hT.toGo hF hs hl
  have hσ : w σ cur + ∑ t ∈ (Finset.range σ.nthreads).erase cur, w σ t = σ.toGo :=
    Finset.add_sum_erase _ (w σ) (Finset.mem_range.mpr hlt)
  have hτ : w τ cur + ∑ t ∈ (Finset.range σ.nthreads).erase cur, w τ t =
      ∑ t ∈ Finset.range σ.nthreads, w τ t :=
    Finset.add_sum_erase _ (w τ) (Finset.mem_range.mpr hlt)
  omega

/-- Left to itself the library comes back to the code of some thread. -/
theorem State.Family.returns : ∃ tr' τ, Run σ tr' τ ∧ (∀ p ∈ tr', p.2 = .resume) ∧
    tr'.length ≤ σ.toGo ∧ ∃ cur, τ.lwtCurrent = some cur ∧ (τ.threads cur).context = [] := by
  induction hm : σ.toGo using Nat.strong_induction_on generalizing σ with
  | _ m ih =>
    obtain ⟨cur, hcur, -⟩ := hF.exists_current
    by_cases hctx : (σ.threads cur).context = []
    · exact ⟨[], σ, .nil, by simp, Nat.zero_le _, cur, hcur, hctx⟩
    · obtain ⟨τ, hτ⟩ := hF.resume_ok hcur hctx
      have hgo : τ.toGo + 1 ≤ σ.toGo := hF.toGo_step (l := .resume) trivial hτ
      have hF' : τ.Family k := hF.step (l := .resume) trivial hτ
      obtain ⟨tr', υ, hr, hres, hlen, hown⟩ := ih τ.toGo (by omega) hF' rfl
      refine ⟨(σ, .resume) :: tr', υ, .cons hτ hr, ?_, ?_, hown⟩
      · simpa using hres
      · simp only [List.length_cons]
        omega

end Budget

/-- In such a program the steps inside the library come to no more than five for each `lwt_join`
and three for each `lwt_die`, whatever the order in which the threads come in; and at any time the
library is left, for the code of some thread, within the steps of that sum not yet made. -/
theorem fork_join_returns (h : Run σ₀ tr σ) (hb : σ₀.Boot k) (hl : ∀ p ∈ tr, p.1.ForkJoin p.2) :
    ∃ tr' τ, Run σ tr' τ ∧ (∀ p ∈ tr', p.2 = .resume) ∧
      (tr.map fun p => p.2.resumed).sum + tr'.length ≤ (tr.map fun p => p.2.budget).sum ∧
      ∃ cur, τ.lwtCurrent = some cur ∧ (τ.threads cur).context = [] := by
  obtain ⟨tr', τ, hr, hres, hlen, hown⟩ := (h.family hb hl).returns
  have hboot : σ₀.toGo = 0 := by
    simp [State.toGo, (boot_ok hb).context]
  have hcost : σ.toGo + (tr.map fun p => p.2.resumed).sum ≤
      σ₀.toGo + (tr.map fun p => p.2.budget).sum :=
    h.amortised (I := fun σ => σ.Family k) (Φ := State.toGo) hl (boot_family hb)
      (fun _ _ _ hF hl hs => hF.step hl hs) fun _ _ _ hF hl hs => hF.toGo_step hl hs
  exact ⟨tr', τ, hr, hres, by omega, hown⟩

theorem familyRun_returns : ∃ tr' τ, Run (booted.after familyRun) tr' τ ∧
    (∀ p ∈ tr', p.2 = .resume) ∧
      ((booted.trace familyRun).map fun p => p.2.resumed).sum + tr'.length ≤
        ((booted.trace familyRun).map fun p => p.2.budget).sum ∧
      ∃ cur, τ.lwtCurrent = some cur ∧ (τ.threads cur).context = [] :=
  fork_join_returns (run_trace booted familyRun) boot_booted (by decide +kernel)

/-- How far the history had come when the present instance of `t` was started; `0` for a thread that
no `lwt_create` started. -/
def birth (h : List Event) (t : ThreadId) : ℕ :=
  (h.reverse.dropWhile fun e => e.started ≠ some t).length

theorem birth_le (h : List Event) (t : ThreadId) : birth h t ≤ h.length := by
  have hle := (List.dropWhile_sublist (fun e : Event => e.started ≠ some t)
    (l := h.reverse)).length_le
  simpa [birth] using hle

theorem birth_append {h es : List Event} (hb : born es t = 0) :
    birth (h ++ es) t = birth h t := by
  have hno : ∀ e ∈ es.reverse, decide (e.started ≠ some t) = true := by
    intro e he
    rw [born, List.count_eq_zero] at hb
    refine decide_eq_true fun hst => hb ?_
    exact List.mem_filterMap.mpr ⟨e, List.mem_reverse.mp he, hst⟩
  rw [birth, birth, List.reverse_append, List.dropWhile_append_of_pos hno]

/-- If step `l` joins a thread, this was started after the one that joins it. -/
def JoinsYounger (σ : State) : Label → Prop
  | .call (.lwtJoin t) => ∀ cur ∈ σ.lwtCurrent, (σ.threads t).parent = some cur →
      birth σ.history cur < birth σ.history t
  | _ => True

/-- Who is joined is younger than who joins. -/
def State.Aged (σ : State) : Prop :=
  ∀ u v, σ.Listens u v → birth σ.history u < birth σ.history v

/-- A living thread, and any if no thread is started, keeps its age. -/
theorem State.Family.birth_eq (hF : σ.Family k) (hs : Section σ l τ cur f rest)
    (ht : t < τ.nthreads) (h : σ.Living t ∨ ∀ flags mem, f ≠ .call (.lwtCreate flags mem)) :
    birth τ.history t = birth σ.history t := by
  rcases hs.instance_cases hF.wired ht with ⟨-, -, es, he, hborn⟩ | ⟨hc, flags, mem, hf⟩
  · rw [he, birth_append hborn]
  · rcases h with h | h
    · exact absurd h (hc.not_living hF.inPlace)
    · exact absurd hf (h flags mem)

theorem State.Family.aged_self (hF : σ.Family k) (hl : σ.ForkJoin l) (hj : JoinsYounger σ l)
    (hA : σ.Aged) (hs : Section σ l τ cur f rest)
    (hT : Passage σ τ cur f rest (τ.threads cur).context) (hlis : τ.Listens cur v) :
    birth σ.history cur < birth σ.history v ∧ ∀ flags mem, f ≠ .call (.lwtCreate flags mem) := by
  rcases hlis with ⟨-, -, c, hctx⟩ | ⟨c, hctx⟩
  · rw [hctx] at hT
    cases hT with
    | sleep =>
      exact ⟨hA cur v (.inr ⟨c, hs.at_.resolve_right (by simp)⟩), by simp⟩
  · rw [hctx] at hT
    cases hT with
    | join _ hv hp hu hcur =>
      have hnil : (σ.threads cur).context = [] := by
        rcases hs.at_ with hσ | ⟨-, hnil, -⟩
        · have hstation := hF.station cur (hF.inPlace.running_cur hs.current).lt
          have hσ : (σ.threads cur).context = [.call (.lwtJoin v)] := hσ
          rw [hσ] at hstation
          cases hstation
        · exact hnil
      obtain rfl := hs.label_of_nil hl hnil
      exact ⟨hj cur hs.current hp, by simp⟩

/-- In a program whose threads join younger threads only, these stay younger. -/
theorem State.Family.aged_step (hF : σ.Family k) (hl : σ.ForkJoin l) (hj : JoinsYounger σ l)
    (hA : σ.Aged) (hstep : Step σ l τ) : τ.Aged := by
  obtain ⟨cur, f, rest, hs, hT⟩ := hF.passage hl hstep
  have hw : OwnerWaits σ l := (hT.localUse hs hl 0).ordinary.2
  have hF' := hF.step hl hstep
  intro u v hlis
  obtain ⟨c, hh⟩ := hF'.hears hlis
  have hu : u < τ.nthreads := by
    rcases hlis with ⟨hu, -⟩ | ⟨c, hctx⟩
    · exact hu
    · exact hF'.wired.current _ _ (hF'.receive u c v hctx).1
  by_cases hcur : u = cur
  · subst hcur
    obtain ⟨hage, hf⟩ := hF.aged_self hl hj hA hs hT hlis
    rw [hF.birth_eq hs hu (.inr hf), hF.birth_eq hs hh.lt (.inr hf)]
    exact hage
  · rcases hlis with ⟨-, hrcv, c', hctx⟩ | ⟨c', hctx⟩
    · have hlt : u < σ.nthreads := by
        by_contra hge
        have hnil : (τ.threads u).context = [] :=
          (hF.wellFramed.effect hs).context_new (not_lt.mp hge) hu hcur
        simp [hnil] at hctx
      rcases hs.others hF.inPlace hw hcur hlt with ⟨hsame, hrcv', -⟩ | ⟨-, hnil, -⟩
      · have hasleep : σ.SleepsInJoin u v := ⟨hlt, hrcv' hrcv, c', hsame.symm.trans hctx⟩
        obtain ⟨hσ, hsaid⟩ := hF.waiting u hlt c' v (hrcv' hrcv) (hsame.symm.trans hctx)
        have hliveu : σ.Living u := ⟨hlt, fun hz => by
          have hst : (σ.threads u).state = .blocked := (hrcv' hrcv).1
          simp [hz] at hst⟩
        have hlivev : σ.Living v := hF.living_of_not_said hσ.lt hσ.ne hsaid
        rw [hF.birth_eq hs hu (.inl hliveu), hF.birth_eq hs hh.lt (.inl hlivev)]
        exact hA u v (.inl hasleep)
      · simp [hnil] at hctx
    · exfalso
      rcases (hF.wellFramed.effect hs).context_other hcur with hsame | hnil
      · have hσ : (σ.threads u).context = [.call (.lwtRcv c'), .joinRcv v] := hsame.symm.trans hctx
        obtain ⟨hrun, -⟩ := hF.receive u c' v hσ
        exact hcur (Option.some.inj (hrun.symm.trans hs.current))
      · exact absurd (hctx.symm.trans hnil) (by simp)

/-- If moreover threads join younger threads only, whoever sleeps in `lwt_join` waits, through a
chain of such sleepers, for a thread that can run and has yet to say its last word: joins are
never circular, and nobody sleeps behind a last word that has been said. -/
theorem join_chain_ends (h : Run σ₀ tr σ) (hb : σ₀.Boot k)
    (hl : ∀ p ∈ tr, p.1.ForkJoin p.2 ∧ JoinsYounger p.1 p.2) (hu : σ.SleepsInJoin u v) :
    ∃ w, Relation.ReflTransGen σ.SleepsInJoin v w ∧ (σ.threads w).task.CanRun ∧ ¬ σ.Said w := by
  obtain ⟨hF, hA⟩ : σ.Family k ∧ σ.Aged :=
    h.invariant_of (I := fun σ => σ.Family k ∧ σ.Aged) (C := fun σ l => σ.ForkJoin l ∧
      JoinsYounger σ l) hl ⟨boot_family hb, fun u v hlis => by
        obtain ⟨c, hh⟩ := (boot_family hb).hears hlis
        have hlt := hh.lt
        rw [(boot_ok hb).nthreads] at hlt
        exact absurd (Nat.lt_one_iff.mp hlt) hh.ne⟩
      fun _ _ _ hI hC hs => ⟨hI.1.step hC.1 hs, hI.1.aged_step hC.1 hC.2 hI.2 hs⟩
  obtain ⟨w, hw, hend⟩ : ∃ w, Relation.ReflTransGen σ.SleepsInJoin v w ∧
      ∀ x, ¬ σ.SleepsInJoin w x :=
    Waiting.exists_end_of_rank (fun a b hab => ⟨hA a b (.inl hab), birth_le _ b⟩) v
  refine ⟨w, hw, ?_⟩
  obtain ⟨a, ha⟩ : ∃ a, σ.SleepsInJoin a w := by
    rcases Relation.ReflTransGen.cases_tail hw with rfl | ⟨a, -, ha⟩
    · exact ⟨u, hu⟩
    · exact ⟨a, ha⟩
  obtain ⟨hlta, hrcv, c, hctx⟩ := ha
  obtain ⟨hh, hsaid⟩ := hF.waiting a hlta c w hrcv hctx
  refine ⟨?_, hsaid⟩
  by_cases hcall : ∃ c' x, (σ.threads w).context = [.call (.lwtRcv c'), .joinRcv x]
  · obtain ⟨c', x, hwx⟩ := hcall
    exact (hF.inPlace.running_cur (hF.receive w c' x hwx).1).canRun
  · refine hF.canRun hh.lt (fun hp => hsaid (hF.said w hh.lt hh.ne hp)) fun x hx => ?_
    rcases hx with hx | ⟨c', hx⟩
    · exact hend x hx
    · exact hcall ⟨c', x, hx⟩

instance (σ : State) (l : Label) : Decidable (JoinsYounger σ l) :=
  match l with
  | .call (.lwtJoin t) => inferInstanceAs (Decidable (∀ cur ∈ σ.lwtCurrent,
      (σ.threads t).parent = some cur → birth σ.history cur < birth σ.history t))
  | .resume | .switch _ | .initiate _ _ => isTrue trivial
  | .call (.lwtCreate _ _) | .call (.lwtCreateChan _ _) | .call (.lwtYield _)
  | .call (.lwtDie _) | .call (.lwtChan _ _) | .call (.setChanType _ _)
  | .call (.lwtChanDeref _) | .call (.lwtSnd _ _) | .call (.lwtRcv _) | .call (.lwtSndChan _ _)
  | .call (.lwtRcvChan _) | .call (.lwtCgrp _) | .call (.lwtCgrpAdd _ _)
  | .call (.lwtCgrpRem _ _) | .call (.lwtCgrpFree _) | .call (.lwtCgrpWait _)
  | .call (.lwtChanMarkSet _ _) | .call (.lwtChanMarkGet _) | .call (.lwtSndThd _ _)
  | .call (.lwtRcvThd _) | .call .lwtKthdTrampline => isTrue trivial

def joining : List Frame → Option ThreadId
  | [.rcvRet _, .joinRcv v] => some v
  | _ => none

theorem joining_eq_some : joining fs = some v ↔ ∃ c, fs = [.rcvRet c, .joinRcv v] := by
  constructor
  · intro h
    unfold joining at h
    split at h
    · exact ⟨_, by rw [Option.some.inj h]⟩
    · cases h
  · rintro ⟨c, rfl⟩
    rfl

instance (σ : State) (u v : ThreadId) : Decidable (σ.SleepsInJoin u v) :=
  decidable_of_iff (u < σ.nthreads ∧ ((σ.threads u).state = .blocked ∧
      (σ.threads u).blockFor = .receiving) ∧ joining (σ.threads u).context = some v) <| by
    rw [joining_eq_some]
    rfl

theorem familyRun_chain : ∃ w, Relation.ReflTransGen (booted.after familyRun).SleepsInJoin 1 w ∧
    ((booted.after familyRun).threads w).task.CanRun ∧ ¬ (booted.after familyRun).Said w :=
  join_chain_ends (u := 0) (run_trace booted familyRun) boot_booted (by decide +kernel)
    (by decide +kernel)

/-- Thread `1` starts `2` and is joined by the main thread; `2` starts a thread in the structure
that has become free, and the two join each other. -/
def strangersRun : List Label :=
  [.call (.lwtCreate 0 createMem), .call (.lwtYield none), .call (.lwtCreate 0 createMem),
    .call (.lwtDie .null), .resume, .call (.lwtJoin 1), .resume, .resume, .resume, .resume,
    .call (.lwtYield none), .resume, .resume, .call (.lwtCreate 0 createMem), .call (.lwtJoin 1),
    .resume, .call (.lwtYield none), .call (.lwtJoin 2), .resume]

/-- `lwt_join` takes the parent for its address: a thread in a recycled structure passes for the
parent of a thread that is older than itself. -/
theorem strangersRun_circular : (booted.trace strangersRun).length = strangersRun.length ∧
    (∀ p ∈ booted.trace strangersRun, p.1.ForkJoin p.2) ∧
      (booted.after strangersRun).SleepsInJoin 1 2 ∧ (booted.after strangersRun).SleepsInJoin 2 1 :=
  ⟨by decide +kernel, by decide +kernel, by decide +kernel, by decide +kernel⟩

end Lwt
