import Lwt.Dying
import Lwt.Lib.Extents

/-! The stacks of recycled threads. `lwt_create` allocates a stack together with a thread structure
and takes both over when it finds a structure on the recycle queue. The main thread of a kernel
thread has a structure only, and `lwt_die` does not tell it from the others. -/

namespace Lwt

open State

variable {σ τ σ₀ : State} {l : Label} {cur t : ThreadId} {f : Frame} {rest : List Frame}
  {k : KthdId} {tr : List (State × Label)}

/-- The `MAX_STACK_SIZE` bytes from `stack` on. -/
def stackBlock (stack : ℕ) : Extent := ⟨stack, 819200⟩

/-- The two words below `init_sp` that `lwt_create` writes: `data` and `fn`. -/
def Thread.startFrame (th : Thread) : Extent := ⟨th.initSp - 8, 8⟩

/-- The thread that step `l` allocates a structure for, and the stack that it allocates with it. -/
def State.allotment (σ : State) (l : Label) : Option (ThreadId × ℕ) :=
  ((σ.frame l).bind Frame.creates).bind fun a =>
    if σ.queues σ.currentRecycleQueue = [] then a.2.stack.map (σ.nthreads, ·) else none

/-- The stacks allocated in a run, each with the thread that it was allocated for. -/
def allotments (tr : List (State × Label)) : List (ThreadId × ℕ) :=
  tr.filterMap fun p => p.1.allotment p.2

/-- Behind the run `tr` that leads to `σ` every recycled thread owns a stack of its own, and has
room there for its next start. -/
structure PrivateStacks (tr : List (State × Label)) (σ : State) : Prop where
  own : ∀ k, ∀ t ∈ σ.queues (.recycle k), ∃ s, (t, s) ∈ allotments tr ∧
    (σ.threads t).initSp = (stackBlock s).stop
  apart : ∀ a ∈ allotments tr, ∀ b ∈ allotments tr, a.1 ≠ b.1 →
    (stackBlock a.2).Apart (stackBlock b.2)
  start : ∀ k, ∀ t ∈ σ.queues (.recycle k), ∃ s, (t, s) ∈ allotments tr ∧
    (σ.threads t).startFrame.Within (stackBlock s) ∧
    ∀ b ∈ allotments tr, b.1 ≠ t → (σ.threads t).startFrame.Apart (stackBlock b.2)

def State.IsMain (σ : State) (t : ThreadId) : Prop := ∃ k, (σ.kthds k).mainThread = some t

def State.MainsSpared (σ : State) : Prop := ∀ k, ∀ t ∈ σ.queues (.recycle k), ¬ σ.IsMain t

/-- Step `l` does not take the main thread of a kernel thread through the end of `lwt_die`. -/
def State.SparesMain (σ : State) (l : Label) : Prop :=
  ∀ cur ∈ σ.lwtCurrent, .dieSnd ∈ σ.frame l → ¬ σ.IsMain cur

namespace Sched

variable {s s' s₁ : Sched} {b : Bool}

theorem Act.kthd (h : s.Act cur f rest b s₁) (k : KthdId) :
    (s₁.kthds k).mainThread = (s.kthds k).mainThread ∧
      (s₁.kthds k).currentThread = (s.kthds k).currentThread := by
  by_cases hk : k = s.currentKthd
  · subst hk
    cases h <;> simp [Sched.leave, Sched.spawn]
  · cases h <;> simp [Sched.leave, Sched.spawn, hk]

/-- A section makes no kernel thread and unmakes none. -/
theorem Effect.kthd (h : s.Effect cur f rest s') (k : KthdId) :
    (s'.kthds k).mainThread = (s.kthds k).mainThread ∧
      ((s'.kthds k).currentThread = none → (s.kthds k).currentThread = none) := by
  cases h with
  | stay h =>
    obtain ⟨hm, hc⟩ := h.kthd k
    exact ⟨hm, fun hnone => hc.symm.trans hnone⟩
  | @switch s₁ _ h hd =>
    obtain ⟨t, _, -, rfl⟩ := hd
    obtain ⟨hm, hc⟩ := h.kthd k
    rw [← hm, ← hc]
    by_cases hk : k = s₁.currentKthd
    · subst hk
      simp
    · simp [hk]

/-- Only the end of `lwt_die` fills a recycle queue. -/
theorem Act.mem_recycle (h : s.Act cur f rest b s₁) (ht : t ∈ s₁.queues (.recycle k)) :
    t ∈ s.queues (.recycle k) ∨ f = .dieSnd ∧ t = cur := by
  cases h with
  | wake u | adoptMove u | yieldTo u =>
    have ht : t ∈ (s.queues.rem u) (.recycle k) := by simpa [Rings.mem_append] using ht
    exact .inl (Rings.mem_of_mem_rem ht)
  | recycle u =>
    have ht : t ∈ (s.queues.rem u) (.recycle k) := by simpa [Rings.mem_add] using ht
    exact .inl (Rings.mem_of_mem_rem ht)
  | yield | sleepSnd =>
    have ht : t ∈ (s.queues.rem cur) (.recycle k) := by simpa [Rings.mem_add] using ht
    exact .inl (Rings.mem_of_mem_rem ht)
  | create => exact .inl (by simpa [Rings.mem_add] using ht)
  | sleepRcv | sleepGroup => exact .inl (Rings.mem_of_mem_rem ht)
  | wakeSleepSnd u =>
    have ht : t ∈ ((s.wake cur u).queues.rem cur) (.recycle k) := by
      simpa [Rings.mem_add] using ht
    have ht : t ∈ (s.queues.rem u) (.recycle k) := by
      simpa [Rings.mem_append] using Rings.mem_of_mem_rem ht
    exact .inl (Rings.mem_of_mem_rem ht)
  | die hf =>
    rcases Rings.mem_add.mp ht with ht | ⟨-, ht⟩
    · exact .inl (Rings.mem_of_mem_rem ht)
    · exact .inr ⟨hf, ht⟩
  | _ => exact .inl ht

theorem Effect.mem_recycle (h : s.Effect cur f rest s') (ht : t ∈ s'.queues (.recycle k)) :
    t ∈ s.queues (.recycle k) ∨ f = .dieSnd ∧ t = cur := by
  cases h with
  | stay h => exact h.mem_recycle ht
  | switch h hd => exact h.mem_recycle (hd.queues ▸ ht)

end Sched

theorem Section.isMain_iff (ht : WellFramed σ) (hs : Section σ l τ cur f rest) :
    τ.IsMain t ↔ σ.IsMain t :=
  exists_congr fun k => by
    rw [show (τ.kthds k).mainThread = (σ.kthds k).mainThread from ((ht.effect hs).kthd k).1]

/-- A section starts no thread, starts one in a recycled structure, or allocates both a structure
and a stack. -/
theorem Section.allotment (hs : Section σ l τ cur f rest) :
    (σ.allotment l = none ∧ τ.nthreads = σ.nthreads ∧
      ∀ t, (τ.threads t).initSp = (σ.threads t).initSp) ∨
    ∃ s, σ.allotment l = some (σ.nthreads, s) ∧ τ.nthreads = σ.nthreads + 1 ∧
      (τ.threads σ.nthreads).initSp = (stackBlock s).stop ∧
      ∀ t ≠ σ.nthreads, (τ.threads t).initSp = (σ.threads t).initSp := by
  have hsp (t : ThreadId) : (τ.threads t).initSp = (τ.roster.ident t).initSp := rfl
  have hn : τ.nthreads = τ.roster.nthreads := rfl
  have hroster := hs.roster
  simp only [hsp, hn, State.allotment, hs.frame, Option.bind_some]
  generalize τ.roster = ρ at hroster
  cases hroster with
  | same hf =>
    have hnone : f.creates = none := by
      rw [Option.eq_none_iff_forall_ne_some]
      exact fun a ha => hf a.1 a.2 (Frame.creates_eq_some.mp ha)
    exact .inl ⟨by rw [hnone, Option.bind_none], rfl, fun _ => rfl⟩
  | recycle flags mem t hf ht =>
    have hne : σ.queues σ.currentRecycleQueue ≠ [] := by
      rintro hnil
      rw [show σ.queues (.recycle σ.currentKthd) = [] from hnil] at ht
      cases ht
    refine .inl ⟨by simp [hf, Frame.creates, hne], rfl, fun u => ?_⟩
    by_cases hu : u = t
    · subst hu
      simp
    · simp [hu]
  | fresh flags mem s hf hq hstack =>
    have hq : σ.queues σ.currentRecycleQueue = [] := hq
    refine .inr ⟨s, by simp [hf, Frame.creates, hq, hstack], rfl, ?_, fun u hu => ?_⟩
    · simp [stackBlock, Extent.stop]
    · simp [hu]

structure Mains (σ : State) : Prop where
  lt : ∀ t, σ.IsMain t → t < σ.nthreads
  unmade : ∀ k, (σ.kthds k).currentThread = none → (σ.kthds k).mainThread = none

namespace Mains

variable (h : Mains σ)
include h

theorem isMain_initiate {mem : CreateMem} (hk : (σ.kthds k).currentThread = none)
    (hi : σ.initiate k mem = .ok τ) : τ.IsMain t ↔ t = σ.nthreads ∨ σ.IsMain t := by
  obtain ⟨th, ch, -, -, -, -, -, -, -, -, -, -, -, rfl⟩ := initiate_ok hi
  constructor
  · rintro ⟨k', hk'⟩
    by_cases he : k' = k
    · subst he
      exact .inl (by simpa using hk'.symm)
    · exact .inr ⟨k', by simpa [he] using hk'⟩
  · rintro (rfl | ⟨k', hk'⟩)
    · exact ⟨k, by simp⟩
    · have he : k' ≠ k := by
        rintro rfl
        rw [h.unmade _ hk] at hk'
        cases hk'
      exact ⟨k', by simpa [he] using hk'⟩

theorem step (ht : WellFramed σ) (hs : Step σ l τ) : Mains τ := by
  obtain ⟨cur, f, rest, hs⟩ | ⟨k, rfl, rfl⟩ | ⟨k, mem, rfl, hk, hi⟩ := step_cases hs
  · have hn : σ.nthreads ≤ τ.nthreads := by
      obtain ⟨-, hn, -⟩ | ⟨s, -, hn, -⟩ := hs.allotment <;> omega
    refine ⟨fun t hm => (h.lt t ((hs.isMain_iff ht).mp hm)).trans_le hn, fun k hk => ?_⟩
    obtain ⟨hmain, hcur⟩ := (ht.effect hs).kthd k
    exact hmain.trans (h.unmade k (hcur hk))
  · exact ⟨h.lt, h.unmade⟩
  · have hmain (t : ThreadId) := h.isMain_initiate (t := t) hk hi
    obtain ⟨th, ch, -, -, -, -, -, -, -, -, -, -, -, rfl⟩ := initiate_ok hi
    refine ⟨fun t hm => ?_, fun k' hk' => ?_⟩
    · rcases (hmain t).mp hm with rfl | hm
      · exact Nat.lt_succ_self _
      · exact Nat.lt_succ_of_lt (h.lt t hm)
    · by_cases he : k' = k
      · subst he
        simp at hk'
      · have hk' : (σ.kthds k').currentThread = none := by simpa [he] using hk'
        simpa [he] using h.unmade k' hk'

end Mains

theorem boot_mains (hb : σ.Boot k) : Mains σ := by
  have hbooted := boot_ok hb
  constructor
  · rintro t ⟨k', hk'⟩
    by_cases he : k' = k
    · subst he
      obtain rfl : 0 = t := by simpa [hbooted.kthd] using hk'
      exact hbooted.nthreads ▸ Nat.zero_lt_one
    · rw [boot_kthds hb he] at hk'
      cases hk'
  · intro k' hk'
    by_cases he : k' = k
    · subst he
      simp [hbooted.kthd] at hk'
    · rw [boot_kthds hb he]
      rfl

/-- What the run `tr` has given the threads of `σ`. -/
structure Stacked (tr : List (State × Label)) (σ : State) : Prop where
  given : ∀ a ∈ allotments tr, a.1 < σ.nthreads ∧ ¬ σ.IsMain a.1
  others : ∀ t < σ.nthreads, ¬ σ.IsMain t →
    ∃ s, (t, s) ∈ allotments tr ∧ (σ.threads t).initSp = (stackBlock s).stop

theorem allotments_snoc {p : State × Label} :
    allotments (tr ++ [p]) = allotments tr ++ (p.1.allotment p.2).toList := by
  rw [allotments, List.filterMap_append]
  cases h : p.1.allotment p.2 <;> simp [allotments, h]

theorem Stacked.step (h : Stacked tr σ) (hm : Mains σ) (ht : WellFramed σ) (hs : Step σ l τ) :
    Stacked (tr ++ [(σ, l)]) τ := by
  have hsnoc : allotments (tr ++ [(σ, l)]) = allotments tr ++ (σ.allotment l).toList :=
    allotments_snoc
  obtain ⟨cur, f, rest, hsec⟩ | ⟨k, rfl, rfl⟩ | ⟨k, mem, rfl, hk, hi⟩ := step_cases hs
  · have hmain (t : ThreadId) := hsec.isMain_iff (t := t) ht
    obtain ⟨hnone, hn, hsp⟩ | ⟨s, hsome, hn, hnew, hsp⟩ := hsec.allotment
    · rw [hnone, Option.toList_none, List.append_nil] at hsnoc
      constructor
      · intro a ha
        rw [hn, hmain]
        exact h.given a (hsnoc ▸ ha)
      · intro t hlt hnot
        rw [hn] at hlt
        rw [hmain] at hnot
        rw [hsnoc, hsp]
        exact h.others t hlt hnot
    · rw [hsome, Option.toList_some] at hsnoc
      have hfresh : ¬ σ.IsMain σ.nthreads := fun hm' => (hm.lt _ hm').false
      constructor
      · intro a ha
        rw [hn, hmain]
        rw [hsnoc, List.mem_append, List.mem_singleton] at ha
        rcases ha with ha | rfl
        · exact (h.given a ha).imp_left Nat.lt_succ_of_lt
        · exact ⟨Nat.lt_succ_self _, hfresh⟩
      · intro t hlt hnot
        rw [hn] at hlt
        rw [hmain] at hnot
        by_cases he : t = σ.nthreads
        · subst he
          exact ⟨s, by simp [hsnoc], hnew⟩
        · obtain ⟨s', hs', hsp'⟩ := h.others t (lt_of_le_of_ne (Nat.le_of_lt_succ hlt) he) hnot
          exact ⟨s', by simp [hsnoc, hs'], (hsp t he).trans hsp'⟩
  · have hsame : allotments (tr ++ [(σ, .switch k)]) = allotments tr := by
      simp [hsnoc, allotment, frame]
    constructor
    · rw [hsame]
      exact h.given
    · rw [hsame]
      exact h.others
  · have hmain (t : ThreadId) := hm.isMain_initiate (t := t) hk hi
    have hsame : allotments (tr ++ [(σ, .initiate k mem)]) = allotments tr := by
      simp [hsnoc, allotment, frame]
    obtain ⟨th, ch, -, -, -, -, -, -, -, -, -, -, -, rfl⟩ := initiate_ok hi
    constructor
    · intro a ha
      rw [hmain, not_or]
      obtain ⟨hlt, hnot⟩ := h.given a (hsame ▸ ha)
      exact ⟨Nat.lt_succ_of_lt hlt, hlt.ne, hnot⟩
    · intro t hlt hnot
      rw [hmain, not_or] at hnot
      have hlt : t < σ.nthreads := lt_of_le_of_ne (Nat.le_of_lt_succ hlt) hnot.1
      simpa [hsame, hnot.1] using h.others t hlt hnot.2

theorem Run.mains (h : Run σ₀ tr σ) (hb : σ₀.Boot k) : Mains σ := by
  have hinv : WellFramed σ ∧ Mains σ :=
    h.invariant (I := fun σ => WellFramed σ ∧ Mains σ) ⟨(boot_ok hb).wellFramed, boot_mains hb⟩
      fun _ _ _ hi hstep => ⟨hi.1.step hstep, hi.2.step hi.1 hstep⟩
  exact hinv.2

theorem Run.stacked (h : Run σ₀ tr σ) (hb : σ₀.Boot k) : Stacked tr σ := by
  induction h with
  | nil =>
    refine ⟨fun a ha => (List.not_mem_nil ha).elim, fun t ht hnot => ?_⟩
    have hbooted := boot_ok hb
    obtain rfl := hbooted.thread_eq ht
    exact absurd ⟨k, by simp [hbooted.kthd]⟩ hnot
  | snoc hr hs ih => exact ih.step (Run.mains hr hb) (Run.wellFramed hr hb) hs

/-- The recycled threads have stacks of their own if none of them is the main thread of a kernel
thread, and not otherwise. -/
theorem privateStacks_iff (h : Stacked tr σ) (hw : σ.sched.Wired)
    (hmem : (allotments tr).Pairwise fun a b => (stackBlock a.2).Apart (stackBlock b.2)) :
    PrivateStacks tr σ ↔ σ.MainsSpared := by
  have hsymm : Std.Symm fun a b : ThreadId × ℕ => (stackBlock a.2).Apart (stackBlock b.2) :=
    ⟨fun _ _ h => h.symm⟩
  constructor
  · intro hp k t ht
    obtain ⟨s, hs, -⟩ := hp.own k t ht
    exact (h.given _ hs).2
  · intro hnot
    have hother {k : KthdId} {t : ThreadId} (ht : t ∈ σ.queues (.recycle k)) :=
      h.others t (hw.lt ht) (hnot k t ht)
    have hapart (a) (ha : a ∈ allotments tr) (b) (hb : b ∈ allotments tr) (hne : a.1 ≠ b.1) :
        (stackBlock a.2).Apart (stackBlock b.2) :=
      hmem.forall ha hb fun he => hne (congrArg Prod.fst he)
    refine ⟨fun k t ht => hother ht, hapart, fun k t ht => ?_⟩
    obtain ⟨s, hs, hsp⟩ := hother ht
    have hwithin : (σ.threads t).startFrame.Within (stackBlock s) := by
      rw [Thread.startFrame, hsp]
      exact Extent.within_last (by simp [stackBlock])
    exact ⟨s, hs, hwithin, fun b hb hne => (hapart _ hs b hb hne.symm).mono hwithin⟩

/-- A main thread comes to a recycle queue at the end of its `lwt_die` only. -/
theorem spared_step (hw : σ.sched.Wired) (ht : WellFramed σ) (hm : Mains σ)
    (hP : σ.MainsSpared) (hs : Step σ l τ) : τ.MainsSpared ↔ σ.SparesMain l := by
  obtain ⟨cur, f, rest, hsec⟩ | ⟨k, rfl, rfl⟩ | ⟨k, mem, rfl, hk, hi⟩ := step_cases hs
  · have hmain (t : ThreadId) := hsec.isMain_iff (t := t) ht
    have hspares : σ.SparesMain l ↔ (f = .dieSnd → ¬ σ.IsMain cur) := by
      unfold State.SparesMain
      simp [hsec.current, hsec.frame]
    rw [hspares]
    constructor
    · rintro hτ rfl hcur
      exact hτ _ cur (dieSnd_section hw hsec).2 ((hmain cur).mpr hcur)
    · intro hC k t hmem hmt
      rw [hmain] at hmt
      rcases (ht.effect hsec).mem_recycle hmem with hmem | ⟨hf, rfl⟩
      · exact hP k t hmem hmt
      · exact hC hf hmt
  · exact iff_of_true hP fun cur _ hf => by cases hf
  · refine iff_of_true (fun k' t hmem hmt => ?_) fun cur _ hf => by cases hf
    rw [hm.isMain_initiate hk hi] at hmt
    obtain ⟨th, ch, -, -, -, -, -, -, -, -, -, -, -, rfl⟩ := initiate_ok hi
    have hmem : t ∈ σ.queues (.recycle k') := by
      simp only [Rings.mem_append] at hmem
      by_cases he : k' = k
      · subst he
        simp [Rings.clear] at hmem
      · simpa [Rings.clear, he] using hmem
    rcases hmt with rfl | hmt
    · exact (hw.lt hmem).false
    · exact hP k' t hmem hmt

/-- In every run in which `umalloc` hands out disjoint blocks for the stacks, every recycled thread
has a stack of its own in every state if and only if no main thread of a kernel thread gets through
`lwt_die`. -/
theorem private_stacks_iff (h : Run σ₀ tr σ) (hb : σ₀.Boot k)
    (hmem : (allotments tr).Pairwise fun a b => (stackBlock a.2).Apart (stackBlock b.2)) :
    (∀ i v, (Transition.visited tr σ)[i]? = some v → PrivateStacks (tr.take i) v) ↔
      ∀ p ∈ tr, p.1.SparesMain p.2 := by
  have hiff (i : ℕ) (v : State) (hv : (Transition.visited tr σ)[i]? = some v) :
      PrivateStacks (tr.take i) v ↔ v.MainsSpared := by
    have hr : Run σ₀ (tr.take i) v := h.take_visited hv
    exact privateStacks_iff (Run.stacked hr hb) (Run.wired hr hb)
      (hmem.sublist ((List.take_sublist i tr).filterMap _))
  have hvisited : (∀ i v, (Transition.visited tr σ)[i]? = some v → PrivateStacks (tr.take i) v) ↔
      ∀ v ∈ Transition.visited tr σ, v.MainsSpared := by
    simp only [List.mem_iff_getElem?]
    constructor
    · rintro hp v ⟨i, hi⟩
      exact (hiff i v hi).mp (hp i v hi)
    · intro hp i v hi
      exact (hiff i v hi).mpr (hp v ⟨i, hi⟩)
  rw [hvisited]
  refine Transition.Run.forall_visited_iff (I := fun σ => σ.sched.Wired ∧ WellFramed σ ∧ Mains σ)
    (D := fun _ _ => True) h (fun _ _ => trivial)
    ⟨boot_wired hb, (boot_ok hb).wellFramed, boot_mains hb⟩ ?_ ?_ ?_
  · intro k' t ht
    simp [(boot_ok hb).queues] at ht
  · rintro _ _ _ ⟨hw, ht, hm⟩ - hs
    exact ⟨wired_step ht hw hs, ht.step hs, hm.step ht hs⟩
  · rintro _ _ _ ⟨hw, ht, hm⟩ hP - hs
    exact spared_step hw ht hm hP hs

def stackMem (stack : ℕ) : CreateMem := { createMem with stack := some stack }

/-- Two children, of which the first dies and is joined; the next thread takes over its stack. -/
def inheritRun : List Label :=
  [.call (.lwtCreate 0 (stackMem 1000000)), .call (.lwtCreate 0 (stackMem 2000000)),
    .call (.lwtJoin 1), .resume, .call (.lwtDie (.word 7)), .resume, .resume, .resume, .resume,
    .resume, .resume, .call (.lwtCreate 0 createMem)]

theorem inheritRun_private :
    (∀ i v, (Transition.visited (booted.trace inheritRun) (booted.after inheritRun))[i]? = some v →
      PrivateStacks ((booted.trace inheritRun).take i) v) ↔
        ∀ p ∈ booted.trace inheritRun, p.1.SparesMain p.2 := by
  refine private_stacks_iff (State.run_trace booted inheritRun) boot_booted ?_
  have hstacks : allotments (booted.trace inheritRun) = [(1, 1000000), (2, 2000000)] := by
    decide +kernel
  rw [hstacks, List.pairwise_pair]
  exact Extent.apart_of_stop_le (by decide)

def mainDiesRun : List Label :=
  [.call (.lwtCreate 0 (stackMem 1000000)), .call (.lwtDie (.word 7)), .resume, .resume]

/-- Its structure is recycled with an `init_sp` that nobody has written. -/
theorem main_not_private : (booted.trace mainDiesRun).length = mainDiesRun.length ∧
    0 ∈ (booted.after mainDiesRun).queues (.recycle 1) ∧
    allotments (booted.trace mainDiesRun) = [(1, 1000000)] ∧
    ((booted.after mainDiesRun).threads 0).initSp = 0 ∧
    ¬ PrivateStacks (booted.trace mainDiesRun) (booted.after mainDiesRun) := by
  have hmem : 0 ∈ (booted.after mainDiesRun).queues (.recycle 1) := by decide +kernel
  have hstacks : allotments (booted.trace mainDiesRun) = [(1, 1000000)] := by decide +kernel
  refine ⟨by decide +kernel, hmem, hstacks, by decide +kernel, fun h => ?_⟩
  obtain ⟨s, hs, -⟩ := h.own 1 0 hmem
  rw [hstacks] at hs
  simp at hs

end Lwt
