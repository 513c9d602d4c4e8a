import Lwt.Schedule

/-! `__resume_thread` and the thread that it resumes: the run queue is that of the kernel thread
that owns the running thread, and the counters are those of the running kernel thread. The
thread resumed can belong to another one, and can have been counted by a third. -/

namespace Lwt

open State

variable {σ τ σ₀ : State} {l : Label} {cur t : ThreadId} {f : Frame} {rest : List Frame}
  {k : KthdId} {tr : List (State × Label)} {es es' : List Event} {e : Event}

/-- The kernel thread whose counters the event counted thread `t` on. -/
def Event.blocked (t : ThreadId) : Event → Option KthdId
  | .block u k => if u = t then some k else none
  | _ => none

/-- The kernel thread that has counted `t` last, behind the events `es`. -/
def countedOn (es : List Event) (t : ThreadId) : Option KthdId :=
  (es.filterMap (Event.blocked t)).getLast?

/-- A thread that was resumed behind the events `es` went to the run queue of its owner and off
the counters that it was put on. -/
def Event.Follows (es : List Event) : Event → Prop
  | .resume t k q owner => q = owner ∧ countedOn es t = some k
  | _ => True

def Event.isResume : Event → Bool
  | .resume .. => true
  | _ => false

def Followed (hist : List Event) : Prop := ∀ es e, es ++ [e] <+: hist → e.Follows es

theorem followed_iff {hist : List Event} :
    Followed hist ↔ ∀ i < hist.length, ∀ e ∈ hist[i]?, e.Follows (hist.take i) := by
  constructor
  · intro h i hi e he
    refine h _ e ?_
    rw [Option.mem_def, List.getElem?_eq_some_iff] at he
    obtain ⟨hi, rfl⟩ := he
    rw [List.take_append_getElem]
    exact List.take_prefix _ _
  · rintro h es e ⟨b, rfl⟩
    have := h es.length (by simp) e (by simp)
    simpa using this

instance (es : List Event) : DecidablePred (Event.Follows es) := fun e => by
  unfold Event.Follows
  split <;> infer_instance

instance (hist : List Event) : Decidable (Followed hist) := decidable_of_iff _ followed_iff.symm

theorem followed_snoc {hist : List Event} :
    Followed (hist ++ [e]) ↔ Followed hist ∧ e.Follows hist := by
  unfold Followed
  simp only [List.prefix_concat_iff]
  constructor
  · intro h
    exact ⟨fun es e' he => h es e' (.inr he), h _ e (.inl rfl)⟩
  · rintro ⟨h, he⟩ es e' (heq | hpre)
    · obtain ⟨rfl, he'⟩ := List.append_inj' heq rfl
      rw [List.singleton_inj.mp he']
      exact he
    · exact h es e' hpre

/-- Events that resume nobody. -/
theorem followed_append {hist : List Event} (hes : ∀ e ∈ es, e.isResume = false) :
    Followed (hist ++ es) ↔ Followed hist := by
  induction es using List.reverseRecOn with
  | nil => rw [List.append_nil]
  | append_singleton es e ih =>
    rw [← List.append_assoc, followed_snoc, ih fun e he => hes e (by simp [he])]
    refine and_iff_left ?_
    have he := hes e (by simp)
    cases e with
    | resume => cases he
    | _ => trivial

namespace State

def resumes (σ : State) : Frame → Option ThreadId
  | .call (.lwtSnd c _) =>
    match (σ.chans c).type, (σ.chans c).receiver with
    | .local, some r =>
      if (σ.threads r).task.Receiving ∧ (σ.threads r).nowRcving = some c then some r else σ.awoken c
    | _, _ => none
  | .call (.lwtRcv c) =>
    if (σ.chans c).type = .local then (σ.queues (.sender c)).head? else none
  | _ => none

/-- What `__resume_thread(t)` logs. -/
def resumeEvent (σ : State) (cur t : ThreadId) : Event :=
  .resume t σ.currentKthd (σ.threads cur).ownerKthd (σ.threads t).ownerKthd

/-- The thread goes to the run queue that the event names, and off the counters that it names. -/
theorem resumeThread_records (σ : State) (cur t : ThreadId) :
    (σ.resumeThread cur t).history = σ.history ++ [σ.resumeEvent cur t] ∧
      t ∈ (σ.resumeThread cur t).queues (.run (σ.threads cur).ownerKthd) ∧
      ((σ.resumeThread cur t).kthds σ.currentKthd).blockCounter =
        (σ.kthds σ.currentKthd).blockCounter - 1 := by
  refine ⟨rfl, ?_, by simp [resumeThread]⟩
  simp [resumeThread, ownerRunQueue]

variable {c : ChanId} {d : Data} {n : Next} {ν : Net} {σ' : State}

/-- Behind the history of `σ` a section at frame `f` resumes one thread at most, before it logs
anything else. -/
def ResumesFirst (σ : State) (cur : ThreadId) (f : Frame) (hist : List Event) : Prop :=
  ∃ es, (∀ e ∈ es, e.isResume = false) ∧
    hist = σ.history ++ (σ.resumes f).toList.map (σ.resumeEvent cur) ++ es

theorem WakeGroup.resumes (h : WakeGroup (σ.modChan c fun ch => { ch with ready := 1 }) cur
      (σ.chans c).cgroup τ) :
    τ.history = σ.history ++ (σ.awoken c).toList.map (σ.resumeEvent cur) := by
  cases h with
  | skip h =>
    have hnone : σ.awoken c = none := by
      unfold awoken
      cases hc : (σ.chans c).cgroup with
      | none => rfl
      | some g =>
        have hb : (σ.cgrps g).blocked = false := h g hc
        simp [hb]
    simp [hnone]
  | wake g hc hg hb =>
    have hb : (σ.cgrps g).blocked = true := hb
    have hsome : σ.awoken c = some (σ.cgrps g).owner := by simp [awoken, hc, hb]
    rw [hsome]
    rfl

theorem LwtSnd.resumes (h : LwtSnd σ cur c d σ' n) :
    ResumesFirst σ cur (.call (.lwtSnd c d)) σ'.history := by
  cases h with
  | sync r ht => exact ⟨[.snd cur c d], by simp [Event.isResume], by simp [State.resumes, ht]⟩
  | noReceiver ht hr =>
    exact ⟨[.sndNone cur c d], by simp [Event.isResume], by simp [State.resumes, ht, hr]⟩
  | handOff r ht hr hlt hb hn =>
    refine ⟨[.snd cur c d, .sndDone cur c], by simp [Event.isResume], ?_⟩
    have hown : ((σ.modThread r fun th => { th with messageData := d }).threads cur).ownerKthd =
        (σ.threads cur).ownerKthd := by
      by_cases h : cur = r
      · subst h
        simp
      · simp [h]
    simp [State.resumes, ht, hr, hb, hn, resumeThread, resumeEvent, ← hown]
  | ring r σ₁ ht hr hb hw =>
    refine ⟨[.snd cur c d, .sndDone cur c], by simp [Event.isResume], ?_⟩
    simp [State.resumes, ht, hr, hb, hw.resumes]
  | block r σ₁ ht hr hb hw =>
    refine ⟨[.snd cur c d, .block cur σ₁.currentKthd], by simp [Event.isResume], ?_⟩
    simp [State.resumes, ht, hr, hb, hw.resumes, blockThread_sending, countBlocked]

theorem LwtRcv.resumes (h : LwtRcv σ cur c σ' n) :
    ResumesFirst σ cur (.call (.lwtRcv c)) σ'.history := by
  cases h with
  | sync r ht => exact ⟨[], by simp, by simp [State.resumes, ht]⟩
  | ring ht _ _ _ hq =>
    exact ⟨[.rcv cur c ((σ.chans c).buffer.front (σ.chans c).size)], by simp [Event.isResume],
      by simp [State.resumes, ht, hq]⟩
  | refill s q ht _ _ _ hq =>
    refine ⟨[.rcv cur c ((σ.chans c).buffer.front (σ.chans c).size)], by simp [Event.isResume], ?_⟩
    simp [State.resumes, ht, hq, resumeThread, resumeEvent]
  | sender s q ht _ hq =>
    refine ⟨[.rcv cur c (σ.threads s).messageData], by simp [Event.isResume], ?_⟩
    simp [State.resumes, ht, hq, resumeThread, resumeEvent]
  | block ht _ hq =>
    refine ⟨[.block cur σ.currentKthd], by simp [Event.isResume], ?_⟩
    simp [State.resumes, ht, hq, blockThread_receiving, countBlocked]

/-- Only `lwt_snd` and `lwt_rcv` resume a thread. -/
theorem NetEffect.resumes (h : NetEffect σ cur f ν) : ResumesFirst σ cur f ν.history := by
  have hquiet (es : List Event) (hf : σ.resumes f = none) (hes : ∀ e ∈ es, e.isResume = false)
      (hν : ν.history = σ.history ++ es) : ResumesFirst σ cur f ν.history :=
    ⟨es, hes, by simp [hf, hν]⟩
  cases h with
  | snd _ _ h => exact h.resumes
  | rcv _ _ h => exact h.resumes
  | syncRcv _ _ h =>
    cases h with
    | read => exact hquiet [.rcv cur _ _] rfl (by simp [Event.isResume]) rfl
    | empty => exact hquiet [] rfl (by simp) (by simp)
  | same hf =>
    refine hquiet [] ?_ (by simp) (by simp)
    unfold State.resumes
    split
    · exact hf.elim
    · exact hf.elim
    · rfl
  | sleep hf =>
    obtain ⟨c, rfl⟩ | ⟨g, rfl⟩ := hf
    · exact hquiet [.block cur σ.currentKthd] rfl (by simp [Event.isResume]) rfl
    · exact hquiet [.block cur σ.currentKthd] rfl (by simp [Event.isResume]) rfl
  | setType | mark | cgrpAdd | cgrpRem | cgrp => exact hquiet [] rfl (by simp) (by simp)
  | _ => exact hquiet _ rfl (by simp [Event.isResume]) rfl

end State

/-- A thread that step `l` resumes belongs to the owner of the running thread, and was counted
on the running kernel thread when it fell asleep. -/
def ResumesOwn (σ : State) (l : Label) : Prop :=
  ∀ cur ∈ σ.lwtCurrent, ∀ f ∈ σ.frame l, ∀ t ∈ σ.resumes f,
    (σ.threads cur).ownerKthd = (σ.threads t).ownerKthd ∧
      countedOn σ.history t = some σ.currentKthd

instance (σ : State) (l : Label) : Decidable (ResumesOwn σ l) :=
  inferInstanceAs (Decidable (∀ cur ∈ σ.lwtCurrent, ∀ f ∈ σ.frame l, ∀ t ∈ σ.resumes f, _ ∧ _))

theorem followed_step (hs : Step σ l τ) (h : Followed σ.history) :
    Followed τ.history ↔ ResumesOwn σ l := by
  obtain ⟨cur, f, rest, hsec⟩ | ⟨k, rfl, rfl⟩ | ⟨k, mem, rfl, -, hi⟩ := step_cases hs
  · have hiff : ResumesOwn σ l ↔ ∀ t ∈ σ.resumes f,
        (σ.threads cur).ownerKthd = (σ.threads t).ownerKthd ∧
          countedOn σ.history t = some σ.currentKthd := by
      unfold ResumesOwn
      simp [hsec.current, hsec.frame]
    obtain ⟨es, hes, he⟩ := (exec_net hsec.exec).resumes
    have he : τ.history = σ.history ++ (σ.resumes f).toList.map (σ.resumeEvent cur) ++ es := he
    rw [hiff, he, followed_append hes]
    cases hr : σ.resumes f with
    | none => simpa using h
    | some t =>
      rw [Option.toList_some, List.map_singleton, followed_snoc, and_iff_right h]
      simp [resumeEvent, Event.Follows]
  · exact iff_of_true h fun cur _ f hf => by cases hf
  · refine iff_of_true ?_ fun cur _ f hf => by cases hf
    obtain ⟨th, ch, -, -, -, -, -, -, -, -, -, -, -, rfl⟩ := initiate_ok hi
    exact (followed_append (by simp [Event.isResume])).mpr h

/-- In every run, with any number of kernel threads, the threads resumed go to the run queues of
their owners and off the counters that they were put on if and only if each step resumes such
threads only. -/
theorem resumes_own_iff (h : Run σ₀ tr σ) (hb : σ₀.Boot k) :
    (∀ v ∈ Transition.visited tr σ, Followed v.history) ↔ ∀ p ∈ tr, ResumesOwn p.1 p.2 := by
  refine Transition.Run.forall_visited_iff (I := fun _ => True) (D := fun _ _ => True) h
    (fun _ _ => trivial) trivial ?_ (fun _ _ _ _ _ _ => trivial)
    fun _ _ _ _ hP _ hs => followed_step hs hP
  have hnil : Followed ([] : List Event) := fun es e he => by simp at he
  rw [(boot_ok hb).history, ← List.nil_append [_, _]]
  exact (followed_append (by simp [Event.isResume])).mpr hnil

/-- Thread `1`, a child of the main thread, sleeps and is resumed; then it is sent to the main
thread of another kernel thread, which runs it while its parent sleeps in `lwt_join`. -/
def migrantRun : List Label :=
  [.call (.lwtCreate 0 createMem), .call (.lwtCreate 0 createMem), .call (.lwtYield none),
    .call (.lwtChan 0 chanMem), .call (.lwtRcv 3), .call (.lwtSnd 3 (.word 5)),
    .initiate 2 createMem, .switch 2, .call (.lwtChan 1 chanMem), .switch 1,
    .call (.lwtSndThd 5 1), .resume, .switch 2, .call (.lwtRcvThd 5), .resume, .resume,
    .switch 1, .call (.lwtYield none), .call (.lwtJoin 1), .resume, .switch 2,
    .call (.lwtYield none), .resume, .call (.lwtDie (.word 7)), .resume]

/-- The thread that was sent sleeps again on the other kernel thread, and is resumed there. -/
def homeRun : List Label :=
  migrantRun.take 16 ++
    [.call (.lwtYield none), .resume, .call (.lwtRcv 3), .call (.lwtSnd 3 (.word 6))]

theorem homeRun_resumes_own : (booted.trace homeRun).length = homeRun.length ∧
    ((booted.after homeRun).threads 1).ownerKthd = 2 ∧
    1 ∈ (booted.after homeRun).queues (.run 2) ∧
    ∀ v ∈ Transition.visited (booted.trace homeRun) (booted.after homeRun), Followed v.history := by
  refine ⟨by decide +kernel, by decide +kernel, by decide +kernel, ?_⟩
  exact (resumes_own_iff (State.run_trace booted homeRun) boot_booted).mpr (by decide +kernel)

/-- The parent, which belongs to the first kernel thread and sleeps there, wakes up on the run
queue of the second. -/
theorem parent_follows_child : (booted.trace migrantRun).length = migrantRun.length ∧
    ((booted.after migrantRun).threads 0).ownerKthd = 1 ∧
    0 ∈ (booted.after migrantRun).queues (.run 2) ∧
    countedOn (booted.after migrantRun).history 0 = some 1 ∧
    ((booted.after migrantRun).kthds 1).blockCounter = 1 ∧
    ((booted.after migrantRun).kthds 2).blockCounter = -1 ∧
    ¬ Followed (booted.after migrantRun).history := by
  decide +kernel

end Lwt
