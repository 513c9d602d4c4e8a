import Lwt.Inversion

/-! Every section of the library does to the scheduler one of the things that
`Sched.Effect` lists. -/

namespace Lwt

namespace State

variable {σ τ : State} {cur : ThreadId} {c : ChanId} {d : Data} {n : Next} {k : List Frame}

section Projections

theorem task_update (threads : ThreadId → Thread) (t : ThreadId) {f : Thread → Thread}
    {g : Task → Task} (h : ∀ th, (f th).task = g th.task) :
    (fun u => (Function.update threads t (f (threads t)) u).task) =
      Function.update (fun u => (threads u).task) t (g (threads t).task) := by
  funext u
  by_cases hu : u = t
  · subst hu
    simp [h]
  · simp [hu]

theorem modThread_sched (σ : State) (t : ThreadId) {f : Thread → Thread} {g : Task → Task}
    (h : ∀ th, (f th).task = g th.task) : (σ.modThread t f).sched = σ.sched.modTask t g :=
  Sched.ext rfl rfl (task_update _ _ h) rfl rfl rfl rfl

/-- A write to fields that the scheduler does not know. -/
theorem modThread_sched_self (σ : State) (t : ThreadId) {f : Thread → Thread}
    (h : ∀ th, (f th).task = th.task) : (σ.modThread t f).sched = σ.sched := by
  rw [modThread_sched σ t (g := id) h, Sched.modTask, id, Function.update_eq_self]

@[simp] theorem emit_sched (σ : State) (e : Event) : (σ.emit e).sched = σ.sched := rfl

@[simp] theorem modChan_sched (σ : State) (c : ChanId) (f : Chan → Chan) :
    (σ.modChan c f).sched = σ.sched := rfl

@[simp] theorem modKthd_sched (σ : State) (k : KthdId) (f : Kthd → Kthd) :
    (σ.modKthd k f).sched = σ.sched.modKthd k f := rfl

@[simp] theorem modCgrp_sched (σ : State) (g : CgrpId) (f : Cgrp → Cgrp) :
    (σ.modCgrp g f).sched = σ.sched.modCgrp g f := rfl

theorem listRem_listHeadAppend_sched (σ : State) (q : Queue) (t : ThreadId) :
    ((σ.listRem t).listHeadAppend q t).sched = σ.sched.moveBeforeLast q t := rfl

theorem resumeThread_sched (σ : State) (cur t : ThreadId) :
    (σ.resumeThread cur t).sched = σ.sched.wake cur t := by
  refine Sched.ext rfl rfl ?_ rfl rfl rfl rfl
  exact task_update σ.threads t (f := fun th => { th with state := .runnable })
    (g := fun th => { th with state := .runnable }) fun _ => rfl

theorem requeue_of_not_canRun {σ : State} {cur : ThreadId} (h : ¬ (σ.threads cur).task.CanRun) :
    σ.requeue cur = σ :=
  if_neg h

theorem requeue_of_canRun {σ : State} {cur : ThreadId} (h : (σ.threads cur).task.CanRun) :
    σ.requeue cur = (σ.listRem cur).listHeadAdd (σ.ownerRunQueue cur) cur :=
  if_pos h

/-- A thread that has just been marked blocked is not put back on a run queue. -/
theorem countBlocked_requeue (σ : State) (cur : ThreadId) (bf : BlockStatus) :
    (σ.countBlocked cur bf).requeue cur = σ.countBlocked cur bf :=
  requeue_of_not_canRun (by simp [countBlocked, Task.CanRun])

theorem blockThread_receiving (σ : State) (cur : ThreadId) (c : ChanId) :
    σ.blockThread cur .receiving c = σ.countBlocked cur .receiving :=
  countBlocked_requeue σ cur .receiving

theorem blockThread_sending (σ : State) (cur : ThreadId) (c : ChanId) :
    σ.blockThread cur .sending c = (σ.countBlocked cur .sending).listHeadAdd (.sender c) cur :=
  requeue_of_not_canRun (by simp [countBlocked, Task.CanRun])

theorem finish_ret (h : σ.finish cur k (.ret d) = .ok τ) : τ.sched = σ.sched.leave cur k := by
  cases h
  exact modThread_sched _ _ fun _ => rfl

theorem finish_goto {fs : List Frame} (h : σ.finish cur k (.goto fs) = .ok τ) :
    τ.sched = σ.sched.leave cur (fs ++ k) := by
  cases h
  exact modThread_sched _ _ fun _ => rfl

/-- The end of a section links and unlinks nothing. -/
theorem finish_queues (h : σ.finish cur k n = .ok τ) : τ.queues = σ.queues := by
  cases n with
  | ret d => cases h; rfl
  | goto fs => cases h; rfl
  | schedule fs =>
    obtain ⟨t, l, -, rfl⟩ := lwtSchedule_ok h
    rfl

theorem lwtSchedule_sched (h : σ.lwtSchedule = .ok τ) : σ.sched.Dispatch τ.sched := by
  obtain ⟨t, rest, hq, rfl⟩ := lwtSchedule_ok h
  refine ⟨t, rest, hq, Sched.ext rfl rfl ?_ rfl rfl rfl rfl⟩
  exact task_update σ.threads t (f := fun th => { th with state := .running })
    (g := fun th => { th with state := .running }) fun _ => rfl

theorem finish_schedule {fs : List Frame} (h : σ.finish cur k (.schedule fs) = .ok τ) :
    (σ.sched.leave cur (fs ++ k)).Dispatch τ.sched := by
  have := lwtSchedule_sched h
  rwa [modThread_sched σ cur (g := fun th => { th with context := fs ++ k }) fun _ => rfl] at this

end Projections

section Effects

variable {σ' : State} {f : Frame}

/-- The section goes on without `__lwt_schedule`, and into a group wait only
from a call of `lwt_cgrp_wait`. -/
@[simp] def GoesOn (σ : State) (f : Frame) : Next → Prop
  | .ret _ => True
  | .goto fs =>
    Pushed fs ∧ ∀ g, .cgrpWaitLoop g ∈ fs → f = .call (.lwtCgrpWait g) ∧ g < σ.ncgrps
  | .schedule _ => False

theorem quiet_effect (hfin : σ'.finish cur k n = .ok τ) (hs : σ'.sched = σ.sched)
    (hf : ∀ g, f ≠ .cgrpWaitLoop g) (hn : GoesOn σ f n) : σ.sched.Effect cur f k τ.sched := by
  cases n with
  | ret d =>
    rw [finish_ret hfin, hs]
    exact .stay (.quiet [] hf .nil (by simp))
  | goto fs =>
    rw [finish_goto hfin, hs]
    exact .stay (.quiet fs hf hn.1 hn.2)
  | schedule fs => exact hn.elim

theorem sleepRcv_sched (σ : State) (cur : ThreadId) (c : ChanId) (ctx : List Frame) :
    ((σ.modThread cur fun th => { th with nowRcving := some c }).countBlocked cur
      .receiving).sched.leave cur ctx = σ.sched.sleepRcv cur (some c) ctx := by
  refine Sched.ext rfl rfl ?_ rfl rfl rfl rfl
  funext u
  by_cases hu : u = cur
  · subst hu
    simp [countBlocked, Thread.task]
  · simp [countBlocked, hu]

theorem sleepGroup_sched (σ : State) (cur : ThreadId) (g : CgrpId) (ctx : List Frame) :
    ((σ.modCgrp g fun gr => { gr with blocked := true }).countBlocked cur
      .receiving).sched.leave cur ctx =
        (σ.sched.modCgrp g fun gr => { gr with blocked := true }).sleepRcv cur
          (σ.sched.tasks cur).nowRcving ctx := by
  refine Sched.ext rfl rfl ?_ rfl rfl rfl rfl
  funext u
  by_cases hu : u = cur
  · subst hu
    simp [countBlocked, Thread.task]
  · simp [countBlocked, hu]

theorem sleepSnd_sched (σ : State) (cur : ThreadId) (c : ChanId) (d : Data) (ctx : List Frame) :
    ((σ.modThread cur fun th => { th with messageData := d }).blockThread cur
      .sending c).sched.leave cur ctx = σ.sched.sleepSnd cur c ctx := by
  rw [blockThread_sending]
  refine Sched.ext rfl rfl ?_ rfl rfl rfl rfl
  funext u
  by_cases hu : u = cur
  · subst hu
    simp [countBlocked, Thread.task]
  · simp [countBlocked, hu]

theorem WakeGroup.sched {τ : State} (h : WakeGroup (σ.modChan c fun ch => { ch with ready := 1 })
    cur (σ.chans c).cgroup τ) : τ.sched = σ.sched ∨
      ∃ t, σ.sched.Wakes (.call (.lwtSnd c d)) t ∧ τ.sched = σ.sched.wake cur t := by
  cases h with
  | skip => exact .inl rfl
  | wake g hc hg hb =>
    refine .inr ⟨_, .group c d g rfl hg hb rfl, ?_⟩
    exact resumeThread_sched _ _ _

theorem lwtSnd_effect (h : LwtSnd σ cur c d σ' n) (hfin : σ'.finish cur k n = .ok τ) :
    σ.sched.Effect cur (.call (.lwtSnd c d)) k τ.sched := by
  cases h with
  | sync => exact quiet_effect hfin rfl (by simp) (by simp)
  | noReceiver => exact quiet_effect hfin rfl (by simp) (by simp)
  | handOff r _ _ hlt hb hn =>
    rw [finish_ret hfin, emit_sched, emit_sched, resumeThread_sched,
      modThread_sched_self (f := fun th => { th with messageData := d }) _ _ fun _ => rfl]
    exact .stay (.wake r (.handOff c d rfl hlt hb hn))
  | ring r σ₁ _ _ _ hw =>
    rw [finish_ret hfin, emit_sched, modChan_sched, emit_sched]
    rcases hw.sched (d := d) with hs | ⟨t, ht, hs⟩ <;> rw [hs]
    · exact .stay (.quiet [] (by simp) .nil (by simp))
    · exact .stay (.wake t ht)
  | block r σ₁ _ _ _ hw =>
    have hd := finish_schedule hfin
    rw [sleepSnd_sched, emit_sched] at hd
    rcases hw.sched (d := d) with hs | ⟨t, ht, hs⟩ <;> rw [hs] at hd
    · exact .switch (.sleepSnd c d rfl) hd
    · exact .switch (.wakeSleepSnd t c d rfl ht) hd

theorem lwtRcv_effect (h : LwtRcv σ cur c σ' n) (hfin : σ'.finish cur k n = .ok τ) :
    σ.sched.Effect cur (.call (.lwtRcv c)) k τ.sched := by
  cases h with
  | sync => exact quiet_effect hfin rfl (by simp) (by simp)
  | ring => exact quiet_effect hfin rfl (by simp) (by simp)
  | refill s rest _ _ _ _ hq | sender s rest _ _ hq =>
    rw [finish_ret hfin, emit_sched, modChan_sched, resumeThread_sched]
    exact .stay (.wake s (.sender c rfl (by simp [hq])))
  | block =>
    have hd := finish_schedule hfin
    rw [blockThread_receiving, sleepRcv_sched] at hd
    exact .switch (.sleepRcv (some c) (.rcvRet c) (.rcv c rfl)) hd

theorem lwtYield_effect {yieldTo : Option ThreadId} (h : σ.lwtYield cur yieldTo = .ok (σ', n))
    (hfin : σ'.finish cur k n = .ok τ) :
    σ.sched.Effect cur (.call (.lwtYield yieldTo)) k τ.sched := by
  rcases lwtYield_ok h with ⟨rfl, rfl, rfl⟩ | ⟨t, rfl, ht, ⟨-, rfl, rfl⟩ | ⟨-, hr, rfl, rfl⟩⟩
  · have hd := finish_schedule hfin
    by_cases hr : (σ.threads cur).task.CanRun
    · rw [requeue_of_canRun hr] at hd
      exact .switch (.yield rfl hr) hd
    · rw [requeue_of_not_canRun hr] at hd
      exact .switch (.idle [] (by simp) .nil (by simp) (.inr hr)) hd
  · exact quiet_effect hfin rfl (by simp) trivial
  · exact .switch (.yieldTo t rfl ht hr) (finish_schedule hfin)

theorem lwtCgrpWaitLoop_effect {g : CgrpId} (h : CgrpWaitLoop σ cur g σ' n)
    (hfin : σ'.finish cur k n = .ok τ) : σ.sched.Effect cur (.cgrpWaitLoop g) k τ.sched := by
  cases h with
  | done =>
    rw [finish_ret hfin]
    exact .stay (.waitDone g rfl)
  | block =>
    have hd := finish_schedule hfin
    rw [countBlocked_requeue, sleepGroup_sched] at hd
    exact .switch (.sleepGroup g rfl) hd

theorem clear_of_eq_nil {r : Rings Queue ThreadId} {q : Queue} (h : r q = []) : r.clear q = r := by
  rw [Rings.clear, ← h, Function.update_eq_self]

theorem lwtCreate_effect {flags : ℤ} {mem : CreateMem} {t : ThreadId}
    (hfresh : σ.queues (.sender σ.nchans) = []) (h : σ.lwtCreate cur flags mem = .ok (σ', t))
    (hfin : σ'.finish cur k (.ret (.thd t)) = .ok τ) :
    σ.sched.Effect cur (.call (.lwtCreate flags mem)) k τ.sched := by
  obtain ⟨σ₁, raw, ha, -, rfl⟩ := lwtCreate_ok h
  rw [finish_ret hfin]
  cases ha with
  | recycled t rest hq =>
    have hclear : (σ.queues.rem t).clear (.sender σ.nchans) = σ.queues.rem t :=
      clear_of_eq_nil (by rw [Rings.rem_apply, hfresh]; rfl)
    refine .stay ?_
    convert Sched.Act.recycle (s := σ.sched) t flags mem rfl (by simp [hq]) using 1
    refine congrArg (Sched.leave · cur k) (Sched.ext rfl rfl ?_ rfl ?_ rfl rfl)
    · funext u
      by_cases hu : u = t
      · subst hu
        simp [Thread.task]
      · simp [hu]
    · exact congrArg (Rings.add · (.run σ.currentKthd) t) hclear
  | fresh raw' stack hq =>
    have hclear : σ.queues.clear (.sender σ.nchans) = σ.queues := clear_of_eq_nil hfresh
    refine .stay ?_
    convert Sched.Act.create ⟨.running, raw'.blockFor, raw'.nowRcving, [], 0⟩ flags mem rfl
      using 1
    refine congrArg (Sched.leave · cur k) (Sched.ext rfl rfl ?_ rfl ?_ rfl rfl)
    · funext u
      by_cases hu : u = σ.nthreads
      · subst hu
        simp [Thread.task]
      · simp [hu]
    · exact congrArg (Rings.add · (.run σ.currentKthd) σ.nthreads) hclear

theorem lwtDieSnd_effect (h : σ.lwtDieSnd cur = .ok (σ', n)) (hfin : σ'.finish cur k n = .ok τ) :
    σ.sched.Effect cur .dieSnd k τ.sched := by
  cases h
  have hd := finish_schedule hfin
  refine .switch (.die rfl) ?_
  convert hd using 1
  refine Sched.ext rfl rfl ?_ rfl rfl rfl rfl
  funext u
  by_cases hu : u = cur
  · subst hu
    simp [Thread.task]
  · simp [hu]

theorem lwtRcvThdRcv_effect (h : σ.lwtRcvThdRcv cur d = .ok (σ', n))
    (hfin : σ'.finish cur k n = .ok τ) : σ.sched.Effect cur .rcvThdRcv k τ.sched := by
  obtain ⟨t, rfl, ht, rfl, hτ⟩ := lwtRcvThdRcv_ok h
  have hs := modThread_sched σ t (f := fun th => { th with ownerKthd := σ.currentKthd })
    (g := fun th => { th with ownerKthd := σ.currentKthd }) fun _ => rfl
  obtain ⟨-, rfl⟩ | ⟨hr, rfl⟩ := hτ
  · rw [finish_ret hfin, hs]
    exact .stay (.adopt t rfl ht)
  · have hrun : (σ.modThread t fun th => { th with ownerKthd := σ.currentKthd }).ownerRunQueue cur =
        .run ((σ.modThread t fun th =>
          { th with ownerKthd := σ.currentKthd }).sched.tasks cur).ownerKthd := rfl
    rw [finish_ret hfin, listRem_listHeadAppend_sched, hrun, hs]
    exact .stay (.adoptMove t rfl ht hr)

theorem call_effect {a : Call} (hfresh : σ.queues (.sender σ.nchans) = [])
    (h : σ.call cur a = .ok (σ', n)) (hfin : σ'.finish cur k n = .ok τ) :
    σ.sched.Effect cur (.call a) k τ.sched := by
  cases a with
  | lwtCreate flags mem =>
    obtain ⟨⟨σ'', t⟩, hc, h⟩ := bind_ok h
    cases h
    exact lwtCreate_effect hfresh hc hfin
  | lwtCreateChan c mem =>
    cases h
    exact quiet_effect hfin rfl (by simp) (by simp)
  | lwtYield yieldTo => exact lwtYield_effect h hfin
  | lwtDie message =>
    cases h
    rw [finish_goto hfin, emit_sched, modThread_sched_self (f := fun th =>
      { th with messageData := message }) _ _ fun _ => rfl, modKthd_sched]
    exact .stay (.lastWord _ ⟨message, rfl⟩ (by simp) (by simp))
  | lwtJoin t =>
    obtain ⟨th, -, h⟩ := bind_ok h
    split_ifs at h <;> cases h <;> exact quiet_effect hfin rfl (by simp) (by simp)
  | lwtChan size mem =>
    obtain ⟨x, hc, h⟩ := bind_ok h
    obtain ⟨raw, -, rfl⟩ := lwtChan_ok hc
    cases h
    refine quiet_effect hfin ?_ (by simp) trivial
    exact Sched.ext rfl rfl rfl rfl (clear_of_eq_nil hfresh) rfl rfl
  | setChanType c type =>
    obtain ⟨ch, -, h⟩ := bind_ok h
    cases h
    exact quiet_effect hfin rfl (by simp) trivial
  | lwtChanDeref c =>
    obtain ⟨-, -, rfl, rfl⟩ := lwtChanDeref_ok h
    exact quiet_effect hfin rfl (by simp) trivial
  | lwtSnd c d => exact lwtSnd_effect (lwtSnd_ok h).2.2 hfin
  | lwtRcv c => exact lwtRcv_effect (lwtRcv_ok h).2.2 hfin
  | lwtSndChan through sending =>
    cases h
    exact quiet_effect hfin rfl (by simp) (by simp)
  | lwtRcvChan c =>
    cases h
    exact quiet_effect hfin rfl (by simp) (by simp)
  | lwtCgrp mem =>
    cases mem <;> cases h
    · exact quiet_effect hfin rfl (by simp) trivial
    · rw [finish_ret hfin]
      exact .stay (.newGroup true rfl)
  | lwtCgrpAdd g c =>
    obtain ⟨-, ⟨d, rfl⟩, ⟨-, rfl⟩ | ⟨-, -, -, -, rfl⟩⟩ := lwtCgrpAdd_ok h <;>
      exact quiet_effect hfin rfl (by simp) trivial
  | lwtCgrpRem g c =>
    obtain ⟨-, ⟨d, rfl⟩, rfl | ⟨-, -, rfl⟩⟩ := lwtCgrpRem_ok h <;>
      exact quiet_effect hfin rfl (by simp) trivial
  | lwtCgrpFree g =>
    obtain ⟨-, ⟨d, rfl⟩, rfl | ⟨-, rfl⟩⟩ := lwtCgrpFree_ok h
    · exact quiet_effect hfin rfl (by simp) trivial
    · rw [finish_ret hfin]
      exact .stay (.freeGroup g rfl)
  | lwtCgrpWait g =>
    obtain ⟨hg, rfl, rfl | rfl⟩ := lwtCgrpWait_ok h <;>
      exact quiet_effect hfin rfl (by simp) (by simp [hg])
  | lwtChanMarkSet c mark =>
    obtain ⟨ch, -, h⟩ := bind_ok h
    cases h
    exact quiet_effect hfin rfl (by simp) trivial
  | lwtChanMarkGet c =>
    obtain ⟨ch, -, h⟩ := bind_ok h
    cases h
    exact quiet_effect hfin rfl (by simp) trivial
  | lwtSndThd c t =>
    simp only [call, lwtSndThd] at h
    split_ifs at h
    cases h
    exact quiet_effect hfin rfl (by simp) (by simp)
  | lwtRcvThd c =>
    cases h
    exact quiet_effect hfin rfl (by simp) (by simp)
  | lwtKthdTrampline =>
    simp only [call, lwtKthdTrampline] at h
    split_ifs at h
    cases h
    exact quiet_effect hfin rfl (by simp) (by simp)

theorem exec_effect {f : Frame} (hfresh : σ.queues (.sender σ.nchans) = [])
    (h : σ.exec cur f k = .ok τ) : σ.sched.Effect cur f k τ.sched := by
  obtain ⟨⟨σ', n⟩, hb, hfin⟩ := bind_ok h
  cases f with
  | call a => exact call_effect hfresh hb hfin
  | createChanRet c =>
    obtain ⟨t, -, -, -, rfl, rfl⟩ := lwtCreateChanRet_ok hb
    exact quiet_effect hfin rfl (by simp) trivial
  | sndRet c =>
    cases hb
    exact quiet_effect hfin rfl (by simp) trivial
  | rcvRet c =>
    cases hb
    exact quiet_effect hfin rfl (by simp) trivial
  | syncSndWakeup c remote =>
    obtain ⟨-, rfl, rfl⟩ := lwtSyncSndWakeup_ok hb
    exact quiet_effect hfin rfl (by simp) trivial
  | syncRcvLoop c =>
    obtain ⟨-, -, h⟩ := lwtSyncRcvLoop_ok hb
    cases h <;> exact quiet_effect hfin rfl (by simp) (by simp)
  | syncRcvBlock c =>
    cases hb
    have hd := finish_schedule hfin
    rw [countBlocked_requeue, sleepRcv_sched] at hd
    exact .switch (.sleepRcv (some c) (.syncRcvLoop c) (.sync c rfl)) hd
  | cgrpWaitLoop g => exact lwtCgrpWaitLoop_effect (lwtCgrpWaitLoop_ok hb).2 hfin
  | dieSnd => exact lwtDieSnd_effect hb hfin
  | died => cases hb
  | joinRcv t =>
    cases hb
    exact quiet_effect hfin rfl (by simp) (by simp)
  | joinYield t received =>
    cases hb
    exact quiet_effect hfin rfl (by simp) trivial
  | sndChanSnd =>
    cases hb
    exact quiet_effect hfin rfl (by simp) (by simp)
  | sndChanYield returnValue =>
    cases hb
    exact quiet_effect hfin rfl (by simp) trivial
  | rcvChanRcv =>
    obtain ⟨rfl, ⟨-, rfl⟩ | ⟨c, -, -, -, rfl⟩⟩ := lwtRcvChanRcv_ok hb <;>
      exact quiet_effect hfin rfl (by simp) trivial
  | rcvThdRcv => exact lwtRcvThdRcv_effect hb hfin
  | kthdLoop =>
    simp only [body, lwtKthdLoop, slThdBlock] at hb
    split_ifs at hb
    · obtain ⟨σ'', hs, hb⟩ := bind_ok hb
      cases hb
      split at hs <;> cases hs <;> rw [finish_goto hfin, modKthd_sched] <;>
        exact .stay (.slThdBlock _ rfl)
    · cases hb
      exact quiet_effect hfin rfl (by simp) (by simp)
  | kthdBlocked =>
    cases hb
    exact .switch (.idle [.kthdLoop] (by simp) (by simp) (by simp) (.inl rfl))
      (finish_schedule hfin)

end Effects

end State

end Lwt
