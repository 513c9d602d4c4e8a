import Lwt.Single
import Lwt.Frames

/-! What a thread is for others: who created it, its exit channel, and whether it
can be joined. `lwt_create` writes these for the thread it starts, and no other
function writes them. -/

namespace Lwt

/-- The fields of a thread that `lwt_create` sets for good. -/
structure Ident where
  parent : Option ThreadId
  chl : ChanId
  nojoin : Bool
  initSp : ℕ

/-- The threads that exist, with these fields. -/
@[ext]
structure Roster where
  ident : ThreadId → Ident
  nthreads : ℕ

@[simps] def Thread.ident (th : Thread) : Ident where
  parent := th.parent
  chl := th.chl
  nojoin := th.nojoin
  initSp := th.initSp

namespace State

variable {σ τ σ' : State} {cur : ThreadId} {f : Frame} {k : List Frame} {n : Next} {c : ChanId}
  {d : Data}

@[simps] def roster (σ : State) : Roster where
  ident t := (σ.threads t).ident
  nthreads := σ.nthreads

theorem modThread_roster (σ : State) (t : ThreadId) {g : Thread → Thread}
    (hg : ∀ th, (g th).ident = th.ident) : (σ.modThread t g).roster = σ.roster := by
  refine Roster.ext ?_ rfl
  funext u
  by_cases hu : u = t
  · subst hu
    simp [hg]
  · simp [hu]

theorem resumeThread_roster (σ : State) (cur t : ThreadId) :
    (σ.resumeThread cur t).roster = σ.roster :=
  modThread_roster (g := fun th => { th with state := .runnable }) σ t fun _ => rfl

theorem countBlocked_roster (σ : State) (cur : ThreadId) (bf : BlockStatus) :
    (σ.countBlocked cur bf).roster = σ.roster :=
  modThread_roster (g := fun th => { th with state := .blocked, blockFor := bf }) σ cur fun _ => rfl

theorem requeue_roster (σ : State) (cur : ThreadId) : (σ.requeue cur).roster = σ.roster := by
  unfold requeue
  split_ifs <;> rfl

theorem WakeGroup.roster {cgroup : Option CgrpId} (h : WakeGroup σ cur cgroup τ) :
    τ.roster = σ.roster := by
  cases h with
  | skip => rfl
  | wake g => exact resumeThread_roster σ cur _

theorem lwtSchedule_roster (h : σ.lwtSchedule = .ok τ) : τ.roster = σ.roster := by
  obtain ⟨t, rest, -, rfl⟩ := lwtSchedule_ok h
  exact modThread_roster (g := fun th => { th with state := .running }) σ t fun _ => rfl

/-- The end of a section leaves every thread what it is. -/
theorem finish_roster (h : σ.finish cur k n = .ok τ) : τ.roster = σ.roster := by
  cases n with
  | ret d =>
    cases h
    exact modThread_roster _ _ fun _ => rfl
  | goto fs =>
    cases h
    exact modThread_roster _ _ fun _ => rfl
  | schedule fs =>
    rw [lwtSchedule_roster h]
    exact modThread_roster _ _ fun _ => rfl

theorem LwtSnd.roster (h : LwtSnd σ cur c d σ' n) : σ'.roster = σ.roster := by
  cases h with
  | sync | noReceiver => rfl
  | handOff r =>
    refine (resumeThread_roster _ cur r).trans ?_
    exact modThread_roster (g := fun th => { th with messageData := d }) σ r fun _ => rfl
  | ring r σ₁ _ _ _ hw => exact hw.roster
  | block r σ₁ _ _ _ hw =>
    rw [blockThread_sending]
    refine (countBlocked_roster _ cur .sending).trans ?_
    refine (modThread_roster (g := fun th => { th with messageData := d }) _ cur
      fun _ => rfl).trans ?_
    exact hw.roster

theorem LwtRcv.roster (h : LwtRcv σ cur c σ' n) : σ'.roster = σ.roster := by
  cases h with
  | sync | ring => rfl
  | refill s | sender s => exact resumeThread_roster σ cur s
  | block =>
    rw [blockThread_receiving]
    refine (countBlocked_roster _ cur .receiving).trans ?_
    exact modThread_roster (g := fun th => { th with nowRcving := some c }) σ cur fun _ => rfl

theorem SyncRcvLoop.roster (h : SyncRcvLoop σ cur c σ' n) : σ'.roster = σ.roster := by
  cases h <;> rfl

/-- What a section at frame `f` makes of the threads there are. -/
inductive RosterEffect (σ : State) (cur : ThreadId) (f : Frame) : Roster → Prop
  | same (hf : ∀ flags mem, f ≠ .call (.lwtCreate flags mem)) : RosterEffect σ cur f σ.roster
  /-- A thread starts in a recycled structure. -/
  | recycle (flags : ℤ) (mem : CreateMem) (t : ThreadId) (hf : f = .call (.lwtCreate flags mem))
      (ht : (σ.queues (.recycle σ.currentKthd)).head? = some t) :
      RosterEffect σ cur f { σ.roster with
        ident := Function.update σ.roster.ident t
          ⟨some cur, σ.nchans, flags % 2 = 1, (σ.threads t).initSp⟩ }
  /-- A thread starts in a fresh structure, on a fresh stack. -/
  | fresh (flags : ℤ) (mem : CreateMem) (stack : ℕ) (hf : f = .call (.lwtCreate flags mem))
      (hq : σ.queues (.recycle σ.currentKthd) = []) (hstack : mem.stack = some stack) :
      RosterEffect σ cur f
        { ident := Function.update σ.roster.ident σ.nthreads
            ⟨some cur, σ.nchans, flags % 2 = 1, stack + 819200⟩
          nthreads := σ.nthreads + 1 }

theorem lwtCreate_roster {flags : ℤ} {mem : CreateMem} {t : ThreadId}
    (h : σ.lwtCreate cur flags mem = .ok (σ', t)) :
    RosterEffect σ cur (.call (.lwtCreate flags mem)) σ'.roster := by
  obtain ⟨σ₁, raw, ha, -, rfl⟩ := lwtCreate_ok h
  cases ha with
  | recycled t rest hq =>
    convert RosterEffect.recycle (σ := σ) flags mem t rfl (by simp [hq]) using 1
    refine Roster.ext ?_ rfl
    funext u
    by_cases hu : u = t
    · subst hu
      simp [Thread.ident]
    · simp [hu]
  | fresh raw' stack hq hstack =>
    convert RosterEffect.fresh (σ := σ) flags mem stack rfl hq hstack using 1
    refine Roster.ext ?_ rfl
    funext u
    by_cases hu : u = σ.nthreads
    · subst hu
      simp [Thread.ident]
    · simp [hu]

/-- No call but `lwt_create` changes what a thread is. -/
theorem call_roster_eq {a : Call} (ha : ∀ flags mem, a ≠ .lwtCreate flags mem)
    (h : σ.call cur a = .ok (σ', n)) : σ'.roster = σ.roster := by
  cases a with
  | lwtCreate flags mem => exact absurd rfl (ha flags mem)
  | lwtYield yieldTo =>
    obtain ⟨rfl, rfl, rfl⟩ | ⟨t, rfl, -, ⟨-, rfl, -⟩ | ⟨-, -, rfl, -⟩⟩ := lwtYield_ok h
    · exact requeue_roster σ cur
    · rfl
    · rfl
  | lwtDie message =>
    cases h
    exact modThread_roster (g := fun th => { th with messageData := message }) σ cur fun _ => rfl
  | lwtJoin t =>
    obtain ⟨th, -, h⟩ := bind_ok h
    split_ifs at h <;> cases h <;> rfl
  | lwtChan size mem =>
    obtain ⟨x, hc, h⟩ := bind_ok h
    obtain ⟨raw, hraw, rfl⟩ := lwtChan_ok hc
    cases h
    rfl
  | setChanType c type =>
    obtain ⟨ch, -, h⟩ := bind_ok h
    cases h
    rfl
  | lwtChanDeref c =>
    obtain ⟨-, -, rfl, -⟩ := lwtChanDeref_ok h
    rfl
  | lwtSnd c d => exact (lwtSnd_ok h).2.2.roster
  | lwtRcv c => exact (lwtRcv_ok h).2.2.roster
  | lwtCgrp mem => cases mem <;> cases h <;> rfl
  | lwtCgrpAdd g c => obtain ⟨-, -, ⟨-, rfl⟩ | ⟨-, -, -, -, rfl⟩⟩ := lwtCgrpAdd_ok h <;> rfl
  | lwtCgrpRem g c => obtain ⟨-, -, rfl | ⟨-, -, rfl⟩⟩ := lwtCgrpRem_ok h <;> rfl
  | lwtCgrpFree g => obtain ⟨-, -, rfl | ⟨-, rfl⟩⟩ := lwtCgrpFree_ok h <;> rfl
  | lwtCgrpWait g =>
    obtain ⟨-, rfl, -⟩ := lwtCgrpWait_ok h
    rfl
  | lwtChanMarkSet c mark | lwtChanMarkGet c =>
    obtain ⟨ch, -, h⟩ := bind_ok h
    cases h
    rfl
  | lwtSndThd c t =>
    simp only [call, lwtSndThd] at h
    split_ifs at h
    cases h
    rfl
  | lwtKthdTrampline =>
    simp only [call, lwtKthdTrampline] at h
    split_ifs at h
    cases h
    rfl
  | lwtCreateChan | lwtSndChan | lwtRcvChan | lwtRcvThd =>
    cases h
    rfl

theorem exec_roster_eq (hf : ∀ flags mem, f ≠ .call (.lwtCreate flags mem))
    (h : σ.exec cur f k = .ok τ) : τ.roster = σ.roster := by
  obtain ⟨⟨σ', n⟩, hb, hfin⟩ := bind_ok h
  rw [finish_roster hfin]
  cases f with
  | call a => exact call_roster_eq (fun flags mem ha => hf flags mem (ha ▸ rfl)) hb
  | createChanRet c =>
    obtain ⟨t, -, -, -, rfl, -⟩ := lwtCreateChanRet_ok hb
    rfl
  | syncSndWakeup c remote =>
    obtain ⟨-, rfl, -⟩ := lwtSyncSndWakeup_ok hb
    rfl
  | syncRcvLoop c => exact (lwtSyncRcvLoop_ok hb).2.2.roster
  | syncRcvBlock c =>
    cases hb
    rw [requeue_roster, countBlocked_roster]
    exact modThread_roster (g := fun th => { th with nowRcving := some c }) σ cur fun _ => rfl
  | cgrpWaitLoop g =>
    obtain ⟨-, h⟩ := lwtCgrpWaitLoop_ok hb
    cases h with
    | done => rfl
    | block => rw [requeue_roster, countBlocked_roster]; rfl
  | dieSnd =>
    cases hb
    exact modThread_roster (g := fun th => { th with state := .zombies }) σ cur fun _ => rfl
  | died => cases hb
  | rcvChanRcv => obtain ⟨-, ⟨-, rfl⟩ | ⟨c, -, -, -, rfl⟩⟩ := lwtRcvChanRcv_ok hb <;> rfl
  | rcvThdRcv =>
    obtain ⟨t, -, -, -, hτ⟩ := lwtRcvThdRcv_ok hb
    have hid := modThread_roster (g := fun th => { th with ownerKthd := σ.currentKthd }) σ t
      fun _ => rfl
    obtain ⟨-, rfl⟩ | ⟨-, rfl⟩ := hτ <;> exact hid
  | kthdLoop =>
    simp only [body, lwtKthdLoop, slThdBlock] at hb
    split_ifs at hb
    · obtain ⟨σ'', hs, hb⟩ := bind_ok hb
      cases hb
      split at hs <;> cases hs <;> rfl
    · cases hb
      rfl
  | sndRet | rcvRet | joinRcv | joinYield | sndChanSnd | sndChanYield | kthdBlocked =>
    cases hb
    rfl

theorem exec_roster (h : σ.exec cur f k = .ok τ) : RosterEffect σ cur f τ.roster := by
  by_cases hf : ∃ flags mem, f = .call (.lwtCreate flags mem)
  · obtain ⟨flags, mem, rfl⟩ := hf
    obtain ⟨⟨σ', n⟩, hb, hfin⟩ := bind_ok h
    obtain ⟨⟨σ'', t⟩, hc, hb⟩ := bind_ok hb
    cases hb
    rw [finish_roster hfin]
    exact lwtCreate_roster hc
  · have hf : ∀ flags mem, f ≠ .call (.lwtCreate flags mem) := by simpa using hf
    rw [exec_roster_eq hf h]
    exact .same hf

/-- The main thread of a new kernel thread has no parent. -/
theorem initiate_roster {k : KthdId} {mem : CreateMem} (h : σ.initiate k mem = .ok τ) :
    ∃ raw, mem.thread = some raw ∧ τ.roster = {
      ident := Function.update σ.roster.ident σ.nthreads ⟨none, σ.nchans, false, raw.initSp⟩
      nthreads := σ.nthreads + 1 } := by
  unfold initiate at h
  split at h
  · cases h
  · rename_i raw hraw
    obtain ⟨τ', hi, h⟩ := bind_ok h
    obtain ⟨rawc, -, rfl⟩ := initThread_ok hi
    cases h
    refine ⟨raw, hraw, Roster.ext ?_ rfl⟩
    funext u
    by_cases hu : u = σ.nthreads
    · subst hu
      simp [Thread.ident, initMain, initKthd]
    · simp [Thread.ident, initMain, initKthd, hu]

end State

section Sections

variable {σ τ : State} {l : Label} {cur t : ThreadId} {f : Frame} {rest : List Frame} {k : KthdId}

/-- A thread with frames on its stack has not been started by the section of another. -/
theorem Section.ident_eq (hs : Section σ l τ cur f rest) (hne : t ≠ cur)
    (hctx : (τ.threads t).context ≠ []) : (τ.threads t).ident = (σ.threads t).ident := by
  by_cases hf : ∃ flags mem, f = .call (.lwtCreate flags mem)
  · obtain ⟨flags, mem, rfl⟩ := hf
    obtain ⟨⟨σ', n⟩, hb, hfin⟩ := bind_ok hs.exec
    obtain ⟨⟨σ'', t'⟩, hc, hb⟩ := bind_ok hb
    cases hb
    cases hfin
    obtain ⟨σ₁, raw, ha, -, rfl⟩ := State.lwtCreate_ok hc
    by_cases ht : t = t'
    · subst ht
      simp [hne] at hctx
    · cases ha with
      | recycled => simp [hne, ht]
      | fresh => simp [hne, ht]
  · have hf : ∀ flags mem, f ≠ .call (.lwtCreate flags mem) := by simpa using hf
    exact congrFun (congrArg Roster.ident (State.exec_roster_eq hf hs.exec)) t

/-- A section leaves the running threads of the other kernel threads alone. -/
theorem Sched.Act.current_other {s s₁ : Sched} {b : Bool} (h : s.Act cur f rest b s₁)
    {k : KthdId} (hk : k ≠ s.currentKthd) :
    (s₁.kthds k).currentThread = (s.kthds k).currentThread := by
  cases h <;> simp [Sched.leave, Sched.spawn, hk]

theorem Sched.Act.currentKthd {s s₁ : Sched} {b : Bool} (h : s.Act cur f rest b s₁) :
    s₁.currentKthd = s.currentKthd := by
  cases h <;> rfl

theorem Sched.Effect.current_other {s s' : Sched} (h : s.Effect cur f rest s') {k : KthdId}
    (hk : k ≠ s.currentKthd) : (s'.kthds k).currentThread = (s.kthds k).currentThread := by
  cases h with
  | stay h => exact h.current_other hk
  | switch h hd =>
    obtain ⟨t, _, -, rfl⟩ := hd
    rw [← h.currentKthd] at hk
    simpa [hk] using h.current_other (h.currentKthd ▸ hk)

/-- The main thread at boot. -/
theorem boot_ident (h : σ.Boot k) :
    (σ.threads 0).parent = none ∧ (σ.threads 0).chl = 0 ∧ (σ.threads 0).nojoin = false := by
  obtain ⟨mem, τ, hi, hs⟩ := h
  simp only [State.step] at hi hs
  split_ifs at hi hs
  cases hs
  obtain ⟨raw, -, hroster⟩ := State.initiate_roster hi
  have hid : (τ.threads 0).ident = ⟨none, 0, false, raw.initSp⟩ := by
    simpa [State.zero] using congrArg (fun ρ : Roster => ρ.ident 0) hroster
  exact ⟨congrArg Ident.parent hid, congrArg Ident.chl hid, congrArg Ident.nojoin hid⟩

end Sections

end Lwt
