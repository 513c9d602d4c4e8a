import Lwt.Directed
import Lwt.Wired

/-! The idle loop of `lwt_kthd_trampline`. It gives way to the threads that the start function
has left behind only while one thread is on the run queue, and the main thread is one itself.
It sleeps without a look at the wake-up queue, and `lwt_sync_snd` wakes nobody. -/

namespace Lwt

open State

variable {σ τ σ₀ : State} {l : Label} {cur t u : ThreadId} {f : Frame} {c : ChanId} {d : Data}
  {n : Next} {rest : List Frame} {k : KthdId} {tr : List (State × Label)}

/-- The wake-up queues and the states of the kernel threads in their own scheduler are the same. -/
structure SameAlarm (σ τ : State) : Prop where
  queues : τ.wakeupQueues = σ.wakeupQueues
  slState : ∀ k, (τ.kthds k).slState = (σ.kthds k).slState

namespace SameAlarm

theorem refl (σ : State) : SameAlarm σ σ := ⟨rfl, fun _ => rfl⟩

theorem trans {σ' : State} (h : SameAlarm σ σ') (h' : SameAlarm σ' τ) : SameAlarm σ τ :=
  ⟨h'.queues.trans h.queues, fun k => (h'.slState k).trans (h.slState k)⟩

/-- One kernel thread changes, and keeps its state. -/
theorem of_update {kt : Kthd} (hq : τ.wakeupQueues = σ.wakeupQueues)
    (hk : τ.kthds = Function.update σ.kthds k kt) (hs : kt.slState = (σ.kthds k).slState) :
    SameAlarm σ τ := by
  refine ⟨hq, fun k' => ?_⟩
  rw [hk]
  by_cases he : k' = k
  · subst he
    simp [hs]
  · simp [he]

theorem resumeThread (σ : State) (cur t : ThreadId) : SameAlarm σ (σ.resumeThread cur t) :=
  of_update rfl rfl rfl

theorem countBlocked (σ : State) (cur : ThreadId) (bf : BlockStatus) :
    SameAlarm σ (σ.countBlocked cur bf) :=
  of_update rfl rfl rfl

theorem requeue (σ : State) (cur : ThreadId) : SameAlarm σ (σ.requeue cur) := by
  unfold State.requeue
  split_ifs
  · exact ⟨rfl, fun _ => rfl⟩
  · exact refl σ

theorem blockThread (σ : State) (cur : ThreadId) (bf : BlockStatus) (c : ChanId) :
    SameAlarm σ (σ.blockThread cur bf c) := by
  have h := countBlocked σ cur bf
  unfold State.blockThread
  refine h.trans (trans ?_ (requeue _ cur))
  split_ifs
  · exact refl _
  · exact ⟨rfl, fun _ => rfl⟩

theorem wakeGroup {cgroup : Option CgrpId} (h : WakeGroup σ cur cgroup τ) : SameAlarm σ τ := by
  cases h with
  | skip => exact refl σ
  | wake g => exact resumeThread σ cur _

theorem lwtSnd (h : LwtSnd σ cur c d τ n) : SameAlarm σ τ := by
  cases h with
  | sync | noReceiver => exact ⟨rfl, fun _ => rfl⟩
  | handOff r =>
    exact ⟨rfl, (resumeThread (σ.modThread r fun th => { th with messageData := d }) cur r).slState⟩
  | ring r σ₁ _ _ _ hw =>
    have h := wakeGroup hw
    exact ⟨h.queues, h.slState⟩
  | block r σ₁ _ _ _ hw =>
    have h := wakeGroup hw
    have hb := blockThread ((σ₁.emit (.snd cur c d)).modThread cur fun th =>
      { th with messageData := d }) cur .sending c
    exact ⟨hb.queues.trans h.queues, fun k => (hb.slState k).trans (h.slState k)⟩

theorem lwtRcv (h : LwtRcv σ cur c τ n) : SameAlarm σ τ := by
  cases h with
  | sync | ring => exact ⟨rfl, fun _ => rfl⟩
  | refill s | sender s => exact ⟨rfl, (resumeThread σ cur s).slState⟩
  | block =>
    have hb := blockThread (σ.modThread cur fun th => { th with nowRcving := some c }) cur
      .receiving c
    exact ⟨hb.queues, hb.slState⟩

theorem lwtCreate {flags : ℤ} {mem : CreateMem} (h : σ.lwtCreate cur flags mem = .ok (τ, t)) :
    SameAlarm σ τ := by
  obtain ⟨σ₁, raw, ha, -, rfl⟩ := lwtCreate_ok h
  cases ha with
  | recycled | fresh => exact ⟨rfl, fun _ => rfl⟩

theorem call {a : Call} (hb : σ.call cur a = .ok (τ, n)) : SameAlarm σ τ := by
  cases a with
  | lwtCreate flags mem =>
    obtain ⟨⟨σ₁, t⟩, hc, hb⟩ := bind_ok hb
    cases hb
    exact lwtCreate hc
  | lwtYield yieldTo =>
    obtain ⟨-, rfl, -⟩ | ⟨t, -, -, ⟨-, rfl, -⟩ | ⟨-, -, rfl, -⟩⟩ := lwtYield_ok hb
    · exact requeue σ cur
    · exact refl _
    · exact ⟨rfl, fun _ => rfl⟩
  | lwtDie message =>
    cases hb
    exact of_update rfl rfl rfl
  | lwtJoin t =>
    obtain ⟨th, -, hb⟩ := bind_ok hb
    split_ifs at hb
    · cases hb
      exact refl _
    · cases hb
      exact refl _
  | lwtChan size mem =>
    obtain ⟨x, hc, hb⟩ := bind_ok hb
    obtain ⟨raw, -, rfl⟩ := lwtChan_ok hc
    cases hb
    exact ⟨rfl, fun _ => rfl⟩
  | setChanType c type | lwtChanMarkSet c mark =>
    obtain ⟨x, -, hb⟩ := bind_ok hb
    cases hb
    exact ⟨rfl, fun _ => rfl⟩
  | lwtChanMarkGet c =>
    obtain ⟨x, -, hb⟩ := bind_ok hb
    cases hb
    exact refl _
  | lwtChanDeref c =>
    obtain ⟨-, -, rfl, -⟩ := lwtChanDeref_ok hb
    exact ⟨rfl, fun _ => rfl⟩
  | lwtSnd c d => exact lwtSnd (lwtSnd_ok hb).2.2
  | lwtRcv c => exact lwtRcv (lwtRcv_ok hb).2.2
  | lwtCgrp mem =>
    cases mem <;> cases hb <;> exact ⟨rfl, fun _ => rfl⟩
  | lwtCgrpAdd g c =>
    obtain ⟨-, -, ⟨-, rfl⟩ | ⟨-, -, -, -, rfl⟩⟩ := lwtCgrpAdd_ok hb <;> exact ⟨rfl, fun _ => rfl⟩
  | lwtCgrpRem g c =>
    obtain ⟨-, -, rfl | ⟨-, -, rfl⟩⟩ := lwtCgrpRem_ok hb <;> exact ⟨rfl, fun _ => rfl⟩
  | lwtCgrpFree g =>
    obtain ⟨-, -, rfl | ⟨-, rfl⟩⟩ := lwtCgrpFree_ok hb <;> exact ⟨rfl, fun _ => rfl⟩
  | lwtCgrpWait g =>
    obtain ⟨-, rfl, -⟩ := lwtCgrpWait_ok hb
    exact refl _
  | lwtSndThd c t =>
    simp only [State.call, lwtSndThd] at hb
    split_ifs at hb
    cases hb
    exact refl _
  | lwtKthdTrampline =>
    simp only [State.call, lwtKthdTrampline] at hb
    split_ifs at hb
    cases hb
    exact refl _
  | lwtCreateChan | lwtSndChan | lwtRcvChan | lwtRcvThd =>
    cases hb
    exact refl _

/-- Only the second half of `lwt_sync_snd` and the idle loop touch them. -/
theorem body (hb : σ.body cur f = .ok (τ, n)) (hloop : f ≠ .kthdLoop)
    (hsnd : ∀ c remote, f ≠ .syncSndWakeup c remote) : SameAlarm σ τ := by
  cases f with
  | call a => exact call hb
  | createChanRet c =>
    obtain ⟨t, -, -, -, rfl, -⟩ := lwtCreateChanRet_ok hb
    exact ⟨rfl, fun _ => rfl⟩
  | syncSndWakeup c remote => exact absurd rfl (hsnd c remote)
  | syncRcvLoop c =>
    cases (lwtSyncRcvLoop_ok hb).2.2 with
    | read | empty => exact ⟨rfl, fun _ => rfl⟩
  | syncRcvBlock c =>
    cases hb
    rw [countBlocked_requeue]
    exact of_update rfl rfl rfl
  | cgrpWaitLoop g =>
    obtain ⟨-, h⟩ := lwtCgrpWaitLoop_ok hb
    cases h with
    | done => exact ⟨rfl, fun _ => rfl⟩
    | block =>
      rw [countBlocked_requeue]
      exact of_update rfl rfl rfl
  | dieSnd =>
    cases hb
    exact of_update rfl rfl rfl
  | died => cases hb
  | rcvChanRcv =>
    obtain ⟨-, ⟨-, rfl⟩ | ⟨c, -, -, -, rfl⟩⟩ := lwtRcvChanRcv_ok hb <;> exact ⟨rfl, fun _ => rfl⟩
  | rcvThdRcv =>
    obtain ⟨t, -, -, -, ⟨-, rfl⟩ | ⟨-, rfl⟩⟩ := lwtRcvThdRcv_ok hb <;> exact ⟨rfl, fun _ => rfl⟩
  | kthdLoop => exact absurd rfl hloop
  | sndRet | rcvRet | joinRcv | joinYield | sndChanSnd | sndChanYield | kthdBlocked =>
    cases hb
    exact ⟨rfl, fun _ => rfl⟩

theorem finish (h : σ.finish cur rest n = .ok τ) : SameAlarm σ τ := by
  cases n with
  | ret d | goto fs =>
    cases h
    exact ⟨rfl, fun _ => rfl⟩
  | schedule fs =>
    obtain ⟨t, q, -, rfl⟩ := lwtSchedule_ok h
    exact of_update rfl rfl rfl

end SameAlarm

section Runs

theorem Section.alarm (hs : Section σ l τ cur f rest) (hloop : f ≠ .kthdLoop)
    (hsnd : ∀ c remote, f ≠ .syncSndWakeup c remote) : SameAlarm σ τ := by
  obtain ⟨⟨σ', n⟩, hb, hfin⟩ := bind_ok hs.exec
  exact (SameAlarm.body hb hloop hsnd).trans (.finish hfin)

/-- The idle loop comes round, or goes to sleep behind `sl_thd_block`. -/
theorem Section.kthdLoop (hs : Section σ l τ cur .kthdLoop rest) :
    (σ.queues (.run σ.currentKthd)).length ≠ 1 ∧ τ = σ.saveContext cur (.kthdLoop :: rest) ∨
      (σ.queues (.run σ.currentKthd)).length = 1 ∧ σ.kthd.slState ≠ .blocked ∧
        τ = (σ.modKthd σ.currentKthd fun kt =>
            { kt with
              slState := if σ.kthd.slState = .woken then .runnable else .blocked }).saveContext
            cur (.kthdBlocked :: rest) := by
  obtain ⟨⟨σ', n⟩, hb, hfin⟩ := bind_ok hs.exec
  simp only [body, lwtKthdLoop] at hb
  split_ifs at hb with hlen
  · obtain ⟨σ₁, hbl, hb⟩ := bind_ok hb
    cases hb
    cases hfin
    refine .inr ⟨hlen, ?_⟩
    unfold slThdBlock at hbl
    split at hbl
    · rename_i hw
      cases hbl
      exact ⟨by simp [hw], by simp [hw]⟩
    · rename_i hw
      cases hbl
      exact ⟨by simp [hw], by simp [hw]⟩
    · cases hbl
  · cases hb
    cases hfin
    exact .inl ⟨hlen, rfl⟩

theorem Section.kthdLoop_current (hs : Section σ l τ cur .kthdLoop rest) :
    τ.lwtCurrent = some cur := by
  rw [← hs.current]
  obtain ⟨-, rfl⟩ | ⟨-, -, rfl⟩ := hs.kthdLoop
  · rfl
  · simp [lwtCurrent, kthd, saveContext]

/-- No kernel thread is blocked while its wake-up queue holds an entry. -/
def State.NoneLeft (σ : State) : Prop :=
  ∀ k, (σ.kthds k).slState = .blocked → σ.wakeupQueues k = []

/-- The idle loop does not block before entries of its own queue, and `lwt_sync_snd` makes none
for a kernel thread that is blocked. -/
def KeepsAwake (σ : State) (l : Label) : Prop :=
  (σ.frame l = some .kthdLoop → (σ.queues (.run σ.currentKthd)).length = 1 →
    σ.kthd.slState = .runnable → σ.wakeupQueues σ.currentKthd = []) ∧
  ∀ c remote, σ.frame l = some (.syncSndWakeup c remote) → (σ.kthds remote).slState ≠ .blocked

instance (σ : State) (l : Label) : Decidable (KeepsAwake σ l) :=
  decidable_of_iff
    (((σ.frame l).map Frame.isKthdLoop = some true → (σ.queues (.run σ.currentKthd)).length = 1 →
      σ.kthd.slState = .runnable → σ.wakeupQueues σ.currentKthd = []) ∧
      ∀ a ∈ (σ.frame l).bind Frame.wakesUp, (σ.kthds a.2).slState ≠ .blocked) <| by
    rw [forall_frame_iff Frame.wakesUp_eq_some]
    simp only [KeepsAwake, Option.map_eq_some_iff, Frame.isKthdLoop_iff, exists_eq_right,
      Prod.forall]

theorem Section.keepsAwake_iff (hs : Section σ l τ cur f rest) : KeepsAwake σ l ↔
    (f = .kthdLoop → (σ.queues (.run σ.currentKthd)).length = 1 →
      σ.kthd.slState = .runnable → σ.wakeupQueues σ.currentKthd = []) ∧
    ∀ c remote, f = .syncSndWakeup c remote → (σ.kthds remote).slState ≠ .blocked := by
  unfold KeepsAwake
  rw [hs.frame]
  simp only [Option.some.injEq]

theorem SameAlarm.noneLeft (h : SameAlarm σ τ) (hn : σ.NoneLeft) : τ.NoneLeft := by
  intro k hk
  rw [h.queues]
  exact hn k ((h.slState k).symm.trans hk)

/-- The step of the idle loop. -/
theorem Section.loop_noneLeft (hs : Section σ l τ cur .kthdLoop rest) (hn : σ.NoneLeft) :
    τ.NoneLeft ↔ KeepsAwake σ l := by
  rw [hs.keepsAwake_iff]
  obtain ⟨hlen, rfl⟩ | ⟨hlen, hne, rfl⟩ := hs.kthdLoop
  · exact iff_of_true hn ⟨fun _ h => absurd h hlen, by simp⟩
  · constructor
    · intro h
      refine ⟨fun _ _ hr => h σ.currentKthd ?_, by simp⟩
      simp [saveContext, hr]
    · rintro ⟨h, -⟩ k hk
      by_cases hkc : k = σ.currentKthd
      · subst hkc
        cases hst : σ.kthd.slState with
        | runnable => exact h rfl hlen hst
        | blocked => exact absurd hst hne
        | woken => simp [saveContext, hst] at hk
      · exact hn k (by simpa [saveContext, hkc] using hk)

/-- The second half of `lwt_sync_snd`. -/
theorem Section.wakeup_noneLeft {remote : KthdId}
    (hs : Section σ l τ cur (.syncSndWakeup c remote) rest) (hn : σ.NoneLeft) :
    τ.NoneLeft ↔ KeepsAwake σ l := by
  rw [hs.keepsAwake_iff]
  obtain ⟨⟨σ', n⟩, hb, hfin⟩ := bind_ok hs.exec
  obtain ⟨-, rfl, rfl⟩ := lwtSyncSndWakeup_ok hb
  cases hfin
  constructor
  · intro h
    refine ⟨by simp, fun c' remote' hf hb => ?_⟩
    cases hf
    have hnil := h remote hb
    simp at hnil
  · rintro ⟨-, h⟩ k hk
    have hne : k ≠ remote := by
      rintro rfl
      exact h c k rfl hk
    simpa [hne] using hn k hk

theorem noneLeft_step (hs : Step σ l τ) (hn : σ.NoneLeft) : τ.NoneLeft ↔ KeepsAwake σ l := by
  obtain ⟨cur, f, rest, hsec⟩ | ⟨k, rfl, rfl⟩ | ⟨k, mem, rfl, hk, hi⟩ := step_cases hs
  · by_cases hloop : f = .kthdLoop
    · subst hloop
      exact hsec.loop_noneLeft hn
    by_cases hsnd : ∃ c remote, f = .syncSndWakeup c remote
    · obtain ⟨c, remote, rfl⟩ := hsnd
      exact hsec.wakeup_noneLeft hn
    push Not at hsnd
    refine iff_of_true ((hsec.alarm hloop hsnd).noneLeft hn) (hsec.keepsAwake_iff.mpr ?_)
    exact ⟨fun h => absurd h hloop, fun c remote h => absurd h (hsnd c remote)⟩
  · exact iff_of_true hn ⟨nofun, nofun⟩
  · refine iff_of_true ?_ ⟨nofun, nofun⟩
    obtain ⟨th, ch, -, -, -, -, -, -, -, -, -, -, -, rfl⟩ := initiate_ok hi
    intro k' hk'
    by_cases he : k' = k
    · subst he
      simp
    · simpa [he] using hn k' (by simpa [he] using hk')

def State.slThdWakeup (σ : State) (k : KthdId) : State :=
  σ.modKthd k fun kt => { kt with slState := if kt.slState = .runnable then .woken else .runnable }

def SyncSends (σ : State) (l : Label) : Prop :=
  (∃ c d, σ.frame l = some (.call (.lwtSnd c d)) ∧ (σ.chans c).type = .global) ∨
    ∃ c remote, σ.frame l = some (.syncSndWakeup c remote)

/-- What can come between two steps of thread `cur` on kernel thread `k`: other threads go on in
`lwt_sync_snd` on other kernel threads, the kernel switches, and kernel threads are woken. -/
inductive Meanwhile (k : KthdId) (cur : ThreadId) (σ : State) : State → Prop
  | refl : Meanwhile k cur σ σ
  | send {τ υ : State} {l : Label} (h : Meanwhile k cur σ τ) (hs : Step τ l υ)
      (hk : τ.currentKthd ≠ k) (hcur : τ.lwtCurrent ≠ some cur) (hf : SyncSends τ l) :
      Meanwhile k cur σ υ
  | switch {τ υ : State} {k' : KthdId} (h : Meanwhile k cur σ τ) (hs : Step τ (.switch k') υ) :
      Meanwhile k cur σ υ
  | wakeup {τ : State} (k' : KthdId) (h : Meanwhile k cur σ τ) :
      Meanwhile k cur σ (τ.slThdWakeup k')

/-- Kernel thread `k` finds in `τ` what it has left in `σ`. -/
structure Rests (k : KthdId) (cur : ThreadId) (σ τ : State) : Prop where
  runQueue : τ.queues (.run k) = σ.queues (.run k)
  current : (τ.kthds k).currentThread = (σ.kthds k).currentThread
  polling : (τ.kthds k).pollingFlag = (σ.kthds k).pollingFlag
  context : (τ.threads cur).context = (σ.threads cur).context

theorem Rests.trans {υ : State} (h : Rests k cur σ τ) (h' : Rests k cur τ υ) : Rests k cur σ υ where
  runQueue := h'.runQueue.trans h.runQueue
  current := h'.current.trans h.current
  polling := h'.polling.trans h.polling
  context := h'.context.trans h.context

/-- A step of `lwt_sync_snd` by another thread. -/
theorem SyncSends.rests (hf : SyncSends σ l) (hs : Step σ l τ) (hcur : σ.lwtCurrent ≠ some cur) :
    Rests k cur σ τ := by
  obtain ⟨snd, f, rest, hsec⟩ | ⟨k, rfl, rfl⟩ | ⟨k, mem, rfl, hk, hi⟩ := step_cases hs
  · have hne : cur ≠ snd := by
      rintro rfl
      exact hcur hsec.current
    obtain ⟨⟨σ', n⟩, hb, hfin⟩ := bind_ok hsec.exec
    obtain ⟨c, d, hf, htype⟩ | ⟨c, remote, hf⟩ := hf
    · obtain rfl := Option.some.inj (hsec.frame.symm.trans hf)
      have htype : ¬ (σ.chans c).type = .local := by simp [htype]
      cases (lwtSnd_ok hb).2.2 with
      | sync =>
        cases hfin
        exact ⟨rfl, rfl, rfl, by simp [saveContext, hne]⟩
      | noReceiver ht | handOff _ ht | ring _ _ ht | block _ _ ht => exact absurd ht htype
    · obtain rfl := Option.some.inj (hsec.frame.symm.trans hf)
      obtain ⟨-, rfl, rfl⟩ := lwtSyncSndWakeup_ok hb
      cases hfin
      exact ⟨rfl, rfl, rfl, by simp [hne]⟩
  · exact ⟨rfl, rfl, rfl, rfl⟩
  · obtain ⟨c, d, hf, -⟩ | ⟨c, remote, hf⟩ := hf <;> cases hf

theorem Meanwhile.rests (h : Meanwhile k cur σ τ) : Rests k cur σ τ := by
  induction h with
  | refl => exact ⟨rfl, rfl, rfl, rfl⟩
  | send h hs hk hcur hf ih => exact ih.trans (hf.rests hs hcur)
  | switch h hs ih =>
    obtain ⟨_, _, _, hsec⟩ | ⟨k', -, rfl⟩ | ⟨_, _, hl, -⟩ := step_cases hs
    · cases hsec.frame
    · exact ⟨ih.runQueue, ih.current, ih.polling, ih.context⟩
    · cases hl
  | wakeup k' h ih =>
    refine ih.trans ⟨rfl, ?_, ?_, rfl⟩
    · by_cases hk : k = k'
      · subst hk
        simp [slThdWakeup]
      · simp [slThdWakeup, hk]
    · by_cases hk : k = k'
      · subst hk
        simp [slThdWakeup]
      · simp [slThdWakeup, hk]

/-- In `σ` thread `cur` has tested the idle loop, which has led to `τ`. Whenever it can go on, it
gives way to another thread of the run queue. -/
def GivesWay (σ : State) (cur : ThreadId) (τ : State) : Prop :=
  ∀ τ', Meanwhile σ.currentKthd cur τ τ' → τ'.currentKthd = σ.currentKthd →
    τ'.kthd.slState ≠ .blocked → ∃ υ, Step τ' .resume υ ∧
      ∃ u ∈ σ.queues (.run σ.currentKthd), u ≠ cur ∧ υ.lwtCurrent = some u

/-- The idle loop gives way to a thread that it finds on the run queue if and only if this is the
only one there. -/
theorem Section.givesWay_iff (hs : Section σ l τ cur .kthdLoop rest) (hw : σ.sched.Wired)
    (hbl : σ.kthd.slState ≠ .blocked) (hu : u ∈ σ.queues (.run σ.currentKthd)) (hne : u ≠ cur) :
    GivesWay σ cur τ ↔ (σ.queues (.run σ.currentKthd)).length = 1 := by
  have hcur : (σ.kthds σ.currentKthd).currentThread = some cur := hs.current
  obtain ⟨hlen, rfl⟩ | ⟨hlen, -, rfl⟩ := hs.kthdLoop
  · refine iff_of_false (fun h => ?_) hlen
    obtain ⟨υ, hυ, v, -, hvne, hv⟩ := h _ .refl rfl hbl
    obtain ⟨cur', f, rest', hsec⟩ := step_local hυ trivial
    obtain rfl : cur = cur' := Option.some.inj (hs.current.symm.trans hsec.current)
    have hf : some Frame.kthdLoop = some f := by
      rw [← hsec.frame, State.frame, hsec.current]
      simp [saveContext]
    obtain rfl := Option.some.inj hf
    exact hvne (Option.some.inj (hv.symm.trans hsec.kthdLoop_current))
  · refine iff_of_true (fun τ' h hk hgo => ?_) hlen
    obtain ⟨v, hv⟩ := List.length_eq_one_iff.mp hlen
    obtain rfl : u = v := by simpa [hv] using hu
    obtain ⟨hq, hc, hp, hctx⟩ := h.rests
    have hcur' : τ'.lwtCurrent = some cur := by
      rw [lwtCurrent, kthd, hk, hc]
      simpa [saveContext] using hcur
    have hctx' : (τ'.threads cur).context = .kthdBlocked :: rest := by
      rw [hctx]
      simp [saveContext]
    have hq' : τ'.queues (.run τ'.currentKthd) = [u] := by
      rw [hk, hq]
      exact hv
    have hp' : τ'.kthd.pollingFlag = false := by
      rw [kthd, hk, hp]
      simpa [saveContext] using hw.polling σ.currentKthd
    obtain ⟨υ, hυ, -, hcurυ⟩ := lwtSchedule_of_cons (σ := τ'.modThread cur fun th =>
      { th with context := [.kthdLoop] ++ rest, eax := .null }) hq' hp'
    refine ⟨υ, ?_, u, hu, hne, hcurυ⟩
    simp only [Step, step, hcur', hctx', if_pos hgo]
    exact hυ

/-- A kernel thread that makes a step is not blocked. -/
theorem step_awake (hs : Step σ l τ) (hf : σ.frame l = some f) : σ.kthd.slState ≠ .blocked := by
  intro hbl
  cases l with
  | call a =>
    simp only [Step, step, hbl] at hs
    split at hs
    · cases hs
    · simp at hs
  | resume =>
    simp only [Step, step, hbl] at hs
    split at hs
    · cases hs
    · split at hs
      · cases hs
      · simp at hs
  | switch k | initiate k mem => cases hf

theorem givesWay_iff (hw : σ.sched.Wired) (hs : Step σ l τ) (hcur : σ.lwtCurrent = some cur)
    (hf : σ.frame l = some .kthdLoop) (hu : u ∈ σ.queues (.run σ.currentKthd)) (hne : u ≠ cur) :
    GivesWay σ cur τ ↔ (σ.queues (.run σ.currentKthd)).length = 1 := by
  obtain ⟨cur', f, rest, hsec⟩ | ⟨k, rfl, -⟩ | ⟨k, mem, rfl, -⟩ := step_cases hs
  · obtain rfl := Option.some.inj (hcur.symm.trans hsec.current)
    obtain rfl := Option.some.inj (hf.symm.trans hsec.frame)
    exact hsec.givesWay_iff hw (step_awake hs hf) hu hne
  · cases hf
  · cases hf

/-- In every run, with any number of kernel threads, a round of the idle loop that finds a
thread other than its own on the run queue gives way to one if and only if its own is not on
it. The kernel threads are never left blocked before their wake-up queues if and only if none
blocks before an entry and none that is blocked gets one. -/
theorem work_conserving_iff (h : Run σ₀ tr σ) (hb : σ₀.Boot k) :
    (∀ p ∈ tr, ∀ τ cur u, Step p.1 p.2 τ → p.1.lwtCurrent = some cur →
      p.1.frame p.2 = some .kthdLoop → u ∈ p.1.queues (.run p.1.currentKthd) → u ≠ cur →
        (GivesWay p.1 cur τ ↔ (p.1.queues (.run p.1.currentKthd)).length = 1)) ∧
    ((∀ v ∈ Transition.visited tr σ, v.NoneLeft) ↔ ∀ p ∈ tr, KeepsAwake p.1 p.2) := by
  constructor
  · intro p hp τ cur u hs hcur hf hu hne
    obtain ⟨tr', s', hr, -, -⟩ := h.of_mem hp
    exact givesWay_iff (Run.wired hr hb) hs hcur hf hu hne
  · refine Transition.Run.forall_visited_iff (I := fun _ => True) (D := fun _ _ => True) h
      (fun _ _ => trivial) trivial ?_ (fun _ _ _ _ _ _ => trivial) ?_
    · intro k' _
      simp [(boot_ok hb).wakeupQueues]
    · exact fun _ _ _ _ hn _ hs => noneLeft_step hs hn

/-- The main thread of a kernel thread leaves a thread behind and comes to the idle loop. -/
def behindRun : List Label := [.call (.lwtCreate 0 createMem), .call .lwtKthdTrampline]

/-- A kernel thread goes to sleep in the idle loop, and another one sends to its main thread. -/
def tellRun : List Label :=
  [.call (.lwtChan 4 chanMem), .call (.setChanType 1 .global), .initiate 2 createMem,
    .call .lwtKthdTrampline, .resume, .switch 2, .call (.lwtSnd 1 (.word 5)), .resume]

def awakeRun : List Label :=
  [.call (.lwtChan 4 chanMem), .call (.setChanType 1 .global), .call (.lwtCreate 0 createMem),
    .initiate 2 createMem, .switch 2, .call (.lwtSnd 1 (.word 5)), .resume, .switch 1,
    .call .lwtKthdTrampline, .resume]

theorem awakeRun_work_conserving : (booted.trace awakeRun).length = awakeRun.length ∧
    1 ∈ (booted.after (awakeRun.take 9)).queues (.run 1) ∧
    ¬ GivesWay (booted.after (awakeRun.take 9)) 0 (booted.after awakeRun) ∧
    ∀ v ∈ Transition.visited (booted.trace awakeRun) (booted.after awakeRun), v.NoneLeft := by
  have hlen : (booted.trace awakeRun).length = awakeRun.length := by decide +kernel
  have hconserving := work_conserving_iff (State.run_trace booted awakeRun) boot_booted
  have hlast : (booted.trace awakeRun)[(booted.trace awakeRun).length - 1]? =
      some (booted.after (awakeRun.take 9), .resume) := by
    rw [hlen]
    exact trace_getElem? booted rfl (by rw [hlen]; decide)
  have hstep := Transition.Run.step_last (State.run_trace booted awakeRun) hlast
  have hbehind : 1 ∈ (booted.after (awakeRun.take 9)).queues (.run 1) := by decide +kernel
  have hloop : (booted.after (awakeRun.take 9)).frame .resume = some .kthdLoop := by
    have hf : ((booted.after (awakeRun.take 9)).frame .resume).map Frame.isKthdLoop =
        some true := by decide +kernel
    simpa only [Option.map_eq_some_iff, Frame.isKthdLoop_iff, exists_eq_right] using hf
  have hiff := hconserving.1 _ (List.mem_of_getElem? hlast) _ 0 1 hstep (by decide +kernel) hloop
    hbehind (by decide)
  refine ⟨hlen, hbehind, mt hiff.mp (by decide +kernel), hconserving.2.mpr ?_⟩
  decide +kernel

/-- With a thread left behind the idle loop goes round without it, and behind `tellRun` the first
kernel thread sleeps before an entry of its wake-up queue. -/
theorem idle_not_conserving :
    (∃ τ, Step (booted.after behindRun) .resume τ ∧
      1 ∈ (booted.after behindRun).queues (.run 1) ∧ ¬ GivesWay (booted.after behindRun) 0 τ) ∧
    (booted.trace tellRun).length = tellRun.length ∧ ¬ (booted.after tellRun).NoneLeft := by
  refine ⟨?_, by decide +kernel, fun h => ?_⟩
  · have hw : (booted.after behindRun).sched.Wired :=
      Run.wired (State.run_trace booted behindRun) boot_booted
    have hok : ((booted.after behindRun).step .resume).isOk = true := by decide +kernel
    obtain ⟨f, hf, hr⟩ : ∃ f ∈ (booted.after behindRun).frame .resume, f.isKthdLoop = true := by
      decide +kernel
    rw [Frame.isKthdLoop_iff] at hr
    subst hr
    have hu : 1 ∈ (booted.after behindRun).queues (.run 1) := by decide +kernel
    cases hs : (booted.after behindRun).step .resume with
    | error e =>
      rw [hs] at hok
      cases hok
    | ok τ =>
      refine ⟨τ, hs, hu, fun h => ?_⟩
      have hlen := (givesWay_iff hw hs (by decide +kernel) hf hu (by decide)).mp h
      revert hlen
      decide +kernel
  · have hnil := h 1 (by decide +kernel)
    revert hnil
    decide +kernel

end Runs

end Lwt
