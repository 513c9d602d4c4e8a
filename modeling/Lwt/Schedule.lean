import Lwt.Wired
import Lwt.Directed

/-! `__lwt_schedule` takes the first element behind the list head of the run queue,
whether there is one or not. What it finds depends on the operation that calls it:
one that blocks or kills the running thread takes that off the run queue, and
none of them looks whether another thread is left. -/

namespace Lwt

open State

variable {σ τ σ' σ₀ : State} {l : Label} {cur t u : ThreadId} {f : Frame} {c : ChanId}
  {d : Data} {n : Next} {fs : List Frame} {k : KthdId} {tr : List (State × Label)}

namespace State

/-- The state with which step `l` comes to `__lwt_schedule`, if it does. -/
def handed (σ : State) (l : Label) : Option State :=
  match σ.lwtCurrent, σ.frame l with
  | some cur, some f =>
    match σ.body cur f, σ.step l with
    | _, .error .notReady => none
    | .ok (τ, .schedule _), _ => some τ
    | _, _ => none
  | _, _ => none

/-- The owner of the group of `c`, if it is marked as blocked in its wait. -/
def awoken (σ : State) (c : ChanId) : Option ThreadId :=
  (σ.chans c).cgroup.bind fun g => if (σ.cgrps g).blocked then some (σ.cgrps g).owner else none

/-- The threads that an operation of `cur` at frame `f` takes off their queues before it
comes to `__lwt_schedule`. -/
def taken (σ : State) (cur : ThreadId) : Frame → List ThreadId
  | .call (.lwtYield none) => if (σ.threads cur).task.CanRun then [cur] else []
  | .call (.lwtYield (some t)) => [t]
  | .call (.lwtSnd c _) => cur :: (σ.awoken c).toList
  | .kthdBlocked => []
  | _ => [cur]

/-- The threads that it then puts on the run queue of the kernel thread that owns `cur`. -/
def given (σ : State) (cur : ThreadId) : Frame → List ThreadId
  | .call (.lwtYield none) => if (σ.threads cur).task.CanRun then [cur] else []
  | .call (.lwtYield (some t)) => [t]
  | .call (.lwtSnd c _) => (σ.awoken c).toList.filter (· ≠ cur)
  | _ => []

/-- Step `l` leaves a thread on the run queue of the running kernel thread, or puts one
there because this owns the running thread. -/
def Backed (σ : State) (l : Label) : Prop :=
  ∀ cur f, σ.lwtCurrent = some cur → σ.frame l = some f →
    (∃ u ∈ σ.queues (.run σ.currentKthd), u ∉ σ.taken cur f) ∨
      (σ.threads cur).ownerKthd = σ.currentKthd ∧ σ.given cur f ≠ []

instance (σ : State) (l : Label) : Decidable (σ.Backed l) :=
  decidable_of_iff (∀ cur ∈ σ.lwtCurrent, ∀ f ∈ σ.frame l,
    (∃ u ∈ σ.queues (.run σ.currentKthd), u ∉ σ.taken cur f) ∨
      (σ.threads cur).ownerKthd = σ.currentKthd ∧ (σ.given cur f).isEmpty = false)
    ⟨fun h cur f hc hf => by simpa using h cur hc f hf,
      fun h cur hc f hf => by simpa using h cur f hc hf⟩

/-- An operation that comes to `__lwt_schedule` is a section of the running thread. -/
theorem handed_ok (h : σ.handed l = some τ) : ∃ cur f rest fs, σ.lwtCurrent = some cur ∧
    σ.frame l = some f ∧ σ.body cur f = .ok (τ, .schedule fs) ∧
      σ.step l = σ.exec cur f rest := by
  unfold handed at h
  split at h
  · rename_i cur f hcur hf
    have hbody : ∃ fs, σ.body cur f = .ok (τ, .schedule fs) ∧ σ.step l ≠ .error .notReady := by
      split at h
      · cases h
      · rename_i hb hn
        cases h
        exact ⟨_, hb, hn⟩
      · cases h
    obtain ⟨fs, hb, hn⟩ := hbody
    cases l with
    | call a =>
      obtain rfl : .call a = f := Option.some.inj hf
      refine ⟨cur, _, [], fs, hcur, hf, hb, ?_⟩
      simp only [step, hcur] at hn ⊢
      split_ifs at hn ⊢ with hc
      · rfl
      · exact absurd rfl hn
    | resume =>
      simp only [frame, hcur, Option.bind_some] at hf
      obtain ⟨rest, hctx⟩ := List.head?_eq_some_iff.mp hf
      refine ⟨cur, f, rest, fs, hcur, by simpa [frame, hcur] using hf, hb, ?_⟩
      simp only [step, hcur, hctx] at hn ⊢
      split_ifs at hn ⊢ with hc
      · rfl
      · exact absurd rfl hn
    | switch k => cases hf
    | initiate k mem => cases hf
  · cases h

/-- The queues with which a section of `cur` at a frame comes to `__lwt_schedule`. -/
inductive Hands (σ : State) (cur : ThreadId) : Frame → Rings Queue ThreadId → Prop
  | yield (hr : (σ.threads cur).task.CanRun) : Hands σ cur (.call (.lwtYield none))
      ((σ.queues.rem cur).add (.run (σ.threads cur).ownerKthd) cur)
  | stay {f : Frame} (hf : σ.taken cur f = []) (hg : σ.given cur f = []) : Hands σ cur f σ.queues
  | yieldTo (t : ThreadId) (ht : t < σ.nthreads) : Hands σ cur (.call (.lwtYield (some t)))
      ((σ.queues.rem t).append (.run (σ.threads cur).ownerKthd) t)
  | leave {f : Frame} (hf : σ.taken cur f = [cur]) (hg : σ.given cur f = []) :
      Hands σ cur f (σ.queues.rem cur)
  | die : Hands σ cur .dieSnd ((σ.queues.rem cur).add (.recycle σ.currentKthd) cur)
  | snd (c : ChanId) (d : Data) (ha : σ.awoken c = none) :
      Hands σ cur (.call (.lwtSnd c d)) ((σ.queues.rem cur).add (.sender c) cur)
  | wakeSnd (c : ChanId) (d : Data) (t : ThreadId) (ha : σ.awoken c = some t)
      (ht : ∃ g < σ.ncgrps, (σ.cgrps g).owner = t) :
      Hands σ cur (.call (.lwtSnd c d))
        ((((σ.queues.rem t).append (.run (σ.threads cur).ownerKthd) t).rem cur).add (.sender c) cur)

/-- `τ` is left to the same kernel thread, which polls as before. -/
structure SameKthd (σ τ : State) : Prop where
  currentKthd : τ.currentKthd = σ.currentKthd
  polling : τ.kthd.pollingFlag = σ.kthd.pollingFlag

theorem SameKthd.trans (h : SameKthd σ σ') (h' : SameKthd σ' τ) : SameKthd σ τ :=
  ⟨h'.currentKthd.trans h.currentKthd, h'.polling.trans h.polling⟩

theorem WakeGroup.hands {τ : State}
    (h : WakeGroup (σ.modChan c fun ch => { ch with ready := 1 }) cur (σ.chans c).cgroup τ) :
    SameKthd σ τ ∧
    (σ.awoken c = none ∧ τ.queues = σ.queues ∨
      ∃ g < σ.ncgrps, σ.awoken c = some (σ.cgrps g).owner ∧ τ.queues =
        (σ.queues.rem (σ.cgrps g).owner).append (.run (σ.threads cur).ownerKthd)
          (σ.cgrps g).owner) := by
  cases h with
  | skip h =>
    refine ⟨⟨rfl, rfl⟩, .inl ⟨?_, rfl⟩⟩
    cases hc : (σ.chans c).cgroup with
    | none => simp [awoken, hc]
    | some g =>
      have hb : (σ.cgrps g).blocked = false := h g hc
      simp [awoken, hc, hb]
  | wake g hc hg hb =>
    have hb : (σ.cgrps g).blocked = true := hb
    exact ⟨⟨rfl, by simp [resumeThread, kthd]⟩, .inr ⟨g, hg, by simp [awoken, hc, hb], rfl⟩⟩

/-- The calls that come to `__lwt_schedule`. -/
theorem call_hands {a : Call} (hb : σ.call cur a = .ok (τ, .schedule fs)) :
    Hands σ cur (.call a) τ.queues ∧ SameKthd σ τ := by
  cases a with
  | lwtYield yieldTo =>
    obtain ⟨rfl, rfl, -⟩ | ⟨t, rfl, ht, ⟨-, -, hn⟩ | ⟨-, -, rfl, -⟩⟩ := lwtYield_ok hb
    · by_cases hr : (σ.threads cur).task.CanRun
      · rw [requeue_of_canRun hr]
        exact ⟨.yield hr, rfl, rfl⟩
      · rw [requeue_of_not_canRun hr]
        exact ⟨.stay (if_neg hr) (if_neg hr), rfl, rfl⟩
    · cases hn
    · exact ⟨.yieldTo t ht, rfl, rfl⟩
  | lwtSnd c d =>
    cases (lwtSnd_ok hb).2.2 with
    | block r σ₁ _ _ _ hw =>
      rw [blockThread_sending]
      obtain ⟨hk, ⟨ha, hq⟩ | ⟨g, hg, ha, hq⟩⟩ := hw.hands
      · refine ⟨?_, hk.trans ⟨rfl, by simp [countBlocked, kthd]⟩⟩
        convert Hands.snd c d ha using 1
        rw [← hq]
        rfl
      · refine ⟨?_, hk.trans ⟨rfl, by simp [countBlocked, kthd]⟩⟩
        convert Hands.wakeSnd c d _ ha ⟨g, hg, rfl⟩ using 1
        rw [← hq]
        rfl
  | lwtRcv c =>
    cases (lwtRcv_ok hb).2.2 with
    | block =>
      rw [blockThread_receiving]
      exact ⟨.leave rfl rfl, rfl, by simp [countBlocked, kthd]⟩
  | lwtCreate flags mem =>
    obtain ⟨x, -, hb⟩ := bind_ok hb
    cases hb
  | lwtJoin t =>
    obtain ⟨th, -, hb⟩ := bind_ok hb
    split_ifs at hb <;> cases hb
  | lwtChan size mem =>
    obtain ⟨x, -, hb⟩ := bind_ok hb
    cases hb
  | setChanType c type =>
    obtain ⟨x, -, hb⟩ := bind_ok hb
    cases hb
  | lwtChanDeref c =>
    obtain ⟨-, -, -, hn⟩ := lwtChanDeref_ok hb
    cases hn
  | lwtCgrp mem => cases mem <;> cases hb
  | lwtCgrpAdd g c =>
    obtain ⟨-, ⟨d, hn⟩, -⟩ := lwtCgrpAdd_ok hb
    cases hn
  | lwtCgrpRem g c =>
    obtain ⟨-, ⟨d, hn⟩, -⟩ := lwtCgrpRem_ok hb
    cases hn
  | lwtCgrpFree g =>
    obtain ⟨-, ⟨d, hn⟩, -⟩ := lwtCgrpFree_ok hb
    cases hn
  | lwtCgrpWait g =>
    obtain ⟨-, -, hn | hn⟩ := lwtCgrpWait_ok hb <;> cases hn
  | lwtChanMarkSet c mark | lwtChanMarkGet c =>
    obtain ⟨x, -, hb⟩ := bind_ok hb
    cases hb
  | lwtSndThd c t =>
    simp only [call, lwtSndThd] at hb
    split_ifs at hb
    cases hb
  | lwtKthdTrampline =>
    simp only [call, lwtKthdTrampline] at hb
    split_ifs at hb
    cases hb
  | lwtDie | lwtCreateChan | lwtSndChan | lwtRcvChan | lwtRcvThd => cases hb

theorem body_hands (hb : σ.body cur f = .ok (τ, .schedule fs)) :
    Hands σ cur f τ.queues ∧ SameKthd σ τ := by
  cases f with
  | call a => exact call_hands hb
  | createChanRet c =>
    obtain ⟨t, -, -, -, -, hn⟩ := lwtCreateChanRet_ok hb
    cases hn
  | syncSndWakeup c remote =>
    obtain ⟨-, -, hn⟩ := lwtSyncSndWakeup_ok hb
    cases hn
  | syncRcvLoop c => cases (lwtSyncRcvLoop_ok hb).2.2
  | syncRcvBlock c =>
    cases hb
    rw [countBlocked_requeue]
    exact ⟨.leave rfl rfl, rfl, by simp [countBlocked, kthd]⟩
  | cgrpWaitLoop g =>
    obtain ⟨-, h⟩ := lwtCgrpWaitLoop_ok hb
    cases h with
    | block =>
      rw [countBlocked_requeue]
      exact ⟨.leave rfl rfl, rfl, by simp [countBlocked, kthd]⟩
  | dieSnd =>
    cases hb
    exact ⟨.die, rfl, by simp [kthd]⟩
  | died => cases hb
  | rcvChanRcv =>
    obtain ⟨hn, -⟩ := lwtRcvChanRcv_ok hb
    cases hn
  | rcvThdRcv =>
    obtain ⟨t, -, -, hn, -⟩ := lwtRcvThdRcv_ok hb
    cases hn
  | kthdLoop =>
    simp only [body, lwtKthdLoop, slThdBlock] at hb
    split_ifs at hb
    · obtain ⟨σ'', hs, hb⟩ := bind_ok hb
      cases hb
    · cases hb
  | kthdBlocked =>
    cases hb
    exact ⟨.stay rfl rfl, rfl, rfl⟩
  | sndRet | rcvRet | joinRcv | joinYield | sndChanSnd | sndChanYield => cases hb

/-- What is behind the list head of a run queue when `__lwt_schedule` takes the first. -/
theorem Hands.mem_run_iff (hw : σ.sched.Wired) {q : Rings Queue ThreadId}
    (h : Hands σ cur f q) : u ∈ q (.run k) ↔
      u ∈ σ.queues (.run k) ∧ u ∉ σ.taken cur f ∨
        (σ.threads cur).ownerKthd = k ∧ u ∈ σ.given cur f := by
  have hrem (t : ThreadId) : u ∈ (σ.queues.rem t) (.run k) ↔ u ≠ t ∧ u ∈ σ.queues (.run k) := by
    rw [Rings.rem_apply]
    exact (hw.nodup (.run k)).mem_erase_iff
  cases h with
  | yield hr =>
    by_cases hk : (σ.threads cur).ownerKthd = k
    · subst hk
      rw [Rings.add_self, List.mem_append, hrem]
      simp [taken, given, hr, and_comm]
    · rw [Rings.add_of_ne _ _ (by simpa using Ne.symm hk), hrem]
      simp [taken, hr, hk, and_comm]
  | stay hf hg => simp [hf, hg]
  | yieldTo t ht =>
    by_cases hk : (σ.threads cur).ownerKthd = k
    · subst hk
      rw [Rings.append_self, Rings.mem_beforeLast, hrem]
      simp [taken, given, and_comm, or_comm]
    · rw [Rings.append_of_ne _ _ (by simpa using Ne.symm hk), hrem]
      simp [taken, hk, and_comm]
  | leave hf hg =>
    rw [hrem]
    simp [hf, hg, and_comm]
  | die =>
    rw [Rings.add_of_ne _ _ (by simp), hrem]
    simp [taken, given, and_comm]
  | snd c d ha =>
    rw [Rings.add_of_ne _ _ (by simp), hrem]
    simp [taken, given, ha, and_comm]
  | wakeSnd c d t ha ht =>
    have hnd : (((σ.queues.rem t).append (.run (σ.threads cur).ownerKthd) t) (.run k)).Nodup := by
      by_cases hk : (σ.threads cur).ownerKthd = k
      · subst hk
        rw [Rings.append_self, (Rings.beforeLast_perm _ _).nodup_iff, List.nodup_cons]
        exact ⟨(hw.nodup _).not_mem_erase, (hw.nodup _).erase t⟩
      · rw [Rings.append_of_ne _ _ (by simpa using Ne.symm hk)]
        exact (hw.nodup _).erase t
    rw [Rings.add_of_ne _ _ (by simp), Rings.rem_apply, hnd.mem_erase_iff]
    by_cases hk : (σ.threads cur).ownerKthd = k
    · subst hk
      rw [Rings.append_self, Rings.mem_beforeLast, hrem]
      by_cases hu : u = t
      · subst hu
        simp [taken, given, ha]
      · simp [taken, given, ha, hu, and_comm]
    · rw [Rings.append_of_ne _ _ (by simpa using Ne.symm hk), hrem]
      simp [taken, ha, hk, and_comm, and_assoc]

/-- Who is put on a run queue exists. -/
theorem Hands.given_lt (hw : σ.sched.Wired) (hcur : cur < σ.nthreads) {q : Rings Queue ThreadId}
    (h : Hands σ cur f q) (hu : u ∈ σ.given cur f) : u < σ.nthreads := by
  cases h with
  | yield hr =>
    obtain rfl : u = cur := by simpa [given, hr] using hu
    exact hcur
  | stay hf hg | leave hf hg => simp [hg] at hu
  | yieldTo t ht =>
    obtain rfl : u = t := by simpa [given] using hu
    exact ht
  | die => simp [given] at hu
  | snd c d ha => simp [given, ha] at hu
  | wakeSnd c d t ha ht =>
    obtain ⟨g, hg, rfl⟩ := ht
    have hu : u = (σ.cgrps g).owner ∧ u ≠ cur := by simpa [given, ha] using hu
    exact hu.1 ▸ hw.owner g hg

end State

/-- `__lwt_schedule`, which step `l` comes to in state `τ`, makes the first thread of the
run queue the running one. -/
def DispatchesReal (σ : State) (l : Label) (τ : State) : Prop :=
  ∃ t rest τ', τ.queues (.run σ.currentKthd) = t :: rest ∧ t < σ.nthreads ∧ Step σ l τ' ∧
    τ'.lwtCurrent = some t ∧ τ'.queues = τ.queues

/-- In every state reached, with any number of kernel threads, an operation that comes to
`__lwt_schedule` dispatches a thread of the run queue if and only if it leaves one there or
puts one there. If it does not, the list head is taken for a thread. -/
theorem dispatches_real_iff (h : Run σ₀ tr σ) (hb : σ₀.Boot k) (hr : σ.handed l = some τ) :
    (DispatchesReal σ l τ ↔ σ.Backed l) ∧
      (¬ σ.Backed l → σ.step l = .error .emptyRunQueue) := by
  have hw := h.wired hb
  obtain ⟨cur, f, rest, fs, hcur, hf, hbody, hstep⟩ := State.handed_ok hr
  obtain ⟨hands, hsame⟩ := State.body_hands hbody
  have hmem (u : ThreadId) := hands.mem_run_iff (u := u) (k := σ.currentKthd) hw
  have hback : σ.Backed l ↔ τ.queues (.run σ.currentKthd) ≠ [] := by
    constructor
    · intro hB
      rcases hB cur f hcur hf with ⟨u, hu, hno⟩ | ⟨hk, hg⟩
      · exact List.ne_nil_of_mem ((hmem u).mpr (.inl ⟨hu, hno⟩))
      · obtain ⟨u, hu⟩ := List.exists_mem_of_ne_nil _ hg
        exact List.ne_nil_of_mem ((hmem u).mpr (.inr ⟨hk, hu⟩))
    · rintro hne cur' f' hcur' hf'
      obtain ⟨u, hu⟩ := List.exists_mem_of_ne_nil _ hne
      obtain rfl := Option.some.inj (hcur.symm.trans hcur')
      obtain rfl := Option.some.inj (hf.symm.trans hf')
      rcases (hmem u).mp hu with ⟨hu, hno⟩ | ⟨hk, hg⟩
      · exact .inl ⟨u, hu, hno⟩
      · exact .inr ⟨hk, List.ne_nil_of_mem hg⟩
  have hexec : σ.step l = (τ.modThread cur fun th =>
      { th with context := fs ++ rest, eax := .null }).lwtSchedule := by
    rw [hstep]
    simp [State.exec, hbody, bind, Except.bind, State.finish]
  refine ⟨⟨?_, fun hB => ?_⟩, fun hB => ?_⟩
  · rintro ⟨t, q, τ', hq, -⟩
    exact hback.mpr (by simp [hq])
  · obtain ⟨t, q, hq⟩ := List.exists_cons_of_ne_nil (hback.mp hB)
    have hlt : t < σ.nthreads := by
      rcases (hmem t).mp (by simp [hq]) with ⟨ht, -⟩ | ⟨-, ht⟩
      · exact hw.lt ht
      · exact hands.given_lt hw (hw.current _ _ hcur) ht
    obtain ⟨τ', hs, hqs, ht⟩ := State.lwtSchedule_of_cons (σ := τ.modThread cur fun th =>
      { th with context := fs ++ rest, eax := .null }) (t := t) (l := q)
      (by rw [← hq, ← hsame.currentKthd]; rfl) (hsame.polling.trans (hw.polling _))
    exact ⟨t, q, τ', hq, hlt, hexec.trans hs, ht, hqs⟩
  · have hq : τ.queues (.run τ.currentKthd) = [] := by
      rw [hsame.currentKthd]
      exact not_not.mp fun hne => hB (hback.mpr hne)
    rw [hexec]
    unfold State.lwtSchedule
    simp only [State.currentRunQueue, State.modThread_queues, State.modThread_currentKthd, hq]

def handRun : List Label :=
  [.call (.lwtCreate 0 createMem), .call (.lwtYield none), .call (.lwtChan 1 chanMem)]

theorem handRun_dispatches : ∃ τ, (booted.after handRun).handed (.call (.lwtRcv 2)) = some τ ∧
    DispatchesReal (booted.after handRun) (.call (.lwtRcv 2)) τ := by
  have hsome : ((booted.after handRun).handed (.call (.lwtRcv 2))).isSome = true := by
    decide +kernel
  obtain ⟨τ, hτ⟩ := Option.isSome_iff_exists.mp hsome
  exact ⟨τ, hτ, (dispatches_real_iff (run_trace booted handRun) boot_booted hτ).1.mpr
    (by decide +kernel)⟩

/-- The main thread is alone and receives from a channel of its own. -/
def aloneRun : List Label := [.call (.lwtChan 0 chanMem)]

theorem aloneRun_empty :
    ((booted.after aloneRun).handed (.call (.lwtRcv 1))).isSome = true ∧
      (booted.after aloneRun).step (.call (.lwtRcv 1)) = .error .emptyRunQueue := by
  refine ⟨by decide +kernel, rfl⟩

end Lwt
