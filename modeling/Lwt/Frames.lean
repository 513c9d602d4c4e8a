import Lwt.Single

/-! How control moves through the library: which frame a section can put on the
return stack of its thread, and how the stacks of other threads change. -/

namespace Lwt

/-- The frames that a section leaves its thread at, above those below it. -/
def Next.frames : Next → List Frame
  | .ret _ => []
  | .goto fs | .schedule fs => fs

namespace State

/-- A section of thread `cur` at frame `f` can leave it at frame `fr`. -/
def Leads (σ : State) (cur : ThreadId) (f : Frame) : Frame → Prop
  | .call (.lwtCreate _ _) => ∃ c mem, f = .call (.lwtCreateChan c mem)
  | .call (.lwtYield _) => f = .sndChanSnd ∨ ∃ t, f = .joinRcv t
  | .call (.lwtSnd c d) =>
    f = .call (.lwtDie d) ∧ c = (σ.threads cur).chl ∨
      (∃ c', f = .call (.lwtSndChan c c') ∧ d = .chan c') ∨
      ∃ t, f = .call (.lwtSndThd c t) ∧ d = .thd t
  | .call (.lwtRcv c) =>
    (∃ t, f = .call (.lwtJoin t) ∧ c = (σ.threads t).chl) ∨ f = .call (.lwtRcvChan c) ∨
      f = .call (.lwtRcvThd c)
  | .call _ => False
  | .createChanRet c => ∃ mem, f = .call (.lwtCreateChan c mem)
  | .sndRet c => ∃ d, f = .call (.lwtSnd c d) ∧ (σ.chans c).type = .local ∧ c < σ.nchans
  | .rcvRet c => f = .call (.lwtRcv c) ∧ (σ.chans c).type = .local ∧ c < σ.nchans
  | .syncSndWakeup c _ => ∃ d, f = .call (.lwtSnd c d) ∧ (σ.chans c).type = .global
  | .syncRcvLoop c => f = .call (.lwtRcv c) ∧ (σ.chans c).type = .global ∨ f = .syncRcvBlock c
  | .syncRcvBlock c => f = .syncRcvLoop c
  | .cgrpWaitLoop g => f = .call (.lwtCgrpWait g) ∨ f = .cgrpWaitLoop g
  | .dieSnd => ∃ d, f = .call (.lwtDie d)
  | .died => f = .dieSnd
  | .joinRcv t => f = .call (.lwtJoin t)
  | .joinYield t d => f = .joinRcv t ∧ d = (σ.threads cur).eax
  | .sndChanSnd => ∃ c c', f = .call (.lwtSndChan c c')
  | .sndChanYield _ => f = .sndChanSnd
  | .rcvChanRcv => ∃ c, f = .call (.lwtRcvChan c)
  | .rcvThdRcv => ∃ c, f = .call (.lwtRcvThd c)
  | .kthdLoop | .kthdBlocked => f = .call .lwtKthdTrampline ∨ f = .kthdLoop ∨ f = .kthdBlocked

variable {σ τ σ' : State} {cur : ThreadId} {f : Frame} {k : List Frame} {n : Next}

theorem finish_frames (h : σ.finish cur k n = .ok τ) :
    (τ.threads cur).context = n.frames ++ k := by
  cases n with
  | ret d =>
    cases h
    simp [Next.frames]
  | goto fs =>
    cases h
    simp [Next.frames, saveContext]
  | schedule fs =>
    obtain ⟨t, rest, -, rfl⟩ := lwtSchedule_ok h
    by_cases ht : cur = t
    · subst ht
      simp [Next.frames]
    · simp [Next.frames, ht]

theorem call_frames {a : Call} (h : σ.call cur a = .ok (σ', n)) :
    ∀ fr ∈ n.frames, σ.Leads cur (.call a) fr := by
  cases a with
  | lwtSnd c d =>
    obtain ⟨hc, -, h⟩ := lwtSnd_ok h
    cases h with
    | sync r ht => simp [Next.frames, Leads, ht]
    | block r σ₁ ht => simp [Next.frames, Leads, ht, hc]
    | _ => simp [Next.frames]
  | lwtRcv c =>
    obtain ⟨hc, -, h⟩ := lwtRcv_ok h
    cases h with
    | sync r ht => simp [Next.frames, Leads, ht]
    | block ht => simp [Next.frames, Leads, ht, hc]
    | _ => simp [Next.frames]
  | lwtCreate flags mem =>
    obtain ⟨x, -, h⟩ := bind_ok h
    cases h
    simp [Next.frames]
  | lwtCreateChan c mem =>
    cases h
    simp [Next.frames, Leads]
  | lwtYield yieldTo =>
    obtain ⟨-, -, rfl⟩ | ⟨t, -, -, ⟨-, -, rfl⟩ | ⟨-, -, -, rfl⟩⟩ := lwtYield_ok h <;>
      simp [Next.frames]
  | lwtDie message =>
    cases h
    simp [Next.frames, Leads]
  | lwtJoin t =>
    obtain ⟨th, hth, h⟩ := bind_ok h
    obtain ⟨rfl, -⟩ := thread?_ok hth
    split_ifs at h <;> cases h <;> simp [Next.frames, Leads]
  | lwtChan size mem =>
    obtain ⟨x, -, h⟩ := bind_ok h
    cases h
    simp [Next.frames]
  | setChanType c type =>
    obtain ⟨ch, -, h⟩ := bind_ok h
    cases h
    simp [Next.frames]
  | lwtChanDeref c =>
    obtain ⟨-, -, -, rfl⟩ := lwtChanDeref_ok h
    simp [Next.frames]
  | lwtSndChan through sending =>
    cases h
    simp [Next.frames, Leads]
  | lwtRcvChan c =>
    cases h
    simp [Next.frames, Leads]
  | lwtCgrp mem => cases mem <;> cases h <;> simp [Next.frames]
  | lwtCgrpAdd g c =>
    obtain ⟨-, ⟨d, rfl⟩, -⟩ := lwtCgrpAdd_ok h
    simp [Next.frames]
  | lwtCgrpRem g c =>
    obtain ⟨-, ⟨d, rfl⟩, -⟩ := lwtCgrpRem_ok h
    simp [Next.frames]
  | lwtCgrpFree g =>
    obtain ⟨-, ⟨d, rfl⟩, -⟩ := lwtCgrpFree_ok h
    simp [Next.frames]
  | lwtCgrpWait g =>
    obtain ⟨-, -, rfl | rfl⟩ := lwtCgrpWait_ok h <;> simp [Next.frames, Leads]
  | lwtChanMarkSet c mark =>
    obtain ⟨ch, -, h⟩ := bind_ok h
    cases h
    simp [Next.frames]
  | lwtChanMarkGet c =>
    obtain ⟨ch, -, h⟩ := bind_ok h
    cases h
    simp [Next.frames]
  | lwtSndThd c t =>
    simp only [call, lwtSndThd] at h
    split_ifs at h
    cases h
    simp [Next.frames, Leads]
  | lwtRcvThd c =>
    cases h
    simp [Next.frames, Leads]
  | lwtKthdTrampline =>
    simp only [call, lwtKthdTrampline] at h
    split_ifs at h
    cases h
    simp [Next.frames, Leads]

theorem body_frames (h : σ.body cur f = .ok (σ', n)) : ∀ fr ∈ n.frames, σ.Leads cur f fr := by
  cases f with
  | call a => exact call_frames h
  | createChanRet c =>
    obtain ⟨t, -, -, -, -, rfl⟩ := lwtCreateChanRet_ok h
    simp [Next.frames]
  | syncSndWakeup c remote =>
    obtain ⟨-, -, rfl⟩ := lwtSyncSndWakeup_ok h
    simp [Next.frames]
  | syncRcvLoop c =>
    obtain ⟨-, -, h⟩ := lwtSyncRcvLoop_ok h
    cases h <;> simp [Next.frames, Leads]
  | cgrpWaitLoop g =>
    obtain ⟨-, h⟩ := lwtCgrpWaitLoop_ok h
    cases h <;> simp [Next.frames, Leads]
  | rcvChanRcv =>
    obtain ⟨rfl, -⟩ := lwtRcvChanRcv_ok h
    simp [Next.frames]
  | rcvThdRcv =>
    obtain ⟨t, -, -, rfl, -⟩ := lwtRcvThdRcv_ok h
    simp [Next.frames]
  | kthdLoop =>
    simp only [body, lwtKthdLoop] at h
    split_ifs at h
    · obtain ⟨σ'', -, h⟩ := bind_ok h
      cases h
      simp [Next.frames, Leads]
    · cases h
      simp [Next.frames, Leads]
  | died => cases h
  | _ =>
    cases h
    simp [Next.frames, Leads]

/-- The running thread is left at frames that its section leads to. -/
theorem exec_frames (h : σ.exec cur f k = .ok τ) :
    ∃ fs, (τ.threads cur).context = fs ++ k ∧ ∀ fr ∈ fs, σ.Leads cur f fr := by
  obtain ⟨⟨σ', n⟩, hb, hfin⟩ := bind_ok h
  exact ⟨n.frames, finish_frames hfin, body_frames hb⟩

end State

namespace Sched

variable {s s' s₁ : Sched} {cur t : ThreadId} {f : Frame} {rest : List Frame} {b : Bool}

/-- The stack of another thread is left alone, or the thread starts anew. -/
theorem Act.context_other (h : s.Act cur f rest b s₁) (ht : t ≠ cur) :
    (s₁.tasks t).context = (s.tasks t).context ∨ (s₁.tasks t).context = [] := by
  cases h with
  | wake u | recycle u | adopt u | adoptMove u | wakeSleepSnd u =>
    by_cases hu : t = u
    · subst hu
      simp [ht]
    · simp [ht, hu]
  | create =>
    by_cases hu : t = s.ntasks
    · subst hu
      simp [ht]
    · simp [ht, hu]
  | _ => simp [ht]

theorem Effect.context_other (h : s.Effect cur f rest s') (ht : t ≠ cur) :
    (s'.tasks t).context = (s.tasks t).context ∨ (s'.tasks t).context = [] := by
  cases h with
  | stay h => exact h.context_other ht
  | switch h hd =>
    obtain ⟨u, l, -, rfl⟩ := hd
    by_cases hu : t = u
    · subst hu
      simpa using h.context_other ht
    · simpa [hu] using h.context_other ht

/-- The thread of a section is left at frames of which only the first is not the
rest of a function behind a nested call. -/
theorem Act.context_self (h : s.Act cur f rest b s₁) :
    ∃ fs, (s₁.tasks cur).context = fs ++ rest ∧ ∀ fr ∈ fs.tail, fr.Outer := by
  have leaves {s₂ : Sched} (fs : List Frame) (hpush : Pushed fs) :
      ∃ fs', ((s₂.leave cur (fs ++ rest)).tasks cur).context = fs' ++ rest ∧
        ∀ fr ∈ fs'.tail, fr.Outer := ⟨fs, by simp, hpush.outer⟩
  cases h with
  | quiet fs hf hpush => exact leaves fs hpush
  | lastWord fs hf hpush => exact leaves fs hpush
  | idle fs hf hpush => exact leaves fs hpush
  | slThdBlock => exact leaves [.kthdBlocked] (by simp)
  | sleepRcv rcving fr => exact ⟨[fr], by simp, by simp⟩
  | sleepGroup g => exact ⟨[.cgrpWaitLoop g], by simp, by simp⟩
  | sleepSnd c | wakeSleepSnd _ c => exact ⟨[.sndRet c], by simp, by simp⟩
  | die => exact ⟨[.died], by simp, by simp⟩
  | yieldTo => exact ⟨[], by simp, by simp⟩
  | _ => exact ⟨[], by simp, by simp⟩

theorem Effect.context_self (h : s.Effect cur f rest s') :
    ∃ fs, (s'.tasks cur).context = fs ++ rest ∧ ∀ fr ∈ fs.tail, fr.Outer := by
  cases h with
  | stay h => exact h.context_self
  | switch h hd =>
    obtain ⟨u, l, -, rfl⟩ := hd
    obtain ⟨fs, hc, ho⟩ := h.context_self
    refine ⟨fs, ?_, ho⟩
    rw [← hc]
    by_cases hu : cur = u
    · subst hu
      simp
    · simp [hu]

theorem Act.ntasks_le (h : s.Act cur f rest b s₁) : s.ntasks ≤ s₁.ntasks := by
  cases h with
  | create => exact Nat.le_succ s.ntasks
  | _ => exact le_rfl

/-- A new thread has no frames. -/
theorem Act.context_new (h : s.Act cur f rest b s₁) (h0 : s.ntasks ≤ t) (h1 : t < s₁.ntasks)
    (ht : t ≠ cur) : (s₁.tasks t).context = [] := by
  cases h with
  | create =>
    obtain rfl : t = s.ntasks := le_antisymm (Nat.le_of_lt_succ h1) h0
    simp [ht]
  | _ => exact absurd h0 (not_le.mpr h1)

theorem Effect.ntasks_le (h : s.Effect cur f rest s') : s.ntasks ≤ s'.ntasks := by
  cases h with
  | stay h => exact h.ntasks_le
  | switch h hd =>
    obtain ⟨u, l, -, rfl⟩ := hd
    exact h.ntasks_le

theorem Effect.context_new (h : s.Effect cur f rest s') (h0 : s.ntasks ≤ t) (h1 : t < s'.ntasks)
    (ht : t ≠ cur) : (s'.tasks t).context = [] := by
  cases h with
  | stay h => exact h.context_new h0 h1 ht
  | switch h hd =>
    obtain ⟨u, l, -, rfl⟩ := hd
    by_cases hu : t = u
    · subst hu
      simpa using h.context_new h0 h1 ht
    · simpa [hu] using h.context_new h0 h1 ht

/-- A sender queue is filled by `lwt_snd` only. -/
theorem Act.sender_eq_nil {c : ChanId} (hs : ∀ d, f ≠ .call (.lwtSnd c d))
    (hc : s.queues (.sender c) = []) (h : s.Act cur f rest b s₁) :
    s₁.queues (.sender c) = [] := by
  have hrem (t : ThreadId) : s.queues.rem t (.sender c) = [] := by simp [hc]
  cases h with
  | wake t => exact (wake_sender cur t).trans (hrem t)
  | recycle t => exact (add_run_sender (s.queues.rem t) s.currentKthd t).trans (hrem t)
  | create => exact (add_run_sender s.queues s.currentKthd s.ntasks).trans hc
  | adoptMove t =>
    simp only [leave_queues, moveBeforeLast_queues, append_run_sender]
    exact hrem t
  | yield => exact (add_run_sender (s.queues.rem cur) (s.tasks cur).ownerKthd cur).trans (hrem cur)
  | yieldTo t => exact (append_run_sender (s.queues.rem t) (s.tasks cur).ownerKthd t).trans (hrem t)
  | sleepRcv | sleepGroup => exact hrem cur
  | sleepSnd c' d hf =>
    have hne : c' ≠ c := fun h => hs d (by rw [hf, h])
    exact (add_sender_sender (s.queues.rem cur) cur hne).trans (hrem cur)
  | wakeSleepSnd t c' d hf =>
    have hne : c' ≠ c := fun h => hs d (by rw [hf, h])
    refine (add_sender_sender ((s.wake cur t).queues.rem cur) cur hne).trans ?_
    rw [Rings.rem_apply, wake_sender, hrem t]
    rfl
  | die => exact (add_recycle_sender (s.queues.rem cur) s.currentKthd cur).trans (hrem cur)
  | _ => exact hc

theorem Effect.sender_eq_nil {c : ChanId} (hs : ∀ d, f ≠ .call (.lwtSnd c d))
    (hc : s.queues (.sender c) = []) (h : s.Effect cur f rest s') :
    s'.queues (.sender c) = [] := by
  cases h with
  | stay h => exact h.sender_eq_nil hs hc
  | switch h hd =>
    rw [hd.queues]
    exact h.sender_eq_nil hs hc

end Sched

section WellFramed

variable {σ τ σ₀ : State} {l : Label} {cur t : ThreadId} {f : Frame} {rest : List Frame}

/-- What holds between two sections of any kernel threads. -/
structure WellFramed (σ : State) : Prop where
  fresh : ∀ c, σ.nchans ≤ c → σ.queues (.sender c) = []
  /-- Only the innermost frame is not the rest of a function behind a nested call. -/
  shaped : ∀ t, ∀ fr ∈ (σ.threads t).context.tail, fr.Outer

theorem Booted.wellFramed {k : KthdId} (h : Booted σ k) : WellFramed σ where
  fresh c _ := by simp [h.queues]
  shaped t fr hfr := by simp [h.context] at hfr

namespace WellFramed

variable (h : WellFramed σ)

include h in
theorem effect (hs : Section σ l τ cur f rest) : σ.sched.Effect cur f rest τ.sched :=
  State.exec_effect (h.fresh _ le_rfl) hs.exec

include h in
/-- Below a section there is nothing but the rest of functions behind nested calls. -/
theorem rest_outer (hs : Section σ l τ cur f rest) : ∀ fr ∈ rest, fr.Outer := by
  intro fr hfr
  rcases hs.at_ with hctx | ⟨-, -, rfl⟩
  · have hctx : (σ.threads cur).context = f :: rest := hctx
    exact h.shaped cur fr (by rwa [hctx])
  · simp at hfr

include h in
/-- A frame on a stack behind a section was there before or the section leads to it. -/
theorem mem_context (hs : Section σ l τ cur f rest) {fr : Frame}
    (hfr : fr ∈ (τ.threads t).context) :
    fr ∈ (σ.threads t).context ∨ t = cur ∧ σ.Leads cur f fr := by
  by_cases ht : t = cur
  · subst ht
    obtain ⟨fs, hctx, hfs⟩ := State.exec_frames hs.exec
    rw [hctx] at hfr
    rcases List.mem_append.mp hfr with hfr | hfr
    · exact .inr ⟨rfl, hfs fr hfr⟩
    · exact .inl (hs.at_.mem hfr)
  · have hctx : (τ.threads t).context = (σ.threads t).context ∨ (τ.threads t).context = [] :=
      (h.effect hs).context_other ht
    rcases hctx with hctx | hctx <;> rw [hctx] at hfr
    · exact .inl hfr
    · simp at hfr

include h in
theorem section_ (hs : Section σ l τ cur f rest) : WellFramed τ := by
  have heff := h.effect hs
  have hnet := State.exec_net hs.exec
  refine ⟨fun c hc => heff.sender_eq_nil ?_ (h.fresh c (hnet.nchans_le.trans hc)), fun t => ?_⟩
  · rintro d rfl
    exact absurd (hnet.nchans_le.trans hc) (not_le.mpr hnet.snd_lt)
  · by_cases ht : t = cur
    · subst ht
      obtain ⟨fs, hctx, ho⟩ := heff.context_self
      have hctx : (τ.threads t).context = fs ++ rest := hctx
      rw [hctx]
      intro fr hfr
      cases fs with
      | nil => exact h.rest_outer hs fr (List.mem_of_mem_tail hfr)
      | cons x xs =>
        rcases List.mem_append.mp hfr with hfr | hfr
        · exact ho fr hfr
        · exact h.rest_outer hs fr hfr
    · have hctx : (τ.threads t).context = (σ.threads t).context ∨ (τ.threads t).context = [] :=
        heff.context_other ht
      rcases hctx with hctx | hctx <;> rw [hctx]
      · exact h.shaped t
      · simp

include h in
theorem step (hs : Step σ l τ) : WellFramed τ := by
  obtain ⟨cur, f, rest, hs⟩ | ⟨k, -, rfl⟩ | ⟨k, mem, -, -, hi⟩ := step_cases hs
  · exact h.section_ hs
  · exact ⟨h.fresh, h.shaped⟩
  · obtain ⟨th, ch, -, hctx, -, -, -, -, -, -, -, -, -, rfl⟩ := State.initiate_ok hi
    refine ⟨fun c hc => ?_, fun t => ?_⟩
    · have hc : σ.nchans + 1 ≤ c := hc
      simp [Rings.append, Rings.clear, h.fresh c (by omega), Function.update_apply]
    · by_cases ht : t = σ.nthreads
      · subst ht
        simp [hctx]
      · simpa [ht] using h.shaped t

end WellFramed

theorem Run.wellFramed {k : KthdId} {tr : List (State × Label)} (h : Run σ₀ tr σ) (hb : σ₀.Boot k) :
    WellFramed σ :=
  h.invariant (boot_ok hb).wellFramed fun _ _ _ hs hstep => hs.step hstep

end WellFramed

end Lwt
