import Lwt.Global

/-! Wake-ups from other kernel threads. `lwt_sync_snd` leaves an entry for the receiver in the
wake-up queue of its kernel thread, but nothing sets the flag under which `__lwt_schedule` looks at
this queue. A receiver that is asleep in `lwt_sync_rcv` is never woken by a message. -/

namespace Lwt

open State

variable {σ τ σ₀ : State} {l : Label} {cur t r : ThreadId} {f : Frame} {rest : List Frame}
  {c : ChanId} {k : KthdId} {tr : List (State × Label)}

namespace Sched

variable {s s' s₁ : Sched} {b : Bool}

/-- A section puts no thread but its own to sleep. -/
theorem Act.blocked_other (h : s.Act cur f rest b s₁) (ht : t ≠ cur)
    (hb : (s₁.tasks t).state = .blocked) : (s.tasks t).state = .blocked := by
  cases h with
  | wake u | recycle u | adopt u | adoptMove u | wakeSleepSnd u =>
    by_cases hu : t = u
    · subst hu
      simp_all
    · simpa [ht, hu] using hb
  | create =>
    by_cases hu : t = s.ntasks
    · subst hu
      simp_all
    · simpa [ht, hu] using hb
  | _ => simpa [ht] using hb

theorem Effect.blocked_other (h : s.Effect cur f rest s') (ht : t ≠ cur)
    (hb : (s'.tasks t).state = .blocked) : (s.tasks t).state = .blocked := by
  cases h with
  | stay h => exact h.blocked_other ht hb
  | switch h hd =>
    obtain ⟨u, l, -, rfl⟩ := hd
    by_cases hu : t = u
    · subst hu
      simp at hb
    · exact h.blocked_other ht (by simpa [hu] using hb)

end Sched

namespace State

/-- Thread `r` is the receiver of `c` and sleeps in `lwt_sync_rcv(c)`. -/
structure Asleep (σ : State) (c : ChanId) (r : ThreadId) : Prop where
  receiver : (σ.chans c).receiver = some r
  context : (σ.threads r).context.head? = some (.syncRcvLoop c)
  blocked : (σ.threads r).state = .blocked

/-- There is an entry for `r` in the wake-up queue of its kernel thread, and the next
`__lwt_schedule` of this kernel thread takes `r` off the counters and makes it runnable. -/
structure WokenNext (σ : State) (r : ThreadId) (k : KthdId) : Prop where
  entry : some r ∈ σ.wakeupQueues k
  next : ∃ τ, { σ with currentKthd := k }.lwtSchedule = .ok τ ∧ (τ.threads r).task.CanRun ∧
    r ∈ τ.queues (.run k) ∧ (τ.kthds k).blockCounter = (σ.kthds k).blockCounter - 1 ∧
    (τ.kthds k).nrcving = (σ.kthds k).nrcving - 1

/-- No wake-up of the receiver of `c` is lost. -/
def NoLostWakeup (σ : State) (c : ChanId) : Prop :=
  ∀ r, σ.Asleep c r → (σ.chans c).buffer.count ≠ 0 → σ.WokenNext r (σ.threads r).ownerKthd

/-- `__lwt_schedule` wakes nobody. -/
theorem not_wokenNext : ¬ σ.WokenNext r k := by
  rintro ⟨-, τ, h, -, -, hcount, -⟩
  obtain ⟨t, q, -, rfl⟩ := lwtSchedule_ok h
  have hsame : (σ.kthds k).blockCounter = (σ.kthds k).blockCounter - 1 := by
    simpa using hcount
  omega

theorem noLostWakeup_iff :
    σ.NoLostWakeup c ↔ ∀ r, σ.Asleep c r → (σ.chans c).buffer.count = 0 := by
  constructor
  · intro h r hr
    by_contra hn
    exact not_wokenNext (h r hr hn)
  · intro h r hr hn
    exact absurd (h r hr) hn

end State

/-- A step that uses channel `c` as a GLOBAL channel only. -/
structure SyncUse (c : ChanId) (σ : State) (l : Label) : Prop where
  snd : ∀ d, σ.frame l = some (.call (.lwtSnd c d)) → (σ.chans c).type = .global
  rcv : σ.frame l = some (.call (.lwtRcv c)) → (σ.chans c).type = .global

instance (c : ChanId) (σ : State) (l : Label) : Decidable (SyncUse c σ l) :=
  decidable_of_iff
    ((∀ a ∈ (σ.frame l).bind Frame.sends, a.1 = c → (σ.chans c).type = .global) ∧
      ((σ.frame l).bind Frame.receives = some c → (σ.chans c).type = .global)) <| by
    rw [frame_eq_iff Frame.receives_eq_some, forall_frame_iff Frame.sends_eq_some]
    constructor
    · rintro ⟨hs, hr⟩
      exact ⟨fun d hf => hs (c, d) hf rfl, hr⟩
    · rintro ⟨hs, hr⟩
      refine ⟨?_, hr⟩
      rintro ⟨c', d⟩ hf rfl
      exact hs d hf

/-- Step `l` does not send to a receiver of `c` that is asleep, nor does the receiver fall asleep
with a message in the ring. A thread that runs although its state is `LWT_BLOCKED` does not receive
with a message in the ring. -/
structure InTime (c : ChanId) (σ : State) (l : Label) : Prop where
  snd : ∀ d, σ.frame l = some (.call (.lwtSnd c d)) → ∀ r, ¬ σ.Asleep c r
  block : σ.frame l = some (.syncRcvBlock c) → c < σ.nchans →
    σ.lwtCurrent = (σ.chans c).receiver → (σ.chans c).buffer.count = 0
  rcv : σ.frame l = some (.call (.lwtRcv c)) → ∀ r, σ.lwtCurrent = some r →
    (σ.chans c).receiver = some r → (σ.threads r).state = .blocked →
    (σ.chans c).buffer.count = 0

section Sections

variable (hs : Section σ l τ cur f rest) (ht : WellFramed σ)

include hs ht in
/-- Another thread is asleep behind a section only if it was before. -/
theorem Section.asleep_other (hc : c < σ.nchans) (hne : t ≠ cur) (h : τ.Asleep c t) :
    σ.Asleep c t := by
  obtain ⟨hrcv, hctx, hb⟩ := h
  have heff := ht.effect hs
  refine ⟨?_, ?_, heff.blocked_other hne hb⟩
  · rcases receiver_cases hs hc with hr | ⟨-, hr, -⟩
    · rw [← hr, hrcv]
    · rw [hr] at hrcv
      cases hrcv
  · have hother : (τ.threads t).context = (σ.threads t).context ∨ (τ.threads t).context = [] :=
      heff.context_other hne
    rcases hother with he | he
    · rw [← he, hctx]
    · rw [he] at hctx
      cases hctx

include hs ht in
/-- The thread of a section is at the head of `lwt_sync_rcv(c)` behind it only if it came there. -/
theorem Section.loop_self (h : (τ.threads cur).context.head? = some (.syncRcvLoop c)) :
    f = .call (.lwtRcv c) ∨ f = .syncRcvBlock c := by
  obtain ⟨fs, hctx, hfs⟩ := exec_frames hs.exec
  rw [hctx] at h
  cases fs with
  | nil =>
    have hmem : .syncRcvLoop c ∈ rest := List.mem_of_mem_head? h
    exact absurd (ht.rest_outer hs _ hmem) (by simp)
  | cons fr fs =>
    obtain rfl : fr = .syncRcvLoop c := by simpa using h
    rcases hfs (.syncRcvLoop c) (by simp) with ⟨hf, -⟩ | hf
    · exact .inl hf
    · exact .inr hf

include hs in
/-- The frame at which a section of an asleep thread starts is the head of `lwt_sync_rcv(c)`. -/
theorem Section.frame_asleep (h : σ.Asleep c cur) : f = .syncRcvLoop c := by
  rcases hs.at_ with hctx | ⟨-, hctx, -⟩
  · have hctx : (σ.threads cur).context = f :: rest := hctx
    simpa [hctx] using h.context
  · have hctx : (σ.threads cur).context = [] := hctx
    simpa [hctx] using h.context

include hs ht in
/-- A section that does not come to the head of `lwt_sync_rcv(c)` and does not send to `c` makes no
receiver miss a message. -/
theorem Section.noLostWakeup (hc : c < σ.nchans) (hP : σ.NoLostWakeup c)
    (hsnd : ∀ d, f ≠ .call (.lwtSnd c d)) (hrcv : f ≠ .call (.lwtRcv c))
    (hblock : f ≠ .syncRcvBlock c) : τ.NoLostWakeup c := by
  rw [noLostWakeup_iff] at hP ⊢
  intro r hr
  have hne : r ≠ cur := by
    rintro rfl
    exact (hs.loop_self ht hr.context).elim hrcv hblock
  have hcount := hP r (hs.asleep_other ht hc hne hr)
  by_cases hl : f = .syncRcvLoop c
  · subst hl
    obtain ⟨⟨σ', n⟩, hb, hfin⟩ := bind_ok hs.exec
    obtain ⟨-, hchans, -⟩ := finish_fields hfin
    rw [hchans]
    cases (lwtSyncRcvLoop_ok hb).2.2 with
    | read hn => exact absurd hcount hn
    | empty => exact hcount
  · have heff : ChanEffect σ cur c f (τ.chans c) := (exec_net hs.exec).chanEffect hc
    rw [heff.buffer hsnd hrcv hl]
    exact hcount

/-- A section that goes on elsewhere leaves the states of threads alone, and the frames of other
threads. -/
theorem asleep_goto {σ' : State} {fs : List Frame} (hfin : σ'.finish cur rest (.goto fs) = .ok τ)
    (hth : σ'.threads = σ.threads) (hrcv : (σ'.chans c).receiver = (σ.chans c).receiver) :
    (∀ r, r ≠ cur → (τ.Asleep c r ↔ σ.Asleep c r)) ∧
      (τ.Asleep c cur ↔ (σ.chans c).receiver = some cur ∧
        (fs ++ rest).head? = some (.syncRcvLoop c) ∧ (σ.threads cur).state = .blocked) := by
  obtain ⟨-, hchans, -⟩ := finish_fields hfin
  have hrcv : (τ.chans c).receiver = (σ.chans c).receiver := by rw [hchans, hrcv]
  cases hfin
  constructor
  · intro r hr
    have hsame : (σ'.saveContext cur (fs ++ rest)).threads r = σ.threads r := by
      rw [← hth]
      exact Function.update_of_ne hr _ _
    constructor
    · rintro ⟨h1, h2, h3⟩
      exact ⟨hrcv ▸ h1, hsame ▸ h2, hsame ▸ h3⟩
    · rintro ⟨h1, h2, h3⟩
      exact ⟨hrcv ▸ h1, hsame ▸ h2, hsame ▸ h3⟩
  · have hself : (σ'.saveContext cur (fs ++ rest)).threads cur =
        { σ.threads cur with context := fs ++ rest } := by
      rw [← hth]
      exact Function.update_self _ _ _
    constructor
    · rintro ⟨h1, h2, h3⟩
      rw [hself] at h2 h3
      exact ⟨hrcv ▸ h1, h2, h3⟩
    · rintro ⟨h1, h2, h3⟩
      exact ⟨hrcv ▸ h1, by rw [hself]; exact h2, by rw [hself]; exact h3⟩

/-- A send to `c` makes the receiver of `c` miss a message if and only if it is asleep. -/
theorem noLostWakeup_snd {d : Data} (hs : Section σ l τ cur (.call (.lwtSnd c d)) rest)
    (hglobal : (σ.chans c).type = .global) (hP : σ.NoLostWakeup c) :
    τ.NoLostWakeup c ↔ ∀ r, ¬ σ.Asleep c r := by
  rw [noLostWakeup_iff] at hP ⊢
  obtain ⟨⟨σ', n⟩, hb, hfin⟩ := bind_ok hs.exec
  obtain ⟨-, hchans, -⟩ := finish_fields hfin
  cases (lwtSnd_ok hb).2.2 with
  | noReceiver hlocal | handOff _ hlocal | ring _ _ hlocal | block _ _ hlocal =>
    exact absurd (hglobal.symm.trans hlocal) (by simp)
  | sync r₀ =>
    obtain ⟨hother, hself⟩ := asleep_goto (σ := σ) (c := c) hfin rfl (by simp)
    constructor
    · intro h r hr
      have hne : r ≠ cur := by
        rintro rfl
        cases hs.frame_asleep hr
      have hcount := hP r hr
      have hcount' := h r ((hother r hne).mpr hr)
      -- the ring holds one value more
      simp only [hchans, RingBuffer.count, emit_chans, modChan_chans, Function.update_self,
        RingBuffer.push_tail, RingBuffer.push_head] at hcount hcount'
      unfold wrap32 at hcount hcount'
      omega
    · intro h r hr
      by_cases hne : r = cur
      · subst hne
        simpa using (hself.mp hr).2.1
      · exact absurd ((hother r hne).mp hr) (h r)

/-- A thread that comes to the head of `lwt_sync_rcv(c)` misses a message if and only if it is the
receiver, its state is `LWT_BLOCKED`, and there is a message. -/
theorem noLostWakeup_rcv (hs : Section σ l τ cur (.call (.lwtRcv c)) rest)
    (hglobal : (σ.chans c).type = .global) (hP : σ.NoLostWakeup c) :
    τ.NoLostWakeup c ↔ ((σ.chans c).receiver = some cur → (σ.threads cur).state = .blocked →
      (σ.chans c).buffer.count = 0) := by
  rw [noLostWakeup_iff] at hP ⊢
  obtain ⟨⟨σ', n⟩, hb, hfin⟩ := bind_ok hs.exec
  obtain ⟨-, hchans, -⟩ := finish_fields hfin
  cases (lwtRcv_ok hb).2.2 with
  | ring hlocal | refill _ _ hlocal | sender _ _ hlocal | block hlocal =>
    exact absurd (hglobal.symm.trans hlocal) (by simp)
  | sync r₀ =>
    obtain ⟨hother, hself⟩ := asleep_goto (σ := σ) (c := c) hfin rfl rfl
    rw [hchans]
    constructor
    · intro h hrcv hblocked
      exact h cur (hself.mpr ⟨hrcv, rfl, hblocked⟩)
    · intro h r hr
      by_cases hne : r = cur
      · subst hne
        obtain ⟨hrcv, -, hblocked⟩ := hself.mp hr
        exact h hrcv hblocked
      · exact hP r ((hother r hne).mp hr)

/-- Behind the check of an empty ring a thread is asleep. -/
theorem Section.asleep_self (hs : Section σ l τ cur (.syncRcvBlock c) rest)
    (hw : σ.sched.Wired) : (τ.threads cur).context.head? = some (.syncRcvLoop c) ∧
      (τ.threads cur).state = .blocked := by
  obtain ⟨⟨σ', n⟩, hb, hfin⟩ := bind_ok hs.exec
  cases hb
  have hd := finish_schedule hfin
  rw [countBlocked_requeue, sleepRcv_sched] at hd
  obtain ⟨t, q, hq, hτ⟩ := hd
  -- the thread has left its run queue
  have hne : cur ≠ t := by
    rintro rfl
    have hmem : cur ∈ (σ.queues (.run σ.currentKthd)).erase cur := by
      have hq : (σ.queues (.run σ.currentKthd)).erase cur = cur :: q := hq
      rw [hq]
      exact List.mem_cons_self
    exact (hw.nodup (.run σ.currentKthd)).not_mem_erase hmem
  have htask : (τ.threads cur).task = { σ.sched.tasks cur with
      state := .blocked
      blockFor := .receiving
      nowRcving := some c
      context := .syncRcvLoop c :: rest } := by
    have := congrArg (fun s => s.tasks cur) hτ
    simpa [hne] using this
  have hctx : (τ.threads cur).task.context = .syncRcvLoop c :: rest := by rw [htask]
  have hstate : (τ.threads cur).task.state = .blocked := by rw [htask]
  exact ⟨congrArg List.head? hctx, hstate⟩

/-- A receiver that falls asleep misses a message if and only if there is one. -/
theorem noLostWakeup_block (hs : Section σ l τ cur (.syncRcvBlock c) rest) (ht : WellFramed σ)
    (hw : σ.sched.Wired) (hc : c < σ.nchans) (hP : σ.NoLostWakeup c) :
    τ.NoLostWakeup c ↔ ((σ.chans c).receiver = some cur → (σ.chans c).buffer.count = 0) := by
  rw [noLostWakeup_iff] at hP ⊢
  have heff : ChanEffect σ cur c (.syncRcvBlock c) (τ.chans c) :=
    (exec_net hs.exec).chanEffect hc
  have hbuffer : (τ.chans c).buffer = (σ.chans c).buffer :=
    heff.buffer (by simp) (by simp) (by simp)
  rw [hbuffer]
  constructor
  · intro h hrcv
    have hrcv' : (τ.chans c).receiver = some cur := by
      rcases receiver_cases hs hc with hr | ⟨-, -, hf⟩
      · rw [hr, hrcv]
      · cases hf
    obtain ⟨hctx, hblocked⟩ := hs.asleep_self hw
    exact h cur ⟨hrcv', hctx, hblocked⟩
  · intro h r hr
    by_cases hne : r = cur
    · subst hne
      refine h ?_
      rcases receiver_cases hs hc with hr' | ⟨-, -, hf⟩
      · rw [← hr', hr.receiver]
      · cases hf
    · exact hP r (hs.asleep_other ht hc hne hr)

/-- A section makes the receiver of `c` miss a message if and only if it is not in time. -/
theorem noLostWakeup_section (hs : Section σ l τ cur f rest) (ht : WellFramed σ)
    (hw : σ.sched.Wired)
    (hc : c < σ.nchans) (hu : SyncUse c σ l) (hP : σ.NoLostWakeup c) :
    τ.NoLostWakeup c ↔ InTime c σ l := by
  have hframe (g : Frame) : σ.frame l = some g ↔ f = g := by
    rw [hs.frame, Option.some.injEq]
  have hcurrent (r : ThreadId) : σ.lwtCurrent = some r ↔ cur = r := by
    rw [hs.current, Option.some.injEq]
  by_cases hsnd : ∃ d, f = .call (.lwtSnd c d)
  · obtain ⟨d, rfl⟩ := hsnd
    rw [noLostWakeup_snd hs (hu.snd d hs.frame) hP]
    constructor
    · intro h
      exact ⟨fun _ _ => h, fun hf => by simp [hframe] at hf, fun hf => by simp [hframe] at hf⟩
    · intro h
      exact h.snd d hs.frame
  have hsnd : ∀ d, f ≠ .call (.lwtSnd c d) := by simpa using hsnd
  have hsnd' : ∀ d, σ.frame l = some (.call (.lwtSnd c d)) → ∀ r, ¬ σ.Asleep c r :=
    fun d hf => absurd ((hframe _).mp hf) (hsnd d)
  by_cases hrcv : f = .call (.lwtRcv c)
  · subst hrcv
    rw [noLostWakeup_rcv hs (hu.rcv hs.frame) hP]
    constructor
    · intro h
      refine ⟨hsnd', fun hf => by simp [hframe] at hf, fun _ r hr => ?_⟩
      obtain rfl : cur = r := (hcurrent r).mp hr
      exact h
    · intro h
      exact h.rcv hs.frame cur hs.current
  by_cases hblock : f = .syncRcvBlock c
  · subst hblock
    rw [noLostWakeup_block hs ht hw hc hP]
    constructor
    · intro h
      refine ⟨hsnd', fun _ _ hr => h ?_, fun hf => absurd ((hframe _).mp hf) hrcv⟩
      rw [← hr, hs.current]
    · intro h hr
      exact h.block hs.frame hc (hs.current.trans hr.symm)
  · exact iff_of_true (hs.noLostWakeup ht hc hP hsnd hrcv hblock)
      ⟨hsnd', fun hf => absurd ((hframe _).mp hf) hblock, fun hf => absurd ((hframe _).mp hf) hrcv⟩

end Sections

section Runs

/-- Nobody misses a message of a channel that nothing went through. -/
theorem State.NoLostWakeup.of_empty (ht : (σ.chans c).buffer.tail = 0)
    (hh : (σ.chans c).buffer.head = 0) : σ.NoLostWakeup c :=
  noLostWakeup_iff.mpr fun _ _ => RingBuffer.count_empty ht hh

/-- A step makes the receiver of `c` miss a message if and only if it is not in time. -/
theorem noLostWakeup_step (ht : WellFramed σ) (hw : σ.sched.Wired) (hu : SyncUse c σ l)
    (hP : c < σ.nchans → σ.NoLostWakeup c) (hs : Step σ l τ) :
    (c < τ.nchans → τ.NoLostWakeup c) ↔ InTime c σ l := by
  obtain ⟨cur, f, rest, hsec⟩ | ⟨k, rfl, rfl⟩ | ⟨k, mem, rfl, -, hi⟩ := step_cases hs
  · have hnet := exec_net hsec.exec
    rcases lt_or_ge c σ.nchans with hlt | hge
    · have hlt' : c < τ.nchans := hlt.trans_le hnet.nchans_le
      rw [forall_prop_of_true hlt']
      exact noLostWakeup_section hsec ht hw hlt hu (hP hlt)
    · refine iff_of_true (fun hc => ?_) ⟨fun d hf => ?_, fun _ hc => ?_, fun hf => ?_⟩
      · obtain ⟨-, hcr⟩ := hnet.created hge hc
        obtain ⟨htail, hhead, -⟩ := hcr.empty
        exact .of_empty htail hhead
      · obtain rfl := Option.some.inj (hsec.frame.symm.trans hf)
        exact absurd hnet.snd_lt (not_lt.mpr hge)
      · exact absurd hc (not_lt.mpr hge)
      · obtain rfl := Option.some.inj (hsec.frame.symm.trans hf)
        exact absurd hnet.rcv_lt (not_lt.mpr hge)
  · refine iff_of_true (fun hc => ?_) ⟨fun _ => nofun, nofun, nofun⟩
    have h := noLostWakeup_iff.mp (hP hc)
    exact noLostWakeup_iff.mpr fun r hr => h r ⟨hr.receiver, hr.context, hr.blocked⟩
  · refine iff_of_true (fun hc => ?_) ⟨fun _ => nofun, nofun, nofun⟩
    obtain ⟨th, ch, -, hctx, -, -, htail, hhead, -, -, -, -, -, rfl⟩ := initiate_ok hi
    by_cases hn : c = σ.nchans
    · exact .of_empty (by simpa [hn] using htail) (by simpa [hn] using hhead)
    · have h := noLostWakeup_iff.mp (hP (lt_of_le_of_ne (Nat.le_of_lt_succ hc) hn))
      refine noLostWakeup_iff.mpr fun r hr => ?_
      have hne : r ≠ σ.nthreads := by
        rintro rfl
        simpa [hctx] using hr.context
      simpa [hn] using h r ⟨by simpa [hn] using hr.receiver, by simpa [hne] using hr.context,
        by simpa [hne] using hr.blocked⟩

/-- A receiver misses no message in any state of a run if and only if every step is in time. -/
theorem no_lost_wakeup_iff (h : Run σ₀ tr σ) (hb : σ₀.Boot k) (hu : ∀ p ∈ tr, SyncUse c p.1 p.2) :
    (∀ τ ∈ Transition.visited tr σ, c < τ.nchans → τ.NoLostWakeup c) ↔
      ∀ p ∈ tr, InTime c p.1 p.2 := by
  refine h.forall_visited_iff (I := fun σ => WellFramed σ ∧ σ.sched.Wired) hu
    ⟨(boot_ok hb).wellFramed, boot_wired hb⟩ (fun hc => ?_)
    (fun _ _ _ h _ hs => ⟨h.1.step hs, wired_step h.1 h.2 hs⟩)
    fun _ _ _ h hP hu hs => noLostWakeup_step h.1 h.2 hu hP hs
  have hzero : c = 0 := (boot_ok hb).chan_eq hc
  obtain ⟨htail, hhead, -⟩ := (boot_ok hb).chan
  subst hzero
  exact .of_empty htail hhead

theorem postRun_no_lost_wakeup :
    (∀ τ ∈ Transition.visited (booted.trace (postRun 1)) (booted.after (postRun 1)),
      2 < τ.nchans → τ.NoLostWakeup 2) ↔ ∀ p ∈ booted.trace (postRun 1), InTime 2 p.1 p.2 :=
  no_lost_wakeup_iff (State.run_trace booted (postRun 1)) boot_booted (by decide +kernel)

/-- The main thread waits for a message, and another thread runs in its place. A second kernel
thread sends the message. -/
def lateRun : List Label :=
  [.initiate 2 createMem, .call (.lwtChan 1 chanMem), .call (.setChanType 2 .global),
    .call (.lwtCreate 0 createMem), .call (.lwtRcv 2), .resume, .resume, .switch 2,
    .call (.lwtSnd 2 (.word 5)), .resume]

/-- The entry for the sleeping receiver is there, and `__lwt_schedule` does not wake it. -/
theorem sleeper_not_woken :
    (∀ p ∈ booted.trace lateRun, SyncUse 2 p.1 p.2) ∧ 2 < (booted.after lateRun).nchans ∧
    (booted.after lateRun).Asleep 2 0 ∧ ((booted.after lateRun).chans 2).buffer.count = 1 ∧
    some 0 ∈ (booted.after lateRun).wakeupQueues 1 ∧
    (∀ τ, { booted.after lateRun with currentKthd := 1 }.lwtSchedule = .ok τ →
      (τ.threads 0).state = .blocked) ∧
    ¬ (booted.after lateRun).NoLostWakeup 2 := by
  have hloop : ((booted.after lateRun).threads 0).context.head?.bind Frame.loopsIn = some 2 := by
    decide +kernel
  have hasleep : (booted.after lateRun).Asleep 2 0 := by
    refine ⟨by decide +kernel, ?_, by decide +kernel⟩
    obtain ⟨f, hf, hl⟩ := Option.bind_eq_some_iff.mp hloop
    rw [hf, Frame.loopsIn_eq_some.mp hl]
  have hcount : ((booted.after lateRun).chans 2).buffer.count = 1 := by decide +kernel
  refine ⟨by decide +kernel, by decide +kernel, hasleep, hcount, by decide +kernel, ?_, fun h => ?_⟩
  · intro τ h
    obtain ⟨t, q, hq, rfl⟩ := lwtSchedule_ok h
    have hqueue : (booted.after lateRun).queues (.run 1) = [2] := by decide +kernel
    have hq : (booted.after lateRun).queues (.run 1) = t :: q := hq
    obtain rfl : 2 = t := (List.cons.inj (hqueue.symm.trans hq)).1
    exact hasleep.blocked
  · have hzero := noLostWakeup_iff.mp h 0 hasleep
    rw [hcount] at hzero
    exact absurd hzero (by decide)

end Runs

end Lwt
