import Lwt.Identity
import Lwt.Channels
import Lwt.Wired
import Lwt.Conservation

/-! `lwt_die` sends its last word over the exit channel before it goes to the
recycle queue. The exit channel has no slots, so the send blocks unless there is
no receiver any more or the receiver is inside `lwt_rcv` on that channel. For a
thread made with `LWT_NOJOIN` nobody is meant to be there: `lwt_join` refuses it.
Such a thread dies in one go exactly when the send finds one of the two. -/

namespace Lwt

open State

variable {σ τ σ' σ₀ : State} {l : Label} {cur t : ThreadId} {f : Frame} {rest : List Frame}
  {c : ChanId} {d : Data} {n : Next} {k : KthdId} {tr : List (State × Label)}

namespace State

/-- The stacks of a thread inside `lwt_die` up to the recycling of its structure. -/
inductive Dying (σ : State) : List Frame → Prop
  | send (c : ChanId) (d : Data) (hc : c < σ.nchans) (h0 : (σ.chans c).size = 0) :
      Dying σ [.call (.lwtSnd c d), .dieSnd]
  | blocked (c : ChanId) : Dying σ [.sndRet c, .dieSnd]
  | sent : Dying σ [.dieSnd]

/-- Every thread has an exit channel without slots, and dies in the order of `lwt_die`. -/
structure Mortal (σ : State) : Prop where
  chl : ∀ t < σ.nthreads, (σ.threads t).chl < σ.nchans ∧ (σ.chans (σ.threads t).chl).size = 0
  calls : ∀ t d, .call (.lwtDie d) ∉ (σ.threads t).context
  dying : ∀ t, .dieSnd ∈ (σ.threads t).context → σ.Dying (σ.threads t).context

/-- A NOJOIN thread inside `lwt_die` is running, and is not suspended in the send
of its last word. -/
def DiesAtOnce (σ : State) : Prop :=
  ∀ t < σ.nthreads, (σ.threads t).nojoin = true → .dieSnd ∈ (σ.threads t).context →
    (∃ k, (σ.kthds k).currentThread = some t) ∧
      ∀ c, (σ.threads t).context.head? ≠ some (.sndRet c)

end State

/-- If step `l` is the send of the last word of a NOJOIN thread, the exit channel has
no receiver, or its receiver is suspended in `lwt_rcv` on it. -/
def LastWordTaken (σ : State) (l : Label) : Prop :=
  ∀ c d, σ.frame l = some (.call (.lwtSnd c d)) → ∀ t, σ.lwtCurrent = some t →
    (σ.threads t).nojoin = true → .dieSnd ∈ (σ.threads t).context →
    ∀ r, (σ.chans c).receiver = some r →
      (σ.threads r).state = .blocked ∧ (σ.threads r).blockFor = .receiving ∧
        (σ.threads r).nowRcving = some c

theorem State.Dying.congr {ctx : List Frame} (h : σ.Dying ctx) (hn : σ.nchans ≤ τ.nchans)
    (hs : ∀ c < σ.nchans, (τ.chans c).size = (σ.chans c).size) : τ.Dying ctx := by
  cases h with
  | send c d hc h0 => exact .send c d (hc.trans_le hn) ((hs c hc).trans h0)
  | blocked c => exact .blocked c
  | sent => exact .sent

section Sections

variable (hs : Section σ l τ cur f rest)

include hs in
theorem Section.roster : RosterEffect σ cur f τ.roster := exec_roster hs.exec

include hs in
theorem Section.size (hc : c < σ.nchans) : (τ.chans c).size = (σ.chans c).size :=
  ((exec_net hs.exec).chanEffect hc).size

include hs in
/-- A new channel that `lwt_create` makes has no slots. -/
theorem Section.exit_size {flags : ℤ} {mem : CreateMem} (hf : f = .call (.lwtCreate flags mem)) :
    σ.nchans < τ.nchans ∧ (τ.chans σ.nchans).size = 0 := by
  have hnet := exec_net hs.exec
  have hgoal : σ.nchans < τ.net.nchans ∧ (τ.net.chans σ.nchans).size = 0 := by
    generalize τ.net = ν at hnet
    subst hf
    cases hnet with
    | same hf => exact hf.elim
    | sleep hf => rcases hf with ⟨_, hf⟩ | ⟨_, hf⟩ <;> cases hf
    | thread => exact ⟨Nat.lt_succ_self _, by simp [initChan]⟩
  exact hgoal

include hs in
theorem chl_section (h : ∀ t < σ.nthreads, (σ.threads t).chl < σ.nchans ∧
      (σ.chans (σ.threads t).chl).size = 0) (t : ThreadId) (ht : t < τ.nthreads) :
    (τ.threads t).chl < τ.nchans ∧ (τ.chans (τ.threads t).chl).size = 0 := by
  have hle : σ.nchans ≤ τ.nchans := (exec_net hs.exec).nchans_le
  have hold (hlt : t < σ.nthreads) (hchl : (τ.threads t).chl = (σ.threads t).chl) :
      (τ.threads t).chl < τ.nchans ∧ (τ.chans (τ.threads t).chl).size = 0 := by
    obtain ⟨hc, h0⟩ := h t hlt
    rw [hchl]
    exact ⟨hc.trans_le hle, (hs.size hc).trans h0⟩
  have hnew {flags : ℤ} {mem : CreateMem} (hf : f = .call (.lwtCreate flags mem))
      (hchl : (τ.threads t).chl = σ.nchans) :
      (τ.threads t).chl < τ.nchans ∧ (τ.chans (τ.threads t).chl).size = 0 := by
    rw [hchl]
    exact hs.exit_size hf
  have hchl : (τ.threads t).chl = (τ.roster.ident t).chl := rfl
  have hlt : t < τ.roster.nthreads := ht
  have hroster := hs.roster
  generalize τ.roster = ρ at hroster hchl hlt
  cases hroster with
  | same => exact hold hlt hchl
  | recycle flags mem t' hf =>
    by_cases he : t = t'
    · subst he
      exact hnew hf (by simpa using hchl)
    · exact hold hlt (by simpa [he] using hchl)
  | fresh flags mem stack hf =>
    by_cases he : t = σ.nthreads
    · subst he
      exact hnew hf (by simpa using hchl)
    · exact hold (lt_of_le_of_ne (Nat.le_of_lt_succ hlt) he) (by simpa [he] using hchl)

/-- The send of a last word returns, or leaves the thread suspended in it. -/
inductive LastSend (σ τ : State) (cur : ThreadId) (c : ChanId) : Prop
  | taken (hctx : (τ.threads cur).context = [.dieSnd]) (hcur : τ.lwtCurrent = some cur)
      (h : ∀ r, (σ.chans c).receiver = some r → (σ.threads r).task.Receiving ∧
        (σ.threads r).nowRcving = some c)
  | stuck (hctx : (τ.threads cur).context = [.sndRet c, .dieSnd]) (r : ThreadId)
      (hr : (σ.chans c).receiver = some r)
      (h : ¬ ((σ.threads r).task.Receiving ∧ (σ.threads r).nowRcving = some c))

theorem lastSend (hs : Section σ l τ cur (.call (.lwtSnd c d)) [.dieSnd])
    (h0 : (σ.chans c).size = 0) : LastSend σ τ cur c := by
  obtain ⟨⟨σ', n⟩, hbody, hfin⟩ := bind_ok hs.exec
  have hctx := finish_frames hfin
  cases (lwtSnd_ok hbody).2.2 with
  | sync r _ _ _ hne => exact absurd h0 hne
  | ring r σ₁ _ _ _ _ _ hne => exact absurd h0 hne
  | noReceiver _ hr =>
    cases hfin
    refine .taken hctx hs.current fun r hr' => ?_
    rw [hr] at hr'
    cases hr'
  | handOff r _ hr _ hb hn =>
    cases hfin
    refine .taken hctx ?_ fun r' hr' => ?_
    · have hcur := hs.current
      simpa [lwtCurrent, kthd, resumeThread] using hcur
    · obtain rfl := Option.some.inj (hr.symm.trans hr')
      exact ⟨hb, hn⟩
  | block r σ₁ _ hr hb => exact .stuck hctx r hr hb

/-- The call of `lwt_die` of the thread that runs a section. -/
theorem State.Mortal.rest_eq_nil (hm : σ.Mortal) (hs : Section σ l τ cur (.call (.lwtDie d)) rest) :
    rest = [] := by
  rcases hs.at_ with hctx | ⟨-, -, hrest⟩
  · have hctx : (σ.threads cur).context = .call (.lwtDie d) :: rest := hctx
    exact absurd (by simp [hctx]) (hm.calls cur d)
  · exact hrest

include hs in
/-- What becomes of the stack of a dying thread that executes a section. -/
theorem dying_self (hm : σ.Mortal) (hd : .dieSnd ∈ (τ.threads cur).context) :
    (∃ d, f = .call (.lwtDie d) ∧
        (τ.threads cur).context = [.call (.lwtSnd (σ.threads cur).chl d), .dieSnd]) ∨
      (∃ c d, f = .call (.lwtSnd c d) ∧ rest = [.dieSnd] ∧ c < σ.nchans ∧
        (σ.chans c).size = 0) ∨
      (∃ c, f = .sndRet c ∧ rest = [.dieSnd] ∧ (τ.threads cur).context = [.dieSnd]) := by
  obtain ⟨⟨σ', n⟩, hbody, hfin⟩ := bind_ok hs.exec
  have hctx := finish_frames hfin
  rw [hctx] at hd
  rcases List.mem_append.mp hd with hmem | hmem
  · obtain ⟨d, rfl⟩ : ∃ d, f = .call (.lwtDie d) := body_frames hbody _ hmem
    have hrest := hm.rest_eq_nil hs
    subst hrest
    cases hbody
    exact .inl ⟨d, rfl, hctx⟩
  · have hσ : (σ.threads cur).context = f :: rest := by
      rcases hs.at_ with hctx | ⟨-, -, rfl⟩
      · exact hctx
      · simp at hmem
    have hshape : σ.Dying (f :: rest) := by
      rw [← hσ]
      exact hm.dying cur (by simp [hσ, hmem])
    generalize hstack : f :: rest = ctx at hshape
    cases hshape with
    | send c d hc h0 =>
      obtain ⟨rfl, rfl⟩ := List.cons.inj hstack
      exact .inr (.inl ⟨c, d, rfl, rfl, hc, h0⟩)
    | blocked c =>
      obtain ⟨rfl, rfl⟩ := List.cons.inj hstack
      cases hbody
      exact .inr (.inr ⟨c, rfl, rfl, hctx⟩)
    | sent =>
      obtain ⟨rfl, rfl⟩ := List.cons.inj hstack
      simp at hmem

include hs in
theorem mortal_section (hm : σ.Mortal) (ht : WellFramed σ) (hw : σ.sched.Wired) : τ.Mortal where
  chl := chl_section hs hm.chl
  calls t d hmem := by
    rcases ht.mem_context hs hmem with hmem | ⟨-, hl⟩
    · exact hm.calls t d hmem
    · exact hl.elim
  dying t hmem := by
    have hle : σ.nchans ≤ τ.nchans := (exec_net hs.exec).nchans_le
    by_cases hcur : t = cur
    · subst hcur
      rcases dying_self hs hm hmem with ⟨d, rfl, hctx⟩ | ⟨c, d, rfl, rfl, hc, h0⟩ | ⟨c, -, -, hctx⟩
      · rw [hctx]
        obtain ⟨hc, h0⟩ := hm.chl t (hw.current _ _ hs.current)
        exact .send _ d (hc.trans_le hle) ((hs.size hc).trans h0)
      · cases lastSend hs h0 with
        | taken hctx =>
          rw [hctx]
          exact .sent
        | stuck hctx =>
          rw [hctx]
          exact .blocked c
      · rw [hctx]
        exact .sent
    · rcases (ht.effect hs).context_other hcur with hctx | hctx
      · have hctx : (τ.threads t).context = (σ.threads t).context := hctx
        rw [hctx] at hmem ⊢
        exact (hm.dying t hmem).congr hle fun c hc => hs.size hc
      · have hctx : (τ.threads t).context = [] := hctx
        simp [hctx] at hmem

include hs in
/-- What another dying thread is and where it stands is left alone. -/
theorem dying_other (ht : WellFramed σ) (hne : t ≠ cur) (hlt : t < τ.nthreads)
    (hd : .dieSnd ∈ (τ.threads t).context) :
    t < σ.nthreads ∧ (τ.threads t).context = (σ.threads t).context ∧
      (τ.threads t).nojoin = (σ.threads t).nojoin := by
  have heff := ht.effect hs
  have hnil : (τ.threads t).context ≠ [] := List.ne_nil_of_mem hd
  refine ⟨?_, ?_, congrArg Ident.nojoin (hs.ident_eq hne hnil)⟩
  · by_contra hge
    exact hnil (heff.context_new (not_lt.mp hge) hlt hne)
  · exact (heff.context_other hne).resolve_right hnil

include hs in
/-- A section lets every NOJOIN thread die at once if and only if it is not the send of
a last word that nobody takes. -/
theorem diesAtOnce_section (hm : σ.Mortal) (ht : WellFramed σ) (hw : σ.sched.Wired)
    (hP : σ.DiesAtOnce) : τ.DiesAtOnce ↔ LastWordTaken σ l := by
  have hnojoin (hf : ∀ flags mem, f ≠ .call (.lwtCreate flags mem)) :
      (τ.threads cur).nojoin = (σ.threads cur).nojoin :=
    congrArg (fun ρ : Roster => (ρ.ident cur).nojoin) (exec_roster_eq hf hs.exec)
  have hcurlt : cur < σ.nthreads := hw.current _ _ hs.current
  have hle : σ.nthreads ≤ τ.nthreads := (ht.effect hs).ntasks_le
  constructor
  · intro hP' c d hf t hcur hnj hd r hr
    obtain rfl := Option.some.inj (hs.current.symm.trans hcur)
    obtain rfl := Option.some.inj (hs.frame.symm.trans hf)
    have hshape := hm.dying cur hd
    have hctx : (σ.threads cur).context = .call (.lwtSnd c d) :: rest := by
      rcases hs.at_ with hctx | ⟨-, hctx, -⟩
      · exact hctx
      · have hctx : (σ.threads cur).context = [] := hctx
        simp [hctx] at hd
    rw [hctx] at hshape
    cases hshape with
    | send _ _ hc h0 =>
      cases lastSend hs h0 with
      | taken _ _ h =>
        obtain ⟨hrcv, hn⟩ := h r hr
        exact ⟨hrcv.1, hrcv.2, hn⟩
      | stuck hτ =>
        rw [← hnojoin (by simp)] at hnj
        exact absurd (by simp [hτ]) ((hP' cur (hcurlt.trans_le hle) hnj (by simp [hτ])).2 c)
  · intro hC t hlt hnj hd
    by_cases hcur : t = cur
    · subst hcur
      rcases dying_self hs hm hd with ⟨d, rfl, hctx⟩ | ⟨c, d, rfl, rfl, hc, h0⟩ | ⟨c, rfl, rfl, -⟩
      · refine ⟨⟨σ.currentKthd, ?_⟩, fun c => by simp [hctx]⟩
        obtain ⟨⟨σ', n⟩, hbody, hfin⟩ := bind_ok hs.exec
        cases hbody
        cases hfin
        have hrun := hs.current
        simpa [lwtCurrent, kthd, saveContext] using hrun
      · have hctx : (σ.threads t).context = [.call (.lwtSnd c d), .dieSnd] :=
          hs.at_.resolve_right (by simp)
        rw [hnojoin (by simp)] at hnj
        cases lastSend hs h0 with
        | taken hτ hrun => exact ⟨⟨_, hrun⟩, fun c => by simp [hτ]⟩
        | stuck _ r hr hno =>
          obtain ⟨h1, h2, h3⟩ := hC c d hs.frame t hs.current hnj (by simp [hctx]) r hr
          exact absurd ⟨⟨h1, h2⟩, h3⟩ hno
      · have hctx : (σ.threads t).context = [.sndRet c, .dieSnd] := hs.at_.resolve_right (by simp)
        rw [hnojoin (by simp)] at hnj
        exact absurd (by simp [hctx]) ((hP t hcurlt hnj (by simp [hctx])).2 c)
    · obtain ⟨hlt', hctx, hnj'⟩ := dying_other hs ht hcur hlt hd
      rw [hctx] at hd ⊢
      obtain ⟨⟨k, hk⟩, hno⟩ := hP t hlt' (hnj' ▸ hnj) hd
      refine ⟨⟨k, ?_⟩, hno⟩
      have hne : k ≠ σ.currentKthd := by
        rintro rfl
        exact hcur (Option.some.inj (hk.symm.trans hs.current))
      exact ((ht.effect hs).current_other hne).trans hk

/-- A thread that has sent its last word goes to the recycle queue. -/
theorem dieSnd_section (hw : σ.sched.Wired) (hs : Section σ l τ cur .dieSnd rest) :
    (τ.threads cur).state = .zombies ∧ cur ∈ τ.queues (.recycle σ.currentKthd) := by
  obtain ⟨⟨σ', n⟩, hbody, hfin⟩ := bind_ok hs.exec
  cases hbody
  obtain ⟨t, rest', hq, rfl⟩ := lwtSchedule_ok hfin
  have hne : cur ≠ t := by
    rintro rfl
    have hmem : cur ∈ (σ.queues (.run σ.currentKthd)).erase cur := by
      have hcons : ((σ.queues.rem cur).add (.recycle σ.currentKthd) cur) (.run σ.currentKthd) =
        cur :: rest' := hq
      rw [Rings.add_of_ne _ _ (by simp)] at hcons
      rw [← Rings.rem_apply, hcons]
      exact List.mem_cons_self
    exact (hw.nodup (.run σ.currentKthd)).not_mem_erase hmem
  constructor
  · simp [hne]
  · simp [currentRecycleQueue]

end Sections

section Runs

variable {mem : CreateMem}

/-- A new kernel thread starts on a thread with an empty stack. -/
theorem initiate_threads (hi : σ.initiate k mem = .ok τ) :
    ∃ th, th.context = [] ∧ τ.threads = Function.update σ.threads σ.nthreads th := by
  obtain ⟨th, ch, -, hctx, -, -, -, -, -, -, -, -, -, rfl⟩ := initiate_ok hi
  exact ⟨th, hctx, rfl⟩

theorem mortal_initiate (hm : σ.Mortal) (hi : σ.initiate k mem = .ok τ) : τ.Mortal := by
  obtain ⟨th, hctx, hthreads⟩ := initiate_threads hi
  obtain ⟨raw, -, hroster⟩ := initiate_roster hi
  obtain ⟨_, ch, -, -, -, -, -, -, hsize, -, -, -, -, hτ⟩ := initiate_ok hi
  have hn : τ.nthreads = σ.nthreads + 1 := by rw [hτ]
  have hnc : τ.nchans = σ.nchans + 1 := by rw [hτ]
  have hchans : τ.chans = Function.update σ.chans σ.nchans ch := by rw [hτ]
  have hold {c : ChanId} (hc : c < σ.nchans) : (τ.chans c).size = (σ.chans c).size := by
    rw [hchans, Function.update_of_ne hc.ne]
  have hne {t : ThreadId} {fr : Frame} (hmem : fr ∈ (τ.threads t).context) :
      (τ.threads t).context = (σ.threads t).context := by
    rw [hthreads] at hmem ⊢
    by_cases ht : t = σ.nthreads
    · subst ht
      simp [hctx] at hmem
    · rw [Function.update_of_ne ht]
  refine ⟨fun t ht => ?_, fun t d hmem => ?_, fun t hmem => ?_⟩
  · have hchl : (τ.threads t).chl = (τ.roster.ident t).chl := rfl
    rw [hroster] at hchl
    by_cases he : t = σ.nthreads
    · subst he
      rw [hchl]
      simp [hnc, hchans, hsize]
    · rw [hn] at ht
      obtain ⟨hc, h0⟩ := hm.chl t (lt_of_le_of_ne (Nat.le_of_lt_succ ht) he)
      have hchl : (τ.threads t).chl = (σ.threads t).chl := by simpa [he] using hchl
      rw [hchl, hold hc, hnc]
      exact ⟨Nat.lt_succ_of_lt hc, h0⟩
  · exact hm.calls t d (hne hmem ▸ hmem)
  · have heq := hne hmem
    rw [heq] at hmem ⊢
    exact (hm.dying t hmem).congr (hnc ▸ Nat.le_succ _) fun c hc => hold hc

theorem mortal_step (hm : σ.Mortal) (ht : WellFramed σ) (hw : σ.sched.Wired) (hs : Step σ l τ) :
    τ.Mortal := by
  obtain ⟨cur, f, rest, hsec⟩ | ⟨k, -, rfl⟩ | ⟨k, mem, -, -, hi⟩ := step_cases hs
  · exact mortal_section hsec hm ht hw
  · exact ⟨hm.chl, hm.calls, fun t hd => (hm.dying t hd).congr le_rfl fun _ _ => rfl⟩
  · exact mortal_initiate hm hi

theorem boot_mortal (hb : σ.Boot k) : σ.Mortal := by
  have h := boot_ok hb
  refine ⟨fun t ht => ?_, fun t d hmem => ?_, fun t hmem => ?_⟩
  · obtain rfl := h.thread_eq ht
    have hchl : (σ.threads 0).chl = 0 := (boot_ident hb).2.1
    rw [hchl, h.nchans]
    exact ⟨Nat.one_pos, h.chan.2.2.1⟩
  · simp [h.context] at hmem
  · simp [h.context] at hmem

theorem diesAtOnce_step (hm : σ.Mortal) (ht : WellFramed σ) (hw : σ.sched.Wired) (hP : σ.DiesAtOnce)
    (hs : Step σ l τ) : τ.DiesAtOnce ↔ LastWordTaken σ l := by
  obtain ⟨cur, f, rest, hsec⟩ | ⟨k, rfl, rfl⟩ | ⟨k, mem, rfl, hk, hi⟩ := step_cases hs
  · exact diesAtOnce_section hsec hm ht hw hP
  · exact iff_of_true hP fun c d hf => by cases hf
  · refine iff_of_true (fun t hlt hnj hd => ?_) fun c d hf => by cases hf
    obtain ⟨th, hctx, hthreads⟩ := initiate_threads hi
    have hne : t ≠ σ.nthreads := by
      rintro rfl
      simp [hthreads, hctx] at hd
    obtain ⟨raw, -, hroster⟩ := initiate_roster hi
    have hn : τ.nthreads = σ.nthreads + 1 := congrArg Roster.nthreads hroster
    rw [hn] at hlt
    rw [hthreads, Function.update_of_ne hne] at hnj hd ⊢
    obtain ⟨⟨k', hk'⟩, hno⟩ := hP t (lt_of_le_of_ne (Nat.le_of_lt_succ hlt) hne) hnj hd
    refine ⟨⟨k', ?_⟩, hno⟩
    have hkk : k' ≠ k := by
      rintro rfl
      rw [hk] at hk'
      cases hk'
    obtain ⟨_, _, -, -, -, -, -, -, -, -, -, -, -, hτ⟩ := initiate_ok hi
    rw [hτ]
    simpa [hkk] using hk'

/-- In one kernel thread a dying thread that is not suspended is on the run queue only. -/
theorem InPlace.dying_runnable (h : InPlace σ k) (hm : σ.Mortal) (hlt : t < σ.nthreads)
    (hd : .dieSnd ∈ (σ.threads t).context)
    (hno : ∀ c, (σ.threads t).context.head? ≠ some (.sndRet c)) :
    (σ.threads t).state ≠ .blocked ∧ t ∈ σ.queues (.run k) ∧ ∀ c, t ∉ σ.queues (.sender c) := by
  have hpark : (σ.threads t).task.Parked := h.placed.parked t hlt
  have hshape := hm.dying t hd
  have hhead : ∀ fr, (σ.threads t).context.head? = some fr →
      (∃ c d, fr = .call (.lwtSnd c d)) ∨ fr = .dieSnd := by
    intro fr hfr
    generalize (σ.threads t).context = ctx at hshape hno hfr
    cases hshape with
    | send c d => exact .inl ⟨c, d, (Option.some.inj hfr).symm⟩
    | blocked c => exact absurd rfl (hno c)
    | sent => exact .inr (Option.some.inj hfr).symm
  have hne {fr : Frame} {fs : List Frame} (hctx : (σ.threads t).task.context = fr :: fs)
      (hfr : ¬ ((∃ c d, fr = .call (.lwtSnd c d)) ∨ fr = .dieSnd)) : False := by
    have hctx : (σ.threads t).context = fr :: fs := hctx
    exact hfr (hhead fr (by simp [hctx]))
  have hrun : (σ.threads t).task.CanRun := by
    cases hst : (σ.threads t).state with
    | runnable => exact .inl hst
    | running => exact .inr hst
    | blocked =>
      exfalso
      cases hbf : (σ.threads t).blockFor with
      | sending =>
        obtain ⟨c, fs, hctx⟩ := hpark.sending ⟨hst, hbf⟩
        exact hne hctx (by simp)
      | receiving =>
        rcases hpark.receiving ⟨hst, hbf⟩ with ⟨c, fs, hctx, -⟩ | ⟨c, fs, hctx, -⟩ | ⟨g, fs, hctx⟩
        · exact hne hctx (by simp)
        · exact hne hctx (by simp)
        · exact hne hctx (by simp)
    | zombies =>
      obtain ⟨fs, hctx⟩ := hpark.dead hst
      exact (hne hctx (by simp)).elim
  refine ⟨hrun.not_blocked, h.placed.mem_run_iff.mpr ⟨hlt, hrun⟩, fun c hc => ?_⟩
  exact hrun.not_sending (h.placed.mem_sender hc).2.1

instance (σ : State) (l : Label) : Decidable (LastWordTaken σ l) :=
  decidable_of_iff
    (∀ a ∈ (σ.frame l).bind Frame.sends, ∀ t ∈ σ.lwtCurrent, (σ.threads t).nojoin = true →
      .dieSnd ∈ (σ.threads t).context → ∀ r ∈ (σ.chans a.1).receiver,
        (σ.threads r).state = .blocked ∧ (σ.threads r).blockFor = .receiving ∧
          (σ.threads r).nowRcving = some a.1) <| by
    rw [forall_frame_iff Frame.sends_eq_some]
    exact ⟨fun h c d => h (c, d), fun h a => h a.1 a.2⟩

/-- In all states of a run the NOJOIN threads die at once, and what has died is a zombie on
the recycle queue as soon as its `lwt_die` gives up the processor. -/
structure Reclaims (tr : List (State × Label)) (σ : State) : Prop where
  atOnce : ∀ τ ∈ Transition.visited tr σ, τ.DiesAtOnce
  recycled : ∀ (i : ℕ) (p : State × Label) (τ : State) (t : ThreadId), tr[i]? = some p →
    (Transition.visited tr σ)[i + 1]? = some τ → p.1.frame p.2 = some .dieSnd →
    p.1.lwtCurrent = some t →
      (τ.threads t).state = .zombies ∧ t ∈ τ.queues (.recycle p.1.currentKthd)

/-- In every run the NOJOIN threads die at once if and only if no last word of one of them
is sent to a receiver that does not wait for it. In one kernel thread none of them is
then ever blocked, or on a sender queue, because of its death. -/
theorem dies_at_once_iff (h : Run σ₀ tr σ) (hb : σ₀.Boot k) :
    (Reclaims tr σ ↔ ∀ p ∈ tr, LastWordTaken p.1 p.2) ∧
      ((∀ p ∈ tr, Ordinary p.1 p.2) → Reclaims tr σ → ∀ τ ∈ Transition.visited tr σ,
        ∀ t < τ.nthreads, (τ.threads t).nojoin = true → .dieSnd ∈ (τ.threads t).context →
          (τ.threads t).state ≠ .blocked ∧ t ∈ τ.queues (.run k) ∧
            ∀ c, t ∉ τ.queues (.sender c)) := by
  have hboot := boot_ok hb
  have hinv {tr' : List (State × Label)} {u : State} (hr : Run σ₀ tr' u) :
      WellFramed u ∧ u.sched.Wired ∧ u.Mortal := by
    refine hr.invariant (I := fun u => WellFramed u ∧ u.sched.Wired ∧ u.Mortal)
      ⟨hboot.wellFramed, boot_wired hb, boot_mortal hb⟩ ?_
    rintro s l s' ⟨ht, hw, hm⟩ hs
    exact ⟨ht.step hs, wired_step ht hw hs, mortal_step hm ht hw hs⟩
  have hiff : (∀ τ ∈ Transition.visited tr σ, τ.DiesAtOnce) ↔ ∀ p ∈ tr, LastWordTaken p.1 p.2 := by
    refine Transition.Run.forall_visited_iff (I := fun u => WellFramed u ∧ u.sched.Wired ∧ u.Mortal)
      (P := DiesAtOnce) (C := LastWordTaken) (D := fun _ _ => True) h (fun _ _ => trivial)
      (hinv .nil) ?_ ?_ ?_
    · intro t ht hnj
      obtain rfl := hboot.thread_eq ht
      have hfalse : (σ₀.threads 0).nojoin = false := (boot_ident hb).2.2
      rw [hfalse] at hnj
      cases hnj
    · rintro s l s' ⟨ht, hw, hm⟩ - hs
      exact ⟨ht.step hs, wired_step ht hw hs, mortal_step hm ht hw hs⟩
    · rintro s l s' ⟨ht, hw, hm⟩ hP - hs
      exact diesAtOnce_step hm ht hw hP hs
  refine ⟨⟨fun hr => hiff.mp hr.atOnce, fun hC => ⟨hiff.mpr hC, ?_⟩⟩, ?_⟩
  · intro i p τ t hp hτ hf hcur
    obtain ⟨tr', s', hr', -, -⟩ := h.of_mem (List.mem_of_getElem? hp)
    obtain ⟨cur, f, rest, hsec⟩ | ⟨k', hl, -⟩ | ⟨k', mem, hl, -, -⟩ :=
      step_cases (h.step_visited hp hτ)
    · obtain rfl := Option.some.inj (hsec.frame.symm.trans hf)
      obtain rfl := Option.some.inj (hsec.current.symm.trans hcur)
      exact dieSnd_section (hinv hr').2.1 hsec
    · rw [hl] at hf
      cases hf
    · rw [hl] at hf
      cases hf
  · intro ho hr τ hτ t hlt hnj hd
    obtain ⟨tr', hr', hpre⟩ := h.of_mem_visited hτ
    have hin := Run.inPlace hr' hb fun q hq => ho q (hpre.subset hq)
    exact hin.dying_runnable (hinv hr').2.2 hlt hd
      (hr.atOnce τ hτ t hlt hnj hd).2

/-- The creator gives up the exit channel of a NOJOIN thread before that dies. -/
def releaseRun : List Label :=
  [.call (.lwtCreate 1 createMem), .call (.lwtChanDeref 1), .call (.lwtYield none),
    .call (.lwtDie (.word 7)), .resume, .resume]

theorem releaseRun_reclaims : Reclaims (booted.trace releaseRun) (booted.after releaseRun) :=
  (dies_at_once_iff (run_trace booted releaseRun) boot_booted).1.mpr (by decide +kernel)

def stuckRun : List Label :=
  [.call (.lwtCreate 1 createMem), .call (.lwtYield none), .call (.lwtDie (.word 7)), .resume]

theorem stuckRun_blocked : ¬ (booted.after stuckRun).DiesAtOnce ∧
    ((booted.after stuckRun).threads 1).state = .blocked ∧
      1 ∈ (booted.after stuckRun).queues (.sender ((booted.after stuckRun).threads 1).chl) := by
  have hstate : ((booted.after stuckRun).threads 1).state = .blocked := by decide +kernel
  have hqueue : 1 ∈ (booted.after stuckRun).queues
      (.sender ((booted.after stuckRun).threads 1).chl) := by decide +kernel
  have hsend : ((booted.after stuckRun).threads 1).context.head?.bind Frame.sendsIn = some 1 := by
    decide +kernel
  refine ⟨fun hP => ?_, hstate, hqueue⟩
  obtain ⟨fr, hfr, hfr'⟩ := Option.bind_eq_some_iff.mp hsend
  rw [Frame.sendsIn_eq_some] at hfr'
  subst hfr'
  exact (hP 1 (by decide +kernel) (by decide +kernel) (by decide +kernel)).2 1 hfr

end Runs

end Lwt
