import Lwt.Exclusion
import Lwt.Idle
import Mathlib.Algebra.Ring.Parity

/-! `sl_thd_block` and `sl_thd_wakeup`. Both read the state of a thread and write it in another
step, and the assertion of `sl_thd_wakeup` writes it once more. In the critical section this is as
good as one step: the state is always what the calls give when they are made one after another. A
thread that is woken before it sleeps keeps one such call, and a second one cancels the first. -/

namespace Lwt.Sl

/-- What a call does to the state of a thread, made in one step. -/
def Change.apply : SlState → Change → SlState
  | .runnable, .block => .blocked
  | .blocked, .block => .blocked
  | .woken, .block => .runnable
  | .runnable, .wakeup => .woken
  | .blocked, .wakeup => .runnable
  | .woken, .wakeup => .runnable

/-- The state of a thread behind a list of calls. -/
def replay (s : SlState) (l : List Change) : SlState := l.foldl Change.apply s

@[simp] theorem replay_snoc (s : SlState) (l : List Change) (c : Change) :
    replay s (l ++ [c]) = Change.apply (replay s l) c := by
  simp [replay]

section

variable {P : Type} {pol : Policy P} {σ₀ σ τ : State P} {t u : ThdId} {inp : Input} {b : Body}
  {tr : List (State P × Label)}

/-- What thread `t` has found out about the state of a thread by coming to `pc`. -/
def Pc.Knows (σ₀ σ : State P) (t : ThdId) : Pc → Prop
  | .blockClear => σ.stateOf t = .woken
  | .blockSet => σ.stateOf t = .runnable
  | .wakeMark u => (σ.thds u).isSome ∧ σ.stateOf u = .runnable
  | .wakeAssert u => (σ.thds u).isSome ∧ σ.stateOf u ≠ .runnable
  | .wakeSet u => (σ.thds u).isSome ∧ replay (σ₀.stateOf u) (σ.changes u) ≠ .runnable
  | _ => True

/-- The states of the threads are what the calls recorded give. -/
structure Replayed (σ₀ σ : State P) : Prop where
  state : ∀ u, (σ.thds u).isSome → (∀ t, σ.pc t ≠ .wakeSet u) →
    σ.stateOf u = replay (σ₀.stateOf u) (σ.changes u)
  knows : ∀ t, (σ.pc t).Knows σ₀ σ t

theorem Pc.knows_of_outside {pc : Pc} (h : pc.inCs = false) : pc.Knows σ₀ σ t := by
  cases pc <;> simp_all [Pc.inCs, Pc.Knows]

namespace State

@[simp] theorem goto_stateOf (pc : Pc) : (σ.goto t pc).stateOf = σ.stateOf := rfl

@[simp] theorem record_stateOf (c : Change) : (σ.record t c).stateOf = σ.stateOf := rfl

theorem setState_stateOf (hu : (σ.thds u).isSome) (s : SlState) :
    (σ.setState u s).stateOf u = s := by
  obtain ⟨th, hth⟩ := Option.isSome_iff_exists.mp hu
  simp [stateOf, hth]

theorem setState_stateOf_ne {v : ThdId} (hv : v ≠ u) (s : SlState) :
    (σ.setState u s).stateOf v = σ.stateOf v := by
  simp [stateOf, hv]

end State

inductive Writes (σ₀ σ τ : State P) (t : ThdId) : Prop
  | same (thds : τ.thds = σ.thds) (changes : τ.changes = σ.changes)
      (before : ∀ u, σ.pc t ≠ .wakeSet u) (after : ∀ u, τ.pc t ≠ .wakeSet u)
      (knows : (τ.pc t).Knows σ₀ τ t)
  | write (u : ThdId) (s : SlState) (c : Change) (thds : τ.thds = (σ.setState u s).thds)
      (changes : τ.changes = (σ.record u c).changes)
      (result : (σ.thds u).isSome → s = Change.apply (replay (σ₀.stateOf u) (σ.changes u)) c)
      (before : ∀ v, v ≠ u → σ.pc t ≠ .wakeSet v) (after : ∀ v, τ.pc t ≠ .wakeSet v)
      (knows : (τ.pc t).Knows σ₀ τ t)
  | assert (u : ThdId) (before : σ.pc t = .wakeAssert u)
      (thds : τ.thds = (σ.setState u .blocked).thds) (changes : τ.changes = σ.changes)
      (after : τ.pc t = .wakeSet u)

/-- Where one thread is in the critical section, no other is in the middle of a wake-up. -/
theorem Replayed.state_of_inCs (hR : Replayed σ₀ σ) (hσ : Locked σ) (hin : (σ.pc t).inCs)
    (hu : (σ.thds u).isSome) (hpc : σ.pc t ≠ .wakeSet u) :
    σ.stateOf u = replay (σ₀.stateOf u) (σ.changes u) := by
  refine hR.state u hu fun v hv => ?_
  have hvt : v = t := hσ.eq_of_inCs (by rw [hv]; rfl) hin
  exact hpc (hvt ▸ hv)

theorem Pc.round_ne (pending : Bool) (u : ThdId) : Pc.round pending ≠ .wakeSet u := by
  cases pending <;> simp [Pc.round]

theorem Pc.round_knows (pending : Bool) : (Pc.round pending).Knows σ₀ σ t := by
  cases pending <;> trivial

namespace State

/-- A step to `pc` that leaves the threads alone. -/
theorem writes_goto {σ' : State P} {pc : Pc} (hthds : σ'.thds = σ.thds)
    (hchanges : σ'.changes = σ.changes) (hb : ∀ u, σ.pc t ≠ .wakeSet u) (ha : ∀ u, pc ≠ .wakeSet u)
    (hk : pc.Knows σ₀ (σ'.goto t pc) t) : Writes σ₀ σ (σ'.goto t pc) t :=
  .same hthds hchanges hb (by simpa using ha) (by simpa using hk)

theorem enterBody_writes (hpc : σ.pc t = .body b) (h : σ.enterBody t pol b inp = .ok τ) :
    Writes σ₀ σ τ t := by
  have hb (u : ThdId) : σ.pc t ≠ .wakeSet u := by simp [hpc]
  unfold enterBody at h
  split at h
  case h_1 =>
    split at h
    case h_1 hst =>
      cases h
      exact writes_goto rfl rfl hb (by simp) hst
    case h_2 hst =>
      cases h
      exact writes_goto rfl rfl hb (by simp) hst
    case h_3 => cases h
  case h_2 tid =>
    split at h
    case h_1 =>
      cases h
      exact writes_goto rfl rfl hb (by simp) trivial
    case h_2 u hu =>
      have hst : σ.stateOf tid = u.state := by simp [stateOf, hu]
      split_ifs at h with hrun
      · cases h
        exact writes_goto rfl rfl hb (by simp) ⟨by simp [hu], hst.trans hrun⟩
      · cases h
        exact writes_goto rfl rfl hb (by simp) ⟨by simp [hu], fun hr => hrun (hst.symm.trans hr)⟩
  case h_3 =>
    split_ifs at h
    all_goals
      cases h
      exact writes_goto rfl rfl hb (by simp) trivial
  case h_4 pending _ _ _ =>
    split_ifs at h
    all_goals
      cases h
      exact writes_goto rfl rfl hb (Pc.round_ne _) (Pc.round_knows _)
  case h_5 dest caller =>
    cases h
    obtain ⟨p, u, hp⟩ := pick_eq σ t pol dest caller
    rw [hp]
    exact writes_goto rfl rfl hb (by simp) trivial
  case h_6 => cases h

theorem step_writes (hR : Replayed σ₀ σ) (hσ : Locked σ) (hs : σ.step t pol inp = .ok τ)
    (hin : (σ.pc t).inCs) : Writes σ₀ σ τ t := by
  have hk := hR.knows t
  have hreplay {u : ThdId} (hu : (σ.thds u).isSome) (hpc : σ.pc t ≠ .wakeSet u) :=
    hR.state_of_inCs hσ hin hu hpc
  unfold step at hs
  split at hs
  case h_6 hpc => exact enterBody_writes hpc hs
  case h_7 hpc =>
    rw [hpc] at hk
    cases hs
    refine .write t .runnable .block rfl rfl (fun ht => ?_) (by simp [hpc]) (by simp)
      (by simp; trivial)
    rw [← hreplay ht (by simp [hpc]), hk]
    rfl
  case h_8 hpc =>
    rw [hpc] at hk
    cases hs
    refine .write t .blocked .block rfl rfl (fun ht => ?_) (by simp [hpc]) (by simp)
      (by simp; trivial)
    rw [← hreplay ht (by simp [hpc]), hk]
    rfl
  case h_10 u hpc =>
    rw [hpc] at hk
    cases hs
    refine .write u .woken .wakeup rfl rfl (fun hu => ?_) (by simp [hpc]) (by simp)
      (by simp; trivial)
    rw [← hreplay hu (by simp [hpc]), hk.2]
    rfl
  case h_11 u hpc =>
    cases hs
    exact .assert u hpc rfl rfl (by simp)
  case h_12 u hpc =>
    rw [hpc] at hk
    cases hs
    refine .write u .runnable .wakeup rfl rfl (fun hu => ?_) (by simp [hpc, eq_comm]) (by simp)
      (by simp; trivial)
    cases hr : replay (σ₀.stateOf u) (σ.changes u) with
    | runnable => exact absurd hr hk.2
    | blocked | woken => rfl
  case h_9 hpc | h_13 hpc | h_14 hpc | h_17 hpc =>
    cases hs
    exact writes_goto rfl rfl (by simp [hpc]) (by simp) trivial
  case h_15 dest caller hpc =>
    obtain ⟨p, u, hp⟩ := pick_eq σ t pol dest caller
    split_ifs at hs
    · cases hs
      rw [hp]
      exact writes_goto rfl rfl (by simp [hpc]) (by simp) trivial
    · cases hs
      exact writes_goto rfl rfl (by simp [hpc]) (by simp) trivial
  case h_18 hpc =>
    split_ifs at hs
    · cases hs
      exact writes_goto rfl rfl (by simp [hpc]) (by simp) trivial
    · cases hs
      exact writes_goto rfl rfl (by simp [hpc]) (by simp) trivial
  case h_19 x hpc =>
    split at hs
    · cases hs
      cases x
      · exact writes_goto rfl rfl (by simp [hpc]) (by simp) trivial
      · exact writes_goto rfl rfl (by simp [hpc]) (by simp) trivial
    · cases hs
      exact writes_goto rfl rfl (by simp [hpc]) (by simp) trivial
  case h_20 hpc =>
    split at hs
    · cases hs
      exact writes_goto rfl rfl (by simp [hpc]) (by simp) trivial
    · cases hs
      exact writes_goto rfl rfl (by simp [hpc]) (by simp) trivial
  case h_24 => cases hs
  all_goals
    simp only [*] at hin
    cases hin

end State

theorem stateOf_congr (h : τ.thds = σ.thds) : τ.stateOf = σ.stateOf := by
  funext u
  rw [State.stateOf, State.stateOf, h]

theorem Pc.Knows.congr {pc : Pc} (h : pc.Knows σ₀ σ t) (hthds : τ.thds = σ.thds)
    (hchanges : τ.changes = σ.changes) : pc.Knows σ₀ τ t := by
  cases pc <;> simp only [Pc.Knows, stateOf_congr hthds, hthds, hchanges] at h ⊢ <;> exact h

/-- A step outside of the critical section changes nothing that is recorded or known. -/
theorem Replayed.step_outside (hR : Replayed σ₀ σ) (hσ : Locked σ)
    (hs : σ.step t pol inp = .ok τ) (hout : (σ.pc t).inCs = false) : Replayed σ₀ τ := by
  have hsh : Shared σ τ t := State.step_shared hs
  obtain ⟨hthds, -, -, hchanges⟩ := hσ.protected hs hout
  constructor
  · intro u hu hpc
    rw [hthds] at hu
    rw [stateOf_congr hthds, hchanges]
    refine hR.state u hu fun v hv => ?_
    by_cases hvt : v = t
    · rw [← hvt, hv] at hout
      cases hout
    · exact hpc v ((hsh.pc v hvt).trans hv)
  · intro u
    by_cases hut : u = t
    · subst hut
      cases State.step_moves hσ (hσ.isSome_of_step hs) hs with
      | stay _ hin => exact Pc.knows_of_outside (hin.trans hout)
      | acquire _ _ _ b hpc =>
        rw [hpc]
        trivial
      | contend _ _ _ _ b hpc =>
        rw [hpc]
        trivial
      | release _ _ _ hout' => exact Pc.knows_of_outside hout'
      | handOver _ _ _ hpc =>
        rw [hpc]
        trivial
    · rw [hsh.pc u hut]
      exact (hR.knows u).congr hthds hchanges

/-- A step in the critical section keeps the record right. -/
theorem Replayed.step_inside (hR : Replayed σ₀ σ) (hσ : Locked σ)
    (hs : σ.step t pol inp = .ok τ) (hin : (σ.pc t).inCs) : Replayed σ₀ τ := by
  have hsh : Shared σ τ t := State.step_shared hs
  have hw : Writes σ₀ σ τ t := State.step_writes hR hσ hs hin
  -- the others are outside, and know nothing
  have hother {u : ThdId} (hu : u ≠ t) : (σ.pc u).inCs = false := by
    by_contra hne
    exact hu (hσ.eq_of_inCs (by simpa using hne) hin)
  have hbefore {u : ThdId} (ht : σ.pc t ≠ .wakeSet u) (v : ThdId) : σ.pc v ≠ .wakeSet u := by
    by_cases hvt : v = t
    · rwa [hvt]
    · intro hv
      have hv' := hother hvt
      rw [hv] at hv'
      cases hv'
  constructor
  · intro u hu hpc
    rw [hsh.isSome] at hu
    cases hw with
    | same hthds hchanges hb =>
      rw [stateOf_congr hthds, hchanges]
      exact hR.state u hu (hbefore (hb u))
    | write w s c hthds hchanges hresult hb =>
      rw [stateOf_congr hthds, hchanges]
      by_cases huw : u = w
      · subst huw
        rw [State.setState_stateOf hu, hresult hu]
        simp
      · rw [State.setState_stateOf_ne huw]
        simpa [huw] using hR.state u hu (hbefore (hb u huw))
    | assert w hb hthds hchanges hafter =>
      by_cases huw : u = w
      · exact absurd (huw ▸ hafter) (hpc t)
      · rw [stateOf_congr hthds, hchanges, State.setState_stateOf_ne huw]
        exact hR.state u hu (hbefore (by simp [hb]))
  · intro u
    by_cases hut : u = t
    · subst hut
      cases hw with
      | same _ _ _ _ hk => exact hk
      | write _ _ _ _ _ _ _ _ hk => exact hk
      | assert w hb hthds hchanges hafter =>
        have hk := hR.knows u
        rw [hb] at hk
        rw [hafter]
        refine ⟨by rw [hsh.isSome]; exact hk.1, ?_⟩
        rw [hchanges, ← hR.state_of_inCs hσ hin hk.1 (by simp [hb])]
        exact hk.2
    · rw [hsh.pc u hut]
      exact Pc.knows_of_outside (hother hut)

theorem Replayed.step (hR : Replayed σ₀ σ) (hσ : Locked σ) (hs : σ.step t pol inp = .ok τ) :
    Replayed σ₀ τ := by
  cases hin : (σ.pc t).inCs with
  | true => exact hR.step_inside hσ hs hin
  | false => exact hR.step_outside hσ hs hin

theorem Start.replayed (h : Start σ₀) (hc : ∀ t, σ₀.changes t = []) : Replayed σ₀ σ₀ := by
  constructor
  · intro u _ _
    rw [hc]
    rfl
  · intro t
    rw [h.pc]
    trivial

theorem replayed_run (h : Start σ₀) (hc : ∀ t, σ₀.changes t = [])
    (hr : Transition.Run (Step pol) σ₀ tr σ) : Replayed σ₀ σ := by
  have hinv : Locked σ ∧ Replayed σ₀ σ :=
    hr.invariant (I := fun s => Locked s ∧ Replayed σ₀ s) ⟨h.locked, h.replayed hc⟩
      fun _ _ _ hs hstep => ⟨hs.1.step hstep, hs.2.step hs.1 hstep⟩
  exact hinv.2

/-- In every state but between the two writes of a wake-up, the state of a thread is what the
calls on it give, made one after another in the order of the record. -/
theorem calls_atomic (h : Start σ₀) (hc : ∀ t, σ₀.changes t = [])
    (hr : Transition.Run (Step pol) σ₀ tr σ) (hu : (σ.thds u).isSome)
    (hpc : ∀ t, σ.pc t ≠ .wakeSet u) :
    σ.stateOf u = replay (σ₀.stateOf u) (σ.changes u) :=
  (replayed_run h hc hr).state u hu hpc

def wokenTwice : List Label :=
  ⟨2, .call (.wakeup 1)⟩ :: List.replicate 6 ⟨2, .none⟩ ++
    (⟨2, .call (.wakeup 1)⟩ :: List.replicate 10 ⟨2, .none⟩) ++
    [⟨2, .switched true⟩, ⟨1, .call .block⟩, ⟨1, .none⟩, ⟨1, .none⟩]

theorem calls_atomic_wokenTwice :
    (ran (wokenTwice.take 19)).stateOf 1 = replay .runnable [.wakeup, .wakeup] := by
  have hu : ((ran (wokenTwice.take 19)).thds 1).isSome := by decide +kernel
  have hchanges : (ran (wokenTwice.take 19)).changes 1 = [.wakeup, .wakeup] := by decide +kernel
  have hpc : ∀ t, (ran (wokenTwice.take 19)).pc t ≠ .wakeSet 1 := by
    intro t ht
    have hfree : (ran (wokenTwice.take 19)).lock.owner = 0 := by decide +kernel
    exact (locked_run start_twoThreads (run_ran _)).owner_ne_zero (by rw [ht]; rfl) hfree
  rw [← hchanges]
  exact calls_atomic start_twoThreads (fun _ => rfl) (run_ran _) hu hpc

theorem replay_wakeups (n : ℕ) :
    replay .runnable (List.replicate n .wakeup) = if Even n then .runnable else .woken := by
  induction n with
  | zero => rfl
  | succ n ih =>
    rw [List.replicate_succ', replay_snoc, ih]
    by_cases hn : Even n
    · simp [hn, Nat.even_add_one, Change.apply]
    · simp [hn, Nat.even_add_one, Change.apply]

theorem replay_append (s : SlState) (l l' : List Change) :
    replay s (l ++ l') = replay (replay s l) l' := by
  simp [replay]

/-- The state of a thread woken `n` times since it called `sl_thd_block`. -/
theorem replay_block_wakeups (l : List Change) (n : ℕ)
    (hl : l = [] ∨ ∃ l', l = l' ++ [.block])
    (h : replay .runnable (l ++ List.replicate n .wakeup) ≠ .blocked) :
    replay .runnable (l ++ List.replicate n .wakeup) = .runnable ↔
      Even (n + if replay .runnable l = .blocked then 1 else 0) := by
  have hlast : replay .runnable l = .runnable ∨ replay .runnable l = .blocked := by
    obtain rfl | ⟨l', rfl⟩ := hl
    · exact .inl rfl
    · rw [replay_snoc]
      cases replay .runnable l' <;> simp [Change.apply]
  rw [replay_append] at h ⊢
  obtain hr | hr := hlast
  · rw [hr, replay_wakeups]
    by_cases hn : Even n <;> simp [hn]
  · rw [hr] at h ⊢
    cases n with
    | zero => exact absurd rfl h
    | succ n =>
      have hfirst : replay .blocked (List.replicate (n + 1) .wakeup) =
          replay .runnable (List.replicate n .wakeup) := rfl
      rw [hfirst, replay_wakeups]
      by_cases hn : Even n <;> simp [hn, Nat.even_add_one]

/-- Whether `sl_thd_block` sleeps is a matter of parity: among the wake-ups since the last call,
the one that ended its sleep included, each second one undoes the one before. -/
theorem block_sleeps_iff (h : Start σ₀) (hc : ∀ t, σ₀.changes t = [])
    (hr : Transition.Run (Step pol) σ₀ tr σ) (h0 : σ₀.stateOf t = .runnable)
    (hpc : σ.pc t = .body .block) {l : List Change} {n : ℕ}
    (hch : σ.changes t = l ++ List.replicate n .wakeup) (hl : l = [] ∨ ∃ l', l = l' ++ [.block])
    (hs : σ.step t pol .none = .ok τ) :
    τ.pc t = .blockSet ↔ Even (n + if replay .runnable l = .blocked then 1 else 0) := by
  have hσ : Locked σ := locked_run h hr
  have hst : σ.stateOf t = replay .runnable (l ++ List.replicate n .wakeup) := by
    rw [← h0, ← hch]
    exact (replayed_run h hc hr).state_of_inCs hσ (by rw [hpc]; rfl)
      (hσ.exists_ t (by simp [hpc])) (by simp [hpc])
  simp only [State.step, hpc, State.enterBody] at hs
  split at hs
  case h_1 hw =>
    cases hs
    rw [← replay_block_wakeups l n hl (by simp [← hst, hw]), ← hst, hw]
    simp
  case h_2 hw =>
    cases hs
    rw [← replay_block_wakeups l n hl (by simp [← hst, hw]), ← hst, hw]
    simp
  case h_3 => cases hs

theorem block_sleeps_iff_wokenTwice :
    ∃ τ, (ran wokenTwice).step 1 idlePolicy .none = .ok τ ∧ τ.pc 1 = .blockSet :=
  ⟨_, rfl, (block_sleeps_iff start_twoThreads (fun _ => rfl) (run_ran wokenTwice) rfl
    (by decide +kernel) (l := []) (n := 2) (by decide +kernel) (.inl rfl) rfl).mpr (by decide)⟩

/-- The library calls `sl_thd_block` in one step. This is the call made in one step here. -/
theorem slThdBlock_ok_iff {σ τ : Lwt.State} :
    σ.slThdBlock = .ok τ ↔ σ.kthd.slState ≠ .blocked ∧
      τ = σ.modKthd σ.currentKthd fun kt =>
        { kt with slState := Change.apply kt.slState .block } := by
  have hk : (σ.kthds σ.currentKthd).slState = σ.kthd.slState := rfl
  unfold State.slThdBlock
  cases h : σ.kthd.slState <;> simp [State.modKthd, h, hk, Change.apply, eq_comm]

/-- And so with `sl_thd_wakeup`. -/
theorem slThdWakeup_eq (σ : Lwt.State) (k : KthdId) :
    σ.slThdWakeup k =
      σ.modKthd k fun kt => { kt with slState := Change.apply kt.slState .wakeup } := by
  have happly (s : SlState) :
      (if s = .runnable then .woken else .runnable) = Change.apply s .wakeup := by
    cases s <;> rfl
  simp only [State.slThdWakeup, happly]

end

end Lwt.Sl
