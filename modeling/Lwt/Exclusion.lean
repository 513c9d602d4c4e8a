import Lwt.Critical

/-! Mutual exclusion of the critical section of `sl`, for any number of threads and any order of
their steps: the lock names the thread inside, nobody else touches what it protects, a thread that
wants to leave is not held up, and one that contends is not forgotten. -/

namespace Lwt.Sl

/-- A thread is in the critical section: it has made the swap of `sl_cs_enter`, and not yet that
of `sl_cs_exit`. -/
def Pc.inCs : Pc → Bool
  | .user | .enter _ | .enterCas _ _ | .contend _ _ | .contendSwitch _ _ => false
  | .reschedule | .exitSwitch _ | .switch _ _ => false
  | _ => true

/-- What a thread knows of the lock that it has read. -/
def Pc.Noted (lock : CsIntern) (cap : ℕ) : Pc → Prop
  | .enterCas cached _ => cached = .free
  | .contend cached _ => cached.owner ≠ 0 ∧ cached.owner.toNat ≠ cap
  | .exitCas cached _ => cached = ⟨BitVec.ofNat 31 cap, false⟩
  | .exitContend cached _ => cached = lock ∧ lock.contention = true
  | _ => True

theorem inCs_round (pending : Bool) : (Pc.round pending).inCs := by
  cases pending <;> rfl

theorem noted_round (pending : Bool) (w : CsIntern) (c : ℕ) : (Pc.round pending).Noted w c := by
  cases pending <;> trivial

section

variable {P : Type} {pol : Policy P} {σ τ : State P} {t u : ThdId} {inp : Input} {b : Body}

/-- Every thread has a capability of its own, that is not `0` and fits into the lock. -/
structure Capped (σ : State P) : Prop where
  pos : ∀ t, (σ.thds t).isSome → 0 < σ.cap t
  fits : ∀ t, (σ.thds t).isSome → σ.cap t < 2 ^ 31
  own : ∀ t u, (σ.thds t).isSome → (σ.thds u).isSome → σ.cap t = σ.cap u → t = u

/-- The lock says who is in the critical section. -/
structure Locked (σ : State P) : Prop where
  capped : Capped σ
  exists_ : ∀ t, σ.pc t ≠ .user → (σ.thds t).isSome
  owner : ∀ t, (σ.pc t).inCs → σ.lock.owner = BitVec.ofNat 31 (σ.cap t)
  held : σ.lock.owner ≠ 0 → ∃ t, (σ.pc t).inCs
  contention : σ.lock.contention = true → σ.lock.owner ≠ 0
  noted : ∀ t, (σ.pc t).Noted σ.lock (σ.cap t)

inductive Moves (σ τ : State P) (t : ThdId) : Prop
  | stay (lock : τ.lock = σ.lock) (inCs : (τ.pc t).inCs = (σ.pc t).inCs)
      (noted : (τ.pc t).Noted σ.lock (σ.cap t))
  | acquire (free : σ.lock = .free) (lock : τ.lock = ⟨BitVec.ofNat 31 (σ.cap t), false⟩)
      (outside : (σ.pc t).inCs = false) (b : Body) (pc : τ.pc t = .body b)
  | contend (owner : σ.lock.owner ≠ 0) (contention : σ.lock.contention = false)
      (lock : τ.lock = ⟨σ.lock.owner, true⟩) (outside : (σ.pc t).inCs = false) (b : Body)
      (pc : τ.pc t = .contendSwitch σ.lock.owner b)
  | release (x : Exit) (pc : σ.pc t = .exitCas σ.lock x) (lock : τ.lock = .free)
      (outside : (τ.pc t).inCs = false) (noted : (τ.pc t).Noted τ.lock (σ.cap t))
  | handOver (x : Exit) (pc : σ.pc t = .exitContend σ.lock x) (lock : τ.lock = .free)
      (after : τ.pc t = .exitSwitch x)

/-- The part of a step that all steps share. -/
structure Shared (σ τ : State P) (t : ThdId) : Prop where
  pc : ∀ u, u ≠ t → τ.pc u = σ.pc u
  thds : ∀ u, (τ.thds u).map Thd.thdcap = (σ.thds u).map Thd.thdcap

namespace State

theorem pick_eq (σ : State P) (t : ThdId) (pol : Policy P) (dest : Option ThdId)
    (caller : Caller) :
    ∃ p u, σ.pick t pol dest caller = { σ with policy := p }.goto t (.dispatch u caller) := by
  unfold pick
  split
  · split_ifs
    · exact ⟨σ.policy, _, rfl⟩
    · exact ⟨_, _, rfl⟩
  · exact ⟨_, _, rfl⟩

theorem enterBody_ok (h : σ.enterBody t pol b inp = .ok τ) :
    ∃ p pc, τ = { σ with policy := p }.goto t pc ∧ pc.inCs ∧ ∀ w c, pc.Noted w c := by
  unfold enterBody at h
  split at h
  · split at h
    · cases h
      exact ⟨σ.policy, _, rfl, rfl, fun _ _ => trivial⟩
    · cases h
      exact ⟨σ.policy, _, rfl, rfl, fun _ _ => trivial⟩
    · cases h
  · split at h
    · cases h
      exact ⟨σ.policy, _, rfl, rfl, fun _ _ => trivial⟩
    · split_ifs at h
      · cases h
        exact ⟨σ.policy, _, rfl, rfl, fun _ _ => trivial⟩
      · cases h
        exact ⟨σ.policy, _, rfl, rfl, fun _ _ => trivial⟩
  · split_ifs at h
    · cases h
      exact ⟨σ.policy, _, rfl, rfl, fun _ _ => trivial⟩
    · cases h
      exact ⟨σ.policy, _, rfl, rfl, fun _ _ => trivial⟩
  · split_ifs at h
    all_goals
      cases h
      exact ⟨_, _, rfl, inCs_round _, noted_round _⟩
  · cases h
    obtain ⟨p, u, hp⟩ := pick_eq σ t pol _ _
    exact ⟨p, _, hp, rfl, fun _ _ => trivial⟩
  · cases h

@[simp] theorem setState_cap (s : SlState) : (σ.setState u s).cap = σ.cap := by
  funext x
  by_cases hx : x = u
  · subst hx
    cases h : σ.thds x <;> simp [cap, h]
  · simp [cap, hx]

theorem setState_thdcap (s : SlState) (x : ThdId) :
    ((σ.setState u s).thds x).map Thd.thdcap = (σ.thds x).map Thd.thdcap := by
  by_cases hx : x = u
  · subst hx
    cases h : σ.thds x <;> simp [h]
  · simp [hx]

/-- A step to `pc` that leaves the lock alone. -/
theorem moves_goto {σ' : State P} {pc : Pc} (hlock : σ'.lock = σ.lock)
    (hin : pc.inCs = (σ.pc t).inCs) (hn : pc.Noted σ.lock (σ.cap t)) :
    Moves σ (σ'.goto t pc) t :=
  .stay (by simpa using hlock) (by simpa using hin) (by simpa using hn)

theorem leave_outside (x : Exit) : ((σ.leave t x).pc t).inCs = false := by
  cases x <;> simp [leave, Pc.inCs]

theorem leave_noted (x : Exit) (w : CsIntern) (c : ℕ) : ((σ.leave t x).pc t).Noted w c := by
  cases x <;> simp [leave, Pc.Noted]

@[simp] theorem leave_lock (x : Exit) : (σ.leave t x).lock = σ.lock := by
  cases x <;> rfl

end State

theorem Locked.exists_of_inCs (hσ : Locked σ) (hin : (σ.pc t).inCs) : (σ.thds t).isSome := by
  refine hσ.exists_ t fun hpc => ?_
  rw [hpc] at hin
  cases hin

/-- The owner in the lock, as a number, is the capability of the thread inside. -/
theorem Locked.owner_toNat (hσ : Locked σ) (hin : (σ.pc t).inCs) :
    σ.lock.owner.toNat = σ.cap t := by
  have hfits : σ.cap t < 2 ^ 31 := hσ.capped.fits t (hσ.exists_of_inCs hin)
  rw [hσ.owner t hin, BitVec.toNat_ofNat, Nat.mod_eq_of_lt hfits]

/-- The owner in the lock is a thread in the critical section. -/
theorem Locked.inCs_of_owner (hσ : Locked σ) (ht : (σ.thds t).isSome) (ho : σ.csOwner t) :
    (σ.pc t).inCs := by
  have hpos : 0 < σ.cap t := hσ.capped.pos t ht
  have hne : σ.lock.owner ≠ 0 := by
    intro h0
    rw [State.csOwner, h0] at ho
    simp at ho
    omega
  obtain ⟨u, hu⟩ := hσ.held hne
  have hcap : σ.cap t = σ.cap u := ho.symm.trans (hσ.owner_toNat hu)
  rwa [hσ.capped.own t u ht (hσ.exists_of_inCs hu) hcap]

theorem Locked.owner_ne_zero (hσ : Locked σ) (hin : (σ.pc t).inCs) : σ.lock.owner ≠ 0 := by
  intro h0
  have hpos : 0 < σ.cap t := hσ.capped.pos t (hσ.exists_of_inCs hin)
  rw [← hσ.owner_toNat hin, h0] at hpos
  simp at hpos

theorem Locked.eq_free (hσ : Locked σ) (ho : σ.lock.owner = 0) : σ.lock = .free := by
  have hc : σ.lock.contention = false := by
    by_contra hc
    exact hσ.contention (by simpa using hc) ho
  cases hl : σ.lock
  simp_all [CsIntern.free]

namespace State

section Steps

variable (hσ : Locked σ) (ht : (σ.thds t).isSome) (hs : σ.step t pol inp = .ok τ)

include hs

theorem moves_user (hpc : σ.pc t = .user) : Moves σ τ t := by
  unfold step at hs
  rw [hpc] at hs
  cases inp with
  | call b =>
    dsimp only at hs
    split_ifs at hs
    split at hs
    · cases hs
    · cases hs
      exact moves_goto rfl (by rw [hpc]; rfl) trivial
  | _ => cases hs

include hσ

include ht in
/-- A thread that enters and finds no owner has found the lock free, and is not the owner that it
finds. -/
theorem moves_enter (hpc : σ.pc t = .enter b) : Moves σ τ t := by
  unfold step at hs
  rw [hpc] at hs
  cases inp with
  | none =>
    dsimp only at hs
    split_ifs at hs with ho
    · cases hs
      refine moves_goto rfl (by rw [hpc]; rfl) ⟨ho, fun hcap => ?_⟩
      have hin := hσ.inCs_of_owner ht hcap
      rw [hpc] at hin
      cases hin
    · cases hs
      exact moves_goto rfl (by rw [hpc]; rfl) (hσ.eq_free (by simpa using ho))
  | _ => cases hs

theorem moves_enterCas {cached : CsIntern} (hpc : σ.pc t = .enterCas cached b) :
    Moves σ τ t := by
  have hnoted : cached = .free := by
    have hn := hσ.noted t
    rwa [hpc] at hn
  unfold step at hs
  rw [hpc] at hs
  cases inp with
  | none =>
    dsimp only at hs
    split at hs
    case h_1 w hw =>
      obtain ⟨hl, rfl⟩ := psCas_eq_some.mp hw
      cases hs
      refine .acquire (hl.trans hnoted) ?_ (by rw [hpc]; rfl) b (by simp)
      rw [hnoted]
      rfl
    case h_2 =>
      cases hs
      exact moves_goto rfl (by rw [hpc]; rfl) trivial
  | _ => cases hs

theorem moves_contend {cached : CsIntern} (hpc : σ.pc t = .contend cached b) :
    Moves σ τ t := by
  have hnoted : cached.owner ≠ 0 := by
    have hn := hσ.noted t
    rw [hpc] at hn
    exact hn.1
  unfold step at hs
  rw [hpc] at hs
  cases inp with
  | none =>
    dsimp only at hs
    split_ifs at hs with hown hcont
    · cases hs
      exact moves_goto rfl (by rw [hpc]; rfl) trivial
    · split at hs
      case h_1 w hw =>
        obtain ⟨rfl, rfl⟩ := psCas_eq_some.mp hw
        cases hs
        exact .contend hnoted (by simpa using hcont) rfl (by rw [hpc]; rfl) b (by simp)
      case h_2 =>
        cases hs
        exact moves_goto rfl (by rw [hpc]; rfl) trivial
  | _ => cases hs

/-- The thread inside is the owner that `sl_cs_exit_schedule_nospin_arg` looks for. -/
theorem moves_schedule {dest : Option ThdId} {caller : Caller}
    (hpc : σ.pc t = .schedule dest caller) : Moves σ τ t := by
  unfold step at hs
  rw [hpc] at hs
  cases inp with
  | none =>
    dsimp only at hs
    split_ifs at hs with ho
    · cases hs
      obtain ⟨p, u, hp⟩ := pick_eq σ t pol dest caller
      rw [hp]
      exact moves_goto rfl (by rw [hpc]; rfl) trivial
    · exact absurd (hσ.owner_toNat (by rw [hpc]; rfl)) ho
  | _ => cases hs

include ht in
/-- A thread outside is not. -/
theorem moves_reschedule (hpc : σ.pc t = .reschedule) : Moves σ τ t := by
  unfold step at hs
  rw [hpc] at hs
  cases inp with
  | none =>
    dsimp only at hs
    split_ifs at hs with ho
    · have hin := hσ.inCs_of_owner ht ho
      rw [hpc] at hin
      cases hin
    · cases hs
      exact moves_goto rfl (by rw [hpc]; rfl) trivial
  | _ => cases hs

theorem moves_exit {x : Exit} (hpc : σ.pc t = .exit x) : Moves σ τ t := by
  have howner : σ.lock.owner = BitVec.ofNat 31 (σ.cap t) := hσ.owner t (by rw [hpc]; rfl)
  unfold step at hs
  rw [hpc] at hs
  cases inp with
  | none =>
    dsimp only at hs
    split_ifs at hs with hc
    · cases hs
      exact moves_goto rfl (by rw [hpc]; rfl) ⟨rfl, hc⟩
    · cases hs
      refine moves_goto rfl (by rw [hpc]; rfl) ?_
      have hc : σ.lock.contention = false := by simpa using hc
      rw [Pc.Noted, ← howner, ← hc]
  | _ => cases hs

omit hσ

theorem moves_exitCas {cached : CsIntern} {x : Exit} (hpc : σ.pc t = .exitCas cached x) :
    Moves σ τ t := by
  unfold step at hs
  rw [hpc] at hs
  cases inp with
  | none =>
    dsimp only at hs
    split at hs
    case h_1 w hw =>
      obtain ⟨rfl, rfl⟩ := psCas_eq_some.mp hw
      cases hs
      exact .release x hpc (by simp) (leave_outside x) (leave_noted x _ _)
    case h_2 =>
      cases hs
      exact moves_goto rfl (by rw [hpc]; rfl) trivial
  | _ => cases hs

theorem moves_exitContend {cached : CsIntern} {x : Exit} (hpc : σ.pc t = .exitContend cached x) :
    Moves σ τ t := by
  unfold step at hs
  rw [hpc] at hs
  cases inp with
  | none =>
    dsimp only at hs
    split at hs
    case h_1 w hw =>
      obtain ⟨rfl, rfl⟩ := psCas_eq_some.mp hw
      cases hs
      exact .handOver x hpc rfl (by simp)
    case h_2 =>
      cases hs
      exact moves_goto rfl (by rw [hpc]; rfl) trivial
  | _ => cases hs

theorem moves_exitSwitch {x : Exit} (hpc : σ.pc t = .exitSwitch x) : Moves σ τ t := by
  unfold step at hs
  rw [hpc] at hs
  cases inp with
  | switched ok =>
    cases hs
    exact .stay (leave_lock x) ((leave_outside x).trans (by rw [hpc]; rfl)) (leave_noted x _ _)
  | _ => cases hs

theorem moves_switch {target : ThdId} {caller : Caller} (hpc : σ.pc t = .switch target caller) :
    Moves σ τ t := by
  unfold step at hs
  rw [hpc] at hs
  cases inp with
  | switched ok =>
    cases caller with
    | loop =>
      cases hs
      exact moves_goto rfl (by rw [hpc]; rfl) trivial
    | spin =>
      cases hs
      cases ok
      · exact moves_goto rfl (by rw [hpc]; rfl) trivial
      · exact moves_goto rfl (by rw [hpc]; rfl) trivial
  | _ => cases caller <;> cases hs

include hσ ht

theorem step_moves : Moves σ τ t := by
  cases hpc : σ.pc t with
  | user => exact moves_user hs hpc
  | enter b => exact moves_enter hσ ht hs hpc
  | enterCas cached b => exact moves_enterCas hσ hs hpc
  | contend cached b => exact moves_contend hσ hs hpc
  | body b =>
    unfold step at hs
    rw [hpc] at hs
    obtain ⟨p, pc, rfl, hin, hn⟩ := enterBody_ok hs
    exact moves_goto rfl (by rw [hpc, hin]; rfl) (hn _ _)
  | schedule dest caller => exact moves_schedule hσ hs hpc
  | reschedule => exact moves_reschedule hσ ht hs hpc
  | exit x => exact moves_exit hσ hs hpc
  | exitCas cached x => exact moves_exitCas hs hpc
  | exitContend cached x => exact moves_exitContend hs hpc
  | exitSwitch x => exact moves_exitSwitch hs hpc
  | switch target caller => exact moves_switch hs hpc
  -- a write of the state of a thread, a call of the policy, or a switch to the owner
  | _ =>
    unfold step at hs
    rw [hpc] at hs
    cases inp <;> cases hs
    exact moves_goto rfl (by rw [hpc]; rfl) trivial

end Steps

/-- A step does not make up threads, change their capabilities or move another thread. -/
theorem step_shared (hs : σ.step t pol inp = .ok τ) : Shared σ τ t := by
  have hgoto {σ' : State P} {pc : Pc} (hpc : σ'.pc = σ.pc)
      (hthds : ∀ u, (σ'.thds u).map Thd.thdcap = (σ.thds u).map Thd.thdcap) :
      Shared σ (σ'.goto t pc) t :=
    ⟨fun u hu => by simp [hu, hpc], hthds⟩
  have hleave (σ' : State P) (x : Exit) (hpc : σ'.pc = σ.pc) (hthds : σ'.thds = σ.thds) :
      Shared σ (σ'.leave t x) t := by
    cases x
    · exact hgoto hpc fun u => by rw [hthds]
    · exact hgoto hpc fun u => by rw [hthds]
  have hpick (dest : Option ThdId) (caller : Caller) : Shared σ (σ.pick t pol dest caller) t := by
    obtain ⟨p, u, hp⟩ := pick_eq σ t pol dest caller
    rw [hp]
    exact hgoto rfl fun _ => rfl
  unfold step at hs
  split at hs
  case h_6 =>
    obtain ⟨p, pc, rfl, -⟩ := enterBody_ok hs
    exact hgoto rfl fun _ => rfl
  case h_7 | h_8 | h_10 | h_11 | h_12 =>
    cases hs
    exact hgoto rfl fun u => setState_thdcap _ u
  case h_24 => cases hs
  -- the rest leaves every thread structure as it is
  all_goals
    repeat' split at hs
    all_goals
      cases hs
      all_goals
        first
        | exact hgoto rfl fun _ => rfl
        | exact hleave _ _ rfl rfl
        | exact hpick _ _

end State

theorem Shared.isSome (h : Shared σ τ t) (u : ThdId) : (τ.thds u).isSome = (σ.thds u).isSome := by
  have hu := congrArg Option.isSome (h.thds u)
  rwa [Option.isSome_map, Option.isSome_map] at hu

theorem Shared.cap (h : Shared σ τ t) (u : ThdId) : τ.cap u = σ.cap u := by
  rw [State.cap, State.cap, h.thds]

theorem Capped.step (hσ : Capped σ) (h : Shared σ τ t) : Capped τ := by
  constructor
  · intro u hu
    rw [h.isSome] at hu
    rw [h.cap]
    exact hσ.pos u hu
  · intro u hu
    rw [h.isSome] at hu
    rw [h.cap]
    exact hσ.fits u hu
  · intro u v hu hv huv
    rw [h.isSome] at hu hv
    rw [h.cap, h.cap] at huv
    exact hσ.own u v hu hv huv

/-- Two threads in the critical section are one. -/
theorem Locked.eq_of_inCs (hσ : Locked σ) (ht : (σ.pc t).inCs) (hu : (σ.pc u).inCs) : t = u := by
  have hcap : σ.cap t = σ.cap u := (hσ.owner_toNat ht).symm.trans (hσ.owner_toNat hu)
  exact hσ.capped.own t u (hσ.exists_of_inCs ht) (hσ.exists_of_inCs hu) hcap

/-- What another thread has noted of the lock still holds when `t` changes it. -/
theorem Locked.noted_of_ne (hσ : Locked σ) (hu : u ≠ t) (hm : Moves σ τ t) :
    (σ.pc u).Noted τ.lock (σ.cap u) := by
  have hn := hσ.noted u
  cases hpc : σ.pc u with
  | exitContend cached x =>
    rw [hpc] at hn
    have hin : (σ.pc u).inCs := by
      rw [hpc]
      rfl
    cases hm with
    | stay hl => rwa [hl]
    | acquire hfree => exact absurd (by rw [hfree]; rfl) (hσ.owner_ne_zero hin)
    | contend _ hc => exact absurd (hn.2.symm.trans hc) (by simp)
    | release x ht => exact absurd (hσ.eq_of_inCs hin (by rw [ht]; rfl)) hu
    | handOver x ht => exact absurd (hσ.eq_of_inCs hin (by rw [ht]; rfl)) hu
  | _ =>
    rw [hpc] at hn
    exact hn

/-- A thread that makes a step is there. -/
theorem Locked.isSome_of_step (hσ : Locked σ) (hs : σ.step t pol inp = .ok τ) :
    (σ.thds t).isSome := by
  by_cases hpc : σ.pc t = .user
  · unfold State.step at hs
    rw [hpc] at hs
    cases inp with
    | call b =>
      dsimp only at hs
      split_ifs at hs with ht
      exact ht
    | none | switched ok | notified p tid b c => cases hs
  · exact hσ.exists_ t hpc

namespace Locked

section Step

variable (hσ : Locked σ) (hsh : Shared σ τ t) (hm : Moves σ τ t)

include hσ hm

omit hσ in
/-- The thread of a step is the owner behind it if it is inside there. -/
theorem owner_self (hown : (σ.pc t).inCs → σ.lock.owner = BitVec.ofNat 31 (σ.cap t))
    (hin : (τ.pc t).inCs) : τ.lock.owner = BitVec.ofNat 31 (σ.cap t) := by
  cases hm with
  | stay hl hin' =>
    rw [hl]
    exact hown (hin' ▸ hin)
  | acquire _ hl => rw [hl]
  | contend _ _ _ _ b hpc =>
    rw [hpc] at hin
    cases hin
  | release _ _ _ hout => exact absurd hin (by simp [hout])
  | handOver x _ _ hpc =>
    rw [hpc] at hin
    cases hin

/-- Another thread inside stays the owner. -/
theorem owner_other (hut : u ≠ t) (hin : (σ.pc u).inCs) :
    τ.lock.owner = BitVec.ofNat 31 (σ.cap u) := by
  cases hm with
  | stay hl =>
    rw [hl]
    exact hσ.owner u hin
  | acquire hfree => exact absurd (by rw [hfree]; rfl) (hσ.owner_ne_zero hin)
  | contend _ _ hl =>
    rw [hl]
    exact hσ.owner u hin
  | release x ht => exact absurd (hσ.eq_of_inCs hin (by rw [ht]; rfl)) hut
  | handOver x ht => exact absurd (hσ.eq_of_inCs hin (by rw [ht]; rfl)) hut

include hsh in
theorem held_step (ho : τ.lock.owner ≠ 0) : ∃ u, (τ.pc u).inCs := by
  cases hm with
  | stay hl hin =>
    rw [hl] at ho
    obtain ⟨u, hu⟩ := hσ.held ho
    refine ⟨u, ?_⟩
    by_cases hut : u = t
    · rw [hut] at hu ⊢
      exact hin.trans hu
    · rwa [hsh.pc u hut]
  | acquire _ _ _ b hpc => exact ⟨t, by rw [hpc]; rfl⟩
  | contend hne _ _ hout =>
    obtain ⟨u, hu⟩ := hσ.held hne
    refine ⟨u, ?_⟩
    rwa [hsh.pc u fun hut => by simp [hut, hout] at hu]
  | release _ _ hl | handOver _ _ hl =>
    rw [hl] at ho
    exact absurd rfl ho

theorem contention_step (hc : τ.lock.contention = true) : τ.lock.owner ≠ 0 := by
  cases hm with
  | stay hl =>
    rw [hl] at hc ⊢
    exact hσ.contention hc
  | acquire _ hl =>
    rw [hl] at hc
    cases hc
  | contend hne _ hl =>
    rw [hl]
    exact hne
  | release _ _ hl | handOver _ _ hl =>
    rw [hl] at hc
    cases hc

omit hσ in
/-- What the thread of a step knows of the lock behind it. -/
theorem noted_self : (τ.pc t).Noted τ.lock (σ.cap t) := by
  cases hm with
  | stay hl _ hn => rwa [hl]
  | acquire _ _ _ b hpc =>
    rw [hpc]
    trivial
  | contend _ _ _ _ b hpc =>
    rw [hpc]
    trivial
  | release _ _ _ _ hn => exact hn
  | handOver x _ _ hpc =>
    rw [hpc]
    trivial

end Step

theorem step (hσ : Locked σ) (hs : σ.step t pol inp = .ok τ) : Locked τ := by
  have ht : (σ.thds t).isSome := hσ.isSome_of_step hs
  have hsh : Shared σ τ t := State.step_shared hs
  have hm : Moves σ τ t := State.step_moves hσ ht hs
  refine ⟨hσ.capped.step hsh, fun u hu => ?_, fun u hu => ?_, hσ.held_step hsh hm,
    hσ.contention_step hm, fun u => ?_⟩
  · rw [hsh.isSome]
    by_cases hut : u = t
    · rwa [hut]
    · rw [hsh.pc u hut] at hu
      exact hσ.exists_ u hu
  · rw [hsh.cap]
    by_cases hut : u = t
    · subst hut
      exact owner_self hm (hσ.owner u) hu
    · rw [hsh.pc u hut] at hu
      exact hσ.owner_other hm hut hu
  · rw [hsh.cap]
    by_cases hut : u = t
    · subst hut
      exact noted_self hm
    · rw [hsh.pc u hut]
      exact hσ.noted_of_ne hut hm

end Locked

/-- `sl_init` has returned: no thread is in a function of `sl`, and the lock is free. -/
structure Start (σ : State P) : Prop where
  capped : Capped σ
  lock : σ.lock = .free
  pc : ∀ t, σ.pc t = .user

theorem Start.locked (h : Start σ) : Locked σ := by
  constructor
  · exact h.capped
  · exact fun t ht => absurd (h.pc t) ht
  · intro t ht
    rw [h.pc] at ht
    cases ht
  · rw [h.lock]
    exact fun h0 => absurd rfl h0
  · rw [h.lock]
    simp [CsIntern.free]
  · intro t
    rw [h.pc]
    trivial

variable {σ₀ : State P} {tr : List (State P × Label)}

theorem locked_run (h : Start σ₀) (hr : Transition.Run (Step pol) σ₀ tr σ) : Locked σ :=
  hr.invariant h.locked fun _ _ _ hσ hs => hσ.step hs

/-- No run makes up threads or changes their capabilities. -/
theorem cap_run (hr : Transition.Run (Step pol) σ₀ tr σ) (u : ThdId) :
    σ.cap u = σ₀.cap u ∧ (σ.thds u).isSome = (σ₀.thds u).isSome := by
  refine hr.invariant (I := fun s => s.cap u = σ₀.cap u ∧ (s.thds u).isSome = (σ₀.thds u).isSome)
    ⟨rfl, rfl⟩ fun s l s' hs hstep => ?_
  have hsh := State.step_shared hstep
  exact ⟨(hsh.cap u).trans hs.1, (hsh.isSome u).trans hs.2⟩

/-- What `sl` shares between threads, apart from the lock, is the same. -/
structure Protected (σ τ : State P) : Prop where
  thds : τ.thds = σ.thds
  policy : τ.policy = σ.policy
  currentKthd : τ.currentKthd = σ.currentKthd
  changes : τ.changes = σ.changes

theorem State.leave_protected (x : Exit) : Protected σ (σ.leave t x) := by
  cases x <;> exact ⟨rfl, rfl, rfl, rfl⟩

/-- A thread outside of the critical section writes to nothing but the lock. -/
theorem Locked.protected (hσ : Locked σ) (hs : σ.step t pol inp = .ok τ)
    (hout : (σ.pc t).inCs = false) : Protected σ τ := by
  have ht : (σ.thds t).isSome := hσ.isSome_of_step hs
  unfold State.step at hs
  split at hs
  case h_16 hpc =>
    split_ifs at hs with ho
    · have hin := hσ.inCs_of_owner ht ho
      rw [hpc] at hin
      cases hin
    · cases hs
      exact ⟨rfl, rfl, rfl, rfl⟩
  case h_21 x _ hpc =>
    cases hs
    exact State.leave_protected x
  case h_1 | h_2 | h_3 | h_4 | h_5 | h_22 | h_23 =>
    repeat' split at hs
    all_goals
      cases hs
      all_goals exact ⟨rfl, rfl, rfl, rfl⟩
  case h_24 => cases hs
  all_goals
    have hpc : (σ.pc t).inCs := by
      simp only [*]
      rfl
    exact absurd hpc (by simp [hout])

/-- At most one thread is in the critical section, the lock names it, nobody else touches what
the lock protects, and a thread that finds the lock taken never finds itself. -/
theorem mutual_exclusion (h : Start σ₀) (hr : Transition.Run (Step pol) σ₀ tr σ) :
    (∀ t u, (σ.pc t).inCs → (σ.pc u).inCs → t = u) ∧
    (∀ t, (σ.thds t).isSome → ((σ.pc t).inCs ↔ σ.csOwner t)) ∧
    (∀ l τ, Step pol σ l τ → ¬ (σ.pc l.thd).inCs → Protected σ τ) ∧
    ∀ t cached b, σ.pc t = .contend cached b → cached.owner.toNat ≠ σ.cap t := by
  have hσ : Locked σ := locked_run h hr
  refine ⟨fun t u => hσ.eq_of_inCs, fun t ht => ⟨hσ.owner_toNat, hσ.inCs_of_owner ht⟩, ?_, ?_⟩
  · exact fun l τ hs hout => hσ.protected hs (by simpa using hout)
  · intro t cached b hpc
    have hn := hσ.noted t
    rw [hpc] at hn
    exact hn.2

def idlePolicy : Policy Unit := ⟨fun _ _ => (), fun _ _ => (), fun _ _ => (), fun _ _ _ => (),
  fun _ => ((), none)⟩

def twoThreads : State Unit where
  lock := .free
  thds t := if t = 1 ∨ t = 2 then some ⟨t, .runnable⟩ else none
  idle := 2
  policy := ()
  currentKthd := 1
  pc _ := .user
  changes _ := []

theorem start_twoThreads : Start twoThreads := by
  have hsome (t : ThdId) : (twoThreads.thds t).isSome ↔ t = 1 ∨ t = 2 := by
    simp [twoThreads]
  have hcap (t : ThdId) (ht : (twoThreads.thds t).isSome) : twoThreads.cap t = t := by
    rw [hsome] at ht
    simp [State.cap, twoThreads, ht]
  refine ⟨⟨fun t ht => ?_, fun t ht => ?_, fun t u ht hu htu => ?_⟩, rfl, fun _ => rfl⟩
  · rw [hcap t ht]
    obtain rfl | rfl := (hsome t).mp ht <;> decide
  · rw [hcap t ht]
    obtain rfl | rfl := (hsome t).mp ht <;> decide
  · rwa [hcap t ht, hcap u hu] at htu

def ran (ls : List Label) : State Unit :=
  Transition.exec (fun σ l => σ.step l.thd idlePolicy l.inp) twoThreads ls

def ranTrace (ls : List Label) : List (State Unit × Label) :=
  Transition.execTrace (fun σ l => σ.step l.thd idlePolicy l.inp) twoThreads ls

theorem run_ran (ls : List Label) :
    Transition.Run (Step idlePolicy) twoThreads (ranTrace ls) (ran ls) :=
  Transition.run_exec _ _ _

def contended : List Label :=
  [⟨1, .call .block⟩, ⟨1, .none⟩, ⟨1, .none⟩, ⟨2, .call (.wakeup 1)⟩, ⟨2, .none⟩, ⟨2, .none⟩,
    ⟨1, .none⟩, ⟨1, .none⟩, ⟨1, .none⟩, ⟨1, .none⟩, ⟨1, .none⟩, ⟨1, .none⟩, ⟨1, .none⟩,
    ⟨1, .switched true⟩, ⟨1, .switched true⟩]

theorem mutual_exclusion_contended :
    ((ran (contended.take 6)).pc 1).inCs ∧ ¬ ((ran (contended.take 6)).pc 2).inCs := by
  have hin : ((ran (contended.take 6)).pc 1).inCs := by decide +kernel
  exact ⟨hin, fun h2 => absurd ((mutual_exclusion start_twoThreads (run_ran _)).1 1 2 hin h2)
    (by decide)⟩

/-- A contended lock changes when its owner hands the processor to the scheduler, and only then. -/
theorem Locked.contended (hσ : Locked σ) (hs : σ.step t pol inp = .ok τ)
    (hc : σ.lock.contention = true) (hne : τ.lock ≠ σ.lock) :
    ∃ x, σ.pc t = .exitContend σ.lock x ∧ τ.lock = .free ∧ τ.pc t = .exitSwitch x := by
  cases State.step_moves hσ (hσ.isSome_of_step hs) hs with
  | stay hl => exact absurd hl hne
  | acquire hfree =>
    rw [hfree] at hc
    cases hc
  | contend _ hc' => exact absurd (hc.symm.trans hc') (by simp)
  | release x hpc =>
    have hn := hσ.noted t
    rw [hpc] at hn
    exact absurd (hc.symm.trans (congrArg CsIntern.contention hn)) (by simp)
  | handOver x hpc hl hafter => exact ⟨x, hpc, hl, hafter⟩

/-- Contention is not forgotten. Once somebody has set the bit, the lock keeps its value until the
owner leaves by the switch to the scheduler thread. -/
theorem contention_kept (h : Start σ₀) (hr : Transition.Run (Step pol) σ₀ tr σ) {i j : ℕ}
    (hij : i ≤ j) {υ φ : State P} (hi : (Transition.visited tr σ)[i]? = some υ)
    (hj : (Transition.visited tr σ)[j]? = some φ) (hin : (υ.pc t).inCs)
    (hc : υ.lock.contention = true) (hne : φ.lock ≠ υ.lock) :
    ∃ m p ψ x, i ≤ m ∧ m < j ∧ tr[m]? = some p ∧ (Transition.visited tr σ)[m + 1]? = some ψ ∧
      p.2.thd = t ∧ p.1.lock = υ.lock ∧ p.1.pc t = .exitContend υ.lock x ∧ ψ.lock = .free ∧
      ψ.pc t = .exitSwitch x := by
  obtain ⟨m, p, ψ, him, hmj, hp, hψ, hl, hl'⟩ :=
    Transition.exists_lost (P := fun s => s.lock = υ.lock) hij
      (fun s hs => by rw [Option.some.inj (hs.symm.trans hi)]) hj hne
  have hυ : Locked υ := locked_run h (hr.take_visited hi)
  have hp1 : Locked p.1 := locked_run h (hr.take hp)
  have hstep : p.1.step p.2.thd pol p.2.inp = .ok ψ := hr.step_visited hp hψ
  obtain ⟨x, hpc, hfree, hafter⟩ := hp1.contended hstep (hl ▸ hc) (by rwa [hl])
  have hthd : p.2.thd = t := by
    have hpin : (p.1.pc p.2.thd).inCs := by
      rw [hpc]
      rfl
    have ht : (p.1.thds t).isSome := by
      rw [(cap_run (hr.take hp) t).2, ← (cap_run (hr.take_visited hi) t).2]
      exact hυ.exists_of_inCs hin
    have hcap : p.1.cap p.2.thd = p.1.cap t := by
      rw [← hp1.owner_toNat hpin, hl, hυ.owner_toNat hin, (cap_run (hr.take hp) t).1,
        (cap_run (hr.take_visited hi) t).1]
    exact hp1.capped.own _ _ (hp1.exists_of_inCs hpin) ht hcap
  rw [hthd] at hpc hafter
  exact ⟨m, p, ψ, x, him, hmj, hp, hψ, hthd, hl, hl ▸ hpc, hfree, hafter⟩

theorem contention_kept_contended :
    ∃ m p ψ x, 6 ≤ m ∧ m < 13 ∧ (ranTrace contended)[m]? = some p ∧
      (Transition.visited (ranTrace contended) (ran contended))[m + 1]? = some ψ ∧
      p.2.thd = 1 ∧ p.1.lock = ⟨1, true⟩ ∧ p.1.pc 1 = .exitContend ⟨1, true⟩ x ∧
      ψ.lock = .free ∧ ψ.pc 1 = .exitSwitch x :=
  contention_kept start_twoThreads (run_ran contended) (by decide)
    (Transition.visited_exec _ (by decide +kernel)) (Transition.visited_exec _ (by decide +kernel))
    (by decide +kernel) (by decide +kernel) (by decide +kernel)

/-- How many steps of its own a thread in `sl_cs_exit` needs at most until it has left. -/
def Pc.toGo (contended : Bool) : Pc → ℕ
  | .exit _ => if contended then 2 else 4
  | .exitCas _ _ => 3
  | .exitContend _ _ => 1
  | _ => 0

/-- A thread in `sl_cs_exit` gets nearer to its end with each of its steps. -/
theorem Locked.toGo_self (hσ : Locked σ) (hs : σ.step t pol inp = .ok τ)
    (hpos : 0 < (σ.pc t).toGo σ.lock.contention) (hin : (τ.pc t).inCs) :
    0 < (τ.pc t).toGo τ.lock.contention ∧
      (τ.pc t).toGo τ.lock.contention < (σ.pc t).toGo σ.lock.contention := by
  have hn := hσ.noted t
  unfold State.step at hs
  split at hs
  case h_18 x hpc =>
    rw [hpc]
    split_ifs at hs with hc
    · cases hs
      simp [Pc.toGo, hc]
    · cases hs
      simp [Pc.toGo, hc]
  case h_19 cached x hpc =>
    rw [hpc] at hn ⊢
    split at hs
    · cases hs
      exact absurd hin (by simp [State.leave_outside])
    case h_2 hcas =>
      cases hs
      -- somebody else has set the bit since the lock was read
      have hne : σ.lock ≠ cached := psCas_eq_none.mp hcas
      have howner : σ.lock.owner = BitVec.ofNat 31 (σ.cap t) := hσ.owner t (by rw [hpc]; rfl)
      have hc : σ.lock.contention = true := by
        by_contra hc
        refine hne ?_
        rw [hn, ← howner]
        cases hl : σ.lock
        simp_all
      simp [Pc.toGo, hc]
  case h_20 cached x hpc =>
    rw [hpc] at hn
    split at hs
    · cases hs
      simp [Pc.inCs] at hin
    case h_2 hcas => exact absurd hn.1.symm (psCas_eq_none.mp hcas)
  case h_24 => cases hs
  all_goals
    simp only [*] at hpos
    exact absurd hpos (by simp [Pc.toGo])

theorem Pc.toGo_pos {pc : Pc} {c c' : Bool} (h : 0 < pc.toGo c) : 0 < pc.toGo c' := by
  cases pc with
  | exit x => cases c' <;> simp [toGo]
  | _ => exact h

/-- A step of another thread does not put it off. -/
theorem Locked.toGo_other (hσ : Locked σ) (hs : σ.step u pol inp = .ok τ) (hut : t ≠ u)
    (hin : (σ.pc t).inCs) :
    (τ.pc t).toGo τ.lock.contention ≤ (σ.pc t).toGo σ.lock.contention := by
  rw [(State.step_shared hs).pc t hut]
  have hc : σ.lock.contention = true → τ.lock.contention = true := by
    intro hc
    cases State.step_moves hσ (hσ.isSome_of_step hs) hs with
    | stay hl => rwa [hl]
    | acquire hfree => exact absurd (by rw [hfree]; rfl) (hσ.owner_ne_zero hin)
    | contend _ _ hl => rw [hl]
    | release x hpc | handOver x hpc => exact absurd (hσ.eq_of_inCs hin (by rw [hpc]; rfl)) hut
  cases σ.pc t with
  | exit x =>
    simp only [Pc.toGo]
    split_ifs <;> simp_all
  | _ => exact le_rfl

/-- A thread that has come to `sl_cs_exit` has left the critical section after at most four more
steps of its own, whatever the others do in between. -/
theorem exit_bounded (h : Start σ₀) (hr : Transition.Run (Step pol) σ₀ tr σ) {i j : ℕ}
    (hij : i ≤ j) (hj : j ≤ tr.length) {υ : State P} {x : Exit}
    (hi : (Transition.visited tr σ)[i]? = some υ) (hpc : υ.pc t = .exit x)
    (hcount : 4 ≤ ((tr.take j).drop i).countP fun p => p.2.thd = t) :
    ∃ m φ, i < m ∧ m ≤ j ∧ (Transition.visited tr σ)[m]? = some φ ∧ ¬ (φ.pc t).inCs := by
  by_contra hstay
  push Not at hstay
  -- by then the steps made and those to go are four at most
  have hsum : ∀ k, i ≤ k → k ≤ j → ∀ φ, (Transition.visited tr σ)[k]? = some φ →
      (φ.pc t).inCs ∧ 0 < (φ.pc t).toGo φ.lock.contention ∧
        (φ.pc t).toGo φ.lock.contention +
          ((tr.take k).drop i).countP (fun p => p.2.thd = t) ≤ 4 := by
    intro k hik
    induction k, hik using Nat.le_induction with
    | base =>
      intro _ φ hφ
      obtain rfl := Option.some.inj (hφ.symm.trans hi)
      rw [hpc]
      refine ⟨rfl, ?_, ?_⟩
      · simp only [Pc.toGo]
        split_ifs <;> decide
      · rw [List.drop_eq_nil_of_le (by simp)]
        simp only [Pc.toGo, List.countP_nil, Nat.add_zero]
        split_ifs <;> decide
    | succ k hik ih =>
      intro hkj φ hφ
      have hlt : k < tr.length := by omega
      have hp : tr[k]? = some tr[k] := List.getElem?_eq_getElem hlt
      obtain ⟨hin, hpos, hle⟩ := ih (by omega) _ (Transition.visited_of_getElem? hp)
      have hk : Locked tr[k].1 := locked_run h (hr.take hp)
      have hstep : tr[k].1.step tr[k].2.thd pol tr[k].2.inp = .ok φ := hr.step_visited hp hφ
      have hout : (φ.pc t).inCs := hstay (k + 1) φ (by omega) hkj hφ
      have htake : (tr.take (k + 1)).drop i = (tr.take k).drop i ++ [tr[k]] := by
        rw [List.take_add_one, hp, List.drop_append_of_le_length]
        · rfl
        · rw [List.length_take]
          omega
      rw [htake, List.countP_append, List.countP_singleton]
      by_cases ht : tr[k].2.thd = t
      · rw [ht] at hstep
        obtain ⟨hpos', hlt'⟩ := hk.toGo_self hstep hpos hout
        refine ⟨hout, hpos', ?_⟩
        simp only [ht, decide_true, if_true]
        omega
      · have hle' := hk.toGo_other hstep (Ne.symm ht) hin
        refine ⟨hout, ?_, ?_⟩
        · rw [(State.step_shared hstep).pc t (Ne.symm ht)]
          exact Pc.toGo_pos hpos
        · simp only [ht, decide_false, Bool.false_eq_true, if_false]
          omega
  obtain ⟨φ, hφ⟩ : ∃ φ, (Transition.visited tr σ)[j]? = some φ := by
    refine ⟨_, List.getElem?_eq_getElem ?_⟩
    simp [Transition.visited]
    omega
  obtain ⟨-, hpos, hle⟩ := hsum j hij le_rfl φ hφ
  omega

theorem exit_bounded_contended :
    ∃ m φ, 11 < m ∧ m ≤ 15 ∧
      (Transition.visited (ranTrace contended) (ran contended))[m]? = some φ ∧
      ¬ (φ.pc 1).inCs :=
  exit_bounded start_twoThreads (run_ran contended) (by decide) (by decide +kernel)
    (Transition.visited_exec _ (by decide +kernel)) (x := .switch 2 .spin) (by decide +kernel)
    (by decide +kernel)

end

end Lwt.Sl
