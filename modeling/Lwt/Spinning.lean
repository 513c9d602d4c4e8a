import Lwt.Publishing

/-! How long the calls of `lwt_sync_snd` and `lwt_sync_rcv` take. A kernel thread spins only while
another one is in the section that it wants, and that one can go on; apart from the failed tries
each call takes a bounded number of steps. -/

namespace Lwt.Access

/-- Kernel thread `t` is at a lock that is taken. -/
def Spins (s : State) (t : KthdId) : Bool :=
  match s.pc t with
  | .rbLock _ => s.rbOccupied ≠ 0
  | .wqLock _ => s.wqOccupied ≠ 0
  | _ => false

/-- How many steps that are not failed tries a call needs at most. -/
def Pc.toGo : Pc → ℕ
  | .user => 0
  | .rbLock _ => 12
  | .rb _ .load => 11
  | .rb _ (.write _) => 10
  | .rb _ (.writeTail _) | .rb _ (.writeSlot _) => 9
  | .rb _ .unlock => 8
  | .wqLock _ => 7
  | .wq _ .wrap => 6
  | .wq _ (.linkPrev _) => 5
  | .wq _ (.linkNext _) => 4
  | .wq _ (.linkBefore _) => 3
  | .wq _ (.linkAfter _) => 2
  | .wq _ .unlock => 1
  | .rcv _ .tail => 5
  | .rcv _ (.head _) => 4
  | .rcv _ .take => 3
  | .rcv _ (.read _) => 2
  | .rcv _ (.readHead _ _) | .rcv _ (.readSlot _) => 1

/-- Thread `t` makes a step that is neither a call nor a failed try. -/
def moves (t : KthdId) (p : State × Label) : Bool :=
  p.2.kthd = t && p.2.inp = .none && !Spins p.1 t

def sends (t : KthdId) (p : State × Label) : Bool :=
  p.2.kthd = t && match p.2.inp with | .snd _ => true | _ => false

def receives (t : KthdId) (p : State × Label) : Bool :=
  p.2.kthd = t && match p.2.inp with | .rcv _ => true | _ => false

section

variable {cf : Conf} {s s' s₀ : State} {b : RingBuffer Data} {t u : KthdId} {a : Send}
  {cur : ThreadId} {l : Label} {tr : List (State × Label)}

theorem rbStep_toGo {q : RbPc} (hpc : s.pc t = .rb a q) (hs : s.rbStep t cf a q = .ok s') :
    (s'.pc t).toGo + 1 = (s.pc t).toGo := by
  cases q with
  | load | writeTail | unlock =>
    obtain rfl := Except.ok.inj hs
    simp [hpc, Pc.toGo]
  | write tail =>
    simp only [State.rbStep] at hs
    split at hs
    · obtain ⟨s₁, hst, hs⟩ := bind_ok hs
      obtain rfl := Except.ok.inj hs
      simp [hpc, Pc.toGo]
    · obtain rfl := Except.ok.inj hs
      simp [hpc, Pc.toGo]
  | writeSlot tail =>
    obtain ⟨s₁, hst, hs⟩ := bind_ok hs
    obtain rfl := Except.ok.inj hs
    simp [hpc, Pc.toGo]

theorem wqStep_toGo (cf : Conf) {q : WqPc} (hpc : s.pc t = .wq a q) :
    ((s.wqStep t cf a q).pc t).toGo + 1 = (s.pc t).toGo := by
  cases q <;> simp [hpc, State.wqStep, Pc.toGo]

theorem rcvStep_toGo {q : RcvPc} (hpc : s.pc t = .rcv cur q)
    (hs : s.rcvStep t cf cur q = .ok s') : (s'.pc t).toGo + 1 ≤ (s.pc t).toGo := by
  cases q with
  | tail | take | readHead =>
    obtain rfl := Except.ok.inj hs
    simp [hpc, Pc.toGo]
  | head tail =>
    simp only [State.rcvStep] at hs
    split_ifs at hs
    · obtain rfl := Except.ok.inj hs
      simp [hpc, Pc.toGo]
    · obtain rfl := Except.ok.inj hs
      simp [hpc, Pc.toGo]
  | read head =>
    simp only [State.rcvStep] at hs
    split at hs
    · obtain ⟨result, hld, hs⟩ := bind_ok hs
      obtain rfl := Except.ok.inj hs
      simp [hpc, Pc.toGo]
    · obtain rfl := Except.ok.inj hs
      simp [hpc, Pc.toGo]
  | readSlot head =>
    obtain ⟨result, -, hs⟩ := bind_ok hs
    obtain rfl := Except.ok.inj hs
    simp [hpc, Pc.toGo]

/-- A step of thread `t` is paid for by its call, a failed try costs nothing. -/
theorem toGo_self (hs : Step cf s l s') :
    (s'.pc l.kthd).toGo + (if moves l.kthd (s, l) then 1 else 0) ≤
      (s.pc l.kthd).toGo + 12 * (if sends l.kthd (s, l) then 1 else 0) +
        5 * (if receives l.kthd (s, l) then 1 else 0) := by
  unfold Step State.step at hs
  split at hs
  · rename_i hpc hinp
    obtain rfl := Except.ok.inj hs
    simp [moves, sends, receives, hpc, hinp, Pc.toGo]
  · rename_i hpc hinp
    split_ifs at hs
    obtain rfl := Except.ok.inj hs
    simp [moves, sends, receives, hpc, hinp, Pc.toGo]
  · rename_i hpc hinp
    split at hs
    · obtain rfl := Except.ok.inj hs
      simp [moves, sends, receives, hpc, hinp, Pc.toGo]
      split_ifs <;> omega
    · rename_i hw
      obtain rfl := Except.ok.inj hs
      have hspin : Spins s l.kthd = true := by
        simp [Spins, hpc, SpinLock.tryLock_eq_none.mp hw]
      simp [moves, sends, receives, hpc, hinp, hspin]
  · rename_i hpc hinp
    have := rbStep_toGo hpc hs
    simp [sends, receives, hinp]
    split_ifs <;> omega
  · rename_i hpc hinp
    split at hs
    · obtain rfl := Except.ok.inj hs
      simp [moves, sends, receives, hpc, hinp, Pc.toGo]
      split_ifs <;> omega
    · rename_i hw
      obtain rfl := Except.ok.inj hs
      have hspin : Spins s l.kthd = true := by
        simp [Spins, hpc, SpinLock.tryLock_eq_none.mp hw]
      simp [moves, sends, receives, hpc, hinp, hspin]
  · rename_i hpc hinp
    obtain rfl := Except.ok.inj hs
    have := wqStep_toGo cf hpc
    simp [sends, receives, hinp]
    split_ifs <;> omega
  · rename_i hpc hinp
    have := rcvStep_toGo hpc hs
    simp [sends, receives, hinp]
    split_ifs <;> omega
  · cases hs

/-- Apart from failed tries a thread takes at most 12 steps a send and 5 a round of a receive. -/
theorem moves_le (h : Transition.Run (Step cf) s₀ tr s) (hb : s₀.Boot) (t : KthdId) :
    tr.countP (moves t) + (s.pc t).toGo ≤
      12 * tr.countP (sends t) + 5 * tr.countP (receives t) := by
  induction h with
  | nil => simp [hb.user, Pc.toGo]
  | @snoc tr s s' l _ hs ih =>
    simp only [List.countP_append, List.countP_singleton]
    by_cases ht : l.kthd = t
    · subst ht
      have := toGo_self hs
      omega
    · rw [(step_goes hs).pc_of_ne (Ne.symm ht)]
      simp [moves, sends, receives, ht]
      omega

theorem Effect.cap {b' : RingBuffer Data} (h : Effect cf s s' t b b') : b'.cap = b.cap := by
  cases h with
  | quiet hb | wake _ _ hb | late _ _ _ _ hb => rw [hb]
  | put a tail _ hb => rw [hb, RingBuffer.push_cap]
  | take _ _ _ _ hb | advance _ hb => rw [hb, RingBuffer.pop_cap]

theorem Locked.run_cap (h : Transition.Run (Step cf) s₀ tr s) (hb : s₀.Boot)
    (hfew : ∀ p ∈ tr, Few p.1 p.2) : ∃ b, Locked cf s b ∧ s.buffer.cap = s₀.buffer.cap := by
  refine h.invariant_of (I := fun s => ∃ b, Locked cf s b ∧ s.buffer.cap = s₀.buffer.cap)
    (C := Few) hfew ⟨_, hb.locked, rfl⟩ ?_
  rintro s l s' ⟨b, hl, hcap⟩ hfew hs
  obtain ⟨b', hl', heff⟩ := hl.step hs hfew
  refine ⟨b', hl', ?_⟩
  rw [hl'.counters.2.2, heff.cap, ← hl.counters.2.2, hcap]

section Moving

variable (h : Locked cf s b) (hpos : 1 ≤ cf.size) (hcap : cf.size ≤ s.buffer.cap)

include hpos hcap

theorem fits {i : ℤ} (h0 : 0 ≤ i) : cf.size ≠ 0 ∧ s.buffer.Fits cf.size i := by
  rw [RingBuffer.Fits, RingBuffer.slot, Int.tmod_eq_emod_of_nonneg h0]
  have hlt := Int.emod_lt_of_pos i (show 0 < cf.size by omega)
  have hge := Int.emod_nonneg i (show cf.size ≠ 0 by omega)
  exact ⟨by omega, hge, by omega⟩

theorem storeSlot_exists {i : ℤ} (h0 : 0 ≤ i) (d : Data) :
    ∃ s', s.storeSlot cf.size i d = .ok s' := by
  obtain ⟨hne, hfits⟩ := fits hpos hcap h0
  exact ⟨_, by rw [State.storeSlot, if_neg hne, if_pos hfits]⟩

theorem loadSlot_exists {i : ℤ} (h0 : 0 ≤ i) : ∃ d, s.loadSlot cf.size i = .ok d := by
  obtain ⟨hne, hfits⟩ := fits hpos hcap h0
  exact ⟨_, by rw [State.loadSlot, if_neg hne, if_pos hfits]⟩

include h

theorem rbStep_exists {q : RbPc} (hpc : s.pc t = .rb a q) : ∃ s', s.rbStep t cf a q = .ok s' := by
  have hmid := h.rb.mid t (a, q) (by rw [hpc]; rfl)
  cases q with
  | load | writeTail | unlock => exact ⟨_, rfl⟩
  | write tail =>
    cases hcode : cf.code.snd with
    | slot =>
      have h0 : 0 ≤ tail := by
        rw [hmid.2]
        exact h.tail_nonneg
      obtain ⟨s', hs'⟩ := storeSlot_exists hpos hcap h0 a.data
      refine ⟨s'.goto t (.rb a (.writeTail tail)), ?_⟩
      simp only [State.rbStep, hcode, hs', bind, Except.bind]
    | counter =>
      simp only [State.rbStep, hcode]
      exact ⟨_, rfl⟩
  | writeSlot tail =>
    obtain ⟨s', hs'⟩ := storeSlot_exists hpos hcap hmid.1 a.data
    refine ⟨s'.goto t (.rb a .unlock), ?_⟩
    simp only [State.rbStep, hs', bind, Except.bind]

theorem rcvStep_exists {q : RcvPc} (hpc : s.pc t = .rcv cur q) :
    ∃ s', s.rcvStep t cf cur q = .ok s' := by
  have hnoted := h.noted_rcv hpc
  cases q with
  | tail | take | readHead => exact ⟨_, rfl⟩
  | head tail =>
    simp only [State.rcvStep]
    split_ifs
    · exact ⟨_, rfl⟩
    · exact ⟨_, rfl⟩
  | read head =>
    cases hcode : cf.code.rcv with
    | slot =>
      have h0 : 0 ≤ head := hnoted.1 ▸ h.head_nonneg
      obtain ⟨d, hd⟩ := loadSlot_exists hpos hcap h0
      refine ⟨s.goto t (.rcv cur (.readHead head d)), ?_⟩
      simp only [State.rcvStep, hcode, hd, bind, Except.bind]
    | counter =>
      simp only [State.rcvStep, hcode]
      exact ⟨_, rfl⟩
  | readSlot head =>
    obtain ⟨d, hd⟩ := loadSlot_exists hpos hcap (show 0 ≤ head from hnoted)
    refine ⟨(s.log (.take cur d)).goto t .user, ?_⟩
    simp only [State.rcvStep, hd, bind, Except.bind]

/-- A thread in a call whose lock is not taken can go on. -/
theorem step_exists (hne : s.pc t ≠ .user) (hspin : Spins s t = false) :
    ∃ s', Step cf s ⟨t, .none⟩ s' := by
  unfold Step State.step
  cases hpc : s.pc t with
  | user => exact absurd hpc hne
  | rbLock a =>
    have h0 : s.rbOccupied = 0 := by simpa [Spins, hpc] using hspin
    simp only [h0, SpinLock.tryLock, if_true]
    exact ⟨_, rfl⟩
  | rb a q => exact rbStep_exists h hpos hcap hpc
  | wqLock a =>
    have h0 : s.wqOccupied = 0 := by simpa [Spins, hpc] using hspin
    simp only [h0, SpinLock.tryLock, if_true]
    exact ⟨_, rfl⟩
  | wq a q => exact ⟨_, rfl⟩
  | rcv cur q => exact rcvStep_exists h hpos hcap hpc

end Moving

/-- A thread that spins does so because of another one, which is in the section. -/
theorem Locked.spins (h : Locked cf s b) (hspin : Spins s t = true) :
    ∃ u, u ≠ t ∧ ((s.pc u).inRb.isSome ∨ (s.pc u).inWq.isSome) := by
  unfold Spins at hspin
  split at hspin
  · rename_i a hpc
    have hw : SpinLock.tryLock s.rbOccupied = none :=
      SpinLock.tryLock_eq_none.mpr (by simpa using hspin)
    obtain ⟨u, hu⟩ := h.rb.tryLock_eq_none_iff.mp hw
    refine ⟨u, ?_, .inl hu⟩
    rintro rfl
    simp [hpc, Pc.inRb] at hu
  · rename_i a hpc
    have hw : SpinLock.tryLock s.wqOccupied = none :=
      SpinLock.tryLock_eq_none.mpr (by simpa using hspin)
    obtain ⟨u, hu⟩ := h.wq.tryLock_eq_none_iff.mp hw
    refine ⟨u, ?_, .inr hu⟩
    rintro rfl
    simp [hpc, Pc.inWq] at hu
  · cases hspin

theorem not_spins (hin : (s.pc u).inRb.isSome ∨ (s.pc u).inWq.isSome) :
    s.pc u ≠ .user ∧ Spins s u = false := by
  unfold Spins
  cases hpc : s.pc u with
  | rb a q | wq a q => exact ⟨by simp, rfl⟩
  | _ => simp [hpc, Pc.inRb, Pc.inWq] at hin

/-- No deadlock, and no call without end but for failed tries: whenever a thread is in a call, it
can go on, or it spins and a thread in the section that it waits for can. -/
theorem calls_progress (h : Transition.Run (Step cf) s₀ tr s) (hb : s₀.Boot)
    (hfew : ∀ p ∈ tr, Few p.1 p.2) (hpos : 1 ≤ cf.size) (hcap : cf.size ≤ s₀.buffer.cap)
    (t : KthdId) :
    tr.countP (moves t) + (s.pc t).toGo ≤ 12 * tr.countP (sends t) + 5 * tr.countP (receives t) ∧
      (s.pc t ≠ .user → ∃ u s', Step cf s ⟨u, .none⟩ s' ∧ Spins s u = false ∧
        (u ≠ t → Spins s t = true ∧ ((s.pc u).inRb.isSome ∨ (s.pc u).inWq.isSome))) := by
  refine ⟨moves_le h hb t, fun hne => ?_⟩
  obtain ⟨b, hl, hbuf⟩ := Locked.run_cap h hb hfew
  rw [← hbuf] at hcap
  by_cases hspin : Spins s t = true
  · obtain ⟨u, -, hin⟩ := hl.spins hspin
    obtain ⟨hne', hspin'⟩ := not_spins hin
    obtain ⟨s', hs'⟩ := step_exists hl hpos hcap hne' hspin'
    exact ⟨u, s', hs', hspin', fun _ => ⟨hspin, hin⟩⟩
  · obtain ⟨s', hs'⟩ := step_exists hl hpos hcap hne (by simpa using hspin)
    exact ⟨t, s', hs', by simpa using hspin, fun hu => absurd rfl hu⟩

/-- Thread 2 waits for thread 1 in the first steps of the crossing sends. -/
theorem calls_progress_crossing :
    let cf := toSeven 2 ⟨.slot, .slot⟩
    ∃ u s', Step cf (ran cf (crossing.take 6)) ⟨u, .none⟩ s' ∧
      Spins (ran cf (crossing.take 6)) u = false ∧
        (u ≠ 2 → Spins (ran cf (crossing.take 6)) 2 = true ∧
          (((ran cf (crossing.take 6)).pc u).inRb.isSome ∨
            ((ran cf (crossing.take 6)).pc u).inWq.isSome)) :=
  (calls_progress (run_ran _ _) (boot_fresh 2) (by decide +kernel) (by decide) (by decide) 2).2
    (by decide +kernel)

end

end Lwt.Access
