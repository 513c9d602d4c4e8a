import Lwt.Directed

/-! Round robin. Every thread that yields goes to the end of the run queue of the kernel thread that
owns it, so that the threads of a run queue get the processor in turn as long as each of them is
owned by the kernel thread whose queue it is on. -/

namespace Lwt

variable {σ τ σ₀ : State} {k : KthdId} {cur t : ThreadId} {q l : List ThreadId} {n m : ℕ}
  {owner : ThreadId → KthdId}

namespace State

/-- `lwt_yield(NULL)`, called by the running thread wherever it is. -/
def yieldNull (σ : State) : Result State :=
  match σ.lwtCurrent with
  | none => .error .notReady
  | some cur => σ.exec cur (.call (.lwtYield none)) (σ.threads cur).context

/-- Successive calls, each made by the thread that runs then, and the threads dispatched. -/
def yields : ℕ → State → Result (State × List ThreadId)
  | 0, σ => .ok (σ, [])
  | n + 1, σ => do
    let τ ← σ.yieldNull
    let (τ', ts) ← yields n τ
    .ok (τ', τ.lwtCurrent.toList ++ ts)

theorem yields_succ {τ' : State} {ts : List ThreadId} (hτ : σ.yieldNull = .ok τ)
    (hys : yields n τ = .ok (τ', ts)) :
    yields (n + 1) σ = .ok (τ', τ.lwtCurrent.toList ++ ts) := by
  show (σ.yieldNull >>= fun τ => yields n τ >>= fun r =>
    .ok (r.1, τ.lwtCurrent.toList ++ r.2)) = _
  rw [hτ]
  show (yields n τ >>= fun r => .ok (r.1, τ.lwtCurrent.toList ++ r.2)) = _
  rw [hys]
  rfl

/-- As many calls as there are threads on the run queue `q` dispatch each of them once, the running
thread last, and it runs again at the end with all of them on the queue. -/
def RoundRobin (σ : State) (cur : ThreadId) (q : List ThreadId) : Prop :=
  ∃ τ, yields q.length σ = .ok (τ, q.erase cur ++ [cur]) ∧ τ.lwtCurrent = some cur ∧
    (τ.queues σ.currentRunQueue).Perm q

/-- What a run of yields on kernel thread `k` depends on. -/
structure Turn (σ : State) (k : KthdId) (owner : ThreadId → KthdId) (cur : ThreadId)
    (q : List ThreadId) : Prop where
  kthd : σ.currentKthd = k
  polling : (σ.kthds k).pollingFlag = false
  owner : ∀ t, (σ.threads t).ownerKthd = owner t
  current : σ.lwtCurrent = some cur
  queue : σ.queues (.run k) = q

namespace Turn

/-- The run queue behind the first half of `lwt_yield(NULL)`. -/
theorem requeue (h : Turn σ k owner cur q) : (σ.requeue cur).queues (.run k) =
    if (σ.threads cur).task.CanRun then q.erase cur ++ if owner cur = k then [cur] else []
    else q := by
  by_cases hr : (σ.threads cur).task.CanRun
  · have hre : σ.requeue cur = (σ.listRem cur).listHeadAdd (σ.ownerRunQueue cur) cur := if_pos hr
    rw [hre, if_pos hr]
    show (σ.queues.rem cur).add (.run (σ.threads cur).ownerKthd) cur (.run k) = _
    rw [h.owner]
    by_cases ho : owner cur = k
    · rw [if_pos ho, ho, Rings.add_self, Rings.rem_apply, h.queue]
    · rw [if_neg ho, Rings.add_of_ne _ _ (by simpa using Ne.symm ho), Rings.rem_apply, h.queue,
        List.append_nil]
  · have hre : σ.requeue cur = σ := if_neg hr
    rw [hre, if_neg hr, h.queue]

/-- A yield dispatches the first thread of this queue, and leaves the others alone. -/
theorem yieldNull (h : Turn σ k owner cur q) (hq : (σ.requeue cur).queues (.run k) = t :: l) :
    ∃ τ, σ.yieldNull = .ok τ ∧ Turn τ k owner t (t :: l) ∧ (τ.threads t).task.CanRun := by
  have hkthds : (σ.requeue cur).kthds = σ.kthds := by
    unfold State.requeue
    split_ifs <;> rfl
  have hthreads : (σ.requeue cur).threads = σ.threads := by
    unfold State.requeue
    split_ifs <;> rfl
  have hkthd : (σ.requeue cur).currentKthd = k := by
    unfold State.requeue
    split_ifs <;> exact h.kthd
  set σ₁ := (σ.requeue cur).modThread cur fun th =>
    { th with context := (σ.threads cur).context, eax := .null }
  have hexec : σ.yieldNull = σ₁.lwtSchedule := by
    rw [State.yieldNull, h.current]
    rfl
  have hpoll : σ₁.pollWakeupQueue = .ok σ₁ := by
    have hdown : σ₁.kthd.pollingFlag = false := by
      show ((σ.requeue cur).kthds (σ.requeue cur).currentKthd).pollingFlag = false
      rw [hkthds, hkthd, h.polling]
    simp [pollWakeupQueue, hdown]
  have hq₁ : σ₁.queues σ₁.currentRunQueue = t :: l := by
    show (σ.requeue cur).queues (.run (σ.requeue cur).currentKthd) = t :: l
    rw [hkthd, hq]
  refine ⟨(σ₁.modThread t fun th => { th with state := .running }).modKthd σ₁.currentKthd fun kt =>
    { kt with currentThread := some t }, ?_, ?_, ?_⟩
  · rw [hexec]
    simp only [lwtSchedule, hq₁, hpoll]
    rfl
  · constructor
    · exact hkthd
    · show (Function.update σ₁.kthds σ₁.currentKthd _ k).pollingFlag = false
      rw [show σ₁.currentKthd = k from hkthd, Function.update_self]
      show ((σ.requeue cur).kthds k).pollingFlag = false
      rw [hkthds, h.polling]
    · intro u
      have hσ₁ : (σ₁.threads u).ownerKthd = owner u := by
        rw [← h.owner, ← hthreads]
        by_cases hu : u = cur
        · subst hu
          simp [σ₁]
        · simp [σ₁, hu]
      rw [← hσ₁]
      by_cases hu : u = t
      · subst hu
        simp
      · simp [hu]
    · show (Function.update σ₁.kthds σ₁.currentKthd _ σ₁.currentKthd).currentThread = some t
      rw [Function.update_self]
    · exact hq
  · simp [Task.CanRun]

/-- With nobody on the queue a yield finds no thread. -/
theorem yieldNull_error (h : Turn σ k owner cur q) (hq : (σ.requeue cur).queues (.run k) = []) :
    σ.yieldNull = .error .emptyRunQueue := by
  have hkthd : (σ.requeue cur).currentKthd = k := by
    unfold State.requeue
    split_ifs <;> exact h.kthd
  set σ₁ := (σ.requeue cur).modThread cur fun th =>
    { th with context := (σ.threads cur).context, eax := .null }
  have hexec : σ.yieldNull = σ₁.lwtSchedule := by
    rw [State.yieldNull, h.current]
    rfl
  have hq₁ : σ₁.queues σ₁.currentRunQueue = [] := by
    show (σ.requeue cur).queues (.run (σ.requeue cur).currentKthd) = []
    rw [hkthd, hq]
  rw [hexec]
  simp only [lwtSchedule, hq₁]

/-- The queue when its first thread, which runs, has yielded. -/
theorem requeue_first (h : Turn σ k owner t (t :: l)) (hr : (σ.threads t).task.CanRun) :
    (σ.requeue t).queues (.run k) = l ++ [t].filter (owner · = k) := by
  rw [h.requeue, if_pos hr, List.erase_cons_head]
  by_cases ho : owner t = k <;> simp [ho]

/-- The threads behind the first one are dispatched in turn, and those that the kernel thread owns
stay on the queue. -/
theorem yields (h : Turn σ k owner t (t :: l)) (hr : (σ.threads t).task.CanRun)
    (hm : m ≤ l.length) : ∃ τ u, State.yields m σ = .ok (τ, l.take m) ∧
      Turn τ k owner u ((t :: l).drop m ++ ((t :: l).take m).filter (owner · = k)) ∧
      ((t :: l).drop m).head? = some u := by
  induction m generalizing σ t l with
  | zero => exact ⟨σ, t, rfl, by simpa using h, rfl⟩
  | succ m ih =>
    cases l with
    | nil => simp at hm
    | cons u l =>
      have hm : m ≤ l.length := Nat.le_of_succ_le_succ hm
      have hre : (σ.requeue t).queues (.run k) = u :: (l ++ [t].filter (owner · = k)) :=
        h.requeue_first hr
      obtain ⟨τ, hτ, hturn, hrun⟩ := h.yieldNull hre
      obtain ⟨τ', v, hys, hturn', hv⟩ := ih hturn hrun
        (hm.trans (by simp : l.length ≤ (l ++ [t].filter (owner · = k)).length))
      have hcons : u :: (l ++ [t].filter (owner · = k)) =
          (u :: l) ++ [t].filter (owner · = k) := rfl
      have hmu : m ≤ (u :: l).length := hm.trans (Nat.le_succ _)
      rw [List.take_append_of_le_length hm] at hys
      rw [hcons, List.drop_append_of_le_length hmu, List.take_append_of_le_length hmu,
        List.append_assoc, ← List.filter_append] at hturn'
      rw [hcons, List.drop_append_of_le_length hmu, List.head?_append_of_ne_nil] at hv
      · refine ⟨τ', v, ?_, hturn', hv⟩
        rw [yields_succ hτ hys, hturn.current]
        rfl
      · simp only [ne_eq, List.drop_eq_nil_iff, List.length_cons, not_le]
        omega

/-- Threads that are not on the queue are not dispatched. -/
theorem mem_of_yields (h : Turn σ k owner t (t :: l)) (hr : (σ.threads t).task.CanRun)
    {ts : List ThreadId} (hys : State.yields m σ = .ok (τ, ts)) : ∀ x ∈ ts, x ∈ t :: l := by
  induction m generalizing σ t l ts with
  | zero =>
    cases hys
    simp
  | succ m ih =>
    obtain ⟨σ₁, hy, hys⟩ := bind_ok hys
    obtain ⟨⟨τ', us⟩, hus, hys⟩ := bind_ok hys
    cases hys
    have hsub : ∀ x ∈ l ++ [t].filter (owner · = k), x ∈ t :: l := by
      intro x hx
      rcases List.mem_append.mp hx with hx | hx
      · exact List.mem_cons_of_mem _ hx
      · exact List.mem_cons.mpr (.inl (List.mem_singleton.mp (List.mem_of_mem_filter hx)))
    have hre := h.requeue_first hr
    cases hq : l ++ [t].filter (owner · = k) with
    | nil =>
      rw [hq] at hre
      rw [h.yieldNull_error hre] at hy
      cases hy
    | cons u l' =>
      rw [hq] at hre
      obtain ⟨σ₂, hy', hturn, hrun⟩ := h.yieldNull hre
      obtain rfl : σ₂ = σ₁ := Except.ok.inj (hy'.symm.trans hy)
      rw [hq] at hsub
      rw [hturn.current]
      intro x hx
      rcases List.mem_append.mp hx with hx | hx
      · exact hsub x (by simpa using Or.inl hx)
      · exact hsub x (ih hturn hrun hus x hx)

/-- A yield behind which the queue ends in `u`, and as many more as there are other threads,
dispatch the whole queue. -/
theorem dispatched (h : Turn σ k owner cur q) {u : ThreadId}
    (hq : (σ.requeue cur).queues (.run k) = l ++ [u]) :
    ∃ τ, State.yields (l.length + 1) σ = .ok (τ, l ++ [u]) ∧
      Turn τ k owner u (u :: l.filter (owner · = k)) := by
  obtain ⟨t, l', hl'⟩ : ∃ t l', l ++ [u] = t :: l' :=
    List.exists_cons_of_ne_nil (List.append_ne_nil_of_right_ne_nil l (List.cons_ne_nil u []))
  have hlen : l'.length = l.length := by
    have := congrArg List.length hl'
    simpa using this.symm
  obtain ⟨τ, hτ, hturn, hrun⟩ := h.yieldNull (hq.trans hl')
  obtain ⟨τ', v, hys, hturn', hv⟩ := hturn.yields hrun le_rfl
  rw [hlen, ← hl', List.drop_left] at hv
  obtain rfl : u = v := by simpa using hv
  rw [hlen, ← hl', List.drop_left, List.take_left] at hturn'
  refine ⟨τ', ?_, hturn'⟩
  rw [List.take_length, hlen] at hys
  rw [yields_succ hτ hys, hturn.current, hl']
  rfl

/-- The threads of a queue that ends in the running thread take turns if and only if the others are
owned by the kernel thread. -/
theorem roundRobin_iff (h : Turn σ k owner cur q) (hc : cur ∈ q)
    (hq : (σ.requeue cur).queues (.run k) = q.erase cur ++ [cur]) :
    RoundRobin σ cur q ↔ ∀ t ∈ q.erase cur, owner t = k := by
  have hperm : q.Perm (cur :: q.erase cur) := List.perm_cons_erase hc
  obtain ⟨τ, hys, hturn⟩ := h.dispatched hq
  rw [← List.length_cons (a := cur), ← hperm.length_eq] at hys
  have hqueue : τ.queues σ.currentRunQueue = cur :: (q.erase cur).filter (owner · = k) := by
    show τ.queues (.run σ.currentKthd) = _
    rw [h.kthd, hturn.queue]
  constructor
  · rintro ⟨τ', hys', -, hqueue'⟩
    obtain rfl : τ = τ' := congrArg Prod.fst (Except.ok.inj (hys.symm.trans hys'))
    rw [hqueue] at hqueue'
    have hkept := (List.perm_cons cur).mp (hqueue'.trans hperm)
    intro t ht
    simpa using List.of_mem_filter (hkept.mem_iff.mpr ht)
  · intro hown
    refine ⟨τ, hys, hturn.current, ?_⟩
    rw [hqueue, List.filter_eq_self.mpr fun t ht => decide_eq_true (hown t ht)]
    exact hperm.symm

/-- A thread that another kernel thread owns leaves the queue with its first yield. -/
theorem not_roundRobin (h : Turn σ k owner cur q) (hn : q.Nodup) (hc : cur ∈ q)
    (hq : (σ.requeue cur).queues (.run k) = q.erase cur) : ¬ RoundRobin σ cur q := by
  rintro ⟨τ, hys, -⟩
  obtain ⟨n, hlen⟩ : ∃ n, q.length = n + 1 :=
    Nat.exists_eq_succ_of_ne_zero (List.length_pos_of_mem hc).ne'
  rw [hlen] at hys
  obtain ⟨σ₁, hy, hys⟩ := bind_ok hys
  obtain ⟨⟨τ', ts⟩, hts, hys⟩ := bind_ok hys
  obtain ⟨-, hdisp⟩ := Prod.mk.inj (Except.ok.inj hys)
  cases he : q.erase cur with
  | nil =>
    rw [he] at hq
    rw [h.yieldNull_error hq] at hy
    cases hy
  | cons t l =>
    rw [he] at hq
    obtain ⟨σ₂, hy', hturn, hrun⟩ := h.yieldNull hq
    obtain rfl : σ₂ = σ₁ := Except.ok.inj (hy'.symm.trans hy)
    have hmem : cur ∈ t :: ts := by
      rw [hturn.current] at hdisp
      rw [show t :: ts = q.erase cur ++ [cur] from hdisp]
      simp
    have hback : cur ∈ q.erase cur := by
      rw [he]
      rcases List.mem_cons.mp hmem with rfl | hmem
      · exact List.mem_cons_self
      · exact hturn.mem_of_yields hrun hts cur hmem
    exact hn.not_mem_erase hback

/-- A thread that cannot run stays where it is with its yield. -/
theorem roundRobin_stuck_iff (h : Turn σ k owner cur q) (hn : q.Nodup) (hc : cur ∈ q)
    (hr : ¬ (σ.threads cur).task.CanRun) :
    RoundRobin σ cur q ↔ (∀ t ∈ q.erase cur, owner t = k) ∧ q.getLast? = some cur := by
  have hq := h.requeue
  rw [if_neg hr] at hq
  obtain ⟨l, u, hlu⟩ : ∃ l u, q = l ++ [u] := by
    obtain h0 | ⟨l, u, hlu⟩ := List.eq_nil_or_concat q
    · rw [h0] at hc
      cases hc
    · exact ⟨l, u, by rw [hlu, List.concat_eq_append]⟩
  have hlast : q.getLast? = some cur ↔ u = cur := by
    rw [hlu]
    simp
  by_cases hu : u = cur
  · subst hu
    have hl : u ∉ l := by
      intro hl
      rw [hlu] at hn
      exact (List.nodup_append.mp hn).2.2 u hl u (List.mem_singleton_self u) rfl
    have herase : q.erase u = l := by
      rw [hlu, List.erase_append_right _ hl]
      simp
    rw [h.roundRobin_iff hc (by rw [herase, hq, hlu])]
    simp [hlast]
  · obtain ⟨τ, hys, -⟩ := h.dispatched (hq.trans hlu)
    have hnot : ¬ RoundRobin σ cur q := by
      rintro ⟨τ', hys', -⟩
      rw [show q.length = l.length + 1 by rw [hlu]; simp] at hys'
      have heq : l ++ [u] = q.erase cur ++ [cur] :=
        congrArg Prod.snd (Except.ok.inj (hys.symm.trans hys'))
      exact hu (List.cons.inj (List.append_inj_right' heq rfl)).1
    simp [hnot, hlast, hu]

end Turn

/-- The threads of a run queue take turns if and only if the running thread can run and all of them
are owned by the kernel thread; one that could not run would have to be the last already. -/
theorem round_robin_iff (hcur : σ.lwtCurrent = some cur) (hp : σ.kthd.pollingFlag = false)
    (hn : (σ.queues σ.currentRunQueue).Nodup) (hc : cur ∈ σ.queues σ.currentRunQueue) :
    RoundRobin σ cur (σ.queues σ.currentRunQueue) ↔
      (∀ t ∈ σ.queues σ.currentRunQueue, t ≠ cur → (σ.threads t).ownerKthd = σ.currentKthd) ∧
      ((σ.threads cur).task.CanRun ∧ (σ.threads cur).ownerKthd = σ.currentKthd ∨
        ¬ (σ.threads cur).task.CanRun ∧ (σ.queues σ.currentRunQueue).getLast? = some cur) := by
  have h : Turn σ σ.currentKthd (fun t => (σ.threads t).ownerKthd) cur
      (σ.queues σ.currentRunQueue) := ⟨rfl, hp, fun _ => rfl, hcur, rfl⟩
  set q := σ.queues σ.currentRunQueue
  have hothers : (∀ t ∈ q, t ≠ cur → (σ.threads t).ownerKthd = σ.currentKthd) ↔
      ∀ t ∈ q.erase cur, (σ.threads t).ownerKthd = σ.currentKthd := by
    constructor
    · intro hown t ht
      rw [hn.mem_erase_iff] at ht
      exact hown t ht.2 ht.1
    · intro hown t ht hne
      exact hown t (hn.mem_erase_iff.mpr ⟨hne, ht⟩)
  rw [hothers]
  by_cases hr : (σ.threads cur).task.CanRun
  · have hq := h.requeue
    by_cases ho : (σ.threads cur).ownerKthd = σ.currentKthd
    · rw [if_pos hr, if_pos ho] at hq
      rw [h.roundRobin_iff hc hq]
      simp [hr, ho]
    · rw [if_pos hr, if_neg ho, List.append_nil] at hq
      simp [h.not_roundRobin hn hc hq, hr, ho]
  · rw [h.roundRobin_stuck_iff hn hc hr]
    simp [hr]

end State

open State

theorem two_children_take_turns :
    RoundRobin (withChildren 2) 0 ((withChildren 2).queues (withChildren 2).currentRunQueue) :=
  (round_robin_iff (by decide +kernel) (by decide +kernel) (by decide +kernel)
    (by decide +kernel)).mpr (by decide +kernel)

/-- The child of the main thread sends its parent to a thread of kernel thread `2`, which takes it
before the parent has the processor again. -/
def givenAwayRun : List Label :=
  [.call (.lwtCreate 0 createMem), .initiate 2 createMem, .switch 2, .call (.lwtChan 1 chanMem),
    .call (.setChanType 3 .global), .switch 1, .call (.lwtYield none), .call (.lwtSndThd 3 0),
    .resume, .resume, .call (.lwtYield none), .switch 2, .call (.lwtRcvThd 3), .resume, .resume,
    .resume, .switch 1]

/-- Its next yield puts the parent on the run queue of kernel thread `2`, and the child runs
twice. -/
theorem given_away_not_dispatched : (booted.trace givenAwayRun).length = givenAwayRun.length ∧
    (booted.after givenAwayRun).lwtCurrent = some 0 ∧
    (booted.after givenAwayRun).kthd.pollingFlag = false ∧
    (booted.after givenAwayRun).queues (booted.after givenAwayRun).currentRunQueue = [0, 1] ∧
    ¬ RoundRobin (booted.after givenAwayRun) 0 [0, 1] := by
  refine ⟨by decide +kernel, by decide +kernel, by decide +kernel, by decide +kernel, ?_⟩
  rintro ⟨τ, hys, -⟩
  have hdisp : (yields 2 (booted.after givenAwayRun)).toOption.map Prod.snd = some [1, 1] := by
    decide +kernel
  rw [show yields 2 (booted.after givenAwayRun) = _ from hys] at hdisp
  have hne : [0, 1].erase 0 ++ [0] = [1, 1] := Option.some.inj hdisp
  exact absurd hne (by decide)

end Lwt
