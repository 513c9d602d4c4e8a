import Lwt.Wired

/-! Directed yields. `lwt_yield(t)` puts `t` just before the last thread of the
run queue of the caller, and `__lwt_schedule` takes the first: `t` runs next if
and only if it shares the queue with nobody but the caller. -/

namespace Lwt

variable {σ τ σ₀ : State} {tr : List (State × Label)} {k : KthdId} {cur t : ThreadId}
  {rest : List Frame}

namespace State

/-- `__lwt_schedule` with the polling flag down. -/
theorem lwtSchedule_of_cons {l : List ThreadId} (hq : σ.queues σ.currentRunQueue = t :: l)
    (hp : σ.kthd.pollingFlag = false) : ∃ τ, σ.lwtSchedule = .ok τ ∧ τ.queues = σ.queues ∧
      τ.lwtCurrent = some t := by
  refine ⟨(σ.modThread t fun th => { th with state := .running }).modKthd σ.currentKthd fun kt =>
    { kt with currentThread := some t }, ?_, rfl, ?_⟩
  · have hpoll : σ.pollWakeupQueue = .ok σ := by
      simp [pollWakeupQueue, hp]
    simp only [lwtSchedule, hq, hpoll]
    rfl
  · simp [lwtCurrent, kthd]

/-- The section of `lwt_yield(t)` for a thread that can run. -/
theorem exec_yieldTo (ht : t < σ.nthreads) (hne : t ≠ cur) (hr : (σ.threads t).task.CanRun) :
    σ.exec cur (.call (.lwtYield (some t))) rest =
      (((σ.listRem t).listHeadAppend (σ.ownerRunQueue cur) t).modThread cur fun th =>
        { th with context := rest, eax := .null }).lwtSchedule := by
  have hcond : ¬ (t = cur ∨ (σ.threads t).state ≠ .runnable ∧ (σ.threads t).state ≠ .running) := by
    rintro (h | ⟨h, h'⟩)
    · exact hne h
    · exact hr.elim h h'
  have hget : σ.thread? t = .ok (σ.threads t) := if_neg (not_le.mpr ht)
  simp only [exec, body, call, lwtYield, hget]
  simp only [bind, Except.bind, if_neg hcond]
  rfl

end State

/-- The directed yield of `cur` that leads from `σ` to `τ` has made `t` the running
thread, and touched the place of no other thread in the run queue. -/
structure Directed (σ τ : State) (cur t : ThreadId) : Prop where
  current : τ.lwtCurrent = some t
  caller : cur ∈ τ.queues (σ.ownerRunQueue cur)
  order : (τ.queues (σ.ownerRunQueue cur)).erase t = (σ.queues (σ.ownerRunQueue cur)).erase t

/-- Unlinking `t` and linking it before the last keeps the others in place. -/
theorem erase_beforeLast {l : List ThreadId} (hl : l.Nodup) :
    (Rings.beforeLast t (l.erase t)).erase t = l.erase t := by
  have ht : t ∉ l.erase t := hl.not_mem_erase
  rcases List.eq_nil_or_concat (l.erase t) with h | ⟨l', z, h⟩
  · simp [h, Rings.beforeLast]
  · rw [List.concat_eq_append] at h
    rw [h, Rings.beforeLast_concat]
    rw [h, List.mem_append, not_or] at ht
    rw [List.erase_append_right _ ht.1]
    simp

/-- Before the last of the others and in front of them, `t` has one other on the list. -/
theorem length_of_beforeLast {l l' : List ThreadId} (hl : l.Nodup) (ht : t ∈ l)
    (hc : cur ∈ l.erase t) (h : Rings.beforeLast t (l.erase t) = t :: l') : l.length = 2 := by
  rcases List.eq_nil_or_concat (l.erase t) with hnil | ⟨l₁, z, hcat⟩
  · rw [hnil] at hc
    cases hc
  · rw [List.concat_eq_append] at hcat
    rw [hcat, Rings.beforeLast_concat] at h
    cases l₁ with
    | nil =>
      have hlen := List.length_erase_of_mem ht
      have hpos := List.length_pos_of_mem ht
      rw [hcat] at hlen
      simp at hlen
      omega
    | cons x l₁ =>
      -- the first of the others would be in front of `t`
      have hxt : x = t := by simpa using congrArg List.head? h
      have hmem : t ∈ l.erase t := by simp [hcat, hxt]
      exact absurd hmem hl.not_mem_erase

/-- A thread linked to another queue than that of the kernel thread is not dispatched. -/
theorem queue_of_dispatched {q : Queue} {σ₁ : State} {l : List ThreadId}
    (hn : (σ.queues σ.currentRunQueue).Nodup)
    (hσ₁ : σ₁.queues = (σ.queues.rem t).append q t)
    (hq : σ₁.queues σ.currentRunQueue = t :: l) : q = σ.currentRunQueue := by
  by_contra hqq
  have hsame : σ₁.queues σ.currentRunQueue = (σ.queues σ.currentRunQueue).erase t := by
    rw [hσ₁, Rings.append_of_ne _ _ (Ne.symm hqq), Rings.rem_apply]
  have hmem : t ∈ (σ.queues σ.currentRunQueue).erase t := by
    rw [← hsame, hq]
    exact List.mem_cons_self
  exact hn.not_mem_erase hmem

/-- `lwt_yield(t)` runs `t` next if and only if the kernel thread is on the run queue
of the caller, and that queue holds the caller and `t` only. -/
theorem directed_yield_iff (h : Run σ₀ tr σ) (hb : σ₀.Boot k)
    (hc : cur ∈ σ.queues (σ.ownerRunQueue cur)) (ht : t ∈ σ.queues (σ.ownerRunQueue cur))
    (hne : t ≠ cur) (hr : (σ.threads t).state = .runnable ∨ (σ.threads t).state = .running) :
    (∃ τ, σ.exec cur (.call (.lwtYield (some t))) rest = .ok τ ∧ Directed σ τ cur t) ↔
      σ.ownerRunQueue cur = σ.currentRunQueue ∧
        (σ.queues (σ.ownerRunQueue cur)).length = 2 := by
  have hw := h.wired hb
  have hnd : (σ.queues (σ.ownerRunQueue cur)).Nodup := hw.nodup _
  have hcur' : cur ∈ (σ.queues (σ.ownerRunQueue cur)).erase t :=
    (List.mem_erase_of_ne hne.symm).mpr hc
  rw [State.exec_yieldTo (hw.lt ht) hne hr]
  set q := σ.ownerRunQueue cur
  set σ₁ := ((σ.listRem t).listHeadAppend q t).modThread cur fun th =>
    { th with context := rest, eax := .null }
  have hq₁ : σ₁.queues q = Rings.beforeLast t ((σ.queues q).erase t) := by simp [σ₁]
  constructor
  · rintro ⟨τ, hs, hd⟩
    obtain ⟨u, l, hq, rfl⟩ := State.lwtSchedule_ok hs
    obtain rfl : u = t := by simpa [State.lwtCurrent, State.kthd] using hd.current
    have heq : q = σ.currentRunQueue := queue_of_dispatched (hw.nodup _) rfl hq
    refine ⟨heq, ?_⟩
    have hq : σ₁.queues σ.currentRunQueue = u :: l := hq
    rw [← heq, hq₁] at hq
    exact length_of_beforeLast hnd ht hcur' hq
  · rintro ⟨hqc, hl⟩
    obtain ⟨z, hz⟩ : ∃ z, (σ.queues q).erase t = [z] := by
      rw [← List.length_eq_one_iff, List.length_erase_of_mem ht, hl]
    have hhead : σ₁.queues σ₁.currentRunQueue = t :: [z] := by
      have hcq : σ₁.currentRunQueue = σ.currentRunQueue := rfl
      rw [hcq, ← hqc, hq₁, hz]
      rfl
    obtain ⟨τ, hs, hτq, hτc⟩ := State.lwtSchedule_of_cons hhead (hw.polling σ.currentKthd)
    refine ⟨τ, hs, hτc, ?_, ?_⟩
    · rw [hτq, hq₁]
      simp [hcur']
    · rw [hτq, hq₁]
      exact erase_beforeLast hnd

def withChildren (n : ℕ) : State :=
  booted.after (List.replicate n (.call (.lwtCreate 0 createMem)))

theorem only_child_next :
    ∃ τ, (withChildren 1).exec 0 (.call (.lwtYield (some 1))) [] = .ok τ ∧
      Directed (withChildren 1) τ 0 1 :=
  (directed_yield_iff (State.run_trace booted (List.replicate 1 (.call (.lwtCreate 0 createMem))))
    boot_booted (by decide +kernel) (by decide +kernel) (by decide) (by decide +kernel)).mpr
    (by decide +kernel)

/-- With two children a yield to the second comes back to the caller. -/
theorem second_child_not_next :
    0 ∈ (withChildren 2).queues ((withChildren 2).ownerRunQueue 0) ∧
      2 ∈ (withChildren 2).queues ((withChildren 2).ownerRunQueue 0) ∧
      ((withChildren 2).threads 2).state = .running ∧
      ((withChildren 2).after [.call (.lwtYield (some 2))]).lwtCurrent = some 0 := by
  decide +kernel

end Lwt
