import Lwt.Frames

/-! The links of the threads, whatever the kernel threads do: a thread is behind
one list head at most and there once, and the polling flag is never up. -/

namespace Lwt

namespace Sched

variable {s s' s₁ : Sched} {cur t : ThreadId} {f : Frame} {rest : List Frame} {b : Bool}

/-- A thread is behind one list head at most, and there once. The threads that
something else points to exist. -/
structure Wired (s : Sched) : Prop where
  homed : ∃ home, Rings.Homed s.queues home ∧ ∀ t, s.ntasks ≤ t → home t = none
  owner : ∀ g < s.ncgrps, (s.cgrps g).owner < s.ntasks
  current : ∀ k t, (s.kthds k).currentThread = some t → t < s.ntasks
  polling : ∀ k, (s.kthds k).pollingFlag = false

namespace Wired

variable (h : s.Wired)

include h in
theorem nodup (q : Queue) : (s.queues q).Nodup := by
  obtain ⟨home, hh, -⟩ := h.homed
  exact hh.nodup q

include h in
theorem unique {q q' : Queue} (hq : t ∈ s.queues q) (hq' : t ∈ s.queues q') : q = q' := by
  obtain ⟨home, hh, -⟩ := h.homed
  exact hh.unique hq hq'

include h in
theorem lt {q : Queue} (hq : t ∈ s.queues q) : t < s.ntasks := by
  obtain ⟨home, hh, hlt⟩ := h.homed
  by_contra hge
  rw [hh.mem_iff, hlt t (not_lt.mp hge)] at hq
  cases hq

include h in
theorem wakes_lt (hw : s.Wakes f t) : t < s.ntasks := by
  cases hw with
  | handOff c d hf hlt => exact hlt
  | sender c hf ht => exact h.lt (List.mem_of_head? ht)
  | group c d g hf hg hb ht => exact ht ▸ h.owner g hg

end Wired

/-- No thread or group is new, and no kernel thread dispatches. -/
structure Kept (s s' : Sched) : Prop where
  ntasks : s'.ntasks = s.ntasks
  ncgrps : s'.ncgrps = s.ncgrps
  owner : ∀ g, (s'.cgrps g).owner = (s.cgrps g).owner
  current : ∀ k, (s'.kthds k).currentThread = (s.kthds k).currentThread
  polling : ∀ k, (s'.kthds k).pollingFlag = (s.kthds k).pollingFlag

namespace Kept

theorem of_tasks (tasks : ThreadId → Task) (queues : Rings Queue ThreadId) :
    s.Kept { s with tasks := tasks, queues := queues } :=
  ⟨rfl, rfl, fun _ => rfl, fun _ => rfl, fun _ => rfl⟩

theorem modTask (t : ThreadId) (f : Task → Task) : s.Kept (s.modTask t f) := of_tasks _ _

theorem modKthd {k : KthdId} {f : Kthd → Kthd}
    (hf : ∀ kt, (f kt).currentThread = kt.currentThread ∧ (f kt).pollingFlag = kt.pollingFlag) :
    s.Kept (s.modKthd k f) := by
  refine ⟨rfl, rfl, fun _ => rfl, fun k' => ?_, fun k' => ?_⟩ <;>
  · by_cases hk : k' = k
    · subst hk
      simp [hf]
    · simp [hk]

theorem count (bf : BlockStatus) : s.Kept (s.count bf) := modKthd (by simp)

theorem uncount (bf : BlockStatus) : s.Kept (s.uncount bf) := modKthd (by simp)

theorem of_cgrp {g : CgrpId} {f : Cgrp → Cgrp} (hf : ∀ gr, (f gr).owner = gr.owner) :
    s.Kept (s.modCgrp g f) :=
  ⟨rfl, rfl, fun _ => Placed.modCgrp_owner hf, fun _ => rfl, fun _ => rfl⟩

theorem trans {s₂ : Sched} (h : s.Kept s₁) (h' : s₁.Kept s₂) : s.Kept s₂ where
  ntasks := h'.ntasks.trans h.ntasks
  ncgrps := h'.ncgrps.trans h.ncgrps
  owner g := (h'.owner g).trans (h.owner g)
  current k := (h'.current k).trans (h.current k)
  polling k := (h'.polling k).trans (h.polling k)

theorem wake (cur t : ThreadId) : s.Kept (s.wake cur t) :=
  (uncount (s.tasks t).blockFor).trans (of_tasks _ _)

theorem sleepRcv (rcving : Option ChanId) (ctx : List Frame) :
    s.Kept (s.sleepRcv cur rcving ctx) :=
  (count .receiving).trans (of_tasks _ _)

theorem sleepSnd (c : ChanId) (ctx : List Frame) : s.Kept (s.sleepSnd cur c ctx) :=
  (count .sending).trans (of_tasks _ _)

end Kept

namespace Wired

variable (h : s.Wired)

include h in
theorem of_homed (hk : s.Kept s')
    (hq : ∃ home, Rings.Homed s'.queues home ∧ ∀ t, s.ntasks ≤ t → home t = none) :
    s'.Wired where
  homed := by
    rw [hk.ntasks]
    exact hq
  owner g hg := by
    rw [hk.ncgrps] at hg
    rw [hk.owner, hk.ntasks]
    exact h.owner g hg
  current k t ht := by
    rw [hk.current] at ht
    rw [hk.ntasks]
    exact h.current k t ht
  polling k := (hk.polling k).trans (h.polling k)

include h in
/-- Nothing is linked or unlinked. -/
theorem kept (hk : s.Kept s') (hq : s'.queues = s.queues) : s'.Wired :=
  h.of_homed hk (hq ▸ h.homed)

include h in
/-- One thread is linked elsewhere, or unlinked. -/
theorem relink (hk : s.Kept s') (ht : t < s.ntasks) {o : Option Queue}
    (hq : ∀ home, Rings.Homed s.queues home → Rings.Homed s'.queues (Function.update home t o)) :
    s'.Wired := by
  obtain ⟨home, hh, hlt⟩ := h.homed
  refine h.of_homed hk ⟨_, hq home hh, fun u hu => ?_⟩
  rw [Function.update_of_ne (ht.trans_le hu).ne']
  exact hlt u hu

include h in
theorem wake (ht : t < s.ntasks) (cur : ThreadId) : (s.wake cur t).Wired :=
  h.relink (.wake cur t) ht fun _ hh => hh.move_append t _

include h in
/-- A fresh thread starts. -/
theorem create (th : Task) : ({ s.spawn s.ntasks th with ntasks := s.ntasks + 1 }).Wired where
  homed := by
    obtain ⟨home, hh, hlt⟩ := h.homed
    refine ⟨_, hh.add (hlt s.ntasks le_rfl) (.run s.currentKthd), fun u hu => ?_⟩
    have hu : s.ntasks + 1 ≤ u := hu
    have hlt' : s.ntasks < u := hu
    rw [Function.update_of_ne hlt'.ne']
    exact hlt u hlt'.le
  owner g hg := (h.owner g hg).trans (Nat.lt_succ_self _)
  current k t ht := (h.current k t ht).trans (Nat.lt_succ_self _)
  polling := h.polling

include h in
theorem newGroup (hcur : cur < s.ntasks) :
    ({ s.modCgrp s.ncgrps fun _ => ⟨cur, false, false⟩ with ncgrps := s.ncgrps + 1 }).Wired where
  homed := h.homed
  owner g hg := by
    by_cases hgn : g = s.ncgrps
    · subst hgn
      simpa using hcur
    · have hg : g < s.ncgrps + 1 := hg
      simpa [hgn] using h.owner g (by omega)
  current := h.current
  polling := h.polling

include h in
theorem dispatch (hd : s.Dispatch s') : s'.Wired := by
  obtain ⟨t, rest, hq, rfl⟩ := hd
  have ht : t < s.ntasks := h.lt (q := .run s.currentKthd) (by simp [hq])
  refine ⟨h.homed, h.owner, fun k u hu => ?_, fun k => ?_⟩
  · by_cases hk : k = s.currentKthd
    · subst hk
      have hut : t = u := by simpa using hu
      exact hut ▸ ht
    · exact h.current k u (by simpa [hk] using hu)
  · by_cases hk : k = s.currentKthd
    · subst hk
      simpa using h.polling s.currentKthd
    · simpa [hk] using h.polling k

end Wired

/-- A section keeps every thread on one list at most. -/
theorem Act.wired (h : s.Wired) (hcur : cur < s.ntasks) (ha : s.Act cur f rest b s₁) :
    s₁.Wired := by
  have leave {s₂ : Sched} (h₂ : s₂.Wired) (ctx : List Frame) : (s₂.leave cur ctx).Wired :=
    h₂.kept (.of_tasks _ _) rfl
  cases ha with
  | quiet | idle => exact leave h _
  | lastWord => exact leave (h.kept (.modKthd (by simp)) rfl) _
  | slThdBlock => exact leave (h.kept (.modKthd (by simp)) rfl) _
  | wake t hw => exact leave (h.wake (h.wakes_lt hw) cur) _
  | recycle t fl mem hf ht =>
    exact leave (h.relink (.of_tasks _ _) (h.lt (List.mem_of_head? ht)) fun _ hh =>
      hh.move_add t _) _
  | create th => exact leave (h.create th) _
  | newGroup => exact leave (h.newGroup hcur) _
  | freeGroup | waitDone => exact leave (h.kept (.of_cgrp (by simp)) rfl) _
  | adopt t => exact leave (h.kept (.modTask t _) rfl) _
  | adoptMove t hf ht =>
    exact leave (h.relink (.of_tasks _ _) ht fun _ hh => hh.move_append t _) _
  | yield => exact h.relink (.of_tasks _ _) hcur fun _ hh => hh.move_add cur _
  | yieldTo t hf ht => exact h.relink (.of_tasks _ _) ht fun _ hh => hh.move_append t _
  | sleepRcv rcving fr => exact h.relink (.sleepRcv _ _) hcur fun _ hh => hh.rem cur
  | sleepGroup g =>
    have hg : (s.modCgrp g fun gr => { gr with blocked := true }).Wired :=
      h.kept (.of_cgrp (by simp)) rfl
    exact hg.relink (.sleepRcv _ _) hcur fun _ hh => hh.rem cur
  | sleepSnd c => exact h.relink (.sleepSnd c _) hcur fun _ hh => hh.move_add cur _
  | wakeSleepSnd t c d hf hw =>
    exact (h.wake (h.wakes_lt hw) cur).relink (.sleepSnd c _) hcur fun _ hh => hh.move_add cur _
  | die =>
    have hk : s.Kept (s.modKthd s.currentKthd fun kt =>
        { kt with zombieCounter := kt.zombieCounter - 1 }) := .modKthd (by simp)
    exact h.relink (hk.trans (.of_tasks _ _)) hcur fun _ hh => hh.move_add cur _

theorem Effect.wired (h : s.Wired) (hcur : cur < s.ntasks) (he : s.Effect cur f rest s') :
    s'.Wired := by
  cases he with
  | stay ha => exact ha.wired h hcur
  | switch ha hd => exact (ha.wired h hcur).dispatch hd

end Sched

section Runs

variable {σ τ σ₀ : State} {l : Label} {k : KthdId} {mem : CreateMem}

/-- The other kernel threads have not been created at boot. -/
theorem boot_kthds (h : σ.Boot k) {k' : KthdId} (hk : k' ≠ k) : σ.kthds k' = default := by
  obtain ⟨mem, τ, hi, hs⟩ := h
  simp only [State.step] at hi
  split_ifs at hi
  obtain ⟨th, ch, -, -, -, -, -, -, -, -, -, -, -, rfl⟩ := State.initiate_ok hi
  simp only [State.step] at hs
  split_ifs at hs
  cases hs
  simp [hk, State.zero]

theorem boot_wired (h : σ.Boot k) : σ.sched.Wired := by
  have hb := boot_ok h
  refine ⟨⟨_, hb.placed.homed, fun t ht => if_neg (not_lt.mpr ht)⟩, fun g hg => ?_,
    fun k' t ht => ?_, fun k' => ?_⟩
  · rw [State.sched_ncgrps, hb.ncgrps] at hg
    omega
  · by_cases hk : k' = k
    · subst hk
      have ht0 : 0 = t := by simpa [hb.kthd] using ht
      subst ht0
      simp [hb.nthreads]
    · rw [State.sched_kthds, boot_kthds h hk] at ht
      cases ht
  · by_cases hk : k' = k
    · subst hk
      simp [hb.kthd]
      rfl
    · rw [State.sched_kthds, boot_kthds h hk]
      rfl

/-- A new kernel thread starts on a thread of its own. -/
theorem wired_initiate (h : σ.sched.Wired) (hi : σ.initiate k mem = .ok τ) : τ.sched.Wired := by
  obtain ⟨th, ch, -, -, -, -, -, -, -, -, -, -, -, rfl⟩ := State.initiate_ok hi
  have hlt : ∀ {n}, n < σ.nthreads → n < σ.nthreads + 1 := fun hn => hn.trans (Nat.lt_succ_self _)
  refine ⟨?_, fun g hg => hlt (h.owner g hg), fun k' t ht => ?_, fun k' => ?_⟩
  · obtain ⟨home, hh, hnone⟩ := h.homed
    have hcl := ((hh.clear (.run k)).clear (.recycle k)).clear (.sender σ.nchans)
    have hn : home σ.nthreads = none := hnone _ le_rfl
    refine ⟨_, hcl.append (n := σ.nthreads) (by simp [hn]) (.run k), fun t ht => ?_⟩
    have ht : σ.nthreads < t := ht
    have hnt : home t = none := hnone t ht.le
    simp [Function.update_of_ne ht.ne', hnt]
  · by_cases hk : k' = k
    · subst hk
      have htn : σ.nthreads = t := by simpa using ht
      exact htn ▸ Nat.lt_succ_self _
    · exact hlt (h.current k' t (by simpa [hk] using ht))
  · by_cases hk : k' = k
    · subst hk
      simp
    · simpa [hk] using h.polling k'

theorem wired_step (ht : WellFramed σ) (h : σ.sched.Wired) (hs : Step σ l τ) : τ.sched.Wired := by
  obtain ⟨cur, f, rest, hs⟩ | ⟨k, -, rfl⟩ | ⟨k, mem, -, -, hi⟩ := step_cases hs
  · exact (ht.effect hs).wired h (h.current _ _ hs.current)
  · exact ⟨h.homed, h.owner, h.current, h.polling⟩
  · exact wired_initiate h hi

theorem Run.wired {tr : List (State × Label)} (h : Run σ₀ tr σ) (hb : σ₀.Boot k) :
    σ.sched.Wired := by
  have hinv : WellFramed σ ∧ σ.sched.Wired :=
    h.invariant (I := fun σ => WellFramed σ ∧ σ.sched.Wired)
      ⟨(boot_ok hb).wellFramed, boot_wired hb⟩
      fun _ _ _ hi hstep => ⟨hi.1.step hstep, wired_step hi.1 hi.2 hstep⟩
  exact hinv.2

end Runs

end Lwt
