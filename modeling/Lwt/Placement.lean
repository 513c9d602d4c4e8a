import Lwt.Refinement

/-! Where the threads of a single kernel thread are. A thread's state, block
status and innermost frame say which queue it is linked on; every section keeps
this, as long as a group is waited on by its owner only. -/

namespace Lwt

/-- The queue a thread of kernel thread `k` is on. -/
def Task.home (k : KthdId) (th : Task) : Option Queue :=
  match th.state with
  | .runnable | .running => some (.run k)
  | .zombies => some (.recycle k)
  | .blocked =>
    match th.blockFor, th.context with
    | .sending, .sndRet c :: _ => some (.sender c)
    | _, _ => none

/-- A thread that cannot run is where it was left. -/
structure Task.Parked (th : Task) : Prop where
  sending : th.Sending → ∃ c k, th.context = .sndRet c :: k
  receiving : th.Receiving →
    (∃ c k, th.context = .rcvRet c :: k ∧ th.nowRcving = some c) ∨
      (∃ c k, th.context = .syncRcvLoop c :: k ∧ th.nowRcving = some c) ∨
      ∃ g k, th.context = .cgrpWaitLoop g :: k
  dead : th.state = .zombies → ∃ k, th.context = .died :: k

namespace Task

variable {th : Task} {k : KthdId}

theorem CanRun.home (h : th.CanRun) : th.home k = some (.run k) := by
  rcases h with h | h <;> simp [Task.home, h]

theorem CanRun.not_blocked (h : th.CanRun) : th.state ≠ .blocked := by
  rcases h with h | h <;> simp [h]

theorem CanRun.not_sending (h : th.CanRun) : ¬ th.Sending := by
  rcases h with h | h <;> simp [Sending, h]

theorem CanRun.not_receiving (h : th.CanRun) : ¬ th.Receiving := by
  rcases h with h | h <;> simp [Receiving, h]

theorem CanRun.parked (h : th.CanRun) : th.Parked where
  sending hs := absurd hs h.not_sending
  receiving hr := absurd hr h.not_receiving
  dead hd := by rcases h with h | h <;> simp [h] at hd

theorem Receiving.home (h : th.Receiving) : th.home k = none := by
  simp [Task.home, h.1, h.2]

theorem Sending.home {c : ChanId} {fs : List Frame} (h : th.Sending)
    (hc : th.context = .sndRet c :: fs) : th.home k = some (.sender c) := by
  simp [Task.home, h.1, h.2, hc]

theorem home_eq_run {k' : KthdId} (h : th.home k = some (.run k')) : k' = k ∧ th.CanRun := by
  unfold Task.home at h
  split at h
  · exact ⟨by simpa using h.symm, .inl ‹_›⟩
  · exact ⟨by simpa using h.symm, .inr ‹_›⟩
  · simp at h
  · split at h <;> simp at h

theorem home_eq_recycle {k' : KthdId} (h : th.home k = some (.recycle k')) :
    k' = k ∧ th.state = .zombies := by
  unfold Task.home at h
  split at h
  · simp at h
  · simp at h
  · exact ⟨by simpa using h.symm, ‹_›⟩
  · split at h <;> simp at h

theorem home_eq_sender {c : ChanId} (h : th.home k = some (.sender c)) :
    th.Sending ∧ ∃ fs, th.context = .sndRet c :: fs := by
  unfold Task.home at h
  split at h
  · simp at h
  · simp at h
  · simp at h
  · rename_i hb
    split at h
    · rename_i c' fs hs hc
      obtain rfl : c' = c := by simpa using h
      exact ⟨⟨hb, hs⟩, fs, hc⟩
    · simp at h

/-- A thread on no queue sleeps in a receive. -/
theorem receiving_of_home_eq_none (hp : th.Parked) (h : th.home k = none) : th.Receiving := by
  cases hs : th.state with
  | runnable => simp [CanRun.home (.inl hs)] at h
  | running => simp [CanRun.home (.inr hs)] at h
  | zombies => simp [Task.home, hs] at h
  | blocked =>
    refine ⟨hs, ?_⟩
    cases hb : th.blockFor with
    | receiving => rfl
    | sending =>
      obtain ⟨c, fs, hc⟩ := hp.sending ⟨hs, hb⟩
      simp [Sending.home ⟨hs, hb⟩ hc] at h

end Task

namespace Sched

variable {s s' : Sched} {k : KthdId} {cur t : ThreadId} {f : Frame} {rest : List Frame}

def homeOf (k : KthdId) (tasks : ThreadId → Task) (n : ℕ) (t : ThreadId) : Option Queue :=
  if t < n then (tasks t).home k else none

theorem homeOf_update {tasks : ThreadId → Task} {n : ℕ} {th : Task} (ht : t < n) :
    homeOf k (Function.update tasks t th) n =
      Function.update (homeOf k tasks n) t (th.home k) := by
  funext u
  by_cases hu : u = t
  · subst hu
    simp [homeOf, ht]
  · simp [homeOf, hu]

/-- The threads of kernel thread `k`, the only one, are where their fields say. -/
structure Placed (s : Sched) (k : KthdId) : Prop where
  kthd : s.currentKthd = k
  owner : ∀ t < s.ntasks, (s.tasks t).ownerKthd = k
  homed : Rings.Homed s.queues (homeOf k s.tasks s.ntasks)
  parked : ∀ t < s.ntasks, (s.tasks t).Parked
  /-- Only the owner of a group is inside a wait on it. -/
  waits : ∀ t < s.ntasks, ∀ g, .cgrpWaitLoop g ∈ (s.tasks t).context →
    g < s.ncgrps ∧ (s.cgrps g).owner = t
  cgrpOwner : ∀ g < s.ncgrps, (s.cgrps g).owner < s.ntasks
  /-- The flag `blocked` is up only while the owner has not gone on. -/
  blocked : ∀ g < s.ncgrps, (s.cgrps g).blocked = true →
    (s.tasks (s.cgrps g).owner).context.head? = some (.cgrpWaitLoop g)
  /-- It is up whenever the owner sleeps in the wait. -/
  asleep : ∀ t < s.ntasks, ∀ g, (s.tasks t).Receiving →
    (s.tasks t).context.head? = some (.cgrpWaitLoop g) → (s.cgrps g).blocked = true

structure Running (s : Sched) (k : KthdId) (cur : ThreadId) : Prop where
  current : (s.kthds k).currentThread = some cur
  lt : cur < s.ntasks
  canRun : (s.tasks cur).CanRun

/-- Thread `cur` executes the section at `f` with the frames `rest` below. -/
def At (s : Sched) (cur : ThreadId) (f : Frame) (rest : List Frame) : Prop :=
  (s.tasks cur).context = f :: rest ∨
    (∃ a, f = .call a) ∧ (s.tasks cur).context = [] ∧ rest = []

theorem At.mem (h : s.At cur f rest) {fr : Frame} (hfr : fr ∈ rest) :
    fr ∈ (s.tasks cur).context := by
  rcases h with h | ⟨-, -, rfl⟩
  · rw [h]
    exact List.mem_cons_of_mem _ hfr
  · simp at hfr

theorem At.head (h : s.At cur f rest) {g : CgrpId}
    (hg : (s.tasks cur).context.head? = some (.cgrpWaitLoop g)) : f = .cgrpWaitLoop g := by
  rcases h with h | ⟨-, h, -⟩
  · simpa [h] using hg
  · simp [h] at hg

namespace Placed

variable (hp : s.Placed k)

include hp in
/-- The owner of a sleeping group is not executing anything but the wait. -/
theorem owner_ne (hat : s.At cur f rest) {g : CgrpId} (hf : f ≠ .cgrpWaitLoop g)
    (hg : g < s.ncgrps) (hb : (s.cgrps g).blocked = true) : (s.cgrps g).owner ≠ cur := by
  intro ho
  have := hp.blocked g hg hb
  rw [ho] at this
  exact hf (hat.head this)

include hp in
/-- A thread on a recycle queue is not in a group wait. -/
theorem owner_ne_of_recycle (ht : t ∈ s.queues (.recycle k)) {g : CgrpId}
    (hg : g < s.ncgrps) (hb : (s.cgrps g).blocked = true) : (s.cgrps g).owner ≠ t := by
  intro ho
  have hh := hp.blocked g hg hb
  rw [hp.homed.mem_iff] at ht
  unfold homeOf at ht
  split_ifs at ht with hlt
  obtain ⟨fs, hfs⟩ := (hp.parked t hlt).dead (Task.home_eq_recycle ht).2
  simp [ho, hfs] at hh

include hp in
/-- One thread gets the fields `th` and the place that belongs to them. -/
theorem update (ht : t < s.ntasks) (th : Task) (queues : Rings Queue ThreadId)
    (kthds : KthdId → Kthd) (howner : th.ownerKthd = k)
    (hhomed : Rings.Homed queues (Function.update (homeOf k s.tasks s.ntasks) t (th.home k)))
    (hparked : th.Parked)
    (hwaits : ∀ g, .cgrpWaitLoop g ∈ th.context → g < s.ncgrps ∧ (s.cgrps g).owner = t)
    (hblocked : ∀ g < s.ncgrps, (s.cgrps g).blocked = true → (s.cgrps g).owner = t →
      th.context.head? = some (.cgrpWaitLoop g))
    (hasleep : ∀ g, th.Receiving → th.context.head? = some (.cgrpWaitLoop g) →
      (s.cgrps g).blocked = true) :
    Placed { s with
      tasks := Function.update s.tasks t th, queues := queues, kthds := kthds } k where
  kthd := hp.kthd
  owner u hu := by
    by_cases hut : u = t
    · subst hut
      simpa using howner
    · simpa [hut] using hp.owner u hu
  homed := by rwa [homeOf_update ht]
  parked u hu := by
    by_cases hut : u = t
    · subst hut
      simpa using hparked
    · simpa [hut] using hp.parked u hu
  waits u hu g hg := by
    by_cases hut : u = t
    · subst hut
      exact hwaits g (by simpa using hg)
    · exact hp.waits u hu g (by simpa [hut] using hg)
  cgrpOwner := hp.cgrpOwner
  blocked g hg hb := by
    by_cases hut : (s.cgrps g).owner = t
    · simpa [hut] using hblocked g hg hb hut
    · simpa [hut] using hp.blocked g hg hb
  asleep u hu g hr hh := by
    by_cases hut : u = t
    · subst hut
      exact hasleep g (by simpa using hr) (by simpa using hh)
    · exact hp.asleep u hu g (by simpa [hut] using hr) (by simpa [hut] using hh)

theorem homeOf_of_lt (tasks : ThreadId → Task) {n : ℕ} (ht : t < n) :
    homeOf k tasks n t = (tasks t).home k :=
  if_pos ht

include hp in
theorem mem_iff (ht : t < s.ntasks) {q : Queue} : t ∈ s.queues q ↔ (s.tasks t).home k = some q := by
  rw [hp.homed.mem_iff, homeOf_of_lt _ ht]

include hp in
theorem mem_run_iff : t ∈ s.queues (.run k) ↔ t < s.ntasks ∧ (s.tasks t).CanRun := by
  rw [hp.homed.mem_iff]
  constructor
  · intro h
    unfold homeOf at h
    split_ifs at h with ht
    exact ⟨ht, (Task.home_eq_run h).2⟩
  · rintro ⟨ht, hr⟩
    rw [homeOf_of_lt _ ht, hr.home]

include hp in
theorem mem_recycle_iff :
    t ∈ s.queues (.recycle k) ↔ t < s.ntasks ∧ (s.tasks t).state = .zombies := by
  rw [hp.homed.mem_iff]
  constructor
  · intro h
    unfold homeOf at h
    split_ifs at h with ht
    exact ⟨ht, (Task.home_eq_recycle h).2⟩
  · rintro ⟨ht, hz⟩
    simp [homeOf_of_lt _ ht, Task.home, hz]

include hp in
theorem mem_sender {c : ChanId} (h : t ∈ s.queues (.sender c)) :
    t < s.ntasks ∧ (s.tasks t).Sending ∧ ∃ fs, (s.tasks t).context = .sndRet c :: fs := by
  rw [hp.homed.mem_iff] at h
  unfold homeOf at h
  split_ifs at h with ht
  exact ⟨ht, Task.home_eq_sender h⟩

include hp in
/-- A thread that can run gets other frames. -/
theorem leave (ht : t < s.ntasks) (hr : (s.tasks t).CanRun)
    (hg : ∀ g < s.ncgrps, (s.cgrps g).blocked = true → (s.cgrps g).owner ≠ t) {ctx : List Frame}
    (hctx : ∀ g, .cgrpWaitLoop g ∈ ctx → g < s.ncgrps ∧ (s.cgrps g).owner = t) :
    (s.leave t ctx).Placed k := by
  have hr' : ({ s.tasks t with context := ctx } : Task).CanRun := hr
  refine hp.update ht { s.tasks t with context := ctx } s.queues s.kthds (hp.owner t ht) ?_
    hr'.parked hctx (fun g hlt hb ho => absurd ho (hg g hlt hb))
    fun g hrcv => absurd hrcv hr'.not_receiving
  rw [hr'.home, ← hr.home, ← homeOf_of_lt s.tasks ht, Function.update_eq_self]
  exact hp.homed

include hp in
/-- A thread is resumed. -/
theorem wake (ht : t < s.ntasks) (hcur : cur < s.ntasks) : (s.wake cur t).Placed k := by
  have hr : ({ s.tasks t with state := .runnable } : Task).CanRun := .inl rfl
  refine hp.update ht { s.tasks t with state := .runnable } _ _ (hp.owner t ht) ?_
    hr.parked (hp.waits t ht) (fun g hg hb ho => ho ▸ hp.blocked g hg hb)
    fun g hrcv => absurd hrcv hr.not_receiving
  rw [hr.home, hp.owner cur hcur]
  exact hp.homed.move_append t (.run k)

include hp in
/-- The running thread falls asleep in a receive. -/
theorem sleepRcv (ht : t < s.ntasks) {rcving : Option ChanId} {fr : Frame} {ctx : List Frame}
    (hg : ∀ g < s.ncgrps, (s.cgrps g).blocked = true → (s.cgrps g).owner = t →
      fr = .cgrpWaitLoop g)
    (hctx : ∀ g, .cgrpWaitLoop g ∈ fr :: ctx → g < s.ncgrps ∧ (s.cgrps g).owner = t)
    (hfr : (∃ c, fr = .rcvRet c ∧ rcving = some c) ∨ (∃ c, fr = .syncRcvLoop c ∧ rcving = some c) ∨
      ∃ g, fr = .cgrpWaitLoop g ∧ (s.cgrps g).blocked = true) :
    (s.sleepRcv t rcving (fr :: ctx)).Placed k := by
  refine hp.update ht ⟨.blocked, .receiving, rcving, fr :: ctx, (s.tasks t).ownerKthd⟩ _ _
    (hp.owner t ht) (hp.homed.rem t) ⟨?_, ?_, ?_⟩ hctx ?_ ?_
  · simp [Task.Sending]
  · intro _
    rcases hfr with ⟨c, rfl, rfl⟩ | ⟨c, rfl, rfl⟩ | ⟨g, rfl, -⟩
    · exact .inl ⟨c, ctx, rfl, rfl⟩
    · exact .inr (.inl ⟨c, ctx, rfl, rfl⟩)
    · exact .inr (.inr ⟨g, ctx, rfl⟩)
  · simp
  · intro g hlt hb ho
    rw [hg g hlt hb ho]
    rfl
  · intro g _ hh
    rcases hfr with ⟨c, rfl, -⟩ | ⟨c, rfl, -⟩ | ⟨g', rfl, hb⟩
    · simp at hh
    · simp at hh
    · obtain rfl : g' = g := by simpa using hh
      exact hb

include hp in
/-- The running thread falls asleep behind a send on `c`. -/
theorem sleepSnd (ht : t < s.ntasks) {c : ChanId} {ctx : List Frame}
    (hg : ∀ g < s.ncgrps, (s.cgrps g).blocked = true → (s.cgrps g).owner ≠ t)
    (hctx : ∀ g, .cgrpWaitLoop g ∈ ctx → g < s.ncgrps ∧ (s.cgrps g).owner = t) :
    (s.sleepSnd t c (.sndRet c :: ctx)).Placed k := by
  refine hp.update ht ⟨.blocked, .sending, (s.tasks t).nowRcving, .sndRet c :: ctx,
    (s.tasks t).ownerKthd⟩ _ _ (hp.owner t ht) (hp.homed.move_add t (.sender c)) ⟨?_, ?_, ?_⟩ ?_
    (fun g hlt hb ho => absurd ho (hg g hlt hb)) ?_
  · exact fun _ => ⟨c, ctx, rfl⟩
  · simp [Task.Receiving]
  · simp
  · intro g h
    exact hctx g (by simpa using h)
  · simp [Task.Receiving]

include hp in
/-- The running thread dies. -/
theorem die (ht : t < s.ntasks) {ctx : List Frame}
    (hg : ∀ g < s.ncgrps, (s.cgrps g).blocked = true → (s.cgrps g).owner ≠ t)
    (hctx : ∀ g, .cgrpWaitLoop g ∈ ctx → g < s.ncgrps ∧ (s.cgrps g).owner = t) :
    (s.die t (.died :: ctx)).Placed k := by
  obtain rfl := hp.kthd
  refine hp.update ht { s.tasks t with state := .zombies, context := .died :: ctx } _ _
    (hp.owner t ht) (hp.homed.move_add t (.recycle s.currentKthd)) ⟨?_, ?_, ?_⟩ ?_
    (fun g hlt hb ho => absurd ho (hg g hlt hb)) ?_
  · simp [Task.Sending]
  · simp [Task.Receiving]
  · exact fun _ => ⟨ctx, rfl⟩
  · intro g h
    exact hctx g (by simpa using h)
  · simp [Task.Receiving]

include hp in
/-- A thread moves within the run queue, to a place at the end of it. -/
theorem move (ht : t < s.ntasks) (hr : (s.tasks t).CanRun) {queues : Rings Queue ThreadId}
    (hq : Rings.Homed queues (Function.update (homeOf k s.tasks s.ntasks) t (some (.run k)))) :
    ({ s with queues := queues }).Placed k := by
  rw [← hr.home (k := k), ← homeOf_of_lt s.tasks ht, Function.update_eq_self] at hq
  exact ⟨hp.kthd, hp.owner, hq, hp.parked, hp.waits, hp.cgrpOwner, hp.blocked, hp.asleep⟩

include hp in
/-- A thread is dispatched. -/
theorem dispatch (h : s.Dispatch s') : s'.Placed k ∧ ∃ cur, s'.Running k cur := by
  obtain ⟨t, rest, hq, rfl⟩ := h
  obtain rfl := hp.kthd
  have hmem : t ∈ s.queues (.run s.currentKthd) := by simp [hq]
  obtain ⟨ht, hr⟩ := hp.mem_run_iff.mp hmem
  have hr' : ({ s.tasks t with state := .running } : Task).CanRun := .inr rfl
  refine ⟨hp.update ht { s.tasks t with state := .running } s.queues _ (hp.owner t ht) ?_
    hr'.parked (hp.waits t ht) (fun g hg hb ho => ho ▸ hp.blocked g hg hb)
    fun g hrcv => absurd hrcv hr'.not_receiving, t, by simp, ht, ?_⟩
  · rw [hr'.home, ← hr.home, ← homeOf_of_lt s.tasks ht, Function.update_eq_self]
    exact hp.homed
  · simp [Task.CanRun]

include hp in
/-- A recycled thread starts. -/
theorem recycle (ht : t ∈ s.queues (.recycle k)) (th : Task) :
    ({ s with queues := s.queues.rem t }.spawn t th).Placed k := by
  obtain rfl := hp.kthd
  have hr : ({ th with state := .running, context := [], ownerKthd := s.currentKthd } : Task).CanRun
    := .inr rfl
  refine hp.update (hp.mem_recycle_iff.mp ht).1
    { th with state := .running, context := [], ownerKthd := s.currentKthd }
    _ s.kthds rfl ?_ hr.parked (by simp)
    (fun g hg hb ho => absurd ho (hp.owner_ne_of_recycle ht hg hb))
    fun g hrcv => absurd hrcv hr.not_receiving
  rw [hr.home]
  exact hp.homed.move_add t (.run s.currentKthd)

theorem homeOf_succ (tasks : ThreadId → Task) (n : ℕ) (th : Task) :
    homeOf k (Function.update tasks n th) (n + 1) =
      Function.update (homeOf k tasks n) n (th.home k) := by
  funext u
  by_cases hu : u = n
  · subst hu
    simp [homeOf]
  · have hlt : u < n + 1 ↔ u < n :=
      ⟨fun h => lt_of_le_of_ne (Nat.le_of_lt_succ h) hu, fun h => h.trans (Nat.lt_succ_self n)⟩
    simp [homeOf, hu, hlt]

include hp in
/-- A fresh thread starts. -/
theorem create (th : Task) :
    ({ s.spawn s.ntasks th with ntasks := s.ntasks + 1 }).Placed k := by
  obtain rfl := hp.kthd
  have hr : ({ th with state := .running, context := [], ownerKthd := s.currentKthd } : Task).CanRun
    := .inr rfl
  have hlt : ∀ {u}, u < s.ntasks + 1 → u ≠ s.ntasks → u < s.ntasks :=
    fun h hne => lt_of_le_of_ne (Nat.le_of_lt_succ h) hne
  refine ⟨rfl, fun u hu => ?_, ?_, fun u hu => ?_, fun u hu g hg => ?_, fun g hg => ?_,
    fun g hg hb => ?_, fun u hu g hrcv hh => ?_⟩
  · by_cases hun : u = s.ntasks
    · subst hun
      simp
    · simpa [hun] using hp.owner u (hlt hu hun)
  · refine (hp.homed.add (by simp [homeOf]) (.run s.currentKthd)).congr fun u => ?_
    rw [← hr.home, ← homeOf_succ]
    rfl
  · by_cases hun : u = s.ntasks
    · subst hun
      simpa using hr.parked
    · simpa [hun] using hp.parked u (hlt hu hun)
  · by_cases hun : u = s.ntasks
    · subst hun
      simp at hg
    · exact hp.waits u (hlt hu hun) g (by simpa [hun] using hg)
  · exact (hp.cgrpOwner g hg).trans (Nat.lt_succ_self _)
  · simpa [(hp.cgrpOwner g hg).ne] using hp.blocked g hg hb
  · by_cases hun : u = s.ntasks
    · subst hun
      exact absurd (by simpa using hrcv) hr.not_receiving
    · exact hp.asleep u (hlt hu hun) g (by simpa [hun] using hrcv) (by simpa [hun] using hh)

include hp in
theorem newGroup (hcur : cur < s.ntasks) :
    ({ s.modCgrp s.ncgrps fun _ => ⟨cur, false, false⟩ with ncgrps := s.ncgrps + 1 }).Placed k := by
  have hne : ∀ {g}, g < s.ncgrps → g ≠ s.ncgrps := fun h => h.ne
  refine ⟨hp.kthd, hp.owner, hp.homed, hp.parked, fun u hu g hg => ?_, fun g hg => ?_,
    fun g hg hb => ?_, fun u hu g hrcv hh => ?_⟩
  · obtain ⟨hlt, ho⟩ := hp.waits u hu g hg
    exact ⟨hlt.trans (Nat.lt_succ_self _), by simpa [hne hlt] using ho⟩
  · by_cases hgn : g = s.ncgrps
    · subst hgn
      simpa using hcur
    · simpa [hgn] using hp.cgrpOwner g (by simp at hg; omega)
  · by_cases hgn : g = s.ncgrps
    · subst hgn
      simp at hb
    · simpa [hgn] using hp.blocked g (by simp at hg; omega) (by simpa [hgn] using hb)
  · obtain ⟨hlt, -⟩ := hp.waits u hu g (List.mem_of_head? hh)
    simpa [hne hlt] using hp.asleep u hu g hrcv hh

theorem modCgrp_owner {g : CgrpId} {f : Cgrp → Cgrp} (hf : ∀ gr, (f gr).owner = gr.owner)
    {g' : CgrpId} : ((s.modCgrp g f).cgrps g').owner = (s.cgrps g').owner := by
  by_cases h : g' = g
  · subst h
    simp [hf]
  · simp [h]

include hp in
/-- A group changes, its owner apart. -/
theorem modCgrp {g : CgrpId} {f : Cgrp → Cgrp} (hf : ∀ gr, (f gr).owner = gr.owner)
    (hb : (f (s.cgrps g)).blocked = true → g < s.ncgrps →
      (s.tasks (s.cgrps g).owner).context.head? = some (.cgrpWaitLoop g))
    (ha : ∀ t < s.ntasks, (s.tasks t).Receiving →
      (s.tasks t).context.head? = some (.cgrpWaitLoop g) → (f (s.cgrps g)).blocked = true) :
    (s.modCgrp g f).Placed k := by
  refine ⟨hp.kthd, hp.owner, hp.homed, hp.parked, fun u hu g' hg' => ?_, fun g' hg' => ?_,
    fun g' hg' hb' => ?_, fun u hu g' hrcv hh => ?_⟩
  · rw [modCgrp_owner hf]
    exact hp.waits u hu g' hg'
  · rw [modCgrp_owner hf]
    exact hp.cgrpOwner g' hg'
  · rw [modCgrp_owner hf]
    by_cases h : g' = g
    · subst h
      exact hb (by simpa using hb') hg'
    · exact hp.blocked g' hg' (by simpa [h] using hb')
  · by_cases h : g' = g
    · subst h
      simpa using ha u hu hrcv hh
    · simpa [h] using hp.asleep u hu g' hrcv hh

include hp in
theorem freeGroup (g : CgrpId) : (s.modCgrp g fun gr => { gr with freed := true }).Placed k :=
  hp.modCgrp (fun _ => rfl) (fun hb hg => hp.blocked g hg hb) fun t ht => hp.asleep t ht g

include hp in
/-- The owner of a group has found an event. -/
theorem waitDone {g : CgrpId} (ht : t < s.ntasks) (hr : (s.tasks t).CanRun)
    (hg : .cgrpWaitLoop g ∈ (s.tasks t).context) :
    (s.modCgrp g fun gr => { gr with blocked := false }).Placed k := by
  refine hp.modCgrp (fun _ => rfl) (by simp) fun u hu hrcv hh => ?_
  -- the thread asleep in this wait would be the one that runs
  have hu' := (hp.waits u hu g (List.mem_of_head? hh)).2
  rw [(hp.waits t ht g hg).2] at hu'
  subst hu'
  exact absurd hrcv hr.not_receiving

include hp in
/-- The owner of a group is about to sleep. -/
theorem waitBlock {g : CgrpId} (ht : t < s.ntasks)
    (hg : (s.tasks t).context.head? = some (.cgrpWaitLoop g)) :
    (s.modCgrp g fun gr => { gr with blocked := true }).Placed k := by
  refine hp.modCgrp (fun _ => rfl) (fun _ hlt => ?_) fun _ _ _ _ => rfl
  rw [(hp.waits t ht g (List.mem_of_head? hg)).2]
  exact hg

include hp in
/-- In a single kernel thread a thread is adopted by its own. -/
theorem adopt (ht : t < s.ntasks) :
    (s.modTask t fun th => { th with ownerKthd := s.currentKthd }) = s := by
  have : ({ s.tasks t with ownerKthd := s.currentKthd } : Task) = s.tasks t := by
    rw [hp.kthd, ← hp.owner t ht]
  rw [Sched.modTask, this, Function.update_eq_self]

include hp in
theorem wakes_lt (h : s.Wakes f t) : t < s.ntasks := by
  cases h with
  | handOff c d hf hlt => exact hlt
  | sender c hf ht => exact (hp.mem_sender (List.mem_of_head? ht)).1
  | group c d g hf hg hb ht => exact ht ▸ hp.cgrpOwner g hg

end Placed

section Effect

variable (hp : s.Placed k) (hrun : s.Running k cur) (hat : s.At cur f rest)

theorem Placed.modKthd (hp : s.Placed k) (k' : KthdId) (f : Kthd → Kthd) :
    (s.modKthd k' f).Placed k :=
  ⟨hp.kthd, hp.owner, hp.homed, hp.parked, hp.waits, hp.cgrpOwner, hp.blocked, hp.asleep⟩

theorem Running.leave (hrun : s.Running k cur) (ctx : List Frame) :
    (s.leave cur ctx).Running k cur :=
  ⟨hrun.current, hrun.lt, by simpa [Task.CanRun] using hrun.canRun⟩

theorem Running.modKthd (hrun : s.Running k cur) (k' : KthdId) {f : Kthd → Kthd}
    (hf : ∀ kt, (f kt).currentThread = kt.currentThread) : (s.modKthd k' f).Running k cur := by
  refine ⟨?_, hrun.lt, hrun.canRun⟩
  by_cases h : k = k'
  · subst h
    simpa [hf] using hrun.current
  · simpa [h] using hrun.current

theorem Running.wake (hrun : s.Running k cur) (t : ThreadId) : (s.wake cur t).Running k cur := by
  refine ⟨?_, hrun.lt, ?_⟩
  · by_cases h : k = s.currentKthd
    · subst h
      simpa using hrun.current
    · simpa [h] using hrun.current
  · by_cases h : cur = t
    · subst h
      simp [Task.CanRun]
    · simpa [h] using hrun.canRun

theorem Running.spawn (hrun : s.Running k cur) (t : ThreadId) (th : Task) :
    (s.spawn t th).Running k cur := by
  refine ⟨hrun.current, hrun.lt, ?_⟩
  by_cases h : cur = t
  · subst h
    simp [Task.CanRun]
  · simpa [h] using hrun.canRun

include hp hrun hat in
/-- The running thread goes on with the frames below its section, in a state
that differs from `s` in other things than groups and contexts. -/
theorem Placed.leave_rest {s₁ : Sched} (hp₁ : s₁.Placed k) (hrun₁ : s₁.Running k cur)
    (hf : ∀ g, f ≠ .cgrpWaitLoop g) (hn : s₁.ncgrps = s.ncgrps) (hc : s₁.cgrps = s.cgrps)
    (fs : List Frame)
    (hfs : ∀ g, .cgrpWaitLoop g ∈ fs → g < s.ncgrps ∧ (s.cgrps g).owner = cur) :
    (s₁.leave cur (fs ++ rest)).Placed k ∧ (s₁.leave cur (fs ++ rest)).Running k cur := by
  refine ⟨hp₁.leave hrun₁.lt hrun₁.canRun (fun g hg hb => ?_) fun g hg => ?_, hrun₁.leave _⟩
  · rw [hn] at hg
    rw [hc] at hb ⊢
    exact hp.owner_ne hat (hf g) hg hb
  · rw [hn, hc]
    rcases List.mem_append.mp hg with hg | hg
    · exact hfs g hg
    · exact hp.waits cur hrun.lt g (hat.mem hg)

include hp hrun hat in
/-- The same after a change of a group. -/
theorem Placed.modCgrp_leave {g : CgrpId} {f' : Cgrp → Cgrp} (hp₁ : (s.modCgrp g f').Placed k)
    (hf' : ∀ gr, (f' gr).owner = gr.owner)
    (hg : ∀ g' < s.ncgrps, ((s.modCgrp g f').cgrps g').blocked = true → (s.cgrps g').owner ≠ cur) :
    ((s.modCgrp g f').leave cur rest).Placed k ∧
      ((s.modCgrp g f').leave cur rest).Running k cur := by
  refine ⟨hp₁.leave hrun.lt hrun.canRun (fun g' hg' hb => ?_) fun g' hg' => ?_,
    Running.leave (s := s.modCgrp g f') ⟨hrun.current, hrun.lt, hrun.canRun⟩ _⟩
  · rw [modCgrp_owner hf']
    exact hg g' hg' hb
  · rw [modCgrp_owner hf']
    exact hp.waits cur hrun.lt g' (hat.mem hg')

theorem At.eq (hat : s.At cur f rest) (hf : ∀ a, f ≠ .call a) :
    (s.tasks cur).context = f :: rest := by
  rcases hat with h | ⟨⟨a, h⟩, -⟩
  · exact h
  · exact absurd h (hf a)

section Acts

include hp hrun hat

theorem Placed.wake_leave (hw : s.Wakes f t) :
    ((s.wake cur t).leave cur rest).Placed k ∧ ((s.wake cur t).leave cur rest).Running k cur := by
  have hf : ∀ g, f ≠ .cgrpWaitLoop g := by
    cases hw <;> simp [*]
  have hwake := hp.wake (hp.wakes_lt hw) hrun.lt
  exact hp.leave_rest hrun hat hwake (hrun.wake t) hf rfl rfl [] (by simp)

theorem Placed.recycle_leave (hf : ∀ g, f ≠ .cgrpWaitLoop g)
    (ht : (s.queues (.recycle s.currentKthd)).head? = some t) (th : Task) :
    (({ s with queues := s.queues.rem t }.spawn t th).leave cur rest).Placed k ∧
      (({ s with queues := s.queues.rem t }.spawn t th).leave cur rest).Running k cur := by
  rw [hp.kthd] at ht
  have hrun₁ : ({ s with queues := s.queues.rem t } : Sched).Running k cur :=
    ⟨hrun.current, hrun.lt, hrun.canRun⟩
  exact hp.leave_rest hrun hat (hp.recycle (List.mem_of_head? ht) _) (hrun₁.spawn t _) hf rfl rfl
    [] (by simp)

theorem Placed.create_leave (hf : ∀ g, f ≠ .cgrpWaitLoop g) (th : Task) :
    ({ s.spawn s.ntasks th with ntasks := s.ntasks + 1 }.leave cur rest).Placed k ∧
      ({ s.spawn s.ntasks th with ntasks := s.ntasks + 1 }.leave cur rest).Running k cur := by
  have hrun₁ := hrun.spawn s.ntasks th
  exact hp.leave_rest hrun hat (hp.create th)
    ⟨hrun₁.current, hrun₁.lt.trans (Nat.lt_succ_self _), hrun₁.canRun⟩ hf rfl rfl [] (by simp)

theorem Placed.newGroup_leave (hf : ∀ g, f ≠ .cgrpWaitLoop g) :
    ({ s.modCgrp s.ncgrps fun _ => ⟨cur, false, false⟩ with
        ncgrps := s.ncgrps + 1 }.leave cur rest).Placed k ∧
      ({ s.modCgrp s.ncgrps fun _ => ⟨cur, false, false⟩ with
        ncgrps := s.ncgrps + 1 }.leave cur rest).Running k cur := by
  refine ⟨(hp.newGroup hrun.lt).leave hrun.lt hrun.canRun (fun g hg hb => ?_) fun g hg => ?_,
    Running.leave (s := { s.modCgrp s.ncgrps _ with ncgrps := s.ncgrps + 1 })
      ⟨hrun.current, hrun.lt, hrun.canRun⟩ _⟩
  · by_cases hgn : g = s.ncgrps
    · subst hgn
      simp at hb
    · have hlt : g < s.ncgrps := lt_of_le_of_ne (Nat.le_of_lt_succ hg) hgn
      simpa [hgn] using hp.owner_ne hat (hf g) hlt (by simpa [hgn] using hb)
  · obtain ⟨hlt, ho⟩ := hp.waits cur hrun.lt g (hat.mem hg)
    exact ⟨hlt.trans (Nat.lt_succ_self _), by simpa [hlt.ne] using ho⟩

theorem Placed.freeGroup_leave (hf : ∀ g, f ≠ .cgrpWaitLoop g) (g : CgrpId) :
    ((s.modCgrp g fun gr => { gr with freed := true }).leave cur rest).Placed k ∧
      ((s.modCgrp g fun gr => { gr with freed := true }).leave cur rest).Running k cur := by
  refine hp.modCgrp_leave hrun hat (hp.freeGroup g) (fun _ => rfl) fun g' hg' hb =>
    hp.owner_ne hat (hf g') hg' ?_
  by_cases h : g' = g
  · subst h
    simpa using hb
  · simpa [h] using hb

theorem Placed.waitDone_leave {g : CgrpId} (hf : f = .cgrpWaitLoop g) :
    ((s.modCgrp g fun gr => { gr with blocked := false }).leave cur rest).Placed k ∧
      ((s.modCgrp g fun gr => { gr with blocked := false }).leave cur rest).Running k cur := by
  subst hf
  have hctx := hat.eq (by simp)
  refine hp.modCgrp_leave hrun hat (hp.waitDone hrun.lt hrun.canRun (by simp [hctx]))
    (fun _ => rfl) fun g' hg' hb => ?_
  by_cases h : g' = g
  · subst h
    simp at hb
  · exact hp.owner_ne hat (by simpa using Ne.symm h) hg' (by simpa [h] using hb)

theorem Placed.sleepRcv_act {rcving : Option ChanId} {fr : Frame} (hf : SleepsAt f rcving fr) :
    (s.sleepRcv cur rcving (fr :: rest)).Placed k := by
  have hne : ∀ g, f ≠ .cgrpWaitLoop g := by
    cases hf <;> simp [*]
  refine hp.sleepRcv hrun.lt (fun g hg hb ho => absurd ho (hp.owner_ne hat (hne g) hg hb))
    (fun g hg => hp.waits cur hrun.lt g (hat.mem ?_)) ?_
  · cases hf <;> simpa using hg
  · cases hf with
    | rcv c => exact .inl ⟨c, rfl, rfl⟩
    | sync c => exact .inr (.inl ⟨c, rfl, rfl⟩)

theorem Placed.sleepGroup_act {g : CgrpId} (hf : f = .cgrpWaitLoop g) :
    ((s.modCgrp g fun gr => { gr with blocked := true }).sleepRcv cur (s.tasks cur).nowRcving
      (.cgrpWaitLoop g :: rest)).Placed k := by
  subst hf
  have hctx := hat.eq (by simp)
  have hp₁ := hp.waitBlock hrun.lt (g := g) (by simp [hctx])
  refine hp₁.sleepRcv hrun.lt (fun g' hg' hb ho => ?_) (fun g' hg' => ?_)
    (.inr (.inr ⟨g, rfl, by simp⟩))
  · have hhead := hp₁.blocked g' hg' hb
    rw [ho] at hhead
    simpa [hctx] using hhead
  · refine hp₁.waits cur hrun.lt g' ?_
    rw [← hctx] at hg'
    exact hg'

/-- Every section keeps the placement of the threads, and its thread can go on
unless it ends in `__lwt_schedule`. -/
theorem Act.placed {b : Bool} {s₁ : Sched}
    (howner : ∀ g, f = .call (.lwtCgrpWait g) → (s.cgrps g).owner = cur)
    (h : s.Act cur f rest b s₁) : s₁.Placed k ∧ (b = false → s₁.Running k cur) := by
  have hrest : ∀ g, .cgrpWaitLoop g ∈ rest → g < s.ncgrps ∧ (s.cgrps g).owner = cur :=
    fun g hg => hp.waits cur hrun.lt g (hat.mem hg)
  have stay {s₁ : Sched} (h : s₁.Placed k ∧ s₁.Running k cur) :
      s₁.Placed k ∧ (false = false → s₁.Running k cur) := ⟨h.1, fun _ => h.2⟩
  have switch {s₁ : Sched} (h : s₁.Placed k) : s₁.Placed k ∧ (true = false → s₁.Running k cur) :=
    ⟨h, fun h => by cases h⟩
  cases h with
  | quiet fs hf hpush hfs =>
    exact stay (hp.leave_rest hrun hat hp hrun hf rfl rfl fs fun g hg =>
      ⟨(hfs g hg).2, howner g (hfs g hg).1⟩)
  | lastWord fs hf hpush hfs =>
    obtain ⟨d, rfl⟩ := hf
    exact stay (hp.leave_rest hrun hat (hp.modKthd _ _) (hrun.modKthd _ (by simp)) (by simp) rfl rfl
      fs fun g hg => absurd hg (hfs g))
  | slThdBlock st hf =>
    subst hf
    exact stay (hp.leave_rest hrun hat (hp.modKthd _ _) (hrun.modKthd _ (by simp)) (by simp) rfl rfl
      _ (by simp))
  | wake t hw => exact stay (hp.wake_leave hrun hat hw)
  | recycle t fl mem hf ht => exact stay (hp.recycle_leave hrun hat (by simp [hf]) ht _)
  | create th fl mem hf => exact stay (hp.create_leave hrun hat (by simp [hf]) th)
  | newGroup mem hf => exact stay (hp.newGroup_leave hrun hat (by simp [hf]))
  | freeGroup g hf => exact stay (hp.freeGroup_leave hrun hat (by simp [hf]) g)
  | waitDone g hf => exact stay (hp.waitDone_leave hrun hat hf)
  | adopt t hf ht =>
    rw [hp.adopt ht]
    exact stay (hp.leave_rest hrun hat hp hrun (by simp [hf]) rfl rfl [] (by simp))
  | adoptMove t hf ht hr =>
    rw [hp.adopt ht, hp.owner cur hrun.lt]
    exact stay (hp.leave_rest hrun hat (hp.move ht (.inl hr) (hp.homed.move_append t (.run k)))
      ⟨hrun.current, hrun.lt, hrun.canRun⟩ (by simp [hf]) rfl rfl [] (by simp))
  | yield hf hr =>
    obtain ⟨hp₁, -⟩ := hp.leave_rest hrun hat hp hrun (by simp [hf]) rfl rfl [] (by simp)
    rw [hp.owner cur hrun.lt]
    exact switch (hp₁.move hrun.lt (hrun.leave _).canRun (hp₁.homed.move_add cur (.run k)))
  | yieldTo t hf ht hr =>
    obtain ⟨hp₁, -⟩ := hp.leave_rest hrun hat hp hrun (by simp [hf]) rfl rfl [] (by simp)
    rw [hp.owner cur hrun.lt]
    exact switch (hp₁.move ht ((leave_canRun ..).mpr hr) (hp₁.homed.move_append t (.run k)))
  | idle fs hf hpush hfs hr =>
    exact switch (hp.leave_rest hrun hat hp hrun hf rfl rfl fs fun g hg => absurd hg (hfs g)).1
  | sleepRcv rcving fr hf => exact switch (hp.sleepRcv_act hrun hat hf)
  | sleepGroup g hf => exact switch (hp.sleepGroup_act hrun hat hf)
  | sleepSnd c d hf =>
    exact switch (hp.sleepSnd hrun.lt (fun g hg hb => hp.owner_ne hat (by simp [hf]) hg hb) hrest)
  | wakeSleepSnd t c d hf hw =>
    exact switch ((hp.wake (hp.wakes_lt hw) hrun.lt).sleepSnd hrun.lt
      (fun g hg hb => hp.owner_ne hat (by simp [hf]) hg hb) hrest)
  | die hf =>
    exact switch (hp.die hrun.lt (fun g hg hb => hp.owner_ne hat (by simp [hf]) hg hb) hrest)

end Acts

include hp hrun hat in
theorem Effect.placed (howner : ∀ g, f = .call (.lwtCgrpWait g) → (s.cgrps g).owner = cur)
    (h : s.Effect cur f rest s') : s'.Placed k ∧ ∃ cur', s'.Running k cur' := by
  cases h with
  | stay h =>
    obtain ⟨hp', hrun'⟩ := h.placed hp hrun hat howner
    exact ⟨hp', cur, hrun' rfl⟩
  | switch h hd => exact (h.placed hp hrun hat howner).1.dispatch hd

end Effect

section Sender

variable {c : ChanId} (hp : s.Placed k) (hrun : s.Running k cur) (hat : s.At cur f rest)

theorem append_run_sender (r : Rings Queue ThreadId) (k : KthdId) (t : ThreadId) :
    r.append (.run k) t (.sender c) = r (.sender c) :=
  r.append_of_ne t (by simp)

theorem add_run_sender (r : Rings Queue ThreadId) (k : KthdId) (t : ThreadId) :
    r.add (.run k) t (.sender c) = r (.sender c) :=
  r.add_of_ne t (by simp)

theorem add_recycle_sender (r : Rings Queue ThreadId) (k : KthdId) (t : ThreadId) :
    r.add (.recycle k) t (.sender c) = r (.sender c) :=
  r.add_of_ne t (by simp)

theorem add_sender_sender (r : Rings Queue ThreadId) {c' : ChanId} (t : ThreadId) (h : c' ≠ c) :
    r.add (.sender c') t (.sender c) = r (.sender c) :=
  r.add_of_ne t (by simpa using h.symm)

theorem wake_sender (cur t : ThreadId) :
    (s.wake cur t).queues (.sender c) = s.queues.rem t (.sender c) :=
  append_run_sender (s.queues.rem t) (s.tasks cur).ownerKthd t

theorem rem_sender (ht : t ∉ s.queues (.sender c)) :
    s.queues.rem t (.sender c) = s.queues (.sender c) :=
  s.queues.rem_of_not_mem ht

include hp in
theorem Placed.not_mem_sender (ht : ¬ (s.tasks t).Sending) : t ∉ s.queues (.sender c) :=
  fun h => ht (hp.mem_sender h).2.1

include hp in
/-- Only `lwt_rcv` on the channel takes a thread off a sender queue. -/
theorem Wakes.mem_sender (h : s.Wakes f t) (ht : t ∈ s.queues (.sender c)) :
    f = .call (.lwtRcv c) := by
  obtain ⟨hlt, hs, fs, hctx⟩ := hp.mem_sender ht
  cases h with
  | handOff c' d hf _ hr => exact absurd hr (by simp [Task.Receiving, hs.2])
  | sender c' hf hq =>
    obtain rfl : c' = c := by
      simpa using hp.homed.unique (List.mem_of_head? hq) ht
    exact hf
  | group c' d g hf hg hb ho =>
    have := hp.blocked g hg hb
    simp [ho, hctx] at this

include hp hrun in
/-- A sender queue changes only in `lwt_snd` and `lwt_rcv` on its channel. -/
theorem Act.sender_eq {b : Bool} {s₁ : Sched} (hs : ∀ d, f ≠ .call (.lwtSnd c d))
    (hr : f ≠ .call (.lwtRcv c)) (h : s.Act cur f rest b s₁) :
    s₁.queues (.sender c) = s.queues (.sender c) := by
  have hcur : s.queues.rem cur (.sender c) = s.queues (.sender c) :=
    rem_sender (hp.not_mem_sender hrun.canRun.not_sending)
  have hwake {t : ThreadId} (hw : s.Wakes f t) :
      s.queues.rem t (.sender c) = s.queues (.sender c) :=
    rem_sender fun ht => hr (hw.mem_sender hp ht)
  have hcanRun {t : ThreadId} (ht : (s.tasks t).CanRun) :
      s.queues.rem t (.sender c) = s.queues (.sender c) :=
    rem_sender (hp.not_mem_sender ht.not_sending)
  cases h with
  | quiet | lastWord | slThdBlock | newGroup | freeGroup | waitDone | adopt | idle => rfl
  | wake t hw => exact (wake_sender cur t).trans (hwake hw)
  | recycle t fl mem hf ht =>
    refine (add_run_sender (s.queues.rem t) s.currentKthd t).trans (rem_sender fun h => ?_)
    simpa using hp.homed.unique h (List.mem_of_head? ht)
  | create => exact add_run_sender s.queues s.currentKthd s.ntasks
  | adoptMove t hf ht hr =>
    rw [hp.adopt ht]
    exact (append_run_sender (s.queues.rem t) (s.tasks cur).ownerKthd t).trans (hcanRun (.inl hr))
  | yield =>
    exact (add_run_sender (s.queues.rem cur) (s.tasks cur).ownerKthd cur).trans hcur
  | yieldTo t hf ht hr =>
    exact (append_run_sender (s.queues.rem t) (s.tasks cur).ownerKthd t).trans (hcanRun hr)
  | sleepRcv | sleepGroup => exact hcur
  | sleepSnd c' d hf =>
    have hne : c' ≠ c := fun h => hs d (by rw [hf, h])
    exact (add_sender_sender (s.queues.rem cur) cur hne).trans hcur
  | wakeSleepSnd t c' d hf hw =>
    have hne : c' ≠ c := fun h => hs d (by rw [hf, h])
    refine (add_sender_sender ((s.wake cur t).queues.rem cur) cur hne).trans ?_
    exact (congrArg (List.erase · cur) ((wake_sender cur t).trans (hwake hw))).trans hcur
  | die => exact (add_recycle_sender (s.queues.rem cur) s.currentKthd cur).trans hcur

theorem Dispatch.queues (h : s.Dispatch s') : s'.queues = s.queues := by
  obtain ⟨t, rest, -, rfl⟩ := h
  rfl

include hp hrun in
theorem Effect.sender_eq (hs : ∀ d, f ≠ .call (.lwtSnd c d)) (hr : f ≠ .call (.lwtRcv c))
    (h : s.Effect cur f rest s') : s'.queues (.sender c) = s.queues (.sender c) := by
  cases h with
  | stay h => exact h.sender_eq hp hrun hs hr
  | switch h hd =>
    rw [hd.queues]
    exact h.sender_eq hp hrun hs hr

end Sender

end Sched

end Lwt
