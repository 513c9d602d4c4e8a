import Mathlib.Algebra.BigOperators.Group.List.Basic
import Lwt.Lib.Count
import Lwt.Accounting
import Lwt.Exit

/-! What every thread has put on the counters `block_counter` and `zombie_counter` of its
kernel thread. The block counter is the sum of the shares of the threads, read off the history;
a thread that waits on the run queue, or for its structure to be used again, has got back all
that it had put there. The zombie counter is the number of threads inside `lwt_die`. -/

namespace Lwt

open State

variable {σ τ σ' σ₀ : State} {l : Label} {cur t u : ThreadId} {f : Frame} {rest : List Frame}
  {c : ChanId} {d : Data} {n : Next} {k : KthdId} {e : Event} {bf : BlockStatus}

/-- What `e` adds to the block counter on behalf of `t`. -/
def Event.share (t : ThreadId) : Event → ℤ
  | .block u _ => if u = t then 1 else 0
  | .resume u _ _ _ => if u = t then -1 else 0
  | _ => 0

/-- What all events together have added to the block counter on behalf of `t`. -/
def State.blockShare (σ : State) (t : ThreadId) : ℤ := (σ.history.map (Event.share t)).sum

/-- The block counter of `k` is the sum of the shares. Nobody has more than one share, and who
can run or has died has none. -/
structure State.Ledger (σ : State) (k : KthdId) : Prop where
  total : (σ.kthds k).blockCounter = ∑ t ∈ Finset.range σ.nthreads, σ.blockShare t
  fresh : ∀ t, σ.nthreads ≤ t → σ.blockShare t = 0
  le_one : ∀ t, σ.blockShare t ≤ 1
  queued : ∀ t, t ∈ σ.queues (.run k) ∨ t ∈ σ.queues (.recycle k) → σ.blockShare t ≤ 0

def Event.Uncounted (e : Event) : Prop := ∀ t, e.share t = 0

theorem blockShare_append {es : List Event} (h : τ.history = σ.history ++ es) (t : ThreadId) :
    τ.blockShare t = σ.blockShare t + (es.map (Event.share t)).sum := by
  simp [State.blockShare, h]

theorem blockShare_quiet {es : List Event} (h : τ.history = σ.history ++ es)
    (hes : ∀ e ∈ es, e.Uncounted) (t : ThreadId) : τ.blockShare t = σ.blockShare t := by
  rw [blockShare_append h, List.sum_eq_zero, add_zero]
  simpa using fun e he => hes e he t

/-- The share of one thread changes, and the sum of all by as much. -/
theorem sum_share {N : ℕ} {a b : ℕ → ℤ} {x : ℤ} (ht : t < N)
    (h : ∀ u, b u = a u + if t = u then x else 0) :
    ∑ u ∈ Finset.range N, b u = ∑ u ∈ Finset.range N, a u + x := by
  simp only [h, Finset.sum_add_distrib, Finset.sum_ite_eq, Finset.mem_range, ht, if_true]

theorem finish_nthreads (h : σ.finish cur rest n = .ok τ) : τ.nthreads = σ.nthreads := by
  cases n with
  | ret d => cases h; rfl
  | goto fs => cases h; rfl
  | schedule fs =>
    obtain ⟨t, l, -, rfl⟩ := lwtSchedule_ok h
    rfl

theorem finish_counters (h : σ.finish cur rest n = .ok τ) :
    (τ.kthds k).blockCounter = (σ.kthds k).blockCounter ∧
      (τ.kthds k).zombieCounter = (σ.kthds k).zombieCounter := by
  cases n with
  | ret d => cases h; exact ⟨rfl, rfl⟩
  | goto fs => cases h; exact ⟨rfl, rfl⟩
  | schedule fs =>
    obtain ⟨t, l, -, rfl⟩ := lwtSchedule_ok h
    by_cases hk : k = σ.currentKthd
    · subst hk
      simp
    · simp [hk]

namespace State.Ledger

variable (hL : σ.Ledger k)

include hL in
/-- Nothing is counted, and who can run or has died could before, or has just been made. -/
theorem quiet (es : List Event) (he : τ.history = σ.history ++ es)
    (hes : ∀ e ∈ es, e.Uncounted) (hn : σ.nthreads ≤ τ.nthreads)
    (hc : (τ.kthds k).blockCounter = (σ.kthds k).blockCounter)
    (hq : ∀ t, t ∈ τ.queues (.run k) ∨ t ∈ τ.queues (.recycle k) →
      σ.nthreads ≤ t ∨ t ∈ σ.queues (.run k) ∨ t ∈ σ.queues (.recycle k)) : τ.Ledger k where
  total := by
    rw [hc, hL.total]
    simp only [blockShare_quiet he hes]
    refine Finset.sum_subset (Finset.range_subset_range.mpr hn) fun t _ ht => ?_
    exact hL.fresh t (not_lt.mp fun h => ht (Finset.mem_range.mpr h))
  fresh t ht := (blockShare_quiet he hes t).trans (hL.fresh t (hn.trans ht))
  le_one t := (blockShare_quiet he hes t).trans_le (hL.le_one t)
  queued t ht := by
    rw [blockShare_quiet he hes]
    rcases hq t ht with h | h
    · exact (hL.fresh t h).le
    · exact hL.queued t h

include hL in
/-- `__resume_thread` takes the share of the thread back. -/
theorem resumeThread (hk : σ.currentKthd = k) (ht : t < σ.nthreads) :
    (σ.resumeThread cur t).Ledger k := by
  have hshare (u : ThreadId) : (σ.resumeThread cur t).blockShare u =
      σ.blockShare u + if t = u then -1 else 0 := by
    have he : (σ.resumeThread cur t).history = σ.history ++
      [.resume t σ.currentKthd (σ.threads cur).ownerKthd (σ.threads t).ownerKthd] := rfl
    rw [blockShare_append he]
    simp [Event.share]
  have hle (u : ThreadId) : (σ.resumeThread cur t).blockShare u ≤ σ.blockShare u := by
    rw [hshare]
    split_ifs <;> omega
  refine ⟨?_, fun u hu => ?_, fun u => (hle u).trans (hL.le_one u), fun u hu => ?_⟩
  · have hc : ((σ.resumeThread cur t).kthds k).blockCounter = (σ.kthds k).blockCounter - 1 := by
      simp [State.resumeThread, hk]
    rw [hc, hL.total]
    exact (sum_share ht hshare).symm
  · have hu : σ.nthreads ≤ u := hu
    rw [hshare, if_neg (ht.trans_le hu).ne, add_zero]
    exact hL.fresh u hu
  · by_cases htu : t = u
    · have h1 := hL.le_one u
      rw [hshare, if_pos htu]
      omega
    · refine (hle u).trans (hL.queued u ?_)
      have hmem {q : Queue} (h : u ∈ (σ.resumeThread cur t).queues q) : u ∈ σ.queues q := by
        have h : u ∈ (σ.queues.rem t).append (σ.ownerRunQueue cur) t q := h
        by_cases hqq : q = σ.ownerRunQueue cur
        · subst hqq
          rw [Rings.append_self, Rings.mem_beforeLast, Rings.rem_apply] at h
          exact List.mem_of_mem_erase (h.resolve_left (Ne.symm htu))
        · rw [Rings.append_of_ne _ _ hqq, Rings.rem_apply] at h
          exact List.mem_of_mem_erase h
      exact hu.imp hmem hmem

include hL in
/-- A thread that falls asleep gets a share. -/
theorem countBlocked (hk : σ.currentKthd = k) (hnd : ∀ q, (σ.queues q).Nodup)
    (hlt : cur < σ.nthreads) (hcur : cur ∈ σ.queues (.run k)) :
    (σ.countBlocked cur bf).Ledger k := by
  have hshare (u : ThreadId) : (σ.countBlocked cur bf).blockShare u =
      σ.blockShare u + if cur = u then 1 else 0 := by
    have he : (σ.countBlocked cur bf).history = σ.history ++ [.block cur σ.currentKthd] := rfl
    rw [blockShare_append he]
    simp [Event.share]
  refine ⟨?_, fun u hu => ?_, fun u => ?_, fun u hu => ?_⟩
  · have hc : ((σ.countBlocked cur bf).kthds k).blockCounter = (σ.kthds k).blockCounter + 1 := by
      simp [State.countBlocked, hk]
    rw [hc, hL.total]
    exact (sum_share hlt hshare).symm
  · have hu : σ.nthreads ≤ u := hu
    rw [hshare, if_neg (hlt.trans_le hu).ne, add_zero]
    exact hL.fresh u hu
  · rw [hshare]
    split_ifs with hcu
    · have h0 := hL.queued u (.inl (hcu ▸ hcur))
      omega
    · rw [add_zero]
      exact hL.le_one u
  · have hmem {q : Queue} (h : u ∈ (σ.countBlocked cur bf).queues q) :
        cur ≠ u ∧ u ∈ σ.queues q := by
      have h : u ∈ (σ.queues q).erase cur := h
      refine ⟨?_, List.mem_of_mem_erase h⟩
      rintro rfl
      exact (hnd q).not_mem_erase h
    have hne : cur ≠ u := by
      rcases hu with h | h
      · exact (hmem h).1
      · exact (hmem h).1
    rw [hshare, if_neg hne, add_zero]
    exact hL.queued u (hu.imp (fun h => (hmem h).2) fun h => (hmem h).2)

include hL in
/-- Other parts of the state change. -/
theorem same (he : τ.history = σ.history) (hq : τ.queues = σ.queues)
    (hn : τ.nthreads = σ.nthreads)
    (hc : (τ.kthds k).blockCounter = (σ.kthds k).blockCounter) : τ.Ledger k :=
  hL.quiet [] (by simp [he]) (by simp) hn.ge hc fun _ ht => .inr (by rwa [hq] at ht)

include hL in
theorem emit (he : e.Uncounted) : (σ.emit e).Ledger k :=
  hL.quiet [e] rfl (by simpa using he) le_rfl rfl fun _ ht => .inr ht

include hL in
theorem modChan (f : Chan → Chan) : (σ.modChan c f).Ledger k := hL.same rfl rfl rfl rfl

include hL in
theorem modThread (f : Thread → Thread) : (σ.modThread t f).Ledger k := hL.same rfl rfl rfl rfl

include hL in
theorem finish (h : σ.finish cur rest n = .ok τ) : τ.Ledger k := by
  have hnet : τ.history = σ.history := congrArg Net.history (finish_net h)
  refine hL.same hnet (finish_queues h) (finish_nthreads h) (finish_counters h).1

include hL in
/-- The group wake-up of `lwt_snd`. -/
theorem wakeGroup {cgroup : Option CgrpId} (hp : σ.sched.Placed k)
    (h : WakeGroup (σ.modChan c fun ch => { ch with ready := 1 }) cur cgroup τ) : τ.Ledger k := by
  have hL' := hL.modChan (c := c) fun ch => { ch with ready := 1 }
  cases h with
  | skip => exact hL'
  | wake g _ hg => exact hL'.resumeThread hp.kthd (hp.cgrpOwner g hg)

include hL in
theorem lwtSnd (hp : σ.sched.Placed k) (hrun : σ.sched.Running k cur)
    (h : LwtSnd σ cur c d σ' n) : σ'.Ledger k := by
  cases h with
  | sync => exact (hL.modChan _).emit (by simp [Event.Uncounted, Event.share])
  | noReceiver => exact hL.emit (by simp [Event.Uncounted, Event.share])
  | handOff r _ _ hlt =>
    refine Ledger.emit (Ledger.emit (Ledger.resumeThread (hL.modThread _) hp.kthd hlt) ?_) ?_
    · simp [Event.Uncounted, Event.share]
    · simp [Event.Uncounted, Event.share]
  | ring r σ₁ _ _ _ hwk =>
    refine Ledger.emit (Ledger.modChan (Ledger.emit (hL.wakeGroup hp hwk) ?_) _) ?_
    · simp [Event.Uncounted, Event.share]
    · simp [Event.Uncounted, Event.share]
  | block r σ₁ _ _ _ hwk =>
    have hL₁ : (σ₁.emit (.snd cur c d)).Ledger k :=
      (hL.wakeGroup hp hwk).emit (by simp [Event.Uncounted, Event.share])
    have hsched : σ₁.sched.Placed k ∧ σ₁.sched.Running k cur := by
      rcases hwk.sched (d := d) with hs | ⟨t, ht, hs⟩
      · exact hs ▸ ⟨hp, hrun⟩
      · exact hs ▸ ⟨hp.wake (hp.wakes_lt ht) hrun.lt, hrun.wake t⟩
    have hL₂ : (((σ₁.emit (.snd cur c d)).modThread cur fun th =>
        { th with messageData := d }).countBlocked cur .sending).Ledger k :=
      (hL₁.modThread _).countBlocked hsched.1.kthd hsched.1.homed.nodup hsched.2.lt
      (hsched.1.mem_run_iff.mpr ⟨hsched.2.lt, hsched.2.canRun⟩)
    rw [blockThread_sending]
    refine hL₂.quiet [] (by simp) (by simp) le_rfl rfl fun t ht => .inr ?_
    simpa [Rings.add_of_ne] using ht

include hL in
theorem lwtRcv (hp : σ.sched.Placed k) (hrun : σ.sched.Running k cur)
    (h : LwtRcv σ cur c σ' n) : σ'.Ledger k := by
  have hlt {s : ThreadId} {l : List ThreadId} (hq : σ.queues (.sender c) = s :: l) :
      s < σ.nthreads := by
    refine (hp.mem_sender (c := c) ?_).1
    simp [hq]
  cases h with
  | sync => exact hL
  | ring => exact (hL.modChan _).emit (by simp [Event.Uncounted, Event.share])
  | refill s l _ _ _ _ hq =>
    exact ((hL.resumeThread hp.kthd (hlt hq)).modChan _).emit
      (by simp [Event.Uncounted, Event.share])
  | sender s l _ _ hq =>
    exact ((hL.resumeThread hp.kthd (hlt hq)).modChan _).emit
      (by simp [Event.Uncounted, Event.share])
  | block =>
    rw [blockThread_receiving]
    exact (hL.modThread _).countBlocked hp.kthd hp.homed.nodup hrun.lt
      (hp.mem_run_iff.mpr ⟨hrun.lt, hrun.canRun⟩)

end State.Ledger

/-- The frames at which threads fall asleep or are resumed. -/
@[simp] def Frame.Counting : Frame → Prop
  | .call (.lwtSnd _ _) | .call (.lwtRcv _) | .syncRcvBlock _ | .cgrpWaitLoop _ => True
  | _ => False

/-- Elsewhere nothing is logged that is about the counters. -/
theorem State.NetEffect.uncounted {ν : Net} (h : NetEffect σ cur f ν) (hf : ¬ f.Counting) :
    ∃ es, ν.history = σ.history ++ es ∧ ∀ e ∈ es, e.Uncounted := by
  cases h with
  | snd | rcv => exact absurd trivial hf
  | sleep hf' =>
    rcases hf' with ⟨c, rfl⟩ | ⟨g, rfl⟩
    · exact absurd trivial hf
    · exact absurd trivial hf
  | syncRcv _ _ h =>
    cases h with
    | read => exact ⟨_, rfl, by simp [Event.Uncounted, Event.share]⟩
    | empty => exact ⟨[], by simp, by simp⟩
  | same | setType | mark | cgrpAdd | cgrpRem | cgrp => exact ⟨[], by simp, by simp⟩
  | _ => exact ⟨_, rfl, by simp [Event.Uncounted, Event.share]⟩

/-- Nor is anything counted. -/
theorem Sched.Act.blockCounter {s s₁ : Sched} {b : Bool} (h : s.Act cur f rest b s₁)
    (hf : ¬ f.Counting) : (s₁.kthds k).blockCounter = (s.kthds k).blockCounter := by
  cases h with
  | wake t hw => cases hw <;> simp_all
  | sleepRcv rcving fr hf' => cases hf' <;> simp_all
  | sleepGroup g hf' | sleepSnd g d hf' | wakeSleepSnd t c d hf' => simp_all
  | lastWord | slThdBlock | die =>
    by_cases hk : k = s.currentKthd
    · subst hk
      simp
    · simp [hk]
  | _ => rfl

theorem Sched.Effect.blockCounter {s s' : Sched} (h : s.Effect cur f rest s')
    (hf : ¬ f.Counting) : (s'.kthds k).blockCounter = (s.kthds k).blockCounter := by
  cases h with
  | stay h => exact h.blockCounter hf
  | @switch s₁ _ h hd =>
    obtain ⟨t, l, -, rfl⟩ := hd
    rw [← h.blockCounter hf]
    by_cases hk : k = s₁.currentKthd
    · subst hk
      simp
    · simp [hk]

/-- On the run queue and the recycle queue are the threads that do not sleep. -/
theorem Sched.Placed.queued_iff {s : Sched} (hp : s.Placed k) :
    t ∈ s.queues (.run k) ∨ t ∈ s.queues (.recycle k) ↔
      t < s.ntasks ∧ (s.tasks t).state ≠ .blocked := by
  rw [hp.mem_run_iff, hp.mem_recycle_iff, ← and_or_left, Task.CanRun]
  cases (s.tasks t).state <;> simp

section Sections

/-- A section keeps the ledger. -/
theorem ledger_section (hs : Section σ l τ cur f rest) (hS : InPlace σ k) (hS' : InPlace τ k)
    (hw : OwnerWaits σ l) (hL : σ.Ledger k) : τ.Ledger k := by
  have hp := hS.placed
  have hrun := hS.running_cur hs.current
  have hmem : cur ∈ σ.queues (.run k) := hp.mem_run_iff.mpr ⟨hrun.lt, hrun.canRun⟩
  by_cases hf : f.Counting
  · obtain ⟨⟨σ', n⟩, hb, hfin⟩ := bind_ok hs.exec
    refine State.Ledger.finish ?_ hfin
    unfold Frame.Counting at hf
    split at hf
    · exact hL.lwtSnd hp hrun (lwtSnd_ok hb).2.2
    · exact hL.lwtRcv hp hrun (lwtRcv_ok hb).2.2
    · cases hb
      rw [countBlocked_requeue]
      exact (hL.modThread _).countBlocked hp.kthd hp.homed.nodup hrun.lt hmem
    · rename_i g
      cases (lwtCgrpWaitLoop_ok hb).2 with
      | done => exact hL.same rfl rfl rfl rfl
      | block =>
        rw [countBlocked_requeue]
        have hL' : (σ.modCgrp g fun gr => { gr with blocked := true }).Ledger k :=
          hL.same rfl rfl rfl rfl
        exact hL'.countBlocked hp.kthd hp.homed.nodup hrun.lt hmem
    · exact hf.elim
  · obtain ⟨es, he, hes⟩ := (exec_net hs.exec).uncounted hf
    have heff := hS.effect hs
    refine hL.quiet es he hes heff.ntasks_le ?_ fun t ht => ?_
    · exact heff.blockCounter hf
    · obtain ⟨hlt, hno⟩ := hS'.placed.queued_iff.mp ht
      rcases Nat.lt_or_ge t σ.nthreads with hlt' | hge
      · refine .inr (hp.queued_iff.mpr ⟨hlt', ?_⟩)
        by_cases hcur : t = cur
        · subst hcur
          exact hrun.canRun.not_blocked
        · cases heff.other hp hrun hs.at_ (InPlace.owner hw hs) hcur hlt' with
          | same hsame => exact fun h => hno (hsame.state_iff.mpr h)
          | woken hwk => cases hwk <;> simp_all
          | started hz => rw [hz]; decide
      · exact .inl hge

/-- The zombie counter of `k` is the number of threads inside `lwt_die`. -/
def State.CountsDying (σ : State) (k : KthdId) : Prop :=
  (σ.kthds k).zombieCounter = σ.numThreads fun th => .dieSnd ∈ th.context

/-- What a section at a frame adds to the zombie counter. -/
def Frame.zombies : Frame → ℤ
  | .call (.lwtDie _) => 1
  | .dieSnd => -1
  | _ => 0

theorem Sched.Act.zombieCounter {s s₁ : Sched} {b : Bool} (h : s.Act cur f rest b s₁)
    (hdie : ∀ d, f ≠ .call (.lwtDie d)) (hsnd : f ≠ .dieSnd) :
    (s₁.kthds k).zombieCounter = (s.kthds k).zombieCounter := by
  cases h with
  | lastWord fs hf => exact absurd hf.choose_spec (hdie _)
  | die hf => exact absurd hf hsnd
  | slThdBlock | wake | sleepRcv | sleepGroup | sleepSnd | wakeSleepSnd =>
    by_cases hk : k = s.currentKthd
    · subst hk
      simp
    · simp [hk]
  | _ => rfl

theorem Sched.Effect.zombieCounter {s s' : Sched} (h : s.Effect cur f rest s')
    (hdie : ∀ d, f ≠ .call (.lwtDie d)) (hsnd : f ≠ .dieSnd) :
    (s'.kthds k).zombieCounter = (s.kthds k).zombieCounter := by
  cases h with
  | stay h => exact h.zombieCounter hdie hsnd
  | @switch s₁ _ h hd =>
    obtain ⟨t, l, -, rfl⟩ := hd
    rw [← h.zombieCounter hdie hsnd]
    by_cases hk : k = s₁.currentKthd
    · subst hk
      simp
    · simp [hk]

theorem Frame.zombies_of_ne (hdie : ∀ d, f ≠ .call (.lwtDie d)) (hsnd : f ≠ .dieSnd) :
    f.zombies = 0 := by
  unfold Frame.zombies
  split <;> simp_all

theorem zombies_section (hs : Section σ l τ cur f rest) (hS : InPlace σ k) :
    (τ.kthds k).zombieCounter = (σ.kthds k).zombieCounter + f.zombies := by
  have hk : σ.currentKthd = k := hS.placed.kthd
  obtain ⟨⟨σ', n⟩, hb, hfin⟩ := bind_ok hs.exec
  by_cases hdie : ∃ d, f = .call (.lwtDie d)
  · obtain ⟨d, rfl⟩ := hdie
    rw [(finish_counters hfin).2]
    cases hb
    simp [Frame.zombies, hk]
  · by_cases hsnd : f = .dieSnd
    · subst hsnd
      rw [(finish_counters hfin).2]
      cases hb
      simp [Frame.zombies, hk, sub_eq_add_neg]
    · have hdie : ∀ d, f ≠ .call (.lwtDie d) := by simpa using hdie
      rw [Frame.zombies_of_ne hdie hsnd, add_zero]
      exact (hS.effect hs).zombieCounter hdie hsnd

/-- Only `lwt_die` takes its thread in, and only its end takes it out. -/
theorem dying_cur (hs : Section σ l τ cur f rest) (hm : σ.Mortal) :
    (if .dieSnd ∈ (τ.threads cur).context then 1 else 0 : ℤ) =
      (if .dieSnd ∈ (σ.threads cur).context then 1 else 0) + f.zombies := by
  have hframes {n : Next} {σ' : State} (hb : σ.body cur f = .ok (σ', n)) :
      (τ.threads cur).context = n.frames ++ rest := by
    obtain ⟨⟨σ'', n'⟩, hb', hfin⟩ := bind_ok hs.exec
    obtain ⟨rfl, rfl⟩ := Prod.mk.inj (Except.ok.inj (hb.symm.trans hb'))
    exact finish_frames hfin
  by_cases hdie : ∃ d, f = .call (.lwtDie d)
  · obtain ⟨d, rfl⟩ := hdie
    have hσ : (σ.threads cur).context = [] := by
      rcases hs.at_ with hctx | ⟨-, hctx, -⟩
      · have hctx : (σ.threads cur).context = .call (.lwtDie d) :: rest := hctx
        exact absurd (by simp [hctx]) (hm.calls cur d)
      · exact hctx
    rw [hσ, hframes rfl]
    simp [Next.frames, Frame.zombies]
  · by_cases hsnd : f = .dieSnd
    · subst hsnd
      have hσ : (σ.threads cur).context = .dieSnd :: rest := hs.at_.resolve_right (by simp)
      have hshape := hm.dying cur (by simp [hσ])
      rw [hσ] at hshape
      cases hshape
      rw [hσ, hframes rfl]
      simp [Next.frames, Frame.zombies]
    · have hz : f.zombies = 0 := Frame.zombies_of_ne (by simpa using hdie) hsnd
      have hiff : .dieSnd ∈ (τ.threads cur).context ↔ .dieSnd ∈ (σ.threads cur).context := by
        constructor
        · intro hτ
          have hin (hrest : rest = [.dieSnd]) : .dieSnd ∈ (σ.threads cur).context := by
            rcases hs.at_ with hctx | ⟨-, -, hnil⟩
            · have hctx : (σ.threads cur).context = f :: rest := hctx
              simp [hctx, hrest]
            · exact absurd (hnil.symm.trans hrest) (by simp)
          rcases dying_self hs hm hτ with ⟨d, hd, -⟩ | ⟨c, d, -, hr, -⟩ | ⟨c, -, hr, -⟩
          · exact absurd ⟨d, hd⟩ hdie
          · exact hin hr
          · exact hin hr
        · intro hσ
          have hshape := hm.dying cur hσ
          generalize hctx : (σ.threads cur).context = ctx at hshape
          cases hshape with
          | send c d hc h0 =>
            obtain ⟨rfl, rfl⟩ := hs.stack hctx
            cases lastSend hs h0 with
            | taken hτ => simp [hτ]
            | stuck hτ => simp [hτ]
          | blocked c =>
            obtain ⟨rfl, rfl⟩ := hs.stack hctx
            rw [hframes rfl]
            simp [Next.frames]
          | sent =>
            obtain ⟨rfl, rfl⟩ := hs.stack hctx
            exact absurd rfl hsnd
      simp [hiff, hz]

/-- Among the threads whose frames have a property only that of the section changes, if new
and dead threads do not have it. -/
theorem numThreads_section (hs : Section σ l τ cur f rest) (hS : InPlace σ k) (hw : OwnerWaits σ l)
    {p : List Frame → Prop} [DecidablePred p] (hnil : ¬ p [])
    (hdead : ∀ t < σ.nthreads, (σ.threads t).state = .zombies → ¬ p (σ.threads t).context) :
    τ.numThreads (fun th => p th.context) + (if p (σ.threads cur).context then 1 else 0) =
      σ.numThreads (fun th => p th.context) + if p (τ.threads cur).context then 1 else 0 := by
  have heff := hS.effect hs
  have hrun := hS.running_cur hs.current
  have hle : σ.nthreads ≤ τ.nthreads := heff.ntasks_le
  have hcur : cur < σ.nthreads := hrun.lt
  have hnew : τ.numThreads (fun th => p th.context) =
      numBelow (fun th : Thread => p th.context) τ.threads σ.nthreads := by
    refine numBelow_of_le hle fun t h0 h1 => ?_
    have hctx : (τ.threads t).context = [] := heff.context_new h0 h1 (hcur.trans_le h0).ne'
    rwa [hctx]
  have hothers : ∀ t < σ.nthreads, t ≠ cur →
      (p (τ.threads t).context ↔ p (σ.threads t).context) := by
    intro t hlt hne
    have hsame : (τ.threads t).context = (σ.threads t).context ∨
        (σ.threads t).state = .zombies ∧ (τ.threads t).context = [] := by
      have hother := heff.other hS.placed hrun hs.at_ (InPlace.owner hw hs) hne hlt
      generalize hτ : τ.sched.tasks t = th at hother
      have hτ : (τ.threads t).context = th.context := congrArg Task.context hτ
      rw [hτ]
      cases hother with
      | same h => exact .inl h.context
      | woken _ h => exact .inl h
      | started hz h => exact .inr ⟨hz, h⟩
    rcases hsame with h | ⟨hz, h⟩
    · rw [h]
    · rw [h]
      exact iff_of_false hnil (hdead t hlt hz)
  rw [hnew]
  exact numBelow_change hcur hothers

/-- A section keeps the zombie counter exact. -/
theorem dying_section (hs : Section σ l τ cur f rest) (hS : InPlace σ k) (hw : OwnerWaits σ l)
    (hm : σ.Mortal) (hc : σ.CountsDying k) : τ.CountsDying k := by
  have hcount : (τ.kthds k).zombieCounter = (σ.kthds k).zombieCounter + f.zombies :=
    zombies_section hs hS
  have hdead : ∀ t < σ.nthreads, (σ.threads t).state = .zombies →
      .dieSnd ∉ (σ.threads t).context := by
    intro t hlt hz hd
    obtain ⟨fs, hctx⟩ := (hS.placed.parked t hlt).dead hz
    have hctx : (σ.threads t).context = .died :: fs := hctx
    have hshape := hm.dying t hd
    rw [hctx] at hshape
    cases hshape
  have hchange := numThreads_section hs hS hw (p := fun fs => .dieSnd ∈ fs) (by simp) hdead
  have hcase := dying_cur hs hm
  have hold : (σ.kthds k).zombieCounter = σ.numThreads fun th => .dieSnd ∈ th.context := hc
  unfold State.CountsDying
  rw [hcount, hold]
  split_ifs at hchange hcase <;> omega

end Sections

theorem boot_ledger (hb : σ.Boot k) : σ.Ledger k := by
  have h := boot_ok hb
  have hzero (t : ThreadId) : σ.blockShare t = 0 := by
    simp [State.blockShare, h.history, Event.share]
  refine ⟨?_, fun t _ => hzero t, fun t => by simp [hzero], fun t _ => (hzero t).le⟩
  simp [h.kthd, hzero]
  rfl

theorem boot_countsDying (hb : σ.Boot k) : σ.CountsDying k := by
  have h := boot_ok hb
  have hnone : numBelow (fun th : Thread => .dieSnd ∈ th.context) σ.threads 1 = 0 := by
    rw [numBelow_of_le (Nat.zero_le 1)]
    · rfl
    · intro t _ ht
      obtain rfl := Nat.lt_one_iff.mp ht
      simp [h.thread.2.1]
  unfold State.CountsDying
  rw [State.numThreads, h.nthreads, hnone, h.kthd]
  rfl

end Lwt
