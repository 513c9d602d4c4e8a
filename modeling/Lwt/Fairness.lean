import Lwt.Lib.Overtaking
import Lwt.Single

/-! Who is dispatched first. A thread that yields goes to the end of the run
queue, one that is resumed goes before the last thread of it. So a thread that
blocks and is resumed can be dispatched again and again in front of the last. -/

namespace Lwt

variable {σ τ σ₀ σ' : State} {l : Label} {k : KthdId} {tr : List (State × Label)}
  {cur t x z : ThreadId} {f : Frame} {rest : List Frame} {n : Next}

namespace State

def dispatched (σ : State) (l : Label) : Option ThreadId :=
  match σ.lwtCurrent, σ.frame l with
  | some cur, some f =>
    match σ.body cur f, σ.step l with
    | .ok (_, .schedule _), .ok τ => τ.lwtCurrent
    | _, _ => none
  | _, _ => none

/-- The thread that `lwt_snd` or `lwt_rcv` is about to resume in step `l`: the
receiver that waits for this channel, or the first waiting sender. -/
def resumed (σ : State) (l : Label) : Option ThreadId :=
  match σ.frame l with
  | some (.call (.lwtSnd c _)) => (σ.chans c).receiver.filter fun r =>
      decide ((σ.threads r).task.Receiving ∧ (σ.threads r).nowRcving = some c)
  | some (.call (.lwtRcv c)) => (σ.queues (.sender c)).head?
  | _ => none

/-- Step `l` is made in `lwt_yield(NULL)`, or in `lwt_snd` or `lwt_rcv` on a `LOCAL`
channel that no sleeping group contains. -/
def simple (σ : State) (l : Label) : Bool :=
  match σ.frame l with
  | some (.call (.lwtYield none)) | some (.sndRet _) | some (.rcvRet _) => true
  | some (.call (.lwtSnd c _)) => decide ((σ.chans c).type = .local) &&
      !(σ.chans c).cgroup.any fun g => (σ.cgrps g).blocked
  | some (.call (.lwtRcv c)) => decide ((σ.chans c).type = .local)
  | _ => false

/-- Thread `z` waits for kernel thread `k`. -/
def Waiting (σ : State) (k : KthdId) (z : ThreadId) : Prop :=
  z ∈ σ.queues (.run k) ∧ σ.lwtCurrent ≠ some z

end State

/-- In the run `tr`, thread `z` has been waiting up to step `j` since a dispatch of `x`,
with threads yielding, sending and receiving only. -/
def WaitingSince (k : KthdId) (tr : List (State × Label)) (x z : ThreadId) (j : ℕ) : Prop :=
  ∃ i < j, (∃ p, tr[i]? = some p ∧ p.1.dispatched p.2 = some x ∧ p.1.simple p.2) ∧
    ∀ m, i < m → m ≤ j → ∀ r, tr[m]? = some r → r.1.simple r.2 ∧ r.1.Waiting k z

/-- No thread is dispatched twice while another one waits. -/
def NoOvertaking (k : KthdId) (tr : List (State × Label)) : Prop :=
  ∀ j q, tr[j]? = some q → ∀ x z, WaitingSince k tr x z j → q.1.dispatched q.2 ≠ some x

/-- A thread that has been dispatched since `z` came to wait is not resumed in front of
`z`: `z` is not the last of the run queue. -/
def ResumedInTurn (k : KthdId) (tr : List (State × Label)) : Prop :=
  ∀ j q, tr[j]? = some q → ∀ x z, WaitingSince k tr x z j → q.1.resumed q.2 = some x →
    (q.1.queues (.run k)).getLast? ≠ some z

def Next.schedules : Next → Bool
  | .schedule _ => true
  | _ => false

/-- What a simple step of `cur` makes of the run queue, and whether `__lwt_schedule`
follows. -/
inductive Serves (σ : State) (k : KthdId) (l : Label) (cur : ThreadId) : Bool → List ThreadId → Prop
  | same : Serves σ k l cur false (σ.queues (.run k))
  | resume (t : ThreadId) (hr : σ.resumed l = some t) (ht : t ∉ σ.queues (.run k)) :
      Serves σ k l cur false (Rings.beforeLast t (σ.queues (.run k)))
  | yield : Serves σ k l cur true ((σ.queues (.run k)).erase cur ++ [cur])
  | leave : Serves σ k l cur true ((σ.queues (.run k)).erase cur)

section Serves

variable (h : InPlace σ k) (hs : Section σ l τ cur f rest)

theorem resumeThread_run (hown : (σ.threads cur).ownerKthd = k) (ht : t ∉ σ.queues (.run k)) :
    (σ.resumeThread cur t).queues (.run k) = Rings.beforeLast t (σ.queues (.run k)) := by
  simp [State.resumeThread, State.ownerRunQueue, hown, List.erase_of_not_mem ht]

theorem resumeThread_lwtCurrent (σ : State) (cur t : ThreadId) :
    (σ.resumeThread cur t).lwtCurrent = σ.lwtCurrent := by
  simp [State.resumeThread, State.lwtCurrent, State.kthd]

include h in
theorem InPlace.not_mem_run (ht : ¬ (σ.threads t).task.CanRun) : t ∉ σ.queues (.run k) :=
  fun hmem => ht (h.placed.mem_run_iff.mp hmem).2

include h hs in
theorem serves_snd {c : ChanId} {d : Data} (hb : σ.lwtSnd cur c d = .ok (σ', n))
    (hf : f = .call (.lwtSnd c d)) (hsim : σ.simple l) :
    Serves σ k l cur n.schedules (σ'.queues (.run k)) ∧
      (n.schedules = false → σ'.lwtCurrent = some cur) := by
  subst hf
  have hfr := hs.frame
  simp only [State.simple, hfr, Bool.and_eq_true, decide_eq_true_eq, Bool.not_eq_true'] at hsim
  obtain ⟨htype, hgroup⟩ := hsim
  have hown : (σ.threads cur).ownerKthd = k := h.placed.owner cur (h.running_cur hs.current).lt
  -- no group is woken
  have hskip {σ₁ : State}
      (hw : State.WakeGroup (σ.modChan c fun ch => { ch with ready := 1 }) cur (σ.chans c).cgroup
        σ₁) : σ₁ = σ.modChan c fun ch => { ch with ready := 1 } := by
    cases hw with
    | skip => rfl
    | wake g hc hg hb =>
      have hb : (σ.cgrps g).blocked = true := hb
      simp [hc, hb] at hgroup
  obtain ⟨-, -, hsnd⟩ := State.lwtSnd_ok hb
  cases hsnd with
  | sync r ht => simp [htype] at ht
  | noReceiver => exact ⟨.same, fun _ => hs.current⟩
  | handOff r ht hr hlt hrcv hn =>
    have hnot : r ∉ σ.queues (.run k) := h.not_mem_run fun hrun => hrun.not_receiving hrcv
    have hres : σ.resumed l = some r := by
      simp [State.resumed, hfr, hr, Option.filter, hrcv, hn]
    refine ⟨?_, fun _ => ?_⟩
    · have hown' : ((σ.modThread r fun th => { th with messageData := d }).threads cur).ownerKthd =
          k := by
        by_cases hrc : cur = r
        · subst hrc
          simpa using hown
        · simpa [hrc] using hown
      simp only [State.emit_queues, resumeThread_run hown' hnot, State.modThread_queues]
      exact .resume r hres hnot
    · exact (resumeThread_lwtCurrent _ cur r).trans hs.current
  | ring r σ₁ ht hr hb' hw =>
    rw [hskip hw]
    exact ⟨.same, fun _ => hs.current⟩
  | block r σ₁ ht hr hb' hw =>
    refine ⟨?_, fun hn => by cases hn⟩
    rw [hskip hw, State.blockThread_sending]
    simp only [State.countBlocked, State.listHeadAdd_queues, State.emit_queues,
      State.modThread_queues, State.modKthd_queues, State.listRem_queues, State.modChan_queues,
      Rings.add_of_ne _ _ (show Queue.run k ≠ .sender c by simp), Rings.rem_apply]
    exact .leave

include h hs in
theorem serves_rcv {c : ChanId} (hb : σ.lwtRcv cur c = .ok (σ', n))
    (hf : f = .call (.lwtRcv c)) (hsim : σ.simple l) :
    Serves σ k l cur n.schedules (σ'.queues (.run k)) ∧
      (n.schedules = false → σ'.lwtCurrent = some cur) := by
  subst hf
  have hfr := hs.frame
  simp only [State.simple, hfr, decide_eq_true_eq] at hsim
  have hown : (σ.threads cur).ownerKthd = k := h.placed.owner cur (h.running_cur hs.current).lt
  have hsender {s : ThreadId} {l' : List ThreadId} (hq : σ.queues (.sender c) = s :: l') :
      σ.resumed l = some s ∧ s ∉ σ.queues (.run k) := by
    refine ⟨by simp [State.resumed, hfr, hq], h.not_mem_run fun hrun => ?_⟩
    exact hrun.not_sending (h.placed.mem_sender (c := c) (by simp [hq])).2.1
  obtain ⟨-, -, hrcv⟩ := State.lwtRcv_ok hb
  cases hrcv with
  | sync r ht => simp [hsim] at ht
  | ring => exact ⟨.same, fun _ => hs.current⟩
  | refill s l' ht hn h0 hf hq =>
    obtain ⟨hres, hnot⟩ := hsender hq
    refine ⟨?_, fun _ => (resumeThread_lwtCurrent σ cur s).trans hs.current⟩
    simp only [State.emit_queues, State.modChan_queues, resumeThread_run hown hnot]
    exact .resume s hres hnot
  | sender s l' ht hn hq =>
    obtain ⟨hres, hnot⟩ := hsender hq
    refine ⟨?_, fun _ => (resumeThread_lwtCurrent σ cur s).trans hs.current⟩
    simp only [State.emit_queues, State.modChan_queues, resumeThread_run hown hnot]
    exact .resume s hres hnot
  | block ht hn hq =>
    refine ⟨?_, fun hn => by cases hn⟩
    rw [State.blockThread_receiving]
    exact .leave

include h hs in
/-- The run queue behind a simple step. -/
theorem serves (hb : σ.body cur f = .ok (σ', n)) (hsim : σ.simple l) :
    Serves σ k l cur n.schedules (σ'.queues (.run k)) ∧
      (n.schedules = false → σ'.lwtCurrent = some cur) := by
  have hfr := hs.frame
  have hrun := h.running_cur hs.current
  have hown : (σ.threads cur).ownerKthd = k := h.placed.owner cur hrun.lt
  have hsim' := hsim
  simp only [State.simple, hfr] at hsim'
  split at hsim'
  · rename_i hf
    cases hf
    have hb : σ.lwtYield cur none = .ok (σ', n) := hb
    obtain ⟨-, rfl, rfl⟩ | ⟨t, ht, -⟩ := State.lwtYield_ok hb
    · refine ⟨?_, fun hn => by cases hn⟩
      rw [State.requeue_of_canRun hrun.canRun]
      have hq : ((σ.listRem cur).listHeadAdd (σ.ownerRunQueue cur) cur).queues (.run k) =
          (σ.queues (.run k)).erase cur ++ [cur] := by
        simp [State.ownerRunQueue, hown]
      rw [hq]
      exact .yield
    · cases ht
  · rename_i hf
    cases hf
    cases hb
    exact ⟨.same, fun _ => hs.current⟩
  · rename_i hf
    cases hf
    cases hb
    exact ⟨.same, fun _ => hs.current⟩
  · rename_i hf
    cases hf
    exact serves_snd h hs hb rfl hsim
  · rename_i hf
    cases hf
    exact serves_rcv h hs hb rfl hsim
  · cases hsim'

/-- `z`, which waits, stays in front of `x`, unless `x` goes on running. -/
theorem Serves.behind {b : Bool} {q : List ThreadId} (hsv : Serves σ k l cur b q)
    (hnd : (σ.queues (.run k)).Nodup) (hz : z ∈ σ.queues (.run k)) (hzc : cur ≠ z)
    (hx : cur = x ∨ Rings.Behind z x (σ.queues (.run k)))
    (hturn : σ.resumed l = some x → (σ.queues (.run k)).getLast? ≠ some z) :
    (b = false ∧ cur = x) ∨ Rings.Behind z x q := by
  cases hsv with
  | same => exact hx.imp_left fun hx => ⟨rfl, hx⟩
  | resume t hr =>
    by_cases htx : t = x
    · subst htx
      exact .inr (.beforeLast_self hz (hturn hr))
    · exact hx.imp (fun hx => ⟨rfl, hx⟩) fun hb => hb.beforeLast htx
  | yield =>
    refine .inr ?_
    rcases hx with rfl | hb
    · exact .concat_self ((List.mem_erase_of_ne hzc.symm).mpr hz)
    · by_cases hcx : cur = x
      · subst hcx
        exact .concat_self (hb.erase hnd hzc).1
      · exact (hb.erase hnd hzc).concat hcx
  | leave =>
    refine .inr ?_
    rcases hx with rfl | hb
    · exact ⟨(List.mem_erase_of_ne hzc.symm).mpr hz, .inl hnd.not_mem_erase⟩
    · exact hb.erase hnd hzc

end Serves

theorem dispatched_eq (hstep : Step σ l τ) (hs : Section σ l τ cur f rest)
    (hb : σ.body cur f = .ok (σ', n)) :
    σ.dispatched l = if n.schedules then τ.lwtCurrent else none := by
  have hstep : σ.step l = .ok τ := hstep
  simp only [State.dispatched, hs.current, hs.frame, hb, hstep]
  cases n <;> rfl

/-- One simple step does not dispatch `x` in front of `z`. -/
theorem overtaking_step (h : InPlace σ k) (hτ : InPlace τ k) (hl : l.Local) (hstep : Step σ l τ)
    (hsim : σ.simple l) (hz : σ.Waiting k z)
    (hx : σ.lwtCurrent = some x ∨ Rings.Behind z x (σ.queues (.run k)))
    (hturn : σ.resumed l = some x → (σ.queues (.run k)).getLast? ≠ some z) :
    σ.dispatched l ≠ some x ∧
      (τ.lwtCurrent = some x ∨ Rings.Behind z x (τ.queues (.run k))) := by
  obtain ⟨cur, f, rest, hs⟩ := step_local hstep hl
  obtain ⟨⟨σ', n⟩, hb, hfin⟩ := bind_ok hs.exec
  obtain ⟨hsv, hstay⟩ := serves h hs hb hsim
  have hnd : (σ.queues (.run k)).Nodup := h.placed.homed.nodup _
  have hzc : cur ≠ z := fun hcz => hz.2 (hcz ▸ hs.current)
  have hx : cur = x ∨ Rings.Behind z x (σ.queues (.run k)) := by
    rwa [hs.current, Option.some.injEq] at hx
  have hq := State.finish_queues hfin
  rw [dispatched_eq hstep hs hb, hq]
  cases n with
  | ret d =>
    cases hfin
    refine ⟨by simp [Next.schedules], (hsv.behind hnd hz.1 hzc hx hturn).imp_left ?_⟩
    rintro ⟨-, rfl⟩
    exact hstay rfl
  | goto fs =>
    cases hfin
    refine ⟨by simp [Next.schedules], (hsv.behind hnd hz.1 hzc hx hturn).imp_left ?_⟩
    rintro ⟨-, rfl⟩
    exact hstay rfl
  | schedule fs =>
    have hbeh : Rings.Behind z x (σ'.queues (.run k)) :=
      (hsv.behind hnd hz.1 hzc hx hturn).resolve_left fun hn => by cases hn.1
    refine ⟨?_, .inr hbeh⟩
    obtain ⟨u, l', hcons, rfl⟩ := State.lwtSchedule_ok hfin
    have hk : σ'.currentKthd = k := hτ.placed.kthd
    have hcons : σ'.queues (.run k) = u :: l' := hk ▸ hcons
    have hndτ : (σ'.queues (.run k)).Nodup := hτ.placed.homed.nodup (.run k)
    rw [hcons] at hbeh hndτ
    simpa [Next.schedules, State.lwtCurrent, State.kthd] using hbeh.head_ne hndτ

theorem lwtCurrent_of_dispatched (hstep : Step σ l τ) (h : σ.dispatched l = some x) :
    τ.lwtCurrent = some x := by
  have hstep : σ.step l = .ok τ := hstep
  unfold State.dispatched at h
  split at h
  · split at h
    · rename_i heq
      rw [hstep] at heq
      cases heq
      exact h
    · cases h
  · cases h

/-- The states around a step of a run of one kernel thread. -/
theorem inPlace_of_getElem (h : Run σ₀ tr σ) (hb : σ₀.Boot k) (hC : ∀ p ∈ tr, Ordinary p.1 p.2)
    {m : ℕ} {q : State × Label} (hq : tr[m]? = some q) :
    InPlace q.1 k ∧ q.2.Local ∧ ∃ τ, Step q.1 q.2 τ ∧ InPlace τ k := by
  obtain ⟨tr', τ, hr, hpre, hstep⟩ := Transition.Run.of_mem h (List.mem_of_getElem? hq)
  have hplace := Run.inPlace hr hb fun p hp => hC p (hpre.subset hp)
  have hord := hC q (List.mem_of_getElem? hq)
  exact ⟨hplace, hord.1, τ, hstep, hplace.step hord.1 hord.2 hstep⟩

/-- While `z` waits, `x` is not in front of it once it has run. -/
theorem waitingSince_behind (h : Run σ₀ tr σ) (hb : σ₀.Boot k)
    (hC : ∀ p ∈ tr, Ordinary p.1 p.2) (hturn : ResumedInTurn k tr) {i : ℕ}
    {p : State × Label} (hp : tr[i]? = some p) (hdisp : p.1.dispatched p.2 = some x)
    (hsim : p.1.simple p.2) : ∀ j, i < j → ∀ q, tr[j]? = some q →
    (∀ m, i < m → m ≤ j → ∀ r, tr[m]? = some r → r.1.simple r.2 ∧ r.1.Waiting k z) →
      q.1.lwtCurrent = some x ∨ Rings.Behind z x (q.1.queues (.run k)) := by
  intro j hij
  induction j, hij using Nat.le_induction with
  | base => exact fun q hq _ => .inl (lwtCurrent_of_dispatched (h.step_getElem hp hq) hdisp)
  | succ j hij ih =>
    intro q hq hwait
    obtain ⟨hlt, -⟩ := List.getElem?_eq_some_iff.mp hq
    obtain ⟨r, hr⟩ : ∃ r, tr[j]? = some r := ⟨tr[j], List.getElem?_eq_getElem (by omega)⟩
    have hwait' : ∀ m, i < m → m ≤ j → ∀ r, tr[m]? = some r →
        r.1.simple r.2 ∧ r.1.Waiting k z := fun m him hmj => hwait m him (by omega)
    obtain ⟨hs, hl, -⟩ := inPlace_of_getElem h hb hC hr
    obtain ⟨hτ, -⟩ := inPlace_of_getElem h hb hC hq
    obtain ⟨hrsim, hrwait⟩ := hwait' j hij le_rfl r hr
    exact (overtaking_step hs hτ hl (h.step_getElem hr hq) hrsim hrwait (ih r hr hwait')
      (hturn j r hr x z ⟨i, hij, ⟨p, hp, hdisp, hsim⟩, hwait'⟩)).2

/-- In a run of one kernel thread whose threads yield, send and receive, no thread is
dispatched twice while another one waits, provided that no thread that has been
dispatched in the meantime is resumed in front of it. -/
theorem no_overtaking (h : Run σ₀ tr σ) (hb : σ₀.Boot k) (hC : ∀ p ∈ tr, Ordinary p.1 p.2)
    (hturn : ResumedInTurn k tr) : NoOvertaking k tr := by
  intro j q hq x z hsince
  obtain ⟨hs, hl, τ, hstep, hτ⟩ := inPlace_of_getElem h hb hC hq
  have hturn' := hturn j q hq x z hsince
  obtain ⟨i, hij, ⟨p, hp, hdisp, hsim⟩, hwait⟩ := hsince
  obtain ⟨hqsim, hqwait⟩ := hwait j hij le_rfl q hq
  have hx := waitingSince_behind h hb hC hturn hp hdisp hsim j hij q hq hwait
  exact (overtaking_step hs hτ hl hstep hqsim hqwait hx hturn').1

instance (σ : State) (k : KthdId) (z : ThreadId) : Decidable (σ.Waiting k z) :=
  inferInstanceAs (Decidable (_ ∧ _))

/-- Threads resumed while the running thread is the last of the run queue are resumed in
front of nobody. -/
theorem resumedInTurn_of_last
    (h : ∀ q ∈ tr, q.1.resumed q.2 = none ∨ (q.1.queues (.run k)).getLast? = q.1.lwtCurrent) :
    ResumedInTurn k tr := by
  intro j q hq x z hsince hres hlast
  obtain ⟨i, hij, -, hwait⟩ := hsince
  obtain ⟨-, hz⟩ := hwait j hij le_rfl q hq
  rcases h q (List.mem_of_getElem? hq) with hnone | hcur
  · rw [hnone] at hres
    cases hres
  · exact hz.2 (hcur.symm.trans hlast)

def pairRun : List Label :=
  [.call (.lwtCreate 0 createMem), .call (.lwtYield none), .call (.lwtChan 0 chanMem),
    .call (.lwtRcv 2), .call (.lwtSnd 2 (.word 5)), .call (.lwtYield none), .resume]

theorem pairRun_no_overtaking : NoOvertaking 1 (booted.trace pairRun) :=
  no_overtaking (State.run_trace booted pairRun) boot_booted (by decide +kernel)
    (resumedInTurn_of_last (by decide +kernel))

/-- Two threads send to one another and wait for the answer, while a third one waits. -/
def starveRun : List Label :=
  [.call (.lwtChan 0 chanMem), .call (.lwtCreate 0 createMem), .call (.lwtCreate 0 createMem),
    .call (.lwtYield none), .call (.lwtChan 0 chanMem), .call (.lwtRcv 4), .call (.lwtYield none),
    .call (.lwtSnd 4 (.word 5)), .call (.lwtRcv 1), .resume, .call (.lwtSnd 1 (.word 6)),
    .call (.lwtRcv 4), .resume, .call (.lwtSnd 4 (.word 7)), .call (.lwtRcv 1)]

/-- Thread `x` is dispatched at the steps `i` and `j`, and `z` waits in between. -/
theorem not_noOvertaking {i j : ℕ} (hij : i < j)
    (hi : (tr[i]?).any fun p => p.1.dispatched p.2 = some x ∧ p.1.simple p.2)
    (hj : (tr[j]?).any fun q => q.1.dispatched q.2 = some x)
    (hm : ∀ r ∈ (tr.take (j + 1)).drop (i + 1), r.1.simple r.2 ∧ r.1.Waiting k z) :
    ¬ NoOvertaking k tr := by
  intro h
  simp only [Option.any_eq_true, decide_eq_true_eq] at hi hj
  obtain ⟨p, hp, hpx⟩ := hi
  obtain ⟨q, hq, hqx⟩ := hj
  refine h j q hq x z ⟨i, hij, ⟨p, hp, hpx⟩, fun m him hmj r hr => hm r ?_⟩ hqx
  refine List.mem_of_getElem? (i := m - (i + 1)) ?_
  rw [List.getElem?_drop, show i + 1 + (m - (i + 1)) = m by omega,
    List.getElem?_take_of_lt (by omega)]
  exact hr

/-- The third thread, `2`, waits while the second is dispatched twice. -/
theorem starveRun_overtaking : ¬ NoOvertaking 1 (booted.trace starveRun) :=
  not_noOvertaking (x := 1) (z := 2) (i := 8) (j := 14) (by decide) (by decide +kernel)
    (by decide +kernel) (by decide +kernel)

end Lwt
