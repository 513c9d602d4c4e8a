import Lwt.Identity
import Lwt.Delivery

/-! Channels whose receiver has gone. `lwt_chan_deref` clears the receiver and looks
neither at the threads that wait to send nor at the type of the channel, by which
`lwt_snd` is decided before it looks for a receiver. -/

namespace Lwt

open State

variable {σ τ σ₀ : State} {l : Label} {cur : ThreadId} {f : Frame} {rest : List Frame}
  {c : ChanId} {d : Data} {k : KthdId} {tr : List (State × Label)}

/-- Nobody waits to send on a channel without a receiver. -/
def State.NoneStranded (σ : State) : Prop :=
  ∀ c < σ.nchans, (σ.chans c).receiver = none → σ.queues (.sender c) = []

/-- If in step `l` the receiver of a channel gives it up, nobody waits to send on it. -/
def LeavesNobody (σ : State) (l : Label) : Prop :=
  ∀ c, σ.frame l = some (.call (.lwtChanDeref c)) →
    (σ.chans c).receiver = σ.lwtCurrent → σ.queues (.sender c) = []

section Sections

variable (hs : Section σ l τ cur f rest)

include hs in
/-- Without a receiver `lwt_snd` makes nobody wait. -/
theorem Section.sender_nil (ht : WellFramed σ)
    (hr : (σ.chans c).receiver = none) (hq : σ.queues (.sender c) = []) :
    τ.queues (.sender c) = [] := by
  by_cases hsnd : ∃ d, f = .call (.lwtSnd c d)
  · obtain ⟨d, rfl⟩ := hsnd
    obtain ⟨⟨σ', n⟩, hb, hfin⟩ := bind_ok hs.exec
    rw [finish_queues hfin]
    cases (lwtSnd_ok hb).2.2 with
    | noReceiver => exact hq
    | sync r _ hr' | handOff r _ hr' | ring r _ _ hr' | block r _ _ hr' =>
      exact absurd (hr.symm.trans hr') (by simp)
  · exact (ht.effect hs).sender_eq_nil (by simpa using hsnd) hq

/-- A section strands nobody if and only if it leaves nobody behind. -/
theorem noneStranded_section (hs : Section σ l τ cur f rest) (ht : WellFramed σ)
    (hP : σ.NoneStranded) : τ.NoneStranded ↔ LeavesNobody σ l := by
  have hle : σ.nchans ≤ τ.nchans := (exec_net hs.exec).nchans_le
  have hcur : σ.lwtCurrent = some cur := hs.current
  constructor
  · intro hτ c hf hr
    obtain rfl := Option.some.inj (hf.symm.trans hs.frame)
    obtain ⟨⟨σ', n⟩, hb, hfin⟩ := bind_ok hs.exec
    obtain ⟨hc, -, rfl, rfl⟩ := lwtChanDeref_ok hb
    have hnone : (τ.chans c).receiver = none := by
      rw [(finish_fields hfin).2.1]
      simp [derefChan_receiver, hr, hcur]
    have hq := hτ c (hc.trans_le hle) hnone
    rwa [finish_queues hfin] at hq
  · intro hC c hc hr
    by_cases hlt : c < σ.nchans
    · rcases ((exec_net hs.exec).chanEffect hlt).receiver with hsame | ⟨rfl, hr', -⟩
      · have hr₀ : (σ.chans c).receiver = none := hsame.symm.trans hr
        exact hs.sender_nil ht hr₀ (hP c hlt hr₀)
      · have hf : ∀ d, Frame.call (.lwtChanDeref c) ≠ .call (.lwtSnd c d) := by simp
        exact (ht.effect hs).sender_eq_nil hf (hC c hs.frame (hr'.trans hcur.symm))
    · have hfresh := ht.fresh c (not_lt.mp hlt)
      refine (ht.effect hs).sender_eq_nil (fun d => ?_) hfresh
      rintro rfl
      exact hlt (exec_net hs.exec).snd_lt

end Sections

section Runs

theorem noneStranded_step (ht : WellFramed σ) (hP : σ.NoneStranded) (hs : Step σ l τ) :
    τ.NoneStranded ↔ LeavesNobody σ l := by
  obtain ⟨cur, f, rest, hsec⟩ | ⟨k, rfl, rfl⟩ | ⟨k, mem, rfl, -, hi⟩ := step_cases hs
  · exact noneStranded_section hsec ht hP
  · exact iff_of_true hP fun c hf => by cases hf
  · refine iff_of_true (fun c hc hr => ?_) fun c hf => by cases hf
    obtain ⟨_, ch, -, -, -, -, -, -, -, -, -, -, -, rfl⟩ := initiate_ok hi
    by_cases hn : c = σ.nchans
    · subst hn
      simp [Rings.append_of_ne, Rings.clear]
    · have hlt : c < σ.nchans := lt_of_le_of_ne (Nat.le_of_lt_succ hc) hn
      have hr₀ : (σ.chans c).receiver = none := by simpa [hn] using hr
      simpa [Rings.append_of_ne, Rings.clear, hn] using hP c hlt hr₀

theorem boot_noneStranded (hb : σ.Boot k) : σ.NoneStranded := by
  have h := boot_ok hb
  intro c _ _
  simp [h.queues]

/-- In the runs of any kernel threads nobody ever waits to send on a channel without a receiver,
if and only if no receiver gives up a channel while somebody waits to send on it. -/
theorem none_stranded_iff (h : Run σ₀ tr σ) (hb : σ₀.Boot k) :
    (∀ v ∈ Transition.visited tr σ, v.NoneStranded) ↔ ∀ p ∈ tr, LeavesNobody p.1 p.2 := by
  refine Transition.Run.forall_visited_iff (D := fun _ _ => True) (I := WellFramed) h
    (fun _ _ => trivial) (boot_ok hb).wellFramed (boot_noneStranded hb) ?_ ?_
  · exact fun s l s' ht _ hs => ht.step hs
  · exact fun s l s' ht hP _ hs => noneStranded_step ht hP hs

instance (σ : State) (l : Label) : Decidable (LeavesNobody σ l) :=
  decidable_of_iff (∀ c ∈ (σ.frame l).bind Frame.derefs,
    (σ.chans c).receiver = σ.lwtCurrent → σ.queues (.sender c) = []) <|
    forall_frame_iff Frame.derefs_eq_some

end Runs

def departRun : List Label :=
  [.call (.lwtChan 0 chanMem), .call (.lwtCreateChan 1 createMem), .resume, .resume,
    .call (.lwtChanDeref 1), .call (.lwtYield none), .call (.lwtSnd 1 (.word 5))]

theorem departRun_noneStranded : (booted.trace departRun).length = departRun.length ∧
    ∀ v ∈ Transition.visited (booted.trace departRun) (booted.after departRun), v.NoneStranded := by
  refine ⟨by decide +kernel, ?_⟩
  exact (none_stranded_iff (State.run_trace booted departRun) boot_booted).mpr (by decide +kernel)

def strandRun : List Label :=
  [.call (.lwtChan 0 chanMem), .call (.lwtCreateChan 1 createMem), .resume, .resume,
    .call (.lwtYield none), .call (.lwtSnd 1 (.word 5)), .call (.lwtChanDeref 1)]

theorem strandRun_strands : (booted.trace strandRun).length = strandRun.length ∧
    ((booted.after strandRun).chans 1).type = .local ∧
    ((booted.after strandRun).chans 1).receiver = none ∧
    ((booted.after strandRun).queues (.sender 1)) = [1] ∧
    ((booted.after strandRun).threads 1).state = .blocked ∧
    ¬ (booted.after strandRun).NoneStranded := by
  have hr : ((booted.after strandRun).chans 1).receiver = none := by decide +kernel
  have hq : (booted.after strandRun).queues (.sender 1) = [1] := by decide +kernel
  refine ⟨by decide +kernel, by decide +kernel, hr, hq, by decide +kernel, fun h => ?_⟩
  have hnil := h 1 (by decide +kernel) hr
  rw [hq] at hnil
  cases hnil

section Sends

/-- `τ` is `σ` but for a call of thread `cur` that has failed, with the frames `k` below it. -/
structure State.FailsCleanly (σ : State) (cur : ThreadId) (k : List Frame) (τ : State) : Prop where
  result : (τ.threads cur).eax = .word (-1)
  returns : (τ.threads cur).context = k
  chans : τ.chans = σ.chans
  cgrps : τ.cgrps = σ.cgrps ∧ τ.chlLists = σ.chlLists
  queues : τ.queues = σ.queues
  wakeupQueues : τ.wakeupQueues = σ.wakeupQueues
  kthds : τ.kthds = σ.kthds
  task : (τ.threads cur).task = { (σ.threads cur).task with context := k }
  others : ∀ t, t ≠ cur → τ.threads t = σ.threads t

/-- A send on a channel whose receiver has gone, by any thread and with any frames below it
such as the rest of `lwt_die`, fails cleanly if and only if the channel is local. On a global
one it follows the null pointer. -/
theorem send_fails_iff {k : List Frame} (ha : σ.attempt l = some (cur, .call (.lwtSnd c d), k))
    (hc : c < σ.nchans) (hfree : (σ.chans c).freed = false)
    (hr : (σ.chans c).receiver = none) :
    ((∃ τ, Step σ l τ ∧ σ.FailsCleanly cur k τ) ↔ (σ.chans c).type = .local) ∧
      ((σ.chans c).type = .global → σ.step l = .error .nullPointer) := by
  obtain ⟨-, -, hstep⟩ := attempt_ok ha
  have hchan : σ.chan? c = .ok (σ.chans c) := by simp [State.chan?, hc, hfree]
  have hglobal (hg : (σ.chans c).type = .global) : σ.step l = .error .nullPointer := by
    have hbody : σ.lwtSnd cur c d = .error .nullPointer := by
      simp only [State.lwtSnd, hchan, bind, Except.bind, if_pos hg, setChanType_self hg,
        State.lwtSyncSnd, hr]
    rw [hstep]
    simp only [State.exec, State.body, State.call, hbody, bind, Except.bind]
  refine ⟨⟨?_, fun hl => ?_⟩, hglobal⟩
  · rintro ⟨τ, hs, -⟩
    cases ht : (σ.chans c).type with
    | «local» => rfl
    | global => exact absurd (hs.symm.trans (hglobal ht)) (by simp)
  · have hbody : σ.lwtSnd cur c d = .ok (σ.emit (.sndNone cur c d), .ret (.word (-1))) := by
      simp [State.lwtSnd, hchan, bind, Except.bind, hl, hr]
    refine ⟨(σ.emit (.sndNone cur c d)).modThread cur fun th =>
      { th with context := k, eax := .word (-1) }, ?_, ?_⟩
    · rw [Step, hstep]
      simp only [State.exec, State.body, State.call, hbody, bind, Except.bind, State.finish]
    · exact {
        result := by simp
        returns := by simp
        chans := rfl
        cgrps := ⟨rfl, rfl⟩
        queues := rfl
        wakeupQueues := rfl
        kthds := rfl
        task := by simp [Thread.task]
        others := fun t ht => by simp [ht] }

/-- The channel of `departRun` is local. -/
theorem departRun_fails :
    (∃ τ, Step (booted.after (departRun.take 6)) (.call (.lwtSnd 1 (.word 5))) τ ∧
      (booted.after (departRun.take 6)).FailsCleanly 1 [] τ) :=
  (send_fails_iff (k := []) (by rfl) (by decide +kernel) (by decide +kernel)
    (by decide +kernel)).1.mpr (by decide +kernel)

/-- The receiver of a global channel gives it up before the other thread sends. -/
def nullRun : List Label :=
  [.call (.lwtChan 1 chanMem), .call (.lwtCreateChan 1 createMem), .resume, .resume,
    .call (.setChanType 1 .global), .call (.lwtChanDeref 1), .call (.lwtYield none)]

theorem nullRun_faults : (booted.trace nullRun).length = nullRun.length ∧
    ((booted.after nullRun).chans 1).freed = false ∧
    ((booted.after nullRun).chans 1).receiver = none ∧
    (booted.after nullRun).step (.call (.lwtSnd 1 (.word 5))) = .error .nullPointer := by
  refine ⟨by decide +kernel, by decide +kernel, by decide +kernel, rfl⟩

end Sends

end Lwt
