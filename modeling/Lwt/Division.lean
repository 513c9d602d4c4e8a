import Lwt.Indices

/-! The remainder operations on the size of a channel. Those of `lwt_snd` and `lwt_rcv` stand
behind the tests for a full and an empty ring, which a ring without slots always meets; the one
of `lwt_sync_snd` stands behind no test. -/

namespace Lwt

open State

variable {σ τ σ₀ : State} {l : Label} {cur t : ThreadId} {f : Frame} {rest : List Frame}
  {c : ChanId} {d : Data} {n : Next} {k : KthdId} {tr : List (State × Label)}

namespace State

section Avoids

theorem chan?_avoids : Avoids .divByZero (σ.chan? c) := by
  unfold chan?
  split_ifs <;> simp

theorem cgrp?_avoids {g : CgrpId} : Avoids .divByZero (σ.cgrp? g) := by
  unfold cgrp?
  split_ifs <;> simp

theorem thread?_avoids : Avoids .divByZero (σ.thread? t) := by
  unfold thread?
  split_ifs <;> simp

theorem incSndCnt_avoids : Avoids .divByZero (σ.incSndCnt c) := by
  unfold incSndCnt
  split_ifs <;> simp

theorem ringWrite_avoids (h : (σ.chans c).size ≠ 0) : Avoids .divByZero (σ.ringWrite c d) := by
  unfold ringWrite
  simp only [if_neg h]
  split_ifs <;> simp

theorem ringRead_avoids (h : (σ.chans c).size ≠ 0) : Avoids .divByZero (σ.ringRead c) := by
  unfold ringRead
  simp only [if_neg h]
  split_ifs <;> simp

theorem firstReady_avoids {cs : List ChanId} : Avoids .divByZero (σ.firstReady cs) := by
  induction cs with
  | nil => exact avoids_ok
  | cons c cs ih => exact chan?_avoids.bind fun ch _ => .ite (fun _ => avoids_ok) fun _ => ih

theorem wakeGroup_avoids {cgroup : Option CgrpId} :
    Avoids .divByZero (σ.wakeGroup cur cgroup) := by
  cases cgroup with
  | none => exact avoids_ok
  | some g => exact cgrp?_avoids.bind fun _ _ => avoids_ok

theorem lwtChan_avoids {size : ℤ} {mem : ChanMem} : Avoids .divByZero (σ.lwtChan size mem) := by
  unfold lwtChan
  split <;> simp

theorem initThread_avoids {mem : ChanMem} : Avoids .divByZero (σ.initThread t k mem) :=
  lwtChan_avoids.bind fun _ _ => avoids_ok

theorem lwtCreate_avoids {flags : ℤ} {mem : CreateMem} :
    Avoids .divByZero (σ.lwtCreate cur flags mem) := by
  refine .bind ?_ fun _ _ => initThread_avoids.bind fun _ _ => avoids_ok
  unfold allocThread
  split <;> simp

theorem initiate_avoids {mem : CreateMem} : Avoids .divByZero (σ.initiate k mem) := by
  unfold initiate
  split
  · simp
  · exact initThread_avoids.bind fun _ _ => avoids_ok

end Avoids

/-- Every channel without slots has an empty ring. -/
def Hollow (σ : State) : Prop :=
  ∀ c < σ.nchans, (σ.chans c).size = 0 → (σ.chans c).buffer.count = 0

structure SndsHollow (σ : State) (c : ChanId) : Prop where
  live : c < σ.nchans ∧ (σ.chans c).freed = false
  type : (σ.chans c).type = .global
  size : (σ.chans c).size = 0
  receiver : ∃ r, (σ.chans c).receiver = some r ∧ r < σ.nthreads
  unlocked : (σ.chans c).rbOccupied = 0

theorem lwtSyncSnd_avoids (h : ¬ σ.SndsHollow c) (ht : (σ.chans c).type = .global) :
    Avoids .divByZero (σ.lwtSyncSnd cur c d) := by
  refine chan?_avoids.bind fun ch hch => ?_
  obtain ⟨rfl, hc, hfree⟩ := chan?_ok hch
  split
  · simp
  · rename_i r hr
    refine thread?_avoids.bind fun rcv hrcv => ?_
    obtain ⟨-, hlt⟩ := thread?_ok hrcv
    refine .ite (fun _ => by simp) fun hocc => ?_
    refine (ringWrite_avoids fun h0 => ?_).bind fun _ _ => avoids_ok
    exact h ⟨⟨hc, hfree⟩, ht, h0, ⟨r, hr, hlt⟩, not_not.mp hocc⟩

theorem lwtSndQueue_avoids (hH : σ.Hollow) (hc : c < σ.nchans) :
    Avoids .divByZero (σ.lwtSndQueue cur c d) := by
  refine wakeGroup_avoids.bind fun τ hτ => .ite (fun hn => ?_) fun _ => avoids_ok
  have hsize : (σ.chans c).size ≠ 0 := fun h0 => hn ((hH c hc h0).trans h0.symm)
  refine (ringWrite_avoids ?_).bind fun _ _ => avoids_ok
  simpa [(wakeGroup_ok hτ).chans] using hsize

theorem lwtSnd_avoids (hH : σ.Hollow) (h : ¬ σ.SndsHollow c) :
    Avoids .divByZero (σ.lwtSnd cur c d) := by
  refine chan?_avoids.bind fun ch hch => ?_
  obtain ⟨rfl, hc, -⟩ := chan?_ok hch
  refine .ite (fun ht => ?_) fun _ => ?_
  · rw [setChanType_self ht]
    exact lwtSyncSnd_avoids h ht
  · split
    · simp
    · exact thread?_avoids.bind fun _ _ => .ite (fun _ => avoids_ok) fun _ =>
        lwtSndQueue_avoids hH hc

theorem lwtRcvRing_avoids (hsize : (σ.chans c).size ≠ 0) :
    Avoids .divByZero (σ.lwtRcvRing cur c) := by
  refine (ringRead_avoids hsize).bind fun x hx => ?_
  obtain ⟨-, -, rfl⟩ := ringRead_ok hx
  dsimp only
  split
  · exact avoids_ok
  · refine (ringWrite_avoids ?_).bind fun _ _ => avoids_ok
    simpa using hsize

theorem lwtRcv_avoids (hH : σ.Hollow) : Avoids .divByZero (σ.lwtRcv cur c) := by
  refine chan?_avoids.bind fun ch hch => ?_
  obtain ⟨rfl, hc, -⟩ := chan?_ok hch
  refine .ite (fun _ => ?_) fun _ => .ite (fun hn => ?_) fun _ => ?_
  · split
    · simp
    · exact thread?_avoids.bind fun _ _ => avoids_ok
  · exact lwtRcvRing_avoids fun h0 => hn (hH c hc h0)
  · split <;> simp

theorem lwtSyncRcvLoop_avoids (hH : σ.Hollow) : Avoids .divByZero (σ.lwtSyncRcvLoop cur c) := by
  refine chan?_avoids.bind fun ch hch => ?_
  obtain ⟨rfl, hc, -⟩ := chan?_ok hch
  refine .ite (fun hn => ?_) fun _ => avoids_ok
  exact (ringRead_avoids fun h0 => hn (hH c hc h0)).bind fun _ _ => avoids_ok

theorem call_avoids {a : Call} (hH : σ.Hollow)
    (h : ∀ c d, a = .lwtSnd c d → ¬ σ.SndsHollow c) : Avoids .divByZero (σ.call cur a) := by
  cases a with
  | lwtCreate flags mem => exact lwtCreate_avoids.bind fun _ _ => avoids_ok
  | lwtChan size mem => exact lwtChan_avoids.bind fun _ _ => avoids_ok
  | lwtYield yieldTo =>
    cases yieldTo with
    | none => exact avoids_ok
    | some t => exact thread?_avoids.bind fun _ _ => .ite (fun _ => avoids_ok) fun _ => avoids_ok
  | lwtJoin t => exact thread?_avoids.bind fun _ _ => .ite (fun _ => avoids_ok) fun _ => avoids_ok
  | setChanType c type => exact chan?_avoids.bind fun _ _ => avoids_ok
  | lwtChanDeref c => exact chan?_avoids.bind fun _ _ => .ite (fun _ => by simp) fun _ => avoids_ok
  | lwtSnd c d => exact lwtSnd_avoids hH (h c d rfl)
  | lwtRcv c => exact lwtRcv_avoids hH
  | lwtCgrpAdd g c =>
    exact chan?_avoids.bind fun _ _ => .ite (fun _ => avoids_ok) fun _ =>
      cgrp?_avoids.bind fun _ _ => avoids_ok
  | lwtCgrpRem g c =>
    exact chan?_avoids.bind fun _ _ => .ite (fun _ => avoids_ok) fun _ =>
      .ite (fun _ => avoids_ok) fun _ => avoids_ok
  | lwtCgrpFree g =>
    refine cgrp?_avoids.bind fun _ _ => ?_
    split
    · exact chan?_avoids.bind fun _ _ => avoids_ok
    · exact avoids_ok
  | lwtCgrpWait g => exact cgrp?_avoids.bind fun _ _ => .ite (fun _ => avoids_ok) fun _ => avoids_ok
  | lwtChanMarkSet c mark => exact chan?_avoids.bind fun _ _ => avoids_ok
  | lwtChanMarkGet c => exact chan?_avoids.bind fun _ _ => avoids_ok
  | lwtSndThd c t => exact .ite (fun _ => by simp) fun _ => avoids_ok
  | lwtKthdTrampline => exact .ite (fun _ => avoids_ok) fun _ => by simp
  | lwtCreateChan | lwtDie | lwtSndChan | lwtRcvChan | lwtCgrp | lwtRcvThd => exact avoids_ok

theorem body_avoids (hH : σ.Hollow) (h : ∀ c d, f = .call (.lwtSnd c d) → ¬ σ.SndsHollow c) :
    Avoids .divByZero (σ.body cur f) := by
  cases f with
  | call a => exact call_avoids hH fun c d ha => h c d (congrArg Frame.call ha)
  | createChanRet c =>
    refine chan?_avoids.bind fun _ _ => ?_
    split
    · exact incSndCnt_avoids.bind fun _ _ => avoids_ok
    · simp
  | syncSndWakeup c remote =>
    exact .ite (fun _ => by simp) fun _ => chan?_avoids.bind fun _ _ => avoids_ok
  | syncRcvLoop c => exact lwtSyncRcvLoop_avoids hH
  | cgrpWaitLoop g =>
    refine cgrp?_avoids.bind fun _ _ => firstReady_avoids.bind fun o _ => ?_
    cases o <;> exact avoids_ok
  | died => exact avoids_error.mpr (by simp)
  | rcvChanRcv =>
    simp only [body, lwtRcvChanRcv]
    split
    · exact avoids_ok
    · exact chan?_avoids.bind fun _ _ => incSndCnt_avoids.bind fun _ _ => avoids_ok
    · simp
  | rcvThdRcv =>
    simp only [body, lwtRcvThdRcv]
    split
    · exact thread?_avoids.bind fun _ _ => .ite (fun _ => avoids_ok) fun _ => avoids_ok
    · simp
  | kthdLoop =>
    refine .ite (fun _ => .bind ?_ fun _ _ => avoids_ok) fun _ => avoids_ok
    unfold slThdBlock
    split <;> simp
  | sndRet | rcvRet | syncRcvBlock | dieSnd | joinRcv | joinYield | sndChanSnd | sndChanYield
  | kthdBlocked => exact avoids_ok

/-- No remainder is taken by zero but in a send on a GLOBAL channel without slots. -/
theorem exec_avoids (hH : σ.Hollow) (h : ∀ c d, f = .call (.lwtSnd c d) → ¬ σ.SndsHollow c) :
    Avoids .divByZero (σ.exec cur f rest) :=
  (body_avoids hH h).bind fun _ _ => finish_avoids (by decide) (by decide)

/-- There the remainder is taken by zero. -/
theorem exec_divByZero (h : σ.SndsHollow c) :
    σ.exec cur (.call (.lwtSnd c d)) rest = .error .divByZero := by
  obtain ⟨⟨hc, hfree⟩, ht, h0, ⟨r, hr, hlt⟩, hocc⟩ := h
  have hchan : σ.chan? c = .ok (σ.chans c) := by simp [chan?, hc, hfree]
  have hthread : σ.thread? r = .ok (σ.threads r) := by simp [thread?, hlt]
  have hbody : σ.lwtSnd cur c d = .error .divByZero := by
    simp [lwtSnd, hchan, bind, Except.bind, ht, setChanType_self ht, lwtSyncSnd, hr, hthread, hocc,
      ringWrite, h0]
  simp only [exec, body, call, hbody, bind, Except.bind]

end State

section Runs

theorem hollow_step (hH : σ.Hollow) (hs : Step σ l τ) : τ.Hollow := by
  intro c hc h0
  obtain ⟨cur, f, rest, hsec⟩ | ⟨k, rfl, rfl⟩ | ⟨k, mem, rfl, -, hi⟩ := step_cases hs
  · rcases lt_or_ge c σ.nchans with hlt | hge
    · rw [hsec.size hlt] at h0
      rw [hsec.hollow hlt h0]
      exact hH c hlt h0
    · obtain ⟨htl, hhd, -⟩ := ((exec_net hsec.exec).created hge hc).2.empty
      exact RingBuffer.count_empty htl hhd
  · exact hH c hc h0
  · obtain ⟨_, ch, -, -, -, -, htl, hhd, -, -, -, -, -, rfl⟩ := initiate_ok hi
    by_cases hn : c = σ.nchans
    · simpa [hn] using RingBuffer.count_empty htl hhd
    · have hlt : c < σ.nchans := lt_of_le_of_ne (Nat.le_of_lt_succ hc) hn
      have h0 : (σ.chans c).size = 0 := by simpa [hn] using h0
      simpa [hn] using hH c hlt h0

theorem boot_hollow (hb : σ.Boot k) : σ.Hollow := by
  intro c hc _
  have h := boot_ok hb
  obtain ⟨htl, hhd, -⟩ := h.chan
  rw [h.chan_eq hc]
  exact RingBuffer.count_empty htl hhd

def SendsHollow (σ : State) (l : Label) : Prop :=
  ∃ cur c d rest, σ.attempt l = some (cur, .call (.lwtSnd c d), rest) ∧ σ.SndsHollow c

/-- In the runs of any kernel threads no step takes a remainder by zero if and only if it does
not send on a GLOBAL channel without slots that has a receiver. -/
theorem divides_iff (h : Run σ₀ tr σ) (hb : σ₀.Boot k) :
    σ.step l ≠ .error .divByZero ↔ ¬ SendsHollow σ l := by
  have hH : σ.Hollow := h.invariant (boot_hollow hb) fun s l s' hH hs => hollow_step hH hs
  constructor
  · rintro hne ⟨cur, c, d, rest, ha, hc⟩
    obtain ⟨-, -, hstep⟩ := attempt_ok ha
    exact hne (hstep.trans (exec_divByZero hc))
  · intro hn he
    rcases attempt_of_error he (by simp) with ⟨cur, f, rest, ha⟩ | ⟨k, mem, rfl⟩
    · obtain ⟨-, -, hstep⟩ := attempt_ok ha
      refine exec_avoids hH ?_ (hstep.symm.trans he)
      rintro c d rfl hc
      exact hn ⟨cur, c, d, rest, ha, hc⟩
    · simp only [State.step] at he
      split_ifs at he
      · exact initiate_avoids he
      · cases he
      · cases he

def oneSlotRun : List Label := [.call (.lwtChan 1 chanMem), .call (.setChanType 1 .global)]

theorem oneSlotRun_divides :
    (booted.after oneSlotRun).step (.call (.lwtSnd 1 (.word 5))) ≠ .error .divByZero := by
  refine (divides_iff (State.run_trace booted oneSlotRun) boot_booted).mpr ?_
  rintro ⟨cur, c, d, rest, ha, hc⟩
  obtain ⟨-, hf, -⟩ := attempt_ok ha
  cases hf
  exact absurd hc.size (by decide +kernel)

def hollowRun : List Label :=
  [.call (.lwtChan 0 chanMem), .call (.setChanType 1 .global)]

theorem hollowRun_divides_by_zero : (booted.trace hollowRun).length = hollowRun.length ∧
    ((booted.after hollowRun).chans 1).size = 0 ∧
    (booted.after hollowRun).step (.call (.lwtSnd 1 (.word 5))) = .error .divByZero :=
  ⟨by decide +kernel, by decide +kernel, rfl⟩

end Runs

end Lwt
