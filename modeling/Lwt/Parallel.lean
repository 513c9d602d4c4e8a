import Lwt.Alike

/-! The functions of the library from two states that leftovers do not tell apart. A section that
reads no leftovers ends in the same way from both, or fails from both for the same reason. -/

namespace Lwt

open Lockstep

namespace State.Alike

/-- Sections that leave such states and go on in the same way. -/
def Goes (x y : State × Next) : Prop := x.1.Alike y.1 ∧ y.2.bare = x.2.bare

variable {σ σ' : State} (h : σ.Alike σ')

include h

theorem ret (d : Data) : Agree Goes (.ok (σ, .ret d)) (.ok (σ', .ret d) : Result (State × Next)) :=
  .ok ⟨h, rfl⟩

theorem goto (fs : List Frame) :
    Agree Goes (.ok (σ, .goto fs)) (.ok (σ', .goto fs) : Result (State × Next)) :=
  .ok ⟨h, rfl⟩

theorem lwtYield (cur : ThreadId) (yieldTo : Option ThreadId) :
    Agree Goes (σ.lwtYield cur yieldTo) (σ'.lwtYield cur yieldTo) := by
  cases yieldTo with
  | none => exact .ok ⟨h.requeue cur, rfl⟩
  | some t =>
    refine (h.thread? t).bind ?_
    rintro a b ⟨-, -, hab, -⟩
    rw [hab.state, h.ownerRunQueue]
    exact .ite Iff.rfl (fun _ => h.ret .null) fun _ =>
      .ok ⟨(h.listRem t).listHeadAppend _ t, rfl⟩

theorem lwtDie (cur : ThreadId) (message : Data) :
    Agree Goes (σ.lwtDie cur message) (σ'.lwtDie cur message) := by
  unfold State.lwtDie
  rw [h.currentKthd, (h.thread cur).chl]
  refine .ok ⟨((h.modKthd _ _).modThread ?_).emit _, rfl⟩
  exact { h.thread cur with messageData := rfl }

theorem lwtDieSnd (cur : ThreadId) : Agree Goes (σ.lwtDieSnd cur) (σ'.lwtDieSnd cur) := by
  have hz := h.modThread (t := cur) (f := fun th => { th with state := .zombies })
    (g := fun th => { th with state := .zombies })
    { h.thread cur with state := rfl, blockFor := by simp, nowRcving := by simp }
  unfold State.lwtDieSnd State.currentRecycleQueue
  simp only [modKthd_currentKthd, modThread_currentKthd, h.currentKthd]
  exact .ok ⟨((hz.modKthd _ _).listRem cur).listHeadAdd _ cur, rfl⟩

theorem lwtJoin (cur t : ThreadId) : Agree Goes (σ.lwtJoin cur t) (σ'.lwtJoin cur t) := by
  refine (h.thread? t).bind ?_
  rintro a b ⟨-, -, hab, -⟩
  rw [hab.parent, hab.nojoin, hab.chl]
  exact .ite Iff.rfl (fun _ => h.ret .null) fun _ => h.goto _

theorem incSndCnt (c : ChanId) : Agree State.Alike (σ.incSndCnt c) (σ'.incSndCnt c) := by
  have hc := h.chan c
  unfold State.incSndCnt
  rw [hc.sndCnt]
  refine .ite Iff.rfl (fun _ => .ok (h.modChan ?_)) fun _ => .error _
  exact { hc with sndCnt := by rw [hc.sndCnt] }

theorem lwtCreateChanRet (c : ChanId) (created : Data) :
    Agree Goes (σ.lwtCreateChanRet c created) (σ'.lwtCreateChanRet c created) := by
  refine (h.chan? c).bind fun _ _ _ => ?_
  cases created with
  | thd t => exact (h.incSndCnt c).bind fun τ τ' hτ => (hτ.emit _).ret _
  | _ => exact .error _

theorem lwtRcvChanRcv (cur : ThreadId) (rec : Data) :
    Agree Goes (σ.lwtRcvChanRcv cur rec) (σ'.lwtRcvChanRcv cur rec) := by
  unfold State.lwtRcvChanRcv
  split
  · exact h.ret _
  · rename_i c
    exact (h.chan? c).bind fun _ _ _ => (h.incSndCnt c).bind fun τ τ' hτ => (hτ.emit _).ret _
  · exact .error _

theorem lwtChanDeref (cur : ThreadId) (c : ChanId) :
    Agree Goes (σ.lwtChanDeref cur c) (σ'.lwtChanDeref cur c) := by
  refine (h.chan? c).bind ?_
  rintro a b ⟨rfl, rfl, hab, -⟩
  rw [hab.receiver, hab.sndCnt]
  refine .ite Iff.rfl (fun _ => .error _) fun _ => ((h.modChan ?_).emit _).ret _
  simp only [derefChan, hab.receiver, hab.sndCnt]
  split_ifs
  · exact { hab with receiver := rfl, sndCnt := rfl, freed := rfl }
  · exact { hab with receiver := rfl, sndCnt := rfl }
  · exact { hab with receiver := rfl, sndCnt := rfl, freed := rfl }
  · exact { hab with receiver := rfl, sndCnt := rfl }

theorem lwtSyncSndWakeup (cur : ThreadId) (c : ChanId) (remote : KthdId) :
    Agree Goes (σ.lwtSyncSndWakeup cur c remote) (σ'.lwtSyncSndWakeup cur c remote) := by
  unfold State.lwtSyncSndWakeup
  rw [h.wakeupQueues]
  refine .ite (by rw [h.kthds]) (fun _ => .error _) fun _ => (h.chan? c).bind ?_
  rintro a b ⟨-, -, hab, -⟩
  rw [hab.receiver]
  exact .ok ⟨(h.setWakeupQueues _).emit _, rfl⟩

theorem lwtRcvThdRcv (cur : ThreadId) (rec : Data) :
    Agree Goes (σ.lwtRcvThdRcv cur rec) (σ'.lwtRcvThdRcv cur rec) := by
  unfold State.lwtRcvThdRcv
  split
  · rename_i t
    refine (h.thread? t).bind ?_
    rintro a b ⟨-, -, hab, -⟩
    have hτ := h.modThread (t := t) (f := fun th => { th with ownerKthd := σ.currentKthd })
      (g := fun th => { th with ownerKthd := σ.currentKthd })
      { h.thread t with ownerKthd := rfl }
    simp only [h.currentKthd, hab.state]
    rw [hτ.ownerRunQueue]
    exact .ite Iff.rfl (fun _ => ((hτ.listRem t).listHeadAppend _ t).ret _) fun _ => hτ.ret _
  · exact .error _

theorem lwtCgrp (cur : ThreadId) (mem : Bool) :
    Goes (σ.lwtCgrp cur mem) (σ'.lwtCgrp cur mem) := by
  cases h with
  | mk threads chans ht hc =>
    unfold State.lwtCgrp
    split_ifs
    · exact ⟨.mk threads chans ht hc, rfl⟩
    · exact ⟨.mk threads chans ht hc, rfl⟩

theorem lwtCgrpFree (g : CgrpId) : Agree Goes (σ.lwtCgrpFree g) (σ'.lwtCgrpFree g) := by
  unfold State.lwtCgrpFree
  rw [h.cgrp?, h.chlLists]
  cases σ.cgrp? g with
  | error e => exact .error e
  | ok gr =>
    cases σ.chlLists g with
    | nil => exact (h.modCgrp g _).ret _
    | cons c cs => exact (h.chan? c).bind fun _ _ _ => h.ret _

theorem lwtCgrpWait (g : CgrpId) : Agree Goes (σ.lwtCgrpWait g) (σ'.lwtCgrpWait g) := by
  unfold State.lwtCgrpWait
  rw [h.cgrp?, h.chlLists]
  cases σ.cgrp? g with
  | error e => exact .error e
  | ok gr => exact .ite Iff.rfl (fun _ => h.ret _) fun _ => h.goto _

theorem lwtKthdTrampline (cur : ThreadId) :
    Agree Goes (σ.lwtKthdTrampline cur) (σ'.lwtKthdTrampline cur) := by
  unfold State.lwtKthdTrampline
  rw [h.kthd]
  exact .ite Iff.rfl (fun _ => h.goto _) fun _ => .error _

theorem lwtKthdLoop : Agree Goes σ.lwtKthdLoop σ'.lwtKthdLoop := by
  have hb : Agree State.Alike σ.slThdBlock σ'.slThdBlock := by
    unfold slThdBlock
    rw [h.kthd, h.currentKthd]
    cases σ.kthd.slState with
    | blocked => exact .error _
    | woken => exact .ok (h.modKthd _ _)
    | runnable => exact .ok (h.modKthd _ _)
  unfold State.lwtKthdLoop currentRunQueue
  rw [h.queues, h.currentKthd]
  exact .ite Iff.rfl (fun _ => hb.bind fun τ τ' hτ => hτ.goto _) fun _ => h.goto _

/-- A send that reads no leftovers. -/
theorem lwtSnd (cur : ThreadId) {c : ChanId} {d : Data}
    (hr : ¬ σ.ReadsLeftover (.call (.lwtSnd c d))) :
    Agree Goes (σ.lwtSnd cur c d) (σ'.lwtSnd cur c d) := by
  refine (h.chan? c).bind ?_
  rintro a b ⟨rfl, rfl, hab, hlive⟩
  have hwaits (r : ThreadId) (hrcv : (σ.chans c).receiver = some r) (hlt : r < σ.nthreads) :
      σ.Awaits r c := by
    by_contra hw
    exact hr ⟨hlive, r, hrcv, hlt, hw⟩
  rw [hab.type]
  refine .ite Iff.rfl (fun ht => ?_) fun ht => ?_
  · rw [setChanType_self ht, setChanType_self (hab.type.trans ht)]
    refine (h.chan? c).bind ?_
    rintro a b ⟨rfl, rfl, -⟩
    rw [hab.receiver]
    cases hrcv : (σ.chans c).receiver with
    | none => exact .error _
    | some r =>
      refine (h.thread? r).bind ?_
      rintro a b ⟨-, -, -, hlt⟩
      exact absurd (ht.symm.trans (hwaits r hrcv hlt).1) (by simp)
  · rw [hab.receiver]
    cases hrcv : (σ.chans c).receiver with
    | none => exact (h.emit _).ret _
    | some r =>
      refine (h.thread? r).bind ?_
      rintro a b ⟨rfl, rfl, hth, hlt⟩
      obtain ⟨-, hb, hbf, hn⟩ := hwaits r hrcv hlt
      rw [if_pos ⟨hb, hbf, hn⟩, if_pos ⟨hth.state.trans hb, (hth.blockFor hb).trans hbf,
        (hth.nowRcving hb hbf).trans hn⟩]
      have hτ := h.modThread (t := r) (f := fun th => { th with messageData := d })
        (g := fun th => { th with messageData := d }) { hth with messageData := rfl }
      exact (((hτ.resumeThread cur (t := r) (by simpa using hb)).emit _).emit _).ret _

/-- The running thread falls asleep in a receive. -/
theorem sleepRcv (cur : ThreadId) (c : ChanId) :
    ((σ.modThread cur fun th => { th with nowRcving := some c }).countBlocked cur .receiving).Alike
      ((σ'.modThread cur fun th => { th with nowRcving := some c }).countBlocked cur
        .receiving) := by
  refine State.Alike.countBlocked (h.modThread ?_) cur (by simp)
  exact { h.thread cur with nowRcving := fun _ _ => rfl }

theorem count (c : ChanId) : (σ'.chans c).buffer.count = (σ.chans c).buffer.count := by
  rw [RingBuffer.count, (h.chan c).tail, (h.chan c).head, RingBuffer.count]

/-- A receive from a channel that keeps no message. -/
theorem lwtRcv (cur : ThreadId) {c : ChanId} (hn : c < σ.nchans → (σ.chans c).buffer.count = 0)
    (hq : σ.queues (.sender c) = []) : Agree Goes (σ.lwtRcv cur c) (σ'.lwtRcv cur c) := by
  refine (h.chan? c).bind ?_
  rintro a b ⟨rfl, rfl, hab, hlive⟩
  rw [hab.type]
  refine .ite Iff.rfl (fun _ => ?_) fun _ => ?_
  · rw [hab.receiver]
    cases (σ.chans c).receiver with
    | none => exact .error _
    | some r => exact (h.thread? r).bind fun _ _ _ => h.goto _
  · rw [h.count, h.queues, if_neg (not_not.mpr (hn hlive.1)), if_neg (not_not.mpr (hn hlive.1)), hq]
    simp only [blockThread_receiving]
    exact .ok ⟨h.sleepRcv cur c, rfl⟩

theorem lwtSyncRcvLoop (cur : ThreadId) {c : ChanId}
    (hn : c < σ.nchans → (σ.chans c).buffer.count = 0) :
    Agree Goes (σ.lwtSyncRcvLoop cur c) (σ'.lwtSyncRcvLoop cur c) := by
  refine (h.chan? c).bind ?_
  rintro a b ⟨rfl, rfl, -, hlive⟩
  rw [h.count, if_neg (not_not.mpr (hn hlive.1)), if_neg (not_not.mpr (hn hlive.1))]
  exact h.goto _

theorem lwtSyncRcvBlock (cur : ThreadId) (c : ChanId) :
    Goes (σ.lwtSyncRcvBlock cur c) (σ'.lwtSyncRcvBlock cur c) :=
  ⟨(h.sleepRcv cur c).requeue cur, rfl⟩

theorem lwtChan (size : ℤ) {mem mem' : ChanMem} (hm : mem'.fill .zero = mem.fill .zero) :
    Agree (fun x y => x.1.Alike y.1 ∧ y.2 = x.2) (σ.lwtChan size mem) (σ'.lwtChan size mem') := by
  have hc : mem'.chan.isSome = mem.chan.isSome := by
    simpa [ChanMem.fill] using congrArg (fun x => x.chan.isSome) hm
  have hb : mem'.buffer.isSome = mem.buffer.isSome := by
    simpa [ChanMem.fill] using congrArg (fun x => x.buffer.isSome) hm
  unfold State.lwtChan
  cases hmc : mem.chan with
  | none =>
    obtain hmc' : mem'.chan = none := by simpa [hmc] using hc
    rw [hmc']
    exact .error _
  | some raw =>
    obtain ⟨raw', hmc'⟩ : ∃ raw', mem'.chan = some raw' := by
      rw [← Option.isSome_iff_exists, hc, hmc]
      rfl
    rw [hmc']
    refine .ok ⟨?_, h.nchans⟩
    cases h with
    | mk threads chans ht hch =>
      refine .mk threads (Function.update chans σ.nchans _) ht fun c => ?_
      by_cases hcc : c = σ.nchans
      · subst hcc
        simp only [Function.update_self, initChan, hb]
        exact ⟨rfl, rfl, rfl, rfl, rfl, rfl, rfl, rfl, rfl⟩
      · simpa [hcc] using hch c

/-- The thread structure is written but for the fields that tell where its stack starts, and why
and for which channel it slept last. -/
theorem initThread (t : ThreadId) (k : KthdId) {mem mem' : ChanMem}
    (hm : mem'.fill .zero = mem.fill .zero) :
    Agree (fun τ τ' => τ.Alike τ' ∧ ((σ'.threads t).initSp = (σ.threads t).initSp →
      (τ'.threads t).initSp = (τ.threads t).initSp)) (σ.initThread t k mem)
      (σ'.initThread t k mem') := by
  have hchan := (h.lwtChan 0 hm).mono (fun x y => x.1.Alike y.1 ∧ y.2 = x.2 ∧
    x.1.threads = σ.threads ∧ y.1.threads = σ'.threads) fun x y hx hy hxy => by
      obtain ⟨_, -, rfl⟩ := lwtChan_ok hx
      obtain ⟨_, -, rfl⟩ := lwtChan_ok hy
      exact ⟨hxy.1, hxy.2, rfl, rfl⟩
  refine hchan.bind ?_
  rintro ⟨τ, c⟩ ⟨τ', c'⟩ ⟨hτ, rfl, ht, ht'⟩
  dsimp only at ht ht'
  refine .ok ⟨?_, fun hsp => by simpa [ht, ht'] using hsp⟩
  rw [h.lwtCounter]
  have hc := hτ.chan c'
  have hcnt := (hτ.modChan (c := c') (f := fun ch => { ch with sndCnt := ch.sndCnt + 1 })
    (g := fun ch => { ch with sndCnt := ch.sndCnt + 1 })
    { hc with sndCnt := by rw [hc.sndCnt] }).emit (.acquire t c')
  refine State.Alike.setLwtCounter (hcnt.modThread ?_) _
  have hth := hcnt.thread t
  exact { hth with
    lwtId := rfl, state := rfl, parent := rfl, messageData := rfl, chl := rfl, nojoin := rfl
    ownerKthd := rfl, blockFor := by simp, nowRcving := by simp, initSp := fun h => absurd rfl h }

theorem allocThread {mem mem' : CreateMem} (hm : mem'.fill .zero = mem.fill .zero) :
    Agree (fun x y => x.1.Alike y.1 ∧ y.2 = x.2 ∧
      ((∀ t ∈ (σ.queues σ.currentRecycleQueue).head?, (σ.threads t).parent ≠ none) →
        (y.1.threads x.2).initSp = (x.1.threads x.2).initSp))
      (σ.allocThread mem) (σ'.allocThread mem') := by
  have ht : mem'.thread.isSome = mem.thread.isSome := by
    simpa [CreateMem.fill] using congrArg (fun x => x.thread.isSome) hm
  have hst : mem'.stack = mem.stack := by
    simpa [CreateMem.fill] using congrArg CreateMem.stack hm
  unfold State.allocThread
  rw [h.queues, h.currentRecycleQueue, hst]
  cases hq : σ.queues σ.currentRecycleQueue with
  | cons t ts =>
    exact .ok ⟨h.listRem t, rfl, fun hp => (h.thread t).initSp (hp t (by simp))⟩
  | nil =>
    cases hmt : mem.thread with
    | none =>
      obtain hmt' : mem'.thread = none := by simpa [hmt] using ht
      rw [hmt']
      exact .error _
    | some raw =>
      obtain ⟨raw', hmt'⟩ : ∃ raw', mem'.thread = some raw' := by
        rw [← Option.isSome_iff_exists, ht, hmt]
        rfl
      rw [hmt']
      cases mem.stack with
      | none => exact .error _
      | some stack =>
        rw [h.nthreads]
        refine .ok ⟨State.Alike.setNthreads (h.modThread ?_) _, rfl, fun _ => by simp⟩
        exact .fresh _ _ _ _ _ _

/-- A thread that is started reads no leftovers if no main thread is taken off the recycle queue. -/
theorem lwtCreate (cur : ThreadId) (flags : ℤ) {mem mem' : CreateMem}
    (hm : mem'.fill .zero = mem.fill .zero)
    (hr : ¬ σ.ReadsLeftover (.call (.lwtCreate flags mem))) :
    Agree (fun x y => x.1.Alike y.1 ∧ y.2 = x.2) (σ.lwtCreate cur flags mem)
      (σ'.lwtCreate cur flags mem') := by
  have hmc : mem'.chl.fill .zero = mem.chl.fill .zero := congrArg CreateMem.chl hm
  refine (h.allocThread hm).bind ?_
  rintro ⟨τ, t⟩ ⟨τ', t'⟩ ⟨hτ, rfl, hsp⟩
  dsimp only at hτ hsp ⊢
  rw [hτ.currentKthd]
  refine ((hτ.initThread t' τ.currentKthd hmc).mono (fun υ υ' => υ.Alike υ' ∧
    (υ'.threads t').initSp = (υ.threads t').initSp) ?_).bind ?_
  · rintro υ υ' hυ - ⟨halike, hkeep⟩
    refine ⟨halike, hkeep (hsp fun t ht hp => hr ⟨?_, t, ht, hp⟩)⟩
    obtain ⟨raw, hraw, -⟩ := initThread_ok hυ
    rw [hraw]
    rfl
  · rintro υ υ' ⟨hυ, hsp'⟩
    have hth := hυ.modThread (t := t') (f := fun th =>
      { th with parent := some cur, context := [], eax := .null, nojoin := flags % 2 = 1 })
      (g := fun th =>
        { th with parent := some cur, context := [], eax := .null, nojoin := flags % 2 = 1 })
      { hυ.thread t' with
        parent := rfl, context := rfl, eax := rfl, nojoin := rfl, initSp := fun _ => hsp' }
    refine .ok ⟨?_, rfl⟩
    rw [(hth.thread t').lwtId, State.currentRunQueue, State.currentRunQueue, hth.currentKthd]
    exact (hth.listHeadAdd _ t').emit _

theorem initKthd (k : KthdId) : (σ.initKthd k).Alike (σ'.initKthd k) := by
  cases h with
  | mk threads chans ht hc => exact .mk threads chans ht hc

theorem initiate (k : KthdId) {mem mem' : CreateMem} (hm : mem'.fill .zero = mem.fill .zero) :
    Agree State.Alike (σ.initiate k mem) (σ'.initiate k mem') := by
  have ht : mem'.thread.isSome = mem.thread.isSome := by
    simpa [CreateMem.fill] using congrArg (fun x => x.thread.isSome) hm
  unfold State.initiate
  cases hmt : mem.thread with
  | none =>
    obtain hmt' : mem'.thread = none := by simpa [hmt] using ht
    rw [hmt']
    exact .error _
  | some raw =>
    obtain ⟨raw', hmt'⟩ : ∃ raw', mem'.thread = some raw' := by
      rw [← Option.isSome_iff_exists, ht, hmt]
      rfl
    rw [hmt']
    have hmain : (σ.initMain k raw).Alike (σ'.initMain k raw') := by
      unfold initMain
      rw [h.nthreads]
      refine ((h.initKthd k).modThread ?_).setNthreads _ |>.modKthd k _
      exact .fresh _ _ _ _ _ _
    dsimp only
    rw [h.nthreads]
    refine (hmain.initThread σ.nthreads k (congrArg CreateMem.chl hm)).bind ?_
    rintro τ τ' ⟨hτ, -⟩
    exact .ok ((hτ.modKthd k _).listHeadAppend _ _)

end State.Alike

inductive Call.Alike : Call → Call → Prop
  | lwtCreate (flags : ℤ) {mem mem' : CreateMem} (h : mem'.fill .zero = mem.fill .zero) :
      Alike (.lwtCreate flags mem) (.lwtCreate flags mem')
  | lwtCreateChan (c : ChanId) {mem mem' : CreateMem} (h : mem'.fill .zero = mem.fill .zero) :
      Alike (.lwtCreateChan c mem) (.lwtCreateChan c mem')
  | lwtChan (size : ℤ) {mem mem' : ChanMem} (h : mem'.fill .zero = mem.fill .zero) :
      Alike (.lwtChan size mem) (.lwtChan size mem')
  | same (a : Call) : Alike a a

theorem Call.eq_bare_or (a : Call) : a.bare = a ∨ (∃ flags mem, a = .lwtCreate flags mem) ∨
    (∃ c mem, a = .lwtCreateChan c mem) ∨ ∃ size mem, a = .lwtChan size mem := by
  cases a with
  | lwtCreate flags mem => exact .inr (.inl ⟨flags, mem, rfl⟩)
  | lwtCreateChan c mem => exact .inr (.inr (.inl ⟨c, mem, rfl⟩))
  | lwtChan size mem => exact .inr (.inr (.inr ⟨size, mem, rfl⟩))
  | _ => exact .inl rfl

theorem Call.alike_of_bare {a b : Call} (h : b.bare = a.bare) : a.Alike b := by
  rcases a.eq_bare_or with ha | ⟨flags, mem, rfl⟩ | ⟨c, mem, rfl⟩ | ⟨size, mem, rfl⟩
  · rcases b.eq_bare_or with hb | ⟨flags, mem, rfl⟩ | ⟨c, mem, rfl⟩ | ⟨size, mem, rfl⟩
    · rw [ha, hb] at h
      exact h ▸ .same b
    · rw [← ha, ← h]
      exact .lwtCreate flags (by simp)
    · rw [← ha, ← h]
      exact .lwtCreateChan c (by simp)
    · rw [← ha, ← h]
      exact .lwtChan size (by simp)
  · cases b with
    | lwtCreate flags' mem' =>
      obtain ⟨rfl, hm⟩ : flags' = flags ∧ mem'.fill .zero = mem.fill .zero := by
        simpa [Call.fill] using h
      exact .lwtCreate flags' hm
    | _ => cases h
  · cases b with
    | lwtCreateChan c' mem' =>
      obtain ⟨rfl, hm⟩ : c' = c ∧ mem'.fill .zero = mem.fill .zero := by simpa [Call.fill] using h
      exact .lwtCreateChan c' hm
    | _ => cases h
  · cases b with
    | lwtChan size' mem' =>
      obtain ⟨rfl, hm⟩ : size' = size ∧ mem'.fill .zero = mem.fill .zero := by
        simpa [Call.fill] using h
      exact .lwtChan size' hm
    | _ => cases h

inductive Frame.Alike : Frame → Frame → Prop
  | call {a b : Call} (h : a.Alike b) : Alike (.call a) (.call b)
  | same (f : Frame) : Alike f f

theorem Frame.eq_bare_or (f : Frame) : f.bare = f ∨ ∃ a, f = .call a := by
  cases f with
  | call a => exact .inr ⟨a, rfl⟩
  | _ => exact .inl rfl

theorem Frame.alike_of_bare {f g : Frame} (h : g.bare = f.bare) : f.Alike g := by
  rcases f.eq_bare_or with hf | ⟨a, rfl⟩
  · rcases g.eq_bare_or with hg | ⟨b, rfl⟩
    · rw [hf, hg] at h
      exact h ▸ .same g
    · rw [← hf, ← h]
      exact .call (Call.alike_of_bare (by simp))
  · cases g with
    | call b => exact .call (Call.alike_of_bare (by simpa [Frame.fill] using h))
    | _ => cases h

namespace State.Alike

variable {σ σ' : State} (h : σ.Alike σ') (hu : Untouched σ)

include h hu

theorem call (cur : ThreadId) {a b : Call} (hab : a.Alike b) (hr : ¬ σ.ReadsLeftover (.call a))
    (hm : ∀ c, a ≠ .lwtChanMarkGet c) : Agree Goes (σ.call cur a) (σ'.call cur b) := by
  have hrcv (c : ChanId) := h.lwtRcv cur (hu.empty c) (hu.senders c)
  cases hab with
  | lwtCreate flags hmem =>
    refine (h.lwtCreate cur flags hmem hr).bind ?_
    rintro ⟨τ, t⟩ ⟨τ', t'⟩ ⟨hτ, rfl⟩
    exact hτ.ret _
  | lwtCreateChan c hmem =>
    exact .ok ⟨h, by simp [Next.fill, Frame.fill, Call.fill, hmem]⟩
  | lwtChan size hmem =>
    refine (h.lwtChan size hmem).bind ?_
    rintro ⟨τ, c⟩ ⟨τ', c'⟩ ⟨hτ, rfl⟩
    exact hτ.ret _
  | same =>
    cases a with
    | lwtCreate flags mem =>
      refine (h.lwtCreate cur flags rfl hr).bind ?_
      rintro ⟨τ, t⟩ ⟨τ', t'⟩ ⟨hτ, rfl⟩
      exact hτ.ret _
    | lwtCreateChan c mem => exact h.goto _
    | lwtChan size mem =>
      refine (h.lwtChan size rfl).bind ?_
      rintro ⟨τ, c⟩ ⟨τ', c'⟩ ⟨hτ, rfl⟩
      exact hτ.ret _
    | lwtYield t => exact h.lwtYield cur t
    | lwtDie d => exact h.lwtDie cur d
    | lwtJoin t => exact h.lwtJoin cur t
    | setChanType c type =>
      refine (h.chan? c).bind fun _ _ _ => (h.modChan ?_).ret _
      exact { h.chan c with type := rfl }
    | lwtChanDeref c => exact h.lwtChanDeref cur c
    | lwtSnd c d => exact h.lwtSnd cur hr
    | lwtRcv c => exact hrcv c
    | lwtSndChan c c' => exact h.goto _
    | lwtRcvChan c => exact h.goto _
    | lwtCgrp mem => exact .ok (h.lwtCgrp cur mem)
    | lwtCgrpAdd g c =>
      refine (h.chan? c).bind ?_
      rintro _ _ ⟨-, -, -, hlive⟩
      exact absurd hlive hr
    | lwtCgrpRem g c =>
      refine (h.chan? c).bind ?_
      rintro _ _ ⟨-, -, -, hlive⟩
      exact absurd hlive hr
    | lwtCgrpFree g => exact h.lwtCgrpFree g
    | lwtCgrpWait g => exact h.lwtCgrpWait g
    | lwtChanMarkSet c mark =>
      refine (h.chan? c).bind fun _ _ _ => (h.modChan ?_).ret _
      exact { h.chan c with }
    | lwtChanMarkGet c => exact absurd rfl (hm c)
    | lwtSndThd c t => exact .ite Iff.rfl (fun _ => .error _) fun _ => h.goto _
    | lwtRcvThd c => exact h.goto _
    | lwtKthdTrampline => exact h.lwtKthdTrampline cur

theorem body (cur : ThreadId) {f g : Frame} (hfg : f.Alike g) (hr : ¬ σ.ReadsLeftover f)
    (hw : ∀ g, f ≠ .cgrpWaitLoop g) (hm : ∀ c, f ≠ .call (.lwtChanMarkGet c)) :
    Agree Goes (σ.body cur f) (σ'.body cur g) := by
  have hcur := h.thread cur
  cases hfg with
  | @call a b hab => exact h.call hu cur hab hr fun c hc => hm c (congrArg _ hc)
  | same =>
    cases f with
    | call a => exact h.call hu cur (.same a) hr fun c hc => hm c (congrArg _ hc)
    | createChanRet c =>
      simp only [State.body, hcur.eax]
      exact h.lwtCreateChanRet c _
    | sndRet c => exact (h.emit _).ret _
    | rcvRet c =>
      simp only [State.body, hcur.messageData]
      exact (h.emit _).ret _
    | syncSndWakeup c remote => exact h.lwtSyncSndWakeup cur c remote
    | syncRcvLoop c => exact h.lwtSyncRcvLoop cur (hu.empty c)
    | syncRcvBlock c => exact .ok (h.lwtSyncRcvBlock cur c)
    | cgrpWaitLoop g => exact absurd rfl (hw g)
    | dieSnd => exact h.lwtDieSnd cur
    | died => exact .error _
    | joinRcv t =>
      simp only [State.body, hcur.eax]
      exact h.goto _
    | joinYield t d => exact (h.emit _).ret _
    | sndChanSnd =>
      simp only [State.body, hcur.eax]
      exact h.goto _
    | sndChanYield d => exact h.ret d
    | rcvChanRcv =>
      simp only [State.body, hcur.eax]
      exact h.lwtRcvChanRcv cur _
    | rcvThdRcv =>
      simp only [State.body, hcur.eax]
      exact h.lwtRcvThdRcv cur _
    | kthdLoop => exact h.lwtKthdLoop
    | kthdBlocked => exact .ok ⟨h, rfl⟩

theorem exec (cur : ThreadId) {f g : Frame} {k k' : List Frame} (hfg : f.Alike g)
    (hk : k'.map Frame.bare = k.map Frame.bare) (hr : ¬ σ.ReadsLeftover f)
    (hw : ∀ g, f ≠ .cgrpWaitLoop g) (hm : ∀ c, f ≠ .call (.lwtChanMarkGet c)) :
    Agree State.Alike (σ.exec cur f k) (σ'.exec cur g k') := by
  refine (h.body hu cur hfg hr hw hm).bind ?_
  rintro ⟨τ, n⟩ ⟨τ', n'⟩ ⟨hτ, hn⟩
  exact hτ.finish cur hk hn

omit hu in
theorem context_nil (cur : ThreadId) :
    (σ'.threads cur).context = [] ↔ (σ.threads cur).context = [] := by
  rw [← List.map_eq_nil_iff (f := Frame.bare), (h.thread cur).context, List.map_eq_nil_iff]

/-- A step that reads no leftovers, from states that they do not tell apart. -/
theorem step {l l' : Label} (hl : l'.bare = l.bare) (hr : ¬ σ.Reads l)
    (hm : ∀ c, l ≠ .call (.lwtChanMarkGet c)) : Agree State.Alike (σ.step l) (σ'.step l') := by
  cases l with
  | call a =>
    cases l' with
    | call b =>
      simp only [State.step, h.lwtCurrent, h.kthd]
      cases hcur : σ.lwtCurrent with
      | none => exact .error _
      | some cur =>
        refine .ite (and_congr (h.context_nil cur).symm Iff.rfl) (fun hc => ?_) fun _ => .error _
        have hab : a.Alike b := Call.alike_of_bare (by simpa [Label.fill] using hl)
        refine h.exec hu cur (.call hab) rfl (fun hf => ?_) (fun _ => by simp) fun c hc => ?_
        · exact hr ⟨(cur, .call a, []), by simp [attempt, hcur, hc.1, hc.2], hf⟩
        · exact hm c (congrArg Label.call (Frame.call.inj hc))
    | _ => cases hl
  | resume =>
    cases l' with
    | resume =>
      simp only [State.step, h.lwtCurrent, h.kthd]
      cases hcur : σ.lwtCurrent with
      | none => exact .error _
      | some cur =>
        have hctx := (h.thread cur).context
        cases hf : (σ.threads cur).context with
        | nil =>
          simp only [hf, (h.context_nil cur).mpr hf]
          exact .error _
        | cons f k =>
          rw [hf, List.map_cons] at hctx
          obtain ⟨g, k', hg, hgf, hk⟩ := List.map_eq_cons_iff.mp hctx
          simp only [hf, hg]
          refine .ite Iff.rfl (fun hb => ?_) fun _ => .error _
          refine h.exec hu cur (Frame.alike_of_bare hgf) hk (fun hl => ?_) (fun g hg => ?_) ?_
          · exact hr ⟨(cur, f, k), by simp [attempt, hcur, hf, hb], hl⟩
          · exact hu.waits cur g (by rw [hf, hg]; exact List.mem_cons_self)
          · intro c hc
            exact hu.marks cur c (by rw [hf, hc]; exact List.mem_cons_self)
    | _ => cases hl
  | switch k =>
    cases l' with
    | switch k' =>
      obtain rfl : k' = k := by simpa [Label.fill] using hl
      exact .ite (by rw [h.kthds]) (fun _ => .ok (h.setCurrentKthd k')) fun _ => .error _
    | _ => cases hl
  | initiate k mem =>
    cases l' with
    | initiate k' mem' =>
      obtain ⟨rfl, hmem⟩ : k' = k ∧ mem'.fill .zero = mem.fill .zero := by
        simpa [Label.fill] using hl
      refine .ite (by rw [h.kthds]) (fun _ => ?_) fun _ => .error _
      exact .ite Iff.rfl (fun _ => h.initiate k' hmem) fun _ => .error _
    | _ => cases hl

end State.Alike

end Lwt
