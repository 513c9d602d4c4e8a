import Lwt.Sched

/-! What each function of the library does when it does not fail, one case for
each way through it. -/

namespace Lwt

namespace State

variable {σ τ : State} {cur : ThreadId} {c : ChanId} {d : Data} {n : Next}

theorem ringWrite_ok (h : σ.ringWrite c d = .ok τ) :
    (σ.chans c).size ≠ 0 ∧ (σ.chans c).buffer.Fits (σ.chans c).size (σ.chans c).buffer.tail ∧
      τ = σ.modChan c fun ch => { ch with buffer := ch.buffer.push ch.size d } := by
  simp only [ringWrite] at h
  split_ifs at h with h0 hf
  exact ⟨h0, hf, (Except.ok.inj h).symm⟩

theorem ringRead_ok {x : State × Data} (h : σ.ringRead c = .ok x) :
    (σ.chans c).size ≠ 0 ∧ (σ.chans c).buffer.Fits (σ.chans c).size (σ.chans c).buffer.head ∧
      x = (σ.modChan c fun ch => { ch with buffer := ch.buffer.pop },
        (σ.chans c).buffer.front (σ.chans c).size) := by
  simp only [ringRead] at h
  split_ifs at h with h0 hf
  exact ⟨h0, hf, (Except.ok.inj h).symm⟩

theorem incSndCnt_ok (h : σ.incSndCnt c = .ok τ) :
    (σ.chans c).sndCnt < 2147483647 ∧
      τ = σ.modChan c fun ch => { ch with sndCnt := ch.sndCnt + 1 } := by
  unfold incSndCnt at h
  split_ifs at h with h0
  exact ⟨h0, (Except.ok.inj h).symm⟩

theorem setChanType_self {type : ChanType} (h : (σ.chans c).type = type) :
    σ.setChanType c type = σ := by
  subst h
  unfold setChanType modChan
  rw [Function.update_eq_self]

theorem pollWakeupQueue_ok (h : σ.pollWakeupQueue = .ok τ) : τ = σ := by
  unfold pollWakeupQueue at h
  split at h
  · split at h <;> simp_all
  · simpa using h.symm

theorem lwtSchedule_ok (h : σ.lwtSchedule = .ok τ) :
    ∃ t rest, σ.queues σ.currentRunQueue = t :: rest ∧
      τ = (σ.modThread t fun th => { th with state := .running }).modKthd σ.currentKthd
        fun kt => { kt with currentThread := some t } := by
  unfold lwtSchedule at h
  split at h
  · cases h
  · rename_i t rest hq
    obtain ⟨τ', hp, h⟩ := bind_ok h
    rw [pollWakeupQueue_ok hp] at h
    exact ⟨t, rest, hq, (Except.ok.inj h).symm⟩

theorem lwtSchedule_avoids {e : Fault} (hq : e ≠ .emptyRunQueue) (hf : e ≠ .useAfterFree) :
    Avoids e σ.lwtSchedule := by
  unfold lwtSchedule
  split
  · exact avoids_error.mpr hq.symm
  · refine .bind ?_ fun _ _ => avoids_ok
    unfold pollWakeupQueue
    split
    · split
      · exact avoids_ok
      · exact avoids_error.mpr hf.symm
    · exact avoids_ok

theorem finish_avoids {e : Fault} {k : List Frame} (hq : e ≠ .emptyRunQueue)
    (hf : e ≠ .useAfterFree) : Avoids e (σ.finish cur k n) := by
  cases n with
  | ret d => exact avoids_ok
  | goto fs => exact avoids_ok
  | schedule fs => exact lwtSchedule_avoids hq hf

/-- The ways through the group wake-up of `lwt_snd`. -/
inductive WakeGroup (σ : State) (cur : ThreadId) (cgroup : Option CgrpId) : State → Prop
  | skip (h : ∀ g, cgroup = some g → (σ.cgrps g).blocked = false) : WakeGroup σ cur cgroup σ
  | wake (g : CgrpId) (hc : cgroup = some g) (hg : g < σ.ncgrps)
      (hb : (σ.cgrps g).blocked = true) :
      WakeGroup σ cur cgroup (σ.resumeThread cur (σ.cgrps g).owner)

theorem wakeGroup_ok {cgroup : Option CgrpId} (h : σ.wakeGroup cur cgroup = .ok τ) :
    WakeGroup σ cur cgroup τ := by
  unfold wakeGroup at h
  split at h
  · cases h
    exact .skip (by simp)
  · rename_i g
    obtain ⟨gr, hgr, h⟩ := bind_ok h
    obtain ⟨rfl, hg, -⟩ := cgrp?_ok hgr
    simp only [Except.ok.injEq] at h
    subst h
    split_ifs with hb
    · exact .wake g rfl hg hb
    · exact .skip (by rintro g' ⟨⟩; simpa using hb)

inductive LwtSnd (σ : State) (cur : ThreadId) (c : ChanId) (d : Data) : State → Next → Prop
  | sync (r : ThreadId) (ht : (σ.chans c).type = .global) (hr : (σ.chans c).receiver = some r)
      (hl : (σ.chans c).rbOccupied = 0) (h0 : (σ.chans c).size ≠ 0)
      (hf : (σ.chans c).buffer.Fits (σ.chans c).size (σ.chans c).buffer.tail) :
      LwtSnd σ cur c d
        ((σ.modChan c fun ch => { ch with buffer := ch.buffer.push ch.size d }).emit (.snd cur c d))
        (.goto [.syncSndWakeup c (σ.threads r).ownerKthd])
  | noReceiver (ht : (σ.chans c).type = .local) (hr : (σ.chans c).receiver = none) :
      LwtSnd σ cur c d (σ.emit (.sndNone cur c d)) (.ret (.word (-1)))
  | handOff (r : ThreadId) (ht : (σ.chans c).type = .local) (hr : (σ.chans c).receiver = some r)
      (hlt : r < σ.nthreads) (hb : (σ.threads r).task.Receiving)
      (hn : (σ.threads r).nowRcving = some c) :
      LwtSnd σ cur c d
        ((((σ.modThread r fun th => { th with messageData := d }).resumeThread cur r).emit
          (.snd cur c d)).emit (.sndDone cur c)) (.ret .null)
  | ring (r : ThreadId) (σ₁ : State) (ht : (σ.chans c).type = .local)
      (hr : (σ.chans c).receiver = some r)
      (hb : ¬ ((σ.threads r).task.Receiving ∧ (σ.threads r).nowRcving = some c))
      (hw : WakeGroup (σ.modChan c fun ch => { ch with ready := 1 }) cur (σ.chans c).cgroup σ₁)
      (hn : (σ.chans c).buffer.count ≠ (σ.chans c).size) (h0 : (σ.chans c).size ≠ 0)
      (hf : (σ.chans c).buffer.Fits (σ.chans c).size (σ.chans c).buffer.tail) :
      LwtSnd σ cur c d
        (((σ₁.emit (.snd cur c d)).modChan c fun ch =>
          { ch with buffer := ch.buffer.push ch.size d }).emit (.sndDone cur c)) (.ret .null)
  | block (r : ThreadId) (σ₁ : State) (ht : (σ.chans c).type = .local)
      (hr : (σ.chans c).receiver = some r)
      (hb : ¬ ((σ.threads r).task.Receiving ∧ (σ.threads r).nowRcving = some c))
      (hw : WakeGroup (σ.modChan c fun ch => { ch with ready := 1 }) cur (σ.chans c).cgroup σ₁)
      (hn : (σ.chans c).buffer.count = (σ.chans c).size) :
      LwtSnd σ cur c d
        (((σ₁.emit (.snd cur c d)).modThread cur fun th =>
          { th with messageData := d }).blockThread cur .sending c) (.schedule [.sndRet c])

@[simp] theorem resumeThread_chans (σ : State) (cur t : ThreadId) :
    (σ.resumeThread cur t).chans = σ.chans := rfl

theorem WakeGroup.chans {cgroup : Option CgrpId} (h : WakeGroup σ cur cgroup τ) :
    τ.chans = σ.chans := by
  cases h <;> rfl

theorem lwtSnd_ok (h : σ.lwtSnd cur c d = .ok (τ, n)) :
    c < σ.nchans ∧ (σ.chans c).freed = false ∧ LwtSnd σ cur c d τ n := by
  unfold lwtSnd at h
  obtain ⟨ch, hch, h⟩ := bind_ok h
  obtain ⟨rfl, hc, hfree⟩ := chan?_ok hch
  refine ⟨hc, hfree, ?_⟩
  split_ifs at h with ht
  · rw [setChanType_self ht, lwtSyncSnd] at h
    obtain ⟨ch, hch, h⟩ := bind_ok h
    obtain ⟨rfl, -, -⟩ := chan?_ok hch
    split at h
    · cases h
    · rename_i r hr
      obtain ⟨rcv, hrcv, h⟩ := bind_ok h
      obtain ⟨rfl, -⟩ := thread?_ok hrcv
      split_ifs at h with hl
      obtain ⟨τ', hw, h⟩ := bind_ok h
      obtain ⟨h0, hf, rfl⟩ := ringWrite_ok hw
      cases h
      exact .sync r ht hr (by simpa using hl) h0 hf
  · replace ht : (σ.chans c).type = .local := by
      cases hc : (σ.chans c).type <;> simp_all
    split at h
    · rename_i hr
      cases h
      exact .noReceiver ht hr
    · rename_i r hr
      obtain ⟨rcv, hrcv, h⟩ := bind_ok h
      obtain ⟨rfl, hlt⟩ := thread?_ok hrcv
      split_ifs at h with hb
      · cases h
        exact .handOff r ht hr hlt ⟨hb.1, hb.2.1⟩ hb.2.2
      · replace hb : ¬ ((σ.threads r).task.Receiving ∧ (σ.threads r).nowRcving = some c) := by
          rintro ⟨⟨h1, h2⟩, h3⟩
          exact hb ⟨h1, h2, h3⟩
        unfold lwtSndQueue at h
        obtain ⟨σ₁, hw, h⟩ := bind_ok h
        replace hw := wakeGroup_ok hw
        have hch : σ₁.chans c = { σ.chans c with ready := 1 } := by rw [hw.chans]; simp
        split_ifs at h with hn
        · obtain ⟨τ', hwr, h⟩ := bind_ok h
          obtain ⟨h0, hf, rfl⟩ := ringWrite_ok hwr
          cases h
          simp only [emit_chans, hch] at h0 hf
          exact .ring r σ₁ ht hr hb hw hn h0 hf
        · cases h
          exact .block r σ₁ ht hr hb hw (by simpa using hn)

inductive LwtRcv (σ : State) (cur : ThreadId) (c : ChanId) : State → Next → Prop
  | sync (r : ThreadId) (ht : (σ.chans c).type = .global) (hr : (σ.chans c).receiver = some r) :
      LwtRcv σ cur c σ (.goto [.syncRcvLoop c])
  | ring (ht : (σ.chans c).type = .local) (hn : (σ.chans c).buffer.count ≠ 0)
      (h0 : (σ.chans c).size ≠ 0)
      (hf : (σ.chans c).buffer.Fits (σ.chans c).size (σ.chans c).buffer.head)
      (hq : σ.queues (.sender c) = []) :
      LwtRcv σ cur c
        ((σ.modChan c fun ch =>
          { ch with
            buffer := ch.buffer.pop
            ready := if ch.buffer.pop.head = ch.buffer.tail then 0 else 1 }).emit
          (.rcv cur c ((σ.chans c).buffer.front (σ.chans c).size)))
        (.ret ((σ.chans c).buffer.front (σ.chans c).size))
  | refill (s : ThreadId) (rest : List ThreadId) (ht : (σ.chans c).type = .local)
      (hn : (σ.chans c).buffer.count ≠ 0) (h0 : (σ.chans c).size ≠ 0)
      (hf : (σ.chans c).buffer.Fits (σ.chans c).size (σ.chans c).buffer.head)
      (hq : σ.queues (.sender c) = s :: rest)
      (hf' : (σ.chans c).buffer.Fits (σ.chans c).size (σ.chans c).buffer.tail) :
      LwtRcv σ cur c
        (((σ.resumeThread cur s).modChan c fun ch =>
          { ch with
            buffer := ch.buffer.pop.push ch.size (σ.threads s).messageData
            ready := if ch.buffer.pop.head =
              (ch.buffer.pop.push ch.size (σ.threads s).messageData).tail then 0 else 1 }).emit
          (.rcv cur c ((σ.chans c).buffer.front (σ.chans c).size)))
        (.ret ((σ.chans c).buffer.front (σ.chans c).size))
  | sender (s : ThreadId) (rest : List ThreadId) (ht : (σ.chans c).type = .local)
      (hn : (σ.chans c).buffer.count = 0) (hq : σ.queues (.sender c) = s :: rest) :
      LwtRcv σ cur c
        (((σ.resumeThread cur s).modChan c fun ch =>
          { ch with ready := if (σ.resumeThread cur s).queues (.sender c) = [] then 0 else 1 }).emit
          (.rcv cur c (σ.threads s).messageData))
        (.ret (σ.threads s).messageData)
  | block (ht : (σ.chans c).type = .local) (hn : (σ.chans c).buffer.count = 0)
      (hq : σ.queues (.sender c) = []) :
      LwtRcv σ cur c
        ((σ.modThread cur fun th => { th with nowRcving := some c }).blockThread cur .receiving c)
        (.schedule [.rcvRet c])

theorem modChan_modChan (σ : State) (c : ChanId) (f g : Chan → Chan) :
    (σ.modChan c f).modChan c g = σ.modChan c (g ∘ f) := by
  simp [modChan]

theorem lwtRcv_ok (h : σ.lwtRcv cur c = .ok (τ, n)) :
    c < σ.nchans ∧ (σ.chans c).freed = false ∧ LwtRcv σ cur c τ n := by
  unfold lwtRcv at h
  obtain ⟨ch, hch, h⟩ := bind_ok h
  obtain ⟨rfl, hc, hfree⟩ := chan?_ok hch
  refine ⟨hc, hfree, ?_⟩
  split_ifs at h with ht hn
  · split at h
    · cases h
    · rename_i r hr
      obtain ⟨rcv, -, h⟩ := bind_ok h
      cases h
      exact .sync r ht hr
  · replace ht : (σ.chans c).type = .local := by
      cases hc : (σ.chans c).type <;> simp_all
    unfold lwtRcvRing at h
    obtain ⟨x, hx, h⟩ := bind_ok h
    obtain ⟨h0, hf, rfl⟩ := ringRead_ok hx
    cases hq : σ.queues (.sender c) with
    | nil =>
      simp only [modChan_queues, hq] at h
      cases h
      rw [modChan_modChan]
      exact .ring ht hn h0 hf hq
    | cons s rest =>
      simp only [modChan_queues, hq] at h
      obtain ⟨τ', hτ, h⟩ := bind_ok h
      obtain ⟨-, hf', rfl⟩ := ringWrite_ok hτ
      cases h
      have he : ((σ.modChan c fun ch => { ch with buffer := ch.buffer.pop }).resumeThread cur s) =
          (σ.resumeThread cur s).modChan c fun ch => { ch with buffer := ch.buffer.pop } := rfl
      rw [he] at hf' ⊢
      rw [modChan_modChan, modChan_modChan]
      refine .refill s rest ht hn h0 hf hq ?_
      simpa using hf'
  · replace ht : (σ.chans c).type = .local := by
      cases hc : (σ.chans c).type <;> simp_all
    replace hn : (σ.chans c).buffer.count = 0 := by simpa using hn
    cases hq : σ.queues (.sender c) with
    | nil =>
      rw [hq] at h
      cases h
      exact .block ht hn hq
    | cons s rest =>
      rw [hq] at h
      cases h
      exact .sender s rest ht hn hq

theorem lwtSyncSndWakeup_ok {remote : KthdId}
    (h : σ.lwtSyncSndWakeup cur c remote = .ok (τ, n)) :
    c < σ.nchans ∧ τ = { σ with
      wakeupQueues := Function.update σ.wakeupQueues remote
        (σ.wakeupQueues remote ++ [(σ.chans c).receiver]) }.emit (.sndDone cur c) ∧
      n = .ret .null := by
  unfold lwtSyncSndWakeup at h
  split_ifs at h
  obtain ⟨ch, hch, h⟩ := bind_ok h
  obtain ⟨rfl, hc, -⟩ := chan?_ok hch
  cases h
  exact ⟨hc, rfl, rfl⟩

inductive SyncRcvLoop (σ : State) (cur : ThreadId) (c : ChanId) : State → Next → Prop
  | read (hn : (σ.chans c).buffer.count ≠ 0) (h0 : (σ.chans c).size ≠ 0)
      (hf : (σ.chans c).buffer.Fits (σ.chans c).size (σ.chans c).buffer.head) :
      SyncRcvLoop σ cur c
        ((σ.modChan c fun ch => { ch with buffer := ch.buffer.pop }).emit
          (.rcv cur c ((σ.chans c).buffer.front (σ.chans c).size)))
        (.ret ((σ.chans c).buffer.front (σ.chans c).size))
  | empty (hn : (σ.chans c).buffer.count = 0) :
      SyncRcvLoop σ cur c σ (.goto [.syncRcvBlock c])

theorem lwtSyncRcvLoop_ok (h : σ.lwtSyncRcvLoop cur c = .ok (τ, n)) :
    c < σ.nchans ∧ (σ.chans c).freed = false ∧ SyncRcvLoop σ cur c τ n := by
  unfold lwtSyncRcvLoop at h
  obtain ⟨ch, hch, h⟩ := bind_ok h
  obtain ⟨rfl, hc, hfree⟩ := chan?_ok hch
  refine ⟨hc, hfree, ?_⟩
  split_ifs at h with hn
  · obtain ⟨x, hx, h⟩ := bind_ok h
    obtain ⟨h0, hf, rfl⟩ := ringRead_ok hx
    cases h
    exact .read hn h0 hf
  · cases h
    exact .empty (by simpa using hn)

theorem lwtChanDeref_ok (h : σ.lwtChanDeref cur c = .ok (τ, n)) :
    c < σ.nchans ∧ (σ.chans c).freed = false ∧
      τ = (σ.modChan c (derefChan cur)).emit (.deref cur c) ∧ n = .ret .null := by
  unfold lwtChanDeref at h
  obtain ⟨ch, hch, h⟩ := bind_ok h
  obtain ⟨rfl, hc, hfree⟩ := chan?_ok hch
  split_ifs at h
  cases h
  exact ⟨hc, hfree, rfl, rfl⟩

theorem lwtCreateChanRet_ok {created : Data} (h : σ.lwtCreateChanRet c created = .ok (τ, n)) :
    ∃ t, created = .thd t ∧ c < σ.nchans ∧ (σ.chans c).freed = false ∧
      τ = (σ.modChan c fun ch => { ch with sndCnt := ch.sndCnt + 1 }).emit (.acquire t c) ∧
      n = .ret created := by
  unfold lwtCreateChanRet at h
  obtain ⟨ch, hch, h⟩ := bind_ok h
  obtain ⟨rfl, hc, hfree⟩ := chan?_ok hch
  split at h
  · obtain ⟨τ', hτ, h⟩ := bind_ok h
    obtain ⟨-, rfl⟩ := incSndCnt_ok hτ
    cases h
    exact ⟨_, rfl, hc, hfree, rfl, rfl⟩
  · cases h

theorem lwtRcvChanRcv_ok {rec : Data} (h : σ.lwtRcvChanRcv cur rec = .ok (τ, n)) :
    n = .ret rec ∧ (rec = .null ∧ τ = σ ∨ ∃ c, rec = .chan c ∧ c < σ.nchans ∧
      (σ.chans c).freed = false ∧
      τ = (σ.modChan c fun ch => { ch with sndCnt := ch.sndCnt + 1 }).emit (.acquire cur c)) := by
  unfold lwtRcvChanRcv at h
  split at h
  · cases h
    exact ⟨rfl, .inl ⟨rfl, rfl⟩⟩
  · rename_i c
    obtain ⟨ch, hch, h⟩ := bind_ok h
    obtain ⟨rfl, hc, hfree⟩ := chan?_ok hch
    obtain ⟨τ', hτ, h⟩ := bind_ok h
    obtain ⟨-, rfl⟩ := incSndCnt_ok hτ
    cases h
    exact ⟨rfl, .inr ⟨c, rfl, hc, hfree, rfl⟩⟩
  · cases h

theorem lwtCgrpAdd_ok {g : CgrpId} (h : σ.lwtCgrpAdd g c = .ok (τ, n)) :
    c < σ.nchans ∧ (∃ d, n = .ret d) ∧
      ((σ.chans c).cgroup ≠ none ∧ τ = σ ∨
        (σ.chans c).cgroup = none ∧ (σ.chans c).freed = false ∧ g < σ.ncgrps ∧
        (σ.cgrps g).freed = false ∧
        τ = { σ.modChan c fun ch => { ch with cgroup := some g } with
          chlLists := σ.chlLists.append g c }) := by
  unfold lwtCgrpAdd at h
  obtain ⟨ch, hch, h⟩ := bind_ok h
  obtain ⟨rfl, hc, hcf⟩ := chan?_ok hch
  split_ifs at h with hs
  · cases h
    exact ⟨hc, ⟨_, rfl⟩, .inl ⟨Option.isSome_iff_ne_none.mp hs, rfl⟩⟩
  · obtain ⟨gr, hgr, h⟩ := bind_ok h
    obtain ⟨rfl, hg, hfree⟩ := cgrp?_ok hgr
    cases h
    exact ⟨hc, ⟨_, rfl⟩, .inr ⟨by simpa using hs, hcf, hg, hfree, rfl⟩⟩

theorem lwtCgrpRem_ok {g : CgrpId} (h : σ.lwtCgrpRem g c = .ok (τ, n)) :
    c < σ.nchans ∧ (∃ d, n = .ret d) ∧
      (τ = σ ∨ (σ.chans c).ready = 0 ∧ (σ.chans c).cgroup = some g ∧
        τ = { σ.modChan c fun ch => { ch with cgroup := none } with
          chlLists := σ.chlLists.rem c }) := by
  unfold lwtCgrpRem at h
  obtain ⟨ch, hch, h⟩ := bind_ok h
  obtain ⟨rfl, hc, -⟩ := chan?_ok hch
  split_ifs at h with hr hg
  · cases h
    exact ⟨hc, ⟨_, rfl⟩, .inl rfl⟩
  · cases h
    exact ⟨hc, ⟨_, rfl⟩, .inl rfl⟩
  · cases h
    exact ⟨hc, ⟨_, rfl⟩, .inr ⟨by simpa using hr, by simpa using hg, rfl⟩⟩

theorem lwtCgrpFree_ok {g : CgrpId} (h : σ.lwtCgrpFree g = .ok (τ, n)) :
    g < σ.ncgrps ∧ (∃ d, n = .ret d) ∧ (τ = σ ∨ σ.chlLists g = [] ∧
      τ = σ.modCgrp g fun gr => { gr with freed := true }) := by
  unfold lwtCgrpFree at h
  obtain ⟨gr, hgr, h⟩ := bind_ok h
  obtain ⟨rfl, hg, -⟩ := cgrp?_ok hgr
  split at h
  · obtain ⟨ch, hch, h⟩ := bind_ok h
    cases h
    exact ⟨hg, ⟨_, rfl⟩, .inl rfl⟩
  · rename_i hl
    cases h
    exact ⟨hg, ⟨_, rfl⟩, .inr ⟨hl, rfl⟩⟩

theorem lwtCgrpWait_ok {g : CgrpId} (h : σ.lwtCgrpWait g = .ok (τ, n)) :
    g < σ.ncgrps ∧ τ = σ ∧ (n = .ret .null ∨ n = .goto [.cgrpWaitLoop g]) := by
  unfold lwtCgrpWait at h
  obtain ⟨gr, hgr, h⟩ := bind_ok h
  obtain ⟨rfl, hg, -⟩ := cgrp?_ok hgr
  split_ifs at h <;> cases h
  · exact ⟨hg, rfl, .inl rfl⟩
  · exact ⟨hg, rfl, .inr rfl⟩

theorem firstReady_ok {l : List ChanId} {o : Option ChanId} (h : σ.firstReady l = .ok o) :
    (∃ c ∈ l, o = some c ∧ (σ.chans c).ready = 1) ∨
      o = none ∧ ∀ c ∈ l, (σ.chans c).ready ≠ 1 := by
  induction l with
  | nil =>
    cases h
    exact .inr ⟨rfl, by simp⟩
  | cons c l ih =>
    unfold firstReady at h
    obtain ⟨ch, hch, h⟩ := bind_ok h
    obtain ⟨rfl, -, -⟩ := chan?_ok hch
    split_ifs at h with hr
    · cases h
      exact .inl ⟨c, by simp, rfl, hr⟩
    · rcases ih h with ⟨c', hc', rest⟩ | ⟨ho, hall⟩
      · exact .inl ⟨c', List.mem_cons_of_mem _ hc', rest⟩
      · exact .inr ⟨ho, List.forall_mem_cons.mpr ⟨hr, hall⟩⟩

inductive CgrpWaitLoop (σ : State) (cur : ThreadId) (g : CgrpId) : State → Next → Prop
  | done (c : ChanId) (hc : c ∈ σ.chlLists g) (hr : (σ.chans c).ready = 1) :
      CgrpWaitLoop σ cur g (σ.modCgrp g fun gr => { gr with blocked := false }) (.ret (.chan c))
  | block (hr : ∀ c ∈ σ.chlLists g, (σ.chans c).ready ≠ 1) :
      CgrpWaitLoop σ cur g
        (((σ.modCgrp g fun gr => { gr with blocked := true }).countBlocked cur .receiving).requeue
          cur) (.schedule [.cgrpWaitLoop g])

theorem lwtCgrpWaitLoop_ok {g : CgrpId} (h : σ.lwtCgrpWaitLoop cur g = .ok (τ, n)) :
    g < σ.ncgrps ∧ CgrpWaitLoop σ cur g τ n := by
  unfold lwtCgrpWaitLoop at h
  obtain ⟨gr, hgr, h⟩ := bind_ok h
  obtain ⟨rfl, hg, -⟩ := cgrp?_ok hgr
  obtain ⟨o, ho, h⟩ := bind_ok h
  rcases firstReady_ok ho with ⟨c, hc, rfl, hr⟩ | ⟨rfl, hall⟩
  · cases h
    exact ⟨hg, .done c hc hr⟩
  · cases h
    exact ⟨hg, .block hall⟩

/-- The ways through `lwt_rcv_thd` behind `lwt_rcv`. -/
theorem lwtRcvThdRcv_ok {rec : Data} (h : σ.lwtRcvThdRcv cur rec = .ok (τ, n)) :
    ∃ t, rec = .thd t ∧ t < σ.nthreads ∧ n = .ret rec ∧
      ((σ.threads t).state ≠ .runnable ∧
        τ = σ.modThread t (fun th => { th with ownerKthd := σ.currentKthd }) ∨
      (σ.threads t).state = .runnable ∧
        τ = (((σ.modThread t fun th => { th with ownerKthd := σ.currentKthd }).listRem
          t).listHeadAppend ((σ.modThread t fun th =>
            { th with ownerKthd := σ.currentKthd }).ownerRunQueue cur) t)) := by
  unfold lwtRcvThdRcv at h
  split at h
  · rename_i t
    obtain ⟨th, hth, h⟩ := bind_ok h
    obtain ⟨rfl, ht⟩ := thread?_ok hth
    dsimp only at h
    split_ifs at h with hr <;> cases h
    · exact ⟨t, rfl, ht, rfl, .inr ⟨hr, rfl⟩⟩
    · exact ⟨t, rfl, ht, rfl, .inl ⟨hr, rfl⟩⟩
  · cases h

theorem lwtYield_ok {yieldTo : Option ThreadId} (h : σ.lwtYield cur yieldTo = .ok (τ, n)) :
    yieldTo = none ∧ τ = σ.requeue cur ∧ n = .schedule [] ∨
      ∃ t, yieldTo = some t ∧ t < σ.nthreads ∧
        ((t = cur ∨ ¬ (σ.threads t).task.CanRun) ∧ τ = σ ∧ n = .ret .null ∨
          t ≠ cur ∧ (σ.threads t).task.CanRun ∧
          τ = (σ.listRem t).listHeadAppend (σ.ownerRunQueue cur) t ∧ n = .schedule []) := by
  unfold lwtYield at h
  split at h
  · cases h
    exact .inl ⟨rfl, rfl, rfl⟩
  · rename_i t
    obtain ⟨th, hth, h⟩ := bind_ok h
    obtain ⟨rfl, ht⟩ := thread?_ok hth
    refine .inr ⟨t, rfl, ht, ?_⟩
    have hrun : (σ.threads t).task.CanRun ↔
        ¬ ((σ.threads t).state ≠ .runnable ∧ (σ.threads t).state ≠ .running) := by
      simp only [Task.CanRun, Thread.task_state]
      tauto
    split_ifs at h with hr <;> cases h
    · refine .inl ⟨?_, rfl, rfl⟩
      rw [hrun]
      tauto
    · refine .inr ⟨?_, ?_, rfl, rfl⟩ <;> rw [not_or] at hr
      · exact hr.1
      · exact hrun.mpr hr.2

/-- A new channel: where it is, and what the other parts of the state become. -/
theorem lwtChan_ok {size : ℤ} {mem : ChanMem} {x : State × ChanId}
    (h : σ.lwtChan size mem = .ok x) : ∃ raw, mem.chan = some raw ∧
      x = ({ σ with
        chans := Function.update σ.chans σ.nchans (σ.initChan raw mem.buffer size)
        nchans := σ.nchans + 1
        chanCounter := wrap32 (σ.chanCounter + 1)
        queues := σ.queues.clear (.sender σ.nchans)
        history := σ.history ++ [.chan σ.lwtCurrent σ.nchans] }, σ.nchans) := by
  unfold lwtChan at h
  split at h
  · cases h
  · rename_i raw hraw
    exact ⟨raw, hraw, (Except.ok.inj h).symm⟩

/-- Where `lwt_create` finds a thread structure. -/
inductive AllocThread (σ : State) (mem : CreateMem) : State → ThreadId → Prop
  | recycled (t : ThreadId) (rest : List ThreadId)
      (hq : σ.queues (.recycle σ.currentKthd) = t :: rest) : AllocThread σ mem (σ.listRem t) t
  | fresh (raw : RawThread) (stack : ℕ) (hq : σ.queues (.recycle σ.currentKthd) = [])
      (hstack : mem.stack = some stack) :
      AllocThread σ mem
        { σ.modThread σ.nthreads fun _ =>
          { (default : Thread) with
            blockFor := raw.blockFor
            nowRcving := raw.nowRcving
            initSp := stack + 819200 } with
          nthreads := σ.nthreads + 1 } σ.nthreads

theorem allocThread_ok {mem : CreateMem} {t : ThreadId} (h : σ.allocThread mem = .ok (τ, t)) :
    AllocThread σ mem τ t := by
  unfold allocThread at h
  split at h
  · cases h
    exact .recycled _ _ (by assumption)
  · cases h
    exact .fresh _ _ (by assumption) (by assumption)
  · cases h

theorem initThread_ok {t : ThreadId} {k : KthdId} {mem : ChanMem}
    (h : σ.initThread t k mem = .ok τ) : ∃ raw, mem.chan = some raw ∧
      τ = { ({ σ with
          chans := Function.update σ.chans σ.nchans
            { σ.initChan raw mem.buffer 0 with sndCnt := 1 }
          nchans := σ.nchans + 1
          chanCounter := wrap32 (σ.chanCounter + 1)
          queues := σ.queues.clear (.sender σ.nchans)
          history := σ.history ++ [.chan σ.lwtCurrent σ.nchans, .acquire t σ.nchans] } :
            State).modThread t fun th =>
          { th with
            lwtId := σ.lwtCounter
            state := .running
            parent := none
            messageData := .null
            chl := σ.nchans
            nojoin := false
            ownerKthd := k } with
        lwtCounter := wrap32 (σ.lwtCounter + 1) } := by
  unfold initThread at h
  obtain ⟨x, hx, h⟩ := bind_ok h
  obtain ⟨raw, hraw, rfl⟩ := lwtChan_ok hx
  refine ⟨raw, hraw, (Except.ok.inj h).symm.trans ?_⟩
  simp [modChan, modThread, emit, initChan]

theorem lwtCreate_ok {flags : ℤ} {mem : CreateMem} {t : ThreadId}
    (h : σ.lwtCreate cur flags mem = .ok (τ, t)) : ∃ σ₁ raw, AllocThread σ mem σ₁ t ∧
      mem.chl.chan = some raw ∧ τ = { σ₁ with
        chans := Function.update σ₁.chans σ₁.nchans
          { σ₁.initChan raw mem.chl.buffer 0 with sndCnt := 1 }
        nchans := σ₁.nchans + 1
        chanCounter := wrap32 (σ₁.chanCounter + 1)
        lwtCounter := wrap32 (σ₁.lwtCounter + 1)
        threads := Function.update σ₁.threads t
          { σ₁.threads t with
            lwtId := σ₁.lwtCounter
            state := .running
            parent := some cur
            messageData := .null
            context := []
            eax := .null
            chl := σ₁.nchans
            nojoin := flags % 2 = 1
            ownerKthd := σ₁.currentKthd }
        queues := (σ₁.queues.clear (.sender σ₁.nchans)).add (.run σ₁.currentKthd) t
        history := σ₁.history ++ [.chan σ₁.lwtCurrent σ₁.nchans, .acquire t σ₁.nchans,
          .create cur t σ₁.lwtCounter] } := by
  unfold lwtCreate at h
  obtain ⟨⟨σ₁, t'⟩, ha, h⟩ := bind_ok h
  obtain ⟨τ', hi, h⟩ := bind_ok h
  obtain ⟨raw, hraw, rfl⟩ := initThread_ok hi
  cases h
  refine ⟨σ₁, raw, allocThread_ok ha, hraw, ?_⟩
  simp [modThread, listHeadAdd, emit, currentRunQueue]

/-- The exit channel of the main thread of `k` belongs to the thread that runs now. -/
theorem initMain_lwtCurrent (σ : State) (k : KthdId) (raw : RawThread) :
    (σ.initMain k raw).lwtCurrent =
      if σ.currentKthd = k then some σ.nthreads else σ.lwtCurrent := by
  by_cases hk : σ.currentKthd = k
  · simp [lwtCurrent, kthd, initMain, initKthd, hk]
  · simp [lwtCurrent, kthd, initMain, initKthd, hk]

/-- A new kernel thread: its main thread is on its run queue, and the exit
channel of that thread belongs to the thread that runs now. -/
theorem initiate_ok {k : KthdId} {mem : CreateMem} (h : σ.initiate k mem = .ok τ) :
    ∃ th ch, th.state = .running ∧ th.context = [] ∧ th.ownerKthd = k ∧ th.messageData = .null ∧
      ch.buffer.tail = 0 ∧ ch.buffer.head = 0 ∧ ch.size = 0 ∧ ch.type = .local ∧ ch.sndCnt = 1 ∧
      ch.freed = false ∧ ch.receiver = τ.lwtCurrent ∧ τ = { σ with
        kthds := Function.update σ.kthds k
          { σ.kthds k with
            blockCounter := 0
            zombieCounter := 0
            nrcving := 0
            nsnding := 0
            wqOccupied := 0
            pollingFlag := false
            currentThread := some σ.nthreads
            mainThread := some σ.nthreads }
        lwtCounter := wrap32 (σ.lwtCounter + 1)
        chanCounter := wrap32 (σ.chanCounter + 1)
        threads := Function.update σ.threads σ.nthreads th
        nthreads := σ.nthreads + 1
        chans := Function.update σ.chans σ.nchans ch
        nchans := σ.nchans + 1
        queues := (((σ.queues.clear (.run k)).clear (.recycle k)).clear
          (.sender σ.nchans)).append (.run k) σ.nthreads
        wakeupQueues := Function.update σ.wakeupQueues k []
        history := σ.history ++ [.chan ch.receiver σ.nchans, .acquire σ.nthreads σ.nchans] } := by
  unfold initiate at h
  split at h
  · cases h
  · rename_i raw hraw
    obtain ⟨τ', hi, h⟩ := bind_ok h
    obtain ⟨rawc, -, rfl⟩ := initThread_ok hi
    cases h
    let th : Thread := { (default : Thread) with
      lwtId := σ.lwtCounter
      state := .running
      blockFor := raw.blockFor
      nowRcving := raw.nowRcving
      initSp := raw.initSp
      chl := σ.nchans
      ownerKthd := k }
    let ch : Chan := { (σ.initMain k raw).initChan rawc mem.chl.buffer 0 with sndCnt := 1 }
    refine ⟨th, ch, rfl, rfl, rfl, rfl, rfl, rfl, rfl, rfl, rfl, rfl, ?_, ?_⟩
    · refine (initMain_lwtCurrent σ k raw).trans ?_
      by_cases hk : σ.currentKthd = k
      · simp [lwtCurrent, kthd, hk, initMain, initKthd]
      · simp [lwtCurrent, kthd, hk, initMain, initKthd]
    · refine State.ext ?_ rfl rfl rfl ?_ rfl rfl rfl rfl rfl rfl rfl rfl rfl
      · funext j
        by_cases hj : j = k
        · subst hj
          simp [initMain, initKthd]
        · simp [initMain, initKthd, hj]
      · funext u
        by_cases hu : u = σ.nthreads
        · subst hu
          simp [th, initMain]
          exact ⟨rfl, rfl, rfl, rfl, rfl⟩
        · simp [initMain, initKthd, hu]

/-- The fields of the exit channel that keep what was in its memory. -/
theorem initiate_chan {k : KthdId} {mem : CreateMem} (h : σ.initiate k mem = .ok τ) :
    ∃ raw, mem.chl.chan = some raw ∧ (τ.chans σ.nchans).cgroup = raw.cgroup ∧
      (τ.chans σ.nchans).ready = raw.ready ∧ (τ.chans σ.nchans).rbOccupied = raw.rbOccupied := by
  unfold initiate at h
  split at h
  · cases h
  · obtain ⟨τ', hi, h⟩ := bind_ok h
    obtain ⟨raw, hraw, rfl⟩ := initThread_ok hi
    cases h
    refine ⟨raw, hraw, ?_⟩
    simp [initMain, initKthd, initChan]

end State

end Lwt
