import Lwt.Refinement

/-! The channels behind the library: what they hold, which groups they are in,
and what the history has recorded. `NetEffect` lists what a section does to
them; the threads themselves are the scheduler's. -/

namespace Lwt

/-- The part of the state that channels make up. -/
@[ext]
structure Net where
  chans : ChanId → Chan
  nchans : ℕ
  chlLists : Rings CgrpId ChanId
  message : ThreadId → Data
  history : List Event

@[simps] def State.net (σ : State) : Net where
  chans := σ.chans
  nchans := σ.nchans
  chlLists := σ.chlLists
  message t := (σ.threads t).messageData
  history := σ.history

namespace Net

variable (ν : Net)

@[simps] def modChan (c : ChanId) (f : Chan → Chan) : Net :=
  { ν with chans := Function.update ν.chans c (f (ν.chans c)) }

@[simps] def log (es : List Event) : Net := { ν with history := ν.history ++ es }

@[simps] def setMessage (t : ThreadId) (d : Data) : Net :=
  { ν with message := Function.update ν.message t d }

end Net

/-- The frames at which channels are left alone. -/
@[simp] def Frame.Neutral : Frame → Prop
  | .call a =>
    match a with
    | .lwtCreate _ _ | .lwtDie _ | .lwtChan _ _ | .setChanType _ _ | .lwtChanDeref _
    | .lwtSnd _ _ | .lwtRcv _ | .lwtChanMarkSet _ _ => False
    | _ => True
  | .createChanRet _ | .sndRet _ | .rcvRet _ | .syncSndWakeup _ _ | .syncRcvLoop _
  | .joinYield _ _ => False
  | _ => True

namespace State

/-- What a section that starts at frame `f` does to the channels. -/
inductive NetEffect (σ : State) (cur : ThreadId) : Frame → Net → Prop
  | same {f : Frame} (hf : f.Neutral) : NetEffect σ cur f σ.net
  | snd {c : ChanId} {d : Data} {σ' : State} {n : Next} (hc : c < σ.nchans)
      (hfree : (σ.chans c).freed = false) (h : LwtSnd σ cur c d σ' n) :
      NetEffect σ cur (.call (.lwtSnd c d)) σ'.net
  | sndRet (c : ChanId) : NetEffect σ cur (.sndRet c) (σ.net.log [.sndDone cur c])
  | rcv {c : ChanId} {σ' : State} {n : Next} (hc : c < σ.nchans)
      (hfree : (σ.chans c).freed = false) (h : LwtRcv σ cur c σ' n) :
      NetEffect σ cur (.call (.lwtRcv c)) σ'.net
  | rcvRet (c : ChanId) :
      NetEffect σ cur (.rcvRet c) (σ.net.log [.rcv cur c (σ.threads cur).messageData])
  | syncRcv {c : ChanId} {σ' : State} {n : Next} (hc : c < σ.nchans)
      (hfree : (σ.chans c).freed = false) (h : SyncRcvLoop σ cur c σ' n) :
      NetEffect σ cur (.syncRcvLoop c) σ'.net
  | wakeup (c : ChanId) (remote : KthdId) :
      NetEffect σ cur (.syncSndWakeup c remote) (σ.net.log [.sndDone cur c])
  | sleep {f : Frame} (hf : (∃ c, f = .syncRcvBlock c) ∨ ∃ g, f = .cgrpWaitLoop g) :
      NetEffect σ cur f (σ.net.log [.block cur σ.currentKthd])
  | joined (t : ThreadId) (d : Data) :
      NetEffect σ cur (.joinYield t d) (σ.net.log [.join cur t d])
  | die (d : Data) :
      NetEffect σ cur (.call (.lwtDie d)) ((σ.net.setMessage cur d).log [.die cur d])
  | thread (flags : ℤ) (mem : CreateMem) (raw : RawChan) (t : ThreadId)
      (hraw : mem.chl.chan = some raw)
      (ht : t ∈ σ.queues (.recycle σ.currentKthd) ∨ t = σ.nthreads) :
      NetEffect σ cur (.call (.lwtCreate flags mem))
        { (σ.net.setMessage t .null).log
            [.chan σ.lwtCurrent σ.nchans, .acquire t σ.nchans, .create cur t σ.lwtCounter] with
          chans := Function.update σ.chans σ.nchans
            { σ.initChan raw mem.chl.buffer 0 with sndCnt := 1 }
          nchans := σ.nchans + 1 }
  | chan (size : ℤ) (mem : ChanMem) (raw : RawChan) (hraw : mem.chan = some raw) :
      NetEffect σ cur (.call (.lwtChan size mem))
        { σ.net.log [.chan σ.lwtCurrent σ.nchans] with
          chans := Function.update σ.chans σ.nchans (σ.initChan raw mem.buffer size)
          nchans := σ.nchans + 1 }
  | setType (c : ChanId) (type : ChanType) (hc : c < σ.nchans) :
      NetEffect σ cur (.call (.setChanType c type))
        (σ.net.modChan c fun ch => { ch with type := type })
  | deref (c : ChanId) (hc : c < σ.nchans) (hfree : (σ.chans c).freed = false) :
      NetEffect σ cur (.call (.lwtChanDeref c))
        ((σ.net.modChan c (derefChan cur)).log [.deref cur c])
  | createChan (c : ChanId) (t : ThreadId) (ht : (σ.threads cur).eax = .thd t)
      (hc : c < σ.nchans) (hfree : (σ.chans c).freed = false) :
      NetEffect σ cur (.createChanRet c)
        ((σ.net.modChan c fun ch => { ch with sndCnt := ch.sndCnt + 1 }).log [.acquire t c])
  | rcvChan (c : ChanId) (he : (σ.threads cur).eax = .chan c) (hc : c < σ.nchans)
      (hfree : (σ.chans c).freed = false) :
      NetEffect σ cur .rcvChanRcv
        ((σ.net.modChan c fun ch => { ch with sndCnt := ch.sndCnt + 1 }).log [.acquire cur c])
  | mark (c : ChanId) (mark : Data) (hc : c < σ.nchans) :
      NetEffect σ cur (.call (.lwtChanMarkSet c mark))
        (σ.net.modChan c fun ch => { ch with mark := mark })
  | cgrpAdd (g : CgrpId) (c : ChanId) (hc : c < σ.nchans) (hn : (σ.chans c).cgroup = none)
      (hfree : (σ.chans c).freed = false) (hg : g < σ.ncgrps) (hgf : (σ.cgrps g).freed = false) :
      NetEffect σ cur (.call (.lwtCgrpAdd g c))
        { σ.net.modChan c fun ch => { ch with cgroup := some g } with
          chlLists := σ.chlLists.append g c }
  | cgrpRem (g : CgrpId) (c : ChanId) (hc : c < σ.nchans) (hr : (σ.chans c).ready = 0)
      (hn : (σ.chans c).cgroup = some g) :
      NetEffect σ cur (.call (.lwtCgrpRem g c))
        { σ.net.modChan c fun ch => { ch with cgroup := none } with
          chlLists := σ.chlLists.rem c }
  | cgrp : NetEffect σ cur (.call (.lwtCgrp true))
      { σ.net with chlLists := σ.chlLists.clear σ.ncgrps }

variable {σ τ σ' : State} {cur : ThreadId} {n : Next} {k : List Frame}

theorem message_update (threads : ThreadId → Thread) (t : ThreadId) {f : Thread → Thread}
    (h : ∀ th, (f th).messageData = th.messageData) :
    (fun u => (Function.update threads t (f (threads t)) u).messageData) =
      fun u => (threads u).messageData := by
  funext u
  by_cases hu : u = t
  · subst hu
    simp [h]
  · simp [hu]

theorem modThread_net (σ : State) (t : ThreadId) {f : Thread → Thread}
    (h : ∀ th, (f th).messageData = th.messageData) : (σ.modThread t f).net = σ.net :=
  Net.ext rfl rfl rfl (message_update _ _ h) rfl

theorem lwtSchedule_net (h : σ.lwtSchedule = .ok τ) : τ.net = σ.net := by
  obtain ⟨t, rest, -, rfl⟩ := lwtSchedule_ok h
  exact modThread_net (f := fun th => { th with state := .running }) σ t fun _ => rfl

/-- The end of a section leaves the channels alone. -/
theorem finish_net (h : σ.finish cur k n = .ok τ) : τ.net = σ.net := by
  cases n with
  | ret d =>
    cases h
    exact modThread_net _ _ fun _ => rfl
  | goto fs =>
    cases h
    exact modThread_net _ _ fun _ => rfl
  | schedule fs =>
    rw [lwtSchedule_net h]
    exact modThread_net _ _ fun _ => rfl

theorem countBlocked_net (σ : State) (cur : ThreadId) (bf : BlockStatus) :
    (σ.countBlocked cur bf).net = σ.net.log [.block cur σ.currentKthd] :=
  Net.ext rfl rfl rfl (message_update (f := fun th => { th with state := .blocked, blockFor := bf })
    _ _ fun _ => rfl) rfl

theorem requeue_net (σ : State) (cur : ThreadId) : (σ.requeue cur).net = σ.net := by
  unfold requeue
  split_ifs <;> rfl

/-- A created thread's message is set; everybody else's stays. -/
theorem create_net {flags : ℤ} {mem : CreateMem}
    (h : σ.call cur (.lwtCreate flags mem) = .ok (σ', n)) :
    NetEffect σ cur (.call (.lwtCreate flags mem)) σ'.net := by
  obtain ⟨⟨σ'', t⟩, hc, h⟩ := bind_ok h
  cases h
  obtain ⟨σ₁, raw, ha, hraw, rfl⟩ := lwtCreate_ok hc
  cases ha with
  | recycled t rest hq =>
    convert NetEffect.thread (σ := σ) flags mem raw t hraw (.inl (by simp [hq])) using 1
    refine Net.ext rfl rfl rfl ?_ rfl
    funext u
    by_cases hu : u = t
    · subst hu
      simp
    · simp [hu]
  | fresh raw' stack hq =>
    convert NetEffect.thread (σ := σ) flags mem raw σ.nthreads hraw (.inr rfl) using 1
    refine Net.ext rfl rfl rfl ?_ rfl
    funext u
    by_cases hu : u = σ.nthreads
    · subst hu
      simp
    · simp [hu]

theorem die_net {message : Data} (h : σ.call cur (.lwtDie message) = .ok (σ', n)) :
    NetEffect σ cur (.call (.lwtDie message)) σ'.net := by
  cases h
  convert NetEffect.die (σ := σ) message using 1
  refine Net.ext rfl rfl rfl ?_ rfl
  funext u
  by_cases hu : u = cur
  · subst hu
    simp
  · simp [hu]

theorem yield_net {yieldTo : Option ThreadId}
    (h : σ.call cur (.lwtYield yieldTo) = .ok (σ', n)) : σ'.net = σ.net := by
  obtain ⟨rfl, rfl, rfl⟩ | ⟨t, rfl, -, ⟨-, rfl, -⟩ | ⟨-, -, rfl, -⟩⟩ := lwtYield_ok h
  · exact requeue_net σ cur
  · rfl
  · rfl

theorem join_net {t : ThreadId} (h : σ.call cur (.lwtJoin t) = .ok (σ', n)) :
    σ'.net = σ.net := by
  obtain ⟨th, -, h⟩ := bind_ok h
  split_ifs at h <;> cases h <;> rfl

theorem chan_net {size : ℤ} {mem : ChanMem}
    (h : σ.call cur (.lwtChan size mem) = .ok (σ', n)) :
    NetEffect σ cur (.call (.lwtChan size mem)) σ'.net := by
  obtain ⟨x, hc, h⟩ := bind_ok h
  obtain ⟨raw, hraw, rfl⟩ := lwtChan_ok hc
  cases h
  exact .chan size mem raw hraw

theorem setType_net {c : ChanId} {type : ChanType}
    (h : σ.call cur (.setChanType c type) = .ok (σ', n)) :
    NetEffect σ cur (.call (.setChanType c type)) σ'.net := by
  obtain ⟨ch, hch, h⟩ := bind_ok h
  cases h
  exact .setType c type (chan?_ok hch).2.1

theorem mark_net {c : ChanId} {mark : Data}
    (h : σ.call cur (.lwtChanMarkSet c mark) = .ok (σ', n)) :
    NetEffect σ cur (.call (.lwtChanMarkSet c mark)) σ'.net := by
  obtain ⟨ch, hch, h⟩ := bind_ok h
  cases h
  exact .mark c mark (chan?_ok hch).2.1

theorem markGet_net {c : ChanId} (h : σ.call cur (.lwtChanMarkGet c) = .ok (σ', n)) :
    σ'.net = σ.net := by
  obtain ⟨ch, -, h⟩ := bind_ok h
  cases h
  rfl

theorem cgrpAdd_net {g : CgrpId} {c : ChanId}
    (h : σ.call cur (.lwtCgrpAdd g c) = .ok (σ', n)) :
    NetEffect σ cur (.call (.lwtCgrpAdd g c)) σ'.net := by
  obtain ⟨hc, -, ⟨-, rfl⟩ | ⟨hn, hfree, hg, hgf, rfl⟩⟩ := lwtCgrpAdd_ok h
  · exact .same trivial
  · exact .cgrpAdd g c hc hn hfree hg hgf

theorem cgrpRem_net {g : CgrpId} {c : ChanId}
    (h : σ.call cur (.lwtCgrpRem g c) = .ok (σ', n)) :
    NetEffect σ cur (.call (.lwtCgrpRem g c)) σ'.net := by
  obtain ⟨hc, -, rfl | ⟨hr, hn, rfl⟩⟩ := lwtCgrpRem_ok h
  · exact .same trivial
  · exact .cgrpRem g c hc hr hn

theorem sndThd_net {c : ChanId} {t : ThreadId}
    (h : σ.call cur (.lwtSndThd c t) = .ok (σ', n)) : σ'.net = σ.net := by
  simp only [call, lwtSndThd] at h
  split_ifs at h
  cases h
  rfl

theorem trampline_net (h : σ.call cur .lwtKthdTrampline = .ok (σ', n)) : σ'.net = σ.net := by
  simp only [call, lwtKthdTrampline] at h
  split_ifs at h
  cases h
  rfl

/-- A call writes the channels as its case of `NetEffect` says, or not at all. -/
theorem call_net {a : Call} (h : σ.call cur a = .ok (σ', n)) :
    NetEffect σ cur (.call a) σ'.net := by
  cases a with
  | lwtCreate flags mem => exact create_net h
  | lwtCreateChan c mem =>
    cases h
    exact .same trivial
  | lwtYield yieldTo =>
    rw [yield_net h]
    exact .same trivial
  | lwtDie message => exact die_net h
  | lwtJoin t =>
    rw [join_net h]
    exact .same trivial
  | lwtChan size mem => exact chan_net h
  | setChanType c type => exact setType_net h
  | lwtChanDeref c =>
    obtain ⟨hc, hfree, rfl, -⟩ := lwtChanDeref_ok h
    exact .deref c hc hfree
  | lwtSnd c d =>
    obtain ⟨hc, hfree, h⟩ := lwtSnd_ok h
    exact .snd hc hfree h
  | lwtRcv c =>
    obtain ⟨hc, hfree, h⟩ := lwtRcv_ok h
    exact .rcv hc hfree h
  | lwtSndChan through sending =>
    cases h
    exact .same trivial
  | lwtRcvChan c =>
    cases h
    exact .same trivial
  | lwtCgrp mem =>
    cases mem <;> cases h
    · exact .same trivial
    · exact .cgrp
  | lwtCgrpAdd g c => exact cgrpAdd_net h
  | lwtCgrpRem g c => exact cgrpRem_net h
  | lwtCgrpFree g =>
    obtain ⟨-, -, rfl | ⟨-, rfl⟩⟩ := lwtCgrpFree_ok h <;> exact .same trivial
  | lwtCgrpWait g =>
    obtain ⟨-, rfl, -⟩ := lwtCgrpWait_ok h
    exact .same trivial
  | lwtChanMarkSet c mark => exact mark_net h
  | lwtChanMarkGet c =>
    rw [markGet_net h]
    exact .same trivial
  | lwtSndThd c t =>
    rw [sndThd_net h]
    exact .same trivial
  | lwtRcvThd c =>
    cases h
    exact .same trivial
  | lwtKthdTrampline =>
    rw [trampline_net h]
    exact .same trivial

theorem exec_net {f : Frame} (h : σ.exec cur f k = .ok τ) : NetEffect σ cur f τ.net := by
  obtain ⟨⟨σ', n⟩, hb, hfin⟩ := bind_ok h
  rw [finish_net hfin]
  cases f with
  | call a => exact call_net hb
  | createChanRet c =>
    obtain ⟨t, ht, hc, hfree, rfl, -⟩ := lwtCreateChanRet_ok hb
    exact .createChan c t ht hc hfree
  | sndRet c =>
    cases hb
    exact .sndRet c
  | rcvRet c =>
    cases hb
    exact .rcvRet c
  | syncSndWakeup c remote =>
    obtain ⟨-, rfl, -⟩ := lwtSyncSndWakeup_ok hb
    exact .wakeup c remote
  | syncRcvLoop c =>
    obtain ⟨hc, hfree, h⟩ := lwtSyncRcvLoop_ok hb
    exact .syncRcv hc hfree h
  | syncRcvBlock c =>
    cases hb
    rw [requeue_net, countBlocked_net,
      modThread_net (f := fun th => { th with nowRcving := some c }) _ _ fun _ => rfl]
    exact .sleep (.inl ⟨c, rfl⟩)
  | cgrpWaitLoop g =>
    obtain ⟨-, h⟩ := lwtCgrpWaitLoop_ok hb
    cases h with
    | done => exact .same trivial
    | block =>
      rw [requeue_net, countBlocked_net]
      exact .sleep (.inr ⟨g, rfl⟩)
  | dieSnd =>
    cases hb
    have hnet := modThread_net (f := fun th => { th with state := .zombies }) σ cur fun _ => rfl
    exact hnet ▸ .same trivial
  | died => cases hb
  | joinRcv t =>
    cases hb
    exact .same trivial
  | joinYield t received =>
    cases hb
    exact .joined t received
  | sndChanSnd =>
    cases hb
    exact .same trivial
  | sndChanYield returnValue =>
    cases hb
    exact .same trivial
  | rcvChanRcv =>
    obtain ⟨-, ⟨-, rfl⟩ | ⟨c, he, hc, hfree, rfl⟩⟩ := lwtRcvChanRcv_ok hb
    · exact .same trivial
    · exact .rcvChan c he hc hfree
  | rcvThdRcv =>
    obtain ⟨t, -, -, -, hτ⟩ := lwtRcvThdRcv_ok hb
    have hnet := modThread_net (f := fun th => { th with ownerKthd := σ.currentKthd }) σ t
      fun _ => rfl
    obtain ⟨-, rfl⟩ | ⟨-, rfl⟩ := hτ <;> exact hnet ▸ .same trivial
  | kthdLoop =>
    simp only [body, lwtKthdLoop, slThdBlock] at hb
    split_ifs at hb
    · obtain ⟨σ'', hs, hb⟩ := bind_ok hb
      cases hb
      split at hs <;> cases hs <;> exact .same trivial
    · cases hb
      exact .same trivial
  | kthdBlocked =>
    cases hb
    exact .same trivial

namespace NetEffect

variable {ν : Net} {f : Frame} {c : ChanId} {d : Data}

theorem snd_lt (h : NetEffect σ cur (.call (.lwtSnd c d)) ν) : c < σ.nchans := by
  cases h with
  | same hf => exact hf.elim
  | snd hc => exact hc
  | sleep hf => simp at hf

theorem rcv_lt (h : NetEffect σ cur (.call (.lwtRcv c)) ν) : c < σ.nchans := by
  cases h with
  | same hf => exact hf.elim
  | rcv hc => exact hc
  | sleep hf => simp at hf

end NetEffect

theorem WakeGroup.nchans {cgroup : Option CgrpId} (h : WakeGroup σ cur cgroup τ) :
    τ.nchans = σ.nchans := by
  cases h <;> rfl

theorem LwtSnd.nchans {c : ChanId} {d : Data} (h : LwtSnd σ cur c d σ' n) :
    σ'.nchans = σ.nchans := by
  cases h with
  | ring r σ₁ _ _ _ hw => exact hw.nchans
  | block r σ₁ _ _ _ hw =>
    rw [blockThread_sending]
    exact hw.nchans
  | _ => rfl

theorem LwtRcv.nchans {c : ChanId} (h : LwtRcv σ cur c σ' n) : σ'.nchans = σ.nchans := by
  cases h with
  | block => rw [blockThread_receiving]; rfl
  | _ => rfl

theorem SyncRcvLoop.nchans {c : ChanId} (h : SyncRcvLoop σ cur c σ' n) :
    σ'.nchans = σ.nchans := by
  cases h <;> rfl

/-- Channels are never reused. -/
theorem NetEffect.nchans_le {ν : Net} {f : Frame} (h : NetEffect σ cur f ν) :
    σ.nchans ≤ ν.nchans := by
  cases h with
  | snd _ _ h => exact h.nchans.ge
  | rcv _ _ h => exact h.nchans.ge
  | syncRcv _ _ h => exact h.nchans.ge
  | thread | chan => exact Nat.le_succ σ.nchans
  | _ => exact le_rfl

inductive Created (σ : State) (f : Frame) : Chan → Prop
  | chan (size : ℤ) (mem : ChanMem) (raw : RawChan) (hraw : mem.chan = some raw)
      (hf : f = .call (.lwtChan size mem)) : Created σ f (σ.initChan raw mem.buffer size)
  | thread (flags : ℤ) (mem : CreateMem) (raw : RawChan) (hraw : mem.chl.chan = some raw)
      (hf : f = .call (.lwtCreate flags mem)) :
      Created σ f { σ.initChan raw mem.chl.buffer 0 with sndCnt := 1 }

theorem Created.empty {f : Frame} {ch : Chan} (h : Created σ f ch) :
    ch.buffer.tail = 0 ∧ ch.buffer.head = 0 ∧
      ((∃ size mem, f = .call (.lwtChan size mem)) ∨
        ∃ flags mem, f = .call (.lwtCreate flags mem)) := by
  cases h with
  | chan size mem _ _ hf => exact ⟨rfl, rfl, .inl ⟨size, mem, hf⟩⟩
  | thread flags mem _ _ hf => exact ⟨rfl, rfl, .inr ⟨flags, mem, hf⟩⟩

theorem Created.type {f : Frame} {ch : Chan} (h : Created σ f ch) : ch.type = .local := by
  cases h <;> rfl

theorem Created.freed {f : Frame} {ch : Chan} (h : Created σ f ch) : ch.freed = false := by
  cases h <;> rfl

theorem NetEffect.created {ν : Net} {f : Frame} {c : ChanId} (h : NetEffect σ cur f ν)
    (h0 : σ.nchans ≤ c) (h1 : c < ν.nchans) : c = σ.nchans ∧ Created σ f (ν.chans c) := by
  cases h with
  | snd _ _ h => exact absurd h0 (not_le.mpr (h.nchans ▸ h1))
  | rcv _ _ h => exact absurd h0 (not_le.mpr (h.nchans ▸ h1))
  | syncRcv _ _ h => exact absurd h0 (not_le.mpr (h.nchans ▸ h1))
  | thread fl mem raw t hraw =>
    obtain rfl : c = σ.nchans := le_antisymm (Nat.le_of_lt_succ h1) h0
    exact ⟨rfl, by simpa using .thread fl mem raw hraw rfl⟩
  | chan size mem raw hraw =>
    obtain rfl : c = σ.nchans := le_antisymm (Nat.le_of_lt_succ h1) h0
    exact ⟨rfl, by simpa using .chan size mem raw hraw rfl⟩
  | _ => exact absurd h0 (not_le.mpr h1)

end State

end Lwt
