import Lwt.Frames

/-! What one section can do to one channel, to the message of one thread, and to
the history. -/

namespace Lwt

namespace State

variable {σ τ σ' : State} {cur : ThreadId} {f : Frame} {ν : Net} {c c' : ChanId} {d : Data}
  {n : Next}

theorem LwtSnd.chans_of_ne (h : LwtSnd σ cur c' d σ' n) (hc : c ≠ c') :
    σ'.chans c = σ.chans c := by
  cases h with
  | sync | handOff => simp [hc]
  | noReceiver => rfl
  | ring r σ₁ _ _ _ hw => simp [hw.chans, hc]
  | block r σ₁ _ _ _ hw => simp [blockThread_sending, countBlocked, hw.chans, hc]

theorem LwtRcv.chans_of_ne (h : LwtRcv σ cur c' σ' n) (hc : c ≠ c') : σ'.chans c = σ.chans c := by
  cases h with
  | block => simp [blockThread_receiving, countBlocked]
  | sync => rfl
  | _ => simp [hc]

theorem SyncRcvLoop.chans_of_ne (h : SyncRcvLoop σ cur c' σ' n) (hc : c ≠ c') :
    σ'.chans c = σ.chans c := by
  cases h <;> simp [hc]

/-- What a section at `f` makes of channel `c`. -/
inductive ChanEffect (σ : State) (cur : ThreadId) (c : ChanId) (f : Frame) : Chan → Prop
  | same : ChanEffect σ cur c f (σ.chans c)
  /-- A message moves. -/
  | traffic (b : RingBuffer Data) (r : ℤ)
      (hf : (∃ d, f = .call (.lwtSnd c d)) ∨ f = .call (.lwtRcv c) ∨ f = .syncRcvLoop c)
      (hfree : (σ.chans c).freed = false) :
      ChanEffect σ cur c f { σ.chans c with buffer := b, ready := r }
  | setType (type : ChanType) (hf : f = .call (.setChanType c type)) :
      ChanEffect σ cur c f { σ.chans c with type := type }
  | deref (hf : f = .call (.lwtChanDeref c)) (hfree : (σ.chans c).freed = false) :
      ChanEffect σ cur c f (derefChan cur (σ.chans c))
  | acquire (hf : (∃ t, f = .createChanRet c ∧ (σ.threads cur).eax = .thd t) ∨
      f = .rcvChanRcv ∧ (σ.threads cur).eax = .chan c) (hfree : (σ.chans c).freed = false) :
      ChanEffect σ cur c f { σ.chans c with sndCnt := (σ.chans c).sndCnt + 1 }
  | mark (mark : Data) (hf : f = .call (.lwtChanMarkSet c mark)) :
      ChanEffect σ cur c f { σ.chans c with mark := mark }
  | add (g : CgrpId) (hf : f = .call (.lwtCgrpAdd g c)) (hn : (σ.chans c).cgroup = none)
      (hfree : (σ.chans c).freed = false) (hg : g < σ.ncgrps) :
      ChanEffect σ cur c f { σ.chans c with cgroup := some g }
  | rem (g : CgrpId) (hf : f = .call (.lwtCgrpRem g c)) (hr : (σ.chans c).ready = 0)
      (hn : (σ.chans c).cgroup = some g) : ChanEffect σ cur c f { σ.chans c with cgroup := none }

theorem LwtSnd.traffic (h : LwtSnd σ cur c d σ' n) :
    ∃ b r, σ'.chans c = { σ.chans c with buffer := b, ready := r } := by
  cases h with
  | sync => exact ⟨_, (σ.chans c).ready, by simp; rfl⟩
  | noReceiver | handOff => exact ⟨(σ.chans c).buffer, (σ.chans c).ready, rfl⟩
  | ring r σ₁ _ _ _ hw => exact ⟨_, 1, by simp [hw.chans]; rfl⟩
  | block r σ₁ _ _ _ hw =>
    exact ⟨(σ.chans c).buffer, 1, by simp [blockThread_sending, countBlocked, hw.chans]⟩

theorem LwtRcv.traffic (h : LwtRcv σ cur c σ' n) :
    ∃ b r, σ'.chans c = { σ.chans c with buffer := b, ready := r } := by
  cases h with
  | sync => exact ⟨(σ.chans c).buffer, (σ.chans c).ready, rfl⟩
  | block =>
    exact ⟨(σ.chans c).buffer, (σ.chans c).ready, by
      simp [blockThread_receiving, countBlocked]⟩
  | sender => exact ⟨(σ.chans c).buffer, _, by simp; rfl⟩
  | _ => exact ⟨_, _, by simp; exact ⟨rfl, rfl⟩⟩

theorem SyncRcvLoop.traffic (h : SyncRcvLoop σ cur c σ' n) :
    ∃ b r, σ'.chans c = { σ.chans c with buffer := b, ready := r } := by
  cases h with
  | read => exact ⟨_, (σ.chans c).ready, by simp; rfl⟩
  | empty => exact ⟨(σ.chans c).buffer, (σ.chans c).ready, rfl⟩

theorem NetEffect.chanEffect (h : NetEffect σ cur f ν) (hc : c < σ.nchans) :
    ChanEffect σ cur c f (ν.chans c) := by
  have upd {c' : ChanId} {ch : Chan} (h0 : c = c' → ChanEffect σ cur c f ch) :
      ChanEffect σ cur c f (Function.update σ.chans c' ch c) := by
    by_cases hcc : c = c'
    · subst hcc
      simpa using h0 rfl
    · simpa [hcc] using ChanEffect.same
  cases h with
  | snd hc' hfree h =>
    rename_i c' d σ' n
    by_cases hcc : c = c'
    · subst hcc
      obtain ⟨b, r, hb⟩ := h.traffic
      rw [net_chans, hb]
      exact .traffic b r (.inl ⟨d, rfl⟩) hfree
    · rw [net_chans, h.chans_of_ne hcc]
      exact .same
  | rcv hc' hfree h =>
    rename_i c' σ' n
    by_cases hcc : c = c'
    · subst hcc
      obtain ⟨b, r, hb⟩ := h.traffic
      rw [net_chans, hb]
      exact .traffic b r (.inr (.inl rfl)) hfree
    · rw [net_chans, h.chans_of_ne hcc]
      exact .same
  | syncRcv hc' hfree h =>
    rename_i c' σ' n
    by_cases hcc : c = c'
    · subst hcc
      obtain ⟨b, r, hb⟩ := h.traffic
      rw [net_chans, hb]
      exact .traffic b r (.inr (.inr rfl)) hfree
    · rw [net_chans, h.chans_of_ne hcc]
      exact .same
  | thread | chan => exact upd fun h => absurd hc (by simp [h])
  | setType c' type => exact upd fun h => by subst h; exact .setType type rfl
  | deref c' _ hfree => exact upd fun h => by subst h; exact .deref rfl hfree
  | createChan c' t ht _ hfree =>
    exact upd fun h => by subst h; exact .acquire (.inl ⟨t, rfl, ht⟩) hfree
  | rcvChan c' he _ hfree => exact upd fun h => by subst h; exact .acquire (.inr ⟨rfl, he⟩) hfree
  | mark c' m => exact upd fun h => by subst h; exact .mark m rfl
  | cgrpAdd g c' _ hn hfree hg => exact upd fun h => by subst h; exact .add g rfl hn hfree hg
  | cgrpRem g c' _ hr hn => exact upd fun h => by subst h; exact .rem g rfl hr hn
  | _ => exact .same

/-- `lwt_chan_deref` leaves what a channel holds alone. -/
theorem derefChan_fields (cur : ThreadId) (ch : Chan) :
    (derefChan cur ch).size = ch.size ∧ (derefChan cur ch).buffer = ch.buffer ∧
      (derefChan cur ch).type = ch.type ∧ (derefChan cur ch).ready = ch.ready ∧
      (derefChan cur ch).cgroup = ch.cgroup := by
  simp only [derefChan]
  split_ifs <;> exact ⟨rfl, rfl, rfl, rfl, rfl⟩

theorem derefChan_receiver (cur : ThreadId) (ch : Chan) : (derefChan cur ch).receiver =
    if ch.receiver = some cur then none else ch.receiver := by
  simp only [derefChan]
  split_ifs <;> rfl

theorem derefChan_sndCnt (cur : ThreadId) (ch : Chan) : (derefChan cur ch).sndCnt =
    if ch.receiver = some cur then ch.sndCnt else ch.sndCnt - 1 := by
  simp only [derefChan]
  split_ifs <;> rfl

theorem derefChan_freed (cur : ThreadId) (ch : Chan) : (derefChan cur ch).freed =
    if (derefChan cur ch).sndCnt = 0 ∧ (derefChan cur ch).receiver = none then true
    else ch.freed := by
  rw [derefChan_receiver, derefChan_sndCnt]
  simp only [derefChan]
  split_ifs <;> simp_all

namespace ChanEffect

variable {ch : Chan} (h : ChanEffect σ cur c f ch)

include h

theorem size : ch.size = (σ.chans c).size := by
  cases h with
  | deref =>
    exact (derefChan_fields cur _).1
  | _ => rfl

theorem buffer (hs : ∀ d, f ≠ .call (.lwtSnd c d)) (hr : f ≠ .call (.lwtRcv c))
    (hl : f ≠ .syncRcvLoop c) : ch.buffer = (σ.chans c).buffer := by
  cases h with
  | traffic b r hf =>
    rcases hf with ⟨d, hf⟩ | hf | hf
    · exact absurd hf (hs d)
    · exact absurd hf hr
    · exact absurd hf hl
  | deref =>
    exact (derefChan_fields cur _).2.1
  | _ => rfl

theorem receiver : ch.receiver = (σ.chans c).receiver ∨
    f = .call (.lwtChanDeref c) ∧ (σ.chans c).receiver = some cur ∧ ch.receiver = none := by
  cases h with
  | deref hf =>
    by_cases hr : (σ.chans c).receiver = some cur
    · exact .inr ⟨hf, hr, by rw [derefChan_receiver, if_pos hr]⟩
    · exact .inl (by rw [derefChan_receiver, if_neg hr])
  | _ => exact .inl rfl

theorem type : ch.type = (σ.chans c).type ∨ f = .call (.setChanType c ch.type) := by
  cases h with
  | deref =>
    exact .inl (derefChan_fields cur _).2.2.1
  | setType type hf => exact .inr hf
  | _ => exact .inl rfl

end ChanEffect

/-- A section of `cur` at frame `f` can log event `e`. -/
def Logs (σ : State) (cur : ThreadId) (f : Frame) : Event → Prop
  | .snd t c d => t = cur ∧ f = .call (.lwtSnd c d)
  | .sndNone t c d => t = cur ∧ f = .call (.lwtSnd c d) ∧ (σ.chans c).receiver = none
  | .sndDone t c =>
    t = cur ∧ ((∃ d, f = .call (.lwtSnd c d)) ∨ f = .sndRet c ∨ ∃ k, f = .syncSndWakeup c k)
  | .rcv t c _ => t = cur ∧ (f = .call (.lwtRcv c) ∨ f = .rcvRet c ∨ f = .syncRcvLoop c)
  | .chan t c => t = σ.lwtCurrent ∧ c = σ.nchans
  | .acquire t c =>
    c = σ.nchans ∧ (∃ flags mem, f = .call (.lwtCreate flags mem)) ∨
      f = .createChanRet c ∧ (σ.threads cur).eax = .thd t ∨
      f = .rcvChanRcv ∧ (σ.threads cur).eax = .chan c ∧ t = cur
  | .deref t c => t = cur ∧ f = .call (.lwtChanDeref c)
  | .block t k => t = cur ∧ k = σ.currentKthd
  | .resume t k q owner =>
    k = σ.currentKthd ∧ q = (σ.threads cur).ownerKthd ∧ owner = (σ.threads t).ownerKthd
  | .create t _ _ => t = cur ∧ ∃ flags mem, f = .call (.lwtCreate flags mem)
  | .die t d => t = cur ∧ f = .call (.lwtDie d)
  | .join t child d => t = cur ∧ f = .joinYield child d

theorem WakeGroup.history {cgroup : Option CgrpId}
    (h : WakeGroup (σ.modChan c fun ch => { ch with ready := 1 }) cur cgroup τ) :
    ∃ es, τ.history = σ.history ++ es ∧ ∀ e ∈ es, σ.Logs cur f e := by
  cases h with
  | skip => exact ⟨[], by simp, by simp⟩
  | wake g =>
    exact ⟨_, rfl, by simp [Logs]⟩

theorem LwtSnd.history (h : LwtSnd σ cur c d σ' n) :
    ∃ es, σ'.history = σ.history ++ es ∧ ∀ e ∈ es, σ.Logs cur (.call (.lwtSnd c d)) e := by
  cases h with
  | sync r => exact ⟨_, rfl, by simp [Logs]⟩
  | noReceiver _ hr => exact ⟨_, rfl, by simp [Logs, hr]⟩
  | handOff r =>
    refine ⟨[.resume r σ.currentKthd (σ.threads cur).ownerKthd (σ.threads r).ownerKthd,
      .snd cur c d, .sndDone cur c], ?_, by simp [Logs]⟩
    have hown : ((σ.modThread r fun th => { th with messageData := d }).threads cur).ownerKthd =
        (σ.threads cur).ownerKthd := by
      by_cases h : cur = r
      · subst h
        simp
      · simp [h]
    simp [resumeThread, ← hown]
  | ring r σ₁ _ _ _ hw =>
    obtain ⟨es, he, hes⟩ := hw.history (f := .call (.lwtSnd c d))
    refine ⟨es ++ [.snd cur c d, .sndDone cur c], ?_, ?_⟩
    · simp [he]
    · simpa [or_imp, forall_and, Logs] using hes
  | block r σ₁ _ _ _ hw =>
    obtain ⟨es, he, hes⟩ := hw.history (f := .call (.lwtSnd c d))
    refine ⟨es ++ [.snd cur c d, .block cur σ.currentKthd], ?_, ?_⟩
    · have hk : σ₁.currentKthd = σ.currentKthd := by cases hw <;> rfl
      simp [blockThread_sending, countBlocked, he, hk]
    · simpa [or_imp, forall_and, Logs] using hes

theorem LwtRcv.history (h : LwtRcv σ cur c σ' n) :
    ∃ es, σ'.history = σ.history ++ es ∧ ∀ e ∈ es, σ.Logs cur (.call (.lwtRcv c)) e := by
  cases h with
  | sync => exact ⟨[], by simp, by simp⟩
  | ring => exact ⟨_, rfl, by simp [Logs]⟩
  | refill s =>
    refine ⟨[.resume s σ.currentKthd (σ.threads cur).ownerKthd (σ.threads s).ownerKthd,
      .rcv cur c ((σ.chans c).buffer.front (σ.chans c).size)], ?_, by simp [Logs]⟩
    simp [resumeThread]
  | sender s =>
    refine ⟨[.resume s σ.currentKthd (σ.threads cur).ownerKthd (σ.threads s).ownerKthd,
      .rcv cur c (σ.threads s).messageData], ?_, by simp [Logs]⟩
    simp [resumeThread]
  | block =>
    refine ⟨[.block cur σ.currentKthd], ?_, by simp [Logs]⟩
    simp [blockThread_receiving, countBlocked]

/-- The history only grows, by events of the section. -/
theorem NetEffect.history (h : NetEffect σ cur f ν) :
    ∃ es, ν.history = σ.history ++ es ∧ ∀ e ∈ es, σ.Logs cur f e := by
  cases h with
  | snd _ _ h => exact h.history
  | rcv _ _ h => exact h.history
  | syncRcv _ _ h =>
    cases h with
    | read => exact ⟨_, rfl, by simp [Logs]⟩
    | empty => exact ⟨[], by simp, by simp⟩
  | same | setType | mark | cgrpAdd | cgrpRem | cgrp => exact ⟨[], by simp, by simp⟩
  | createChan c t ht => exact ⟨_, rfl, by simp [Logs, ht]⟩
  | rcvChan c he => exact ⟨_, rfl, by simp [Logs, he]⟩
  | _ => exact ⟨_, rfl, by simp [Logs]⟩

theorem resumeThread_message (σ : State) (cur t u : ThreadId) :
    ((σ.resumeThread cur t).threads u).messageData = (σ.threads u).messageData :=
  congrFun (message_update (f := fun th => { th with state := .runnable }) σ.threads t
    fun _ => rfl) u

theorem WakeGroup.message {cgroup : Option CgrpId} (h : WakeGroup σ cur cgroup τ) (u : ThreadId) :
    (τ.threads u).messageData = (σ.threads u).messageData := by
  cases h with
  | skip => rfl
  | wake g => exact resumeThread_message σ cur _ u

theorem countBlocked_message (σ : State) (cur : ThreadId) (bf : BlockStatus) (u : ThreadId) :
    ((σ.countBlocked cur bf).threads u).messageData = (σ.threads u).messageData :=
  congrFun (message_update (f := fun th => { th with state := .blocked, blockFor := bf })
    σ.threads cur fun _ => rfl) u

/-- A section leaves the message of another thread alone, unless it starts that
thread or hands it a message. -/
theorem NetEffect.message (h : NetEffect σ cur f ν) {t : ThreadId} (ht : t ≠ cur)
    (hz : t ∉ σ.queues (.recycle σ.currentKthd)) (hlt : t < σ.nthreads)
    (hr : ∀ c d, f = .call (.lwtSnd c d) →
      ¬ ((σ.threads t).task.Receiving ∧ (σ.threads t).nowRcving = some c)) :
    ν.message t = (σ.threads t).messageData := by
  cases h with
  | snd _ _ h =>
    cases h with
    | sync => rfl
    | noReceiver => rfl
    | handOff r _ _ _ hb hn =>
      have hne : t ≠ r := by
        rintro rfl
        exact hr _ _ rfl ⟨hb, hn⟩
      refine (resumeThread_message _ cur r t).trans ?_
      simp [hne]
    | ring r σ₁ _ _ _ hw => exact hw.message t
    | block r σ₁ _ _ _ hw =>
      rw [blockThread_sending]
      refine (countBlocked_message _ cur .sending t).trans ?_
      simpa [ht] using hw.message t
  | rcv _ _ h =>
    cases h with
    | sync => rfl
    | ring => rfl
    | refill s | sender s => exact resumeThread_message σ cur s t
    | block =>
      rw [blockThread_receiving]
      refine (countBlocked_message _ cur .receiving t).trans ?_
      simp [ht]
  | syncRcv _ _ h => cases h <;> rfl
  | die => simp [ht]
  | thread fl mem raw u hraw hu =>
    have hne : t ≠ u := by
      rintro rfl
      exact hu.elim hz hlt.ne
    simp [hne]
  | _ => rfl

end State

end Lwt
