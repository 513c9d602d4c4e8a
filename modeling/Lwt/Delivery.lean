import Lwt.Channels
import Lwt.Lib.Mailbox

/-! Delivery on a LOCAL channel, on one kernel thread. Between two sections the
channel is a mailbox: what was handed to the receiver, the ring, and the messages
of the queued senders are what is on its way. Every section does one step to it,
except that `lwt_snd` can hand a message to a receiver that sleeps in a group wait
and has forgotten that it is no longer in `lwt_rcv`. -/

namespace Lwt

/-- The channel on which a thread left at this frame is inside `lwt_rcv`. -/
def Frame.rcving : Frame → Option ChanId
  | .rcvRet c => some c
  | _ => none

namespace Task

variable {th th' : Task} {c : ChanId} {fs : List Frame}

def rcving (th : Task) : Option ChanId := th.context.head?.bind Frame.rcving

/-- The thread has been resumed inside `lwt_rcv(c)`, with a message. -/
def Handed (th : Task) (c : ChanId) : Prop := th.rcving = some c ∧ th.state ≠ .blocked

def Waits (th : Task) (c : ChanId) : Prop := th.rcving = some c ∧ th.state = .blocked

instance (th : Task) (c : ChanId) : Decidable (th.Handed c) := inferInstanceAs (Decidable (_ ∧ _))

theorem rcving_eq_some_iff : th.rcving = some c ↔ th.context.head? = some (.rcvRet c) := by
  unfold rcving
  cases h : th.context.head? with
  | none => simp
  | some f => cases f <;> simp [Frame.rcving]

theorem rcving_eq (h : th.context = .rcvRet c :: fs) : th.rcving = some c := by
  simp [rcving, h, Frame.rcving]

theorem Same.handed_iff (h : Same th th') : th'.Handed c ↔ th.Handed c := by
  simp only [Handed, rcving, h.context, ne_eq, h.state_iff]

theorem Same.waits_iff (h : Same th th') : th'.Waits c ↔ th.Waits c := by
  simp only [Waits, rcving, h.context, h.state_iff]

/-- A thread is not in `lwt_rcv` behind frames that it has gone on to. -/
theorem rcving_append (hc : th.context = fs ++ rest) (hpush : Pushed fs)
    (hrest : ∀ fr ∈ rest, fr.Outer) : th.rcving = none := by
  unfold rcving
  rw [hc]
  cases fs with
  | nil =>
    cases rest with
    | nil => rfl
    | cons fr rest =>
      have := hrest fr (by simp)
      cases fr <;> simp_all [Frame.rcving]
  | cons fr fs =>
    have := hpush.entry fr (by simp)
    cases fr <;> simp_all [Frame.rcving]

theorem Waits.receiving (hp : th.Parked) (h : th.Waits c) : th.Receiving := by
  refine ⟨h.2, ?_⟩
  cases hb : th.blockFor with
  | receiving => rfl
  | sending =>
    obtain ⟨c', fs, hc⟩ := hp.sending ⟨h.2, hb⟩
    have := h.1
    rw [rcving_eq_some_iff, hc] at this
    simp at this

/-- A thread that sleeps in a receive with `now_rcving == c` is in `lwt_rcv(c)` or
has fallen asleep behind it. -/
theorem Parked.of_rcving (hp : th.Parked) (hr : th.Receiving) (h : th.rcving = some c) :
    th.nowRcving = some c := by
  rw [rcving_eq_some_iff] at h
  rcases hp.receiving hr with ⟨c', fs, hc, hn⟩ | ⟨c', fs, hc, hn⟩ | ⟨g, fs, hc⟩
  · rw [hc] at h
    simp at h
    rw [hn, h]
  · simp [hc] at h
  · simp [hc] at h

end Task

section Threads

variable {σ τ : State} {l : Label} {k : KthdId} {cur t : ThreadId} {f : Frame}
  {rest : List Frame} {c : ChanId} {d : Data} {n : Next}

/-- The thread of a section is inside `lwt_rcv(c)` only at the section behind it. -/
theorem Section.handed_iff (h : InPlace σ k) (hs : Section σ l τ cur f rest) :
    (σ.sched.tasks cur).Handed c ↔ f = .rcvRet c := by
  have hne := (h.running_cur hs.current).canRun.not_blocked
  rw [Task.Handed, Task.rcving_eq_some_iff, and_iff_left hne]
  rcases hs.at_ with hctx | ⟨⟨a, rfl⟩, hctx, -⟩ <;> rw [hctx] <;> simp

/-- Behind a section its thread is not inside a `lwt_rcv` with a message. -/
theorem Section.not_handed (h : InPlace σ k) (hwell : WellFramed σ) (hw : OwnerWaits σ l)
    (hs : Section σ l τ cur f rest) : ¬ (τ.sched.tasks cur).Handed c := by
  rintro ⟨hrcv, hne⟩
  have hself := (h.effect hs).self h.placed (h.running_cur hs.current) hs.at_ (InPlace.owner hw hs)
  cases hself with
  | goesOn fs hpush hctx =>
    rw [Task.rcving_append hctx hpush (hwell.rest_outer hs)] at hrcv
    cases hrcv
  | sleepRcv _ _ _ _ _ hr => exact hne hr.1
  | sleepGroup _ _ _ _ hr => exact hne hr.1
  | sleepSnd _ _ _ _ hr => exact hne hr.1
  | die _ hctx =>
    rw [Task.rcving_eq_some_iff, hctx] at hrcv
    simp at hrcv

/-- Behind a section its thread sleeps inside `lwt_rcv(c)` only if it called it. -/
theorem Section.waits (h : InPlace σ k) (hwell : WellFramed σ) (hw : OwnerWaits σ l)
    (hs : Section σ l τ cur f rest) (hwt : (τ.sched.tasks cur).Waits c) :
    f = .call (.lwtRcv c) := by
  obtain ⟨hrcv, hb⟩ := hwt
  have hself := (h.effect hs).self h.placed (h.running_cur hs.current) hs.at_ (InPlace.owner hw hs)
  cases hself with
  | goesOn fs hpush hctx =>
    rw [Task.rcving_append hctx hpush (hwell.rest_outer hs)] at hrcv
    cases hrcv
  | sleepRcv rcving fr hf hctx =>
    rw [Task.rcving_eq_some_iff, hctx] at hrcv
    cases hf with
    | rcv c' hf =>
      simp at hrcv
      rw [hf, hrcv]
    | sync c' hf => simp at hrcv
  | sleepGroup g _ hctx =>
    rw [Task.rcving_eq_some_iff, hctx] at hrcv
    simp at hrcv
  | sleepSnd c' d _ hctx =>
    rw [Task.rcving_eq_some_iff, hctx] at hrcv
    simp at hrcv
  | die _ hctx =>
    rw [Task.rcving_eq_some_iff, hctx] at hrcv
    simp at hrcv

/-- `lwt_snd(c, ·)` resumes the receiver of `c` or a thread in a group wait. -/
theorem Section.snd_other (h : InPlace σ k) (hs : Section σ l τ cur (.call (.lwtSnd c d)) rest)
    (ht : t ≠ cur)
    (hh : ¬ ((σ.chans c).receiver = some t ∧ (σ.sched.tasks t).Receiving ∧
      (σ.sched.tasks t).nowRcving = some c)) :
    (σ.sched.tasks t).Same (τ.sched.tasks t) ∨
      (∃ g, (σ.sched.tasks t).context.head? = some (.cgrpWaitLoop g)) ∧
        (τ.sched.tasks t).context = (σ.sched.tasks t).context := by
  obtain ⟨⟨σ', n⟩, hb, hfin⟩ := bind_ok hs.exec
  obtain ⟨-, -, hsnd⟩ := State.lwtSnd_ok hb
  have same {s : Sched} (hs : s.tasks t = σ.sched.tasks t) :
      (σ.sched.tasks t).Same (s.tasks t) := hs ▸ .refl _
  have group {σ₁ : State} (hw : State.WakeGroup (σ.modChan c fun ch => { ch with ready := 1 }) cur
      (σ.chans c).cgroup σ₁) : (σ.sched.tasks t).Same (σ₁.sched.tasks t) ∨
        (∃ g, (σ.sched.tasks t).context.head? = some (.cgrpWaitLoop g)) ∧
          (σ₁.sched.tasks t).context = (σ.sched.tasks t).context := by
    cases hw with
    | skip => exact .inl (.refl _)
    | wake g hc hg hb =>
      rw [State.resumeThread_sched]
      by_cases hu : t = (σ.cgrps g).owner
      · subst hu
        exact .inr ⟨⟨g, h.placed.blocked g hg hb⟩, by simp⟩
      · exact .inl (same (by simp [hu]))
  cases hsnd with
  | sync =>
    rw [State.finish_goto hfin]
    exact .inl (same (by simp [ht]))
  | noReceiver =>
    rw [State.finish_ret hfin]
    exact .inl (same (by simp [ht]))
  | handOff r _ hr _ hrcv hn =>
    have hne : t ≠ r := by
      rintro rfl
      exact hh ⟨hr, hrcv, hn⟩
    rw [State.finish_ret hfin, State.emit_sched, State.emit_sched, State.resumeThread_sched]
    exact .inl (same (by simp [ht, hne]))
  | ring r σ₁ _ _ _ hw =>
    rw [State.finish_ret hfin]
    simpa [ht] using group hw
  | block r σ₁ _ _ _ hw =>
    have hd := State.finish_schedule hfin
    rw [State.sleepSnd_sched, State.emit_sched] at hd
    have hsame := (h.sleepSnd_placed hs hw).dispatch_same hd t
    rw [show (σ₁.sched.sleepSnd cur c (.sndRet c :: rest)).tasks t = σ₁.sched.tasks t by
      simp [ht]] at hsame
    rcases group hw with h' | ⟨hg, hctx⟩
    · exact .inl (h'.trans hsame)
    · exact .inr ⟨hg, hsame.context.trans hctx⟩

/-- A section leaves another thread where it is in `lwt_rcv(c)`, unless it hands
that thread a message. -/
theorem Section.other_rcving (h : InPlace σ k) (hw : OwnerWaits σ l)
    (hs : Section σ l τ cur f rest) (ht : t ≠ cur) (hlt : t < σ.nthreads)
    (hh : ∀ d, f = .call (.lwtSnd c d) → ¬ ((σ.chans c).receiver = some t ∧
      (σ.sched.tasks t).Receiving ∧ (σ.sched.tasks t).nowRcving = some c)) :
    ((τ.sched.tasks t).Handed c ↔ (σ.sched.tasks t).Handed c) ∧
      ((τ.sched.tasks t).Waits c ↔ (σ.sched.tasks t).Waits c) := by
  have away {th : Task} (hctx : th.context = (σ.sched.tasks t).context)
      (hne : (σ.sched.tasks t).rcving ≠ some c) :
      (th.Handed c ↔ (σ.sched.tasks t).Handed c) ∧ (th.Waits c ↔ (σ.sched.tasks t).Waits c) := by
    have hne' : th.rcving ≠ some c := by
      unfold Task.rcving
      rwa [hctx]
    exact ⟨iff_of_false (fun h => hne' h.1) fun h => hne h.1,
      iff_of_false (fun h => hne' h.1) fun h => hne h.1⟩
  have group {g : CgrpId} (hg : (σ.sched.tasks t).context.head? = some (.cgrpWaitLoop g)) :
      (σ.sched.tasks t).rcving ≠ some c := by
    rw [ne_eq, Task.rcving_eq_some_iff, hg]
    simp
  by_cases hf : ∃ d, f = .call (.lwtSnd c d)
  · obtain ⟨d, rfl⟩ := hf
    rcases hs.snd_other h ht (hh d rfl) with hsame | ⟨⟨g, hg⟩, hctx⟩
    · exact ⟨hsame.handed_iff, hsame.waits_iff⟩
    · exact away hctx (group hg)
  simp only [not_exists] at hf
  have hother := (h.effect hs).other h.placed (h.running_cur hs.current) hs.at_
    (InPlace.owner hw hs) ht hlt
  have hparked := h.placed.parked t hlt
  cases hother with
  | same hsame => exact ⟨hsame.handed_iff, hsame.waits_iff⟩
  | woken hwk hctx =>
    refine away hctx fun hrcv => ?_
    cases hwk with
    | handOff c' d hf' _ hr hn =>
      have := hparked.of_rcving hr hrcv
      rw [hn] at this
      cases this
      exact hf d hf'
    | sender c' _ hq =>
      obtain ⟨-, -, fs, hctx'⟩ := h.placed.mem_sender (List.mem_of_head? hq)
      rw [Task.rcving_eq_some_iff, hctx'] at hrcv
      simp at hrcv
    | group c' d g _ hg hb ho =>
      exact group (ho ▸ h.placed.blocked g hg hb) hrcv
  | started hz hctx =>
    have hne : (σ.sched.tasks t).rcving ≠ some c := by
      obtain ⟨fs, hctx'⟩ := hparked.dead hz
      rw [ne_eq, Task.rcving_eq_some_iff, hctx']
      simp
    have hne' : (τ.sched.tasks t).rcving ≠ some c := by
      rw [ne_eq, Task.rcving_eq_some_iff, hctx]
      simp
    exact ⟨iff_of_false (fun h => hne' h.1) fun h => hne h.1,
      iff_of_false (fun h => hne' h.1) fun h => hne h.1⟩

end Threads

def Event.sent (c : ChanId) : Event → Option Data
  | .snd _ c' d => if c' = c then some d else none
  | _ => none

def Event.rcvd (c : ChanId) : Event → Option Data
  | .rcv _ c' d => if c' = c then some d else none
  | _ => none

namespace State

/-- The message handed to the receiver of `c`, if it has not yet gone on. -/
def hand (σ : State) (c : ChanId) : List Data :=
  match (σ.chans c).receiver with
  | some r => if (σ.threads r).task.Handed c then [(σ.threads r).messageData] else []
  | none => []

@[simps] def mailbox (σ : State) (c : ChanId) : Mailbox Data where
  sent := σ.history.filterMap (Event.sent c)
  rcvd := σ.history.filterMap (Event.rcvd c)
  hand := σ.hand c
  ring := (σ.chans c).buffer.contents (σ.chans c).size
  senders := (σ.queues (.sender c)).map fun t => (σ.threads t).messageData
  waiting := ∃ r, (σ.chans c).receiver = some r ∧ (σ.threads r).task.Waits c
  size := (σ.chans c).size

/-- The receiver of `c` sleeps in a group wait and its `now_rcving` is still `c`. -/
def Stale (σ : State) (c : ChanId) : Prop :=
  ∃ r g, (σ.chans c).receiver = some r ∧ (σ.threads r).task.Receiving ∧
    (σ.threads r).nowRcving = some c ∧ (σ.threads r).context.head? = some (.cgrpWaitLoop g)

/-- Channel `c` is LOCAL, its ring has only been used within its bounds, and
whoever is inside `lwt_rcv(c)` with a message is its receiver. -/
structure Plain (σ : State) (c : ChanId) : Prop where
  type : c < σ.nchans → (σ.chans c).type = .local
  valid : c < σ.nchans → (σ.chans c).buffer.Valid (σ.chans c).size
  receiver : ∀ r, c < σ.nchans → (σ.chans c).receiver = some r → r < σ.nthreads
  silent : σ.nchans ≤ c → (σ.mailbox c).sent = [] ∧ (σ.mailbox c).rcvd = []
  sync : ∀ t, .syncRcvLoop c ∉ (σ.threads t).context ∧ .syncRcvBlock c ∉ (σ.threads t).context
  made : ∀ t, .rcvRet c ∈ (σ.threads t).context → c < σ.nchans
  handed : ∀ t < σ.nthreads, (σ.threads t).task.Handed c → (σ.chans c).receiver = some t

end State

/-- A step of a run of one kernel thread in which channel `c` stays LOCAL, with a
size that a ring can have. -/
structure LocalUse (c : ChanId) (σ : State) (l : Label) : Prop where
  ordinary : Ordinary σ l
  type : σ.frame l ≠ some (.call (.setChanType c .global))
  size : ∀ size mem, σ.frame l = some (.call (.lwtChan size mem)) → σ.nchans = c →
    0 ≤ size ∧ size < 2147483648

section Steps

variable {σ τ σ' σ₁ : State} {l : Label} {k : KthdId} {cur t : ThreadId} {f : Frame}
  {rest : List Frame} {c : ChanId} {d : Data} {n : Next}

theorem resumeThread_sender (σ : State) (cur t : ThreadId) (c : ChanId) :
    (σ.resumeThread cur t).queues (.sender c) = (σ.queues (.sender c)).erase t :=
  Sched.append_run_sender (σ.queues.rem t) (σ.threads cur).ownerKthd t

/-- No section but `lwt_snd(c, ·)` puts a value on its way. -/
theorem sent_eq (hs : Section σ l τ cur f rest) (hf : ∀ d, f ≠ .call (.lwtSnd c d)) :
    (τ.mailbox c).sent = (σ.mailbox c).sent := by
  obtain ⟨es, he, hes⟩ := (State.exec_net hs.exec).history
  have he : τ.history = σ.history ++ es := he
  have hnil : es.filterMap (Event.sent c) = [] := by
    rw [List.filterMap_eq_nil_iff]
    intro e hmem
    have := hes e hmem
    cases e with
    | snd t c' d =>
      refine if_neg ?_
      rintro rfl
      exact hf d this.2
    | _ => rfl
  simp [he, hnil]

/-- No section but those of `lwt_rcv(c)` returns a value. -/
theorem rcvd_eq (hs : Section σ l τ cur f rest) (hr : f ≠ .call (.lwtRcv c))
    (hret : f ≠ .rcvRet c) (hl : f ≠ .syncRcvLoop c) :
    (τ.mailbox c).rcvd = (σ.mailbox c).rcvd := by
  obtain ⟨es, he, hes⟩ := (State.exec_net hs.exec).history
  have he : τ.history = σ.history ++ es := he
  have hnil : es.filterMap (Event.rcvd c) = [] := by
    rw [List.filterMap_eq_nil_iff]
    intro e hmem
    have := hes e hmem
    cases e with
    | rcv t c' d =>
      refine if_neg ?_
      rintro rfl
      rcases this.2 with h | h | h
      · exact hr h
      · exact hret h
      · exact hl h
    | _ => rfl
  simp [he, hnil]

/-- A queued sender keeps its message. -/
theorem sender_message (h : InPlace σ k) (hs : Section σ l τ cur f rest)
    (ht : t ∈ σ.queues (.sender c)) :
    (τ.threads t).messageData = (σ.threads t).messageData := by
  obtain ⟨hlt, hsnd, -⟩ := h.placed.mem_sender ht
  refine (State.exec_net hs.exec).message ?_ ?_ hlt fun c' d _ hr => ?_
  · rintro rfl
    exact (h.running_cur hs.current).canRun.not_sending hsnd
  · intro hz
    have hk : σ.currentKthd = k := h.placed.kthd
    rw [hk] at hz
    have := (h.placed.mem_recycle_iff.mp hz).2
    rw [hsnd.1] at this
    cases this
  · have := hr.1.2
    rw [show (σ.threads t).task.blockFor = .sending from hsnd.2] at this
    cases this

theorem senders_eq (h : InPlace σ k) (hs : Section σ l τ cur f rest)
    (hq : τ.queues (.sender c) = σ.queues (.sender c)) :
    (τ.mailbox c).senders = (σ.mailbox c).senders := by
  simp only [State.mailbox_senders, hq]
  exact List.map_congr_left fun t ht => sender_message h hs ht

theorem ring_eq (hs : Section σ l τ cur f rest) (hc : c < σ.nchans)
    (hsnd : ∀ d, f ≠ .call (.lwtSnd c d)) (hr : f ≠ .call (.lwtRcv c)) (hl : f ≠ .syncRcvLoop c) :
    (τ.mailbox c).ring = (σ.mailbox c).ring := by
  have heff : State.ChanEffect σ cur c f (τ.chans c) := (State.exec_net hs.exec).chanEffect hc
  simp only [State.mailbox_ring, heff.size, heff.buffer hsnd hr hl]

/-- The receiver of `c` behind a section. -/
theorem receiver_cases (hs : Section σ l τ cur f rest) (hc : c < σ.nchans) :
    (τ.chans c).receiver = (σ.chans c).receiver ∨
      (σ.chans c).receiver = some cur ∧ (τ.chans c).receiver = none ∧
        f = .call (.lwtChanDeref c) := by
  have heff : State.ChanEffect σ cur c f (τ.chans c) := (State.exec_net hs.exec).chanEffect hc
  rcases heff.receiver with hr | ⟨hf, hr, hr'⟩
  · exact .inl hr
  · exact .inr ⟨hr, hr', hf⟩

/-- A thread that has been handed a message keeps it until it goes on. -/
theorem handed_message (h : InPlace σ k) (hs : Section σ l τ cur f rest) (ht : t ≠ cur)
    (hlt : t < σ.nthreads) (hh : (σ.threads t).task.Handed c) :
    (τ.threads t).messageData = (σ.threads t).messageData := by
  refine (State.exec_net hs.exec).message ht ?_ hlt fun c' d _ hr => hh.2 hr.1.1
  intro hz
  have hk : σ.currentKthd = k := h.placed.kthd
  rw [hk] at hz
  obtain ⟨fs, hctx⟩ := (h.placed.parked t hlt).dead (h.placed.mem_recycle_iff.mp hz).2
  have hctx : (σ.threads t).task.context = .died :: fs := hctx
  have := hh.1
  rw [Task.rcving_eq_some_iff, hctx] at this
  simp at this

section Receiver

variable (h : InPlace σ k) (hwell : WellFramed σ) (hw : OwnerWaits σ l) (hp : σ.Plain c)
  (hc : c < σ.nchans) (hs : Section σ l τ cur f rest)
  (hh : ∀ d, f = .call (.lwtSnd c d) → ∀ r, (σ.chans c).receiver = some r →
    ¬ ((σ.threads r).task.Receiving ∧ (σ.threads r).nowRcving = some c))

include h hwell hw hp hc hs hh

/-- The hand of the receiver changes in its own section and in a hand-off only. -/
theorem hand_eq (hret : f ≠ .rcvRet c) : τ.hand c = σ.hand c := by
  have hcur : ¬ (σ.threads cur).task.Handed c := fun hd => hret ((hs.handed_iff h).mp hd)
  have hcur' : ¬ (τ.threads cur).task.Handed c := hs.not_handed h hwell hw
  rcases receiver_cases hs hc with hr | ⟨hr, hr', -⟩
  · cases hrcv : (σ.chans c).receiver with
    | none => simp only [State.hand, hr, hrcv]
    | some r =>
      simp only [State.hand, hr, hrcv]
      by_cases hrc : r = cur
      · subst hrc
        rw [if_neg hcur, if_neg hcur']
      · have hlt := hp.receiver r hc hrcv
        have hiff : (τ.threads r).task.Handed c ↔ (σ.threads r).task.Handed c :=
          (hs.other_rcving h hw hrc hlt fun d hf hx => hh d hf r hrcv hx.2).1
        by_cases hd : (σ.threads r).task.Handed c
        · rw [if_pos hd, if_pos (hiff.mpr hd), handed_message h hs hrc hlt hd]
        · rw [if_neg hd, if_neg (mt hiff.mp hd)]
  · simp only [State.hand, hr, hr']
    rw [if_neg hcur]

/-- The receiver starts to wait in `lwt_rcv(c)` and stops in a hand-off only. -/
theorem waiting_iff (hr : f ≠ .call (.lwtRcv c)) :
    (τ.mailbox c).waiting ↔ (σ.mailbox c).waiting := by
  have hcur : ¬ (σ.threads cur).task.Waits c :=
    fun hwt => (h.running_cur hs.current).canRun.not_blocked hwt.2
  have hcur' : ¬ (τ.threads cur).task.Waits c := fun hwt => hr (hs.waits h hwell hw hwt)
  simp only [State.mailbox_waiting]
  rcases receiver_cases hs hc with hrc | ⟨hrc, hrc', -⟩
  · rw [hrc]
    refine exists_congr fun r => and_congr_right fun hrcv => ?_
    by_cases hrc : r = cur
    · subst hrc
      exact iff_of_false hcur' hcur
    · exact (hs.other_rcving h hw hrc (hp.receiver r hc hrcv)
        fun d hf hx => hh d hf r hrcv hx.2).2
  · rw [hrc, hrc']
    refine iff_of_false (by simp) ?_
    rintro ⟨r, hr, hwt⟩
    cases hr
    exact hcur hwt

end Receiver

/-- Away from `lwt_snd(c, ·)` and `lwt_rcv(c)` the mailbox is left alone. -/
theorem mailbox_eq (h : InPlace σ k) (hwell : WellFramed σ) (hw : OwnerWaits σ l) (hp : σ.Plain c)
    (hc : c < σ.nchans) (hs : Section σ l τ cur f rest) (hsnd : ∀ d, f ≠ .call (.lwtSnd c d))
    (hr : f ≠ .call (.lwtRcv c)) (hret : f ≠ .rcvRet c) (hl : f ≠ .syncRcvLoop c) :
    τ.mailbox c = σ.mailbox c := by
  have hh : ∀ d, f = .call (.lwtSnd c d) → ∀ r, (σ.chans c).receiver = some r →
      ¬ ((σ.threads r).task.Receiving ∧ (σ.threads r).nowRcving = some c) :=
    fun d hf => absurd hf (hsnd d)
  have hq : τ.queues (.sender c) = σ.queues (.sender c) :=
    (h.effect hs).sender_eq h.placed (h.running_cur hs.current) hsnd hr
  have heff : State.ChanEffect σ cur c f (τ.chans c) := (State.exec_net hs.exec).chanEffect hc
  exact Mailbox.ext (sent_eq hs hsnd) (rcvd_eq hs hr hret hl) (hand_eq h hwell hw hp hc hs hh hret)
    (ring_eq hs hc hsnd hr hl) (senders_eq h hs hq)
    (propext (waiting_iff h hwell hw hp hc hs hh hr)) heff.size

/-- What a section at `f` does to the mailbox of `c`. -/
inductive Moves (σ τ : State) (c : ChanId) (f : Frame) : Prop
  | same (h : τ.mailbox c = σ.mailbox c)
  | step (h : (σ.mailbox c).Step (τ.mailbox c))
  | take (hf : f = .call (.lwtRcv c)) (h : (σ.mailbox c).Take (τ.mailbox c))

/-- The end of a section leaves channels, messages and history alone. -/
theorem finish_fields (h : σ'.finish cur rest n = .ok τ) : τ.history = σ'.history ∧
    τ.chans = σ'.chans ∧ ∀ t, (τ.threads t).messageData = (σ'.threads t).messageData := by
  have hnet := State.finish_net h
  exact ⟨congrArg Net.history hnet, congrArg Net.chans hnet,
    fun t => congrFun (congrArg Net.message hnet) t⟩

/-- The group wake-up logs nothing about values and moves no sender. -/
theorem wakeGroup_fields {cgroup : Option CgrpId} (h : InPlace σ k)
    (hwk : State.WakeGroup (σ.modChan c fun ch => { ch with ready := 1 }) cur cgroup σ₁) :
    σ₁.history.filterMap (Event.sent c) = σ.history.filterMap (Event.sent c) ∧
      σ₁.history.filterMap (Event.rcvd c) = σ.history.filterMap (Event.rcvd c) ∧
      σ₁.queues (.sender c) = σ.queues (.sender c) := by
  cases hwk with
  | skip => exact ⟨rfl, rfl, rfl⟩
  | wake g hcg hg hb =>
    have hnot : (σ.cgrps g).owner ∉ σ.sched.queues (.sender c) := by
      intro hmem
      obtain ⟨-, -, fs, hctx⟩ := h.placed.mem_sender hmem
      have hhead := h.placed.blocked g hg hb
      rw [show (σ.sched.cgrps g).owner = (σ.cgrps g).owner from rfl, hctx] at hhead
      simp at hhead
    refine ⟨?_, ?_, ?_⟩
    · simp [State.resumeThread, Event.sent]
    · simp [State.resumeThread, Event.rcvd]
    · exact (resumeThread_sender _ cur _ c).trans (List.erase_of_not_mem hnot)

section Sections

variable (h : InPlace σ k) (hwell : WellFramed σ) (hw : OwnerWaits σ l) (hp : σ.Plain c)

include h hwell hw hp

/-- The receiver goes on with the message it was handed. -/
theorem moves_ret (hc : c < σ.nchans) (hs : Section σ l τ cur (.rcvRet c) rest) :
    Moves σ τ c (.rcvRet c) := by
  obtain ⟨⟨σ', n⟩, hb, hfin⟩ := bind_ok hs.exec
  cases hb
  obtain ⟨hist, -, -⟩ := finish_fields hfin
  have hhanded : (σ.threads cur).task.Handed c := (hs.handed_iff h).mpr rfl
  have hrcv := hp.handed cur (h.running_cur hs.current).lt hhanded
  have hhand : σ.hand c = [(σ.threads cur).messageData] := by
    simp only [State.hand, hrcv, if_pos hhanded]
  have hhand' : τ.hand c = [] := by
    have hcur : ¬ (τ.threads cur).task.Handed c := hs.not_handed h hwell hw
    rcases receiver_cases hs hc with hr | ⟨-, -, hf⟩
    · simp only [State.hand, hr, hrcv, if_neg hcur]
    · cases hf
  have hwait : ¬ (σ.mailbox c).waiting := by
    rintro ⟨r, hr, hwt⟩
    rw [hrcv] at hr
    cases hr
    exact hhanded.2 hwt.2
  have hq : τ.queues (.sender c) = σ.queues (.sender c) :=
    (h.effect hs).sender_eq h.placed (h.running_cur hs.current) (by simp) (by simp)
  have heff : State.ChanEffect σ cur c _ (τ.chans c) := (State.exec_net hs.exec).chanEffect hc
  have hτ : τ.mailbox c = { σ.mailbox c with
      rcvd := (σ.mailbox c).rcvd ++ [(σ.threads cur).messageData], hand := [] } :=
    Mailbox.ext (sent_eq hs (by simp)) (by simp [hist, Event.rcvd]) hhand'
      (ring_eq hs hc (by simp) (by simp) (by simp)) (senders_eq h hs hq)
      (propext (waiting_iff h hwell hw hp hc hs (by simp) (by simp))) heff.size
  exact .step (hτ ▸ .ret _ hhand hwait)

omit hwell hw hp in
/-- What `lwt_snd(c, d)` does when it hands `d` to the receiver. -/
theorem handOff_fields {r : ThreadId} (hrcv : (σ.threads r).task.Receiving)
    (hfin : ((((σ.modThread r fun th => { th with messageData := d }).resumeThread cur r).emit
      (.snd cur c d)).emit (.sndDone cur c)).finish cur rest (.ret .null) = .ok τ)
    (hand : List Data) (waiting : Prop) (hhand : τ.hand c = hand)
    (hwait : (τ.mailbox c).waiting ↔ waiting) :
    τ.mailbox c = { σ.mailbox c with
      sent := (σ.mailbox c).sent ++ [d], hand := hand, waiting := waiting } := by
  obtain ⟨hist, hch, hmsg⟩ := finish_fields hfin
  have hnot : r ∉ σ.queues (.sender c) := fun hmem => by
    have hsnd := (h.placed.mem_sender hmem).2.1.2
    have hrcv : (σ.sched.tasks r).blockFor = .receiving := hrcv.2
    rw [hrcv] at hsnd
    cases hsnd
  have hq : τ.queues (.sender c) = σ.queues (.sender c) := by
    rw [State.finish_queues hfin]
    exact (resumeThread_sender _ cur r c).trans (List.erase_of_not_mem hnot)
  have hsenders : (τ.mailbox c).senders = (σ.mailbox c).senders := by
    simp only [State.mailbox_senders, hq]
    refine List.map_congr_left fun t ht => ?_
    have htr : t ≠ r := by
      rintro rfl
      exact hnot ht
    refine (hmsg t).trans ((State.resumeThread_message _ cur r t).trans ?_)
    simp [htr]
  have hc : τ.chans c = σ.chans c := congrFun hch c
  exact Mailbox.ext (by simp [hist, State.resumeThread, Event.sent, List.filterMap_cons])
    (by simp [hist, State.resumeThread, Event.rcvd, List.filterMap_cons]) hhand (by simp [hc])
    hsenders (propext hwait) (by simp [hc])

omit hwell hw hp in
/-- A message handed to a thread that is not in `lwt_rcv(c)` is kept nowhere. -/
theorem handOff_lost {r : ThreadId} (hcur : σ.lwtCurrent = some cur)
    (hr : (σ.chans c).receiver = some r) (hrcv : (σ.threads r).task.Receiving)
    (hnot : (σ.threads r).task.rcving ≠ some c)
    (hfin : ((((σ.modThread r fun th => { th with messageData := d }).resumeThread cur r).emit
      (.snd cur c d)).emit (.sndDone cur c)).finish cur rest (.ret .null) = .ok τ) :
    τ.mailbox c = { σ.mailbox c with sent := (σ.mailbox c).sent ++ [d] } := by
  have hne : r ≠ cur := by
    rintro rfl
    exact (h.running_cur hcur).canRun.not_receiving hrcv
  have hctx : (τ.threads r).task.rcving = (σ.threads r).task.rcving := by
    rw [show (τ.threads r).task = τ.sched.tasks r from rfl, State.finish_ret hfin,
      State.emit_sched, State.emit_sched, State.resumeThread_sched,
      State.modThread_sched_self (f := fun th => { th with messageData := d }) _ _ fun _ => rfl]
    simp [hne, Task.rcving]
  have hr' : (τ.chans c).receiver = some r := by
    rw [congrFun (finish_fields hfin).2.1 c]
    exact hr
  have hhand : τ.hand c = σ.hand c := by
    have hnot' : (τ.threads r).task.rcving ≠ some c := by rwa [hctx]
    simp only [State.hand, hr, hr']
    rw [if_neg fun h => hnot' h.1, if_neg fun h => hnot h.1]
  refine handOff_fields h hrcv hfin _ _ hhand (iff_of_false ?_ ?_)
  · rintro ⟨r', hr'', hwt⟩
    obtain rfl : r = r' := Option.some.inj (hr'.symm.trans hr'')
    exact hnot (hctx ▸ hwt.1)
  · rintro ⟨r', hr'', hwt⟩
    obtain rfl : r = r' := Option.some.inj (hr.symm.trans hr'')
    exact hnot hwt.1

omit h hwell hw in
theorem State.Plain.waiting_of_receiving {r : ThreadId} (hpk : (σ.threads r).task.Parked)
    (hr : (σ.chans c).receiver = some r) (hrcv : (σ.threads r).task.Receiving)
    (hn : (σ.threads r).nowRcving = some c) (hns : ¬ σ.Stale c) : (σ.threads r).task.Waits c := by
  refine ⟨?_, hrcv.1⟩
  rcases hpk.receiving hrcv with ⟨c', fs, hctx, hn'⟩ | ⟨c', fs, hctx, hn'⟩ | ⟨g, fs, hctx⟩
  · obtain rfl : c' = c := Option.some.inj (hn'.symm.trans hn)
    exact Task.rcving_eq hctx
  · obtain rfl : c' = c := Option.some.inj (hn'.symm.trans hn)
    have hctx : (σ.threads r).context = .syncRcvLoop c' :: fs := hctx
    exact absurd (by simp [hctx]) (hp.sync r).1
  · have hctx : (σ.threads r).context = .cgrpWaitLoop g :: fs := hctx
    exact absurd ⟨r, g, hr, hrcv, hn, by simp [hctx]⟩ hns

omit hwell hw in
/-- A receiver that is not waiting for `c` is not inside `lwt_rcv(c)`. -/
theorem State.Plain.not_waiting (hc : c < σ.nchans) {r : ThreadId}
    (hr : (σ.chans c).receiver = some r)
    (hne : ¬ ((σ.threads r).task.Receiving ∧ (σ.threads r).nowRcving = some c)) :
    ¬ (σ.mailbox c).waiting ∧
      ∀ d', Frame.call (.lwtSnd c d) = .call (.lwtSnd c d') → ∀ r', (σ.chans c).receiver = some r' →
        ¬ ((σ.threads r').task.Receiving ∧ (σ.threads r').nowRcving = some c) := by
  have hh : ∀ r', (σ.chans c).receiver = some r' →
      ¬ ((σ.threads r').task.Receiving ∧ (σ.threads r').nowRcving = some c) := by
    intro r' hr'
    obtain rfl : r = r' := Option.some.inj (hr.symm.trans hr')
    exact hne
  refine ⟨?_, fun d' _ => hh⟩
  rintro ⟨r', hr', hwt⟩
  have hpk : (σ.threads r').task.Parked := h.placed.parked r' (hp.receiver r' hc hr')
  have hrcv := hwt.receiving hpk
  exact hh r' hr' ⟨hrcv, hpk.of_rcving hrcv hwt.1⟩

section Snd

variable (hs : Section σ l τ cur (.call (.lwtSnd c d)) rest) (hc : c < σ.nchans)

include hs

omit hwell hw in
theorem moves_snd_handOff {r : ThreadId} (hr : (σ.chans c).receiver = some r)
    (hlt : r < σ.nthreads) (hrcv : (σ.threads r).task.Receiving)
    (hn : (σ.threads r).nowRcving = some c) (hns : ¬ σ.Stale c)
    (hfin : ((((σ.modThread r fun th => { th with messageData := d }).resumeThread cur r).emit
      (.snd cur c d)).emit (.sndDone cur c)).finish cur rest (.ret .null) = .ok τ) :
    Moves σ τ c (.call (.lwtSnd c d)) := by
  have hwt := hp.waiting_of_receiving (h.placed.parked r hlt) hr hrcv hn hns
  have hne : r ≠ cur := by
    rintro rfl
    exact (h.running_cur hs.current).canRun.not_receiving hrcv
  obtain ⟨-, hch, hmsg⟩ := finish_fields hfin
  have hrun' : (τ.sched.tasks r) = { σ.sched.tasks r with state := .runnable } := by
    rw [State.finish_ret hfin, State.emit_sched, State.emit_sched, State.resumeThread_sched,
      State.modThread_sched_self (f := fun th => { th with messageData := d }) _ _ fun _ => rfl]
    simp [hne]
  have hr' : (τ.chans c).receiver = some r := by rw [congrFun hch c]; exact hr
  have hhanded : (τ.threads r).task.Handed c := by
    refine ⟨?_, ?_⟩
    · rw [show (τ.threads r).task = _ from hrun']
      exact hwt.1
    · rw [show (τ.threads r).task = _ from hrun']
      simp
  have hhand : τ.hand c = [d] := by
    simp only [State.hand, hr', if_pos hhanded, hmsg r]
    refine congrArg (fun x => [x]) ((State.resumeThread_message _ cur r r).trans ?_)
    simp
  have hnot : (τ.mailbox c).waiting ↔ False := by
    refine iff_of_false ?_ id
    rintro ⟨r', hr'', hwt'⟩
    obtain rfl : r = r' := Option.some.inj (hr'.symm.trans hr'')
    exact hhanded.2 hwt'.2
  exact .step (handOff_fields h hrcv hfin [d] False hhand hnot ▸ .handOff d ⟨r, hr, hwt⟩)

include hc

theorem moves_snd_ring {r : ThreadId} {σ₁ : State} (hr : (σ.chans c).receiver = some r)
    (hne : ¬ ((σ.threads r).task.Receiving ∧ (σ.threads r).nowRcving = some c))
    (hwk : State.WakeGroup (σ.modChan c fun ch => { ch with ready := 1 }) cur (σ.chans c).cgroup
      σ₁)
    (hn : (σ.chans c).buffer.count ≠ (σ.chans c).size)
    (hf : (σ.chans c).buffer.Fits (σ.chans c).size (σ.chans c).buffer.tail)
    (hfin : (((σ₁.emit (.snd cur c d)).modChan c fun ch =>
      { ch with buffer := ch.buffer.push ch.size d }).emit (.sndDone cur c)).finish cur rest
        (.ret .null) = .ok τ) :
    Moves σ τ c (.call (.lwtSnd c d)) := by
  obtain ⟨hnw, hh⟩ := hp.not_waiting h hc hr hne
  obtain ⟨hsent, hrcvd, hq₁⟩ := wakeGroup_fields h hwk
  obtain ⟨hist, hch, -⟩ := finish_fields hfin
  have hq : τ.queues (.sender c) = σ.queues (.sender c) := by
    rw [State.finish_queues hfin]
    exact hq₁
  have hcc : τ.chans c = { σ.chans c with
      ready := 1, buffer := (σ.chans c).buffer.push (σ.chans c).size d } := by
    simp [hch, hwk.chans]
  obtain ⟨-, hpush⟩ := (hp.valid hc).push (x := d) hn hf.1
  have hτ : τ.mailbox c = { σ.mailbox c with
      sent := (σ.mailbox c).sent ++ [d], ring := (σ.mailbox c).ring ++ [d] } :=
    Mailbox.ext (by simp [hist, hsent, Event.sent, List.filterMap_cons])
      (by simp [hist, hrcvd, Event.rcvd, List.filterMap_cons])
      (hand_eq h hwell hw hp hc hs hh (by simp)) (by simp [hcc, hpush]) (senders_eq h hs hq)
      (propext (waiting_iff h hwell hw hp hc hs hh (by simp))) (by simp [hcc])
  refine .step (hτ ▸ .push d hnw ?_)
  rw [State.mailbox_ring, (hp.valid hc).length_contents]
  exact hn

theorem moves_snd_block {r : ThreadId} {σ₁ : State} (hr : (σ.chans c).receiver = some r)
    (hne : ¬ ((σ.threads r).task.Receiving ∧ (σ.threads r).nowRcving = some c))
    (hwk : State.WakeGroup (σ.modChan c fun ch => { ch with ready := 1 }) cur (σ.chans c).cgroup
      σ₁)
    (hn : (σ.chans c).buffer.count = (σ.chans c).size)
    (hfin : (((σ₁.emit (.snd cur c d)).modThread cur fun th =>
      { th with messageData := d }).blockThread cur .sending c).finish cur rest
        (.schedule [.sndRet c]) = .ok τ) :
    Moves σ τ c (.call (.lwtSnd c d)) := by
  have hcur : cur ∉ σ.queues (.sender c) := fun hmem =>
    (h.running_cur hs.current).canRun.not_sending (h.placed.mem_sender hmem).2.1
  obtain ⟨hnw, hh⟩ := hp.not_waiting h hc hr hne
  obtain ⟨hsent, hrcvd, hq₁⟩ := wakeGroup_fields h hwk
  obtain ⟨hist, hch, hmsg⟩ := finish_fields hfin
  rw [State.blockThread_sending] at hist hch hmsg
  have hq : τ.queues (.sender c) = σ.queues (.sender c) ++ [cur] := by
    rw [State.finish_queues hfin, State.blockThread_sending]
    simp [State.countBlocked, hq₁, List.erase_of_not_mem hcur]
  have hcc : τ.chans c = { σ.chans c with ready := 1 } := by
    simp [hch, State.countBlocked, hwk.chans]
  have hmcur : (τ.threads cur).messageData = d := by
    rw [hmsg cur]
    simp [State.countBlocked]
  have hsenders : (τ.mailbox c).senders = (σ.mailbox c).senders ++ [d] := by
    simp only [State.mailbox_senders, hq, List.map_append, List.map_cons, List.map_nil, hmcur]
    exact congrArg (· ++ [d]) (List.map_congr_left fun t ht => sender_message h hs ht)
  have hτ : τ.mailbox c = { σ.mailbox c with
      sent := (σ.mailbox c).sent ++ [d], senders := (σ.mailbox c).senders ++ [d] } :=
    Mailbox.ext (by simp [hist, State.countBlocked, hsent, Event.sent, List.filterMap_cons])
      (by simp [hist, State.countBlocked, hrcvd, Event.rcvd, List.filterMap_cons])
      (hand_eq h hwell hw hp hc hs hh (by simp)) (by simp [hcc]) hsenders
      (propext (waiting_iff h hwell hw hp hc hs hh (by simp))) (by simp [hcc])
  refine .step (hτ ▸ .block d hnw ?_)
  rw [State.mailbox_ring, (hp.valid hc).length_contents]
  exact hn

omit hc in
/-- `lwt_snd(c, d)` to a channel whose receiver is not asleep in a group wait with
`now_rcving == c`. -/
theorem moves_snd (hns : ¬ σ.Stale c) : Moves σ τ c (.call (.lwtSnd c d)) := by
  obtain ⟨⟨σ', n⟩, hb, hfin⟩ := bind_ok hs.exec
  obtain ⟨hc, -, hsnd⟩ := State.lwtSnd_ok hb
  cases hsnd with
  | sync r ht => simp [hp.type hc] at ht
  | noReceiver ht hr =>
    obtain ⟨hist, hch, -⟩ := finish_fields hfin
    have hq : τ.queues (.sender c) = σ.queues (.sender c) := by rw [State.finish_queues hfin]; rfl
    have hcc : τ.chans c = σ.chans c := congrFun hch c
    refine .same (Mailbox.ext (by simp [hist, Event.sent]) (by simp [hist, Event.rcvd])
      (hand_eq h hwell hw hp hc hs (by simp [hr]) (by simp)) (by simp [hcc]) (senders_eq h hs hq)
      (propext (waiting_iff h hwell hw hp hc hs (by simp [hr]) (by simp))) (by simp [hcc]))
  | handOff r ht hr hlt hrcv hn => exact moves_snd_handOff h hp hs hr hlt hrcv hn hns hfin
  | ring r σ₁ ht hr hne hwk hn h0 hf =>
    exact moves_snd_ring h hwell hw hp hs hc hr hne hwk hn hf hfin
  | block r σ₁ ht hr hne hwk hn => exact moves_snd_block h hwell hw hp hs hc hr hne hwk hn hfin

end Snd

section Rcv

variable (hs : Section σ l τ cur (.call (.lwtRcv c)) rest) (hc : c < σ.nchans)

include hs hc

omit h hwell hw hp in
theorem rcv_receiver : (τ.chans c).receiver = (σ.chans c).receiver := by
  rcases receiver_cases hs hc with hr | ⟨-, -, hf⟩
  · exact hr
  · cases hf

omit hwell in
/-- Another thread sleeps in `lwt_rcv(c)` if and only if it did so before. -/
theorem rcv_waiting (hcur' : (σ.chans c).receiver = some cur → ¬ (τ.threads cur).task.Waits c) :
    (τ.mailbox c).waiting = (σ.mailbox c).waiting := by
  have hcur : ¬ (σ.threads cur).task.Waits c :=
    fun hwt => (h.running_cur hs.current).canRun.not_blocked hwt.2
  simp only [State.mailbox_waiting, rcv_receiver hs hc]
  refine propext (exists_congr fun r => and_congr_right fun hr => ?_)
  by_cases hrc : r = cur
  · subst hrc
    exact iff_of_false (hcur' hr) hcur
  · exact (hs.other_rcving h hw hrc (hp.receiver r hc hr) (by simp)).2

theorem rcv_waiting_of_ret {x : Data} (hfin : σ'.finish cur rest (.ret x) = .ok τ) :
    (τ.mailbox c).waiting = (σ.mailbox c).waiting := by
  refine rcv_waiting h hw hp hs hc fun _ hwt => ?_
  have hctx : (τ.threads cur).task.context = [] ++ rest := State.finish_frames hfin
  have hrcv := hwt.1
  rw [Task.rcving_append hctx .nil (hwell.rest_outer hs)] at hrcv
  cases hrcv

omit hwell hw hp hc in
/-- The first sender is gone. -/
theorem rcv_senders {s : ThreadId} {l' : List ThreadId} (hq : σ.queues (.sender c) = s :: l')
    (hq' : τ.queues (.sender c) = l') :
    (τ.mailbox c).senders = l'.map fun t => (σ.threads t).messageData := by
  simp only [State.mailbox_senders, hq']
  exact List.map_congr_left fun t ht => sender_message h hs (c := c) (by simp [hq, ht])

theorem moves_rcv_ring (hn : (σ.chans c).buffer.count ≠ 0) (hq : σ.queues (.sender c) = [])
    (hfin : ((σ.modChan c fun ch =>
      { ch with
        buffer := ch.buffer.pop
        ready := if ch.buffer.pop.head = ch.buffer.tail then 0 else 1 }).emit
        (.rcv cur c ((σ.chans c).buffer.front (σ.chans c).size))).finish cur rest
          (.ret ((σ.chans c).buffer.front (σ.chans c).size)) = .ok τ) :
    Moves σ τ c (.call (.lwtRcv c)) := by
  obtain ⟨hist, hch, -⟩ := finish_fields hfin
  have hq' : τ.queues (.sender c) = σ.queues (.sender c) := by rw [State.finish_queues hfin]; rfl
  obtain ⟨-, hpop⟩ := (hp.valid hc).pop hn
  have hτ : τ.mailbox c = { σ.mailbox c with
      rcvd := (σ.mailbox c).rcvd ++ [(σ.chans c).buffer.front (σ.chans c).size]
      ring := (σ.chans c).buffer.pop.contents (σ.chans c).size } :=
    Mailbox.ext (sent_eq hs (by simp)) (by simp [hist, Event.rcvd])
      (hand_eq h hwell hw hp hc hs (by simp) (by simp)) (by simp [hch]) (senders_eq h hs hq')
      (rcv_waiting_of_ret h hwell hw hp hs hc hfin) (by simp [hch])
  exact .take rfl (hτ ▸ .pop _ _ hpop (by simp [hq]))

/-- The first sender gets the slot. -/
theorem moves_rcv_refill {s : ThreadId} {l' : List ThreadId}
    (hn : (σ.chans c).buffer.count ≠ 0) (hq : σ.queues (.sender c) = s :: l')
    (hf : (σ.chans c).buffer.Fits (σ.chans c).size (σ.chans c).buffer.tail)
    (hfin : (((σ.resumeThread cur s).modChan c fun ch =>
      { ch with
        buffer := ch.buffer.pop.push ch.size (σ.threads s).messageData
        ready := if ch.buffer.pop.head =
          (ch.buffer.pop.push ch.size (σ.threads s).messageData).tail then 0 else 1 }).emit
        (.rcv cur c ((σ.chans c).buffer.front (σ.chans c).size))).finish cur rest
          (.ret ((σ.chans c).buffer.front (σ.chans c).size)) = .ok τ) :
    Moves σ τ c (.call (.lwtRcv c)) := by
  obtain ⟨hist, hch, -⟩ := finish_fields hfin
  have hq' : τ.queues (.sender c) = l' := by
    rw [State.finish_queues hfin]
    exact (resumeThread_sender σ cur s c).trans (by simp [hq])
  have hvalid := hp.valid hc
  obtain ⟨hvalid', hpop⟩ := hvalid.pop hn
  have hroom : (σ.chans c).buffer.pop.count ≠ (σ.chans c).size := by
    have hle := hvalid.length_le
    rw [hpop, List.length_cons, Nat.cast_succ, hvalid'.length_contents] at hle
    omega
  obtain ⟨-, hpush⟩ := hvalid'.push (x := (σ.threads s).messageData) hroom hf.1
  have hτ : τ.mailbox c = { σ.mailbox c with
      rcvd := (σ.mailbox c).rcvd ++ [(σ.chans c).buffer.front (σ.chans c).size]
      ring := (σ.chans c).buffer.pop.contents (σ.chans c).size ++ [(σ.threads s).messageData]
      senders := l'.map fun t => (σ.threads t).messageData } :=
    Mailbox.ext (sent_eq hs (by simp))
      (by simp [hist, State.resumeThread, Event.rcvd, List.filterMap_cons])
      (hand_eq h hwell hw hp hc hs (by simp) (by simp)) (by simp [hch, ← hpush])
      (rcv_senders h hs hq hq') (rcv_waiting_of_ret h hwell hw hp hs hc hfin) (by simp [hch])
  exact .take rfl (hτ ▸ .refill _ _ _ _ hpop (by simp [hq]))

theorem moves_rcv_sender {s : ThreadId} {l' : List ThreadId}
    (hn : (σ.chans c).buffer.count = 0) (hq : σ.queues (.sender c) = s :: l')
    (hfin : (((σ.resumeThread cur s).modChan c fun ch =>
      { ch with ready := if (σ.resumeThread cur s).queues (.sender c) = [] then 0 else 1 }).emit
        (.rcv cur c (σ.threads s).messageData)).finish cur rest
          (.ret (σ.threads s).messageData) = .ok τ) :
    Moves σ τ c (.call (.lwtRcv c)) := by
  obtain ⟨hist, hch, -⟩ := finish_fields hfin
  have hq' : τ.queues (.sender c) = l' := by
    rw [State.finish_queues hfin]
    exact (resumeThread_sender σ cur s c).trans (by simp [hq])
  have hτ : τ.mailbox c = { σ.mailbox c with
      rcvd := (σ.mailbox c).rcvd ++ [(σ.threads s).messageData]
      senders := l'.map fun t => (σ.threads t).messageData } :=
    Mailbox.ext (sent_eq hs (by simp))
      (by simp [hist, State.resumeThread, Event.rcvd, List.filterMap_cons])
      (hand_eq h hwell hw hp hc hs (by simp) (by simp)) (by simp [hch])
      (rcv_senders h hs hq hq') (rcv_waiting_of_ret h hwell hw hp hs hc hfin) (by simp [hch])
  exact .take rfl (hτ ▸ .sender _ _ ((hp.valid hc).contents_eq_nil_iff.mpr hn) (by simp [hq]))

omit hwell hw hp hc in
/-- The thread that blocks in `lwt_rcv(c)` sleeps there. -/
theorem rcv_sleeps
    (hfin : ((σ.modThread cur fun th => { th with nowRcving := some c }).blockThread cur .receiving
      c).finish cur rest (.schedule [.rcvRet c]) = .ok τ) : (τ.threads cur).task.Waits c := by
  have hd := State.finish_schedule hfin
  rw [State.blockThread_receiving, State.sleepRcv_sched] at hd
  have hp₁ := ((Sched.Act.sleepRcv (some c) (.rcvRet c) (.rcv c rfl)).placed h.placed
    (h.running_cur hs.current) hs.at_ (by simp)).1
  have hsame := hp₁.dispatch_same hd cur
  have hctx : (τ.threads cur).task.context = .rcvRet c :: rest :=
    hsame.context.trans (by simp)
  exact ⟨Task.rcving_eq hctx, hsame.state_iff.mpr (by simp)⟩

theorem moves_rcv_block (hn : (σ.chans c).buffer.count = 0) (hq : σ.queues (.sender c) = [])
    (hfin : ((σ.modThread cur fun th => { th with nowRcving := some c }).blockThread cur .receiving
      c).finish cur rest (.schedule [.rcvRet c]) = .ok τ) :
    Moves σ τ c (.call (.lwtRcv c)) := by
  have hwt := rcv_sleeps h hs hfin
  obtain ⟨hist, hch, -⟩ := finish_fields hfin
  rw [State.blockThread_receiving] at hist hch
  have hq' : τ.queues (.sender c) = σ.queues (.sender c) := by
    rw [State.finish_queues hfin, State.blockThread_receiving]
    simp [State.countBlocked, hq]
  have hcc : τ.chans c = σ.chans c := by simp [hch, State.countBlocked]
  have hhand := hand_eq h hwell hw hp hc hs (by simp) (by simp)
  have hrcvd : (τ.mailbox c).rcvd = (σ.mailbox c).rcvd := by
    simp [hist, State.countBlocked, Event.rcvd]
  by_cases hr : (σ.chans c).receiver = some cur
  · have hempty : σ.hand c = [] := by
      simp only [State.hand, hr]
      exact if_neg fun hd => by cases (hs.handed_iff h).mp hd
    have hτ : τ.mailbox c = { σ.mailbox c with waiting := True } :=
      Mailbox.ext (sent_eq hs (by simp)) hrcvd hhand (by simp [hcc]) (senders_eq h hs hq')
        (eq_true ⟨cur, by rw [hcc, hr], hwt⟩) (by simp [hcc])
    exact .step (hτ ▸ .wait hempty ((hp.valid hc).contents_eq_nil_iff.mpr hn) (by simp [hq]))
  · exact .same (Mailbox.ext (sent_eq hs (by simp)) hrcvd hhand (by simp [hcc])
      (senders_eq h hs hq') (rcv_waiting h hw hp hs hc fun h => absurd h hr) (by simp [hcc]))

omit hc in
/-- `lwt_rcv(c)`, by anyone. -/
theorem moves_rcv : Moves σ τ c (.call (.lwtRcv c)) := by
  obtain ⟨⟨σ', n⟩, hb, hfin⟩ := bind_ok hs.exec
  obtain ⟨hc, -, hrcv⟩ := State.lwtRcv_ok hb
  cases hrcv with
  | sync r ht => simp [hp.type hc] at ht
  | ring ht hn h0 hf hq => exact moves_rcv_ring h hwell hw hp hs hc hn hq hfin
  | refill s l' ht hn h0 hf hq hf' => exact moves_rcv_refill h hwell hw hp hs hc hn hq hf' hfin
  | sender s l' ht hn hq => exact moves_rcv_sender h hwell hw hp hs hc hn hq hfin
  | block ht hn hq => exact moves_rcv_block h hwell hw hp hs hc hn hq hfin

end Rcv

end Sections

/-- A section does one step to the mailbox at most, unless it hands a message to
a receiver that is not in `lwt_rcv`. -/
theorem moves (h : InPlace σ k) (hwell : WellFramed σ) (hw : OwnerWaits σ l) (hp : σ.Plain c)
    (hc : c < σ.nchans) (hs : Section σ l τ cur f rest)
    (hns : (∃ d, f = .call (.lwtSnd c d)) → ¬ σ.Stale c) : Moves σ τ c f := by
  by_cases hsnd : ∃ d, f = .call (.lwtSnd c d)
  · obtain ⟨d, rfl⟩ := hsnd
    exact moves_snd h hwell hw hp hs (hns ⟨d, rfl⟩)
  · by_cases hr : f = .call (.lwtRcv c)
    · subst hr
      exact moves_rcv h hwell hw hp hs
    · by_cases hret : f = .rcvRet c
      · subst hret
        exact moves_ret h hwell hw hp hc hs
      · refine .same (mailbox_eq h hwell hw hp hc hs (by simpa using hsnd) hr hret ?_)
        rintro rfl
        have hctx : (σ.threads cur).context = .syncRcvLoop c :: rest := hs.at_.eq (by simp)
        exact (hp.sync cur).1 (by simp [hctx])

/-- The hand is empty while the receiver sleeps. -/
theorem handFree (σ : State) (c : ChanId) : (σ.mailbox c).HandFree := by
  rintro ⟨r, hr, hwt⟩
  simp only [State.mailbox_hand, State.hand, hr]
  exact if_neg fun hd => hd.2 hwt.2

/-- A LOCAL channel stays LOCAL unless its type is set. -/
theorem Section.type_local (hs : Section σ l τ cur f rest) (hc : c < σ.nchans)
    (ht : (σ.chans c).type = .local) (hset : σ.frame l ≠ some (.call (.setChanType c .global))) :
    (τ.chans c).type = .local := by
  rcases ((State.exec_net hs.exec).chanEffect hc).type with heq | hf
  · exact heq.trans ht
  · cases hty : (τ.chans c).type with
    | «local» => rfl
    | global =>
      have hf : f = .call (.setChanType c (τ.chans c).type) := hf
      rw [hty] at hf
      exact absurd (hf ▸ hs.frame) hset

/-- No thread gets into `lwt_sync_rcv` on a LOCAL channel. -/
theorem Section.no_sync (hs : Section σ l τ cur f rest) (hwell : WellFramed σ)
    (hlocal : c < σ.nchans → (σ.chans c).type = .local)
    (hsync : ∀ t, .syncRcvLoop c ∉ (σ.threads t).context ∧
      .syncRcvBlock c ∉ (σ.threads t).context) (t : ThreadId) :
    .syncRcvLoop c ∉ (τ.threads t).context ∧ .syncRcvBlock c ∉ (τ.threads t).context := by
  have hfmem (hf : ∀ a, f ≠ .call a) : f ∈ (σ.threads cur).context := by
    have hctx : (σ.threads cur).context = f :: rest := hs.at_.eq hf
    simp [hctx]
  constructor
  · intro hfr
    rcases hwell.mem_context hs hfr with hfr | ⟨-, ⟨rfl, hg⟩ | rfl⟩
    · exact (hsync t).1 hfr
    · simp [hlocal (State.exec_net hs.exec).rcv_lt] at hg
    · exact (hsync cur).2 (hfmem (by simp))
  · intro hfr
    rcases hwell.mem_context hs hfr with hfr | ⟨-, rfl⟩
    · exact (hsync t).2 hfr
    · exact (hsync cur).1 (hfmem (by simp))

namespace State.Plain

/-- Using a channel within its bounds keeps its ring valid. -/
theorem valid_step (hp : σ.Plain c) (hc : c < σ.nchans) (hs : Section σ l τ cur f rest) :
    (τ.chans c).buffer.Valid (τ.chans c).size := by
  have heff : ChanEffect σ cur c f (τ.chans c) := (exec_net hs.exec).chanEffect hc
  have hvalid := hp.valid hc
  rw [heff.size]
  by_cases hsnd : ∃ d, f = .call (.lwtSnd c d)
  · obtain ⟨d, rfl⟩ := hsnd
    obtain ⟨⟨σ', n⟩, hb, hfin⟩ := bind_ok hs.exec
    rw [(finish_fields hfin).2.1]
    cases (lwtSnd_ok hb).2.2 with
    | sync r ht => simp [hp.type hc] at ht
    | noReceiver | handOff => exact hvalid
    | ring r σ₁ _ _ _ hwk hn _ hf =>
      simpa [hwk.chans] using (hvalid.push (x := d) hn hf.1).1
    | block r σ₁ _ _ _ hwk =>
      simpa [blockThread_sending, countBlocked, hwk.chans] using hvalid
  · by_cases hr : f = .call (.lwtRcv c)
    · subst hr
      obtain ⟨⟨σ', n⟩, hb, hfin⟩ := bind_ok hs.exec
      rw [(finish_fields hfin).2.1]
      cases (lwtRcv_ok hb).2.2 with
      | sync r ht => simp [hp.type hc] at ht
      | ring _ hn => simpa using (hvalid.pop hn).1
      | refill s l' _ hn _ _ _ hf' =>
        obtain ⟨hvalid', hpop⟩ := hvalid.pop hn
        have hroom : (σ.chans c).buffer.pop.count ≠ (σ.chans c).size := by
          have hle := hvalid.length_le
          rw [hpop, List.length_cons, Nat.cast_succ, hvalid'.length_contents] at hle
          omega
        simpa using (hvalid'.push (x := (σ.threads s).messageData) hroom hf'.1).1
      | sender => simpa using hvalid
      | block => simpa [blockThread_receiving, countBlocked] using hvalid
    · rw [heff.buffer (by simpa using hsnd) hr]
      · exact hvalid
      · rintro rfl
        have hctx : (σ.threads cur).context = .syncRcvLoop c :: rest := hs.at_.eq (by simp)
        exact (hp.sync cur).1 (by simp [hctx])

/-- A channel that has just been made is in order. -/
theorem of_created {ch : Chan} (hl : LocalUse c σ l) (hc : σ.nchans = c)
    (hs : Section σ l τ cur f rest) (hcr : Created σ f ch) :
    ch.type = .local ∧ ch.buffer.Valid ch.size ∧ ch.receiver = some cur := by
  have hcur : σ.lwtCurrent = some cur := hs.current
  cases hcr with
  | chan size mem raw hraw hf =>
    obtain ⟨h0, h1⟩ := hl.size size mem (hf ▸ hs.frame) hc
    exact ⟨rfl, RingBuffer.valid_empty rfl rfl h0 h1, hcur⟩
  | thread flags mem raw =>
    have hlt : (0 : ℤ) < 2147483648 := by decide
    exact ⟨rfl, RingBuffer.valid_empty rfl rfl le_rfl hlt, hcur⟩

/-- Only a channel that there is is waited for. -/
theorem made_step (hp : σ.Plain c) (hwell : WellFramed σ) (hs : Section σ l τ cur f rest)
    (hfr : .rcvRet c ∈ (τ.threads t).context) : c < σ.nchans := by
  rcases hwell.mem_context hs hfr with hfr | ⟨-, hld⟩
  · exact hp.made t hfr
  · exact hld.2.2

/-- Nothing is sent or received on a channel that is still to be made. -/
theorem silent_step (hp : σ.Plain c) (hs : Section σ l τ cur f rest) (hc : σ.nchans ≤ c) :
    (τ.mailbox c).sent = [] ∧ (τ.mailbox c).rcvd = [] := by
  have hnet := exec_net hs.exec
  have hnot {a : Frame} (ha : c < σ.nchans) : f ≠ a := absurd ha (not_lt.mpr hc)
  have hfmem (hf : ∀ a, f ≠ .call a) : f ∈ (σ.threads cur).context := by
    have hctx : (σ.threads cur).context = f :: rest := hs.at_.eq hf
    simp [hctx]
  rw [sent_eq hs, rcvd_eq hs]
  · exact hp.silent hc
  · rintro rfl
    exact hnot hnet.rcv_lt rfl
  · rintro rfl
    exact hnot (hp.made cur (hfmem (by simp))) rfl
  · rintro rfl
    exact (hp.sync cur).1 (hfmem (by simp))
  · rintro d rfl
    exact hnot hnet.snd_lt rfl

/-- Whoever has a message from `c` in hand behind a section is its receiver. -/
theorem handed_step (hp : σ.Plain c) (h : InPlace σ k) (hwell : WellFramed σ)
    (hw : OwnerWaits σ l) (hs : Section σ l τ cur f rest) (ht : t < τ.nthreads)
    (hd : (τ.threads t).task.Handed c) : (τ.chans c).receiver = some t := by
  have hne : t ≠ cur := by
    rintro rfl
    exact hs.not_handed h hwell hw hd
  have hhead := hd.1
  rw [Task.rcving_eq_some_iff] at hhead
  have hc : c < σ.nchans := hp.made_step hwell hs (List.mem_of_mem_head? hhead)
  have hrcv : (σ.chans c).receiver = some t → (τ.chans c).receiver = some t := by
    intro hr
    rcases receiver_cases hs hc with hr' | ⟨hr', -, -⟩
    · rw [hr', hr]
    · exact absurd (Option.some.inj (hr.symm.trans hr')) hne
  rcases lt_or_ge t σ.nthreads with hlt | hge
  · by_cases hh : ∃ d, f = .call (.lwtSnd c d) ∧ (σ.chans c).receiver = some t
    · obtain ⟨d, -, hr⟩ := hh
      exact hrcv hr
    · refine hrcv (hp.handed t hlt ((hs.other_rcving h hw hne hlt fun d hf hx => ?_).1.mp hd))
      exact hh ⟨d, hf, hx.1⟩
  · have hctx : (τ.threads t).task.context = [] := (h.effect hs).context_new hge ht hne
    rw [hctx] at hhead
    simp at hhead

theorem step (hp : σ.Plain c) (h : InPlace σ k) (hwell : WellFramed σ) (hl : LocalUse c σ l)
    (hs : Section σ l τ cur f rest) : τ.Plain c := by
  have hnet := exec_net hs.exec
  have hle : σ.nchans ≤ τ.nchans := hnet.nchans_le
  have hnle : σ.nthreads ≤ τ.nthreads := (h.effect hs).ntasks_le
  have hnew (hc : σ.nchans ≤ c) (hc' : c < τ.nchans) := by
    obtain ⟨he, hcr⟩ := hnet.created hc hc'
    exact of_created hl he.symm hs hcr
  refine ⟨fun hc => ?_, fun hc => ?_, fun r hc hr => ?_,
    fun hc => hp.silent_step hs (hle.trans hc), hs.no_sync hwell hp.type hp.sync,
    fun t hfr => (hp.made_step hwell hs hfr).trans_le hle,
    fun t ht hd => hp.handed_step h hwell hl.ordinary.2 hs ht hd⟩
  · rcases lt_or_ge c σ.nchans with hc' | hc'
    · exact hs.type_local hc' (hp.type hc') hl.type
    · exact (hnew hc' hc).1
  · rcases lt_or_ge c σ.nchans with hc' | hc'
    · exact hp.valid_step hc' hs
    · exact (hnew hc' hc).2.1
  · refine lt_of_lt_of_le ?_ hnle
    rcases lt_or_ge c σ.nchans with hc' | hc'
    · rcases receiver_cases hs hc' with hr' | ⟨-, hr', -⟩
      · exact hp.receiver r hc' (hr' ▸ hr)
      · simp [hr'] at hr
    · obtain rfl : cur = r := Option.some.inj ((hnew hc' hc).2.2.symm.trans hr)
      exact (h.running_cur hs.current).lt

end State.Plain

/-- A channel that has just been made holds nothing. -/
theorem mailbox_created (hp : σ.Plain c) (h : InPlace σ k) (hwell : WellFramed σ)
    (hl : LocalUse c σ l) (hs : Section σ l τ cur f rest) (hc : σ.nchans ≤ c) (hc' : c < τ.nchans) :
    (τ.mailbox c).InOrder := by
  have hw := hl.ordinary.2
  obtain ⟨he, hcr⟩ := (State.exec_net hs.exec).created hc hc'
  have hrcv : (τ.chans c).receiver = some cur := (State.Plain.of_created hl he.symm hs hcr).2.2
  obtain ⟨ht, hh, hf⟩ := hcr.empty
  have hsnd : ∀ d, f ≠ .call (.lwtSnd c d) := by rcases hf with ⟨_, _, rfl⟩ | ⟨_, _, rfl⟩ <;> simp
  have hr : f ≠ .call (.lwtRcv c) := by rcases hf with ⟨_, _, rfl⟩ | ⟨_, _, rfl⟩ <;> simp
  have hret : f ≠ .rcvRet c := by rcases hf with ⟨_, _, rfl⟩ | ⟨_, _, rfl⟩ <;> simp
  have hloop : f ≠ .syncRcvLoop c := by rcases hf with ⟨_, _, rfl⟩ | ⟨_, _, rfl⟩ <;> simp
  obtain ⟨hsent, hrcvd⟩ := hp.silent hc
  have hq : τ.queues (.sender c) = [] :=
    ((h.effect hs).sender_eq h.placed (h.running_cur hs.current) hsnd hr).trans (hwell.fresh c hc)
  have hhand : τ.hand c = [] := by
    simp only [State.hand, hrcv]
    exact if_neg (hs.not_handed h hwell hw)
  have hsenders : (τ.mailbox c).senders = [] := by simp [hq]
  have hring : (τ.mailbox c).ring = [] := RingBuffer.contents_empty ht hh
  refine ⟨?_, ?_, fun h => absurd hsenders h⟩
  · rw [Mailbox.pending, sent_eq hs hsnd, rcvd_eq hs hr hret hloop, hsent, hrcvd, hsenders, hring,
      State.mailbox_hand, hhand]
    rfl
  · rintro ⟨r, hr', hwt⟩
    obtain rfl : cur = r := Option.some.inj (hrcv.symm.trans hr')
    exact absurd (hs.waits h hwell hw hwt) hr

end Steps

end Lwt
