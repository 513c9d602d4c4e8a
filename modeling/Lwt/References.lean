import Lwt.Groups
import Lwt.Lib.Holding

/-! The reference counts of channels, with any number of kernel threads. `snd_cnt` and `receiver`
account for every reference handed out and not given up, and if threads give up only what they hold,
`lwt_chan_deref` frees a channel exactly with the last reference held. A reference on its way
through another channel is held by nobody. -/

namespace Lwt

open State Holding

variable {σ τ σ₀ : State} {l : Label} {cur t : ThreadId} {f : Frame} {rest : List Frame}
  {c : ChanId} {k : KthdId} {tr : List (State × Label)}

/-- What an event does to the references to channel `c`. -/
def Event.move (c : ChanId) : Event → Option (Move ThreadId)
  | .chan (some t) c' => if c' = c then some (.take t) else none
  | .acquire t c' => if c' = c then some (.take t) else none
  | .deref t c' => if c' = c then some (.give t) else none
  | _ => none

/-- The references to `c` that threads got and gave up. -/
def State.refs (σ : State) (c : ChanId) : List (Move ThreadId) :=
  σ.history.filterMap (Event.move c)

/-- What `snd_cnt` and `receiver` account for. -/
def Chan.counted (ch : Chan) : ℤ := (if ch.receiver = none then 0 else 1) + ch.sndCnt

inductive RefStep (σ τ : State) (l : Label) (c : ChanId) : Prop
  | keep (refs : τ.refs c = σ.refs c) (le : σ.nchans ≤ τ.nchans)
      (below : c < τ.nchans → c < σ.nchans)
      (chan : c < σ.nchans → (τ.chans c).receiver = (σ.chans c).receiver ∧
        (τ.chans c).sndCnt = (σ.chans c).sndCnt ∧ (τ.chans c).freed = (σ.chans c).freed)
  | acquire (t : ThreadId) (made : c < σ.nchans) (le : σ.nchans ≤ τ.nchans)
      (live : (σ.chans c).freed = false)
      (refs : τ.refs c = σ.refs c ++ [.take t])
      (chan : τ.chans c = { σ.chans c with sndCnt := (σ.chans c).sndCnt + 1 })
  | give (cur : ThreadId) (current : σ.lwtCurrent = some cur)
      (frame : σ.frame l = some (.call (.lwtChanDeref c))) (made : c < σ.nchans)
      (le : σ.nchans ≤ τ.nchans) (live : (σ.chans c).freed = false)
      (refs : τ.refs c = σ.refs c ++ [.give cur])
      (chan : τ.chans c = derefChan cur (σ.chans c))
  | create (ts : List ThreadId) (new : c = σ.nchans) (made : c < τ.nchans)
      (live : (τ.chans c).freed = false)
      (counts : (τ.chans c).sndCnt = ts.length ∧ (τ.chans c).receiver.toList ++ ts ≠ [])
      (refs : τ.refs c = σ.refs c ++ ((τ.chans c).receiver.toList ++ ts).map .take)

namespace State

theorem refs_append {h es : List Event} (hes : ∀ e ∈ es, e.move c = none) :
    (h ++ es).filterMap (Event.move c) = h.filterMap (Event.move c) := by
  rw [List.filterMap_append, List.filterMap_eq_nil_iff.mpr hes, List.append_nil]

theorem move_made (r : Option ThreadId) (t : ThreadId) (c : ChanId) :
    [Event.chan r c, .acquire t c].filterMap (Event.move c) = (r.toList ++ [t]).map .take := by
  cases r with
  | none =>
    rw [List.filterMap_cons_none rfl]
    simp [Event.move]
  | some r => simp [Event.move]

theorem WakeGroup.refs {c' : ChanId} {cgroup : Option CgrpId}
    (h : WakeGroup (σ.modChan c' fun ch => { ch with ready := 1 }) cur cgroup τ) :
    τ.refs c = σ.refs c := by
  cases h with
  | skip => rfl
  | wake g => exact refs_append (by simp [Event.move])

theorem LwtSnd.refs {c' : ChanId} {d : Data} {n : Next} (h : LwtSnd σ cur c' d τ n) :
    τ.refs c = σ.refs c := by
  cases h with
  | sync | noReceiver => exact refs_append (by simp [Event.move])
  | handOff r =>
    simp [State.refs, resumeThread, Event.move]
  | ring r σ₁ _ _ _ hw =>
    rw [← hw.refs]
    simp [State.refs, Event.move]
  | block r σ₁ _ _ _ hw =>
    rw [← hw.refs]
    simp [State.refs, blockThread_sending, countBlocked, Event.move]

theorem LwtRcv.refs {c' : ChanId} {n : Next} (h : LwtRcv σ cur c' τ n) : τ.refs c = σ.refs c := by
  cases h with
  | sync => rfl
  | ring => exact refs_append (by simp [Event.move])
  | refill s | sender s => simp [State.refs, resumeThread, Event.move]
  | block => simp [State.refs, blockThread_receiving, countBlocked, Event.move]

theorem SyncRcvLoop.refs {c' : ChanId} {n : Next} (h : SyncRcvLoop σ cur c' τ n) :
    τ.refs c = σ.refs c := by
  cases h with
  | read => exact refs_append (by simp [Event.move])
  | empty => rfl

theorem ChanEffect.counts {ch : Chan} (h : ChanEffect σ cur c f ch)
    (hd : f ≠ .call (.lwtChanDeref c)) (hc : f ≠ .createChanRet c)
    (hr : f = .rcvChanRcv → (σ.threads cur).eax ≠ .chan c) :
    ch.receiver = (σ.chans c).receiver ∧ ch.sndCnt = (σ.chans c).sndCnt ∧
      ch.freed = (σ.chans c).freed := by
  cases h with
  | deref hf => exact absurd hf hd
  | acquire hf =>
    rcases hf with ⟨t, hf, -⟩ | ⟨hf, he⟩
    · exact absurd hf hc
    · exact absurd he (hr hf)
  | _ => exact ⟨rfl, rfl, rfl⟩

end State

/-- A channel nobody writes keeps its references. -/
theorem RefStep.same (hrefs : τ.refs c = σ.refs c) (hle : σ.nchans ≤ τ.nchans)
    (hbelow : c < τ.nchans → c < σ.nchans) (hch : τ.chans c = σ.chans c) : RefStep σ τ l c := by
  refine .keep hrefs hle hbelow fun _ => ?_
  rw [hch]
  exact ⟨rfl, rfl, rfl⟩

/-- What is written to one channel leaves the references to the others. -/
theorem RefStep.other {c' : ChanId} {g : Chan → Chan} {e : Event}
    (hν : τ.net = (σ.net.modChan c' g).log [e]) (hc : c ≠ c') (he : e.move c = none) :
    RefStep σ τ l c := by
  have hn : τ.nchans = σ.nchans := congrArg Net.nchans hν
  have hrefs : τ.refs c = (σ.history ++ [e]).filterMap (Event.move c) :=
    congrArg (fun ν => ν.history.filterMap (Event.move c)) hν
  refine .same (hrefs.trans (refs_append (by simpa using he))) hn.ge (fun h => hn ▸ h) ?_
  exact (congrFun (congrArg Net.chans hν) c).trans (Function.update_of_ne hc ..)

/-- A new channel `ch` has the references that its receiver and its sender count stand for. -/
theorem RefStep.new {ch : Chan} {es : List Event} (ts : List ThreadId)
    (hchans : τ.chans = Function.update σ.chans σ.nchans ch) (hn : τ.nchans = σ.nchans + 1)
    (hhist : τ.history = σ.history ++ es) (hfreed : ch.freed = false)
    (hcnt : ch.sndCnt = ts.length) (hsome : ch.receiver.toList ++ ts ≠ [])
    (hes : es.filterMap (Event.move σ.nchans) = (ch.receiver.toList ++ ts).map .take)
    (hothers : c ≠ σ.nchans → ∀ e ∈ es, e.move c = none) : RefStep σ τ l c := by
  have hrefs : τ.refs c = (σ.history ++ es).filterMap (Event.move c) :=
    congrArg (List.filterMap (Event.move c)) hhist
  by_cases hc : c = σ.nchans
  · subst hc
    have hch : τ.chans σ.nchans = ch := by rw [hchans, Function.update_self]
    have hlt : σ.nchans < τ.nchans := by omega
    refine .create ts rfl hlt ?_ ?_ ?_
    · rw [hch, hfreed]
    · rw [hch]
      exact ⟨hcnt, hsome⟩
    · rw [hrefs, hch, List.filterMap_append, hes]
      rfl
  · refine .same (hrefs.trans (refs_append (hothers hc))) (by omega) (fun h => ?_) ?_
    · exact lt_of_le_of_ne (Nat.le_of_lt_succ (lt_of_lt_of_eq h hn)) hc
    · rw [hchans, Function.update_of_ne hc]

/-- A section that does not move references to `c` keeps what accounts for them. -/
theorem Section.refStep_keep (hs : Section σ l τ cur f rest) (hrefs : τ.refs c = σ.refs c)
    (hn : τ.nchans = σ.nchans) (hd : f ≠ .call (.lwtChanDeref c)) (hc : f ≠ .createChanRet c)
    (hr : f = .rcvChanRcv → (σ.threads cur).eax ≠ .chan c) : RefStep σ τ l c := by
  refine .keep hrefs hn.ge (fun h => hn ▸ h) fun h => ?_
  exact ((exec_net hs.exec).chanEffect h).counts hd hc hr

theorem Section.refStep (hs : Section σ l τ cur f rest) (c : ChanId) : RefStep σ τ l c := by
  have hnet := exec_net hs.exec
  have hle : σ.nchans ≤ τ.nchans := hnet.nchans_le
  generalize hν : τ.net = ν at hnet
  have hrefs : τ.refs c = ν.history.filterMap (Event.move c) := by rw [← hν]; rfl
  have hn : τ.nchans = ν.nchans := by rw [← hν]; rfl
  have hchans : τ.chans = ν.chans := by rw [← hν]; rfl
  have hchs : τ.chans c = ν.chans c := by rw [← hν]; rfl
  have hhist : τ.history = ν.history := by rw [← hν]; rfl
  cases hnet with
  | same => exact .same hrefs hle (fun h => lt_of_lt_of_eq h hn) hchs
  | snd _ _ h | rcv _ _ h | syncRcv _ _ h =>
    exact hs.refStep_keep (hrefs.trans h.refs) (hn.trans h.nchans) (by simp) (by simp) (by simp)
  | sndRet | rcvRet | wakeup | joined | die =>
    exact hs.refStep_keep (hrefs.trans (refs_append (by simp [Event.move]))) hn
      (by simp) (by simp) (by simp)
  | sleep hf =>
    refine hs.refStep_keep (hrefs.trans (refs_append (by simp [Event.move]))) hn ?_ ?_ ?_ <;>
      rcases hf with ⟨c', rfl⟩ | ⟨g, rfl⟩ <;> simp
  | setType | mark | cgrpAdd | cgrpRem | cgrp =>
    exact hs.refStep_keep hrefs hn (by simp) (by simp) (by simp)
  | thread flags mem raw t =>
    refine .new [t] hchans hn hhist rfl rfl (by simp) ?_ fun hc => ?_
    · exact move_made σ.lwtCurrent t σ.nchans
    · simp [Event.move, hs.current, hc.symm]
  | chan size mem raw =>
    have hrcv : (σ.initChan raw mem.buffer size).receiver = some cur := hs.current
    refine .new [] hchans hn hhist rfl rfl (by simp [hrcv]) ?_ fun hc => ?_
    · simp [Event.move, hrcv, hs.current]
    · simp [Event.move, hs.current, hc.symm]
  | deref c' hc hfree =>
    by_cases hcc : c = c'
    · subst hcc
      refine .give cur hs.current hs.frame hc hle hfree ?_ (hchs.trans (Function.update_self ..))
      rw [hrefs]
      simp [Event.move, State.refs]
    · exact .other hν hcc (by simp [Event.move, Ne.symm hcc])
  | createChan c' t ht hc hfree =>
    by_cases hcc : c = c'
    · subst hcc
      refine .acquire t hc hle hfree ?_ (hchs.trans (Function.update_self ..))
      rw [hrefs]
      simp [Event.move, State.refs]
    · exact .other hν hcc (by simp [Event.move, Ne.symm hcc])
  | rcvChan c' ht hc hfree =>
    by_cases hcc : c = c'
    · subst hcc
      refine .acquire cur hc hle hfree ?_ (hchs.trans (Function.update_self ..))
      rw [hrefs]
      simp [Event.move, State.refs]
    · exact .other hν hcc (by simp [Event.move, Ne.symm hcc])

theorem Step.refStep (hs : Step σ l τ) (c : ChanId) : RefStep σ τ l c := by
  obtain ⟨cur, f, rest, hsec⟩ | ⟨k, rfl, rfl⟩ | ⟨k, mem, rfl, -, hi⟩ := step_cases hs
  · exact hsec.refStep c
  · exact .keep rfl le_rfl id fun _ => ⟨rfl, rfl, rfl⟩
  · obtain ⟨th, ch, -, -, -, -, -, -, -, -, hcnt, hfree, -, rfl⟩ := initiate_ok hi
    refine .new [σ.nthreads] rfl rfl rfl hfree hcnt (by simp) (move_made ..) fun hc => ?_
    cases ch.receiver with
    | none | some r => simp [Event.move, hc.symm]

/-- The step gives up no reference to `c` that its thread does not hold. -/
def GivesOwn (c : ChanId) (σ : State) (l : Label) : Prop :=
  ∀ cur, σ.frame l = some (.call (.lwtChanDeref c)) → σ.lwtCurrent = some cur →
    0 < held cur (σ.refs c)

/-- The counts of channel `c`, whoever gives up references. -/
structure Totalled (σ : State) (c : ChanId) : Prop where
  fresh : σ.nchans ≤ c → σ.refs c = []
  total : c < σ.nchans → (σ.chans c).counted = balance (fun _ => true) (σ.refs c)

/-- The counts of channel `c` if threads give up only what they hold. -/
structure Reckoned (σ : State) (c : ChanId) : Prop where
  totalled : Totalled σ c
  fair : Fair (σ.refs c)
  receiver : c < σ.nchans → ∀ r, (σ.chans c).receiver = some r → 0 < held r (σ.refs c)
  freed : c < σ.nchans →
    ((σ.chans c).freed = true ↔ balance (fun _ => true) (σ.refs c) = 0)

theorem Chan.counted_derefChan (cur : ThreadId) (ch : Chan) :
    (derefChan cur ch).counted = ch.counted - 1 := by
  rw [Chan.counted, Chan.counted, derefChan_receiver, derefChan_sndCnt]
  by_cases hr : ch.receiver = some cur
  · simp [hr]
  · rw [if_neg hr, if_neg hr]
    omega

theorem Totalled.step (h : Totalled σ c) (hs : RefStep σ τ l c) : Totalled τ c := by
  cases hs with
  | keep hrefs hle hbelow hchan =>
    refine ⟨fun hc => hrefs.trans (h.fresh (hle.trans hc)), fun hc => ?_⟩
    obtain ⟨hr, hn, -⟩ := hchan (hbelow hc)
    rw [hrefs, ← h.total (hbelow hc), Chan.counted, Chan.counted, hr, hn]
  | acquire t hmade hle hlive hrefs hchan =>
    refine ⟨fun hc => absurd (hle.trans hc) (not_le.mpr hmade), fun _ => ?_⟩
    have ht := h.total hmade
    simp only [Chan.counted] at ht
    rw [hrefs, balance_snoc, ← ht, hchan, Chan.counted]
    simp only [Move.worth, if_true]
    omega
  | give cur hcur hframe hmade hle hlive hrefs hchan =>
    refine ⟨fun hc => absurd (hle.trans hc) (not_le.mpr hmade), fun _ => ?_⟩
    rw [hrefs, balance_snoc, hchan, Chan.counted_derefChan, h.total hmade]
    rfl
  | create ts hnew hmade hlive hcounts hrefs =>
    refine ⟨fun hc => absurd hc (not_le.mpr hmade), fun _ => ?_⟩
    rw [hrefs, h.fresh hnew.ge, List.nil_append, balance_map_take, Chan.counted, hcounts.1]
    cases (τ.chans c).receiver with
    | none => simp
    | some r =>
      simp
      omega

/-- Giving up one of two references held leaves the channel, giving up the only one frees it. -/
theorem Reckoned.give_freed (h : Reckoned σ c) (hmade : c < σ.nchans)
    (hlive : (σ.chans c).freed = false) (hheld : 0 < held cur (σ.refs c)) :
    (derefChan cur (σ.chans c)).freed = true ↔
      balance (fun _ => true) (σ.refs c ++ [.give cur]) = 0 := by
  have htotal := h.totalled.total hmade
  simp only [Chan.counted] at htotal
  rw [derefChan_freed_iff cur hlive, balance_snoc, ← htotal]
  simp only [Move.worth, if_true]
  cases hr : (σ.chans c).receiver with
  | none =>
    simp
    omega
  | some r =>
    by_cases hcr : r = cur
    · simp [hcr]
    -- the receiver still holds its reference
    have htwo := h.fair.held_add_le (p := fun _ => true) hcr rfl rfl
    have hpos := h.receiver hmade r hr
    rw [hr, if_neg (by simp)] at htotal
    simp only [Option.some.injEq, hcr, false_and, reduceCtorEq, or_self, if_false, false_iff]
    omega

/-- Who is still the receiver behind `lwt_chan_deref` still holds its reference. -/
theorem Reckoned.give_receiver (h : Reckoned σ c) (hmade : c < σ.nchans) {r : ThreadId}
    (hr : (derefChan cur (σ.chans c)).receiver = some r) :
    0 < held r (σ.refs c ++ [.give cur]) := by
  rw [derefChan_receiver] at hr
  split_ifs at hr with hcur
  have hne : cur ≠ r := fun he => hcur (he ▸ hr)
  have hpos := h.receiver hmade r hr
  simp only [held] at hpos
  rw [held, balance_snoc]
  simpa [Move.worth, hne] using hpos

theorem Reckoned.step (h : Reckoned σ c) (hs : RefStep σ τ l c) (ho : GivesOwn c σ l) :
    Reckoned τ c := by
  have htot := h.totalled.step hs
  cases hs with
  | keep hrefs hle hbelow hchan =>
    refine ⟨htot, hrefs ▸ h.fair, fun hc r hr => ?_, fun hc => ?_⟩
    · obtain ⟨hr', -, -⟩ := hchan (hbelow hc)
      rw [hrefs]
      exact h.receiver (hbelow hc) r (hr' ▸ hr)
    · obtain ⟨-, -, hf⟩ := hchan (hbelow hc)
      rw [hrefs, hf]
      exact h.freed (hbelow hc)
  | acquire t hmade hle hlive hrefs hchan =>
    refine ⟨htot, hrefs ▸ .take _ t h.fair, fun _ r hr => ?_, fun _ => ?_⟩
    · rw [hchan] at hr
      have hpos := h.receiver hmade r hr
      rw [hrefs, held, balance_snoc]
      simp only [held] at hpos
      simp only [Move.worth]
      split_ifs <;> omega
    · have hpos := h.fair.nonneg fun _ => true
      rw [hrefs, balance_snoc, hchan, hlive]
      simp only [Move.worth, if_true, Bool.false_eq_true, false_iff]
      omega
  | give cur hcur hframe hmade hle hlive hrefs hchan =>
    have hheld := ho cur hframe hcur
    refine ⟨htot, hrefs ▸ .give _ cur h.fair hheld, fun _ r hr => ?_, fun _ => ?_⟩
    · rw [hchan] at hr
      rw [hrefs]
      exact h.give_receiver hmade hr
    · rw [hchan, hrefs]
      exact h.give_freed hmade hlive hheld
  | create ts hnew hmade hlive hcounts hrefs =>
    rw [h.totalled.fresh hnew.ge, List.nil_append] at hrefs
    refine ⟨htot, ?_, fun _ r hr => ?_, fun _ => ?_⟩
    · rw [hrefs, ← List.nil_append (List.map _ _)]
      exact Fair.nil.append_takes _
    · rw [hrefs]
      exact held_map_take_pos (by simp [hr])
    · rw [hrefs, hlive, balance_map_take]
      have hpos := List.length_pos_iff.mpr hcounts.2
      simp only [Bool.false_eq_true, false_iff]
      omega

theorem boot_reckoned (hb : σ.Boot k) : Reckoned σ c := by
  have h := boot_ok hb
  have hrefs : σ.refs c =
      if c = 0 then ((σ.chans 0).receiver.toList ++ [0]).map .take else [] := by
    rw [State.refs, h.history]
    split_ifs with hc
    · subst hc
      exact move_made _ _ _
    · cases (σ.chans 0).receiver with
      | none | some r => simp [Event.move, Ne.symm hc]
  obtain ⟨-, -, -, -, hcnt, hfree⟩ := h.chan
  have hzero : c < σ.nchans → c = 0 := fun hc => by
    rw [h.nchans] at hc
    exact Nat.lt_one_iff.mp hc
  refine ⟨⟨fun hc => ?_, fun hc => ?_⟩, ?_, fun hc r hr => ?_, fun hc => ?_⟩
  · rw [h.nchans] at hc
    rw [hrefs, if_neg (Nat.pos_iff_ne_zero.mp hc)]
  · obtain rfl := hzero hc
    rw [hrefs, if_pos rfl, balance_map_take, Chan.counted, hcnt]
    cases (σ.chans 0).receiver with
    | none | some r => simp
  · rw [hrefs]
    split_ifs
    · exact Fair.nil.append_takes _
    · exact .nil
  · obtain rfl := hzero hc
    rw [hrefs, if_pos rfl]
    exact held_map_take_pos (by simp [hr])
  · obtain rfl := hzero hc
    rw [hrefs, if_pos rfl, balance_map_take, hfree]
    simp
    omega

/-- Such a run keeps the counts. -/
theorem Run.reckoned (h : Run σ₀ tr σ) (hb : σ₀.Boot k) (ho : ∀ p ∈ tr, GivesOwn c p.1 p.2) :
    Reckoned σ c :=
  Transition.Run.invariant_of (I := fun s => Reckoned s c) (C := GivesOwn c) h ho (boot_reckoned hb)
    fun _ _ _ hI hD hs => hI.step (Step.refStep hs c) hD

namespace Reckoned

variable (h : Reckoned σ c) (hc : c < σ.nchans)
include h hc

theorem sndCnt_nonneg : 0 ≤ (σ.chans c).sndCnt := by
  have htotal := h.totalled.total hc
  simp only [Chan.counted] at htotal
  cases hr : (σ.chans c).receiver with
  | none =>
    have hnonneg := h.fair.nonneg fun _ => true
    rw [hr, if_pos rfl] at htotal
    omega
  | some r =>
    have hpos := h.receiver hc r hr
    have hle := h.fair.held_le (p := fun _ => true) (a := r) rfl
    rw [hr, if_neg (by simp)] at htotal
    omega

theorem freed_iff : (σ.chans c).freed = true ↔ ∀ t, held t (σ.refs c) = 0 :=
  (h.freed hc).trans h.fair.balance_eq_zero_iff

end Reckoned

/-- In every run of any kernel threads whose threads give up only the references to `c` that they
hold, `snd_cnt` and `receiver` account for exactly the references held, nobody holds less than
none, `snd_cnt` is never negative, and `c` has been freed exactly if nobody holds one. -/
theorem references_exact (h : Run σ₀ tr σ) (hb : σ₀.Boot k)
    (ho : ∀ p ∈ tr, GivesOwn c p.1 p.2) (hc : c < σ.nchans) :
    (σ.chans c).counted = balance (fun _ => true) (σ.refs c) ∧
      (∀ t, 0 ≤ held t (σ.refs c)) ∧ 0 ≤ (σ.chans c).sndCnt ∧
      ((σ.chans c).freed = true ↔ ∀ t, held t (σ.refs c) = 0) := by
  have hk := h.reckoned hb ho
  exact ⟨hk.totalled.total hc, hk.fair.held_nonneg, hk.sndCnt_nonneg hc, hk.freed_iff hc⟩

instance (c : ChanId) (σ : State) (l : Label) : Decidable (GivesOwn c σ l) :=
  decidable_of_iff ((σ.frame l).bind Frame.derefs = some c →
    ∀ cur ∈ σ.lwtCurrent, 0 < held cur (σ.refs c)) <| by
      rw [frame_eq_iff Frame.derefs_eq_some]
      exact ⟨fun h cur hf hcur => h hf cur hcur, fun h hf cur hcur => h cur hf hcur⟩

def givenRun : List Label :=
  [.call (.lwtChan 3 chanMem), .call (.lwtCreateChan 1 createMem), .resume, .resume,
    .call (.lwtChanDeref 1), .call (.lwtYield none), .call (.lwtChanDeref 1)]

theorem givenRun_exact : ((booted.after givenRun).chans 1).freed = true ∧
    ((booted.after (givenRun.take 6)).chans 1).freed = false ∧
    ∀ t, held t ((booted.after givenRun).refs 1) = 0 := by
  have hfreed : ((booted.after givenRun).chans 1).freed = true := by decide +kernel
  obtain ⟨-, -, -, hiff⟩ := references_exact (c := 1) (State.run_trace booted givenRun)
    boot_booted (by decide +kernel) (by decide +kernel)
  exact ⟨hfreed, by decide +kernel, hiff.mp hfreed⟩

/-- The reference that a value sent carries. -/
def Event.sentRef : Event → Option ChanId
  | .snd _ _ (.chan c) => some c
  | _ => none

def State.sentRefs (σ : State) (c : ChanId) : ℕ := (σ.history.filterMap Event.sentRef).count c

/-- The channel that `lwt_rcv_chan` is about to count a reference to. -/
def State.takesRef (σ : State) (l : Label) : Option ChanId :=
  match σ.frame l, σ.lwtCurrent.map fun cur => (σ.threads cur).eax with
  | some .rcvChanRcv, some (.chan c) => some c
  | _, _ => none

/-- More references to `c` have been sent than `lwt_rcv_chan` has counted. -/
def UnderWay (c : ChanId) (tr : List (State × Label)) (σ : State) : Prop :=
  (tr.filterMap fun p => p.1.takesRef p.2).count c < σ.sentRefs c

instance : Decidable (UnderWay c tr σ) := inferInstanceAs (Decidable (_ < _))

/-- The step gives up the only reference to `c` that is accounted for. -/
def GivesLast (c : ChanId) (σ : State) (l : Label) : Prop :=
  σ.frame l = some (.call (.lwtChanDeref c)) ∧ (σ.chans c).counted = 1

/-- The step sends and gives up references to `c` only for a thread that holds one. -/
structure UsesOwn (c : ChanId) (σ : State) (l : Label) : Prop where
  gives : GivesOwn c σ l
  sends : ∀ cur c', σ.frame l = some (.call (.lwtSnd c' (.chan c))) →
    σ.lwtCurrent = some cur → 0 < held cur (σ.refs c)

/-- Only a call of `lwt_snd` with a reference sends one. -/
theorem Step.sentRefs (hs : Step σ l τ) (c : ChanId) : τ.sentRefs c = σ.sentRefs c ∨
    ∃ cur c', σ.lwtCurrent = some cur ∧ σ.frame l = some (.call (.lwtSnd c' (.chan c))) := by
  have key : ∀ es, τ.history = σ.history ++ es → (∀ e ∈ es, e.sentRef ≠ some c) →
      τ.sentRefs c = σ.sentRefs c := by
    intro es hh hes
    rw [State.sentRefs, State.sentRefs, hh, List.filterMap_append, List.count_append,
      Nat.add_eq_left, List.count_eq_zero]
    intro hc
    obtain ⟨e, he, hec⟩ := List.mem_filterMap.mp hc
    exact hes e he hec
  obtain ⟨cur, f, rest, hsec⟩ | ⟨k, rfl, rfl⟩ | ⟨k, mem, rfl, -, hi⟩ := step_cases hs
  · obtain ⟨es, hh, hes⟩ := (exec_net hsec.exec).history
    by_cases hf : ∃ c', f = .call (.lwtSnd c' (.chan c))
    · obtain ⟨c', rfl⟩ := hf
      exact .inr ⟨cur, c', hsec.current, hsec.frame⟩
    · refine .inl (key es hh fun e he hec => hf ?_)
      have hlog := hes e he
      cases e with
      | snd t c' d =>
        obtain ⟨-, rfl⟩ := hlog
        cases d with
        | chan c₁ => exact ⟨c', by simpa [Event.sentRef] using hec⟩
        | _ => simp [Event.sentRef] at hec
      | _ => simp [Event.sentRef] at hec
  · exact .inl rfl
  · obtain ⟨th, ch, -, -, -, -, -, -, -, -, -, -, -, rfl⟩ := initiate_ok hi
    exact .inl (key _ rfl (by simp [Event.sentRef]))

/-- A call of `lwt_chan_deref` that returns gives up a reference to a live channel. -/
theorem Step.gives (hs : Step σ l τ) (hf : σ.frame l = some (.call (.lwtChanDeref c))) :
    c < σ.nchans ∧ (σ.chans c).freed = false ∧
      ∃ cur, τ.refs c = σ.refs c ++ [.give cur] ∧ τ.nchans = σ.nchans := by
  obtain ⟨cur, f, rest, hsec⟩ | ⟨k, rfl, rfl⟩ | ⟨k, mem, rfl, -, hi⟩ := step_cases hs
  · obtain rfl : .call (.lwtChanDeref c) = f := Option.some.inj (hf.symm.trans hsec.frame)
    have hnet := exec_net hsec.exec
    generalize hν : τ.net = ν at hnet
    cases hnet with
    | same hn => cases hn
    | sleep hn => simp at hn
    | deref _ hc hfree =>
      refine ⟨hc, hfree, cur, ?_, congrArg Net.nchans hν⟩
      refine (congrArg (fun ν => ν.history.filterMap (Event.move c)) hν).trans ?_
      simp [Event.move, State.refs]
  · cases hf
  · cases hf

/-- No reference to `c` is under way once `c` has been freed. -/
def FreedLast (c : ChanId) (tr : List (State × Label)) (σ : State) : Prop :=
  c < σ.nchans → (σ.chans c).freed = true → ¬ UnderWay c tr σ

section Last

variable (hk : Reckoned σ c) (hs : Step σ l τ) (ho : UsesOwn c σ l)
include hk hs ho

theorem FreedLast.of_freed (hP : FreedLast c tr σ) (hc : c < σ.nchans)
    (hfreed : (σ.chans c).freed = true) : FreedLast c (tr ++ [(σ, l)]) τ := by
  intro _ _ hway
  have hnone := (hk.freed_iff hc).mp hfreed
  refine hP hc hfreed ?_
  obtain hsent | ⟨cur, c', hcur, hf⟩ := hs.sentRefs c
  · unfold UnderWay at hway ⊢
    rw [hsent, List.filterMap_append, List.count_append] at hway
    omega
  · -- nobody is left to send a reference to a freed channel
    have hheld := ho.sends cur c' hf hcur
    rw [hnone cur] at hheld
    omega

theorem freedLast_step (hP : FreedLast c tr σ) :
    FreedLast c (tr ++ [(σ, l)]) τ ↔ (GivesLast c σ l → ¬ UnderWay c tr σ) := by
  have hτ := hk.step (hs.refStep c) ho.gives
  have hquiet (hf : σ.frame l = some (.call (.lwtChanDeref c))) :
      UnderWay c (tr ++ [(σ, l)]) τ ↔ UnderWay c tr σ := by
    have hsent : τ.sentRefs c = σ.sentRefs c := by
      refine (hs.sentRefs c).resolve_right ?_
      rintro ⟨cur, c', -, hf'⟩
      rw [hf] at hf'
      cases hf'
    have htake : [(σ, l)].filterMap (fun p => p.1.takesRef p.2) = [] := by
      simp [State.takesRef, hf]
    rw [UnderWay, UnderWay, hsent, List.filterMap_append, htake, List.append_nil]
  constructor
  · rintro hPτ ⟨hf, hone⟩
    obtain ⟨hc, -, cur, hrefs, hn⟩ := hs.gives hf
    have hcτ : c < τ.nchans := hc.trans_eq hn.symm
    have hfreed : (τ.chans c).freed = true := by
      rw [hτ.freed hcτ, hrefs, balance_snoc, ← hk.totalled.total hc, hone]
      rfl
    exact fun hway => hPτ hcτ hfreed ((hquiet hf).mpr hway)
  · intro hC
    by_cases hlive : c < σ.nchans ∧ (σ.chans c).freed = true
    · exact FreedLast.of_freed hk hs ho hP hlive.1 hlive.2
    · intro hcτ hfreed
      cases hs.refStep c with
      | keep _ _ hbelow hchan =>
        have hc := hbelow hcτ
        exact absurd ⟨hc, (hchan hc).2.2 ▸ hfreed⟩ hlive
      | acquire _ hc _ hnot _ hchan =>
        rw [hchan, hnot] at hfreed
        cases hfreed
      | create _ _ _ hnot =>
        rw [hnot] at hfreed
        cases hfreed
      | give cur _ hf hc _ _ hrefs =>
        rw [hquiet hf]
        refine hC ⟨hf, ?_⟩
        have hzero := (hτ.freed hcτ).mp hfreed
        rw [hrefs, balance_snoc] at hzero
        simp only [Move.worth, if_true] at hzero
        rw [hk.totalled.total hc]
        omega

end Last

/-- In every run of any kernel threads whose threads send and give up only the references to `c`
that they hold, no reference to `c` is under way in any state once `c` has been freed, if and only
if none is at any call of `lwt_chan_deref` that gives up the last one accounted for. -/
theorem freed_under_way_iff (h : Run σ₀ tr σ) (hb : σ₀.Boot k)
    (ho : ∀ p ∈ tr, UsesOwn c p.1 p.2) :
    (∀ i v, (Transition.visited tr σ)[i]? = some v → FreedLast c (tr.take i) v) ↔
      ∀ i p, tr[i]? = some p → GivesLast c p.1 p.2 → ¬ UnderWay c (tr.take i) p.1 := by
  have hrun := Transition.run_restrict_iff.mpr ⟨h, ho⟩
  refine hrun.forall_prefix_iff
    (C := fun tr s l => GivesLast c s l → ¬ UnderWay c tr s) ?_ ?_
  · intro hc hfreed
    obtain rfl := (boot_ok hb).chan_eq hc
    rw [(boot_ok hb).chan.2.2.2.2.2] at hfreed
    cases hfreed
  · intro tr s l s' hr hP hs
    obtain ⟨hr, hr'⟩ := Transition.run_restrict_iff.mp hr
    have hk := Run.reckoned hr hb fun p hp => (hr' p hp).gives
    exact freedLast_step hk hs.1 hs.2 hP

instance (c : ChanId) (σ : State) (l : Label) : Decidable (GivesLast c σ l) :=
  decidable_of_iff ((σ.frame l).bind Frame.derefs = some c ∧ (σ.chans c).counted = 1) <| by
    rw [frame_eq_iff Frame.derefs_eq_some, GivesLast]

instance (c : ChanId) (σ : State) (l : Label) : Decidable (UsesOwn c σ l) :=
  decidable_of_iff (GivesOwn c σ l ∧ ∀ a ∈ (σ.frame l).bind Frame.sends,
    a.2 = .chan c → ∀ cur ∈ σ.lwtCurrent, 0 < held cur (σ.refs c)) <| by
      rw [forall_frame_iff Frame.sends_eq_some]
      constructor
      · rintro ⟨hg, hs⟩
        exact ⟨hg, fun cur c' hf hcur => hs (c', .chan c) hf rfl cur hcur⟩
      · rintro ⟨hg, hs⟩
        refine ⟨hg, ?_⟩
        rintro ⟨c', d⟩ hf rfl cur hcur
        exact hs cur c' hf hcur

def handedRun : List Label :=
  [.call (.lwtChan 3 chanMem), .call (.lwtChan 0 chanMem), .call (.lwtSndChan 1 2), .resume,
    .resume, .resume, .resume, .call (.lwtRcvChan 1), .resume, .resume, .call (.lwtChanDeref 2),
    .call (.lwtChanDeref 2)]

theorem handedRun_last : ((booted.after handedRun).chans 2).freed = true ∧
    ∀ i v, (Transition.visited (booted.trace handedRun) (booted.after handedRun))[i]? = some v →
      FreedLast 2 ((booted.trace handedRun).take i) v := by
  have hall : ∀ i < (booted.trace handedRun).length, ∀ p ∈ (booted.trace handedRun)[i]?,
      GivesLast 2 p.1 p.2 → ¬ UnderWay 2 ((booted.trace handedRun).take i) p.1 := by
    decide +kernel
  refine ⟨by decide +kernel, (freed_under_way_iff (State.run_trace booted handedRun) boot_booted
    (by decide +kernel)).mpr fun i p hp => ?_⟩
  obtain ⟨hi, -⟩ := List.getElem?_eq_some_iff.mp hp
  exact hall i hi p hp

/-- The main thread gives channel `2` up before it has taken its reference out of channel `1`. -/
def deadLetterRun : List Label :=
  [.call (.lwtChan 3 chanMem), .call (.lwtChan 0 chanMem), .call (.lwtSndChan 1 2), .resume,
    .resume, .resume, .resume, .call (.lwtChanDeref 2), .call (.lwtRcvChan 1), .resume]

example : (∀ p ∈ booted.trace deadLetterRun, UsesOwn 2 p.1 p.2) ∧
    (booted.trace deadLetterRun).length = deadLetterRun.length := by decide +kernel

example : (booted.after deadLetterRun).step .resume = .error .useAfterFree := rfl

end Lwt
