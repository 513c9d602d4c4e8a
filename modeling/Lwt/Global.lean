import Lwt.Indices

/-! GLOBAL channels, with any number of kernel threads. `lwt_sync_snd` writes into the ring without
looking whether it is full, and `lwt_sync_rcv` reads in the order of the slots. What is received is
what was sent, in order, as long as no value is written into a full ring. -/

namespace Lwt

open State

variable {σ τ σ₀ : State} {l : Label} {cur : ThreadId} {f : Frame} {rest : List Frame}
  {c : ChanId} {k : KthdId} {tr : List (State × Label)}

/-- A step that uses channel `c` as a GLOBAL channel, with at least one slot, for fewer than
`2 ^ 31` messages. -/
structure GlobalUse (c : ChanId) (σ : State) (l : Label) : Prop where
  snd : ∀ d, σ.frame l = some (.call (.lwtSnd c d)) →
    (σ.chans c).type = .global ∧ (σ.mailbox c).sent.length + 1 < 2147483648
  rcv : σ.frame l = some (.call (.lwtRcv c)) → (σ.chans c).type = .global
  size : ∀ size mem, σ.frame l = some (.call (.lwtChan size mem)) → σ.nchans = c → 1 ≤ size

instance (c : ChanId) (σ : State) (l : Label) : Decidable (GlobalUse c σ l) :=
  decidable_of_iff
    ((∀ a ∈ (σ.frame l).bind Frame.sends, a.1 = c →
        (σ.chans c).type = .global ∧ (σ.mailbox c).sent.length + 1 < 2147483648) ∧
      ((σ.frame l).bind Frame.receives = some c → (σ.chans c).type = .global) ∧
      ∀ a ∈ (σ.frame l).bind Frame.makes, σ.nchans = c → 1 ≤ a.1) <| by
    rw [frame_eq_iff Frame.receives_eq_some, forall_frame_iff Frame.makes_eq_some,
      forall_frame_iff Frame.sends_eq_some]
    constructor
    · rintro ⟨hs, hr, hm⟩
      exact ⟨fun d hf => hs (c, d) hf rfl, hr, fun size mem => hm (size, mem)⟩
    · rintro ⟨hs, hr, hm⟩
      refine ⟨?_, hr, fun a => hm a.1 a.2⟩
      rintro ⟨c', d⟩ hf rfl
      exact hs d hf

/-- Step `l` writes no value into a full ring of `c`. -/
def Roomy (c : ChanId) (σ : State) (l : Label) : Prop :=
  ∀ d, σ.frame l = some (.call (.lwtSnd c d)) →
    (σ.chans c).buffer.tail - (σ.chans c).buffer.head < (σ.chans c).size

/-- What was received from `c` is the beginning of what was sent, and no slot with a value that
was not yet read has been written again. -/
structure State.InSequence (σ : State) (c : ChanId) : Prop where
  order : (σ.mailbox c).rcvd <+: (σ.mailbox c).sent
  window : 0 ≤ (σ.chans c).buffer.tail - (σ.chans c).buffer.head ∧
    (σ.chans c).buffer.tail - (σ.chans c).buffer.head ≤ (σ.chans c).size

/-- What holds of channel `c` in such use, whether or not its ring was full. -/
structure Posted (σ : State) (c : ChanId) : Prop where
  wellFramed : WellFramed σ
  silent : σ.nchans ≤ c → (σ.mailbox c).sent = [] ∧ (σ.mailbox c).rcvd = []
  size : c < σ.nchans → 0 ≤ (σ.chans c).size
  logged : c < σ.nchans → (σ.chans c).buffer.Logged (σ.chans c).size (σ.mailbox c).sent
    (σ.mailbox c).rcvd.length
  noRcvRet : ∀ t, .rcvRet c ∉ (σ.threads t).context

inductive PostMoves (σ τ : State) (c : ChanId) (f : Frame) : Prop
  | same (hs : (τ.mailbox c).sent = (σ.mailbox c).sent)
      (hr : (τ.mailbox c).rcvd = (σ.mailbox c).rcvd)
      (hb : (τ.chans c).buffer = (σ.chans c).buffer) (hf : ∀ d, f ≠ .call (.lwtSnd c d))
  | put (d : Data) (hf : f = .call (.lwtSnd c d))
      (hs : (τ.mailbox c).sent = (σ.mailbox c).sent ++ [d])
      (hr : (τ.mailbox c).rcvd = (σ.mailbox c).rcvd)
      (hb : (τ.chans c).buffer = (σ.chans c).buffer.push (σ.chans c).size d)
  | take (hf : f = .syncRcvLoop c) (hn : (σ.chans c).buffer.count ≠ 0)
      (hs : (τ.mailbox c).sent = (σ.mailbox c).sent)
      (hr : (τ.mailbox c).rcvd =
        (σ.mailbox c).rcvd ++ [(σ.chans c).buffer.front (σ.chans c).size])
      (hb : (τ.chans c).buffer = (σ.chans c).buffer.pop)

theorem State.Created.size_nonneg {ch : Chan} (h : Created σ f ch)
    (hf : ∀ size mem, f = .call (.lwtChan size mem) → 1 ≤ size) : 0 ≤ ch.size := by
  cases h with
  | chan size mem raw hraw hf' => exact (zero_le_one.trans (hf size mem hf') : 0 ≤ size)
  | thread => exact le_rfl

section Sections

variable (hs : Section σ l τ cur f rest) (hu : GlobalUse c σ l)

include hs hu in
/-- The ring of a GLOBAL channel in a section that is not the end of a local receive. -/
theorem Section.postMoves (hc : c < σ.nchans) (hret : f ≠ .rcvRet c) : PostMoves σ τ c f := by
  have heff : ChanEffect σ cur c f (τ.chans c) := (exec_net hs.exec).chanEffect hc
  by_cases hsnd : ∃ d, f = .call (.lwtSnd c d)
  · obtain ⟨d, rfl⟩ := hsnd
    obtain ⟨hglobal, -⟩ := hu.snd d hs.frame
    obtain ⟨⟨σ', n⟩, hb, hfin⟩ := bind_ok hs.exec
    obtain ⟨hhist, hchans, -⟩ := finish_fields hfin
    cases (lwtSnd_ok hb).2.2 with
    | sync r =>
      refine .put d rfl ?_ ?_ ?_
      · simp [hhist, Event.sent]
      · simp [hhist, Event.rcvd]
      · simp [hchans]
    | noReceiver hlocal | handOff _ hlocal | ring _ _ hlocal | block _ _ hlocal =>
      exact absurd (hglobal.symm.trans hlocal) (by simp)
  have hsnd : ∀ d, f ≠ .call (.lwtSnd c d) := by simpa using hsnd
  by_cases hl : f = .syncRcvLoop c
  · subst hl
    obtain ⟨⟨σ', n⟩, hb, hfin⟩ := bind_ok hs.exec
    obtain ⟨hhist, hchans, -⟩ := finish_fields hfin
    cases (lwtSyncRcvLoop_ok hb).2.2 with
    | read hn =>
      refine .take rfl hn ?_ ?_ ?_
      · simp [hhist, Event.sent]
      · simp [hhist, Event.rcvd]
      · simp [hchans]
    | empty =>
      refine .same ?_ ?_ ?_ hsnd
      · simp [hhist]
      · simp [hhist]
      · rw [hchans]
  by_cases hr : f = .call (.lwtRcv c)
  · subst hr
    have hglobal := hu.rcv hs.frame
    obtain ⟨⟨σ', n⟩, hb, hfin⟩ := bind_ok hs.exec
    obtain ⟨hhist, hchans, -⟩ := finish_fields hfin
    cases (lwtRcv_ok hb).2.2 with
    | sync r =>
      refine .same ?_ ?_ ?_ hsnd
      · simp [hhist]
      · simp [hhist]
      · rw [hchans]
    | ring hlocal | refill _ _ hlocal | sender _ _ hlocal | block hlocal =>
      exact absurd (hglobal.symm.trans hlocal) (by simp)
  exact .same (sent_eq hs hsnd) (rcvd_eq hs hr hret hl) (heff.buffer hsnd hr hl) hsnd

include hs in
/-- No section moves a value through a channel that is not there yet. -/
theorem Section.unsent (hc : σ.nchans ≤ c) (hret : f ≠ .rcvRet c) :
    (∀ d, f ≠ .call (.lwtSnd c d)) ∧ (τ.mailbox c).sent = (σ.mailbox c).sent ∧
      (τ.mailbox c).rcvd = (σ.mailbox c).rcvd := by
  have hsnd : ∀ d, f ≠ .call (.lwtSnd c d) := by
    rintro d rfl
    exact absurd (exec_net hs.exec).snd_lt (not_lt.mpr hc)
  refine ⟨hsnd, sent_eq hs hsnd, rcvd_eq hs ?_ hret ?_⟩
  · rintro rfl
    exact absurd (exec_net hs.exec).rcv_lt (not_lt.mpr hc)
  · rintro rfl
    obtain ⟨⟨σ', n⟩, hb, -⟩ := bind_ok hs.exec
    exact absurd (lwtSyncRcvLoop_ok hb).1 (not_lt.mpr hc)

include hs in
theorem Posted.frame_ne (h : Posted σ c) : f ≠ .rcvRet c := by
  rintro rfl
  have hctx : (σ.threads cur).context = .rcvRet c :: rest := hs.at_.eq (by simp)
  exact h.noRcvRet cur (by simp [hctx])

include hs hu in
theorem Posted.section_ (h : Posted σ c) : Posted τ c := by
  have hret : f ≠ .rcvRet c := h.frame_ne hs
  have hnet := exec_net hs.exec
  have hnew (hge : σ.nchans ≤ c) (hc : c < τ.nchans) :=
    hnet.created hge hc
  constructor
  · exact h.wellFramed.section_ hs
  · intro hc
    have hge : σ.nchans ≤ c := hnet.nchans_le.trans hc
    obtain ⟨-, hsent, hrcvd⟩ := hs.unsent hge hret
    rw [hsent, hrcvd]
    exact h.silent hge
  · intro hc
    rcases lt_or_ge c σ.nchans with hlt | hge
    · have hsize : (τ.chans c).size = (σ.chans c).size := (hnet.chanEffect hlt).size
      rw [hsize]
      exact h.size hlt
    · obtain ⟨hn, hcr⟩ := hnew hge hc
      exact hcr.size_nonneg fun size mem hf => hu.size size mem (by rw [hs.frame, hf]) hn.symm
  · intro hc
    rcases lt_or_ge c σ.nchans with hlt | hge
    · have hsize : (τ.chans c).size = (σ.chans c).size := (hnet.chanEffect hlt).size
      have hlog := h.logged hlt
      rw [hsize]
      cases hs.postMoves hu hlt hret with
      | same hsent hrcvd hb =>
        rw [hsent, hrcvd, hb]
        exact hlog
      | put d hf hsent hrcvd hb =>
        rw [hsent, hrcvd, hb]
        exact hlog.push (hu.snd d (by rw [hs.frame, hf])).2
      | take hf hn hsent hrcvd hb =>
        rw [hsent, hrcvd, hb, List.length_append, List.length_singleton]
        have hcount := hlog.count
        have hle := hlog.le
        exact hlog.pop (by omega)
    · obtain ⟨-, hsent, hrcvd⟩ := hs.unsent hge hret
      obtain ⟨hsil, hsil'⟩ := h.silent hge
      obtain ⟨htail, hhead, -⟩ := (hnew hge hc).2.empty
      rw [hsent, hrcvd, hsil, hsil']
      exact .empty htail hhead
  · intro t hmem
    rcases h.wellFramed.mem_context hs hmem with hmem | ⟨-, rfl, hlocal, -⟩
    · exact h.noRcvRet t hmem
    · exact absurd ((hu.rcv hs.frame).symm.trans hlocal) (by simp)

end Sections

section Runs

/-- A new kernel thread moves no value. -/
theorem initiate_unsent {mem : CreateMem} (hi : σ.initiate k mem = .ok τ) :
    (τ.mailbox c).sent = (σ.mailbox c).sent ∧ (τ.mailbox c).rcvd = (σ.mailbox c).rcvd := by
  obtain ⟨th, ch, -, -, -, -, -, -, -, -, -, -, -, rfl⟩ := initiate_ok hi
  exact ⟨by simp [Event.sent, List.filterMap_cons], by simp [Event.rcvd, List.filterMap_cons]⟩

theorem Posted.step (h : Posted σ c) (hu : GlobalUse c σ l) (hs : Step σ l τ) : Posted τ c := by
  obtain ⟨cur, f, rest, hsec⟩ | ⟨k, -, rfl⟩ | ⟨k, mem, -, -, hi⟩ := step_cases hs
  · exact h.section_ hsec hu
  · exact ⟨h.wellFramed.step hs, h.silent, h.size, h.logged, h.noRcvRet⟩
  · have hwell : WellFramed τ := h.wellFramed.step hs
    obtain ⟨hsent, hrcvd⟩ := initiate_unsent (c := c) hi
    obtain ⟨th, ch, -, hctx, -, -, htail, hhead, hsize, -, -, -, -, rfl⟩ := initiate_ok hi
    have hold (hc : c < σ.nchans + 1) (hn : c ≠ σ.nchans) : c < σ.nchans :=
      lt_of_le_of_ne (Nat.le_of_lt_succ hc) hn
    refine ⟨hwell, fun hc => ?_, fun hc => ?_, fun hc => ?_, fun t => ?_⟩
    · rw [hsent, hrcvd]
      exact h.silent (Nat.le_of_succ_le hc)
    · by_cases hn : c = σ.nchans
      · simp [hn, hsize]
      · simpa [hn] using h.size (hold hc hn)
    · rw [hsent, hrcvd]
      by_cases hn : c = σ.nchans
      · obtain ⟨hsil, hsil'⟩ := h.silent hn.ge
        rw [hsil, hsil', hn]
        simpa using RingBuffer.Logged.empty htail hhead
      · simpa only [ne_eq, hn, not_false_eq_true, Function.update_of_ne] using
          h.logged (hold hc hn)
    · by_cases ht : t = σ.nthreads
      · simp [ht, hctx]
      · simpa [ht] using h.noRcvRet t

theorem Booted.posted (h : Booted σ k) (c : ChanId) : Posted σ c := by
  obtain ⟨htail, hhead, hsize, -⟩ := h.chan
  have hsent : (σ.mailbox c).sent = [] := by simp [h.history, Event.sent]
  have hrcvd : (σ.mailbox c).rcvd = [] := by simp [h.history, Event.rcvd]
  refine ⟨h.wellFramed, fun _ => ⟨hsent, hrcvd⟩, fun hc => ?_, fun hc => ?_, fun t => ?_⟩
  · rw [h.chan_eq hc, hsize]
  · rw [hsent, hrcvd, h.chan_eq hc]
    exact .empty htail hhead
  · simp [h.context]

/-- A channel that nothing went through is in sequence. -/
theorem Posted.inSequence (h : Posted σ c) (hc : c < σ.nchans) (hs : (σ.mailbox c).sent = []) :
    σ.InSequence c := by
  have hlog := h.logged hc
  have hrcvd : (σ.mailbox c).rcvd = [] := by
    have hle := hlog.le
    rw [hs] at hle
    exact List.eq_nil_of_length_eq_zero (Nat.le_zero.mp hle)
  have htail : (σ.chans c).buffer.tail = 0 := by rw [hlog.tail, hs]; rfl
  have hhead : (σ.chans c).buffer.head = 0 := by rw [hlog.head, hrcvd]; rfl
  refine ⟨?_, ?_⟩
  · rw [hrcvd]
    exact List.nil_prefix
  · rw [htail, hhead, sub_zero]
    exact ⟨le_rfl, h.size hc⟩

/-- A section keeps a channel in sequence if and only if it does not write into a full ring. -/
theorem inSequence_section (h : Posted σ c) (hP : σ.InSequence c) (hc : c < σ.nchans)
    (hu : GlobalUse c σ l) (hs : Section σ l τ cur f rest) :
    τ.InSequence c ↔ Roomy c σ l := by
  have hsize : (τ.chans c).size = (σ.chans c).size := ((exec_net hs.exec).chanEffect hc).size
  have hlog := h.logged hc
  obtain ⟨horder, hwin⟩ := hP
  have hroomy (hf : ∀ d, f ≠ .call (.lwtSnd c d)) : Roomy c σ l := by
    intro d hd
    exact absurd (Option.some.inj (hs.frame.symm.trans hd)) (hf d)
  cases hs.postMoves hu hc (h.frame_ne hs) with
  | same hsent hrcvd hb hf =>
    refine iff_of_true ⟨?_, ?_⟩ (hroomy hf)
    · rwa [hsent, hrcvd]
    · rwa [hb, hsize]
  | put d hf hsent hrcvd hb =>
    have hbound := hlog.bound
    have hle := hlog.le
    have hlt := (hu.snd d (by rw [hs.frame, hf])).2
    have htail : (τ.chans c).buffer.tail = (σ.chans c).buffer.tail + 1 := by
      rw [hb, RingBuffer.push_tail, hlog.tail, wrap32_of_bounds (by omega) (by omega)]
    have hhead : (τ.chans c).buffer.head = (σ.chans c).buffer.head := by
      rw [hb, RingBuffer.push_head]
    constructor
    · rintro ⟨-, -, hwin'⟩ d' -
      rw [htail, hhead, hsize] at hwin'
      omega
    · intro hr
      have hroom := hr d (by rw [hs.frame, hf])
      refine ⟨?_, ?_⟩
      · rw [hsent, hrcvd]
        exact horder.trans (List.prefix_append _ _)
      · rw [htail, hhead, hsize]
        omega
  | take hf hn hsent hrcvd hb =>
    have hcount := hlog.count
    have htail := hlog.tail
    have hhead := hlog.head
    have hlt : (σ.mailbox c).rcvd.length < (σ.mailbox c).sent.length := by
      have := hlog.le
      omega
    have hfront := hlog.front hlt (by omega)
    refine iff_of_true ⟨?_, ?_⟩ (hroomy (by simp [hf]))
    · rw [hsent, hrcvd, List.prefix_iff_eq_take, List.length_append, List.length_singleton,
        List.take_add_one, hfront, ← List.prefix_iff_eq_take.mp horder]
      rfl
    · have hpop : (τ.chans c).buffer.head = (σ.mailbox c).rcvd.length + 1 := by
        rw [hb, (hlog.pop hlt).head]
        push_cast
        rfl
      have htail' : (τ.chans c).buffer.tail = (σ.chans c).buffer.tail := by rw [hb]; rfl
      rw [hpop, htail', hsize]
      omega

/-- A step keeps a channel in sequence if and only if it does not write into a full ring. -/
theorem inSequence_step (h : Posted σ c) (hP : c < σ.nchans → σ.InSequence c)
    (hu : GlobalUse c σ l) (hs : Step σ l τ) :
    (c < τ.nchans → τ.InSequence c) ↔ Roomy c σ l := by
  have hpost : Posted τ c := h.step hu hs
  have hnone (hf : ∀ d, σ.frame l ≠ some (.call (.lwtSnd c d))) : Roomy c σ l :=
    fun d hd => absurd hd (hf d)
  obtain ⟨cur, f, rest, hsec⟩ | ⟨k, rfl, rfl⟩ | ⟨k, mem, rfl, -, hi⟩ := step_cases hs
  · rcases lt_or_ge c σ.nchans with hlt | hge
    · have hlt' : c < τ.nchans := hlt.trans_le (exec_net hsec.exec).nchans_le
      rw [forall_prop_of_true hlt']
      exact inSequence_section h (hP hlt) hlt hu hsec
    · obtain ⟨hsnd, hsent, -⟩ := hsec.unsent hge (h.frame_ne hsec)
      refine iff_of_true (fun hc => hpost.inSequence hc ?_) (hnone fun d hd => ?_)
      · rw [hsent]
        exact (h.silent hge).1
      · exact hsnd d (Option.some.inj (hsec.frame.symm.trans hd))
  · refine iff_of_true (fun hc => ?_) (hnone fun d => nofun)
    exact ⟨(hP hc).order, (hP hc).window⟩
  · refine iff_of_true (fun hc => ?_) (hnone fun d => nofun)
    obtain ⟨hsent, hrcvd⟩ := initiate_unsent (c := c) hi
    rcases lt_or_ge c σ.nchans with hlt | hge
    · obtain ⟨horder, hwin⟩ := hP hlt
      obtain ⟨th, ch, -, -, -, -, -, -, -, -, -, -, -, rfl⟩ := initiate_ok hi
      have hn : c ≠ σ.nchans := hlt.ne
      refine ⟨by rwa [hsent, hrcvd], ?_⟩
      simpa only [ne_eq, hn, not_false_eq_true, Function.update_of_ne] using hwin
    · exact hpost.inSequence hc (hsent.trans (h.silent hge).1)

/-- What is received from a GLOBAL channel is what was sent, in order, and no value is overwritten
before it is read, in every state of a run if and only if no value is ever written into a full
ring. -/
theorem in_sequence_iff (h : Run σ₀ tr σ) (hb : σ₀.Boot k) (hu : ∀ p ∈ tr, GlobalUse c p.1 p.2) :
    (∀ τ ∈ Transition.visited tr σ, c < τ.nchans → τ.InSequence c) ↔
      ∀ p ∈ tr, Roomy c p.1 p.2 := by
  have hpost : Posted σ₀ c := (boot_ok hb).posted c
  refine h.forall_visited_iff (I := fun σ => Posted σ c) hu hpost (fun hc => ?_)
    (fun _ _ _ h hu hs => h.step hu hs) fun _ _ _ h hP hu hs => inSequence_step h hP hu hs
  exact hpost.inSequence hc (by simp [(boot_ok hb).history, Event.sent])

/-- A second kernel thread sends `n` values to a channel of one slot of the first, which then
receives. -/
def postRun (n : ℕ) : List Label :=
  [.initiate 2 createMem, .call (.lwtChan 1 chanMem), .call (.setChanType 2 .global), .switch 2] ++
    (List.range n).flatMap (fun i => [.call (.lwtSnd 2 (.word i)), .resume]) ++
    [.switch 1, .call (.lwtRcv 2), .resume]

theorem postRun_in_sequence :
    (∀ τ ∈ Transition.visited (booted.trace (postRun 1)) (booted.after (postRun 1)),
      2 < τ.nchans → τ.InSequence 2) ↔ ∀ p ∈ booted.trace (postRun 1), Roomy 2 p.1 p.2 :=
  in_sequence_iff (State.run_trace booted (postRun 1)) boot_booted (by decide +kernel)

/-- Of two values sent to one slot the second is received first. -/
theorem second_value_received :
    (∀ p ∈ booted.trace (postRun 2), GlobalUse 2 p.1 p.2) ∧
    2 < (booted.after (postRun 2)).nchans ∧
    ((booted.after (postRun 2)).mailbox 2).sent = [.word 0, .word 1] ∧
    ((booted.after (postRun 2)).mailbox 2).rcvd = [.word 1] ∧
    ¬ (booted.after (postRun 2)).InSequence 2 := by
  have hrcvd : ((booted.after (postRun 2)).mailbox 2).rcvd = [.word 1] := by decide +kernel
  have hsent : ((booted.after (postRun 2)).mailbox 2).sent = [.word 0, .word 1] := by
    decide +kernel
  refine ⟨by decide +kernel, by decide +kernel, hsent, hrcvd, fun h => ?_⟩
  have horder := h.order
  rw [hsent, hrcvd] at horder
  exact absurd horder (by decide)

end Runs

end Lwt
