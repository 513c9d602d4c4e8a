import Lwt.Ready

/-! Channels in reused memory. A channel is known by the address of its block, and
`umalloc` gives the block of a freed channel to a later one. `lwt_snd` compares its
channel with `now_rcving`, so that a thread whose last receive blocked on a freed channel
passes for one that waits for the channel made in its place. Here `addr c` is the
address of channel `c`; the steps are those of the library but for this comparison. -/

namespace Lwt

namespace State

variable (addr : ChanId → ℕ) (σ : State) (cur : ThreadId)

/-- `lwt_snd`, comparing addresses. -/
def lwtSndAt (c : ChanId) (data : Data) : Result (State × Next) := do
  let ch ← σ.chan? c
  if ch.type = .global then (σ.setChanType c .global).lwtSyncSnd cur c data
  else match ch.receiver with
  | none => .ok (σ.emit (.sndNone cur c data), .ret (.word (-1)))
  | some r => do
    let rcv ← σ.thread? r
    if rcv.state = .blocked ∧ rcv.blockFor = .receiving ∧
        rcv.nowRcving.map addr = some (addr c) then
      let τ := σ.modThread r fun th => { th with messageData := data }
      .ok (((τ.resumeThread cur r).emit (.snd cur c data)).emit (.sndDone cur c), .ret .null)
    else σ.lwtSndQueue cur c data

/-- The section of a step, with this `lwt_snd`. -/
def sectionAt (l : Label) : Result State :=
  match σ.attempt l with
  | some (cur, .call (.lwtSnd c d), k) => do
    let (τ, next) ← σ.lwtSndAt addr cur c d
    τ.finish cur k next
  | _ => σ.step l

/-- The blocks of the channels in use are different. -/
def Apart : Prop :=
  ∀ c < σ.nchans, ∀ c' < σ.nchans, (σ.chans c).freed = false → (σ.chans c').freed = false →
    addr c = addr c' → c = c'

instance : Decidable (σ.Apart addr) :=
  inferInstanceAs (Decidable (∀ c < σ.nchans, ∀ c' < σ.nchans, (σ.chans c).freed = false →
    (σ.chans c').freed = false → addr c = addr c' → c = c'))

/-- One step. No channel is put in the block of one in use. -/
def stepAt (l : Label) : Result State := do
  let τ ← σ.sectionAt addr l
  if τ.Apart addr then .ok τ else .error .notReady

/-- The receiver of `c` sleeps in a group wait and its `now_rcving` is the address of `c`. -/
def StaleAt (c : ChanId) : Prop :=
  ∃ r c' g, (σ.chans c).receiver = some r ∧ (σ.threads r).task.Receiving ∧
    (σ.threads r).nowRcving = some c' ∧ addr c' = addr c ∧
    (σ.threads r).context.head? = some (.cgrpWaitLoop g)

instance (c : ChanId) : Decidable (σ.StaleAt addr c) :=
  decidable_of_iff (∃ r ∈ (σ.chans c).receiver, (σ.threads r).task.Receiving ∧
    (∃ c' ∈ (σ.threads r).nowRcving, addr c' = addr c) ∧
    ((σ.threads r).context.head?.bind Frame.waitsIn).isSome) <| by
    simp only [StaleAt, Option.isSome_iff_exists, Option.bind_eq_some_iff,
      Frame.waitsIn_eq_some, exists_eq_right, Option.mem_def]
    constructor
    · rintro ⟨r, hr, hrcv, ⟨c', hn, ha⟩, g, hg⟩
      exact ⟨r, c', g, hr, hrcv, hn, ha, hg⟩
    · rintro ⟨r, c', g, hr, hrcv, hn, ha, hg⟩
      exact ⟨r, hr, hrcv, ⟨c', hn, ha⟩, g, hg⟩

/-- Whoever is inside `lwt_rcv` on a channel receives from no other in its block. -/
def RcvsApart : Prop :=
  ∀ t c c', (σ.threads t).task.rcving = some c' → c < σ.nchans →
    (σ.chans c).receiver = some t → addr c' = addr c → c' = c

end State

/-- `lwt_snd` is called on no channel whose receiver sleeps in `lwt_cgrp_wait` with the
address of the channel left in its `now_rcving`. -/
def NoStaleSend (addr : ChanId → ℕ) (σ : State) (l : Label) : Prop :=
  ∀ c d, σ.frame l = some (.call (.lwtSnd c d)) → ¬ σ.StaleAt addr c

instance (addr : ChanId → ℕ) (σ : State) (l : Label) : Decidable (NoStaleSend addr σ l) :=
  decidable_of_iff _ <| (forall_frame_iff Frame.sends_eq_some
    (P := fun a => ¬ σ.StaleAt addr a.1)).trans Prod.forall

/-- The step takes the direct hand-off branch of `lwt_snd(c, ·)`, to thread `r`. -/
def HandsOff (addr : ChanId → ℕ) (c : ChanId) (r : ThreadId) (σ : State) (l : Label) : Prop :=
  (∃ d, σ.frame l = some (.call (.lwtSnd c d))) ∧ (σ.chans c).type = .local ∧
    (σ.chans c).receiver = some r ∧ (σ.threads r).state = .blocked ∧
    (σ.threads r).blockFor = .receiving ∧ (σ.threads r).nowRcving.map addr = some (addr c)

/-- A step of a run of one kernel thread with LOCAL channels. -/
structure AllLocal (σ : State) (l : Label) : Prop where
  ordinary : Ordinary σ l
  type : ∀ c, σ.frame l ≠ some (.call (.setChanType c .global))
  size : ∀ size mem, σ.frame l = some (.call (.lwtChan size mem)) → 0 ≤ size ∧ size < 2147483648

theorem AllLocal.localUse {σ : State} {l : Label} (h : AllLocal σ l) (c : ChanId) :
    LocalUse c σ l where
  ordinary := h.ordinary
  type := h.type c
  size size mem hf _ := h.size size mem hf

instance (σ : State) (l : Label) : Decidable (AllLocal σ l) :=
  decidable_of_iff
    (Ordinary σ l ∧ (∀ a ∈ (σ.frame l).bind Frame.setsType, a.2 ≠ .global) ∧
      ∀ a ∈ (σ.frame l).bind Frame.makes, 0 ≤ a.1 ∧ a.1 < 2147483648) <| by
    rw [forall_frame_iff Frame.setsType_eq_some, forall_frame_iff Frame.makes_eq_some]
    exact ⟨fun h => ⟨h.1, fun c hf => h.2.1 (c, .global) hf rfl,
      fun size mem => h.2.2 (size, mem)⟩, fun h => ⟨h.ordinary,
      fun a hf ha => h.type a.1 (ha ▸ hf), fun a => h.size a.1 a.2⟩⟩

variable {addr : ChanId → ℕ} {σ τ σ₀ : State} {l : Label} {cur r t : ThreadId} {f : Frame}
  {rest : List Frame} {c c' : ChanId} {d : Data} {k : KthdId} {tr : List (State × Label)}

namespace State

theorem lwtSndAt_eq (h : ∀ r, (σ.chans c).receiver = some r → (σ.threads r).task.Receiving →
    (σ.threads r).nowRcving.map addr = some (addr c) → (σ.threads r).nowRcving = some c) :
    σ.lwtSndAt addr cur c d = σ.lwtSnd cur c d := by
  unfold lwtSndAt lwtSnd
  cases hch : σ.chan? c with
  | error e => rfl
  | ok ch =>
    obtain ⟨rfl, -⟩ := chan?_ok hch
    refine if_congr Iff.rfl rfl ?_
    cases hr : (σ.chans c).receiver with
    | none => rfl
    | some r =>
      dsimp only
      cases hth : σ.thread? r with
      | error e => rfl
      | ok rcv =>
        obtain ⟨rfl, -⟩ := thread?_ok hth
        refine if_congr ?_ rfl rfl
        constructor
        · rintro ⟨hb, hbf, hn⟩
          exact ⟨hb, hbf, h r hr ⟨hb, hbf⟩ hn⟩
        · rintro ⟨hb, hbf, hn⟩
          exact ⟨hb, hbf, by rw [hn]; rfl⟩

theorem lwtSndAt_lt {n : Next} (h : σ.lwtSndAt addr cur c d = .ok (τ, n)) : c < σ.nchans := by
  obtain ⟨ch, hch, -⟩ := bind_ok h
  exact (chan?_ok hch).2.1

theorem lwtSndAt_handOff {n : Next} (h : σ.lwtSndAt addr cur c d = .ok (τ, n))
    (ht : (σ.chans c).type = .local) (hr : (σ.chans c).receiver = some r)
    (hrcv : (σ.threads r).task.Receiving) (hn : (σ.threads r).nowRcving = some c')
    (ha : addr c' = addr c) :
    n = .ret .null ∧ τ = (((σ.modThread r fun th => { th with messageData := d }).resumeThread
      cur r).emit (.snd cur c d)).emit (.sndDone cur c) := by
  unfold lwtSndAt at h
  obtain ⟨ch, hch, h⟩ := bind_ok h
  obtain ⟨rfl, hc, -⟩ := chan?_ok hch
  rw [if_neg (by simp [ht]), hr] at h
  obtain ⟨rcv, hth, h⟩ := bind_ok h
  obtain ⟨rfl, -⟩ := thread?_ok hth
  rw [if_pos ⟨hrcv.1, hrcv.2, by rw [hn, ← ha]; rfl⟩] at h
  cases h
  exact ⟨rfl, rfl⟩

theorem sectionAt_eq (h : ∀ c d, σ.frame l = some (.call (.lwtSnd c d)) →
    ∀ cur, σ.lwtSndAt addr cur c d = σ.lwtSnd cur c d) : σ.sectionAt addr l = σ.step l := by
  unfold sectionAt
  split
  · rename_i cur c d k ha
    obtain ⟨-, hf, hstep⟩ := attempt_ok ha
    rw [hstep, h c d hf]
    rfl
  · rfl

theorem stepAt_ok (h : σ.stepAt addr l = .ok τ) :
    σ.sectionAt addr l = .ok τ ∧ τ.Apart addr := by
  obtain ⟨τ', hs, h⟩ := bind_ok h
  split_ifs at h with ha
  cases h
  exact ⟨hs, ha⟩

/-- A step from a call of `lwt_snd` is one of `lwtSndAt`. -/
theorem sectionAt_snd (h : σ.sectionAt addr l = .ok τ)
    (hf : σ.frame l = some (.call (.lwtSnd c d))) :
    ∃ cur rest σ' n, σ.lwtCurrent = some cur ∧ σ.lwtSndAt addr cur c d = .ok (σ', n) ∧
      σ'.finish cur rest n = .ok τ := by
  unfold sectionAt at h
  split at h
  · rename_i cur c' d' rest ha
    obtain ⟨hcur, hf', -⟩ := attempt_ok ha
    cases hf.symm.trans hf'
    obtain ⟨⟨σ', n⟩, hs, h⟩ := bind_ok h
    exact ⟨cur, rest, σ', n, hcur, hs, h⟩
  · rename_i hnot
    obtain ⟨cur, rest, ha⟩ := attempt_of_frame h hf
    exact absurd ha (hnot cur c d rest)

end State

/-- What holds in such a run as long as no stale send is made. -/
structure Housed (addr : ChanId → ℕ) (σ : State) (k : KthdId) : Prop where
  inUse : ∀ c, InUse σ k c
  apart : σ.Apart addr
  rcvsApart : σ.RcvsApart addr
  freed : ∀ c < σ.nchans, (σ.chans c).freed = true → (σ.chans c).receiver = none
  conserved : ∀ c < σ.nchans, (σ.mailbox c).Conserved

/-- A section takes no other thread into `lwt_rcv`. -/
theorem Section.rcving_other (h : InPlace σ k) (hw : OwnerWaits σ l)
    (hs : Section σ l τ cur f rest) (ht : t ≠ cur) (hlt : t < σ.nthreads)
    (hrcv : (τ.threads t).task.rcving = some c) : (σ.threads t).task.rcving = some c := by
  have hother := (h.effect hs).other h.placed (h.running_cur hs.current) hs.at_
    (InPlace.owner hw hs) ht hlt
  rw [Task.rcving_eq_some_iff] at hrcv ⊢
  cases hother with
  | same hsame => exact hsame.context ▸ hrcv
  | woken _ hctx => exact hctx ▸ hrcv
  | started _ hctx =>
    rw [show (τ.threads t).task.context = [] from hctx] at hrcv
    simp at hrcv

/-- The thread of a section is inside `lwt_rcv(c)` behind it only if it called it. -/
theorem Section.rcving_cur (h : InPlace σ k) (hwell : WellFramed σ) (hw : OwnerWaits σ l)
    (hs : Section σ l τ cur f rest) (hrcv : (τ.threads cur).task.rcving = some c) :
    f = .call (.lwtRcv c) := by
  by_cases hb : (τ.threads cur).task.state = .blocked
  · exact hs.waits h hwell hw ⟨hrcv, hb⟩
  · exact absurd ⟨hrcv, hb⟩ (hs.not_handed h hwell hw)

namespace Housed

variable (h : Housed addr σ k)

include h

/-- Whoever sleeps in a receive with the address of `c` in its `now_rcving` is inside
`lwt_rcv(c)`, unless it sleeps in a group wait. -/
theorem waiting (hc : c < σ.nchans) (hr : (σ.chans c).receiver = some r)
    (hrcv : (σ.threads r).task.Receiving) (hn : (σ.threads r).nowRcving = some c')
    (ha : addr c' = addr c) (hns : ¬ σ.StaleAt addr c) :
    c' = c ∧ (σ.threads r).task.rcving = some c := by
  have hin := h.inUse c
  have hpk : (σ.threads r).task.Parked :=
    hin.inPlace.placed.parked r (hin.plain.receiver r hc hr)
  rcases hpk.receiving hrcv with ⟨c₁, fs, hctx, hn'⟩ | ⟨c₁, fs, hctx, hn'⟩ | ⟨g, fs, hctx⟩
  · obtain rfl : c₁ = c' := Option.some.inj (hn'.symm.trans hn)
    obtain rfl := h.rcvsApart r c c₁ (Task.rcving_eq hctx) hc hr ha
    exact ⟨rfl, Task.rcving_eq hctx⟩
  · have hctx : (σ.threads r).context = .syncRcvLoop c₁ :: fs := hctx
    exact absurd (by simp [hctx]) ((h.inUse c₁).plain.sync r).1
  · have hctx : (σ.threads r).context = .cgrpWaitLoop g :: fs := hctx
    exact absurd ⟨r, c', g, hr, hrcv, hn, ha, by simp [hctx]⟩ hns

/-- Without a stale send the comparison of addresses is one of channels. -/
theorem step_of_stepAt (hns : NoStaleSend addr σ l) (hs : σ.stepAt addr l = .ok τ) :
    Step σ l τ := by
  have heq : σ.sectionAt addr l = σ.step l := by
    refine State.sectionAt_eq fun c d hf cur => ?_
    by_cases hc : c < σ.nchans
    · refine State.lwtSndAt_eq fun r hr hrcv hn => ?_
      obtain ⟨c', hn', ha⟩ := Option.map_eq_some_iff.mp hn
      obtain ⟨rfl, -⟩ := h.waiting hc hr hrcv hn' ha (hns c d hf)
      exact hn'
    · have hbad : σ.chan? c = .error .badPointer := if_pos (not_lt.mp hc)
      rw [State.lwtSndAt, State.lwtSnd, hbad]
      rfl
  exact heq.symm.trans (State.stepAt_ok hs).1

theorem rcvsApart_section (hl : AllLocal σ l) (hs : Section σ l τ cur f rest) :
    τ.RcvsApart addr := by
  intro t c c' hrcv hc hr ha
  have hin := h.inUse c
  have hw := hl.ordinary.2
  have hnet := State.exec_net hs.exec
  rcases lt_or_ge c σ.nchans with hlt | hge
  · have hr : (σ.chans c).receiver = some t := by
      rcases receiver_cases hs hlt with he | ⟨-, hnone, -⟩
      · rwa [← he]
      · simp [hnone] at hr
    by_cases ht : t = cur
    · subst ht
      obtain rfl := hs.rcving_cur hin.inPlace hin.wellFramed hw hrcv
      obtain ⟨⟨σ', n⟩, hb, -⟩ := bind_ok hs.exec
      obtain ⟨hlt', hfree', -⟩ := State.lwtRcv_ok hb
      have hfree : (σ.chans c).freed = false := by
        by_contra hfree
        simp [h.freed c hlt (by simpa using hfree)] at hr
      exact h.apart c' hlt' c hlt hfree' hfree ha
    · have hrcv' := hs.rcving_other hin.inPlace hw ht (hin.plain.receiver t hlt hr) hrcv
      exact h.rcvsApart t c c' hrcv' hlt hr ha
  · obtain ⟨he, hcr⟩ := hnet.created hge hc
    have hcur := (State.Plain.of_created (hl.localUse c) he.symm hs hcr).2.2
    obtain rfl : cur = t := Option.some.inj (hcur.symm.trans hr)
    obtain rfl := hs.rcving_cur hin.inPlace hin.wellFramed hw hrcv
    obtain ⟨-, -, ⟨_, _, hf⟩ | ⟨_, _, hf⟩⟩ := hcr.empty <;> cases hf

theorem freed_step (hs : Section σ l τ cur f rest) (hc : c < τ.nchans) :
    (τ.chans c).freed = true → (τ.chans c).receiver = none := by
  rcases lt_or_ge c σ.nchans with hlt | hge
  · exact freed_section hs hlt (h.freed c hlt)
  · obtain ⟨-, hcr⟩ := (State.exec_net hs.exec).created hge hc
    have hnew : (τ.chans c).freed = false := hcr.freed
    simp [hnew]

theorem step (hl : AllLocal σ l) (hns : NoStaleSend addr σ l) (hs : σ.stepAt addr l = .ok τ) :
    Housed addr τ k := by
  have hstep := h.step_of_stepAt hns hs
  obtain ⟨cur, f, rest, hsec⟩ := step_local hstep hl.ordinary.1
  refine ⟨fun c => (h.inUse c).step (hl.localUse c) hstep, (State.stepAt_ok hs).2,
    h.rcvsApart_section hl hsec, fun _ hc => h.freed_step hsec hc, fun c hc => ?_⟩
  refine (h.inUse c).conserved (hl.localUse c) hstep ?_ (h.conserved c) hc
  rintro ⟨⟨d, hf⟩, r, g, hr, hrcv, hn, hg⟩
  exact hns c d hf ⟨r, c, g, hr, hrcv, hn, rfl, hg⟩

theorem lost (hs : σ.stepAt addr l = .ok τ) (hf : σ.frame l = some (.call (.lwtSnd c d)))
    (hst : σ.StaleAt addr c) : ¬ ∀ c < τ.nchans, (τ.mailbox c).Conserved := by
  intro hτ
  obtain ⟨cur, rest, σ', n, hcur, hsnd, hfin⟩ := State.sectionAt_snd (State.stepAt_ok hs).1 hf
  obtain ⟨r, c', g, hr, hrcv, hn, ha, hg⟩ := hst
  have hc : c < σ.nchans := State.lwtSndAt_lt hsnd
  obtain ⟨rfl, rfl⟩ := State.lwtSndAt_handOff hsnd ((h.inUse c).plain.type hc) hr hrcv hn ha
  have hnot : (σ.threads r).task.rcving ≠ some c := by
    rw [ne_eq, Task.rcving_eq_some_iff, show (σ.threads r).task.context.head? = _ from hg]
    simp
  have hkept := hτ c (by cases hfin; exact hc)
  rw [handOff_lost (h.inUse c).inPlace hcur hr hrcv hnot hfin] at hkept
  exact (h.conserved c hc).not_lost d hkept

theorem keeps_iff (hl : AllLocal σ l) (hs : σ.stepAt addr l = .ok τ) :
    (∀ c < τ.nchans, (τ.mailbox c).Conserved) ↔ NoStaleSend addr σ l :=
  ⟨fun hτ _ _ hf hst => h.lost hs hf hst hτ, fun hns => (h.step hl hns hs).conserved⟩

theorem handsOff_iff (hs : σ.stepAt addr l = .ok τ) :
    (∀ c r, HandsOff addr c r σ l → (σ.threads r).context.head? = some (.rcvRet c)) ↔
      NoStaleSend addr σ l := by
  constructor
  · rintro hh c d hf ⟨r, c', g, hr, hrcv, hn, ha, hg⟩
    obtain ⟨cur, rest, σ', n, -, hsnd, -⟩ := State.sectionAt_snd (State.stepAt_ok hs).1 hf
    have ht := (h.inUse c).plain.type (State.lwtSndAt_lt hsnd)
    have hctx := hh c r ⟨⟨d, hf⟩, ht, hr, hrcv.1, hrcv.2, by rw [hn, ← ha]; rfl⟩
    rw [hg] at hctx
    cases hctx
  · rintro hns c r ⟨⟨d, hf⟩, -, hr, hb, hbf, hn⟩
    obtain ⟨cur, rest, σ', n, -, hsnd, -⟩ := State.sectionAt_snd (State.stepAt_ok hs).1 hf
    obtain ⟨c', hn, ha⟩ := Option.map_eq_some_iff.mp hn
    have hwt := h.waiting (State.lwtSndAt_lt hsnd) hr ⟨hb, hbf⟩ hn ha (hns c d hf)
    exact Task.rcving_eq_some_iff.mp hwt.2

end Housed

theorem Booted.housed (h : Booted σ k) : Housed addr σ k where
  inUse := h.inUse
  apart c hc c' hc' _ _ _ := by rw [h.chan_eq hc, h.chan_eq hc']
  rcvsApart t c c' hrcv := by
    rw [Task.rcving_eq_some_iff, Thread.task_context, h.context] at hrcv
    simp at hrcv
  freed c hc hfree := by
    obtain rfl := h.chan_eq hc
    obtain ⟨-, -, -, -, -, hf⟩ := h.chan
    rw [hf] at hfree
    cases hfree
  conserved c hc := (h.inOrder hc).conserved

/-- A run of the library whose channels are at these addresses. -/
abbrev RunAt (addr : ChanId → ℕ) (σ₀ : State) :=
  Transition.Run (fun σ l τ => σ.stepAt addr l = .ok τ) σ₀

namespace State

def afterAt (addr : ChanId → ℕ) : State → List Label → State :=
  Transition.exec fun σ l => σ.stepAt addr l

def traceAt (addr : ChanId → ℕ) : State → List Label → List (State × Label) :=
  Transition.execTrace fun σ l => σ.stepAt addr l

theorem run_traceAt (addr : ChanId → ℕ) (σ : State) (ls : List Label) :
    RunAt addr σ (σ.traceAt addr ls) (σ.afterAt addr ls) :=
  Transition.run_exec _ σ ls

end State

/-- Channel `3` is in the block that channel `1` has been in. -/
def reusedBlock (c : ChanId) : ℕ := if c = 3 then 1 else c

/-- The main thread receives from channel `1` and gives it up, and receives from channel `3`
behind that. -/
def receivedRun : List Label :=
  [.call (.lwtChan 1 chanMem), .call (.lwtCgrp true), .call (.lwtCreate 0 createMem),
    .call (.lwtRcv 1), .call (.lwtSnd 1 (.word 5)), .call (.lwtYield none), .resume,
    .call (.lwtChanDeref 1), .call (.lwtChan 1 chanMem), .call (.lwtRcv 3),
    .call (.lwtSnd 3 (.word 7)), .call (.lwtYield none), .resume]

/-- The same, but the main thread waits for channel `3` in a group. -/
def reusedRun : List Label :=
  receivedRun.take 9 ++
    [.call (.lwtCgrpAdd 0 3), .call (.lwtCgrpWait 0), .resume, .call (.lwtSnd 3 (.word 7))]

/-- The message of channel `3` is lost if it is in the block of channel `1`, and not in one
of its own. -/
example : ((booted.afterAt reusedBlock reusedRun).mailbox 3).sent = [.word 7] ∧
    ((booted.afterAt reusedBlock reusedRun).mailbox 3).pending = [] ∧
    ((booted.afterAt id reusedRun).mailbox 3).pending = [.word 7] := by decide +kernel

/-- The main thread receives from channel `1`, adds it to a group and waits on the
group; the other thread sends to the channel before and behind that. -/
def staleRun : List Label :=
  [.call (.lwtChan 1 chanMem), .call (.lwtCgrp true), .call (.lwtCreate 0 createMem),
    .call (.lwtRcv 1), .call (.lwtSnd 1 (.word 5)), .call (.lwtYield none), .resume,
    .call (.lwtCgrpAdd 0 1), .call (.lwtCgrpWait 0), .resume, .call (.lwtSnd 1 (.word 7))]

end Lwt
