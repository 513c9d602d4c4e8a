import Lwt.Groups
import Lwt.Join

/-! The blocks behind threads and channels. A thread that starts in a recycled structure gets a new
exit channel, and nothing gives the old one back; `lwt_chan_deref` gives back the structure of a
channel, but not its data buffer. -/

namespace Lwt

open State

variable {σ τ σ₀ : State} {l : Label} {cur t : ThreadId} {f : Frame} {rest : List Frame}
  {k : KthdId} {c : ChanId} {tr : List (State × Label)}

/-- What a block from `umalloc` is for. -/
inductive Piece where
  | thread (t : ThreadId)
  | stack (t : ThreadId)
  | chan (c : ChanId)
  | buffer (c : ChanId)
  deriving DecidableEq

def ChanMem.pieces (mem : ChanMem) (c : ChanId) : List Piece :=
  .chan c :: if mem.buffer.isSome then [.buffer c] else []

def State.pieces (σ : State) : Frame → List Piece
  | .call (.lwtCreate _ mem) =>
    (if σ.queues σ.currentRecycleQueue = [] then [.thread σ.nthreads, .stack σ.nthreads] else []) ++
      mem.chl.pieces σ.nchans
  | .call (.lwtChan _ mem) => mem.pieces σ.nchans
  | _ => []

/-- The blocks that step `l` has from `umalloc`. -/
def State.obtains (σ : State) : Label → List Piece
  | .initiate _ mem => .thread σ.nthreads :: mem.chl.pieces σ.nchans
  | l => (σ.frame l).elim [] σ.pieces

def State.exitChan (σ : State) : Label → Option ChanId
  | .initiate _ _ => some σ.nchans
  | l => ((σ.frame l).bind Frame.creates).map fun _ => σ.nchans

/-- The blocks obtained up to the end of a run, those of the first main thread included. -/
def obtained (tr : List (State × Label)) : List Piece :=
  [.thread 0, .chan 0, .buffer 0] ++ tr.flatMap fun p => p.1.obtains p.2

def exitChans (tr : List (State × Label)) : List ChanId :=
  0 :: tr.filterMap fun p => p.1.exitChan p.2

/-- The thread with exit channel `c` has got through `lwt_die`. -/
def Died (tr : List (State × Label)) (c : ChanId) : Prop :=
  ∃ p ∈ tr, ∃ t, p.1.lwtCurrent = some t ∧ p.1.frame p.2 = some .dieSnd ∧ (p.1.threads t).chl = c

/-- A `lwt_join` on the thread with exit channel `c` has returned its last word. -/
def Joined (tr : List (State × Label)) (c : ChanId) : Prop :=
  ∃ i j J t d, JoinCall tr i j J t c d

def Chan.Referenced (ch : Chan) : Prop := ch.receiver ≠ none ∨ 0 < ch.sndCnt

/-- An exit channel is in use until its thread has died and has been joined, any other as long as
there is a reference to it. -/
def State.ChanInUse (σ : State) (tr : List (State × Label)) (c : ChanId) : Prop :=
  if c ∈ exitChans tr then ¬ (Died tr c ∧ Joined tr c) else (σ.chans c).Referenced

/-- Behind the run `tr` the block is in use. -/
def State.InUse (σ : State) (tr : List (State × Label)) : Piece → Prop
  | .thread t | .stack t => t < σ.nthreads
  | .chan c | .buffer c => σ.ChanInUse tr c

def State.GivenBack (σ : State) : Piece → Prop
  | .chan c => (σ.chans c).freed = true
  | _ => False

/-- Every block obtained is in use unless it has been given back. -/
def NoneOrphaned (tr : List (State × Label)) (σ : State) : Prop :=
  ∀ b ∈ obtained tr, ¬ σ.GivenBack b → σ.InUse tr b

def Unbuffered (tr : List (State × Label)) (c : ChanId) : Prop := .buffer c ∉ obtained tr

/-- Step `l` leaves no channel behind. -/
structure LeavesNone (tr : List (State × Label)) (σ : State) (l : Label) : Prop where
  /-- No thread is both dead and joined, unless its exit channel has been freed before. -/
  exit : ∀ c ∈ exitChans tr, Died (tr ++ [(σ, l)]) c → Joined (tr ++ [(σ, l)]) c →
    (σ.chans c).freed = true ∧ Unbuffered tr c
  /-- No other channel loses its last reference, unless it has no data buffer. -/
  deref : ∀ c ∉ exitChans tr, ∀ cur, σ.lwtCurrent = some cur →
    σ.frame l = some (.call (.lwtChanDeref c)) →
      ((σ.chans c).receiver = some cur →
        0 < (σ.chans c).sndCnt ∨ (σ.chans c).sndCnt = 0 ∧ Unbuffered tr c) ∧
      ((σ.chans c).receiver = none →
        1 < (σ.chans c).sndCnt ∨ (σ.chans c).sndCnt = 1 ∧ Unbuffered tr c)

section Lists

variable {p : State × Label} {b : Piece}

theorem mem_obtained_snoc : b ∈ obtained (tr ++ [p]) ↔ b ∈ obtained tr ∨ b ∈ p.1.obtains p.2 := by
  simp only [obtained, List.flatMap_append, List.mem_append, List.flatMap_singleton, or_assoc]

theorem mem_exitChans_snoc :
    c ∈ exitChans (tr ++ [p]) ↔ c ∈ exitChans tr ∨ p.1.exitChan p.2 = some c := by
  rw [exitChans, exitChans, List.filterMap_append, ← List.cons_append, List.mem_append]
  cases h : p.1.exitChan p.2 <;> simp [h, eq_comm]

theorem died_snoc : Died (tr ++ [p]) c ↔ Died tr c ∨
    ∃ t, p.1.lwtCurrent = some t ∧ p.1.frame p.2 = some .dieSnd ∧ (p.1.threads t).chl = c := by
  simp only [Died, List.mem_append, List.mem_singleton, or_and_right, exists_or, exists_eq_left]

/-- A join that has returned in the last step, or before. -/
theorem joined_snoc (h : Joined (tr ++ [p]) c) : Joined tr c ∨
    ((∃ t d, p.1.frame p.2 = some (.joinYield t d)) ∧
      ∃ q ∈ tr, ∃ t, q.2 = .call (.lwtJoin t) ∧ (q.1.threads t).chl = c) := by
  obtain ⟨i, j, J, t, d, hj⟩ := h
  obtain ⟨s, hs, hcur, hpar, hnj, hchl⟩ := hj.called
  obtain ⟨q, hq, hqcur, hqf⟩ := hj.returned
  obtain ⟨hlen, -⟩ := List.getElem?_eq_some_iff.mp hq
  rw [List.length_append, List.length_singleton] at hlen
  have hi : i < tr.length := by
    have := hj.lt
    omega
  rw [List.getElem?_append_left hi] at hs
  rcases Nat.lt_or_ge j tr.length with hlt | hge
  · rw [List.getElem?_append_left hlt] at hq
    refine .inl ⟨i, j, J, t, d, hj.lt, ⟨s, hs, hcur, hpar, hnj, hchl⟩, ⟨q, hq, hqcur, hqf⟩, ?_⟩
    intro m him hmj r hr
    refine hj.first m him hmj r ?_
    rwa [List.getElem?_append_left (by omega)]
  · obtain rfl : j = tr.length := by omega
    rw [List.getElem?_concat_length, Option.some.injEq] at hq
    exact .inr ⟨⟨t, d, hq ▸ hqf⟩, _, List.mem_of_getElem? hs, t, rfl, hchl⟩

end Lists

def Piece.Below (σ : State) : Piece → Prop
  | .thread t | .stack t => t < σ.nthreads
  | .chan c | .buffer c => c < σ.nchans

/-- What step `l` from `σ` to `τ` adds to the structures there are. -/
structure Grown (σ : State) (l : Label) (τ : State) : Prop where
  nthreads : σ.nthreads ≤ τ.nthreads
  nchans : σ.nchans ≤ τ.nchans
  below : ∀ b ∈ σ.obtains l, b.Below τ
  fresh : ∀ c, .chan c ∈ σ.obtains l ∨ .buffer c ∈ σ.obtains l → c = σ.nchans
  chan : ∀ c, σ.nchans ≤ c → c < τ.nchans → .chan c ∈ σ.obtains l
  exit : ∀ c, σ.exitChan l = some c → c = σ.nchans ∧ c < τ.nchans
  user : σ.exitChan l = none → ∀ c, σ.nchans ≤ c → c < τ.nchans → (τ.chans c).Referenced

section Steps

variable {mem : ChanMem} {b : Piece}

theorem ChanMem.mem_pieces (hb : b ∈ mem.pieces c) : b = .chan c ∨ b = .buffer c := by
  unfold ChanMem.pieces at hb
  split_ifs at hb <;> simp_all

theorem ChanMem.chan_mem_pieces : .chan c ∈ mem.pieces c := List.mem_cons_self

theorem ChanMem.below_of_mem (hb : b ∈ mem.pieces c) (hc : c < σ.nchans) : b.Below σ := by
  obtain rfl | rfl := ChanMem.mem_pieces hb <;> exact hc

theorem ChanMem.eq_of_mem {c' : ChanId} (hb : .chan c' ∈ mem.pieces c ∨ .buffer c' ∈ mem.pieces c) :
    c' = c := by
  rcases hb with hb | hb <;> simpa using ChanMem.mem_pieces hb

theorem pieces_eq_nil (hf : ∀ flags mem, f ≠ .call (.lwtCreate flags mem))
    (hc : ∀ size mem, f ≠ .call (.lwtChan size mem)) : σ.pieces f = [] := by
  unfold State.pieces
  split
  · exact absurd rfl (hf _ _)
  · exact absurd rfl (hc _ _)
  · rfl

theorem Section.obtains (hs : Section σ l τ cur f rest) : σ.obtains l = σ.pieces f := by
  cases l with
  | initiate => cases hs.frame
  | _ => simp [State.obtains, hs.frame]

theorem Section.exitChan (hs : Section σ l τ cur f rest) :
    σ.exitChan l = f.creates.map fun _ => σ.nchans := by
  cases l with
  | initiate => cases hs.frame
  | _ => simp [State.exitChan, hs.frame]

theorem Section.grown_create {flags : ℤ} {mem : CreateMem}
    (hs : Section σ l τ cur (.call (.lwtCreate flags mem)) rest) : Grown σ l τ := by
  have hchans : τ.nchans = σ.nchans + 1 := by
    have hn : τ.nchans = τ.net.nchans := rfl
    have hnet := exec_net hs.exec
    rw [hn]
    generalize τ.net = ν at hnet
    cases hnet with
    | same hf => exact hf.elim
    | sleep hf => simp at hf
    | thread => rfl
  have hc : σ.nchans < τ.nchans := by omega
  have hthreads : σ.nthreads ≤ τ.nthreads ∧
      (σ.queues σ.currentRecycleQueue = [] → σ.nthreads < τ.nthreads) := by
    have hn : τ.nthreads = τ.roster.nthreads := rfl
    have hroster := hs.roster
    rw [hn]
    generalize τ.roster = ρ at hroster
    cases hroster with
    | same hf => exact absurd rfl (hf flags mem)
    | recycle _ _ t _ ht =>
      refine ⟨le_rfl, fun hnil => ?_⟩
      rw [show σ.queues (.recycle σ.currentKthd) = [] from hnil] at ht
      cases ht
    | fresh => exact ⟨Nat.le_succ _, fun _ => Nat.lt_succ_self _⟩
  refine ⟨hthreads.1, by omega, fun b hb => ?_, fun c hb => ?_, fun c h0 h1 => ?_, fun c he => ?_,
    fun he => ?_⟩
  · rw [hs.obtains] at hb
    rcases List.mem_append.mp hb with hb | hb
    · split_ifs at hb with hq
      · obtain rfl | rfl : b = .thread σ.nthreads ∨ b = .stack σ.nthreads := by simpa using hb
        · exact hthreads.2 hq
        · exact hthreads.2 hq
      · cases hb
    · exact ChanMem.below_of_mem hb hc
  · rw [hs.obtains] at hb
    have hb : .chan c ∈ mem.chl.pieces σ.nchans ∨ .buffer c ∈ mem.chl.pieces σ.nchans := by
      simp only [State.pieces, List.mem_append] at hb
      split_ifs at hb <;> simpa using hb
    exact ChanMem.eq_of_mem hb
  · obtain rfl : c = σ.nchans := by omega
    rw [hs.obtains]
    exact List.mem_append_right _ ChanMem.chan_mem_pieces
  · rw [hs.exitChan] at he
    obtain rfl : σ.nchans = c := by simpa [Frame.creates] using he
    exact ⟨rfl, hc⟩
  · rw [hs.exitChan] at he
    simp [Frame.creates] at he

theorem Section.grown (hs : Section σ l τ cur f rest) : Grown σ l τ := by
  by_cases hcr : ∃ flags mem, f = .call (.lwtCreate flags mem)
  · obtain ⟨flags, mem, rfl⟩ := hcr
    exact hs.grown_create
  have hcr : ∀ flags mem, f ≠ .call (.lwtCreate flags mem) := by simpa using hcr
  have hnet := exec_net hs.exec
  have hthreads : τ.nthreads = σ.nthreads :=
    congrArg Roster.nthreads (exec_roster_eq hcr hs.exec)
  have hexit : σ.exitChan l = none := by
    rw [hs.exitChan, Option.map_eq_none_iff, Option.eq_none_iff_forall_ne_some]
    exact fun a ha => hcr a.1 a.2 (Frame.creates_eq_some.mp ha)
  -- a channel that is new has been made by `lwt_chan`, for the running thread
  have hnew {c : ChanId} (h0 : σ.nchans ≤ c) (h1 : c < τ.nchans) : c = σ.nchans ∧
      (∃ size mem, f = .call (.lwtChan size mem)) ∧ (τ.chans c).receiver = some cur := by
    obtain ⟨hc, hmade⟩ := hnet.created h0 h1
    refine ⟨hc, ?_⟩
    have hmade : Created σ f (τ.chans c) := hmade
    generalize τ.chans c = ch at hmade
    cases hmade with
    | chan size mem _ _ hf => exact ⟨⟨size, mem, hf⟩, hs.current⟩
    | thread flags mem _ _ hf => exact absurd hf (hcr flags mem)
  have hchan {size : ℤ} {mem : ChanMem} (hf : f = .call (.lwtChan size mem)) :
      σ.nchans < τ.nchans := by
    have hn : τ.nchans = τ.net.nchans := rfl
    subst hf
    rw [hn]
    generalize τ.net = ν at hnet
    cases hnet with
    | same hf => exact hf.elim
    | sleep hf => simp at hf
    | chan => exact Nat.lt_succ_self _
  refine ⟨hthreads.ge, hnet.nchans_le, fun b hb => ?_, fun c hb => ?_, fun c h0 h1 => ?_,
    fun c he => ?_, fun _ c h0 h1 => ?_⟩
  · rw [hs.obtains] at hb
    by_cases hf : ∃ size mem, f = .call (.lwtChan size mem)
    · obtain ⟨size, mem, rfl⟩ := hf
      exact ChanMem.below_of_mem hb (hchan rfl)
    · rw [pieces_eq_nil hcr (by simpa using hf)] at hb
      cases hb
  · rw [hs.obtains] at hb
    by_cases hf : ∃ size mem, f = .call (.lwtChan size mem)
    · obtain ⟨size, mem, rfl⟩ := hf
      exact ChanMem.eq_of_mem hb
    · rw [pieces_eq_nil hcr (by simpa using hf)] at hb
      simp at hb
  · obtain ⟨rfl, ⟨size, mem, rfl⟩, -⟩ := hnew h0 h1
    rw [hs.obtains]
    exact ChanMem.chan_mem_pieces
  · rw [hexit] at he
    cases he
  · exact .inl (by simp [(hnew h0 h1).2.2])

theorem Step.grown (hs : Step σ l τ) : Grown σ l τ := by
  obtain ⟨cur, f, rest, hsec⟩ | ⟨k, rfl, rfl⟩ | ⟨k, mem, rfl, -, hi⟩ := step_cases hs
  · exact hsec.grown
  · refine ⟨le_rfl, le_rfl, fun b hb => ?_, fun c hb => ?_, fun c h0 h1 => ?_, fun c he => ?_,
      fun _ c h0 h1 => ?_⟩
    · cases hb
    · rcases hb with hb | hb <;> cases hb
    · exact absurd h0 (not_le.mpr h1)
    · cases he
    · exact absurd h0 (not_le.mpr h1)
  · obtain ⟨th, ch, -, -, -, -, -, -, -, -, -, -, -, rfl⟩ := initiate_ok hi
    have hc : σ.nchans < σ.nchans + 1 := Nat.lt_succ_self _
    refine ⟨Nat.le_succ _, Nat.le_succ _, fun b hb => ?_, fun c hb => ?_, fun c h0 h1 => ?_,
      fun c he => ?_, fun he => ?_⟩
    · rcases List.mem_cons.mp hb with rfl | hb
      · exact Nat.lt_succ_self _
      · exact ChanMem.below_of_mem hb hc
    · have hb : .chan c ∈ mem.chl.pieces σ.nchans ∨ .buffer c ∈ mem.chl.pieces σ.nchans := by
        simpa [State.obtains] using hb
      exact ChanMem.eq_of_mem hb
    · obtain rfl : c = σ.nchans := le_antisymm (Nat.le_of_lt_succ h1) h0
      exact List.mem_cons_of_mem _ ChanMem.chan_mem_pieces
    · cases he
      exact ⟨rfl, hc⟩
    · cases he

end Steps

/-- The blocks obtained in the run `tr` are those of the structures of `σ`. -/
structure Counted (tr : List (State × Label)) (σ : State) : Prop where
  below : ∀ b ∈ obtained tr, b.Below σ
  chan : ∀ c < σ.nchans, .chan c ∈ obtained tr
  exit : ∀ c ∈ exitChans tr, c < σ.nchans
  called : ∀ q ∈ tr, ∀ t, q.2 = .call (.lwtJoin t) → (q.1.threads t).chl < σ.nchans

theorem lwtJoin_lt (hs : Step σ (.call (.lwtJoin t)) τ) : t < σ.nthreads := by
  obtain ⟨cur, hsec⟩ := step_call hs
  obtain ⟨⟨σ', n⟩, hb, -⟩ := bind_ok hsec.exec
  obtain ⟨th, hth, -⟩ := bind_ok hb
  exact (thread?_ok hth).2

namespace Counted

variable (h : Counted tr σ)
include h

theorem joined_lt (hj : Joined tr c) : c < σ.nchans := by
  obtain ⟨i, j, J, t, d, hj⟩ := hj
  obtain ⟨s, hs, -, -, -, rfl⟩ := hj.called
  exact h.called _ (List.mem_of_getElem? hs) t rfl

theorem step (hm : σ.Mortal) (hs : Step σ l τ) : Counted (tr ++ [(σ, l)]) τ := by
  have hg := hs.grown
  have hmono {b : Piece} (hb : b.Below σ) : b.Below τ := by
    cases b with
    | thread | stack => exact lt_of_lt_of_le hb hg.nthreads
    | chan | buffer => exact lt_of_lt_of_le hb hg.nchans
  refine ⟨fun b hb => ?_, fun c hc => ?_, fun c hc => ?_, fun q hq t ht => ?_⟩
  · rcases mem_obtained_snoc.mp hb with hb | hb
    · exact hmono (h.below b hb)
    · exact hg.below b hb
  · rw [mem_obtained_snoc]
    rcases lt_or_ge c σ.nchans with hlt | hge
    · exact .inl (h.chan c hlt)
    · exact .inr (hg.chan c hge hc)
  · rcases mem_exitChans_snoc.mp hc with hc | hc
    · exact (h.exit c hc).trans_le hg.nchans
    · exact (hg.exit c hc).2
  · rcases List.mem_append.mp hq with hq | hq
    · exact (h.called q hq t ht).trans_le hg.nchans
    · obtain rfl := List.mem_singleton.mp hq
      obtain rfl : l = .call (.lwtJoin t) := ht
      exact (hm.chl t (lwtJoin_lt hs)).1.trans_le hg.nchans

end Counted

theorem Run.mortal (h : Run σ₀ tr σ) (hb : σ₀.Boot k) : σ.Mortal := by
  have hinv : (WellFramed σ ∧ σ.sched.Wired) ∧ σ.Mortal :=
    h.invariant (I := fun σ => (WellFramed σ ∧ σ.sched.Wired) ∧ σ.Mortal)
      ⟨⟨(boot_ok hb).wellFramed, boot_wired hb⟩, boot_mortal hb⟩
      fun _ _ _ hi hs => ⟨⟨hi.1.1.step hs, wired_step hi.1.1 hi.1.2 hs⟩,
        mortal_step hi.2 hi.1.1 hi.1.2 hs⟩
  exact hinv.2

theorem Run.counted (h : Run σ₀ tr σ) (hb : σ₀.Boot k) : Counted tr σ := by
  induction h with
  | nil =>
    have hbooted := boot_ok hb
    have h1 : 0 < σ₀.nchans := hbooted.nchans ▸ Nat.zero_lt_one
    have ht : 0 < σ₀.nthreads := hbooted.nthreads ▸ Nat.zero_lt_one
    refine ⟨fun b hb => ?_, fun c hc => ?_, fun c hc => ?_, fun q hq => by cases hq⟩
    · have hb : b = .thread 0 ∨ b = .chan 0 ∨ b = .buffer 0 := by simpa [obtained] using hb
      obtain rfl | rfl | rfl := hb
      · exact ht
      · exact h1
      · exact h1
    · simp [obtained, hbooted.chan_eq hc]
    · obtain rfl : c = 0 := by simpa [exitChans] using hc
      exact h1
  | snoc hr hs ih => exact ih.step (Run.mortal hr hb) hs

def State.Cleared (σ : State) (tr : List (State × Label)) (c : ChanId) : Prop :=
  (σ.chans c).freed = true ∧ Unbuffered tr c

/-- Threads and their stacks are always in use, so that channels are left to look at. -/
theorem noneOrphaned_iff (h : Counted tr σ) :
    NoneOrphaned tr σ ↔ ∀ c < σ.nchans, ¬ σ.Cleared tr c → σ.ChanInUse tr c := by
  constructor
  · intro hP c hc hnot
    by_cases hfree : (σ.chans c).freed = true
    · have hbuf : .buffer c ∈ obtained tr := by
        by_contra hbuf
        exact hnot ⟨hfree, hbuf⟩
      exact hP _ hbuf id
    · exact hP _ (h.chan c hc) hfree
  · intro hC b hb hnot
    have hlt := h.below b hb
    cases b with
    | thread | stack => exact hlt
    | chan c => exact hC c hlt fun hcl => hnot hcl.1
    | buffer c => exact hC c hlt fun hcl => hcl.2 hb

/-- What a step makes of the references to a channel. -/
theorem Step.references (hs : Step σ l τ) (hc : c < σ.nchans) :
    (σ.frame l ≠ some (.call (.lwtChanDeref c)) ∧ (τ.chans c).freed = (σ.chans c).freed ∧
      ((σ.chans c).Referenced → (τ.chans c).Referenced)) ∨
    ∃ cur, σ.lwtCurrent = some cur ∧ σ.frame l = some (.call (.lwtChanDeref c)) ∧
      (σ.chans c).freed = false ∧ τ.chans c = derefChan cur (σ.chans c) := by
  obtain ⟨cur, f, rest, hsec⟩ | ⟨k, rfl, rfl⟩ | ⟨k, mem, rfl, -, hi⟩ := step_cases hs
  · have hch : ChanEffect σ cur c f (τ.chans c) := (exec_net hsec.exec).chanEffect hc
    rw [hsec.frame, hsec.current]
    by_cases hf : f = .call (.lwtChanDeref c)
    · subst hf
      obtain ⟨⟨σ', n⟩, hb, hfin⟩ := bind_ok hsec.exec
      obtain ⟨-, hfree, rfl, rfl⟩ := lwtChanDeref_ok hb
      cases hfin
      exact .inr ⟨cur, rfl, rfl, hfree, by simp⟩
    · refine .inl ⟨by simpa using hf, hch.freed hf, ?_⟩
      generalize τ.chans c = ch at hch
      cases hch with
      | deref hf' => exact absurd hf' hf
      | acquire => exact Or.imp_right fun h => h.trans (Int.lt_succ _)
      | _ => exact id
  · exact .inl ⟨by simp [frame], rfl, id⟩
  · obtain ⟨th, ch, -, -, -, -, -, -, -, -, -, -, -, rfl⟩ := initiate_ok hi
    refine .inl ⟨by simp [frame], ?_⟩
    simp [hc.ne]

/-- A reference is left behind `lwt_chan_deref`, or nothing is left to give back. -/
theorem referenced_deref {ch : Chan} {u : Prop} (hfree : ch.freed = false) :
    (¬ ((derefChan cur ch).freed = true ∧ u) → (derefChan cur ch).Referenced) ↔
      (ch.receiver = some cur → 0 < ch.sndCnt ∨ ch.sndCnt = 0 ∧ u) ∧
      (ch.receiver = none → 1 < ch.sndCnt ∨ ch.sndCnt = 1 ∧ u) := by
  unfold Chan.Referenced
  rw [derefChan_freed_iff cur hfree, derefChan_receiver, derefChan_sndCnt]
  by_cases hcur : ch.receiver = some cur
  · rw [if_pos hcur, if_pos hcur]
    simp only [hcur]
    by_cases hu : u
    · simp [hu]
      omega
    · simp [hu]
  · rw [if_neg hcur, if_neg hcur]
    cases hr : ch.receiver with
    | none =>
      by_cases hu : u
      · simp [hu]
        omega
      · simp [hu]
    | some r =>
      have hne : ¬ r = cur := by
        rintro rfl
        exact hcur hr
      simp [hne]

namespace LeavesNone

variable (hK : Counted tr σ) (hs : Step σ l τ)
include hK hs

omit hK in
theorem exitChans_iff (hc : c < σ.nchans) :
    c ∈ exitChans (tr ++ [(σ, l)]) ↔ c ∈ exitChans tr := by
  rw [mem_exitChans_snoc, or_iff_left]
  intro he
  exact hc.ne (hs.grown.exit c he).1

omit hK in
theorem cleared_iff (hc : c < σ.nchans) :
    τ.Cleared (tr ++ [(σ, l)]) c ↔ (τ.chans c).freed = true ∧ Unbuffered tr c := by
  unfold State.Cleared Unbuffered
  rw [mem_obtained_snoc, or_iff_left]
  intro hb
  exact hc.ne (hs.grown.fresh c (.inr hb))

/-- A channel is in use when it has been made. -/
theorem chanInUse_new (h0 : σ.nchans ≤ c) (h1 : c < τ.nchans) :
    τ.ChanInUse (tr ++ [(σ, l)]) c := by
  unfold State.ChanInUse
  split_ifs with he
  · rintro ⟨-, hj⟩
    rcases joined_snoc hj with hj | ⟨-, q, hq, t, ht, hchl⟩
    · exact absurd (hK.joined_lt hj) (not_lt.mpr h0)
    · have hlt := hK.called q hq t ht
      rw [hchl] at hlt
      exact absurd hlt (not_lt.mpr h0)
  · refine hs.grown.user ?_ c h0 h1
    rw [Option.eq_none_iff_forall_ne_some]
    intro c' hc'
    obtain ⟨rfl, hlt⟩ := hs.grown.exit c' hc'
    obtain rfl : c = σ.nchans := hs.grown.fresh c (.inl (hs.grown.chan c h0 h1))
    exact he (mem_exitChans_snoc.mpr (.inr hc'))

omit hK in
/-- What one step does to the use of an exit channel. -/
theorem exit_iff (hc : c < σ.nchans) (he : c ∈ exitChans tr)
    (hP : ¬ σ.Cleared tr c → σ.ChanInUse tr c) :
    (¬ τ.Cleared (tr ++ [(σ, l)]) c → τ.ChanInUse (tr ++ [(σ, l)]) c) ↔
      (Died (tr ++ [(σ, l)]) c → Joined (tr ++ [(σ, l)]) c → σ.Cleared tr c) := by
  rw [cleared_iff hs hc, State.ChanInUse, if_pos ((exitChans_iff hs hc).mpr he)]
  rcases hs.references hc with ⟨-, hfree, -⟩ | ⟨cur, -, hf, hfree, -⟩
  · rw [hfree]
    unfold State.Cleared
    tauto
  · -- a step that frees is not one in which a thread dies or is joined
    have hnot : ¬ (Died (tr ++ [(σ, l)]) c ∧ Joined (tr ++ [(σ, l)]) c) := by
      rintro ⟨hd, hj⟩
      have hd : Died tr c := by
        refine (died_snoc.mp hd).resolve_right ?_
        rintro ⟨t, -, hf', -⟩
        rw [hf] at hf'
        cases hf'
      have hj : Joined tr c := by
        refine (joined_snoc hj).resolve_right ?_
        rintro ⟨⟨t, d, hf'⟩, -⟩
        rw [hf] at hf'
        cases hf'
      rw [State.ChanInUse, if_pos he] at hP
      have hcl : σ.Cleared tr c := by
        by_contra hcl
        exact hP hcl ⟨hd, hj⟩
      rw [hcl.1] at hfree
      cases hfree
    exact iff_of_true (fun _ => hnot) fun hd hj => absurd ⟨hd, hj⟩ hnot

omit hK in
/-- What one step does to the use of another channel. -/
theorem user_iff (hc : c < σ.nchans) (he : c ∉ exitChans tr)
    (hP : ¬ σ.Cleared tr c → σ.ChanInUse tr c) :
    (¬ τ.Cleared (tr ++ [(σ, l)]) c → τ.ChanInUse (tr ++ [(σ, l)]) c) ↔
      ∀ cur, σ.lwtCurrent = some cur → σ.frame l = some (.call (.lwtChanDeref c)) →
        ((σ.chans c).receiver = some cur →
          0 < (σ.chans c).sndCnt ∨ (σ.chans c).sndCnt = 0 ∧ Unbuffered tr c) ∧
        ((σ.chans c).receiver = none →
          1 < (σ.chans c).sndCnt ∨ (σ.chans c).sndCnt = 1 ∧ Unbuffered tr c) := by
  have he' : c ∉ exitChans (tr ++ [(σ, l)]) := fun h => he ((exitChans_iff hs hc).mp h)
  rw [cleared_iff hs hc, State.ChanInUse, if_neg he']
  rw [State.ChanInUse, if_neg he] at hP
  rcases hs.references hc with ⟨hf, hfree, href⟩ | ⟨cur, hcur, hf, hfree, hch⟩
  · refine iff_of_true (fun hnot => href (hP ?_)) fun _ _ h => absurd h hf
    rwa [hfree] at hnot
  · rw [hch, referenced_deref hfree]
    constructor
    · rintro h cur' hcur' -
      obtain rfl := Option.some.inj (hcur.symm.trans hcur')
      exact h
    · exact fun h => h cur hcur hf

omit hK in
theorem deref_lt (hf : σ.frame l = some (.call (.lwtChanDeref c))) : c < σ.nchans := by
  obtain ⟨cur, f, rest, hsec⟩ | ⟨k, rfl, rfl⟩ | ⟨k, mem, rfl, -, hi⟩ := step_cases hs
  · obtain rfl : .call (.lwtChanDeref c) = f := Option.some.inj (hf.symm.trans hsec.frame)
    obtain ⟨⟨σ', n⟩, hb, -⟩ := bind_ok hsec.exec
    exact (lwtChanDeref_ok hb).1
  · cases hf
  · cases hf

theorem step (hK' : Counted (tr ++ [(σ, l)]) τ) (hP : NoneOrphaned tr σ) :
    NoneOrphaned (tr ++ [(σ, l)]) τ ↔ LeavesNone tr σ l := by
  rw [noneOrphaned_iff hK] at hP
  rw [noneOrphaned_iff hK']
  have hold {c : ChanId} (hc : c < σ.nchans) : c < τ.nchans := hc.trans_le hs.grown.nchans
  constructor
  · intro hP'
    refine ⟨fun c he hd hj => ?_, fun c he cur hcur hf => ?_⟩
    · have hc := hK.exit c he
      exact (exit_iff hs hc he (hP c hc)).mp (hP' c (hold hc)) hd hj
    · have hc := deref_lt hs hf
      exact (user_iff hs hc he (hP c hc)).mp (hP' c (hold hc)) cur hcur hf
  · intro hC c hc
    rcases lt_or_ge c σ.nchans with hlt | hge
    · by_cases he : c ∈ exitChans tr
      · exact (exit_iff hs hlt he (hP c hlt)).mpr (hC.exit c he)
      · exact (user_iff hs hlt he (hP c hlt)).mpr (hC.deref c he)
    · exact fun _ => chanInUse_new hK hs hge hc

end LeavesNone

/-- In every run, every block of a thread or a channel is in use or has been given back in every
state if and only if no step leaves a channel behind. -/
theorem none_orphaned_iff (h : Run σ₀ tr σ) (hb : σ₀.Boot k) :
    (∀ i v, (Transition.visited tr σ)[i]? = some v → NoneOrphaned (tr.take i) v) ↔
      ∀ i p, tr[i]? = some p → LeavesNone (tr.take i) p.1 p.2 := by
  refine h.forall_prefix_iff (C := LeavesNone) ?_ ?_
  · rw [noneOrphaned_iff (Run.counted .nil hb)]
    intro c hc _
    obtain rfl := (boot_ok hb).chan_eq hc
    unfold State.ChanInUse
    rw [if_pos (by simp [exitChans])]
    rintro ⟨⟨p, hp, -⟩, -⟩
    cases hp
  · intro tr s l s' hr hP hs
    exact LeavesNone.step (Run.counted hr hb) hs (Run.counted (.snoc hr hs) hb) hP

def keptRun : List Label :=
  [.call (.lwtChan 3 chanMem), .call (.lwtCreateChan 1 createMem), .resume, .resume,
    .call (.lwtChanDeref 1)]

theorem keptRun_leaves_none : (booted.trace keptRun).length = keptRun.length ∧
    ∀ i v, (Transition.visited (booted.trace keptRun) (booted.after keptRun))[i]? = some v →
      NoneOrphaned ((booted.trace keptRun).take i) v := by
  have hdie : ∀ p ∈ booted.trace keptRun, (p.1.frame p.2).map Frame.isDieSnd ≠ some true := by
    decide +kernel
  have hderef : ∀ p ∈ booted.trace keptRun, ∀ c ∈ (p.1.frame p.2).bind Frame.derefs,
      ((p.1.chans c).receiver = p.1.lwtCurrent → 0 < (p.1.chans c).sndCnt) ∧
        (p.1.chans c).receiver ≠ none := by
    decide +kernel
  refine ⟨by decide +kernel, ?_⟩
  refine (none_orphaned_iff (State.run_trace booted keptRun) boot_booted).mpr fun i p hp => ?_
  have hmem := List.mem_of_getElem? hp
  constructor
  · rintro c - ⟨q, hq, t, -, hf, -⟩
    have hq : q ∈ booted.trace keptRun := by
      rcases List.mem_append.mp hq with hq | hq
      · exact List.mem_of_mem_take hq
      · exact List.mem_singleton.mp hq ▸ hmem
    exact absurd (by rw [hf]; rfl) (hdie q hq)
  · rintro c - cur hcur hf
    obtain ⟨hpos, hsome⟩ := hderef p hmem c ((frame_eq_iff Frame.derefs_eq_some).mpr hf)
    exact ⟨fun hr => .inl (hpos (hr.trans hcur.symm)), fun hr => absurd hr hsome⟩

def derefRun : List Label := [.call (.lwtChan 3 chanMem), .call (.lwtChanDeref 1)]

/-- Behind one cycle of `lwt_create` and `lwt_join` the exit channel is left, behind one of
`lwt_chan` and `lwt_chan_deref` the data buffer. -/
theorem cycles_orphan : (booted.trace joinRun).length = joinRun.length ∧
    ((booted.after joinRun).chans 1).freed = false ∧
    ¬ NoneOrphaned (booted.trace joinRun) (booted.after joinRun) ∧
    (booted.trace derefRun).length = derefRun.length ∧
    ((booted.after derefRun).chans 1).freed = true ∧
    ¬ NoneOrphaned (booted.trace derefRun) (booted.after derefRun) := by
  have hlen : (booted.trace joinRun).length = joinRun.length := by decide +kernel
  have hfree : ((booted.after joinRun).chans 1).freed = false := by decide +kernel
  refine ⟨hlen, hfree, fun h => ?_, by decide +kernel, by decide +kernel, fun h => ?_⟩
  · have hobt : .chan 1 ∈ obtained (booted.trace joinRun) := by decide +kernel
    have huse : (booted.after joinRun).ChanInUse (booted.trace joinRun) 1 :=
      h _ hobt (by simp [State.GivenBack, hfree])
    have hlt : 6 < (booted.trace joinRun).length := by
      rw [hlen]
      decide
    have hdie : (booted.trace joinRun)[6]? = some (booted.after (joinRun.take 6), .resume) :=
      trace_getElem? booted rfl hlt
    rw [State.ChanInUse, if_pos (by decide +kernel)] at huse
    refine huse ⟨⟨_, List.mem_of_getElem? hdie, 1, by decide +kernel, ?_, by decide +kernel⟩,
      1, 10, 0, 1, .word 7, joinRun_joins⟩
    have hframe :
        ((booted.after (joinRun.take 6)).frame .resume).map Frame.isDieSnd = some true := by
      decide +kernel
    obtain ⟨f, hf, hdie⟩ := Option.map_eq_some_iff.mp hframe
    rw [Frame.isDieSnd_iff.mp hdie] at hf
    exact hf
  · have hobt : .buffer 1 ∈ obtained (booted.trace derefRun) := by decide +kernel
    have huse : (booted.after derefRun).ChanInUse (booted.trace derefRun) 1 := h _ hobt id
    rw [State.ChanInUse, if_neg (by decide +kernel)] at huse
    revert huse
    unfold Chan.Referenced
    decide +kernel

end Lwt
