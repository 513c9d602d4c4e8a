import Lwt.Parallel
import Lwt.Identity

/-! What `umalloc` leaves in its blocks. `__init_chan` writes neither `cgroup` nor `ready` nor
`rb_occupied`, and `lwt_cgrp_add`, `lwt_cgrp_rem` and `lwt_snd` read them first. The results of a
sequence of calls are the same for all contents of the blocks exactly if it reads nothing of it. -/

namespace Lwt

open Lockstep

variable {σ σ' τ : State} {l : Label} {cur t : ThreadId} {f : Frame} {rest : List Frame}
  {c : ChanId} {m m' : Leftover}

/-- What a run shows of a state: the threads in their queues, the state of each and the place it is
at, what its last call returned, and where the stack starts on which `lwt_create` started it. -/
structure Seen where
  kthds : KthdId → Kthd
  currentKthd : KthdId
  queues : Rings Queue ThreadId
  state : ThreadId → Status
  context : ThreadId → List Frame
  eax : ThreadId → Data
  initSp : ThreadId → Option ℕ

def State.seen (σ : State) : Seen where
  kthds := σ.kthds
  currentKthd := σ.currentKthd
  queues := σ.queues
  state t := (σ.threads t).state
  context t := (σ.threads t).context.map Frame.bare
  eax t := (σ.threads t).eax
  initSp t := if (σ.threads t).parent = none then none else some (σ.threads t).initSp

theorem State.Alike.seen (h : σ.Alike σ') : σ.seen = σ'.seen := by
  have hsp : σ.seen.initSp = σ'.seen.initSp := by
    funext t
    have ht := h.thread t
    simp only [State.seen, ht.parent]
    split_ifs with hp
    · rfl
    · rw [ht.initSp hp]
  unfold State.seen at hsp ⊢
  simp only [h.kthds, h.currentKthd, h.queues, (h.thread _).state, (h.thread _).context,
    (h.thread _).eax]
  exact congrArg _ hsp

/-- The unwritten fields hold what was in the memory. -/
structure State.Filled (m : Leftover) (σ : State) : Prop where
  chans : ∀ c < σ.nchans, (σ.chans c).cgroup = m.chan.cgroup ∧ (σ.chans c).ready = m.chan.ready ∧
    (σ.chans c).rbOccupied = m.chan.rbOccupied
  mains : ∀ t < σ.nthreads, (σ.threads t).parent = none → (σ.threads t).initSp = m.thread.initSp
  frames : ∀ t, ∀ fr ∈ (σ.threads t).context, fr.fill m = fr

theorem filled_zero (m : Leftover) : State.zero.Filled m where
  chans c hc := absurd hc (Nat.not_lt_zero c)
  mains t ht := absurd ht (Nat.not_lt_zero t)
  frames t fr hfr := by simp [zero_context] at hfr

namespace State

theorem Created.filled {ch : Chan} (h : Created σ f ch) (hf : f.fill m = f) :
    ch.cgroup = m.chan.cgroup ∧ ch.ready = m.chan.ready ∧ ch.rbOccupied = m.chan.rbOccupied := by
  have hraw {mem : ChanMem} {raw : RawChan} (hm : mem.fill m = mem) (hc : mem.chan = some raw) :
      m.chan = raw := by
    simpa [ChanMem.fill, hc] using congrArg ChanMem.chan hm
  cases h with
  | chan size mem raw hc hf' =>
    subst hf'
    have hm : mem.fill m = mem := by simpa [Frame.fill, Call.fill] using hf
    rw [hraw hm hc]
    exact ⟨rfl, rfl, rfl⟩
  | thread flags mem raw hc hf' =>
    subst hf'
    have hm : mem.fill m = mem := by simpa [Frame.fill, Call.fill] using hf
    rw [hraw (congrArg CreateMem.chl hm) hc]
    exact ⟨rfl, rfl, rfl⟩

/-- A thread that `lwt_create` starts has a parent. -/
theorem RosterEffect.mains {ρ : Roster} {sp : ℕ} (h : RosterEffect σ cur f ρ)
    (hm : ∀ t < σ.nthreads, (σ.threads t).parent = none → (σ.threads t).initSp = sp) :
    ∀ t < ρ.nthreads, (ρ.ident t).parent = none → (ρ.ident t).initSp = sp := by
  intro u hu hp
  cases h with
  | same => exact hm u hu hp
  | recycle flags mem t =>
    by_cases hut : u = t
    · simp [hut] at hp
    · simp only [Function.update_of_ne hut] at hp ⊢
      exact hm u hu hp
  | fresh flags mem stack =>
    by_cases hut : u = σ.nthreads
    · simp [hut] at hp
    · simp only [Function.update_of_ne hut] at hp ⊢
      exact hm u (lt_of_le_of_ne (Nat.le_of_lt_succ hu) hut) hp

/-- Only `lwt_create_chan` leaves a call that waits for its memory. -/
theorem Leads.fill_eq {fr : Frame} (h : σ.Leads cur f fr)
    (hf : ∀ c mem, f ≠ .call (.lwtCreateChan c mem)) : fr.fill m = fr := by
  cases fr with
  | call a =>
    cases a with
    | lwtCreate flags mem =>
      obtain ⟨c, mem', rfl⟩ := h
      exact absurd rfl (hf c mem')
    | lwtCreateChan => exact h.elim
    | lwtChan => exact h.elim
    | _ => rfl
  | _ => rfl

end State

namespace State.Filled

variable (h : σ.Filled m) (hu : Untouched σ) (hs : Section σ l τ cur f rest)

include h hs in
theorem frame (hl : l.fill m = l) : f.fill m = f := by
  rcases hs.at_ with hctx | ⟨⟨a, rfl⟩, hctx, -⟩
  · have hctx : (σ.threads cur).context = f :: rest := hctx
    exact h.frames cur f (by rw [hctx]; exact List.mem_cons_self)
  · have hframe := hs.frame
    cases l with
    | call b =>
      obtain rfl : b = a := by simpa [State.frame] using hframe
      simpa [Label.fill, Frame.fill] using hl
    | resume =>
      have hctx : (σ.threads cur).context = [] := hctx
      simp [State.frame, hs.current, hctx] at hframe
    | _ => cases hframe

include h hu hs

theorem section_ (hr : ¬ σ.ReadsLeftover f) (hl : l.fill m = l) : τ.Filled m := by
  have hf := h.frame hs hl
  have hkept := (hu.net hs hr).1
  refine ⟨fun c hc => ?_, (exec_roster hs.exec).mains h.mains, fun t fr hfr => ?_⟩
  · by_cases h0 : c < σ.nchans
    · rw [(hkept c h0).cgroup, (hkept c h0).ready, (hkept c h0).rbOccupied]
      exact h.chans c h0
    · exact ((exec_net hs.exec).created (not_lt.mp h0) hc).2.filled hf
  · by_cases hcc : ∃ c mem, f = .call (.lwtCreateChan c mem)
    · obtain ⟨c, mem, rfl⟩ := hcc
      have hτ : τ = σ.saveContext cur ([.call (.lwtCreate 0 mem), .createChanRet c] ++ rest) :=
        (Except.ok.inj hs.exec).symm
      by_cases ht : t = cur
      · subst ht
        have hctx : (τ.threads t).context =
            .call (.lwtCreate 0 mem) :: .createChanRet c :: rest := by
          simp [hτ, saveContext]
        rw [hctx] at hfr
        rcases List.mem_cons.mp hfr with rfl | hfr
        · simpa [Frame.fill, Call.fill] using hf
        rcases List.mem_cons.mp hfr with rfl | hfr
        · rfl
        · exact h.frames t fr (hs.at_.mem hfr)
      · have hctx : (τ.threads t).context = (σ.threads t).context := by
          simp [hτ, saveContext, ht]
        exact h.frames t fr (hctx ▸ hfr)
    · rcases hu.wellFramed.mem_context hs hfr with hold | ⟨-, hlead⟩
      · exact h.frames t fr hold
      · exact hlead.fill_eq fun c mem hc => hcc ⟨c, mem, hc⟩

end State.Filled

theorem State.Filled.step (h : σ.Filled m) (hu : Untouched σ) (hr : ¬ σ.Reads l)
    (hl : l.fill m = l) (hs : Step σ l τ) : τ.Filled m := by
  obtain ⟨cur, f, rest, hsec⟩ | ⟨k, -, rfl⟩ | ⟨k, mem, rfl, -, hi⟩ := step_cases hs
  · exact h.section_ hu hsec (fun hf => hr ⟨_, hsec.attempt hs, hf⟩) hl
  · exact ⟨h.chans, h.mains, h.frames⟩
  · have hm : mem.fill m = mem := by simpa [Label.fill] using hl
    obtain ⟨raw, hraw, hchan⟩ := initiate_chan hi
    obtain ⟨rawt, hrawt, hroster⟩ := initiate_roster hi
    obtain rfl : m.chan = raw := by
      simpa [CreateMem.fill, ChanMem.fill, hraw] using congrArg (fun x => x.chl.chan) hm
    obtain rfl : m.thread = rawt := by
      simpa [CreateMem.fill, hrawt] using congrArg CreateMem.thread hm
    have hmains : ∀ t < τ.roster.nthreads, (τ.roster.ident t).parent = none →
        (τ.roster.ident t).initSp = m.thread.initSp := by
      rw [hroster]
      intro t ht hp
      by_cases h0 : t = σ.nthreads
      · simp [h0]
      · simp only [Function.update_of_ne h0] at hp ⊢
        exact h.mains t (lt_of_le_of_ne (Nat.le_of_lt_succ ht) h0) hp
    obtain ⟨th, ch, -, hctx, -, -, -, -, -, -, -, -, -, rfl⟩ := initiate_ok hi
    refine ⟨fun c hc => ?_, hmains, fun t fr hfr => ?_⟩
    · by_cases h0 : c = σ.nchans
      · exact h0 ▸ hchan
      · simpa [h0] using h.chans c (lt_of_le_of_ne (Nat.le_of_lt_succ hc) h0)
    · by_cases h0 : t = σ.nthreads
      · simp [h0, hctx] at hfr
      · exact h.frames t fr (by simpa [h0] using hfr)

section Transfer

theorem Thread.Alike.symm {a b : Thread} (h : a.Alike b) : b.Alike a where
  lwtId := h.lwtId.symm
  state := h.state.symm
  parent := h.parent.symm
  messageData := h.messageData.symm
  eax := h.eax.symm
  chl := h.chl.symm
  nojoin := h.nojoin.symm
  ownerKthd := h.ownerKthd.symm
  context := h.context.symm
  blockFor hb := (h.blockFor (h.state ▸ hb)).symm
  nowRcving hb hf :=
    have hb' : a.state = .blocked := h.state ▸ hb
    (h.nowRcving hb' (h.blockFor hb' ▸ hf)).symm
  initSp hp := (h.initSp (h.parent ▸ hp)).symm

theorem Chan.Alike.symm {a b : Chan} (h : a.Alike b) : b.Alike a :=
  ⟨h.chanId.symm, h.type.symm, h.sndCnt.symm, h.receiver.symm, h.tail.symm, h.head.symm, h.cap.symm,
    h.size.symm, h.freed.symm⟩

namespace State.Alike

theorem symm (h : σ.Alike σ') : σ'.Alike σ := by
  cases h with
  | mk threads chans ht hc =>
    exact .mk σ.threads σ.chans (fun t => (ht t).symm) fun c => (hc c).symm

variable (h : σ.Alike σ') {l' : Label} {g : Frame} {k : List Frame}

include h

theorem live (hc : σ.Live c) : σ'.Live c :=
  ⟨h.nchans ▸ hc.1, (h.chan c).freed.trans hc.2⟩

theorem awaits {r : ThreadId} (hw : σ.Awaits r c) : σ'.Awaits r c := by
  obtain ⟨ht, hb, hf, hn⟩ := hw
  have hr := h.thread r
  exact ⟨(h.chan c).type.trans ht, hr.state.trans hb, (hr.blockFor hb).trans hf,
    (hr.nowRcving hb hf).trans hn⟩

theorem attempt (hl : l'.bare = l.bare) (ha : σ.attempt l = some (cur, f, k)) :
    ∃ g k', σ'.attempt l' = some (cur, g, k') ∧ f.Alike g := by
  obtain ⟨cur', hcur, hs⟩ := Option.bind_eq_some_iff.mp ha
  have hcur' : σ'.lwtCurrent = some cur' := h.lwtCurrent.trans hcur
  split_ifs at hs with hb
  have hb' : σ'.kthd.slState ≠ .blocked := by rwa [h.kthd]
  split at hs
  · rename_i a hctx
    cases hs
    cases l' with
    | call b =>
      have hab : a.Alike b := Call.alike_of_bare (by simpa [Label.fill] using hl)
      have hctx' := (h.context_nil cur).mpr hctx
      exact ⟨.call b, [], by simp [State.attempt, hcur', hb', hctx'], .call hab⟩
    | _ => cases hl
  · rename_i f' k' hctx
    cases hs
    cases l' with
    | resume =>
      have hmap := (h.thread cur).context
      rw [hctx, List.map_cons] at hmap
      obtain ⟨g, k', hg, hgf, -⟩ := List.map_eq_cons_iff.mp hmap
      exact ⟨g, k', by simp [State.attempt, hcur', hb', hg], Frame.alike_of_bare hgf⟩
    | _ => cases hl
  · cases hs

theorem readsLeftover (hfg : f.Alike g) (hr : σ.ReadsLeftover f) : σ'.ReadsLeftover g := by
  have hcreate {flags : ℤ} {mem mem' : CreateMem} (hm : mem'.fill .zero = mem.fill .zero)
      (hr : σ.ReadsLeftover (.call (.lwtCreate flags mem))) :
      σ'.ReadsLeftover (.call (.lwtCreate flags mem')) := by
    obtain ⟨hc, t, ht, hp⟩ := hr
    have hc' : mem'.chl.chan.isSome = mem.chl.chan.isSome := by
      simpa [CreateMem.fill, ChanMem.fill] using congrArg (fun x => x.chl.chan.isSome) hm
    refine ⟨hc'.trans hc, t, ?_, (h.thread t).parent.trans hp⟩
    rwa [h.queues, h.currentRecycleQueue]
  have hsame {a : Call} (hr : σ.ReadsLeftover (.call a)) : σ'.ReadsLeftover (.call a) := by
    cases a with
    | lwtCreate flags mem => exact hcreate rfl hr
    | lwtCgrpAdd g c => exact h.live hr
    | lwtCgrpRem g c => exact h.live hr
    | lwtSnd c d =>
      obtain ⟨hlive, r, hrcv, hlt, hw⟩ := hr
      exact ⟨h.live hlive, r, (h.chan c).receiver.trans hrcv, h.nthreads ▸ hlt,
        fun hw' => hw (h.symm.awaits hw')⟩
    | _ => exact hr.elim
  cases hfg with
  | call hab =>
    cases hab with
    | lwtCreate flags hm => exact hcreate hm hr
    | lwtCreateChan => exact hr.elim
    | lwtChan => exact hr.elim
    | same a => exact hsame hr
  | same =>
    cases f with
    | call a => exact hsame hr
    | _ => exact hr.elim

theorem reads (hl : l'.bare = l.bare) (hr : σ.Reads l) : σ'.Reads l' := by
  obtain ⟨⟨cur, f, k⟩, ha, hf⟩ := hr
  obtain ⟨g, k', ha', hfg⟩ := h.attempt hl ha
  exact ⟨_, ha', h.readsLeftover hfg hf⟩

end State.Alike

end Transfer

section Distinct

/-- Blocks that hold other values than zeroed ones, among them a pointer that leads nowhere. -/
def Leftover.garbage (g : CgrpId) : Leftover :=
  ⟨⟨some g, 1, 1, .null⟩, fun _ => .null, ⟨.receiving, none, 1⟩⟩

variable {x y : Result State} {d : Data} {g : CgrpId} {k : List Frame}

theorem seen_ne_of_eax (cur : ThreadId) (d : Data) (hx : ∃ υ, x = .ok υ ∧ (υ.threads cur).eax = d)
    (hy : ∀ υ, y = .ok υ → (υ.threads cur).eax ≠ d) : x.map State.seen ≠ y.map State.seen := by
  obtain ⟨υ, rfl, rfl⟩ := hx
  intro he
  cases y with
  | error e => cases he
  | ok υ' =>
    have hs : υ.seen = υ'.seen := Except.ok.inj he
    exact hy υ' rfl (congrFun (congrArg Seen.eax hs) cur).symm

theorem seen_ne_of_error {e : Fault} (hx : x = .error e) (hy : Avoids e y) :
    x.map State.seen ≠ y.map State.seen := by
  subst hx
  intro he
  cases y with
  | error e' =>
    obtain rfl : e = e' := Except.error.inj he
    exact hy rfl
  | ok υ => cases he

namespace State

theorem exec_of_ret (h : σ.body cur f = .ok (τ, .ret d)) :
    ∃ υ, σ.exec cur f k = .ok υ ∧ (υ.threads cur).eax = d := by
  refine ⟨_, by rw [exec, h]; rfl, ?_⟩
  simp

theorem add_apart (hc : σ.Live c) (hg : (σ.chans c).cgroup ≠ none)
    (hg' : (σ'.chans c).cgroup = none) {k' : List Frame} :
    (σ.exec cur (.call (.lwtCgrpAdd g c)) k).map seen ≠
      (σ'.exec cur (.call (.lwtCgrpAdd g c)) k').map seen := by
  refine seen_ne_of_eax cur (.word (-1)) (exec_of_ret (τ := σ) ?_) fun υ hυ => ?_
  · simp [body, call, lwtCgrpAdd, chan?_eq hc, bind, Except.bind, Option.isSome_iff_ne_none.mpr hg]
  · obtain ⟨⟨υ', n⟩, hb, hfin⟩ := bind_ok hυ
    obtain ⟨ch, hch, hb⟩ := bind_ok hb
    obtain ⟨rfl, -, -⟩ := chan?_ok hch
    rw [hg', if_neg (by simp)] at hb
    obtain ⟨gr, -, hb⟩ := bind_ok hb
    cases hb
    cases hfin
    simp

theorem rem_apart (hc : σ.Live c) (hr : (σ.chans c).ready ≠ 0)
    (hr' : (σ'.chans c).ready = 0) (hg' : (σ'.chans c).cgroup = none) {k' : List Frame} :
    (σ.exec cur (.call (.lwtCgrpRem g c)) k).map seen ≠
      (σ'.exec cur (.call (.lwtCgrpRem g c)) k').map seen := by
  refine seen_ne_of_eax cur (.word 1) (exec_of_ret (τ := σ) ?_) fun υ hυ => ?_
  · simp [body, call, lwtCgrpRem, chan?_eq hc, bind, Except.bind, hr]
  · obtain ⟨⟨υ', n⟩, hb, hfin⟩ := bind_ok hυ
    obtain ⟨ch, hch, hb⟩ := bind_ok hb
    obtain ⟨rfl, -, -⟩ := chan?_ok hch
    rw [hg', if_neg (by simp [hr']), if_pos (by simp)] at hb
    cases hb
    cases hfin
    simp

theorem ringWrite_avoids_of_ne {e : Fault} (h0 : e ≠ .divByZero) (hb : e ≠ .outOfBounds) :
    Avoids e (σ.ringWrite c d) :=
  .ite (fun _ => avoids_error.mpr h0.symm) fun _ =>
    .ite (fun _ => avoids_ok) fun _ => avoids_error.mpr hb.symm

section Snd

variable {r : ThreadId} (hc : σ.Live c) (hr : (σ.chans c).receiver = some r) (hlt : r < σ.nthreads)

include hc hr hlt

theorem lwtSnd_local (ht : (σ.chans c).type = .local) (hw : ¬ σ.Awaits r c) :
    σ.lwtSnd cur c d = σ.lwtSndQueue cur c d := by
  have hif : ¬ ((σ.threads r).state = .blocked ∧ (σ.threads r).blockFor = .receiving ∧
      (σ.threads r).nowRcving = some c) := fun h => hw ⟨ht, h⟩
  simp only [lwtSnd, chan?_eq hc, thread?_eq hlt, bind, Except.bind, ht, hr, if_neg hif]
  rw [if_neg (by simp)]

theorem lwtSnd_global (ht : (σ.chans c).type = .global) : σ.lwtSnd cur c d =
    if (σ.chans c).rbOccupied ≠ 0 then .error .lockHeld
    else σ.ringWrite c d >>= fun τ =>
      .ok (τ.emit (.snd cur c d), .goto [.syncSndWakeup c (σ.threads r).ownerKthd]) := by
  rw [lwtSnd, chan?_eq hc]
  simp only [bind, Except.bind, ht, if_true, setChanType_self ht, lwtSyncSnd, chan?_eq hc, hr,
    thread?_eq hlt]

theorem snd_local_apart (ht : (σ.chans c).type = .local) (hw : ¬ σ.Awaits r c)
    (hg : (σ.chans c).cgroup = some g) (hn : σ.ncgrps ≤ g) :
    σ.exec cur (.call (.lwtSnd c d)) k = .error .badPointer := by
  have hbad : (σ.modChan c fun ch => { ch with ready := 1 }).cgrp? g = .error .badPointer :=
    if_pos hn
  have hq : σ.lwtSndQueue cur c d = .error .badPointer := by
    simp only [lwtSndQueue, wakeGroup, hg, hbad, bind, Except.bind]
  simp only [exec, body, call, lwtSnd_local hc hr hlt ht hw, hq, bind, Except.bind]

theorem snd_local_avoids (ht : (σ.chans c).type = .local) (hw : ¬ σ.Awaits r c)
    (hg : (σ.chans c).cgroup = none) :
    Avoids .badPointer (σ.exec cur (.call (.lwtSnd c d)) k) := by
  refine .bind ?_ fun _ _ => finish_avoids (by decide) (by decide)
  simp only [body, call, lwtSnd_local hc hr hlt ht hw, lwtSndQueue, wakeGroup, hg]
  exact .ite (fun _ => .bind (ringWrite_avoids_of_ne (by decide) (by decide)) fun _ _ => avoids_ok)
    fun _ => avoids_ok

theorem snd_global_apart (ht : (σ.chans c).type = .global) (ho : (σ.chans c).rbOccupied ≠ 0) :
    σ.exec cur (.call (.lwtSnd c d)) k = .error .lockHeld := by
  simp only [exec, body, call, lwtSnd_global hc hr hlt ht, if_pos ho, bind, Except.bind]

theorem snd_global_avoids (ht : (σ.chans c).type = .global) (ho : (σ.chans c).rbOccupied = 0) :
    Avoids .lockHeld (σ.exec cur (.call (.lwtSnd c d)) k) := by
  refine .bind ?_ fun _ _ => finish_avoids (by decide) (by decide)
  rw [body, call, lwtSnd_global hc hr hlt ht, if_neg (not_not.mpr ho)]
  exact .bind (ringWrite_avoids_of_ne (by decide) (by decide)) fun _ _ => avoids_ok

end Snd

/-- A thread that is started in a recycled structure starts on the stack it finds there. -/
theorem create_seen (cur : ThreadId) (flags : ℤ) {mem : CreateMem} (k : List Frame)
    (hmem : mem.chl.chan.isSome)
    (ht : (σ.queues σ.currentRecycleQueue).head? = some t) :
    ∃ υ, σ.exec cur (.call (.lwtCreate flags mem)) k = .ok υ ∧
      υ.seen.initSp t = some (σ.threads t).initSp := by
  obtain ⟨υ, hυ⟩ : ∃ υ, σ.exec cur (.call (.lwtCreate flags mem)) k = .ok υ := by
    obtain ⟨raw, hraw⟩ := Option.isSome_iff_exists.mp hmem
    obtain ⟨us, hq⟩ := List.head?_eq_some_iff.mp ht
    have halloc : σ.allocThread mem = .ok (σ.listRem t, t) := by simp [allocThread, hq]
    simp only [exec, body, call, lwtCreate, halloc, initThread, lwtChan, hraw, bind, Except.bind,
      finish]
    exact ⟨_, rfl⟩
  refine ⟨υ, hυ, ?_⟩
  have heff := exec_roster hυ
  generalize hρ : υ.roster = ρ at heff
  cases heff with
  | same hf => exact absurd rfl (hf flags mem)
  | recycle flags' mem' u hf hu =>
    obtain rfl : t = u := Option.some.inj (ht.symm.trans hu)
    have hid := (congrFun (congrArg Roster.ident hρ) t).trans (Function.update_self ..)
    have hp : (υ.threads t).parent = some cur := congrArg Ident.parent hid
    have hsp : (υ.threads t).initSp = (σ.threads t).initSp := congrArg Ident.initSp hid
    simp [seen, hp, hsp]
  | fresh flags' mem' stack hf hq =>
    have hq' : σ.queues σ.currentRecycleQueue = [] := hq
    rw [hq'] at ht
    cases ht

theorem create_apart {flags : ℤ} {mem mem' : CreateMem} {k' : List Frame}
    (hmem : mem.chl.chan.isSome) (hmem' : mem'.chl.chan.isSome)
    (ht : (σ.queues σ.currentRecycleQueue).head? = some t)
    (ht' : (σ'.queues σ'.currentRecycleQueue).head? = some t)
    (hsp : (σ.threads t).initSp ≠ (σ'.threads t).initSp) :
    (σ.exec cur (.call (.lwtCreate flags mem)) k).map seen ≠
      (σ'.exec cur (.call (.lwtCreate flags mem')) k').map seen := by
  obtain ⟨υ, hυ, hs⟩ := create_seen cur flags k hmem ht
  obtain ⟨υ', hυ', hs'⟩ := create_seen cur flags k' hmem' ht'
  rw [hυ, hυ']
  intro he
  have hsame : υ.seen = υ'.seen := Except.ok.inj he
  have hsp' := congrFun (congrArg Seen.initSp hsame) t
  rw [hs, hs'] at hsp'
  exact hsp (Option.some.inj hsp')

end State

section Frames

variable {d : Data}

theorem Frame.Alike.cgrpAdd (h : (Frame.call (.lwtCgrpAdd g c)).Alike f) :
    f = .call (.lwtCgrpAdd g c) := by
  cases h with
  | call h => cases h; rfl
  | same => rfl

theorem Frame.Alike.cgrpRem (h : (Frame.call (.lwtCgrpRem g c)).Alike f) :
    f = .call (.lwtCgrpRem g c) := by
  cases h with
  | call h => cases h; rfl
  | same => rfl

theorem Frame.Alike.snd (h : (Frame.call (.lwtSnd c d)).Alike f) : f = .call (.lwtSnd c d) := by
  cases h with
  | call h => cases h; rfl
  | same => rfl

theorem Frame.Alike.create {flags : ℤ} {mem : CreateMem}
    (h : (Frame.call (.lwtCreate flags mem)).Alike f) :
    ∃ mem', f = .call (.lwtCreate flags mem') := by
  cases h with
  | call h =>
    cases h with
    | lwtCreate _ hm => exact ⟨_, rfl⟩
    | same => exact ⟨_, rfl⟩
  | same => exact ⟨_, rfl⟩

end Frames

/-- State `τ` is reached like `σ`, with `m` in all blocks. -/
structure Twin (m : Leftover) (σ τ : State) : Prop where
  alike : σ.Alike τ
  untouched : Untouched σ
  untouched' : Untouched τ
  filled : τ.Filled m

theorem bare_fill (m : Leftover) (l : Label) : (l.fill m).bare = l.bare := Label.fill_fill _ _ l

theorem Twin.step (h : Twin m σ τ) (hr : ¬ σ.Reads l) (hm : ∀ c, l ≠ .call (.lwtChanMarkGet c)) :
    Agree (Twin m) (σ.step l) (τ.step (l.fill m)) := by
  refine (h.alike.step h.untouched (bare_fill m l) hr hm).mono (Twin m) fun υ υ' hυ hυ' ha => ?_
  have hr' : ¬ τ.Reads (l.fill m) := fun hr' => hr (h.alike.symm.reads (bare_fill m l).symm hr')
  exact ⟨ha, h.untouched.step hr hυ, h.untouched'.step hr' hυ',
    h.filled.step h.untouched' hr' (by simp) hυ'⟩

/-- A step that reads leftovers shows what they are. -/
theorem Twin.apart {τ' : State} (h : Twin (.garbage σ.ncgrps) σ τ) (h' : Twin .zero σ τ')
    (hr : σ.Reads l) :
    (τ.step (l.fill (.garbage σ.ncgrps))).map State.seen ≠
      (τ'.step (l.fill .zero)).map State.seen := by
  obtain ⟨⟨cur, f, k⟩, ha, hf⟩ := hr
  obtain ⟨g, k', hg, hfg⟩ := h.alike.attempt (bare_fill _ l) ha
  obtain ⟨g', k'', hg', hfg'⟩ := h'.alike.attempt (bare_fill _ l) ha
  have hread := h.alike.readsLeftover hfg hf
  have hread' := h'.alike.readsLeftover hfg' hf
  rw [(State.attempt_ok hg).2.2, (State.attempt_ok hg').2.2]
  cases f with
  | call a =>
    cases a with
    | lwtCgrpAdd g c =>
      obtain rfl := hfg.cgrpAdd
      obtain rfl := hfg'.cgrpAdd
      exact State.add_apart hread (by simp [(h.filled.chans c hread.1).1, Leftover.garbage])
        (h'.filled.chans c hread'.1).1
    | lwtCgrpRem g c =>
      obtain rfl := hfg.cgrpRem
      obtain rfl := hfg'.cgrpRem
      obtain ⟨hgr, hready, -⟩ := h'.filled.chans c hread'.1
      exact State.rem_apart hread (by simp [(h.filled.chans c hread.1).2.1, Leftover.garbage])
        hready hgr
    | lwtSnd c d =>
      obtain rfl := hfg.snd
      obtain rfl := hfg'.snd
      obtain ⟨hlive, r, hr, hlt, hw⟩ := hread
      obtain ⟨hlive', r', hr', hlt', hw'⟩ := hread'
      obtain ⟨hgr, -, hocc⟩ := h.filled.chans c hlive.1
      obtain ⟨hgr', -, hocc'⟩ := h'.filled.chans c hlive'.1
      have htype : (τ'.chans c).type = (τ.chans c).type :=
        (h'.alike.chan c).type.trans (h.alike.chan c).type.symm
      cases ht : (τ.chans c).type with
      | «local» =>
        refine seen_ne_of_error (e := .badPointer) ?_ ?_
        · exact State.snd_local_apart hlive hr hlt ht hw hgr h.alike.ncgrps.le
        · exact State.snd_local_avoids hlive' hr' hlt' (htype.trans ht) hw' hgr'
      | global =>
        refine seen_ne_of_error (e := .lockHeld) ?_ ?_
        · exact State.snd_global_apart hlive hr hlt ht (by simp [hocc, Leftover.garbage])
        · exact State.snd_global_avoids hlive' hr' hlt' (htype.trans ht) hocc'
    | lwtCreate flags mem =>
      obtain ⟨mem₁, rfl⟩ := hfg.create
      obtain ⟨mem₂, rfl⟩ := hfg'.create
      obtain ⟨hm, t, ht, hp⟩ := hread
      obtain ⟨hm', t', ht', hp'⟩ := hread'
      have hq : τ'.queues τ'.currentRecycleQueue = τ.queues τ.currentRecycleQueue := by
        rw [h'.alike.queues, h'.alike.currentRecycleQueue, h.alike.queues,
          h.alike.currentRecycleQueue]
      obtain rfl : t' = t := Option.some.inj (ht'.symm.trans (hq ▸ ht))
      refine State.create_apart hm hm' ht ht' ?_
      rw [h.filled.mains t' (h.untouched'.wired.lt (List.mem_of_head? ht)) hp,
        h'.filled.mains t' (h'.untouched'.wired.lt (List.mem_of_head? ht')) hp']
      simp [Leftover.garbage, Leftover.zero]
    | _ => exact hf.elim
  | _ => exact hf.elim

end Distinct

/-- What the steps of a run from zeroed memory show, to the first that fails. -/
def shown (ls : List Label) : List (Result Seen) := outcomes State.step State.seen State.zero ls

/-- The steps of a run show the same, whatever is in the blocks that `umalloc` returns, if and only
if none of them reads a field that nothing has been written to. -/
theorem leftovers_iff {ls : List Label} (hm : ∀ l ∈ ls, ∀ c, l ≠ .call (.lwtChanMarkGet c)) :
    (∀ ls', ls'.map Label.bare = ls.map Label.bare → shown ls' = shown ls) ↔
      ∀ p ∈ tried State.step State.zero ls, ¬ p.1.Reads p.2 := by
  constructor
  · intro h
    have hfill (m : Leftover) : shown (ls.map (Label.fill m)) = shown ls :=
      h _ (by simp [Function.comp_def])
    refine forall_tried_of_outcomes_eq State.seen (R := Twin) (t := fun _ => State.zero)
      (P := fun l => ∀ c, l ≠ .call (.lwtChanMarkGet c)) (fun m σ τ l hT hl hC => hT.step hC hl)
      (fun σ l hC => ?_) hm (fun m => ?_) fun m m' => (hfill m).trans (hfill m').symm
    · exact ⟨.garbage σ.ncgrps, .zero, fun τ τ' hT hT' => hT.apart hT' (not_not.mp hC)⟩
    · exact ⟨.refl _, untouched_zero, untouched_zero, filled_zero m⟩
  · intro h ls' hls
    refine (outcomes_eq (R := fun σ τ => σ.Alike τ ∧ Untouched σ)
      (K := fun l l' => l'.bare = l.bare)
      (C := fun σ l => ¬ σ.Reads l ∧ ∀ c, l ≠ .call (.lwtChanMarkGet c))
      (fun σ τ hR => hR.1.seen) (fun σ τ l l' hR hl hC => ?_) ?_ ⟨.refl _, untouched_zero⟩
      fun p hp => ⟨h p hp, hm p.2 (mem_of_mem_tried hp)⟩).symm
    · refine (hR.1.step hR.2 hl hC.1 hC.2).mono _ fun υ υ' hυ _ ha => ⟨ha, hR.2.step hC.1 hυ⟩
    · rw [← List.forall₂_eq_eq_eq, List.forall₂_map_left_iff, List.forall₂_map_right_iff] at hls
      exact hls.flip

def meetRun : List Label :=
  [.initiate 1 createMem, .switch 1, .call (.lwtChan 0 chanMem), .call (.lwtCreate 0 createMem),
    .call (.lwtRcv 1), .call (.lwtSnd 1 (.word 5)), .call (.lwtYield none), .resume,
    .call (.lwtJoin 1), .resume, .call (.lwtDie (.word 7)), .resume, .resume, .resume, .resume,
    .resume, .resume]

theorem meetRun_shown :
    (∀ ls', ls'.map Label.bare = meetRun.map Label.bare → shown ls' = shown meetRun) ∧
      (shown meetRun).map Except.toBool = List.replicate 17 true :=
  ⟨(leftovers_iff (by simp [meetRun])).mpr (by decide +kernel), by decide +kernel⟩

def addRun (m : Leftover) : List Label :=
  [.initiate 1 createMem, .switch 1, .call (.lwtChan 1 (chanMem.fill m)), .call (.lwtCgrp true),
    .call (.lwtCgrpAdd 0 1)]

/-- `lwt_cgrp_add` returns `0` for a new channel in a zeroed block, and `-1` for one in a block that
was a channel of a group before. -/
theorem add_depends : ¬ ∀ ls ls' : List Label, ls'.map Label.bare = ls.map Label.bare →
    shown ls' = shown ls := by
  intro h
  have hsame := h (addRun .zero) (addRun (.garbage 0)) rfl
  have heax := congrArg (fun os => os.map fun o => o.toOption.map fun s => s.eax 0) hsame
  exact absurd heax (by decide)

end Lwt
