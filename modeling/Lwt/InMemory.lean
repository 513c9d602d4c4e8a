import Lwt.Groups
import Lwt.Lists
import Lwt.Stacks
import Lwt.Untouched

/-! The run queues, recycle queues and sender queues in the memory of their links, with any number
of kernel threads. Each section makes the list operations of its function; the memory they lead to
is one of disjoint circular lists, and the lists are the queues of the state. A list head is there
from its `list_head_init` until its channel is freed. -/

namespace Lwt

section Memory

variable {H N : Type} {L : Links (H ⊕ N)} {r : Rings H N} {live : Set H} {used : Set N} {h : H}
  {n : N}

/-- What the library does with lists and list heads. -/
inductive LinkOp (H N : Type) where
  | init (h : H)
  | op (o : ListOp H N)

/-- The heads of `live` lead to the lists `r`; the other nodes of `used` are alone. -/
structure InLinks (L : Links (H ⊕ N)) (live : Set H) (used : Set N) (r : Rings H N) : Prop where
  inv : Lists.Inv ⟨L.settle live, r, used⟩ r
  used : ∀ h, ∀ n ∈ r h, n ∈ used
  dead : ∀ h ∉ live, r h = []

namespace InLinks

theorem ring (hI : InLinks L live used r) (hh : h ∈ live) :
    L.Ring (.inl h) ((r h).map .inr) := by
  have hnot : ∀ x ∈ .inl h :: (r h).map .inr, ¬ Links.Dead live x := by
    intro x hx hd
    cases x with
    | inl h' =>
      obtain rfl : h' = h := by simpa using hx
      exact hd hh
    | inr => exact hd
  exact (hI.inv.family.ring h).congr (fun x hx => (Links.settle_next (hnot x hx)).symm)
    fun x hx => (Links.settle_prev (hnot x hx)).symm

theorem forward (hI : InLinks L live used r) (hh : h ∈ live) : Traversal L h (r h) :=
  .of_ring (hI.ring hh)

theorem backward (hI : InLinks L live used r) (hh : h ∈ live) :
    BackTraversal L h (r h).reverse :=
  .of_ring (hI.ring hh)

theorem single (hI : InLinks L live used r) (hn : n ∈ used) (hnot : ∀ h, n ∉ r h) :
    L.Single (.inr n) :=
  Links.settle_single.mp (hI.inv.single n hn hnot)

theorem not_dead (hh : h ∈ live) {x : H ⊕ N}
    (hx : x ∈ .inl h :: (r h).map .inr) : ¬ Links.Dead live x := by
  cases x with
  | inl h' =>
    obtain rfl : h' = h := by simpa using hx
    exact not_not.mpr hh
  | inr => exact id

/-- Heads without a list can come into use and go out of use. -/
theorem congr {live' : Set H} (hI : InLinks L live used r)
    (h : ∀ h, (h ∈ live ↔ h ∈ live') ∨ h ∈ live ∧ r h = []) : InLinks L live' used r := by
  have hsettle : L.settle live = L.settle live' := by
    refine Links.settle_congr fun h' => (h h').imp_right ?_
    rintro ⟨hl, hnil⟩
    have hr := hI.ring hl
    rw [hnil] at hr
    exact ⟨hr.next_head, hr.prev_head (m := []) rfl⟩
  refine ⟨hsettle ▸ hI.inv, hI.used, fun h' hh' => ?_⟩
  rcases h h' with hiff | ⟨-, hnil⟩
  · exact hI.dead h' fun hl => hh' (hiff.mp hl)
  · exact hnil

variable [DecidableEq H] [DecidableEq N]

theorem init (hI : InLinks L live used r) (hh : h ∉ live) :
    InLinks (L.init (.inl h)) (insert h live) used (r.clear h) := by
  have hclear : r.clear h = r := by
    rw [Rings.clear, ← hI.dead h hh, Function.update_eq_self]
  rw [hclear]
  refine ⟨?_, hI.used, fun h' hh' => hI.dead h' fun hl => hh' (Set.mem_insert_of_mem h hl)⟩
  rw [Links.settle_init hh]
  exact hI.inv

/-- A thread on no list is put on one. -/
theorem insert {o : ListOp H N} {x : H ⊕ N} (hI : InLinks L live used r) (hh : h ∈ live)
    (hn : ∀ h, n ∉ r h) (hx : x ∈ .inl h :: (r h).map .inr) (hnode : o.node = n)
    (hrun : ∀ L' : Links (H ⊕ N), L'.prev (.inl h) = L.prev (.inl h) → o.run L' = L'.add x (.inr n))
    (hop : ∀ L' : Links (H ⊕ N), ¬ OnList L' n → o.Allowed L')
    (hmem : ∀ h' m, m ∈ o.rings r h' → m ∈ r h' ∨ m = n ∧ h' = h) :
    InLinks (o.run L) live (insert n used) (o.rings r) := by
  have hx' := not_dead hh hx
  have hp : L.prev x ∈ .inl h :: (r h).map .inr := (hI.ring hh).prev_mem hx
  have hnp : .inr n ≠ L.prev x := by
    intro he
    exact Links.Family.inr_not_mem (hn h) (he ▸ hp)
  have hallowed : Lists.Step ⟨L.settle live, r, used⟩ o _ :=
    ⟨hop _ (hI.inv.not_onList hn), rfl⟩
  have hstep := hI.inv.step hallowed
  refine ⟨?_, fun h' m hm => ?_, fun h' hh' => ?_⟩
  · have hhead := Links.settle_prev (L := L) (not_dead (r := r) hh List.mem_cons_self)
    rw [hrun L rfl, Links.settle_add hx' (not_dead hh hp) hnp, ← hrun _ hhead, ← hnode]
    exact ⟨hstep.family, hstep.single⟩
  · rcases hmem h' m hm with hm | ⟨rfl, -⟩
    · exact Set.mem_insert_of_mem n (hI.used h' m hm)
    · exact Set.mem_insert m used
  · refine List.eq_nil_iff_forall_not_mem.mpr fun m hm => ?_
    rcases hmem h' m hm with hm | ⟨-, rfl⟩
    · rw [hI.dead h' hh'] at hm
      cases hm
    · exact hh' hh

theorem headAdd (hI : InLinks L live used r) (hh : h ∈ live) (hn : ∀ h, n ∉ r h) :
    InLinks ((ListOp.headAdd h n).run L) live (Insert.insert n used) (r.add h n) := by
  refine hI.insert (o := .headAdd h n) hh hn List.mem_cons_self rfl (fun _ _ => rfl)
    (fun _ => id) fun h' m hm => ?_
  rcases Rings.mem_add.mp hm with hm | ⟨rfl, rfl⟩
  · exact .inl hm
  · exact .inr ⟨rfl, rfl⟩

theorem headAppend (hI : InLinks L live used r) (hh : h ∈ live) (hn : ∀ h, n ∉ r h) :
    InLinks ((ListOp.headAppend h n).run L) live (Insert.insert n used) (r.append h n) := by
  refine hI.insert (o := .headAppend h n) hh hn ((hI.ring hh).prev_mem List.mem_cons_self) rfl
    (fun L' hL' => congrArg (L'.add · (.inr n)) hL') (fun _ => id) fun h' m hm => ?_
  rcases Rings.mem_append.mp hm with hm | ⟨rfl, rfl⟩
  · exact .inl hm
  · exact .inr ⟨rfl, rfl⟩

/-- A thread is taken off its list, or was on none. -/
theorem rem (hI : InLinks L live used r) (hn : n ∈ used) :
    InLinks ((ListOp.rem n : ListOp H N).run L) live used (r.rem n) := by
  have hnear : ¬ Links.Dead live (L.next (.inr n)) ∧ ¬ Links.Dead live (L.prev (.inr n)) ∧
      (ListOp.rem n : ListOp H N).Allowed (L.settle live) := by
    by_cases hon : ∃ h, n ∈ r h
    · obtain ⟨h, hnh⟩ := hon
      have hh : h ∈ live := by
        by_contra hh
        rw [hI.dead h hh] at hnh
        cases hnh
      have hx : (.inr n : H ⊕ N) ∈ .inl h :: (r h).map .inr := by simpa using hnh
      exact ⟨not_dead hh ((hI.ring hh).next_mem hx), not_dead hh ((hI.ring hh).prev_mem hx),
        .inl ((onList_iff hI.inv.family).mpr ⟨h, hnh⟩)⟩
    · have hs := hI.single hn (not_exists.mp hon)
      rw [hs.1, hs.2]
      exact ⟨id, id, .inr (Links.settle_single.mpr hs)⟩
  obtain ⟨hnext, hprev, hop⟩ := hnear
  have hallowed : Lists.Step ⟨L.settle live, r, used⟩ (.rem n) _ := ⟨hop, rfl⟩
  have hstep := hI.inv.step hallowed
  refine ⟨?_, fun h' m hm => hI.used h' m (List.mem_of_mem_erase hm), fun h' hh' => ?_⟩
  · rw [ListOp.run, Links.settle_rem hnext hprev]
    exact ⟨hstep.family, fun m hm => hstep.single m (Set.mem_insert_of_mem n hm)⟩
  · rw [Rings.rem_apply, hI.dead h' hh']
    rfl

end InLinks

end Memory

namespace LinkOp

variable {H N : Type} [DecidableEq H] [DecidableEq N]

def run (L : Links (H ⊕ N)) : LinkOp H N → Links (H ⊕ N)
  | .init h => L.init (.inl h)
  | .op o => o.run L

def rings (r : Rings H N) : LinkOp H N → Rings H N
  | .init h => r.clear h
  | .op o => o.rings r

end LinkOp

variable {σ τ σ₀ σ' : State} {l : Label} {cur t : ThreadId} {f : Frame} {rest : List Frame}
  {c : ChanId} {d : Data} {n : Next} {k : KthdId} {tr : List (State × Label)}

namespace State

variable (σ : State) (cur : ThreadId)

def resumeOps (t : ThreadId) : List (LinkOp Queue ThreadId) :=
  [.op (.rem t), .op (.headAppend (σ.ownerRunQueue cur) t)]

def requeueOps : List (LinkOp Queue ThreadId) :=
  if (σ.threads cur).state = .runnable ∨ (σ.threads cur).state = .running then
    [.op (.rem cur), .op (.headAdd (σ.ownerRunQueue cur) cur)]
  else []

def wakeOps (cgroup : Option CgrpId) : List (LinkOp Queue ThreadId) :=
  match cgroup with
  | none => []
  | some g => if (σ.cgrps g).blocked then σ.resumeOps cur (σ.cgrps g).owner else []

/-- `lwt_snd`. A thread that blocks is not linked to a run queue by `lwt_yield`. -/
def sndOps (c : ChanId) : List (LinkOp Queue ThreadId) :=
  let ch := σ.chans c
  if ch.type = .global then []
  else match ch.receiver with
  | none => []
  | some r =>
    if (σ.threads r).task.Receiving ∧ (σ.threads r).nowRcving = some c then σ.resumeOps cur r
    else σ.wakeOps cur ch.cgroup ++
      if ch.buffer.count ≠ ch.size then [] else [.op (.rem cur), .op (.headAdd (.sender c) cur)]

def rcvOps (c : ChanId) : List (LinkOp Queue ThreadId) :=
  let ch := σ.chans c
  if ch.type = .global then []
  else match σ.queues (.sender c) with
  | s :: _ => σ.resumeOps cur s
  | [] => if ch.buffer.count ≠ 0 then [] else [.op (.rem cur)]

def createOps : List (LinkOp Queue ThreadId) :=
  match σ.queues σ.currentRecycleQueue with
  | t :: _ => [.op (.rem t), .init (.sender σ.nchans), .op (.headAdd σ.currentRunQueue t)]
  | [] => [.init (.sender σ.nchans), .op (.headAdd σ.currentRunQueue σ.nthreads)]

def rcvThdOps (rec : Data) : List (LinkOp Queue ThreadId) :=
  match rec with
  | .thd t =>
    if (σ.threads t).state = .runnable then
      (σ.modThread t fun th => { th with ownerKthd := σ.currentKthd }).resumeOps cur t
    else []
  | _ => []

def waitOps (g : CgrpId) : List (LinkOp Queue ThreadId) :=
  match σ.firstReady (σ.chlLists g) with
  | .ok none => [.op (.rem cur)]
  | _ => []

def yieldOps (yieldTo : Option ThreadId) : List (LinkOp Queue ThreadId) :=
  match yieldTo with
  | none => σ.requeueOps cur
  | some t => if t = cur ∨ ¬ (σ.threads t).task.CanRun then [] else σ.resumeOps cur t

/-- The list operations of the section at a frame, in their order. -/
def frameOps : Frame → List (LinkOp Queue ThreadId)
  | .call (.lwtCreate _ _) => σ.createOps
  | .call (.lwtChan _ _) => [.init (.sender σ.nchans)]
  | .call (.lwtYield yieldTo) => σ.yieldOps cur yieldTo
  | .call (.lwtSnd c _) => σ.sndOps cur c
  | .call (.lwtRcv c) => σ.rcvOps cur c
  | .syncRcvBlock _ => [.op (.rem cur)]
  | .cgrpWaitLoop g => σ.waitOps cur g
  | .dieSnd => [.op (.rem cur), .op (.headAdd σ.currentRecycleQueue cur)]
  | .rcvThdRcv => σ.rcvThdOps cur (σ.threads cur).eax
  | _ => []

def initiateOps (k : KthdId) : List (LinkOp Queue ThreadId) :=
  [.init (.run k), .init (.recycle k), .init (.sender σ.nchans),
    .op (.headAppend (.run k) σ.nthreads)]

def stepOps (l : Label) : List (LinkOp Queue ThreadId) :=
  match l with
  | .initiate k _ => σ.initiateOps k
  | _ =>
    match σ.lwtCurrent, σ.frame l with
    | some cur, some f => σ.frameOps cur f
    | _, _ => []

end State

section Folds

variable {H N : Type} [DecidableEq H] [DecidableEq N]

def runOps (L : Links (H ⊕ N)) (ops : List (LinkOp H N)) : Links (H ⊕ N) :=
  ops.foldl LinkOp.run L

def ringOps (r : Rings H N) (ops : List (LinkOp H N)) : Rings H N :=
  ops.foldl LinkOp.rings r

theorem ringOps_append (r : Rings H N) (ops ops' : List (LinkOp H N)) :
    ringOps r (ops ++ ops') = ringOps (ringOps r ops) ops' := List.foldl_append

end Folds

def linksAfter (L : Links (Queue ⊕ ThreadId)) (tr : List (State × Label)) :
    Links (Queue ⊕ ThreadId) :=
  tr.foldl (fun L p => runOps L (p.1.stepOps p.2)) L

/-- The links when the first kernel thread starts, over what was in memory. -/
def bootLinks (k : KthdId) (L : Links (Queue ⊕ ThreadId)) : Links (Queue ⊕ ThreadId) :=
  runOps L (State.zero.initiateOps k)

namespace State

theorem wakeOps_rings {g : Option CgrpId}
    (h : WakeGroup (σ.modChan c fun ch => { ch with ready := 1 }) cur g τ) :
    τ.queues = ringOps σ.queues (σ.wakeOps cur g) := by
  cases h with
  | skip h =>
    cases g with
    | none => rfl
    | some g =>
      have hb : (σ.cgrps g).blocked = false := h g rfl
      simp only [wakeOps, hb, Bool.false_eq_true, if_false]
      rfl
  | wake g hc _ hb =>
    have hb : (σ.cgrps g).blocked = true := hb
    subst hc
    simp only [wakeOps, hb, if_true]
    rfl

theorem sndOps_rings (h : LwtSnd σ cur c d τ n) :
    τ.queues = ringOps σ.queues (σ.sndOps cur c) := by
  cases h with
  | sync r ht =>
    simp only [sndOps, ht, if_true]
    rfl
  | noReceiver ht hr =>
    simp only [sndOps, ht, reduceCtorEq, if_false, hr]
    rfl
  | handOff r ht hr hlt hb hn =>
    have hb' : (σ.threads r).task.Receiving ∧ (σ.threads r).nowRcving = some c := ⟨hb, hn⟩
    have hown : ((σ.modThread r fun th => { th with messageData := d }).threads cur).ownerKthd =
        (σ.threads cur).ownerKthd := by
      by_cases hcr : cur = r
      · subst hcr
        simp
      · simp [hcr]
    simp only [sndOps, ht, reduceCtorEq, if_false, hr, if_pos hb', resumeOps, ownerRunQueue,
      ← hown]
    rfl
  | ring r σ₁ ht hr hb hw hnf =>
    simp only [sndOps, ht, reduceCtorEq, if_false, hr, if_neg hb, if_pos hnf, List.append_nil]
    have hq : σ₁.queues = _ := wakeOps_rings hw
    exact hq
  | block r σ₁ ht hr hb hw hfull =>
    simp only [sndOps, ht, reduceCtorEq, if_false, hr, if_neg hb, ne_eq, hfull, not_true]
    rw [ringOps_append, ← wakeOps_rings hw, blockThread_sending]
    rfl

theorem rcvOps_rings (h : LwtRcv σ cur c τ n) :
    τ.queues = ringOps σ.queues (σ.rcvOps cur c) := by
  cases h with
  | sync r ht =>
    simp only [rcvOps, ht, if_true]
    rfl
  | ring ht hn _ _ hq =>
    simp only [rcvOps, ht, reduceCtorEq, if_false, hq, if_pos hn]
    rfl
  | refill s rest ht _ _ _ hq | sender s rest ht _ hq =>
    simp only [rcvOps, ht, reduceCtorEq, if_false, hq]
    rfl
  | block ht hn hq =>
    rw [blockThread_receiving]
    simp only [rcvOps, ht, reduceCtorEq, if_false, hq, hn, ne_eq, not_true]
    rfl

theorem createOps_rings {flags : ℤ} {mem : CreateMem} (h : σ.lwtCreate cur flags mem = .ok (τ, t)) :
    τ.queues = ringOps σ.queues σ.createOps := by
  obtain ⟨σ₁, raw, ha, -, rfl⟩ := lwtCreate_ok h
  cases ha with
  | recycled t rest hq =>
    have hq : σ.queues σ.currentRecycleQueue = t :: rest := hq
    simp only [createOps, hq]
    rfl
  | fresh raw' stack hq =>
    have hq : σ.queues σ.currentRecycleQueue = [] := hq
    simp only [createOps, hq]
    rfl

theorem yieldOps_rings {yieldTo : Option ThreadId} (h : σ.lwtYield cur yieldTo = .ok (τ, n)) :
    τ.queues = ringOps σ.queues (σ.yieldOps cur yieldTo) := by
  rcases lwtYield_ok h with ⟨rfl, rfl, -⟩ | ⟨t, rfl, -, ⟨ht, rfl, -⟩ | ⟨hne, hr, rfl, -⟩⟩
  · by_cases hr : (σ.threads cur).state = .runnable ∨ (σ.threads cur).state = .running
    · rw [requeue_of_canRun hr, yieldOps, requeueOps, if_pos hr]
      rfl
    · rw [requeue_of_not_canRun hr, yieldOps, requeueOps, if_neg hr]
      rfl
  · rw [yieldOps, if_pos ht]
    rfl
  · rw [yieldOps, if_neg (by tauto)]
    rfl

theorem waitOps_rings {g : CgrpId} (h : σ.lwtCgrpWaitLoop cur g = .ok (τ, n)) :
    τ.queues = ringOps σ.queues (σ.waitOps cur g) := by
  unfold lwtCgrpWaitLoop at h
  obtain ⟨gr, -, h⟩ := bind_ok h
  obtain ⟨o, ho, h⟩ := bind_ok h
  simp only [waitOps, ho]
  cases o with
  | none =>
    cases h
    rw [countBlocked_requeue]
    rfl
  | some c =>
    cases h
    rfl

theorem rcvThdOps_rings {rec : Data} (h : σ.lwtRcvThdRcv cur rec = .ok (τ, n)) :
    τ.queues = ringOps σ.queues (σ.rcvThdOps cur rec) := by
  obtain ⟨t, rfl, -, -, ⟨hr, rfl⟩ | ⟨hr, rfl⟩⟩ := lwtRcvThdRcv_ok h
  · rw [rcvThdOps, if_neg hr]
    rfl
  · rw [rcvThdOps, if_pos hr]
    rfl

theorem call_rings {a : Call} (h : σ.call cur a = .ok (τ, n)) :
    τ.queues = ringOps σ.queues (σ.frameOps cur (.call a)) := by
  cases a with
  | lwtCreate flags mem =>
    obtain ⟨⟨σ'', t⟩, hc, h⟩ := bind_ok h
    cases h
    exact createOps_rings hc
  | lwtChan size mem =>
    obtain ⟨x, hc, h⟩ := bind_ok h
    obtain ⟨raw, -, rfl⟩ := lwtChan_ok hc
    cases h
    rfl
  | lwtYield yieldTo => exact yieldOps_rings h
  | lwtSnd c d => exact sndOps_rings (lwtSnd_ok h).2.2
  | lwtRcv c => exact rcvOps_rings (lwtRcv_ok h).2.2
  | lwtCreateChan | lwtDie | lwtSndChan | lwtRcvChan | lwtRcvThd =>
    cases h
    rfl
  | setChanType | lwtChanMarkSet | lwtChanMarkGet =>
    obtain ⟨ch, -, h⟩ := bind_ok h
    cases h
    rfl
  | lwtJoin t =>
    obtain ⟨th, -, h⟩ := bind_ok h
    split_ifs at h <;> cases h <;> rfl
  | lwtChanDeref c =>
    obtain ⟨-, -, rfl, -⟩ := lwtChanDeref_ok h
    rfl
  | lwtCgrp mem => cases mem <;> cases h <;> rfl
  | lwtCgrpAdd g c => obtain ⟨-, -, ⟨-, rfl⟩ | ⟨-, -, -, -, rfl⟩⟩ := lwtCgrpAdd_ok h <;> rfl
  | lwtCgrpRem g c => obtain ⟨-, -, rfl | ⟨-, -, rfl⟩⟩ := lwtCgrpRem_ok h <;> rfl
  | lwtCgrpFree g => obtain ⟨-, -, rfl | ⟨-, rfl⟩⟩ := lwtCgrpFree_ok h <;> rfl
  | lwtCgrpWait g =>
    obtain ⟨-, rfl, -⟩ := lwtCgrpWait_ok h
    rfl
  | lwtSndThd c t =>
    simp only [call, lwtSndThd] at h
    split_ifs at h
    cases h
    rfl
  | lwtKthdTrampline =>
    simp only [call, lwtKthdTrampline] at h
    split_ifs at h
    cases h
    rfl

/-- A section does to the queues what its list operations do. -/
theorem exec_rings (h : σ.exec cur f rest = .ok τ) :
    τ.queues = ringOps σ.queues (σ.frameOps cur f) := by
  obtain ⟨⟨σ', n⟩, hb, hfin⟩ := bind_ok h
  rw [finish_queues hfin]
  cases f with
  | call a => exact call_rings hb
  | createChanRet c =>
    obtain ⟨t, -, -, -, rfl, -⟩ := lwtCreateChanRet_ok hb
    rfl
  | syncSndWakeup c remote =>
    obtain ⟨-, rfl, -⟩ := lwtSyncSndWakeup_ok hb
    rfl
  | syncRcvLoop c =>
    obtain ⟨-, -, h⟩ := lwtSyncRcvLoop_ok hb
    cases h <;> rfl
  | syncRcvBlock c =>
    cases hb
    rw [countBlocked_requeue]
    rfl
  | cgrpWaitLoop g => exact waitOps_rings hb
  | rcvChanRcv => obtain ⟨-, ⟨-, rfl⟩ | ⟨c, -, -, -, rfl⟩⟩ := lwtRcvChanRcv_ok hb <;> rfl
  | rcvThdRcv => exact rcvThdOps_rings hb
  | kthdLoop =>
    simp only [body, lwtKthdLoop, slThdBlock] at hb
    split_ifs at hb
    · obtain ⟨σ'', hs, hb⟩ := bind_ok hb
      cases hb
      split at hs <;> cases hs <;> rfl
    · cases hb
      rfl
  | died => cases hb
  | sndRet | rcvRet | dieSnd | joinRcv | joinYield | sndChanSnd | sndChanYield | kthdBlocked =>
    cases hb
    rfl

/-- The list heads that are there: those of the kernel threads that have been made, and those of the
channels that have not been freed. -/
def live (σ : State) : Set Queue
  | .run k | .recycle k => (σ.kthds k).currentThread ≠ none
  | .sender c => c < σ.nchans ∧ (σ.chans c).freed = false

@[simp] theorem mem_live_run : .run k ∈ σ.live ↔ (σ.kthds k).currentThread ≠ none := Iff.rfl

@[simp] theorem mem_live_recycle :
    .recycle k ∈ σ.live ↔ (σ.kthds k).currentThread ≠ none := Iff.rfl

@[simp] theorem mem_live_sender :
    .sender c ∈ σ.live ↔ c < σ.nchans ∧ (σ.chans c).freed = false := Iff.rfl

def made (σ : State) : Set ThreadId := {t | t < σ.nthreads}

end State

/-- List operations that move threads there are to list heads there are, or take them off. -/
inductive Relinks (live : Set Queue) (made : Set ThreadId) : List (LinkOp Queue ThreadId) → Prop
  | nil : Relinks live made []
  | rem {ops : List (LinkOp Queue ThreadId)} (t : ThreadId) (ht : t ∈ made)
      (h : Relinks live made ops) : Relinks live made (.op (.rem t) :: ops)
  | add {ops : List (LinkOp Queue ThreadId)} (t : ThreadId) (q : Queue) (ht : t ∈ made)
      (hq : q ∈ live) (h : Relinks live made ops) :
      Relinks live made (.op (.rem t) :: .op (.headAdd q t) :: ops)
  | append {ops : List (LinkOp Queue ThreadId)} (t : ThreadId) (q : Queue) (ht : t ∈ made)
      (hq : q ∈ live) (h : Relinks live made ops) :
      Relinks live made (.op (.rem t) :: .op (.headAppend q t) :: ops)

section Relinked

variable {live : Set Queue} {made : Set ThreadId} {ops ops' : List (LinkOp Queue ThreadId)}
  {L : Links (Queue ⊕ ThreadId)} {r : Rings Queue ThreadId}

theorem Relinks.concat (h : Relinks live made ops) (h' : Relinks live made ops') :
    Relinks live made (ops ++ ops') := by
  induction h with
  | nil => exact h'
  | rem t ht _ ih => exact .rem t ht ih
  | add t q ht hq _ ih => exact .add t q ht hq ih
  | append t q ht hq _ ih => exact .append t q ht hq ih

/-- A thread taken off is on no list. -/
theorem InLinks.not_mem_rem (hI : InLinks L live made r) (t : ThreadId) (q : Queue) :
    t ∉ r.rem t q :=
  (nodup_family hI.inv.family q).not_mem_erase

theorem InLinks.moves (hI : InLinks L live made r) (h : Relinks live made ops) :
    InLinks (runOps L ops) live made (ringOps r ops) := by
  induction h generalizing L r with
  | nil => exact hI
  | rem t ht _ ih => exact ih (hI.rem ht)
  | add t q ht hq _ ih =>
    have h := (hI.rem ht).headAdd hq (hI.not_mem_rem t)
    rw [Set.insert_eq_of_mem ht] at h
    exact ih h
  | append t q ht hq _ ih =>
    have h := (hI.rem ht).headAppend hq (hI.not_mem_rem t)
    rw [Set.insert_eq_of_mem ht] at h
    exact ih h

end Relinked

/-- The kernel thread that owns a thread has been made. -/
def State.Owned (σ : State) : Prop :=
  ∀ t < σ.nthreads, (σ.kthds (σ.threads t).ownerKthd).currentThread ≠ none

/-- The kernel thread that runs a section has been made. -/
theorem Section.kthd_made (hs : Section σ l τ cur f rest) :
    (σ.kthds σ.currentKthd).currentThread ≠ none := by
  intro hnone
  have hc := hs.current
  rw [State.lwtCurrent, State.kthd, hnone] at hc
  cases hc

section Ops

variable (ho : σ.Owned) (hw : σ.sched.Wired) (hs : Section σ l τ cur f rest)

namespace State

include ho in
theorem resumeOps_moves (hcur : cur < σ.nthreads) (ht : t < σ.nthreads) :
    Relinks σ.live σ.made (σ.resumeOps cur t) :=
  .append t _ ht (ho cur hcur) .nil

include ho hw in
theorem wakeOps_moves (hcur : cur < σ.nthreads) {g : Option CgrpId}
    (h : WakeGroup (σ.modChan c fun ch => { ch with ready := 1 }) cur g τ) :
    Relinks σ.live σ.made (σ.wakeOps cur g) := by
  cases h with
  | skip h =>
    cases g with
    | none => exact .nil
    | some g =>
      have hb : (σ.cgrps g).blocked = false := h g rfl
      simp only [wakeOps, hb, Bool.false_eq_true, if_false]
      exact .nil
  | wake g hc hg hb =>
    have hb : (σ.cgrps g).blocked = true := hb
    subst hc
    simp only [wakeOps, hb, if_true]
    exact resumeOps_moves ho hcur (hw.owner g hg)

include ho hw in
theorem sndOps_moves (hcur : cur < σ.nthreads) (hc : c < σ.nchans)
    (hfree : (σ.chans c).freed = false) (h : LwtSnd σ cur c d σ' n) :
    Relinks σ.live σ.made (σ.sndOps cur c) := by
  cases h with
  | sync r ht =>
    simp only [sndOps, ht, if_true]
    exact .nil
  | noReceiver ht hr =>
    simp only [sndOps, ht, reduceCtorEq, if_false, hr]
    exact .nil
  | handOff r ht hr hlt hb hn =>
    have hb' : (σ.threads r).task.Receiving ∧ (σ.threads r).nowRcving = some c := ⟨hb, hn⟩
    simp only [sndOps, ht, reduceCtorEq, if_false, hr, if_pos hb']
    exact resumeOps_moves ho hcur hlt
  | ring r σ₁ ht hr hb hwake hnf =>
    simp only [sndOps, ht, reduceCtorEq, if_false, hr, if_neg hb, if_pos hnf, List.append_nil]
    exact wakeOps_moves ho hw hcur hwake
  | block r σ₁ ht hr hb hwake hfull =>
    simp only [sndOps, ht, reduceCtorEq, if_false, hr, if_neg hb, ne_eq, hfull, not_true]
    exact (wakeOps_moves ho hw hcur hwake).concat (.add cur _ hcur ⟨hc, hfree⟩ .nil)

include ho hw in
theorem rcvOps_moves (hcur : cur < σ.nthreads) : Relinks σ.live σ.made (σ.rcvOps cur c) := by
  cases hq : σ.queues (.sender c) with
  | cons s rest =>
    have hs : s < σ.nthreads := hw.lt (q := .sender c) (by simp [hq])
    simp only [rcvOps, hq]
    split_ifs
    · exact .nil
    · exact resumeOps_moves ho hcur hs
  | nil =>
    simp only [rcvOps, hq]
    split_ifs
    · exact .nil
    · exact .nil
    · exact .rem cur hcur .nil

include ho in
theorem yieldOps_moves (hcur : cur < σ.nthreads) {yieldTo : Option ThreadId}
    (h : σ.lwtYield cur yieldTo = .ok (τ, n)) : Relinks σ.live σ.made (σ.yieldOps cur yieldTo) := by
  cases yieldTo with
  | none =>
    rw [yieldOps, requeueOps]
    split_ifs
    · exact .add cur _ hcur (ho cur hcur) .nil
    · exact .nil
  | some t =>
    obtain ⟨h, -⟩ | ⟨t', ht', hlt, -⟩ := lwtYield_ok h
    · cases h
    · obtain rfl := Option.some.inj ht'
      rw [yieldOps]
      split_ifs
      · exact .nil
      · exact resumeOps_moves ho hcur hlt

theorem waitOps_moves (hcur : cur < σ.nthreads) (g : CgrpId) :
    Relinks σ.live σ.made (σ.waitOps cur g) := by
  unfold waitOps
  split
  · exact .rem cur hcur .nil
  · exact .nil

include ho in
theorem rcvThdOps_moves (hcur : cur < σ.nthreads)
    (hk : (σ.kthds σ.currentKthd).currentThread ≠ none) {rec : Data}
    (h : σ.lwtRcvThdRcv cur rec = .ok (τ, n)) :
    Relinks σ.live σ.made (σ.rcvThdOps cur rec) := by
  obtain ⟨t, rfl, ht, -, -⟩ := lwtRcvThdRcv_ok h
  rw [rcvThdOps]
  split_ifs
  · refine .append t _ ht ?_ .nil
    by_cases hcur' : cur = t
    · subst hcur'
      have hown : ((σ.modThread cur fun th => { th with ownerKthd := σ.currentKthd }).ownerRunQueue
          cur) = .run σ.currentKthd := by simp [ownerRunQueue]
      exact hown ▸ hk
    · have hown : ((σ.modThread t fun th => { th with ownerKthd := σ.currentKthd }).ownerRunQueue
          cur) = σ.ownerRunQueue cur := by simp [ownerRunQueue, hcur']
      exact hown ▸ ho cur hcur
  · exact .nil

end State

include ho hw hs in
/-- The list operations of a section that makes no channel. -/
theorem Section.frameOps_moves (hcreate : ∀ flags mem, f ≠ .call (.lwtCreate flags mem))
    (hchan : ∀ size mem, f ≠ .call (.lwtChan size mem)) :
    Relinks σ.live σ.made (σ.frameOps cur f) := by
  have hcur : cur < σ.nthreads := hw.current _ _ hs.current
  have hk := hs.kthd_made
  obtain ⟨⟨σ', n⟩, hb, -⟩ := bind_ok hs.exec
  cases f with
  | call a =>
    cases a with
    | lwtCreate flags mem => exact absurd rfl (hcreate flags mem)
    | lwtChan size mem => exact absurd rfl (hchan size mem)
    | lwtYield yieldTo => exact State.yieldOps_moves ho hcur hb
    | lwtSnd c d =>
      obtain ⟨hc, hfree, h⟩ := State.lwtSnd_ok hb
      exact State.sndOps_moves ho hw hcur hc hfree h
    | lwtRcv c => exact State.rcvOps_moves ho hw hcur
    | _ => exact .nil
  | syncRcvBlock c => exact .rem cur hcur .nil
  | cgrpWaitLoop g => exact State.waitOps_moves hcur g
  | dieSnd => exact .add cur _ hcur hk .nil
  | rcvThdRcv => exact State.rcvThdOps_moves ho hcur hk hb
  | _ => exact .nil

omit ho in
include hw hs in
/-- The links behind the section of a call that makes a channel. -/
theorem Section.frameOps_made {L : Links (Queue ⊕ ThreadId)}
    (hI : InLinks L σ.live σ.made σ.queues)
    (hf : (∃ flags mem, f = .call (.lwtCreate flags mem)) ∨
      ∃ size mem, f = .call (.lwtChan size mem)) :
    InLinks (runOps L (σ.frameOps cur f)) (insert (.sender σ.nchans) σ.live) τ.made τ.queues := by
  have hnew : (.sender σ.nchans : Queue) ∉ σ.live := fun h => absurd h.1 (lt_irrefl _)
  have hk : (.run σ.currentKthd : Queue) ∈ insert (.sender σ.nchans) σ.live :=
    Set.mem_insert_of_mem _ hs.kthd_made
  rw [State.exec_rings hs.exec]
  obtain ⟨⟨σ', n⟩, hb, hfin⟩ := bind_ok hs.exec
  obtain ⟨flags, mem, rfl⟩ | ⟨size, mem, rfl⟩ := hf
  · obtain ⟨⟨σ'', t⟩, hc, hb⟩ := bind_ok hb
    cases hb
    have hn : τ.nthreads = σ'.nthreads := congrArg Sched.ntasks (State.finish_ret hfin)
    obtain ⟨σ₁, raw, ha, -, rfl⟩ := State.lwtCreate_ok hc
    cases ha with
    | recycled t rest hq =>
      have hq' : σ.queues σ.currentRecycleQueue = t :: rest := hq
      have ht : t ∈ σ.made := hw.lt (q := .recycle σ.currentKthd) (by simp [hq])
      have hmade : τ.made = insert t σ.made := by
        rw [Set.insert_eq_of_mem ht, State.made, hn]
        rfl
      simp only [State.frameOps, State.createOps, hq', hmade]
      exact ((hI.rem ht).init hnew).headAdd hk fun q hmem =>
        hI.not_mem_rem t q (Rings.mem_of_mem_clear hmem)
    | fresh raw' stack hq =>
      have hq' : σ.queues σ.currentRecycleQueue = [] := hq
      have hmade : τ.made = insert σ.nthreads σ.made := by
        rw [State.made, hn]
        exact Set.ext fun t => Nat.lt_succ_iff_lt_or_eq.trans or_comm
      simp only [State.frameOps, State.createOps, hq', hmade]
      exact (hI.init hnew).headAdd hk fun q hmem =>
        lt_irrefl _ (hw.lt (Rings.mem_of_mem_clear hmem))
  · obtain ⟨x, hc, hb⟩ := bind_ok hb
    obtain ⟨raw, -, rfl⟩ := State.lwtChan_ok hc
    cases hb
    have hmade : τ.made = σ.made := by
      have hn : τ.nthreads = σ.nthreads := congrArg Sched.ntasks (State.finish_ret hfin)
      rw [State.made, hn]
      rfl
    rw [hmade]
    exact hI.init hnew

end Ops

section Steps

/-- A section leaves the kernel threads that there are. -/
theorem Section.kthd_iff (ht : WellFramed σ) (hs : Section σ l τ cur f rest) (k : KthdId) :
    (τ.kthds k).currentThread ≠ none ↔ (σ.kthds k).currentThread ≠ none := by
  have heff := ht.effect hs
  refine ⟨fun h hnone => h ?_, fun h hnone => h ((heff.kthd k).2 hnone)⟩
  by_cases hk : k = σ.currentKthd
  · subst hk
    exact absurd hnone hs.kthd_made
  · have hother : (τ.kthds k).currentThread = (σ.kthds k).currentThread := heff.current_other hk
    rw [hother, hnone]

theorem Act.owner {s s₁ : Sched} {b : Bool} (h : s.Act cur f rest b s₁) (ht : t < s₁.ntasks) :
    t < s.ntasks ∧ (s₁.tasks t).ownerKthd = (s.tasks t).ownerKthd ∨
      (s₁.tasks t).ownerKthd = s.currentKthd := by
  have hkeep (tasks : ThreadId → Task) (u : ThreadId) (th : Task)
      (hth : th.ownerKthd = (tasks u).ownerKthd) :
      (Function.update tasks u th t).ownerKthd = (tasks t).ownerKthd := by
    by_cases hu : t = u
    · subst hu
      rw [Function.update_self, hth]
    · rw [Function.update_of_ne hu]
  have hset (u : ThreadId) (th : Task) (hth : th.ownerKthd = s.currentKthd) :
      t ≠ u ∧ (Function.update s.tasks u th t).ownerKthd = (s.tasks t).ownerKthd ∨
        (Function.update s.tasks u th t).ownerKthd = s.currentKthd := by
    by_cases hu : t = u
    · subst hu
      rw [Function.update_self]
      exact .inr hth
    · rw [Function.update_of_ne hu]
      exact .inl ⟨hu, rfl⟩
  cases h with
  | recycle u | adopt u | adoptMove u =>
    rw [Sched.leave_ownerKthd]
    exact (hset u _ rfl).imp_left fun h => ⟨ht, h.2⟩
  | create th =>
    rw [Sched.leave_ownerKthd]
    exact (hset s.ntasks _ rfl).imp_left fun h =>
      ⟨lt_of_le_of_ne (Nat.le_of_lt_succ ht) h.1, h.2⟩
  | wake u => exact .inl ⟨ht, (Sched.leave_ownerKthd ..).trans (hkeep _ u _ rfl)⟩
  | wakeSleepSnd u c =>
    have hsleep : (((s.wake cur u).sleepSnd cur c (.sndRet c :: rest)).tasks t).ownerKthd =
        ((s.wake cur u).tasks t).ownerKthd := hkeep _ cur _ rfl
    exact .inl ⟨ht, hsleep.trans (hkeep _ u _ rfl)⟩
  | sleepRcv | sleepGroup | sleepSnd | die => exact .inl ⟨ht, hkeep _ cur _ rfl⟩
  | _ => exact .inl ⟨ht, Sched.leave_ownerKthd ..⟩

theorem Effect.owner {s s' : Sched} (h : s.Effect cur f rest s') (ht : t < s'.ntasks) :
    t < s.ntasks ∧ (s'.tasks t).ownerKthd = (s.tasks t).ownerKthd ∨
      (s'.tasks t).ownerKthd = s.currentKthd := by
  cases h with
  | stay h => exact Act.owner h ht
  | @switch s₁ _ h hd =>
    obtain ⟨u, l, -, rfl⟩ := hd
    have hrun : ((s₁.run u).tasks t).ownerKthd = (s₁.tasks t).ownerKthd := by
      by_cases hu : t = u
      · subst hu
        simp
      · simp [hu]
    rw [hrun]
    exact Act.owner h ht

theorem State.Owned.step (ho : σ.Owned) (ht : WellFramed σ) (hs : Step σ l τ) : τ.Owned := by
  obtain ⟨cur, f, rest, hs⟩ | ⟨k, rfl, rfl⟩ | ⟨k, mem, rfl, hk, hi⟩ := step_cases hs
  · intro t hlt
    rw [hs.kthd_iff ht]
    rcases Effect.owner (ht.effect hs) hlt with ⟨hlt', hsame⟩ | hcur
    · have hsame : (τ.threads t).ownerKthd = (σ.threads t).ownerKthd := hsame
      rw [hsame]
      exact ho t hlt'
    · have hcur : (τ.threads t).ownerKthd = σ.currentKthd := hcur
      exact hcur ▸ hs.kthd_made
  · exact ho
  · obtain ⟨th, ch, -, -, hown, -, -, -, -, -, -, -, -, rfl⟩ := initiate_ok hi
    intro t hlt
    have hlt : t < σ.nthreads + 1 := hlt
    by_cases hn : t = σ.nthreads
    · subst hn
      simp [hown]
    · have hold := ho t (by omega)
      by_cases hk' : (σ.threads t).ownerKthd = k
      · simp [hn, hk']
      · simpa [hn, hk'] using hold

/-- A call of `lwt_chan_deref` that frees a channel is made when nobody waits to send on it. -/
def FreesEmpty (σ : State) (l : Label) : Prop :=
  ∀ c cur, σ.frame l = some (.call (.lwtChanDeref c)) → σ.lwtCurrent = some cur →
    (State.derefChan cur (σ.chans c)).freed = true → σ.queues (.sender c) = []

theorem Section.stepOps (hs : Section σ l τ cur f rest) : σ.stepOps l = σ.frameOps cur f := by
  have hframe := hs.frame
  cases l with
  | call | resume => simp only [State.stepOps, hs.current, hframe]
  | switch | initiate => cases hframe

theorem Section.derefs (hs : Section σ l τ cur (.call (.lwtChanDeref c)) rest) :
    .sender c ∈ σ.live ∧ τ.chans c = State.derefChan cur (σ.chans c) ∧ τ.queues = σ.queues := by
  have hq : τ.queues = σ.queues := State.exec_rings hs.exec
  obtain ⟨⟨σ', n⟩, hb, hfin⟩ := bind_ok hs.exec
  obtain ⟨hc, hfree, rfl, -⟩ := State.lwtChanDeref_ok hb
  have hnet := congrArg (fun ν => ν.chans c) (State.finish_net hfin)
  exact ⟨⟨hc, hfree⟩, hnet.trans (Function.update_self ..), hq⟩

theorem Section.makes_chan (hs : Section σ l τ cur f rest)
    (hf : (∃ flags mem, f = .call (.lwtCreate flags mem)) ∨
      ∃ size mem, f = .call (.lwtChan size mem)) : σ.nchans < τ.nchans := by
  have hnet := State.exec_net hs.exec
  generalize hν : τ.net = ν at hnet
  have hn : τ.nchans = ν.nchans := by
    rw [← hν]
    rfl
  rw [hn]
  obtain ⟨flags, mem, rfl⟩ | ⟨size, mem, rfl⟩ := hf
  · cases hnet with
    | same hf => exact hf.elim
    | sleep hf => simp at hf
    | thread => exact Nat.lt_succ_self _
  · cases hnet with
    | same hf => exact hf.elim
    | sleep hf => simp at hf
    | chan => exact Nat.lt_succ_self _

theorem Section.made_eq (hs : Section σ l τ cur f rest)
    (hf : ∀ flags mem, f ≠ .call (.lwtCreate flags mem)) : τ.made = σ.made := by
  have hn : τ.nthreads = σ.nthreads := by
    rcases hs.allotment with ⟨-, hn, -⟩ | ⟨s, hs', -⟩
    · exact hn
    · rw [State.allotment, hs.frame] at hs'
      obtain ⟨a, ha, -⟩ := Option.bind_eq_some_iff.mp hs'
      exact absurd (Frame.creates_eq_some.mp ha) (hf _ _)
  rw [State.made, hn]
  rfl

theorem Section.sender_live (hs : Section σ l τ cur f rest)
    (hd : f ≠ .call (.lwtChanDeref c)) :
    .sender c ∈ τ.live ↔ .sender c ∈ σ.live ∨ c = σ.nchans ∧ σ.nchans < τ.nchans := by
  have hnet := State.exec_net hs.exec
  by_cases hc : c < σ.nchans
  · have hfree : (τ.chans c).freed = (σ.chans c).freed := (hnet.chanEffect hc).freed hd
    have hcτ : c < τ.nchans := hc.trans_le hnet.nchans_le
    constructor
    · exact fun h => .inl ⟨hc, hfree ▸ h.2⟩
    · rintro (h | ⟨rfl, -⟩)
      · exact ⟨hcτ, hfree.trans h.2⟩
      · exact absurd hc (lt_irrefl _)
  · constructor
    · intro h
      obtain ⟨rfl, -⟩ := hnet.created (not_lt.mp hc) h.1
      exact .inr ⟨rfl, h.1⟩
    · rintro (h | ⟨rfl, hlt⟩)
      · exact absurd h.1 hc
      · exact ⟨hlt, (hnet.created le_rfl hlt).2.freed⟩

theorem Section.inLinks {L : Links (Queue ⊕ ThreadId)} (ht : WellFramed σ) (hw : σ.sched.Wired)
    (ho : σ.Owned) (hs : Section σ l τ cur f rest) (hI : InLinks L σ.live σ.made σ.queues)
    (hfree : FreesEmpty σ l) :
    InLinks (runOps L (σ.frameOps cur f)) τ.live τ.made τ.queues := by
  have hnet := State.exec_net hs.exec
  by_cases hf : (∃ flags mem, f = .call (.lwtCreate flags mem)) ∨
      ∃ size mem, f = .call (.lwtChan size mem)
  · have hlt := hs.makes_chan hf
    have hlive : τ.live = insert (.sender σ.nchans) σ.live := by
      ext q
      rw [Set.mem_insert_iff]
      cases q with
      | run k | recycle k =>
        exact (hs.kthd_iff ht k).trans (or_iff_right (by simp)).symm
      | sender c =>
        rw [hs.sender_live (by obtain ⟨_, _, rfl⟩ | ⟨_, _, rfl⟩ := hf <;> simp), or_comm]
        simp [hlt]
    rw [hlive]
    exact hs.frameOps_made hw hI hf
  · rw [not_or] at hf
    obtain ⟨hcreate, hchan⟩ := hf
    simp only [not_exists] at hcreate hchan
    have hn : ¬ σ.nchans < τ.nchans := by
      intro hlt
      obtain ⟨size, mem, h⟩ | ⟨flags, mem, h⟩ := (hnet.created le_rfl hlt).2.empty.2.2
      · exact hchan size mem h
      · exact hcreate flags mem h
    rw [hs.made_eq hcreate, State.exec_rings hs.exec]
    refine (hI.moves (hs.frameOps_moves ho hw hcreate hchan)).congr fun q => ?_
    cases q with
    | run k | recycle k => exact .inl (hs.kthd_iff ht k).symm
    | sender c =>
      by_cases hd : f = .call (.lwtChanDeref c)
      · subst hd
        obtain ⟨hlive, hch, hq⟩ := hs.derefs
        by_cases hfr : (State.derefChan cur (σ.chans c)).freed = true
        · exact .inr ⟨hlive, hfree c cur hs.frame hs.current hfr⟩
        · refine .inl (iff_of_true hlive ⟨hlive.1.trans_le hnet.nchans_le, ?_⟩)
          rw [hch]
          simpa using hfr
      · left
        rw [hs.sender_live hd]
        simp [hn]

theorem inLinks_initiate {L : Links (Queue ⊕ ThreadId)} {mem : CreateMem}
    (hw : σ.sched.Wired) (hI : InLinks L σ.live σ.made σ.queues)
    (hk : (σ.kthds k).currentThread = none) (hi : σ.initiate k mem = .ok τ) :
    InLinks (runOps L (σ.initiateOps k)) τ.live τ.made τ.queues := by
  have hrun : (.run k : Queue) ∉ σ.live := not_not.mpr hk
  have hrec : (.recycle k : Queue) ∉ insert (.run k) σ.live := by
    rw [Set.mem_insert_iff, not_or]
    exact ⟨by simp, not_not.mpr hk⟩
  have hsnd : (.sender σ.nchans : Queue) ∉ insert (.recycle k) (insert (.run k) σ.live) := by
    simp only [Set.mem_insert_iff, reduceCtorEq, false_or]
    exact fun h => absurd h.1 (lt_irrefl _)
  have hlive : τ.live =
      insert (.sender σ.nchans) (insert (.recycle k) (insert (.run k) σ.live)) := by
    obtain ⟨th, ch, -, -, -, -, -, -, -, -, -, hfree, -, rfl⟩ := State.initiate_ok hi
    ext q
    simp only [Set.mem_insert_iff]
    cases q with
    | run k' | recycle k' =>
      by_cases hk' : k' = k
      · subst hk'
        simp
      · simp [hk']
    | sender c =>
      by_cases hc : c = σ.nchans
      · subst hc
        simp [hfree]
      · have hlt : c < σ.nchans + 1 ↔ c < σ.nchans :=
          ⟨fun h => lt_of_le_of_ne (Nat.le_of_lt_succ h) hc, Nat.lt_succ_of_lt⟩
        simp [hc, hlt]
  have hfresh : ∀ q, σ.nthreads ∉ (((σ.queues.clear (.run k)).clear (.recycle k)).clear
      (.sender σ.nchans)) q := by
    intro q hq
    have hold := Rings.mem_of_mem_clear (Rings.mem_of_mem_clear (Rings.mem_of_mem_clear hq))
    exact lt_irrefl _ (hw.lt hold)
  have hadd := (((hI.init hrun).init hrec).init hsnd).headAppend (h := .run k) (by simp) hfresh
  have hmade : τ.made = insert σ.nthreads σ.made := by
    obtain ⟨th, ch, -, -, -, -, -, -, -, -, -, -, -, rfl⟩ := State.initiate_ok hi
    exact Set.ext fun t => Nat.lt_succ_iff_lt_or_eq.trans or_comm
  have hq : τ.queues = (((σ.queues.clear (.run k)).clear (.recycle k)).clear
      (.sender σ.nchans)).append (.run k) σ.nthreads := by
    obtain ⟨th, ch, -, -, -, -, -, -, -, -, -, -, -, rfl⟩ := State.initiate_ok hi
    rfl
  rw [hlive, hmade, hq]
  exact hadd

theorem live_switch (σ : State) (k : KthdId) :
    State.live { σ with currentKthd := k } = σ.live := by
  ext q
  cases q <;> rfl

theorem inLinks_step {L : Links (Queue ⊕ ThreadId)} (ht : WellFramed σ) (hw : σ.sched.Wired)
    (ho : σ.Owned) (hI : InLinks L σ.live σ.made σ.queues) (hs : Step σ l τ)
    (hfree : FreesEmpty σ l) : InLinks (runOps L (σ.stepOps l)) τ.live τ.made τ.queues := by
  obtain ⟨cur, f, rest, hs⟩ | ⟨k, rfl, rfl⟩ | ⟨k, mem, rfl, hk, hi⟩ := step_cases hs
  · rw [hs.stepOps]
    exact hs.inLinks ht hw ho hI hfree
  · have hops : σ.stepOps (.switch k) = [] := by
      unfold State.stepOps
      cases σ.lwtCurrent <;> rfl
    rw [live_switch, hops]
    exact hI
  · exact inLinks_initiate hw hI hk hi

end Steps

/-- The queues of the state are in memory: from each list head that is there the links lead
through its threads and back, forwards and backwards; the other threads are linked to themselves,
and nobody waits at a list head that is gone. -/
structure State.InMemory (σ : State) (L : Links (Queue ⊕ ThreadId)) : Prop where
  forward : ∀ q ∈ σ.live, Traversal L q (σ.queues q)
  backward : ∀ q ∈ σ.live, BackTraversal L q (σ.queues q).reverse
  nodup : ∀ q, (σ.queues q).Nodup
  apart : ∀ q q' t, t ∈ σ.queues q → t ∈ σ.queues q' → q = q'
  alone : ∀ t < σ.nthreads, (∀ q, t ∉ σ.queues q) → L.Single (.inr t)
  gone : ∀ q ∉ σ.live, σ.queues q = []

theorem InLinks.inMemory {L : Links (Queue ⊕ ThreadId)} (hI : InLinks L σ.live σ.made σ.queues) :
    σ.InMemory L where
  forward _ := hI.forward
  backward _ := hI.backward
  nodup := nodup_family hI.inv.family
  apart _ _ _ := hI.inv.family.apart
  alone _ := hI.single
  gone := hI.dead

section Runs

variable {L : Links (Queue ⊕ ThreadId)}

theorem boot_owned (hb : σ.Boot k) : σ.Owned := by
  have h := boot_ok hb
  intro t ht
  rw [h.nthreads] at ht
  obtain rfl := Nat.lt_one_iff.mp ht
  rw [h.thread.2.2.1, h.kthd]
  simp

/-- What was in memory before does not matter. -/
theorem boot_inLinks (hb : σ.Boot k) : InLinks (bootLinks k L) σ.live σ.made σ.queues := by
  obtain ⟨mem, τ, hi, hs⟩ := hb
  have hnone : ∀ q, q ∉ State.zero.live := by
    rintro (k | k | c) hq
    · exact hq rfl
    · exact hq rfl
    · exact absurd hq.1 (Nat.not_lt_zero _)
  have hinit : Lists.Initialised ⟨L.settle State.zero.live, fun _ => [], State.zero.made⟩ :=
    ⟨fun q => Links.settle_single_dead (hnone q), fun t ht => absurd ht (Nat.not_lt_zero t),
      fun _ => rfl⟩
  have hzero : InLinks L State.zero.live State.zero.made State.zero.queues :=
    ⟨hinit.inv, fun _ _ ht => absurd ht List.not_mem_nil, fun _ _ => rfl⟩
  simp only [State.step] at hi hs
  split_ifs at hi hs
  cases hs
  rw [live_switch]
  exact inLinks_initiate wired_zero hzero rfl hi

theorem Run.owned (h : Run σ₀ tr σ) (hb : σ₀.Boot k) : WellFramed σ ∧ σ.sched.Wired ∧ σ.Owned := by
  refine Transition.Run.invariant (I := fun σ => WellFramed σ ∧ σ.sched.Wired ∧ σ.Owned) h
    ⟨(boot_ok hb).wellFramed, boot_wired hb, boot_owned hb⟩ ?_
  rintro s l s' ⟨ht, hw, ho⟩ hs
  exact ⟨ht.step hs, wired_step ht hw hs, ho.step ht hs⟩

theorem freesEmpty_of_gone (hs : Step σ l τ) (hgone : ∀ q ∉ τ.live, τ.queues q = []) :
    FreesEmpty σ l := by
  intro c cur hf hcur hfreed
  obtain ⟨cur', f, rest, hs⟩ | ⟨k, rfl, rfl⟩ | ⟨k, mem, rfl, -, hi⟩ := step_cases hs
  · obtain rfl : .call (.lwtChanDeref c) = f := Option.some.inj (hf.symm.trans hs.frame)
    obtain rfl : cur = cur' := Option.some.inj (hcur.symm.trans hs.current)
    obtain ⟨-, hch, hq⟩ := hs.derefs
    rw [← hq]
    refine hgone _ fun hlive => ?_
    rw [State.mem_live_sender, hch, hfreed] at hlive
    cases hlive.2
  · cases hf
  · cases hf

/-- The list heads of a run stay in memory if and only if none is freed with somebody behind it. -/
theorem Run.inLinks_iff (h : Run σ₀ tr σ) (hb : σ₀.Boot k) (L : Links (Queue ⊕ ThreadId)) :
    (∀ i (v : State), (Transition.visited tr σ)[i]? = some v →
      InLinks (linksAfter (bootLinks k L) (tr.take i)) v.live v.made v.queues) ↔
      ∀ (i : ℕ) (p : State × Label), tr[i]? = some p → FreesEmpty p.1 p.2 := by
  refine h.forall_prefix_iff
    (P := fun tr v => InLinks (linksAfter (bootLinks k L) tr) v.live v.made v.queues)
    (C := fun _ s l => FreesEmpty s l) (boot_inLinks hb) fun tr s l s' hr hP hs => ?_
  obtain ⟨ht, hw, ho⟩ := Run.owned hr hb
  refine ⟨fun hP' => freesEmpty_of_gone hs hP'.dead, fun hfree => ?_⟩
  have hstep := inLinks_step ht hw ho hP hs hfree
  rwa [linksAfter, List.foldl_append]

/-- In every run of any kernel threads, the list operations that its sections make keep in memory,
whatever was there at boot, the queues of every state visited, if and only if no call of
`lwt_chan_deref` frees a channel while somebody waits to send on it. -/
theorem lists_in_memory_iff (h : Run σ₀ tr σ) (hb : σ₀.Boot k) (L : Links (Queue ⊕ ThreadId)) :
    (∀ i (v : State), (Transition.visited tr σ)[i]? = some v →
      v.InMemory (linksAfter (bootLinks k L) (tr.take i))) ↔ ∀ p ∈ tr, FreesEmpty p.1 p.2 := by
  constructor
  · rintro hall p hp
    obtain ⟨i, hi⟩ := List.mem_iff_getElem?.mp hp
    have hlt : i + 1 < (Transition.visited tr σ).length := by
      obtain ⟨hlt, -⟩ := List.getElem?_eq_some_iff.mp hi
      simpa [Transition.visited] using hlt
    have hv := List.getElem?_eq_getElem hlt
    exact freesEmpty_of_gone (h.step_visited hi hv) (hall _ _ hv).gone
  · intro hC i v hv
    have hkey := (Run.inLinks_iff h hb L).mpr fun i p hp => hC p (List.mem_of_getElem? hp)
    exact (hkey i v hv).inMemory

instance (σ : State) (l : Label) : Decidable (FreesEmpty σ l) :=
  decidable_of_iff (∀ c ∈ (σ.frame l).bind Frame.derefs, ∀ cur ∈ σ.lwtCurrent,
    (State.derefChan cur (σ.chans c)).freed = true → σ.queues (.sender c) = []) <| by
      rw [forall_frame_iff Frame.derefs_eq_some]
      exact ⟨fun h c cur hf hcur => h c hf cur hcur, fun h c hf cur hcur => h c cur hf hcur⟩

/-- A thread made with channel `1` waits to send on it, and the main thread takes the value. -/
def servedRun : List Label :=
  [.call (.lwtChan 0 chanMem), .call (.lwtCreateChan 1 createMem), .resume, .resume,
    .call (.lwtYield none), .call (.lwtSnd 1 (.word 5)), .call (.lwtRcv 1), .call (.lwtChanDeref 1)]

theorem servedRun_inMemory : (booted.after servedRun).queues (.run 1) = [1, 0] ∧
    ∀ i (v : State),
      (Transition.visited (booted.trace servedRun) (booted.after servedRun))[i]? = some v →
        v.InMemory (linksAfter (bootLinks 1 ⟨id, id⟩) ((booted.trace servedRun).take i)) :=
  ⟨by decide +kernel, (lists_in_memory_iff (State.run_trace booted servedRun) boot_booted
    ⟨id, id⟩).mpr (by decide +kernel)⟩

/-- The main thread frees the channel instead. -/
def unservedRun : List Label :=
  [.call (.lwtChan 0 chanMem), .call (.lwtCreate 0 createMem), .call (.lwtYield none),
    .call (.lwtSnd 1 (.word 5)), .call (.lwtChanDeref 1)]

example : ((booted.after unservedRun).chans 1).freed = true ∧
    (booted.after unservedRun).queues (.sender 1) = [1] := by decide +kernel

end Runs

end Lwt
