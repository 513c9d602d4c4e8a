import Lwt.Dying

/-! A thread structure is used again by `lwt_create` when the thread in it is dead,
and then stands for another thread under the same address. The receiver of a
channel and the parent of a thread are such addresses. Neither `lwt_die` nor
`lwt_create` looks for channels and threads that still hold the address of the
structure that dies or starts anew. -/

namespace Lwt

open State

variable {σ τ σ' σ₀ : State} {l : Label} {cur r t u : ThreadId} {f : Frame} {rest : List Frame}
  {c : ChanId} {k : KthdId} {tr : List (State × Label)} {h h' : List Event}

/-- The structure that the event starts an instance in. -/
def Event.started : Event → Option ThreadId
  | .create _ t _ => some t
  | _ => none

/-- How many instances structure `t` has had. -/
def born (h : List Event) (t : ThreadId) : ℕ := (h.filterMap Event.started).count t

@[simp] theorem born_append (h h' : List Event) (t : ThreadId) :
    born (h ++ h') t = born h t + born h' t := by
  simp [born]

theorem born_eq_zero_of (hn : ∀ e ∈ h, e.started ≠ some t) : born h t = 0 := by
  rw [born, List.count_eq_zero]
  intro hmem
  obtain ⟨e, he, hs⟩ := List.mem_filterMap.mp hmem
  exact hn e he hs

/-- The present instance of structure `r` made channel `c`. -/
def Made (h : List Event) (c : ChanId) (r : ThreadId) : Prop :=
  ∃ h₁ h₂, h = h₁ ++ .chan (some r) c :: h₂ ∧ born h₂ r = 0

/-- The present instance of structure `u` started the present instance of `t`. -/
def Started (h : List Event) (u t : ThreadId) : Prop :=
  ∃ h₁ h₂ i, h = h₁ ++ .create u t i :: h₂ ∧ born (.create u t i :: h₂) u = 0 ∧ born h₂ t = 0

theorem Made.append (hm : Made h c r) (hb : born h' r = 0) : Made (h ++ h') c r := by
  obtain ⟨h₁, h₂, rfl, h0⟩ := hm
  exact ⟨h₁, h₂ ++ h', by simp, by simp [h0, hb]⟩

theorem Started.append (hm : Started h u t) (hu : born h' u = 0) (ht : born h' t = 0) :
    Started (h ++ h') u t := by
  obtain ⟨h₁, h₂, i, rfl, h0, h1⟩ := hm
  refine ⟨h₁, h₂ ++ h', i, by simp, ?_, by simp [h1, ht]⟩
  rw [← List.cons_append, born_append, h0, hu]

/-- Who was started by a structure that has just started anew was not started by its
present instance. -/
theorem not_started_of_concat {i : ℤ} (hne : u ≠ t) :
    ¬ Started (h ++ [.create r u i]) u t := by
  rintro ⟨h₁, h₂, j, he, h0, -⟩
  rcases List.eq_nil_or_concat h₂ with rfl | ⟨h₂, e, rfl⟩
  · obtain ⟨-, hlast⟩ := List.append_inj' he rfl
    simp only [List.cons.injEq, Event.create.injEq] at hlast
    exact hne hlast.1.2.1
  · rw [List.concat_eq_append] at h0 he
    have he : h ++ [.create r u i] = (h₁ ++ .create u t j :: h₂) ++ [e] := by simpa using he
    obtain ⟨-, hlast⟩ := List.append_inj' he rfl
    obtain rfl : .create r u i = e := by simpa using hlast
    rw [← List.cons_append, born_append] at h0
    simp [born, Event.started] at h0

namespace State

def Living (σ : State) (t : ThreadId) : Prop := t < σ.nthreads ∧ (σ.threads t).state ≠ .zombies

instance (σ : State) (t : ThreadId) : Decidable (σ.Living t) := inferInstanceAs (Decidable (_ ∧ _))

/-- Receivers and parents denote the instances that they were set to. -/
structure Identified (σ : State) : Prop where
  receiver : ∀ c < σ.nchans, (σ.chans c).freed = false → ∀ r, (σ.chans c).receiver = some r →
    σ.Living r ∧ Made σ.history c r
  parent : ∀ t, σ.Living t → (σ.threads t).nojoin = false → ∀ u, (σ.threads t).parent = some u →
    Started σ.history u t

def ReceivesNone (σ : State) (t : ThreadId) : Prop :=
  ∀ c < σ.nchans, (σ.chans c).freed = false → (σ.chans c).receiver ≠ some t

/-- Thread `u` is the parent of no living thread that can be joined. -/
def Childless (σ : State) (u : ThreadId) : Prop :=
  ∀ t, σ.Living t → (σ.threads t).nojoin = false → (σ.threads t).parent ≠ some u

instance (σ : State) (t : ThreadId) : Decidable (σ.ReceivesNone t) :=
  inferInstanceAs (Decidable (∀ c < σ.nchans, _))

instance (σ : State) (u : ThreadId) : Decidable (σ.Childless u) :=
  decidable_of_iff (∀ t < σ.nthreads, (σ.threads t).state ≠ .zombies →
    (σ.threads t).nojoin = false → (σ.threads t).parent ≠ some u)
    ⟨fun h t ht => h t ht.1 ht.2, fun h t hlt hz => h t ⟨hlt, hz⟩⟩

end State

/-- If step `l` recycles the running thread, this is the receiver of no channel; if it
starts a thread in a recycled structure, this is the parent of no living thread that
can be joined. -/
structure KeepsIdentity (σ : State) (l : Label) : Prop where
  die : σ.frame l = some .dieSnd → ∀ t, σ.lwtCurrent = some t → σ.ReceivesNone t
  create : ∀ flags mem, σ.frame l = some (.call (.lwtCreate flags mem)) →
    ∀ u, (σ.queues (.recycle σ.currentKthd)).head? = some u → σ.Childless u

namespace Sched

variable {s s' s₁ : Sched} {b : Bool}

/-- Nobody but `lwt_create` wakes the dead. -/
theorem Act.zombie (hp : s.Placed k) (h : s.Act cur f rest b s₁)
    (hf : ∀ flags mem, f ≠ .call (.lwtCreate flags mem)) (ht : t ≠ cur) (hlt : t < s.ntasks)
    (hz : (s.tasks t).state = .zombies) : (s₁.tasks t).state = .zombies := by
  have hwake {u : ThreadId} (hw : s.Wakes f u) : t ≠ u := by
    rintro rfl
    cases hw with
    | handOff c d _ _ hr =>
      have := hr.1
      rw [hz] at this
      cases this
    | sender c _ hq =>
      have := (hp.mem_sender (List.mem_of_mem_head? hq)).2.1.1
      rw [hz] at this
      cases this
    | group c d g _ hg hb ho =>
      exact hp.owner_ne_of_recycle (hp.mem_recycle_iff.mpr ⟨hlt, hz⟩) hg hb ho
  cases h with
  | wake u hw => simpa [hwake hw, ht] using hz
  | wakeSleepSnd u c d _ hw => simpa [hwake hw, ht] using hz
  | recycle u fl mem hcr => exact absurd hcr (hf fl mem)
  | create th fl mem hcr => exact absurd hcr (hf fl mem)
  | adopt u =>
    by_cases hu : t = u
    · subst hu
      simpa [ht] using hz
    · simpa [hu, ht] using hz
  | adoptMove u =>
    by_cases hu : t = u
    · subst hu
      simpa [ht] using hz
    · simpa [hu, ht] using hz
  | _ => simpa [ht] using hz

/-- The dispatch at the end of a section wakes no dead either. -/
theorem Effect.zombie (hp : s.Placed k) (hrun : s.Running k cur) (hat : s.At cur f rest)
    (howner : ∀ g, f = .call (.lwtCgrpWait g) → (s.cgrps g).owner = cur)
    (h : s.Effect cur f rest s') (hf : ∀ flags mem, f ≠ .call (.lwtCreate flags mem))
    (ht : t ≠ cur) (hlt : t < s.ntasks) (hz : (s.tasks t).state = .zombies) :
    (s'.tasks t).state = .zombies := by
  cases h with
  | stay h => exact h.zombie hp hf ht hlt hz
  | switch h hd =>
    have hz' := h.zombie hp hf ht hlt hz
    rcases ((h.placed hp hrun hat howner).1.dispatch_same hd t).state with hst | ⟨hr, -⟩
    · exact hst.trans hz'
    · simp [Task.CanRun, hz'] at hr

end Sched

/-- `lwt_create`, called by `cur` in `σ`, has started a thread in structure `t`. -/
structure Creates (σ τ : State) (cur t : ThreadId) : Prop where
  slot : (σ.queues (.recycle σ.currentKthd)).head? = some t ∨
    σ.queues (.recycle σ.currentKthd) = [] ∧ t = σ.nthreads
  lt : t < τ.nthreads
  le : σ.nthreads ≤ τ.nthreads
  old : ∀ u < τ.nthreads, u ≠ t → u < σ.nthreads
  others : ∀ u, u ≠ t →
    (τ.threads u).state = (σ.threads u).state ∧ (τ.threads u).ident = (σ.threads u).ident
  state : (τ.threads t).state = .running
  parent : (τ.threads t).parent = some cur
  chl : (τ.threads t).chl = σ.nchans
  context : t ≠ cur → (τ.threads t).context = []
  history : ∃ i, τ.history =
    σ.history ++ [.chan (some cur) σ.nchans, .acquire t σ.nchans, .create cur t i]
  nchans : τ.nchans = σ.nchans + 1
  chans : ∀ c, c ≠ σ.nchans → τ.chans c = σ.chans c
  receiver : (τ.chans σ.nchans).receiver = some cur

theorem lwtCreate_creates {flags : ℤ} {mem : CreateMem} (hw : σ.sched.Wired)
    (hcur : σ.lwtCurrent = some cur) (h : σ.lwtCreate cur flags mem = .ok (σ', t)) :
    Creates σ σ' cur t := by
  obtain ⟨σ₁, raw, ha, -, rfl⟩ := lwtCreate_ok h
  cases ha with
  | recycled t rest' hq =>
    have hlt : t < σ.nthreads := hw.lt (q := .recycle σ.currentKthd) (by simp [hq])
    refine ⟨.inl (by simp [hq]), hlt, le_rfl, fun u hu _ => hu, fun u hu => ?_, by simp, by simp,
      by simp, by simp, ⟨σ.lwtCounter, by rw [← hcur]; rfl⟩, rfl, fun c hc => ?_,
      (congrArg Chan.receiver (Function.update_self _ _ _)).trans hcur⟩
    · simp [hu]
    · exact Function.update_of_ne hc _ _
  | fresh raw' stack hq =>
    refine ⟨.inr ⟨hq, rfl⟩, Nat.lt_succ_self _, Nat.le_succ _, fun u hu hne => ?_, fun u hu => ?_,
      by simp, by simp, by simp, by simp, ⟨σ.lwtCounter, by rw [← hcur]; rfl⟩, rfl, fun c hc => ?_,
      (congrArg Chan.receiver (Function.update_self _ _ _)).trans hcur⟩
    · exact lt_of_le_of_ne (Nat.le_of_lt_succ hu) hne
    · simp [hu]
    · exact Function.update_of_ne hc _ _

theorem Section.creates {flags : ℤ} {mem : CreateMem} (hw : σ.sched.Wired)
    (hs : Section σ l τ cur (.call (.lwtCreate flags mem)) rest) : ∃ t, Creates σ τ cur t := by
  obtain ⟨⟨σ', n⟩, hb, hfin⟩ := bind_ok hs.exec
  obtain ⟨⟨σ'', t⟩, hc, hb⟩ := bind_ok hb
  cases hb
  cases hfin
  have h := lwtCreate_creates hw hs.current hc
  have hleave (u : ThreadId) :
      ((σ'.modThread cur fun th => { th with context := rest, eax := .thd t }).threads u).state =
        (σ'.threads u).state ∧
      ((σ'.modThread cur fun th => { th with context := rest, eax := .thd t }).threads u).ident =
        (σ'.threads u).ident := by
    by_cases hu : u = cur
    · subst hu
      simp [Thread.ident]
    · simp [hu]
  refine ⟨t, h.slot, h.lt, h.le, h.old,
    fun u hu => ⟨(hleave u).1.trans (h.others u hu).1, (hleave u).2.trans (h.others u hu).2⟩,
    (hleave t).1.trans h.state, (congrArg Ident.parent (hleave t).2).trans h.parent,
    (congrArg Ident.chl (hleave t).2).trans h.chl, fun ht => ?_, h.history,
    h.nchans, h.chans, h.receiver⟩
  simpa [ht] using h.context ht

/-- The running thread is alive. -/
theorem InPlace.living_cur (h : InPlace σ k) (hcur : σ.lwtCurrent = some cur) : σ.Living cur := by
  have hrun := h.running_cur hcur
  refine ⟨hrun.lt, fun hz => ?_⟩
  rcases hrun.canRun with hst | hst
  · exact absurd (hz.symm.trans hst) (by simp)
  · exact absurd (hz.symm.trans hst) (by simp)

def State.Kin (σ : State) : Prop :=
  ∀ t < σ.nthreads, ∀ u, (σ.threads t).parent = some u → u < σ.nthreads

namespace Creates

variable (hc : Creates σ τ cur t)
include hc

/-- The structure was not in use. -/
theorem not_living (hS : InPlace σ k) : ¬ σ.Living t := by
  rintro ⟨hlt, hz⟩
  rcases hc.slot with hq | ⟨-, rfl⟩
  · have hk : σ.currentKthd = k := hS.placed.kthd
    rw [hk] at hq
    exact hz (hS.placed.mem_recycle_iff.mp (List.mem_of_head? hq)).2
  · exact lt_irrefl _ hlt

theorem living (hu : u ≠ t) (hl : σ.Living u) : τ.Living u :=
  ⟨hl.1.trans_le hc.le, (hc.others u hu).1 ▸ hl.2⟩

theorem living_of (hu : u ≠ t) (hl : τ.Living u) : σ.Living u :=
  ⟨hc.old u hl.1 hu, (hc.others u hu).1 ▸ hl.2⟩

/-- No other structure starts anew. -/
theorem born_other : ∃ es, τ.history = σ.history ++ es ∧ ∀ u, u ≠ t → born es u = 0 := by
  obtain ⟨i, hi⟩ := hc.history
  refine ⟨_, hi, fun u hu => born_eq_zero_of fun e he hst => hu ?_⟩
  simp only [List.mem_cons, List.not_mem_nil, or_false] at he
  rcases he with rfl | rfl | rfl <;> cases hst
  rfl

end Creates

section Sections

variable (hs : Section σ l τ cur f rest)

include hs in
/-- Only `lwt_create` starts an instance. -/
theorem Section.history (hf : ∀ flags mem, f ≠ .call (.lwtCreate flags mem)) :
    ∃ es, τ.history = σ.history ++ es ∧ ∀ u, born es u = 0 := by
  obtain ⟨es, he, hlogs⟩ := (exec_net hs.exec).history
  refine ⟨es, he, fun u => born_eq_zero_of fun e hmem hst => ?_⟩
  cases e with
  | create t u i =>
    obtain ⟨-, flags, mem, hfr⟩ := hlogs _ hmem
    exact hf flags mem hfr
  | _ => cases hst

include hs in
/-- A channel that was freed stays freed. -/
theorem Section.not_freed (hc : c < σ.nchans) (hfree : (τ.chans c).freed = false) :
    (σ.chans c).freed = false := by
  have hch := (exec_net hs.exec).chanEffect hc
  have hfree : (τ.net.chans c).freed = false := hfree
  generalize τ.net.chans c = ch at hch hfree
  cases hch with
  | deref _ h => exact h
  | _ => exact hfree

include hs in
/-- Without `lwt_create` nobody comes to life, and only `lwt_die` ends a life. -/
theorem Section.living_iff (hS : InPlace σ k) (hwd : σ.sched.Wired) (hw : OwnerWaits σ l)
    (hf : ∀ flags mem, f ≠ .call (.lwtCreate flags mem)) :
    τ.Living t ↔ σ.Living t ∧ ¬ (f = .dieSnd ∧ t = cur) := by
  have heff := hS.effect hs
  have hrun := hS.running_cur hs.current
  have hn : τ.nthreads = σ.nthreads := congrArg Roster.nthreads (exec_roster_eq hf hs.exec)
  have hcan {th : Task} (h : th.CanRun) : th.state ≠ .zombies := by
    rcases h with h | h <;> simp [h]
  rw [Living, Living, hn, and_assoc, and_congr_right_iff]
  intro hlt
  by_cases ht : t = cur
  · subst ht
    have hσ : (σ.threads t).state ≠ .zombies := hcan hrun.canRun
    by_cases hd : f = .dieSnd
    · subst hd
      simp [(dieSnd_section hwd hs).1]
    · have hself := heff.self hS.placed hrun hs.at_ (InPlace.owner hw hs)
      have hτ : (τ.sched.tasks t).state ≠ .zombies := by
        generalize τ.sched.tasks t = th at hself
        cases hself with
        | goesOn fs _ _ _ hr => exact hcan hr
        | sleepRcv _ _ _ _ _ hr | sleepGroup _ _ _ _ hr | sleepSnd _ _ _ _ hr => simp [hr.1]
        | die hf => exact absurd hf hd
      exact iff_of_true hτ ⟨hσ, fun h => hd h.1⟩
  · simp only [ht, and_false, not_false_eq_true, and_true]
    constructor
    · exact fun h hz => h (heff.zombie hS.placed hrun hs.at_ (InPlace.owner hw hs) hf ht hlt hz)
    · intro h
      cases heff.other hS.placed hrun hs.at_ (InPlace.owner hw hs) ht hlt with
      | same hsame =>
        rcases hsame.state with he | ⟨-, hr⟩
        · exact fun hz => h (he.symm.trans hz)
        · exact hcan hr
      | woken _ _ _ hr => exact hcan hr
      | started _ _ hr => exact hcan hr

include hs in
/-- A thread goes on as the instance that it was, or `lwt_create` starts one in it. -/
theorem Section.instance_cases (hwd : σ.sched.Wired) (hlt : t < τ.nthreads) :
    (t < σ.nthreads ∧ (τ.threads t).ident = (σ.threads t).ident ∧
      ∃ es, τ.history = σ.history ++ es ∧ born es t = 0) ∨
    Creates σ τ cur t ∧ ∃ flags mem, f = .call (.lwtCreate flags mem) := by
  by_cases hf : ∃ flags mem, f = .call (.lwtCreate flags mem)
  · obtain ⟨flags, mem, rfl⟩ := hf
    obtain ⟨u, hc⟩ := hs.creates hwd
    by_cases htu : t = u
    · exact .inr ⟨htu ▸ hc, flags, mem, rfl⟩
    · obtain ⟨es, he, hborn⟩ := hc.born_other
      exact .inl ⟨hc.old t hlt htu, (hc.others t htu).2, es, he, hborn t htu⟩
  · have hf : ∀ flags mem, f ≠ .call (.lwtCreate flags mem) := by simpa using hf
    have hroster := exec_roster_eq hf hs.exec
    obtain ⟨es, he, hborn⟩ := hs.history hf
    have hn : τ.nthreads = σ.nthreads := congrArg Roster.nthreads hroster
    exact .inl ⟨hn ▸ hlt, congrFun (congrArg Roster.ident hroster) t, es, he, hborn t⟩

include hs in
/-- The channel that a section makes, `lwt_create` apart. -/
theorem Section.made (hf : ∀ flags mem, f ≠ .call (.lwtCreate flags mem))
    (h0 : σ.nchans ≤ c) (h1 : c < τ.nchans) :
    (τ.chans c).receiver = some cur ∧ Made τ.history c cur ∧ f ≠ .dieSnd := by
  have hnet := exec_net hs.exec
  have hcur : σ.lwtCurrent = some cur := hs.current
  obtain ⟨hc, hcr⟩ := hnet.created h0 h1
  subst hc
  have hgoal : (τ.net.chans σ.nchans).receiver = some cur ∧ Made τ.net.history σ.nchans cur ∧
      f ≠ .dieSnd := by
    generalize τ.net = ν at hnet hcr
    generalize hch : ν.chans σ.nchans = ch at hcr
    cases hcr with
    | chan size mem raw hraw hf' =>
      subst hf'
      refine ⟨hcur, ?_, by simp⟩
      cases hnet with
      | same hf => exact hf.elim
      | sleep hf => rcases hf with ⟨_, hf⟩ | ⟨_, hf⟩ <;> cases hf
      | chan => exact ⟨σ.history, [], by simp [hcur], rfl⟩
    | thread flags mem raw hraw hf' => exact absurd hf' (hf flags mem)
  exact hgoal

include hs in
/-- A section that starts no thread keeps receivers and parents apart from a death of
one of them. -/
theorem identified_other (hS : InPlace σ k) (hwd : σ.sched.Wired) (hw : OwnerWaits σ l)
    (hf : ∀ flags mem, f ≠ .call (.lwtCreate flags mem)) (hI : σ.Identified) :
    τ.Identified ↔ KeepsIdentity σ l := by
  have hliv {u : ThreadId} := hs.living_iff (t := u) hS hwd hw hf
  have hroster := exec_roster_eq hf hs.exec
  have hid (u : ThreadId) : (τ.threads u).ident = (σ.threads u).ident :=
    congrFun (congrArg Roster.ident hroster) u
  obtain ⟨es, he, hborn⟩ := hs.history hf
  constructor
  · refine fun hτ => ⟨fun hd t ht c hc hfree hr => ?_, fun flags mem hcr => ?_⟩
    · obtain rfl := Option.some.inj (hs.frame.symm.trans hd)
      have hnet : τ.net = σ.net := by
        have hnet := exec_net hs.exec
        generalize τ.net = ν at hnet
        cases hnet with
        | same => rfl
        | sleep hf => rcases hf with ⟨_, hf⟩ | ⟨_, hf⟩ <;> cases hf
      have hch : τ.chans = σ.chans := congrArg Net.chans hnet
      have hn : τ.nchans = σ.nchans := congrArg Net.nchans hnet
      obtain rfl := Option.some.inj (hs.current.symm.trans ht)
      have hl := (hτ.receiver c (hn ▸ hc) (hch ▸ hfree) cur (hch ▸ hr)).1
      exact (hliv.mp hl).2 ⟨rfl, rfl⟩
    · exact absurd (Option.some.inj (hs.frame.symm.trans hcr)) (hf flags mem)
  · intro hC
    refine ⟨fun c hc hfree r hr => ?_, fun t ht hnj u hu => ?_⟩
    · by_cases hlt : c < σ.nchans
      · have hfree' := hs.not_freed hlt hfree
        have hr' : (σ.chans c).receiver = some r := by
          rcases ((exec_net hs.exec).chanEffect hlt).receiver with h | ⟨-, -, h⟩
          · exact h ▸ hr
          · exact absurd (h.symm.trans hr) (by simp)
        obtain ⟨hl, hm⟩ := hI.receiver c hlt hfree' r hr'
        refine ⟨hliv.mpr ⟨hl, ?_⟩, he ▸ hm.append (hborn r)⟩
        rintro ⟨rfl, rfl⟩
        exact hC.die hs.frame _ hs.current c hlt hfree' hr'
      · obtain ⟨hr', hm, hd⟩ := hs.made hf (not_lt.mp hlt) hc
        obtain rfl := Option.some.inj (hr'.symm.trans hr)
        exact ⟨hliv.mpr ⟨hS.living_cur hs.current, fun h => hd h.1⟩, hm⟩
    · have hid' := hid t
      have hnj' : (σ.threads t).nojoin = false := (congrArg Ident.nojoin hid').symm.trans hnj
      have hu' : (σ.threads t).parent = some u := (congrArg Ident.parent hid').symm.trans hu
      have hst := hI.parent t (hliv.mp ht).1 hnj' u hu'
      exact he ▸ hst.append (hborn u) (hborn t)

/-- If receivers and parents are still told apart, the structure was no parent. -/
theorem Creates.childless (hc : Creates σ τ cur t) (hS : InPlace σ k) (hτ : τ.Identified) :
    σ.Childless t := by
  intro t' hl hnj hp
  have ht' : t' ≠ t := fun h => hc.not_living hS (h ▸ hl)
  have hid := (hc.others t' ht').2
  have hst := hτ.parent t' (hc.living ht' hl)
    ((congrArg Ident.nojoin hid).trans hnj) t ((congrArg Ident.parent hid).trans hp)
  obtain ⟨i, hi⟩ := hc.history
  have hcat : τ.history =
      (σ.history ++ [.chan (some cur) σ.nchans, .acquire t σ.nchans]) ++ [.create cur t i] := by
    simp [hi]
  rw [hcat] at hst
  exact not_started_of_concat ht'.symm hst

/-- The receiver of the new exit channel is the thread that calls `lwt_create`. -/
theorem Creates.made (hc : Creates σ τ cur t) (hS : InPlace σ k) (hI : σ.Identified)
    (hcur : σ.Living cur) {r : ThreadId} (hlt : c < τ.nchans) (hfree : (τ.chans c).freed = false)
    (hr : (τ.chans c).receiver = some r) : τ.Living r ∧ Made τ.history c r := by
  have hne {u : ThreadId} (hu : σ.Living u) : u ≠ t := fun h => hc.not_living hS (h ▸ hu)
  by_cases hcn : c = σ.nchans
  · subst hcn
    obtain rfl := Option.some.inj (hc.receiver.symm.trans hr)
    obtain ⟨i, hi⟩ := hc.history
    refine ⟨hc.living (hne hcur) hcur, σ.history, _, hi, born_eq_zero_of fun e hmem hst => ?_⟩
    simp only [List.mem_cons, List.not_mem_nil, or_false] at hmem
    rcases hmem with rfl | rfl
    · cases hst
    · exact hne hcur (Option.some.inj hst).symm
  · obtain ⟨es, he, hborn⟩ := hc.born_other
    rw [hc.chans c hcn] at hfree hr
    rw [hc.nchans] at hlt
    obtain ⟨hl, hm⟩ := hI.receiver c
      (lt_of_le_of_ne (Nat.le_of_lt_succ hlt) hcn) hfree r hr
    exact ⟨hc.living (hne hl) hl, he ▸ hm.append (hborn r (hne hl))⟩

/-- The parent of the new thread is the thread that calls `lwt_create`; a structure that was no
parent does not become one of another thread. -/
theorem Creates.started (hc : Creates σ τ cur t) (hS : InPlace σ k) (hI : σ.Identified)
    (hcur : σ.Living cur) (hch : σ.Childless t) {t' u : ThreadId} (ht : τ.Living t')
    (hnj : (τ.threads t').nojoin = false) (hu : (τ.threads t').parent = some u) :
    Started τ.history u t' := by
  by_cases htt : t' = t
  · subst htt
    obtain rfl := Option.some.inj (hc.parent.symm.trans hu)
    obtain ⟨i, hi⟩ := hc.history
    refine ⟨σ.history ++ [.chan (some cur) σ.nchans, .acquire t' σ.nchans], [], i,
      by simp [hi], born_eq_zero_of fun e hmem hst => ?_, rfl⟩
    obtain rfl := List.mem_singleton.mp hmem
    exact hc.not_living hS ((Option.some.inj hst) ▸ hcur)
  · obtain ⟨es, he, hborn⟩ := hc.born_other
    have hid := (hc.others t' htt).2
    have hl := hc.living_of htt ht
    have hp := (congrArg Ident.parent hid).symm.trans hu
    have hnj' := (congrArg Ident.nojoin hid).symm.trans hnj
    have hut : u ≠ t := by
      rintro rfl
      exact hch t' hl hnj' hp
    exact he ▸ (hI.parent t' hl hnj' u hp).append (hborn u hut) (hborn t' htt)

/-- `lwt_create` keeps receivers and parents apart from a recycled structure that is
still a parent. -/
theorem identified_create {flags : ℤ} {mem : CreateMem}
    (hs : Section σ l τ cur (.call (.lwtCreate flags mem)) rest) (hS : InPlace σ k)
    (hwd : σ.sched.Wired) (hK : σ.Kin) (hI : σ.Identified) :
    τ.Identified ↔ KeepsIdentity σ l := by
  obtain ⟨t, hc⟩ := hs.creates hwd
  have hcur := hS.living_cur hs.current
  constructor
  · intro hτ
    refine ⟨fun hd => ?_, fun _ _ _ u hu => ?_⟩
    · exact absurd (Option.some.inj (hs.frame.symm.trans hd)) (by simp)
    · obtain rfl : u = t := by
        rcases hc.slot with hq | ⟨hq, -⟩
        · exact Option.some.inj (hu.symm.trans hq)
        · simp [hq] at hu
      exact hc.childless hS hτ
  · intro hC
    have hch : σ.Childless t := by
      intro t' hl hnj hp
      rcases hc.slot with hq | ⟨-, rfl⟩
      · exact hC.create flags mem hs.frame t hq t' hl hnj hp
      · exact lt_irrefl _ (hK t' hl.1 _ hp)
    exact ⟨fun c hlt hfree r hr => hc.made hS hI hcur hlt hfree hr,
      fun t' ht hnj u hu => hc.started hS hI hcur hch ht hnj hu⟩

theorem kin_section (hs : Section σ l τ cur f rest) (hcur : cur < σ.nthreads) (hK : σ.Kin) :
    τ.Kin := by
  intro t ht u hu
  have hlt : t < τ.roster.nthreads := ht
  have hpar : (τ.roster.ident t).parent = some u := hu
  have hgoal : u < τ.roster.nthreads := by
    have hroster := hs.roster
    generalize τ.roster = ρ at hroster hlt hpar
    cases hroster with
    | same => exact hK t hlt u hpar
    | recycle flags mem t' hf =>
      by_cases he : t = t'
      · subst he
        obtain rfl : cur = u := by simpa using hpar
        exact hcur
      · exact hK t hlt u (by simpa [he] using hpar)
    | fresh flags mem stack hf =>
      by_cases he : t = σ.nthreads
      · subst he
        obtain rfl : cur = u := by simpa using hpar
        exact Nat.lt_succ_of_lt hcur
      · exact Nat.lt_succ_of_lt
          (hK t (lt_of_le_of_ne (Nat.le_of_lt_succ hlt) he) u (by simpa [he] using hpar))
  exact hgoal

end Sections

section Runs

/-- No section takes a structure for another instance: `lwt_snd` and `lwt_chan_deref` find
the thread that made the channel, and `lwt_join` the one that started the child. -/
structure NoneMistaken (σ : State) (l : Label) : Prop where
  snd : ∀ c d, σ.frame l = some (.call (.lwtSnd c d)) → ∀ r, (σ.chans c).receiver = some r →
    σ.Living r ∧ Made σ.history c r
  deref : ∀ c, σ.frame l = some (.call (.lwtChanDeref c)) → ∀ r, (σ.chans c).receiver = some r →
    σ.Living r ∧ Made σ.history c r
  join : ∀ t, σ.frame l = some (.call (.lwtJoin t)) → σ.Living t → (σ.threads t).nojoin = false →
    ∀ u, (σ.threads t).parent = some u → Started σ.history u t

theorem State.Identified.noneMistaken (hI : σ.Identified) (hs : Section σ l τ cur f rest) :
    NoneMistaken σ l := by
  refine ⟨fun c d hf r hr => ?_, fun c hf r hr => ?_, fun t _ => hI.parent t⟩
  · obtain rfl := Option.some.inj (hs.frame.symm.trans hf)
    obtain ⟨⟨σ', n⟩, hb, -⟩ := bind_ok hs.exec
    obtain ⟨hc, hfree, -⟩ := lwtSnd_ok hb
    exact hI.receiver c hc hfree r hr
  · obtain rfl := Option.some.inj (hs.frame.symm.trans hf)
    obtain ⟨⟨σ', n⟩, hb, -⟩ := bind_ok hs.exec
    obtain ⟨hc, hfree, -, -⟩ := lwtChanDeref_ok hb
    exact hI.receiver c hc hfree r hr

theorem boot_identified (hb : σ.Boot k) : σ.Identified := by
  have h := boot_ok hb
  refine ⟨fun c hc _ r hr => ?_, fun t ht _ u hu => ?_⟩
  · obtain rfl := h.chan_eq hc
    obtain rfl := h.receiver r hr
    refine ⟨⟨by simp [h.nthreads], by simp [h.thread.1]⟩, [], [.acquire 0 0], ?_, rfl⟩
    rw [h.history, hr]
    rfl
  · obtain rfl := h.thread_eq ht.1
    have hp : (σ.threads 0).parent = none := (boot_ident hb).1
    rw [hp] at hu
    cases hu

/-- In the runs of one kernel thread receivers and parents always denote the instances that
they were set to, if and only if no thread dies as the receiver of a channel and no
structure is recycled while it is the parent of a thread that can be joined. No section then
mistakes an instance for another. -/
theorem identity_iff (h : Run σ₀ tr σ) (hb : σ₀.Boot k) (hC : ∀ p ∈ tr, Ordinary p.1 p.2) :
    ((∀ τ ∈ Transition.visited tr σ, τ.Identified) ↔ ∀ p ∈ tr, KeepsIdentity p.1 p.2) ∧
      ((∀ p ∈ tr, KeepsIdentity p.1 p.2) → ∀ p ∈ tr, NoneMistaken p.1 p.2) := by
  have hboot := boot_ok hb
  have hiff : (∀ τ ∈ Transition.visited tr σ, τ.Identified) ↔ ∀ p ∈ tr, KeepsIdentity p.1 p.2 := by
    refine Transition.Run.forall_visited_iff (D := Ordinary) (C := KeepsIdentity)
      (P := State.Identified) (I := fun u => InPlace u k ∧ WellFramed u ∧ u.sched.Wired ∧ u.Kin)
      h hC
      ⟨hboot.inPlace, hboot.wellFramed, boot_wired hb, ?_⟩ (boot_identified hb) ?_ ?_
    · intro t ht u hu
      obtain rfl := hboot.thread_eq ht
      have hp : (σ₀.threads 0).parent = none := (boot_ident hb).1
      rw [hp] at hu
      cases hu
    · rintro s l s' ⟨hS, ht, hw, hK⟩ hD hs
      obtain ⟨cur, f, rest, hsec⟩ := step_local hs hD.1
      exact ⟨hS.step hD.1 hD.2 hs, ht.step hs, wired_step ht hw hs,
        kin_section hsec (hw.current _ _ hsec.current) hK⟩
    · rintro s l s' ⟨hS, ht, hw, hK⟩ hI hD hs
      obtain ⟨cur, f, rest, hsec⟩ := step_local hs hD.1
      by_cases hf : ∃ flags mem, f = .call (.lwtCreate flags mem)
      · obtain ⟨flags, mem, rfl⟩ := hf
        exact identified_create hsec hS hw hK hI
      · exact identified_other hsec hS hw hD.2 (by simpa using hf) hI
  refine ⟨hiff, fun hkeep p hp => ?_⟩
  obtain ⟨tr', s', -, -, hs⟩ := h.of_mem hp
  obtain ⟨cur, f, rest, hsec⟩ := step_local hs (hC p hp).1
  exact (hiff.mpr hkeep p.1 (List.mem_append_left _ (List.mem_map_of_mem hp))).noneMistaken hsec

instance (σ : State) (l : Label) : Decidable (KeepsIdentity σ l) :=
  decidable_of_iff
    (((σ.frame l).any Frame.isDieSnd = true → ∀ t ∈ σ.lwtCurrent, σ.ReceivesNone t) ∧
      ∀ _a ∈ (σ.frame l).bind Frame.creates,
        ∀ u ∈ (σ.queues (.recycle σ.currentKthd)).head?, σ.Childless u) <| by
    rw [forall_frame_iff Frame.creates_eq_some]
    simp only [Option.any_eq_true, Frame.isDieSnd_iff, exists_eq_right]
    exact ⟨fun h => ⟨h.1, fun flags mem => h.2 (flags, mem)⟩,
      fun h => ⟨h.die, fun a => h.create a.1 a.2⟩⟩

def reuseRun : List Label :=
  [.call (.lwtCreate 0 createMem), .call (.lwtJoin 1), .resume, .call (.lwtChan 3 chanMem),
    .call (.lwtChanDeref 2), .call (.lwtDie (.word 7)), .resume, .resume, .resume, .resume, .resume,
    .resume, .call (.lwtCreate 0 createMem)]

theorem reuseRun_identified :
    (∀ τ ∈ Transition.visited (booted.trace reuseRun) (booted.after reuseRun), τ.Identified) ∧
      ∀ p ∈ booted.trace reuseRun, NoneMistaken p.1 p.2 := by
  have hkeep : ∀ p ∈ booted.trace reuseRun, KeepsIdentity p.1 p.2 := by decide +kernel
  have h := identity_iff (run_trace booted reuseRun) boot_booted (by decide +kernel)
  exact ⟨h.1.mpr hkeep, h.2 hkeep⟩

/-- A child starts a grandchild and dies, and its structure is used again. -/
def orphanRun : List Label :=
  [.call (.lwtCreate 0 createMem), .call (.lwtJoin 1), .resume, .call (.lwtCreate 0 createMem),
    .call (.lwtDie (.word 7)), .resume, .resume, .resume, .resume, .resume,
    .resume, .call (.lwtCreate 0 createMem)]

/-- The thread that starts in the structure is taken for the parent of the grandchild. -/
theorem orphanRun_mistaken : (∀ p ∈ booted.trace orphanRun, Ordinary p.1 p.2) ∧
    (booted.after orphanRun).Living 2 ∧ ((booted.after orphanRun).threads 2).parent = some 1 ∧
      ¬ Started (booted.after orphanRun).history 1 2 ∧ ¬ (booted.after orphanRun).Identified := by
  have hlast : (booted.after orphanRun).history.getLast? = some (.create 0 1 3) := by
    decide +kernel
  have hcat := List.dropLast_append_getLast? _ (Option.mem_def.mpr hlast)
  have hno : ¬ Started (booted.after orphanRun).history 1 2 := by
    rw [← hcat]
    exact not_started_of_concat (by decide)
  have hl : (booted.after orphanRun).Living 2 := by decide +kernel
  have hp : ((booted.after orphanRun).threads 2).parent = some 1 := by decide +kernel
  exact ⟨by decide +kernel, hl, hp, hno, fun hI => hno (hI.parent 2 hl (by decide +kernel) 1 hp)⟩

end Runs

end Lwt
