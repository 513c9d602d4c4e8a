import Lwt.Groups
import Lwt.Departure

/-! `lwt_cgrp_free`. Its first loop is to look for a channel with an event, but its `return`
stands outside the `if`, so that the first channel ends it whatever its flag says. -/

namespace Lwt

open State

variable {σ τ : State} {l : Label} {cur : ThreadId} {rest : List Frame} {g : CgrpId}

namespace State

def Eventful (σ : State) (g : CgrpId) : Prop := ∃ c ∈ σ.chlLists g, (σ.chans c).ready = 1

instance (σ : State) (g : CgrpId) : Decidable (σ.Eventful g) :=
  inferInstanceAs (Decidable (∃ c ∈ σ.chlLists g, _))

/-- The call has failed and the group is as it was. -/
structure KeepsGroup (σ : State) (cur : ThreadId) (g : CgrpId) (τ : State) : Prop where
  result : (τ.threads cur).eax = .word (-1)
  group : τ.cgrps g = σ.cgrps g
  list : τ.chlLists g = σ.chlLists g
  members : ∀ c ∈ σ.chlLists g, (τ.chans c).cgroup = (σ.chans c).cgroup

/-- The call has succeeded: the group is gone and its channels are in none. -/
structure FreesGroup (σ : State) (cur : ThreadId) (g : CgrpId) (τ : State) : Prop where
  result : (τ.threads cur).eax = .null
  group : (τ.cgrps g).freed = true
  members : ∀ c ∈ σ.chlLists g, (τ.chans c).cgroup = none

/-- Whether the group is freed is decided by its events. -/
structure FreedByEvents (σ : State) (l : Label) (cur : ThreadId) (g : CgrpId) : Prop where
  keeps : σ.Eventful g → ∃ τ, Step σ l τ ∧ σ.KeepsGroup cur g τ
  frees : ¬ σ.Eventful g → ∃ τ, Step σ l τ ∧ σ.FreesGroup cur g τ

/-- A call on a group with channels returns `-1` at the first. -/
theorem lwtCgrpFree_cons {c : ChanId} {cs : List ChanId} (hg : g < σ.ncgrps)
    (hfree : (σ.cgrps g).freed = false) (hcs : σ.chlLists g = c :: cs) :
    σ.lwtCgrpFree g = if c < σ.nchans ∧ (σ.chans c).freed = false then .ok (σ, .ret (.word (-1)))
      else if c < σ.nchans then .error .useAfterFree else .error .badPointer := by
  have hgroup : σ.cgrp? g = .ok (σ.cgrps g) := by simp [cgrp?, hg, hfree]
  simp only [lwtCgrpFree, hgroup, bind, Except.bind, hcs, chan?]
  by_cases hc : c < σ.nchans
  · cases hf : (σ.chans c).freed <;> simp [hc, not_le.mpr hc]
  · simp [hc, not_lt.mp hc]

end State

/-- A group without channels is freed. -/
theorem freedByEvents_nil (ha : σ.attempt l = some (cur, .call (.lwtCgrpFree g), rest))
    (hg : g < σ.ncgrps) (hfree : (σ.cgrps g).freed = false) (hcs : σ.chlLists g = []) :
    σ.FreedByEvents l cur g := by
  obtain ⟨-, -, hstep⟩ := attempt_ok ha
  have hgroup : σ.cgrp? g = .ok (σ.cgrps g) := by simp [cgrp?, hg, hfree]
  have hquiet : ¬ σ.Eventful g := by simp [State.Eventful, hcs]
  refine ⟨fun h => absurd h hquiet, fun _ => ?_⟩
  have hok : σ.step l = .ok ((σ.modCgrp g fun gr => { gr with freed := true }).modThread cur
      fun th => { th with context := rest, eax := .null }) := by
    simp [hstep, State.exec, State.body, State.call, lwtCgrpFree, hgroup, hcs, bind, Except.bind,
      State.finish]
  exact ⟨_, hok, ⟨by simp, by simp, by simp [hcs]⟩⟩

/-- With a first channel that exists a group is never freed. -/
theorem freedByEvents_live (ha : σ.attempt l = some (cur, .call (.lwtCgrpFree g), rest))
    (hcall : σ.lwtCgrpFree g = .ok (σ, .ret (.word (-1)))) :
    σ.FreedByEvents l cur g ↔ σ.Eventful g := by
  obtain ⟨-, -, hstep⟩ := attempt_ok ha
  have hok : σ.step l = .ok (σ.modThread cur fun th =>
      { th with context := rest, eax := .word (-1) }) := by
    simp [hstep, State.exec, State.body, State.call, hcall, bind, Except.bind, State.finish]
  constructor
  · intro h
    by_contra hquiet
    obtain ⟨τ, hs, hτ⟩ := h.frees hquiet
    obtain rfl := Except.ok.inj (hok.symm.trans hs)
    have hresult := hτ.result
    simp at hresult
  · intro hev
    exact ⟨fun _ => ⟨_, hok, ⟨by simp, rfl, rfl, fun _ _ => rfl⟩⟩, fun h => absurd hev h⟩

/-- With a first channel that does not exist the call fails. -/
theorem not_freedByEvents (ha : σ.attempt l = some (cur, .call (.lwtCgrpFree g), rest)) {e : Fault}
    (hcall : σ.lwtCgrpFree g = .error e) : ¬ σ.FreedByEvents l cur g := by
  obtain ⟨-, -, hstep⟩ := attempt_ok ha
  have hfail (τ : State) : ¬ Step σ l τ := by
    intro hs
    rw [Step, hstep] at hs
    obtain ⟨x, hb, -⟩ := bind_ok hs
    simp only [State.body, State.call, hcall] at hb
    cases hb
  intro h
  by_cases hev : σ.Eventful g
  · obtain ⟨τ, hs, -⟩ := h.keeps hev
    exact hfail τ hs
  · obtain ⟨τ, hs, -⟩ := h.frees hev
    exact hfail τ hs

/-- `lwt_cgrp_free` is decided by the events of the group if and only if the group has no channel,
or has an event and its first channel exists. -/
theorem cgrp_free_iff (ha : σ.attempt l = some (cur, .call (.lwtCgrpFree g), rest))
    (hg : g < σ.ncgrps) (hfree : (σ.cgrps g).freed = false) :
    σ.FreedByEvents l cur g ↔ σ.chlLists g = [] ∨ σ.Eventful g ∧
      ∀ c ∈ (σ.chlLists g).head?, c < σ.nchans ∧ (σ.chans c).freed = false := by
  cases hcs : σ.chlLists g with
  | nil => exact iff_of_true (freedByEvents_nil ha hg hfree hcs) (.inl rfl)
  | cons c cs =>
    have hcall := lwtCgrpFree_cons hg hfree hcs
    by_cases hlive : c < σ.nchans ∧ (σ.chans c).freed = false
    · rw [if_pos hlive] at hcall
      rw [freedByEvents_live ha hcall]
      simp [hlive]
    · rw [if_neg hlive] at hcall
      have hnot : ¬ σ.FreedByEvents l cur g := by
        split_ifs at hcall
        · exact not_freedByEvents ha hcall
        · exact not_freedByEvents ha hcall
      simpa [hnot] using fun _ => by simpa using hlive

def eventRun : List Label :=
  [.call (.lwtChan 1 chanMem), .call (.lwtCgrp true), .call (.lwtCgrpAdd 0 1),
    .call (.lwtSnd 1 (.word 5))]

theorem eventRun_keeps :
    (booted.after eventRun).FreedByEvents (.call (.lwtCgrpFree 0)) 0 0 :=
  (cgrp_free_iff (show (booted.after eventRun).attempt _ = some (0, _, []) from rfl)
    (by decide +kernel) (by decide +kernel)).mpr
    (.inr (by decide +kernel))

def idleRun : List Label :=
  [.call (.lwtChan 1 chanMem), .call (.lwtCgrp true), .call (.lwtCgrpAdd 0 1)]

theorem idleRun_not_freed : (booted.after idleRun).chlLists 0 = [1] ∧
    ((booted.after idleRun).chans 1).ready = 0 ∧
    ¬ (booted.after idleRun).FreedByEvents (.call (.lwtCgrpFree 0)) 0 0 := by
  refine ⟨by decide +kernel, by decide +kernel, fun h => ?_⟩
  obtain ⟨τ, hs, hτ⟩ := h.frees (by decide +kernel)
  have hok : ((booted.after idleRun).step (.call (.lwtCgrpFree 0))).map
      (fun τ => (τ.threads 0).eax) = .ok (.word (-1)) := by rfl
  rw [show (booted.after idleRun).step (.call (.lwtCgrpFree 0)) = .ok τ from hs] at hok
  have hres : (τ.threads 0).eax = .word (-1) := Except.ok.inj hok
  rw [hτ.result] at hres
  cases hres

end Lwt
