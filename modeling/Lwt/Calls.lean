import Lwt.Step

/-! The frame at which the section of a step starts, and what can be read off it:
the conditions under which runs are looked at speak of the calls made in them, and
can be checked on a given run. The readers of a frame give the arguments of the call that is
about to be made there, if it is a call of their kind. -/

namespace Lwt

variable {σ : State} {l : Label} {f : Frame} {α : Type} {p : Frame → Option α} {fr : α → Frame}

/-- The frame at which the section of a step starts. -/
def State.frame (σ : State) : Label → Option Frame
  | .call a => some (.call a)
  | .resume => σ.lwtCurrent.bind fun cur => (σ.threads cur).context.head?
  | _ => none

/-- The section that step `l` tries: the running thread, the frame it comes to and the frames
below it. -/
def State.attempt (σ : State) (l : Label) : Option (ThreadId × Frame × List Frame) :=
  σ.lwtCurrent.bind fun cur =>
    if σ.kthd.slState = .blocked then none
    else match l, (σ.threads cur).context with
    | .call a, [] => some (cur, .call a, [])
    | .resume, f :: k => some (cur, f, k)
    | _, _ => none

theorem State.attempt_ok {cur : ThreadId} {k : List Frame} (h : σ.attempt l = some (cur, f, k)) :
    σ.lwtCurrent = some cur ∧ σ.frame l = some f ∧ σ.step l = σ.exec cur f k := by
  obtain ⟨cur', hcur, hs⟩ := Option.bind_eq_some_iff.mp h
  split_ifs at hs with hb
  split at hs
  · rename_i hctx
    cases hs
    exact ⟨hcur, rfl, by simp [State.step, hcur, hctx, hb]⟩
  · rename_i hctx
    cases hs
    exact ⟨hcur, by simp [State.frame, hcur, hctx], by simp [State.step, hcur, hctx, hb]⟩
  · cases hs

/-- A step from a frame that is made tried the section there. -/
theorem State.attempt_of_frame {τ : State} (h : σ.step l = .ok τ) (hf : σ.frame l = some f) :
    ∃ cur k, σ.attempt l = some (cur, f, k) := by
  cases l with
  | call a =>
    obtain rfl := Option.some.inj hf
    simp only [State.step] at h
    split at h
    · cases h
    · rename_i cur hcur
      split_ifs at h with hc
      exact ⟨cur, [], by simp [State.attempt, hcur, hc.1, hc.2]⟩
  | resume =>
    simp only [State.step] at h
    split at h
    · cases h
    · rename_i cur hcur
      split at h
      · cases h
      · rename_i f' k hctx
        obtain rfl : f' = f := by simpa [State.frame, hcur, hctx] using hf
        split_ifs at h with hc
        exact ⟨cur, k, by simp [State.attempt, hcur, hctx, hc]⟩
  | switch k => cases hf
  | initiate k mem => cases hf

/-- A step that fails for another reason than that it cannot be made tried a section, or
started a kernel thread. -/
theorem State.attempt_of_error {e : Fault} (h : σ.step l = .error e) (he : e ≠ .notReady) :
    (∃ cur f k, σ.attempt l = some (cur, f, k)) ∨ ∃ k mem, l = .initiate k mem := by
  cases l with
  | call a =>
    refine .inl ?_
    simp only [State.step] at h
    split at h
    · cases h
      exact absurd rfl he
    · rename_i cur hcur
      split_ifs at h with hc
      · exact ⟨cur, .call a, [], by simp [State.attempt, hcur, hc.1, hc.2]⟩
      · cases h
        exact absurd rfl he
  | resume =>
    refine .inl ?_
    simp only [State.step] at h
    split at h
    · cases h
      exact absurd rfl he
    · rename_i cur hcur
      split at h
      · cases h
        exact absurd rfl he
      · rename_i f k hctx
        split_ifs at h with hc
        · exact ⟨cur, f, k, by simp [State.attempt, hcur, hctx, hc]⟩
        · cases h
          exact absurd rfl he
  | switch k =>
    simp only [State.step] at h
    split_ifs at h
    cases h
    exact absurd rfl he
  | initiate k mem => exact .inr ⟨k, mem, rfl⟩

/-- A condition on the calls of one kind, if `p` tells when a frame is one. -/
theorem forall_frame_iff (hp : ∀ {f a}, p f = some a ↔ f = fr a) {P : α → Prop} :
    (∀ a ∈ (σ.frame l).bind p, P a) ↔ ∀ a, σ.frame l = some (fr a) → P a := by
  simp only [Option.mem_def, Option.bind_eq_some_iff, hp]
  constructor
  · exact fun h a ha => h a ⟨_, ha, rfl⟩
  · rintro h a ⟨f, hf, rfl⟩
    exact h a hf

theorem frame_eq_iff (hp : ∀ {f a}, p f = some a ↔ f = fr a) {a : α} :
    (σ.frame l).bind p = some a ↔ σ.frame l = some (fr a) := by
  simp only [Option.bind_eq_some_iff, hp, exists_eq_right]

namespace Frame

def waitsOn : Frame → Option CgrpId
  | .call (.lwtCgrpWait g) => some g
  | _ => none

theorem waitsOn_eq_some {g : CgrpId} : f.waitsOn = some g ↔ f = .call (.lwtCgrpWait g) := by
  unfold waitsOn
  split <;> simp_all

def sends : Frame → Option (ChanId × Data)
  | .call (.lwtSnd c d) => some (c, d)
  | _ => none

theorem sends_eq_some {a : ChanId × Data} : f.sends = some a ↔ f = .call (.lwtSnd a.1 a.2) := by
  unfold sends
  split
  · rw [Option.some.injEq, Prod.ext_iff, Frame.call.injEq, Call.lwtSnd.injEq]
  · simp_all

def receives : Frame → Option ChanId
  | .call (.lwtRcv c) => some c
  | _ => none

theorem receives_eq_some {c : ChanId} : f.receives = some c ↔ f = .call (.lwtRcv c) := by
  unfold receives
  split <;> simp_all

def derefs : Frame → Option ChanId
  | .call (.lwtChanDeref c) => some c
  | _ => none

theorem derefs_eq_some {c : ChanId} : f.derefs = some c ↔ f = .call (.lwtChanDeref c) := by
  unfold derefs
  split <;> simp_all

def setsType : Frame → Option (ChanId × ChanType)
  | .call (.setChanType c type) => some (c, type)
  | _ => none

theorem setsType_eq_some {a : ChanId × ChanType} :
    f.setsType = some a ↔ f = .call (.setChanType a.1 a.2) := by
  unfold setsType
  split
  · rw [Option.some.injEq, Prod.ext_iff, Frame.call.injEq, Call.setChanType.injEq]
  · simp_all

def makes : Frame → Option (ℤ × ChanMem)
  | .call (.lwtChan size mem) => some (size, mem)
  | _ => none

theorem makes_eq_some {a : ℤ × ChanMem} : f.makes = some a ↔ f = .call (.lwtChan a.1 a.2) := by
  unfold makes
  split
  · rw [Option.some.injEq, Prod.ext_iff, Frame.call.injEq, Call.lwtChan.injEq]
  · simp_all

def creates : Frame → Option (ℤ × CreateMem)
  | .call (.lwtCreate flags mem) => some (flags, mem)
  | _ => none

theorem creates_eq_some {a : ℤ × CreateMem} :
    f.creates = some a ↔ f = .call (.lwtCreate a.1 a.2) := by
  unfold creates
  split
  · rw [Option.some.injEq, Prod.ext_iff, Frame.call.injEq, Call.lwtCreate.injEq]
  · simp_all

def groups : Frame → Option Bool
  | .call (.lwtCgrp mem) => some mem
  | _ => none

theorem groups_eq_some {mem : Bool} : f.groups = some mem ↔ f = .call (.lwtCgrp mem) := by
  unfold groups
  split
  · simp
  · cases mem <;> simp_all

def adds : Frame → Option (CgrpId × ChanId)
  | .call (.lwtCgrpAdd g c) => some (g, c)
  | _ => none

def removes : Frame → Option (CgrpId × ChanId)
  | .call (.lwtCgrpRem g c) => some (g, c)
  | _ => none

def waitsIn : Frame → Option CgrpId
  | .cgrpWaitLoop g => some g
  | _ => none

theorem waitsIn_eq_some {g : CgrpId} : f.waitsIn = some g ↔ f = .cgrpWaitLoop g := by
  unfold waitsIn
  split <;> simp_all

def isDieSnd : Frame → Bool
  | .dieSnd => true
  | _ => false

theorem isDieSnd_iff : f.isDieSnd = true ↔ f = .dieSnd := by
  unfold isDieSnd
  split <;> simp_all

instance (fs : List Frame) : Decidable (.dieSnd ∈ fs) :=
  decidable_of_iff (∃ fr ∈ fs, fr.isDieSnd = true) <| by simp [isDieSnd_iff]

def isRcvThdRcv : Frame → Bool
  | .rcvThdRcv => true
  | _ => false

theorem isRcvThdRcv_iff : f.isRcvThdRcv = true ↔ f = .rcvThdRcv := by
  unfold isRcvThdRcv
  split <;> simp_all

def isKthdLoop : Frame → Bool
  | .kthdLoop => true
  | _ => false

theorem isKthdLoop_iff : f.isKthdLoop = true ↔ f = .kthdLoop := by
  unfold isKthdLoop
  split <;> simp_all

/-- The channel and the kernel thread of the `lwt_sync_snd` whose second half is next. -/
def wakesUp : Frame → Option (ChanId × KthdId)
  | .syncSndWakeup c k => some (c, k)
  | _ => none

theorem wakesUp_eq_some {a : ChanId × KthdId} :
    f.wakesUp = some a ↔ f = .syncSndWakeup a.1 a.2 := by
  unfold wakesUp
  split
  · rw [Option.some.injEq, Prod.ext_iff, Frame.syncSndWakeup.injEq]
  · simp_all

/-- The child and the result of the `lwt_join` that is about to return. -/
def joined : Frame → Option (ThreadId × Data)
  | .joinYield t d => some (t, d)
  | _ => none

theorem joined_eq_some {a : ThreadId × Data} : f.joined = some a ↔ f = .joinYield a.1 a.2 := by
  unfold joined
  split
  · rw [Option.some.injEq, Prod.ext_iff, Frame.joinYield.injEq]
  · simp_all

/-- The channel at the head of whose `lwt_sync_rcv` a frame is. -/
def loopsIn : Frame → Option ChanId
  | .syncRcvLoop c => some c
  | _ => none

theorem loopsIn_eq_some {c : ChanId} : f.loopsIn = some c ↔ f = .syncRcvLoop c := by
  unfold loopsIn
  split <;> simp_all

def sendsIn : Frame → Option ChanId
  | .sndRet c => some c
  | _ => none

theorem sendsIn_eq_some {c : ChanId} : f.sendsIn = some c ↔ f = .sndRet c := by
  unfold sendsIn
  split <;> simp_all

end Frame

end Lwt
