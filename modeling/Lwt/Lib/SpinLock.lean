import Mathlib.Data.Int.Notation
import Mathlib.Logic.Function.Basic
import Mathlib.Tactic.Common

/-! A lock that is one word of memory: `0` when it is free, taken by a compare and swap, given back
by a store. It protects a part of the memory that stands for some value. The rules say what each
kind of step does to the value: taking the lock, a step inside the locked section, giving the lock
back, and a step of the rest of the system, which may also look into the memory without the lock. -/

namespace SpinLock

variable {T P L M B : Type*} {inside : P → Option L} {free : B → M → Prop}
  {mid : L → B → M → Prop} {word word' : ℤ} {pc : T → P} {m m' : M} {b b' : B} {t u : T} {p : P}
  {l l' : L}

/-- One try of the compare and swap. -/
def tryLock (word : ℤ) : Option ℤ := if word = 0 then some 1 else none

/-- The lock at `word` protects `m`, which stands for `b`. A thread at `p` is at the place
`inside p` of its locked section, if it is in one; `free` relates memory and value while nobody is,
`mid l` while somebody is at `l`. -/
structure Guards (inside : P → Option L) (free : B → M → Prop) (mid : L → B → M → Prop) (word : ℤ)
    (pc : T → P) (m : M) (b : B) : Prop where
  zero_iff : word = 0 ↔ ∀ t, inside (pc t) = none
  exclusive : ∀ t u, (inside (pc t)).isSome → (inside (pc u)).isSome → t = u
  free : word = 0 → free b m
  mid : ∀ t l, inside (pc t) = some l → mid l b m

theorem tryLock_eq_some : tryLock word = some word' ↔ word = 0 ∧ word' = 1 := by
  unfold tryLock
  split_ifs with h
  · simp [h, eq_comm]
  · simp [h]

theorem tryLock_eq_none : tryLock word = none ↔ word ≠ 0 := by simp [tryLock]

namespace Guards

/-- A try fails only while another thread is in its locked section. -/
theorem tryLock_eq_none_iff (h : Guards inside free mid word pc m b) :
    tryLock word = none ↔ ∃ t, (inside (pc t)).isSome := by
  rw [tryLock_eq_none, Ne, h.zero_iff]
  simp [Option.isSome_iff_ne_none]

theorem outside_of_ne (h : Guards inside free mid word pc m b) (ht : inside (pc t) = some l)
    (hu : u ≠ t) : inside (pc u) = none := by
  by_contra hn
  exact hu (h.exclusive u t (Option.isSome_iff_ne_none.mpr hn) (by simp [ht]))

/-- A step of the rest of the system, that keeps what each place in the section relies on. -/
theorem env (h : Guards inside free mid word pc m b) (hfree : free b m → free b' m')
    (hmid : ∀ l, mid l b m → mid l b' m') : Guards inside free mid word pc m' b' where
  zero_iff := h.zero_iff
  exclusive := h.exclusive
  free h0 := hfree (h.free h0)
  mid t l ht := hmid l (h.mid t l ht)

variable [DecidableEq T]

/-- With nobody else in it, thread `t` is the one in the section. -/
theorem enter (hword : word ≠ 0) (hout : ∀ u, u ≠ t → inside (pc u) = none)
    (hp : inside p = some l) (hmid : mid l b m) :
    Guards inside free mid word (Function.update pc t p) m b := by
  have hone : ∀ u, (inside (Function.update pc t p u)).isSome → u = t := by
    intro u hu
    by_contra hne
    simp [Function.update_of_ne hne, hout u hne] at hu
  refine ⟨?_, ?_, fun h0 => absurd h0 hword, ?_⟩
  · refine ⟨fun h0 => absurd h0 hword, fun hall => ?_⟩
    have := hall t
    simp [hp] at this
  · intro u v hu hv
    rw [hone u hu, hone v hv]
  · intro u l' hu
    obtain rfl := hone u (by simp [hu])
    rw [Function.update_self, hp] at hu
    exact Option.some.inj hu ▸ hmid

theorem acquire (h : Guards inside free mid word pc m b) (hw : tryLock word = some word')
    (hp : inside p = some l) (hmid : free b m → mid l b m) :
    Guards inside free mid word' (Function.update pc t p) m b := by
  obtain ⟨rfl, rfl⟩ := tryLock_eq_some.mp hw
  exact enter (by decide) (fun u _ => h.zero_iff.mp rfl u) hp (hmid (h.free rfl))

/-- A step of the thread in the section. -/
theorem advance (h : Guards inside free mid word pc m b) (ht : inside (pc t) = some l)
    (hp : inside p = some l') (hmid : mid l b m → mid l' b' m') :
    Guards inside free mid word (Function.update pc t p) m' b' := by
  refine enter ?_ (fun u hu => h.outside_of_ne ht hu) hp (hmid (h.mid t l ht))
  intro h0
  rw [h.zero_iff.mp h0 t] at ht
  cases ht

theorem release (h : Guards inside free mid word pc m b) (ht : inside (pc t) = some l)
    (hp : inside p = none) (hfree : mid l b m → free b m) :
    Guards inside free mid 0 (Function.update pc t p) m b := by
  have hnone : ∀ u, inside (Function.update pc t p u) = none := by
    intro u
    by_cases hut : u = t
    · rw [hut, Function.update_self, hp]
    · rw [Function.update_of_ne hut, h.outside_of_ne ht hut]
  refine ⟨by simp [hnone], ?_, fun _ => hfree (h.mid t l ht), ?_⟩
  · intro u v hu
    simp [hnone] at hu
  · intro u l' hu
    simp [hnone] at hu

/-- A step of a thread that stays outside. -/
theorem outside (h : Guards inside free mid word pc m b) (ht : inside (pc t) = none)
    (hp : inside p = none) : Guards inside free mid word (Function.update pc t p) m b := by
  have hsame : ∀ u, inside (Function.update pc t p u) = inside (pc u) := by
    intro u
    by_cases hut : u = t
    · rw [hut, Function.update_self, hp, ht]
    · rw [Function.update_of_ne hut]
  refine ⟨?_, ?_, h.free, ?_⟩
  · simpa only [hsame] using h.zero_iff
  · simpa only [hsame] using h.exclusive
  · simpa only [hsame] using h.mid

end Guards

/-- A lock that nobody has taken yet. -/
theorem guards_free (hpc : ∀ t, inside (pc t) = none) (hfree : free b m) :
    Guards inside free mid 0 pc m b where
  zero_iff := by simp [hpc]
  exclusive t u ht := by simp [hpc] at ht
  free _ := hfree
  mid t l ht := by simp [hpc] at ht

end SpinLock
