import Mathlib.Data.Int.Notation
import Mathlib.Data.List.Perm.Basic
import Mathlib.Tactic.Common

/-! Mailboxes with three ways in. A value goes to the hand of an owner that waits
for it, into a bounded ring, or stays with a sender that waits for a slot. Values
leave from the hand, from the ring, or straight from the first waiting sender.
Whoever takes them, no value is lost or duplicated; if nobody takes one while the
hand is full, they leave in the order in which they came. -/

/-- `sent` and `rcvd` list the values accepted and returned so far. -/
@[ext]
structure Mailbox (α : Type*) where
  sent : List α
  rcvd : List α
  hand : List α
  ring : List α
  senders : List α
  waiting : Prop
  size : ℤ

namespace Mailbox

variable {α : Type*} {m m' : Mailbox α}

/-- The values on their way, in the order in which they should leave. -/
def pending (m : Mailbox α) : List α := m.hand ++ m.ring ++ m.senders

/-- A value leaves from the ring or from a waiting sender, to anyone. -/
inductive Take (m : Mailbox α) : Mailbox α → Prop
  | pop (x : α) (xs : List α) (hr : m.ring = x :: xs) (hs : m.senders = []) :
      Take m { m with rcvd := m.rcvd ++ [x], ring := xs }
  /-- The first waiting sender gets the slot. -/
  | refill (x y : α) (xs ys : List α) (hr : m.ring = x :: xs) (hs : m.senders = y :: ys) :
      Take m { m with rcvd := m.rcvd ++ [x], ring := xs ++ [y], senders := ys }
  | sender (y : α) (ys : List α) (hr : m.ring = []) (hs : m.senders = y :: ys) :
      Take m { m with rcvd := m.rcvd ++ [y], senders := ys }

/-- A value comes in, or the owner of the mailbox waits or goes on. -/
inductive Step (m : Mailbox α) : Mailbox α → Prop
  | handOff (x : α) (hw : m.waiting) :
      Step m { m with sent := m.sent ++ [x], hand := [x], waiting := False }
  | push (x : α) (hw : ¬ m.waiting) (hn : (m.ring.length : ℤ) ≠ m.size) :
      Step m { m with sent := m.sent ++ [x], ring := m.ring ++ [x] }
  | block (x : α) (hw : ¬ m.waiting) (hn : (m.ring.length : ℤ) = m.size) :
      Step m { m with sent := m.sent ++ [x], senders := m.senders ++ [x] }
  /-- The owner finds nothing and waits. -/
  | wait (hh : m.hand = []) (hr : m.ring = []) (hs : m.senders = []) :
      Step m { m with waiting := True }
  /-- The owner returns what it was handed. -/
  | ret (x : α) (hh : m.hand = [x]) (hw : ¬ m.waiting) :
      Step m { m with rcvd := m.rcvd ++ [x], hand := [] }

/-- The hand is empty while the owner waits. -/
def HandFree (m : Mailbox α) : Prop := m.waiting → m.hand = []

/-- Every value accepted has been returned or is on its way, each once. -/
def Conserved (m : Mailbox α) : Prop := m.sent.Perm (m.rcvd ++ m.pending)

/-- Values leave in the order in which they came. -/
structure InOrder (m : Mailbox α) : Prop where
  sent : m.sent = m.rcvd ++ m.pending
  waiting : m.waiting → m.ring = [] ∧ m.senders = []
  full : m.senders ≠ [] → (m.ring.length : ℤ) = m.size

theorem InOrder.conserved (h : m.InOrder) : m.Conserved := .of_eq h.sent

theorem InOrder.isPrefix (h : m.InOrder) : m.rcvd <+: m.sent := ⟨m.pending, h.sent.symm⟩

theorem Take.conserved (h : m.Take m') (hc : m.Conserved) : m'.Conserved := by
  unfold Conserved pending at *
  cases h with
  | pop x xs hr hs =>
    refine hc.trans ?_
    simp only [hr, hs, List.append_assoc, List.append_nil]
    refine List.Perm.append_left _ ?_
    simp
  | refill x y xs ys hr hs =>
    refine hc.trans ?_
    simp only [hr, hs, List.append_assoc]
    refine List.Perm.append_left _ ?_
    simp
  | sender y ys hr hs =>
    refine hc.trans ?_
    simp only [hr, hs, List.append_assoc, List.append_nil]
    refine List.Perm.append_left _ ?_
    simp

/-- No step loses or duplicates a value. -/
theorem Step.conserved (h : m.Step m') (hf : m.HandFree) (hc : m.Conserved) : m'.Conserved := by
  cases h with
  | handOff x hw =>
    unfold Conserved pending at *
    rw [hf hw] at hc
    have hx := hc.append_right [x]
    refine hx.trans ?_
    simp only [List.nil_append, List.append_assoc]
    refine List.Perm.append_left _ ?_
    rw [← List.append_assoc]
    exact List.perm_append_comm
  | push x =>
    unfold Conserved pending at *
    refine (hc.append_right [x]).trans ?_
    simp only [List.append_assoc]
    refine List.Perm.append_left _ (List.Perm.append_left _ (List.Perm.append_left _ ?_))
    exact List.perm_append_comm
  | block x =>
    unfold Conserved pending at *
    refine (hc.append_right [x]).trans (.of_eq ?_)
    simp only [List.append_assoc]
  | wait => exact hc
  | ret x hh =>
    unfold Conserved pending at *
    refine hc.trans (.of_eq ?_)
    simp [hh]

/-- Takes keep the order while the hand is empty. -/
theorem Take.inOrder (h : m.Take m') (hh : m.hand = []) (ho : m.InOrder) : m'.InOrder := by
  obtain ⟨hsent, hwait, hfull⟩ := ho
  unfold pending at hsent
  cases h with
  | pop x xs hr hs =>
    refine ⟨?_, fun h => ?_, fun h => absurd hs h⟩
    · simp [pending, hsent, hr, hs, hh]
    · simp [(hwait h).1] at hr
  | refill x y xs ys hr hs =>
    have hlen := hfull (by simp [hs])
    refine ⟨?_, fun h => ?_, fun _ => ?_⟩
    · simp [pending, hsent, hr, hs, hh]
    · simp [(hwait h).1] at hr
    · simpa [hr] using hlen
  | sender y ys hr hs =>
    refine ⟨?_, fun h => ?_, fun _ => hfull (by simp [hs])⟩
    · simp [pending, hsent, hr, hs, hh]
    · simp [(hwait h).2] at hs

/-- Steps keep the order. -/
theorem Step.inOrder (h : m.Step m') (hf : m.HandFree) (ho : m.InOrder) : m'.InOrder := by
  obtain ⟨hsent, hwait, hfull⟩ := ho
  unfold pending at hsent
  cases h with
  | handOff x hw =>
    obtain ⟨hr, hs⟩ := hwait hw
    refine ⟨?_, False.elim, fun h => absurd hs h⟩
    simp [pending, hsent, hr, hs, hf hw]
  | push x hw hn =>
    have hs : m.senders = [] := by
      by_contra hs
      exact hn (hfull hs)
    refine ⟨?_, fun h => absurd h hw, fun h => absurd hs h⟩
    simp [pending, hsent, hs]
  | block x hw hn =>
    refine ⟨?_, fun h => absurd h hw, fun _ => hn⟩
    simp [pending, hsent]
  | wait hh hr hs => exact ⟨hsent, fun _ => ⟨hr, hs⟩, hfull⟩
  | ret x hh hw =>
    refine ⟨?_, fun h => absurd h hw, hfull⟩
    simp [pending, hsent, hh]

/-- A value that is accepted and kept nowhere is lost. -/
theorem Conserved.not_lost (hc : m.Conserved) (x : α) :
    ¬ ({ m with sent := m.sent ++ [x] } : Mailbox α).Conserved := by
  intro h
  have h1 := hc.length_eq
  have h2 : (m.sent ++ [x]).length = (m.rcvd ++ m.pending).length := h.length_eq
  rw [List.length_append, h1] at h2
  simp at h2

end Mailbox
