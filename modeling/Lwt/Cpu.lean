import Lwt.Types
import Lwt.Lib.Transition
import Mathlib.Logic.Function.Basic
import Mathlib.Tactic.Simps.Basic

/-! The processor under the library: `__lwt_dispatch`, which is written in assembly, and the stack
that `lwt_create` lays out by hand. Memory is read and written by words, at addresses divisible by
four. The contexts of the threads are kept apart from it, and so is which threads still live. -/

namespace Lwt.Asm

abbrev Word := BitVec 32

/-- The registers that `pushal` saves, but for `esp`. -/
inductive Reg where
  | eax | ecx | edx | ebx | ebp | esi | edi
  deriving DecidableEq

/-- What an instruction reads and writes. -/
structure Cpu where
  reg : Reg → Word
  esp : ℕ
  mem : ℕ → Word

namespace Cpu

variable (c : Cpu)

@[simps] def push (v : Word) : Cpu :=
  { c with mem := Function.update c.mem (c.esp - 4) v, esp := c.esp - 4 }

@[simps] def pop (r : Reg) : Cpu :=
  { c with reg := Function.update c.reg r (c.mem c.esp), esp := c.esp + 4 }

/-- `movl sp, %%esp`. -/
@[simps] def setEsp (sp : ℕ) : Cpu := { c with esp := sp }

/-- `pushal`. The value pushed for `esp` is the one it had before. -/
def pushal : Cpu :=
  (((((((c.push (c.reg .eax)).push (c.reg .ecx)).push (c.reg .edx)).push (c.reg .ebx)).push
    (BitVec.ofNat 32 c.esp)).push (c.reg .ebp)).push (c.reg .esi)).push (c.reg .edi)

/-- `popal`. The value pushed for `esp` is skipped. -/
def popal : Cpu :=
  let c := ((c.pop .edi).pop .esi).pop .ebp
  let c := c.setEsp (c.esp + 4)
  (((c.pop .ebx).pop .edx).pop .ecx).pop .eax

end Cpu

/-- Where a context goes on: at the label in `__lwt_dispatch`, or at the start of
`__lwt_trampoline`. -/
inductive Entry where
  | retDispatch
  | trampoline
  deriving DecidableEq

/-- `struct _lwt_context`. -/
structure Context where
  ip : Entry
  sp : ℕ
  deriving DecidableEq

/-- The memory that is the stack of a thread, `hi` not included. -/
structure Stack where
  lo : ℕ
  hi : ℕ
  deriving DecidableEq

def Stack.Apart (s s' : Stack) : Prop := s.hi ≤ s'.lo ∨ s'.hi ≤ s.lo

/-- The registers of a kernel thread, the thread it runs, and where that was entered. -/
structure Core where
  reg : Reg → Word
  esp : ℕ
  cur : Option ThreadId
  entry : Entry

/-- The kernel threads, the memory they share, and the contexts and stacks of the threads. -/
structure Machine where
  core : KthdId → Core
  mem : ℕ → Word
  context : ThreadId → Context
  stack : ThreadId → Stack
  live : ThreadId → Bool

namespace Machine

variable (m : Machine) (k : KthdId)

def cpu : Cpu := ⟨(m.core k).reg, (m.core k).esp, m.mem⟩

/-- `__lwt_dispatch(curr, next)` on kernel thread `k`, up to where `next` has the processor. -/
def lwtDispatch (curr next : ThreadId) : Machine :=
  let c := (m.cpu k).pushal
  -- movl %%esp, curr->sp; movl $retDispatch, curr->ip
  let context := Function.update m.context curr ⟨.retDispatch, c.esp⟩
  -- movl next->sp, %%esp; jmp *next->ip
  let c := c.setEsp (context next).sp
  let c := match (context next).ip with
    | .retDispatch => c.popal
    | .trampoline => c
  { m with
    core := Function.update m.core k ⟨c.reg, c.esp, some next, (context next).ip⟩
    mem := c.mem
    context := context }

/-- What `lwt_create` does to the stack `s` and the context of thread `t`. -/
def lwtCreate (t : ThreadId) (s : Stack) (fn data : Word) : Machine :=
  let sp := s.hi - 4
  let mem := Function.update m.mem sp data
  let sp := sp - 4
  let mem := Function.update mem sp fn
  let sp := sp - 4
  { m with
    mem := mem
    context := Function.update m.context t ⟨.trampoline, sp⟩
    stack := Function.update m.stack t s
    live := Function.update m.live t true }

/-- `__initiate` by kernel thread `k`, whose stack `s` becomes that of its main thread. -/
def initiate (t : ThreadId) (s : Stack) : Machine :=
  { m with
    core := Function.update m.core k { m.core k with cur := some t }
    stack := Function.update m.stack t s
    live := Function.update m.live t true }

def lwtDie (t : ThreadId) : Machine := { m with live := Function.update m.live t false }

def Runs (t : ThreadId) : Prop := ∃ k, (m.core k).cur = some t

/-- Thread `t` still has its stack. -/
def Keeps (t : ThreadId) : Prop := m.live t = true ∨ m.Runs t

/-- Kernel thread `k` computes: it leaves its registers, the memory and its stack pointer as it
likes, but writes nothing into the used part of the stack of a thread that waits. -/
structure Computes (m' : Machine) : Prop where
  core : ∀ j, j ≠ k → m'.core j = m.core j
  cur : (m'.core k).cur = (m.core k).cur
  context : m'.context = m.context
  stack : m'.stack = m.stack
  live : m'.live = m.live
  mem : ∀ t, m.live t = true → ¬ m.Runs t → ∀ a, (m.context t).sp ≤ a → a < (m.stack t).hi →
    m'.mem a = m.mem a

def boot : Machine where
  core _ := ⟨fun _ => 0, 0, none, .trampoline⟩
  mem _ := 0
  context _ := ⟨.trampoline, 0⟩
  stack _ := ⟨0, 0⟩
  live _ := false

end Machine

inductive Act where
  | compute
  | dispatch (next : ThreadId)
  | create (t : ThreadId) (s : Stack) (fn data : Word)
  | initiate (t : ThreadId) (s : Stack)
  | die

structure Label where
  kthd : KthdId
  act : Act

/-- One step. A dispatch goes to a living thread that does not run elsewhere, and finds room for
the registers on the stack it leaves, whose pointer is aligned; a new thread has a structure and an
aligned stack that nobody uses. -/
inductive Step : Machine → Label → Machine → Prop
  | compute {m m' : Machine} {k : KthdId} (h : m.Computes k m') : Step m ⟨k, .compute⟩ m'
  | dispatch {m : Machine} {k : KthdId} {curr next : ThreadId} (cur : (m.core k).cur = some curr)
      (live : m.live next = true) (free : m.Runs next → next = curr)
      (room : (m.stack curr).lo + 32 ≤ (m.core k).esp ∧ (m.core k).esp ≤ (m.stack curr).hi)
      (aligned : 4 ∣ (m.core k).esp) :
      Step m ⟨k, .dispatch next⟩ (m.lwtDispatch k curr next)
  | create {m : Machine} {k : KthdId} {t : ThreadId} {s : Stack} {fn data : Word}
      (dead : ¬ m.Keeps t) (size : s.lo + 12 ≤ s.hi) (aligned : 4 ∣ s.hi)
      (apart : ∀ u, m.Keeps u → s.Apart (m.stack u)) :
      Step m ⟨k, .create t s fn data⟩ (m.lwtCreate t s fn data)
  | initiate {m : Machine} {k : KthdId} {t : ThreadId} {s : Stack} (cur : (m.core k).cur = none)
      (dead : ¬ m.Keeps t) (apart : ∀ u, m.Keeps u → s.Apart (m.stack u)) :
      Step m ⟨k, .initiate t s⟩ (m.initiate k t s)
  | die {m : Machine} {k : KthdId} {t : ThreadId} (cur : (m.core k).cur = some t) :
      Step m ⟨k, .die⟩ (m.lwtDie t)

end Lwt.Asm
