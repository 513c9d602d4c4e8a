import Lwt.Cpu

/-! A thread that is dispatched goes on where it has left off. Between the two dispatches any number
of kernel threads run, create, leave and dispatch other threads. -/

namespace Lwt.Asm

/-- How far below the old stack pointer `pushal` puts a register. -/
def Reg.depth : Reg → ℕ
  | .eax => 4
  | .ecx => 8
  | .edx => 12
  | .ebx => 16
  | .ebp => 24
  | .esi => 28
  | .edi => 32

namespace Cpu

variable {c : Cpu}

@[simp] theorem pushal_reg : c.pushal.reg = c.reg := by
  funext r
  simp only [pushal, push_reg]

theorem pushal_esp : c.pushal.esp = c.esp - 32 := by
  simp only [pushal, push_esp]
  omega

theorem pushal_saved (h : 32 ≤ c.esp) (r : Reg) : c.pushal.mem (c.esp - r.depth) = c.reg r := by
  obtain ⟨s, hs⟩ : ∃ s, c.esp = s + 32 := ⟨c.esp - 32, by omega⟩
  cases r <;> simp [pushal, hs, Reg.depth]

theorem pushal_frame (h : 32 ≤ c.esp) {a : ℕ} (ha : a < c.esp - 32 ∨ c.esp ≤ a) :
    c.pushal.mem a = c.mem a := by
  obtain ⟨s, hs⟩ : ∃ s, c.esp = s + 32 := ⟨c.esp - 32, by omega⟩
  simp only [pushal, push_mem, push_esp, hs, Function.update_apply]
  repeat rw [if_neg (by omega)]

@[simp] theorem popal_esp : c.popal.esp = c.esp + 32 := rfl

@[simp] theorem popal_mem : c.popal.mem = c.mem := rfl

theorem popal_reg (r : Reg) : c.popal.reg r = c.mem (c.esp + 32 - r.depth) := by
  cases r <;> simp [popal, Reg.depth]

end Cpu

theorem Reg.depth_le (r : Reg) : r.depth ≤ 32 := by
  cases r <;> decide

theorem Reg.depth_pos (r : Reg) : 0 < r.depth := by
  cases r <;> decide

theorem Stack.Apart.symm {s s' : Stack} (h : s.Apart s') : s'.Apart s := Or.symm h

/-- No two threads share memory for their stacks, and none runs twice. -/
structure Machine.Sound (m : Machine) : Prop where
  apart : ∀ t u, m.Keeps t → m.Keeps u → t ≠ u → (m.stack t).Apart (m.stack u)
  single : ∀ j k t, (m.core j).cur = some t → (m.core k).cur = some t → j = k

/-- Thread `t` waits to be dispatched. Its context is `ctx`, and the used part of its stack `s` is
as in `content`. -/
structure Machine.Suspended (t : ThreadId) (s : Stack) (ctx : Context) (content : ℕ → Word)
    (m : Machine) : Prop where
  live : m.live t = true
  waits : ¬ m.Runs t
  stack : m.stack t = s
  context : m.context t = ctx
  above : s.lo ≤ ctx.sp
  mem : ∀ a, ctx.sp ≤ a → a < s.hi → m.mem a = content a

section

variable {m m' : Machine} {k : KthdId} {t u curr next : ThreadId} {s : Stack} {ctx : Context}
  {content : ℕ → Word} {fn data : Word} {l : Label}

namespace Machine

theorem Keeps.of_cur (h : (m.core k).cur = some t) : m.Keeps t := .inr ⟨k, h⟩

theorem Computes.cur_eq (h : m.Computes k m') (j : KthdId) :
    (m'.core j).cur = (m.core j).cur := by
  by_cases hj : j = k
  · rw [hj, h.cur]
  · rw [h.core j hj]

theorem Computes.runs_iff (h : m.Computes k m') : m'.Runs t ↔ m.Runs t := by
  simp only [Runs, h.cur_eq]

theorem Computes.keeps_iff (h : m.Computes k m') : m'.Keeps t ↔ m.Keeps t := by
  rw [Keeps, Keeps, h.live, h.runs_iff]

section Dispatch

@[simp] theorem lwtDispatch_live : (m.lwtDispatch k curr next).live = m.live := rfl

@[simp] theorem lwtDispatch_stack : (m.lwtDispatch k curr next).stack = m.stack := rfl

@[simp] theorem lwtDispatch_cur :
    ((m.lwtDispatch k curr next).core k).cur = some next := by
  simp [lwtDispatch]

theorem lwtDispatch_core {j : KthdId} (hj : j ≠ k) :
    (m.lwtDispatch k curr next).core j = m.core j := by
  simp [lwtDispatch, hj]

theorem lwtDispatch_context :
    (m.lwtDispatch k curr next).context =
      Function.update m.context curr ⟨.retDispatch, (m.cpu k).pushal.esp⟩ := rfl

/-- What `popal` reads, `pushal` may have written. -/
theorem lwtDispatch_mem : (m.lwtDispatch k curr next).mem = (m.cpu k).pushal.mem := by
  simp only [lwtDispatch]
  split <;> rfl

theorem lwtDispatch_entry :
    ((m.lwtDispatch k curr next).core k).entry =
      ((m.lwtDispatch k curr next).context next).ip := by
  simp [lwtDispatch]

theorem lwtDispatch_esp (h : ((m.lwtDispatch k curr next).context next).ip = .retDispatch) :
    ((m.lwtDispatch k curr next).core k).esp =
      ((m.lwtDispatch k curr next).context next).sp + 32 := by
  rw [lwtDispatch_context] at h
  simp only [lwtDispatch, Function.update_self, h]
  rfl

theorem lwtDispatch_start (h : ((m.lwtDispatch k curr next).context next).ip = .trampoline) :
    ((m.lwtDispatch k curr next).core k).esp = ((m.lwtDispatch k curr next).context next).sp := by
  rw [lwtDispatch_context] at h
  simp only [lwtDispatch, Function.update_self, h]
  rfl

theorem lwtDispatch_reg (h : ((m.lwtDispatch k curr next).context next).ip = .retDispatch)
    (r : Reg) :
    ((m.lwtDispatch k curr next).core k).reg r =
      (m.lwtDispatch k curr next).mem
        (((m.lwtDispatch k curr next).context next).sp + 32 - r.depth) := by
  rw [lwtDispatch_context] at h
  simp only [lwtDispatch, Function.update_self, h, Cpu.popal_reg, Cpu.popal_mem]
  rfl

end Dispatch

theorem lwtDispatch_runs (h : (m.lwtDispatch k curr next).Runs t) : m.Runs t ∨ t = next := by
  obtain ⟨j, hj⟩ := h
  by_cases hjk : j = k
  · rw [hjk, lwtDispatch_cur] at hj
    exact .inr (Option.some.inj hj).symm
  · rw [lwtDispatch_core hjk] at hj
    exact .inl ⟨j, hj⟩

/-- A dispatch writes on the stack that it leaves only. -/
theorem lwtDispatch_frame (room : (m.stack curr).lo + 32 ≤ (m.core k).esp)
    (hle : (m.core k).esp ≤ (m.stack curr).hi) (ha : (m.stack curr).Apart s) {a : ℕ}
    (hlo : s.lo ≤ a) (hhi : a < s.hi) : (m.lwtDispatch k curr next).mem a = m.mem a := by
  rw [lwtDispatch_mem]
  have hesp : (m.cpu k).esp = (m.core k).esp := rfl
  refine Cpu.pushal_frame (by omega) ?_
  obtain ha | ha := ha
  · omega
  · omega

/-- And nothing above the stack pointer. -/
theorem lwtDispatch_used (room : 32 ≤ (m.core k).esp) {a : ℕ} (ha : (m.core k).esp ≤ a) :
    (m.lwtDispatch k curr next).mem a = m.mem a := by
  rw [lwtDispatch_mem]
  exact Cpu.pushal_frame room (.inr ha)

end Machine

/-- A new thread on a stack of its own. -/
theorem Machine.Sound.grow (hm : m.Sound) (dead : ¬ m.Keeps t)
    (apart : ∀ u, m.Keeps u → s.Apart (m.stack u))
    (hstack : m'.stack = Function.update m.stack t s)
    (hkeeps : ∀ u, m'.Keeps u → u = t ∨ m.Keeps u)
    (single : ∀ i j u, (m'.core i).cur = some u → (m'.core j).cur = some u → i = j) : m'.Sound := by
  have hold {u : ThreadId} (hu : m.Keeps u) : m'.stack u = m.stack u := by
    rw [hstack, Function.update_of_ne]
    rintro rfl
    exact dead hu
  have hnew : m'.stack t = s := by
    rw [hstack, Function.update_self]
  refine ⟨fun u v hu hv huv => ?_, single⟩
  obtain rfl | hu := hkeeps u hu
  · obtain rfl | hv := hkeeps v hv
    · exact absurd rfl huv
    · rw [hnew, hold hv]
      exact apart v hv
  · obtain rfl | hv := hkeeps v hv
    · rw [hnew, hold hu]
      exact (apart u hu).symm
    · rw [hold hu, hold hv]
      exact hm.apart u v hu hv huv

theorem Machine.Sound.dispatch (hm : m.Sound) (cur : (m.core k).cur = some curr)
    (live : m.live next = true) (free : m.Runs next → next = curr) :
    (m.lwtDispatch k curr next).Sound := by
  have hkeeps {t : ThreadId} (ht : (m.lwtDispatch k curr next).Keeps t) : m.Keeps t := by
    obtain ht | ht := ht
    · exact .inl ht
    · obtain ht | rfl := lwtDispatch_runs ht
      · exact .inr ht
      · exact .inl live
  -- a thread that runs elsewhere is not the one dispatched
  have helse {j : KthdId} (hj : j ≠ k) : (m.core j).cur ≠ some next := by
    intro hn
    have hnext : next = curr := free ⟨j, hn⟩
    exact hj (hm.single j k next hn (hnext ▸ cur))
  refine ⟨fun t u ht hu => hm.apart t u (hkeeps ht) (hkeeps hu), fun i j t hi hj => ?_⟩
  by_cases hik : i = k
  · by_cases hjk : j = k
    · rw [hik, hjk]
    · rw [hik, lwtDispatch_cur] at hi
      rw [lwtDispatch_core hjk, ← hi] at hj
      exact absurd hj (helse hjk)
  · by_cases hjk : j = k
    · rw [hjk, lwtDispatch_cur] at hj
      rw [lwtDispatch_core hik, ← hj] at hi
      exact absurd hi (helse hik)
    · rw [lwtDispatch_core hik] at hi
      rw [lwtDispatch_core hjk] at hj
      exact hm.single i j t hi hj

theorem Machine.Sound.initiate (hm : m.Sound) (dead : ¬ m.Keeps t)
    (apart : ∀ u, m.Keeps u → s.Apart (m.stack u)) : (m.initiate k t s).Sound := by
  have hcur (j : KthdId) :
      ((m.initiate k t s).core j).cur = if j = k then some t else (m.core j).cur := by
    by_cases hj : j = k <;> simp [Machine.initiate, hj]
  refine hm.grow dead apart rfl (fun u hu => ?_) fun i j u hi hj => ?_
  · obtain hu | ⟨j, hj⟩ := hu
    · by_cases hut : u = t
      · exact .inl hut
      · exact .inr (.inl (by simpa [Machine.initiate, hut] using hu))
    · rw [hcur] at hj
      split_ifs at hj
      · exact .inl (Option.some.inj hj).symm
      · exact .inr (.inr ⟨j, hj⟩)
  · rw [hcur] at hi hj
    split_ifs at hi hj with hik hjk hjk
    · rw [hik, hjk]
    · cases hi
      exact absurd (.inr ⟨j, hj⟩) dead
    · cases hj
      exact absurd (.inr ⟨i, hi⟩) dead
    · exact hm.single i j u hi hj

theorem Machine.Sound.step (hm : m.Sound) (hs : Step m l m') : m'.Sound := by
  cases hs with
  | compute h =>
    refine ⟨fun t u ht hu htu => ?_, fun i j t hi hj => ?_⟩
    · rw [h.keeps_iff] at ht hu
      rw [h.stack]
      exact hm.apart t u ht hu htu
    · rw [h.cur_eq] at hi hj
      exact hm.single i j t hi hj
  | dispatch cur live free => exact hm.dispatch cur live free
  | @create k t s fn data dead size aligned apart =>
    refine hm.grow dead apart rfl (fun u hu => ?_) hm.single
    obtain hu | hu := hu
    · by_cases hut : u = t
      · exact .inl hut
      · exact .inr (.inl (by simpa [Machine.lwtCreate, hut] using hu))
    · exact .inr (.inr hu)
  | initiate cur dead apart => exact hm.initiate dead apart
  | @die k t cur =>
    refine ⟨fun u v hu hv => ?_, hm.single⟩
    have hkeeps {u : ThreadId} (hu : (m.lwtDie t).Keeps u) : m.Keeps u := by
      obtain hu | hu := hu
      · by_cases hut : u = t
        · simp [Machine.lwtDie, hut] at hu
        · exact .inl (by simpa [Machine.lwtDie, hut] using hu)
      · exact .inr hu
    exact hm.apart u v (hkeeps hu) (hkeeps hv)

theorem sound_boot : Machine.boot.Sound := by
  refine ⟨fun t u ht => ?_, fun i j t hi => ?_⟩
  · obtain ht | ⟨k, hk⟩ := ht
    · cases ht
    · cases hk
  · cases hi

theorem Machine.Suspended.compute (h : m.Suspended t s ctx content) (hc : m.Computes k m') :
    m'.Suspended t s ctx content := by
  refine ⟨?_, ?_, ?_, ?_, h.above, fun a hlo hhi => ?_⟩
  · rw [hc.live]
    exact h.live
  · rw [hc.runs_iff]
    exact h.waits
  · rw [hc.stack]
    exact h.stack
  · rw [hc.context]
    exact h.context
  · rw [← h.mem a hlo hhi]
    refine hc.mem t h.live h.waits a ?_ ?_
    · rwa [h.context]
    · rwa [h.stack]

/-- A dispatch writes to the stack of the thread that it leaves. -/
theorem Machine.Suspended.dispatch (hm : m.Sound) (h : m.Suspended t s ctx content)
    (hcur : (m.core k).cur = some curr) (hnext : t ≠ next)
    (hroom : (m.stack curr).lo + 32 ≤ (m.core k).esp ∧ (m.core k).esp ≤ (m.stack curr).hi) :
    (m.lwtDispatch k curr next).Suspended t s ctx content := by
  have hcurr : t ≠ curr := by
    rintro rfl
    exact h.waits ⟨k, hcur⟩
  refine ⟨h.live, fun hr => ?_, h.stack, ?_, h.above, fun a hlo hhi => ?_⟩
  · obtain hr | hr := lwtDispatch_runs hr
    · exact h.waits hr
    · exact hnext hr
  · rw [lwtDispatch_context, Function.update_of_ne hcurr]
    exact h.context
  · have hapart : (m.stack curr).Apart s := by
      rw [← h.stack]
      exact hm.apart curr t (.of_cur hcur) (.inl h.live) hcurr.symm
    rw [lwtDispatch_frame hroom.1 hroom.2 hapart (h.above.trans hlo) hhi]
    exact h.mem a hlo hhi

/-- `lwt_create` writes to the stack of the thread that it makes. -/
theorem Machine.Suspended.create {s' : Stack} (h : m.Suspended t s ctx content) (hut : t ≠ u)
    (hsize : s'.lo + 12 ≤ s'.hi) (hapart : s'.Apart s) :
    (m.lwtCreate u s' fn data).Suspended t s ctx content := by
  refine ⟨?_, h.waits, ?_, ?_, h.above, fun a hlo hhi => ?_⟩
  · simpa [Machine.lwtCreate, hut] using h.live
  · simpa [Machine.lwtCreate, hut] using h.stack
  · simpa [Machine.lwtCreate, hut] using h.context
  · have hlo' := h.above.trans hlo
    have hne : a ≠ s'.hi - 4 ∧ a ≠ s'.hi - 4 - 4 := by
      obtain ha | ha := hapart <;> omega
    simpa [Machine.lwtCreate, hne] using h.mem a hlo hhi

theorem Machine.Suspended.initiate {s' : Stack} (h : m.Suspended t s ctx content) (hut : t ≠ u) :
    (m.initiate k u s').Suspended t s ctx content := by
  refine ⟨?_, fun hr => ?_, ?_, h.context, h.above, h.mem⟩
  · simpa [Machine.initiate, hut] using h.live
  · obtain ⟨j, hj⟩ := hr
    by_cases hjk : j = k
    · simp [Machine.initiate, hjk] at hj
      exact hut hj.symm
    · exact h.waits ⟨j, by simpa [Machine.initiate, hjk] using hj⟩
  · simpa [Machine.initiate, hut] using h.stack

/-- A thread that waits is as it was, until it is dispatched. -/
theorem Machine.Suspended.step (hm : m.Sound) (h : m.Suspended t s ctx content) (hs : Step m l m')
    (hl : l.act ≠ .dispatch t) : m'.Suspended t s ctx content := by
  have hkeeps : m.Keeps t := .inl h.live
  cases hs with
  | compute hc => exact h.compute hc
  | @dispatch k curr next cur live free room aligned =>
    refine h.dispatch hm cur ?_ room
    rintro rfl
    exact hl rfl
  | @create k u s' fn data dead size aligned apart =>
    refine h.create ?_ size ?_
    · rintro rfl
      exact dead hkeeps
    · rw [← h.stack]
      exact apart t hkeeps
  | @initiate k u s' cur dead apart =>
    refine h.initiate ?_
    rintro rfl
    exact dead hkeeps
  | @die k u cur =>
    have hut : t ≠ u := by
      rintro rfl
      exact h.waits ⟨k, cur⟩
    refine ⟨?_, h.waits, h.stack, h.context, h.above, h.mem⟩
    simpa [Machine.lwtDie, hut] using h.live

/-- What a thread finds when it is dispatched. -/
structure Machine.Entered (m : Machine) (k : KthdId) (t : ThreadId) (ctx : Context) : Prop where
  cur : (m.core k).cur = some t
  entry : (m.core k).entry = ctx.ip
  resumed : ctx.ip = .retDispatch →
    (m.core k).esp = ctx.sp + 32 ∧ ∀ r, (m.core k).reg r = m.mem (ctx.sp + 32 - r.depth)
  started : ctx.ip = .trampoline → (m.core k).esp = ctx.sp

theorem Machine.entered (hctx : (m.lwtDispatch k curr t).context t = ctx) :
    (m.lwtDispatch k curr t).Entered k t ctx := by
  subst hctx
  constructor
  · exact lwtDispatch_cur
  · exact lwtDispatch_entry
  · exact fun hip => ⟨lwtDispatch_esp hip, lwtDispatch_reg hip⟩
  · exact lwtDispatch_start

/-- The dispatch of a thread that waits gives it back its context, and leaves its stack alone. -/
theorem Machine.Suspended.dispatched (hm : m.Sound) (h : m.Suspended t s ctx content)
    (hs : Step m ⟨k, .dispatch t⟩ m') :
    m'.Entered k t ctx ∧ m'.stack t = s ∧ ∀ a, ctx.sp ≤ a → a < s.hi → m'.mem a = content a := by
  cases hs with
  | @dispatch _ curr _ cur live free room aligned =>
    have hcurr : t ≠ curr := by
      rintro rfl
      exact h.waits ⟨k, cur⟩
    refine ⟨entered ?_, h.stack, fun a hlo hhi => ?_⟩
    · rw [lwtDispatch_context, Function.update_of_ne hcurr]
      exact h.context
    · have hapart : (m.stack curr).Apart s := by
        rw [← h.stack]
        exact hm.apart curr t (.of_cur cur) (.inl h.live) hcurr.symm
      rw [lwtDispatch_frame room.1 room.2 hapart (h.above.trans hlo) hhi]
      exact h.mem a hlo hhi

/-- A living thread that dispatches another one waits from then on, with its registers saved. -/
theorem Machine.suspended_dispatch (hm : m.Sound) (cur : (m.core k).cur = some t)
    (live : m.live t = true) (hnext : next ≠ t) (room : (m.stack t).lo + 32 ≤ (m.core k).esp) :
    (m.lwtDispatch k t next).Suspended t (m.stack t) ⟨.retDispatch, (m.core k).esp - 32⟩
      (m.lwtDispatch k t next).mem := by
  refine ⟨live, fun hr => ?_, rfl, ?_, ?_, fun _ _ _ => rfl⟩
  · obtain ⟨j, hj⟩ := hr
    by_cases hjk : j = k
    · rw [hjk, lwtDispatch_cur] at hj
      exact hnext (Option.some.inj hj)
    · rw [lwtDispatch_core hjk] at hj
      exact hjk (hm.single j k t hj cur)
  · rw [lwtDispatch_context, Function.update_self, Cpu.pushal_esp]
    rfl
  · exact Nat.le_sub_of_add_le room

/-- Registers that `pushal` has put on the stack. -/
theorem lwtDispatch_saved (room : 32 ≤ (m.core k).esp) (r : Reg) :
    (m.lwtDispatch k curr next).mem ((m.core k).esp - r.depth) = (m.core k).reg r := by
  rw [Machine.lwtDispatch_mem]
  exact Cpu.pushal_saved room r

variable {tr : List (Machine × Label)}

theorem sound_run (hr : Transition.Run Step .boot tr m) : m.Sound :=
  hr.invariant sound_boot fun _ _ _ hm hs => hm.step hs

/-- A thread that waits at one place of a run waits there as long as it is not dispatched. -/
theorem Suspended.until (hr : Transition.Run Step .boot tr m) {i j : ℕ} (hij : i ≤ j)
    {w x : Machine} (hw : (Transition.visited tr m)[i]? = some w)
    (h : w.Suspended t s ctx content) (hx : (Transition.visited tr m)[j]? = some x)
    (hfirst : ∀ n p, i ≤ n → n < j → tr[n]? = some p → p.2.act ≠ .dispatch t) :
    x.Suspended t s ctx content := by
  refine hr.between (P := fun y => y.Suspended t s ctx content) hij ?_ ?_ x hx
  · intro y hy
    rwa [← Option.some.inj (hw.symm.trans hy)]
  · intro n p y hin hnj hp hs hpsusp
    exact hpsusp.step (sound_run (hr.take hp)) hs (hfirst n p hin hnj hp)

/-- The context that `__lwt_dispatch` saves, found again: the call has changed nothing. -/
theorem Machine.Entered.returns {m₁ m₃ : Machine} {k₁ k₃ : KthdId}
    (h : m₃.Entered k₃ t ⟨.retDispatch, (m₁.core k₁).esp - 32⟩)
    (room : (m₁.stack t).lo + 32 ≤ (m₁.core k₁).esp) (hle : (m₁.core k₁).esp ≤ (m₁.stack t).hi)
    (hmem : ∀ a, (m₁.core k₁).esp - 32 ≤ a → a < (m₁.stack t).hi →
      m₃.mem a = (m₁.lwtDispatch k₁ t next).mem a) :
    (m₃.core k₃).reg = (m₁.core k₁).reg ∧ (m₃.core k₃).esp = (m₁.core k₁).esp ∧
      ∀ a, (m₁.core k₁).esp ≤ a → a < (m₁.stack t).hi → m₃.mem a = m₁.mem a := by
  obtain ⟨hesp, hreg⟩ := h.resumed rfl
  have hsp : (m₁.core k₁).esp - 32 + 32 = (m₁.core k₁).esp := by omega
  rw [hsp] at hesp hreg
  refine ⟨?_, hesp, fun a hlo hhi => ?_⟩
  · funext r
    have hpos := r.depth_pos
    have hdepth := r.depth_le
    rw [hreg r, hmem _ (by omega) (by omega)]
    exact lwtDispatch_saved (by omega) r
  · rw [hmem a (by omega) hhi]
    exact Machine.lwtDispatch_used (by omega) hlo

/-- A thread that is dispatched again goes on as if its call of `__lwt_dispatch` had returned at
once: registers, stack pointer and the used part of the stack are those it had, however many
kernel threads have computed, created, ended and dispatched other threads in between. -/
theorem dispatch_returns (hr : Transition.Run Step .boot tr m) {i j : ℕ} (hij : i ≤ j)
    {m₁ m₂ m₃ : Machine} {k₁ k₂ : KthdId} (hi : tr[i]? = some (m₁, ⟨k₁, .dispatch next⟩))
    (hcur : (m₁.core k₁).cur = some t) (hlive : m₁.live t = true)
    (hj : tr[j]? = some (m₂, ⟨k₂, .dispatch t⟩)) (hj' : (Transition.visited tr m)[j + 1]? = some m₃)
    (hfirst : ∀ n p, i ≤ n → n < j → tr[n]? = some p → p.2.act ≠ .dispatch t) :
    (m₃.core k₂).cur = some t ∧ (m₃.core k₂).entry = .retDispatch ∧
      (m₃.core k₂).reg = (m₁.core k₁).reg ∧ (m₃.core k₂).esp = (m₁.core k₁).esp ∧
      m₃.stack t = m₁.stack t ∧
      ∀ a, (m₁.core k₁).esp ≤ a → a < (m₁.stack t).hi → m₃.mem a = m₁.mem a := by
  have hm₁ : m₁.Sound := sound_run (hr.take hi)
  have hstep₃ : Step m₂ ⟨k₂, .dispatch t⟩ m₃ := hr.step_visited hj hj'
  rcases Nat.lt_or_eq_of_le hij with hlt | rfl
  · have hnext : next ≠ t := fun hn => hfirst i _ le_rfl hlt hi (by rw [hn])
    obtain ⟨m', hm'⟩ : ∃ m', (Transition.visited tr m)[i + 1]? = some m' := by
      have hlen := (List.getElem?_eq_some_iff.mp hj).1
      refine ⟨_, List.getElem?_eq_getElem ?_⟩
      rw [Transition.visited, List.length_append, List.length_map]
      omega
    cases hr.step_visited hi hm' with
    | @dispatch _ curr _ cur live free room aligned =>
      obtain rfl : curr = t := Option.some.inj (cur.symm.trans hcur)
      have hsusp := Machine.suspended_dispatch hm₁ cur hlive hnext room.1
      have hwait := Suspended.until hr (Nat.succ_le_of_lt hlt) hm' hsusp
        (Transition.visited_of_getElem? hj) fun n p hn => hfirst n p (Nat.le_of_succ_le hn)
      obtain ⟨hent, hstack, hmem⟩ := hwait.dispatched (sound_run (hr.take hj)) hstep₃
      obtain ⟨hreg, hesp, hused⟩ := hent.returns room.1 room.2 hmem
      exact ⟨hent.cur, hent.entry, hreg, hesp, hstack, hused⟩
  · -- the thread dispatches itself
    obtain ⟨rfl, hl⟩ := Prod.mk.inj (Option.some.inj (hi.symm.trans hj))
    obtain ⟨rfl, hact⟩ := Label.mk.inj hl
    obtain rfl : next = t := by simpa using hact
    cases hstep₃ with
    | @dispatch _ curr _ cur live free room aligned =>
      obtain rfl : curr = next := Option.some.inj (cur.symm.trans hcur)
      have hent : (m₁.lwtDispatch k₁ curr curr).Entered k₁ curr
          ⟨.retDispatch, (m₁.core k₁).esp - 32⟩ := by
        refine Machine.entered ?_
        rw [Machine.lwtDispatch_context, Function.update_self, Cpu.pushal_esp]
        rfl
      have hmem : ∀ a, (m₁.core k₁).esp - 32 ≤ a → a < (m₁.stack curr).hi →
          (m₁.lwtDispatch k₁ curr curr).mem a = (m₁.lwtDispatch k₁ curr curr).mem a :=
        fun _ _ _ => rfl
      obtain ⟨hreg, hesp, hused⟩ := hent.returns room.1 room.2 hmem
      exact ⟨hent.cur, hent.entry, hreg, hesp, rfl, hused⟩

/-- A new thread starts at `__lwt_trampoline`, with the arguments of `lwt_create` where a function
finds its arguments: behind the return address on top of the stack. -/
theorem trampoline_starts (hr : Transition.Run Step .boot tr m) {i j : ℕ} (hij : i < j)
    {m₁ m₂ m₃ : Machine} {k₁ k₂ : KthdId} (hi : tr[i]? = some (m₁, ⟨k₁, .create t s fn data⟩))
    (hj : tr[j]? = some (m₂, ⟨k₂, .dispatch t⟩)) (hj' : (Transition.visited tr m)[j + 1]? = some m₃)
    (hfirst : ∀ n p, i ≤ n → n < j → tr[n]? = some p → p.2.act ≠ .dispatch t) :
    (m₃.core k₂).cur = some t ∧ (m₃.core k₂).entry = .trampoline ∧
      (m₃.core k₂).esp = s.hi - 12 ∧ m₃.mem ((m₃.core k₂).esp + 4) = fn ∧
      m₃.mem ((m₃.core k₂).esp + 8) = data ∧ m₃.stack t = s := by
  have hstep₃ : Step m₂ ⟨k₂, .dispatch t⟩ m₃ := hr.step_visited hj hj'
  obtain ⟨m', hm'⟩ : ∃ m', (Transition.visited tr m)[i + 1]? = some m' := by
    have hlen := (List.getElem?_eq_some_iff.mp hj).1
    refine ⟨_, List.getElem?_eq_getElem ?_⟩
    rw [Transition.visited, List.length_append, List.length_map]
    omega
  cases hr.step_visited hi hm' with
  | create dead size aligned apart =>
    have hsusp : (m₁.lwtCreate t s fn data).Suspended t s ⟨.trampoline, s.hi - 4 - 4 - 4⟩
        (m₁.lwtCreate t s fn data).mem := by
      refine ⟨?_, fun hrun => dead (.inr hrun), ?_, ?_, ?_, fun _ _ _ => rfl⟩
      · simp [Machine.lwtCreate]
      · simp [Machine.lwtCreate]
      · simp [Machine.lwtCreate]
      · dsimp only
        omega
    have hwait := Suspended.until hr (Nat.succ_le_of_lt hij) hm' hsusp
      (Transition.visited_of_getElem? hj) fun n p hn => hfirst n p (Nat.le_of_succ_le hn)
    obtain ⟨hent, hstack, hmem⟩ := hwait.dispatched (sound_run (hr.take hj)) hstep₃
    have hesp : (m₃.core k₂).esp = s.hi - 12 := by
      rw [hent.started rfl]
      dsimp only
      omega
    have hfn : s.hi - 12 + 4 = s.hi - 4 - 4 := by omega
    have hdata : s.hi - 12 + 8 = s.hi - 4 := by omega
    have hne : s.hi - 4 ≠ s.hi - 4 - 4 := by omega
    refine ⟨hent.cur, hent.entry, hesp, ?_, ?_, hstack⟩
    · rw [hesp, hfn, hmem _ (by dsimp only; omega) (by omega)]
      simp [Machine.lwtCreate]
    · rw [hesp, hdata, hmem _ (by dsimp only; omega) (by omega)]
      simp [Machine.lwtCreate, hne]

/-- Kernel thread 1 with its main thread 0, which has computed. -/
def main : Machine :=
  let m := Machine.boot.initiate 1 0 ⟨0, 4096⟩
  { m with
    core := Function.update m.core 1 { m.core 1 with reg := fun _ => 7, esp := 4000 }
    mem := Function.update m.mem 4004 42 }

def created : Machine := main.lwtCreate 1 ⟨8192, 12288⟩ 11 22

def started : Machine := created.lwtDispatch 1 0 1

def computed : Machine :=
  { started with
    core := Function.update started.core 1
      { started.core 1 with reg := fun _ => 9, esp := 12200 } }

def resumed : Machine := computed.lwtDispatch 1 1 0

def mainTrace : List (Machine × Label) :=
  [(.boot, ⟨1, .initiate 0 ⟨0, 4096⟩⟩), (Machine.boot.initiate 1 0 ⟨0, 4096⟩, ⟨1, .compute⟩),
    (main, ⟨1, .create 1 ⟨8192, 12288⟩ 11 22⟩), (created, ⟨1, .dispatch 1⟩),
    (started, ⟨1, .compute⟩), (computed, ⟨1, .dispatch 0⟩)]

theorem run_main : Transition.Run Step .boot mainTrace resumed := by
  have hkeeps (t : ThreadId) : ¬ Machine.boot.Keeps t := by
    rintro (ht | ⟨k, hk⟩)
    · cases ht
    · cases hk
  have hmain (t : ThreadId) (ht : main.Keeps t) : t = 0 := by
    obtain ht | ⟨k, hk⟩ := ht
    · by_contra h0
      simp [main, Machine.initiate, Machine.boot, h0] at ht
    · by_cases h1 : k = 1
      · subst h1
        simpa [main, Machine.initiate, eq_comm] using hk
      · simp [main, Machine.initiate, Machine.boot, h1] at hk
  have hboot : Step .boot ⟨1, .initiate 0 ⟨0, 4096⟩⟩ (Machine.boot.initiate 1 0 ⟨0, 4096⟩) :=
    .initiate rfl (hkeeps 0) fun u hu => absurd hu (hkeeps u)
  have hcompute : Step (Machine.boot.initiate 1 0 ⟨0, 4096⟩) ⟨1, .compute⟩ main := by
    refine .compute ⟨fun j hj => ?_, ?_, rfl, rfl, rfl, fun t ht hr => ?_⟩
    · simp [main, hj]
    · simp [main]
    · have h0 : t = 0 := by
        by_contra h0
        simp [Machine.initiate, Machine.boot, h0] at ht
      exact absurd ⟨1, by simp [Machine.initiate, h0]⟩ hr
  have hcreate : Step main ⟨1, .create 1 ⟨8192, 12288⟩ 11 22⟩ created := by
    refine .create (fun h1 => ?_) (by decide) (by decide) fun u hu => ?_
    · exact absurd (hmain 1 h1) (by decide)
    · rw [hmain u hu]
      exact .inr (by decide)
  have hstart : Step created ⟨1, .dispatch 1⟩ started := by
    refine .dispatch (by decide) (by decide) (fun hr => ?_) (by decide) (by decide)
    exact absurd (hmain 1 (.inr hr)) (by decide)
  have hgo : Step started ⟨1, .compute⟩ computed := by
    refine .compute ⟨fun j hj => ?_, ?_, rfl, rfl, rfl, fun _ _ _ _ _ _ => rfl⟩
    · simp [computed, hj]
    · simp [computed]
  have hresume : Step computed ⟨1, .dispatch 0⟩ resumed := by
    refine .dispatch (by decide) (by decide) (fun hr => ?_) (by decide) (by decide)
    obtain ⟨j, hj⟩ := hr
    by_cases h1 : j = 1
    · subst h1
      exact absurd hj (by decide)
    · have hnone : (computed.core j).cur = none := by
        simp [computed, started, created, main, Machine.lwtDispatch, Machine.lwtCreate,
          Machine.initiate, Machine.boot, h1]
      exact absurd (hnone.symm.trans hj) (by simp)
  exact .cons hboot (.cons hcompute (.cons hcreate (.cons hstart (.cons hgo (.cons hresume .nil)))))

theorem dispatch_returns_main :
    (resumed.core 1).reg = (created.core 1).reg ∧ (resumed.core 1).esp = 4000 ∧
      resumed.mem 4004 = 42 := by
  obtain ⟨-, -, hreg, hesp, -, hmem⟩ :=
    dispatch_returns (t := 0) run_main (i := 3) (j := 5) (by decide) rfl (by decide) (by decide)
      rfl rfl fun n p h3 h5 hp => by
        obtain rfl | rfl : n = 3 ∨ n = 4 := by omega
        · obtain rfl := Option.some.inj hp
          simp
        · obtain rfl := Option.some.inj hp
          simp
  exact ⟨hreg, hesp, (hmem 4004 (by decide) (by decide)).trans (by decide)⟩

theorem trampoline_starts_main :
    (started.core 1).entry = .trampoline ∧ (started.core 1).esp = 12276 ∧
      started.mem 12280 = 11 ∧ started.mem 12284 = 22 := by
  obtain ⟨-, hentry, hesp, hfn, hdata, -⟩ :=
    trampoline_starts run_main (i := 2) (j := 3) (by decide) rfl rfl rfl fun n p h2 h3 hp => by
      obtain rfl : n = 2 := by omega
      obtain rfl := Option.some.inj hp
      simp
  exact ⟨hentry, hesp, hfn, hdata⟩

end

end Lwt.Asm
