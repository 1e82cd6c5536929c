import Nachos.GuardedRuns
import Nachos.I386
import Mathlib.Order.CompletePartialOrder

/-!
# `SWITCH` and `ThreadRoot` (`threads/switch.s`, the i386 part)

`SWITCH` stores the registers of the running thread in its `Thread` object, at the offsets of
`switch.h`, and loads those of the next one. The stored stack pointer is the one in `SWITCH`, so
the word it points to is the address to which the thread returns. That address is stored in the
object, too; on the way back it is copied to `4(%esp)`, over the first argument, and `ret` takes
the one that is still on the stack.

`Thread::StackAllocate` lays out an object and a stack so that the first switch to the thread
returns into `ThreadRoot`.
-/
namespace Nachos.ContextSwitch
open GuardedRuns I386

/-- The offsets of the registers from the beginning of the thread object. -/
def offset : Register → Word
  | .esp => 0#32
  | .eax => 4#32
  | .ebx => 8#32
  | .ecx => 12#32
  | .edx => 16#32
  | .ebp => 20#32
  | .esi => 24#32
  | .edi => 28#32

/-- `_PC` -/
def pcOffset : Word := 32#32

section code
variable (eaxSave : Word)

/-- `SWITCH` up to the load of `t2`. -/
def saveCode : List Instr :=
  [.storeAt .eax eaxSave, .load 4#32 .esp .eax, .store .ebx (offset .ebx) .eax,
    .store .ecx (offset .ecx) .eax, .store .edx (offset .edx) .eax, .store .esi (offset .esi) .eax,
    .store .edi (offset .edi) .eax, .store .ebp (offset .ebp) .eax, .store .esp (offset .esp) .eax,
    .loadAt eaxSave .ebx, .store .ebx (offset .eax) .eax, .load 0#32 .esp .ebx,
    .store .ebx pcOffset .eax]

/-- The rest of it, up to `ret`. -/
def restoreCode : List Instr :=
  [.load 8#32 .esp .eax, .load (offset .eax) .eax .ebx, .storeAt .ebx eaxSave,
    .load (offset .ebx) .eax .ebx, .load (offset .ecx) .eax .ecx, .load (offset .edx) .eax .edx,
    .load (offset .esi) .eax .esi, .load (offset .edi) .eax .edi, .load (offset .ebp) .eax .ebp,
    .load (offset .esp) .eax .esp, .load pcOffset .eax .eax, .store .eax 4#32 .esp,
    .loadAt eaxSave .eax]

/-- `SWITCH`: where it returns to, and the processor there. -/
def switch (c : Cpu) : Word × Cpu := (c.run (saveCode eaxSave ++ restoreCode eaxSave)).ret

end code

/-- The words of a thread object in which `SWITCH` stores. -/
def slots (obj : Word) : Set Word := {a | a = obj + pcOffset ∨ ∃ r, a = obj + offset r}

theorem slot_mem (obj : Word) (r : Register) : obj + offset r ∈ slots obj := .inr ⟨r, rfl⟩

theorem pcSlot_mem (obj : Word) : obj + pcOffset ∈ slots obj := .inl rfl

@[simp] theorem offset_eq_offset {r r' : Register} : offset r = offset r' ↔ r = r' := by
  cases r <;> cases r' <;> decide

@[simp] theorem offset_ne_pcOffset (r : Register) : offset r ≠ pcOffset := by
  cases r <;> decide

/-- The stack at the entry of `SWITCH(t1, t2)`, apart from the words that are stored to. -/
structure Entered (eaxSave : Word) (c : Cpu) (t1 t2 : Word) : Prop where
  first : c.mem (c.reg .esp + 4#32) = t1
  second : c.mem (c.reg .esp + 8#32) = t2
  frame : ∀ a ∈ [c.reg .esp, c.reg .esp + 4#32, c.reg .esp + 8#32], a ∉ slots t1 ∧ a ≠ eaxSave
  save : eaxSave ∉ slots t1

/-- The first half stores the registers and the return address and leaves the rest of memory. -/
structure Stored (eaxSave : Word) (c : Cpu) (t1 : Word) (d : Cpu) : Prop where
  reg : ∀ r, d.mem (t1 + offset r) = c.reg r
  pc : d.mem (t1 + pcOffset) = c.mem (c.reg .esp)
  mem : ∀ a, a ∉ slots t1 → a ≠ eaxSave → d.mem a = c.mem a
  esp : d.reg .esp = c.reg .esp

theorem Entered.stored {eaxSave : Word} {c : Cpu} {t1 t2 : Word} (h : Entered eaxSave c t1 t2) :
    Stored eaxSave c t1 (c.run (saveCode eaxSave)) := by
  have hsave : ∀ r, eaxSave ≠ t1 + offset r := fun r he => h.save (he ▸ slot_mem t1 r)
  have hfirst : c.reg .esp + 4#32 ≠ eaxSave := (h.frame _ (by simp)).2
  have hret : c.reg .esp ≠ eaxSave := (h.frame _ (by simp)).2
  have hretSlot : ∀ r, c.reg .esp ≠ t1 + offset r := by
    intro r he
    exact (h.frame (c.reg .esp) (by simp)).1 (he ▸ slot_mem t1 r)
  have hmem : (c.run (saveCode eaxSave)).mem =
      Function.update (Function.update (Function.update (Function.update (Function.update
        (Function.update (Function.update (Function.update (Function.update (Function.update c.mem
          eaxSave (c.reg .eax)) (t1 + offset .ebx) (c.reg .ebx)) (t1 + offset .ecx) (c.reg .ecx))
          (t1 + offset .edx) (c.reg .edx)) (t1 + offset .esi) (c.reg .esi))
          (t1 + offset .edi) (c.reg .edi)) (t1 + offset .ebp) (c.reg .ebp))
          (t1 + offset .esp) (c.reg .esp)) (t1 + offset .eax) (c.reg .eax))
          (t1 + pcOffset) (c.mem (c.reg .esp)) := by
    simp only [saveCode, Cpu.run_cons, Cpu.run_nil, Cpu.exec, Cpu.write, Cpu.set]
    simp [Function.update_of_ne, h.first, hsave, hfirst, hret, hretSlot]
  refine ⟨fun r => ?_, ?_, fun a ha hsave' => ?_, ?_⟩
  · rw [hmem]
    cases r <;> simp
  · rw [hmem, Function.update_self]
  · have hslot : ∀ r, a ≠ t1 + offset r := fun r he => ha (he ▸ slot_mem t1 r)
    have hpc : a ≠ t1 + pcOffset := fun he => ha (he ▸ pcSlot_mem t1)
    rw [hmem]
    simp [Function.update_of_ne, hslot, hpc, hsave']
  · simp [saveCode, Cpu.exec, Cpu.write, Cpu.set]

/-- What the second half makes of the words in the object of `t2`. -/
structure Restored (eaxSave : Word) (d : Cpu) (t2 : Word) (r : Word × Cpu) : Prop where
  pc : r.1 = d.mem (d.mem (t2 + offset .esp))
  reg : ∀ k, k ≠ .esp → r.2.reg k = d.mem (t2 + offset k)
  esp : r.2.reg .esp = d.mem (t2 + offset .esp) + 4#32
  mem : ∀ a, a ≠ eaxSave → a ≠ d.mem (t2 + offset .esp) + 4#32 → r.2.mem a = d.mem a

theorem restored {eaxSave : Word} {d : Cpu} {t2 : Word}
    (harg : d.mem (d.reg .esp + 8#32) = t2) (hsave : eaxSave ∉ slots t2)
    (hret : d.mem (t2 + offset .esp) ≠ eaxSave)
    (harg' : eaxSave ≠ d.mem (t2 + offset .esp) + 4#32) :
    Restored eaxSave d t2 (d.run (restoreCode eaxSave)).ret := by
  have hslot : ∀ r, t2 + offset r ≠ eaxSave := fun r he => hsave (he ▸ slot_mem t2 r)
  have hpc : t2 + pcOffset ≠ eaxSave := fun he => hsave (he ▸ pcSlot_mem t2)
  have hne : d.mem (t2 + offset .esp) ≠ d.mem (t2 + offset .esp) + 4#32 := by
    simp
  refine ⟨?_, fun k hk => ?_, ?_, fun a ha ha' => ?_⟩
  · simp [restoreCode, Cpu.ret, Cpu.exec, Cpu.write, Cpu.set, Function.update_of_ne, harg, hslot,
      hpc, hret, hne]
  · cases k <;> simp_all [restoreCode, Cpu.ret, Cpu.exec, Cpu.write, Cpu.set, Function.update_of_ne]
  · simp [restoreCode, Cpu.ret, Cpu.exec, Cpu.write, Cpu.set, Function.update_of_ne, harg, hslot]
  · simp [restoreCode, Cpu.ret, Cpu.exec, Cpu.write, Cpu.set, Function.update_of_ne, harg, hslot,
      ha, ha']

/-- Where the thread objects and the stacks are, and the variable `_eax_save`. -/
structure Layout (T : Type) where
  obj : T → Word
  stack : T → Set Word
  eaxSave : Word

/-- The words that belong to a thread. -/
def Layout.own {T : Type} (L : Layout T) (t : T) : Set Word := slots (L.obj t) ∪ L.stack t

structure Layout.Alone {T : Type} (L : Layout T) (t : T) : Prop where
  save : L.eaxSave ∉ L.own t
  disjoint : Disjoint (slots (L.obj t)) (L.stack t)

/-- The procedures whose addresses `StackAllocate` stores. -/
structure Symbols where
  threadRoot : Word
  interruptEnable : Word
  threadFinish : Word

/-- `StackSize`, in words. -/
abbrev stackSize : ℕ := 4 * 1024

/-- `STACK_FENCEPOST` -/
abbrev stackFencepost : Word := 0xdeadbeef#32

/-- The initial `stackTop` of a thread with the stack at `stack`. -/
def stackTop (stack : Word) : Word := stack + BitVec.ofNat 32 (4 * (stackSize - 4)) - 4#32

/-- `Thread::StackAllocate` on the object `obj`; the words of `machineState` have the offsets of
the registers. -/
def stackAllocate (sy : Symbols) (obj stack func arg : Word) (mem : Word → Word) : Word → Word :=
  let mem := Function.update mem (obj + offset .esp) (stackTop stack)
  let mem := Function.update mem (stackTop stack) sy.threadRoot
  let mem := Function.update mem stack stackFencepost
  let mem := Function.update mem (obj + pcOffset) sy.threadRoot
  let mem := Function.update mem (obj + offset .ecx) sy.interruptEnable
  let mem := Function.update mem (obj + offset .esi) func
  let mem := Function.update mem (obj + offset .edx) arg
  Function.update mem (obj + offset .edi) sy.threadFinish

/-- The registers of a thread, and the address at which it goes on. -/
structure Context where
  reg : Register → Word
  pc : Word

structure System (T : Type) where
  current : T
  live : T → Bool
  pc : Word
  cpu : Cpu

inductive Label (T : Type) where
  /-- the running thread executes code of its own -/
  | work (pc : Word) (cpu : Cpu)
  | fork (t : T) (stack func arg : Word)
  /-- it has called `SWITCH`, with the return address `ra` -/
  | switch (next : T) (ra : Word)
  | destroy (t : T)

variable {T : Type} [DecidableEq T] (L : Layout T) (sy : Symbols)

def System.step (s : System T) : Label T → System T
  | .work pc cpu => { s with pc := pc, cpu := cpu }
  | .fork t stack func arg => { s with
      live := Function.update s.live t true
      cpu := { s.cpu with mem := stackAllocate sy (L.obj t) stack func arg s.cpu.mem } }
  | .switch next _ =>
    let r := switch L.eaxSave s.cpu
    { s with current := next, pc := r.1, cpu := r.2 }
  | .destroy t => { s with live := Function.update s.live t false }

def Step (s : System T) (l : Label T) (s' : System T) : Prop := s' = s.step L sy l

/-- Threads keep to their own memory: the running one writes neither to the stack nor to the
context of another, a new one gets words of its own, and `SWITCH` is called with its arguments on
the stack of the caller. -/
def Fair (s : System T) : Label T → Prop
  | .work _ cpu => ∀ t, t ≠ s.current → s.live t = true → ∀ a ∈ L.own t, cpu.mem a = s.cpu.mem a
  | .fork t stack _ _ => s.live t = false ∧ L.Alone t ∧
      (∀ u, s.live u = true → Disjoint (L.own t) (L.own u)) ∧
      ∀ a ∈ [stack, stackTop stack, stackTop stack + 4#32], a ∈ L.stack t
  | .switch next ra => s.live next = true ∧ s.cpu.mem (s.cpu.reg .esp) = ra ∧
      s.cpu.mem (s.cpu.reg .esp + 4#32) = L.obj s.current ∧
      s.cpu.mem (s.cpu.reg .esp + 8#32) = L.obj next ∧
      ∀ a ∈ [s.cpu.reg .esp, s.cpu.reg .esp + 4#32, s.cpu.reg .esp + 8#32], a ∈ L.stack s.current
  | .destroy t => t ≠ s.current

/-- What the threads are meant to be: each has registers of its own. -/
structure Private (T : Type) where
  current : T
  context : T → Option Context

/-- A thread that will begin with `ThreadRoot`. -/
structure Begins (stack func arg : Word) (ctx : Context) : Prop where
  pc : ctx.pc = sy.threadRoot
  startup : ctx.reg .ecx = sy.interruptEnable
  arg : ctx.reg .edx = arg
  func : ctx.reg .esi = func
  whenDone : ctx.reg .edi = sy.threadFinish
  esp : ctx.reg .esp = stackTop stack + 4#32

/-- The caller finds that `SWITCH` did nothing but return. -/
def Context.returned (ctx : Context) (ra : Word) : Context :=
  ⟨Function.update ctx.reg .esp (ctx.reg .esp + 4#32), ra⟩

@[simp] theorem Context.returned_esp (ctx : Context) (ra : Word) :
    (ctx.returned ra).reg .esp = ctx.reg .esp + 4#32 :=
  Function.update_self Register.esp _ ctx.reg

theorem Context.returned_of_ne (ctx : Context) (ra : Word) {r : Register} (hr : r ≠ .esp) :
    (ctx.returned ra).reg r = ctx.reg r :=
  Function.update_of_ne hr ..

inductive PrivateStep : Private T → Label T → Private T → Prop
  | work (p : Private T) (pc : Word) (cpu : Cpu) : PrivateStep p (.work pc cpu)
      { p with context := Function.update p.context p.current (some ⟨cpu.reg, pc⟩) }
  | fork (p : Private T) (t : T) (stack func arg : Word) {ctx : Context}
      (h : Begins sy stack func arg ctx) : PrivateStep p (.fork t stack func arg)
      { p with context := Function.update p.context t (some ctx) }
  | switch (p : Private T) (next : T) (ra : Word) {ctx : Context}
      (h : p.context p.current = some ctx) : PrivateStep p (.switch next ra)
      ⟨next, Function.update p.context p.current (some (ctx.returned ra))⟩
  | destroy (p : Private T) (t : T) : PrivateStep p (.destroy t)
      { p with context := Function.update p.context t none }

/-- The object and the stack of a thread that does not run have its context. -/
structure Holds (mem : Word → Word) (t : T) (ctx : Context) : Prop where
  reg : ∀ r, r ≠ .esp → mem (L.obj t + offset r) = ctx.reg r
  esp : mem (L.obj t + offset .esp) + 4#32 = ctx.reg .esp
  pc : mem (mem (L.obj t + offset .esp)) = ctx.pc
  frame : mem (L.obj t + offset .esp) ∈ L.stack t
  argument : mem (L.obj t + offset .esp) + 4#32 ∈ L.stack t

structure Represents (s : System T) (p : Private T) : Prop where
  current : p.current = s.current
  live : ∀ t, s.live t = (p.context t).isSome
  running : p.context s.current = some ⟨s.cpu.reg, s.pc⟩
  alone : ∀ t, s.live t = true → L.Alone t
  apart : ∀ t u, s.live t = true → s.live u = true → t ≠ u → Disjoint (L.own t) (L.own u)
  waiting : ∀ t ctx, t ≠ s.current → p.context t = some ctx → Holds L s.cpu.mem t ctx

variable {L sy}

omit [DecidableEq T] in
/-- The context of a thread is in the words that belong to it. -/
theorem Holds.congr {mem mem' : Word → Word} {t : T} {ctx : Context} (h : Holds L mem t ctx)
    (hmem : ∀ a ∈ L.own t, mem' a = mem a) : Holds L mem' t ctx := by
  have hslot : ∀ r, mem' (L.obj t + offset r) = mem (L.obj t + offset r) :=
    fun r => hmem _ (.inl (slot_mem _ r))
  constructor
  · intro r hr
    rw [hslot, h.reg r hr]
  · rw [hslot, h.esp]
  · rw [hslot, hmem _ (.inr h.frame), h.pc]
  · rw [hslot]
    exact h.frame
  · rw [hslot]
    exact h.argument

omit [DecidableEq T] in
theorem Represents.live_of_context {s : System T} {p : Private T} (h : Represents L s p) {t : T}
    {ctx : Context} (hctx : p.context t = some ctx) : s.live t = true := by
  rw [h.live, hctx, Option.isSome_some]

theorem Represents.work {s : System T} {p : Private T} (h : Represents L s p) {pc : Word}
    {cpu : Cpu} (hfair : Fair L s (.work pc cpu)) :
    Represents L (s.step L sy (.work pc cpu))
      { p with context := Function.update p.context s.current (some ⟨cpu.reg, pc⟩) } where
  current := h.current
  live t := by
    by_cases ht : t = s.current
    · subst ht
      simpa [System.step, h.running] using h.live s.current
    · simpa [System.step, ht] using h.live t
  running := Function.update_self _ _ _
  alone := h.alone
  apart := h.apart
  waiting t ctx ht hctx := by
    have hctx : p.context t = some ctx := (Function.update_of_ne ht _ _).symm.trans hctx
    have hlive := h.live_of_context hctx
    exact (h.waiting t ctx ht hctx).congr (hfair t ht hlive)

theorem Represents.destroy {s : System T} {p : Private T} (h : Represents L s p) {t : T}
    (ht : t ≠ s.current) :
    Represents L (s.step L sy (.destroy t))
      { p with context := Function.update p.context t none } := by
  have hlive : ∀ {u}, (Function.update s.live t false) u = true → s.live u = true := by
    intro u hu
    by_cases hut : u = t
    · subst hut
      simp at hu
    · rwa [Function.update_of_ne hut] at hu
  refine ⟨h.current, fun u => ?_, (Function.update_of_ne ht.symm _ _).trans h.running,
    fun u hu => h.alone u (hlive hu), fun u v hu hv => h.apart u v (hlive hu) (hlive hv),
    fun u ctx hu hctx => ?_⟩
  · by_cases hut : u = t
    · simp [System.step, hut]
    · simpa [System.step, hut] using h.live u
  · have hut : u ≠ t := by
      rintro rfl
      simp at hctx
    exact h.waiting u ctx hu ((Function.update_of_ne hut _ _).symm.trans hctx)

section fork
variable {t : T} {stack : Word} (sy) (func arg : Word) (mem : Word → Word)

theorem stackTop_ne (stack : Word) : stackTop stack ≠ stack := by
  intro h
  have hsum : stack + (BitVec.ofNat 32 (4 * (stackSize - 4)) + -4#32) = stack + 0#32 := by
    rw [← BitVec.add_assoc, ← BitVec.sub_eq_add_neg, BitVec.add_zero]
    exact h
  exact absurd ((BitVec.add_right_inj _).mp hsum) (by decide)

omit [DecidableEq T] in
/-- `StackAllocate` writes to the words of the new thread only. -/
theorem stackAllocate_of_notMem {a : Word} (ha : a ∉ L.own t)
    (hstack : ∀ a ∈ [stack, stackTop stack, stackTop stack + 4#32], a ∈ L.stack t) :
    stackAllocate sy (L.obj t) stack func arg mem a = mem a := by
  have hslot : ∀ r, a ≠ L.obj t + offset r := fun r he => ha (.inl (he ▸ slot_mem _ r))
  have hpc : a ≠ L.obj t + pcOffset := fun he => ha (.inl (he ▸ pcSlot_mem _))
  have hbase : a ≠ stack := fun he => ha (.inr (he ▸ hstack stack (by simp)))
  have htop : a ≠ stackTop stack := fun he => ha (.inr (he ▸ hstack (stackTop stack) (by simp)))
  simp [stackAllocate, Function.update_of_ne, hslot, hpc, hbase, htop]

omit [DecidableEq T] in
/-- The new thread will begin with `ThreadRoot`; the registers that nobody sets are arbitrary. -/
theorem exists_begins (halone : L.Alone t)
    (hstack : ∀ a ∈ [stack, stackTop stack, stackTop stack + 4#32], a ∈ L.stack t) :
    ∃ ctx, Begins sy stack func arg ctx ∧
      Holds L (stackAllocate sy (L.obj t) stack func arg mem) t ctx := by
  have hbase : ∀ r, L.obj t + offset r ≠ stack := fun r he =>
    Set.disjoint_left.mp halone.disjoint (slot_mem _ r) (he ▸ hstack stack (by simp))
  have htop : ∀ r, L.obj t + offset r ≠ stackTop stack := fun r he =>
    Set.disjoint_left.mp halone.disjoint (slot_mem _ r) (he ▸ hstack (stackTop stack) (by simp))
  have htop' : stackTop stack ≠ L.obj t + pcOffset := fun he =>
    Set.disjoint_left.mp halone.disjoint (pcSlot_mem _) (he ▸ hstack (stackTop stack) (by simp))
  have hesp : stackAllocate sy (L.obj t) stack func arg mem (L.obj t + offset .esp) =
      stackTop stack := by
    simp [stackAllocate, Function.update_of_ne, hbase, htop]
  refine ⟨⟨Function.update (fun r => stackAllocate sy (L.obj t) stack func arg mem
    (L.obj t + offset r)) .esp (stackTop stack + 4#32), sy.threadRoot⟩, ?_, ?_⟩
  · constructor <;> simp [stackAllocate]
  · constructor
    · intro r hr
      simp [Function.update_of_ne hr]
    · simp [hesp]
    · rw [hesp]
      simp [stackAllocate, Function.update_of_ne, htop', stackTop_ne, fun r => (htop r).symm]
    · rw [hesp]
      exact hstack _ (by simp)
    · rw [hesp]
      exact hstack _ (by simp)

end fork

theorem Represents.fork {s : System T} {p : Private T} (h : Represents L s p) {t : T}
    {stack func arg : Word} (hfair : Fair L s (.fork t stack func arg)) :
    ∃ ctx, Begins sy stack func arg ctx ∧
      Represents L (s.step L sy (.fork t stack func arg))
        { p with context := Function.update p.context t (some ctx) } := by
  obtain ⟨hnew, halone, hapart, hstack⟩ := hfair
  obtain ⟨ctx, hbegins, hholds⟩ := exists_begins sy func arg s.cpu.mem halone hstack
  have hrun := h.live_of_context h.running
  have hcur : s.current ≠ t := by
    rintro rfl
    rw [hnew] at hrun
    cases hrun
  have hlive : ∀ {u}, u ≠ t → (Function.update s.live t true) u = true → s.live u = true := by
    intro u hut hu
    rwa [Function.update_of_ne hut] at hu
  refine ⟨ctx, hbegins, h.current, fun u => ?_, (Function.update_of_ne hcur _ _).trans h.running,
    fun u hu => ?_, fun u v hu hv huv => ?_, fun u ctx' hu hctx => ?_⟩
  · by_cases hut : u = t
    · simp [System.step, hut]
    · simpa [System.step, hut] using h.live u
  · by_cases hut : u = t
    · exact hut ▸ halone
    · exact h.alone u (hlive hut hu)
  · by_cases hut : u = t
    · subst hut
      exact hapart v (hlive huv.symm hv)
    · by_cases hvt : v = t
      · subst hvt
        exact (hapart u (hlive hut hu)).symm
      · exact h.apart u v (hlive hut hu) (hlive hvt hv) huv
  · by_cases hut : u = t
    · subst hut
      have hself : some ctx = some ctx' :=
        (Function.update_self u (some ctx) p.context).symm.trans hctx
      exact Option.some.inj hself ▸ hholds
    · have hctx : p.context u = some ctx' := (Function.update_of_ne hut _ _).symm.trans hctx
      have hulive := h.live_of_context hctx
      exact (h.waiting u ctx' hu hctx).congr fun a ha =>
        stackAllocate_of_notMem _ _ _ _ (Set.disjoint_right.mp (hapart u hulive) ha) hstack

omit [DecidableEq T] in
theorem Represents.entered {s : System T} {p : Private T} (h : Represents L s p) {next : T}
    {ra : Word} (hfair : Fair L s (.switch next ra)) :
    Entered L.eaxSave s.cpu (L.obj s.current) (L.obj next) := by
  obtain ⟨-, -, hfirst, hsecond, hframe⟩ := hfair
  have halone := h.alone s.current (h.live_of_context h.running)
  refine ⟨hfirst, hsecond, fun a ha => ?_, fun hs => halone.save (.inl hs)⟩
  refine ⟨Set.disjoint_right.mp halone.disjoint (hframe a ha), ?_⟩
  rintro rfl
  exact halone.save (.inr (hframe _ ha))

/-- After the first half of `SWITCH`, all threads wait. -/
theorem Represents.stored {s : System T} {p : Private T} (h : Represents L s p) {next : T}
    {ra : Word} (hfair : Fair L s (.switch next ra)) {t : T} {ctx : Context}
    (ht : Function.update p.context s.current
      (some ((⟨s.cpu.reg, s.pc⟩ : Context).returned ra)) t = some ctx) :
    Holds L (s.cpu.run (saveCode L.eaxSave)).mem t ctx := by
  have hentered := h.entered hfair
  have hstored := hentered.stored
  obtain ⟨-, hra, -, -, hframe⟩ := hfair
  have hrun := h.live_of_context h.running
  by_cases htc : t = s.current
  · subst htc
    rw [Function.update_self] at ht
    obtain rfl := Option.some.inj ht
    have hesp := hstored.reg .esp
    constructor
    · intro r hr
      rw [hstored.reg r, Context.returned_of_ne _ _ hr]
    · rw [hesp, Context.returned_esp]
    · obtain ⟨hslot, hsave⟩ := hentered.frame (s.cpu.reg .esp) (by simp)
      rw [hesp, hstored.mem _ hslot hsave, hra]
      rfl
    · rw [hesp]
      exact hframe _ (by simp)
    · rw [hesp]
      exact hframe _ (by simp)
  · have hctx : p.context t = some ctx := (Function.update_of_ne htc _ _).symm.trans ht
    have hlive := h.live_of_context hctx
    refine (h.waiting t ctx htc hctx).congr fun a ha => hstored.mem a ?_ ?_
    · intro hslot
      exact Set.disjoint_left.mp (h.apart t s.current hlive hrun htc) ha (.inl hslot)
    · rintro rfl
      exact (h.alone t hlive).save ha

theorem Represents.switch {s : System T} {p : Private T} (h : Represents L s p) {next : T}
    {ra : Word} (hfair : Fair L s (.switch next ra)) :
    Represents L (s.step L sy (.switch next ra)) ⟨next, Function.update p.context s.current
      (some ((⟨s.cpu.reg, s.pc⟩ : Context).returned ra))⟩ := by
  have hentered := h.entered hfair
  have hnext : s.live next = true := hfair.1
  have hrun := h.live_of_context h.running
  have hlive : ∀ t, s.live t = (Function.update p.context s.current
      (some ((⟨s.cpu.reg, s.pc⟩ : Context).returned ra)) t).isSome := by
    intro t
    by_cases ht : t = s.current
    · subst ht
      simpa using hrun
    · simpa [ht] using h.live t
  obtain ⟨ctx, hctx⟩ := Option.isSome_iff_exists.mp ((hlive next).symm.trans hnext)
  have hholds := h.stored hfair hctx
  have halone := h.alone next hnext
  have hrestored : Restored L.eaxSave (s.cpu.run (saveCode L.eaxSave)) (L.obj next)
      (ContextSwitch.switch L.eaxSave s.cpu) := by
    have hsaved := hentered.stored
    obtain ⟨hslot, hsave⟩ := hentered.frame (s.cpu.reg .esp + 8#32) (by simp)
    rw [ContextSwitch.switch, Cpu.run_append]
    refine restored ?_ (fun hs => halone.save (.inl hs)) ?_ ?_
    · rw [hsaved.esp, hsaved.mem _ hslot hsave, hentered.second]
    · exact fun he => halone.save (.inr (he ▸ hholds.frame))
    · exact fun he => halone.save (.inr (he ▸ hholds.argument))
  have hreg : (ContextSwitch.switch L.eaxSave s.cpu).2.reg = ctx.reg := by
    funext r
    by_cases hr : r = .esp
    · rw [hr, hrestored.esp, hholds.esp]
    · rw [hrestored.reg r hr, hholds.reg r hr]
  have hpc : (ContextSwitch.switch L.eaxSave s.cpu).1 = ctx.pc := by rw [hrestored.pc, hholds.pc]
  refine ⟨rfl, hlive, ?_, h.alone, h.apart, fun t ctx' ht hctx' => ?_⟩
  · exact hctx.trans (congrArg some (congrArg₂ Context.mk hreg.symm hpc.symm))
  · have htlive : s.live t = true := by
      rw [hlive t]
      exact Option.isSome_iff_exists.mpr ⟨ctx', hctx'⟩
    refine (h.stored hfair hctx').congr fun a ha => hrestored.mem a ?_ ?_
    · rintro rfl
      exact (h.alone t htlive).save ha
    · rintro rfl
      exact Set.disjoint_left.mp (h.apart t next htlive hnext ht) ha (.inr hholds.argument)

theorem Represents.step {s s' : System T} {p : Private T} (h : Represents L s p) {l : Label T}
    (hfair : Fair L s l) (hs : Step L sy s l s') :
    ∃ p', PrivateStep sy p l p' ∧ Represents L s' p' := by
  subst hs
  cases l with
  | work pc cpu => exact ⟨_, h.current ▸ .work p pc cpu, h.work hfair⟩
  | fork t stack func arg =>
    obtain ⟨ctx, hbegins, hs'⟩ := h.fork hfair
    exact ⟨_, .fork p t stack func arg hbegins, hs'⟩
  | switch next ra =>
    have hcontext : p.context p.current = some ⟨s.cpu.reg, s.pc⟩ := h.current ▸ h.running
    exact ⟨_, h.current ▸ .switch p next ra hcontext, h.switch hfair⟩
  | destroy t => exact ⟨_, .destroy p t, h.destroy hfair⟩

/-- A machine with one thread. -/
structure Boot (L : Layout T) (s : System T) : Prop where
  live : ∀ t, s.live t = decide (t = s.current)
  alone : L.Alone s.current

def System.privately (s : System T) : Private T :=
  ⟨s.current, Function.update (fun _ => none) s.current (some ⟨s.cpu.reg, s.pc⟩)⟩

theorem Boot.represents {s : System T} (h : Boot L s) : Represents L s s.privately where
  current := rfl
  live t := by
    by_cases ht : t = s.current
    · simp [h.live, System.privately, ht]
    · simp [h.live, System.privately, ht]
  running := by simp [System.privately]
  alone t ht := by
    obtain rfl : t = s.current := by simpa [h.live] using ht
    exact h.alone
  apart t u ht hu htu := by
    simp only [h.live, decide_eq_true_eq] at ht hu
    exact absurd (ht.trans hu.symm) htu
  waiting t ctx ht hctx := by simp [System.privately, ht] at hctx

/-- `ThreadRoot` up to its first call. -/
def rootFrame : List Instr := [.push .ebp, .mov .esp .ebp, .push .edx]

/-- A procedure returns with the registers that belong to its caller. -/
structure Returns (c c' : Cpu) : Prop where
  esi : c'.reg .esi = c.reg .esi
  edi : c'.reg .edi = c.reg .edi
  esp : c'.reg .esp = c.reg .esp

/-- The calls of `ThreadRoot`, with the word that is on the stack as the argument: `call *%ecx`,
`call *%esi` and `call *%edi`. The first procedure has no parameters. -/
def RootCalls (c : Cpu) (calls : List (Word × Word)) : Prop :=
  ∃ c₁ c₂, Returns (c.run rootFrame) c₁ ∧
    c₁.mem (c₁.reg .esp) = (c.run rootFrame).mem ((c.run rootFrame).reg .esp) ∧ Returns c₁ c₂ ∧
    calls = [((c.run rootFrame).reg .ecx, (c.run rootFrame).mem ((c.run rootFrame).reg .esp)),
      (c₁.reg .esi, c₁.mem (c₁.reg .esp)), (c₂.reg .edi, c₂.mem (c₂.reg .esp))]

theorem RootCalls.eq {c : Cpu} {calls : List (Word × Word)} (h : RootCalls c calls) :
    ∃ x, calls = [(c.reg .ecx, c.reg .edx), (c.reg .esi, c.reg .edx), (c.reg .edi, x)] := by
  obtain ⟨c₁, c₂, h₁, hmem, h₂, rfl⟩ := h
  have hframe : ∀ r, r ≠ .ebp → r ≠ .esp → (c.run rootFrame).reg r = c.reg r := by
    intro r hbp hsp
    simp [rootFrame, Cpu.exec, Cpu.push, Cpu.set, Cpu.write, Function.update_of_ne, hbp, hsp]
  have harg : (c.run rootFrame).mem ((c.run rootFrame).reg .esp) = c.reg .edx := by
    simp [rootFrame, Cpu.exec, Cpu.push, Cpu.set, Cpu.write]
  refine ⟨c₂.mem (c₂.reg .esp), ?_⟩
  rw [hmem, harg, h₂.edi, h₁.edi, h₁.esi, hframe .ecx (by decide) (by decide),
    hframe .esi (by decide) (by decide), hframe .edi (by decide) (by decide)]

/-- A step after which thread `t` is where it was. -/
def Label.Leaves (t : T) : Label T → Prop
  | .work _ _ => True
  | .fork u _ _ _ => u ≠ t
  | .switch next _ => next ≠ t
  | .destroy u => u ≠ t

theorem PrivateStep.leaves {p p' : Private T} {l : Label T} {t : T} {ctx : Context}
    (h : PrivateStep sy p l p') (hl : l.Leaves t) (hcurrent : p.current ≠ t)
    (hctx : p.context t = some ctx) : p'.current ≠ t ∧ p'.context t = some ctx := by
  cases h with
  | work => exact ⟨hcurrent, (Function.update_of_ne hcurrent.symm _ _).trans hctx⟩
  | fork => exact ⟨hcurrent, (Function.update_of_ne (Ne.symm hl) _ _).trans hctx⟩
  | switch => exact ⟨hl, (Function.update_of_ne hcurrent.symm _ _).trans hctx⟩
  | destroy => exact ⟨hcurrent, (Function.update_of_ne (Ne.symm hl) _ _).trans hctx⟩

/-- A switch to a thread that waits goes on with its context. -/
theorem Represents.resumes {s : System T} {p : Private T} (h : Represents L s p) {t : T} {ra : Word}
    {ctx : Context} (hfair : Fair L s (.switch t ra)) (hne : s.current ≠ t)
    (hctx : p.context t = some ctx) :
    (s.step L sy (.switch t ra)).cpu.reg = ctx.reg ∧ (s.step L sy (.switch t ra)).pc = ctx.pc := by
  have hs : Represents L (s.step L sy (.switch t ra)) _ := h.switch hfair
  have hself : some ctx = some ⟨(s.step L sy (.switch t ra)).cpu.reg,
      (s.step L sy (.switch t ra)).pc⟩ :=
    hctx.symm.trans ((Function.update_of_ne hne.symm _ _).symm.trans hs.running)
  rw [Option.some.inj hself]
  exact ⟨rfl, rfl⟩

/-- The first time that a forked thread runs it is in `ThreadRoot`, which enables interrupts, calls
the forked procedure with its argument, and then `ThreadFinish`. -/
theorem forked_thread_starts {s₀ s : System T} {ls₁ ls₂ : List (Label T)} {t : T}
    {stack func arg ra : Word} (hboot : Boot L s₀)
    (h : Run (Step L sy) (Fair L) s₀ (ls₁ ++ .fork t stack func arg :: (ls₂ ++ [.switch t ra])) s)
    (hls : ∀ l ∈ ls₂, l.Leaves t) :
    s.current = t ∧ s.pc = sy.threadRoot ∧ ∀ calls, RootCalls s.cpu calls →
      ∃ x, calls = [(sy.interruptEnable, arg), (func, arg), (sy.threadFinish, x)] := by
  obtain ⟨s₁, h₁, hrest⟩ := h.of_append
  obtain ⟨p₁, -, hs₁⟩ := h₁.simulation hboot.represents fun hs hfair hstep => hs.step hfair hstep
  cases hrest with
  | cons hfork hst hrest =>
    obtain rfl := hst
    obtain ⟨ctx, hbegins, hs₂⟩ := hs₁.fork hfork
    have hlive := hs₁.live_of_context hs₁.running
    have hne : p₁.current ≠ t := by
      rw [hs₁.current]
      rintro rfl
      exact Bool.noConfusion (hfork.1.symm.trans hlive)
    obtain ⟨s₃, h₃, hlast⟩ := hrest.of_append
    obtain ⟨p₃, -, hs₃, hne₃, hctx₃⟩ := (h₃.and_label hls).simulation
      (R := fun s p => Represents L s p ∧ p.current ≠ t ∧ p.context t = some ctx)
      ⟨hs₂, hne, Function.update_self _ _ _⟩ fun hR hguard hstep => by
        obtain ⟨p', hp', hs'⟩ := hR.1.step hguard.2 hstep
        exact ⟨p', hp', hs', hp'.leaves hguard.1 hR.2.1 hR.2.2⟩
    cases hlast with
    | cons hfair hst hnil =>
      cases hnil
      obtain rfl := hst
      obtain ⟨hreg, hpc⟩ : (s₃.step L sy (.switch t ra)).cpu.reg = ctx.reg ∧ _ :=
        hs₃.resumes hfair (hs₃.current ▸ hne₃) hctx₃
      refine ⟨rfl, hpc.trans hbegins.pc, fun calls hcalls => ?_⟩
      obtain ⟨x, rfl⟩ := hcalls.eq
      rw [hreg, hbegins.startup, hbegins.arg, hbegins.func, hbegins.whenDone]
      exact ⟨x, rfl⟩

/-- The words of the two threads of a small machine. -/
def sampleSlots (t : Bool) : List Word :=
  if t then [0x200#32, 0x204#32, 0x208#32, 0x20c#32, 0x210#32, 0x214#32, 0x218#32, 0x21c#32,
    0x220#32]
  else [0x100#32, 0x104#32, 0x108#32, 0x10c#32, 0x110#32, 0x114#32, 0x118#32, 0x11c#32, 0x120#32]

def sampleStack (t : Bool) : List Word :=
  if t then [0x10000#32, 0x13fec#32, 0x13ff0#32] else [0x1000#32, 0x1004#32, 0x1008#32]

def sampleLayout : Layout Bool :=
  ⟨fun t => if t then 0x200#32 else 0x100#32, fun t => {a | a ∈ sampleStack t}, 0x10#32⟩

theorem mem_sampleSlots {t : Bool} {a : Word} (h : a ∈ slots (sampleLayout.obj t)) :
    a ∈ sampleSlots t := by
  obtain rfl | ⟨r, rfl⟩ := h
  · cases t <;> simp [sampleLayout, sampleSlots, pcOffset]
  · cases t <;> cases r <;> simp [sampleLayout, sampleSlots, offset]

theorem mem_sampleOwn {t : Bool} {a : Word} (h : a ∈ sampleLayout.own t) :
    a ∈ sampleSlots t ++ sampleStack t :=
  h.elim (fun hs => List.mem_append_left _ (mem_sampleSlots hs)) (List.mem_append_right _)

theorem sampleLayout_alone (t : Bool) : sampleLayout.Alone t := by
  have hsave : ∀ t, 0x10#32 ∉ sampleSlots t ++ sampleStack t := by
    simp [sampleSlots, sampleStack]
  have hslots : ∀ t, ∀ a ∈ sampleSlots t, a ∉ sampleStack t := by
    simp [sampleSlots, sampleStack]
  exact ⟨fun h => hsave t (mem_sampleOwn h),
    Set.disjoint_left.mpr fun a ha => hslots t a (mem_sampleSlots ha)⟩

theorem sampleLayout_apart : Disjoint (sampleLayout.own true) (sampleLayout.own false) := by
  have hwords : ∀ a ∈ sampleSlots true ++ sampleStack true,
      a ∉ sampleSlots false ++ sampleStack false := by
    simp [sampleSlots, sampleStack]
  exact Set.disjoint_left.mpr fun a ha hb => hwords a (mem_sampleOwn ha) (mem_sampleOwn hb)

def sampleSymbols : Symbols := ⟨0x8000#32, 0x8100#32, 0x8200#32⟩

/-- The main thread has pushed the arguments of `SWITCH`. -/
def sampleBoot : System Bool where
  current := false
  live t := !t
  pc := 0x9000#32
  cpu := ⟨Function.update (fun _ => 0#32) .esp 0x1000#32,
    Function.update (Function.update (Function.update (fun _ => 0#32) 0x1000#32 0x9100#32)
      0x1004#32 0x100#32) 0x1008#32 0x200#32⟩

theorem sampleBoot_boot : Boot sampleLayout sampleBoot := ⟨by decide, sampleLayout_alone false⟩

theorem sample_run : ∃ s, Run (Step sampleLayout sampleSymbols) (Fair sampleLayout) sampleBoot
    [.fork true 0x10000#32 0x8300#32 7#32, .switch true 0x9100#32] s := by
  have hstack : ∀ a ∈ [0x10000#32, stackTop 0x10000#32, stackTop 0x10000#32 + 4#32],
      a ∈ sampleStack true := by
    simp [stackTop, stackSize, sampleStack]
  have hnew : ∀ a ∈ sampleStack false, stackAllocate sampleSymbols (sampleLayout.obj true)
      0x10000#32 0x8300#32 7#32 sampleBoot.cpu.mem a = sampleBoot.cpu.mem a := fun a ha =>
    stackAllocate_of_notMem _ _ _ _ (Set.disjoint_right.mp sampleLayout_apart (.inr ha)) hstack
  refine ⟨_, .cons ⟨rfl, sampleLayout_alone true, fun u hu => ?_, hstack⟩ rfl
    (.cons ⟨rfl, hnew 0x1000#32 ?_, hnew 0x1004#32 ?_, hnew 0x1008#32 ?_, ?_⟩ rfl (.nil _))⟩
  · cases u with
    | false => exact sampleLayout_apart
    | true => cases hu
  · simp [sampleStack]
  · simp [sampleStack]
  · simp [sampleStack]
  · exact show ∀ a ∈ [0x1000#32, 0x1000#32 + 4#32, 0x1000#32 + 8#32], a ∈ sampleStack false by
      simp [sampleStack]

theorem forked_thread_starts_sample : ∃ s calls x,
    Run (Step sampleLayout sampleSymbols) (Fair sampleLayout) sampleBoot
      [.fork true 0x10000#32 0x8300#32 7#32, .switch true 0x9100#32] s ∧ s.pc = 0x8000#32 ∧
    RootCalls s.cpu calls ∧
      calls = [(0x8100#32, 7#32), (0x8300#32, 7#32), (0x8200#32, x)] := by
  obtain ⟨s, hs⟩ := sample_run
  have hs' : Run (Step sampleLayout sampleSymbols) (Fair sampleLayout) sampleBoot
      ([] ++ .fork true 0x10000#32 0x8300#32 7#32 :: ([] ++ [.switch true 0x9100#32])) s := hs
  obtain ⟨-, hpc, hcalls⟩ := forked_thread_starts sampleBoot_boot hs' (by simp)
  have hroot : RootCalls s.cpu _ :=
    ⟨s.cpu.run rootFrame, s.cpu.run rootFrame, ⟨rfl, rfl, rfl⟩, rfl, ⟨rfl, rfl, rfl⟩, rfl⟩
  obtain ⟨x, hx⟩ := hcalls _ hroot
  exact ⟨s, _, x, hs, hpc, hroot, hx⟩

end Nachos.ContextSwitch
