import Mathlib.Tactic

/-!
# Straight-line code of an i386

The 32-bit moves of the processor and what `push`, `call` and `ret` do to the stack. Memory is
seen in words: all accesses are to addresses that are multiples of four, so that two of them are
either to the same word or do not touch each other. Flags and segments are left out.
-/
namespace Nachos.I386

abbrev Word := BitVec 32

inductive Register where
  | eax | ebx | ecx | edx | esi | edi | ebp | esp
  deriving DecidableEq, Repr

structure Cpu where
  reg : Register → Word
  mem : Word → Word

inductive Instr where
  /-- `movl %src,disp(%base)` -/
  | store (src : Register) (disp : Word) (base : Register)
  /-- `movl disp(%base),%dst` -/
  | load (disp : Word) (base dst : Register)
  /-- `movl %src,address` -/
  | storeAt (src : Register) (address : Word)
  /-- `movl address,%dst` -/
  | loadAt (address : Word) (dst : Register)
  /-- `movl %src,%dst` -/
  | mov (src dst : Register)
  | push (src : Register)

namespace Cpu
variable (c : Cpu)

def set (r : Register) (v : Word) : Cpu := { c with reg := Function.update c.reg r v }

def write (a v : Word) : Cpu := { c with mem := Function.update c.mem a v }

def push (v : Word) : Cpu := (c.write (c.reg .esp - 4#32) v).set .esp (c.reg .esp - 4#32)

def exec : Instr → Cpu
  | .store src disp base => c.write (c.reg base + disp) (c.reg src)
  | .load disp base dst => c.set dst (c.mem (c.reg base + disp))
  | .storeAt src address => c.write address (c.reg src)
  | .loadAt address dst => c.set dst (c.mem address)
  | .mov src dst => c.set dst (c.reg src)
  | .push src => c.push (c.reg src)

def run (code : List Instr) : Cpu := code.foldl exec c

/-- `ret`: the address it goes to, and the processor there. -/
def ret : Word × Cpu := (c.mem (c.reg .esp), c.set .esp (c.reg .esp + 4#32))

@[simp] theorem run_nil : c.run [] = c := rfl

@[simp] theorem run_cons (i : Instr) (code : List Instr) :
    c.run (i :: code) = (c.exec i).run code := rfl

theorem run_append (code code' : List Instr) : c.run (code ++ code') = (c.run code).run code' :=
  List.foldl_append

end Cpu

end Nachos.I386
