import Nachos.MipsCorrectness
import Nachos.PageFaults

/-!
# Instructions that stop the simulator

`OneInstruction` has assertions of its own, makes the divisions of a program with those
of the host, and uses `LoadReg` as an index. An instruction word cannot reach the default
case of the switch, and an index is out of range only through `LoadReg`. What is left are
the four instructions that assert an aligned address, and the quotient `INT_MIN / -1`.
-/
namespace Nachos.Machine

/-- A division that the host makes for the program. -/
structure Division where
  signed : Bool
  dividend : Word
  divisor : Word
  deriving DecidableEq, Repr

/-- The processor of the host has no result: division by zero, or a quotient that does not fit. -/
def Division.Traps (d : Division) : Prop :=
  d.divisor = 0#32 ∨ (d.signed = true ∧ d.dividend = signBit ∧ d.divisor = -1#32)

instance (d : Division) : Decidable d.Traps := inferInstanceAs (Decidable (_ ∨ _))

namespace Instruction
variable (i : Instruction) (m : State)

/-- The quotient and the remainder of `DIV` and `DIVU`, as `OneInstruction` asks for them. -/
def divisions : List Division :=
  let rs := m.registers (gp i.rs)
  let rt := m.registers (gp i.rt)
  match i.opCode with
  | .div => if rt = 0#32 then [] else [⟨true, rs, rt⟩, ⟨true, rs, rt⟩]
  | .divu => if rt = 0#32 then [] else [⟨false, rs, rt⟩, ⟨false, rs, rt⟩]
  | _ => []

/-- What the architecture forbids: reserved instructions, signed sums that do not fit, and half
words and words that are not aligned. -/
def Forbidden : Prop :=
  match i.opCode with
  | .add => ¬MipsI.Fits ((m.registers (gp i.rs)).toInt + (m.registers (gp i.rt)).toInt)
  | .addi => ¬MipsI.Fits ((m.registers (gp i.rs)).toInt + i.extra.toInt)
  | .sub => ¬MipsI.Fits ((m.registers (gp i.rs)).toInt - (m.registers (gp i.rt)).toInt)
  | .lh | .lhu | .sh => (address i m).toNat % 2 ≠ 0
  | .lw | .sw => (address i m).toNat % 4 ≠ 0
  | .res | .unimp => True
  | _ => False

/-- The instruction is none of those that stop the simulator. -/
structure Harmless : Prop where
  aligned : i.opCode ∈ [.lwl, .lwr, .swl, .swr] → address i m &&& 3#32 = 0#32
  quotient : i.opCode = .div →
    ¬(m.registers (gp i.rs) = signBit ∧ m.registers (gp i.rt) = -1#32)

end Instruction

theorem specialTable_ne : ∀ k < 64, specialTable.getD k .res ≠ .special ∧
    specialTable.getD k .res ≠ .bcond := by
  decide

/-- The codes for the second tables are always replaced, so that the default case of the switch is
not reached. -/
theorem decode_opCode (w : Word) :
    (Instruction.decode w).opCode ≠ .special ∧ (Instruction.decode w).opCode ≠ .bcond := by
  have hfunct : (w &&& 0x3f#32).toNat < 64 := by
    rw [BitVec.toNat_and]
    exact Nat.and_lt_two_pow _ (n := 6) (by decide)
  simp only [Instruction.decode]
  split
  · exact specialTable_ne _ hfunct
  · split_ifs <;> decide
  · rename_i hspecial hbcond
    exact ⟨hspecial, hbcond⟩

section execute
variable {i : Instruction} {m : State}

theorem readMem_ne_failure (m : State) (a : Word) (n : ℕ) : m.readMem a n ≠ .error .failure := by
  rw [State.readMem]
  split
  · simp
  · simp

theorem writeMem_ne_failure (m : State) (a : Word) (n : ℕ) (v : Word) :
    m.writeMem a n v ≠ .error .failure := by
  rw [State.writeMem]
  split
  · simp
  · simp

theorem map_ne_failure {α β : Type} {x : Except Fault α} (h : x ≠ .error .failure) (f : α → β) :
    x.map f ≠ .error .failure := by
  cases x with
  | ok a => exact fun h' => nomatch h'
  | error e =>
    intro h'
    exact h (congrArg Except.error (Except.error.inj h'))

theorem load_ne_failure (n : ℕ) (convert : Word → Word) : load i m n convert ≠ .error .failure :=
  map_ne_failure (readMem_ne_failure _ _ _) _

theorem store_ne_failure (n : ℕ) : store i m n ≠ .error .failure :=
  map_ne_failure (writeMem_ne_failure _ _ _ _) _

theorem loadPart_ne_failure (h : address i m &&& 3#32 = 0#32)
    (merge : Word → Word → Word → Word) : loadPart i m merge ≠ .error .failure := by
  simp only [loadPart, h, ne_eq, not_true_eq_false, if_false]
  exact map_ne_failure (readMem_ne_failure _ _ _) _

theorem storePart_ne_failure (h : address i m &&& 3#32 = 0#32)
    (merge : Word → Word → Word → Word) : storePart i m merge ≠ .error .failure := by
  simp only [storePart, h, ne_eq, not_true_eq_false, if_false]
  cases hr : m.readMem (address i m &&& ~~~3#32) 4 with
  | ok r => exact map_ne_failure (writeMem_ne_failure _ _ _ _) _
  | error e =>
    intro h'
    exact readMem_ne_failure _ _ _ (hr.trans (congrArg Except.error (Except.error.inj h')))

theorem execute_ne_failure (hcode : i.opCode ≠ .special ∧ i.opCode ≠ .bcond)
    (h : i.Harmless m) : execute i m ≠ .error .failure := by
  obtain ⟨op, rs, rt, rd, extra⟩ := i
  have haligned := h.aligned
  cases op with
  | add | addi | sub =>
    simp only [execute]
    split_ifs <;> simp [goOn]
  | div | divu =>
    simp only [execute]
    split_ifs <;> simp [goOn]
  | lb | lbu =>
    simp only [execute]
    exact load_ne_failure _ _
  | lh | lhu | lw =>
    simp only [execute]
    split_ifs
    · simp
    · exact load_ne_failure _ _
  | lwl | lwr =>
    simp only [execute]
    exact loadPart_ne_failure (haligned (by simp)) _
  | sb | sh | sw =>
    simp only [execute]
    exact store_ne_failure _
  | swl | swr =>
    simp only [execute]
    exact storePart_ne_failure (haligned (by simp)) _
  | special => exact absurd rfl hcode.1
  | bcond => exact absurd rfl hcode.2
  | _ => simp [execute, goOn, branch, jump]

/-- No division without a result, but for the one quotient. -/
theorem divisions_defined (h : i.Harmless m) : ∀ d ∈ i.divisions m, ¬d.Traps := by
  obtain ⟨op, rs, rt, rd, extra⟩ := i
  have hquotient := h.quotient
  cases op with
  | div =>
    simp only [Instruction.divisions]
    split_ifs with hzero
    · simp
    · intro d hd htrap
      obtain rfl : d = _ := by simpa using hd
      rcases htrap with h0 | ⟨-, hmin, hminus⟩
      · exact hzero h0
      · exact hquotient rfl ⟨hmin, hminus⟩
  | divu =>
    simp only [Instruction.divisions]
    split_ifs with hzero
    · simp
    · intro d hd htrap
      obtain rfl : d = _ := by simpa using hd
      rcases htrap with h0 | ⟨hsigned, -⟩
      · exact hzero h0
      · cases hsigned
  | _ => simp [Instruction.divisions]

theorem store_of_misaligned {n : ℕ} (hn : n = 1 ∨ n = 2 ∨ n = 4)
    (h : (address i m).toNat % n ≠ 0) :
    store i m n = .error (.exception .addressError (address i m) m) := by
  rw [store, State.writeMem, translate_of_misaligned ((misaligned_iff hn).2 h)]
  rfl

/-- What is forbidden ends in an exception. -/
theorem execute_forbidden (h : i.Forbidden m) :
    ∃ which bad m', execute i m = .error (.exception which bad m') := by
  obtain ⟨op, rs, rt, rd, extra⟩ := i
  cases op with
  | add => exact ⟨_, _, _, if_pos ((add_overflows_iff _ _).2 h)⟩
  | sub => exact ⟨_, _, _, if_pos ((sub_overflows_iff _ _).2 h)⟩
  | addi =>
    have hsum : ¬MipsI.Fits (extra.toInt + (m.registers (gp rs)).toInt) := by
      rw [Int.add_comm]
      exact h
    have hsigns := (add_overflows_iff _ _).2 hsum
    rw [BitVec.xor_comm, BitVec.add_comm] at hsigns
    exact ⟨_, _, _, if_pos hsigns⟩
  | lh | lhu => exact ⟨_, _, _, if_pos ((and_mask_one _).not.2 h)⟩
  | lw => exact ⟨_, _, _, if_pos ((and_mask_two _).not.2 h)⟩
  | sh => exact ⟨_, _, _, store_of_misaligned (.inr (.inl rfl)) h⟩
  | sw => exact ⟨_, _, _, store_of_misaligned (.inr (.inr rfl)) h⟩
  | res | unimp => exact ⟨_, _, _, rfl⟩
  | _ => exact h.elim

end execute

section oneInstruction
variable {m : State}

theorem oneInstruction_eq_finish {e : Effect} (h : m.attempt = .ok e) :
    m.oneInstruction = e.finish.elim .failed .done := by
  rw [State.attempt] at h
  rw [State.oneInstruction, h]

theorem oneInstruction_eq_raise {f : Fault} (h : m.attempt = .error f) :
    m.oneInstruction = f.raise := by
  rw [State.attempt] at h
  rw [State.oneInstruction, h]

/-- The state after `DelayedLoad` has the new value in `LoadReg`. -/
theorem delayedLoad_loadReg (h : (m.registers loadReg).toNat < 32) (r v : Word) :
    ∃ m', m.delayedLoad r v = some m' ∧ m'.registers loadReg = r := by
  obtain ⟨m', hm', -, -, hk⟩ := delayedLoad_eq_some h r v
  exact ⟨m', hm', by rw [hk, if_neg (by decide), if_neg (by decide), if_pos rfl]⟩

theorem oneInstruction_of_ok (h : (m.registers loadReg).toNat < 32) {e : Effect}
    (he : m.attempt = .ok e) :
    ∃ m', m.oneInstruction = .done m' ∧ (m'.registers loadReg).toNat < 32 := by
  have hsane := attempt_sane m
  have hload := attempt_frame he (k := loadReg) (by decide) (by decide) (by decide) (by decide)
  obtain ⟨y, hy, hyload⟩ := delayedLoad_loadReg (m := e.m) (hload ▸ h) e.nextLoadReg
    e.nextLoadValue
  rw [oneInstruction_eq_finish he, Effect.finish, hy]
  refine ⟨_, rfl, ?_⟩
  rw [he] at hsane
  rw [State.set_of_ne _ _ (by decide), State.set_of_ne _ _ (by decide),
    State.set_of_ne _ _ (by decide), hyload]
  exact hsane

theorem oneInstruction_of_exception (h : (m.registers loadReg).toNat < 32)
    {which : ExceptionType} {bad : Word} {m₁ : State}
    (he : m.attempt = .error (.exception which bad m₁)) :
    ∃ m', m.oneInstruction = .raised which m' ∧ (m'.registers loadReg).toNat < 32 := by
  have hsane := attempt_sane m
  rw [he] at hsane
  have hload : ((m₁.set badVAddrReg bad).registers loadReg).toNat < 32 := by
    rw [State.set_of_ne _ _ (by decide), hsane.1]
    exact h
  obtain ⟨y, hy, hyload⟩ := delayedLoad_loadReg hload 0 0
  rw [oneInstruction_eq_raise he, Fault.raise, hy]
  refine ⟨y, rfl, ?_⟩
  rw [hyload]
  decide

/-- An exception, with the state in which the handler is entered. -/
def Outcome.Raised (o : Outcome) : Prop := ∃ which m, o = .raised which m

theorem attempt_of_fetch {w : Word} {m₁ : State} (h : m.fetch = .ok (w, m₁)) :
    m.attempt = execute (Instruction.decode w) m₁ := by
  rw [State.attempt, h]
  rfl

theorem attempt_ne_failure
    (h : ∀ w m₁, m.fetch = .ok (w, m₁) → (Instruction.decode w).Harmless m₁) :
    m.attempt ≠ .error .failure := by
  cases hf : m.fetch with
  | ok r =>
    rw [attempt_of_fetch hf]
    exact execute_ne_failure (decode_opCode r.1) (h _ _ hf)
  | error f =>
    intro ha
    rw [State.attempt, hf] at ha
    rw [Except.error.inj ha] at hf
    exact readMem_ne_failure _ _ _ hf

theorem oneInstruction_state (hload : (m.registers loadReg).toNat < 32)
    (h : m.attempt ≠ .error .failure) :
    ∃ m', m.oneInstruction.state = some m' ∧ (m'.registers loadReg).toNat < 32 := by
  cases ha : m.attempt with
  | ok e =>
    obtain ⟨m', hm', hlt⟩ := oneInstruction_of_ok hload ha
    exact ⟨m', by rw [hm']; rfl, hlt⟩
  | error fault =>
    cases fault with
    | failure => exact absurd ha h
    | exception which bad m₁ =>
      obtain ⟨m', hm', hlt⟩ := oneInstruction_of_exception hload ha
      exact ⟨m', by rw [hm']; rfl, hlt⟩

end oneInstruction

end Nachos.Machine
