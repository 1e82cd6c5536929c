import Nachos.MipsMachine

/-!
# Page faults are transparent

A page fault completes the load that is pending and leaves everything else as it was.
Running the instruction again then does what it would have done at once. The reason is a
commutation: an instruction does the same on a state in which registers it does not touch
have other values (`State.overlay`), and leaves those registers alone.
-/
namespace Nachos.Machine
open ByteMemory

/-- The general registers that the switch reads or writes for an instruction, the target
of its delayed load included. -/
def Instruction.touches (i : Instruction) : List (Fin 32) :=
  match i.opCode with
  | .add | .addu | .and | .nor | .slt | .sltu | .sub | .subu | .xor | .sllv | .srav | .srlv =>
    [i.rs, i.rt, i.rd]
  | .or | .jalr => [i.rs, i.rd]
  | .sll | .sra | .srl => [i.rt, i.rd]
  | .addi | .addiu | .andi | .ori | .xori | .slti | .sltiu => [i.rs, i.rt]
  | .lb | .lbu | .lh | .lhu | .lw | .lwl | .lwr | .sb | .sh | .sw | .swl | .swr => [i.rs, i.rt]
  | .beq | .bne | .div | .divu | .mult | .multu => [i.rs, i.rt]
  | .bgez | .bgtz | .blez | .bltz | .jr | .mthi | .mtlo => [i.rs]
  | .bgezal | .bltzal => [i.rs, 31]
  | .lui => [i.rt]
  | .mfhi | .mflo => [i.rd]
  | .jal => [31]
  | .j | .syscall | .res | .unimp | .special | .bcond => []

/-- Other values for some of the registers. -/
def State.overlay (f : Reg → Option Word) (m : State) : State :=
  { m with registers := fun k => (f k).getD (m.registers k) }

def Fault.overlay (f : Reg → Option Word) : Fault → Fault
  | .exception which badVAddr m => .exception which badVAddr (m.overlay f)
  | .failure => .failure

def Effect.overlay (f : Reg → Option Word) (e : Effect) : Effect := { e with m := e.m.overlay f }

/-- The value that `LWL` and `LWR` complete. -/
def State.old (m : State) (r : Fin 32) : Word :=
  if m.registers loadReg = ((r : ℕ) : Word) then m.registers loadValueReg else m.registers (gp r)

/-- The registers that are read or written everywhere and those of the instruction keep their
values under `f`. -/
structure Apart (f : Reg → Option Word) (i : Instruction) : Prop where
  hi : f hiReg = none
  lo : f loReg = none
  next : f nextPCReg = none
  gpr : i.touches.Forall fun r => f (gp r) = none

def mapOverlay (f : Reg → Option Word) : Except Fault Effect → Except Fault Effect
  | .ok e => .ok (e.overlay f)
  | .error fault => .error (fault.overlay f)

theorem old_congr {m m' : State} {r : Fin 32} (h : m.registers = m'.registers) :
    m.old r = m'.old r := by
  rw [State.old, State.old, h]

section overlay
variable {f : Reg → Option Word} {m : State}

theorem overlay_reg {k : Reg} (h : f k = none) : (m.overlay f).registers k = m.registers k := by
  simp [State.overlay, h]

theorem overlay_set {k : Reg} (h : f k = none) (v : Word) :
    (m.set k v).overlay f = (m.overlay f).set k v := by
  simp only [State.overlay, State.set]
  congr 1
  funext j
  by_cases hj : j = k
  · subst hj
    simp [h]
  · simp [hj]

theorem goOn_overlay (hnext : f nextPCReg = none) (m' : State) :
    goOn (m.overlay f) (m'.overlay f) = mapOverlay f (goOn m m') := by
  rw [goOn, overlay_reg hnext]
  rfl

theorem write_overlay (hnext : f nextPCReg = none) {k : Reg} (hk : f k = none) {v v' : Word}
    (hv : v' = v) :
    goOn (m.overlay f) ((m.overlay f).set k v') = mapOverlay f (goOn m (m.set k v)) := by
  rw [hv, ← overlay_set hk, goOn_overlay hnext]

theorem branch_overlay (hnext : f nextPCReg = none) {i : Instruction} {m' : State}
    {taken taken' : Bool} (ht : taken' = taken) :
    branch i (m.overlay f) (m'.overlay f) taken' = mapOverlay f (branch i m m' taken) := by
  rw [branch, overlay_reg hnext, overlay_reg hnext, ht]
  rfl

theorem jump_overlay {m' : State} {target target' : Word} (ht : target' = target) :
    jump (m'.overlay f) target' = mapOverlay f (jump m' target) := by
  rw [ht]
  rfl

theorem readMem_overlay (a : Word) (n : ℕ) :
    (m.overlay f).readMem a n = match m.readMem a n with
      | .ok (v, m') => .ok (v, m'.overlay f)
      | .error fault => .error (fault.overlay f) := by
  have htable : (m.overlay f).pageTable = m.pageTable := rfl
  rw [State.readMem, State.readMem, htable]
  cases translate m.pageTable a n false <;> rfl

theorem writeMem_overlay (a v : Word) (n : ℕ) :
    (m.overlay f).writeMem a n v = match m.writeMem a n v with
      | .ok m' => .ok (m'.overlay f)
      | .error fault => .error (fault.overlay f) := by
  have htable : (m.overlay f).pageTable = m.pageTable := rfl
  rw [State.writeMem, State.writeMem, htable]
  cases translate m.pageTable a n true <;> rfl

theorem address_overlay {i : Instruction} (hrs : f (gp i.rs) = none) :
    address i (m.overlay f) = address i m := by
  rw [address, overlay_reg hrs, address]

theorem load_overlay (hnext : f nextPCReg = none) {i : Instruction} (hrs : f (gp i.rs) = none)
    (n : ℕ) (convert : Word → Word) :
    load i (m.overlay f) n convert = mapOverlay f (load i m n convert) := by
  rw [load, load, address_overlay hrs, readMem_overlay, overlay_reg hnext]
  cases m.readMem (address i m) n <;> rfl

theorem store_overlay (hnext : f nextPCReg = none) {i : Instruction} (hrs : f (gp i.rs) = none)
    (hrt : f (gp i.rt) = none) (n : ℕ) :
    store i (m.overlay f) n = mapOverlay f (store i m n) := by
  rw [store, store, address_overlay hrs, overlay_reg hrt, writeMem_overlay, overlay_reg hnext]
  cases m.writeMem (address i m) n (m.registers (gp i.rt)) <;> rfl

theorem loadPart_overlay (hnext : f nextPCReg = none) {i : Instruction} (hrs : f (gp i.rs) = none)
    (hold : (m.overlay f).old i.rt = m.old i.rt) (merge : Word → Word → Word → Word) :
    loadPart i (m.overlay f) merge = mapOverlay f (loadPart i m merge) := by
  rw [loadPart, loadPart, address_overlay hrs, readMem_overlay, overlay_reg hnext]
  split_ifs
  · rfl
  · cases hr : m.readMem (address i m) 4 with
    | error fault => rfl
    | ok r =>
      have hregs : r.2.registers = m.registers := State.readMem_registers hr
      have hold' : (r.2.overlay f).old i.rt = r.2.old i.rt := by
        rw [old_congr hregs, ← hold]
        apply old_congr
        simp only [State.overlay, hregs]
      exact congrArg (fun x : Word => Except.ok (ε := Fault) (⟨r.2.overlay f, _, _,
        merge (address i m &&& 3#32) x r.1⟩ : Effect)) hold'

theorem storePart_overlay (hnext : f nextPCReg = none) {i : Instruction}
    (hrs : f (gp i.rs) = none) (hrt : f (gp i.rt) = none) (merge : Word → Word → Word → Word) :
    storePart i (m.overlay f) merge = mapOverlay f (storePart i m merge) := by
  rw [storePart, storePart, address_overlay hrs, readMem_overlay, overlay_reg hnext,
    overlay_reg hrt]
  split_ifs
  · rfl
  · cases m.readMem (address i m &&& ~~~3#32) 4 with
    | error fault => rfl
    | ok r =>
      show (((r.2.overlay f).writeMem _ 4 _).map _) = mapOverlay f ((r.2.writeMem _ 4 _).map _)
      rw [writeMem_overlay]
      cases r.2.writeMem _ 4 _ <;> rfl

/-- A test that only `touches` registers does not see `f`, nor does what follows it. -/
theorem if_overlay {P : Prop} [Decidable P] {x y x' y' : Except Fault Effect}
    (hx : x' = mapOverlay f x) (hy : y' = mapOverlay f y) :
    (if P then x' else y') = mapOverlay f (if P then x else y) := by
  rw [hx, hy]
  split_ifs <;> rfl

end overlay

/-- An instruction does the same when registers that it does not touch have other values. -/
theorem execute_overlay {f : Reg → Option Word} {i : Instruction} (h : Apart f i) (m : State)
    (hold : i.opCode = .lwl ∨ i.opCode = .lwr → (m.overlay f).old i.rt = m.old i.rt) :
    execute i (m.overlay f) = mapOverlay f (execute i m) := by
  obtain ⟨op, rs, rt, rd, extra⟩ := i
  obtain ⟨hhi, hlo, hnext, hgpr⟩ := h
  have hread : ∀ {k : Reg}, f k = none → (m.overlay f).registers k = m.registers k := overlay_reg
  have hlink := overlay_set (m := m) (f := f) (k := gp 31)
  cases op with
  | add | sub =>
    simp only [execute, hread hgpr.1, hread hgpr.2.1]
    exact if_overlay rfl (write_overlay hnext hgpr.2.2 rfl)
  | addi =>
    simp only [execute, hread hgpr.1]
    exact if_overlay rfl (write_overlay hnext hgpr.2 rfl)
  | addu | and | nor | slt | sltu | subu | xor | sllv | srav | srlv =>
    simp only [execute, hread hgpr.1, hread hgpr.2.1]
    exact write_overlay hnext hgpr.2.2 rfl
  | or =>
    simp only [execute, hread hgpr.1]
    exact write_overlay hnext hgpr.2 rfl
  | sll | sra | srl =>
    simp only [execute, hread hgpr.1]
    exact write_overlay hnext hgpr.2 rfl
  | addiu | andi | ori | xori | slti | sltiu =>
    simp only [execute, hread hgpr.1]
    exact write_overlay hnext hgpr.2 rfl
  | lui => exact write_overlay hnext hgpr rfl
  | mfhi => exact write_overlay hnext hgpr (hread hhi)
  | mflo => exact write_overlay hnext hgpr (hread hlo)
  | mthi => exact write_overlay hnext hhi (hread hgpr)
  | mtlo => exact write_overlay hnext hlo (hread hgpr)
  | mult | multu =>
    simp only [execute, hread hgpr.1, hread hgpr.2]
    rw [← overlay_set hhi, ← overlay_set hlo]
    exact goOn_overlay hnext _
  | div | divu =>
    simp only [execute, hread hgpr.1, hread hgpr.2]
    rw [← overlay_set hlo, ← overlay_set hlo, ← overlay_set hhi, ← overlay_set hhi]
    exact if_overlay (goOn_overlay hnext _) (goOn_overlay hnext _)
  | beq | bne =>
    simp only [execute, hread hgpr.1, hread hgpr.2]
    exact branch_overlay hnext rfl
  | bgez | bgtz | blez | bltz =>
    simp only [execute, hread hgpr]
    exact branch_overlay hnext rfl
  | bgezal | bltzal =>
    simp only [execute, hread hnext]
    rw [← hlink hgpr.2, overlay_reg hgpr.1]
    exact branch_overlay hnext rfl
  | j =>
    simp only [execute, hread hnext]
    exact jump_overlay rfl
  | jal =>
    simp only [execute, hread hnext]
    rw [← hlink hgpr]
    exact jump_overlay rfl
  | jr => exact jump_overlay (hread hgpr)
  | jalr =>
    simp only [execute, hread hnext]
    rw [← overlay_set hgpr.2, overlay_reg hgpr.1]
    exact jump_overlay rfl
  | lb | lbu =>
    simp only [execute]
    exact load_overlay hnext hgpr.1 _ _
  | lh | lhu | lw =>
    simp only [execute, address_overlay hgpr.1]
    exact if_overlay rfl (load_overlay hnext hgpr.1 _ _)
  | lwl =>
    simp only [execute]
    exact loadPart_overlay hnext hgpr.1 (hold (.inl rfl)) _
  | lwr =>
    simp only [execute]
    exact loadPart_overlay hnext hgpr.1 (hold (.inr rfl)) _
  | sb | sh | sw => exact store_overlay hnext hgpr.1 hgpr.2 _
  | swl | swr =>
    simp only [execute]
    exact storePart_overlay hnext hgpr.1 hgpr.2 _
  | syscall | res | unimp | special | bcond => rfl

/-- It leaves the registers alone that it does not touch. -/
theorem execute_frame {i : Instruction} {m : State} {e : Effect} (h : execute i m = .ok e) {k : Reg}
    (hk : Apart (fun j => if j = k then some (m.registers k) else none) i) :
    e.m.registers k = m.registers k := by
  have hself : m.overlay (fun j => if j = k then some (m.registers k) else none) = m := by
    simp only [State.overlay]
    congr 1
    funext j
    by_cases hj : j = k
    · subst hj
      simp
    · simp [hj]
  have hcomm := execute_overlay hk m fun _ => by rw [hself]
  rw [hself, h] at hcomm
  have he : e.m = e.m.overlay fun j => if j = k then some (m.registers k) else none :=
    congrArg Effect.m (Except.ok.inj hcomm)
  rw [he]
  simp [State.overlay]

/-- The page of an address is known and not in memory. -/
def State.Absent (m : State) (a : Word) : Prop := (m.pageTable[vpn a]?).map (·.valid) = some false

/-- What can be said about the end of the switch: the register of a load is a general one, and
before an exception nothing has happened. -/
def Sane (m : State) : Except Fault Effect → Prop
  | .ok e => e.nextLoadReg.toNat < 32
  | .error (.exception which bad m') => m'.registers = m.registers ∧
      m'.mainMemory = m.mainMemory ∧ (which = .pageFault → m.Absent bad)
  | .error .failure => True

theorem translate_valid {pageTable pageTable' : PageTable} {a p : Word} {n : ℕ} {writing : Bool}
    (h : translate pageTable a n writing = .ok (p, pageTable')) (j : ℕ) :
    (pageTable'[j]?).map (·.valid) = (pageTable[j]?).map (·.valid) := by
  obtain ⟨-, e, he, -, -, -, -, rfl⟩ := translate_eq_ok h
  by_cases hj : j = vpn a
  · subst hj
    obtain ⟨hlt, -⟩ := List.getElem?_eq_some_iff.1 he
    rw [List.getElem?_set_self hlt, he]
    rfl
  · rw [List.getElem?_set_ne (Ne.symm hj)]

theorem translate_pageFault {pageTable : PageTable} {a : Word} {n : ℕ} {writing : Bool}
    (h : translate pageTable a n writing = .error .pageFault) :
    (pageTable[vpn a]?).map (·.valid) = some false := by
  unfold translate at h
  split_ifs at h
  · simp at h
  · split at h
    · simp at h
    · rename_i e he
      split_ifs at h with hvalid
      · rw [he]
        simpa using hvalid
      · simp at h
      · simp at h

theorem ofNat_lt (r : Fin 32) : (BitVec.ofNat 32 r).toNat < 32 := by
  rw [BitVec.toNat_ofNat]
  omega

theorem load_sane (i : Instruction) (m : State) (n : ℕ) (convert : Word → Word) :
    Sane m (load i m n convert) := by
  rw [load, State.readMem]
  cases ht : translate m.pageTable (address i m) n false with
  | error e => exact ⟨rfl, rfl, fun he => translate_pageFault (he ▸ ht)⟩
  | ok r => exact ofNat_lt i.rt

theorem store_sane (i : Instruction) (m : State) (n : ℕ) : Sane m (store i m n) := by
  rw [store, State.writeMem]
  cases ht : translate m.pageTable (address i m) n true with
  | error e => exact ⟨rfl, rfl, fun he => translate_pageFault (he ▸ ht)⟩
  | ok r => exact Nat.zero_lt_succ 31

theorem loadPart_sane (i : Instruction) (m : State) (merge : Word → Word → Word → Word) :
    Sane m (loadPart i m merge) := by
  rw [loadPart]
  split_ifs
  · trivial
  · rw [State.readMem]
    cases ht : translate m.pageTable (address i m) 4 false with
    | error e => exact ⟨rfl, rfl, fun he => translate_pageFault (he ▸ ht)⟩
    | ok r => exact ofNat_lt i.rt

theorem storePart_sane (i : Instruction) (m : State) (merge : Word → Word → Word → Word) :
    Sane m (storePart i m merge) := by
  rw [storePart, State.readMem]
  split_ifs
  · trivial
  · cases ht : translate m.pageTable (address i m &&& ~~~3#32) 4 false with
    | error e => exact ⟨rfl, rfl, fun he => translate_pageFault (he ▸ ht)⟩
    | ok r =>
      show Sane m ((State.writeMem _ _ 4 _).map _)
      rw [State.writeMem]
      cases hw : translate r.2 (address i m &&& ~~~3#32) 4 true with
      | error e =>
        refine ⟨rfl, rfl, fun he => ?_⟩
        rw [State.Absent, ← translate_valid ht]
        exact translate_pageFault (he ▸ hw)
      | ok r' => exact Nat.zero_lt_succ 31

theorem execute_sane (i : Instruction) (m : State) : Sane m (execute i m) := by
  obtain ⟨op, rs, rt, rd, extra⟩ := i
  have hraise : ∀ {which bad}, which ≠ .pageFault → Sane m (.error (.exception which bad m)) :=
    fun h => ⟨rfl, rfl, fun he => (h he).elim⟩
  have hzero : (0#32).toNat < 32 := by decide
  cases op with
  | add | addi | sub =>
    simp only [execute]
    split_ifs
    · exact hraise (by decide)
    · exact hzero
  | div | divu =>
    simp only [execute]
    split_ifs <;> exact hzero
  | lb | lbu =>
    simp only [execute]
    exact load_sane _ m _ _
  | lh | lhu | lw =>
    simp only [execute]
    split_ifs
    · exact hraise (by decide)
    · exact load_sane _ m _ _
  | lwl | lwr =>
    simp only [execute]
    exact loadPart_sane _ m _
  | sb | sh | sw =>
    simp only [execute]
    exact store_sane _ m _
  | swl | swr =>
    simp only [execute]
    exact storePart_sane _ m _
  | syscall | res | unimp => exact hraise (by decide)
  | special | bcond => trivial
  | _ => exact hzero

/-- Everything up to the end of the switch. -/
def State.attempt (m : State) : Except Fault Effect :=
  m.fetch.bind fun r => execute (Instruction.decode r.1) r.2

theorem attempt_sane (m : State) : Sane m m.attempt := by
  rw [State.attempt, State.fetch, State.readMem]
  cases ht : translate m.pageTable (m.registers pcReg) 4 false with
  | error e => exact ⟨rfl, rfl, fun he => translate_pageFault (he ▸ ht)⟩
  | ok r =>
    let m₁ : State := { m with pageTable := r.2 }
    let i := Instruction.decode (loadBytes m.mainMemory r.1.toNat 4)
    have hsane : Sane m₁ (execute i m₁) := execute_sane i m₁
    show Sane m (execute i m₁)
    cases hx : execute i m₁ with
    | ok e =>
      rw [hx] at hsane
      exact hsane
    | error fault =>
      rw [hx] at hsane
      cases fault with
      | failure => trivial
      | exception which bad m' =>
        refine ⟨hsane.1, hsane.2.1, fun he => ?_⟩
        rw [State.Absent, ← translate_valid ht]
        exact hsane.2.2 he

/-- What the registers of a running program always satisfy. -/
structure Regular (m : State) : Prop where
  load_lt : (m.registers loadReg).toNat < 32
  zero : m.registers 0 = 0

/-- The registers that an exception at `bad` changes: the load that is pending reaches its
register, if that is not register 0. -/
def State.completed (m : State) (bad : Word) (k : Reg) : Option Word :=
  if k = badVAddrReg then some bad
  else if k = loadReg ∨ k = loadValueReg then some 0
  else if k ≠ 0 ∧ (k : ℕ) = (m.registers loadReg).toNat then some (m.registers loadValueReg)
  else none

@[simp] theorem completed_zero (m : State) (bad : Word) : m.completed bad 0 = none := by
  rw [State.completed, if_neg (by decide), if_neg (by decide), if_neg (fun h => h.1 rfl)]

@[simp] theorem completed_badVAddr (m : State) (bad : Word) :
    m.completed bad badVAddrReg = some bad := if_pos rfl

@[simp] theorem completed_load (m : State) (bad : Word) : m.completed bad loadReg = some 0 := by
  rw [State.completed, if_neg (by decide), if_pos (.inl rfl)]

@[simp] theorem completed_loadValue (m : State) (bad : Word) :
    m.completed bad loadValueReg = some 0 := by
  rw [State.completed, if_neg (by decide), if_pos (.inr rfl)]

theorem completed_of_ne (m : State) (bad : Word) {k : Reg} (h0 : k ≠ 0) (hb : k ≠ badVAddrReg)
    (hl : k ≠ loadReg) (hv : k ≠ loadValueReg) :
    m.completed bad k = if (k : ℕ) = (m.registers loadReg).toNat then
      some (m.registers loadValueReg) else none := by
  rw [State.completed, if_neg hb, if_neg (not_or.2 ⟨hl, hv⟩)]
  exact if_congr (and_iff_right h0) rfl rfl

/-- The registers after `DelayedLoad`. -/
theorem delayedLoad_eq_some {m : State} (h : (m.registers loadReg).toNat < 32)
    (nextReg nextValue : Word) :
    ∃ m', m.delayedLoad nextReg nextValue = some m' ∧ m'.mainMemory = m.mainMemory ∧
      m'.pageTable = m.pageTable ∧ ∀ k, m'.registers k =
        if k = 0 then 0 else if k = loadValueReg then nextValue else if k = loadReg then nextReg
        else if (k : ℕ) = (m.registers loadReg).toNat then m.registers loadValueReg
        else m.registers k := by
  have hlt : (m.registers loadReg).toNat < 40 := by omega
  refine ⟨_, dif_pos hlt, rfl, rfl, fun k => ?_⟩
  simp only [State.set, Function.update_apply]
  refine if_congr Iff.rfl rfl (if_congr Iff.rfl rfl (if_congr Iff.rfl rfl (if_congr ?_ rfl rfl)))
  exact Fin.ext_iff

/-- Two states that differ at most in `BadVAddrReg`. -/
structure SameButBadVAddr (m m' : State) : Prop where
  registers : ∀ k, k ≠ badVAddrReg → m.registers k = m'.registers k
  mainMemory : m.mainMemory = m'.mainMemory
  pageTable : m.pageTable = m'.pageTable

theorem SameButBadVAddr.set {m m' : State} (h : SameButBadVAddr m m') (k : Reg) {v v' : Word}
    (hv : v = v') : SameButBadVAddr (m.set k v) (m'.set k v') := by
  refine ⟨fun j hj => ?_, h.mainMemory, h.pageTable⟩
  by_cases hjk : j = k
  · rw [hjk, State.set_self, State.set_self, hv]
  · rw [State.set_of_ne _ _ hjk, State.set_of_ne _ _ hjk, h.registers j hj]

theorem raise_eq {m m' : State} (hm : Regular m) (hregs : m'.registers = m.registers) (bad : Word) :
    ∃ mf, (m'.set badVAddrReg bad).delayedLoad 0 0 = some mf ∧ mf.mainMemory = m'.mainMemory ∧
      mf.registers = (m.overlay (m.completed bad)).registers := by
  have hload : ∀ k, k ≠ badVAddrReg → (m'.set badVAddrReg bad).registers k = m.registers k := by
    intro k hk
    rw [State.set_of_ne _ _ hk, hregs]
  have hlt : ((m'.set badVAddrReg bad).registers loadReg).toNat < 32 := by
    rw [hload _ (by decide)]
    exact hm.load_lt
  obtain ⟨mf, hmf, hmem, -, hk⟩ := delayedLoad_eq_some hlt 0 0
  refine ⟨mf, hmf, hmem, ?_⟩
  funext k
  rw [hk, hload loadReg (by decide), hload loadValueReg (by decide)]
  have hbad : (badVAddrReg : ℕ) ≠ (m.registers loadReg).toNat := by
    have := hm.load_lt
    show 39 ≠ _
    omega
  show _ = (m.completed bad k).getD (m.registers k)
  by_cases h0 : k = 0
  · rw [if_pos h0, h0, completed_zero, Option.getD_none, hm.zero]
  by_cases hv : k = loadValueReg
  · rw [if_neg h0, if_pos hv, hv, completed_loadValue, Option.getD_some]
  by_cases hl : k = loadReg
  · rw [if_neg h0, if_neg hv, if_pos hl, hl, completed_load, Option.getD_some]
  rw [if_neg h0, if_neg hv, if_neg hl]
  by_cases hb : k = badVAddrReg
  · rw [hb, if_neg hbad, completed_badVAddr, Option.getD_some, State.set_self]
  · rw [completed_of_ne m bad h0 hb hl hv, hload k hb]
    split_ifs <;> rfl

/-- The delayed load of the overlaid state does nothing, and that of the other state does what
the exception did. -/
theorem delayedLoad_overlay {m x : State} (hm : Regular m) (bad : Word)
    (hload : x.registers loadReg = m.registers loadReg)
    (hvalue : x.registers loadValueReg = m.registers loadValueReg) (nextReg nextValue : Word) :
    ∃ y y', (x.overlay (m.completed bad)).delayedLoad nextReg nextValue = some y ∧
      x.delayedLoad nextReg nextValue = some y' ∧ SameButBadVAddr y y' := by
  have h0 : (x.overlay (m.completed bad)).registers loadReg = 0 := by
    simp [State.overlay]
  have hlt : ((x.overlay (m.completed bad)).registers loadReg).toNat < 32 := by
    rw [h0]
    decide
  have hlt' : (x.registers loadReg).toNat < 32 := hload ▸ hm.load_lt
  obtain ⟨y, hy, hmem, hpt, hk⟩ := delayedLoad_eq_some hlt nextReg nextValue
  obtain ⟨y', hy', hmem', hpt', hk'⟩ := delayedLoad_eq_some hlt' nextReg nextValue
  refine ⟨y, y', hy, hy', ⟨fun k hb => ?_, hmem.trans hmem'.symm, hpt.trans hpt'.symm⟩⟩
  rw [hk, hk', h0, hload, hvalue]
  refine if_ctx_congr Iff.rfl (fun _ => rfl) fun hk0 => ?_
  refine if_ctx_congr Iff.rfl (fun _ => rfl) fun hkv => ?_
  refine if_ctx_congr Iff.rfl (fun _ => rfl) fun hkl => ?_
  rw [if_neg (show ¬(k : ℕ) = BitVec.toNat (0 : Word) from fun h => hk0 (Fin.ext h))]
  show (m.completed bad k).getD (x.registers k) = _
  rw [completed_of_ne m bad hk0 hb hkl hkv]
  split_ifs <;> rfl

/-- Nothing is pending, or a load for a register that the instruction does not touch. -/
def State.Independent (m : State) (i : Instruction) : Prop :=
  (m.registers loadReg = 0 ∧ m.registers loadValueReg = 0) ∨
    ∀ r ∈ i.touches, (r : ℕ) ≠ (m.registers loadReg).toNat

theorem completed_gp {m : State} {r : Fin 32} (bad : Word)
    (h : r = 0 ∨ (r : ℕ) ≠ (m.registers loadReg).toNat) : m.completed bad (gp r) = none := by
  by_cases h0 : r = 0
  · rw [h0]
    exact completed_zero m bad
  · rw [completed_of_ne m bad (gp_ne_zero h0) (gp_ne (by decide)) (gp_ne (by decide))
      (gp_ne (by decide))]
    exact if_neg (h.resolve_left h0)

theorem completed_of_le {m : State} (hm : Regular m) (bad : Word) {k : Reg} (hk : 32 ≤ (k : ℕ))
    (hb : k ≠ badVAddrReg) (hl : k ≠ loadReg) (hv : k ≠ loadValueReg) :
    m.completed bad k = none := by
  have := hm.load_lt
  rw [completed_of_ne m bad (fun h => by simp [h] at hk) hb hl hv, if_neg (by omega)]

theorem apart_completed {m : State} (hm : Regular m) (bad : Word) {i : Instruction}
    (hi : m.Independent i) : Apart (m.completed bad) i := by
  refine ⟨?_, ?_, ?_, ?_⟩
  · exact completed_of_le hm bad (by decide) (by decide) (by decide) (by decide)
  · exact completed_of_le hm bad (by decide) (by decide) (by decide) (by decide)
  · exact completed_of_le hm bad (by decide) (by decide) (by decide) (by decide)
  · rw [List.forall_iff_forall_mem]
    intro r hr
    apply completed_gp
    rcases hi with hi | hi
    · rw [hi.1]
      exact (eq_or_ne r 0).imp id fun h h0 => h (Fin.ext h0)
    · exact .inr (hi r hr)

theorem natCast_toNat (r : Fin 32) : ((r : ℕ) : Word).toNat = r :=
  (BitVec.toNat_ofNat _ _).trans (Nat.mod_eq_of_lt (by omega))

theorem old_eq {m : State} (hm : Regular m) {r : Fin 32}
    (h : (m.registers loadReg = 0 ∧ m.registers loadValueReg = 0) ∨
      (r : ℕ) ≠ (m.registers loadReg).toNat) : m.old r = m.registers (gp r) := by
  rw [State.old]
  split_ifs with hr
  · have hr' : (m.registers loadReg).toNat = r := by rw [hr, natCast_toNat]
    obtain ⟨hl, hv⟩ := h.resolve_right (fun hne => hne hr'.symm)
    have hr0 : r = 0 := by
      rw [hl] at hr'
      exact Fin.ext hr'.symm
    rw [hv, hr0]
    exact hm.zero.symm
  · rfl

theorem old_completed {m : State} (hm : Regular m) (bad : Word) {i : Instruction}
    (hi : m.Independent i) (hrt : i.rt ∈ i.touches) :
    (m.overlay (m.completed bad)).old i.rt = m.old i.rt := by
  have happ := List.forall_iff_forall_mem.1 (apart_completed hm bad hi).gpr i.rt hrt
  have hm' : Regular (m.overlay (m.completed bad)) := by
    constructor
    · simp [State.overlay]
    · simp [State.overlay, hm.zero]
  rw [old_eq hm (hi.imp id fun h => h _ hrt), old_eq hm' (.inl ?_), overlay_reg happ]
  simp [State.overlay]

/-- The two outcomes of an instruction agree, `BadVAddrReg` apart. -/
def Outcome.Same : Outcome → Outcome → Prop
  | .done m, .done m' => SameButBadVAddr m m'
  | .raised which m, .raised which' m' => which = which' ∧ SameButBadVAddr m m'
  | .failed, .failed => True
  | _, _ => False

theorem attempt_overlay {m : State} (hm : Regular m) (bad : Word)
    (hi : ∀ w m₁, m.fetch = .ok (w, m₁) → m.Independent (Instruction.decode w)) :
    (m.overlay (m.completed bad)).attempt = mapOverlay (m.completed bad) m.attempt := by
  have hpc : m.completed bad pcReg = none :=
    completed_of_le hm bad (by decide) (by decide) (by decide) (by decide)
  rw [State.attempt, State.fetch, overlay_reg hpc, readMem_overlay, State.attempt]
  cases hf : m.fetch with
  | error fault =>
    rw [State.fetch] at hf
    rw [hf]
    rfl
  | ok r =>
    have hregs : r.2.registers = m.registers := State.readMem_registers hf
    have hind := hi r.1 r.2 hf
    rw [State.fetch] at hf
    rw [hf]
    refine execute_overlay (apart_completed hm bad hind) r.2 fun hop => ?_
    have hrt : (Instruction.decode r.1).rt ∈ (Instruction.decode r.1).touches := by
      rcases hop with hop | hop <;> simp [Instruction.touches, hop]
    rw [old_congr hregs, ← old_completed hm bad hind hrt]
    apply old_congr
    simp only [State.overlay, hregs]

theorem apart_single (m : State) (i : Instruction) {k : Reg} (hk : 32 ≤ (k : ℕ)) (hhi : k ≠ hiReg)
    (hlo : k ≠ loReg) (hnext : k ≠ nextPCReg) :
    Apart (fun j => if j = k then some (m.registers k) else none) i := by
  refine ⟨if_neg hhi.symm, if_neg hlo.symm, if_neg hnext.symm, ?_⟩
  rw [List.forall_iff_forall_mem]
  intro r _
  exact if_neg (gp_ne hk)

theorem attempt_frame {m : State} {e : Effect} (h : m.attempt = .ok e) {k : Reg}
    (hk : 32 ≤ (k : ℕ)) (hhi : k ≠ hiReg) (hlo : k ≠ loReg) (hnext : k ≠ nextPCReg) :
    e.m.registers k = m.registers k := by
  rw [State.attempt] at h
  cases hf : m.fetch with
  | error fault =>
    rw [hf] at h
    cases h
  | ok r =>
    rw [hf] at h
    have hregs : r.2.registers = m.registers := State.readMem_registers hf
    rw [execute_frame h (apart_single r.2 _ hk hhi hlo hnext), hregs]

theorem same_finish {m : State} (hm : Regular m) (bad : Word) {e : Effect}
    (hload : e.m.registers loadReg = m.registers loadReg)
    (hvalue : e.m.registers loadValueReg = m.registers loadValueReg) :
    Outcome.Same ((e.overlay (m.completed bad)).finish.elim .failed .done)
      (e.finish.elim .failed .done) := by
  obtain ⟨y, y', hy, hy', hsame⟩ := delayedLoad_overlay hm bad hload hvalue e.nextLoadReg
    e.nextLoadValue
  have hover : (e.overlay (m.completed bad)).m.delayedLoad (e.overlay (m.completed bad)).nextLoadReg
      (e.overlay (m.completed bad)).nextLoadValue = some y := hy
  rw [Effect.finish, Effect.finish, hover, hy']
  have hprev := hsame.set prevPCReg (hsame.registers pcReg (by decide))
  have hpc := hprev.set pcReg (hsame.registers nextPCReg (by decide))
  exact hpc.set nextPCReg rfl

theorem set_overlay_completed (m m' : State) (bad bad' : Word) :
    (m'.overlay (m.completed bad)).set badVAddrReg bad' =
      (m'.set badVAddrReg bad').overlay (m.completed bad') := by
  simp only [State.set, State.overlay]
  congr 1
  funext k
  by_cases hk : k = badVAddrReg
  · subst hk
    simp
  · simp [State.completed, hk]

theorem same_raise {m m' : State} (hm : Regular m) (hregs : m'.registers = m.registers)
    (which : ExceptionType) (bad bad' : Word) :
    Outcome.Same ((Fault.exception which bad' m').overlay (m.completed bad)).raise
      (Fault.exception which bad' m').raise := by
  have hkeep : ∀ k, k ≠ badVAddrReg → (m'.set badVAddrReg bad').registers k = m.registers k := by
    intro k hk
    rw [State.set_of_ne _ _ hk, hregs]
  obtain ⟨y, y', hy, hy', hsame⟩ :=
    delayedLoad_overlay hm bad' (hkeep loadReg (by decide)) (hkeep loadValueReg (by decide)) 0 0
  simp only [Fault.overlay, Fault.raise, set_overlay_completed, hy, hy']
  exact ⟨rfl, hsame⟩

/-- After an exception the instruction does what it would have done without it. -/
theorem oneInstruction_overlay {m : State} (hm : Regular m) (bad : Word)
    (hi : ∀ w m₁, m.fetch = .ok (w, m₁) → m.Independent (Instruction.decode w)) :
    Outcome.Same (m.overlay (m.completed bad)).oneInstruction m.oneInstruction := by
  show Outcome.Same (conclude (m.overlay (m.completed bad)).attempt) (conclude m.attempt)
  have hsane := attempt_sane m
  rw [attempt_overlay hm bad hi]
  cases ha : m.attempt with
  | ok e =>
    have hload := attempt_frame ha (k := loadReg) (by decide) (by decide) (by decide) (by decide)
    have hvalue := attempt_frame ha (k := loadValueReg) (by decide) (by decide) (by decide)
      (by decide)
    exact same_finish hm bad hload hvalue
  | error fault =>
    rw [ha] at hsane
    cases fault with
    | failure => trivial
    | exception which bad' m' => exact same_raise hm hsane.1 which bad bad'

/-- The state in which an instruction ends, or in which the kernel is entered. -/
def Outcome.state : Outcome → Option State
  | .done m => some m
  | .raised _ m => some m
  | .failed => none

theorem initRegisters_regular (numPages : ℕ) (mainMemory : Memory) (pageTable : PageTable) :
    Regular ⟨initRegisters numPages, mainMemory, pageTable⟩ where
  load_lt := by
    show (initRegisters numPages loadReg).toNat < 32
    rw [initRegisters, if_neg (by decide), if_neg (by decide)]
    decide
  zero := by
    show initRegisters numPages 0 = 0
    rw [initRegisters, if_neg (by decide), if_neg (by decide)]
    rfl

theorem finish_regular {m m' : State} (hm : Regular m) {e : Effect} (he : m.attempt = .ok e)
    (h : e.finish = some m') : Regular m' := by
  have hnext : e.nextLoadReg.toNat < 32 := by
    have hsane := attempt_sane m
    rw [he] at hsane
    exact hsane
  have hload := attempt_frame he (k := loadReg) (by decide) (by decide) (by decide) (by decide)
  have hlt : (e.m.registers loadReg).toNat < 32 := hload ▸ hm.load_lt
  obtain ⟨y, hy, -, -, hk⟩ := delayedLoad_eq_some hlt e.nextLoadReg e.nextLoadValue
  rw [Effect.finish, hy, Option.map_some, Option.some.injEq] at h
  subst h
  constructor
  · rw [State.set_of_ne _ _ (by decide), State.set_of_ne _ _ (by decide),
      State.set_of_ne _ _ (by decide), hk, if_neg (by decide), if_neg (by decide), if_pos rfl]
    exact hnext
  · rw [State.set_of_ne _ _ (by decide), State.set_of_ne _ _ (by decide),
      State.set_of_ne _ _ (by decide), hk, if_pos rfl]

theorem oneInstruction_regular {m m' : State} (hm : Regular m)
    (h : m.oneInstruction.state = some m') : Regular m' := by
  have hsane := attempt_sane m
  change (conclude m.attempt).state = _ at h
  cases ha : m.attempt with
  | ok e =>
    rw [ha] at h
    cases hf : e.finish with
    | none => simp [conclude_ok, hf, Outcome.state] at h
    | some y =>
      simp only [conclude_ok, hf, Option.elim_some, Outcome.state, Option.some.injEq] at h
      exact h ▸ finish_regular hm ha hf
  | error fault =>
    rw [ha] at h hsane
    cases fault with
    | failure => cases h
    | exception which bad x =>
      obtain ⟨mf, hmf, -, hregs⟩ := raise_eq hm hsane.1 bad
      simp only [conclude_error, Fault.raise, hmf, Option.elim_some, Outcome.state,
        Option.some.injEq] at h
      subst h
      constructor
      · rw [hregs]
        simp [State.overlay]
      · rw [hregs]
        simp [State.overlay, hm.zero]

/-- A page fault completes the pending load and changes no other register but
`BadVAddrReg`. Whatever page table and memory the kernel then makes, the instruction does
there what it would have done from the start. -/
theorem pageFault_transparent {m mf : State} (hm : Regular m)
    (h : m.oneInstruction = .raised .pageFault mf) :
    ∃ bad, m.Absent bad ∧ mf.mainMemory = m.mainMemory ∧
      mf.registers = (m.overlay (m.completed bad)).registers ∧
      ∀ (pageTable : PageTable) (mainMemory : Memory),
        let again : State := ⟨mf.registers, mainMemory, pageTable⟩
        let once : State := ⟨m.registers, mainMemory, pageTable⟩
        (∀ w m₁, once.fetch = .ok (w, m₁) → m.Independent (Instruction.decode w)) →
          Outcome.Same again.oneInstruction once.oneInstruction := by
  have hsane := attempt_sane m
  change conclude m.attempt = _ at h
  cases ha : m.attempt with
  | ok e =>
    rw [ha] at h
    cases hf : e.finish <;> simp [conclude_ok, hf] at h
  | error fault =>
    rw [ha] at h hsane
    cases fault with
    | failure => cases h
    | exception which bad m' =>
      obtain ⟨mf', hmf', hmem, hregs⟩ := raise_eq hm hsane.1 bad
      simp only [conclude_error, Fault.raise, hmf', Option.elim_some, Outcome.raised.injEq] at h
      obtain ⟨hwhich, rfl⟩ := h
      refine ⟨bad, hsane.2.2 hwhich, hmem.trans hsane.2.1, hregs, fun pageTable mainMemory hi => ?_⟩
      have honce : Regular ⟨m.registers, mainMemory, pageTable⟩ := ⟨hm.load_lt, hm.zero⟩
      rw [hregs]
      exact oneInstruction_overlay honce bad hi

/-- `lw r1,128(r0)` at address 0, with a load of register 3 pending and page 1 not in memory. -/
def loadAtFault : State where
  registers r := if r = nextPCReg then 4#32 else if r = loadReg then 3#32
    else if r = loadValueReg then 9#32 else 0#32
  mainMemory := setWord (fun _ => 7#8) 0 0x8c010080#32
  pageTable := [⟨0#32, true, false, false, false⟩, ⟨0#32, false, false, false, false⟩]

theorem pageFault_transparent_load :
    ∃ mf, loadAtFault.oneInstruction = .raised .pageFault mf ∧ mf.registers 3 = 9#32 ∧
      Outcome.Same
        (State.oneInstruction ⟨mf.registers, loadAtFault.mainMemory,
          [⟨0#32, true, false, false, false⟩, ⟨1#32, true, false, false, false⟩]⟩)
        (State.oneInstruction ⟨loadAtFault.registers, loadAtFault.mainMemory,
          [⟨0#32, true, false, false, false⟩, ⟨1#32, true, false, false, false⟩]⟩) := by
  have hm : Regular loadAtFault := ⟨by decide, rfl⟩
  obtain ⟨mf, hmf⟩ : ∃ mf, loadAtFault.oneInstruction = .raised .pageFault mf := ⟨_, rfl⟩
  obtain ⟨bad, -, -, hregs, hagain⟩ := pageFault_transparent hm hmf
  refine ⟨mf, hmf, ?_, hagain _ _ ?_⟩
  · rw [hregs]
    rfl
  · intro w m₁ hfetch
    have hw : w = 0x8c010080#32 := by
      have hword : word loadAtFault.mainMemory 0 = 0x8c010080#32 := word_setWord_self _ _ _
      rw [← hword]
      exact (Prod.mk.inj (Except.ok.inj hfetch)).1.symm
    rw [hw]
    exact .inr (by decide)

end Nachos.Machine
