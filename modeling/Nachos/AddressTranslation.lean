import Nachos.BitMap

/-!
# Virtual addresses: the hardware and the kernel

`Machine::Translate` of `machine/translate.cc` divides the address as an unsigned
number; `AddrSpace::Translate` of `userprog/addrspace.cc` (build without virtual
memory) divides it as a signed one and has a bound test of its own. Both take the
page from the same table. The two agree on all addresses but those of the last
page before zero and those of the first page behind the table.

No build defines `USE_TLB`, so the machine has no TLB.
-/
namespace Nachos.Machine

abbrev pageSize : ℕ := 128

abbrev numPhysPages : ℕ := 64

abbrev memorySize : ℕ := numPhysPages * pageSize

/-- Without `virtualPage`, which only a TLB is searched for. -/
structure TranslationEntry where
  physicalPage : Word
  valid : Bool
  readOnly : Bool
  use : Bool
  dirty : Bool
  deriving DecidableEq, Repr

inductive ExceptionType where
  | syscall
  | pageFault
  | readOnly
  | busError
  | addressError
  | overflow
  | illegalInstr
  deriving DecidableEq, Repr

abbrev PageTable := List TranslationEntry

def misaligned (virtAddr : Word) (size : ℕ) : Bool :=
  (size = 4 && virtAddr &&& 3#32 != 0#32) || (size = 2 && virtAddr &&& 1#32 != 0#32)

/-- The page of an address and the offset in it, as unsigned numbers. -/
def vpn (virtAddr : Word) : ℕ := (virtAddr / 128#32).toNat

def offset (virtAddr : Word) : Word := virtAddr % 128#32

/-- `Machine::Translate`: the physical address and the table with its use and dirty
bits set, or the exception. -/
def translate (pageTable : PageTable) (virtAddr : Word) (size : ℕ) (writing : Bool) :
    Except ExceptionType (Word × PageTable) :=
  if misaligned virtAddr size then .error .addressError
  else
    match pageTable[vpn virtAddr]? with
    | none => .error .addressError
    | some entry =>
      if !entry.valid then .error .pageFault
      else if entry.readOnly && writing then .error .readOnly
      else if entry.physicalPage.toNat ≥ numPhysPages then .error .busError
      else .ok (entry.physicalPage * 128#32 + offset virtAddr, pageTable.set (vpn virtAddr)
        { entry with use := true, dirty := entry.dirty || writing })

/-- The page table of a process. The constructor refuses more pages than the
machine has frames, and `getPage` gives it frames of the machine. -/
structure AddrSpace where
  pageTable : PageTable
  numPages_le : pageTable.length ≤ numPhysPages
  frame_lt : ∀ e ∈ pageTable, e.valid = true → e.physicalPage.toNat < numPhysPages

def AddrSpace.numPages (s : AddrSpace) : ℕ := s.pageTable.length

/-- `AddrSpace::Translate` without virtual memory. The outer `none` is a call that
looks at an entry outside of the table, the inner one the answer `FALSE`. `vpn` is
compared with `numPages` as an unsigned number. -/
def AddrSpace.translate (s : AddrSpace) (vaddr : Word) (writing : Bool) :
    Option (Option (Word × PageTable)) :=
  let vpn := vaddr.sdiv 128#32
  let offset := vaddr.srem 128#32
  if vpn.toNat > s.numPages then some none
  else
    s.pageTable[vpn.toNat]?.map fun entry =>
      if !entry.valid then none
      else some (entry.physicalPage * 128#32 + offset,
        if writing then s.pageTable.set vpn.toNat { entry with dirty := true } else s.pageTable)

variable {pt pt' : PageTable} {a p : Word} {size : ℕ} {w : Bool}

/-- What a successful translation says about the table. -/
theorem translate_eq_ok (h : translate pt a size w = .ok (p, pt')) :
    misaligned a size = false ∧ ∃ e, pt[vpn a]? = some e ∧ e.valid = true ∧
      (e.readOnly && w) = false ∧ e.physicalPage.toNat < numPhysPages ∧
      p = e.physicalPage * 128#32 + offset a ∧
      pt' = pt.set (vpn a) { e with use := true, dirty := e.dirty || w } := by
  unfold translate at h
  split_ifs at h with hmis
  split at h
  · cases h
  · rename_i e he
    split_ifs at h with hvalid hread hframe
    obtain ⟨rfl, rfl⟩ := Prod.mk.inj (Except.ok.inj h)
    exact ⟨by simpa using hmis, e, he, by simpa using hvalid, by simpa using hread, by omega, rfl, rfl⟩

/-- A physical address lies in the frame of its page. -/
theorem toNat_frame_add {f o : Word} (hf : f.toNat < numPhysPages) (ho : o.toNat < 128) :
    (f * 128#32 + o).toNat = f.toNat * 128 + o.toNat := by
  simp only [numPhysPages] at hf
  rw [BitVec.toNat_add, BitVec.toNat_mul, BitVec.toNat_ofNat]
  omega

theorem offset_toNat (a : Word) : (offset a).toNat = a.toNat % 128 := by
  rw [offset, BitVec.toNat_umod]
  rfl

theorem vpn_eq (a : Word) : vpn a = a.toNat / 128 := by
  rw [vpn, BitVec.toNat_udiv]
  rfl

/-- The hardware refuses an address behind the table. -/
theorem translate_outside (h : pt.length ≤ vpn a) (size : ℕ) (w : Bool) :
    translate pt a size w = .error .addressError := by
  unfold translate
  rw [List.getElem?_eq_none h]
  exact ite_self _

/-- An address is in a frame of the process. -/
def AddrSpace.Holds (s : AddrSpace) (p : Word) : Prop :=
  ∃ e ∈ s.pageTable, e.valid = true ∧ p.toNat / pageSize = e.physicalPage.toNat

/-- Division by the page size rounds towards zero. -/
theorem tdiv_pageSize (a : ℤ) : (0 ≤ a → a.tdiv 128 = a / 128) ∧ (a ≤ 0 → a.tdiv 128 = -(-a / 128)) := by
  refine ⟨fun h => Int.tdiv_eq_ediv_of_nonneg h, fun h => ?_⟩
  rw [← Int.tdiv_eq_ediv_of_nonneg (by omega), Int.neg_tdiv, neg_neg]

theorem sdiv_toInt (a : Word) : (a.sdiv 128#32).toInt = a.toInt.tdiv 128 := by
  have hlow : -2 ^ 31 ≤ a.toInt := BitVec.le_toInt a
  have hhigh : a.toInt < 2 ^ 31 := BitVec.toInt_lt
  have h128 : (128#32).toInt = 128 := by decide
  obtain ⟨hpos, hneg⟩ := tdiv_pageSize a.toInt
  rw [BitVec.toInt_sdiv, h128, Int.bmod_eq_of_le]
  · omega
  · omega

variable {s : AddrSpace} {vaddr : Word}

/-- Both divide an address that is not negative in the same way. -/
theorem AddrSpace.translate_nonneg (h : 0 ≤ vaddr.toInt)
    (hend : vaddr.toInt.tdiv 128 ≠ s.numPages) (writing : Bool) :
    ∃ r, s.translate vaddr writing = some r ∧
      r.map Prod.fst = (Machine.translate s.pageTable vaddr 1 false).toOption.map Prod.fst := by
  have hmsb : vaddr.msb = false := by
    rw [BitVec.msb_eq_toInt, decide_eq_false_iff_not]
    omega
  have hdiv : (vaddr.sdiv 128#32).toNat = vpn vaddr := by
    rw [BitVec.sdiv_eq, hmsb]
    rfl
  have hmod : vaddr.srem 128#32 = offset vaddr := by
    rw [BitVec.srem_eq, hmsb]
    rfl
  have hne : vpn vaddr ≠ s.numPages := by
    intro he
    apply hend
    rw [← he, vpn_eq, Int.tdiv_eq_ediv_of_nonneg h, BitVec.toInt_eq_toNat_of_msb hmsb]
    rfl
  by_cases hlt : vpn vaddr < s.pageTable.length
  · obtain ⟨e, he⟩ : ∃ e, s.pageTable[vpn vaddr]? = some e := ⟨_, List.getElem?_eq_getElem hlt⟩
    have hframe := s.frame_lt e (List.mem_of_getElem? he)
    have hmis : misaligned vaddr 1 = false := rfl
    have hle : ¬vpn vaddr > s.numPages := hlt.le.not_gt
    simp only [AddrSpace.translate, hdiv, if_neg hle, he, Option.map_some, Machine.translate, hmis]
    refine ⟨_, rfl, ?_⟩
    cases hvalid : e.valid with
    | false => rfl
    | true =>
      rw [hmod]
      simp [not_le.mpr (hframe hvalid), Except.toOption]
  · refine ⟨none, ?_, ?_⟩
    · simp only [AddrSpace.translate, hdiv, if_pos (show vpn vaddr > s.numPages by
        unfold AddrSpace.numPages at *; omega)]
    · rw [translate_outside (not_lt.mp hlt)]
      rfl

/-- A negative page is a large one. -/
theorem AddrSpace.translate_negative_page (h : vaddr.toInt ≤ -128) (writing : Bool) :
    s.translate vaddr writing = some none := by
  have hdiv := sdiv_toInt vaddr
  have hle := s.numPages_le
  have hlow : -2 ^ 31 ≤ vaddr.toInt := BitVec.le_toInt vaddr
  have hlarge : (vaddr.sdiv 128#32).toNat > s.numPages := by
    have hneg := (tdiv_pageSize vaddr.toInt).2 (by omega)
    rw [BitVec.toInt_eq_toNat_cond (x := vaddr.sdiv 128#32)] at hdiv
    simp only [AddrSpace.numPages, numPhysPages] at *
    split_ifs at hdiv <;> omega
  simp only [AddrSpace.translate, if_pos hlarge]

/-- Just below zero the page is 0, and the table is searched there. -/
theorem AddrSpace.translate_below_zero (h : -128 < vaddr.toInt) (hneg : vaddr.toInt < 0)
    (hend : vaddr.toInt.tdiv 128 ≠ s.numPages)
    (hzero : ∀ e, s.pageTable[0]? = some e → e.valid = false) (writing : Bool) :
    s.translate vaddr writing = some none := by
  have htdiv : vaddr.toInt.tdiv 128 = 0 := by
    have := (tdiv_pageSize vaddr.toInt).2 hneg.le
    omega
  have hdiv : vaddr.sdiv 128#32 = 0#32 := by
    apply BitVec.eq_of_toInt_eq
    rw [sdiv_toInt, htdiv]
    rfl
  have hpos : 0 < s.pageTable.length := by
    rw [htdiv] at hend
    unfold AddrSpace.numPages at hend
    omega
  obtain ⟨e, he⟩ : ∃ e, s.pageTable[0]? = some e := ⟨_, List.getElem?_eq_getElem hpos⟩
  simp [AddrSpace.translate, hdiv, he, hzero e he]

theorem translate_negative (hneg : vaddr.toInt < 0) (size : ℕ) (w : Bool) :
    translate s.pageTable vaddr size w = .error .addressError := by
  apply translate_outside
  have hle := s.numPages_le
  have hlow : -2 ^ 31 ≤ vaddr.toInt := BitVec.le_toInt vaddr
  rw [vpn_eq]
  rw [BitVec.toInt_eq_toNat_cond] at hneg
  simp only [numPhysPages] at hle
  split_ifs at hneg <;> omega

theorem translate_holds (h : translate s.pageTable a size w = .ok (p, pt')) : s.Holds p := by
  obtain ⟨-, e, he, hvalid, -, hframe, rfl, -⟩ := translate_eq_ok h
  refine ⟨e, List.mem_of_getElem? he, hvalid, ?_⟩
  have hoffset := offset_toNat a
  rw [toNat_frame_add hframe (by omega)]
  simp only [pageSize]
  omega

/-- One page, in frame 1. -/
def onePage : AddrSpace where
  pageTable := [⟨1#32, true, false, false, false⟩]
  numPages_le := by decide
  frame_lt := by decide

end Nachos.Machine
