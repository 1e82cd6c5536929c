import Nachos.BitMap
import Nachos.CStrings

/-!
# The directory of `filesys/directory.cc`, build with `FILESYS`

The table is an array of entries of twenty bytes: the flag `inUse`, the sector
of a file header at offset 4 and the name at offset 8. It is read from the
directory file and written to it as it stands in memory. `new` does not clear
it, so the constructor and `ExpandTable` are given what they find there.

`entry` is what an entry says: nothing, or the text of a name and a sector. The
second half of the module describes the operations in these terms.
-/
namespace Nachos.FileSystem
open ByteMemory CStrings

abbrev fileNameMaxLen : ℕ := 9

/-- `sizeof(DirectoryEntry)` -/
abbrev entrySize : ℕ := 20

abbrev maxTableSize : ℕ := (4 + 26 * 32) * 128 / entrySize

abbrev numDirEntries : ℕ := 10

structure Directory where
  tableSize : ℕ
  table : Memory

namespace Directory

def inUse (d : Directory) (i : ℕ) : Bool := d.table (entrySize * i) != 0#8

def sector (d : Directory) (i : ℕ) : Word := word d.table (entrySize * i + 4)

def name (d : Directory) (i : ℕ) : Memory := fun k => d.table (entrySize * i + 8 + k)

/-- The constructor -/
def create (junk : Memory) (size : ℕ) : Directory :=
  ⟨size, fun p => if p % entrySize = 0 ∧ p / entrySize < size then 0#8 else junk p⟩

/-- `FetchFrom` after `ReadAt` copied the bytes `l`. -/
def fetchFrom (d : Directory) (l : List Byte) : Directory :=
  { d with table := overlay d.table 0 l }

/-- The bytes that `WriteBack` passes to `WriteAt`. -/
def bytes (d : Directory) : List Byte := bytesAt d.table 0 (entrySize * d.tableSize)

def findIndex (d : Directory) (name : Memory) : Option ℕ :=
  (List.range d.tableSize).find? fun i => d.inUse i && sameText (d.name i) name fileNameMaxLen

def find (d : Directory) (name : Memory) : Word := ((d.findIndex name).map d.sector).getD (-1#32)

/-- The three assignments that fill an entry. -/
def setEntry (d : Directory) (i : ℕ) (name : Memory) (newSector : Word) : Directory :=
  let used := Function.update d.table (entrySize * i) 1#8
  let named := overlay used (entrySize * i + 8) (copied name fileNameMaxLen)
  { d with table := setWord named (entrySize * i + 4) newSector }

def expandTable (junk : Memory) (d : Directory) : Directory :=
  let newTableSize := if d.tableSize + 10 ≥ maxTableSize then maxTableSize else d.tableSize + 10
  ⟨newTableSize, fun p =>
    let i := p / entrySize
    let k := p % entrySize
    if i < d.tableSize then
      if k = 0 ∨ 4 ≤ k ∧ k < 8 then d.table p
      else if 8 ≤ k ∧ k < 8 + fileNameMaxLen then
        (copied (d.name i) fileNameMaxLen).getD (k - 8) 0#8
      else junk p
    else if k = 0 ∧ i < newTableSize then 0#8 else junk p⟩

def add (junk : Memory) (d : Directory) (name : Memory) (newSector : Word) : Bool × Directory :=
  if (d.findIndex name).isSome then (false, d)
  else if d.tableSize ≥ maxTableSize then (false, d)
  else
    match (List.range d.tableSize).find? fun i => !d.inUse i with
    | some i => (true, d.setEntry i name newSector)
    | none =>
      let e := d.expandTable junk
      if e.inUse d.tableSize then (false, e) else (true, e.setEntry d.tableSize name newSector)

/-- `table[i].inUse = FALSE` -/
def clearEntry (d : Directory) (i : ℕ) : Directory :=
  { d with table := Function.update d.table (entrySize * i) 0#8 }

def remove (d : Directory) (name : Memory) : Bool × Directory :=
  match d.findIndex name with
  | none => (false, d)
  | some i => (true, d.clearEntry i)

/-- The text of the name and the sector of an entry in use. -/
def entry (d : Directory) (i : ℕ) : Option (List Byte × Word) :=
  if i < d.tableSize ∧ d.inUse i then some (text (d.name i) fileNameMaxLen, d.sector i) else none

theorem entry_congr {d d' : Directory} {i : ℕ} (hsize : i < d'.tableSize ↔ i < d.tableSize)
    (h : i < d.tableSize → ∀ k < entrySize, d'.table (entrySize * i + k) = d.table (entrySize * i + k)) :
    d'.entry i = d.entry i := by
  unfold entry
  by_cases hi : i < d.tableSize
  · have hk := h hi
    have huse : d'.inUse i = d.inUse i := by
      simp only [inUse]
      rw [show d'.table (entrySize * i) = d.table (entrySize * i) from hk 0 (by decide)]
    have hname : text (d'.name i) fileNameMaxLen = text (d.name i) fileNameMaxLen := by
      apply text_congr
      intro k hk9
      simp only [name, Nat.add_assoc]
      exact hk (8 + k) (by simp only [entrySize, fileNameMaxLen] at *; omega)
    have hsec : d'.sector i = d.sector i := by
      apply word_congr
      intro k hk4
      rw [Nat.add_assoc]
      exact hk (4 + k) (by simp only [entrySize]; omega)
    simp only [hi, hsize.mpr hi, huse, hname, hsec]
  · simp [hi, hsize]

theorem entry_of_not_inUse {d : Directory} {i : ℕ} (h : d.inUse i = false) : d.entry i = none := by
  simp [entry, h]

theorem entry_setEntry_self {d : Directory} {i : ℕ} (hi : i < d.tableSize) (n : Memory) (w : Word) :
    (d.setEntry i n w).entry i = some (text n fileNameMaxLen, w) := by
  have huse : (d.setEntry i n w).inUse i = true := by
    have h0 : (d.setEntry i n w).table (entrySize * i) = 1#8 := by
      simp only [setEntry]
      rw [setWord_of_lt (by omega), overlay_of_lt (by omega), Function.update_self]
    rw [inUse, h0]
    rfl
  have hname : text ((d.setEntry i n w).name i) fileNameMaxLen = text n fileNameMaxLen := by
    apply text_of_copied
    intro k hk
    obtain ⟨b, hb⟩ : ∃ b, (copied n fileNameMaxLen)[k]? = some b :=
      ⟨_, List.getElem?_eq_getElem (by simpa using hk)⟩
    simp only [name, setEntry]
    rw [setWord_of_le (by omega), overlay_add hb, hb]
  have hsec : (d.setEntry i n w).sector i = w := word_setWord_self _ _ _
  rw [entry, if_pos ⟨hi, huse⟩, hname, hsec]

theorem entry_setEntry_ne {d : Directory} {i j : ℕ} (hij : j ≠ i) (n : Memory) (w : Word) :
    (d.setEntry i n w).entry j = d.entry j := by
  refine entry_congr (show j < (d.setEntry i n w).tableSize ↔ j < d.tableSize from Iff.rfl) ?_
  intro _ k hk
  have hlen : (copied n fileNameMaxLen).length = 9 := copied_length n _
  simp only [setEntry, entrySize] at *
  rcases Nat.lt_or_gt_of_ne hij with h | h
  · rw [setWord_of_lt (by omega), overlay_of_lt (by omega), Function.update_of_ne (by omega)]
  · rw [setWord_of_le (by omega), overlay_of_le (by omega), Function.update_of_ne (by omega)]

theorem findIndex_eq_some {d : Directory} {n : Memory} {i : ℕ} (h : d.findIndex n = some i) :
    d.entry i = some (text n fileNameMaxLen, d.sector i) := by
  rw [findIndex, List.find?_range_eq_some] at h
  obtain ⟨hp, hi, -⟩ := h
  simp only [Bool.and_eq_true, sameText_iff] at hp
  rw [entry, if_pos ⟨List.mem_range.mp hi, hp.1⟩, hp.2]

theorem findIndex_eq_none_iff {d : Directory} {n : Memory} :
    d.findIndex n = none ↔ ∀ i w, d.entry i ≠ some (text n fileNameMaxLen, w) := by
  rw [findIndex, List.find?_eq_none]
  constructor
  · intro h i w he
    unfold entry at he
    split_ifs at he with hi
    refine h i (List.mem_range.mpr hi.1) ?_
    rw [Bool.and_eq_true, sameText_iff]
    exact ⟨hi.2, congrArg Prod.fst (Option.some.inj he)⟩
  · intro h i hi hp
    rw [Bool.and_eq_true, sameText_iff] at hp
    refine h i (d.sector i) ?_
    rw [entry, if_pos ⟨List.mem_range.mp hi, hp.1⟩, hp.2]

theorem find_eq {d : Directory} {n : Memory} {i : ℕ} (h : d.findIndex n = some i) :
    d.find n = d.sector i := by
  simp [find, h]

theorem find_of_none {d : Directory} {n : Memory} (h : d.findIndex n = none) :
    d.find n = -1#32 := by
  simp [find, h]

theorem entry_clearEntry (d : Directory) (i j : ℕ) :
    (d.clearEntry i).entry j = if j = i then none else d.entry j := by
  by_cases hij : j = i
  · subst hij
    rw [if_pos rfl]
    exact entry_of_not_inUse (by simp [inUse, clearEntry])
  · rw [if_neg hij]
    refine entry_congr (show j < (d.clearEntry i).tableSize ↔ j < d.tableSize from Iff.rfl) ?_
    intro _ k hk
    exact Function.update_of_ne (by simp only [entrySize] at *; omega) _ _

theorem entry_create (junk : Memory) (size i : ℕ) : (create junk size).entry i = none := by
  by_cases hi : i < size
  · apply entry_of_not_inUse
    simp [inUse, create, hi]
  · simp [entry, create, hi]

/-- `Add` with room for one more name in the table. -/
theorem add_eq {d : Directory} {n : Memory} {i : ℕ} (junk : Memory) (w : Word)
    (hn : d.findIndex n = none) (hsize : d.tableSize < maxTableSize)
    (hi : ((List.range d.tableSize).find? fun i => !d.inUse i) = some i) :
    d.add junk n w = (true, d.setEntry i n w) := by
  simp [add, hn, hi, Nat.not_le.mpr hsize]

theorem expandTable_table {d : Directory} {i k : ℕ} (junk : Memory) (hi : i < d.tableSize)
    (hk : k < entrySize) : (d.expandTable junk).table (entrySize * i + k) =
      if k = 0 ∨ 4 ≤ k ∧ k < 8 then d.table (entrySize * i + k)
      else if 8 ≤ k ∧ k < 8 + fileNameMaxLen then
        (copied (d.name i) fileNameMaxLen).getD (k - 8) 0#8
      else junk (entrySize * i + k) := by
  have hdiv : (entrySize * i + k) / entrySize = i := by
    rw [Nat.mul_add_div (by decide), Nat.div_eq_of_lt hk, Nat.add_zero]
  have hmod : (entrySize * i + k) % entrySize = k := by
    rw [Nat.mul_add_mod, Nat.mod_eq_of_lt hk]
  simp only [expandTable, hdiv, hmod, if_pos hi]

/-- The entries of the old table are in the new one. -/
theorem entry_expandTable {d : Directory} {i : ℕ} (junk : Memory) (hi : i < d.tableSize)
    (hsize : d.tableSize ≤ maxTableSize) : (d.expandTable junk).entry i = d.entry i := by
  have hlt : i < (d.expandTable junk).tableSize := by
    simp only [expandTable]
    split_ifs <;> omega
  have huse : (d.expandTable junk).inUse i = d.inUse i := by
    have h0 := expandTable_table junk hi (show 0 < entrySize by decide)
    rw [if_pos (Or.inl rfl), Nat.add_zero] at h0
    rw [inUse, h0]
    rfl
  have hsec : (d.expandTable junk).sector i = d.sector i := by
    apply word_congr
    intro k hk
    rw [Nat.add_assoc, expandTable_table junk hi (by simp only [entrySize]; omega), if_pos (by omega)]
  have hname : text ((d.expandTable junk).name i) fileNameMaxLen = text (d.name i) fileNameMaxLen := by
    apply text_of_copied
    intro k hk
    simp only [fileNameMaxLen] at hk
    have hlen : k < (copied (d.name i) fileNameMaxLen).length := by
      rw [copied_length]
      exact hk
    simp only [name]
    rw [Nat.add_assoc, expandTable_table junk hi (by simp only [entrySize]; omega), if_neg (by omega),
      if_pos (by simp only [fileNameMaxLen]; omega), Nat.add_sub_cancel_left, List.getD_eq_getElem?_getD,
      List.getElem?_eq_getElem hlen, Option.getD_some]
  simp only [entry, hi, hlt, huse, hname, hsec]

/-- The first new entry is free. -/
theorem inUse_expandTable {d : Directory} (junk : Memory) (hsize : d.tableSize < maxTableSize) :
    (d.expandTable junk).inUse d.tableSize = false := by
  have hdiv : entrySize * d.tableSize / entrySize = d.tableSize := Nat.mul_div_cancel_left _ (by decide)
  have hmod : entrySize * d.tableSize % entrySize = 0 := Nat.mul_mod_right _ _
  have hlt : d.tableSize < (d.expandTable junk).tableSize := by
    simp only [expandTable]
    split_ifs <;> omega
  simp only [inUse, expandTable, hdiv, hmod, Nat.lt_irrefl, if_false] at hlt ⊢
  rw [if_pos ⟨trivial, hlt⟩]
  rfl

/-- `Add` to a full table. -/
theorem add_full {d : Directory} {n : Memory} (junk : Memory) (w : Word)
    (hn : d.findIndex n = none) (hsize : d.tableSize < maxTableSize)
    (hfull : ∀ i < d.tableSize, d.inUse i = true) :
    d.add junk n w = (true, (d.expandTable junk).setEntry d.tableSize n w) := by
  have hnone : ((List.range d.tableSize).find? fun i => !d.inUse i) = none := by
    rw [List.find?_eq_none]
    intro i hi
    simp [hfull i (List.mem_range.mp hi)]
  simp [add, hn, hnone, Nat.not_le.mpr hsize, inUse_expandTable junk hsize]

end Directory

end Nachos.FileSystem
