import Nachos.BitMap
import Nachos.ByteMemory

/-!
# File headers (`filesys/filehdr.cc`, build with `FILESYS`)

A file header is one sector: two counters, four data sectors, the sectors set
aside for thirteen pointer blocks and thirteen pointers to these blocks. The
pointers are addresses of the running kernel. The blocks themselves are never
written to disk. `Store` is the disk together with the blocks of the run;
`new` gives out addresses one after the other and `delete` makes one invalid.

`none` stands for a run that does not go on: a failed assertion, a bad pointer
or an index outside of its array. The functions keep the arithmetic of the
source: `PointerSectors` is unsigned, so differences with it wrap around.
-/
namespace Nachos.FileSystem
open ByteMemory

abbrev sectorSize : ℕ := 128

/-- `NumSectors` of `disk.h` -/
abbrev totalSectors : ℕ := 1024

/-- `PointerSectors` and `NumInDirect` -/
abbrev pointerSectors : ℕ := 31

abbrev numInDirect : ℕ := 13

abbrev Sector := Fin sectorSize → Byte

/-- The bytes of a sector, at every position of a file that maps to it. -/
def Sector.byte (s : Sector) : Memory := fun p => s ⟨p % sectorSize, Nat.mod_lt _ (by decide)⟩

def Sector.ofMemory (m : Memory) : Sector := fun i => m i

@[simp] theorem Sector.byte_ofMemory (m : Memory) (p : ℕ) :
    (Sector.ofMemory m).byte p = m (p % sectorSize) := rfl

/-- The macro `divRoundUp` with the division of C. -/
def divRoundUp (n s : ℤ) : ℤ := n.tdiv s + if n.tmod s > 0 then 1 else 0

structure IndirectPointerBlock where
  numSectors : ℕ
  dataSectors : ℕ → Word

def IndirectPointerBlock.putSector (b : IndirectPointerBlock) (w : Word) :
    Option IndirectPointerBlock :=
  if b.numSectors < pointerSectors then
    some ⟨b.numSectors + 1, Function.update b.dataSectors b.numSectors w⟩
  else none

def IndirectPointerBlock.byteToSector (b : IndirectPointerBlock) (offset : ℕ) : Option Word :=
  if offset / sectorSize < pointerSectors then some (b.dataSectors (offset / sectorSize)) else none

def IndirectPointerBlock.sectors (b : IndirectPointerBlock) : List Word :=
  (List.range b.numSectors).map b.dataSectors

structure Store where
  disk : ℕ → Sector
  blocks : ℕ → Option IndirectPointerBlock
  /-- the address that the next `new` returns -/
  next : ℕ
  /-- what the caller gets from `FileHeader::ByteToSector` when it ends, without a
  return statement, in a call that returned the argument -/
  handOn : Word → Word

/-- `SynchDisk::ReadSector`; a negative number is a large one here. -/
def Store.readSector (st : Store) (w : Word) : Option Sector :=
  if w.toNat < totalSectors then some (st.disk w.toNat) else none

def Store.writeSector (st : Store) (w : Word) (s : Sector) : Option Store :=
  if w.toNat < totalSectors then some { st with disk := Function.update st.disk w.toNat s } else none

def Store.newBlock (st : Store) (b : IndirectPointerBlock) : Option (Word × Store) :=
  if st.next < 2 ^ 32 then
    some (BitVec.ofNat 32 st.next,
      { st with blocks := Function.update st.blocks st.next (some b), next := st.next + 1 })
  else none

structure FileHeader where
  numBytes : Word
  numSectors : Word
  directDataSectors : Fin 4 → Word
  pointerBlockSectors : Fin numInDirect → Word
  indirectDataSectors : Fin numInDirect → Word

namespace FileHeader

/-- The word at offset `4 * k` of the structure. -/
def wordAt (h : FileHeader) (k : ℕ) : Word :=
  if k = 0 then h.numBytes
  else if k = 1 then h.numSectors
  else if hk : k - 2 < 4 then h.directDataSectors ⟨k - 2, hk⟩
  else if hk : k - 6 < numInDirect then h.pointerBlockSectors ⟨k - 6, hk⟩
  else if hk : k - 19 < numInDirect then h.indirectDataSectors ⟨k - 19, hk⟩
  else 0

def fetchFrom (s : Sector) : FileHeader where
  numBytes := word s.byte 0
  numSectors := word s.byte 4
  directDataSectors i := word s.byte (8 + 4 * i)
  pointerBlockSectors j := word s.byte (24 + 4 * j)
  indirectDataSectors j := word s.byte (76 + 4 * j)

def writeBack (h : FileHeader) : Sector := .ofMemory fun p => byteOf (h.wordAt (p / 4)) (p % 4)

theorem word_writeBack (h : FileHeader) {k : ℕ} (hk : k < 32) :
    word h.writeBack.byte (4 * k) = h.wordAt k := by
  apply word_eq_of_bytes
  intro i hi
  have hlt : (4 * k + i) % sectorSize = 4 * k + i := Nat.mod_eq_of_lt (by simp only [sectorSize]; omega)
  have hdiv : (4 * k + i) / 4 = k := by omega
  have hmod : (4 * k + i) % 4 = i := by omega
  rw [writeBack, Sector.byte_ofMemory, hlt, hdiv, hmod]

/-- What is written to a header sector is read back. -/
theorem fetchFrom_writeBack (h : FileHeader) : fetchFrom h.writeBack = h := by
  have hdirect : ∀ i : Fin 4, word h.writeBack.byte (8 + 4 * i) = h.directDataSectors i := by
    intro i
    rw [show 8 + 4 * (i : ℕ) = 4 * (i + 2) by omega, word_writeBack h (by omega)]
    simp [wordAt]
  have hpointer : ∀ j : Fin numInDirect,
      word h.writeBack.byte (24 + 4 * j) = h.pointerBlockSectors j := by
    intro j
    have hj : (j : ℕ) < 13 := j.isLt
    rw [show 24 + 4 * (j : ℕ) = 4 * (j + 6) by omega, word_writeBack h (by omega)]
    simp [wordAt]
  have hindirect : ∀ j : Fin numInDirect,
      word h.writeBack.byte (76 + 4 * j) = h.indirectDataSectors j := by
    intro j
    have hj : (j : ℕ) < 13 := j.isLt
    rw [show 76 + 4 * (j : ℕ) = 4 * (j + 19) by omega, word_writeBack h (by omega)]
    simp [wordAt]
  have hbytes := word_writeBack h (k := 0) (by decide)
  have hsectors := word_writeBack h (k := 1) (by decide)
  cases h
  simp only [fetchFrom, FileHeader.mk.injEq]
  exact ⟨hbytes, hsectors, funext hdirect, funext hpointer, funext hindirect⟩

/-- `((numSectors - 4) + PointerSectors - 1) / PointerSectors` -/
def indirects (n : Word) : ℕ := (n - 4#32 + 31#32 - 1#32).toNat / pointerSectors

/-- The number of direct entries in use. -/
def directs (h : FileHeader) : ℤ := if h.numSectors.toInt > 4 then 4 else h.numSectors.toInt

/-- The indices of a loop from `lo` to `hi - 1` over the direct entries. -/
def directIndices (lo hi : ℤ) : List (Fin 4) :=
  (List.finRange 4).filter fun i : Fin 4 => lo ≤ (i : ℕ) ∧ ((i : ℕ) : ℤ) < hi

def directSectors (h : FileHeader) : List Word :=
  (directIndices 0 h.directs).map h.directDataSectors

/-- The pointer sector and the data sectors of block `j`. -/
def blockSectors (st : Store) (h : FileHeader) (j : ℕ) : Option (List Word) :=
  if hj : j < numInDirect then
    (st.blocks (h.indirectDataSectors ⟨j, hj⟩).toNat).map fun b =>
      h.pointerBlockSectors ⟨j, hj⟩ :: b.sectors
  else none

/-- All sectors that the tables of a header name, in the order of `Allocate`. -/
def sectors (st : Store) (h : FileHeader) : Option (List Word) :=
  ((List.range (indirects h.numSectors)).mapM (h.blockSectors st)).map fun ls =>
    h.directSectors ++ ls.flatten

/-- `FileHeader::ByteToSector`. The block index is divided by the size of a
sector, not by the number of entries of a block. -/
def byteToSector (st : Store) (h : FileHeader) (offset : ℕ) : Option Word :=
  let sector := offset / sectorSize
  if hs : sector < 4 then some (h.directDataSectors ⟨sector, hs⟩)
  else
    let j := (sector - 4) / sectorSize
    if hj : j < numInDirect then
      (st.blocks (h.indirectDataSectors ⟨j, hj⟩).toNat).bind fun b =>
      (b.byteToSector (offset - 4 * sectorSize - j * sectorSize)).map st.handOn
    else none

/-- `FileHeader::FileLength` -/
def fileLength (h : FileHeader) : ℤ := h.numBytes.toInt

end FileHeader

/-- The header, the free map and the store that `Allocate`, `ExtendFile` and
`Deallocate` work on. -/
structure Allocation where
  hdr : FileHeader
  freeMap : BitMap
  store : Store

/-- `Find` as it is stored in an `int` field; `-1` when the disk is full. -/
def findSector (m : BitMap) : Word := BitVec.ofInt 32 m.find.1

namespace Allocation

/-- `directDataSectors[i] = freeMap->Find()` for the given indices. -/
def fillDirects (c : Allocation) : List (Fin 4) → Allocation
  | [] => c
  | i :: is => fillDirects
      { c with
        hdr := { c.hdr with
          directDataSectors := Function.update c.hdr.directDataSectors i (findSector c.freeMap) }
        freeMap := c.freeMap.find.2 } is

/-- `count` times `PutSector(freeMap->Find())`. -/
def putSectors (m : BitMap) (b : IndirectPointerBlock) : ℕ → Option (IndirectPointerBlock × BitMap)
  | 0 => some (b, m)
  | count + 1 => (b.putSector (findSector m)).bind fun b => putSectors m.find.2 b count

/-- One turn of the loop over the indirect blocks in `Allocate`. The test for
the last block compares with a number that is 31 times too large. -/
def allocateBlock (junk : ℕ → ℕ → Word) (c : Allocation) (j : ℕ) : Option Allocation :=
  if hj : j < numInDirect then
    let n := c.hdr.numSectors
    let count := if BitVec.ofNat 32 j = n - 4#32 + 31#32 - 1#32 - 1#32 then
        (n - 4#32 - 31#32 * BitVec.ofNat 32 j).toInt
      else pointerSectors
    (putSectors c.freeMap.find.2 ⟨0, junk j⟩ count.toNat).bind fun r =>
    (c.store.newBlock r.1).map fun p =>
    { hdr := { c.hdr with
        pointerBlockSectors :=
          Function.update c.hdr.pointerBlockSectors ⟨j, hj⟩ (findSector c.freeMap)
        indirectDataSectors := Function.update c.hdr.indirectDataSectors ⟨j, hj⟩ p.1 }
      freeMap := r.2
      store := p.2 }
  else none

/-- The header of a file of `fileSize` bytes before sectors are assigned. -/
def sizedHeader (h : FileHeader) (fileSize : ℤ) : FileHeader :=
  let n := BitVec.ofInt 32 (divRoundUp fileSize sectorSize)
  { h with
    numBytes := BitVec.ofInt 32 fileSize
    numSectors := n + BitVec.ofNat 32 (FileHeader.indirects n) }

/-- `FileHeader::Allocate`, for a header that holds what `new` left in it. -/
def allocate (junk : ℕ → ℕ → Word) (c : Allocation) (fileSize : ℤ) :
    Option (Bool × Allocation) :=
  let h := sizedHeader c.hdr fileSize
  if c.freeMap.numClear < h.numSectors.toInt then some (false, { c with hdr := h })
  else
    ((List.range (FileHeader.indirects h.numSectors)).foldlM (allocateBlock junk)
      (fillDirects { c with hdr := h } (FileHeader.directIndices 0 h.directs))).map fun c => (true, c)

/-- The first part of `ExtendFile`: direct entries up to the fourth, with the
number of sectors that are left to add. -/
def extendDirects (c : Allocation) (n : ℤ) : Option (Allocation × ℤ) :=
  let k := c.hdr.numSectors.toInt
  let max := if n + k > 4 then 4 else n + k
  if 4 ≤ k then some (c, n)
  else if k < 0 ∧ k < max then none
  else
    let d := fillDirects c (FileHeader.directIndices k max)
    some ({ d with hdr := { d.hdr with numSectors := BitVec.ofInt 32 max } }, n - (max - k))

/-- One turn of the loop over the new blocks in `ExtendFile`. No sector is set
aside for the block. -/
def extendBlock (junk : ℕ → ℕ → Word) (lastBlock : ℕ) (r : Allocation × ℤ) (j : ℕ) :
    Option (Allocation × ℤ) :=
  if hj : j < numInDirect then
    let count := if j = lastBlock then r.2.toNat else pointerSectors
    (putSectors r.1.freeMap ⟨0, junk j⟩ count).bind fun b =>
    (r.1.store.newBlock b.1).map fun p =>
    ({ hdr := { r.1.hdr with
        indirectDataSectors := Function.update r.1.hdr.indirectDataSectors ⟨j, hj⟩ p.1 }
       freeMap := b.2
       store := p.2 }, r.2 - count)
  else none

/-- The macro `divRoundUp` with `PointerSectors`, which makes it unsigned. -/
def pointerBlocks (n : Word) : ℕ :=
  n.toNat / pointerSectors + if n.toNat % pointerSectors > 0 then 1 else 0

/-- The second part of `ExtendFile`. Sectors that would fit into the last block
are counted and not added. -/
def extendBlocks (junk : ℕ → ℕ → Word) (c : Allocation) (n : ℤ) : Option (Bool × Allocation) :=
  let w := c.hdr.numSectors - 4#32
  let existing := pointerBlocks w
  let space := (BitVec.ofNat 32 existing * 31#32 - w).toInt
  let n := n - if space - n > 0 then n else space
  if n = 0 then some (true, c)
  else
    let new := pointerBlocks (BitVec.ofInt 32 n)
    ((List.range' existing new).foldlM (extendBlock junk (existing + new - 1)) (c, n)).map fun r =>
      (decide (r.2 = 0), r.1)

/-- `FileHeader::ExtendFile` -/
def extendFile (junk : ℕ → ℕ → Word) (c : Allocation) (n bytes : ℤ) :
    Option (Bool × Allocation) :=
  if c.freeMap.numClear < n then some (false, c)
  else
    (c.extendDirects n).bind fun r =>
    let d := { r.1 with hdr := { r.1.hdr with numBytes := BitVec.ofInt 32 bytes } }
    if r.2 = 0 then some (true, d) else d.extendBlocks junk r.2

/-- `ASSERT(freeMap->Test(sector)); freeMap->Clear(sector)` -/
def release (m : BitMap) (w : Word) : Option BitMap :=
  (m.test w.toInt).bind fun b => if b then m.clear w.toInt else none

def deallocateBlock (c : Allocation) (j : ℕ) : Option Allocation :=
  if hj : j < numInDirect then
    let p := (c.hdr.indirectDataSectors ⟨j, hj⟩).toNat
    (release c.freeMap (c.hdr.pointerBlockSectors ⟨j, hj⟩)).bind fun m =>
    (c.store.blocks p).bind fun b =>
    (b.sectors.foldlM release m).map fun m =>
    { c with
      freeMap := m
      store := { c.store with blocks := Function.update c.store.blocks p none } }
  else none

/-- `FileHeader::Deallocate` -/
def deallocate (c : Allocation) : Option Allocation :=
  (c.hdr.directSectors.foldlM release c.freeMap).bind fun m =>
  (List.range (FileHeader.indirects c.hdr.numSectors)).foldlM deallocateBlock { c with freeMap := m }

end Allocation

end Nachos.FileSystem
