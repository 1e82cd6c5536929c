import Nachos.FileHeader

/-!
# Open files (`filesys/openfile.cc`, build with `FILESYS`)

An open file is a header in memory and a position. `readAt` collects whole
sectors and copies the part asked for. `writeAt` has three cases: inside of the
file, across its end, and at or behind its end; the last two extend the header
in memory and the free map on disk, and nothing writes the header back. The
free map is itself a file, so `writeAt` calls itself; `depth` bounds this
recursion, which does not end when the free-map file would have to grow.

Positions and sizes are natural numbers. A buffer is the list of its bytes, and
`junk` is what `new` left in the memory of each call.
-/
namespace Nachos.FileSystem
open ByteMemory

structure OpenFile where
  hdr : FileHeader
  seekPosition : ℕ

/-- The constructor; the sector number is used as an index of the disk. -/
def OpenFile.create (st : Store) (sector : ℕ) : OpenFile :=
  ⟨FileHeader.fetchFrom (st.disk sector), 0⟩

/-- Memory that the calls of one operation find uninitialised. -/
structure Junk where
  /-- the buffer of `WriteAt`, first of the call itself, then of the calls below it -/
  buffer : ℕ → Memory
  /-- the entries of new pointer blocks -/
  block : ℕ → ℕ → Word

/-- The memory that the call of `WriteAt` for the free map finds. -/
def Junk.inner (junk : Junk) : Junk := { junk with buffer := fun k => junk.buffer (k + 1) }

namespace FileHeader

/-- The sectors `first`, `first + 1`, … of the file as one piece of memory. -/
def readSectors (st : Store) (h : FileHeader) (first count : ℕ) : Option Memory :=
  ((List.range count).mapM fun i =>
    (h.byteToSector st ((first + i) * sectorSize)).bind st.readSector).map fun l =>
  fun p => (l[p / sectorSize]?.map fun s => s.byte p).getD 0

/-- `OpenFile::ReadAt`: the bytes copied, as many as the value returned. -/
def readAt (st : Store) (h : FileHeader) (numBytes position : ℕ) : Option (List Byte) :=
  if numBytes = 0 ∨ h.fileLength ≤ position then some []
  else
    let n := if position + numBytes > h.fileLength then (h.fileLength - position).toNat else numBytes
    let first := position / sectorSize
    let last := (position + n - 1) / sectorSize
    (h.readSectors st first (last + 1 - first)).map fun buf =>
      bytesAt buf (position - first * sectorSize) n

/-- The sectors `first`, `first + 1`, … of the file are written from `buf`. -/
def writeSectors (st : Store) (h : FileHeader) (buf : Memory) (first count : ℕ) : Option Store :=
  (List.range count).foldlM (fun st i =>
    (h.byteToSector st ((first + i) * sectorSize)).bind fun w =>
    st.writeSector w (.ofMemory fun o => buf (i * sectorSize + o))) st

/-- The buffer of `WriteAt` before it is written: old contents at both ends,
where these sectors are not written as a whole, and the new bytes over them. -/
def writeBuffer (st : Store) (h : FileHeader) (junk : Memory) (data : List Byte) (position : ℕ) :
    Option Memory :=
  let first := position / sectorSize
  let last := (position + data.length - 1) / sectorSize
  let firstAligned := position = first * sectorSize
  let lastAligned := position + data.length = (last + 1) * sectorSize
  (if ¬firstAligned then h.readAt st sectorSize (first * sectorSize) else some []).bind fun a =>
  (if ¬lastAligned ∧ (first ≠ last ∨ firstAligned) then
    h.readAt st sectorSize (last * sectorSize) else some []).map fun z =>
  overlay (overlay (overlay junk 0 a) ((last - first) * sectorSize) z)
    (position - first * sectorSize) data

/-- The part of `WriteAt` common to its three cases. -/
def writeCommon (st : Store) (h : FileHeader) (junk : Memory) (data : List Byte) (position : ℕ) :
    Option Store :=
  let first := position / sectorSize
  let last := (position + data.length - 1) / sectorSize
  (h.writeBuffer st junk data position).bind fun buf =>
  h.writeSectors st buf first (last + 1 - first)

end FileHeader

/-- `BitMap::FetchFrom` after `ReadAt` copied the bytes `l`. -/
def fetchMap (m : BitMap) (l : List Byte) : BitMap :=
  { m with map := fun w => word (overlay (fun p => byteOf (m.map (p / 4)) (p % 4)) 0 l) (4 * w) }

/-- The bytes of the words of a bit map. -/
def mapBytes (m : BitMap) : Memory := fun p => byteOf (m.map (p / 4)) (p % 4)

/-- `numWords * sizeof(unsigned)` for the free map. -/
abbrev freeMapFileSize : ℕ := 128

/-- A new bit map for the disk, fetched from the given file. -/
def fetchFreeMap (st : Store) (file : FileHeader) : Option BitMap :=
  (file.readAt st freeMapFileSize 0).map
    (fetchMap (BitMap.create (fun _ => 0) totalSectors))

/-- `newSectors` for a write of `numBytes` bytes, from the offset of `lastByte`
in its sector. -/
def newSectors (numBytes lastByte : ℕ) : ℤ :=
  divRoundUp (numBytes - (sectorSize - (lastByte - lastByte / sectorSize * sectorSize : ℕ)))
    sectorSize

/-- `newSectors` for a write at the end of a file of the given length. -/
def appendSectors (numBytes length : ℕ) : ℤ :=
  let n := newSectors numBytes (length - 1)
  if length / sectorSize = 0 ∧ n = 0 then n + 1 else n

/-- The extension in the second and the third case of `WriteAt`; `write` is the
call of `WriteAt` for the free map. The answer `false` is `return 0`. -/
def extendWith (write : Store → FileHeader → List Byte → Option Store) (st : Store)
    (h : FileHeader) (junk : Junk) (n bytes : ℤ) : Option (Bool × Store × FileHeader) :=
  let file := OpenFile.create st 0
  (fetchFreeMap st file.hdr).bind fun m =>
  (Allocation.extendFile junk.block ⟨h, m, st⟩ n bytes).bind fun r =>
  if r.1 then
    (write r.2.store file.hdr (bytesAt (mapBytes r.2.freeMap) 0 freeMapFileSize)).map fun st =>
      (true, st, r.2.hdr)
  else some (false, r.2.store, r.2.hdr)

/-- `OpenFile::WriteAt`: the value returned, the store and the header after it.
A negative length, which `Create` with a negative size gives, is left out. -/
def writeAt : ℕ → Store → FileHeader → Junk → List Byte → ℕ → Option (ℕ × Store × FileHeader)
  | 0, _, _, _, _, _ => none
  | depth + 1, st, h, junk, data, position =>
    let length := h.fileLength
    let write := fun st h l => (writeAt depth st h junk.inner l 0).map fun r => r.2.1
    (h.byteToSector st 0).bind fun w =>
    if w.toInt + divRoundUp (length - position + data.length) sectorSize >
        sectorSize * totalSectors then some (0, st, h)
    else if position + data.length ≤ length then
      (h.writeCommon st (junk.buffer 0) data position).map fun st => (data.length, st, h)
    else if position < length then
      (extendWith write st h junk (newSectors data.length position)
        (position + data.length)).bind fun r =>
      if r.1 then
        let n := (length - position).toNat
        (r.2.2.writeCommon r.2.1 (junk.buffer 0) (data.take n) position).map fun st =>
          (n, st, r.2.2)
      else some (0, r.2)
    else if length < 0 then none
    else
      let position := length.toNat
      (extendWith write st h junk (appendSectors data.length position)
        (position + data.length)).bind fun r =>
      if r.1 then
        (r.2.2.writeCommon r.2.1 (junk.buffer 0) data position).map fun st =>
          (data.length, st, r.2.2)
      else some (0, r.2)

/-- `OpenFile::Read`: the bytes copied and the file after it. -/
def OpenFile.read (st : Store) (f : OpenFile) (numBytes : ℕ) : Option (List Byte × OpenFile) :=
  (f.hdr.readAt st numBytes f.seekPosition).map fun l =>
    (l, { f with seekPosition := f.seekPosition + l.length })

/-- `OpenFile::Write` -/
def OpenFile.write (depth : ℕ) (st : Store) (f : OpenFile) (junk : Junk) (data : List Byte) :
    Option (ℕ × Store × OpenFile) :=
  (writeAt depth st f.hdr junk data f.seekPosition).map fun r =>
    (r.1, r.2.1, ⟨r.2.2, f.seekPosition + r.1⟩)

end Nachos.FileSystem
