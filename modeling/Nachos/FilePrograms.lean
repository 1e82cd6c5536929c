import Nachos.FileSystem
import Nachos.SectorAllocation
import Nachos.ThreadPrograms

/-!
# File operations of threads (`filesys/openfile.cc`, `filesys/filesys.cc`)

The operations on files as programs: every sector that `SynchDisk` reads or writes is
a command of its own, since a thread sleeps there, and headers, copies of the free map and
of the directory are local to the thread. A program that runs alone computes what the
functions of the other modules compute. A mark lists the sectors that an operation
has just taken from its copy of the free map for a file.
-/
namespace Nachos.FilePrograms
open ByteMemory CStrings FileSystem ThreadPrograms

/-- A sector, read or written for a file or for the free map. -/
inductive Access where
  | file (w : Word)
  | map (w : Word)

def Access.sector : Access → Word
  | file w => w
  | map w => w

abbrev FileProg := Prog Store Access Sector (List ℕ)

def disk : Cells Store Access Sector :=
  ⟨fun st a => st.readSector a.sector, fun st a s => st.writeSector a.sector s⟩

@[simp] theorem disk_read (st : Store) (a : Access) : disk.read st a = st.readSector a.sector := rfl

@[simp] theorem disk_write (st : Store) (a : Access) (s : Sector) :
    disk.write st a s = st.writeSector a.sector s := rfl

def byteToSector (h : FileHeader) (offset : ℕ) : FileProg Word :=
  .transact fun st => (h.byteToSector st offset).map fun w => (w, st)

def readSectors (access : Word → Access) (h : FileHeader) (first count : ℕ) : FileProg Memory := do
  let l ← (List.range count).mapM fun i => do
    let w ← byteToSector h ((first + i) * sectorSize)
    Prog.readCell (access w)
  pure fun p => (l[p / sectorSize]?.map fun s => s.byte p).getD 0

def readAt (access : Word → Access) (h : FileHeader) (numBytes position : ℕ) :
    FileProg (List Byte) :=
  if numBytes = 0 ∨ h.fileLength ≤ position then pure []
  else do
    let n := if position + numBytes > h.fileLength then (h.fileLength - position).toNat
      else numBytes
    let first := position / sectorSize
    let last := (position + n - 1) / sectorSize
    let buf ← readSectors access h first (last + 1 - first)
    pure (bytesAt buf (position - first * sectorSize) n)

def writeSectors (access : Word → Access) (h : FileHeader) (buf : Memory) (first count : ℕ) :
    FileProg Unit :=
  (List.range count).forM fun i => do
    let w ← byteToSector h ((first + i) * sectorSize)
    Prog.writeCell (access w) (.ofMemory fun o => buf (i * sectorSize + o))

/-- The sector at one end of a write, if it is written in part only. -/
def readEnd (partly : Prop) [Decidable partly] (h : FileHeader) (position : ℕ) :
    FileProg (List Byte) :=
  if partly then readAt .file h sectorSize position else pure []

def writeBuffer (h : FileHeader) (junk : Memory) (data : List Byte) (position : ℕ) :
    FileProg Memory := do
  let first := position / sectorSize
  let last := (position + data.length - 1) / sectorSize
  let firstAligned := position = first * sectorSize
  let lastAligned := position + data.length = (last + 1) * sectorSize
  let a ← readEnd (¬firstAligned) h (first * sectorSize)
  let z ← readEnd (¬lastAligned ∧ (first ≠ last ∨ firstAligned)) h (last * sectorSize)
  pure (overlay (overlay (overlay junk 0 a) ((last - first) * sectorSize) z)
    (position - first * sectorSize) data)

def writeCommon (access : Word → Access) (h : FileHeader) (junk : Memory) (data : List Byte)
    (position : ℕ) : FileProg Unit := do
  let first := position / sectorSize
  let last := (position + data.length - 1) / sectorSize
  let buf ← writeBuffer h junk data position
  writeSectors access h buf first (last + 1 - first)

def openFile (sector : Word) : FileProg OpenFile := do
  let s ← Prog.readCell (.file sector)
  pure ⟨FileHeader.fetchFrom s, 0⟩

def fetchFreeMap (file : FileHeader) : FileProg BitMap := do
  let l ← readAt .map file freeMapFileSize 0
  pure (fetchMap (BitMap.create (fun _ => 0) totalSectors) l)

/-- The sectors that are marked in `m'` and not in `m`. -/
def newlyMarked (m m' : BitMap) : List ℕ :=
  (List.range totalSectors).filter fun i => !m.bit i && m'.bit i

/-- They are what `Find` has answered. -/
theorem mem_newlyMarked_finds {m : BitMap} (hm : m.numBits = totalSectors) (k y : ℕ) :
    y ∈ newlyMarked m (finds k m).2 ↔ y ∈ realSectors (finds k m).1 := by
  have htaken := finds_taken hm k
  simp only [newlyMarked, List.mem_filter, List.mem_range, Bool.and_eq_true, Bool.not_eq_true',
    htaken.bit_iff]
  refine ⟨?_, fun hy => ⟨(mem_realSectors.mp hy).1, htaken.clear y hy, Or.inr hy⟩⟩
  rintro ⟨-, hclear, hset | hy⟩
  · rw [hclear] at hset
    cases hset
  · exact hy

def extendWith (write : FileHeader → List Byte → FileProg Unit) (h : FileHeader) (junk : Junk)
    (n bytes : ℤ) : FileProg (Bool × FileHeader) := do
  let file ← openFile 0
  let m ← fetchFreeMap file.hdr
  let r ← .transact fun st => (Allocation.extendFile junk.block ⟨h, m, st⟩ n bytes).map fun r =>
    ((r.1, r.2.hdr, r.2.freeMap), r.2.store)
  if r.1 then
    Prog.mark (newlyMarked m r.2.2)
    write file.hdr (freeMapBytes r.2.2)
    pure (true, r.2.1)
  else pure (false, r.2.1)

def writeAt : ℕ → (Word → Access) → FileHeader → Junk → List Byte → ℕ →
    FileProg (ℕ × FileHeader)
  | 0, _, _, _, _, _ => .stuck
  | depth + 1, access, h, junk, data, position => do
    let length := h.fileLength
    let write := fun h l => do
      let _ ← writeAt depth .map h junk.inner l 0
      pure ()
    let w ← byteToSector h 0
    if w.toInt + divRoundUp (length - position + data.length) sectorSize >
        sectorSize * totalSectors then pure (0, h)
    else if position + data.length ≤ length then
      writeCommon access h (junk.buffer 0) data position
      pure (data.length, h)
    else if position < length then
      let r ← extendWith write h junk (newSectors data.length position) (position + data.length)
      if r.1 then
        let n := (length - position).toNat
        writeCommon access r.2 (junk.buffer 0) (data.take n) position
        pure (n, r.2)
      else pure (0, r.2)
    else if length < 0 then .stuck
    else
      let position := length.toNat
      let r ← extendWith write h junk (appendSectors data.length position)
        (position + data.length)
      if r.1 then
        writeCommon access r.2 (junk.buffer 0) data position
        pure (data.length, r.2)
      else pure (0, r.2)

def write (depth : ℕ) (f : OpenFile) (junk : Junk) (data : List Byte) :
    FileProg (ℕ × OpenFile) := do
  let r ← writeAt depth .file f.hdr junk data f.seekPosition
  pure (r.1, ⟨r.2, f.seekPosition + r.1⟩)

/-- The files that the object `fileSystem` keeps open. -/
structure Mounted where
  freeMapFile : OpenFile
  directoryFile : OpenFile

def mounted (s : Volume) : Mounted := ⟨s.freeMapFile, s.directoryFile⟩

def fetchDirectory (v : Mounted) (junk : Memory) : FileProg Directory := do
  let l ← readAt .file v.directoryFile.hdr (entrySize * numDirEntries) 0
  pure ((Directory.create junk numDirEntries).fetchFrom l)

def create (depth : ℕ) (v : Mounted) (name : CString) (initialSize : Word) (fresh : Fresh) :
    FileProg (Option Word × Mounted) := do
  let dir ← fetchDirectory v fresh.table
  if dir.find name.memory ≠ -1#32 then pure (none, v)
  else
    let m ← fetchFreeMap v.freeMapFile.hdr
    let sector := findSector m
    let added := dir.add fresh.grown name.memory sector
    if m.find.1 = -1 then pure (none, v)
    else if !added.1 then pure (none, v)
    else
      let r ← .transact fun st =>
        (Allocation.allocate fresh.block ⟨fresh.hdr, m.find.2, st⟩ initialSize.toInt).map fun r =>
          ((r.1, r.2.hdr, r.2.freeMap), r.2.store)
      if !r.1 then pure (none, v)
      else
        Prog.mark (newlyMarked m r.2.2)
        Prog.writeCell (.file sector) r.2.1.writeBack
        let d ← writeAt depth .file v.directoryFile.hdr fresh.dirWrite added.2.bytes 0
        let f ← writeAt depth .map v.freeMapFile.hdr fresh.mapWrite (freeMapBytes r.2.2) 0
        pure (some sector,
          ⟨{ v.freeMapFile with hdr := f.2 }, { v.directoryFile with hdr := d.2 }⟩)

/-! ## The programs alone -/

variable {a : Word → Access} {h : FileHeader} {st : Store}

@[simp] theorem run_byteToSector (h : FileHeader) (offset : ℕ) (st : Store) :
    (byteToSector h offset).run disk st = (h.byteToSector st offset).map fun w => (w, st) :=
  Prog.run_transact _ _

theorem run_readSectors (ha : ∀ w, (a w).sector = w) (first count : ℕ) :
    (readSectors a h first count).run disk st =
      (h.readSectors st first count).map fun m => (m, st) := by
  have hturn : ∀ i, ((do
      let w ← byteToSector h ((first + i) * sectorSize)
      Prog.readCell (a w)) : FileProg Sector).run disk st =
      ((h.byteToSector st ((first + i) * sectorSize)).bind st.readSector).map
        fun s => (s, st) := by
    intro i
    rw [Prog.run_bind_map (run_byteToSector _ _ _), Option.map_bind]
    congr 1
    funext w
    simp only [Prog.run_readCell, disk_read, ha, Function.comp_apply]
  rw [readSectors, Prog.run_bind_pure, Prog.run_mapM hturn, FileHeader.readSectors]
  simp only [Option.map_map, Function.comp_def]

theorem run_readAt (ha : ∀ w, (a w).sector = w) (numBytes position : ℕ) :
    (readAt a h numBytes position).run disk st =
      (h.readAt st numBytes position).map fun l => (l, st) := by
  unfold readAt FileHeader.readAt
  split_ifs
  · rfl
  all_goals
    simp only [Prog.run_bind_pure, run_readSectors ha, Option.map_map, Function.comp_def]

theorem run_writeSectors (ha : ∀ w, (a w).sector = w) (buf : Memory) (first count : ℕ) :
    (writeSectors a h buf first count).run disk st =
      (h.writeSectors st buf first count).map fun st => ((), st) := by
  refine Prog.run_forM (fun i st => ?_) _ _
  rw [Prog.run_bind_map (run_byteToSector _ _ _), Option.map_bind]
  congr 1
  funext w
  simp only [Prog.run_writeCell, disk_write, ha, Function.comp_apply]

theorem run_readEnd (partly : Prop) [Decidable partly] (position : ℕ) :
    (readEnd partly h position).run disk st =
      (if partly then h.readAt st sectorSize position else some []).map fun l => (l, st) := by
  unfold readEnd
  split_ifs
  · exact run_readAt (fun _ => rfl) _ _
  · rfl

theorem run_writeBuffer (junk : Memory) (data : List Byte) (position : ℕ) :
    (writeBuffer h junk data position).run disk st =
      (h.writeBuffer st junk data position).map fun m => (m, st) := by
  unfold writeBuffer FileHeader.writeBuffer
  rw [Prog.run_bind_map (run_readEnd _ _), Option.map_bind]
  congr 1
  funext l
  rw [Prog.run_bind_pure, run_readEnd, Function.comp_apply, Option.map_map, Option.map_map]
  rfl

theorem run_writeCommon (ha : ∀ w, (a w).sector = w) (junk : Memory) (data : List Byte)
    (position : ℕ) : (writeCommon a h junk data position).run disk st =
      (h.writeCommon st junk data position).map fun st => ((), st) := by
  unfold writeCommon FileHeader.writeCommon
  rw [Prog.run_bind_map (run_writeBuffer _ _ _), Option.map_bind]
  congr 1
  funext buf
  exact run_writeSectors ha _ _ _

theorem run_fetchFreeMap (file : FileHeader) :
    (fetchFreeMap file).run disk st = (FileSystem.fetchFreeMap st file).map fun m => (m, st) := by
  unfold fetchFreeMap FileSystem.fetchFreeMap
  simp only [Prog.run_bind_pure, run_readAt (a := .map) (fun _ => rfl), Option.map_map,
    Function.comp_def]

theorem run_openFile {sector : Word} (hs : sector.toNat < totalSectors) :
    (openFile sector).run disk st = some (OpenFile.create st sector.toNat, st) := by
  rw [openFile, Prog.run_bind_pure, Prog.run_readCell]
  simp [Access.sector, Store.readSector, hs, OpenFile.create]

theorem run_extendWith {write : FileHeader → List Byte → FileProg Unit}
    {write' : Store → FileHeader → List Byte → Option Store}
    (hw : ∀ h l st, (write h l).run disk st = (write' st h l).map fun st => ((), st))
    (junk : Junk) (n bytes : ℤ) : (extendWith write h junk n bytes).run disk st =
      (FileSystem.extendWith write' st h junk n bytes).map fun r => ((r.1, r.2.2), r.2.1) := by
  unfold extendWith FileSystem.extendWith
  rw [Prog.run_bind, run_openFile (by decide), Option.bind_some,
    Prog.run_bind_map (run_fetchFreeMap _), Option.map_bind]
  congr 1
  funext m
  rw [Prog.run_bind, Prog.run_transact, Option.bind_map, Function.comp_apply, Option.map_bind]
  congr 1
  funext r
  rw [Function.comp_apply, Prog.run_ite, Function.comp_apply]
  split_ifs
  · rw [Prog.run_bind, Prog.run_mark, Option.bind_some, Prog.run_bind_pure, hw, Option.map_map,
      Option.map_map]
    rfl
  · rfl

theorem run_writeAt (depth : ℕ) (ha : ∀ w, (a w).sector = w) (h : FileHeader) (junk : Junk)
    (data : List Byte) (position : ℕ) (st : Store) :
    (writeAt depth a h junk data position).run disk st =
      (FileSystem.writeAt depth st h junk data position).map fun r => ((r.1, r.2.2), r.2.1) := by
  induction depth generalizing a h junk data position st with
  | zero => rfl
  | succ depth ih =>
    have hw : ∀ h l st, (writeAt depth .map h junk.inner l 0 >>= fun _ => pure ()).run disk st =
        ((FileSystem.writeAt depth st h junk.inner l 0).map fun r => r.2.1).map
          fun st => ((), st) := by
      intro h l st
      rw [Prog.run_bind_pure, ih (a := .map) (fun _ => rfl), Option.map_map, Option.map_map]
      rfl
    unfold writeAt FileSystem.writeAt
    rw [Prog.run_bind_map (run_byteToSector _ _ _), Option.map_bind]
    congr 1
    funext w
    rw [Function.comp_apply]
    split_ifs
    · rfl
    · rw [Prog.run_bind_pure, run_writeCommon ha, Option.map_map, Option.map_map]
      rfl
    · rw [Prog.run_bind_map (run_extendWith hw _ _ _), Option.map_bind]
      congr 1
      funext r
      rw [Function.comp_apply]
      split_ifs
      · rw [Prog.run_bind_pure, run_writeCommon ha, Option.map_map, Option.map_map]
        rfl
      · rfl
    · rfl
    · rw [Prog.run_bind_map (run_extendWith hw _ _ _), Option.map_bind]
      congr 1
      funext r
      rw [Function.comp_apply]
      split_ifs
      · rw [Prog.run_bind_pure, run_writeCommon ha, Option.map_map, Option.map_map]
        rfl
      · rfl

theorem run_write (depth : ℕ) (f : OpenFile) (junk : Junk) (data : List Byte) (st : Store) :
    (write depth f junk data).run disk st =
      (f.write depth st junk data).map fun r => ((r.1, r.2.2), r.2.1) := by
  unfold write OpenFile.write
  rw [Prog.run_bind_pure, run_writeAt (a := .file) _ (fun _ => rfl), Option.map_map,
    Option.map_map]
  rfl

theorem run_fetchDirectory (s : Volume) (junk : Memory) :
    (fetchDirectory (mounted s) junk).run disk s.store =
      (s.fetchDirectory junk).map fun d => (d, s.store) := by
  unfold fetchDirectory Volume.fetchDirectory
  rw [Prog.run_bind_pure, run_readAt (a := .file) (fun _ => rfl), Option.map_map,
    Option.map_map]
  rfl

theorem run_create (depth : ℕ) (s : Volume) (name : CString) (initialSize : Word) (fresh : Fresh) :
    (create depth (mounted s) name initialSize fresh).run disk s.store =
      (s.create depth name initialSize fresh).map fun r => ((r.1, mounted r.2), r.2.store) := by
  unfold create Volume.create
  rw [Prog.run_bind_map (run_fetchDirectory _ _), Option.map_bind]
  congr 1
  funext dir
  rw [Function.comp_apply]
  split_ifs
  · rfl
  rw [Prog.run_bind_map (run_fetchFreeMap _), Option.map_bind]
  congr 1
  funext m
  rw [Function.comp_apply]
  simp only
  split_ifs
  · rfl
  · rfl
  rw [Prog.run_bind, Prog.run_transact, Option.bind_map, Option.map_bind]
  refine Option.bind_congr fun r hr => ?_
  rw [Function.comp_apply, Function.comp_apply]
  simp only
  split_ifs with hno
  · obtain ⟨answer, c⟩ := r
    obtain rfl : answer = false := by simpa using hno
    rw [Prog.run_pure, Allocation.allocate_false hr]
    rfl
  rw [Prog.run_bind, Prog.run_mark, Option.bind_some, Prog.run_bind_map (Prog.run_writeCell _ _ _),
    Option.map_bind]
  congr 1
  funext st
  rw [Prog.run_bind_map (run_writeAt _ (fun _ => rfl) _ _ _ _ _), Function.comp_apply,
    Option.map_bind]
  congr 1
  funext d
  rw [Prog.run_bind_pure, run_writeAt (a := .map) _ (fun _ => rfl), Function.comp_apply,
    Option.map_map, Option.map_map]
  rfl

/-- Without other threads, the programs of `FileSystem::Create` and `OpenFile::Write` do what the
functions on a disk do, with every sector they read and write and every extension of a file. -/
theorem programs_alone (depth : ℕ) :
    (∀ (s : Volume) (name : CString) (initialSize : Word) (fresh : Fresh),
      (create depth (mounted s) name initialSize fresh).run disk s.store =
        (s.create depth name initialSize fresh).map fun r => ((r.1, mounted r.2), r.2.store)) ∧
    ∀ (f : OpenFile) (junk : Junk) (data : List Byte) (st : Store),
      (write depth f junk data).run disk st =
        (f.write depth st junk data).map fun r => ((r.1, r.2.2), r.2.1) :=
  ⟨run_create depth, run_write depth⟩

end Nachos.FilePrograms
