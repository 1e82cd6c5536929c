import Nachos.Directory
import Nachos.FileDurability

/-!
# Creating, opening and removing files (`filesys/filesys.cc`, build with `FILESYS`)

The free map and the directory are files that stay open. Every operation reads
its own copy of them, changes the copy and writes it back. `Create` writes the
header of the new file, then the directory, then the free map; when the
directory has to grow, writing it reads and writes the free map in between.

A volume is the object `fileSystem` together with the files that were opened
through it. `Call` lists the calls with their answers; `none` is again a run
that does not go on.
-/
namespace Nachos.FileSystem
open ByteMemory CStrings

/-- What `new` left in the memory that one operation uses. -/
structure Fresh where
  table : Memory
  /-- the table of `ExpandTable` -/
  grown : Memory
  hdr : FileHeader
  /-- the header of the directory when the disk is formatted -/
  dirHdr : FileHeader
  block : ℕ → ℕ → Word
  mapWrite : Junk
  dirWrite : Junk

structure Volume where
  store : Store
  freeMapFile : OpenFile
  directoryFile : OpenFile
  handles : ℕ → Option OpenFile

/-- The bytes that `BitMap::WriteBack` passes to `WriteAt`. -/
def freeMapBytes (m : BitMap) : List Byte := bytesAt (mapBytes m) 0 freeMapFileSize

/-- The constructor with `format` set. -/
def format (depth : ℕ) (st : Store) (fresh : Fresh) : Option Volume :=
  ((BitMap.create (fun _ => 0) totalSectors).mark 0).bind fun m =>
  (m.mark 1).bind fun m =>
  (Allocation.allocate fresh.block ⟨fresh.hdr, m, st⟩ freeMapFileSize).bind fun a =>
  if !a.1 then none
  else
    (Allocation.allocate fresh.block ⟨fresh.dirHdr, a.2.freeMap, a.2.store⟩
      (entrySize * numDirEntries : ℕ)).bind fun b =>
    if !b.1 then none
    else
      (b.2.store.writeSector 0 a.2.hdr.writeBack).bind fun st =>
      (st.writeSector 1 b.2.hdr.writeBack).bind fun st =>
      (writeAt depth st (OpenFile.create st 0).hdr fresh.mapWrite
        (freeMapBytes b.2.freeMap) 0).bind fun f =>
      (writeAt depth f.2.1 (OpenFile.create st 1).hdr fresh.dirWrite
        (Directory.create fresh.table numDirEntries).bytes 0).map fun d =>
      ⟨d.2.1, ⟨f.2.2, 0⟩, ⟨d.2.2, 0⟩, fun _ => none⟩

namespace Volume

/-- A new directory of ten entries, fetched from the directory file. -/
def fetchDirectory (s : Volume) (junk : Memory) : Option Directory :=
  (s.directoryFile.hdr.readAt s.store (entrySize * numDirEntries) 0).map
    (Directory.create junk numDirEntries).fetchFrom

/-- `FileSystem::Create`. The answer is the sector of the new header, or `none`
for `FALSE`. -/
def create (depth : ℕ) (s : Volume) (name : CString) (initialSize : Word) (fresh : Fresh) :
    Option (Option Word × Volume) :=
  (s.fetchDirectory fresh.table).bind fun dir =>
  if dir.find name.memory ≠ -1#32 then some (none, s)
  else
    (fetchFreeMap s.store s.freeMapFile.hdr).bind fun m =>
    let sector := findSector m
    let added := dir.add fresh.grown name.memory sector
    if m.find.1 = -1 then some (none, s)
    else if !added.1 then some (none, s)
    else
      (Allocation.allocate fresh.block ⟨fresh.hdr, m.find.2, s.store⟩ initialSize.toInt).bind fun r =>
      if !r.1 then some (none, s)
      else
        (r.2.store.writeSector sector r.2.hdr.writeBack).bind fun st =>
        (writeAt depth st s.directoryFile.hdr fresh.dirWrite added.2.bytes 0).bind fun d =>
        (writeAt depth d.2.1 s.freeMapFile.hdr fresh.mapWrite (freeMapBytes r.2.freeMap) 0).map fun f =>
        (some sector, { s with
          store := f.2.1
          freeMapFile := { s.freeMapFile with hdr := f.2.2 }
          directoryFile := { s.directoryFile with hdr := d.2.2 } })

/-- The sector of the header that `FileSystem::Open` opens, if the name is found. -/
def openSector (s : Volume) (name : CString) (junk : Memory) : Option (Option Word) :=
  (s.fetchDirectory junk).map fun dir =>
    if (dir.find name.memory).toInt ≥ 0 then some (dir.find name.memory) else none

/-- `FileSystem::Remove` -/
def remove (depth : ℕ) (s : Volume) (name : CString) (fresh : Fresh) : Option (Bool × Volume) :=
  (s.fetchDirectory fresh.table).bind fun dir =>
  let sector := dir.find name.memory
  if sector = -1#32 then some (false, s)
  else
    (s.store.readSector sector).bind fun hdr =>
    (fetchFreeMap s.store s.freeMapFile.hdr).bind fun m =>
    (Allocation.deallocate ⟨FileHeader.fetchFrom hdr, m, s.store⟩).bind fun c =>
    (c.freeMap.clear sector.toInt).bind fun m =>
    (writeAt depth c.store s.freeMapFile.hdr fresh.mapWrite (freeMapBytes m) 0).bind fun f =>
    (writeAt depth f.2.1 s.directoryFile.hdr fresh.dirWrite (dir.remove name.memory).2.bytes 0).map
      fun d =>
    (true, { s with
      store := d.2.1
      freeMapFile := { s.freeMapFile with hdr := f.2.2 }
      directoryFile := { s.directoryFile with hdr := d.2.2 } })

end Volume

/-- A call and what it answered. -/
inductive Call where
  | create (name : CString) (initialSize : Word) (fresh : Fresh) (sector : Option Word)
  | remove (name : CString) (fresh : Fresh) (removed : Bool)
  | openFile (name : CString) (junk : Memory) (id : ℕ)
  | closeFile (id : ℕ)
  | file (id : ℕ) (call : FileCall)

def Volume.setHandle (s : Volume) (id : ℕ) (f : Option OpenFile) : Volume :=
  { s with handles := Function.update s.handles id f }

/-- One call; a file is opened under an arbitrary number. -/
def Volume.Step (depth : ℕ) (s : Volume) (c : Call) (t : Volume) : Prop :=
  match c with
  | .create name initialSize fresh sector => s.create depth name initialSize fresh = some (sector, t)
  | .remove name fresh removed => s.remove depth name fresh = some (removed, t)
  | .openFile name junk id => ∃ sector, s.openSector name junk = some sector ∧
      t = s.setHandle id (sector.map fun w => OpenFile.create s.store w.toNat)
  | .closeFile id => t = s.setHandle id none
  | .file id call => ∃ f u, s.handles id = some f ∧ Session.call depth ⟨s.store, f⟩ call = some u ∧
      t = ({ s with store := u.store }).setHandle id (some u.file)

end Nachos.FileSystem
