import Nachos.FileSystem
import Nachos.HeaderGrowth

/-!
# Operations that fail

`Create` and `Remove` work on copies of the directory and of the free map and write them
back only when nothing can fail any more. `WriteAt` extends its header before it writes,
but an extension that is turned down has not changed it. `beginWrite` is `WriteAt` up to
the part common to its three cases, for all values of its arguments and of the length in
the header, also negative ones.
-/
namespace Nachos.FileSystem
open ByteMemory CStrings

/-- `newSectors` for any values of the variables. -/
def newSectorsInt (numBytes lastByte : ℤ) : ℤ :=
  divRoundUp (numBytes - (sectorSize - (lastByte - lastByte.tdiv sectorSize * sectorSize)))
    sectorSize

/-- The arguments of `ExtendFile` in the second and in the third case of `WriteAt`. -/
def extensionRequest (length position numBytes : ℤ) : Option (ℤ × ℤ) :=
  if position + numBytes ≤ length then none
  else if position < length then some (newSectorsInt numBytes position, position + numBytes)
  else
    let n := newSectorsInt numBytes (if length = 0 then 0 else length - 1)
    some (if length.tdiv sectorSize = 0 ∧ n = 0 then n + 1 else n, length + numBytes)

/-- `WriteAt` up to the common part; the answer `false` is `return 0`. -/
def beginWrite (write : Store → FileHeader → List Byte → Option Store) (st : Store)
    (h : FileHeader) (junk : Junk) (numBytes position : ℤ) : Option (Bool × Store × FileHeader) :=
  (h.byteToSector st 0).bind fun w =>
  if w.toInt + divRoundUp (h.fileLength - position + numBytes) sectorSize >
      sectorSize * totalSectors then some (false, st, h)
  else
    match extensionRequest h.fileLength position numBytes with
    | none => some (true, st, h)
    | some r => extendWith write st h junk r.1 r.2

/-- The call of `WriteAt` for the free map. -/
def innerWrite (depth : ℕ) (junk : Junk) (st : Store) (h : FileHeader) (l : List Byte) :
    Option Store :=
  (writeAt depth st h junk.inner l 0).map fun r => r.2.1

section writes
variable {write : Store → FileHeader → List Byte → Option Store} {st st' : Store}
  {h h' : FileHeader} {junk : Junk}

theorem newSectorsInt_natCast (numBytes lastByte : ℕ) :
    newSectorsInt numBytes lastByte = newSectors numBytes lastByte := by
  have hle : lastByte / sectorSize * sectorSize ≤ lastByte := Nat.div_mul_le_self _ _
  unfold newSectorsInt newSectors
  rw [Int.tdiv_eq_ediv_of_nonneg (Int.natCast_nonneg _), Nat.cast_sub hle]
  push_cast
  rfl

theorem extensionRequest_natCast (length position numBytes : ℕ) :
    extensionRequest length position numBytes =
      if position + numBytes ≤ length then none
      else if position < length then some (newSectors numBytes position, (position : ℤ) + numBytes)
      else some (appendSectors numBytes length, (length : ℤ) + numBytes) := by
  have hlast : (if (length : ℤ) = 0 then (0 : ℤ) else length - 1) = (length - 1 : ℕ) := by
    split_ifs <;> omega
  have hzero : (length : ℤ).tdiv sectorSize = 0 ↔ length / sectorSize = 0 := by
    rw [Int.tdiv_eq_ediv_of_nonneg (Int.natCast_nonneg _)]
    norm_cast
  unfold extensionRequest appendSectors
  simp only [hlast, hzero, newSectorsInt_natCast]
  norm_cast

theorem fetchFreeMap_numBits {m : BitMap} (hm : fetchFreeMap st h = some m) :
    m.numBits = totalSectors := by
  obtain ⟨l, -, rfl⟩ := Option.map_eq_some_iff.mp hm
  simp [fetchMap]

theorem extendWith_false {n bytes : ℤ}
    (hext : extendWith write st h junk n bytes = some (false, st', h')) : st' = st ∧ h' = h := by
  obtain ⟨m, hm, hext⟩ := Option.bind_eq_some_iff.mp hext
  obtain ⟨⟨answer, c⟩, hc, hext⟩ := Option.bind_eq_some_iff.mp hext
  cases answer with
  | true =>
    obtain ⟨st'', -, he⟩ := Option.map_eq_some_iff.mp hext
    cases (Prod.mk.inj he).1
  | false =>
    obtain ⟨-, rfl⟩ := Allocation.extendFile_false (fetchFreeMap_numBits hm) hc
    obtain ⟨-, he⟩ := Prod.mk.inj (Option.some.inj hext)
    exact ⟨(Prod.mk.inj he).1.symm, (Prod.mk.inj he).2.symm⟩

theorem beginWrite_false {numBytes position : ℤ}
    (hw : beginWrite write st h junk numBytes position = some (false, st', h')) :
    st' = st ∧ h' = h := by
  obtain ⟨w, -, hw⟩ := Option.bind_eq_some_iff.mp hw
  split_ifs at hw with hover
  · obtain ⟨-, he⟩ := Prod.mk.inj (Option.some.inj hw)
    exact ⟨(Prod.mk.inj he).1.symm, (Prod.mk.inj he).2.symm⟩
  · cases hreq : extensionRequest h.fileLength position numBytes with
    | none =>
      rw [hreq] at hw
      cases (Prod.mk.inj (Option.some.inj hw)).1
    | some r =>
      rw [hreq] at hw
      exact extendWith_false hw

/-- `WriteAt` returns 0 with what its first part has left. -/
theorem writeAt_of_beginWrite {depth : ℕ} {data : List Byte} {position : ℕ}
    {r : Store × FileHeader} (hlen : 0 ≤ h.fileLength)
    (hw : beginWrite (innerWrite depth junk) st h junk data.length position = some (false, r)) :
    writeAt (depth + 1) st h junk data position = some (0, r) := by
  obtain ⟨length, hlength⟩ := Int.eq_ofNat_of_zero_le hlen
  have hinner : (fun st h l => (writeAt depth st h junk.inner l 0).map fun r => r.2.1) =
      innerWrite depth junk := rfl
  unfold beginWrite at hw
  rw [FileHeader.byteToSector_zero, Option.bind_some, hlength, extensionRequest_natCast] at hw
  simp only [writeAt, FileHeader.byteToSector_zero, Option.bind_some, hlength, hinner,
    Int.toNat_natCast]
  by_cases hover : (h.directDataSectors 0).toInt +
      divRoundUp (length - position + data.length) sectorSize > sectorSize * totalSectors
  · rw [if_pos hover] at hw ⊢
    rw [← (Prod.mk.inj (Option.some.inj hw)).2]
  · rw [if_neg hover] at hw ⊢
    by_cases hin : position + data.length ≤ length
    · rw [if_pos hin] at hw
      cases (Prod.mk.inj (Option.some.inj hw)).1
    · have hin' : ¬ (position : ℤ) + data.length ≤ length := by exact_mod_cast hin
      rw [if_neg hin] at hw
      rw [if_neg hin']
      by_cases hacross : position < length
      · have hacross' : (position : ℤ) < length := by exact_mod_cast hacross
        rw [if_pos hacross] at hw
        rw [if_pos hacross']
        dsimp only at hw
        rw [hw]
        rfl
      · have hacross' : ¬ (position : ℤ) < length := by exact_mod_cast hacross
        rw [if_neg hacross] at hw
        rw [if_neg hacross', if_neg (by omega)]
        dsimp only at hw
        rw [hw]
        rfl

end writes

namespace Volume
variable {depth : ℕ} {s t : Volume} {name : CString} {fresh : Fresh}

theorem create_false {size : Word} (h : s.create depth name size fresh = some (none, t)) :
    t = s := by
  obtain ⟨dir, -, h⟩ := Option.bind_eq_some_iff.mp h
  split_ifs at h with hfound
  · exact (Prod.mk.inj (Option.some.inj h)).2.symm
  obtain ⟨m, -, h⟩ := Option.bind_eq_some_iff.mp h
  simp only at h
  split_ifs at h with hfull hadded
  · exact (Prod.mk.inj (Option.some.inj h)).2.symm
  · exact (Prod.mk.inj (Option.some.inj h)).2.symm
  obtain ⟨r, -, h⟩ := Option.bind_eq_some_iff.mp h
  split_ifs at h with hallocated
  · exact (Prod.mk.inj (Option.some.inj h)).2.symm
  obtain ⟨st, -, h⟩ := Option.bind_eq_some_iff.mp h
  obtain ⟨d, -, h⟩ := Option.bind_eq_some_iff.mp h
  obtain ⟨f, -, h⟩ := Option.map_eq_some_iff.mp h
  cases (Prod.mk.inj h).1

theorem remove_false (h : s.remove depth name fresh = some (false, t)) : t = s := by
  obtain ⟨dir, -, h⟩ := Option.bind_eq_some_iff.mp h
  simp only at h
  split_ifs at h with hmissing
  · exact (Prod.mk.inj (Option.some.inj h)).2.symm
  obtain ⟨hdr, -, h⟩ := Option.bind_eq_some_iff.mp h
  obtain ⟨m, -, h⟩ := Option.bind_eq_some_iff.mp h
  obtain ⟨c, -, h⟩ := Option.bind_eq_some_iff.mp h
  obtain ⟨m', -, h⟩ := Option.bind_eq_some_iff.mp h
  obtain ⟨f, -, h⟩ := Option.bind_eq_some_iff.mp h
  obtain ⟨d, -, h⟩ := Option.map_eq_some_iff.mp h
  cases (Prod.mk.inj h).1

end Volume

/-- `Create` and `Remove` that return `FALSE` and a `WriteAt` that is turned down leave every
sector of the disk, and in the last case the header of the open file, as they were. -/
theorem failed_operations_change_nothing (depth : ℕ) :
    (∀ (s t : Volume) (name : CString) (size : Word) (fresh : Fresh),
      s.create depth name size fresh = some (none, t) → t.store.disk = s.store.disk) ∧
    (∀ (s t : Volume) (name : CString) (fresh : Fresh),
      s.remove depth name fresh = some (false, t) → t.store.disk = s.store.disk) ∧
    (∀ (st st' : Store) (h h' : FileHeader) (junk : Junk) (numBytes position : ℤ),
      beginWrite (innerWrite depth junk) st h junk numBytes position = some (false, st', h') →
        st'.disk = st.disk ∧ h' = h) ∧
    ∀ (st st' : Store) (h h' : FileHeader) (junk : Junk) (data : List Byte) (position : ℕ),
      0 ≤ h.fileLength →
      beginWrite (innerWrite depth junk) st h junk data.length position = some (false, st', h') →
        writeAt (depth + 1) st h junk data position = some (0, st', h') := by
  refine ⟨fun s t name size fresh h => ?_, fun s t name fresh h => ?_, ?_, ?_⟩
  · rw [Volume.create_false h]
  · rw [Volume.remove_false h]
  · intro st st' h h' junk numBytes position hw
    obtain ⟨rfl, rfl⟩ := beginWrite_false hw
    exact ⟨rfl, rfl⟩
  · intro st st' h h' junk data position hlen hw
    exact writeAt_of_beginWrite hlen hw

/-- A disk with the header of the free map in sector 0, and no free sector. -/
def fullStore : Store where
  disk x :=
    if x = 0 then FileHeader.writeBack ⟨128, 1, fun _ => 2, fun _ => 0, fun _ => 0⟩
    else fun _ => 255
  blocks _ := none
  next := 0
  handOn := id

/-- A byte for an empty file on a full disk. -/
theorem failed_operations_change_nothing_full : ∃ st' h',
    writeAt 2 fullStore ⟨0, 0, fun _ => 0, fun _ => 0, fun _ => 0⟩ clearJunk [7] 0 =
      some (0, st', h') ∧ st'.disk = fullStore.disk ∧ h'.fileLength = 0 := by
  have hany : (beginWrite (innerWrite 1 clearJunk) fullStore
      ⟨0, 0, fun _ => 0, fun _ => 0, fun _ => 0⟩ clearJunk (1 : ℕ) (0 : ℕ)).any
        (fun r => !r.1) = true := by decide +kernel
  obtain ⟨⟨answer, st', h'⟩, hbegin, hfalse⟩ := (Option.any_eq_true _ _).mp hany
  obtain rfl : answer = false := by simpa using hfalse
  obtain ⟨-, -, hkept, hreturned⟩ := failed_operations_change_nothing 1
  obtain ⟨hdisk, rfl⟩ := hkept _ _ _ _ _ _ _ hbegin
  exact ⟨st', _, hreturned _ _ _ _ _ [7] 0 (by decide) hbegin, hdisk, by decide⟩

end Nachos.FileSystem
