import Nachos.FileBytes
import Nachos.GuardedRuns

/-!
# Closing and opening a file again

A session is one open file and the calls made on it. Closing deletes the header
in memory and writes nothing. A file opened again has the header that is in its
sector, so nothing is lost as long as no call changes the header in memory and
no data sector is the header's own. The pointer blocks of a file are in the
memory of the run; in a new run only the first four sectors can be reached.
-/
namespace Nachos.FileSystem
open ByteMemory GuardedRuns

structure Session where
  store : Store
  file : OpenFile

inductive FileCall where
  | seek (position : ℕ)
  | read (numBytes : ℕ)
  | write (data : List Byte) (junk : Junk)
  | writeAt (data : List Byte) (position : ℕ) (junk : Junk)

def Session.call (depth : ℕ) (s : Session) : FileCall → Option Session
  | .seek position => some { s with file := { s.file with seekPosition := position } }
  | .read numBytes =>
    (s.file.hdr.readAt s.store numBytes s.file.seekPosition).map fun l =>
      { s with file := { s.file with seekPosition := s.file.seekPosition + l.length } }
  | .write data junk =>
    (FileSystem.writeAt depth s.store s.file.hdr junk data s.file.seekPosition).map fun r =>
      ⟨r.2.1, r.2.2, s.file.seekPosition + r.1⟩
  | .writeAt data position junk =>
    (FileSystem.writeAt depth s.store s.file.hdr junk data position).map fun r =>
      ⟨r.2.1, r.2.2, s.file.seekPosition⟩

def Session.Step (depth : ℕ) (s : Session) (c : FileCall) (t : Session) : Prop :=
  s.call depth c = some t

/-- A write that does not extend the file: it is turned down or lies inside of
the file. A write of no bytes to an empty file goes to the sector that its first
entry happens to hold, so this must not be the sector `x` of the header. -/
def Unextended (x : ℕ) (st : Store) (h : FileHeader) (position size : ℕ) : Prop :=
  Oversized h position size ∨ Refused st h position size ∨
    (position + size ≤ h.fileLength ∧
      (h.fileLength = 0 → (h.directDataSectors 0).toNat ≠ x))

def Session.Unextended (x : ℕ) (s : Session) : FileCall → Prop
  | .write data _ => FileSystem.Unextended x s.store s.file.hdr s.file.seekPosition data.length
  | .writeAt data position _ => FileSystem.Unextended x s.store s.file.hdr position data.length
  | _ => True

/-- No position of the file is stored in the sector of its header. -/
def HeaderApart (st : Store) (h : FileHeader) (x : ℕ) : Prop :=
  ∀ p : ℕ, p < h.fileLength → ∀ w, h.byteToSector st p = some w → w.toNat ≠ x

/-- What holds between two calls: the header in memory is the one on disk. -/
structure Synced (s : Session) (x : ℕ) : Prop where
  hdr : s.file.hdr = FileHeader.fetchFrom (s.store.disk x)
  apart : HeaderApart s.store s.file.hdr x

variable {st st' : Store} {h : FileHeader} {x : ℕ}

/-- A write that does not extend the file leaves the header alone, in memory and
on disk. -/
theorem writeAt_unextended {depth : ℕ} {junk : Junk} {data : List Byte} {position : ℕ}
    {r : ℕ × Store × FileHeader} (hk : Unextended x st h position data.length)
    (ha : HeaderApart st h x) (hw : writeAt depth st h junk data position = some r) :
    r.2.2 = h ∧ r.2.1.disk x = st.disk x ∧ r.2.1.blocks = st.blocks ∧
      r.2.1.handOn = st.handOn := by
  cases depth with
  | zero => cases hw
  | succ depth =>
    by_cases hover : Oversized h position data.length
    · rw [writeAt_oversized hover] at hw
      cases hw
      exact ⟨rfl, rfl, rfl, rfl⟩
    rcases hk with hk | hr | ⟨hin, hempty⟩
    · exact absurd hk hover
    · rw [writeAt_refused hr] at hw
      cases hw
      exact ⟨rfl, rfl, rfl, rfl⟩
    · rw [writeAt_inside hin, if_neg hover] at hw
      obtain ⟨st', hst', rfl⟩ := Option.map_eq_some_iff.mp hw
      obtain ⟨hb, -, hh, hd⟩ := FileHeader.writeCommon_frame hst'
      have hx : st'.disk x = st.disk x := by
        apply hd
        intro i _ hi w hw
        by_cases h0 : h.fileLength = 0
        · have hlast : position + data.length - 1 = 0 := by omega
          rw [hlast, Nat.zero_div, Nat.le_zero] at hi
          subst hi
          rw [Nat.zero_mul, FileHeader.byteToSector_zero] at hw
          obtain rfl := Option.some.inj hw
          exact hempty h0
        · have hle := Nat.mul_le_of_le_div _ _ _ hi
          exact ha (i * sectorSize) (by omega) w hw
      exact ⟨rfl, hx, hb, hh⟩

theorem HeaderApart.congr (ha : HeaderApart st h x) (hb : st'.blocks = st.blocks)
    (hh : st'.handOn = st.handOn) : HeaderApart st' h x := by
  intro p hp w hw
  rw [FileHeader.byteToSector_congr hb hh] at hw
  exact ha p hp w hw

theorem Synced.step {depth : ℕ} {s t : Session} {c : FileCall} (hs : Synced s x)
    (hc : s.Unextended x c) (ht : s.Step depth c t) : Synced t x := by
  have hwrite : ∀ {data position junk} {r : ℕ × Store × FileHeader} {seek : ℕ},
      FileSystem.Unextended x s.store s.file.hdr position data.length →
      FileSystem.writeAt depth s.store s.file.hdr junk data position = some r →
      Synced ⟨r.2.1, r.2.2, seek⟩ x := by
    intro data position junk r seek hk hw
    obtain ⟨hh, hd, hb, ho⟩ := writeAt_unextended hk hs.apart hw
    refine ⟨?_, ?_⟩
    · simp only [hh, hd]
      exact hs.hdr
    · simp only [hh]
      exact hs.apart.congr hb ho
  cases c with
  | seek position =>
    obtain rfl := Option.some.inj ht
    exact ⟨hs.hdr, hs.apart⟩
  | read numBytes =>
    obtain ⟨l, -, rfl⟩ := Option.map_eq_some_iff.mp ht
    exact ⟨hs.hdr, hs.apart⟩
  | write data junk =>
    obtain ⟨r, hr, rfl⟩ := Option.map_eq_some_iff.mp ht
    exact hwrite hc hr
  | writeAt data position junk =>
    obtain ⟨r, hr, rfl⟩ := Option.map_eq_some_iff.mp ht
    exact hwrite hc hr

/-- Reading depends on the disk and on the translation of positions in the file. -/
theorem readAt_congr (hd : st'.disk = st.disk)
    (hsec : ∀ i : ℕ, (i * sectorSize : ℕ) < h.fileLength →
      h.byteToSector st' (i * sectorSize) = h.byteToSector st (i * sectorSize))
    (numBytes position : ℕ) : h.readAt st' numBytes position = h.readAt st numBytes position := by
  have hread : st'.readSector = st.readSector := by
    funext w
    simp only [Store.readSector, hd]
  unfold FileHeader.readAt
  by_cases h0 : numBytes = 0 ∨ h.fileLength ≤ position
  · rw [if_pos h0, if_pos h0]
  · rw [if_neg h0, if_neg h0]
    generalize hk : (if (position : ℤ) + numBytes > h.fileLength then (h.fileLength - position).toNat
      else numBytes) = k
    have hle : position + k ≤ h.fileLength ∧ 0 < k := by
      split_ifs at hk <;> omega
    have hsame : h.readSectors st' (position / sectorSize)
        ((position + k - 1) / sectorSize + 1 - position / sectorSize) =
        h.readSectors st (position / sectorSize)
          ((position + k - 1) / sectorSize + 1 - position / sectorSize) := by
      unfold FileHeader.readSectors
      congr 1
      apply mapM_congr
      intro i hi
      have hi := List.mem_range.mp hi
      rw [hsec]
      · rw [hread]
      · simp only [sectorSize] at *
        omega
    simp only [hsame]

/-- The first four sectors of a file are found without the pointer blocks. -/
theorem byteToSector_direct {p : ℕ} (hp : p < 4 * sectorSize) :
    h.byteToSector st' p = h.byteToSector st p := by
  have hlt : p / sectorSize < 4 := Nat.div_lt_of_lt_mul (by rwa [Nat.mul_comm])
  simp only [FileHeader.byteToSector, dif_pos hlt]

/-- In every run of calls that do not extend the file, a file opened again on the
same disk has the length and the bytes of the closed one: in the same run, where
the pointer blocks are still there, and in a new one when all of the file is in
its first four sectors. -/
theorem reopened_file_same {depth : ℕ} {ls : List FileCall} {s : Session}
    (hapart : HeaderApart st (OpenFile.create st x).hdr x)
    (hrun : Run (Session.Step depth) (Session.Unextended x) ⟨st, OpenFile.create st x⟩ ls s)
    (hdisk : st'.disk = s.store.disk)
    (hblocks : (st'.blocks = s.store.blocks ∧ st'.handOn = s.store.handOn) ∨
      s.file.hdr.fileLength ≤ 4 * sectorSize) :
    (OpenFile.create st' x).hdr.fileLength = s.file.hdr.fileLength ∧
      ∀ numBytes position, (OpenFile.create st' x).hdr.readAt st' numBytes position =
        s.file.hdr.readAt s.store numBytes position := by
  have hs : Synced s x := 
    hrun.invariant (I := (Synced · x)) ⟨rfl, hapart⟩ fun h hc ht => h.step hc ht
  have hhdr : (OpenFile.create st' x).hdr = s.file.hdr := by
    rw [hs.hdr, OpenFile.create, hdisk]
  rw [hhdr]
  refine ⟨rfl, readAt_congr hdisk ?_⟩
  intro i hi
  rcases hblocks with ⟨hb, hh⟩ | hlen
  · exact FileHeader.byteToSector_congr hb hh _ _
  · exact byteToSector_direct (by omega)

/-- A disk with the header of the free map in sector 0 and the header of a file
of the given length and first data sector in sector 5; no other byte is set. -/
def sampleStore (length sectors first : Word) : Store where
  disk x :=
    if x = 0 then FileHeader.writeBack ⟨128, 1, fun _ => 2, fun _ => 0, fun _ => 0⟩
    else if x = 5 then
      FileHeader.writeBack ⟨length, sectors, fun _ => first, fun _ => 0, fun _ => 0⟩
    else fun _ => 0
  blocks _ := none
  next := 0
  handOn := id

def clearJunk : Junk := ⟨fun _ _ => 0, fun _ _ => 0⟩

/-- One byte is written into a file of ten bytes. -/
theorem reopened_file_same_ten : ∃ s, Run (Session.Step 1) (Session.Unextended 5)
      ⟨sampleStore 10 1 6, OpenFile.create (sampleStore 10 1 6) 5⟩ [.writeAt [7] 3 clearJunk] s ∧
    s.file.hdr.readAt s.store 2 2 = some [0, 7] ∧
    ∀ numBytes position, (OpenFile.create s.store 5).hdr.readAt s.store numBytes position =
      s.file.hdr.readAt s.store numBytes position := by
  have hhdr : (OpenFile.create (sampleStore 10 1 6) 5).hdr =
      ⟨10, 1, fun _ => 6, fun _ => 0, fun _ => 0⟩ := FileHeader.fetchFrom_writeBack _
  have hapart : HeaderApart (sampleStore 10 1 6) (OpenFile.create (sampleStore 10 1 6) 5).hdr 5 := by
    intro p hp w hw
    rw [hhdr] at hp hw
    have hp : (p : ℤ) < 10 := hp
    have hlt : p / 128 < 4 := by omega
    simp only [FileHeader.byteToSector, dif_pos hlt, Option.some.injEq] at hw
    subst hw
    decide
  have hcall : (Session.call 1 ⟨sampleStore 10 1 6, OpenFile.create (sampleStore 10 1 6) 5⟩
      (.writeAt [7] 3 clearJunk)).any
        (fun s => s.file.hdr.readAt s.store 2 2 = some [0, 7]) = true := by decide +kernel
  obtain ⟨s, hs, hread⟩ := (Option.any_eq_true _ _).mp hcall
  have hrun : Run (Session.Step 1) (Session.Unextended 5)
      ⟨sampleStore 10 1 6, OpenFile.create (sampleStore 10 1 6) 5⟩ [.writeAt [7] 3 clearJunk] s := by
    refine .cons (Or.inr (Or.inr ?_)) hs (.nil s)
    rw [hhdr]
    decide
  exact ⟨s, hrun, of_decide_eq_true hread,
    (reopened_file_same hapart hrun rfl (Or.inl ⟨rfl, rfl⟩)).2⟩

/-- One byte is written to an empty file. The file opened again is empty. -/
theorem written_byte_lost : ∃ s, HeaderApart (sampleStore 0 0 0)
      (OpenFile.create (sampleStore 0 0 0) 5).hdr 5 ∧
    Run (Session.Step 2) Free ⟨sampleStore 0 0 0, OpenFile.create (sampleStore 0 0 0) 5⟩
      [.write [7] clearJunk] s ∧
    s.file.hdr.fileLength = 1 ∧ s.file.hdr.readAt s.store 1 0 = some [7] ∧
    (OpenFile.create s.store 5).hdr.fileLength = 0 ∧
    (OpenFile.create s.store 5).hdr.readAt s.store 1 0 = some [] := by
  have hapart : HeaderApart (sampleStore 0 0 0) (OpenFile.create (sampleStore 0 0 0) 5).hdr 5 := by
    intro p hp
    rw [show (OpenFile.create (sampleStore 0 0 0) 5).hdr = _ from FileHeader.fetchFrom_writeBack _]
      at hp
    exact absurd hp (by simp [FileHeader.fileLength])
  obtain ⟨s, hrun, hs⟩ := exists_run_of_exec (Session.call 2)
    ⟨sampleStore 0 0 0, OpenFile.create (sampleStore 0 0 0) 5⟩ [.write [7] clearJunk]
    (fun s => s.file.hdr.fileLength = 1 ∧ s.file.hdr.readAt s.store 1 0 = some [7] ∧
      (OpenFile.create s.store 5).hdr.fileLength = 0 ∧
      (OpenFile.create s.store 5).hdr.readAt s.store 1 0 = some []) (by decide +kernel)
  exact ⟨s, hapart, hrun, of_decide_eq_true hs⟩

end Nachos.FileSystem
