import Nachos.WhileLoops
import Nachos.LoadedFrames
import Nachos.UserTransfers

/-!
# `ReadFile`, turn by turn

The loops of both `ReadFile` functions of `userprog/addrspace.cc`, for whatever
addresses and sizes a header has. The outer loop counts the bytes that `ReadAt`
returned against the size in the header, so it ends only if the file has that many.
Without `VM` an inner loop copies them into main memory; `Translate` leaves
`phys_addr` as it was when it finds no page, and the copy is made all the same.

`readLoop_turns` connects this to `Loading.readLoop`, which describes the loads that
return.
-/
namespace Nachos.LoaderTurns
open WhileLoops Loading ByteMemory
open UserTransfers (Chars memcpy AddrSpace pageSize)

/-- `OpenFile` of the build with `FILESYS_STUB`, or of the one with `FILESYS`. -/
inductive FileSystem where
  | stub
  | nachos
  deriving DecidableEq, Repr

/-- A file; what would be read before its start is whatever memory holds. -/
structure Executable where
  length : ℕ
  bytes : Chars

def Executable.ofList (file : List UInt8) : Executable :=
  ⟨file.length, fun a => (file.getD a.toNat 0).toBitVec⟩

/-- The number of bytes that `ReadAt` reads. `Lseek` of the stub asserts that the position is not
negative. -/
def Executable.readAt (fs : FileSystem) (file : Executable) (numBytes position : ℤ) : Option ℤ :=
  match fs with
  | .stub =>
    if position < 0 then none
    else some (if position ≥ file.length then 0 else min numBytes (file.length - position))
  | .nachos =>
    if numBytes ≤ 0 ∨ position ≥ file.length then some 0
    else if position + numBytes > file.length then some (file.length - position)
    else some numBytes

/-- `PageSize - (vaddr % PageSize)` -/
def rest (vaddr : ℤ) : ℤ := pageSize - vaddr.tmod pageSize

/-- The variables of the outer loop. -/
structure Cursor where
  vaddr : ℤ
  size : ℤ
  fileAddr : ℤ
  bytesRead : ℤ
  deriving DecidableEq, Repr

def Cursor.start (seg : Segment) : Cursor := ⟨seg.virtualAddr, seg.size, seg.inFileAddr, 0⟩

/-- The variables without `VM`. No loop is entered before `read` is set. -/
structure Reading extends Cursor where
  read : ℤ
  bytesWrote : ℤ
  memBuffer : ℤ
  physAddr : ℤ

/-- A call of `ReadFile`; `phys_addr` is not initialised. -/
def Reading.start (seg : Segment) (physAddr : ℤ) : Reading := ⟨.start seg, 0, 0, 0, physAddr⟩

/-- The page table that the constructor makes; `beyond` is the memory behind it. -/
def spaceOf (frames : List ℤ) (beyond : ℤ → UserTransfers.TranslationEntry) : AddrSpace where
  numPages := frames.length
  pageTable v := if 0 ≤ v then (frames[v.toNat]?).elim (beyond v) (⟨true, ·⟩) else beyond v

abbrev Machine := UserTransfers.Machine

/-- A turn of the inner or of the outer loop without `VM`. -/
def turn (fs : FileSystem) (file : Executable) (space : AddrSpace) (s : Machine × Reading) :
    Status (Machine × Reading) Machine :=
  let m := s.1
  let r := s.2
  if r.bytesWrote < r.read then
    let writeSize := rest r.vaddr
    let physAddr := (space.translate r.vaddr).getD r.physAddr
    .running ({ m with
        mainMemory := memcpy m.mainMemory physAddr m.diskBuffer r.memBuffer writeSize },
      { r with
        bytesWrote := r.bytesWrote + writeSize
        physAddr := physAddr
        memBuffer := r.memBuffer + writeSize
        vaddr := r.vaddr + writeSize })
  else if r.bytesRead < r.size then
    match file.readAt fs (rest r.vaddr) r.fileAddr with
    | none => .aborted
    | some n =>
      .running ({ m with diskBuffer := memcpy m.diskBuffer 0 file.bytes r.fileAddr n },
        { r with
          fileAddr := r.fileAddr + n
          bytesRead := r.bytesRead + n
          read := n
          bytesWrote := 0
          memBuffer := 0 })
  else .returned m

/-- A turn of the loop with `VM`. `put` is what `vm->GetPage` and `vm->AddPage` do with the page of
`vaddr` and the buffer. -/
def virtualTurn {σ : Type} (put : σ → ℤ → Chars → Option σ) (fs : FileSystem) (file : Executable)
    (s : (σ × Chars) × Cursor) : Status ((σ × Chars) × Cursor) (σ × Chars) :=
  let c := s.2
  if c.bytesRead < c.size then
    match file.readAt fs (rest c.vaddr) c.fileAddr with
    | none => .aborted
    | some n =>
      let diskBuffer := memcpy s.1.2 0 file.bytes c.fileAddr n
      match put s.1.1 c.vaddr diskBuffer with
      | none => .aborted
      | some t => .running ((t, diskBuffer),
          { c with
            fileAddr := c.fileAddr + n
            bytesRead := c.bytesRead + n
            vaddr := c.vaddr + n })
  else .returned s.1

section turns
variable {fs : FileSystem} {file : Executable} {n : ℤ}

theorem turn_write {space : AddrSpace} {m : Machine} {r : Reading} (h : r.bytesWrote < r.read) :
    turn fs file space (m, r) =
      .running (
        { m with
          mainMemory := memcpy m.mainMemory ((space.translate r.vaddr).getD r.physAddr) m.diskBuffer
            r.memBuffer (rest r.vaddr) },
        { r with
          bytesWrote := r.bytesWrote + rest r.vaddr
          physAddr := (space.translate r.vaddr).getD r.physAddr
          memBuffer := r.memBuffer + rest r.vaddr
          vaddr := r.vaddr + rest r.vaddr }) := by
  simp only [turn, if_pos h]

theorem turn_read {space : AddrSpace} {m : Machine} {r : Reading} (h : ¬r.bytesWrote < r.read)
    (hlt : r.bytesRead < r.size) (hn : file.readAt fs (rest r.vaddr) r.fileAddr = some n) :
    turn fs file space (m, r) =
      .running ({ m with diskBuffer := memcpy m.diskBuffer 0 file.bytes r.fileAddr n },
        { r with
          fileAddr := r.fileAddr + n
          bytesRead := r.bytesRead + n
          read := n
          bytesWrote := 0
          memBuffer := 0 }) := by
  simp only [turn, if_neg h, if_pos hlt, hn]

theorem turn_return {space : AddrSpace} {m : Machine} {r : Reading} (h : ¬r.bytesWrote < r.read)
    (hlt : ¬r.bytesRead < r.size) : turn fs file space (m, r) = .returned m := by
  simp only [turn, if_neg h, if_neg hlt]

theorem virtualTurn_read {σ : Type} {put : σ → ℤ → Chars → Option σ} {s t : σ} {buffer : Chars}
    {c : Cursor} (hlt : c.bytesRead < c.size)
    (hn : file.readAt fs (rest c.vaddr) c.fileAddr = some n)
    (ht : put s c.vaddr (memcpy buffer 0 file.bytes c.fileAddr n) = some t) :
    virtualTurn put fs file ((s, buffer), c) =
      .running ((t, memcpy buffer 0 file.bytes c.fileAddr n),
        { c with
          fileAddr := c.fileAddr + n
          bytesRead := c.bytesRead + n
          vaddr := c.vaddr + n }) := by
  simp only [virtualTurn, if_pos hlt, hn, ht]

theorem virtualTurn_return {σ : Type} {put : σ → ℤ → Chars → Option σ} {s : σ × Chars} {c : Cursor}
    (hlt : ¬c.bytesRead < c.size) : virtualTurn put fs file (s, c) = .returned s := by
  simp only [virtualTurn, if_neg hlt]

end turns

theorem rest_bounds (vaddr : ℤ) : 1 ≤ rest vaddr ∧ rest vaddr < 2 * pageSize := by
  have hlow : -pageSize < vaddr.tmod pageSize := Int.lt_tmod_of_pos _ (by decide)
  have hhigh : vaddr.tmod pageSize < pageSize := Int.tmod_lt_of_pos _ (by decide)
  unfold rest
  omega

/-- The file has as many bytes as the segment asks for, or the first `ReadAt` aborts. -/
def Supplied (fs : FileSystem) (file : Executable) (seg : Segment) : Prop :=
  seg.size ≤ 0 ∨ seg.inFileAddr + seg.size ≤ file.length ∨ (fs = .stub ∧ seg.inFileAddr < 0)

instance (fs : FileSystem) (file : Executable) (seg : Segment) : Decidable (Supplied fs file seg) :=
  inferInstanceAs (Decidable (_ ∨ _ ∨ _))

section reads
variable {fs : FileSystem} {file : Executable} {numBytes position n : ℤ}

/-- What a read of at least one byte gives. -/
theorem readAt_eq (hpos : 1 ≤ numBytes) (h : file.readAt fs numBytes position = some n) :
    n = max 0 (min numBytes (file.length - position)) := by
  cases fs with
  | stub =>
    simp only [Executable.readAt] at h
    split_ifs at h
    · obtain rfl := Option.some.inj h
      omega
    · obtain rfl := Option.some.inj h
      omega
  | nachos =>
    simp only [Executable.readAt] at h
    split_ifs at h <;> obtain rfl := Option.some.inj h <;> omega

theorem readAt_isSome (numBytes : ℤ) (h : fs = .stub → 0 ≤ position) :
    (file.readAt fs numBytes position).isSome := by
  cases fs with
  | stub =>
    simp only [Executable.readAt]
    rw [if_neg (not_lt.mpr (h rfl))]
    rfl
  | nachos =>
    simp only [Executable.readAt]
    split_ifs <;> rfl

end reads

/-- What the loop still has to read is in the file. -/
def Left (file : Executable) (c : Cursor) : Prop :=
  c.bytesRead < c.size → c.fileAddr + (c.size - c.bytesRead) ≤ file.length

theorem Left.read {fs : FileSystem} {file : Executable} {c : Cursor} (h : Left file c)
    (hlt : c.bytesRead < c.size) {n : ℤ} (hn : file.readAt fs (rest c.vaddr) c.fileAddr = some n)
    (vaddr : ℤ) :
    1 ≤ n ∧ n < 2 * pageSize ∧
      Left file { c with vaddr := vaddr, fileAddr := c.fileAddr + n, bytesRead := c.bytesRead + n } := by
  obtain ⟨hone, hmax⟩ := rest_bounds c.vaddr
  have hleft := h hlt
  have heq := readAt_eq hone hn
  refine ⟨by omega, by omega, fun hlt' => ?_⟩
  simp only at hlt' ⊢
  omega

theorem left_start {fs : FileSystem} {file : Executable} {seg : Segment}
    (h : Supplied fs file seg) (hstub : ¬(fs = .stub ∧ seg.inFileAddr < 0)) :
    Left file (.start seg) := by
  intro hlt
  have hpos : 0 < seg.size := hlt
  have hin := (h.resolve_left (by omega)).resolve_right hstub
  simp only [Cursor.start]
  omega

/-- The inner loop has at most one turn for every byte of a read. -/
def Reading.measure (r : Reading) : ℕ :=
  256 * (r.size - r.bytesRead).toNat + (r.read - r.bytesWrote).toNat

theorem turn_decreases {fs : FileSystem} {file : Executable} {space : AddrSpace}
    {s t : Machine × Reading} (h : Left file s.2.toCursor)
    (ht : turn fs file space s = .running t) :
    Left file t.2.toCursor ∧ t.2.measure < s.2.measure := by
  obtain ⟨m, r⟩ := s
  simp only [turn] at ht
  split_ifs at ht with hinner houter
  · obtain rfl := Status.running.inj ht
    have hone := (rest_bounds r.vaddr).1
    refine ⟨h, ?_⟩
    simp only [Reading.measure]
    omega
  · split at ht
    · cases ht
    · rename_i n hn
      obtain rfl := Status.running.inj ht
      obtain ⟨hone, hmax, hleft⟩ := h.read houter hn r.vaddr
      refine ⟨hleft, ?_⟩
      simp only [Reading.measure, pageSize] at *
      omega

theorem virtualTurn_decreases {σ : Type} {put : σ → ℤ → Chars → Option σ} {fs : FileSystem}
    {file : Executable} {s t : (σ × Chars) × Cursor} (h : Left file s.2)
    (ht : virtualTurn put fs file s = .running t) :
    Left file t.2 ∧ (t.2.size - t.2.bytesRead).toNat < (s.2.size - s.2.bytesRead).toNat := by
  obtain ⟨x, c⟩ := s
  simp only [virtualTurn] at ht
  split_ifs at ht with hlt
  split at ht
  · cases ht
  · rename_i n hn
    split at ht
    · cases ht
    · obtain rfl := Status.running.inj ht
      obtain ⟨hone, -, hleft⟩ := h.read hlt hn (c.vaddr + n)
      refine ⟨hleft, ?_⟩
      simp only
      omega

/-- Both `ReadFile` functions end for every segment that the file has the bytes for. -/
theorem readFile_ends (fs : FileSystem) (file : Executable) (seg : Segment)
    (h : Supplied fs file seg) :
    (∀ space m physAddr, ∃ n, (turns (turn fs file space) n (m, .start seg physAddr)).Ended) ∧
      ∀ (σ : Type) (put : σ → ℤ → Chars → Option σ) (s : σ × Chars),
        ∃ n, (turns (virtualTurn put fs file) n (s, .start seg)).Ended := by
  by_cases hleft : Left file (.start seg)
  · refine ⟨fun space m physAddr => ?_, fun σ put s => ?_⟩
    · have hstep : ∀ s t : Machine × Reading, Left file s.2.toCursor →
          turn fs file space s = .running t → Left file t.2.toCursor ∧ t.2.measure < s.2.measure :=
        fun s t hs ht => turn_decreases hs ht
      obtain ⟨n, -, hn⟩ := turns_ended hstep (s := (m, .start seg physAddr)) hleft
      exact ⟨n, hn⟩
    · have hstep : ∀ s t : (σ × Chars) × Cursor, Left file s.2 →
          virtualTurn put fs file s = .running t → Left file t.2 ∧
            (t.2.size - t.2.bytesRead).toNat < (s.2.size - s.2.bytesRead).toNat :=
        fun s t hs ht => virtualTurn_decreases hs ht
      obtain ⟨n, -, hn⟩ := turns_ended (I := fun s => Left file s.2)
        (μ := fun s => (s.2.size - s.2.bytesRead).toNat) hstep (s := (s, .start seg)) hleft
      exact ⟨n, hn⟩
  · -- The position of the first `ReadAt` is negative, and `Lseek` of the stub aborts.
    obtain ⟨rfl, hneg⟩ : fs = .stub ∧ seg.inFileAddr < 0 := by
      by_contra hstub
      exact hleft (left_start h hstub)
    have hlt : (0 : ℤ) < seg.size := by
      by_contra hsize
      exact hleft fun hlt => absurd hlt hsize
    have hread : ∀ k, file.readAt .stub k seg.inFileAddr = none := fun k => if_pos hneg
    refine ⟨fun space m physAddr => ⟨1, ?_⟩, fun σ put s => ⟨1, ?_⟩⟩
    · simp [turns, turn, Reading.start, Cursor.start, hlt, hread, Status.Ended]
    · simp [turns, virtualTurn, Cursor.start, hlt, hread, Status.Ended]

theorem readFile_ends_four_bytes :
    Supplied .stub (.ofList (executable (0, 40, 4) (0, 0, 0) [1, 2, 3, 4])) ⟨0, 40, 4⟩ ∧
      ∃ n, (turns (turn .stub (.ofList (executable (0, 40, 4) (0, 0, 0) [1, 2, 3, 4]))
        (spaceOf [0] fun _ => ⟨false, 0⟩)) n (⟨fun _ => 0, fun _ => 0⟩, .start ⟨0, 40, 4⟩ 0)).Ended :=
  ⟨by decide, (readFile_ends .stub _ ⟨0, 40, 4⟩ (by decide)).1 _ _ _⟩

/-- The loop asks for more than the file has. -/
structure Short (fs : FileSystem) (file : Executable) (c : Cursor) : Prop where
  more : c.bytesRead < c.size
  lseek : fs = .stub → 0 ≤ c.fileAddr
  short : file.length < c.fileAddr + (c.size - c.bytesRead)

theorem short_start {fs : FileSystem} {file : Executable} {seg : Segment}
    (h : ¬Supplied fs file seg) : Short fs file (.start seg) := by
  simp only [Supplied, not_or, not_and, not_le, not_lt] at h
  obtain ⟨hsize, hshort, hstub⟩ := h
  refine ⟨hsize, hstub, ?_⟩
  simp only [Cursor.start]
  omega

/-- At the end of the file `ReadAt` reads nothing, and nothing changes. -/
theorem Short.read {fs : FileSystem} {file : Executable} {c : Cursor} (h : Short fs file c)
    (vaddr : ℕ → ℤ) : ∃ n : ℕ, file.readAt fs (rest c.vaddr) c.fileAddr = some n ∧
      Short fs file ⟨vaddr n, c.size, c.fileAddr + n, c.bytesRead + n⟩ := by
  obtain ⟨n, hn⟩ := Option.isSome_iff_exists.mp (readAt_isSome (rest c.vaddr) h.lseek)
  have heq := readAt_eq (rest_bounds c.vaddr).1 hn
  have hmore := h.more
  have hshort := h.short
  lift n to ℕ using by omega
  refine ⟨n, hn, ?_, fun hstub => ?_, ?_⟩
  · simp only
    omega
  · have := h.lseek hstub
    simp only
    omega
  · simp only
    omega

/-- `ReadFile` never ends for a segment that the file is too short for. -/
theorem readFile_runs_on {fs : FileSystem} {file : Executable} {seg : Segment}
    (h : ¬Supplied fs file seg) :
    (∀ space m physAddr n, ∃ t, turns (turn fs file space) n (m, .start seg physAddr) = .running t) ∧
      ∀ (σ : Type) (put : σ → ℤ → Chars → σ) (s : σ × Chars) n,
        ∃ t, turns (virtualTurn (fun s a b => some (put s a b)) fs file) n (s, .start seg) =
          .running t := by
  refine ⟨fun space m physAddr n => ?_, fun σ put s n => ?_⟩
  · have hstep : ∀ s : Machine × Reading, Short fs file s.2.toCursor →
        ∃ t, turn fs file space s = .running t ∧ Short fs file t.2.toCursor := by
      rintro ⟨m, r⟩ hs
      by_cases hinner : r.bytesWrote < r.read
      · exact ⟨_, turn_write hinner, ⟨hs.more, hs.lseek, hs.short⟩⟩
      · obtain ⟨k, hk, hshort⟩ := hs.read fun _ => r.vaddr
        exact ⟨_, turn_read hinner hs.more hk, hshort⟩
    obtain ⟨t, ht, -⟩ := turns_running hstep (s := (m, .start seg physAddr)) (short_start h) n
    exact ⟨t, ht⟩
  · have hstep : ∀ s : (σ × Chars) × Cursor, Short fs file s.2 →
        ∃ t, virtualTurn (fun s a b => some (put s a b)) fs file s = .running t ∧
          Short fs file t.2 := by
      rintro ⟨⟨s, buffer⟩, c⟩ hs
      obtain ⟨k, hk, hshort⟩ := hs.read fun k => c.vaddr + k
      exact ⟨_, virtualTurn_read hs.more hk rfl, hshort⟩
    obtain ⟨t, ht, -⟩ := turns_running hstep (s := (s, .start seg)) (short_start h) n
    exact ⟨t, ht⟩

/-- A file whose last four bytes are missing. -/
def truncated : List UInt8 := executable (0, 40, 8) (0, 0, 0) [1, 2, 3, 4]

theorem readFile_runs_on_truncated : ∃ h, NoffHeader.read truncated = some h ∧
    (∀ fs space m physAddr n,
      ¬(turns (turn fs (.ofList truncated) space) n (m, .start h.code physAddr)).Ended) ∧
    ∀ fs n, ¬(turns (virtualTurn (fun (_ : Unit) _ _ => some ()) fs (.ofList truncated)) n
      (((), fun _ => 0), .start h.code)).Ended := by
  have hread : NoffHeader.read truncated = some ⟨⟨0, 40, 8⟩, ⟨0, 0, 0⟩, ⟨0, 0, 0⟩⟩ := by
    decide +kernel
  have hshort : ∀ fs, ¬Supplied fs (.ofList truncated) ⟨0, 40, 8⟩ := by
    intro fs
    cases fs <;> decide
  refine ⟨_, hread, fun fs space m physAddr n hend => ?_, fun fs n hend => ?_⟩
  · obtain ⟨t, ht⟩ := (readFile_runs_on (hshort fs)).1 space m physAddr n
    rw [ht] at hend
    exact hend
  · obtain ⟨t, ht⟩ := (readFile_runs_on (hshort fs)).2 Unit (fun _ _ _ => ()) ((), fun _ => 0) n
    rw [ht] at hend
    exact hend

section frames

/-- Main memory as the bytes of its frames. -/
def flatten (memory : ℤ → DemandPaging.Page) : Chars := fun a =>
  (Page.byte (memory (a / pageSize)) (a % pageSize).toNat).toBitVec

/-- `diskBuffer` has the bytes of a page. -/
def Has (buffer : Chars) (p : DemandPaging.Page) : Prop :=
  ∀ i : ℕ, i < DemandPaging.pageSize → buffer i = (Page.byte p i).toBitVec

variable {frames : List ℤ} {beyond : ℤ → UserTransfers.TranslationEntry} {file : List UInt8}
  {f : ℤ}

theorem translate_spaceOf (beyond : ℤ → UserTransfers.TranslationEntry) {vaddr : ℕ}
    (hf : frames[vaddr / DemandPaging.pageSize]? = some f) :
    (spaceOf frames beyond).translate vaddr =
      some (f * pageSize + (vaddr % DemandPaging.pageSize : ℕ)) := by
  have hlt : vaddr / DemandPaging.pageSize < frames.length := (List.getElem?_eq_some_iff.mp hf).1
  have hdiv : (vaddr : ℤ).tdiv pageSize = (vaddr / DemandPaging.pageSize : ℕ) := by
    rw [Int.tdiv_eq_ediv_of_nonneg (by omega)]
    rfl
  have hmod : (vaddr : ℤ).tmod pageSize = (vaddr % DemandPaging.pageSize : ℕ) := by
    rw [Int.tmod_eq_emod_of_nonneg (by omega)]
    rfl
  have hentry : (spaceOf frames beyond).pageTable (vaddr / DemandPaging.pageSize : ℕ) = ⟨true, f⟩ := by
    simp only [spaceOf]
    rw [if_pos (Int.natCast_nonneg _), Int.toNat_natCast, hf]
    rfl
  have htest : ¬(((vaddr / DemandPaging.pageSize : ℕ) : ℤ) > (spaceOf frames beyond).numPages ∨
      ((vaddr / DemandPaging.pageSize : ℕ) : ℤ) < 0) :=
    not_or.mpr ⟨not_lt.mpr (Int.ofNat_le.mpr hlt.le), not_lt.mpr (Int.natCast_nonneg _)⟩
  rw [AddrSpace.translate]
  simp only [hdiv, hmod, hentry]
  rw [if_neg htest]
  rfl

/-- The rest of a page copied into its frame. -/
theorem memcpy_flatten (memory : ℤ → DemandPaging.Page) (f : ℤ) (offset : ℕ) {buffer : Chars}
    {p : DemandPaging.Page} (hp : Has buffer p) :
    memcpy (flatten memory) (f * pageSize + offset) buffer 0 (pageSize - offset) =
      flatten (Function.update memory f (merge (memory f) offset p)) := by
  funext a
  by_cases hf : a / pageSize = f
  · have hmod : f * pageSize + a % pageSize = a := by
      rw [← hf]
      exact Int.ediv_mul_add_emod a pageSize
    have hlt : a % pageSize < pageSize := Int.emod_lt_of_pos a (by decide)
    have hnn : 0 ≤ a % pageSize := Int.emod_nonneg a (by decide)
    have hpage : (a % pageSize).toNat % DemandPaging.pageSize = (a % pageSize).toNat :=
      Nat.mod_eq_of_lt (by simp only [pageSize, DemandPaging.pageSize] at *; omega)
    simp only [flatten, hf, Function.update_self, byte_merge, hpage]
    by_cases hle : offset ≤ (a % pageSize).toNat
    · rw [UserTransfers.memcpy_of_mem (by omega), if_pos hle]
      rw [← hp _ (by simp only [pageSize, DemandPaging.pageSize] at *; omega)]
      congr 1
      omega
    · rw [UserTransfers.memcpy_of_not_mem (by omega), if_neg hle]
      simp only [flatten, hf]
  · have hnot : ¬(f * pageSize + offset ≤ a ∧ a < f * pageSize + offset + (pageSize - offset)) := by
      simp only [pageSize] at *
      omega
    rw [UserTransfers.memcpy_of_not_mem hnot]
    simp only [flatten, Function.update_of_ne hf]

theorem Has.readAt {buffer : Chars} {p : DemandPaging.Page} (hp : Has buffer p) (file : List UInt8)
    (n position : ℕ) :
    Has (memcpy buffer 0 (Executable.ofList file).bytes position
      (Loading.readAt file n position p).1) (Loading.readAt file n position p).2 := by
  intro i hi
  have hval : (Fin.ofNat DemandPaging.pageSize i : ℕ) = i := Nat.mod_eq_of_lt hi
  simp only [Loading.readAt, Page.byte, hval]
  by_cases hlt : i < min n (file.length - position)
  · rw [UserTransfers.memcpy_of_mem (by omega), if_pos hlt]
    simp only [Executable.ofList]
    congr 2
  · rw [UserTransfers.memcpy_of_not_mem (by omega), if_neg hlt]
    exact hp i hi

theorem readAt_ofList (fs : FileSystem) (file : List UInt8) {n : ℕ} (hn : 0 < n) (position : ℕ)
    (p : DemandPaging.Page) :
    (Executable.ofList file).readAt fs n position = some ↑(Loading.readAt file n position p).1 := by
  have hsome : ((Executable.ofList file).readAt fs n position).isSome :=
    readAt_isSome n fun _ => by omega
  obtain ⟨k, hk⟩ := Option.isSome_iff_exists.mp hsome
  rw [hk, readAt_eq (by omega) hk]
  simp only [Executable.ofList, Loading.readAt]
  congr 1
  omega

/-- The bytes from an address to the end of its page. -/
abbrev pageRest (vaddr : ℕ) : ℕ := DemandPaging.pageSize - vaddr % DemandPaging.pageSize

theorem pageRest_pos (vaddr : ℕ) : 0 < pageRest vaddr :=
  Nat.sub_pos_of_lt (Nat.mod_lt _ (by decide))

theorem rest_eq_sub (vaddr : ℕ) :
    rest vaddr = pageSize - (vaddr % DemandPaging.pageSize : ℕ) := by
  rw [rest, Int.tmod_eq_emod_of_nonneg (Int.natCast_nonneg _)]
  rfl

theorem rest_natCast (vaddr : ℕ) : rest vaddr = pageRest vaddr := by
  rw [rest_eq_sub, Nat.cast_sub (Nat.mod_lt _ (by decide)).le]
  rfl

/-- A load that returns makes the same memory turn by turn. -/
theorem readLoop_turns (fs : FileSystem) {fuel vaddr size fileAddr : ℕ}
    {memory memory' : ℤ → DemandPaging.Page} {p p' : DemandPaging.Page}
    (h : readLoop (putFrame frames) (fun _ rest => rest) file fuel memory p vaddr size fileAddr =
      some (memory', p')) {buffer : Chars} (hp : Has buffer p) {r : Reading} (hv : r.vaddr = vaddr)
    (hsize : (r.size - r.bytesRead).toNat = size) (hfile : r.fileAddr = fileAddr)
    (hinner : ¬r.bytesWrote < r.read) :
    ∃ buffer', Has buffer' p' ∧
      Returns (turn fs (.ofList file) (spaceOf frames beyond)) (⟨buffer, flatten memory⟩, r)
        ⟨buffer', flatten memory'⟩ := by
  induction fuel generalizing memory p vaddr size fileAddr buffer r with
  | zero =>
    rw [readLoop] at h
    split_ifs at h with hzero
    obtain ⟨rfl, rfl⟩ := Prod.mk.inj (Option.some.inj h)
    exact ⟨buffer, hp, .of_returned (turn_return hinner (by omega))⟩
  | succ fuel ih =>
    rw [readLoop] at h
    split_ifs at h with hzero
    · obtain ⟨rfl, rfl⟩ := Prod.mk.inj (Option.some.inj h)
      exact ⟨buffer, hp, .of_returned (turn_return hinner (by omega))⟩
    have hrest := rest_natCast vaddr
    rw [← hv] at hrest
    have hn := readAt_ofList fs file (pageRest_pos vaddr) fileAddr p
    have hhas := hp.readAt file (pageRest vaddr) fileAddr
    have hle : (Loading.readAt file (pageRest vaddr) fileAddr p).1 ≤ pageRest vaddr := min_le_left _ _
    change (if (Loading.readAt file (pageRest vaddr) fileAddr p).1 = 0 then none else _) = _ at h
    generalize Loading.readAt file (pageRest vaddr) fileAddr p = k at h hn hhas hle
    split_ifs at h with hk
    obtain ⟨memory₁, hput, hrec⟩ := Option.bind_eq_some_iff.mp h
    obtain ⟨f, hf, rfl⟩ := Option.map_eq_some_iff.mp hput
    have hcopy := memcpy_flatten memory f (vaddr % DemandPaging.pageSize) hhas
    have haddr : (spaceOf frames beyond).translate r.vaddr = _ := hv ▸ translate_spaceOf beyond hf
    rw [← hfile] at hn hhas hcopy
    rw [← hrest] at hn
    obtain ⟨buffer', hbuffer', hreturns⟩ := ih hrec hhas
      (r := { r with
        fileAddr := r.fileAddr + k.1
        bytesRead := r.bytesRead + k.1
        read := k.1
        bytesWrote := 0 + rest r.vaddr
        physAddr := ((spaceOf frames beyond).translate r.vaddr).getD r.physAddr
        memBuffer := 0 + rest r.vaddr
        vaddr := r.vaddr + rest r.vaddr })
      (by simp only [hrest]; rw [hv, Nat.cast_add]) (by simp only; omega)
      (by simp only; omega) (by simp only; omega)
    refine ⟨buffer', hbuffer', .of_running (turn_read hinner (by omega) hn) ?_⟩
    refine .of_running (turn_write (by simp only; omega)) ?_
    simp only [haddr, Option.getD_some] at hreturns ⊢
    rw [← hcopy, ← rest_eq_sub vaddr, ← hv] at hreturns
    exact hreturns

end frames

section slots
variable {σ : Type} {put : σ → (vpn offset : ℕ) → DemandPaging.Page → Option σ} {file : List UInt8}

def pageOf (buffer : Chars) : DemandPaging.Page := fun i => .ofBitVec (buffer (i : ℕ))

theorem Has.pageOf_eq {buffer : Chars} {p : DemandPaging.Page} (h : Has buffer p) :
    pageOf buffer = p := by
  funext i
  have hi : Fin.ofNat DemandPaging.pageSize i = i := Fin.ext (Nat.mod_eq_of_lt i.isLt)
  simp only [pageOf, h i i.isLt, Page.byte, hi]

/-- The same for a load into swap slots. -/
theorem readLoop_virtualTurns (fs : FileSystem) {fuel vaddr size fileAddr : ℕ} {s s' : σ}
    {p p' : DemandPaging.Page}
    (h : readLoop put (fun read _ => read) file fuel s p vaddr size fileAddr = some (s', p'))
    {buffer : Chars} (hp : Has buffer p) {c : Cursor} (hv : c.vaddr = vaddr)
    (hsize : (c.size - c.bytesRead).toNat = size) (hfile : c.fileAddr = fileAddr) :
    ∃ buffer', Has buffer' p' ∧
      Returns (virtualTurn (fun s a b => put s (a.toNat / DemandPaging.pageSize)
        (a.toNat % DemandPaging.pageSize) (pageOf b)) fs (.ofList file)) ((s, buffer), c)
        (s', buffer') := by
  induction fuel generalizing s p vaddr size fileAddr buffer c with
  | zero =>
    rw [readLoop] at h
    split_ifs at h with hzero
    obtain ⟨rfl, rfl⟩ := Prod.mk.inj (Option.some.inj h)
    exact ⟨buffer, hp, .of_returned (virtualTurn_return (by omega))⟩
  | succ fuel ih =>
    rw [readLoop] at h
    split_ifs at h with hzero
    · obtain ⟨rfl, rfl⟩ := Prod.mk.inj (Option.some.inj h)
      exact ⟨buffer, hp, .of_returned (virtualTurn_return (by omega))⟩
    have hn := readAt_ofList fs file (pageRest_pos vaddr) fileAddr p
    have hhas := hp.readAt file (pageRest vaddr) fileAddr
    change (if (Loading.readAt file (pageRest vaddr) fileAddr p).1 = 0 then none else _) = _ at h
    generalize Loading.readAt file (pageRest vaddr) fileAddr p = k at h hn hhas
    split_ifs at h with hk
    obtain ⟨s₁, hput, hrec⟩ := Option.bind_eq_some_iff.mp h
    rw [← rest_natCast, ← hfile, ← hv] at hn
    rw [← hfile] at hhas
    obtain ⟨buffer', hbuffer', hreturns⟩ := ih hrec hhas
      (c := { c with
        fileAddr := c.fileAddr + k.1
        bytesRead := c.bytesRead + k.1
        vaddr := c.vaddr + k.1 })
      (by simp only [hv, Nat.cast_add]) (by simp only; omega) (by simp only [hfile, Nat.cast_add])
    refine ⟨buffer', hbuffer', .of_running (virtualTurn_read (by omega) hn ?_) hreturns⟩
    rw [hhas.pageOf_eq, hv, Int.toNat_natCast]
    exact hput

end slots

end Nachos.LoaderTurns
