import Nachos.LoaderTurns

/-!
# Where the loader writes

The constructor of `AddrSpace` without `VM`, for every header. The number of pages
comes from the sizes of the segments, the places of the copies from their addresses,
and nothing compares the two. The loader stays in the frames that it was given if the
bytes that the file supplies for a segment lie inside of the pages.
-/
namespace Nachos.LoaderTurns
open WhileLoops Loading
open PhysicalFrames (MemoryManager numPhysPages)
open UserTransfers (Chars memcpy AddrSpace pageSize)

/-- The frames for the page table; without them the file is refused, by an assertion or by an
exception. -/
def allocate {A : Type} (h : NoffHeader) (memory : MemoryManager A) :
    Option (List ℤ × MemoryManager A) :=
  if h.numPages ≤ numPhysPages ∧ h.numPages ≤ memory.freePages.1 then
    some (getPages h.numPages memory)
  else none

/-- The two calls of `ReadFile`. -/
inductive Load where
  | code (s : Machine × Reading)
  | initData (s : Machine × Reading)

def Load.call : Load → Machine × Reading
  | .code s => s
  | .initData s => s

/-- A turn of the call at work. The constructor makes no call for a segment without a size, and
the call would return at once. -/
def loadTurn (fs : FileSystem) (file : Executable) (space : AddrSpace) (h : NoffHeader)
    (physAddr : ℤ) : Load → Status Load Machine
  | .code s =>
    match turn fs file space s with
    | .running t => .running (.code t)
    | .returned m => .running (.initData (m, .start h.initData physAddr))
    | .aborted => .aborted
  | .initData s =>
    match turn fs file space s with
    | .running t => .running (.initData t)
    | .returned m => .returned m
    | .aborted => .aborted

theorem readFile_turns (fs : FileSystem) {frames : List ℤ} {file : List UInt8} {seg : Segment}
    {memory memory' : ℤ → DemandPaging.Page} {p p' : DemandPaging.Page}
    (h : readFile (putFrame frames) (fun _ rest => rest) file seg memory p = some (memory', p'))
    (beyond : ℤ → UserTransfers.TranslationEntry) (physAddr : ℤ) {buffer : Chars}
    (hp : Has buffer p) :
    ∃ buffer', Has buffer' p' ∧
      Returns (turn fs (.ofList file) (spaceOf frames beyond))
        (⟨buffer, flatten memory⟩, .start seg physAddr) ⟨buffer', flatten memory'⟩ := by
  rw [readFile] at h
  split_ifs at h with hpos hneg
  · refine readLoop_turns fs h hp ?_ ?_ ?_ (lt_irrefl _)
    all_goals simp only [Reading.start, Cursor.start]
    all_goals omega
  · obtain ⟨rfl, rfl⟩ := Prod.mk.inj (Option.some.inj h)
    exact ⟨buffer, hp, .of_returned (turn_return (lt_irrefl _) hpos)⟩

/-- A constructor that returns makes the same frames and the same memory turn by turn. -/
theorem newSpace_turns {A : Type} (fs : FileSystem) {m m' : Loading.Machine A} {file : List UInt8}
    {h : NoffHeader} {frames : List ℤ} (hread : NoffHeader.read file = some h)
    (hnew : m.newSpace file = some (frames, m')) (beyond : ℤ → UserTransfers.TranslationEntry)
    (physAddr physAddr' : ℤ) {buffer : Chars} (hp : Has buffer m.diskBuffer) :
    allocate h m.memory = some (frames, m'.memory) ∧ ∃ buffer', Has buffer' m'.diskBuffer ∧
      Returns (loadTurn fs (.ofList file) (spaceOf frames beyond) h physAddr')
        (.code (⟨buffer, flatten m.mainMemory⟩, .start h.code physAddr))
        ⟨buffer', flatten m'.mainMemory⟩ := by
  rw [Machine.newSpace, hread, Option.bind_some] at hnew
  split_ifs at hnew with hroom
  obtain ⟨⟨memory', p'⟩, hsegs, hres⟩ := Option.map_eq_some_iff.mp hnew
  obtain ⟨rfl, rfl⟩ := Prod.mk.inj hres
  obtain ⟨⟨memory₁, p₁⟩, hcode, hinit⟩ := Option.bind_eq_some_iff.mp hsegs
  obtain ⟨buffer₁, hp₁, hfirst⟩ := readFile_turns fs hcode beyond physAddr hp
  obtain ⟨buffer', hp', hsecond⟩ := readFile_turns fs hinit beyond physAddr' hp₁
  refine ⟨if_pos hroom, buffer', hp', ?_⟩
  refine hfirst.lift (f := Load.code) (fun s t ht => ?_) fun s hs => ?_
  · simp only [loadTurn, ht]
  · refine .of_running (t := .initData (⟨buffer₁, flatten memory₁⟩, .start h.initData physAddr')) ?_ ?_
    · simp only [loadTurn, hs]
    · refine hsecond.lift (f := Load.initData) (fun s t ht => ?_) fun s hs => .of_returned ?_
      · simp only [loadTurn, ht]
      · simp only [loadTurn, hs]

/-- The bytes of the segment that the file can supply. -/
def supply (fs : FileSystem) (file : Executable) (seg : Segment) : ℤ :=
  if fs = .stub ∧ seg.inFileAddr < 0 then 0 else min seg.size (file.length - seg.inFileAddr)

/-- These bytes have their addresses in the first `n` pages. -/
def Within (fs : FileSystem) (file : Executable) (n : ℕ) (seg : Segment) : Prop :=
  0 < supply fs file seg →
    0 ≤ seg.virtualAddr ∧ seg.virtualAddr + supply fs file seg ≤ n * pageSize

instance (fs : FileSystem) (file : Executable) (n : ℕ) (seg : Segment) :
    Decidable (Within fs file n seg) :=
  inferInstanceAs (Decidable (_ → _))

/-- The next copy, if there is one, finds its page in the table and writes into its frame. -/
def CopyConfined (space : AddrSpace) (frames : List ℤ) (r : Reading) : Prop :=
  r.bytesWrote < r.read →
    (0 ≤ r.vaddr.tdiv pageSize ∧ r.vaddr.tdiv pageSize < space.numPages) ∧
      ∃ f ∈ frames, f * pageSize ≤ (space.translate r.vaddr).getD r.physAddr ∧
        (space.translate r.vaddr).getD r.physAddr + rest r.vaddr ≤ (f + 1) * pageSize

/-- Memory is as it was except in the frames. -/
def SameOutside (frames : List ℤ) (before after : Machine) : Prop :=
  ∀ a, a / pageSize ∉ frames → after.mainMemory a = before.mainMemory a

/-- How far a call for a segment has come. -/
structure Progress (fs : FileSystem) (file : Executable) (n : ℕ) (seg : Segment) (r : Reading) :
    Prop where
  size : r.size = seg.size
  fileAddr : r.fileAddr = seg.inFileAddr + r.bytesRead
  nonneg : 0 ≤ r.bytesRead
  lseek : fs = .stub → 0 < r.bytesRead → 0 ≤ seg.inFileAddr
  inFile : 0 < r.bytesRead → r.fileAddr ≤ file.length
  copying : r.bytesWrote < r.read → r.bytesWrote = 0 ∧
    r.vaddr = seg.virtualAddr + r.bytesRead - r.read ∧
    0 ≤ r.vaddr ∧ r.vaddr < n * pageSize ∧ r.read ≤ rest r.vaddr ∧
    (r.read = rest r.vaddr ∨ r.fileAddr = file.length)
  between : ¬r.bytesWrote < r.read →
    r.vaddr = seg.virtualAddr + r.bytesRead ∨ file.length ≤ r.fileAddr

section progress
variable {fs : FileSystem} {file : Executable} {n : ℕ} {seg : Segment} {r : Reading}

theorem progress_start (physAddr : ℤ) : Progress fs file n seg (.start seg physAddr) := by
  constructor <;> simp [Reading.start, Cursor.start]

/-- A call that returns was for a segment that the file has the bytes for. -/
theorem Progress.supplied (h : Progress fs file n seg r) (hlt : ¬r.bytesRead < r.size) :
    Supplied fs file seg := by
  have hsize := h.size
  have hnonneg := h.nonneg
  by_cases hzero : r.bytesRead = 0
  · exact .inl (by omega)
  · have hin := h.inFile (by omega)
    have haddr := h.fileAddr
    exact .inr (.inl (by omega))

theorem Progress.write (h : Progress fs file n seg r) (hinner : r.bytesWrote < r.read)
    (physAddr : ℤ) :
    Progress fs file n seg { r with
      bytesWrote := r.bytesWrote + rest r.vaddr
      physAddr := physAddr
      memBuffer := r.memBuffer + rest r.vaddr
      vaddr := r.vaddr + rest r.vaddr } := by
  obtain ⟨hzero, hvaddr, -, -, hle, hend⟩ := h.copying hinner
  refine ⟨h.size, h.fileAddr, h.nonneg, h.lseek, h.inFile, fun hlt => ?_, fun _ => ?_⟩
  · exact absurd hlt (by simp only; omega)
  · simp only
    rcases hend with hfull | hend
    · exact .inl (by omega)
    · exact .inr hend.ge

theorem Progress.read (h : Progress fs file n seg r) (hwithin : Within fs file n seg)
    (hinner : ¬r.bytesWrote < r.read) (hlt : r.bytesRead < r.size) {k : ℤ}
    (hk : file.readAt fs (rest r.vaddr) r.fileAddr = some k) :
    Progress fs file n seg { r with
      fileAddr := r.fileAddr + k
      bytesRead := r.bytesRead + k
      read := k
      bytesWrote := 0
      memBuffer := 0 } := by
  have hone := (rest_bounds r.vaddr).1
  have hk' := readAt_eq hone hk
  obtain ⟨hsize, haddr, hnonneg, hlseek, hin, -, hbetween⟩ := h
  have hpos : fs = .stub → 0 ≤ r.fileAddr := by
    rintro rfl
    by_contra hneg
    rw [Executable.readAt, if_pos (not_le.mp hneg)] at hk
    cases hk
  have hstub : fs = .stub → 0 ≤ seg.inFileAddr := by
    intro hfs
    have := hpos hfs
    by_cases hzero : r.bytesRead = 0
    · omega
    · exact hlseek hfs (by omega)
  refine ⟨hsize, by simp only; omega, by simp only; omega, fun hfs _ => hstub hfs, fun hread => ?_,
    fun hcopy => ?_, fun hnot => ?_⟩
  · simp only at hread ⊢
    by_cases hzero : r.bytesRead = 0
    · omega
    · have := hin (by omega)
      omega
  · simp only at hcopy ⊢
    have hleft : r.fileAddr < file.length := by omega
    have hvaddr := (hbetween hinner).resolve_right (by omega)
    have hsupply : supply fs file seg = min seg.size (file.length - seg.inFileAddr) := by
      rw [supply, if_neg fun h => absurd (hstub h.1) (not_le.mpr h.2)]
    obtain ⟨hv, hspace⟩ := hwithin (by omega)
    refine ⟨trivial, by omega, by omega, by omega, by omega, by omega⟩
  · simp only at hnot ⊢
    exact .inr (by omega)

end progress

section confined
variable {fs : FileSystem} {file : Executable} {frames : List ℤ}
  {beyond : ℤ → UserTransfers.TranslationEntry} {seg : Segment} {r : Reading}

theorem Progress.copyConfined (h : Progress fs file frames.length seg r)
    (beyond : ℤ → UserTransfers.TranslationEntry) :
    CopyConfined (spaceOf frames beyond) frames r := by
  intro hinner
  obtain ⟨-, -, hnonneg, hlt, -, -⟩ := h.copying hinner
  obtain ⟨v, hv⟩ := Int.eq_ofNat_of_zero_le hnonneg
  have hpage : v / DemandPaging.pageSize < frames.length := by
    apply Nat.div_lt_of_lt_mul
    rw [hv] at hlt
    simp only [pageSize, DemandPaging.pageSize] at *
    omega
  have hdiv : r.vaddr.tdiv pageSize = (v / DemandPaging.pageSize : ℕ) := by
    rw [hv, Int.tdiv_eq_ediv_of_nonneg (Int.natCast_nonneg _)]
    rfl
  have haddr := translate_spaceOf beyond (List.getElem?_eq_getElem hpage)
  rw [← hv] at haddr
  have hrest := rest_eq_sub v
  rw [← hv] at hrest
  refine ⟨⟨?_, ?_⟩, frames[v / DemandPaging.pageSize], List.getElem_mem hpage, ?_, ?_⟩
  · rw [hdiv]
    exact Int.natCast_nonneg _
  · rw [hdiv]
    exact Int.ofNat_lt.mpr hpage
  · rw [haddr, Option.getD_some]
    omega
  · rw [haddr, Option.getD_some, hrest]
    exact le_of_eq (by ring)

/-- A confined copy leaves the other frames alone. -/
theorem CopyConfined.sameOutside {space : AddrSpace} {m : Machine}
    (h : CopyConfined space frames r) (hinner : r.bytesWrote < r.read) :
    SameOutside frames m { m with
      mainMemory := memcpy m.mainMemory ((space.translate r.vaddr).getD r.physAddr) m.diskBuffer
        r.memBuffer (rest r.vaddr) } := by
  intro a ha
  obtain ⟨-, f, hf, hlow, hhigh⟩ := h hinner
  apply UserTransfers.memcpy_of_not_mem
  rintro ⟨hle, hlt⟩
  refine ha ?_
  have hdiv : a / pageSize = f := by
    simp only [pageSize] at *
    omega
  exact hdiv ▸ hf

/-- What holds of the call at work, and of the memory. -/
structure Confined (fs : FileSystem) (file : Executable) (frames : List ℤ) (seg : Segment)
    (before : Machine) (s : Machine × Reading) : Prop where
  within : Within fs file frames.length seg
  progress : Progress fs file frames.length seg s.2
  memory : SameOutside frames before s.1

theorem Confined.turn {before : Machine} {s : Machine × Reading}
    (h : Confined fs file frames seg before s) (beyond : ℤ → UserTransfers.TranslationEntry) :
    (turn fs file (spaceOf frames beyond) s).Satisfies (Confined fs file frames seg before)
      fun m => SameOutside frames before m ∧ Supplied fs file seg := by
  obtain ⟨m, r⟩ := s
  by_cases hinner : r.bytesWrote < r.read
  · rw [turn_write hinner]
    have hcopy := h.progress.copyConfined beyond
    refine ⟨h.within, h.progress.write hinner _, fun a ha => ?_⟩
    exact (hcopy.sameOutside hinner a ha).trans (h.memory a ha)
  by_cases hlt : r.bytesRead < r.size
  · cases hk : file.readAt fs (rest r.vaddr) r.fileAddr with
    | none =>
      simp only [LoaderTurns.turn, if_neg hinner, if_pos hlt, hk]
      trivial
    | some k =>
      rw [turn_read hinner hlt hk]
      exact ⟨h.within, h.progress.read h.within hinner hlt hk, h.memory⟩
  · rw [turn_return hinner hlt]
    exact ⟨h.memory, h.progress.supplied hlt⟩

end confined

/-- The invariant of the whole constructor. Data is loaded only after code. -/
def Load.Confined (fs : FileSystem) (file : Executable) (frames : List ℤ) (h : NoffHeader)
    (before : Machine) : Load → Prop
  | .code s => LoaderTurns.Confined fs file frames h.code before s
  | .initData s => LoaderTurns.Confined fs file frames h.initData before s

theorem loadTurn_confined {fs : FileSystem} {file : Executable} {frames : List ℤ}
    (beyond : ℤ → UserTransfers.TranslationEntry) {h : NoffHeader} {before : Machine}
    (hinit : Supplied fs file h.code → Within fs file frames.length h.initData) (physAddr : ℤ)
    {l : Load} (hl : l.Confined fs file frames h before) :
    (loadTurn fs file (spaceOf frames beyond) h physAddr l).Satisfies
      (Load.Confined fs file frames h before) (SameOutside frames before) := by
  cases l with
  | code s =>
    have hturn := LoaderTurns.Confined.turn hl beyond
    simp only [loadTurn]
    split
    · rename_i t ht
      rw [ht] at hturn
      exact hturn
    · rename_i m hm
      rw [hm] at hturn
      exact ⟨hinit hturn.2, progress_start physAddr, hturn.1⟩
    · trivial
  | initData s =>
    have hturn := LoaderTurns.Confined.turn hl beyond
    simp only [loadTurn]
    split
    · rename_i t ht
      rw [ht] at hturn
      exact hturn
    · rename_i m hm
      rw [hm] at hturn
      exact hturn.1
    · trivial

/-- An executable with code of four bytes at an address, and no data. -/
def placed (low high : UInt8) : List UInt8 :=
  [0xad, 0xdf, 0xba, 0, low, high, 0, 0, 40, 0, 0, 0, 4, 0, 0, 0] ++ List.replicate 24 0 ++ [1, 2, 3, 4]

/-- Frame 0 belongs to another process. -/
def shared : MemoryManager Bool := ⟨(BitMap.create (fun _ => 0) numPhysPages).setBit 0, none⟩

end Nachos.LoaderTurns
