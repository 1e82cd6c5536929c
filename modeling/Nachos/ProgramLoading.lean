import Nachos.DemandPaging

/-!
# Loading a program (`userprog/addrspace.cc`)

The constructor of `AddrSpace` reads the NOFF header of an executable, makes a page
table and copies the segments for code and initialised data with `ReadFile`, one page
or the rest of a page at a time. There are two of them. Without `VM` the pages get
frames and `ReadFile` copies into main memory. With `VM` it copies into swap slots, and
the pages that no segment is meant for get slots in which nothing is written.

An executable is the list of its bytes. `none` is a constructor that does not return:
an assertion, no memory left, a loop at the end of the file that reads nothing, or a
header whose segments are outside of the page table.
-/
namespace Nachos.Loading
open DemandPaging
open PhysicalFrames (MemoryManager numPhysPages)

structure Segment where
  virtualAddr : ℤ
  inFileAddr : ℤ
  size : ℤ
  deriving DecidableEq, Repr

structure NoffHeader where
  code : Segment
  initData : Segment
  uninitData : Segment
  deriving DecidableEq, Repr

/-- An `int` in the file, the low byte first. -/
def wordAt (file : List UInt8) (p : ℕ) : ℤ :=
  (BitVec.ofNat 32 ((file.getD p 0).toNat + 2 ^ 8 * (file.getD (p + 1) 0).toNat +
    2 ^ 16 * (file.getD (p + 2) 0).toNat + 2 ^ 24 * (file.getD (p + 3) 0).toNat)).toInt

def segmentAt (file : List UInt8) (p : ℕ) : Segment :=
  ⟨wordAt file p, wordAt file (p + 4), wordAt file (p + 8)⟩

/-- The header, with the assertion about `NOFFMAGIC`. A shorter file leaves a part of the
header as it was on the stack. -/
def NoffHeader.read (file : List UInt8) : Option NoffHeader :=
  if file.length < 40 ∨ wordAt file 0 ≠ 0xbadfad then none
  else some ⟨segmentAt file 4, segmentAt file 16, segmentAt file 28⟩

abbrev userStackSize : ℕ := 1024

/-- `divRoundUp(size, PageSize)`; `size` is unsigned. -/
def NoffHeader.numPages (h : NoffHeader) : ℕ :=
  let size := ((h.code.size + h.initData.size + h.uninitData.size + userStackSize) % 2 ^ 32).toNat
  size / pageSize + if size % pageSize > 0 then 1 else 0

/-- The byte of a page at an address in it. -/
abbrev Page.byte (p : Page) (a : ℕ) : UInt8 := p (Fin.ofNat pageSize a)

/-- `memcpy(page + offset, buffer, PageSize - offset)` -/
def merge (page : Page) (offset : ℕ) (buffer : Page) : Page := fun i =>
  if offset ≤ i then Page.byte buffer (i - offset) else page i

section readFile
variable {σ : Type} (put : σ → (vpn offset : ℕ) → Page → Option σ) (advance : ℕ → ℕ → ℕ)
  (file : List UInt8)

/-- `ReadAt(diskBuffer, numBytes, position)`: the number of bytes read, and the buffer. -/
def readAt (numBytes position : ℕ) (diskBuffer : Page) : ℕ × Page :=
  let n := min numBytes (file.length - position)
  (n, fun i => if i < n then file.getD (position + i) 0 else diskBuffer i)

/-- The loop of both `ReadFile` functions. `put` stores a buffer at a place in a page, and
`advance` is what is added to `vaddr` for the number of bytes read and the rest of the
page. Every turn that reads something makes progress, so `size` is enough fuel. -/
def readLoop : ℕ → σ → Page → (vaddr size fileAddr : ℕ) → Option (σ × Page)
  | 0, s, diskBuffer, _, size, _ => if size = 0 then some (s, diskBuffer) else none
  | fuel + 1, s, diskBuffer, vaddr, size, fileAddr =>
    if size = 0 then some (s, diskBuffer)
    else
      let offset := vaddr % pageSize
      let r := readAt file (pageSize - offset) fileAddr diskBuffer
      if r.1 = 0 then none
      else
        (put s (vaddr / pageSize) offset r.2).bind fun s =>
        readLoop fuel s r.2 (vaddr + advance r.1 (pageSize - offset)) (size - r.1) (fileAddr + r.1)

/-- `ReadFile` for a segment that has a size. A negative address is an index before the page
table or before the file. -/
def readFile (seg : Segment) (s : σ) (diskBuffer : Page) : Option (σ × Page) :=
  if seg.size > 0 then
    if seg.virtualAddr < 0 ∨ seg.inFileAddr < 0 then none
    else readLoop put advance file seg.size.toNat s diskBuffer seg.virtualAddr.toNat
      seg.size.toNat seg.inFileAddr.toNat
  else some (s, diskBuffer)

def readSegments (h : NoffHeader) (s : σ) (diskBuffer : Page) : Option (σ × Page) :=
  (readFile put advance file h.code s diskBuffer).bind fun r =>
  readFile put advance file h.initData r.1 r.2

end readFile

section physical
variable {A : Type}

/-- The machine without `VM`. -/
structure Machine (A : Type) where
  memory : MemoryManager A
  mainMemory : ℤ → Page
  diskBuffer : Page

/-- One call of `getPage` for every page. -/
def getPages : ℕ → MemoryManager A → List ℤ × MemoryManager A
  | 0, m => ([], m)
  | n + 1, m =>
    let r := m.getPage
    let rs := getPages n r.2
    (r.1 :: rs.1, rs.2)

/-- The body of `ReadFile`. The inner loop has one turn, which copies up to the end of the
page. `Translate` gives no address for a page behind the table, and the one right behind it
is read from outside of the table. -/
def putFrame (frames : List ℤ) (mainMemory : ℤ → Page) (vpn offset : ℕ) (diskBuffer : Page) :
    Option (ℤ → Page) :=
  frames[vpn]?.map fun f =>
    Function.update mainMemory f (merge (mainMemory f) offset diskBuffer)

/-- The constructor; the result is the frames in the page table. -/
def Machine.newSpace (m : Machine A) (file : List UInt8) : Option (List ℤ × Machine A) :=
  (NoffHeader.read file).bind fun h =>
  if h.numPages ≤ numPhysPages ∧ h.numPages ≤ m.memory.freePages.1 then
    let r := getPages h.numPages m.memory
    (readSegments (putFrame r.1) (fun _ rest => rest) file h m.mainMemory m.diskBuffer).map
      fun l => (r.1, ⟨r.2, l.1, l.2⟩)
  else none

/-- The byte at a virtual address. -/
def Machine.byteAt (m : Machine A) (frames : List ℤ) (a : ℕ) : Option UInt8 :=
  frames[a / pageSize]?.map fun f => Page.byte (m.mainMemory f) a

end physical

section virtual
variable {A : Type} [DecidableEq A]

/-- The body of `ReadFile` with `VM`. A page that is not in the swap file yet gets the buffer as
it is, whatever the offset. -/
def putSlot (a : A) (s : State A) (vpn offset : ℕ) (diskBuffer : Page) : Option (State A) :=
  (s.swap.findPage Prod.snd (s.pid a) vpn).bind fun r =>
  step s (.addPage a vpn (some (match r with
    | some p => merge p.2 offset diskBuffer
    | none => diskBuffer)))

/-- `ceil((float)(noffH.code.size + noffH.initData.size)/PageSize)`. The numbers that fit in the
swap file are exact as a `float`. -/
def NoffHeader.firstBlank (h : NoffHeader) : ℤ :=
  -(-(h.code.size + h.initData.size) / pageSize)

/-- The pages from `firstBlank` on get slots in which nothing is written. -/
def reservePages (h : NoffHeader) (a : A) (s : State A) : Option (State A) :=
  if h.firstBlank < 0 then none
  else
    (List.range' h.firstBlank.toNat (h.numPages - h.firstBlank.toNat)).foldlM
      (fun s (v : ℕ) => step s (.addPage a v none)) s

/-- The constructor with `VM` for a process that gets the number `pid`. -/
def newSpace (s : State A) (diskBuffer : Page) (a : A) (pid : ℤ) (file : List UInt8) :
    Option (State A × Page) :=
  (NoffHeader.read file).bind fun h =>
  (step s (.create a pid h.numPages fun _ => false)).bind fun s =>
  (readSegments (putSlot a) (fun read _ => read) file h s diskBuffer).bind fun l =>
  (reservePages h a l.1).map fun t => (t, l.2)

/-- The byte that a page fault brings in. -/
def storedByte (s : State A) (a : A) (x : ℕ) : Option UInt8 :=
  ((s.swap.findPage Prod.snd (s.pid a) (x / pageSize : ℕ)).bind id).map fun p => Page.byte p.2 x

end virtual

end Nachos.Loading
