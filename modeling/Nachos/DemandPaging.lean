import Nachos.PhysicalFrames
import Nachos.ReplacementList
import Nachos.SwapManager

/-!
# Demand paging (build with `VM`)

Page tables, frames, the replacement list and the swap slots of all address
spaces. A translation entry is known by its space and its virtual page. A step
is one call of the virtual-memory manager, one access of a user program to a
page that is resident, or one half of a process's exit: `RemovePages` in the
system call and the destructor of the space, between which other processes run.

What the pages are for is a private array of pages for every space. `FlatStep`
says what each step does to these arrays; eviction and replacement do not
appear in it.
-/
namespace Nachos.DemandPaging
open GuardedRuns LinkedCells ReplacementList PhysicalFrames

abbrev pageSize : ℕ := 128

abbrev Page := Fin pageSize → UInt8

structure TranslationEntry where
  physicalPage : ℤ
  valid : Bool
  dirty : Bool

structure State (A : Type) where
  memory : MemoryManager A
  mainMemory : ℤ → Page
  pageTable : A × ℤ → TranslationEntry
  lru : LRU (A × ℤ)
  swap : SwapManager (A × ℤ) Page
  live : List A
  /-- spaces after `RemovePages` and before their destructor -/
  exiting : List A
  pid : A → ℤ
  numPages : A → ℕ

inductive Label (A : Type) where
  /-- a forked space copies the dirty bits of its parent -/
  | create (a : A) (pid : ℤ) (numPages : ℕ) (dirty : ℤ → Bool)
  | addPage (a : A) (vpn : ℤ) (buffer : Option Page)
  | fault (a : A) (vpn : ℤ)
  | write (a : A) (vpn : ℤ) (offset : Fin pageSize) (byte : UInt8)
  | removePages (a : A)
  | deleteSpace (a : A)

variable {A : Type}

/-- New managers over any contents of their storage, and no process. -/
def initial (frames slots : ℕ → Word) (mainMemory : ℤ → Page) (pids : ℕ → ℤ)
    (entries : ℕ → Option (A × ℤ)) (swap : ℕ → Page) : State A where
  memory := ⟨BitMap.create frames numPhysPages, none⟩
  mainMemory := mainMemory
  pageTable _ := ⟨-1, false, false⟩
  lru := .create
  swap := .create slots pids entries swap
  live := []
  exiting := []
  pid _ := -1
  numPages _ := 0

abbrev State.frame (s : State A) (k : A × ℤ) : ℤ := (s.pageTable k).physicalPage

def clearFrames (m : MemoryManager A) : List ℤ → Option (MemoryManager A)
  | [] => some m
  | f :: fs => (m.clearPage f).bind fun m => clearFrames m fs

variable [DecidableEq A]

/-- The part of `VMManager::Swap` for a frame that is free. -/
def State.swapFree (s : State A) (a : A) (vpn : ℤ) : Option (State A) :=
  let r := s.memory.getPage
  ((s.swap.findPage Prod.snd (s.pid a) vpn).bind id).bind fun p =>
  (s.lru.addPage p.1 (s.pid a)).map fun lru =>
  { s with
    memory := r.2
    mainMemory := Function.update s.mainMemory r.1 p.2
    pageTable := Function.update s.pageTable p.1 ⟨r.1, true, false⟩
    lru := lru }

/-- A dirty victim is written back under the id of the process that faults. -/
def State.writeBack (s : State A) (a : A) (victim : A × ℤ) :
    Option (SwapManager (A × ℤ) Page) :=
  if (s.pageTable victim).dirty then
    s.swap.writePage Prod.snd (s.pid a) victim.2 (s.mainMemory (s.frame victim))
  else some s.swap

/-- The part of `VMManager::Swap` that takes the frame of a victim. -/
def State.swapVictim (s : State A) (a : A) (vpn : ℤ) : Option (State A) :=
  s.lru.getLRU.bind fun victim =>
  (s.writeBack a victim).bind fun swap =>
  ((swap.findPage Prod.snd (s.pid a) vpn).bind id).bind fun p =>
  (s.lru.addPage p.1 (s.pid a)).bind fun lru =>
  lru.removeLRUPage.map fun lru =>
  { s with
    mainMemory := Function.update s.mainMemory (s.frame victim) p.2
    pageTable := Function.update
      (Function.update s.pageTable victim { s.pageTable victim with valid := false })
      p.1 ⟨s.frame victim, true, false⟩
    lru := lru
    swap := swap }

/-- `VMManager::Swap` -/
def State.swapIn (s : State A) (a : A) (vpn : ℤ) : Option (State A) :=
  if s.memory.freePages.1 ≠ 0 then s.swapFree a vpn else s.swapVictim a vpn

/-- The frames that the destructor clears. -/
def State.validFrames (s : State A) (a : A) : List ℤ :=
  ((List.range (s.numPages a)).filter fun v => (s.pageTable (a, (v : ℤ))).valid).map
    fun v => s.frame (a, (v : ℤ))

/-- `none` is a step that cannot be taken: the process is not there, the page is
or is not resident, or the simulator stops on a bad pointer, an assertion or a
full swap file. -/
def step (s : State A) : Label A → Option (State A)
  | .create a pid n dirty =>
    if a ∉ s.live ∧ a ∉ s.exiting ∧ ∀ b ∈ s.live, s.pid b ≠ pid then
      some { s with
        pageTable := fun k => if k.1 = a then ⟨-1, false, dirty k.2⟩ else s.pageTable k
        live := a :: s.live
        pid := Function.update s.pid a pid
        numPages := Function.update s.numPages a n }
    else none
  | .addPage a vpn buffer =>
    if a ∈ s.live ∧ (0 ≤ vpn ∧ vpn < s.numPages a) ∧ (s.pageTable (a, vpn)).valid = false then
      (match buffer with
        | some p => s.swap.addPage Prod.snd (a, vpn) (s.pid a) p
        | none => s.swap.reservePage Prod.snd (a, vpn) (s.pid a)).map fun swap =>
      { s with swap := swap }
    else none
  | .fault a vpn =>
    if a ∈ s.live ∧ (s.pageTable (a, vpn)).valid = false then s.swapIn a vpn else none
  | .write a vpn offset byte =>
    if a ∈ s.live ∧ (s.pageTable (a, vpn)).valid = true then
      let f := s.frame (a, vpn)
      some { s with
        mainMemory := Function.update s.mainMemory f
          (Function.update (s.mainMemory f) offset byte)
        pageTable := Function.update s.pageTable (a, vpn)
          { s.pageTable (a, vpn) with dirty := true } }
    else none
  | .removePages a =>
    if a ∈ s.live then
      (s.lru.removePage (s.pid a)).bind fun r =>
      (clearFrames s.memory (r.2.map s.frame)).map fun m =>
      { s with
        memory := m
        lru := r.1
        swap := s.swap.removePages (s.pid a)
        live := s.live.filter (· ≠ a)
        exiting := a :: s.exiting }
    else none
  | .deleteSpace a =>
    if a ∈ s.exiting then
      (clearFrames s.memory (s.validFrames a)).map fun m =>
      { s with memory := m, exiting := s.exiting.filter (· ≠ a) }
    else none

def Step (s : State A) (l : Label A) (t : State A) : Prop := step s l = some t

/-- A user read of a resident page. -/
def State.read (s : State A) (a : A) (vpn : ℤ) (offset : Fin pageSize) : Option UInt8 :=
  if a ∈ s.live ∧ (s.pageTable (a, vpn)).valid = true then
    some (s.mainMemory (s.frame (a, vpn)) offset)
  else none

/-- One private array of pages for every space; `none` is a page that was not
registered. -/
abbrev Flat (A : Type) := A × ℤ → Option Page

/-- A page registered without a buffer starts with any contents. -/
inductive FlatStep : Flat A → Label A → Flat A → Prop
  | create (m : Flat A) (a : A) (pid : ℤ) (n : ℕ) (dirty : ℤ → Bool) :
      FlatStep m (.create a pid n dirty) m
  | load (m : Flat A) (a : A) (vpn : ℤ) (p : Page) :
      FlatStep m (.addPage a vpn (some p)) (Function.update m (a, vpn) (some p))
  | reserve (m : Flat A) (a : A) (vpn : ℤ) (p : Page) : m (a, vpn) = none →
      FlatStep m (.addPage a vpn none) (Function.update m (a, vpn) (some p))
  | keep (m : Flat A) (a : A) (vpn : ℤ) (p : Page) : m (a, vpn) = some p →
      FlatStep m (.addPage a vpn none) m
  | fault (m : Flat A) (a : A) (vpn : ℤ) : FlatStep m (.fault a vpn) m
  | write (m : Flat A) (a : A) (vpn : ℤ) (offset : Fin pageSize) (byte : UInt8) (p : Page) :
      m (a, vpn) = some p → FlatStep m (.write a vpn offset byte)
        (Function.update m (a, vpn) (some (Function.update p offset byte)))
  | removePages (m : Flat A) (a : A) :
      FlatStep m (.removePages a) fun k => if k.1 = a then none else m k
  | deleteSpace (m : Flat A) (a : A) : FlatStep m (.deleteSpace a) m

def State.Resident (s : State A) (k : A × ℤ) : Prop :=
  k.1 ∈ s.live ∧ (s.pageTable k).valid = true

/-- The condition of the steps that leave every private array alone. A victim
that is dirty belongs to the process that faults: `tailPid` is the id that
`Swap` reads and does not use. A destructor finds none of its frames in use by
a page that another process brought in after `RemovePages`. -/
def Fair (s : State A) : Label A → Prop
  | .fault a _ => s.memory.freePages.1 = 0 → ∀ victim, s.lru.getLRU = some victim →
      (s.pageTable victim).dirty = true → s.lru.tailPid = some (s.pid a)
  | .deleteSpace a => ∀ f ∈ s.validFrames a, ∀ k, s.Resident k → s.frame k ≠ f
  | _ => True

end Nachos.DemandPaging
