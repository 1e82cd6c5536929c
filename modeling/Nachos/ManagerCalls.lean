import Nachos.LockedRoutines
import Nachos.OpenFileTable
import Nachos.PhysicalFrames
import Nachos.ProcessManager

/-!
# The routines of the managers with their locks

`MemoryManager`, `ProcessManager` and `SysOpenFileManager` guard their tables with a lock
each, and every branch of a routine releases it on its own. The routines stand here lock
operation by lock operation, with the failed assertions of the bit maps, the accesses to
the arrays of the process manager outside of `[0, MAX_PROCESS)` and the uses of a `NULL`
pointer as the ways in which they stop. `AddProcess` writes the cell `-1` for a process
without an id, which is no cell of the arrays. The locks and conditions of the processes
are numbered as they are made. The functions of the other modules are what the routines
compute on the tables.
-/
namespace Nachos.ManagerCalls
open GuardedRuns LockedRoutines OpenFileTable
open PhysicalFrames (numPhysPages)

inductive Manager where
  | memory
  | processes
  | files
  deriving DecidableEq, Repr

/-- `mem_lock`, `pm_lock`, `fm_lock` and the locks of the processes. -/
inductive LockName where
  | own (m : Manager)
  | pcb (lock : ℕ)
  deriving DecidableEq, Repr

inductive Stop where
  | assertion (m : Manager)
  | outside
  | null
  deriving DecidableEq, Repr

inductive Answer (N F : Type) where
  | void
  | number (n : ℤ)
  | file (f : Option (SysOpenFile N F))

structure Store (P N F : Type) where
  bitMem : BitMap
  table : ProcessTable P
  locks : ℤ → Option ℕ
  conditions : ℤ → Option ℕ
  fresh : ℕ
  pid : P → ℤ
  status : P → ℤ
  files : SysOpenFileManager N F

variable {P N F : Type}

/-- The loops are those of `ProcessManager::Join`, one for each id. -/
abbrev Routine (P N F : Type) := Code LockName ℕ (Store P N F) ℤ (Answer N F) Stop

def test (pid : ℤ) (k : Bool → Routine P N F) : Routine P N F :=
  .act id fun s =>
    match s.table.processIDs.test pid with
    | none => .stop (.assertion .processes)
    | some marked => k marked

section processes
variable (maxProcess : ℕ) (pid : ℤ)

/-- An access to the cell `pid` of one of the arrays. -/
def index (k : Routine P N F) : Routine P N F :=
  if 0 ≤ pid ∧ pid < maxProcess then k else .stop .outside

/-- The object that a cell of `locks` or `conditions` points to. -/
def pointer (array : Store P N F → ℤ → Option ℕ) (k : ℕ → Routine P N F) : Routine P N F :=
  index maxProcess pid <| .act id fun s =>
    match array s pid with
    | none => .stop .null
    | some n => k n

/-- The two tests at the head of the routines, with the `Release` of each. -/
def checked (refused accepted : Routine P N F) : Routine P N F :=
  .acquire (.own .processes) <|
    if pid > maxProcess then .release (.own .processes) refused
    else test pid fun marked =>
      if marked then accepted else .release (.own .processes) refused

def setTable (f : ProcessTable P → ProcessTable P) (s : Store P N F) : Store P N F :=
  { s with table := f s.table }

def addProcess : Option P → Routine P N F
  | none => .acquire (.own .processes) (.ret .void)
  | some pcb =>
    .acquire (.own .processes) <|
    .act (fun s => { s with
      table := s.table.addProcess pcb (s.pid pcb)
      conditions := Function.update s.conditions (s.pid pcb) (some s.fresh)
      locks := Function.update s.locks (s.pid pcb) (some s.fresh)
      fresh := s.fresh + 1 }) fun _ =>
    .release (.own .processes) (.ret .void)

def getPID : Routine P N F :=
  .act (setTable fun pm => pm.getPID.2) fun s => .ret (.number s.table.getPID.1)

/-- `processIDs->Clear(pid)` -/
def clearID (k : Routine P N F) : Routine P N F :=
  .act (setTable fun pm => (pm.clearID pid).getD pm) fun s =>
    if (s.table.clearID pid).isSome then k else .stop (.assertion .processes)

def clearPID : Routine P N F :=
  checked maxProcess pid (.ret .void) <|
    pointer maxProcess pid Store.locks fun l =>
    .acquire (.pcb l) <|
    index maxProcess pid <|
    .act (setTable fun pm => pm.dropPCB pid) fun _ =>
    .act (fun s => { s with conditions := Function.update s.conditions pid none }) fun _ =>
    pointer maxProcess pid Store.locks fun l =>
    .release (.pcb l) <|
    .act (fun s => { s with locks := Function.update s.locks pid none }) fun _ =>
    clearID pid <|
    .release (.own .processes) (.ret .void)

def join : Routine P N F :=
  checked maxProcess pid (.ret .void) <|
    pointer maxProcess pid Store.locks fun l =>
    .acquire (.pcb l) <|
    index maxProcess pid <|
    .act (setTable fun pm => pm.countJoin pid) fun _ =>
    .release (.own .processes) (.loop pid)

/-- The body of `while(1)` in `Join`. -/
def joinTurn : Routine P N F :=
  .acquire (.own .processes) <|
  index maxProcess pid <|
  .act id fun s =>
    match s.table.pcbs pid with
    | none => .stop .null
    | some pcb =>
      if s.status pcb > -1 then
        pointer maxProcess pid Store.locks fun l =>
        .release (.pcb l) <|
        .release (.own .processes) (.ret .void)
      else
        .release (.own .processes) <|
        pointer maxProcess pid Store.conditions fun c =>
        pointer maxProcess pid Store.locks fun l =>
        .wait c (.pcb l) (.loop pid)

/-- The count is read after the `Release`. -/
def getJoins : Routine P N F :=
  checked maxProcess pid (.ret (.number (-1))) <|
    .release (.own .processes) <|
    index maxProcess pid <|
    .act id fun s => .ret (.number (s.table.joins pid))

/-- The bit is tested twice. -/
def decrementJoins : Routine P N F :=
  checked maxProcess pid (.ret .void) <|
    test pid fun marked =>
      if marked then
        index maxProcess pid <|
        .act (setTable fun pm => pm.uncountJoin pid) fun _ =>
        .release (.own .processes) (.ret .void)
      else .release (.own .processes) (.ret .void)

def broadcast : Routine P N F :=
  checked maxProcess pid (.ret .void) <|
    pointer maxProcess pid Store.locks fun l =>
    .acquire (.pcb l) <|
    pointer maxProcess pid Store.conditions fun c =>
    pointer maxProcess pid Store.locks fun l =>
    .broadcast c (.pcb l) <|
    pointer maxProcess pid Store.locks fun l =>
    .release (.pcb l) <|
    .release (.own .processes) (.ret .void)

/-- The control block is read after the `Release`. -/
def getStatus : Routine P N F :=
  checked maxProcess pid (.ret (.number (-1))) <|
    .release (.own .processes) <|
    index maxProcess pid <|
    .act id fun s =>
      match s.table.pcbs pid with
      | none => .stop .null
      | some pcb => .ret (.number (s.status pcb))

end processes

section memory

def getPage : Routine P N F :=
  .acquire (.own .memory) <|
  .act (fun s => { s with bitMem := s.bitMem.find.2 }) fun s =>
  .release (.own .memory) (.ret (.number s.bitMem.find.1))

/-- There is no `Release` for a page that does not exist. -/
def clearPage (i : ℤ) : Routine P N F :=
  .acquire (.own .memory) <|
    if i > numPhysPages ∨ i < 0 then .ret .void
    else
      .act (fun s => { s with bitMem := (s.bitMem.clear i).getD s.bitMem }) fun s =>
        if (s.bitMem.clear i).isSome then .release (.own .memory) (.ret .void)
        else .stop (.assertion .memory)

def freePages : Routine P N F :=
  .acquire (.own .memory) <|
  .act id fun s => .release (.own .memory) (.ret (.number s.bitMem.numClear))

end memory

section files

def setFiles (f : SysOpenFileManager N F → SysOpenFileManager N F) (s : Store P N F) :
    Store P N F :=
  { s with files := f s.files }

/-- A `NULL` entry is stored before it is used. -/
def add (f : Option (SysOpenFile N F)) : Routine P N F :=
  .acquire (.own .files) <|
  .act (setFiles fun m => { m with bitMap := m.bitMap.find.2 }) fun s =>
    let index := s.files.bitMap.find.1
    if index < 0 then .release (.own .files) (.ret (.number (-1)))
    else
      match f with
      | none => .stop .null
      | some f =>
        .act (setFiles fun m => m.set index.toNat { f with fileID := index + 2 }) fun _ =>
        .release (.own .files) (.ret (.number index))

/-- `Get` by name, with the index for the caller; a `NULL` name is compared with the first entry. -/
def get [DecidableEq N] (fileName : Option N) : Routine P N F :=
  .acquire (.own .files) <|
  .act id fun s =>
    match fileName with
    | none => if s.files.bitMap.bit 0 then .stop .null
      else .release (.own .files) (.ret (.file none))
    | some name =>
      match s.files.getByName name with
      | none => .release (.own .files) (.ret (.file none))
      | some i => .release (.own .files) <|
          .act id fun s => .ret (.file (some (s.files.sysOpenFileTable i)))

def testFile (i : ℤ) (k : Bool → Routine P N F) : Routine P N F :=
  .act id fun s =>
    match s.files.bitMap.test i with
    | none => .stop (.assertion .files)
    | some marked => k marked

def getIndex (i : ℤ) : Routine P N F :=
  .acquire (.own .files) <|
    if i ≥ sofileTableSize then .release (.own .files) (.ret (.file none))
    else testFile i fun marked =>
      if marked then .release (.own .files) <|
        .act id fun s => .ret (.file (some (s.files.sysOpenFileTable i.toNat)))
      else .release (.own .files) (.ret (.file none))

def close (i : ℤ) : Routine P N F :=
  .acquire (.own .files) <|
    if i ≥ sofileTableSize then .release (.own .files) (.ret .void)
    else testFile i fun marked =>
      if marked then
        .act (setFiles fun m => (m.close i).getD m) fun _ => .release (.own .files) (.ret .void)
      else .release (.own .files) (.ret .void)

end files

/-! ### The routines and the tables -/

section tables
variable {maxProcess : ℕ} {pid : ℤ} {owns : LockName → Bool} {s : Store P N F}

/-- The tests at the head find out what `known` says. -/
theorem perform_checked (hbits : s.table.processIDs.numBits = maxProcess) {marked : Bool}
    (hknown : s.table.known pid = some marked) (refused accepted : Routine P N F) :
    (checked maxProcess pid refused accepted).perform owns s =
      (if marked then accepted else refused).perform
        (Function.update owns (.own .processes) true) s := by
  rw [ProcessTable.known, hbits] at hknown
  rw [checked, Code.perform]
  by_cases hmax : pid > maxProcess
  · rw [if_pos hmax] at hknown ⊢
    obtain rfl := Option.some.inj hknown
    rfl
  · rw [if_neg hmax] at hknown ⊢
    simp only [test, Code.perform, hknown, id]
    cases marked <;> rfl

theorem index_eq (h : s.table.Marked pid) (hbits : s.table.processIDs.numBits = maxProcess)
    (k : Routine P N F) : index maxProcess pid k = k := by
  obtain ⟨⟨h0, hlt⟩, -⟩ := h
  rw [hbits] at hlt
  exact if_pos ⟨h0, hlt⟩

theorem known_cases (hbits : s.table.processIDs.numBits = maxProcess) (h0 : 0 ≤ pid)
    (hne : pid ≠ maxProcess) :
    (s.table.known pid = some true ∧ s.table.Marked pid) ∨ s.table.known pid = some false := by
  by_cases hm : s.table.Marked pid
  · exact .inl ⟨(s.table.known_eq_true_iff pid).2 hm, hm⟩
  · right
    have hknown : s.table.known pid ≠ some true := fun h =>
      hm ((s.table.known_eq_true_iff pid).1 h)
    rw [ProcessTable.known, hbits, BitMap.test] at hknown ⊢
    split_ifs at hknown ⊢ with hmax hin
    · rfl
    · simpa using hknown
    · exact absurd ⟨h0, by omega⟩ hin

variable (hbits : s.table.processIDs.numBits = maxProcess) (h0 : 0 ≤ pid) (hne : pid ≠ maxProcess)
include hbits h0 hne

theorem perform_clearPID (hlock : s.table.Marked pid → (s.locks pid).isSome) :
    some ((clearPID maxProcess pid).perform owns s).2.table = s.table.clearPID pid := by
  rw [clearPID]
  rcases known_cases hbits h0 hne with ⟨hknown, hm⟩ | hknown
  · obtain ⟨l, hl⟩ := Option.isSome_iff_exists.1 (hlock hm)
    have hdrop : (s.table.dropPCB pid).Marked pid := ProcessTable.marked_dropPCB.2 hm
    obtain ⟨table, htable⟩ := ProcessTable.clearID_isSome hdrop
    rw [perform_checked hbits hknown, ProcessTable.clearPID, hknown]
    simp [pointer, index_eq hm hbits, Code.perform, hl, clearID, setTable, htable]
  · rw [perform_checked hbits hknown, ProcessTable.clearPID, hknown]
    rfl

theorem perform_join (hlock : s.table.Marked pid → (s.locks pid).isSome) :
    ((join maxProcess pid).perform owns s).2.table =
      if s.table.Marked pid then s.table.countJoin pid else s.table := by
  rw [join]
  rcases known_cases hbits h0 hne with ⟨hknown, hm⟩ | hknown
  · obtain ⟨l, hl⟩ := Option.isSome_iff_exists.1 (hlock hm)
    rw [perform_checked hbits hknown, if_pos hm]
    simp [pointer, index_eq hm hbits, Code.perform, hl, setTable]
  · rw [perform_checked hbits hknown, if_neg (ProcessTable.not_marked_of_known_false hknown)]
    rfl

theorem perform_getJoins :
    ∃ n, ((getJoins maxProcess pid).perform owns s).1 = .returned (.number n) ∧
      s.table.getJoins pid = some n := by
  rw [getJoins]
  rcases known_cases hbits h0 hne with ⟨hknown, hm⟩ | hknown
  · rw [perform_checked hbits hknown, ProcessTable.getJoins, hknown]
    exact ⟨s.table.joins pid, by simp [index_eq hm hbits, Code.perform], rfl⟩
  · rw [perform_checked hbits hknown, ProcessTable.getJoins, hknown]
    exact ⟨-1, rfl, rfl⟩

/-- The second test of the bit finds what the first one found. -/
theorem perform_decrementJoins :
    some ((decrementJoins maxProcess pid).perform owns s).2.table =
      s.table.decrementJoins pid := by
  rw [decrementJoins]
  rcases known_cases hbits h0 hne with ⟨hknown, hm⟩ | hknown
  · rw [perform_checked hbits hknown, ProcessTable.decrementJoins, hknown]
    simp [test, BitMap.test, hm.1, hm.2, index_eq hm hbits, Code.perform, setTable]
  · rw [perform_checked hbits hknown, ProcessTable.decrementJoins, hknown]
    rfl

theorem perform_getStatus (hpcb : s.table.Marked pid → (s.table.pcbs pid).isSome) :
    ∃ n, ((getStatus maxProcess pid).perform owns s).1 = .returned (.number n) ∧
      s.table.getStatus s.status pid = some n := by
  rw [getStatus]
  rcases known_cases hbits h0 hne with ⟨hknown, hm⟩ | hknown
  · obtain ⟨c, hc⟩ := Option.isSome_iff_exists.1 (hpcb hm)
    rw [perform_checked hbits hknown, ProcessTable.getStatus, hknown]
    refine ⟨s.status c, ?_, ?_⟩
    · simp [index_eq hm hbits, Code.perform, hc]
    · simp [hc]
  · rw [perform_checked hbits hknown, ProcessTable.getStatus, hknown]
    exact ⟨-1, rfl, rfl⟩

omit hbits h0 hne in
theorem perform_add (f : SysOpenFile N F) :
    (add (some f)).perform owns s =
      (.returned (.number (s.files.add f).1), { s with files := (s.files.add f).2 }) := by
  by_cases hfull : s.files.bitMap.find.1 < 0
  · have hfind : s.files.bitMap.find.2 = s.files.bitMap := by
      rcases BitMap.find_cases s.files.bitMap with ⟨i, -, -, -, hfind⟩ | ⟨-, hfind⟩
      · rw [hfind] at hfull
        omega
      · rw [hfind]
    simp [add, Code.perform, SysOpenFileManager.add, hfull, setFiles, hfind]
  · simp [add, Code.perform, SysOpenFileManager.add, hfull, setFiles]

end tables

/-! ### The program -/

/-- The routines with any arguments; `setStatus` is the one of `PCB`, which takes no lock. -/
inductive Call (P N F : Type) where
  | getPage
  | clearPage (i : ℤ)
  | freePages
  | addProcess (pcb : Option P)
  | getPID
  | clearPID (pid : ℤ)
  | join (pid : ℤ)
  | getJoins (pid : ℤ)
  | decrementJoins (pid : ℤ)
  | broadcast (pid : ℤ)
  | getStatus (pid : ℤ)
  | add (f : Option (SysOpenFile N F))
  | get (fileName : Option N)
  | getIndex (i : ℤ)
  | close (i : ℤ)
  | setStatus (pcb : P) (status : ℤ)

variable [DecidableEq P] [DecidableEq N]

def program (maxProcess : ℕ) :
    Program (Call P N F) LockName ℕ (Store P N F) ℤ (Answer N F) Stop where
  entry
    | .getPage => getPage
    | .clearPage i => clearPage i
    | .freePages => freePages
    | .addProcess pcb => addProcess pcb
    | .getPID => getPID
    | .clearPID pid => clearPID maxProcess pid
    | .join pid => join maxProcess pid
    | .getJoins pid => getJoins maxProcess pid
    | .decrementJoins pid => decrementJoins maxProcess pid
    | .broadcast pid => broadcast maxProcess pid
    | .getStatus pid => getStatus maxProcess pid
    | .add f => add f
    | .get name => get name
    | .getIndex i => getIndex i
    | .close i => close i
    | .setStatus pcb status =>
      .act (fun s => { s with status := Function.update s.status pcb status }) fun _ => .ret .void
  turn pid := joinTurn maxProcess pid

abbrev State (T P N F : Type) :=
  LockedRoutines.State T LockName ℕ (Store P N F) ℤ (Answer N F) Stop

/-- New managers; everything else is as the storage held it. -/
def initial {T : Type} (maxProcess : ℕ) (storage : Store P N F)
    (currentTh : LockName → Option T) : State T P N F where
  data := { storage with
    bitMem := BitMap.create storage.bitMem.map numPhysPages
    table := { storage.table with
      processIDs := BitMap.create storage.table.processIDs.map maxProcess }
    files := { storage.files with
      bitMap := BitMap.create storage.files.bitMap.map sofileTableSize } }
  lockTaken _ := false
  currentTh := currentTh
  thread _ := .idle

end Nachos.ManagerCalls
