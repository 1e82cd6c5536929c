import Nachos.DeviceCalls

/-!
# `SynchDisk`

The synchronous disk of `filesys/synchdisk.cc` over the raw disk of
`machine/disk.cc`. A request transfers the data at once and schedules an
interrupt; how long the interrupt takes is left open, and it may come as soon as
the request is made, also before the caller has got to `P`. The calls run on the
kernel of `KernelThreads` together with threads that do anything else except
that they cannot use the lock and the semaphore of the disk.
-/
namespace Nachos.SynchDisk
open GuardedRuns KernelThreads DeviceCalls

inductive Request (β : Type*) where
  | read (sectorNumber : ℤ)
  | write (sectorNumber : ℤ) (data : β)
  deriving DecidableEq, Repr

/-- `file` is what the UNIX file holds for each sector, `pending` the number of
scheduled interrupts. -/
structure Disk (β : Type*) where
  active : Bool
  file : ℤ → β
  pending : ℕ

/-- How far a thread has got: at the `Acquire`, at the `P`, in `P` or back from it. -/
inductive Point (β : Type*) where
  | outside
  | acquire (r : Request β)
  | requested (r : Request β) (data : Option β)
  | waits (r : Request β) (data : Option β)
  deriving DecidableEq, Repr

inductive Event (T β : Type*) where
  | requested (t : T) (r : Request β) (data : Option β)
  | completed
  | returned (t : T) (r : Request β) (data : Option β)
  deriving DecidableEq, Repr

structure State (β T S L C : Type*) where
  kernel : Kernel T S L C
  disk : Disk β
  point : T → Point β
  log : List (Event T β)
  failed : Bool

inductive Call (β T S L C : Type*) where
  | sector (r : Request β)
  | goOn
  | interrupt
  | other (a : Label T S L C)

/-- `SectorsPerTrack * NumTracks` -/
def numSectors : ℤ := 32 * 32

variable {β T S L C : Type*}

def Request.sectorNumber : Request β → ℤ
  | .read n => n
  | .write n _ => n

/-- What `ReadRequest` and `WriteRequest` assert of the sector. -/
def Request.Valid (r : Request β) : Prop := 0 ≤ r.sectorNumber ∧ r.sectorNumber < numSectors

instance (r : Request β) : Decidable r.Valid := inferInstanceAs (Decidable (_ ∧ _))

/-- `ReadRequest` and `WriteRequest`, with the data that is read. -/
def Disk.request (d : Disk β) (r : Request β) : Option (Disk β × Option β) :=
  if d.active = false ∧ r.Valid then
    match r with
    | .read n => some ({ d with active := true, pending := d.pending + 1 }, some (d.file n))
    | .write n data => some
        ({ active := true, file := Function.update d.file n data, pending := d.pending + 1 }, none)
  else none

def Disk.handleInterrupt (d : Disk β) : Disk β :=
  { d with active := false, pending := d.pending - 1 }

variable [DecidableEq T] [DecidableEq S] [DecidableEq L] [DecidableEq C]

/-- Calls of the kernel on the private objects of the disk. -/
def usesDisk (lock : L) (semaphore : S) : Label T S L C → Bool
  | .p s => s = semaphore
  | .v s => s = semaphore
  | .handlerV s => s = semaphore
  | .acquire l => l = lock
  | .release l => l = lock
  | .wait _ l => l = lock
  | .signal _ l => l = lock
  | .broadcast _ l => l = lock
  | _ => false

namespace State
variable (lock : L) (semaphore : S) (σ : State β T S L C)

/-- A call of the kernel by `t`, which is then at `p`. -/
def call (t : T) (p : Point β) (a : Label T S L C) : Option (State β T S L C) :=
  (σ.kernel.step a).map fun k => { σ with kernel := k, point := Function.update σ.point t p }

/-- The `Acquire` of `ReadSector` and `WriteSector`. -/
def enter (r : Request β) : Option (State β T S L C) :=
  match σ.kernel.currentThread with
  | none => none
  | some t =>
    match σ.kernel.cont t, σ.point t with
    | .user, .outside => σ.call t (.acquire r) (.acquire lock)
    | _, _ => none

/-- The running thread goes on in `ReadSector` or `WriteSector`. -/
def goOn : Option (State β T S L C) :=
  match σ.kernel.currentThread with
  | none => none
  | some t =>
    match σ.kernel.cont t, σ.point t with
    | .user, .acquire r =>
      match σ.disk.request r with
      | none => some { σ with failed := true }
      | some (d, data) => some { σ with
          disk := d
          point := Function.update σ.point t (.requested r data)
          log := .requested t r data :: σ.log }
    | .user, .requested r data => σ.call t (.waits r data) (.p semaphore)
    | .user, .waits r data =>
      { σ with log := .returned t r data :: σ.log }.call t .outside (.release lock)
    | _, _ => none

/-- `Disk::HandleInterrupt` and `SynchDisk::RequestDone` -/
def interrupt : Option (State β T S L C) :=
  if σ.disk.pending = 0 then none
  else (σ.kernel.step (.handlerV semaphore)).map fun k => { σ with
    kernel := k
    disk := σ.disk.handleInterrupt
    log := .completed :: σ.log }

/-- Steps that have nothing to do with the disk. -/
def allowed (a : Label T S L C) : Bool :=
  !usesDisk lock semaphore a &&
    match a with
    | .yield => true
    | .handlerV _ => true
    | .idleReturn => true
    | _ =>
      match σ.kernel.currentThread with
      | none => false
      | some t =>
        match σ.point t with
        | .outside => true
        | _ => false

def step (a : Call β T S L C) : Option (State β T S L C) :=
  if σ.failed then none
  else
    match a with
    | .sector r => σ.enter lock r
    | .goOn => σ.goOn lock semaphore
    | .interrupt => σ.interrupt semaphore
    | .other a =>
      if σ.allowed lock semaphore a then (σ.kernel.step a).map fun k => { σ with kernel := k }
      else none

end State

def Step (lock : L) (semaphore : S) (σ : State β T S L C) (a : Call β T S L C)
    (σ' : State β T S L C) : Prop :=
  σ.step lock semaphore a = some σ'

/-- The calls name sectors of the disk. -/
def ValidSectors (_ : State β T S L C) : Call β T S L C → Prop
  | .sector r => r.Valid
  | _ => True

instance (σ : State β T S L C) : (a : Call β T S L C) → Decidable (ValidSectors σ a)
  | .sector r => inferInstanceAs (Decidable r.Valid)
  | .goOn => .isTrue trivial
  | .interrupt => .isTrue trivial
  | .other _ => .isTrue trivial

/-- A new disk over a file; the semaphore is constructed with 0. -/
def start (main : T) (value : S → ℤ) (currentTh : L → Option T) (semaphore : S) (file : ℤ → β) :
    State β T S L C where
  kernel := initial main (Function.update value semaphore 0) currentTh
  disk := ⟨false, file, 0⟩
  point := fun _ => .outside
  log := []
  failed := false

inductive Phase (T β : Type*) where
  | idle
  | busy (t : T) (r : Request β) (data : Option β) (done : Bool)

/-- The disk serves one call after the other: the request of a thread, its
completion, the return of that thread with the data of its request. -/
inductive Serial : List (Event T β) → Phase T β → Prop
  | nil : Serial [] .idle
  | requested {t : T} {r : Request β} {data : Option β} {h : List (Event T β)} :
      Serial h .idle → Serial (.requested t r data :: h) (.busy t r data false)
  | completed {t : T} {r : Request β} {data : Option β} {h : List (Event T β)} :
      Serial h (.busy t r data false) → Serial (.completed :: h) (.busy t r data true)
  | returned {t : T} {r : Request β} {data : Option β} {h : List (Event T β)} :
      Serial h (.busy t r data true) → Serial (.returned t r data :: h) .idle

/-- What the last write of a sector stored. -/
def stored (file : ℤ → β) (n : ℤ) : List (Event T β) → β
  | [] => file n
  | .requested _ (.write m data) _ :: h => if m = n then data else stored file n h
  | _ :: h => stored file n h

section runs
variable {lock : L} {semaphore : S} {file : ℤ → β} {σ σ' : State β T S L C} {t : T}

def Point.stage : Point β → Stage
  | .outside => .outside
  | .acquire _ => .acquire
  | .requested _ _ => .requested
  | .waits _ _ => .waits

def Phase.service : Phase T β → Service T
  | .idle => .idle
  | .busy t _ _ done => .busy t done

/-- What the raw disk and the caller that is served have to do with the phase. -/
def Holds (disk : Disk β) (point : T → Point β) : Phase T β → Prop
  | .idle => disk.active = false ∧ disk.pending = 0
  | .busy t r data done => disk.active = !done ∧ disk.pending = (!done).toNat ∧
      (point t = .requested r data ∨ point t = .waits r data)

structure InPhase (lock : L) (semaphore : S) (k : Kernel T S L C) (disk : Disk β)
    (point : T → Point β) (p : Phase T β) : Prop where
  device : Device lock semaphore k (Point.stage ∘ point) p.service
  holds : Holds disk point p

structure DiskInv (lock : L) (semaphore : S) (file : ℤ → β) (σ : State β T S L C) : Prop where
  valid : ∀ t r, σ.point t = .acquire r → r.Valid
  running : σ.failed = false
  phase : ∃ p, Serial σ.log p ∧ InPhase lock semaphore σ.kernel σ.disk σ.point p
  contents : ∀ n, σ.disk.file n = stored file n σ.log
  reads : ∀ t n data h, .requested t (.read n) data :: h <:+ σ.log → data = some (stored file n h)

omit [DecidableEq T] in
/-- The caller keeps its request and its data while another one moves. -/
theorem Holds.frame {disk : Disk β} {point point' : T → Point β} {p : Phase T β}
    (h : Holds disk point p)
    (hpoint : ∀ u, Serving (Point.stage ∘ point) u → point' u = point u) : Holds disk point' p := by
  cases p with
  | idle => exact h
  | busy t r data done =>
    obtain ⟨hactive, hpending, ht⟩ := h
    have hserving : Serving (Point.stage ∘ point) t := by
      rcases ht with ht | ht
      · exact Or.inl (by simp [ht, Point.stage])
      · exact Or.inr (by simp [ht, Point.stage])
    exact ⟨hactive, hpending, by rwa [hpoint t hserving]⟩

theorem call_eq {p : Point β} {a : Label T S L C} (h : σ.call t p a = some σ') :
    ∃ k', σ.kernel.step a = some k' ∧
      σ' = { σ with kernel := k', point := Function.update σ.point t p } := by
  obtain ⟨k', hk, rfl⟩ := Option.map_eq_some_iff.mp h
  exact ⟨k', hk, rfl⟩

omit [DecidableEq S] in
theorem DiskInv.update_acquire (h : DiskInv lock semaphore file σ) {p : Point β}
    (hp : ∀ r, p = .acquire r → r.Valid) (u : T) (r : Request β)
    (hu : Function.update σ.point t p u = .acquire r) : r.Valid := by
  by_cases hut : u = t
  · rw [hut, Function.update_self] at hu
    exact hp r hu
  · rw [Function.update_of_ne hut] at hu
    exact h.valid u r hu

theorem DiskInv.enter {r : Request β} (h : DiskInv lock semaphore file σ) (hr : r.Valid)
    (hstep : σ.enter lock r = some σ') : DiskInv lock semaphore file σ' := by
  unfold State.enter at hstep
  split at hstep
  · cases hstep
  · rename_i t hcur
    split at hstep
    · rename_i hcont hpoint
      obtain ⟨k', hk, rfl⟩ := call_eq hstep
      have hout : (Point.stage ∘ σ.point) t = .outside := congrArg Point.stage hpoint
      obtain ⟨p, hserial, hdevice, hholds⟩ := h.phase
      have hdevice' := hdevice.enter hcur hcont hout hk
      refine ⟨h.update_acquire (by simp [hr]), h.running,
        ⟨p, hserial, ?_, hholds.frame fun u hu => Function.update_of_ne ?_ _ _⟩, h.contents,
        h.reads⟩
      · rw [Function.comp_update]
        exact hdevice'
      · rintro rfl
        rw [Serving, hout] at hu
        simp at hu
    · cases hstep

omit [DecidableEq S] in
/-- The request: the phase is idle because whoever is in a request holds the lock. -/
theorem DiskInv.request {r : Request β} (h : DiskInv lock semaphore file σ)
    (hcont : σ.kernel.cont t = .user) (hpoint : σ.point t = .acquire r) :
    ∃ d data, σ.disk.request r = some (d, data) ∧ DiskInv lock semaphore file { σ with
      disk := d
      point := Function.update σ.point t (.requested r data)
      log := .requested t r data :: σ.log } := by
  obtain ⟨p, hserial, hdevice, hholds⟩ := h.phase
  obtain ⟨hidle, hdevice'⟩ := hdevice.request hcont (congrArg Point.stage hpoint)
  cases p with
  | busy u r' data' done => cases hidle
  | idle =>
    obtain ⟨hactive, hpending⟩ := hholds
    have hphase : ∀ (d : Disk β) data, d.active = true → d.pending = σ.disk.pending + 1 →
        InPhase lock semaphore σ.kernel d (Function.update σ.point t (.requested r data))
          (.busy t r data false) := by
      intro d data hd hd'
      refine ⟨by rw [Function.comp_update]; exact hdevice', hd, by simp [hd', hpending], Or.inl ?_⟩
      exact Function.update_self _ _ _
    cases r with
    | read n =>
      refine ⟨{ σ.disk with active := true, pending := σ.disk.pending + 1 },
        some (σ.disk.file n), by simp [Disk.request, hactive, h.valid t _ hpoint],
        h.update_acquire (by simp), h.running, ⟨_, .requested hserial, hphase _ _ rfl rfl⟩,
        h.contents, fun u m data hist hs => ?_⟩
      rcases List.suffix_cons_iff.mp hs with heq | hs
      · simp only [List.cons.injEq, Event.requested.injEq, Request.read.injEq] at heq
        obtain ⟨⟨-, rfl, rfl⟩, rfl⟩ := heq
        rw [h.contents]
      · exact h.reads u m data hist hs
    | write n bytes =>
      refine ⟨⟨true, Function.update σ.disk.file n bytes, σ.disk.pending + 1⟩, none,
        by simp [Disk.request, hactive, h.valid t _ hpoint], h.update_acquire (by simp), h.running,
        ⟨_, .requested hserial, hphase _ _ rfl rfl⟩, fun m => ?_, fun u m data hist hs => ?_⟩
      · by_cases hm : m = n
        · simp [hm, stored]
        · simp [hm, Ne.symm hm, stored, h.contents]
      · rcases List.suffix_cons_iff.mp hs with heq | hs
        · simp at heq
        · exact h.reads u m data hist hs

theorem DiskInv.wait {r : Request β} {data : Option β} (h : DiskInv lock semaphore file σ)
    (hcur : σ.kernel.currentThread = some t) (hcont : σ.kernel.cont t = .user)
    (hpoint : σ.point t = .requested r data) {k' : Kernel T S L C}
    (hk : σ.kernel.step (.p semaphore) = some k') : DiskInv lock semaphore file { σ with
      kernel := k'
      point := Function.update σ.point t (.waits r data) } := by
  obtain ⟨p, hserial, hdevice, hholds⟩ := h.phase
  have hstage : (Point.stage ∘ σ.point) t = .requested := congrArg Point.stage hpoint
  have hdevice' := hdevice.wait hcur hcont hstage hk
  obtain ⟨done, hp⟩ := hdevice.eq_busy (Or.inl hstage)
  cases p with
  | idle => cases hp
  | busy u r' data' done' =>
    obtain ⟨rfl, rfl⟩ := Service.busy.inj hp
    obtain ⟨hactive, hpending, ht⟩ := hholds
    obtain ⟨rfl, rfl⟩ : r' = r ∧ data' = data := by
      simpa [hpoint, eq_comm] using ht
    refine ⟨h.update_acquire (by simp), h.running, ⟨_, hserial, ?_, hactive, hpending, Or.inr ?_⟩,
      h.contents, h.reads⟩
    · rw [Function.comp_update]
      exact hdevice'
    · exact Function.update_self _ _ _

theorem DiskInv.leave {r : Request β} {data : Option β} (h : DiskInv lock semaphore file σ)
    (hcur : σ.kernel.currentThread = some t) (hcont : σ.kernel.cont t = .user)
    (hpoint : σ.point t = .waits r data) {k' : Kernel T S L C}
    (hk : σ.kernel.step (.release lock) = some k') : DiskInv lock semaphore file { σ with
      kernel := k'
      point := Function.update σ.point t .outside
      log := .returned t r data :: σ.log } := by
  obtain ⟨p, hserial, hdevice, hholds⟩ := h.phase
  obtain ⟨hp, hdevice'⟩ := hdevice.leave hcur hcont (congrArg Point.stage hpoint) hk
  cases p with
  | idle => cases hp
  | busy u r' data' done =>
    obtain ⟨rfl, rfl⟩ := Service.busy.inj hp
    obtain ⟨hactive, hpending, ht⟩ := hholds
    obtain ⟨rfl, rfl⟩ : r' = r ∧ data' = data := by
      simpa [hpoint, eq_comm] using ht
    refine ⟨h.update_acquire (by simp), h.running,
      ⟨.idle, .returned hserial, ?_, hactive, hpending⟩, h.contents, fun u n data' hist hs => ?_⟩
    · rw [Function.comp_update]
      exact hdevice'
    · rcases List.suffix_cons_iff.mp hs with heq | hs
      · simp at heq
      · exact h.reads u n data' hist hs

theorem DiskInv.interrupt (h : DiskInv lock semaphore file σ)
    (hstep : σ.interrupt semaphore = some σ') : DiskInv lock semaphore file σ' := by
  unfold State.interrupt at hstep
  split_ifs at hstep with hzero
  obtain ⟨k', hk, rfl⟩ := Option.map_eq_some_iff.mp hstep
  obtain ⟨p, hserial, hdevice, hholds⟩ := h.phase
  refine ⟨h.valid, h.running, ?_, h.contents, fun u n data hist hs => ?_⟩
  · cases p with
    | idle => exact absurd hholds.2 hzero
    | busy t r data done =>
      obtain ⟨hactive, hpending, ht⟩ := hholds
      cases done with
      | true => exact absurd hpending hzero
      | false => exact ⟨_, .completed hserial, hdevice.interrupt hk, rfl,
          by simp [Disk.handleInterrupt, hpending], ht⟩
  · rcases List.suffix_cons_iff.mp hs with heq | hs
    · simp at heq
    · exact h.reads u n data hist hs

omit [DecidableEq T] [DecidableEq C] in
theorem usesDisk_eq (lock : L) (semaphore : S) (a : Label T S L C) :
    usesDisk lock semaphore a = usesDevice lock semaphore a := by
  cases a <;> rfl

theorem DiskInv.other {a : Label T S L C} (h : DiskInv lock semaphore file σ)
    (ha : σ.allowed lock semaphore a = true) {k' : Kernel T S L C}
    (hk : σ.kernel.step a = some k') : DiskInv lock semaphore file { σ with kernel := k' } := by
  unfold State.allowed at ha
  rw [Bool.and_eq_true, Bool.not_eq_true', usesDisk_eq] at ha
  obtain ⟨huses, ha⟩ := ha
  have hpassive : ∀ t, σ.kernel.currentThread = some t → (Point.stage ∘ σ.point) t ≠ .outside →
      Passive a := by
    intro t hcur hstage
    split at ha
    · trivial
    · trivial
    · trivial
    · rw [hcur] at ha
      dsimp only at ha
      split at ha
      · rename_i hout
        exact absurd (congrArg Point.stage hout) hstage
      · cases ha
  obtain ⟨p, hserial, hdevice, hholds⟩ := h.phase
  exact ⟨h.valid, h.running, ⟨p, hserial, hdevice.other huses hpassive hk, hholds⟩, h.contents,
    h.reads⟩

theorem DiskInv.goOn (h : DiskInv lock semaphore file σ)
    (hstep : σ.goOn lock semaphore = some σ') : DiskInv lock semaphore file σ' := by
  unfold State.goOn at hstep
  split at hstep
  · cases hstep
  · rename_i t hcur
    split at hstep
    · rename_i r hcont hpoint
      obtain ⟨d, data, hreq, hinv⟩ := h.request hcont hpoint
      rw [hreq] at hstep
      obtain rfl := Option.some.inj hstep
      exact hinv
    · rename_i r data hcont hpoint
      obtain ⟨k', hk, rfl⟩ := call_eq hstep
      exact h.wait hcur hcont hpoint hk
    · rename_i r data hcont hpoint
      obtain ⟨k', hk, rfl⟩ := call_eq hstep
      exact h.leave hcur hcont hpoint hk
    · cases hstep

theorem DiskInv.step {a : Call β T S L C} (h : DiskInv lock semaphore file σ)
    (ha : ValidSectors σ a) (hstep : Step lock semaphore σ a σ') :
    DiskInv lock semaphore file σ' := by
  unfold Step State.step at hstep
  rw [if_neg (by simp [h.running])] at hstep
  cases a with
  | sector r => exact h.enter ha hstep
  | goOn => exact h.goOn hstep
  | interrupt => exact h.interrupt hstep
  | other a =>
    dsimp only at hstep
    split_ifs at hstep with hallowed
    obtain ⟨k', hk, rfl⟩ := Option.map_eq_some_iff.mp hstep
    exact h.other hallowed hk

theorem start_diskInv (main : T) (value : S → ℤ) (currentTh : L → Option T) (lock : L)
    (semaphore : S) (file : ℤ → β) :
    DiskInv lock semaphore file (start main value currentTh semaphore file : State β T S L C) :=
  ⟨by simp [start], rfl,
    ⟨.idle, .nil, initial_device lock semaphore main value currentTh, rfl, rfl⟩,
    fun n => rfl, by simp [start]⟩

/-- In every state of a run whose calls name sectors of the disk: no assertion of
the disk has failed; the requests, completions and returns follow each other one
call at a time, so that a call returns after the completion of its own request;
every read has given the data of the last write of the sector, in the order of
the requests; and a thread that goes on in a call with the processor holds the
lock, so that this is the order in which the lock was granted. -/
theorem synchDisk_serial (lock : L) (semaphore : S) (main : T) (value : S → ℤ)
    (currentTh : L → Option T) (file : ℤ → β) (as : List (Call β T S L C)) (σ : State β T S L C)
    (hrun : Run (Step lock semaphore) ValidSectors (start main value currentTh semaphore file) as
      σ) :
    σ.failed = false ∧ (∃ p, Serial σ.log p) ∧
    (∀ t n data h, .requested t (.read n) data :: h <:+ σ.log → data = some (stored file n h)) ∧
    (∀ t, σ.kernel.cont t = .user → σ.point t ≠ .outside →
      inside t lock σ.kernel.history = true) := by
  have h := hrun.invariant (start_diskInv main value currentTh lock semaphore file)
    fun h ha hstep => h.step ha hstep
  obtain ⟨p, hserial, hdevice, -⟩ := h.phase
  refine ⟨h.running, ⟨p, hserial⟩, h.reads, fun t hcont hpoint => ?_⟩
  refine hdevice.callers.inside_of_user hcont fun hstage => hpoint ?_
  cases hp : σ.point t with
  | outside => rfl
  | _ => simp [hp, Point.stage] at hstage

end runs

/-- Main writes 7 to sector 3 while thread 1 waits for the lock; the interrupts come
while the machine idles; thread 1 then reads the sector. -/
theorem synchDisk_serial_write_read :
    ∃ σ : State ℕ ℕ Unit Unit Unit,
      Run (Step () ()) ValidSectors (start 0 (fun _ => 0) (fun _ => none) () fun _ => 0)
        [.other (.fork 1), .sector (.write 3 7), .goOn, .other .yield, .sector (.read 3), .goOn,
          .interrupt, .other .idleReturn, .goOn, .other .yield, .goOn] σ ∧
      σ.log = [.requested 1 (.read 3) (some 7), .returned 0 (.write 3 7) none, .completed,
        .requested 0 (.write 3 7) none] ∧ ∃ p, Serial σ.log p := by
  obtain ⟨σ, hrun, hk⟩ := exists_guarded_run_of_exec (State.step () ()) ValidSectors
    (start 0 (fun _ => 0) (fun _ => none) () (fun _ => 0) : State ℕ ℕ Unit Unit Unit)
    [.other (.fork 1), .sector (.write 3 7), .goOn, .other .yield, .sector (.read 3), .goOn,
      .interrupt, .other .idleReturn, .goOn, .other .yield, .goOn]
    (fun σ => σ.log = [.requested 1 (.read 3) (some 7), .returned 0 (.write 3 7) none, .completed,
        .requested 0 (.write 3 7) none]) (by decide)
  exact ⟨σ, hrun, of_decide_eq_true hk, (synchDisk_serial () () 0 _ _ _ _ σ hrun).2.1⟩

end Nachos.SynchDisk
