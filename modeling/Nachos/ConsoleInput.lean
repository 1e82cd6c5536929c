import Nachos.DeviceCalls

/-!
# The console

The keyboard and the display of `machine/console.cc`, used as `ConsoleTest` of
`userprog/progtest.cc` does: the poll of the keyboard puts a byte into `incoming` and calls
`V` on `readAvail`, the reader calls `P`, takes the byte with `GetChar`, writes it with
`PutChar` and waits for `writeDone`. Other threads and interrupts do anything that does not
touch these two semaphores.

`incoming` is a signed `char`, and `EOF` in it says that it is empty. The byte 0xff is this
`char`: after it has been read, the poll takes the buffer for empty.
-/
namespace Nachos.ConsoleInput
open GuardedRuns KernelThreads DeviceCalls

/-- The reader and the two semaphores of `ConsoleTest`. -/
structure Device (T S : Type*) where
  reader : T
  readAvail : S
  writeDone : S
  distinct : readAvail ≠ writeDone

/-- `EOF` as a `char`. -/
def eof : UInt8 := 0xff

/-- How far `ConsoleTest` has got: at the first `P`; in it or back from it; at `PutChar`; at the
second `P`; in it or back from it; after a 'q'. -/
inductive Reader where
  | ready
  | waits
  | holds (ch : UInt8)
  | written (ch : UInt8)
  | drains (ch : UInt8)
  | quit
  deriving DecidableEq, Repr

/-- From `PutChar` to the end of the second `P`. -/
def Reader.echoed : Reader → Bool
  | .written _ => true
  | .drains _ => true
  | _ => false

def Reader.inWriteDone : Reader → Bool
  | .drains _ => true
  | _ => false

/-- `keyboard` is what was typed and not read, `closed` that nothing more will come; `writes`
counts the write interrupts that are scheduled. `typed`, `read` and `returned` are what came
to the keyboard, what the polls read and what `GetChar` returned. -/
structure State (T S L C : Type*) where
  kernel : Kernel T S L C
  keyboard : List UInt8
  closed : Bool
  display : List UInt8
  incoming : UInt8
  putBusy : Bool
  writes : ℕ
  reader : Reader
  typed : List UInt8
  read : List UInt8
  returned : List UInt8
  failed : Bool

inductive Call (T S L C : Type*) where
  | type (ch : UInt8)
  | close
  | poll
  | writeDone
  | goOn
  | other (a : Label T S L C)

variable {T S L C : Type*}

/-- A byte was read and `GetChar` has not been called since. -/
def State.full (σ : State T S L C) : Bool := σ.returned.length < σ.read.length

/-- The byte that waits for `GetChar`. -/
def State.buffered (σ : State T S L C) : List UInt8 := if σ.full then [σ.incoming] else []

section buffer
variable {σ : State T S L C}

theorem full_eq_false (h : σ.read = σ.returned) : σ.full = false := by
  simp [State.full, h]

theorem full_eq_true {ch : UInt8} (h : σ.read = σ.returned ++ [ch]) : σ.full = true := by
  simp [State.full, h]

theorem buffered_of_full (h : σ.full = true) : σ.buffered = [σ.incoming] := if_pos h

theorem buffered_of_not_full (h : σ.full = false) : σ.buffered = [] := by
  rw [State.buffered, h]
  rfl

end buffer

variable [DecidableEq T] [DecidableEq S] [DecidableEq L] [DecidableEq C]

namespace State
variable (c : Device T S) (σ : State T S L C)

/-- `Console::CheckCharAvail`. A file that has come to its end is ready to be read, and the
assertion of `Read` fails. -/
def checkCharAvail : Option (State T S L C) :=
  if σ.incoming ≠ eof then some σ
  else
    match σ.keyboard with
    | [] => some { σ with failed := σ.closed }
    | ch :: rest =>
      (σ.kernel.step (.handlerV c.readAvail)).map fun k => { σ with
        kernel := k
        keyboard := rest
        incoming := ch
        read := σ.read ++ [ch] }

/-- `Console::WriteDone` -/
def writeDone : Option (State T S L C) :=
  if σ.writes = 0 then none
  else
    (σ.kernel.step (.handlerV c.writeDone)).map fun k =>
      { σ with kernel := k, putBusy := false, writes := σ.writes - 1 }

/-- `Console::GetChar` -/
def getChar : UInt8 × State T S L C :=
  (σ.incoming, { σ with incoming := eof, returned := σ.returned ++ [σ.incoming] })

/-- `Console::PutChar` -/
def putChar (ch : UInt8) : State T S L C :=
  if σ.putBusy then { σ with failed := true }
  else { σ with display := σ.display ++ [ch], putBusy := true, writes := σ.writes + 1 }

/-- The reader goes on in `ConsoleTest`. -/
def goOn : Option (State T S L C) :=
  if σ.kernel.currentThread = some c.reader ∧ σ.kernel.cont c.reader = .user then
    match σ.reader with
    | .ready =>
      (σ.kernel.step (.p c.readAvail)).map fun k => { σ with kernel := k, reader := .waits }
    | .waits => some { σ.getChar.2 with reader := .holds σ.getChar.1 }
    | .holds ch => some { σ.putChar ch with reader := .written ch }
    | .written ch =>
      (σ.kernel.step (.p c.writeDone)).map fun k => { σ with kernel := k, reader := .drains ch }
    | .drains ch => some { σ with reader := if ch = 0x71 then .quit else .ready }
    | .quit => none
  else none

/-- Steps that have nothing to do with the console. -/
def allowed (a : Label T S L C) : Bool :=
  !usesSemaphore c.readAvail a && !usesSemaphore c.writeDone a &&
    match a with
    | .yield => true
    | .handlerV _ => true
    | .idleReturn => true
    | _ => σ.kernel.currentThread ≠ some c.reader || σ.reader = .ready || σ.reader = .quit

def step (a : Call T S L C) : Option (State T S L C) :=
  if σ.failed then none
  else
    match a with
    | .type ch =>
      if σ.closed then none
      else some { σ with keyboard := σ.keyboard ++ [ch], typed := σ.typed ++ [ch] }
    | .close => some { σ with closed := true }
    | .poll => σ.checkCharAvail c
    | .writeDone => σ.writeDone c
    | .goOn => σ.goOn c
    | .other a =>
      if σ.allowed c a then (σ.kernel.step a).map fun k => { σ with kernel := k } else none

end State

def Step (c : Device T S) (σ : State T S L C) (a : Call T S L C) (σ' : State T S L C) : Prop :=
  σ.step c a = some σ'

/-- A new console and the semaphores of `ConsoleTest`. -/
def start (c : Device T S) (main : T) (value : S → ℤ) (currentTh : L → Option T) :
    State T S L C where
  kernel := initial main (Function.update (Function.update value c.writeDone 0) c.readAvail 0)
    currentTh
  keyboard := []
  closed := false
  display := []
  incoming := eof
  putBusy := false
  writes := 0
  reader := .ready
  typed := []
  read := []
  returned := []
  failed := false

/-- The poll does not find a byte while a 0xff waits for the reader. -/
def Clear (σ : State T S L C) : Call T S L C → Prop
  | .poll => ¬(σ.full = true ∧ σ.incoming = eof ∧ σ.keyboard ≠ [])
  | _ => True

instance (σ : State T S L C) : (a : Call T S L C) → Decidable (Clear σ a)
  | .poll => inferInstanceAs (Decidable (¬(σ.full = true ∧ σ.incoming = eof ∧ σ.keyboard ≠ [])))
  | .type _ => .isTrue trivial
  | .close => .isTrue trivial
  | .writeDone => .isTrue trivial
  | .goOn => .isTrue trivial
  | .other _ => .isTrue trivial

/-! ### The invariant -/

/-- The part of the invariant that is about the threads: a unit of `readAvail` stands for a byte
in the buffer, one of `writeDone` for a `PutChar` that is done. -/
structure Threads (c : Device T S) (σ : State T S L C) : Prop where
  sound : Sound σ.kernel
  forked : σ.reader ≠ .ready → σ.kernel.status c.reader ≠ .justCreated
  readAvail : Units c.readAvail c.reader (σ.reader = .waits) σ.full σ.kernel
  writeDone : Units c.writeDone c.reader σ.reader.inWriteDone (σ.reader.echoed && !σ.putBusy)
    σ.kernel

/-- The part of the invariant that is about the console. -/
structure Bytes (σ : State T S L C) : Prop where
  typed : σ.typed = σ.read ++ σ.keyboard
  read : σ.read = σ.returned ++ σ.buffered
  empty : σ.full = false → σ.incoming = eof
  busy : σ.putBusy = true → σ.reader.echoed = true
  writes : σ.writes = σ.putBusy.toNat
  failed : σ.failed = true → σ.closed = true

structure Inv (c : Device T S) (σ : State T S L C) : Prop where
  threads : Threads c σ
  bytes : Bytes σ

section invariant
variable {c : Device T S} {σ σ' : State T S L C} {a : Label T S L C} {k' : Kernel T S L C}

omit [DecidableEq L] [DecidableEq C] in
theorem allowed_cases (h : σ.allowed c a = true) :
    usesSemaphore c.readAvail a = false ∧ usesSemaphore c.writeDone a = false ∧
      (σ.reader ≠ .ready → σ.reader ≠ .quit → σ.kernel.currentThread = some c.reader →
        Passive a) := by
  simp only [State.allowed, Bool.and_eq_true, Bool.not_eq_true'] at h
  refine ⟨h.1.1, h.1.2, fun hready hquit hcur => ?_⟩
  have hmatch := h.2
  split at hmatch
  · trivial
  · trivial
  · trivial
  · simp [hcur, hready, hquit] at hmatch

omit [DecidableEq T] [DecidableEq S] [DecidableEq L] [DecidableEq C] in
theorem reader_of_inWriteDone {r : Reader} (h : r.inWriteDone = true) :
    r ≠ .ready ∧ r ≠ .waits ∧ r ≠ .quit := by
  cases r with
  | drains ch => exact ⟨nofun, nofun, nofun⟩
  | _ => cases h

/-- A step of the kernel that uses neither semaphore. -/
theorem Threads.other (h : Threads c σ) (hallowed : σ.allowed c a = true)
    (hk : σ.kernel.step a = some k') : Threads c { σ with kernel := k' } := by
  obtain ⟨hread, hwrite, hpassive⟩ := allowed_cases hallowed
  refine ⟨h.sound.step hk, fun hr => step_forked hk (h.forked hr),
    h.readAvail.step hk hread (fun hr => ?_) fun hr => ?_,
    h.writeDone.step hk hwrite (fun hr => ?_) fun hr => ?_⟩
  · have hr := of_decide_eq_true hr
    exact hpassive (by simp [hr]) (by simp [hr])
  · exact h.forked (by simp [of_decide_eq_true hr])
  · obtain ⟨hready, -, hquit⟩ := reader_of_inWriteDone hr
    exact hpassive hready hquit
  · exact h.forked (reader_of_inWriteDone hr).1

theorem handlerV_eq {s : S} (hk : σ.kernel.step (.handlerV s) = some k') : σ.kernel.v s = k' := by
  simpa [Kernel.step] using hk

theorem p_eq {s : S} {t : T} (hcur : σ.kernel.currentThread = some t)
    (hcont : σ.kernel.cont t = .user) (hk : σ.kernel.step (.p s) = some k') :
    σ.kernel.pLoop Kernel.sleep t s = k' := by
  simpa [Kernel.step, hcur, hcont, Kernel.call] using hk

/-- The poll reads a byte: the buffer was empty, so no unit of `readAvail` is left. -/
theorem Inv.poll {ch : UInt8} {rest : List UInt8} (h : Inv c σ) (hempty : σ.full = false)
    (hkeyboard : σ.keyboard = ch :: rest)
    (hk : σ.kernel.step (.handlerV c.readAvail) = some k') :
    Inv c { σ with kernel := k', keyboard := rest, incoming := ch, read := σ.read ++ [ch] } := by
  obtain ⟨ht, hb⟩ := h
  have hread : σ.read = σ.returned := by
    rw [hb.read, buffered_of_not_full hempty, List.append_nil]
  have hfull : ({ σ with kernel := k', keyboard := rest, incoming := ch, read := σ.read ++ [ch] } :
      State T S L C).full = true := full_eq_true (by rw [hread])
  refine ⟨⟨ht.sound.step hk, fun hr => step_forked hk (ht.forked hr), ?_,
    ht.writeDone.step hk (decide_eq_false c.distinct) (fun _ _ => trivial)
      fun hr => ht.forked (reader_of_inWriteDone hr).1⟩, ⟨?_, ?_, ?_, hb.busy, hb.writes, hb.failed⟩⟩
  · have hunits := ht.readAvail
    rw [hempty] at hunits
    rw [hfull, ← handlerV_eq hk]
    exact hunits.v
  · rw [hb.typed, hkeyboard]
    simp
  · rw [buffered_of_full hfull, hread]
  · rw [hfull]
    exact nofun

/-- The interrupt of a `PutChar`. -/
theorem Inv.writeDone (h : Inv c σ) (hwrites : σ.writes ≠ 0)
    (hk : σ.kernel.step (.handlerV c.writeDone) = some k') :
    Inv c { σ with kernel := k', putBusy := false, writes := σ.writes - 1 } := by
  obtain ⟨ht, hb⟩ := h
  have hbusy : σ.putBusy = true := by
    cases hbusy : σ.putBusy with
    | true => rfl
    | false => exact absurd (by rw [hb.writes, hbusy]; rfl) hwrites
  have hechoed := hb.busy hbusy
  refine ⟨⟨ht.sound.step hk, fun hr => step_forked hk (ht.forked hr),
    ht.readAvail.step hk (decide_eq_false c.distinct.symm) (fun _ _ => trivial)
      fun hr => ht.forked (by simp [of_decide_eq_true hr]), ?_⟩,
    ⟨hb.typed, hb.read, hb.empty, nofun, ?_, hb.failed⟩⟩
  · have hunits := ht.writeDone
    simp only [hechoed, hbusy, Bool.not_true, Bool.and_false] at hunits
    simp only [hechoed, Bool.not_false, Bool.and_true]
    rw [← handlerV_eq hk]
    exact hunits.v
  · simp only [hb.writes, hbusy]
    rfl

/-- The reader calls `P` on `readAvail`. -/
theorem Inv.await (h : Inv c σ) (hcur : σ.kernel.currentThread = some c.reader)
    (hcont : σ.kernel.cont c.reader = .user) (hreader : σ.reader = .ready)
    (hk : σ.kernel.step (.p c.readAvail) = some k') :
    Inv c { σ with kernel := k', reader := .waits } := by
  obtain ⟨ht, hb⟩ := h
  have hforked := ht.sound.current_forked hcur
  have hread := ht.readAvail
  have hwrite := ht.writeDone
  have hbusy := hb.busy
  rw [hreader] at hread hwrite hbusy
  refine ⟨⟨ht.sound.step hk, fun _ => step_forked hk hforked, ?_,
    hwrite.step hk (decide_eq_false c.distinct) nofun nofun⟩,
    ⟨hb.typed, hb.read, hb.empty, hbusy, hb.writes, hb.failed⟩⟩
  rw [← p_eq hcur hcont hk]
  exact Nobody.pLoop hread hcur hcont hforked

omit [DecidableEq S] in
/-- The reader is back from `P`, so there is a byte in the buffer. -/
theorem Inv.getChar (h : Inv c σ) (hcont : σ.kernel.cont c.reader = .user)
    (hreader : σ.reader = .waits) :
    Inv c { σ.getChar.2 with reader := .holds σ.getChar.1 } := by
  obtain ⟨ht, hb⟩ := h
  have hread := ht.readAvail
  have hwrite := ht.writeDone
  have hbusy := hb.busy
  have hforked := ht.forked
  rw [hreader] at hread hwrite hbusy hforked
  obtain ⟨hfull, hnobody⟩ := Solo.returned hread hcont
  have hbytes : σ.read = σ.returned ++ [σ.incoming] := by rw [hb.read, buffered_of_full hfull]
  have hempty : ({ σ.getChar.2 with reader := .holds σ.getChar.1 } : State T S L C).full = false :=
    full_eq_false hbytes
  refine ⟨⟨ht.sound, fun _ => hforked nofun, ?_, hwrite⟩,
    ⟨hb.typed, ?_, fun _ => rfl, hbusy, hb.writes, hb.failed⟩⟩
  · rw [hempty]
    exact hnobody
  · rw [buffered_of_not_full hempty, List.append_nil]
    exact hbytes

omit [DecidableEq S] in
/-- `PutChar` finds that the last one is done. -/
theorem Inv.putChar {ch : UInt8} (h : Inv c σ) (hreader : σ.reader = .holds ch) :
    Inv c { σ.putChar ch with reader := .written ch } := by
  obtain ⟨ht, hb⟩ := h
  have hread := ht.readAvail
  have hwrite := ht.writeDone
  have hforked := ht.forked
  have hbusy : σ.putBusy = false := by
    cases hbusy : σ.putBusy with
    | false => rfl
    | true => exact absurd (hb.busy hbusy) (by simp [hreader, Reader.echoed])
  rw [hreader] at hread hwrite hforked
  have hput : σ.putChar ch =
      { σ with display := σ.display ++ [ch], putBusy := true, writes := σ.writes + 1 } := by
    rw [State.putChar, hbusy]
    rfl
  rw [hput]
  refine ⟨⟨ht.sound, fun _ => hforked nofun, hread, hwrite⟩,
    ⟨hb.typed, hb.read, hb.empty, fun _ => rfl, ?_, hb.failed⟩⟩
  simp only [hb.writes, hbusy]
  rfl

/-- The reader calls `P` on `writeDone`. -/
theorem Inv.drain {ch : UInt8} (h : Inv c σ) (hcur : σ.kernel.currentThread = some c.reader)
    (hcont : σ.kernel.cont c.reader = .user) (hreader : σ.reader = .written ch)
    (hk : σ.kernel.step (.p c.writeDone) = some k') :
    Inv c { σ with kernel := k', reader := .drains ch } := by
  obtain ⟨ht, hb⟩ := h
  have hforked := ht.sound.current_forked hcur
  have hread := ht.readAvail
  have hwrite := ht.writeDone
  rw [hreader] at hread hwrite
  refine ⟨⟨ht.sound.step hk, fun _ => step_forked hk hforked,
    hread.step hk (decide_eq_false c.distinct.symm) nofun nofun, ?_⟩,
    ⟨hb.typed, hb.read, hb.empty, fun _ => rfl, hb.writes, hb.failed⟩⟩
  rw [← p_eq hcur hcont hk]
  exact Nobody.pLoop hwrite hcur hcont hforked

omit [DecidableEq S] in
/-- The reader is back from `P`, so the interrupt has come. -/
theorem Inv.drained {ch : UInt8} (h : Inv c σ) (hcont : σ.kernel.cont c.reader = .user)
    (hreader : σ.reader = .drains ch) {r : Reader} (hr : r = .quit ∨ r = .ready) :
    Inv c { σ with reader := r } := by
  obtain ⟨ht, hb⟩ := h
  have hread := ht.readAvail
  have hwrite := ht.writeDone
  have hforked := ht.forked
  rw [hreader] at hread hwrite hforked
  obtain ⟨hdone, hnobody⟩ := Solo.returned hwrite hcont
  have hbusy : σ.putBusy = false := by simpa [Reader.echoed] using hdone
  rcases hr with rfl | rfl
  · exact ⟨⟨ht.sound, fun _ => hforked nofun, hread, hnobody⟩,
      ⟨hb.typed, hb.read, hb.empty, by simp [hbusy], hb.writes, hb.failed⟩⟩
  · exact ⟨⟨ht.sound, fun _ => hforked nofun, hread, hnobody⟩,
      ⟨hb.typed, hb.read, hb.empty, by simp [hbusy], hb.writes, hb.failed⟩⟩

theorem Inv.goOn (h : Inv c σ) (hstep : σ.goOn c = some σ') : Inv c σ' := by
  unfold State.goOn at hstep
  split_ifs at hstep with hcur
  split at hstep
  case h_1 hreader =>
    obtain ⟨k', hk, rfl⟩ := Option.map_eq_some_iff.mp hstep
    exact h.await hcur.1 hcur.2 hreader hk
  case h_2 hreader => exact Option.some.inj hstep ▸ h.getChar hcur.2 hreader
  case h_3 ch hreader => exact Option.some.inj hstep ▸ h.putChar hreader
  case h_4 ch hreader =>
    obtain ⟨k', hk, rfl⟩ := Option.map_eq_some_iff.mp hstep
    exact h.drain hcur.1 hcur.2 hreader hk
  case h_5 ch hreader =>
    obtain rfl := Option.some.inj hstep
    exact h.drained hcur.2 hreader (by split_ifs <;> simp)
  case h_6 => cases hstep

theorem Inv.step {a : Call T S L C} (h : Inv c σ) (hclear : Clear σ a) (hstep : Step c σ a σ') :
    Inv c σ' := by
  unfold Step State.step at hstep
  by_cases hfailed : σ.failed = true
  · rw [if_pos hfailed] at hstep
    cases hstep
  rw [if_neg hfailed] at hstep
  obtain ⟨ht, hb⟩ := id h
  cases a with
  | type ch =>
    dsimp only at hstep
    split_ifs at hstep
    obtain rfl := Option.some.inj hstep
    exact ⟨⟨ht.sound, ht.forked, ht.readAvail, ht.writeDone⟩,
      ⟨by rw [hb.typed, List.append_assoc], hb.read, hb.empty, hb.busy, hb.writes, hb.failed⟩⟩
  | close =>
    obtain rfl := Option.some.inj hstep
    exact ⟨⟨ht.sound, ht.forked, ht.readAvail, ht.writeDone⟩,
      ⟨hb.typed, hb.read, hb.empty, hb.busy, hb.writes, fun _ => rfl⟩⟩
  | poll =>
    dsimp only [State.checkCharAvail] at hstep
    split_ifs at hstep with hempty
    · exact Option.some.inj hstep ▸ h
    split at hstep
    case h_1 hkeyboard =>
      obtain rfl := Option.some.inj hstep
      exact ⟨⟨ht.sound, ht.forked, ht.readAvail, ht.writeDone⟩,
        ⟨hb.typed, hb.read, hb.empty, hb.busy, hb.writes, fun hf => hf⟩⟩
    case h_2 ch rest hkeyboard =>
      obtain ⟨k', hk, rfl⟩ := Option.map_eq_some_iff.mp hstep
      refine h.poll ?_ hkeyboard hk
      by_contra hfull
      exact hclear ⟨by simpa using hfull, not_not.mp hempty, by simp [hkeyboard]⟩
  | writeDone =>
    dsimp only [State.writeDone] at hstep
    split_ifs at hstep with hwrites
    obtain ⟨k', hk, rfl⟩ := Option.map_eq_some_iff.mp hstep
    exact h.writeDone hwrites hk
  | goOn => exact h.goOn hstep
  | other a =>
    dsimp only at hstep
    split_ifs at hstep with hallowed
    obtain ⟨k', hk, rfl⟩ := Option.map_eq_some_iff.mp hstep
    exact ⟨ht.other hallowed hk,
      ⟨hb.typed, hb.read, hb.empty, hb.busy, hb.writes, hb.failed⟩⟩

theorem Inv.start (c : Device T S) (main : T) (value : S → ℤ) (currentTh : L → Option T) :
    Inv c (start c main value currentTh : State T S L C) := by
  refine ⟨⟨initial_sound _ _ _, fun hr => absurd rfl hr, ?_, ?_⟩,
    ⟨rfl, rfl, fun _ => rfl, nofun, rfl, nofun⟩⟩
  · exact initial_nobody main currentTh (Function.update_self _ _ _)
  · refine initial_nobody main currentTh ?_
    rw [Function.update_of_ne c.distinct.symm, Function.update_self]

theorem inv_of_run {main : T} {value : S → ℤ} {currentTh : L → Option T} {as : List (Call T S L C)}
    (h : Run (Step c) Clear (ConsoleInput.start c main value currentTh) as σ) : Inv c σ :=
  h.invariant (Inv.start c main value currentTh) fun h hclear hstep => h.step hclear hstep

omit [DecidableEq S] in
/-- A byte in the buffer has been announced: there is a unit of `readAvail`, or the reader has
taken it and comes to `GetChar` next. -/
theorem Inv.notified (h : Inv c σ) (hfull : σ.full = true) : σ.kernel.value c.readAvail = 1 ∨
    σ.reader = .waits ∧ σ.kernel.cont c.reader = .user := by
  have hunits := h.threads.readAvail
  rw [hfull] at hunits
  by_cases hreader : σ.reader = .waits
  · rw [decide_eq_true hreader] at hunits
    rcases hunits.2 with ⟨-, hvalue⟩ | ⟨-, hcont, -⟩
    · exact Or.inl hvalue
    · exact Or.inr ⟨hreader, hcont⟩
  · rw [decide_eq_false hreader] at hunits
    exact Or.inl hunits.2

/-- What is typed is read in order, and `GetChar` returns what was read, up to one byte that is in
the buffer and has been announced. The next poll reads on when there is none. -/
theorem input_delivered (c : Device T S) (main : T) (value : S → ℤ) (currentTh : L → Option T)
    (as : List (Call T S L C)) (σ : State T S L C)
    (hrun : Run (Step c) Clear (start c main value currentTh) as σ) :
    σ.typed = σ.read ++ σ.keyboard ∧ σ.read = σ.returned ++ σ.buffered ∧
      (σ.buffered = [] ∧ σ.incoming = eof ∨
        σ.buffered = [σ.incoming] ∧ (σ.kernel.value c.readAvail = 1 ∨
          σ.reader = .waits ∧ σ.kernel.cont c.reader = .user)) ∧
      (σ.failed = true → σ.closed = true) := by
  have hinv := inv_of_run hrun
  refine ⟨hinv.bytes.typed, hinv.bytes.read, ?_, hinv.bytes.failed⟩
  cases hfull : σ.full with
  | false => exact Or.inl ⟨buffered_of_not_full hfull, hinv.bytes.empty hfull⟩
  | true => exact Or.inr ⟨buffered_of_full hfull, hinv.notified hfull⟩

end invariant

/-- Main is the reader. -/
def sampleDevice : Device ℕ Bool := ⟨0, false, true, by decide⟩

def sampleStart : State ℕ Bool Unit Unit := start sampleDevice 0 (fun _ => 7) fun _ => none

/-- One turn of the loop of `ConsoleTest` when a byte is there: `writeDone` sleeps. -/
def echoTurn : List (Call ℕ Bool Unit Unit) :=
  [.goOn, .goOn, .goOn, .goOn, .writeDone, .other .idleReturn, .goOn]

/-- A 0xff that is taken before the next poll arrives. -/
theorem input_delivered_in_time : ∃ σ, Run (Step sampleDevice) Clear sampleStart
      ([.type 0xff, .type 0x61, .type 0x62, .poll] ++ echoTurn ++ [.poll, .poll] ++ echoTurn) σ ∧
    σ.returned = [0xff, 0x61] ∧ σ.typed = σ.read ++ [0x62] ∧ σ.read = σ.returned ++ σ.buffered := by
  obtain ⟨σ, hrun, hσ⟩ := exists_guarded_run_of_exec (State.step sampleDevice) Clear sampleStart
    ([.type 0xff, .type 0x61, .type 0x62, .poll] ++ echoTurn ++ [.poll, .poll] ++ echoTurn)
    (fun σ => σ.returned = [0xff, 0x61] ∧ σ.keyboard = [0x62]) (by decide +kernel)
  obtain ⟨hreturned, hkeyboard⟩ := of_decide_eq_true hσ
  have h := input_delivered sampleDevice 0 _ _ _ σ hrun
  exact ⟨σ, hrun, hreturned, hkeyboard ▸ h.1, h.2.1⟩

/-- The second poll overwrites a 0xff, and the reader, which was told of two bytes, gets the one
after it and then an `EOF` that was not typed. -/
theorem input_overwritten : ∃ σ, Run (Step sampleDevice) Free sampleStart
      ([.type 0xff, .type 0x61, .poll, .poll] ++ echoTurn ++ echoTurn) σ ∧
    σ.read = [0xff, 0x61] ∧ σ.returned = [0x61, eof] := by
  obtain ⟨σ, hrun, hσ⟩ := exists_run_of_exec (State.step sampleDevice) sampleStart
    ([.type 0xff, .type 0x61, .poll, .poll] ++ echoTurn ++ echoTurn)
    (fun σ => σ.read = [0xff, 0x61] ∧ σ.returned = [0x61, eof]) (by decide +kernel)
  exact ⟨σ, hrun, of_decide_eq_true hσ⟩

end Nachos.ConsoleInput
