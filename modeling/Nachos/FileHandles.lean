import Nachos.UserTransfers

/-!
# The system calls `Read` and `Write` on one open file

`ReadHandler` and `WriteHandler` of `userprog/exception.cc` for a process that has
one file open and the only one to use it. The position of the handle is kept twice,
in the `offset` of the `UserOpenFile` and in the position of the `OpenFile`: `Read`
reads at the first and leaves both as they are, `Write` writes at the second and
advances both. `Read` copies the whole `size` bytes of its buffer into user memory
and returns the variable `read` of the outer block, which is 0.

The handlers are the same for every `OpenFile` that is a byte file; `UnixFile` is
the one of the builds with `FILESYS_STUB`.
-/
namespace Nachos.FileHandles
open GuardedRuns ByteMemory UserTransfers

/-- What an `OpenFile` that is a byte file offers, with a position of its own. -/
structure ByteFile (F : Type*) where
  contents : F → List Byte
  position : F → ℕ
  readAt : F → ℕ → ℕ → List Byte
  write : F → List Byte → F
  readAt_eq : ∀ f n position, readAt f n position = ((contents f).drop position).take n
  write_contents : ∀ f data, position f ≤ (contents f).length →
    contents (write f data) = (contents f).take (position f) ++ data ++
      (contents f).drop (position f + data.length)
  write_position : ∀ f data, position (write f data) = position f + data.length

/-- The `OpenFile` over a UNIX file. -/
structure UnixFile where
  bytes : List Byte
  currentOffset : ℕ
  deriving DecidableEq, Repr

namespace UnixFile

def readAt (f : UnixFile) (numBytes position : ℕ) : List Byte :=
  (f.bytes.drop position).take numBytes

/-- Behind the end of the file a write leaves zeros. -/
def writeAt (f : UnixFile) (data : List Byte) (position : ℕ) : List Byte :=
  if data = [] then f.bytes
  else f.bytes.take position ++ List.replicate (position - f.bytes.length) 0 ++ data ++
    f.bytes.drop (position + data.length)

def write (f : UnixFile) (data : List Byte) : UnixFile :=
  ⟨f.writeAt data f.currentOffset, f.currentOffset + data.length⟩

end UnixFile

def unixFile : ByteFile UnixFile where
  contents := UnixFile.bytes
  position := UnixFile.currentOffset
  readAt := UnixFile.readAt
  write := UnixFile.write
  readAt_eq := fun _ _ _ => rfl
  write_contents := by
    intro f data hle
    simp only [UnixFile.write, UnixFile.writeAt]
    split_ifs with hdata
    · simp [hdata]
    · simp [Nat.sub_eq_zero_of_le hle]
  write_position := fun _ _ => rfl

/-- The open file, the `offset` of the handle, and the memory of the machine. -/
structure State (F : Type*) where
  file : F
  offset : ℕ
  machine : Machine

/-- The system calls; `junk` and `physAddr` are what the uninitialised variables of
the handler hold. -/
inductive Call where
  | read (baddr : ℤ) (size : ℕ) (junk : Chars) (physAddr : ℤ)
  | write (baddr : ℤ) (size : ℕ) (junk : Chars) (physAddr : ℤ)

/-- The first `n` bytes of a buffer. -/
def bytesOf (buffer : Chars) (n : ℕ) : List Byte := (List.range n).map fun i : ℕ => buffer i

variable {F : Type*}

def readHandler (ops : ByteFile F) (s : AddrSpace) (σ : State F) (baddr : ℤ) (size : ℕ)
    (junk : Chars) (physAddr : ℤ) : State F × ℤ :=
  let bytes := ops.readAt σ.file size σ.offset
  let buffer := memcpy junk 0 (fun i => (bytes[i.toNat]?).getD 0) 0 bytes.length
  let buffer := Function.update buffer bytes.length 0
  let (m, _) := userReadWrite s σ.machine baddr buffer size .intoMemory physAddr
  ({ σ with machine := m }, 0)

def writeHandler (ops : ByteFile F) (s : AddrSpace) (σ : State F) (baddr : ℤ) (size : ℕ)
    (junk : Chars) (physAddr : ℤ) : State F :=
  if s.translate baddr = none then σ
  else
    let (m, c) := userReadWrite s σ.machine baddr junk size .outOfMemory physAddr
    ⟨ops.write σ.file (bytesOf c.buffer size), σ.offset + size, m⟩

/-- The state after a call and the value it returns; `Write` returns nothing. -/
def call (ops : ByteFile F) (s : AddrSpace) (σ : State F) : Call → State F × ℤ
  | .read baddr size junk physAddr => readHandler ops s σ baddr size junk physAddr
  | .write baddr size junk physAddr => (writeHandler ops s σ baddr size junk physAddr, 0)

def Step (ops : ByteFile F) (s : AddrSpace) (σ : State F) (a : Call) (σ' : State F) : Prop :=
  (call ops s σ a).1 = σ'

/-- The bytes that the process has from an address on. -/
def userBytes (s : AddrSpace) (memory : Chars) (v : ℤ) (n : ℕ) : List Byte :=
  (List.range n).map fun i : ℕ => userByte s memory (v + i)

/-- What a call on a sequential file handle does. `Read` gives the bytes that are
available at the offset and puts exactly those into the memory of the process,
`Write` stores its bytes at the offset, and both advance the offset. -/
def Sequential (ops : ByteFile F) (s : AddrSpace) (σ : State F) : Call → State F × ℤ → Prop
  | .read baddr size _ _, (σ', n) =>
    let bytes := ((ops.contents σ.file).drop σ.offset).take size
    n = bytes.length ∧ ops.contents σ'.file = ops.contents σ.file ∧
    σ'.offset = σ.offset + bytes.length ∧
    userBytes s σ'.machine.mainMemory baddr bytes.length = bytes ∧
    ∀ a, (∀ i : ℕ, i < bytes.length → s.translate (baddr + i) ≠ some a) →
      σ'.machine.mainMemory a = σ.machine.mainMemory a
  | .write baddr size _ _, (σ', _) =>
    let data := userBytes s σ.machine.mainMemory baddr size
    ops.contents σ'.file = (ops.contents σ.file).take σ.offset ++ data ++
      (ops.contents σ.file).drop (σ.offset + size) ∧
    σ'.offset = σ.offset + size ∧ σ'.machine.mainMemory = σ.machine.mainMemory

/-- The file has just been opened. -/
def opened (file : F) (m : Machine) : State F := ⟨file, 0, m⟩

/-- Nothing is read, and what is written lies in the memory of the process. -/
def WritesOnly (s : AddrSpace) (_ : State F) : Call → Prop
  | .read _ size _ _ => size = 0
  | .write baddr size _ _ => size = 0 ∨ Mapped s baddr size

section calls
variable {ops : ByteFile F} {s : AddrSpace} {σ σ' : State F} {a : Call}

theorem readHandler_zero (baddr : ℤ) (junk : Chars) (physAddr : ℤ) :
    readHandler ops s σ baddr 0 junk physAddr = (σ, 0) := rfl

theorem length_userBytes (s : AddrSpace) (memory : Chars) (v : ℤ) (n : ℕ) :
    (userBytes s memory v n).length = n := by
  simp [userBytes]

/-- What `Write` stores are the bytes of the process, at the position of the file. -/
theorem writeHandler_eq (ops : ByteFile F) {baddr : ℤ} {size : ℕ} (hmapped : size = 0 ∨ Mapped s baddr size)
    (hpos : ops.position σ.file ≤ (ops.contents σ.file).length) (junk : Chars) (physAddr : ℤ) :
    let σ' := writeHandler ops s σ baddr size junk physAddr
    let data := userBytes s σ.machine.mainMemory baddr size
    ops.contents σ'.file = (ops.contents σ.file).take (ops.position σ.file) ++ data ++
      (ops.contents σ.file).drop (ops.position σ.file + size) ∧
    ops.position σ'.file = ops.position σ.file + size ∧ σ'.offset = σ.offset + size ∧
    σ'.machine.mainMemory = σ.machine.mainMemory := by
  intro σ' data
  by_cases hnone : s.translate baddr = none
  · obtain rfl : size = 0 := by
      rcases hmapped with h | ⟨-, hpages⟩
      · exact h
      · by_contra hne
        have hsome := hpages 0 le_rfl (by omega)
        simp [hnone] at hsome
    have hσ : σ' = σ := if_pos hnone
    rw [hσ]
    simp [data, userBytes]
  · have hexact : ∀ i : ℕ, i < size →
        (userReadWrite s σ.machine baddr junk size .outOfMemory physAddr).2.buffer i =
          userByte s σ.machine.mainMemory (baddr + i) := by
      intro i hi
      rcases hmapped with h | h
      · omega
      · exact (userReadWrite_outOfMemory h (by omega) σ.machine junk physAddr).2.1 i (by omega)
          (by omega)
    have hmemory : (userReadWrite s σ.machine baddr junk size .outOfMemory
        physAddr).1.mainMemory = σ.machine.mainMemory := by
      rcases hmapped with rfl | h
      · rfl
      · exact (userReadWrite_outOfMemory h (by omega) σ.machine junk physAddr).1
    have hdata : bytesOf (userReadWrite s σ.machine baddr junk size .outOfMemory
        physAddr).2.buffer size = data :=
      List.map_congr_left fun i hi => hexact i (List.mem_range.mp hi)
    have hlength : data.length = size := length_userBytes s _ baddr size
    have hσ : σ' = ⟨ops.write σ.file data, σ.offset + size,
        (userReadWrite s σ.machine baddr junk size .outOfMemory physAddr).1⟩ := by
      rw [← hdata]
      exact if_neg hnone
    rw [hσ]
    refine ⟨?_, ?_, rfl, hmemory⟩
    · rw [ops.write_contents _ _ hpos, hlength]
    · rw [ops.write_position, hlength]

/-- The two positions agree and lie in the file. -/
structure Positioned (ops : ByteFile F) (σ : State F) : Prop where
  agree : ops.position σ.file = σ.offset
  inside : σ.offset ≤ (ops.contents σ.file).length

theorem Positioned.step (h : Positioned ops σ) (ha : WritesOnly s σ a)
    (hstep : Step ops s σ a σ') : Positioned ops σ' := by
  obtain rfl := hstep
  cases a with
  | read baddr size junk physAddr =>
    obtain rfl : size = 0 := ha
    exact h
  | write baddr size junk physAddr =>
    obtain ⟨hcontents, hpos, hoffset, -⟩ := writeHandler_eq ops ha
      (by rw [h.agree]; exact h.inside) junk physAddr
    refine ⟨?_, ?_⟩
    · simp only [call]
      rw [hpos, hoffset, h.agree]
    · simp only [call]
      rw [hcontents, hoffset, h.agree]
      have := h.inside
      simp only [List.length_append, List.length_take, List.length_drop, length_userBytes]
      omega

/-- In every state that is reached by calls of which none reads, the two positions of
the handle agree, and each such call does what a call on a sequential file
handle does. -/
theorem handle_sequential (ops : ByteFile F) (s : AddrSpace) (file : F) (m : Machine)
    (hfile : ops.position file = 0) (as : List Call) (σ : State F)
    (hrun : Run (Step ops s) (WritesOnly s) (opened file m) as σ) :
    ops.position σ.file = σ.offset ∧
    ∀ a, WritesOnly s σ a → Sequential ops s σ a (call ops s σ a) := by
  have hpos : Positioned ops σ := hrun.invariant (I := Positioned ops)
    ⟨hfile, Nat.zero_le _⟩ fun h ha hstep => h.step ha hstep
  refine ⟨hpos.agree, fun a ha => ?_⟩
  cases a with
  | read baddr size junk physAddr =>
    obtain rfl : size = 0 := ha
    simp [Sequential, call, readHandler_zero, userBytes]
  | write baddr size junk physAddr =>
    obtain ⟨hcontents, -, hoffset, hmemory⟩ := writeHandler_eq ops ha
      (by rw [hpos.agree]; exact hpos.inside) junk physAddr
    rw [hpos.agree] at hcontents
    exact ⟨hcontents, hoffset, hmemory⟩

end calls

/-- A machine whose memory holds the bytes 0, 1, 2, and so on. -/
def counting : Machine := ⟨fun _ => 0, fun a => BitVec.ofInt 8 a⟩

/-- Two bytes are written over the beginning of a file of three. -/
theorem handle_sequential_overwrite :
    ∃ σ : State UnixFile,
      Run (Step unixFile (onePage false)) (WritesOnly (onePage false))
        (opened ⟨[7, 8, 9], 0⟩ counting) [.write 4 2 (fun _ => 0) 0] σ ∧
      σ.file = ⟨[4, 5, 9], 2⟩ ∧ σ.file.currentOffset = σ.offset ∧
      ∀ junk physAddr, Sequential unixFile (onePage false) σ (.write 0 1 junk physAddr)
        (call unixFile (onePage false) σ (.write 0 1 junk physAddr)) := by
  have hmapped : ∀ v size : ℤ, 0 ≤ v → v + size ≤ 128 → Mapped (onePage false) v size := by
    intro v size hv hle
    refine ⟨hv, fun i hi hlt => ?_⟩
    have hdiv : (v + i).tdiv pageSize = 0 := by
      rw [Int.tdiv_eq_ediv_of_nonneg (by omega), pageSize]
      omega
    simp [AddrSpace.translate, onePage, hdiv]
  have hrun : Run (Step unixFile (onePage false)) (WritesOnly (onePage false))
      (opened ⟨[7, 8, 9], 0⟩ counting) [.write 4 2 (fun _ => 0) 0]
      (call unixFile (onePage false) (opened ⟨[7, 8, 9], 0⟩ counting)
        (.write 4 2 (fun _ => 0) 0)).1 :=
    .cons (Or.inr (hmapped 4 2 (by decide) (by decide))) rfl (.nil _)
  obtain ⟨hpos, hseq⟩ := handle_sequential unixFile (onePage false) _ counting rfl _ _ hrun
  exact ⟨_, hrun, by decide, hpos, fun junk physAddr => hseq _
    (Or.inr (hmapped 0 1 (by decide) (by decide)))⟩

/-- A `Read` of one byte from a file of two returns 0 and leaves the offset at 0, and
a second one gives the first byte again. -/
theorem read_returns_zero :
    ∃ σ : State UnixFile,
      Run (Step unixFile (onePage false)) Free (opened ⟨[7, 8], 0⟩ counting)
        [.read 0 1 (fun _ => 0) 0] σ ∧
      (call unixFile (onePage false) (opened ⟨[7, 8], 0⟩ counting)
        (.read 0 1 (fun _ => 0) 0)).2 = 0 ∧
      ¬ Sequential unixFile (onePage false) (opened ⟨[7, 8], 0⟩ counting)
        (.read 0 1 (fun _ => 0) 0) (call unixFile (onePage false) (opened ⟨[7, 8], 0⟩ counting)
          (.read 0 1 (fun _ => 0) 0)) ∧
      σ.offset = 0 ∧
      (call unixFile (onePage false) σ (.read 1 1 (fun _ => 0) 0)).1.machine.mainMemory 1 = 7 := by
  refine ⟨_, .cons trivial rfl (.nil _), rfl, fun h => ?_, rfl, by decide⟩
  exact absurd h.1 (by decide)

end Nachos.FileHandles
