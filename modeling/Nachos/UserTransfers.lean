import Nachos.GuardedRuns
import Nachos.ByteMemory

/-!
# Transfers between user memory and the kernel

`userReadWrite` of `userprog/exception.cc` moves bytes between the memory of a
process and a buffer of the kernel, in chunks that go through `diskBuffer`. Every
`memcpy` is made with `db_lock` held and is one step here; between two of them any
other thread may run. There is one `diskBuffer` for all processes, so between the
`memcpy` that fills it and the one that empties it another process can fill it.

The page tables are those of the build without virtual memory; they do not change
during a call.
-/
namespace Nachos.UserTransfers
open GuardedRuns ByteMemory

/-- The bytes from a pointer on, by their offset. -/
abbrev Chars := ℤ → Byte

def memcpy (dest : Chars) (target : ℤ) (src : Chars) (source n : ℤ) : Chars := fun a =>
  if target ≤ a ∧ a < target + n then src (source + (a - target)) else dest a

def pageSize : ℤ := 128

structure TranslationEntry where
  valid : Bool
  physicalPage : ℤ
  deriving DecidableEq, Repr

/-- Behind its last entry `pageTable` is whatever the memory there holds. -/
structure AddrSpace where
  numPages : ℤ
  pageTable : ℤ → TranslationEntry

/-- `AddrSpace::Translate`; without a result `*paddr` is not set. The test is made
with unsigned numbers, so it also fails for a negative page. -/
def AddrSpace.translate (s : AddrSpace) (vaddr : ℤ) : Option ℤ :=
  let vpn := vaddr.tdiv pageSize
  let offset := vaddr.tmod pageSize
  if vpn > s.numPages ∨ vpn < 0 then none
  else if !(s.pageTable vpn).valid then none
  else some ((s.pageTable vpn).physicalPage * pageSize + offset)

/-- The argument `type`: 0 copies the buffer into memory, 1 copies memory into the
buffer. -/
inductive Kind where
  | intoMemory
  | outOfMemory
  deriving DecidableEq, Repr

/-- The next `memcpy` fills `diskBuffer` or empties it. -/
inductive Point where
  | fill
  | drain
  deriving DecidableEq, Repr

/-- The arguments and local variables of a call; `read` is `read_size` when bytes
are copied out of memory. `memBuffer` and `bufferBuffer` are offsets in
`diskBuffer` and in `buffer`. -/
structure Transfer where
  kind : Kind
  vaddr : ℤ
  buffer : Chars
  size : ℤ
  bytesRead : ℤ
  bytesWrote : ℤ
  physAddr : ℤ
  read : ℤ
  memBuffer : ℤ
  bufferBuffer : ℤ
  point : Point

structure Machine where
  diskBuffer : Chars
  mainMemory : Chars

namespace Transfer

/-- A call of `userReadWrite`; `physAddr` is not initialised. -/
def new (kind : Kind) (vaddr : ℤ) (buffer : Chars) (size physAddr : ℤ) : Transfer where
  kind := kind
  vaddr := vaddr
  buffer := buffer
  size := size
  bytesRead := 0
  bytesWrote := 0
  physAddr := physAddr
  read := 0
  memBuffer := 0
  bufferBuffer := 0
  point := .fill

/-- The bytes of a chunk that comes from the buffer. -/
def chunk (c : Transfer) : ℤ :=
  if c.size - c.bytesRead ≥ pageSize then pageSize else c.size - c.bytesRead

/-- At most the rest of the page, and at most the size of the whole call. -/
def writeSize (c : Transfer) : ℤ :=
  if c.size > pageSize - c.vaddr.tmod pageSize then pageSize - c.vaddr.tmod pageSize else c.size

def readSize (c : Transfer) : ℤ :=
  let n := c.writeSize
  let n := if n > c.size - c.bytesRead then c.size - c.bytesRead else n
  if n > pageSize then pageSize else n

/-- One `memcpy` of the call, or `none` when the call returns. -/
def step (s : AddrSpace) (m : Machine) (c : Transfer) : Option (Machine × Transfer) :=
  match c.kind, c.point with
  | .intoMemory, .fill =>
    if c.bytesRead < c.size then
      some ({ m with diskBuffer := memcpy m.diskBuffer 0 c.buffer c.bytesRead c.chunk },
        { c with
          read := c.chunk
          bytesRead := c.bytesRead + c.chunk
          bytesWrote := 0
          memBuffer := 0
          point := .drain })
    else none
  | .intoMemory, .drain =>
    let physAddr := (s.translate c.vaddr).getD c.physAddr
    some ({ m with
        mainMemory := memcpy m.mainMemory physAddr m.diskBuffer c.memBuffer c.writeSize },
      { c with
        bytesWrote := c.bytesWrote + c.writeSize
        physAddr := physAddr
        memBuffer := c.memBuffer + c.writeSize
        vaddr := c.vaddr + c.writeSize
        point := if c.bytesWrote + c.writeSize < c.read then .drain else .fill })
  | .outOfMemory, .fill =>
    if c.bytesRead < c.size then
      let physAddr := (s.translate c.vaddr).getD c.physAddr
      some ({ m with diskBuffer := memcpy m.diskBuffer 0 m.mainMemory physAddr c.readSize },
        { c with
          read := c.readSize
          physAddr := physAddr
          vaddr := c.vaddr + c.readSize
          bytesRead := c.bytesRead + c.readSize
          bytesWrote := 0
          point := .drain })
    else none
  | .outOfMemory, .drain =>
    some (m, { c with
      buffer := memcpy c.buffer c.bufferBuffer m.diskBuffer 0 c.read
      bufferBuffer := c.bufferBuffer + c.read
      point := .fill })

end Transfer

/-- The physical addresses at which the process has its memory. -/
def Owns (s : AddrSpace) (a : ℤ) : Prop := ∃ v, 0 ≤ v ∧ s.translate v = some a

/-- Address spaces of processes: no two of them share a physical address. -/
structure Spaces (P : Type*) where
  space : P → AddrSpace
  apart : ∀ {p q a}, p ≠ q → Owns (space p) a → ¬ Owns (space q) a

structure State (P : Type*) where
  machine : Machine
  call : P → Transfer

variable {P : Type*} [DecidableEq P]

def State.step (S : Spaces P) (σ : State P) (p : P) : Option (State P) :=
  ((σ.call p).step (S.space p) σ.machine).map fun (m, c) =>
    ⟨m, Function.update σ.call p c⟩

def Step (S : Spaces P) (σ : State P) (p : P) (σ' : State P) : Prop := σ.step S p = some σ'

section pages
variable {s : AddrSpace} {a v i : ℤ}

theorem translate_eq_some (h : s.translate v = some a) :
    v.tdiv pageSize ≤ s.numPages ∧
      a = (s.pageTable (v.tdiv pageSize)).physicalPage * pageSize + v.tmod pageSize := by
  unfold AddrSpace.translate at h
  dsimp only at h
  split_ifs at h with hle
  exact ⟨not_lt.mp (not_or.mp hle).1, (Option.some.inj h).symm⟩

theorem translate_add (hv : 0 ≤ v) (h : s.translate v = some a) (hi : 0 ≤ i)
    (hpage : i < pageSize - v.tmod pageSize) : s.translate (v + i) = some (a + i) := by
  have hdiv : (v + i).tdiv pageSize = v.tdiv pageSize := by
    rw [Int.tdiv_eq_ediv_of_nonneg (by omega), Int.tdiv_eq_ediv_of_nonneg hv]
    rw [Int.tmod_eq_emod_of_nonneg hv] at hpage
    unfold pageSize at *
    omega
  have hmod : (v + i).tmod pageSize = v.tmod pageSize + i := by
    rw [Int.tmod_eq_emod_of_nonneg (by omega)]
    rw [Int.tmod_eq_emod_of_nonneg hv] at hpage ⊢
    unfold pageSize at *
    omega
  unfold AddrSpace.translate at h ⊢
  simp only [hdiv, hmod] at h ⊢
  split_ifs at h ⊢
  rw [← Option.some.inj h, add_assoc]

end pages

section copies
variable {dest dest' src src' : Chars} {target source n a : ℤ}

theorem memcpy_of_mem (h : target ≤ a ∧ a < target + n) :
    memcpy dest target src source n a = src (source + (a - target)) := if_pos h

theorem memcpy_of_not_mem (h : ¬ (target ≤ a ∧ a < target + n)) :
    memcpy dest target src source n a = dest a := if_neg h

/-- Copies of the same bytes agree wherever the destinations did. -/
theorem memcpy_congr (hdest : ¬ (target ≤ a ∧ a < target + n) → dest a = dest' a)
    (hsrc : ∀ i, 0 ≤ i → i < n → src (source + i) = src' (source + i)) :
    memcpy dest target src source n a = memcpy dest' target src' source n a := by
  by_cases h : target ≤ a ∧ a < target + n
  · rw [memcpy_of_mem h, memcpy_of_mem h]
    exact hsrc _ (by omega) (by omega)
  · rw [memcpy_of_not_mem h, memcpy_of_not_mem h]
    exact hdest h

end copies

namespace Transfer
variable {s : AddrSpace} {m m' n : Machine} {c c' : Transfer}

structure WellFormed (c : Transfer) : Prop where
  bytesRead : 0 ≤ c.bytesRead
  memBuffer : 0 ≤ c.memBuffer
  size : c.point = .drain → 0 < c.size

/-- The next `memcpy` reads or writes the memory of the process. -/
def Touches (c : Transfer) : Prop :=
  (c.kind = .intoMemory ∧ c.point = .drain) ∨
    (c.kind = .outOfMemory ∧ c.point = .fill ∧ c.bytesRead < c.size)

/-- What a `memcpy` needs to stay in the memory of the process and in the bytes that
were put into `diskBuffer`. -/
structure Proper (s : AddrSpace) (c : Transfer) : Prop where
  mapped : c.Touches → 0 ≤ c.vaddr ∧ (s.translate c.vaddr).isSome
  within : c.kind = .intoMemory → c.point = .drain → c.memBuffer + c.writeSize ≤ c.read

instance (c : Transfer) : Decidable c.Touches := inferInstanceAs (Decidable (_ ∨ _))

instance (s : AddrSpace) (c : Transfer) : Decidable (c.Proper s) :=
  decidable_of_iff ((c.Touches → 0 ≤ c.vaddr ∧ (s.translate c.vaddr).isSome) ∧
    (c.kind = .intoMemory → c.point = .drain → c.memBuffer + c.writeSize ≤ c.read))
    ⟨fun h => ⟨h.1, h.2⟩, fun h => ⟨h.mapped, h.within⟩⟩

theorem writeSize_bounds (hsize : 0 < c.size) :
    0 < c.writeSize ∧ c.writeSize ≤ pageSize - c.vaddr.tmod pageSize := by
  have hmod : c.vaddr.tmod pageSize < pageSize := Int.tmod_lt_of_pos _ (by decide)
  unfold writeSize
  split_ifs <;> omega

theorem readSize_bounds (hv : 0 ≤ c.vaddr) (hread : 0 ≤ c.bytesRead)
    (hsize : c.bytesRead < c.size) :
    0 < c.readSize ∧ c.readSize ≤ pageSize - c.vaddr.tmod pageSize ∧
      c.readSize ≤ c.size - c.bytesRead := by
  obtain ⟨hpos, hle⟩ := writeSize_bounds (by omega : 0 < c.size)
  have hmod : 0 ≤ c.vaddr.tmod pageSize := Int.tmod_nonneg _ hv
  have hpage : 0 < pageSize := by decide
  unfold readSize
  dsimp only
  split_ifs <;> omega

theorem chunk_pos (hsize : c.bytesRead < c.size) : 0 < c.chunk := by
  unfold chunk pageSize
  split_ifs <;> omega

/-- The bytes of a page from an address of it on. -/
theorem Proper.owns (h : Proper s c) (ht : c.Touches) {i : ℤ} (hi : 0 ≤ i)
    (hpage : i < pageSize - c.vaddr.tmod pageSize) :
    Owns s ((s.translate c.vaddr).getD c.physAddr + i) := by
  obtain ⟨hv, hsome⟩ := h.mapped ht
  obtain ⟨a, ha⟩ := Option.isSome_iff_exists.mp hsome
  rw [ha, Option.getD_some]
  exact ⟨c.vaddr + i, by omega, translate_add hv ha hi hpage⟩

/-- Two machines look the same to a call: its memory, and its chunk in `diskBuffer`. -/
structure Same (s : AddrSpace) (c : Transfer) (m n : Machine) : Prop where
  memory : ∀ a, Owns s a → m.mainMemory a = n.mainMemory a
  chunk : c.point = .drain → ∀ i, 0 ≤ i → i < c.read → m.diskBuffer i = n.diskBuffer i

/-- What a call does depends only on what it sees. -/
theorem step_same (hw : c.WellFormed) (hp : c.Proper s) (hs : Same s c m n)
    (h : c.step s m = some (m', c')) :
    c'.WellFormed ∧ ∃ n', c.step s n = some (n', c') ∧ Same s c' m' n' := by
  cases hk : c.kind with
  | intoMemory =>
    cases hpt : c.point with
    | fill =>
      simp only [step, hk, hpt] at h ⊢
      split_ifs at h ⊢ with hlt
      obtain ⟨rfl, rfl⟩ := Prod.mk.inj (Option.some.inj h)
      have hpos := chunk_pos hlt
      refine ⟨⟨by have := hw.bytesRead; simp only; omega, le_rfl, fun _ => ?_⟩, _, rfl,
        hs.memory, fun _ i hi hlt => memcpy_congr (fun hnot => ?_) fun _ _ _ => rfl⟩
      · have := hw.bytesRead
        simp only
        omega
      · exact absurd ⟨hi, by simpa using hlt⟩ hnot
    | drain =>
      have ht : c.Touches := Or.inl ⟨hk, hpt⟩
      obtain ⟨hpos, hle⟩ := writeSize_bounds (hw.size hpt)
      have hwithin := hp.within hk hpt
      simp only [step, hk, hpt] at h ⊢
      obtain ⟨rfl, rfl⟩ := Prod.mk.inj (Option.some.inj h)
      have hmem := hw.memBuffer
      refine ⟨⟨hw.bytesRead, by simp only; omega, fun _ => hw.size hpt⟩, _, rfl,
        fun a ha => ?_, fun _ => hs.chunk hpt⟩
      exact memcpy_congr (fun _ => hs.memory a ha)
        fun i hi hlt => hs.chunk hpt _ (by omega) (by omega)
  | outOfMemory =>
    cases hpt : c.point with
    | fill =>
      simp only [step, hk, hpt] at h ⊢
      split_ifs at h ⊢ with hlt
      obtain ⟨rfl, rfl⟩ := Prod.mk.inj (Option.some.inj h)
      have ht : c.Touches := Or.inr ⟨hk, hpt, hlt⟩
      obtain ⟨hpos, hle, -⟩ := readSize_bounds (hp.mapped ht).1 hw.bytesRead hlt
      have hread := hw.bytesRead
      refine ⟨⟨by simp only; omega, hw.memBuffer, fun _ => by simp only; omega⟩, _, rfl,
        hs.memory, fun _ i hi hlt => memcpy_congr (fun hnot => ?_) fun j hj hlt => ?_⟩
      · exact absurd ⟨hi, by simpa using hlt⟩ hnot
      · exact hs.memory _ (hp.owns ht hj (by omega))
    | drain =>
      simp only [step, hk, hpt] at h ⊢
      obtain ⟨rfl, rfl⟩ := Prod.mk.inj (Option.some.inj h)
      have hbuffer : memcpy c.buffer c.bufferBuffer n.diskBuffer 0 c.read =
          memcpy c.buffer c.bufferBuffer m.diskBuffer 0 c.read := by
        funext a
        refine memcpy_congr (fun _ => rfl) fun i hi hlt => ?_
        rw [zero_add]
        exact (hs.chunk hpt i hi hlt).symm
      rw [hbuffer]
      exact ⟨⟨hw.bytesRead, hw.memBuffer, fun h => by cases h⟩, n, rfl, hs.memory,
        fun h => by cases h⟩

/-- A call changes nothing outside of the memory of its process, and leaves
`diskBuffer` alone once it has filled it. -/
theorem step_frame (hw : c.WellFormed) (hp : c.Proper s) (h : c.step s m = some (m', c')) :
    (∀ a, ¬ Owns s a → m'.mainMemory a = m.mainMemory a) ∧
      (c.point = .drain → m'.diskBuffer = m.diskBuffer) := by
  cases hk : c.kind with
  | intoMemory =>
    cases hpt : c.point with
    | fill =>
      simp only [step, hk, hpt] at h
      split_ifs at h
      obtain ⟨rfl, rfl⟩ := Prod.mk.inj (Option.some.inj h)
      exact ⟨fun _ _ => rfl, fun h => by cases h⟩
    | drain =>
      have ht : c.Touches := Or.inl ⟨hk, hpt⟩
      obtain ⟨-, hle⟩ := writeSize_bounds (hw.size hpt)
      simp only [step, hk, hpt] at h
      obtain ⟨rfl, rfl⟩ := Prod.mk.inj (Option.some.inj h)
      refine ⟨fun a ha => memcpy_of_not_mem fun hin => ha ?_, fun _ => rfl⟩
      have howns := hp.owns ht (i := a - (s.translate c.vaddr).getD c.physAddr) (by omega)
        (by omega)
      rwa [add_sub_cancel] at howns
  | outOfMemory =>
    cases hpt : c.point with
    | fill =>
      simp only [step, hk, hpt] at h
      split_ifs at h
      obtain ⟨rfl, rfl⟩ := Prod.mk.inj (Option.some.inj h)
      exact ⟨fun _ _ => rfl, fun h => by cases h⟩
    | drain =>
      simp only [step, hk, hpt] at h
      obtain ⟨rfl, rfl⟩ := Prod.mk.inj (Option.some.inj h)
      exact ⟨fun _ _ => rfl, fun _ => rfl⟩

/-- The rest of a call when nothing comes between its steps. -/
def finish (s : AddrSpace) : ℕ → Machine → Transfer → Machine × Transfer
  | 0, m, c => (m, c)
  | n + 1, m, c =>
    match c.step s m with
    | none => (m, c)
    | some (m, c) => finish s n m c

end Transfer

/-- A whole call. Every chunk and every copy of it moves at least one byte. -/
def userReadWrite (s : AddrSpace) (m : Machine) (vaddr : ℤ) (buffer : Chars) (size : ℤ)
    (kind : Kind) (physAddr : ℤ) : Machine × Transfer :=
  (Transfer.new kind vaddr buffer size physAddr).finish s (2 * size.toNat) m

/-- The byte that the process has at an address. -/
def userByte (s : AddrSpace) (memory : Chars) (v : ℤ) : Byte := memory ((s.translate v).getD 0)

/-- The addresses from `v` on lie in valid pages. -/
def Mapped (s : AddrSpace) (v size : ℤ) : Prop :=
  0 ≤ v ∧ ∀ i, 0 ≤ i → i < size → (s.translate (v + i)).isSome

namespace Transfer
variable {s : AddrSpace} {m m' : Machine} {c c' : Transfer} {memory buffer : Chars} {v size : ℤ}

/-- How far a call that copies out of memory has got. -/
structure Copied (s : AddrSpace) (memory buffer : Chars) (v size : ℤ) (m : Machine)
    (c : Transfer) : Prop where
  kind : c.kind = .outOfMemory
  memory_eq : m.mainMemory = memory
  size_eq : c.size = size
  bytesRead : 0 ≤ c.bytesRead ∧ c.bytesRead ≤ size
  vaddr : c.vaddr = v + c.bytesRead
  done : ∀ i, 0 ≤ i → i < c.bufferBuffer → c.buffer i = userByte s memory (v + i)
  rest : ∀ i, ¬ (0 ≤ i ∧ i < size) → c.buffer i = buffer i
  fill : c.point = .fill → c.bufferBuffer = c.bytesRead
  drain : c.point = .drain → 0 ≤ c.bufferBuffer ∧ c.bufferBuffer + c.read = c.bytesRead ∧
    ∀ i, 0 ≤ i → i < c.read → m.diskBuffer i = userByte s memory (v + (c.bufferBuffer + i))

/-- The copies that are still to be made, at one byte each. -/
def left (c : Transfer) : ℤ := 2 * (c.size - c.bytesRead) + if c.point = .drain then 1 else 0

theorem userByte_add (memory : Chars) (hv : 0 ≤ v) (hsome : (s.translate v).isSome) {i a : ℤ} (hi : 0 ≤ i)
    (hpage : i < pageSize - v.tmod pageSize) :
    userByte s memory (v + i) = memory ((s.translate v).getD a + i) := by
  obtain ⟨b, hb⟩ := Option.isSome_iff_exists.mp hsome
  rw [userByte, translate_add hv hb hi hpage, hb, Option.getD_some, Option.getD_some]

theorem Copied.step (hmapped : Mapped s v size) (h : Copied s memory buffer v size m c)
    (hstep : c.step s m = some (m', c')) :
    Copied s memory buffer v size m' c' ∧ c'.left < c.left := by
  obtain ⟨hv, hpages⟩ := hmapped
  obtain ⟨hread, hle⟩ := h.bytesRead
  have hsize := h.size_eq
  cases hpt : c.point with
  | fill =>
    simp only [Transfer.step, h.kind, hpt] at hstep
    split_ifs at hstep with hlt
    obtain ⟨rfl, rfl⟩ := Prod.mk.inj (Option.some.inj hstep)
    have hvaddr := h.vaddr
    have hbuffer := h.fill hpt
    obtain ⟨hpos, hpage, hbound⟩ := readSize_bounds (by omega) hread hlt
    refine ⟨⟨rfl, h.memory_eq, hsize, ⟨by simp only; omega, by simp only; omega⟩,
      by simp only; omega, h.done, h.rest, fun hf => (by cases hf), fun _ => ⟨by simp only; omega,
        by simp only; omega, fun i hi hlt' => ?_⟩⟩, ?_⟩
    · have hsome : (s.translate c.vaddr).isSome := by
        rw [hvaddr]
        exact hpages c.bytesRead hread (by omega)
      have hbyte := userByte_add memory (a := c.physAddr) (by omega) hsome hi
        (by simp only at hlt'; omega)
      dsimp only at hlt' ⊢
      rw [memcpy_of_mem ⟨hi, by omega⟩, h.memory_eq, sub_zero, ← hbyte, hbuffer, hvaddr, add_assoc]
    · simp only [left, hpt, if_true, reduceCtorEq, if_false]
      omega
  | drain =>
    obtain ⟨hnn, hsum, hdisk⟩ := h.drain hpt
    simp only [Transfer.step, h.kind, hpt] at hstep
    obtain ⟨rfl, rfl⟩ := Prod.mk.inj (Option.some.inj hstep)
    refine ⟨⟨rfl, h.memory_eq, hsize, h.bytesRead, h.vaddr, fun i hi hlt => ?_, fun i hi => ?_,
      fun _ => hsum, fun hf => by cases hf⟩, ?_⟩
    · dsimp only at hlt ⊢
      by_cases hnew : c.bufferBuffer ≤ i
      · rw [memcpy_of_mem ⟨hnew, hlt⟩, zero_add, hdisk _ (by omega) (by omega), add_sub_cancel]
      · rw [memcpy_of_not_mem (by omega)]
        exact h.done i hi (by omega)
    · dsimp only
      rw [memcpy_of_not_mem (by omega)]
      exact h.rest i hi
    · simp only [left, hpt, if_true, reduceCtorEq, if_false]
      omega

theorem finish_of_none (h : c.step s m = none) (n : ℕ) : c.finish s n m = (m, c) := by
  cases n with
  | zero => rfl
  | succ n => simp only [Transfer.finish, h]

theorem finish_of_step {I : Machine → Transfer → Prop} (hleft : ∀ {m c}, I m c → 0 ≤ c.left)
    (hstep : ∀ {m c m' c'}, I m c → c.step s m = some (m', c') → I m' c' ∧ c'.left < c.left)
    (h : I m c) (n : ℕ) : I (c.finish s n m).1 (c.finish s n m).2 ∧
      (c.left ≤ n → (c.finish s n m).2.step s (c.finish s n m).1 = none) := by
  induction n generalizing m c with
  | zero =>
    refine ⟨h, fun hn => ?_⟩
    cases hc : c.step s m with
    | none => exact hc
    | some r =>
      obtain ⟨hr, hlt⟩ := hstep h hc
      have hnn := hleft hr
      omega
  | succ n ih =>
    unfold Transfer.finish
    cases hc : c.step s m with
    | none => exact ⟨h, fun _ => hc⟩
    | some r =>
      obtain ⟨hr, hlt⟩ := hstep h hc
      obtain ⟨hI, hnone⟩ := ih hr
      exact ⟨hI, fun hn => hnone (by omega)⟩

theorem left_nonneg (h : c.bytesRead ≤ c.size) : 0 ≤ c.left := by
  unfold left
  split_ifs <;> omega

theorem Copied.finish (hmapped : Mapped s v size) (h : Copied s memory buffer v size m c) (n : ℕ) :
    Copied s memory buffer v size (c.finish s n m).1 (c.finish s n m).2 ∧
      (c.left ≤ n → (c.finish s n m).2.step s (c.finish s n m).1 = none) :=
  finish_of_step (I := Copied s memory buffer v size)
    (fun h => left_nonneg (h.size_eq.symm ▸ h.bytesRead.2)) (fun h hc => h.step hmapped hc) h n

/-- A call that returns has copied everything. -/
theorem Copied.all (h : Copied s memory buffer v size m c) (hnone : c.step s m = none) :
    c.bufferBuffer = size := by
  cases hpt : c.point with
  | fill =>
    simp only [Transfer.step, h.kind, hpt] at hnone
    split_ifs at hnone with hlt
    have hle := h.bytesRead.2
    have hsize := h.size_eq
    have hbuffer := h.fill hpt
    omega
  | drain => simp [Transfer.step, h.kind, hpt] at hnone

theorem left_new (kind : Kind) (hsize : 0 ≤ size) (v physAddr : ℤ) (buffer : Chars) :
    (Transfer.new kind v buffer size physAddr).left ≤ (2 * size.toNat : ℕ) := by
  simp only [left, Transfer.new, reduceCtorEq, if_false]
  omega

theorem new_copied (s : AddrSpace) (hsize : 0 ≤ size) (m : Machine) (buffer : Chars) (v physAddr : ℤ) :
    Copied s m.mainMemory buffer v size m (.new .outOfMemory v buffer size physAddr) :=
  ⟨rfl, rfl, rfl, ⟨le_rfl, hsize⟩, by simp [Transfer.new],
    fun _ hi hlt => absurd hi (not_le.mpr hlt), fun _ _ => rfl, fun _ => rfl, fun h => by cases h⟩

end Transfer

/-- Copying out of memory is exact. -/
theorem userReadWrite_outOfMemory {s : AddrSpace} {v size : ℤ} (hmapped : Mapped s v size)
    (hsize : 0 ≤ size) (m : Machine) (buffer : Chars) (physAddr : ℤ) :
    let r := userReadWrite s m v buffer size .outOfMemory physAddr
    r.1.mainMemory = m.mainMemory ∧
    (∀ i, 0 ≤ i → i < size → r.2.buffer i = userByte s m.mainMemory (v + i)) ∧
    (∀ i, ¬ (0 ≤ i ∧ i < size) → r.2.buffer i = buffer i) := by
  obtain ⟨hcopied, hnone⟩ := (Transfer.new_copied s hsize m buffer v physAddr).finish hmapped
    (2 * size.toNat)
  have hall := hcopied.all (hnone (Transfer.left_new _ hsize _ _ _))
  exact ⟨hcopied.memory_eq, fun i hi hlt => hcopied.done i hi (by rw [hall]; exact hlt),
    hcopied.rest⟩

/-- Nobody fills `diskBuffer` while the chunk of another call is in it, and every
`memcpy` stays in the memory of its process and in the chunk. -/
structure Undisturbed (S : Spaces P) (σ : State P) (p : P) : Prop where
  alone : (σ.call p).point = .fill → ∀ q, q ≠ p → (σ.call q).point = .fill
  proper : (σ.call p).Proper (S.space p)

instance [Fintype P] (S : Spaces P) (σ : State P) (p : P) : Decidable (Undisturbed S σ p) :=
  decidable_of_iff (((σ.call p).point = .fill → ∀ q, q ≠ p → (σ.call q).point = .fill) ∧
    (σ.call p).Proper (S.space p)) ⟨fun h => ⟨h.1, h.2⟩, fun h => ⟨h.alone, h.proper⟩⟩

/-- Every process is at the beginning of its call. -/
def start (m : Machine) (kind : P → Kind) (vaddr : P → ℤ) (buffer : P → Chars)
    (size physAddr : P → ℤ) : State P :=
  ⟨m, fun p => .new (kind p) (vaddr p) (buffer p) (size p) (physAddr p)⟩

section runs
variable {S : Spaces P} {σ σ' τ : State P} {p q : P}

/-- The two states look the same to `p`. -/
structure Alike (S : Spaces P) (p : P) (σ τ : State P) : Prop where
  call : τ.call p = σ.call p
  same : (σ.call p).Same (S.space p) σ.machine τ.machine

/-- Nothing of what the others see has changed. -/
structure Apart (S : Spaces P) (p : P) (σ τ : State P) : Prop where
  call : ∀ q, q ≠ p → τ.call q = σ.call q
  memory : ∀ a, ¬ Owns (S.space p) a → τ.machine.mainMemory a = σ.machine.mainMemory a

omit [DecidableEq P] in
theorem Apart.trans {υ : State P} (h : Apart S p σ τ) (h' : Apart S p τ υ) : Apart S p σ υ :=
  ⟨fun q hq => (h'.call q hq).trans (h.call q hq),
    fun a ha => (h'.memory a ha).trans (h.memory a ha)⟩

theorem step_eq (h : Step S σ p σ') : ∃ m c, (σ.call p).step (S.space p) σ.machine = some (m, c) ∧
    σ' = ⟨m, Function.update σ.call p c⟩ := by
  obtain ⟨⟨m, c⟩, hstep, rfl⟩ := Option.map_eq_some_iff.mp h
  exact ⟨m, c, hstep, rfl⟩

theorem step_wellFormed (hw : ∀ p, (σ.call p).WellFormed) (hg : Undisturbed S σ p)
    (h : Step S σ p σ') : ∀ q, (σ'.call q).WellFormed := by
  obtain ⟨m, c, hstep, rfl⟩ := step_eq h
  intro q
  by_cases hq : q = p
  · have hsame : (σ.call p).Same (S.space p) σ.machine σ.machine :=
      ⟨fun _ _ => rfl, fun _ _ _ _ => rfl⟩
    rw [hq]
    simpa using (Transfer.step_same (hw p) hg.proper hsame hstep).1
  · simpa [hq] using hw q

/-- A step of `p` can be made in a state that looks the same to `p`. -/
theorem Alike.own (h : Alike S p σ τ) (hw : (σ.call p).WellFormed) (hg : Undisturbed S σ p)
    (hstep : Step S σ p σ') : ∃ τ', Step S τ p τ' ∧ Alike S p σ' τ' ∧ Apart S p τ τ' := by
  obtain ⟨m, c, hc, rfl⟩ := step_eq hstep
  obtain ⟨-, n, hn, hsame⟩ := Transfer.step_same hw hg.proper h.same hc
  have hw' : (τ.call p).WellFormed := by rwa [h.call]
  have hproper : (τ.call p).Proper (S.space p) := by
    rw [h.call]
    exact hg.proper
  rw [← h.call] at hn
  refine ⟨⟨n, Function.update τ.call p c⟩, by rw [Step, State.step, hn]; rfl, ⟨?_, ?_⟩, ?_⟩
  · simp
  · simpa using hsame
  · exact ⟨fun q hq => Function.update_of_ne hq _ _,
      (Transfer.step_frame hw' hproper hn).1⟩

/-- `p` sees nothing of a step of `q`. -/
theorem Alike.other (h : Alike S p σ τ) (hpq : p ≠ q) (hw : (σ.call q).WellFormed)
    (hg : Undisturbed S σ q) (hstep : Step S σ q σ') : Alike S p σ' τ := by
  obtain ⟨m, c, hc, rfl⟩ := step_eq hstep
  obtain ⟨hmemory, hdisk⟩ := Transfer.step_frame hw hg.proper hc
  refine ⟨?_, fun a ha => ?_, fun hpt => ?_⟩
  · simpa [hpq] using h.call
  · exact (hmemory a (S.apart hpq ha)).trans (h.same.memory a ha)
  · simp only [Function.update_of_ne hpq] at hpt ⊢
    cases hq : (σ.call q).point with
    | fill => exact absurd ((hg.alone hq p hpq).symm.trans hpt) (by simp)
    | drain =>
      rw [hdisk hq]
      exact h.same.chunk hpt

/-- The steps of `p` alone have the same effect for `p` as the whole run. -/
theorem run_alone {as : List P} (hrun : Run (Step S) (Undisturbed S) σ as σ')
    (hw : ∀ p, (σ.call p).WellFormed) (h : Alike S p σ τ) :
    ∃ τ', Run (Step S) Free τ (as.filter (· = p)) τ' ∧ Alike S p σ' τ' ∧ Apart S p τ τ' := by
  induction hrun generalizing τ with
  | nil σ => exact ⟨τ, .nil τ, h, fun _ _ => rfl, fun _ _ => rfl⟩
  | @cons σ σ₁ σ₂ q as hg hstep _ ih =>
    by_cases hq : q = p
    · subst hq
      obtain ⟨τ₁, hτ₁, halike, hapart⟩ := h.own (hw q) hg hstep
      obtain ⟨τ₂, hτ₂, halike₂, hapart₂⟩ := ih (step_wellFormed hw hg hstep) halike
      refine ⟨τ₂, ?_, halike₂, hapart.trans hapart₂⟩
      rw [List.filter_cons_of_pos (by simp)]
      exact .cons trivial hτ₁ hτ₂
    · rw [List.filter_cons_of_neg (by simpa using hq)]
      exact ih (step_wellFormed hw hg hstep) (h.other (Ne.symm hq) (hw q) hg hstep)

/-- After every run in which nobody fills `diskBuffer` while the chunk of another call
is in it and no `memcpy` leaves its chunk or the memory of its process, the calls,
with their buffers, and the memory of two processes are as if all steps of the
one had been made before those of the other. -/
theorem transfers_unmixed (S : Spaces P) (m : Machine) (kind : P → Kind) (vaddr : P → ℤ)
    (buffer : P → Chars) (size physAddr : P → ℤ) (as : List P) (σ : State P)
    (hrun : Run (Step S) (Undisturbed S) (start m kind vaddr buffer size physAddr) as σ)
    (p q : P) (hpq : p ≠ q) :
    ∃ σ₁ σ₂, Run (Step S) Free (start m kind vaddr buffer size physAddr)
        (as.filter (· = p)) σ₁ ∧ Run (Step S) Free σ₁ (as.filter (· = q)) σ₂ ∧
      σ₂.call p = σ.call p ∧ σ₂.call q = σ.call q ∧
      ∀ a, Owns (S.space p) a ∨ Owns (S.space q) a →
        σ₂.machine.mainMemory a = σ.machine.mainMemory a := by
  have hw : ∀ p, ((start m kind vaddr buffer size physAddr).call p).WellFormed :=
    fun p => ⟨le_rfl, le_rfl, fun h => by cases h⟩
  obtain ⟨σ₁, hrun₁, halike₁, hapart₁⟩ := run_alone (p := p) hrun hw
    ⟨rfl, fun _ _ => rfl, fun _ _ _ _ => rfl⟩
  have hq : Alike S q (start m kind vaddr buffer size physAddr) σ₁ :=
    ⟨hapart₁.call q hpq.symm, fun a ha => (hapart₁.memory a (S.apart hpq.symm ha)).symm,
      fun h => by cases h⟩
  obtain ⟨σ₂, hrun₂, halike₂, hapart₂⟩ := run_alone hrun hw hq
  refine ⟨σ₁, σ₂, hrun₁, hrun₂, (hapart₂.call p hpq).trans halike₁.call, halike₂.call, ?_⟩
  rintro a (ha | ha)
  · exact (hapart₂.memory a (S.apart hpq ha)).trans (halike₁.same.memory a ha).symm
  · exact (halike₂.same.memory a ha).symm

end runs

/-- Two processes of one page each, in the frames 0 and 1. -/
def onePage (p : Bool) : AddrSpace := ⟨1, fun vpn => ⟨decide (vpn = 0), if p then 1 else 0⟩⟩

theorem onePage_owns {p : Bool} {a : ℤ} (h : Owns (onePage p) a) :
    a / pageSize = if p then 1 else 0 := by
  obtain ⟨v, hv, h⟩ := h
  have hlt : v.tmod pageSize < pageSize := Int.tmod_lt_of_pos _ (by decide)
  have hnn : 0 ≤ v.tmod pageSize := Int.tmod_nonneg _ hv
  obtain ⟨-, rfl⟩ := translate_eq_some h
  simp only [onePage]
  unfold pageSize at *
  split_ifs <;> omega

def twoSpaces : Spaces Bool where
  space := onePage
  apart := by
    intro p q a hpq hp hq
    have h := (onePage_owns hp).symm.trans (onePage_owns hq)
    revert hpq h
    cases p <;> cases q <;> simp

/-- Both processes copy one byte out of their memory; the first holds a 1 and the
second a 2. -/
def twoWrites : State Bool :=
  start ⟨fun _ => 0, fun a => if a < 128 then 1 else 2⟩ (fun _ => .outOfMemory) (fun _ => 0)
    (fun _ _ => 0) (fun _ => 1) fun _ => 0

/-- One call fills and empties `diskBuffer` before the other one. -/
theorem transfers_unmixed_in_turn :
    ∃ σ σ₁ σ₂ : State Bool,
      Run (Step twoSpaces) (Undisturbed twoSpaces) twoWrites [true, true, false, false] σ ∧
      Run (Step twoSpaces) Free twoWrites [false, false] σ₁ ∧
      Run (Step twoSpaces) Free σ₁ [true, true] σ₂ ∧
      (σ.call false).buffer 0 = 1 ∧ (σ.call true).buffer 0 = 2 ∧
      σ₂.call false = σ.call false ∧ σ₂.call true = σ.call true := by
  obtain ⟨σ, hrun, hk⟩ := exists_guarded_run_of_exec (State.step twoSpaces)
    (Undisturbed twoSpaces) twoWrites [true, true, false, false]
    (fun σ => (σ.call false).buffer 0 = 1 ∧ (σ.call true).buffer 0 = 2) (by decide)
  obtain ⟨hfalse, htrue⟩ := of_decide_eq_true hk
  obtain ⟨σ₁, σ₂, h₁, h₂, hp, hq, -⟩ :=
    transfers_unmixed twoSpaces _ _ _ _ _ _ _ σ hrun false true (by decide)
  exact ⟨σ, σ₁, σ₂, hrun, h₁, h₂, hfalse, htrue, hp, hq⟩

/-- The second process fills `diskBuffer` between the two copies of the first one,
which takes the byte of the second; in turn it takes its own. -/
theorem chunk_overwritten :
    (∃ σ : State Bool, Run (Step twoSpaces) Free twoWrites [false, true, false, true] σ ∧
      (σ.call false).buffer 0 = 2) ∧
    (∃ σ : State Bool, Run (Step twoSpaces) Free twoWrites [false, false, true, true] σ ∧
      (σ.call false).buffer 0 = 1) := by
  obtain ⟨σ, hrun, hσ⟩ := exists_run_of_exec (State.step twoSpaces) twoWrites
    [false, true, false, true] (fun σ => (σ.call false).buffer 0 = 2) (by decide)
  obtain ⟨τ, hrun', hτ⟩ := exists_run_of_exec (State.step twoSpaces) twoWrites
    [false, false, true, true] (fun σ => (σ.call false).buffer 0 = 1) (by decide)
  exact ⟨⟨σ, hrun, of_decide_eq_true hσ⟩, ⟨τ, hrun', of_decide_eq_true hτ⟩⟩

end Nachos.UserTransfers
