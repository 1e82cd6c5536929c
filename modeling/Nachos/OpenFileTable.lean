import Nachos.BitMap
import Nachos.GuardedRuns
import Mathlib.Data.List.TakeWhile
import Mathlib.Data.Finset.Prod

/-!
# The system-wide and the per-process tables of open files

`SysOpenFileManager` keeps one entry per open file with the number of user
opens, and every `PCB` keeps the records of its own opens. The system calls
`Open`, `Close` and `Exit` are taken one after another. `fileSystem->Open`
belongs to another component: the label of an `Open` says what it returned.

A record of a `PCB` is identified by its slot, since every `Open` allocates a
new `UserOpenFile` and the pointer comparison in `PCB::CloseFile` finds the
very slot that the search of `myClose` stopped at. Offsets are not kept here.
`none` is an aborted simulator: a failed assertion of the bit map, or a field
read through the null pointer that `Get` returned.
-/
namespace Nachos.OpenFileTable
open GuardedRuns

def sofileTableSize : ℕ := 128
def maxUserFiles : ℕ := 32

structure SysOpenFile (N F : Type*) where
  fileName : N
  file : Option F
  fileID : ℤ
  userOpens : ℤ

structure SysOpenFileManager (N F : Type*) where
  sysOpenFileTable : ℕ → SysOpenFile N F
  bitMap : BitMap

structure UserOpenFile (N : Type*) where
  fileName : N
  index : ℤ

structure PCB (N : Type*) where
  openFiles : ℕ → UserOpenFile N
  files : BitMap

section manager
variable {N F : Type*}

def SysOpenFileManager.set (m : SysOpenFileManager N F) (i : ℕ) (f : SysOpenFile N F) :
    SysOpenFileManager N F :=
  { m with sysOpenFileTable := Function.update m.sysOpenFileTable i f }

/-- The entry is stored, and its id set, only when a slot is free. -/
def SysOpenFileManager.add (m : SysOpenFileManager N F) (f : SysOpenFile N F) :
    ℤ × SysOpenFileManager N F :=
  let r := m.bitMap.find
  if r.1 < 0 then (-1, m)
  else (r.1, { m with bitMap := r.2 }.set r.1.toNat { f with fileID := r.1 + 2 })

/-- The search by name ends at the first slot that is not marked. -/
def SysOpenFileManager.getByName [DecidableEq N] (m : SysOpenFileManager N F) (name : N) :
    Option ℕ :=
  ((List.range sofileTableSize).takeWhile m.bitMap.bit).find? fun i =>
    (m.sysOpenFileTable i).fileName = name

/-- The inner `none` is the null pointer. -/
def SysOpenFileManager.get (m : SysOpenFileManager N F) (index : ℤ) :
    Option (Option (SysOpenFile N F)) :=
  if index ≥ sofileTableSize then some none
  else (m.bitMap.test index).map fun marked =>
    if marked then some (m.sysOpenFileTable index.toNat) else none

def SysOpenFileManager.close (m : SysOpenFileManager N F) (index : ℤ) :
    Option (SysOpenFileManager N F) :=
  if index ≥ sofileTableSize then some m
  else (m.bitMap.test index).bind fun marked =>
    if marked then
      let f := m.sysOpenFileTable index.toNat
      let g := { f with userOpens := f.userOpens - 1 }
      if g.userOpens = 0 then (m.bitMap.clear index).map fun b => { m with bitMap := b }
      else some (m.set index.toNat g)
    else some m

def PCB.addFile (p : PCB N) (f : UserOpenFile N) : PCB N :=
  let r := p.files.find
  if r.1 > -1 then ⟨Function.update p.openFiles r.1.toNat f, r.2⟩ else { p with files := r.2 }

/-- The loop of `myClose`: the first own slot whose entry has the given id. -/
def findOpen (m : SysOpenFileManager N F) (p : PCB N) (id : ℤ) : List ℕ → Option (Option ℕ)
  | [] => some none
  | i :: is =>
    if p.files.bit i then
      match m.get (p.openFiles i).index with
      | some (some f) => if f.fileID = id then some (some i) else findOpen m p id is
      | _ => none
    else findOpen m p id is

end manager

inductive Label (P N F : Type*) where
  | exec (p : P) (pcb : PCB N)
  | open (p : P) (name : N) (opened : Option F)
  | close (p : P) (id : ℤ)
  | exit (p : P)

structure State (P N F : Type*) where
  fm : SysOpenFileManager N F
  pcb : P → PCB N
  live : Finset P

variable {P N F : Type*} [DecidableEq P] [DecidableEq N]

def State.openFile (s : State P N F) (p : P) (name : N) (opened : Option F) : State P N F :=
  let r : ℤ × SysOpenFileManager N F :=
    match s.fm.getByName name with
    | some i =>
      let f := s.fm.sysOpenFileTable i
      (i, s.fm.set i { f with userOpens := f.userOpens + 1 })
    | none => s.fm.add ⟨name, opened, -1, 1⟩
  { s with fm := r.2, pcb := Function.update s.pcb p ((s.pcb p).addFile ⟨name, r.1⟩) }

def State.closeFile (s : State P N F) (p : P) (id : ℤ) : Option (State P N F) :=
  (findOpen s.fm (s.pcb p) id (List.range maxUserFiles)).bind fun
    | none => some s
    | some i =>
      (s.fm.close ((s.pcb p).openFiles i).index).map fun m =>
        { s with
          fm := m
          pcb := Function.update s.pcb p { s.pcb p with files := (s.pcb p).files.resetBit i } }

/-- A new `PCB` starts from whatever its storage holds. `ExitProcess` closes
nothing. -/
def step (s : State P N F) : Label P N F → Option (State P N F)
  | .exec p pcb =>
    if p ∈ s.live then none
    else some { s with
      pcb := Function.update s.pcb p ⟨pcb.openFiles, BitMap.create pcb.files.map maxUserFiles⟩
      live := insert p s.live }
  | .open p name opened => if p ∈ s.live then some (s.openFile p name opened) else none
  | .close p id => if p ∈ s.live then s.closeFile p id else none
  | .exit p => if p ∈ s.live then some { s with live := s.live.erase p } else none

def Step (s : State P N F) (l : Label P N F) (t : State P N F) : Prop := step s l = some t

def initial (table : ℕ → SysOpenFile N F) (storage : ℕ → Word) (pcb : P → PCB N) :
    State P N F :=
  ⟨⟨table, BitMap.create storage sofileTableSize⟩, pcb, ∅⟩

/-- The records with a given index in the tables of the processes that run. -/
def State.holders (s : State P N F) (k : ℕ) : Finset (P × ℕ) :=
  (s.live ×ˢ Finset.range maxUserFiles).filter fun r =>
    (s.pcb r.1).files.bit r.2 = true ∧ ((s.pcb r.1).openFiles r.2).index = k

/-- The open-file tables agree. -/
structure Agree (s : State P N F) : Prop where
  file : ∀ i < sofileTableSize, s.fm.bitMap.bit i = true →
    (s.fm.sysOpenFileTable i).file ≠ none
  opens : ∀ i < sofileTableSize, s.fm.bitMap.bit i = true →
    (s.fm.sysOpenFileTable i).userOpens = (s.holders i).card ∧ 1 ≤ (s.holders i).card
  names : ∀ i < sofileTableSize, ∀ j < sofileTableSize, s.fm.bitMap.bit i = true →
    s.fm.bitMap.bit j = true →
    (s.fm.sysOpenFileTable i).fileName = (s.fm.sysOpenFileTable j).fileName → i = j
  unmarked : ∀ i < sofileTableSize, s.fm.bitMap.bit i = false → s.holders i = ∅

/-- `Open` finds a free own slot; a file that is open has no free slot before
its own, and any other file exists and finds a free slot. `Exit` is called
with every file closed. -/
def Regular (s : State P N F) : Label P N F → Prop
  | .exec _ _ => True
  | .open p name opened => (s.pcb p).files.numClear ≠ 0 ∧
    ((∃ i < sofileTableSize, s.fm.bitMap.bit i = true ∧
        (s.fm.sysOpenFileTable i).fileName = name ∧ ∀ j < i, s.fm.bitMap.bit j = true) ∨
      ((∀ i < sofileTableSize, s.fm.bitMap.bit i = true →
        (s.fm.sysOpenFileTable i).fileName ≠ name) ∧
        opened ≠ none ∧ s.fm.bitMap.numClear ≠ 0))
  | .close _ _ => True
  | .exit p => ∀ i < maxUserFiles, (s.pcb p).files.bit i = false

/-- The slots of the system table against any reference counts. -/
structure SysOpenFileManager.Counts (m : SysOpenFileManager N F) (c : ℕ → ℕ) : Prop where
  numBits : m.bitMap.numBits = sofileTableSize
  file : ∀ i < sofileTableSize, m.bitMap.bit i = true → (m.sysOpenFileTable i).file ≠ none
  ids : ∀ i < sofileTableSize, m.bitMap.bit i = true → (m.sysOpenFileTable i).fileID = i + 2
  opens : ∀ i < sofileTableSize, m.bitMap.bit i = true →
    (m.sysOpenFileTable i).userOpens = c i ∧ 1 ≤ c i
  names : ∀ i < sofileTableSize, ∀ j < sofileTableSize, m.bitMap.bit i = true →
    m.bitMap.bit j = true →
    (m.sysOpenFileTable i).fileName = (m.sysOpenFileTable j).fileName → i = j
  unmarked : ∀ i < sofileTableSize, m.bitMap.bit i = false → c i = 0

structure Inv (s : State P N F) : Prop where
  userBits : ∀ p ∈ s.live, (s.pcb p).files.numBits = maxUserFiles
  index : ∀ p ∈ s.live, ∀ i < maxUserFiles, (s.pcb p).files.bit i = true →
    ∃ k < sofileTableSize, ((s.pcb p).openFiles i).index = k
  counts : s.fm.Counts fun k => (s.holders k).card

omit [DecidableEq P] [DecidableEq N] in
theorem mem_holders {s : State P N F} {k : ℕ} {p : P} {i : ℕ} :
    (p, i) ∈ s.holders k ↔ p ∈ s.live ∧ i < maxUserFiles ∧ (s.pcb p).files.bit i = true ∧
      ((s.pcb p).openFiles i).index = k := by
  simp [State.holders, and_assoc]

/-- One more record, in a slot of its table that was free. -/
def State.record (s : State P N F) (m : SysOpenFileManager N F) (p : P) (j : ℕ)
    (f : UserOpenFile N) : State P N F :=
  { s with
    fm := m
    pcb := Function.update s.pcb p
      ⟨Function.update (s.pcb p).openFiles j f, (s.pcb p).files.setBit j⟩ }

def State.unrecord (s : State P N F) (m : SysOpenFileManager N F) (p : P) (j : ℕ) :
    State P N F :=
  { s with
    fm := m
    pcb := Function.update s.pcb p { s.pcb p with files := (s.pcb p).files.resetBit j } }

omit [DecidableEq N] in
theorem holders_record {s : State P N F} (m : SysOpenFileManager N F) {p : P} {j : ℕ}
    (f : UserOpenFile N) (hp : p ∈ s.live) (hj : j < maxUserFiles)
    (hclear : (s.pcb p).files.bit j = false) (k : ℕ) :
    (s.record m p j f).holders k =
      if f.index = k then insert (p, j) (s.holders k) else s.holders k := by
  ext ⟨q, i⟩
  have hmem : (q, i) ∈ (s.record m p j f).holders k ↔
      ((q, i) = (p, j) ∧ f.index = k) ∨ (q, i) ∈ s.holders k := by
    rw [mem_holders, mem_holders]
    by_cases hq : q = p
    · subst hq
      by_cases hi : i = j
      · subst hi
        simp [State.record, hp, hj, hclear]
      · simp [State.record, hi, Ne.symm hi]
    · simp [State.record, hq]
  rw [hmem]
  split_ifs with hk <;> simp [hk]

omit [DecidableEq N] in
theorem holders_unrecord (s : State P N F) (m : SysOpenFileManager N F) (p : P) (j k : ℕ) :
    (s.unrecord m p j).holders k = (s.holders k).erase (p, j) := by
  ext ⟨q, i⟩
  rw [Finset.mem_erase, mem_holders, mem_holders]
  by_cases hq : q = p
  · subst hq
    by_cases hi : i = j
    · simp [State.unrecord, hi]
    · simp [State.unrecord, hi, Ne.symm hi]
  · simp [State.unrecord, hq]

theorem mem_takeWhile_range {p : ℕ → Bool} {n i : ℕ} (hi : i < n) (h : ∀ j ≤ i, p j = true) :
    i ∈ (List.range n).takeWhile p := by
  obtain ⟨d, rfl⟩ : ∃ d, n = (i + 1) + d := ⟨n - (i + 1), by omega⟩
  rw [List.range_add, List.takeWhile_append_of_pos]
  · simp
  · intro j hj
    exact h j (Nat.lt_succ_iff.mp (List.mem_range.mp hj))

theorem getByName_some {m : SysOpenFileManager N F} {name : N} {i : ℕ}
    (h : m.getByName name = some i) :
    i < sofileTableSize ∧ m.bitMap.bit i = true ∧ (m.sysOpenFileTable i).fileName = name := by
  have hmem := List.mem_of_find?_eq_some h
  exact ⟨List.mem_range.mp (List.takeWhile_subset _ hmem), List.mem_takeWhile_imp hmem,
    by simpa using List.find?_some h⟩

theorem getByName_none {m : SysOpenFileManager N F} {name : N} {i : ℕ}
    (h : m.getByName name = none) (hi : i < sofileTableSize)
    (hmarked : ∀ j ≤ i, m.bitMap.bit j = true) : (m.sysOpenFileTable i).fileName ≠ name := by
  have hmem := mem_takeWhile_range hi hmarked
  simpa using List.find?_eq_none.mp h i hmem

omit [DecidableEq N] in
theorem addFile_eq {p : PCB N} (h : p.files.numClear ≠ 0) :
    ∃ j < p.files.numBits, p.files.bit j = false ∧
      ∀ f, p.addFile f = ⟨Function.update p.openFiles j f, p.files.setBit j⟩ := by
  rcases p.files.find_cases with ⟨j, hj, hclear, -, hfind⟩ | ⟨hfull, -⟩
  · refine ⟨j, hj, hclear, fun f => ?_⟩
    simp only [PCB.addFile, hfind, Int.toNat_natCast]
    rw [if_pos (by omega)]
  · exact absurd ((BitMap.numClear_eq_zero_iff _).mpr hfull) h

omit [DecidableEq N] in
theorem add_eq {m : SysOpenFileManager N F} (f : SysOpenFile N F) (h : m.bitMap.numClear ≠ 0) :
    ∃ k < m.bitMap.numBits, m.bitMap.bit k = false ∧
      m.add f = ((k : ℤ), { m with bitMap := m.bitMap.setBit k }.set k
        { f with fileID := (k : ℤ) + 2 }) := by
  rcases m.bitMap.find_cases with ⟨k, hk, hclear, -, hfind⟩ | ⟨hfull, -⟩
  · refine ⟨k, hk, hclear, ?_⟩
    simp only [SysOpenFileManager.add, hfind, Int.toNat_natCast]
    rw [if_neg (by omega)]
  · exact absurd ((BitMap.numClear_eq_zero_iff _).mpr hfull) h

section counts
variable {m : SysOpenFileManager N F} {c : ℕ → ℕ}

omit [DecidableEq N] in
/-- A change of one marked entry that keeps its name, file and id. -/
theorem SysOpenFileManager.Counts.recount (h : m.Counts c) {k n : ℕ}
    (hmarked : m.bitMap.bit k = true) (hn : 1 ≤ n) :
    (m.set k { m.sysOpenFileTable k with userOpens := n }).Counts (Function.update c k n) := by
  have he : ∀ i, i ≠ k →
      (m.set k { m.sysOpenFileTable k with userOpens := n }).sysOpenFileTable i =
        m.sysOpenFileTable i := fun i hi => by simp [SysOpenFileManager.set, hi]
  have hk : (m.set k { m.sysOpenFileTable k with userOpens := n }).sysOpenFileTable k =
      { m.sysOpenFileTable k with userOpens := (n : ℤ) } := by simp [SysOpenFileManager.set]
  have hname : ∀ i, ((m.set k { m.sysOpenFileTable k with
      userOpens := n }).sysOpenFileTable i).fileName = (m.sysOpenFileTable i).fileName := by
    intro i
    by_cases hi : i = k
    · rw [hi, hk]
    · rw [he i hi]
  constructor
  · exact h.numBits
  · intro i hi hbit
    by_cases hik : i = k
    · subst hik
      rw [hk]
      exact h.file i hi hbit
    · rw [he i hik]
      exact h.file i hi hbit
  · intro i hi hbit
    by_cases hik : i = k
    · subst hik
      rw [hk]
      exact h.ids i hi hbit
    · rw [he i hik]
      exact h.ids i hi hbit
  · intro i hi hbit
    by_cases hik : i = k
    · subst hik
      rw [hk, Function.update_self]
      exact ⟨rfl, hn⟩
    · rw [he i hik, Function.update_of_ne hik]
      exact h.opens i hi hbit
  · intro i hi j hj hbi hbj hij
    rw [hname, hname] at hij
    exact h.names i hi j hj hbi hbj hij
  · intro i hi hbit
    have hik : i ≠ k := by
      rintro rfl
      exact absurd hmarked (by simpa [SysOpenFileManager.set] using hbit)
    rw [Function.update_of_ne hik]
    exact h.unmarked i hi hbit

omit [DecidableEq N] in
/-- A new entry in a free slot, for a name that no marked slot carries. -/
theorem SysOpenFileManager.Counts.enter (h : m.Counts c) {k : ℕ} {f : SysOpenFile N F}
    (hfile : f.file ≠ none) (hid : f.fileID = (k : ℤ) + 2) (hopens : f.userOpens = 1)
    (hnew : ∀ i < sofileTableSize, m.bitMap.bit i = true →
      (m.sysOpenFileTable i).fileName ≠ f.fileName) :
    ({ m with bitMap := m.bitMap.setBit k }.set k f).Counts (Function.update c k 1) := by
  have hbits : ∀ i, ({ m with bitMap := m.bitMap.setBit k }.set k f).bitMap.bit i = true ↔
      i = k ∨ m.bitMap.bit i = true := by
    intro i
    simp only [SysOpenFileManager.set, BitMap.bit_setBit, Bool.or_eq_true, decide_eq_true_eq]
    exact or_congr_left eq_comm
  have hk : ({ m with bitMap := m.bitMap.setBit k }.set k f).sysOpenFileTable k = f := by
    simp [SysOpenFileManager.set]
  have he : ∀ i, i ≠ k → ({ m with bitMap := m.bitMap.setBit k }.set k f).sysOpenFileTable i =
      m.sysOpenFileTable i := fun i hi => by simp [SysOpenFileManager.set, hi]
  constructor
  · exact h.numBits
  · intro i hi hbit
    rcases (hbits i).mp hbit with rfl | hbit
    · rwa [hk]
    · by_cases hik : i = k
      · rwa [hik, hk]
      · rw [he i hik]
        exact h.file i hi hbit
  · intro i hi hbit
    rcases (hbits i).mp hbit with rfl | hbit
    · rwa [hk]
    · by_cases hik : i = k
      · rwa [hik, hk]
      · rw [he i hik]
        exact h.ids i hi hbit
  · intro i hi hbit
    by_cases hik : i = k
    · rw [hik, hk, Function.update_self]
      exact ⟨hopens, le_rfl⟩
    · rw [he i hik, Function.update_of_ne hik]
      exact h.opens i hi (((hbits i).mp hbit).resolve_left hik)
  · intro i hi j hj hbi hbj hij
    by_cases hik : i = k
    · by_cases hjk : j = k
      · rw [hik, hjk]
      · rw [hik, hk, he j hjk] at hij
        exact absurd hij.symm (hnew j hj (((hbits j).mp hbj).resolve_left hjk))
    · by_cases hjk : j = k
      · rw [hjk, hk, he i hik] at hij
        exact absurd hij (hnew i hi (((hbits i).mp hbi).resolve_left hik))
      · rw [he i hik, he j hjk] at hij
        exact h.names i hi j hj (((hbits i).mp hbi).resolve_left hik)
          (((hbits j).mp hbj).resolve_left hjk) hij
  · intro i hi hbit
    have hnot : ¬ (i = k ∨ m.bitMap.bit i = true) := fun hor => by
      rw [(hbits i).mpr hor] at hbit
      cases hbit
    rw [Function.update_of_ne fun hik => hnot (Or.inl hik)]
    exact h.unmarked i hi (Bool.eq_false_iff.mpr fun hb => hnot (Or.inr hb))

omit [DecidableEq N] in
/-- The last close frees the slot. -/
theorem SysOpenFileManager.Counts.free (h : m.Counts c) (k : ℕ) :
    SysOpenFileManager.Counts { m with bitMap := m.bitMap.resetBit k }
      (Function.update c k 0) := by
  have hbits : ∀ i, (m.bitMap.resetBit k).bit i = true → i ≠ k ∧ m.bitMap.bit i = true := by
    intro i hi
    rw [BitMap.bit_resetBit] at hi
    simp only [Bool.and_eq_true, Bool.not_eq_true', decide_eq_false_iff_not] at hi
    exact ⟨Ne.symm hi.1, hi.2⟩
  constructor
  · exact h.numBits
  · exact fun i hi hbit => h.file i hi (hbits i hbit).2
  · exact fun i hi hbit => h.ids i hi (hbits i hbit).2
  · intro i hi hbit
    rw [Function.update_of_ne (hbits i hbit).1]
    exact h.opens i hi (hbits i hbit).2
  · exact fun i hi j hj hbi hbj => h.names i hi j hj (hbits i hbi).2 (hbits j hbj).2
  · intro i hi hbit
    by_cases hik : i = k
    · rw [hik, Function.update_self]
    · rw [Function.update_of_ne hik]
      refine h.unmarked i hi ?_
      simpa [Ne.symm hik] using hbit

omit [DecidableEq N] in
/-- `Close` of a marked slot takes one away from its count and nothing else. -/
theorem SysOpenFileManager.Counts.close (h : m.Counts c) {k : ℕ} (hk : k < sofileTableSize)
    (hmarked : m.bitMap.bit k = true) :
    ∃ m', m.close k = some m' ∧ m'.Counts (Function.update c k (c k - 1)) := by
  have hr : m.bitMap.InRange k := ⟨by omega, by rw [h.numBits]; exact_mod_cast hk⟩
  have hlt : ¬ ((k : ℤ) ≥ sofileTableSize) := by omega
  obtain ⟨hopens, hone⟩ := h.opens k hk hmarked
  simp only [SysOpenFileManager.close, hlt, ↓reduceIte, BitMap.test, BitMap.clear, hr,
    Option.bind_some, Int.toNat_natCast, hmarked, Option.map_some]
  split_ifs with hz
  · refine ⟨_, rfl, ?_⟩
    have hc : c k - 1 = 0 := by omega
    rw [hc]
    exact h.free k
  · refine ⟨_, rfl, ?_⟩
    have hc : (m.sysOpenFileTable k).userOpens - 1 = ((c k - 1 : ℕ) : ℤ) := by omega
    rw [hc]
    exact h.recount hmarked (by omega)

end counts

omit [DecidableEq P] [DecidableEq N] in
theorem Inv.agree {s : State P N F} (h : Inv s) : Agree s where
  file := h.counts.file
  opens := h.counts.opens
  names := h.counts.names
  unmarked i hi hbit := Finset.card_eq_zero.mp (h.counts.unmarked i hi hbit)

omit [DecidableEq P] [DecidableEq N] in
/-- A record of a running process keeps its slot of the system table marked. -/
theorem Inv.marked {s : State P N F} (h : Inv s) {p : P} (hp : p ∈ s.live) {i k : ℕ}
    (hi : i < maxUserFiles) (hbit : (s.pcb p).files.bit i = true) (hk : k < sofileTableSize)
    (hidx : ((s.pcb p).openFiles i).index = k) : s.fm.bitMap.bit k = true := by
  by_contra hb
  have hz := h.counts.unmarked k hk (Bool.eq_false_iff.mpr hb)
  have hmem : (p, i) ∈ s.holders k := mem_holders.mpr ⟨hp, hi, hbit, hidx⟩
  rw [Finset.card_eq_zero.mp hz] at hmem
  exact absurd hmem (Finset.notMem_empty _)

omit [DecidableEq N] in
theorem Inv.record {s : State P N F} (h : Inv s) {p : P} (hp : p ∈ s.live) {j k : ℕ} (name : N)
    (hj : j < maxUserFiles) (hclear : (s.pcb p).files.bit j = false) (hk : k < sofileTableSize)
    {m : SysOpenFileManager N F}
    (hm : m.Counts (Function.update (fun i => (s.holders i).card) k ((s.holders k).card + 1))) :
    Inv (s.record m p j ⟨name, k⟩) := by
  have hcard : (fun i => ((s.record m p j ⟨name, k⟩).holders i).card) =
      Function.update (fun i => (s.holders i).card) k ((s.holders k).card + 1) := by
    funext i
    rw [holders_record m _ hp hj hclear]
    by_cases hik : i = k
    · subst hik
      rw [if_pos rfl, Finset.card_insert_of_notMem (by simp [mem_holders, hclear]),
        Function.update_self]
    · rw [if_neg (by simpa using Ne.symm hik), Function.update_of_ne hik]
  refine ⟨?_, ?_, by rw [hcard]; exact hm⟩
  · intro q hq
    by_cases hqp : q = p
    · subst hqp
      simpa [State.record] using h.userBits q hq
    · simpa [State.record, hqp] using h.userBits q hq
  · intro q hq i hi hbit
    by_cases hqp : q = p
    · subst hqp
      by_cases hij : i = j
      · subst hij
        exact ⟨k, hk, by simp [State.record]⟩
      · have hb : (s.pcb q).files.bit i = true := by
          simpa [State.record, Ne.symm hij] using hbit
        simpa [State.record, hij] using h.index q hq i hi hb
    · have hb : (s.pcb q).files.bit i = true := by simpa [State.record, hqp] using hbit
      simpa [State.record, hqp] using h.index q hq i hi hb

theorem Inv.open {s : State P N F} (h : Inv s) {p : P} (hp : p ∈ s.live) {name : N}
    {opened : Option F} (hg : Regular s (.open p name opened)) :
    Inv (s.openFile p name opened) := by
  obtain ⟨hfree, hcase⟩ := hg
  obtain ⟨j, hj, hclear, hadd⟩ := addFile_eq hfree
  rw [h.userBits p hp] at hj
  cases hget : s.fm.getByName name with
  | some k =>
    simp only [State.openFile, hadd, hget]
    obtain ⟨hk, hmarked, -⟩ := getByName_some hget
    obtain ⟨hopens, -⟩ := h.counts.opens k hk hmarked
    refine h.record hp name hj hclear hk ?_
    have hn : (s.fm.sysOpenFileTable k).userOpens + 1 = (((s.holders k).card + 1 : ℕ) : ℤ) := by
      rw [hopens]
      push_cast
      rfl
    rw [hn]
    exact h.counts.recount hmarked (by omega)
  | none =>
    simp only [State.openFile, hadd, hget]
    rcases hcase with ⟨i, hi, hbit, hname, hbefore⟩ | ⟨hnew, hopened, hroom⟩
    · refine absurd hname (getByName_none hget hi fun j hj => ?_)
      rcases Nat.lt_or_eq_of_le hj with hlt | rfl
      · exact hbefore j hlt
      · exact hbit
    · obtain ⟨k, hk, hkclear, hadd'⟩ := add_eq ⟨name, opened, -1, 1⟩ hroom
      rw [hadd']
      rw [h.counts.numBits] at hk
      refine h.record hp name hj hclear hk ?_
      rw [h.counts.unmarked k hk hkclear]
      exact h.counts.enter hopened rfl rfl hnew

omit [DecidableEq P] [DecidableEq N] in
/-- The search of `myClose` reads only entries that are there. -/
theorem findOpen_some {m : SysOpenFileManager N F} {c : ℕ → ℕ} (hm : m.Counts c) (p : PCB N)
    (id : ℤ) (is : List ℕ)
    (hidx : ∀ i ∈ is, p.files.bit i = true →
      ∃ k < sofileTableSize, (p.openFiles i).index = k ∧ m.bitMap.bit k = true) :
    ∃ r, findOpen m p id is = some r ∧ ∀ i, r = some i → i ∈ is ∧ p.files.bit i = true := by
  induction is with
  | nil => exact ⟨none, rfl, fun i hi => by cases hi⟩
  | cons i is ih =>
    obtain ⟨r, hr, hri⟩ := ih fun j hj => hidx j (List.mem_cons_of_mem _ hj)
    have hrest : ∀ j, r = some j → j ∈ i :: is ∧ p.files.bit j = true := fun j hj =>
      ⟨List.mem_cons_of_mem _ (hri j hj).1, (hri j hj).2⟩
    by_cases hbit : p.files.bit i = true
    · obtain ⟨k, hk, hik, hmarked⟩ := hidx i (by simp) hbit
      have hr' : m.bitMap.InRange k := ⟨by omega, by rw [hm.numBits]; exact_mod_cast hk⟩
      have hlt : ¬ ((k : ℤ) ≥ sofileTableSize) := by omega
      have hget : m.get k = some (some (m.sysOpenFileTable k)) := by
        simp [SysOpenFileManager.get, hlt, BitMap.test, hr', hmarked]
      simp only [findOpen, hbit, ↓reduceIte, hik, hget]
      split_ifs
      · exact ⟨some i, rfl, fun j hj => by cases hj; exact ⟨by simp, hbit⟩⟩
      · exact ⟨r, hr, hrest⟩
    · simp only [findOpen, hbit]
      exact ⟨r, hr, hrest⟩

omit [DecidableEq N] in
theorem Inv.close {s t : State P N F} (h : Inv s) {p : P} (hp : p ∈ s.live) {id : ℤ}
    (hc : s.closeFile p id = some t) : Inv t := by
  obtain ⟨r, hr, hri⟩ := findOpen_some h.counts (s.pcb p) id (List.range maxUserFiles)
    fun i hi hbit => by
      obtain ⟨k, hk, hik⟩ := h.index p hp i (List.mem_range.mp hi) hbit
      exact ⟨k, hk, hik, h.marked hp (List.mem_range.mp hi) hbit hk hik⟩
  unfold State.closeFile at hc
  rw [hr, Option.bind_some] at hc
  cases r with
  | none =>
    obtain rfl := Option.some.inj hc
    exact h
  | some i =>
    obtain ⟨hi, hbit⟩ := hri i rfl
    rw [List.mem_range] at hi
    obtain ⟨k, hk, hik⟩ := h.index p hp i hi hbit
    obtain ⟨m, hm, hcounts⟩ := h.counts.close hk (h.marked hp hi hbit hk hik)
    simp only [hik, hm, Option.map_some, Option.some.injEq] at hc
    subst hc
    have hmem : (p, i) ∈ s.holders k := mem_holders.mpr ⟨hp, hi, hbit, hik⟩
    have hcard : (fun x => ((s.unrecord m p i).holders x).card) =
        Function.update (fun x => (s.holders x).card) k ((s.holders k).card - 1) := by
      funext x
      rw [holders_unrecord]
      by_cases hx : x = k
      · rw [hx, Finset.card_erase_of_mem hmem, Function.update_self]
      · rw [Function.update_of_ne hx, Finset.erase_eq_of_notMem]
        simp [mem_holders, hik, Ne.symm hx]
    change Inv (s.unrecord m p i)
    refine ⟨?_, ?_, by rw [hcard]; exact hcounts⟩
    · intro q hq
      by_cases hqp : q = p
      · subst hqp
        simpa [State.unrecord] using h.userBits q hq
      · simpa [State.unrecord, hqp] using h.userBits q hq
    · intro q hq j hj hb
      by_cases hqp : q = p
      · subst hqp
        have hb' : (s.pcb q).files.bit j = true := by
          have := hb
          simp only [State.unrecord, Function.update_self, BitMap.bit_resetBit,
            Bool.and_eq_true] at this
          exact this.2
        simpa [State.unrecord] using h.index q hq j hj hb'
      · have hb' : (s.pcb q).files.bit j = true := by simpa [State.unrecord, hqp] using hb
        simpa [State.unrecord, hqp] using h.index q hq j hj hb'

omit [DecidableEq N] in
theorem Inv.exec {s : State P N F} (h : Inv s) {p : P} (hp : p ∉ s.live) (pcb : PCB N) :
    Inv { s with
      pcb := Function.update s.pcb p ⟨pcb.openFiles, BitMap.create pcb.files.map maxUserFiles⟩
      live := insert p s.live } := by
  have hne : ∀ q ∈ s.live, q ≠ p := fun q hq he => hp (he ▸ hq)
  refine ⟨?_, ?_, ?_⟩
  · intro q hq
    rcases Finset.mem_insert.mp hq with rfl | hq
    · simp
    · simpa [hne q hq] using h.userBits q hq
  · intro q hq i hi hbit
    rcases Finset.mem_insert.mp hq with rfl | hq
    · simp [BitMap.bit_create _ hi] at hbit
    · have hb : (s.pcb q).files.bit i = true := by simpa [hne q hq] using hbit
      simpa [hne q hq] using h.index q hq i hi hb
  · convert h.counts using 3 with k
    ext ⟨q, i⟩
    rw [mem_holders, mem_holders]
    by_cases hqp : q = p
    · subst hqp
      simp only [Finset.mem_insert, true_or, true_and, Function.update_self, hp, false_and,
        iff_false, not_and]
      intro hi hbit
      simp [BitMap.bit_create _ hi] at hbit
    · simp [hqp]

omit [DecidableEq N] in
/-- A process that closed its files takes no record with it. -/
theorem Inv.exit {s : State P N F} (h : Inv s) {p : P}
    (hclosed : ∀ i < maxUserFiles, (s.pcb p).files.bit i = false) :
    Inv { s with live := s.live.erase p } := by
  refine ⟨fun q hq => h.userBits q (Finset.mem_of_mem_erase hq),
    fun q hq => h.index q (Finset.mem_of_mem_erase hq), ?_⟩
  convert h.counts using 3 with k
  ext ⟨q, i⟩
  rw [mem_holders, mem_holders]
  by_cases hqp : q = p
  · subst hqp
    simp only [Finset.mem_erase, ne_eq, not_true_eq_false, false_and, false_iff, not_and]
    intro _ hi hbit
    rw [hclosed i hi] at hbit
    cases hbit
  · simp [hqp]

theorem step_inv {s t : State P N F} {l : Label P N F} (h : Inv s) (hg : Regular s l)
    (hst : Step s l t) : Inv t := by
  unfold Step step at hst
  cases l with
  | exec p pcb =>
    simp only at hst
    split_ifs at hst with hp
    obtain rfl := Option.some.inj hst
    exact h.exec hp pcb
  | «open» p name opened =>
    simp only at hst
    split_ifs at hst with hp
    obtain rfl := Option.some.inj hst
    exact h.open hp hg
  | close p id =>
    simp only at hst
    split_ifs at hst with hp
    exact h.close hp hst
  | exit p =>
    simp only at hst
    split_ifs at hst with hp
    obtain rfl := Option.some.inj hst
    exact h.exit hg

omit [DecidableEq P] [DecidableEq N] in
theorem initial_inv (table : ℕ → SysOpenFile N F) (storage : ℕ → Word) (pcb : P → PCB N) :
    Inv (initial table storage pcb) := by
  have hb : ∀ i < sofileTableSize, (initial (F := F) table storage pcb).fm.bitMap.bit i = false :=
    fun i hi => BitMap.bit_create storage hi
  have hno : ∀ i < sofileTableSize, (initial (F := F) table storage pcb).fm.bitMap.bit i ≠ true :=
    fun i hi => by simp [hb i hi]
  refine ⟨fun p hp => by simp [initial] at hp, fun p hp => by simp [initial] at hp, ?_⟩
  constructor
  · exact BitMap.create_numBits _ _
  · exact fun i hi hbit => absurd hbit (hno i hi)
  · exact fun i hi hbit => absurd hbit (hno i hi)
  · exact fun i hi hbit => absurd hbit (hno i hi)
  · exact fun i hi j _ hbit => absurd hbit (hno i hi)
  · intro i _ _
    rw [Finset.card_eq_zero, Finset.eq_empty_iff_forall_notMem]
    rintro ⟨p, j⟩ hpj
    exact absurd (mem_holders.mp hpj).1 (Finset.notMem_empty p)

/-- Over every sequence of system calls that stays out of the paths that lose
count, the system table, its reference counts and the process tables agree. -/
theorem tables_agree (table : ℕ → SysOpenFile N F) (storage : ℕ → Word) (pcb : P → PCB N)
    (ls : List (Label P N F)) (s : State P N F)
    (hrun : Run Step Regular (initial table storage pcb) ls s) : Agree s :=
  (hrun.invariant (initial_inv table storage pcb) step_inv).agree

/-- A table whose storage holds zeros, for runs on given inputs. -/
def blank : State ℕ String Unit :=
  initial (fun _ => ⟨"", none, 0, 0⟩) (fun _ => 0) fun _ => ⟨fun _ => ⟨"", 0⟩, ⟨0, fun _ => 0⟩⟩

theorem tables_agree_open_close :
    ∃ s, Run Step Regular blank [.exec 0 (blank.pcb 0), .open 0 "a" (some ()), .close 0 2] s ∧
      Agree s := by
  have hrun : Run Step Regular blank
      [.exec 0 (blank.pcb 0), .open 0 "a" (some ()), .close 0 2] _ :=
    .cons trivial rfl (.cons
      ⟨by decide +kernel, Or.inr ⟨by decide +kernel, by decide, by decide +kernel⟩⟩ rfl
      (.cons trivial rfl (.nil _)))
  exact ⟨_, hrun, tables_agree _ _ _ _ _ hrun⟩

/-- A process that exits with a file open leaves its slot marked for good. -/
theorem exit_leaves_open :
    ∃ s, Run Step Free blank [.exec 0 (blank.pcb 0), .open 0 "a" (some ()), .exit 0] s ∧
      ¬ Agree s := by
  obtain ⟨s, hrun, hs⟩ := exists_run_of_exec step blank
    [.exec 0 (blank.pcb 0), .open 0 "a" (some ()), .exit 0]
    (fun s => decide (s.fm.bitMap.bit 0 = true ∧ s.live = ∅)) (by decide +kernel)
  obtain ⟨hbit, hlive⟩ := of_decide_eq_true hs
  refine ⟨s, hrun, fun h => ?_⟩
  obtain ⟨⟨p, j⟩, hpj⟩ := Finset.card_pos.mp (h.opens 0 (by decide) hbit).2
  have hp := (mem_holders.mp hpj).1
  rw [hlive] at hp
  exact absurd hp (Finset.notMem_empty p)

end Nachos.OpenFileTable
