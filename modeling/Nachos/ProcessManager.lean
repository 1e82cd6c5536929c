import Nachos.BitMap
import Nachos.GuardedRuns

/-!
# The tables of the process manager

`ProcessManager` keeps a bit map of the ids in use and arrays of process
control blocks and join counts indexed by id. The arrays are functions on all
integers: `GetPID` returns `-1` when no id is free and the callers then write
to cell `-1`, which is no cell of the array. Every routine that gets an id
first compares it with `MAX_PROCESS` and then tests its bit, so that the id
`MAX_PROCESS` itself runs into the assertion of `BitMap::Test`. The size of
the map is `MAX_PROCESS`, 16 without and 32 with virtual memory.
-/
namespace Nachos

structure ProcessTable (P : Type*) where
  processIDs : BitMap
  pcbs : ℤ → Option P
  joins : ℤ → ℤ

namespace ProcessTable
variable {P : Type*}

/-- The two tests at the head of every routine; `none` is the assertion. -/
def known (pm : ProcessTable P) (pid : ℤ) : Option Bool :=
  if pid > pm.processIDs.numBits then some false else pm.processIDs.test pid

def getPID (pm : ProcessTable P) : ℤ × ProcessTable P :=
  (pm.processIDs.find.1, { pm with processIDs := pm.processIDs.find.2 })

def addProcess (pm : ProcessTable P) (pcb : P) (pid : ℤ) : ProcessTable P :=
  { pm with
    pcbs := Function.update pm.pcbs pid (some pcb)
    joins := Function.update pm.joins pid 0 }

def dropPCB (pm : ProcessTable P) (pid : ℤ) : ProcessTable P :=
  { pm with pcbs := Function.update pm.pcbs pid none }

def clearID (pm : ProcessTable P) (pid : ℤ) : Option (ProcessTable P) :=
  (pm.processIDs.clear pid).map fun ids => { pm with processIDs := ids }

def clearPID (pm : ProcessTable P) (pid : ℤ) : Option (ProcessTable P) :=
  (pm.known pid).bind fun marked => if marked then (pm.dropPCB pid).clearID pid else some pm

def countJoin (pm : ProcessTable P) (pid : ℤ) : ProcessTable P :=
  { pm with joins := Function.update pm.joins pid (pm.joins pid + 1) }

def uncountJoin (pm : ProcessTable P) (pid : ℤ) : ProcessTable P :=
  if pm.joins pid > 0 then { pm with joins := Function.update pm.joins pid (pm.joins pid - 1) }
  else pm

def decrementJoins (pm : ProcessTable P) (pid : ℤ) : Option (ProcessTable P) :=
  (pm.known pid).map fun marked => if marked then pm.uncountJoin pid else pm

def getJoins (pm : ProcessTable P) (pid : ℤ) : Option ℤ :=
  (pm.known pid).map fun marked => if marked then pm.joins pid else -1

def getStatus (pm : ProcessTable P) (status : P → ℤ) (pid : ℤ) : Option ℤ :=
  (pm.known pid).bind fun marked => if marked then (pm.pcbs pid).map status else some (-1)

/-- The id is one of the map and its bit is set. -/
def Marked (pm : ProcessTable P) (pid : ℤ) : Prop :=
  pm.processIDs.InRange pid ∧ pm.processIDs.bit pid.toNat = true

instance (pm : ProcessTable P) (pid : ℤ) : Decidable (pm.Marked pid) :=
  inferInstanceAs (Decidable (_ ∧ _))

theorem known_eq_true_iff (pm : ProcessTable P) (pid : ℤ) :
    pm.known pid = some true ↔ pm.Marked pid := by
  unfold known BitMap.test Marked
  split_ifs with hmax hin
  · have hout : ¬ pm.processIDs.InRange pid := fun h => absurd h.2 (by omega)
    simp [hout]
  · simp [hin]
  · simp [hin]

theorem not_marked_of_known_false {pm : ProcessTable P} {pid : ℤ} (h : pm.known pid = some false) :
    ¬ pm.Marked pid := by
  rw [← known_eq_true_iff, h]
  simp

section marked
variable {pm : ProcessTable P} {pid i : ℤ}

theorem marked_congr {pm' : ProcessTable P} (h : pm'.processIDs = pm.processIDs) :
    pm'.Marked i ↔ pm.Marked i := by
  simp only [Marked, h]

@[simp] theorem getPID_pcbs : pm.getPID.2.pcbs = pm.pcbs := rfl

@[simp] theorem getPID_joins : pm.getPID.2.joins = pm.joins := rfl

@[simp] theorem addProcess_pcbs (c : P) :
    (pm.addProcess c pid).pcbs = Function.update pm.pcbs pid (some c) := rfl

@[simp] theorem addProcess_joins (c : P) :
    (pm.addProcess c pid).joins = Function.update pm.joins pid 0 := rfl

@[simp] theorem marked_addProcess (c : P) : (pm.addProcess c pid).Marked i ↔ pm.Marked i :=
  marked_congr rfl

@[simp] theorem marked_dropPCB : (pm.dropPCB pid).Marked i ↔ pm.Marked i := marked_congr rfl

@[simp] theorem marked_countJoin : (pm.countJoin pid).Marked i ↔ pm.Marked i := marked_congr rfl

@[simp] theorem processIDs_uncountJoin : (pm.uncountJoin pid).processIDs = pm.processIDs := by
  unfold uncountJoin
  split_ifs <;> rfl

@[simp] theorem pcbs_uncountJoin : (pm.uncountJoin pid).pcbs = pm.pcbs := by
  unfold uncountJoin
  split_ifs <;> rfl

@[simp] theorem marked_uncountJoin : (pm.uncountJoin pid).Marked i ↔ pm.Marked i :=
  marked_congr processIDs_uncountJoin

theorem decrementJoins_frame {pm' : ProcessTable P} (h : pm.decrementJoins pid = some pm') :
    pm'.processIDs = pm.processIDs ∧ pm'.pcbs = pm.pcbs := by
  simp only [decrementJoins, Option.map_eq_some_iff] at h
  obtain ⟨marked, -, rfl⟩ := h
  split_ifs
  · exact ⟨processIDs_uncountJoin, pcbs_uncountJoin⟩
  · exact ⟨rfl, rfl⟩

/-- `GetPID` marks an id that was free, or finds all of them in use. -/
theorem getPID_cases (pm : ProcessTable P) :
    (¬ pm.Marked pm.getPID.1 ∧ pm.getPID.2.Marked pm.getPID.1 ∧
      ∀ i, i ≠ pm.getPID.1 → (pm.getPID.2.Marked i ↔ pm.Marked i)) ∨
    (pm.processIDs.numClear = 0 ∧ pm.getPID = (-1, pm)) := by
  rcases BitMap.find_cases pm.processIDs with ⟨n, hn, hclear, -, hfind⟩ | ⟨hfull, hfind⟩
  · left
    simp only [getPID, Marked, BitMap.InRange, hfind, BitMap.setBit_numBits, BitMap.bit_setBit,
      Int.toNat_natCast, hclear, decide_true, Bool.true_or]
    refine ⟨by simp, ⟨by omega, trivial⟩, fun i hi => ?_⟩
    refine and_congr_right fun hrange => ?_
    have hne : n ≠ i.toNat := by omega
    simp [hne]
  · right
    refine ⟨(BitMap.numClear_eq_zero_iff _).mpr hfull, ?_⟩
    simp only [getPID, hfind]

theorem clearID_cases {pm' : ProcessTable P} (h : pm.clearID pid = some pm') :
    pm'.pcbs = pm.pcbs ∧ pm'.joins = pm.joins ∧
      ∀ i, pm'.Marked i ↔ pm.Marked i ∧ i ≠ pid := by
  simp only [clearID, BitMap.clear, Option.map_eq_some_iff] at h
  obtain ⟨ids, hids, rfl⟩ := h
  split_ifs at hids with hrange
  obtain rfl := Option.some.inj hids
  refine ⟨rfl, rfl, fun i => ?_⟩
  simp only [Marked, BitMap.InRange, BitMap.resetBit_numBits, BitMap.bit_resetBit,
    Bool.and_eq_true, Bool.not_eq_true', decide_eq_false_iff_not]
  have h0 := hrange.1
  constructor
  · rintro ⟨hi, hne, hbit⟩
    refine ⟨⟨hi, hbit⟩, ?_⟩
    rintro rfl
    exact hne rfl
  · rintro ⟨⟨hi, hbit⟩, hne⟩
    exact ⟨hi, by omega, hbit⟩

theorem clearID_isSome (h : pm.Marked pid) : ∃ pm', pm.clearID pid = some pm' := by
  simp [clearID, BitMap.clear, h.1]

/-- `ClearPID` of an id in use. -/
theorem clearPID_marked (h : pm.Marked pid) :
    ∃ pm', pm.clearPID pid = some pm' ∧ pm'.pcbs = Function.update pm.pcbs pid none ∧
      pm'.joins = pm.joins ∧ ¬ pm'.Marked pid ∧ ∀ i, i ≠ pid → (pm'.Marked i ↔ pm.Marked i) := by
  have hk := (known_eq_true_iff pm pid).mpr h
  have hdrop : (pm.dropPCB pid).Marked pid := by simpa using h
  obtain ⟨pm', hpm⟩ := clearID_isSome hdrop
  obtain ⟨hpcbs, hjoins, hmarked⟩ := clearID_cases hpm
  refine ⟨pm', ?_, hpcbs, hjoins, by simp [hmarked], fun i hi => by simp [hmarked, hi]⟩
  simp only [clearPID, hk, Option.bind_some, if_true, hpm]

theorem clearPID_numBits {pm' : ProcessTable P} (h : pm.clearPID pid = some pm') :
    pm'.processIDs.numBits = pm.processIDs.numBits := by
  obtain ⟨marked, -, h⟩ := Option.bind_eq_some_iff.1 h
  split_ifs at h
  · obtain ⟨ids, hids, rfl⟩ := Option.map_eq_some_iff.1 h
    rw [BitMap.clear] at hids
    split_ifs at hids
    obtain rfl := Option.some.inj hids
    rfl
  · obtain rfl := Option.some.inj h
    rfl

end marked

/-- A new manager: no id in use, arrays as `new` returned them. -/
def create (storage : ℕ → Word) (maxProcess : ℕ) (pcbs : ℤ → Option P) (joins : ℤ → ℤ) :
    ProcessTable P :=
  ⟨BitMap.create storage maxProcess, pcbs, joins⟩

@[simp] theorem create_pcbs (storage : ℕ → Word) (maxProcess : ℕ) (pcbs : ℤ → Option P)
    (joins : ℤ → ℤ) : (create storage maxProcess pcbs joins).pcbs = pcbs := rfl

theorem create_not_marked (storage : ℕ → Word) (maxProcess : ℕ) (pcbs : ℤ → Option P)
    (joins : ℤ → ℤ) (i : ℤ) : ¬ (create storage maxProcess pcbs joins).Marked i := by
  rintro ⟨hrange, hbit⟩
  have hlt : i.toNat < maxProcess := by
    have h := hrange.2
    have h0 := hrange.1
    simp only [create, BitMap.create_numBits] at h
    omega
  simp [create, BitMap.bit_create storage hlt] at hbit

end ProcessTable
end Nachos
