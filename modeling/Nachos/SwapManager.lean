import Nachos.BitMap

/-!
# The swap manager of `vm/SwapManager.cc`

Three parallel arrays of `SWAPSIZE` slots: a bit map of the slots in use, the
process ids and the translation entries they were registered for. The arrays
of ids and of entries start with what `new` left in them, so an entry is an
`Option`: `none` is a pointer that must not be followed. Slots hold whole pages
of the file SWAP, which gives back what was written at each offset.

Every search runs over the slots in order. A failed assertion, the end of the
simulator when no slot is left and a bad pointer are the outer `none`.
-/
namespace Nachos

structure SwapManager (E P : Type) where
  bitmap : BitMap
  pids : ℕ → ℤ
  entries : ℕ → Option E
  swap : ℕ → P

namespace SwapManager

/-- `SWAPSIZE` -/
@[irreducible] def swapSize : ℕ := 256

variable {E P : Type}

def create (storage : ℕ → Word) (pids : ℕ → ℤ) (entries : ℕ → Option E) (swap : ℕ → P) :
    SwapManager E P :=
  ⟨BitMap.create storage swapSize, pids, entries, swap⟩

/-- The first index on which a test succeeds; a test that crashes ends the search. -/
def search (test : ℕ → Option Bool) : List ℕ → Option (Option ℕ)
  | [] => some none
  | i :: is => (test i).bind fun b => if b then some (some i) else search test is

section operations
variable (virtualPage : E → ℤ)

/-- `(PIDs[i] == pid) && (bitmap->Test(i)) && (entries[i]->virtualPage == vpn)` -/
def holds (sm : SwapManager E P) (pid vpn : ℤ) (i : ℕ) : Option Bool :=
  if sm.pids i = pid then
    if sm.bitmap.bit i then (sm.entries i).map fun e => decide (virtualPage e = vpn)
    else some false
  else some false

/-- `(PIDs[i] == pid) && (entries[i]->virtualPage == vpn) && (bitmap->Test(i))`:
`writePage` follows the pointer before it knows that the slot is in use. -/
def holdsUntested (sm : SwapManager E P) (pid vpn : ℤ) (i : ℕ) : Option Bool :=
  if sm.pids i = pid then
    (sm.entries i).map fun e => decide (virtualPage e = vpn) && sm.bitmap.bit i
  else some false

def setSlot (sm : SwapManager E P) (i : ℕ) (buffer : P) : SwapManager E P :=
  { sm with swap := Function.update sm.swap i buffer }

/-- The two `addPage` functions: they differ in what they write to the slot. -/
def addPageWith (write : SwapManager E P → ℕ → SwapManager E P) (sm : SwapManager E P)
    (page : E) (pid : ℤ) : Option (SwapManager E P) :=
  (search (sm.holds virtualPage pid (virtualPage page)) (List.range swapSize)).bind fun r =>
    match r with
    | some i => some (write sm i)
    | none =>
      let free := sm.bitmap.find
      if free.1 = -1 then none
      else some (write
        { sm with
          bitmap := free.2
          entries := Function.update sm.entries free.1.toNat (some page)
          pids := Function.update sm.pids free.1.toNat pid }
        free.1.toNat)

/-- `addPage(page, pid, buffer, size)` with a buffer of `PageSize` bytes. -/
def addPage (sm : SwapManager E P) (page : E) (pid : ℤ) (buffer : P) :
    Option (SwapManager E P) :=
  sm.addPageWith virtualPage (fun sm i => sm.setSlot i buffer) page pid

/-- `addPage(page, pid, size)` reserves a slot and writes nothing. -/
def reservePage (sm : SwapManager E P) (page : E) (pid : ℤ) : Option (SwapManager E P) :=
  sm.addPageWith virtualPage (fun sm _ => sm) page pid

def writePage (sm : SwapManager E P) (pid vpn : ℤ) (buffer : P) : Option (SwapManager E P) :=
  (search (sm.holdsUntested virtualPage pid vpn) (List.range swapSize)).bind fun r =>
    r.map fun i => sm.setSlot i buffer

/-- The entry and the page read into the buffer; the inner `none` is `NULL`. -/
def findPage (sm : SwapManager E P) (pid vpn : ℤ) : Option (Option (E × P)) :=
  (search (sm.holds virtualPage pid vpn) (List.range swapSize)).bind fun r =>
    match r with
    | some i => (sm.entries i).map fun e => some (e, sm.swap i)
    | none => some none

end operations

def removeSlot (pid : ℤ) (sm : SwapManager E P) (i : ℕ) : SwapManager E P :=
  if sm.pids i = pid then
    { sm with
      pids := Function.update sm.pids i (-1)
      bitmap := if sm.bitmap.bit i then sm.bitmap.resetBit i else sm.bitmap }
  else sm

def removePages (sm : SwapManager E P) (pid : ℤ) : SwapManager E P :=
  (List.range swapSize).foldl (removeSlot pid) sm

/-- Slot `i` is in use, for the entry `e` of process `pid`. -/
structure Slot (sm : SwapManager E P) (i : ℕ) (pid : ℤ) (e : E) : Prop where
  lt : i < swapSize
  bit : sm.bitmap.bit i = true
  pid : sm.pids i = pid
  entry : sm.entries i = some e

/-- Slots in use have an entry, and no two are for one page of one process. -/
structure WellFormed (virtualPage : E → ℤ) (sm : SwapManager E P) : Prop where
  bits : sm.bitmap.numBits = swapSize
  entered : ∀ i < swapSize, sm.bitmap.bit i = true → ∃ e, sm.entries i = some e
  unique : ∀ {i j pid e e'}, sm.Slot i pid e → sm.Slot j pid e' →
    virtualPage e = virtualPage e' → i = j

theorem create_wellFormed (virtualPage : E → ℤ) (storage : ℕ → Word) (pids : ℕ → ℤ)
    (entries : ℕ → Option E) (swap : ℕ → P) :
    (create storage pids entries swap).WellFormed virtualPage := by
  have hclear : ∀ i < swapSize, (create storage pids entries swap).bitmap.bit i = false := by
    intro i hi
    simp only [create]
    exact BitMap.bit_create storage hi
  refine ⟨by simp only [create, BitMap.create_numBits], ?_, ?_⟩
  · intro i hi hbit
    rw [hclear i hi] at hbit
    cases hbit
  · intro i j pid e e' h
    have hbit := h.bit
    rw [hclear i h.lt] at hbit
    cases hbit

theorem search_eq_find {test : ℕ → Option Bool} {p : ℕ → Bool} {l : List ℕ}
    (h : ∀ i ∈ l, test i = some (p i)) : search test l = some (l.find? p) := by
  induction l with
  | nil => rfl
  | cons i l ih =>
    simp only [List.forall_mem_cons] at h
    rw [search, h.1, Option.bind_some, List.find?_cons, ih h.2]
    cases p i <;> rfl

theorem search_eq_some {test : ℕ → Option Bool} {l : List ℕ} {i : ℕ}
    (h : search test l = some (some i)) : i ∈ l ∧ test i = some true := by
  induction l with
  | nil => simp [search] at h
  | cons j l ih =>
    obtain ⟨b, hb, h⟩ := Option.bind_eq_some_iff.mp h
    cases b with
    | true =>
      obtain rfl : j = i := by simpa using h
      exact ⟨List.mem_cons_self, hb⟩
    | false =>
      obtain ⟨hi, ht⟩ := ih h
      exact ⟨List.mem_cons_of_mem _ hi, ht⟩

variable {virtualPage : E → ℤ} {sm sm' : SwapManager E P} {pid vpn : ℤ}

theorem holds_eq_true {i : ℕ} (hi : i < swapSize) (h : sm.holds virtualPage pid vpn i = some true) :
    ∃ e, sm.Slot i pid e ∧ virtualPage e = vpn := by
  unfold holds at h
  split_ifs at h with hpid hbit
  · obtain ⟨e, he, hv⟩ := Option.map_eq_some_iff.mp h
    exact ⟨e, ⟨hi, hbit, hpid, he⟩, of_decide_eq_true hv⟩
  all_goals cases h

theorem holdsUntested_eq_true {i : ℕ} (hi : i < swapSize)
    (h : sm.holdsUntested virtualPage pid vpn i = some true) :
    ∃ e, sm.Slot i pid e ∧ virtualPage e = vpn := by
  unfold holdsUntested at h
  split_ifs at h with hpid
  · obtain ⟨e, he, hv⟩ := Option.map_eq_some_iff.mp h
    rw [Bool.and_eq_true] at hv
    exact ⟨e, ⟨hi, hv.2, hpid, he⟩, of_decide_eq_true hv.1⟩
  · cases h

theorem Slot.holds {i : ℕ} {e : E} (h : sm.Slot i pid e) :
    sm.holds virtualPage pid vpn i = some (decide (virtualPage e = vpn)) := by
  simp [SwapManager.holds, h.pid, h.bit, h.entry]

/-- The pointers that `addPage` and `findPage` follow are good ones. -/
theorem WellFormed.holds_isSome (h : sm.WellFormed virtualPage) {i : ℕ} (hi : i < swapSize) :
    sm.holds virtualPage pid vpn i =
      some ((sm.holds virtualPage pid vpn i).getD false) := by
  unfold holds
  split_ifs with hpid hbit
  · obtain ⟨e, he⟩ := h.entered i hi hbit
    simp [he]
  all_goals rfl

theorem WellFormed.search_cases (h : sm.WellFormed virtualPage) (pid vpn : ℤ) :
    (∃ i e, search (sm.holds virtualPage pid vpn) (List.range swapSize) = some (some i) ∧
      sm.Slot i pid e ∧ virtualPage e = vpn) ∨
    (search (sm.holds virtualPage pid vpn) (List.range swapSize) = some none ∧
      ∀ i e, sm.Slot i pid e → virtualPage e ≠ vpn) := by
  have hfind := search_eq_find (l := List.range swapSize)
    (p := fun i => (sm.holds virtualPage pid vpn i).getD false)
    fun i hi => h.holds_isSome (List.mem_range.mp hi)
  rw [hfind]
  cases hr : (List.range swapSize).find? fun i => (sm.holds virtualPage pid vpn i).getD false with
  | some i =>
    rw [hr] at hfind
    obtain ⟨hi, ht⟩ := search_eq_some hfind
    obtain ⟨e, he, hv⟩ := holds_eq_true (List.mem_range.mp hi) ht
    exact Or.inl ⟨i, e, rfl, he, hv⟩
  | none =>
    refine Or.inr ⟨rfl, ?_⟩
    intro i e he hv
    have hi := List.find?_eq_none.mp hr i (List.mem_range.mpr he.lt)
    simp [he.holds, hv] at hi

theorem WellFormed.findPage_cases (h : sm.WellFormed virtualPage) (pid vpn : ℤ) :
    (∃ i e, sm.findPage virtualPage pid vpn = some (some (e, sm.swap i)) ∧ sm.Slot i pid e ∧
      virtualPage e = vpn) ∨
    (sm.findPage virtualPage pid vpn = some none ∧
      ∀ i e, sm.Slot i pid e → virtualPage e ≠ vpn) := by
  unfold findPage
  rcases h.search_cases pid vpn with ⟨i, e, hs, he, hv⟩ | ⟨hs, hnone⟩
  · exact Or.inl ⟨i, e, by simp [hs, he.entry], he, hv⟩
  · exact Or.inr ⟨by simp [hs], hnone⟩

theorem WellFormed.addPageWith_cases (h : sm.WellFormed virtualPage)
    {write : SwapManager E P → ℕ → SwapManager E P} {page : E}
    (hadd : sm.addPageWith virtualPage write page pid = some sm') :
    (∃ i e, sm.Slot i pid e ∧ virtualPage e = virtualPage page ∧ sm' = write sm i) ∨
    (∃ i, i < swapSize ∧ sm.bitmap.bit i = false ∧
      (∀ j e, sm.Slot j pid e → virtualPage e ≠ virtualPage page) ∧
      sm' = write ⟨sm.bitmap.setBit i, Function.update sm.pids i pid,
        Function.update sm.entries i (some page), sm.swap⟩ i) := by
  unfold addPageWith at hadd
  rcases h.search_cases pid (virtualPage page) with ⟨i, e, hs, he, hv⟩ | ⟨hs, hnone⟩
  · rw [hs, Option.bind_some] at hadd
    exact Or.inl ⟨i, e, he, hv, (Option.some.inj hadd).symm⟩
  · rw [hs, Option.bind_some] at hadd
    rcases sm.bitmap.find_cases with ⟨i, hi, hbit, -, hf⟩ | ⟨-, hf⟩
    · simp only [hf, Int.toNat_natCast] at hadd
      rw [if_neg (by omega)] at hadd
      exact Or.inr ⟨i, h.bits ▸ hi, hbit, hnone, (Option.some.inj hadd).symm⟩
    · simp [hf] at hadd

theorem writePage_cases {buffer : P} (hw : sm.writePage virtualPage pid vpn buffer = some sm') :
    ∃ i e, sm.Slot i pid e ∧ virtualPage e = vpn ∧ sm' = sm.setSlot i buffer := by
  obtain ⟨r, hs, hr⟩ := Option.bind_eq_some_iff.mp hw
  obtain ⟨i, rfl, rfl⟩ := Option.map_eq_some_iff.mp hr
  obtain ⟨hi, ht⟩ := search_eq_some hs
  obtain ⟨e, he, hv⟩ := holdsUntested_eq_true (List.mem_range.mp hi) ht
  exact ⟨i, e, he, hv, rfl⟩

/-- A slot does not depend on the page in it. -/
theorem slot_setSlot {i j : ℕ} {e : E} {buffer : P} :
    (sm.setSlot i buffer).Slot j pid e ↔ sm.Slot j pid e :=
  ⟨fun h => ⟨h.lt, h.bit, h.pid, h.entry⟩, fun h => ⟨h.lt, h.bit, h.pid, h.entry⟩⟩

theorem WellFormed.setSlot (h : sm.WellFormed virtualPage) (i : ℕ) (buffer : P) :
    (sm.setSlot i buffer).WellFormed virtualPage :=
  ⟨h.bits, h.entered, fun hi hj hv => h.unique (slot_setSlot.mp hi) (slot_setSlot.mp hj) hv⟩

/-- The slots after a new one was taken for `page`. -/
theorem slot_insert {i j : ℕ} {q : ℤ} {page e : E} (hi : i < swapSize) :
    (⟨sm.bitmap.setBit i, Function.update sm.pids i pid, Function.update sm.entries i (some page),
      sm.swap⟩ : SwapManager E P).Slot j q e ↔
      (j = i ∧ q = pid ∧ e = page) ∨ (j ≠ i ∧ sm.Slot j q e) := by
  by_cases hj : j = i
  · subst hj
    constructor
    · rintro ⟨-, -, hq, he⟩
      simp only [Function.update_self, Option.some.injEq] at hq he
      exact Or.inl ⟨rfl, hq.symm, he.symm⟩
    · rintro (⟨-, rfl, rfl⟩ | ⟨hne, -⟩)
      · exact ⟨hi, by simp, Function.update_self .., Function.update_self ..⟩
      · exact absurd rfl hne
  · constructor
    · rintro ⟨hlt, hbit, hq, he⟩
      simp only [Function.update_of_ne hj, BitMap.bit_setBit, Ne.symm hj, decide_false,
        Bool.false_or] at hbit hq he
      exact Or.inr ⟨hj, hlt, hbit, hq, he⟩
    · rintro (⟨he, -⟩ | ⟨-, hs⟩)
      · exact absurd he hj
      · refine ⟨hs.lt, by simp [hs.bit], ?_, ?_⟩
        · exact (Function.update_of_ne hj _ _).trans hs.pid
        · exact (Function.update_of_ne hj _ _).trans hs.entry

theorem slot_insert_self (sm : SwapManager E P) (pid : ℤ) (page : E) {i : ℕ} (hi : i < swapSize) :
    (⟨sm.bitmap.setBit i, Function.update sm.pids i pid, Function.update sm.entries i (some page),
      sm.swap⟩ : SwapManager E P).Slot i pid page :=
  (slot_insert hi).mpr (Or.inl ⟨rfl, rfl, rfl⟩)

theorem WellFormed.insert (h : sm.WellFormed virtualPage) {i : ℕ} {page : E} (hi : i < swapSize)
    (hnew : ∀ j e, sm.Slot j pid e → virtualPage e ≠ virtualPage page) :
    (⟨sm.bitmap.setBit i, Function.update sm.pids i pid, Function.update sm.entries i (some page),
      sm.swap⟩ : SwapManager E P).WellFormed virtualPage := by
  refine ⟨h.bits, ?_, ?_⟩
  · intro j hj hbit
    by_cases hji : j = i
    · exact ⟨page, by simp [hji]⟩
    · obtain ⟨e, he⟩ := h.entered j hj (by simpa [Ne.symm hji] using hbit)
      exact ⟨e, by simpa [hji] using he⟩
  · intro j k q e e' hj hk hv
    rcases (slot_insert hi).mp hj with ⟨rfl, rfl, rfl⟩ | ⟨-, hj'⟩ <;>
      rcases (slot_insert hi).mp hk with ⟨rfl, hq, rfl⟩ | ⟨-, hk'⟩
    · rfl
    · exact absurd hv.symm (hnew k e' hk')
    · exact absurd hv (hnew j e (hq ▸ hj'))
    · exact h.unique hj' hk' hv

@[simp] theorem removeSlot_entries (sm : SwapManager E P) (pid : ℤ) (i : ℕ) :
    (removeSlot pid sm i).entries = sm.entries := by
  unfold removeSlot
  split_ifs <;> rfl

@[simp] theorem removeSlot_swap (sm : SwapManager E P) (pid : ℤ) (i : ℕ) :
    (removeSlot pid sm i).swap = sm.swap := by
  unfold removeSlot
  split_ifs <;> rfl

@[simp] theorem removeSlot_numBits (sm : SwapManager E P) (pid : ℤ) (i : ℕ) :
    (removeSlot pid sm i).bitmap.numBits = sm.bitmap.numBits := by
  unfold removeSlot
  split_ifs <;> rfl

/-- One turn of the loop takes slot `i` out when it is a slot of `pid`. -/
theorem slot_removeSlot {i j : ℕ} {q : ℤ} {e : E} :
    (removeSlot pid sm i).Slot j q e ↔ sm.Slot j q e ∧ ¬(j = i ∧ q = pid) := by
  unfold removeSlot
  by_cases hpid : sm.pids i = pid
  · rw [if_pos hpid]
    by_cases hj : j = i
    · subst hj
      constructor
      · rintro ⟨-, hbit, -, -⟩
        split_ifs at hbit with hb
        · simp at hbit
        · exact absurd hbit hb
      · rintro ⟨hs, hne⟩
        exact absurd ⟨rfl, hs.pid.symm.trans hpid⟩ hne
    · have hbit : (if sm.bitmap.bit i then sm.bitmap.resetBit i else sm.bitmap).bit j =
          sm.bitmap.bit j := by
        split_ifs <;> simp [Ne.symm hj]
      have hpids : Function.update sm.pids i (-1) j = sm.pids j := Function.update_of_ne hj _ _
      constructor
      · rintro ⟨hlt, hb, hp, he⟩
        exact ⟨⟨hlt, hbit ▸ hb, hpids ▸ hp, he⟩, fun h => hj h.1⟩
      · rintro ⟨hs, -⟩
        exact ⟨hs.lt, hbit.trans hs.bit, hpids.trans hs.pid, hs.entry⟩
  · rw [if_neg hpid]
    refine ⟨fun hs => ⟨hs, ?_⟩, fun hs => hs.1⟩
    rintro ⟨rfl, rfl⟩
    exact hpid hs.pid

theorem slot_foldl_removeSlot {l : List ℕ} {j : ℕ} {q : ℤ} {e : E} :
    (l.foldl (removeSlot pid) sm).Slot j q e ↔ sm.Slot j q e ∧ ¬(j ∈ l ∧ q = pid) := by
  induction l generalizing sm with
  | nil => simp
  | cons i l ih =>
    rw [List.foldl_cons, ih, slot_removeSlot, List.mem_cons, and_assoc, or_and_right, not_or]

/-- `removePages` takes out exactly the slots of `pid`. -/
theorem slot_removePages {j : ℕ} {q : ℤ} {e : E} :
    (sm.removePages pid).Slot j q e ↔ sm.Slot j q e ∧ q ≠ pid := by
  rw [removePages, slot_foldl_removeSlot]
  refine and_congr_right fun hs => not_congr ?_
  exact ⟨fun h => h.2, fun h => ⟨List.mem_range.mpr hs.lt, h⟩⟩

theorem removePages_frame (sm : SwapManager E P) (pid : ℤ) :
    (sm.removePages pid).entries = sm.entries ∧ (sm.removePages pid).swap = sm.swap ∧
      (sm.removePages pid).bitmap.numBits = sm.bitmap.numBits := by
  unfold removePages
  generalize List.range swapSize = l
  induction l generalizing sm with
  | nil => exact ⟨rfl, rfl, rfl⟩
  | cons i l ih => simpa using ih (removeSlot pid sm i)

/-- No bit is set by a removal. -/
theorem bit_of_removePages {i : ℕ} (h : (sm.removePages pid).bitmap.bit i = true) :
    sm.bitmap.bit i = true := by
  unfold removePages at h
  generalize List.range swapSize = l at h
  induction l generalizing sm with
  | nil => exact h
  | cons j l ih =>
    have hbit := ih h
    unfold removeSlot at hbit
    split_ifs at hbit with hp hb
    · simp only [BitMap.bit_resetBit, Bool.and_eq_true] at hbit
      exact hbit.2
    · exact hbit
    · exact hbit

theorem WellFormed.removePages (h : sm.WellFormed virtualPage) (pid : ℤ) :
    (sm.removePages pid).WellFormed virtualPage := by
  obtain ⟨hentries, -, hbits⟩ := sm.removePages_frame pid
  refine ⟨hbits.trans h.bits, ?_, ?_⟩
  · intro i hi hbit
    rw [hentries]
    exact h.entered i hi (bit_of_removePages hbit)
  · intro i j q e e' hi hj hv
    exact h.unique (slot_removePages.mp hi).1 (slot_removePages.mp hj).1 hv

end SwapManager

end Nachos
