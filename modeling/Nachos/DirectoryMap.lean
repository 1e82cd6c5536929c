import Nachos.Directory

/-!
# The directory as a finite map

The calls of a directory in memory, in any order and with any names. A name counts
by its first nine characters, which are its key. `after` keeps, beside the
directory, the map that the answers of the calls determine: the sector of the last
`Add` of a key that succeeded, unless the key was removed since. The directory
answers what this map says, also across the growth of its table.
-/
namespace Nachos.DirectoryMap
open ByteMemory CStrings FileSystem

abbrev key (name : Memory) : List Byte := text name fileNameMaxLen

/-- The sector that each key stands for. -/
abbrev SectorMap := List Byte → Option Word

/-- A call; `junk` is what `new` finds when the table has to grow. -/
inductive Call where
  | add (junk name : Memory) (newSector : Word)
  | remove (name : Memory)
  | find (name : Memory)

namespace Call

def key : Call → List Byte
  | .add _ name _ => DirectoryMap.key name
  | .remove name => DirectoryMap.key name
  | .find name => DirectoryMap.key name

/-- The answer of a call and the directory after it. `Find` changes nothing, and its answer
is not recorded. -/
def apply (d : Directory) : Call → Bool × Directory
  | .add junk name newSector => d.add junk name newSector
  | .remove name => d.remove name
  | .find _ => (true, d)

/-- What a call with that answer says about its key. -/
def record (m : SectorMap) (answer : Bool) : Call → SectorMap
  | .add _ name newSector =>
    if answer then Function.update m (DirectoryMap.key name) (some newSector) else m
  | .remove name => if answer then Function.update m (DirectoryMap.key name) none else m
  | .find _ => m

end Call

/-- The directory and the map after a sequence of calls. -/
def after (s : Directory × SectorMap) (calls : List Call) : Directory × SectorMap :=
  calls.foldl (fun s c => ((c.apply s.1).2, c.record s.2 (c.apply s.1).1)) s

/-- Calls on a new directory. -/
def reached (junk : Memory) (size : ℕ) (calls : List Call) : Directory × SectorMap :=
  after (Directory.create junk size, fun _ => none) calls

/-- The entry is in use and `strncmp` finds its name equal. -/
structure Matches (d : Directory) (name : Memory) (i : ℕ) : Prop where
  lt : i < d.tableSize
  inUse : d.inUse i = true
  same : sameText (d.name i) name fileNameMaxLen = true

variable {d d' : Directory} {m : SectorMap} {n : Memory}

theorem matches_iff {i : ℕ} : Matches d n i ↔ ∃ w, d.entry i = some (key n, w) := by
  constructor
  · rintro ⟨hlt, huse, hsame⟩
    refine ⟨d.sector i, ?_⟩
    rw [Directory.entry, if_pos ⟨hlt, huse⟩, (sameText_iff _ _ _).mp hsame]
  · rintro ⟨w, hw⟩
    unfold Directory.entry at hw
    split_ifs at hw with hi
    exact ⟨hi.1, hi.2, (sameText_iff _ _ _).mpr (Prod.mk.inj (Option.some.inj hw)).1⟩

/-- The entries in use have different keys and are the pairs of the map. -/
structure Represents (d : Directory) (m : SectorMap) : Prop where
  unique : ∀ {i j k v w}, d.entry i = some (k, v) → d.entry j = some (k, w) → i = j
  lists : ∀ {k w}, m k = some w ↔ ∃ i, d.entry i = some (k, w)

theorem represents_create (junk : Memory) (size : ℕ) :
    Represents (Directory.create junk size) fun _ => none := by
  constructor
  · intro i j k v w hi
    rw [Directory.entry_create] at hi
    cases hi
  · intro k w
    simp [Directory.entry_create]

/-- No entry says that the key is there. -/
theorem Represents.absent (h : Represents d m) (hn : d.findIndex n = none) : m (key n) = none := by
  rw [Option.eq_none_iff_forall_not_mem]
  intro w hw
  obtain ⟨i, hi⟩ := h.lists.mp hw
  exact Directory.findIndex_eq_none_iff.mp hn i w hi

theorem Represents.find_eq (h : Represents d m) (name : Memory) :
    d.find name = (m (key name)).getD (-1#32) := by
  cases hi : d.findIndex name with
  | none => rw [Directory.find_of_none hi, h.absent hi, Option.getD_none]
  | some i =>
    have hw := h.lists.mpr ⟨i, Directory.findIndex_eq_some hi⟩
    rw [Directory.find_eq hi, hw, Option.getD_some]

/-- An entry that was free gets a key that no other entry has. -/
theorem Represents.insert (h : Represents d m) {i : ℕ} {w : Word} (hn : d.findIndex n = none)
    (hfree : d.entry i = none)
    (hentry : ∀ j, d'.entry j = if j = i then some (key n, w) else d.entry j) :
    Represents d' (Function.update m (key n) (some w)) := by
  have hother : ∀ {j v}, d.entry j ≠ some (key n, v) := fun {j v} =>
    Directory.findIndex_eq_none_iff.mp hn j v
  constructor
  · intro j j' k v v' hj hj'
    rw [hentry] at hj hj'
    split_ifs at hj hj' with hji hji' hji'
    · rw [hji, hji']
    · obtain ⟨rfl, rfl⟩ := Prod.mk.inj (Option.some.inj hj)
      exact absurd hj' hother
    · obtain ⟨rfl, rfl⟩ := Prod.mk.inj (Option.some.inj hj')
      exact absurd hj hother
    · exact h.unique hj hj'
  · intro k v
    by_cases hk : k = key n
    · subst hk
      rw [Function.update_self]
      constructor
      · intro hv
        exact ⟨i, by rw [hentry, if_pos rfl, Option.some.inj hv]⟩
      · rintro ⟨j, hj⟩
        rw [hentry] at hj
        split_ifs at hj
        · exact congrArg some (Prod.mk.inj (Option.some.inj hj)).2
        · exact absurd hj hother
    · rw [Function.update_of_ne hk, h.lists]
      refine exists_congr fun j => ?_
      rw [hentry]
      split_ifs with hji
      · rw [hji, hfree]
        simp [Ne.symm hk]
      · rfl

theorem Represents.erase (h : Represents d m) {i : ℕ} {w : Word}
    (hi : d.entry i = some (key n, w)) :
    Represents (d.clearEntry i) (Function.update m (key n) none) := by
  constructor
  · intro j j' k v v' hj hj'
    rw [Directory.entry_clearEntry] at hj hj'
    split_ifs at hj hj'
    exact h.unique hj hj'
  · intro k v
    by_cases hk : k = key n
    · subst hk
      rw [Function.update_self]
      constructor
      · intro hv
        cases hv
      · rintro ⟨j, hj⟩
        rw [Directory.entry_clearEntry] at hj
        split_ifs at hj with hji
        exact absurd (h.unique hj hi) hji
    · rw [Function.update_of_ne hk, h.lists]
      refine exists_congr fun j => ?_
      rw [Directory.entry_clearEntry]
      split_ifs with hji
      · rw [hji, hi]
        simp [Ne.symm hk]
      · rfl

/-- The new entries of a table that has grown are free. -/
theorem entry_expandTable (junk : Memory) (hsize : d.tableSize ≤ maxTableSize) (i : ℕ) :
    (d.expandTable junk).entry i = d.entry i := by
  by_cases hi : i < d.tableSize
  · exact Directory.entry_expandTable junk hi hsize
  · have hnone : d.entry i = none := if_neg fun h => hi h.1
    have hdiv : entrySize * i / entrySize = i := Nat.mul_div_cancel_left _ (by decide)
    have hmod : entrySize * i % entrySize = 0 := Nat.mul_mod_right _ _
    rw [hnone]
    by_cases hnew : i < (d.expandTable junk).tableSize
    · apply Directory.entry_of_not_inUse
      simp only [Directory.inUse, Directory.expandTable, hdiv, hmod, if_neg hi] at hnew ⊢
      rw [if_pos ⟨trivial, hnew⟩]
      rfl
    · exact if_neg fun h => hnew h.1

/-- `Add` fails for a key that is there and for a table of the largest size, and changes nothing
then. Otherwise it fills an entry that was free. -/
theorem add_cases (d : Directory) (junk name : Memory) (w : Word) :
    (((d.findIndex name).isSome ∨ maxTableSize ≤ d.tableSize) ∧ d.add junk name w = (false, d)) ∨
      (d.findIndex name = none ∧ d.tableSize < maxTableSize ∧ (d.add junk name w).1 = true ∧
        ∃ i, d.entry i = none ∧
          ∀ j, (d.add junk name w).2.entry j = if j = i then some (key name, w) else d.entry j) := by
  by_cases hfound : (d.findIndex name).isSome
  · exact .inl ⟨.inl hfound, by rw [Directory.add, if_pos hfound]⟩
  by_cases hmax : maxTableSize ≤ d.tableSize
  · exact .inl ⟨.inr hmax, by rw [Directory.add, if_neg hfound, if_pos hmax]⟩
  have hn : d.findIndex name = none := by simpa using hfound
  have hlt : d.tableSize < maxTableSize := Nat.lt_of_not_le hmax
  refine .inr ⟨hn, hlt, ?_⟩
  have hset : ∀ {e : Directory} {i : ℕ}, i < e.tableSize → ∀ j, (e.setEntry i name w).entry j =
      if j = i then some (key name, w) else e.entry j := by
    intro e i hi j
    split_ifs with hji
    · rw [hji, Directory.entry_setEntry_self hi]
    · exact Directory.entry_setEntry_ne hji name w
  cases hfree : (List.range d.tableSize).find? fun i => !d.inUse i with
  | some i =>
    have hi : i < d.tableSize := List.mem_range.mp (List.mem_of_find?_eq_some hfree)
    have huse : d.inUse i = false := by simpa using List.find?_some hfree
    rw [Directory.add_eq junk w hn hlt hfree]
    exact ⟨rfl, i, Directory.entry_of_not_inUse huse, hset hi⟩
  | none =>
    have hfull : ∀ i < d.tableSize, d.inUse i = true := by
      intro i hi
      simpa using List.find?_eq_none.mp hfree i (List.mem_range.mpr hi)
    have hgrown : d.tableSize < (d.expandTable junk).tableSize := by
      simp only [Directory.expandTable]
      split_ifs <;> omega
    rw [Directory.add_full junk w hn hlt hfull]
    refine ⟨rfl, d.tableSize, if_neg fun h => Nat.lt_irrefl _ h.1, fun j => ?_⟩
    rw [hset hgrown, entry_expandTable junk hlt.le]

theorem Represents.apply (h : Represents d m) (c : Call) :
    Represents (c.apply d).2 (c.record m (c.apply d).1) := by
  cases c with
  | add junk name w =>
    obtain ⟨-, hadd⟩ | ⟨hn, -, hadd, i, hfree, hentry⟩ := add_cases d junk name w
    · simp only [Call.apply, Call.record, hadd]
      exact h
    · simp only [Call.apply, Call.record, hadd, if_true]
      exact h.insert hn hfree hentry
  | remove name =>
    cases hi : d.findIndex name with
    | none =>
      have hremove : d.remove name = (false, d) := by rw [Directory.remove, hi]
      simp only [Call.apply, Call.record, hremove]
      exact h
    | some i =>
      have hremove : d.remove name = (true, d.clearEntry i) := by rw [Directory.remove, hi]
      simp only [Call.apply, Call.record, hremove, if_true]
      exact h.erase (Directory.findIndex_eq_some hi)
  | find name => exact h

theorem represents_after {s : Directory × SectorMap} (h : Represents s.1 s.2) (calls : List Call) :
    Represents (after s calls).1 (after s calls).2 := by
  induction calls generalizing s with
  | nil => exact h
  | cons c calls ih => exact ih (h.apply c)

/-- A call says nothing about other keys. -/
theorem Call.record_of_ne (m : SectorMap) (answer : Bool) {c : Call} {k : List Byte}
    (hk : k ≠ c.key) : c.record m answer k = m k := by
  cases c with
  | add junk name w =>
    cases answer
    · rfl
    · exact Function.update_of_ne hk _ _
  | remove name =>
    cases answer
    · rfl
    · exact Function.update_of_ne hk _ _
  | find name => rfl

theorem isSome_findIndex_iff : (d.findIndex n).isSome ↔ ∃ i, Matches d n i := by
  simp only [matches_iff]
  rw [← Option.ne_none_iff_isSome, ne_eq, Directory.findIndex_eq_none_iff]
  push Not
  rfl

/-- After any calls on a new directory: no two entries match a name, `Find` gives what the map
says, `Add` fails only for a key that is there or a table that cannot grow, and a call does not
change what `Find` gives for another key. -/
theorem directory_is_map (junk : Memory) (size : ℕ) (calls : List Call) :
    (∀ name i j, Matches (reached junk size calls).1 name i →
        Matches (reached junk size calls).1 name j → i = j) ∧
      (∀ name, (reached junk size calls).1.find name =
        ((reached junk size calls).2 (key name)).getD (-1#32)) ∧
      (∀ junk' name w, ((reached junk size calls).1.add junk' name w).1 = false ↔
        (∃ i, Matches (reached junk size calls).1 name i) ∨
          maxTableSize ≤ (reached junk size calls).1.tableSize) ∧
      ∀ (c : Call) name, c.key ≠ key name →
        (c.apply (reached junk size calls).1).2.find name =
          (reached junk size calls).1.find name := by
  have h : Represents (reached junk size calls).1 (reached junk size calls).2 :=
    represents_after (represents_create junk size) calls
  refine ⟨fun name i j hi hj => ?_, h.find_eq, fun junk' name w => ?_, fun c name hne => ?_⟩
  · obtain ⟨v, hv⟩ := matches_iff.mp hi
    obtain ⟨w, hw⟩ := matches_iff.mp hj
    exact h.unique hv hw
  · rw [← isSome_findIndex_iff]
    obtain ⟨hwhy, hadd⟩ | ⟨hn, hlt, hadd, -⟩ := add_cases (reached junk size calls).1 junk' name w
    · exact iff_of_true (by rw [hadd]) hwhy
    · simp [hadd, hn, hlt]
  · rw [(h.apply c).find_eq, c.record_of_ne _ _ (Ne.symm hne), h.find_eq]

/-- Names that agree in nine characters are one key. -/
example : (reached (fun _ => 1#8) 1 [.add (fun _ => 1#8) (fun _ => 0#8) 5#32,
    .add (fun _ => 1#8) (fun k => if k < 10 then 65#8 else 0#8) 7#32]).1.find
      (fun k => if k < 9 then 65#8 else if k = 9 then 66#8 else 0#8) = 7#32 := by
  decide +kernel

end Nachos.DirectoryMap
