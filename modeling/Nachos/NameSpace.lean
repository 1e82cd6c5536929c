import Nachos.FreeMapExactness

/-!
# The name space as a map

A sequence of calls and their answers determines a map from names to header
sectors: a `Create` that succeeded sets the sector of its name and a `Remove`
that succeeded clears it. `Open` finds what this map says, as long as the
directory has a free entry whenever a file is created.
-/
namespace Nachos.FileSystem
open ByteMemory CStrings GuardedRuns

/-- The sector that each name stands for. -/
abbrev NameMap := List Byte → Option Word

/-- The last successful call on a name decides. -/
def NameMap.record (m : NameMap) : Call → NameMap
  | .create name _ _ (some w) => Function.update m name.chars (some w)
  | .remove name _ true => Function.update m name.chars none
  | _ => m

def namesAfter (calls : List Call) : NameMap := calls.foldl NameMap.record fun _ => none

/-- `Create` and `Remove` with a name that fits into a directory entry. -/
def Call.OnShortName : Call → Prop
  | .create name _ _ _ => name.chars.length ≤ fileNameMaxLen
  | .remove name _ _ => name.chars.length ≤ fileNameMaxLen
  | _ => False

/-- Such a call, with a free entry in the directory when it needs one. -/
def Volume.RoomFor (s : Volume) (c : Call) : Prop :=
  c.OnShortName ∧ s.Careful c

/-- The entries of the directory are the pairs of the map. -/
def Volume.Lists (s : Volume) (m : NameMap) : Prop :=
  ∀ l w, (∃ i, s.listing.entry i = some (l, w)) ↔ m l = some w

variable {s t : Volume} {m : NameMap}

theorem text_of_short {name : CString} (h : name.chars.length ≤ fileNameMaxLen) :
    text name.memory fileNameMaxLen = name.chars := by
  rw [name.text_memory, List.take_of_length_le h]

theorem Created.lists {name : List Byte} {size w : Word} {i : ℕ} {hdr : FileHeader} {l : List Word}
    (hc : Created s t name size w i hdr l) (hname : ∀ j v, s.listing.entry j ≠ some (name, v))
    (hm : s.Lists m) : t.Lists (Function.update m name (some w)) := by
  intro l v
  by_cases hl : l = name
  · subst hl
    rw [Function.update_self]
    constructor
    · rintro ⟨j, hj⟩
      rw [hc.entry] at hj
      split_ifs at hj with hji
      · exact congrArg some (Prod.mk.inj (Option.some.inj hj)).2
      · exact absurd hj (hname j v)
    · intro hv
      exact ⟨i, by rw [hc.entry, if_pos rfl, Option.some.inj hv]⟩
  · rw [Function.update_of_ne hl, ← hm]
    apply exists_congr
    intro j
    rw [hc.entry]
    by_cases hji : j = i
    · subst hji
      rw [if_pos rfl, hc.free]
      simp [Ne.symm hl]
    · rw [if_neg hji]

theorem Removed.lists {name : List Byte} {w : Word} {i : ℕ} {l : List Word}
    (hr : Removed s t name w i l)
    (hnames : ∀ j v, s.listing.entry j = some (name, v) → j = i) (hm : s.Lists m) :
    t.Lists (Function.update m name none) := by
  intro l v
  by_cases hl : l = name
  · subst hl
    rw [Function.update_self]
    constructor
    · rintro ⟨j, hj⟩
      rw [hr.entry] at hj
      split_ifs at hj with hji
      exact absurd (hnames j v hj) hji
    · intro hv
      cases hv
  · rw [Function.update_of_ne hl, ← hm]
    apply exists_congr
    intro j
    rw [hr.entry]
    by_cases hji : j = i
    · subst hji
      rw [if_pos rfl, hr.old]
      simp [Ne.symm hl]
    · rw [if_neg hji]

/-- One call changes the entries as it changes the map. -/
theorem Volume.Lists.step {depth : ℕ} {c : Call} (hs : VolumeInv s) (hm : s.Lists m)
    (hc : s.RoomFor c) (ht : s.Step depth c t) : t.Lists (m.record c) := by
  obtain ⟨hshort, hcareful⟩ := hc
  cases c with
  | create name initialSize fresh sector =>
    rcases create_cases hs.layout hcareful ht with ⟨rfl, rfl⟩ | ⟨w, i, hdr, l, rfl, hcreated, hname⟩
    · exact hm
    · rw [text_of_short hshort] at hcreated hname
      exact hcreated.lists hname hm
  | remove name fresh removed =>
    rcases remove_cases hs.layout ht with ⟨rfl, rfl, -⟩ | ⟨w, i, l, rfl, hremoved⟩
    · exact hm
    · rw [text_of_short hshort] at hremoved
      exact hremoved.lists (fun j v hj => hs.names j i _ v w hj hremoved.old) hm
  | openFile name junk id => exact hshort.elim
  | closeFile id => exact hshort.elim
  | file id call => exact hshort.elim

theorem lists_of_run {depth : ℕ} {calls : List Call} (hs : VolumeInv s) (hm : s.Lists m)
    (hrun : Run (Volume.Step depth) Volume.RoomFor s calls t) :
    VolumeInv t ∧ t.Lists (calls.foldl NameMap.record m) := by
  induction hrun generalizing m with
  | nil s => exact ⟨hs, hm⟩
  | cons hc ht _ ih => exact ih (hs.step hc.2 ht) (hm.step hs hc ht)

/-- `Open` finds the sector of the entry with the name. -/
theorem Volume.Lists.openSector (hs : VolumeInv s) (hm : s.Lists m) {name : CString}
    (hshort : name.chars.length ≤ fileNameMaxLen) (junk : Memory) :
    s.openSector name junk = some (m name.chars) := by
  obtain ⟨d, hfetch, -, hentry⟩ := hs.layout.dir.fetch_listing junk
  rw [Volume.openSector, hfetch, Option.map_some]
  congr 1
  cases hi : d.findIndex name.memory with
  | none =>
    have hnone : m name.chars = none := by
      rw [Option.eq_none_iff_forall_ne_some]
      intro w hw
      obtain ⟨i, hi'⟩ := (hm _ w).mpr hw
      rw [← hentry, ← text_of_short hshort] at hi'
      exact Directory.findIndex_eq_none_iff.mp hi i w hi'
    rw [hnone, Directory.find_of_none hi]
    rfl
  | some i =>
    have hfound := Directory.findIndex_eq_some hi
    rw [hentry, text_of_short hshort] at hfound
    have hlt := hs.layout.entry_lt i _ _ hfound
    have hnonneg : (d.find name.memory).toInt ≥ 0 := by
      rw [Directory.find_eq hi, toInt_of_lt rfl hlt (by decide)]
      exact Int.natCast_nonneg _
    rw [if_pos hnonneg, Directory.find_eq hi]
    exact ((hm _ _).mp ⟨i, hfound⟩).symm

theorem Formatted.lists (hf : Formatted s) : s.Lists fun _ => none := by
  intro l w
  constructor
  · rintro ⟨i, hi⟩
    rw [hf.empty] at hi
    cases hi
  · intro h
    cases h

theorem letterName_short (i : ℕ) : (letterName i).chars.length ≤ fileNameMaxLen := by
  simp [letterName]

theorem creations_onShortName (fresh : Fresh) (k : ℕ) : ∀ c ∈ creations fresh k, c.OnShortName := by
  intro c hc
  obtain ⟨i, -, rfl⟩ := List.mem_map.mp hc
  exact letterName_short i

/-- On a disk that was formatted and then used by `Create` and `Remove`, `Open`
finds a name exactly if the last successful call on it was `Create`, and opens
the sector that this call chose. -/
theorem openSector_eq_namesAfter {depth : ℕ} {st : Store} {fresh : Fresh} {calls : List Call}
    (hf : format depth st fresh = some s)
    (hrun : Run (Volume.Step depth) Volume.RoomFor s calls t) {name : CString}
    (hshort : name.chars.length ≤ fileNameMaxLen) (junk : Memory) :
    t.openSector name junk = some (namesAfter calls name.chars) := by
  have hs := format_formatted hf
  obtain ⟨ht, hlists⟩ := lists_of_run hs.inv hs.lists hrun
  exact hlists.openSector ht hshort junk

theorem openSector_eq_namesAfter_ten_files :
    ∃ s t, format 1 blankStore blankFresh = some s ∧
      Run (Volume.Step 1) Volume.RoomFor s (creations blankFresh 10) t ∧
      t.openSector (letterName 9) (fun _ => 0#8) =
        some (namesAfter (creations blankFresh 10) (letterName 9).chars) ∧
      namesAfter (creations blankFresh 10) (letterName 9).chars = some 14#32 := by
  obtain ⟨s, t, hs, hrun, -⟩ := exists_filled 0 blankFresh (show blankStore.next < 2 ^ 32 by decide)
    (k := 10) le_rfl
  have hrun := hrun.and_label (creations_onShortName blankFresh 10)
  exact ⟨s, t, hs, hrun, openSector_eq_namesAfter hs hrun (letterName_short 9) _, by decide⟩

/-- Eleven files are created, and the last one cannot be opened. -/
theorem not_openSector_eq_namesAfter : ¬∀ (depth : ℕ) (st : Store) (fresh : Fresh)
    (calls : List Call) (s t : Volume) (name : CString) (junk : Memory),
    format depth st fresh = some s → Run (Volume.Step depth) (fun _ c => c.OnShortName) s calls t →
      name.chars.length ≤ fileNameMaxLen →
        t.openSector name junk = some (namesAfter calls name.chars) := by
  intro hall
  obtain ⟨s, t, hs, hrun, hfilled⟩ := exists_filled 1 blankFresh
    (show blankStore.next < 2 ^ 32 by decide) (k := numDirEntries) le_rfl
  obtain ⟨u, hu, hentry, -, -⟩ := hfilled.create_full blankFresh 0
  have hrun : Run (Volume.Step 2) Free s (creations blankFresh 11) u := by
    rw [creations_succ]
    exact (hrun.mono fun _ _ _ => trivial).append (.cons trivial hu (.nil u))
  have hopen := hall 2 blankStore blankFresh (creations blankFresh 11) s u (letterName 10)
    (fun _ => 0#8) hs ((hrun.and_label (creations_onShortName _ _)).mono fun _ _ h => h.1)
    (letterName_short 10)
  have hlast : namesAfter (creations blankFresh 11) (letterName 10).chars = some 15#32 := by decide
  rw [hlast] at hopen
  obtain ⟨d, hfetch, hfind⟩ := Option.map_eq_some_iff.mp hopen
  have hnone : d.findIndex (letterName 10).memory = none := by
    rw [Directory.findIndex_eq_none_iff]
    intro i w
    have hlisting : u.listing = d := by rw [Volume.listing, hfetch, Option.getD_some]
    rw [← hlisting, hentry]
    exact hfilled.not_named (by decide) i w
  rw [Directory.find_of_none hnone] at hfind
  exact absurd hfind (by decide)

end Nachos.FileSystem
