import Nachos.FileArrays
import Nachos.HostFiles

/-!
# The bit map as a finite set

Any sequence of calls of a bit map with indices in its range, over storage with any
contents. The indices that are marked are a finite set. `SetStep` says what each call does
to the set and what it answers; the bits behind the last index are those of the storage.

A map is stored by `WriteBack` and read by `FetchFrom`, in a file of the host (build with
`FILESYS_STUB`) or in an open file of the file system.
-/
namespace Nachos.BitMap
open ByteMemory FileSystem

/-- The indices that are marked. -/
def marked (b : BitMap) : Finset ℕ := (Finset.range b.numBits).filter fun i => b.bit i

inductive Call where
  | mark (which : ℤ)
  | clear (which : ℤ)
  | test (which : ℤ)
  | find
  | numClear
  deriving DecidableEq, Repr

inductive Answer where
  | done
  | bool (value : Bool)
  | int (value : ℤ)
  deriving DecidableEq, Repr

def call (b : BitMap) : Call → Option (Answer × BitMap)
  | .mark which => (b.mark which).map fun b => (.done, b)
  | .clear which => (b.clear which).map fun b => (.done, b)
  | .test which => (b.test which).map fun r => (.bool r, b)
  | .find => some (.int b.find.1, b.find.2)
  | .numClear => some (.int b.numClear, b)

/-- The calls one after another, with their answers. -/
def perform : BitMap → List Call → Option (List Answer × BitMap)
  | b, [] => some ([], b)
  | b, c :: cs => (b.call c).bind fun r => (perform r.2 cs).map fun rest => (r.1 :: rest.1, rest.2)

/-- The index of a call is one of the `n` indices. -/
def Call.Legal (n : ℕ) : Call → Prop
  | .mark which => 0 ≤ which ∧ which < n
  | .clear which => 0 ≤ which ∧ which < n
  | .test which => 0 ≤ which ∧ which < n
  | .find => True
  | .numClear => True

/-- What a call does to a set of indices below `n`. -/
inductive SetStep (n : ℕ) (s : Finset ℕ) : Call → Answer → Finset ℕ → Prop
  | mark {i : ℕ} : i < n → SetStep n s (.mark i) .done (insert i s)
  | clear {i : ℕ} : i < n → SetStep n s (.clear i) .done (s.erase i)
  | test {i : ℕ} : i < n → SetStep n s (.test i) (.bool (i ∈ s)) s
  | find {i : ℕ} : i < n → i ∉ s → (∀ j < i, j ∈ s) → SetStep n s .find (.int i) (insert i s)
  | full : (∀ i < n, i ∈ s) → SetStep n s .find (.int (-1)) s
  | numClear : SetStep n s .numClear (.int (Finset.range n \ s).card) s

inductive SetSteps (n : ℕ) : Finset ℕ → List Call → List Answer → Finset ℕ → Prop
  | nil {s : Finset ℕ} : SetSteps n s [] [] s
  | cons {s t u : Finset ℕ} {c : Call} {a : Answer} {cs : List Call} {as : List Answer} :
      SetStep n s c a t → SetSteps n t cs as u → SetSteps n s (c :: cs) (a :: as) u

section sets
variable {b b' : BitMap} {i n : ℕ}

@[simp] theorem mem_marked : i ∈ b.marked ↔ i < b.numBits ∧ b.bit i = true := by
  simp [marked]

theorem marked_setBit (hi : i < b.numBits) : (b.setBit i).marked = insert i b.marked := by
  ext j
  simp only [mem_marked, setBit_numBits, bit_setBit, Finset.mem_insert, Bool.or_eq_true,
    decide_eq_true_eq]
  constructor
  · rintro ⟨hj, rfl | hbit⟩
    · exact Or.inl rfl
    · exact Or.inr ⟨hj, hbit⟩
  · rintro (rfl | ⟨hj, hbit⟩)
    · exact ⟨hi, Or.inl rfl⟩
    · exact ⟨hj, Or.inr hbit⟩

theorem marked_resetBit : (b.resetBit i).marked = b.marked.erase i := by
  ext j
  simp only [mem_marked, resetBit_numBits, bit_resetBit, Finset.mem_erase, Bool.and_eq_true,
    Bool.not_eq_true', decide_eq_false_iff_not]
  tauto

theorem marked_create (storage : ℕ → Word) (n : ℕ) : (create storage n).marked = ∅ := by
  refine Finset.eq_empty_of_forall_notMem fun i hi => ?_
  obtain ⟨hlt, hbit⟩ := mem_marked.mp hi
  rw [create_numBits] at hlt
  rw [bit_create storage hlt] at hbit
  exact Bool.false_ne_true hbit

theorem numClear_eq_card (b : BitMap) : b.numClear = (Finset.range b.numBits \ b.marked).card := by
  have hset : Finset.range b.numBits \ b.marked = b.clearBits.toFinset := by
    ext j
    simp only [Finset.mem_sdiff, Finset.mem_range, mem_marked, List.mem_toFinset, mem_clearBits,
      Bool.eq_false_iff]
    tauto
  rw [numClear_eq_length, hset, List.toFinset_card_of_nodup b.clearBits_nodup]

/-- Two maps that differ in the first `n` bits only. -/
def SameBehind (n : ℕ) (b b' : BitMap) : Prop := ∀ i, n ≤ i → b'.bit i = b.bit i

theorem sameBehind_setBit (hi : i < n) : SameBehind n b (b.setBit i) := by
  intro j hj
  rw [bit_setBit, decide_eq_false (by omega), Bool.false_or]

theorem sameBehind_resetBit (hi : i < n) : SameBehind n b (b.resetBit i) := by
  intro j hj
  rw [bit_resetBit, decide_eq_false (by omega), Bool.not_false, Bool.true_and]

theorem sameBehind_create (storage : ℕ → Word) (n : ℕ) :
    SameBehind n ⟨n, storage⟩ (create storage n) := by
  intro j hj
  simp [create, bit_foldl_resetBit, hj]

theorem inRange_cases {which : ℤ} (h : b.InRange which) : ∃ i : ℕ, which = i ∧ i < b.numBits := by
  obtain ⟨i, rfl⟩ := Int.eq_ofNat_of_zero_le h.1
  exact ⟨i, rfl, by exact_mod_cast h.2⟩

/-- One call: it returns, and it does to the set what it should. -/
theorem call_spec (hb : b.numBits = n) {c : Call} (hc : c.Legal n) : ∃ a b',
    b.call c = some (a, b') ∧ b'.numBits = n ∧ SetStep n b.marked c a b'.marked ∧
      SameBehind n b b' := by
  subst hb
  cases c with
  | mark which =>
    have hin : b.InRange which := hc
    obtain ⟨i, rfl, hi⟩ := inRange_cases hin
    refine ⟨.done, b.setBit i, ?_, rfl, ?_, sameBehind_setBit hi⟩
    · rw [call, mark, if_pos hin]
      rfl
    · rw [marked_setBit hi]
      exact .mark hi
  | clear which =>
    have hin : b.InRange which := hc
    obtain ⟨i, rfl, hi⟩ := inRange_cases hin
    refine ⟨.done, b.resetBit i, ?_, rfl, ?_, sameBehind_resetBit hi⟩
    · rw [call, clear, if_pos hin]
      rfl
    · rw [marked_resetBit]
      exact .clear hi
  | test which =>
    have hin : b.InRange which := hc
    obtain ⟨i, rfl, hi⟩ := inRange_cases hin
    have hbit : b.bit i = decide (i ∈ b.marked) := by simp [hi]
    refine ⟨.bool (b.bit i), b, ?_, rfl, ?_, fun _ _ => rfl⟩
    · rw [call, test, if_pos hin]
      rfl
    · rw [hbit]
      exact .test hi
  | find =>
    rcases find_cases b with ⟨i, hi, hclear, hmin, heq⟩ | ⟨hall, heq⟩
    · refine ⟨.int i, b.setBit i, by rw [call, heq], rfl, ?_, sameBehind_setBit hi⟩
      rw [marked_setBit hi]
      refine .find hi (by simp [hclear]) fun j hj => mem_marked.mpr ⟨hj.trans hi, hmin j hj⟩
    · refine ⟨.int (-1), b, by rw [call, heq], rfl, ?_, fun _ _ => rfl⟩
      exact .full fun i hi => mem_marked.mpr ⟨hi, hall i hi⟩
  | numClear =>
    refine ⟨.int b.numClear, b, rfl, rfl, ?_, fun _ _ => rfl⟩
    rw [numClear_eq_card]
    exact .numClear

theorem perform_spec (hb : b.numBits = n) {calls : List Call} (hcalls : ∀ c ∈ calls, c.Legal n) :
    ∃ answers b', b.perform calls = some (answers, b') ∧ b'.numBits = n ∧
      SetSteps n b.marked calls answers b'.marked ∧ SameBehind n b b' := by
  induction calls generalizing b with
  | nil => exact ⟨[], b, rfl, hb, .nil, fun _ _ => rfl⟩
  | cons c cs ih =>
    obtain ⟨a, b₁, hcall, hb₁, hstep, hsame⟩ := call_spec hb (hcalls c List.mem_cons_self)
    obtain ⟨as, b₂, hrest, hb₂, hsteps, hsame'⟩ :=
      ih hb₁ fun c hc => hcalls c (List.mem_cons_of_mem _ hc)
    refine ⟨a :: as, b₂, ?_, hb₂, .cons hstep hsteps, fun i hi => (hsame' i hi).trans (hsame i hi)⟩
    rw [perform, hcall, Option.bind_some, hrest, Option.map_some]

/-- As long as there are clear bits, `Find` hands them out one by one. -/
theorem perform_find {k : ℕ} (hk : k ≤ b.numClear) : ∃ b',
    b.perform (List.replicate k .find) =
      some ((b.clearBits.take k).map fun i => .int i, b') := by
  induction k generalizing b with
  | zero => exact ⟨b, rfl⟩
  | succ k ih =>
    cases hbits : b.clearBits with
    | nil => simp [numClear_eq_length, hbits] at hk
    | cons i rest =>
      have hrest := clearBits_setBit hbits
      have hk' : k ≤ (b.setBit i).numClear := by
        rw [numClear_eq_length, hbits, List.length_cons] at hk
        rw [numClear_eq_length, hrest]
        omega
      obtain ⟨b', hb'⟩ := ih hk'
      refine ⟨b', ?_⟩
      rw [List.replicate_succ, perform, call, find_of_clearBits hbits, Option.bind_some, hb', hrest]
      rfl

end sets

/-! ### Storage -/

/-- `divRoundUp(numBits, BitsInWord)` -/
def numWords (b : BitMap) : ℕ := b.numBits / 32 + if b.numBits % 32 > 0 then 1 else 0

/-- What `WriteBack` passes to `WriteAt`. -/
def bytes (b : BitMap) : List Byte := bytesAt (mapBytes b) 0 (4 * b.numWords)

/-- `WriteBack` and `FetchFrom` over a file of the host. -/
def stubWriteBack (b : BitMap) (file : List Byte) : List Byte :=
  HostFiles.writeAt 0 file b.bytes 0

def stubFetchFrom (b : BitMap) (file : List Byte) : BitMap :=
  fetchMap b (HostFiles.readAt file (4 * b.numWords) 0)

/-- `WriteBack` and `FetchFrom` over an open file of the file system. -/
def writeBack (depth : ℕ) (st : Store) (file : FileHeader) (junk : Junk) (b : BitMap) :
    Option (ℕ × Store × FileHeader) :=
  writeAt depth st file junk b.bytes 0

def fetchFrom (b : BitMap) (st : Store) (file : FileHeader) : Option BitMap :=
  (file.readAt st (4 * b.numWords) 0).map (fetchMap b)

section storage
variable {b b' : BitMap}

theorem numWords_congr (h : b'.numBits = b.numBits) : b'.numWords = b.numWords := by
  simp only [numWords, h]

theorem word_lt_numWords {i : ℕ} (hi : i < b.numBits) : i / 32 < b.numWords := by
  unfold numWords
  split_ifs <;> omega

@[simp] theorem bytes_length (b : BitMap) : b.bytes.length = 4 * b.numWords := bytesAt_length _ _ _

/-- A map that gets the bytes of another one of its size is the same set. -/
theorem marked_fetchMap (h : b'.numBits = b.numBits) : (fetchMap b' b.bytes).marked = b.marked := by
  ext i
  have hnum : (fetchMap b' b.bytes).numBits = b.numBits := h
  rw [mem_marked, mem_marked, hnum]
  refine and_congr_right fun hi => ?_
  have hword := word_lt_numWords hi
  rw [bit_eq_getLsbD, bit_eq_getLsbD, bytes, fetchMap_map b b' (by omega)]

theorem stubFetchFrom_stubWriteBack (h : b'.numBits = b.numBits) (file : List Byte) :
    (b'.stubFetchFrom (b.stubWriteBack file)).marked = b.marked := by
  have hread : HostFiles.readAt (b.stubWriteBack file) (4 * b'.numWords) 0 = b.bytes := by
    rw [numWords_congr h, ← bytes_length, stubWriteBack]
    exact HostFiles.readAt_writeAt 0 file b.bytes 0
  rw [stubFetchFrom, hread]
  exact marked_fetchMap h

/-- What is in the sectors of the file is the set that is fetched. -/
theorem fetchFrom_of_contents {st : Store} {file : FileHeader} {σ : ℕ → ℕ} {length : ℕ}
    (h : b'.numBits = b.numBits) (hf : ArrayFile st file σ length)
    (hfits : 4 * b.numWords ≤ length)
    (hbytes : ∀ p < 4 * b.numWords, FileHeader.contents st σ p = mapBytes b p) :
    ∃ b'', b'.fetchFrom st file = some b'' ∧ b''.marked = b.marked := by
  have hread : file.readAt st (4 * b'.numWords) 0 = some b.bytes := by
    rw [numWords_congr h, hf.maps.readAt hf.length_eq (sectorsFor_bound length), Nat.sub_zero,
      Nat.min_eq_left hfits]
    refine congrArg some (bytesAt_congr fun k hk => ?_)
    rw [Nat.zero_add]
    exact hbytes k hk
  refine ⟨fetchMap b' b.bytes, ?_, marked_fetchMap h⟩
  rw [fetchFrom, hread, Option.map_some]

theorem fetchFrom_writeBack {st : Store} {file : FileHeader} {σ : ℕ → ℕ} {length : ℕ}
    (hb : 0 < b.numBits) (h : b'.numBits = b.numBits) (hf : ArrayFile st file σ length)
    (hfits : 4 * b.numWords ≤ length) (depth : ℕ) (junk : Junk) : ∃ st' b'',
    b.writeBack (depth + 1) st file junk = some (4 * b.numWords, st', file) ∧
      b'.fetchFrom st' file = some b'' ∧ b''.marked = b.marked := by
  have hne : b.bytes ≠ [] := by
    have := word_lt_numWords hb
    refine List.ne_nil_of_length_pos ?_
    rw [bytes_length]
    omega
  have hin : 0 + b.bytes.length ≤ length := by
    rw [bytes_length, Nat.zero_add]
    exact hfits
  obtain ⟨st', hwrite, hf', hcontents, -⟩ := hf.writeAt hne hin depth junk
  rw [bytes_length] at hwrite
  obtain ⟨b'', hfetch, hmarked⟩ := fetchFrom_of_contents h hf' hfits fun p hp => by
    rw [hcontents p (by omega)]
    have hbyte := overlay_add (m := FileHeader.contents st σ) (a := 0)
      (bytesAt_getElem? (m := mapBytes b) (a := 0) hp)
    rwa [Nat.zero_add] at hbyte
  exact ⟨st', b'', hwrite, hfetch, hmarked⟩

/-- A map without bits stores nothing, and nothing is read for it. -/
theorem fetchFrom_of_empty (hb : b.numBits = 0) (h : b'.numBits = b.numBits) (st : Store)
    (file : FileHeader) : ∃ b'', b'.fetchFrom st file = some b'' ∧ b''.marked = b.marked := by
  have hwords : b.numWords = 0 := by rw [numWords, hb]; rfl
  refine ⟨fetchMap b' b.bytes, ?_, marked_fetchMap h⟩
  rw [fetchFrom, numWords_congr h, bytes, hwords]
  rfl

end storage

/-- A new map is the empty set and every sequence of calls acts on it as on a set of indices;
the bits behind the last index stay as the storage had them. While `NumClear` is at least `k`,
the next `k` calls of `Find` return different indices that were clear. A map that is written to
a file with room for its words and fetched by a map of the same size is the same set. -/
theorem bitMap_is_set (storage : ℕ → Word) (n : ℕ) (calls : List Call)
    (hcalls : ∀ c ∈ calls, c.Legal n) :
    (create storage n).marked = ∅ ∧
    ∃ answers b, (create storage n).perform calls = some (answers, b) ∧ b.numBits = n ∧
      SetSteps n ∅ calls answers b.marked ∧ SameBehind n ⟨n, storage⟩ b ∧
      (∀ k ≤ b.numClear, ∃ (l : List ℕ) (b' : BitMap),
        b.perform (List.replicate k .find) = some (l.map fun i => .int i, b') ∧ l.length = k ∧
        l.Nodup ∧ ∀ i ∈ l, i < n ∧ i ∉ b.marked) ∧
      ∀ b' : BitMap, b'.numBits = n →
        (∀ file : List Byte, 4 * b.numWords ≤ file.length →
          (b'.stubFetchFrom (b.stubWriteBack file)).marked = b.marked) ∧
        ∀ (st : Store) (file : FileHeader) (σ : ℕ → ℕ) (length depth : ℕ) (junk : Junk),
          ArrayFile st file σ length → 4 * b.numWords ≤ length →
          (0 < n → (b.writeBack (depth + 1) st file junk).isSome) ∧
          ∀ r, b.writeBack (depth + 1) st file junk = some r →
            ∃ b'', b'.fetchFrom r.2.1 r.2.2 = some b'' ∧ b''.marked = b.marked := by
  refine ⟨marked_create storage n, ?_⟩
  obtain ⟨answers, b, hperform, hb, hsteps, hsame⟩ :=
    perform_spec (create_numBits storage n) hcalls
  rw [marked_create] at hsteps
  refine ⟨answers, b, hperform, hb, hsteps,
    fun i hi => (hsame i hi).trans (sameBehind_create storage n i hi), fun k hk => ?_,
    fun b' hb' => ⟨fun file _ => stubFetchFrom_stubWriteBack (hb'.trans hb.symm) file, ?_⟩⟩
  · obtain ⟨b', hfind⟩ := perform_find hk
    refine ⟨b.clearBits.take k, b', hfind, ?_, b.clearBits_nodup.sublist (List.take_sublist _ _),
      fun i hi => ?_⟩
    · rw [numClear_eq_length] at hk
      rw [List.length_take, Nat.min_eq_left hk]
    · obtain ⟨hlt, hclear⟩ := mem_clearBits.mp (List.mem_of_mem_take hi)
      exact ⟨hb ▸ hlt, by simp [hclear]⟩
  · intro st file σ length depth junk hf hfits
    have hsize : b'.numBits = b.numBits := hb'.trans hb.symm
    rcases Nat.eq_zero_or_pos n with rfl | hn
    · exact ⟨fun h => absurd h (lt_irrefl 0), fun r _ => fetchFrom_of_empty hb hsize _ _⟩
    · obtain ⟨st', b'', hwrite, hfetch, hmarked⟩ :=
        fetchFrom_writeBack (hb ▸ hn) hsize hf hfits depth junk
      refine ⟨fun _ => by rw [hwrite]; rfl, fun r hr => ?_⟩
      obtain rfl := Option.some.inj (hwrite.symm.trans hr)
      exact ⟨b'', hfetch, hmarked⟩

/-- A map of 33 bits over storage full of ones. Its two words are stored in the first eight
bytes of a file of ten and fetched by another map. -/
theorem bitMap_is_set_two_words : ∃ answers b,
    (create (fun _ => 0xffffffff#32) 33).perform [.mark 32, .find, .clear 32, .numClear] =
      some (answers, b) ∧
    SetSteps 33 ∅ [.mark 32, .find, .clear 32, .numClear] answers b.marked ∧
    ∃ r b', b.writeBack 1 (sampleStore 10 1 6) ⟨10, 1, fun _ => 6, fun _ => 0, fun _ => 0⟩
        clearJunk = some r ∧
      (create (fun _ => 0#32) 33).fetchFrom r.2.1 r.2.2 = some b' ∧ b'.marked = b.marked := by
  obtain ⟨-, answers, b, hperform, hb, hsteps, -, -, hstored⟩ := bitMap_is_set
    (fun _ => 0xffffffff#32) 33 [.mark 32, .find, .clear 32, .numClear] (by
      simp [Call.Legal])
  have hwords : b.numWords = 2 := by rw [numWords, hb]; rfl
  obtain ⟨hwrite, hfetch⟩ := (hstored (create (fun _ => 0#32) 33) (create_numBits _ _)).2 _ _ _ 10 0
    clearJunk sampleStore_array (by rw [hwords]; decide)
  obtain ⟨r, hr⟩ := Option.isSome_iff_exists.mp (hwrite (by decide))
  obtain ⟨b', hb', hmarked⟩ := hfetch r hr
  exact ⟨answers, b, hperform, hsteps, r, b', hr, hb', hmarked⟩

end Nachos.BitMap
