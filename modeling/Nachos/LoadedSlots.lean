import Nachos.LoadedBytes
import Nachos.PagingRefinement

/-!
# The swap slots of a new address space

With `VM` the constructor of `AddrSpace` puts the pages of the segments into swap slots
and takes a slot for every other page. `Building` is the invariant of this: the paging
state still refines private memories (`Paged`), nothing of the new space is resident, and
the slots it has are the first ones that were free. `newSpace_spec` says what the private
memory of the space is in the end.
-/
namespace Nachos.Loading
open DemandPaging

section slots
variable {E P : Type} {virtualPage : E → ℤ} {sm sm' : SwapManager E P} {pid : ℤ}

/-- A page without a slot gets the first free one. -/
theorem addPageWith_new (h : sm.WellFormed virtualPage)
    {write : SwapManager E P → ℕ → SwapManager E P} {page : E}
    (hnew : ∀ j e, sm.Slot j pid e → virtualPage e ≠ virtualPage page)
    (hadd : sm.addPageWith virtualPage write page pid = some sm') :
    ∃ i rest, sm.bitmap.clearBits = i :: rest ∧ i < SwapManager.swapSize ∧
      sm.bitmap.bit i = false ∧
      sm' = write ⟨sm.bitmap.setBit i, Function.update sm.pids i pid,
        Function.update sm.entries i (some page), sm.swap⟩ i := by
  unfold SwapManager.addPageWith at hadd
  rcases h.search_cases pid (virtualPage page) with ⟨i, e, -, he, hv⟩ | ⟨hs, -⟩
  · exact absurd hv (hnew i e he)
  · rw [hs, Option.bind_some] at hadd
    cases hc : sm.bitmap.clearBits with
    | nil => simp [BitMap.find_of_clearBits_nil hc] at hadd
    | cons i rest =>
      have hi := BitMap.mem_clearBits.1 (hc ▸ List.mem_cons_self)
      simp only [BitMap.find_of_clearBits hc, Int.toNat_natCast] at hadd
      rw [if_neg (by omega)] at hadd
      exact ⟨i, rest, rfl, h.bits ▸ hi.1, hi.2, (Option.some.inj hadd).symm⟩

end slots

variable {A : Type} {s t : State A} {m : Flat A}

/-- The swap file has the page of the private memory. -/
theorem findPage_eq (h : Paged s m) {a : A} (ha : a ∈ s.live) {vpn : ℤ}
    (hv : (s.pageTable (a, vpn)).valid = false) :
    s.swap.findPage Prod.snd (s.pid a) vpn = some ((m (a, vpn)).map fun p => ((a, vpn), p)) := by
  rcases h.1.swap.findPage_cases (s.pid a) vpn with ⟨i, e, hf, hi, he⟩ | ⟨hf, hnone⟩
  · obtain rfl := h.1.slot_unique hi ha rfl he
    obtain ⟨p, hp, hstored⟩ := h.1.stored hi
    rw [hf, hp, hstored fun hd => ?_]
    · rfl
    · rw [hd.1.2] at hv
      cases hv
  · cases hm : m (a, vpn) with
    | none => rw [hf]; rfl
    | some p =>
      obtain ⟨i, q, hi⟩ := h.1.known hm
      exact absurd rfl (hnone i _ ((h.1.owner hi).2 ▸ hi))

/-- The pages of a space that have a slot. -/
def registered (m : Flat A) (a : A) (n : ℕ) : ℕ :=
  ((Finset.range n).filter fun v : ℕ => (m (a, (v : ℤ))).isSome).card

/-- A space that is being built: none of its pages is resident, and its slots are the first ones
that were free. -/
structure Building (s₀ : State A) (a : A) (n : ℕ) (s : State A) (m : Flat A) : Prop where
  paged : Paged s m
  live : a ∈ s.live
  absent : ∀ v, (s.pageTable (a, v)).valid = false
  numPages : s.numPages a = n
  free : s.swap.bitmap.clearBits = s₀.swap.bitmap.clearBits.drop (registered m a n)
  old : ∀ i ∈ s.swap.bitmap.clearBits, s.swap.swap i = s₀.swap.swap i

theorem registered_lt {a : A} {n v : ℕ} (hv : v < n) (hm : m (a, (v : ℤ)) = none) :
    registered m a n < n := by
  have hsub : ((Finset.range n).filter fun w : ℕ => (m (a, (w : ℤ))).isSome) ⊆ (Finset.range n).erase v := by
    intro w hw
    rw [Finset.mem_filter] at hw
    refine Finset.mem_erase.2 ⟨?_, hw.1⟩
    rintro rfl
    simp [hm] at hw
  have hcard := Finset.card_le_card hsub
  rw [Finset.card_erase_of_mem (Finset.mem_range.2 hv), Finset.card_range] at hcard
  rw [registered]
  omega

variable {s₀ : State A} {a : A} {n : ℕ}

theorem Building.no_slot (h : Building s₀ a n s m) {v : ℤ} (hm : m (a, v) = none) (j : ℕ) (e : A × ℤ)
    (hj : s.swap.Slot j (s.pid a) e) : e.2 ≠ v := by
  intro he
  obtain rfl := h.paged.1.slot_unique hj h.live rfl he
  obtain ⟨p, hp, -⟩ := h.paged.1.stored hj
  rw [hm] at hp
  cases hp

theorem Building.storedByte_eq (h : Building s₀ a n s m) (x : ℕ) :
    storedByte s a x = (m (a, (x / pageSize : ℕ))).map fun p => Page.byte p x := by
  rw [storedByte, findPage_eq h.paged h.live (h.absent _)]
  cases m (a, (x / pageSize : ℕ)) <;> rfl

variable [DecidableEq A]

theorem registered_update_new {v : ℕ} (hv : v < n) (hm : m (a, (v : ℤ)) = none) (p : Page) :
    registered (Function.update m (a, (v : ℤ)) (some p)) a n = registered m a n + 1 := by
  have hset : ((Finset.range n).filter fun w : ℕ =>
      (Function.update m (a, (v : ℤ)) (some p) (a, (w : ℤ))).isSome) =
      insert v ((Finset.range n).filter fun w : ℕ => (m (a, (w : ℤ))).isSome) := by
    ext w
    by_cases hw : w = v
    · simp [hw, hv]
    · simp [hw, Function.update_of_ne]
  rw [registered, hset, Finset.card_insert_of_notMem (by simp [hm])]
  rfl

theorem registered_update_old {v : ℤ} {q : Page} (hm : m (a, v) = some q) (p : Page) :
    registered (Function.update m (a, v) (some p)) a n = registered m a n := by
  rw [registered, registered]
  congr 1
  ext w
  by_cases hw : (w : ℤ) = v
  · simp [hw, hm]
  · simp [hw, Function.update_of_ne]

/-- A page with contents. -/
theorem Building.load (h : Building s₀ a n s m) {v : ℤ} {p : Page}
    (ht : step s (.addPage a v (some p)) = some t) :
    Building s₀ a n t (Function.update m (a, v) (some p)) := by
  obtain ⟨m', hflat, hpaged⟩ := h.paged.addPage ht
  cases hflat
  simp only [step] at ht
  split_ifs at ht with ha
  obtain ⟨swap, hadd, rfl⟩ := Option.map_eq_some_iff.mp ht
  obtain ⟨v, rfl⟩ := Int.eq_ofNat_of_zero_le ha.2.1.1
  have hv : v < n := by
    have := ha.2.1.2
    rw [h.numPages] at this
    omega
  suffices hslots : swap.bitmap.clearBits = s₀.swap.bitmap.clearBits.drop
      (registered (Function.update m (a, (v : ℤ)) (some p)) a n) ∧
      ∀ i ∈ swap.bitmap.clearBits, swap.swap i = s₀.swap.swap i from
    ⟨hpaged, h.live, h.absent, h.numPages, hslots.1, hslots.2⟩
  cases hm : m (a, (v : ℤ)) with
  | some q =>
    obtain ⟨i, e, hi, rfl⟩ : ∃ i e, s.swap.Slot i (s.pid a) e ∧ swap = s.swap.setSlot i p := by
      rcases h.paged.1.swap.addPageWith_cases hadd with ⟨i, e, hi, -, rfl⟩ | ⟨-, -, -, hnew, -⟩
      · exact ⟨i, e, hi, rfl⟩
      · obtain ⟨i, r, hi⟩ := h.paged.1.known hm
        exact absurd rfl (hnew i _ ((h.paged.1.owner hi).2 ▸ hi))
    refine ⟨?_, fun j hj => ?_⟩
    · rw [registered_update_old hm]
      exact h.free
    · have hne : j ≠ i := by
        rintro rfl
        exact Bool.false_ne_true ((BitMap.mem_clearBits.1 hj).2.symm.trans hi.bit)
      exact (Function.update_of_ne hne _ _).trans (h.old j hj)
  | none =>
    obtain ⟨i, rest, hc, -, -, rfl⟩ := addPageWith_new h.paged.1.swap (h.no_slot hm) hadd
    have hrest := BitMap.clearBits_setBit hc
    refine ⟨?_, fun j hj => ?_⟩
    · show (s.swap.bitmap.setBit i).clearBits = _
      rw [hrest, registered_update_new hv hm, ← List.drop_drop, ← h.free, hc]
      rfl
    · change j ∈ (s.swap.bitmap.setBit i).clearBits at hj
      have hne : j ≠ i := by
        rintro rfl
        have := (BitMap.mem_clearBits.1 hj).2
        simp at this
      rw [hrest] at hj
      refine (Function.update_of_ne hne _ _).trans (h.old j ?_)
      rw [hc]
      exact List.mem_cons_of_mem i hj

/-- A page without contents keeps its slot, or gets the next free one as it is. -/
theorem Building.reserve (h : Building s₀ a n s m) {v : ℕ}
    (ht : step s (.addPage a v none) = some t) :
    (∃ p, m (a, (v : ℤ)) = some p ∧ Building s₀ a n t m) ∨
      (m (a, (v : ℤ)) = none ∧ v < n ∧ ∃ i, s₀.swap.bitmap.clearBits[registered m a n]? = some i ∧
        Building s₀ a n t (Function.update m (a, (v : ℤ)) (some (s₀.swap.swap i)))) := by
  have hstep := ht
  simp only [step] at ht
  split_ifs at ht with ha
  obtain ⟨swap, hadd, rfl⟩ := Option.map_eq_some_iff.mp ht
  have hv : v < n := by
    have := ha.2.1.2
    rw [h.numPages] at this
    omega
  have hres : ¬s.Resident (a, (v : ℤ)) := by simp [State.Resident, h.absent]
  obtain ⟨cells, hl⟩ := h.paged.2
  have hlist : Listed { s with swap := swap } cells := ⟨hl.rep, hl.tail, hl.listed, hl.once⟩
  cases hm : m (a, (v : ℤ)) with
  | some p =>
    obtain rfl : swap = s.swap := by
      rcases h.paged.1.swap.addPageWith_cases hadd with ⟨-, -, -, -, rfl⟩ | ⟨-, -, -, hnew, -⟩
      · rfl
      · obtain ⟨i, r, hi⟩ := h.paged.1.known hm
        exact absurd rfl (hnew i _ ((h.paged.1.owner hi).2 ▸ hi))
    exact .inl ⟨p, rfl, h⟩
  | none =>
    obtain ⟨i, rest, hc, hi, hbit, rfl⟩ := addPageWith_new h.paged.1.swap (h.no_slot hm) hadd
    have hrest := BitMap.clearBits_setBit hc
    have hold : s.swap.swap i = s₀.swap.swap i := h.old i (hc ▸ List.mem_cons_self)
    refine .inr ⟨rfl, hv, i, ?_, ?_⟩
    · rw [← List.head?_drop, ← h.free, hc]
      rfl
    · refine ⟨⟨hold ▸ h.paged.1.insert h.live hres hi hbit (h.no_slot hm), cells, hlist⟩, h.live,
        h.absent, h.numPages, ?_, fun j hj => ?_⟩
      · show (s.swap.bitmap.setBit i).clearBits = _
        rw [hrest, registered_update_new hv hm, ← List.drop_drop, ← h.free, hc]
        rfl
      · change j ∈ (s.swap.bitmap.setBit i).clearBits at hj
        rw [hrest] at hj
        exact h.old j (hc ▸ List.mem_cons_of_mem i hj)

theorem putSlot_putsBytes :
    PutsBytes (putSlot a) (fun s => storedByte s a) fun s => ∃ m, Building s₀ a n s m := by
  constructor
  rintro s t vpn offset buffer ⟨m, h⟩ hoff hwhole hput
  rw [putSlot, findPage_eq h.paged h.live (h.absent _), Option.bind_some] at hput
  have ht := h.load hput
  refine ⟨⟨_, ht⟩, fun x => ?_⟩
  rw [ht.storedByte_eq, h.storedByte_eq]
  by_cases hpage : x / pageSize = vpn
  · subst hpage
    rw [Function.update_self, Option.map_some]
    have hstart : x / pageSize * pageSize / pageSize = x / pageSize :=
      Nat.mul_div_cancel _ (by decide)
    rw [h.storedByte_eq, hstart] at hwhole
    have hsub : x - (x / pageSize * pageSize + offset) = x % pageSize - offset := by
      simp only [pageSize] at *
      omega
    cases hm : m (a, ((x / pageSize : ℕ) : ℤ)) with
    | some p =>
      show some (Page.byte (merge p offset buffer) x) = _
      rw [byte_merge]
      by_cases hle : offset ≤ x % pageSize
      · rw [if_pos hle, if_pos ((in_rest_iff hoff).2 ⟨rfl, hle⟩), hsub]
      · rw [if_neg hle, if_neg fun hr => hle ((in_rest_iff hoff).1 hr).2]
        rfl
    | none =>
      obtain rfl : offset = 0 := hwhole.resolve_right (by rw [hm]; exact Bool.false_ne_true)
      show some (Page.byte buffer x) = _
      rw [if_pos ((in_rest_iff hoff).2 ⟨rfl, Nat.zero_le _⟩), hsub, Nat.sub_zero]
      exact congrArg (fun i => some (buffer i)) (Fin.ext (Nat.mod_mod x pageSize).symm)
  · have hne : (a, ((x / pageSize : ℕ) : ℤ)) ≠ (a, (vpn : ℤ)) := fun he =>
      hpage (Nat.cast_injective (Prod.mk.inj he).2)
    rw [Function.update_of_ne hne, if_neg fun hr => hpage ((in_rest_iff hoff).1 hr).1]

theorem mem_take_drop {l : List ℕ} {n k j i : ℕ} (hi : l[j]? = some i) (hk : k ≤ j) (hj : j < n) :
    i ∈ (l.take n).drop k := by
  apply List.mem_of_getElem? (i := j - k)
  rw [List.getElem?_drop, Nat.add_sub_cancel' hk, List.getElem?_take_of_lt hj, hi]

theorem Building.reserveAll (h : Building s₀ a n s m) {l : List ℕ}
    (ht : l.foldlM (fun s (v : ℕ) => step s (.addPage a v none)) s = some t) :
    ∃ m', Building s₀ a n t m' ∧ (∀ k, (m k).isSome → m' k = m k) ∧
      ∀ v ∈ l, m (a, (v : ℤ)) = none →
        ∃ i ∈ (s₀.swap.bitmap.clearBits.take n).drop (registered m a n),
          m' (a, (v : ℤ)) = some (s₀.swap.swap i) := by
  induction l generalizing s m with
  | nil =>
    obtain rfl := Option.some.inj ht
    exact ⟨m, h, fun _ _ => rfl, fun v hv => absurd hv List.not_mem_nil⟩
  | cons v l ih =>
    rw [List.foldlM_cons] at ht
    obtain ⟨s₁, hs₁, ht⟩ := Option.bind_eq_some_iff.mp ht
    rcases h.reserve hs₁ with ⟨p, hp, h₁⟩ | ⟨hnone, hv, i, hi, h₁⟩
    · obtain ⟨m', hm', hkeep, hnew⟩ := ih h₁ ht
      refine ⟨m', hm', hkeep, fun w hw hwnone => ?_⟩
      rcases List.mem_cons.mp hw with rfl | hw
      · rw [hp] at hwnone
        cases hwnone
      · exact hnew w hw hwnone
    · obtain ⟨m', hm', hkeep, hnew⟩ := ih h₁ ht
      have hself : m' (a, (v : ℤ)) = some (s₀.swap.swap i) := by
        rw [hkeep _ (by rw [Function.update_self]; rfl), Function.update_self]
      refine ⟨m', hm', fun k hk => ?_, fun w hw hwnone => ?_⟩
      · have hne : k ≠ (a, (v : ℤ)) := by
          rintro rfl
          rw [hnone] at hk
          cases hk
        rw [hkeep k (by rwa [Function.update_of_ne hne]), Function.update_of_ne hne]
      · by_cases hwv : w = v
        · rw [hwv]
          exact ⟨i, mem_take_drop hi le_rfl (registered_lt hv hnone), hself⟩
        · have hne : (a, (w : ℤ)) ≠ (a, (v : ℤ)) := by simpa using hwv
          obtain ⟨j, hj, hpage⟩ := hnew w ((List.mem_cons.mp hw).resolve_left hwv)
            (by rwa [Function.update_of_ne hne])
          rw [registered_update_new hv hnone] at hj
          exact ⟨j, List.drop_subset_drop_left _ (Nat.le_succ _) hj, hpage⟩

theorem building_create (h : Paged s m) {pid : ℤ}
    (ht : step s (.create a pid n fun _ => false) = some t) :
    Building s a n t m ∧ ∀ v, m (a, v) = none := by
  have hpaged := h.create ht
  simp only [step] at ht
  split_ifs at ht with ha
  obtain rfl := Option.some.inj ht
  have hnone : ∀ v, m (a, v) = none := by
    intro v
    cases hm : m (a, v) with
    | none => rfl
    | some p =>
      obtain ⟨i, q, hi⟩ := h.1.known hm
      exact absurd (h.1.owner hi).1 ha.1
  have hzero : registered m a n = 0 := by
    simp [registered, hnone]
  refine ⟨⟨hpaged, List.mem_cons_self, fun v => ?_, Function.update_self .., ?_, fun _ _ => rfl⟩, hnone⟩
  · exact congrArg TranslationEntry.valid (if_pos rfl)
  · rw [hzero]
    rfl

/-- The constructor with `VM`: the segments, and slots as they were for the pages behind them. -/
theorem newSpace_spec (h : Paged s m) {buffer buffer' : Page} {pid : ℤ} {file : List UInt8}
    {hdr : NoffHeader} (hread : NoffHeader.read file = some hdr)
    (hcode : hdr.code.Fits file hdr.numPages) (hinit : hdr.initData.Fits file hdr.numPages)
    (hwhole : hdr.Whole) (hnew : newSpace s buffer a pid file = some (t, buffer')) :
    ∃ m', Building s a hdr.numPages t m' ∧
      (∀ x, hdr.InFile file x → hdr.code.Covers x ∨ hdr.initData.Covers x →
        storedByte t a x = contents file hdr (fun _ => none) x) ∧
      ∀ v < hdr.numPages, hdr.firstBlank ≤ v → ¬hdr.Touches v →
        ∃ i ∈ (s.swap.bitmap.clearBits.take hdr.numPages).drop hdr.touched,
          m' (a, (v : ℤ)) = some (s.swap.swap i) := by
  rw [newSpace, hread, Option.bind_some] at hnew
  obtain ⟨s₁, hs₁, hnew⟩ := Option.bind_eq_some_iff.mp hnew
  obtain ⟨⟨s₂, buffer₂⟩, hs₂, hnew⟩ := Option.bind_eq_some_iff.mp hnew
  obtain ⟨t', ht, hres⟩ := Option.map_eq_some_iff.mp hnew
  obtain ⟨rfl, rfl⟩ := Prod.mk.inj hres
  obtain ⟨hb₁, hnone⟩ := building_create h hs₁
  have hempty : storedByte s₁ a = fun _ => none := by
    funext x
    rw [hb₁.storedByte_eq, hnone]
    rfl
  have hfirst : StartsWhole hdr.code fun x => (storedByte s₁ a x).isSome := fun hpos =>
    (hwhole.1 hpos).imp id False.elim
  have hsecond : StartsWhole hdr.initData fun x => (storedByte s₁ a x).isSome ∨ hdr.code.Covers x :=
    fun hpos => (hwhole.2 hpos).imp id .inr
  obtain ⟨⟨m₂, hb₂⟩, hbytes, hsome⟩ := readSegments_spec putSlot_putsBytes (fun _ => rfl) hcode hinit
    ⟨m, hb₁⟩ hfirst hsecond hs₂
  rw [hempty] at hbytes hsome
  have htouch : ∀ v : ℕ, (m₂ (a, (v : ℤ))).isSome ↔ hdr.Touches v := by
    intro v
    have hx : (v * pageSize + (pageSize - 1)) / pageSize = v := by
      simp only [pageSize]
      omega
    have hv := hsome (v * pageSize + (pageSize - 1))
    rw [hb₂.storedByte_eq, hx, Option.isSome_map] at hv
    rw [NoffHeader.Touches]
    simpa only [Option.isSome_none, Bool.false_eq_true, false_or] using hv
  have hcount : registered m₂ a hdr.numPages = hdr.touched := by
    rw [registered, NoffHeader.touched]
    congr 1
    apply Finset.filter_congr
    exact fun v _ => htouch v
  rw [reservePages] at ht
  split_ifs at ht with hneg
  obtain ⟨m', hb, hkeep, hblank⟩ := hb₂.reserveAll ht
  refine ⟨m', hb, fun x hin hcov => ?_, fun v hv hfirst htv => ?_⟩
  · have hx : (m₂ (a, ((x / pageSize : ℕ) : ℤ))).isSome := by
      have := (hsome x).2 (.inr hcov)
      rwa [hb₂.storedByte_eq, Option.isSome_map] at this
    rw [hb.storedByte_eq, hkeep _ hx, ← hb₂.storedByte_eq]
    exact hbytes x hin
  · rw [← hcount]
    apply hblank
    · rw [List.mem_range'_1]
      omega
    · exact Option.not_isSome_iff_eq_none.1 (mt (htouch v).1 htv)

/-- There is a slot for every page of the space. -/
theorem Building.addPage_returns (h : Building s₀ a n s m)
    (hroom : n ≤ s₀.swap.bitmap.clearBits.length) {v : ℕ} (hv : v < n) (buffer : Option Page) :
    ∃ t, step s (.addPage a v buffer) = some t := by
  have hadd : ∀ write : SwapManager (A × ℤ) Page → ℕ → SwapManager (A × ℤ) Page,
      ∃ sm, s.swap.addPageWith Prod.snd write (a, (v : ℤ)) (s.pid a) = some sm := by
    intro write
    unfold SwapManager.addPageWith
    rcases h.paged.1.swap.search_cases (s.pid a) v with ⟨i, e, hs, -⟩ | ⟨hs, hnone⟩
    · rw [hs]
      exact ⟨_, rfl⟩
    · rw [hs, Option.bind_some]
      have hm : m (a, (v : ℤ)) = none := by
        cases hm : m (a, (v : ℤ)) with
        | none => rfl
        | some p =>
          obtain ⟨i, q, hi⟩ := h.paged.1.known hm
          exact absurd rfl (hnone i _ ((h.paged.1.owner hi).2 ▸ hi))
      have hlt := registered_lt hv hm
      cases hc : s.swap.bitmap.clearBits with
      | nil =>
        rw [h.free, List.drop_eq_nil_iff] at hc
        omega
      | cons i rest =>
        simp only [BitMap.find_of_clearBits hc]
        rw [if_neg (by omega)]
        exact ⟨_, rfl⟩
  have hok : a ∈ s.live ∧ (0 ≤ (v : ℤ) ∧ (v : ℤ) < s.numPages a) ∧
      (s.pageTable (a, (v : ℤ))).valid = false :=
    ⟨h.live, ⟨by omega, by rw [h.numPages]; omega⟩, h.absent _⟩
  simp only [step, if_pos hok]
  cases buffer with
  | some p =>
    obtain ⟨sm, hsm⟩ := hadd fun sm i => sm.setSlot i p
    exact ⟨_, congrArg (Option.map _) hsm⟩
  | none =>
    obtain ⟨sm, hsm⟩ := hadd fun sm _ => sm
    exact ⟨_, congrArg (Option.map _) hsm⟩

theorem putSlot_stores (hroom : n ≤ s₀.swap.bitmap.clearBits.length) :
    Stores (putSlot a) n fun s => ∃ m, Building s₀ a n s m := by
  constructor
  rintro s vpn offset buffer ⟨m, h⟩ hvpn
  rw [putSlot, findPage_eq h.paged h.live (h.absent _), Option.bind_some]
  obtain ⟨t, ht⟩ := h.addPage_returns hroom hvpn (some _)
  exact ⟨t, ht, _, h.load ht⟩

theorem Building.reserveAll_returns (h : Building s₀ a n s m)
    (hroom : n ≤ s₀.swap.bitmap.clearBits.length) {l : List ℕ} (hl : ∀ v ∈ l, v < n) :
    ∃ t, l.foldlM (fun s (v : ℕ) => step s (.addPage a v none)) s = some t := by
  induction l generalizing s m with
  | nil => exact ⟨s, rfl⟩
  | cons v l ih =>
    obtain ⟨s₁, hs₁⟩ := h.addPage_returns hroom (hl v List.mem_cons_self) none
    have hl' : ∀ w ∈ l, w < n := fun w hw => hl w (List.mem_cons_of_mem v hw)
    rw [List.foldlM_cons, hs₁]
    rcases h.reserve hs₁ with ⟨_, _, h₁⟩ | ⟨_, _, _, _, h₁⟩
    · exact ih h₁ hl'
    · exact ih h₁ hl'

/-- The space can be made: it is new, its process has a number of its own, and there is a slot for
every page. -/
structure Room (s : State A) (a : A) (pid : ℤ) (n : ℕ) : Prop where
  dead : a ∉ s.live
  deleted : a ∉ s.exiting
  pid : ∀ b ∈ s.live, s.pid b ≠ pid
  slots : n ≤ s.swap.bitmap.clearBits.length

theorem newSpace_returns (h : Paged s m) {pid : ℤ} {file : List UInt8} {hdr : NoffHeader}
    (hread : NoffHeader.read file = some hdr)
    (hcode : hdr.code.Fits file hdr.numPages) (hinit : hdr.initData.Fits file hdr.numPages)
    (hroom : Room s a pid hdr.numPages) (buffer : Page) :
    ∃ t buffer', newSpace s buffer a pid file = some (t, buffer') := by
  have hcreate : ∃ s₁, step s (.create a pid hdr.numPages fun _ => false) = some s₁ :=
    ⟨_, if_pos ⟨hroom.dead, hroom.deleted, hroom.pid⟩⟩
  obtain ⟨s₁, hs₁⟩ := hcreate
  obtain ⟨s₂, buffer₂, hs₂, m₂, h₂⟩ := readSegments_returns (fun read _ => read)
    (putSlot_stores hroom.slots) (fun _ => rfl) hcode hinit buffer ⟨m, (building_create h hs₁).1⟩
  have hblank : ¬hdr.firstBlank < 0 := by
    have hc := hcode.size
    have hi := hinit.size
    rw [NoffHeader.firstBlank]
    simp only [pageSize]
    omega
  obtain ⟨t, ht⟩ := h₂.reserveAll_returns hroom.slots (l := List.range' hdr.firstBlank.toNat
    (hdr.numPages - hdr.firstBlank.toNat)) fun v hv => by
      rw [List.mem_range'_1] at hv
      omega
  rw [newSpace, hread, Option.bind_some, hs₁, Option.bind_some, hs₂, Option.bind_some, reservePages,
    if_neg hblank, ht]
  exact ⟨t, buffer₂, rfl⟩

end Nachos.Loading
