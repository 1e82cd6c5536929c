import Nachos.DemandPaging

/-!
# Demand paging refines private memories

`Mapped` relates frames and swap slots to the private arrays, `Listed` relates
the replacement list to the pages in frames. A page that is resident and clean
is in its slot as well; nodes behind the tail of the list may be lost, so the
list holds some of the resident pages, each once.
-/
namespace Nachos.DemandPaging
open GuardedRuns LinkedCells ReplacementList PhysicalFrames

variable {A : Type}

/-- Resident pages are in marked frames of their own. -/
structure Framed (s : State A) : Prop where
  bits : s.memory.bitMem.numBits = numPhysPages
  range : ∀ k, s.Resident k → 0 ≤ s.frame k ∧ s.frame k < numPhysPages
  marked : ∀ k, s.Resident k → s.memory.bitMem.bit (s.frame k).toNat = true
  unshared : ∀ k k', s.Resident k → s.Resident k' → s.frame k = s.frame k' → k = k'

structure Mapped (s : State A) (m : Flat A) : Prop extends Framed s where
  pids : ∀ a ∈ s.live, ∀ b ∈ s.live, s.pid a = s.pid b → a = b
  swap : s.swap.WellFormed Prod.snd
  owner : ∀ {i q k}, s.swap.Slot i q k → k.1 ∈ s.live ∧ q = s.pid k.1
  stored : ∀ {i q k}, s.swap.Slot i q k → ∃ p, m k = some p ∧
    (¬(s.Resident k ∧ (s.pageTable k).dirty = true) → s.swap.swap i = p)
  known : ∀ {k p}, m k = some p → ∃ i q, s.swap.Slot i q k
  resident : ∀ k, s.Resident k → m k = some (s.mainMemory (s.frame k))

structure Listed (s : State A) (cells : List (Cell (Entry (A × ℤ)))) : Prop where
  rep : s.lru.Rep cells
  tail : ∀ t, s.lru.tail = some t → ∃ c ∈ cells, c.addr = t
  listed : ∀ c ∈ cells, s.Resident c.payload.value ∧ c.payload.pid = s.pid c.payload.value.1
  once : (cells.map fun c => c.payload.value).Nodup

variable {s t : State A} {m : Flat A} {cells : List (Cell (Entry (A × ℤ)))}

/-- No page moves to another frame, and some pages may go. -/
theorem Framed.mono (h : Framed s) (hbits : t.memory.bitMem.numBits = s.memory.bitMem.numBits)
    (hsub : ∀ k, t.Resident k → s.Resident k ∧ t.frame k = s.frame k)
    (hkeep : ∀ k, t.Resident k → s.memory.bitMem.bit (s.frame k).toNat = true →
      t.memory.bitMem.bit (s.frame k).toNat = true) : Framed t where
  bits := hbits.trans h.bits
  range k hk := by
    rw [(hsub k hk).2]
    exact h.range k (hsub k hk).1
  marked k hk := by
    rw [(hsub k hk).2]
    exact hkeep k hk (h.marked k (hsub k hk).1)
  unshared k k' hk hk' hf := by
    rw [(hsub k hk).2, (hsub k' hk').2] at hf
    exact h.unshared k k' (hsub k hk).1 (hsub k' hk').1 hf

/-- The slot of a page of a live space is found under the id of the space. -/
theorem Mapped.slot_unique (h : Mapped s m) {i : ℕ} {q : ℤ} {k : A × ℤ} {a : A} {vpn : ℤ}
    (hi : s.swap.Slot i q k) (ha : a ∈ s.live) (hq : q = s.pid a) (hv : k.2 = vpn) :
    k = (a, vpn) := by
  obtain ⟨hk, hq'⟩ := h.owner hi
  exact Prod.ext (h.pids _ hk _ ha (hq'.symm.trans hq)) hv

/-- What a replacement may have done to the swap slots: nothing for a clean
victim, otherwise the victim's page is in the victim's own slot. -/
inductive Saved (s : State A) (victim : A × ℤ) : SwapManager (A × ℤ) Page → Prop
  | clean : (s.pageTable victim).dirty = false → Saved s victim s.swap
  | dirty {i : ℕ} {q : ℤ} : (s.pageTable victim).dirty = true → s.swap.Slot i q victim →
      Saved s victim (s.swap.setSlot i (s.mainMemory (s.frame victim)))

theorem Saved.slot {victim k : A × ℤ} {swap : SwapManager (A × ℤ) Page} (h : Saved s victim swap)
    {i : ℕ} {q : ℤ} : swap.Slot i q k ↔ s.swap.Slot i q k := by
  cases h with
  | clean => rfl
  | dirty => exact SwapManager.slot_setSlot

theorem Saved.wellFormed {victim : A × ℤ} {swap : SwapManager (A × ℤ) Page}
    (h : Saved s victim swap) (hs : s.swap.WellFormed Prod.snd) : swap.WellFormed Prod.snd := by
  cases h with
  | clean => exact hs
  | dirty => exact hs.setSlot ..

theorem Saved.eq_of_clean {victim : A × ℤ} {swap : SwapManager (A × ℤ) Page}
    (h : Saved s victim swap) (hd : (s.pageTable victim).dirty ≠ true) : swap = s.swap := by
  cases h with
  | clean => rfl
  | dirty hd' => exact absurd hd' hd

/-- Slots of other pages are as they were. -/
theorem Saved.other {victim k : A × ℤ} {swap : SwapManager (A × ℤ) Page} (h : Saved s victim swap)
    {i : ℕ} {q : ℤ} (hi : s.swap.Slot i q k) (hk : k ≠ victim) : swap.swap i = s.swap.swap i := by
  cases h with
  | clean => rfl
  | dirty _ hj =>
    refine Function.update_of_ne ?_ _ _
    rintro rfl
    exact hk (Option.some.inj (hi.entry.symm.trans hj.entry))

/-- The slot of the victim holds what its frame held. -/
theorem Mapped.saved_victim (h : Mapped s m) {victim : A × ℤ} {swap : SwapManager (A × ℤ) Page}
    (hsaved : Saved s victim swap) (hres : s.Resident victim) {i : ℕ} {q : ℤ}
    (hi : s.swap.Slot i q victim) : swap.swap i = s.mainMemory (s.frame victim) := by
  cases hsaved with
  | clean hclean =>
    obtain ⟨p, hp, hstored⟩ := h.stored hi
    have hmem := h.resident victim hres
    rw [hp] at hmem
    exact (hstored (by simp [hclean])).trans (Option.some.inj hmem)
  | dirty _ hj =>
    have hq := (h.owner hi).2.trans (h.owner hj).2.symm
    obtain rfl := h.swap.unique hi (hq ▸ hj) rfl
    exact Function.update_self ..

/-- The page that `findPage` returns to a live process is the one it asked for. -/
theorem Mapped.found (h : Mapped s m) {a : A} (ha : a ∈ s.live) {vpn : ℤ} {p : (A × ℤ) × Page}
    (hp : (s.swap.findPage Prod.snd (s.pid a) vpn).bind id = some p) :
    ∃ i, s.swap.Slot i (s.pid a) (a, vpn) ∧ p = ((a, vpn), s.swap.swap i) := by
  rcases h.swap.findPage_cases (s.pid a) vpn with ⟨i, k, hf, hi, hv⟩ | ⟨hf, -⟩
  · obtain rfl := h.slot_unique hi ha rfl hv
    rw [hf] at hp
    exact ⟨i, hi, (Option.some.inj hp).symm⟩
  · rw [hf] at hp
    cases hp

/-- The victim is in the list; the pages behind it are lost from the list. -/
theorem Listed.getLRU (h : Listed s cells) {victim : A × ℤ} (hv : s.lru.getLRU = some victim) :
    ∃ l c r, cells = l ++ c :: r ∧ s.lru.tail = some c.addr ∧ c.payload.value = victim ∧
      s.lru.tailPid = some (s.pid victim.1) := by
  cases ht : s.lru.tail with
  | none => simp [LRU.getLRU, ht] at hv
  | some a =>
    obtain ⟨c, hc, rfl⟩ := h.tail a ht
    obtain ⟨l, r, rfl⟩ := List.append_of_mem hc
    obtain ⟨hget, hpid⟩ := h.rep.getLRU_eq ht
    obtain rfl := Option.some.inj (hget.symm.trans hv)
    exact ⟨l, c, r, rfl, rfl, rfl, hpid.trans (by rw [(h.listed c hc).2])⟩

/-- With the victim's owner as the faulting process, a dirty victim goes to its
own slot. -/
theorem Mapped.writeBack (h : Mapped s m) {a : A} {victim : A × ℤ}
    {swap : SwapManager (A × ℤ) Page} (hres : s.Resident victim) (ha : a ∈ s.live)
    (hfair : (s.pageTable victim).dirty = true → s.pid victim.1 = s.pid a)
    (hw : s.writeBack a victim = some swap) : Saved s victim swap := by
  unfold State.writeBack at hw
  split_ifs at hw with hd
  · obtain ⟨i, k, hi, hv, rfl⟩ := SwapManager.writePage_cases hw
    have hk := h.slot_unique hi ha rfl hv
    have hvic : victim.1 = a := h.pids _ hres.1 _ ha (hfair hd)
    obtain rfl : k = victim := hk.trans (Prod.ext hvic.symm rfl)
    exact .dirty hd hi
  · obtain rfl := Option.some.inj hw
    exact .clean (by simpa using hd)

theorem clearFrames_keeps {mm mm' : MemoryManager A} {fs : List ℤ}
    (h : clearFrames mm fs = some mm') :
    mm'.bitMem.numBits = mm.bitMem.numBits ∧
      ∀ j : ℕ, mm.bitMem.bit j = true → (j : ℤ) ∉ fs → mm'.bitMem.bit j = true := by
  induction fs generalizing mm with
  | nil =>
    obtain rfl := Option.some.inj h
    exact ⟨rfl, fun j hj _ => hj⟩
  | cons f fs ih =>
    obtain ⟨mm₁, hf, hrest⟩ := Option.bind_eq_some_iff.mp h
    obtain ⟨hbits, hkeep⟩ := ih hrest
    unfold MemoryManager.clearPage at hf
    split_ifs at hf with hout
    · obtain rfl := Option.some.inj hf
      exact ⟨hbits, fun j hj hm => hkeep j hj fun hmem => hm (List.mem_cons_of_mem _ hmem)⟩
    · obtain ⟨b, hb, rfl⟩ := Option.map_eq_some_iff.mp hf
      unfold BitMap.clear at hb
      split_ifs at hb with hin
      obtain rfl := Option.some.inj hb
      refine ⟨hbits, ?_⟩
      intro j hj hm
      have hne : f.toNat ≠ j := by
        intro he
        exact hm (by rw [← he, Int.toNat_of_nonneg hin.1]; exact List.mem_cons_self)
      exact hkeep j (by simp [hj, hne]) fun hmem => hm (List.mem_cons_of_mem _ hmem)

/-- Frames can be cleared when no page that stays is in one of them. -/
theorem Framed.clearFrames (h : Framed s) {fs : List ℤ}
    (hc : clearFrames s.memory fs = some t.memory)
    (hsub : ∀ k, t.Resident k → s.Resident k ∧ t.frame k = s.frame k)
    (hfs : ∀ k, t.Resident k → s.frame k ∉ fs) : Framed t := by
  obtain ⟨hbits, hkeep⟩ := clearFrames_keeps hc
  refine h.mono hbits hsub fun k hk hbit => hkeep _ hbit ?_
  rw [Int.toNat_of_nonneg (h.range k (hsub k hk).1).1]
  exact hfs k hk

variable [DecidableEq A]

/-- The state after the victim of a replacement lost its frame. -/
abbrev State.evicted (s : State A) (victim : A × ℤ) (swap : SwapManager (A × ℤ) Page) : State A :=
  { s with
    pageTable := Function.update s.pageTable victim { s.pageTable victim with valid := false }
    swap := swap }

theorem evicted_frame (s : State A) (victim : A × ℤ) (swap : SwapManager (A × ℤ) Page)
    (k : A × ℤ) : (s.evicted victim swap).frame k = s.frame k := by
  by_cases hk : k = victim
  · simp [State.frame, hk]
  · simp [State.frame, hk]

theorem evicted_resident {victim k : A × ℤ} {swap : SwapManager (A × ℤ) Page} :
    (s.evicted victim swap).Resident k ↔ k ≠ victim ∧ s.Resident k := by
  by_cases hk : k = victim
  · simp [State.Resident, hk]
  · simp [State.Resident, hk]

theorem evicted_dirty {victim k : A × ℤ} {swap : SwapManager (A × ℤ) Page} :
    ((s.evicted victim swap).pageTable k).dirty = (s.pageTable k).dirty := by
  by_cases hk : k = victim
  · simp [hk]
  · simp [hk]

/-- A resident page stops being valid after its contents went to its slot. -/
theorem Mapped.evict (h : Mapped s m) {victim : A × ℤ} {swap : SwapManager (A × ℤ) Page}
    (hres : s.Resident victim) (hsaved : Saved s victim swap) : Mapped (s.evicted victim swap) m where
  toFramed := h.toFramed.mono rfl
    (fun k hk => ⟨(evicted_resident.mp hk).2, evicted_frame s victim swap k⟩) fun _ _ hb => hb
  pids := h.pids
  swap := hsaved.wellFormed h.swap
  owner hi := h.owner (hsaved.slot.mp hi)
  stored {i q k} hi := by
    have hi' := hsaved.slot.mp hi
    obtain ⟨p, hp, hstored⟩ := h.stored hi'
    refine ⟨p, hp, ?_⟩
    intro hclean
    by_cases hk : k = victim
    · subst hk
      have hmem := h.resident k hres
      rw [hp] at hmem
      exact (h.saved_victim hsaved hres hi').trans (Option.some.inj hmem).symm
    · rw [evicted_resident, evicted_dirty] at hclean
      exact (hsaved.other hi' hk).trans (hstored fun hd => hclean ⟨⟨hk, hd.1⟩, hd.2⟩)
  known hk := by
    obtain ⟨i, q, hi⟩ := h.known hk
    exact ⟨i, q, hsaved.slot.mpr hi⟩
  resident k hk := by
    rw [evicted_frame]
    exact h.resident k (evicted_resident.mp hk).2

/-- The state after the page of `k` was read into frame `f`. -/
abbrev State.installed (s : State A) (k : A × ℤ) (f : ℤ) (p : Page) (memory : MemoryManager A)
    (lru : LRU (A × ℤ)) : State A :=
  { s with
    memory := memory
    mainMemory := Function.update s.mainMemory f p
    pageTable := Function.update s.pageTable k ⟨f, true, false⟩
    lru := lru }

theorem installed_resident {k k' : A × ℤ} {f : ℤ} {p : Page} {memory : MemoryManager A}
    {lru : LRU (A × ℤ)} (hk : k.1 ∈ s.live) :
    (s.installed k f p memory lru).Resident k' ↔ k' = k ∨ s.Resident k' := by
  by_cases hk' : k' = k
  · subst hk'
    simp [State.Resident, hk]
  · simp [State.Resident, hk']

theorem installed_frame_self {k : A × ℤ} {f : ℤ} {p : Page} {memory : MemoryManager A}
    {lru : LRU (A × ℤ)} : (s.installed k f p memory lru).frame k = f := by
  simp [State.frame]

theorem installed_frame_of_ne {k k' : A × ℤ} {f : ℤ} {p : Page} {memory : MemoryManager A}
    {lru : LRU (A × ℤ)} (hk : k' ≠ k) : (s.installed k f p memory lru).frame k' = s.frame k' := by
  simp [State.frame, hk]

/-- A page that is not resident is read from its slot into a frame that no
resident page has. -/
theorem Mapped.install (h : Mapped s m) {k : A × ℤ} {i : ℕ} {q f : ℤ}
    {memory : MemoryManager A} (lru : LRU (A × ℤ)) (hk : ¬s.Resident k) (hi : s.swap.Slot i q k)
    (hf : 0 ≤ f ∧ f < numPhysPages) (hfree : ∀ k', s.Resident k' → s.frame k' ≠ f)
    (hbits : memory.bitMem.numBits = s.memory.bitMem.numBits)
    (hmark : memory.bitMem.bit f.toNat = true)
    (hkeep : ∀ j, s.memory.bitMem.bit j = true → memory.bitMem.bit j = true) :
    Mapped (s.installed k f (s.swap.swap i) memory lru) m := by
  have hlive := (h.owner hi).1
  have hcases : ∀ k', (s.installed k f (s.swap.swap i) memory lru).Resident k' →
      (k' = k ∧ (s.installed k f (s.swap.swap i) memory lru).frame k' = f) ∨
      (k' ≠ k ∧ s.Resident k' ∧
        (s.installed k f (s.swap.swap i) memory lru).frame k' = s.frame k') := by
    intro k' hk'
    rcases (installed_resident hlive).mp hk' with rfl | hres
    · exact Or.inl ⟨rfl, installed_frame_self⟩
    · have hne : k' ≠ k := fun he => hk (he ▸ hres)
      exact Or.inr ⟨hne, hres, installed_frame_of_ne hne⟩
  refine ⟨⟨hbits.trans h.bits, ?_, ?_, ?_⟩, h.pids, h.swap, h.owner, ?_, h.known, ?_⟩
  · intro k' hk'
    rcases hcases k' hk' with ⟨-, hf'⟩ | ⟨-, hres, hf'⟩ <;> rw [hf']
    · exact hf
    · exact h.range k' hres
  · intro k' hk'
    rcases hcases k' hk' with ⟨-, hf'⟩ | ⟨-, hres, hf'⟩ <;> rw [hf']
    · exact hmark
    · exact hkeep _ (h.marked k' hres)
  · intro k₁ k₂ h₁ h₂ he
    rcases hcases k₁ h₁ with ⟨rfl, hf₁⟩ | ⟨-, hres₁, hf₁⟩ <;>
      rcases hcases k₂ h₂ with ⟨rfl, hf₂⟩ | ⟨-, hres₂, hf₂⟩ <;>
      have hf' := hf₁.symm.trans (he.trans hf₂)
    · rfl
    · exact absurd hf'.symm (hfree k₂ hres₂)
    · exact absurd hf' (hfree k₁ hres₁)
    · exact h.unshared k₁ k₂ hres₁ hres₂ hf'
  · intro j q' k' hj
    obtain ⟨p, hp, hstored⟩ := h.stored hj
    refine ⟨p, hp, fun hclean => hstored ?_⟩
    rintro ⟨hres, hdirty⟩
    have hne : k' ≠ k := fun he => hk (he ▸ hres)
    exact hclean ⟨(installed_resident hlive).mpr (Or.inr hres), by simpa [hne] using hdirty⟩
  · intro k' hk'
    rcases hcases k' hk' with ⟨rfl, hf'⟩ | ⟨-, hres, hf'⟩ <;> rw [hf']
    · obtain ⟨p, hp, hstored⟩ := h.stored hi
      rw [hp, ← hstored fun hd => hk hd.1]
      simp
    · rw [h.resident k' hres]
      simp [hfree k' hres]

/-- The new page is in front of a list of pages that are still resident. -/
theorem listed_installed {k : A × ℤ} {f : ℤ} {p : Page} {memory : MemoryManager A}
    {lru : LRU (A × ℤ)} {n : ℕ} (hlive : k.1 ∈ s.live) (hk : ¬s.Resident k)
    (hlisted : ∀ c ∈ cells, s.Resident c.payload.value ∧ c.payload.pid = s.pid c.payload.value.1)
    (honce : (cells.map fun c => c.payload.value).Nodup)
    (hrep : lru.Rep (⟨n, k, s.pid k.1⟩ :: cells))
    (htail : ∀ t, lru.tail = some t →
      ∃ c ∈ (⟨n, k, s.pid k.1⟩ :: cells : List (Cell (Entry (A × ℤ)))), c.addr = t) :
    Listed (s.installed k f p memory lru) (⟨n, k, s.pid k.1⟩ :: cells) where
  rep := hrep
  tail := htail
  listed c hc := by
    rcases List.mem_cons.mp hc with rfl | hc
    · exact ⟨(installed_resident hlive).mpr (Or.inl rfl), rfl⟩
    · exact ⟨(installed_resident hlive).mpr (Or.inr (hlisted c hc).1), (hlisted c hc).2⟩
  once := by
    refine List.nodup_cons.mpr ⟨?_, honce⟩
    intro hm
    obtain ⟨c, hc, rfl⟩ := List.mem_map.mp hm
    exact hk (hlisted c hc).1

/-- Both halves of the relation, with the nodes of the list left open. -/
def Paged (s : State A) (m : Flat A) : Prop := Mapped s m ∧ ∃ cells, Listed s cells

theorem Paged.swapFree (h : Paged s m) {a : A} {vpn : ℤ} (ha : a ∈ s.live)
    (hv : (s.pageTable (a, vpn)).valid = false) (hfree : s.memory.freePages.1 ≠ 0)
    (ht : s.swapFree a vpn = some t) : Paged t m := by
  obtain ⟨h, cells, hl⟩ := h
  obtain ⟨p, hp, ht⟩ := Option.bind_eq_some_iff.mp ht
  obtain ⟨lru, hlru, rfl⟩ := Option.map_eq_some_iff.mp ht
  obtain ⟨i, hi, rfl⟩ := h.found ha hp
  have hk : ¬s.Resident (a, vpn) := by simp [State.Resident, hv]
  obtain ⟨lru', hadd, hrep, htail⟩ := LRU.addPage_spec hl.rep (a, vpn) (s.pid a)
  obtain rfl := Option.some.inj (hlru.symm.trans hadd)
  rcases s.memory.bitMem.find_cases with ⟨f, hf, hbit, -, hfind⟩ | ⟨hall, -⟩
  · simp only [MemoryManager.getPage, hfind]
    have hrange : 0 ≤ (f : ℤ) ∧ (f : ℤ) < numPhysPages := by
      rw [h.bits] at hf
      omega
    refine ⟨h.install lru hk hi hrange ?_ rfl (by simp) ?_, _,
      listed_installed ha hk hl.listed hl.once hrep ?_⟩
    · intro k' hres he
      have hm := h.marked k' hres
      rw [he, Int.toNat_natCast, hbit] at hm
      cases hm
    · intro j hj
      simp [hj]
    · intro t ht
      rw [htail] at ht
      split_ifs at ht with hnil
      · exact ⟨_, List.mem_cons_self, Option.some.inj ht⟩
      · obtain ⟨c, hc, hct⟩ := hl.tail t ht
        exact ⟨c, List.mem_cons_of_mem _ hc, hct⟩
  · exact absurd ((BitMap.numClear_eq_zero_iff _).mpr hall) hfree

theorem Paged.swapVictim (h : Paged s m) {a : A} {vpn : ℤ} (ha : a ∈ s.live)
    (hv : (s.pageTable (a, vpn)).valid = false)
    (hfair : ∀ victim, s.lru.getLRU = some victim → (s.pageTable victim).dirty = true →
      s.lru.tailPid = some (s.pid a)) (ht : s.swapVictim a vpn = some t) :
    Paged t m ∧ ∃ victim, s.lru.getLRU = some victim ∧ s.Resident victim ∧
      Saved s victim t.swap := by
  obtain ⟨h, cells, hl⟩ := h
  obtain ⟨victim, hvic, ht⟩ := Option.bind_eq_some_iff.mp ht
  obtain ⟨swap, hw, ht⟩ := Option.bind_eq_some_iff.mp ht
  obtain ⟨p, hp, ht⟩ := Option.bind_eq_some_iff.mp ht
  obtain ⟨lru₁, hlru₁, ht⟩ := Option.bind_eq_some_iff.mp ht
  obtain ⟨lru₂, hlru₂, rfl⟩ := Option.map_eq_some_iff.mp ht
  obtain ⟨l, c, r, rfl, htail, rfl, hpid⟩ := hl.getLRU hvic
  have hc := hl.listed c (by simp)
  have hsaved := h.writeBack hc.1 ha
    (fun hd => Option.some.inj (hpid.symm.trans (hfair _ hvic hd))) hw
  have he := h.evict hc.1 hsaved
  obtain ⟨i, hi, rfl⟩ := he.found ha hp
  have hk : ¬s.Resident (a, vpn) := by simp [State.Resident, hv]
  have hk' : ¬(s.evicted c.payload.value swap).Resident (a, vpn) :=
    fun hr => hk (evicted_resident.mp hr).2
  obtain ⟨lru', hadd, hrep, htail'⟩ := LRU.addPage_spec hl.rep (a, vpn) (s.pid a)
  obtain rfl := Option.some.inj (hlru₁.symm.trans hadd)
  rw [if_neg (by simp), htail] at htail'
  obtain ⟨l', d, hl'⟩ := (List.eq_nil_or_concat' (⟨s.lru.fresh, (a, vpn), s.pid a⟩ :: l)).resolve_left
    (by simp)
  have happ : ⟨s.lru.fresh, (a, vpn), s.pid a⟩ :: (l ++ c :: r) = l' ++ d :: c :: r := by
    rw [← List.cons_append, hl', List.append_assoc]
    rfl
  rw [happ] at hrep
  obtain ⟨lru', hremove, hrep', htail₂⟩ := LRU.removeLRUPage_spec hrep htail'
  obtain rfl := Option.some.inj (hlru₂.symm.trans hremove)
  rw [← hl'] at hrep'
  refine ⟨⟨?_, _, listed_installed (s := s.evicted c.payload.value swap) ha hk' ?_ ?_ hrep' ?_⟩,
    _, hvic, hc.1, hsaved⟩
  · refine he.install lru₂ hk' hi (h.range _ hc.1) ?_ rfl (h.marked _ hc.1) (fun _ hj => hj)
    intro k' hres' hf
    obtain ⟨hne, hres⟩ := evicted_resident.mp hres'
    rw [evicted_frame] at hf
    exact hne (h.unshared _ _ hres hc.1 hf)
  · intro b hb
    obtain ⟨hres, hpid'⟩ := hl.listed b (List.mem_append_left _ hb)
    refine ⟨evicted_resident.mpr ⟨?_, hres⟩, hpid'⟩
    intro heq
    have honce := hl.once
    simp only [List.map_append, List.map_cons, List.nodup_append] at honce
    exact honce.2.2 _ (List.mem_map_of_mem hb) _ List.mem_cons_self heq
  · have honce := hl.once
    rw [List.map_append] at honce
    exact (List.nodup_append.mp honce).1
  · intro t ht
    have hd : d ∈ ⟨s.lru.fresh, (a, vpn), s.pid a⟩ :: l := by
      rw [hl']
      simp
    exact ⟨d, hd, Option.some.inj (htail₂.symm.trans ht)⟩

theorem Paged.deleteSpace (h : Paged s m) {a : A} (hfair : Fair s (.deleteSpace a))
    (ht : step s (.deleteSpace a) = some t) : Paged t m := by
  obtain ⟨h, cells, hl⟩ := h
  simp only [step] at ht
  split_ifs at ht with ha
  obtain ⟨mm, hc, rfl⟩ := Option.map_eq_some_iff.mp ht
  refine ⟨⟨h.clearFrames (t := { s with memory := mm, exiting := s.exiting.filter (· ≠ a) }) hc
    (fun k hk => ⟨hk, rfl⟩) ?_, h.pids, h.swap, h.owner, h.stored, h.known, h.resident⟩,
    cells, hl.rep, hl.tail, hl.listed, hl.once⟩
  exact fun k hk hf => hfair _ hf k hk rfl

/-- The state after a user write to the resident page `k`. -/
abbrev State.written (s : State A) (k : A × ℤ) (offset : Fin pageSize) (byte : UInt8) : State A :=
  { s with
    mainMemory := Function.update s.mainMemory (s.frame k)
      (Function.update (s.mainMemory (s.frame k)) offset byte)
    pageTable := Function.update s.pageTable k { s.pageTable k with dirty := true } }

theorem written_frame (s : State A) (k : A × ℤ) (offset : Fin pageSize) (byte : UInt8)
    (k' : A × ℤ) : (s.written k offset byte).frame k' = s.frame k' := by
  by_cases hk : k' = k <;> simp [State.frame, hk]

theorem written_resident {k k' : A × ℤ} {offset : Fin pageSize} {byte : UInt8} :
    (s.written k offset byte).Resident k' ↔ s.Resident k' := by
  by_cases hk : k' = k <;> simp [State.Resident, hk]

theorem Mapped.write (h : Mapped s m) {k : A × ℤ} (hres : s.Resident k) (offset : Fin pageSize)
    (byte : UInt8) :
    Mapped (s.written k offset byte) (Function.update m k
      (some (Function.update (s.mainMemory (s.frame k)) offset byte))) where
  toFramed := h.toFramed.mono rfl
    (fun k' hk' => ⟨written_resident.mp hk', written_frame s k offset byte k'⟩) fun _ _ hb => hb
  pids := h.pids
  swap := h.swap
  owner := h.owner
  stored {i q k'} hi := by
    by_cases hk : k' = k
    · subst hk
      refine ⟨_, Function.update_self .., fun hclean => absurd ⟨?_, ?_⟩ hclean⟩
      · exact written_resident.mpr hres
      · simp
    · obtain ⟨p, hp, hstored⟩ := h.stored hi
      refine ⟨p, by simpa [hk] using hp, fun hclean => hstored fun hd => hclean ?_⟩
      exact ⟨written_resident.mpr hd.1, by simpa [hk] using hd.2⟩
  known {k' p} hp := by
    by_cases hk : k' = k
    · subst hk
      exact h.known (h.resident k' hres)
    · exact h.known (by simpa [hk] using hp)
  resident k' hk' := by
    rw [written_frame]
    have hres' := written_resident.mp hk'
    by_cases hk : k' = k
    · simp [hk]
    · have hf : s.frame k' ≠ s.frame k := fun hf => hk (h.unshared _ _ hres' hres hf)
      simp [hk, hf, h.resident k' hres']

theorem Paged.write (h : Paged s m) {a : A} {vpn : ℤ} {offset : Fin pageSize} {byte : UInt8}
    (ht : step s (.write a vpn offset byte) = some t) :
    ∃ m', FlatStep m (.write a vpn offset byte) m' ∧ Paged t m' := by
  obtain ⟨h, cells, hl⟩ := h
  simp only [step] at ht
  split_ifs at ht with hres
  obtain rfl := Option.some.inj ht
  have hres' : s.Resident (a, vpn) := hres
  refine ⟨_, .write m a vpn offset byte _ (h.resident _ hres'), h.write hres' offset byte, cells,
    hl.rep, hl.tail, ?_, hl.once⟩
  intro c hc
  exact ⟨written_resident.mpr (hl.listed c hc).1, (hl.listed c hc).2⟩

/-- Only the slot of a page that is not resident is written. -/
theorem Mapped.setSlot (h : Mapped s m) {i : ℕ} {q : ℤ} {k : A × ℤ} (hi : s.swap.Slot i q k)
    (hk : ¬s.Resident k) (p : Page) :
    Mapped { s with swap := s.swap.setSlot i p } (Function.update m k (some p)) where
  toFramed := h.toFramed.mono rfl (fun _ hk => ⟨hk, rfl⟩) fun _ _ hb => hb
  pids := h.pids
  swap := h.swap.setSlot i p
  owner hj := h.owner (SwapManager.slot_setSlot.mp hj)
  stored {j q' k'} hj := by
    have hj' := SwapManager.slot_setSlot.mp hj
    by_cases hkk : k' = k
    · subst hkk
      have hq := (h.owner hi).2.trans (h.owner hj').2.symm
      obtain rfl := h.swap.unique hi (hq ▸ hj') rfl
      exact ⟨p, Function.update_self .., fun _ => Function.update_self ..⟩
    · obtain ⟨p', hp', hstored⟩ := h.stored hj'
      have hne : j ≠ i := by
        rintro rfl
        exact hkk (Option.some.inj (hj'.entry.symm.trans hi.entry))
      exact ⟨p', by simpa [hkk] using hp', fun hclean =>
        (Function.update_of_ne hne _ _).trans (hstored hclean)⟩
  known {k' p'} hp' := by
    by_cases hkk : k' = k
    · exact ⟨i, q, SwapManager.slot_setSlot.mpr (hkk ▸ hi)⟩
    · obtain ⟨j, q', hj⟩ := h.known (k := k') (by simpa [hkk] using hp')
      exact ⟨j, q', SwapManager.slot_setSlot.mpr hj⟩
  resident k' hk' := by
    have hne : k' ≠ k := fun he => hk (he ▸ hk')
    simpa [hne] using h.resident k' hk'

/-- A page without a slot gets one, with the contents that the slot has. -/
theorem Mapped.insert (h : Mapped s m) {i : ℕ} {a : A} {vpn : ℤ} (ha : a ∈ s.live)
    (hk : ¬s.Resident (a, vpn)) (hi : i < SwapManager.swapSize)
    (hbit : s.swap.bitmap.bit i = false)
    (hnew : ∀ j e, s.swap.Slot j (s.pid a) e → e.2 ≠ vpn) :
    Mapped { s with swap := ⟨s.swap.bitmap.setBit i, Function.update s.swap.pids i (s.pid a),
        Function.update s.swap.entries i (some (a, vpn)), s.swap.swap⟩ }
      (Function.update m (a, vpn) (some (s.swap.swap i))) where
  toFramed := h.toFramed.mono rfl (fun _ hk => ⟨hk, rfl⟩) fun _ _ hb => hb
  pids := h.pids
  swap := h.swap.insert hi hnew
  owner hj := by
    rcases (SwapManager.slot_insert hi).mp hj with ⟨-, rfl, rfl⟩ | ⟨-, hj'⟩
    · exact ⟨ha, rfl⟩
    · exact h.owner hj'
  stored {j q k} hj := by
    rcases (SwapManager.slot_insert hi).mp hj with ⟨rfl, rfl, rfl⟩ | ⟨-, hj'⟩
    · exact ⟨_, Function.update_self .., fun _ => rfl⟩
    · have hne : k ≠ (a, vpn) := by
        rintro rfl
        have hq := (h.owner hj').2
        exact hnew j _ (hq ▸ hj') rfl
      obtain ⟨p, hp, hstored⟩ := h.stored hj'
      exact ⟨p, by simpa [hne] using hp, hstored⟩
  known {k p} hp := by
    by_cases hne : k = (a, vpn)
    · exact ⟨i, s.pid a, (SwapManager.slot_insert hi).mpr (Or.inl ⟨rfl, rfl, hne⟩)⟩
    · obtain ⟨j, q, hj⟩ := h.known (k := k) (by simpa [hne] using hp)
      refine ⟨j, q, (SwapManager.slot_insert hi).mpr (Or.inr ⟨?_, hj⟩)⟩
      rintro rfl
      exact Bool.false_ne_true (hbit.symm.trans hj.bit)
  resident k hk' := by
    have hne : k ≠ (a, vpn) := fun he => hk (he ▸ hk')
    simpa [hne] using h.resident k hk'

theorem Paged.addPage (h : Paged s m) {a : A} {vpn : ℤ} {buffer : Option Page}
    (ht : step s (.addPage a vpn buffer) = some t) :
    ∃ m', FlatStep m (.addPage a vpn buffer) m' ∧ Paged t m' := by
  obtain ⟨h, cells, hl⟩ := h
  simp only [step] at ht
  split_ifs at ht with ha
  obtain ⟨ha, -, hv⟩ := ha
  have hk : ¬s.Resident (a, vpn) := by simp [State.Resident, hv]
  obtain ⟨swap, hadd, rfl⟩ := Option.map_eq_some_iff.mp ht
  have hlist : Listed { s with swap := swap } cells := ⟨hl.rep, hl.tail, hl.listed, hl.once⟩
  cases buffer with
  | some p =>
    refine ⟨_, .load m a vpn p, ?_, cells, hlist⟩
    rcases h.swap.addPageWith_cases hadd with ⟨i, e, hi, hv', rfl⟩ | ⟨i, hi, hbit, hnew, rfl⟩
    · obtain rfl := h.slot_unique hi ha rfl hv'
      exact h.setSlot hi hk p
    · have hins := h.insert ha hk hi hbit hnew
      have hset := hins.setSlot (SwapManager.slot_insert_self s.swap (s.pid a) (a, vpn) hi) hk p
      rwa [Function.update_idem] at hset
  | none =>
    rcases h.swap.addPageWith_cases hadd with ⟨i, e, hi, hv', rfl⟩ | ⟨i, hi, hbit, hnew, rfl⟩
    · obtain rfl := h.slot_unique hi ha rfl hv'
      obtain ⟨p, hp, -⟩ := h.stored hi
      exact ⟨m, .keep m a vpn p hp, h, cells, hlist⟩
    · refine ⟨_, .reserve m a vpn _ ?_, h.insert ha hk hi hbit hnew, cells, hlist⟩
      cases hm : m (a, vpn) with
      | none => rfl
      | some p =>
        obtain ⟨j, q, hj⟩ := h.known hm
        have hq := (h.owner hj).2
        exact absurd rfl (hnew j _ (hq ▸ hj))

/-- The state after a new space was built. -/
abbrev State.created (s : State A) (a : A) (pid : ℤ) (n : ℕ) (dirty : ℤ → Bool) : State A :=
  { s with
    pageTable := fun k => if k.1 = a then ⟨-1, false, dirty k.2⟩ else s.pageTable k
    live := a :: s.live
    pid := Function.update s.pid a pid
    numPages := Function.update s.numPages a n }

theorem created_resident {a : A} {pid : ℤ} {n : ℕ} {dirty : ℤ → Bool} (ha : a ∉ s.live)
    {k : A × ℤ} : (s.created a pid n dirty).Resident k ↔ s.Resident k := by
  by_cases hk : k.1 = a
  · simp [State.Resident, hk, ha]
  · simp [State.Resident, hk]

/-- Entries of live spaces are not touched. -/
theorem created_entry {a : A} {pid : ℤ} {n : ℕ} {dirty : ℤ → Bool} (ha : a ∉ s.live)
    {k : A × ℤ} (hk : k.1 ∈ s.live) :
    (s.created a pid n dirty).pageTable k = s.pageTable k ∧
      (s.created a pid n dirty).pid k.1 = s.pid k.1 := by
  have hne : k.1 ≠ a := fun he => ha (he ▸ hk)
  simp [hne]

theorem Mapped.create (h : Mapped s m) {a : A} {pid : ℤ} {n : ℕ} {dirty : ℤ → Bool}
    (ha : a ∉ s.live) (hpid : ∀ b ∈ s.live, s.pid b ≠ pid) :
    Mapped (s.created a pid n dirty) m := by
  have hframe : ∀ k, s.Resident k → (s.created a pid n dirty).frame k = s.frame k :=
    fun k hk => by rw [State.frame, (created_entry ha hk.1).1]
  refine ⟨h.toFramed.mono rfl (fun k hk => ?_) fun _ _ hb => hb, ?_, h.swap, ?_, ?_, h.known, ?_⟩
  · have hk := (created_resident ha).mp hk
    exact ⟨hk, hframe k hk⟩
  · have hold : ∀ b ∈ s.live, Function.update s.pid a pid b = s.pid b := by
      intro b hb
      have hne : b ≠ a := fun he => ha (he ▸ hb)
      exact Function.update_of_ne hne _ _
    have hnew : Function.update s.pid a pid a = pid := Function.update_self ..
    intro b hb c hc heq
    rcases List.mem_cons.mp hb with rfl | hb' <;> rcases List.mem_cons.mp hc with rfl | hc'
    · rfl
    · exact absurd ((hold c hc').symm.trans (heq.symm.trans hnew)) (hpid c hc')
    · exact absurd ((hold b hb').symm.trans (heq.trans hnew)) (hpid b hb')
    · exact h.pids b hb' c hc' ((hold b hb').symm.trans (heq.trans (hold c hc')))
  · intro i q k hi
    obtain ⟨hk, hq⟩ := h.owner hi
    exact ⟨List.mem_cons_of_mem _ hk, hq.trans (created_entry (k := k) ha hk).2.symm⟩
  · intro i q k hi
    obtain ⟨p, hp, hstored⟩ := h.stored hi
    refine ⟨p, hp, fun hclean => hstored fun hd => hclean ?_⟩
    rw [created_resident ha, (created_entry ha hd.1.1).1]
    exact hd
  · intro k hk
    have hk := (created_resident ha).mp hk
    rw [hframe k hk]
    exact h.resident k hk

theorem Paged.create (h : Paged s m) {a : A} {pid : ℤ} {n : ℕ} {dirty : ℤ → Bool}
    (ht : step s (.create a pid n dirty) = some t) : Paged t m := by
  obtain ⟨h, cells, hl⟩ := h
  simp only [step] at ht
  split_ifs at ht with ha
  obtain rfl := Option.some.inj ht
  refine ⟨h.create ha.1 ha.2.2, cells, hl.rep, hl.tail, ?_, hl.once⟩
  intro c hc
  obtain ⟨hres, hpid⟩ := hl.listed c hc
  exact ⟨(created_resident ha.1).mpr hres, hpid.trans (created_entry ha.1 hres.1).2.symm⟩

/-- The state after `RemovePages`. -/
abbrev State.removed (s : State A) (a : A) (memory : MemoryManager A) (lru : LRU (A × ℤ)) :
    State A :=
  { s with
    memory := memory
    lru := lru
    swap := s.swap.removePages (s.pid a)
    live := s.live.filter (· ≠ a)
    exiting := a :: s.exiting }

theorem removed_resident {a : A} {memory : MemoryManager A} {lru : LRU (A × ℤ)} {k : A × ℤ} :
    (s.removed a memory lru).Resident k ↔ k.1 ≠ a ∧ s.Resident k := by
  simp only [State.Resident, List.mem_filter, decide_eq_true_eq]
  tauto

theorem Mapped.removePages (h : Mapped s m) {a : A} {memory : MemoryManager A} {fs : List ℤ}
    (lru : LRU (A × ℤ)) (ha : a ∈ s.live) (hfs : ∀ f ∈ fs, ∃ v, s.Resident (a, v) ∧ s.frame (a, v) = f)
    (hc : DemandPaging.clearFrames s.memory fs = some memory) :
    Mapped (s.removed a memory lru) fun k => if k.1 = a then none else m k := by
  have hpid : ∀ b ∈ s.live, s.pid b ≠ s.pid a ↔ b ≠ a := fun b hb =>
    not_congr ⟨h.pids b hb a ha, fun he => he ▸ rfl⟩
  have hslot : ∀ {i q k}, (s.swap.removePages (s.pid a)).Slot i q k →
      s.swap.Slot i q k ∧ k.1 ≠ a := by
    intro i q k hi
    obtain ⟨hi, hq⟩ := SwapManager.slot_removePages.mp hi
    obtain ⟨hk, rfl⟩ := h.owner hi
    exact ⟨hi, (hpid _ hk).mp hq⟩
  refine ⟨h.clearFrames (t := s.removed a memory lru) hc
    (fun k hk => ⟨(removed_resident.mp hk).2, rfl⟩) ?_, ?_, h.swap.removePages (s.pid a), ?_, ?_, ?_, ?_⟩
  · intro k hk hm
    obtain ⟨hne, hk⟩ := removed_resident.mp hk
    obtain ⟨v, hv, hf⟩ := hfs _ hm
    exact hne (congrArg Prod.fst (h.unshared _ _ hv hk hf)).symm
  · intro b hb c hc heq
    exact h.pids b (List.mem_filter.mp hb).1 c (List.mem_filter.mp hc).1 heq
  · intro i q k hi
    obtain ⟨hi, hne⟩ := hslot hi
    obtain ⟨hk, hq⟩ := h.owner hi
    exact ⟨List.mem_filter.mpr ⟨hk, by simpa using hne⟩, hq⟩
  · intro i q k hi
    obtain ⟨hi, hne⟩ := hslot hi
    obtain ⟨p, hp, hstored⟩ := h.stored hi
    refine ⟨p, by simpa [hne] using hp, fun hclean => ?_⟩
    rw [(s.swap.removePages_frame _).2.1]
    exact hstored fun hd => hclean ⟨removed_resident.mpr ⟨hne, hd.1⟩, hd.2⟩
  · intro k p hp
    split_ifs at hp with hne
    obtain ⟨i, q, hi⟩ := h.known hp
    obtain ⟨hk, rfl⟩ := h.owner hi
    exact ⟨i, _, SwapManager.slot_removePages.mpr ⟨hi, (hpid _ hk).mpr hne⟩⟩
  · intro k hk
    obtain ⟨hne, hk⟩ := removed_resident.mp hk
    rw [if_neg hne]
    exact h.resident k hk

theorem Paged.removePages (h : Paged s m) {a : A} (ht : step s (.removePages a) = some t) :
    Paged t fun k => if k.1 = a then none else m k := by
  obtain ⟨h, cells, hl⟩ := h
  simp only [step] at ht
  split_ifs at ht with ha
  obtain ⟨r, hr, ht⟩ := Option.bind_eq_some_iff.mp ht
  obtain ⟨mm, hc, rfl⟩ := Option.map_eq_some_iff.mp ht
  obtain ⟨lru, hremove, hrep, htail⟩ := LRU.removePage_spec hl.rep (s.pid a)
  obtain rfl := Option.some.inj (hr.symm.trans hremove)
  refine ⟨h.removePages lru ha ?_ hc, LRU.kept (s.pid a) cells, hrep, ?_, ?_, ?_⟩
  · intro f hf
    obtain ⟨k, hk, rfl⟩ := List.mem_map.mp hf
    obtain ⟨c, hcm, hpid, rfl⟩ := LRU.mem_dropped.mp hk
    obtain ⟨hres, hp⟩ := hl.listed c hcm
    have hfst : c.payload.value.1 = a := h.pids _ hres.1 _ ha (hp.symm.trans hpid)
    exact ⟨c.payload.value.2, by rw [← hfst]; exact hres, by rw [← hfst]⟩
  · intro x hx
    rw [htail] at hx
    rcases LRU.tailAfter_cases (s.pid a) s.lru.tail cells with ⟨hsame, hkept⟩ | hnone | ⟨c, hcm, hct⟩
    · rw [hkept]
      exact hl.tail x (hsame.symm.trans hx)
    · rw [hnone] at hx
      cases hx
    · exact ⟨c, hcm, Option.some.inj (hct.symm.trans hx)⟩
  · intro c hcm
    obtain ⟨hcm, hne⟩ := LRU.mem_kept.mp hcm
    obtain ⟨hres, hp⟩ := hl.listed c hcm
    refine ⟨removed_resident.mpr ⟨?_, hres⟩, hp⟩
    intro he
    exact hne (by rw [hp, he])
  · exact hl.once.sublist (List.filter_sublist.map _)

/-- A fair step is a step of the private memories. -/
theorem Paged.step (h : Paged s m) {l : Label A} (hfair : Fair s l) (ht : Step s l t) :
    ∃ m', FlatStep m l m' ∧ Paged t m' := by
  cases l with
  | create a pid n dirty => exact ⟨m, .create .., h.create ht⟩
  | addPage a vpn buffer => exact h.addPage ht
  | fault a vpn =>
    refine ⟨m, .fault .., ?_⟩
    simp only [Step, DemandPaging.step, State.swapIn] at ht
    split_ifs at ht with ha hfree
    · exact h.swapFree ha.1 ha.2 hfree ht
    · exact (h.swapVictim ha.1 ha.2 (hfair (not_not.mp hfree)) ht).1
  | write a vpn offset byte => exact h.write ht
  | removePages a => exact ⟨_, .removePages .., h.removePages ht⟩
  | deleteSpace a => exact ⟨m, .deleteSpace .., h.deleteSpace hfair ht⟩

omit [DecidableEq A] in
theorem initial_paged (frames slots : ℕ → Word) (mainMemory : ℤ → Page) (pids : ℕ → ℤ)
    (entries : ℕ → Option (A × ℤ)) (swap : ℕ → Page) :
    Paged (initial frames slots mainMemory pids entries swap) fun _ => none := by
  have hswap := SwapManager.create_wellFormed Prod.snd slots pids entries swap
  have hslot : ∀ {i q k}, ¬(SwapManager.create slots pids entries swap).Slot i q k := by
    intro i q k hi
    have hbit := hi.bit
    rw [SwapManager.create, BitMap.bit_create slots hi.lt] at hbit
    cases hbit
  refine ⟨⟨⟨BitMap.create_numBits .., ?_, ?_, ?_⟩, ?_, hswap, ?_, ?_, ?_, ?_⟩, [], LRU.create_rep, ?_,
    ?_, List.nodup_nil⟩
  · exact fun k hk => absurd hk.1 List.not_mem_nil
  · exact fun k hk => absurd hk.1 List.not_mem_nil
  · exact fun k _ hk => absurd hk.1 List.not_mem_nil
  · exact fun a ha => absurd ha List.not_mem_nil
  · exact fun hi => absurd hi hslot
  · exact fun hi => absurd hi hslot
  · intro k p hp
    cases hp
  · exact fun k hk => absurd hk.1 List.not_mem_nil
  · intro t ht
    cases ht
  · exact fun c hc => absurd hc List.not_mem_nil

/-- A fault of a fair step takes the frame of `k`, which is dirty. -/
def State.Evicts (s : State A) (k : A × ℤ) : Prop :=
  s.memory.freePages.1 = 0 ∧ s.lru.getLRU = some k ∧ (s.pageTable k).dirty = true

/-- The contents of the swap slots after a fault. -/
structure SlotsKept (s t : State A) : Prop where
  owner : ∀ i q k, s.swap.Slot i q k → q = s.pid k.1 ∧ t.swap.Slot i q k
  evicted : ∀ i q k, s.swap.Slot i q k → s.Evicts k →
    t.swap.swap i = s.mainMemory (s.frame k)
  others : ∀ i q k, s.swap.Slot i q k → ¬s.Evicts k → t.swap.swap i = s.swap.swap i

theorem Paged.slotsKept (h : Paged s m) {a : A} {vpn : ℤ} (hfair : Fair s (.fault a vpn))
    (ht : Step s (.fault a vpn) t) : SlotsKept s t := by
  simp only [Step, DemandPaging.step, State.swapIn] at ht
  split_ifs at ht with ha hfree
  · obtain ⟨p, -, ht⟩ := Option.bind_eq_some_iff.mp ht
    obtain ⟨lru, -, rfl⟩ := Option.map_eq_some_iff.mp ht
    exact ⟨fun i q k hi => ⟨(h.1.owner hi).2, hi⟩, fun i q k _ he => absurd he.1 hfree,
      fun i q k _ _ => rfl⟩
  · obtain ⟨-, victim, hvic, hres, hsaved⟩ := h.swapVictim ha.1 ha.2 (hfair (not_not.mp hfree)) ht
    refine ⟨fun i q k hi => ⟨(h.1.owner hi).2, hsaved.slot.mpr hi⟩, ?_, ?_⟩
    · intro i q k hi he
      obtain rfl := Option.some.inj (hvic.symm.trans he.2.1)
      exact h.1.saved_victim hsaved hres hi
    · intro i q k hi hne
      by_cases hk : k = victim
      · subst hk
        rw [hsaved.eq_of_clean fun hd => hne ⟨not_not.mp hfree, hvic, hd⟩]
      · exact hsaved.other hi hk

/-- A machine whose storage is all zero, with no process. -/
def zeroed : State Bool :=
  initial (fun _ => 0) (fun _ => 0) (fun _ _ => 0) (fun _ => -1) (fun _ => none) fun _ _ => 0

/-- Process 0 registers 65 pages, brings in 64 of them, which fills the memory,
and writes to the first. -/
def fill : List (Label Bool) :=
  .create false 0 65 (fun _ => false) ::
    ((List.range 65).map fun v => .addPage false v (some fun _ => 0)) ++
    ((List.range 64).map fun v => .fault false v) ++ [.write false 0 0 7]

/-- It brings in its last page, in the frame of the first, and then the first again. -/
def refault : List (Label Bool) := [.fault false 64, .fault false 0]

/-- Process 1 registers a page of zeros and brings it in. -/
def intrude : List (Label Bool) :=
  [.create true 1 1 (fun _ => false), .addPage true 0 (some fun _ => 0), .fault true 0]

/-- The guard, for the labels of the two runs. -/
def fairTest (s : State Bool) : Label Bool → Bool
  | .fault a _ => s.memory.freePages.1 != 0 || s.lru.getLRU.all fun victim =>
      !(s.pageTable victim).dirty || s.lru.tailPid == some (s.pid a)
  | .deleteSpace _ => false
  | _ => true

theorem fair_of_fairTest (s : State Bool) (l : Label Bool) (h : fairTest s l = true) :
    Fair s l := by
  cases l with
  | fault a vpn =>
    intro hfull victim hvic hd
    simpa [fairTest, hfull, hvic, hd] using h
  | deleteSpace a => cases h
  | _ => trivial

set_option maxRecDepth 10000 in
/-- Both continuations of the run that fills the memory. -/
theorem fill_runs : (exec step fairTest zeroed fill).any (fun s =>
    (exec step fairTest s refault).any (fun t => t.read false 0 0 == some 7) &&
    (exec step (fun _ _ => true) s intrude).any fun t => t.read true 0 0 == some 7) = true := by
  decide +kernel

theorem fill_run : ∃ s, Run Step Fair zeroed fill s ∧
    (∃ t, Run Step Fair s refault t ∧ t.read false 0 0 = some 7) ∧
    ∃ t, Run Step Free s intrude t ∧ t.read true 0 0 = some 7 := by
  obtain ⟨s, hs, hboth⟩ := (Option.any_eq_true _ _).mp fill_runs
  obtain ⟨h₁, h₂⟩ := (Bool.and_eq_true _ _).mp hboth
  obtain ⟨t₁, ht₁, hr₁⟩ := (Option.any_eq_true _ _).mp h₁
  obtain ⟨t₂, ht₂, hr₂⟩ := (Option.any_eq_true _ _).mp h₂
  exact ⟨s, run_of_exec fair_of_fairTest hs,
    ⟨t₁, run_of_exec fair_of_fairTest ht₁, eq_of_beq hr₁⟩,
    t₂, run_of_exec (fun _ _ _ => trivial) ht₂, eq_of_beq hr₂⟩

end Nachos.DemandPaging
