import Nachos.GuardedRuns
import Nachos.SwapManager

/-!
# The swap manager as a finite map

A key is a process id and a page number; under it are the entry that was
registered first and the page that was stored last. `writePage` follows the
pointer of a slot before it looks at the bit of the slot. This is harmless: a slot
is always the first free one, so a free slot in front of one in use has been used
and given back, and then its id is -1.
-/
namespace Nachos.SwapManager
open GuardedRuns

variable {E P : Type}

abbrev PageMap (E P : Type) := ℤ × ℤ → Option (E × P)

inductive Call (E P : Type) where
  | addPage (page : E) (pid : ℤ) (buffer : P)
  | writePage (pid vpn : ℤ) (buffer : P)
  | findPage (pid vpn : ℤ)
  | removePages (pid : ℤ)

section calls
variable (virtualPage : E → ℤ)

def step (sm : SwapManager E P) : Call E P → Option (SwapManager E P)
  | .addPage page pid buffer => sm.addPage virtualPage page pid buffer
  | .writePage pid vpn buffer => sm.writePage virtualPage pid vpn buffer
  | .findPage pid vpn => (sm.findPage virtualPage pid vpn).map fun _ => sm
  | .removePages pid => some (sm.removePages pid)

/-- The effect of a call on the map. -/
def PageMap.apply (m : PageMap E P) : Call E P → PageMap E P
  | .addPage page pid buffer => Function.update m (pid, virtualPage page)
      (some (((m (pid, virtualPage page)).map Prod.fst).getD page, buffer))
  | .writePage pid vpn buffer => Function.update m (pid, vpn)
      ((m (pid, vpn)).map fun v => (v.1, buffer))
  | .findPage _ _ => m
  | .removePages pid => fun k => if k.1 = pid then none else m k

def PageMap.keys (m : PageMap E P) : Set (ℤ × ℤ) := fun k => (m k).isSome

/-- A page that is written is there, and a new one has a slot left. -/
def PageMap.Admits (m : PageMap E P) : Call E P → Prop
  | .addPage page pid _ => 0 ≤ pid ∧
      ((pid, virtualPage page) ∈ m.keys ∨ m.keys.encard < swapSize)
  | .writePage pid vpn _ => 0 ≤ pid ∧ (pid, vpn) ∈ m.keys
  | .findPage pid _ => 0 ≤ pid
  | .removePages pid => 0 ≤ pid

end calls

/-- A free slot in front of one in use was given back. -/
def GivenBack (sm : SwapManager E P) : Prop :=
  ∀ i j, i < j → j < swapSize → sm.bitmap.bit j = true → sm.bitmap.bit i = true ∨ sm.pids i = -1

/-- The slots in use hold the map. -/
structure Represents (virtualPage : E → ℤ) (sm : SwapManager E P) (m : PageMap E P) : Prop where
  wellFormed : sm.WellFormed virtualPage
  slot : ∀ {i pid e}, sm.Slot i pid e → m (pid, virtualPage e) = some (e, sm.swap i)
  key : ∀ {pid vpn v}, m (pid, vpn) = some v → ∃ i e, sm.Slot i pid e ∧ virtualPage e = vpn
  givenBack : sm.GivenBack

variable {virtualPage : E → ℤ} {sm sm' : SwapManager E P} {m : PageMap E P} {pid vpn : ℤ}

theorem GivenBack.removeSlot (h : sm.GivenBack) (pid : ℤ) (k : ℕ) :
    (removeSlot pid sm k).GivenBack := by
  unfold SwapManager.removeSlot
  split_ifs with hpid hbit
  · intro i j hij hj hb
    by_cases hik : i = k
    · exact Or.inr (by rw [hik]; exact Function.update_self _ _ _)
    · have hold : sm.bitmap.bit j = true := by
        rw [BitMap.bit_resetBit, Bool.and_eq_true] at hb
        exact hb.2
      refine (h i j hij hj hold).imp (fun hi => ?_) fun hi => ?_
      · rw [BitMap.bit_resetBit, decide_eq_false (Ne.symm hik), hi]
        rfl
      · exact (Function.update_of_ne hik _ _).trans hi
  · intro i j hij hj hb
    by_cases hik : i = k
    · exact Or.inr (by rw [hik]; exact Function.update_self _ _ _)
    · exact (h i j hij hj hb).imp_right fun hi => (Function.update_of_ne hik _ _).trans hi
  · exact h

theorem GivenBack.removePages (h : sm.GivenBack) (pid : ℤ) : (sm.removePages pid).GivenBack := by
  unfold SwapManager.removePages
  generalize List.range swapSize = l
  induction l generalizing sm with
  | nil => exact h
  | cons k l ih => exact ih (h.removeSlot pid k)

/-- The search ends at the first slot that passes, when all tests before it go well. -/
theorem search_range {test : ℕ → Option Bool} {n i : ℕ} (hi : i < n)
    (hbefore : ∀ j < i, test j = some false) (htest : test i = some true) :
    search test (List.range n) = some (some i) := by
  have hskip : ∀ l l', (∀ j ∈ l, test j = some false) → search test (l ++ l') = search test l' := by
    intro l l' hl
    induction l with
    | nil => rfl
    | cons j l ih =>
      rw [List.cons_append, search, hl j List.mem_cons_self, Option.bind_some, if_neg (by simp)]
      exact ih fun k hk => hl k (List.mem_cons_of_mem _ hk)
  obtain ⟨k, rfl⟩ : ∃ k, n = i + (k + 1) := ⟨n - i - 1, by omega⟩
  rw [List.range_add, List.range_succ_eq_map, List.map_cons,
    hskip _ _ fun j hj => hbefore j (List.mem_range.mp hj), search, Nat.add_zero, htest]
  rfl

theorem create_represents (storage : ℕ → Word) (pids : ℕ → ℤ) (entries : ℕ → Option E)
    (swap : ℕ → P) :
    Represents virtualPage (create storage pids entries swap) fun _ => none := by
  have hclear : ∀ i < swapSize, (create storage pids entries swap).bitmap.bit i = false :=
    fun i hi => BitMap.bit_create storage hi
  refine ⟨create_wellFormed virtualPage storage pids entries swap, ?_, ?_, ?_⟩
  · intro i pid e hs
    have hbit := hs.bit
    rw [hclear i hs.lt] at hbit
    cases hbit
  · intro pid vpn v hv
    cases hv
  · intro i j _ hj hbit
    rw [hclear j hj] at hbit
    cases hbit

namespace Represents

theorem findPage (h : Represents virtualPage sm m) (pid vpn : ℤ) :
    sm.findPage virtualPage pid vpn = some (m (pid, vpn)) := by
  rcases h.wellFormed.findPage_cases pid vpn with ⟨i, e, hf, hs, rfl⟩ | ⟨hf, hnone⟩
  · rw [hf, h.slot hs]
  · rw [hf]
    cases hm : m (pid, vpn) with
    | none => rfl
    | some v =>
      obtain ⟨i, e, hs, hv⟩ := h.key hm
      exact absurd hv (hnone i e hs)

/-- The slot of a key that is in the map. -/
theorem exists_slot (h : Represents virtualPage sm m) (hk : (pid, vpn) ∈ m.keys) :
    ∃ i e, sm.Slot i pid e ∧ virtualPage e = vpn := by
  obtain ⟨v, hv⟩ := Option.isSome_iff_exists.mp hk
  exact h.key hv

/-- A page is stored in the slot of its key. -/
theorem setSlot (h : Represents virtualPage sm m) {i : ℕ} {e : E} (hs : sm.Slot i pid e)
    (buffer : P) : Represents virtualPage (sm.setSlot i buffer)
      (Function.update m (pid, virtualPage e) (some (e, buffer))) := by
  refine ⟨h.wellFormed.setSlot i buffer, ?_, ?_, h.givenBack⟩
  · intro j q e' hj
    have hj' := slot_setSlot.mp hj
    by_cases hji : j = i
    · subst hji
      obtain rfl := hs.pid.symm.trans hj'.pid
      obtain rfl := Option.some.inj (hs.entry.symm.trans hj'.entry)
      rw [Function.update_self, show (sm.setSlot j buffer).swap j = buffer from
        Function.update_self _ _ _]
    · have hne : (q, virtualPage e') ≠ (pid, virtualPage e) := by
        intro he
        obtain ⟨rfl, hv⟩ := Prod.mk.inj he
        exact hji (h.wellFormed.unique hj' hs hv)
      rw [Function.update_of_ne hne, show (sm.setSlot i buffer).swap j = sm.swap j from
        Function.update_of_ne hji _ _]
      exact h.slot hj'
  · intro q vpn v hv
    by_cases hk : (q, vpn) = (pid, virtualPage e)
    · obtain ⟨rfl, rfl⟩ := Prod.mk.inj hk
      exact ⟨i, e, slot_setSlot.mpr hs, rfl⟩
    · rw [Function.update_of_ne hk] at hv
      obtain ⟨j, e', hj, he'⟩ := h.key hv
      exact ⟨j, e', slot_setSlot.mpr hj, he'⟩

/-- With all slots in use the map has as many keys. -/
theorem exists_clear (h : Represents virtualPage sm m) (hroom : m.keys.encard < swapSize) :
    ∃ i < swapSize, sm.bitmap.bit i = false := by
  by_contra! hall
  have hslot : ∀ i < swapSize, ∃ e, sm.Slot i (sm.pids i) e := by
    intro i hi
    have hbit : sm.bitmap.bit i = true := by simpa using hall i hi
    obtain ⟨e, he⟩ := h.wellFormed.entered i hi hbit
    exact ⟨e, hi, hbit, rfl, he⟩
  let key : ℕ → ℤ × ℤ := fun i => (sm.pids i, ((sm.entries i).map virtualPage).getD 0)
  have hkey : ∀ {i e}, sm.Slot i (sm.pids i) e → key i = (sm.pids i, virtualPage e) := by
    intro i e hs
    simp [key, hs.entry]
  have hinj : Set.InjOn key (Finset.range swapSize : Set ℕ) := by
    intro i hi j hj hij
    obtain ⟨e, he⟩ := hslot i (by simpa using hi)
    obtain ⟨e', he'⟩ := hslot j (by simpa using hj)
    rw [hkey he, hkey he'] at hij
    obtain ⟨hpid, hv⟩ := Prod.mk.inj hij
    exact h.wellFormed.unique (hpid ▸ he) he' hv
  have hsub : key '' (Finset.range swapSize : Set ℕ) ⊆ m.keys := by
    rintro k ⟨i, hi, rfl⟩
    obtain ⟨e, he⟩ := hslot i (by simpa using hi)
    rw [hkey he]
    exact Option.isSome_iff_exists.mpr ⟨_, h.slot he⟩
  have hcard := Set.encard_le_encard hsub
  rw [hinj.encard_image, Set.encard_coe_eq_coe_finsetCard, Finset.card_range] at hcard
  exact absurd hroom (not_lt.mpr hcard)

/-- The first free slot is taken for a key that is not in the map. -/
theorem insert (h : Represents virtualPage sm m) {i : ℕ} {page : E} (hi : i < swapSize)
    (hclear : sm.bitmap.bit i = false) (hfirst : ∀ j < i, sm.bitmap.bit j = true)
    (hnew : ∀ j e, sm.Slot j pid e → virtualPage e ≠ virtualPage page) :
    Represents virtualPage ⟨sm.bitmap.setBit i, Function.update sm.pids i pid,
        Function.update sm.entries i (some page), sm.swap⟩
      (Function.update m (pid, virtualPage page) (some (page, sm.swap i))) := by
  refine ⟨h.wellFormed.insert hi hnew, ?_, ?_, ?_⟩
  · intro j q e hj
    rcases (slot_insert hi).mp hj with ⟨rfl, rfl, rfl⟩ | ⟨-, hold⟩
    · exact Function.update_self _ _ _
    · have hne : (q, virtualPage e) ≠ (pid, virtualPage page) := by
        intro he
        obtain ⟨rfl, hv⟩ := Prod.mk.inj he
        exact hnew j e hold hv
      rw [Function.update_of_ne hne]
      exact h.slot hold
  · intro q vpn v hv
    by_cases hk : (q, vpn) = (pid, virtualPage page)
    · obtain ⟨rfl, rfl⟩ := Prod.mk.inj hk
      exact ⟨i, page, slot_insert_self sm q page hi, rfl⟩
    · rw [Function.update_of_ne hk] at hv
      obtain ⟨j, e, hj, he⟩ := h.key hv
      refine ⟨j, e, (slot_insert hi).mpr (Or.inr ⟨?_, hj⟩), he⟩
      rintro rfl
      have hbit := hj.bit
      rw [hclear] at hbit
      cases hbit
  · intro j k hjk hk hbit
    rw [BitMap.bit_setBit] at hbit ⊢
    by_cases hji : j = i
    · exact Or.inl (by simp [hji])
    · by_cases hki : k = i
      · exact Or.inl (by simp [hfirst j (hki ▸ hjk)])
      · have hold := h.givenBack j k hjk hk (by simpa [Ne.symm hki] using hbit)
        exact hold.imp (fun hj => by simp [hj]) fun hj => (Function.update_of_ne hji _ _).trans hj

theorem addPage (h : Represents virtualPage sm m) (page : E) (pid : ℤ) (buffer : P)
    (hroom : (pid, virtualPage page) ∈ m.keys ∨ m.keys.encard < swapSize) :
    ∃ sm', sm.addPage virtualPage page pid buffer = some sm' ∧
      Represents virtualPage sm' (m.apply virtualPage (.addPage page pid buffer)) := by
  unfold SwapManager.addPage addPageWith
  rcases h.wellFormed.search_cases pid (virtualPage page) with ⟨i, e, hs, he, hv⟩ | ⟨hs, hnone⟩
  · refine ⟨_, by rw [hs, Option.bind_some], ?_⟩
    have hold := h.slot he
    rw [hv] at hold
    rw [PageMap.apply, hold, Option.map_some, Option.getD_some, ← hv]
    exact h.setSlot he buffer
  · have hkey : m (pid, virtualPage page) = none := by
      rw [Option.eq_none_iff_forall_ne_some]
      intro v hv
      obtain ⟨i, e, he, hve⟩ := h.key hv
      exact hnone i e he hve
    have hless := hroom.resolve_left (by
      intro hmem
      obtain ⟨v, hv⟩ := Option.isSome_iff_exists.mp hmem
      rw [hkey] at hv
      cases hv)
    obtain ⟨k, hk, hkclear⟩ := h.exists_clear hless
    rcases sm.bitmap.find_cases with ⟨i, hi, hclear, hfirst, hf⟩ | ⟨hall, -⟩
    · rw [h.wellFormed.bits] at hi
      have hnew := (h.insert hi hclear hfirst hnone).setSlot (slot_insert_self sm pid page hi) buffer
      rw [Function.update_idem] at hnew
      refine ⟨_, ?_, by rw [PageMap.apply, hkey]; exact hnew⟩
      simp only [hs, Option.bind_some, hf, Int.toNat_natCast]
      rw [if_neg (by omega)]
    · rw [hall k (h.wellFormed.bits.symm ▸ hk)] at hkclear
      cases hkclear

/-- The pointers that `writePage` follows on its way to the slot of a key are good. -/
theorem writePage (h : Represents virtualPage sm m) (hpid : 0 ≤ pid) (hk : (pid, vpn) ∈ m.keys)
    (buffer : P) : ∃ sm', sm.writePage virtualPage pid vpn buffer = some sm' ∧
      Represents virtualPage sm' (m.apply virtualPage (.writePage pid vpn buffer)) := by
  obtain ⟨i, e, hs, rfl⟩ := h.exists_slot hk
  have hbefore : ∀ j < i, sm.holdsUntested virtualPage pid (virtualPage e) j = some false := by
    intro j hj
    unfold holdsUntested
    split_ifs with hpids
    · rcases h.givenBack j i hj hs.lt hs.bit with hbit | hfree
      · obtain ⟨e', he'⟩ := h.wellFormed.entered j (hj.trans hs.lt) hbit
        have hne : virtualPage e' ≠ virtualPage e := by
          intro hv
          exact hj.ne (h.wellFormed.unique ⟨hj.trans hs.lt, hbit, hpids, he'⟩ hs hv)
        simp [he', hne]
      · omega
    · rfl
  have htest : sm.holdsUntested virtualPage pid (virtualPage e) i = some true := by
    simp [holdsUntested, hs.pid, hs.entry, hs.bit]
  refine ⟨sm.setSlot i buffer, ?_, ?_⟩
  · rw [SwapManager.writePage, search_range hs.lt hbefore htest]
    rfl
  · rw [PageMap.apply, h.slot hs, Option.map_some]
    exact h.setSlot hs buffer

theorem removePages (h : Represents virtualPage sm m) (pid : ℤ) :
    Represents virtualPage (sm.removePages pid) (m.apply virtualPage (.removePages pid)) := by
  obtain ⟨-, hswap, -⟩ := sm.removePages_frame pid
  refine ⟨h.wellFormed.removePages pid, ?_, ?_, h.givenBack.removePages pid⟩
  · intro i q e hi
    obtain ⟨hs, hne⟩ := slot_removePages.mp hi
    rw [hswap, ← h.slot hs]
    exact if_neg hne
  · intro q vpn v hv
    simp only [PageMap.apply] at hv
    split_ifs at hv with hq
    obtain ⟨i, e, hs, he⟩ := h.key hv
    exact ⟨i, e, slot_removePages.mpr ⟨hs, hq⟩, he⟩

theorem step (h : Represents virtualPage sm m) {c : Call E P} (hc : m.Admits virtualPage c) :
    ∃ sm', sm.step virtualPage c = some sm' ∧ Represents virtualPage sm' (m.apply virtualPage c) := by
  cases c with
  | addPage page pid buffer => exact h.addPage page pid buffer hc.2
  | writePage pid vpn buffer => exact h.writePage hc.1 hc.2 buffer
  | findPage pid vpn => exact ⟨sm, by simp [SwapManager.step, h.findPage], h⟩
  | removePages pid => exact ⟨_, rfl, h.removePages pid⟩

theorem run (h : Represents virtualPage sm m) {calls : List (Call E P)} {m' : PageMap E P}
    (hrun : Run (fun m c m' => m' = PageMap.apply virtualPage m c) (PageMap.Admits virtualPage)
      m calls m') :
    ∃ sm', calls.foldlM (SwapManager.step virtualPage) sm = some sm' ∧
      Represents virtualPage sm' m' := by
  induction hrun generalizing sm with
  | nil m => exact ⟨sm, rfl, h⟩
  | cons hc ht _ ih =>
    obtain ⟨sm₁, hsm₁, h₁⟩ := h.step hc
    obtain ⟨sm', hsm', h'⟩ := ih (ht ▸ h₁)
    exact ⟨sm', by rw [List.foldlM_cons, hsm₁]; exact hsm', h'⟩

end Represents

/-- After any calls on a new swap manager, whatever its arrays held, every call has
come to its end, `findPage` answers what the finite map says, and no key has two
slots. -/
theorem findPage_eq_map (virtualPage : E → ℤ) (storage : ℕ → Word) (pids : ℕ → ℤ)
    (entries : ℕ → Option E) (swap : ℕ → P) {calls : List (Call E P)} {m : PageMap E P}
    (hrun : Run (fun m c m' => m' = PageMap.apply virtualPage m c) (PageMap.Admits virtualPage)
      (fun _ => none) calls m) :
    ∃ sm, calls.foldlM (step virtualPage) (create storage pids entries swap) = some sm ∧
      (∀ pid vpn, sm.findPage virtualPage pid vpn = some (m (pid, vpn))) ∧
      ∀ i j pid e e', sm.Slot i pid e → sm.Slot j pid e' → virtualPage e = virtualPage e' → i = j := by
  have hcreate : Represents virtualPage (create storage pids entries swap) fun _ => none :=
    create_represents storage pids entries swap
  obtain ⟨sm, hsm, h⟩ := hcreate.run hrun
  exact ⟨sm, hsm, h.findPage, fun i j pid e e' hi hj hv => h.wellFormed.unique hi hj hv⟩

/-- Two processes with the same page number; the first one is removed. -/
theorem findPage_eq_map_two_processes :
    let calls : List (Call ℤ Bool) :=
      [.addPage 5 1 false, .addPage 5 2 false, .writePage 2 5 true, .removePages 1]
    ∃ (m : PageMap ℤ Bool) (sm : SwapManager ℤ Bool),
      Run (fun m c m' => m' = PageMap.apply id m c) (PageMap.Admits id) (fun _ => none) calls m ∧
      calls.foldlM (step id) (create (fun _ => 0) (fun _ => 2) (fun _ => none) fun _ => false) =
        some sm ∧
      sm.findPage id 1 5 = some none ∧ sm.findPage id 2 5 = some (some (5, true)) := by
  have hroom : ∀ m : PageMap ℤ Bool, m.keys ⊆ {(1, 5)} → m.keys.encard < swapSize := by
    intro m hm
    refine (Set.encard_le_encard hm).trans_lt ?_
    rw [Set.encard_singleton]
    unfold swapSize
    exact Nat.one_lt_cast.mpr (by decide)
  have hone : PageMap.keys (PageMap.apply id (fun _ => none : PageMap ℤ Bool) (.addPage 5 1 false)) ⊆
      {(1, 5)} := by
    intro k hk
    by_contra hne
    have hnone : Function.update (fun _ => none : PageMap ℤ Bool) (1, 5) (some (5, false)) k = none :=
      Function.update_of_ne hne _ _
    have hsome : (Function.update (fun _ => none : PageMap ℤ Bool) (1, 5) (some (5, false)) k).isSome :=
      hk
    rw [hnone] at hsome
    cases hsome
  have hzero : (0 : ℤ) ≤ 1 := by decide
  have hrun : Run (fun m c m' => m' = PageMap.apply id m c) (PageMap.Admits id)
      (fun _ => none : PageMap ℤ Bool)
      [.addPage 5 1 false, .addPage 5 2 false, .writePage 2 5 true, .removePages 1] _ :=
    .cons ⟨hzero, Or.inr (hroom _ fun k hk => by cases hk)⟩ rfl
      (.cons ⟨by decide, Or.inr (hroom _ hone)⟩ rfl
        (.cons ⟨by decide, rfl⟩ rfl (.cons hzero rfl (.nil _))))
  obtain ⟨sm, hsm, hfind, -⟩ := findPage_eq_map id (fun _ => 0) (fun _ => 2) (fun _ => none)
    (fun _ => false) hrun
  exact ⟨_, sm, hrun, hsm, by rw [hfind]; rfl, by rw [hfind]; rfl⟩

end Nachos.SwapManager
