import Nachos.BitMap
import Nachos.GuardedRuns

/-!
# Physical frames of the address spaces (build without `VM`)

`MemoryManager` hands out frames under its own lock. The `AddrSpace`
constructor and `AddrSpace::Clone` compare the number of pages with
`freePages` once and then call `getPage` for one page after the other; the
destructor gives the frames back one call at a time. Every call is an
`Acquire`, a body and a `Release`, and another thread can run after each of
the two lock operations. A step here is therefore one `Acquire`, or one body
with the `Release` at its end.

Frames given out are the entries of the page tables, which are `-1` when
`getPage` found no clear bit. `clearPage` of such an entry returns without the
`Release`.
-/
namespace Nachos.PhysicalFrames
open GuardedRuns

/-- `NumPhysPages` of `machine.h`, also the `mem_size` of the manager. -/
def numPhysPages : ℕ := 64

structure MemoryManager (A : Type*) where
  bitMem : BitMap
  memLock : Option A

section manager
variable {A : Type*}

def MemoryManager.getPage (m : MemoryManager A) : ℤ × MemoryManager A :=
  (m.bitMem.find.1, ⟨m.bitMem.find.2, none⟩)

def MemoryManager.clearPage (m : MemoryManager A) (i : ℤ) : Option (MemoryManager A) :=
  if i > numPhysPages ∨ i < 0 then some m else (m.bitMem.clear i).map (⟨·, none⟩)

def MemoryManager.freePages (m : MemoryManager A) : ℕ × MemoryManager A :=
  (m.bitMem.numClear, ⟨m.bitMem, none⟩)

end manager

/-- Where the construction or destruction of one address space stands. The
list holds the `physicalPage` fields written and not yet cleared. -/
inductive Space where
  | absent
  | checking (numPages : ℕ)
  | building (numPages : ℕ) (frames : List ℤ)
  | live (frames : List ℤ)
  | exiting (frames : List ℤ)
  deriving DecidableEq, Repr

/-- The frames a space that is live, half built or half deleted holds. -/
def Space.held : Space → List ℤ
  | .absent => []
  | .checking _ => []
  | .building _ frames => frames
  | .live frames => frames
  | .exiting frames => frames

/-- The constructor or the destructor has a memory-manager call to make. -/
def Space.pending : Space → Bool
  | .checking _ => true
  | .building _ _ => true
  | .exiting _ => true
  | _ => false

/-- The allocation loop ends when every entry of the table is written. -/
def Space.afterPage (numPages : ℕ) (frames : List ℤ) : Space :=
  if frames.length < numPages then .building numPages frames else .live frames

def Space.afterClear (frames : List ℤ) : Space :=
  if frames = [] then .absent else .exiting frames

@[simp] theorem Space.held_afterPage (n : ℕ) (frames : List ℤ) :
    (Space.afterPage n frames).held = frames := by
  unfold Space.afterPage
  split_ifs <;> rfl

@[simp] theorem Space.held_afterClear (frames : List ℤ) :
    (Space.afterClear frames).held = frames := by
  unfold Space.afterClear
  split_ifs with h <;> simp [Space.held, h]

inductive Label (A : Type*) where
  | exec (a : A) (numPages : ℕ)
  | fork (a parent : A)
  | exit (a : A)
  | acquire (a : A)
  | call (a : A)

structure State (A : Type*) where
  memory : MemoryManager A
  space : A → Space

variable {A : Type*}

/-- A new manager over any prior contents of the bit storage, and no space. -/
def initial (storage : ℕ → Word) : State A :=
  ⟨⟨BitMap.create storage numPhysPages, none⟩, fun _ => .absent⟩

variable [DecidableEq A]

def State.setSpace (s : State A) (m : MemoryManager A) (a : A) (p : Space) : State A :=
  ⟨m, Function.update s.space a p⟩

/-- The body of the memory-manager call that the thread at work on `a` is in. -/
def State.call (s : State A) (a : A) : Option (State A) :=
  match s.space a with
  | .checking n =>
    let r := s.memory.freePages
    some (s.setSpace r.2 a (if n > r.1 then .absent else .afterPage n []))
  | .building n frames =>
    let r := s.memory.getPage
    some (s.setSpace r.2 a (.afterPage n (frames ++ [r.1])))
  | .exiting (f :: frames) =>
    (s.memory.clearPage f).map fun m => s.setSpace m a (.afterClear frames)
  | _ => none

/-- `none` is a step that cannot be taken: the lock is held by another thread,
the space is not at that point, or an assertion stops the simulator. -/
def step (s : State A) : Label A → Option (State A)
  | .exec a n =>
    if s.space a = .absent ∧ n ≤ numPhysPages then some (s.setSpace s.memory a (.checking n))
    else none
  | .fork a parent =>
    match s.space a, s.space parent with
    | .absent, .live frames => some (s.setSpace s.memory a (.checking frames.length))
    | _, _ => none
  | .exit a =>
    match s.space a with
    | .live frames => some (s.setSpace s.memory a (.afterClear frames))
    | _ => none
  | .acquire a =>
    if (s.space a).pending ∧ (s.memory.memLock = none ∨ s.memory.memLock = some a) then
      some { s with memory := { s.memory with memLock := some a } }
    else none
  | .call a => if s.memory.memLock = some a then s.call a else none

def Step (s : State A) (l : Label A) (t : State A) : Prop := step s l = some t

/-- Frames in range, never in two entries, and marked exactly while held. -/
structure Exclusive (s : State A) : Prop where
  range : ∀ a frames, s.space a = .live frames → ∀ f ∈ frames, 0 ≤ f ∧ f < numPhysPages
  unshared : ∀ (a b : A) (i j : ℕ) (f : ℤ), (s.space a).held[i]? = some f → (s.space b).held[j]? = some f →
    a = b ∧ i = j
  marked : ∀ f < numPhysPages, s.memory.bitMem.bit f = true ↔ ∃ a, (f : ℤ) ∈ (s.space a).held

/-- The `getPage` of a half-built space finds a clear bit. -/
def FrameLeft (s : State A) : Label A → Prop
  | .call a => (∃ n frames, s.space a = .building n frames) → s.memory.bitMem.numClear ≠ 0
  | _ => True

/-- The invariant behind `Exclusive`, with the bounds for every held frame. -/
structure Inv (s : State A) : Prop where
  numBits : s.memory.bitMem.numBits = numPhysPages
  bound : ∀ a, ∀ f ∈ (s.space a).held, 0 ≤ f ∧ f < numPhysPages
  nodup : ∀ a, (s.space a).held.Nodup
  disjoint : ∀ a b, a ≠ b → ∀ f ∈ (s.space a).held, f ∉ (s.space b).held
  marked : ∀ f < numPhysPages, s.memory.bitMem.bit f = true ↔ ∃ a, (f : ℤ) ∈ (s.space a).held

omit [DecidableEq A] in
theorem Inv.exclusive {s : State A} (h : Inv s) : Exclusive s where
  range a frames ha f hf := h.bound a f (by rw [ha]; exact hf)
  unshared a b i j f hi hj := by
    have hab : a = b := by
      by_contra hne
      exact h.disjoint a b hne f (List.mem_of_getElem? hi) (List.mem_of_getElem? hj)
    subst hab
    obtain ⟨hil, hie⟩ := List.getElem?_eq_some_iff.mp hi
    obtain ⟨hjl, hje⟩ := List.getElem?_eq_some_iff.mp hj
    exact ⟨rfl, (List.Nodup.getElem_inj_iff (h.nodup a)).mp (hie.trans hje.symm)⟩
  marked := h.marked

omit [DecidableEq A] in
theorem initial_inv (storage : ℕ → Word) : Inv (initial storage : State A) where
  numBits := BitMap.create_numBits _ _
  bound a f hf := by simp [initial, Space.held] at hf
  nodup a := by simp [initial, Space.held]
  disjoint a b _ f hf := by simp [initial, Space.held] at hf
  marked f hf := by simp [initial, Space.held, BitMap.bit_create storage hf]

@[simp] theorem setSpace_memory (s : State A) (m : MemoryManager A) (a : A) (p : Space) :
    (s.setSpace m a p).memory = m := rfl

@[simp] theorem setSpace_self (s : State A) (m : MemoryManager A) (a : A) (p : Space) :
    (s.setSpace m a p).space a = p := by simp [State.setSpace]

theorem setSpace_of_ne (s : State A) (m : MemoryManager A) {a b : A} (p : Space) (h : b ≠ a) :
    (s.setSpace m a p).space b = s.space b := by simp [State.setSpace, h]

/-- A step that moves one space along without changing what it holds. -/
theorem Inv.sameHeld {s : State A} (h : Inv s) (m : MemoryManager A)
    (hm : m.bitMem = s.memory.bitMem) (a : A) (p : Space) (hp : p.held = (s.space a).held) :
    Inv (s.setSpace m a p) := by
  have he : ∀ b, ((s.setSpace m a p).space b).held = (s.space b).held := by
    intro b
    by_cases hb : b = a
    · subst hb
      simp [hp]
    · rw [setSpace_of_ne s m p hb]
  constructor
  · simpa [hm] using h.numBits
  · intro b
    rw [he]
    exact h.bound b
  · intro b
    rw [he]
    exact h.nodup b
  · intro b c hbc
    rw [he, he]
    exact h.disjoint b c hbc
  · intro f hf
    simp only [he, setSpace_memory, hm]
    exact h.marked f hf

/-- A clear bit is the frame of no entry, so the new entry shares nothing. -/
theorem Inv.addFrame {s : State A} (h : Inv s) (a : A) (p : Space) (i : ℕ)
    (hi : i < numPhysPages) (hclear : s.memory.bitMem.bit i = false)
    (hp : p.held = (s.space a).held ++ [(i : ℤ)]) (o : Option A) :
    Inv (s.setSpace ⟨s.memory.bitMem.setBit i, o⟩ a p) := by
  have hfresh : ∀ b, (i : ℤ) ∉ (s.space b).held := by
    intro b hb
    have := (h.marked i hi).mpr ⟨b, hb⟩
    simp [hclear] at this
  have hmem : ∀ b f, f ∈ ((s.setSpace ⟨s.memory.bitMem.setBit i, o⟩ a p).space b).held ↔
      f ∈ (s.space b).held ∨ (b = a ∧ f = (i : ℤ)) := by
    intro b f
    by_cases hb : b = a
    · subst hb
      simp [hp]
    · simp [setSpace_of_ne s _ p hb, hb]
  constructor
  · simpa using h.numBits
  · intro b f hf
    rcases (hmem b f).mp hf with hf | ⟨-, rfl⟩
    · exact h.bound b f hf
    · exact ⟨by omega, by exact_mod_cast hi⟩
  · intro b
    by_cases hb : b = a
    · subst hb
      rw [setSpace_self, hp]
      refine List.nodup_append.mpr ⟨h.nodup b, List.nodup_singleton _, ?_⟩
      intro x hx y hy
      rw [List.mem_singleton.mp hy]
      exact fun he => hfresh b (he ▸ hx)
    · rw [setSpace_of_ne s _ p hb]
      exact h.nodup b
  · intro b c hbc f hfb hfc
    rcases (hmem b f).mp hfb with hb | ⟨hb, hbi⟩ <;> rcases (hmem c f).mp hfc with hc | ⟨hc, hci⟩
    · exact h.disjoint b c hbc f hb hc
    · exact hfresh b (hci ▸ hb)
    · exact hfresh c (hbi ▸ hc)
    · exact hbc (hb.trans hc.symm)
  · intro f hf
    simp only [hmem, setSpace_memory, BitMap.bit_setBit, Bool.or_eq_true, decide_eq_true_eq,
      h.marked f hf]
    constructor
    · rintro (rfl | ⟨b, hb⟩)
      · exact ⟨a, Or.inr ⟨rfl, rfl⟩⟩
      · exact ⟨b, Or.inl hb⟩
    · rintro ⟨b, hb | ⟨-, hb⟩⟩
      · exact Or.inr ⟨b, hb⟩
      · exact Or.inl (by exact_mod_cast hb.symm)

/-- Giving back the first entry still held clears the bit of no other entry. -/
theorem Inv.dropFrame {s : State A} (h : Inv s) (a : A) (p : Space) (i : ℕ)
    (hp : (s.space a).held = (i : ℤ) :: p.held) (o : Option A) :
    Inv (s.setSpace ⟨s.memory.bitMem.resetBit i, o⟩ a p) := by
  have hnd : (i : ℤ) ∉ p.held ∧ p.held.Nodup := by
    have := h.nodup a
    rw [hp] at this
    exact List.nodup_cons.mp this
  have hothers : ∀ b, b ≠ a → (i : ℤ) ∉ (s.space b).held :=
    fun b hb => h.disjoint a b (Ne.symm hb) _ (by simp [hp])
  have hmem : ∀ b f, f ∈ ((s.setSpace ⟨s.memory.bitMem.resetBit i, o⟩ a p).space b).held ↔
      f ∈ (s.space b).held ∧ f ≠ (i : ℤ) := by
    intro b f
    by_cases hb : b = a
    · subst hb
      simp only [setSpace_self, hp, List.mem_cons]
      constructor
      · intro hf
        exact ⟨Or.inr hf, fun he => hnd.1 (he ▸ hf)⟩
      · rintro ⟨hf | hf, hne⟩
        · exact absurd hf hne
        · exact hf
    · rw [setSpace_of_ne s _ p hb]
      exact ⟨fun hf => ⟨hf, fun he => hothers b hb (he ▸ hf)⟩, fun hf => hf.1⟩
  constructor
  · simpa using h.numBits
  · intro b f hf
    exact h.bound b f ((hmem b f).mp hf).1
  · intro b
    by_cases hb : b = a
    · subst hb
      simpa using hnd.2
    · rw [setSpace_of_ne s _ p hb]
      exact h.nodup b
  · intro b c hbc f hfb hfc
    exact h.disjoint b c hbc f ((hmem b f).mp hfb).1 ((hmem c f).mp hfc).1
  · intro f hf
    have hcast : (f : ℤ) ≠ (i : ℤ) ↔ ¬ i = f := by
      rw [ne_eq, Int.natCast_inj, eq_comm]
    simp only [hmem, setSpace_memory, BitMap.bit_resetBit, Bool.and_eq_true, Bool.not_eq_true',
      decide_eq_false_iff_not, h.marked f hf, hcast]
    constructor
    · rintro ⟨hne, b, hb⟩
      exact ⟨b, hb, hne⟩
    · rintro ⟨b, hb, hne⟩
      exact ⟨hne, b, hb⟩

theorem call_inv {s t : State A} {a : A} (h : Inv s) (hg : FrameLeft s (.call a))
    (hc : s.call a = some t) : Inv t := by
  unfold State.call at hc
  split at hc
  · rename_i n hsp
    obtain rfl := Option.some.inj hc
    refine h.sameHeld s.memory.freePages.2 rfl a _ ?_
    rw [hsp]
    split_ifs
    · rfl
    · exact Space.held_afterPage n []
  · rename_i n frames hsp
    obtain rfl := Option.some.inj hc
    rcases s.memory.bitMem.find_cases with ⟨i, hi, hclear, -, hf⟩ | ⟨hfull, -⟩
    · simp only [MemoryManager.getPage, hf]
      refine h.addFrame a _ i (h.numBits ▸ hi) hclear ?_ none
      rw [Space.held_afterPage, hsp]
      rfl
    · exact absurd ((BitMap.numClear_eq_zero_iff _).mpr hfull) (hg ⟨n, frames, hsp⟩)
  · rename_i f frames hsp
    have hheld : (s.space a).held = f :: frames := by rw [hsp]; rfl
    obtain ⟨hf0, hf1⟩ := h.bound a f (by simp [hheld])
    lift f to ℕ using hf0
    have hin : ¬ ((f : ℤ) > numPhysPages ∨ (f : ℤ) < 0) := by omega
    have hr : s.memory.bitMem.InRange f := ⟨by omega, by rw [h.numBits]; exact hf1⟩
    simp only [MemoryManager.clearPage, hin, ↓reduceIte, BitMap.clear, hr, Option.map_some,
      Int.toNat_natCast, Option.some.injEq] at hc
    subst hc
    exact h.dropFrame a _ f (by simp [hheld]) none
  · cases hc

theorem step_inv {s t : State A} {l : Label A} (h : Inv s) (hg : FrameLeft s l)
    (hst : Step s l t) : Inv t := by
  unfold Step step at hst
  cases l with
  | exec a n =>
    simp only at hst
    split_ifs at hst with hc
    obtain rfl := Option.some.inj hst
    exact h.sameHeld _ rfl a _ (by rw [hc.1]; rfl)
  | fork a parent =>
    simp only at hst
    split at hst
    · rename_i ha _
      obtain rfl := Option.some.inj hst
      exact h.sameHeld _ rfl a _ (by rw [ha]; rfl)
    · cases hst
  | exit a =>
    simp only at hst
    split at hst
    · rename_i ha
      obtain rfl := Option.some.inj hst
      exact h.sameHeld _ rfl a _ (by rw [ha, Space.held_afterClear]; rfl)
    · cases hst
  | acquire a =>
    simp only at hst
    split_ifs at hst
    obtain rfl := Option.some.inj hst
    exact ⟨h.numBits, h.bound, h.nodup, h.disjoint, h.marked⟩
  | call a =>
    simp only at hst
    split_ifs at hst
    exact call_inv h hg hst

/-- Over every interleaving in which no `getPage` of a half-built space comes
too late, no frame is ever shared and the bit map is exact. -/
theorem frames_exclusive (storage : ℕ → Word) (ls : List (Label A)) (s : State A)
    (hrun : Run Step FrameLeft (initial storage) ls s) : Exclusive s :=
  (hrun.invariant (initial_inv storage) step_inv).exclusive

theorem frames_exclusive_one_page :
    ∃ s, Run Step FrameLeft (initial (fun _ => 0) : State ℕ)
      [.exec 0 1, .acquire 0, .call 0, .acquire 0, .call 0] s ∧ Exclusive s := by
  have hrun : Run Step FrameLeft (initial (fun _ => 0) : State ℕ)
      [.exec 0 1, .acquire 0, .call 0, .acquire 0, .call 0] _ :=
    .cons trivial rfl (.cons trivial rfl (.cons (fun _ => by decide) rfl
      (.cons trivial rfl (.cons (fun _ => by decide) rfl (.nil _)))))
  exact ⟨_, hrun, frames_exclusive _ _ _ hrun⟩

/-- One turn of the allocation loop, whatever `getPage` returns. -/
theorem page_step (s : State A) (a : A) (n : ℕ) (frames : List ℤ)
    (hs : s.space a = .building n frames) (hl : s.memory.memLock = none) :
    ∃ t f, Run Step Free s [.acquire a, .call a] t ∧ t.memory.memLock = none ∧
      t.space a = .afterPage n (frames ++ [f]) ∧ ∀ b, b ≠ a → t.space b = s.space b := by
  let u : State A := { s with memory := { s.memory with memLock := some a } }
  have hacq : Step s (.acquire a) u := by simp [Step, step, hs, hl, Space.pending, u]
  have hcall : Step u (.call a)
      (u.setSpace u.memory.getPage.2 a (.afterPage n (frames ++ [u.memory.getPage.1]))) := by
    simp [Step, step, State.call, hs, u]
  refine ⟨_, u.memory.getPage.1, .cons trivial hacq (.cons trivial hcall (.nil _)), rfl, ?_, ?_⟩
  · simp
  · intro b hb
    exact setSpace_of_ne _ _ _ hb

/-- A constructor whose test passed runs to its end even with no frame left. -/
theorem build_run (k : ℕ) (s : State A) (a : A) (n : ℕ) (frames : List ℤ)
    (hs : s.space a = .building n frames) (hl : s.memory.memLock = none)
    (hk : frames.length + k + 1 = n) :
    ∃ t table, Run Step Free s (List.replicate (k + 1) [.acquire a, .call a]).flatten t ∧
      t.space a = .live table ∧ table.length = n ∧ ∀ b, b ≠ a → t.space b = s.space b := by
  induction k generalizing s frames with
  | zero =>
    obtain ⟨t, f, hrun, -, hta, hother⟩ := page_step s a n frames hs hl
    refine ⟨t, frames ++ [f], by simpa using hrun, ?_, by simp; omega, hother⟩
    rw [hta, Space.afterPage, if_neg (by simp; omega)]
  | succ k ih =>
    obtain ⟨t, f, hrun, htl, hta, hother⟩ := page_step s a n frames hs hl
    rw [Space.afterPage, if_pos (by simp; omega)] at hta
    obtain ⟨u, table, hrun', hua, hlen, hother'⟩ :=
      ih t (frames ++ [f]) hta htl (by simp; omega)
    refine ⟨u, table, ?_, hua, hlen, fun b hb => (hother' b hb).trans (hother b hb)⟩
    rw [List.replicate_succ, List.flatten_cons]
    exact hrun.append hrun'

omit [DecidableEq A] in
/-- A full machine's worth of entries leaves no frame for another space. -/
theorem Exclusive.not_full {s : State A} (h : Exclusive s) {a b : A} (hab : a ≠ b)
    {table other : List ℤ} (ha : s.space a = .live table) (hb : s.space b = .live other)
    (hlen : table.length = numPhysPages) (hne : other ≠ []) : False := by
  have hnd : table.Nodup := by
    rw [List.nodup_iff_injective_get]
    intro i j hij
    have := (h.unshared a a i j (table.get i) (by simp [ha, Space.held])
      (by simpa [ha, Space.held] using hij.symm)).2
    exact Fin.ext this
  have hsub : table.toFinset ⊆ Finset.Ico 0 (numPhysPages : ℤ) := by
    intro f hf
    exact Finset.mem_Ico.mpr (h.range a table ha f (List.mem_toFinset.mp hf))
  have hall : table.toFinset = Finset.Ico 0 (numPhysPages : ℤ) := by
    apply Finset.eq_of_subset_of_card_le hsub
    rw [List.toFinset_card_of_nodup hnd, hlen]
    simp
  obtain ⟨f, rest, rfl⟩ := List.exists_cons_of_ne_nil hne
  have hf : f ∈ table := by
    rw [← List.mem_toFinset, hall, Finset.mem_Ico]
    exact h.range b (f :: rest) hb f (by simp)
  obtain ⟨i, hi⟩ := List.getElem?_of_mem hf
  exact hab (h.unshared a b i 0 f (by simpa [ha, Space.held] using hi)
    (by simp [hb, Space.held])).1

/-- Space 0 passes the test for all 64 frames; space 1 is built before space 0
takes its first page; then space 0 makes its 64 calls. -/
def overcommit : List (Label ℕ) :=
  [.exec 0 64, .acquire 0, .call 0, .exec 1 1, .acquire 1, .call 1, .acquire 1, .call 1] ++
    (List.replicate 64 [.acquire 0, .call 0]).flatten

theorem overcommit_not_exclusive :
    ∃ s, Run Step Free (initial (fun _ => 0) : State ℕ) overcommit s ∧ ¬ Exclusive s := by
  obtain ⟨u, hpre, hu⟩ := exists_run_of_exec step (initial (fun _ => 0) : State ℕ)
    [.exec 0 64, .acquire 0, .call 0, .exec 1 1, .acquire 1, .call 1, .acquire 1, .call 1]
    (fun u => decide (u.space 0 = .building 64 [] ∧ u.space 1 = .live [0] ∧
      u.memory.memLock = none)) (by decide)
  obtain ⟨h0, h1, hl⟩ := of_decide_eq_true hu
  obtain ⟨t, table, hrun, hlive, hlen, hother⟩ := build_run 63 u 0 64 [] h0 hl rfl
  refine ⟨t, hpre.append hrun, fun h => ?_⟩
  exact h.not_full (by decide) hlive ((hother 1 (by decide)).trans h1) hlen
    (List.cons_ne_nil 0 [])

end Nachos.PhysicalFrames
