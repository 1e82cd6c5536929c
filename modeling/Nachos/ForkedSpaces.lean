import Nachos.PagingRefinement

/-!
# Fork in the build with `VM`

`AddrSpace::Clone` copies the entries of the page table, and the constructor that it calls
registers every page of the new space: a page of the parent that is in a frame with the
contents of the frame, any other page with what `CopyPage` finds in the slot of the parent.
No page of the child is in a frame before the child runs, and no frame of the parent moves.

The machine of `DemandPaging` with this step refines private memories in which a fork copies
the array of the parent. What `CopyPage` registers for a page without a slot is whatever its
buffer held.
-/
namespace Nachos.DemandPaging
open GuardedRuns LinkedCells ReplacementList PhysicalFrames

variable {A : Type}

/-- The page that is registered for the child; `buffer` is the one on the stack of `CopyPage`. -/
def State.pageOf (s : State A) (a : A) (vpn : ℤ) (buffer : Page) : Option Page :=
  if (s.pageTable (a, vpn)).valid then some (s.mainMemory (s.frame (a, vpn)))
  else (s.swap.findPage Prod.snd (s.pid a) vpn).map fun r => r.elim buffer Prod.snd

variable [DecidableEq A]

/-- The loop of the constructor over the first `n` pages. The entries of the child are not
valid from the start: nothing reads them before the loop sets them. -/
def State.copyPages (s : State A) (a child : A) (buffers : ℕ → Page) (n : ℕ) : Option (State A) :=
  (List.range n).foldlM (fun s (v : ℕ) => (s.pageOf a v (buffers v)).bind fun p =>
    step s (.addPage child v (some p))) s

/-- `AddrSpace::Clone` -/
def State.clone (s : State A) (a child : A) (pid : ℤ) (buffers : ℕ → Page) : Option (State A) :=
  (step s (.create child pid (s.numPages a) fun v => (s.pageTable (a, v)).dirty)).bind fun t =>
  t.copyPages a child buffers (s.numPages a)

/-- The steps of `DemandPaging`, and a fork by a process with `n` pages. -/
inductive ForkLabel (A : Type) where
  | base (l : Label A)
  | fork (a child : A) (pid : ℤ) (n : ℕ) (buffers : ℕ → Page)

def forkStep (s : State A) : ForkLabel A → Option (State A)
  | .base l => step s l
  | .fork a child pid n buffers =>
    if a ∈ s.live ∧ s.numPages a = n then s.clone a child pid buffers else none

def ForkStep (s : State A) (l : ForkLabel A) (t : State A) : Prop := forkStep s l = some t

/-- The private memories after a fork. -/
def Flat.fork (m : Flat A) (a child : A) (n : ℕ) (buffers : ℕ → Page) : Flat A := fun k =>
  if k.1 = child ∧ 0 ≤ k.2 ∧ k.2 < n then some ((m (a, k.2)).getD (buffers k.2.toNat)) else m k

inductive FlatForkStep : Flat A → ForkLabel A → Flat A → Prop
  | base {m m' : Flat A} {l : Label A} : FlatStep m l m' → FlatForkStep m (.base l) m'
  | fork (m : Flat A) (a child : A) (pid : ℤ) (n : ℕ) (buffers : ℕ → Page) :
      FlatForkStep m (.fork a child pid n buffers) (m.fork a child n buffers)

def FairFork (s : State A) : ForkLabel A → Prop
  | .base l => Fair s l
  | .fork .. => True

variable {s t : State A} {m : Flat A} {a child : A}

omit [DecidableEq A] in
/-- The page that is copied is the one of the private memory of the parent. -/
theorem Mapped.pageOf (h : Mapped s m) (ha : a ∈ s.live) {vpn : ℤ} {buffer p : Page}
    (hp : s.pageOf a vpn buffer = some p) : p = (m (a, vpn)).getD buffer := by
  unfold State.pageOf at hp
  split_ifs at hp with hvalid
  · rw [h.resident (a, vpn) ⟨ha, hvalid⟩]
    exact (Option.some.inj hp).symm
  · have hk : ¬s.Resident (a, vpn) := fun hres => hvalid hres.2
    rcases h.swap.findPage_cases (s.pid a) vpn with ⟨i, k, hf, hi, hv⟩ | ⟨hf, hnone⟩
    · obtain rfl := h.slot_unique hi ha rfl hv
      obtain ⟨q, hq, hstored⟩ := h.stored hi
      rw [hf] at hp
      rw [hq, ← hstored fun hd => hk hd.1]
      exact (Option.some.inj hp).symm
    · have hm : m (a, vpn) = none := by
        cases hm : m (a, vpn) with
        | none => rfl
        | some q =>
          obtain ⟨i, q', hi⟩ := h.known hm
          exact absurd rfl (hnone i (a, vpn) ((h.owner hi).2 ▸ hi))
      rw [hf] at hp
      rw [hm]
      exact (Option.some.inj hp).symm

theorem Flat.fork_parent (m : Flat A) (hne : a ≠ child) (n : ℕ) (buffers : ℕ → Page) (v : ℤ) :
    m.fork a child n buffers (a, v) = m (a, v) := if_neg fun h => hne h.1

theorem Flat.fork_zero (m : Flat A) (a child : A) (buffers : ℕ → Page) :
    m.fork a child 0 buffers = m := by
  funext k
  exact if_neg fun h => by omega

theorem Flat.fork_succ (m : Flat A) (a child : A) (n : ℕ) (buffers : ℕ → Page) :
    m.fork a child (n + 1) buffers = Function.update (m.fork a child n buffers) (child, (n : ℤ))
      (some ((m (a, (n : ℤ))).getD (buffers n))) := by
  funext k
  by_cases hk : k = (child, (n : ℤ))
  · subst hk
    simp [Flat.fork]
  · rw [Function.update_of_ne hk]
    have hiff : (k.1 = child ∧ 0 ≤ k.2 ∧ k.2 < (n + 1 : ℕ)) ↔ k.1 = child ∧ 0 ≤ k.2 ∧ k.2 < n := by
      refine and_congr_right fun hc => ?_
      have hv : k.2 ≠ n := fun hv => hk (Prod.ext hc hv)
      omega
    simp only [Flat.fork, hiff]

theorem addPage_live {v : ℤ} {p : Page} (ht : step s (.addPage child v (some p)) = some t) :
    t.live = s.live := by
  simp only [step] at ht
  split_ifs at ht
  obtain ⟨swap, -, rfl⟩ := Option.map_eq_some_iff.mp ht
  rfl

theorem Paged.copyPages (h : Paged s m) (ha : a ∈ s.live) (hne : a ≠ child) {n : ℕ}
    {buffers : ℕ → Page} (ht : s.copyPages a child buffers n = some t) :
    Paged t (m.fork a child n buffers) ∧ t.live = s.live := by
  induction n generalizing t with
  | zero =>
    obtain rfl := Option.some.inj ht
    rw [Flat.fork_zero]
    exact ⟨h, rfl⟩
  | succ n ih =>
    rw [State.copyPages, List.range_succ, List.foldlM_append] at ht
    obtain ⟨u, hu, ht⟩ := Option.bind_eq_some_iff.mp ht
    obtain ⟨hpaged, hlive⟩ := ih hu
    rw [List.foldlM_cons] at ht
    obtain ⟨w, hw, ht⟩ := Option.bind_eq_some_iff.mp ht
    obtain rfl := Option.some.inj ht
    obtain ⟨p, hp, hw⟩ := Option.bind_eq_some_iff.mp hw
    have hpage := hpaged.1.pageOf (hlive ▸ ha) hp
    rw [Flat.fork_parent m hne] at hpage
    obtain ⟨m', hm', hpaged'⟩ := hpaged.addPage hw
    cases hm'
    rw [Flat.fork_succ, ← hpage]
    exact ⟨hpaged', (addPage_live hw).trans hlive⟩

theorem Paged.fork (h : Paged s m) {pid : ℤ} {buffers : ℕ → Page} (ha : a ∈ s.live)
    (ht : s.clone a child pid buffers = some t) :
    Paged t (m.fork a child (s.numPages a) buffers) := by
  obtain ⟨u, hu, ht⟩ := Option.bind_eq_some_iff.mp ht
  have hcreated := h.create hu
  simp only [DemandPaging.step] at hu
  split_ifs at hu with hnew
  obtain rfl := Option.some.inj hu
  have hne : a ≠ child := fun he => hnew.1 (he ▸ ha)
  exact (hcreated.copyPages (List.mem_cons_of_mem _ ha) hne ht).1

/-- A fair step or a fork is a step of the private memories. -/
theorem Paged.forkStep (h : Paged s m) {l : ForkLabel A} (hfair : FairFork s l)
    (ht : ForkStep s l t) : ∃ m', FlatForkStep m l m' ∧ Paged t m' := by
  cases l with
  | base l =>
    obtain ⟨m', hm', hpaged⟩ := h.step hfair ht
    exact ⟨m', .base hm', hpaged⟩
  | fork a child pid n buffers =>
    simp only [ForkStep, DemandPaging.forkStep] at ht
    split_ifs at ht with ha
    obtain ⟨ha, rfl⟩ := ha
    exact ⟨_, .fork .., h.fork ha ht⟩

/-- Process 0 writes to one of its two pages, which is in a frame, and forks. Then the parent
writes again and the child brings both pages in. -/
def forkAndWrite : List (ForkLabel Bool) :=
  [.base (.create false 0 2 fun _ => false), .base (.addPage false 0 (some fun _ => 1)),
    .base (.addPage false 1 (some fun _ => 2)), .base (.fault false 0),
    .base (.write false 0 0 7), .fork false true 1 2 fun _ _ => 0, .base (.write false 0 0 9),
    .base (.fault true 0), .base (.fault true 1)]

def fairForkTest (s : State Bool) : ForkLabel Bool → Bool
  | .base l => fairTest s l
  | .fork .. => true

end Nachos.DemandPaging
