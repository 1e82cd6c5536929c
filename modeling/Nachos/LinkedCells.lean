import Mathlib.Tactic

/-!
# Doubly linked cells in a heap

A heap maps addresses to nodes with two pointers and a payload; `none` is
memory that is not allocated, or was deleted. `Linked h prev l next` says that
the cells `l` lie in the heap as one segment: each node points to its
neighbours, the first one back to `prev` and the last one on to `next`. Writing
through a pointer to memory that is not allocated is the failure `none`.
-/
namespace Nachos.LinkedCells

structure Node (V : Type*) where
  next : Option ℕ
  prev : Option ℕ
  payload : V

abbrev Heap (V : Type*) := ℕ → Option (Node V)

/-- A node seen from outside: where it is and what it carries. -/
structure Cell (V : Type*) where
  addr : ℕ
  payload : V

variable {V : Type*}

def setNext (h : Heap V) (a : ℕ) (x : Option ℕ) : Option (Heap V) :=
  (h a).map fun n => Function.update h a (some { n with next := x })

def setPrev (h : Heap V) (a : ℕ) (x : Option ℕ) : Option (Heap V) :=
  (h a).map fun n => Function.update h a (some { n with prev := x })

/-- Let the node before and the node after, where there is one, point to each
other. -/
def bypass (h : Heap V) (prev next : Option ℕ) : Option (Heap V) :=
  (match prev with
    | some p => setNext h p next
    | none => some h).bind fun h =>
  match next with
    | some x => setPrev h x prev
    | none => some h

/-- The pointer to the first cell, `next` when there is no cell. -/
def first : List (Cell V) → Option ℕ → Option ℕ
  | [], next => next
  | c :: _, _ => some c.addr

/-- The pointer to the last cell, `prev` when there is no cell. -/
def last : Option ℕ → List (Cell V) → Option ℕ
  | prev, [] => prev
  | _, c :: l => last (some c.addr) l

def Linked (h : Heap V) : Option ℕ → List (Cell V) → Option ℕ → Prop
  | _, [], _ => True
  | prev, c :: l, next =>
    h c.addr = some ⟨first l next, prev, c.payload⟩ ∧ Linked h (some c.addr) l next

abbrev addrs (l : List (Cell V)) : List ℕ := l.map Cell.addr

/-- Following `via` from a pointer to the null pointer visits exactly the cells `l`. -/
def Visits (h : Heap V) (via : Node V → Option ℕ) : Option ℕ → List (Cell V) → Prop
  | p, [] => p = none
  | p, c :: l => p = some c.addr ∧ ∃ n, h c.addr = some n ∧ n.payload = c.payload ∧
    Visits h via (via n) l

@[simp] theorem first_nil (next : Option ℕ) : first ([] : List (Cell V)) next = next := rfl

@[simp] theorem first_cons (c : Cell V) (l : List (Cell V)) (next : Option ℕ) :
    first (c :: l) next = some c.addr := rfl

theorem first_append (l r : List (Cell V)) (next : Option ℕ) :
    first (l ++ r) next = first l (first r next) := by
  cases l <;> rfl

theorem last_append_singleton (prev : Option ℕ) (l : List (Cell V)) (c : Cell V) :
    last prev (l ++ [c]) = some c.addr := by
  induction l generalizing prev with
  | nil => rfl
  | cons d l ih => exact ih _

theorem last_append_cons (prev : Option ℕ) (l : List (Cell V)) (c : Cell V) (r : List (Cell V)) :
    last prev (l ++ c :: r) = last none (c :: r) := by
  induction l generalizing prev with
  | nil => rfl
  | cons d l ih => exact ih _

theorem last_cons_mem (prev : Option ℕ) (c : Cell V) (l : List (Cell V)) :
    ∃ a ∈ addrs (c :: l), last prev (c :: l) = some a := by
  induction l generalizing prev c with
  | nil => exact ⟨c.addr, by simp [addrs], rfl⟩
  | cons d l ih =>
    obtain ⟨a, ha, heq⟩ := ih (some c.addr) d
    exact ⟨a, List.mem_cons_of_mem _ ha, heq⟩

theorem linked_append (h : Heap V) (prev next : Option ℕ) (l r : List (Cell V)) :
    Linked h prev (l ++ r) next ↔
      Linked h prev l (first r next) ∧ Linked h (last prev l) r next := by
  induction l generalizing prev with
  | nil => simp [Linked, last]
  | cons c l ih => simp only [List.cons_append, Linked, first_append, ih, last, and_assoc]

theorem Linked.visits_next {h : Heap V} {prev : Option ℕ} {l : List (Cell V)}
    (hl : Linked h prev l none) : Visits h Node.next (first l none) l := by
  induction l generalizing prev with
  | nil => rfl
  | cons c l ih => exact ⟨rfl, _, hl.1, rfl, ih hl.2⟩

theorem Linked.visits_prev {h : Heap V} {next : Option ℕ} {l : List (Cell V)}
    (hl : Linked h none l next) : Visits h Node.prev (last none l) l.reverse := by
  induction l using List.reverseRecOn generalizing next with
  | nil => rfl
  | append_singleton l c ih =>
    obtain ⟨hleft, hc, -⟩ := (linked_append ..).mp hl
    rw [last_append_singleton, List.reverse_append]
    exact ⟨rfl, _, hc, rfl, ih hleft⟩

theorem Linked.congr {h h' : Heap V} {prev next : Option ℕ} {l : List (Cell V)}
    (hl : Linked h prev l next) (heq : ∀ a ∈ addrs l, h' a = h a) : Linked h' prev l next := by
  induction l generalizing prev with
  | nil => trivial
  | cons c l ih =>
    simp only [addrs, List.map_cons, List.mem_cons, forall_eq_or_imp] at heq
    exact ⟨heq.1.trans hl.1, ih hl.2 heq.2⟩

/-- Cells outside a segment can change. -/
theorem Linked.update {h : Heap V} {prev next : Option ℕ} {l : List (Cell V)}
    (hl : Linked h prev l next) {a : ℕ} (ha : a ∉ addrs l) (n : Option (Node V)) :
    Linked (Function.update h a n) prev l next := by
  refine hl.congr ?_
  intro b hb
  have hne : b ≠ a := fun he => ha (he ▸ hb)
  exact Function.update_of_ne hne _ _

theorem Linked.get {h : Heap V} {prev next : Option ℕ} {l r : List (Cell V)} {c : Cell V}
    (hl : Linked h prev (l ++ c :: r) next) :
    h c.addr = some ⟨first r next, last prev l, c.payload⟩ :=
  ((linked_append ..).mp hl).2.1

theorem Linked.setNext_last {h : Heap V} {prev next : Option ℕ} {l : List (Cell V)} {c : Cell V}
    (hl : Linked h prev (l ++ [c]) next) (hc : c.addr ∉ addrs l) (x : Option ℕ) :
    ∃ n, setNext h c.addr x = some (Function.update h c.addr (some n)) ∧
      Linked (Function.update h c.addr (some n)) prev (l ++ [c]) x := by
  have hget := hl.get
  obtain ⟨hl, -, -⟩ := (linked_append ..).mp hl
  refine ⟨_, by rw [setNext, hget, Option.map_some], ?_⟩
  refine (linked_append ..).mpr ⟨?_, ?_, trivial⟩
  · exact hl.update hc _
  · exact Function.update_self ..

theorem Linked.setPrev_first {h : Heap V} {prev next : Option ℕ} {r : List (Cell V)} {c : Cell V}
    (hl : Linked h prev (c :: r) next) (hc : c.addr ∉ addrs r) (x : Option ℕ) :
    ∃ n, setPrev h c.addr x = some (Function.update h c.addr (some n)) ∧
      Linked (Function.update h c.addr (some n)) x (c :: r) next := by
  refine ⟨_, by rw [setPrev, hl.1, Option.map_some], ?_, hl.2.update hc _⟩
  exact Function.update_self ..

@[simp] theorem setNext_update_self (h : Heap V) (a : ℕ) (n : Node V) (x : Option ℕ) :
    setNext (Function.update h a (some n)) a x =
      some (Function.update h a (some { n with next := x })) := by
  simp [setNext]

@[simp] theorem setPrev_update_self (h : Heap V) (a : ℕ) (n : Node V) (x : Option ℕ) :
    setPrev (Function.update h a (some n)) a x =
      some (Function.update h a (some { n with prev := x })) := by
  simp [setPrev]

/-- Bypassing a cell leaves the other cells as one segment. -/
theorem Linked.bypass {h : Heap V} {l r : List (Cell V)} {c : Cell V}
    (hl : Linked h none (l ++ c :: r) none) (hd : (addrs (l ++ c :: r)).Nodup) :
    ∃ h', bypass h (last none l) (first r none) = some h' ∧ Linked h' none (l ++ r) none := by
  obtain ⟨hleft, -, hright⟩ := (linked_append ..).mp hl
  simp only [addrs, List.map_append, List.map_cons] at hd
  have hdl : (addrs l).Nodup := (List.nodup_append.mp hd).1
  have hdr : (addrs r).Nodup := (List.nodup_cons.mp (List.nodup_append.mp hd).2.1).2
  have hne : ∀ a ∈ addrs l, a ∉ addrs r := fun a ha hr =>
    (List.nodup_append.mp hd).2.2 a ha a (List.mem_cons_of_mem _ hr) rfl
  have hstep : ∃ h₁, (match last none l with
      | some p => setNext h p (first r none)
      | none => some h) = some h₁ ∧ Linked h₁ none l (first r none) ∧
        Linked h₁ (some c.addr) r none := by
    rcases List.eq_nil_or_concat' l with rfl | ⟨l, p, rfl⟩
    · exact ⟨h, rfl, trivial, hright⟩
    · have hp : p.addr ∉ addrs l := by
        simp only [addrs, List.map_append, List.nodup_append] at hdl
        exact fun hm => hdl.2.2 _ hm _ (List.mem_singleton_self _) rfl
      obtain ⟨n, hs, hl'⟩ := hleft.setNext_last hp (first r none)
      refine ⟨_, by rw [last_append_singleton]; exact hs, hl', hright.update ?_ _⟩
      exact hne _ (by simp [addrs])
  obtain ⟨h₁, hs, hl₁, hr₁⟩ := hstep
  unfold LinkedCells.bypass
  rw [hs, Option.bind_some]
  cases r with
  | nil => exact ⟨h₁, rfl, by rw [List.append_nil]; exact hl₁⟩
  | cons x r =>
    obtain ⟨n, hs', hr'⟩ := hr₁.setPrev_first (List.nodup_cons.mp hdr).1 (last none l)
    refine ⟨_, hs', (linked_append ..).mpr ⟨hl₁.update ?_ _, hr'⟩⟩
    exact fun hm => hne _ hm List.mem_cons_self

end Nachos.LinkedCells
