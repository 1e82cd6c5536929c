import Nachos.LinkedCells

/-!
# Singly linked cells in a heap

Cells with one pointer each. `Chained h l next` says that the cells `l` lie in the heap one
after the other, the last one pointing on to `next`. A cell is inserted by two writes, one
to its own pointer and one to the pointer of the cell before it.
-/
namespace Nachos.LinkedChains
open LinkedCells (Cell addrs first last)

structure Node (V : Type*) where
  next : Option ℕ
  payload : V

abbrev Heap (V : Type*) := ℕ → Option (Node V)

variable {V : Type*} {h h' : Heap V} {next : Option ℕ} {l r : List (Cell V)} {c : Cell V} {a : ℕ}

/-- Write a pointer; `none` when there is no cell at the address. -/
def setNext (h : Heap V) (a : ℕ) (x : Option ℕ) : Option (Heap V) :=
  (h a).map fun n => Function.update h a (some { n with next := x })

def Chained (h : Heap V) : List (Cell V) → Option ℕ → Prop
  | [], _ => True
  | c :: l, next => h c.addr = some ⟨first l next, c.payload⟩ ∧ Chained h l next

/-- Following the pointers from `p` to the null pointer visits exactly the cells `l`. -/
def Visits (h : Heap V) : Option ℕ → List (Cell V) → Prop
  | p, [] => p = none
  | p, c :: l => p = some c.addr ∧ ∃ n, h c.addr = some n ∧ n.payload = c.payload ∧
    Visits h n.next l

theorem Chained.visits (hl : Chained h l none) : Visits h (first l none) l := by
  induction l with
  | nil => rfl
  | cons c l ih => exact ⟨rfl, _, hl.1, rfl, ih hl.2⟩

theorem chained_append : Chained h (l ++ r) next ↔ Chained h l (first r next) ∧ Chained h r next := by
  induction l with
  | nil => simp [Chained]
  | cons c l ih => simp only [List.cons_append, Chained, LinkedCells.first_append, ih, and_assoc]

theorem Chained.congr (hl : Chained h l next) (heq : ∀ a ∈ addrs l, h' a = h a) :
    Chained h' l next := by
  induction l with
  | nil => trivial
  | cons c l ih =>
    simp only [addrs, List.map_cons, List.mem_cons, forall_eq_or_imp] at heq
    exact ⟨heq.1.trans hl.1, ih hl.2 heq.2⟩

/-- Cells outside of a chain can change. -/
theorem Chained.update (hl : Chained h l next) (ha : a ∉ addrs l) (n : Option (Node V)) :
    Chained (Function.update h a n) l next := by
  refine hl.congr fun b hb => ?_
  have hne : b ≠ a := fun he => ha (he ▸ hb)
  exact Function.update_of_ne hne _ _

theorem Chained.get (hl : Chained h (l ++ c :: r) next) :
    h c.addr = some ⟨first r next, c.payload⟩ := (chained_append.mp hl).2.1

/-- The last cell of a chain is made to point elsewhere. -/
theorem Chained.setNext_last (hl : Chained h (l ++ [c]) next) (hc : c.addr ∉ addrs l)
    (x : Option ℕ) : ∃ n, setNext h c.addr x = some (Function.update h c.addr (some n)) ∧
      Chained (Function.update h c.addr (some n)) (l ++ [c]) x := by
  have hget := hl.get
  obtain ⟨hleft, -⟩ := chained_append.mp hl
  refine ⟨⟨x, c.payload⟩, by rw [setNext, hget, Option.map_some], chained_append.mpr ⟨?_, ?_, trivial⟩⟩
  · exact hleft.update hc _
  · exact Function.update_self _ _ _

/-- A new cell `d` behind the cell `c`: its own pointer is written, then that of `c`. -/
theorem Chained.insert (hl : Chained h (l ++ c :: r) none) (hd : (addrs (l ++ c :: r)).Nodup)
    {d : Cell V} (hnew : d.addr ∉ addrs (l ++ c :: r))
    (hget : h d.addr = some ⟨first r none, d.payload⟩) : ∃ n,
    setNext h c.addr (some d.addr) = some (Function.update h c.addr (some n)) ∧
      Chained (Function.update h c.addr (some n)) (l ++ c :: d :: r) none := by
  have hsplit : l ++ c :: r = (l ++ [c]) ++ r := by simp
  simp only [addrs, hsplit, List.map_append] at hd hnew
  rw [hsplit] at hl
  obtain ⟨hleft, hright⟩ := chained_append.mp hl
  obtain ⟨hdl, -, hdisj⟩ := List.nodup_append.mp hd
  have hc : c.addr ∉ addrs l := fun hm =>
    (List.nodup_append.mp hdl).2.2 _ hm _ (List.mem_singleton_self _) rfl
  have hcr : c.addr ∉ addrs r := fun hm => hdisj _ (by simp) _ hm rfl
  have hdc : d.addr ≠ c.addr := fun he => hnew (by simp [he])
  obtain ⟨n, hset, hleft'⟩ := hleft.setNext_last hc (some d.addr)
  refine ⟨n, hset, ?_⟩
  rw [show l ++ c :: d :: r = (l ++ [c]) ++ d :: r by simp]
  refine chained_append.mpr ⟨hleft', ?_, hright.update hcr _⟩
  rw [Function.update_of_ne hdc]
  exact hget

end Nachos.LinkedChains
