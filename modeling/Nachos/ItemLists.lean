import Nachos.LinkedChains
import Nachos.InterruptQueue
import Mathlib.Data.List.TakeWhile

/-!
# The lists of `threads/list.cc`

A singly linked list with a pointer to its first and one to its last element. Elements are
allocated one by one; a call that makes one is given the address that `new` returns, which
can be any address where nothing is allocated. The rest of the heap may hold anything.
`none` as a list is a null or invalid pointer that was followed.

What a list is for is a sequence of items with their keys. `seqCall` says what the calls do
to it; `SortedInsert` puts an item before the first one with a greater key.
-/
namespace Nachos.ItemLists
open GuardedRuns LinkedChains
open LinkedCells (Cell addrs first last first_append last_append_singleton last_append_cons
  last_cons_mem)

structure Entry (α : Type) where
  item : α
  key : ℤ
  deriving DecidableEq, Repr

/-- `made` counts the elements that were allocated for the list, which bounds the turns of a
loop through it. -/
structure ItemList (α : Type) where
  heap : Heap (Entry α)
  made : ℕ
  first : Option ℕ
  last : Option ℕ

variable {α : Type}

namespace ItemList

def create (heap : Heap (Entry α)) : ItemList α := ⟨heap, 0, none, none⟩

def isEmpty (l : ItemList α) : Bool := l.first.isNone

/-- `new ListElement(item, sortKey)` -/
def newElement (l : ItemList α) (element : ℕ) (item : α) (sortKey : ℤ) : ItemList α :=
  { l with
    heap := Function.update l.heap element (some ⟨none, ⟨item, sortKey⟩⟩)
    made := l.made + 1 }

def setBoth (l : ItemList α) (element : ℕ) : ItemList α :=
  { l with first := some element, last := some element }

/-- `last->next = element; last = element` -/
def putLast (l : ItemList α) (element : ℕ) : Option (ItemList α) := do
  let t ← l.last
  let h ← setNext l.heap t (some element)
  some { l with heap := h, last := some element }

/-- `element->next = first; first = element` -/
def putFirst (l : ItemList α) (element : ℕ) : Option (ItemList α) := do
  let h ← setNext l.heap element l.first
  some { l with heap := h, first := some element }

def append (l : ItemList α) (element : ℕ) (item : α) : Option (ItemList α) :=
  let l := l.newElement element item 0
  if l.isEmpty then some (l.setBoth element) else l.putLast element

def prepend (l : ItemList α) (element : ℕ) (item : α) : Option (ItemList α) :=
  let l := l.newElement element item 0
  if l.isEmpty then some (l.setBoth element) else l.putFirst element

/-- The loop of `SortedInsert` from `ptr` on, and what follows it. -/
def insertLoop (l : ItemList α) (element : ℕ) (sortKey : ℤ) : ℕ → ℕ → Option (ItemList α)
  | 0, _ => none
  | fuel + 1, ptr => do
    let n ← l.heap ptr
    match n.next with
    | none => l.putLast element
    | some x =>
      let m ← l.heap x
      if sortKey < m.payload.key then
        let h ← setNext l.heap element (some x)
        let h ← setNext h ptr (some element)
        some { l with heap := h }
      else l.insertLoop element sortKey fuel x

def sortedInsert (l : ItemList α) (element : ℕ) (item : α) (sortKey : ℤ) : Option (ItemList α) :=
  let l := l.newElement element item sortKey
  match l.first with
  | none => some (l.setBoth element)
  | some f => do
    let n ← l.heap f
    if sortKey < n.payload.key then l.putFirst element
    else l.insertLoop element sortKey l.made f

/-- The item and the key of the removed element; `none` is the null pointer for an empty list. -/
def sortedRemove (l : ItemList α) : Option (Option (Entry α) × ItemList α) :=
  match l.first with
  | none => some (none, l)
  | some element => do
    let n ← l.heap element
    let l := if l.first = l.last then { l with first := none, last := none }
      else { l with first := n.next }
    some (some n.payload, { l with heap := Function.update l.heap element none })

def remove (l : ItemList α) : Option (Option α × ItemList α) :=
  l.sortedRemove.map fun r => (r.1.map Entry.item, r.2)

end ItemList

inductive Call (α : Type) where
  | append (element : ℕ) (item : α)
  | prepend (element : ℕ) (item : α)
  | remove
  | sortedInsert (element : ℕ) (item : α) (sortKey : ℤ)
  | sortedRemove
  deriving DecidableEq, Repr

inductive Answer (α : Type) where
  | done
  | item (x : Option α)
  | entry (e : Option (Entry α))
  deriving DecidableEq, Repr

def ItemList.call (l : ItemList α) : Call α → Option (Answer α × ItemList α)
  | .append element item => (l.append element item).map fun l => (.done, l)
  | .prepend element item => (l.prepend element item).map fun l => (.done, l)
  | .remove => l.remove.map fun r => (.item r.1, r.2)
  | .sortedInsert element item sortKey =>
    (l.sortedInsert element item sortKey).map fun l => (.done, l)
  | .sortedRemove => l.sortedRemove.map fun r => (.entry r.1, r.2)

/-- A call with its answer. -/
def Step (l : ItemList α) (c : Call α × Answer α) (l' : ItemList α) : Prop :=
  l.call c.1 = some (c.2, l')

/-- The element that a call allocates. -/
def Call.element : Call α → Option ℕ
  | .append element _ => some element
  | .prepend element _ => some element
  | .sortedInsert element _ _ => some element
  | .remove => none
  | .sortedRemove => none

/-- `new` returns an address where nothing is allocated. -/
def Allocates (l : ItemList α) (c : Call α) : Prop := ∀ a, c.element = some a → l.heap a = none

/-- Before the first entry with a greater key, at the end if there is none. -/
def insertSorted (e : Entry α) (s : List (Entry α)) : List (Entry α) :=
  s.takeWhile (fun d => d.key ≤ e.key) ++ e :: s.dropWhile (fun d => d.key ≤ e.key)

/-- What the calls do to a sequence of entries. -/
def seqCall (s : List (Entry α)) : Call α → Answer α × List (Entry α)
  | .append _ item => (.done, s ++ [⟨item, 0⟩])
  | .prepend _ item => (.done, ⟨item, 0⟩ :: s)
  | .remove => (.item (s.head?.map Entry.item), s.tail)
  | .sortedInsert _ item sortKey => (.done, insertSorted ⟨item, sortKey⟩ s)
  | .sortedRemove => (.entry s.head?, s.tail)

/-- The cells from `first` on carry the sequence, and `last` is the address of the last one. -/
structure Rep (l : ItemList α) (cells : List (Cell (Entry α))) : Prop where
  first : l.first = first cells none
  last : l.last = last none cells
  chained : Chained l.heap cells none
  nodup : (addrs cells).Nodup
  length : cells.length ≤ l.made

/-- A call changes the cells of the list and the one it allocates, and no other one gets into
the list. -/
structure Frame (l l' : ItemList α) (cells cells' : List (Cell (Entry α))) (c : Call α) : Prop where
  heap : ∀ a ∉ addrs cells, c.element ≠ some a → l'.heap a = l.heap a
  addrs : ∀ a ∈ addrs cells', a ∈ addrs cells ∨ c.element = some a

section calls
variable {l : ItemList α} {cells pre post : List (Cell (Entry α))} {c d : Cell (Entry α)}

theorem create_rep (heap : Heap (Entry α)) : Rep (ItemList.create heap) [] :=
  ⟨rfl, rfl, trivial, List.nodup_nil, le_rfl⟩

/-- A list and an element `d` that is allocated and not in the list yet; it points to `next`. -/
structure Loose (l : ItemList α) (cells : List (Cell (Entry α))) (d : Cell (Entry α))
    (next : Option ℕ) : Prop where
  rep : Rep l cells
  get : l.heap d.addr = some ⟨next, d.payload⟩
  notMem : d.addr ∉ addrs cells
  room : cells.length < l.made

theorem Rep.newElement (h : Rep l cells) {element : ℕ} (hnew : l.heap element = none) (item : α)
    (sortKey : ℤ) :
    Loose (l.newElement element item sortKey) cells ⟨element, ⟨item, sortKey⟩⟩ none := by
  have hmem : element ∉ addrs cells := by
    intro hm
    obtain ⟨c, hc, rfl⟩ := List.mem_map.mp hm
    obtain ⟨pre, post, rfl⟩ := List.append_of_mem hc
    rw [h.chained.get] at hnew
    cases hnew
  exact ⟨⟨h.first, h.last, h.chained.update hmem _, h.nodup, h.length.trans (Nat.le_succ _)⟩,
    Function.update_self _ _ _, hmem, Nat.lt_succ_of_le h.length⟩

/-- The result of linking `d`, with all other cells as they were. -/
def Links (l : ItemList α) (d : Cell (Entry α)) (old new : List (Cell (Entry α)))
    (r : Option (ItemList α)) : Prop :=
  ∃ l', r = some l' ∧ Rep l' new ∧ ∀ a ∉ addrs old, a ≠ d.addr → l'.heap a = l.heap a

theorem Loose.nodup {next : Option ℕ} (h : Loose l cells d next) : (addrs (d :: cells)).Nodup :=
  List.nodup_cons.mpr ⟨h.notMem, h.rep.nodup⟩

theorem Loose.setBoth (h : Loose l [] d none) : Links l d [] [d] (some (l.setBoth d.addr)) :=
  ⟨_, rfl, ⟨rfl, rfl, ⟨h.get, trivial⟩, List.nodup_singleton _, h.room⟩, fun _ _ _ => rfl⟩

/-- The pointer of the element is written; the list does not change. -/
theorem Loose.setNext {next : Option ℕ} (h : Loose l cells d next) (x : Option ℕ) : ∃ h',
    setNext l.heap d.addr x = some h' ∧ Loose { l with heap := h' } cells d x ∧
      ∀ a ≠ d.addr, h' a = l.heap a := by
  refine ⟨Function.update l.heap d.addr (some ⟨x, d.payload⟩), ?_, ⟨⟨h.rep.first, h.rep.last,
    h.rep.chained.update h.notMem _, h.rep.nodup, h.rep.length⟩, Function.update_self _ _ _, h.notMem,
    h.room⟩, fun a ha => Function.update_of_ne ha _ _⟩
  rw [LinkedChains.setNext, h.get, Option.map_some]

theorem Loose.putFirst (h : Loose l cells d none) (hne : cells ≠ []) :
    Links l d cells (d :: cells) (l.putFirst d.addr) := by
  obtain ⟨h', hset, h₁, hframe⟩ := h.setNext l.first
  refine ⟨{ l with heap := h', first := some d.addr }, ?_, ⟨rfl, ?_, ⟨?_, h₁.rep.chained⟩, h.nodup,
    h.room⟩, fun a _ ha => hframe a ha⟩
  · simp only [ItemList.putFirst, hset, Option.bind_eq_bind, Option.bind_some]
  · obtain ⟨c, rest, rfl⟩ := List.exists_cons_of_ne_nil hne
    exact h.rep.last
  · rw [← h.rep.first]
    exact h₁.get

theorem addrs_insert_perm (pre post : List (Cell (Entry α))) (c d : Cell (Entry α)) :
    (addrs (pre ++ c :: d :: post)).Perm (addrs (d :: (pre ++ c :: post))) := by
  refine List.Perm.map _ ?_
  rw [show pre ++ c :: d :: post = (pre ++ [c]) ++ d :: post by simp,
    show pre ++ c :: post = (pre ++ [c]) ++ post by simp]
  exact List.perm_middle

/-- `d` is linked behind the cell `c` by writing the pointer of `c`. -/
theorem Loose.link (h : Loose l (pre ++ c :: post) d (first post none)) : ∃ h',
    LinkedChains.setNext l.heap c.addr (some d.addr) = some h' ∧
      Chained h' (pre ++ c :: d :: post) none ∧ (addrs (pre ++ c :: d :: post)).Nodup ∧
      (pre ++ c :: d :: post).length ≤ l.made ∧
      ∀ a ∉ addrs (pre ++ c :: post), h' a = l.heap a := by
  obtain ⟨n, hset, hchain⟩ := h.rep.chained.insert h.rep.nodup h.notMem h.get
  refine ⟨_, hset, hchain, (addrs_insert_perm pre post c d).nodup_iff.mpr h.nodup, ?_, ?_⟩
  · have := h.room
    simp only [List.length_append, List.length_cons] at *
    omega
  · intro a ha
    have hne : a ≠ c.addr := by
      rintro rfl
      exact ha (by simp [addrs])
    exact Function.update_of_ne hne _ _

theorem Loose.putLast (h : Loose l (pre ++ [c]) d none) :
    Links l d (pre ++ [c]) (pre ++ [c, d]) (l.putLast d.addr) := by
  obtain ⟨h', hset, hchain, hnodup, hlength, hframe⟩ := h.link
  have hlast : l.last = some c.addr := by rw [h.rep.last, last_append_singleton]
  refine ⟨{ l with heap := h', last := some d.addr }, ?_, ⟨?_, ?_, hchain, hnodup, hlength⟩,
    fun a ha _ => hframe a ha⟩
  · simp only [ItemList.putLast, hlast, hset, Option.bind_eq_bind, Option.bind_some]
  · refine h.rep.first.trans ?_
    rw [first_append, first_append]
    rfl
  · rw [show pre ++ [c, d] = (pre ++ [c]) ++ [d] by simp, last_append_singleton]

/-- The cells with `d` before the first one with a greater key. -/
def insertCell (d : Cell (Entry α)) (cells : List (Cell (Entry α))) : List (Cell (Entry α)) :=
  cells.takeWhile (fun c => c.payload.key ≤ d.payload.key) ++
    d :: cells.dropWhile (fun c => c.payload.key ≤ d.payload.key)

theorem insertCell_payload (d : Cell (Entry α)) (cells : List (Cell (Entry α))) :
    (insertCell d cells).map Cell.payload = insertSorted d.payload (cells.map Cell.payload) := by
  rw [insertSorted, List.takeWhile_map, List.dropWhile_map, insertCell, List.map_append,
    List.map_cons]
  rfl

theorem mem_addrs_insertCell {a : ℕ} (h : a ∈ addrs (insertCell d cells)) :
    a ∈ addrs cells ∨ a = d.addr := by
  have hperm : (insertCell d cells).Perm (d :: cells) := by
    rw [insertCell]
    refine List.perm_middle.trans ?_
    rw [List.takeWhile_append_dropWhile]
  rcases List.mem_cons.mp ((hperm.map Cell.addr).mem_iff.mp h) with h | h
  · exact Or.inr h
  · exact Or.inl h

theorem insertCell_of_lt (h : d.payload.key < c.payload.key) :
    insertCell d (c :: cells) = d :: c :: cells := by
  simp [insertCell, h]

theorem insertCell_of_le (h : ¬d.payload.key < c.payload.key) :
    insertCell d (c :: cells) = c :: insertCell d cells := by
  simp [insertCell, not_lt.mp h]

/-- The loop is at the cell `c`, whose key is not greater. Induction is on the cells behind it. -/
theorem Loose.insertLoop {fuel : ℕ} (pre : List (Cell (Entry α))) (h : Loose l (pre ++ c :: post) d none)
    (hfuel : post.length < fuel) :
    Links l d (pre ++ c :: post) (pre ++ c :: insertCell d post)
      (l.insertLoop d.addr d.payload.key fuel c.addr) := by
  induction post generalizing pre c fuel with
  | nil =>
    obtain ⟨fuel, rfl⟩ := Nat.exists_eq_succ_of_ne_zero (Nat.ne_zero_of_lt hfuel)
    simp only [ItemList.insertLoop, h.rep.chained.get, Option.bind_eq_bind, Option.bind_some]
    exact h.putLast
  | cons x post ih =>
    obtain ⟨fuel, rfl⟩ := Nat.exists_eq_succ_of_ne_zero (Nat.ne_zero_of_lt hfuel)
    have hx : l.heap x.addr = some ⟨first post none, x.payload⟩ := by
      have hchain := h.rep.chained
      rw [show pre ++ c :: x :: post = (pre ++ [c]) ++ x :: post by simp] at hchain
      exact hchain.get
    simp only [ItemList.insertLoop, h.rep.chained.get, hx, LinkedCells.first_cons,
      Option.bind_eq_bind, Option.bind_some]
    split_ifs with hkey
    · obtain ⟨h₁, hset₁, hloose, hframe₁⟩ := h.setNext (some x.addr)
      obtain ⟨h₂, hset₂, hchain, hnodup, hlength, hframe₂⟩ := hloose.link
      rw [insertCell_of_lt hkey]
      refine ⟨{ l with heap := h₂ }, ?_, ⟨?_, ?_, hchain, hnodup, hlength⟩, fun a ha hd => ?_⟩
      · simp only [hset₁, hset₂, Option.bind_some]
      · refine h.rep.first.trans ?_
        rw [first_append, first_append]
        rfl
      · refine h.rep.last.trans ?_
        rw [last_append_cons, last_append_cons]
        rfl
      · exact (hframe₂ a ha).trans (hframe₁ a hd)
    · rw [insertCell_of_le hkey, show pre ++ c :: x :: post = (pre ++ [c]) ++ x :: post by simp,
        show pre ++ c :: x :: insertCell d post = (pre ++ [c]) ++ x :: insertCell d post by simp]
      rw [show pre ++ c :: x :: post = (pre ++ [c]) ++ x :: post by simp] at h
      exact ih (pre ++ [c]) h (by simpa using hfuel)

theorem Loose.isEmpty {next : Option ℕ} (h : Loose l cells d next) :
    l.isEmpty = cells.isEmpty := by
  rw [ItemList.isEmpty, h.rep.first]
  cases cells <;> rfl

theorem Loose.append (h : Loose l cells d none) : Links l d cells (cells ++ [d])
    (if l.isEmpty then some (l.setBoth d.addr) else l.putLast d.addr) := by
  rw [h.isEmpty]
  rcases List.eq_nil_or_concat' cells with rfl | ⟨pre, c, rfl⟩
  · exact h.setBoth
  · rw [if_neg (by simp), List.append_assoc]
    exact h.putLast

theorem Loose.prepend (h : Loose l cells d none) : Links l d cells (d :: cells)
    (if l.isEmpty then some (l.setBoth d.addr) else l.putFirst d.addr) := by
  rw [h.isEmpty]
  cases cells with
  | nil => exact h.setBoth
  | cons c rest => exact h.putFirst (by simp)

theorem Loose.sortedInsert (h : Loose l cells d none) : Links l d cells (insertCell d cells)
    (match l.first with
      | none => some (l.setBoth d.addr)
      | some f => do
        let n ← l.heap f
        if d.payload.key < n.payload.key then l.putFirst d.addr
        else l.insertLoop d.addr d.payload.key l.made f) := by
  rw [h.rep.first]
  cases cells with
  | nil => exact h.setBoth
  | cons c rest =>
    simp only [LinkedCells.first_cons, h.rep.chained.1, Option.bind_eq_bind, Option.bind_some]
    split_ifs with hkey
    · rw [insertCell_of_lt hkey]
      exact h.putFirst (by simp)
    · rw [insertCell_of_le hkey]
      have hroom := h.room
      exact Loose.insertLoop [] h (by simp only [List.length_cons] at hroom; omega)

/-- The last cell of two or more is not the first one. -/
theorem Rep.first_ne_last (h : Rep l (c :: d :: cells)) : l.first ≠ l.last := by
  obtain ⟨a, ha, heq⟩ := last_cons_mem (some c.addr) d cells
  rw [h.first, h.last]
  intro hfirst
  obtain rfl := Option.some.inj (hfirst.trans heq)
  exact (List.nodup_cons.mp h.nodup).1 ha

theorem Rep.sortedRemove (h : Rep l cells) : ∃ l',
    l.sortedRemove = some (cells.head?.map Cell.payload, l') ∧ Rep l' cells.tail ∧
      ∀ a ∉ addrs cells, l'.heap a = l.heap a := by
  have hframe : ∀ {c : Cell (Entry α)} {cells : List (Cell (Entry α))} (a : ℕ), a ∉ addrs (c :: cells) →
      Function.update l.heap c.addr none a = l.heap a := by
    intro c cells a ha
    have hne : a ≠ c.addr := by
      rintro rfl
      exact ha (by simp [addrs])
    exact Function.update_of_ne hne _ _
  match cells, h with
  | [], h =>
    refine ⟨l, ?_, h, fun a _ => rfl⟩
    rw [ItemList.sortedRemove, h.first]
    rfl
  | [c], h =>
    refine ⟨{ l with first := none, last := none, heap := Function.update l.heap c.addr none }, ?_,
      ⟨rfl, rfl, trivial, List.nodup_nil, Nat.zero_le _⟩, hframe⟩
    have hsame : l.first = l.last := h.first.trans h.last.symm
    simp only [ItemList.sortedRemove, if_pos hsame]
    rw [h.first]
    simp only [LinkedCells.first_cons, h.chained.1, Option.bind_eq_bind, Option.bind_some]
    rfl
  | c :: d :: rest, h =>
    have hnodup := List.nodup_cons.mp h.nodup
    refine ⟨{ l with
        first := some d.addr
        heap := Function.update l.heap c.addr none }, ?_,
      ⟨rfl, h.last, h.chained.2.update hnodup.1 _, hnodup.2, (Nat.le_succ _).trans h.length⟩, hframe⟩
    simp only [ItemList.sortedRemove, if_neg h.first_ne_last]
    rw [h.first]
    simp only [LinkedCells.first_cons, h.chained.1, Option.bind_eq_bind, Option.bind_some]
    rfl

/-- One call: it returns, with the answer and the effect that it has on the sequence. -/
theorem Rep.call (h : Rep l cells) {c : Call α} (hnew : Allocates l c) : ∃ l' cells',
    l.call c = some ((seqCall (cells.map Cell.payload) c).1, l') ∧ Rep l' cells' ∧
      cells'.map Cell.payload = (seqCall (cells.map Cell.payload) c).2 ∧
      Frame l l' cells cells' c := by
  have hlinked : ∀ {element : ℕ} {item : α} {key : ℤ} {new : List (Cell (Entry α))}
      {r : Option (ItemList α)}, c.element = some element →
      Links (l.newElement element item key) ⟨element, ⟨item, key⟩⟩ cells new r →
      (∀ a ∈ addrs new, a ∈ addrs cells ∨ a = element) →
      ∃ l', r = some l' ∧ Rep l' new ∧ Frame l l' cells new c := by
    rintro element item key new r helement ⟨l', hr, hrep, hframe⟩ haddrs
    refine ⟨l', hr, hrep, fun a ha hne => ?_, fun a ha => ?_⟩
    · have hne : a ≠ element := fun he => hne (he ▸ helement)
      exact (hframe a ha hne).trans (Function.update_of_ne hne _ _)
    · rcases haddrs a ha with hmem | rfl
      · exact Or.inl hmem
      · exact Or.inr helement
  cases c with
  | append element item =>
    obtain ⟨l', hr, hrep, hframe⟩ := hlinked rfl (h.newElement (hnew element rfl) item 0).append
      (by simp [addrs, or_comm])
    exact ⟨l', _, congrArg (Option.map _) hr, hrep, by simp [seqCall], hframe⟩
  | prepend element item =>
    obtain ⟨l', hr, hrep, hframe⟩ := hlinked rfl (h.newElement (hnew element rfl) item 0).prepend
      (by simp [addrs, or_comm])
    exact ⟨l', _, congrArg (Option.map _) hr, hrep, by simp [seqCall], hframe⟩
  | sortedInsert element item key =>
    obtain ⟨l', hr, hrep, hframe⟩ := hlinked rfl
      (h.newElement (hnew element rfl) item key).sortedInsert fun a ha => mem_addrs_insertCell ha
    exact ⟨l', _, congrArg (Option.map _) hr, hrep, insertCell_payload _ _, hframe⟩
  | remove =>
    obtain ⟨l', hr, hrep, hframe⟩ := h.sortedRemove
    refine ⟨l', cells.tail, ?_, hrep, List.map_tail, fun a ha _ => hframe a ha,
      fun a ha => Or.inl (List.map_tail ▸ ha |> List.mem_of_mem_tail)⟩
    rw [ItemList.call, ItemList.remove, hr, seqCall, List.head?_map]
    rfl
  | sortedRemove =>
    obtain ⟨l', hr, hrep, hframe⟩ := h.sortedRemove
    refine ⟨l', cells.tail, ?_, hrep, List.map_tail, fun a ha _ => hframe a ha,
      fun a ha => Or.inl (List.map_tail ▸ ha |> List.mem_of_mem_tail)⟩
    rw [ItemList.call, hr, seqCall, List.head?_map]
    rfl

end calls

/-! ### Sorted sequences -/

abbrev Sorted (s : List (Entry α)) : Prop := s.Pairwise fun d e => d.key ≤ e.key

/-- The entries with one key, in their order. -/
def withKey (k : ℤ) (s : List (Entry α)) : List (Entry α) := s.filter fun e => e.key = k

section sorted
variable {s : List (Entry α)} {e : Entry α}

theorem withKey_cons (k : ℤ) (e : Entry α) (s : List (Entry α)) :
    withKey k (e :: s) = withKey k [e] ++ withKey k s := by
  rw [← List.singleton_append]
  exact List.filter_append _ _

theorem lt_of_mem_dropWhile (hs : Sorted s) {d : Entry α}
    (hd : d ∈ s.dropWhile fun d => d.key ≤ e.key) : e.key < d.key := by
  induction s with
  | nil => cases hd
  | cons f s ih =>
    obtain ⟨hf, hs⟩ := List.pairwise_cons.mp hs
    by_cases hle : f.key ≤ e.key
    · rw [List.dropWhile_cons_of_pos (by simpa using hle)] at hd
      exact ih hs hd
    · rw [List.dropWhile_cons_of_neg (by simpa using hle)] at hd
      rcases List.mem_cons.mp hd with rfl | hd
      · exact not_le.mp hle
      · exact (not_le.mp hle).trans_le (hf d hd)

theorem Sorted.insertSorted (hs : Sorted s) (e : Entry α) : Sorted (insertSorted e s) := by
  have hparts := hs
  rw [← List.takeWhile_append_dropWhile (p := fun d : Entry α => decide (d.key ≤ e.key)) (l := s)]
    at hparts
  obtain ⟨hleft, hright, hcross⟩ := List.pairwise_append.mp hparts
  have hle : ∀ d ∈ s.takeWhile (fun d => d.key ≤ e.key), d.key ≤ e.key := by
    intro d hd
    simpa using List.mem_takeWhile_imp hd
  refine List.pairwise_append.mpr ⟨hleft, List.pairwise_cons.mpr ⟨fun d hd => ?_, hright⟩, ?_⟩
  · exact (lt_of_mem_dropWhile hs hd).le
  · intro d hd f hf
    rcases List.mem_cons.mp hf with rfl | hf
    · exact hle d hd
    · exact hcross d hd f hf

/-- Among the entries with its key the new one is the last. -/
theorem withKey_insertSorted (hs : Sorted s) (e : Entry α) (k : ℤ) :
    withKey k (insertSorted e s) = withKey k s ++ withKey k [e] := by
  have hsplit : withKey k s = withKey k (s.takeWhile fun d => d.key ≤ e.key) ++
      withKey k (s.dropWhile fun d => d.key ≤ e.key) := by
    rw [withKey, withKey, withKey, ← List.filter_append, List.takeWhile_append_dropWhile]
  have hcons : withKey k (insertSorted e s) = withKey k (s.takeWhile fun d => d.key ≤ e.key) ++
      (withKey k [e] ++ withKey k (s.dropWhile fun d => d.key ≤ e.key)) := by
    rw [insertSorted, ← List.singleton_append]
    simp only [withKey, List.filter_append]
  by_cases hk : e.key = k
  · have hnone : withKey k (s.dropWhile fun d => d.key ≤ e.key) = [] := by
      refine List.filter_eq_nil_iff.mpr fun d hd => ?_
      have := lt_of_mem_dropWhile hs hd
      simp only [decide_eq_true_eq]
      omega
    rw [hcons, hsplit, hnone, List.append_nil, List.append_nil]
  · have hnone : withKey k [e] = [] := by simp [withKey, hk]
    rw [hcons, hsplit, hnone, List.nil_append, List.append_nil]

end sorted

/-- The pending interrupts are kept in such a list, with the time they are due as the key. -/
theorem interruptQueue_sortedInsert (p : InterruptQueue.PendingInterrupt)
    (l : List InterruptQueue.PendingInterrupt) :
    (InterruptQueue.sortedInsert p l).map (fun q => (⟨q, q.when⟩ : Entry _)) =
      insertSorted ⟨p, p.when⟩ (l.map fun q => ⟨q, q.when⟩) := by
  induction l with
  | nil => rfl
  | cons q l ih =>
    rw [InterruptQueue.sortedInsert]
    split_ifs with h
    · simp [insertSorted, h]
    · rw [List.map_cons, ih]
      simp [insertSorted, not_lt.mp h]

/-! ### Runs -/

/-- The list shows a sequence: following `next` from `first` visits its entries, `first` is null
for the empty sequence only, and otherwise `last` is the element that is visited last. -/
def Shows (l : ItemList α) (s : List (Entry α)) : Prop :=
  ∃ cells : List (Cell (Entry α)), cells.map Cell.payload = s ∧ Visits l.heap l.first cells ∧
    (l.first = none ↔ s = []) ∧ ∀ c, cells.getLast? = some c → l.last = some c.addr

theorem Rep.shows {l : ItemList α} {cells : List (Cell (Entry α))} (h : Rep l cells) :
    Shows l (cells.map Cell.payload) := by
  refine ⟨cells, rfl, ?_, ?_, fun c hc => ?_⟩
  · rw [h.first]
    exact h.chained.visits
  · rw [h.first]
    cases cells <;> simp
  · obtain ⟨pre, rfl⟩ := List.getLast?_eq_some_iff.mp hc
    rw [h.last, last_append_singleton]

/-- A call of the sorted use of a list. -/
def Call.IsSorted : Call α → Prop
  | .sortedInsert _ _ _ => True
  | .sortedRemove => True
  | _ => False

def SeqStep (s : List (Entry α)) (c : Call α × Answer α) (s' : List (Entry α)) : Prop :=
  seqCall s c.1 = (c.2, s')

/-- The entries that were inserted, and those that were removed, by calls of the sorted use. -/
def inserted (calls : List (Call α × Answer α)) : List (Entry α) :=
  calls.filterMap fun c =>
    match c.1 with
    | .sortedInsert _ item key => some ⟨item, key⟩
    | _ => none

def removed (calls : List (Call α × Answer α)) : List (Entry α) :=
  calls.filterMap fun c =>
    match c.2 with
    | .entry e => e
    | _ => none

/-- What the sorted use of a list keeps: the order, and for every key the order of insertion. -/
theorem sorted_run {calls : List (Call α × Answer α)} {s s' : List (Entry α)} (hs : Sorted s)
    (hrun : Run SeqStep Free s calls s') (hcalls : ∀ c ∈ calls, c.1.IsSorted) :
    Sorted s' ∧ ∀ k, withKey k (removed calls) ++ withKey k s' =
      withKey k s ++ withKey k (inserted calls) := by
  induction hrun with
  | nil s => exact ⟨hs, fun k => by simp [removed, inserted, withKey]⟩
  | @cons s t u c cs _ hst _ ih =>
    obtain ⟨hc, hcs⟩ := List.forall_mem_cons.mp hcalls
    obtain ⟨c, a⟩ := c
    cases c with
    | append _ _ => exact hc.elim
    | prepend _ _ => exact hc.elim
    | remove => exact hc.elim
    | sortedInsert element item key =>
      obtain ⟨rfl, rfl⟩ := Prod.mk.inj hst
      obtain ⟨hsorted, hkeys⟩ := ih (hs.insertSorted _) hcs
      refine ⟨hsorted, fun k => ?_⟩
      have hk := hkeys k
      rw [withKey_insertSorted hs, List.append_assoc] at hk
      exact hk.trans (congrArg (withKey k s ++ ·) (withKey_cons k _ (inserted cs)).symm)
    | sortedRemove =>
      obtain ⟨rfl, rfl⟩ := Prod.mk.inj hst
      obtain ⟨hsorted, hkeys⟩ := ih hs.tail hcs
      refine ⟨hsorted, fun k => ?_⟩
      have hk := hkeys k
      cases s with
      | nil => exact hk
      | cons e s =>
        have hremoved : removed ((.sortedRemove, .entry (some e)) :: cs) = e :: removed cs := rfl
        rw [List.head?_cons, hremoved, withKey_cons, withKey_cons k e s, List.append_assoc,
          List.append_assoc]
        exact congrArg (withKey k [e] ++ ·) hk

/-- What holds of a list on a heap that had other things in it. -/
structure Refines (heap : Heap (Entry α)) (l : ItemList α) (s : List (Entry α))
    (cells : List (Cell (Entry α))) : Prop where
  payload : cells.map Cell.payload = s
  rep : Rep l cells
  others : ∀ a n, heap a = some n → l.heap a = some n ∧ a ∉ addrs cells

theorem Refines.step {heap : Heap (Entry α)} {l l' : ItemList α} {s : List (Entry α)}
    {cells : List (Cell (Entry α))} {c : Call α × Answer α} (h : Refines heap l s cells)
    (hnew : Allocates l c.1) (hstep : Step l c l') :
    ∃ s', SeqStep s c s' ∧ ∃ cells', Refines heap l' s' cells' := by
  obtain ⟨rfl, hrep, hothers⟩ := h
  obtain ⟨l₁, cells', hcall, hrep', hpayload, hframe⟩ := hrep.call hnew
  obtain ⟨ha, rfl⟩ := Prod.mk.inj (Option.some.inj (hcall.symm.trans hstep))
  refine ⟨_, Prod.ext ha rfl, cells', hpayload, hrep', fun a n hn => ?_⟩
  obtain ⟨hl, hmem⟩ := hothers a n hn
  have helement : c.1.element ≠ some a := by
    intro he
    rw [hnew a he] at hl
    cases hl
  exact ⟨(hframe.heap a hmem helement).trans hl, fun h => (hframe.addrs a h).elim hmem helement⟩

/-- A list refines a sequence: in every state that is reached the list shows the sequence that
the calls make with the answers they gave, every further call returns, and what else was in the
heap is still there. A list that is only used through `SortedInsert` and `SortedRemove` is
sorted, and for every key the entries removed and those still there are, in this order, the
entries inserted. -/
theorem list_is_sequence {heap : Heap (Entry α)} {calls : List (Call α × Answer α)}
    {l : ItemList α}
    (hrun : Run Step (fun l c => Allocates l c.1) (ItemList.create heap) calls l) :
    ∃ s, Shows l s ∧ Run SeqStep Free [] calls s ∧
      (∀ c, Allocates l c → ∃ a l', Step l (c, a) l') ∧
      (∀ a n, heap a = some n → l.heap a = some n) ∧
      ((∀ c ∈ calls, c.1.IsSorted) →
        Sorted s ∧ ∀ k, withKey k (removed calls) ++ withKey k s = withKey k (inserted calls)) := by
  obtain ⟨s, hseq, cells, rfl, hrep, hothers⟩ : ∃ s, Run SeqStep Free [] calls s ∧
      ∃ cells, Refines heap l s cells := by
    refine hrun.simulation (R := fun l s => ∃ cells, Refines heap l s cells)
      ⟨[], rfl, create_rep heap, fun a n hn => ⟨hn, by simp [addrs]⟩⟩ ?_
    rintro l c l' s ⟨cells, h⟩ hnew hstep
    exact h.step hnew hstep
  refine ⟨_, hrep.shows, hseq, fun c hc => ?_, fun a n hn => (hothers a n hn).1, fun hcalls => ?_⟩
  · obtain ⟨l', -, hcall, -⟩ := hrep.call hc
    exact ⟨_, l', hcall⟩
  · obtain ⟨hsorted, hkeys⟩ := sorted_run List.Pairwise.nil hseq hcalls
    exact ⟨hsorted, fun k => (hkeys k).trans (by simp [withKey])⟩

def sampleCalls : List (Call ℕ × Answer ℕ) :=
  [(.sortedInsert 0 7 5, .done), (.sortedInsert 1 8 3, .done), (.sortedInsert 2 9 5, .done),
    (.sortedRemove, .entry (some ⟨8, 3⟩)), (.sortedInsert 1 6 4, .done)]

theorem allocates_of_all {l : ItemList α} {c : Call α}
    (h : (c.element.all fun a => (l.heap a).isNone) = true) : Allocates l c := by
  intro a ha
  rw [ha] at h
  exact Option.isNone_iff_eq_none.mp h

theorem sampleCalls_run : ∃ l, Run Step (fun l c => Allocates l c.1)
    (ItemList.create fun _ => none) sampleCalls l :=
  ⟨_, .cons (allocates_of_all rfl) rfl (.cons (allocates_of_all rfl) rfl
    (.cons (allocates_of_all rfl) rfl (.cons (allocates_of_all rfl) rfl
      (.cons (allocates_of_all rfl) rfl (.nil _)))))⟩

/-- Two entries with the same key stay in the order in which they were inserted, and the address
of a deleted element is used again. -/
theorem list_is_sequence_equal_keys : ∃ l s,
    Run Step (fun l c => Allocates l c.1) (ItemList.create fun _ => none) sampleCalls l ∧
      Shows l s ∧ Sorted s ∧ withKey 5 s = [⟨7, 5⟩, ⟨9, 5⟩] := by
  obtain ⟨l, hrun⟩ := sampleCalls_run
  obtain ⟨s, hshows, -, -, -, hsorted⟩ := list_is_sequence hrun
  obtain ⟨hs, hkeys⟩ := hsorted (by simp [sampleCalls, Call.IsSorted])
  have hkey : withKey 5 (removed sampleCalls) = [] := by decide
  have hins : withKey 5 (inserted sampleCalls) = [⟨7, 5⟩, ⟨9, 5⟩] := by decide
  have h := hkeys 5
  rw [hkey, hins, List.nil_append] at h
  exact ⟨l, s, hrun, hshows, hs, h⟩

end Nachos.ItemLists
