import Nachos.LinkedCells

/-!
# The page-replacement list of `vm/VMManager.cc`

`LRU` is a doubly linked list of pages with their process ids, most recent
first. Pointers are addresses of a heap, `new` takes the next unused address
and `delete` makes an address invalid. Following a null or an invalid pointer
is `none`. The two loops follow `next` pointers; their fuel is the number of
nodes allocated so far, which a loop without a cycle cannot use up.

`removePage` compares nothing with the tail: its test is an assignment, so
after a removal `tail` is the successor of the last node removed.
-/
namespace Nachos.ReplacementList
open LinkedCells

/-- The fields `value` and `pid` of an `LRU_Node`. -/
structure Entry (V : Type) where
  value : V
  pid : ℤ

structure LRU (V : Type) where
  heap : Heap (Entry V)
  /-- the address that the next `new` returns -/
  fresh : ℕ
  head : Option ℕ
  tail : Option ℕ

variable {V : Type}

namespace LRU

def create : LRU V := ⟨fun _ => none, 0, none, none⟩

def getLRU (lru : LRU V) : Option V := do
  let t ← lru.tail
  let n ← lru.heap t
  some n.payload.value

def tailPid (lru : LRU V) : Option ℤ := do
  let t ← lru.tail
  let n ← lru.heap t
  some n.payload.pid

/-- The loop of `replace_head` from `current` on. -/
def replaceLoop (lru : LRU V) (node head : ℕ) : ℕ → Option ℕ → Option ℕ → Option (LRU V)
  | 0, _, _ => none
  | _ + 1, _, none => do
    let h ← setNext lru.heap node (some head)
    let h ← setPrev h node none
    let h ← setPrev h head (some node)
    some { lru with heap := h, head := some node }
  | fuel + 1, prev, some current => do
    let n ← lru.heap current
    if current = node then
      let h ← match prev with
        | some p => setNext lru.heap p n.next
        | none => some lru.heap
      let h ← match n.next with
        | some x => setPrev h x n.prev
        | none => some h
      let h ← setNext h current (some head)
      let h ← setPrev h head (some current)
      some { lru with heap := h, head := some current }
    else lru.replaceLoop node head fuel (some current) n.next

def replaceHead (lru : LRU V) (node : ℕ) : Option (LRU V) :=
  match lru.head with
  | none => do
    let h ← setNext lru.heap node none
    let h ← setPrev h node none
    some { lru with heap := h, head := some node, tail := some node }
  | some head =>
    if head = node then some lru
    else lru.replaceLoop node head (lru.fresh + 1) none (some head)

/-- The constructor of a node leaves `prev` unset; it is written before it is read. -/
def addPage (lru : LRU V) (page : V) (pid : ℤ) : Option (LRU V) :=
  replaceHead
    { lru with
      heap := Function.update lru.heap lru.fresh (some ⟨none, none, ⟨page, pid⟩⟩)
      fresh := lru.fresh + 1 }
    lru.fresh

/-- The loop of `RemovePage`, with the pages whose frames it clears. -/
def removeLoop (pid : ℤ) : ℕ → Option ℕ → LRU V → Option (LRU V × List V)
  | 0, _, _ => none
  | _ + 1, none, lru => some (lru, [])
  | fuel + 1, some current, lru => do
    let n ← lru.heap current
    if n.payload.pid = pid then
      let h ← bypass lru.heap n.prev n.next
      let r ← removeLoop pid fuel n.next
        { lru with
          heap := Function.update h current none
          head := if lru.head = some current then n.next else lru.head
          tail := n.next }
      some (r.1, n.payload.value :: r.2)
    else removeLoop pid fuel n.next lru

def removePage (lru : LRU V) (pid : ℤ) : Option (LRU V × List V) :=
  removeLoop pid (lru.fresh + 1) lru.head lru

def removeLRUPage (lru : LRU V) : Option (LRU V) := do
  let temp ← lru.tail
  let n ← lru.heap temp
  let tail ← n.prev
  let h ← setNext lru.heap tail none
  some { lru with heap := Function.update h temp none, tail := some tail }

/-- The nodes from `head` on, in both directions. -/
structure Rep (lru : LRU V) (l : List (Cell (Entry V))) : Prop where
  head : lru.head = first l none
  linked : Linked lru.heap none l none
  nodup : (addrs l).Nodup
  old : ∀ a ∈ addrs l, a < lru.fresh

theorem create_rep : (create : LRU V).Rep [] :=
  ⟨rfl, trivial, List.nodup_nil, by simp [addrs]⟩

/-- Addresses below a bound bound the length of the list, hence the loops. -/
theorem Rep.length_le {lru : LRU V} {l : List (Cell (Entry V))} (h : lru.Rep l) :
    l.length ≤ lru.fresh := by
  have hsub : addrs l ⊆ List.range lru.fresh := fun a ha => List.mem_range.mpr (h.old a ha)
  simpa [addrs] using (h.nodup.subperm hsub).length_le

/-- The search for a node that is not in the list ends behind its last node. -/
theorem replaceLoop_eq {lru : LRU V} {node head fuel : ℕ} {prev cur p : Option ℕ}
    {l : List (Cell (Entry V))} (hl : Linked lru.heap p l none) (hcur : cur = first l none)
    (hnode : node ∉ addrs l) (hfuel : l.length < fuel) :
    lru.replaceLoop node head fuel prev cur = lru.replaceLoop node head 1 none none := by
  induction l generalizing fuel prev cur p with
  | nil =>
    obtain ⟨n, rfl⟩ := Nat.exists_eq_succ_of_ne_zero (Nat.ne_zero_of_lt hfuel)
    subst hcur
    rfl
  | cons c l ih =>
    obtain ⟨n, rfl⟩ := Nat.exists_eq_succ_of_ne_zero (Nat.ne_zero_of_lt hfuel)
    simp only [addrs, List.map_cons, List.mem_cons, not_or] at hnode
    subst hcur
    simp only [replaceLoop, first_cons, hl.1, Option.bind_eq_bind, Option.bind_some,
      if_neg (Ne.symm hnode.1)]
    exact ih hl.2 rfl hnode.2 (Nat.lt_of_succ_lt_succ hfuel)

/-- A new page goes to the front. It is the tail only of an empty list. -/
theorem addPage_spec {lru : LRU V} {l : List (Cell (Entry V))} (h : lru.Rep l)
    (page : V) (pid : ℤ) :
    ∃ lru', lru.addPage page pid = some lru' ∧ lru'.Rep (⟨lru.fresh, page, pid⟩ :: l) ∧
      lru'.tail = if l = [] then some lru.fresh else lru.tail := by
  have hnew : lru.fresh ∉ addrs l := fun hm => lt_irrefl _ (h.old _ hm)
  have hold : ∀ a ∈ lru.fresh :: addrs l, a < lru.fresh + 1 := by
    intro a ha
    rcases List.mem_cons.mp ha with rfl | ha
    · exact Nat.lt_succ_self _
    · exact (h.old a ha).trans (Nat.lt_succ_self _)
  cases l with
  | nil =>
    refine ⟨_, by simp only [addPage, replaceHead, h.head, first_nil, setNext_update_self,
      setPrev_update_self, Option.bind_eq_bind, Option.bind_some]; rfl, ?_, rfl⟩
    exact ⟨rfl, ⟨Function.update_self .., trivial⟩, List.nodup_singleton _, hold⟩
  | cons c r =>
    have hne : c.addr ≠ lru.fresh := fun he => hnew (by simp [addrs, he])
    have hc : c.addr ∉ addrs r := (List.nodup_cons.mp h.nodup).1
    have hlinked := fun n => h.linked.update hnew (some n)
    obtain ⟨n, hs, hl⟩ := (hlinked ⟨some c.addr, none, page, pid⟩).setPrev_first hc (some lru.fresh)
    have hrun : lru.addPage page pid = some ⟨Function.update (Function.update lru.heap lru.fresh
        (some ⟨some c.addr, none, page, pid⟩)) c.addr (some n), lru.fresh + 1, some lru.fresh,
        lru.tail⟩ := by
      simp only [addPage, replaceHead, h.head, first_cons, if_neg hne]
      refine (replaceLoop_eq (p := none) (l := c :: r) ?_ rfl hnew ?_).trans ?_
      · exact hlinked _
      · exact Nat.lt_succ_of_le (h.length_le.trans (Nat.le_succ _))
      · simp [replaceLoop, hs]
    refine ⟨_, hrun, ?_, rfl⟩
    refine ⟨rfl, ⟨?_, hl⟩, List.nodup_cons.mpr ⟨hnew, h.nodup⟩, hold⟩
    exact (Function.update_of_ne (Ne.symm hne) _ _).trans (Function.update_self ..)

/-- Taking one cell out of the list, with any new tail. -/
theorem Rep.unlink {lru : LRU V} {l r : List (Cell (Entry V))} {c : Cell (Entry V)}
    (h : lru.Rep (l ++ c :: r)) (t : Option ℕ) :
    ∃ h', bypass lru.heap (last none l) (first r none) = some h' ∧
      (⟨Function.update h' c.addr none, lru.fresh,
        if lru.head = some c.addr then first r none else lru.head, t⟩ : LRU V).Rep (l ++ r) := by
  obtain ⟨h', hb, hl⟩ := h.linked.bypass h.nodup
  have hperm : (addrs (l ++ c :: r)).Perm (c.addr :: addrs (l ++ r)) := by
    simp [addrs, List.perm_middle]
  have hnodup := List.nodup_cons.mp (hperm.nodup_iff.mp h.nodup)
  refine ⟨h', hb, ?_, hl.update hnodup.1 _, hnodup.2, ?_⟩
  · cases l with
    | nil => simp [h.head]
    | cons d l =>
      have hne : d.addr ≠ c.addr := by
        intro he
        exact hnodup.1 (by simp [addrs, he])
      simp [h.head, hne]
  · intro a ha
    exact h.old a (hperm.mem_iff.mpr (List.mem_cons_of_mem _ ha))

/-- The tail that the removal of `pid` leaves, when it was `t` before. -/
def tailAfter (pid : ℤ) : Option ℕ → List (Cell (Entry V)) → Option ℕ
  | t, [] => t
  | t, c :: l => if c.payload.pid = pid then tailAfter pid (first l none) l else tailAfter pid t l

def kept (pid : ℤ) (l : List (Cell (Entry V))) : List (Cell (Entry V)) :=
  l.filter fun c => c.payload.pid ≠ pid

def dropped (pid : ℤ) (l : List (Cell (Entry V))) : List V :=
  (l.filter fun c => c.payload.pid = pid).map fun c => c.payload.value

theorem kept_cons (pid : ℤ) (c : Cell (Entry V)) (l : List (Cell (Entry V))) :
    kept pid (c :: l) = if c.payload.pid = pid then kept pid l else c :: kept pid l := by
  by_cases h : c.payload.pid = pid <;> simp [kept, h]

theorem dropped_cons (pid : ℤ) (c : Cell (Entry V)) (l : List (Cell (Entry V))) :
    dropped pid (c :: l) =
      if c.payload.pid = pid then c.payload.value :: dropped pid l else dropped pid l := by
  by_cases h : c.payload.pid = pid <;> simp [dropped, h]

theorem mem_kept {pid : ℤ} {c : Cell (Entry V)} {l : List (Cell (Entry V))} :
    c ∈ kept pid l ↔ c ∈ l ∧ c.payload.pid ≠ pid := by
  simp [kept]

theorem mem_dropped {pid : ℤ} {v : V} {l : List (Cell (Entry V))} :
    v ∈ dropped pid l ↔ ∃ c ∈ l, c.payload.pid = pid ∧ c.payload.value = v := by
  simp [dropped, and_assoc]

theorem removeLoop_spec {lru : LRU V} {l r : List (Cell (Entry V))} (h : lru.Rep (l ++ r))
    (pid : ℤ) {fuel : ℕ} (hfuel : r.length < fuel) :
    ∃ lru', removeLoop pid fuel (first r none) lru = some (lru', dropped pid r) ∧
      lru'.Rep (l ++ kept pid r) ∧ lru'.tail = tailAfter pid lru.tail r := by
  induction r generalizing lru l fuel with
  | nil =>
    obtain ⟨n, rfl⟩ := Nat.exists_eq_succ_of_ne_zero (Nat.ne_zero_of_lt hfuel)
    exact ⟨lru, rfl, h, rfl⟩
  | cons c r ih =>
    obtain ⟨n, rfl⟩ := Nat.exists_eq_succ_of_ne_zero (Nat.ne_zero_of_lt hfuel)
    have hn : r.length < n := Nat.lt_of_succ_lt_succ hfuel
    have hget := h.linked.get
    by_cases hpid : c.payload.pid = pid
    · obtain ⟨h', hb, hrep⟩ := h.unlink (first r none)
      obtain ⟨lru', hrun, hrep', htail⟩ := ih hrep hn
      refine ⟨lru', ?_, by rwa [kept_cons, if_pos hpid], by rwa [tailAfter, if_pos hpid]⟩
      simp [removeLoop, hget, hpid, hb, hrun, dropped_cons]
    · have happ : l ++ c :: r = (l ++ [c]) ++ r := by simp
      rw [happ] at h
      obtain ⟨lru', hrun, hrep', htail⟩ := ih h hn
      rw [List.append_assoc] at hrep'
      refine ⟨lru', ?_, by rwa [kept_cons, if_neg hpid], by rwa [tailAfter, if_neg hpid]⟩
      simp [removeLoop, hget, hpid, hrun, dropped_cons]

/-- `RemovePage` keeps exactly the nodes of the other processes. -/
theorem removePage_spec {lru : LRU V} {l : List (Cell (Entry V))} (h : lru.Rep l) (pid : ℤ) :
    ∃ lru', lru.removePage pid = some (lru', dropped pid l) ∧ lru'.Rep (kept pid l) ∧
      lru'.tail = tailAfter pid lru.tail l := by
  have hrun := removeLoop_spec (l := []) h pid (Nat.lt_succ_of_le h.length_le)
  rw [← h.head] at hrun
  exact hrun

/-- The new tail is the old one, null, or a node that stays. -/
theorem tailAfter_cases (pid : ℤ) (t : Option ℕ) (l : List (Cell (Entry V))) :
    (tailAfter pid t l = t ∧ kept pid l = l) ∨ tailAfter pid t l = none ∨
      ∃ c ∈ kept pid l, tailAfter pid t l = some c.addr := by
  induction l generalizing t with
  | nil => exact Or.inl ⟨rfl, rfl⟩
  | cons c l ih =>
    by_cases hpid : c.payload.pid = pid
    · rw [tailAfter, if_pos hpid, kept_cons, if_pos hpid]
      rcases ih (first l none) with ⟨ht, hk⟩ | ht
      · cases l with
        | nil => exact Or.inr (Or.inl ht)
        | cons d l => exact Or.inr (Or.inr ⟨d, by rw [hk]; exact List.mem_cons_self, ht⟩)
      · exact Or.inr ht
    · rw [tailAfter, if_neg hpid, kept_cons, if_neg hpid]
      rcases ih t with ⟨ht, hk⟩ | ht | ⟨d, hd, ht⟩
      · exact Or.inl ⟨ht, by rw [hk]⟩
      · exact Or.inr (Or.inl ht)
      · exact Or.inr (Or.inr ⟨d, List.mem_cons_of_mem _ hd, ht⟩)

theorem Rep.getLRU_eq {lru : LRU V} {l r : List (Cell (Entry V))} {c : Cell (Entry V)}
    (h : lru.Rep (l ++ c :: r)) (ht : lru.tail = some c.addr) :
    lru.getLRU = some c.payload.value ∧ lru.tailPid = some c.payload.pid := by
  simp [getLRU, tailPid, ht, h.linked.get]

/-- The nodes behind the tail are lost together with it. -/
theorem removeLRUPage_spec {lru : LRU V} {l r : List (Cell (Entry V))} {p c : Cell (Entry V)}
    (h : lru.Rep (l ++ p :: c :: r)) (ht : lru.tail = some c.addr) :
    ∃ lru', lru.removeLRUPage = some lru' ∧ lru'.Rep (l ++ [p]) ∧ lru'.tail = some p.addr := by
  have happ : l ++ p :: c :: r = (l ++ [p]) ++ c :: r := by simp
  rw [happ] at h
  have hget := h.linked.get
  rw [last_append_singleton] at hget
  have hsplit := List.nodup_append.mp (by simpa only [addrs, List.map_append] using h.nodup)
  have hp : p.addr ∉ addrs l := by
    have := List.nodup_append.mp (by simpa only [List.map_append] using hsplit.1)
    exact fun hm => this.2.2 _ hm _ List.mem_cons_self rfl
  obtain ⟨n, hs, hl⟩ := ((linked_append ..).mp h.linked).1.setNext_last hp none
  have hc : c.addr ∉ addrs (l ++ [p]) := fun hm => hsplit.2.2 _ (by simpa using hm) _
    List.mem_cons_self rfl
  refine ⟨_, by simp only [removeLRUPage, ht, hget, hs, Option.bind_eq_bind, Option.bind_some]; rfl,
    ⟨?_, hl.update hc _, by simpa using hsplit.1, ?_⟩, rfl⟩
  · rw [h.head, first_append]
    cases l <;> rfl
  · intro a ha
    exact h.old a (by simp only [addrs, List.map_append]; exact List.mem_append_left _ (by simpa using ha))

end LRU

end Nachos.ReplacementList
