import Mathlib.Tactic

/-!
# Exact allocation

A set of marked units and owners that hold lists of units. The allocation is
exact when every marked unit is held, every held unit is marked, and no unit is
held twice. Giving unmarked units to an owner that holds none and taking
everything away from an owner keep it exact.
-/
namespace Nachos.Ownership

variable {ι α : Type*} {marked marked' : α → Prop} {own : ι → List α}

structure Exact (marked : α → Prop) (own : ι → List α) : Prop where
  nodup : ∀ i, (own i).Nodup
  apart : ∀ i j, i ≠ j → ∀ a ∈ own i, a ∉ own j
  marked_iff : ∀ a, marked a ↔ ∃ i, a ∈ own i

namespace Exact

/-- Nothing is marked and nobody holds anything. -/
theorem empty : Exact (fun _ : α => False) fun _ : ι => [] where
  nodup _ := List.nodup_nil
  apart _ _ _ _ ha := absurd ha List.not_mem_nil
  marked_iff _ := by simp

theorem marked_of_mem (h : Exact marked own) {i : ι} {a : α} (ha : a ∈ own i) : marked a :=
  (h.marked_iff a).mpr ⟨i, ha⟩

theorem notMem_of_not_marked (h : Exact marked own) {a : α} (ha : ¬marked a) (i : ι) : a ∉ own i :=
  fun hm => ha (h.marked_of_mem hm)

theorem owner_unique (h : Exact marked own) {i j : ι} {a : α} (hi : a ∈ own i) (hj : a ∈ own j) :
    i = j := by
  by_contra hij
  exact h.apart i j hij a hi hj

theorem congr (h : Exact marked own) (hm : ∀ a, marked' a ↔ marked a) : Exact marked' own :=
  ⟨h.nodup, h.apart, fun a => (hm a).trans (h.marked_iff a)⟩

variable [DecidableEq ι]

/-- Unmarked units are given to an owner that holds none. -/
theorem insert (h : Exact marked own) {i : ι} {l : List α} (hi : own i = []) (hl : l.Nodup)
    (hfree : ∀ a ∈ l, ¬marked a) (hm : ∀ a, marked' a ↔ marked a ∨ a ∈ l) :
    Exact marked' (Function.update own i l) where
  nodup j := by
    by_cases hj : j = i
    · rwa [hj, Function.update_self]
    · rw [Function.update_of_ne hj]
      exact h.nodup j
  apart j k hjk a ha := by
    by_cases hj : j = i
    · subst hj
      rw [Function.update_self] at ha
      rw [Function.update_of_ne (Ne.symm hjk)]
      exact h.notMem_of_not_marked (hfree a ha) k
    · rw [Function.update_of_ne hj] at ha
      by_cases hk : k = i
      · rw [hk, Function.update_self]
        exact fun hal => hfree a hal (h.marked_of_mem ha)
      · rw [Function.update_of_ne hk]
        exact h.apart j k hjk a ha
  marked_iff a := by
    rw [hm, h.marked_iff]
    constructor
    · rintro (⟨j, hj⟩ | ha)
      · have hne : j ≠ i := by
          rintro rfl
          rw [hi] at hj
          exact List.not_mem_nil hj
        exact ⟨j, by rwa [Function.update_of_ne hne]⟩
      · exact ⟨i, by rwa [Function.update_self]⟩
    · rintro ⟨j, hj⟩
      by_cases hji : j = i
      · rw [hji, Function.update_self] at hj
        exact Or.inr hj
      · rw [Function.update_of_ne hji] at hj
        exact Or.inl ⟨j, hj⟩

/-- Everything is taken away from one owner. -/
theorem erase (h : Exact marked own) (i : ι) (hm : ∀ a, marked' a ↔ marked a ∧ a ∉ own i) :
    Exact marked' (Function.update own i []) where
  nodup j := by
    by_cases hj : j = i
    · rw [hj, Function.update_self]
      exact List.nodup_nil
    · rw [Function.update_of_ne hj]
      exact h.nodup j
  apart j k hjk a ha := by
    by_cases hj : j = i
    · rw [hj, Function.update_self] at ha
      exact absurd ha List.not_mem_nil
    · rw [Function.update_of_ne hj] at ha
      by_cases hk : k = i
      · rw [hk, Function.update_self]
        exact List.not_mem_nil
      · rw [Function.update_of_ne hk]
        exact h.apart j k hjk a ha
  marked_iff a := by
    rw [hm, h.marked_iff]
    constructor
    · rintro ⟨⟨j, hj⟩, hne⟩
      have hji : j ≠ i := fun he => hne (he ▸ hj)
      exact ⟨j, by rwa [Function.update_of_ne hji]⟩
    · rintro ⟨j, hj⟩
      by_cases hji : j = i
      · rw [hji, Function.update_self] at hj
        exact absurd hj List.not_mem_nil
      · rw [Function.update_of_ne hji] at hj
        exact ⟨⟨j, hj⟩, h.apart j i hji a hj⟩

end Exact

end Nachos.Ownership
