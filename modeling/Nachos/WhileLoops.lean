import Mathlib.Tactic

/-!
# Loops, turn by turn

A turn of a loop goes on with a new state, returns, or aborts the program. `turns`
makes a number of turns. A loop ends if a measure goes down in every turn that goes
on; it never ends if every turn goes on and keeps an invariant.
-/
namespace Nachos.WhileLoops

inductive Status (σ ρ : Type*) where
  | running (s : σ)
  | returned (r : ρ)
  | aborted
  deriving DecidableEq, Repr

variable {σ ρ : Type*} {turn : σ → Status σ ρ}

def Status.Ended : Status σ ρ → Prop
  | .running _ => False
  | _ => True

/-- The loop is in a state with one property, or has returned a result with another one. -/
def Status.Satisfies (I : σ → Prop) (Q : ρ → Prop) : Status σ ρ → Prop
  | .running s => I s
  | .returned r => Q r
  | .aborted => True

theorem Status.Satisfies.imp {I J : σ → Prop} {Q R : ρ → Prop} {s : Status σ ρ}
    (h : s.Satisfies I Q) (hI : ∀ s, I s → J s) (hQ : ∀ r, Q r → R r) : s.Satisfies J R := by
  cases s with
  | running s => exact hI s h
  | returned r => exact hQ r h
  | aborted => trivial

def turns (turn : σ → Status σ ρ) : ℕ → σ → Status σ ρ
  | 0, s => .running s
  | n + 1, s =>
    match turn s with
    | .running t => turns turn n t
    | .returned r => .returned r
    | .aborted => .aborted

def Returns (turn : σ → Status σ ρ) (s : σ) (r : ρ) : Prop := ∃ n, turns turn n s = .returned r

theorem turns_satisfies {I : σ → Prop} {Q : ρ → Prop} (h : ∀ s, I s → (turn s).Satisfies I Q)
    {s : σ} (hs : I s) (n : ℕ) : (turns turn n s).Satisfies I Q := by
  induction n generalizing s with
  | zero => exact hs
  | succ n ih =>
    have hturn := h s hs
    rw [turns]
    split
    · rename_i t ht
      rw [ht] at hturn
      exact ih hturn
    · rename_i r hr
      rw [hr] at hturn
      exact hturn
    · trivial

theorem turns_ended {I : σ → Prop} {μ : σ → ℕ}
    (h : ∀ s t, I s → turn s = .running t → I t ∧ μ t < μ s) {s : σ} (hs : I s) :
    ∃ n ≤ μ s + 1, (turns turn n s).Ended := by
  induction hμ : μ s using Nat.strong_induction_on generalizing s with
  | _ k ih =>
    cases ht : turn s with
    | running t =>
      obtain ⟨hI, hlt⟩ := h s t hs ht
      obtain ⟨n, hn, hend⟩ := ih (μ t) (hμ ▸ hlt) hI rfl
      refine ⟨n + 1, by omega, ?_⟩
      rw [turns, ht]
      exact hend
    | returned r => exact ⟨1, by omega, by rw [turns, ht]; trivial⟩
    | aborted => exact ⟨1, by omega, by rw [turns, ht]; trivial⟩

theorem turns_running {I : σ → Prop} (h : ∀ s, I s → ∃ t, turn s = .running t ∧ I t) {s : σ}
    (hs : I s) (n : ℕ) : ∃ t, turns turn n s = .running t ∧ I t := by
  induction n generalizing s with
  | zero => exact ⟨s, rfl, hs⟩
  | succ n ih =>
    obtain ⟨t, ht, hI⟩ := h s hs
    rw [turns, ht]
    exact ih hI

theorem Returns.of_returned {s : σ} {r : ρ} (h : turn s = .returned r) : Returns turn s r :=
  ⟨1, by rw [turns, h]⟩

theorem Returns.of_running {s t : σ} {r : ρ} (h : turn s = .running t) (ht : Returns turn t r) :
    Returns turn s r := by
  obtain ⟨n, hn⟩ := ht
  exact ⟨n + 1, by rw [turns, h]; exact hn⟩

/-- A loop that makes the turns of another one as a part of its own. -/
theorem Returns.lift {τ ρ' : Type*} {turn' : τ → Status τ ρ'} {f : σ → τ} {r : ρ} {r' : ρ'}
    (hrun : ∀ s t, turn s = .running t → turn' (f s) = .running (f t))
    (hret : ∀ s, turn s = .returned r → Returns turn' (f s) r') {s : σ} (h : Returns turn s r) :
    Returns turn' (f s) r' := by
  obtain ⟨n, hn⟩ := h
  induction n generalizing s with
  | zero => cases hn
  | succ n ih =>
    rw [turns] at hn
    split at hn
    · rename_i t ht
      exact .of_running (hrun s t ht) (ih hn)
    · rename_i r₁ hr
      obtain rfl := Status.returned.inj hn
      exact hret s hr
    · cases hn

end Nachos.WhileLoops
