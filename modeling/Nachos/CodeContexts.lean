import Mathlib.Tactic

/-!
# Code that is checked against a context

Straight code is a list of instructions. A rule says in which contexts an instruction may
run, and which context it leaves when all the code that it stands for is done. Other code can
stand in the place of an instruction when it leads to the context that the rule promises: it is
put before the rest of the code with `Accepts.append`.
-/
namespace Nachos.CodeContexts

structure Rules (I X : Type*) where
  pre : I → X → Prop
  post : I → X → X

namespace Rules
variable {I X : Type*} {r : Rules I X} {i : I} {l m : List I} {x y z : X}

/-- The code may run in the context `x` and leads to `y`. -/
def Accepts (r : Rules I X) : List I → X → X → Prop
  | [], x, y => x = y
  | i :: l, x, y => r.pre i x ∧ r.Accepts l (r.post i x) y

theorem Accepts.append (hl : r.Accepts l x y) (hm : r.Accepts m y z) : r.Accepts (l ++ m) x z := by
  induction l generalizing x with
  | nil =>
    obtain rfl : x = y := hl
    exact hm
  | cons i l ih => exact ⟨hl.1, ih hl.2⟩

theorem accepts_of_forall (h : ∀ i ∈ l, r.pre i x ∧ r.post i x = x) : r.Accepts l x x := by
  induction l with
  | nil => rfl
  | cons i l ih =>
    obtain ⟨hpre, hpost⟩ := h i List.mem_cons_self
    refine ⟨hpre, ?_⟩
    rw [hpost]
    exact ih fun j hj => h j (List.mem_cons_of_mem i hj)

end Rules

end Nachos.CodeContexts
