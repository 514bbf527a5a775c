import Mathlib

/-!
# Linked leaves

The leaves of a tree from left to right, each with its link. `Linked l e` says that every link
names the next leaf and the last one names `e`.
-/

namespace LeafChain

variable {P : Type _}

/-- The first leaf, or `e` when there is none. -/
def firstOr : List (P × P) → P → P
  | [], e => e
  | (p, _) :: _, _ => p

def Linked : List (P × P) → P → Prop
  | [], _ => True
  | (_, next) :: l, e => next = firstOr l e ∧ Linked l e

theorem firstOr_append {l l' : List (P × P)} : firstOr (l ++ l') e = firstOr l (firstOr l' e) := by
  cases l <;> rfl

theorem linked_append {l l' : List (P × P)} :
    Linked (l ++ l') e ↔ Linked l (firstOr l' e) ∧ Linked l' e := by
  induction l with
  | nil => simp [Linked]
  | cons x l ih =>
    simp only [List.cons_append, Linked, ih, firstOr_append, and_assoc]

/-- Replacing `l` by `l'` keeps the first leaf and the links around it. -/
structure Kept (l l' : List (P × P)) : Prop where
  first : ∀ e, firstOr l' e = firstOr l e
  linked : ∀ e, Linked l e → Linked l' e

theorem Kept.rfl {l : List (P × P)} : Kept l l := ⟨fun _ => Eq.refl _, fun _ h => h⟩

theorem Kept.trans {l₁ l₂ l₃ : List (P × P)} (h : Kept l₁ l₂) (h' : Kept l₂ l₃) : Kept l₁ l₃ :=
  ⟨fun e => (h'.first e).trans (h.first e), fun e hl => h'.linked e (h.linked e hl)⟩

theorem Kept.context {l l' : List (P × P)} (h : Kept l l') (a b : List (P × P)) :
    Kept (a ++ (l ++ b)) (a ++ (l' ++ b)) := by
  refine ⟨fun e => ?_, fun e hl => ?_⟩
  · rw [firstOr_append, firstOr_append, firstOr_append, firstOr_append, h.first]
  · rw [linked_append, linked_append, firstOr_append] at hl ⊢
    exact ⟨h.first _ ▸ hl.1, h.linked _ hl.2.1, hl.2.2⟩

/-- A leaf `q` split off from `p`. -/
theorem Kept.split {p q x : P} : Kept [(p, x)] [(p, q), (q, x)] :=
  ⟨fun _ => Eq.refl _, fun _ h => ⟨Eq.refl _, h⟩⟩

/-- A leaf `q` joined to `p`. -/
theorem Kept.join {p q x y : P} : Kept [(p, x), (q, y)] [(p, y)] :=
  ⟨fun _ => Eq.refl _, fun _ h => h.2⟩

end LeafChain
