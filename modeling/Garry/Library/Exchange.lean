import Mathlib.Data.List.Basic
import Mathlib.Logic.Relation

/-!
# Runs in another order

Neighbouring events of a run may be exchanged when both orders lead to the same state. For a machine
that answers calls, the same calls in such an order get the same answers.
-/

namespace Exchange

variable {S E E' C A : Type*}

/-- The runs of a step relation, with their events. -/
inductive Runs (step : S → E → S → Prop) : S → List E → S → Prop
  | nil {s : S} : Runs step s [] s
  | cons {s s' s'' : S} {e : E} {es : List E} : step s e s' → Runs step s' es s'' →
    Runs step s (e :: es) s''

/-- Of two neighbouring events that may be exchanged the second comes first. -/
inductive Swap (may : E → E → Prop) : List E → List E → Prop
  | swap (pre post : List E) {a b : E} : may a b →
    Swap may (pre ++ a :: b :: post) (pre ++ b :: a :: post)

/-- One list comes from the other by exchanges. -/
abbrev Reordered (may : E → E → Prop) : List E → List E → Prop := Relation.ReflTransGen (Swap may)

variable {step : S → E → S → Prop} {may : E → E → Prop} {good : S → Prop} {s s' s'' : S}
  {es es' : List E}

theorem Runs.append (h : Runs step s es s') (h' : Runs step s' es' s'') :
    Runs step s (es ++ es') s'' := by
  induction h with
  | nil => exact h'
  | cons hs _ ih => exact .cons hs (ih h')

theorem Runs.split (h : Runs step s (es ++ es') s'') :
    ∃ s', Runs step s es s' ∧ Runs step s' es' s'' := by
  induction es generalizing s with
  | nil => exact ⟨s, .nil, h⟩
  | cons e es ih =>
    cases h with
    | cons hs h =>
      obtain ⟨s', h₁, h₂⟩ := ih h
      exact ⟨s', .cons hs h₁, h₂⟩

/-- What every step keeps holds after a run. -/
theorem Runs.inv (h : Runs step s es s') (hstep : ∀ s e s', good s → step s e s' → good s')
    (hi : good s) : good s' := by
  induction h with
  | nil => exact hi
  | cons hs _ ih => exact ih (hstep _ _ _ hi hs)

theorem Swap.perm (h : Swap may es es') : es.Perm es' := by
  obtain ⟨pre, post, -⟩ := h
  exact (List.Perm.swap _ _ post).append_left pre

theorem Reordered.perm (h : Reordered may es es') : es.Perm es' := by
  induction h with
  | refl => exact .refl _
  | tail _ hs ih => exact ih.trans hs.perm

theorem Reordered.map {may' : E' → E' → Prop} {f : E → E'} (h : Reordered may es es')
    (hf : ∀ a b, may a b → may' (f a) (f b)) : Reordered may' (es.map f) (es'.map f) := by
  induction h with
  | refl => exact .refl
  | tail _ hs ih =>
    obtain ⟨pre, post, hm⟩ := hs
    refine ih.tail ?_
    simp only [List.map_append, List.map_cons]
    exact .swap _ _ (hf _ _ hm)

/-- The second of two events can as well come first. -/
def Diamond (good : S → Prop) (step : S → E → S → Prop) (may : E → E → Prop) : Prop :=
  ∀ s s₁ s₂ a b, good s → may a b → step s a s₁ → step s₁ b s₂ →
    ∃ s', step s b s' ∧ step s' a s₂

/-- A run in another order ends in the same state. -/
theorem Runs.reorder (h : Runs step s es s') (hstep : ∀ s e s', good s → step s e s' → good s')
    (hd : Diamond good step may) (hi : good s) (hr : Reordered may es es') : Runs step s es' s' := by
  induction hr with
  | refl => exact h
  | tail _ hs ih =>
    obtain ⟨pre, post, hm⟩ := hs
    obtain ⟨s₁, hpre, hrest⟩ := ih.split
    cases hrest with
    | cons ha hrest =>
    cases hrest with
    | cons hb hpost =>
    obtain ⟨s₂, hb', ha'⟩ := hd _ _ _ _ _ (hpre.inv hstep hi) hm ha hb
    exact hpre.append (.cons hb' (.cons ha' hpost))

/-- A call gets one answer, with one state after it. -/
def Answers (step : S → C × A → S → Prop) (ok : C → Prop) : Prop :=
  ∀ s c x y s' s'', ok c → step s (c, x) s' → step s (c, y) s'' → x = y ∧ s' = s''

/-- The same calls get the same answers. -/
theorem Runs.answers {step : S → C × A → S → Prop} {ok : C → Prop} {es es' : List (C × A)}
    (h : Runs step s es s') (h' : Runs step s es' s'') (hd : Answers step ok)
    (hok : ∀ e ∈ es, ok e.1) (hc : es'.map Prod.fst = es.map Prod.fst) : es' = es ∧ s'' = s' := by
  induction h generalizing es' with
  | nil =>
    cases List.map_eq_nil_iff.mp hc
    cases h'
    exact ⟨rfl, rfl⟩
  | @cons _ _ _ e es hs _ ih =>
    obtain ⟨e', es', rfl, he, hrest⟩ := List.map_eq_cons_iff.mp hc
    cases h' with
    | cons hs' h' =>
    obtain ⟨c, x⟩ := e
    obtain ⟨c', y⟩ := e'
    obtain rfl : c' = c := he
    obtain ⟨rfl, rfl⟩ := hd _ _ _ _ _ _ (hok _ List.mem_cons_self) hs hs'
    obtain ⟨rfl, rfl⟩ := ih h' (fun e he => hok e (List.mem_cons_of_mem _ he)) hrest
    exact ⟨rfl, rfl⟩

end Exchange
