import Mathlib.Data.List.Basic

/-!
# Prefix codes

Codes of which none begins another. A sequence of them can be taken apart in one way only, so that
the prefixes of the sequence that are sequences of codes are those of the values.
-/

namespace PrefixCode

variable {α β : Type*} {s : Set α} {enc : α → List β} {a b : α} {u v : List β} {as bs : List α}

/-- The values of `s` have codes of which none begins another. -/
structure On (s : Set α) (enc : α → List β) : Prop where
  ne_nil : ∀ a ∈ s, enc a ≠ []
  head : ∀ {a b u v}, a ∈ s → b ∈ s → enc a ++ u = enc b ++ v → a = b

namespace On

/-- The first code tells its value and where the rest begins. -/
theorem head_tail (h : On s enc) (ha : a ∈ s) (hb : b ∈ s) (he : enc a ++ u = enc b ++ v) :
    a = b ∧ u = v := by
  obtain rfl := h.head ha hb he
  exact ⟨rfl, List.append_cancel_left he⟩

/-- A sequence of codes begins another one just when its values do. -/
theorem flatMap_prefix (h : On s enc) (has : ∀ a ∈ as, a ∈ s) (hbs : ∀ b ∈ bs, b ∈ s) :
    as.flatMap enc <+: bs.flatMap enc ↔ as <+: bs := by
  induction as generalizing bs with
  | nil => exact iff_of_true List.nil_prefix List.nil_prefix
  | cons a as ih =>
    cases bs with
    | nil =>
      refine iff_of_false (fun hp => ?_) (fun hp => ?_)
      · obtain ⟨hnil, -⟩ := List.append_eq_nil_iff.mp (List.prefix_nil.mp hp)
        exact h.ne_nil a (has a List.mem_cons_self) hnil
      · cases List.prefix_nil.mp hp
    | cons b bs =>
      have ha := has a List.mem_cons_self
      have hb := hbs b List.mem_cons_self
      have ih := ih (fun x hx => has x (List.mem_cons_of_mem a hx))
        (fun x hx => hbs x (List.mem_cons_of_mem b hx))
      rw [List.flatMap_cons, List.flatMap_cons, List.cons_prefix_cons]
      constructor
      · rintro ⟨t, ht⟩
        rw [List.append_assoc] at ht
        obtain ⟨rfl, hrest⟩ := h.head_tail ha hb ht
        exact ⟨rfl, ih.mp ⟨t, hrest⟩⟩
      · rintro ⟨rfl, hp⟩
        exact (List.prefix_append_right_inj _).mpr (ih.mpr hp)

end On

end PrefixCode
