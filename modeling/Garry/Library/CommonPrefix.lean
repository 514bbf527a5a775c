import Mathlib

/-!
# Common prefixes

Of two lists, the second one of which is the greater one, the common prefix and one more element of
the second list are the shortest list between them.
-/

namespace CommonPrefix

variable {α : Type} [LinearOrder α] {a b s : List α}

/-- The number of elements that two lists have in common from the front. -/
def commonLength : List α → List α → Nat
  | x :: a, y :: b => if x = y then commonLength a b + 1 else 0
  | _, _ => 0

theorem commonLength_le_left (a b : List α) : commonLength a b ≤ a.length := by
  induction a generalizing b with
  | nil => exact Nat.zero_le _
  | cons x a ih =>
    cases b with
    | nil => exact Nat.zero_le _
    | cons y b =>
      rw [commonLength]
      split
      · exact Nat.succ_le_succ (ih b)
      · exact Nat.zero_le _

theorem commonLength_comm (a b : List α) : commonLength a b = commonLength b a := by
  induction a generalizing b with
  | nil => cases b <;> rfl
  | cons x a ih =>
    cases b with
    | nil => rfl
    | cons y b => simp only [commonLength, ih, eq_comm]

theorem commonLength_le_right (a b : List α) : commonLength a b ≤ b.length :=
  commonLength_comm a b ▸ commonLength_le_left b a

theorem take_commonLength (a b : List α) :
    a.take (commonLength a b) = b.take (commonLength a b) := by
  induction a generalizing b with
  | nil => rfl
  | cons x a ih =>
    cases b with
    | nil => rfl
    | cons y b =>
      rw [commonLength]
      split
      · next h => rw [h, List.take_succ_cons, List.take_succ_cons, ih b]
      · rfl

/-- The second list up to one element behind the common prefix. -/
def separator (a b : List α) : List α := b.take (commonLength a b + 1)

theorem lt_separator (h : a < b) : a < separator a b := by
  induction a generalizing b with
  | nil =>
    cases b with
    | nil => exact absurd h (lt_irrefl _)
    | cons y b => exact List.nil_lt_cons ..
  | cons x a ih =>
    cases b with
    | nil => exact absurd h (List.not_lt_nil _)
    | cons y b =>
      rw [separator, commonLength]
      rcases List.cons_lt_cons_iff.mp h with hlt | ⟨rfl, hlt⟩
      · rw [if_neg hlt.ne]
        exact List.cons_lt_cons_iff.mpr (.inl hlt)
      · rw [if_pos rfl]
        exact List.cons_lt_cons_iff.mpr (.inr ⟨rfl, ih hlt⟩)

theorem separator_not_gt (a b : List α) : ¬ b < separator a b := by
  rw [separator]
  generalize commonLength a b + 1 = n
  induction b generalizing n with
  | nil => rw [List.take_nil]; exact lt_irrefl _
  | cons y b ih =>
    cases n with
    | zero => exact List.not_lt_nil _
    | succ n =>
      rw [List.take_succ_cons, List.cons_lt_cons_iff]
      rintro (hlt | ⟨-, hlt⟩)
      · exact lt_irrefl _ hlt
      · exact ih n hlt

/-- No list between the two is shorter. -/
theorem length_separator_le (hs : a < s) (hb : ¬ b < s) : (separator a b).length ≤ s.length := by
  induction a generalizing b s with
  | nil =>
    have hpos : 0 < s.length := by
      apply List.length_pos_of_ne_nil
      rintro rfl
      exact lt_irrefl _ hs
    rw [separator, List.length_take]
    cases b <;> exact (min_le_left ..).trans hpos
  | cons x a ih =>
    cases s with
    | nil => exact absurd hs (List.not_lt_nil _)
    | cons z s =>
      cases b with
      | nil => exact absurd (List.nil_lt_cons ..) hb
      | cons y b =>
        rw [List.cons_lt_cons_iff, not_or] at hb
        rw [separator, commonLength]
        split
        · next hxy =>
          subst hxy
          -- what is not below `x` and not above it is `x`
          obtain ⟨rfl, htail⟩ : x = z ∧ a < s :=
            (List.cons_lt_cons_iff.mp hs).resolve_left hb.1
          exact Nat.succ_le_succ (ih htail fun hlt => hb.2 ⟨rfl, hlt⟩)
        · exact Nat.succ_le_succ (Nat.zero_le _)

end CommonPrefix
