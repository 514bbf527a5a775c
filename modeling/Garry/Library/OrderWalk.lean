import Mathlib

/-!
# Walks along an order

A function that returns the next element of a set is followed from one element until there is none.
-/

namespace OrderWalk

variable {α : Type*} {next : α → Option (Option α)}

/-- The elements passed from a first one, each leading to the next; `none` of `next` is a call that
does not end. -/
inductive Walk (next : α → Option (Option α)) : Option α → List α → Prop
  | stop : Walk next none []
  | step {a : α} {found : Option α} {l : List α} : next a = some found → Walk next found l →
    Walk next (some a) (a :: l)

section order

variable [PartialOrder α] {S : Set α} {first : Option α}

theorem head?_isLeast {l : List α} (h : l.Pairwise (· < ·)) :
    l.head? = some a ↔ IsLeast {x | x ∈ l} a := by
  cases l with
  | nil =>
    refine iff_of_false (fun h => ?_) fun h => ?_
    · cases h
    · cases h.1
  | cons b l =>
    have hb : IsLeast {x | x ∈ b :: l} b := by
      refine ⟨List.mem_cons_self, fun x hx => ?_⟩
      rcases List.mem_cons.mp hx with rfl | hx
      · exact le_rfl
      · exact ((List.pairwise_cons.mp h).1 x hx).le
    rw [List.head?_cons, Option.some.injEq]
    constructor
    · rintro rfl
      exact hb
    · exact hb.unique

/-- What lies above an element of a sorted list. -/
theorem mem_above_iff {pre l : List α} (h : (pre ++ a :: l).Pairwise (· < ·)) :
    x ∈ pre ++ a :: l ∧ a < x ↔ x ∈ l := by
  obtain ⟨-, hl, hpre⟩ := List.pairwise_append.mp h
  have ha := (List.pairwise_cons.mp hl).1
  constructor
  · rintro ⟨hx, hlt⟩
    rcases List.mem_append.mp hx with hx | hx
    · exact absurd (hpre x hx a List.mem_cons_self) hlt.not_gt
    rcases List.mem_cons.mp hx with rfl | hx
    · exact absurd hlt (lt_irrefl x)
    · exact hx
  · intro hx
    exact ⟨List.mem_append_right _ (List.mem_cons_of_mem a hx), ha x hx⟩

/-- Following the least element above passes the elements of a sorted list in their order. -/
theorem Walk.of_sorted {l : List α} (h : l.Pairwise (· < ·)) (hS : ∀ x, x ∈ l ↔ x ∈ S)
    (hfirst : ∀ x, first = some x ↔ IsLeast S x)
    (hnext : ∀ a ∈ S, ∃ found, next a = some found ∧
      ∀ x, found = some x ↔ IsLeast {y | y ∈ S ∧ a < y} x) : Walk next first l := by
  have hrest {pre l : List α} (h : (pre ++ l).Pairwise (· < ·)) (hS : ∀ x, x ∈ pre ++ l ↔ x ∈ S) :
      Walk next l.head? l := by
    induction l generalizing pre with
    | nil => exact .stop
    | cons a l ih =>
      obtain ⟨found, heq, hfound⟩ := hnext a ((hS a).mp (List.mem_append_right _ List.mem_cons_self))
      have hl : l.Pairwise (· < ·) := (List.pairwise_cons.mp (List.pairwise_append.mp h).2.1).2
      have habove : {y | y ∈ S ∧ a < y} = {y | y ∈ l} := by
        ext x
        rw [Set.mem_ofPred_eq, ← hS, mem_above_iff h]
        rfl
      have hhead : found = l.head? := by
        apply Option.ext
        intro x
        rw [hfound, habove, head?_isLeast hl]
      rw [List.append_cons] at h hS
      exact .step heq (hhead ▸ ih h hS)
  have hset : S = {x | x ∈ l} := Set.ext fun x => (hS x).symm
  have hhead : first = l.head? := by
    apply Option.ext
    intro x
    rw [hfirst, hset, head?_isLeast h]
  rw [hhead]
  exact @hrest [] l h hS

/-- The same downwards, from the last element. -/
theorem Walk.of_sorted_reverse {l : List α} (h : l.Pairwise (· < ·)) (hS : ∀ x, x ∈ l ↔ x ∈ S)
    (hprev : ∀ a ∈ S, ∃ found, next a = some found ∧
      ∀ x, found = some x ↔ IsGreatest {y | y ∈ S ∧ y < a} x) : Walk next l.getLast? l.reverse := by
  have hr : l.reverse.Pairwise fun a b => b < a := List.pairwise_reverse.mpr h
  have hset : S = {x | x ∈ l.reverse} := Set.ext fun x => (hS x).symm.trans List.mem_reverse.symm
  refine Walk.of_sorted (α := αᵒᵈ) (S := S) hr (fun x => List.mem_reverse.trans (hS x)) ?_ hprev
  intro x
  rw [List.getLast?_eq_head?_reverse, hset]
  exact head?_isLeast (α := αᵒᵈ) hr

end order

end OrderWalk
