import Mathlib

/-!
# Arrays with a count

The first elements of an array, as many as a count says, are a list. The element at the count is
appended; an element is removed by moving the ones behind it down.
-/

namespace SlotArray

variable {α : Type} {a : Nat → α} {x : α} {i n : Nat}

/-- The first `n` elements. -/
def list (a : Nat → α) (n : Nat) : List α := (List.range n).map a

@[simp] theorem length_list : (list a n).length = n := by rw [list, List.length_map, List.length_range]

theorem getElem?_list (h : i < n) : (list a n)[i]? = some (a i) := by
  rw [list, List.getElem?_map, List.getElem?_range h]
  rfl

theorem list_congr {b : Nat → α} (h : ∀ i < n, b i = a i) : list b n = list a n :=
  List.map_congr_left fun i hi => h i (List.mem_range.mp hi)

/-- A store at the count. -/
theorem list_push : list (Function.update a n x) (n + 1) = list a n ++ [x] := by
  have hold : list (Function.update a n x) n = list a n :=
    list_congr fun i hi => Function.update_of_ne (Nat.ne_of_lt hi) ..
  rw [list, List.range_succ, List.map_append, ← list, hold, List.map_singleton,
    Function.update_self]

/-- A store below the count. -/
theorem list_set : list (Function.update a i x) n = (list a n).set i x := by
  apply List.ext_getElem?
  intro j
  rw [List.getElem?_set, length_list]
  rcases Nat.lt_or_ge j n with hj | hj
  · rw [getElem?_list hj]
    split
    · next h => rw [← h, Function.update_self, if_pos (h ▸ hj)]
    · next h => rw [Function.update_of_ne (Ne.symm h), getElem?_list hj]
  · rw [List.getElem?_eq_none (length_list.trans_le hj),
      List.getElem?_eq_none (length_list.trans_le hj)]
    split
    · next h => rw [if_neg (h ▸ Nat.not_lt.mpr hj)]
    · rfl

/-- The first index whose element has a property. -/
theorem find?_range (p : α → Bool) : (List.range n).find? (fun i => p (a i)) = (list a n).findIdx? p := by
  induction n with
  | zero => rfl
  | succ n ih =>
    rw [list, List.range_succ, List.find?_append, List.map_append, ← list, List.findIdx?_append, ih,
      length_list]
    cases hp : p (a n) <;> simp [hp]

/-- `k` elements from index `i + 1` on are moved down by one. -/
def shiftDown (a : Nat → α) : Nat → Nat → Nat → α
  | _, 0 => a
  | i, k + 1 => shiftDown (Function.update a i (a (i + 1))) (i + 1) k

theorem shiftDown_eq (a : Nat → α) (i k j : Nat) :
    shiftDown a i k j = if i ≤ j ∧ j < i + k then a (j + 1) else a j := by
  induction k generalizing a i with
  | zero => rw [shiftDown, if_neg (by omega)]
  | succ k ih =>
    rw [shiftDown, ih]
    rcases Nat.lt_trichotomy j i with hj | rfl | hj
    · rw [if_neg (by omega), if_neg (by omega), Function.update_of_ne (by omega)]
    · rw [if_neg (by omega), if_pos (by omega), Function.update_self]
    · rw [Function.update_of_ne (show j + 1 ≠ i by omega), Function.update_of_ne (by omega)]
      congr 1
      rw [eq_iff_iff]
      omega

/-- Removal of an element. -/
theorem list_shiftDown (hi : i < n) :
    list (shiftDown a i (n - 1 - i)) (n - 1) = (list a n).eraseIdx i := by
  apply List.ext_getElem?
  intro j
  rw [List.getElem?_eraseIdx]
  rcases Nat.lt_or_ge j (n - 1) with hj | hj
  · rw [getElem?_list hj, shiftDown_eq]
    split
    · next h => rw [if_neg (by omega), getElem?_list (by omega)]
    · next h => rw [if_pos (by omega), getElem?_list (by omega)]
  · rw [List.getElem?_eq_none (length_list.trans_le hj), if_neg (by omega),
      List.getElem?_eq_none (length_list.trans_le (by omega))]

end SlotArray
