import Garry.Library.ByteStore

/-!
# Arrays of a fixed size

A store past the end of an array has no defined result.
-/

namespace LocalArray

variable {α : Type} {size pos : Nat} {a b : Nat → α} {x : α} {xs ys : List α}

/-- `a[i] = x` for an array of `size` elements. -/
def store (size : Nat) (a : Nat → α) (i : Nat) (x : α) : Option (Nat → α) :=
  if i < size then some (Function.update a i x) else none

/-- The elements of a list are stored one after the other, from index `pos` on. -/
def storeList (size : Nat) : (Nat → α) → Nat → List α → Option (Nat → α)
  | a, _, [] => some a
  | a, pos, x :: xs => (store size a pos x).bind fun a => storeList size a (pos + 1) xs

theorem storeList_append : storeList size a pos (xs ++ ys) =
    (storeList size a pos xs).bind fun a => storeList size a (pos + xs.length) ys := by
  induction xs generalizing a pos with
  | nil => rfl
  | cons x xs ih =>
    rw [List.cons_append, storeList, storeList, Option.bind_assoc]
    congr 1
    funext a
    rw [ih, List.length_cons, Nat.add_right_comm, Nat.add_assoc]

/-- The stores are defined exactly when the last one is. -/
theorem isSome_storeList : (storeList size a pos xs).isSome ↔ xs = [] ∨ pos + xs.length ≤ size := by
  induction xs generalizing a pos with
  | nil => simp [storeList]
  | cons x xs ih =>
    rw [storeList, store]
    split
    · rw [Option.bind_some, ih]
      cases xs <;> simp <;> omega
    · simp
      omega

theorem storeList_of_lt (h : storeList size a pos xs = some b) (hi : i < pos) : b i = a i := by
  induction xs generalizing a pos with
  | nil => exact congrFun (Option.some.inj h).symm i
  | cons x xs ih =>
    obtain ⟨a₁, hs, h⟩ := Option.bind_eq_some_iff.mp h
    rw [ih h (by omega)]
    rw [store] at hs
    split at hs
    · rw [← Option.some.inj hs, Function.update_of_ne (by omega)]
    · cases hs

theorem storeList_of_mem (h : storeList size a pos xs = some b) (hj : xs[j]? = some x) :
    b (pos + j) = x := by
  induction xs generalizing a pos j with
  | nil => cases hj
  | cons y xs ih =>
    obtain ⟨a₁, hs, h⟩ := Option.bind_eq_some_iff.mp h
    cases j with
    | zero =>
      rw [Nat.add_zero, storeList_of_lt h (Nat.lt_succ_self pos)]
      rw [store] at hs
      split at hs
      · rw [← Option.some.inj hs, Function.update_self]
        exact Option.some.inj hj
      · cases hs
    | succ j =>
      rw [← Nat.add_assoc, Nat.add_right_comm]
      exact ih h hj

/-- What was stored from the start of an array is read back. -/
theorem slice_storeList {a b : ByteStore.Store} {bs : List UInt8}
    (h : storeList size a 0 bs = some b) : ByteStore.slice b 0 bs.length = bs := by
  rw [ByteStore.slice_eq_iff]
  intro j hj
  exact storeList_of_mem h (List.getElem?_eq_getElem hj)

end LocalArray
