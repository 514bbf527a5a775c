import Garry.Model.Config

/-!
# Keys (`key_encoding.c`)

Keys are compared byte by byte and a proper prefix is the smaller one: the lexicographic order of
lists of bytes.
-/

namespace Garry

instance instLinearOrderByte : LinearOrder UInt8 where
  le_refl a := UInt8.le_refl a
  le_trans _ _ _ := UInt8.le_trans
  le_antisymm _ _ := UInt8.le_antisymm
  lt_iff_le_not_ge a b := by
    rw [UInt8.lt_iff_toNat_lt, UInt8.le_iff_toNat_le, UInt8.le_iff_toNat_le]; omega
  le_total a b := UInt8.le_total a b
  toDecidableLE := inferInstance
  toDecidableLT := inferInstance
  toDecidableEq := inferInstance

/-- The lexicographic order, with the decision procedures of lists. -/
instance instLinearOrderBytes : LinearOrder Bytes where
  le_refl _ := le_refl _
  le_trans _ _ _ := le_trans
  le_antisymm _ _ := le_antisymm
  lt_iff_le_not_ge _ _ := lt_iff_le_not_ge
  le_total := le_total
  toDecidableLE := inferInstance
  toDecidableLT := inferInstance
  toDecidableEq := inferInstance
  compare a b := compareOfLessAndEq a b
  compare_eq_compareOfLessAndEq _ _ := rfl

/-- `garry_byte_compare`. -/
def byteCompare : Bytes → Bytes → Int
  | [], [] => 0
  | [], _ :: _ => -1
  | _ :: _, [] => 1
  | x :: a, y :: b => if x < y then -1 else if x > y then 1 else byteCompare a b

/-- `garry_byte_equal`. -/
def byteEqual (a b : Bytes) : Bool := a == b

/-- `garry_has_prefix`. -/
def hasPrefix (key pre : Bytes) : Bool := pre.isPrefixOf key

theorem byteCompare_lt_zero {a b : Bytes} : byteCompare a b < 0 ↔ a < b := by
  induction a generalizing b with
  | nil => cases b <;> simp [byteCompare]
  | cons x a ih =>
    cases b with
    | nil => simp [byteCompare]
    | cons y b =>
      rw [byteCompare, List.cons_lt_cons_iff, ← ih]
      split
      · next h => simp [h]
      split
      · next h h' => simp [h, ne_of_gt h']
      · next h h' =>
        obtain rfl : x = y := le_antisymm (not_lt.mp h') (not_lt.mp h)
        simp

theorem byteCompare_gt_zero {a b : Bytes} : 0 < byteCompare a b ↔ b < a := by
  induction a generalizing b with
  | nil => cases b <;> simp [byteCompare]
  | cons x a ih =>
    cases b with
    | nil => simp [byteCompare]
    | cons y b =>
      rw [byteCompare, List.cons_lt_cons_iff, ← ih]
      split
      · next h => simp [not_lt_of_gt h, ne_of_gt h]
      split
      · next h' => simp [h']
      · next h h' =>
        obtain rfl : x = y := le_antisymm (not_lt.mp h') (not_lt.mp h)
        simp

theorem byteEqual_iff {a b : Bytes} : byteEqual a b = true ↔ a = b := by simp [byteEqual]

end Garry
