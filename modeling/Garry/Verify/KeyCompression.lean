import Garry.Library.CommonPrefix
import Garry.Model.KeyCompression

/-!
# Separators and compressed keys

The separator is right for all keys. A compressed key is stored with two bytes for its lengths in a
buffer that has no room for them behind the longest keys.
-/

namespace Garry

open ByteStore LocalArray CommonPrefix

variable {a b left right prev key : Bytes}

theorem commonPrefixLoop_cons (x y : UInt8) (n i : Nat) :
    commonPrefixLoop (x :: a) (y :: b) n (i + 1) = commonPrefixLoop a b n i + 1 := by
  induction n generalizing i with
  | zero => rfl
  | succ n ih =>
    simp only [commonPrefixLoop, List.getElem?_cons_succ, ih]
    split <;> rfl

/-- The loop counts the elements of the common prefix. -/
theorem commonPrefixLength_eq (a b : Bytes) : commonPrefixLength a b = commonLength a b := by
  induction a generalizing b with
  | nil =>
    have hzero : (if ([] : Bytes).length < b.length then ([] : Bytes).length else b.length) = 0 := by
      cases b <;> rfl
    rw [commonPrefixLength, hzero]
    rfl
  | cons x a ih =>
    cases b with
    | nil => rfl
    | cons y b =>
      have hlimit : (if (x :: a).length < (y :: b).length then (x :: a).length else
          (y :: b).length) = (if a.length < b.length then a.length else b.length) + 1 := by
        simp only [List.length_cons, Nat.add_lt_add_iff_right]
        split <;> rfl
      rw [commonPrefixLength, hlimit, commonPrefixLoop, commonLength, ← ih b, commonPrefixLoop_cons,
        List.getElem?_cons_zero, List.getElem?_cons_zero]
      simp only [Option.some_inj]
      rfl

/-! ## Separators -/

/-- The branch that copies the left key is never taken. -/
theorem minimumSeparator_eq (hlt : left < right) (hright : right.length ≤ maxKeySize) :
    ∃ result, minimumSeparator left right = some result ∧
      slice result 0 (min (commonPrefixLength left right + 1) right.length) =
        separator left right := by
  have hlen : (if commonPrefixLength left right + 1 > right.length then right.length else
      commonPrefixLength left right + 1) = min (commonPrefixLength left right + 1) right.length := by
    split <;> omega
  have hsep : right.take (min (commonPrefixLength left right + 1) right.length) =
      separator left right := by
    rw [separator, commonPrefixLength_eq, List.take_eq_take_iff]
    omega
  have hsize : (separator left right).length =
      min (commonPrefixLength left right + 1) right.length := by
    rw [← hsep, List.length_take]
    omega
  obtain ⟨result, hstore⟩ : ∃ result,
      storeList maxKeySize (fun _ => 0) 0 (separator left right) = some result := by
    rw [← Option.isSome_iff_exists, isSome_storeList]
    omega
  have hslice := slice_storeList hstore
  rw [hsize] at hslice
  refine ⟨result, ?_, hslice⟩
  have hgt : ¬ byteCompare (separator left right) left ≤ 0 := by
    rw [not_le, byteCompare_gt_zero]
    exact lt_separator hlt
  simp only [minimumSeparator, hlen, hsep, hstore, Option.bind_some, hslice]
  exact if_neg hgt

/-- The separator lies between the keys, and nothing shorter does. -/
theorem minimumSeparator_least (hright : right.length ≤ maxKeySize) (hlt : byteCompare left right < 0) :
    ∃ result sep, minimumSeparator left right = some result ∧
      slice result 0 (min (commonPrefixLength left right + 1) right.length) = sep ∧
      byteCompare left sep < 0 ∧ byteCompare sep right ≤ 0 ∧
      ∀ s, byteCompare left s < 0 → byteCompare s right ≤ 0 → sep.length ≤ s.length := by
  rw [byteCompare_lt_zero] at hlt
  obtain ⟨result, heq, hslice⟩ := minimumSeparator_eq hlt hright
  refine ⟨result, separator left right, heq, hslice, ?_, ?_, fun s hs hsr => ?_⟩
  · exact byteCompare_lt_zero.mpr (lt_separator hlt)
  · rw [← not_lt, byteCompare_gt_zero]
    exact separator_not_gt left right
  · rw [byteCompare_lt_zero] at hs
    rw [← not_lt, byteCompare_gt_zero] at hsr
    exact length_separator_le hs hsr

/-- A key and one that continues it. -/
theorem minimumSeparator_least_prefix : ∃ result sep,
    minimumSeparator [97] [97, 98, 99] = some result ∧ slice result 0 2 = sep ∧
      byteCompare [97] sep < 0 ∧ byteCompare sep [97, 98, 99] ≤ 0 ∧
      ∀ s, byteCompare [97] s < 0 → byteCompare s [97, 98, 99] ≤ 0 → sep.length ≤ s.length :=
  @minimumSeparator_least [97] [97, 98, 99] (by decide) (by decide)

/-! ## Compressed keys -/

/-- A key goes through compression with its common prefix and back, within the buffers. -/
def CompressesBack (prev key : Bytes) : Prop :=
  ∃ compressed result, compressKey key (commonPrefixLength prev key) = some compressed ∧
    decompressKey compressed prev = some result ∧ slice result 0 key.length = key

theorem toNat_toByte_natCast (n : Nat) : (toByte n).toNat = n % 256 := by
  have h := toNat_byteAt n 1
  rw [toByte]
  omega

theorem slice_toBuffer_take (bs : Bytes) (n : Nat) (h : n ≤ bs.length) :
    slice bs.toBuffer 0 n = bs.take n := by
  apply List.ext_getElem?
  intro i
  rw [slice, List.getElem?_map, List.getElem?_take]
  split
  · next hi =>
    rw [List.getElem?_range hi, Option.map_some, Nat.zero_add, Bytes.toBuffer,
      List.getD_eq_getElem?_getD, List.getElem?_eq_getElem (by omega)]
    rfl
  · next hi => rw [List.getElem?_eq_none (by simpa using hi), Option.map_none]

/-- What the buffer holds when the key has room in it. -/
theorem compressKey_some {n : Nat} (hn : n ≤ key.length) {compressed : Store}
    (h : compressKey key n = some compressed) :
    (compressed 0).toNat = n % 256 ∧ (compressed 1).toNat = (key.length - n) % 256 ∧
      slice compressed 2 (key.length - n) = key.drop n := by
  have hsuffix : (key.length : Int) - n = ((key.length - n : Nat) : Int) := by omega
  rw [compressKey] at h
  simp only [hsuffix] at h
  have h0 := @storeList_of_mem _ _ _ _ _ _ _ 0 h rfl
  have h1 := @storeList_of_mem _ _ _ _ _ _ _ 1 h rfl
  rw [Nat.zero_add] at h0 h1
  refine ⟨by rw [h0, toNat_toByte_natCast], by rw [h1, toNat_toByte_natCast], ?_⟩
  rw [← List.length_drop, slice_eq_iff]
  intro j hj
  have hj := @storeList_of_mem _ _ _ _ _ _ _ (j + 2) h
    (List.getElem?_eq_getElem (l := key.drop n) hj)
  rwa [Nat.zero_add, Nat.add_comm] at hj

theorem compressKey_isSome {n : Nat} :
    (compressKey key n).isSome ↔ key.length - n ≤ 254 := by
  rw [compressKey, isSome_storeList]
  simp only [List.length_cons, List.length_drop, reduceCtorEq, false_or, maxKeySize]
  omega

/-- A key goes through compression exactly when the lengths fit the two bytes and the rest of the
key fits behind them; a key of zeros is what the cleared buffer holds. -/
theorem compressesBack_iff (prev : Bytes) (hkey : key.length ≤ maxKeySize) :
    CompressesBack prev key ↔ key.length - commonPrefixLength prev key ≤ 254 ∧
      (commonPrefixLength prev key ≤ 255 ∨ key = List.replicate 256 0) := by
  have hle : commonPrefixLength prev key ≤ key.length :=
    commonPrefixLength_eq prev key ▸ commonLength_le_right prev key
  have hle' : commonPrefixLength prev key ≤ prev.length :=
    commonPrefixLength_eq prev key ▸ commonLength_le_left prev key
  have htake : prev.take (commonPrefixLength prev key) = key.take (commonPrefixLength prev key) := by
    rw [commonPrefixLength_eq]
    exact take_commonLength prev key
  rw [CompressesBack]
  generalize commonPrefixLength prev key = n at hle hle' htake
  rw [maxKeySize] at hkey
  -- with a prefix of 256 bytes both lengths are stored as 0
  have hfull {compressed : Store} (hn : 256 ≤ n) (h : compressKey key n = some compressed) :
      decompressKey compressed prev = some fun _ => 0 := by
    obtain ⟨h0, h1, -⟩ := compressKey_some hle h
    rw [decompressKey, h0, h1, show n % 256 = 0 by omega, show (key.length - n) % 256 = 0 by omega]
    rfl
  have hzero : slice (fun _ => 0) 0 256 = List.replicate 256 0 := by
    rw [slice, List.map_const', List.length_range]
  constructor
  · rintro ⟨compressed, result, hc, hd, hback⟩
    refine ⟨compressKey_isSome.mp (Option.isSome_of_eq_some hc), ?_⟩
    rcases Nat.lt_or_ge n 256 with hlt | hn
    · exact .inl (Nat.le_of_lt_succ hlt)
    · rw [hfull hn hc] at hd
      cases hd
      rw [show key.length = 256 by omega, hzero] at hback
      exact .inr hback.symm
  · rintro ⟨hsuffix, hprefix⟩
    obtain ⟨compressed, hc⟩ := Option.isSome_iff_exists.mp (compressKey_isSome.mpr hsuffix)
    rcases Nat.lt_or_ge n 256 with hlt | hn
    · obtain ⟨h0, h1, hdrop⟩ := compressKey_some hle hc
      rw [Nat.mod_eq_of_lt hlt] at h0
      rw [Nat.mod_eq_of_lt (by omega)] at h1
      obtain ⟨result, hresult⟩ : ∃ result, storeList maxKeySize (fun _ => 0) 0 key = some result := by
        rw [← Option.isSome_iff_exists, isSome_storeList, maxKeySize]
        omega
      refine ⟨compressed, result, hc, ?_, slice_storeList hresult⟩
      rw [← List.take_append_drop n key, storeList_append, List.length_take, Nat.min_eq_left hle,
        Nat.zero_add] at hresult
      rw [decompressKey, h0, h1, slice_toBuffer_take prev n hle', htake, hdrop]
      exact hresult
    · have hkey := hprefix.resolve_left (by omega)
      refine ⟨compressed, _, hc, hfull hn hc, ?_⟩
      rw [show key.length = 256 by omega, hzero, hkey]

/-- A key that continues the one before it. -/
theorem compressesBack_iff_prefix : CompressesBack [97] [97, 98] :=
  (@compressesBack_iff [97, 98] [97] (by decide)).mpr ⟨by decide, .inl (by decide)⟩

/-- The last byte of a key of 255 bytes, which has no prefix in common, is stored past the end. -/
theorem compressKey_pastEnd : compressKey (List.replicate 255 1) (commonPrefixLength []
    (List.replicate 255 1)) = none ∧ ¬ CompressesBack [] (List.replicate 255 1) := by
  have hnone : compressKey (List.replicate 255 1) (commonPrefixLength []
      (List.replicate 255 1)) = none := by
    decide +kernel
  refine ⟨hnone, fun h => ?_⟩
  obtain ⟨compressed, -, hc, -⟩ := h
  rw [hnone] at hc
  cases hc

end Garry
