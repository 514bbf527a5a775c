import Garry.Model.RecordBounds
import Garry.Verify.KeyTuple

/-!
# Damaged records

The decoder of a byte string takes a first byte below the byte strings for a negative length, and does
not compare a length with what is left of the input. What `garry_decode_kv` makes of a record is
decided by the bytes that stand at the key and at the value.
-/

namespace Garry

open ByteStore

/-! ## Headers -/

/-- The headers of an array of two. -/
inductive ArrayOfTwo : Bytes → Prop
  | short : ArrayOfTwo [130]
  | long : ArrayOfTwo [152, 2]

/-- The headers of a byte string of this length. -/
inductive StringHeader (n : Nat) : Bytes → Prop
  | short {fb : UInt8} : n < 24 → fb.toNat = 64 + n → StringHeader n [fb]
  | long {b : UInt8} : b.toNat = n → StringHeader n [88, b]

/-- A byte string, and what stands behind it. -/
def StringAt (bs data rest : Bytes) : Prop :=
  ∃ header, StringHeader data.length header ∧ bs = header ++ (data ++ rest)

/-- A first byte that is turned down: one below the bound, one above the byte strings that are read, or
the announcement of a length with nothing behind it. -/
def TurnedDown (bound : Nat) (bs : Bytes) : Prop :=
  ∃ fb rest, bs = fb :: rest ∧ (fb.toNat < bound ∨ 88 < fb.toNat ∨ fb = 88 ∧ rest = [])

variable {pre bs data rest : Bytes} {fb : UInt8} {n : Nat}

theorem ArrayOfTwo.length_pos (h : ArrayOfTwo pre) : 0 < pre.length := by
  cases h <;> decide

theorem StringHeader.lt (h : StringHeader n bs) : n < 256 := by
  cases h with
  | short h => omega
  | long h => exact h ▸ UInt8.toNat_lt _

/-! ## The decoder on a buffer -/

theorem byteVal_of_byteIn {encoded : Bytes} {i v : Int} (h : byteIn encoded i = some v) :
    byteVal encoded.toBuffer i = v := by
  rw [byteIn] at h
  split at h
  · cases h
  · obtain ⟨b, hb, rfl⟩ := Option.map_eq_some_iff.mp h
    rw [byteVal, Bytes.toBuffer, List.getD_eq_getElem?_getD, hb]
    rfl

theorem slice_of_bytesIn {encoded : Bytes} {off len : Int} (h : bytesIn encoded off len = some data) :
    slice encoded.toBuffer off.toNat len.toNat = data := by
  rw [bytesIn] at h
  split at h
  · next hlen =>
    rw [Int.toNat_of_nonpos hlen]
    exact Option.some.inj h
  · obtain ⟨hin, hdata⟩ := Option.ite_none_right_eq_some.mp h
    obtain rfl := Option.some.inj hdata
    apply List.ext_getElem
    · simp only [length_slice, List.length_take, List.length_drop]
      omega
    · intro j h1 h2
      simp only [length_slice] at h1
      have hlt : off.toNat + j < encoded.length := by omega
      simp [slice, Bytes.toBuffer, hlt]

theorem arrayHeaderIn_eq {encoded : Bytes} {blen pos c : Int}
    (h : arrayHeaderIn encoded blen pos = some c) :
    cborDecodeArrayHeaderRaw encoded.toBuffer blen pos = c := by
  obtain ⟨v, hv, h⟩ := Option.bind_eq_some_iff.mp h
  rw [cborDecodeArrayHeaderRaw, byteVal_of_byteIn hv]
  simp only at h ⊢
  split at h
  · next hif =>
    rw [if_pos hif]
    exact Option.some.inj h
  next hif =>
  rw [if_neg hif]
  split at h
  · next hai =>
    rw [if_pos hai]
    exact Option.some.inj h
  next hai =>
  rw [if_neg hai]
  split at h
  · next hlong =>
    rw [if_pos hlong]
    exact byteVal_of_byteIn h
  · next hlong =>
    rw [if_neg hlong]
    exact Option.some.inj h

theorem byteStringIn_eq {encoded : Bytes} {blen pos : Int} {r : Int × Bytes × Int}
    (h : byteStringIn encoded blen pos = some r) :
    cborDecodeByteStringRaw encoded.toBuffer blen pos = r := by
  obtain ⟨v, hv, h⟩ := Option.bind_eq_some_iff.mp h
  rw [cborDecodeByteStringRaw, byteVal_of_byteIn hv]
  simp only at h ⊢
  split at h
  · next hai =>
    obtain ⟨data, hdata, h⟩ := Option.bind_eq_some_iff.mp h
    rw [if_pos hai, slice_of_bytesIn hdata]
    exact Option.some.inj h
  next hai =>
  rw [if_neg hai]
  split at h
  · next hlong =>
    obtain ⟨slen, hslen, h⟩ := Option.bind_eq_some_iff.mp h
    obtain ⟨data, hdata, h⟩ := Option.bind_eq_some_iff.mp h
    rw [if_pos hlong, byteVal_of_byteIn hslen, slice_of_bytesIn hdata]
    exact Option.some.inj h
  · next hlong =>
    rw [if_neg hlong]
    exact Option.some.inj h

/-- Where it reads no byte outside, the record decoder does the same on a buffer that goes on behind
the record. -/
theorem decodeKv_of_decodeKvIn {encoded : Bytes} {r : Option ((Bytes × Int) × (Bytes × Int))}
    (h : decodeKvIn encoded = some r) : decodeKv encoded.toBuffer encoded.length = r := by
  rw [decodeKvIn] at h
  rw [decodeKv]
  simp only at h ⊢
  split at h
  · next hlen =>
    rw [if_pos hlen]
    exact Option.some.inj h
  next hlen =>
  obtain ⟨c, hc, h⟩ := Option.bind_eq_some_iff.mp h
  rw [if_neg hlen, arrayHeaderIn_eq hc]
  split at h
  · next h2 =>
    rw [if_pos h2]
    exact Option.some.inj h
  next h2 =>
  obtain ⟨size, hsize, h⟩ := Option.bind_eq_some_iff.mp h
  obtain ⟨v, hv, hsize⟩ := Option.bind_eq_some_iff.mp hsize
  have hsize' : cborArrayHeaderSizeRaw encoded.toBuffer 0 = size := by
    rw [cborArrayHeaderSizeRaw, byteVal_of_byteIn hv]
    exact Option.some.inj hsize
  obtain ⟨⟨pos, key, klen⟩, hkey, h⟩ := Option.bind_eq_some_iff.mp h
  rw [if_neg h2, hsize', byteStringIn_eq hkey]
  simp only at h ⊢
  split at h
  · next hpos =>
    rw [if_pos hpos]
    exact Option.some.inj h
  next hpos =>
  obtain ⟨⟨pos', value, vlen⟩, hvalue, h⟩ := Option.bind_eq_some_iff.mp h
  rw [if_neg hpos, byteStringIn_eq hvalue]
  simp only at h ⊢
  split at h
  · next hpos' =>
    rw [if_pos hpos']
    exact Option.some.inj h
  · next hpos' =>
    rw [if_neg hpos']
    exact Option.some.inj h

/-! ## One byte string -/

theorem byteIn_end (pre : Bytes) : byteIn (pre ++ []) pre.length = none := by
  have h := byteIn_append pre [] 0
  rwa [Nat.cast_zero, Int.add_zero] at h

theorem byteIn_second (pre : Bytes) (fb : UInt8) (bs : Bytes) :
    byteIn (pre ++ fb :: bs) (pre.length + 1) = (bs.head?).map fun b => (b.toNat : Int) := by
  have h := byteIn_append pre (fb :: bs) 1
  rw [Nat.cast_one] at h
  rw [h, List.getElem?_cons_succ, List.head?_eq_getElem?]

theorem bytesIn_nonpos {bs : Bytes} {off len : Int} (h : len ≤ 0) : bytesIn bs off len = some [] :=
  if_pos h

/-- Below the byte strings the length is negative, and nothing is copied. -/
theorem byteStringIn_negative (pre : Bytes) (h : fb.toNat < 64) (rest : Bytes) :
    byteStringIn (pre ++ fb :: rest) (pre ++ fb :: rest).length pre.length =
      some ((pre.length : Int) + 1 + ((fb.toNat : Int) - 64), [], (fb.toNat : Int) - 64) := by
  rw [byteStringIn, byteIn_head]
  simp only [Option.bind_eq_bind, Option.bind_some, cborBytesBase]
  rw [if_pos (by omega), bytesIn_nonpos (by omega)]
  rfl

theorem byteStringIn_turnedDown (pre : Bytes)
    (h : 88 < fb.toNat ∨ fb = 88 ∧ rest = []) :
    byteStringIn (pre ++ fb :: rest) (pre ++ fb :: rest).length pre.length = some (0, [], 0) := by
  rw [byteStringIn, byteIn_head]
  simp only [Option.bind_eq_bind, Option.bind_some, cborBytesBase, cborInlineThreshold]
  rcases h with h | ⟨rfl, rfl⟩
  · rw [if_neg (by omega), if_neg (by omega)]
  · rw [if_neg (by decide), if_neg (by simp)]

theorem byteStringIn_stringAt (pre : Bytes) (h : StringAt bs data rest) :
    ∃ header, StringHeader data.length header ∧ bs = header ++ (data ++ rest) ∧
    byteStringIn (pre ++ bs) (pre ++ bs).length pre.length =
      some (((pre ++ header ++ data).length : Int), data, (data.length : Int)) := by
  obtain ⟨header, hheader, rfl⟩ := h
  refine ⟨header, hheader, rfl, ?_⟩
  have hbytes := bytesIn_append (pre ++ header) data rest
  rw [List.append_assoc] at hbytes
  cases hheader with
  | @short fb hlt hfb =>
    rw [List.length_append, List.length_singleton, Nat.cast_add, Nat.cast_one] at hbytes
    rw [List.singleton_append] at hbytes ⊢
    rw [byteStringIn, byteIn_head]
    simp only [Option.bind_eq_bind, Option.bind_some, cborBytesBase]
    rw [if_pos (by omega), show (fb.toNat : Int) - 64 = data.length by omega, hbytes,
      Option.bind_some]
    congr 2
    simp only [List.length_append, List.length_singleton]
    omega
  | @long b hb =>
    rw [List.length_append, List.length_cons, List.length_singleton, Nat.cast_add] at hbytes
    rw [List.cons_append, List.singleton_append] at hbytes ⊢
    have hsecond := byteIn_second pre 88 (b :: (data ++ rest))
    rw [List.head?_cons, Option.map_some, hb] at hsecond
    rw [byteStringIn, byteIn_head, hsecond]
    simp only [Option.bind_eq_bind, Option.bind_some, cborBytesBase, cborInlineThreshold]
    rw [if_neg (by decide),
      if_pos ⟨by decide, by simp only [List.length_append, List.length_cons]; omega⟩]
    refine (congrArg (Option.bind · _) hbytes).trans (congrArg some ?_)
    congr 1
    simp only [List.length_append, List.length_cons, List.length_nil]
    omega

/-- Where it reads no byte outside, it has turned down the first byte or found a byte string. -/
theorem found_of_byteStringIn (pre : Bytes)
    (h : byteStringIn (pre ++ bs) (pre ++ bs).length pre.length ≠ none) :
    TurnedDown 64 bs ∨ ∃ data rest, StringAt bs data rest := by
  obtain ⟨r, h⟩ := Option.ne_none_iff_exists'.mp h
  obtain ⟨v, hv, h⟩ := Option.bind_eq_some_iff.mp h
  cases bs with
  | nil =>
    rw [byteIn_end] at hv
    cases hv
  | cons fb tail =>
    rw [byteIn_head] at hv
    obtain rfl := Option.some.inj hv
    by_cases hdown : fb.toNat < 64 ∨ 88 < fb.toNat ∨ fb = 88 ∧ tail = []
    · exact .inl ⟨fb, tail, rfl, hdown⟩
    right
    push Not at hdown
    obtain ⟨hlow, hhigh, hempty⟩ := hdown
    simp only [cborBytesBase, cborInlineThreshold] at h
    split at h
    · next hlt =>
      obtain ⟨data, hdata, -⟩ := Option.bind_eq_some_iff.mp h
      obtain ⟨hlen, hend⟩ := bytesIn_some (by omega) hdata
      simp only [List.length_append, List.length_cons] at hend
      have hfit : fb.toNat - 64 ≤ tail.length := by omega
      refine ⟨tail.take (fb.toNat - 64), tail.drop (fb.toNat - 64), [fb], .short ?_ ?_, ?_⟩
      · rw [List.length_take_of_le hfit]
        omega
      · rw [List.length_take_of_le hfit]
        omega
      · rw [List.take_append_drop, List.singleton_append]
    · next hlt =>
      have h88 : (88 : UInt8).toNat = 88 := rfl
      obtain rfl : fb = 88 := UInt8.toNat_inj.mp (by omega)
      obtain ⟨b, tail, rfl⟩ := List.exists_cons_of_ne_nil (hempty rfl)
      rw [if_pos ⟨by decide, by simp only [List.length_append, List.length_cons]; omega⟩] at h
      obtain ⟨slen, hslen, h⟩ := Option.bind_eq_some_iff.mp h
      obtain ⟨data, hdata, -⟩ := Option.bind_eq_some_iff.mp h
      rw [byteIn_second, List.head?_cons, Option.map_some] at hslen
      obtain rfl := Option.some.inj hslen
      obtain ⟨hlen, hend⟩ := bytesIn_some (by omega) hdata
      simp only [List.length_append, List.length_cons] at hend
      have hfit : b.toNat ≤ tail.length := by omega
      refine ⟨tail.take b.toNat, tail.drop b.toNat, [88, b], .long ?_, ?_⟩
      · rw [List.length_take_of_le hfit]
      · rw [List.take_append_drop, List.cons_append, List.singleton_append]

/-! ## The value -/

/-- What follows the key. -/
def afterKey (encoded key : Bytes) (klen pos : Int) :
    Option (Option ((Bytes × Int) × (Bytes × Int))) :=
  if pos ≤ 0 then some none
  else (byteStringIn encoded encoded.length pos).bind fun r =>
    if r.1 ≤ 0 then some none else some (some ((key, klen), (r.2.1, r.2.2)))

variable {key value : Bytes} {klen vlen : Int}

theorem afterKey_turnedDown (pre : Bytes) (h : 88 < fb.toNat ∨ fb = 88 ∧ rest = []) :
    afterKey (pre ++ fb :: rest) key klen pre.length = some none := by
  rw [afterKey, byteStringIn_turnedDown pre h, Option.bind_some]
  split <;> rfl

theorem afterKey_negative (hpre : 0 < pre.length) (h : fb.toNat < 64) (rest : Bytes) :
    afterKey (pre ++ fb :: rest) key klen pre.length =
      if pre.length + fb.toNat < 64 then some none
      else some (some ((key, klen), ([], (fb.toNat : Int) - 64))) := by
  rw [afterKey, if_neg (by omega), byteStringIn_negative pre h, Option.bind_some]
  simp only
  split <;> split <;> first | rfl | omega

theorem afterKey_stringAt (hpre : 0 < pre.length) (h : StringAt bs value rest) :
    afterKey (pre ++ bs) key klen pre.length =
      some (some ((key, klen), (value, (value.length : Int)))) := by
  obtain ⟨header, -, -, hread⟩ := byteStringIn_stringAt pre h
  rw [afterKey, if_neg (by omega), hread, Option.bind_some, if_neg]
  simp only [List.length_append]
  omega

theorem found_of_afterKey (hpre : 0 < pre.length)
    (h : afterKey (pre ++ bs) key klen pre.length ≠ none) :
    TurnedDown 64 bs ∨ ∃ value rest, StringAt bs value rest := by
  apply found_of_byteStringIn pre
  intro hnone
  apply h
  rw [afterKey, if_neg (by omega), hnone]
  rfl

/-! ## The record -/

theorem byteIn_zero (fb : UInt8) (bs : Bytes) : byteIn (fb :: bs) 0 = some (fb.toNat : Int) :=
  byteIn_head [] fb bs

theorem byteIn_one (fb : UInt8) (bs : Bytes) :
    byteIn (fb :: bs) 1 = (bs.head?).map fun b => (b.toNat : Int) :=
  byteIn_second [] fb bs

theorem arrayHeaderIn_arrayOfTwo (h : ArrayOfTwo pre) (bs : Bytes) :
    arrayHeaderIn (pre ++ bs) (pre ++ bs).length 0 = some 2 ∧
      arrayHeaderSizeIn (pre ++ bs) 0 = some (pre.length : Int) := by
  rw [arrayHeaderIn, arrayHeaderSizeIn]
  cases h with
  | short =>
    rw [List.singleton_append, byteIn_zero]
    simp only [Option.bind_eq_bind, Option.bind_some, cborArrayBase, cborInlineThreshold]
    rw [if_neg (by decide), if_pos (by decide), if_pos (by decide)]
    exact ⟨rfl, rfl⟩
  | long =>
    rw [List.cons_append, List.singleton_append, byteIn_zero]
    simp only [Option.bind_eq_bind, Option.bind_some, cborArrayBase, cborInlineThreshold]
    refine ⟨?_, rfl⟩
    rw [if_neg (by decide), if_neg (by decide),
      if_pos ⟨by decide, by simp only [List.length_cons]; omega⟩]
    exact byteIn_one 152 (2 :: bs)

theorem decodeKvIn_arrayOfTwo (h : ArrayOfTwo pre) (bs : Bytes) :
    decodeKvIn (pre ++ bs) = (byteStringIn (pre ++ bs) (pre ++ bs).length pre.length).bind fun r =>
      afterKey (pre ++ bs) r.2.1 r.2.2 r.1 := by
  have hlen := h.length_pos
  obtain ⟨hcount, hsize⟩ := arrayHeaderIn_arrayOfTwo h bs
  rw [decodeKvIn]
  simp only
  rw [if_neg (by rw [List.length_append]; omega), hcount, hsize]
  simp only [Option.bind_eq_bind, Option.bind_some, Int.zero_add]
  rfl

theorem arrayHeaderIn_other {encoded : Bytes} (hne : encoded ≠ [])
    (h : ∀ pre bs, ArrayOfTwo pre → encoded ≠ pre ++ bs) :
    ∃ c, arrayHeaderIn encoded encoded.length 0 = some c ∧ c ≠ 2 := by
  obtain ⟨fb, tail, rfl⟩ := List.exists_cons_of_ne_nil hne
  rw [arrayHeaderIn, byteIn_zero]
  simp only [Option.bind_eq_bind, Option.bind_some, cborArrayBase, cborInlineThreshold]
  split
  · exact ⟨0, rfl, by decide⟩
  split
  · refine ⟨_, rfl, fun hc => ?_⟩
    have h130 : (130 : UInt8).toNat = 130 := rfl
    obtain rfl : fb = 130 := UInt8.toNat_inj.mp (by omega)
    exact h _ tail .short rfl
  split
  · next hlong =>
    obtain ⟨hai, hlt⟩ := hlong
    cases tail with
    | nil => exact absurd hlt (lt_irrefl _)
    | cons b tail =>
      refine ⟨b.toNat, byteIn_one fb (b :: tail), fun hc => ?_⟩
      have h152 : (152 : UInt8).toNat = 152 := rfl
      have h2 : (2 : UInt8).toNat = 2 := rfl
      obtain rfl : fb = 152 := UInt8.toNat_inj.mp (by omega)
      obtain rfl : b = 2 := UInt8.toNat_inj.mp (by omega)
      exact h _ tail .long rfl
  · exact ⟨0, rfl, by decide⟩

theorem decodeKvIn_other {encoded : Bytes} (h : ∀ pre bs, ArrayOfTwo pre → encoded ≠ pre ++ bs) :
    decodeKvIn encoded = some none := by
  by_cases hne : encoded = []
  · subst hne
    rfl
  obtain ⟨c, hc, hc2⟩ := arrayHeaderIn_other hne h
  have hpos := List.length_pos_of_ne_nil hne
  rw [decodeKvIn]
  simp only
  rw [if_neg (by omega), hc]
  simp only [Option.bind_eq_bind, Option.bind_some]
  rw [if_pos hc2]

/-- The key and the value stand behind their headers, and their lengths are reported; where the headers
are the shortest ones, the record begins with the encoding of the key and the value. -/
def Sliced (encoded key value : Bytes) (klen vlen : Int) : Prop :=
  ∃ array keyHeader valueHeader behind, ArrayOfTwo array ∧ StringHeader key.length keyHeader ∧
    StringHeader value.length valueHeader ∧
    encoded = array ++ (keyHeader ++ (key ++ (valueHeader ++ (value ++ behind)))) ∧
    klen = key.length ∧ vlen = value.length ∧
    (array.length = 1 → (key.length < 24 → keyHeader.length = 1) →
      (value.length < 24 → valueHeader.length = 1) → encodeKv key value <+: encoded)

/-- `garry_decode_kv` reads no byte outside the record, and what it returns stands in the record. -/
def SoundOn (encoded : Bytes) : Prop :=
  ∃ r, decodeKvIn encoded = some r ∧ ∀ key klen value vlen,
    r = some ((key, klen), (value, vlen)) → (0 ≤ klen ∧ klen ≤ 255) ∧ (0 ≤ vlen ∧ vlen ≤ 255) ∧
      Sliced encoded key value klen vlen

theorem StringHeader.shortest (h : StringHeader data.length pre)
    (hshort : data.length < 24 → pre.length = 1) : pre ++ data = cborEncodeByteStringRaw data := by
  rw [cborEncodeByteStringRaw]
  simp only [cborBytesBase, cborInlineThreshold]
  cases h with
  | @short fb hlt hfb =>
    have := toNat_toByte (v := 64 + data.length) (by omega) (by omega)
    obtain rfl : fb = toByte (64 + data.length) := UInt8.toNat_inj.mp (by omega)
    rw [if_pos (by omega), List.singleton_append]
  | @long b hb =>
    have := toNat_toByte (v := data.length) (by omega) (by have := UInt8.toNat_lt b; omega)
    obtain rfl : b = toByte data.length := UInt8.toNat_inj.mp (by omega)
    have hnot : ¬ data.length < 24 := by
      intro hlt
      cases hshort hlt
    rw [if_neg (by omega), List.cons_append, List.singleton_append]
    rfl

theorem soundOn_of_none {encoded : Bytes} (h : decodeKvIn encoded = some none) : SoundOn encoded :=
  ⟨none, h, fun _ _ _ _ hr => by cases hr⟩

/-- A record whose first byte does not announce that there is an array of two is turned down. For
another one it depends on the byte strings. -/
def RecordReadable (encoded : Bytes) : Prop :=
  ∀ array bs, ArrayOfTwo array → encoded = array ++ bs →
    TurnedDown 63 bs ∨ ∃ key rest, StringAt bs key rest ∧
      (TurnedDown (64 - (encoded.length - rest.length)) rest ∨ ∃ value behind, StringAt rest value behind)

theorem TurnedDown.mono {bound bound' : Nat} (h : TurnedDown bound bs) (hle : bound ≤ bound') :
    TurnedDown bound' bs := by
  obtain ⟨fb, rest, rfl, hfb | hfb⟩ := h
  · exact ⟨fb, rest, rfl, .inl (hfb.trans_le hle)⟩
  · exact ⟨fb, rest, rfl, .inr hfb⟩

/-- A negative length at the key is turned down at the key or at the value, but for the byte below the
byte strings: it stands at the value again. -/
theorem decodeKvIn_negative (h : ArrayOfTwo pre) (hfb : fb.toNat < 64) (rest : Bytes) :
    decodeKvIn (pre ++ fb :: rest) =
      if fb.toNat < 63 then some none else some (some (([], -1), ([], -1))) := by
  rw [decodeKvIn_arrayOfTwo h, byteStringIn_negative pre hfb, Option.bind_some]
  simp only
  split
  · next hlt =>
    by_cases hpos : (pre.length : Int) + 1 + ((fb.toNat : Int) - 64) ≤ 0
    · exact if_pos hpos
    · -- the position is back at the count of the array header
      cases h with
      | short =>
        simp only [List.length_singleton] at hpos
        omega
      | long =>
        simp only [List.length_cons, List.length_nil] at hpos ⊢
        have hpos' : ((1 + 1 : Nat) : Int) + 1 + ((fb.toNat : Int) - 64) = ([152] : Bytes).length := by
          simp only [List.length_singleton]
          omega
        have hcount : (2 : UInt8).toNat < 64 := by decide
        have hone : 0 < ([152] : Bytes).length := Nat.zero_lt_one
        rw [Nat.zero_add, hpos']
        exact afterKey_negative hone hcount (fb :: rest)
  · next hge =>
    have hpos : (pre.length : Int) + 1 + ((fb.toNat : Int) - 64) = pre.length := by omega
    have hlen := h.length_pos
    rw [hpos, afterKey_negative hlen hfb, if_neg (by omega)]
    congr 4 <;> omega

/-- Behind a key that is a byte string it goes on with the value. -/
theorem decodeKvIn_key (harray : ArrayOfTwo pre) (hkey : StringAt bs key rest) :
    ∃ header, StringHeader key.length header ∧ pre ++ bs = (pre ++ header ++ key) ++ rest ∧
      0 < (pre ++ header ++ key).length ∧
      decodeKvIn ((pre ++ header ++ key) ++ rest) =
        afterKey ((pre ++ header ++ key) ++ rest) key key.length (pre ++ header ++ key).length := by
  have hlen := harray.length_pos
  obtain ⟨header, hheader, rfl, hread⟩ := byteStringIn_stringAt pre hkey
  have hsplit : pre ++ (header ++ (key ++ rest)) = (pre ++ header ++ key) ++ rest := by
    simp only [List.append_assoc]
  have hkv := decodeKvIn_arrayOfTwo harray (header ++ (key ++ rest))
  rw [hread, Option.bind_some, hsplit] at hkv
  refine ⟨header, hheader, hsplit, ?_, hkv⟩
  simp only [List.length_append]
  omega

theorem length_sub_behind (pre rest : Bytes) : (pre ++ rest).length - rest.length = pre.length := by
  rw [List.length_append, Nat.add_sub_cancel]

theorem sliced_of_headers {header header' : Bytes} (harray : ArrayOfTwo pre)
    (hkey : StringHeader key.length header) (hvalue : StringHeader value.length header')
    (behind : Bytes) :
    Sliced (pre ++ header ++ key ++ (header' ++ (value ++ behind))) key value key.length
      value.length := by
  refine ⟨pre, header, header', behind, harray, hkey, hvalue, ?_, rfl, rfl, ?_⟩
  · simp only [List.append_assoc]
  · intro hlen hkshort hvshort
    have harr : pre = cborEncodeArrayHeaderRaw 2 := by
      cases harray with
      | short => rfl
      | long => cases hlen
    rw [encodeKv, ← hkey.shortest hkshort, ← hvalue.shortest hvshort, ← harr]
    refine ⟨behind, ?_⟩
    simp only [List.append_assoc]

theorem RecordReadable.soundOn {encoded : Bytes} (h : RecordReadable encoded) : SoundOn encoded := by
  by_cases harr : ∃ array bs, ArrayOfTwo array ∧ encoded = array ++ bs
  · obtain ⟨array, bs, harray, rfl⟩ := harr
    rcases h array bs harray rfl with ⟨fb, rest, rfl, hfb | hfb⟩ | ⟨key, rest, hkey, hvalue⟩
    · apply soundOn_of_none
      rw [decodeKvIn_negative harray (by omega), if_pos hfb]
    · apply soundOn_of_none
      rw [decodeKvIn_arrayOfTwo harray, byteStringIn_turnedDown array hfb]
      rfl
    · obtain ⟨header, hheader, hsplit, hpre, hkv⟩ := decodeKvIn_key harray hkey
      rw [hsplit, length_sub_behind] at hvalue
      rw [hsplit]
      rcases hvalue with ⟨fb, tail, rfl, hfb | hfb⟩ | ⟨value, behind, hvalue⟩
      · apply soundOn_of_none
        rw [hkv, afterKey_negative hpre (by omega), if_pos (by omega)]
      · apply soundOn_of_none
        rw [hkv, afterKey_turnedDown _ hfb]
      · rw [afterKey_stringAt hpre hvalue] at hkv
        obtain ⟨header', hheader', rfl⟩ := hvalue
        refine ⟨_, hkv, ?_⟩
        intro k klen v vlen hr
        obtain ⟨⟨rfl, rfl⟩, rfl, rfl⟩ : (key = k ∧ (key.length : Int) = klen) ∧
            value = v ∧ (value.length : Int) = vlen := by
          simpa only [Option.some.injEq, Prod.mk.injEq] using hr
        have hk := hheader.lt
        have hv := hheader'.lt
        exact ⟨by omega, by omega, sliced_of_headers harray hheader hheader' behind⟩
  · apply soundOn_of_none
    apply decodeKvIn_other
    intro array bs harray heq
    exact harr ⟨array, bs, harray, heq⟩

theorem SoundOn.recordReadable {encoded : Bytes} (h : SoundOn encoded) : RecordReadable encoded := by
  intro array bs harray hencoded
  subst hencoded
  obtain ⟨r, hr, hsound⟩ := h
  have hfound : TurnedDown 64 bs ∨ ∃ key rest, StringAt bs key rest := by
    apply found_of_byteStringIn array
    intro hnone
    rw [decodeKvIn_arrayOfTwo harray, hnone] at hr
    cases hr
  rcases hfound with ⟨fb, rest, rfl, hfb | hfb⟩ | ⟨key, rest, hkey⟩
  · refine .inl ⟨fb, rest, rfl, .inl ?_⟩
    by_contra hge
    rw [decodeKvIn_negative harray hfb, if_neg hge] at hr
    exact absurd (hsound _ _ _ _ (Option.some.inj hr).symm).1.1 (by decide)
  · exact .inl ⟨fb, rest, rfl, .inr hfb⟩
  · refine .inr ⟨key, rest, hkey, ?_⟩
    obtain ⟨header, -, hsplit, hpre, hkv⟩ := decodeKvIn_key harray hkey
    rw [hsplit] at hr ⊢
    rw [hkv] at hr
    rw [length_sub_behind]
    rcases found_of_afterKey hpre (Option.ne_none_iff_exists'.mpr ⟨r, hr⟩) with
      ⟨fb, tail, rfl, hfb | hfb⟩ | hvalue
    · refine .inl ⟨fb, tail, rfl, .inl ?_⟩
      by_contra hge
      rw [afterKey_negative hpre hfb, if_neg (by omega)] at hr
      have hneg := (hsound _ _ _ _ (Option.some.inj hr).symm).2.1.1
      omega
    · exact .inl ⟨fb, tail, rfl, .inr hfb⟩
    · exact .inr hvalue

/-- `garry_decode_kv` is sound on a record just when what stands at the key and at the value is turned
down or is a byte string in the record. -/
theorem decodeKv_soundOn (encoded : Bytes) : SoundOn encoded ↔ RecordReadable encoded :=
  ⟨SoundOn.recordReadable, RecordReadable.soundOn⟩

/-- The header of an array with nothing behind it; a key whose length is said to be -1; a key of five
bytes of which one is there. -/
theorem decodeKv_unsound : decodeKvIn [130] = none ∧
    decodeKvIn [130, 63] = some (some (([], -1), ([], -1))) ∧ decodeKvIn [130, 69, 97] = none := by
  decide

end Garry
