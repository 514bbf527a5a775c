import Garry.Model.Config

/-!
# CBOR records (`record_codec.c`, the integer codec of `btree_node.c`)

A leaf record is the array of a key and a value; the value of a storage key is the descriptor
`{"cid": chain id, "hc": has children}`. A decoder reads a buffer, whose bytes past the record are
whatever the buffer held.
-/

namespace Garry

open ByteStore

@[simp] abbrev cborInlineThreshold : Int := 24
@[simp] abbrev cborUintBase : Int := 0
@[simp] abbrev cborNegintBase : Int := 32
@[simp] abbrev cborBytesBase : Int := 64
@[simp] abbrev cborTextBase : Int := 96
@[simp] abbrev cborArrayBase : Int := 128
@[simp] abbrev cborMapBase : Int := 160
@[simp] abbrev cborSimpleBase : Int := 224
@[simp] abbrev cborSimpleFalse : Int := 20
@[simp] abbrev cborSimpleTrue : Int := 21

/-- The conversion `(garry_byte)v`. -/
def toByte (v : Int) : UInt8 := byteAt v 1

theorem toNat_toByte (h : 0 ≤ v) (h' : v < 256) : ((toByte v).toNat : Int) = v := by
  have := toNat_byteAt v 1
  simp only [toByte]; omega

/-- The byte at a position, as the `garry_i32` the decoders compute with. -/
def byteVal (buf : Store) (pos : Int) : Int := (buf pos.toNat).toNat

theorem byteVal_nonneg (buf : Store) (pos : Int) : 0 ≤ byteVal buf pos := by simp only [byteVal]; omega

theorem byteVal_lt : byteVal buf pos < 256 := by
  have := (buf pos.toNat).toNat_lt
  simp only [byteVal]; omega

/-- The bytes `bs` stand at position `pos` of the buffer. -/
def StandsAt (buf : Store) (pos : Int) (bs : Bytes) : Prop :=
  0 ≤ pos ∧ slice buf pos.toNat bs.length = bs

theorem StandsAt.append : StandsAt buf pos (bs ++ bs') ↔
    StandsAt buf pos bs ∧ StandsAt buf (pos + bs.length) bs' := by
  by_cases hp : 0 ≤ pos
  · have hp' : 0 ≤ pos + bs.length := by omega
    have e : (pos + bs.length).toNat = pos.toNat + bs.length := by omega
    simp only [StandsAt, hp, hp', true_and, e, slice_eq_iff]
    constructor
    · intro h
      refine ⟨fun j hj => ?_, fun j hj => ?_⟩
      · rw [h j (by simp; omega), List.getElem_append_left hj]
      · rw [Nat.add_assoc, h (bs.length + j) (by simp; omega),
          List.getElem_append_right (by omega)]
        simp
    · rintro ⟨h1, h2⟩ j hj
      by_cases hlt : j < bs.length
      · rw [h1 j hlt, List.getElem_append_left hlt]
      · have := h2 (j - bs.length) (by simp at hj; omega)
        rw [Nat.add_assoc, Nat.add_sub_cancel' (by omega)] at this
        rw [this, List.getElem_append_right (by omega)]
  · simp [StandsAt, hp]

theorem StandsAt.head (h : StandsAt buf pos (b :: bs)) : buf pos.toNat = b := by
  have := slice_eq_iff.mp h.2 0 (by simp)
  simpa using this

theorem StandsAt.tail (h : StandsAt buf pos (b :: bs)) : StandsAt buf (pos + 1) bs :=
  (StandsAt.append.mp (show StandsAt buf pos ([b] ++ bs) from h)).2

theorem StandsAt.byteVal (h : StandsAt buf pos (b :: bs)) : byteVal buf pos = b.toNat := by
  simp only [Garry.byteVal, h.head]

theorem Bytes.toBuffer_standsAt (bs : Bytes) : StandsAt bs.toBuffer 0 bs := by
  refine ⟨Int.le_refl _, ?_⟩
  apply List.ext_getElem (by simp)
  intro j h1 h2
  simp [slice, Bytes.toBuffer, h2]

/-! ## Unsigned integers -/

/-- The shortest head for `val` in the major type at `base`: `encode_uint`, `encode_negint` and
`encode_cbor_uint` write it with their own base. -/
def cborHead (base val : Int) : Bytes :=
  if val < 24 then [toByte (base + val)]
  else if val < 256 then [toByte (base + 24), toByte val]
  else if val < 65536 then [toByte (base + 25), toByte (val / 256 % 256), toByte (val % 256)]
  else [toByte (base + 26), toByte (val / 16777216 % 256), toByte (val / 65536 % 256),
    toByte (val / 256 % 256), toByte (val % 256)]

/-- The head read back at `pos`: the value and the position after it. -/
def cborReadHead (base : Int) (buf : Store) (elen pos : Int) : Option (Int × Int) :=
  let fb := byteVal buf pos
  if base ≤ fb ∧ fb < base + 24 then some (fb - base, pos + 1)
  else if fb = base + 24 ∧ pos + 1 < elen then some (byteVal buf (pos + 1), pos + 2)
  else if fb = base + 25 ∧ pos + 2 < elen then
    some (byteVal buf (pos + 1) * 256 + byteVal buf (pos + 2), pos + 3)
  else if fb = base + 26 ∧ pos + 4 < elen then
    some (byteVal buf (pos + 1) * 16777216 + byteVal buf (pos + 2) * 65536 +
      byteVal buf (pos + 3) * 256 + byteVal buf (pos + 4), pos + 5)
  else none

theorem length_cborHead_le (base val : Int) : (cborHead base val).length ≤ 5 := by
  simp only [cborHead]; split <;> [skip; split <;> [skip; split]] <;> simp

theorem length_cborHead_pos (base val : Int) : 0 < (cborHead base val).length := by
  simp only [cborHead]; split <;> [skip; split <;> [skip; split]] <;> simp

theorem cborReadHead_cborHead (hbase : 0 ≤ base ∧ base ≤ 224) (hval : 0 ≤ val ∧ val < 4294967296)
    (h : StandsAt buf pos (cborHead base val)) (hlen : pos + (cborHead base val).length ≤ elen) :
    cborReadHead base buf elen pos = some (val, pos + (cborHead base val).length) := by
  have hb (v : Int) (h1 : 0 ≤ v) (h2 : v < 256) : ((toByte v).toNat : Int) = v :=
    toNat_toByte h1 h2
  simp only [cborHead] at h hlen ⊢
  by_cases h24 : val < 24
  · simp only [if_pos h24] at h hlen ⊢
    have e0 := h.byteVal
    rw [hb _ (by omega) (by omega)] at e0
    simp only [cborReadHead, e0]
    rw [if_pos (by omega)]
    simp
  simp only [if_neg h24] at h hlen ⊢
  by_cases h256 : val < 256
  · simp only [if_pos h256] at h hlen ⊢
    have e0 := h.byteVal
    have e1 := h.tail.byteVal
    rw [hb _ (by omega) (by omega)] at e0
    rw [hb _ (by omega) (by omega)] at e1
    simp at hlen
    simp only [cborReadHead, e0, e1]
    rw [if_neg (by omega), if_pos ⟨trivial, by omega⟩]
    simp
  simp only [if_neg h256] at h hlen ⊢
  by_cases h64k : val < 65536
  · simp only [if_pos h64k] at h hlen ⊢
    have e0 := h.byteVal
    have e1 := h.tail.byteVal
    have e2 := h.tail.tail.byteVal
    rw [hb _ (by omega) (by omega)] at e0
    rw [hb _ (by omega) (by omega)] at e1
    rw [hb _ (by omega) (by omega), show pos + 1 + 1 = pos + 2 by omega] at e2
    simp at hlen
    simp only [cborReadHead, e0, e1, e2]
    rw [if_neg (by omega), if_neg (by omega), if_pos ⟨trivial, by omega⟩]
    simp; omega
  · simp only [if_neg h64k] at h hlen ⊢
    have e0 := h.byteVal
    have e1 := h.tail.byteVal
    have e2 := h.tail.tail.byteVal
    have e3 := h.tail.tail.tail.byteVal
    have e4 := h.tail.tail.tail.tail.byteVal
    rw [hb _ (by omega) (by omega)] at e0
    rw [hb _ (by omega) (by omega)] at e1
    rw [hb _ (by omega) (by omega), show pos + 1 + 1 = pos + 2 by omega] at e2
    rw [hb _ (by omega) (by omega), show pos + 1 + 1 + 1 = pos + 3 by omega] at e3
    rw [hb _ (by omega) (by omega), show pos + 1 + 1 + 1 + 1 = pos + 4 by omega] at e4
    simp at hlen
    simp only [cborReadHead, e0, e1, e2, e3, e4]
    rw [if_neg (by omega), if_neg (by omega), if_neg (by omega), if_pos ⟨trivial, by omega⟩]
    simp; omega

/-! ## Key-value records -/

/-- `garry_cbor_encode_array_header_raw`. -/
def cborEncodeArrayHeaderRaw (count : Int) : Bytes :=
  if count < cborInlineThreshold then [toByte (cborArrayBase + count)]
  else [toByte (cborArrayBase + cborInlineThreshold), toByte count]

/-- `garry_cbor_encode_byte_string_raw`. -/
def cborEncodeByteStringRaw (data : Bytes) : Bytes :=
  let dlen : Int := data.length
  if dlen < 24 then toByte (cborBytesBase + dlen) :: data
  else toByte (cborBytesBase + cborInlineThreshold) :: toByte dlen :: data

/-- `garry_cbor_decode_array_header_raw`. -/
def cborDecodeArrayHeaderRaw (buf : Store) (blen pos : Int) : Int :=
  let fb := byteVal buf pos
  if fb < cborArrayBase ∨ fb ≥ cborArrayBase + 32 then 0
  else
    let ai := fb - cborArrayBase
    if ai < 24 then ai
    else if ai = cborInlineThreshold ∧ pos + 1 < blen then byteVal buf (pos + 1)
    else 0

/-- `garry_cbor_array_header_size_raw`. -/
def cborArrayHeaderSizeRaw (buf : Store) (pos : Int) : Int :=
  let ai := byteVal buf pos - cborArrayBase
  if ai < 24 then 1 else if ai = cborInlineThreshold then 2 else 1

/-- `garry_cbor_decode_byte_string_raw`: the returned position, the bytes and `*dlen`. The length
is negative when the first byte is below the byte-string range. -/
def cborDecodeByteStringRaw (buf : Store) (blen pos : Int) : Int × Bytes × Int :=
  let ai := byteVal buf pos - cborBytesBase
  if ai < 24 then
    let slen := ai
    let pos := pos + 1
    (pos + slen, slice buf pos.toNat slen.toNat, slen)
  else if ai = cborInlineThreshold ∧ pos + 1 < blen then
    let slen := byteVal buf (pos + 1)
    let pos := pos + 2
    (pos + slen, slice buf pos.toNat slen.toNat, slen)
  else (0, [], 0)

/-- `garry_encode_kv`. -/
def encodeKv (key value : Bytes) : Bytes :=
  cborEncodeArrayHeaderRaw 2 ++ cborEncodeByteStringRaw key ++ cborEncodeByteStringRaw value

/-- `garry_decode_kv`: the key and the value with the lengths it reports. -/
def decodeKv (encoded : Store) (elen : Int) : Option ((Bytes × Int) × (Bytes × Int)) :=
  if elen ≤ 0 then none
  else
    let pos : Int := 0
    if cborDecodeArrayHeaderRaw encoded elen pos ≠ 2 then none
    else
      let pos := pos + cborArrayHeaderSizeRaw encoded pos
      let (pos, key, klen) := cborDecodeByteStringRaw encoded elen pos
      if pos ≤ 0 then none
      else
        let (pos, value, vlen) := cborDecodeByteStringRaw encoded elen pos
        if pos ≤ 0 then none else some ((key, klen), (value, vlen))

theorem length_cborEncodeByteStringRaw_le (data : Bytes) :
    (cborEncodeByteStringRaw data).length ≤ data.length + 2 := by
  simp only [cborEncodeByteStringRaw]; split <;> simp

theorem length_cborEncodeByteStringRaw_pos (data : Bytes) : 0 < (cborEncodeByteStringRaw data).length := by
  simp only [cborEncodeByteStringRaw]; split <;> simp

theorem cborDecodeByteStringRaw_encode (hd : data.length ≤ 255)
    (h : StandsAt buf pos (cborEncodeByteStringRaw data))
    (hlen : pos + (cborEncodeByteStringRaw data).length ≤ blen) :
    cborDecodeByteStringRaw buf blen pos =
      (pos + (cborEncodeByteStringRaw data).length, data, (data.length : Int)) := by
  simp only [cborEncodeByteStringRaw, cborBytesBase, cborInlineThreshold] at h hlen ⊢
  split at h
  · next h24 =>
    rw [if_pos h24] at hlen ⊢
    have e0 := h.byteVal
    rw [toNat_toByte (by omega) (by omega)] at e0
    have hs := h.tail.2
    simp only [cborDecodeByteStringRaw, cborBytesBase, e0]
    rw [if_pos (by omega), show (64 : Int) + data.length - 64 = data.length by omega]
    simp only [Int.toNat_natCast, hs, List.length_cons, Prod.mk.injEq, and_true]
    omega
  · next h24 =>
    rw [if_neg h24] at hlen ⊢
    have e0 := h.byteVal
    have e1 := h.tail.byteVal
    rw [toNat_toByte (by omega) (by omega)] at e0 e1
    have hs := h.tail.tail.2
    rw [show pos + 1 + 1 = pos + 2 by omega] at hs
    simp at hlen
    simp only [cborDecodeByteStringRaw, cborBytesBase, cborInlineThreshold, e0, e1]
    rw [if_neg (by omega), if_pos (by omega)]
    simp only [Int.toNat_natCast, hs, List.length_cons, Prod.mk.injEq, and_true]
    omega

theorem encodeKv_length_le (key value : Bytes) : (encodeKv key value).length ≤ key.length + value.length + 5 := by
  have h1 := length_cborEncodeByteStringRaw_le key
  have h2 := length_cborEncodeByteStringRaw_le value
  simp [encodeKv, cborEncodeArrayHeaderRaw]; omega

theorem encodeKv_ne_nil (key value : Bytes) : encodeKv key value ≠ [] := by
  simp [encodeKv, cborEncodeArrayHeaderRaw]

/-- The record of a key and a value of at most 255 bytes decodes to them. -/
theorem decodeKv_encodeKv (hk : key.length ≤ 255) (hv : value.length ≤ 255) :
    decodeKv (encodeKv key value).toBuffer (encodeKv key value).length =
      some ((key, (key.length : Int)), (value, (value.length : Int))) := by
  have h := Bytes.toBuffer_standsAt (encodeKv key value)
  generalize (encodeKv key value).toBuffer = buf at h
  have hpos := encodeKv_ne_nil key value
  have hhdr : cborEncodeArrayHeaderRaw 2 = [toByte 130] := rfl
  simp only [encodeKv, hhdr] at h hpos ⊢
  obtain ⟨h, h3⟩ := StandsAt.append.mp h
  obtain ⟨h1, h2⟩ := StandsAt.append.mp h
  have e0 := h1.byteVal
  rw [toNat_toByte (by omega) (by omega)] at e0
  simp only [List.length_append, List.length_cons, List.length_nil, Nat.cast_add, Nat.cast_one,
    zero_add] at h2 h3 ⊢
  have hkp := length_cborEncodeByteStringRaw_pos key
  have hvp := length_cborEncodeByteStringRaw_pos value
  have a1 : cborDecodeArrayHeaderRaw buf
      (1 + (cborEncodeByteStringRaw key).length + (cborEncodeByteStringRaw value).length) 0 = 2 := by
    simp [cborDecodeArrayHeaderRaw, e0]
  have a2 : cborArrayHeaderSizeRaw buf 0 = 1 := by simp [cborArrayHeaderSizeRaw, e0]
  simp only [decodeKv, a1, a2]
  rw [if_neg (by omega), if_neg (by simp), Int.zero_add,
    cborDecodeByteStringRaw_encode hk h2 (by omega)]
  simp only
  rw [if_neg (by omega), cborDecodeByteStringRaw_encode hv h3 (by omega)]
  simp only
  rw [if_neg (by omega)]

/-! ## Descriptors -/

/-- `encode_uint`. -/
def encodeUint (val : Int) : Bytes :=
  if 0 ≤ val then cborHead cborUintBase val
  else [toByte 26, toByte (val / 16777216 % 256), toByte (val / 65536 % 256),
    toByte (val / 256 % 256), toByte (val % 256)]

/-- `encode_negint`. -/
def encodeNegint (absVal : Int) : Bytes := cborHead cborNegintBase absVal

/-- `garry_encode_descriptor`. -/
def encodeDescriptor (chainId : Int) (hasChildren : Bool) : Bytes :=
  [toByte (cborMapBase + 2), toByte (cborTextBase + 3), 99, 105, 100] ++
    (if 0 ≤ chainId then encodeUint chainId else encodeNegint (-1 - chainId)) ++
    [toByte (cborTextBase + 2), 104, 99,
      toByte (cborSimpleBase + if hasChildren then cborSimpleTrue else cborSimpleFalse)]

/-- `decode_uint`: the value and the position after it, or `none` for `-1`. -/
def decodeUint (encoded : Store) (elen pos : Int) : Option (Int × Int) :=
  cborReadHead cborUintBase encoded elen pos

/-- `decode_negint`. -/
def decodeNegint (encoded : Store) (elen pos : Int) : Option (Int × Int) :=
  (cborReadHead cborNegintBase encoded elen pos).map fun (v, pos) => (-1 - v, pos)

/-- The `"hc"` half of `garry_decode_descriptor`. -/
def decodeHasChildren (encoded : Store) (elen pos : Int) : Bool :=
  if pos ≥ elen then false
  else
    let pos := pos + 1 + (byteVal encoded pos - cborTextBase)
    if pos ≥ elen then false
    else byteVal encoded pos == cborSimpleBase + cborSimpleTrue

/-- `garry_decode_descriptor`: `*chain_id` and `*has_children`. -/
def decodeDescriptor (encoded : Store) (elen : Int) : Int × Bool :=
  let pos : Int := 0
  if pos ≥ elen then (0, false)
  else
    let fb := byteVal encoded pos
    if fb < cborMapBase ∨ fb ≥ cborMapBase + 32 then (0, false)
    else
      let pos := pos + 1
      if pos ≥ elen then (0, false)
      else
        let pos := pos + 1 + (byteVal encoded pos - cborTextBase)
        if pos ≥ elen then (0, false)
        else
          let fb := byteVal encoded pos
          let read :=
            if cborUintBase ≤ fb ∧ fb < cborUintBase + 32 then some (decodeUint encoded elen pos)
            else if cborNegintBase ≤ fb ∧ fb < cborNegintBase + 32 then
              some (decodeNegint encoded elen pos)
            else none
          match read with
          | none => (0, false)
          | some none => (0, decodeHasChildren encoded elen pos)
          | some (some (chainId, pos)) => (chainId, decodeHasChildren encoded elen pos)

/-- `garry_decode_cid_from_descriptor` (`storage_ops.c`). -/
def decodeCidFromDescriptor (lookupResult : Store) : Int :=
  if byteVal lookupResult 0 = cborMapBase + 2 then
    (decodeDescriptor lookupResult lookupBufSize).1
  else byteVal lookupResult 0

theorem encodeDescriptor_length_le (cid : Int) (hc : Bool) : (encodeDescriptor cid hc).length ≤ 14 := by
  simp only [encodeDescriptor, encodeUint, encodeNegint, List.length_append]
  split
  · next h =>
    have := length_cborHead_le cborUintBase cid
    simp only [List.length_cons, List.length_nil]; omega
  · have := length_cborHead_le cborNegintBase (-1 - cid)
    simp only [List.length_cons, List.length_nil]; omega

theorem encodeDescriptor_ne_nil : encodeDescriptor cid hc ≠ [] := by simp [encodeDescriptor]

theorem byteVal_of_cborReadHead (h : cborReadHead base buf elen pos = some r) :
    base ≤ byteVal buf pos ∧ byteVal buf pos < base + 27 := by
  simp only [cborReadHead] at h
  split at h
  · omega
  split at h
  · omega
  split at h
  · omega
  split at h
  · omega
  · cases h

/-- The chain id of a descriptor reads back, whatever length the decoder is told. -/
theorem decodeDescriptor_encode (h0 : 0 ≤ cid) (h1 : cid < 4294967296)
    (h : StandsAt buf 0 (encodeDescriptor cid hc))
    (hlen : ((encodeDescriptor cid hc).length : Int) ≤ elen) :
    (decodeDescriptor buf elen).1 = cid := by
  simp only [encodeDescriptor, encodeUint, if_pos h0, cborMapBase, cborTextBase, cborUintBase]
    at h hlen
  have hp := length_cborHead_pos 0 cid
  obtain ⟨h, -⟩ := StandsAt.append.mp h
  obtain ⟨hm, hc⟩ := StandsAt.append.mp h
  have e0 := hm.byteVal
  have e1 := hm.tail.byteVal
  rw [toNat_toByte (by omega) (by omega)] at e0 e1
  rw [show (0 : Int) + ([toByte (160 + 2), toByte (96 + 3), 99, 105, 100] : Bytes).length = 5
    from rfl] at hc
  simp only [List.length_append, List.length_cons, List.length_nil] at hlen
  have hcid := cborReadHead_cborHead ⟨by omega, by omega⟩ ⟨h0, h1⟩ hc
    (show (5 : Int) + (cborHead 0 cid).length ≤ elen by omega)
  have hfb := byteVal_of_cborReadHead hcid
  simp only [decodeDescriptor, e0, decodeUint, cborMapBase, cborTextBase, cborUintBase]
  rw [if_neg (by omega), if_neg (by omega), if_neg (by omega), e1,
    show (0 : Int) + 1 + 1 + (96 + 3 - 96) = 5 by omega, if_neg (by omega), if_pos (by omega), hcid]

theorem decodeCidFromDescriptor_encode (h0 : 0 ≤ cid) (h1 : cid < 4294967296) :
    decodeCidFromDescriptor (encodeDescriptor cid hc).toBuffer = cid := by
  have h := Bytes.toBuffer_standsAt (encodeDescriptor cid hc)
  have hl := encodeDescriptor_length_le cid hc
  have e0 : byteVal (encodeDescriptor cid hc).toBuffer 0 = cborMapBase + 2 := by
    simp only [byteVal, Bytes.toBuffer, encodeDescriptor]
    exact toNat_toByte (by decide) (by decide)
  rw [decodeCidFromDescriptor, if_pos e0]
  exact decodeDescriptor_encode h0 h1 h (by simp only [lookupBufSize]; omega)

end Garry
