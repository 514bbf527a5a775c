import Garry.Model.RecordCodec

/-!
# Descriptors

The chain id is a head of one of two major types, with the id itself or the number of negative ids above
it, and the flag stands behind the second text. The decoder finds both by the lengths of the texts.
-/

namespace Garry

open ByteStore

variable {buf : Store} {pos elen cid val base : Int} {hc : Bool}

/-- The major type and the number that the chain id is written as. -/
def cidHead (cid : Int) : Bytes :=
  if 0 ≤ cid then cborHead cborUintBase cid else cborHead cborNegintBase (-1 - cid)

/-- The flag behind its text. -/
def flagBytes (hc : Bool) : Bytes :=
  [toByte (cborTextBase + 2), 104, 99,
    toByte (cborSimpleBase + if hc then cborSimpleTrue else cborSimpleFalse)]

theorem encodeDescriptor_eq (cid : Int) (hc : Bool) :
    encodeDescriptor cid hc = [toByte 162, toByte 99, 99, 105, 100] ++ (cidHead cid ++ flagBytes hc) := by
  rw [encodeDescriptor, cidHead, flagBytes, List.append_assoc]
  split
  · next h =>
    rw [encodeUint, if_pos h]
    rfl
  · rfl

theorem length_flagBytes (hc : Bool) : (flagBytes hc).length = 4 := rfl

theorem decodeHasChildren_flagBytes (h : StandsAt buf pos (flagBytes hc)) (hlen : pos + 4 ≤ elen) :
    decodeHasChildren buf elen pos = hc := by
  have e0 := h.byteVal
  have e3 := h.tail.tail.tail.byteVal
  rw [toNat_toByte (by decide) (by decide)] at e0
  rw [show pos + 1 + 1 + 1 = pos + 3 by omega] at e3
  rw [decodeHasChildren, if_neg (by omega), e0]
  simp only [cborTextBase, cborSimpleBase, cborSimpleTrue, cborSimpleFalse] at e3 ⊢
  rw [show pos + 1 + (96 + 2 - 96) = pos + 3 by omega, if_neg (by omega), e3]
  cases hc with
  | false => rfl
  | true => rfl

/-- The chain id read at a head, and the position behind it. -/
def readCid (buf : Store) (elen pos : Int) : Option (Option (Int × Int)) :=
  let fb := byteVal buf pos
  if cborUintBase ≤ fb ∧ fb < cborUintBase + 32 then some (decodeUint buf elen pos)
  else if cborNegintBase ≤ fb ∧ fb < cborNegintBase + 32 then some (decodeNegint buf elen pos)
  else none

theorem readCid_cidHead (elen : Int) (h32 : Fits32 cid) (h : StandsAt buf pos (cidHead cid))
    (hlen : pos + (cidHead cid).length ≤ elen) :
    readCid buf elen pos = some (some (cid, pos + (cidHead cid).length)) := by
  simp only [Fits32] at h32
  rw [cidHead] at h hlen ⊢
  split at h
  · next h0 =>
    rw [if_pos h0] at hlen ⊢
    have hread := cborReadHead_cborHead ⟨by decide, by decide⟩ ⟨h0, by omega⟩ h hlen
    obtain ⟨hlow, hhigh⟩ := byteVal_of_cborReadHead hread
    rw [readCid, if_pos (by omega), decodeUint, hread]
  · next h0 =>
    rw [if_neg h0] at hlen ⊢
    have hread := cborReadHead_cborHead ⟨by decide, by decide⟩ ⟨by omega, by omega⟩ h hlen
    obtain ⟨hlow, hhigh⟩ := byteVal_of_cborReadHead hread
    simp only [cborNegintBase] at hlow hhigh
    rw [readCid, if_neg (by simp only [cborUintBase]; omega),
      if_pos (by simp only [cborNegintBase]; omega), decodeNegint, hread, Option.map_some]
    simp only [Int.sub_sub_self]

theorem decodeDescriptor_encodeDescriptor (h32 : Fits32 cid)
    (h : StandsAt buf 0 (encodeDescriptor cid hc))
    (hlen : ((encodeDescriptor cid hc).length : Int) ≤ elen) :
    decodeDescriptor buf elen = (cid, hc) := by
  rw [encodeDescriptor_eq] at h hlen
  obtain ⟨hmap, h⟩ := StandsAt.append.mp h
  obtain ⟨hcid, hflag⟩ := StandsAt.append.mp h
  replace hcid : StandsAt buf 5 (cidHead cid) := hcid
  replace hflag : StandsAt buf (5 + (cidHead cid).length) (flagBytes hc) := hflag
  simp only [List.length_append, length_flagBytes, List.length_cons, List.length_nil] at hlen
  have e0 := hmap.byteVal
  have e1 := hmap.tail.byteVal
  rw [toNat_toByte (by decide) (by decide)] at e0 e1
  have hread := readCid_cidHead elen h32 hcid (by omega)
  rw [decodeDescriptor, e0]
  simp only [cborMapBase]
  rw [if_neg (by omega), if_neg (by decide), if_neg (by omega), e1]
  simp only [cborTextBase]
  rw [show (0 : Int) + 1 + 1 + (99 - 96) = 5 from rfl, if_neg (by omega)]
  rw [readCid] at hread
  rw [hread]
  simp only
  rw [decodeHasChildren_flagBytes hflag (by omega)]

/-- The sums that a decoder builds from the bytes of a long head do not exceed the number. -/
theorem headSums_le (hval : 65536 ≤ val) (h32 : Fits32 val)
    (h : StandsAt buf pos (cborHead base val)) :
    byteVal buf (pos + 1) * 16777216 + byteVal buf (pos + 2) * 65536 +
      byteVal buf (pos + 3) * 256 + byteVal buf (pos + 4) = val ∧
    Fits32 (byteVal buf (pos + 1) * 16777216) ∧
    Fits32 (byteVal buf (pos + 1) * 16777216 + byteVal buf (pos + 2) * 65536) ∧
    Fits32 (byteVal buf (pos + 1) * 16777216 + byteVal buf (pos + 2) * 65536 +
      byteVal buf (pos + 3) * 256) := by
  simp only [Fits32] at h32 ⊢
  rw [cborHead, if_neg (by omega), if_neg (by omega), if_neg (by omega)] at h
  have e1 := h.tail.byteVal
  have e2 := h.tail.tail.byteVal
  have e3 := h.tail.tail.tail.byteVal
  have e4 := h.tail.tail.tail.tail.byteVal
  rw [toNat_toByte (by omega) (by omega)] at e1 e2 e3 e4
  simp only [Int.add_assoc] at e2 e3 e4
  norm_num at e2 e3 e4
  rw [e1, e2, e3, e4]
  omega

/-- The round trip of a descriptor, in its own length or in a longer buffer, and the one of the chain id
alone. -/
theorem descriptor_roundTrip (h32 : Fits32 cid) (hc : Bool) :
    (encodeDescriptor cid hc).length ≤ 14 ∧
    (∀ buf elen, StandsAt buf 0 (encodeDescriptor cid hc) →
      ((encodeDescriptor cid hc).length : Int) ≤ elen → decodeDescriptor buf elen = (cid, hc)) ∧
    (0 ≤ cid → ∀ buf, StandsAt buf 0 (encodeDescriptor cid hc) →
      decodeCidFromDescriptor buf = cid) := by
  refine ⟨encodeDescriptor_length_le cid hc, ?_, ?_⟩
  · intro buf elen h hlen
    exact decodeDescriptor_encodeDescriptor h32 h hlen
  · intro _ buf h
    have hlen := encodeDescriptor_length_le cid hc
    have hhead : byteVal buf 0 = cborMapBase + 2 := by
      rw [encodeDescriptor_eq] at h
      rw [(StandsAt.append.mp h).1.byteVal, toNat_toByte (by decide) (by decide)]
      rfl
    rw [decodeCidFromDescriptor, if_pos hhead,
      decodeDescriptor_encodeDescriptor h32 h (by simp only [lookupBufSize]; omega)]

/-- The smallest id. -/
theorem descriptor_roundTrip_min :
    decodeDescriptor (encodeDescriptor (-2147483648) true).toBuffer 14 = (-2147483648, true) :=
  (descriptor_roundTrip (by decide) true).2.1 _ _ (Bytes.toBuffer_standsAt _) (by decide)

end Garry
