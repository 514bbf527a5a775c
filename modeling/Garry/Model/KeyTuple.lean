import Garry.Model.KeyEncoding
import Garry.Model.RecordCodec

/-!
# Tuple keys (`key_encoding.c`, `hierarchical.c`)

The parts of a key stand one after the other, each behind the prefix with its length. A parser is
given a key and its length; a result of `none` means that it reads a byte outside the key.
-/

namespace Garry

open ByteStore

abbrev lenPrefixInlineMax : Int := 128
abbrev lenPrefixLongMarker : Int := 255
abbrev maxSubscripts : Nat := 16

/-- The parts of a `garry_key_tuple`. -/
abbrev KeyTuple := List Bytes

/-- The byte at an index of an input, as the `garry_i32` that the parsers compute with. -/
def byteIn (key : Bytes) (i : Int) : Option Int :=
  if i < 0 then none else (key[i.toNat]?).map fun b => (b.toNat : Int)

/-- The bytes that a copy loop reads. -/
def bytesIn (key : Bytes) (off len : Int) : Option Bytes :=
  if len ≤ 0 then some []
  else if 0 ≤ off ∧ off + len ≤ key.length then some ((key.drop off.toNat).take len.toNat)
  else none

/-! ## Length prefixes -/

/-- `garry_encode_length_prefix`: the bytes that it writes at the offset. -/
def encodeLengthPrefix (plen : Int) : Bytes :=
  if plen < lenPrefixInlineMax then [toByte plen]
  else [toByte lenPrefixLongMarker, toByte (plen / 256 % 256), toByte (plen % 256)]

/-- `garry_decode_length_prefix`. -/
def decodeLengthPrefix (key : Bytes) (offset : Int) : Option Int := do
  let v0 ← byteIn key offset
  if v0 ≠ lenPrefixLongMarker then some v0
  else do
    let v1 ← byteIn key (offset + 1)
    let v2 ← byteIn key (offset + 2)
    some (v1 * 256 + v2)

/-- `garry_length_prefix_size`. -/
def lengthPrefixSize (plen : Int) : Int := if plen < lenPrefixInlineMax then 1 else 3

/-! ## Tuples -/

/-- `garry_tuple_length`. -/
def tupleLength (t : KeyTuple) : Int :=
  t.foldl (fun total part => total + (lengthPrefixSize part.length + part.length)) 0

/-- `garry_encode_key_tuple`: the bytes that it writes; the rest of the array is zero. -/
def encodeKeyTuple (t : KeyTuple) : Bytes :=
  t.flatMap fun part => encodeLengthPrefix part.length ++ part

/-- The loop of `garry_decode_key_tuple`, with the number of parts that there is room for. -/
def decodeKeyTupleLoop (encoded : Bytes) : Nat → Int → Option (List (Int × Int))
  | 0, _ => some []
  | n + 1, offset =>
    if offset < encoded.length then do
      let plen ← decodeLengthPrefix encoded offset
      let marker ← byteIn encoded offset
      let hdrSize := if marker = lenPrefixLongMarker then 3 else 1
      let rest ← decodeKeyTupleLoop encoded n (offset + hdrSize + plen)
      some ((offset + hdrSize, plen) :: rest)
    else some []

/-- `garry_decode_key_tuple`: where each part starts and how long it is said to be. -/
def decodeKeyTuple (encoded : Bytes) : Option (List (Int × Int)) :=
  decodeKeyTupleLoop encoded maxSubscripts 0

/-- The bytes of the parts. -/
def tupleParts (encoded : Bytes) (parts : List (Int × Int)) : Option (List Bytes) :=
  parts.mapM fun p => bytesIn encoded p.1 p.2

/-! ## Subscripts -/

/-- The loop of `garry_subscript_count`. Each round moves on by a byte or more, so that there are at
most as many rounds as bytes. -/
def subscriptCountLoop (key : Bytes) : Nat → Int → Option Int
  | 0, _ => some 0
  | fuel + 1, offset =>
    if offset < key.length then do
      let plen ← decodeLengthPrefix key offset
      let count ← subscriptCountLoop key fuel (offset + lengthPrefixSize plen + plen)
      some (count + 1)
    else some 0

/-- `garry_subscript_count`. -/
def subscriptCount (key : Bytes) : Option Int := subscriptCountLoop key key.length 0

/-- The loop that `garry_get_subscript_offset` and `garry_subscript_equal` begin with; its result is
`some none` where they return early. -/
def skipSubscripts (key : Bytes) : Nat → Int → Option (Option Int)
  | 0, offset => some (some offset)
  | n + 1, offset =>
    if offset ≥ key.length then some none
    else do
      let plen ← decodeLengthPrefix key offset
      let offset := offset + lengthPrefixSize plen + plen
      if offset > key.length then some none else skipSubscripts key n offset

/-- `garry_get_subscript_offset`. -/
def getSubscriptOffset (key : Bytes) (idx : Int) : Option Int :=
  (skipSubscripts key idx.toNat 0).map fun offset => offset.getD (-1)

/-- `garry_subscript_equal`. -/
def subscriptEqual (key : Bytes) (idx : Int) (expected : Bytes) : Option Bool := do
  match ← skipSubscripts key idx.toNat 0 with
  | none => some false
  | some offset =>
    if offset ≥ key.length then some false
    else do
      let plen ← decodeLengthPrefix key offset
      let hdrSize := lengthPrefixSize plen
      if offset + hdrSize + plen > key.length then some false
      else if plen ≠ expected.length then some false
      else do
        let part ← bytesIn key (offset + hdrSize) plen
        some (part == expected)

/-- `garry_key_prefix`: the returned length, and the output buffer. -/
def keyPrefix (key : Bytes) (nsubs : Int) (out : Store) (outSize : Int) : Option (Int × Store) := do
  let plen ← getSubscriptOffset key nsubs
  if plen > outSize then some (-1, out)
  else do
    let bytes ← bytesIn key 0 plen
    some (plen, blit (blit out 0 (List.replicate outSize.toNat 0)) 0 bytes)

/-- `garry_extract_subscript`: the bytes copied into `sub`; their number is `*sub_len`. -/
def extractSubscript (key : Bytes) (idx : Int) : Option Bytes := do
  let offset ← getSubscriptOffset key idx
  let plen ← decodeLengthPrefix key offset
  bytesIn key (offset + lengthPrefixSize plen) plen

/-- `garry_concat_prefix`: the returned length, and the output buffer. -/
def concatPrefix (parent sub : Bytes) (out : Store) (outSize : Int) : Int × Store :=
  let total := parent.length + lengthPrefixSize sub.length + sub.length
  if total > outSize then (-1, out)
  else
    let out := blit (blit out 0 (List.replicate outSize.toNat 0)) 0 parent
    let lengthPrefix := encodeLengthPrefix sub.length
    let out := blit out parent.length lengthPrefix
    (total, blit out (parent.length + lengthPrefix.length) sub)

end Garry
