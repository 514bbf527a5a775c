import Garry.Model.KeyTuple

/-!
# Reads of the record decoder (`record_codec.c`)

`garry_decode_kv` on a record of which nothing but its bytes may be read; a result of `none` means
that it reads a byte outside.
-/

namespace Garry

/-- `garry_cbor_decode_array_header_raw`. -/
def arrayHeaderIn (buf : Bytes) (blen pos : Int) : Option Int := do
  let fb ← byteIn buf pos
  if fb < cborArrayBase ∨ fb ≥ cborArrayBase + 32 then some 0
  else
    let ai := fb - cborArrayBase
    if ai < 24 then some ai
    else if ai = cborInlineThreshold ∧ pos + 1 < blen then byteIn buf (pos + 1)
    else some 0

/-- `garry_cbor_array_header_size_raw`. -/
def arrayHeaderSizeIn (buf : Bytes) (pos : Int) : Option Int := do
  let fb ← byteIn buf pos
  let ai := fb - cborArrayBase
  some (if ai < 24 then 1 else if ai = cborInlineThreshold then 2 else 1)

/-- `garry_cbor_decode_byte_string_raw`: the returned position, the bytes and `*dlen`. -/
def byteStringIn (buf : Bytes) (blen pos : Int) : Option (Int × Bytes × Int) := do
  let fb ← byteIn buf pos
  let ai := fb - cborBytesBase
  if ai < 24 then do
    let data ← bytesIn buf (pos + 1) ai
    some (pos + 1 + ai, data, ai)
  else if ai = cborInlineThreshold ∧ pos + 1 < blen then do
    let slen ← byteIn buf (pos + 1)
    let data ← bytesIn buf (pos + 2) slen
    some (pos + 2 + slen, data, slen)
  else some (0, [], 0)

/-- `garry_decode_kv`: the key and the value with the lengths it reports, or `some none` where it
returns false. -/
def decodeKvIn (encoded : Bytes) : Option (Option ((Bytes × Int) × (Bytes × Int))) :=
  let elen : Int := encoded.length
  if elen ≤ 0 then some none
  else do
    let pos : Int := 0
    let arrCount ← arrayHeaderIn encoded elen pos
    if arrCount ≠ 2 then some none
    else do
      let size ← arrayHeaderSizeIn encoded pos
      let pos := pos + size
      let (pos, key, klen) ← byteStringIn encoded elen pos
      if pos ≤ 0 then some none
      else do
        let (pos, value, vlen) ← byteStringIn encoded elen pos
        if pos ≤ 0 then some none else some (some ((key, klen), (value, vlen)))

end Garry
