import Garry.Model.KeyTuple

/-!
# Split keys (`keysplit.c`)

A C string is given by its bytes before the terminator. A result of `none` means that a byte behind
the terminator is read.
-/

namespace Garry

open ByteStore

abbrev maxSegmentLen : Nat := 255

/-- The byte at a position of a C string. -/
def charAt (str : Bytes) (p : Nat) : Option UInt8 := (str ++ [0])[p]?

/-- The inner loop of `garry_key_split`: where the segment ends; `n` bytes may still be taken. -/
def scanSegment (str : Bytes) (delimiter : UInt8) (n p : Nat) : Option Nat :=
  (charAt str p).bind fun c =>
    if c ≠ 0 ∧ c ≠ delimiter then
      match n with
      | 0 => some p
      | n + 1 => scanSegment str delimiter n (p + 1)
    else some p

/-- The outer loop, with the number of segments that may still be written and the bytes written. -/
def keySplitLoop (str : Bytes) (delimiter : UInt8) (n p : Nat) (out : Bytes) : Option Bytes :=
  (charAt str p).bind fun c =>
    if c = 0 then some out
    else
      match n with
      | 0 => some out
      | n + 1 =>
        (scanSegment str delimiter maxSegmentLen p).bind fun q =>
          let segLen := q - p
          if out.length + 1 + segLen > maxKeySize then some out
          else
            let out := out ++ toByte segLen :: (str.drop p).take segLen
            (charAt str q).bind fun c =>
              keySplitLoop str delimiter n (if c = delimiter then q + 1 else q) out

/-- `garry_key_split`: the bytes that it writes; it returns their number. -/
def keySplit (str : Bytes) (delimiter : UInt8) : Option Bytes :=
  keySplitLoop str delimiter maxSubscripts 0 []

/-- The loop of `garry_key_unsplit`, from a position of the key and of the output. Each round takes a
byte or more of the key. -/
def keyUnsplitLoop (key : Bytes) (delimiter : UInt8) (outSize : Int) :
    Nat → Nat → Nat → Int → Store → Nat × Int × Store
  | 0, _, outPos, count, out => (outPos, count, out)
  | fuel + 1, pos, outPos, count, out =>
    if pos < key.length then
      let segLen := (key.getD pos 0).toNat
      let pos := pos + 1
      if pos + segLen > key.length then (outPos, count, out)
      else if outPos > 0 ∧ outPos ≥ outSize then (outPos, count, out)
      else
        let out := if outPos > 0 then blit out outPos [delimiter] else out
        let outPos := if outPos > 0 then outPos + 1 else outPos
        if outPos + segLen > outSize then (outPos, count, out)
        else
          let out := blit out outPos ((key.drop pos).take segLen)
          keyUnsplitLoop key delimiter outSize fuel (pos + segLen) (outPos + segLen) (count + 1) out
    else (outPos, count, out)

/-- `garry_key_unsplit`: the returned number of segments, and the output buffer. -/
def keyUnsplit (key : Bytes) (delimiter : UInt8) (out : Store) (outSize : Int) : Int × Store :=
  if key.length = 0 ∨ outSize ≤ 0 then (0, out)
  else
    let (outPos, count, out) := keyUnsplitLoop key delimiter outSize key.length 0 0 0 out
    (count, if outPos < outSize then blit out outPos [0] else out)

/-- The length of the C string that is encoded. -/
def segmentLength (str : Bytes) : Nat := min str.length maxSegmentLen

/-- `garry_make_key`: the bytes that it writes. -/
def makeKey (str : Bytes) : Bytes :=
  let len := segmentLength str
  if 1 + len > maxKeySize then [] else toByte len :: str.take len

/-- The loop of `garry_make_key_parts`. -/
def makeKeyPartsLoop : Nat → List Bytes → Bytes → Bytes
  | 0, _, out => out
  | _, [], out => out
  | n + 1, part :: parts, out =>
    let segLen := segmentLength part
    if out.length + 1 + segLen > maxKeySize then out
    else makeKeyPartsLoop n parts (out ++ toByte segLen :: part.take segLen)

/-- `garry_make_key_parts`: the bytes that it writes. -/
def makeKeyParts (parts : List Bytes) : Bytes := makeKeyPartsLoop maxSubscripts parts []

end Garry
