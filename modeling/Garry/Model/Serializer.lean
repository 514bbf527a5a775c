import Garry.Library.LeBytes
import Garry.Library.Parsing
import Garry.Model.Config

/-!
# Value codec of the Rust wrapper (`serializer.rs`)

A float is taken as its bit pattern, and a hash map as the list of its entries in the order in which an
iteration meets them. `usize` has 64 bits; a sum that does not fit, and a slice or an allocation that
is out of range, panics.
-/

namespace Garry

open LeBytes Parsing

inductive Value where
  | null
  | bool (b : Bool)
  | i32 (v : BitVec 32)
  | i64 (v : BitVec 64)
  | f32 (bits : BitVec 32)
  | f64 (bits : BitVec 64)
  | string (s : String)
  | bytes (b : Bytes)
  | array (arr : List Value)
  | map (map : List (String × Value))

abbrev tagNull : UInt8 := 0x00
abbrev tagBool : UInt8 := 0x01
abbrev tagI32 : UInt8 := 0x06
abbrev tagI64 : UInt8 := 0x08
abbrev tagF32 : UInt8 := 0x0A
abbrev tagF64 : UInt8 := 0x0B
abbrev tagString : UInt8 := 0x0C
abbrev tagBytes : UInt8 := 0x0D
abbrev tagArray : UInt8 := 0x0E
abbrev tagMap : UInt8 := 0x0F

/-- `as_bytes` of a string. -/
def asBytes (s : String) : Bytes := s.toByteArray.data.toList

/-- `std::str::from_utf8`. -/
def fromUtf8 (bytes : Bytes) : Option String := String.fromUTF8? ⟨bytes.toArray⟩

/-! ## Encoding -/

/-- `(n as i32).to_le_bytes()`. -/
def encodeLen (n : Nat) : Bytes := leBytes 4 (BitVec.ofNat 32 n).toNat

mutual

/-- `encode`: the bytes that `encode_into` pushes. -/
def encode : Value → Bytes
  | .null => [tagNull]
  | .bool b => [tagBool, if b then 1 else 0]
  | .i32 v => tagI32 :: leBytes 4 v.toNat
  | .i64 v => tagI64 :: leBytes 8 v.toNat
  | .f32 bits => tagF32 :: leBytes 4 bits.toNat
  | .f64 bits => tagF64 :: leBytes 8 bits.toNat
  | .string s => tagString :: (encodeLen (asBytes s).length ++ asBytes s)
  | .bytes b => tagBytes :: (encodeLen b.length ++ b)
  | .array arr => tagArray :: (encodeLen arr.length ++ encodeItems arr)
  | .map map => tagMap :: (encodeLen map.length ++ encodeEntries map)

/-- The loop over the items of an array. -/
def encodeItems : List Value → Bytes
  | [] => []
  | item :: arr => encode item ++ encodeItems arr

/-- The loop over the entries of a map. -/
def encodeEntries : List (String × Value) → Bytes
  | [] => []
  | (k, v) :: map => encodeLen (asBytes k).length ++ (asBytes k ++ (encode v ++ encodeEntries map))

end

/-! ## Decoding -/

inductive DecodeError where
  | emptyInput
  | unexpectedTag (tag : UInt8)
  | truncatedData
  | invalidUtf8

/-- The number of values of a `usize`. -/
abbrev usizeCount : Nat := 18446744073709551616

/-- The number of bytes that a slice or a vector has at most. -/
abbrev isizeMax : Nat := 9223372036854775807

/-- `v as usize`, which extends the sign. -/
def asUsize (v : BitVec 32) : Nat := (v.signExtend 64).toNat

/-- The next bytes as a number, and the cursor behind them. -/
def decodeFixed (data : Bytes) (n cursor : Nat) : Outcome DecodeError (Nat × Nat) :=
  if cursor + n > data.length then .err .truncatedData
  else .ok (ofLeBytes ((data.drop cursor).take n), cursor + n)

def decodeBits (data : Bytes) (n cursor : Nat) : Outcome DecodeError (BitVec (8 * n) × Nat) := do
  let (v, cursor) ← decodeFixed data n cursor
  .ok (BitVec.ofNat (8 * n) v, cursor)

/-- `data[cursor..cursor + len]`. Where the sum does not fit, the check before it panics or, without
overflow checks, the slice ends before it starts. -/
def decodeSlice (data : Bytes) (len cursor : Nat) : Outcome DecodeError (Bytes × Nat) :=
  if cursor + len ≥ usizeCount then .panic
  else if cursor + len > data.length then .err .truncatedData
  else .ok ((data.drop cursor).take len, cursor + len)

/-- The bytes behind a length: of a byte string, a string and a key. -/
def decodeBytes (data : Bytes) (cursor : Nat) : Outcome DecodeError (Bytes × Nat) := do
  let (len, cursor) ← decodeBits data 4 cursor
  decodeSlice data (asUsize len) cursor

/-- `from_utf8`, with its error as a `DecodeError`. -/
def decodeUtf8 (bytes : Bytes) (cursor : Nat) : Outcome DecodeError (String × Nat) :=
  match fromUtf8 bytes with
  | none => .err .invalidUtf8
  | some s => .ok (s, cursor)

def decodeStr (data : Bytes) (cursor : Nat) : Outcome DecodeError (String × Nat) := do
  let (bytes, cursor) ← decodeBytes data cursor
  decodeUtf8 bytes cursor

/-- `HashMap::insert`. -/
def insertEntry (map : List (String × Value)) (key : String) (val : Value) : List (String × Value) :=
  if key ∈ map.map Prod.fst then map.map fun e => if e.1 = key then (e.1, val) else e
  else map ++ [(key, val)]

/-- `with_capacity(len)`. An element has at most 2^32 bytes, so that the capacity of a converted `i32`
overflows just when it was negative. -/
def withCapacity (len : Nat) (cursor : Nat) : Outcome DecodeError (Unit × Nat) :=
  if len > isizeMax then .panic else .ok ((), cursor)

def decodeItem (decodeAt : Nat → Outcome DecodeError (Value × Nat)) (items : List Value)
    (cursor : Nat) : Outcome DecodeError (List Value × Nat) := do
  let (item, newPos) ← decodeAt cursor
  .ok (items ++ [item], newPos)

def decodeArray (decodeAt : Nat → Outcome DecodeError (Value × Nat)) (data : Bytes) (cursor : Nat) :
    Outcome DecodeError (Value × Nat) := do
  let (len, cursor) ← decodeBits data 4 cursor
  let (_, cursor) ← withCapacity (asUsize len) cursor
  let (items, cursor) ← forRange (decodeItem decodeAt) (asUsize len) [] cursor
  .ok (.array items, cursor)

def decodeEntry (decodeAt : Nat → Outcome DecodeError (Value × Nat)) (data : Bytes)
    (map : List (String × Value)) (cursor : Nat) : Outcome DecodeError (List (String × Value) × Nat) := do
  let (key, cursor) ← decodeStr data cursor
  let (val, newPos) ← decodeAt cursor
  .ok (insertEntry map key val, newPos)

def decodeMap (decodeAt : Nat → Outcome DecodeError (Value × Nat)) (data : Bytes) (cursor : Nat) :
    Outcome DecodeError (Value × Nat) := do
  let (len, cursor) ← decodeBits data 4 cursor
  let (_, cursor) ← withCapacity (asUsize len) cursor
  let (map, cursor) ← forRange (decodeEntry decodeAt data) (asUsize len) [] cursor
  .ok (.map map, cursor)

def decodeBool (data : Bytes) (cursor : Nat) : Outcome DecodeError (Value × Nat) :=
  match data[cursor]? with
  | none => .err .truncatedData
  | some b => .ok (.bool (b ≠ 0), cursor + 1)

/-- A decoded part as a value. -/
def decodeAs {α : Type} (decode : Nat → Outcome DecodeError (α × Nat)) (f : α → Value) (cursor : Nat) :
    Outcome DecodeError (Value × Nat) := do
  let (a, cursor) ← decode cursor
  .ok (f a, cursor)

/-- The branches of `decode_at`, behind the tag. -/
def decodeBody (decodeAt : Nat → Outcome DecodeError (Value × Nat)) (data : Bytes) (tag : UInt8) :
    Nat → Outcome DecodeError (Value × Nat) :=
  if tag = tagNull then fun cursor => .ok (.null, cursor)
  else if tag = tagBool then decodeBool data
  else if tag = tagI32 then decodeAs (decodeBits data 4) .i32
  else if tag = tagI64 then decodeAs (decodeBits data 8) .i64
  else if tag = tagF32 then decodeAs (decodeBits data 4) .f32
  else if tag = tagF64 then decodeAs (decodeBits data 8) .f64
  else if tag = tagString then decodeAs (decodeStr data) .string
  else if tag = tagBytes then decodeAs (decodeBytes data) .bytes
  else if tag = tagArray then decodeArray decodeAt data
  else if tag = tagMap then decodeMap decodeAt data
  else fun _ => .err (.unexpectedTag tag)

/-- `decode_at`. A call inside begins at least a byte later, so that with as many calls as there are
bytes left the input is at its end when they run out. -/
def decodeAt (data : Bytes) : Nat → Nat → Outcome DecodeError (Value × Nat)
  | 0, _ => .err .emptyInput
  | fuel + 1, pos =>
    match data[pos]? with
    | none => .err .emptyInput
    | some tag => decodeBody (decodeAt data fuel) data tag (pos + 1)

/-- `decode`. -/
def decode (data : Bytes) : Outcome DecodeError Value := do
  let (value, consumed) ← decodeAt data data.length 0
  if consumed ≠ data.length then .err .truncatedData else .ok value

end Garry
