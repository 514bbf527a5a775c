import Garry.Model.Serializer

/-!
# Flattened values of the Rust wrapper (`serializer.rs`)

A value goes into the store as one record for each leaf, under the key that its path encodes.
-/

namespace Garry

open Parsing

/-- `encode_key`. -/
def encodeKey (parts : List String) : Bytes :=
  parts.flatMap fun part => UInt8.ofNat (asBytes part).length :: asBytes part

/-- The loop of `decode_key`. A part takes a byte at least, so that with as many rounds as there are
bytes left the key is at its end when they run out. -/
def decodeKeyLoop (key : Bytes) : Nat → Nat → List String → List String
  | 0, _, parts => parts
  | fuel + 1, offset, parts =>
    match key[offset]? with
    | none => parts
    | some b =>
      let len := b.toNat
      let offset := offset + 1
      if offset + len > key.length then parts
      else
        let parts :=
          match fromUtf8 ((key.drop offset).take len) with
          | some s => parts ++ [s]
          | none => parts
        decodeKeyLoop key fuel (offset + len) parts

/-- `decode_key`. -/
def decodeKey (key : Bytes) : List String := decodeKeyLoop key key.length 0 []

mutual

/-- `flatten_value`: what it pushes. -/
def flattenValue (parts : List String) : Value → List (Bytes × Bytes)
  | .map map => flattenEntries parts map
  | .array arr => flattenItems parts 0 arr
  | value => [(encodeKey parts, encode value)]

/-- The loop over the entries of a map. -/
def flattenEntries (parts : List String) : List (String × Value) → List (Bytes × Bytes)
  | [] => []
  | (k, v) :: map => flattenValue (parts ++ [k]) v ++ flattenEntries parts map

/-- The loop over the items of an array. -/
def flattenItems (parts : List String) (i : Nat) : List Value → List (Bytes × Bytes)
  | [] => []
  | v :: arr => flattenValue (parts ++ [toString i]) v ++ flattenItems parts (i + 1) arr

end

/-- `flatten_to_keys` on the value that the object serializes to. -/
def flattenToKeys (pfx : String) (value : Value) : List (Bytes × Bytes) :=
  let prefixParts := if pfx = "" then [] else pfx.splitOn "."
  flattenValue prefixParts value

/-- `if let Value::Map(m) = entry`. -/
def modifyMap (f : List (String × Value) → List (String × Value)) : Value → Value
  | .map m => .map (f m)
  | entry => entry

/-- `insert_nested`. -/
def insertNested (map : List (String × Value)) : List String → Value → List (String × Value)
  | [], _ => map
  | [key], value => insertEntry map key value
  | key :: part :: remaining, value =>
    -- `entry(key).or_insert_with`
    let map := if key ∈ map.map Prod.fst then map else map ++ [(key, .map [])]
    map.map fun e =>
      if e.1 = key then (e.1, modifyMap (fun m => insertNested m (part :: remaining) value) e.2) else e

/-- The loop of `unflatten_from_keys`. -/
def unflattenLoop (root : List (String × Value)) :
    List (Bytes × Bytes) → Outcome DecodeError (List (String × Value))
  | [] => .ok root
  | (keyBytes, valBytes) :: entries => do
    let value ← decode valBytes
    unflattenLoop (insertNested root (decodeKey keyBytes) value) entries

/-- `unflatten_from_keys`. -/
def unflattenFromKeys (entries : List (Bytes × Bytes)) : Outcome DecodeError Value := do
  let root ← unflattenLoop [] entries
  .ok (.map root)

end Garry
