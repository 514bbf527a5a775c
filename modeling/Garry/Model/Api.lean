import Garry.Library.LocalArray
import Garry.Model.Engine

/-!
# Calls of the library (`garry_api.c`)

The handle of the database and the pointers are not null. A buffer of the caller is an array; an
inner result of `none` means that a store is past its end.
-/

namespace Garry

open ByteStore LocalArray

/-- `garry_status_t`. -/
inductive Status
  | ok | notFound | lockConflict | io | corrupt | invalidArg | noMem | bufferTooSmall
deriving DecidableEq, Repr

namespace Engine

/-- `garry_storage_get` with the array `result` of `size` bytes: whether the key is found, the array
and `result_len`. -/
def storageGetInto (lz4 : Lz4) (eng : Engine) (txn : Int) (key : Bytes) (size : Nat) (result : Store)
    (resultLen : Int) : Option (Option (Bool × Store × Int)) :=
  (eng.storageGet lz4 txn key).map fun found =>
    match found with
    | none => some (false, result, resultLen)
    | some val => (storeList size result 0 val).map fun result => (true, result, val.length)

/-- `garry_get`: the array `value` has `size` bytes, `vlen` is no bound of the copy. -/
def garryGet (lz4 : Lz4) (eng : Engine) (txn : Int) (key : Bytes) (size : Nat) (value : Store)
    (vlen : Int) : Option (Option (Status × Store × Int)) :=
  (eng.storageGetInto lz4 txn key size value vlen).map fun r =>
    r.map fun (found, value, vlen) =>
      if found then (.ok, value, vlen)
      else if eng.txnIsActive txn = false then (.invalidArg, value, vlen)
      else (.notFound, value, vlen)

/-- `garry_get_str` with an array of `valueSize` bytes; `key` are the bytes before the NUL. -/
def garryGetStr (lz4 : Lz4) (eng : Engine) (txn : Int) (key : Bytes) (value : Store)
    (valueSize : Int) : Option (Option (Status × Store)) :=
  if valueSize ≤ 0 then some (some (.invalidArg, value))
  else if key.length > maxKeySize then some (some (.bufferTooSmall, value))
  else
    (eng.garryGet lz4 txn key valueSize.toNat value (valueSize - 1)).map fun r =>
      r.bind fun (rc, value, vlen) =>
        if rc = .ok then
          let vlen := if vlen ≥ valueSize then valueSize - 1 else vlen
          (store valueSize.toNat value vlen.toNat 0).map fun value => (rc, value)
        else some (rc, value)

/-- `garry_delete`. -/
def garryDelete (eng : Engine) (txn : Int) (key : Bytes) : Option (Status × Engine) :=
  (eng.storageDelete txn key).map fun (ok, eng) => (if ok then .ok else .notFound, eng)

end Engine

end Garry
