import Garry.Model.Cursor

/-!
# More calls that read (`storage_ops.c`, `garry_api.c`)

As in the descents, a result of `none` means that a loop of the source does not end.
-/

namespace Garry

open ByteStore

/-- `GARRY_DATA_NOT_FOUND` and its siblings. -/
inductive DataKind
  | notFound | hasChildren | hasValue | hasBoth
deriving DecidableEq, Repr

/-- The number that stands for it in the source. -/
def DataKind.code : DataKind → Int
  | .notFound => 0
  | .hasChildren => 1
  | .hasValue => 10
  | .hasBoth => 11

namespace Engine

/-- `garry_storage_data`, which does not ask whether the transaction is active. -/
def storageData (eng : Engine) (txn : Int) (key : Bytes) : Option DataKind :=
  if key.length = 0 then some .notFound
  else
    (leafFindSearch eng.pool eng.btreeRoot key).map fun lookup =>
      match lookup with
      | none => .notFound
      | some lookup =>
        let cid := decodeCidFromDescriptor lookup.toBuffer
        if cid < 0 then .notFound
        else
          let hasChildren :=
            byteVal lookup.toBuffer 0 = cborMapBase + 2 ∧
              (decodeDescriptor lookup.toBuffer lookupBufSize).2 = true
          match eng.mvccGet txn cid with
          | some _ => if hasChildren then .hasBoth else .hasValue
          | none => if hasChildren then .hasChildren else .notFound

/-- `garry_storage_get_default`: the value or the default; `def` is no null pointer. -/
def storageGetDefault (lz4 : Lz4) (eng : Engine) (txn : Int) (key dflt : Bytes) :
    Option (Option Bytes) :=
  (eng.storageGet lz4 txn key).map fun found =>
    match found with
    | some value => some value
    | none =>
      if eng.txnIsActive txn = false then none
      else if dflt.length > maxRecordSize then none
      else some dflt

/-- The loop of `garry_for_each`: the visitor changes the data of its caller, which is passed on. -/
def forEachLoop {σ : Type} (lz4 : Lz4) (eng : Engine) (visitor : σ → Bytes → Option Bytes → σ) :
    Nat → StorageCursor → σ → Option σ
  | 0, _, _ => none
  | fuel + 1, cur, userData =>
    match eng.cursorNext lz4 true cur with
    | none => none
    | some (none, _) => some userData
    | some (some (key, value), cur) =>
      forEachLoop lz4 eng visitor fuel cur (visitor userData key value)

/-- `garry_for_each` with a visitor that makes no calls of its own. Each round of the loop but the
last passes an entry. -/
def forEach {σ : Type} (lz4 : Lz4) (eng : Engine) (txn : Int) (pfx : Bytes)
    (visitor : σ → Bytes → Option Bytes → σ) (userData : σ) : Option σ :=
  (eng.cursorOpen txn pfx).bind fun cur =>
    eng.forEachLoop lz4 visitor (eng.cursorFuel + 1) cur userData

end Engine

end Garry
