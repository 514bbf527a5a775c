import Garry.Model.BtreeNode
import Garry.Model.KeyEncoding

/-!
# Search (`btree_search.c`)

The descents of the source follow child pointers; here they carry fuel, and a result of `none`
means that the fuel ran out.
-/

namespace Garry

/-- `garry_leaf_find`. -/
def leafFind (node : BtreeNode) (key : Bytes) : Option Nat :=
  node.keys.findIdx? fun k => byteEqual k key

/-- `garry_internal_find`. -/
def internalFind (node : BtreeNode) (key : Bytes) : Nat :=
  node.keys.findIdx fun k => decide (byteCompare key k < 0)

/-- The loop of `garry_leaf_find_search`: the value of the key. -/
def leafFindSearchLoop (pool : Pool) (key : Bytes) : Nat → Int → Option (Option Bytes)
  | 0, _ => none
  | fuel + 1, page =>
    let node := loadNode pool page
    if node.kind = .leaf then
      some ((leafFind node key).bind fun idx => node.entries[idx]?.map Prod.snd)
    else if node.kind ≠ .internal then some none
    else if node.entryCount = 0 then some none
    else leafFindSearchLoop pool key fuel (node.child (internalFind node key))

/-- A descent visits each page at most once. -/
def Pool.fuel (pool : Pool) : Nat := pool.nextPage.toNat + 1

/-- `garry_leaf_find_search`. -/
def leafFindSearch (pool : Pool) (root : Int) (key : Bytes) : Option (Option Bytes) :=
  leafFindSearchLoop pool key pool.fuel root

end Garry
