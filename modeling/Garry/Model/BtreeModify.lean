import Garry.Model.BtreeSearch

/-!
# Insertion and deletion (`btree_modify.c`)
-/

namespace Garry

/-- What `btree_insert_rec` hands back: its result, the separator and the page split off to the
right (`-1` for none). -/
structure InsertOut where
  pool : Pool
  inserted : Bool
  sep : Bytes
  newChild : Int

/-- `garry_store_node` followed by `garry_pool_mark_dirty`. -/
def storeDirty (pool : Pool) (page : Int) (node : BtreeNode) : Pool :=
  (storeNode pool page node).markDirty page

/-- The loop of `btree_insert_rec` that looks for the position of a new key, from entry `i - 1`
down. -/
def insertPosition (node : BtreeNode) (key : Bytes) : Nat → Nat
  | 0 => node.entryCount
  | i + 1 =>
    if byteCompare key (node.keys.getD i []) < 0 then i else insertPosition node key i

/-- `leaf_split`: the result and the node, which the source changes in place. -/
def leafSplit (pool : Pool) (page : Int) (node : BtreeNode) (key value : Bytes) :
    InsertOut × BtreeNode :=
  let allCount := node.entryCount + 1
  let mid := allCount / 2
  let insertPos := node.keys.findIdx fun k => decide (byteCompare key k < 0)
  let all := node.entries.insertIdx insertPos (key, value)
  let (rightPage, pool) := allocateLeaf pool
  if rightPage < 0 then (⟨pool, false, [], -1⟩, node)
  else
    let right := { loadNode pool rightPage with
      kind := .leaf
      entries := all.drop mid
      children := []
      nextPage := node.nextPage
      prevPage := page }
    let node := { node with entries := all.take mid, nextPage := rightPage }
    let pool := pool.markDirty page
    let pool := storeNode pool rightPage right
    let pool := storeNode pool page node
    (⟨pool, true, right.keys.getD 0 [], rightPage⟩, node)

/-- `internal_split`. -/
def internalSplit (pool : Pool) (page : Int) (node : BtreeNode) (insertIdx : Nat)
    (insertKey : Bytes) (insertChild : Int) : InsertOut :=
  let allCount := node.entryCount + 1
  let mid := allCount / 2
  let all := node.entries.insertIdx insertIdx (insertKey, [])
  let allChildren := node.children.insertIdx (insertIdx + 1) insertChild
  let (rightPage, pool) := allocateInternal pool
  if rightPage < 0 then ⟨pool, false, [], -1⟩
  else
    let right := { loadNode pool rightPage with
      kind := .internal
      pageLevel := node.pageLevel
      entries := all.drop (mid + 1)
      children := allChildren.drop (mid + 1)
      nextPage := node.nextPage
      prevPage := page }
    let node := { node with
      entries := all.take mid
      children := allChildren.take (mid + 1)
      nextPage := rightPage }
    let pool := storeNode pool rightPage right
    let pool := storeNode pool page node
    let pool := (pool.markDirty rightPage).markDirty page
    ⟨pool, true, (all.getD mid ([], [])).1, rightPage⟩

/-- `btree_insert_rec`. -/
def btreeInsertRec (key value : Bytes) : Nat → Pool → Int → Option InsertOut
  | 0, _, _ => none
  | fuel + 1, pool, page =>
    let node := loadNode pool page
    if node.kind = .leaf then
      match leafFind node key with
      | some idx =>
        let node := { node with entries := node.entries.set idx (key, value) }
        some ⟨storeDirty pool page node, true, [], -1⟩
      | none =>
        if node.entryCount < maxKeysPerNode - 1 then
          match leafInsert node key value (insertPosition node key node.entryCount) with
          | some node => some ⟨storeDirty pool page node, true, [], -1⟩
          | none => some ⟨storeDirty pool page node, false, [], -1⟩
        else
          let (out, node) := leafSplit pool page node key value
          some { out with pool := storeNode out.pool page node }
    else
      let idx := internalFind node key
      match btreeInsertRec key value fuel pool (node.child idx) with
      | none => none
      | some out =>
        if out.inserted ∧ out.newChild ≥ 0 then
          if node.entryCount < maxKeysPerNode then
            let node := { node with
              entries := node.entries.insertIdx idx (out.sep, [])
              children := node.children.insertIdx (idx + 1) out.newChild }
            some ⟨storeDirty out.pool page node, true, [], -1⟩
          else some (internalSplit out.pool page node idx out.sep out.newChild)
        else some ⟨out.pool, out.inserted, [], -1⟩

/-- `garry_btree_insert`: the result, the pool and the new root. -/
def btreeInsert (pool : Pool) (root : Int) (key value : Bytes) : Option (Bool × Pool × Int) :=
  let origRootEntries := (loadNode pool root).entryCount
  match btreeInsertRec key value pool.fuel pool root with
  | none => none
  | some out =>
    if out.newChild ≥ 0 then
      let rootNode := loadNode out.pool root
      if rootNode.entryCount ≤ origRootEntries then
        let (newRootPage, pool) := allocateInternal out.pool
        if newRootPage < 0 then some (false, pool, root)
        else
          let newRootNode : BtreeNode := {
            kind := .internal
            pageLevel := 0
            entries := [(out.sep, [])]
            children := [root, out.newChild]
            nextPage := -1
            prevPage := -1 }
          some (out.inserted, storeDirty pool newRootPage newRootNode, newRootPage)
      else some (out.inserted, out.pool, root)
    else some (out.inserted, out.pool, root)

/-- The children of `parent` at `j` and `j + 1` joined in the page of the left one: the two halves
of `rebalance_child`, which differ in the side the emptied child is on. -/
def joinChildren (pool : Pool) (parentPage : Int) (parent : BtreeNode) (j : Nat) :
    Pool × BtreeNode × Bool :=
  let leftPage := parent.child j
  let left := loadNode pool leftPage
  let right := loadNode pool (parent.child (j + 1))
  let mergedKeys := left.entryCount + right.entryCount + if left.kind = .internal then 1 else 0
  if mergedKeys > maxKeysPerNode then (pool, parent, false)
  else
    let entries :=
      if left.kind = .internal then left.entries ++ [(parent.keys.getD j [], [])] else left.entries
    let left := { left with
      entries := entries ++ right.entries
      children :=
        if right.kind = .internal then left.children.take entries.length ++ right.children
        else left.children
      nextPage := right.nextPage }
    let pool := storeDirty pool leftPage left
    -- With `entry_count` 0 the source counts down to -1 and then stores no child.
    let parent := { parent with
      entries := parent.entries.eraseIdx j
      children := (parent.children.eraseIdx (j + 1)).take parent.entryCount }
    (storeDirty pool parentPage parent, parent, true)

/-- `rebalance_child`: the pool, the parent, which the source changes in place, and the result. -/
def rebalanceChild (pool : Pool) (parentPage : Int) (parent : BtreeNode) (childIdx : Nat) :
    Pool × BtreeNode × Bool :=
  if childIdx > 0 then joinChildren pool parentPage parent (childIdx - 1)
  else joinChildren pool parentPage parent childIdx

/-- `btree_delete_rec`: the pool and whether the node underflowed. -/
def btreeDeleteRec (key : Bytes) : Nat → Pool → Int → Option (Pool × Bool)
  | 0, _, _ => none
  | fuel + 1, pool, page =>
    let node := loadNode pool page
    if node.kind = .leaf then
      match leafFind node key with
      | some idx =>
        let node := { node with entries := node.entries.eraseIdx idx }
        some (storeDirty pool page node, node.entryCount < btreeMinKeys)
      | none => some (pool, node.entryCount < btreeMinKeys)
    else
      let idx := internalFind node key
      match btreeDeleteRec key fuel pool (node.child idx) with
      | none => none
      | some (pool, underflowed) =>
        let (pool, node, _) := if underflowed then rebalanceChild pool page node idx
          else (pool, node, false)
        some (pool, node.entryCount < btreeMinKeys)

/-- `garry_btree_delete`: the pool and the new root. -/
def btreeDelete (pool : Pool) (root : Int) (key : Bytes) : Option (Pool × Int) :=
  match btreeDeleteRec key pool.fuel pool root with
  | none => none
  | some (pool, underflowed) =>
    if underflowed then
      let rnode := loadNode pool root
      if rnode.kind = .internal ∧ rnode.entryCount = 0 then
        some (pool.freePage root, rnode.child 0)
      else some (pool, root)
    else some (pool, root)

end Garry
