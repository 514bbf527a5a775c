import Garry.Model.SlottedPage
import Garry.Model.RecordCodec
import Garry.Model.Pool

/-!
# B-tree nodes on pages (`btree_node.c`)

The first record of a node page is a CBOR array of the sibling links and the children, the other
records are its entries. Page ids are stored with a bias so that `-1` is not negative.
-/

namespace Garry

open ByteStore

/-- `garry_btree_node`: the key, value and length arrays up to `entry_count` as one list of
entries, and the `entry_count + 1` children in use (none for a leaf). -/
structure BtreeNode where
  kind : NodeKind
  pageLevel : Int
  entries : List (Bytes × Bytes)
  children : List Int
  nextPage : Int
  prevPage : Int
deriving DecidableEq

namespace BtreeNode

def entryCount (node : BtreeNode) : Nat := node.entries.length

def keys (node : BtreeNode) : List Bytes := node.entries.map Prod.fst

/-- `node->children[i]`. -/
def child (node : BtreeNode) (i : Nat) : Int := node.children.getD i 0

end BtreeNode

/-! ## Metadata -/

/-- `encode_cbor_uint`. -/
def encodeCborUint (val : Int) : Bytes := if val < 0 then [] else cborHead cborUintBase val

/-- `decode_cbor_uint`: the new position and `*val`, which keeps its old value where the source
leaves it alone. -/
def decodeCborUint (buf : Store) (pos elen val : Int) : Int × Int :=
  if pos ≥ elen then (pos, val)
  else
    let fb := byteVal buf pos
    if fb < 24 then (pos + 1, fb)
    else if fb = 24 then
      if pos + 1 ≥ elen then (pos + 1, val) else (pos + 2, byteVal buf (pos + 1))
    else if fb = 25 then
      if pos + 2 ≥ elen then (pos + 1, val)
      else (pos + 3, byteVal buf (pos + 1) * 256 + byteVal buf (pos + 2))
    else if fb = 26 then
      if pos + 4 ≥ elen then (pos + 1, val)
      else (pos + 5, byteVal buf (pos + 1) * 16777216 + byteVal buf (pos + 2) * 65536 +
        byteVal buf (pos + 3) * 256 + byteVal buf (pos + 4))
    else (pos + 1, val)

/-- `garry_encode_node_meta`. -/
def encodeNodeMeta (node : BtreeNode) : Bytes :=
  let children := if node.kind = .internal then node.children else []
  let metaCount : Int := 2 + children.length
  (if metaCount < 24 then [toByte (128 + metaCount)] else [toByte (128 + 24), toByte metaCount]) ++
    (encodeCborUint (node.nextPage + pageIdBias) ++ (encodeCborUint (node.prevPage + pageIdBias) ++
      children.flatMap fun c => encodeCborUint (c + pageIdBias)))

/-- The loop over the children in `garry_decode_node_meta`. -/
def decodeChildren (buf : Store) (elen : Int) : Nat → Int → Int → List Int
  | 0, _, _ => []
  | n + 1, pos, decoded =>
    if pos < elen then
      let (pos, decoded) := decodeCborUint buf pos elen decoded
      (decoded - pageIdBias) :: decodeChildren buf elen n pos decoded
    else 0 :: decodeChildren buf elen n pos decoded

/-- `garry_decode_node_meta`. -/
def decodeNodeMeta (buf : Store) (elen : Int) (node : BtreeNode) : BtreeNode :=
  let fb := byteVal buf 0
  if fb < 128 ∨ fb ≥ 160 then node
  else
    let ai := fb % 32
    let header :=
      if ai < 24 then some (ai, 1)
      else if ai = 24 ∧ 1 < elen then some (byteVal buf 1, 2)
      else none
    match header with
    | none => node
    | some (arrCount, pos) =>
      let (pos, next) := decodeCborUint buf pos elen 0
      let (pos, prev) := decodeCborUint buf pos elen next
      let numChildren := if node.kind = .internal then (arrCount - 2).toNat else 0
      { node with
        nextPage := next - pageIdBias
        prevPage := prev - pageIdBias
        children := decodeChildren buf elen numChildren pos prev }

/-! ## Nodes -/

/-- The node `garry_load_node` starts from. -/
def emptyNode : BtreeNode where
  kind := .leaf
  pageLevel := 0
  entries := []
  children := []
  nextPage := -1
  prevPage := -1

/-- The entry of record `j`, when it decodes. -/
def loadEntry (buf : PageBuffer) (pageSize j : Nat) : Option (Bytes × Bytes) := do
  let rec_ ← pageGet buf j pageSize
  if rec_.length = 0 then none
  else
    let ((key, _), (value, _)) ← decodeKv rec_.toBuffer rec_.length
    return (key, value)

/-- `garry_load_node` on a pinned page. -/
def loadPage (buf : PageBuffer) (pageSize : Nat) : BtreeNode :=
  let recCount := pageRecordCount buf
  let ptypeVal := readInt32 buf 0
  let levelVal := readInt32 buf 4
  let kind : NodeKind :=
    if ptypeVal = NodeKind.leaf.code then .leaf
    else if ptypeVal = NodeKind.overflow.code then .overflow
    else .internal
  let node := { emptyNode with kind := kind, pageLevel := levelVal }
  let node :=
    if recCount > 0 then
      match pageGet buf metaSlot pageSize with
      | some recData =>
        if recData.length > 0 then decodeNodeMeta recData.toBuffer recData.length node else node
      | none => node
    else node
  let entries :=
    ((List.range' 1 (recCount - 1).toNat).filterMap (loadEntry buf pageSize)).take maxKeysPerNode
  { node with
    entries := entries
    children :=
      if kind = .leaf then []
      else (List.range (entries.length + 1)).map fun i => node.children.getD i 0 }

/-- `garry_load_node`. -/
def loadNode (pool : Pool) (pid : Int) : BtreeNode :=
  match (pool.tryPin pid).or (pool.pinPage pid) with
  | none => emptyNode
  | some buf => loadPage buf pool.pageSize

/-- The loop over the entries in `garry_store_node`: it stops at the first record that does not
fit. -/
def insertRecords (buf : PageBuffer) : List Bytes → PageBuffer × Bool
  | [] => (buf, true)
  | data :: recs =>
    match pageInsert buf data with
    | none => (buf, false)
    | some (_, buf) => insertRecords buf recs

/-- The record of an entry; the values of an internal node are not stored. -/
def encodeEntry (kind : NodeKind) (e : Bytes × Bytes) : Bytes :=
  if kind = .internal then encodeKv e.1 [] else encodeKv e.1 e.2

/-- `garry_store_node` lowers an `entry_count` above the maximum. -/
def BtreeNode.clampCount (node : BtreeNode) : BtreeNode :=
  { node with
    entries := node.entries.take maxKeysPerNode
    children := node.children.take (maxKeysPerNode + 1) }

/-- `garry_store_node`. -/
def storeNode (pool : Pool) (pid : Int) (node : BtreeNode) : Pool :=
  match pool.pinPage pid with
  | none => pool
  | some buf =>
    let node := node.clampCount
    let buf := pageInit buf node.kind node.pageLevel pool.pageSize
    match pageInsert buf (encodeNodeMeta node) with
    | none => pool.setPage pid buf
    | some (_, buf) =>
      match insertRecords buf (node.entries.map (encodeEntry node.kind)) with
      | (buf, true) => (pool.setPage pid buf).markDirty pid
      | (buf, false) => pool.setPage pid buf

/-- `garry_leaf_insert`. -/
def leafInsert (node : BtreeNode) (key value : Bytes) (idx : Nat) : Option BtreeNode :=
  if node.entryCount ≥ maxKeysPerNode then none
  else some { node with entries := node.entries.insertIdx idx (key, value) }

/-- `garry_allocate_leaf`, `garry_allocate_internal`: the page id, or `-1`. -/
def allocateNode (kind : NodeKind) (pool : Pool) : Int × Pool :=
  let (pid, pool) := pool.allocate
  if pid < 0 then (-1, pool)
  else
    match pool.pinPage pid with
    | none => (-1, pool)
    | some buf => (pid, (pool.setPage pid (pageInit buf kind 0 pool.pageSize)).markDirty pid)

def allocateLeaf (pool : Pool) : Int × Pool := allocateNode .leaf pool

def allocateInternal (pool : Pool) : Int × Pool := allocateNode .internal pool

/-! ## Metadata round trip -/

theorem encodeCborUint_of_nonneg (h : 0 ≤ val) : encodeCborUint val = cborHead 0 val := by
  rw [encodeCborUint, if_neg (by omega)]

theorem length_encodeCborUint_le (val : Int) : (encodeCborUint val).length ≤ 5 := by
  rw [encodeCborUint]
  split
  · simp
  · exact length_cborHead_le 0 val

theorem decodeCborUint_of_read (h : cborReadHead 0 buf elen pos = some (v, pos'))
    (hpos : pos < elen) (val : Int) : decodeCborUint buf pos elen val = (pos', v) := by
  have h0 := byteVal_nonneg buf pos
  rw [decodeCborUint, if_neg (by omega)]
  simp only [cborReadHead] at h ⊢
  split at h
  · rw [if_pos (by omega)]; simp at h; simp [h]
  rw [if_neg (by omega)]
  split at h
  · rw [if_pos (by omega), if_neg (by omega)]; simp at h; simp [h]
  split at h
  · rw [if_neg (by omega), if_pos (by omega), if_neg (by omega)]; simp at h; simp [h]
  split at h
  · rw [if_neg (by omega), if_neg (by omega), if_pos (by omega), if_neg (by omega)]
    simp at h; simp [h]
  · cases h

theorem decodeCborUint_encode (hval : 0 ≤ val ∧ val < 4294967296)
    (h : StandsAt buf pos (encodeCborUint val))
    (hlen : pos + (encodeCborUint val).length ≤ elen) (old : Int) :
    decodeCborUint buf pos elen old = (pos + (encodeCborUint val).length, val) := by
  rw [encodeCborUint_of_nonneg hval.1] at h hlen ⊢
  have hp := length_cborHead_pos 0 val
  exact decodeCborUint_of_read (cborReadHead_cborHead (by omega) hval h hlen) (by omega) old

/-- A page id that the codec can store. -/
def Encodable (pid : Int) : Prop := -pageIdBias ≤ pid ∧ pid < 2147483648 - pageIdBias

instance : Decidable (Encodable pid) := inferInstanceAs (Decidable (_ ∧ _))

theorem decodeChildren_encode {cs : List Int} (hcs : ∀ c ∈ cs, Encodable c)
    (h : StandsAt buf pos (cs.flatMap fun c => encodeCborUint (c + pageIdBias)))
    (hlen : pos + (cs.flatMap fun c => encodeCborUint (c + pageIdBias)).length ≤ elen) (old : Int) :
    decodeChildren buf elen cs.length pos old = cs := by
  induction cs generalizing pos old with
  | nil => rfl
  | cons c cs ih =>
    have hc : -100000 ≤ c ∧ c < 2147483648 - 100000 := hcs c (by simp)
    rw [List.flatMap_cons] at h hlen
    obtain ⟨h1, h2⟩ := StandsAt.append.mp h
    rw [List.length_append, Nat.cast_add] at hlen
    have hp := length_cborHead_pos 0 (c + 100000)
    have e : encodeCborUint (c + pageIdBias) = cborHead 0 (c + 100000) :=
      encodeCborUint_of_nonneg (by simp only [pageIdBias]; omega)
    have hlt : pos < elen := by rw [e] at hlen; omega
    rw [List.length_cons, decodeChildren, if_pos hlt,
      decodeCborUint_encode (by simp only [pageIdBias]; omega) h1 (by omega)]
    simp only [pageIdBias, List.cons.injEq]
    exact ⟨by omega, ih (fun x hx => hcs x (by simp [hx])) h2 (by omega) _⟩

theorem length_flatMap_encodeCborUint_le (cs : List Int) :
    (cs.flatMap fun c => encodeCborUint (c + pageIdBias)).length ≤ 5 * cs.length := by
  induction cs with
  | nil => simp
  | cons c cs ih =>
    have := length_encodeCborUint_le (c + pageIdBias)
    simp only [List.flatMap_cons, List.length_append, List.length_cons]; omega

/-! ## Node round trip -/

/-- A node that its page can store: of a leaf or an internal node, with values of at most
`valueMax` bytes. -/
structure NodeFits (valueMax : Nat) (node : BtreeNode) : Prop where
  shape : node.kind = .leaf ∧ node.children = [] ∨
    node.kind = .internal ∧ node.children.length = node.entries.length + 1 ∧
      ∀ e ∈ node.entries, e.2 = []
  level : Fits32 node.pageLevel
  count : node.entries.length ≤ maxKeysPerNode
  entry : ∀ e ∈ node.entries, e.1.length ≤ 255 ∧ e.2.length ≤ valueMax
  next : Encodable node.nextPage
  prev : Encodable node.prevPage
  child : ∀ c ∈ node.children, Encodable c

/-- A page has room for the largest node: its header, a metadata record of at most 31 bytes and
three entries. -/
def PageFits (pageSize valueMax : Nat) : Prop :=
  859 + 3 * valueMax ≤ pageSize ∧ pageSize ≤ maxPageSize ∧ valueMax ≤ 255

/-- The records of a node page. -/
def nodeRecords (node : BtreeNode) : List Bytes :=
  encodeNodeMeta node :: node.entries.map (encodeEntry node.kind)

theorem encodeNodeMeta_ne_nil (node : BtreeNode) : encodeNodeMeta node ≠ [] := by
  simp only [encodeNodeMeta]
  refine List.append_ne_nil_of_left_ne_nil ?_ _
  generalize (2 : Int) + _ = metaCount
  split <;> simp

theorem encodeEntry_ne_nil : encodeEntry kind e ≠ [] := by
  rw [encodeEntry]; split <;> exact encodeKv_ne_nil _ _

theorem NodeFits.children_length (h : NodeFits valueMax node) : node.children.length ≤ 4 := by
  have hc : node.entries.length ≤ 3 := h.count
  rcases h.shape with ⟨-, h⟩ | ⟨-, h, -⟩
  · simp [h]
  · omega

theorem NodeFits.meta_children (h : NodeFits valueMax node) :
    (if node.kind = .internal then node.children else []) = node.children := by
  rcases h.shape with ⟨hk, h⟩ | ⟨hk, -⟩
  · rw [hk, h]; rfl
  · rw [if_pos hk]

theorem NodeFits.length_meta_le (h : NodeFits valueMax node) :
    (encodeNodeMeta node).length ≤ 31 := by
  have hc := h.children_length
  have h1 := length_encodeCborUint_le (node.nextPage + pageIdBias)
  have h2 := length_encodeCborUint_le (node.prevPage + pageIdBias)
  have h3 := length_flatMap_encodeCborUint_le node.children
  rw [encodeNodeMeta, h.meta_children, if_pos (by omega)]
  simp only [List.length_append, List.length_cons, List.length_nil]; omega

/-- The metadata record of a node reads back. -/
theorem decodeNodeMeta_encode (h : NodeFits valueMax node) (hk : node'.kind = node.kind) :
    decodeNodeMeta (encodeNodeMeta node).toBuffer (encodeNodeMeta node).length node' =
      { node' with
        nextPage := node.nextPage
        prevPage := node.prevPage
        children := node.children } := by
  have hs := Bytes.toBuffer_standsAt (encodeNodeMeta node)
  have hc := h.children_length
  have hn : -100000 ≤ node.nextPage ∧ node.nextPage < 2147483648 - 100000 := h.next
  have hp : -100000 ≤ node.prevPage ∧ node.prevPage < 2147483648 - 100000 := h.prev
  generalize (encodeNodeMeta node).toBuffer = buf at hs
  rw [encodeNodeMeta, h.meta_children, if_pos (by omega)] at hs ⊢
  obtain ⟨hs0, hs⟩ := StandsAt.append.mp hs
  obtain ⟨hs1, hs⟩ := StandsAt.append.mp hs
  obtain ⟨hs2, hs3⟩ := StandsAt.append.mp hs
  have e0 := hs0.byteVal
  rw [toNat_toByte (by omega) (by omega)] at e0
  simp only [List.length_append, List.length_cons, List.length_nil, Nat.cast_add, Nat.cast_one,
    zero_add] at hs1 hs2 hs3 ⊢
  have hnum : (if node'.kind = .internal then
      (2 + (node.children.length : Int) - 2).toNat else 0) = node.children.length := by
    rcases h.shape with ⟨hk', h'⟩ | ⟨hk', -⟩
    · rw [hk, hk', h']; rfl
    · rw [if_pos (hk.trans hk')]; omega
  simp only [decodeNodeMeta, e0]
  rw [if_neg (by omega), show (128 + (2 + (node.children.length : Int))) % 32 =
    2 + node.children.length by omega, if_pos (by omega)]
  simp only
  rw [decodeCborUint_encode (by simp only [pageIdBias]; omega) hs1 (by omega)]
  simp only
  rw [decodeCborUint_encode (by simp only [pageIdBias]; omega) hs2 (by omega)]
  simp only
  rw [hnum, decodeChildren_encode h.child hs3 (by omega)]
  simp only [pageIdBias, Int.add_sub_cancel]

theorem insertRecords_holds (H : Holds ps buf recs) (hne : ∀ d ∈ datas, d ≠ [])
    (hslots : recs.length + datas.length ≤ maxSlots)
    (hroom : pageHeaderSize + slotSize * (recs.length + datas.length) +
      (usedBytes recs + usedBytes datas) ≤ ps) :
    ∃ buf', insertRecords buf datas = (buf', true) ∧ Holds ps buf' (recs ++ datas) ∧
      ∀ o, o + 4 ≤ pageHdrOffCount → readInt32 buf' o = readInt32 buf o := by
  induction datas generalizing buf recs with
  | nil => exact ⟨buf, rfl, by simpa using H, fun _ _ => rfl⟩
  | cons data datas ih =>
    simp only [usedBytes_cons, List.length_cons, slotSize] at hroom hslots
    obtain ⟨buf₁, h1, H1, hw1⟩ := pageInsert_some H (hne data (by simp))
      ⟨by omega, by simp only [slotSize]; omega⟩
    obtain ⟨buf', h2, H2, hw2⟩ := ih H1 (fun d hd => hne d (by simp [hd]))
      (by simp only [List.length_append, List.length_singleton]; omega)
      (by simp only [List.length_append, List.length_singleton, usedBytes_append, usedBytes_cons,
        usedBytes_nil, slotSize]; omega)
    refine ⟨buf', by simp only [insertRecords, h1, h2], by simpa using H2, fun o ho => ?_⟩
    rw [hw2 o ho, hw1 o ho]

theorem NodeFits.usedBytes_le (h : NodeFits valueMax node) :
    usedBytes (node.entries.map (encodeEntry node.kind)) ≤
      node.entries.length * (valueMax + 260) := by
  have he := h.entry
  generalize node.entries = es at he
  induction es with
  | nil => simp
  | cons e es ih =>
    have h1 := he e (by simp)
    have h2 : (encodeEntry node.kind e).length ≤ valueMax + 260 := by
      rw [encodeEntry]
      split
      · have := encodeKv_length_le e.1 []
        simp at this; omega
      · have := encodeKv_length_le e.1 e.2
        omega
    have h3 := ih fun x hx => he x (by simp [hx])
    simp only [List.map_cons, usedBytes_cons, List.length_cons, Nat.add_mul]; omega

theorem loadEntry_of_holds (H : Holds ps buf (nodeRecords node)) (h : NodeFits valueMax node)
    (hv : valueMax ≤ 255) (hi : node.entries[i]? = some e) :
    loadEntry buf ps (1 + i) = some e := by
  have hr : (nodeRecords node)[1 + i]? = some (encodeEntry node.kind e) := by
    rw [Nat.add_comm]; simp [nodeRecords, hi]
  have he := h.entry e (List.mem_of_getElem? hi)
  have henc : encodeEntry node.kind e = encodeKv e.1 e.2 := by
    rw [encodeEntry]
    rcases h.shape with ⟨hk, -⟩ | ⟨hk, -, hval⟩
    · rw [hk]; rfl
    · rw [if_pos hk, hval e (List.mem_of_getElem? hi)]
  have hne : (encodeKv e.1 e.2).length ≠ 0 := fun h0 =>
    encodeKv_ne_nil _ _ (List.eq_nil_of_length_eq_zero h0)
  rw [loadEntry, pageGet_holds H hr, henc]
  simp only [Option.bind_eq_bind, Option.bind_some, if_neg hne,
    decodeKv_encodeKv he.1 (he.2.trans hv)]
  rfl

theorem filterMap_range'_eq {α : Type} {f : Nat → Option α} {l : List α}
    (h : ∀ i e, l[i]? = some e → f (s + i) = some e) :
    (List.range' s l.length).filterMap f = l := by
  induction l generalizing s with
  | nil => rfl
  | cons x l ih =>
    have h0 : f s = some x := h 0 x rfl
    rw [List.length_cons, List.range'_succ, List.filterMap_cons, h0]
    simp only
    rw [ih]
    intro i e hi
    rw [Nat.add_assoc, Nat.add_comm 1 i]
    exact h (i + 1) e (by simpa using hi)

/-- A page that holds the records of a node loads as that node. -/
theorem loadPage_of_holds (H : Holds ps buf (nodeRecords node)) (h : NodeFits valueMax node)
    (hv : valueMax ≤ 255) (ht : readInt32 buf pageHdrOffType = node.kind.code)
    (hl : readInt32 buf pageHdrOffLevel = node.pageLevel) : loadPage buf ps = node := by
  have hcount : pageRecordCount buf = 1 + node.entries.length := by
    rw [pageRecordCount, H.count]; simp [nodeRecords]; omega
  have hmeta : pageGet buf metaSlot ps = some (encodeNodeMeta node) := pageGet_holds H rfl
  have hmpos : 0 < (encodeNodeMeta node).length := List.length_pos_iff.mpr (encodeNodeMeta_ne_nil node)
  have hents : (List.range' 1 node.entries.length).filterMap (loadEntry buf ps) = node.entries :=
    filterMap_range'_eq fun i e hi => loadEntry_of_holds H h hv hi
  have hcnt : node.entries.length ≤ maxKeysPerNode := h.count
  have hkind : (if node.kind.code = NodeKind.leaf.code then NodeKind.leaf
      else if node.kind.code = NodeKind.overflow.code then .overflow else .internal) =
      node.kind := by
    rcases h.shape with ⟨hk, -⟩ | ⟨hk, -⟩ <;> rw [hk] <;> decide
  simp only [pageHdrOffType, pageHdrOffLevel] at ht hl
  simp only [loadPage, hcount, ht, hl, hmeta, hkind]
  rw [if_pos (by omega), if_pos hmpos, show (1 + (node.entries.length : Int) - 1).toNat =
    node.entries.length by omega, hents, List.take_of_length_le hcnt]
  simp only [decodeNodeMeta_encode h]
  obtain ⟨kind, level, entries, children, next, prev⟩ := node
  simp only [BtreeNode.mk.injEq, true_and, and_true]
  rcases h.shape with ⟨hk, hch⟩ | ⟨hk, hch, -⟩
  · simp only at hk hch; rw [if_pos hk, hch]
  · simp only at hk hch
    rw [hk, if_neg (by decide)]
    apply List.ext_getElem (by simp [hch])
    intro i h1 h2
    simp [h2]

theorem loadNode_of_pages {pool : Pool} (hs : pool.Serves) (hp : 0 ≤ pid) :
    loadNode pool pid = loadPage (pool.pages pid) pool.pageSize := by
  rw [loadNode, Pool.pinPage_eq hs hp]
  rcases pool.tryPin_or pid with h | h <;> rw [h] <;> rfl

/-- The page holds a node as `garry_store_node` writes it. -/
structure HoldsNode (ps : Nat) (buf : PageBuffer) (node : BtreeNode) : Prop where
  records : Holds ps buf (nodeRecords node)
  kind : readInt32 buf pageHdrOffType = node.kind.code
  level : readInt32 buf pageHdrOffLevel = node.pageLevel

theorem HoldsNode.load (h : HoldsNode ps buf node) (hn : NodeFits valueMax node)
    (hv : valueMax ≤ 255) : loadPage buf ps = node :=
  loadPage_of_holds h.records hn hv h.kind h.level

/-- What `garry_store_node` writes. -/
theorem storeNode_holds {pool : Pool} (hs : pool.Serves) (hp : 0 ≤ pid) (h : NodeFits valueMax node)
    (hps : PageFits pool.pageSize valueMax) :
    ∃ buf, storeNode pool pid node = (pool.setPage pid buf).markDirty pid ∧
      HoldsNode pool.pageSize buf node := by
  obtain ⟨hps1, hps2, hv⟩ := hps
  have hm := h.length_meta_le
  have hu := h.usedBytes_le
  have hcnt : node.entries.length ≤ 3 := h.count
  have hnode : node.clampCount = node := by
    rw [BtreeNode.clampCount, List.take_of_length_le h.count,
      List.take_of_length_le h.children_length]
  have hbound : node.entries.length * (valueMax + 260) ≤ 3 * (valueMax + 260) :=
    Nat.mul_le_mul_right _ hcnt
  obtain ⟨ht, hl, -⟩ := pageInit_word (pool.pages pid) node.kind node.pageLevel pool.pageSize
  have H0 := pageInit_holds (pool.pages pid) node.kind node.pageLevel
    (show pageHeaderSize ≤ pool.pageSize by simp only [pageHeaderSize]; omega) hps2
  have hroom : HasRoom pool.pageSize [] (encodeNodeMeta node).length :=
    ⟨by simp, by simp [pageHeaderSize, slotSize]; omega⟩
  obtain ⟨buf₁, h1, H1, hw1⟩ := pageInsert_some H0 (encodeNodeMeta_ne_nil node) hroom
  have hne : ∀ d ∈ node.entries.map (encodeEntry node.kind), d ≠ [] := by
    intro d hd
    obtain ⟨e, -, rfl⟩ := List.mem_map.mp hd
    exact encodeEntry_ne_nil
  obtain ⟨buf₂, h2, H2, hw2⟩ := insertRecords_holds H1 hne
    (by simp [maxSlots]; omega) (by simp [pageHeaderSize, slotSize]; omega)
  refine ⟨buf₂, ?_, by simpa [nodeRecords] using H2, ?_, ?_⟩
  · simp only [storeNode, Pool.pinPage_eq hs hp, hnode, h1, h2]
  · rw [hw2 _ (by decide), hw1 _ (by decide), ht]
  · rw [hw2 _ (by decide), hw1 _ (by decide), hl h.level]

/-- The node is read back. -/
theorem storeNode_eq {pool : Pool} (hs : pool.Serves) (hp : 0 ≤ pid) (h : NodeFits valueMax node)
    (hps : PageFits pool.pageSize valueMax) :
    ∃ buf, storeNode pool pid node = (pool.setPage pid buf).markDirty pid ∧
      loadPage buf pool.pageSize = node := by
  obtain ⟨buf, hstore, H⟩ := storeNode_holds hs hp h hps
  exact ⟨buf, hstore, H.load h hps.2.2⟩

end Garry
