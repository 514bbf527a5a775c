import Garry.Model.BtreeNode

/-!
# Pages as lists of records

Calls of `garry_page_insert` on a fresh page append records to a list, up to the first that do not
fit; a node page is such a page, and loads as its node if all its records fit and decode.
-/

namespace Garry

open ByteStore

variable {ps n : Nat} {buf : PageBuffer} {recs datas : List Bytes} {data : Bytes}

/-! ## Append-only lists -/

/-- `garry_page_insert` with the value it returns. -/
def pageInsertCall (buf : PageBuffer) (data : Bytes) : Int × PageBuffer :=
  match pageInsert buf data with
  | none => (-1, buf)
  | some (idx, buf) => (idx, buf)

/-- The page after calls of `garry_page_insert`. -/
def insertAll (buf : PageBuffer) (datas : List Bytes) : PageBuffer :=
  datas.foldl (fun buf data => (pageInsertCall buf data).2) buf

/-- The list of records after a call. -/
def appendRecord (ps : Nat) (recs : List Bytes) (data : Bytes) : List Bytes :=
  if HasRoom ps recs data.length then recs ++ [data] else recs

/-- The bytes between the slot directory and the records. -/
def freeGap (buf : PageBuffer) : Int :=
  readInt32 buf pageHdrOffFreeEnd - readInt32 buf pageHdrOffFreeStart

theorem hasRoom_iff (H : Holds ps buf recs) :
    HasRoom ps recs n ↔ recs.length < maxSlots ∧ (n : Int) + slotSize ≤ freeGap buf := by
  rw [HasRoom, freeGap, H.freeStart, H.freeEnd]
  simp only [maxSlots, pageHeaderSize, slotSize]
  omega

/-- One call appends the record or leaves the page as it was. -/
theorem pageInsertCall_holds (H : Holds ps buf recs) (hd : data ≠ []) :
    Holds ps (pageInsertCall buf data).2 (appendRecord ps recs data) ∧
      if HasRoom ps recs data.length then (pageInsertCall buf data).1 = recs.length
      else pageInsertCall buf data = (-1, buf) := by
  rw [pageInsertCall, appendRecord]
  by_cases hroom : HasRoom ps recs data.length
  · obtain ⟨buf', he, H', -⟩ := pageInsert_some H hd hroom
    rw [if_pos hroom, if_pos hroom, he]
    exact ⟨H', rfl⟩
  · rw [if_neg hroom, if_neg hroom, pageInsert_none H hroom]
    exact ⟨H, rfl⟩

/-- A run of calls. -/
theorem insertAll_holds (H : Holds ps buf recs) (hd : ∀ data ∈ datas, data ≠ []) :
    Holds ps (insertAll buf datas) (datas.foldl (appendRecord ps) recs) := by
  induction datas generalizing buf recs with
  | nil => exact H
  | cons data datas ih =>
    have hstep := (pageInsertCall_holds H (hd data (List.mem_cons_self ..))).1
    exact ih hstep fun d hdm => hd d (List.mem_cons_of_mem _ hdm)

/-- The directory ends before the records start, and each record lies between the directory and the
end of the page. -/
structure Apart (ps : Nat) (buf : PageBuffer) (count : Nat) : Prop where
  directory : readInt32 buf pageHdrOffFreeStart = slotOffset count
  records : readInt32 buf pageHdrOffFreeStart ≤ readInt32 buf pageHdrOffFreeEnd
  record : ∀ i < count, readInt32 buf pageHdrOffFreeEnd ≤ (readSlot buf i).offset ∧
    (readSlot buf i).offset + (readSlot buf i).length ≤ ps

theorem Holds.apart (H : Holds ps buf recs) : Apart ps buf recs.length := by
  have hf : 32 + 4 * recs.length + usedBytes recs ≤ ps := H.fits
  refine ⟨?_, ?_, fun i hi => ?_⟩
  · rw [H.freeStart, slotOffset]
    simp only [pageHeaderSize, slotSize]
    omega
  · rw [H.freeStart, H.freeEnd]
    simp only [pageHeaderSize, slotSize]
    omega
  · have hr : recs[i]? = some recs[i] := List.getElem?_eq_getElem hi
    have hsucc := usedBytes_take_succ hr
    have hle := usedBytes_take_le recs (i + 1)
    rw [H.slot hr, H.freeEnd]
    simp only
    omega

/-- A slotted page is an append-only list: after any calls on a fresh page the records are those of
the calls that had room, in order, under their indices and apart from header and directory; a
further call succeeds if and only if there are fewer than 128 records and the gap has room for the
record and its slot, and then returns the next index; one that fails changes nothing. -/
theorem pageInsert_appends (hmin : 512 ≤ ps) (hmax : ps ≤ 65536) (buf : PageBuffer)
    (kind : NodeKind) (level : Int) (hd : ∀ data ∈ datas, data ≠ []) :
    ∃ page recs, page = insertAll (pageInit buf kind level ps) datas ∧
      recs = datas.foldl (appendRecord ps) [] ∧
      (∀ i, pageGet page i ps = recs[i]?) ∧ Apart ps page recs.length ∧
      ∀ data : Bytes, data ≠ [] →
        if recs.length < 128 ∧ (data.length : Int) + 4 ≤ freeGap page then
          (pageInsertCall page data).1 = recs.length ∧
            (∀ i, pageGet (pageInsertCall page data).2 i ps = (recs ++ [data])[i]?)
        else pageInsertCall page data = (-1, page) := by
  have H0 := pageInit_holds buf kind level (show pageHeaderSize ≤ ps by simp only [pageHeaderSize]; omega)
    hmax
  have H := insertAll_holds H0 hd
  refine ⟨_, _, rfl, rfl, pageGet_eq H, H.apart, fun data hdata => ?_⟩
  obtain ⟨H', hcall⟩ := pageInsertCall_holds H hdata
  have hroom := hasRoom_iff (n := data.length) H
  simp only [maxSlots, slotSize] at hroom
  by_cases h : HasRoom ps (datas.foldl (appendRecord ps) []) data.length
  · rw [if_pos h] at hcall
    rw [appendRecord, if_pos h] at H'
    rw [if_pos (by exact_mod_cast hroom.mp h)]
    exact ⟨hcall, pageGet_eq H'⟩
  · rw [if_neg h] at hcall
    rw [if_neg (by exact_mod_cast fun hg => h (hroom.mpr hg))]
    exact hcall

/-- Two records on the smallest page. -/
theorem pageInsert_appends_two : ∃ page recs,
    page = insertAll (pageInit (fun _ => 0) .leaf 0 512) [[1, 2], [3]] ∧
    recs = [[1, 2], [3]].foldl (appendRecord 512) [] ∧
    (∀ i, pageGet page i 512 = recs[i]?) ∧ Apart 512 page recs.length ∧
    ∀ data : Bytes, data ≠ [] →
      if recs.length < 128 ∧ (data.length : Int) + 4 ≤ freeGap page then
        (pageInsertCall page data).1 = recs.length ∧
          (∀ i, pageGet (pageInsertCall page data).2 i 512 = (recs ++ [data])[i]?)
      else pageInsertCall page data = (-1, page) :=
  pageInsert_appends (by decide) (by decide) (fun _ => 0) .leaf 0 (by decide)

/-! ## Node pages -/

/-- The loop over the records of a node inserts a part of them: all, if the rest has room. -/
theorem insertRecords_take (H : Holds ps buf recs) (hne : ∀ data ∈ datas, data ≠ []) :
    ∃ k buf', k ≤ datas.length ∧ insertRecords buf datas = (buf', decide (k = datas.length)) ∧
      Holds ps buf' (recs ++ datas.take k) ∧
      (∀ o, o + 4 ≤ pageHdrOffCount → readInt32 buf' o = readInt32 buf o) ∧
      (RecordsFit ps (recs ++ datas) → recs.length + datas.length ≤ maxSlots →
        k = datas.length) := by
  induction datas generalizing buf recs with
  | nil => exact ⟨0, buf, le_rfl, rfl, by simpa using H, fun _ _ => rfl, fun _ _ => rfl⟩
  | cons data datas ih =>
    rw [insertRecords]
    by_cases hroom : HasRoom ps recs data.length
    · obtain ⟨buf₁, he, H₁, hw₁⟩ := pageInsert_some H (hne data (List.mem_cons_self ..)) hroom
      obtain ⟨k, buf', hk, hi, H', hw, hfits⟩ := ih H₁ fun d hd => hne d (List.mem_cons_of_mem _ hd)
      rw [List.append_assoc, List.singleton_append] at H' hfits
      refine ⟨k + 1, buf', Nat.succ_le_succ hk, ?_, H', fun o ho => (hw o ho).trans (hw₁ o ho),
        fun hf hs => ?_⟩
      · rw [he]
        simp only [hi, List.length_cons, Nat.add_right_cancel_iff]
      · rw [List.length_cons] at hs ⊢
        rw [hfits hf (by rw [List.length_append, List.length_singleton]; omega)]
    · refine ⟨0, buf, Nat.zero_le _, ?_, by simpa using H, fun _ _ => rfl, fun hf hs => ?_⟩
      · rw [pageInsert_none H hroom]
        rfl
      · exfalso
        apply hroom
        have hone := hf.sublist (show (recs ++ [data]).Sublist (recs ++ data :: datas) from
          (List.Sublist.refl recs).append (List.singleton_sublist.mpr (List.mem_cons_self ..)))
        rw [List.length_cons] at hs
        rw [RecordsFit] at hone
        simp only [List.length_append, List.length_singleton, usedBytes_append, usedBytes_cons,
          usedBytes_nil] at hone
        exact ⟨by omega, by omega⟩

/-- A node as it stands in memory: the shape of a leaf or an internal node with at most three keys,
with the lengths and page ids that the code admits. -/
structure NodeInMemory (node : BtreeNode) : Prop where
  shape : node.kind = .leaf ∧ node.children = [] ∨
    node.kind = .internal ∧ node.children.length = node.entries.length + 1
  level : Fits32 node.pageLevel
  count : node.entries.length ≤ 3
  key : ∀ e ∈ node.entries, 1 ≤ e.1.length ∧ e.1.length ≤ 256
  value : node.kind = .leaf → ∀ e ∈ node.entries, e.2.length ≤ 64
  ids : ∀ id ∈ node.nextPage :: node.prevPage :: node.children,
    -1 ≤ id ∧ id ≤ 2147483647 - pageIdBias

/-- The fields that a page keeps of a node; an internal node has no values. -/
structure SameNode (a b : BtreeNode) : Prop where
  kind : a.kind = b.kind
  count : a.entryCount = b.entryCount
  keys : a.keys = b.keys
  values : b.kind = .leaf → a.entries = b.entries
  nextPage : a.nextPage = b.nextPage
  prevPage : a.prevPage = b.prevPage
  children : a.children = b.children

/-- The node that a page holds of a node in memory. -/
def BtreeNode.stored (node : BtreeNode) : BtreeNode :=
  if node.kind = .internal then { node with entries := node.entries.map fun e => (e.1, []) }
  else node

theorem stored_of_leaf {node : BtreeNode} (h : node.kind = .leaf) : node.stored = node := by
  rw [BtreeNode.stored, if_neg (by rw [h]; decide)]

theorem stored_of_internal {node : BtreeNode} (h : node.kind = .internal) :
    node.stored = { node with entries := node.entries.map fun e => (e.1, []) } := if_pos h

namespace NodeInMemory

variable {node : BtreeNode}

theorem sameNode_stored (h : NodeInMemory node) : SameNode node.stored node := by
  rcases h.shape with ⟨hk, -⟩ | ⟨hk, -⟩
  · rw [stored_of_leaf hk]
    exact ⟨rfl, rfl, rfl, fun _ => rfl, rfl, rfl, rfl⟩
  · rw [stored_of_internal hk]
    refine ⟨rfl, ?_, ?_, fun hl => ?_, rfl, rfl, rfl⟩
    · simp only [BtreeNode.entryCount, List.length_map]
    · simp only [BtreeNode.keys, List.map_map]
      rfl
    · rw [hk] at hl
      cases hl

/-- The records of the node do not depend on the values of an internal node. -/
theorem nodeRecords_stored (h : NodeInMemory node) : nodeRecords node.stored = nodeRecords node := by
  rcases h.shape with ⟨hk, -⟩ | ⟨hk, -⟩
  · rw [stored_of_leaf hk]
  · have hentry : ∀ e : Bytes × Bytes, encodeEntry .internal (e.1, []) = encodeEntry .internal e :=
      fun _ => rfl
    have hmeta : encodeNodeMeta { node with entries := node.entries.map fun e => (e.1, []) } =
        encodeNodeMeta node := by rw [encodeNodeMeta, encodeNodeMeta]
    rw [stored_of_internal hk, nodeRecords, nodeRecords, hmeta]
    simp only [List.map_map, hk, Function.comp_def, hentry]

theorem nodeFits (h : NodeInMemory node) (hkeys : ∀ e ∈ node.entries, e.1.length ≤ 255) :
    NodeFits 64 node.stored := by
  have hid {id : Int} (hid : id ∈ node.nextPage :: node.prevPage :: node.children) :
      Encodable id := by
    have := h.ids id hid
    simp only [Encodable, pageIdBias] at this ⊢
    omega
  have hnext := hid (List.mem_cons_self ..)
  have hprev := hid (List.mem_cons_of_mem _ (List.mem_cons_self ..))
  have hchild : ∀ c ∈ node.children, Encodable c := fun c hc =>
    hid (List.mem_cons_of_mem _ (List.mem_cons_of_mem _ hc))
  rcases h.shape with ⟨hk, hc⟩ | ⟨hk, hc⟩
  · rw [stored_of_leaf hk]
    exact ⟨.inl ⟨hk, hc⟩, h.level, h.count, fun e he => ⟨hkeys e he, h.value hk e he⟩, hnext, hprev,
      hchild⟩
  · rw [stored_of_internal hk]
    refine ⟨.inr ⟨hk, ?_, ?_⟩, h.level, ?_, ?_, hnext, hprev, hchild⟩
    · rw [List.length_map]
      exact hc
    · intro e he
      obtain ⟨x, -, rfl⟩ := List.mem_map.mp he
      rfl
    · rw [List.length_map]
      exact h.count
    · intro e he
      obtain ⟨x, hx, rfl⟩ := List.mem_map.mp he
      exact ⟨hkeys x hx, Nat.zero_le _⟩

theorem children_length (h : NodeInMemory node) : node.children.length ≤ 4 := by
  have hc := h.count
  rcases h.shape with ⟨-, h⟩ | ⟨-, h⟩
  · rw [h]
    exact Nat.zero_le _
  · omega

theorem length_meta_le (h : NodeInMemory node) : (encodeNodeMeta node).length ≤ 31 := by
  have hc := h.children_length
  have h1 := length_encodeCborUint_le (node.nextPage + pageIdBias)
  have h2 := length_encodeCborUint_le (node.prevPage + pageIdBias)
  have h3 := length_flatMap_encodeCborUint_le node.children
  rw [encodeNodeMeta]
  have hlen : (if node.kind = .internal then node.children else []).length ≤ node.children.length := by
    split
    · exact le_rfl
    · exact Nat.zero_le _
  have h4 : ((if node.kind = .internal then node.children else []).flatMap fun c =>
      encodeCborUint (c + pageIdBias)).length ≤ 20 := by
    have := length_flatMap_encodeCborUint_le (if node.kind = .internal then node.children else [])
    omega
  rw [if_pos (by omega)]
  simp only [List.length_append, List.length_cons, List.length_nil]
  omega

end NodeInMemory

/-- A decoded key has a length of one byte. -/
theorem loadEntry_key_length {j : Nat} {e : Bytes × Bytes} (h : loadEntry buf ps j = some e) :
    e.1.length ≤ 255 := by
  obtain ⟨recData, -, h⟩ := Option.bind_eq_some_iff.mp h
  simp only at h
  split at h
  · cases h
  obtain ⟨⟨⟨key, klen⟩, value, vlen⟩, hkv, h⟩ := Option.bind_eq_some_iff.mp h
  cases h
  have hraw (pos : Int) :
      (cborDecodeByteStringRaw recData.toBuffer recData.length pos).2.1.length ≤ 255 := by
    have h1 := @byteVal_lt recData.toBuffer pos
    have h2 := @byteVal_lt recData.toBuffer (pos + 1)
    simp only [cborDecodeByteStringRaw]
    split
    · simp only [length_slice, cborBytesBase] at *
      omega
    split
    · simp only [length_slice]
      omega
    · exact Nat.zero_le _
  rw [decodeKv] at hkv
  split at hkv
  · cases hkv
  simp only at hkv
  split at hkv
  · cases hkv
  split at hkv
  · cases hkv
  split at hkv
  · cases hkv
  obtain ⟨hk, -⟩ := Prod.mk.inj (Option.some.inj hkv)
  obtain ⟨rfl, -⟩ := Prod.mk.inj hk
  exact hraw _

theorem loadPage_entries (buf : PageBuffer) (ps : Nat) : (loadPage buf ps).entries =
    ((List.range' 1 (pageRecordCount buf - 1).toNat).filterMap (loadEntry buf ps)).take
      maxKeysPerNode := rfl

theorem loadPage_key_length {e : Bytes × Bytes} (h : e ∈ (loadPage buf ps).entries) :
    e.1.length ≤ 255 := by
  rw [loadPage_entries] at h
  obtain ⟨j, -, hj⟩ := List.mem_filterMap.mp (List.mem_of_mem_take h)
  exact loadEntry_key_length hj

theorem length_loadPage_entries_le (H : Holds ps buf (data :: recs)) :
    (loadPage buf ps).entries.length ≤ recs.length := by
  rw [loadPage_entries, List.length_take, pageRecordCount, H.count]
  have hle := List.length_filterMap_le (loadEntry buf ps)
    (List.range' 1 (((data :: recs).length : Int) - 1).toNat)
  rw [List.length_range', List.length_cons] at hle
  rw [List.length_cons]
  omega

/-- What `garry_store_node` leaves on the page: the metadata and the first of the entries, all of
them if they fit. -/
theorem NodeInMemory.storeNode {pool : Pool} {node : BtreeNode} (h : NodeInMemory node)
    (hs : pool.Serves) (hp : 0 ≤ pid) (hmin : 512 ≤ pool.pageSize) (hmax : pool.pageSize ≤ 65536) :
    ∃ k buf, loadNode (storeNode pool pid node) pid = loadPage buf pool.pageSize ∧
      k ≤ node.entries.length ∧
      Holds pool.pageSize buf
        (encodeNodeMeta node :: (node.entries.map (encodeEntry node.kind)).take k) ∧
      readInt32 buf pageHdrOffType = node.kind.code ∧
      readInt32 buf pageHdrOffLevel = node.pageLevel ∧
      (RecordsFit pool.pageSize (nodeRecords node) → k = node.entries.length) := by
  have hcount := h.count
  have hmeta := h.length_meta_le
  have hnode : node.clampCount = node := by
    rw [BtreeNode.clampCount, List.take_of_length_le h.count,
      List.take_of_length_le h.children_length]
  obtain ⟨ht, hl, -⟩ := pageInit_word (pool.pages pid) node.kind node.pageLevel pool.pageSize
  have H0 := pageInit_holds (pool.pages pid) node.kind node.pageLevel
    (show pageHeaderSize ≤ pool.pageSize by simp only [pageHeaderSize]; omega) hmax
  have hroom : HasRoom pool.pageSize [] (encodeNodeMeta node).length := by
    refine ⟨by decide, ?_⟩
    simp only [pageHeaderSize, slotSize, List.length_nil, usedBytes_nil]
    omega
  obtain ⟨buf₁, h1, H1, hw1⟩ := pageInsert_some H0 (encodeNodeMeta_ne_nil node) hroom
  have hne : ∀ d ∈ node.entries.map (encodeEntry node.kind), d ≠ [] := by
    intro d hd
    obtain ⟨e, -, rfl⟩ := List.mem_map.mp hd
    exact encodeEntry_ne_nil
  obtain ⟨k, buf₂, hk, h2, H2, hw2, hfits⟩ := insertRecords_take H1 hne
  rw [List.length_map] at hk h2 hfits
  have hload {pool' : Pool} (hpages : pool'.pages pid = buf₂) (hs' : pool'.Serves)
      (hsize : pool'.pageSize = pool.pageSize) :
      loadNode pool' pid = loadPage buf₂ pool.pageSize := by
    rw [loadNode_of_pages hs' hp, hpages, hsize]
  refine ⟨k, buf₂, ?_, hk, H2, ?_, ?_, fun hf => hfits hf ?_⟩
  · rw [Garry.storeNode, Pool.pinPage_eq hs hp]
    simp only [hnode, h1, h2]
    split
    · next he =>
      obtain ⟨rfl, -⟩ := Prod.mk.inj he
      exact hload Pool.setPage_pages_self ⟨hs.pin, hs.alloc⟩ rfl
    · next he =>
      obtain ⟨rfl, -⟩ := Prod.mk.inj he
      exact hload Pool.setPage_pages_self ⟨hs.pin, hs.alloc⟩ rfl
  · rw [hw2 _ (by decide), hw1 _ (by decide), ht]
  · rw [hw2 _ (by decide), hw1 _ (by decide), hl h.level]
  · simp only [List.nil_append, List.length_singleton, maxSlots]
    omega

/-- Node serialisation is lossless if and only if every key has at most 255 bytes and all records of
the node fit the page. -/
theorem loadNode_storeNode {pool : Pool} {node : BtreeNode} (hs : pool.Serves) (hp : 0 ≤ pid)
    (hmin : 512 ≤ pool.pageSize) (hmax : pool.pageSize ≤ 65536) (h : NodeInMemory node) :
    SameNode (loadNode (storeNode pool pid node) pid) node ↔
      (∀ e ∈ node.entries, e.1.length ≤ 255) ∧ RecordsFit pool.pageSize (nodeRecords node) := by
  obtain ⟨k, buf, hload, hk, H, ht, hl, hfits⟩ := h.storeNode hs hp hmin hmax
  rw [hload]
  constructor
  · intro hsame
    refine ⟨fun e he => ?_, ?_⟩
    · have hmem : e.1 ∈ (loadPage buf pool.pageSize).keys := by
        rw [hsame.keys]
        exact List.mem_map_of_mem he
      obtain ⟨e', he', heq⟩ := List.mem_map.mp hmem
      rw [← heq]
      exact loadPage_key_length he'
    · have hle := length_loadPage_entries_le H
      have hcount : (loadPage buf pool.pageSize).entries.length = node.entries.length := hsame.count
      rw [List.length_take, List.length_map] at hle
      obtain rfl : k = node.entries.length := by omega
      have hfull : (node.entries.map (encodeEntry node.kind)).take node.entries.length =
          node.entries.map (encodeEntry node.kind) :=
        List.take_of_length_le (List.length_map ..).le
      rw [hfull] at H
      exact H.fits
  · rintro ⟨hkeys, hf⟩
    obtain rfl := hfits hf
    have hfull : (node.entries.map (encodeEntry node.kind)).take node.entries.length =
        node.entries.map (encodeEntry node.kind) :=
      List.take_of_length_le (List.length_map ..).le
    rw [hfull] at H
    have H' : Holds pool.pageSize buf (nodeRecords node.stored) := by
      rw [h.nodeRecords_stored]
      exact H
    have hst := h.sameNode_stored
    have hlevel : node.stored.pageLevel = node.pageLevel := by
      rw [BtreeNode.stored]
      split <;> rfl
    rw [loadPage_of_holds H' (h.nodeFits hkeys) (by decide) (by rw [ht, hst.kind])
      (by rw [hl, hlevel])]
    exact hst

/-- A pool with pages of a size. -/
def zeroPool (pageSize : Nat) : Pool where
  pageSize := pageSize
  pages _ _ := 0
  dirty := []
  file := .empty
  nextPage := 3
  freeListHead := -1
  env := ⟨fun _ => false, fun _ => false, fun _ => true⟩

/-- A leaf of one key and value. -/
theorem loadNode_storeNode_single :
    SameNode (loadNode (storeNode (zeroPool 512) 2 { emptyNode with entries := [([1], [2])] }) 2)
      { emptyNode with entries := [([1], [2])] } := by
  refine (loadNode_storeNode ⟨fun _ => rfl, fun _ => rfl⟩ (by decide) (by decide) (by decide)
    ⟨.inl ⟨rfl, rfl⟩, by decide, by decide, by decide, fun _ => by decide, by decide⟩).mpr ?_
  exact ⟨by decide, by decide⟩

/-- A leaf with one key of 256 bytes. -/
def longKeyLeaf : BtreeNode := { emptyNode with entries := [(List.replicate 256 7, [1])] }

/-- A leaf with three keys of 160 bytes. -/
def threeKeyLeaf : BtreeNode :=
  { emptyNode with
    entries := [1, 2, 3].map fun i => (i :: List.replicate 159 7, [1]) }

/-- The key of 256 bytes comes back empty, and one of the three keys is lost on a page of 512 bytes. -/
theorem loadNode_storeNode_loses :
    (NodeInMemory longKeyLeaf ∧
      ¬ SameNode (loadNode (storeNode (zeroPool 4096) 2 longKeyLeaf) 2) longKeyLeaf) ∧
    NodeInMemory threeKeyLeaf ∧
      ¬ SameNode (loadNode (storeNode (zeroPool 512) 2 threeKeyLeaf) 2) threeKeyLeaf := by
  have hlong : ((loadNode (storeNode (zeroPool 4096) 2 longKeyLeaf) 2).keys.map List.length) ≠
      [256] := by
    decide +kernel
  have hthree : (loadNode (storeNode (zeroPool 512) 2 threeKeyLeaf) 2).entryCount ≠ 3 := by
    decide +kernel
  refine ⟨⟨?_, fun h => hlong ?_⟩, ?_, fun h => hthree h.count⟩
  · exact ⟨.inl ⟨rfl, rfl⟩, by decide, by decide, by decide +kernel, fun _ => by decide, by decide⟩
  · rw [h.keys]
    decide +kernel
  · exact ⟨.inl ⟨rfl, rfl⟩, by decide, by decide, by decide +kernel, fun _ => by decide, by decide⟩

end Garry
