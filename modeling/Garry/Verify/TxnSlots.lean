import Garry.Model.TxnSlots
import Garry.Verify.EngineHistory

/-!
# The transaction arrays hold the table of transactions

The arrays are shifted together, so that an id stays with its state and its pages; they hold the list
of entries that the engine has as its table. What holds of the table after any calls follows from what
one call does to the list.
-/

namespace Garry

open ByteStore SlotArray

/-! ## Entries of the table -/

theorem updateTxn_of_none {f : TxnInfo → TxnInfo} {txns : List TxnInfo}
    (h : txns.findIdx? (fun info => info.txid = txn) = none) : updateTxn f txn txns = txns := by
  induction txns with
  | nil => rfl
  | cons info txns ih =>
    rw [List.findIdx?_eq_none_iff] at h
    have hinfo : info.txid ≠ txn := by simpa using h info List.mem_cons_self
    rw [updateTxn, if_neg hinfo, ih]
    rw [List.findIdx?_eq_none_iff]
    exact fun x hx => h x (List.mem_cons_of_mem info hx)

theorem updateTxn_of_some {f : TxnInfo → TxnInfo} {txns : List TxnInfo} {info : TxnInfo}
    (h : txns.findIdx? (fun info => info.txid = txn) = some i) (hi : txns[i]? = some info) :
    updateTxn f txn txns = txns.set i (f info) := by
  induction txns generalizing i with
  | nil => cases h
  | cons x txns ih =>
    rw [List.findIdx?_cons] at h
    rw [updateTxn]
    by_cases hx : x.txid = txn
    · rw [decide_eq_true hx] at h
      cases h
      cases hi
      exact if_pos hx
    · rw [decide_eq_false hx] at h
      obtain ⟨j, hj, rfl⟩ := Option.map_eq_some_iff.mp (by simpa using h)
      rw [if_neg hx, List.set_cons_succ, ih hj (by simpa using hi)]

theorem countP_updateTxn_le {p : TxnInfo → Bool} {f : TxnInfo → TxnInfo}
    (hf : ∀ info, p (f info) = true → p info = true) (txns : List TxnInfo) :
    (updateTxn f txn txns).countP p ≤ txns.countP p := by
  induction txns with
  | nil => exact le_rfl
  | cons info txns ih =>
    rw [updateTxn]
    split
    · rw [List.countP_cons, List.countP_cons]
      apply Nat.add_le_add_left
      split
      · next hp => rw [if_pos (hf info hp)]
      · exact Nat.zero_le _
    · rw [List.countP_cons, List.countP_cons]
      exact Nat.add_le_add_right ih _

/-- The entries of a table: the ids are in the order of the begins, and the limits hold. -/
structure TableInv (maxTxns next : Int) (txns : List TxnInfo) : Prop where
  sorted : (txns.map TxnInfo.txid).Pairwise (· < ·)
  below : ∀ info ∈ txns, info.txid < next
  length : (txns.length : Int) ≤ maxTxns * 64
  running : ((txns.countP fun info => info.state ≠ .rolledBack : Nat) : Int) ≤ maxTxns
  pages : ∀ info ∈ txns, info.modifiedPages.length ≤ maxModifiedPages

namespace TableInv

variable {maxTxns next : Int} {txns : List TxnInfo}

theorem nil (h : 0 ≤ maxTxns) : TableInv maxTxns next [] where
  sorted := .nil
  below := by simp
  length := by simpa using h
  running := h
  pages := by simp

/-- A transaction begins. -/
theorem push (h : TableInv maxTxns next txns)
    (hrun : ((txns.countP fun info => info.state ≠ .rolledBack : Nat) : Int) < maxTxns)
    (hlen : (txns.length : Int) < maxTxns * 64) :
    TableInv maxTxns (next + 1) (txns ++ [⟨next, .active, []⟩]) where
  sorted := by
    rw [List.map_append, List.pairwise_append]
    refine ⟨h.sorted, List.pairwise_singleton _ _, ?_⟩
    intro id hid new hnew
    obtain ⟨info, hinfo, rfl⟩ := List.mem_map.mp hid
    obtain rfl := List.mem_singleton.mp hnew
    exact h.below info hinfo
  below := by
    intro info hinfo
    rcases List.mem_append.mp hinfo with hinfo | hinfo
    · exact (h.below info hinfo).trans (lt_add_one next)
    · obtain rfl := List.mem_singleton.mp hinfo
      exact lt_add_one next
  length := by
    rw [List.length_append, Nat.cast_add]
    exact hlen
  running := by
    rw [List.countP_append, Nat.cast_add]
    exact hrun
  pages := by
    intro info hinfo
    rcases List.mem_append.mp hinfo with hinfo | hinfo
    · exact h.pages info hinfo
    · obtain rfl := List.mem_singleton.mp hinfo
      exact Nat.zero_le _

/-- An entry is removed. -/
theorem erase (h : TableInv maxTxns next txns) (p : TxnInfo → Bool) :
    TableInv maxTxns next (txns.eraseP p) where
  sorted := h.sorted.sublist (List.eraseP_sublist.map _)
  below info hinfo := h.below info (List.eraseP_sublist.subset hinfo)
  length := (Int.ofNat_le.mpr List.eraseP_sublist.length_le).trans h.length
  running := (Int.ofNat_le.mpr List.eraseP_sublist.countP_le).trans h.running
  pages info hinfo := h.pages info (List.eraseP_sublist.subset hinfo)

/-- An entry is changed. -/
theorem update (h : TableInv maxTxns next txns) {f : TxnInfo → TxnInfo}
    (hid : ∀ info, (f info).txid = info.txid)
    (hstate : ∀ info, (f info).state ≠ .rolledBack → info.state ≠ .rolledBack)
    (hpages : ∀ info, info.modifiedPages.length ≤ maxModifiedPages →
      (f info).modifiedPages.length ≤ maxModifiedPages) :
    TableInv maxTxns next (updateTxn f txn txns) where
  sorted := by
    rw [map_updateTxn hid]
    exact h.sorted
  below := by
    intro info hinfo
    obtain ⟨info', hinfo', rfl | rfl⟩ := mem_updateTxn hinfo
    · exact h.below info hinfo'
    · rw [hid]
      exact h.below info' hinfo'
  length := by
    have hids : (updateTxn f txn txns).map TxnInfo.txid = txns.map TxnInfo.txid :=
      map_updateTxn hid txns
    have hlen := congrArg List.length hids
    rw [List.length_map, List.length_map] at hlen
    rw [hlen]
    exact h.length
  running := by
    refine (Int.ofNat_le.mpr (countP_updateTxn_le ?_ txns)).trans h.running
    intro info hs
    rw [decide_eq_true_iff] at hs ⊢
    exact hstate info hs
  pages := by
    intro info hinfo
    obtain ⟨info', hinfo', rfl | rfl⟩ := mem_updateTxn hinfo
    · exact h.pages info hinfo'
    · exact hpages info' (h.pages info' hinfo')

theorem rollback (h : TableInv maxTxns next txns) (txn : Int) :
    TableInv maxTxns next
      (updateTxn (fun info => { info with state := .rolledBack, modifiedPages := [] }) txn txns) := by
  apply h.update
  · intro info
    rfl
  · intro info hs
    exact absurd rfl hs
  · intro info _
    exact Nat.zero_le _

/-- A chain page is recorded, as long as there is room. -/
theorem addModified (h : TableInv maxTxns next txns) (txn cid : Int) :
    TableInv maxTxns next (updateTxn (fun info => { info with
      modifiedPages :=
        if info.modifiedPages.length < maxModifiedPages then info.modifiedPages ++ [cid]
        else info.modifiedPages }) txn txns) := by
  apply h.update
  · intro info
    rfl
  · intro info hs
    exact hs
  · intro info hle
    simp only
    split
    · next hlt =>
      rw [List.length_append]
      exact hlt
    · exact hle

end TableInv

namespace TxnSlots

variable {slots slots' : TxnSlots} {txn : Int}

/-- The entries in use. -/
def infos (slots : TxnSlots) : List TxnInfo := list slots.txnStates slots.activeCount

/-- The two arrays have the same ids. -/
def Aligned (slots : TxnSlots) : Prop :=
  list slots.activeTxns slots.activeCount = slots.infos.map TxnInfo.txid

@[simp] theorem length_infos : slots.infos.length = slots.activeCount := length_list

theorem Aligned.txid (h : slots.Aligned) (hi : i < slots.activeCount) :
    (slots.txnStates i).txid = slots.activeTxns i := by
  have hat := congrArg (fun l => l[i]?) h
  simp only [infos, List.getElem?_map, getElem?_list hi, Option.map_some, Option.some_inj] at hat
  exact hat.symm

theorem Aligned.findTxnSlot (h : slots.Aligned) (txn : Int) :
    slots.findTxnSlot txn = slots.infos.findIdx? fun info => info.txid = txn := by
  rw [TxnSlots.findTxnSlot, find?_range (a := slots.activeTxns) fun id => decide (id = txn), h,
    List.findIdx?_map]
  rfl

theorem findTxnSlot_lt (h : slots.findTxnSlot txn = some i) : i < slots.activeCount :=
  List.mem_range.mp (List.mem_of_find?_eq_some h)

theorem infos_setState (slots : TxnSlots) (i : Nat) (info : TxnInfo) :
    (slots.setState i info).infos = slots.infos.set i info := list_set

theorem Aligned.setState (h : slots.Aligned) (hi : i < slots.activeCount) {info : TxnInfo}
    (hid : info.txid = (slots.txnStates i).txid) : (slots.setState i info).Aligned := by
  have hat : (slots.infos.map TxnInfo.txid)[i]? = some info.txid := by
    rw [List.getElem?_map, infos, getElem?_list hi, hid]
    rfl
  obtain ⟨hlt, hget⟩ := List.getElem?_eq_some_iff.mp hat
  rw [Aligned, infos_setState, List.map_set, ← hget, List.set_getElem_self]
  exact h

/-- A new entry at the count. -/
theorem Aligned.push (h : slots.Aligned) (info : TxnInfo)
    (hs : slots' = ⟨Function.update slots.activeTxns slots.activeCount info.txid,
      Function.update slots.txnStates slots.activeCount info, slots.activeCount + 1⟩) :
    slots'.Aligned ∧ slots'.infos = slots.infos ++ [info] := by
  subst hs
  have hinfos : list (Function.update slots.txnStates slots.activeCount info)
      (slots.activeCount + 1) = slots.infos ++ [info] := list_push
  refine ⟨?_, hinfos⟩
  rw [Aligned, infos, hinfos, list_push, h, List.map_append, List.map_singleton]

/-- The change of the entry of a transaction. -/
theorem Aligned.update (h : slots.Aligned) {f : TxnInfo → TxnInfo}
    (hf : ∀ info, (f info).txid = info.txid)
    (hnone : slots.findTxnSlot txn = none → slots' = slots)
    (hsome : ∀ i, slots.findTxnSlot txn = some i →
      slots' = slots.setState i (f (slots.txnStates i))) :
    slots'.Aligned ∧ slots'.infos = updateTxn f txn slots.infos := by
  cases hfind : slots.findTxnSlot txn with
  | none =>
    rw [hnone hfind]
    rw [h.findTxnSlot] at hfind
    exact ⟨h, (updateTxn_of_none hfind).symm⟩
  | some i =>
    have hi := findTxnSlot_lt hfind
    rw [hsome i hfind]
    rw [h.findTxnSlot] at hfind
    refine ⟨h.setState hi (hf _), ?_⟩
    rw [infos_setState, updateTxn_of_some hfind (getElem?_list hi)]

/-- `remove_active_txn` shifts both arrays. -/
theorem Aligned.removeActiveTxn (h : slots.Aligned) (hfind : slots.findTxnSlot txn = some i) :
    (slots.removeActiveTxn txn).Aligned ∧
      (slots.removeActiveTxn txn).infos = slots.infos.eraseIdx i := by
  have hi := findTxnSlot_lt hfind
  have heq : slots.removeActiveTxn txn = ⟨shiftDown slots.activeTxns i (slots.activeCount - 1 - i),
      shiftDown slots.txnStates i (slots.activeCount - 1 - i), slots.activeCount - 1⟩ := by
    rw [TxnSlots.findTxnSlot] at hfind
    rw [TxnSlots.removeActiveTxn, hfind]
  have hinfos : list (shiftDown slots.txnStates i (slots.activeCount - 1 - i))
      (slots.activeCount - 1) = slots.infos.eraseIdx i := list_shiftDown hi
  rw [heq]
  refine ⟨?_, hinfos⟩
  rw [Aligned, infos, hinfos, list_shiftDown hi, h, List.eraseIdx_map]

theorem Aligned.addModified (h : slots.Aligned) (txn cid : Int) :
    (slots.addModified txn cid).Aligned ∧ (slots.addModified txn cid).infos =
      updateTxn (fun info => { info with
        modifiedPages :=
          if info.modifiedPages.length < maxModifiedPages then info.modifiedPages ++ [cid]
          else info.modifiedPages }) txn slots.infos := by
  apply h.update
  · intro info
    rfl
  · intro hnone
    rw [TxnSlots.addModified, hnone]
  · intro i hsome
    rw [TxnSlots.addModified, hsome]
    simp only
    split
    · rfl
    · -- a store of what is there already
      rw [TxnSlots.setState, Function.update_eq_self]

end TxnSlots

namespace SlotEngine

variable {eng eng' : SlotEngine} {e : Engine} {txn : Int}

/-! ## The calls -/

theorem countP_infos (slots : TxnSlots) : ((List.range slots.activeCount).countP fun i =>
    (slots.txnStates i).state ≠ .rolledBack) =
      slots.infos.countP fun info => info.state ≠ .rolledBack := by
  rw [TxnSlots.infos, list, List.countP_map]
  rfl

/-- `garry_mvcc_begin` refuses, or its limits are not reached and it appends an entry. -/
theorem mvccBegin_cases (eng : SlotEngine) :
    eng.mvccBegin = (-1, eng) ∨
      ((eng.slots.infos.countP fun info => info.state ≠ .rolledBack : Nat) : Int) < eng.maxTxns ∧
        (eng.slots.activeCount : Int) < eng.maxTxns * 64 ∧
        eng.mvccBegin = (eng.nextTxid, { eng with
          nextTxid := eng.nextTxid + 1
          slots := ⟨Function.update eng.slots.activeTxns eng.slots.activeCount eng.nextTxid,
            Function.update eng.slots.txnStates eng.slots.activeCount ⟨eng.nextTxid, .active, []⟩,
            eng.slots.activeCount + 1⟩ }) := by
  rw [mvccBegin, countP_infos]
  simp only
  split
  · exact .inl rfl
  · next hlt =>
    split
    · exact .inl rfl
    · next hlt' => exact .inr ⟨not_le.mp hlt, not_le.mp hlt', rfl⟩

theorem mvccCommit_slots (h : eng.slots.Aligned) (txn : Int) :
    (eng.mvccCommit txn).slots.Aligned ∧ (eng.mvccCommit txn).slots.infos =
      eng.slots.infos.eraseP fun info => info.txid = txn := by
  rw [mvccCommit, List.eraseP_eq_eraseIdx, ← h.findTxnSlot]
  cases hfind : eng.slots.findTxnSlot txn with
  | none => exact ⟨h, rfl⟩
  | some i =>
    have hset : (eng.slots.setState i
        { eng.slots.txnStates i with state := .committed, modifiedPages := [] }).Aligned :=
      h.setState (TxnSlots.findTxnSlot_lt hfind) rfl
    have hslot : (eng.slots.setState i
        { eng.slots.txnStates i with state := .committed, modifiedPages := [] }).findTxnSlot txn =
        some i := hfind
    obtain ⟨hal, hinfos⟩ := hset.removeActiveTxn hslot
    refine ⟨hal, hinfos.trans ?_⟩
    rw [TxnSlots.infos_setState, List.eraseIdx_set_eq]

theorem mvccRollback_slots (h : eng.slots.Aligned) (txn : Int) :
    (eng.mvccRollback txn).slots.Aligned ∧ (eng.mvccRollback txn).slots.infos =
      updateTxn (fun info => { info with state := .rolledBack, modifiedPages := [] }) txn
        eng.slots.infos := by
  apply h.update
  · intro info
    rfl
  · intro hnone
    rw [mvccRollback, hnone]
  · intro i hsome
    rw [mvccRollback, hsome]

/-- A version is written: the chain page is recorded, or the table is as before. -/
theorem mvccSet_slots (eng : SlotEngine) (txn cid : Int) (value : Bytes) :
    ∃ pool slots, (eng.mvccSet txn cid value).2 = { eng with pool := pool, slots := slots } ∧
      (slots = eng.slots ∨ slots = eng.slots.addModified txn cid) := by
  rw [mvccSet]
  split
  · exact ⟨_, _, rfl, .inl rfl⟩
  simp only
  split
  · exact ⟨_, _, rfl, .inl rfl⟩
  · exact ⟨_, _, rfl, .inr rfl⟩

theorem mvccDelete_slots (eng : SlotEngine) (txn cid : Int) :
    ∃ pool slots, (eng.mvccDelete txn cid).2 = { eng with pool := pool, slots := slots } ∧
      (slots = eng.slots ∨ slots = eng.slots.addModified txn cid) := by
  rw [mvccDelete]
  split
  · exact ⟨_, _, rfl, .inl rfl⟩
  split
  · exact ⟨_, _, rfl, .inl rfl⟩
  · exact ⟨_, _, rfl, .inr rfl⟩

/-! ## The table of the engine -/

/-- The arrays hold the table of an engine. -/
structure Holds (eng : SlotEngine) (e : Engine) : Prop where
  pool : e.pool = eng.pool
  pageSize : e.pageSize = eng.pageSize
  maxTxns : e.maxTxns = eng.maxTxns
  nextTxid : e.nextTxid = eng.nextTxid
  lockMgr : e.lockMgr = eng.lockMgr
  aligned : eng.slots.Aligned
  txns : e.txns = eng.slots.infos

theorem Holds.mvccBegin (h : eng.Holds e) :
    e.mvccBegin.1 = eng.mvccBegin.1 ∧ eng.mvccBegin.2.Holds e.mvccBegin.2 := by
  have hcount : e.txns.length = eng.slots.activeCount := by
    rw [h.txns, TxnSlots.length_infos]
  have hleft : e.mvccBegin = if ((eng.slots.infos.countP fun info => info.state ≠ .rolledBack : Nat) :
      Int) ≥ eng.maxTxns then (-1, e)
      else if (eng.slots.activeCount : Int) ≥ eng.maxTxns * 64 then (-1, e)
      else (eng.nextTxid, { e with
        nextTxid := eng.nextTxid + 1
        txns := eng.slots.infos ++ [⟨eng.nextTxid, .active, []⟩] }) := by
    rw [Engine.mvccBegin, hcount, h.txns, h.maxTxns, h.nextTxid]
  rw [hleft, SlotEngine.mvccBegin, countP_infos]
  simp only
  split
  · exact ⟨rfl, h⟩
  split
  · exact ⟨rfl, h⟩
  · obtain ⟨hal, hinfos⟩ := h.aligned.push ⟨eng.nextTxid, .active, []⟩ rfl
    exact ⟨rfl, h.pool, h.pageSize, h.maxTxns, rfl, h.lockMgr, hal, hinfos.symm⟩

theorem Holds.findTxn (h : eng.Holds e) (txn : Int) :
    e.findTxn txn = (eng.slots.findTxnSlot txn).map eng.slots.txnStates := by
  rw [Engine.findTxn, h.txns, List.find?_eq_bind_findIdx?_getElem?, ← h.aligned.findTxnSlot]
  cases hfind : eng.slots.findTxnSlot txn with
  | none => rfl
  | some i => exact getElem?_list (TxnSlots.findTxnSlot_lt hfind)

theorem Holds.mvccCommit (h : eng.Holds e) (txn : Int) :
    (eng.mvccCommit txn).Holds (e.mvccCommit txn) := by
  obtain ⟨hal, hinfos⟩ := mvccCommit_slots h.aligned txn
  refine ⟨?_, h.pageSize, h.maxTxns, h.nextTxid, ?_, hal, ?_⟩
  · rw [Engine.mvccCommit, h.findTxn, SlotEngine.mvccCommit, ← h.pool]
    cases eng.slots.findTxnSlot txn with
    | none => rfl
    | some i => rfl
  · rw [Engine.mvccCommit, h.lockMgr]
    rfl
  · rw [hinfos, ← h.txns]
    rfl

theorem Holds.mvccRollback (h : eng.Holds e) (txn : Int) :
    (eng.mvccRollback txn).Holds (e.mvccRollback txn) := by
  obtain ⟨hal, hinfos⟩ := mvccRollback_slots h.aligned txn
  refine ⟨h.pool, h.pageSize, h.maxTxns, h.nextTxid, ?_, hal, ?_⟩
  · rw [Engine.mvccRollback, h.lockMgr]
    rfl
  · rw [hinfos, ← h.txns]
    rfl

/-- A chain page is changed. -/
theorem Holds.changeChain (h : eng.Holds e) (txn cid : Int) (buf : PageBuffer) :
    SlotEngine.Holds { eng with
      pool := (eng.pool.setPage cid buf).markDirty cid
      slots := eng.slots.addModified txn cid } (e.changeChain txn cid buf) := by
  obtain ⟨hal, hinfos⟩ := h.aligned.addModified txn cid
  refine ⟨?_, h.pageSize, h.maxTxns, h.nextTxid, h.lockMgr, hal, ?_⟩
  · rw [Engine.changeChain, h.pool]
  · rw [hinfos, ← h.txns]
    rfl

theorem Holds.withPool (h : eng.Holds e) (pool : Pool) :
    SlotEngine.Holds { eng with pool := pool } { e with pool := pool } :=
  ⟨rfl, h.pageSize, h.maxTxns, h.nextTxid, h.lockMgr, h.aligned, h.txns⟩

theorem Holds.mvccSet (h : eng.Holds e) (txn cid : Int) (value : Bytes) :
    (e.mvccSet txn cid value).1 = (eng.mvccSet txn cid value).1 ∧
      (eng.mvccSet txn cid value).2.Holds (e.mvccSet txn cid value).2 := by
  have hpin : e.pool.pinPage cid = eng.pool.pinPage cid := by rw [h.pool]
  have hcap : chainInlineCapacity e.pageSize = chainInlineCapacity eng.pageSize := by rw [h.pageSize]
  have hwrite : overflowWrite e.pool value = overflowWrite eng.pool value := by rw [h.pool]
  have happ (buf : PageBuffer) : chainPageAppend buf e.pageSize txn value =
      chainPageAppend buf eng.pageSize txn value := by
    rw [h.pageSize]
  rw [Engine.mvccSet, SlotEngine.mvccSet, hpin, hcap, hwrite]
  cases eng.pool.pinPage cid with
  | none => exact ⟨rfl, h⟩
  | some buf =>
    simp only [happ]
    by_cases hlong : value.length > chainInlineCapacity eng.pageSize
    · simp only [if_pos hlong]
      obtain ⟨head, pool⟩ := overflowWrite eng.pool value
      by_cases hhead : head < 0
      · simp only [if_pos hhead]
        exact ⟨trivial, h.withPool pool⟩
      · simp only [if_neg hhead]
        cases chainPageAppendOverflow (pool.pages cid) txn value.length head with
        | none => exact ⟨rfl, h.withPool pool⟩
        | some buf => exact ⟨rfl, (h.withPool pool).changeChain txn cid buf⟩
    · simp only [if_neg hlong]
      cases chainPageAppend buf eng.pageSize txn value with
      | none => exact ⟨rfl, h⟩
      | some buf => exact ⟨rfl, h.changeChain txn cid buf⟩

theorem Holds.mvccDelete (h : eng.Holds e) (txn cid : Int) :
    (e.mvccDelete txn cid).1 = (eng.mvccDelete txn cid).1 ∧
      (eng.mvccDelete txn cid).2.Holds (e.mvccDelete txn cid).2 := by
  have hpin : e.pool.pinPage cid = eng.pool.pinPage cid := by rw [h.pool]
  rw [Engine.mvccDelete, SlotEngine.mvccDelete, hpin]
  cases eng.pool.pinPage cid with
  | none => exact ⟨rfl, h⟩
  | some buf =>
    simp only
    cases chainPageAppendTombstone buf txn with
    | none => exact ⟨rfl, h⟩
    | some buf => exact ⟨rfl, h.changeChain txn cid buf⟩

/-! ## Runs -/

/-- The engine after calls of the functions of transactions, the latest call first, with any ids. Between
the calls the pages may change. -/
inductive TxnCalls (eng₀ : SlotEngine) : List TxnCall → SlotEngine → Prop
  | nil : TxnCalls eng₀ [] eng₀
  | pages {h : List TxnCall} {eng : SlotEngine} {pool : Pool} : TxnCalls eng₀ h eng →
    TxnCalls eng₀ h { eng with pool := pool }
  | begin {h : List TxnCall} {eng eng' : SlotEngine} {txn : Int} : TxnCalls eng₀ h eng →
    eng.nextTxid < 2147483647 → eng.mvccBegin = (txn, eng') → TxnCalls eng₀ (.begin txn :: h) eng'
  | commit {h : List TxnCall} {eng : SlotEngine} {txn : Int} : TxnCalls eng₀ h eng →
    TxnCalls eng₀ (.commit txn :: h) (eng.mvccCommit txn)
  | rollback {h : List TxnCall} {eng : SlotEngine} {txn : Int} : TxnCalls eng₀ h eng →
    TxnCalls eng₀ (.rollback txn :: h) (eng.mvccRollback txn)
  | set {h : List TxnCall} {eng : SlotEngine} {txn cid : Int} {value : Bytes} :
    TxnCalls eng₀ h eng → TxnCalls eng₀ (.set txn cid value :: h) (eng.mvccSet txn cid value).2
  | delete {h : List TxnCall} {eng : SlotEngine} {txn cid : Int} : TxnCalls eng₀ h eng →
    TxnCalls eng₀ (.delete txn cid :: h) (eng.mvccDelete txn cid).2

/-- The same calls of an engine with the table as a list. -/
inductive TableCalls (e₀ : Engine) : List TxnCall → Engine → Prop
  | nil : TableCalls e₀ [] e₀
  | pages {h : List TxnCall} {e : Engine} {pool : Pool} : TableCalls e₀ h e →
    TableCalls e₀ h { e with pool := pool }
  | begin {h : List TxnCall} {e e' : Engine} {txn : Int} : TableCalls e₀ h e →
    e.mvccBegin = (txn, e') → TableCalls e₀ (.begin txn :: h) e'
  | commit {h : List TxnCall} {e : Engine} {txn : Int} : TableCalls e₀ h e →
    TableCalls e₀ (.commit txn :: h) (e.mvccCommit txn)
  | rollback {h : List TxnCall} {e : Engine} {txn : Int} : TableCalls e₀ h e →
    TableCalls e₀ (.rollback txn :: h) (e.mvccRollback txn)
  | set {h : List TxnCall} {e : Engine} {txn cid : Int} {value : Bytes} :
    TableCalls e₀ h e → TableCalls e₀ (.set txn cid value :: h) (e.mvccSet txn cid value).2
  | delete {h : List TxnCall} {e : Engine} {txn cid : Int} : TableCalls e₀ h e →
    TableCalls e₀ (.delete txn cid :: h) (e.mvccDelete txn cid).2

/-- After the same calls the arrays hold the table. -/
theorem TxnCalls.holds {h : List TxnCall} {eng₀ : SlotEngine} {e₀ : Engine}
    (hrun : TxnCalls eng₀ h eng) (h₀ : eng₀.Holds e₀) : ∃ e, TableCalls e₀ h e ∧ eng.Holds e := by
  induction hrun with
  | nil => exact ⟨e₀, .nil, h₀⟩
  | @pages _ _ pool _ ih =>
    obtain ⟨e, he, hh⟩ := ih
    exact ⟨_, he.pages, hh.withPool pool⟩
  | begin _ _ hb ih =>
    obtain ⟨e, he, hh⟩ := ih
    obtain ⟨hid, hh'⟩ := hh.mvccBegin
    rw [hb] at hid hh'
    exact ⟨_, he.begin (Prod.ext hid rfl), hh'⟩
  | @commit _ _ txn _ ih =>
    obtain ⟨e, he, hh⟩ := ih
    exact ⟨_, he.commit, hh.mvccCommit txn⟩
  | @rollback _ _ txn _ ih =>
    obtain ⟨e, he, hh⟩ := ih
    exact ⟨_, he.rollback, hh.mvccRollback txn⟩
  | @set _ _ txn cid value _ ih =>
    obtain ⟨e, he, hh⟩ := ih
    exact ⟨_, he.set, (hh.mvccSet txn cid value).2⟩
  | @delete _ _ txn cid _ ih =>
    obtain ⟨e, he, hh⟩ := ih
    exact ⟨_, he.delete, (hh.mvccDelete txn cid).2⟩

/-- Each transaction that began is in the table, or was committed since. -/
def Accounted (h : List TxnCall) (slots : TxnSlots) : Prop :=
  ∀ h₁ h₂ txn, h = h₂ ++ .begin txn :: h₁ → txn ≠ -1 →
    txn ∈ slots.infos.map TxnInfo.txid ∨ .commit txn ∈ h₂

/-- What holds of the arrays after calls. -/
structure SlotsInv (limit : Int) (h : List TxnCall) (eng : SlotEngine) : Prop where
  maxTxns : eng.maxTxns = limit
  aligned : eng.slots.Aligned
  table : TableInv limit eng.nextTxid eng.slots.infos
  accounted : Accounted h eng.slots

section

variable {h : List TxnCall} {call : TxnCall} {slots slots' : TxnSlots} {limit : Int}

/-- A call other than a begin that keeps the ids, the id of a commit apart. -/
theorem Accounted.cons (ha : Accounted h slots) (hcall : ∀ txn, call ≠ .begin txn)
    (hkeep : ∀ txn ∈ slots.infos.map TxnInfo.txid,
      txn ∈ slots'.infos.map TxnInfo.txid ∨ call = .commit txn) : Accounted (call :: h) slots' := by
  intro h₁ h₂ txn heq hne
  cases h₂ with
  | nil =>
    rw [List.nil_append] at heq
    exact absurd (List.cons.inj heq).1 (hcall txn)
  | cons first h₂ =>
    rw [List.cons_append] at heq
    obtain ⟨rfl, rfl⟩ := List.cons.inj heq
    rcases ha h₁ h₂ txn rfl hne with hin | hcommit
    · rcases hkeep txn hin with hin | rfl
      · exact .inl hin
      · exact .inr List.mem_cons_self
    · exact .inr (List.mem_cons_of_mem _ hcommit)

/-- A begin appends its id, or there is no id. -/
theorem Accounted.begin (ha : Accounted h slots)
    (hkeep : ∀ txn ∈ slots.infos.map TxnInfo.txid, txn ∈ slots'.infos.map TxnInfo.txid)
    (hnew : txn = -1 ∨ txn ∈ slots'.infos.map TxnInfo.txid) : Accounted (.begin txn :: h) slots' := by
  intro h₁ h₂ t heq hne
  cases h₂ with
  | nil =>
    rw [List.nil_append] at heq
    obtain ⟨htxn, -⟩ := List.cons.inj heq
    cases htxn
    exact .inl (hnew.resolve_left hne)
  | cons first h₂ =>
    rw [List.cons_append] at heq
    obtain ⟨rfl, rfl⟩ := List.cons.inj heq
    rcases ha h₁ h₂ t rfl hne with hin | hcommit
    · exact .inl (hkeep t hin)
    · exact .inr (List.mem_cons_of_mem _ hcommit)

theorem SlotsInv.begin (hi : SlotsInv limit h eng) (hb : eng.mvccBegin = (txn, eng')) :
    SlotsInv limit (.begin txn :: h) eng' := by
  rcases eng.mvccBegin_cases with e | ⟨hrun, hlen, e⟩
  · rw [e] at hb
    obtain ⟨rfl, rfl⟩ := Prod.mk.inj hb
    exact ⟨hi.maxTxns, hi.aligned, hi.table, hi.accounted.begin (fun _ hin => hin) (.inl rfl)⟩
  · rw [e] at hb
    obtain ⟨rfl, rfl⟩ := Prod.mk.inj hb
    obtain ⟨hal, hinfos⟩ := hi.aligned.push ⟨eng.nextTxid, .active, []⟩ rfl
    rw [hi.maxTxns] at hrun hlen
    refine ⟨hi.maxTxns, hal, ?_, hi.accounted.begin ?_ (.inr ?_)⟩
    · rw [hinfos]
      exact hi.table.push hrun (by rwa [TxnSlots.length_infos])
    · intro t hin
      rw [hinfos, List.map_append]
      exact List.mem_append_left _ hin
    · rw [hinfos, List.map_append]
      exact List.mem_append_right _ List.mem_cons_self

theorem SlotsInv.commit (hi : SlotsInv limit h eng) (txn : Int) :
    SlotsInv limit (.commit txn :: h) (eng.mvccCommit txn) := by
  obtain ⟨hal, hinfos⟩ := mvccCommit_slots hi.aligned txn
  refine ⟨hi.maxTxns, hal, ?_, hi.accounted.cons ?_ ?_⟩
  · rw [hinfos]
    exact hi.table.erase _
  · intro t heq
    cases heq
  · intro t hin
    rw [hinfos]
    obtain ⟨info, hinfo, rfl⟩ := List.mem_map.mp hin
    by_cases ht : info.txid = txn
    · exact .inr (congrArg TxnCall.commit ht.symm)
    · exact .inl (List.mem_map_of_mem ((List.mem_eraseP_of_neg (by simpa using ht)).mpr hinfo))

/-- A call that changes an entry and keeps its id. -/
theorem SlotsInv.update (hi : SlotsInv limit h eng) (hcall : ∀ txn, call ≠ .begin txn)
    (hmax : eng'.maxTxns = eng.maxTxns) (hnext : eng'.nextTxid = eng.nextTxid)
    (hal : eng'.slots.Aligned)
    (hids : eng'.slots.infos.map TxnInfo.txid = eng.slots.infos.map TxnInfo.txid)
    (htable : TableInv limit eng.nextTxid eng'.slots.infos) :
    SlotsInv limit (call :: h) eng' := by
  refine ⟨hmax.trans hi.maxTxns, hal, hnext ▸ htable, hi.accounted.cons hcall ?_⟩
  intro t hin
  exact .inl (hids ▸ hin)

theorem SlotsInv.rollback (hi : SlotsInv limit h eng) (txn : Int) :
    SlotsInv limit (.rollback txn :: h) (eng.mvccRollback txn) := by
  obtain ⟨hal, hinfos⟩ := mvccRollback_slots hi.aligned txn
  have hids : (eng.mvccRollback txn).slots.infos.map TxnInfo.txid =
      eng.slots.infos.map TxnInfo.txid := by
    rw [hinfos]
    apply map_updateTxn
    intro info
    rfl
  have htable : TableInv limit eng.nextTxid (eng.mvccRollback txn).slots.infos :=
    hinfos ▸ hi.table.rollback txn
  apply hi.update _ (by rfl) (by rfl) hal hids htable
  intro t heq
  cases heq

/-- `garry_mvcc_set` and `garry_mvcc_delete`. -/
theorem SlotsInv.write (hi : SlotsInv limit h eng) (hcall : ∀ txn, call ≠ .begin txn)
    {pool : Pool} (heng : eng' = { eng with pool := pool, slots := slots })
    (hslots : slots = eng.slots ∨ slots = eng.slots.addModified txn cid) :
    SlotsInv limit (call :: h) eng' := by
  subst heng
  rcases hslots with rfl | rfl
  · exact hi.update hcall rfl rfl hi.aligned rfl hi.table
  · obtain ⟨hal, hinfos⟩ := hi.aligned.addModified txn cid
    have hids : (eng.slots.addModified txn cid).infos.map TxnInfo.txid =
        eng.slots.infos.map TxnInfo.txid := by
      rw [hinfos]
      apply map_updateTxn
      intro info
      rfl
    exact hi.update hcall (by rfl) (by rfl) hal hids (hinfos ▸ hi.table.addModified txn cid)

/-- The invariant holds after any calls. -/
theorem TxnCalls.inv (hrun : TxnCalls eng₀ h eng) (h₀ : SlotsInv limit [] eng₀) :
    SlotsInv limit h eng := by
  induction hrun with
  | nil => exact h₀
  | pages _ ih => exact ⟨ih.maxTxns, ih.aligned, ih.table, ih.accounted⟩
  | begin _ _ hb ih => exact ih.begin hb
  | commit _ ih => exact ih.commit _
  | rollback _ ih => exact ih.rollback _
  | set _ ih =>
    obtain ⟨pool, slots, heng, hslots⟩ := mvccSet_slots ..
    apply ih.write _ heng hslots
    intro t heq
    cases heq
  | delete _ ih =>
    obtain ⟨pool, slots, heng, hslots⟩ := mvccDelete_slots ..
    apply ih.write _ heng hslots
    intro t heq
    cases heq

end

/-! ## From `garry_engine_init` on -/

section

variable {malloc : Nat → Bool} {activeTxns : Nat → Int} {txnStates : Nat → TxnInfo} {file : DataFile}
  {wal : Bytes} {env : PoolEnv} {settings : EngineSettings} {eng₀ : SlotEngine} {h : List TxnCall}

/-- The size for a negative `max_txns` is that of no object. -/
theorem ptrdiffMax_lt_allocSize {limit : Int} (hfit : Fits32 limit) (hneg : limit < 0) :
    ptrdiffMax < allocSize txnIdSize limit := by
  obtain ⟨hlo, -⟩ := hfit
  rw [allocSize, Int.emod_def]
  have hdiv : (((txnIdSize : Nat) : Int) * limit * 64) / 18446744073709551616 = -1 := by
    simp only [txnIdSize]
    omega
  rw [hdiv]
  simp only [ptrdiffMax, txnIdSize]
  omega

theorem engineInit_cases
    (h : engineInit malloc activeTxns txnStates file wal env settings = some eng₀) :
    malloc (allocSize txnIdSize settings.maxTxns) = true ∧
      eng₀.maxTxns = settings.maxTxns ∧ eng₀.slots = ⟨activeTxns, txnStates, 0⟩ ∧
      ∃ e, Engine.engineInit file wal env settings = some e ∧ eng₀.Holds e := by
  rw [engineInit] at h
  split at h
  · next halloc =>
    rw [Bool.and_eq_true] at halloc
    obtain ⟨e, he, rfl⟩ := Option.map_eq_some_iff.mp h
    have hfields : e.maxTxns = settings.maxTxns ∧ e.txns = [] := by
      obtain ⟨pool, -, rfl⟩ := Option.map_eq_some_iff.mp he
      have hpages : ∀ eng : Engine, eng.maxTxns = settings.maxTxns → eng.txns = [] →
          eng.initPages.maxTxns = settings.maxTxns ∧ eng.initPages.txns = [] := by
        intro eng hmax htxns
        obtain ⟨pool, header, heq⟩ := Engine.initPages_fields eng
        rw [heq]
        exact ⟨hmax, htxns⟩
      exact hpages _ rfl rfl
    exact ⟨halloc.1, hfields.1, rfl, e, he, rfl, rfl, rfl, rfl, rfl, rfl, hfields.2⟩
  · cases h

/-- The empty table. -/
theorem SlotsInv.init (hfit : Fits32 settings.maxTxns)
    (hmalloc : ∀ n, ptrdiffMax < n → malloc n = false)
    (h : engineInit malloc activeTxns txnStates file wal env settings = some eng₀) :
    SlotsInv settings.maxTxns [] eng₀ := by
  obtain ⟨halloc, hmax, hslots, -⟩ := engineInit_cases h
  have hpos : 0 ≤ settings.maxTxns := by
    by_contra hneg
    have hfail := hmalloc _ (ptrdiffMax_lt_allocSize hfit (not_le.mp hneg))
    rw [hfail] at halloc
    cases halloc
  refine ⟨hmax, ?_, ?_, ?_⟩
  · rw [hslots]
    rfl
  · rw [hslots]
    exact .nil hpos
  · intro h₁ h₂ txn heq
    cases h₂ with
    | nil => cases heq
    | cons call h₂ => cases heq

/-- After any calls the ids are in the order of the begins, each with its own state and pages, the limits
hold, and only a commit removes an id. -/
theorem txnCalls_slots (hfit : Fits32 settings.maxTxns)
    (hmalloc : ∀ n, ptrdiffMax < n → malloc n = false)
    (hinit : engineInit malloc activeTxns txnStates file wal env settings = some eng₀)
    (hrun : TxnCalls eng₀ h eng) :
    (∀ i j, i < j → j < eng.slots.activeCount → eng.slots.activeTxns i < eng.slots.activeTxns j) ∧
      (∀ i < eng.slots.activeCount, eng.slots.activeTxns i < eng.nextTxid ∧
        (eng.slots.txnStates i).txid = eng.slots.activeTxns i ∧
        (eng.slots.txnStates i).modifiedPages.length ≤ maxModifiedPages) ∧
      (eng.slots.activeCount : Int) ≤ 64 * settings.maxTxns ∧
      (((List.range eng.slots.activeCount).countP fun i =>
        (eng.slots.txnStates i).state ≠ .rolledBack : Nat) : Int) ≤ settings.maxTxns ∧
      ∀ h₁ h₂ txn, h = h₂ ++ .begin txn :: h₁ → txn ≠ -1 →
        (∀ i < eng.slots.activeCount, eng.slots.activeTxns i ≠ txn) → .commit txn ∈ h₂ := by
  have hi := hrun.inv (.init hfit hmalloc hinit)
  have hmem {i : Nat} (hlt : i < eng.slots.activeCount) :
      eng.slots.txnStates i ∈ eng.slots.infos := List.mem_of_getElem? (getElem?_list hlt)
  refine ⟨?_, ?_, ?_, ?_, ?_⟩
  · intro i j hij hj
    have hsorted := hi.table.sorted
    rw [← hi.aligned, list, List.pairwise_map] at hsorted
    have hat := List.pairwise_iff_getElem.mp hsorted i j
      (by simpa using hij.trans hj) (by simpa using hj) hij
    simpa using hat
  · intro i hlt
    refine ⟨?_, hi.aligned.txid hlt, hi.table.pages _ (hmem hlt)⟩
    rw [← hi.aligned.txid hlt]
    exact hi.table.below _ (hmem hlt)
  · have hlen := hi.table.length
    rw [TxnSlots.length_infos] at hlen
    rw [mul_comm]
    exact hlen
  · rw [countP_infos]
    exact hi.table.running
  · intro h₁ h₂ txn heq hne hout
    apply (hi.accounted h₁ h₂ txn heq hne).resolve_left
    intro hin
    obtain ⟨i, hlt, hat⟩ := List.mem_map.mp (hi.aligned ▸ hin)
    exact hout i (List.mem_range.mp hlt) hat

/-- Two transactions begin, and the first one is committed. -/
theorem txnCalls_slots_commit : ∃ eng₀ eng,
    engineInit (fun n => decide (n ≤ ptrdiffMax)) (fun _ => 0) (fun _ => ⟨0, .active, []⟩) .empty []
      .roomy { defaultEngineSettings with pageSize := 1024 } = some eng₀ ∧
    TxnCalls eng₀ [.commit 1, .begin 2, .begin 1] eng ∧
    (∀ i < eng.slots.activeCount, eng.slots.activeTxns i < eng.nextTxid ∧
      (eng.slots.txnStates i).txid = eng.slots.activeTxns i ∧
      (eng.slots.txnStates i).modifiedPages.length ≤ maxModifiedPages) := by
  have hids : (engineInit (fun n => decide (n ≤ ptrdiffMax)) (fun _ => 0)
      (fun _ => ⟨0, .active, []⟩) .empty [] .roomy
      { defaultEngineSettings with pageSize := 1024 }).map (fun eng =>
        (eng.nextTxid, eng.mvccBegin.1, eng.mvccBegin.2.nextTxid, eng.mvccBegin.2.mvccBegin.1)) =
      some (1, 1, 2, 2) := by
    decide +kernel
  obtain ⟨eng₀, hinit, hids⟩ := Option.map_eq_some_iff.mp hids
  simp only [Prod.mk.injEq] at hids
  obtain ⟨hnext₀, hid₀, hnext₁, hid₁⟩ := hids
  have hrun₁ : TxnCalls eng₀ [.begin 1] eng₀.mvccBegin.2 :=
    .begin .nil (by rw [hnext₀]; decide) (Prod.ext hid₀ rfl)
  have hrun₂ : TxnCalls eng₀ [.begin 2, .begin 1] eng₀.mvccBegin.2.mvccBegin.2 :=
    .begin hrun₁ (by rw [hnext₁]; decide) (Prod.ext hid₁ rfl)
  have hmalloc (n : Nat) (hn : ptrdiffMax < n) : decide (n ≤ ptrdiffMax) = false :=
    decide_eq_false (Nat.not_le.mpr hn)
  exact ⟨eng₀, _, hinit, hrun₂.commit,
    (txnCalls_slots (by decide) hmalloc hinit hrun₂.commit).2.1⟩

end

end SlotEngine

end Garry
