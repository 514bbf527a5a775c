import Garry.Model.Cursor
import Garry.Verify.EngineHistory

/-!
# Rolled-back transactions

A rolled-back transaction stays on the list of active transactions until a commit names it. While it
is on the list, every call of another transaction reads the chain pages as if its versions were not
there.
-/

namespace Garry

/-! ## The versions on a page -/

/-- The versions in the records below `i` of a chain page, the newest first. -/
def pageVersions (buf : PageBuffer) (pageSize : Nat) : Nat → List VersionRecord
  | 0 => []
  | i + 1 =>
    match pageGet buf i pageSize with
    | none => pageVersions buf pageSize i
    | some recData =>
      if recData.length < chainEntryHeaderSize then pageVersions buf pageSize i
      else readVersion recData :: pageVersions buf pageSize i

/-- The value of the first visible version that can be read, unless a visible tombstone comes
first. -/
def readVersions (pool : Pool) (snapTxid : Int) (active : List Int) :
    List VersionRecord → Option Bytes
  | [] => none
  | v :: vs =>
    if versionVisible snapTxid active v then
      if v.isTombstone then none
      else (versionValue pool v).or (readVersions pool snapTxid active vs)
    else readVersions pool snapTxid active vs

/-- The first visible version is no tombstone. -/
def hasVersion (snapTxid : Int) (active : List Int) : List VersionRecord → Bool
  | [] => false
  | v :: vs => if versionVisible snapTxid active v then !v.isTombstone else hasVersion snapTxid active vs

variable {buf : PageBuffer} {active : List Int} {vs : List VersionRecord}

theorem findVisibleLoop_eq (pool : Pool) (n : Nat) :
    findVisibleLoop pool buf pageSize txn active n =
      readVersions pool txn active (pageVersions buf pageSize n) := by
  induction n with
  | zero => rfl
  | succ n ih =>
    rw [findVisibleLoop, pageVersions]
    cases pageGet buf n pageSize with
    | none => exact ih
    | some recData =>
      simp only
      split
      · exact ih
      · rw [readVersions, ih]

theorem hasVisibleLoop_eq (n : Nat) : hasVisibleLoop buf pageSize txn active n =
    hasVersion txn active (pageVersions buf pageSize n) := by
  induction n with
  | zero => rfl
  | succ n ih =>
    rw [hasVisibleLoop, pageVersions]
    cases pageGet buf n pageSize with
    | none => exact ih
    | some recData =>
      simp only
      split
      · exact ih
      · rw [hasVersion, ih]

/-- The versions that the transaction did not write. -/
def notBy (txn : Int) (vs : List VersionRecord) : List VersionRecord :=
  vs.filter fun v => v.txidCreated ≠ txn

theorem notBy_cons_self (v : VersionRecord) (vs : List VersionRecord) :
    notBy v.txidCreated (v :: vs) = notBy v.txidCreated vs :=
  List.filter_cons_of_neg (by simp)

theorem notBy_cons_of_ne {v : VersionRecord} (h : v.txidCreated ≠ txn) :
    notBy txn (v :: vs) = v :: notBy txn vs :=
  List.filter_cons_of_pos (decide_eq_true h)

/-- A listed transaction's versions are visible to itself only. -/
theorem versionVisible_of_mem {v : VersionRecord} (ht : v.txidCreated ∈ active)
    (hne : snap ≠ v.txidCreated) : versionVisible snap active v = false := by
  have hany : (active.any fun a => decide (a = v.txidCreated ∧ a ≠ snap)) = true :=
    List.any_eq_true.mpr ⟨_, ht, decide_eq_true ⟨rfl, hne.symm⟩⟩
  rw [versionVisible, hany]
  simp

theorem readVersions_notBy (pool : Pool) (ht : txn ∈ active) (hne : snap ≠ txn) :
    readVersions pool snap active (notBy txn vs) = readVersions pool snap active vs := by
  induction vs with
  | nil => rfl
  | cons v vs ih =>
    rw [readVersions]
    by_cases hv : v.txidCreated = txn
    · subst hv
      rw [notBy_cons_self, ih, versionVisible_of_mem ht hne]
      rfl
    · rw [notBy_cons_of_ne hv, readVersions, ih]

theorem hasVersion_notBy (ht : txn ∈ active) (hne : snap ≠ txn) :
    hasVersion snap active (notBy txn vs) = hasVersion snap active vs := by
  induction vs with
  | nil => rfl
  | cons v vs ih =>
    rw [hasVersion]
    by_cases hv : v.txidCreated = txn
    · subst hv
      rw [notBy_cons_self, ih, versionVisible_of_mem ht hne]
      rfl
    · rw [notBy_cons_of_ne hv, hasVersion, ih]

/-! ## Calls that read -/

/-- What there is to read on the chain pages. -/
structure Reader where
  get : Int → Option Bytes
  has : Int → Bool

namespace Reader

variable (lz4 : Lz4) (eng : Engine) (rd : Reader)

/-- `garry_storage_get` with the values that a reader finds. -/
def storageGet (txn : Int) (key : Bytes) : Option (Option Bytes) :=
  if key.length = 0 ∨ key.length > maxKeySize then some none
  else if eng.txnIsActive txn = false then some none
  else
    (leafFindSearch eng.pool eng.btreeRoot key).map fun lookup => do
      let cid := decodeCidFromDescriptor (← lookup).toBuffer
      if cid < 0 then none
      else
        let val ← rd.get cid
        if eng.compression = compressLz4 then
          (lz4.decompress val).filter fun val => val.length ≤ maxRecordSize
        else some val

/-- `garry_storage_exists` with the versions that a reader finds. -/
def storageExists (txn : Int) (key : Bytes) : Option Bool :=
  if key.length = 0 then some false
  else if eng.txnIsActive txn = false then some false
  else
    (leafFindSearch eng.pool eng.btreeRoot key).map fun lookup =>
      match lookup with
      | none => false
      | some lookup =>
        let cid := decodeCidFromDescriptor lookup.toBuffer
        if cid < 0 then false else rd.has cid

/-- What the descriptor of an entry leads a reader to. -/
def entryVersion (lookup : Bytes) : Option Bytes :=
  if lookup.length = 0 ∨ lookup.length > lookupBufSize then none
  else
    let cid := decodeCidFromDescriptor lookup.toBuffer
    if cid < 0 then none else rd.get cid

/-- What a reader finds for the entry before the current slot. -/
def cursorVersion (cur : StorageCursor) : Option Bytes :=
  if cur.btreeCur.nodeLoaded = false then none
  else if cur.btreeCur.currentSlot = 0 then none
  else (cur.btreeCur.currentNode.entries[cur.btreeCur.currentSlot - 1]?).bind fun e =>
    rd.entryVersion e.2

/-- The loop of `garry_storage_cursor_next` with the values that a reader finds. -/
def cursorNextLoop (withValue : Bool) :
    Nat → StorageCursor → Option (Option (Bytes × Option Bytes) × StorageCursor)
  | 0, _ => none
  | fuel + 1, cur =>
    match btreeCursorNext eng.pool cur.btreeCur with
    | none => none
    | some (none, btreeCur) => some (none, { cur with btreeCur := btreeCur })
    | some (some key, btreeCur) =>
      let cur := { cur with btreeCur := btreeCur }
      match rd.cursorVersion cur with
      | none => cursorNextLoop withValue fuel cur
      | some val =>
        if withValue then
          match eng.cursorValue lz4 val with
          | none => cursorNextLoop withValue fuel cur
          | some value => some (some (key, value), cur)
        else some (some (key, none), cur)

/-- `garry_storage_cursor_next` with the values that a reader finds. -/
def cursorNext (withValue : Bool) (cur : StorageCursor) :
    Option (Option (Bytes × Option Bytes) × StorageCursor) :=
  if cur.btreeCur.exhausted then some (none, cur)
  else rd.cursorNextLoop lz4 eng withValue eng.cursorFuel cur

/-- `garry_storage_first` with the values that a reader finds. -/
def storageFirst (txn : Int) : Option (Option Bytes) :=
  if eng.txnIsActive txn = false then some none
  else do
    let cur ← eng.cursorOpen txn []
    let (found, _) ← rd.cursorNext lz4 eng false cur
    some (found.map Prod.fst)

/-- The walk of `garry_storage_last` with the values that a reader finds. -/
def lastKeyLoop : Nat → Int → Option (Option Bytes)
  | 0, _ => none
  | fuel + 1, page =>
    if page < 0 then some none
    else
      let node := loadNode eng.pool page
      match node.entries.reverse.find? fun e => (rd.entryVersion e.2).isSome with
      | some (key, _) => some (some key)
      | none => lastKeyLoop fuel node.prevPage

/-- `garry_storage_last` with the values that a reader finds. -/
def storageLast (txn : Int) : Option (Option Bytes) :=
  if eng.txnIsActive txn = false then some none
  else
    match Engine.lastLeafLoop eng.pool eng.pool.fuel eng.btreeRoot with
    | none => none
    | some none => some none
    | some (some page) => rd.lastKeyLoop eng (eng.pool.fuel + 1) page

/-- The loop of `garry_storage_next_key` with the values that a reader finds. -/
def nextKeyLoop (after : Bytes) : Nat → StorageCursor → Option (Option Bytes)
  | 0, _ => none
  | fuel + 1, cur =>
    match rd.cursorNext lz4 eng false cur with
    | none => none
    | some (none, _) => some none
    | some (some (key, _), cur) =>
      if byteCompare key after > 0 then some (some key) else nextKeyLoop after fuel cur

/-- `garry_storage_next_key` with the values that a reader finds. -/
def storageNextKey (txn : Int) (after : Bytes) : Option (Option Bytes) :=
  if eng.txnIsActive txn = false then some none
  else if after.length = 0 then some none
  else (eng.cursorOpen txn []).bind fun cur => rd.nextKeyLoop lz4 eng after eng.cursorFuel cur

/-- The loop of `garry_storage_prev_key` with the values that a reader finds. -/
def prevKeyLoop (before : Bytes) : Nat → Option Bytes → StorageCursor → Option (Option Bytes)
  | 0, _, _ => none
  | fuel + 1, found, cur =>
    match rd.cursorNext lz4 eng false cur with
    | none => none
    | some (none, _) => some found
    | some (some (key, _), cur) =>
      prevKeyLoop before fuel (if byteCompare key before < 0 then some key else found) cur

/-- `garry_storage_prev_key` with the values that a reader finds. -/
def storagePrevKey (txn : Int) (before : Bytes) : Option (Option Bytes) :=
  if eng.txnIsActive txn = false then some none
  else if before.length = 0 then some none
  else
    (eng.cursorOpen txn []).bind fun cur => rd.prevKeyLoop lz4 eng before eng.cursorFuel none cur

end Reader

namespace Engine

/-- The reading of a transaction. -/
def reader (eng : Engine) (txn : Int) : Reader := ⟨eng.mvccGet txn, eng.mvccExists txn⟩

/-- The reading of a transaction, were the versions of another one not on the pages. -/
def readerWithout (eng : Engine) (txn other : Int) : Reader where
  get cid := (eng.pool.pinPage cid).bind fun buf =>
    readVersions eng.pool txn eng.activeTxns
      (notBy other (pageVersions buf eng.pageSize (pageRecordCount buf).toNat))
  has cid := (eng.pool.pinPage cid).any fun buf =>
    hasVersion txn eng.activeTxns
      (notBy other (pageVersions buf eng.pageSize (pageRecordCount buf).toNat))

/-- Every call of the transaction that reads answers with what the reader finds. -/
structure ReadsThrough (lz4 : Lz4) (eng : Engine) (txn : Int) (rd : Reader) : Prop where
  get : ∀ key, eng.storageGet lz4 txn key = rd.storageGet lz4 eng txn key
  has : ∀ key, eng.storageExists txn key = rd.storageExists eng txn key
  first : eng.storageFirst lz4 txn = rd.storageFirst lz4 eng txn
  last : eng.storageLast txn = rd.storageLast eng txn
  nextKey : ∀ after, eng.storageNextKey lz4 txn after = rd.storageNextKey lz4 eng txn after
  prevKey : ∀ before, eng.storagePrevKey lz4 txn before = rd.storagePrevKey lz4 eng txn before
  cursorNext : ∀ withValue cur, cur.txn = txn →
    eng.cursorNext lz4 withValue cur = rd.cursorNext lz4 eng withValue cur

variable {eng eng' : Engine} {lz4 : Lz4}

theorem cursorNextLoop_reader (withValue : Bool) (fuel : Nat) (cur : StorageCursor) :
    cursorNextLoop lz4 eng withValue fuel cur =
      (eng.reader cur.txn).cursorNextLoop lz4 eng withValue fuel cur := by
  induction fuel generalizing cur with
  | zero => rfl
  | succ fuel ih =>
    rw [cursorNextLoop, Reader.cursorNextLoop]
    cases btreeCursorNext eng.pool cur.btreeCur with
    | none => rfl
    | some r =>
      obtain ⟨found, btreeCur⟩ := r
      cases found with
      | none => rfl
      | some key =>
        simp only [ih]
        rfl

theorem cursorNext_reader (withValue : Bool) (cur : StorageCursor) :
    eng.cursorNext lz4 withValue cur = (eng.reader cur.txn).cursorNext lz4 eng withValue cur := by
  rw [cursorNext, Reader.cursorNext, cursorNextLoop_reader]

/-- A cursor belongs to one transaction. -/
theorem cursorNextLoop_txn {cur cur' : StorageCursor}
    (h : cursorNextLoop lz4 eng withValue fuel cur = some (found, cur')) : cur'.txn = cur.txn := by
  induction fuel generalizing cur with
  | zero => cases h
  | succ fuel ih =>
    rw [cursorNextLoop] at h
    split at h
    · cases h
    · cases h
      rfl
    · next btreeCur _ =>
      simp only at h
      split at h
      · have heq := ih h
        exact heq
      · split at h
        · split at h
          · have heq := ih h
            exact heq
          · cases h
            rfl
        · cases h
          rfl

theorem cursorNext_txn {cur cur' : StorageCursor}
    (h : eng.cursorNext lz4 withValue cur = some (found, cur')) : cur'.txn = cur.txn := by
  rw [cursorNext] at h
  split at h
  · cases h
    rfl
  · exact cursorNextLoop_txn h

theorem nextKeyLoop_reader (after : Bytes) (fuel : Nat) (cur : StorageCursor) :
    nextKeyLoop lz4 eng after fuel cur =
      (eng.reader cur.txn).nextKeyLoop lz4 eng after fuel cur := by
  induction fuel generalizing cur with
  | zero => rfl
  | succ fuel ih =>
    rw [nextKeyLoop, Reader.nextKeyLoop, ← cursorNext_reader]
    cases hn : eng.cursorNext lz4 false cur with
    | none => rfl
    | some r =>
      obtain ⟨found, cur'⟩ := r
      cases found with
      | none => rfl
      | some e =>
        simp only [ih, cursorNext_txn hn]

theorem prevKeyLoop_reader (before : Bytes) (fuel : Nat) (found : Option Bytes)
    (cur : StorageCursor) : prevKeyLoop lz4 eng before fuel found cur =
      (eng.reader cur.txn).prevKeyLoop lz4 eng before fuel found cur := by
  induction fuel generalizing found cur with
  | zero => rfl
  | succ fuel ih =>
    rw [prevKeyLoop, Reader.prevKeyLoop, ← cursorNext_reader]
    cases hn : eng.cursorNext lz4 false cur with
    | none => rfl
    | some r =>
      obtain ⟨next, cur'⟩ := r
      cases next with
      | none => rfl
      | some e =>
        simp only [ih, cursorNext_txn hn]

theorem lastKeyLoop_reader (txn : Int) (fuel : Nat) (page : Int) :
    eng.lastKeyLoop txn fuel page = (eng.reader txn).lastKeyLoop eng fuel page := by
  induction fuel generalizing page with
  | zero => rfl
  | succ fuel ih =>
    rw [lastKeyLoop, Reader.lastKeyLoop]
    simp only [ih]
    rfl

/-- A transaction reads with its own reader. -/
theorem readsThrough_reader (lz4 : Lz4) (eng : Engine) (txn : Int) :
    eng.ReadsThrough lz4 txn (eng.reader txn) where
  get _ := rfl
  has _ := rfl
  first := by
    rw [storageFirst, Reader.storageFirst]
    cases hcur : eng.cursorOpen txn [] with
    | none => simp only [Option.bind_eq_bind, Option.bind_none]
    | some cur =>
      obtain ⟨btreeCur, -, rfl⟩ := Option.map_eq_some_iff.mp hcur
      simp only [Option.bind_eq_bind, Option.bind_some, cursorNext_reader]
  last := by
    rw [storageLast, Reader.storageLast]
    split
    · rfl
    · cases lastLeafLoop eng.pool eng.pool.fuel eng.btreeRoot with
      | none => rfl
      | some page =>
        cases page with
        | none => rfl
        | some page => exact lastKeyLoop_reader txn _ page
  nextKey after := by
    rw [storageNextKey, Reader.storageNextKey]
    cases hcur : eng.cursorOpen txn [] with
    | none => simp only [Option.bind_none]
    | some cur =>
      obtain ⟨btreeCur, -, rfl⟩ := Option.map_eq_some_iff.mp hcur
      simp only [Option.bind_some, nextKeyLoop_reader]
  prevKey before := by
    rw [storagePrevKey, Reader.storagePrevKey]
    cases hcur : eng.cursorOpen txn [] with
    | none => simp only [Option.bind_none]
    | some cur =>
      obtain ⟨btreeCur, -, rfl⟩ := Option.map_eq_some_iff.mp hcur
      simp only [Option.bind_some, prevKeyLoop_reader]
  cursorNext withValue cur ht := by
    subst ht
    exact cursorNext_reader withValue cur

/-- While a transaction is on the list, its versions might as well not be there for the others. -/
theorem readerWithout_eq (ht : other ∈ eng.activeTxns) (hne : txn ≠ other) :
    eng.readerWithout txn other = eng.reader txn := by
  rw [readerWithout, reader]
  simp only [readVersions_notBy _ ht hne, hasVersion_notBy ht hne, ← findVisibleLoop_eq,
    ← hasVisibleLoop_eq]
  rfl

/-! ## After a rollback -/

/-- A listed transaction stays on the list until a commit names it. -/
theorem mem_activeTxns_run (hrun : eng.Run lz4 (fun _ _ op => op ≠ .commit txn) eng')
    (ht : txn ∈ eng.activeTxns) : txn ∈ eng'.activeTxns := by
  induction hrun with
  | refl => exact ht
  | step _ hs hop ih =>
    rename_i eng₁ eng₂ op _
    by_cases hb : op = .begin
    · subst hb
      cases hs
      rcases begins_or eng₁ with heq | ⟨-, htxns⟩
      · rw [heq]
        exact ih
      · rw [activeTxns, htxns, List.map_append]
        exact List.mem_append_left _ ih
    · exact (logs_step hb hs).activeTxns _ ih hop

/-- After a rollback the other transactions read as if the transaction had written nothing, as long
as no commit names it. -/
theorem storageRollback_readsWithout (hact : eng.txnIsActive txn = true)
    (hrun : (eng.storageRollback txn).Run lz4 (fun _ _ op => op ≠ .commit txn) eng')
    (hne : other ≠ txn) : eng'.ReadsThrough lz4 other (eng'.readerWithout other txn) := by
  have hmem : txn ∈ eng.activeTxns := by
    obtain ⟨info, hfind, -⟩ := (Option.any_eq_true ..).mp hact
    exact List.mem_map.mpr ⟨info, mem_of_findTxn hfind⟩
  rw [readerWithout_eq (mem_activeTxns_run hrun (by rwa [activeTxns_rollback])) hne]
  exact readsThrough_reader lz4 eng' other

/-- A transaction that begins after the rollback. -/
theorem storageRollback_readsWithout_begin : ∃ eng eng' : Engine,
    newCalls [.begin, .set 1 [107] [118]] = some eng ∧
    (eng.storageRollback 1).step .stored .begin = some eng' ∧
    eng'.ReadsThrough .stored 2 (eng'.readerWithout 2 1) := by
  have hcalls : (newCalls [.begin, .set 1 [107] [118]]).map (fun eng => eng.txnIsActive 1) =
      some true := by
    decide +kernel
  obtain ⟨eng, heng, hact⟩ := Option.map_eq_some_iff.mp hcalls
  have hbegin : (eng.storageRollback 1).step .stored .begin =
      some (eng.storageRollback 1).storageBegin.2 := rfl
  refine ⟨eng, _, heng, hbegin, storageRollback_readsWithout hact (Run.refl.step hbegin ?_) ?_⟩
  · intro hop
    cases hop
  · decide

/-- A commit of the rolled-back transaction makes its versions visible. -/
theorem storageCommit_rolledBack : ∃ eng₀ eng eng' : Engine, Created 1024 eng₀ ∧
    eng₀.Run .stored (Proper .stored) eng ∧ eng.txnIsActive 1 = true ∧
    (eng.storageRollback 1).Run .stored (Proper .stored) eng' ∧
    eng'.storageGet .stored 2 [107] = some (some [118]) ∧
    ¬ eng'.ReadsThrough .stored 2 (eng'.readerWithout 2 1) := by
  have hcalls : ((newCalls [.begin, .set 1 [107] [118]]).bind fun eng =>
      ((eng.storageRollback 1).runCalls .stored [.commit 1, .begin]).map fun eng' =>
        (eng.txnIsActive 1, eng'.storageGet .stored 2 [107])) =
      some (true, some (some [118])) := by
    decide +kernel
  have hwithout : ((newCalls [.begin, .set 1 [107] [118]]).bind fun eng =>
      ((eng.storageRollback 1).runCalls .stored [.commit 1, .begin]).map fun eng' =>
        (eng'.readerWithout 2 1).storageGet .stored eng' 2 [107]) = some (some none) := by
    decide +kernel
  obtain ⟨eng, heng, hcalls⟩ := Option.bind_eq_some_iff.mp hcalls
  obtain ⟨eng', heng', hcalls⟩ := Option.map_eq_some_iff.mp hcalls
  obtain ⟨hact, hget⟩ := Prod.mk.inj hcalls
  rw [heng, Option.bind_some, heng', Option.map_some, Option.some.injEq] at hwithout
  obtain ⟨eng₀, h0, -, hrun⟩ := run_of_newCalls heng
  refine ⟨eng₀, eng, eng', h0, hrun, hact, Run.refl.calls heng', hget, ?_⟩
  intro h
  have heq := h.get [107]
  rw [hget, hwithout] at heq
  cases heq

end Engine

end Garry
