import Mathlib.Data.Set.Card
import Garry.Model.Cursor
import Garry.Verify.EmptyDatabase
import Garry.Verify.FailedSet

/-!
# The key counter

`garry_storage_set` counts a new key when all of it succeeds, an open database starts to count
at zero, and the tree keeps every key it ever took.
-/

namespace Garry

open ByteStore BPlusTree

namespace Engine

variable {lz4 : Lz4} {ps : Nat} {eng eng' : Engine} {L L' : Layout} {key value : Bytes}

/-! ## The keys of the tree -/

/-- The keys of the tree. -/
def treeKeys (eng : Engine) : Set Bytes :=
  {key | ∃ v, leafFindSearch eng.pool eng.btreeRoot key = some (some v)}

/-- The counter of the keys tells how many keys are in the tree. -/
def CountsKeys (eng : Engine) : Prop :=
  ∃ n : Nat, eng.keyCount = n ∧ eng.treeKeys.encard = n

theorem Inv.treeKeys_eq (h : Inv ps eng L) :
    eng.treeKeys = {key | key ∈ L.root.toList.map Prod.fst} := by
  ext key
  simp only [treeKeys, Set.mem_ofPred_eq, h.pages.search, Option.some.injEq, List.mem_map]
  constructor
  · rintro ⟨v, hv⟩
    exact ⟨_, SortedAssoc.mem_of_lookup hv, rfl⟩
  · rintro ⟨⟨k, v⟩, hm, rfl⟩
    exact ⟨v, h.pages.tree.wf.sorted.lookup_of_mem hm⟩

theorem Inv.encard_treeKeys (h : Inv ps eng L) : eng.treeKeys.encard = L.root.toList.length := by
  have hnd : (L.root.toList.map Prod.fst).Nodup := by
    rw [List.Nodup, List.pairwise_map]
    exact h.pages.tree.wf.sorted.imp fun hlt => ne_of_lt hlt
  have hset : eng.treeKeys = (L.root.toList.map Prod.fst).toFinset := by
    rw [h.treeKeys_eq, List.coe_toFinset]
  rw [hset, Set.encard_coe_eq_coe_finsetCard, List.toFinset_card_of_nodup hnd, List.length_map]

theorem Inv.countsKeys_iff (h : Inv ps eng L) :
    eng.CountsKeys ↔ eng.keyCount = L.root.toList.length := by
  rw [CountsKeys, h.encard_treeKeys]
  constructor
  · rintro ⟨n, hn, hl⟩
    rw [hn, ← ENat.natCast_inj.mp hl]
  · intro hn
    exact ⟨_, hn, rfl⟩

/-! ## Calls -/

theorem mvccDelete_keyCount (eng : Engine) (txn cid : Int) :
    (eng.mvccDelete txn cid).2.keyCount = eng.keyCount := by
  rw [mvccDelete]
  split
  · rfl
  · split <;> rfl

theorem storageDelete_keyCount (h : eng.storageDelete txn key = some (ok, eng')) :
    eng'.keyCount = eng.keyCount := by
  rw [storageDelete] at h
  split at h
  · cases h
    rfl
  split at h
  · cases h
    rfl
  split at h
  · cases h
    rfl
  simp only at h
  split at h
  · cases h
  · cases h
    rfl
  split at h
  · cases h
    rfl
  · have he := congrArg Prod.snd (Option.some.inj h)
    exact (congrArg Engine.keyCount he).symm.trans (mvccDelete_keyCount ..)

/-- No call but a set counts. -/
theorem step_keyCount {op : EngineOp} (hs : eng.step lz4 op = some eng')
    (hop : ∀ txn key value, op ≠ .set txn key value) : eng'.keyCount = eng.keyCount := by
  cases op with
  | begin =>
    cases hs
    rcases begins_or eng with e | hb
    · rw [e]
    · rw [hb.eq]
  | set txn key value => exact absurd rfl (hop txn key value)
  | delete txn key =>
    obtain ⟨r, hdel, rfl⟩ := Option.map_eq_some_iff.mp hs
    exact storageDelete_keyCount hdel
  | gc => rw [mvccGc_eq hs]
  | checkpoint =>
    obtain ⟨r, hcp, rfl⟩ := Option.map_eq_some_iff.mp hs
    obtain ⟨eng₁, hgc, rfl⟩ := Option.map_eq_some_iff.mp hcp
    show eng₁.keyCount = eng.keyCount
    rw [mvccGc_eq hgc]
  | commit txn =>
    cases hs
    rfl
  | rollback txn =>
    cases hs
    rfl
  | evict pid =>
    cases hs
    rfl
  | frames env =>
    cases hs
    rfl

/-- A set of a new key that passes the checks has something to store: `lz4_compress` does not refuse
the value. -/
def Countable (lz4 : Lz4) (eng : Engine) : EngineOp → Prop
  | .set txn key value => eng.accepts txn key = true →
    leafFindSearch eng.pool eng.btreeRoot key = some none → (eng.stored lz4 value).isSome
  | _ => True

/-- A new key of a set that succeeds is in the tree. -/
theorem Inv.lookup_of_set (h' : Inv ps eng' L') {x : Option Bytes}
    (hw : Written (eng.store L) (eng'.store L') txn key x true) : L'.lookup key ≠ none := by
  intro hnone
  cases hw with
  | done _ _ hst =>
    have hchain : (eng'.store L').chain key = _ := congrArg (fun s => s.chain key) hst
    simp only [Mvcc.State.push, Function.update_self, store, h'.pages.empty hnone] at hchain
    cases hchain

/-- A set of a database whose keys are counted; when it changes something, there is a key. -/
theorem Inv.set_counts (h : Inv ps eng L) (hn : eng.keyCount = L.root.toList.length)
    (hset : eng.storageSet lz4 txn key value = some (ok, eng'))
    (hp : Proper lz4 eng eng' (.set txn key value)) (hc : Countable lz4 eng (.set txn key value)) :
    ∃ L', Inv ps eng' L' ∧ eng'.keyCount = L'.root.toList.length ∧
      (eng' = eng ∨ L'.root.toList ≠ []) := by
  obtain ⟨hids, hkey, hval⟩ := hp
  have hcount := storageSet_keyCount hset
  cases hacc : eng.accepts txn key with
  | false =>
    obtain ⟨-, rfl⟩ := storageSet_turnedAway hset hacc
    exact ⟨L, h, hn, .inl rfl⟩
  | true =>
    obtain ⟨L', hi, hw, hok, ht, -⟩ := h.set hkey hval hset hids
    refine ⟨L', hi, ?_⟩
    rw [h.pages.search] at hcount
    cases hl : L.lookup key with
    | some v =>
      rw [hl, decide_eq_false (by simp), Bool.and_false] at hcount
      cases ht with
      | same _ hroot =>
        rw [hroot]
        exact ⟨hcount.trans hn, .inr (List.ne_nil_of_mem (SortedAssoc.mem_of_lookup hl))⟩
      | insert _ hnone => rw [hl] at hnone; cases hnone
    | none =>
      have hsearch : leafFindSearch eng.pool eng.btreeRoot key = some none := by
        rw [h.pages.search, hl]
      obtain ⟨v, hv⟩ := Option.isSome_iff_exists.mp (hc hacc hsearch)
      obtain rfl : ok = true := by
        rw [hok, hacc, hv, Option.any_some, roomFor, hsearch]
        rfl
      rw [hl, decide_eq_true rfl] at hcount
      cases ht with
      | same _ hroot =>
        refine absurd ?_ (hi.lookup_of_set hw)
        rw [Layout.lookup, hroot]
        exact hl
      | insert w _ hroot =>
        have hnot : ∀ e ∈ L.root.toList, e.1 ≠ key := by
          rintro e he rfl
          have hmem := h.pages.tree.wf.sorted.lookup_of_mem he
          rw [Layout.lookup, hmem] at hl
          cases hl
        have hins := (@Root.Wf.insert _ _ _ 2 maxKeysPerNode _ (by decide) (by decide) (by decide)
          h.pages.tree.wf key w).2
        rw [hroot, hins, SortedAssoc.length_insert_of_notMem hnot]
        rw [hn] at hcount
        refine ⟨hcount, .inr fun hnil => ?_⟩
        have hlen := SortedAssoc.length_insert_of_notMem (v := w) hnot
        rw [hnil] at hlen
        cases hlen

/-- A call that is no set leaves the keys of the tree. -/
theorem Inv.call_keys (h : Inv ps eng L) {op : EngineOp} (hs : eng.step lz4 op = some eng')
    (hp : Proper lz4 eng eng' op) (hop : ∀ txn key value, op ≠ .set txn key value) :
    ∃ L', Inv ps eng' L' ∧ L'.root.toList.length = L.root.toList.length := by
  cases op with
  | begin =>
    cases hs
    rcases begins_or eng with e | hb
    · rw [e]
      exact ⟨L, h, rfl⟩
    · exact ⟨L, (h.begin hb hp.2).1, rfl⟩
  | set txn key value => exact absurd rfl (hop txn key value)
  | delete txn key =>
    obtain ⟨ok, eng₁, L', hdel, hi, -, -, ht, -⟩ := h.delete txn key
    rw [Engine.step, hdel] at hs
    cases hs
    refine ⟨L', hi, ?_⟩
    cases ht with
    | same _ hroot => rw [hroot]
    | insert _ hnone =>
      obtain ⟨locks, he⟩ := storageDelete_noKey hdel (by rw [h.pages.search, hnone])
      have hkeys : eng₁.treeKeys = eng.treeKeys := by
        rw [he]
        rfl
      rw [← ENat.natCast_inj, ← hi.encard_treeKeys, hkeys, h.encard_treeKeys]
  | commit txn =>
    cases hs
    exact ⟨L, (h.commit txn).1, rfl⟩
  | rollback txn =>
    cases hs
    exact ⟨L, (h.rollback txn).1, rfl⟩
  | gc =>
    obtain ⟨eng₁, L', hgc, hi, -, ht⟩ := h.gc
    rw [Engine.step, hgc] at hs
    cases hs
    exact ⟨L', hi, by rw [ht.root]⟩
  | checkpoint =>
    obtain ⟨lsn, eng₁, L', hcp, hi, -, ht⟩ := h.checkpoint
    rw [Engine.step, hcp] at hs
    cases hs
    exact ⟨L', hi, by rw [ht.root]⟩
  | evict pid =>
    cases hs
    exact ⟨L, h.evict pid, rfl⟩
  | frames env =>
    cases hs
    exact ⟨L, h.frames hp.2, rfl⟩

/-! ## Runs -/

/-- The counter is right, and without keys the pages are as they were created. -/
structure Counted (ps : Nat) (eng : Engine) (L : Layout) : Prop extends Inv ps eng L where
  counts : eng.keyCount = L.root.toList.length
  untouched : L.root.toList = [] → Untouched ps eng

/-- A call on a database whose keys are counted. -/
theorem Counted.call (h : Counted ps eng L) {op : EngineOp} (hs : eng.step lz4 op = some eng')
    (hp : Proper lz4 eng eng' op) (hc : Countable lz4 eng op) : ∃ L', Counted ps eng' L' := by
  by_cases hop : ∃ txn key value, op = .set txn key value
  · obtain ⟨txn, key, value, rfl⟩ := hop
    obtain ⟨⟨ok, eng₁⟩, hset, rfl⟩ := Option.map_eq_some_iff.mp hs
    obtain ⟨L', hi, hcount, rfl | hne⟩ := h.toInv.set_counts h.counts hset hp hc
    · exact ⟨L, h⟩
    · exact ⟨L', hi, hcount, fun hnil => absurd hnil hne⟩
  · have hset : ∀ txn key value, op ≠ .set txn key value := fun txn key value he =>
      hop ⟨txn, key, value, he⟩
    obtain ⟨L', hi, hlen⟩ := h.toInv.call_keys hs hp hset
    refine ⟨L', hi, ?_, fun hnil => ?_⟩
    · rw [step_keyCount hs hset, h.counts, hlen]
    rw [hnil, eq_comm, List.length_nil, List.length_eq_zero_iff] at hlen
    refine (h.untouched hlen).step hs hset ?_ fun key => ?_
    · rintro env rfl
      exact hp.2
    · rw [h.pages.search, Layout.lookup, hlen]
      rfl

theorem storageClose_wal (eng : Engine) : eng.storageClose.wal = eng.wal := by
  have hstore (eng : Engine) : eng.storeHeader.wal = eng.wal := by
    rw [storeHeader]
    split <;> rfl
  rw [storageClose, engineClose, hstore, hstore]

/-- A call, or a clean close after which the files are opened again. -/
inductive Cycle
  | call (op : EngineOp)
  | reopen (env : PoolEnv)

def cycle (lz4 : Lz4) (eng : Engine) : Cycle → Option Engine
  | .call op => eng.step lz4 op
  | .reopen env =>
    (engineOpen lz4 eng.storageClose.pool.file eng.storageClose.wal.bytes env).bind fun r =>
      if r.1 then some r.2 else none

/-- The keys that a cycle adds to the tree are counted, and an open database has none. -/
def KeepsCount (lz4 : Lz4) (eng : Engine) : Cycle → Prop
  | .call op => Countable lz4 eng op
  | .reopen _ => eng.treeKeys = ∅ ∧ eng.pageSize = defaultPageSize ∧
    ¬ HasCommittedUpdate eng.wal.bytes

def ProperCycle (lz4 : Lz4) (eng eng' : Engine) : Cycle → Prop
  | .call op => Proper lz4 eng eng' op
  | .reopen env => env.Serves

/-- The engines of a database through its calls and its reopenings, each of which keeps the count. -/
inductive Cycles (lz4 : Lz4) (eng₀ : Engine) : Engine → Prop
  | refl : Cycles lz4 eng₀ eng₀
  | step (c : Cycle) {eng eng' : Engine} : Cycles lz4 eng₀ eng → eng.cycle lz4 c = some eng' →
    ProperCycle lz4 eng eng' c → KeepsCount lz4 eng c → Cycles lz4 eng₀ eng'

theorem Counted.reopen (h : Counted ps eng L) {env : PoolEnv}
    (hs : eng.cycle lz4 (.reopen env) = some eng') (henv : env.Serves)
    (hk : KeepsCount lz4 eng (.reopen env)) : Counted ps eng' .new := by
  obtain ⟨hkeys, hps, hlog⟩ := hk
  have hsize : ps = defaultPageSize := h.pageSize.symm.trans hps
  subst hsize
  have hnil : L.root.toList = [] := by
    rw [← List.length_eq_zero_iff, ← ENat.natCast_inj, ← h.encard_treeKeys, hkeys]
    exact Set.encard_empty
  obtain ⟨eng₁, hopen, hu, hi, hcount⟩ := (h.untouched hnil).reopen henv hlog
  rw [cycle, storageClose_wal, hopen, Option.bind_some, if_pos rfl] at hs
  obtain rfl := Option.some.inj hs
  exact ⟨hi, hcount, fun _ => hu⟩

theorem Cycles.counted {eng₀ : Engine} (hnew : Created ps eng₀) (h : Cycles lz4 eng₀ eng) :
    ∃ L, Counted ps eng L := by
  induction h with
  | refl =>
    obtain ⟨hu, hcount⟩ := hnew.untouched
    exact ⟨.new, hnew.inv.1, hcount, fun _ => hu⟩
  | @step c _ _ _ hs hp hk ih =>
    obtain ⟨L, hc⟩ := ih
    cases c with
    | call op => exact hc.call hs hp hk
    | reopen env => exact ⟨.new, hc.reopen hs hp hk⟩

/-- Calls with a codec that refuses nothing. -/
theorem Cycles.calls {eng₀ : Engine} (h : Cycles .stored eng₀ eng)
    (hrun : eng.Run .stored (Proper .stored) eng') : Cycles .stored eng₀ eng' := by
  induction hrun with
  | refl => exact h
  | @step eng₁ _ op _ hs hp ih =>
    refine Cycles.step (.call op) ih hs hp ?_
    cases op with
    | set txn key value =>
      intro _ _
      rw [stored]
      split <;> rfl
    | _ => trivial

/-- A new database with the default settings. -/
def newDefault : Option Engine := engineInit .empty [] .roomy defaultEngineSettings

theorem created_newDefault (h : newDefault = some eng) : Created defaultPageSize eng :=
  ⟨_, .roomy, ⟨rfl, by decide, ⟨8, rfl⟩⟩, ⟨fun _ => rfl, fun _ => rfl⟩, h⟩

end Engine

open Engine in
/-- `garry_storage_count` tells how many keys are in the tree as long as every new key that a set puts
there is stored with its value, and the database is closed and opened only without keys. -/
theorem storageCount_treeKeys {lz4 : Lz4} {ps : Nat} {eng₀ eng : Engine}
    (hnew : Created ps eng₀) (h : Cycles lz4 eng₀ eng)
    (hactive : eng.txnIsActive txn = true) :
    ∃ n : Nat, eng.storageCount txn = n ∧ eng.treeKeys.encard = n := by
  obtain ⟨L, hc⟩ := h.counted hnew
  refine ⟨L.root.toList.length, ?_, hc.encard_treeKeys⟩
  rw [Engine.storageCount, hactive, if_neg (by decide), hc.counts]

/-- A new database that is closed and opened, and a key then. -/
def reopenThenKey : Option Engine :=
  (Engine.newDefault.bind fun eng => eng.cycle .stored (.reopen .roomy)).bind fun eng =>
    eng.runCalls .stored [.begin, .set 1 [107] [1]]

theorem reopenThenKey_active : reopenThenKey.map (fun eng => eng.txnIsActive 1) = some true := by
  decide +kernel

open Engine in
theorem storageCount_treeKeys_one : ∃ eng : Engine, reopenThenKey = some eng ∧
    ∃ n : Nat, eng.storageCount 1 = n ∧ eng.treeKeys.encard = n := by
  obtain ⟨eng, heng, hactive⟩ := Option.map_eq_some_iff.mp reopenThenKey_active
  refine ⟨eng, heng, ?_⟩
  obtain ⟨eng₁, h₁, hcalls⟩ := Option.bind_eq_some_iff.mp heng
  obtain ⟨eng₀, h₀, hre⟩ := Option.bind_eq_some_iff.mp h₁
  have hnew := created_newDefault h₀
  have hreopen : Cycles .stored eng₀ eng₁ := by
    apply Cycles.step (.reopen .roomy) .refl hre ⟨fun _ => rfl, fun _ => rfl⟩
    refine ⟨?_, ?_, ?_⟩
    · rw [hnew.inv.1.treeKeys_eq]
      simp [Layout.new, Root.toList, BPlusTree.toList]
    · exact hnew.untouched.1.pageSize
    · have hlog : newDefault.map (fun eng => eng.wal.bytes) = some [] := by
        decide +kernel
      rw [h₀] at hlog
      rw [show eng₀.wal.bytes = [] from Option.some.inj hlog]
      rintro ⟨data, hd, -⟩
      exact List.not_mem_nil hd
  exact storageCount_treeKeys hnew (hreopen.calls (Run.refl.calls hcalls)) hactive

/-- A committed key, a clean close, an open and a transaction. -/
def keyThenReopen : Option Engine :=
  ((Engine.newDefault.bind fun eng =>
    eng.runCalls .stored [.begin, .set 1 [107] [1], .commit 1]).bind fun eng =>
      eng.cycle .stored (.reopen .roomy)).bind fun eng => eng.runCalls .stored [.begin]

theorem keyThenReopen_count : keyThenReopen.map (fun eng => (eng.txnIsActive 2, eng.storageCount 2,
    (leafFindSearch eng.pool eng.btreeRoot [107]).map Option.isSome)) = some (true, 0, some true) := by
  decide +kernel

open Engine in
/-- An open database counts from zero. -/
theorem storageCount_reopened : ∃ eng₀ eng₁ eng₂ eng₃ : Engine, Created defaultPageSize eng₀ ∧
    eng₀.Run .stored (Proper .stored) eng₁ ∧ eng₁.cycle .stored (.reopen .roomy) = some eng₂ ∧
    eng₂.Run .stored (Proper .stored) eng₃ ∧ eng₃.txnIsActive 2 = true ∧
    ¬ ∃ n : Nat, eng₃.storageCount 2 = n ∧ eng₃.treeKeys.encard = n := by
  obtain ⟨eng₃, heng, hf⟩ := Option.map_eq_some_iff.mp keyThenReopen_count
  simp only [Prod.mk.injEq] at hf
  obtain ⟨hactive, hcount, hkey⟩ := hf
  obtain ⟨eng₂, h₂, hbegin⟩ := Option.bind_eq_some_iff.mp heng
  obtain ⟨eng₁, h₁, hre⟩ := Option.bind_eq_some_iff.mp h₂
  obtain ⟨eng₀, h₀, hcalls⟩ := Option.bind_eq_some_iff.mp h₁
  refine ⟨eng₀, eng₁, eng₂, eng₃, created_newDefault h₀, Run.refl.calls hcalls, hre,
    Run.refl.calls hbegin, hactive, ?_⟩
  rintro ⟨n, hn, hcard⟩
  obtain rfl : n = 0 := by
    rw [hcount] at hn
    exact Int.ofNat_eq_zero.mp hn.symm
  obtain ⟨r, hr, hsome⟩ := Option.map_eq_some_iff.mp hkey
  obtain ⟨v, rfl⟩ := Option.isSome_iff_exists.mp hsome
  have hmem : [107] ∈ eng₃.treeKeys := ⟨v, hr⟩
  rw [Set.encard_eq_zero.mp hcard] at hmem
  exact hmem

end Garry
