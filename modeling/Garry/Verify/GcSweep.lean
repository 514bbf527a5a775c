import Garry.Verify.Api

/-!
# The sweep of the garbage collection

`garry_mvcc_gc` visits the pages below `total_pages`, which is set when the database is created,
opened or closed; pages are handed out from a counter of the pool.
-/

namespace Garry

open ByteStore

namespace Engine

variable {eng eng' : Engine} {L L' : Layout} {key : Bytes}

/-- The page holds one record, the newest of those that it held. -/
def OnlyNewest (ps : Nat) (buf buf' : PageBuffer) : Prop :=
  pageRecordCount buf' = 1 ∧
    ∃ n : Nat, pageRecordCount buf = n + 1 ∧ pageGet buf' 0 ps = pageGet buf n ps

/-- The sweep leaves one record on the page: there is one already, or the page is in the range of the
sweep. -/
def SweepReaches (eng : Engine) (cid : Int) : Prop :=
  pageRecordCount (eng.pool.pages cid) = 1 ∨
    1 < pageRecordCount (eng.pool.pages cid) ∧ cid < eng.header.totalPages

theorem Inv.keyChain_eq (h : Inv ps eng L) (key : Bytes) : eng.keyChain key =
    if key.length = 0 then none
    else ((L.lookup key).map fun lookup => decodeCidFromDescriptor lookup.toBuffer).filter
      fun cid => 0 ≤ cid := by
  rw [keyChain, h.pages.search]
  rfl

theorem Inv.own_of_keyChain (h : Inv ps eng L) (hc : eng.keyChain key = some cid) :
    L.own cid = some (.chain key) := by
  rw [h.keyChain_eq] at hc
  split at hc
  · cases hc
  obtain ⟨hc, -⟩ := Option.filter_eq_some_iff.mp hc
  obtain ⟨lookup, hl, rfl⟩ := Option.map_eq_some_iff.mp hc
  exact (h.toSound.lookup hl).2

/-- With no transaction active a pruning keeps the last record. -/
theorem keptRecords_idle (recs : List Bytes) : keptRecords [] recs = recs.getLast?.toList := by
  have hno : (recs.dropLast.filter fun x => pruneVisible [] (readVersion x)) = [] := by
    rw [List.filter_eq_nil_iff]
    intro x _
    exact Bool.false_ne_true
  rw [keptRecords, hno, List.nil_append]

theorem onlyNewest_pruned {buf buf' : PageBuffer} {recs : List Bytes} (H : Holds ps buf recs)
    (H' : Holds ps buf' (keptRecords [] recs)) : OnlyNewest ps buf buf' ↔ 0 < pageRecordCount buf := by
  rw [keptRecords_idle] at H'
  rw [OnlyNewest, pageRecordCount, pageRecordCount, H.count, H'.count]
  rcases recs.eq_nil_or_concat' with rfl | ⟨init, r, rfl⟩
  · refine iff_of_false (fun h => ?_) (Int.lt_irrefl 0)
    cases h.1
  rw [List.getLast?_concat] at H' ⊢
  refine iff_of_true ⟨rfl, init.length, by simp, ?_⟩ (by simp)
  rw [pageGet_eq H', pageGet_eq H]
  simp

theorem onlyNewest_same {buf : PageBuffer} : OnlyNewest ps buf buf ↔ pageRecordCount buf = 1 := by
  constructor
  · intro h
    exact h.1
  · intro h
    exact ⟨h, 0, h, rfl⟩

/-- The sweep over one chain page. -/
theorem Inv.onlyNewest (h : Inv ps eng L) (hidle : eng.activeTxns = [])
    (hs : Swept ps {p | ∃ pid ∈ List.range' 1 (eng.header.totalPages - 1).toNat, (pid : Int) = p}
      eng eng' L L') (hc : L.own cid = some (.chain key)) (hres : eng.pool.env.resident cid) :
    OnlyNewest ps (eng.pool.pages cid) (eng'.pool.pages cid) ↔ eng.SweepReaches cid := by
  obtain ⟨recs, H, -⟩ := (h.pages.chain hc).2.records
  have hcid : 0 < cid := by
    have hne : cid ≠ headerPage := by
      rintro rfl
      rw [h.pages.header] at hc
      cases hc
    have hle := (h.pages.range hc).1
    simp only [headerPage] at hne
    omega
  rw [SweepReaches]
  by_cases hlt : cid < eng.header.totalPages
  · have hpruned := hs.pruned hc ⟨cid.toNat, List.mem_range'_1.mpr (by omega), by omega⟩ hres H
    rw [hidle] at hpruned
    rw [onlyNewest_pruned H hpruned]
    omega
  · have hout : eng'.pool.pages cid = eng.pool.pages cid := by
      refine hs.other hc ?_
      rintro ⟨⟨pid, hpid, rfl⟩, -⟩
      have hrange := List.mem_range'_1.mp hpid
      omega
    rw [hout, onlyNewest_same]
    omega

end Engine

open Engine in
/-- For every state of a session that starts with a database in order: with no transaction active, the
sweep leaves on every chain page in the pool its newest version and nothing else exactly when every
such page has one version already, or has more and its id is below `total_pages`. -/
theorem mvccGc_onlyNewest {lz4 : Lz4} {eng₀ eng : Engine} {L : Layout} (h0 : Inv ps eng₀ L)
    (hrun : eng₀.Run lz4 (Proper lz4) eng) (hidle : eng.activeTxns = []) :
    ∃ eng', eng.mvccGc = some eng' ∧
      ((∀ key cid, eng'.keyChain key = some cid → eng'.pool.env.resident cid →
          OnlyNewest ps (eng.pool.pages cid) (eng'.pool.pages cid)) ↔
        ∀ key cid, eng.keyChain key = some cid → eng.pool.env.resident cid →
          eng.SweepReaches cid) := by
  obtain ⟨L₁, h₁⟩ := hrun.inv (fun _ _ _ h => h) h0
  obtain ⟨eng', L', hgc, h', -, htree, hs⟩ := h₁.sweep _ List.nodup_range'
  refine ⟨eng', hgc, ?_⟩
  have hkeys (key : Bytes) : eng'.keyChain key = eng.keyChain key := by
    rw [h'.keyChain_eq, h₁.keyChain_eq, Layout.lookup, Layout.lookup, htree.root]
  have hpage {key : Bytes} {cid : Int} (hc : eng.keyChain key = some cid)
      (hres : eng.pool.env.resident cid) :=
    h₁.onlyNewest hidle hs (h₁.own_of_keyChain hc) hres
  constructor
  · intro h key cid hc hres
    exact (hpage hc hres).mp (h key cid ((hkeys key).trans hc) (hs.env ▸ hres))
  · intro h key cid hc hres
    rw [hkeys] at hc
    rw [hs.env] at hres
    exact (hpage hc hres).mpr (h key cid hc hres)

/-- A committed value. -/
def oneVersion : Option Engine := Engine.newCalls [.begin, .set 1 [107] [1], .commit 1]

theorem oneVersion_pages : oneVersion.map (fun eng => (eng.activeTxns, eng.pool.nextPage,
    ([0, 1] : List Int).all fun p =>
      readInt32 (eng.pool.pages p) pageHdrOffType ≠ NodeKind.chain.code,
    pageRecordCount (eng.pool.pages 2))) = some ([], 3, true, 1) := by
  decide +kernel

open Engine in
theorem mvccGc_onlyNewest_one : ∃ eng eng' : Engine, oneVersion = some eng ∧
    eng.mvccGc = some eng' ∧
    ∀ key cid, eng'.keyChain key = some cid → eng'.pool.env.resident cid →
      OnlyNewest 1024 (eng.pool.pages cid) (eng'.pool.pages cid) := by
  obtain ⟨eng, heng, hf⟩ := Option.map_eq_some_iff.mp oneVersion_pages
  simp only [Prod.mk.injEq] at hf
  obtain ⟨hidle, hnext, htree, hcount⟩ := hf
  obtain ⟨eng₀, h0, -, hrun⟩ := run_of_newCalls heng
  obtain ⟨eng', hgc, hiff⟩ := mvccGc_onlyNewest h0.inv.1 hrun hidle
  refine ⟨eng, eng', heng, hgc, hiff.mpr fun key cid hc _ => .inl ?_⟩
  obtain ⟨L, h⟩ := hrun.inv (fun _ _ _ h => h) h0.inv.1
  have hown := h.own_of_keyChain hc
  have hkind := (h.pages.chain hown).2.kind
  have hrange := h.pages.range hown
  rw [hnext] at hrange
  have hne : ∀ p ∈ ([0, 1] : List Int), cid ≠ p := by
    rintro p hp rfl
    exact of_decide_eq_true (List.all_eq_true.mp htree cid hp) hkind
  have hne0 := hne 0 (by simp)
  have hne1 := hne 1 (by simp)
  obtain rfl : cid = 2 := by omega
  exact hcount

/-- Two committed values of one key. -/
def twoVersions : Option Engine := Engine.newCalls
  [.begin, .set 1 [107] [1], .commit 1, .begin, .set 2 [107] [2], .commit 2]

theorem twoVersions_gc : (twoVersions.bind fun eng => eng.mvccGc.map fun eng' =>
    (eng.activeTxns, eng'.keyChain [107], eng'.pool.env.resident 2,
      pageRecordCount (eng'.pool.pages 2))) = some ([], some 2, true, 2) := by
  decide +kernel

open Engine in
/-- The first chain page of a new database is not below `total_pages`: both versions stay. -/
theorem mvccGc_twoVersions : ∃ eng₀ eng eng' : Engine, Created 1024 eng₀ ∧
    eng₀.Run .stored (Proper .stored) eng ∧ eng.activeTxns = [] ∧ eng.mvccGc = some eng' ∧
    eng'.keyChain [107] = some 2 ∧ eng'.pool.env.resident 2 ∧
    ¬ OnlyNewest 1024 (eng.pool.pages 2) (eng'.pool.pages 2) := by
  obtain ⟨eng, heng, hf⟩ := Option.bind_eq_some_iff.mp twoVersions_gc
  obtain ⟨eng', hgc, hf⟩ := Option.map_eq_some_iff.mp hf
  simp only [Prod.mk.injEq] at hf
  obtain ⟨hidle, hkey, hres, hcount⟩ := hf
  obtain ⟨eng₀, h0, -, hrun⟩ := run_of_newCalls heng
  refine ⟨eng₀, eng, eng', h0, hrun, hidle, hgc, hkey, hres, fun h => ?_⟩
  rw [h.1] at hcount
  cases hcount

end Garry
