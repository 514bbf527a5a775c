import Garry.Library.OrderWalk
import Garry.Model.ReadCalls
import Garry.Verify.CursorScan
import Garry.Verify.Descriptor
import Garry.Verify.OpenTransactions

/-!
# The calls that read

`garry_storage_data`, the default of a read, visits of the keys under a prefix and steps from key to
key tell the same about a database. The garbage collection changes none of it for an open
transaction.
-/

namespace Garry

open ByteStore BPlusTree OrderWalk

namespace Engine

variable {lz4 : Lz4} {ps : Nat} {eng eng' : Engine} {L L' : Layout} {key : Bytes}

/-! ## `garry_storage_data` -/

/-- What the tree holds for a key does not say that it has children. -/
theorem Sound.noChildren (h : Sound ps eng L) {v : Bytes} (hl : L.lookup key = some v) :
    (decodeDescriptor v.toBuffer lookupBufSize).2 = false := by
  obtain ⟨cid, rfl, hc⟩ := h.pages.entry hl
  have hr := h.pages.range hc
  have hn := h.next_le
  have hlen := encodeDescriptor_length_le cid false
  have hat := Bytes.toBuffer_standsAt (encodeDescriptor cid false)
  have hlen' : ((encodeDescriptor cid false).length : Int) ≤ lookupBufSize := by
    simp only [lookupBufSize]
    omega
  rw [decodeDescriptor_encodeDescriptor ⟨by omega, by omega⟩ hat hlen']

/-- The newest version on the chain page of a key that an id sees. -/
theorem Inv.mvccGet_keyChain (h : Inv ps eng L) (txn : Int) (hpos : 0 < key.length) :
    (eng.keyChain key).bind (eng.mvccGet txn) = (eng.store L).read txn key := by
  rw [h.keyChain_eq, if_neg (Nat.ne_of_gt hpos)]
  cases hl : L.lookup key with
  | none =>
    have hempty := h.pages.empty hl
    simp [Mvcc.State.read, store, hempty, chainOf, Mvcc.read, Mvcc.newest]
  | some v =>
    obtain ⟨h0, hc⟩ := h.toSound.lookup hl
    rw [Option.map_some, Option.filter_some, if_pos (decide_eq_true h0), Option.bind_some,
      h.toSound.mvccGet hc]

/-- `garry_storage_data` tells whether the store has a value of the key for the id, be that of an open
transaction or not. -/
theorem Inv.storageData (h : Inv ps eng L) (txn : Int) (hpos : 0 < key.length) :
    eng.storageData txn key =
      some (if ((eng.store L).read txn key).isSome then .hasValue else .notFound) := by
  rw [Engine.storageData, if_neg (Nat.ne_of_gt hpos), h.pages.search]
  cases hl : L.lookup key with
  | none =>
    have hempty := h.pages.empty hl
    simp [Mvcc.State.read, store, hempty, chainOf, Mvcc.read, Mvcc.newest]
  | some v =>
    obtain ⟨h0, hc⟩ := h.toSound.lookup hl
    have hno := h.toSound.noChildren hl
    simp only [Option.map_some, hno, Bool.false_eq_true, and_false, if_false]
    rw [if_neg (not_lt_of_ge h0), h.toSound.mvccGet hc]
    cases (eng.store L).read txn key with
    | none => rfl
    | some val => rfl

/-- The store has nothing for a key that is too long for the tree. -/
theorem Inv.read_of_long (h : Inv ps eng L) (hlong : maxKeySize < key.length) :
    (eng.store L).read txn key = none := by
  cases hl : L.lookup key with
  | none =>
    have hempty := h.pages.empty hl
    simp [Mvcc.State.read, store, hempty, chainOf, Mvcc.read, Mvcc.newest]
  | some v =>
    have hlen := (h.pages.keyLen _ (SortedAssoc.mem_of_lookup hl)).2
    simp only [maxKeySize] at hlong
    simp only at hlen
    omega

/-- `garry_storage_get` for every key. -/
theorem Inv.storageGet_key (lz4 : Lz4) (h : Inv ps eng L) (hact : eng.txnIsActive txn = true)
    (key : Bytes) :
    eng.storageGet lz4 txn key = some (if key.length = 0 then none
      else ((eng.store L).read txn key).bind (eng.shown lz4)) := by
  by_cases hkey : key.length = 0 ∨ key.length > maxKeySize
  · rw [Engine.storageGet, if_pos hkey]
    split
    · rfl
    next hpos => rw [h.read_of_long (hkey.resolve_left hpos), Option.bind_none]
  · rw [not_or] at hkey
    rw [if_neg hkey.1, h.storageGet (h.live_iff.mp hact) (by omega) (by omega)]

end Engine

open Engine in
/-- For every run: `garry_storage_data` never tells of children, and tells of a value exactly when the
chain page of the key has one for the id. For an open transaction it agrees with the other reads, and
a read with a default gives the value or, where there is none, the default. -/
theorem storageData_agrees {ps : Nat} {lz4 : Lz4} {eng₀ eng : Engine} (h0 : Created ps eng₀)
    (hrun : eng₀.Run lz4 (Proper lz4) eng) (txn : Int) (key : Bytes) :
    eng.storageData txn key =
      some (if ((eng.keyChain key).bind (eng.mvccGet txn)).isSome then .hasValue else .notFound) ∧
    (eng.txnIsActive txn = true →
      (eng.storageData txn key = some .hasValue ↔ eng.storageExists txn key = some true) ∧
      (eng₀.compression ≠ compressLz4 → ∀ dflt, dflt.length ≤ maxRecordSize →
        (eng.storageData txn key = some .hasValue → ∃ value,
          eng.storageGet lz4 txn key = some (some value) ∧
          eng.storageGetDefault lz4 txn key dflt = some (some value)) ∧
        (eng.storageData txn key = some .notFound →
          eng.storageGet lz4 txn key = some none ∧
          eng.storageGetDefault lz4 txn key dflt = some (some dflt)))) ∧
    (eng.txnIsActive txn = false → ∀ dflt, eng.storageGetDefault lz4 txn key dflt = some none) := by
  obtain ⟨L, hinv⟩ := hrun.inv (fun _ _ _ h => h) h0.inv.1
  refine ⟨?_, fun hact => ⟨?_, fun hraw dflt hlen => ?_⟩, fun hact dflt => ?_⟩
  · by_cases hpos : key.length = 0
    · rw [Engine.storageData, keyChain, if_pos hpos, if_pos hpos]
      rfl
    · rw [hinv.storageData txn (by omega), hinv.mvccGet_keyChain txn (by omega)]
  · by_cases hpos : key.length = 0
    · rw [Engine.storageData, Engine.storageExists, if_pos hpos, if_pos hpos]
      exact iff_of_false (by decide) (by decide)
    · rw [hinv.storageData txn (by omega), hinv.storageExists hact (by omega)]
      cases (eng.store L).read txn key with
      | none => exact iff_of_false (by decide) (by decide)
      | some val => exact iff_of_true rfl rfl
  · replace hraw : eng.compression ≠ compressLz4 := hrun.compression ▸ hraw
    have hget := hinv.storageGet_key lz4 hact key
    rw [storageGetDefault, hget]
    by_cases hpos : key.length = 0
    · rw [Engine.storageData, if_pos hpos, if_pos hpos]
      refine ⟨fun h => ?_, fun _ => ⟨rfl, ?_⟩⟩
      · cases h
      · rw [Option.map_some, if_neg (by rw [hact]; decide), if_neg (by omega)]
    · rw [hinv.storageData txn (by omega), if_neg hpos, shown_of_raw hraw, Option.bind_fun_some]
      cases (eng.store L).read txn key with
      | none =>
        refine ⟨fun h => ?_, fun _ => ⟨rfl, ?_⟩⟩
        · cases h
        · rw [Option.map_some, if_neg (by rw [hact]; decide), if_neg (by omega)]
      | some val =>
        refine ⟨fun _ => ⟨val, rfl, rfl⟩, fun h => ?_⟩
        cases h
  · have hget : eng.storageGet lz4 txn key = some none := by
      rw [Engine.storageGet, if_pos hact]
      split
      · rfl
      · rfl
    rw [storageGetDefault, hget, Option.map_some, if_pos hact]

open Engine in
/-- A key that an open transaction has set, and a default for one that it has not. -/
theorem storageData_agrees_set : ∃ eng₀ eng : Engine, Created 1024 eng₀ ∧
    eng₀.Run .stored (Proper .stored) eng ∧ eng.storageData 1 [7] = some .hasValue ∧
    eng.storageExists 1 [7] = some true ∧
    eng.storageGetDefault .stored 1 [8] [1, 2] = some (some [1, 2]) := by
  have hcalls : (newCalls [.begin, .set 1 [7] [5]]).map (fun eng =>
      (eng.txnIsActive 1, eng.storageData 1 [7], eng.storageData 1 [8])) =
        some (true, some .hasValue, some .notFound) := by
    decide +kernel
  obtain ⟨eng, heng, hc⟩ := Option.map_eq_some_iff.mp hcalls
  simp only [Prod.mk.injEq] at hc
  obtain ⟨hact, hdata, hnone⟩ := hc
  obtain ⟨eng₀, h0, hraw, hrun⟩ := run_of_newCalls heng
  obtain ⟨-, h7, -⟩ := storageData_agrees h0 hrun 1 [7]
  obtain ⟨-, h8, -⟩ := storageData_agrees h0 hrun 1 [8]
  obtain ⟨-, hdefault⟩ := (h8 hact).2 hraw [1, 2] (by decide)
  exact ⟨eng₀, eng, h0, hrun, hdata, (h7 hact).1.mp hdata, (hdefault hnone).2⟩

/-! ## Visits and steps -/

namespace Engine

variable {lz4 : Lz4} {ps : Nat} {eng eng' : Engine} {L L' : Layout} {r r' : Root Bytes Bytes}
  {f f' : Foot} {σ : Type}

/-- The visitor gets what is before the cursor, in order. -/
theorem forEachLoop_stands {cur : StorageCursor} (hraw : eng.compression ≠ compressLz4)
    (h : Stands eng.pool pfx cur.btreeCur es) (visitor : σ → Bytes → Option Bytes → σ) (userData : σ)
    (hfuel : es.length < fuel) :
    eng.forEachLoop lz4 visitor fuel cur userData =
      some ((eng.hits cur.txn (withPrefix pfx es)).foldl (fun d e => visitor d e.1 (some e.2))
        userData) := by
  induction fuel generalizing cur es userData with
  | zero => omega
  | succ fuel ih =>
    obtain ⟨found, cur', heq, hy⟩ := cursorNext_yields lz4 hraw h true
    rw [forEachLoop, heq]
    cases hy with
    | none h1 h2 =>
      rw [h1]
      rfl
    | some key val es' h1 h2 h3 h4 =>
      rw [h1, List.foldl_cons, ← h4]
      exact ih h3 _ (by omega)

theorem hits_withPrefix (eng : Engine) (txn : Int) (pfx : Bytes) (es : List (Bytes × Bytes)) :
    eng.hits txn (withPrefix pfx es) = (eng.hits txn es).filter fun e => prefixMatch e.1 pfx := by
  induction es with
  | nil => rfl
  | cons e es ih =>
    rw [withPrefix, List.filter_cons, ← withPrefix]
    cases hv : eng.entryVersion txn e.2 with
    | none =>
      rw [hits_cons_of_none hv, ← ih]
      split
      · exact hits_cons_of_none hv
      · rfl
    | some val =>
      rw [hits_cons_of_some hv, List.filter_cons, ← ih]
      split
      · exact hits_cons_of_some hv
      · rfl

/-- `garry_for_each`. -/
theorem Index.forEach (h : eng.Index r f) (lz4 : Lz4) (txn : Int) (pfx : Bytes)
    (visitor : σ → Bytes → Option Bytes → σ) (userData : σ) :
    eng.forEach lz4 txn pfx visitor userData =
      some ((eng.hits txn (withPrefix pfx r.toList)).foldl (fun d e => visitor d e.1 (some e.2))
        userData) := by
  obtain ⟨cur, es, hopen, rfl, hst, hes⟩ := h.cursorOpen txn pfx
  have hlt := hst.length_lt
  rw [Engine.forEach, hopen, Option.bind_some, forEachLoop_stands h.raw hst _ _ (by omega), hes]

/-- An open transaction steps through the keys that it sees, from the first one upwards. -/
theorem Index.walk (h : eng.Index r f) (lz4 : Lz4) (hact : eng.txnIsActive txn = true)
    {keys : List Bytes} (hs : keys.Pairwise (· < ·))
    (hkeys : ∀ key, key ∈ keys ↔ key ∈ eng.visibleKeys lz4 txn) :
    ∃ first, eng.storageFirst lz4 txn = some first ∧
      Walk (eng.storageNextKey lz4 txn) first keys := by
  obtain ⟨first, heq, hfirst⟩ := h.storageFirst lz4 hact
  refine ⟨first, heq, Walk.of_sorted hs hkeys hfirst fun key hkey => ?_⟩
  obtain ⟨value, hget⟩ := hkey
  refine h.storageNextKey lz4 hact ?_
  -- The empty key is not in the tree.
  apply Nat.pos_of_ne_zero
  intro hnil
  rw [Engine.storageGet, if_pos (.inl hnil)] at hget
  cases hget

/-- And from the last one downwards. -/
theorem Index.walk_reverse (h : eng.Index r f) (lz4 : Lz4) (hact : eng.txnIsActive txn = true)
    {keys : List Bytes} (hs : keys.Pairwise (· < ·))
    (hkeys : ∀ key, key ∈ keys ↔ key ∈ eng.visibleKeys lz4 txn) :
    Walk (eng.storagePrevKey lz4 txn) keys.getLast? keys.reverse :=
  Walk.of_sorted_reverse hs hkeys fun key _ => h.storagePrevKey lz4 hact key

end Engine

open Engine in
/-- For every run and every open transaction: a visit of the keys under a prefix, the steps of
`garry_storage_next_key` from `garry_storage_first` on and the steps of `garry_storage_prev_key` from
the last of the keys down all end, and pass the same keys, each once: those that `garry_storage_get`
finds, with the values it returns. -/
theorem forEach_walks {ps : Nat} {lz4 : Lz4} {eng₀ eng : Engine} (h0 : Created ps eng₀)
    (hraw : eng₀.compression ≠ compressLz4) (hrun : eng₀.Run lz4 (Proper lz4) eng)
    (hact : eng.txnIsActive txn = true) : ∃ found : List (Bytes × Bytes),
      (found.map Prod.fst).Pairwise (· < ·) ∧
      (∀ key value, (key, value) ∈ found ↔ eng.storageGet lz4 txn key = some (some value)) ∧
      (∀ (σ : Type) (visitor : σ → Bytes → Option Bytes → σ) (userData : σ) (pfx : Bytes),
        eng.forEach lz4 txn pfx visitor userData =
          some ((found.filter fun e => prefixMatch e.1 pfx).foldl
            (fun d e => visitor d e.1 (some e.2)) userData)) ∧
      (∃ first, eng.storageFirst lz4 txn = some first ∧
        Walk (eng.storageNextKey lz4 txn) first (found.map Prod.fst)) ∧
      Walk (eng.storagePrevKey lz4 txn) (found.map Prod.fst).getLast?
        (found.map Prod.fst).reverse := by
  obtain ⟨L, hinv⟩ := hrun.inv (fun _ _ _ h => h) h0.inv.1
  have hindex := hinv.index (hrun.compression ▸ hraw)
  have hsorted := hindex.pairwise_hits txn []
  rw [withPrefix_nil] at hsorted
  have hkeys (key : Bytes) : key ∈ (eng.hits txn L.root.toList).map Prod.fst ↔
      key ∈ eng.visibleKeys lz4 txn := hindex.mem_map_hits lz4 hact
  refine ⟨eng.hits txn L.root.toList, hsorted, fun key value => ?_, fun σ visitor userData pfx => ?_,
    hindex.walk lz4 hact hsorted hkeys, hindex.walk_reverse lz4 hact hsorted hkeys⟩
  · rw [← withPrefix_nil L.root.toList, hindex.mem_hits lz4 hact]
    exact and_iff_right List.nil_prefix
  · rw [hindex.forEach, hits_withPrefix]

open Engine in
/-- Two keys, visited under a prefix that one of them has. -/
theorem forEach_walks_two : ∃ eng₀ eng : Engine, Created 1024 eng₀ ∧
    eng₀.Run .stored (Proper .stored) eng ∧ ∃ found : List (Bytes × Bytes),
      ([8], [6]) ∈ found ∧ ([7, 1], [5]) ∈ found ∧
      Walk (eng.storagePrevKey .stored 1) (found.map Prod.fst).getLast?
        (found.map Prod.fst).reverse ∧
      eng.forEach .stored 1 [7] (fun n _ _ => n + 1) 0 =
        some ((found.filter fun e => prefixMatch e.1 [7]).foldl (fun n _ => n + 1) 0) := by
  have hcalls : (newCalls [.begin, .set 1 [8] [6], .set 1 [7, 1] [5]]).map (fun eng =>
      (eng.txnIsActive 1, eng.storageGet .stored 1 [8], eng.storageGet .stored 1 [7, 1])) =
        some (true, some (some [6]), some (some [5])) := by
    decide +kernel
  obtain ⟨eng, heng, hc⟩ := Option.map_eq_some_iff.mp hcalls
  simp only [Prod.mk.injEq] at hc
  obtain ⟨hact, h8, h7⟩ := hc
  obtain ⟨eng₀, h0, hraw, hrun⟩ := run_of_newCalls heng
  obtain ⟨found, -, hmem, hvisit, -, hwalk⟩ := forEach_walks h0 hraw hrun hact
  exact ⟨eng₀, eng, h0, hrun, found, (hmem _ _).mpr h8, (hmem _ _).mpr h7, hwalk,
    hvisit Nat (fun n _ _ => n + 1) 0 [7]⟩

/-! ## Engines that read alike -/

namespace Engine

variable {lz4 : Lz4} {ps : Nat} {eng eng' : Engine} {L L' : Layout} {op : EngineOp}

/-- The calls on a key tell what the store has for it. -/
theorem Inv.reads_eq (h : Inv ps eng L) (h' : Inv ps eng' L') (hact : eng.txnIsActive txn = true)
    (hact' : eng'.txnIsActive txn = true) (hc : eng'.compression = eng.compression)
    (hread : (eng'.store L').read txn key = (eng.store L).read txn key) :
    eng'.storageGet lz4 txn key = eng.storageGet lz4 txn key ∧
      eng'.storageExists txn key = eng.storageExists txn key ∧
      eng'.storageData txn key = eng.storageData txn key := by
  have hshown : eng'.shown lz4 = eng.shown lz4 := by
    funext val
    rw [shown, shown, hc]
  refine ⟨?_, ?_, ?_⟩
  · rw [h'.storageGet_key lz4 hact', h.storageGet_key lz4 hact, hread, hshown]
  · by_cases hpos : key.length = 0
    · rw [Engine.storageExists, Engine.storageExists, if_pos hpos, if_pos hpos]
    · rw [h'.storageExists hact' (by omega), h.storageExists hact (by omega), hread]
  · by_cases hpos : key.length = 0
    · rw [Engine.storageData, Engine.storageData, if_pos hpos, if_pos hpos]
    · rw [h'.storageData txn (by omega), h.storageData txn (by omega), hread]

/-- An open transaction of both engines reads the same from their stores, which have the same tree. -/
structure Alike (ps : Nat) (txn : Int) (eng eng' : Engine) (L L' : Layout) : Prop where
  inv : Inv ps eng L
  inv' : Inv ps eng' L'
  active : eng.txnIsActive txn = true
  active' : eng'.txnIsActive txn = true
  read : ∀ key, (eng'.store L').read txn key = (eng.store L).read txn key
  root : L'.root = L.root
  compression : eng'.compression = eng.compression

namespace Alike

variable (h : Alike ps txn eng eng' L L')

include h

theorem reads (lz4 : Lz4) (key : Bytes) :
    eng'.storageGet lz4 txn key = eng.storageGet lz4 txn key ∧
      eng'.storageExists txn key = eng.storageExists txn key ∧
      eng'.storageData txn key = eng.storageData txn key :=
  h.inv.reads_eq h.inv' h.active h.active' h.compression (h.read key)

theorem hits (hraw : eng.compression ≠ compressLz4) (pfx : Bytes) :
    eng'.hits txn (withPrefix pfx L'.root.toList) = eng.hits txn (withPrefix pfx L.root.toList) := by
  have hindex := h.inv.index hraw
  have hindex' := h.inv'.index (h.compression ▸ hraw)
  have hget (e : Bytes × Bytes) (he : e ∈ L.root.toList) :
      eng'.entryVersion txn e.2 = eng.entryVersion txn e.2 := by
    have heq : eng'.storageGet .stored txn e.1 = eng.storageGet .stored txn e.1 :=
      (h.reads .stored e.1).1
    have hl := h.inv.pages.tree.wf.sorted.lookup_of_mem he
    rw [hindex.storageGet h.active, hindex'.storageGet h.active', h.root, hl] at heq
    exact Option.some.inj heq
  rw [h.root]
  apply List.filterMap_congr
  intro e he
  rw [hget e (List.mem_filter.mp he).1]

theorem visibleKeys (lz4 : Lz4) : eng'.visibleKeys lz4 txn = eng.visibleKeys lz4 txn := by
  ext key
  rw [Engine.visibleKeys, Engine.visibleKeys, Set.mem_ofPred_eq, Set.mem_ofPred_eq,
    (h.reads lz4 key).1]

theorem storageFirst (hraw : eng.compression ≠ compressLz4) :
    eng'.storageFirst lz4 txn = eng.storageFirst lz4 txn := by
  obtain ⟨found, heq, hfound⟩ := (h.inv.index hraw).storageFirst lz4 h.active
  obtain ⟨found', heq', hfound'⟩ :=
    (h.inv'.index (h.compression ▸ hraw)).storageFirst lz4 h.active'
  rw [heq, heq', Option.some.injEq]
  apply Option.ext
  intro key
  rw [hfound, hfound', h.visibleKeys]

theorem storageNextKey (hraw : eng.compression ≠ compressLz4) (after : Bytes) :
    eng'.storageNextKey lz4 txn after = eng.storageNextKey lz4 txn after := by
  by_cases hpos : after.length = 0
  · rw [Engine.storageNextKey, Engine.storageNextKey, if_pos hpos, if_pos hpos]
    split
    · split <;> rfl
    · split <;> rfl
  have hafter := Nat.pos_of_ne_zero hpos
  obtain ⟨found, heq, hfound⟩ := (h.inv.index hraw).storageNextKey lz4 h.active hafter
  obtain ⟨found', heq', hfound'⟩ :=
    (h.inv'.index (h.compression ▸ hraw)).storageNextKey lz4 h.active' hafter
  rw [heq, heq', Option.some.injEq]
  apply Option.ext
  intro key
  rw [hfound, hfound', h.visibleKeys]

theorem storagePrevKey (hraw : eng.compression ≠ compressLz4) (before : Bytes) :
    eng'.storagePrevKey lz4 txn before = eng.storagePrevKey lz4 txn before := by
  obtain ⟨found, heq, hfound⟩ := (h.inv.index hraw).storagePrevKey lz4 h.active before
  obtain ⟨found', heq', hfound'⟩ :=
    (h.inv'.index (h.compression ▸ hraw)).storagePrevKey lz4 h.active' before
  rw [heq, heq', Option.some.injEq]
  apply Option.ext
  intro key
  rw [hfound, hfound', h.visibleKeys]

theorem forEach (hraw : eng.compression ≠ compressLz4) (visitor : σ → Bytes → Option Bytes → σ)
    (userData : σ) (pfx : Bytes) :
    eng'.forEach lz4 txn pfx visitor userData = eng.forEach lz4 txn pfx visitor userData := by
  rw [(h.inv'.index (h.compression ▸ hraw)).forEach, (h.inv.index hraw).forEach, h.hits hraw]

end Alike

end Engine

/-! ## Sweeps -/

namespace Engine

variable {lz4 : Lz4} {ps : Nat} {eng eng' : Engine} {L : Layout} {op : EngineOp}

/-- A sweep leaves what an open transaction reads. -/
theorem Inv.sweeps (h : Inv ps eng L) (hop : op = .gc ∨ op = .checkpoint)
    (hs : eng.step lz4 op = some eng') (hact : eng.txnIsActive txn = true) :
    ∃ L', Alike ps txn eng eng' L L' := by
  have hlive := h.live_iff.mp hact
  have hne : op ≠ .begin := by
    rcases hop with rfl | rfl
    · intro he
      cases he
    · intro he
      cases he
  have hcompression := (logs_step hne hs).compression
  have alike {eng' : Engine} {L' : Layout} (hi : Inv ps eng' L')
      (hpr : Mvcc.Pruned (eng.store L) (eng'.store L')) (ht : L'.root = L.root)
      (hc : eng'.compression = eng.compression) : Alike ps txn eng eng' L L' :=
    ⟨h, hi, hact, hi.live_iff.mpr (hpr.live.mpr hlive), hpr.read h.mvcc hlive, ht, hc⟩
  rcases hop with rfl | rfl
  · obtain ⟨eng₁, L', hgc, hi, hpr, ht⟩ := h.gc
    obtain rfl := Option.some.inj (hgc.symm.trans hs)
    exact ⟨L', alike hi hpr ht.root hcompression⟩
  · obtain ⟨lsn, eng₁, L', hgc, hi, hpr, ht⟩ := h.checkpoint
    rw [Engine.step, hgc] at hs
    obtain rfl := Option.some.inj hs
    exact ⟨L', alike hi hpr ht.root hcompression⟩

end Engine

end Garry
