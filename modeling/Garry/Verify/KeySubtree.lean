import Garry.Verify.CursorScan
import Garry.Verify.KeyTuple

/-!
# Subtrees of keys

A cursor that is opened on the encoding of a tuple returns the keys of the tuples that begin with
it.
-/

namespace Garry

open ByteStore BPlusTree LeafChain

variable {pool : Pool} {pfx : Bytes} {s t : KeyTuple}

/-- The cursor returns the keys, one with each `garry_btree_cursor_next`, and then no more. -/
inductive Drains (pool : Pool) : BtreeCursor → List Bytes → Prop
  | done {cur cur' : BtreeCursor} : btreeCursorNext pool cur = some (none, cur') →
    Drains pool cur []
  | step {cur cur' : BtreeCursor} {key : Bytes} {keys : List Bytes} :
    btreeCursorNext pool cur = some (some key, cur') → Drains pool cur' keys →
    Drains pool cur (key :: keys)

/-- A cursor returns the keys with its prefix that are before it. -/
theorem Stands.drains {cur : BtreeCursor} {es : List (Bytes × Bytes)}
    (h : Stands pool pfx cur es) : Drains pool cur ((withPrefix pfx es).map Prod.fst) := by
  induction hn : es.length using Nat.strong_induction_on generalizing cur es with
  | _ n ih =>
    obtain ⟨found, cur', hnext, hadv⟩ := h.next
    cases hadv with
    | none hnil _ =>
      rw [hnil]
      exact .done hnext
    | some e es' heq hlt hst _ =>
      rw [heq]
      exact .step hnext (ih _ (hn ▸ hlt) hst rfl)

/-- The keys of a tree are those that its search finds. -/
theorem Readable.drains {valueMax : Nat} {root : Int} {r : Root Bytes Bytes} {f : Foot}
    (h : Readable valueMax pool root r f) (pfx : Bytes) :
    ∃ cur keys, btreeCursorOpen pool root pfx = some cur ∧ Drains pool cur keys ∧
      ∀ key, key ∈ keys ↔ pfx <+: key ∧ ∃ v, leafFindSearch pool root key = some (some v) := by
  obtain ⟨cur, es, hopen, hst, hes⟩ := h.open pfx
  refine ⟨cur, _, hopen, hst.drains, fun key => ?_⟩
  rw [hes, List.mem_map]
  constructor
  · rintro ⟨e, he, rfl⟩
    obtain ⟨hmem, hp⟩ := List.mem_filter.mp he
    refine ⟨prefixMatch_iff.mp hp, e.2, ?_⟩
    rw [h.search, h.wf.sorted.lookup_of_mem hmem]
  · rintro ⟨hp, v, hv⟩
    rw [h.search] at hv
    exact ⟨(key, v), List.mem_filter.mpr
      ⟨SortedAssoc.mem_of_lookup (Option.some.inj hv), prefixMatch_iff.mpr hp⟩, rfl⟩

open Engine in
/-- Byte prefixes are tuple prefixes; a cursor on the encoding of a tuple returns the keys in its
subtree, and a scan those of them that the transaction sees. -/
theorem keyTuple_subtree (hs : (encodeKeyTuple s).length ≤ maxKeySize) :
    (∀ t : KeyTuple, (encodeKeyTuple t).length ≤ maxKeySize →
      (hasPrefix (encodeKeyTuple t) (encodeKeyTuple s) = true ↔ s <+: t)) ∧
    ∀ (ps : Nat) (lz4 : Lz4) (eng₀ eng : Engine), Created ps eng₀ →
      eng₀.Run lz4 (Proper lz4) eng →
      (∃ cur keys, btreeCursorOpen eng.pool eng.btreeRoot (encodeKeyTuple s) = some cur ∧
        Drains eng.pool cur keys ∧
        ∀ t : KeyTuple, (encodeKeyTuple t).length ≤ maxKeySize →
          (encodeKeyTuple t ∈ keys ↔ s <+: t ∧
            ∃ v, leafFindSearch eng.pool eng.btreeRoot (encodeKeyTuple t) = some (some v))) ∧
      ∀ txn, eng₀.compression ≠ compressLz4 → eng.txnIsActive txn = true →
        ∃ cur found, eng.cursorOpen txn (encodeKeyTuple s) = some cur ∧ eng.Scans lz4 cur found ∧
          ∀ (t : KeyTuple) (value : Option Bytes), (encodeKeyTuple t).length ≤ maxKeySize →
            ((encodeKeyTuple t, value) ∈ found ↔ s <+: t ∧ ∃ v, value = some v ∧
              eng.storageGet lz4 txn (encodeKeyTuple t) = some (some v)) := by
  have hbegins (t : KeyTuple) (ht : (encodeKeyTuple t).length ≤ maxKeySize) :
      encodeKeyTuple s <+: encodeKeyTuple t ↔ s <+: t :=
    encodeKeyTuple_prefix (short_of_length hs) (short_of_length ht)
  refine ⟨fun t ht => List.isPrefixOf_iff_prefix.trans (hbegins t ht),
    fun ps lz4 eng₀ eng h0 hrun => ?_⟩
  obtain ⟨L, hinv⟩ := hrun.inv (fun _ _ _ h => h) h0.inv.1
  refine ⟨?_, fun txn hraw hact => ?_⟩
  · obtain ⟨cur, keys, hopen, hdrains, hkeys⟩ :=
      hinv.pages.tree.readable.drains (encodeKeyTuple s)
    refine ⟨cur, keys, hopen, hdrains, fun t ht => ?_⟩
    rw [hkeys, hbegins t ht]
  · obtain ⟨cur, found, hopen, hscan, -, hmem⟩ :=
      (hinv.index (hrun.compression ▸ hraw)).scan lz4 hact (encodeKeyTuple s)
    refine ⟨cur, found, hopen, hscan, fun t value ht => ?_⟩
    rw [hmem, hbegins t ht]

/-- The key of `ab` is no child of the key of `a`. -/
theorem keyTuple_subtree_sibling :
    ¬ hasPrefix (encodeKeyTuple [[97, 98]]) (encodeKeyTuple [[97]]) = true := by
  rw [(keyTuple_subtree (s := [[97]]) (by decide)).1 [[97, 98]] (by decide)]
  decide

end Garry
