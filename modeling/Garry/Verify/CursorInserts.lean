import Garry.Verify.Isolation
import Garry.Verify.LeafPlace

/-!
# Cursors and insertions

A cursor between two entries stays between them, and what it has passed stays behind it, as long as no
insertion moves an entry that it has passed to its slot or beyond.
-/

namespace Garry

open ByteStore BPlusTree LeafChain

variable {lz4 : Lz4} {pfx : Bytes} {leaves : List Leaf} {passed ahead : List (Bytes × Bytes)}

/-! ## One call of the cursor -/

namespace Engine

variable {eng eng' : Engine} {L L' : Layout}

/-- `garry_storage_cursor_next` does not skip an entry with this descriptor. -/
def shows (lz4 : Lz4) (eng : Engine) (withValue : Bool) (txn : Int) (lookup : Bytes) : Bool :=
  match eng.entryVersion txn lookup with
  | none => false
  | some val => !withValue || (eng.cursorValue lz4 val).isSome

/-- Where `garry_storage_cursor_next` takes a cursor that is between entries. -/
inductive Lands (lz4 : Lz4) (eng : Engine) (withValue : Bool) (txn : Int) (pfx : Bytes)
    (leaves : List Leaf) (ahead : List (Bytes × Bytes)) :
    Option (Bytes × Option Bytes) → StorageCursor → Prop
  | none {cur : StorageCursor} :
    (∀ e ∈ withPrefix pfx ahead, eng.shows lz4 withValue txn e.2 = false) →
    cur.btreeCur.exhausted = true → cur.txn = txn →
    Lands lz4 eng withValue txn pfx leaves ahead none cur
  | some {cur : StorageCursor} {e : Bytes × Bytes} {value : Option Bytes}
    {passed' ahead' : List (Bytes × Bytes)} : e ∈ withPrefix pfx ahead →
    (∀ x ∈ withPrefix pfx ahead, eng.shows lz4 withValue txn x.2 = true →
      x = e ∨ x ∈ withPrefix pfx ahead') →
    ahead'.length < ahead.length → Between leaves cur.btreeCur passed' ahead' → e ∈ passed' →
    cur.txn = txn → cur.btreeCur.pfx = pfx →
    Lands lz4 eng withValue txn pfx leaves ahead (some (e.1, value)) cur

/-- An entry that is skipped. -/
theorem Lands.skip {withValue : Bool} {ahead' : List (Bytes × Bytes)} {e : Bytes × Bytes}
    {found : Option (Bytes × Option Bytes)} {cur : StorageCursor}
    (h : Lands lz4 eng withValue txn pfx leaves ahead' found cur)
    (hahead : withPrefix pfx ahead = e :: withPrefix pfx ahead')
    (hlt : ahead'.length < ahead.length) (he : eng.shows lz4 withValue txn e.2 = false) :
    Lands lz4 eng withValue txn pfx leaves ahead found cur := by
  cases h with
  | none h1 h2 h3 =>
    refine .none ?_ h2 h3
    rw [hahead]
    intro x hx
    rcases List.mem_cons.mp hx with rfl | hx
    · exact he
    · exact h1 x hx
  | some h1 h2 h3 h4 h5 h6 h7 =>
    refine .some ?_ ?_ (h3.trans hlt) h4 h5 h6 h7
    · rw [hahead]
      exact List.mem_cons_of_mem _ h1
    · rw [hahead]
      intro x hx hshow
      rcases List.mem_cons.mp hx with rfl | hx
      · rw [he] at hshow
        cases hshow
      · exact h2 x hx hshow

theorem cursorNextLoop_lands {cur : StorageCursor} (hl : Leaves eng.pool leaves)
    (h : Between leaves cur.btreeCur passed ahead) (withValue : Bool) (hfuel : ahead.length < fuel) :
    ∃ found cur', cursorNextLoop lz4 eng withValue fuel cur = some (found, cur') ∧
      Lands lz4 eng withValue cur.txn cur.btreeCur.pfx leaves ahead found cur' := by
  induction fuel generalizing cur passed ahead with
  | zero => exact absurd hfuel (Nat.not_lt_zero _)
  | succ fuel ih =>
    obtain ⟨found, btreeCur, heq, hmoves⟩ := h.next hl
    rw [cursorNextLoop, heq]
    cases hmoves with
    | none h1 h2 =>
      refine ⟨none, _, rfl, .none ?_ h2 rfl⟩
      rw [h1]
      exact fun e he => absurd he List.not_mem_nil
    | @some _ e passed' ahead' h1 h2 h3 h4 h5 h6 =>
      simp only
      rw [cursorVersion_of_passed h6]
      have hskip (he : eng.shows lz4 withValue cur.txn e.2 = false) :
          ∃ found cur', cursorNextLoop lz4 eng withValue fuel ⟨btreeCur, cur.txn⟩ =
            some (found, cur') ∧
            Lands lz4 eng withValue cur.txn cur.btreeCur.pfx leaves ahead found cur' := by
        have hnext : Between leaves (⟨btreeCur, cur.txn⟩ : StorageCursor).btreeCur passed' ahead' := h3
        obtain ⟨found, cur', heq', hlands⟩ := ih hnext (by omega)
        rw [h4] at hlands
        exact ⟨found, cur', heq', hlands.skip h1 h2 he⟩
      have hland (value : Option Bytes) :
          Lands lz4 eng withValue cur.txn cur.btreeCur.pfx leaves ahead (some (e.1, value))
            ⟨btreeCur, cur.txn⟩ := by
        refine .some ?_ ?_ h2 h3 h5 rfl h4
        · rw [h1]
          exact List.mem_cons_self
        · rw [h1]
          exact fun x hx _ => List.mem_cons.mp hx
      cases hv : eng.entryVersion cur.txn e.2 with
      | none =>
        apply hskip
        rw [shows, hv]
      | some val =>
        simp only
        cases withValue with
        | false => exact ⟨_, _, rfl, hland _⟩
        | true =>
          simp only [if_true]
          cases hval : eng.cursorValue lz4 val with
          | none =>
            apply hskip
            rw [shows, hv]
            simp [hval]
          | some value => exact ⟨_, _, rfl, hland _⟩

/-- `garry_storage_cursor_next` on a cursor between entries. -/
theorem cursorNext_lands (lz4 : Lz4) {cur : StorageCursor} (hl : Leaves eng.pool leaves)
    (h : Between leaves cur.btreeCur passed ahead) (withValue : Bool) :
    ∃ found cur', eng.cursorNext lz4 withValue cur = some (found, cur') ∧
      Lands lz4 eng withValue cur.txn cur.btreeCur.pfx leaves ahead found cur' := by
  rw [cursorNext, h.notExhausted, if_neg (by decide)]
  exact cursorNextLoop_lands hl h withValue (h.stands hl).length_lt

end Engine

/-! ## One insertion -/

section

variable {ps : Nat} {pages pages' : Int → PageBuffer}

theorem leavesAt_append (l l' : List (Int × Int)) :
    leavesAt ps pages (l ++ l') = leavesAt ps pages l ++ leavesAt ps pages l' := List.map_append

theorem leavesAt_congr {l : List (Int × Int)}
    (h : ∀ r ∈ l, nodeAt ps pages' r.1 = nodeAt ps pages r.1) :
    leavesAt ps pages' l = leavesAt ps pages l := by
  apply List.map_congr_left
  intro r hr
  rw [h r hr]

/-- The entries of the leaves that take the place of a leaf are its entries and the new one. -/
theorem leafEntries_takes {key v : Bytes} {m : List (Int × Int)} {es : List (Bytes × Bytes)}
    (hcut : m.map (fun r => (nodeAt ps pages' r.1).entries) = cutLeaf 2 key v es) :
    leafEntries (leavesAt ps pages' m) = SortedAssoc.insert key v es := by
  rw [leafEntries, leavesAt, List.flatMap_map, List.flatMap_def, hcut, cutLeaf]
  split
  · exact List.append_nil _
  · simp only [List.flatten_cons, List.flatten_nil, List.append_nil, List.take_append_drop]

theorem subset_insert {key : Bytes} {es : List (Bytes × Bytes)} (hnew : ∀ e ∈ es, e.1 ≠ key)
    (v : Bytes) : es ⊆ SortedAssoc.insert key v es := by
  rw [SortedAssoc.insert_eq_insertIdx hnew]
  intro e he
  exact (List.mem_insertIdx List.findIdx_le_length).mpr (.inr he)

theorem drop_insertIdx {α : Type} {l : List α} {i n : Nat} (hn : n ≤ i) (hi : i ≤ l.length) (x : α) :
    (l.insertIdx i x).drop n = (l.drop n).insertIdx (i - n) x := by
  induction n generalizing l i with
  | zero => rfl
  | succ n ih =>
    obtain ⟨i, rfl⟩ := Nat.exists_eq_add_of_lt (Nat.lt_of_lt_of_le (Nat.succ_pos n) hn)
    cases l with
    | nil => exact absurd hi (Nat.not_succ_le_zero _)
    | cons y l =>
      rw [Nat.zero_add] at hn hi ⊢
      rw [List.insertIdx_succ_cons, List.drop_succ_cons, List.drop_succ_cons, Nat.add_sub_add_right]
      exact ih (Nat.le_of_succ_le_succ hn) (Nat.le_of_succ_le_succ hi)

/-- The entries up to a slot stay when the new one is put there or behind. -/
theorem slot_insert {key : Bytes} {es : List (Bytes × Bytes)} {slot : Nat}
    (hnew : ∀ e ∈ es, e.1 ≠ key) (v : Bytes)
    (hslot : slot ≤ es.findIdx fun e => decide (key < e.1)) :
    (SortedAssoc.insert key v es).take slot = es.take slot ∧
      es.drop slot ⊆ (SortedAssoc.insert key v es).drop slot := by
  have hle := @List.findIdx_le_length _ (fun e => decide (key < e.1)) es
  rw [SortedAssoc.insert_eq_insertIdx hnew, drop_insertIdx hslot hle]
  refine ⟨List.take_insertIdx_eq_take_of_le _ _ _ _ hslot, fun e he => ?_⟩
  refine (List.mem_insertIdx ?_).mpr (.inr he)
  rw [List.length_drop]
  exact Nat.sub_le_sub_right hle slot

/-- The slot of a cursor at a leaf that takes a new key is not behind the place of the key, nor behind
the cut if the leaf is full. -/
structure SlotStays (es : List (Bytes × Bytes)) (key : Bytes) (slot : Nat) : Prop where
  place : slot ≤ es.findIdx fun e => decide (key < e.1)
  cut : 2 ≤ es.length → slot ≤ (es.length + 1) / 2

/-- A cursor at the leaf that takes a new key. -/
theorem between_takes {key v : Bytes} {a b m : List (Int × Int)} {p x : Int} {cur : BtreeCursor}
    (hm : LeafTakes (nodeAt ps pages) (nodeAt ps pages') p x m)
    (hcut : m.map (fun r => (nodeAt ps pages' r.1).entries) =
      cutLeaf 2 key v (nodeAt ps pages p).entries)
    (hnew : ∀ e ∈ (nodeAt ps pages p).entries, e.1 ≠ key)
    (hp : cur.currentPage = p) (hex : cur.exhausted = false) (hs : cur.savedKey = none)
    (hstays : SlotStays (nodeAt ps pages p).entries key cur.currentSlot) :
    ∃ rest, (nodeAt ps pages p).entries.drop cur.currentSlot ⊆ rest ∧
      Between (leavesAt ps pages' (a ++ (m ++ b))) cur
        (leafEntries (leavesAt ps pages' a) ++ (nodeAt ps pages p).entries.take cur.currentSlot)
        (rest ++ leafEntries (leavesAt ps pages' b)) := by
  obtain ⟨htake, hdrop⟩ := slot_insert hnew v hstays.place
  have hlen := SortedAssoc.length_insert_of_notMem (v := v) hnew
  generalize hall : SortedAssoc.insert key v (nodeAt ps pages p).entries = all
    at hcut htake hdrop hlen
  rw [cutLeaf, hall] at hcut
  rw [← htake, leavesAt_append]
  refine ⟨all.drop cur.currentSlot, hdrop, hex, hs, ?_⟩
  have hcount := congrArg List.length hcut
  cases hm with
  | alone =>
    have hes : (nodeAt ps pages' p).entries = all := by
      split at hcut
      · exact (List.cons.inj hcut).1
      · next hfew =>
        rw [if_neg hfew] at hcount
        exact absurd hcount (by simp)
    refine ⟨_, (p, nodeAt ps pages' p), leavesAt ps pages' b, rfl, hp, ?_, ?_⟩
    · rw [hes]
    · rw [hes]
  | split q hfull =>
    have hhalf : all.length / 2 = ((nodeAt ps pages p).entries.length + 1) / 2 := by rw [hlen]
    have hes : (nodeAt ps pages' p).entries = all.take (all.length / 2) ∧
        (nodeAt ps pages' q).entries = all.drop (all.length / 2) := by
      split at hcut
      · next hroom =>
        rw [if_pos hroom] at hcount
        exact absurd hcount (by simp)
      · obtain ⟨h1, h2⟩ := List.cons.inj hcut
        exact ⟨h1, (List.cons.inj h2).1⟩
    have hslot : cur.currentSlot ≤ all.length / 2 := hhalf ▸ hstays.cut hfull
    refine ⟨_, (p, nodeAt ps pages' p), (q, nodeAt ps pages' q) :: leavesAt ps pages' b, rfl, hp, ?_, ?_⟩
    · rw [hes.1, List.take_take, Nat.min_eq_left hslot]
    · rw [hes.1, leafEntries_cons, ← List.append_assoc, hes.2, List.drop_take]
      congr 1
      have hrest : (all.drop cur.currentSlot).drop (all.length / 2 - cur.currentSlot) =
          all.drop (all.length / 2) := by
        rw [List.drop_drop, Nat.add_sub_cancel' hslot]
      rw [← hrest, List.take_append_drop]

/-- An insertion keeps what a cursor has passed behind it and the other entries ahead, unless it is at
the leaf of the cursor and the slot does not stay. -/
theorem Between.insert {key v : Bytes} {a b m : List (Int × Int)} {p x : Int} {cur : BtreeCursor}
    (h : Between (leavesAt ps pages (a ++ (p, x) :: b)) cur passed ahead)
    (hm : LeafTakes (nodeAt ps pages) (nodeAt ps pages') p x m)
    (hother : ∀ r ∈ a ++ b, nodeAt ps pages' r.1 = nodeAt ps pages r.1)
    (hcut : m.map (fun r => (nodeAt ps pages' r.1).entries) =
      cutLeaf 2 key v (nodeAt ps pages p).entries)
    (hnew : ∀ e ∈ (nodeAt ps pages p).entries, e.1 ≠ key)
    (hstays : cur.currentPage = p → SlotStays (nodeAt ps pages p).entries key cur.currentSlot) :
    ∃ passed' ahead', Between (leavesAt ps pages' (a ++ (m ++ b))) cur passed' ahead' ∧
      passed ⊆ passed' ∧ ahead ⊆ ahead' := by
  obtain ⟨a₁, y, l, hl, hp, rfl, rfl⟩ := h.place
  have ha : leavesAt ps pages' a = leavesAt ps pages a :=
    leavesAt_congr fun r hr => hother r (List.mem_append_left b hr)
  have hb : leavesAt ps pages' b = leavesAt ps pages b :=
    leavesAt_congr fun r hr => hother r (List.mem_append_right a hr)
  have hes : (nodeAt ps pages p).entries ⊆ leafEntries (leavesAt ps pages' m) :=
    leafEntries_takes hcut ▸ subset_insert hnew v
  rw [leavesAt_append] at hl
  have hcons : leavesAt ps pages ((p, x) :: b) = (p, nodeAt ps pages p) :: leavesAt ps pages b := rfl
  rw [hcons] at hl
  have hat (hc : a₁ = leavesAt ps pages a) (hy : y = (p, nodeAt ps pages p))
      (hrest : l = leavesAt ps pages b) : ∃ passed' ahead',
      Between (leavesAt ps pages' (a ++ (m ++ b))) cur passed' ahead' ∧
        leafEntries a₁ ++ y.2.entries.take cur.currentSlot ⊆ passed' ∧
        y.2.entries.drop cur.currentSlot ++ leafEntries l ⊆ ahead' := by
    subst hc hy hrest
    obtain ⟨rest, hsub, hbetween⟩ := @between_takes ps pages pages' key v a b m p x cur hm hcut hnew hp
      h.notExhausted h.unsaved (hstays hp)
    rw [ha, hb] at hbetween
    exact ⟨_, _, hbetween, List.Subset.refl _, List.append_subset.mpr
      ⟨List.subset_append_of_subset_left _ hsub, List.subset_append_right _ _⟩⟩
  -- the leaf is that of the cursor, or stands before or behind it
  rcases List.append_eq_append_iff.mp hl with ⟨c, hc, hrest⟩ | ⟨c, hc, hrest⟩
  · cases c with
    | nil =>
      obtain ⟨hy, hl⟩ := List.cons.inj hrest
      exact hat (hc.trans (List.append_nil _)) hy.symm hl.symm
    | cons z c =>
      obtain ⟨rfl, hl⟩ := List.cons.inj hrest
      replace hl : leavesAt ps pages b = c ++ y :: l := hl
      refine ⟨_, _, ⟨h.notExhausted, h.unsaved, leavesAt ps pages' a ++ (leavesAt ps pages' m ++ c), y, l,
        ?_, hp, rfl, rfl⟩, ?_, List.Subset.refl _⟩
      · rw [leavesAt_append, leavesAt_append, hb, hl]
        simp only [List.append_assoc]
      · rw [hc, ha]
        simp only [leafEntries_append, leafEntries_cons]
        intro e he
        simp only [List.mem_append] at he ⊢
        rcases he with (he | he | he) | he
        · exact .inl (.inl he)
        · exact .inl (.inr (.inl (hes he)))
        · exact .inl (.inr (.inr he))
        · exact .inr he
  · cases c with
    | nil =>
      obtain ⟨hy, hl⟩ := List.cons.inj hrest
      exact hat (hc.trans (List.append_nil _)).symm hy hl
    | cons z c =>
      obtain ⟨rfl, hl⟩ := List.cons.inj hrest
      replace hl : l = c ++ (p, nodeAt ps pages p) :: leavesAt ps pages b := hl
      refine ⟨_, _, ⟨h.notExhausted, h.unsaved, a₁, y, c ++ (leavesAt ps pages' m ++ leavesAt ps pages' b),
        ?_, hp, rfl, rfl⟩, List.Subset.refl _, ?_⟩
      · rw [leavesAt_append, leavesAt_append, ha, hc]
        simp only [List.append_assoc, List.cons_append]
      · rw [hl, hb]
        simp only [leafEntries_append, leafEntries_cons]
        intro e he
        simp only [List.mem_append] at he ⊢
        rcases he with he | he | he | he
        · exact .inl he
        · exact .inr (.inl he)
        · exact .inr (.inr (.inl (hes he)))
        · exact .inr (.inr (.inr he))

end

/-! ## The calls -/

namespace Engine

variable {ps : Nat} {eng eng' : Engine} {L L' : Layout}

/-- A new key would move an entry that the cursor has passed to its slot or beyond: the key goes to the
leaf of the cursor, before the slot, or the leaf is full and is cut before the slot. -/
def displaces (eng : Engine) (cur : BtreeCursor) (key : Bytes) : Bool :=
  let node := loadNode eng.pool cur.currentPage
  let insertPos := node.keys.findIdx fun k => decide (byteCompare key k < 0)
  decide (leafPage eng.pool key eng.pool.fuel eng.btreeRoot = some cur.currentPage) &&
    decide (leafFind node key = none) &&
    (decide (insertPos < cur.currentSlot) ||
      decide (maxKeysPerNode - 1 ≤ node.entryCount) &&
        decide ((node.entryCount + 1) / 2 < cur.currentSlot))

/-- A set that inserts a key moves no entry that the cursor has passed. -/
def KeepsPassed (eng : Engine) (cur : BtreeCursor) : EngineOp → Prop
  | .set txn key _ => cur.exhausted = false → eng.accepts txn key = true →
    eng.displaces cur key = false
  | _ => True

/-- The leaves of the tree. -/
def leafList (eng : Engine) (L : Layout) : List Leaf :=
  leavesAt eng.pool.pageSize eng.pool.pages L.foot.links

theorem Inv.leafList (h : Inv ps eng L) :
    Leaves eng.pool (eng.leafList L) ∧ leafEntries (eng.leafList L) = L.root.toList :=
  h.pages.tree.readable.leaves

/-- What a call does to the tree keeps the cursor between what it has passed and what is ahead. -/
theorem TreeStep.between {key : Bytes} {cur : BtreeCursor} (h : Inv ps eng L) (h' : Inv ps eng' L')
    (ht : TreeStep ps eng eng' L L' key)
    (hin : L'.root.toList.length = L.root.toList.length ∨ eng.displaces cur key = false)
    (hb : Between (eng.leafList L) cur passed ahead) :
    ∃ passed' ahead', Between (eng'.leafList L') cur passed' ahead' ∧ passed ⊆ passed' ∧
      ahead ⊆ ahead' := by
  rw [Engine.leafList, h.pages.pageSize] at hb
  rw [Engine.leafList, h'.pages.pageSize]
  cases ht with
  | same _ _ hfoot hpages =>
    have heq : leavesAt ps eng'.pool.pages L.foot.links = leavesAt ps eng.pool.pages L.foot.links := by
      apply leavesAt_congr
      intro r hr
      simp only [nodeAt, hpages r.1 (h.pages.tree.repr.links_sub hr)]
    rw [hfoot, heq]
    exact ⟨_, _, hb, List.Subset.refl _, List.Subset.refl _⟩
  | insert v hnone hroot hls =>
    obtain ⟨hlen, a, p, x, b, m, hl, hl', hm, hother, hcut, hpage, hload, hfind⟩ :=
      h.placed h' hnone hroot hls
    replace hin := hin.resolve_left (by omega)
    rw [hl] at hb
    rw [hl']
    apply hb.insert hm hother hcut
    · intro e he heq
      rw [leafFind, List.findIdx?_eq_none_iff] at hfind
      have hne := hfind e.1 (List.mem_map_of_mem he)
      rw [heq] at hne
      simp [byteEqual] at hne
    · rintro rfl
      rw [displaces] at hin
      simp only [hload, hpage, hfind, findIdx_keys, BtreeNode.entryCount, decide_true, Bool.true_and,
        Bool.or_eq_false_iff, Bool.and_eq_false_iff, decide_eq_false_iff_not, not_lt] at hin
      obtain ⟨hplace, hcut'⟩ := hin
      exact ⟨hplace, fun hfull => hcut'.resolve_left (not_not.mpr hfull)⟩

/-- A call that moves no entry behind the cursor. -/
theorem Inv.call_between (h : Inv ps eng L) {op : EngineOp} {cur : BtreeCursor}
    (hs : eng.step lz4 op = some eng') (hp : Proper lz4 eng eng' op) (hkeep : eng.KeepsPassed cur op)
    (hb : Between (eng.leafList L) cur passed ahead) :
    ∃ L' passed' ahead', Inv ps eng' L' ∧ Between (eng'.leafList L') cur passed' ahead' ∧
      passed ⊆ passed' ∧ ahead ⊆ ahead' := by
  obtain ⟨L', key, hi, ht, hkeys⟩ := h.call_tree hs hp
  have hin : L'.root.toList.length = L.root.toList.length ∨ eng.displaces cur key = false := by
    rcases hkeys with hlen | ⟨txn, value, rfl, hacc⟩
    · exact .inl hlen
    · exact .inr (hkeep hb.notExhausted hacc)
  obtain ⟨passed', ahead', hb', hpassed, hahead⟩ := ht.between h hi hin hb
  exact ⟨L', passed', ahead', hi, hb', hpassed, hahead⟩

/-- A key that a transaction sees has an entry that is not skipped. -/
theorem Inv.shows_of_visible (h : Inv ps eng L) {key : Bytes}
    (hkey : key ∈ eng.visibleKeys lz4 txn) (withValue : Bool) :
    ∃ lookup, (key, lookup) ∈ L.root.toList ∧ eng.shows lz4 withValue txn lookup = true := by
  obtain ⟨value, hget⟩ := hkey
  rw [h.storageGet_eq] at hget
  split at hget
  · cases hget
  · obtain ⟨val, hread, hshown⟩ := Option.bind_eq_some_iff.mp (Option.some.inj hget)
    rw [← h.entryVersion, Option.bind_eq_some_iff] at hread
    obtain ⟨lookup, hlookup, hversion⟩ := hread
    refine ⟨lookup, SortedAssoc.mem_of_lookup hlookup, ?_⟩
    rw [shows, hversion]
    simp only
    rw [shown] at hshown
    rw [cursorValue]
    split at hshown
    · next hc =>
      obtain ⟨hdec, -⟩ := Option.filter_eq_some_iff.mp hshown
      rw [if_pos hc, hdec, Option.map_some, Option.isSome_some, Bool.or_true]
    · next hc => rw [if_neg hc, Option.isSome_some, Bool.or_true]

/-! ## Scans with calls in between -/

/-- A scan with calls in between: the engine, the cursor, the keys returned, and the keys that the
transaction has seen all the time since the cursor was opened. -/
inductive CursorRun (lz4 : Lz4) (ok : BtreeCursor → Engine → Engine → EngineOp → Prop) (txn : Int)
    (pfx : Bytes) (eng₀ : Engine) : Engine → StorageCursor → List Bytes → Set Bytes → Prop
  | opened {cur : StorageCursor} : eng₀.cursorOpen txn pfx = some cur →
    CursorRun lz4 ok txn pfx eng₀ eng₀ cur [] (eng₀.visibleKeys lz4 txn)
  | call {eng eng' : Engine} {cur : StorageCursor} {op : EngineOp} {returned : List Bytes}
    {seen : Set Bytes} : CursorRun lz4 ok txn pfx eng₀ eng cur returned seen →
    eng.step lz4 op = some eng' → ok cur.btreeCur eng eng' op →
    CursorRun lz4 ok txn pfx eng₀ eng' cur returned (seen ∩ eng'.visibleKeys lz4 txn)
  | next {eng : Engine} {cur cur' : StorageCursor} {withValue : Bool}
    {found : Option (Bytes × Option Bytes)} {returned : List Bytes} {seen : Set Bytes} :
    CursorRun lz4 ok txn pfx eng₀ eng cur returned seen →
    eng.cursorNext lz4 withValue cur = some (found, cur') →
    CursorRun lz4 ok txn pfx eng₀ eng cur' (returned ++ (found.map Prod.fst).toList) seen

/-- Proper calls that move no entry that the cursor has passed. -/
def ProperBeside (lz4 : Lz4) (cur : BtreeCursor) (eng eng' : Engine) (op : EngineOp) : Prop :=
  Proper lz4 eng eng' op ∧ eng.KeepsPassed cur op

/-- What a scan has returned, and what is left of the keys with the prefix that are seen. -/
inductive ScanState (eng : Engine) (L : Layout) (pfx : Bytes) (cur : BtreeCursor)
    (returned : List Bytes) (seen : Set Bytes) : Prop
  | exhausted : cur.exhausted = true → returned.Pairwise (· < ·) →
    (∀ key ∈ seen, pfx <+: key → key ∈ returned) → ScanState eng L pfx cur returned seen
  | between (passed ahead : List (Bytes × Bytes)) : Between (eng.leafList L) cur passed ahead →
    cur.pfx = pfx → returned.Pairwise (· < ·) → returned ⊆ passed.map Prod.fst →
    (∀ key ∈ seen, pfx <+: key → key ∈ returned ∨ key ∈ ahead.map Prod.fst) →
    ScanState eng L pfx cur returned seen

variable {cur cur' : StorageCursor} {returned : List Bytes} {seen : Set Bytes}

theorem Inv.scan_opened (h : Inv ps eng L) (hopen : eng.cursorOpen txn pfx = some cur) :
    ScanState eng L pfx cur.btreeCur [] (eng.visibleKeys lz4 txn) ∧ cur.txn = txn := by
  have htree := h.pages.tree.readable
  obtain ⟨a, x, b, hlinks, hloop, hsmall⟩ := @btreeCursorOpenLoop_repr _ pfx _ _ _ _ _ _ _ _ _ _
    htree.serves htree.repr htree.wf.ordered htree.wf.sized (fun hd => one_le_rootLow hd)
    (fun q hq => (htree.range q hq).1) htree.depth_lt
  obtain ⟨btreeCur, hbtree, rfl⟩ := Option.map_eq_some_iff.mp hopen
  cases hloop.symm.trans hbtree
  have hbetween : Between (eng.leafList L) ⟨pfx, false, none, x.1, 0, emptyNode, false⟩
      (leafEntries (leavesAt eng.pool.pageSize eng.pool.pages a))
      (leafEntries (leavesAt eng.pool.pageSize eng.pool.pages (x :: b))) := by
    refine ⟨rfl, rfl, leavesAt eng.pool.pageSize eng.pool.pages a,
      (x.1, nodeAt eng.pool.pageSize eng.pool.pages x.1),
      leavesAt eng.pool.pageSize eng.pool.pages b, ?_, rfl, (List.append_nil _).symm, rfl⟩
    rw [Engine.leafList, hlinks, leavesAt_append]
    rfl
  refine ⟨.between _ _ hbetween rfl .nil (List.nil_subset _) ?_, rfl⟩
  intro key hkey hpfx
  obtain ⟨lookup, hmem, -⟩ := h.shows_of_visible hkey false
  rw [← h.leafList.2, ← hbetween.append_eq] at hmem
  rcases List.mem_append.mp hmem with hmem | hmem
  · exact absurd (hsmall _ hmem) (List.IsPrefix.le hpfx)
  · exact .inr (List.mem_map_of_mem hmem)

/-- What a cursor has passed stays behind it when it moves on. -/
theorem passed_subset {passed' ahead' : List (Bytes × Bytes)}
    (heq : passed ++ ahead = passed' ++ ahead') (hlt : ahead'.length < ahead.length) :
    passed ⊆ passed' := by
  rcases List.append_eq_append_iff.mp heq with ⟨c, rfl, -⟩ | ⟨c, -, rfl⟩
  · exact List.subset_append_left _ _
  · rw [List.length_append] at hlt
    omega

theorem Inv.scan_next (h : Inv ps eng L) {withValue : Bool} {found : Option (Bytes × Option Bytes)}
    (hs : ScanState eng L pfx cur.btreeCur returned seen)
    (hseen : seen ⊆ eng.visibleKeys lz4 cur.txn)
    (hnext : eng.cursorNext lz4 withValue cur = some (found, cur')) :
    ScanState eng L pfx cur'.btreeCur (returned ++ (found.map Prod.fst).toList) seen ∧
      cur'.txn = cur.txn := by
  cases hs with
  | exhausted hex hsorted hall =>
    rw [cursorNext, if_pos hex] at hnext
    cases hnext
    simp only [Option.map_none, Option.toList_none, List.append_nil]
    exact ⟨.exhausted hex hsorted hall, trivial⟩
  | between passed ahead hb hpfx hsorted hsub hall =>
    obtain ⟨found', cur'', heq, hlands⟩ := eng.cursorNext_lands lz4 h.leafList.1 hb withValue
    cases heq.symm.trans hnext
    subst hpfx
    have hlist := hb.append_eq.trans h.leafList.2
    have hkeys := h.pages.tree.wf.sorted
    rw [← hlist] at hkeys
    -- a key ahead that is seen has an entry that is not skipped
    have hshown : ∀ key ∈ seen, cur.btreeCur.pfx <+: key → key ∈ ahead.map Prod.fst →
        ∃ lookup, (key, lookup) ∈ withPrefix cur.btreeCur.pfx ahead ∧
          eng.shows lz4 withValue cur.txn lookup = true := by
      intro key hkey hp hin
      obtain ⟨lookup, hmem, hshow⟩ := h.shows_of_visible (hseen hkey) withValue
      obtain ⟨e, he, rfl⟩ := List.mem_map.mp hin
      have hlook := hkeys.lookup_of_mem (hlist ▸ hmem)
      have hlook' := SortedAssoc.Sorted.lookup_of_mem hkeys (List.mem_append_right passed he)
      obtain rfl := Option.some.inj (hlook.symm.trans hlook')
      exact ⟨e.2, List.mem_filter.mpr ⟨he, prefixMatch_iff.mpr hp⟩, hshow⟩
    cases hlands with
    | none hnone hex htxn =>
      refine ⟨.exhausted hex ?_ ?_, htxn⟩
      · simpa using hsorted
      · intro key hkey hp
        simp only [Option.map_none, Option.toList_none, List.append_nil]
        apply (hall key hkey hp).resolve_right
        intro hin
        obtain ⟨lookup, hmem, hshow⟩ := hshown key hkey hp hin
        rw [hnone _ hmem] at hshow
        cases hshow
    | @some _ e value passed' ahead' hmem hfirst hlt hb' he htxn hpfx =>
      have hpassed : passed ⊆ passed' := passed_subset (hb.append_eq.trans hb'.append_eq.symm) hlt
      refine ⟨.between passed' ahead' hb' hpfx ?_ ?_ ?_, htxn⟩
      · simp only [Option.map_some, Option.toList_some]
        refine List.pairwise_append.mpr ⟨hsorted, List.pairwise_singleton _ _, ?_⟩
        intro key hkey last hlast
        obtain rfl := List.mem_singleton.mp hlast
        obtain ⟨x, hx, rfl⟩ := List.mem_map.mp (hsub hkey)
        exact (List.pairwise_append.mp hkeys).2.2 x hx e (List.mem_of_mem_filter hmem)
      · simp only [Option.map_some, Option.toList_some]
        refine List.append_subset.mpr ⟨List.Subset.trans hsub (List.map_subset _ hpassed), ?_⟩
        intro key hkey
        obtain rfl := List.mem_singleton.mp hkey
        exact List.mem_map_of_mem he
      · intro key hkey hp
        simp only [Option.map_some, Option.toList_some, List.mem_append, List.mem_singleton]
        rcases hall key hkey hp with hin | hin
        · exact .inl (.inl hin)
        · obtain ⟨lookup, hmem', hshow⟩ := hshown key hkey hp hin
          rcases hfirst _ hmem' hshow with heq | hrest
          · exact .inl (.inr (congrArg Prod.fst heq))
          · exact .inr (List.mem_map_of_mem (List.mem_of_mem_filter hrest))

/-- A scan between two calls. -/
theorem CursorRun.state {eng₀ : Engine}
    (hrun : CursorRun lz4 (ProperBeside lz4) txn pfx eng₀ eng cur returned seen)
    (h₀ : Inv ps eng₀ L) : ∃ L', Inv ps eng L' ∧
      ScanState eng L' pfx cur.btreeCur returned seen ∧ cur.txn = txn ∧
      seen ⊆ eng.visibleKeys lz4 txn := by
  induction hrun with
  | opened hopen =>
    obtain ⟨hstate, htxn⟩ := h₀.scan_opened hopen
    exact ⟨L, h₀, hstate, htxn, subset_rfl⟩
  | call _ hs hok ih =>
    obtain ⟨L₁, h₁, hstate, htxn, hseen⟩ := ih
    cases hstate with
    | exhausted hex hsorted hall =>
      obtain ⟨L₂, h₂, -⟩ := h₁.call hs hok.1
      exact ⟨L₂, h₂, .exhausted hex hsorted fun key hkey => hall key hkey.1, htxn,
        Set.inter_subset_right⟩
    | between passed ahead hb hpfx hsorted hsub hall =>
      obtain ⟨L₂, passed', ahead', h₂, hb', hpassed, hahead⟩ := h₁.call_between hs hok.1 hok.2 hb
      refine ⟨L₂, h₂, .between passed' ahead' hb' hpfx hsorted
        (List.Subset.trans hsub (List.map_subset _ hpassed)) ?_, htxn, Set.inter_subset_right⟩
      intro key hkey hp
      exact (hall key hkey.1 hp).imp_right fun hin => List.map_subset _ hahead hin
  | next _ hnext ih =>
    obtain ⟨L₁, h₁, hstate, rfl, hseen⟩ := ih
    obtain ⟨hstate', htxn⟩ := h₁.scan_next hstate hseen hnext
    exact ⟨L₁, h₁, hstate', htxn, htxn ▸ hseen⟩

/-! ## Scans that can be evaluated -/

instance (cur : BtreeCursor) (op : EngineOp) : Decidable (eng.KeepsPassed cur op) :=
  match op with
  | .set .. => inferInstanceAs (Decidable (_ → _ → _))
  | .begin => inferInstanceAs (Decidable True)
  | .delete .. => inferInstanceAs (Decidable True)
  | .commit _ => inferInstanceAs (Decidable True)
  | .rollback _ => inferInstanceAs (Decidable True)
  | .gc => inferInstanceAs (Decidable True)
  | .checkpoint => inferInstanceAs (Decidable True)
  | .evict _ => inferInstanceAs (Decidable True)
  | .frames _ => inferInstanceAs (Decidable True)

/-- A step of the cursor for each `none`, and a call that passes a check for each `some`. -/
def runScan (lz4 : Lz4) (check : BtreeCursor → Engine → Engine → EngineOp → Bool) (eng : Engine)
    (cur : StorageCursor) (returned : List Bytes) :
    List (Option EngineOp) → Option (Engine × StorageCursor × List Bytes)
  | [] => some (eng, cur, returned)
  | none :: ops =>
    (eng.cursorNext lz4 false cur).bind fun (found, cur) =>
      eng.runScan lz4 check cur (returned ++ (found.map Prod.fst).toList) ops
  | some op :: ops =>
    (eng.step lz4 op).bind fun eng' =>
      if check cur.btreeCur eng eng' op then eng'.runScan lz4 check cur returned ops else none

theorem CursorRun.runs {ok : BtreeCursor → Engine → Engine → EngineOp → Prop}
    {check : BtreeCursor → Engine → Engine → EngineOp → Bool} {eng₀ : Engine} {returned' : List Bytes}
    {ops : List (Option EngineOp)} (hrun : CursorRun lz4 ok txn pfx eng₀ eng cur returned seen)
    (hcheck : ∀ cur eng eng' op, check cur eng eng' op = true → ok cur eng eng' op)
    (h : eng.runScan lz4 check cur returned ops = some (eng', cur', returned')) :
    ∃ seen', CursorRun lz4 ok txn pfx eng₀ eng' cur' returned' seen' := by
  induction ops generalizing eng cur returned seen with
  | nil =>
    cases h
    exact ⟨seen, hrun⟩
  | cons op ops ih =>
    cases op with
    | none =>
      obtain ⟨⟨found, cur₁⟩, hnext, h⟩ := Option.bind_eq_some_iff.mp h
      exact ih (hrun.next hnext) h
    | some op =>
      obtain ⟨eng₁, hs, h⟩ := Option.bind_eq_some_iff.mp h
      split at h
      · next hp => exact ih (hrun.call hs (hcheck _ _ _ _ hp)) h
      · cases h

/-- The check of `ProperBeside`. -/
def isProperBeside (lz4 : Lz4) (cur : BtreeCursor) (eng eng' : Engine) (op : EngineOp) : Bool :=
  isProper lz4 eng eng' op && decide (eng.KeepsPassed cur op)

theorem properBeside_of_isProperBeside (cur : BtreeCursor) (eng eng' : Engine) (op : EngineOp)
    (h : isProperBeside lz4 cur eng eng' op = true) : ProperBeside lz4 cur eng eng' op := by
  obtain ⟨h1, h2⟩ := Bool.and_eq_true_iff.mp h
  exact ⟨proper_of_isProper h1, of_decide_eq_true h2⟩

/-! ## The order of the keys -/

/-- In a scan with calls in between that move no entry that the cursor has passed, the keys returned
increase, and when the cursor is exhausted each key with the prefix that was seen all the time has been
returned; the next call returns. -/
theorem cursorRun_increasing {eng₀ eng₁ : Engine} (h0 : Created ps eng₀)
    (hrun₀ : eng₀.Run lz4 (Proper lz4) eng₁)
    (hrun : CursorRun lz4 (ProperBeside lz4) txn pfx eng₁ eng cur returned seen) :
    returned.Pairwise (· < ·) ∧
      (cur.btreeCur.exhausted = true → ∀ key ∈ seen, pfx <+: key → returned.count key = 1) ∧
      ∀ withValue, (eng.cursorNext lz4 withValue cur).isSome = true := by
  obtain ⟨L, h₁⟩ := hrun₀.inv (fun _ _ _ h => h) h0.inv.1
  obtain ⟨L', h', hstate, -, -⟩ := hrun.state h₁
  cases hstate with
  | exhausted hex hsorted hall =>
    refine ⟨hsorted, fun _ key hkey hp => ?_, fun withValue => ?_⟩
    · exact List.count_eq_one_of_mem (hsorted.imp ne_of_lt) (hall key hkey hp)
    · rw [cursorNext, if_pos hex]
      rfl
  | between passed ahead hb hpfx hsorted hsub hall =>
    refine ⟨hsorted, fun hex => ?_, fun withValue => ?_⟩
    · rw [hb.notExhausted] at hex
      cases hex
    · obtain ⟨found, cur', heq, -⟩ := eng.cursorNext_lands lz4 h'.leafList.1 hb withValue
      rw [heq]
      rfl

/-- The key between the two splits the leaf behind the first one. -/
theorem cursorRun_increasing_split : ∃ (eng₀ eng₁ eng : Engine) (cur : StorageCursor) (seen : Set Bytes),
    Created 1024 eng₀ ∧ eng₀.Run .stored (Proper .stored) eng₁ ∧
    CursorRun .stored (ProperBeside .stored) 1 [] eng₁ eng cur [[1], [2], [3]] seen ∧
    ([[1], [2], [3]] : List Bytes).Pairwise (· < ·) := by
  have hscan : (newCalls [.begin, .set 1 [1] [], .set 1 [3] []]).bind (fun eng₁ =>
      (eng₁.cursorOpen 1 []).bind fun cur =>
        (eng₁.runScan .stored (isProperBeside .stored) cur []
          [none, some (.set 1 [2] []), none, none]).map fun r => r.2.2) =
      some [[1], [2], [3]] := by
    decide +kernel
  obtain ⟨eng₁, heng, hscan⟩ := Option.bind_eq_some_iff.mp hscan
  obtain ⟨cur₀, hopen, hscan⟩ := Option.bind_eq_some_iff.mp hscan
  obtain ⟨⟨eng, cur, returned⟩, hscan, rfl⟩ := Option.map_eq_some_iff.mp hscan
  obtain ⟨eng₀, h0, -, hrun₀⟩ := run_of_newCalls heng
  obtain ⟨seen, hrun⟩ := (CursorRun.opened hopen).runs properBeside_of_isProperBeside hscan
  exact ⟨eng₀, eng₁, eng, cur, seen, h0, hrun₀, hrun, (cursorRun_increasing h0 hrun₀ hrun).1⟩

/-- A key that is set before the one that the cursor has returned moves it to the slot of the cursor,
which returns it again. -/
theorem cursorRun_again : ∃ (eng₀ eng₁ eng : Engine) (cur : StorageCursor) (seen : Set Bytes),
    Created 1024 eng₀ ∧ eng₀.Run .stored (Proper .stored) eng₁ ∧
    CursorRun .stored (fun _ => Proper .stored) 1 [] eng₁ eng cur [[2], [2]] seen ∧
    ¬ ([[2], [2]] : List Bytes).Pairwise (· < ·) := by
  have hscan : (newCalls [.begin, .set 1 [2] []]).bind (fun eng₁ =>
      (eng₁.cursorOpen 1 []).bind fun cur =>
        (eng₁.runScan .stored (fun _ => isProper .stored) cur []
          [none, some (.set 1 [1] []), none]).map fun r => r.2.2) =
      some [[2], [2]] := by
    decide +kernel
  obtain ⟨eng₁, heng, hscan⟩ := Option.bind_eq_some_iff.mp hscan
  obtain ⟨cur₀, hopen, hscan⟩ := Option.bind_eq_some_iff.mp hscan
  obtain ⟨⟨eng, cur, returned⟩, hscan, rfl⟩ := Option.map_eq_some_iff.mp hscan
  obtain ⟨eng₀, h0, -, hrun₀⟩ := run_of_newCalls heng
  obtain ⟨seen, hrun⟩ := (CursorRun.opened hopen).runs
    (fun _ _ _ _ hp => proper_of_isProper hp) hscan
  exact ⟨eng₀, eng₁, eng, cur, seen, h0, hrun₀, hrun, by decide⟩

end Engine

end Garry
