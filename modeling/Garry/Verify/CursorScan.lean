import Garry.Model.Cursor
import Garry.Verify.EngineHistory
import Garry.Verify.LeafScan

/-!
# Scans

A cursor stands before the entries that it has not passed yet. `garry_btree_cursor_next` moves it
behind the first of them with the prefix, `garry_storage_cursor_next` behind the first of these
that is visible.
-/

namespace Garry

open ByteStore BPlusTree LeafChain

variable {pool : Pool} {pfx : Bytes} {lz4 : Lz4}

/-! ## The cursor of the tree -/

/-- The entries with the prefix. -/
def withPrefix (pfx : Bytes) (es : List (Bytes × Bytes)) : List (Bytes × Bytes) :=
  es.filter fun e => prefixMatch e.1 pfx

theorem withPrefix_append (es es' : List (Bytes × Bytes)) :
    withPrefix pfx (es ++ es') = withPrefix pfx es ++ withPrefix pfx es' := List.filter_append ..

@[simp] theorem withPrefix_nil (es : List (Bytes × Bytes)) : withPrefix [] es = es :=
  List.filter_eq_self.mpr fun _ _ => rfl

/-- The cursor stands before the entries `es`. -/
inductive Stands (pool : Pool) (pfx : Bytes) (cur : BtreeCursor) :
    List (Bytes × Bytes) → Prop
  | exhausted : cur.exhausted = true → Stands pool pfx cur []
  | leaf (x : Leaf) (l : List Leaf) : cur.exhausted = false → cur.savedKey = none → cur.pfx = pfx →
    cur.currentPage = x.1 → Leaves pool (x :: l) →
    Stands pool pfx cur (x.2.entries.drop cur.currentSlot ++ leafEntries l)

/-- The entry before the slot of the cursor, in the node that the cursor has loaded. -/
structure Passed (cur : BtreeCursor) (e : Bytes × Bytes) : Prop where
  loaded : cur.nodeLoaded = true
  slot : cur.currentSlot ≠ 0
  entry : cur.currentNode.entries[cur.currentSlot - 1]? = some e

/-- The cursor stands at a slot of a leaf, between the entries that it has passed and those ahead. -/
structure Between (leaves : List Leaf) (cur : BtreeCursor) (passed ahead : List (Bytes × Bytes)) :
    Prop where
  notExhausted : cur.exhausted = false
  unsaved : cur.savedKey = none
  place : ∃ a x l, leaves = a ++ x :: l ∧ cur.currentPage = x.1 ∧
    passed = leafEntries a ++ x.2.entries.take cur.currentSlot ∧
    ahead = x.2.entries.drop cur.currentSlot ++ leafEntries l

theorem Between.append_eq {leaves : List Leaf} {cur : BtreeCursor}
    {passed ahead : List (Bytes × Bytes)} (h : Between leaves cur passed ahead) :
    passed ++ ahead = leafEntries leaves := by
  obtain ⟨a, x, l, rfl, -, rfl, rfl⟩ := h.place
  rw [List.append_assoc, ← List.append_assoc (x.2.entries.take _), List.take_append_drop,
    leafEntries_append, leafEntries_cons]

theorem Between.stands {leaves : List Leaf} {cur : BtreeCursor} {passed ahead : List (Bytes × Bytes)}
    (h : Between leaves cur passed ahead) (hl : Leaves pool leaves) :
    Stands pool cur.pfx cur ahead := by
  obtain ⟨a, x, l, rfl, hp, -, rfl⟩ := h.place
  exact .leaf x l h.notExhausted h.unsaved rfl hp hl.suffix

/-- Where `garry_btree_cursor_next` takes a cursor that is between entries. -/
inductive Moves (leaves : List Leaf) (pfx : Bytes) (ahead : List (Bytes × Bytes)) :
    Option Bytes → BtreeCursor → Prop
  | none {cur : BtreeCursor} : withPrefix pfx ahead = [] → cur.exhausted = true →
    Moves leaves pfx ahead none cur
  | some {cur : BtreeCursor} {e : Bytes × Bytes} {passed' ahead' : List (Bytes × Bytes)} :
    withPrefix pfx ahead = e :: withPrefix pfx ahead' → ahead'.length < ahead.length →
    Between leaves cur passed' ahead' → cur.pfx = pfx → e ∈ passed' → Passed cur e →
    Moves leaves pfx ahead (some e.1) cur

theorem Moves.skip {leaves : List Leaf} {ahead ds : List (Bytes × Bytes)} {found : Option Bytes}
    {cur : BtreeCursor} (h : Moves leaves pfx ahead found cur) (hd : withPrefix pfx ds = []) :
    Moves leaves pfx (ds ++ ahead) found cur := by
  cases h with
  | none h1 h2 => exact .none (by rw [withPrefix_append, hd, h1]; rfl) h2
  | some h1 h2 h3 h4 h5 h6 =>
    refine .some (by rw [withPrefix_append, hd, h1]; rfl) ?_ h3 h4 h5 h6
    rw [List.length_append]
    omega

/-- What `garry_btree_cursor_next` does to a cursor before the entries `es`. -/
inductive Advances (pool : Pool) (pfx : Bytes) (es : List (Bytes × Bytes)) :
    Option Bytes → BtreeCursor → Prop
  | none {cur : BtreeCursor} : withPrefix pfx es = [] → cur.exhausted = true →
    Advances pool pfx es none cur
  | some {cur : BtreeCursor} (e : Bytes × Bytes) (es' : List (Bytes × Bytes)) :
    withPrefix pfx es = e :: withPrefix pfx es' → es'.length < es.length → Stands pool pfx cur es' →
    Passed cur e → Advances pool pfx es (some e.1) cur

theorem Moves.advances {leaves : List Leaf} {ahead : List (Bytes × Bytes)} {found : Option Bytes}
    {cur : BtreeCursor} (h : Moves leaves pfx ahead found cur) (hl : Leaves pool leaves) :
    Advances pool pfx ahead found cur := by
  cases h with
  | none h1 h2 => exact .none h1 h2
  | some h1 h2 h3 h4 _ h6 => exact .some _ _ h1 h2 (h4 ▸ h3.stands hl) h6

theorem filter_of_findIdx? {α : Type} {p : α → Bool} {l : List α} (h : l.findIdx? p = some j) :
    ∃ a, l[j]? = some a ∧ l.filter p = a :: (l.drop (j + 1)).filter p := by
  induction l generalizing j with
  | nil => cases h
  | cons a l ih =>
    rw [List.findIdx?_cons] at h
    cases ha : p a with
    | true =>
      rw [ha] at h
      cases h
      exact ⟨a, rfl, by simp [ha]⟩
    | false =>
      rw [ha] at h
      obtain ⟨i, hi, rfl⟩ := Option.map_eq_some_iff.mp (by simpa using h)
      obtain ⟨b, hb, hf⟩ := ih hi
      exact ⟨b, hb, by simp [ha, hf]⟩

/-- The search of `garry_btree_cursor_next` in one leaf. -/
theorem findIdx?_keys (node : BtreeNode) (s : Nat) (pfx : Bytes) :
    ((node.keys.drop s).findIdx? fun key => prefixMatch key pfx) =
      (node.entries.drop s).findIdx? fun e => prefixMatch e.1 pfx := by
  rw [BtreeNode.keys, ← List.map_drop, List.findIdx?_map]
  rfl

theorem btreeCursorNextLoop_moves {a l : List Leaf} {x : Leaf} {cur : BtreeCursor}
    (hl : Leaves pool (a ++ x :: l)) (hp : cur.currentPage = x.1) (hex : cur.exhausted = false)
    (hs : cur.savedKey = none) (hfuel : l.length < fuel) :
    ∃ found cur', btreeCursorNextLoop pool fuel cur = some (found, cur') ∧
      Moves (a ++ x :: l) cur.pfx (x.2.entries.drop cur.currentSlot ++ leafEntries l) found cur' := by
  induction fuel generalizing a x l cur with
  | zero => omega
  | succ fuel ih =>
    have hload := (hl.load x (by simp)).2
    have hnext := hl.suffix.next
    rw [btreeCursorNextLoop, hp, hload]
    simp only
    rw [findIdx?_keys]
    cases hfind : (x.2.entries.drop cur.currentSlot).findIdx? fun e => prefixMatch e.1 cur.pfx with
    | some j =>
      obtain ⟨e, hj, hf⟩ := filter_of_findIdx? hfind
      rw [List.getElem?_drop] at hj
      rw [List.drop_drop, ← Nat.add_assoc] at hf
      have hkey : x.2.keys[cur.currentSlot + j]? = some e.1 := by
        rw [BtreeNode.keys, List.getElem?_map, hj]
        rfl
      have hmem : e ∈ x.2.entries.take (cur.currentSlot + j + 1) := by
        apply List.mem_of_getElem? (i := cur.currentSlot + j)
        rw [List.getElem?_take, if_pos (Nat.lt_succ_self _), hj]
      simp only [hkey]
      refine ⟨_, _, rfl, .some ?_ ?_ ⟨hex, hs, a, x, l, rfl, rfl, rfl, rfl⟩ rfl
        (List.mem_append_right _ hmem) ⟨rfl, by simp, hj⟩⟩
      · rw [withPrefix_append, withPrefix_append, withPrefix, hf]
        rfl
      · have := (List.getElem?_eq_some_iff.mp hj).1
        simp only
        rw [List.length_append, List.length_append, List.length_drop, List.length_drop]
        omega
    | none =>
      have hnone : withPrefix cur.pfx (x.2.entries.drop cur.currentSlot) = [] := by
        rw [withPrefix, List.filter_eq_nil_iff]
        intro e he
        simpa using List.findIdx?_eq_none_iff.mp hfind e he
      simp only
      cases l with
      | nil =>
        rw [if_neg (by rw [hnext]; decide)]
        refine ⟨_, _, rfl, .none ?_ rfl⟩
        rw [withPrefix_append, hnone]
        rfl
      | cons y l =>
        have hy : x.2.nextPage = y.1 := hnext
        have hy0 := (hl.load y (by simp)).1
        rw [if_pos (by omega)]
        have hl' : Leaves pool ((a ++ [x]) ++ y :: l) := by
          rwa [List.append_assoc, List.singleton_append]
        obtain ⟨found, cur', heq, hmoves⟩ := ih hl'
          (show ({ cur with
            currentPage := x.2.nextPage
            currentSlot := 0
            currentNode := x.2
            nodeLoaded := false } : BtreeCursor).currentPage = y.1 from hy)
          hex hs (by simpa using hfuel)
        rw [List.append_assoc, List.singleton_append] at hmoves
        exact ⟨found, cur', heq, hmoves.skip hnone⟩

/-- `garry_btree_cursor_next` on a cursor between entries. -/
theorem Between.next {leaves : List Leaf} {cur : BtreeCursor} {passed ahead : List (Bytes × Bytes)}
    (h : Between leaves cur passed ahead) (hl : Leaves pool leaves) :
    ∃ found cur', btreeCursorNext pool cur = some (found, cur') ∧
      Moves leaves cur.pfx ahead found cur' := by
  obtain ⟨a, x, l, rfl, hp, -, rfl⟩ := h.place
  rw [btreeCursorNext, h.notExhausted, if_neg (by decide), h.unsaved]
  refine btreeCursorNextLoop_moves hl hp h.notExhausted h.unsaved ?_
  have hshort := hl.suffix.short
  rw [List.length_cons] at hshort
  rw [Pool.fuel]
  omega

/-- `garry_btree_cursor_next` on a cursor before the entries `es`. -/
theorem Stands.next {cur : BtreeCursor} {es : List (Bytes × Bytes)} (h : Stands pool pfx cur es) :
    ∃ found cur', btreeCursorNext pool cur = some (found, cur') ∧
      Advances pool pfx es found cur' := by
  cases h with
  | exhausted he =>
    rw [btreeCursorNext]
    exact ⟨none, cur, if_pos he, .none rfl he⟩
  | leaf x l he hs hpfx hp hl =>
    have hbetween : Between (x :: l) cur (x.2.entries.take cur.currentSlot)
        (x.2.entries.drop cur.currentSlot ++ leafEntries l) :=
      ⟨he, hs, [], x, l, rfl, hp, rfl, rfl⟩
    obtain ⟨found, cur', heq, hmoves⟩ := hbetween.next hl
    subst hpfx
    exact ⟨found, cur', heq, hmoves.advances hl⟩

/-! ## Opening a cursor -/

theorem prefixMatch_iff {key : Bytes} : prefixMatch key pfx = true ↔ pfx <+: key :=
  List.isPrefixOf_iff_prefix

/-- No key below the prefix has it. -/
theorem withPrefix_of_lt {es : List (Bytes × Bytes)} (h : ∀ e ∈ es, e.1 < pfx) :
    withPrefix pfx es = [] := by
  rw [withPrefix, List.filter_eq_nil_iff]
  intro e he hp
  exact List.IsPrefix.le (prefixMatch_iff.mp hp) (h e he)

/-- The child that an open goes to is not behind the child that the prefix is routed to. -/
theorem openChild_le {node : BtreeNode} (hc : 0 < node.entryCount) :
    openChild node pfx ≤ childIndex node.keys pfx ∧ openChild node pfx < node.entryCount := by
  rw [openChild]
  split
  · simp only [internalFind_eq]
    split
    · omega
    · omega
  · exact ⟨Nat.zero_le _, hc⟩

/-- The descent ends at a leaf, and the entries before it are below the prefix. -/
theorem btreeCursorOpenLoop_repr {valueMax : Nat} {t : Tree Bytes Bytes d} {f : Foot}
    (hs : pool.Serves) (h : Repr valueMax pool.pageSize pool.pages d t p f)
    (ho : Ordered d lo hi t) (hsz : Sized cap d low t) (hlow : 0 < d → 1 ≤ low)
    (hpos : ∀ q ∈ f.pages, 0 ≤ q) (hfuel : d < fuel) :
    ∃ a x b, f.links = a ++ x :: b ∧
      btreeCursorOpenLoop pool pfx fuel p = some ⟨pfx, false, none, x.1, 0, emptyNode, false⟩ ∧
      ∀ e ∈ leafEntries (leavesAt pool.pageSize pool.pages a), e.1 < pfx := by
  induction d generalizing p f lo hi low fuel with
  | zero =>
    obtain ⟨fuel, rfl⟩ : ∃ n, fuel = n + 1 := ⟨fuel - 1, by omega⟩
    have hp := hpos p h.mem
    obtain ⟨-, hk, -, rfl⟩ := h
    refine ⟨[], _, [], rfl, ?_, by simp [leavesAt]⟩
    rw [btreeCursorOpenLoop, loadNode_eq hs hp]
    simp only [hk, if_true]
  | succ d ih =>
    obtain ⟨fuel, rfl⟩ : ∃ n, fuel = n + 1 := ⟨fuel - 1, by omega⟩
    have hp := hpos p h.mem
    have hlen := h.children_length
    obtain ⟨hmin, -, -, hch⟩ := hsz
    have hseps := hlow (by omega)
    obtain ⟨hfit, hk, hks, l, hlt, hlp, hsub, rfl⟩ := h
    have hcount : (nodeAt pool.pageSize pool.pages p).entryCount = t.seps.length := by
      rw [← hks, BtreeNode.keys, List.length_map, BtreeNode.entryCount]
    have hpos' : 0 < (nodeAt pool.pageSize pool.pages p).entryCount := by omega
    generalize hi : openChild (nodeAt pool.pageSize pool.pages p) pfx = i
    obtain ⟨hle, hlt'⟩ := hi ▸ openChild_le hpos'
    have hil : i < l.length := by
      have := congrArg List.length hlt
      rw [List.length_map] at this
      omega
    have hx := List.getElem_mem hil
    have hbefore := ho.2.before hlen (hks ▸ hle)
    obtain ⟨lo', hi', ho'⟩ := ho.child (hlt ▸ List.mem_map_of_mem hx)
    have hfuel : d < fuel := by omega
    obtain ⟨a, x, b, hlinks, hopen, hsmall⟩ := ih (hsub _ hx) ho'
      (hch _ (hlt ▸ List.mem_map_of_mem hx)) (fun _ => le_rfl)
      (fun q hq => hpos q (List.mem_cons_of_mem _ (Foot.mem_join.mpr ⟨_, hx, hq⟩))) hfuel
    have hsplit : l = l.take i ++ l[i] :: l.drop (i + 1) := by
      rw [List.getElem_cons_drop, List.take_append_drop]
    refine ⟨(l.take i).flatMap (fun y => y.foot.links) ++ a, x,
      b ++ (l.drop (i + 1)).flatMap fun y => y.foot.links, ?_, ?_, ?_⟩
    · rw [Foot.root, Foot.join, hsplit, List.flatMap_append, List.flatMap_cons, hlinks]
      simp
    · rw [btreeCursorOpenLoop, loadNode_eq hs hp]
      simp only [hk, reduceCtorEq, if_false]
      rw [if_pos (by omega), hi, BtreeNode.child, ← hlp, List.getD_eq_getElem?_getD,
        List.getElem?_map, List.getElem?_eq_getElem hil]
      exact hopen
    · intro e he
      rw [leavesAt, List.map_append, leafEntries_append, List.mem_append] at he
      rcases he with he | he
      · obtain ⟨y, hy, he⟩ := List.mem_flatMap.mp he
        obtain ⟨r, hr, rfl⟩ := List.mem_map.mp hy
        obtain ⟨z, hz, hr⟩ := List.mem_flatMap.mp hr
        apply hbefore
        rw [← hlt, ← List.map_take, List.map_map]
        refine List.mem_flatten.mpr ⟨_, List.mem_map_of_mem hz, ?_⟩
        have hl := (hsub z (List.mem_of_mem_take hz)).leaves.2
        rw [Function.comp_apply, ← hl]
        exact List.mem_flatMap.mpr ⟨_, List.mem_map_of_mem hr, he⟩
      · exact hsmall e he

/-- `garry_btree_cursor_open` stands before the entries with the prefix. -/
theorem Readable.open {valueMax : Nat} {root : Int} {r : Root Bytes Bytes} {f : Foot}
    (h : Readable valueMax pool root r f) (pfx : Bytes) :
    ∃ cur es, btreeCursorOpen pool root pfx = some cur ∧ Stands pool pfx cur es ∧
      withPrefix pfx es = withPrefix pfx r.toList := by
  obtain ⟨a, x, b, hlinks, hopen, hsmall⟩ := @btreeCursorOpenLoop_repr _ pfx _ _ _ _ _ _ _ _ _ _
    h.serves h.repr h.wf.ordered h.wf.sized (fun hd => one_le_rootLow hd)
    (fun q hq => (h.range q hq).1) h.depth_lt
  obtain ⟨hleaves, hes⟩ := h.leaves
  rw [hlinks, leavesAt, List.map_append, List.map_cons] at hleaves hes
  have hstands : Stands pool pfx ⟨pfx, false, none, x.1, 0, emptyNode, false⟩ _ :=
    .leaf _ _ rfl rfl rfl rfl hleaves.suffix
  refine ⟨_, _, hopen, hstands, ?_⟩
  rw [← hes, leafEntries_append, withPrefix_append (leafEntries _)]
  rw [leavesAt] at hsmall
  rw [withPrefix_of_lt hsmall]
  rfl

/-! ## The cursor of the store -/

/-- A cursor has fewer entries before it than `garry_storage_cursor_next` has rounds. -/
theorem Stands.length_lt {eng : Engine} {cur : BtreeCursor} {es : List (Bytes × Bytes)}
    (h : Stands eng.pool pfx cur es) : es.length < eng.cursorFuel := by
  rw [Engine.cursorFuel]
  cases h with
  | exhausted => exact Nat.succ_pos _
  | leaf x l _ _ _ _ hl =>
    have hlen := hl.entries_length
    have hshort := hl.short
    rw [leafEntries_cons, List.length_append, List.length_cons] at hlen
    rw [List.length_cons] at hshort
    rw [List.length_append, List.length_drop, Pool.fuel]
    simp only [maxKeysPerNode] at hlen ⊢
    omega

namespace Engine

variable {eng : Engine} {es : List (Bytes × Bytes)}

/-- The entries that a transaction sees, with what their descriptors lead to. -/
def hits (eng : Engine) (txn : Int) (es : List (Bytes × Bytes)) : List (Bytes × Bytes) :=
  es.filterMap fun e => (eng.entryVersion txn e.2).map fun val => (e.1, val)

theorem hits_cons_of_none {e : Bytes × Bytes} (h : eng.entryVersion txn e.2 = none) :
    eng.hits txn (e :: es) = eng.hits txn es := by
  rw [hits, List.filterMap_cons, h]
  rfl

theorem hits_cons_of_some {e : Bytes × Bytes} (h : eng.entryVersion txn e.2 = some val) :
    eng.hits txn (e :: es) = (e.1, val) :: eng.hits txn es := by
  rw [hits, List.filterMap_cons, h]
  rfl

/-- What `garry_storage_cursor_next` does to a cursor before the entries `es`. -/
inductive Yields (eng : Engine) (withValue : Bool) (txn : Int) (pfx : Bytes)
    (es : List (Bytes × Bytes)) : Option (Bytes × Option Bytes) → StorageCursor → Prop
  | none {cur : StorageCursor} : eng.hits txn (withPrefix pfx es) = [] →
    cur.btreeCur.exhausted = true → Yields eng withValue txn pfx es none cur
  | some {cur : StorageCursor} (key val : Bytes) (es' : List (Bytes × Bytes)) :
    eng.hits txn (withPrefix pfx es) = (key, val) :: eng.hits txn (withPrefix pfx es') →
    es'.length < es.length → Stands eng.pool pfx cur.btreeCur es' → cur.txn = txn →
    Yields eng withValue txn pfx es (some (key, if withValue then some val else none)) cur

/-- `garry_storage_cursor_next` looks up the entry that the cursor has passed. -/
theorem cursorVersion_of_passed {cur : StorageCursor} {e : Bytes × Bytes}
    (h : Passed cur.btreeCur e) : eng.cursorVersion cur = eng.entryVersion cur.txn e.2 := by
  rw [cursorVersion, if_neg (by rw [h.loaded]; decide), if_neg h.slot, h.entry]
  rfl

/-- What `garry_storage_cursor_next` finds, with the entry that the cursor has passed then. -/
inductive Finds (eng : Engine) (withValue : Bool) (txn : Int) (pfx : Bytes)
    (es : List (Bytes × Bytes)) : Option (Bytes × Option Bytes) → StorageCursor → Prop
  | none {cur : StorageCursor} : eng.hits txn (withPrefix pfx es) = [] →
    cur.btreeCur.exhausted = true → Finds eng withValue txn pfx es none cur
  | some {cur : StorageCursor} {e : Bytes × Bytes} {val : Bytes} {es' : List (Bytes × Bytes)} :
    eng.hits txn (withPrefix pfx es) = (e.1, val) :: eng.hits txn (withPrefix pfx es') →
    es'.length < es.length → Stands eng.pool pfx cur.btreeCur es' → cur.txn = txn →
    Passed cur.btreeCur e → eng.entryVersion txn e.2 = some val →
    Finds eng withValue txn pfx es (some (e.1, if withValue then some val else none)) cur

theorem Finds.yields {found : Option (Bytes × Option Bytes)} {cur : StorageCursor}
    {withValue : Bool} (h : Finds eng withValue txn pfx es found cur) :
    Yields eng withValue txn pfx es found cur := by
  cases h with
  | none h1 h2 => exact .none h1 h2
  | some h1 h2 h3 h4 => exact .some _ _ _ h1 h2 h3 h4

theorem cursorNextLoop_finds {cur : StorageCursor} (hraw : eng.compression ≠ compressLz4)
    (h : Stands eng.pool pfx cur.btreeCur es) (withValue : Bool) (hfuel : es.length < fuel) :
    ∃ found cur', cursorNextLoop lz4 eng withValue fuel cur = some (found, cur') ∧
      Finds eng withValue cur.txn pfx es found cur' := by
  induction fuel generalizing cur es with
  | zero => omega
  | succ fuel ih =>
    obtain ⟨found, btreeCur, heq, hadv⟩ := h.next
    rw [cursorNextLoop, heq]
    cases hadv with
    | none h1 h2 => exact ⟨none, _, rfl, .none (by rw [h1]; rfl) h2⟩
    | some e es' h1 h2 h3 h4 =>
      simp only
      rw [cursorVersion_of_passed h4]
      cases hv : eng.entryVersion cur.txn e.2 with
      | none =>
        have hskip : eng.hits cur.txn (withPrefix pfx es) = eng.hits cur.txn (withPrefix pfx es') := by
          rw [h1]
          exact hits_cons_of_none hv
        obtain ⟨found, cur', heq', hy⟩ := @ih _ ⟨btreeCur, cur.txn⟩ h3 (by omega)
        refine ⟨found, cur', heq', ?_⟩
        cases hy with
        | none h5 h6 => exact .none (hskip.trans h5) h6
        | some h5 h6 h7 h8 h9 h10 =>
          exact .some (hskip.trans h5) (by omega) h7 h8 h9 h10
      | some val =>
        have hhit : eng.hits cur.txn (withPrefix pfx es) =
            (e.1, val) :: eng.hits cur.txn (withPrefix pfx es') := by
          rw [h1]
          exact hits_cons_of_some hv
        have hy := @Finds.some eng withValue _ _ _ ⟨btreeCur, cur.txn⟩ e val es' hhit h2 h3 rfl h4 hv
        simp only [cursorValue, if_neg hraw]
        cases withValue with
        | true => exact ⟨_, _, rfl, hy⟩
        | false => exact ⟨_, _, rfl, hy⟩

theorem cursorNext_finds (lz4 : Lz4) {cur : StorageCursor} (hraw : eng.compression ≠ compressLz4)
    (h : Stands eng.pool pfx cur.btreeCur es) (withValue : Bool) :
    ∃ found cur', eng.cursorNext lz4 withValue cur = some (found, cur') ∧
      Finds eng withValue cur.txn pfx es found cur' := by
  rw [cursorNext]
  split
  · next he =>
    cases h with
    | exhausted => exact ⟨none, cur, rfl, .none rfl he⟩
    | leaf x l he' =>
      rw [he'] at he
      cases he
  · exact cursorNextLoop_finds hraw h withValue h.length_lt

/-- `garry_storage_cursor_next` on a cursor before the entries `es`. -/
theorem cursorNext_yields (lz4 : Lz4) {cur : StorageCursor} (hraw : eng.compression ≠ compressLz4)
    (h : Stands eng.pool pfx cur.btreeCur es) (withValue : Bool) :
    ∃ found cur', eng.cursorNext lz4 withValue cur = some (found, cur') ∧
      Yields eng withValue cur.txn pfx es found cur' := by
  obtain ⟨found, cur', heq, hf⟩ := cursorNext_finds lz4 hraw h withValue
  exact ⟨found, cur', heq, hf.yields⟩

/-- Calls of `garry_storage_cursor_next` until one reports that the cursor is exhausted, and what
they return. -/
inductive Scans (lz4 : Lz4) (eng : Engine) : StorageCursor → List (Bytes × Option Bytes) → Prop
  | done {cur cur' : StorageCursor} : eng.cursorNext lz4 true cur = some (none, cur') →
    cur'.btreeCur.exhausted = true → Scans lz4 eng cur []
  | next {cur cur' : StorageCursor} {e : Bytes × Option Bytes} {es : List (Bytes × Option Bytes)} :
    eng.cursorNext lz4 true cur = some (some e, cur') → Scans lz4 eng cur' es →
    Scans lz4 eng cur (e :: es)

theorem scans_of_stands (lz4 : Lz4) {cur : StorageCursor} (hraw : eng.compression ≠ compressLz4)
    (h : Stands eng.pool pfx cur.btreeCur es) :
    eng.Scans lz4 cur ((eng.hits cur.txn (withPrefix pfx es)).map fun e => (e.1, some e.2)) := by
  generalize hn : es.length = n
  induction n using Nat.strongRecOn generalizing cur es with
  | ind n ih =>
    obtain ⟨found, cur', heq, hy⟩ := cursorNext_yields lz4 hraw h true
    cases hy with
    | none h1 h2 =>
      rw [h1]
      exact .done heq h2
    | some key val es' h1 h2 h3 h4 =>
      rw [h1, List.map_cons]
      have hrest := ih es'.length (hn ▸ h2) h3 rfl
      rw [h4] at hrest
      exact .next heq hrest

theorem nextKeyLoop_stands {cur : StorageCursor} (hraw : eng.compression ≠ compressLz4)
    (h : Stands eng.pool [] cur.btreeCur es) (after : Bytes) (hfuel : es.length < fuel) :
    eng.nextKeyLoop lz4 after fuel cur =
      some (((eng.hits cur.txn es).map Prod.fst).find? fun key => decide (after < key)) := by
  induction fuel generalizing cur es with
  | zero => omega
  | succ fuel ih =>
    obtain ⟨found, cur', heq, hy⟩ := cursorNext_yields lz4 hraw h false
    rw [nextKeyLoop, heq]
    cases hy with
    | none h1 h2 =>
      rw [withPrefix_nil] at h1
      rw [h1]
      rfl
    | some key val es' h1 h2 h3 h4 =>
      rw [withPrefix_nil, withPrefix_nil] at h1
      rw [h1, List.map_cons, List.find?_cons]
      simp only [gt_iff_lt, byteCompare_gt_zero]
      by_cases hk : after < key
      · rw [if_pos hk, decide_eq_true hk]
      · rw [if_neg hk, decide_eq_false hk, ← h4]
        exact ih h3 (by omega)

theorem prevKeyLoop_stands {cur : StorageCursor} (hraw : eng.compression ≠ compressLz4)
    (h : Stands eng.pool [] cur.btreeCur es) (before : Bytes) (found : Option Bytes)
    (hfuel : es.length < fuel) :
    eng.prevKeyLoop lz4 before fuel found cur =
      some ((((eng.hits cur.txn es).map Prod.fst).filter fun key => decide (key < before)).foldl
        (fun _ key => some key) found) := by
  induction fuel generalizing cur es found with
  | zero => omega
  | succ fuel ih =>
    obtain ⟨found', cur', heq, hy⟩ := cursorNext_yields lz4 hraw h false
    rw [prevKeyLoop, heq]
    cases hy with
    | none h1 h2 =>
      rw [withPrefix_nil] at h1
      rw [h1]
      rfl
    | some key val es' h1 h2 h3 h4 =>
      rw [withPrefix_nil, withPrefix_nil] at h1
      rw [h1, List.map_cons, List.filter_cons]
      simp only [byteCompare_lt_zero]
      rw [ih h3 _ (by omega), h4]
      by_cases hk : key < before
      · rw [if_pos hk, if_pos (decide_eq_true hk), List.foldl_cons]
      · rw [if_neg hk, if_neg (by simpa using hk)]

/-! ## The keys that a transaction sees -/

/-- The tree of an engine without compression holds a descriptor for each of its keys. -/
structure Index (eng : Engine) (r : Root Bytes Bytes) (f : Foot) : Prop where
  tree : Readable 14 eng.pool eng.btreeRoot r f
  key : ∀ e ∈ r.toList, 0 < e.1.length ∧ e.1.length ≤ maxKeySize
  value : ∀ e ∈ r.toList, 0 < e.2.length ∧ e.2.length ≤ lookupBufSize
  raw : eng.compression ≠ compressLz4

/-- The keys that a transaction sees. -/
def visibleKeys (lz4 : Lz4) (eng : Engine) (txn : Int) : Set Bytes :=
  {key | ∃ value, eng.storageGet lz4 txn key = some (some value)}

namespace Index

variable {r : Root Bytes Bytes} {f : Foot}

/-- `garry_storage_get` looks up the descriptor that the tree holds for the key. -/
theorem storageGet (h : eng.Index r f) (hact : eng.txnIsActive txn = true) (key : Bytes) :
    eng.storageGet lz4 txn key =
      some ((SortedAssoc.lookup key r.toList).bind (eng.entryVersion txn)) := by
  rw [Engine.storageGet]
  split
  · next hlen =>
    cases hl : SortedAssoc.lookup key r.toList with
    | none => rfl
    | some v =>
      have hk := h.key _ (SortedAssoc.mem_of_lookup hl)
      simp only at hk
      omega
  · rw [if_neg (by rw [hact]; decide), h.tree.search]
    cases hl : SortedAssoc.lookup key r.toList with
    | none => rfl
    | some v =>
      have hv := h.value _ (SortedAssoc.mem_of_lookup hl)
      simp only at hv
      rw [Option.map_some, Option.bind_some, entryVersion, if_neg (by omega)]
      simp only [Option.bind_eq_bind, Option.bind_some, if_neg h.raw]
      split
      · rfl
      · cases eng.mvccGet txn (decodeCidFromDescriptor v.toBuffer) <;> rfl

theorem mem_hits (lz4 : Lz4) (h : eng.Index r f) (hact : eng.txnIsActive txn = true) {e : Bytes × Bytes} :
    e ∈ eng.hits txn (withPrefix pfx r.toList) ↔
      pfx <+: e.1 ∧ eng.storageGet lz4 txn e.1 = some (some e.2) := by
  rw [h.storageGet hact, hits, List.mem_filterMap, Option.some.injEq, Option.bind_eq_some_iff]
  constructor
  · rintro ⟨x, hx, he⟩
    obtain ⟨val, hval, rfl⟩ := Option.map_eq_some_iff.mp he
    obtain ⟨hx, hp⟩ := List.mem_filter.mp hx
    exact ⟨prefixMatch_iff.mp hp, x.2, h.tree.wf.sorted.lookup_of_mem hx, hval⟩
  · rintro ⟨hp, v, hl, hv⟩
    refine ⟨(e.1, v), List.mem_filter.mpr ⟨SortedAssoc.mem_of_lookup hl, prefixMatch_iff.mpr hp⟩, ?_⟩
    rw [hv]
    rfl

theorem mem_map_hits (lz4 : Lz4) (h : eng.Index r f) (hact : eng.txnIsActive txn = true) {key : Bytes} :
    key ∈ (eng.hits txn r.toList).map Prod.fst ↔ key ∈ eng.visibleKeys lz4 txn := by
  rw [List.mem_map]
  constructor
  · rintro ⟨e, he, rfl⟩
    rw [← withPrefix_nil r.toList, h.mem_hits lz4 hact] at he
    exact ⟨e.2, he.2⟩
  · rintro ⟨v, hv⟩
    refine ⟨(key, v), ?_, rfl⟩
    rw [← withPrefix_nil r.toList, h.mem_hits lz4 hact]
    exact ⟨List.nil_prefix, hv⟩

theorem pairwise_hits (h : eng.Index r f) (txn : Int) (pfx : Bytes) :
    ((eng.hits txn (withPrefix pfx r.toList)).map Prod.fst).Pairwise (· < ·) := by
  have hs : (withPrefix pfx r.toList).Pairwise fun a b => a.1 < b.1 :=
    h.tree.wf.sorted.sublist List.filter_sublist
  rw [List.pairwise_map, hits, List.pairwise_filterMap]
  refine hs.imp fun hab x hx y hy => ?_
  obtain ⟨u, -, rfl⟩ := Option.map_eq_some_iff.mp hx
  obtain ⟨v, -, rfl⟩ := Option.map_eq_some_iff.mp hy
  exact hab

/-! ## Scans and navigation -/

theorem cursorOpen (h : eng.Index r f) (txn : Int) (pfx : Bytes) :
    ∃ cur es, eng.cursorOpen txn pfx = some cur ∧ cur.txn = txn ∧
      Stands eng.pool pfx cur.btreeCur es ∧ withPrefix pfx es = withPrefix pfx r.toList := by
  obtain ⟨cur, es, hopen, hst, hes⟩ := h.tree.open pfx
  refine ⟨⟨cur, txn⟩, es, ?_, rfl, hst, hes⟩
  rw [Engine.cursorOpen, hopen]
  rfl

/-- A scan returns the visible keys with the prefix in their order. -/
theorem scan (h : eng.Index r f) (lz4 : Lz4) (hact : eng.txnIsActive txn = true) (pfx : Bytes) :
    ∃ cur found, eng.cursorOpen txn pfx = some cur ∧ eng.Scans lz4 cur found ∧
      (found.map Prod.fst).Pairwise (· < ·) ∧
      ∀ key value, (key, value) ∈ found ↔
        pfx <+: key ∧ ∃ v, value = some v ∧ eng.storageGet lz4 txn key = some (some v) := by
  obtain ⟨cur, es, hopen, rfl, hst, hes⟩ := h.cursorOpen txn pfx
  have hscan := scans_of_stands lz4 h.raw hst
  rw [hes] at hscan
  refine ⟨cur, _, hopen, hscan, ?_, fun key value => ?_⟩
  · rw [List.map_map]
    exact h.pairwise_hits cur.txn pfx
  · rw [List.mem_map]
    constructor
    · rintro ⟨e, he, heq⟩
      obtain ⟨rfl, rfl⟩ := Prod.mk.inj heq
      obtain ⟨hp, hg⟩ := (h.mem_hits lz4 hact).mp he
      exact ⟨hp, e.2, rfl, hg⟩
    · rintro ⟨hp, v, rfl, hg⟩
      exact ⟨(key, v), (h.mem_hits lz4 hact).mpr ⟨hp, hg⟩, rfl⟩

/-- `garry_storage_first`. -/
theorem storageFirst (h : eng.Index r f) (lz4 : Lz4) (hact : eng.txnIsActive txn = true) :
    ∃ found, eng.storageFirst lz4 txn = some found ∧
      ∀ key, found = some key ↔ IsLeast (eng.visibleKeys lz4 txn) key := by
  obtain ⟨cur, es, hopen, rfl, hst, hes⟩ := h.cursorOpen txn []
  obtain ⟨found, cur', heq, hy⟩ := cursorNext_yields lz4 h.raw hst false
  rw [withPrefix_nil, withPrefix_nil] at hes
  have hhead : found.map Prod.fst = ((eng.hits cur.txn r.toList).map Prod.fst).find? fun _ => true := by
    rw [← hes]
    cases hy with
    | none h1 h2 =>
      rw [withPrefix_nil] at h1
      rw [h1]
      rfl
    | some key val es' h1 =>
      rw [withPrefix_nil] at h1
      rw [h1]
      rfl
  have hp := h.pairwise_hits cur.txn []
  rw [withPrefix_nil] at hp
  refine ⟨found.map Prod.fst, ?_, fun key => ?_⟩
  · rw [Engine.storageFirst, if_neg (by rw [hact]; decide), hopen]
    simp only [Option.bind_eq_bind, Option.bind_some, heq]
  · rw [hhead, SortedAssoc.find?_eq_some_iff_isLeast hp]
    simp only [h.mem_map_hits lz4 hact, and_true]
    rfl

/-- `garry_storage_next_key`. -/
theorem storageNextKey (h : eng.Index r f) (lz4 : Lz4) (hact : eng.txnIsActive txn = true)
    (hpos : 0 < after.length) :
    ∃ found, eng.storageNextKey lz4 txn after = some found ∧
      ∀ key, found = some key ↔ IsLeast {k | k ∈ eng.visibleKeys lz4 txn ∧ after < k} key := by
  obtain ⟨cur, es, hopen, rfl, hst, hes⟩ := h.cursorOpen txn []
  rw [withPrefix_nil, withPrefix_nil] at hes
  have hp := h.pairwise_hits cur.txn []
  rw [withPrefix_nil] at hp
  refine ⟨_, ?_, fun key => (SortedAssoc.find?_eq_some_iff_isLeast (p := fun k => decide (after < k))
    hp).trans ?_⟩
  · rw [Engine.storageNextKey, if_neg (by rw [hact]; decide), if_neg (by omega), hopen,
      Option.bind_some, nextKeyLoop_stands h.raw hst after hst.length_lt, hes]
  · simp only [h.mem_map_hits lz4 hact, decide_eq_true_eq]

/-- `garry_storage_prev_key`. -/
theorem storagePrevKey (h : eng.Index r f) (lz4 : Lz4) (hact : eng.txnIsActive txn = true)
    (before : Bytes) :
    ∃ found, eng.storagePrevKey lz4 txn before = some found ∧
      ∀ key, found = some key ↔ IsGreatest {k | k ∈ eng.visibleKeys lz4 txn ∧ k < before} key := by
  obtain ⟨cur, es, hopen, rfl, hst, hes⟩ := h.cursorOpen txn []
  rw [withPrefix_nil, withPrefix_nil] at hes
  have hp := h.pairwise_hits cur.txn []
  rw [withPrefix_nil] at hp
  rw [Engine.storagePrevKey, if_neg (by rw [hact]; decide)]
  split
  · next hb =>
    obtain rfl := List.eq_nil_of_length_eq_zero hb
    refine ⟨none, rfl, fun key => ?_⟩
    constructor
    · intro hk
      cases hk
    · intro hk
      exact absurd hk.1.2 (List.not_lt_nil key)
  · refine ⟨_, ?_, fun key => (SortedAssoc.reverse_find?_eq_some_iff_isGreatest
      (p := fun k => decide (k < before)) hp).trans ?_⟩
    · rw [hopen, Option.bind_some, prevKeyLoop_stands h.raw hst before none hst.length_lt, hes,
        SortedAssoc.foldl_last, Option.or_none]
    · simp only [h.mem_map_hits lz4 hact, decide_eq_true_eq]

end Index

/-- The engine between two calls. -/
theorem Inv.index {L : Layout} (h : Inv ps eng L) (hraw : eng.compression ≠ compressLz4) :
    eng.Index L.root L.foot where
  tree := h.pages.tree.readable
  key e he := by
    have := h.pages.keyLen e he
    simp only [maxKeySize]
    omega
  value e he := by
    have hl : L.lookup e.1 = some e.2 := h.pages.tree.wf.sorted.lookup_of_mem he
    obtain ⟨cid, hv, -⟩ := h.pages.entry hl
    rw [hv]
    refine ⟨List.length_pos_of_ne_nil encodeDescriptor_ne_nil, ?_⟩
    exact (encodeDescriptor_length_le cid false).trans (by decide)
  raw := hraw

/-- Engines with one tree; their chain pages, overflow pages and transactions may be any. -/
structure SameIndex (eng eng' : Engine) : Prop where
  btreeRoot : eng'.btreeRoot = eng.btreeRoot
  pageSize : eng'.pool.pageSize = eng.pool.pageSize
  nextPage : eng.pool.nextPage ≤ eng'.pool.nextPage
  serves : eng'.pool.Serves
  compression : eng'.compression = eng.compression
  pages : ∀ p, TreePage eng.pool eng.btreeRoot p → eng'.pool.pages p = eng.pool.pages p

theorem SameIndex.refl {L : Layout} (h : Inv ps eng L) : SameIndex eng eng :=
  ⟨rfl, rfl, le_rfl, h.pages.serves, rfl, fun _ _ => rfl⟩

theorem Index.congr {r : Root Bytes Bytes} {f : Foot} (h : eng.Index r f)
    (hs : SameIndex eng eng') : eng'.Index r f where
  tree := by
    have hpages := h.tree.repr.treePage h.tree.serves (fun q hq => (h.tree.range q hq).1) .root
    rw [hs.btreeRoot]
    exact h.tree.congr hs.serves hs.pageSize hs.nextPage fun p hp => hs.pages p (hpages p hp)
  key := h.key
  value := h.value
  raw := hs.compression ▸ h.raw

end Engine

open Engine in
/-- Scans enumerate the visible keys: whatever the chain pages of the keys hold, a scan by an active
transaction returns each visible key with the prefix once, in their order and with the value that
`garry_storage_get` returns, until the cursor is exhausted; navigation returns the least visible
key and the neighbours of a key. -/
theorem cursorScan_visibleKeys {ps : Nat} {eng₀ eng eng' : Engine} (h0 : Created ps eng₀)
    (hraw : eng₀.compression ≠ compressLz4) (hrun : eng₀.Run lz4 (Proper lz4) eng)
    (hsame : SameIndex eng eng') (hact : eng'.txnIsActive txn = true) (pfx : Bytes) :
    (∃ cur found, eng'.cursorOpen txn pfx = some cur ∧ eng'.Scans lz4 cur found ∧
      (found.map Prod.fst).Pairwise (· < ·) ∧
      ∀ key value, (key, value) ∈ found ↔
        pfx <+: key ∧ ∃ v, value = some v ∧ eng'.storageGet lz4 txn key = some (some v)) ∧
    (∃ first, eng'.storageFirst lz4 txn = some first ∧
      ∀ key, first = some key ↔ IsLeast (eng'.visibleKeys lz4 txn) key) ∧
    (∀ after, 0 < after.length → ∃ next, eng'.storageNextKey lz4 txn after = some next ∧
      ∀ key, next = some key ↔ IsLeast {k | k ∈ eng'.visibleKeys lz4 txn ∧ after < k} key) ∧
    ∀ before, ∃ prev, eng'.storagePrevKey lz4 txn before = some prev ∧
      ∀ key, prev = some key ↔ IsGreatest {k | k ∈ eng'.visibleKeys lz4 txn ∧ k < before} key := by
  obtain ⟨L, hinv⟩ := hrun.inv (fun _ _ _ h => h) h0.inv.1
  have hindex := (hinv.index (hrun.compression ▸ hraw)).congr hsame
  exact ⟨hindex.scan lz4 hact pfx, hindex.storageFirst lz4 hact,
    fun after hpos => hindex.storageNextKey lz4 hact hpos, hindex.storagePrevKey lz4 hact⟩

open Engine in
/-- A scan of a database with two keys. -/
theorem cursorScan_visibleKeys_two : ∃ eng₀ eng : Engine, Created 1024 eng₀ ∧
    eng₀.Run .stored (Proper .stored) eng ∧ eng.txnIsActive 1 = true ∧
    eng.storageGet .stored 1 [7, 1] = some (some [5]) ∧
    ∃ cur found, eng.cursorOpen 1 [7] = some cur ∧ eng.Scans .stored cur found ∧
      ([7, 1], some [5]) ∈ found := by
  have hcalls : (newCalls [.begin, .set 1 [7, 1] [5], .set 1 [8] [6]]).map (fun eng =>
      (eng.txnIsActive 1, eng.storageGet .stored 1 [7, 1])) = some (true, some (some [5])) := by
    decide +kernel
  obtain ⟨eng, heng, hc⟩ := Option.map_eq_some_iff.mp hcalls
  obtain ⟨hact, hget⟩ := Prod.mk.inj hc
  obtain ⟨eng₀, h0, hraw, hrun⟩ := run_of_newCalls heng
  obtain ⟨L, hinv⟩ := hrun.inv (fun _ _ _ h => h) h0.inv.1
  obtain ⟨⟨cur, found, hopen, hscan, -, hmem⟩, -⟩ :=
    cursorScan_visibleKeys h0 hraw hrun (.refl hinv) hact [7]
  refine ⟨eng₀, eng, h0, hrun, hact, hget, cur, found, hopen, hscan, ?_⟩
  exact (hmem [7, 1] (some [5])).mpr ⟨⟨[1], rfl⟩, [5], rfl, hget⟩

/-! ## The read paths -/

/-- `garry_storage_exists` is a read of the store. -/
theorem Engine.Inv.storageExists {ps : Nat} {eng : Engine} {L : Layout} (h : Engine.Inv ps eng L)
    (hact : eng.txnIsActive txn = true) (hpos : 0 < key.length) :
    eng.storageExists txn key = some ((eng.store L).read txn key).isSome := by
  rw [Engine.storageExists, if_neg (by omega), if_neg (by rw [hact]; decide), h.pages.search]
  cases hl : L.lookup key with
  | none =>
    have hempty := h.pages.empty hl
    simp [Mvcc.State.read, Engine.store, hempty, chainOf, Mvcc.read, Mvcc.newest]
  | some v =>
    obtain ⟨h0, hc⟩ := h.toSound.lookup hl
    simp only [Option.map_some]
    rw [if_neg (by omega), h.toSound.mvccExists hc]

end Garry
