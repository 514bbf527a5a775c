import Garry.Verify.Isolation
import Garry.Verify.LeafPlace

/-!
# The last key

`garry_storage_last` walks along `prev_page` from the last leaf. A split links the new leaf to the one
that it is split off from, and leaves the link of the leaf behind them; so the links lead through
all leaves as long as a leaf that is split has no other one behind it.
-/

namespace Garry

open ByteStore BPlusTree LeafChain

/-! ## Links to the left -/

/-- Every leaf names the one before it, and the first one `back`. -/
def BackLinked (prev : Int → Int) : Int → List (Int × Int) → Prop
  | _, [] => True
  | back, (p, _) :: l => prev p = back ∧ BackLinked prev p l

/-- The last leaf, or `back` when there is none. -/
def lastOr : Int → List (Int × Int) → Int
  | back, [] => back
  | _, (p, _) :: l => lastOr p l

variable {prev prev' : Int → Int} {back : Int} {l l' : List (Int × Int)}

theorem backLinked_append : BackLinked prev back (l ++ l') ↔
    BackLinked prev back l ∧ BackLinked prev (lastOr back l) l' := by
  induction l generalizing back with
  | nil => exact ⟨fun h => ⟨trivial, h⟩, fun h => h.2⟩
  | cons r l ih =>
    rw [List.cons_append, BackLinked, BackLinked, lastOr, ih, and_assoc]

@[simp] theorem lastOr_concat (r : Int × Int) : lastOr back (l ++ [r]) = r.1 := by
  induction l generalizing back with
  | nil => rfl
  | cons s l ih => exact ih

theorem BackLinked.congr (h : BackLinked prev back l) (hp : ∀ r ∈ l, prev' r.1 = prev r.1) :
    BackLinked prev' back l := by
  induction l generalizing back with
  | nil => trivial
  | cons r l ih =>
    obtain ⟨h1, h2⟩ := h
    exact ⟨(hp r List.mem_cons_self).trans h1, ih h2 fun s hs => hp s (List.mem_cons_of_mem r hs)⟩

/-- A leaf that takes an entry keeps the links, if it is not split or is the last one. -/
theorem LeafTakes.backLinked {before after : Int → BtreeNode} {a b m : List (Int × Int)}
    (hm : LeafTakes before after p x m) (hother : ∀ r ∈ a ++ b, after r.1 = before r.1)
    (hlast : 2 ≤ (before p).entries.length → b = [])
    (hb : BackLinked (fun q => (before q).prevPage) back (a ++ (p, x) :: b)) :
    BackLinked (fun q => (after q).prevPage) back (a ++ (m ++ b)) := by
  obtain ⟨ha, hp, hb⟩ := backLinked_append.mp hb
  refine backLinked_append.mpr ⟨ha.congr fun r hr => ?_, ?_⟩
  · exact congrArg BtreeNode.prevPage (hother r (List.mem_append_left b hr))
  cases hm with
  | alone hsame =>
    refine ⟨hsame.trans hp, hb.congr fun r hr => ?_⟩
    exact congrArg BtreeNode.prevPage (hother r (List.mem_append_right a hr))
  | split q hfull hsame hq =>
    rw [hlast hfull]
    exact ⟨hsame.trans hp, hq, trivial⟩

/-! ## The pages of a tree -/

variable {valueMax ps : Nat} {pages : Int → PageBuffer} {pool : Pool}

/-- The children of a page of the tree are pages of the tree. -/
theorem Repr.children_sub {t : Tree Bytes Bytes d} (h : Repr valueMax ps pages d t root f)
    (hp : p ∈ f.pages) (hk : (nodeAt ps pages p).kind ≠ .leaf) :
    ∀ q ∈ (nodeAt ps pages p).children, q ∈ f.pages := by
  induction d generalizing root f with
  | zero =>
    obtain ⟨-, hk', -, rfl⟩ := h
    obtain rfl := List.mem_singleton.mp hp
    exact absurd hk' hk
  | succ d ih =>
    obtain ⟨-, -, -, l, -, hlp, hsub, rfl⟩ := h
    intro q hq
    apply List.mem_cons_of_mem
    rw [Foot.mem_join]
    rcases List.mem_cons.mp hp with rfl | hp
    · rw [← hlp] at hq
      obtain ⟨x, hx, rfl⟩ := List.mem_map.mp hq
      exact ⟨x, hx, (hsub x hx).mem⟩
    · obtain ⟨x, hx, hpx⟩ := Foot.mem_join.mp hp
      exact ⟨x, hx, ih (hsub x hx) hpx q hq⟩

/-- The tree reaches no other pages than those of its foot. -/
theorem Repr.treePage_mem {t : Tree Bytes Bytes d} (hs : pool.Serves)
    (h : Repr valueMax pool.pageSize pool.pages d t root f) (hpos : ∀ q ∈ f.pages, 0 ≤ q)
    (hp : TreePage pool root p) : p ∈ f.pages := by
  induction hp with
  | root => exact h.mem
  | child _ hk hq ih =>
    rw [loadNode_eq hs (hpos _ ih)] at hk hq
    exact h.children_sub ih hk _ hq

/-- A leaf of the tree stands in the foot with its link. -/
theorem Repr.link_of_leaf {t : Tree Bytes Bytes d} (hs : pool.Serves)
    (h : Repr valueMax pool.pageSize pool.pages d t root f) (hpos : ∀ q ∈ f.pages, 0 ≤ q)
    (hp : p ∈ f.pages) (hk : (loadNode pool p).kind = .leaf)
    (hnext : (loadNode pool p).nextPage = x) : (p, x) ∈ f.links := by
  rw [loadNode_eq hs (hpos p hp)] at hk hnext
  subst hnext
  induction d generalizing root f with
  | zero =>
    obtain ⟨-, -, -, rfl⟩ := h
    obtain rfl := List.mem_singleton.mp hp
    exact List.mem_singleton_self _
  | succ d ih =>
    obtain ⟨-, hk', -, l, -, -, hsub, rfl⟩ := h
    rcases List.mem_cons.mp hp with rfl | hp
    · rw [hk'] at hk
      cases hk
    · obtain ⟨y, hy, hpy⟩ := Foot.mem_join.mp hp
      have hlink := ih (hsub y hy) (fun q hq => hpos q
        (List.mem_cons_of_mem _ (Foot.mem_join.mpr ⟨y, hy, hq⟩))) hpy
      exact List.mem_flatMap.mpr ⟨y, hy, hlink⟩

namespace Engine

variable {eng eng' : Engine} {L L' : Layout}

/-! ## Insertion -/

/-- A new key would split a leaf that has another one behind it. -/
def splitsInside (eng : Engine) (key : Bytes) : Bool :=
  match leafPage eng.pool key eng.pool.fuel eng.btreeRoot with
  | none => false
  | some page =>
    let node := loadNode eng.pool page
    decide (leafFind node key = none) && decide (maxKeysPerNode - 1 ≤ node.entryCount) &&
      decide (0 ≤ node.nextPage)

/-- The leaves of the tree name the ones before them. -/
def LeavesLinked (eng : Engine) (L : Layout) : Prop :=
  BackLinked (fun q => (nodeAt eng.pool.pageSize eng.pool.pages q).prevPage) (-1) L.foot.links

/-- What a call does to the tree keeps the links, unless it splits a leaf inside. -/
theorem TreeStep.leavesLinked {key : Bytes} (h : Inv ps eng L) (h' : Inv ps eng' L')
    (ht : TreeStep ps eng eng' L L' key)
    (hin : L'.root.toList.length = L.root.toList.length ∨ eng.splitsInside key = false)
    (hb : eng.LeavesLinked L) : eng'.LeavesLinked L' := by
  rw [LeavesLinked, h.pages.pageSize] at hb
  rw [LeavesLinked, h'.pages.pageSize]
  cases ht with
  | same _ _ hfoot hpages =>
    rw [hfoot]
    apply hb.congr
    intro r hr
    simp only [nodeAt, hpages r.1 (h.pages.tree.repr.links_sub hr)]
  | insert v hnone hroot hls =>
    have htree := h.pages.tree
    obtain ⟨hlen, a, p, x, b, m, hl, hl', hm, hother, hcut, hpage, hload, hfind⟩ :=
      h.placed h' hnone hroot hls
    replace hin := hin.resolve_left (by omega)
    rw [hl']
    rw [hl] at hb
    apply hm.backLinked hother _ hb
    intro hfull
    have hmem : (p, x) ∈ L.foot.links := hl ▸ List.mem_append_right a List.mem_cons_self
    have hnext : (nodeAt ps eng.pool.pages p).nextPage = x := by
      have hlinks := htree.repr.leaves.1
      rw [leafLinks, leavesAt, List.map_map] at hlinks
      nth_rewrite 2 [← List.map_id L.foot.links] at hlinks
      exact congrArg Prod.snd (List.map_inj_left.mp hlinks (p, x) hmem)
    rw [splitsInside, hpage] at hin
    simp only [hload, hfind, hnext, BtreeNode.entryCount, decide_true, Bool.true_and,
      decide_eq_true (show maxKeysPerNode - 1 ≤ _ from hfull), decide_eq_false_iff_not] at hin
    have hlinked := htree.linked
    rw [hl, linked_append] at hlinked
    have hx := hlinked.2.1
    cases b with
    | nil => rfl
    | cons r b =>
      have hr : r ∈ L.foot.links := hl ▸ List.mem_append_right a (by simp)
      have h0 := (htree.live.owns.range _ (htree.sub _ (htree.repr.links_sub hr))).1
      exact absurd (hx ▸ h0) hin

/-- A set that would split a leaf splits the last one. -/
def SplitsLast (eng : Engine) : EngineOp → Prop
  | .set txn key _ => eng.accepts txn key = true → eng.splitsInside key = false
  | _ => True

instance (op : EngineOp) : Decidable (eng.SplitsLast op) :=
  match op with
  | .set .. => inferInstanceAs (Decidable (_ → _))
  | .begin => inferInstanceAs (Decidable True)
  | .delete .. => inferInstanceAs (Decidable True)
  | .commit _ => inferInstanceAs (Decidable True)
  | .rollback _ => inferInstanceAs (Decidable True)
  | .gc => inferInstanceAs (Decidable True)
  | .checkpoint => inferInstanceAs (Decidable True)
  | .evict _ => inferInstanceAs (Decidable True)
  | .frames _ => inferInstanceAs (Decidable True)

/-- A call keeps the links. -/
theorem Inv.call_links (h : Inv ps eng L) {op : EngineOp} (hs : eng.step lz4 op = some eng')
    (hp : Proper lz4 eng eng' op) (hlast : eng.SplitsLast op) (hb : eng.LeavesLinked L) :
    ∃ L', Inv ps eng' L' ∧ eng'.LeavesLinked L' := by
  obtain ⟨L', key, hi, ht, hkeys⟩ := h.call_tree hs hp
  refine ⟨L', hi, ht.leavesLinked h hi ?_ hb⟩
  rcases hkeys with hlen | ⟨txn, value, rfl, hacc⟩
  · exact .inl hlen
  · exact .inr (hlast hacc)

/-! ## The walk -/

/-- The descent to the last leaf. -/
theorem lastLeafLoop_repr (hs : pool.Serves) {t : Tree Bytes Bytes d}
    (h : Repr valueMax pool.pageSize pool.pages d t p f) (hsz : Sized maxKeysPerNode d low t)
    (hlow : 0 < d → 1 ≤ low) (hpos : ∀ q ∈ f.pages, 0 ≤ q) (hfuel : d < fuel) :
    ∃ l r, f.links = l ++ [r] ∧ lastLeafLoop pool fuel p = some (some r.1) := by
  induction d generalizing p f low fuel with
  | zero =>
    obtain ⟨fuel, rfl⟩ := Nat.exists_eq_add_of_lt hfuel
    have hp := hpos p h.mem
    obtain ⟨-, hk, -, rfl⟩ := h
    refine ⟨[], _, rfl, ?_⟩
    rw [Nat.zero_add, lastLeafLoop, loadNode_eq hs hp]
    exact if_pos hk
  | succ d ih =>
    obtain ⟨fuel, rfl⟩ : ∃ n, fuel = n + 1 := ⟨fuel - 1, by omega⟩
    have hp := hpos p h.mem
    have hcount := h.count
    obtain ⟨-, hk, -, l, hlt, hlp, hsub, rfl⟩ := h
    obtain ⟨hmin, -, hlen, hchildren⟩ := hsz
    have hseps : 1 ≤ t.seps.length := (hlow (Nat.succ_pos d)).trans hmin
    have hl : l.length = t.seps.length + 1 := by rw [← hlen, ← hlt, List.length_map]
    obtain ⟨init, x, rfl⟩ := (List.eq_nil_or_concat' l).resolve_left (by rintro rfl; cases hl)
    obtain ⟨l', r, hx, hr⟩ := ih (hsub x (by simp)) (hchildren x.tree (by rw [← hlt]; simp))
      (fun _ => le_rfl) (fun q hq => hpos q
        (List.mem_cons_of_mem _ (Foot.mem_join.mpr ⟨x, by simp, hq⟩))) (show d < fuel by omega)
    refine ⟨(Foot.join init).links ++ l', r, ?_, ?_⟩
    · simp only [Foot.root, Foot.join, List.flatMap_append, List.flatMap_singleton, hx,
        List.append_assoc]
    · have hinit : init.length = t.seps.length := by simpa using hl
      have hchild : (nodeAt pool.pageSize pool.pages p).child t.seps.length = x.page := by
        rw [BtreeNode.child, ← hlp, ← hinit]
        simp
      rw [lastLeafLoop, loadNode_eq hs hp]
      simp only [hk, reduceCtorEq, if_false, hcount, count, hchild]
      rw [if_neg (by omega)]
      exact hr

/-- The walk from the last of some leaves finds the last of their entries that is visible. -/
theorem lastKeyLoop_links {node : Int → BtreeNode} {r : Int × Int} (txn : Int)
    (hload : ∀ s ∈ l ++ [r], 0 ≤ s.1 ∧ loadNode eng.pool s.1 = node s.1)
    (hb : BackLinked (fun q => (node q).prevPage) (-1) (l ++ [r])) (hfuel : l.length + 1 < fuel) :
    eng.lastKeyLoop txn fuel r.1 =
      some ((((l ++ [r]).flatMap fun s => (node s.1).entries).reverse.find? fun e =>
        (eng.entryVersion txn e.2).isSome).map Prod.fst) := by
  induction l using List.reverseRecOn generalizing r fuel with
  | nil =>
    obtain ⟨fuel, rfl⟩ : ∃ n, fuel = n + 2 := ⟨fuel - 2, by simp at hfuel; omega⟩
    obtain ⟨h0, hr⟩ := hload r (by simp)
    have hprev : (node r.1).prevPage = -1 := hb.1
    rw [lastKeyLoop, if_neg (not_lt.mpr h0), hr]
    simp only [List.nil_append, List.flatMap_singleton]
    cases hfind : (node r.1).entries.reverse.find? fun e => (eng.entryVersion txn e.2).isSome with
    | some e => rfl
    | none =>
      rw [hprev, lastKeyLoop]
      rfl
  | append_singleton l s ih =>
    obtain ⟨fuel, rfl⟩ : ∃ n, fuel = n + 1 := ⟨fuel - 1, by omega⟩
    obtain ⟨h0, hr⟩ := hload r (by simp)
    obtain ⟨hb, hprev⟩ := backLinked_append.mp hb
    rw [lastOr_concat] at hprev
    have hrest := ih (fun u hu => hload u (List.mem_append_left _ hu)) hb
      (show l.length + 1 < fuel by simp at hfuel; omega)
    have hprev : (node r.1).prevPage = s.1 := hprev.1
    rw [lastKeyLoop, if_neg (not_lt.mpr h0), hr, List.flatMap_append, List.flatMap_singleton,
      List.reverse_append, List.find?_append]
    simp only
    cases hfind : (node r.1).entries.reverse.find? fun e => (eng.entryVersion txn e.2).isSome with
    | some e => rfl
    | none =>
      rw [Option.none_or, ← hrest, ← hprev]

/-- The keys that are visible to a transaction. -/
def existingKeys (eng : Engine) (txn : Int) : Set Bytes :=
  {key | eng.storageExists txn key = some true}

theorem mem_existingKeys {key : Bytes} :
    key ∈ eng.existingKeys txn ↔ eng.storageExists txn key = some true := Iff.rfl

instance (key : Bytes) : Decidable (key ∈ eng.existingKeys txn) :=
  decidable_of_iff _ mem_existingKeys.symm

/-- The visible keys are those of the entries that lead to a version. -/
theorem Inv.storageExists_iff (h : Inv ps eng L) (hact : eng.txnIsActive txn = true)
    {e : Bytes × Bytes} (he : e ∈ L.root.toList) :
    (eng.entryVersion txn e.2).isSome = decide (e.1 ∈ eng.existingKeys txn) := by
  have hread := h.entryVersion txn e.1
  rw [h.pages.tree.wf.sorted.lookup_of_mem he, Option.bind_some] at hread
  rw [Bool.eq_iff_iff, decide_eq_true_iff, mem_existingKeys,
    h.storageExists hact (h.pages.keyLen e he).1, hread, Option.some_inj]

theorem Inv.mem_of_existingKeys (h : Inv ps eng L) (hact : eng.txnIsActive txn = true)
    {key : Bytes} (hk : key ∈ eng.existingKeys txn) : key ∈ L.root.toList.map Prod.fst := by
  have hpos : 0 < key.length := by
    rw [Nat.pos_iff_ne_zero]
    intro hzero
    rw [mem_existingKeys, Engine.storageExists, if_pos hzero] at hk
    cases hk
  rw [mem_existingKeys, h.storageExists hact hpos, Option.some_inj, ← h.entryVersion] at hk
  cases hl : SortedAssoc.lookup key L.root.toList with
  | none =>
    rw [hl] at hk
    cases hk
  | some v => exact List.mem_map_of_mem (SortedAssoc.mem_of_lookup hl)

/-- `garry_storage_last` on a tree with its links finds the last visible key. -/
theorem Inv.storageLast (h : Inv ps eng L) (hb : eng.LeavesLinked L)
    (hact : eng.txnIsActive txn = true) :
    ∃ found, eng.storageLast txn = some found ∧
      (∀ key, found = some key ↔ IsGreatest (eng.existingKeys txn) key) ∧
      (found = none ↔ eng.existingKeys txn = ∅) := by
  have htree := h.pages.tree.readable
  obtain ⟨l, r, hl, hlast⟩ := lastLeafLoop_repr htree.serves htree.repr htree.wf.sized one_le_rootLow
    (fun q hq => (htree.range q hq).1) htree.depth_lt
  have hload : ∀ s ∈ l ++ [r], 0 ≤ s.1 ∧
      loadNode eng.pool s.1 = nodeAt eng.pool.pageSize eng.pool.pages s.1 := by
    intro s hs
    have hsub := htree.repr.links_sub (hl ▸ hs)
    exact ⟨(htree.range _ hsub).1, htree.loadNode hsub⟩
  have hfuel : l.length + 1 < eng.pool.fuel + 1 := by
    have hle := htree.repr.links_sublist.length_le
    have hpages := htree.pages_length
    rw [List.length_map, hl, List.length_append, List.length_singleton] at hle
    rw [Pool.fuel]
    omega
  rw [LeavesLinked, hl] at hb
  have hwalk := lastKeyLoop_links txn hload hb hfuel
  have hentries := htree.repr.leaves.2
  rw [leavesAt, leafEntries, List.flatMap_map, hl] at hentries
  rw [hentries] at hwalk
  have hkeys : (L.root.toList.map Prod.fst).Pairwise (· < ·) :=
    List.pairwise_map.mpr h.pages.tree.wf.sorted
  have hfind : (L.root.toList.reverse.find? fun e => (eng.entryVersion txn e.2).isSome).map Prod.fst =
      (L.root.toList.map Prod.fst).reverse.find? fun key => decide (key ∈ eng.existingKeys txn) := by
    rw [← List.map_reverse, List.find?_map]
    congr 1
    exact List.find?_congr fun e he => h.storageExists_iff hact (List.mem_reverse.mp he)
  have hgreatest (key : Bytes) : (L.root.toList.map Prod.fst).reverse.find?
      (fun key => decide (key ∈ eng.existingKeys txn)) = some key ↔
        IsGreatest (eng.existingKeys txn) key := by
    rw [SortedAssoc.reverse_find?_eq_some_iff_isGreatest hkeys]
    have hset : {k | k ∈ L.root.toList.map Prod.fst ∧ decide (k ∈ eng.existingKeys txn) = true} =
        eng.existingKeys txn := by
      ext k
      simp only [Set.mem_ofPred_eq, decide_eq_true_eq]
      exact ⟨fun hk => hk.2, fun hk => ⟨h.mem_of_existingKeys hact hk, hk⟩⟩
    rw [hset]
  refine ⟨_, ?_, hgreatest, ?_⟩
  · rw [Engine.storageLast, if_neg (by rw [hact]; decide), hlast]
    simp only
    rw [hwalk, ← hfind]
    rfl
  · rw [List.find?_eq_none, Set.eq_empty_iff_forall_notMem]
    constructor
    · intro hno k hk
      have hmem := h.mem_of_existingKeys hact hk
      exact hno k (List.mem_reverse.mpr hmem) (decide_eq_true hk)
    · intro hno k _ hk
      exact hno k (of_decide_eq_true hk)

/-! ## The list of leaves -/

/-- A leaf with a next one is the previous one of it. -/
def DoublyLinked (eng : Engine) : Prop :=
  ∀ p q, TreePage eng.pool eng.btreeRoot p → (loadNode eng.pool p).kind = .leaf →
    (loadNode eng.pool p).nextPage = q → 0 ≤ q → (loadNode eng.pool q).prevPage = p

theorem Inv.doublyLinked (h : Inv ps eng L) (hb : eng.LeavesLinked L) : eng.DoublyLinked := by
  have htree := h.pages.tree.readable
  intro p q hp hk hq h0
  have hlink : (p, q) ∈ L.foot.links := htree.repr.link_of_leaf htree.serves
    (fun q hq => (htree.range q hq).1) (htree.repr.treePage_mem htree.serves
      (fun q hq => (htree.range q hq).1) hp) hk hq
  obtain ⟨a, b, hl⟩ := List.mem_iff_append.mp hlink
  have hlinked := htree.linked
  rw [hl, linked_append] at hlinked
  rw [LeavesLinked, hl] at hb
  have hnext := hlinked.2.1
  cases b with
  | nil =>
    rw [hnext] at h0
    exact absurd h0 (by decide)
  | cons r b =>
    subst hnext
    have hr := htree.repr.links_sub (hl ▸ List.mem_append_right a (List.mem_cons_of_mem _ List.mem_cons_self))
    rw [firstOr, htree.loadNode hr]
    exact (backLinked_append.mp hb).2.2.1

/-- A new tree is one leaf without neighbours. -/
theorem Created.leavesLinked (h : Created ps eng) : eng.LeavesLinked .new := by
  obtain ⟨eng₀, h0, rfl⟩ := h.start
  obtain ⟨pool, header, hpool, -, -, -, heq⟩ := h0.initPages_eq
  have hempty : EmptyPages ps pool.flushAll := hpool.toEmptyPages.foldl_flushPage _
  rw [heq]
  refine ⟨?_, trivial⟩
  have hload := hempty.leaf.load nodeFits_emptyNode (by decide)
  simp only [nodeAt, hempty.pageSize, hload]
  rfl

/-- Proper calls that split no leaf but the last one. -/
def AtEnd (lz4 : Lz4) (_ : Calls) (eng eng' : Engine) (op : EngineOp) (_ : Bool) : Prop :=
  Proper lz4 eng eng' op ∧ eng.SplitsLast op

/-- The links hold after every run that splits no leaf but the last one. -/
theorem Trace.links {calls : Calls} {eng₀ : Engine} (hrun : eng₀.Trace lz4 (AtEnd lz4) eng calls)
    (h0 : Inv ps eng₀ L) (hb : eng₀.LeavesLinked L) : ∃ L', Inv ps eng L' ∧ eng.LeavesLinked L' := by
  induction hrun with
  | refl => exact ⟨L, h0, hb⟩
  | call _ hc hok ih =>
    obtain ⟨L₁, h₁, hb₁⟩ := ih
    exact h₁.call_links (call_step hc) hok.1 hok.2 hb₁

/-- `garry_storage_last` finds the greatest visible key after every run that splits no leaf but the
last one, and the leaves are linked both ways. -/
theorem storageLast_greatest {calls : Calls} {eng₀ : Engine} (h0 : Created ps eng₀)
    (hrun : eng₀.Trace lz4 (AtEnd lz4) eng calls) :
    eng.DoublyLinked ∧ ∀ txn, eng.txnIsActive txn = true →
      ∃ found, eng.storageLast txn = some found ∧
        (∀ key, found = some key ↔ IsGreatest (eng.existingKeys txn) key) ∧
        (found = none ↔ eng.existingKeys txn = ∅) := by
  obtain ⟨L, h, hb⟩ := hrun.links h0.inv.1 h0.leavesLinked
  exact ⟨h.doublyLinked hb, fun txn hact => h.storageLast hb hact⟩

/-- The check of `AtEnd`. -/
def isAtEnd (lz4 : Lz4) (eng eng' : Engine) (op : EngineOp) : Bool :=
  isProper lz4 eng eng' op && decide (eng.SplitsLast op)

theorem atEnd_of_isAtEnd (calls : Calls) (eng eng' : Engine) (op : EngineOp) (done : Bool)
    (h : isAtEnd lz4 eng eng' op = true) : AtEnd lz4 calls eng eng' op done := by
  obtain ⟨h1, h2⟩ := Bool.and_eq_true_iff.mp h
  exact ⟨proper_of_isProper h1, of_decide_eq_true h2⟩

/-- The third key splits the leaf. Its transaction has not committed, so that the last key of the
other one is the second. -/
theorem storageLast_greatest_second : ∃ (eng₀ eng : Engine) (calls : Calls),
    Created 1024 eng₀ ∧ eng₀.Trace .stored (AtEnd .stored) eng calls ∧ eng.DoublyLinked ∧
    eng.storageExists 2 [3] = some true ∧ eng.storageLast 1 = some (some [2]) ∧
    IsGreatest (eng.existingKeys 1) [2] := by
  have hcalls : (newTrace (isAtEnd .stored)
      [.begin, .begin, .set 1 [1] [], .set 1 [2] [], .set 2 [3] []]).map (fun c =>
        (c.1.txnIsActive 1, c.1.storageExists 2 [3], c.1.storageLast 1)) =
      some (true, some true, some (some [2])) := by
    decide +kernel
  obtain ⟨⟨eng, calls⟩, heng, hr⟩ := Option.map_eq_some_iff.mp hcalls
  simp only [Prod.mk.injEq] at hr
  obtain ⟨hact, hexists, hlast⟩ := hr
  obtain ⟨eng₀, h0, -, hrun⟩ := trace_of_newTrace atEnd_of_isAtEnd heng
  obtain ⟨hlinked, hgreatest⟩ := storageLast_greatest h0 hrun
  obtain ⟨found, hfound, hiff, -⟩ := hgreatest 1 hact
  obtain rfl := Option.some.inj (hlast.symm.trans hfound)
  exact ⟨eng₀, eng, calls, h0, hrun, hlinked, hexists, hlast, (hiff [2]).mp rfl⟩

/-- A split of the first of two leaves: the link of the second one passes the new leaf by, and with
it the greatest key of the first transaction. -/
theorem storageLast_passedBy : ∃ (eng₀ eng : Engine), Created 1024 eng₀ ∧
    eng₀.Run .stored (Proper .stored) eng ∧ eng.txnIsActive 1 = true ∧
    eng.storageLast 1 = some (some [1]) ∧ [1, 2] ∈ eng.existingKeys 1 ∧
    ¬ IsGreatest (eng.existingKeys 1) [1] := by
  have hcalls : (newCalls [.begin, .begin, .set 1 [1] [], .set 2 [2] [], .set 2 [3] [],
      .set 1 [1, 1] [], .set 1 [1, 2] []]).map (fun eng =>
        (eng.txnIsActive 1, eng.storageLast 1, eng.storageExists 1 [1, 2])) =
      some (true, some (some [1]), some true) := by
    decide +kernel
  obtain ⟨eng, heng, hr⟩ := Option.map_eq_some_iff.mp hcalls
  simp only [Prod.mk.injEq] at hr
  obtain ⟨hact, hlast, hexists⟩ := hr
  obtain ⟨eng₀, h0, -, hrun⟩ := run_of_newCalls heng
  refine ⟨eng₀, eng, h0, hrun, hact, hlast, hexists, fun hgreatest => ?_⟩
  have hle := hgreatest.2 hexists
  exact absurd hle (by decide)

end Engine

end Garry
