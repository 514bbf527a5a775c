import Garry.Library.BPlusLeaves
import Garry.Verify.KeyCount

/-!
# The leaf that takes a key

A new key goes to the leaf that it is routed to. The leaf keeps its page, also when it is cut and a
new leaf takes the second half; the other leaves stay as they are.
-/

namespace Garry

open ByteStore BPlusTree LeafChain

/-! ## The leaf of a key -/

/-- The leaf that the descent of `btree_insert_rec` ends at. -/
def leafPage (pool : Pool) (key : Bytes) : Nat → Int → Option Int
  | 0, _ => none
  | fuel + 1, page =>
    let node := loadNode pool page
    if node.kind = .leaf then some page
    else leafPage pool key fuel (node.child (internalFind node key))

variable {valueMax ps : Nat} {pages : Int → PageBuffer} {pool : Pool}

/-- The leaves of a tree, in their pages. -/
theorem Repr.leafLists {t : Tree Bytes Bytes d} (h : Repr valueMax ps pages d t p f) :
    f.links.map (fun r => (nodeAt ps pages r.1).entries) = BPlusTree.leaves d t := by
  induction d generalizing p f with
  | zero =>
    obtain ⟨-, -, rfl, rfl⟩ := h
    rfl
  | succ d ih =>
    obtain ⟨-, -, -, l, hlt, -, hsub, rfl⟩ := h
    simp only [Foot.root, Foot.join, BPlusTree.leaves]
    rw [← hlt, List.map_flatMap, List.flatMap_map]
    exact List.flatMap_congr fun x hx => ih (hsub x hx)

/-- The descent follows the routing of the key. -/
theorem leafPage_repr (hs : pool.Serves) {t : Tree Bytes Bytes d}
    (h : Repr valueMax pool.pageSize pool.pages d t p f) (hpos : ∀ q ∈ f.pages, 0 ≤ q)
    (hfuel : d < fuel) (key : Bytes) :
    ∃ a r b, f.links = a ++ r :: b ∧ a.length = leavesBefore d t key ∧
      leafPage pool key fuel p = some r.1 := by
  induction d generalizing p f fuel with
  | zero =>
    obtain ⟨fuel, rfl⟩ := Nat.exists_eq_add_of_lt hfuel
    have hp := hpos p h.mem
    obtain ⟨-, hk, -, rfl⟩ := h
    refine ⟨[], _, [], rfl, rfl, ?_⟩
    rw [Nat.zero_add, leafPage, loadNode_eq hs hp]
    exact if_pos hk
  | succ d ih =>
    obtain ⟨fuel, rfl⟩ : ∃ n, fuel = n + 1 := ⟨fuel - 1, by omega⟩
    have hp := hpos p h.mem
    have hlen := h.children_length
    obtain ⟨hfit, hk, hks, l, hlt, hlp, hsub, rfl⟩ := h
    have hi : childIndex t.seps key < l.length := by
      have hlt' := childIndex_lt (k := key) hlen
      rw [← hlt] at hlt'
      simpa using hlt'
    obtain ⟨pre, x, post, rfl, hpre⟩ : ∃ pre x post, l = pre ++ x :: post ∧
        pre.length = childIndex t.seps key :=
      ⟨l.take (childIndex t.seps key), l[childIndex t.seps key], l.drop (childIndex t.seps key + 1),
        by simp, by rw [List.length_take]; omega⟩
    obtain ⟨a, r, b, hx, ha, hr⟩ := ih (hsub x (by simp)) (fun q hq => hpos q
      (List.mem_cons_of_mem _ (Foot.mem_join.mpr ⟨x, by simp, hq⟩))) (show d < fuel by omega)
    refine ⟨(Foot.join pre).links ++ a, r, b ++ (Foot.join post).links, ?_, ?_, ?_⟩
    · simp only [Foot.root, Foot.join, List.flatMap_append, List.flatMap_cons, hx, List.append_assoc,
        List.cons_append]
    · have hleaves : (Foot.join pre).links.length = ((pre.map Sub.tree).flatMap (leaves d)).length := by
        rw [List.flatMap_map, Foot.join, ← List.length_map (f := fun r : Int × Int =>
          (nodeAt pool.pageSize pool.pages r.1).entries), List.map_flatMap]
        exact congrArg List.length
          (List.flatMap_congr fun y hy => (hsub y (by simp [hy])).leafLists)
      rw [List.length_append, leavesBefore, ← hpre, ← hlt, List.map_append, List.map_cons,
        List.take_left' (List.length_map ..), ← hleaves, ha]
      simp
    · rw [leafPage, loadNode_eq hs hp]
      simp only [hk, reduceCtorEq, if_false]
      rw [internalFind_eq, hks, ← hpre, BtreeNode.child, ← hlp]
      simpa using hr

/-! ## Insertion -/

/-- The leaf that takes an entry: it stays alone or a new leaf is split off from it. -/
inductive LeafTakes (before after : Int → BtreeNode) (p x : Int) : List (Int × Int) → Prop
  | alone : (after p).prevPage = (before p).prevPage → LeafTakes before after p x [(p, x)]
  | split (q : Int) : 2 ≤ (before p).entries.length → (after p).prevPage = (before p).prevPage →
    (after q).prevPage = p → LeafTakes before after p x [(p, q), (q, x)]

/-- An insertion replaces one leaf by what its entries are cut into. -/
theorem LeafStep.place {before after : Int → BtreeNode} {key value : Bytes}
    (h : LeafStep key value before after l l') :
    ∃ a p x b m, l = a ++ (p, x) :: b ∧ l' = a ++ (m ++ b) ∧ LeafTakes before after p x m ∧
      (∀ r ∈ a ++ b, after r.1 = before r.1) ∧
      m.map (fun r => (after r.1).entries) = cutLeaf 2 key value (before p).entries := by
  induction h with
  | inPlace p x hroom hafter =>
    refine ⟨[], p, x, [], [(p, x)], rfl, rfl, .alone ?_, fun r hr => absurd hr List.not_mem_nil, ?_⟩
    · rw [hafter]
    · rw [cutLeaf, if_pos hroom, List.map_cons, List.map_nil, hafter]
  | split p q x all hall hlen hfull hp hk hq hnext hprev =>
    refine ⟨[], p, x, [], [(p, q), (q, x)], rfl, rfl, .split q hfull ?_ hprev,
      fun r hr => absurd hr List.not_mem_nil, ?_⟩
    · rw [hp]
    · rw [cutLeaf, hall, if_neg (by omega), List.map_cons, List.map_cons, List.map_nil, hp, hq]
  | context a b _ hab ih =>
    obtain ⟨a', p, x, b', m, rfl, rfl, hm, hother, hcut⟩ := ih
    refine ⟨a ++ a', p, x, b' ++ b, m, by simp, by simp, hm, fun r hr => ?_, hcut⟩
    simp only [List.mem_append] at hr hab hother
    rcases hr with (hr | hr) | hr | hr
    · exact hab r (.inl hr)
    · exact hother r (.inl hr)
    · exact hother r (.inr hr)
    · exact hab r (.inr hr)

namespace Engine

variable {eng eng' : Engine} {L L' : Layout}

/-- The leaf that takes a new key is the one that the descent ends at. -/
theorem Inv.leafPage_place (h : Inv ps eng L) (h' : Inv ps eng' L') {key v : Bytes} {p x : Int}
    {a b m : List (Int × Int)} (hnone : L.lookup key = none)
    (hroot : L'.root = L.root.insert 2 maxKeysPerNode key v) (hl : L.foot.links = a ++ (p, x) :: b)
    (hl' : L'.foot.links = a ++ (m ++ b))
    (hother : ∀ r ∈ a ++ b, nodeAt ps eng'.pool.pages r.1 = nodeAt ps eng.pool.pages r.1)
    (hcut : m.map (fun r => (nodeAt ps eng'.pool.pages r.1).entries) =
      cutLeaf 2 key v (nodeAt ps eng.pool.pages p).entries) :
    leafPage eng.pool key eng.pool.fuel eng.btreeRoot = some p ∧
      leafFind (nodeAt ps eng.pool.pages p) key = none := by
  have htree := h.pages.tree.readable
  have hleaves := h.pages.tree.repr.leafLists
  have hleaves' := h'.pages.tree.repr.leafLists
  rw [hl, List.map_append, List.map_cons] at hleaves
  rw [hl', hroot, List.map_append, List.map_append, hcut] at hleaves'
  have hsame (l : List (Int × Int)) (hsub : ∀ r ∈ l, r ∈ a ++ b) :
      l.map (fun r => (nodeAt ps eng'.pool.pages r.1).entries) =
        l.map fun r => (nodeAt ps eng.pool.pages r.1).entries :=
    List.map_congr_left fun r hr => congrArg BtreeNode.entries (hother r (hsub r hr))
  rw [hsame a fun r => List.mem_append_left b, hsame b fun r => List.mem_append_right a]
    at hleaves'
  obtain ⟨pre, es, post, hpre, hlen, hins⟩ :=
    h.pages.tree.wf.insert_leaves (show 0 < 2 by decide) key v
  -- the key is in no leaf, so that no leaf stays as it is when it takes the key
  have hnot (es : List (Bytes × Bytes)) (hes : es ∈ leaves L.root.depth L.root.tree) :
      ∀ e ∈ es, e.1 ≠ key := by
    rintro e he rfl
    have hmem : e ∈ L.root.toList := by
      rw [Root.toList, ← flatten_leaves]
      exact List.mem_flatten_of_mem hes he
    have hlook := h.pages.tree.wf.sorted.lookup_of_mem hmem
    rw [Layout.lookup, hlook] at hnone
    cases hnone
  have hp := hnot _ (hleaves ▸ List.mem_append_right _ List.mem_cons_self)
  have hplace := length_eq_of_replaced (hleaves.trans hpre) (hleaves'.trans hins)
    (cutLeaf_head le_rfl hp v) (cutLeaf_head le_rfl (hnot es (hpre ▸ List.mem_append_right _ List.mem_cons_self)) v)
  rw [List.length_map, hlen] at hplace
  obtain ⟨a', r, b', hlinks, ha', hr⟩ := leafPage_repr htree.serves htree.repr
    (fun q hq => (htree.range q hq).1) htree.depth_lt key
  obtain ⟨-, hrest⟩ := List.append_inj (hl.symm.trans hlinks) (hplace.trans ha'.symm)
  obtain ⟨rfl, -⟩ := List.cons.inj hrest
  refine ⟨hr, ?_⟩
  rw [leafFind, List.findIdx?_eq_none_iff]
  intro k hk
  obtain ⟨e, he, rfl⟩ := List.mem_map.mp hk
  simpa [byteEqual] using hp e he

/-- A new key goes into one leaf, the one that the descent ends at. -/
theorem Inv.placed (h : Inv ps eng L) (h' : Inv ps eng' L') {key v : Bytes}
    (hnone : L.lookup key = none) (hroot : L'.root = L.root.insert 2 maxKeysPerNode key v)
    (hls : LeafStep key v (nodeAt ps eng.pool.pages) (nodeAt ps eng'.pool.pages) L.foot.links
      L'.foot.links) :
    L'.root.toList.length = L.root.toList.length + 1 ∧
      ∃ a p x b m, L.foot.links = a ++ (p, x) :: b ∧ L'.foot.links = a ++ (m ++ b) ∧
        LeafTakes (nodeAt ps eng.pool.pages) (nodeAt ps eng'.pool.pages) p x m ∧
        (∀ r ∈ a ++ b, nodeAt ps eng'.pool.pages r.1 = nodeAt ps eng.pool.pages r.1) ∧
        m.map (fun r => (nodeAt ps eng'.pool.pages r.1).entries) =
          cutLeaf 2 key v (nodeAt ps eng.pool.pages p).entries ∧
        leafPage eng.pool key eng.pool.fuel eng.btreeRoot = some p ∧
        loadNode eng.pool p = nodeAt ps eng.pool.pages p ∧
        leafFind (nodeAt ps eng.pool.pages p) key = none := by
  have htree := h.pages.tree
  have hnew : ∀ e ∈ L.root.toList, e.1 ≠ key := by
    rintro e he rfl
    have hlook := htree.wf.sorted.lookup_of_mem he
    rw [Layout.lookup, hlook] at hnone
    cases hnone
  obtain ⟨a, p, x, b, m, hl, hl', hm, hother, hcut⟩ := hls.place
  obtain ⟨hpage, hfind⟩ := h.leafPage_place h' hnone hroot hl hl' hother hcut
  have hmem : (p, x) ∈ L.foot.links := hl ▸ List.mem_append_right a List.mem_cons_self
  refine ⟨?_, a, p, x, b, m, hl, hl', hm, hother, hcut, hpage, ?_, hfind⟩
  · have hins := (@Root.Wf.insert _ _ _ 2 maxKeysPerNode _ (by decide) (by decide) (by decide)
      htree.wf key v).2
    rw [hroot, hins, SortedAssoc.length_insert_of_notMem hnew]
  · exact htree.live.loadNode (htree.sub p (htree.repr.links_sub hmem))

/-- A set that is not accepted changes nothing. -/
theorem storageSet_of_not_accepts {key value : Bytes} (hacc : eng.accepts txn key = false) :
    eng.storageSet lz4 txn key value = some (false, eng) := by
  rw [Engine.storageSet]
  split
  · rfl
  next hlen =>
  split
  · rfl
  next hact =>
  replace hact : eng.txnIsActive txn = true := by simpa using hact
  have hpos : 0 < key.length := by
    rw [Nat.pos_iff_ne_zero]
    exact fun hzero => hlen (.inl hzero)
  rw [accepts, hact, decide_eq_true hpos, Bool.true_and, Bool.true_and, Option.isSome_eq_false_iff,
    Option.isNone_iff_eq_none] at hacc
  rw [hacc]

/-- What a call does to the tree: it keeps the number of keys, or it is an accepted set of the key. -/
theorem Inv.call_tree (h : Inv ps eng L) {op : EngineOp} (hs : eng.step lz4 op = some eng')
    (hp : Proper lz4 eng eng' op) :
    ∃ L' key, Inv ps eng' L' ∧ TreeStep ps eng eng' L L' key ∧
      (L'.root.toList.length = L.root.toList.length ∨
        ∃ txn value, op = .set txn key value ∧ eng.accepts txn key = true) := by
  by_cases hop : ∃ txn key value, op = .set txn key value
  · obtain ⟨txn, key, value, rfl⟩ := hop
    obtain ⟨⟨ok, eng₁⟩, hset, rfl⟩ := Option.map_eq_some_iff.mp hs
    obtain ⟨L', hi, -, -, ht, -⟩ := h.set hp.2.1 hp.2.2 hset hp.1
    cases hacc : eng.accepts txn key with
    | true => exact ⟨L', key, hi, ht, .inr ⟨txn, value, rfl, hacc⟩⟩
    | false =>
      rw [storageSet_of_not_accepts hacc] at hset
      cases hset
      exact ⟨L, key, h, .same rfl rfl rfl (fun _ _ => rfl), .inl rfl⟩
  · have hset : ∀ txn key value, op ≠ .set txn key value := fun txn key value he =>
      hop ⟨txn, key, value, he⟩
    obtain ⟨L', hi, -, ⟨key, ht⟩, -⟩ := h.call hs hp
    obtain ⟨L'', hi', hlen⟩ := h.call_keys hs hp hset
    have heq : L'.root.toList.length = L''.root.toList.length := by
      rw [← ENat.natCast_inj, ← hi.encard_treeKeys, hi'.encard_treeKeys]
    exact ⟨L', key, hi, ht, .inl (heq.trans hlen)⟩

end Engine

end Garry
