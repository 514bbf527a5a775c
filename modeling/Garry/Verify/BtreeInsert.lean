import Garry.Verify.BtreeRepr

/-!
# Insertion into a tree on pages

`btree_insert_rec` on the pages of a tree computes the insertion into the tree: every case of the
source is followed to the pages it leaves behind.
-/

namespace Garry

open ByteStore BPlusTree LeafChain

variable {valueMax ps : Nat} {used : Set Int} {pool : Pool}

/-- One past the largest page id the node codec can store. -/
abbrev pageIdLimit : Int := 2147483648 - pageIdBias

/-- What an insertion below page `p` leaves behind: the changed subtree and, for a split, the new
subtree right of it under its separator. -/
def PieceRepr (valueMax ps : Nat) (pages : Int → PageBuffer) (d : Nat) (t : Tree Bytes Bytes d)
    (p : Int) (out : InsertOut) (f : Foot) : Option (Bytes × Tree Bytes Bytes d) → Prop
  | none => out.newChild = -1 ∧ Repr valueMax ps pages d t p f
  | some (sep, u) =>
    out.sep = sep ∧ sep.length ≤ 255 ∧ 0 ≤ out.newChild ∧ out.newChild < out.pool.nextPage ∧
      ∃ f₁ f₂, Repr valueMax ps pages d t p f₁ ∧ Repr valueMax ps pages d u out.newChild f₂ ∧
        f = f₁.append f₂

/-- The pool an insertion leaves behind. -/
structure Grows (valueMax ps : Nat) (used used' : Set Int) (pool pool' : Pool) (n : Nat)
    (own : List Int) : Prop where
  live : Live valueMax ps pool' used'
  sub : used ⊆ used'
  next_le : pool.nextPage ≤ pool'.nextPage
  le_next : pool'.nextPage ≤ pool.nextPage + n
  frame : ∀ q ∈ used, q ∉ own → pool'.pages q = pool.pages q

/-! ## Leaves -/

theorem NodeFits.withEntries (h : NodeFits valueMax node) (hk : node.kind = .leaf)
    (es : List (Bytes × Bytes)) (hes : ∀ e ∈ es, e.1.length ≤ 255 ∧ e.2.length ≤ valueMax)
    (hlen : es.length ≤ maxKeysPerNode) : NodeFits valueMax { node with entries := es } := by
  refine { h with shape := .inl ⟨hk, ?_⟩, count := hlen, entry := hes }
  rcases h.shape with ⟨-, hc⟩ | ⟨hk', -⟩
  · exact hc
  · rw [hk] at hk'; cases hk'

theorem insertPosition_eq {node : BtreeNode} (h : node.entries.length < 2) :
    insertPosition node key node.entryCount =
      node.entries.findIdx fun e => decide (key < e.1) := by
  rw [BtreeNode.entryCount]
  rcases hes : node.entries with _ | ⟨e, _ | ⟨e', es⟩⟩
  · simp [insertPosition, BtreeNode.entryCount, hes]
  · simp only [List.length_singleton, insertPosition, BtreeNode.keys, hes, List.map_cons,
      List.map_nil, List.getD_cons_zero, byteCompare_lt_zero, BtreeNode.entryCount,
      List.findIdx_cons, List.findIdx_nil]
    by_cases hlt : key < e.1 <;> simp [hlt]
  · rw [hes] at h; simp at h

theorem findIdx_keys (node : BtreeNode) (key : Bytes) :
    (node.keys.findIdx fun k => decide (byteCompare key k < 0)) =
      node.entries.findIdx fun e => decide (key < e.1) := by
  rw [BtreeNode.keys, List.findIdx_map]
  congr 1
  funext e
  exact decide_eq_decide.mpr byteCompare_lt_zero

/-- Storing a leaf in place. -/
theorem grows_of_writes (hl : Live valueMax ps pool used) (hp : p ∈ used)
    (hw : Writes pool pool' p node) : Grows valueMax ps used used pool pool' 0 [p] where
  live := hw.live hl hp
  sub := subset_rfl
  next_le := le_of_eq hw.nextPage.symm
  le_next := by rw [hw.nextPage]; simp
  frame q _ hq := hw.frame q (by simpa using hq)

theorem repr_of_leaf {pages : Int → PageBuffer} (hn : nodeAt ps pages p = node)
    (hf : NodeFits valueMax node) (hk : node.kind = .leaf) :
    Repr valueMax ps pages 0 node.entries p ⟨[(p, node.nextPage)], [p]⟩ := by
  subst hn
  exact ⟨hf, hk, rfl, rfl⟩

/-- The two stores of a split. -/
structure SplitWrites (valueMax ps : Nat) (used : Set Int) (pool pool' : Pool) (p q : Int)
    (left right : BtreeNode) : Prop where
  live : Live valueMax ps pool' used
  nextPage : pool'.nextPage = pool.nextPage
  left_at : nodeAt ps pool'.pages p = left
  right_at : nodeAt ps pool'.pages q = right
  frame : ∀ x, x ≠ p → x ≠ q → pool'.pages x = pool.pages x

theorem splitWrites (hl : Live valueMax ps pool used) (hp : p ∈ used) (hq : q ∈ used)
    (hpq : q ≠ p) (hright : NodeFits valueMax right) (hleft : NodeFits valueMax left) :
    SplitWrites valueMax ps used pool (storeNode (storeNode pool q right) p left) p q left right := by
  have hw1 := hl.storeNode hq hright
  have hl₁ := hw1.live hl hq
  have hw2 := hl₁.storeNode hp hleft
  refine ⟨hw2.live hl₁ hp, hw2.nextPage.trans hw1.nextPage, hw2.at hl₁, ?_,
    fun x hxp hxq => (hw2.frame x hxp).trans (hw1.frame x hxq)⟩
  rw [nodeAt, hw2.frame q hpq, ← nodeAt, ← hl.size]
  exact hw1.stored

theorem leafSplit_eq (p : Int) (value : Bytes) (ha : allocateLeaf pool = (q, pool₁)) (hq : 0 ≤ q)
    (hload : loadNode pool₁ q = emptyNode) (hnew : ∀ e ∈ node.entries, e.1 ≠ key) :
    let all := SortedAssoc.insert key value node.entries
    let mid := all.length / 2
    let right : BtreeNode := ⟨.leaf, 0, all.drop mid, [], node.nextPage, p⟩
    let left := { node with entries := all.take mid, nextPage := q }
    leafSplit pool p node key value =
      (⟨storeNode (storeNode (pool₁.markDirty p) q right) p left, true, right.keys.getD 0 [], q⟩,
        left) := by
  have hall : node.entries.insertIdx (node.entries.findIdx fun e => decide (key < e.1))
      (key, value) = SortedAssoc.insert key value node.entries :=
    (SortedAssoc.insert_eq_insertIdx hnew).symm
  have hlen := SortedAssoc.length_insert_of_notMem (v := value) hnew
  simp only [leafSplit, findIdx_keys, hall, BtreeNode.entryCount, ← hlen, ha, hload]
  rw [if_neg (by omega)]
  rfl

/-- A full leaf splits. -/
theorem leafSplit_repr (hl : Live valueMax ps pool used) (hp : p ∈ used)
    (hf : NodeFits valueMax node) (hk : node.kind = .leaf) (hkey : key.length ≤ 255)
    (hval : value.length ≤ valueMax) (hfull : 2 ≤ node.entries.length)
    (hnew : ∀ e ∈ node.entries, e.1 ≠ key) (hids : pool.nextPage + 1 < pageIdLimit)
    (hall : SortedAssoc.insert key value node.entries = all) (hmid : all.length / 2 = mid) :
    ∃ pool₁ pool₂ q right, leafSplit pool p node key value =
        (⟨pool₂, true, right.keys.getD 0 [], q⟩,
          { node with entries := all.take mid, nextPage := q }) ∧
      0 ≤ q ∧ q ∉ used ∧ q < pool₁.nextPage ∧ pool.nextPage ≤ pool₁.nextPage ∧
      pool₁.nextPage ≤ pool.nextPage + 1 ∧ (∀ x, x ≠ q → pool₁.pages x = pool.pages x) ∧
      right.kind = .leaf ∧ right.entries = all.drop mid ∧ right.nextPage = node.nextPage ∧
      right.prevPage = p ∧ NodeFits valueMax right ∧
      NodeFits valueMax { node with entries := all.take mid, nextPage := q } ∧
      SplitWrites valueMax ps (insert q used) pool₁ pool₂ p q
        { node with entries := all.take mid, nextPage := q } right := by
  have hlen : all.length = node.entries.length + 1 :=
    hall ▸ SortedAssoc.length_insert_of_notMem hnew
  have hcnt : node.entries.length ≤ 3 := hf.count
  have hent : ∀ e ∈ all, e.1.length ≤ 255 ∧ e.2.length ≤ valueMax := by
    intro e he
    rcases SortedAssoc.mem_insert (hall ▸ he) with rfl | he
    · exact ⟨hkey, hval⟩
    · exact hf.entry e he
  obtain ⟨q, pool₁, ha, hq0, hq, hqlt, hl₁, hn1, hn2, hfr, buf, hbuf⟩ := hl.allocateNode .leaf
  have hqp : q ≠ p := fun e => hq (e ▸ hp)
  have hpr := hl.owns.range p hp
  simp only [pageIdLimit, pageIdBias] at hids
  have hqid : Encodable q := by simp only [Encodable, pageIdBias]; omega
  have hpid : Encodable p := by simp only [Encodable, pageIdBias]; omega
  have hload : loadNode pool₁ q = emptyNode := by
    rw [hl₁.loadNode (Set.mem_insert ..), nodeAt, hbuf, loadPage_pageInit]
  have hright : NodeFits valueMax ⟨.leaf, 0, all.drop mid, [], node.nextPage, p⟩ := {
    shape := .inl ⟨rfl, rfl⟩
    level := (by decide : Fits32 0)
    count := by simp only [List.length_drop, maxKeysPerNode]; omega
    entry := fun e he => hent e (List.mem_of_mem_drop he)
    next := hf.next
    prev := hpid
    child := by simp }
  have hleft : NodeFits valueMax { node with entries := all.take mid, nextPage := q } := by
    have h := hf.withEntries hk (all.take mid)
      (fun e he => hent e (List.mem_of_mem_take he))
      (by simp only [List.length_take, maxKeysPerNode]; omega)
    exact { h with next := hqid }
  have heq := leafSplit_eq p value ha hq0 hload hnew
  simp only [hall, hmid] at heq
  have hw := splitWrites (hl₁.markDirty p) (Set.mem_insert_of_mem _ hp) (Set.mem_insert ..) hqp
    hright hleft
  exact ⟨pool₁, _, q, _, heq, hq0, hq, hqlt, hn1, hn2, hfr, rfl, rfl, rfl, rfl, hright, hleft,
    { hw with }⟩

/-- Insertion below a leaf page whose entries only change in place. -/
theorem leafInPlace_repr (hl : Live valueMax ps pool used) (hp : p ∈ used)
    (hf : NodeFits valueMax node) (hk : node.kind = .leaf) (hkey : key.length ≤ 255)
    (hval : value.length ≤ valueMax) (hall : SortedAssoc.insert key value node.entries = all)
    (hin : all.length = node.entries.length ∨ node.entries.length < 2) (hlen : all.length ≤ 3) :
    Grows valueMax ps used used pool (storeDirty pool p { node with entries := all }) 1 [p] ∧
      PieceRepr valueMax ps (storeDirty pool p { node with entries := all }).pages 0
        (BPlusTree.insert 2 3 0 node.entries key value).1 p
        ⟨storeDirty pool p { node with entries := all }, true, [], -1⟩
        ⟨[(p, node.nextPage)], [p]⟩ (BPlusTree.insert 2 3 0 node.entries key value).2 ∧
      nodeAt ps (storeDirty pool p { node with entries := all }).pages p =
        { node with entries := all } := by
  have hins : BPlusTree.insert 2 3 0 node.entries key value = (all, none) := by
    subst hall
    exact if_pos hin
  have hfits : NodeFits valueMax { node with entries := all } := by
    refine hf.withEntries hk _ (fun e he => ?_) hlen
    rcases SortedAssoc.mem_insert (hall ▸ he) with rfl | he
    · exact ⟨hkey, hval⟩
    · exact hf.entry e he
  have hw := hl.storeDirty hp hfits
  have hg := grows_of_writes hl hp hw
  rw [hins]
  refine ⟨{ hg with le_next := ?_ }, ⟨rfl, ?_⟩, hw.at hl⟩
  · have := hg.le_next; omega
  · exact repr_of_leaf (hw.at hl) hfits hk

/-- Insertion below a leaf page. -/
theorem btreeInsertRec_leaf (hl : Live valueMax ps pool used) {es : Tree Bytes Bytes 0}
    (h : Repr valueMax ps pool.pages 0 es p f) (hs : ∀ q ∈ f.pages, q ∈ used)
    (hsorted : SortedAssoc.Sorted (toList 0 es)) (hkey : key.length ≤ 255)
    (hval : value.length ≤ valueMax) (hids : pool.nextPage + 1 < pageIdLimit) (fuel : Nat) :
    ∃ out used' f', btreeInsertRec key value (fuel + 1) pool p = some out ∧
      out.inserted = true ∧ Grows valueMax ps used used' pool out.pool 1 f.pages ∧
      PieceRepr valueMax ps out.pool.pages 0 (BPlusTree.insert 2 3 0 es key value).1 p out f'
        (BPlusTree.insert 2 3 0 es key value).2 ∧ Evolves used used' f f' ∧
      LeafStep key value (nodeAt ps pool.pages) (nodeAt ps out.pool.pages) f.links f'.links := by
  have hp : p ∈ used := hs p h.mem
  obtain ⟨hf, hk, hes, rfl⟩ := h
  have hload := hl.loadNode hp
  generalize hnode : nodeAt ps pool.pages p = node at *
  subst hes
  have hsorted : SortedAssoc.Sorted node.entries := hsorted
  have hcnt : node.entries.length ≤ 3 := hf.count
  have hkept : Evolves used used ⟨[(p, node.nextPage)], [p]⟩ ⟨[(p, node.nextPage)], [p]⟩ :=
    ⟨by simp, fun q hq => .inl hq, hs, Kept.rfl⟩
  rw [btreeInsertRec, hload]
  simp only
  rw [if_pos hk]
  cases hfind : leafFind node key with
  | some i =>
    obtain ⟨e, hi, he⟩ := leafFind_some hfind
    have hset := hsorted.insert_eq_set (v := value) hi he
    obtain ⟨h1, h2, h3⟩ := leafInPlace_repr hl hp hf hk hkey hval hset (.inl (List.length_set ..))
      (by rw [List.length_set]; exact hcnt)
    refine ⟨⟨storeDirty pool p { node with entries := node.entries.set i (key, value) }, true, [],
      -1⟩, used, ⟨[(p, node.nextPage)], [p]⟩, rfl, rfl, h1, h2, hkept, .inPlace p _ ?_ ?_⟩
    · rw [hnode, hset]
      exact .inl (List.length_set ..)
    · rw [hnode, hset]
      exact h3
  | none =>
    have hnew := leafFind_none hfind
    simp only
    by_cases hroom : node.entries.length < 2
    · have hidx := SortedAssoc.insert_eq_insertIdx (v := value) hnew
      have hlen := SortedAssoc.length_insert_of_notMem (v := value) hnew
      have hc : node.entryCount < maxKeysPerNode - 1 := hroom
      rw [if_pos hc, leafInsert, if_neg (by simp only [maxKeysPerNode] at hc ⊢; omega),
        insertPosition_eq hroom, ← hidx]
      generalize hall : SortedAssoc.insert key value node.entries = all at hlen
      obtain ⟨h1, h2, h3⟩ := leafInPlace_repr hl hp hf hk hkey hval hall (.inr hroom) (by omega)
      refine ⟨⟨storeDirty pool p { node with entries := all }, true, [], -1⟩, used,
        ⟨[(p, node.nextPage)], [p]⟩, rfl, rfl, h1, h2, hkept, .inPlace p _ ?_ ?_⟩
      · rw [hnode]
        exact .inr hroom
      · rw [hnode, hall]
        exact h3
    · have hc : ¬ node.entryCount < maxKeysPerNode - 1 := hroom
      rw [if_neg hc]
      generalize hall : SortedAssoc.insert key value node.entries = all
      obtain ⟨pool₁, pool₂, q, right, h1, h2, h3, h4, h5, h6, h7, h8, h9, h10, h13, h11, h12, hw⟩ :=
        leafSplit_repr hl hp hf hk hkey hval (by omega) hnew hids hall rfl
      have hlen : all.length = node.entries.length + 1 :=
        hall ▸ SortedAssoc.length_insert_of_notMem hnew
      have hp' : p ∈ insert q used := Set.mem_insert_of_mem _ hp
      have hqp : q ≠ p := fun e => h3 (e ▸ hp)
      have hw2 := hw.live.storeNode hp' h12
      obtain ⟨e, es, hd⟩ : ∃ e es, all.drop (all.length / 2) = e :: es := by
        cases hd : all.drop (all.length / 2) with
        | nil => simp at hd; omega
        | cons e es => exact ⟨e, es, rfl⟩
      have hsep : right.keys.getD 0 [] = e.1 := by simp [BtreeNode.keys, h9, hd]
      have hins : BPlusTree.insert 2 3 0 node.entries key value =
          (all.take (all.length / 2), some (e.1, all.drop (all.length / 2))) := by
        subst hall
        refine (if_neg ?_).trans ?_
        · omega
        · rw [hd]; rfl
      have hleft : Repr valueMax ps (storeNode pool₂ p
          { node with entries := all.take (all.length / 2), nextPage := q }).pages 0
          (all.take (all.length / 2)) p ⟨[(p, q)], [p]⟩ :=
        repr_of_leaf (hw2.at hw.live) h12 hk
      have hright : Repr valueMax ps (storeNode pool₂ p
          { node with entries := all.take (all.length / 2), nextPage := q }).pages 0
          (all.drop (all.length / 2)) q ⟨[(q, node.nextPage)], [q]⟩ := by
        have := repr_of_leaf hw.right_at h11 h8
        rw [h9, h10] at this
        refine this.congr fun x hx => hw2.frame x ?_
        simp only [List.mem_singleton] at hx
        exact hx ▸ hqp
      have hright_at : nodeAt ps (storeNode pool₂ p
          { node with entries := all.take (all.length / 2), nextPage := q }).pages q = right := by
        rw [nodeAt, hw2.frame q hqp]
        exact hw.right_at
      rw [h1, hins]
      refine ⟨_, insert q used, ⟨[(p, q), (q, node.nextPage)], [p, q]⟩, rfl, rfl,
        ⟨hw2.live hw.live hp', Set.subset_insert .., ?_, ?_, fun x hx hxp => ?_⟩,
        ⟨hsep, ?_, h2, ?_, _, _, hleft, hright, rfl⟩, ⟨?_, ?_, ?_, Kept.split⟩,
        .split p q _ all ?_ ?_ ?_ ?_ ?_ ?_ ?_ ?_⟩
      · show _ ≤ (storeNode pool₂ p _).nextPage
        rw [hw2.nextPage, hw.nextPage]; exact h5
      · show (storeNode pool₂ p _).nextPage ≤ _
        rw [hw2.nextPage, hw.nextPage]; exact h6
      · have hxp : x ≠ p := by simpa using hxp
        have hxq : x ≠ q := fun e => h3 (e ▸ hx)
        exact (hw2.frame x hxp).trans ((hw.frame x hxp hxq).trans (h7 x hxq))
      · exact hsep ▸ (h11.entry e (by rw [h9, hd]; simp)).1
      · show _ < (storeNode pool₂ p _).nextPage
        rw [hw2.nextPage, hw.nextPage]; exact h4
      · simpa using hqp.symm
      · intro x hx
        simp only [List.mem_cons, List.not_mem_nil, or_false] at hx
        rcases hx with rfl | rfl
        · exact .inl (by simp)
        · exact .inr h3
      · intro x hx
        simp only [List.mem_cons, List.not_mem_nil, or_false] at hx
        rcases hx with rfl | rfl
        · exact hp'
        · exact Set.mem_insert ..
      · rw [hnode]
        exact hall
      · rw [hnode]
        exact hlen
      · rw [hnode]
        exact not_lt.mp hroom
      · rw [hnode]
        exact hw2.at hw.live
      · rw [hright_at]
        exact h8
      · rw [hright_at]
        exact h9
      · rw [hright_at, hnode]
        exact h10
      · rw [hright_at]
        exact h13

/-! ## Branches -/

theorem set_middle {α : Type} {pre post : List α} {x y : α} :
    (pre ++ x :: post).set pre.length y = pre ++ y :: post := by
  rw [List.set_append_right _ _ (le_refl _)]; simp

theorem insertIdx_middle {α : Type} {pre post : List α} {x y : α} :
    (pre ++ x :: post).insertIdx (pre.length + 1) y = pre ++ x :: y :: post := by
  induction pre with
  | nil => rfl
  | cons z pre ih => simpa using ih

theorem NodeFits.withBranch (h : NodeFits valueMax node) (hk : node.kind = .internal)
    (es : List (Bytes × Bytes)) (cs : List Int)
    (hes : ∀ e ∈ es, e.1.length ≤ 255 ∧ e.2 = []) (hlen : es.length ≤ maxKeysPerNode)
    (hcs : cs.length = es.length + 1) (hids : ∀ c ∈ cs, Encodable c) :
    NodeFits valueMax { node with entries := es, children := cs } :=
  { h with
    shape := .inr ⟨hk, hcs, fun e he => (hes e he).2⟩
    count := hlen
    entry := fun e he => ⟨(hes e he).1, by rw [(hes e he).2]; exact Nat.zero_le _⟩
    child := hids }

theorem NodeFits.branch_entry (h : NodeFits valueMax node) (hk : node.kind = .internal) :
    node.children.length = node.entries.length + 1 ∧
      ∀ e ∈ node.entries, e.1.length ≤ 255 ∧ e.2 = [] := by
  rcases h.shape with ⟨hk', -⟩ | ⟨-, hc, hv⟩
  · rw [hk] at hk'; cases hk'
  · exact ⟨hc, fun e he => ⟨(h.entry e he).1, hv e he⟩⟩

theorem repr_of_branch {pages : Int → PageBuffer} (hn : nodeAt ps pages p = node)
    (hf : NodeFits valueMax node) (hk : node.kind = .internal) (ks : List Bytes)
    (hks : node.keys = ks) {l : List (Sub d)} (hlp : l.map Sub.page = node.children)
    (hsub : ∀ x ∈ l, Repr valueMax ps pages d x.tree x.page x.foot) :
    Repr valueMax ps pages (d + 1) (⟨ks, l.map Sub.tree⟩ : Branch Bytes (Tree Bytes Bytes d)) p
      ((Foot.join l).root p) := by
  subst hn
  exact ⟨hf, hk, hks, l, rfl, hlp, hsub, rfl⟩

/-- A full internal node splits. -/
theorem internalSplit_repr (hl : Live valueMax ps pool used) (hp : p ∈ used)
    (hf : NodeFits valueMax node) (hk : node.kind = .internal)
    (hids : pool.nextPage + 1 < pageIdLimit) (hfull : node.entries.length = 3) (hi : i ≤ 3)
    (hkey : insertKey.length ≤ 255) (hchild : Encodable insertChild)
    (hall : node.entries.insertIdx i (insertKey, []) = all)
    (hcs : node.children.insertIdx (i + 1) insertChild = cs) :
    ∃ pool₁ pool₂ q right, internalSplit pool p node i insertKey insertChild =
        ⟨pool₂, true, (all.getD 2 ([], [])).1, q⟩ ∧
      0 ≤ q ∧ q ∉ used ∧ q < pool₁.nextPage ∧ pool.nextPage ≤ pool₁.nextPage ∧
      pool₁.nextPage ≤ pool.nextPage + 1 ∧ (∀ x, x ≠ q → pool₁.pages x = pool.pages x) ∧
      right.kind = .internal ∧ right.entries = all.drop 3 ∧ right.children = cs.drop 3 ∧
      NodeFits valueMax right ∧
      NodeFits valueMax { node with
        entries := all.take 2, children := cs.take 3, nextPage := q } ∧
      SplitWrites valueMax ps (insert q used) pool₁ pool₂ p q
        { node with entries := all.take 2, children := cs.take 3, nextPage := q } right := by
  obtain ⟨hclen, hents⟩ := hf.branch_entry hk
  have hlen : all.length = 4 := by
    rw [← hall, List.length_insertIdx_of_le_length (by omega), hfull]
  have hcl : cs.length = 5 := by
    rw [← hcs, List.length_insertIdx_of_le_length (by omega), hclen, hfull]
  have hent : ∀ e ∈ all, e.1.length ≤ 255 ∧ e.2 = [] := by
    intro e he
    rcases List.eq_or_mem_of_mem_insertIdx (hall ▸ he) with rfl | he
    · exact ⟨hkey, rfl⟩
    · exact hents e he
  have hcids : ∀ c ∈ cs, Encodable c := by
    intro c hc
    rcases List.eq_or_mem_of_mem_insertIdx (hcs ▸ hc) with rfl | hc
    · exact hchild
    · exact hf.child c hc
  obtain ⟨q, pool₁, ha, hq0, hq, hqlt, hl₁, hn1, hn2, hfr, buf, hbuf⟩ :=
    hl.allocateNode .internal
  have hqp : q ≠ p := fun e => hq (e ▸ hp)
  have hpr := hl.owns.range p hp
  simp only [pageIdLimit, pageIdBias] at hids
  have hqid : Encodable q := by simp only [Encodable, pageIdBias]; omega
  have hpid : Encodable p := by simp only [Encodable, pageIdBias]; omega
  have hright : NodeFits valueMax ⟨.internal, node.pageLevel, all.drop 3, cs.drop 3,
      node.nextPage, p⟩ := {
    shape := .inr ⟨rfl, by simp [hlen, hcl], fun e he => (hent e (List.mem_of_mem_drop he)).2⟩
    level := hf.level
    count := by simp [hlen]
    entry := fun e he => ⟨(hent e (List.mem_of_mem_drop he)).1, by
      rw [(hent e (List.mem_of_mem_drop he)).2]; exact Nat.zero_le _⟩
    next := hf.next
    prev := hpid
    child := fun c hc => hcids c (List.mem_of_mem_drop hc) }
  have hleft : NodeFits valueMax { node with
      entries := all.take 2, children := cs.take 3, nextPage := q } := by
    have h := hf.withBranch hk (all.take 2) (cs.take 3)
      (fun e he => hent e (List.mem_of_mem_take he)) (by simp [hlen, maxKeysPerNode])
      (by simp [hlen, hcl]) (fun c hc => hcids c (List.mem_of_mem_take hc))
    exact { h with next := hqid }
  have hw := splitWrites hl₁ (Set.mem_insert_of_mem _ hp) (Set.mem_insert ..) hqp hright hleft
  refine ⟨pool₁, _, q, _, ?_, hq0, hq, hqlt, hn1, hn2, hfr, rfl, rfl, rfl, hright, hleft,
    ⟨(hw.live.markDirty q).markDirty p, hw.nextPage, hw.left_at, hw.right_at, hw.frame⟩⟩
  simp only [internalSplit, BtreeNode.entryCount, hfull, hall, hcs, allocateInternal, ha]
  rw [if_neg (by omega)]

@[simp] theorem Foot.join_singleton {x : Sub d} : Foot.join [x] = x.foot := by simp [Foot.join]

/-- The siblings of changed children stay as they are. -/
theorem siblings_kept {pages pages' : Int → PageBuffer} {pre post xs : List (Sub d)}
    (hn : (Foot.join (pre ++ (xs ++ post))).pages.Nodup)
    (hs : ∀ q ∈ (Foot.join (pre ++ (xs ++ post))).pages, q ∈ used)
    (hframe : ∀ q ∈ used, q ∉ (Foot.join xs).pages → pages' q = pages q) :
    ∀ y ∈ pre ++ post, ∀ q ∈ y.foot.pages, pages' q = pages q := by
  intro y hy q hq
  rw [Foot.join_append, Foot.join_append] at hn hs
  have hmem : q ∈ (Foot.join pre).pages ∨ q ∈ (Foot.join post).pages :=
    (List.mem_append.mp hy).imp (fun h => Foot.mem_join.mpr ⟨y, h, hq⟩)
      (fun h => Foot.mem_join.mpr ⟨y, h, hq⟩)
  simp only [Foot.append, List.nodup_append, List.mem_append] at hn hs
  obtain ⟨-, ⟨-, -, h2⟩, h1⟩ := hn
  refine hframe q (hs q ?_) fun hqx => ?_
  · rcases hmem with h | h
    · exact .inl h
    · exact .inr (.inr h)
  · rcases hmem with h | h
    · exact h1 q h q (.inl hqx) rfl
    · exact h2 q hqx q h rfl

/-- The children after some neighbouring ones changed. -/
theorem children_repr {pages pages' : Int → PageBuffer} {pre post : List (Sub d)}
    (xs ys : List (Sub d))
    (hsub : ∀ y ∈ pre ++ (xs ++ post), Repr valueMax ps pages d y.tree y.page y.foot)
    (hn : (Foot.join (pre ++ (xs ++ post))).pages.Nodup)
    (hs : ∀ q ∈ (Foot.join (pre ++ (xs ++ post))).pages, q ∈ used) (hu : used ⊆ used')
    (hframe : ∀ q ∈ used, q ∉ (Foot.join xs).pages → pages' q = pages q)
    (hys : ∀ y ∈ ys, Repr valueMax ps pages' d y.tree y.page y.foot)
    (hev : Evolves used used' (Foot.join xs) (Foot.join ys)) :
    (∀ y ∈ pre ++ (ys ++ post), Repr valueMax ps pages' d y.tree y.page y.foot) ∧
      Evolves used used' (Foot.join (pre ++ (xs ++ post))) (Foot.join (pre ++ (ys ++ post))) := by
  have hother := siblings_kept hn hs hframe
  rw [Foot.join_append, Foot.join_append] at hn hs ⊢
  refine ⟨fun y hy => ?_, ?_⟩
  · simp only [List.mem_append] at hy
    rcases hy with hy | hy | hy
    · exact (hsub y (by simp [hy])).congr (hother y (by simp [hy]))
    · exact hys y hy
    · exact (hsub y (by simp [hy])).congr (hother y (by simp [hy]))
  · rw [Foot.join_append, Foot.join_append]
    exact hev.context hn hs hu

/-- The leaves below the children after some neighbouring ones changed. -/
theorem children_leafStep {pages pages' : Int → PageBuffer} {pre post xs : List (Sub d)}
    (ys : List (Sub d))
    (hsub : ∀ y ∈ pre ++ (xs ++ post), Repr valueMax ps pages d y.tree y.page y.foot)
    (hn : (Foot.join (pre ++ (xs ++ post))).pages.Nodup)
    (hs : ∀ q ∈ (Foot.join (pre ++ (xs ++ post))).pages, q ∈ used)
    (hframe : ∀ q ∈ used, q ∉ (Foot.join xs).pages → pages' q = pages q)
    (h : LeafStep key value (nodeAt ps pages) (nodeAt ps pages') (Foot.join xs).links
      (Foot.join ys).links) :
    LeafStep key value (nodeAt ps pages) (nodeAt ps pages')
      (Foot.join (pre ++ (xs ++ post))).links (Foot.join (pre ++ (ys ++ post))).links := by
  have hother := siblings_kept hn hs hframe
  rw [Foot.join_append, Foot.join_append, Foot.join_append, Foot.join_append]
  refine .context _ _ h fun r hr => ?_
  obtain ⟨y, hy, hry⟩ : ∃ y ∈ pre ++ post, r ∈ y.foot.links := by
    simpa [Foot.join, or_and_right, exists_or] using hr
  have hyr : y ∈ pre ++ (xs ++ post) := by
    rcases List.mem_append.mp hy with hy | hy <;> simp [hy]
  rw [nodeAt, nodeAt, hother y hy r.1 ((hsub y hyr).links_sub hry)]

/-- The new subtree right of a changed child. -/
def NewSub (out : InsertOut) (ys : List (Sub d)) : Option (Bytes × Tree Bytes Bytes d) → Prop
  | none => out.newChild = -1 ∧ ys = []
  | some (sep, u) => out.sep = sep ∧ sep.length ≤ 255 ∧ 0 ≤ out.newChild ∧
      out.newChild < out.pool.nextPage ∧ ∃ g, ys = [⟨u, out.newChild, g⟩]

/-- The subtrees that take the place of a changed child. -/
theorem PieceRepr.pieces {pages : Int → PageBuffer} {t : Tree Bytes Bytes d}
    (h : PieceRepr valueMax ps pages d t p out f piece) :
    ∃ y ys, (∀ z ∈ y :: ys, Repr valueMax ps pages d z.tree z.page z.foot) ∧
      Foot.join (y :: ys) = f ∧ y.tree = t ∧ y.page = p ∧ NewSub out ys piece := by
  match piece, h with
  | none, h => exact ⟨⟨t, p, f⟩, [], by simpa using h.2, by simp [Foot.join], rfl, rfl, h.1, rfl⟩
  | some (sep, u), ⟨h1, h2, h3, h4, f₁, f₂, h5, h6, h7⟩ =>
    refine ⟨⟨t, p, f₁⟩, [⟨u, out.newChild, f₂⟩], ?_, by simp [Foot.join, Foot.append, h7], rfl, rfl,
      h1, h2, h3, h4, f₂, rfl⟩
    simp only [List.mem_cons, List.not_mem_nil, or_false]
    rintro z (rfl | rfl)
    · exact h5
    · exact h6

/-- Insertion below a branch page, given what it does below the child. -/
theorem btreeInsertRec_branch (hl : Live valueMax ps pool used)
    {b : Branch Bytes (Tree Bytes Bytes d)} (hn : nodeAt ps pool.pages p = node)
    (hf : NodeFits valueMax node) (hk : node.kind = .internal) (hks : node.keys = b.seps)
    {pre post : List (Sub d)} {x : Sub d} (hlt : (pre ++ x :: post).map Sub.tree = b.children)
    (hlp : (pre ++ x :: post).map Sub.page = node.children)
    (hsub : ∀ y ∈ pre ++ x :: post, Repr valueMax ps pool.pages d y.tree y.page y.foot)
    (hs : ∀ q ∈ ((Foot.join (pre ++ x :: post)).root p).pages, q ∈ used)
    (hnd : ((Foot.join (pre ++ x :: post)).root p).pages.Nodup)
    (hi : pre.length = childIndex b.seps key) (hids : pool.nextPage + (n + 1 : Nat) < pageIdLimit)
    (hrec : btreeInsertRec key value fuel pool x.page = some out) (hin : out.inserted = true)
    (hg : Grows valueMax ps used used' pool out.pool n x.foot.pages)
    (hpiece : PieceRepr valueMax ps out.pool.pages d t x.page out f' piece)
    (hev : Evolves used used' x.foot f')
    (hls : LeafStep key value (nodeAt ps pool.pages) (nodeAt ps out.pool.pages) x.foot.links
      f'.links) :
    ∃ out' used'' f'', btreeInsertRec key value (fuel + 1) pool p = some out' ∧
      out'.inserted = true ∧
      Grows valueMax ps used used'' pool out'.pool (n + 1)
        ((Foot.join (pre ++ x :: post)).root p).pages ∧
      PieceRepr valueMax ps out'.pool.pages (d + 1) (absorb 3 b pre.length t piece).1 p out' f''
        (absorb 3 b pre.length t piece).2 ∧
      Evolves used used'' ((Foot.join (pre ++ x :: post)).root p) f'' ∧
      LeafStep key value (nodeAt ps pool.pages) (nodeAt ps out'.pool.pages)
        ((Foot.join (pre ++ x :: post)).root p).links f''.links := by
  have hp : p ∈ used := hs p (List.mem_cons_self ..)
  obtain ⟨hpj, hnj⟩ := List.nodup_cons.mp hnd
  have hsj : ∀ q ∈ (Foot.join (pre ++ x :: post)).pages, q ∈ used := fun q hq =>
    hs q (List.mem_cons_of_mem _ hq)
  obtain ⟨y, ys, hys, hjoin, hyt, hyp, hnew⟩ := hpiece.pieces
  obtain ⟨hsub', hev'⟩ := children_repr [x] (y :: ys) hsub hnj hsj hg.sub
    (by rw [Foot.join_singleton]; exact hg.frame) hys (by rw [Foot.join_singleton, hjoin]; exact hev)
  have hls' : LeafStep key value (nodeAt ps pool.pages) (nodeAt ps out.pool.pages)
      (Foot.join (pre ++ x :: post)).links (Foot.join (pre ++ (y :: ys ++ post))).links := by
    have hframe' : ∀ q ∈ used, q ∉ (Foot.join [x]).pages → out.pool.pages q = pool.pages q := by
      rw [Foot.join_singleton]
      exact hg.frame
    apply children_leafStep (y :: ys) hsub hnj hsj hframe'
    rw [Foot.join_singleton, hjoin]
    exact hls
  have hpx : p ∉ x.foot.pages := fun h => hpj (Foot.mem_join.mpr ⟨x, by simp, h⟩)
  have hn' : nodeAt ps out.pool.pages p = node := by
    rw [nodeAt, hg.frame p hp hpx, ← nodeAt, hn]
  have hclen : node.entries.length = b.seps.length := by
    rw [← hks]; simp [BtreeNode.keys]
  have hlen : pre.length < node.children.length := by rw [← hlp]; simp
  have hchild : node.child (internalFind node key) = x.page := by
    rw [internalFind_eq, hks, ← hi, BtreeNode.child, ← hlp]
    simp
  have hidx : internalFind node key = pre.length := by rw [internalFind_eq, hks, hi]
  have hkl : node.kind ≠ .leaf := by rw [hk]; decide
  have hframe : ∀ q ∈ used, q ∉ ((Foot.join (pre ++ x :: post)).root p).pages →
      q ≠ p ∧ q ∉ x.foot.pages := by
    intro q _ hq
    refine ⟨fun e => hq (e ▸ List.mem_cons_self ..), fun h => hq ?_⟩
    exact List.mem_cons_of_mem _ (Foot.mem_join.mpr ⟨x, by simp, h⟩)
  rw [btreeInsertRec, hl.loadNode hp, hn]
  simp only
  rw [if_neg hkl, hchild, hrec]
  simp only
  rcases piece with _ | ⟨sep, u⟩
  · obtain ⟨hnc, rfl⟩ := hnew
    rw [if_neg (by rw [hnc]; simp)]
    have hcs : (pre ++ y :: post).map Sub.page = node.children := by
      rw [← hlp]; simp [hyp]
    have hab : absorb 3 b pre.length t none = (⟨b.seps, (pre ++ y :: post).map Sub.tree⟩, none) := by
      simp only [absorb, ← hlt, List.map_append, List.map_cons]
      rw [← List.length_map (f := Sub.tree), set_middle, hyt]
    have hr := repr_of_branch hn' hf hk _ hks hcs hsub'
    rw [hab]
    refine ⟨⟨out.pool, out.inserted, [], -1⟩, used', _, rfl, hin, ⟨hg.live, hg.sub, hg.next_le, ?_,
      fun q hq hqn => hg.frame q hq (hframe q hq hqn).2⟩, ⟨rfl, hr⟩, hev'.root hp hpj hg.sub, hls'⟩
    have := hg.le_next
    push_cast; show out.pool.nextPage ≤ _; omega
  · obtain ⟨hsep, hsl, hnc0, hnclt, g, rfl⟩ := hnew
    rw [if_pos ⟨hin, hnc0⟩, hidx, hsep]
    have hp' := hg.sub hp
    have hcid : Encodable out.newChild := by
      have := hg.le_next
      simp only [pageIdLimit, pageIdBias] at hids
      simp only [Encodable, pageIdBias]
      push_cast at hids
      omega
    obtain ⟨hcl, hents⟩ := hf.branch_entry hk
    have hcs : node.children.insertIdx (pre.length + 1) out.newChild =
        (pre ++ y :: ⟨u, out.newChild, g⟩ :: post).map Sub.page := by
      rw [← hlp, List.map_append, List.map_cons, ← List.length_map (f := Sub.page), insertIdx_middle]
      simp [hyp]
    have hts : (b.children.set pre.length t).insertIdx (pre.length + 1) u =
        (pre ++ y :: ⟨u, out.newChild, g⟩ :: post).map Sub.tree := by
      rw [← hlt, List.map_append, List.map_cons, ← List.length_map (f := Sub.tree), set_middle,
        insertIdx_middle]
      simp [hyt]
    have hkeys : (node.entries.insertIdx pre.length (sep, [])).map Prod.fst =
        b.seps.insertIdx pre.length sep := by
      rw [List.map_insertIdx, ← hks]; rfl
    have hesl : (node.entries.insertIdx pre.length (sep, [])).length = b.seps.length + 1 := by
      rw [List.length_insertIdx_of_le_length (by omega), hclen]
    have hle : pre.length ≤ b.seps.length := hi ▸ childIndex_le
    have hnext := hg.next_le
    have hnext' := hg.le_next
    by_cases hroom : b.seps.length < 3
    · have hc : node.entryCount < maxKeysPerNode := by
        rw [BtreeNode.entryCount, hclen]; exact hroom
      have hab : absorb 3 b pre.length t (some (sep, u)) =
          (⟨b.seps.insertIdx pre.length sep,
            (pre ++ y :: ⟨u, out.newChild, g⟩ :: post).map Sub.tree⟩, none) := by
        simp only [absorb, hts]
        rw [if_pos hroom]
      rw [if_pos hc, hab, hcs]
      have hfits : NodeFits valueMax { node with
          entries := node.entries.insertIdx pre.length (sep, [])
          children := (pre ++ y :: ⟨u, out.newChild, g⟩ :: post).map Sub.page } := by
        refine hf.withBranch hk _ _ (fun e he => ?_) (by rw [hesl]; exact hroom) ?_ fun c hc => ?_
        · rcases List.eq_or_mem_of_mem_insertIdx he with rfl | he
          · exact ⟨hsl, rfl⟩
          · exact hents e he
        · rw [← hcs, List.length_insertIdx_of_le_length (by omega), hesl, hcl, hclen]
        · rcases List.eq_or_mem_of_mem_insertIdx (hcs ▸ hc) with rfl | hc
          · exact hcid
          · exact hf.child c hc
      have hw := hg.live.storeDirty hp' hfits
      have hpj' : p ∉ (Foot.join (pre ++ y :: ⟨u, out.newChild, g⟩ :: post)).pages := fun h =>
        (hev'.old p h).elim hpj fun ho => ho hp
      have hr := repr_of_branch (hw.at hg.live) hfits hk _ hkeys rfl
        fun z hz => (hsub' z hz).congr fun q hq => hw.frame q fun e =>
          hpj' (Foot.mem_join.mpr ⟨z, hz, e ▸ hq⟩)
      refine ⟨_, used', _, rfl, rfl, ⟨hw.live hg.live hp', hg.sub, ?_, ?_, fun q hq hqn => ?_⟩,
        ⟨rfl, hr⟩, hev'.root hp hpj hg.sub, hls'.congr fun r hr => ?_⟩
      · show _ ≤ (storeDirty out.pool p _).nextPage
        rw [hw.nextPage]; exact hnext
      · show (storeDirty out.pool p _).nextPage ≤ _
        rw [hw.nextPage]; push_cast; omega
      · obtain ⟨h1, h2⟩ := hframe q hq hqn
        exact (hw.frame q h1).trans (hg.frame q hq h2)
      · obtain ⟨z, hz, hzr⟩ := List.mem_flatMap.mp hr
        have hrj := Foot.mem_join.mpr ⟨z, hz, (hsub' z hz).links_sub hzr⟩
        rw [nodeAt, nodeAt, hw.frame r.1 fun e => hpj' (e ▸ hrj)]
    · have hc : ¬ node.entryCount < maxKeysPerNode := by
        rw [BtreeNode.entryCount, hclen]; exact hroom
      have h3 : b.seps.length = 3 := by
        have : node.entries.length ≤ 3 := hf.count
        omega
      rw [if_neg hc]
      push_cast at hids
      simp only [pageIdLimit, pageIdBias] at hids
      obtain ⟨pool₁, pool₂, q, right, e1, e2, e3, e4, e5, e6, e7, e8, e9, e10, e11, e12, hw⟩ :=
        internalSplit_repr (i := pre.length) hg.live hp' hf hk
          (by simp only [pageIdLimit, pageIdBias]; omega) (by omega) (by omega) hsl hcid rfl hcs
      have hmid : (b.seps.insertIdx pre.length sep).length / 2 = 2 := by
        rw [← hkeys, List.length_map, hesl, h3]
      have h2lt : 2 < (node.entries.insertIdx pre.length (sep, [])).length := by rw [hesl, h3]; omega
      have hs2 : (b.seps.insertIdx pre.length sep)[2]? =
          some ((node.entries.insertIdx pre.length (sep, [])).getD 2 ([], [])).1 := by
        rw [← hkeys, List.getElem?_map, List.getD_eq_getElem?_getD, List.getElem?_eq_getElem h2lt]
        rfl
      have hab : absorb 3 b pre.length t (some (sep, u)) =
          (⟨(b.seps.insertIdx pre.length sep).take 2,
            ((pre ++ y :: ⟨u, out.newChild, g⟩ :: post).take 3).map Sub.tree⟩,
          some (((node.entries.insertIdx pre.length (sep, [])).getD 2 ([], [])).1,
            ⟨(b.seps.insertIdx pre.length sep).drop 3,
              ((pre ++ y :: ⟨u, out.newChild, g⟩ :: post).drop 3).map Sub.tree⟩)) := by
        simp only [absorb, hts]
        rw [if_neg hroom]
        simp only [hmid, hs2, Option.map_some, List.map_take, List.map_drop]
      rw [hab]
      have hjs : Foot.join (pre ++ ([y, ⟨u, out.newChild, g⟩] ++ post)) =
          (Foot.join ((pre ++ y :: ⟨u, out.newChild, g⟩ :: post).take 3)).append
            (Foot.join ((pre ++ y :: ⟨u, out.newChild, g⟩ :: post).drop 3)) := by
        rw [← Foot.join_append, List.take_append_drop]; rfl
      have hev'' := hev'
      rw [hjs] at hev''
      have hq' : q ∉ used' := e3
      have hsplit := hev''.split hp hpj hg.sub hq'
      have hsame : ∀ z ∈ pre ++ y :: ⟨u, out.newChild, g⟩ :: post, ∀ v ∈ z.foot.pages,
          pool₂.pages v = out.pool.pages v := by
        intro z hz v hv
        have hvj : v ∈ (Foot.join (pre ++ ([y, ⟨u, out.newChild, g⟩] ++ post))).pages :=
          Foot.mem_join.mpr ⟨z, hz, hv⟩
        have hvq : v ≠ q := fun e => hq' (e ▸ hev'.sub v hvj)
        have hvp : v ≠ p := fun e => (hev'.old v hvj).elim (fun h => hpj (e ▸ h))
          fun ho => ho (e ▸ hp)
        exact (hw.frame v hvp hvq).trans (e7 v hvq)
      have hpages : ∀ z ∈ pre ++ y :: ⟨u, out.newChild, g⟩ :: post,
          Repr valueMax ps pool₂.pages d z.tree z.page z.foot :=
        fun z hz => (hsub' z hz).congr (hsame z hz)
      have hlinks : LeafStep key value (nodeAt ps pool.pages) (nodeAt ps pool₂.pages)
          (Foot.join (pre ++ x :: post)).links
          (Foot.join (pre ++ ([y, ⟨u, out.newChild, g⟩] ++ post))).links := by
        refine hls'.congr fun r hr => ?_
        obtain ⟨z, hz, hzr⟩ := List.mem_flatMap.mp hr
        rw [nodeAt, nodeAt, hsame z hz r.1 ((hsub' z hz).links_sub hzr)]
      rw [hjs] at hlinks
      have hleft := repr_of_branch hw.left_at e12 hk
        ((b.seps.insertIdx pre.length sep).take 2)
        (l := (pre ++ y :: ⟨u, out.newChild, g⟩ :: post).take 3)
        (by simp only [BtreeNode.keys, List.map_take, hkeys]) (by simp only [List.map_take])
        fun z hz => hpages z (List.mem_of_mem_take hz)
      have hright := repr_of_branch hw.right_at e11 e8
        ((b.seps.insertIdx pre.length sep).drop 3)
        (l := (pre ++ y :: ⟨u, out.newChild, g⟩ :: post).drop 3)
        (by rw [BtreeNode.keys, e9, List.map_drop, hkeys]) (by rw [e10, List.map_drop])
        fun z hz => hpages z (List.mem_of_mem_drop hz)
      have hsl2 : ((node.entries.insertIdx pre.length (sep, [])).getD 2 ([], [])).1.length ≤ 255 := by
        rw [List.getD_eq_getElem?_getD, List.getElem?_eq_getElem h2lt, Option.getD_some]
        rcases List.eq_or_mem_of_mem_insertIdx (List.getElem_mem h2lt) with he | he
        · rw [he]; exact hsl
        · exact (hents _ he).1
      have hnp := hw.nextPage
      refine ⟨⟨pool₂, true, _, q⟩, insert q used', _, congrArg some e1, rfl,
        ⟨hw.live, hg.sub.trans (Set.subset_insert ..), ?_, ?_, fun v hv hvn => ?_⟩,
        ⟨rfl, hsl2, e2, ?_, _, _, hleft, hright, rfl⟩, hsplit, hlinks⟩
      · show _ ≤ pool₂.nextPage
        omega
      · show pool₂.nextPage ≤ _
        push_cast; omega
      · obtain ⟨h1, h2⟩ := hframe v hv hvn
        have hvq : v ≠ q := fun e => hq' (e ▸ hg.sub hv)
        exact (hw.frame v h1 hvq).trans ((e7 v hvq).trans (hg.frame v hv h2))
      · show q < pool₂.nextPage
        omega

/-! ## The whole tree -/

/-- `btree_insert_rec` on the pages of a tree is the insertion into the tree. -/
theorem btreeInsertRec_repr (hl : Live valueMax ps pool used) {t : Tree Bytes Bytes d}
    (h : Repr valueMax ps pool.pages d t p f) (hs : ∀ q ∈ f.pages, q ∈ used)
    (hnd : f.pages.Nodup) (ho : Ordered d lo hi t) (hlo : lo ≤ Bound.key key)
    (hhi : Bound.key key < hi) (hkey : key.length ≤ 255) (hval : value.length ≤ valueMax)
    (hids : pool.nextPage + (d + 1 : Nat) < pageIdLimit) (hfuel : d < fuel) :
    ∃ out used' f', btreeInsertRec key value fuel pool p = some out ∧ out.inserted = true ∧
      Grows valueMax ps used used' pool out.pool (d + 1) f.pages ∧
      PieceRepr valueMax ps out.pool.pages d (BPlusTree.insert 2 3 d t key value).1 p out f'
        (BPlusTree.insert 2 3 d t key value).2 ∧ Evolves used used' f f' ∧
      LeafStep key value (nodeAt ps pool.pages) (nodeAt ps out.pool.pages) f.links f'.links := by
  induction d generalizing p f lo hi fuel with
  | zero =>
    obtain ⟨fuel, rfl⟩ := Nat.exists_eq_add_of_lt hfuel
    rw [Nat.zero_add]
    exact btreeInsertRec_leaf hl h hs ho.entries.2.1 hkey hval hids fuel
  | succ d ih =>
    obtain ⟨fuel, rfl⟩ : ∃ n, fuel = n + 1 := ⟨fuel - 1, by omega⟩
    obtain ⟨-, c, bd, -, m, -, -, hc, -, hoc, -, hm, hbd⟩ := ho.focus hlo hhi
    obtain ⟨hf, hk, hks, l, hlt, hlp, hsub, rfl⟩ := h
    have hil : childIndex t.seps key < l.length := by
      have := (List.getElem?_eq_some_iff.mp hc).1
      rw [← hlt] at this; simpa using this
    obtain ⟨pre, x, post, rfl, hi'⟩ : ∃ pre x post, l = pre ++ x :: post ∧
        pre.length = childIndex t.seps key :=
      ⟨l.take (childIndex t.seps key), l[childIndex t.seps key], l.drop (childIndex t.seps key + 1),
        by simp, by rw [List.length_take]; omega⟩
    obtain rfl : x.tree = c := by
      rw [← hlt, ← hi'] at hc; simpa using hc
    have hxs : ∀ q ∈ x.foot.pages, q ∈ (Foot.join (pre ++ x :: post)).pages := fun q hq =>
      Foot.mem_join.mpr ⟨x, by simp, hq⟩
    have hxn : x.foot.pages.Nodup := by
      have := (List.nodup_cons.mp hnd).2
      simp only [Foot.join, List.flatMap_append, List.flatMap_cons, List.nodup_append] at this
      exact this.2.1.1
    obtain ⟨out, used', f', h1, h2, h3, h4, h5, h6⟩ := ih (hsub x (by simp))
      (fun q hq => hs q (List.mem_cons_of_mem _ (hxs q hq))) hxn hoc hm hbd
      (by push_cast at hids ⊢; omega) (show d < fuel by omega)
    have hb := btreeInsertRec_branch hl rfl hf hk hks hlt hlp hsub hs hnd hi' hids h1 h2 h3 h4 h5 h6
    rw [hi'] at hb
    simp only [BPlusTree.insert, hc]
    exact hb

/-- The tree `r` is stored at `root` in pages of its own, and the leaf links run through its
leaves. -/
structure StoredAt (valueMax ps : Nat) (pool : Pool) (used : Set Int) (root : Int)
    (r : Root Bytes Bytes) (f : Foot) : Prop where
  live : Live valueMax ps pool used
  repr : Repr valueMax ps pool.pages r.depth r.tree root f
  sub : ∀ q ∈ f.pages, q ∈ used
  nodup : f.pages.Nodup
  linked : Linked f.links (-1)

/-- The tree of the pool at `root`, between operations: ordered, and its nodes have their sizes. -/
structure TreeAt (valueMax ps : Nat) (pool : Pool) (used : Set Int) (root : Int)
    (r : Root Bytes Bytes) (f : Foot) : Prop extends StoredAt valueMax ps pool used root r f where
  wf : r.Wf maxKeysPerNode

theorem TreeAt.pow_depth_le {r : Root Bytes Bytes} (h : TreeAt valueMax ps pool used root r f) :
    ((2 ^ r.depth : Nat) : Int) ≤ pool.nextPage := by
  have h1 := h.repr.pow_le h.wf.sized one_le_rootLow
  have h2 := length_le_of_nodup h.nodup fun q hq => h.live.owns.range q (h.sub q hq)
  have h3 := h.live.owns.next_nonneg
  omega

theorem StoredAt.depth_lt {r : Root Bytes Bytes} (h : StoredAt valueMax ps pool used root r f) :
    r.depth < pool.fuel := by
  have h1 := h.repr.depth_lt
  have h2 := length_le_of_nodup h.nodup fun q hq => h.live.owns.range q (h.sub q hq)
  have h3 := h.live.owns.next_nonneg
  rw [Pool.fuel]; omega

/-- Fewer than 31 levels as long as page ids fit their field. -/
theorem TreeAt.depth_lt_31 {r : Root Bytes Bytes} (h : TreeAt valueMax ps pool used root r f)
    (hn : pool.nextPage < 2147483648) : r.depth < 31 := by
  have h1 := h.pow_depth_le
  by_contra hge
  have : 2 ^ 31 ≤ 2 ^ r.depth := Nat.pow_le_pow_right (by decide) (by omega)
  omega

/-- `garry_leaf_find_search` is the search of the tree. -/
theorem StoredAt.search {r : Root Bytes Bytes} (h : StoredAt valueMax ps pool used root r f)
    (key : Bytes) : leafFindSearch pool root key = some (r.search key) := by
  have hr := h.repr
  rw [← h.live.size] at hr
  exact leafFindSearchLoop_repr h.live.serves hr
    (fun q hq => (h.live.owns.range q (h.sub q hq)).1) h.depth_lt key

/-- `garry_leaf_find_search` finds what the entries of the tree say. -/
theorem TreeAt.search {r : Root Bytes Bytes} (h : TreeAt valueMax ps pool used root r f)
    (key : Bytes) : leafFindSearch pool root key = some (SortedAssoc.lookup key r.toList) := by
  rw [StoredAt.search h.toStoredAt, h.wf.search]

/-- A change of other pages leaves the tree as it is. -/
theorem TreeAt.congr {pool' : Pool} {r : Root Bytes Bytes}
    (h : TreeAt valueMax ps pool used root r f) (hl : Live valueMax ps pool' used')
    (hsub : ∀ q ∈ f.pages, q ∈ used') (hp : ∀ q ∈ f.pages, pool'.pages q = pool.pages q) :
    TreeAt valueMax ps pool' used' root r f :=
  { h with live := hl, repr := h.repr.congr hp, sub := hsub }

/-- There are page ids left for one more insertion, which takes at most one page for each of
fewer than 31 levels and one for a new root. -/
def Pool.HasIds (pool : Pool) : Prop := pool.nextPage + 64 ≤ pageIdLimit

/-- `garry_btree_insert` is the insertion into the tree, and touches no page in use outside it. -/
theorem btreeInsert_tree {r : Root Bytes Bytes} (h : TreeAt valueMax ps pool used root r f)
    (hkey : key.length ≤ 255) (hval : value.length ≤ valueMax) (hids : pool.HasIds) :
    ∃ pool' root' used' f', btreeInsert pool root key value = some (true, pool', root') ∧
      TreeAt valueMax ps pool' used' root' (r.insert 2 maxKeysPerNode key value) f' ∧
      Grows valueMax ps used used' pool pool' 64 f.pages ∧
      (∀ q ∈ f'.pages, q ∈ f.pages ∨ q ∉ used) ∧
      LeafStep key value (nodeAt ps pool.pages) (nodeAt ps pool'.pages) f.links f'.links := by
  have hids' : pool.nextPage + 64 ≤ 2147483648 - 100000 := hids
  have hd := h.depth_lt_31 (by omega)
  obtain ⟨out, used', f', h1, h2, hg, hpiece, hev, hls⟩ := btreeInsertRec_repr h.live h.repr h.sub
    h.nodup h.wf.ordered bot_le Bound.key_lt_top hkey hval
    (by simp only [pageIdLimit, pageIdBias]; push_cast; omega) h.depth_lt
  obtain ⟨hwf, -⟩ := h.wf.insert (show 0 < 2 by decide) (by decide) (by decide) key value
  have hroot : root ∈ used := h.sub root h.repr.mem
  have hroot' : root ∈ used' := hg.sub hroot
  have hlink := hev.links.linked _ h.linked
  have hnext := hg.next_le
  have hnext' := hg.le_next
  push_cast at hnext'
  have hcount := insert_split_count r.tree key value (show 0 < 2 by decide)
    (show 0 < 3 by decide)
  have horig : (loadNode pool root).entryCount = count r.depth r.tree := by
    rw [h.live.loadNode hroot, h.repr.count]
  rw [btreeInsert, h1, horig]
  simp only
  simp only [Root.insert] at hwf ⊢
  rcases hp : BPlusTree.insert 2 maxKeysPerNode r.depth r.tree key value with
    ⟨t, _ | ⟨sep, u⟩⟩
  · rw [show BPlusTree.insert 2 3 r.depth r.tree key value = _ from hp] at hpiece
    rw [hp] at hwf
    obtain ⟨hnc, hr⟩ := hpiece
    rw [if_neg (by rw [hnc]; simp), h2]
    exact ⟨out.pool, root, used', f', rfl, ⟨⟨hg.live, hr, hev.sub, hev.nodup, hlink⟩, hwf⟩,
      { hg with le_next := by push_cast; omega }, hev.old, hls⟩
  · rw [show BPlusTree.insert 2 3 r.depth r.tree key value = _ from hp] at hpiece hcount
    rw [hp] at hwf
    obtain ⟨hsep, hsl, hnc0, hnclt, f₁, f₂, hr1, hr2, rfl⟩ := hpiece
    have hreload : (loadNode out.pool root).entryCount ≤ count r.depth r.tree := by
      rw [hg.live.loadNode hroot', hr1.count]
      exact hcount (by simp)
    obtain ⟨q, pool₁, ha, hq0, hq, hqlt, hl₁, hn1, hn2, hfr, -⟩ := hg.live.allocateNode .internal
    rw [if_pos hnc0, if_pos hreload, allocateInternal, ha]
    simp only
    rw [if_neg (by omega), h2, hsep]
    have hrr := h.live.owns.range root hroot
    have hfits : NodeFits valueMax ⟨.internal, 0, [(sep, [])], [root, out.newChild], -1, -1⟩ := by
      have e1 : Encodable root := by simp only [Encodable, pageIdBias]; omega
      have e2 : Encodable out.newChild := by simp only [Encodable, pageIdBias]; omega
      have e3 : Encodable (-1) := by simp only [Encodable, pageIdBias]; omega
      exact {
        shape := .inr ⟨rfl, rfl, by simp⟩
        level := (by decide : Fits32 0)
        count := by simp [maxKeysPerNode]
        entry := by simpa using hsl
        next := e3
        prev := e3
        child := by simp [e1, e2] }
    have hw := hl₁.storeDirty (Set.mem_insert ..) hfits
    have hl₂ := hw.live hl₁ (Set.mem_insert ..)
    have hpages : ∀ v ∈ (f₁.append f₂).pages,
        (storeDirty pool₁ q ⟨.internal, 0, [(sep, [])], [root, out.newChild], -1, -1⟩).pages v =
          out.pool.pages v := by
      intro v hv
      have hvq : v ≠ q := fun e => hq (e ▸ hev.sub v hv)
      exact (hw.frame v hvq).trans (hfr v hvq)
    have hr1' := hr1.congr fun v hv => hpages v (List.mem_append_left _ hv)
    have hr2' := hr2.congr fun v hv => hpages v (List.mem_append_right _ hv)
    have hr := repr_of_branch (l := [⟨t, root, f₁⟩, ⟨u, out.newChild, f₂⟩])
      (hw.at hl₁) hfits rfl _ rfl rfl (by
        simp only [List.mem_cons, List.not_mem_nil, or_false]
        rintro z (rfl | rfl)
        · exact hr1'
        · exact hr2')
    have hjoin : Foot.join [⟨t, root, f₁⟩, ⟨u, out.newChild, f₂⟩] = f₁.append f₂ := by
      simp [Foot.join, Foot.append]
    rw [hjoin] at hr
    refine ⟨_, q, insert q used', _, rfl, ⟨⟨hl₂, hr, ?_, ?_, hlink⟩, hwf⟩,
      ⟨hl₂, hg.sub.trans (Set.subset_insert ..), ?_, ?_, fun v hv hvn => ?_⟩, fun v hv => ?_,
      hls.congr fun r hr => ?_⟩
    · intro v hv
      rcases List.mem_cons.mp hv with rfl | hv
      · exact Set.mem_insert ..
      · exact Set.mem_insert_of_mem _ (hev.sub v hv)
    · exact List.nodup_cons.mpr ⟨fun hm => hq (hev.sub q hm), hev.nodup⟩
    · rw [hw.nextPage]; omega
    · rw [hw.nextPage]; push_cast; omega
    · have hvq : v ≠ q := fun e => hq (e ▸ hg.sub hv)
      exact (hw.frame v hvq).trans ((hfr v hvq).trans (hg.frame v hv hvn))
    · rcases List.mem_cons.mp hv with rfl | hv
      · exact .inr fun hm => hq (hg.sub hm)
      · exact hev.old v hv
    · have hrp : r.1 ∈ (f₁.append f₂).pages := by
        rcases List.mem_append.mp hr with hr | hr
        · exact List.mem_append_left _ (hr1.links_sub hr)
        · exact List.mem_append_right _ (hr2.links_sub hr)
      rw [nodeAt, nodeAt, hpages r.1 hrp]

end Garry
