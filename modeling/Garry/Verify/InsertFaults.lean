import Garry.Verify.OverflowFaults
import Garry.Library.SplitPath

/-!
# Insertion while pins and allocations fail

The failing run is followed next to the run without failures on the same frames. They agree as long
as the pages of the descent can be pinned and every new page can be had; else `btree_insert_rec`
stops at the first page it cannot get.
-/

namespace Garry

open ByteStore BPlusTree LeafChain Pool

/-- The same frames without failures. -/
def PoolEnv.mended (env : PoolEnv) : PoolEnv := ⟨fun _ => false, fun _ => false, env.resident⟩

theorem PoolEnv.mended_serves (env : PoolEnv) : env.mended.Serves := ⟨fun _ => rfl, fun _ => rfl⟩

/-- `n` page allocations in a row, when all of them succeed. -/
def Pool.takePages : Nat → Pool → Option Pool
  | 0, pool => some pool
  | n + 1, pool =>
    (takePages n pool).bind fun pool =>
      let (q, pool) := allocateLeaf pool
      if q < 0 then none else some pool

/-- `n` page allocations in a row would succeed. -/
def Pool.Grants (pool : Pool) (n : Nat) : Prop := (pool.takePages n).isSome

instance (pool : Pool) (n : Nat) : Decidable (pool.Grants n) :=
  inferInstanceAs (Decidable (_ = true))

/-- Every page of the descent to the leaf of a key can be pinned. -/
def descentPins (key : Bytes) : Nat → Pool → Int → Bool
  | 0, _, _ => false
  | fuel + 1, pool, page =>
    !pool.env.pinFails page &&
      let node := loadNode pool page
      (decide (node.kind = .leaf) || descentPins key fuel pool (node.child (internalFind node key)))

section
variable {env : PoolEnv} {pool : Pool}

/-! ## The failing run next to the run without failures -/

theorem loadNode_withEnv (he : pool.env = env.mended) (hp : env.pinFails p = false) :
    loadNode (pool.withEnv env) p = loadNode pool p := by
  have h1 : (pool.withEnv env).tryPin p = pool.tryPin p := by
    rw [tryPin, tryPin, he]
    rfl
  have h2 : (pool.withEnv env).pinPage p = pool.pinPage p := by
    rw [pinPage, pinPage, he]
    simp [withEnv, hp, PoolEnv.mended]
  rw [loadNode, h1, h2]
  rfl

/-- A page that cannot be pinned loads as an empty leaf. -/
theorem loadNode_of_pinFails (hc : env.Caches) (hp : env.pinFails p = true) :
    loadNode (pool.withEnv env) p = emptyNode := by
  have hres : env.resident p = false := by
    rw [← Bool.not_eq_true]
    intro h
    rw [hc p h] at hp
    cases hp
  have h1 : (pool.withEnv env).tryPin p = none := by simp [tryPin, withEnv, hres]
  have h2 : (pool.withEnv env).pinPage p = none := by simp [pinPage, withEnv, hp]
  rw [loadNode, h1, h2]
  rfl

theorem storeNode_withEnv (he : pool.env = env.mended) (hp : env.pinFails p = false)
    (node : BtreeNode) :
    storeNode (pool.withEnv env) p node = (storeNode pool p node).withEnv env := by
  have h : (pool.withEnv env).pinPage p = pool.pinPage p := by
    rw [pinPage, pinPage, he]
    simp [withEnv, hp, PoolEnv.mended]
  have hps : (pool.withEnv env).pageSize = pool.pageSize := rfl
  rw [storeNode, storeNode, h]
  cases pool.pinPage p with
  | none => rfl
  | some buf =>
    simp only [hps]
    generalize pageInsert _ _ = inserted
    cases inserted with
    | none => rfl
    | some slot =>
      simp only
      generalize insertRecords _ _ = stored
      obtain ⟨buf, _ | _⟩ := stored <;> rfl

theorem storeNode_of_pinFails (hp : env.pinFails p = true) (node : BtreeNode) :
    storeNode (pool.withEnv env) p node = pool.withEnv env := by
  have h : (pool.withEnv env).pinPage p = none := by simp [pinPage, withEnv, hp]
  rw [storeNode, h]

theorem storeNode_cases (pool : Pool) (p : Int) (node : BtreeNode) :
    ∃ buf dirty, storeNode pool p node =
      { pool.setPage p buf with dirty := dirty } ∨ storeNode pool p node = pool := by
  rw [storeNode]
  split
  · exact ⟨fun _ => 0, [], .inr rfl⟩
  · simp only
    split
    · exact ⟨_, _, .inl rfl⟩
    · split
      · exact ⟨_, _, .inl rfl⟩
      · exact ⟨_, _, .inl rfl⟩

theorem storeNode_env : (storeNode pool p node).env = pool.env := by
  obtain ⟨buf, dirty, h | h⟩ := storeNode_cases pool p node <;> rw [h]
  rfl

theorem allocate_withEnv (he : pool.env = env.mended) (ha : pool.allocate = (q, pool₁))
    (hq : 0 ≤ q) :
    pool₁.env = env.mended ∧ pool₁.pageSize = pool.pageSize ∧ pool.nextPage ≤ pool₁.nextPage ∧
      (∀ x, x ≠ q → pool₁.pages x = pool.pages x) ∧
      ((pool.withEnv env).allocate = (q, pool₁.withEnv env) ∨
        ∃ S, (pool.withEnv env).allocate = (-1, S) ∧ S.env = env ∧ S.pageSize = pool.pageSize ∧
          S.nextPage = pool.nextPage ∧ S.pages = pool.pages) := by
  have hres : pool.env.resident = env.resident := by rw [he]; rfl
  have halloc : ∀ pid, pool.env.allocFails pid = false := fun _ => by rw [he]; rfl
  rw [allocate] at ha
  simp only [halloc] at ha
  split at ha
  · next hhead =>
    cases ha
    refine ⟨he, rfl, le_refl _, fun x hx => Function.update_of_ne hx _ _, ?_⟩
    cases hf : env.allocFails pool.freeListHead with
    | false =>
      left
      simp only [allocate, withEnv, if_pos hhead, hf, ← hres]
      rfl
    | true =>
      right
      simp only [allocate, withEnv, if_pos hhead, hf, if_true]
      exact ⟨_, rfl, rfl, rfl, rfl, rfl⟩
  · next hhead =>
    split at ha
    · simp at *
    split at ha
    · cases ha
      omega
    · next hneg =>
      cases ha
      refine ⟨he, rfl, by simp [handOut], fun x hx => Function.update_of_ne hx _ _, ?_⟩
      cases hf : env.allocFails pool.nextPage with
      | false =>
        left
        simp only [allocate, withEnv, if_neg hhead, hf, Bool.false_eq_true, if_false]
        exact if_neg hneg
      | true =>
        right
        simp only [allocate, withEnv, if_neg hhead, hf, if_true]
        exact ⟨_, rfl, rfl, rfl, rfl, rfl⟩

/-- A page allocation on the failing frames: the page it would return, or `-1`. -/
theorem allocateNode_withEnv (he : pool.env = env.mended) (kind : NodeKind)
    (ha : allocateNode kind pool = (q, pool₁)) (hq : 0 ≤ q) :
    (env.pinFails q = false ∧ pool₁.env = env.mended ∧
        allocateNode kind (pool.withEnv env) = (q, pool₁.withEnv env)) ∨
      ∃ S, allocateNode kind (pool.withEnv env) = (-1, S) ∧ S.env = env ∧
        S.pageSize = pool.pageSize ∧ pool.nextPage ≤ S.nextPage ∧
        ∀ x, x ≠ q → S.pages x = pool.pages x := by
  rw [allocateNode] at ha
  rcases hp : pool.allocate with ⟨p, pool₀⟩
  rw [hp] at ha
  simp only at ha
  split at ha
  · cases ha
    omega
  next hp0 =>
  have hp0 : 0 ≤ p := not_lt.mp hp0
  obtain ⟨he₀, hps, hnext, hfr, h⟩ := allocate_withEnv he hp hp0
  have hpin : pool₀.pinPage p = some (pool₀.pages p) :=
    pinPage_eq (show pool₀.env.Serves from he₀ ▸ env.mended_serves) hp0
  rw [hpin] at ha
  cases ha
  rcases h with h | ⟨S, hS, h1, h2, h3, h4⟩
  · cases hf : env.pinFails q with
    | false =>
      refine .inl ⟨rfl, he₀, ?_⟩
      have hpin' : (pool₀.withEnv env).pinPage q = some (pool₀.pages q) := by
        rw [pinPage, if_neg (by omega)]
        simp [withEnv, hf]
      simp only [allocateNode, h, hpin', if_neg (show ¬ q < 0 by omega)]
      rfl
    | true =>
      refine .inr ⟨pool₀.withEnv env, ?_, rfl, hps, hnext, hfr⟩
      have hpin' : (pool₀.withEnv env).pinPage q = none := by
        rw [pinPage, if_neg (by omega)]
        simp [withEnv, hf]
      simp only [allocateNode, h, hpin', if_neg (show ¬ q < 0 by omega)]
  · refine .inr ⟨S, ?_, h1, h2, h3.ge, fun x _ => by rw [h4]⟩
    simp only [allocateNode, hS]
    rfl

/-! ## The free pages during an insertion -/

/-- `X` and `Y` hand out the same pages, none of them in `used`. -/
structure FreeAlike (used : Set Int) (X Y : Pool) : Prop where
  env : X.env = Y.env
  nextPage : X.nextPage = Y.nextPage
  head : X.freeListHead = Y.freeListHead
  free : ∃ l, FreeList X.pages X.freeListHead l ∧ FreeList Y.pages Y.freeListHead l ∧ l.Nodup ∧
    ∀ p ∈ l, p ∉ used

variable {used used' : Set Int} {X X' Y Y' : Pool}

theorem FreeAlike.refl (h : pool.Owns used) :
    FreeAlike used (pool.withEnv env) (pool.withEnv env) := by
  obtain ⟨l, h1, h2, h3⟩ := h.free
  exact ⟨rfl, rfl, rfl, l, h1, h1, h2, fun p hp => (h3 p hp).1⟩

theorem FreeAlike.markDirty (h : FreeAlike used (pool.withEnv env) Y) (p : Int) :
    FreeAlike used ((pool.markDirty p).withEnv env) Y := { h with }

/-- Stores to pages in use do not matter. -/
theorem FreeAlike.storeNode (h : FreeAlike used (pool.withEnv env) Y) (hp : p ∈ used)
    (node : BtreeNode) : FreeAlike used ((storeNode pool p node).withEnv env) Y := by
  obtain ⟨buf, dirty, e | e⟩ := storeNode_cases pool p node
  · obtain ⟨l, h1, h2, h3, h4⟩ := h.free
    rw [e]
    refine { h with free := ⟨l, h1.congr fun x hx => ?_, h2, h3, h4⟩ }
    apply setPage_pages_of_ne
    rintro rfl
    exact h4 _ hx hp
  · rwa [e]

theorem Pool.FreeList.head_eq {pages pages' : Int → PageBuffer} (h : FreeList pages head l)
    (h' : FreeList pages' head' l) : head = head' := by
  cases l with
  | nil => exact Eq.trans h (Eq.symm h')
  | cons p l => exact h.1.trans h'.1.symm

/-- The next page is the same, and so are those after it. -/
theorem FreeAlike.allocate (h : FreeAlike used X Y) :
    X.allocate.1 = Y.allocate.1 ∧
      (0 ≤ X.allocate.1 → FreeAlike (insert X.allocate.1 used) X.allocate.2 Y.allocate.2) := by
  obtain ⟨l, h1, h2, h3, h4⟩ := h.free
  cases l with
  | nil =>
    have hX : X.freeListHead = -1 := h1
    have hY : Y.freeListHead = -1 := h2
    have hneg : ¬ (-1 : Int) ≥ 0 := by decide
    simp only [Pool.allocate, ← h.env, ← h.nextPage, hX, hY, if_neg hneg]
    cases hf : X.env.allocFails X.nextPage with
    | true => exact ⟨rfl, fun h0 => absurd h0 hneg⟩
    | false =>
      by_cases h0 : X.nextPage < 0
      · simp only [Bool.false_eq_true, if_false, if_pos h0]
        exact ⟨trivial, fun h0 => absurd h0 hneg⟩
      · simp only [Bool.false_eq_true, if_false, if_neg h0]
        exact ⟨trivial, fun _ => ⟨rfl, rfl, rfl, [], rfl, rfl, h3, by simp⟩⟩
  | cons p l =>
    obtain ⟨hX, hp, h1⟩ := h1
    obtain ⟨hY, -, h2⟩ := h2
    obtain ⟨hpl, hl⟩ := List.nodup_cons.mp h3
    have hneg : ¬ (-1 : Int) ≥ 0 := by decide
    simp only [Pool.allocate, ← h.env, hX, hY, ge_iff_le, if_pos hp]
    cases hf : X.env.allocFails p with
    | true => exact ⟨rfl, fun h0 => absurd h0 hneg⟩
    | false =>
    simp only [Bool.false_eq_true, if_false]
    refine ⟨trivial, fun _ => ⟨rfl, h.nextPage, ?_, ?_⟩⟩
    · simp only [handOut]
      rw [h1.head_eq h2]
    · have hne : ∀ x ∈ l, x ≠ p := fun x hx e => hpl (e ▸ hx)
      simp only [handOut]
      cases hres : X.env.resident p with
      | false => exact ⟨[], rfl, rfl, List.nodup_nil, by simp⟩
      | true =>
        refine ⟨l, h1.congr fun x hx => Function.update_of_ne (hne x hx) _ _,
          h2.congr fun x hx => Function.update_of_ne (hne x hx) _ _, hl, fun x hx => ?_⟩
        rintro (rfl | hu)
        · exact hpl hx
        · exact h4 x (by simp [hx]) hu

theorem FreeAlike.setPage (h : FreeAlike used X Y) (hp : p ∈ used) (b b' : PageBuffer) :
    FreeAlike used (X.setPage p b) (Y.setPage p b') := by
  obtain ⟨l, h1, h2, h3, h4⟩ := h.free
  have hne : ∀ x ∈ l, x ≠ p := fun x hx e => h4 x hx (e ▸ hp)
  exact { h with free := ⟨l, h1.congr fun x hx => setPage_pages_of_ne (hne x hx),
    h2.congr fun x hx => setPage_pages_of_ne (hne x hx), h3, h4⟩ }

theorem FreeAlike.mono (h : FreeAlike used' X Y) (hu : used ⊆ used') : FreeAlike used X Y := by
  obtain ⟨l, h1, h2, h3, h4⟩ := h.free
  exact { h with free := ⟨l, h1, h2, h3, fun p hp hm => h4 p hp (hu hm)⟩ }

theorem FreeAlike.allocateNode (h : FreeAlike used X Y) (kind kind' : NodeKind) :
    (allocateNode kind X).1 = (allocateNode kind' Y).1 ∧
      (0 ≤ (allocateNode kind X).1 → FreeAlike (insert (allocateNode kind X).1 used)
        (allocateNode kind X).2 (allocateNode kind' Y).2) := by
  obtain ⟨h1, h2⟩ := h.allocate
  rcases hX : X.allocate with ⟨q, X'⟩
  rcases hY : Y.allocate with ⟨q', Y'⟩
  rw [hX, hY] at h1 h2
  simp only at h1 h2
  subst h1
  have hneg : ¬ 0 ≤ (-1 : Int) := by decide
  simp only [Garry.allocateNode, hX, hY]
  by_cases hq : q < 0
  · rw [if_pos hq, if_pos hq]
    exact ⟨rfl, fun h0 => absurd h0 hneg⟩
  · have hA := h2 (not_lt.mp hq)
    rw [if_neg hq, if_neg hq]
    simp only [pinPage, if_neg hq, ← hA.env]
    cases X'.env.pinFails q with
    | true => exact ⟨rfl, fun h0 => absurd h0 hneg⟩
    | false =>
      refine ⟨rfl, fun _ => ?_⟩
      exact { hA.setPage (Set.mem_insert ..) (pageInit (X'.pages q) kind 0 X'.pageSize)
        (pageInit (Y'.pages q) kind' 0 Y'.pageSize) with }

theorem takePages_succ {P : Pool} (h : P.takePages n = some Y) :
    P.takePages (n + 1) = if (allocateLeaf Y).1 < 0 then none else some (allocateLeaf Y).2 := by
  rw [takePages, h]
  rfl

theorem grants_mono {P : Pool} (hle : m ≤ n) (h : P.Grants n) : P.Grants m := by
  induction n with
  | zero => rwa [Nat.le_zero.mp hle]
  | succ n ih =>
    rcases Nat.lt_or_eq_of_le hle with hlt | rfl
    · apply ih (by omega)
      rw [Grants, takePages, Option.isSome_bind] at h
      rw [Grants]
      cases ht : P.takePages n with
      | none => rw [ht] at h; cases h
      | some Y => rfl
    · exact h

/-! ## One level of the insertion -/

/-- The outcome on other frames. -/
def InsertOut.withEnv (out : InsertOut) (env : PoolEnv) : InsertOut :=
  { out with pool := out.pool.withEnv env }

/-- The run stopped with the pool `S` where no page could be had. -/
structure NoPage (pool S : Pool) (env : PoolEnv) (q : Int) : Prop where
  env_eq : S.env = env
  pageSize : S.pageSize = pool.pageSize
  nextPage : pool.nextPage ≤ S.nextPage
  pages : ∀ x, x ≠ q → S.pages x = pool.pages x

/-- A new page on the failing frames, when the free pages are those of `Y`. -/
theorem FreeAlike.newPage (h : FreeAlike used (pool.withEnv env) Y) (he : pool.env = env.mended)
    (kind : NodeKind) (ha : Garry.allocateNode kind pool = (q, pool₁)) (hq : 0 ≤ q) :
    (0 ≤ (allocateLeaf Y).1 → env.pinFails q = false ∧ pool₁.env = env.mended ∧
        Garry.allocateNode kind (pool.withEnv env) = (q, pool₁.withEnv env) ∧
        FreeAlike (insert q used) (pool₁.withEnv env) (allocateLeaf Y).2) ∧
      ((allocateLeaf Y).1 < 0 →
        ∃ S, Garry.allocateNode kind (pool.withEnv env) = (-1, S) ∧ NoPage pool S env q) := by
  obtain ⟨h1, h2⟩ := h.allocateNode kind .leaf
  rcases allocateNode_withEnv he kind ha hq with ⟨hp, he₁, ha'⟩ | ⟨S, ha', hS1, hS2, hS3, hS4⟩
  · rw [ha'] at h1 h2
    refine ⟨fun _ => ⟨hp, he₁, ha', h2 hq⟩, fun hneg => ?_⟩
    have h1 : q = (allocateLeaf Y).1 := h1
    omega
  · rw [ha'] at h1
    have h1 : -1 = (allocateLeaf Y).1 := h1
    exact ⟨fun h0 => by omega, fun _ => ⟨S, ha', hS1, hS2, hS3, hS4⟩⟩

theorem leafSplit_withEnv (h : FreeAlike used (pool.withEnv env) Y) (he : pool.env = env.mended)
    (hp : env.pinFails p = false) (hpu : p ∈ used) (ha : allocateLeaf pool = (q, pool₁))
    (hq : 0 ≤ q) (hout : leafSplit pool p node key value = (out, node')) :
    (0 ≤ (allocateLeaf Y).1 →
      leafSplit (pool.withEnv env) p node key value = (out.withEnv env, node') ∧
        out.pool.env = env.mended ∧ FreeAlike used (out.pool.withEnv env) (allocateLeaf Y).2) ∧
      ((allocateLeaf Y).1 < 0 → ∃ S, leafSplit (pool.withEnv env) p node key value =
        (⟨S, false, [], -1⟩, node) ∧ NoPage pool S env q) := by
  have hn : ¬ q < 0 := by omega
  obtain ⟨h1, h2⟩ := h.newPage he .leaf ha hq
  refine ⟨fun h0 => ?_, fun h0 => ?_⟩
  · obtain ⟨hqp, he₁, ha', hf⟩ := h1 h0
    have ha' : allocateLeaf (pool.withEnv env) = (q, pool₁.withEnv env) := ha'
    simp only [leafSplit, ha, if_neg hn, Prod.mk.injEq] at hout
    obtain ⟨rfl, rfl⟩ := hout
    have he₂ : (pool₁.markDirty p).env = env.mended := he₁
    have hm : (pool₁.withEnv env).markDirty p = (pool₁.markDirty p).withEnv env := rfl
    refine ⟨?_, ?_, ?_⟩
    · simp only [leafSplit, ha', if_neg hn, loadNode_withEnv he₁ hqp, hm]
      rw [storeNode_withEnv he₂ hqp, storeNode_withEnv (storeNode_env.trans he₂) hp]
      rfl
    · exact storeNode_env.trans (storeNode_env.trans he₂)
    · apply FreeAlike.mono _ (Set.subset_insert q used)
      apply FreeAlike.storeNode _ (Set.mem_insert_of_mem _ hpu)
      apply FreeAlike.storeNode _ (Set.mem_insert ..)
      exact hf.markDirty p
  · obtain ⟨S, ha', hS⟩ := h2 h0
    have ha' : allocateLeaf (pool.withEnv env) = (-1, S) := ha'
    refine ⟨S, ?_, hS⟩
    simp only [leafSplit, ha']
    rfl

theorem internalSplit_withEnv (h : FreeAlike used (pool.withEnv env) Y)
    (he : pool.env = env.mended) (hp : env.pinFails p = false) (hpu : p ∈ used)
    (ha : allocateInternal pool = (q, pool₁)) (hq : 0 ≤ q)
    (hout : internalSplit pool p node i insertKey insertChild = out) :
    (0 ≤ (allocateLeaf Y).1 →
      internalSplit (pool.withEnv env) p node i insertKey insertChild = out.withEnv env ∧
        out.pool.env = env.mended ∧ FreeAlike used (out.pool.withEnv env) (allocateLeaf Y).2) ∧
      ((allocateLeaf Y).1 < 0 →
        ∃ S, internalSplit (pool.withEnv env) p node i insertKey insertChild =
          ⟨S, false, [], -1⟩ ∧ NoPage pool S env q) := by
  have hn : ¬ q < 0 := by omega
  obtain ⟨h1, h2⟩ := h.newPage he .internal ha hq
  refine ⟨fun h0 => ?_, fun h0 => ?_⟩
  · obtain ⟨hqp, he₁, ha', hf⟩ := h1 h0
    have ha' : allocateInternal (pool.withEnv env) = (q, pool₁.withEnv env) := ha'
    simp only [internalSplit, ha, if_neg hn] at hout
    subst hout
    refine ⟨?_, ?_, ?_⟩
    · simp only [internalSplit, ha', if_neg hn]
      rw [storeNode_withEnv he₁ hqp, storeNode_withEnv (storeNode_env.trans he₁) hp]
      rfl
    · exact storeNode_env.trans (storeNode_env.trans he₁)
    · apply FreeAlike.mono _ (Set.subset_insert q used)
      apply FreeAlike.markDirty
      apply FreeAlike.markDirty
      apply FreeAlike.storeNode _ (Set.mem_insert_of_mem _ hpu)
      exact hf.storeNode (Set.mem_insert ..) _
  · obtain ⟨S, ha', hS⟩ := h2 h0
    have ha' : allocateInternal (pool.withEnv env) = (-1, S) := ha'
    refine ⟨S, ?_, hS⟩
    simp only [internalSplit, ha']
    rfl

theorem storeDirty_withEnv (he : pool.env = env.mended) (hp : env.pinFails p = false)
    (node : BtreeNode) :
    storeDirty (pool.withEnv env) p node = (storeDirty pool p node).withEnv env := by
  rw [storeDirty, storeNode_withEnv he hp]
  rfl

theorem FreeAlike.storeDirty (h : FreeAlike used (pool.withEnv env) Y) (hp : p ∈ used)
    (node : BtreeNode) : FreeAlike used ((storeDirty pool p node).withEnv env) Y :=
  (h.storeNode hp node).markDirty p

variable {fuel : Nat}

theorem descentPins_page {P : Pool} (h : descentPins key (fuel + 1) P p = true) :
    P.env.pinFails p = false ∧ ((loadNode P p).kind = .leaf ∨
      descentPins key fuel P ((loadNode P p).child (internalFind (loadNode P p) key)) = true) := by
  simpa [descentPins] using h

/-- A pool left behind where the insertion stopped: page `p` holds the tree `t'` in place of one in
the pages of `f`. -/
structure Stopped (valueMax ps : Nat) (used : Set Int) (pool S : Pool) (d : Nat)
    (t' : Tree Bytes Bytes d) (p : Int) (f f' : Foot) : Prop where
  pageSize : S.pageSize = pool.pageSize
  nextPage : pool.nextPage ≤ S.nextPage
  frame : ∀ q ∈ used, q ∉ f.pages → S.pages q = pool.pages q
  repr : Repr valueMax ps S.pages d t' p f'
  nonneg : ∀ q ∈ f'.pages, 0 ≤ q

variable {valueMax ps : Nat}

/-- Insertion below a leaf page on the failing frames. -/
theorem btreeInsertRec_leaf_withEnv (hl : Live valueMax ps pool used) (he : pool.env = env.mended)
    {es : Tree Bytes Bytes 0} (h : Repr valueMax ps pool.pages 0 es p f)
    (hs : ∀ q ∈ f.pages, q ∈ used) (hpin : env.pinFails p = false)
    (hout : btreeInsertRec key value (fuel + 1) pool p = some out) :
    (∀ Y, (pool.withEnv env).takePages (splits 2 3 0 es key) = some Y →
      btreeInsertRec key value (fuel + 1) (pool.withEnv env) p = some (out.withEnv env) ∧
        out.pool.env = env.mended ∧ FreeAlike used (out.pool.withEnv env) Y) ∧
      (¬ (pool.withEnv env).Grants (splits 2 3 0 es key) →
        ∃ S, btreeInsertRec key value (fuel + 1) (pool.withEnv env) p =
          some ⟨S, false, [], -1⟩ ∧ Stopped valueMax ps used pool S 0 es p f f) := by
  have hp : p ∈ used := hs p h.mem
  have hrefl : FreeAlike used (pool.withEnv env) (pool.withEnv env) := FreeAlike.refl hl.owns
  have hrepr := h
  obtain ⟨hf, hk, hes, rfl⟩ := h
  have hload := hl.loadNode hp
  generalize hnode : nodeAt ps pool.pages p = node at *
  have hfound : (leafFind node key).isSome = (SortedAssoc.lookup key node.entries).isSome := by
    rw [← leafFind_lookup]
    cases hfind : leafFind node key with
    | none => rfl
    | some i =>
      obtain ⟨e, hi, -⟩ := leafFind_some hfind
      simp [hi]
  have hsplits : splits 2 3 0 es key =
      if (leafFind node key).isSome ∨ node.entries.length < 2 then 0 else 1 := by
    subst hes
    rw [hfound]
    rfl
  rw [hsplits]
  rw [btreeInsertRec, hload] at hout
  simp only [btreeInsertRec, loadNode_withEnv he hpin, hload]
  simp only [if_pos hk] at hout ⊢
  cases hfind : leafFind node key with
  | some i =>
    simp only [hfind, Option.some.injEq] at hout ⊢
    subst hout
    refine ⟨?_, fun hn => absurd rfl hn⟩
    rintro Y ⟨⟩
    rw [storeDirty_withEnv he hpin]
    exact ⟨rfl, storeNode_env.trans he, hrefl.storeDirty hp _⟩
  | none =>
    simp only [hfind, Option.isSome_none, Bool.false_eq_true, false_or] at hout ⊢
    by_cases hroom : node.entries.length < 2
    · have hc : node.entryCount < maxKeysPerNode - 1 := hroom
      simp only [if_pos hc, if_pos hroom] at hout ⊢
      refine ⟨?_, fun hn => absurd rfl hn⟩
      rintro Y ⟨⟩
      cases hins : leafInsert node key value (insertPosition node key node.entryCount) with
      | some node' =>
        simp only [hins, Option.some.injEq] at hout ⊢
        subst hout
        rw [storeDirty_withEnv he hpin]
        exact ⟨rfl, storeNode_env.trans he, hrefl.storeDirty hp _⟩
      | none =>
        simp only [hins, Option.some.injEq] at hout ⊢
        subst hout
        rw [storeDirty_withEnv he hpin]
        exact ⟨rfl, storeNode_env.trans he, hrefl.storeDirty hp _⟩
    · have hc : ¬ node.entryCount < maxKeysPerNode - 1 := hroom
      simp only [if_neg hc, if_neg hroom] at hout ⊢
      obtain ⟨q, pool₁, ha, hq0, hq, -⟩ := hl.allocateNode .leaf
      rcases hsp : leafSplit pool p node key value with ⟨out₀, node₀⟩
      obtain ⟨h1, h2⟩ := leafSplit_withEnv hrefl he hpin hp ha hq0 hsp
      rw [hsp] at hout
      simp only [Option.some.injEq] at hout
      subst hout
      rw [takePages, takePages, Option.bind_some, Grants, takePages, takePages, Option.bind_some]
      simp only
      by_cases hneg : (allocateLeaf (pool.withEnv env)).1 < 0
      · rw [if_pos hneg]
        refine ⟨fun Y hY => (by cases hY), fun _ => ?_⟩
        obtain ⟨S, hS, hno⟩ := h2 hneg
        have hS₁ : S = (S.withEnv env.mended).withEnv env := by
          rw [← hno.env_eq]
          rfl
        have hsize : (S.withEnv env.mended).pageSize = ps := hno.pageSize.trans hl.size
        -- The leaf is stored once more as it was.
        obtain ⟨buf, hstore, hbuf⟩ := @storeNode_eq _ _ _ (S.withEnv env.mended) env.mended_serves
          (hl.owns.range p hp).1 hf (hsize ▸ hl.fits)
        rw [hS]
        simp only
        rw [hS₁, storeNode_withEnv rfl hpin, hstore]
        refine ⟨_, rfl, hno.pageSize, hno.nextPage, fun x hx hxp => ?_, ?_, ?_⟩
        · have hxp : x ≠ p := by simpa using hxp
          have hxq : x ≠ q := fun e => hq (e ▸ hx)
          exact (setPage_pages_of_ne hxp).trans (hno.pages x hxq)
        · subst hes
          refine repr_of_leaf ?_ hf hk
          rw [nodeAt, ← hsize]
          simpa [withEnv] using hbuf
        · intro x hx
          obtain rfl : x = p := by simpa using hx
          exact (hl.owns.range x hp).1
      · rw [if_neg hneg]
        refine ⟨?_, fun hn => absurd rfl hn⟩
        rintro Y ⟨⟩
        obtain ⟨e1, e2, e3⟩ := h1 (not_lt.mp hneg)
        rw [e1]
        refine ⟨?_, storeNode_env.trans e2, e3.storeNode hp _⟩
        simp only [InsertOut.withEnv]
        rw [storeNode_withEnv e2 hpin]

/-- Insertion below a branch page on the failing frames, when it goes through below the child. -/
theorem btreeInsertRec_branch_withEnv (hl : Live valueMax ps pool used)
    (he : pool.env = env.mended) (hp : p ∈ used) (hpin : env.pinFails p = false)
    (hn : nodeAt ps pool.pages p = node) (hk : node.kind = .internal)
    (hchild : node.child (internalFind node key) = c)
    (hrec : btreeInsertRec key value fuel pool c = some out₀) (hin : out₀.inserted = true)
    (hl₀ : Live valueMax ps out₀.pool used')
    (hout : btreeInsertRec key value (fuel + 1) pool p = some out)
    (hrec' : btreeInsertRec key value fuel (pool.withEnv env) c = some (out₀.withEnv env))
    (he₀ : out₀.pool.env = env.mended) (hf : FreeAlike used (out₀.pool.withEnv env) Y) :
    (¬ (0 ≤ out₀.newChild ∧ maxKeysPerNode ≤ node.entryCount) →
      btreeInsertRec key value (fuel + 1) (pool.withEnv env) p = some (out.withEnv env) ∧
        out.pool.env = env.mended ∧ FreeAlike used (out.pool.withEnv env) Y) ∧
    (0 ≤ out₀.newChild → maxKeysPerNode ≤ node.entryCount →
      (0 ≤ (allocateLeaf Y).1 →
        btreeInsertRec key value (fuel + 1) (pool.withEnv env) p = some (out.withEnv env) ∧
          out.pool.env = env.mended ∧ FreeAlike used (out.pool.withEnv env) (allocateLeaf Y).2) ∧
      ((allocateLeaf Y).1 < 0 →
        ∃ S q, btreeInsertRec key value (fuel + 1) (pool.withEnv env) p =
          some ⟨S, false, [], -1⟩ ∧ q ∉ used' ∧ NoPage out₀.pool S env q)) := by
  have hkl : node.kind ≠ .leaf := by rw [hk]; decide
  have hload := hl.loadNode hp
  rw [hn] at hload
  rw [btreeInsertRec, hload] at hout
  simp only [btreeInsertRec, loadNode_withEnv he hpin, hload]
  simp only [if_neg hkl, hchild, hrec, hrec', hin, true_and, InsertOut.withEnv] at hout ⊢
  by_cases hnew : 0 ≤ out₀.newChild
  · simp only [ge_iff_le, if_pos hnew] at hout ⊢
    by_cases hroom : node.entryCount < maxKeysPerNode
    · simp only [if_pos hroom, Option.some.injEq] at hout ⊢
      subst hout
      refine ⟨fun _ => ?_, fun _ hfull => absurd hroom (by omega)⟩
      rw [storeDirty_withEnv he₀ hpin]
      exact ⟨rfl, storeNode_env.trans he₀, hf.storeDirty hp _⟩
    · simp only [if_neg hroom, Option.some.injEq] at hout ⊢
      refine ⟨fun h => absurd ⟨hnew, not_lt.mp hroom⟩ h, fun _ _ => ?_⟩
      obtain ⟨q, pool₁, ha, hq0, hq, -⟩ := hl₀.allocateNode .internal
      obtain ⟨h1, h2⟩ := internalSplit_withEnv hf he₀ hpin hp ha hq0 hout
      refine ⟨h1, fun hneg => ?_⟩
      obtain ⟨S, hS, hno⟩ := h2 hneg
      exact ⟨S, q, hS, hq, hno⟩
  · simp only [ge_iff_le, if_neg hnew, Option.some.injEq] at hout ⊢
    subst hout
    exact ⟨fun _ => ⟨rfl, he₀, hf⟩, fun h => absurd h hnew⟩

/-- The child of a branch page a key is routed to, between its siblings. -/
structure Route (valueMax ps : Nat) (pages : Int → PageBuffer) (t : Tree Bytes Bytes (d + 1))
    (p : Int) (f : Foot) (key : Bytes) (pre : List (Sub d)) (x : Sub d) (post : List (Sub d)) :
    Prop where
  trees : (pre ++ x :: post).map Sub.tree = t.children
  pages_eq : (pre ++ x :: post).map Sub.page = (nodeAt ps pages p).children
  sub : ∀ y ∈ pre ++ x :: post, Repr valueMax ps pages d y.tree y.page y.foot
  foot : f = (Foot.join (pre ++ x :: post)).root p
  index : pre.length = childIndex t.seps key
  child : (nodeAt ps pages p).child (internalFind (nodeAt ps pages p) key) = x.page
  nodup : x.foot.pages.Nodup

theorem Repr.route {pages : Int → PageBuffer} {t : Tree Bytes Bytes (d + 1)}
    (h : Repr valueMax ps pages (d + 1) t p f) (hnd : f.pages.Nodup)
    (hc : t.children[childIndex t.seps key]? = some c) :
    ∃ pre x post, Route valueMax ps pages t p f key pre x post ∧ x.tree = c := by
  obtain ⟨hf, hk, hks, l, hlt, hlp, hsub, rfl⟩ := h
  have hil : childIndex t.seps key < l.length := by
    have := (List.getElem?_eq_some_iff.mp hc).1
    rw [← hlt] at this
    simpa using this
  obtain ⟨pre, x, post, rfl, hi'⟩ : ∃ pre x post, l = pre ++ x :: post ∧
      pre.length = childIndex t.seps key :=
    ⟨l.take (childIndex t.seps key), l[childIndex t.seps key], l.drop (childIndex t.seps key + 1),
      by simp, by rw [List.length_take]; omega⟩
  refine ⟨pre, x, post, ⟨hlt, hlp, hsub, rfl, hi', ?_, ?_⟩, ?_⟩
  · rw [internalFind_eq, hks, ← hi', BtreeNode.child, ← hlp]
    simp
  · have := (List.nodup_cons.mp hnd).2
    simp only [Foot.join, List.flatMap_append, List.flatMap_cons, List.nodup_append] at this
    exact this.2.1.1
  · rw [← hlt, ← hi'] at hc
    simpa using hc

theorem Route.foot_sub {pages : Int → PageBuffer} {t : Tree Bytes Bytes (d + 1)}
    (h : Route valueMax ps pages t p f key pre x post) (hq : q ∈ x.foot.pages) : q ∈ f.pages := by
  rw [h.foot]
  exact List.mem_cons_of_mem _ (Foot.mem_join.mpr ⟨x, by simp, hq⟩)

/-- The new node of a split, told from the number of splits. -/
theorem PieceRepr.newChild_iff {t t' : Tree Bytes Bytes d}
    {pages : Int → PageBuffer} (h : PieceRepr valueMax ps pages d t' p out f
      (BPlusTree.insert 2 3 d t key value).2)
    (ho : Ordered d lo hi t) (hlo : lo ≤ Bound.key key) (hhi : Bound.key key < hi) :
    0 ≤ out.newChild ↔ splits 2 3 d t key = d + 1 := by
  rw [← insert_isSome_iff ho hlo hhi 2 3 value]
  cases hp : (BPlusTree.insert 2 3 d t key value).2 with
  | none =>
    rw [hp] at h
    rw [h.1]
    simp
  | some piece =>
    rw [hp] at h
    exact iff_of_true h.2.2.1 rfl

/-- Where the pages of the descent can be pinned and every new page can be had, the failing run
does what the run without failures does. -/
theorem btreeInsertRec_follows (hl : Live valueMax ps pool used) (he : pool.env = env.mended)
    {t : Tree Bytes Bytes d} (h : Repr valueMax ps pool.pages d t p f)
    (hs : ∀ q ∈ f.pages, q ∈ used) (hnd : f.pages.Nodup) (ho : Ordered d lo hi t)
    (hlo : lo ≤ Bound.key key) (hhi : Bound.key key < hi) (hkey : key.length ≤ 255)
    (hval : value.length ≤ valueMax) (hids : pool.nextPage + (d + 1 : Nat) < pageIdLimit)
    (hfuel : d < fuel) (hpins : descentPins key fuel (pool.withEnv env) p = true)
    (hout : btreeInsertRec key value fuel pool p = some out)
    (hpages : (pool.withEnv env).takePages (splits 2 3 d t key) = some Y) :
    btreeInsertRec key value fuel (pool.withEnv env) p = some (out.withEnv env) ∧
      out.pool.env = env.mended ∧ FreeAlike used (out.pool.withEnv env) Y := by
  induction d generalizing p f lo hi fuel out Y with
  | zero =>
    obtain ⟨fuel, rfl⟩ := Nat.exists_eq_add_of_lt hfuel
    rw [Nat.zero_add] at hpins hout ⊢
    exact (btreeInsertRec_leaf_withEnv hl he h hs (descentPins_page hpins).1 hout).1 Y hpages
  | succ d ih =>
    obtain ⟨fuel, rfl⟩ : ∃ n, fuel = n + 1 := ⟨fuel - 1, by omega⟩
    obtain ⟨-, c, bd, -, m, -, -, hc, -, hoc, -, hm, hbd⟩ := ho.focus hlo hhi
    obtain ⟨pre, x, post, hr, rfl⟩ := h.route hnd hc
    have hp : p ∈ used := hs p h.mem
    have hx := hr.sub x (by simp)
    have hxs : ∀ q ∈ x.foot.pages, q ∈ used := fun q hq => hs q (hr.foot_sub hq)
    obtain ⟨hpin, hdown⟩ := descentPins_page hpins
    rw [loadNode_withEnv he hpin, hl.loadNode hp, hr.child] at hdown
    have hk : (nodeAt ps pool.pages p).kind = .internal := h.kind
    have hdown := hdown.resolve_left (by rw [hk]; decide)
    obtain ⟨out₀, used', f', h1, h2, hg, h4, -⟩ := btreeInsertRec_repr hl hx hxs hr.nodup hoc hm hbd
      hkey hval (by push_cast at hids ⊢; omega) (show d < fuel by omega)
    have hnew := h4.newChild_iff hoc hm hbd
    have hcount : (nodeAt ps pool.pages p).entryCount = t.seps.length := h.count
    have hsplits : splits 2 3 (d + 1) t key =
        if splits 2 3 d x.tree key = d + 1 ∧ 3 ≤ t.seps.length then splits 2 3 d x.tree key + 1
        else splits 2 3 d x.tree key := by
      simp only [splits, hc]
    rw [hsplits] at hpages
    by_cases hfull : splits 2 3 d x.tree key = d + 1 ∧ 3 ≤ t.seps.length
    · rw [if_pos hfull] at hpages
      obtain ⟨Y₀, hY₀, hY⟩ := Option.bind_eq_some_iff.mp hpages
      obtain ⟨e1, e2, e3⟩ := ih hx hxs hr.nodup hoc hm hbd (by push_cast at hids ⊢; omega)
        (show d < fuel by omega) hdown h1 hY₀
      have hb := btreeInsertRec_branch_withEnv hl he hp hpin rfl hk hr.child h1 h2 hg.live hout
        e1 e2 e3
      simp only at hY
      split at hY
      · cases hY
      · next hneg =>
        cases hY
        exact (hb.2 (hnew.mpr hfull.1) (hcount ▸ hfull.2)).1 (not_lt.mp hneg)
    · rw [if_neg hfull] at hpages
      obtain ⟨e1, e2, e3⟩ := ih hx hxs hr.nodup hoc hm hbd (by push_cast at hids ⊢; omega)
        (show d < fuel by omega) hdown h1 hpages
      have hb := btreeInsertRec_branch_withEnv hl he hp hpin rfl hk hr.child h1 h2 hg.live hout
        e1 e2 e3
      exact hb.1 fun hh => hfull ⟨hnew.mp hh.1, hcount ▸ hh.2⟩

/-- The branch above a child where the insertion stopped. -/
theorem Stopped.branch {S : Pool} {t : Tree Bytes Bytes (d + 1)} {t' : Tree Bytes Bytes d}
    (h : Stopped valueMax ps used pool S d t' x.page x.foot f')
    (hl : Live valueMax ps pool used) (hrepr : Repr valueMax ps pool.pages (d + 1) t p f)
    (hr : Route valueMax ps pool.pages t p f key pre x post) (hs : ∀ q ∈ f.pages, q ∈ used)
    (hnd : f.pages.Nodup) :
    ∃ f'', Stopped valueMax ps used pool S (d + 1)
      (⟨t.seps, t.children.set (childIndex t.seps key) t'⟩ : Branch Bytes (Tree Bytes Bytes d)) p
      f f'' := by
  have hp : p ∈ used := hs p hrepr.mem
  have hpf : p ∉ x.foot.pages := by
    intro hm
    rw [hr.foot] at hnd
    exact (List.nodup_cons.mp hnd).1 (Foot.mem_join.mpr ⟨x, by simp, hm⟩)
  have hn : nodeAt ps S.pages p = nodeAt ps pool.pages p := by
    rw [nodeAt, h.frame p hp hpf, nodeAt]
  obtain ⟨hf, hk, hks, -⟩ := hrepr
  obtain rfl := hr.foot
  have hnj := (List.nodup_cons.mp hnd).2
  have hsj : ∀ q ∈ (Foot.join (pre ++ ([x] ++ post))).pages, q ∈ used := fun q hq =>
    hs q (List.mem_cons_of_mem _ hq)
  have hother : ∀ y ∈ pre ++ post, ∀ q ∈ y.foot.pages, S.pages q = pool.pages q := by
    refine siblings_kept hnj hsj ?_
    rw [Foot.join_singleton]
    exact h.frame
  have hsub : ∀ y ∈ pre ++ ⟨t', x.page, f'⟩ :: post,
      Repr valueMax ps S.pages d y.tree y.page y.foot := by
    intro y hy
    simp only [List.mem_append, List.mem_cons] at hy
    rcases hy with hy | rfl | hy
    · exact (hr.sub y (by simp [hy])).congr (hother y (by simp [hy]))
    · exact h.repr
    · exact (hr.sub y (by simp [hy])).congr (hother y (by simp [hy]))
  have hbr := repr_of_branch hn hf hk t.seps hks (by rw [← hr.pages_eq]; simp) hsub
  have htrees : (pre ++ (⟨t', x.page, f'⟩ : Sub d) :: post).map Sub.tree =
      t.children.set (childIndex t.seps key) t' := by
    rw [← hr.index, ← hr.trees, List.map_append, List.map_append, List.map_cons, List.map_cons,
      ← List.length_map (f := Sub.tree), set_middle]
  rw [htrees] at hbr
  refine ⟨_, h.pageSize, h.nextPage, fun q hq hqf => h.frame q hq fun hm => hqf ?_, hbr,
    fun q hq => ?_⟩
  · exact List.mem_cons_of_mem _ (Foot.mem_join.mpr ⟨x, by simp, hm⟩)
  · rcases List.mem_cons.mp hq with rfl | hq
    · exact (hl.owns.range q hp).1
    · obtain ⟨y, hy, hqy⟩ := Foot.mem_join.mp hq
      have hrange : ∀ z ∈ pre ++ post, ∀ v ∈ z.foot.pages, 0 ≤ v := by
        intro z hz v hv
        refine (hl.owns.range v (hsj v (Foot.mem_join.mpr ⟨z, ?_, hv⟩))).1
        rcases List.mem_append.mp hz with hz | hz <;> simp [hz]
      simp only [List.mem_append, List.mem_cons] at hy
      rcases hy with hy | rfl | hy
      · exact hrange y (by simp [hy]) q hqy
      · exact h.nonneg q hqy
      · exact hrange y (by simp [hy]) q hqy

/-- The left half of a split child, when the page for the next split is missing. -/
theorem Stopped.left {S : Pool} {t : Tree Bytes Bytes d}
    (hl : Live valueMax ps pool used)
    (hg : Grows valueMax ps used used' pool out.pool n f.pages)
    (hpiece : PieceRepr valueMax ps out.pool.pages d t p out f' (some (sep, u)))
    (hev : Evolves used used' f f') (hq : q ∉ used') (hno : NoPage out.pool S env q) :
    ∃ f₁, Stopped valueMax ps used pool S d t p f f₁ := by
  obtain ⟨-, -, -, -, f₁, f₂, h1, -, rfl⟩ := hpiece
  have hu : ∀ v ∈ f₁.pages, v ∈ used' := fun v hv => hev.sub v (List.mem_append_left _ hv)
  refine ⟨f₁, hno.pageSize.trans (hg.live.size.trans hl.size.symm), hg.next_le.trans hno.nextPage,
    fun v hv hvf => ?_, h1.congr fun v hv => hno.pages v fun e => hq (e ▸ hu v hv), fun v hv => ?_⟩
  · exact (hno.pages v fun e => hq (e ▸ hg.sub hv)).trans (hg.frame v hv hvf)
  · exact (hg.live.owns.range v (hu v hv)).1

/-- Where a new page cannot be had the insertion reports failure. If that is the first one the tree
is as before, else entries are lost. -/
theorem btreeInsertRec_stops (hl : Live valueMax ps pool used) (he : pool.env = env.mended)
    {t : Tree Bytes Bytes d} (h : Repr valueMax ps pool.pages d t p f)
    (hs : ∀ q ∈ f.pages, q ∈ used) (hnd : f.pages.Nodup) (ho : Ordered d lo hi t)
    (hsz : Sized 3 d low t) (hlow : 0 < d → 1 ≤ low)
    (hlo : lo ≤ Bound.key key) (hhi : Bound.key key < hi) (hkey : key.length ≤ 255)
    (hval : value.length ≤ valueMax) (hids : pool.nextPage + (d + 1 : Nat) < pageIdLimit)
    (hfuel : d < fuel) (hpins : descentPins key fuel (pool.withEnv env) p = true)
    (hpages : ¬ (pool.withEnv env).Grants (splits 2 3 d t key)) :
    ∃ S t' f', btreeInsertRec key value fuel (pool.withEnv env) p = some ⟨S, false, [], -1⟩ ∧
      Stopped valueMax ps used pool S d t' p f f' ∧
      (¬ (pool.withEnv env).Grants 1 → t' = t) ∧
      ((pool.withEnv env).Grants 1 → Ordered d lo hi t' ∧ Sized 3 d low t' ∧ Loses d t t') := by
  induction d generalizing p f lo hi fuel low with
  | zero =>
    obtain ⟨fuel, rfl⟩ := Nat.exists_eq_add_of_lt hfuel
    rw [Nat.zero_add] at hpins ⊢
    obtain ⟨out, -, -, hout, -⟩ := btreeInsertRec_leaf hl h hs ho.entries.2.1 hkey hval
      (by simpa using hids) fuel
    obtain ⟨S, hS, hst⟩ :=
      (btreeInsertRec_leaf_withEnv hl he h hs (descentPins_page hpins).1 hout).2 hpages
    refine ⟨S, t, f, hS, hst, fun _ => rfl, fun h1 => absurd ?_ hpages⟩
    exact grants_mono (splits_le ..) h1
  | succ d ih =>
    obtain ⟨fuel, rfl⟩ : ∃ n, fuel = n + 1 := ⟨fuel - 1, by omega⟩
    obtain ⟨c, m, bd, hc, hoc, hm, hbd, hset⟩ := ho.setChild hlo hhi
    obtain ⟨pre, x, post, hr, rfl⟩ := h.route hnd hc
    have hp : p ∈ used := hs p h.mem
    have hx := hr.sub x (by simp)
    have hxs : ∀ q ∈ x.foot.pages, q ∈ used := fun q hq => hs q (hr.foot_sub hq)
    have hszc : Sized 3 d 1 x.tree := hsz.2.2.2 _ (List.mem_of_getElem? hc)
    obtain ⟨hpin, hdown⟩ := descentPins_page hpins
    have hload : loadNode (pool.withEnv env) p = nodeAt ps pool.pages p :=
      (loadNode_withEnv he hpin).trans (hl.loadNode hp)
    rw [hload, hr.child] at hdown
    have hk : (nodeAt ps pool.pages p).kind = .internal := h.kind
    have hdown := hdown.resolve_left (by rw [hk]; decide)
    have hsplits : splits 2 3 (d + 1) t key =
        if splits 2 3 d x.tree key = d + 1 ∧ 3 ≤ t.seps.length then splits 2 3 d x.tree key + 1
        else splits 2 3 d x.tree key := by
      simp only [splits, hc]
    by_cases hgr : (pool.withEnv env).Grants (splits 2 3 d x.tree key)
    · -- The child splits, and there is no page for the right half of this node.
      obtain ⟨Y, hY⟩ := Option.isSome_iff_exists.mp hgr
      by_cases hfull : splits 2 3 d x.tree key = d + 1 ∧ 3 ≤ t.seps.length
      swap
      · rw [hsplits, if_neg hfull] at hpages
        exact absurd hgr hpages
      rw [hsplits, if_pos hfull, Grants, takePages_succ hY] at hpages
      have hneg : (allocateLeaf Y).1 < 0 := by
        by_contra hge
        rw [if_neg hge] at hpages
        exact hpages rfl
      obtain ⟨out₀, used', f', h1, h2, hg, h4, h5, -⟩ := btreeInsertRec_repr hl hx hxs hr.nodup hoc
        hm hbd hkey hval (by push_cast at hids ⊢; omega) (show d < fuel by omega)
      obtain ⟨out, -, -, hout, -⟩ := btreeInsertRec_repr hl h hs hnd ho hlo hhi hkey hval hids
        (show d + 1 < fuel + 1 by omega)
      obtain ⟨e1, e2, e3⟩ := btreeInsertRec_follows hl he hx hxs hr.nodup hoc hm hbd hkey hval
        (by push_cast at hids ⊢; omega) (show d < fuel by omega) hdown h1 hY
      have hnew := (h4.newChild_iff hoc hm hbd).mpr hfull.1
      have hcount : (nodeAt ps pool.pages p).entryCount = t.seps.length := h.count
      obtain ⟨S, q, hS, hq, hno⟩ := ((btreeInsertRec_branch_withEnv hl he hp hpin rfl hk hr.child h1
        h2 hg.live hout e1 e2 e3).2 hnew (hcount ▸ hfull.2)).2 hneg
      obtain ⟨⟨sep, u⟩, hpiece⟩ := Option.isSome_iff_exists.mp
        ((insert_isSome_iff hoc hm hbd 2 3 value).mpr hfull.1)
      rw [hpiece] at h4
      obtain ⟨f₁, hst⟩ := Stopped.left hl hg h4 h5 hq hno
      obtain ⟨f'', hst⟩ := hst.branch hl h hr hs hnd
      obtain ⟨hol, hlose⟩ := insert_left (by decide) (by decide) hoc hm hbd hszc (fun _ => le_refl 1)
        hpiece
      have hszl := (insert_sized (by decide) (by decide) (by decide) hszc (fun _ => le_refl 1) key
        value : Sized 3 d 1 (BPlusTree.insert 2 3 d x.tree key value).1 ∧ _).1
      refine ⟨S, _, f'', hS, hst, fun h1 => absurd (grants_mono (by omega) hgr) h1, fun _ => ?_⟩
      exact ⟨(hset _ hol).1, hsz.setChild _ hszl, (hset _ hol).2 hlose⟩
    · -- The insertion stopped below the child.
      obtain ⟨S, t', f', hS, hst, hsame, hlost⟩ := ih hx hxs hr.nodup hoc hszc (fun _ => le_refl 1)
        hm hbd (by push_cast at hids ⊢; omega) (show d < fuel by omega) hdown hgr
      obtain ⟨f'', hst⟩ := hst.branch hl h hr hs hnd
      have hkl : (nodeAt ps pool.pages p).kind ≠ .leaf := by rw [hk]; decide
      refine ⟨S, _, f'', ?_, hst, fun h1 => ?_, fun h1 => ?_⟩
      · simp only [btreeInsertRec, hload, if_neg hkl, hr.child, hS]
        simp
      · obtain ⟨hi, hx⟩ := List.getElem?_eq_some_iff.mp hc
        rw [hsame h1, ← hx, List.set_getElem_self]
      · obtain ⟨hol, hszl, hlose⟩ := hlost h1
        exact ⟨(hset _ hol).1, hsz.setChild _ hszl, (hset _ hol).2 hlose⟩

/-- A page that cannot be pinned is taken for an empty leaf, and what is stored to it is lost. -/
theorem btreeInsertRec_unpinned (hc : env.Caches) (hp : env.pinFails p = true) :
    btreeInsertRec key value (fuel + 1) (pool.withEnv env) p =
      some ⟨(pool.withEnv env).markDirty p, true, [], -1⟩ := by
  simp only [btreeInsertRec, loadNode_of_pinFails hc hp, storeDirty, storeNode_of_pinFails hp]
  rfl

/-- Where a page of the descent cannot be pinned the insertion changes no page. -/
theorem btreeInsertRec_blind (hc : env.Caches) (hl : Live valueMax ps pool used)
    (he : pool.env = env.mended) {t : Tree Bytes Bytes d}
    (h : Repr valueMax ps pool.pages d t p f) (hs : ∀ q ∈ f.pages, q ∈ used)
    (hnd : f.pages.Nodup) (ho : Ordered d lo hi t) (hlo : lo ≤ Bound.key key)
    (hhi : Bound.key key < hi) (hfuel : d < fuel)
    (hpins : ¬ descentPins key fuel (pool.withEnv env) p = true) :
    ∃ q, btreeInsertRec key value fuel (pool.withEnv env) p =
      some ⟨(pool.withEnv env).markDirty q, true, [], -1⟩ := by
  induction d generalizing p f lo hi fuel with
  | zero =>
    obtain ⟨fuel, rfl⟩ : ∃ n, fuel = n + 1 := ⟨fuel - 1, by omega⟩
    cases hp : env.pinFails p with
    | true => exact ⟨p, btreeInsertRec_unpinned hc hp⟩
    | false =>
      have hload : loadNode (pool.withEnv env) p = nodeAt ps pool.pages p :=
        (loadNode_withEnv he hp).trans (hl.loadNode (hs p h.mem))
      have hk : (nodeAt ps pool.pages p).kind = .leaf := h.kind
      have hp : (pool.withEnv env).env.pinFails p = false := hp
      simp [descentPins, hp, hload, hk] at hpins
  | succ d ih =>
    obtain ⟨fuel, rfl⟩ : ∃ n, fuel = n + 1 := ⟨fuel - 1, by omega⟩
    cases hp : env.pinFails p with
    | true => exact ⟨p, btreeInsertRec_unpinned hc hp⟩
    | false =>
      have hload : loadNode (pool.withEnv env) p = nodeAt ps pool.pages p :=
        (loadNode_withEnv he hp).trans (hl.loadNode (hs p h.mem))
      have hk : (nodeAt ps pool.pages p).kind = .internal := h.kind
      have hp : (pool.withEnv env).env.pinFails p = false := hp
      obtain ⟨-, c, bd, -, m, -, -, hcc, -, hoc, -, hm, hbd⟩ := ho.focus hlo hhi
      obtain ⟨pre, x, post, hr, rfl⟩ := h.route hnd hcc
      simp only [descentPins, hp, hload, hk, hr.child] at hpins
      obtain ⟨q, hq⟩ := ih (hr.sub x (by simp)) (fun v hv => hs v (hr.foot_sub hv)) hr.nodup hoc hm
        hbd (show d < fuel by omega) (by simpa using hpins)
      refine ⟨q, ?_⟩
      simp only [btreeInsertRec, hload, hk, hr.child, hq]
      simp

/-! ## The whole insertion -/

/-- What `garry_btree_insert` reports on the frames `env` holds of the tree it leaves: with result 1
the key has the value, and every other key, with result 0 every key, has the value it had. -/
def InsertHonest (pool : Pool) (env : PoolEnv) (root : Int) (key value : Bytes) : Prop :=
  ∃ ok pool' root', btreeInsert (pool.withEnv env) root key value = some (ok, pool', root') ∧
    ∀ k, leafFindSearch (pool'.withEnv pool.env) root' k =
      if ok = true ∧ k = key then some (some value) else leafFindSearch pool root k

/-- The root above a split, on the failing frames. -/
theorem btreeInsert_withEnv (he : pool.env = env.mended) (hpin : env.pinFails root = false)
    (hrec : btreeInsertRec key value pool.fuel pool root = some out)
    (hrec' : btreeInsertRec key value pool.fuel (pool.withEnv env) root = some (out.withEnv env))
    (he' : out.pool.env = env.mended) (hl' : Live valueMax ps out.pool used')
    (hload : 0 ≤ out.newChild →
      (loadNode out.pool root).entryCount ≤ (loadNode pool root).entryCount)
    (hf : FreeAlike used (out.pool.withEnv env) Y)
    (hout : btreeInsert pool root key value = some (ok, pool', root')) :
    (out.newChild < 0 → btreeInsert (pool.withEnv env) root key value =
      some (ok, pool'.withEnv env, root')) ∧
    (0 ≤ out.newChild →
      (0 ≤ (allocateLeaf Y).1 → btreeInsert (pool.withEnv env) root key value =
        some (ok, pool'.withEnv env, root')) ∧
      ((allocateLeaf Y).1 < 0 → ∃ S q, btreeInsert (pool.withEnv env) root key value =
        some (false, S, root) ∧ q ∉ used' ∧ NoPage out.pool S env q)) := by
  have hfuel : (pool.withEnv env).fuel = pool.fuel := rfl
  rw [btreeInsert, hrec] at hout
  rw [btreeInsert, hfuel, hrec']
  simp only [InsertOut.withEnv, loadNode_withEnv he hpin, loadNode_withEnv he' hpin, ge_iff_le]
    at hout ⊢
  refine ⟨fun hneg => ?_, fun hnew => ?_⟩
  · rw [if_neg (by omega)] at hout ⊢
    cases hout
    rfl
  · rw [if_pos hnew, if_pos (hload hnew)] at hout ⊢
    obtain ⟨q, pool₁, ha, hq0, hq, -⟩ := hl'.allocateNode .internal
    obtain ⟨h1, h2⟩ := hf.newPage he' .internal ha hq0
    have hn : ¬ q < 0 := by omega
    have ha : allocateInternal out.pool = (q, pool₁) := ha
    simp only [ha, if_neg hn, Option.some.injEq, Prod.mk.injEq] at hout
    obtain ⟨rfl, rfl, rfl⟩ := hout
    refine ⟨fun h0 => ?_, fun h0 => ?_⟩
    · obtain ⟨hqp, he₁, ha', -⟩ := h1 h0
      have ha' : allocateInternal (out.pool.withEnv env) = (q, pool₁.withEnv env) := ha'
      simp only [ha', if_neg hn]
      rw [storeDirty_withEnv he₁ hqp]
    · obtain ⟨S, ha', hno⟩ := h2 h0
      have ha' : allocateInternal (out.pool.withEnv env) = (-1, S) := ha'
      refine ⟨S, q, ?_, hq, hno⟩
      simp only [ha']
      rfl

theorem Stopped.search {S : Pool} {env' : PoolEnv} {t' : Tree Bytes Bytes d}
    (h : Stopped valueMax ps used pool S d t' p f f') (hl : Live valueMax ps pool used)
    (he : env'.Serves) (hd : d < pool.fuel) (k : Bytes) :
    leafFindSearch (S.withEnv env') p k = some (search d t' k) := by
  have hsize : (S.withEnv env').pageSize = ps := h.pageSize.trans hl.size
  have hrepr : Repr valueMax (S.withEnv env').pageSize (S.withEnv env').pages d t' p f' :=
    hsize ▸ h.repr
  have hn := h.nextPage
  refine @leafFindSearchLoop_repr _ _ _ _ _ (S.withEnv env') he _ hrepr h.nonneg ?_ k
  have hfuel : (S.withEnv env').fuel = S.nextPage.toNat + 1 := rfl
  rw [Pool.fuel] at hd
  rw [hfuel]
  omega

theorem Stopped.not_honest {S : Pool} {r : Root Bytes Bytes} {t' : Tree Bytes Bytes r.depth}
    (h : TreeAt valueMax ps pool used root r f)
    (hst : Stopped valueMax ps used (pool.withEnv env.mended) S r.depth t' root f f')
    (ho : Ordered r.depth ⊥ ⊤ t') (hsz : Sized maxKeysPerNode r.depth (rootLow r.depth) t')
    (hlose : Loses r.depth r.tree t')
    (hrun : btreeInsert (pool.withEnv env) root key value = some (false, S, root)) :
    ¬ InsertHonest pool env root key value := by
  rintro ⟨ok, pool', root', hrun', hall⟩
  rw [hrun] at hrun'
  cases hrun'
  obtain ⟨e, he, hnone⟩ := hlose
  have hG : TreeAt valueMax ps (pool.withEnv env.mended) used root r f :=
    h.withEnv env.mended_serves
  have hk := hall e.1
  rw [hst.search hG.live h.live.serves h.depth_lt, h.search] at hk
  rw [search_eq ho hsz one_le_rootLow bot_le Bound.key_lt_top, hnone] at hk
  simp only [Bool.false_eq_true, false_and, if_false, Option.some.injEq] at hk
  have hmem : (e.1, e.2) ∈ r.toList := he
  rw [h.wf.sorted.lookup_of_mem hmem] at hk
  cases hk

theorem TreeAt.insertHonest {pool' : Pool} {r : Root Bytes Bytes}
    (h : TreeAt valueMax ps pool used root r f)
    (hT : TreeAt valueMax ps pool' used' root' (r.insert 2 maxKeysPerNode key value) f')
    (hrun : btreeInsert (pool.withEnv env) root key value =
      some (true, pool'.withEnv env, root')) : InsertHonest pool env root key value := by
  refine ⟨true, _, root', hrun, fun k => ?_⟩
  have hT₁ : TreeAt valueMax ps ((pool'.withEnv env).withEnv pool.env) used' root'
    (r.insert 2 maxKeysPerNode key value) f' := hT.withEnv h.live.serves
  obtain ⟨-, hlist⟩ := h.wf.insert (show 0 < 2 by decide) (show 2 ≤ maxKeysPerNode by decide)
    (by decide) key value
  rw [hT₁.search, h.search, hlist, SortedAssoc.lookup_insert]
  by_cases hk : k = key <;> simp [hk]

/-- An insertion that changes no page but reports success. -/
theorem TreeAt.honest_blind {r : Root Bytes Bytes} (h : TreeAt valueMax ps pool used root r f)
    (hrun : btreeInsert (pool.withEnv env) root key value =
      some (true, (pool.withEnv env).markDirty q, root)) :
    InsertHonest pool env root key value ↔ leafFindSearch pool root key = some (some value) := by
  have hkept : TreeAt valueMax ps (((pool.withEnv env).markDirty q).withEnv pool.env) used root r
    f := h.congr (h.live.markDirty q) h.sub fun _ _ => rfl
  constructor
  · rintro ⟨ok, pool', root', hrun', hall⟩
    rw [hrun] at hrun'
    cases hrun'
    have hk := hall key
    rw [hkept.search, ← h.search] at hk
    simpa using hk
  · intro hlook
    refine ⟨true, _, root, hrun, fun k => ?_⟩
    rw [hkept.search, ← h.search]
    by_cases hk : k = key
    · rw [hk, if_pos ⟨rfl, rfl⟩]
      exact hlook
    · rw [if_neg fun hh => hk hh.2]

/-- A root that splits keeps at most as many keys as it had. -/
theorem PieceRepr.reload_le {t : Tree Bytes Bytes d} {t' : Tree Bytes Bytes d} {pool' : Pool}
    (h : PieceRepr valueMax ps pool'.pages d t' p out f (some (sep, u)))
    (hl : Live valueMax ps pool used) (hp : p ∈ used) (hrepr : Repr valueMax ps pool.pages d t p g)
    (hl' : Live valueMax ps pool' used') (hp' : p ∈ used') (hcount : count d t' ≤ count d t) :
    (loadNode pool' p).entryCount ≤ (loadNode pool p).entryCount := by
  obtain ⟨-, -, -, -, f₁, f₂, h1, -, -⟩ := h
  rw [hl'.loadNode hp', h1.count, hl.loadNode hp, hrepr.count]
  exact hcount

/-- `garry_btree_insert` reports the truth on failing frames exactly when the key already has the
value, or the pages of the descent can be pinned and either the first new page cannot be had or all
can. -/
theorem btreeInsert_honest {r : Root Bytes Bytes} (h : TreeAt valueMax ps pool used root r f)
    (hc : env.Caches) (hkey : key.length ≤ 255) (hval : value.length ≤ valueMax)
    (hids : pool.HasIds) :
    InsertHonest pool env root key value ↔
      leafFindSearch pool root key = some (some value) ∨
        descentPins key pool.fuel (pool.withEnv env) root = true ∧
          ((pool.withEnv env).Grants 1 →
            (pool.withEnv env).Grants (r.newNodes 2 maxKeysPerNode key)) := by
  have hG : TreeAt valueMax ps (pool.withEnv env.mended) used root r f :=
    h.withEnv env.mended_serves
  have hdepth := h.depth_lt
  have hd31 := h.depth_lt_31 (by
    have hids : pool.nextPage + 64 ≤ 2147483648 - 100000 := hids
    omega)
  have hids' : (pool.withEnv env.mended).nextPage + (r.depth + 1 : Nat) < pageIdLimit := by
    have hids : pool.nextPage + 64 ≤ 2147483648 - 100000 := hids
    show pool.nextPage + _ < _
    simp only [pageIdLimit, pageIdBias]
    push_cast
    omega
  have hbot : (⊥ : Bound Bytes) ≤ Bound.key key := bot_le
  have htop : Bound.key key < (⊤ : Bound Bytes) := Bound.key_lt_top
  rw [h.search]
  by_cases hpins : descentPins key pool.fuel (pool.withEnv env) root = true
  · obtain ⟨out, used', f', h1, h2, hg, h4, h5, -⟩ := btreeInsertRec_repr hG.live hG.repr hG.sub
      hG.nodup hG.wf.ordered hbot htop hkey hval hids' hdepth
    obtain ⟨pool', root', used'', f'', hrun, hT, -⟩ := btreeInsert_tree hG hkey hval hids
    have hnew := h4.newChild_iff hG.wf.ordered hbot htop
    have hsome : splits 2 3 r.depth r.tree key ≠ 0 →
        SortedAssoc.lookup key r.toList ≠ some value := by
      intro hne hlook
      apply hne
      apply splits_eq_zero
      rw [show search r.depth r.tree key = _ from h.wf.search key, hlook]
      rfl
    have hN : r.newNodes 2 maxKeysPerNode key = if 0 ≤ out.newChild then
        splits 2 3 r.depth r.tree key + 1 else splits 2 3 r.depth r.tree key := by
      simp only [hnew]
      rfl
    by_cases hn : (pool.withEnv env).Grants (splits 2 3 r.depth r.tree key)
    · obtain ⟨Y, hY⟩ := Option.isSome_iff_exists.mp hn
      obtain ⟨e1, e2, e3⟩ := btreeInsertRec_follows hG.live rfl hG.repr hG.sub hG.nodup hG.wf.ordered
        hbot htop hkey hval hids' hdepth hpins h1 hY
      have hpin : env.pinFails root = false := (descentPins_page hpins).1
      have hroot : root ∈ used := h.sub root h.repr.mem
      have hload : 0 ≤ out.newChild → (loadNode out.pool root).entryCount ≤
          (loadNode (pool.withEnv env.mended) root).entryCount := by
        intro hpos
        obtain ⟨⟨sep, u⟩, hp⟩ := Option.isSome_iff_exists.mp
          ((insert_isSome_iff hG.wf.ordered hbot htop 2 3 value).mpr (hnew.mp hpos))
        rw [hp] at h4
        exact h4.reload_le hG.live hroot hG.repr hg.live (hg.sub hroot)
          (insert_split_count r.tree key value (by decide) (by decide) (by rw [hp]; simp))
      have he0 : (pool.withEnv env.mended).env = env.mended := rfl
      obtain ⟨b1, b2⟩ := btreeInsert_withEnv he0 hpin h1 e1 e2 hg.live hload e3 hrun
      rcases lt_or_ge out.newChild 0 with hneg | hpos
      · rw [hN, if_neg (by omega)]
        exact iff_of_true (h.insertHonest hT (b1 hneg)) (.inr ⟨hpins, fun _ => hn⟩)
      · rw [hN, if_pos hpos, Grants, Grants, takePages_succ hY]
        obtain ⟨b2, b3⟩ := b2 hpos
        by_cases hneg : (allocateLeaf Y).1 < 0
        · obtain ⟨S, q, hS, hq, hno⟩ := b3 hneg
          obtain ⟨⟨sep, u⟩, hp⟩ := Option.isSome_iff_exists.mp
            ((insert_isSome_iff hG.wf.ordered hbot htop 2 3 value).mpr (hnew.mp hpos))
          rw [hp] at h4
          obtain ⟨f₁, hst⟩ := Stopped.left hG.live hg h4 h5 hq hno
          obtain ⟨hol, hlose⟩ := insert_left (by decide) (by decide) hG.wf.ordered hbot htop
            hG.wf.sized one_le_rootLow hp
          have hszl := (insert_sized (by decide) (by decide) (by decide) hG.wf.sized one_le_rootLow
            key value : Sized maxKeysPerNode r.depth 1 (BPlusTree.insert 2 3 r.depth r.tree key
              value).1 ∧ _).1
          rw [if_pos hneg]
          refine iff_of_false
            (hst.not_honest h hol (hszl.mono rootLow_le_one) hlose hS) ?_
          have hsplit : splits 2 3 r.depth r.tree key = r.depth + 1 := hnew.mp hpos
          rintro (hlook | ⟨-, hall⟩)
          · exact hsome (by omega) (Option.some.inj hlook)
          · exact Bool.noConfusion (hall (grants_mono (by omega) hn))
        · rw [if_neg hneg]
          exact iff_of_true (h.insertHonest hT (b2 (not_lt.mp hneg))) (.inr ⟨hpins, fun _ => rfl⟩)
    · obtain ⟨S, t', f', hS, hst, hsame, hlost⟩ := btreeInsertRec_stops hG.live rfl hG.repr hG.sub
        hG.nodup hG.wf.ordered hG.wf.sized one_le_rootLow hbot htop hkey hval hids' hdepth hpins hn
      have hfail : btreeInsert (pool.withEnv env) root key value = some (false, S, root) := by
        have hfuel : (pool.withEnv env).fuel = pool.fuel := rfl
        have hS : btreeInsertRec key value pool.fuel (pool.withEnv env) root =
          some ⟨S, false, [], -1⟩ := hS
        rw [btreeInsert, hfuel, hS]
        rfl
      by_cases hg1 : (pool.withEnv env).Grants 1
      · obtain ⟨hol, hszl, hlose⟩ := hlost hg1
        refine iff_of_false (hst.not_honest h hol hszl hlose hfail) ?_
        rintro (hlook | ⟨-, hall⟩)
        · exact hsome (fun e => hn (e ▸ rfl)) (Option.some.inj hlook)
        · refine hn (grants_mono ?_ (hall hg1))
          rw [hN]
          split <;> omega
      · refine iff_of_true ⟨false, S, root, hfail, fun k => ?_⟩ (.inr ⟨hpins, fun h1 => absurd h1 hg1⟩)
        rw [hst.search hG.live h.live.serves hdepth, hsame hg1, h.search,
          show search r.depth r.tree k = _ from h.wf.search k]
        simp
  · obtain ⟨q, hq⟩ := btreeInsertRec_blind hc hG.live rfl hG.repr hG.sub hG.nodup hG.wf.ordered hbot
      htop hdepth hpins
    have hrun : btreeInsert (pool.withEnv env) root key value =
        some (true, (pool.withEnv env).markDirty q, root) := by
      have hfuel : (pool.withEnv env).fuel = pool.fuel := rfl
      have hq : btreeInsertRec key value pool.fuel (pool.withEnv env) root =
        some ⟨(pool.withEnv env).markDirty q, true, [], -1⟩ := hq
      rw [btreeInsert, hfuel, hq]
      rfl
    rw [h.honest_blind hrun, h.search]
    exact ⟨.inl, fun hor => hor.resolve_right fun hd => hpins hd.1⟩

end

/-- Frames on which no page can be allocated. -/
def noNewPages : PoolEnv := ⟨fun _ => false, fun _ => true, fun _ => true⟩

theorem btreeInsert_honest_first : ∃ pool root,
    EmptyRoot pool root ∧ InsertHonest pool noNewPages root [7] [1, 2] := by
  obtain ⟨pool, root, h, hs, hn, he⟩ := exists_emptyRoot
  have hids : pool.HasIds := by
    simp only [Pool.HasIds, pageIdLimit, pageIdBias]
    omega
  have hps : PageFits pool.pageSize 255 := hs ▸ ⟨by decide, by decide, by decide⟩
  obtain ⟨used, ht⟩ := h.treeAt hps
  have hroot : 0 ≤ root := (ht.live.owns.range root (ht.sub root ht.repr.mem)).1
  have hload : loadNode (pool.withEnv noNewPages) root = emptyNode := by
    have hpin : (pool.withEnv noNewPages).tryPin root = some (pool.pages root) := by
      rw [tryPin, if_neg (by omega)]
      rfl
    rw [← h.node, loadNode_of_pages he hroot, loadNode, hpin]
    rfl
  have hdescent : descentPins [7] pool.fuel (pool.withEnv noNewPages) root = true := by
    rw [Pool.fuel, descentPins, hload]
    rfl
  exact ⟨pool, root, h, (btreeInsert_honest ht (fun _ _ => rfl) (by decide) (by decide) hids).mpr
    (.inr ⟨hdescent, fun _ => rfl⟩)⟩

/-! ## A root split without a page for the new root -/

/-- A leaf with the keys 1 and 2, on pages of 1024 bytes. -/
def twoKeys : Option (Bool × Pool × Int) :=
  (Pool.create .empty 1024 ⟨fun _ => false, fun _ => false, fun _ => true⟩).bind fun pool =>
    let (root, pool) := allocateLeaf pool
    (btreeInsert pool root [1] [8]).bind fun r => btreeInsert r.2.1 r.2.2 [2] [9]

/-- The frames on which the third page cannot be allocated. -/
def noThirdPage : PoolEnv := ⟨fun _ => false, fun pid => decide (pid = 2), fun _ => true⟩

/-- The insertion of a third key splits the root leaf and reports failure, and the old key 2 is
gone. -/
theorem btreeInsert_loses_old : ∃ pool pool',
    twoKeys = some (true, pool, 0) ∧ noThirdPage.Caches ∧
      leafFindSearch pool 0 [2] = some (some [9]) ∧
      btreeInsert (pool.withEnv noThirdPage) 0 [3] [7] = some (false, pool', 0) ∧
      leafFindSearch (pool'.withEnv pool.env) 0 [2] = some none ∧
      ¬ InsertHonest pool noThirdPage 0 [3] [7] := by
  have h : (twoKeys.bind fun r =>
      (btreeInsert (r.2.1.withEnv noThirdPage) 0 [3] [7]).bind fun s =>
        some (r.1, r.2.2, s.1, s.2.2, leafFindSearch r.2.1 0 [2] == some (some [9]),
          leafFindSearch (s.2.1.withEnv r.2.1.env) 0 [2] == some none)) =
      some (true, 0, false, 0, true, true) := by
    decide +kernel
  obtain ⟨⟨ok, pool, root⟩, hpool, h⟩ := Option.bind_eq_some_iff.mp h
  obtain ⟨⟨ok', pool', root'⟩, hrun, h⟩ := Option.bind_eq_some_iff.mp h
  simp only [Option.some.injEq, Prod.mk.injEq, beq_iff_eq] at h
  obtain ⟨rfl, rfl, rfl, rfl, hold, hlost⟩ := h
  have hneg : ¬ InsertHonest pool noThirdPage 0 [3] [7] := by
    rintro ⟨ok, pool₁, root₁, hrun', hall⟩
    rw [hrun] at hrun'
    cases hrun'
    have hk := hall [2]
    rw [hlost, hold] at hk
    simp at hk
  exact ⟨pool, pool', hpool, fun _ _ => rfl, hold, hrun, hlost, hneg⟩

end Garry
