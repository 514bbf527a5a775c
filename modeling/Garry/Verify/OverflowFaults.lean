import Garry.Verify.RolledBack

/-!
# Overflow chains that cannot be read or freed

A read of a long value fails when one of its overflow pages cannot be pinned; the search for a
visible version then goes on to the older ones. The release of an overflow chain stops at the first
page that is in no frame.
-/

namespace Garry

open ByteStore

/-! ## Values that cannot be read -/

/-- The versions that a snapshot sees. -/
def visibleVersions (snapTxid : Int) (active : List Int) (vs : List VersionRecord) :
    List VersionRecord :=
  vs.filter (versionVisible snapTxid active)

/-- The versions before the first tombstone. -/
def liveVersions (vs : List VersionRecord) : List VersionRecord :=
  vs.takeWhile fun v => !v.isTombstone

section
variable {buf : PageBuffer} {active : List Int} {vs : List VersionRecord} {v : VersionRecord}

theorem liveVersions_cons (hv : v.isTombstone = false) :
    liveVersions (v :: vs) = v :: liveVersions vs :=
  List.takeWhile_cons_of_pos (by simp [hv])

/-- A read takes the first value that it can read, up to the first tombstone. -/
theorem readVersions_eq_findSome (pool : Pool) (vs : List VersionRecord) :
    readVersions pool snap active vs =
      (liveVersions (visibleVersions snap active vs)).findSome? (versionValue pool) := by
  induction vs with
  | nil => rfl
  | cons v vs ih =>
    rw [readVersions, visibleVersions, List.filter_cons]
    split
    · cases ht : v.isTombstone with
      | true => simp [liveVersions, ht]
      | false =>
        rw [liveVersions_cons ht, List.findSome?_cons, if_neg Bool.false_ne_true, ih]
        cases versionValue pool v <;> rfl
    · exact ih

/-- When the newest visible version is an overflow value that cannot be read, there is no value
just when none of the older ones can be read, up to the first tombstone. -/
theorem chainPageFindVisible_unread
    (hvs : visibleVersions snap active (pageVersions buf ps (pageRecordCount buf).toNat) = v :: vs)
    (ht : v.isTombstone = false) (ho : v.isOverflow = true)
    (hr : overflowRead pool (readInt32 v.rest 0) v.valueLen.toNat = none) :
    chainPageFindVisible pool buf ps snap active = none ↔
      ∀ w ∈ liveVersions vs, versionValue pool w = none := by
  have hv : versionValue pool v = none := by
    rw [versionValue, if_pos ho, hr, ite_self]
  rw [chainPageFindVisible, findVisibleLoop_eq, readVersions_eq_findSome, hvs,
    liveVersions_cons ht, List.findSome?_cons, hv]
  exact List.findSome?_eq_none_iff

/-- A pool of 512-byte pages; the pages of `lost` are in no frame and no frame is free for them. -/
def smallPool (lost : List Int) : Pool where
  pageSize := 512
  pages _ _ := 0
  dirty := []
  file := .empty
  nextPage := 3
  freeListHead := -1
  env := ⟨fun pid => decide (pid ∈ lost), fun _ => false, fun pid => decide (pid ∉ lost)⟩

/-- A chain page with a value of transaction 1. -/
def shortVersion : PageBuffer :=
  let buf := chainPageInit (fun _ => 0) 512
  (chainPageAppend buf 512 1 [7]).getD buf

/-- A chain page with a tombstone of transaction 1. -/
def deletedVersion : PageBuffer :=
  let buf := chainPageInit (fun _ => 0) 512
  (chainPageAppendTombstone buf 1).getD buf

/-- A value of transaction 2 in overflow page 3 goes on the page. -/
def addLong (buf : PageBuffer) : PageBuffer := (chainPageAppendOverflow buf 2 470 3).getD buf

/-- The versions of a page that transaction 3 sees. -/
def seenBy3 (buf : PageBuffer) : List VersionRecord :=
  visibleVersions 3 [] (pageVersions buf 512 (pageRecordCount buf).toNat)

/-- A value that cannot be read, over a tombstone. -/
theorem chainPageFindVisible_unread_deleted :
    chainPageFindVisible (smallPool [3]) (addLong deletedVersion) 512 3 [] = none := by
  have hne : seenBy3 (addLong deletedVersion) ≠ [] := by decide +kernel
  refine (chainPageFindVisible_unread (List.cons_head_tail hne).symm ?_ ?_ ?_).mpr ?_
  · decide +kernel +revert
  · decide +kernel +revert
  · decide +kernel +revert
  · decide +kernel +revert

/-- The same over a value. -/
theorem chainPageFindVisible_older : ∃ v vs, seenBy3 (addLong shortVersion) = v :: vs ∧
    v.isTombstone = false ∧ v.isOverflow = true ∧
      overflowRead (smallPool [3]) (readInt32 v.rest 0) v.valueLen.toNat = none ∧
        chainPageFindVisible (smallPool [3]) (addLong shortVersion) 512 3 [] = some [7] := by
  have hne : seenBy3 (addLong shortVersion) ≠ [] := by decide +kernel
  refine ⟨_, _, (List.cons_head_tail hne).symm, ?_, ?_, ?_, ?_⟩
  · decide +kernel +revert
  · decide +kernel +revert
  · decide +kernel +revert
  · decide +kernel +revert

end

/-! ## Chains that are freed -/

/-- A page in a frame can be pinned. -/
def PoolEnv.Caches (env : PoolEnv) : Prop := ∀ p, env.resident p = true → env.pinFails p = false

/-- The pages of `l` and the free list `fl` are different pages of the data file. -/
structure Pool.Apart (pool : Pool) (l fl : List Int) : Prop where
  caches : pool.env.Caches
  free : Pool.FreeList pool.pages pool.freeListHead fl
  nodup : (l ++ fl).Nodup
  range : ∀ p ∈ l ++ fl, 0 ≤ p ∧ p < pool.nextPage
  next : pool.nextPage ≤ 2147483648

/-- The pages of `l`, each once, have come on top of the free list `fl`. -/
structure Pool.Released (pool pool' : Pool) (l fl : List Int) : Prop where
  free : Pool.FreeList pool'.pages pool'.freeListHead (l.reverse ++ fl)
  frame : ∀ q, q ∉ l → pool'.pages q = pool.pages q
  env : pool'.env = pool.env
  nextPage : pool'.nextPage = pool.nextPage

/-- The pages of `l`, and no others, have been given back to the free list `fl`, each once. -/
def Pool.GivenBack (pool pool' : Pool) (l fl : List Int) : Prop :=
  (∃ fl', Pool.FreeList pool'.pages pool'.freeListHead fl' ∧ fl'.Perm (l ++ fl)) ∧
    ∀ q, q ∉ l → pool'.pages q = pool.pages q

/-- The pages up to the first that is in no frame. -/
def Pool.cachedPages (pool : Pool) (l : List Int) : List Int :=
  l.takeWhile fun p => pool.env.resident p

namespace Pool
variable {l l' fl : List Int} {pool pool' : Pool}

/-- The links determine the free list. -/
theorem FreeList.unique {pages : Int → PageBuffer} (h : FreeList pages head l) (h' : FreeList pages head l') :
    l = l' := by
  induction l generalizing head l' with
  | nil =>
    have hhead : head = -1 := h
    cases l' with
    | nil => rfl
    | cons p l' => have := h'.1; have := h'.2.1; omega
  | cons p l ih =>
    obtain ⟨h1, h2, h3⟩ := h
    cases l' with
    | nil => have hhead : head = -1 := h'; omega
    | cons q l' =>
      obtain ⟨h1', -, h3'⟩ := h'
      obtain rfl : p = q := h1.symm.trans h1'
      rw [ih h3 h3']

theorem Apart.fits (h : pool.Apart l fl) : Fits32 pool.freeListHead := by
  have hnext := h.next
  cases fl with
  | nil =>
    have hhead : pool.freeListHead = -1 := h.free
    rw [hhead]
    decide
  | cons p fl =>
    have hp := h.range p (by simp)
    rw [h.free.1]
    constructor
    · omega
    · omega

theorem Released.refl (h : Pool.FreeList pool.pages pool.freeListHead fl) :
    Released pool pool [] fl := ⟨h, fun _ _ => rfl, rfl, rfl⟩

theorem Released.trans {pool'' : Pool} (h : Released pool pool' l fl)
    (h' : Released pool' pool'' l' (l.reverse ++ fl)) : Released pool pool'' (l ++ l') fl where
  free := by
    have := h'.free
    rwa [← List.append_assoc, ← List.reverse_append] at this
  frame q hq := by
    rw [List.mem_append, not_or] at hq
    exact (h'.frame q hq.2).trans (h.frame q hq.1)
  env := h'.env.trans h.env
  nextPage := h'.nextPage.trans h.nextPage

theorem Apart.of_empty (hhead : pool.freeListHead = -1) (hnext : pool.nextPage ≤ 2147483648)
    (hnd : l.Nodup) (hl : ∀ p ∈ l, 0 ≤ p ∧ p < pool.nextPage) {env : PoolEnv} (henv : env.Caches) :
    (pool.withEnv env).Apart l [] where
  caches := henv
  free := hhead
  nodup := by rwa [List.append_nil]
  range := by rwa [List.append_nil]
  next := hnext

/-- The pages that have not been released yet. -/
theorem Apart.released (h : pool.Apart (l ++ l') fl) (hr : Released pool pool' l fl) :
    pool'.Apart l' (l.reverse ++ fl) := by
  have hperm : (l' ++ (l.reverse ++ fl)).Perm (l ++ l' ++ fl) := by
    rw [← List.append_assoc]
    apply List.Perm.append_right
    exact (List.perm_append_comm.trans ((List.reverse_perm l).append_right l'))
  exact {
    caches := hr.env ▸ h.caches
    free := hr.free
    nodup := hperm.nodup_iff.mpr h.nodup
    range := fun p hm => hr.nextPage ▸ h.range p (hperm.mem_iff.mp hm)
    next := hr.nextPage ▸ h.next }

theorem Apart.sublist (h : pool.Apart l fl) (hs : l'.Sublist l) : pool.Apart l' fl where
  caches := h.caches
  free := h.free
  nodup := h.nodup.sublist (hs.append_right fl)
  range p hm := h.range p ((hs.append_right fl).subset hm)
  next := h.next

theorem Apart.freePage (h : pool.Apart (p :: l) fl) (hres : pool.env.resident p = true) :
    Released pool (pool.freePage p) [p] fl := by
  have hp := h.range p (by simp)
  have hfl : p ∉ fl := fun hm => (List.nodup_cons.mp h.nodup).1 (List.mem_append_right l hm)
  refine ⟨?_, fun q hq => freePage_pages_of_ne (by simpa using hq), freePage_env,
    freePage_nextPage⟩
  rw [Pool.freePage, if_neg (not_lt_of_ge hp.1), h.caches p hres]
  refine ⟨rfl, hp.1, ?_⟩
  simp only [markDirty_pages, Bool.false_eq_true, if_false, setPage_pages_self]
  rw [readInt32_writeInt32 _ _ h.fits]
  exact h.free.congr fun q hq => setPage_pages_of_ne fun e => hfl (e ▸ hq)

end Pool

section
variable {l fl : List Int} {value : Bytes} {pool pool' : Pool}

/-- The loop frees the pages up to the first that is in no frame. -/
theorem overflowFreeLoop_released (hap : pool.Apart l fl)
    (h : OverflowAt ps pool.pages l head value) (hf : l.length < fuel) :
    ∃ pool', overflowFreeLoop fuel pool head = some pool' ∧
      pool.Released pool' (pool.cachedPages l) fl := by
  induction l generalizing fuel pool fl head value with
  | nil =>
    obtain ⟨fuel, rfl⟩ : ∃ n, fuel = n + 1 := ⟨fuel - 1, by omega⟩
    rw [overflowFreeLoop, h.1]
    exact ⟨pool, rfl, .refl hap.free⟩
  | cons p l ih =>
    obtain ⟨fuel, rfl⟩ : ∃ n, fuel = n + 1 := ⟨fuel - 1, by omega⟩
    obtain ⟨rfl, h0, -, -, hrest⟩ := h
    have hpl : head ∉ l := fun hm => (List.nodup_cons.mp hap.nodup).1 (List.mem_append_left fl hm)
    rw [overflowFreeLoop, if_neg (not_lt_of_ge h0), Pool.tryPin, if_neg (not_lt_of_ge h0)]
    cases hres : pool.env.resident head with
    | false =>
      refine ⟨pool, rfl, ?_⟩
      rw [Pool.cachedPages, List.takeWhile_cons_of_neg (by simp [hres])]
      exact .refl hap.free
    | true =>
      have hfree := hap.freePage hres
      obtain ⟨pool', heq, hrel⟩ := ih (Pool.Apart.released hap hfree)
        (hrest.congr fun q hq => hfree.frame q fun hm => hpl (List.mem_singleton.mp hm ▸ hq))
        (by simpa using hf)
      refine ⟨pool', heq, ?_⟩
      rw [Pool.cachedPages, List.takeWhile_cons_of_pos hres]
      rw [Pool.cachedPages, hfree.env] at hrel
      exact hfree.trans hrel

/-- `garry_overflow_free`. -/
theorem overflowFree_released (hap : pool.Apart l fl)
    (h : OverflowAt ps pool.pages l head value) :
    ∃ pool', overflowFree pool head = some pool' ∧
      pool.Released pool' (pool.cachedPages l) fl := by
  refine overflowFreeLoop_released hap h ?_
  have hlen := length_le_of_nodup (List.nodup_append.mp hap.nodup).1 fun q hq =>
    hap.range q (List.mem_append_left fl hq)
  omega

/-- The pages of the versions' chains that are freed. -/
def cachedOverflow (pool : Pool) (vs : List StoredVersion) : List Int :=
  vs.flatMap fun v => pool.cachedPages v.pages

theorem cachedPages_sublist (pool : Pool) (l : List Int) : (pool.cachedPages l).Sublist l :=
  List.takeWhile_sublist _

theorem pruneFree_released {recs : List Bytes} {vs : List StoredVersion}
    (hap : pool.Apart (overflowPages vs) fl) (h : List.Forall₂ (VersionAt ps pages) vs recs)
    (hp : ∀ p ∈ overflowPages vs, pool.pages p = pages p) :
    ∃ pool', pruneFree pool recs = some pool' ∧
      pool.Released pool' (cachedOverflow pool vs) fl := by
  have h0 : Fits32 0 := by decide
  induction h generalizing pool fl with
  | nil => exact ⟨pool, rfl, .refl hap.free⟩
  | @cons v recData vs recs hv hvs ih =>
    have hcons : overflowPages (v :: vs) = v.pages ++ overflowPages vs := List.flatMap_cons
    have hcached : cachedOverflow pool (v :: vs) =
        pool.cachedPages v.pages ++ cachedOverflow pool vs := List.flatMap_cons
    rw [hcons] at hp hap
    rw [hcached]
    have hdis := (List.nodup_append.mp (List.nodup_append.mp hap.nodup).1).2.2
    have hrest : pool.Apart (overflowPages vs) fl := hap.sublist (List.sublist_append_right ..)
    cases hv with
    | tombstone txid ht =>
      have hr := readVersion_header ht h0 h0 1 0 []
      rw [List.append_nil] at hr
      rw [pruneFree_inline (by rw [hr]; rfl)]
      exact ih hrest hp
    | inline txid value ht hl hle =>
      have hr := readVersion_header ht h0 hl 0 0 value
      rw [pruneFree_inline (by rw [hr]; rfl)]
      exact ih hrest hp
    | overflow txid head value l ht hl hh hlt hstored =>
      obtain ⟨l', hhead⟩ := hstored.ne_nil fun e => by simp [e] at hlt
      have hpos : 0 ≤ head := (hap.range head (by simp [hhead])).1
      obtain ⟨pool₁, h₁, hr₁⟩ := overflowFree_released (hap.sublist (List.sublist_append_left ..))
        (hstored.congr fun p hm => hp p (List.mem_append_left _ hm))
      have hap₁ : pool.Apart (pool.cachedPages l ++ overflowPages vs) fl :=
        hap.sublist ((cachedPages_sublist pool l).append_right _)
      obtain ⟨pool₂, h₂, hr₂⟩ := ih (hap₁.released hr₁) fun p hm =>
        (hr₁.frame p fun hl => hdis p ((cachedPages_sublist pool l).subset hl) p hm rfl).trans
          (hp p (List.mem_append_right _ hm))
      rw [cachedOverflow, cachedOverflow] at *
      simp only [Pool.cachedPages, hr₁.env] at hr₂
      rw [pruneFree_overflow ht hl hh hpos, h₁, Option.bind_some]
      exact ⟨pool₂, h₂, hr₁.trans hr₂⟩

/-- What is released is all of the pages just when all of them are in frames. -/
theorem Pool.Released.givenBack_iff {l' : List Int} (hap : pool.Apart l fl)
    (hr : pool.Released pool' l' fl) (hsub : l' ⊆ l)
    (hall : (∀ p ∈ l, pool.env.resident p = true) → l' = l)
    (hres : ∀ p ∈ l', pool.env.resident p = true) :
    pool.GivenBack pool' l fl ↔ ∀ p ∈ l, pool.env.resident p = true := by
  constructor
  · rintro ⟨⟨fl', hfl', hperm⟩, -⟩ p hp
    obtain rfl := hr.free.unique hfl'
    have hm : p ∈ l'.reverse ++ fl := hperm.mem_iff.mpr (List.mem_append_left fl hp)
    rcases List.mem_append.mp hm with hm | hm
    · exact hres p (List.mem_reverse.mp hm)
    · exact absurd rfl ((List.nodup_append.mp hap.nodup).2.2 p hp p hm)
  · intro h
    obtain rfl := hall h
    exact ⟨⟨_, hr.free, (List.reverse_perm _).append_right fl⟩, hr.frame⟩

theorem cachedPages_eq (h : ∀ p ∈ l, pool.env.resident p = true) : pool.cachedPages l = l :=
  List.takeWhile_eq_self_iff.mpr h

theorem resident_of_cached (hp : p ∈ pool.cachedPages l) : pool.env.resident p = true :=
  List.mem_takeWhile_imp hp

/-- The release of an overflow chain gives back all of its pages just when all of them are in
frames; a pruning gives back all overflow pages of the versions that it drops just when all of them
are. -/
theorem overflowFree_givenBack (pool : Pool) :
    (∀ (l fl : List Int) (head : Int) (value : Bytes), pool.Apart l fl →
      OverflowAt ps pool.pages l head value →
        ((∃ pool', overflowFree pool head = some pool' ∧ pool.GivenBack pool' l fl) ↔
          ∀ p ∈ l, pool.env.resident p = true)) ∧
    (∀ (vs : List StoredVersion) (fl active : List Int) (cid : Int),
      pool.Apart (overflowPages vs) fl → ChainAt ps pool.pages cid vs → cid ∉ overflowPages vs →
        ((∃ pool' buf, chainPagePrune pool (pool.pages cid) ps active = some (pool', buf) ∧
            pool.GivenBack pool' (overflowPages (droppedVersions active vs)) fl) ↔
          ∀ p ∈ overflowPages (droppedVersions active vs), pool.env.resident p = true)) := by
  refine ⟨fun l fl head value hap h => ?_, fun vs fl active cid hap h hcid => ?_⟩
  · obtain ⟨pool', heq, hr⟩ := overflowFree_released hap h
    have hiff := hr.givenBack_iff hap (cachedPages_sublist pool l).subset cachedPages_eq
      fun p => resident_of_cached
    rw [← hiff, heq]
    constructor
    · rintro ⟨pool'', he, hg⟩
      cases he
      exact hg
    · intro hg
      exact ⟨pool', rfl, hg⟩
  · obtain ⟨recs, buf, hdrop, heq, -⟩ := h.prune_eq hcid active
    have hapd := hap.sublist (overflowPages_dropped_sublist active vs)
    obtain ⟨pool', hfree, hr⟩ := pruneFree_released hapd hdrop fun _ _ => rfl
    have hiff := hr.givenBack_iff hapd ?_ ?_ ?_
    · rw [← hiff, heq, hfree, Option.map_some]
      constructor
      · rintro ⟨pool'', buf', he, hg⟩
        cases he
        exact hg
      · intro hg
        exact ⟨pool', buf, rfl, hg⟩
    · intro p hp
      obtain ⟨v, hv, hpv⟩ := List.mem_flatMap.mp hp
      exact mem_overflowPages.mpr ⟨v, hv, (cachedPages_sublist pool _).subset hpv⟩
    · intro hall
      refine List.flatMap_congr fun v hv => ?_
      exact cachedPages_eq fun p hp => hall p (mem_overflowPages.mpr ⟨v, hv, hp⟩)
    · intro p hp
      obtain ⟨v, -, hpv⟩ := List.mem_flatMap.mp hp
      exact resident_of_cached hpv

/-- A value of two overflow pages. -/
def longValue : Bytes := List.replicate 477 5

/-- Pages 3 and 4 hold the long value. -/
@[irreducible] def longPool : Pool := (overflowWrite (smallPool []) longValue).2

theorem longPool_stored : OverflowAt 512 longPool.pages [3, 4] 3 longValue := by
  refine ⟨rfl, by decide, by decide, ?_, ?_, by decide, by decide, ?_, ?_, ?_⟩
  · decide +kernel
  · decide +kernel
  · decide +kernel
  · decide +kernel
  · decide +kernel

/-- The record of the long value, which transaction 1 has written. -/
def longRecord : Bytes := versionHeader 1 0 longValue.length 0 1 ++ word32 3

/-- A chain page without records. -/
def emptyChain : PageBuffer := chainPageInit (fun _ => 0) 512

/-- The chain page of the long value, which transaction 2 has deleted. -/
def deletedChain : PageBuffer :=
  let buf := (pageInsert emptyChain longRecord).elim emptyChain Prod.snd
  (pageInsert buf (versionHeader 2 0 0 1 0)).elim buf Prod.snd

/-- The versions on the page. -/
def deletedVersions : List StoredVersion := [⟨⟨1, some longValue⟩, [3, 4]⟩, ⟨⟨2, none⟩, []⟩]

/-- The pool with the chain page in page 2; the pages of `lost` are in no frame. -/
def deletedPool (lost : List Int) : Pool :=
  (longPool.setPage 2 deletedChain).withEnv (smallPool lost).env

theorem deletedPool_pages (lost : List Int) :
    (deletedPool lost).pages = Function.update longPool.pages 2 deletedChain := rfl

theorem deletedPool_stored (lost : List Int) :
    OverflowAt 512 (deletedPool lost).pages [3, 4] 3 longValue := by
  rw [deletedPool_pages]
  refine longPool_stored.congr fun p hp => Function.update_of_ne ?_ _ _
  revert p
  decide

theorem deletedPool_apart (lost : List Int) : (deletedPool lost).Apart [3, 4] [] := by
  have hhead : longPool.freeListHead = -1 := by decide +kernel
  have hnext : longPool.nextPage = 5 := by decide +kernel
  apply Pool.Apart.of_empty
  · exact hhead
  · exact hnext.le.trans (by decide)
  · decide
  · rw [Pool.setPage_nextPage, hnext]
    decide
  · intro p h
    simpa [smallPool] using h

theorem deletedPool_chain (lost : List Int) :
    ChainAt 512 (deletedPool lost).pages 2 deletedVersions := by
  have hlen : longValue.length = 477 := List.length_replicate
  have h0 : ChainAt 512 (Function.update longPool.pages 2 emptyChain) 2 [] :=
    chainAt_init _ (by decide) (by decide) (Function.update_self ..)
  have hlong : VersionAt 512 (Function.update longPool.pages 2 emptyChain)
      ⟨⟨1, some longValue⟩, [3, 4]⟩ longRecord := by
    refine .overflow 1 3 longValue [3, 4] (by decide) ?_ (by decide) ?_ ?_
    · rw [hlen]
      decide
    · rw [hlen]
      decide
    refine longPool_stored.congr fun p hp => Function.update_of_ne ?_ _ _
    revert p
    decide
  have hi : (pageInsert emptyChain longRecord).isSome = true := by decide +kernel
  obtain ⟨⟨i, buf⟩, hi⟩ := Option.isSome_iff_exists.mp hi
  have h1 := h0.insert hlong (by rw [Function.update_self]; exact hi) (by decide)
  have hbuf : buf = (pageInsert emptyChain longRecord).elim emptyChain Prod.snd := by rw [hi]; rfl
  have hi' : (pageInsert buf (versionHeader 2 0 0 1 0)).isSome = true := by
    rw [hbuf]
    decide +kernel
  obtain ⟨⟨i', buf'⟩, hi'⟩ := Option.isSome_iff_exists.mp hi'
  have h2 := h1.insert (.tombstone 2 (by decide)) (by rw [Function.update_self]; exact hi')
    (by decide)
  rw [Function.update_idem, Function.update_idem] at h2
  have hbuf' : buf' = deletedChain := by
    simp only [deletedChain, ← hbuf, hi', Option.elim_some]
  rwa [deletedPool_pages, ← hbuf']

/-- Every page of the chain is in a frame. -/
theorem overflowFree_givenBack_cached :
    (∃ pool', overflowFree (deletedPool []) 3 = some pool' ∧
      (deletedPool []).GivenBack pool' [3, 4] []) ∧
    ∃ pool' buf, chainPagePrune (deletedPool []) ((deletedPool []).pages 2) 512 [] =
        some (pool', buf) ∧
      (deletedPool []).GivenBack pool' (overflowPages (droppedVersions [] deletedVersions)) [] := by
  constructor
  · refine ((overflowFree_givenBack _).1 [3, 4] [] 3 longValue (deletedPool_apart [])
      (deletedPool_stored [])).mpr fun p hp => rfl
  · refine ((overflowFree_givenBack _).2 deletedVersions [] [] 2 (deletedPool_apart [])
      (deletedPool_chain []) (by decide)).mpr fun p hp => rfl

/-- Page 4 is in no frame. -/
theorem overflowFree_lost :
    OverflowAt 512 (deletedPool [4]).pages [3, 4] 3 longValue ∧ (deletedPool [4]).Apart [3, 4] [] ∧
      ¬ ∃ pool', overflowFree (deletedPool [4]) 3 = some pool' ∧
        (deletedPool [4]).GivenBack pool' [3, 4] [] := by
  have hap := deletedPool_apart [4]
  have hstored := deletedPool_stored [4]
  refine ⟨hstored, hap, ?_⟩
  rintro ⟨pool', heq, ⟨fl', hfl', hperm⟩, -⟩
  obtain ⟨pool'', heq', hr⟩ := overflowFree_released hap hstored
  obtain rfl : pool'' = pool' := by
    rw [heq] at heq'
    exact (Option.some.inj heq').symm
  have hlen := hperm.length_eq
  rw [← hr.free.unique hfl'] at hlen
  exact absurd hlen (by decide)

end

end Garry
