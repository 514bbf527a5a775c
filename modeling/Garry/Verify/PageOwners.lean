import Garry.Verify.LastKey
import Garry.Verify.OpenTransactions

/-!
# Who owns a page

The header, the pages of the tree, the chain page and the overflow pages of each key and the free list
do not meet, whatever has happened to the database.
-/

namespace Garry

open ByteStore

namespace Engine

variable {lz4 : Lz4} {ps : Nat} {eng : Engine} {L : Layout} {key key' : Bytes}

/-- The chain page of a key and the overflow pages of the values on it. -/
def keyPages (eng : Engine) (key : Bytes) : List Int :=
  (eng.keyChain key).elim [] fun cid => cid :: chainOverflow eng.pool cid

/-- The page is used for something. -/
def UsedPage (eng : Engine) (p : Int) : Prop :=
  p = headerPage ∨ TreePage eng.pool eng.btreeRoot p ∨ ∃ key, p ∈ eng.keyPages key

theorem Inv.chainOverflow_eq (h : Inv ps eng L) (hc : L.own cid = some (.chain key)) :
    chainOverflow eng.pool cid = overflowPages (L.versions key) := by
  have hchain := (h.pages.chain hc).2
  have hroom := h.pages.chunk
  rw [← h.pages.pageSize] at hchain hroom
  exact hchain.chainOverflow hroom

/-- The owner of a page of a key. -/
theorem Inv.own_of_mem_keyPages (h : Inv ps eng L) (hp : p ∈ eng.keyPages key) :
    L.own p = some (.chain key) ∨ L.own p = some (.overflow key) := by
  rw [keyPages] at hp
  cases hc : eng.keyChain key with
  | none =>
    rw [hc] at hp
    cases hp
  | some cid =>
    have hown := h.own_of_keyChain hc
    rw [hc, Option.elim_some, h.chainOverflow_eq hown] at hp
    rcases List.mem_cons.mp hp with rfl | hp
    · exact .inl hown
    · exact .inr (h.pages.overflow p hp)

theorem Inv.nodup_keyPages (h : Inv ps eng L) (key : Bytes) : (eng.keyPages key).Nodup := by
  rw [keyPages]
  cases hc : eng.keyChain key with
  | none => exact List.nodup_nil
  | some cid =>
    have hown := h.own_of_keyChain hc
    rw [Option.elim_some, h.chainOverflow_eq hown]
    refine List.nodup_cons.mpr ⟨fun hcid => ?_, h.pages.nodup key⟩
    have hover := h.pages.overflow cid hcid
    rw [hown] at hover
    cases hover

theorem Inv.own_of_treePage (h : Inv ps eng L) (hp : TreePage eng.pool eng.btreeRoot p) :
    L.own p = some .tree := by
  have htree := h.pages.tree.readable
  exact h.pages.treeOwn p
    (htree.repr.treePage_mem htree.serves (fun q hq => (htree.range q hq).1) hp)

theorem Inv.mem_used (h : Inv ps eng L) (hp : eng.UsedPage p) : p ∈ L.used := by
  rcases hp with rfl | hp | ⟨key, hp⟩
  · exact Layout.mem_used h.pages.header
  · exact Layout.mem_used (h.own_of_treePage hp)
  · rcases h.own_of_mem_keyPages hp with hown | hown
    · exact Layout.mem_used hown
    · exact Layout.mem_used hown

/-- Two keys have no page in common. -/
theorem Inv.disjoint_keyPages (h : Inv ps eng L) (hne : key ≠ key') :
    (eng.keyPages key).Disjoint (eng.keyPages key') := by
  intro p hp hp'
  rcases h.own_of_mem_keyPages hp with hown | hown
  · rcases h.own_of_mem_keyPages hp' with hown' | hown'
    · rw [hown] at hown'
      cases hown'
      exact hne rfl
    · rw [hown] at hown'
      cases hown'
  · rcases h.own_of_mem_keyPages hp' with hown' | hown'
    · rw [hown] at hown'
      cases hown'
    · rw [hown] at hown'
      cases hown'
      exact hne rfl

end Engine

open Engine in
/-- For every run: the header, the tree, the pages of each key and the free list have no page in
common, the pages of a key are all different, and the next page that is handed out is none of them. -/
theorem pageOwners_disjoint {ps : Nat} {lz4 : Lz4} {eng₀ eng : Engine} (h0 : Created ps eng₀)
    (hrun : eng₀.Run lz4 (Proper lz4) eng) :
    (∀ key, (eng.keyPages key).Nodup) ∧
    (∀ key key', key ≠ key' → (eng.keyPages key).Disjoint (eng.keyPages key')) ∧
    (∀ key, ∀ p ∈ eng.keyPages key, p ≠ headerPage ∧ ¬ TreePage eng.pool eng.btreeRoot p) ∧
    ¬ TreePage eng.pool eng.btreeRoot headerPage ∧
    (∀ p, eng.UsedPage p → 0 ≤ p ∧ p < eng.pool.nextPage ∧ p ≠ eng.pool.allocate.1) ∧
    ∃ free, Pool.FreeList eng.pool.pages eng.pool.freeListHead free ∧ free.Nodup ∧
      ∀ p ∈ free, ¬ eng.UsedPage p := by
  obtain ⟨L, hinv⟩ := hrun.inv (fun _ _ _ h => h) h0.inv.1
  refine ⟨hinv.nodup_keyPages, fun key key' => hinv.disjoint_keyPages, fun key p hp => ⟨?_, ?_⟩, ?_,
    fun p hp => ?_, ?_⟩
  · rintro rfl
    have hheader := hinv.pages.header
    rcases hinv.own_of_mem_keyPages hp with hown | hown
    · rw [hheader] at hown
      cases hown
    · rw [hheader] at hown
      cases hown
  · intro htree
    have hown' := hinv.own_of_treePage htree
    rcases hinv.own_of_mem_keyPages hp with hown | hown
    · rw [hown'] at hown
      cases hown
    · rw [hown'] at hown
      cases hown
  · intro htree
    have hown := hinv.own_of_treePage htree
    rw [hinv.pages.header] at hown
    cases hown
  · have hused := hinv.mem_used hp
    have hrange := hinv.pages.owns.range p hused
    obtain ⟨pid, pool', ha, -, hpid, -⟩ := hinv.pages.owns.allocate
    refine ⟨hrange.1, hrange.2, ?_⟩
    rw [ha]
    rintro rfl
    exact hpid hused
  · obtain ⟨free, hfree, hnodup, hout⟩ := hinv.pages.owns.free
    exact ⟨free, hfree, hnodup, fun p hp hu => (hout p hp).1 (hinv.mem_used hu)⟩

open Engine in
/-- The chain pages of two keys. -/
theorem pageOwners_disjoint_two : ∃ eng₀ eng : Engine, Created 1024 eng₀ ∧
    eng₀.Run .stored (Proper .stored) eng ∧ 2 ∈ eng.keyPages [7] ∧ 3 ∈ eng.keyPages [8] ∧
    eng.pool.allocate.1 ≠ 2 ∧ eng.pool.allocate.1 ≠ 3 := by
  have hcalls : (newCalls [.begin, .set 1 [7] [5], .set 1 [8] [6]]).map (fun eng =>
      (decide (2 ∈ eng.keyPages [7]), decide (3 ∈ eng.keyPages [8]))) = some (true, true) := by
    decide +kernel
  obtain ⟨eng, heng, hc⟩ := Option.map_eq_some_iff.mp hcalls
  obtain ⟨h7, h8⟩ := Prod.mk.inj hc
  replace h7 := of_decide_eq_true h7
  replace h8 := of_decide_eq_true h8
  obtain ⟨eng₀, h0, -, hrun⟩ := run_of_newCalls heng
  obtain ⟨-, -, -, -, hused, -⟩ := pageOwners_disjoint h0 hrun
  exact ⟨eng₀, eng, h0, hrun, h7, h8, (hused 2 (.inr (.inr ⟨_, h7⟩))).2.2.symm,
    (hused 3 (.inr (.inr ⟨_, h8⟩))).2.2.symm⟩

end Garry
