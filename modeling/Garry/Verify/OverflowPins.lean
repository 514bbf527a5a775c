import Garry.Verify.SteadyPool
import Garry.Verify.VersionStore
import Garry.Model.OverflowSlots

/-!
# Overflow chains under cache pressure

A page of a chain is linked by pinning its predecessor once more, while the new page is pinned. With
one slot that can be evicted the new page takes the slot of its predecessor and the link is lost;
with two every link is stored.
-/

namespace Garry

open ByteStore

namespace BufferPool

variable {pool pool' : BufferPool}

namespace Ticks

theorem linkOverflow : Ticks 2 pool (pool.linkOverflow prevPid thisPid) := by
  rw [BufferPool.linkOverflow]
  split
  · exact refl
  · cases he : pool.pinPage prevPid with
    | none => exact refl
    | some r =>
      exact (pinPage he).trans (storePage.trans (markDirty.trans (releasePage.trans flushPage)))

theorem finishOverflow : Ticks 0 pool (pool.finishOverflow idx thisPid chunk) :=
  storePage.trans (markDirty.trans releasePage)

end Ticks

end BufferPool

namespace PoolSession

open BufferPool

variable {s s' : PoolSession} {busy : Set Nat} {full : Prop} {pool' : BufferPool}

/-! ## Links -/

namespace Steady

theorem link (h : Steady busy s) (hp : prev ∈ s.owned) (hno : ∀ i, (prev, i) ∉ s.pins)
    (hclock : Clock 0 s.pool) (he : s.pool.evictable.Nonempty) (this : Int) :
    Steady busy { s with
      pool := s.pool.linkOverflow prev this
      contents := Function.update s.contents prev
        (writeInt32 (s.contents prev) pageHeaderSize this) } := by
  obtain ⟨idx, pool₁, hpin⟩ := h.exists_pin hp hclock he
  have h1 := h.pin hp hpin
  have hm : (prev, idx) ∈ (prev, idx) :: s.pins := List.mem_cons_self ..
  have hb := h.pin_free hp hno hpin
  have h2 := h1.update hm (writeInt32 (pool₁.slot idx).page pageHeaderSize this)
  rw [Set.sdiff_singleton_eq_self hb] at h2
  have h3 := (h2.release hm hb).flush prev
  have hpool : s.pool.linkOverflow prev this =
      (((pool₁.storePage idx (writeInt32 (pool₁.slot idx).page pageHeaderSize this)).markDirty
        prev).releasePage prev).flushPage prev := by
    have h0 := (h.inv.range prev (.inl hp)).1
    rw [BufferPool.linkOverflow, if_neg (by omega), hpin]
  have hps : (s.pool.linkOverflow prev this).pageSize = pool₁.pageSize :=
    Ticks.linkOverflow.pageSize.trans (Ticks.pinPage hpin).pageSize.symm
  rw [List.erase_cons_head, ← hpool] at h3
  refine h3.agree fun p _ k hk => ?_
  by_cases hpp : p = prev
  · subst hpp
    simp only [Function.update_self]
    exact blit_congr (h1.page_eq hm (hps ▸ hk)).symm
  · simp only [Function.update_of_ne hpp]

theorem link_none (h : Steady busy s) (hno : ∀ i, (prev, i) ∉ s.pins) (he : s.pool.evictable = ∅)
    (this : Int) : s.pool.linkOverflow prev this = s.pool := by
  have hf : s.pool.findSlot prev = none := by
    apply findSlot_eq_none.mpr
    intro i hi
    have hm : i ∉ s.pins.map Prod.snd := by
      intro hm
      obtain ⟨⟨p, j⟩, hp, rfl⟩ := List.mem_map.mp hm
      have e1 := (holder_slot (h.inv.holder hp)).2
      have e2 := (holder_slot hi).2
      exact hno j (e2.symm.trans e1 ▸ hp)
    have hlen : i < s.pool.slots.length := by
      obtain ⟨slot, hs, -⟩ := hi
      exact (List.getElem?_eq_some_iff.mp hs).1
    have := (mem_evictable h.inv).mpr ⟨hlen, hm⟩
    rw [he] at this
    cases this
  have hpin : s.pool.pinPage prev = none := by
    rw [pinPage]
    split
    · rfl
    · rw [ensureLoaded, hf, no_candidate he]
      rfl
  rw [BufferPool.linkOverflow]
  split
  · rfl
  · rw [hpin]

/-- The chunk is stored in the page, which is released. -/
theorem finish (h : Steady (insert v busy) s) (hp : (pid, v) ∈ s.pins) (hb : v ∉ busy)
    (hc : s.contents pid = pageInit buf .overflow 0 ps) (chunk : Bytes) :
    Steady busy { s with
      pool := s.pool.finishOverflow v pid chunk
      pins := s.pins.erase (pid, v)
      contents := Function.update s.contents pid (overflowPage buf ps chunk) } := by
  have h1 := h.update hp (writeInt32 (copyBytesIn (s.pool.slot v).page
    (pageHeaderSize + overflowPtrSize) chunk) pageHeaderSize (-1))
  rw [Set.insert_sdiff_self_of_notMem hb] at h1
  have h2 : Steady busy { s with
      pool := s.pool.finishOverflow v pid chunk
      pins := s.pins.erase (pid, v)
      contents := Function.update s.contents pid (writeInt32 (copyBytesIn (s.pool.slot v).page
        (pageHeaderSize + overflowPtrSize) chunk) pageHeaderSize (-1)) } := h1.release hp hb
  refine h2.agree fun p _ k hk => ?_
  have hps : (s.pool.finishOverflow v pid chunk).pageSize = s.pool.pageSize :=
    Ticks.finishOverflow.pageSize
  by_cases hpp : p = pid
  · subst hpp
    simp only [Function.update_self]
    refine blit_congr (blit_congr ?_)
    rw [h.page_eq hp (hps ▸ hk), hc]
  · simp only [Function.update_of_ne hpp]

end Steady

/-! ## One page of the chain -/

/-- What the store of the link to page `this` makes of the contents: nothing when the slot of the new
page was the only one that could be evicted. -/
def linkedContents (s : PoolSession) (prev this : Int) : Int → PageBuffer :=
  if prev ∈ s.owned ∧ 2 ≤ s.pool.evictable.card then
    Function.update s.contents prev (writeInt32 (s.contents prev) pageHeaderSize this)
  else s.contents

/-- The session after a round of `garry_overflow_write` that got the page `this`. -/
structure Round (busy : Set Nat) (s : PoolSession) (prev : Int) (chunk : Bytes) (this : Int)
    (s' : PoolSession) : Prop where
  id : 0 ≤ this ∧ this < 2147483648
  fresh : this ∉ s.owned
  steady : Steady busy s'
  owned : s'.owned = insert this s.owned
  pins : s'.pins = s.pins
  contents : ∃ buf, s'.contents =
    Function.update (s.linkedContents prev this) this (overflowPage buf s.pool.pageSize chunk)
  capacity : s'.pool.slots.length = s.pool.slots.length
  pageSize : s'.pool.pageSize = s.pool.pageSize
  head : s'.pool.freeListHead = -1
  ids : s'.pool.idsLeft + 1 = s.pool.idsLeft
  clock : ∀ n, Clock (n + 4) s.pool → Clock n s'.pool

namespace Steady

/-- The link to the page that was granted is stored while that page is pinned. -/
theorem linked (h : Steady busy s) (g : Granted busy s this v pool₁) (hclock : Clock 3 pool₁)
    (hprev : prev = -1 ∨ prev ∈ s.owned ∧ ∀ i, (prev, i) ∉ s.pins) (init : PageBuffer) :
    Steady (insert v busy) {
      pool := ((pool₁.pinSlot v).storePage v init).linkOverflow prev this
      owned := insert this s.owned
      freed := s.freed.erase this
      pins := (this, v) :: s.pins
      contents := Function.update (s.linkedContents prev this) this init } := by
  have h1 := g.steady.store (List.mem_cons_self ..) (Set.mem_insert ..) init
  simp only [Function.update_idem] at h1
  rcases hprev with rfl | ⟨hp, hno⟩
  · have hno : ¬ ((-1 : Int) ∈ s.owned ∧ 2 ≤ s.pool.evictable.card) := by
      intro hc
      exact absurd (h.inv.range _ (.inl hc.1)).1 (by decide)
    rw [BufferPool.linkOverflow, if_pos (by decide), linkedContents, if_neg hno]
    exact h1
  · have hne : prev ≠ this := fun e => g.fresh (e ▸ hp)
    have hno' (i : Nat) : (prev, i) ∉ (this, v) :: s.pins := by
      intro hmem
      rcases List.mem_cons.mp hmem with he | hmem
      · exact hne (Prod.mk.inj he).1
      · exact hno i hmem
    have hE : ((pool₁.pinSlot v).storePage v init).evictable = s.pool.evictable.erase v := by
      ext i
      rw [mem_evictable h1.inv, Finset.mem_erase, mem_evictable h.inv, List.map_cons,
        List.mem_cons, not_or]
      have hlen : ((pool₁.pinSlot v).storePage v init).slots.length = s.pool.slots.length :=
        (Ticks.pinSlot.trans Ticks.storePage).capacity.trans g.capacity
      simp only [hlen]
      tauto
    have hcard := Finset.card_erase_of_mem g.victim
    rw [linkedContents]
    split
    · next hc =>
      have hclock' : Clock 0 ((pool₁.pinSlot v).storePage v init) :=
        (Ticks.pinSlot.trans Ticks.storePage).clock 0 (hclock.mono (by omega))
      have hpos : ((pool₁.pinSlot v).storePage v init).evictable.Nonempty := by
        rw [hE, ← Finset.card_pos]
        omega
      have h2 := h1.link (Finset.mem_insert_of_mem hp) hno' hclock' hpos this
      simp only [Function.update_of_ne hne] at h2
      rw [Function.update_comm hne.symm] at h2
      exact h2
    · next hc =>
      have hempty : ((pool₁.pinSlot v).storePage v init).evictable = ∅ := by
        rw [hE, ← Finset.card_eq_zero]
        have hlt : ¬ 2 ≤ s.pool.evictable.card := fun h2 => hc ⟨hp, h2⟩
        omega
      have heq := h1.link_none hno' hempty this
      rw [heq]
      exact h1

end Steady

/-- A session before a round that links page `prev`: the head of the free list is not cached. -/
structure Ready (busy : Set Nat) (ticks : Nat) (s : PoolSession) (prev : Int) : Prop where
  steady : Steady busy s
  free : 0 ≤ s.pool.freeListHead → s.pool.findSlot s.pool.freeListHead = none
  clock : Clock ticks s.pool
  last : prev = -1 ∨ prev ∈ s.owned ∧ ∀ i, (prev, i) ∉ s.pins

/-- A round of `garry_overflow_write` that gets a page. -/
theorem Ready.round (h : Ready busy (n + 4) s prev) (he : s.pool.evictable.Nonempty)
    (hids : 0 < s.pool.idsLeft) (hv : value ≠ []) (fuel : Nat) (head : Int) :
    ∃ this s', Round busy s prev (value.take (overflowChunkSize s.pool.pageSize)) this s' ∧
      s.pool.overflowWriteLoop (fuel + 1) head prev value =
        let r := s'.pool.overflowWriteLoop fuel (if head = -1 then this else head) this
          (value.drop (overflowChunkSize s.pool.pageSize))
        (r.1, r.2.1, this :: r.2.2) := by
  obtain ⟨h, hfree, hclock, hprev⟩ := h
  obtain ⟨this, v, pool₁, ha, g⟩ := h.allocate hfree (hclock.mono (by omega)) he hids
  have h0 := g.id.1
  have hpin : pool₁.pinPage this = some (v, pool₁.pinSlot v) := by
    rw [pinPage, if_neg (by omega), ensureLoaded, g.slot]
    rfl
  have hm : (this, v) ∈ (this, v) :: s.pins := List.mem_cons_self ..
  generalize hinit : pageInit ((pool₁.pinSlot v).slot v).page .overflow 0 pool₁.pageSize = init
  have hlink := h.linked g (g.clock 3 (hclock.mono (by omega))) hprev init
  have hcont : Function.update (s.linkedContents prev this) this init this =
      pageInit ((pool₁.pinSlot v).slot v).page .overflow 0 pool₁.pageSize := by
    rw [Function.update_self, hinit]
  have hfin := hlink.finish hm g.free hcont (value.take (overflowChunkSize s.pool.pageSize))
  simp only [Function.update_idem, List.erase_cons_head] at hfin
  have ht : Ticks 3 pool₁ ((((pool₁.pinSlot v).storePage v init).linkOverflow prev this).finishOverflow
      v this (value.take (overflowChunkSize s.pool.pageSize))) :=
    ((Ticks.pinSlot.trans Ticks.storePage).trans Ticks.linkOverflow).trans Ticks.finishOverflow
  refine ⟨this, _, {
    id := g.id
    fresh := g.fresh
    steady := hfin
    owned := rfl
    pins := rfl
    contents := ⟨_, by rw [← g.pageSize]⟩
    capacity := ht.capacity.trans g.capacity
    pageSize := ht.pageSize.trans g.pageSize
    head := ht.freeListHead.trans g.head
    ids := ?_
    clock := fun n hn => ht.clock n (g.clock _ hn) }, ?_⟩
  · rw [← g.ids, idsLeft, idsLeft, ht.freeListHead, ht.nextPage]
  · have hpsize : (pool₁.pinSlot v).pageSize = pool₁.pageSize := rfl
    rw [BufferPool.overflowWriteLoop, if_neg hv, ← hinit]
    simp only [ha, if_neg (show ¬ this < 0 by omega), hpin, hpsize, g.pageSize]

/-! ## The whole chain -/

/-- The pages that a value takes. -/
def pagesNeeded (ps : Nat) (value : Bytes) : Nat :=
  (value.length + overflowChunkSize ps - 1) / overflowChunkSize ps

theorem pagesNeeded_drop (hc : 0 < overflowChunkSize ps) {value : Bytes} (hv : value ≠ []) :
    pagesNeeded ps value = pagesNeeded ps (value.drop (overflowChunkSize ps)) + 1 := by
  have hlen := List.length_pos_iff.mpr hv
  rw [pagesNeeded, pagesNeeded, List.length_drop]
  generalize overflowChunkSize ps = c at *
  rcases Nat.le_total value.length c with hle | hle
  · rw [Nat.sub_eq_zero_of_le hle, Nat.zero_add, Nat.div_eq_of_lt (Nat.sub_lt hc Nat.one_pos)]
    apply Nat.div_eq_of_lt_le
    · omega
    · omega
  · rw [show value.length + c - 1 = value.length - c + c - 1 + c by omega, Nat.add_div_right _ hc]

/-- What the rounds of a loop leave: more pages in use, and `ticks` of the counter. -/
structure Passed (busy : Set Nat) (ticks : Nat) (s s' : PoolSession) : Prop where
  steady : Steady busy s'
  owned : s.owned ⊆ s'.owned
  pins : s'.pins = s.pins
  capacity : s'.pool.slots.length = s.pool.slots.length
  pageSize : s'.pool.pageSize = s.pool.pageSize
  clock : Clock ticks s'.pool

theorem Round.passed (h : Ready busy (n + 4) s prev) (r : Round busy s prev chunk this s') :
    Passed busy n s s' where
  steady := r.steady
  owned := r.owned ▸ Finset.subset_insert ..
  pins := r.pins
  capacity := r.capacity
  pageSize := r.pageSize
  clock := r.clock n h.clock

theorem Round.ready (h : Ready busy (n + 4) s prev) (r : Round busy s prev chunk this s') :
    Ready busy n s' this where
  steady := r.steady
  free := by
    rw [r.head]
    exact fun h0 => absurd h0 (by decide)
  clock := r.clock n h.clock
  last := by
    refine .inr ⟨r.owned ▸ Finset.mem_insert_self .., fun i => ?_⟩
    rw [r.pins]
    exact fun hp => r.fresh (h.steady.inv.handle hp).1

/-- The pages in use before the round. -/
theorem Round.contents_of_mem (r : Round busy s prev chunk this s') (hq : q ∈ s.owned) :
    s'.contents q = s.linkedContents prev this q := by
  obtain ⟨buf, hc⟩ := r.contents
  rw [hc, Function.update_of_ne fun e => r.fresh (by rwa [← e])]

theorem Passed.trans {s'' : PoolSession} (h : Passed busy n s s') (h' : Passed busy m s' s'') :
    Passed busy m s s'' where
  steady := h'.steady
  owned := h.owned.trans h'.owned
  pins := h'.pins.trans h.pins
  capacity := h'.capacity.trans h.capacity
  pageSize := h'.pageSize.trans h.pageSize
  clock := h'.clock

theorem Passed.evictable (hp : Passed busy n s s') (h : Steady busy s) :
    s'.pool.evictable = s.pool.evictable :=
  evictable_congr h.inv hp.steady.inv hp.pins hp.capacity

/-- The last page is flushed. -/
theorem Steady.flushed (h : Steady busy s) (hclock : Clock n s.pool) (pid : Int) :
    Passed busy n s { s with pool := s.pool.flushPage pid } where
  steady := h.flush pid
  owned := Finset.Subset.refl _
  pins := rfl
  capacity := Ticks.flushPage.capacity
  pageSize := Ticks.flushPage.pageSize
  clock := Ticks.flushPage.clock n hclock

/-- A loop of `garry_overflow_write` that stores every link. -/
structure Stored (busy : Set Nat) (ticks : Nat) (s : PoolSession) (prev : Int) (value : Bytes)
    (l : List Int) (s' : PoolSession) : Prop extends Passed busy ticks s s' where
  stored : OverflowAt s.pool.pageSize s'.contents l (l.head?.getD (-1)) value
  fresh : ∀ p ∈ l, p ∉ s.owned ∧ p < 2147483648
  used : ∀ p ∈ l, p ∈ s'.owned
  linked : prev ∈ s.owned → s'.contents prev = linkedPage (s.contents prev) l
  frame : ∀ q ∈ s.owned, q ≠ prev → s'.contents q = s.contents q

theorem Steady.stored_nil (h : Steady busy s) (hclock : Clock n s.pool) :
    Stored busy n s prev [] [] { s with pool := s.pool.flushPage prev } := {
  h.flushed hclock prev with
  stored := ⟨rfl, rfl⟩
  fresh := fun _ hp => absurd hp List.not_mem_nil
  used := fun _ hp => absurd hp List.not_mem_nil
  linked := fun _ => rfl
  frame := fun _ _ _ => rfl }

/-- A round before a loop that stores the rest of the value. -/
theorem Round.stored (r : Round busy s prev (value.take (overflowChunkSize s.pool.pageSize)) this s')
    {s'' : PoolSession} (hp : Passed busy n s s')
    (he : prev ∈ s.owned → 2 ≤ s.pool.evictable.card) (hv : value ≠ [])
    (st : Stored busy m s' this (value.drop (overflowChunkSize s.pool.pageSize)) l s'') :
    Stored busy m s prev value (this :: l) s'' := by
  have hthis : this ∈ s'.owned := r.owned ▸ Finset.mem_insert_self ..
  obtain ⟨buf, hbuf⟩ := r.contents
  have hcont : s''.contents this = linkedPage (overflowPage buf s.pool.pageSize
      (value.take (overflowChunkSize s.pool.pageSize))) l := by
    rw [st.linked hthis, hbuf, Function.update_self]
  have hkept : ∀ q ∈ s.owned, s''.contents q = s.linkedContents prev this q := by
    intro q hq
    rw [st.frame q (hp.owned hq) fun e => r.fresh (e ▸ hq), r.contents_of_mem hq]
  refine { hp.trans st.toPassed with
    stored := ⟨rfl, r.id.1, hv, ?_, ?_⟩
    fresh := ?_
    used := ?_
    linked := ?_
    frame := ?_ }
  · rw [hcont, ← List.length_take]
    exact slice_overflowPage ..
  · rw [hcont, link_overflowPage _ fun p hp => ?_]
    · exact r.pageSize ▸ st.stored
    · have := (st.fresh p hp).2
      have := st.steady.inv.range p (.inl (st.used p hp))
      exact ⟨by omega, by omega⟩
  · intro p hp'
    rcases List.mem_cons.mp hp' with rfl | hp'
    · exact ⟨r.fresh, r.id.2⟩
    · exact ⟨fun ho => (st.fresh p hp').1 (hp.owned ho), (st.fresh p hp').2⟩
  · intro p hp'
    rcases List.mem_cons.mp hp' with rfl | hp'
    · exact st.owned hthis
    · exact st.used p hp'
  · intro ho
    rw [hkept prev ho, linkedContents, if_pos ⟨ho, he ho⟩, Function.update_self]
    rfl
  · intro q hq hne
    rw [hkept q hq, linkedContents]
    split
    · rw [Function.update_of_ne hne]
    · rfl

/-- With two slots that can be evicted and ids for all pages the loop stores the value. -/
theorem Ready.writeLoop_stored (h : Ready busy (n + 4 * pagesNeeded s.pool.pageSize value) s prev)
    (hc : 0 < overflowChunkSize s.pool.pageSize) (he : 2 ≤ s.pool.evictable.card)
    (hids : pagesNeeded s.pool.pageSize value ≤ s.pool.idsLeft) (hf : value.length ≤ fuel)
    (head : Int) :
    ∃ l s', s.pool.overflowWriteLoop fuel head prev value =
        (if head = -1 then l.head?.getD (-1) else head, s'.pool, l) ∧
      Stored busy n s prev value l s' := by
  have hnil (head : Int) : (if head = -1 then (List.head? ([] : List Int)).getD (-1) else head) =
      head := by
    split
    · next hh => exact hh.symm
    · rfl
  induction fuel generalizing s head prev value with
  | zero =>
    obtain rfl : value = [] := List.eq_nil_of_length_eq_zero (by omega)
    refine ⟨[], _, ?_, h.steady.stored_nil (h.clock.mono (by omega))⟩
    rw [BufferPool.overflowWriteLoop, hnil]
  | succ fuel ih =>
    by_cases hv : value = []
    · subst hv
      refine ⟨[], _, ?_, h.steady.stored_nil (h.clock.mono (by omega))⟩
      rw [BufferPool.overflowWriteLoop, if_pos rfl, hnil]
    · rw [pagesNeeded_drop hc hv] at hids h
      obtain ⟨this, s₁, r, heq⟩ := Ready.round h (Finset.card_pos.mp (by omega)) (by omega) hv fuel head
      have hp := r.passed h
      have hr := r.ready h
      have h0 := r.id.1
      have hids₁ := r.ids
      have hps := r.pageSize
      have hE := hp.evictable h.steady
      rw [← hps] at hr hc hids
      obtain ⟨l, s₂, heq', st⟩ := ih hr hc (hE ▸ he) (by omega) (by rw [List.length_drop]; omega)
        (if head = -1 then this else head)
      rw [hps] at heq' st
      refine ⟨this :: l, s₂, ?_, r.stored hp (fun _ => he) hv st⟩
      rw [heq, heq']
      split
      · rw [if_neg (by omega)]
        rfl
      · rfl

/-- The head of the free list when there is no id left. -/
theorem Steady.head_eq (h : Steady busy s) (hids : s.pool.idsLeft = 0) :
    s.pool.freeListHead = -1 ∧ s.pool.nextPage < 0 := by
  rw [idsLeft] at hids
  split at hids
  · omega
  · next h0 =>
    split at hids
    · next hn =>
      obtain ⟨l, -, hl, hh, -⟩ := h.inv.list
      cases l with
      | nil => exact ⟨hh, hn⟩
      | cons q l =>
        have := (h.inv.range q (.inr (hl q (List.mem_cons_self ..)))).1
        rw [List.headD_cons] at hh
        omega
    · next hn =>
      have := h.inv.ids
      omega

/-- Without ids for all pages the loop gives up, and the pages it has allocated are not in the free
list. -/
theorem Ready.writeLoop_stopped (h : Ready busy (4 * pagesNeeded s.pool.pageSize value) s prev)
    (hc : 0 < overflowChunkSize s.pool.pageSize) (he : s.pool.evictable.Nonempty)
    (hids : s.pool.idsLeft < pagesNeeded s.pool.pageSize value) (hf : value.length ≤ fuel)
    (head : Int) :
    ∃ pool' pids, s.pool.overflowWriteLoop fuel head prev value = (-1, pool', pids) ∧
      pool'.freeListHead = -1 ∧ (pids = [] ↔ s.pool.idsLeft = 0) := by
  have hv : value ≠ [] := by
    rintro rfl
    rw [pagesNeeded, List.length_nil, Nat.zero_add, Nat.div_eq_of_lt (Nat.sub_lt hc Nat.one_pos)] at hids
    omega
  induction fuel generalizing s head prev value with
  | zero => exact absurd (List.eq_nil_of_length_eq_zero (by omega)) hv
  | succ fuel ih =>
    rcases Nat.eq_zero_or_pos s.pool.idsLeft with hz | hpos
    · obtain ⟨hhead, hnext⟩ := h.steady.head_eq hz
      have ha : s.pool.allocate = (-1, s.pool) := by
        rw [BufferPool.allocate, if_neg (by omega)]
        cases s.pool.findEvictionCandidate with
        | none => rfl
        | some v => simp only [if_pos hnext]
      refine ⟨s.pool, [], ?_, hhead, iff_of_true rfl hz⟩
      rw [BufferPool.overflowWriteLoop, if_neg hv]
      simp only [ha]
      rfl
    · have hneed := pagesNeeded_drop hc hv
      rw [hneed] at hids h
      obtain ⟨this, s₁, r, heq⟩ := Ready.round h he hpos hv fuel head
      have hE := (r.passed h).evictable h.steady
      have hr := r.ready h
      have hids₁ := r.ids
      rw [← r.pageSize] at hr hc hids
      have hv' : value.drop (overflowChunkSize s₁.pool.pageSize) ≠ [] := by
        intro hnil
        rw [hnil, pagesNeeded, List.length_nil, Nat.zero_add,
          Nat.div_eq_of_lt (Nat.sub_lt hc Nat.one_pos)] at hids
        omega
      obtain ⟨pool', pids, heq', hhead, -⟩ := ih hr hc (hE ▸ he) (by omega)
        (by rw [List.length_drop]; omega) (if head = -1 then this else head) hv'
      rw [r.pageSize] at heq'
      refine ⟨pool', this :: pids, ?_, hhead, iff_of_false (List.cons_ne_nil _ _) (by omega)⟩
      rw [heq, heq']

/-- With one slot that can be evicted no link is stored: the pages keep their contents. -/
theorem Ready.writeLoop_unlinked (h : Ready busy (n + 4 * pagesNeeded s.pool.pageSize value) s prev)
    (hc : 0 < overflowChunkSize s.pool.pageSize) (he : s.pool.evictable.card = 1)
    (hids : pagesNeeded s.pool.pageSize value ≤ s.pool.idsLeft) (hf : value.length ≤ fuel)
    (hhead : head ≠ -1) :
    ∃ s' pids, s.pool.overflowWriteLoop fuel head prev value = (head, s'.pool, pids) ∧
      Passed busy n s s' ∧ ∀ q ∈ s.owned, s'.contents q = s.contents q := by
  induction fuel generalizing s prev value with
  | zero =>
    obtain rfl : value = [] := List.eq_nil_of_length_eq_zero (by omega)
    exact ⟨_, [], rfl, h.steady.flushed (h.clock.mono (by omega)) prev, fun _ _ => rfl⟩
  | succ fuel ih =>
    by_cases hv : value = []
    · subst hv
      refine ⟨_, [], ?_, h.steady.flushed (h.clock.mono (by omega)) prev, fun _ _ => rfl⟩
      rw [BufferPool.overflowWriteLoop, if_pos rfl]
    · rw [pagesNeeded_drop hc hv] at hids h
      obtain ⟨this, s₁, r, heq⟩ := Ready.round h (Finset.card_pos.mp (by omega)) (by omega) hv fuel head
      have hp := r.passed h
      have hr := r.ready h
      have hids₁ := r.ids
      have hE := hp.evictable h.steady
      rw [← r.pageSize] at hr hc hids
      obtain ⟨s₂, pids, heq', hp', hcont⟩ := ih hr hc (hE ▸ he) (by omega)
        (by rw [List.length_drop]; omega)
      rw [r.pageSize] at heq'
      refine ⟨s₂, this :: pids, ?_, hp.trans hp', fun q hq => ?_⟩
      · rw [heq, if_neg hhead, heq']
      · rw [hcont q (hp.owned hq), r.contents_of_mem hq, linkedContents, if_neg]
        rintro ⟨-, h2⟩
        omega

/-! ## Reading the chain -/

namespace Steady

/-- A page that is pinned, read and released. -/
theorem read (h : Steady busy s) (hp : pid ∈ s.owned) (hno : ∀ i, (pid, i) ∉ s.pins)
    (hclock : Clock (n + 2) s.pool) (he : s.pool.evictable.Nonempty) :
    ∃ idx pool₁, s.pool.pinPage pid = some (idx, pool₁) ∧
      Passed busy n s { s with pool := pool₁.releasePage pid } ∧
      pool₁.pageSize = s.pool.pageSize ∧
      ∀ k < s.pool.pageSize, (pool₁.slot idx).page k = s.contents pid k := by
  obtain ⟨idx, pool₁, hpin⟩ := h.exists_pin hp (hclock.mono (by omega)) he
  have h1 := h.pin hp hpin
  have hm : (pid, idx) ∈ (pid, idx) :: s.pins := List.mem_cons_self ..
  have ht := Ticks.pinPage hpin
  have hb := h.pin_free hp hno hpin
  have h2 := h1.release hm hb
  rw [List.erase_cons_head] at h2
  refine ⟨idx, pool₁, hpin, ⟨h2, Finset.Subset.refl _, rfl, ?_, ?_, ?_⟩, ht.pageSize, fun k hk => ?_⟩
  · exact Ticks.releasePage.capacity.trans ht.capacity
  · exact Ticks.releasePage.pageSize.trans ht.pageSize
  · exact Ticks.releasePage.clock n (ht.clock n hclock)
  · exact h1.page_eq hm (ht.pageSize.symm ▸ hk)

/-- `garry_overflow_read` of a value that is stored. -/
theorem readLoop (h : Steady busy s) (hps : minPageSize ≤ s.pool.pageSize)
    (hl : ∀ p ∈ l, p ∈ s.owned ∧ ∀ i, (p, i) ∉ s.pins)
    (hclock : Clock (2 * pagesNeeded s.pool.pageSize value) s.pool)
    (he : s.pool.evictable.Nonempty) (hat : OverflowAt s.pool.pageSize s.contents l head value)
    (hf : value.length ≤ fuel) :
    (s.pool.overflowReadLoop fuel head value.length).1 = some value := by
  have hc : 0 < overflowChunkSize s.pool.pageSize := by
    simp only [overflowChunkSize, pageHeaderSize, overflowPtrSize, minPageSize] at *
    omega
  induction fuel generalizing s l head value with
  | zero =>
    obtain rfl : value = [] := List.eq_nil_of_length_eq_zero (by omega)
    rfl
  | succ fuel ih =>
    by_cases hv : value = []
    · subst hv
      rfl
    · obtain ⟨l, rfl⟩ := hat.ne_nil hv
      obtain ⟨-, h0, -, hslice, hrest⟩ := hat
      obtain ⟨hmem, hno⟩ := hl head (List.mem_cons_self ..)
      rw [pagesNeeded_drop hc hv] at hclock
      obtain ⟨idx, pool₁, hpin, hp, hps₁, hpage⟩ := h.read hmem hno hclock he
      have hE := hp.evictable h
      have hroom : pageHeaderSize + overflowPtrSize + overflowChunkSize s.pool.pageSize =
          s.pool.pageSize := by
        simp only [overflowChunkSize, pageHeaderSize, overflowPtrSize, minPageSize] at *
        omega
      have hword : readInt32 (pool₁.slot idx).page pageHeaderSize =
          readInt32 (s.contents head) pageHeaderSize :=
        getWord_congr fun j hj => hpage _ (by simp only [overflowPtrSize] at hroom; omega)
      have hchunk : slice (pool₁.slot idx).page (pageHeaderSize + overflowPtrSize)
          (min (overflowChunkSize s.pool.pageSize) value.length) =
          value.take (overflowChunkSize s.pool.pageSize) := by
        rw [← hslice]
        exact slice_congr fun j hj => hpage _ (by omega)
      have hlen : (value.drop (overflowChunkSize s.pool.pageSize)).length =
          value.length - min (overflowChunkSize s.pool.pageSize) value.length := by
        rw [List.length_drop]
        omega
      have hlen' := List.length_pos_iff.mpr hv
      have hfuel : (value.drop (overflowChunkSize s.pool.pageSize)).length ≤ fuel := by omega
      have hps' : (pool₁.releasePage head).pageSize = s.pool.pageSize := hp.pageSize
      obtain ⟨rest, pool₂, hread⟩ : ∃ rest pool₂, (pool₁.releasePage head).overflowReadLoop fuel
          (readInt32 (s.contents head) pageHeaderSize)
          (value.drop (overflowChunkSize s.pool.pageSize)).length = (rest, pool₂) := ⟨_, _, rfl⟩
      have hr := ih hp.steady (hps'.symm ▸ hps) (fun p hm => hl p (List.mem_cons_of_mem _ hm))
        (hps'.symm ▸ hp.clock) (hE ▸ he) (hps'.symm ▸ hrest) (hps'.symm ▸ hfuel) (hps'.symm ▸ hc)
      simp only [hps', hread] at hr
      rw [BufferPool.overflowReadLoop, if_neg (by omega), if_neg (by omega), hpin]
      simp only [hps₁, hword, hchunk, ← hlen, hread, hr, Option.map_some, List.take_append_drop]

/-- A first page without a link ends the read of a value that takes two. -/
theorem readLoop_short (h : Steady busy s) (hps : minPageSize ≤ s.pool.pageSize)
    (hp : head ∈ s.owned) (hno : ∀ i, (head, i) ∉ s.pins) (hclock : Clock 2 s.pool)
    (he : s.pool.evictable.Nonempty) (hlink : readInt32 (s.contents head) pageHeaderSize = -1)
    (hlen : overflowChunkSize s.pool.pageSize < len) (fuel : Nat) :
    (s.pool.overflowReadLoop fuel head len).1 = none := by
  cases fuel with
  | zero =>
    rw [BufferPool.overflowReadLoop, if_neg (by omega)]
  | succ fuel =>
    obtain ⟨idx, pool₁, hpin, hp, hps₁, hpage⟩ := h.read hp hno (n := 0) hclock he
    have hword : readInt32 (pool₁.slot idx).page pageHeaderSize = -1 := by
      rw [← hlink]
      refine getWord_congr fun j hj => hpage _ ?_
      simp only [minPageSize, pageHeaderSize] at *
      omega
    have hrest : ((pool₁.releasePage head).overflowReadLoop fuel (-1)
        (len - overflowChunkSize s.pool.pageSize)).1 = none := by
      cases fuel with
      | zero => rw [BufferPool.overflowReadLoop, if_neg (by omega)]
      | succ fuel => rw [BufferPool.overflowReadLoop, if_neg (by omega), if_pos (by decide)]
    have h0 := (h.inv.range head (.inl ‹_›)).1
    rw [BufferPool.overflowReadLoop, if_neg (by omega), if_neg (by omega), hpin]
    simp only [hword, hps₁, Nat.min_eq_left hlen.le, hrest, Option.map_none]

end Steady

end PoolSession

/-! ## Honest chains -/

namespace BufferPool

variable {pool pool' : BufferPool}

/-- A head that `garry_overflow_write` returns gives back the value once the pins are gone; without one
the pages that were allocated are in the free list. -/
def OverflowHonest (pool : BufferPool) (value : Bytes) : Prop :=
  ∀ head pool' pids, pool.overflowWrite value = (head, pool', pids) →
    (0 ≤ head → (pool'.unpinned.overflowRead head value.length).1 = some value) ∧
      (head < 0 → ∃ l, Pool.FreeList pool'.view pool'.freeListHead l ∧ ∀ p ∈ pids, p ∈ l)

/-- Nothing can be allocated, or one page is enough, or two slots can be evicted and there are ids for
all pages. -/
def OverflowRoom (pool : BufferPool) (value : Bytes) : Prop :=
  pool.evictable = ∅ ∨ pool.idsLeft = 0 ∨ PoolSession.pagesNeeded pool.pageSize value = 1 ∨
    2 ≤ pool.evictable.card ∧ PoolSession.pagesNeeded pool.pageSize value ≤ pool.idsLeft

/-- A write that gives up with an empty free list is honest when it has allocated nothing. -/
theorem honest_of_stopped (he : pool.overflowWrite value = (-1, pool', pids))
    (hhead : pool'.freeListHead = -1) : pool.OverflowHonest value ↔ pids = [] := by
  constructor
  · intro h
    obtain ⟨l, hl, hsub⟩ := (h _ _ _ he).2 (by decide)
    rw [hhead] at hl
    cases l with
    | nil => exact List.eq_nil_iff_forall_not_mem.mpr fun p hp => absurd (hsub p hp) List.not_mem_nil
    | cons q l =>
      obtain ⟨rfl, h0, -⟩ := hl
      exact absurd h0 (by decide)
  · rintro rfl head pool'' pids' he'
    rw [he] at he'
    obtain ⟨rfl, rfl, rfl⟩ : -1 = head ∧ pool' = pool'' ∧ [] = pids' := by
      simpa only [Prod.mk.injEq] using he'
    exact ⟨fun h0 => absurd h0 (by decide), fun _ => ⟨[], hhead, fun p hp => hp⟩⟩

/-- A head that is returned for a chain that cannot be read. -/
theorem not_honest (h0 : 0 ≤ (pool.overflowWrite value).1)
    (hnone : ((pool.overflowWrite value).2.1.unpinned.overflowRead (pool.overflowWrite value).1
      value.length).1 = none) : ¬ pool.OverflowHonest value := by
  intro h
  have hsome := (h _ _ _ rfl).1 h0
  cases hnone.symm.trans hsome

end BufferPool

namespace PoolSession

open BufferPool

variable {s s' : PoolSession} {busy : Set Nat} {full : Prop}

theorem Passed.read {l : List Int} (hp : Passed busy ticks s s')
    (hl : ∀ p ∈ l, p ∉ s.owned ∧ p ∈ s'.owned) (h : Steady busy s) :
    Steady ∅ { s' with pool := s'.pool.unpinned, owned := l.toFinset, pins := [] } := by
  refine hp.steady.unpin fun p hm => ?_
  obtain ⟨hno, hmem⟩ := hl p (List.mem_toFinset.mp hm)
  refine ⟨hmem, fun i hi => hno ?_⟩
  rw [hp.pins] at hi
  exact (h.inv.handle hi).1

/-- A write that stores all links is honest. -/
theorem Stored.honest (h : Steady busy s) (hps : minPageSize ≤ s.pool.pageSize)
    (he : s.pool.evictable.Nonempty) (hv : value ≠ [])
    (st : Stored busy (2 * pagesNeeded s.pool.pageSize value) s (-1) value l s')
    (hw : s.pool.overflowWrite value = (l.head?.getD (-1), s'.pool, l)) :
    s.pool.OverflowHonest value := by
  intro head pool' pids hw'
  rw [hw] at hw'
  obtain ⟨rfl, rfl, rfl⟩ : l.head?.getD (-1) = head ∧ s'.pool = pool' ∧ l = pids := by
    simpa only [Prod.mk.injEq] using hw'
  refine ⟨fun _ => ?_, fun hneg => ?_⟩
  · have hr := st.toPassed.read (fun p hp => ⟨(st.fresh p hp).1, st.used p hp⟩) h
    have hps' : s'.pool.unpinned.pageSize = s.pool.pageSize := st.pageSize
    refine hr.readLoop (hps'.symm ▸ hps) (fun p hp => ⟨List.mem_toFinset.mpr hp, ?_⟩)
      (hps'.symm ▸ st.clock.unpinned) (unpinned_evictable ?_) (hps'.symm ▸ st.stored) le_rfl
    · exact fun i hi => absurd hi List.not_mem_nil
    · rw [st.toPassed.evictable h]
      exact he
  · cases l with
    | nil => exact absurd st.stored.2 hv
    | cons p l =>
      have := st.stored.2.1
      rw [List.head?_cons, Option.getD_some] at hneg
      omega

theorem writeLoop_nil (pool : BufferPool) (fuel : Nat) (head prev : Int) :
    pool.overflowWriteLoop fuel head prev [] = (head, pool.flushPage prev, []) := by
  cases fuel with
  | zero => rfl
  | succ fuel => rw [BufferPool.overflowWriteLoop, if_pos rfl]

/-- Without a slot that can be evicted nothing is allocated. -/
theorem Ready.write_empty (h : Ready busy n s (-1)) (hv : value ≠ []) (he : s.pool.evictable = ∅) :
    ∃ pool', s.pool.overflowWrite value = (-1, pool', []) ∧ pool'.freeListHead = -1 := by
  obtain ⟨b, value, rfl⟩ := List.exists_cons_of_ne_nil hv
  have hnone := no_candidate he
  have ha : ∃ pool', s.pool.allocate = (-1, pool') ∧ pool'.freeListHead = -1 := by
    rw [BufferPool.allocate]
    split
    · next h0 =>
      have hnext : s.pool.nextFree s.pool.freeListHead = -1 := by
        rw [nextFree, h.free h0]
      have hnone' : findEvictionCandidate
          { s.pool with freeListHead := s.pool.nextFree s.pool.freeListHead } = none := hnone
      simp only [hnone']
      exact ⟨_, rfl, hnext⟩
    · next h0 =>
      obtain ⟨l, -, hl, hh, -⟩ := h.steady.inv.list
      rw [hnone]
      refine ⟨_, rfl, ?_⟩
      cases l with
      | nil => exact hh
      | cons q l =>
        have := (h.steady.inv.range q (.inr (hl q (List.mem_cons_self ..)))).1
        rw [List.headD_cons] at hh
        omega
  obtain ⟨pool', ha, hhead⟩ := ha
  refine ⟨pool', ?_, hhead⟩
  rw [BufferPool.overflowWrite, List.length_cons, BufferPool.overflowWriteLoop, if_neg hv]
  simp only [ha]
  rfl

/-- A value that fits one page is stored. -/
theorem Ready.write_one (h : Ready busy (n + 4) s (-1)) (hv : value ≠ [])
    (he : s.pool.evictable.Nonempty) (hids : 0 < s.pool.idsLeft)
    (hone : value.drop (overflowChunkSize s.pool.pageSize) = []) :
    ∃ l s', s.pool.overflowWrite value = (l.head?.getD (-1), s'.pool, l) ∧
      Stored busy n s (-1) value l s' := by
  obtain ⟨this, s₁, r, heq⟩ := h.round he hids hv (value.length - 1) (-1)
  have hr := r.ready h
  have hno : (-1 : Int) ∉ s.owned := fun hm =>
    absurd (h.steady.inv.range _ (.inl hm)).1 (by decide)
  have st : Stored busy n s₁ this (value.drop (overflowChunkSize s.pool.pageSize)) []
      { s₁ with pool := s₁.pool.flushPage this } := hone ▸ hr.steady.stored_nil hr.clock
  refine ⟨[this], _, ?_, r.stored (r.passed h) (fun hm => absurd hm hno) hv st⟩
  have hlen := List.length_pos_iff.mpr hv
  rw [BufferPool.overflowWrite, show value.length = value.length - 1 + 1 by omega, heq, hone,
    writeLoop_nil]
  rfl

/-- The chain of a value that takes two pages cannot be read when only one slot can be evicted. -/
theorem Ready.write_unlinked (h : Ready busy (6 * pagesNeeded s.pool.pageSize value) s (-1))
    (hps : minPageSize ≤ s.pool.pageSize) (he : s.pool.evictable.card = 1)
    (hids : pagesNeeded s.pool.pageSize value ≤ s.pool.idsLeft)
    (htwo : value.drop (overflowChunkSize s.pool.pageSize) ≠ []) :
    ¬ s.pool.OverflowHonest value := by
  have hv : value ≠ [] := by
    rintro rfl
    exact htwo List.drop_nil
  have hc : 0 < overflowChunkSize s.pool.pageSize := by
    simp only [overflowChunkSize, pageHeaderSize, overflowPtrSize, minPageSize] at *
    omega
  have hlong : overflowChunkSize s.pool.pageSize < value.length := by
    rw [← List.length_pos_iff, List.length_drop] at htwo
    omega
  have hneed := pagesNeeded_drop hc hv
  have h' : Ready busy (2 + 4 * pagesNeeded s.pool.pageSize
      (value.drop (overflowChunkSize s.pool.pageSize)) + 4) s (-1) :=
    { h with clock := h.clock.mono (by omega) }
  obtain ⟨this, s₁, r, heq⟩ := h'.round (Finset.card_pos.mp (by omega)) (by omega) hv
    (value.length - 1) (-1)
  have hp := r.passed h'
  have hr := r.ready h'
  have h0 := r.id.1
  have hids₁ := r.ids
  have hps₁ := r.pageSize
  have hE := hp.evictable h.steady
  have hthis : this ∈ s₁.owned := r.owned ▸ Finset.mem_insert_self ..
  have hfuel : (value.drop (overflowChunkSize s.pool.pageSize)).length ≤ value.length - 1 := by
    rw [List.length_drop]
    omega
  have hids₂ : pagesNeeded s.pool.pageSize (value.drop (overflowChunkSize s.pool.pageSize)) ≤
      s₁.pool.idsLeft := by omega
  have hhead : this ≠ -1 := by omega
  rw [← hE] at he
  rw [← hps₁] at hr hc hids₂ hfuel
  obtain ⟨s₂, pids, heq', hp', hcont⟩ := hr.writeLoop_unlinked hc he hids₂ hfuel hhead
  rw [hps₁] at heq'
  have hw : s.pool.overflowWrite value = (this, s₂.pool, this :: pids) := by
    rw [BufferPool.overflowWrite, show value.length = value.length - 1 + 1 by omega, heq, if_pos rfl,
      heq']
  obtain ⟨buf, hbuf⟩ := r.contents
  have hlink : readInt32 (s₂.contents this) pageHeaderSize = -1 := by
    rw [hcont this hthis, hbuf, Function.update_self]
    exact @link_overflowPage _ buf _ [] fun p hm => absurd hm List.not_mem_nil
  have hpass := hp.trans hp'
  have hread := hpass.read (l := [this]) (fun p hm => ?_) h.steady
  · intro hh
    have hps' : s₂.pool.unpinned.pageSize = s.pool.pageSize := hpass.pageSize
    have hnone := hread.readLoop_short (hps'.symm ▸ hps) (List.mem_toFinset.mpr (List.mem_cons_self ..))
      (fun i hi => absurd hi List.not_mem_nil) hpass.clock.unpinned
      (unpinned_evictable (by rw [hp'.evictable hr.steady]; exact Finset.card_pos.mp (by omega)))
      hlink (hps'.symm ▸ hlong) value.length
    have hsome := (hh _ _ _ hw).1 h0
    rw [BufferPool.overflowRead, hnone] at hsome
    cases hsome
  · obtain rfl := List.mem_singleton.mp hm
    exact ⟨r.fresh, hp'.owned hthis⟩

/-- `garry_overflow_write` is honest exactly when there is room. -/
theorem Ready.honest_iff (h : Ready busy (6 * pagesNeeded s.pool.pageSize value) s (-1))
    (hps : minPageSize ≤ s.pool.pageSize) (hv : value ≠ []) :
    s.pool.OverflowHonest value ↔ s.pool.OverflowRoom value := by
  have hc : 0 < overflowChunkSize s.pool.pageSize := by
    simp only [overflowChunkSize, pageHeaderSize, overflowPtrSize, minPageSize] at *
    omega
  have hneed := pagesNeeded_drop hc hv
  rcases s.pool.evictable.eq_empty_or_nonempty with he | he
  · obtain ⟨pool', hw, hhead⟩ := h.write_empty hv he
    exact iff_of_true ((honest_of_stopped hw hhead).mpr rfl) (.inl he)
  have hcard := Finset.card_pos.mpr he
  rcases lt_or_ge s.pool.idsLeft (pagesNeeded s.pool.pageSize value) with hids | hids
  · have h4 : Ready busy (4 * pagesNeeded s.pool.pageSize value) s (-1) :=
      { h with clock := h.clock.mono (by omega) }
    obtain ⟨pool', pids, hw, hhead, hnil⟩ := h4.writeLoop_stopped hc he hids le_rfl (-1)
    rw [honest_of_stopped hw hhead, hnil, OverflowRoom]
    rw [← Finset.card_eq_zero]
    omega
  have hwrite (hst : ∃ l s', s.pool.overflowWrite value = (l.head?.getD (-1), s'.pool, l) ∧
      Stored busy (2 * pagesNeeded s.pool.pageSize value) s (-1) value l s') :
      s.pool.OverflowHonest value := by
    obtain ⟨l, s', hw, st⟩ := hst
    exact st.honest h.steady hps he hv hw
  have h6 : 6 * pagesNeeded s.pool.pageSize value =
      2 * pagesNeeded s.pool.pageSize value + 4 * pagesNeeded s.pool.pageSize value := by omega
  rcases lt_or_ge s.pool.evictable.card 2 with hone | htwo
  · by_cases hd : value.drop (overflowChunkSize s.pool.pageSize) = []
    · have h1 : pagesNeeded s.pool.pageSize value = 1 := by
        rw [hneed, hd, pagesNeeded, List.length_nil, Nat.zero_add,
          Nat.div_eq_of_lt (Nat.sub_lt hc Nat.one_pos)]
      refine iff_of_true (hwrite (Ready.write_one ?_ hv he (by omega) hd)) (.inr (.inr (.inl h1)))
      exact { h with clock := h.clock.mono (by omega) }
    · have h2 := pagesNeeded_drop hc hd
      refine iff_of_false (h.write_unlinked hps (by omega) hids hd) ?_
      rw [OverflowRoom, ← Finset.card_eq_zero]
      omega
  · rw [h6] at h
    exact iff_of_true (hwrite (h.writeLoop_stored hc htwo hids le_rfl (-1)))
      (.inr (.inr (.inr ⟨htwo, hids⟩)))

end PoolSession

/-- One slot of two is pinned. -/
def halfPinned : PoolSession := (PoolSession.start .empty 2 512 2).steps [.pin 0]

end Garry
