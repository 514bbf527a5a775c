import Garry.Verify.BufferPool
import Garry.Verify.PageWrites

/-!
# The buffer pool as a cache of the data file

A page shows the buffer of the slot it is found in, or else the bytes of the file. A session is
coherent when every page in use shows what it should and no page is in two slots; a call keeps it so
exactly when it evicts no slot that would be missed and takes a free page into the slot it is in.
-/

namespace Garry

open ByteStore

/-! ## Pages of the file -/

/-- The bytes of a page that is not all in the file are zero anyway. -/
theorem DataFile.Paged.readPage {f : DataFile} (h : f.Paged pageSize) :
    f.readPage pageSize q k = f.bytes (q.toNat * pageSize + k) := by
  rw [DataFile.readPage]
  split
  · rfl
  · next hq =>
    obtain ⟨n, hn⟩ := h.whole
    have hlt : n < q.toNat + 1 := by
      by_contra hc
      refine hq ?_
      rw [hn, Nat.mul_comm pageSize]
      exact Nat.mul_le_mul_right _ (by omega)
    have hle : pageSize * n ≤ q.toNat * pageSize := by
      rw [Nat.mul_comm q.toNat]
      exact Nat.mul_le_mul_left _ (by omega)
    rw [h.zero _ (by omega)]

theorem DataFile.Paged.readPage_writePage {f : DataFile} (h : f.Paged pageSize)
    (hp : 0 ≤ p) (hq : 0 ≤ q) (hk : k < pageSize) :
    (f.writePage pageSize p buf).readPage pageSize q k =
      if q = p then buf k else f.readPage pageSize q k := by
  rw [h.writePage.readPage, h.readPage]
  simp only [DataFile.writePage]
  split
  · next hb =>
    have hqp : q.toNat = p.toNat := by
      by_contra hne
      rcases Nat.lt_or_gt_of_ne hne with hlt | hgt
      · have := Nat.mul_le_mul_right pageSize (show q.toNat + 1 ≤ p.toNat from hlt)
        rw [Nat.add_mul] at this
        omega
      · have := Nat.mul_le_mul_right pageSize (show p.toNat + 1 ≤ q.toNat from hgt)
        omega
    rw [if_pos (by omega), hqp, Nat.add_sub_cancel_left]
  · next hb =>
    rw [if_neg]
    rintro rfl
    refine hb ⟨Nat.le_add_right .., ?_⟩
    rw [Nat.add_mul]
    omega

namespace BufferPool

variable {pool : BufferPool}

/-! ## What a page shows -/

/-- What a pin of the page shows. -/
def view (pool : BufferPool) (pid : Int) : PageBuffer :=
  match pool.findSlot pid with
  | some idx => (pool.slot idx).page
  | none => pool.file.readPage pool.pageSize pid

/-- What the file holds of the page once the dirty slots are written. -/
def stored (pool : BufferPool) (pid : Int) : PageBuffer :=
  match pool.findSlot pid with
  | some idx =>
    if (pool.slot idx).dirty then (pool.slot idx).page
    else pool.file.readPage pool.pageSize pid
  | none => pool.file.readPage pool.pageSize pid

/-- No page is in two slots. -/
def OneSlot (pool : BufferPool) : Prop :=
  ∀ p i j, Holder pool.slots p i → Holder pool.slots p j → i = j

theorem OneSlot.findSlot_eq_some (h : pool.OneSlot) :
    pool.findSlot p = some i ↔ Holder pool.slots p i := by
  rw [BufferPool.findSlot_eq_some]
  refine ⟨And.left, fun hi => ⟨hi, fun j hj hh => ?_⟩⟩
  have := h p i j hi hh
  omega

/-- Slots that hold the same pages are found the same. -/
theorem findSlot_congr {pool' : BufferPool}
    (h : ∀ p i, Holder pool'.slots p i ↔ Holder pool.slots p i) (p : Int) :
    pool'.findSlot p = pool.findSlot p := by
  have hi (i : Nat) : pool'.findSlot p = some i ↔ pool.findSlot p = some i := by
    simp only [BufferPool.findSlot_eq_some, h]
  cases hf : pool.findSlot p with
  | none =>
    rw [findSlot_eq_none] at hf ⊢
    exact fun i hh => hf i ((h p i).mp hh)
  | some i => exact (hi i).mpr hf

theorem holder_slot (h : Holder pool.slots p i) :
    (pool.slot i).loaded = true ∧ (pool.slot i).pageId = p := by
  obtain ⟨slot, hs, hh⟩ := h
  rw [slot_eq hs]
  exact Slot.holds_iff.mp hh

theorem holder_of_slot (h : (pool.slot i).loaded = true) :
    Holder pool.slots (pool.slot i).pageId i := by
  cases hs : pool.slots[i]? with
  | none =>
    rw [slot, List.getD_eq_getElem?_getD, hs] at h
    cases h
  | some slot =>
    rw [slot_eq hs] at h ⊢
    exact ⟨slot, hs, Slot.holds_iff.mpr ⟨h, rfl⟩⟩

theorem slot_setSlot (hi : i < pool.slots.length) (new : Slot) :
    (pool.setSlot i new).slot j = if j = i then new else pool.slot j := by
  simp only [slot, setSlot, List.getD_eq_getElem?_getD, List.getElem?_set]
  by_cases hij : i = j
  · subst hij
    simp [hi]
  · have : ¬ j = i := fun e => hij e.symm
    simp [hij, this]

theorem OneSlot.view_of_holder (h : pool.OneSlot) (hi : Holder pool.slots p i) :
    pool.view p = (pool.slot i).page := by
  rw [view, h.findSlot_eq_some.mpr hi]

theorem OneSlot.stored_of_holder (h : pool.OneSlot) (hi : Holder pool.slots p i) :
    pool.stored p = if (pool.slot i).dirty then (pool.slot i).page
      else pool.file.readPage pool.pageSize p := by
  rw [stored, h.findSlot_eq_some.mpr hi]

theorem view_of_none (h : ∀ i, ¬ Holder pool.slots p i) :
    pool.view p = pool.file.readPage pool.pageSize p := by
  rw [view, findSlot_eq_none.mpr h]

/-- A dirty slot has a page of the file. -/
def Placed (pool : BufferPool) (i : Nat) : Prop :=
  (pool.slot i).dirty = true → (pool.slot i).loaded = true ∧ 0 ≤ (pool.slot i).pageId

@[simp] theorem writeBack_pageSize : (pool.writeBack i).pageSize = pool.pageSize := by
  rw [writeBack]; split <;> rfl

@[simp] theorem refill_pageSize : (pool.refill v pid page).pageSize = pool.pageSize := by
  simp [refill, setSlot]

theorem refill_file : (pool.refill v pid page).file = (pool.writeBack v).file := rfl

/-- The page size stays, and the file goes on to end with a whole page. -/
structure Keeps (pool pool' : BufferPool) : Prop where
  pageSize : pool'.pageSize = pool.pageSize
  paged : pool.file.Paged pool.pageSize → pool'.file.Paged pool.pageSize

theorem Keeps.refl : pool.Keeps pool := ⟨rfl, id⟩

theorem Keeps.trans {pool' pool'' : BufferPool} (h : pool.Keeps pool') (h' : pool'.Keeps pool'') :
    pool.Keeps pool'' := by
  refine ⟨h'.pageSize.trans h.pageSize, fun hw => ?_⟩
  have := h'.paged (h.pageSize.symm ▸ h.paged hw)
  rwa [h.pageSize] at this

/-- What does not write to the file keeps it. -/
theorem Keeps.of_file {pool' : BufferPool} (hps : pool'.pageSize = pool.pageSize)
    (hfile : pool'.file = pool.file) : pool.Keeps pool' := ⟨hps, fun hw => hfile ▸ hw⟩

theorem Keeps.writeBack : pool.Keeps (pool.writeBack v) := by
  refine ⟨writeBack_pageSize, fun hw => ?_⟩
  rw [BufferPool.writeBack]
  split
  · exact hw.writePage
  · exact hw

theorem Keeps.refill : pool.Keeps (pool.refill v pid page) :=
  Keeps.writeBack.trans (.of_file rfl rfl)

theorem writeBack_readPage (hw : pool.file.Paged pool.pageSize) (hv : pool.Placed v) (hq : 0 ≤ q)
    (hk : k < pool.pageSize) :
    (pool.writeBack v).file.readPage pool.pageSize q k =
      if (pool.slot v).dirty = true ∧ q = (pool.slot v).pageId then (pool.slot v).page k
      else pool.file.readPage pool.pageSize q k := by
  rw [writeBack]
  split
  · next hd =>
    rw [hw.readPage_writePage (hv hd).2 hq hk]
    simp only [hd, true_and]
  · next hd => rw [if_neg fun hc => hd hc.1]

/-- A page that is not cached is not written. -/
theorem writeBack_readPage_of_none (hw : pool.file.Paged pool.pageSize) (hv : pool.Placed v)
    (hq : 0 ≤ q) (hk : k < pool.pageSize) (hno : ¬ Holder pool.slots q v) :
    (pool.writeBack v).file.readPage pool.pageSize q k = pool.file.readPage pool.pageSize q k := by
  rw [writeBack_readPage hw hv hq hk, if_neg]
  rintro ⟨hd, rfl⟩
  exact hno (holder_of_slot (hv hd).1)

theorem holder_refill (hv : v < pool.slots.length) :
    Holder (pool.refill v pid page).slots p i ↔ if i = v then pid = p else Holder pool.slots p i := by
  rw [refill_slots, holder_set hv]
  simp [Slot.holds]

theorem refill_slot (hv : v < pool.slots.length) (hi : i ≠ v) :
    (pool.refill v pid page).slot i = pool.slot i := by
  simp only [refill]
  show ((pool.writeBack v).setSlot v _).slot i = _
  rw [slot_setSlot (by simpa using hv), if_neg hi, writeBack_slot]

theorem OneSlot.refill (h : pool.OneSlot) (hv : v < pool.slots.length)
    (hp : ∀ i, Holder pool.slots pid i → i = v) : (pool.refill v pid page).OneSlot := by
  intro q i j hi hj
  rw [holder_refill hv] at hi hj
  split at hi
  · next hiv =>
    split at hj
    · omega
    · subst hi
      have := hp j hj
      omega
  · split at hj
    · subst hj
      have := hp i hi
      omega
    · exact h q i j hi hj

theorem refill_view_self (h : pool.OneSlot) (hv : v < pool.slots.length)
    (hp : ∀ i, Holder pool.slots pid i → i = v) : (pool.refill v pid page).view pid = page := by
  have hh : Holder (pool.refill v pid page).slots pid v := by
    rw [holder_refill hv, if_pos rfl]
  rw [(h.refill hv hp).view_of_holder hh]
  have hv' : v < (pool.writeBack v).slots.length := by simpa using hv
  show (((pool.writeBack v).setSlot v _).slot v).page = _
  rw [slot_setSlot hv', if_pos rfl]

/-- The page in the victim's slot shows what the file holds then. -/
theorem refill_view_victim (h : pool.OneSlot) (hw : pool.file.Paged pool.pageSize)
    (hplaced : pool.Placed v) (hv : v < pool.slots.length) (hne : p ≠ pid) (hq : 0 ≤ p)
    (hp : Holder pool.slots p v) (hk : k < pool.pageSize) :
    (pool.refill v pid page).view p k = pool.stored p k := by
  have hno (i : Nat) : ¬ Holder (pool.refill v pid page).slots p i := by
    intro hi
    rw [holder_refill hv] at hi
    split at hi
    · exact hne hi.symm
    · next hiv => exact hiv (h p i v hi hp)
  rw [view_of_none hno, refill_pageSize, refill_file, writeBack_readPage hw hplaced hq hk,
    h.stored_of_holder hp, (holder_slot hp).2]
  cases (pool.slot v).dirty <;> simp

theorem refill_view_other (h : pool.OneSlot) (hw : pool.file.Paged pool.pageSize)
    (hplaced : pool.Placed v) (hv : v < pool.slots.length)
    (hpid : ∀ i, Holder pool.slots pid i → i = v) (hne : p ≠ pid) (hq : 0 ≤ p)
    (hp : ¬ Holder pool.slots p v) (hk : k < pool.pageSize) :
    (pool.refill v pid page).view p k = pool.view p k := by
  by_cases hc : ∃ i, Holder pool.slots p i
  · obtain ⟨i, hi⟩ := hc
    have hiv : i ≠ v := fun e => hp (e ▸ hi)
    have hi' : Holder (pool.refill v pid page).slots p i := by
      rw [holder_refill hv, if_neg hiv]
      exact hi
    rw [(h.refill hv hpid).view_of_holder hi', h.view_of_holder hi, refill_slot hv hiv]
  · have hc : ∀ i, ¬ Holder pool.slots p i := not_exists.mp hc
    have hno (i : Nat) : ¬ Holder (pool.refill v pid page).slots p i := by
      rw [holder_refill hv]
      split
      · exact hne.symm
      · exact hc i
    rw [view_of_none hno, view_of_none hc, refill_pageSize, refill_file,
      writeBack_readPage_of_none hw hplaced hq hk hp]

/-- Slots that keep their pages, on a file that keeps the pages that are not cached, show the
same. -/
theorem view_congr {pool' : BufferPool} (hu : pool.OneSlot)
    (hh : ∀ p i, Holder pool'.slots p i ↔ Holder pool.slots p i)
    (hpage : ∀ i, Holder pool.slots p i → (pool'.slot i).page = (pool.slot i).page)
    (hfile : (∀ i, ¬ Holder pool.slots p i) →
      pool'.file.readPage pool'.pageSize p k = pool.file.readPage pool.pageSize p k) :
    pool'.view p k = pool.view p k := by
  rw [view, view, findSlot_congr hh]
  cases hf : pool.findSlot p with
  | none => exact hfile (findSlot_eq_none.mp hf)
  | some i => exact congrFun (hpage i (hu.findSlot_eq_some.mp hf)) k

theorem OneSlot.congr {pool' : BufferPool} (hu : pool.OneSlot)
    (hh : ∀ p i, Holder pool'.slots p i ↔ Holder pool.slots p i) : pool'.OneSlot :=
  fun p i j hi hj => hu p i j ((hh p i).mp hi) ((hh p j).mp hj)

end BufferPool

namespace PoolSession

open BufferPool

variable {s : PoolSession} {op : PoolOp}

/-- No page is in two slots, and the pages in use show their last bytes. -/
structure Coherent (s : PoolSession) : Prop where
  unique : s.pool.OneSlot
  view : ∀ p ∈ s.owned, ∀ k < s.pool.pageSize, s.pool.view p k = s.contents p k

/-- The slot can go: a page in use is dirty there, or the file has the same bytes. -/
def Saved (s : PoolSession) (i : Nat) : Prop :=
  (s.pool.slot i).loaded = true → (s.pool.slot i).pageId ∈ s.owned →
    (s.pool.slot i).dirty = false →
    ∀ k < s.pool.pageSize,
      (s.pool.slot i).page k = s.pool.file.readPage s.pool.pageSize (s.pool.slot i).pageId k

/-- A page from the free list goes to the slot it is in, if it is in one, and a slot that is
refilled, or at a reopening any slot, can go. -/
def Settles (s : PoolSession) : PoolOp → Prop
  | .allocate => ∀ v, s.pool.findEvictionCandidate = some v →
      (0 ≤ s.pool.freeListHead → ∀ i, s.pool.findSlot s.pool.freeListHead = some i → i = v) ∧
        (0 ≤ s.pool.freeListHead ∨ 0 ≤ s.pool.nextPage → s.Saved v)
  | .pin pid | .free pid => s.pool.findSlot pid = none →
      ∀ v, s.pool.findEvictionCandidate = some v → s.Saved v
  | .reopen _ => ∀ i, s.Saved i
  | _ => True

/-- The session after the first half of `garry_pool_free_page`. -/
def drop (s : PoolSession) (pid : Int) : PoolSession :=
  { s with
    pool := s.pool.dropPage pid
    owned := s.owned.erase pid
    pins := s.pins.filter fun p => p.1 ≠ pid }

/-- Stores through a buffer come with the mark of its page. -/
def Marks : PoolOp → Prop
  | .write .. => False
  | _ => True

theorem coherent_iff {s' : PoolSession} (howned : s'.owned = s.owned)
    (hcont : ∀ p ∈ s.owned, s'.contents p = s.contents p)
    (hps : s'.pool.pageSize = s.pool.pageSize)
    (hh : ∀ p i, Holder s'.pool.slots p i ↔ Holder s.pool.slots p i)
    (hpage : ∀ p ∈ s.owned, ∀ i, Holder s.pool.slots p i →
      (s'.pool.slot i).page = (s.pool.slot i).page)
    (hfile : ∀ p ∈ s.owned, (∀ i, ¬ Holder s.pool.slots p i) → ∀ k < s.pool.pageSize,
      s'.pool.file.readPage s.pool.pageSize p k = s.pool.file.readPage s.pool.pageSize p k) :
    s'.Coherent ↔ s.Coherent := by
  have hview (hu : s.pool.OneSlot) (p : Int) (hp : p ∈ s.owned) (k : Nat)
      (hk : k < s.pool.pageSize) : s'.pool.view p k = s.pool.view p k :=
    view_congr hu hh (hpage p hp) fun hno => by rw [hps]; exact hfile p hp hno k hk
  constructor
  · intro hc
    have hu : s.pool.OneSlot := hc.unique.congr fun p i => (hh p i).symm
    refine ⟨hu, fun p hp k hk => ?_⟩
    rw [← hview hu p hp k hk, ← hcont p hp]
    exact hc.view p (howned ▸ hp) k (hps ▸ hk)
  · intro hc
    refine ⟨hc.unique.congr hh, fun p hp k hk => ?_⟩
    rw [howned] at hp
    rw [hps] at hk
    rw [hview hc.unique p hp k hk, hcont p hp]
    exact hc.view p hp k hk

/-- A change of the flags and counters of a slot. -/
theorem coherent_flags {s' : PoolSession} {old : Slot} (new : Slot)
    (hold : s.pool.slots[v]? = some old) (hslots : s'.pool.slots = s.pool.slots.set v new)
    (howned : s'.owned = s.owned) (hcont : s'.contents = s.contents)
    (hps : s'.pool.pageSize = s.pool.pageSize) (hload : new.loaded = old.loaded)
    (hid : new.pageId = old.pageId) (hpage : new.page = old.page)
    (hfile : ∀ p ∈ s.owned, (∀ i, ¬ Holder s.pool.slots p i) → ∀ k < s.pool.pageSize,
      s'.pool.file.readPage s.pool.pageSize p k = s.pool.file.readPage s.pool.pageSize p k) :
    s'.Coherent ↔ s.Coherent := by
  have hv := (List.getElem?_eq_some_iff.mp hold).1
  refine coherent_iff howned (fun p _ => congrFun hcont p) hps (fun p i => ?_) (fun p _ i _ => ?_) hfile
  · rw [hslots, holder_set hv]
    split
    · next hi =>
      subst hi
      rw [Slot.holds, hload, hid]
      exact (holder_at hold).symm
    · rfl
  · by_cases hvi : i = v
    · subst hvi
      have hnew : s'.pool.slots[i]? = some new := by rw [hslots, List.getElem?_set_self hv]
      rw [slot_eq hnew, slot_eq hold, hpage]
    · rw [BufferPool.slot, BufferPool.slot, List.getD_eq_getElem?_getD, hslots,
        List.getElem?_set_ne fun e => hvi e.symm, List.getD_eq_getElem?_getD]

end PoolSession

open BufferPool

variable {s : PoolSession} {full : Prop}

theorem PoolInv.placed (h : PoolInv full s) (i : Nat) : s.pool.Placed i := by
  intro hd
  have hl : (s.pool.slot i).loaded = true := by
    cases hs : s.pool.slots[i]? with
    | none =>
      rw [BufferPool.slot, List.getD_eq_getElem?_getD, hs] at hd
      cases hd
    | some slot =>
      rw [slot_eq hs] at hd ⊢
      by_contra hl
      rw [h.clean hs (by simpa using hl)] at hd
      cases hd
  exact ⟨hl, (h.loaded (holder_of_slot hl)).1⟩

namespace PoolSession.Coherent

/-- A page that is in no other slot than the victim's takes that slot. -/
theorem refill (hc : s.Coherent) (h : PoolInv full s) (hw : s.pool.file.Paged s.pool.pageSize)
    (hv : s.pool.findEvictionCandidate = some v) {pool : BufferPool} {s' : PoolSession}
    (hslots : pool.slots = s.pool.slots) (hfile : pool.file = s.pool.file)
    (hps : pool.pageSize = s.pool.pageSize) (hpool : s'.pool = pool.refill v pid page)
    (hpid : ∀ i, Holder s.pool.slots pid i → i = v)
    (hvic : Holder s.pool.slots pid v → pid ∉ s.owned)
    (howned : ∀ p, p ≠ pid → (p ∈ s'.owned ↔ p ∈ s.owned))
    (hcont : ∀ p, p ≠ pid → s'.contents p = s.contents p)
    (hnew : pid ∈ s'.owned → ∀ k < s.pool.pageSize, page k = s'.contents pid k) :
    s'.Coherent ↔ s.Saved v := by
  have hslot (i : Nat) : pool.slot i = s.pool.slot i := by rw [BufferPool.slot, hslots]; rfl
  have hu : pool.OneSlot := by
    rw [OneSlot, hslots]
    exact hc.unique
  have hvl : v < pool.slots.length := hslots ▸ (h.victim_unpinned hv).1
  have hplaced : pool.Placed v := by
    rw [Placed, hslot]
    exact h.placed v
  have hview (p : Int) : pool.view p = s.pool.view p := by
    simp only [BufferPool.view, findSlot, hslot, hslots, hfile, hps]
  have hw' : pool.file.Paged pool.pageSize := by rw [hfile, hps]; exact hw
  have hpid' : ∀ i, Holder pool.slots pid i → i = v := by rw [hslots]; exact hpid
  have hps' : s'.pool.pageSize = s.pool.pageSize := by rw [hpool, refill_pageSize, hps]
  constructor
  · intro hc' hl ho hd k hk
    have hh : Holder pool.slots (s.pool.slot v).pageId v := by
      rw [hslots]
      exact holder_of_slot hl
    have hne : (s.pool.slot v).pageId ≠ pid := by
      rintro rfl
      exact hvic (hslots ▸ hh) ho
    have h1 := hc'.view _ ((howned _ hne).mpr ho) k (hps' ▸ hk)
    have h2 := hc.view _ ho k hk
    rw [hpool, refill_view_victim hu hw' hplaced hvl hne (h.range _ (.inl ho)).1 hh (hps ▸ hk),
      hu.stored_of_holder hh, hslot, hd, hcont _ hne] at h1
    rw [← hview, hu.view_of_holder hh, hslot] at h2
    rw [h2, ← h1, hfile, hps]
    rfl
  · intro hs
    refine ⟨?_, fun p hp k hk => ?_⟩
    · rw [hpool]
      exact hu.refill hvl hpid'
    · rw [hps'] at hk
      by_cases hne : p = pid
      · subst hne
        rw [hpool, refill_view_self hu hvl hpid']
        exact hnew hp k hk
      · have ho := (howned p hne).mp hp
        have hq := (h.range p (.inl ho)).1
        rw [hcont p hne, ← hc.view p ho k hk, hpool]
        by_cases hh : Holder pool.slots p v
        · rw [refill_view_victim hu hw' hplaced hvl hne hq hh (hps ▸ hk), hu.stored_of_holder hh,
            ← hview, hu.view_of_holder hh, hslot]
          obtain ⟨hl, rfl⟩ := holder_slot hh
          rw [hslot] at hl ho ⊢
          cases hd : (s.pool.slot v).dirty with
          | true => rfl
          | false =>
            rw [hfile, hps]
            exact (hs hl ho hd k hk).symm
        · rw [refill_view_other hu hw' hplaced hvl hpid' hne hq hh (hps ▸ hk), hview]

end PoolSession.Coherent

namespace BufferPool

variable {pool : BufferPool}

/-! ## The file through the calls -/

theorem Keeps.ensureLoaded (he : pool.ensureLoaded pid = some (idx, pool')) : pool.Keeps pool' := by
  rw [BufferPool.ensureLoaded] at he
  split at he
  · obtain ⟨-, rfl⟩ := Prod.mk.inj (Option.some.inj he)
    exact .refl
  · split at he
    · cases he
    · obtain ⟨-, rfl⟩ := Prod.mk.inj (Option.some.inj he)
      exact .refill

theorem Keeps.pinned {s : PoolSession} {r : Option (Nat × BufferPool)}
    (hr : ∀ idx pool, r = some (idx, pool) → s.pool.Keeps pool) : s.pool.Keeps (s.pinned pid r).pool := by
  cases r with
  | none => exact .refl
  | some r => exact hr r.1 r.2 rfl

theorem Keeps.markDirty : pool.Keeps (pool.markDirty pid) := by
  rw [BufferPool.markDirty]
  split
  · exact .refl
  split
  · exact .refl
  · exact .of_file rfl rfl

theorem Keeps.releasePage : pool.Keeps (pool.releasePage pid) := by
  rw [BufferPool.releasePage]
  split
  · exact .refl
  split
  · exact .refl
  split
  · exact .of_file rfl rfl
  · exact .refl

theorem Keeps.flushSlot : pool.Keeps (pool.flushSlot idx) := by
  rw [BufferPool.flushSlot]
  split
  · exact Keeps.writeBack.trans (.of_file rfl rfl)
  · exact .refl

theorem Keeps.flushPage : pool.Keeps (pool.flushPage pid) := by
  rw [BufferPool.flushPage]
  split
  · exact .refl
  split
  · exact .refl
  · exact .flushSlot

theorem Keeps.flushAll : pool.Keeps pool.flushAll := by
  rw [BufferPool.flushAll]
  generalize List.range pool.slots.length = is
  induction is generalizing pool with
  | nil => exact .refl
  | cons i is ih => exact Keeps.flushSlot.trans ih

theorem Keeps.dropPage : pool.Keeps (pool.dropPage pid) := by
  rw [BufferPool.dropPage]
  split
  · exact .refl
  · exact Keeps.writeBack.trans (.of_file rfl rfl)

theorem Keeps.freePage : pool.Keeps (pool.freePage pid) := by
  rw [BufferPool.freePage]
  split
  · exact .refl
  simp only
  split
  · next he => exact Keeps.dropPage.trans ((Keeps.ensureLoaded he).trans (.of_file rfl rfl))
  · exact Keeps.dropPage.trans (.of_file rfl rfl)

theorem Keeps.allocate (he : pool.allocate = (pid, pool')) : pool.Keeps pool' := by
  rcases allocate_cases he with ⟨-, -, -, rfl⟩ | ⟨-, -, -, rfl⟩ | ⟨v, -, -, -, rfl⟩ |
    ⟨v, -, -, -, -, rfl⟩
  · exact .of_file rfl rfl
  · exact .refl
  · refine Keeps.trans ?_ .refill
    exact .of_file rfl rfl
  · refine Keeps.trans ?_ .refill
    exact .of_file rfl rfl

end BufferPool

theorem PoolSession.keeps (op : PoolOp) : s.pool.Keeps (s.step op).pool := by
  cases op with
  | allocate =>
    cases he : s.pool.allocate with
    | mk pid pool =>
      simp only [PoolSession.step, he]
      split <;> exact .allocate he
  | pin pid =>
    refine .pinned fun idx pool hr => ?_
    rw [pinPage] at hr
    split at hr
    · cases hr
    · obtain ⟨⟨idx', pool'⟩, he, hr⟩ := Option.map_eq_some_iff.mp hr
      obtain ⟨-, rfl⟩ := Prod.mk.inj hr
      exact (Keeps.ensureLoaded he).trans (.of_file rfl rfl)
  | tryPin pid =>
    refine .pinned fun idx pool hr => ?_
    rw [tryPin] at hr
    split at hr
    · cases hr
    · obtain ⟨idx', -, hr⟩ := Option.map_eq_some_iff.mp hr
      obtain ⟨-, rfl⟩ := Prod.mk.inj hr
      exact .of_file rfl rfl
  | write pid idx page => exact .of_file rfl rfl
  | markDirty pid => exact .markDirty
  | update pid idx page =>
    refine Keeps.trans ?_ .markDirty
    exact .of_file rfl rfl
  | release pid => exact .releasePage
  | flush pid => exact .flushPage
  | flushAll => exact .flushAll
  | free pid => exact .freePage
  | reopen capacity =>
    exact ⟨rfl, fun hw => Keeps.flushAll.paged hw⟩

namespace PoolSession.Coherent

/-! ## Coherence through the calls -/

theorem flags (hc : s.Coherent) {s' : PoolSession} {old : Slot} (new : Slot)
    (hold : s.pool.slots[v]? = some old) (hslots : s'.pool.slots = s.pool.slots.set v new)
    (howned : s'.owned = s.owned) (hcont : s'.contents = s.contents)
    (hps : s'.pool.pageSize = s.pool.pageSize) (hload : new.loaded = old.loaded)
    (hid : new.pageId = old.pageId) (hpage : new.page = old.page)
    (hfile : ∀ p ∈ s.owned, (∀ i, ¬ Holder s.pool.slots p i) → ∀ k < s.pool.pageSize,
      s'.pool.file.readPage s.pool.pageSize p k = s.pool.file.readPage s.pool.pageSize p k) :
    s'.Coherent :=
  (coherent_flags new hold hslots howned hcont hps hload hid hpage hfile).mpr hc

theorem pinSlot_iff (hf : s.pool.findSlot pid = some idx) :
    ({ s with pool := s.pool.pinSlot idx, pins := (pid, idx) :: s.pins } : PoolSession).Coherent ↔
      s.Coherent := by
  obtain ⟨slot, hs, -⟩ := (findSlot_eq_some.mp hf).1
  refine coherent_flags ({ slot with
    pinCount := slot.pinCount + 1
    lastAccess := s.pool.nextAccess }) hs ?_ rfl rfl rfl rfl rfl rfl fun _ _ _ _ _ => rfl
  simp [BufferPool.pinSlot, BufferPool.setSlot, slot_eq hs]

theorem markDirty (hc : s.Coherent) : (s.step (.markDirty pid)).Coherent := by
  simp only [PoolSession.step, BufferPool.markDirty]
  split
  · exact hc
  split
  · exact hc
  · next idx hf =>
    obtain ⟨slot, hs, -⟩ := (findSlot_eq_some.mp hf).1
    refine hc.flags ({ slot with dirty := true }) hs ?_ rfl rfl rfl rfl rfl rfl fun _ _ _ _ _ => rfl
    simp [BufferPool.setSlot, slot_eq hs]

theorem releasePage (hc : s.Coherent) : (s.step (.release pid)).Coherent := by
  have hpins {pins : List (Int × Nat)} : ({ s with pins := pins } : PoolSession).Coherent :=
    ⟨hc.unique, hc.view⟩
  simp only [PoolSession.step, BufferPool.releasePage]
  split
  · exact hpins
  split
  · exact hpins
  · next idx hf =>
    split
    · obtain ⟨slot, hs, -⟩ := (findSlot_eq_some.mp hf).1
      refine hc.flags ({ slot with pinCount := slot.pinCount - 1 }) hs ?_ rfl rfl rfl rfl rfl rfl
        fun _ _ _ _ _ => rfl
      simp [BufferPool.setSlot, slot_eq hs]
    · exact hpins

theorem flushSlot (hc : s.Coherent) (h : PoolInv full s) (hw : s.pool.file.Paged s.pool.pageSize)
    (idx : Nat) : ({ s with pool := s.pool.flushSlot idx } : PoolSession).Coherent := by
  rw [BufferPool.flushSlot]
  split
  · next hd =>
    cases hs : s.pool.slots[idx]? with
    | none =>
      rw [BufferPool.slot, List.getD_eq_getElem?_getD, hs] at hd
      cases hd.1
    | some slot =>
      refine hc.flags ({ slot with dirty := false }) hs ?_ rfl rfl ?_ rfl rfl rfl ?_
      · simp [BufferPool.setSlot, slot_eq hs]
      · simp [BufferPool.setSlot]
      · intro p hp hno k hk
        exact writeBack_readPage_of_none hw (h.placed idx) (h.range p (.inl hp)).1 hk (hno idx)
  · exact hc

theorem flushAll (hc : s.Coherent) (h : PoolInv full s) (hw : s.pool.file.Paged s.pool.pageSize) :
    ({ s with pool := s.pool.flushAll } : PoolSession).Coherent := by
  rw [BufferPool.flushAll]
  generalize List.range s.pool.slots.length = is
  induction is generalizing s with
  | nil => exact hc
  | cons i is ih =>
    refine ih (s := { s with pool := s.pool.flushSlot i }) (hc.flushSlot h hw i) (h.flushSlot i) ?_
    have hk : s.pool.Keeps (s.pool.flushSlot i) := .flushSlot
    show (s.pool.flushSlot i).file.Paged (s.pool.flushSlot i).pageSize
    rw [hk.pageSize]
    exact hk.paged hw

theorem storePage (hc : s.Coherent) (h : PoolInv full s) (hp : (pid, idx) ∈ s.pins)
    (page : PageBuffer) : ({ s with
      pool := s.pool.storePage idx page
      contents := Function.update s.contents pid page } : PoolSession).Coherent := by
  obtain ⟨slot, hs, hh⟩ := h.holder hp
  have hi := (List.getElem?_eq_some_iff.mp hs).1
  have hholder (p : Int) (i : Nat) :
      Holder (s.pool.storePage idx page).slots p i ↔ Holder s.pool.slots p i := by
    rw [BufferPool.storePage, BufferPool.setSlot, holder_set hi, slot_eq hs]
    split
    · next hii =>
      subst hii
      exact (holder_at hs).symm
    · rfl
  refine ⟨hc.unique.congr hholder, fun p hp' k hk => ?_⟩
  by_cases hne : p = pid
  · subst hne
    simp only [Function.update_self]
    rw [(hc.unique.congr hholder).view_of_holder ((hholder p idx).mpr ⟨slot, hs, hh⟩),
      BufferPool.storePage, slot_setSlot hi, if_pos rfl]
  · simp only [Function.update_of_ne hne]
    rw [view_congr hc.unique hholder (fun i hip => ?_) fun _ => rfl]
    · exact hc.view p hp' k hk
    · rw [BufferPool.storePage, slot_setSlot hi, if_neg]
      rintro rfl
      have := (holder_slot hip).2
      rw [slot_eq hs] at this
      exact hne (this.symm.trans (Slot.holds_iff.mp hh).2)

end PoolSession.Coherent

namespace BufferPool

variable {pool : BufferPool}

/-! ## Writing all slots -/

theorem slot_of_length_le (h : pool.slots.length ≤ i) : pool.slot i = Slot.unused := by
  rw [slot, List.getD_eq_getElem?_getD, List.getElem?_eq_none h]
  rfl

theorem flushSlot_slot : (pool.flushSlot i).slot j =
    if j = i ∧ (pool.slot i).loaded ∧ (pool.slot i).dirty then { pool.slot i with dirty := false }
    else pool.slot j := by
  rw [flushSlot]
  by_cases hd : (pool.slot i).loaded = true ∧ (pool.slot i).dirty = true
  · have hi : i < (pool.writeBack i).slots.length := by
      rw [writeBack_slots]
      by_contra hc
      rw [slot_of_length_le (by omega)] at hd
      cases hd.1
    rw [if_pos hd, slot_setSlot hi]
    simp [hd]
  · rw [if_neg hd, if_neg fun hc => hd hc.2]

theorem flushSlot_holder :
    Holder (pool.flushSlot i).slots p j ↔ Holder pool.slots p j := by
  have hiff (q : BufferPool) : Holder q.slots p j ↔
      (q.slot j).loaded = true ∧ (q.slot j).pageId = p :=
    ⟨holder_slot, fun hh => hh.2 ▸ holder_of_slot hh.1⟩
  rw [hiff, hiff, flushSlot_slot]
  split
  · next hj => rw [hj.1]
  · rfl

theorem flushSlot_stored (hu : pool.OneSlot) (hw : pool.file.Paged pool.pageSize)
    (hplaced : pool.Placed i) (hp : 0 ≤ p) (hk : k < pool.pageSize) :
    (pool.flushSlot i).stored p k = pool.stored p k := by
  have hkeep : pool.Keeps (pool.flushSlot i) := .flushSlot
  have hfile (hno : ¬ Holder pool.slots p i) :
      (pool.flushSlot i).file.readPage pool.pageSize p k =
        pool.file.readPage pool.pageSize p k := by
    rw [flushSlot]
    split
    · exact writeBack_readPage_of_none hw hplaced hp hk hno
    · rfl
  rw [stored, stored, findSlot_congr fun _ _ => flushSlot_holder, hkeep.pageSize]
  cases hf : pool.findSlot p with
  | none => exact hfile fun hh => findSlot_eq_none.mp hf i hh
  | some j =>
    have hj := hu.findSlot_eq_some.mp hf
    simp only [flushSlot_slot]
    by_cases hji : j = i
    · subst hji
      obtain ⟨hl, rfl⟩ := holder_slot hj
      by_cases hd : (pool.slot j).dirty = true
      · have hwrite : (pool.flushSlot j).file = (pool.writeBack j).file := by
          rw [flushSlot, if_pos ⟨hl, hd⟩]
          rfl
        simp [hl, hd, hwrite, writeBack_readPage hw hplaced hp hk]
      · have hsame : pool.flushSlot j = pool := by
          rw [flushSlot, if_neg fun hc => hd hc.2]
        simp [hd, hsame]
    · have hno : ¬ Holder pool.slots p i := fun hh => hji (hu p j i hj hh)
      simp only [hji, false_and, if_false]
      split
      · rfl
      · exact hfile hno

theorem stored_of_clean (h : ∀ i, (pool.slot i).dirty = false) :
    pool.stored p = pool.file.readPage pool.pageSize p := by
  rw [stored]
  split
  · rw [h]
    rfl
  · rfl

/-- The slots that are flushed are clean at the end. -/
theorem flushSlots_clean (hplaced : ∀ i, pool.Placed i) (is : List Nat)
    (hd : ((is.foldl flushSlot pool).slot j).dirty = true) :
    (pool.slot j).dirty = true ∧ j ∉ is := by
  induction is generalizing pool with
  | nil => exact ⟨hd, List.not_mem_nil⟩
  | cons i is ih =>
    have hplaced' (i' : Nat) : (pool.flushSlot i).Placed i' := by
      intro hd'
      rw [flushSlot_slot] at hd' ⊢
      split at hd'
      · cases hd'
      · next hc =>
        rw [if_neg hc]
        exact hplaced i' hd'
    obtain ⟨hd1, hj⟩ := ih hplaced' hd
    rw [flushSlot_slot] at hd1
    split at hd1
    · cases hd1
    · next hc =>
      refine ⟨hd1, fun hm => ?_⟩
      rcases List.mem_cons.mp hm with rfl | hm
      · exact hc ⟨rfl, (hplaced j hd1).1, hd1⟩
      · exact hj hm

theorem flushAll_clean (hplaced : ∀ i, pool.Placed i) (j : Nat) :
    (pool.flushAll.slot j).dirty = false := by
  by_contra hd
  rw [Bool.not_eq_false, flushAll] at hd
  obtain ⟨hd, hj⟩ := flushSlots_clean hplaced _ hd
  rw [List.mem_range] at hj
  rw [slot_of_length_le (by omega)] at hd
  cases hd

/-- A slot that is not loaded is taken before any other. -/
theorem evict_unloaded {i : Nat} {slot : Slot} (hs : pool.slots[i]? = some slot) (hl : slot.loaded = false)
    (hv : pool.findEvictionCandidate = some v) : (pool.slot v).loaded = false := by
  rw [findEvictionCandidate, Option.or_eq_some_iff] at hv
  rcases hv with hv | ⟨hv, -⟩
  · obtain ⟨hi, hp, -⟩ := List.findIdx?_eq_some_iff_getElem.mp hv
    rw [slot_eq (List.getElem?_eq_getElem hi)]
    simpa using hp
  · have := List.findIdx?_eq_none_iff.mp hv slot (List.mem_of_getElem? hs)
    rw [hl] at this
    cases this

end BufferPool

namespace PoolSession.Coherent

theorem flushAll_stored (hc : s.Coherent) (h : PoolInv full s)
    (hw : s.pool.file.Paged s.pool.pageSize) (hp : 0 ≤ p) (hk : k < s.pool.pageSize) :
    s.pool.flushAll.stored p k = s.pool.stored p k := by
  rw [BufferPool.flushAll]
  generalize List.range s.pool.slots.length = is
  induction is generalizing s with
  | nil => rfl
  | cons i is ih =>
    have hkeep : s.pool.Keeps (s.pool.flushSlot i) := .flushSlot
    have := ih (s := { s with pool := s.pool.flushSlot i }) (hc.flushSlot h hw i) (h.flushSlot i)
      (hkeep.pageSize.symm ▸ hkeep.paged hw) (hkeep.pageSize.symm ▸ hk)
    exact this.trans (flushSlot_stored hc.unique hw (h.placed i) hp hk)

/-- What the file holds after all slots are written. -/
theorem flushAll_readPage (hc : s.Coherent) (h : PoolInv full s)
    (hw : s.pool.file.Paged s.pool.pageSize) (hp : 0 ≤ p) (hk : k < s.pool.pageSize) :
    s.pool.flushAll.file.readPage s.pool.pageSize p k = s.pool.stored p k := by
  have hkeep : s.pool.Keeps s.pool.flushAll := .flushAll
  rw [← hc.flushAll_stored h hw hp hk, stored_of_clean (flushAll_clean h.placed), hkeep.pageSize]

/-- The file holds the pages in use after all slots are written, when and only when every slot can
go. -/
theorem flushAll_iff (hc : s.Coherent) (h : PoolInv full s)
    (hw : s.pool.file.Paged s.pool.pageSize) :
    (∀ p ∈ s.owned, ∀ k < s.pool.pageSize,
      s.pool.flushAll.file.readPage s.pool.pageSize p k = s.contents p k) ↔ ∀ i, s.Saved i := by
  constructor
  · intro hfile i hl ho hd k hk
    have hi := holder_of_slot hl
    have := hfile _ ho k hk
    rw [hc.flushAll_readPage h hw (h.range _ (.inl ho)).1 hk, hc.unique.stored_of_holder hi, hd,
      ← hc.view _ ho k hk, hc.unique.view_of_holder hi] at this
    exact this.symm
  · intro hs p hp k hk
    rw [hc.flushAll_readPage h hw (h.range _ (.inl hp)).1 hk, ← hc.view p hp k hk, stored,
      BufferPool.view]
    cases hf : s.pool.findSlot p with
    | none => rfl
    | some i =>
      obtain ⟨hl, rfl⟩ := holder_slot (hc.unique.findSlot_eq_some.mp hf)
      cases hd : (s.pool.slot i).dirty with
      | true => simp [hd]
      | false =>
        simp only [hd, Bool.false_eq_true, if_false]
        exact (hs i hl hp hd k hk).symm

theorem reopen_iff (hc : s.Coherent) (h : PoolInv full s) (hw : s.pool.file.Paged s.pool.pageSize) :
    (s.step (.reopen capacity)).Coherent ↔ ∀ i, s.Saved i := by
  have hno (p : Int) (i : Nat) : ¬ Holder (s.pool.reopen capacity).slots p i := by
    rintro ⟨slot, hs, hh⟩
    simp only [BufferPool.reopen, BufferPool.create] at hs
    rw [List.eq_of_mem_replicate (List.mem_of_getElem? hs)] at hh
    cases hh
  rw [← hc.flushAll_iff h hw]
  constructor
  · intro hc' p hp k hk
    have := hc'.view p hp k hk
    simp only [PoolSession.step, view_of_none (hno p)] at this
    exact this
  · intro hfile
    refine ⟨fun p i j hi => absurd hi (hno p i), fun p hp k hk => ?_⟩
    simp only [PoolSession.step, view_of_none (hno p)]
    exact hfile p hp k hk

theorem pinPage_iff (hc : s.Coherent) (h : PoolInv full s)
    (hw : s.pool.file.Paged s.pool.pageSize) (hp : pid ∈ s.owned) :
    (s.step (.pin pid)).Coherent ↔ s.Settles (.pin pid) := by
  have h0 := (h.range pid (.inl hp)).1
  simp only [PoolSession.step, PoolSession.Settles, BufferPool.pinPage, if_neg (show ¬ pid < 0 by omega),
    BufferPool.ensureLoaded]
  cases hf : s.pool.findSlot pid with
  | some idx =>
    constructor
    · intro _ hno
      cases hno
    · exact fun _ => (pinSlot_iff hf).mpr hc
  | none =>
    have hno := findSlot_eq_none.mp hf
    cases hv : s.pool.findEvictionCandidate with
    | none =>
      constructor
      · intro _ _ v hv
        cases hv
      · exact fun _ => hc
    | some v =>
      have hload : s.pool.ensureLoaded pid = some (v, s.pool.refill v pid
          ((s.pool.writeBack v).file.readPage s.pool.pageSize pid)) := by
        rw [BufferPool.ensureLoaded, hf]
        simp only [hv]
      have hfind := (h.ensureLoaded (h.range pid (.inl hp)) (h.disjoint pid hp) hload).2.1
      refine Iff.trans (pinSlot_iff (s := { s with pool := s.pool.refill v pid _ }) hfind) ?_
      refine Iff.trans (hc.refill h hw hv rfl rfl rfl rfl (fun i hi => absurd hi (hno i))
        (fun hh => absurd hh (hno v)) (fun _ _ => Iff.rfl) (fun _ _ => rfl) fun ho k hk => ?_) ?_
      · rw [writeBack_readPage_of_none hw (h.placed v) h0 hk (hno v), ← view_of_none hno]
        exact hc.view pid hp k hk
      · constructor
        · intro hs _ v' hv'
          exact Option.some.inj hv' ▸ hs
        · exact fun hs => hs rfl v rfl

/-- The old head of the free list goes into a page that is not in use. -/
theorem linkFree_iff (hu : s.pool.findSlot pid = some idx) (hp : pid ∉ s.owned) :
    ({ s with pool := { s.pool.linkFree idx with freeListHead := pid } } : PoolSession).Coherent ↔
      s.Coherent := by
  obtain ⟨slot, hs, hh⟩ := (findSlot_eq_some.mp hu).1
  have hi := (List.getElem?_eq_some_iff.mp hs).1
  refine coherent_iff rfl (fun _ _ => rfl) rfl (fun p i => ?_) (fun p hp' i hhi => ?_)
    fun _ _ _ _ _ => rfl
  · show Holder (s.pool.slots.set idx _) p i ↔ _
    rw [holder_set hi, slot_eq hs]
    split
    · next hii =>
      subst hii
      exact (holder_at hs).symm
    · rfl
  · show ((s.pool.setSlot idx _).slot i).page = _
    rw [slot_setSlot hi, if_neg]
    rintro rfl
    have := (holder_slot hhi).2
    rw [slot_eq hs, (Slot.holds_iff.mp hh).2] at this
    exact hp (this ▸ hp')

/-- A page leaves the pages in use and its slot. -/
theorem dropPage (hc : s.Coherent) (h : PoolInv full s) (hw : s.pool.file.Paged s.pool.pageSize)
    (pid : Int) : (s.drop pid).Coherent := by
  have hsub (p : Int) (hp : p ∈ s.owned.erase pid) : p ≠ pid ∧ p ∈ s.owned := Finset.mem_erase.mp hp
  rw [PoolSession.drop, BufferPool.dropPage]
  split
  · exact ⟨hc.unique, fun p hp => hc.view p (hsub p hp).2⟩
  · next idx hf =>
    obtain ⟨slot, hs, hh⟩ := (findSlot_eq_some.mp hf).1
    have hi : idx < (s.pool.writeBack idx).slots.length := by
      rw [writeBack_slots]
      exact (List.getElem?_eq_some_iff.mp hs).1
    have hholder (p : Int) (i : Nat) : Holder ((s.pool.writeBack idx).setSlot idx
        { s.pool.slot idx with loaded := false, pinCount := 0, dirty := false }).slots p i ↔
        i ≠ idx ∧ Holder s.pool.slots p i := by
      rw [BufferPool.setSlot, holder_set hi]
      split
      · next hii => simp [Slot.holds, hii]
      · next hii => simp [hii]
    have hunique : ((s.pool.writeBack idx).setSlot idx
        { s.pool.slot idx with loaded := false, pinCount := 0, dirty := false }).OneSlot :=
      fun p i j hi' hj' => hc.unique p i j ((hholder p i).mp hi').2 ((hholder p j).mp hj').2
    refine ⟨hunique, fun p hp k hk => ?_⟩
    obtain ⟨hne, ho⟩ := hsub p hp
    replace hk : k < s.pool.pageSize := by simpa [BufferPool.setSlot] using hk
    rw [← hc.view p ho k hk]
    have hpi : ¬ Holder s.pool.slots p idx := by
      rintro ⟨slot', hs', hh'⟩
      rw [hs] at hs'
      obtain rfl := Option.some.inj hs'
      exact hne ((Slot.holds_iff.mp hh').2.symm.trans (Slot.holds_iff.mp hh).2)
    by_cases hcached : ∃ i, Holder s.pool.slots p i
    · obtain ⟨i, hhi⟩ := hcached
      have hii : i ≠ idx := fun e => hpi (e ▸ hhi)
      rw [hunique.view_of_holder ((hholder p i).mpr ⟨hii, hhi⟩), hc.unique.view_of_holder hhi,
        slot_setSlot hi, if_neg hii, writeBack_slot]
    · have hcached := not_exists.mp hcached
      rw [view_of_none hcached, view_of_none fun i hhi => hcached i ((hholder p i).mp hhi).2]
      show (s.pool.writeBack idx).file.readPage (s.pool.writeBack idx).pageSize p k = _
      rw [writeBack_pageSize]
      exact writeBack_readPage_of_none hw (h.placed idx) (h.range p (.inl ho)).1 hk hpi

theorem freePage_iff (hc : s.Coherent) (h : PoolInv full s)
    (hw : s.pool.file.Paged s.pool.pageSize) (hp : pid ∈ s.owned) :
    (s.step (.free pid)).Coherent ↔ s.Settles (.free pid) := by
  have hr := h.range pid (.inl hp)
  have hpf := h.disjoint pid hp
  have hpo : pid ∉ s.owned.erase pid := fun hm => (Finset.mem_erase.mp hm).1 rfl
  obtain ⟨h1, hn1, -⟩ := h.dropPage hp
  replace h1 : PoolInv full (s.drop pid) := h1
  have hc1 := hc.dropPage h hw pid
  have hkeep : s.pool.Keeps (s.pool.dropPage pid) := .dropPage
  have hw1 : (s.pool.dropPage pid).file.Paged (s.pool.dropPage pid).pageSize := by
    rw [hkeep.pageSize]
    exact hkeep.paged hw
  have hno1 : (s.pool.dropPage pid).findSlot pid = none := by
    rw [BufferPool.dropPage]
    cases hf : s.pool.findSlot pid with
    | none => exact hf
    | some idx =>
      refine findSlot_eq_none.mpr fun i hi => ?_
      have hi' := hc.unique.findSlot_eq_some.mp hf
      have hlen : idx < (s.pool.writeBack idx).slots.length := by
        rw [writeBack_slots]
        obtain ⟨slot, hs, -⟩ := hi'
        exact (List.getElem?_eq_some_iff.mp hs).1
      simp only [BufferPool.setSlot] at hi
      rw [holder_set hlen] at hi
      split at hi
      · cases hi
      · next hne =>
        rw [writeBack_slots] at hi
        exact hne (hc.unique pid i idx hi hi')
  have hsettles : s.Settles (.free pid) ↔
      ∀ v, (s.pool.dropPage pid).findEvictionCandidate = some v → (s.drop pid).Saved v := by
    simp only [PoolSession.Settles]
    cases hf : s.pool.findSlot pid with
    | none =>
      have hdrop : s.pool.dropPage pid = s.pool := by rw [BufferPool.dropPage, hf]
      have hsaved (v : Nat) : (s.drop pid).Saved v ↔ s.Saved v := by
        simp only [PoolSession.Saved, PoolSession.drop, hdrop, Finset.mem_erase]
        refine imp_congr_right fun hl => imp_congr_left (and_iff_right fun he => ?_)
        exact findSlot_eq_none.mp hf v (he ▸ holder_of_slot hl)
      rw [hdrop]
      simp only [hsaved, true_imp_iff]
    | some idx =>
      refine iff_of_true (fun hno => by cases hno) fun v hv hl => ?_
      -- The slot that was left is free.
      have hlen : idx < (s.pool.writeBack idx).slots.length := by
        rw [writeBack_slots]
        obtain ⟨slot, hs, -⟩ := hc.unique.findSlot_eq_some.mp hf
        exact (List.getElem?_eq_some_iff.mp hs).1
      have hfree : (s.pool.dropPage pid).slots[idx]? =
          some { s.pool.slot idx with loaded := false, pinCount := 0, dirty := false } := by
        rw [BufferPool.dropPage, hf]
        simp only [BufferPool.setSlot]
        rw [List.getElem?_set_self hlen]
      exact absurd (hl.symm.trans (evict_unloaded hfree rfl hv)) (by decide)
  rw [hsettles]
  simp only [PoolSession.step, BufferPool.freePage, if_neg (show ¬ pid < 0 by omega)]
  cases hv : (s.pool.dropPage pid).findEvictionCandidate with
  | none =>
    have hload : (s.pool.dropPage pid).ensureLoaded pid = none := by
      rw [BufferPool.ensureLoaded, hno1]
      simp only [hv]
    rw [hload]
    refine iff_of_true ?_ fun v hv => ?_
    · exact ⟨hc1.unique, hc1.view⟩
    · cases hv
  | some v =>
    have hload : (s.pool.dropPage pid).ensureLoaded pid = some (v, (s.pool.dropPage pid).refill v pid
        (((s.pool.dropPage pid).writeBack v).file.readPage (s.pool.dropPage pid).pageSize pid)) := by
      rw [BufferPool.ensureLoaded, hno1]
      simp only [hv]
    have hfind := (h1.ensureLoaded (hn1 ▸ hr) hpf hload).2.1
    have hno := findSlot_eq_none.mp hno1
    rw [hload]
    refine Iff.trans (linkFree_iff (s := { s.drop pid with
      pool := (s.pool.dropPage pid).refill v pid _
      freed := insert pid s.freed }) hfind hpo) ?_
    refine Iff.trans (hc1.refill h1 hw1 hv rfl rfl rfl rfl (fun i hi => absurd hi (hno i))
      (fun hh => absurd hh (hno v)) (fun _ _ => Iff.rfl) (fun _ _ => rfl)
      fun ho => absurd ho hpo) ?_
    constructor
    · intro hs v' hv'
      exact Option.some.inj hv' ▸ hs
    · exact fun hs => hs v rfl

/-- A page that was not in use gets the victim's slot, with zeros. -/
theorem handOut_iff (hc : s.Coherent) (h : PoolInv full s)
    (hw : s.pool.file.Paged s.pool.pageSize) (hv : s.pool.findEvictionCandidate = some v)
    {pool : BufferPool} (hslots : pool.slots = s.pool.slots) (hfile : pool.file = s.pool.file)
    (hps : pool.pageSize = s.pool.pageSize) (hpid : ∀ i, Holder s.pool.slots pid i → i = v)
    (hpo : pid ∉ s.owned) :
    ({ s with
      pool := pool.refill v pid fun _ => 0
      owned := insert pid s.owned
      freed := s.freed.erase pid
      contents := Function.update s.contents pid fun _ => 0 } : PoolSession).Coherent ↔
      s.Saved v := by
  refine hc.refill h hw hv hslots hfile hps rfl hpid (fun _ => hpo) (fun p hne => ?_)
    (fun p hne => Function.update_of_ne hne _ _) fun _ k _ => ?_
  · rw [Finset.mem_insert]
    exact or_iff_right hne
  · simp only [Function.update_self]

theorem allocate_iff (hc : s.Coherent) (h : PoolInv full s)
    (hw : s.pool.file.Paged s.pool.pageSize) :
    (s.step .allocate).Coherent ↔ s.Settles .allocate := by
  cases he : s.pool.allocate with
  | mk pid pool' =>
    simp only [PoolSession.step, he, PoolSession.Settles]
    rcases allocate_cases he with ⟨rfl, hhead, hv, rfl⟩ | ⟨rfl, hhead, hv, rfl⟩ |
      ⟨v, hhead, rfl, hv, rfl⟩ | ⟨v, hhead, hn, rfl, hv, rfl⟩
    · rw [if_pos (by decide)]
      refine iff_of_true ⟨hc.unique, hc.view⟩ fun v hv' => ?_
      rw [hv] at hv'
      cases hv'
    · rw [if_pos (by decide)]
      refine iff_of_true hc fun v hv' => ⟨fun h0 => by omega, fun h0 => ?_⟩
      rcases hv with hv | hv
      · rw [hv] at hv'
        cases hv'
      · omega
    · rw [if_neg (by omega)]
      have hpf := (h.nextFree hhead).1
      have hpo : s.pool.freeListHead ∉ s.owned := fun ho => h.disjoint _ ho hpf
      generalize hpool : ({ s.pool with
        freeListHead := s.pool.nextFree s.pool.freeListHead } : BufferPool) = pool
      have hslots : pool.slots = s.pool.slots := by rw [← hpool]
      have hfile : pool.file = s.pool.file := by rw [← hpool]
      have hps : pool.pageSize = s.pool.pageSize := by rw [← hpool]
      have hvl : v < pool.slots.length := hslots ▸ (h.victim_unpinned hv).1
      constructor
      · intro hc' v' hv'
        obtain rfl := Option.some.inj (hv.symm.trans hv')
        have hone : ∀ i, Holder s.pool.slots s.pool.freeListHead i → i = v := by
          intro i hi
          by_contra hne
          refine hne (hc'.unique s.pool.freeListHead i v ?_ ?_)
          · exact (holder_refill hvl).mpr (by rw [if_neg hne, hslots]; exact hi)
          · exact (holder_refill hvl).mpr (by rw [if_pos rfl])
        refine ⟨fun _ i hi => hone i (hc.unique.findSlot_eq_some.mp hi), fun _ => ?_⟩
        exact (hc.handOut_iff h hw hv hslots hfile hps hone hpo).mp hc'
      · intro hs
        obtain ⟨hone, hs⟩ := hs v hv
        refine (hc.handOut_iff h hw hv hslots hfile hps (fun i hi => ?_) hpo).mpr (hs (.inl hhead))
        exact hone hhead i (hc.unique.findSlot_eq_some.mpr hi)
    · rw [if_neg (by omega)]
      have hpo : s.pool.nextPage ∉ s.owned := fun ho => h.ne_nextPage hn (.inl ho) rfl
      have hno (i : Nat) : ¬ Holder s.pool.slots s.pool.nextPage i := by
        intro hi
        have := (h.loaded hi).2
        rw [idBound, if_neg (by omega)] at this
        omega
      generalize hpool : ({ s.pool with nextPage := succPage s.pool.nextPage } : BufferPool) = pool
      have hslots : pool.slots = s.pool.slots := by rw [← hpool]
      have hfile : pool.file = s.pool.file := by rw [← hpool]
      have hps : pool.pageSize = s.pool.pageSize := by rw [← hpool]
      refine Iff.trans
        (hc.handOut_iff h hw hv hslots hfile hps (fun i hi => absurd hi (hno i)) hpo) ?_
      constructor
      · intro hs v' hv'
        obtain rfl := Option.some.inj (hv.symm.trans hv')
        exact ⟨fun h0 => by omega, fun _ => hs⟩
      · exact fun hs => (hs v hv).2 (.inr hn)

/-- A call keeps coherence exactly when it settles. -/
theorem step_iff (hc : s.Coherent) (h : PoolInv full s) (hw : s.pool.file.Paged s.pool.pageSize)
    (ha : s.Allowed op) (hm : Marks op) : (s.step op).Coherent ↔ s.Settles op := by
  cases op with
  | allocate => exact hc.allocate_iff h hw
  | pin pid => exact hc.pinPage_iff h hw ha
  | tryPin pid =>
    refine iff_of_true ?_ trivial
    simp only [PoolSession.step, BufferPool.tryPin]
    split
    · exact hc
    · cases hf : s.pool.findSlot pid with
      | none => exact hc
      | some idx => exact (pinSlot_iff hf).mpr hc
  | write pid idx page => exact hm.elim
  | markDirty pid => exact iff_of_true hc.markDirty trivial
  | update pid idx page => exact iff_of_true (hc.storePage h ha page).markDirty trivial
  | release pid => exact iff_of_true hc.releasePage trivial
  | flush pid =>
    refine iff_of_true ?_ trivial
    simp only [PoolSession.step, BufferPool.flushPage]
    split
    · exact hc
    split
    · exact hc
    · exact hc.flushSlot h hw _
  | flushAll => exact iff_of_true (hc.flushAll h hw) trivial
  | free pid => exact hc.freePage_iff h hw ha
  | reopen capacity => exact hc.reopen_iff h hw

end PoolSession.Coherent

/-! ## Runs -/

instance PoolSession.instDecidableMarks : (op : PoolOp) → Decidable (Marks op)
  | .write .. => inferInstanceAs (Decidable False)
  | .allocate | .pin _ | .tryPin _ | .markDirty _ | .update .. | .release _ | .flush _ | .flushAll
  | .free _ | .reopen _ => inferInstanceAs (Decidable True)

theorem PoolSession.Coherent.start (file : DataFile) (capacity pageSize next : Nat) :
    (PoolSession.start file capacity pageSize next).Coherent := by
  have hno (p : Int) (i : Nat) :
      ¬ Holder (PoolSession.start file capacity pageSize next).pool.slots p i := by
    rintro ⟨slot, hs, hh⟩
    simp only [PoolSession.start, BufferPool.create] at hs
    rw [List.eq_of_mem_replicate (List.mem_of_getElem? hs)] at hh
    cases hh
  refine ⟨fun p i j hi => absurd hi (hno p i), fun p _ k _ => ?_⟩
  rw [view_of_none (hno p)]
  rfl

/-- In every session of calls that settle, no page is in two slots and the pages in use show their
last bytes, also through the outstanding pins; the next call keeps this exactly when it settles, and
a close leaves the pages in the file exactly when every slot can go. -/
theorem poolCache_coherent (file : DataFile) (capacity pageSize next : Nat)
    (hn : next ≤ 2147483647) (hw : file.Paged pageSize)
    (hr : (PoolSession.start file capacity pageSize next).Run
      (fun s op => s.Allowed op ∧ PoolSession.Marks op ∧ s.Settles op) s) :
    s.Coherent ∧
      (∀ pid idx, (pid, idx) ∈ s.pins → ∀ k < s.pool.pageSize,
        (s.pool.slot idx).page k = s.contents pid k) ∧
      (∀ op, s.Allowed op → PoolSession.Marks op → ((s.step op).Coherent ↔ s.Settles op)) ∧
      ((∀ p ∈ s.owned, ∀ k < s.pool.pageSize,
        s.pool.flushAll.file.readPage s.pool.pageSize p k = s.contents p k) ↔ ∀ i, s.Saved i) := by
  have hrun : PoolInv False s ∧ s.pool.file.Paged s.pool.pageSize ∧ s.Coherent := by
    induction hr with
    | refl => exact ⟨.start file capacity pageSize hn, hw, .start file capacity pageSize next⟩
    | @step s op _ ha ih =>
      obtain ⟨h, hw, hc⟩ := ih
      have hkeep := s.keeps op
      refine ⟨h.step ha.1 False.elim, ?_, (hc.step_iff h hw ha.1 ha.2.1).mpr ha.2.2⟩
      rw [hkeep.pageSize]
      exact hkeep.paged hw
  obtain ⟨h, hw, hc⟩ := hrun
  refine ⟨hc, fun pid idx hp k hk => ?_, fun op ha hm => hc.step_iff h hw ha hm,
    hc.flushAll_iff h hw⟩
  rw [← hc.view pid (h.handle hp).1 k hk, hc.unique.view_of_holder (h.holder hp)]

theorem poolCache_coherent_reload :
    (((PoolSession.start .empty 1 512 0).steps
      [.allocate, .pin 0, .update 0 0 fun _ => 7, .release 0, .allocate, .pin 0]).pool.slot 0).page 0 =
        7 := by
  have hv {s : PoolSession} {v : Nat} (h0 : s.pool.findEvictionCandidate = some 0)
      (hv : s.pool.findEvictionCandidate = some v) : v = 0 := Option.some.inj (hv.symm.trans h0)
  refine (poolCache_coherent (s := (PoolSession.start .empty 1 512 0).steps
      [.allocate, .pin 0, .update 0 0 fun _ => 7, .release 0, .allocate, .pin 0])
    .empty 1 512 0 (by decide) .empty (PoolSession.Run.refl.steps ?_)).2.1 0 0 (by decide) 0 (by decide)
  refine ⟨⟨by decide, trivial, fun v h => ?_⟩, ⟨by decide, trivial, fun h => ?_⟩,
    ⟨by decide, trivial, trivial⟩, ⟨by decide, trivial, trivial⟩, ⟨by decide, trivial, fun v h => ?_⟩,
    ⟨by decide, trivial, fun _ v h => ?_⟩, trivial⟩
  · obtain rfl := hv (by decide) h
    exact ⟨fun h0 => absurd h0 (by decide), fun _ hl => absurd hl (by decide)⟩
  · exact absurd h (by decide)
  · obtain rfl := hv (by decide) h
    exact ⟨fun h0 => absurd h0 (by decide), fun _ _ _ hd => absurd hd (by decide)⟩
  · obtain rfl := hv (by decide) h
    exact fun _ _ _ _ _ => rfl

/-- A page that is freed and handed out again gets a second slot, and a pin shows the first one. -/
theorem poolCache_twice : ∃ s : PoolSession,
    (PoolSession.start .empty 2 512 0).Run (fun s op => s.Allowed op ∧ PoolSession.Marks op) s ∧
      ¬ s.pool.OneSlot ∧ (0, 0) ∈ s.pins ∧ 0 < s.pool.pageSize ∧
      (s.pool.slot 0).page 0 ≠ s.contents 0 0 :=
  ⟨(PoolSession.start .empty 2 512 0).steps [.allocate, .free 0, .allocate, .pin 0],
    PoolSession.Run.refl.steps (by decide),
    fun h => absurd (h 0 0 1 ⟨_, rfl, rfl⟩ ⟨_, rfl, rfl⟩) (by decide),
    by decide, by decide, by decide⟩

end Garry
