import Garry.Library.Mvcc
import Garry.Verify.PageWrites

/-!
# Version chains on pages

A chain page holds the records of a list of versions, a long value a list of overflow pages. Reads
and pruning of the pages are those of the list.
-/

namespace Garry

open ByteStore

variable {ps : Nat} {pages pages' : Int → PageBuffer} {used : Set Int} {pool pool' : Pool}

/-! ## Overflow pages -/

/-- The value is stored in the pages of the list, the first of which is `head`. -/
def OverflowAt (ps : Nat) (pages : Int → PageBuffer) : List Int → Int → Bytes → Prop
  | [], head, value => head = -1 ∧ value = []
  | p :: l, head, value => head = p ∧ 0 ≤ p ∧ value ≠ [] ∧
      slice (pages p) (pageHeaderSize + overflowPtrSize) (min (overflowChunkSize ps) value.length) =
        value.take (overflowChunkSize ps) ∧
      OverflowAt ps pages l (readInt32 (pages p) pageHeaderSize) (value.drop (overflowChunkSize ps))

theorem OverflowAt.congr {l : List Int} {value : Bytes} (h : OverflowAt ps pages l head value)
    (hp : ∀ p ∈ l, pages' p = pages p) : OverflowAt ps pages' l head value := by
  induction l generalizing head value with
  | nil => exact h
  | cons p l ih =>
    obtain ⟨h1, h2, h3, h4, h5⟩ := h
    rw [OverflowAt, hp p (by simp)]
    exact ⟨h1, h2, h3, h4, ih h5 fun q hq => hp q (by simp [hq])⟩

theorem OverflowAt.ne_nil {l : List Int} {value : Bytes} (h : OverflowAt ps pages l head value)
    (hv : value ≠ []) : ∃ l', l = head :: l' := by
  cases l with
  | nil => exact absurd h.2 hv
  | cons p l => exact ⟨l, by rw [h.1]⟩

theorem OverflowAt.head_eq {l : List Int} {value : Bytes} (h : OverflowAt ps pages l head value) :
    head = l.head?.getD (-1) := by
  cases l with
  | nil => exact h.1
  | cons p l => exact h.1

/-- The loop of the read gives back the value. -/
theorem OverflowAt.readLoop (hs : pool.Serves) (hc : 0 < overflowChunkSize pool.pageSize)
    {l : List Int} {value : Bytes} (h : OverflowAt pool.pageSize pool.pages l head value)
    (hf : value.length ≤ fuel) : overflowReadLoop pool fuel head value.length = some value := by
  induction fuel generalizing l head value with
  | zero =>
    obtain rfl : value = [] := List.eq_nil_of_length_eq_zero (by omega)
    rfl
  | succ fuel ih =>
    rw [overflowReadLoop]
    split
    · next hz => rw [List.eq_nil_of_length_eq_zero hz]
    · next hz =>
      have hv : value ≠ [] := fun e => hz (by simp [e])
      obtain ⟨l, rfl⟩ := h.ne_nil hv
      obtain ⟨-, h0, -, hslice, hrest⟩ := h
      have hlen : (value.drop (overflowChunkSize pool.pageSize)).length =
          value.length - min (overflowChunkSize pool.pageSize) value.length := by
        rw [List.length_drop]
        omega
      have hr := ih hrest (by omega)
      rw [hlen] at hr
      rw [if_neg (by omega), Pool.pinPage_eq hs h0]
      simp only [hr, hslice, Option.map_some, List.take_append_drop]

/-- `garry_overflow_read` gives back the value. -/
theorem OverflowAt.read (hs : pool.Serves) (hc : 0 < overflowChunkSize pool.pageSize)
    {l : List Int} {value : Bytes} (h : OverflowAt pool.pageSize pool.pages l head value) :
    overflowRead pool head value.length = some value := h.readLoop hs hc le_rfl

/-- The link to the page that follows is stored in page `prev`, if there is one. -/
def linkedPage (buf : PageBuffer) (l : List Int) : PageBuffer :=
  if l = [] then buf else writeInt32 buf pageHeaderSize (l.head?.getD (-1))

theorem linkOverflow_pages (ho : pool.Owns used) (hprev : prev = -1 ∨ prev ∈ used) :
    (linkOverflow pool prev p).pages =
      if prev = -1 then pool.pages
      else Function.update pool.pages prev (writeInt32 (pool.pages prev) pageHeaderSize p) := by
  rw [linkOverflow]
  rcases hprev with rfl | hprev
  · rfl
  · have h0 := (ho.range prev hprev).1
    rw [if_neg (by omega), Pool.pinPage_eq ho.serves h0, if_neg (by omega)]
    rw [Pool.flushPage_pages]
    rfl

theorem linkOverflow_kept (ho : pool.Owns used) (hprev : prev = -1 ∨ prev ∈ used) :
    (linkOverflow pool prev p).Owns used ∧ (linkOverflow pool prev p).pageSize = pool.pageSize ∧
      (linkOverflow pool prev p).env = pool.env ∧
      (linkOverflow pool prev p).nextPage = pool.nextPage := by
  rw [linkOverflow]
  rcases hprev with rfl | hprev
  · exact ⟨ho, rfl, rfl, rfl⟩
  · have h0 := (ho.range prev hprev).1
    rw [if_neg (by omega), Pool.pinPage_eq ho.serves h0]
    exact ⟨(ho.setPage hprev).markDirty.flushPage, by simp, by simp, by simp⟩

/-- The page before is written. -/
theorem linkOverflow_writes (ho : pool.Owns used) :
    Marks (used \ {prev}) pool (linkOverflow pool prev p) ∧
      (prev ∈ used → PageStored (linkOverflow pool prev p) prev) := by
  rw [linkOverflow]
  split
  · next hneg => exact ⟨.refl, fun hu => absurd hneg (not_lt.mpr (ho.range prev hu).1)⟩
  · next h0 =>
    rw [Pool.pinPage_eq ho.serves (not_lt.mp h0)]
    refine ⟨(Marks.refl.change prev _).flushPage fun q hq => ⟨(ho.range q hq.1).1, hq.2⟩, fun _ => ?_⟩
    exact pageStored_flushPage (not_lt.mp h0) List.mem_cons_self

/-- The chunk of an overflow page, whatever its link. -/
theorem slice_overflowPage (buf : PageBuffer) (l : List Int) {chunk : Bytes} :
    slice (linkedPage (overflowPage buf ps chunk) l) (pageHeaderSize + overflowPtrSize)
      chunk.length = chunk := by
  have hword {b : PageBuffer} {v : Int} : slice (writeInt32 b pageHeaderSize v)
      (pageHeaderSize + overflowPtrSize) chunk.length =
        slice b (pageHeaderSize + overflowPtrSize) chunk.length :=
    slice_congr fun j _ => writeInt32_of_ne (.inr (by simp only [pageHeaderSize, overflowPtrSize]; omega))
  have hpage : slice (overflowPage buf ps chunk) (pageHeaderSize + overflowPtrSize) chunk.length =
      chunk := by
    rw [overflowPage, hword]
    exact slice_blit_self ..
  rw [linkedPage]
  split
  · exact hpage
  · rw [hword, hpage]

theorem link_overflowPage (buf : PageBuffer) {chunk : Bytes} {l : List Int}
    (hl : ∀ p ∈ l, Fits32 p) : readInt32 (linkedPage (overflowPage buf ps chunk) l) pageHeaderSize =
      l.head?.getD (-1) := by
  rw [linkedPage]
  split
  · next h =>
    rw [h, overflowPage]
    exact readInt32_writeInt32 _ _ (by decide)
  · next h =>
    obtain ⟨q, l, rfl⟩ := List.exists_cons_of_ne_nil h
    exact readInt32_writeInt32 _ _ (hl q (by simp))

theorem count_overflowPage (buf : PageBuffer) (l : List Int) (chunk : Bytes) :
    pageRecordCount (linkedPage (overflowPage buf ps chunk) l) = 0 := by
  have hword {b : PageBuffer} {v : Int} :
      readInt32 (writeInt32 b pageHeaderSize v) pageHdrOffCount = readInt32 b pageHdrOffCount :=
    readInt32_writeInt32_of_ne (by decide)
  have hpage : readInt32 (overflowPage buf ps chunk) pageHdrOffCount = 0 := by
    rw [overflowPage, hword, copyBytesIn, readInt32_blit_of_le (by decide)]
    exact (pageInit_word buf .overflow 0 ps).2.2.1
  rw [pageRecordCount, linkedPage]
  split
  · exact hpage
  · rw [hword, hpage]

/-- What the loop of `garry_overflow_write` leaves behind: new pages with the value, linked from
page `prev`. -/
structure OverflowWritten (ps : Nat) (used : Set Int) (pool pool' : Pool) (prev : Int)
    (value : Bytes) (l : List Int) : Prop where
  stored : OverflowAt ps pool'.pages l (l.head?.getD (-1)) value
  nodup : l.Nodup
  fresh : ∀ p ∈ l, p ∉ used
  owns : pool'.Owns (used ∪ {p | p ∈ l})
  pageSize : pool'.pageSize = pool.pageSize
  env : pool'.env = pool.env
  nextPage : pool.nextPage ≤ pool'.nextPage
  linked : prev ∈ used → pool'.pages prev = linkedPage (pool.pages prev) l
  frame : ∀ p, p ∉ l → p ≠ prev → pool'.pages p = pool.pages p
  count : ∀ p ∈ l, pageRecordCount (pool'.pages p) = 0
  marks : Marks (used \ {prev}) pool pool'
  flushed : ∀ p ∈ l, PageStored pool' p
  last : prev ∈ used → prev ∈ pool.dirty → PageStored pool' prev

/-- The pages in use stay as they are. -/
theorem OverflowWritten.kept {l : List Int} (h : OverflowWritten ps used pool pool' (-1) value l)
    (hp : p ∈ used) (h0 : 0 ≤ p) : pool'.pages p = pool.pages p :=
  h.frame p (fun hl => h.fresh p hl hp) (by omega)

theorem overflowWritten_nil (ho : pool.Owns used) :
    OverflowWritten ps used pool (pool.flushPage prev) prev [] [] where
  stored := ⟨rfl, rfl⟩
  nodup := List.nodup_nil
  fresh := by simp
  owns := by simpa using ho.flushPage
  pageSize := Pool.flushPage_pageSize
  env := Pool.flushPage_env
  nextPage := Pool.flushPage_nextPage.ge
  linked := fun _ => by rw [Pool.flushPage_pages]; rfl
  frame := fun _ _ _ => by rw [Pool.flushPage_pages]
  count := by simp
  marks := Marks.refl.flushPage fun p hp => ⟨(ho.range p hp.1).1, hp.2⟩
  flushed := by simp
  last hu hd := pageStored_flushPage (ho.range prev hu).1 hd

theorem overflowWriteLoop_written (ho : pool.Owns used) (hps : pool.pageSize = ps)
    (hc : 0 < overflowChunkSize ps) (hprev : prev = -1 ∨ prev ∈ used) (hf : value.length ≤ fuel)
    (hids : (overflowWriteLoop fuel pool head prev value).2.nextPage ≤ 2147483648) :
    ∃ l pool', overflowWriteLoop fuel pool head prev value =
        (if head = -1 then l.head?.getD (-1) else head, pool') ∧
      OverflowWritten ps used pool pool' prev value l := by
  induction fuel generalizing pool used head prev value with
  | zero =>
    obtain rfl : value = [] := List.eq_nil_of_length_eq_zero (by omega)
    refine ⟨[], pool.flushPage prev, ?_, overflowWritten_nil ho⟩
    rw [overflowWriteLoop]
    split
    · next h => rw [h]; rfl
    · rfl
  | succ fuel ih =>
    rw [overflowWriteLoop] at hids ⊢
    split at hids
    · next hv =>
      subst hv
      rw [if_pos rfl]
      refine ⟨[], pool.flushPage prev, ?_, overflowWritten_nil ho⟩
      split
      · next h => rw [h]; rfl
      · rfl
    · next hv =>
      rw [if_neg hv]
      obtain ⟨p, pool₁, ha, h0, hp, hlt, ho₁, hs₁, he₁, hn₁, -, hpg₁⟩ := ho.allocate
      have hpin := Pool.pinPage_eq ho₁.serves h0
      have hprev₁ : prev = -1 ∨ prev ∈ insert p used := hprev.imp_right (Set.mem_insert_of_mem _)
      obtain ⟨ho₂, hs₂, he₂, hn₂⟩ := linkOverflow_kept (p := p) ho₁ hprev₁
      have hpg₂ := linkOverflow_pages (p := p) ho₁ hprev₁
      obtain ⟨hm₂, hst₂⟩ := @linkOverflow_writes _ _ prev p ho₁
      obtain ⟨-, hm₁, -, -⟩ := marks_allocate ho.serves ho.next_nonneg
      rw [ha] at hm₁
      simp only [ha, hpin, if_neg (show ¬ p < 0 by omega), hs₁, hps, hs₂] at hids ⊢
      generalize linkOverflow pool₁ prev p = pool₂ at *
      have hpu : p ∈ insert p used := Set.mem_insert ..
      have ho₃ : ((pool₂.setPage p (overflowPage (pool₁.pages p) ps
          (value.take (overflowChunkSize ps)))).markDirty p).Owns (insert p used) :=
        (ho₂.setPage hpu).markDirty
      obtain ⟨l, pool', heq, hw⟩ := ih ho₃ (by simp [hs₂, hs₁, hps]) (.inr hpu)
        (by rw [List.length_drop]; omega) hids
      have hpages (q : Int) (hql : q ∉ l) (hqp : q ≠ p) (h0 : 0 ≤ q ∨ q ≠ prev) :
          pool'.pages q =
            if q = prev then writeInt32 (pool.pages q) pageHeaderSize p else pool.pages q := by
        rw [hw.frame q hql hqp, Pool.markDirty_pages, Pool.setPage_pages_of_ne hqp, hpg₂, hpg₁]
        split
        · next hm => rw [Function.update_of_ne hqp, if_neg (by omega)]
        · split
          · next hqe => rw [hqe, Function.update_self, Function.update_of_ne (hqe ▸ hqp)]
          · next hqe => rw [Function.update_of_ne hqe, Function.update_of_ne hqp]
      refine ⟨p :: l, pool', ?_, ?_⟩
      · rw [heq]
        split
        · next hh => rw [if_neg (by omega)]; rfl
        · rfl
      · rw [heq] at hids
        have hfit : ∀ q ∈ l, Fits32 q := fun q hq => by
          have hr := hw.owns.range q (.inr hq)
          have hlt : q < 2147483648 := hr.2.trans_le hids
          exact ⟨by omega, hlt⟩
        have hpp : pool'.pages p =
            linkedPage (overflowPage (pool₁.pages p) ps (value.take (overflowChunkSize ps))) l := by
          rw [hw.linked hpu, Pool.markDirty_pages, Pool.setPage_pages_self]
        exact {
          stored := by
            refine ⟨rfl, h0, hv, ?_, ?_⟩
            · rw [hpp, ← List.length_take]
              exact slice_overflowPage ..
            · rw [hpp, link_overflowPage _ hfit]
              exact hw.stored
          nodup := List.nodup_cons.mpr ⟨fun hm => hw.fresh p hm hpu, hw.nodup⟩
          fresh := by
            intro q hq
            rcases List.mem_cons.mp hq with rfl | hq
            · exact hp
            · exact fun hu => hw.fresh q hq (Set.mem_insert_of_mem _ hu)
          owns := hw.owns.mono (by
            rintro q (hq | hq)
            · exact .inl (Set.mem_insert_of_mem _ hq)
            · rcases List.mem_cons.mp hq with rfl | hq
              · exact .inl hpu
              · exact .inr hq)
          pageSize := by rw [hw.pageSize, Pool.markDirty_pageSize, Pool.setPage_pageSize, hs₂, hs₁]
          env := by rw [hw.env, Pool.markDirty_env, Pool.setPage_env, he₂, he₁]
          nextPage := by
            have hn := hw.nextPage
            rw [Pool.markDirty_nextPage, Pool.setPage_nextPage, hn₂] at hn
            exact hn₁.trans hn
          linked := by
            intro hu
            have hne : prev ≠ p := fun e => hp (e ▸ hu)
            have hnl : prev ∉ l := fun hm => hw.fresh prev hm (Set.mem_insert_of_mem _ hu)
            rw [hpages prev hnl hne (.inl (ho.range prev hu).1), if_pos rfl]
            rfl
          frame := by
            intro q hq hne
            rw [List.mem_cons, not_or] at hq
            rw [hpages q hq.2 hq.1 (.inr hne), if_neg hne]
          count := by
            intro q hq
            rcases List.mem_cons.mp hq with rfl | hq
            · rw [hpp]
              exact count_overflowPage ..
            · exact hw.count q hq
          marks := by
            have hne (q : Int) (hq : q ∈ used) : q ≠ p := fun e => hp (e ▸ hq)
            have hm₁ : Marks (used \ {prev}) pool pool₁ := hm₁.mono fun q hq => hne q hq.1
            have hm₂ : Marks (used \ {prev}) pool₁ pool₂ :=
              hm₂.mono fun q hq => ⟨Set.mem_insert_of_mem _ hq.1, hq.2⟩
            exact ((hm₁.trans hm₂).change p _).trans
              (hw.marks.mono fun q hq => ⟨Set.mem_insert_of_mem _ hq.1, hne q hq.1⟩)
          flushed := by
            intro q hq
            rcases List.mem_cons.mp hq with rfl | hq
            · exact hw.last hpu List.mem_cons_self
            · exact hw.flushed q hq
          last := by
            intro hu _
            have hne : prev ≠ p := fun e => hp (e ▸ hu)
            have hin : prev ∈ insert p used := Set.mem_insert_of_mem _ hu
            have hst₃ := (Marks.refl.change p (overflowPage (pool₁.pages p) ps
              (value.take (overflowChunkSize ps)))).stored (Set.mem_univ prev)
              (Pool.setPage_pages_of_ne hne) (hst₂ hin)
            exact hw.marks.stored ⟨hin, hne⟩
              (hw.frame prev (fun hm => hw.fresh prev hm hin) hne) hst₃ }

/-- `garry_overflow_write`. -/
theorem overflowWrite_written (ho : pool.Owns used) (hps : pool.pageSize = ps)
    (hc : 0 < overflowChunkSize ps)
    (hids : (overflowWrite pool value).2.nextPage ≤ 2147483648) :
    ∃ l pool', overflowWrite pool value = (l.head?.getD (-1), pool') ∧
      OverflowWritten ps used pool pool' (-1) value l :=
  overflowWriteLoop_written ho hps hc (.inl rfl) le_rfl hids

/-! ## Versions -/

/-- A version of a key with the overflow pages of its value. -/
structure StoredVersion where
  version : Mvcc.Version Bytes
  pages : List Int

/-- The record of a version. -/
inductive VersionAt (ps : Nat) (pages : Int → PageBuffer) : StoredVersion → Bytes → Prop
  | tombstone (txid : Int) : Fits32 txid →
      VersionAt ps pages ⟨⟨txid, none⟩, []⟩ (versionHeader txid 0 0 1 0)
  | inline (txid : Int) (value : Bytes) : Fits32 txid → Fits32 value.length →
      value.length ≤ chainInlineCapacity ps →
      VersionAt ps pages ⟨⟨txid, some value⟩, []⟩ (versionHeader txid 0 value.length 0 0 ++ value)
  | overflow (txid head : Int) (value : Bytes) (l : List Int) : Fits32 txid →
      Fits32 value.length → Fits32 head → chainInlineCapacity ps < value.length →
      OverflowAt ps pages l head value →
      VersionAt ps pages ⟨⟨txid, some value⟩, l⟩
        (versionHeader txid 0 value.length 0 1 ++ word32 head)

theorem length_versionHeader (t d l : Int) (a f : UInt8) :
    (versionHeader t d l a f).length = chainEntryHeaderSize := rfl

theorem readVersion_header {t d l : Int} (ht : Fits32 t) (hd : Fits32 d) (hl : Fits32 l)
    (a f : UInt8) (rest : Bytes) : readVersion (versionHeader t d l a f ++ rest) =
      ⟨t, d, l, decide (a ≠ 0), decide (f.toNat % 2 = 1), rest.toBuffer⟩ := by
  have h1 : readInt32 (versionHeader t d l a f ++ rest).toBuffer 0 = t := by
    rw [versionHeader, List.append_assoc]
    exact readInt32_toBuffer [] _ ht
  have h2 : readInt32 (versionHeader t d l a f ++ rest).toBuffer 4 = d := by
    rw [versionHeader, List.append_assoc, List.append_assoc]
    exact readInt32_toBuffer (word32 t) _ hd
  have h3 : readInt32 (versionHeader t d l a f ++ rest).toBuffer 8 = l := by
    have e : versionHeader t d l a f ++ rest =
        (word32 t ++ word32 d) ++ (word32 l ++ ([a, f] ++ rest)) := by simp [versionHeader]
    rw [e]
    exact readInt32_toBuffer (word32 t ++ word32 d) _ hl
  have h4 (i : Nat) : (versionHeader t d l a f ++ rest).toBuffer (chainEntryHeaderSize + i) =
      rest.toBuffer i := by
    rw [Bytes.toBuffer, ← length_versionHeader t d l a f,
      List.getD_append_right _ _ _ _ (Nat.le_add_right ..), Nat.add_sub_cancel_left]
    rfl
  simp only [readVersion, h1, h2, h3, h4]
  rfl

theorem slice_toBuffer (bs : Bytes) : slice bs.toBuffer 0 bs.length = bs := by
  refine slice_eq_iff.mpr fun j hj => ?_
  simp [Bytes.toBuffer, hj]

/-- The record of a version as the source reads it. -/
structure ReadsAs (pool : Pool) (recData : Bytes) (v : Mvcc.Version Bytes) : Prop where
  length : chainEntryHeaderSize ≤ recData.length
  created : (readVersion recData).txidCreated = v.txid
  deleted : (readVersion recData).txidDeleted = 0
  tombstone : (readVersion recData).isTombstone = v.value.isNone
  value : ∀ x, v.value = some x → versionValue pool (readVersion recData) = some x

theorem VersionAt.readsAs (hs : pool.Serves) (hc : 0 < overflowChunkSize pool.pageSize)
    (h : VersionAt pool.pageSize pool.pages v recData) : ReadsAs pool recData v.version := by
  have h0 : Fits32 0 := by decide
  cases h with
  | tombstone txid ht =>
    have hr := readVersion_header ht h0 h0 1 0 []
    rw [List.append_nil] at hr
    exact ⟨le_rfl, by rw [hr], by rw [hr], by rw [hr]; rfl, by simp⟩
  | inline txid value ht hl hle =>
    have hr := readVersion_header ht h0 hl 0 0 value
    refine ⟨?_, by rw [hr], by rw [hr], by rw [hr]; rfl, fun x hx => ?_⟩
    · rw [List.length_append, length_versionHeader]
      exact Nat.le_add_right ..
    · cases hx
      rw [hr, versionValue, if_neg (not_lt_of_ge (Int.natCast_nonneg _))]
      simp [slice_toBuffer]
  | overflow txid head value l ht hl hh hlt ho =>
    have hr := readVersion_header ht h0 hl 0 1 (word32 head)
    refine ⟨?_, by rw [hr], by rw [hr], by rw [hr]; rfl, fun x hx => ?_⟩
    · rw [List.length_append, length_versionHeader]
      exact Nat.le_add_right ..
    · cases hx
      have hhead : readInt32 (Bytes.toBuffer (word32 head)) 0 = head := by
        have := readInt32_toBuffer [] [] hh
        simpa using this
      have hflag : decide ((1 : UInt8).toNat % 2 = 1) = true := rfl
      rw [hr, versionValue, if_neg (not_lt_of_ge (Int.natCast_nonneg _))]
      simp only [hflag, if_true, hhead, Int.toNat_natCast]
      exact ho.read hs hc

theorem VersionAt.congr (h : VersionAt ps pages v recData)
    (hp : ∀ p ∈ v.pages, pages' p = pages p) : VersionAt ps pages' v recData := by
  cases h with
  | tombstone txid ht => exact .tombstone txid ht
  | inline txid value ht hl hle => exact .inline txid value ht hl hle
  | overflow txid head value l ht hl hh hlt ho =>
    exact .overflow txid head value l ht hl hh hlt (ho.congr hp)

theorem ReadsAs.visible (h : ReadsAs pool recData v) (snap : Int) (active : List Int) :
    versionVisible snap active (readVersion recData) = Mvcc.visible snap active v := by
  rw [versionVisible, h.created, h.deleted, Bool.eq_iff_iff, Mvcc.visible_iff]
  have hany : (active.any fun a => decide (a = v.txid ∧ a ≠ snap)) = true ↔
      v.txid ∈ active ∧ v.txid ≠ snap := by
    rw [List.any_eq_true]
    constructor
    · rintro ⟨a, ha, hd⟩
      obtain ⟨rfl, hne⟩ := of_decide_eq_true hd
      exact ⟨ha, hne⟩
    · rintro ⟨ha, hne⟩
      exact ⟨_, ha, decide_eq_true ⟨rfl, hne⟩⟩
  cases hb : active.any fun a => decide (a = v.txid ∧ a ≠ snap) with
  | false =>
    have hne : ¬ (v.txid ∈ active ∧ v.txid ≠ snap) := fun h => by
      rw [hany.mpr h] at hb
      cases hb
    simp
    tauto
  | true =>
    have hne := hany.mp hb
    simp
    tauto

/-! ## Chain pages -/

/-- The versions of a chain page, the oldest first. -/
structure ChainAt (ps : Nat) (pages : Int → PageBuffer) (cid : Int) (vs : List StoredVersion) :
    Prop where
  kind : readInt32 (pages cid) pageHdrOffType = NodeKind.chain.code
  records : ∃ recs, Holds ps (pages cid) recs ∧ List.Forall₂ (VersionAt ps pages) vs recs

/-- The versions as a chain, the newest first. -/
def chainOf (vs : List StoredVersion) : List (Mvcc.Version Bytes) :=
  (vs.map StoredVersion.version).reverse

theorem chainOf_concat (vs : List StoredVersion) (v : StoredVersion) :
    chainOf (vs ++ [v]) = v.version :: chainOf vs := by simp [chainOf]

/-- The page holds the versions. -/
structure HoldsVersions (pool : Pool) (buf : PageBuffer) (vs : List StoredVersion) : Prop where
  serves : pool.Serves
  room : 0 < overflowChunkSize pool.pageSize
  records : ∃ recs, Holds pool.pageSize buf recs ∧
    List.Forall₂ (VersionAt pool.pageSize pool.pages) vs recs

theorem ChainAt.holdsVersions (h : ChainAt pool.pageSize pool.pages cid vs) (hs : pool.Serves)
    (hc : 0 < overflowChunkSize pool.pageSize) : HoldsVersions pool (pool.pages cid) vs :=
  ⟨hs, hc, h.records⟩

theorem HoldsVersions.get {buf : PageBuffer} {vs : List StoredVersion}
    (h : HoldsVersions pool buf vs) (hv : vs[n]? = some v) :
    ∃ recData, pageGet buf n pool.pageSize = some recData ∧ ReadsAs pool recData v.version := by
  obtain ⟨recs, H, hr⟩ := h.records
  obtain ⟨hn, rfl⟩ := List.getElem?_eq_some_iff.mp hv
  have hn' : n < recs.length := hr.length_eq ▸ hn
  have hat : VersionAt pool.pageSize pool.pages vs[n] recs[n] := hr.get hn hn'
  exact ⟨recs[n], pageGet_holds H (List.getElem?_eq_getElem hn'), hat.readsAs h.serves h.room⟩

theorem HoldsVersions.count {buf : PageBuffer} {vs : List StoredVersion}
    (h : HoldsVersions pool buf vs) : (pageRecordCount buf).toNat = vs.length := by
  obtain ⟨recs, H, hr⟩ := h.records
  rw [pageRecordCount, H.count, hr.length_eq, Int.toNat_natCast]

/-- The chain of the first `n + 1` versions. -/
theorem chainOf_take_succ {vs : List StoredVersion} (hv : vs[n]? = some v) :
    chainOf (vs.take (n + 1)) = v.version :: chainOf (vs.take n) := by
  rw [List.take_add_one, hv, Option.toList_some, chainOf_concat]

theorem HoldsVersions.findVisibleLoop {buf : PageBuffer} {vs : List StoredVersion}
    (h : HoldsVersions pool buf vs) (snap : Int) (active : List Int) (hn : n ≤ vs.length) :
    findVisibleLoop pool buf pool.pageSize snap active n =
      Mvcc.read snap active (chainOf (vs.take n)) := by
  induction n with
  | zero => rfl
  | succ n ih =>
    have hv : vs[n]? = some vs[n] := List.getElem?_eq_getElem (by omega)
    obtain ⟨recData, hget, hread⟩ := h.get hv
    have hlen := hread.length
    rw [Garry.findVisibleLoop, hget, chainOf_take_succ hv]
    simp only
    rw [if_neg (by omega), hread.visible, ih (by omega)]
    split
    · next hvis =>
      rw [Mvcc.read_cons_of_pos hvis, hread.tombstone]
      cases hval : vs[n].version.value with
      | none => rfl
      | some x => rw [hread.value x hval]; rfl
    · next hvis => rw [Mvcc.read_cons_of_neg (by simpa using hvis)]

/-- `garry_chain_page_find_visible` reads the chain. -/
theorem HoldsVersions.findVisible {buf : PageBuffer} {vs : List StoredVersion}
    (h : HoldsVersions pool buf vs) (snap : Int) (active : List Int) :
    chainPageFindVisible pool buf pool.pageSize snap active =
      Mvcc.read snap active (chainOf vs) := by
  rw [chainPageFindVisible, h.count, h.findVisibleLoop snap active le_rfl, List.take_length]

theorem HoldsVersions.hasVisibleLoop {buf : PageBuffer} {vs : List StoredVersion}
    (h : HoldsVersions pool buf vs) (snap : Int) (active : List Int) (hn : n ≤ vs.length) :
    hasVisibleLoop buf pool.pageSize snap active n =
      (Mvcc.read snap active (chainOf (vs.take n))).isSome := by
  induction n with
  | zero => rfl
  | succ n ih =>
    have hv : vs[n]? = some vs[n] := List.getElem?_eq_getElem (by omega)
    obtain ⟨recData, hget, hread⟩ := h.get hv
    have hlen := hread.length
    rw [Garry.hasVisibleLoop, hget, chainOf_take_succ hv]
    simp only
    rw [if_neg (by omega), hread.visible, ih (by omega)]
    split
    · next hvis =>
      rw [Mvcc.read_cons_of_pos hvis, hread.tombstone]
      cases vs[n].version.value <;> rfl
    · next hvis => rw [Mvcc.read_cons_of_neg (by simpa using hvis)]

/-- `garry_chain_page_has_visible` tells whether the read finds a value. -/
theorem HoldsVersions.hasVisible {buf : PageBuffer} {vs : List StoredVersion}
    (h : HoldsVersions pool buf vs) (snap : Int) (active : List Int) :
    chainPageHasVisible buf pool.pageSize snap active =
      (Mvcc.read snap active (chainOf vs)).isSome := by
  rw [chainPageHasVisible, h.count, h.hasVisibleLoop snap active le_rfl, List.take_length]

/-! ## Appending -/

theorem VersionAt.length_le (h : VersionAt ps pages v recData) :
    chainEntryHeaderSize ≤ recData.length := by
  cases h with
  | tombstone => exact le_rfl
  | inline =>
    rw [List.length_append, length_versionHeader]
    exact Nat.le_add_right ..
  | overflow =>
    rw [List.length_append, length_versionHeader]
    exact Nat.le_add_right ..

theorem VersionAt.ne_nil (h : VersionAt ps pages v recData) : recData ≠ [] := by
  cases h <;> simp [versionHeader]

/-- The pages that hold the values of the versions. -/
def overflowPages (vs : List StoredVersion) : List Int := vs.flatMap StoredVersion.pages

theorem mem_overflowPages {vs : List StoredVersion} :
    p ∈ overflowPages vs ↔ ∃ v ∈ vs, p ∈ v.pages := List.mem_flatMap

/-- A change of other pages leaves the chain as it is. -/
theorem ChainAt.congr {vs : List StoredVersion} (h : ChainAt ps pages cid vs)
    (hc : pages' cid = pages cid) (hp : ∀ p ∈ overflowPages vs, pages' p = pages p) :
    ChainAt ps pages' cid vs := by
  obtain ⟨recs, H, hr⟩ := h.records
  refine ⟨by rw [hc]; exact h.kind, recs, by rw [hc]; exact H, ?_⟩
  refine List.forall₂_iff_get.mpr ⟨hr.length_eq, fun i h1 h2 => ?_⟩
  refine (hr.get h1 h2).congr fun p hp' => hp p ?_
  exact mem_overflowPages.mpr ⟨_, List.get_mem .., hp'⟩

/-- The free gap of a page takes a record of `n` bytes. -/
def pageRoom (buf : PageBuffer) (n : Nat) : Bool :=
  decide (pageRecordCount buf < maxSlots ∧
    readInt32 buf pageHdrOffFreeStart + slotSize + n ≤ readInt32 buf pageHdrOffFreeEnd)

theorem pageRoom_iff (H : Holds ps buf recs) : pageRoom buf n = true ↔ HasRoom ps recs n := by
  have hfit := H.fits
  rw [pageRoom, decide_eq_true_iff, pageRecordCount, H.count, H.freeStart, H.freeEnd, HasRoom]
  simp only [RecordsFit, maxSlots, pageHeaderSize, slotSize] at hfit ⊢
  omega

/-- `garry_page_insert` succeeds when the gap is wide enough. -/
theorem pageInsert_isSome (H : Holds ps buf recs) (hd : data ≠ []) :
    (pageInsert buf data).isSome = pageRoom buf data.length := by
  by_cases hroom : HasRoom ps recs data.length
  · obtain ⟨buf', hi, -⟩ := pageInsert_some H hd hroom
    rw [hi, (pageRoom_iff H).mpr hroom]
    rfl
  · rw [pageInsert_none H hroom, Bool.eq_false_iff.mpr fun h => hroom ((pageRoom_iff H).mp h)]
    rfl

/-- The length of the record that a value makes on a chain page. -/
def versionSize (pageSize : Nat) (value : Bytes) : Nat :=
  chainEntryHeaderSize +
    if value.length > chainInlineCapacity pageSize then overflowPtrSize else value.length

theorem chainAt_init (buf : PageBuffer) (h1 : pageHeaderSize ≤ ps) (h2 : ps ≤ maxPageSize)
    (hp : pages cid = chainPageInit buf ps) : ChainAt ps pages cid [] where
  kind := by
    rw [hp]
    exact (pageInit_word buf .chain 0 ps).1
  records := by
    rw [hp]
    exact ⟨[], pageInit_holds buf .chain 0 h1 h2, .nil⟩

/-- A record inserted into a chain page is a new version. -/
theorem ChainAt.insert {vs : List StoredVersion} {buf : PageBuffer} (h : ChainAt ps pages cid vs)
    (hv : VersionAt ps pages v recData) (hi : pageInsert (pages cid) recData = some (i, buf))
    (hc : ∀ p ∈ overflowPages (vs ++ [v]), p ≠ cid) :
    ChainAt ps (Function.update pages cid buf) cid (vs ++ [v]) := by
  obtain ⟨recs, H, hr⟩ := h.records
  have hroom : HasRoom ps recs recData.length := by
    by_contra hno
    rw [pageInsert_none H hno] at hi
    cases hi
  obtain ⟨buf', hi', H', hword⟩ := pageInsert_some H hv.ne_nil hroom
  obtain ⟨-, rfl⟩ := Prod.mk.inj (Option.some.inj (hi.symm.trans hi'))
  have hrecs : List.Forall₂ (VersionAt ps pages) (vs ++ [v]) (recs ++ [recData]) :=
    List.rel_append hr (.cons hv .nil)
  refine ⟨?_, recs ++ [recData], by rw [Function.update_self]; exact H', ?_⟩
  · rw [Function.update_self, hword _ (by decide)]
    exact h.kind
  · refine List.forall₂_iff_get.mpr ⟨hrecs.length_eq, fun i h1 h2 => ?_⟩
    refine (hrecs.get h1 h2).congr fun p hp => Function.update_of_ne ?_ _ _
    exact hc p (mem_overflowPages.mpr ⟨_, List.get_mem .., hp⟩)

/-! ## Freeing overflow pages -/

/-- The pages of the list are no longer in use; some of them may be on the free list. -/
structure Freed (used : Set Int) (pool pool' : Pool) (l : List Int) : Prop where
  owns : pool'.Owns (used \ {p | p ∈ l})
  pageSize : pool'.pageSize = pool.pageSize
  env : pool'.env = pool.env
  nextPage : pool'.nextPage = pool.nextPage
  frame : ∀ p, p ∉ l → pool'.pages p = pool.pages p
  count : ∀ p, pageRecordCount (pool'.pages p) = pageRecordCount (pool.pages p)

theorem Freed.none (ho : pool.Owns used) (l : List Int) : Freed used pool pool l :=
  ⟨ho.mono Set.sdiff_subset, rfl, rfl, rfl, fun _ _ => rfl, fun _ => rfl⟩

theorem Freed.trans {pool'' : Pool} {l l' : List Int} (h : Freed used pool pool' l)
    (h' : Freed (used \ {p | p ∈ l}) pool' pool'' l') : Freed used pool pool'' (l ++ l') where
  owns := h'.owns.mono fun p hp => by
    obtain ⟨hu, hn⟩ := hp
    rw [Set.mem_ofPred_eq, List.mem_append, not_or] at hn
    exact ⟨⟨hu, hn.1⟩, hn.2⟩
  pageSize := h'.pageSize.trans h.pageSize
  env := h'.env.trans h.env
  nextPage := h'.nextPage.trans h.nextPage
  frame p hp := by
    rw [List.mem_append, not_or] at hp
    exact (h'.frame p hp.2).trans (h.frame p hp.1)
  count p := (h'.count p).trans (h.count p)

theorem count_freePage (p q : Int) :
    pageRecordCount ((pool.freePage p).pages q) = pageRecordCount (pool.pages q) := by
  rw [Pool.freePage]
  split
  · rfl
  simp only
  split
  · rfl
  · rw [Pool.markDirty_pages]
    by_cases h : q = p
    · rw [h, Pool.setPage_pages_self]
      exact readInt32_writeInt32_of_ne (by decide)
    · rw [Pool.setPage_pages_of_ne h]

theorem freed_freePage (ho : pool.Owns used) (hp : p ∈ used) (hn : pool.nextPage ≤ 2147483648) :
    Freed used pool (pool.freePage p) [p] := by
  have hhead := ho.head
  have hnn := ho.next_nonneg
  have hfit : Fits32 pool.freeListHead := by
    constructor
    · omega
    · omega
  exact {
    owns := (ho.freePage hp hfit).mono fun q hq => ⟨hq.1, fun e => hq.2 (by rw [e]; simp)⟩
    pageSize := Pool.freePage_pageSize
    env := Pool.freePage_env
    nextPage := Pool.freePage_nextPage
    frame := fun q hq => Pool.freePage_pages_of_ne (by simpa using hq)
    count := count_freePage p }

theorem overflowFreeLoop_freed {l : List Int} {value : Bytes} (ho : pool.Owns used)
    (h : OverflowAt ps pool.pages l head value) (hnd : l.Nodup) (hsub : ∀ p ∈ l, p ∈ used)
    (hn : pool.nextPage ≤ 2147483648) (hf : l.length < fuel) :
    ∃ pool', overflowFreeLoop fuel pool head = some pool' ∧ Freed used pool pool' l := by
  induction l generalizing fuel pool used head value with
  | nil =>
    obtain ⟨fuel, rfl⟩ : ∃ n, fuel = n + 1 := ⟨fuel - 1, by omega⟩
    rw [overflowFreeLoop, h.1]
    exact ⟨pool, rfl, .none ho []⟩
  | cons p l ih =>
    obtain ⟨fuel, rfl⟩ : ∃ n, fuel = n + 1 := ⟨fuel - 1, by omega⟩
    obtain ⟨rfl, h0, -, -, hrest⟩ := h
    obtain ⟨hpl, hnd⟩ := List.nodup_cons.mp hnd
    rw [overflowFreeLoop, if_neg (by omega)]
    rcases pool.tryPin_or head with hpin | hpin
    · rw [hpin]
      exact ⟨pool, rfl, .none ho _⟩
    · rw [hpin]
      have hfree := freed_freePage ho (hsub head (by simp)) hn
      have hrest' := hrest.congr fun q hq => hfree.frame q fun hm =>
        hpl (List.mem_singleton.mp hm ▸ hq)
      obtain ⟨pool', heq, hfreed⟩ := ih hfree.owns hrest' hnd
        (fun q hq => ⟨hsub q (by simp [hq]), fun hm => hpl (List.mem_singleton.mp hm ▸ hq)⟩)
        (by rw [hfree.nextPage]; exact hn) (by simpa using hf)
      exact ⟨pool', heq, hfree.trans hfreed⟩

/-- `garry_overflow_free`. -/
theorem overflowFree_freed {l : List Int} {value : Bytes} (ho : pool.Owns used)
    (h : OverflowAt ps pool.pages l head value) (hnd : l.Nodup) (hsub : ∀ p ∈ l, p ∈ used)
    (hn : pool.nextPage ≤ 2147483648) :
    ∃ pool', overflowFree pool head = some pool' ∧ Freed used pool pool' l := by
  refine overflowFreeLoop_freed ho h hnd hsub hn ?_
  have hlen := length_le_of_nodup hnd fun q hq => ho.range q (hsub q hq)
  have hnn := ho.next_nonneg
  omega

/-! ## Pruning -/

/-- The versions that a pruning keeps. -/
def keptVersions (active : List Int) (vs : List StoredVersion) : List StoredVersion :=
  (vs.dropLast.filter fun v => Mvcc.pruneKeeps active v.version) ++ vs.getLast?.toList

/-- The versions that a pruning drops. -/
def droppedVersions (active : List Int) (vs : List StoredVersion) : List StoredVersion :=
  vs.dropLast.filter fun v => !Mvcc.pruneKeeps active v.version

theorem chainOf_keptVersions (active : List Int) (vs : List StoredVersion) :
    chainOf (keptVersions active vs) = Mvcc.prune active (chainOf vs) := by
  rcases vs.eq_nil_or_concat' with rfl | ⟨init, v, rfl⟩
  · rfl
  · rw [keptVersions, List.dropLast_concat, List.getLast?_concat, Option.toList_some,
      chainOf_concat, chainOf_concat, Mvcc.prune, chainOf, chainOf, List.filter_reverse,
      List.filter_map]
    rfl

theorem keptVersions_sublist (active : List Int) (vs : List StoredVersion) :
    (keptVersions active vs).Sublist vs := by
  rcases vs.eq_nil_or_concat' with rfl | ⟨init, v, rfl⟩
  · exact List.nil_sublist _
  · rw [keptVersions, List.dropLast_concat, List.getLast?_concat]
    exact List.filter_sublist.append_right _

/-- The pages of the dropped versions are not those of the kept ones. -/
theorem disjoint_dropped {active : List Int} {vs : List StoredVersion}
    (hnd : (overflowPages vs).Nodup) (hp : p ∈ overflowPages (droppedVersions active vs)) :
    p ∉ overflowPages (keptVersions active vs) := by
  rcases vs.eq_nil_or_concat' with rfl | ⟨init, w, rfl⟩
  · cases hp
  · rw [droppedVersions, List.dropLast_concat] at hp
    rw [keptVersions, List.dropLast_concat, List.getLast?_concat, Option.toList_some]
    rw [overflowPages, List.flatMap_append, List.nodup_append, List.nodup_flatMap] at hnd
    obtain ⟨v, hv, hpv⟩ := mem_overflowPages.mp hp
    obtain ⟨hv, hdrop⟩ := List.mem_filter.mp hv
    intro hk
    obtain ⟨u, hu, hpu⟩ := mem_overflowPages.mp hk
    rcases List.mem_append.mp hu with hu | hu
    · obtain ⟨hu, hkeep⟩ := List.mem_filter.mp hu
      have hne : v ≠ u := by
        rintro rfl
        rw [hkeep] at hdrop
        cases hdrop
      have hsymm : Std.Symm (Function.onFun List.Disjoint StoredVersion.pages) :=
        ⟨fun _ _ h => h.symm⟩
      exact hnd.1.2.forall hv hu hne hpv hpu
    · rw [List.mem_singleton.mp hu] at hpu
      exact hnd.2.2 p (List.mem_flatMap.mpr ⟨v, hv, hpv⟩) p (by simpa using hpu) rfl

theorem VersionAt.created_deleted (h : VersionAt ps pages v recData) :
    (readVersion recData).txidCreated = v.version.txid ∧ (readVersion recData).txidDeleted = 0 := by
  have h0 : Fits32 0 := by decide
  cases h with
  | tombstone txid ht =>
    have hr := readVersion_header ht h0 h0 1 0 []
    rw [List.append_nil] at hr
    exact ⟨by rw [hr], by rw [hr]⟩
  | inline txid value ht hl hle =>
    have hr := readVersion_header ht h0 hl 0 0 value
    exact ⟨by rw [hr], by rw [hr]⟩
  | overflow txid head value l ht hl hh hlt ho =>
    have hr := readVersion_header ht h0 hl 0 1 (word32 head)
    exact ⟨by rw [hr], by rw [hr]⟩

theorem VersionAt.pruneVisible (h : VersionAt ps pages v recData) (active : List Int) :
    pruneVisible active (readVersion recData) = Mvcc.pruneKeeps active v.version := by
  obtain ⟨hcreated, hdeleted⟩ := h.created_deleted
  rw [Garry.pruneVisible, hcreated, hdeleted, Bool.eq_iff_iff, Mvcc.pruneKeeps_iff,
    List.any_eq_true]
  simp only [ne_eq, not_true_eq_false, false_and, not_false_eq_true, and_true, Bool.and_eq_true,
    decide_eq_true_eq, Bool.not_eq_true', List.any_eq_false]
  constructor
  · rintro ⟨snap, hm, hle, hn⟩
    exact ⟨fun ha => hn _ ha rfl, snap, hm, hle⟩
  · rintro ⟨hn, snap, hm, hle⟩
    exact ⟨snap, hm, hle, fun a ha e => hn (e ▸ ha)⟩

theorem pruneFree_inline {recData : Bytes} (h : (readVersion recData).isOverflow = false)
    (recs : List Bytes) : pruneFree pool (recData :: recs) = pruneFree pool recs := by
  rw [pruneFree, if_neg]
  simp [h]

theorem pruneFree_overflow {t l head : Int} (ht : Fits32 t) (hl : Fits32 l) (hh : Fits32 head)
    (h0 : 0 ≤ head) (recs : List Bytes) :
    pruneFree pool ((versionHeader t 0 l 0 1 ++ word32 head) :: recs) =
      (overflowFree pool head).bind fun pool => pruneFree pool recs := by
  have hr := readVersion_header ht (by decide : Fits32 0) hl 0 1 (word32 head)
  have hhead : readInt32 (Bytes.toBuffer (versionHeader t 0 l 0 1 ++ word32 head)) 14 = head := by
    have := readInt32_toBuffer (versionHeader t 0 l 0 1) [] hh
    rw [List.append_nil] at this
    exact this
  rw [pruneFree, hhead, if_pos]
  refine ⟨le_of_eq rfl, ?_, h0⟩
  rw [hr]
  rfl

/-- The overflow pages of the dropped records go. -/
theorem pruneFree_freed {recs : List Bytes} {vs : List StoredVersion} (ho : pool.Owns used)
    (h : List.Forall₂ (VersionAt ps pages) vs recs)
    (hp : ∀ p ∈ overflowPages vs, pool.pages p = pages p) (hnd : (overflowPages vs).Nodup)
    (hsub : ∀ p ∈ overflowPages vs, p ∈ used) (hn : pool.nextPage ≤ 2147483648) :
    ∃ pool', pruneFree pool recs = some pool' ∧ Freed used pool pool' (overflowPages vs) := by
  have h0 : Fits32 0 := by decide
  induction h generalizing pool used with
  | nil => exact ⟨pool, rfl, .none ho []⟩
  | @cons v recData vs recs hv hvs ih =>
    have hcons : overflowPages (v :: vs) = v.pages ++ overflowPages vs := List.flatMap_cons
    rw [hcons] at hp hnd hsub ⊢
    obtain ⟨hndv, hnds, hdis⟩ := List.nodup_append.mp hnd
    cases hv with
    | tombstone txid ht =>
      have hr := readVersion_header ht h0 h0 1 0 []
      rw [List.append_nil] at hr
      rw [pruneFree_inline (by rw [hr]; rfl)]
      exact ih ho hp hnds hsub hn
    | inline txid value ht hl hle =>
      have hr := readVersion_header ht h0 hl 0 0 value
      rw [pruneFree_inline (by rw [hr]; rfl)]
      exact ih ho hp hnds hsub hn
    | overflow txid head value l ht hl hh hlt hstored =>
      obtain ⟨l', hhead⟩ := hstored.ne_nil fun e => by simp [e] at hlt
      have hpos : 0 ≤ head := (ho.range head (hsub head (by simp [hhead]))).1
      have hstored' := hstored.congr fun p hm => hp p (List.mem_append_left _ hm)
      obtain ⟨pool₁, h₁, hf₁⟩ := overflowFree_freed ho hstored' hndv
        (fun p hm => hsub p (List.mem_append_left _ hm)) hn
      rw [pruneFree_overflow ht hl hh hpos, h₁, Option.bind_some]
      obtain ⟨pool₂, h₂, hf₂⟩ := ih hf₁.owns
        (fun p hm => (hf₁.frame p fun hl => hdis p hl p hm rfl).trans
          (hp p (List.mem_append_right _ hm))) hnds
        (fun p hm => ⟨hsub p (List.mem_append_right _ hm), fun hl => hdis p hl p hm rfl⟩)
        (by rw [hf₁.nextPage]; exact hn)
      exact ⟨pool₂, h₂, hf₁.trans hf₂⟩

/-- Records that fit go into the page. -/
theorem pruneInsert_holds {recs acc : List Bytes} {buf : PageBuffer} (H : Holds ps buf acc)
    (hne : ∀ r ∈ recs, r ≠ []) (hfit : RecordsFit ps (acc ++ recs))
    (hslots : (acc ++ recs).length ≤ maxSlots) :
    ∃ buf', pruneInsert buf recs = some buf' ∧ Holds ps buf' (acc ++ recs) ∧
      readInt32 buf' pageHdrOffType = readInt32 buf pageHdrOffType := by
  induction recs generalizing acc buf with
  | nil => exact ⟨buf, rfl, by rw [List.append_nil]; exact H, rfl⟩
  | cons recData recs ih =>
    have hroom : HasRoom ps acc recData.length := by
      simp only [RecordsFit, List.length_append, List.length_cons, usedBytes_append,
        usedBytes_cons, pageHeaderSize, slotSize] at hfit hslots
      constructor
      · omega
      · simp only [pageHeaderSize, slotSize]
        omega
    obtain ⟨buf₁, hi, H₁, hword⟩ := pageInsert_some H (hne recData (by simp)) hroom
    have hassoc : acc ++ recData :: recs = (acc ++ [recData]) ++ recs := by simp
    rw [hassoc] at hfit hslots ⊢
    obtain ⟨buf', h, H', hw⟩ := ih H₁ (fun r hr => hne r (by simp [hr])) hfit hslots
    refine ⟨buf', ?_, H', hw.trans (hword _ (by decide))⟩
    rw [pruneInsert, hi]
    exact h

theorem forall₂_concat {α β : Type} {R : α → β → Prop} {l : List α} {a : α} {l' : List β}
    (h : List.Forall₂ R (l ++ [a]) l') :
    ∃ l₁ b, List.Forall₂ R l l₁ ∧ R a b ∧ l' = l₁ ++ [b] := by
  induction l generalizing l' with
  | nil =>
    cases h with
    | cons hab h =>
      cases h
      exact ⟨[], _, .nil, hab, rfl⟩
  | cons x l ih =>
    cases h with
    | cons hxy h =>
      obtain ⟨l₁, b, h1, h2, rfl⟩ := ih h
      exact ⟨_ :: l₁, b, .cons hxy h1, h2, rfl⟩

theorem forall₂_filter {α β : Type} {R : α → β → Prop} {p : α → Bool} {q : β → Bool} {l : List α}
    {l' : List β} (h : List.Forall₂ R l l') (hpq : ∀ a b, R a b → p a = q b) :
    List.Forall₂ R (l.filter p) (l'.filter q) := by
  induction h with
  | nil => exact .nil
  | @cons a b l l' hab hl ih =>
    rw [List.filter_cons, List.filter_cons, hpq a b hab]
    split
    · exact .cons hab ih
    · exact ih

theorem filter_map_pair {α : Type} (p : α → Bool) (l : List α) :
    ((l.map fun r => (r, p r)).filter fun r => r.2).map Prod.fst = l.filter p ∧
      ((l.map fun r => (r, p r)).filter fun r => !r.2).map Prod.fst = l.filter fun r => !p r := by
  induction l with
  | nil => exact ⟨rfl, rfl⟩
  | cons a l ih =>
    obtain ⟨h1, h2⟩ := ih
    rw [List.map_cons]
    cases h : p a <;> simp [h, h1, h2]

/-- The records of a chain page with the marks of the pruning. -/
theorem prune_records {rinit : List Bytes} {r : Bytes} {buf : PageBuffer} (active : List Int)
    (H : Holds ps buf (rinit ++ [r])) (hlen : ∀ x ∈ rinit ++ [r], chainPruneMinLen ≤ x.length) :
    ((List.range (rinit.length + 1)).map fun i =>
        ((pageGet buf i ps).getD [],
          pruneKeeps active (rinit.length + 1) i ((pageGet buf i ps).getD []))) =
      (rinit.map fun x => (x, pruneVisible active (readVersion x))) ++ [(r, true)] := by
  have hget (i : Nat) (x : Bytes) (hx : (rinit ++ [r])[i]? = some x) :
      (pageGet buf i ps).getD [] = x := by rw [pageGet_holds H hx]; rfl
  rw [List.range_succ, List.map_append, List.map_singleton]
  have hr : (rinit ++ [r])[rinit.length]? = some r := by simp
  congr 1
  · apply List.ext_getElem
    · simp
    intro i h1 h2
    have hi : i < rinit.length := by simpa using h1
    have hx : (rinit ++ [r])[i]? = some rinit[i] := by
      rw [List.getElem?_append_left hi, List.getElem?_eq_getElem hi]
    rw [List.getElem_map, List.getElem_range, List.getElem_map, hget i _ hx, pruneKeeps,
      if_pos (hlen _ (by simp)), if_neg (by omega)]
  · rw [hget _ _ hr, pruneKeeps, if_pos (hlen _ (by simp)), if_pos (by omega)]

/-- The records that a pruning keeps. -/
def keptRecords (active : List Int) (recs : List Bytes) : List Bytes :=
  (recs.dropLast.filter fun x => pruneVisible active (readVersion x)) ++ recs.getLast?.toList

/-- The records that a pruning drops. -/
def droppedRecords (active : List Int) (recs : List Bytes) : List Bytes :=
  recs.dropLast.filter fun x => !pruneVisible active (readVersion x)

theorem keptRecords_sublist (active : List Int) (recs : List Bytes) :
    (keptRecords active recs).Sublist recs := by
  rcases recs.eq_nil_or_concat' with rfl | ⟨init, r, rfl⟩
  · exact List.nil_sublist _
  · rw [keptRecords, List.dropLast_concat, List.getLast?_concat]
    exact List.filter_sublist.append_right _

/-- `garry_chain_page_prune` of a page with records that are long enough to be versions. -/
theorem chainPagePrune_holds {buf : PageBuffer} {recs : List Bytes} (H : Holds ps buf recs)
    (hlen : ∀ x ∈ recs, chainPruneMinLen ≤ x.length) (active : List Int) :
    ∃ buf', Holds ps buf' (keptRecords active recs) ∧
      (readInt32 buf pageHdrOffType = NodeKind.chain.code →
        readInt32 buf' pageHdrOffType = NodeKind.chain.code) ∧
      ∀ pool, chainPagePrune pool buf ps active =
        (pruneFree pool (droppedRecords active recs)).map fun pool' => (pool', buf') := by
  have hcount : (pageRecordCount buf).toNat = recs.length := by
    rw [pageRecordCount, H.count, Int.toNat_natCast]
  simp only [chainPagePrune, hcount]
  by_cases hle : recs.length ≤ 1
  · have hsame : droppedRecords active recs = [] ∧ keptRecords active recs = recs := by
      rcases recs.eq_nil_or_concat' with rfl | ⟨init, r, rfl⟩
      · exact ⟨rfl, rfl⟩
      · obtain rfl : init = [] := List.eq_nil_of_length_eq_zero (by simpa using hle)
        exact ⟨rfl, rfl⟩
    refine ⟨buf, hsame.2.symm ▸ H, id, fun pool => ?_⟩
    rw [hsame.1, if_pos hle]
    rfl
  · rcases recs.eq_nil_or_concat' with rfl | ⟨init, r, rfl⟩
    · exact absurd (Nat.zero_le _) hle
    have hcnt : (init ++ [r]).length = init.length + 1 := by simp
    have hsub := keptRecords_sublist active (init ++ [r])
    have H0 : Holds ps (chainPageInit (fun _ => 0) ps) [] :=
      pageInit_holds _ .chain 0 (by have := H.fits; simp only [RecordsFit] at this; omega) H.size
    obtain ⟨tmp, hins, Htmp, hword⟩ := pruneInsert_holds H0
      (fun x hx => H.nonempty x (hsub.subset hx)) (H.fits.sublist hsub)
      (hsub.length_le.trans H.slots)
    have h32 : pageHeaderSize ≤ ps := by
      have := H.fits
      simp only [RecordsFit] at this
      omega
    refine ⟨fun j => if j < ps then tmp j else buf j, Htmp.congr fun j hj => (if_pos hj).symm,
      fun _ => ?_, fun pool => ?_⟩
    · refine (readInt32_congr fun j hj => if_pos ?_).trans
        (hword.trans (pageInit_word _ .chain 0 ps).1)
      simp only [pageHdrOffType, pageHeaderSize] at h32 ⊢
      omega
    · obtain ⟨hk1, hk2⟩ := filter_map_pair (fun x => pruneVisible active (readVersion x)) init
      have hdropped : droppedRecords active (init ++ [r]) =
          init.filter fun x => !pruneVisible active (readVersion x) := by
        rw [droppedRecords, List.dropLast_concat]
      have hkept : keptRecords active (init ++ [r]) =
          (init.filter fun x => pruneVisible active (readVersion x)) ++ [r] := by
        rw [keptRecords, List.dropLast_concat, List.getLast?_concat, Option.toList_some]
      rw [if_neg hle, hcnt, prune_records active H hlen, List.filter_append, List.filter_append,
        List.map_append, List.map_append, hk1, hk2]
      have hd0 : (List.filter (fun r : Bytes × Bool => !r.2) [(r, true)]).map Prod.fst = [] := rfl
      have hd1 : (List.filter (fun r : Bytes × Bool => r.2) [(r, true)]).map Prod.fst = [r] := rfl
      rw [hd0, hd1, List.append_nil, ← hdropped, ← hkept, hins]

theorem Holds.pruned {buf buf' : PageBuffer} {recs : List Bytes} (H : Holds ps buf recs)
    (hlen : ∀ x ∈ recs, chainPruneMinLen ≤ x.length)
    (h : chainPagePrune pool buf ps active = some (pool', buf')) :
    Holds ps buf' (keptRecords active recs) := by
  obtain ⟨buf₁, H₁, -, heq⟩ := chainPagePrune_holds H hlen active
  obtain ⟨pool₁, -, h₁⟩ := Option.map_eq_some_iff.mp ((heq pool).symm.trans h)
  obtain ⟨-, rfl⟩ := Prod.mk.inj h₁
  exact H₁

/-- The records of the kept and of the dropped versions. -/
theorem forall₂_kept {vs : List StoredVersion} {recs : List Bytes} (active : List Int)
    (h : List.Forall₂ (VersionAt ps pages) vs recs) :
    List.Forall₂ (VersionAt ps pages) (keptVersions active vs) (keptRecords active recs) ∧
      List.Forall₂ (VersionAt ps pages) (droppedVersions active vs) (droppedRecords active recs) := by
  rcases vs.eq_nil_or_concat' with rfl | ⟨init, v, rfl⟩
  · cases h
    exact ⟨.nil, .nil⟩
  obtain ⟨rinit, r, hinit, hlast, rfl⟩ := forall₂_concat h
  have hp (w : StoredVersion) (x : Bytes) (hw : VersionAt ps pages w x) :
      Mvcc.pruneKeeps active w.version = pruneVisible active (readVersion x) :=
    (hw.pruneVisible active).symm
  rw [keptVersions, keptRecords, droppedVersions, droppedRecords, List.dropLast_concat,
    List.dropLast_concat, List.getLast?_concat, List.getLast?_concat]
  constructor
  · exact List.rel_append (forall₂_filter hinit hp) (.cons hlast .nil)
  · exact forall₂_filter hinit fun w x hw => congrArg _ (hp w x hw)

theorem length_le_of_forall₂ {vs : List StoredVersion} {recs : List Bytes}
    (h : List.Forall₂ (VersionAt ps pages) vs recs) : ∀ x ∈ recs, chainPruneMinLen ≤ x.length := by
  intro x hx
  obtain ⟨i, hi, rfl⟩ := List.getElem_of_mem hx
  exact le_trans (by decide) (h.get (h.length_eq ▸ hi) hi).length_le

/-- `garry_chain_page_prune` frees the overflow pages of the versions that it drops; the page keeps
the others, wherever their overflow pages are as before. -/
theorem ChainAt.prune_eq {vs : List StoredVersion} (h : ChainAt ps pool.pages cid vs)
    (hcid : cid ∉ overflowPages vs) (active : List Int) :
    ∃ recs buf, List.Forall₂ (VersionAt ps pool.pages) (droppedVersions active vs) recs ∧
      chainPagePrune pool (pool.pages cid) ps active =
        (pruneFree pool recs).map (fun pool' => (pool', buf)) ∧
      ∀ pages', (∀ p ∈ overflowPages (keptVersions active vs), pages' p = pool.pages p) →
        ChainAt ps (Function.update pages' cid buf) cid (keptVersions active vs) := by
  obtain ⟨recs, H, hr⟩ := h.records
  obtain ⟨buf, Hbuf, hkind, heq⟩ := chainPagePrune_holds H (length_le_of_forall₂ hr) active
  obtain ⟨hkept, hdrop⟩ := forall₂_kept active hr
  refine ⟨_, buf, hdrop, heq pool, fun pages' hp => ?_⟩
  refine ⟨?_, keptRecords active recs, ?_, List.forall₂_iff_get.mpr ⟨hkept.length_eq, fun i h1 h2 => ?_⟩⟩
  · rw [Function.update_self]
    exact hkind h.kind
  · rw [Function.update_self]
    exact Hbuf
  · refine (hkept.get h1 h2).congr fun p hm => ?_
    have hpk := mem_overflowPages.mpr ⟨_, List.get_mem .., hm⟩
    have hpc : p ≠ cid := by
      rintro rfl
      obtain ⟨w, hw, hpw⟩ := mem_overflowPages.mp hpk
      exact hcid (mem_overflowPages.mpr ⟨w, (keptVersions_sublist _ _).subset hw, hpw⟩)
    rw [Function.update_of_ne hpc]
    exact hp p hpk

theorem overflowPages_dropped_sublist (active : List Int) (vs : List StoredVersion) :
    (overflowPages (droppedVersions active vs)).Sublist (overflowPages vs) :=
  (List.filter_sublist.trans (List.dropLast_sublist vs)).flatMap _

/-- The dropped versions' overflow pages are no longer in use. -/
theorem ChainAt.prune {vs : List StoredVersion} (h : ChainAt ps pool.pages cid vs)
    (ho : pool.Owns used) (hnd : (overflowPages vs).Nodup) (hsub : ∀ p ∈ overflowPages vs, p ∈ used)
    (hcid : cid ∉ overflowPages vs) (hn : pool.nextPage ≤ 2147483648) (active : List Int) :
    ∃ pool' buf, chainPagePrune pool (pool.pages cid) ps active = some (pool', buf) ∧
      Freed used pool pool' (overflowPages (droppedVersions active vs)) ∧
      ChainAt ps (Function.update pool'.pages cid buf) cid (keptVersions active vs) := by
  obtain ⟨recs, buf, hdrop, heq, hkept⟩ := h.prune_eq hcid active
  have hsubl := overflowPages_dropped_sublist active vs
  obtain ⟨pool', hfree, hfreed⟩ := pruneFree_freed ho hdrop (fun _ _ => rfl) (hnd.sublist hsubl)
    (fun p hm => hsub p (hsubl.subset hm)) hn
  refine ⟨pool', buf, ?_, hfreed, hkept _ fun p hm => ?_⟩
  · rw [heq, hfree, Option.map_some]
  · exact hfreed.frame p fun hd => disjoint_dropped hnd hd hm

end Garry
