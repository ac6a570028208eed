import PgRetrofit.Sanity.BtSplitChoice
import PgRetrofit.Sanity.BtSplitScan

/-! `_bt_findsplitloc` on every full page: it finds a feasible split, whatever the sizes, the place
of the new item and the strategy. -/

namespace Pg.BtSplit

open CutPoints Result List Binary64 Nat

variable {τ : Type} {rel : Relation τ} {page : Page τ} {newitemoff newitemsz : ℕ} {newitem : τ}

def Page.dataItems (page : Page τ) : List (Item τ) := page.linp.drop (page.firstDataKey - 1)

def hikeySize (page : Page τ) : ℕ := ((page.linp.take (page.firstDataKey - 1)).map Item.itemsz).sum

def itemSpace (page : Page τ) : ℕ := page.pageSize - sizeOfPageHeaderData - maxalign sizeOfBtPageOpaque

structure FullPage (page : Page τ) (newitemoff newitemsz : ℕ) : Prop where
  pageSize : 1024 ≤ page.pageSize ∧ page.pageSize ≤ 32768
  compact : page.exactFreeSpace + (page.linp.map Item.itemsz).sum = itemSpace page
  full : page.exactFreeSpace < newitemsz + sizeOfItemId
  tuples : sizeOfIndexTuple ≤ newitemsz ∧ ∀ item ∈ page.linp, sizeOfIndexTuple ≤ item.length
  hikey : page.isRightmost = false →
    ∃ hikey rest, page.linp = hikey :: rest ∧ hikey.length ≤ btMaxItemSizeNoHeapTid page.pageSize
  leaf : page.isLeaf = true → newitemsz ≤ btMaxItemSize page.pageSize ∧
    ∀ item ∈ page.dataItems, item.length ≤ btMaxItemSize page.pageSize
  internal : page.isLeaf = false → newitemsz ≤ btMaxItemSizeNoHeapTid page.pageSize ∧
    ∀ item ∈ page.dataItems, item.length ≤ btMaxItemSizeNoHeapTid page.pageSize
  /-- the first item of an internal page has no key -/
  bare : page.isLeaf = false →
    ∃ first rest, page.dataItems = first :: rest ∧ first.length = sizeOfIndexTuple
  position : page.firstDataKey ≤ newitemoff ∧ newitemoff ≤ page.maxoff + 1

/-- A third of the page, about: no item is larger. -/
def sizeBound (page : Page τ) : ℕ := (if page.isLeaf then btMaxItemSize page.pageSize
    else btMaxItemSizeNoHeapTid page.pageSize) + sizeOfItemId

theorem maxalign_le {n k : ℕ} (h : n ≤ maxalignDown k) : maxalign n ≤ maxalignDown k := by
  unfold maxalign maxalignDown at *
  omega

theorem maxalign_opaque : maxalign sizeOfBtPageOpaque = 16 := by decide

theorem btMaxItemSize_le (pageSize : ℕ) (h : 1024 ≤ pageSize) :
    3 * (btMaxItemSize pageSize + 4) + 60 ≤ pageSize := by
  have hhead : maxalign (sizeOfPageHeaderData + 3 * sizeOfItemId + 3 * sizeOfItemPointer) = 56 := by
    decide
  have hopaque := maxalign_opaque
  rw [btMaxItemSize, hhead]
  unfold maxalignDown
  omega

theorem btMaxItemSizeNoHeapTid_le (pageSize : ℕ) (h : 1024 ≤ pageSize) :
    3 * (btMaxItemSizeNoHeapTid pageSize + 4) + 44 ≤ pageSize := by
  have hhead : maxalign (sizeOfPageHeaderData + 3 * sizeOfItemId) = 40 := by decide
  have hopaque := maxalign_opaque
  rw [btMaxItemSizeNoHeapTid, hhead]
  unfold maxalignDown
  omega

theorem itemSpace_eq (page : Page τ) : itemSpace page = page.pageSize - 40 := by
  have hopaque := maxalign_opaque
  rw [itemSpace, show sizeOfPageHeaderData = 24 from rfl]
  omega

namespace FullPage

/-- Moving a bare header to the left page improves the delta of a split that leaves the left page
empty. -/
theorem deltaOf_front {space new free : ℤ} (hspace : 984 ≤ space ∧ space ≤ 32728)
    (hnew : 3 * new ≤ space) (hfree : 12 ≤ free ∧ free < new) (usemult : Bool) (off : ℕ) :
    |deltaOf (div 70 100) usemult ⟨0, space - new - 12, free, off, true⟩| < |deltaOf (div 70 100) usemult
      ⟨0, space - new, free - 12, off, false⟩| := by
  cases usemult with
  | false =>
    simp only [deltaOf, Bool.false_eq_true, if_false]
    rw [abs_of_nonneg (by omega), abs_of_nonneg (by omega)]
    omega
  | true => ?_
  have hfactor : Factor (div 70 100) := factor_div 70 (by omega)
  have hround := abs_le.1 (abs_round_sub_le_of_le (x := 70 / 100) (by norm_num))
  have hbetter := abs_le.1 (deltaOf_near ⟨0, space - new - 12, free, off, true⟩ hfactor
    ⟨⟨by dsimp only; omega, by dsimp only; omega⟩, by dsimp only; omega, by dsimp only; omega⟩)
  have hworse := abs_le.1 (deltaOf_near ⟨0, space - new, free - 12, off, false⟩ hfactor
    ⟨⟨by dsimp only; omega, by dsimp only; omega⟩, by dsimp only; omega, by dsimp only; omega⟩)
  push_cast at hbetter hworse
  have hs : (984 : ℚ) ≤ space := by exact_mod_cast hspace.1
  have hn : 3 * (new : ℚ) ≤ space := by exact_mod_cast hnew
  have hf : (free : ℚ) ≤ new := by exact_mod_cast hfree.2.le
  have hf0 : (12 : ℚ) ≤ free := by exact_mod_cast hfree.1
  have hlow : 69 / 100 ≤ div 70 100 := by
    rw [div]
    linarith [hround.1]
  have hhigh : div 70 100 ≤ 71 / 100 := by
    rw [div]
    linarith [hround.2]
  generalize div 70 100 = f at *
  generalize deltaOf f true ⟨0, space - new - 12, free, off, true⟩ = better at hbetter ⊢
  generalize deltaOf f true ⟨0, space - new, free - 12, off, false⟩ = worse at hworse ⊢
  have hpos : (0 : ℚ) < better := by nlinarith only [hbetter.1, hs, hn, hf, hf0, hlow, hhigh]
  have hlt : (better : ℚ) < worse := by linarith [hbetter.2, hworse.1]
  have hpos' : 0 < better := by exact_mod_cast hpos
  have hlt' : better < worse := by exact_mod_cast hlt
  rwa [abs_of_pos hpos', abs_of_pos (hpos'.trans hlt')]

variable (h : FullPage page newitemoff newitemsz)

include h

theorem space : 984 ≤ itemSpace page ∧ itemSpace page ≤ 32728 := by
  have := h.pageSize
  rw [itemSpace_eq]
  omega

theorem three_sizeBound : 3 * sizeBound page + (if page.isLeaf then 20 else 4) ≤ itemSpace page := by
  have hsize := h.pageSize
  have h1 := btMaxItemSize_le page.pageSize hsize.1
  have h2 := btMaxItemSizeNoHeapTid_le page.pageSize hsize.1
  rw [itemSpace_eq, sizeBound, show sizeOfItemId = 4 from rfl]
  split_ifs <;> omega

theorem newitem_le : newitemsz + sizeOfItemId ≤ sizeBound page := by
  rw [sizeBound]
  split_ifs with hleaf
  · exact Nat.add_le_add_right (h.leaf hleaf).1 _
  · exact Nat.add_le_add_right (h.internal (by simpa using hleaf)).1 _

theorem item_le {item : Item τ} (hin : item ∈ page.dataItems) : item.itemsz ≤ sizeBound page := by
  rw [sizeBound]
  split_ifs with hleaf
  · exact Nat.add_le_add_right (maxalign_le ((h.leaf hleaf).2 item hin)) _
  · exact Nat.add_le_add_right (maxalign_le ((h.internal (by simpa using hleaf)).2 item hin)) _

theorem le_item {item : Item τ} (hin : item ∈ page.dataItems) : 12 ≤ item.itemsz := by
  have htuple := h.tuples.2 item (mem_of_mem_drop hin)
  have := le_maxalign item.length
  rw [Item.itemsz, show sizeOfItemId = 4 from rfl]
  rw [show sizeOfIndexTuple = 8 from rfl] at htuple
  omega

theorem hikey_le : 3 * hikeySize page + 4 ≤ itemSpace page := by
  have hsize := h.pageSize
  have hbound := btMaxItemSizeNoHeapTid_le page.pageSize hsize.1
  rw [itemSpace_eq, hikeySize, Page.firstDataKey]
  cases hright : page.isRightmost with
  | true =>
    simp
    omega
  | false => ?_
  obtain ⟨hikey, rest, hlinp, hlen⟩ := h.hikey hright
  have := maxalign_le hlen
  simp only [Bool.false_eq_true, if_false, hlinp, reduceSub, take_succ_cons, take_zero, map_cons,
    map_nil, sum_cons, sum_nil, Item.itemsz, sizeOfItemId]
  rw [btMaxItemSizeNoHeapTid] at hbound
  omega

theorem compact_data :
    page.exactFreeSpace + hikeySize page + (page.dataItems.map Item.itemsz).sum = itemSpace page := by
  rw [← h.compact, hikeySize, Page.dataItems, add_assoc, ← sum_append_nat,
    ← map_append, take_append_drop]

theorem rightSpace_eq : rightSpace page = .ok ((itemSpace page : ℤ) - hikeySize page) := by
  have hopaque := maxalign_opaque
  have hsize := h.pageSize
  rw [rightSpace, hikeySize, Page.firstDataKey, itemSpace_eq, show sizeOfPageHeaderData = 24 from rfl]
  cases hright : page.isRightmost with
  | true =>
    simp
    omega
  | false =>
    obtain ⟨hikey, rest, hlinp, -⟩ := h.hikey hright
    simp [Page.getItem, hlinp, ok_bind]
    omega

omit h

def start (rel : Relation τ) (page : Page τ) (newitemoff newitemsz : ℕ) (newitem : τ) :
    FindSplitData τ :=
  initialState rel page newitemoff newitemsz newitem ((itemSpace page : ℤ) - hikeySize page)

def cands (page : Page τ) (newitemoff : ℕ) : List Cand :=
  candidates newitemoff page.dataItems page.firstDataKey 0

abbrev state (_h : FullPage page newitemoff newitemsz) (rel : Relation τ) (newitem : τ) :
    FindSplitData τ :=
  start rel page newitemoff newitemsz newitem

abbrev allSizes (_h : FullPage page newitemoff newitemsz) : List ℕ :=
  withNew newitemoff (newitemsz + sizeOfItemId) page.dataItems page.firstDataKey

variable {st : FindSplitData τ}

/-- What the fields hold when the search starts -/
structure Starts (page : Page τ) (newitemoff newitemsz : ℕ) (st : FindSplitData τ) : Prop where
  leftspace : st.leftspace = itemSpace page
  rightspace : st.rightspace = itemSpace page - hikeySize page
  total : st.olddataitemstotal = ((page.dataItems.map Item.itemsz).sum : ℕ)
  newitemsz : st.newitemsz = newitemsz + sizeOfItemId
  newitemoff : st.newitemoff = newitemoff
  page : st.page = page

include h

theorem starts (hst : st = h.state rel newitem) : Starts page newitemoff newitemsz st := by
  have hsize := h.pageSize
  have hcompact := h.compact_data
  have hopaque := maxalign_opaque
  subst hst
  refine ⟨?_, rfl, ?_, rfl, rfl, rfl⟩
  · simp only [start, initialState, itemSpace_eq, hopaque, show sizeOfPageHeaderData = 24 from rfl]
    omega
  · simp only [start, initialState]
    omega

theorem length_dataItems : page.firstDataKey + page.dataItems.length = page.maxoff + 1 := by
  have hfirst := firstDataKey_pos page
  have hpos := h.position
  rw [Page.dataItems, length_drop, Page.maxoff]
  rw [Page.maxoff] at hpos
  omega

theorem sum_all :
    h.allSizes.sum = (page.dataItems.map Item.itemsz).sum + (newitemsz + sizeOfItemId) := by
  rw [sum_withNew, if_pos h.position.1]

theorem mem_all {x : ℕ} (hx : x ∈ h.allSizes) : 12 ≤ x ∧ x ≤ sizeBound page := by
  have hnew := h.newitem_le
  have hmin := h.tuples.1
  have hitems : ∀ item ∈ page.dataItems, 12 ≤ item.itemsz ∧ item.itemsz ≤ sizeBound page :=
    fun item hin => ⟨h.le_item hin, h.item_le hin⟩
  have hself : 12 ≤ newitemsz + sizeOfItemId := by
    rw [show sizeOfIndexTuple = 8 from rfl] at hmin
    rw [show sizeOfItemId = 4 from rfl]
    omega
  unfold allSizes at hx
  generalize page.dataItems = items at hx hitems
  generalize page.firstDataKey = off at hx
  induction items generalizing off with
  | nil =>
    rw [withNew] at hx
    split_ifs at hx
    · rw [mem_singleton.1 hx]
      exact ⟨hself, hnew⟩
    · exact absurd hx not_mem_nil
  | cons item items ih => ?_
  rw [withNew, mem_append] at hx
  rcases hx with hx | hx
  · have hitem := hitems item mem_cons_self
    split_ifs at hx
    · rcases mem_pair.1 hx with rfl | rfl
      · exact ⟨hself, hnew⟩
      · exact hitem
    · rw [mem_singleton.1 hx]
      exact hitem
  · exact ih (fun item hin => hitems item (mem_cons_of_mem _ hin)) _ hx

variable {c : Cand}

theorem placed (hc : c ∈ cands page newitemoff) :
    c.Placed newitemoff page.dataItems page.firstDataKey 0 := by
  refine placed_of_mem hc ?_
  rw [h.length_dataItems]
  exact h.position.2

theorem none_left (hc : c ∈ cands page newitemoff)
    (hno : ¬ (page.firstDataKey < c.off ∨ c.onleft = true)) :
    c.off = page.firstDataKey ∧ c.onleft = false ∧ c.left = 0 := by
  have hp := h.placed hc
  have hoff : c.off = page.firstDataKey := le_antisymm (not_lt.1 fun hlt => hno (.inl hlt)) hp.low
  have hleft := hp.left_eq
  rw [hoff, Nat.sub_self, take_zero, map_nil] at hleft
  exact ⟨hoff, by simpa using fun hon => hno (.inr hon), hleft⟩

theorem bare_itemsz (hinner : page.isLeaf = false) :
    ∃ first rest, page.dataItems = first :: rest ∧ first.itemsz = 12 := by
  obtain ⟨first, rest, hdata, hlen⟩ := h.bare hinner
  exact ⟨first, rest, hdata, by rw [Item.itemsz, hlen]; decide⟩

theorem cut_pos (state : FindSplitData τ) (hc : c ∈ cands page newitemoff) (hpos : 0 < (c.cut state).1) :
    page.firstDataKey < c.off ∨ c.onleft = true := by
  by_contra hno
  obtain ⟨-, hon, hleft⟩ := h.none_left hc hno
  simp [Cand.cut, hon, hleft] at hpos

variable (hs : Starts page newitemoff newitemsz st)
include hs

theorem sizes : Sizes st := by
  have hspace := h.space
  have hbound := h.three_sizeBound
  have hnew := h.newitem_le
  have hcompact := h.compact_data
  refine ⟨?_, ?_, ?_, ?_⟩
  · rw [hs.leftspace]
    omega
  · rw [hs.leftspace, hs.rightspace]
    omega
  · rw [hs.total, hs.rightspace]
    omega
  · rw [hs.newitemsz]
    split_ifs at hbound <;> omega

theorem cuts_eq : (cands page newitemoff).map (Cand.cut st) = cuts 0 h.allSizes := by
  have hcuts := candidates_cuts st page.dataItems page.firstDataKey 0
  rw [hs.newitemoff, hs.newitemsz, if_neg (not_lt.2 h.position.1)] at hcuts
  exact hcuts

theorem cut_le (hc : c ∈ cands page newitemoff) : (c.cut st).1 + (c.cut st).2 ≤
        (page.dataItems.map Item.itemsz).sum + (newitemsz + sizeOfItemId) ∧
      12 ≤ (c.cut st).2 ∧ (c.cut st).2 ≤ sizeBound page := by
  have hmem : c.cut st ∈ cuts 0 h.allSizes := by
    rw [← h.cuts_eq hs]
    exact mem_map_of_mem hc
  obtain ⟨hle, hin⟩ := le_of_mem_cuts hmem
  rw [h.sum_all, zero_add] at hle
  exact ⟨hle, h.mem_all hin⟩

theorem inRange (hc : c ∈ cands page newitemoff) : InRange st c := by
  obtain ⟨hcut, -, hfr⟩ := h.cut_le hs hc
  have hbound := h.three_sizeBound
  have hspace := h.space
  refine ⟨?_, ?_, ?_⟩
  · rw [hs.total, (h.placed hc).left_eq, zero_add]
    have hsub := (take_sublist (c.off - page.firstDataKey) page.dataItems).map Item.itemsz
    exact_mod_cast hsub.sum_le_sum fun _ _ => zero_le _
  · refine hfr.trans ?_
    split_ifs at hbound <;> omega
  · rw [hs.total, hs.newitemsz]
    exact_mod_cast hcut

theorem exists_cand (x : ℕ × ℕ) (hx : x ∈ cuts 0 h.allSizes) :
    ∃ c ∈ cands page newitemoff, c.cut st = x := by
  rw [← h.cuts_eq hs] at hx
  exact mem_map.1 hx

theorem legal_iff : Legal st c ↔
    (c.cut st).1 + (c.cut st).2 + (if page.isLeaf then 8 else 0) ≤ itemSpace page ∧
      newitemsz + sizeOfItemId + (if page.isLeaf then 0 else 12) ≤
        (c.cut st).1 + page.exactFreeSpace + if page.isLeaf then 0 else (c.cut st).2 := by
  have hcompact := h.compact_data
  rw [Legal, leftFree, rightFree, appendedTid, hs.leftspace, hs.rightspace,
    hs.newitemsz, hs.total, hs.page]
  cases page.isLeaf
  · simp only [Bool.false_eq_true, if_false]
    omega
  · simp only [if_true]
    omega

/-- A cut that fills the left page leaves less than the rest to the right page. -/
theorem exists_legal : ∃ c ∈ cands page newitemoff, Legal st c := by
  have hthird := h.three_sizeBound
  have hhikey := h.hikey_le
  have hnew := h.newitem_le
  have hcompact := h.compact_data
  have hfull := h.full
  -- one item and the new one are not all
  obtain ⟨x, y, rest, hall⟩ : ∃ x y rest, h.allSizes = x :: y :: rest := by
    have hlen : h.allSizes.length = _ := length_withNew ..
    have hsome : page.dataItems ≠ [] := by
      intro hnil
      rw [hnil, map_nil, sum_nil] at hcompact
      split_ifs at hthird <;> omega
    have hpos := length_pos_of_ne_nil hsome
    rw [if_pos h.position.1] at hlen
    match hw : h.allSizes with
    | [] =>
      rw [hw, length_nil] at hlen
      omega
    | [z] =>
      rw [hw, length_singleton] at hlen
      omega
    | x :: y :: rest => exact ⟨x, y, rest, rfl⟩
  have hmem := fun z hz => h.mem_all (x := z) hz
  have hsum := h.sum_all
  rw [hall] at hmem hsum
  rw [sum_cons] at hsum
  have hx := hmem x (by simp)
  have hy := hmem y (by simp)
  obtain ⟨cut, hcut, hroom, hlast⟩ :=
    exists_full_cut (s := x) (sizeBound page) (itemSpace page - if page.isLeaf then 8 else 0)
    (by split_ifs at hthird ⊢ <;> omega) fun z hz => (hmem z (mem_cons_of_mem _ hz)).2
  have hcutmem := (le_of_mem_cuts hcut).2
  have hcutbound := hmem _ (mem_cons_of_mem _ hcutmem)
  obtain ⟨c, hc, heq⟩ := h.exists_cand hs cut (by
    rw [hall]
    refine mem_cons_of_mem _ ?_
    rwa [zero_add])
  refine ⟨c, hc, (h.legal_iff hs).2 ?_⟩
  rw [heq]
  split_ifs at hthird hroom hlast ⊢ <;> omega

/-- There is room for the legal splits: on a rightmost page the last cut is not legal. -/
theorem length_legal : ((cands page newitemoff).filter fun c => Legal st c).length ≤ page.maxoff := by
  have hlen : (cands page newitemoff).length = page.dataItems.length + 1 := by
    have hcuts := congrArg length (h.cuts_eq hs)
    rwa [length_map, length_cuts, length_withNew, if_pos h.position.1] at hcuts
  have hdata := h.length_dataItems
  cases hright : page.isRightmost with
  | false =>
    have hfirst : page.firstDataKey = 2 := by rw [Page.firstDataKey, if_neg (by simp [hright])]
    have := length_filter_le (fun c => decide (Legal st c)) (cands page newitemoff)
    omega
  | true => ?_
  have hfirst : page.firstDataKey = 1 := by rw [Page.firstDataKey, if_pos hright]
  have hhikey : hikeySize page = 0 := by simp [hikeySize, hfirst]
  have hne : cuts 0 h.allSizes ≠ [] := by
    rw [← length_pos_iff, length_cuts, length_withNew, if_pos h.position.1]
    omega
  obtain ⟨c, hc, heq⟩ := h.exists_cand hs _ (getLast_mem hne)
  have hlast := getLast_cuts hne
  have hcompact := h.compact_data
  have hfull := h.full
  rw [← heq, h.sum_all] at hlast
  have hillegal : ¬ Legal st c := by
    intro hlegal
    have := ((h.legal_iff hs).1 hlegal).1
    omega
  have hlt := length_filter_lt_length_iff_exists (p := fun c => decide (Legal st c)).2 ⟨c, hc,
    by simpa using hillegal⟩
  omega

theorem point_inner (hinner : page.isLeaf = false) {s x : ℕ} (hcut : c.cut st = (s, x)) :
    point st c =
      ⟨0, itemSpace page - (s + x : ℕ),
        page.exactFreeSpace + s + x - (newitemsz + sizeOfItemId : ℕ) - 12, c.off, c.onleft⟩ := by
  have hcompact := h.compact_data
  have hleaf : ¬ st.page.isLeaf = true := by simp [hs.page, hinner]
  rw [point, leftFree, rightFree, appendedTid, hcut, hs.leftspace, hs.total, if_neg hleaf, if_neg hleaf,
    hs.rightspace, hs.newitemsz]
  congr 1
  · push_cast
    ring
  · omega

omit hs

theorem scanPage_eq (rel : Relation τ) (newitem : τ) : ∃ minsz, scanPage (h.state rel newitem) =
      .ok { h.state rel newitem with
        minfirstrightsz := minsz
        splits := ((cands page newitemoff).filter fun c => Legal (h.state rel newitem) c).map
          (point (h.state rel newitem)) } ∧
    12 ≤ minsz := by
  have hs := h.starts (@rfl _ (h.state rel newitem))
  obtain ⟨minsz, hrun, hmin⟩ := recCands_spec (h.state rel newitem) (cands page newitemoff) (h.sizes hs)
    (fun c hc => h.inRange hs hc) (2 ^ 64 - 1) [] (by rw [length_nil, zero_add]; exact h.length_legal hs)
  refine ⟨minsz, ?_, hmin 12 (by norm_num) fun c hc => (h.cut_le hs hc).2.1⟩
  have hscan := scanItems_eq newitemoff page.dataItems page.firstDataKey 0 (h.state rel newitem)
  rw [h.length_dataItems, zero_add, ← hs.total] at hscan
  exact hscan.trans hrun

omit h

def scanned (rel : Relation τ) (page : Page τ) (newitemoff newitemsz : ℕ) (newitem : τ) (minsz : ℕ) :
    FindSplitData τ :=
  { start rel page newitemoff newitemsz newitem with
    minfirstrightsz := minsz
    splits := ((cands page newitemoff).filter fun c =>
      Legal (start rel page newitemoff newitemsz newitem) c).map
        (point (start rel page newitemoff newitemsz newitem)) }

variable (hst : st = h.state rel newitem)
include h hst

theorem mem_scanned (minsz : ℕ) {split : SplitPoint} :
    split ∈ (scanned rel page newitemoff newitemsz newitem minsz).splits ↔
    ∃ c ∈ cands page newitemoff, Legal st c ∧ point st c = split := by
  simp [hst, scanned, and_assoc]

theorem ready (minsz : ℕ) : Ready (scanned rel page newitemoff newitemsz newitem minsz) := by
  have hs := h.starts hst
  have hspace := h.space
  have hfull := h.full
  refine ⟨?_, fun split hin => ?_, fun split hin => ?_, h.position.1⟩
  · obtain ⟨c, hc, hlegal⟩ := h.exists_legal hs
    exact ne_nil_of_mem ((h.mem_scanned hst minsz).2 ⟨c, hc, hlegal, rfl⟩)
  · obtain ⟨c, hc, hlegal, rfl⟩ := (h.mem_scanned hst minsz).1 hin
    have hp := h.placed hc
    have hdata := h.length_dataItems
    refine ⟨hp.low, hdata ▸ hp.high, fun he => ?_, hp.onleft, hp.onright,
      fun hleaf => h.cut_pos st hc ?_⟩
    · have hl := hp.last (he.trans hdata.symm)
      exact ⟨hl.1.symm, hl.2⟩
    have hleaf : page.isLeaf = true := hleaf
    have hright := ((h.legal_iff hs).1 hlegal).2
    rw [if_pos hleaf, if_pos hleaf] at hright
    omega
  obtain ⟨c, hc, hlegal, rfl⟩ := (h.mem_scanned hst minsz).1 hin
  obtain ⟨hcut, hfr, -⟩ := h.cut_le hs hc
  refine ⟨⟨hlegal.1, ?_⟩, hlegal.2, ?_⟩
  · change leftFree st c ≤ 32728
    rw [leftFree, hs.leftspace, appendedTid]
    split_ifs <;> omega
  change rightFree st c ≤ 32728
  rw [rightFree, hs.total, hs.rightspace, hs.newitemsz]
  split_ifs <;> omega

/-- The new item in front of all others: the split right behind it is better than the one that
leaves the left page empty, and the bare header is as small as an item can be. -/
theorem front_avoided (hinner : page.isLeaf = false) (hfront : newitemoff = page.firstDataKey)
    {minsz : ℕ} (hmin : 12 ≤ minsz) :
    ∃ c ∈ cands page newitemoff, Legal st c ∧ (page.firstDataKey < c.off ∨ c.onleft = true) ∧
      chooseSplit (scanned rel page newitemoff newitemsz newitem minsz) page.maxoff rel.fillFactor =
        .ok (c.off, c.onleft) := by
  have hs := h.starts hst
  have hready := h.ready hst minsz
  have hspace := h.space
  have hthird := h.three_sizeBound
  have hnew := h.newitem_le
  have hfull := h.full
  obtain ⟨first, rest, hdata, hitemsz⟩ := h.bare_itemsz hinner
  have hfactor : Factor (div 70 100) := factor_div 70 (by omega)
  -- the split with nothing on the left
  have hempty : ∀ c ∈ cands page newitemoff, ¬ (page.firstDataKey < c.off ∨ c.onleft = true) →
      point st c = ⟨0, itemSpace page - (newitemsz + sizeOfItemId : ℕ), page.exactFreeSpace - 12,
        page.firstDataKey, false⟩ := by
    intro c hc hno
    obtain ⟨hoff, hon, hleft⟩ := h.none_left hc hno
    have hcut : c.cut st = (0, newitemsz + sizeOfItemId) := by
      have hself : c.off = st.newitemoff := (hoff.trans hfront.symm).trans hs.newitemoff.symm
      simp [Cand.cut, Cand.fr, firstRightItemSz, hself, hon, hleft, hs.newitemsz]
    rw [h.point_inner hs hinner hcut, hoff]
    congr 1
    · push_cast
      ring
    · push_cast
      ring
  by_cases hlegal : ∃ c ∈ cands page newitemoff, Legal st c ∧
    ¬ (page.firstDataKey < c.off ∨ c.onleft = true)
  · obtain ⟨worst, hworst, hlegal, hno⟩ := hlegal
    have hfree : 12 ≤ page.exactFreeSpace := by
      have := hlegal.2
      rw [show rightFree st worst = (point st worst).rightfree from rfl,
        hempty worst hworst hno] at this
      dsimp only at this
      omega
    -- the split right behind the new item
    have hbehind : (⟨page.firstDataKey, true, 0, 12⟩ : Cand) ∈ cands page newitemoff := by
      rw [cands, hdata, candidates, if_neg (by omega), if_neg (by omega), hitemsz]
      simp
    have hcut : (⟨page.firstDataKey, true, 0, 12⟩ : Cand).cut st = (newitemsz + sizeOfItemId, 12) := by
      simp [Cand.cut, Cand.fr, firstRightItemSz, hs.newitemsz]
    have hpoint := h.point_inner hs hinner hcut
    have hlegal' : Legal st ⟨page.firstDataKey, true, 0, 12⟩ := by
      refine (h.legal_iff hs).2 ?_
      rw [hcut]
      simp only [hinner, Bool.false_eq_true, if_false]
      omega
    have hpoint' : point st ⟨page.firstDataKey, true, 0, 12⟩ =
        ⟨0, itemSpace page - (newitemsz + sizeOfItemId : ℕ) - 12, page.exactFreeSpace,
          page.firstDataKey, true⟩ := by
      rw [hpoint]
      congr 1 <;> push_cast <;> ring
    have hin := (h.mem_scanned hst minsz).2 ⟨_, hbehind, hlegal', hpoint'⟩
    have hpenalty : splitPenalty (scanned rel page newitemoff newitemsz newitem minsz)
        ⟨0, itemSpace page - (newitemsz + sizeOfItemId : ℕ) - 12, page.exactFreeSpace, page.firstDataKey,
          true⟩ = .ok 12 := by
      have hget : page.getItem page.firstDataKey = .ok first := by
        obtain ⟨item, hitem, hlinp⟩ := getItem_ok page _ (firstDataKey_pos page)
          (by have := h.length_dataItems; rw [hdata, length_cons] at this; omega)
        have hhead : page.dataItems[0]? = some item := by
          rw [Page.dataItems, getElem?_drop, add_zero, hlinp]
        rw [hdata, getElem?_cons_zero, Option.some.injEq] at hhead
        rw [hitem, hhead]
      refine (if_pos (show (!page.isLeaf) = true by simp [hinner])).trans ((if_neg (by simp)).trans ?_)
      change (page.getItem page.firstDataKey >>= fun item => .ok (item.itemsz : ℤ)) = .ok 12
      rw [hget, ok_bind, hitemsz]
      rfl
    obtain ⟨split, hsplit, hne, hchoice⟩ :=
      searchSplits_avoids hready hfactor page.isRightmost hinner hin
      (deltaOf_front (by omega) (by omega) (by omega) page.isRightmost page.firstDataKey) hpenalty
      (by exact_mod_cast hmin)
    obtain ⟨c, hc, hlegalc, rfl⟩ := (h.mem_scanned hst minsz).1 hsplit
    refine ⟨c, hc, hlegalc, by_contra fun hno => hne (hempty c hc hno), ?_⟩
    exact (if_pos (show (!page.isLeaf) = true by simp [hinner])).trans hchoice
  · obtain ⟨split, hin, hchoice⟩ := chooseSplit_ok hready rel.fillFactor_range.2
    obtain ⟨c, hc, hlegalc, rfl⟩ := (h.mem_scanned hst minsz).1 hin
    exact ⟨c, hc, hlegalc, by_contra fun hno => hlegal ⟨c, hc, hlegalc, hno⟩, hchoice⟩

theorem chooseSplit_spec {minsz : ℕ} (hmin : 12 ≤ minsz) :
    ∃ c ∈ cands page newitemoff, Legal st c ∧ (page.firstDataKey < c.off ∨ c.onleft = true) ∧
      chooseSplit (scanned rel page newitemoff newitemsz newitem minsz) page.maxoff rel.fillFactor =
        .ok (c.off, c.onleft) := by
  by_cases hfront : page.isLeaf = false ∧ newitemoff = page.firstDataKey
  · exact h.front_avoided hst hfront.1 hfront.2 hmin
  have hs := h.starts hst
  have hready := h.ready hst minsz
  obtain ⟨split, hin, hchoice⟩ := chooseSplit_ok hready rel.fillFactor_range.2
  obtain ⟨c, hc, hlegal, rfl⟩ := (h.mem_scanned hst minsz).1 hin
  refine ⟨c, hc, hlegal, ?_, hchoice⟩
  cases hleaf : page.isLeaf with
  | true => exact (hready.cuts _ hin).leaf hleaf
  | false => ?_
  -- the first item is a bare header, so the new item would not fit behind it
  have hfull := h.full
  have hright := ((h.legal_iff hs).1 hlegal).2
  obtain ⟨first, rest, hdata, hitemsz⟩ := h.bare_itemsz hleaf
  by_contra hno
  obtain ⟨hoff, hon, hleft⟩ := h.none_left hc hno
  have hsize := (h.placed hc).size_eq first (by rw [hoff, Nat.sub_self, hdata]; rfl)
  have hother : c.off ≠ st.newitemoff :=
    fun he => hfront ⟨hleaf, hs.newitemoff.symm.trans (he.symm.trans hoff)⟩
  simp only [Cand.cut, Cand.fr, firstRightItemSz, hon, hleft, hsize, hitemsz, hother, false_and,
    if_false, Bool.false_eq_true] at hright
  omega

end FullPage

open FullPage

def leftSizes (page : Page τ) (newitemsz firstright : ℕ) (newitemonleft : Bool) : List ℕ :=
  (page.dataItems.take (firstright - page.firstDataKey)).map Item.itemsz ++ if newitemonleft then
    [newitemsz + sizeOfItemId] else []

def rightSizes (page : Page τ) (newitemsz firstright : ℕ) (newitemonleft : Bool) : List ℕ :=
  (if newitemonleft then [] else [newitemsz + sizeOfItemId]) ++
    (page.dataItems.drop (firstright - page.firstDataKey)).map Item.itemsz

def firstRightSize (page : Page τ) (newitemoff newitemsz firstright : ℕ) (newitemonleft : Bool) : ℕ :=
  if firstright = newitemoff ∧ newitemonleft = false then newitemsz + sizeOfItemId
  else ((page.dataItems[firstright - page.firstDataKey]?).map Item.itemsz).getD 0

/-- Both pages get an item, and what they get fits. The high key of a left leaf page is as large as
the first item on the right with a heap TID appended. An internal page takes that item as it is, and
keeps a bare header of it on the right. -/
structure Feasible (page : Page τ) (newitemoff newitemsz firstright : ℕ)
    (newitemonleft : Bool) : Prop where
  place : if newitemonleft then newitemoff ≤ firstright else firstright ≤ newitemoff
  left_nonempty : leftSizes page newitemsz firstright newitemonleft ≠ []
  right_nonempty : rightSizes page newitemsz firstright newitemonleft ≠ []
  left_fits : (leftSizes page newitemsz firstright newitemonleft).sum +
      (firstRightSize page newitemoff newitemsz firstright newitemonleft + if page.isLeaf then
        maxalign sizeOfItemPointer else 0) ≤ itemSpace page
  right_fits : (rightSizes page newitemsz firstright newitemonleft).sum + hikeySize page +
    (if page.isLeaf then 0 else maxalign sizeOfIndexTuple + sizeOfItemId) ≤
      itemSpace page + if page.isLeaf then 0
      else firstRightSize page newitemoff newitemsz firstright newitemonleft

theorem FullPage.feasible (h : FullPage page newitemoff newitemsz) {c : Cand}
    (hc : c ∈ cands page newitemoff) (hlegal : Legal (start rel page newitemoff newitemsz newitem) c)
    (hleft : page.firstDataKey < c.off ∨ c.onleft = true) :
    Feasible page newitemoff newitemsz c.off c.onleft := by
  have hp := h.placed hc
  have hcompact := h.compact_data
  have htid : maxalign sizeOfItemPointer = 8 := by decide
  have hbare : maxalign sizeOfIndexTuple + sizeOfItemId = 12 := by decide
  have hsum : ((page.dataItems.take (c.off - page.firstDataKey)).map Item.itemsz).sum +
    ((page.dataItems.drop (c.off - page.firstDataKey)).map Item.itemsz).sum =
      (page.dataItems.map Item.itemsz).sum := by
    rw [← sum_append_nat, ← map_append, take_append_drop]
  have hleftsum := hp.left_eq
  have hfr : firstRightSize page newitemoff newitemsz c.off c.onleft =
      c.fr (start rel page newitemoff newitemsz newitem) := by
    by_cases hself : c.off = newitemoff ∧ c.onleft = false
    · rw [firstRightSize, if_pos hself, Cand.fr]
      exact (if_pos ⟨hself.1, by simp [hself.2]⟩).symm
    have hlt : c.off - page.firstDataKey < page.dataItems.length := by
      have := hp.low
      have := hp.high
      have : c.off ≠ page.firstDataKey + page.dataItems.length :=
        fun he => hself ⟨(hp.last he).1.symm, (hp.last he).2⟩
      omega
    rw [firstRightSize, if_neg hself, getElem?_eq_getElem hlt, Cand.fr]
    refine (hp.size_eq _ (getElem?_eq_getElem hlt)).symm.trans (if_neg ?_).symm
    exact fun hh => hself ⟨hh.1, by simpa using hh.2⟩
  obtain ⟨hfit, hright⟩ := (h.legal_iff (h.starts rfl)).1 hlegal
  simp only [Cand.cut, ← hfr, hleftsum, show (start rel page newitemoff newitemsz newitem).newitemsz =
    newitemsz + sizeOfItemId from rfl] at hfit hright
  refine ⟨?_, ?_, ?_, ?_, ?_⟩
  · cases hon : c.onleft with
    | true => exact hp.onleft hon
    | false => exact hp.onright hon
  · rcases hleft with hlt | hon
    · intro hnil
      rcases take_eq_nil_iff.1 (map_eq_nil_iff.1 (append_eq_nil_iff.1 hnil).1) with hzero | hempty
      · omega
      · have := hp.high
        rw [hempty, length_nil] at this
        omega
    · simp [leftSizes, hon]
  · cases hon : c.onleft with
    | false => simp [rightSizes]
    | true => ?_
    have hne : c.off ≠ page.firstDataKey + page.dataItems.length :=
      fun he => by simpa [hon] using (hp.last he).2
    intro hnil
    have hdrop := drop_eq_nil_iff.1 (map_eq_nil_iff.1 (append_eq_nil_iff.1 hnil).2)
    have := hp.low
    have := hp.high
    omega
  · rw [leftSizes, sum_append_nat, htid]
    cases hon : c.onleft <;> simp only [hon, Bool.false_eq_true, if_true, if_false, sum_nil,
      sum_singleton] at hfit ⊢ <;> omega
  · rw [rightSizes, sum_append_nat]
    cases hon : c.onleft <;> cases hleaf : page.isLeaf <;>
      simp only [hon, hleaf, Bool.false_eq_true, if_true, if_false, sum_nil, sum_singleton]
      at hright ⊢ <;> omega

/-- On every full page `_bt_findsplitloc` returns a feasible split, with no counter or array overrun. -/
theorem findSplitLoc_feasible (rel : Relation τ) (page : Page τ) (newitemoff newitemsz : ℕ) (newitem : τ)
    (h : FullPage page newitemoff newitemsz) :
    ∃ firstright newitemonleft, findSplitLoc rel page newitemoff newitemsz newitem =
      .ok (firstright, newitemonleft) ∧ Feasible page newitemoff newitemsz firstright newitemonleft := by
  obtain ⟨minsz, hscan, hmin⟩ := h.scanPage_eq rel newitem
  obtain ⟨c, hc, hlegal, hleft, hchoice⟩ := h.chooseSplit_spec rfl hmin
  refine ⟨c.off, c.onleft, ?_, h.feasible hc hlegal hleft⟩
  have hsome : (scanned rel page newitemoff newitemsz newitem minsz).nsplits ≠ 0 := by
    rw [FindSplitData.nsplits, ne_eq, length_eq_zero_iff]
    exact (h.ready rfl minsz).nonempty
  rw [findSplitLoc, h.rightSpace_eq]
  change (scanPage (start rel page newitemoff newitemsz newitem) >>= _) = _
  rw [hscan, ok_bind]
  exact (if_neg hsome).trans hchoice

/-- An index of one column, all of whose tuples look alike. -/
def plainIndex : Relation Unit := ⟨1, 90, by decide, fun _ _ => 2, fun _ => ⟨0, 0⟩⟩

/-- Three items of the largest size. -/
def leafPage : Page Unit := ⟨1024, true, true, List.replicate 3 ⟨312, ()⟩, 36⟩

theorem leafPage_full : FullPage leafPage 2 312 where
  pageSize := by decide
  compact := by decide
  full := by decide
  tuples := by decide
  hikey := fun h => absurd h (by decide)
  leaf := by decide
  internal := by decide
  bare := fun h => absurd h (by decide)
  position := by decide

theorem findSplitLoc_feasible_leaf :
    ∃ firstright newitemonleft,
      findSplitLoc plainIndex leafPage 2 312 () = .ok (firstright, newitemonleft) ∧
    Feasible leafPage 2 312 firstright newitemonleft :=
  findSplitLoc_feasible plainIndex leafPage 2 312 () leafPage_full

/-- A rightmost internal page: many small items, two large ones and a small one, and a small new
item behind them. -/
def crowdedPage : Page Unit :=
  ⟨4096, false, true, ⟨8, ()⟩ :: List.replicate 67 ⟨16, ()⟩ ++ [⟨1328, ()⟩, ⟨1344, ()⟩, ⟨16, ()⟩], 4⟩

theorem crowdedPage_full : FullPage crowdedPage 72 16 where
  pageSize := by decide
  compact := by decide
  full := by decide
  tuples := by decide
  hikey := fun h => absurd h (by decide)
  leaf := by decide
  internal := by decide
  bare := fun _ => ⟨⟨8, ()⟩, _, rfl, rfl⟩
  position := by decide

/-- The split points of the page by delta: the three behind the large items, then the small ones
from right to left. -/
def crowdedOrder : List SplitPoint :=
  let splits :=
    ((cands crowdedPage 72).filter fun c => Legal (start plainIndex crowdedPage 72 16 ()) c).map
    fun c => withDelta (Binary64.div 70 100) true (point (start plainIndex crowdedPage 72 16 ()) c)
  splits.drop 67 ++ (splits.take 67).reverse

def crowdedState : FindSplitData Unit := scanned plainIndex crowdedPage 72 16 () 20

/-- An internal page takes the item as its high key that leaves 4 bytes on the left: too few for a
heap TID. -/
theorem findSplitLoc_internal_without_tid :
    FullPage crowdedPage 72 16 ∧ findSplitLoc plainIndex crowdedPage 72 16 () = .ok (71, false) ∧
    itemSpace crowdedPage < (leftSizes crowdedPage 16 71 false).sum +
      (firstRightSize crowdedPage 72 16 71 false + maxalign sizeOfItemPointer) := by
  refine ⟨crowdedPage_full, ?_, by decide⟩
  have hfactor : Factor (div 70 100) := factor_div 70 (by omega)
  obtain ⟨minsz, hscan, -⟩ := crowdedPage_full.scanPage_eq plainIndex ()
  have hready := crowdedPage_full.ready (@rfl _ (crowdedPage_full.state plainIndex ())) minsz
  have hsmallest :
    ((scanPage (start plainIndex crowdedPage 72 16 ())).toOption.map FindSplitData.minfirstrightsz) =
      some 20 := by decide +kernel
  rw [hscan] at hsmallest
  obtain rfl : minsz = 20 := Option.some.inj hsmallest
  have hsort : deltaSortSplits { crowdedState with interval := 3 } (div 70 100) true =
      .ok { crowdedState with interval := 3, splits := crowdedOrder } := by
    refine (hready.interval 3).sort_eq hfactor ?_ (isChain_iff_pairwise.1 (by decide +kernel))
    have hmap : crowdedState.splits.map (withDelta (div 70 100) true) =
        ((cands crowdedPage 72).filter fun c => Legal (start plainIndex crowdedPage 72 16 ()) c).map
          fun c => withDelta (div 70 100) true (point (start plainIndex crowdedPage 72 16 ()) c) :=
      map_map
    change crowdedOrder.Perm (crowdedState.splits.map _)
    rw [hmap, crowdedOrder]
    generalize ((cands crowdedPage 72).filter _).map _ = splits
    refine perm_append_comm.trans (((reverse_perm _).append_right _).trans ?_)
    rw [take_append_drop]
  have hinterval : initialInterval false crowdedState.nsplits = 3 := by decide +kernel
  have hsome : crowdedState.nsplits ≠ 0 := by
    rw [FindSplitData.nsplits, ne_eq, length_eq_zero_iff]
    exact hready.nonempty
  rw [findSplitLoc, crowdedPage_full.rightSpace_eq, ok_bind]
  change (scanPage (start plainIndex crowdedPage 72 16 ()) >>= _) = _
  rw [hscan, ok_bind]
  refine (if_neg hsome).trans ?_
  change searchSplits crowdedState (div 70 100) true = _
  rw [searchSplits]
  change (deltaSortSplits
    { crowdedState with interval := initialInterval false crowdedState.nsplits } _ _ >>= _) = _
  rw [hinterval, hsort, ok_bind]
  change bestSplitLoc { crowdedState with interval := 3, splits := crowdedOrder } 20 .default =
    .ok (71, false)
  decide +kernel

end Pg.BtSplit
