import PgRetrofit.Lib.CutPoints
import PgRetrofit.Lib.Result
import PgRetrofit.Spec.BtSplitLoc

/-! The scan of `_bt_findsplitloc`: it tries every cut of the page with the new item in its place,
and records those that leave room on both sides. -/

namespace Pg.BtSplit

open CutPoints Result List

variable {τ : Type} {state : FindSplitData τ} {items : List (Item τ)} {off left : ℕ}

structure Cand where
  off : ℕ
  onleft : Bool
  left : ℕ
  size : ℕ

variable {c : Cand}

def Cand.fr (state : FindSplitData τ) (c : Cand) : ℕ := firstRightItemSz state c.off c.onleft c.size

def candidates (newitemoff : ℕ) : List (Item τ) → ℕ → ℕ → List Cand
  | [], off, left => if off ≤ newitemoff then [⟨newitemoff, false, left, 0⟩] else []
  | item :: items, off, left =>
    (if off < newitemoff then [⟨off, false, left, item.itemsz⟩]
      else if off > newitemoff then [⟨off, true, left, item.itemsz⟩]
      else [⟨off, false, left, item.itemsz⟩, ⟨off, true, left, item.itemsz⟩]) ++
    candidates newitemoff items (off + 1) (left + item.itemsz)

def recCand (state : FindSplitData τ) (c : Cand) : Except Fault (FindSplitData τ) :=
  recSplitLoc state c.off c.onleft c.left c.size

/-- The sizes of the items from `off` on, with the new item in its place. -/
def withNew (newitemoff newitemsz : ℕ) : List (Item τ) → ℕ → List ℕ
  | [], off => if off ≤ newitemoff then [newitemsz] else []
  | item :: items, off => (if off = newitemoff then [newitemsz, item.itemsz] else [item.itemsz]) ++
      withNew newitemoff newitemsz items (off + 1)

/-- What lies before a cut, and the first item behind it. -/
def Cand.cut (state : FindSplitData τ) (c : Cand) : ℕ × ℕ :=
  (c.left + if c.onleft then state.newitemsz else 0, c.fr state)

theorem candidates_cuts (state : FindSplitData τ) (items : List (Item τ)) (off left : ℕ) :
    (candidates state.newitemoff items off left).map (Cand.cut state) =
      cuts (left + if state.newitemoff < off then state.newitemsz else 0)
      (withNew state.newitemoff state.newitemsz items off) := by
  induction items generalizing off left with
  | nil =>
    rw [candidates, withNew]
    by_cases h : off ≤ state.newitemoff
    · simp [h, cuts, Cand.cut, Cand.fr, firstRightItemSz]
    · simp [h, cuts]
  | cons item items ih => ?_
  rw [candidates, withNew, map_append, ih]
  rcases lt_trichotomy off state.newitemoff with h | h | h
  · have h1 : ¬ state.newitemoff < off + 1 := by omega
    have h2 : ¬ state.newitemoff < off := by omega
    have h3 : off ≠ state.newitemoff := by omega
    simp [h, h1, h2, h3, cuts, Cand.cut, Cand.fr, firstRightItemSz]
  · subst h
    simp [cuts, Cand.cut, Cand.fr, firstRightItemSz]
    rw [add_right_comm]
  · have h1 : state.newitemoff < off + 1 := by omega
    have h2 : ¬ off < state.newitemoff := by omega
    have h3 : off ≠ state.newitemoff := by omega
    simp [h, h1, h2, h3, cuts, Cand.cut, Cand.fr, firstRightItemSz]
    rw [add_right_comm]

theorem sum_withNew (newitemoff newitemsz : ℕ) (items : List (Item τ)) (off : ℕ) :
    (withNew newitemoff newitemsz items off).sum = (items.map Item.itemsz).sum + if off ≤ newitemoff then
      newitemsz else 0 := by
  induction items generalizing off with
  | nil =>
    rw [withNew]
    split_ifs <;> simp
  | cons item items ih =>
    rw [withNew, sum_append_nat, ih, map_cons]
    split_ifs <;> simp <;> omega

theorem length_withNew (newitemoff newitemsz : ℕ) (items : List (Item τ)) (off : ℕ) :
    (withNew newitemoff newitemsz items off).length = items.length + if off ≤ newitemoff then 1
      else 0 := by
  induction items generalizing off with
  | nil =>
    rw [withNew]
    split_ifs <;> rfl
  | cons item items ih =>
    rw [withNew, length_append, ih]
    split_ifs <;> simp <;> omega

structure Cand.Placed (newitemoff : ℕ) (items : List (Item τ)) (off left : ℕ) (c : Cand) : Prop where
  low : off ≤ c.off
  high : c.off ≤ off + items.length
  left_eq : c.left = left + ((items.take (c.off - off)).map Item.itemsz).sum
  size_eq : ∀ item, items[c.off - off]? = some item → c.size = item.itemsz
  onleft : c.onleft = true → newitemoff ≤ c.off
  onright : c.onleft = false → c.off ≤ newitemoff
  last : c.off = off + items.length → newitemoff = c.off ∧ c.onleft = false

theorem placed_of_mem {newitemoff : ℕ} (h : c ∈ candidates newitemoff items off left)
    (hnew : newitemoff ≤ off + items.length) :
    c.Placed newitemoff items off left := by
  induction items generalizing off left with
  | nil =>
    rw [candidates] at h
    split_ifs at h with hoff
    · obtain rfl := mem_singleton.1 h
      exact ⟨hoff, hnew,
        by simp, by simp, fun hc => absurd hc (by simp), fun _ => le_rfl, fun _ => ⟨rfl, rfl⟩⟩
    · exact absurd h not_mem_nil
  | cons item items ih => ?_
  rw [length_cons] at hnew
  rw [candidates, mem_append] at h
  rcases h with h | h
  · -- a call for the item at `off`
    have hc : c.off = off ∧ c.left = left ∧ c.size = item.itemsz ∧ (c.onleft = true → newitemoff ≤ off) ∧
        (c.onleft = false → off ≤ newitemoff) := by
      split_ifs at h with h1 h2
      · obtain rfl := mem_singleton.1 h
        exact ⟨rfl, rfl, rfl, fun hc => absurd hc (by simp), fun _ => by omega⟩
      · obtain rfl := mem_singleton.1 h
        exact ⟨rfl, rfl, rfl, fun _ => by omega, fun hc => absurd hc (by simp)⟩
      · rcases mem_pair.1 h with rfl | rfl
        · exact ⟨rfl, rfl, rfl, fun hc => absurd hc (by simp), fun _ => by omega⟩
        · exact ⟨rfl, rfl, rfl, fun _ => by omega, fun hc => absurd hc (by simp)⟩
    obtain ⟨hoff, hleft, hsize, hon, hright⟩ := hc
    refine ⟨by omega, by omega, ?_, fun found hfound => ?_, fun hc => ?_, fun hc => ?_, fun hc => ?_⟩
    · simp [hoff, hleft]
    · rw [hoff, Nat.sub_self, List.getElem?_cons_zero, Option.some.injEq] at hfound
      rw [hsize, hfound]
    · have := hon hc
      omega
    · have := hright hc
      omega
    · rw [length_cons] at hc
      omega
  · have hp := ih h (by omega)
    have hlow := hp.low
    have hshift : c.off - off = c.off - (off + 1) + 1 := by omega
    refine ⟨by omega, ?_, ?_, ?_, hp.onleft, hp.onright, ?_⟩
    · have := hp.high
      rw [length_cons]
      omega
    · rw [hp.left_eq, hshift, take_succ_cons, map_cons, sum_cons, add_assoc]
    · rw [hshift]
      exact hp.size_eq
    · intro hc
      rw [length_cons] at hc
      exact hp.last (by omega)

theorem scanItems_eq (newitemoff : ℕ) (items : List (Item τ)) (off left : ℕ) (state : FindSplitData τ) :
    (do
      let scanned ← scanItems newitemoff items off left state
      if off + items.length ≤ newitemoff then
        recSplitLoc scanned newitemoff false ((left + (items.map Item.itemsz).sum : ℕ) : ℤ) 0
      else .ok scanned) =
    (candidates newitemoff items off left).foldlM recCand state := by
  induction items generalizing off left state with
  | nil =>
    rw [scanItems, ok_bind, candidates, length_nil, add_zero, map_nil, sum_nil]
    split_ifs with h
    · simp [recCand]
    · rfl
  | cons item items ih => ?_
  have hitem : ∀ state : FindSplitData τ, recItem newitemoff state off left item.itemsz =
    (if off < newitemoff then [(⟨off, false, left, item.itemsz⟩ : Cand)]
      else if off > newitemoff then [⟨off, true, left, item.itemsz⟩]
      else [⟨off, false, left, item.itemsz⟩, ⟨off, true, left, item.itemsz⟩]).foldlM recCand state := by
    intro state
    rw [recItem]
    split_ifs <;> simp [recCand]
  rw [candidates, foldlM_append, ← hitem, scanItems, bind_assoc]
  congr 1
  funext state
  have hnext := ih (off + 1) (left + item.itemsz) state
  rw [length_cons, map_cons, sum_cons, ← add_assoc left, add_comm items.length, ← add_assoc off]
  exact_mod_cast hnext

def appendedTid (state : FindSplitData τ) : ℤ := if state.page.isLeaf then 8 else 0

/-- The space left on the left page, with a high key as large as the first item on the right. -/
def leftFree (state : FindSplitData τ) (c : Cand) :
    ℤ := state.leftspace - ((c.cut state).1 + (c.cut state).2) - appendedTid state

/-- The space left on the right page; an internal page keeps a bare header of its first item. -/
def rightFree (state : FindSplitData τ) (c : Cand) : ℤ :=
  state.rightspace - (state.olddataitemstotal + state.newitemsz - (c.cut state).1) +
    if state.page.isLeaf then 0 else ((c.cut state).2 : ℤ) - 12

def Legal (state : FindSplitData τ) (c : Cand) : Prop := 0 ≤ leftFree state c ∧ 0 ≤ rightFree state c

instance (state : FindSplitData τ) (c : Cand) : Decidable (Legal state c) :=
  inferInstanceAs (Decidable (_ ∧ _))

def point (state : FindSplitData τ) (c : Cand) : SplitPoint :=
  ⟨0, leftFree state c, rightFree state c, c.off, c.onleft⟩

/-- Sizes with which no counter overflows. -/
structure Sizes (state : FindSplitData τ) : Prop where
  leftspace : state.leftspace ≤ 32728
  rightspace : state.rightspace ≤ state.leftspace
  total : 0 ≤ state.olddataitemstotal ∧ state.olddataitemstotal ≤ state.rightspace
  newitemsz : state.newitemsz ≤ 10920

structure InRange (state : FindSplitData τ) (c : Cand) : Prop where
  left : c.left ≤ state.olddataitemstotal
  fr : c.fr state ≤ 10920
  cut : (c.cut state).1 + (c.cut state).2 ≤ state.olddataitemstotal + state.newitemsz

theorem int16_ok {x : ℤ} (hlow : -32768 ≤ x) (hhigh : x ≤ 32767) :
    int16 x = .ok x := if_pos ⟨hlow, hhigh⟩

variable (h : Sizes state) (hc : InRange state c)
include h hc

theorem freeSpace_eq :
    freeSpace state (c.fr state) c.onleft c.left = .ok (leftFree state c, rightFree state c) := by
  obtain ⟨hls, hrs, ⟨htot, htotal⟩, hnew⟩ := h
  obtain ⟨hleft, hfr, hcut⟩ := hc
  have hkept : (maxalign sizeOfIndexTuple : ℤ) + sizeOfItemId = 12 := by decide
  have htid : (maxalign sizeOfItemPointer : ℤ) = 8 := by decide
  simp only [Cand.cut] at hcut
  simp only [freeSpace, leftFree, rightFree, appendedTid, Cand.cut, hkept, htid]
  cases hleaf : state.page.isLeaf <;> cases hon : c.onleft
  all_goals
    simp only [hon, Bool.false_eq_true, if_true, if_false, add_zero] at hcut ⊢
    simp (disch := omega) only [int16_ok, ok_bind]
    refine congrArg Except.ok (Prod.ext ?_ ?_) <;> simp only <;> omega

theorem recCand_legal (hlegal : Legal state c) (hroom : state.splits.length < state.maxsplits) :
    recCand state c = .ok { state with
      minfirstrightsz := min state.minfirstrightsz (c.fr state)
      splits := state.splits ++ [point state c] } := by
  have hfree := freeSpace_eq h hc
  rw [Cand.fr] at hfree
  rw [recCand, recSplitLoc]
  simp only [hfree, ok_bind]
  exact (if_pos hlegal).trans (if_pos hroom)

theorem recCand_illegal (hlegal : ¬ Legal state c) : recCand state c = .ok state := by
  have hfree := freeSpace_eq h hc
  rw [Cand.fr] at hfree
  rw [recCand, recSplitLoc]
  simp only [hfree, ok_bind]
  exact if_neg hlegal

omit h hc

theorem recCands_spec (state : FindSplitData τ) (cands : List Cand) (h : Sizes state)
    (hrange : ∀ c ∈ cands, InRange state c) (minsz : ℕ) (splits : List SplitPoint)
    (hroom : splits.length + (cands.filter fun c => Legal state c).length ≤ state.maxsplits) :
    ∃ minsz', cands.foldlM recCand { state with minfirstrightsz := minsz, splits := splits } =
        .ok { state with
          minfirstrightsz := minsz'
          splits := splits ++ (cands.filter fun c => Legal state c).map (point state) } ∧
      ∀ bound ≤ minsz, (∀ c ∈ cands, bound ≤ c.fr state) → bound ≤ minsz' := by
  induction cands generalizing minsz splits with
  | nil => exact ⟨minsz, by simp [pure, Except.pure], fun _ hb _ => hb⟩
  | cons c cands ih => ?_
  have hsizes : Sizes { state with minfirstrightsz := minsz, splits := splits } := { h with }
  have hc : InRange { state with minfirstrightsz := minsz, splits := splits } c :=
    ⟨(hrange c mem_cons_self).left, (hrange c mem_cons_self).fr, (hrange c mem_cons_self).cut⟩
  have hrest := fun c hin => hrange c (mem_cons_of_mem _ hin)
  rw [foldlM_cons]
  by_cases hlegal : Legal state c
  · rw [filter_cons_of_pos (by simpa using hlegal), length_cons] at hroom
    obtain ⟨minsz', hrun, hmin⟩ :=
      ih hrest (min minsz (c.fr state)) (splits ++ [point state c])
      (by rw [length_append, length_singleton]; omega)
    have hstep := recCand_legal hsizes hc hlegal (show splits.length < state.maxsplits by omega)
    rw [hstep, filter_cons_of_pos (by simpa using hlegal)]
    refine ⟨minsz', hrun.trans ?_, fun bound hb hall =>
      hmin bound (le_min hb (hall c mem_cons_self)) fun d hd => hall d (mem_cons_of_mem _ hd)⟩
    rw [map_cons, append_assoc, singleton_append]
  · rw [filter_cons_of_neg (by simpa using hlegal)] at hroom ⊢
    obtain ⟨minsz', hrun, hmin⟩ := ih hrest minsz splits hroom
    rw [recCand_illegal hsizes hc hlegal]
    exact ⟨minsz', hrun, fun bound hb hall => hmin bound hb fun d hd => hall d (mem_cons_of_mem _ hd)⟩

end Pg.BtSplit
