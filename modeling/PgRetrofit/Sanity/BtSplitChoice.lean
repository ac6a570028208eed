import PgRetrofit.Lib.Result
import PgRetrofit.Proofs.Qsort
import PgRetrofit.Spec.BtSplitLoc

/-! The strategies of `_bt_findsplitloc`: whatever they prefer, they return one of the recorded
split points, and read no tuple that is not there. -/

namespace Pg.BtSplit

open Result List Binary64 Nat

variable {τ : Type} {state : FindSplitData τ} {split split' : SplitPoint}
  {splits sorted : List SplitPoint} {fillfactormult : ℚ} {usemult : Bool}

def Fits (split : SplitPoint) : Prop := (0 ≤ split.leftfree ∧ split.leftfree ≤ 32728) ∧
    0 ≤ split.rightfree ∧ split.rightfree ≤ 32728

def Factor (fillfactormult : ℚ) :
    Prop := -(1 / 2 ^ 20) ≤ fillfactormult ∧ fillfactormult ≤ 1 + 1 / 2 ^ 20

theorem factor_div (percent : ℕ) (h : percent ≤ 100) : Factor (div percent 100) := by
  have hp : ((percent : ℚ)) ≤ 100 := by exact_mod_cast h
  have hbound : |(percent : ℚ) / 100| ≤ 2 ^ 16 := by
    rw [abs_of_nonneg (by positivity)]
    linarith
  have herr := abs_le.1 (abs_round_sub_le_of_le hbound)
  rw [div]
  constructor <;> linarith [herr.1, herr.2]

theorem abs_mul_le {f z : ℚ} (hf : |f| ≤ 1 + 1 / 2 ^ 19) (hz0 : 0 ≤ z) (hz1 : z ≤ 32728) :
    |f * z| ≤ 32729 := by
  rw [abs_mul, abs_of_nonneg hz0]
  calc |f| * z ≤ (1 + 1 / 2 ^ 19) * 32728 := by gcongr
    _ ≤ 32729 := by norm_num

theorem Fits.cast (h : Fits split) :
    ((0 : ℚ) ≤ split.leftfree ∧ (split.leftfree : ℚ) ≤ 32728) ∧ (0 : ℚ) ≤ split.rightfree ∧
      (split.rightfree : ℚ) ≤ 32728 := by
  exact_mod_cast h

theorem deltaOf_near (split : SplitPoint) (hf : Factor fillfactormult) (h : Fits split) :
    |(deltaOf fillfactormult true split : ℚ) -
      (fillfactormult * split.leftfree - (1 - fillfactormult) * split.rightfree)| ≤ 2 := by
  obtain ⟨⟨hx0, hx1⟩, hy0, hy1⟩ := h.cast
  obtain ⟨hf0, hf1⟩ := hf
  rw [deltaOf, if_pos rfl, Binary64.sub, Binary64.mul, Binary64.mul, Binary64.sub]
  generalize (split.leftfree : ℚ) = x at hx0 hx1 ⊢
  generalize (split.rightfree : ℚ) = y at hy0 hy1 ⊢
  -- each operation is off by little
  have h1 := abs_mul_le (f := fillfactormult) (abs_le.2 ⟨by linarith, by linarith⟩) hx0 hx1
  have e1 := abs_le.1 (abs_round_sub_le_of_le (h1.trans (by norm_num)))
  have e2 :=
    abs_le.1 (abs_round_sub_le_of_le (x := 1 - fillfactormult) (abs_le.2 ⟨by linarith, by linarith⟩))
  have h3 := abs_mul_le (f := Binary64.round (1 - fillfactormult))
    (abs_le.2 ⟨by linarith [e2.1], by linarith [e2.2]⟩) hy0 hy1
  have e3 := abs_le.1 (abs_round_sub_le_of_le (h3.trans (by norm_num)))
  have h4 : |Binary64.round (fillfactormult * x) - Binary64.round
      (Binary64.round (1 - fillfactormult) * y)| ≤ 2 ^ 16 := by
    have := abs_le.1 h1
    have := abs_le.1 h3
    exact abs_le.2 ⟨by linarith [e1.1, e3.2], by linarith [e1.2, e3.1]⟩
  have e4 := abs_le.1 (abs_round_sub_le_of_le h4)
  have hdrift : |(Binary64.round (1 - fillfactormult) - (1 - fillfactormult)) * y| ≤ 1 / 2 := by
    rw [abs_mul, abs_of_nonneg hy0]
    calc |Binary64.round (1 - fillfactormult) - (1 - fillfactormult)| * y ≤ 1 / 2 ^ 37 * 32728 := by
          have := abs_le.2 e2
          gcongr
      _ ≤ 1 / 2 := by norm_num
  have e5 := abs_le.1 hdrift
  have e6 :=
    abs_lt.1
    (truncate_bounds
      (Binary64.round (Binary64.round (fillfactormult * x) - Binary64.round
        (Binary64.round (1 - fillfactormult) * y))))
  rw [abs_le]
  constructor <;> linarith [e1.1, e1.2, e3.1, e3.2, e4.1, e4.2, e5.1, e5.2, e6.1, e6.2]

theorem deltaOf_range (usemult : Bool) (hf : Factor fillfactormult) (h : Fits split) :
    -32766 ≤ deltaOf fillfactormult usemult split ∧ deltaOf fillfactormult usemult split ≤ 32766 := by
  cases usemult with
  | false =>
    obtain ⟨⟨hl0, hl1⟩, hr0, hr1⟩ := h
    simp only [deltaOf, Bool.false_eq_true, if_false]
    omega
  | true => ?_
  have hnear := abs_le.1 (deltaOf_near split hf h)
  obtain ⟨hf0, hf1⟩ := hf
  obtain ⟨⟨hx0, hx1⟩, hy0, hy1⟩ := h.cast
  have hlow : (-32766 : ℚ) ≤ deltaOf fillfactormult true split := by
    nlinarith only [hnear.1, hf0, hf1, hx0, hx1, hy0, hy1]
  have hhigh : (deltaOf fillfactormult true split : ℚ) ≤ 32766 := by
    nlinarith only [hnear.2, hf0, hf1, hx0, hx1, hy0, hy1]
  exact ⟨by exact_mod_cast hlow, by exact_mod_cast hhigh⟩

def withDelta (fillfactormult : ℚ) (usemult : Bool) (split : SplitPoint) : SplitPoint :=
  { split with curdelta := |deltaOf fillfactormult usemult split| }

theorem setDelta_eq (hf : Factor fillfactormult) (h : Fits split) :
    setDelta fillfactormult usemult split = .ok (withDelta fillfactormult usemult split) := by
  obtain ⟨hlow, hhigh⟩ := deltaOf_range usemult hf h
  have habs : (if deltaOf fillfactormult usemult split < 0 then -deltaOf fillfactormult usemult split
    else deltaOf fillfactormult usemult split) =
      |deltaOf fillfactormult usemult split| := by
    split_ifs with hneg
    · exact (abs_of_neg hneg).symm
    · exact (abs_of_nonneg (by omega)).symm
  have hint : ∀ x : ℤ, -32766 ≤ x → x ≤ 32766 → int16 x = .ok x :=
    fun x h1 h2 => if_pos ⟨by omega, by omega⟩
  rw [setDelta, hint _ hlow hhigh, ok_bind, habs,
    hint _ (by linarith [abs_nonneg (deltaOf fillfactormult usemult split)]) (abs_le.2 ⟨hlow, hhigh⟩)]
  rfl

theorem splitCmp_le : splitCmp split split' ≤ 0 ↔ split.curdelta ≤ split'.curdelta := by
  rw [splitCmp]
  split_ifs <;> constructor <;> intro <;> omega

theorem splitCmp_order : CmpOrder splitCmp fun _ => True where
  flip := by
    intro x y _ _
    unfold splitCmp
    split_ifs <;> constructor <;> intro <;> omega
  trans := by
    intro x y z _ _ _ hxy hyz
    rw [splitCmp_le] at hxy hyz ⊢
    exact hxy.trans hyz

theorem mapM_ok {α β : Type} {f : α → Except Fault β} {g : α → β} {l : List α}
    (h : ∀ x ∈ l, f x = .ok (g x)) : l.mapM f = .ok (l.map g) := by
  induction l with
  | nil => rfl
  | cons x l ih =>
    rw [mapM_cons, h x mem_cons_self, ih fun y hy => h y (mem_cons_of_mem _ hy)]
    rfl

theorem deltaSortSplits_spec (hf : Factor fillfactormult) (usemult : Bool)
    (h : ∀ split ∈ state.splits, Fits split) :
    ∃ sorted, deltaSortSplits state fillfactormult usemult = .ok { state with splits := sorted } ∧
      sorted.Perm (state.splits.map (withDelta fillfactormult usemult)) ∧
      sorted.Pairwise fun x y => x.curdelta ≤ y.curdelta := by
  obtain ⟨m, hrun, hperm, hsorted⟩ :=
    Qsort.pgQsort_list splitCmp_order (state.splits.map (withDelta fillfactormult usemult)) default
  refine ⟨_, ?_, hperm, hsorted.imp fun hle => splitCmp_le.1 hle⟩
  rw [deltaSortSplits, mapM_ok fun split hin => setDelta_eq hf (h split hin), ok_bind, qsortSplits, hrun]
  rfl

/-- A split point that cuts the page: the new item is on its side, and on a leaf page some item is
on the left. -/
structure Cuts (state : FindSplitData τ) (split : SplitPoint) : Prop where
  low : state.page.firstDataKey ≤ split.firstoldonright
  high : split.firstoldonright ≤ state.page.maxoff + 1
  last : split.firstoldonright = state.page.maxoff + 1 → split.firstoldonright = state.newitemoff ∧
    split.newitemonleft = false
  onleft : split.newitemonleft = true → state.newitemoff ≤ split.firstoldonright
  onright : split.newitemonleft = false → split.firstoldonright ≤ state.newitemoff
  leaf : state.page.isLeaf = true → state.page.firstDataKey < split.firstoldonright ∨
    split.newitemonleft = true

theorem firstDataKey_pos (page : Page τ) : 1 ≤ page.firstDataKey := by
  rw [Page.firstDataKey]
  split_ifs <;> omega

theorem getItem_ok (page : Page τ) (off : ℕ) (hlow : 1 ≤ off) (hhigh : off ≤ page.maxoff) :
    ∃ item, page.getItem off = .ok item ∧ page.linp[off - 1]? = some item := by
  obtain ⟨i, rfl⟩ := Nat.exists_eq_add_of_le' hlow
  have hi : i < page.linp.length := hhigh
  refine ⟨page.linp[i], ?_, getElem?_eq_getElem hi⟩
  rw [Page.getItem, getElem?_eq_getElem hi]

variable (h : Cuts state split)
include h

theorem splitLastLeft_ok (hleaf : state.page.isLeaf = true)
    (hnew : state.page.firstDataKey ≤ state.newitemoff) :
    ∃ tuple, splitLastLeft state split = .ok tuple := by
  have hfirst := firstDataKey_pos state.page
  have hhigh := h.high
  rw [splitLastLeft]
  by_cases hself : split.newitemonleft = true ∧ split.firstoldonright = state.newitemoff
  · rw [if_pos hself]
    exact ⟨_, rfl⟩
  have hleft : state.page.firstDataKey < split.firstoldonright := by
    rcases h.leaf hleaf with hlt | hon
    · exact hlt
    · have hne : split.firstoldonright ≠ state.newitemoff := fun he => hself ⟨hon, he⟩
      have := h.onleft hon
      omega
  obtain ⟨item, hitem, -⟩ := getItem_ok state.page (split.firstoldonright - 1) (by omega) (by omega)
  rw [if_neg hself, hitem]
  exact ⟨_, rfl⟩

theorem Cuts.firstRight :
    (split.newitemonleft = false ∧ split.firstoldonright = state.newitemoff) ∨
      ∃ item, state.page.getItem split.firstoldonright = .ok item := by
  have hfirst := firstDataKey_pos state.page
  have hlow := h.low
  have hhigh := h.high
  by_cases hlast : split.firstoldonright = state.page.maxoff + 1
  · exact .inl ⟨(h.last hlast).2, (h.last hlast).1⟩
  · obtain ⟨item, hitem, -⟩ := getItem_ok state.page split.firstoldonright (by omega) (by omega)
    exact .inr ⟨item, hitem⟩

theorem Cuts.readFirstRight {β : Type} (new : β) (read : Item τ → β) :
    ∃ r, (if (!split.newitemonleft) = true ∧ split.firstoldonright = state.newitemoff then Except.ok new
      else do
        let item ← state.page.getItem split.firstoldonright
        .ok (read item)) = .ok r := by
  split_ifs with hself
  · exact ⟨_, rfl⟩
  rcases h.firstRight with hnew | ⟨item, hitem⟩
  · exact absurd (by simpa using hnew) hself
  · rw [hitem]
    exact ⟨_, rfl⟩

theorem splitFirstRight_ok : ∃ tuple, splitFirstRight state split = .ok tuple := h.readFirstRight ..

theorem splitPenalty_ok (hnew : state.page.firstDataKey ≤ state.newitemoff) :
    ∃ penalty, splitPenalty state split = .ok penalty := by
  rw [splitPenalty]
  by_cases hleaf : state.page.isLeaf = true
  · obtain ⟨lastleft, hl⟩ := splitLastLeft_ok h hleaf hnew
    obtain ⟨firstright, hr⟩ := splitFirstRight_ok h
    rw [if_neg (by simp [hleaf]), hl, hr]
    exact ⟨_, rfl⟩
  · rw [if_pos (by simp [hleaf])]
    exact h.readFirstRight ..

omit h

/-- The loop over the interval ends at the split with the best delta, which is both edges if no
other is. -/
theorem edgesLoop_ok (deltaoptimal : SplitPoint) (rest : List SplitPoint)
    (left right : Option SplitPoint) (P : SplitPoint → Prop) (hrest : ∀ split ∈ rest, P split)
    (hbest : P deltaoptimal) (hleft : ∀ split, left = some split → P split)
    (hright : ∀ split, right = some split → P split) :
    ∃ l r, edgesLoop deltaoptimal (rest ++ [deltaoptimal]) left right = .ok (l, r) ∧ P l ∧ P r := by
  have hor : ∀ {o : Option SplitPoint} {distant : SplitPoint} {c : Prop} [Decidable c],
    (∀ split, o = some split → P split) → P distant →
      ∀ split, (if c then o else o.or (some distant)) = some split → P split := by
    intro o distant c _ ho hd split hs
    split_ifs at hs
    · exact ho split hs
    · cases o with
      | none => exact Option.some.inj hs ▸ hd
      | some s => exact ho split hs
  induction rest generalizing left right with
  | nil =>
    have hself : ∀ o : Option SplitPoint, (∀ split, o = some split → P split) →
        ∃ split, o.or (some deltaoptimal) = some split ∧ P split := by
      intro o ho
      cases o with
      | none => exact ⟨_, rfl, hbest⟩
      | some split => exact ⟨split, rfl, ho split rfl⟩
    obtain ⟨l, hl, hPl⟩ := hself left hleft
    obtain ⟨r, hr, hPr⟩ := hself right hright
    refine ⟨l, r, ?_, hPl, hPr⟩
    rw [nil_append, edgesLoop, if_neg (by simp), if_neg (by simp), hl, hr]
  | cons distant rest ih =>
    have hdistant := hrest distant mem_cons_self
    rw [cons_append, edgesLoop]
    split
    · rename_i l r hl hr
      exact ⟨l, r, rfl, hor hleft hdistant l hl, hor hright hdistant r hr⟩
    · exact ih _ _ (fun split hin => hrest split (mem_cons_of_mem _ hin)) (hor hleft hdistant)
        (hor hright hdistant)

theorem bestLoop_ok (penalty : SplitPoint → Except Fault ℤ) (perfectpenalty : ℤ) (rest : List SplitPoint)
    (i : ℕ) (bestpenalty : ℤ) (lowsplit : ℕ) (hpenalty : ∀ split ∈ rest, ∃ p, penalty split = .ok p) :
    ∃ r, bestLoop penalty perfectpenalty rest i bestpenalty lowsplit = .ok r ∧
      (r = lowsplit ∨ i ≤ r ∧ r < i + rest.length) ∧
      ∀ (t : ℕ) (split : SplitPoint) (p : ℤ), rest[t]? = some split → i + t < r → penalty split = .ok p →
        perfectpenalty < p := by
  induction rest generalizing i bestpenalty lowsplit with
  | nil => exact ⟨lowsplit, rfl, .inl rfl, fun t split p h => by simp at h⟩
  | cons split rest ih => ?_
  obtain ⟨p, hp⟩ := hpenalty split mem_cons_self
  have hnext : ∀ best low, perfectpenalty < p → (low = lowsplit ∨ low = i) →
      ∃ r, bestLoop penalty perfectpenalty rest (i + 1) best low = .ok r ∧
      (r = lowsplit ∨ i ≤ r ∧ r < i + (rest.length + 1)) ∧
        ∀ (t : ℕ) (split' : SplitPoint) (p' : ℤ), (split :: rest)[t]? = some split' → i + t < r →
        penalty split' = .ok p' → perfectpenalty < p' := by
    intro best low hlt hlow
    obtain ⟨r, hrun, hr, hall⟩ := ih (i + 1) best low fun s hs => hpenalty s (mem_cons_of_mem _ hs)
    refine ⟨r, hrun, by omega, fun t split' p' ht hlt' hp' => ?_⟩
    cases t with
    | zero =>
      obtain rfl : split = split' := by simpa using ht
      rw [hp] at hp'
      exact Except.ok.inj hp' ▸ hlt
    | succ t => exact hall t split' p' (by simpa using ht) (by omega) hp'
  rw [bestLoop, hp, ok_bind, length_cons]
  split_ifs with hperfect hbetter
  · exact ⟨i, rfl, .inr ⟨le_rfl, by omega⟩, fun t _ _ _ hlt => by omega⟩
  · exact hnext p i (by omega) (.inr rfl)
  · exact hnext bestpenalty lowsplit (by omega) (.inl rfl)

/-- The split points of a state, and what the strategies need to know of it. -/
structure Ready (state : FindSplitData τ) : Prop where
  nonempty : state.splits ≠ []
  cuts : ∀ split ∈ state.splits, Cuts state split
  fits : ∀ split ∈ state.splits, Fits split
  newitemoff : state.page.firstDataKey ≤ state.newitemoff

theorem Cuts.congr {splits : List SplitPoint} {interval : ℕ} (h : Cuts state split)
    (hoff : split'.firstoldonright = split.firstoldonright)
    (hon : split'.newitemonleft = split.newitemonleft) :
    Cuts { state with splits := splits, interval := interval } split' := by
  refine ⟨?_, ?_, ?_, ?_, ?_, ?_⟩ <;> rw [hoff] <;> try rw [hon]
  · exact h.low
  · exact h.high
  · exact h.last
  · exact h.onleft
  · exact h.onright
  · exact h.leaf

/-- The split points after sorting: the same cuts, with deltas. -/
structure Sorted (splits sorted : List SplitPoint) : Prop where
  nonempty : sorted ≠ []
  mem : ∀ split ∈ sorted, ∃ split' ∈ splits, split.firstoldonright = split'.firstoldonright ∧
    split.newitemonleft = split'.newitemonleft ∧
    split.leftfree = split'.leftfree ∧ split.rightfree = split'.rightfree

theorem Sorted.ready (hs : Sorted state.splits sorted) (h : Ready state) (interval : ℕ) :
    Ready { state with splits := sorted, interval := interval } := by
  refine ⟨hs.nonempty, fun split hin => ?_, fun split hin => ?_, h.newitemoff⟩
  · obtain ⟨split', hin', hoff, hon, -⟩ := hs.mem split hin
    exact (h.cuts split' hin').congr hoff hon
  · obtain ⟨split', hin', -, -, hl, hr⟩ := hs.mem split hin
    rw [Fits, hl, hr]
    exact h.fits split' hin'

theorem Ready.interval (h : Ready state) (interval : ℕ) : Ready { state with interval := interval } :=
  ⟨h.nonempty, fun split hin => (h.cuts split hin).congr rfl rfl, h.fits, h.newitemoff⟩

theorem Ready.sort (h : Ready state) (hf : Factor fillfactormult) (usemult : Bool) :
    ∃ sorted, deltaSortSplits state fillfactormult usemult = .ok { state with splits := sorted } ∧
      Sorted state.splits sorted ∧ sorted.Perm (state.splits.map (withDelta fillfactormult usemult)) ∧
      sorted.Pairwise fun x y => x.curdelta ≤ y.curdelta := by
  obtain ⟨sorted, hrun, hperm, hpair⟩ := deltaSortSplits_spec hf usemult h.fits
  refine ⟨sorted, hrun, ⟨fun hnil => ?_, fun split hin => ?_⟩, hperm, hpair⟩
  · rw [hnil, nil_perm, map_eq_nil_iff] at hperm
    exact h.nonempty hperm
  · obtain ⟨split', hin', rfl⟩ := mem_map.1 (hperm.mem_iff.1 hin)
    exact ⟨split', hin', rfl, rfl, rfl, rfl⟩

theorem Ready.sort_eq (h : Ready state) (hf : Factor fillfactormult)
    (hperm : sorted.Perm (state.splits.map (withDelta fillfactormult usemult)))
    (hsorted : sorted.Pairwise fun x y => x.curdelta < y.curdelta) :
    deltaSortSplits state fillfactormult usemult = .ok { state with splits := sorted } := by
  obtain ⟨sorted', hrun, -, hperm', hsorted'⟩ := h.sort hf usemult
  have hsame := hperm'.trans hperm.symm
  have hdistinct : ∀ x y, x ∈ sorted' → y ∈ sorted → x.curdelta ≤ y.curdelta →
      y.curdelta ≤ x.curdelta → x = y := by
    intro x y hx hy hxy hyx
    obtain ⟨i, hi, rfl⟩ := getElem_of_mem (hsame.mem_iff.1 hx)
    obtain ⟨j, hj, rfl⟩ := getElem_of_mem hy
    have hpair := pairwise_iff_getElem.1 hsorted
    rcases lt_trichotomy i j with hij | rfl | hij
    · exact absurd (hpair i j hi hj hij) (not_lt.2 hyx)
    · rfl
    · exact absurd (hpair j i hj hi hij) (not_lt.2 hxy)
  rw [hrun, hsame.eq_of_pairwise hdistinct hsorted' (hsorted.imp le_of_lt)]

theorem intervalEdges_ok (h : Ready state) (hinterval : 1 ≤ state.interval) :
    ∃ l r, intervalEdges state = .ok (l, r) ∧ Cuts state l ∧ Cuts state r := by
  obtain ⟨first, rest, hsplits⟩ := exists_cons_of_ne_nil h.nonempty
  have hcuts := h.cuts
  obtain ⟨n, hn⟩ : ∃ n, min state.interval state.nsplits = n + 1 := by
    refine Nat.exists_eq_add_of_le' (le_min hinterval ?_)
    rw [FindSplitData.nsplits, hsplits, length_cons]
    omega
  rw [intervalEdges, hn, hsplits, take_succ_cons, reverse_cons]
  rw [hsplits] at hcuts
  refine edgesLoop_ok first (rest.take n).reverse none none (Cuts state) (fun split hin => ?_)
    (hcuts first mem_cons_self) (by simp) (by simp)
  exact hcuts split (mem_cons_of_mem _ (mem_of_mem_take (mem_reverse.1 hin)))

theorem strategy_ok (h : Ready state) (hinterval : 1 ≤ state.interval) {leftpage rightpage : SplitPoint}
    (hleft : Cuts state leftpage) (hright : Cuts state rightpage) :
    ∃ penalty strat, strategy state leftpage rightpage = .ok (penalty, strat) := by
  rw [strategy]
  by_cases hleaf : state.page.isLeaf = true
  · obtain ⟨l, r, hedges, hl, hr⟩ := intervalEdges_ok h hinterval
    obtain ⟨t1, h1⟩ := splitLastLeft_ok hl hleaf h.newitemoff
    obtain ⟨t2, h2⟩ := splitFirstRight_ok hr
    obtain ⟨t3, h3⟩ := splitLastLeft_ok hleft hleaf h.newitemoff
    obtain ⟨t4, h4⟩ := splitFirstRight_ok hright
    rw [if_neg (by simp [hleaf]), hedges, ok_bind]
    dsimp only
    rw [h1, ok_bind, h2, ok_bind, h3, ok_bind, h4, ok_bind]
    split_ifs with hp1 hp2 hr
    · exact ⟨_, _, rfl⟩
    · exact ⟨_, _, rfl⟩
    · exact ⟨_, _, rfl⟩
    · -- a page that is not rightmost has a high key
      have hfirst : state.page.firstDataKey = 2 := by rw [Page.firstDataKey, if_neg hr]
      have hlow := hl.low
      have hhigh := hl.high
      obtain ⟨hikey, hhikey, -⟩ := getItem_ok state.page 1 le_rfl (by omega)
      rw [hhikey]
      exact ⟨_, _, rfl⟩
  · rw [if_pos (by simp [hleaf])]
    exact ⟨_, _, rfl⟩

theorem bestSplitLoc_ok (h : Ready state) (perfectpenalty : ℤ) (strat : FindSplitStrat) :
    ∃ split ∈ state.splits,
      bestSplitLoc state perfectpenalty strat = .ok (split.firstoldonright, split.newitemonleft) := by
  have hlen : 0 < state.splits.length := length_pos_of_ne_nil h.nonempty
  obtain ⟨r, hrun, hr, -⟩ := bestLoop_ok (splitPenalty state) perfectpenalty
    (state.splits.take (min state.interval state.nsplits)) 0 2147483647 0
    fun split hin => splitPenalty_ok (h.cuts split (mem_of_mem_take hin)) h.newitemoff
  have hlt : r < state.splits.length := by
    rw [length_take] at hr
    omega
  rw [bestSplitLoc, hrun, ok_bind, getElem?_eq_getElem hlt, getElem?_eq_getElem hlen]
  dsimp only
  split_ifs
  · exact ⟨_, getElem_mem hlen, rfl⟩
  · exact ⟨_, getElem_mem hlt, rfl⟩

theorem one_le_initialInterval (isLeaf : Bool) (nsplits : ℕ) : 1 ≤ initialInterval isLeaf nsplits := by
  rw [initialInterval]
  set x := min (max 1 (mul nsplits (div 5 100))) (if isLeaf then 9 else 18) with hx
  have hone : 1 ≤ x := by
    refine le_min (le_max_left _ _) ?_
    cases isLeaf <;> norm_num
  have hfloor : 1 ≤ truncate x := by
    rw [truncate, if_pos (by linarith)]
    exact Int.le_floor.2 (by exact_mod_cast hone)
  omega

theorem searchSplits_ok (h : Ready state) (hf : Factor fillfactormult) (usemult : Bool) :
    ∃ split ∈ state.splits, searchSplits state fillfactormult usemult =
      .ok (split.firstoldonright, split.newitemonleft) := by
  have hlen : 0 < state.splits.length := length_pos_of_ne_nil h.nonempty
  have hinterval := one_le_initialInterval state.page.isLeaf state.nsplits
  have hready := h.interval (initialInterval state.page.isLeaf state.nsplits)
  obtain ⟨sorted, hsort, hsorted, -⟩ := hready.sort hf usemult
  have hready' : Ready
      { state with splits := sorted, interval := initialInterval state.page.isLeaf state.nsplits } :=
    hsorted.ready hready _
  have hpage : ∀ i < state.splits.length, Cuts
      { state with splits := sorted, interval := initialInterval state.page.isLeaf state.nsplits }
      (state.splits.getD i default) := by
    intro i hi
    rw [getD_eq_getElem?_getD, getElem?_eq_getElem hi]
    exact (h.cuts _ (getElem_mem hi)).congr rfl rfl
  have hlast : state.nsplits - 1 < state.splits.length := sub_lt hlen one_pos
  obtain ⟨penalty, strat, hstrat⟩ :=
    strategy_ok hready' hinterval (hpage 0 hlen) (hpage (state.nsplits - 1) hlast)
  -- a split of the sorted array is one of the original ones
  have hback : ∀ {interval : ℕ} {splits : List SplitPoint}, Sorted sorted splits → ∀ strat,
      ∃ split ∈ state.splits, bestSplitLoc { state with splits := splits, interval := interval }
        penalty strat = .ok (split.firstoldonright, split.newitemonleft) := by
    intro interval splits hs strat
    obtain ⟨split, hin, hbest⟩ := bestSplitLoc_ok (hs.ready hready' interval) penalty strat
    obtain ⟨split', hin', hoff', hon', -⟩ := hs.mem split hin
    obtain ⟨split'', hin'', hoff'', hon'', -⟩ := hsorted.mem split' hin'
    refine ⟨split'', hin'', ?_⟩
    rw [← hoff'', ← hon'', ← hoff', ← hon']
    exact hbest
  have hrefl : Sorted sorted sorted :=
    ⟨hsorted.nonempty, fun split hin => ⟨split, hin, rfl, rfl, rfl, rfl⟩⟩
  rw [searchSplits]
  simp only [hsort, ok_bind]
  simp only [FindSplitData.nsplits] at hstrat ⊢
  rw [hstrat, ok_bind]
  cases strat with
  | default => exact hback hrefl _
  | manyDuplicates => exact hback hrefl _
  | singleValue => ?_
  have hfactor : Factor (div 96 100) := factor_div 96 (by omega)
  obtain ⟨sorted', hsort', hsorted', -⟩ := hready'.sort hfactor true
  simp only [FindSplitData.nsplits] at hsort'
  rw [hsort']
  exact hback hsorted' _

/-- On an internal page the search passes over a split if there is one with a better delta and the
smallest item on the right. -/
theorem searchSplits_avoids (h : Ready state) (hf : Factor fillfactormult) (usemult : Bool)
    (hinner : state.page.isLeaf = false) {worse better : SplitPoint} (hin : better ∈ state.splits)
    (hdelta : |deltaOf fillfactormult usemult better| < |deltaOf fillfactormult usemult worse|) {p : ℤ}
    (hp : splitPenalty state better = .ok p) (hperfect : p ≤ state.minfirstrightsz) :
    ∃ split ∈ state.splits, split ≠ worse ∧ searchSplits state fillfactormult usemult =
      .ok (split.firstoldonright, split.newitemonleft) := by
  have hready := h.interval (initialInterval state.page.isLeaf state.nsplits)
  obtain ⟨sorted, hsort, hsorted, hperm, hpair⟩ := hready.sort hf usemult
  have hready' : Ready
      { state with splits := sorted, interval := initialInterval state.page.isLeaf state.nsplits } :=
    hsorted.ready hready _
  have hlen : 0 < sorted.length := length_pos_of_ne_nil hsorted.nonempty
  obtain ⟨r, hrun, hr, hbefore⟩ := bestLoop_ok
    (splitPenalty
      { state with splits := sorted, interval := initialInterval state.page.isLeaf state.nsplits })
    state.minfirstrightsz
    (sorted.take (min (initialInterval state.page.isLeaf state.nsplits) sorted.length)) 0 2147483647 0
    fun split hin => splitPenalty_ok (hready'.cuts split (mem_of_mem_take hin)) hready'.newitemoff
  rw [length_take] at hr
  have hlt : r < sorted.length := by omega
  obtain ⟨chosen, hchosen, heq⟩ := mem_map.1 (hperm.mem_iff.1 (getElem_mem hlt))
  refine ⟨chosen, hchosen, ?_, ?_⟩
  · rintro rfl
    obtain ⟨t, ht, hbetter⟩ := getElem_of_mem (hperm.mem_iff.2 (mem_map_of_mem hin))
    by_cases htr : t < r
    · -- the loop has stopped there
      have := hbefore t (withDelta fillfactormult usemult better) p
        (by rw [getElem?_take_of_lt (by omega), getElem?_eq_getElem ht, hbetter]) (by omega) hp
      omega
    have hle : sorted[r].curdelta ≤ sorted[t].curdelta := by
      rcases lt_or_eq_of_le (not_lt.1 htr) with hlt' | rfl
      · exact pairwise_iff_getElem.1 hpair r t hlt ht hlt'
      · exact le_rfl
    rw [← heq, hbetter] at hle
    exact absurd hdelta (not_lt.2 hle)
  rw [searchSplits]
  simp only [hsort, ok_bind]
  simp only [FindSplitData.nsplits] at hrun ⊢
  rw [strategy, if_pos (by simp [hinner]), ok_bind]
  rw [bestSplitLoc]
  simp only [FindSplitData.nsplits]
  rw [hrun, ok_bind, getElem?_eq_getElem hlt, getElem?_eq_getElem hlen]
  rw [← heq]
  rfl

theorem afterNewItemOff_ok (state : FindSplitData τ) (hright : state.page.isRightmost = false)
    (hnew : state.page.firstDataKey ≤ state.newitemoff) (hmaxoff : 1 ≤ state.page.maxoff)
    (leaffillfactor : ℕ) : ∃ r, afterNewItemOff state state.page.maxoff leaffillfactor = .ok r := by
  rw [Page.firstDataKey, if_neg (by simp [hright])] at hnew
  rw [afterNewItemOff]
  split_ifs with h1 h2 h3 h4 h5 h6
  any_goals exact ⟨_, rfl⟩
  · obtain ⟨item, hitem, -⟩ := getItem_ok state.page state.page.maxoff hmaxoff le_rfl
    rw [hitem]
    exact ⟨_, rfl⟩
  · obtain ⟨item, hitem, -⟩ := getItem_ok state.page (state.newitemoff - 1) (by omega) (by omega)
    rw [hitem, ok_bind]
    split_ifs <;> exact ⟨_, rfl⟩

theorem chooseSplit_ok (h : Ready state) {leaffillfactor : ℕ} (hf : leaffillfactor ≤ 100) :
    ∃ split ∈ state.splits, chooseSplit state state.page.maxoff leaffillfactor =
      .ok (split.firstoldonright, split.newitemonleft) := by
  have hhalf : Factor (div 50 100) := factor_div 50 (by omega)
  have hinner : Factor (div 70 100) := factor_div 70 (by omega)
  rw [chooseSplit]
  by_cases hleaf : state.page.isLeaf = true
  swap
  · rw [if_pos (by simp [hleaf])]
    exact searchSplits_ok h hinner _
  rw [if_neg (by simp [hleaf])]
  by_cases hright : state.page.isRightmost = true
  · rw [if_pos hright]
    exact searchSplits_ok h (factor_div _ hf) true
  rw [if_neg hright]
  have hmaxoff : 1 ≤ state.page.maxoff := by
    obtain ⟨split, rest, hsplits⟩ := exists_cons_of_ne_nil h.nonempty
    have hcuts := h.cuts split (hsplits ▸ mem_cons_self)
    have hfirst : state.page.firstDataKey = 2 := by rw [Page.firstDataKey, if_neg hright]
    have := hcuts.low
    have := hcuts.high
    omega
  obtain ⟨r, hr⟩ := afterNewItemOff_ok state (by simpa using hright) h.newitemoff hmaxoff leaffillfactor
  rw [hr, ok_bind]
  match r with
  | some true => exact searchSplits_ok h (factor_div _ hf) true
  | none => exact searchSplits_ok h hhalf false
  | some false =>
    by_cases hany :
      state.splits.any (fun split => split.newitemonleft && state.newitemoff == split.firstoldonright) =
        true
    · rw [if_pos hany]
      obtain ⟨split, hin, hsplit⟩ := any_eq_true.1 hany
      rw [Bool.and_eq_true, beq_iff_eq] at hsplit
      exact ⟨split, hin, by rw [hsplit.1, hsplit.2]⟩
    · rw [if_neg hany]
      exact searchSplits_ok h hhalf false

end Pg.BtSplit
