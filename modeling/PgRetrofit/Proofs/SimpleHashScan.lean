import PgRetrofit.Lib.ScanTable
import PgRetrofit.Proofs.SimpleHashRun

/-! A simplehash table can be scanned: the iterator goes round the ring backwards, from an empty
bucket to the same one, so that the entries that a deletion shifts have all been returned. -/

namespace Pg.SimpleHash

open RobinHood Function Multiset Nat Option Result Except Prod

section Iterate

variable {κ ν : Type*} {ty : SimpleHashType κ} {tb : SimpleHash κ ν} {iter : ShIterator}

structure InRange (tb : SimpleHash κ ν) (iter : ShIterator) : Prop where
  cur : iter.cur < tb.size
  stop : iter.stop < tb.size

def left (tb : SimpleHash κ ν) (iter : ShIterator) : ℕ :=
  if iter.done then 0 else if iter.cur = iter.stop then tb.size else offset tb.size iter.stop iter.cur

theorem left_le (h : InRange tb iter) : left tb iter ≤ tb.size := by
  unfold left
  split_ifs
  · exact zero_le _
  · exact le_rfl
  · exact (offset_lt h.stop h.cur).le

theorem cur_eq (h : InRange tb iter) (hdone : iter.done = false) :
    iter.cur = (iter.stop + left tb iter) % tb.size ∧ 0 < left tb iter := by
  have hstop := h.stop
  rw [left, hdone, if_neg Bool.false_ne_true]
  split_ifs with hcur
  · rw [add_mod_right, mod_eq_of_lt h.stop]
    exact ⟨hcur, by omega⟩
  · refine ⟨(add_offset h.stop h.cur).symm, pos_of_ne_zero fun hzero => hcur ?_⟩
    rw [← add_offset h.stop h.cur, hzero, add_zero, mod_eq_of_lt h.stop]

theorem left_next (hs : Shaped tb) (h : InRange tb iter) (hdone : iter.done = false) :
    InRange tb { iter with
      cur := tb.shPrev iter.cur
      done := tb.shPrev iter.cur &&& tb.sizemask = iter.stop &&& tb.sizemask } ∧
    left tb { iter with
      cur := tb.shPrev iter.cur
      done := tb.shPrev iter.cur &&& tb.sizemask = iter.stop &&& tb.sizemask } = left tb iter - 1 := by
  obtain ⟨hcur, hpos⟩ := cur_eq h hdone
  have hle := left_le h
  obtain ⟨r, hr⟩ : ∃ r, left tb iter = r + 1 := ⟨left tb iter - 1, by omega⟩
  have hprev : tb.shPrev iter.cur = (iter.stop + r) % tb.size := by
    rw [hcur, hr, ← add_assoc, hs.shPrev_mod]
  have hlt : (iter.stop + r) % tb.size < tb.size := mod_lt _ (by omega)
  rw [hr, Nat.add_sub_cancel, hprev, hs.and_mask, hs.and_mask, Nat.mod_mod, Nat.mod_eq_of_lt h.stop]
  refine ⟨⟨hlt, h.stop⟩, ?_⟩
  rw [left]
  by_cases hzero : r = 0
  · rw [hzero, add_zero, mod_eq_of_lt h.stop]
    simp
  · have hne : (iter.stop + r) % tb.size ≠ iter.stop := slot_ne_start h.stop (by omega) (by omega)
    rw [if_neg (by simpa using hne), if_neg hne, offset_add h.stop (by omega)]

/-- The scan finds nothing before it comes to `i`. -/
abbrev EmptyFrom (tb : SimpleHash κ ν) (iter : ShIterator) (i : ℕ) : Prop :=
  ∀ j, i < j → j ≤ left tb iter → tb.data ((iter.stop + j) % tb.size) = none

theorem shIterate_spec (hs : Shaped tb) (h : InRange tb iter) {fuel : ℕ} (hfuel : left tb iter < fuel) :
    (∃ iter', shIterate tb fuel iter = .ok (none, iter') ∧ EmptyFrom tb iter 0) ∨
    ∃ elem iter', shIterate tb fuel iter = .ok (some elem, iter') ∧ InRange tb iter' ∧
      iter'.stop = iter.stop ∧ left tb iter' < left tb iter ∧
      tb.data ((iter.stop + left tb iter' + 1) % tb.size) = some elem ∧
      EmptyFrom tb iter (left tb iter' + 1) := by
  induction fuel generalizing iter with
  | zero => omega
  | succ fuel ih => ?_
  rw [shIterate]
  split_ifs with hdone
  · refine .inl ⟨iter, rfl, fun j h0 hj => ?_⟩
    rw [left, if_pos hdone] at hj
    omega
  have hdone := Bool.eq_false_iff.2 hdone
  obtain ⟨hcur, hpos⟩ := cur_eq h hdone
  obtain ⟨hrange, hleft⟩ := left_next hs h hdone
  cases hdata : tb.data iter.cur with
  | some elem =>
    refine .inr ⟨elem, _, rfl, hrange, rfl, by omega, ?_, fun j hj hj' => ?_⟩
    · rw [hleft, Nat.add_assoc, Nat.sub_add_cancel hpos, ← hcur, hdata]
    · omega
  | none => ?_
  rw [hcur] at hdata
  dsimp only
  generalize hnext :
    ({ iter with cur := tb.shPrev iter.cur, done := tb.shPrev iter.cur &&& tb.sizemask = iter.stop &&&
      tb.sizemask } : ShIterator) = next at hrange hleft ⊢
  have hstop : next.stop = iter.stop := by rw [← hnext]
  rcases ih hrange (by omega)
    with ⟨iter', hrun, hnone⟩ | ⟨elem, iter', hrun, hrange', hstop', hlt, helem, hnone⟩
  · refine .inl ⟨iter', hrun, fun j h0 hj => ?_⟩
    rcases eq_or_lt_of_le hj with rfl | hj
    · exact hdata
    · rw [← hstop]
      exact hnone j h0 (by omega)
  · refine .inr ⟨elem, iter', hrun, hrange', hstop'.trans hstop, by omega, hstop ▸ helem,
      fun j hj hj' => ?_⟩
    rcases eq_or_lt_of_le hj' with rfl | hj'
    · exact hdata
    · rw [← hstop]
      exact hnone j hj (by omega)

theorem firstEmpty_spec {e : ℕ} (hnone : tb.data e = none) (n i : ℕ) (hie : i ≤ e) (hen : e < i + n) :
    firstEmpty tb n i < i + n ∧ tb.data (firstEmpty tb n i) = none := by
  induction n generalizing i with
  | zero => omega
  | succ n ih => ?_
  rw [firstEmpty]
  cases hdata : tb.data i with
  | none => exact ⟨by dsimp only; omega, hdata⟩
  | some x => ?_
  have hne : i ≠ e := by
    rintro rfl
    rw [hnone] at hdata
    cases hdata
  obtain ⟨hlt, hfree⟩ := ih (i + 1) (by omega) (by omega)
  exact ⟨by dsimp only; omega, hfree⟩

theorem shStartIterate_spec (h : Inv ty tb) :
    InRange tb (shStartIterate tb) ∧ left tb (shStartIterate tb) = tb.size ∧
      tb.data (shStartIterate tb).stop = none := by
  obtain ⟨e, he, hnone⟩ := h.exists_empty
  obtain ⟨hlt, hfree⟩ := firstEmpty_spec hnone tb.size 0 (zero_le e) (by omega)
  have hle := h.shaped.le
  have hmod : firstEmpty tb tb.size 0 % 2 ^ 32 = firstEmpty tb tb.size 0 := mod_eq_of_lt (by omega)
  rw [shStartIterate]
  rw [hmod]
  have hlt : firstEmpty tb tb.size 0 < tb.size := by omega
  exact ⟨⟨hlt, hlt⟩, by simp [left], hfree⟩

theorem shStartIterateAt_inRange (h : Inv ty tb) (start : ℕ) :
    InRange tb (shStartIterateAt tb start) := by
  have hone := h.shaped.one_lt
  rw [shStartIterateAt, h.shaped.and_mask]
  exact ⟨mod_lt _ (by omega), mod_lt _ (by omega)⟩

end Iterate

/-! ### Insertions that return

A table of `2 ^ 31` buckets cannot grow: the new size is 0 as a uint32, so that the entries are
copied into a table of two buckets, which does not come to an end. -/

section Insert

variable {κ ν : Type*} {ty : SimpleHashType κ} {tb new tb' : SimpleHash κ ν} {fuel : ℕ}

theorem growPlace_ok {newdata : ℕ → Option (κ × ν)} {start c : ℕ}
    (h : growPlace new newdata fuel start = .ok c) (hstart : start < 2) (hmask : new.sizemask = 1) :
    c < 2 ∧ newdata c = none := by
  induction fuel generalizing start with
  | zero => cases h
  | succ fuel ih => ?_
  rw [growPlace] at h
  cases hdata : newdata start with
  | none =>
    rw [hdata] at h
    obtain rfl := ok.inj h
    exact ⟨hstart, hdata⟩
  | some e =>
    rw [hdata] at h
    refine ih h ?_
    rw [shNext, hmask]
    exact lt_succ_of_le and_le_right

theorem growCopy_ok {olddata newdata data : ℕ → Option (κ × ν)} {oldsize start : ℕ} (n : ℕ)
    (h : growCopy ty fuel new oldsize olddata n start newdata = .ok data) (hstart : start < oldsize)
    (hmask : new.sizemask = 1) :
    (contents 2 newdata).card + (∑ j ∈ Finset.range n, cell (olddata ((start + j) % oldsize))).card =
      (contents 2 data).card := by
  induction n generalizing start newdata with
  | zero =>
    obtain rfl := ok.inj h
    simp
  | succ n ih => ?_
  have hnext : (if start + 1 ≥ oldsize then 0 else start + 1) < oldsize ∧
      ∀ j, (start + (j + 1)) % oldsize =
        ((if start + 1 ≥ oldsize then 0 else start + 1) + j) % oldsize := by
    split_ifs with hge
    · refine ⟨by omega, fun j => ?_⟩
      rw [show start + (j + 1) = oldsize + j by omega, add_mod_left, zero_add]
    · exact ⟨by omega, fun j => by rw [add_right_comm, add_assoc]⟩
  rw [growCopy] at h
  rw [Finset.sum_range_succ', card_add, add_zero, mod_eq_of_lt hstart]
  simp only [hnext.2]
  cases hold : olddata start with
  | none =>
    rw [hold] at h
    exact ih h hnext.1
  | some e => ?_
  rw [hold] at h
  obtain ⟨c, hplace, h⟩ := bind_eq_ok.1 h
  have hopt : optimal ty new e < 2 := by
    rw [optimal, shInitialBucket, hmask]
    exact lt_succ_of_le and_le_right
  obtain ⟨hc, hfree⟩ := growPlace_ok hplace hopt hmask
  have hsum := ih h hnext.1
  rw [(inserted_update hc hfree e).contents_eq, card_cons] at hsum
  rw [show (cell (some e)).card = 1 from rfl]
  omega

theorem shGrow_zero (hempty : ∃ e < tb.size, tb.data e = none) (hmany : 2 < tb.entries.card)
    (tb' : SimpleHash κ ν) : shGrow ty fuel tb 0 ≠ .ok tb' := by
  intro hgrow
  have hpow : shPow2 (max 0 2) = 2 ^ 1 := shPow2_pow (le_refl 1)
  rw [shGrow, shComputeParameters_eq ty tb (by decide) hpow] at hgrow
  dsimp only [Except.bind] at hgrow
  generalize hnew : ({ tb with size := 2 ^ 1, sizemask := 2 ^ 1 - 1, growThreshold := 2 ^ 1 * 9 / 10 } :
    SimpleHash κ ν) = new at hgrow
  obtain ⟨e, he, hnone⟩ := hempty
  obtain ⟨hstart, -⟩ : growStart ty new tb.data tb.size 0 < 0 + tb.size ∧ _ :=
    growStart_spec hnone tb.size 0 (zero_le e) (by omega)
  rw [zero_add] at hstart
  cases hcopy :
    growCopy ty fuel new tb.size tb.data tb.size (growStart ty new tb.data tb.size 0) fun _ => none with
  | error e => rw [hcopy] at hgrow; cases hgrow
  | ok data => ?_
  have hcard := growCopy_ok tb.size hcopy hstart (by rw [← hnew]; rfl)
  rw [← contents_from hstart] at hcard
  have hle : (contents 2 data).card ≤ 2 := by
    rw [card_contents]
    exact (Finset.card_filter_le _ _).trans_eq (Finset.card_range 2)
  rw [entries] at hmany
  omega

theorem growCheck_ok (hs : Shaped tb) (hempty : ∃ e < tb.size, tb.data e = none)
    (hmany : tb.size = 2 ^ 31 → 2 < tb.entries.card) (hfull : tb.members ≥ tb.growThreshold)
    (h : growCheck ty fuel tb = .ok tb') :
    tb.size < 2 ^ 31 ∧ shGrow ty fuel tb (tb.size * 2) = .ok tb' := by
  have hsize : tb.size < 2 ^ 31 := by
    refine lt_of_le_of_ne hs.le fun heq => ?_
    rw [growCheck, if_pos hfull, if_neg (by rw [heq]; decide),
      show tb.size * 2 % 2 ^ 32 = 0 by rw [heq]; rfl] at h
    exact shGrow_zero hempty (hmany heq) tb' h
  exact ⟨hsize, by rwa [growCheck_grow hfull hsize] at h⟩

variable [DecidableEq κ] {key : κ} {v : ν} {r : SimpleHash κ ν × ℕ × Bool} {found : Bool} {i : ℕ}
  (hfuel : 2 ^ 32 ≤ fuel)
include hfuel

theorem settles_of_room (restarts : ℕ) (h : Inv ty tb) (hroom : tb.members < tb.growThreshold)
    (hrun : insertFrom ty fuel (restarts + 1) tb key v = .ok r) : Settles ty fuel key tb := by
  induction restarts using Nat.strong_induction_on generalizing tb with
  | _ restarts ih =>
    by_cases hplace : findPlace ty fuel tb key = .ok .grow
    swap
    · exact .stay hroom hplace
    rw [insertFrom, growCheck_keep hroom] at hrun
    simp only [Except.bind, hplace] at hrun
    cases restarts with
    | zero => cases hrun
    | succ restarts => ?_
    have hfilled : tb.members * 10 ≥ tb.size := by
      obtain ⟨pl, hpl, hplaced⟩ := findPlace_spec h hfuel key
      rw [hplace] at hpl
      obtain rfl := ok.inj hpl
      cases hplaced with
      | grow hfilled => exact of_decide_eq_true hfilled
    obtain ⟨tb₁, hcheck, -⟩ :=
      bind_eq_ok.1 (show (growCheck ty fuel { tb with growThreshold := 0 }).bind _ = _ from hrun)
    have hmembers := h.members_eq
    have hshaped : Shaped ({ tb with growThreshold := 0 } : SimpleHash κ ν) :=
      ⟨h.shaped.pow, h.shaped.mask⟩
    obtain ⟨hsize, hgrow⟩ := growCheck_ok hshaped h.exists_empty
      (fun heq => hmembers ▸ by dsimp only at heq; omega) (zero_le _) hcheck
    have hsize : tb.size < 2 ^ 31 := hsize
    obtain ⟨tb2, hgrow2, hinv, -, -, hroom2⟩ := shGrow_spec h hsize (by omega : tb.size < fuel)
    obtain rfl : tb₁ = tb2 := ok.inj (hgrow.symm.trans hgrow2)
    rw [insertFrom_growCheck hcheck hroom2] at hrun
    exact .grow (.inr hplace) hsize hgrow2 (ih restarts (lt_succ_self _) hinv hroom2 hrun)

theorem settles_of_ok (h : Inv ty tb) (hrun : shInsert ty fuel tb key v = .ok r) :
    Settles ty fuel key tb := by
  obtain ⟨restarts, rfl⟩ : ∃ restarts, fuel = restarts + 1 := ⟨fuel - 1, by omega⟩
  by_cases hroom : tb.members < tb.growThreshold
  · exact settles_of_room hfuel restarts h hroom hrun
  rw [shInsert] at hrun
  have hfull := Nat.le_of_not_lt hroom
  obtain ⟨tb₁, hcheck, -⟩ := bind_eq_ok.1 (show (growCheck ty (restarts + 1) tb).bind _ = _ from hrun)
  have hthreshold := h.threshold_eq
  have hmembers := h.members_eq
  obtain ⟨hsize, hgrow⟩ := growCheck_ok h.shaped h.exists_empty (fun heq => by omega) hfull hcheck
  obtain ⟨tb2, hgrow2, hinv, -, -, hroom2⟩ := shGrow_spec h hsize (by omega : tb.size < restarts + 1)
  obtain rfl : tb₁ = tb2 := ok.inj (hgrow.symm.trans hgrow2)
  rw [insertFrom_growCheck hcheck hroom2] at hrun
  exact .grow (.inl hfull) hsize hgrow2 (settles_of_room hfuel restarts hinv hroom2 hrun)

theorem shInsert_ok (h : Inv ty tb)
    (hrun : shInsert ty fuel tb key v = .ok (tb', i, found)) :
    Inv ty tb' ∧ Effect key v tb tb' i found ∧ tb.size ≤ tb'.size := by
  obtain ⟨tb₁, i1, found1, hrun1, hinv, heffect, hgrown⟩ :=
    shInsert_spec hfuel h (settles_of_ok hfuel h hrun) v
  cases hrun.symm.trans hrun1
  exact ⟨hinv, heffect, hgrown⟩

end Insert

section Bucket

variable {κ ν : Type*} {ty : SimpleHashType κ} {tb : SimpleHash κ ν} {key : κ} {v w : ν} {p : ℕ}

theorem bucket_unique (h : Inv ty tb) {q : ℕ} {v : ν} (hp : p < tb.size) (hq : q < tb.size)
    (hv : tb.data p = some (key, v)) (hw : tb.data q = some (key, w)) : p = q ∧ v = w := by
  obtain rfl : p = q := slot_unique h.keys hp hq hv hw rfl
  exact ⟨rfl, congrArg snd (mem_unique hv hw)⟩

theorem level_assign (hdata : tb.data p = some (key, w)) (i : ℕ) :
    level tb.size (optimal ty { tb with data := update tb.data p (some (key, v)) })
      (update tb.data p (some (key, v))) i = level tb.size (optimal ty tb) tb.data i := by
  by_cases hi : i % tb.size = p
  · subst hi
    rw [level_some (update_self ..), level_some hdata]
    rfl
  · exact level_congr (update_of_ne hi ..) rfl

theorem contents_assign (hdata : tb.data p = some (key, w)) :
    (contents tb.size (update tb.data p (some (key, v)))).map fst = tb.entries.map fst := by
  rw [entries, contents, contents, ← coe_mapAddMonoidHom, map_sum, map_sum]
  refine Finset.sum_congr rfl fun q _ => ?_
  by_cases hq : q = p
  · subst hq
    rw [update_self, hdata]
    rfl
  · rw [update_of_ne hq]

theorem Inv.assign (h : Inv ty tb) (hdata : tb.data p = some (key, w)) (v : ν) :
    Inv ty { tb with data := update tb.data p (some (key, v)) } := by
  have hkeys := contents_assign (v := v) hdata
  refine ⟨⟨h.shaped.pow, h.shaped.mask⟩, h.threshold_eq, ?_, h.room, ?_, fun i => ?_⟩
  · have hcard := congrArg card hkeys
    rw [card_map, card_map] at hcard
    exact h.members_eq.trans hcard.symm
  · rw [entries, hkeys]
    exact h.keys
  · rw [level_assign hdata, level_assign hdata]
    exact h.ordered i

end Bucket

section Scan

variable {κ ν : Type*} {ty : SimpleHashType κ} {tb tb' : SimpleHash κ ν} {iter : ShIterator} {key : κ}
  {v w : ν} {p i : ℕ}

/-- The bounds on the loops: no table has more buckets. -/
def rounds : ℕ := 2 ^ 32

theorem Inv.le_rounds (h : Inv ty tb) : tb.size ≤ rounds := by
  have hle := h.shaped.le
  unfold rounds
  omega

theorem inRange_congr (hsize : tb'.size = tb.size) (h : InRange tb iter) : InRange tb' iter :=
  ⟨hsize ▸ h.cur, hsize ▸ h.stop⟩

theorem left_congr (hsize : tb'.size = tb.size) : left tb' iter = left tb iter := by
  rw [left, left, hsize]

def next (tb : SimpleHash κ ν) (iter : ShIterator) : Option (κ × ν × ShIterator) :=
  match shIterate tb (rounds + 1) iter with
  | .ok (some elem, iter) => some (elem.1, elem.2, iter)
  | _ => none

/-- The scan is going to return the entries with these keys; where it stops there is none. -/
structure Scanning (tb : SimpleHash κ ν) (iter : ShIterator) (S : Set κ) : Prop where
  range : InRange tb iter
  stop : tb.data iter.stop = none
  keys : ∀ key, key ∈ S ↔
    ∃ j v, 0 < j ∧ j ≤ left tb iter ∧ tb.data ((iter.stop + j) % tb.size) = some (key, v)

def Returned (tb : SimpleHash κ ν) (iter : ShIterator) (key : κ) : Prop :=
  left tb iter < tb.size ∧ ∃ v, tb.data ((iter.stop + left tb iter + 1) % tb.size) = some (key, v)

theorem next_spec (h : Inv ty tb) (hrange : InRange tb iter) :
    (next tb iter = none ∧ EmptyFrom tb iter 0) ∨
    ∃ key v iter', next tb iter = some (key, v, iter') ∧ InRange tb iter' ∧ iter'.stop = iter.stop ∧
      left tb iter' < left tb iter ∧
      tb.data ((iter.stop + left tb iter' + 1) % tb.size) = some (key, v) ∧
      EmptyFrom tb iter (left tb iter' + 1) := by
  rw [next]
  rcases shIterate_spec h.shaped hrange (lt_add_one_of_le ((left_le hrange).trans h.le_rounds))
    with ⟨iter', hrun, hnone⟩ | ⟨elem, iter', hrun, hrest⟩
  · exact .inl ⟨by rw [hrun], hnone⟩
  · exact .inr ⟨elem.1, elem.2, iter', by rw [hrun], hrest⟩

theorem Scanning.lt_size {S : Set κ} {e : κ × ν} (hs : Scanning tb iter S) (hlt : i < tb.size)
    (hdata : tb.data ((iter.stop + i + 1) % tb.size) = some e) :
    i + 1 < tb.size := by
  refine lt_of_le_of_ne hlt fun heq => ?_
  rw [add_assoc, heq, add_mod_right, mod_eq_of_lt hs.range.stop, hs.stop] at hdata
  cases hdata

theorem Scanning.eq_empty {S : Set κ} (hs : Scanning tb iter S)
    (hnone : EmptyFrom tb iter 0) : S = ∅ := by
  refine Set.eq_empty_iff_forall_notMem.2 fun key hkey => ?_
  obtain ⟨j, v, h0, hj, hdata⟩ := (hs.keys key).1 hkey
  rw [hnone j h0 hj] at hdata
  cases hdata

theorem Scanning.next {S : Set κ} {iter' : ShIterator} (hs : Scanning tb iter S) (h : Inv ty tb)
    (hnext : next tb iter = some (key, v, iter')) :
    key ∈ S ∧ Scanning tb iter' (S \ {key}) ∧ Returned tb iter' key := by
  have hle := left_le hs.range
  rcases next_spec h hs.range
    with ⟨hnone, -⟩ | ⟨key₁, v₁, iter₁, hrun, hrange, hstop, hlt, hdata, hempty⟩
  · rw [hnone] at hnext
    cases hnext
  cases hnext.symm.trans hrun
  refine ⟨(hs.keys key).2 ⟨left tb iter' + 1, v, succ_pos _, hlt, hdata⟩,
    ⟨hrange, hstop ▸ hs.stop, fun key' => ?_⟩, by omega, v, hstop ▸ hdata⟩
  rw [Set.mem_sdiff, hs.keys, hstop]
  constructor
  · rintro ⟨⟨j, v', h0, hj, hdata'⟩, hne⟩
    refine ⟨j, v', h0, Nat.le_of_not_lt fun hgt => ?_, hdata'⟩
    rcases Nat.eq_or_lt_of_le hgt with heq | hgt
    · rw [← heq, succ_eq_add_one, ← add_assoc, hdata] at hdata'
      exact hne (congrArg fst (some.inj hdata')).symm
    · rw [hempty j hgt hj] at hdata'
      cases hdata'
  · rintro ⟨j, v', h0, hj, hdata'⟩
    refine ⟨⟨j, v', h0, by omega, hdata'⟩, ?_⟩
    rintro rfl
    have hn : 0 < tb.size := zero_lt_of_lt hs.range.stop
    have hsame := (bucket_unique h (mod_lt _ hn) (mod_lt _ hn) hdata' hdata).1
    exact slot_ne (lt_succ_of_le hj) (hs.lt_size (by omega) hdata) hsame

theorem Scanning.assign {S : Set κ} (hs : Scanning tb iter S) (hdata : tb.data p = some (key, w)) :
    Scanning { tb with data := update tb.data p (some (key, v)) } iter S := by
  refine ⟨⟨hs.range.cur, hs.range.stop⟩, ?_, fun key' => ?_⟩
  · refine (update_of_ne ?_ ..).trans hs.stop
    rintro rfl
    rw [hs.stop] at hdata
    cases hdata
  rw [hs.keys]
  refine exists_congr fun j => ?_
  dsimp only
  by_cases hj : (iter.stop + j) % tb.size = p
  · rw [hj, hdata]
    simp [left]
  · rw [update_of_ne hj]
    rfl

theorem Returned.assign {key' : κ} (hl : Returned tb iter key) (hdata : tb.data p = some (key', w)) :
    Returned { tb with data := update tb.data p (some (key', v)) } iter key := by
  obtain ⟨hlt, v', hlast⟩ := hl
  refine ⟨hlt, ?_⟩
  by_cases hp : (iter.stop + left tb iter + 1) % tb.size = p
  · subst hp
    rw [hdata] at hlast
    obtain rfl : key' = key := congrArg fst (some.inj hlast)
    exact ⟨v, update_self ..⟩
  · exact ⟨v', (update_of_ne hp ..).trans hlast⟩

end Scan

section Table

variable {κ ν : Type} [DecidableEq κ] (ty : SimpleHashType κ) (nelements : UInt32)

def find (tb : SimpleHash κ ν) (key : κ) : Option ν :=
  match shLookup ty rounds tb key with
  | .ok e => e.map Prod.snd
  | .error _ => none

/-- The caller's change of the element that it has found. -/
def assign (tb : SimpleHash κ ν) (key : κ) (v : ν) : SimpleHash κ ν :=
  match tb.search key rounds (tb.shInitialBucket (ty.hashKey key)) with
  | .ok (some curelem) => { tb with data := Function.update tb.data curelem (some (key, v)) }
  | _ => tb

def remove (tb : SimpleHash κ ν) (key : κ) : SimpleHash κ ν × Bool :=
  match shDelete ty rounds tb key with
  | .ok r => r
  | .error _ => (tb, false)

def scanTable : ScanTable Fault κ ν (SimpleHash κ ν) ShIterator where
  create := shCreate ty nelements
  insert tb key v := (shInsert ty rounds tb key v).map fun r => (r.1, r.2.2)
  lookup := find ty
  store := assign ty
  delete := remove ty
  start := shStartIterate
  startAt := shStartIterateAt
  cur iter := iter.cur
  room := left
  iterate := next

variable {ty nelements} {tb tb' : SimpleHash κ ν} {iter : ShIterator} {key : κ} {v w : ν}
  {p : ℕ} {found : Bool} {r : SimpleHash κ ν × Bool} (h : Inv ty tb)
include h

theorem find_iff : find ty tb key = some v ↔ ∃ p < tb.size, tb.data p = some (key, v) := by
  rw [find]
  rcases shLookup_spec h h.le_rounds key with ⟨w, hmem, hrun⟩ | ⟨hnot, hrun⟩
  · obtain ⟨q, hq, hdata⟩ := mem_contents.1 hmem
    rw [hrun]
    constructor
    · intro heq
      obtain rfl : w = v := some.inj heq
      exact ⟨q, hq, hdata⟩
    · rintro ⟨p, hp, hdata'⟩
      rw [(bucket_unique h hp hq hdata' hdata).2]
      rfl
  · rw [hrun]
    exact ⟨fun heq => absurd heq (by simp), fun hin => absurd (mem_contents.2 hin) (hnot v)⟩

theorem find_ext {m : κ → Option ν} (hm : ∀ key v, (key, v) ∈ tb.entries ↔ m key = some v) :
    find ty tb = m := by
  funext key
  refine ext fun v => ?_
  rw [find_iff h, ← hm, entries, mem_contents]

theorem represents_find : Represents ty tb (find ty tb) :=
  ⟨h, fun key v => by rw [find_iff h, entries, mem_contents]⟩

theorem search_rounds (key : κ) :
    (∃ p v, p < tb.size ∧ tb.data p = some (key, v) ∧
      tb.search key rounds (home ty tb key) = .ok (some p)) ∨
    find ty tb key = none ∧ tb.search key rounds (home ty tb key) = .ok none := by
  refine (search_spec h h.le_rounds key).imp_right fun ⟨hnot, hrun⟩ => ⟨?_, hrun⟩
  exact (represents_find h).absent hnot

theorem assign_spec (hfound : (find ty tb key).isSome) :
    ∃ p w, p < tb.size ∧ tb.data p = some (key, w) ∧
      assign ty tb key v = { tb with data := update tb.data p (some (key, v)) } := by
  rcases search_rounds h key with ⟨p, w, hp, hdata, hrun⟩ | ⟨hnone, -⟩
  · exact ⟨p, w, hp, hdata, by rw [assign, hrun]⟩
  · rw [hnone] at hfound
    cases hfound

theorem find_assign (hp : p < tb.size) (hdata : tb.data p = some (key, w)) (v : ν) :
    find ty { tb with data := update tb.data p (some (key, v)) } = update (find ty tb) key (some v) := by
  refine find_ext (h.assign hdata v) fun key' v' => ?_
  rw [entries, mem_contents]
  dsimp only
  by_cases hkey : key' = key
  · subst hkey
    rw [update_self]
    constructor
    · rintro ⟨q, hq, hdata'⟩
      by_cases hqp : q = p
      · subst hqp
        rw [update_self] at hdata'
        exact congrArg (fun e => some e.2) (some.inj hdata')
      · rw [update_of_ne hqp] at hdata'
        exact absurd (bucket_unique h hq hp hdata' hdata).1 hqp
    · intro heq
      exact ⟨p, hp, by rw [update_self, some.inj heq]⟩
  · rw [update_of_ne hkey, find_iff h]
    refine exists_congr fun q => and_congr_right fun _ => ?_
    by_cases hqp : q = p
    · subst hqp
      rw [hdata]
      simp [Ne.symm hkey]
    · rw [update_of_ne hqp]

omit h

inductive Deletes (ty : SimpleHashType κ) (tb : SimpleHash κ ν) (key : κ) : SimpleHash κ ν × Bool → Prop
  | absent (hnone : find ty tb key = none) : Deletes ty tb key (tb, false)
  | removed {c m : ℕ} {v : ν} {data' : ℕ → Option (κ × ν)} {members : ℕ}
      (hrem : Removed tb.size tb.data data' c m (key, v))
      (hfull : ∀ j < m, tb.data ((c + j + 1) % tb.size) ≠ none) :
      Deletes ty tb key ({ tb with members := members, data := data' }, true)

theorem remove_spec (h : Inv ty tb) (key : κ) :
    Deletes ty tb key (remove ty tb key) ∧ Inv ty (remove ty tb key).1 ∧
      (remove ty tb key).2 = (find ty tb key).isSome ∧
      find ty (remove ty tb key).1 = update (find ty tb) key none := by
  have hdeletes : Deletes ty tb key (remove ty tb key) := by
    rcases search_rounds h key with ⟨p, v, hp, hdata, hrun⟩ | ⟨hnone, hrun⟩
    · obtain ⟨m, data', hdelete, hrem, haway, -⟩ := shDelete_removed h h.le_rounds hp hdata hrun
      rw [remove, hdelete]
      refine .removed hrem fun j hj hempty => haway j hj fun e he => ?_
      rw [hempty] at he
      cases he
    · rw [remove, shDelete, hrun]
      exact .absent hnone
  refine ⟨hdeletes, ?_⟩
  rcases shDelete_spec h h.le_rounds key with ⟨tb', v, hrun, hinv, hent⟩ | ⟨hrun, hnot⟩
  · have hfind : find ty tb key = some v :=
      ((represents_find h).entries_iff key v).1 (by rw [hent]; exact mem_cons_self ..)
    rw [remove, hrun, hfind]
    exact ⟨hinv, rfl, find_ext hinv ((represents_find h).delete hinv hent).entries_iff⟩
  · have hfind : find ty tb key = none := (represents_find h).absent hnot
    rw [remove, hrun, hfind]
    exact ⟨h, rfl, by rw [← hfind, update_eq_self]⟩

theorem scanning_start (h : Inv ty tb) :
    Scanning tb (shStartIterate tb) {key | (find ty tb key).isSome} := by
  obtain ⟨hrange, hleft, hstop⟩ := shStartIterate_spec h
  refine ⟨hrange, hstop, fun key => ?_⟩
  rw [Set.mem_ofPred_eq, isSome_iff_exists, hleft]
  constructor
  · rintro ⟨v, hv⟩
    obtain ⟨p, hp, hdata⟩ := (find_iff h).1 hv
    have hat := add_offset hrange.stop hp
    refine ⟨offset tb.size (shStartIterate tb).stop p, v, pos_of_ne_zero fun hzero => ?_,
      (offset_lt hrange.stop hp).le, by rw [hat, hdata]⟩
    rw [hzero, add_zero, mod_eq_of_lt hrange.stop] at hat
    rw [← hat, hstop] at hdata
    cases hdata
  · rintro ⟨j, v, -, -, hdata⟩
    exact ⟨v, (find_iff h).2 ⟨_, mod_lt _ (zero_lt_of_lt hrange.stop), hdata⟩⟩

/-- A deletion of the entry that was returned last shifts only entries that have been returned. -/
theorem Scanning.remove {S : Set κ} (hs : Scanning tb iter S) (h : Inv ty tb)
    (hlast : Returned tb iter key) (hdel : Deletes ty tb key r) : Scanning r.1 iter S := by
  obtain ⟨hlt, v, hdata⟩ := hlast
  have hn : 0 < tb.size := zero_lt_of_lt hs.range.stop
  cases hdel with
  | absent hnone =>
    rw [(find_iff h).2 ⟨_, mod_lt _ hn, hdata⟩] at hnone
    cases hnone
  | @removed c m w data' members hrem hfull => ?_
  obtain ⟨rfl, rfl⟩ := bucket_unique h hrem.c_lt (mod_lt _ hn) hrem.head hdata
  have hroom : left tb iter + 1 < tb.size := hs.lt_size hlt hdata
  -- the bucket where the scan stops, and those before it, counted from the one that is emptied
  have hfrom :
      ∀ j, j ≤ left tb iter →
      ((iter.stop + left tb iter + 1) % tb.size + (tb.size - left tb iter - 1 + j)) % tb.size =
        (iter.stop + j) % tb.size := by
    intro j hj
    rw [mod_add_mod, show iter.stop + left tb iter + 1 + (tb.size - left tb iter - 1 + j) =
      iter.stop + j + tb.size by omega, add_mod_right]
  have hstop : ((iter.stop + left tb iter + 1) % tb.size + (tb.size - left tb iter - 1)) %
      tb.size = iter.stop :=
    (hfrom 0 (zero_le _)).trans (mod_eq_of_lt hs.range.stop)
  have hm : m < tb.size - left tb iter - 1 := by
    by_contra hge
    refine hfull (tb.size - left tb iter - 2) (by omega) ?_
    rw [add_assoc,
      show tb.size - left tb iter - 2 + 1 = tb.size - left tb iter - 1 by omega, hstop, hs.stop]
  have hkept :
      ∀ j ≤ left tb iter, data' ((iter.stop + j) % tb.size) = tb.data ((iter.stop + j) % tb.size) := by
    intro j hj
    rw [← hfrom j hj]
    exact hrem.kept _ (by omega) (by omega)
  refine ⟨⟨hs.range.cur, hs.range.stop⟩, ?_, fun key' => ?_⟩
  · have hzero := hkept 0 (zero_le _)
    rw [add_zero, mod_eq_of_lt hs.range.stop] at hzero
    exact hzero.trans hs.stop
  rw [hs.keys]
  refine exists_congr fun j =>
    exists_congr fun v' => and_congr_right fun _ => and_congr_right fun hj => ?_
  dsimp only
  rw [hkept j hj]

theorem Deletes.size_eq (h : Deletes ty tb key r) : r.1.size = tb.size := by
  cases h <;> rfl

/-- A whole scan, with `calls` calls to go, by a caller that deletes some of the entries, each as
soon as it is returned. -/
def scanDeleting (ty : SimpleHashType κ) (deletes : ℕ → Bool) :
    ℕ → SimpleHash κ ν → ShIterator → Except Fault (List (κ × ν))
  | 0, _, _ => .error .diverges
  | calls + 1, tb, iter =>
    (shIterate tb (rounds + 1) iter).bind fun
      | (none, _) => .ok []
      | (some elem, iter) =>
        (if deletes calls then (shDelete ty rounds tb elem.1).map Prod.fst else .ok tb).bind fun tb =>
          (scanDeleting ty deletes calls tb iter).map (elem :: ·)

theorem shDelete_eq_remove (h : Inv ty tb) (key : κ) :
    shDelete ty rounds tb key = .ok (remove ty tb key) := by
  rcases shDelete_spec h h.le_rounds key with ⟨tb', v, hrun, -⟩ | ⟨hrun, -⟩ <;> rw [remove, hrun]

theorem scanDeleting_spec {deletes : ℕ → Bool} {calls : ℕ} {S : Set κ} (h : Inv ty tb)
    (hs : Scanning tb iter S) (hcalls : left tb iter < calls) :
    ∃ es, scanDeleting ty deletes calls tb iter = .ok es ∧ ScanTable.Lists es S (find ty tb) := by
  induction calls generalizing tb iter S with
  | zero => omega
  | succ calls ih => ?_
  rw [scanDeleting]
  rcases shIterate_spec h.shaped hs.range (lt_add_one_of_le ((left_le hs.range).trans h.le_rounds))
    with ⟨iter', hrun, hnone⟩ | ⟨elem, iter', hrun, -, -, hlt, hdata, -⟩
  · obtain rfl : S = ∅ := hs.eq_empty hnone
    exact ⟨[], by rw [hrun]; rfl, ScanTable.lists_nil _⟩
  obtain ⟨hmem, hs', hlast⟩ := hs.next h (by rw [next, hrun])
  obtain ⟨tb₁, hstep, hinv, hs1, hsize, hfind⟩ :
    ∃ tb₁, (if deletes calls then (shDelete ty rounds tb elem.1).map fst else .ok tb) = .ok tb₁ ∧
      Inv ty tb₁ ∧ Scanning tb₁ iter' (S \ {elem.1}) ∧ tb₁.size = tb.size ∧
      ∀ key ≠ elem.1, find ty tb₁ key = find ty tb key := by
    cases deletes calls with
    | false => exact ⟨tb, rfl, h, hs', rfl, fun _ _ => rfl⟩
    | true =>
      obtain ⟨hdel, hinv, -, hfind⟩ := remove_spec h elem.1
      exact ⟨_,
        by
          rw [shDelete_eq_remove h]; rfl, hinv, hs'.remove h hlast hdel, hdel.size_eq, fun key hne => by
            rw [hfind, update_of_ne hne]⟩
  obtain ⟨es, hes, hlists⟩ := ih hinv hs1 (by rw [left_congr hsize]; omega)
  refine ⟨elem :: es, by simp only [hrun, Except.bind, hstep, hes]; rfl, hlists.cons hmem ?_ hfind⟩
  exact (find_iff h).2 ⟨_, mod_lt _ (zero_lt_of_lt hs.range.stop), hdata⟩

theorem run_inv (h : Inv ty tb) (ops : List (Op κ ν)) {answers : List (Answer κ ν)}
    (hrun : run ty rounds tb ops = .ok (tb', answers)) : Inv ty tb' := by
  induction ops generalizing tb answers with
  | nil =>
    cases hrun
    exact h
  | cons op ops ih => ?_
  obtain ⟨⟨tb₁, a⟩, hstep, hrest⟩ := bind_eq_ok.1 hrun
  obtain ⟨⟨tb2, as⟩, hrun', hr⟩ := map_eq_ok.1 hrest
  cases hr
  refine ih ?_ hrun'
  cases op with
  | insert key v =>
    obtain ⟨⟨tb2, i, found⟩, hinsert, hr⟩ := map_eq_ok.1 hstep
    cases hr
    exact (shInsert_ok le_rfl h hinsert).1
  | delete key =>
    rw [step, shDelete_eq_remove h] at hstep
    cases hstep
    exact (remove_spec h key).2.1
  | lookup key =>
    obtain ⟨e, -, hr⟩ := map_eq_ok.1 hstep
    cases hr
    exact h

/-- Whatever is deleted on the way, a scan of a table in use returns the entries that were there at
its start, each once. -/
theorem scanDeleting_entries (hn : nelements.toNat * 10 / 9 ≤ 2 ^ 31 ∨ 2 ^ 32 ≤ nelements.toNat * 10 / 9)
    {tb₀ : SimpleHash κ ν} (hcreate : shCreate ty nelements = .ok tb₀) {ops : List (Op κ ν)}
    {answers : List (Answer κ ν)} (hrun : run ty rounds tb₀ ops = .ok (tb, answers))
    (deletes : ℕ → Bool) : ∃ es, scanDeleting ty deletes (tb.size + 1) tb (shStartIterate tb) = .ok es ∧
      (es : Multiset (κ × ν)) = tb.entries := by
  obtain ⟨tb₁, hcreate₁, hempty⟩ := shCreate_represents ty hn
  cases hcreate.symm.trans hcreate₁
  have h := run_inv hempty.inv ops hrun
  obtain ⟨es, hscan, hnodup, hmem⟩ := @scanDeleting_spec _ _ _ _ _ _ deletes _ _ h (scanning_start h)
    (lt_succ_of_le (left_le (shStartIterate_spec h).1))
  refine ⟨es, hscan, (Multiset.Nodup.ext (coe_nodup.2 (hnodup.of_map _)) h.keys.of_map).2 fun e => ?_⟩
  rw [mem_coe, hmem e.1 e.2, (represents_find h).entries_iff, Set.mem_ofPred_eq]
  exact ⟨fun h => h.2, fun h => ⟨by rw [h]; rfl, h⟩⟩

/-- A scan of three entries that deletes the second one it returns. -/
theorem scanDeleting_entries_sample :
    ∃ tb tb' : SimpleHash ℕ ℕ, ∃ answers, shCreate sampleType 0 = .ok tb ∧
      run sampleType rounds tb (sampleOps.take 3) = .ok (tb', answers) ∧
      scanDeleting sampleType (fun calls => calls == 3) (tb'.size + 1) tb' (shStartIterate tb') =
        .ok [(2, 8), (4, 9), (0, 7)] ∧
      ({(2, 8), (4, 9), (0, 7)} : Multiset (ℕ × ℕ)) = tb'.entries := by
  have hcreate : shCreate sampleType 0 = .ok (⟨2, 0, 1, 1, fun _ => none⟩ : SimpleHash ℕ ℕ) := rfl
  obtain ⟨tb', answers, hrun, hscan⟩ : ∃ tb' answers,
      run sampleType rounds ⟨2, 0, 1, 1, fun _ => none⟩ (sampleOps.take 3) = .ok (tb', answers) ∧
      scanDeleting sampleType (fun calls => calls == 3) (tb'.size + 1) tb' (shStartIterate tb') =
        .ok [(2, 8), (4, 9), (0, 7)] := ⟨_, _, rfl, by decide +kernel⟩
  obtain ⟨es, hes, hentries⟩ :=
    scanDeleting_entries (.inl (by decide)) hcreate hrun fun calls => calls == 3
  obtain rfl := ok.inj (hscan.symm.trans hes)
  exact ⟨_, tb', answers, hcreate, hrun, hscan, hentries⟩

/-- In a table of `2 ^ 32` buckets the scan ends before it comes to the only bucket in use. -/
theorem scanDeleting_maxTable :
    ∃ tb tb' answers, shCreate sampleType 2147483648 = .ok tb ∧
      run sampleType rounds tb [.insert 0 7] = .ok (tb', answers) ∧
      tb'.data 0 = some (0, 7) ∧
      ∀ deletes, scanDeleting sampleType deletes (tb'.size + 1) tb' (shStartIterate tb') = .ok [] :=
  ⟨_, maxTable 1 (update (fun _ => none) 0 (some (0, 7))), _, shCreate_maxTable, rfl, rfl, fun _ => rfl⟩

theorem size_assign (ty : SimpleHashType κ) (tb : SimpleHash κ ν) (key : κ) (v : ν) :
    (assign ty tb key v).size = tb.size := by
  rw [assign]
  split <;> rfl

theorem insert_spec (h : Inv ty tb)
    (hrun : (scanTable ty nelements).insert tb key v = .ok (tb', found)) :
    Inv ty tb' ∧ found = (find ty tb key).isSome ∧
      (find ty tb' = if found then find ty tb else update (find ty tb) key (some v)) ∧
      tb.size ≤ tb'.size := by
  obtain ⟨r, hinsert, hr⟩ := map_eq_ok.1 hrun
  cases hr
  obtain ⟨hinv, heffect, hsize⟩ := shInsert_ok le_rfl h hinsert
  refine ⟨hinv, ?_⟩
  obtain ⟨tb', i, found⟩ := r
  cases heffect with
  | @found w hentry hmem hent =>
    have hfind : find ty tb key = some w := ((represents_find h).entries_iff key w).1 hmem
    rw [hfind]
    refine ⟨rfl, ?_, hsize⟩
    rw [if_pos rfl]
    exact find_ext hinv fun key v => by rw [hent, (represents_find h).entries_iff]
  | new hentry habsent hent =>
    have hfind : find ty tb key = none := (represents_find h).absent habsent
    rw [hfind]
    exact ⟨rfl, find_ext hinv ((represents_find h).insert hinv hfind hent).entries_iff, hsize⟩

/-- Below a tenth of `2 ^ 31` entries an insertion returns. -/
theorem insert_room {n : ℕ} (h : Inv ty tb) (hcount : FiniteMap.Counts (find ty tb) (fun _ => true) n)
    (hfew : n < 214748365) (key : κ) (v : ν) :
    ∃ r, (scanTable ty nelements).insert tb key v = .ok r := by
  have hmembers : tb.members = n := by
    have hkeys : (tb.entries.toList.map Prod.fst).Nodup := by
      rw [← Multiset.coe_nodup, ← Multiset.map_coe, Multiset.coe_toList]
      exact h.keys
    have hlength := hcount.length_filter hkeys fun key v => by
      rw [Multiset.mem_toList, (represents_find h).entries_iff]
    rw [List.filter_true, Multiset.length_toList] at hlength
    rw [h.members_eq, hlength]
  obtain ⟨tb', i, found, hrun, -⟩ := shInsert_spec le_rfl h (h.settles le_rfl (by omega) key) v
  exact ⟨(tb', found), map_eq_ok.2 ⟨_, hrun, rfl⟩⟩

def lawful (ty : SimpleHashType κ) (nelements : UInt32) (hn : nelements.toNat * 10 / 9 ≤ 2 ^ 31) :
    (scanTable (ν := ν) ty nelements).Lawful where
  Valid tb := Inv ty tb
  Usable tb iter := InRange tb iter
  Pending tb iter S := Scanning tb iter S
  Last tb iter key := Returned tb iter key
  capacity := 214748365
  create_ok :=
    have ⟨tb, hrun, h⟩ := shCreate_represents ty (.inl hn)
    ⟨tb, hrun, h.inv, find_ext h.inv h.entries_iff⟩
  insert_room := fun key v h hcount hfew => insert_room h hcount hfew key v
  insert_ok := fun h hrun =>
    have hspec := insert_spec h hrun
    ⟨hspec.1, hspec.2.1, hspec.2.2.1⟩
  store_ok := fun {tb key v} h hfound => by
    obtain ⟨p, w, hp, hdata, hassign⟩ := assign_spec (v := v) h hfound
    change Inv ty (assign ty tb key v) ∧ find ty (assign ty tb key v) = _
    rw [hassign]
    exact ⟨h.assign hdata v, find_assign h hp hdata v⟩
  delete_ok := fun {tb key} h => (remove_spec h key).2
  usable_start := fun h => (shStartIterate_spec h).1
  usable_startAt := fun h => shStartIterateAt_inRange h _
  usable_insert := fun h hi hrun =>
    have hsize := (insert_spec h hrun).2.2.2
    ⟨hi.cur.trans_le hsize, hi.stop.trans_le hsize⟩
  usable_store := fun {tb key v iter} _ hi => inRange_congr (size_assign ty tb key v) hi
  usable_delete := fun {tb key iter} h hi => inRange_congr (remove_spec h key).1.size_eq hi
  iterate_ok := fun {tb iter key v iter'} h hi hnext => by
    rcases next_spec h hi with ⟨hnone, -⟩ | ⟨key₁, v₁, iter₁, hrun, hrange, -, hlt, hdata, -⟩
    · cases hnext.symm.trans hnone
    · cases hnext.symm.trans hrun
      exact ⟨(find_iff h).2 ⟨_, Nat.mod_lt _ (Nat.zero_lt_of_lt hi.stop), hdata⟩, hrange, hlt⟩
  room_store := fun {tb key v iter} => left_congr (size_assign ty tb key v)
  room_delete := fun {tb key iter} h => left_congr (remove_spec h key).1.size_eq
  pending_start := fun h => scanning_start h
  pending_none := fun {tb iter S} h hs hnext => by
    rcases next_spec h hs.range with ⟨-, hnone⟩ | ⟨key₁, v₁, iter₁, hrun, -⟩
    · exact hs.eq_empty hnone
    · cases hnext.symm.trans hrun
  pending_some := fun h hs hnext => hs.next h hnext
  pending_store := fun {tb iter S key v} h hs hfound => by
    obtain ⟨p, w, hp, hdata, hassign⟩ := assign_spec (v := v) h hfound
    change Scanning (assign ty tb key v) iter S
    rw [hassign]
    exact hs.assign hdata
  last_store := fun {tb iter key key' v} h hl hfound => by
    obtain ⟨p, w, hp, hdata, hassign⟩ := assign_spec (v := v) h hfound
    change Returned (assign ty tb key' v) iter key
    rw [hassign]
    exact hl.assign hdata
  pending_delete := fun {tb iter S key} h hs hl => hs.remove h hl (remove_spec h key).1

end Table

end Pg.SimpleHash
