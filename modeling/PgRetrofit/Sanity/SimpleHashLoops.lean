import PgRetrofit.Lib.RobinHood
import PgRetrofit.Spec.SimpleHash

/-! What the loops over the buckets do, on a table whose size is a power of two and whose
mask is that of its size. -/

namespace Pg.SimpleHash

open RobinHood Function Nat

variable {κ ν : Type*} {ty : SimpleHashType κ} {tb : SimpleHash κ ν}

/-- The sizes the mask can stand for. -/
structure Shaped (tb : SimpleHash κ ν) : Prop where
  pow : ∃ k, 1 ≤ k ∧ k ≤ 31 ∧ tb.size = 2 ^ k
  mask : tb.sizemask = tb.size - 1

namespace Shaped

variable (hs : Shaped tb)
include hs

theorem one_lt : 1 < tb.size := by
  obtain ⟨k, h1, -, hk⟩ := hs.pow
  rw [hk]
  exact Nat.one_lt_two_pow (by omega)

theorem le : tb.size ≤ 2 ^ 31 := by
  obtain ⟨k, -, h31, hk⟩ := hs.pow
  rw [hk]
  exact Nat.pow_le_pow_right (by decide) h31

variable (i : ℕ)

theorem and_mask : i &&& tb.sizemask = i % tb.size := by
  obtain ⟨k, -, -, hk⟩ := hs.pow
  rw [hs.mask, hk, and_two_pow_sub_one_eq_mod]

theorem mod_mod : i % 2 ^ 32 % tb.size = i % tb.size := by
  obtain ⟨k, -, h31, hk⟩ := hs.pow
  rw [hk]
  exact mod_mod_of_dvd _ (pow_dvd_pow 2 (by omega))

theorem shInitialBucket_lt (hash : UInt32) : tb.shInitialBucket hash < tb.size := by
  rw [shInitialBucket, hs.and_mask]
  exact mod_lt _ (by have := hs.one_lt; omega)

theorem optimal_lt (e : κ × ν) : optimal ty tb e < tb.size := hs.shInitialBucket_lt _

theorem shNext_mod : tb.shNext (i % tb.size) = (i + 1) % tb.size := by
  rw [shNext, hs.and_mask, hs.mod_mod, mod_add_mod]

theorem shPrev_mod : tb.shPrev ((i + 1) % tb.size) = i % tb.size := by
  obtain ⟨k, -, h31, hk⟩ := hs.pow
  have hdvd : 2 ^ 32 = tb.size * 2 ^ (32 - k) := by rw [hk, ← pow_add, Nat.add_sub_cancel' (by omega)]
  rw [shPrev, hs.and_mask, hs.mod_mod, Nat.mod_add_mod, Nat.add_assoc,
    Nat.add_sub_cancel' (by decide), hdvd, add_mul_mod_self_left]

end Shaped

theorem add_one_add (c j : ℕ) : c + 1 + j = c + (j + 1) := by omega

variable (hs : Shaped tb)
include hs

theorem growPlace_first {newdata : ℕ → Option (κ × ν)} {d fuel : ℕ} (h : ℕ) (hfuel : d < fuel)
    (hfull : ∀ j < d, newdata ((h + j) % tb.size) ≠ none) (hfree : newdata ((h + d) % tb.size) = none) :
    growPlace tb newdata fuel (h % tb.size) = .ok ((h + d) % tb.size) := by
  induction d generalizing h fuel with
  | zero =>
    obtain _ | fuel := fuel
    · omega
    rw [growPlace, show newdata (h % tb.size) = none from hfree]
    rfl
  | succ d ih => ?_
  obtain _ | fuel := fuel
  · omega
  obtain ⟨e, he⟩ := Option.ne_none_iff_exists'.1 (hfull 0 (succ_pos d))
  rw [growPlace, show newdata (h % tb.size) = some e from he]
  simp only [hs.shNext_mod]
  rw [ih (h + 1) (by omega) (fun j hj => by rw [add_one_add]; exact hfull (j + 1) (by omega))
    (by rw [add_one_add]; exact hfree), add_one_add]

theorem findEmpty_next {m fuel : ℕ} (c emptydist : ℕ) (hm : 0 < m) (hfuel : m ≤ fuel)
    (hfull : ∀ j, 0 < j → j < m → tb.data ((c + j) % tb.size) ≠ none)
    (hfree : tb.data ((c + m) % tb.size) = none) :
    findEmpty tb fuel (c % tb.size) emptydist = .ok (some ((c + m) % tb.size)) ∨
    findEmpty tb fuel (c % tb.size) emptydist = .ok none ∧ tb.filled := by
  induction m generalizing c emptydist fuel with
  | zero => exact absurd hm (lt_irrefl 0)
  | succ m ih => ?_
  obtain _ | fuel := fuel
  · omega
  rw [findEmpty]
  simp only [hs.shNext_mod]
  rcases Nat.eq_zero_or_pos m with rfl | hm'
  · rw [hfree]
    exact Or.inl rfl
  obtain ⟨e, he⟩ := Option.ne_none_iff_exists'.1 (hfull 1 one_pos (by omega))
  rw [he]
  simp only [Bool.and_eq_true, decide_eq_true_eq]
  split_ifs with hgrow
  · exact Or.inr ⟨rfl, hgrow.2⟩
  · rw [← add_one_add c m]
    exact ih (c + 1) (emptydist + 1) hm' (by omega)
      (fun j h0 hj => by rw [add_one_add]; exact hfull (j + 1) (by omega) (by omega))
      (by rw [add_one_add]; exact hfree)

variable {fuel e : ℕ} {new : SimpleHash κ ν}

theorem shiftForward_spec {c : ℕ} (hc : c < tb.size) (i : ℕ) (hi : i < tb.size) (hfuel : i ≤ fuel)
    (data : ℕ → Option (κ × ν)) :
    ∃ data', shiftForward tb c fuel ((c + i) % tb.size) data = .ok data' ∧
      (∀ j < i, data' ((c + j + 1) % tb.size) = data ((c + j) % tb.size)) ∧
      ∀ j, j = 0 ∨ i < j → j < tb.size → data' ((c + j) % tb.size) = data ((c + j) % tb.size) := by
  induction i generalizing fuel data with
  | zero =>
    refine ⟨data, ?_, fun j hj => absurd hj (not_lt_zero j), fun _ _ _ => rfl⟩
    have hat : (c + 0) % tb.size = c := mod_eq_of_lt hc
    rw [hat]
    cases fuel <;> rw [shiftForward, if_pos rfl]
  | succ i ih => ?_
  obtain _ | fuel := fuel
  · omega
  have hne := slot_ne_start hc (succ_pos i) hi
  obtain ⟨data', hrun, hmoved, hkept⟩ := ih (by omega) (le_of_succ_le_succ hfuel)
    (update data ((c + (i + 1)) % tb.size) (data ((c + i) % tb.size)))
  refine ⟨data', ?_, fun j hj => ?_, fun j hj hjn => ?_⟩
  · rw [shiftForward, if_neg hne]
    rw [← add_assoc, hs.shPrev_mod]
    exact hrun
  · rcases lt_or_ge j i with hlt | hge
    · rw [hmoved j hlt, update_of_ne (slot_ne (by omega) hi)]
    · obtain rfl : j = i := by omega
      rw [add_assoc, hkept (j + 1) (Or.inr (lt_succ_self j)) hi, update_self]
  · rw [hkept j (by omega) hjn, update_of_ne]
    rcases lt_or_ge j (i + 1) with hlt | hge
    · exact slot_ne hlt hi
    · exact (slot_ne (by omega) hjn).symm

theorem shiftForward_inserted {c m : ℕ} (hc : c < tb.size) (hm : m < tb.size) (hfuel : m ≤ fuel)
    (hfull : ∀ j < m, tb.data ((c + j) % tb.size) ≠ none)
    (hfree : tb.data ((c + m) % tb.size) = none) (b : κ × ν) :
    ∃ data, shiftForward tb c fuel ((c + m) % tb.size) tb.data = .ok data ∧
      Inserted tb.size tb.data (update data c (some b)) c m b := by
  obtain ⟨data, hrun, hmoved, hkept⟩ := shiftForward_spec hs hc m hm hfuel tb.data
  refine ⟨data, hrun, hc, hm, hfull, hfree, update_self .., fun j hj => ?_, fun j hmj hj => ?_⟩
  · rw [add_assoc, update_of_ne (slot_ne_start hc (succ_pos j) (by omega))]
    exact hmoved j hj
  · rw [update_of_ne (slot_ne_start hc (by omega) hj), hkept j (Or.inr hmj) hj]

/-- Where the backward shift stops: an empty bucket, or an entry at its optimal one. -/
def Stops (ty : SimpleHashType κ) (tb : SimpleHash κ ν) (data : ℕ → Option (κ × ν)) (i : ℕ) : Prop :=
  ∀ e, data (i % tb.size) = some e → optimal ty tb e = i % tb.size

theorem shiftBack_spec {m : ℕ} (c : ℕ) (hm : m + 1 < tb.size) (hfuel : m < fuel)
    (data : ℕ → Option (κ × ν)) (haway : ∀ j < m, ¬ Stops ty tb data (c + j + 1))
    (hstop : Stops ty tb data (c + m + 1)) :
    ∃ data', shiftBack ty tb fuel (c % tb.size) data = .ok data' ∧
      (∀ j < m, data' ((c + j) % tb.size) = data ((c + j + 1) % tb.size)) ∧
      data' ((c + m) % tb.size) = none ∧
      ∀ j, m < j → j < tb.size → data' ((c + j) % tb.size) = data ((c + j) % tb.size) := by
  induction m generalizing c fuel data with
  | zero =>
    obtain _ | fuel := fuel
    · omega
    refine ⟨update data (c % tb.size) none, ?_, fun j hj => absurd hj (not_lt_zero j),
      update_self .., fun j hj hjn => update_of_ne (slot_ne hj hjn).symm ..⟩
    rw [shiftBack]
    simp only [hs.shNext_mod]
    cases hd : data ((c + 1) % tb.size) with
    | none => rfl
    | some e =>
      simp only
      rw [if_pos (hstop e hd)]
  | succ m ih =>
    obtain _ | fuel := fuel
    · omega
    obtain ⟨e, he, hopt⟩ : ∃ e, data ((c + 1) % tb.size) = some e ∧
        optimal ty tb e ≠ (c + 1) % tb.size := by
      simpa only [Stops, not_forall, exists_prop] using haway 0 (succ_pos m)
    -- the buckets ahead are not touched by the copy into `c`
    have hahead : ∀ j, 0 < j → j < tb.size →
        update data (c % tb.size) (some e) ((c + j) % tb.size) = data ((c + j) % tb.size) :=
      fun j h0 hj => update_of_ne (slot_ne h0 hj).symm ..
    obtain ⟨data', hrun, hmoved, hhole, hkept⟩ := ih (c + 1) (by omega) (lt_of_succ_lt_succ hfuel)
      (update data (c % tb.size) (some e))
      (fun j hj => by
        rw [Stops, add_one_add, add_assoc, hahead _ (by omega) (by omega)]
        exact haway (j + 1) (by omega))
      (by
        rw [Stops, add_one_add, add_assoc, hahead _ (by omega) (by omega)]
        exact hstop)
    refine ⟨data', ?_, fun j hj => ?_, ?_, fun j hj hjn => ?_⟩
    · rw [shiftBack]
      simp only [hs.shNext_mod]
      rw [he]
      simp only
      rw [if_neg hopt]
      exact hrun
    · cases j with
      | zero =>
        -- bucket `c` is the last one round the ring from `c + 1`
        have hlast : (c + 1 + (tb.size - 1)) % tb.size = c % tb.size := by
          rw [show c + 1 + (tb.size - 1) = c + tb.size by omega, add_mod_right]
        have := hkept (tb.size - 1) (by omega) (by omega)
        rw [hlast, update_self] at this
        rw [add_zero, this, he]
      | succ j =>
        rw [← add_one_add, hmoved j (by omega), add_one_add, add_assoc, hahead _ (by omega) (by omega)]
    · rw [← add_one_add]
      exact hhole
    · cases j with
      | zero => omega
      | succ j => rw [← add_one_add, hkept j (by omega) (by omega), add_one_add, hahead _ (by omega) hjn]

omit hs

theorem shPow2_pow {k : ℕ} (h1 : 1 ≤ k) : shPow2 (max (2 ^ k) 2) = 2 ^ k := by
  rw [max_eq_left (by simpa using Nat.pow_le_pow_right (by decide : 0 < 2) h1), shPow2,
    Nat.clog_pow 2 k (by decide)]

theorem shComputeParameters_eq (ty : SimpleHashType κ) (tb : SimpleHash κ ν)
    {newsize k : ℕ} (h31 : k ≤ 31) (hk : shPow2 (max newsize 2) = 2 ^ k) :
    shComputeParameters ty tb newsize =
      .ok { tb with size := 2 ^ k, sizemask := 2 ^ k - 1, growThreshold := 2 ^ k * 9 / 10 } := by
  have hle : 2 ^ k ≤ 2 ^ 31 := Nat.pow_le_pow_right (by decide) h31
  have hne : 2 ^ k ≠ shMaxSize := by
    unfold shMaxSize
    omega
  have hfits : ¬ ty.elementSize * 2 ^ k ≥ maxAllocHugeSize := by
    have := mul_le_mul (le_of_lt_succ (lt_succ_of_lt ty.elementSize_lt)) hle
    unfold maxAllocHugeSize
    omega
  rw [shComputeParameters]
  simp only [hk]
  rw [if_neg hfits, if_neg hne, if_neg hne]

/-- With an empty bucket ahead the search for the start of the copy finds one. -/
theorem growStart_spec {olddata : ℕ → Option (κ × ν)} (hnone : olddata e = none)
    (n i : ℕ) (hi : i ≤ e) (he : e < i + n) :
    growStart ty new olddata n i < i + n ∧
      ∀ x, olddata (growStart ty new olddata n i) = some x →
        optimal ty new x = growStart ty new olddata n i := by
  induction n generalizing i with
  | zero => omega
  | succ n ih => ?_
  rw [growStart]
  cases hd : olddata i with
  | none =>
    simp only
    exact ⟨by omega, fun x hx => by rw [hd] at hx; cases hx⟩
  | some y => ?_
  simp only
  split_ifs with hopt
  · refine ⟨by omega, fun x hx => ?_⟩
    rw [hd] at hx
    exact Option.some.inj hx ▸ hopt
  have hne : i ≠ e := by
    rintro rfl
    rw [hnone] at hd
    cases hd
  obtain ⟨hlt, hx⟩ := ih (i + 1) (by omega) (by omega)
  exact ⟨by omega, hx⟩

/-- A larger table that differs from `tb` in its parameters. -/
structure Doubled (tb new : SimpleHash κ ν) : Prop where
  shaped : Shaped new
  size_eq : new.size = 2 * tb.size

theorem Doubled.optimal_mod (h : Doubled tb new) (hs : Shaped tb) (e : κ × ν) :
    optimal ty new e % tb.size = optimal ty tb e := by
  rw [optimal, optimal, shInitialBucket, shInitialBucket, h.shaped.and_mask, hs.and_mask, h.size_eq,
    mod_mul_left_mod]

theorem growCopy_spec (hs : Shaped tb) (hdbl : Doubled tb new)
    (hord : Ordered tb.size (optimal ty tb) tb.data) {start : ℕ} (hstart : start < tb.size)
    (hfirst : level tb.size (optimal ty tb) tb.data start ≤ 1) (hfuel : tb.size < fuel) (n t : ℕ)
    (hn : t + n = tb.size) (newdata : ℕ → Option (κ × ν))
    (hcopied : Copied tb.size (optimal ty new) tb.data newdata start t) :
    ∃ data, growCopy ty fuel new tb.size tb.data n ((start + t) % tb.size) newdata = .ok data ∧
      Copied tb.size (optimal ty new) tb.data data start tb.size := by
  induction n generalizing t newdata with
  | zero =>
    obtain rfl : t = tb.size := hn
    exact ⟨newdata, rfl, hcopied⟩
  | succ n ih => ?_
  have hnext : (if (start + t) % tb.size + 1 ≥ tb.size then 0 else (start + t) % tb.size + 1) =
      (start + (t + 1)) % tb.size := by
    have hlt : (start + t) % tb.size < tb.size := mod_lt _ (by omega)
    rw [← add_assoc, ← mod_add_mod (start + t)]
    split_ifs with hge
    · rw [show (start + t) % tb.size + 1 = tb.size by omega, mod_self]
    · exact (mod_eq_of_lt (by omega)).symm
  rw [growCopy]
  simp only [hnext]
  cases hd : tb.data ((start + t) % tb.size) with
  | none => exact ih (t + 1) (by omega) newdata (hcopied.skip hd)
  | some x => ?_
  have hhome' : ∀ b, optimal ty new b < 2 * tb.size := fun b => hdbl.size_eq ▸ hdbl.shaped.optimal_lt b
  obtain ⟨d, hdt, hfull, hfree, hnew⟩ :=
    hcopied.copy (fun b => hs.optimal_lt b) hhome' (hdbl.optimal_mod hs)
    hord hstart hfirst (by omega) hd
  rw [← hdbl.size_eq] at hfull hfree hnew
  have hplace := growPlace_first hdbl.shaped (optimal ty new x) (by omega : d < fuel) hfull hfree
  rw [mod_eq_of_lt (hdbl.shaped.optimal_lt x)] at hplace
  simp only [hplace, Except.bind]
  exact ih (t + 1) (by omega) _ hnew

section Search

variable [DecidableEq κ] {key : κ}

def Other (tb : SimpleHash κ ν) (key : κ) (i : ℕ) : Prop :=
  ∃ e, tb.data (i % tb.size) = some e ∧ e.1 ≠ key

theorem search_pass (hs : Shaped tb) {d fuel : ℕ} (h : ℕ) (hpass : ∀ j < d, Other tb key (h + j)) :
    tb.search key (fuel + d) (h % tb.size) = tb.search key fuel ((h + d) % tb.size) := by
  induction d generalizing h with
  | zero => rfl
  | succ d ih =>
    obtain ⟨e, he, hne⟩ := hpass 0 (succ_pos d)
    rw [← add_assoc, search, show tb.data (h % tb.size) = some e from he]
    simp only [hs.shNext_mod]
    rw [if_neg hne,
      ih (h + 1) fun j hj => by rw [add_one_add]; exact hpass (j + 1) (by omega), add_one_add]

/-- the bucket the search for a key starts at -/
abbrev home (ty : SimpleHashType κ) (tb : SimpleHash κ ν) (key : κ) :
    ℕ := tb.shInitialBucket (ty.hashKey key)

/-- How the bucket search of an insertion passes a bucket: it holds another key whose
entry is at least as far from its optimal bucket. -/
def Passed (ty : SimpleHashType κ) (tb : SimpleHash κ ν) (key : κ) (d : ℕ) : Prop :=
  ∀ j < d, Other tb key (tb.shInitialBucket (ty.hashKey key) + j) ∧
    j + 1 ≤ level tb.size (optimal ty tb) tb.data (tb.shInitialBucket (ty.hashKey key) + j)

inductive Placed (ty : SimpleHashType κ) (tb : SimpleHash κ ν) (key : κ) : Place → Prop
  | empty {d : ℕ} (hd : d < tb.size) (hpass : Passed ty tb key d)
      (hfree : tb.data ((tb.shInitialBucket (ty.hashKey key) + d) % tb.size) = none) :
      Placed ty tb key (.empty ((tb.shInitialBucket (ty.hashKey key) + d) % tb.size))
  | found {c : ℕ} {v : ν} (hc : c < tb.size) (hfound : tb.data c = some (key, v)) :
      Placed ty tb key (.found c)
  | shift {d m : ℕ} (hd : d < tb.size) (hm : m < tb.size) (hpass : Passed ty tb key d)
      (hnear : level tb.size (optimal ty tb) tb.data (tb.shInitialBucket (ty.hashKey key) + d) ≤ d)
      (hfull : ∀ j < m, tb.data ((tb.shInitialBucket (ty.hashKey key) + d + j) % tb.size) ≠ none)
      (hfree : tb.data ((tb.shInitialBucket (ty.hashKey key) + d + m) % tb.size) = none) :
      Placed ty tb key (.shift ((tb.shInitialBucket (ty.hashKey key) + d) % tb.size)
        ((tb.shInitialBucket (ty.hashKey key) + d + m) % tb.size))
  | grow (hfilled : tb.filled) : Placed ty tb key .grow

theorem insertLoop_spec (hs : Shaped tb) (he : e < tb.size) (hnone : tb.data e = none) {last : ℕ}
    (hlast : last < tb.size) (hend : tb.data ((home ty tb key + last) % tb.size) = none)
    (left d : ℕ) (hd : d + left = last) (hpass : Passed ty tb key d) (hfuel : left + tb.size < fuel) :
    ∃ pl, insertLoop ty tb key fuel ((home ty tb key + d) % tb.size) d = .ok pl ∧
      Placed ty tb key pl := by
  induction left generalizing d fuel with
  | zero =>
    obtain _ | fuel := fuel
    · omega
    obtain rfl : d = last := hd
    exact ⟨_, by rw [insertLoop, hend], .empty hlast hpass hend⟩
  | succ left ih => ?_
  obtain _ | fuel := fuel
  · omega
  rw [insertLoop]
  cases hdata : tb.data ((home ty tb key + d) % tb.size) with
  | none => exact ⟨_, rfl, .empty (by omega) hpass hdata⟩
  | some entry => ?_
  simp only
  by_cases hkey : entry.1 = key
  · rw [if_pos hkey]
    exact ⟨_, rfl, .found (v := entry.2) (mod_lt _ (by omega)) (by rw [hdata, ← hkey])⟩
  have hlevel : level tb.size (optimal ty tb) tb.data (home ty tb key + d) = _ := level_some hdata
  rw [if_neg hkey]
  by_cases hnear : d > tb.shDistanceFromOptimal (optimal ty tb entry)
      ((home ty tb key + d) % tb.size)
  · -- the entry is closer to its optimal bucket: it has to move
    rw [if_pos hnear]
    obtain ⟨m, hm, hfull, hfree⟩ := first_empty he hnone (home ty tb key + d)
    have hm0 : 0 < m := pos_of_ne_zero fun h0 => by
      rw [h0, add_zero, hdata] at hfree
      cases hfree
    rcases findEmpty_next hs (home ty tb key + d) 0 hm0 (by omega : m ≤ fuel)
      (fun j _ hj => hfull j hj) hfree with hrun | ⟨hrun, hfilled⟩
    · refine ⟨_, by rw [hrun]; rfl, .shift (by omega) hm hpass ?_ hfull hfree⟩
      rw [hlevel]
      exact hnear
    · exact ⟨_, by rw [hrun]; rfl, .grow hfilled⟩
  rw [if_neg hnear]
  simp only [Bool.and_eq_true, decide_eq_true_eq]
  by_cases hgrow : d + 1 > shGrowMaxDib ∧ tb.filled = true
  · rw [if_pos hgrow]
    exact ⟨_, rfl, .grow hgrow.2⟩
  rw [if_neg hgrow, hs.shNext_mod]
  refine ih (d + 1) (by omega) (fun j hj => ?_) (by omega)
  rcases lt_or_ge j d with hlt | hge
  · exact hpass j hlt
  obtain rfl : j = d := by omega
  refine ⟨⟨entry, hdata, hkey⟩, ?_⟩
  rw [hlevel]
  exact Nat.succ_le_succ (Nat.le_of_not_lt hnear)

end Search

end Pg.SimpleHash
