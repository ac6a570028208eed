import PgRetrofit.Spec.Simple8b

/-! Encoding and decoding of codewords: what is encoded is decoded, and the membership
test agrees with the decoder. -/

namespace Pg.Simple8b

open List UInt64 Nat Option

variable {s : ℕ}

theorem bitsPerInt_mono (hs : s < 15) : bitsPerInt s ≤ bitsPerInt (s + 1) := by
  interval_cases s <;> decide

theorem mode_fits (hs : s ≤ 16) :
    bitsPerInt s ≤ 60 ∧ numInts s ≤ 240 ∧ bitsPerInt s * numInts s ≤ 60 := by
  interval_cases s <;> decide

theorem numInts_pos (hs : s ≤ 15) : 0 < numInts s := by
  interval_cases s <;> decide

variable {bits i : ℕ} {vs : List UInt64} {a b d : UInt64}

theorem toNat_bits (hb : bits ≤ 60) : bits.toUInt64.toNat % 64 = bits := by
  have : bits.toUInt64.toNat = bits := toNat_ofNat_of_lt' (lt_of_le_of_lt hb (by decide))
  omega

theorem toNat_shiftLeft_of_lt (hb : bits ≤ 60) (h : a.toNat * 2 ^ bits < 2 ^ 64) :
    (a <<< bits.toUInt64).toNat = a.toNat * 2 ^ bits := by
  rw [UInt64.toNat_shiftLeft, toNat_bits hb, shiftLeft_eq, mod_eq_of_lt h]

theorem toNat_shiftRight_bits (a : UInt64) (hb : bits ≤ 60) :
    (a >>> bits.toUInt64).toNat = a.toNat / 2 ^ bits := by
  rw [UInt64.toNat_shiftRight, toNat_bits hb, shiftRight_eq_div_pow]

theorem toNat_one_shift (hb : bits ≤ 60) : ((1 : UInt64) <<< bits.toUInt64).toNat = 2 ^ bits := by
  have hlt : 2 ^ bits < 2 ^ 64 := Nat.pow_lt_pow_right (by decide) (by omega)
  rw [toNat_shiftLeft_of_lt hb (by simpa using hlt)]
  exact one_mul _

theorem toNat_and_mask (a : UInt64) (hb : bits ≤ 60) : (a &&& mask bits).toNat = a.toNat % 2 ^ bits := by
  have hmask : (mask bits).toNat = 2 ^ bits - 1 := by
    have hone : (1 : UInt64) ≤ (1 : UInt64) <<< bits.toUInt64 := by
      rw [le_iff_toNat_le, toNat_one_shift hb]
      exact Nat.one_le_two_pow
    rw [mask, UInt64.toNat_sub_of_le _ _ hone, toNat_one_shift hb]
    rfl
  rw [UInt64.toNat_and, hmask, and_two_pow_sub_one_eq_mod]

theorem toNat_or_low {bits q : ℕ} (ha : a.toNat = 2 ^ bits * q) (hd : d.toNat < 2 ^ bits) :
    (a ||| d).toNat = a.toNat + d.toNat := by
  rw [UInt64.toNat_or, ha, two_pow_add_eq_or_of_lt hd]

theorem toNat_delta (h : a < b) : (b - a - 1).toNat = b.toNat - a.toNat - 1 := by
  have hlt := lt_iff_toNat_lt.1 h
  have hsub : (b - a).toNat = b.toNat - a.toNat :=
    UInt64.toNat_sub_of_le _ _ (UInt64.le_iff_toNat_le.2 hlt.le)
  have hone : (1 : UInt64) ≤ b - a := by
    rw [le_iff_toNat_le, hsub]
    exact Nat.sub_pos_of_lt hlt
  rw [UInt64.toNat_sub_of_le _ _ hone, hsub]
  rfl

theorem add_delta (h : a < b) (hd : d.toNat = b.toNat - a.toNat - 1) : a + (1 + d) = b := by
  have hlt := lt_iff_toNat_lt.1 h
  have hb := b.toNat_lt
  refine UInt64.toNat_inj.1 ?_
  have hone : (1 : UInt64).toNat = 1 := rfl
  rw [UInt64.toNat_add, UInt64.toNat_add, hd]
  omega

/-- the differences that are encoded, from the value before the first on -/
def deltas : UInt64 → List UInt64 → List ℕ
  | _, [] => []
  | p, v :: vs => (v.toNat - p.toNat - 1) :: deltas v vs

theorem length_deltas (p : UInt64) (vs : List UInt64) : (deltas p vs).length = vs.length := by
  induction vs generalizing p with
  | nil => rfl
  | cons v vs ih => exact congrArg (· + 1) (ih v)

theorem deltas_take (p : UInt64) (vs : List UInt64) (n : ℕ) :
    deltas p (vs.take n) = (deltas p vs).take n := by
  induction vs generalizing p n with
  | nil => rw [take_nil, deltas, take_nil]
  | cons v vs ih =>
    cases n with
    | zero => rfl
    | succ n => rw [take_succ_cons, deltas, deltas, take_succ_cons, ih]

theorem deltas_succ {p : UInt64} (ha : vs[i]? = some a) (hb : vs[i + 1]? = some b) :
    (deltas p vs)[i + 1]? = some (b.toNat - a.toNat - 1) := by
  induction i generalizing p vs with
  | zero =>
    match vs, ha, hb with
    | v :: w :: vs, ha, hb =>
      obtain rfl := some.inj ha
      obtain rfl := some.inj hb
      rfl
  | succ i ih =>
    match vs, ha, hb with
    | v :: vs, ha, hb => exact ih ha hb

theorem lt_of_getElem (hs : vs.Pairwise (· < ·)) (ha : vs[i]? = some a)
    (hb : vs[i + 1]? = some b) : a < b := by
  obtain ⟨hi, rfl⟩ := List.getElem?_eq_some_iff.1 ha
  obtain ⟨hi', rfl⟩ := List.getElem?_eq_some_iff.1 hb
  exact pairwise_iff_getElem.1 hs i (i + 1) hi hi' (lt_succ_self i)

theorem decodeLoop_deltas (hb : bits ≤ 60) (vs : List UInt64) (p : UInt64)
    (hs : (p :: vs).Pairwise (· < ·)) (hd : ∀ d ∈ deltas p vs, d < 2 ^ bits) (codeword : UInt64) (t : ℕ)
    (hcw : codeword.toNat = ofDigits (2 ^ bits) (deltas p vs) + 2 ^ (bits * vs.length) * t) :
    decodeLoop bits vs.length codeword p = vs := by
  induction vs generalizing p codeword with
  | nil => rfl
  | cons v vs ih => ?_
  obtain ⟨hp, hs'⟩ := pairwise_cons.1 hs
  have hv : v.toNat - p.toNat - 1 < 2 ^ bits := hd _ (mem_cons_self ..)
  have hcw' : codeword.toNat = (v.toNat - p.toNat - 1) +
      2 ^ bits * (ofDigits (2 ^ bits) (deltas v vs) + 2 ^ (bits * vs.length) * t) := by
    rw [hcw, deltas, ofDigits_cons, length_cons, mul_succ]
    ring
  have hlow : (codeword &&& mask bits).toNat = v.toNat - p.toNat - 1 := by
    rw [toNat_and_mask _ hb, hcw', add_mul_mod_self_left, mod_eq_of_lt hv]
  have hhigh : (codeword >>> bits.toUInt64).toNat =
      ofDigits (2 ^ bits) (deltas v vs) + 2 ^ (bits * vs.length) * t := by
    rw [toNat_shiftRight_bits _ hb, hcw', Nat.add_mul_div_left _ _ (Nat.two_pow_pos bits),
      Nat.div_eq_of_lt hv, zero_add]
  rw [length_cons, decodeLoop]
  simp only [add_delta (hp v (mem_cons_self ..)) hlow]
  rw [ih v hs' (fun d hmem => hd d (mem_cons_of_mem _ hmem)) _ hhigh]

theorem drop_eq_cons {α : Type*} {l : List α} {a : α} (h : l[i]? = some a) :
    l.drop i = a :: l.drop (i + 1) := by
  obtain ⟨hi, rfl⟩ := List.getElem?_eq_some_iff.1 h
  exact drop_eq_getElem_cons hi

variable {ds : List ℕ}

theorem ofDigits_drop_lt {bits n : ℕ} (hb : 0 < bits) (hd : ∀ d ∈ ds, d < 2 ^ bits)
    (hlen : ds.length = n) : ofDigits (2 ^ bits) (ds.drop i) < 2 ^ (bits * (n - i)) := by
  rw [pow_mul, ← hlen, ← length_drop]
  exact Nat.ofDigits_lt_base_pow_length (Nat.one_lt_two_pow hb.ne') fun d hmem =>
    hd d (mem_of_mem_drop hmem)

theorem ofDigits_no_bits (hd : ∀ d ∈ ds, d < 2 ^ 0) : ofDigits (2 ^ 0) ds = 0 := by
  induction ds with
  | nil => rfl
  | cons d ds ih =>
    rw [ofDigits_cons, ih fun e he => hd e (mem_cons_of_mem _ he),
      lt_one_iff.1 (hd d (mem_cons_self ..))]
    rfl

theorem packed_lt {bits n : ℕ} (hfit : bits * n ≤ 60) (hlen : ds.length = n)
    (hd : ∀ d ∈ ds, d < 2 ^ bits) :
    ofDigits (2 ^ bits) ds < 2 ^ 60 := by
  rcases Nat.eq_zero_or_pos bits with rfl | hpos
  · rw [ofDigits_no_bits hd]
    decide
  · exact (ofDigits_drop_lt (i := 0) hpos hd hlen).trans_le (Nat.pow_le_pow_right (by decide) hfit)

section Pack

variable {ints : List UInt64} {base : UInt64} (hs : (base :: ints).Pairwise (· < ·))
include hs

/-- The packing loop from index `i` down, with the deltas above `i` already in. -/
theorem packLoop_spec {bits n : ℕ} (hb : 0 < bits) (hfit : bits * n ≤ 60) (hn : n ≤ ints.length)
    (hd : ∀ d ∈ (deltas base ints).take n, d < 2 ^ bits) (i : ℕ) (hi : i < n) (codeword : UInt64)
    (hcw : codeword.toNat = 2 ^ bits * ofDigits (2 ^ bits) (((deltas base ints).take n).drop (i + 1))) :
    ∃ cw, packLoop ints bits i codeword = .ok cw ∧
      cw.toNat = 2 ^ bits * ofDigits (2 ^ bits) (((deltas base ints).take n).drop 1) := by
  have hlen : ((deltas base ints).take n).length = n := by
    rw [length_take, length_deltas, min_eq_left hn]
  have hb60 : bits ≤ 60 := (Nat.le_mul_of_pos_right bits (by omega)).trans hfit
  induction i generalizing codeword with
  | zero => exact ⟨codeword, rfl, hcw⟩
  | succ i ih => ?_
  have hprev : ints[i]? = some _ := getElem?_eq_getElem (by omega)
  have hnext : ints[i + 1]? = some _ := getElem?_eq_getElem (by omega)
  rw [packLoop, hprev, hnext]
  generalize ints[i] = prev at hprev ⊢
  generalize ints[i + 1] = next at hnext ⊢
  have hlt := lt_of_getElem (pairwise_cons.1 hs).2 hprev hnext
  have hdelta := toNat_delta hlt
  have hds : ((deltas base ints).take n)[i + 1]? = some (next.toNat - prev.toNat - 1) := by
    rw [getElem?_take_of_lt hi]
    exact deltas_succ hprev hnext
  have hsmall : (next - prev - 1).toNat < 2 ^ bits := by
    rw [hdelta]
    exact hd _ (mem_of_getElem? hds)
  -- with the next delta in the low bits, the codeword is the number of one more digit
  have hor : (codeword ||| (next - prev - 1)).toNat =
      ofDigits (2 ^ bits) (((deltas base ints).take n).drop (i + 1)) := by
    rw [toNat_or_low hcw hsmall, hcw, drop_eq_cons hds, ofDigits_cons, hdelta]
    ring
  have hbound := ofDigits_drop_lt (i := i + 1) hb hd hlen
  have hshift : ((codeword ||| (next - prev - 1)) <<< bits.toUInt64).toNat =
      2 ^ bits * ofDigits (2 ^ bits) (((deltas base ints).take n).drop (i + 1)) := by
    rw [toNat_shiftLeft_of_lt hb60, hor, mul_comm]
    rw [hor]
    calc _ < 2 ^ (bits * (n - (i + 1))) * 2 ^ bits :=
          Nat.mul_lt_mul_of_pos_right hbound (Nat.two_pow_pos bits)
      _ = 2 ^ (bits * (n - i)) := by rw [← pow_add, ← mul_succ]; congr 2; omega
      _ ≤ 2 ^ 60 :=
        Nat.pow_le_pow_right (by decide) ((Nat.mul_le_mul_left bits (Nat.sub_le n i)).trans hfit)
      _ < 2 ^ 64 := by decide
  exact ih (by omega) _ hshift

/-- The selected mode is wide enough for the deltas it takes; no mode takes a first delta of
`2 ^ 60` or more. -/
theorem selectMode_spec (hlen : 240 ≤ ints.length) (fuel selector i : ℕ) (diff lastVal : UInt64)
    (hsel : selector ≤ 15) (hi : i < numInts selector) (hlast : ints[i]? = some lastVal)
    (hdiff : (deltas base ints)[i]? = some diff.toNat)
    (hacc : ∀ j < i, ∀ d, (deltas base ints)[j]? = some d → d < 2 ^ bitsPerInt selector)
    (hfuel : (16 - selector) + (240 - i) ≤ fuel) :
    ∃ s ≤ 16, selectMode ints fuel selector i diff lastVal = .ok s ∧
      (∀ j < numInts s, ∀ d, (deltas base ints)[j]? = some d → d < 2 ^ bitsPerInt s) ∧
      (s = 16 → ∀ d ∈ (deltas base ints)[0]?, 2 ^ 60 ≤ d) := by
  induction fuel generalizing selector i diff lastVal with
  | zero => omega
  | succ fuel ih => ?_
  obtain ⟨hb60, hn240, -⟩ := mode_fits (hsel.trans (by decide))
  have hge : diff ≥ (1 : UInt64) <<< (bitsPerInt selector).toUInt64 ↔
      2 ^ bitsPerInt selector ≤ diff.toNat := by
    rw [ge_iff_le, le_iff_toNat_le, toNat_one_shift hb60]
  rw [selectMode]
  by_cases hlarge : diff ≥ (1 : UInt64) <<< (bitsPerInt selector).toUInt64
  · -- step up; the accepted deltas fit into the wider mode
    rw [if_pos hlarge]
    have hacc' : selector < 15 →
        ∀ j < i, ∀ d, (deltas base ints)[j]? = some d → d < 2 ^ bitsPerInt (selector + 1) :=
      fun hlt j hj d hd =>
        (hacc j hj d hd).trans_le (Nat.pow_le_pow_right (by decide) (bitsPerInt_mono hlt))
    rcases lt_or_ge selector 15 with hlt | hge15
    · split_ifs with hfull
      · exact ⟨selector + 1, by omega, rfl, fun j hj d hd => hacc' hlt j (by omega) d hd, by omega⟩
      · exact ih (selector + 1) i diff lastVal hlt (by omega) hlast hdiff (hacc' hlt) (by omega)
    obtain rfl : selector = 15 := by omega
    obtain rfl : i = 0 := lt_one_iff.1 hi
    refine ⟨16, le_rfl, rfl, fun j hj => absurd hj (not_lt_zero j), fun _ d hd => ?_⟩
    rw [hdiff] at hd
    exact some.inj hd ▸ hge.1 hlarge
  have hacc' : ∀ j < i + 1, ∀ d, (deltas base ints)[j]? = some d → d < 2 ^ bitsPerInt selector := by
    intro j hj d hd
    rcases lt_or_ge j i with hlt | hge'
    · exact hacc j hlt d hd
    obtain rfl : j = i := by omega
    rw [hdiff] at hd
    obtain rfl := some.inj hd
    exact Nat.lt_of_not_le fun hle => hlarge (hge.2 hle)
  split_ifs with hfull
  · exact ⟨selector, by omega, rfl, fun j hj d hd => hacc' j (by omega) d hd, by omega⟩
  have hnext : ints[i + 1]? = some _ := getElem?_eq_getElem (by omega)
  rw [hnext]
  generalize ints[i + 1] = next at hnext ⊢
  refine ih selector (i + 1) _ next hsel (by omega) hnext ?_ hacc' (by omega)
  rw [toNat_delta (lt_of_getElem (pairwise_cons.1 hs).2 hlast hnext)]
  exact deltas_succ hlast hnext

theorem simple8bDecode_packed (hs16 : s ≤ 15) (hlen : 240 ≤ ints.length)
    (hd : ∀ d ∈ (deltas base ints).take (numInts s), d < 2 ^ bitsPerInt s) {codeword : UInt64}
    (hcw : codeword.toNat = ofDigits (2 ^ bitsPerInt s)
      ((deltas base ints).take (numInts s)) + s * 2 ^ 60) :
    simple8bDecode codeword base = ints.take (numInts s) := by
  obtain ⟨hb60, hn240, hfit⟩ := mode_fits (hs16.trans (by decide))
  have htake : (ints.take (numInts s)).length = numInts s := by rw [length_take, min_eq_left (by omega)]
  have hlow : ofDigits (2 ^ bitsPerInt s) ((deltas base ints).take (numInts s)) < 2 ^ 60 :=
    packed_lt hfit (by rw [length_take, length_deltas, min_eq_left (by omega)]) hd
  have hsel : (codeword >>> 60).toNat = s := by
    rw [show (60 : UInt64) = (60 : ℕ).toUInt64 from rfl, toNat_shiftRight_bits _ le_rfl, hcw,
      Nat.add_mul_div_right _ _ (Nat.two_pow_pos 60), Nat.div_eq_of_lt hlow, zero_add]
  have hne : codeword ≠ emptyCodeword := by
    rintro rfl
    have hempty : emptyCodeword.toNat = 2 ^ 60 - 1 := rfl
    rcases Nat.eq_zero_or_pos s with rfl | hpos
    · rw [show bitsPerInt 0 = 0 from rfl] at hd hcw
      rw [ofDigits_no_bits hd] at hcw
      omega
    · omega
  have hloop :=
    decodeLoop_deltas hb60 (ints.take (numInts s)) base (hs.sublist ((take_sublist ..).cons_cons base))
    (by rwa [deltas_take]) codeword (2 ^ (60 - bitsPerInt s * numInts s) * s) (by
      rw [deltas_take, htake, hcw, ← mul_assoc, ← pow_add, Nat.add_sub_cancel' hfit, mul_comm s])
  rw [htake] at hloop
  rw [simple8bDecode]
  simp only [hsel]
  rw [if_neg hne, hloop]

theorem simple8bEncode_decode (hlen : 240 ≤ ints.length) :
    ∃ codeword k, simple8bEncode ints base = .ok (codeword, k) ∧ k ≤ 240 ∧
      simple8bDecode codeword base = ints.take k ∧
      (k = 0 → codeword = emptyCodeword ∧ ∀ first ∈ ints.head?, 2 ^ 60 ≤ (first - base - 1).toNat) := by
  obtain ⟨first, rest, rfl⟩ : ∃ first rest, ints = first :: rest :=
    exists_cons_of_length_pos (by omega : 0 < ints.length)
  have hfirst : base < first := (pairwise_cons.1 hs).1 first (mem_cons_self ..)
  have hdelta := toNat_delta hfirst
  obtain ⟨s, hs16, hsel, hwide, hlarge⟩ :=
    selectMode_spec hs hlen 257 0 0 (first - base - 1) first (by decide) (by decide) rfl
    (by rw [hdelta]; rfl) (fun j hj => absurd hj (not_lt_zero j)) (by decide)
  rw [simple8bEncode]
  simp only [getElem?_cons_zero, hsel, Except.bind]
  rcases lt_or_ge s 16 with hlt | hge
  swap
  · obtain rfl : s = 16 := by omega
    refine ⟨emptyCodeword, 0, rfl, by decide, rfl, fun _ => ⟨rfl, fun v hv => ?_⟩⟩
    obtain rfl := some.inj hv
    exact hlarge rfl _ (hdelta ▸ rfl)
  obtain ⟨hb60, hn240, hfit⟩ := mode_fits hs16
  have hnpos := numInts_pos (le_of_lt_succ hlt)
  have hd : ∀ d ∈ (deltas base (first :: rest)).take (numInts s), d < 2 ^ bitsPerInt s := by
    intro d hmem
    obtain ⟨j, hj, rfl⟩ := getElem_of_mem hmem
    rw [length_take] at hj
    refine hwide j (lt_of_lt_of_le hj (min_le_left ..)) _ ?_
    rw [getElem_take, getElem?_eq_getElem]
  have hsel60 : (s.toUInt64 <<< 60).toNat = s * 2 ^ 60 := by
    have hs64 : s.toUInt64.toNat = s := toNat_ofNat_of_lt' (lt_of_le_of_lt hs16 (by decide))
    rw [show (60 : UInt64) = (60 : ℕ).toUInt64 from rfl, toNat_shiftLeft_of_lt le_rfl (by omega), hs64]
  rw [if_neg hnpos.ne']
  split_ifs with hbits
  · obtain ⟨cw, hpack, hcw⟩ := packLoop_spec hs hbits hfit (by omega) hd (numInts s - 1) (by omega) 0 (by
      rw [drop_eq_nil_of_le (by rw [length_take]; omega)]
      rfl)
    refine ⟨_, numInts s,
      by
        rw [hpack]; rfl, hn240, simple8bDecode_packed hs (by omega) hlen hd ?_,
          fun h => absurd h hnpos.ne'⟩
    have hhead : ((deltas base (first :: rest)).take (numInts s))[0]? =
        some (first - base - 1).toNat := by
      rw [getElem?_take_of_lt hnpos, hdelta]
      rfl
    have hfull : (cw ||| (first - base - 1)).toNat =
        ofDigits (2 ^ bitsPerInt s) ((deltas base (first :: rest)).take (numInts s)) := by
      have hcons := drop_eq_cons hhead
      rw [drop_zero] at hcons
      rw [toNat_or_low hcw (hd _ (mem_of_getElem? hhead)), hcw]
      conv_rhs => rw [hcons]
      exact add_comm ..
    have hlow := packed_lt hfit (by rw [length_take, length_deltas, min_eq_left (by omega)]) hd
    rw [UInt64.or_comm, toNat_or_low (hsel60.trans (mul_comm ..)) (by rw [hfull]; exact hlow),
      hfull, hsel60, add_comm]
  · have h0 : bitsPerInt s = 0 := by omega
    refine ⟨_, numInts s, rfl, hn240, simple8bDecode_packed hs (by omega) hlen hd ?_,
      fun h => absurd h hnpos.ne'⟩
    rw [h0] at hd ⊢
    rw [ofDigits_no_bits hd, hsel60, zero_add]

end Pack

theorem containsLoop_eq (n : ℕ) (codeword key curr : UInt64)
    (hs : (decodeLoop bits n codeword curr).Pairwise (· < ·)) :
    containsLoop bits key n codeword curr = decide (key ∈ decodeLoop bits n codeword curr) := by
  induction n generalizing codeword curr with
  | zero => rfl
  | succ n ih => ?_
  rw [decodeLoop] at hs ⊢
  rw [containsLoop]
  generalize curr + (1 + (codeword &&& mask bits)) = v at hs ⊢
  obtain ⟨hv, hs'⟩ := pairwise_cons.1 hs
  split_ifs with hge
  · -- the rest is beyond the key
    have hrest : key ∉ decodeLoop bits n (codeword >>> bits.toUInt64) v := fun hmem =>
      absurd (hv key hmem) (UInt64.not_lt.2 hge)
    simp [hrest, eq_comm]
  · rw [ih _ _ hs']
    have hne : key ≠ v := fun h => hge (h ▸ UInt64.le_refl _)
    simp [hne]

theorem mem_decodeLoop_no_bits (n : ℕ) (codeword key base : UInt64) :
    key ∈ decodeLoop 0 n codeword base ↔ ∃ j < n, key = base + (j + 1).toUInt64 := by
  induction n generalizing codeword base with
  | zero => simp [decodeLoop]
  | succ n ih => ?_
  have hzero : codeword &&& mask 0 = 0 := UInt64.and_zero
  have hstep : ∀ j : ℕ, base + (1 + 0) + (j + 1).toUInt64 = base + (j + 1 + 1).toUInt64 := by
    intro j
    rw [UInt64.add_assoc, show (j + 1 + 1).toUInt64 = (j + 1).toUInt64 + 1 from UInt64.ofNat_add ..,
      UInt64.add_comm 1 0, UInt64.zero_add, UInt64.add_comm 1]
  rw [decodeLoop]
  simp only [hzero, mem_cons, ih]
  constructor
  · rintro (rfl | ⟨j, hj, rfl⟩)
    · exact ⟨0, succ_pos n, rfl⟩
    · exact ⟨j + 1, succ_lt_succ hj, hstep j⟩
  rintro ⟨j, hj, rfl⟩
  cases j with
  | zero => exact Or.inl rfl
  | succ j => exact Or.inr ⟨j, lt_of_succ_lt_succ hj, (hstep j).symm⟩

theorem sub_le_iff {base key : UInt64} (hkey : base < key) {n : ℕ} (hn : n ≤ 240) :
    key - base ≤ n.toUInt64 ↔ ∃ j < n, key = base + (j + 1).toUInt64 := by
  have hlt := lt_iff_toNat_lt.1 hkey
  have hsmall : ∀ m, m ≤ 240 → m.toUInt64.toNat = m := fun m hm =>
    toNat_ofNat_of_lt' (lt_of_le_of_lt hm (by decide))
  have hsub : (key - base).toNat = key.toNat - base.toNat :=
    UInt64.toNat_sub_of_le _ _ (UInt64.le_iff_toNat_le.2 hlt.le)
  rw [le_iff_toNat_le, hsub, hsmall n hn]
  constructor
  · intro hle
    refine ⟨key.toNat - base.toNat - 1, by omega, UInt64.toNat_inj.1 ?_⟩
    have := key.toNat_lt
    rw [UInt64.toNat_add, hsmall _ (by omega)]
    omega
  · rintro ⟨j, hj, rfl⟩
    rw [UInt64.toNat_add, hsmall _ (by omega)]
    omega

theorem simple8bContains_eq {codeword key base : UInt64}
    (hs : (simple8bDecode codeword base).Pairwise (· < ·)) (hkey : base < key) :
    simple8bContains codeword key base = decide (key ∈ simple8bDecode codeword base) := by
  rw [simple8bDecode] at hs ⊢
  rw [simple8bContains]
  by_cases he : codeword = emptyCodeword
  · rw [if_pos he, if_pos he]
    rfl
  rw [if_neg he] at hs
  split_ifs with hbits
  · have hsel : (codeword >>> 60).toNat ≤ 16 := by
      have := codeword.toNat_lt
      rw [show (60 : UInt64) = (60 : ℕ).toUInt64 from rfl, toNat_shiftRight_bits _ le_rfl]
      omega
    rw [hbits, decide_eq_decide, mem_decodeLoop_no_bits]
    exact sub_le_iff hkey (mode_fits hsel).2.1
  · exact containsLoop_eq _ _ _ _ hs

/-- A codeword stands for the first `n` values of the run; it is the empty one exactly if `n = 0`,
which takes a first delta of `2 ^ 60` or more. -/
theorem simple8bEncode_first {ints : List UInt64} {base : UInt64} (hs : (base :: ints).Pairwise (· < ·))
    (hlen : simple8bMaxValuesPerCodeword ≤ ints.length) :
    ∃ codeword n, simple8bEncode ints base = .ok (codeword, n) ∧ n ≤ ints.length ∧
      simple8bDecode codeword base = ints.take n ∧
      (∀ key, base < key → (simple8bContains codeword key base = true ↔ key ∈ ints.take n)) ∧
      (n = 0 → ∀ first ∈ ints.head?, 2 ^ 60 ≤ (first - base - 1).toNat) ∧
      (n = 0 ↔ codeword = emptyCodeword) := by
  obtain ⟨codeword, n, henc, hn, hdec, hzero⟩ := simple8bEncode_decode hs hlen
  have hn := hn.trans hlen
  refine ⟨codeword, n, henc, hn, hdec, fun key hkey => ?_, fun h => (hzero h).2,
    fun h => (hzero h).1, ?_⟩
  · have hrun : (simple8bDecode codeword base).Pairwise (· < ·) :=
      hdec ▸ (pairwise_cons.1 hs).2.sublist (take_sublist ..)
    rw [simple8bContains_eq hrun hkey, hdec, decide_eq_true_eq]
  · rintro rfl
    have hnil : (ints.take n).length = 0 := congrArg length hdec.symm
    rwa [length_take, min_eq_left hn] at hnil

def consecutive : List UInt64 := (range' 1 240).map Nat.toUInt64

theorem simple8bEncode_first_consecutive :
    ∃ codeword n, simple8bEncode consecutive 0 = .ok (codeword, n) ∧
      simple8bDecode codeword 0 = consecutive.take n := by
  obtain ⟨codeword, n, henc, -, hdec, -⟩ :=
    @simple8bEncode_first consecutive 0 (by decide +kernel) le_rfl
  exact ⟨codeword, n, henc, hdec⟩

end Pg.Simple8b
