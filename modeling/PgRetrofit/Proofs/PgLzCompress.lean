import PgRetrofit.Proofs.PgLzDecompress
import PgRetrofit.Sanity.PgLzMatch
import PgRetrofit.Sanity.PgLzOutput

/-! The compressor: what it returns is decompressed to its input, and it stores nothing above
four bytes more than the input has, whether it gives up or not. -/

namespace Pg.Pglz

open Lz77 List Result Nat Int

variable {source old : List UInt8} {p : Params} {c : Comp} {items : List (Item UInt8)}

/-- The items that have been written are the input so far. -/
structure CompInv (source old : List UInt8) (mask : ℕ) (items : List (Item UInt8))
    (c : Comp) : Prop where
  hist : HistInv (keyAt source mask) (mask + 1) c.dp c.hist
  out : Written old items c.out
  parses : Parses source 0 items c.dp
  encodable : ∀ item ∈ items, Encodable item

theorem encodable_snoc {item : Item UInt8} (hitems : ∀ item ∈ items, Encodable item)
    (hitem : Encodable item) :
    ∀ i ∈ items ++ [item], Encodable i := by
  intro i hi
  rcases mem_append.1 hi with h | h
  · exact hitems i h
  · exact mem_singleton.1 h ▸ hitem

theorem compressRound_spec (hc : CompInv source old p.mask items c) (hlt : c.dp < source.length)
    (hroom : c.out.bp + 3 < old.length) :
    ∃ c' items', compressRound source p c = .ok c' ∧ CompInv source old p.mask items' c' ∧ c.dp < c'.dp ∧
      c'.out.bp ≤ c.out.bp + 4 := by
  rw [compressRound]
  rcases findMatch_spec hc.hist hlt p.goodMatch p.goodDrop
    with hnone | ⟨len, off, hsome, hmin, hmax, hoff, hoff', hrep⟩
  · obtain ⟨b, hb, hbyte⟩ := byteAt_ok hlt
    obtain ⟨o', ho', hw, hbp⟩ := outLiteral_spec hc.out (by omega) b
    obtain ⟨h', hh', hinv⟩ := histAdd_spec hc.hist hlt
    rw [hnone, ok_bind]
    rw [hbyte, ok_bind, ho', hh']
    exact ⟨_, _, rfl, ⟨hinv, hw, hc.parses.snoc hb, encodable_snoc hc.encodable trivial⟩, lt_succ_self _,
      hbp.trans (by omega)⟩
  obtain ⟨o', ho', hw, hbp⟩ := outTag_spec hc.out hroom len off
  obtain ⟨h', hh', hinv⟩ := histAddAll_spec hc.hist hrep.le_length
  have hfits : (Item.copy off.toNat len : Item UInt8).Fits source c.dp := ⟨by omega, hrep⟩
  have henc : Encodable (.copy off.toNat len) := ⟨by omega, hmin, hmax⟩
  rw [hsome, ok_bind]
  dsimp only
  rw [ho', hh']
  exact ⟨_, _, rfl, ⟨hinv, hw, hc.parses.snoc hfits, encodable_snoc hc.encodable henc⟩,
    Nat.lt_add_of_pos_right (by omega), hbp⟩

/-- The loop ends, and each of its rounds starts below the maximal size of the result. -/
theorem compressLoop_spec {fuel : ℕ} (hmax : p.resultMax ≤ source.length)
    (hold : source.length + 4 ≤ old.length) (hc : CompInv source old p.mask items c)
    (hbp : c.out.bp ≤ source.length + 3) (hfuel : source.length < c.dp + fuel) :
    ∃ c' done items', compressLoop source p fuel c = .ok (c', done) ∧
      CompInv source old p.mask items' c' ∧
      c'.out.bp ≤ source.length + 3 ∧ (done = true → c'.dp = source.length) := by
  induction fuel generalizing c items with
  | zero => exact absurd (hc.parses.le_length (zero_le _)) (not_le.2 hfuel)
  | succ fuel ih => ?_
  rw [compressLoop]
  split_ifs with hlt hfull hgiveUp
  · exact ⟨c, false, items, rfl, hc, hbp, fun h => absurd h Bool.false_ne_true⟩
  · exact ⟨c, false, items, rfl, hc, hbp, fun h => absurd h Bool.false_ne_true⟩
  · obtain ⟨c1, items1, hround, hc1, hdp, hbp1⟩ := compressRound_spec hc hlt (by omega)
    rw [hround]
    exact ih hc1 (by omega) (by omega)
  · exact ⟨c, true, items, rfl, hc, hbp,
      fun _ => Nat.le_antisymm (hc.parses.le_length (Nat.zero_le _)) (Nat.le_of_not_lt hlt)⟩

theorem clamp_mem {lo hi : ℤ} (h : lo ≤ hi) (x : ℤ) : lo ≤ clamp lo hi x ∧ clamp lo hi x ≤ hi := by
  rw [clamp]
  split_ifs <;> omega

/-- "This had better be <= slen". -/
theorem resultMax_le {slen needRate : ℤ} (hslen : 0 ≤ slen) (hrate : 0 ≤ needRate ∧ needRate ≤ 99) :
    resultMax slen needRate ≤ slen := by
  rw [resultMax]
  split_ifs with hbig
  · rw [tdiv_eq_ediv_of_nonneg hslen]
    have hmul : slen / 100 * (100 - needRate) ≤ slen / 100 * 100 :=
      Int.mul_le_mul_of_nonneg_left (by omega) (Int.ediv_nonneg hslen (by decide))
    omega
  · have hmul : slen * (100 - needRate) ≤ slen * 100 := Int.mul_le_mul_of_nonneg_left (by omega) hslen
    rw [Int.tdiv_eq_ediv_of_nonneg (Int.mul_nonneg hslen (by omega))]
    omega

theorem params_resultMax (strategy : Strategy) (slen : ℕ) : (params strategy slen).resultMax ≤ slen :=
  resultMax_le (natCast_nonneg _) (clamp_mem (by decide) _)

theorem params_mask (strategy : Strategy) (slen : ℕ) :
    (params strategy slen).mask + 1 = hashsz slen := by
  show hashsz slen - 1 + 1 = _
  rw [hashsz]
  split_ifs <;> rfl

theorem compInv_init (old : Hist) (source dest : List UInt8) (strategy : Strategy) :
    CompInv source dest (params strategy source.length).mask [] ⟨initHist old source.length,
      ⟨dest, 0, none, 0, 0⟩, 0, false⟩ where
  hist := (params_mask strategy source.length).symm ▸ histInv_init old _
  out := .start
  parses := rfl
  encodable := fun _ h => absurd h not_mem_nil

theorem drop_eq_of_frame {dest dest' : List UInt8} {n : ℕ} (h : ∀ i, n ≤ i → dest'[i]? = dest[i]?) :
    dest'.drop n = dest.drop n := by
  apply ext_getElem?
  intro i
  rw [getElem?_drop, getElem?_drop]
  exact h _ (le_add_right n i)

/-- The last control byte, which begins at nothing if nothing has been written. -/
theorem compress_finish (hc : CompInv source old p.mask items c) (hdp : c.dp = source.length)
    (hbp : c.out.bp ≤ source.length + 3) (hold : source.length + 4 ≤ old.length) :
    ∃ dest', storeCtrl c.out = .ok dest' ∧ dest'.length = old.length ∧
      (∀ i, source.length + 4 ≤ i → dest'[i]? = old[i]?) ∧
      (0 < source.length →
        ∃ gs, dest'.take c.out.bp = encode gs ∧ gs.flatten = items ∧ WellGrouped gs) := by
  obtain ⟨hist, out, parses, -⟩ := hc
  cases hout : c.out with
  | mk dest bp ctrlp ctrlb ctrl =>
    rw [hout] at out hbp
    cases out with
    | start => exact ⟨old, rfl, rfl, fun _ _ => rfl, fun h => absurd (hdp ▸ parses) (ne_of_gt h)⟩
    | @group gs g _ hw hg => ?_
    obtain ⟨dest', hstore, ha, hlen⟩ := storeCtrl_spec hw (by omega)
    have hlen' : (encode (gs ++ [g])).length = bp := hlen
    refine ⟨dest', hstore, ha.length, fun i hi => ha.frame i (by rw [length_nil]; omega), fun _ => ?_⟩
    refine ⟨gs ++ [g], ?_, by rw [flatten_append, flatten_singleton], wellGrouped_snoc hw.full hg hw.le⟩
    rw [← hlen']
    exact (prefix_iff_eq_take.1 ha.at_done).symm

/-- What the compressor returns, for any input, strategy and old contents of its history. -/
theorem pglz_round_trip (hist : Hist) (source dest : List UInt8) (strategy : Option Strategy)
    (hdest : source.length + 4 ≤ dest.length) :
    ∃ r dest', pglzCompress hist source dest strategy = .ok (r, dest') ∧
      dest'.length = dest.length ∧ dest'.drop (source.length + 4) = dest.drop (source.length + 4) ∧
      (r = -1 ∨ 0 ≤ r ∧ r < source.length ∧
        pglzDecompress (dest'.take r.toNat) source.length true = .ok (source.length, source) ∧
        ∀ rawsize ≤ source.length, pglzDecompress (dest'.take r.toNat) rawsize false =
          .ok (rawsize, source.take rawsize)) := by
  rw [pglzCompress]
  split_ifs with hforbidden
  · exact ⟨-1, dest, rfl, rfl, rfl, .inl rfl⟩
  generalize strategy.getD strategyDefault = st
  have hmax := params_resultMax st source.length
  have hfuel : source.length < 0 + (source.length + 1) := by omega
  obtain ⟨c, done, items, hloop, hc, hbp, hdone⟩ :=
    compressLoop_spec hmax hdest (compInv_init hist source dest st) (zero_le _) hfuel
  dsimp only
  rw [hloop, ok_bind]
  cases done with
  | false =>
    obtain ⟨hlen, hframe⟩ := hc.out.frame
    exact ⟨-1, c.out.dest, rfl, hlen, drop_eq_of_frame fun i hi => hframe i (by omega), .inl rfl⟩
  | true => ?_
  obtain ⟨dest', hstore, hlen, hframe, hgroups⟩ := compress_finish hc (hdone rfl) hbp hdest
  rw [hstore, ok_bind]
  by_cases hbig : (c.out.bp : ℤ) ≥ (params st source.length).resultMax
  · rw [if_pos hbig]
    exact ⟨-1, dest', rfl, hlen, drop_eq_of_frame hframe, .inl rfl⟩
  rw [if_neg hbig]
  obtain ⟨gs, htake, hflat, hgs⟩ := hgroups (by omega)
  have hparse : Parses source 0 gs.flatten source.length := hflat ▸ hdone rfl ▸ hc.parses
  have hdec := pglzDecompress_spec (hflat ▸ hc.encodable) hparse hgs
  rw [← htake] at hdec
  exact ⟨c.out.bp, dest', rfl, hlen, drop_eq_of_frame hframe, .inr ⟨natCast_nonneg _, by omega, hdec⟩⟩

/-- Three literals and a tag that repeats them, with an offset that is smaller than its length. -/
theorem pglz_round_trip_repetition :
    pglzCompress ⟨fun _ => 0, fun _ => ⟨none, none, 0, 0⟩, 1, false⟩ [1, 2, 3, 1, 2, 3, 1, 2, 3, 1]
      (List.replicate 14 0) (some strategyAlways) = .ok (6, [8, 1, 2, 3, 4, 3, 0, 0, 0, 0, 0, 0, 0, 0]) ∧
    pglzDecompress [8, 1, 2, 3, 4, 3] 10 true = .ok (10, [1, 2, 3, 1, 2, 3, 1, 2, 3, 1]) := by
  refine ⟨by decide +kernel, ?_⟩
  obtain ⟨r, dest', hrun, -, -, hres⟩ :=
    pglz_round_trip ⟨fun _ => 0, fun _ => ⟨none, none, 0, 0⟩, 1, false⟩ [1, 2, 3, 1, 2, 3, 1, 2, 3, 1]
      (replicate 14 0) (some strategyAlways) (by decide)
  cases hrun
  rcases hres with h | ⟨-, -, h, -⟩
  · exact absurd h (by decide)
  · exact h

end Pg.Pglz
