import PgRetrofit.Proofs.IntsetGrammar
import PgRetrofit.Sanity.IntsetAlloc
import PgRetrofit.Sanity.IntsetSort

/-! `intset_in` on the texts it accepts: when the stored value is the set written. -/

namespace Pg.Intset

open List Finset Nat UInt32

open Qsort (pgQsort)
open Shuffle (window)

theorem window_bufMem (buf : List UInt32) : window (bufMem buf) 0 buf.length = buf :=
  Shuffle.window_getD buf 0

variable {str : CString} {s : Scan} {n : ℕ}

theorem intsetIn_eq {m : Mem UInt32} {l : List UInt32}
    (hp : nreserveSlot str * 4 ≤ maxAllocSize) (hs : scan str (nreserveSlot str) = .ok s)
    (hlen : s.buf.length ≤ nreserveSlot str)
    (hm : pgQsort eintsetCmp (bufMem s.buf) 0 s.buf.length = some m)
    (hl : (window m 0 s.buf.length).destutter (· ≠ ·) = l) :
    intsetIn str =
      if 8 + 4 * l.length ≤ maxAllocSize then .ok (ofList l)
      else .error (.allocSize (8 + 4 * l.length)) := by
  have hle : l.length ≤ s.buf.length := by
    rw [← hl]
    exact (List.destutter_sublist (· ≠ ·) (window m 0 s.buf.length)).length_le.trans_eq
      (Shuffle.length_window ..)
  simp only [intsetIn, palloc_ok hp, hs, Except.bind]
  rcases Nat.eq_zero_or_pos s.buf.length with h0 | hpos
  · obtain rfl : l = [] := List.length_eq_zero_iff.1 (by omega)
    rw [if_pos h0, if_pos (by decide), emptyIntset_ok]
  obtain ⟨n, hn⟩ : ∃ n, s.buf.length = n + 1 := ⟨s.buf.length - 1, by omega⟩
  rw [if_neg (by omega)]
  simp only [bufMem] at hm
  rw [hm]
  simp only [hn, Nat.add_sub_cancel]
  rw [hn] at hl
  have hd := dedupLoop_all m n
  rw [hl] at hd
  generalize dedupLoop n m 1 1 (m.get 0) = r at hd
  obtain ⟨m', c⟩ := r
  have hc : c = l.length := by rw [← hd, Shuffle.length_window]
  rw [hd, hc]
  split_ifs with hfit
  · rw [allocIntset_ok hfit]
    simp only [copy_alloc, finish_ok]
    rfl
  · rw [allocIntset_error hfit (by unfold maxAllocSize at hp; omega)]

theorem Accepts.reserve (h : Accepts str) : nreserveSlot str * 4 ≤ maxAllocSize := by
  by_contra hp
  refine h.2 (nreserveSlot str * 4) ?_
  simp only [intsetIn, palloc_error hp, Except.bind]

theorem looseCommas_le (p : List UInt8) : looseCommas p ≤ p.count comma := by
  induction p using reverseRecOn with
  | nil => simp [looseCommas]
  | append_singleton p c ih =>
    rw [looseCommas_snoc, count_append]
    split_ifs with h
    · rw [h.2, count_singleton_self]
      omega
    · omega

/-- The buffer reserved by counting commas is long enough exactly when the commas
can be counted and none of them follows whitespace. -/
theorem buf_fits_iff (h : ScanSpec str s) : s.buf.length ≤ nreserveSlot str ↔ TightCommas str := by
  have hlen := h.holds.length
  have hle := looseCommas_le str.bytes
  rw [h.reading_eq] at hlen
  unfold nreserveSlot TightCommas
  rcases h.commas with ⟨hnil, h0⟩ | hcount
  · rw [hnil, length_nil] at hlen
    omega
  · omega

theorem hasRoom_iff (h : SyntaxOk str) : HasRoom str ↔ TightCommas str := by
  obtain ⟨s, hs⟩ := h
  rw [← scan_ne_outOfBounds_iff, ← buf_fits_iff (scan_spec hs), scan_slots hs]
  split_ifs with hfit
  · simp [hfit]
  · simp [hfit]

theorem mem_denoted : n ∈ denoted str ↔ n ∈ numeralValues str.bytes :=
  mem_toFinset

theorem StoredRight.tight (ha : Accepts str) (h : StoredRight str) :
    Fits str ∧ TightCommas str := by
  obtain ⟨r, hr, -, hmem⟩ := h
  obtain ⟨⟨s, hs⟩, -⟩ := ha
  constructor
  · intro n hn
    obtain ⟨x, -, rfl⟩ := mem_map.1 ((hmem n).2 hn)
    exact x.toNat_lt
  rw [← buf_fits_iff (scan_spec hs)]
  by_contra hover
  have hscan := scan_slots hs (nreserveSlot str)
  rw [if_neg hover] at hscan
  obtain ⟨-, -, h2⟩ := Result.bind_eq_ok.1 hr
  rw [hscan] at h2
  cases h2

theorem toNat_toUInt32 (h : n < 2 ^ 32) : n.toUInt32.toNat = n :=
  mod_eq_of_lt h

theorem mem_buf (h : ScanSpec str s) (hf : Fits str) (n : ℕ) :
    n ∈ s.buf.map toNat ↔ n ∈ denoted str := by
  have key : ∀ v ∈ numeralValues str.bytes, v.toUInt32.toNat = v := fun v hv =>
    toNat_toUInt32 (hf v (mem_denoted.2 hv))
  rw [mem_denoted, List.mem_map]
  constructor
  · rintro ⟨x, hx, rfl⟩
    rw [h.holds.mem, h.reading_eq, List.mem_map] at hx
    obtain ⟨v, hv, rfl⟩ := hx
    rwa [key v hv]
  · intro hn
    refine ⟨n.toUInt32, ?_, key n hn⟩
    rw [h.holds.mem, h.reading_eq]
    exact List.mem_map_of_mem hn

/-- An accepted text with tight commas is stored, with the values of the buffer in the
order the sort left them in. -/
theorem Accepts.stored (ha : Accepts str) (ht : TightCommas str) :
    ∃ s m l, ScanSpec str s ∧ pgQsort eintsetCmp (bufMem s.buf) 0 s.buf.length = some m ∧
      (window m 0 s.buf.length).Perm s.buf ∧ (window m 0 s.buf.length).destutter (· ≠ ·) = l ∧
      8 + 4 * l.length ≤ maxAllocSize ∧ intsetIn str = .ok (ofList l) := by
  obtain ⟨s, hs⟩ := ha.1
  have hspec := scan_spec hs
  have hlen := (buf_fits_iff hspec).2 ht
  have hscan := scan_slots hs (nreserveSlot str)
  rw [if_pos hlen] at hscan
  obtain ⟨m, hm, hpost⟩ :
      ∃ m, pgQsort eintsetCmp (bufMem s.buf) 0 s.buf.length = some m ∧ Qsort.Post _ _ _ _ m :=
    Qsort.pgQsort_post ..
  have hperm := Shuffle.Within.perm hpost.1
  rw [window_bufMem] at hperm
  have heq := intsetIn_eq ha.reserve hscan hlen hm rfl
  split_ifs at heq with hfit
  · exact ⟨s, m, _, hspec, hm, hperm, rfl, hfit, heq⟩
  · exact absurd heq (ha.2 _)

theorem storedRight_of_sortsExactly (ha : Accepts str) (hf : Fits str) (ht : TightCommas str)
    (hsorts : SortsExactly ((numeralValues str.bytes).map Nat.toUInt32)) : StoredRight str := by
  obtain ⟨s, m, l, hspec, hm, hperm, hl, hfit, heq⟩ := ha.stored ht
  rw [← hspec.reading_eq, ← hspec.holds.exact ht.1] at hsorts
  -- the true difference is one of the comparisons that the sort cannot tell from `eintset_cmp`
  obtain ⟨m', hm', -, hsorted⟩ :=
    @Qsort.pgQsort_post _ (fun x y : UInt32 => (x.toNat : ℤ) - y.toNat) (bufMem s.buf) 0 s.buf.length
  have hpair : (window m 0 s.buf.length).Pairwise (· ≤ ·) := by
    obtain rfl : m' = m := Option.some.inj (hm'.symm.trans ((hsorts _ fun _ _ h => h.symm).trans hm))
    have hord : CmpOrder (fun x y : UInt32 => (x.toNat : ℤ) - y.toNat) fun _ => True :=
      .ofKey (fun x => (x.toNat : ℤ)) fun x y _ _ => by constructor <;> omega
    refine (hsorted _ hord fun _ _ _ => trivial).pairwise.imp fun {x y} hxy => ?_
    exact le_iff_toNat_le.2 (by omega)
  have hstrict := destutter_sorted hpair
  rw [hl] at hstrict
  refine ⟨ofList l, heq, ofList_canonical hstrict hfit, fun n => ?_⟩
  rw [← mem_buf hspec hf]
  simp only [ofList, List.mem_map, ← hl, mem_destutter_ne, hperm.mem_iff]

theorem sortsExactly_of_narrow (hf : Fits str) (hn : Narrow (denoted str)) :
    SortsExactly ((numeralValues str.bytes).map Nat.toUInt32) := by
  intro cmp hcmp
  set buf := (numeralValues str.bytes).map Nat.toUInt32
  have hmem : ∀ i, i < buf.length → (bufMem buf i).toNat ∈ denoted str := by
    intro i hi
    obtain ⟨v, hv, he⟩ := List.mem_map.1 (List.getElem_mem hi : buf[i] ∈ buf)
    have hcell : bufMem buf i = buf[i] := by simp [bufMem, hi]
    rw [hcell, ← he, toNat_toUInt32 (hf v (mem_denoted.2 hv))]
    exact mem_denoted.2 hv
  refine Qsort.pgQsort_congr fun i j _ hi _ hj => hcmp _ _ ?_
  have hx := hmem i (by omega)
  have hy := hmem j (by omega)
  exact eintsetCmp_near (hn _ hy _ hx) (hn _ hx _ hy)

/-- the text of 0, 2000000000 and 4000000000, the last two with a blank before them -/
def steepText : CString :=
  ⟨[123, 48, 44, 32, 50, 48, 48, 48, 48, 48, 48, 48, 48, 48, 44, 32, 52, 48, 48, 48, 48,
    48, 48, 48, 48, 48, 125], by decide⟩

/-- the text of 3000000000 and 0 -/
def wideText : CString := ⟨[123, 51, 48, 48, 48, 48, 48, 48, 48, 48, 48, 44, 48, 125], by decide⟩

end Pg.Intset
