import PgRetrofit.Lib.KeyHistory
import PgRetrofit.Lib.Result
import PgRetrofit.Spec.PgLzCompress

/-! The history of the compressor: its lists have the last positions with the same hash key,
latest first, whatever the entries held before. -/

namespace Pg.Pglz

open KeyHistory Function Nat

variable {key : ℕ → ℕ} {size lo n p q i : ℕ} {h : Hist} {source : List UInt8} {mask : ℕ}

def slot (p : ℕ) : ℕ := p % historySize + 1

def code : Option ℕ → ℕ
  | none => invalidEntry
  | some p => slot p

theorem slot_ne_invalid (p : ℕ) : slot p ≠ invalidEntry := succ_ne_zero _

theorem slot_inj (lo : ℕ) (hp : lo ≤ p) (hp' : p < lo + historySize) (hq : lo ≤ q)
    (hq' : q < lo + historySize) (h : slot p = slot q) : p = q := by
  unfold slot historySize at *
  omega

/-- The lists for the positions from `lo` to before `n`. -/
structure Window (key : ℕ → ℕ) (size lo n : ℕ) (h : Hist) : Prop where
  entry : ∀ p, lo ≤ p → p < n →
    h.entries (slot p) = ⟨some (code (latest key lo p (key p))), (following key p n).map slot, key p, p⟩
  start : ∀ i < size, h.start i = code (latest key lo n i)

theorem setEntry_self (h : Hist) (i : ℕ) (e : HistEntry) :
    (h.setEntry i e).entries i = e := update_self ..

theorem setEntry_of_ne {j : ℕ} (hij : j ≠ i) (e : HistEntry) :
    (h.setEntry i e).entries j = h.entries j := update_of_ne hij ..

theorem histDelink_spec (hw : Window key size lo n h) (hlt : lo < n) (hn : n ≤ lo + historySize) :
    ∃ h', histDelink h (slot lo) = .ok h' ∧ Window key size (lo + 1) n h' ∧ h'.next = h.next ∧
      h'.recycle = h.recycle := by
  have hfirst : latest key lo lo (key lo) = none :=
    latest_eq_none.2 fun q h1 h2 => absurd h1 (not_le.2 h2)
  have hentry := hw.entry lo le_rfl hlt
  rw [hfirst] at hentry
  -- only what follows the oldest position refers to it
  have hother : ∀ p, p < n → following key lo n ≠ some p →
      latest key (lo + 1) p (key p) = latest key lo p (key p) := by
    intro p hp hne
    rw [latest_shrink, if_neg (mt (latest_iff_following le_rfl hp).1 hne)]
  rw [histDelink, hentry]
  cases hf : following key lo n with
  | none =>
    refine ⟨_, rfl, ⟨fun p h1 h2 => ?_, fun i hi => ?_⟩, rfl, rfl⟩
    · rw [setEntry_of_ne (show slot p ≠ code none from slot_ne_invalid p)]
      rw [hw.entry p (by omega) h2, hother p h2 (by simp [hf])]
    show update h.start (key lo) invalidEntry i = _
    have hlast : latest key lo n (key lo) = some lo :=
      latest_eq_some.2 ⟨le_rfl, hlt, rfl, following_eq_none.1 hf⟩
    by_cases hik : i = key lo
    · rw [hik, update_self, latest_shrink, if_pos hlast]
      rfl
    · rw [update_of_ne hik, hw.start i hi, latest_shrink, if_neg]
      intro hl
      exact hik (latest_eq_some.1 hl).2.2.1.symm
  | some r => ?_
  obtain ⟨hr1, hr2, hr3, -⟩ := following_eq_some.1 hf
  refine ⟨_, rfl, ⟨fun p h1 h2 => ?_, fun i hi => ?_⟩, rfl, rfl⟩
  · rw [setEntry_of_ne (show slot p ≠ code none from slot_ne_invalid p)]
    by_cases hpr : p = r
    · subst hpr
      rw [setEntry_self, hw.entry p (by omega) h2, latest_shrink,
        if_pos ((latest_iff_following le_rfl h2).2 hf)]
    have hslot : slot p ≠ slot r :=
      fun he => hpr (slot_inj lo (by omega) (by omega) (by omega) (by omega) he)
    rw [setEntry_of_ne hslot, hw.entry p (by omega) h2, hother p h2]
    rw [hf]
    exact fun he => hpr (Option.some.inj he).symm
  · show h.start i = _
    rw [hw.start i hi, latest_shrink, if_neg]
    intro hl
    obtain ⟨-, -, hk, hnone⟩ := latest_eq_some.1 hl
    exact hnone r hr1 hr2 (hr3.trans hk)

theorem histLink_spec (hw : Window key size lo n h) (hlo : lo ≤ n) (hn : n < lo + historySize)
    (hkey : key n < size) :
    Window key size lo (n + 1) (histLink h (slot n) (key n) n) := by
  have hfirst := hw.start (key n) hkey
  have hne : code (latest key lo n (key n)) ≠ slot n := by
    cases hl : latest key lo n (key n) with
    | none => exact (slot_ne_invalid n).symm
    | some q =>
      obtain ⟨h1, h2, -⟩ := latest_eq_some.1 hl
      exact fun he => absurd (slot_inj lo h1 (by omega) hlo hn he) (Nat.ne_of_lt h2)
  refine ⟨fun p h1 h2 => ?_, fun i hi => ?_⟩
  · rw [histLink, hfirst]
    rcases Nat.lt_succ_iff_lt_or_eq.1 h2 with h2 | rfl
    · have hslot : slot p ≠ slot n :=
        fun he => absurd (slot_inj lo h1 (by omega) hlo hn he) (Nat.ne_of_lt h2)
      rw [following_succ h1]
      by_cases hl : latest key lo n (key n) = some p
      · rw [hl, code, setEntry_self, setEntry_of_ne hslot, hw.entry p h1 h2, if_pos rfl]
        rfl
      have hcode : slot p ≠ code (latest key lo n (key n)) := by
        cases hq : latest key lo n (key n) with
        | none => exact slot_ne_invalid p
        | some q =>
          obtain ⟨hq1, hq2, -⟩ := latest_eq_some.1 hq
          intro he
          exact hl (hq.trans (congrArg some (slot_inj lo h1 (by omega) hq1 (by omega) he).symm))
      rw [setEntry_of_ne hcode, setEntry_of_ne hslot, hw.entry p h1 h2, if_neg hl]
    · rw [setEntry_of_ne hne.symm, setEntry_self, following_self]
      rfl
  · show update h.start (key n) (slot n) i = _
    rw [latest, if_neg (not_lt.2 hlo)]
    by_cases hik : i = key n
    · rw [hik, update_self, if_pos rfl]
      rfl
    · rw [update_of_ne hik, hw.start i hi, if_neg (Ne.symm hik)]

/-- The history after `n` positions. -/
structure HistInv (key : ℕ → ℕ) (size n : ℕ) (h : Hist) : Prop where
  window : Window key size (n - historySize) n h
  next : h.next = slot n
  recycle : h.recycle = decide (historySize ≤ n)

def keyAt (source : List UInt8) (mask p : ℕ) : ℕ :=
  match histIdx source p mask with
  | .ok k => k
  | .error _ => 0

theorem byteAt_ok (hp : p < source.length) : ∃ b, source[p]? = some b ∧ byteAt source p = .ok b := by
  refine ⟨source[p], List.getElem?_eq_getElem hp, ?_⟩
  rw [byteAt, List.getElem?_eq_getElem hp]

theorem histIdx_ok (mask : ℕ) (hp : p < source.length) :
    histIdx source p mask = .ok (keyAt source mask p) ∧ keyAt source mask p ≤ mask := by
  have hex : ∃ k, histIdx source p mask = .ok k ∧ k ≤ mask := by
    obtain ⟨s0, -, h0⟩ := byteAt_ok hp
    rw [histIdx, h0, Result.ok_bind]
    split_ifs with h4
    · exact ⟨_, rfl, and_le_right⟩
    obtain ⟨s1, -, h₁⟩ := byteAt_ok (p := p + 1) (show _ < source.length by omega)
    obtain ⟨s2, -, h₂⟩ := byteAt_ok (p := p + 2) (show _ < source.length by omega)
    obtain ⟨s3, -, h3⟩ := byteAt_ok (p := p + 3) (show _ < source.length by omega)
    rw [h₁, h₂, h3]
    exact ⟨_, rfl, and_le_right⟩
  obtain ⟨k, hk, hle⟩ := hex
  rw [keyAt, hk]
  exact ⟨rfl, hle⟩

theorem histInv_init (old : Hist) (key : ℕ → ℕ) :
    HistInv key (hashsz source.length) 0 (initHist old source.length) where
  window := ⟨fun p _ h2 => absurd h2 (not_lt_zero p), fun _ hi => if_pos hi⟩
  next := rfl
  recycle := rfl

theorem histAdvance_spec (hw : Window key size (n + 1 - historySize) (n + 1) h) (hnext : h.next = slot n)
    (hrec : h.recycle = decide (historySize ≤ n)) : HistInv key size (n + 1) (histAdvance h) := by
  rw [histAdvance, hnext]
  split_ifs with hlast
  · have hmod : slot (n + 1) = 1 ∧ historySize ≤ n + 1 := by
      unfold slot historySize at *
      omega
    exact ⟨⟨hw.entry, hw.start⟩, hmod.1.symm, (decide_eq_true hmod.2).symm⟩
  · have hmod : slot (n + 1) = slot n + 1 ∧ (historySize ≤ n + 1 ↔ historySize ≤ n) := by
      unfold slot historySize at *
      omega
    refine ⟨⟨hw.entry, hw.start⟩, hmod.1.symm, ?_⟩
    exact hrec.trans (decide_eq_decide.2 hmod.2.symm)

variable (hh : HistInv (keyAt source mask) (mask + 1) n h)
include hh

theorem histAdd_spec (hn : n < source.length) :
    ∃ h', histAdd source mask n h = .ok h' ∧ HistInv (keyAt source mask) (mask + 1) (n + 1) h' := by
  obtain ⟨hidx, hkey⟩ := histIdx_ok mask hn
  have hwidth : n - historySize ≤ n ∧ n ≤ n - historySize + historySize := by omega
  -- the window without the oldest position, if it is full
  have hrecycle :
    ∃ h₁, histRecycle h = .ok h₁ ∧ Window (keyAt source mask) (mask + 1) (n + 1 - historySize) n h₁ ∧
      h₁.next = h.next ∧ h₁.recycle = h.recycle := by
    rw [histRecycle]
    by_cases hfull : historySize ≤ n
    · have hslot : h.next = slot (n - historySize) := by
        rw [hh.next, slot, slot, mod_eq_sub_mod hfull]
      have hpos : n - historySize < n := sub_lt (lt_of_lt_of_le (by decide) hfull) (by decide)
      rw [if_pos (hh.recycle.trans (decide_eq_true hfull)), succ_sub hfull]
      obtain ⟨h₁, hdel, hspec⟩ := histDelink_spec hh.window hpos hwidth.2
      rw [hslot]
      exact ⟨h₁, hdel, hslot ▸ hspec⟩
    · rw [if_neg (by simp [hh.recycle, hfull]), Nat.sub_eq_zero_of_le (Nat.lt_of_not_le hfull)]
      refine ⟨h, rfl, ?_, rfl, rfl⟩
      have hw := hh.window
      rwa [Nat.sub_eq_zero_of_le (Nat.le_of_not_le hfull)] at hw
  obtain ⟨h₁, hh1, hw1, hnext1, hrec1⟩ := hrecycle
  have hlink := histLink_spec hw1 (by unfold historySize; omega) (by omega) (lt_succ_of_le hkey)
  rw [histAdd, hidx, Result.ok_bind, hh1, Result.ok_bind, hnext1, hh.next]
  have hadv : (histLink h₁ (slot n) (keyAt source mask n) n).next = slot n ∧
      (histLink h₁ (slot n) (keyAt source mask n) n).recycle = decide (historySize ≤ n) :=
    ⟨hnext1.trans hh.next, hrec1.trans hh.recycle⟩
  exact ⟨_, rfl, histAdvance_spec hlink hadv.1 hadv.2⟩

theorem histAddAll_spec {len : ℕ} (hn : n + len ≤ source.length) :
    ∃ h', histAddAll source mask len n h = .ok h' ∧
      HistInv (keyAt source mask) (mask + 1) (n + len) h' := by
  induction len generalizing n h with
  | zero => exact ⟨h, rfl, hh⟩
  | succ len ih =>
    obtain ⟨h₁, hadd, hh1⟩ := histAdd_spec hh (by omega)
    obtain ⟨h₂, hall, hh2⟩ := ih hh1 (by omega)
    rw [histAddAll, hadd, Result.ok_bind, hall]
    refine ⟨h₂, rfl, ?_⟩
    rwa [add_right_comm] at hh2

end Pg.Pglz
