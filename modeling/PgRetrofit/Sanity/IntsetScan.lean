import PgRetrofit.Spec.IntsetText
import PgRetrofit.Lib.Result

/-! The scanning loop of `intset_in`, followed over every prefix of an accepted
text: what it has stored, and how much of it. -/

namespace Pg.Intset

open List Result Except

variable {c : UInt8} {acc : List ℕ × Option ℕ}

theorem readByte_digit (h : isDigit c = true) :
    readByte acc c = (acc.1, some (acc.2.getD 0 * 10 + (c - 48).toNat)) := if_pos h

theorem readByte_other (h : ¬ isDigit c = true) :
    readByte acc c = (acc.1 ++ acc.2.toList, none) := if_neg h

theorem looseCommas_snoc (p : List UInt8) (c : UInt8) : looseCommas (p ++ [c]) =
      looseCommas p + if (∃ w ∈ p.getLast?, isWhitespace w = true) ∧ c = comma then 1 else 0 := by
  induction p with
  | nil => simp [looseCommas]
  | cons d p ih => ?_
  cases p with
  | nil => simp [looseCommas]
  | cons e p =>
    simp only [cons_append, looseCommas] at ih ⊢
    rw [getLast?_cons_cons]
    omega

theorem whitespace_spec (h : isWhitespace c = true) : ¬ isDigit c = true ∧ c ≠ comma := by
  simp only [isWhitespace, Bool.or_eq_true, beq_iff_eq] at h
  rcases h with ((((rfl | rfl) | rfl) | rfl) | rfl) | rfl <;> decide

theorem digit_spec (h : isDigit c = true) : ¬ isWhitespace c = true ∧ c ≠ comma := by
  refine ⟨fun hw => (whitespace_spec hw).1 h, ?_⟩
  rintro rfl
  exact absurd h (by decide)

variable {str : CString} {slots : ℕ}

/-- The steps that get through. -/
inductive ScanMove (s : Scan) : UInt8 → Scan → Prop
  | endNumeral {c : UInt8} (hc : isWhitespace c = true) (hn : s.number = .insideNum) :
      ScanMove s c { s with buf := s.buf ++ [s.lastNum], number := .notExpectingNum }
  | skip {c : UInt8} (hc : isWhitespace c = true) (hn : s.number ≠ .insideNum) : ScanMove s c s
  | opening (hb : s.bracket = .none) :
      ScanMove s lbrace { s with bracket := .left, number := .expectingNum }
  | closing (hb : s.bracket = .left) (hn : s.number = .insideNum) :
      ScanMove s rbrace
        { s with buf := s.buf ++ [s.lastNum], bracket := .leftAndRight, number := .notExpectingNum }
  | closingIdle (hb : s.bracket = .left) (hn : s.number ≠ .insideNum)
      (hne : ¬ (s.number = .expectingNum ∧ s.buf.length ≠ 0)) :
      ScanMove s rbrace { s with bracket := .leftAndRight, number := .notExpectingNum }
  | digit {c : UInt8} (hc : isDigit c = true) (hb : s.bracket = .left)
      (hn : s.number ≠ .notExpectingNum) :
      ScanMove s c { s with
        number := .insideNum
        lastNum := (if s.number = .expectingNum then 0 else s.lastNum) * 10 + (c - 48).toUInt32 }
  | separator (hb : s.bracket = .left) (hn : s.number = .insideNum ∨ s.number = .notExpectingNum) :
      ScanMove s comma { s with buf := s.buf ++ [s.lastNum], number := .expectingNum }

theorem scanStep_moves {s s' : Scan} (h : scanStep str slots s c = .ok s') : ScanMove s c s' := by
  have hpush : ∀ {f : Scan → Except Fault Scan}, (s.push slots).bind f = .ok s' →
      f { s with buf := s.buf ++ [s.lastNum] } = .ok s' := by
    intro f hf
    unfold Scan.push at hf
    split_ifs at hf
    · exact hf
    · exact absurd hf (by simp [Except.bind])
  unfold scanStep at h
  split_ifs at h with h1 h2 h3 h4 h5 h6 h7 h8 h9 h10 h11 h12
  · have he := hpush h
    obtain rfl := ok.inj he
    exact .endNumeral h1 h2
  · obtain rfl := ok.inj h
    exact .skip h1 h2
  · obtain rfl := ok.inj h
    exact h3 ▸ .opening h4
  · have he := hpush h
    rw [if_neg (by simp [h7])] at he
    obtain rfl := ok.inj he
    exact h5 ▸ .closing h6 h7
  · simp only [Except.bind] at h
    split_ifs at h with h13
    obtain rfl := ok.inj h
    exact h5 ▸ .closingIdle h6 h7 h13
  · obtain rfl := ok.inj h
    have hdigit := ScanMove.digit h9 (not_not.1 h8) h10
    rwa [if_pos h11] at hdigit
  · obtain rfl := ok.inj h
    have hdigit := ScanMove.digit h9 (not_not.1 h8) h10
    rwa [if_neg h11] at hdigit
  · have he := hpush h
    obtain rfl := ok.inj he
    exact h12 ▸ .separator (not_not.1 h8) ‹_›

theorem reading_snoc (p : List UInt8) (c : UInt8) : reading (p ++ [c]) = readByte (reading p) c :=
  foldl_concat ..

/-- What the scanner's two state variables say about the prefix `p` it has read. -/
def Phase (p : List UInt8) (s : Scan) : Prop :=
  match s.bracket, s.number with
  | .none, .notExpectingNum => reading p = ([], none) ∧ p.count comma = 0
  | .left, .expectingNum => (reading p).2 = none ∧ (reading p).1.length = p.count comma
  | .left, .insideNum =>
    (∃ v, (reading p).2 = some v ∧ s.lastNum = v.toUInt32) ∧ (reading p).1.length = p.count comma ∧
      ¬ ∃ w ∈ p.getLast?, isWhitespace w = true
  | .left, .notExpectingNum =>
    (reading p).2 = none ∧ (∃ v, v ∈ (reading p).1 ∧ s.lastNum = v.toUInt32) ∧
      (reading p).1.length = p.count comma + 1 ∧ ∃ w ∈ p.getLast?, isWhitespace w = true
  | .leftAndRight, .notExpectingNum =>
    (reading p).2 = none ∧
      ((reading p).1 = [] ∧ p.count comma = 0 ∨ (reading p).1.length = p.count comma + 1)
  | _, _ => False

/-- The buffer holds the numerals completed so far, and one copy more for each comma
that came after whitespace. -/
structure Holds (p : List UInt8) (buf : List UInt32) : Prop where
  mem : ∀ x, x ∈ buf ↔ x ∈ (reading p).1.map Nat.toUInt32
  length : buf.length = (reading p).1.length + looseCommas p
  exact : looseCommas p = 0 → buf = (reading p).1.map Nat.toUInt32

section Holds

variable {p q : List UInt8} {buf : List UInt32} {v : ℕ} {o : Option ℕ}

theorem looseCommas_snoc_other (h : c ≠ comma) : looseCommas (p ++ [c]) = looseCommas p := by
  rw [looseCommas_snoc, if_neg fun hc => h hc.2, Nat.add_zero]

variable (h : Holds p buf)
include h

theorem Holds.same (hr : reading (p ++ [c]) = ((reading p).1, o)) (hcm : c ≠ comma) :
    Holds (p ++ [c]) buf := by
  have hl := looseCommas_snoc_other (p := p) hcm
  constructor
  · rw [hr]; exact h.mem
  · rw [hr, hl]; exact h.length
  · rw [hr, hl]; exact h.exact

theorem Holds.push (hr : reading q = ((reading p).1 ++ [v], o))
    (hl : looseCommas q = looseCommas p) : Holds q (buf ++ [v.toUInt32]) := by
  constructor
  · intro x
    rw [hr, map_append, mem_append, mem_append, h.mem]
    rfl
  · rw [hr, length_append, length_append, h.length]
    simp only [length_cons, length_nil]
    omega
  · intro h0
    rw [hr, map_append, ← h.exact (hl ▸ h0)]
    rfl

theorem Holds.again (hv : v ∈ (reading p).1) (hr : reading q = ((reading p).1, o))
    (hl : looseCommas q = looseCommas p + 1) : Holds q (buf ++ [v.toUInt32]) := by
  have hmem : v.toUInt32 ∈ buf := (h.mem _).2 (mem_map_of_mem hv)
  constructor
  · intro x
    rw [hr, ← h.mem, mem_append, mem_singleton]
    exact ⟨fun hx => hx.elim id fun hx => hx ▸ hmem, Or.inl⟩
  · simp only [hr, length_append, h.length, length_singleton]
    omega
  · omega

end Holds

variable {p : List UInt8} {v : ℕ}

theorem count_comma_snoc_other (h : c ≠ comma) : (p ++ [c]).count comma = p.count comma := by
  simp [h]

theorem reading_snoc_idle (hc : ¬ isDigit c = true) (h : (reading p).2 = none) :
    reading (p ++ [c]) = ((reading p).1, none) := by
  rw [reading_snoc, readByte_other hc, h, Option.toList_none, append_nil]

theorem reading_snoc_end (hc : ¬ isDigit c = true)
    (h : (reading p).2 = some v) : reading (p ++ [c]) = ((reading p).1 ++ [v], none) := by
  rw [reading_snoc, readByte_other hc, h, Option.toList_some]

theorem toUInt32_readDigit (v : ℕ) (d : UInt8) :
    v.toUInt32 * 10 + d.toUInt32 = (v * 10 + d.toNat).toUInt32 := by
  simp

/-- Phase and contents, for every prefix. -/
structure ScanInv (p : List UInt8) (s : Scan) : Prop where
  phase : Phase p s
  holds : Holds p s.buf

theorem scanInv_init : ScanInv [] Scan.init := by
  refine ⟨⟨rfl, rfl⟩, ⟨?_, ?_, ?_⟩⟩ <;> simp [Scan.init, looseCommas]

section Step

variable {s : Scan} {c : UInt8} {p : List UInt8} (hi : ScanInv p s)
include hi

theorem ScanInv.endNumeral (hc : isWhitespace c = true) (hn : s.number = .insideNum) :
    ScanInv (p ++ [c]) { s with buf := s.buf ++ [s.lastNum], number := .notExpectingNum } := by
  obtain ⟨br, nu, ln, buf⟩ := s
  obtain ⟨hp, hh⟩ := hi
  obtain ⟨hd, hcm⟩ := whitespace_spec hc
  subst hn
  cases br with
  | none => exact hp.elim
  | leftAndRight => exact hp.elim
  | left => ?_
  obtain ⟨⟨v, hv, rfl⟩, hlen, -⟩ := hp
  have hr := reading_snoc_end hd hv
  refine ⟨⟨by rw [hr], ⟨v, by simp [hr], rfl⟩, ?_, c, by simp, hc⟩, ?_⟩
  · rw [hr, count_comma_snoc_other hcm, length_append, hlen, length_singleton]
  · exact hh.push hr (looseCommas_snoc_other hcm)

theorem ScanInv.skip (hc : isWhitespace c = true) (hn : s.number ≠ .insideNum) :
    ScanInv (p ++ [c]) s := by
  obtain ⟨br, nu, ln, buf⟩ := s
  obtain ⟨hp, hh⟩ := hi
  obtain ⟨hd, hcm⟩ := whitespace_spec hc
  have hnone : (reading p).2 = none := by
    cases br <;> cases nu <;> simp_all [Phase]
  have hr := reading_snoc_idle hd hnone
  refine ⟨?_, hh.same hr hcm⟩
  cases br <;> cases nu <;> simp_all [Phase]

theorem ScanInv.opening (hb : s.bracket = .none) :
    ScanInv (p ++ [lbrace]) { s with bracket := .left, number := .expectingNum } := by
  obtain ⟨br, nu, ln, buf⟩ := s
  obtain ⟨hp, hh⟩ := hi
  subst hb
  cases nu with
  | expectingNum => exact hp.elim
  | insideNum => exact hp.elim
  | notExpectingNum => ?_
  obtain ⟨hr0, hcount⟩ := hp
  have hr := reading_snoc_idle (c := lbrace) (by decide) (by rw [hr0])
  have hcm : lbrace ≠ comma := by decide
  refine ⟨⟨by rw [hr], ?_⟩, hh.same hr hcm⟩
  rw [hr, count_comma_snoc_other hcm, hcount, hr0, length_nil]

theorem ScanInv.closing (hb : s.bracket = .left) (hn : s.number = .insideNum) :
    ScanInv (p ++ [rbrace])
      { s with buf := s.buf ++ [s.lastNum], bracket := .leftAndRight, number := .notExpectingNum } := by
  obtain ⟨br, nu, ln, buf⟩ := s
  obtain ⟨hp, hh⟩ := hi
  subst hb hn
  obtain ⟨⟨v, hv, rfl⟩, hlen, -⟩ := hp
  have hr := reading_snoc_end (c := rbrace) (by decide) hv
  have hcm : rbrace ≠ comma := by decide
  refine ⟨⟨by rw [hr], Or.inr ?_⟩, hh.push hr (looseCommas_snoc_other hcm)⟩
  rw [hr, count_comma_snoc_other hcm, length_append, hlen, length_singleton]

theorem ScanInv.closing_idle (hb : s.bracket = .left) (hn : s.number ≠ .insideNum)
    (hne : ¬ (s.number = .expectingNum ∧ s.buf.length ≠ 0)) :
    ScanInv (p ++ [rbrace]) { s with bracket := .leftAndRight, number := .notExpectingNum } := by
  obtain ⟨br, nu, ln, buf⟩ := s
  obtain ⟨hp, hh⟩ := hi
  subst hb
  have hcm : rbrace ≠ comma := by decide
  cases nu with
  | insideNum => exact absurd rfl hn
  | expectingNum =>
    obtain ⟨hnone, hlen⟩ := hp
    have hr := reading_snoc_idle (c := rbrace) (by decide) hnone
    have h0 : buf.length = 0 := by simpa using hne
    have hl : buf.length = (reading p).1.length + looseCommas p := hh.length
    refine ⟨⟨by rw [hr], Or.inl ⟨?_, ?_⟩⟩, hh.same hr hcm⟩
    · rw [hr]
      exact length_eq_zero_iff.1 (by simp only; omega)
    · rw [count_comma_snoc_other hcm]
      omega
  | notExpectingNum =>
    obtain ⟨hnone, -, hlen, -⟩ := hp
    have hr := reading_snoc_idle (c := rbrace) (by decide) hnone
    refine ⟨⟨by rw [hr], Or.inr ?_⟩, hh.same hr hcm⟩
    rw [hr, count_comma_snoc_other hcm, hlen]

theorem ScanInv.digit (hc : isDigit c = true) (hb : s.bracket = .left)
    (hn : s.number ≠ .notExpectingNum) :
    ScanInv (p ++ [c]) { s with
      number := .insideNum
      lastNum := (if s.number = .expectingNum then 0 else s.lastNum) * 10 + (c - 48).toUInt32 } := by
  obtain ⟨br, nu, ln, buf⟩ := s
  obtain ⟨hp, hh⟩ := hi
  obtain ⟨hw, hcm⟩ := digit_spec hc
  have hr : reading (p ++ [c]) = ((reading p).1, some ((reading p).2.getD 0 * 10 + (c - 48).toNat)) := by
    rw [reading_snoc, readByte_digit hc]
  subst hb
  have hlast : ¬ ∃ w ∈ (p ++ [c]).getLast?, isWhitespace w = true := by simpa using hw
  refine ⟨?_, hh.same hr hcm⟩
  cases nu with
  | notExpectingNum => exact absurd rfl hn
  | expectingNum =>
    obtain ⟨hnone, hlen⟩ := hp
    refine ⟨⟨_, by rw [hr], ?_⟩, by rw [hr, count_comma_snoc_other hcm, hlen], hlast⟩
    rw [hnone, Option.getD_none]
    rfl
  | insideNum =>
    obtain ⟨⟨v, hv, rfl⟩, hlen, -⟩ := hp
    refine ⟨⟨_, by rw [hr], ?_⟩, by rw [hr, count_comma_snoc_other hcm, hlen], hlast⟩
    rw [hv, ← toUInt32_readDigit]
    rfl

/-- A comma stores the last number, once more if whitespace has stored it already. -/
theorem ScanInv.separator (hb : s.bracket = .left)
    (hn : s.number = .insideNum ∨ s.number = .notExpectingNum) :
    ScanInv (p ++ [comma]) { s with buf := s.buf ++ [s.lastNum], number := .expectingNum } := by
  obtain ⟨br, nu, ln, buf⟩ := s
  obtain ⟨hp, hh⟩ := hi
  subst hb
  have hcount : (p ++ [comma]).count comma = p.count comma + 1 := by simp
  have hsnoc := looseCommas_snoc p comma
  rcases hn with rfl | rfl
  · obtain ⟨⟨v, hv, rfl⟩, hlen, hlast⟩ := hp
    have hr := reading_snoc_end (c := comma) (by decide) hv
    rw [if_neg fun hw => hlast hw.1] at hsnoc
    refine ⟨⟨by rw [hr], ?_⟩, hh.push hr hsnoc⟩
    rw [hr, hcount, length_append, hlen, length_singleton]
  · obtain ⟨hnone, ⟨v, hv, rfl⟩, hlen, hlast⟩ := hp
    have hr := reading_snoc_idle (c := comma) (by decide) hnone
    rw [if_pos ⟨hlast, rfl⟩] at hsnoc
    exact ⟨⟨by rw [hr], by rw [hr, hcount, hlen]⟩, hh.again hv hr hsnoc⟩

end Step

theorem scanStep_inv {s s' : Scan}
    (hi : ScanInv p s) (h : scanStep str slots s c = .ok s') : ScanInv (p ++ [c]) s' := by
  cases scanStep_moves h with
  | endNumeral hc hn => exact hi.endNumeral hc hn
  | skip hc hn => exact hi.skip hc hn
  | opening hb => exact hi.opening hb
  | closing hb hn => exact hi.closing hb hn
  | closingIdle hb hn hne => exact hi.closing_idle hb hn hne
  | digit hc hb hn => exact hi.digit hc hb hn
  | separator hb hn => exact hi.separator hb hn

theorem scanStep_digit {s : Scan} (hc : isDigit c = true) (hb : s.bracket = .left)
    (hn : s.number ≠ .notExpectingNum) :
    scanStep str slots s c = .ok { s with
      number := .insideNum
      lastNum := (if s.number = .expectingNum then 0 else s.lastNum) * 10 + (c - 48).toUInt32 } := by
  have hl : c ≠ lbrace := by rintro rfl; exact absurd hc (by decide)
  have hr : c ≠ rbrace := by rintro rfl; exact absurd hc (by decide)
  rw [scanStep, if_neg (digit_spec hc).1, if_neg hl, if_neg hr, if_neg (not_not.2 hb), if_pos hc,
    if_neg hn]

/-- The number of slots matters to a step only when it stores. -/
theorem scanStep_slots {s s' : Scan} (h : scanStep str slots s c = .ok s') (k : ℕ) :
    (s'.buf = s.buf ∧ scanStep str k s c = .ok s') ∨ (s'.buf.length = s.buf.length + 1 ∧
        scanStep str k s c = if s.buf.length < k then .ok s' else .error .outOfBounds) := by
  have hpush : ∀ f : Scan → Except Fault Scan, (s.push k).bind f =
      if s.buf.length < k then f { s with buf := s.buf ++ [s.lastNum] } else .error .outOfBounds := by
    intro f
    unfold Scan.push
    split_ifs <;> rfl
  have hlen : (s.buf ++ [s.lastNum]).length = s.buf.length + 1 := by simp
  cases scanStep_moves h with
  | endNumeral hc hn =>
    refine Or.inr ⟨hlen, ?_⟩
    rw [scanStep, if_pos hc, if_pos hn, hpush]
  | skip hc hn =>
    refine Or.inl ⟨rfl, ?_⟩
    rw [scanStep, if_pos hc, if_neg hn]
  | opening hb =>
    refine Or.inl ⟨rfl, ?_⟩
    rw [scanStep, if_neg (by decide), if_pos rfl, if_pos hb]
  | closing hb hn =>
    rw [scanStep, if_neg (by decide), if_neg (by decide), if_pos hb, if_pos hn, hpush]
    simp [hn]
  | closingIdle hb hn hne =>
    refine Or.inl ⟨rfl, ?_⟩
    rw [scanStep, if_neg (by decide), if_pos hb, if_neg hn]
    exact if_neg hne
  | digit hc hb hn => exact Or.inl ⟨rfl, scanStep_digit hc hb hn⟩
  | separator hb hn =>
    refine Or.inr ⟨hlen, ?_⟩
    rw [scanStep, if_neg (by decide), if_neg (by decide), if_neg (by decide), if_neg (not_not.2 hb),
      if_neg (by decide), if_pos rfl, if_pos hn, hpush]

theorem scanFold_grows (bs : List UInt8) {s t : Scan}
    (h : bs.foldlM (scanStep str slots) s = .ok t) : s.buf.length ≤ t.buf.length := by
  induction bs generalizing s with
  | nil => rw [foldlM_nil_ok.1 h]
  | cons c bs ih =>
    obtain ⟨s1, h₁, hbs⟩ := foldlM_cons_ok.1 h
    have hle := ih hbs
    rcases scanStep_slots h₁ slots with ⟨hbuf, -⟩ | ⟨hlen, -⟩
    · rwa [← hbuf]
    · omega

/-- A scan that gets through in some buffer gets through in any other that is long
enough for what it stores, and overruns every shorter one. -/
theorem scanFold_slots (bs : List UInt8) {s t : Scan}
    (h : bs.foldlM (scanStep str slots) s = .ok t) {k : ℕ} (hk : s.buf.length ≤ k) :
    bs.foldlM (scanStep str k) s = if t.buf.length ≤ k then .ok t else .error .outOfBounds := by
  induction bs generalizing s with
  | nil =>
    obtain rfl := foldlM_nil_ok.1 h
    rw [if_pos hk]
    rfl
  | cons c bs ih => ?_
  obtain ⟨s1, h₁, hbs⟩ := foldlM_cons_ok.1 h
  rw [foldlM_cons]
  rcases scanStep_slots h₁ k with ⟨hbuf, he⟩ | ⟨hlen, he⟩
  · rw [he]
    exact ih hbs (hbuf ▸ hk)
  by_cases hlt : s.buf.length < k
  · rw [he, if_pos hlt]
    exact ih hbs (by omega)
  -- no slot is left for this store, and later ones only make the buffer longer
  have hle := scanFold_grows bs hbs
  rw [he, if_neg hlt, if_neg (by omega)]
  rfl

variable {s : Scan}

/-- A store beyond the buffer goes through in a longer one, and is then one store more. -/
theorem scanStep_overrun (h : scanStep str slots s c = .error .outOfBounds) {k : ℕ}
    (hk : s.buf.length < k) :
    slots ≤ s.buf.length ∧ ∃ s', scanStep str k s c = .ok s' ∧ s'.buf.length = s.buf.length + 1 := by
  have hpush : ∀ n, s.push n =
      if s.buf.length < n then .ok { s with buf := s.buf ++ [s.lastNum] } else .error .outOfBounds :=
    fun n => rfl
  unfold scanStep at h ⊢
  simp only [Except.bind, syntaxError, hpush, if_pos hk] at h ⊢
  split_ifs at h ⊢ <;> grind

theorem scan_overrun (h : scan str slots = .error .outOfBounds) :
    ∃ p c rest s, str.bytes = p ++ c :: rest ∧ p.foldlM (scanStep str slots) Scan.init = .ok s ∧
      scanStep str slots s c = .error .outOfBounds := by
  unfold scan at h
  cases hs : str.bytes.foldlM (scanStep str slots) Scan.init with
  | error e =>
    rw [hs] at h
    obtain rfl : e = .outOfBounds := Except.error.inj h
    exact foldlM_error hs
  | ok s =>
    rw [hs] at h
    simp only [Except.bind, syntaxError] at h
    split_ifs at h
    cases h

/-- With a slot for every byte a store never finds the buffer full. -/
theorem buf_le_length (hp : p.foldlM (scanStep str slots) Scan.init = .ok s) :
    s.buf.length ≤ p.length := by
  refine foldlM_inv (P := fun p s => s.buf.length ≤ p.length)
    (fun {p s c s'} hle hstep => ?_) p (p := [])
    le_rfl hp
  rw [length_append, length_singleton]
  rcases scanStep_slots hstep slots with ⟨hbuf, -⟩ | ⟨hlen, -⟩
  · rw [hbuf]; omega
  · omega

theorem stored_eq (hp : p.foldlM (scanStep str slots) Scan.init = .ok s) :
    s.buf.length = (reading p).1.length + looseCommas p :=
  (foldlM_inv scanStep_inv p scanInv_init hp : ScanInv p s).holds.length

theorem scan_stays_iff (str : CString) : scan str (nreserveSlot str) ≠ .error .outOfBounds ↔
    ∀ p, p <+: str.bytes → ∀ s, p.foldlM (scanStep str str.strlen) Scan.init = .ok s →
      (reading p).1.length + looseCommas p ≤ nreserveSlot str := by
  constructor
  · rintro h p ⟨q, hq⟩ s hp
    rw [← stored_eq hp]
    by_contra hover
    refine h ?_
    have hfold := scanFold_slots p hp (Nat.zero_le (nreserveSlot str))
    rw [if_neg hover] at hfold
    rw [scan, ← hq, foldlM_append, hfold]
    rfl
  · intro h hscan
    obtain ⟨p, c, rest, s, hstr, hp, hc⟩ := scan_overrun hscan
    have hlen : p.length < str.strlen := by simp [CString.strlen, hstr]
    have hle := buf_le_length hp
    obtain ⟨hover, s', hs', hs'len⟩ := scanStep_overrun hc (by omega : s.buf.length < str.strlen)
    have hfold := scanFold_slots p hp (Nat.zero_le str.strlen)
    rw [if_pos (by omega)] at hfold
    have hnext : (p ++ [c]).foldlM (scanStep str str.strlen) Scan.init = .ok s' := by
      rw [foldlM_append, hfold]
      exact foldlM_cons_ok.2 ⟨s', hs', foldlM_nil_ok.2 rfl⟩
    have := h (p ++ [c]) ⟨rest, by rw [hstr, append_assoc]; rfl⟩ s' hnext
    rw [← stored_eq hnext] at this
    omega

/-- Everything a text that gets through has been read as. -/
structure ScanSpec (str : CString) (s : Scan) : Prop where
  holds : Holds str.bytes s.buf
  reading_eq : (reading str.bytes).1 = numeralValues str.bytes
  commas : numeralValues str.bytes = [] ∧ str.bytes.count comma = 0 ∨
    (numeralValues str.bytes).length = str.bytes.count comma + 1

variable (h : scan str slots = .ok s)
include h

theorem scan_spec : ScanSpec str s := by
  obtain ⟨t, ht, hend⟩ := bind_eq_ok.1 h
  split_ifs at hend with hb
  obtain rfl : t = s := ok.inj hend
  obtain ⟨hp, hh⟩ : ScanInv str.bytes t := foldlM_inv scanStep_inv str.bytes scanInv_init ht
  obtain ⟨br, nu, ln, buf⟩ := t
  simp only [not_or, not_not] at hb
  obtain ⟨rfl, rfl⟩ := hb
  obtain ⟨hnone, hcount⟩ := hp
  have hr : numeralValues str.bytes = (reading str.bytes).1 := by simp [numeralValues, hnone]
  exact ⟨hh, hr.symm, hr ▸ hcount⟩

theorem scan_slots (k : ℕ) :
    scan str k = if s.buf.length ≤ k then .ok s else .error .outOfBounds := by
  obtain ⟨t, ht, hend⟩ := bind_eq_ok.1 h
  split_ifs at hend with hb
  obtain rfl : t = s := ok.inj hend
  rw [scan, scanFold_slots str.bytes ht (Nat.zero_le k)]
  split_ifs with hk
  · exact if_neg hb
  · rfl

end Pg.Intset
