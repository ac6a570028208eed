import PgRetrofit.Lib.Lz77
import PgRetrofit.Sanity.PgLzHistory

/-! What the search for a match finds is a repetition in the input, whichever entries of the
history it visits and wherever it stops. -/

namespace Pg.Pglz

open KeyHistory Lz77 Result Nat

variable {key : ℕ → ℕ} {size lo n p len k : ℕ} {off : ℤ} {h : Hist} {source : List UInt8} {mask : ℕ}

def SameAt (source : List UInt8) (ip hp len : ℕ) : Prop :=
  ip + len ≤ source.length ∧ ∀ i < len, source[ip + i]? = source[hp + i]?

theorem SameAt.succ {ip hp : ℕ} {b : UInt8} (hi : source[ip]? = some b) (hh : source[hp]? = some b)
    (hs : SameAt source (ip + 1) (hp + 1) len) :
    SameAt source ip hp (len + 1) := by
  obtain ⟨hle, hs⟩ := hs
  refine ⟨by omega, fun i hlt => ?_⟩
  cases i with
  | zero => rw [add_zero, add_zero, hi, hh]
  | succ i =>
    have := hs i (by omega)
    rwa [add_right_comm, add_right_comm hp] at this

theorem SameAt.append {ip hp len2 : ℕ} (h₁ : SameAt source ip hp len)
    (h₂ : SameAt source (ip + len) (hp + len) len2) :
    SameAt source ip hp (len + len2) := by
  refine ⟨by have := h₂.1; omega, fun i hlt => ?_⟩
  by_cases hi : i < len
  · exact h₁.2 i hi
  · have := h₂.2 (i - len) (by omega)
    rwa [Nat.add_assoc, Nat.add_assoc, Nat.add_sub_cancel' (Nat.le_of_not_lt hi)] at this

theorem SameAt.repeats {ip hp : ℕ} (hs : SameAt source ip hp len) (hlt : hp < ip) :
    Repeats source ip (ip - hp) len where
  pos_off := Nat.sub_pos_of_lt hlt
  off_le := sub_le _ _
  le_length := hs.1
  eq := fun i hi => by rw [hs.2 i hi, show ip + i - (ip - hp) = hp + i by omega]

theorem extendMatch_spec {ip hp : ℕ} (room : ℕ) (hlt : hp < ip)
    (hip : ip ≤ source.length) (thislen : ℕ) :
    ∃ k ≤ room, extendMatch source room ip hp thislen = .ok (thislen + k) ∧ SameAt source ip hp k := by
  have hnone : SameAt source ip hp 0 := ⟨hip, fun i hi => absurd hi (not_lt_zero i)⟩
  induction room generalizing ip hp thislen with
  | zero => exact ⟨0, le_rfl, rfl, hnone⟩
  | succ room ih => ?_
  rw [extendMatch]
  split_ifs with hend
  · obtain ⟨b, hb, hbyte⟩ := byteAt_ok hend
    obtain ⟨b', hb', hbyte'⟩ := byteAt_ok (hlt.trans hend)
    rw [hbyte, ok_bind, hbyte', ok_bind]
    split_ifs with heq
    · have hnext : SameAt source (ip + 1) (hp + 1) 0 := ⟨hend, fun i hi => absurd hi (not_lt_zero i)⟩
      obtain ⟨k, hk, hrun, hsame⟩ := ih (succ_lt_succ hlt) hend (thislen + 1) hnext
      exact ⟨k + 1, succ_le_succ hk, hrun.trans (by rw [add_right_comm, add_assoc]),
        hsame.succ hb (heq ▸ hb')⟩
    · exact ⟨0, zero_le _, rfl, hnone⟩
  · exact ⟨0, zero_le _, rfl, hnone⟩

theorem memcmpEq_spec {ip hp : ℕ} (hlt : hp < ip) (hip : ip + len ≤ source.length) :
    ∃ b, memcmpEq source ip hp len = .ok b ∧ (b = true → SameAt source ip hp len) := by
  refine ⟨_, if_pos ⟨hip, by omega⟩, fun heq => ⟨hip, fun i hi => ?_⟩⟩
  have hi' := congrArg (·[i]?) (of_decide_eq_true heq)
  rwa [List.getElem?_take_of_lt hi, List.getElem?_take_of_lt hi, List.getElem?_drop, List.getElem?_drop]
    at hi'

theorem matchAt_spec (hlt : p < n) (hlen : n + len ≤ source.length) (hmax : len ≤ maxMatch) :
    ∃ k ≤ maxMatch, matchAt source n p len = .ok k ∧ SameAt source n p k := by
  rw [matchAt]
  split_ifs with h16
  · obtain ⟨b, hb, hsame⟩ := memcmpEq_spec hlt hlen
    rw [hb, ok_bind]
    split_ifs with heq
    · obtain ⟨k, hk, hrun, hext⟩ :=
        extendMatch_spec (maxMatch - len) (Nat.add_lt_add_right hlt len) hlen len
      exact ⟨len + k, by omega, hrun, (hsame heq).append hext⟩
    · exact ⟨0, zero_le _, rfl, by omega, fun i hi => absurd hi (not_lt_zero i)⟩
  · obtain ⟨k, hk, hrun, hext⟩ := extendMatch_spec maxMatch hlt (show n ≤ source.length by omega) 0
    exact ⟨k, hk, hrun.trans (by rw [zero_add]), hext⟩

structure Found (source : List UInt8) (n len : ℕ) (off : ℤ) : Prop where
  le_max : len ≤ maxMatch
  le_length : n + len ≤ source.length
  repeats : 0 < len → 0 < off ∧ off < 0x0fff ∧ Repeats source n off.toNat len

theorem Found.better (hf : Found source n len off) (hlt : p < n) (hnear : (n : ℤ) - p < 0x0fff)
    (hk : k ≤ maxMatch) (hsame : SameAt source n p k) :
    ∃ len' off', (if k > len then (k, (n : ℤ) - p) else (len, off)) = (len', off') ∧
      Found source n len' off' := by
  split_ifs with hbetter
  · refine ⟨_, _, rfl, hk, hsame.1, fun _ => ⟨by omega, hnear, ?_⟩⟩
    rw [show ((n : ℤ) - p).toNat = n - p by omega]
    exact hsame.repeats hlt
  · exact ⟨_, _, rfl, hf⟩

def listRoom (lo : ℕ) : Option ℕ → ℕ
  | none => 0
  | some p => p - lo + 1

theorem listRoom_latest : listRoom lo (latest key lo n k) ≤ n - lo := by
  cases hl : latest key lo n k with
  | none => exact zero_le _
  | some q =>
    obtain ⟨h1, h2, -⟩ := latest_eq_some.1 hl
    show q - lo + 1 ≤ n - lo
    omega

/-- The loop ends within the window, since the positions of a list decrease. -/
theorem findMatchLoop_spec (hw : Window key size lo n h) {fuel : ℕ} {cur : Option ℕ}
    (goodMatch goodDrop : ℤ) (hcur : ∀ p, cur = some p → lo ≤ p ∧ p < n) (hfuel : listRoom lo cur < fuel)
    (hf : Found source n len off) :
    ∃ len' off', findMatchLoop source h n goodDrop fuel (some (code cur)) len off goodMatch =
      .ok (len', off') ∧ Found source n len' off' := by
  induction fuel generalizing cur len off goodMatch with
  | zero => omega
  | succ fuel ih => ?_
  rw [findMatchLoop]
  cases cur with
  | none => exact ⟨len, off, rfl, hf⟩
  | some p => ?_
  obtain ⟨hlo, hlt⟩ := hcur p rfl
  have hnext : ∀ q, latest key lo p (key p) = some q → lo ≤ q ∧ q < n := by
    intro q hq
    obtain ⟨h1, h2, -⟩ := latest_eq_some.1 hq
    exact ⟨h1, h2.trans hlt⟩
  have hfuel' : listRoom lo (latest key lo p (key p)) < fuel :=
    lt_of_le_of_lt listRoom_latest (lt_of_succ_lt_succ hfuel)
  rw [if_neg
    (fun he : some (code (some p)) = some invalidEntry => slot_ne_invalid p (Option.some.inj he))]
  dsimp only [code]
  rw [hw.entry p hlo hlt]
  by_cases hfar : (n : ℤ) - p ≥ 0x0fff
  · rw [if_pos hfar]
    exact ⟨len, off, rfl, hf⟩
  rw [if_neg hfar]
  obtain ⟨k, hk, hrun, hsame⟩ := matchAt_spec hlt hf.le_length hf.le_max
  obtain ⟨len', off', hpair, hf'⟩ := hf.better hlt (Int.lt_of_not_ge hfar) hk hsame
  rw [hrun, ok_bind, hpair]
  split_ifs with hlast hgood
  · exact ⟨len', off', rfl, hf'⟩
  · exact ih _ hnext hfuel' hf'
  · exact ih _ hnext hfuel' hf'

theorem findMatch_spec (hh : HistInv (keyAt source mask) (mask + 1) n h) (hn : n < source.length)
    (goodMatch goodDrop : ℤ) :
    findMatch source h n goodMatch goodDrop mask = .ok none ∨
    ∃ len off, findMatch source h n goodMatch goodDrop mask = .ok (some (len, off)) ∧
      2 < len ∧ len ≤ maxMatch ∧ 0 < off ∧ off < 0x0fff ∧ Repeats source n off.toNat len := by
  obtain ⟨hidx, hkey⟩ := histIdx_ok mask hn
  have hcur : ∀ p, latest (keyAt source mask) (n - historySize) n (keyAt source mask n) = some p →
      n - historySize ≤ p ∧ p < n := by
    intro p hp
    obtain ⟨h1, h2, -⟩ := latest_eq_some.1 hp
    exact ⟨h1, h2⟩
  have hfuel : listRoom (n - historySize)
      (latest (keyAt source mask) (n - historySize) n (keyAt source mask n)) < historySize + 1 :=
    lt_succ_of_le (listRoom_latest.trans (by omega))
  have hstart : Found source n 0 0 := ⟨zero_le _, le_of_lt hn, fun h0 => absurd h0 (lt_irrefl 0)⟩
  obtain ⟨len, off, hrun, hf⟩ := findMatchLoop_spec hh.window goodMatch goodDrop hcur hfuel hstart
  rw [findMatch, hidx, ok_bind, hh.window.start _ (lt_succ_of_le hkey)]
  dsimp only
  rw [hrun, ok_bind]
  split_ifs with hlen
  · obtain ⟨hpos, hmax, hrep⟩ := hf.repeats (by omega)
    exact .inr ⟨len, off, rfl, hlen, hf.le_max, hpos, hmax, hrep⟩
  · exact .inl rfl

end Pg.Pglz
