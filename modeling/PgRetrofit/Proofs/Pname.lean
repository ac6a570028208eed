import PgRetrofit.Sanity.PnameSyntax

/-! `pname_in` and `pname_out`: which strings are names, and what is stored of them. -/

namespace Pg.Pname

open Ere List

/-- The value whose `name` is the given string. -/
def stored (name : List UInt8) : PersonName :=
  ⟨BitVec.ofNat 30 (varhdrsz + (name.length + 1)), name ++ [0]⟩

/-- The name can be allocated with its header and its terminator. -/
def Storable (name : List UInt8) : Prop := varhdrsz + (name.length + 1) ≤ maxAllocSize

instance (name : List UInt8) : Decidable (Storable name) := inferInstanceAs (Decidable (_ ≤ _))

theorem snprintf_all (s : List UInt8) : snprintf (s.length + 1) s = s ++ [0] := by
  rw [snprintf, if_neg (Nat.succ_ne_zero _), Nat.add_sub_cancel, take_length]

theorem readCString_append {s : List UInt8} (h : 0 ∉ s) : readCString (s ++ [0]) = .ok ⟨s, h⟩ := by
  have hall : ∀ x ∈ s, (x != 0) = true := fun x hx => by
    rw [bne_iff_ne]
    rintro rfl
    exact h hx
  have htake : (s ++ [0]).takeWhile (· != 0) = s := by
    rw [takeWhile_append_of_pos hall]
    simp
  rw [readCString, if_pos (by simp)]
  simp only [htake]

theorem lltrim_given {sp giv : List UInt8} (hsp : sp = [] ∨ sp = [space]) (hgiv : giv ∈ names.matches') :
    lltrim (sp ++ giv) = giv := by
  obtain ⟨c, cs, rfl, hc⟩ := (proper_of_names hgiv).head
  have hstop : ∀ i, lltrimLoop i (c :: cs) = c :: cs := fun i => by
    rw [lltrimLoop, if_neg fun h => absurd h.2 (by simp [(nameChar_spec c hc).2.2.2])]
  rcases hsp with rfl | rfl
  · exact hstop 0
  · change lltrimLoop 0 (space :: c :: cs) = _
    rw [lltrimLoop, if_pos ⟨Nat.zero_le _, by decide⟩, hstop]

theorem Splits.length_le {str fam sp giv : List UInt8} (h : Splits str fam sp giv) :
    (fam ++ comma :: giv).length ≤ str.length ∧ str.length ≤ (fam ++ comma :: giv).length + 1 := by
  have hsp : sp.length ≤ 1 := by rcases h.sp_cases with rfl | rfl <;> simp
  simp only [h.str_eq, length_append, length_cons]
  omega

variable {str : CString} {name : List UInt8} {n : ℕ}

theorem pnameIn_of_splits {fam sp giv : List UInt8} (h : Splits str.bytes fam sp giv) :
    pnameIn str = if Storable (fam ++ comma :: giv) then .ok (stored (fam ++ comma :: giv))
      else if str.strlen + 1 ≤ maxAllocSize then
        .error (.allocSize (varhdrsz + ((fam ++ comma :: giv).length + 1)))
      else .error (.allocSize (str.strlen + 1)) := by
  obtain ⟨hle, hge⟩ := h.length_le
  obtain ⟨b, hb, hiff⟩ := validName_iff str.bytes
  obtain rfl : b = true := hiff.2 ⟨fam, sp, giv, h⟩
  have hfit : ∀ hp : str.strlen + 1 ≤ maxAllocSize, pnameIn str =
      (palloc (varhdrsz + ((fam ++ comma :: giv).length + 1))).bind fun _ =>
        .ok (stored (fam ++ comma :: giv)) := by
    intro hp
    rw [pnameIn, palloc_ok hp, hb, h.strtokR]
    simp only [Except.bind, lltrim_given h.sp_cases h.giv_mem, CString.strlen]
    rw [if_neg (by decide), if_pos (by omega), snprintf_all]
    rfl
  split_ifs with hs hp
  · rw [hfit (by unfold Storable varhdrsz at hs; unfold CString.strlen; omega), palloc_ok hs]
    rfl
  · rw [hfit hp, palloc_error hs]
    rfl
  · rw [pnameIn, palloc_error hp]
    rfl

theorem pnameIn_of_not_splits (h : ¬ ∃ fam sp giv, Splits str.bytes fam sp giv) :
    pnameIn str = if str.strlen + 1 ≤ maxAllocSize then .error (.invalidText "PersonName" str)
      else .error (.allocSize (str.strlen + 1)) := by
  obtain ⟨b, hb, hiff⟩ := validName_iff str.bytes
  obtain rfl : b = false := by simpa using fun hbt => h (hiff.1 hbt)
  split_ifs with hp
  · rw [pnameIn, palloc_ok hp, hb]
    rfl
  · rw [pnameIn, palloc_error hp]
    rfl

theorem pnameIn_ok_iff {x : PersonName} :
    pnameIn str = .ok x ↔ ∃ fam sp giv, Splits str.bytes fam sp giv ∧ Storable (fam ++ comma :: giv) ∧
      x = stored (fam ++ comma :: giv) := by
  constructor
  · intro hx
    by_cases h : ∃ fam sp giv, Splits str.bytes fam sp giv
    · obtain ⟨fam, sp, giv, hs⟩ := h
      rw [pnameIn_of_splits hs] at hx
      split_ifs at hx with hstor
      exact ⟨fam, sp, giv, hs, hstor, (Except.ok.inj hx).symm⟩
    · rw [pnameIn_of_not_splits h] at hx
      split_ifs at hx
  · rintro ⟨fam, sp, giv, hs, hstor, rfl⟩
    rw [pnameIn_of_splits hs, if_pos hstor]

theorem Splits.nul_free {str fam sp giv : List UInt8} (h : Splits str fam sp giv) :
    0 ∉ fam ++ comma :: giv := by
  have key : ∀ {s}, s ∈ names.matches' → 0 ∉ s := fun hs h0 => by
    rcases (proper_of_names hs).bytes _ h0 with hc | hc
    · exact (nameChar_spec _ hc).2.2.1 rfl
    · exact absurd hc (by decide)
  simp only [mem_append, mem_cons, not_or]
  exact ⟨key h.fam_mem, by decide, key h.giv_mem⟩

theorem exhdr_stored (h : Storable name) : exhdr (stored name) = name.length + 1 := by
  rw [exhdr, stored, BitVec.toNat_ofNat, Nat.mod_eq_of_lt (by unfold Storable maxAllocSize at h; omega)]
  omega

theorem copyName_stored (h : Storable name) (hnul : 0 ∉ name) :
    copyName (stored name) = .ok (name ++ [0]) := by
  have hp : name.length + 1 ≤ maxAllocSize := by unfold Storable at h; omega
  rw [copyName, exhdr_stored h, palloc_ok hp, stored, readCString_append hnul]
  simp only [Except.bind, snprintf_all]

/-- Exactly the strings of the form `W(' 'W)*,[' ']W(' 'W)*` that can be allocated are
accepted; they are stored without the blank after the comma, and what is stored comes
back from its own output. -/
theorem pnameIn_accepts (str : CString) :
    (∀ x, pnameIn str = .ok x ↔ ∃ fam sp giv, Splits str.bytes fam sp giv ∧
      Storable (fam ++ comma :: giv) ∧ x = stored (fam ++ comma :: giv)) ∧
    (∀ fam sp giv, Splits str.bytes fam sp giv → ¬ Storable (fam ++ comma :: giv) →
      ∃ size, pnameIn str = .error (.allocSize size) ∧ maxAllocSize < size) ∧
    (∀ x, pnameIn str = .ok x → ∃ out, pnameOut x = .ok out ∧ pnameIn out = .ok x) := by
  refine ⟨fun x => pnameIn_ok_iff, fun fam sp giv h hlong => ?_, fun x hx => ?_⟩
  · rw [pnameIn_of_splits h, if_neg hlong]
    split
    · exact ⟨_, rfl, Nat.lt_of_not_le hlong⟩
    · rename_i hbytes
      exact ⟨_, rfl, Nat.lt_of_not_le hbytes⟩
  obtain ⟨fam, sp, giv, hs, hstor, rfl⟩ := pnameIn_ok_iff.1 hx
  refine ⟨⟨fam ++ comma :: giv, hs.nul_free⟩, ?_, ?_⟩
  · rw [pnameOut, copyName_stored hstor hs.nul_free]
    exact readCString_append hs.nul_free
  · exact pnameIn_ok_iff.2 ⟨fam, [], giv, ⟨rfl, Or.inl rfl, hs.fam_mem, hs.giv_mem⟩, hstor, rfl⟩

/-- the family name `Aaa…a`, with `n` small letters -/
def longFamily (n : ℕ) : List UInt8 := 65 :: List.replicate n 97

/-- `Aaa…a,Bb` -/
def longName (n : ℕ) : CString where
  bytes := longFamily n ++ comma :: [66, 98]
  nul_free := by simp [longFamily, comma]

theorem longName_splits (hn : n ≠ 0) : Splits (longName n).bytes (longFamily n) [] [66, 98] where
  str_eq := rfl
  sp_cases := Or.inl rfl
  fam_mem := by
    refine sepBy1_one
      (mem_word.2 ⟨65, List.replicate n 97, rfl, by decide, by simpa using hn, fun x hx => ?_⟩)
    rw [eq_of_mem_replicate hx]
    decide
  giv_mem := sepBy1_one (mem_word.2 ⟨66, [98], rfl, by decide, by decide, by decide +kernel⟩)

theorem longName_too_long (hn : n ≠ 0) (h : maxAllocSize < n + 9) (x : PersonName) :
    pnameIn (longName n) ≠ .ok x := by
  have hlen : (longFamily n ++ comma :: [66, 98]).length = n + 4 := by simp [longFamily]
  have hbig : ¬ Storable (longFamily n ++ comma :: [66, 98]) := by
    rw [Storable, varhdrsz]
    omega
  rw [pnameIn_of_splits (longName_splits hn)]
  split_ifs <;> exact fun h => by cases h

/-- A name as long as a text value can be: it has the right form, and is not accepted
because its terminator no longer fits behind the header. -/
theorem pnameIn_longest_text :
    (longName (2 ^ 30 - 9)).strlen = 2 ^ 30 - 5 ∧
    (∃ fam sp giv, Splits (longName (2 ^ 30 - 9)).bytes fam sp giv) ∧
      ¬ ∃ x, pnameIn (longName (2 ^ 30 - 9)) = .ok x := by
  have hlen : ∀ n, (longName n).strlen = n + 4 := fun n => by simp [longName, longFamily, CString.strlen]
  refine ⟨by rw [hlen]; omega, ⟨_, _, _, longName_splits (by decide)⟩, ?_⟩
  rintro ⟨x, hx⟩
  exact longName_too_long (by decide) (by decide) x hx

end Pg.Pname
