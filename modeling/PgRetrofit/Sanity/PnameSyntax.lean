import PgRetrofit.Spec.Pname

/-! The checks of `valid_name`, put together: which strings pass all of them. -/

namespace Pg.Pname

open RegularExpression Ere List

/-- `W(' 'W)*` -/
def names : RegularExpression UInt8 := sepBy1 word blank

theorem mem_word {w : List UInt8} :
    w ∈ word.matches' ↔ ∃ c cs, w = c :: cs ∧ c ∈ upper ∧ cs ≠ [] ∧ ∀ x ∈ cs, x ∈ nameChar := by
  constructor
  · rintro ⟨a, ha, b, hb, rfl⟩
    obtain ⟨c, hc, rfl⟩ := mem_oneOf.1 ha
    obtain ⟨L, hne, rfl, hL⟩ := mem_many1.1 hb
    refine ⟨c, L.flatten, rfl, hc, fun h => ?_, fun x hx => ?_⟩
    · obtain ⟨y, hy⟩ := exists_mem_of_ne_nil L hne
      obtain ⟨d, -, rfl⟩ := mem_oneOf.1 (hL y hy)
      exact absurd (flatten_eq_nil_iff.1 h [d] hy) (cons_ne_nil d [])
    · obtain ⟨y, hy, hxy⟩ := mem_flatten.1 hx
      obtain ⟨d, hd, rfl⟩ := mem_oneOf.1 (hL y hy)
      exact mem_singleton.1 hxy ▸ hd
  · rintro ⟨c, cs, rfl, hc, hne, hcs⟩
    refine ⟨[c], mem_oneOf.2 ⟨c, hc, rfl⟩, cs,
      mem_many1.2 ⟨cs.map fun x => [x], by simpa using hne, ?_, ?_⟩, rfl⟩
    · rw [← flatMap_def, flatMap_singleton']
    · intro y hy
      obtain ⟨x, hx, rfl⟩ := mem_map.1 hy
      exact mem_oneOf.2 ⟨x, hcs x hx, rfl⟩

theorem mem_blank {b : List UInt8} : b ∈ blank.matches' ↔ b = [space] := by
  rw [blank, mem_oneOf]
  exact ⟨fun ⟨c, hc, h⟩ => mem_singleton.1 hc ▸ h, fun h => ⟨space, mem_singleton_self _, h⟩⟩

theorem nameChar_of_upper {c : UInt8} (h : c ∈ upper) : c ∈ nameChar := by
  simp only [nameChar, mem_cons, mem_append]
  exact Or.inl (Or.inr h)

theorem word_absorb (a b : List UInt8) (ha : a ∈ word.matches') (hb : b ∈ word.matches') :
    a ++ b ∈ word.matches' := by
  obtain ⟨c, cs, rfl, hc, hne, hcs⟩ := mem_word.1 ha
  obtain ⟨d, ds, rfl, hd, -, hds⟩ := mem_word.1 hb
  refine mem_word.2 ⟨c, cs ++ d :: ds, rfl, hc, by simp, ?_⟩
  exact forall_mem_append.2 ⟨hcs, forall_mem_cons.2 ⟨nameChar_of_upper hd, hds⟩⟩

theorem nameChar_spec : ∀ c ∈ nameChar, c ≠ comma ∧ c ≠ space ∧ c ≠ 0 ∧ isspace c = false := by
  decide +kernel

/-- What the checks around the expressions look at. -/
structure Proper (s : List UInt8) : Prop where
  head : ∃ c cs, s = c :: cs ∧ c ∈ nameChar
  last : ∃ c, s.getLast? = some c ∧ c ∈ nameChar
  bytes : ∀ c ∈ s, c ∈ nameChar ∨ c = space

theorem proper_of_word {w : List UInt8} (h : w ∈ word.matches') : Proper w := by
  obtain ⟨c, cs, rfl, hc, hne, hcs⟩ := mem_word.1 h
  refine ⟨⟨c, cs, rfl, nameChar_of_upper hc⟩, ?_, ?_⟩
  · obtain ⟨init, d, rfl⟩ := eq_nil_or_concat cs |>.resolve_left hne
    refine ⟨d, ?_, hcs d (by simp)⟩
    rw [concat_eq_append, ← cons_append, getLast?_concat]
  · exact forall_mem_cons.2 ⟨Or.inl (nameChar_of_upper hc), fun x hx => Or.inl (hcs x hx)⟩

variable {s : List UInt8}

theorem proper_of_names (h : s ∈ names.matches') : Proper s := by
  refine sepBy1_induction (fun a ha => proper_of_word ha) (fun s b a _ hs hb ha => ?_) h
  obtain rfl := mem_blank.1 hb
  obtain ⟨⟨c, cs, rfl, hc⟩, -, hbytes⟩ := hs
  obtain ⟨-, ⟨d, hd, hdn⟩, habytes⟩ := proper_of_word ha
  refine ⟨⟨c, cs ++ [space] ++ a, rfl, hc⟩, ⟨d, ?_, hdn⟩, fun x hx => ?_⟩
  · rw [getLast?_append, hd]
    rfl
  simp only [mem_append, mem_singleton] at hx
  rcases hx with (hx | hx) | hx
  · exact hbytes x hx
  · exact Or.inr hx
  · exact habytes x hx

theorem Proper.not_comma (h : Proper s) : comma ∉ s := by
  intro hc
  rcases h.bytes _ hc with h | h
  · exact (nameChar_spec _ h).1 rfl
  · exact absurd h (by decide)

theorem Proper.lastByte_ne (h : Proper s) : lastByte s ≠ space := by
  obtain ⟨c, hc, hn⟩ := h.last
  rw [lastByte, hc]
  exact (nameChar_spec c hn).2.1

variable (hlast : lastByte s ≠ space)
include hlast

/-- The repetition with an optional blank, for a string that does not end in one. -/
theorem mem_units_iff : s ∈ (many1 (word * opt blank)).matches' ↔ s ∈ names.matches' := by
  rw [mem_many1_opt_sep word_absorb]
  refine ⟨?_, Or.inl⟩
  rintro (h | ⟨t, b, -, hb, rfl⟩)
  · exact h
  · obtain rfl := mem_blank.1 hb
    exact absurd (by simp [lastByte]) hlast

theorem checkFamilyName_iff : checkFamilyName s = true ↔ s ∈ names.matches' := by
  rw [checkFamilyName, regexMatch, rmatch_iff_matches', mem_units_iff hlast]

theorem checkGivenName_iff :
    checkGivenName s = true ↔ ∃ sp g, (sp = [] ∨ sp = [space]) ∧ g ∈ names.matches' ∧ s = sp ++ g := by
  rw [checkGivenName, regexMatch, rmatch_iff_matches', matches'_mul]
  constructor
  · rintro ⟨sp, hsp, g, hg, rfl⟩
    have hsp' : sp = [] ∨ sp = [space] := (mem_opt.1 hsp).symm.imp id mem_blank.1
    refine ⟨sp, g, hsp', (mem_units_iff fun hg' => hlast ?_).1 hg, rfl⟩
    rcases hsp' with rfl | rfl
    · exact hg'
    rw [lastByte] at hg'
    rw [lastByte, getLast?_append]
    cases hl : g.getLast? with
    | none =>
      rw [hl] at hg'
      exact absurd hg' (by decide)
    | some c =>
      rw [hl] at hg'
      exact hg'
  · rintro ⟨sp, g, hsp, hg, rfl⟩
    exact ⟨sp, mem_opt.2 (hsp.symm.imp mem_blank.2 id), g,
      (mem_units_iff (proper_of_names hg).lastByte_ne).2 hg, rfl⟩

omit hlast

theorem strtokR_comma {fam rest : List UInt8} (hne : fam ≠ []) (hfam : comma ∉ fam) :
    strtokR comma (fam ++ comma :: rest) = some (fam, rest) := by
  have hall : ∀ x ∈ fam, (x != comma) = true := fun x hx => by
    rw [bne_iff_ne]
    rintro rfl
    exact hfam hx
  cases fam with
  | nil => exact absurd rfl hne
  | cons c cs => ?_
  have hc : (c == comma) = false := by simpa using hall c (mem_cons_self ..)
  have hdrop : ((c :: cs) ++ comma :: rest).dropWhile (· == comma) = c :: (cs ++ comma :: rest) := by
    rw [cons_append, dropWhile_cons_of_neg (by simp [hc])]
  rw [strtokR, hdrop]
  simp only
  rw [← cons_append, takeWhile_append_of_pos hall, dropWhile_append_of_pos hall]
  simp

theorem exists_split {str : List UInt8} (hmem : comma ∈ str) (hhead : str.head? ≠ some comma) :
    ∃ fam rest, str = fam ++ comma :: rest ∧ fam ≠ [] ∧ comma ∉ fam := by
  obtain ⟨fam, rest, rfl, hfam⟩ := eq_append_cons_of_mem hmem
  refine ⟨fam, rest, rfl, ?_, hfam⟩
  rintro rfl
  exact hhead rfl

/-- A name in the form the type accepts, with its parts. -/
structure Splits (str fam sp giv : List UInt8) : Prop where
  str_eq : str = fam ++ comma :: (sp ++ giv)
  sp_cases : sp = [] ∨ sp = [space]
  fam_mem : fam ∈ names.matches'
  giv_mem : giv ∈ names.matches'

theorem Splits.strtokR {str fam sp giv : List UInt8} (h : Splits str fam sp giv) :
    strtokR comma str = some (fam, sp ++ giv) := by
  have hfam := proper_of_names h.fam_mem
  obtain ⟨c, cs, rfl, -⟩ := hfam.head
  rw [h.str_eq]
  exact strtokR_comma (cons_ne_nil c cs) hfam.not_comma

theorem splits_iff {fam rest : List UInt8} (hne : fam ≠ []) (hfam : comma ∉ fam) :
    (∃ f sp giv, Splits (fam ++ comma :: rest) f sp giv) ↔
      fam.head? ≠ some space ∧ ¬ (lastByte fam = space ∨ lastByte rest = space) ∧
        ¬ (checkFamilyName fam = false ∨ checkGivenName rest = false) := by
  constructor
  · rintro ⟨f, sp, giv, h⟩
    obtain ⟨rfl, rfl⟩ := Prod.mk.inj (Option.some.inj ((strtokR_comma hne hfam).symm.trans h.strtokR))
    have hf := proper_of_names h.fam_mem
    obtain ⟨d, hd, hdn⟩ := (proper_of_names h.giv_mem).last
    have hlast : lastByte (sp ++ giv) ≠ space := by
      rw [lastByte, getLast?_append, hd]
      exact (nameChar_spec d hdn).2.1
    refine ⟨?_, not_or.2 ⟨hf.lastByte_ne, hlast⟩, ?_⟩
    · obtain ⟨c, cs, rfl, hc⟩ := hf.head
      exact fun hs => (nameChar_spec c hc).2.1 (Option.some.inj hs)
    · rw [(checkFamilyName_iff hf.lastByte_ne).2 h.fam_mem,
        (checkGivenName_iff hlast).2 ⟨sp, giv, h.sp_cases, h.giv_mem, rfl⟩]
      decide
  · rintro ⟨-, hlast, hcheck⟩
    simp only [not_or, Bool.not_eq_false] at hlast hcheck
    obtain ⟨sp, g, hsp, hg, rfl⟩ := (checkGivenName_iff hlast.2).1 hcheck.2
    exact ⟨fam, sp, g, rfl, hsp, (checkFamilyName_iff hlast.1).1 hcheck.1, hg⟩

theorem validName_iff (str : List UInt8) :
    ∃ b, validName str = .ok b ∧ (b = true ↔ ∃ fam sp giv, Splits str fam sp giv) := by
  by_cases hmem : comma ∈ str
  swap
  · refine ⟨false, if_pos hmem, by simp, ?_⟩
    rintro ⟨fam, sp, giv, h⟩
    exact absurd (by simp [h.str_eq]) hmem
  by_cases hhead : str.head? = some comma
  · refine ⟨false, by rw [validName, if_neg (not_not.2 hmem), if_pos hhead], by simp, ?_⟩
    rintro ⟨fam, sp, giv, h⟩
    obtain ⟨c, cs, rfl, hc⟩ := (proper_of_names h.fam_mem).head
    rw [h.str_eq] at hhead
    exact absurd (Option.some.inj hhead) (nameChar_spec c hc).1
  obtain ⟨fam, rest, rfl, hne, hfam⟩ := exists_split hmem hhead
  rw [validName, strtokR_comma hne hfam, splits_iff hne hfam]
  simp only
  split_ifs with h1 h2 h3
  · exact ⟨false, rfl, by simp, fun h => absurd h1 h.1⟩
  · exact ⟨false, rfl, by simp, fun h => absurd h2 h.2.1⟩
  · exact ⟨false, rfl, by simp, fun h => absurd h3 h.2.2⟩
  · exact ⟨true, rfl, fun _ => ⟨h1, h2, h3⟩, fun _ => rfl⟩

end Pg.Pname
