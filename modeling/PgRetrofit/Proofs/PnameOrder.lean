import PgRetrofit.Proofs.Pname

/-! Comparison and hashing of stored names: `pname_cmp` is the lexicographic order of
family name and given name, and the operators and the hash agree with it. -/

namespace Pg.Pname

open List UInt8

/-- a value that has come out of `pname_in` -/
def Produced (x : PersonName) : Prop := ∃ str, pnameIn str = .ok x

/-- the bytes up to the first comma -/
def familyOf (x : PersonName) : List ℕ := (x.name.takeWhile (· != comma)).map UInt8.toNat

/-- the bytes after it, without the terminator -/
def givenOf (x : PersonName) : List ℕ :=
  ((x.name.dropWhile (· != comma)).drop 1).dropLast.map UInt8.toNat

/-- Family name first, given name second. -/
def key (x : PersonName) : List ℕ ×ₗ List ℕ := toLex (familyOf x, givenOf x)

theorem strcmp_neg (a b : List UInt8) : strcmp b a = -strcmp a b := by
  induction a generalizing b with
  | nil => cases b <;> simp [strcmp]
  | cons x a ih => ?_
  cases b with
  | nil => simp [strcmp]
  | cons y b => ?_
  rw [strcmp, strcmp]
  by_cases h : x = y
  · rw [if_pos h, if_pos h.symm, ih]
  · rw [if_neg h, if_neg (Ne.symm h)]
    omega

theorem strcmp_self (a : List UInt8) : strcmp a a = 0 := by
  have := strcmp_neg a a
  omega

theorem toNat_pos {x : UInt8} (h : x ≠ 0) : 0 < x.toNat := by
  rw [Nat.pos_iff_ne_zero]
  exact fun h0 => h (UInt8.toNat_inj.1 h0)

theorem map_toNat_injective : Function.Injective (List.map toNat) :=
  map_injective_iff.2 fun _ _ => UInt8.toNat_inj.1

theorem strcmp_lt_iff {a b : List UInt8} (hb : 0 ∉ b) : strcmp a b < 0 ↔ a.map toNat < b.map toNat := by
  induction a generalizing b with
  | nil =>
    cases b with
    | nil => simp [strcmp]
    | cons y b =>
      have hy := toNat_pos fun h => hb (h ▸ mem_cons_self ..)
      simp only [strcmp, map_nil, map_cons, nil_lt_cons, iff_true]
      omega
  | cons x a ih =>
    cases b with
    | nil =>
      simp only [strcmp, map_nil, not_lt_nil, iff_false]
      omega
    | cons y b => ?_
    rw [map_cons, map_cons, cons_lt_cons_iff, strcmp]
    by_cases h : x = y
    · subst h
      rw [if_pos rfl, ih fun h => hb (mem_cons_of_mem _ h)]
      simp
    · have hne : x.toNat ≠ y.toNat := fun h' => h (UInt8.toNat_inj.1 h')
      rw [if_neg h]
      omega

theorem strcmp_eq_zero_iff {a b : List UInt8} (ha : 0 ∉ a) (hb : 0 ∉ b) : strcmp a b = 0 ↔ a = b := by
  constructor
  · intro h
    have h1 := (strcmp_lt_iff (a := a) hb).not.1 (by omega)
    have h2 := (strcmp_lt_iff (a := b) ha).not.1 (by rw [strcmp_neg]; omega)
    exact map_toNat_injective (le_antisymm (not_lt.1 h2) (not_lt.1 h1))
  · rintro rfl
    exact strcmp_self a

structure Parts (x : PersonName) (fam giv : List UInt8) : Prop where
  splits : Splits (fam ++ comma :: giv) fam [] giv
  storable : Storable (fam ++ comma :: giv)
  eq : x = stored (fam ++ comma :: giv)

theorem Produced.parts {x : PersonName} (h : Produced x) : ∃ fam giv, Parts x fam giv := by
  obtain ⟨str, hstr⟩ := h
  obtain ⟨fam, sp, giv, hs, hstor, rfl⟩ := pnameIn_ok_iff.1 hstr
  exact ⟨fam, giv, ⟨rfl, Or.inl rfl, hs.fam_mem, hs.giv_mem⟩, hstor, rfl⟩

section Parts

variable {x y : PersonName} {fam giv fam' giv' : List UInt8} (h : Parts x fam giv)
include h

theorem Parts.nul_free : 0 ∉ fam ∧ 0 ∉ giv := by
  have := h.splits.nul_free
  simp only [mem_append, mem_cons, not_or] at this
  exact ⟨this.1, this.2.2⟩

theorem Parts.splitName_eq : splitName x = .ok (fam, giv) := by
  rw [splitName, h.eq, copyName_stored h.storable h.splits.nul_free]
  simp only [Except.bind, readCString_append h.splits.nul_free, h.splits.strtokR]
  rfl

theorem Parts.key_eq : key x = toLex (fam.map toNat, giv.map toNat) := by
  have hall : ∀ c ∈ fam, (c != comma) = true := fun c hc => by
    rw [bne_iff_ne]
    rintro rfl
    exact (proper_of_names h.splits.fam_mem).not_comma hc
  have hname : x.name = fam ++ (comma :: giv ++ [0]) := by simp [h.eq, stored]
  rw [key, familyOf, givenOf, hname, takeWhile_append_of_pos hall, dropWhile_append_of_pos hall]
  simp

variable (h' : Parts y fam' giv')
include h'

theorem Parts.key_inj : key x = key y ↔ x = y := by
  refine ⟨fun he => ?_, fun he => he ▸ rfl⟩
  rw [h.key_eq, h'.key_eq] at he
  obtain ⟨h1, h2⟩ := Prod.mk.inj (toLex.injective he)
  rw [h.eq, h'.eq, map_toNat_injective h1, map_toNat_injective h2]

theorem Parts.pnameCmp_sign :
    ∃ c, pnameCmp x y = .ok c ∧ (c < 0 ↔ key x < key y) ∧ (0 < c ↔ key y < key x) := by
  obtain ⟨hf, hg⟩ := h.nul_free
  obtain ⟨hf', hg'⟩ := h'.nul_free
  have hpos : ∀ {a b : List UInt8}, 0 ∉ a → (0 < strcmp a b ↔ b.map toNat < a.map toNat) := by
    intro a b ha
    rw [← strcmp_lt_iff ha, strcmp_neg]
    omega
  rw [h.key_eq, h'.key_eq, Prod.Lex.toLex_lt_toLex, Prod.Lex.toLex_lt_toLex]
  simp only [pnameCmp, h.splitName_eq, h'.splitName_eq, Except.bind]
  by_cases heq : strcmp fam fam' = 0
  · obtain rfl := (strcmp_eq_zero_iff hf hf').1 heq
    rw [if_pos heq]
    refine ⟨_, rfl, ?_, ?_⟩
    · simp [strcmp_lt_iff hg']
    · simp [hpos hg]
  · have hne : fam ≠ fam' := fun he => heq ((strcmp_eq_zero_iff hf hf').2 he)
    rw [if_neg heq]
    refine ⟨_, rfl, ?_, ?_⟩
    · simp [strcmp_lt_iff hf', map_toNat_injective.eq_iff, hne]
    · simp [hpos hf, map_toNat_injective.eq_iff, hne.symm]

theorem Parts.pnameCmp_spec :
    ∃ c, pnameCmp x y = .ok c ∧ (c < 0 ↔ key x < key y) ∧ (c = 0 ↔ x = y) ∧ (0 < c ↔ key y < key x) := by
  obtain ⟨c, hc, hlt, hgt⟩ := h.pnameCmp_sign h'
  refine ⟨c, hc, hlt, ?_, hgt⟩
  have hkeys : key x = key y ↔ ¬ key y < key x ∧ ¬ key x < key y := by
    rw [not_lt, not_lt]
    exact le_antisymm_iff
  rw [← h.key_inj h', hkeys, ← hlt, ← hgt]
  omega

omit h'

theorem Parts.pnameOwnHash_eq (hashAny : List UInt8 → UInt32) :
    pnameOwnHash hashAny x = .ok (hashAny x.name) := by
  have hlen : (fam ++ comma :: giv ++ [0]).length = (fam ++ comma :: giv).length + 1 := length_append ..
  rw [pnameOwnHash, h.eq, copyName_stored h.storable h.splits.nul_free, exhdr_stored h.storable]
  simp only [Except.bind]
  rw [if_pos hlen, stored]

end Parts

/-- On produced values the comparison is the order of the keys, so it is total; zero
means identical, the six operators are those of the order, and equal names hash alike. -/
theorem pnameCmp_totalOrder {x y z : PersonName} (hx : Produced x) (hy : Produced y) (hz : Produced z) :
    (∃ c, pnameCmp x y = .ok c ∧ (c < 0 ↔ key x < key y) ∧ (c = 0 ↔ x = y) ∧ (0 < c ↔ key y < key x)) ∧
    pnameCmp x x = .ok 0 ∧
    (∃ c d, pnameCmp x y = .ok c ∧ pnameCmp y x = .ok d ∧ d.sign = -c.sign) ∧
    (∃ c d e, pnameCmp x y = .ok c ∧ pnameCmp y z = .ok d ∧ pnameCmp x z = .ok e ∧
      (c ≤ 0 → d ≤ 0 → e ≤ 0)) ∧
    (pnameLess x y = .ok (decide (key x < key y)) ∧
      pnameLessEqual x y = .ok (decide (key x ≤ key y)) ∧
      pnameEqual x y = .ok (decide (x = y)) ∧
      pnameNotEqual x y = .ok (decide (x ≠ y)) ∧
      pnameBiggerEqual x y = .ok (decide (key y ≤ key x)) ∧
      pnameBigger x y = .ok (decide (key y < key x)) ∧
      pnameAbsCmp x y = pnameCmp x y) ∧
    ∀ hashAny : List UInt8 → UInt32, pnameEqual x y = .ok true →
      ∃ v, pnameOwnHash hashAny x = .ok v ∧ pnameOwnHash hashAny y = .ok v := by
  obtain ⟨famx, givx, px⟩ := hx.parts
  obtain ⟨famy, givy, py⟩ := hy.parts
  obtain ⟨famz, givz, pz⟩ := hz.parts
  obtain ⟨c, hc, hlt, heq, hgt⟩ := px.pnameCmp_spec py
  obtain ⟨d, hd, dlt, deq, dgt⟩ := py.pnameCmp_spec px
  obtain ⟨e, he, elt, -, egt⟩ := py.pnameCmp_spec pz
  obtain ⟨f, hf, flt, -, fgt⟩ := px.pnameCmp_spec pz
  obtain ⟨r, hr, -, req, -⟩ := px.pnameCmp_spec px
  refine ⟨⟨c, hc, hlt, heq, hgt⟩, ?_, ⟨c, d, hc, hd, ?_⟩, ⟨c, e, f, hc, he, hf, ?_⟩,
    ⟨?_, ?_, ?_, ?_, ?_, ?_, rfl⟩, ?_⟩
  · rw [hr, req.2 rfl]
  · rcases lt_trichotomy c 0 with h | h | h
    · rw [Int.sign_eq_neg_one_of_neg h, Int.sign_eq_one_of_pos (dgt.2 (hlt.1 h))]
      rfl
    · rw [h, deq.2 (heq.1 h).symm]
      rfl
    · rw [Int.sign_eq_one_of_pos h, Int.sign_eq_neg_one_of_neg (dlt.2 (hgt.1 h))]
  · intro h1 h2
    have h3 : key x ≤ key y := not_lt.1 (hgt.not.1 (by omega))
    have h4 : key y ≤ key z := not_lt.1 (egt.not.1 (by omega))
    have := fgt.not.2 (not_lt.2 (h3.trans h4))
    omega
  · simp [pnameLess, hc, Except.map, hlt]
  · simp [pnameLessEqual, hc, Except.map, ← not_lt, hgt]
  · simp [pnameEqual, hc, Except.map, heq]
  · simp [pnameNotEqual, hc, Except.map, heq]
  · simp [pnameBiggerEqual, hc, Except.map, ← not_lt, hlt]
  · simp [pnameBigger, hc, Except.map, hgt]
  · intro hashAny hequal
    have hxy : x = y := by simpa [pnameEqual, hc, Except.map, heq] using hequal
    exact ⟨hashAny x.name, px.pnameOwnHash_eq hashAny, hxy ▸ px.pnameOwnHash_eq hashAny⟩

/-- `Ab,Cd` and `Ab, Ce` -/
def nameCd : CString := ⟨[65, 98, 44, 67, 100], by decide⟩
def nameCe : CString := ⟨[65, 98, 44, 32, 67, 101], by decide⟩

theorem pnameCmp_totalOrder_example :
    Produced (stored [65, 98, 44, 67, 100]) ∧ Produced (stored [65, 98, 44, 67, 101]) ∧
      pnameLess (stored [65, 98, 44, 67, 100]) (stored [65, 98, 44, 67, 101]) = .ok true := by
  have h1 : Produced (stored [65, 98, 44, 67, 100]) := ⟨nameCd, rfl⟩
  have h2 : Produced (stored [65, 98, 44, 67, 101]) := ⟨nameCe, rfl⟩
  obtain ⟨-, -, -, -, ⟨hless, -⟩, -⟩ := pnameCmp_totalOrder h1 h2 h1
  exact ⟨h1, h2, hless⟩

end Pg.Pname
