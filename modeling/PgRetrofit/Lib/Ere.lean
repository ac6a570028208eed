import Mathlib.Computability.RegularExpressions

/-! The operators of POSIX extended regular expressions that Mathlib's regular
expressions lack, with the language each stands for. -/

namespace Ere

open RegularExpression List Language

variable {α : Type*} {r : RegularExpression α}

/-- a bracket expression -/
def oneOf (bs : List α) : RegularExpression α := bs.foldr (fun b r => char b + r) 0

/-- `r?` -/
def opt (r : RegularExpression α) : RegularExpression α := r + 1

/-- `r+` -/
def many1 (r : RegularExpression α) : RegularExpression α := r * r.star

/-- one or more `r`, separated by `sep` -/
def sepBy1 (r sep : RegularExpression α) : RegularExpression α := r * (sep * r).star

theorem mem_oneOf {bs s : List α} : s ∈ (oneOf bs).matches' ↔ ∃ b ∈ bs, s = [b] := by
  induction bs with
  | nil => exact ⟨fun h => h.elim, fun ⟨_, h, _⟩ => absurd h not_mem_nil⟩
  | cons b bs ih =>
    change s ∈ (char b).matches' + (oneOf bs).matches' ↔ _
    rw [mem_add, ih]
    exact (exists_mem_cons_iff (fun c => s = [c]) b bs).symm

theorem mem_opt {s : List α} : s ∈ (opt r).matches' ↔ s ∈ r.matches' ∨ s = [] := by
  rw [opt, matches'_add, mem_add, matches'_epsilon, mem_one]

theorem mem_many1 {s : List α} :
    s ∈ (many1 r).matches' ↔ ∃ L : List (List α), L ≠ [] ∧ s = L.flatten ∧ ∀ y ∈ L, y ∈ r.matches' := by
  constructor
  · rintro ⟨a, ha, b, hb, rfl⟩
    obtain ⟨L, rfl, hL⟩ := mem_kstar.1 hb
    exact ⟨a :: L, cons_ne_nil a L, rfl, forall_mem_cons.2 ⟨ha, hL⟩⟩
  rintro ⟨L, hne, rfl, hL⟩
  cases L with
  | nil => exact absurd rfl hne
  | cons a L =>
    obtain ⟨ha, hL⟩ := forall_mem_cons.1 hL
    exact ⟨a, ha, L.flatten, mem_kstar.2 ⟨L, rfl, hL⟩, rfl⟩

section SepBy1

variable {r sep : RegularExpression α}

theorem sepBy1_one {a : List α} (ha : a ∈ r.matches') : a ∈ (sepBy1 r sep).matches' :=
  mem_mul.2 ⟨a, ha, [], nil_mem_kstar _, append_nil a⟩

theorem sepBy1_snoc {s b a : List α} (hs : s ∈ (sepBy1 r sep).matches') (hb : b ∈ sep.matches')
    (ha : a ∈ r.matches') : s ++ b ++ a ∈ (sepBy1 r sep).matches' := by
  obtain ⟨c, hc, d, hd, rfl⟩ := mem_mul.1 hs
  obtain ⟨L, rfl, hL⟩ := mem_kstar.1 hd
  have hba : b ++ a ∈ (sep * r).matches' := append_mem_mul hb ha
  refine mem_mul.2 ⟨c, hc, (L ++ [b ++ a]).flatten, mem_kstar.2 ⟨_, rfl, ?_⟩, by simp⟩
  exact forall_mem_append.2 ⟨hL, forall_mem_singleton.2 hba⟩

/-- Every separated sequence is built up from the left, one item at a time. -/
theorem sepBy1_induction {P : List α → Prop} (one : ∀ a, a ∈ r.matches' → P a)
    (snoc : ∀ s b a, s ∈ (sepBy1 r sep).matches' → P s → b ∈ sep.matches' →
      a ∈ r.matches' → P (s ++ b ++ a))
    {s : List α} (hs : s ∈ (sepBy1 r sep).matches') : P s := by
  obtain ⟨c, hc, d, hd, rfl⟩ := mem_mul.1 hs
  obtain ⟨L, rfl, hL⟩ := mem_kstar.1 hd
  clear hd hs
  suffices h : c ++ L.flatten ∈ (sepBy1 r sep).matches' ∧ P (c ++ L.flatten) from h.2
  induction L using reverseRecOn with
  | nil =>
    rw [flatten_nil, append_nil]
    exact ⟨sepBy1_one hc, one c hc⟩
  | append_singleton L e ih => ?_
  obtain ⟨hinit, he⟩ := forall_mem_append.1 hL
  obtain ⟨b, hb, a, ha, rfl⟩ := mem_mul.1 (forall_mem_singleton.1 he)
  obtain ⟨hmem, hP⟩ := ih hinit
  have heq : c ++ (L ++ [b ++ a]).flatten = c ++ L.flatten ++ b ++ a := by simp
  rw [heq]
  exact ⟨sepBy1_snoc hmem hb ha, snoc _ b a hmem hP hb ha⟩

/-- If two items in a row make one item, a repetition with an optional separator is
a separated sequence, up to a separator at its end. -/
theorem mem_many1_opt_sep (habs : ∀ a b, a ∈ r.matches' → b ∈ r.matches' → a ++ b ∈ r.matches')
    {s : List α} :
    s ∈ (many1 (r * opt sep)).matches' ↔
      s ∈ (sepBy1 r sep).matches' ∨
      ∃ t b, t ∈ (sepBy1 r sep).matches' ∧ b ∈ sep.matches' ∧ s = t ++ b := by
  -- an item after a finished sequence is absorbed by the sequence's last item
  have hjoin : ∀ {t a}, t ∈ (sepBy1 r sep).matches' → a ∈ r.matches' →
      t ++ a ∈ (sepBy1 r sep).matches' := by
    intro t a ht ha
    refine sepBy1_induction (fun c hc => sepBy1_one (habs c a hc ha)) (fun u b c hu _ hb hc => ?_) ht
    rw [append_assoc]
    exact sepBy1_snoc hu hb (habs c a hc ha)
  constructor
  · intro hs
    obtain ⟨L, hne, rfl, hL⟩ := mem_many1.1 hs
    clear hs
    induction L using reverseRecOn with
    | nil => exact absurd rfl hne
    | append_singleton L e ih => ?_
    obtain ⟨hinit, he⟩ := forall_mem_append.1 hL
    obtain ⟨a, ha, o, ho, rfl⟩ := mem_mul.1 (forall_mem_singleton.1 he)
    have hlast : ∀ u, u ∈ (sepBy1 r sep).matches' → u ++ o ∈ (sepBy1 r sep).matches' ∨
        ∃ t b, t ∈ (sepBy1 r sep).matches' ∧ b ∈ sep.matches' ∧ u ++ o = t ++ b := by
      intro u hu
      rcases mem_opt.1 ho with hb | rfl
      · exact Or.inr ⟨u, o, hu, hb, rfl⟩
      · rw [append_nil]
        exact Or.inl hu
    have heq : (L ++ [a ++ o]).flatten = L.flatten ++ a ++ o := by simp
    rw [heq]
    rcases eq_nil_or_concat L with rfl | ⟨L', x, rfl⟩
    · exact hlast _ (sepBy1_one ha)
    rcases ih (by simp) hinit with h | ⟨t, b, ht, hb, h⟩
    · exact hlast _ (hjoin h ha)
    · rw [h]
      exact hlast _ (sepBy1_snoc ht hb ha)
  · have hmany : ∀ {t}, t ∈ (sepBy1 r sep).matches' → ∀ o, o ∈ (opt sep).matches' →
        t ++ o ∈ (many1 (r * opt sep)).matches' := by
      intro t ht
      refine sepBy1_induction
        (P := fun t => ∀ o, o ∈ (opt sep).matches' → t ++ o ∈ (many1 (r * opt sep)).matches')
        (fun a ha o ho => ?_) (fun u b a _ ih hb ha o ho => ?_) ht
      · exact mem_many1.2 ⟨[a ++ o], by simp, by simp,
          forall_mem_singleton.2 (append_mem_mul ha ho)⟩
      · obtain ⟨L, hne, hLf, hL⟩ := mem_many1.1 (ih b (mem_opt.2 (Or.inl hb)))
        refine mem_many1.2 ⟨L ++ [a ++ o], by simp, by simp [hLf], ?_⟩
        exact forall_mem_append.2 ⟨hL, forall_mem_singleton.2 (append_mem_mul ha ho)⟩
    rintro (hs | ⟨t, b, ht, hb, rfl⟩)
    · have := hmany hs [] (mem_opt.2 (Or.inr rfl))
      rwa [append_nil] at this
    · exact hmany ht b (mem_opt.2 (Or.inl hb))

end SepBy1

end Ere
