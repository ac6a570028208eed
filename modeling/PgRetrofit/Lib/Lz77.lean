import Mathlib.Tactic

/-! Texts written as literals and copies of what came before. A copy may overlap itself: it
is made value by value. -/

namespace Lz77

variable {β : Type*} {source : List β} {pos off len e : ℕ}

inductive Item (β : Type*)
  | literal (b : β)
  | copy (off len : ℕ)

def Item.size : Item β → ℕ
  | .literal _ => 1
  | .copy _ len => len

/-- From `pos` on, the text is for `len` values the same as `off` values before. -/
structure Repeats (source : List β) (pos off len : ℕ) : Prop where
  pos_off : 0 < off
  off_le : off ≤ pos
  le_length : pos + len ≤ source.length
  eq : ∀ i < len, source[pos + i]? = source[pos + i - off]?

/-- The item is right for the text at `pos`. -/
def Item.Fits (source : List β) (pos : ℕ) : Item β → Prop
  | .literal b => source[pos]? = some b
  | .copy off len => 0 < len ∧ Repeats source pos off len

/-- The items are the text from `pos` to `e`. -/
def Parses (source : List β) : ℕ → List (Item β) → ℕ → Prop
  | pos, [], e => e = pos
  | pos, item :: items, e => item.Fits source pos ∧ Parses source (pos + item.size) items e

variable {item : Item β}

theorem Item.Fits.size_pos (h : item.Fits source pos) : 0 < item.size := by
  cases item with
  | literal b => exact Nat.one_pos
  | copy off len => exact h.1

theorem Item.Fits.le_length (h : item.Fits source pos) : pos + item.size ≤ source.length := by
  cases item with
  | literal b =>
    obtain ⟨hlt, -⟩ := List.getElem?_eq_some_iff.1 h
    exact hlt
  | copy off len => exact h.2.le_length

theorem parses_append {items1 items2 : List (Item β)} :
    Parses source pos (items1 ++ items2) e ↔
      ∃ m, Parses source pos items1 m ∧ Parses source m items2 e := by
  induction items1 generalizing pos with
  | nil => exact ⟨fun h => ⟨pos, rfl, h⟩, fun ⟨m, hm, h⟩ => hm ▸ h⟩
  | cons item items1 ih => ?_
  rw [List.cons_append, Parses, ih]
  constructor
  · rintro ⟨hfit, m, h1, h2⟩
    exact ⟨m, ⟨hfit, h1⟩, h2⟩
  · rintro ⟨m, ⟨hfit, h1⟩, h2⟩
    exact ⟨hfit, m, h1, h2⟩

variable {items : List (Item β)} (h : Parses source pos items e)
include h

theorem Parses.snoc (hfit : item.Fits source e) :
    Parses source pos (items ++ [item]) (e + item.size) := parses_append.2 ⟨e, h, hfit, rfl⟩

theorem Parses.le : pos ≤ e := by
  induction items generalizing pos with
  | nil => exact Nat.le_of_eq h.symm
  | cons item items ih => exact Nat.le_trans (Nat.le_add_right _ _) (ih h.2)

theorem Parses.lt (hne : 0 < items.length) : pos < e := by
  cases items with
  | nil => exact absurd hne (Nat.lt_irrefl 0)
  | cons item items => exact Nat.lt_of_lt_of_le (Nat.lt_add_of_pos_right h.1.size_pos) h.2.le

theorem Parses.le_length (hpos : pos ≤ source.length) : e ≤ source.length := by
  induction items generalizing pos with
  | nil => exact h ▸ hpos
  | cons item items ih => exact ih h.2 h.1.le_length

omit h

/-- Where a text repeats itself, the next value is one that has been seen. -/
theorem Repeats.next (h : Repeats source pos off len) {i : ℕ} (hi : i < len) :
    ∃ b, (source.take (pos + i))[(source.take (pos + i)).length - off]? = some b ∧
      source.take (pos + i) ++ [b] = source.take (pos + i + 1) := by
  have hle := h.le_length
  have hoff := h.off_le
  have hpos := h.pos_off
  have hlt : pos + i < source.length := by omega
  refine ⟨source[pos + i], ?_, List.take_append_getElem hlt⟩
  rw [List.length_take_of_le (Nat.le_of_lt hlt), List.getElem?_take_of_lt (by omega), ← h.eq i hi,
    List.getElem?_eq_getElem hlt]

theorem take_literal {b : β} (h : source[pos]? = some b) :
    source.take pos ++ [b] = source.take (pos + 1) := by
  obtain ⟨hlt, rfl⟩ := List.getElem?_eq_some_iff.1 h
  exact List.take_append_getElem hlt

end Lz77
