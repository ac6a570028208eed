import PgRetrofit.Lib.Lz77
import PgRetrofit.Lib.Memory
import PgRetrofit.Lib.Result
import PgRetrofit.Spec.PgLzCompress

/-! The format of the compressed data: groups of eight items, each behind a control byte that
says which of them are tags. -/

namespace Pg.Pglz

open Lz77 Memory List Nat

variable {off len : ℕ} {item : Item UInt8} {items : List (Item UInt8)}

/-- A tag has 12 bits for the offset, and 4 or 12 for the length. -/
def Encodable : Item UInt8 → Prop
  | .literal _ => True
  | .copy off len => off < 4096 ∧ 2 < len ∧ len ≤ maxMatch

def itemBytes : Item UInt8 → List UInt8
  | .literal b => [b]
  | .copy off len =>
    if len > 17 then [tagByte off 0x0f, UInt8.ofNat (off &&& 0xff), UInt8.ofNat (len - 18)]
    else [tagByte off (len - 3), UInt8.ofNat (off &&& 0xff)]

def itemsBytes (items : List (Item UInt8)) : List UInt8 := items.flatMap itemBytes

def ctrlBit : Item UInt8 → ℕ
  | .literal _ => 0
  | .copy _ _ => 1

/-- The control byte has the bit for the first item as its lowest. -/
def ctrlNat : List (Item UInt8) → ℕ
  | [] => 0
  | item :: items => ctrlBit item + 2 * ctrlNat items

def ctrlByte (items : List (Item UInt8)) : UInt8 := UInt8.ofNat (ctrlNat items)

def encode (groups : List (List (Item UInt8))) : List UInt8 :=
  groups.flatMap fun g => ctrlByte g :: itemsBytes g

variable (item)

theorem itemBytes_length_pos : 0 < (itemBytes item).length := by
  cases item with
  | literal b => exact one_pos
  | copy off len =>
    rw [itemBytes]
    split_ifs <;> exact succ_pos _

theorem ctrlBit_le : ctrlBit item ≤ 1 := by
  cases item with
  | literal b => exact zero_le 1
  | copy off len => exact le_refl 1

variable {item}

variable (items)

theorem ctrlNat_lt : ctrlNat items < 2 ^ items.length := by
  induction items with
  | nil => exact one_pos
  | cons item items ih =>
    rw [ctrlNat, length_cons]
    have := ctrlBit_le item
    omega

theorem ctrlNat_snoc (item : Item UInt8) :
    ctrlNat (items ++ [item]) = 2 ^ items.length * ctrlBit item + ctrlNat items := by
  induction items with
  | nil =>
    rw [length_nil, pow_zero, one_mul]
    rfl
  | cons item' items ih =>
    rw [cons_append, ctrlNat, ih, ctrlNat, length_cons, pow_succ, mul_add, add_left_comm,
      ← mul_assoc, mul_comm 2 (2 ^ _)]

theorem ctrlByte_snoc_literal (b : UInt8) : ctrlByte (items ++ [.literal b]) = ctrlByte items := by
  rw [ctrlByte, ctrlNat_snoc, ctrlBit, mul_zero, zero_add, ctrlByte]

theorem ctrlByte_snoc_copy (off len : ℕ) :
    ctrlByte (items ++ [.copy off len]) = ctrlByte items ||| UInt8.ofNat (2 ^ items.length) := by
  rw [ctrlByte, ctrlNat_snoc, ctrlBit, two_pow_add_eq_or_of_lt (ctrlNat_lt items), mul_one,
    UInt8.ofNat_or, UInt8.or_comm, ctrlByte]

variable {items}

theorem ctrlByte_toNat (h : items.length ≤ 8) : (ctrlByte items).toNat = ctrlNat items := by
  have hlt := Nat.lt_of_lt_of_le (ctrlNat_lt items) (Nat.pow_le_pow_right Nat.two_pos h)
  exact UInt8.toNat_ofNat'.trans (mod_eq_of_lt hlt)

theorem ctrlByte_cons (h : (item :: items).length ≤ 8) :
    (ctrlByte (item :: items) &&& 1 ≠ 0 ↔ ctrlBit item = 1) ∧
      ctrlByte (item :: items) >>> 1 = ctrlByte items := by
  have hbit := ctrlBit_le item
  have hc := ctrlByte_toNat h
  rw [ctrlNat] at hc
  constructor
  · rw [ne_eq, ← UInt8.toNat_inj, UInt8.toNat_and, hc]
    have hmod : (ctrlBit item + 2 * ctrlNat items) &&& (2 ^ 1 - 1) = ctrlBit item := by
      rw [and_two_pow_sub_one_eq_mod]
      omega
    rw [show (1 : UInt8).toNat = 2 ^ 1 - 1 from rfl, hmod]
    show ¬ ctrlBit item = 0 ↔ _
    omega
  · rw [← UInt8.toNat_inj, UInt8.toNat_shiftRight, hc, ctrlByte_toNat (le_of_succ_le h)]
    show (ctrlBit item + 2 * ctrlNat items) >>> 1 = _
    omega

theorem tagByte_parts {nibble : ℕ} (hoff : off < 4096) (hnib : nibble < 16) :
    (tagByte off nibble &&& 0x0f).toNat = nibble ∧
    ((tagByte off nibble &&& 0xf0).toNat <<< 4) ||| (UInt8.ofNat (off &&& 0xff)).toNat = off := by
  -- the offset by its four high and eight low bits
  have hhi : off / 256 < 16 := by omega
  have hlo : off % 256 < 256 := mod_lt _ (by decide)
  have hsplit : off = 2 ^ 8 * (off / 256) ||| off % 256 := by
    rw [← two_pow_add_eq_or_of_lt hlo]
    exact (div_add_mod off 256).symm
  have hmaskHi : ∀ hi < 16, 2 ^ 8 * hi &&& 0xf00 = 2 ^ 8 * hi := by decide
  have hmaskLo : ∀ lo < 256, lo &&& 0xf00 = 0 := by decide +kernel
  have hmask : off &&& 0xf00 = 2 ^ 8 * (off / 256) := by
    rw [hsplit, and_or_distrib_right, hmaskLo _ hlo, or_zero, ← hsplit, hmaskHi _ hhi]
  have hbyte : ∀ hi < 16, ∀ nib < 16, (UInt8.ofNat ((2 ^ 8 * hi) >>> 4 ||| nib) &&& 0x0f).toNat = nib ∧
      (UInt8.ofNat ((2 ^ 8 * hi) >>> 4 ||| nib) &&& 0xf0).toNat <<< 4 = 2 ^ 8 * hi := by decide +kernel
  have hlow : (UInt8.ofNat (off &&& 0xff)).toNat = off % 256 := by
    rw [UInt8.toNat_ofNat', show (0xff : ℕ) = 2 ^ 8 - 1 from rfl, and_two_pow_sub_one_eq_mod, mod_mod]
  obtain ⟨h1, h2⟩ := hbyte _ hhi _ hnib
  rw [tagByte, Int.toNat_natCast, Int.toNat_natCast, hmask, hlow, h1, h2, ← hsplit]
  exact ⟨rfl, rfl⟩

theorem byteAt_of_at {mem xs : List UInt8} {p : ℕ} {b : UInt8} (h : At mem p (b :: xs)) :
    byteAt mem p = .ok b := by
  rw [byteAt, h.getElem?]

theorem readTag_spec {mem : List UInt8} {sp : ℕ} (henc : Encodable (.copy off len))
    (hat : At mem sp (itemBytes (.copy off len))) :
    readTag mem sp = .ok (off, len, sp + (itemBytes (.copy off len)).length) := by
  obtain ⟨hoff, hmin, hmax⟩ := henc
  rw [itemBytes] at hat ⊢
  split_ifs at hat ⊢ with hlong
  · obtain ⟨hnib, hparts⟩ := tagByte_parts hoff (show 15 < 16 by decide)
    rw [readTag, byteAt_of_at hat, Result.ok_bind, byteAt_of_at (at_cons.1 hat).2, Result.ok_bind]
    rw [show (0x0f : ℤ) = ((15 : ℕ) : ℤ) from rfl, hnib, hparts,
      byteAt_of_at (at_cons.1 (at_cons.1 hat).2).2]
    show Except.ok (off, 18 + (UInt8.ofNat (len - 18)).toNat, sp + 3) = _
    have hrest : (UInt8.ofNat (len - 18)).toNat = len - 18 := by
      rw [UInt8.toNat_ofNat']
      unfold maxMatch at hmax
      omega
    rw [hrest, Nat.add_sub_cancel' hlong]
    rfl
  · obtain ⟨hnib, hparts⟩ := tagByte_parts hoff (show len - 3 < 16 by omega)
    rw [readTag, byteAt_of_at hat, Result.ok_bind, byteAt_of_at (at_cons.1 hat).2, Result.ok_bind]
    rw [show (len : ℤ) - 3 =
      ((len - 3 : ℕ) : ℤ) by omega, hnib, hparts, if_neg (by omega), Nat.sub_add_cancel hmin]
    rfl

end Pg.Pglz
