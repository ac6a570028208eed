import PgRetrofit.Lib.Memory
import PgRetrofit.Lib.Varint
import PgRetrofit.Spec.GinPostingList

/-! The integers, item pointers and headers of posting lists are read back as they were written. -/

namespace Pg.Gin

open Memory Varint Nat UInt64

variable {mem : List UInt8} {p : ℕ} {iptr : ItemPointerData} {val : UInt64}

theorem itemptrToUint64_toNat (h : iptr.ipPosid.toNat < 2 ^ 11) :
    (itemptrToUint64 iptr).toNat = iptr.ipBlkid.toNat * 2 ^ 11 + iptr.ipPosid.toNat := by
  have hblk := iptr.ipBlkid.toNat_lt
  rw [itemptrToUint64, UInt64.toNat_or, UInt16.toNat_toUInt64]
  change iptr.ipBlkid.toNat <<< 11 % 2 ^ 64 ||| _ = _
  rw [shiftLeft_eq, mod_eq_of_lt (by omega), mul_comm, ← two_pow_add_eq_or_of_lt h]

theorem uint64ToItemptr_itemptrToUint64 (h : iptr.ipPosid.toNat < 2 ^ 11) :
    uint64ToItemptr (itemptrToUint64 iptr) = iptr := by
  have hval := itemptrToUint64_toNat h
  have hblk := iptr.ipBlkid.toNat_lt
  have hposid : (itemptrToUint64 iptr &&& ((1 <<< maxHeapTuplesPerPageBits) - 1)).toUInt16 =
      iptr.ipPosid := by
    apply UInt16.toNat_inj.1
    rw [UInt64.toNat_toUInt16, UInt64.toNat_and]
    change (_ &&& (2 ^ 11 - 1)) % 2 ^ 16 = _
    rw [and_two_pow_sub_one_eq_mod]
    omega
  have hblkid : (itemptrToUint64 iptr >>> maxHeapTuplesPerPageBits).toUInt32 = iptr.ipBlkid := by
    apply UInt32.toNat_inj.1
    rw [UInt64.toNat_toUInt32, UInt64.toNat_shiftRight]
    change _ >>> 11 % 2 ^ 32 = _
    omega
  rw [uint64ToItemptr, hposid, hblkid]

theorem compare_lt_iff {a b : ItemPointerData} (ha : a.ipPosid.toNat < 2 ^ 11)
    (hb : b.ipPosid.toNat < 2 ^ 11) :
    ginCompareItemPointers a b < 0 ↔ (itemptrToUint64 a).toNat < (itemptrToUint64 b).toNat := by
  have hwide : ∀ i : ItemPointerData, (i.ipBlkid.toUInt64 <<< 32 ||| i.ipPosid.toUInt64).toNat =
      i.ipBlkid.toNat * 2 ^ 32 + i.ipPosid.toNat := by
    intro i
    have hblk := i.ipBlkid.toNat_lt
    have hpos := i.ipPosid.toNat_lt
    rw [UInt64.toNat_or, UInt16.toNat_toUInt64]
    change i.ipBlkid.toNat <<< 32 % 2 ^ 64 ||| _ = _
    rw [shiftLeft_eq, mod_eq_of_lt (by omega), mul_comm,
      ← two_pow_add_eq_or_of_lt (hpos.trans (by decide))]
  rw [ginCompareItemPointers, itemptrToUint64_toNat ha, itemptrToUint64_toNat hb]
  simp only [← UInt64.toNat_inj, gt_iff_lt, UInt64.lt_iff_toNat_lt, hwide]
  split
  · omega
  · split <;> omega

theorem encodeVarbyte_eq (val : UInt64) : encodeVarbyte val = Varint.encode val.toNat := by
  induction hn : val.toNat using Nat.strong_induction_on generalizing val with
  | _ n ih =>
    subst hn
    have hgt : val > 0x7F ↔ ¬ val.toNat < 128 := by
      rw [gt_iff_lt, lt_iff_toNat_lt]
      change 127 < _ ↔ _
      omega
    rw [encodeVarbyte]
    by_cases h : val.toNat < 128
    · rw [if_neg (fun hc => hgt.1 hc h), encode_of_lt h]
      congr 1
    have hbyte : (0x80 ||| (val &&& 0x7F)).toUInt8 = UInt8.ofNat (val.toNat % 128 + 128) := by
      apply UInt8.toNat_inj.1
      rw [UInt64.toNat_toUInt8, UInt64.toNat_or, UInt64.toNat_and, UInt8.toNat_ofNat']
      change (2 ^ 7 * 1 ||| (_ &&& (2 ^ 7 - 1))) % _ = _
      rw [and_two_pow_sub_one_eq_mod, ← two_pow_add_eq_or_of_lt (mod_lt _ (by decide))]
      omega
    have hshift : (val >>> 7).toNat = val.toNat / 128 := by
      exact shiftRight_eq_div_pow _ 7
    rw [if_pos (hgt.2 h), encode_of_ge h, hbyte, ih _ (by omega) (val >>> 7) hshift]

theorem readByte_of_at {c : UInt8} {xs : List UInt8} (h : At mem p (c :: xs)) :
    readByte mem p = .ok c := by
  rw [readByte, h.getElem?]

theorem continues_iff (c : UInt8) : c &&& 0x80 ≠ 0 ↔ Varint.continues c := by
  have hbit : ∀ i : Fin 256, (i.val &&& 128 = 0) ↔ i.val < 128 := by decide +kernel
  rw [continues, ne_eq, ← UInt8.toNat_inj]
  have := hbit ⟨c.toNat, c.toNat_lt⟩
  change ¬ (c.toNat &&& 128 = 0) ↔ _
  rw [this, not_lt]

theorem or_shift_toNat {shift x : UInt64} {s : ℕ} (hs : shift.toNat = s) (hs64 : s < 64)
    (hval : val.toNat < 2 ^ s) (hfit : x.toNat * 2 ^ s < 2 ^ 64) :
    (val ||| x <<< shift).toNat = val.toNat + x.toNat * 2 ^ s := by
  rw [UInt64.toNat_or, UInt64.toNat_shiftLeft, hs, Nat.mod_eq_of_lt hs64, Nat.shiftLeft_eq,
    Nat.mod_eq_of_lt hfit, Nat.or_comm, Nat.mul_comm, ← Nat.two_pow_add_eq_or_of_lt hval, Nat.add_comm]

theorem and_payload (c : UInt8) : (c.toUInt64 &&& 0x7F).toNat = Varint.payload c :=
  and_two_pow_sub_one_eq_mod _ 7

/-- What is read and what is still to come have `49` bits together. -/
theorem payload_fits {s more n x : ℕ} (hs : s + 7 * more = 42) (hn : n < 128 ^ (more + 1)) (hx : x ≤ n) :
    x * 2 ^ s < 2 ^ 64 := by
  have hpow : 128 ^ (more + 1) * 2 ^ s = 2 ^ 49 := by
    have h128 : (128 : ℕ) = 2 ^ 7 := rfl
    rw [h128, ← pow_mul, ← pow_add]
    congr 1
    omega
  calc x * 2 ^ s ≤ n * 2 ^ s := mul_le_mul_right _ hx
    _ < 128 ^ (more + 1) * 2 ^ s := Nat.mul_lt_mul_of_pos_right hn (Nat.two_pow_pos _)
    _ = 2 ^ 49 := hpow
    _ < 2 ^ 64 := by decide

theorem decodeBytes_spec (more : ℕ) (shift val : UInt64) (p n : ℕ) (hshift : shift.toNat + 7 * more = 42)
    (hval : val.toNat < 2 ^ shift.toNat) (hn : n < 128 ^ (more + 1)) (h : At mem p (Varint.encode n)) :
    ∃ r, decodeBytes mem more shift val p = .ok (r, p + (Varint.encode n).length) ∧
      r.toNat = val.toNat + n * 2 ^ shift.toNat := by
  induction more generalizing shift val p n with
  | zero =>
    have hlt : n < 128 := by simpa using hn
    have hbyte : (UInt8.ofNat n).toUInt64.toNat = n := by
      rw [UInt8.toNat_toUInt64, UInt8.toNat_ofNat']
      omega
    rw [encode_of_lt hlt] at h ⊢
    refine ⟨_, by rw [decodeBytes, readByte_of_at h]; rfl, ?_⟩
    rw [or_shift_toNat rfl (by omega) hval (by rw [hbyte]; exact payload_fits hshift hn le_rfl), hbyte]
  | succ more ih =>
    by_cases hlt : n < 128
    · rw [encode_of_lt hlt] at h ⊢
      refine ⟨val ||| ((UInt8.ofNat n).toUInt64 &&& 0x7F) <<< shift, ?_, ?_⟩
      · rw [decodeBytes, readByte_of_at h]
        exact if_neg fun hc => not_continues_last hlt ((continues_iff _).1 hc)
      · rw [or_shift_toNat rfl (by omega) hval (by
          rw [and_payload, payload_last hlt]
          exact payload_fits hshift hn le_rfl), and_payload, payload_last hlt]
    rw [encode_of_ge hlt] at h ⊢
    have hacc := or_shift_toNat rfl (by omega) hval (by
      rw [and_payload, payload_more]
      exact payload_fits hshift hn (mod_le n 128))
    rw [and_payload, payload_more] at hacc
    have hshift' : (shift + 7).toNat = shift.toNat + 7 := by
      exact mod_eq_of_lt (by change shift.toNat + 7 < _; omega)
    have hbound : (val ||| ((UInt8.ofNat (n % 128 + 128)).toUInt64 &&& 0x7F) <<< shift).toNat <
        2 ^ (shift + 7).toNat := by
      rw [hshift', pow_add]
      have : n % 128 * 2 ^ shift.toNat ≤ 127 * 2 ^ shift.toNat := mul_le_mul_right _ (by omega)
      omega
    have hn' : n / 128 < 128 ^ (more + 1) := by
      rw [div_lt_iff_lt_mul (by decide)]
      exact hn
    obtain ⟨r, hrun, hr⟩ := ih (shift + 7) _ (p + 1) (n / 128) (by omega) hbound hn' (at_cons.1 h).2
    refine ⟨r, ?_, ?_⟩
    · rw [decodeBytes, readByte_of_at h]
      refine (if_pos ((continues_iff _).2 (continues_more n))).trans ?_
      rw [hrun, List.length_cons, add_assoc, add_comm 1]
    rw [hr, hacc, hshift', pow_add]
    calc val.toNat + n % 128 * 2 ^ shift.toNat + n / 128 * (2 ^ shift.toNat * 2 ^ 7)
        = val.toNat + (128 * (n / 128) + n % 128) * 2 ^ shift.toNat := by ring
      _ = val.toNat + n * 2 ^ shift.toNat := by rw [div_add_mod]

theorem decodeVarbyte_encode (hval : val.toNat < 2 ^ 49) (h : At mem p (encodeVarbyte val)) :
    decodeVarbyte mem p = .ok (val, p + (encodeVarbyte val).length) := by
  rw [encodeVarbyte_eq] at h ⊢
  obtain ⟨r, hrun, hr⟩ := decodeBytes_spec 6 0 0 p val.toNat rfl (by decide) hval h
  have hrval : r = val := by
    apply UInt64.toNat_inj.1
    rw [hr]
    change 0 + val.toNat * 2 ^ 0 = _
    omega
  rw [decodeVarbyte, hrun, hrval]

theorem encodeVarbyte_length_le (hval : val.toNat < 2 ^ 49) :
    (encodeVarbyte val).length ≤ maxBytesPerInteger := by
  rw [encodeVarbyte_eq]
  exact length_le 6 _ hval

theorem encodeVarbyte_length_pos (val : UInt64) : 0 < (encodeVarbyte val).length := by
  rw [encodeVarbyte_eq]
  exact length_pos _

theorem readUint16_of_at {n : UInt16} (h : At mem p (uint16Bytes n)) : readUint16 mem p = .ok n := by
  obtain ⟨hlo, hrest⟩ := at_cons.1 h
  have hhi := hrest.getElem?
  have hn := n.toNat_lt
  have heq : n.toUInt8.toUInt16 ||| (n >>> 8).toUInt8.toUInt16 <<< 8 = n := by
    apply UInt16.toNat_inj.1
    change n.toNat % 2 ^ 8 ||| (n.toNat >>> 8 % 2 ^ 8) <<< 8 % 2 ^ 16 = _
    have hfit : n.toNat / 2 ^ 8 % 2 ^ 8 * 2 ^ 8 < 2 ^ 16 := by omega
    rw [Nat.shiftRight_eq_div_pow, Nat.shiftLeft_eq, Nat.mod_eq_of_lt hfit, Nat.or_comm, Nat.mul_comm,
      ← two_pow_add_eq_or_of_lt (mod_lt _ (by decide))]
    omega
  rw [readUint16, readByte, hlo, readByte, hhi]
  exact congrArg _ heq

theorem readFirst_of_at (h : At mem p (itemPointerBytes iptr)) : readFirst mem p = .ok iptr := by
  obtain ⟨hblk, hpos⟩ := at_append.1 h
  obtain ⟨hhi, hlo⟩ := at_append.1 hblk
  have hn := iptr.ipBlkid.toNat_lt
  have heq : (iptr.ipBlkid >>> 16).toUInt16.toUInt32 <<< 16 |||
      (iptr.ipBlkid &&& 0xFFFF).toUInt16.toUInt32 = iptr.ipBlkid := by
    apply UInt32.toNat_inj.1
    change (iptr.ipBlkid.toNat >>> 16 % 2 ^ 16) <<< 16 % 2 ^ 32 |||
      (iptr.ipBlkid.toNat &&& (2 ^ 16 - 1)) % 2 ^ 16 = _
    have hfit : iptr.ipBlkid.toNat / 2 ^ 16 % 2 ^ 16 * 2 ^ 16 < 2 ^ 32 := by omega
    rw [shiftRight_eq_div_pow, shiftLeft_eq, and_two_pow_sub_one_eq_mod, mod_eq_of_lt hfit, mul_comm,
      ← two_pow_add_eq_or_of_lt (mod_lt _ (by decide))]
    omega
  rw [readFirst, readUint16_of_at hhi]
  have hlo' : readUint16 mem (p + 2) = .ok _ := readUint16_of_at hlo
  have hpos' : readUint16 mem (p + 4) = .ok _ := readUint16_of_at hpos
  rw [hlo', hpos']
  change Except.ok (ItemPointerData.mk _ _) = _
  rw [heq]

end Pg.Gin
