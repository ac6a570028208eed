import PgRetrofit.Sanity.PgLzFormat

/-! The output of the compressor: the full groups, and the group that is being written behind the
place of its control byte. Nothing is stored above. -/

namespace Pg.Pglz

open Lz77 Memory List Nat UInt8 Result

variable {old done cur dest : List UInt8} {o : Out} {gs : List (List (Item UInt8))}
  {g items : List (Item UInt8)}

theorem store_ok {i : ℕ} (h : i < dest.length) (b : UInt8) :
    store dest i b = .ok (dest.set i b) := if_pos h

/-- The output area with `done`, a place for a byte, and `cur`. -/
structure Area (old done cur dest : List UInt8) : Prop where
  length : dest.length = old.length
  at_done : At dest 0 done
  at_cur : At dest (done.length + 1) cur
  frame : ∀ i, done.length + 1 + cur.length ≤ i → dest[i]? = old[i]?

theorem Area.store (ha : Area old done cur dest) {p : ℕ} (hp : p = done.length + 1 + cur.length)
    (hroom : p < old.length) (b : UInt8) :
    ∃ dest', Pglz.store dest p b = .ok dest' ∧ Area old done (cur ++ [b]) dest' := by
  have hlt : p < dest.length := ha.length.symm ▸ hroom
  refine ⟨_, store_ok hlt b, (length_set ..).trans ha.length, ha.at_done.set (.inr (by omega)) b,
    ?_, fun i hi => ?_⟩
  · exact at_append.2 ⟨ha.at_cur.set (.inr hp.ge) b, hp ▸ at_cons.2 ⟨getElem?_set_self hlt, at_nil _ _⟩⟩
  · rw [length_append, length_singleton] at hi
    rw [getElem?_set_ne (by omega), ha.frame i (by omega)]

theorem Area.close (ha : Area old done cur dest) (hroom : done.length < old.length) (c : UInt8) :
    ∃ dest', Pglz.store dest done.length c = .ok dest' ∧ Area old (done ++ c :: cur) [] dest' := by
  have hlt : done.length < dest.length := ha.length.symm ▸ hroom
  refine ⟨_, store_ok hlt c, (length_set ..).trans ha.length, ?_, at_nil _ _, fun i hi => ?_⟩
  · refine at_append.2 ⟨ha.at_done.set (.inr (by omega)) c, ?_⟩
    rw [zero_add]
    exact at_cons.2 ⟨getElem?_set_self hlt, ha.at_cur.set (.inl (lt_succ_self _)) c⟩
  · rw [length_append, length_cons] at hi
    rw [getElem?_set_ne (by omega), ha.frame i (by omega)]

structure Writing (old : List UInt8) (gs : List (List (Item UInt8))) (g : List (Item UInt8))
    (o : Out) : Prop where
  area : Area old (encode gs) (itemsBytes g) o.dest
  full : ∀ g' ∈ gs, g'.length = 8
  le : g.length ≤ 8
  ctrlp : o.ctrlp = some (encode gs).length
  bp : o.bp = (encode gs).length + 1 + (itemsBytes g).length
  ctrlb : o.ctrlb = ctrlByte g
  ctrl : o.ctrl = UInt8.ofNat (2 ^ g.length)

/-- What has been written; the first group is begun by the first item. -/
inductive Written (old : List UInt8) : List (Item UInt8) → Out → Prop
  | start : Written old [] ⟨old, 0, none, 0, 0⟩
  | group {gs : List (List (Item UInt8))} {g : List (Item UInt8)} {o : Out} (hw : Writing old gs g o)
      (hg : 0 < g.length) :
      Written old (gs.flatten ++ g) o

theorem Written.frame (hw : Written old items o) :
    o.dest.length = old.length ∧ ∀ i, o.bp ≤ i → o.dest[i]? = old[i]? := by
  cases hw with
  | start => exact ⟨rfl, fun _ _ => rfl⟩
  | group hw hg => exact ⟨hw.area.length, fun i hi => hw.area.frame i (hw.bp ▸ hi)⟩

theorem Writing.snoc {item : Item UInt8} (hw : Writing old gs g o) (hlt : g.length < 8)
    (ha : Area old (encode gs) (itemsBytes g ++ itemBytes item) dest) :
    Written old (gs.flatten ++ g ++ [item]) ⟨dest, o.bp + (itemBytes item).length, o.ctrlp,
      ctrlByte (g ++ [item]), o.ctrl <<< 1⟩ := by
  have hbytes : itemsBytes (g ++ [item]) = itemsBytes g ++ itemBytes item := by
    rw [itemsBytes, flatMap_append, flatMap_singleton, itemsBytes]
  have hlen : (g ++ [item]).length = g.length + 1 := length_append
  have hshift : ∀ k < 8, ofNat (2 ^ k) <<< 1 = ofNat (2 ^ (k + 1)) := by decide
  rw [append_assoc]
  refine .group ⟨hbytes ▸ ha, hw.full, hlen ▸ hlt, hw.ctrlp, ?_, rfl, ?_⟩ (hlen ▸ succ_pos _)
  · rw [hbytes, length_append, ← add_assoc, ← hw.bp]
  · rw [hw.ctrl, hlen, hshift _ hlt]

/-- The control byte of a full group is stored, and the last one at the end. -/
theorem storeCtrl_spec (hw : Writing old gs g o) (hroom : o.bp ≤ old.length) :
    ∃ dest', storeCtrl o = .ok dest' ∧ Area old (encode (gs ++ [g])) [] dest' ∧
      (encode (gs ++ [g])).length = o.bp := by
  have hbp := hw.bp
  obtain ⟨dest', hstore, ha⟩ := hw.area.close (by omega) (ctrlByte g)
  have hbytes : encode (gs ++ [g]) = encode gs ++ ctrlByte g :: itemsBytes g := by simp [encode]
  rw [storeCtrl, hw.ctrlp, hw.ctrlb, hbytes]
  refine ⟨dest', hstore, ha, ?_⟩
  rw [length_append, length_cons]
  omega

variable (hw : Written old items o)
include hw

theorem outCtrl_spec (hroom : o.bp < old.length) :
    ∃ o' gs g, outCtrl o = .ok o' ∧ Writing old gs g o' ∧ items = gs.flatten ++ g ∧ g.length < 8 ∧
      o'.bp ≤ o.bp + 1 := by
  rw [outCtrl]
  cases hw with
  | start =>
    have ha : Area old [] [] old := ⟨rfl, at_nil _ _, at_nil _ _, fun _ _ => rfl⟩
    refine ⟨⟨old, 1, some 0, 0, 1⟩, [], [], if_pos (show (0 : UInt8) &&& 0xff = 0 by decide),
      ⟨ha, ?_, by decide, rfl, rfl, rfl, rfl⟩, rfl, by decide, le_rfl⟩
    exact fun _ h => absurd h not_mem_nil
  | @group gs g _ hw hg => ?_
  have hzero : ∀ k < 8, ofNat (2 ^ k) &&& 0xff ≠ 0 := by decide
  rcases eq_or_lt_of_le hw.le with h8 | hlt
  · obtain ⟨dest', hstore, ha, hlen⟩ := storeCtrl_spec hw (le_of_lt hroom)
    have hctrl : o.ctrl &&& 0xff = 0 := by
      rw [hw.ctrl, h8]
      decide
    rw [if_pos hctrl, hstore]
    refine ⟨_, gs ++ [g], [], rfl, ⟨ha, ?_, by decide, congrArg some hlen.symm, ?_, rfl, rfl⟩,
      ?_, by decide, le_rfl⟩
    · intro g' hg'
      rcases mem_append.1 hg' with h | h
      · exact hw.full g' h
      · exact (mem_singleton.1 h) ▸ h8
    · exact congrArg (· + 1) hlen.symm
    · rw [flatten_append, flatten_singleton, append_nil]
  · rw [if_neg (hw.ctrl ▸ hzero _ hlt)]
    exact ⟨o, gs, g, rfl, hw, rfl, hlt, le_succ _⟩

theorem outLiteral_spec (hroom : o.bp + 1 < old.length) (b : UInt8) :
    ∃ o', outLiteral o b = .ok o' ∧ Written old (items ++ [.literal b]) o' ∧ o'.bp ≤ o.bp + 2 := by
  obtain ⟨o1, gs, g, hctrl, hw1, rfl, hlt, hbp⟩ := outCtrl_spec hw (by omega)
  have hbp1 := hw1.bp
  obtain ⟨dest', hstore, ha⟩ := hw1.area.store hbp1 (by omega) b
  have hsnoc : Written old (gs.flatten ++ g ++ [.literal b]) _ := hw1.snoc hlt ha
  rw [ctrlByte_snoc_literal, ← hw1.ctrlb] at hsnoc
  rw [outLiteral, hctrl, ok_bind, hstore]
  exact ⟨_, rfl, hsnoc, succ_le_succ hbp⟩

theorem outTag_spec (hroom : o.bp + 3 < old.length) (len : ℕ) (off : ℤ) :
    ∃ o', outTag o len off = .ok o' ∧ Written old (items ++ [.copy off.toNat len]) o' ∧
      o'.bp ≤ o.bp + 4 := by
  obtain ⟨o1, gs, g, hctrl, hw1, rfl, hlt, hbp⟩ := outCtrl_spec hw (by omega)
  have hbp1 := hw1.bp
  have htag : ∀ nibble, tagByte (off.toNat : ℕ) nibble = tagByte off nibble :=
    fun nibble => by rw [tagByte, Int.toNat_natCast, tagByte]
  have hsnoc : ∀ dest, Area old (encode gs) (itemsBytes g ++ itemBytes (.copy off.toNat len)) dest → _ :=
    fun dest ha => hw1.snoc hlt ha
  rw [ctrlByte_snoc_copy, ← hw1.ctrlb, ← hw1.ctrl, itemBytes, htag] at hsnoc
  rw [outTag, hctrl, ok_bind]
  dsimp only
  split_ifs at hsnoc ⊢ with hlong
  · obtain ⟨d1, h1, ha1⟩ := hw1.area.store hbp1 (by omega) (tagByte off 0x0f)
    obtain ⟨d2, h2, ha2⟩ := ha1.store (p := o1.bp + 1) (by rw [length_append, hbp1]; rfl) (by omega)
      (ofNat (off.toNat &&& 0xff))
    obtain ⟨d3, h3, ha3⟩ := ha2.store (p := o1.bp + 2) (by rw [length_append, length_append, hbp1]; rfl)
      (by omega) (ofNat (len - 18))
    rw [append_assoc, append_assoc] at ha3
    rw [h1, ok_bind, h2, ok_bind, h3]
    exact ⟨_, rfl, hsnoc d3 ha3, Nat.add_le_add_right hbp 3⟩
  · obtain ⟨d1, h1, ha1⟩ := hw1.area.store hbp1 (by omega) (tagByte off (len - 3))
    obtain ⟨d2, h2, ha2⟩ := ha1.store (p := o1.bp + 1) (by rw [length_append, hbp1]; rfl) (by omega)
      (ofNat (off.toNat &&& 0xff))
    rw [append_assoc] at ha2
    rw [h1, ok_bind, h2]
    exact ⟨_, rfl, hsnoc d2 ha2, (Nat.add_le_add_right hbp 2).trans (Nat.le_succ _)⟩

end Pg.Pglz
