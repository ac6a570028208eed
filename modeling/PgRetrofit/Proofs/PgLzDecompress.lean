import PgRetrofit.Sanity.PgLzFormat

/-! The decompressor on data in the right format: it makes the text that the items stand for, or
as much of it as is asked for. On other bytes it is safe as far as its tags are. -/

namespace Pg.Pglz

open Lz77 Memory List Result Nat

variable {source src out : List UInt8} {pos e raw sp off len : ℕ} {g : List (Item UInt8)}

theorem copyBack_spec {i k : ℕ} (hrep : Repeats source pos off len) (hk : i + k ≤ len) :
    copyBack off k (source.take (pos + i)) = .ok (source.take (pos + i + k)) := by
  induction k generalizing i with
  | zero => rfl
  | succ k ih => ?_
  have hle := hrep.le_length
  have hoff : off ≤ (source.take (pos + i)).length := by
    rw [length_take_of_le (by omega)]
    exact hrep.off_le.trans (le_add_right pos i)
  obtain ⟨b, hb, hsnoc⟩ := hrep.next (show i < len by omega)
  rw [copyBack, if_pos hoff, byteAt, hb, ok_bind, hsnoc, add_assoc pos i 1, ih (by omega)]
  congr 2
  omega

theorem decompressItem_spec {item : Item UInt8} {ctrl : UInt8} {rest : List UInt8}
    (henc : Encodable item) (hfit : item.Fits source pos) (hctrl : ctrl &&& 1 ≠ 0 ↔ ctrlBit item = 1)
    (hat : At src sp (itemBytes item ++ rest)) (hpos : pos < raw) (hraw : raw ≤ source.length) :
    decompressItem src raw ctrl sp (source.take pos) = .ok (sp + (itemBytes item).length,
      source.take (min (pos + item.size) raw)) := by
  rw [decompressItem]
  cases item with
  | literal b =>
    have hlit : ¬ ctrl &&& 1 ≠ 0 := fun h => zero_ne_one (hctrl.1 h)
    rw [if_neg hlit, byteAt_of_at (at_append.1 hat).1, ok_bind, take_literal hfit, min_eq_left hpos]
    rfl
  | copy off len => ?_
  rw [if_pos (hctrl.2 rfl), readTag_spec henc (at_append.1 hat).1, ok_bind, length_take_of_le (by omega)]
  dsimp only
  have hcopy := copyBack_spec hfit.2 (show 0 + min len (raw - pos) ≤ len by omega)
  rw [Nat.add_zero, ← Nat.add_min_add_left, Nat.add_sub_cancel' (Nat.le_of_lt hpos)] at hcopy
  rw [hcopy]
  rfl

theorem decompressItems_full (hout : raw ≤ out.length) (count : ℕ) (ctrl : UInt8) :
    decompressItems src raw count ctrl sp out = .ok (sp, out) := by
  cases count with
  | zero => rfl
  | succ count =>
    rw [decompressItems, if_neg (fun h => absurd h.2 (not_lt.2 hout))]

/-- A group: the data ends after it unless it has all its items. -/
theorem decompressItems_spec {count : ℕ} (henc : ∀ item ∈ g, Encodable item)
    (hparse : Parses source pos g e) (hlen : g.length ≤ 8) (hat : At src sp (itemsBytes g))
    (hcount : g.length ≤ count) (hend : g.length = count ∨ sp + (itemsBytes g).length = src.length)
    (hpos : pos ≤ raw) (hraw : raw ≤ source.length) :
    ∃ sp', decompressItems src raw count (ctrlByte g) sp (source.take pos) =
      .ok (sp', source.take (min e raw)) ∧ (e ≤ raw → sp' = sp + (itemsBytes g).length) := by
  induction g generalizing sp pos count with
  | nil =>
    obtain rfl : e = pos := hparse
    rw [min_eq_left hpos]
    refine ⟨sp, ?_, fun _ => rfl⟩
    cases count with
    | zero => rfl
    | succ count =>
      have hsp : sp = src.length := hend.resolve_left (succ_ne_zero count).symm
      rw [decompressItems, if_neg (fun h => absurd h.1 (not_lt.2 (le_of_eq hsp.symm)))]
  | cons item g ih =>
    obtain ⟨hfit, hrest⟩ := hparse
    have hsize := hfit.size_pos
    have hle := hrest.le
    obtain ⟨count, rfl⟩ : ∃ c, count = c + 1 := ⟨count - 1, by rw [length_cons] at hcount; omega⟩
    rcases eq_or_lt_of_le hpos with rfl | hlt
    · -- there is no room for this item
      have hfull : pos ≤ (source.take pos).length := le_of_eq (length_take_of_le hraw).symm
      rw [decompressItems_full hfull, min_eq_right (by omega)]
      exact ⟨sp, rfl, fun h => absurd h (by omega)⟩
    obtain ⟨hctrl, hshift⟩ := ctrlByte_cons hlen
    have hbytes : itemsBytes (item :: g) = itemBytes item ++ itemsBytes g := rfl
    rw [hbytes] at hat hend ⊢
    have hsp : sp < src.length := by
      have := (at_append.1 hat).1.length_le
      have := itemBytes_length_pos item
      rw [length_drop] at *
      omega
    have hout : (source.take pos).length < raw := by rwa [length_take_of_le (by omega)]
    rw [decompressItems, if_pos ⟨hsp, hout⟩,
      decompressItem_spec (henc _ mem_cons_self) hfit hctrl hat hlt hraw, ok_bind, hshift,
      length_append, ← add_assoc]
    by_cases hroom : pos + item.size ≤ raw
    · rw [min_eq_left hroom]
      rw [length_append, length_cons, add_right_cancel_iff, ← add_assoc] at hend
      exact ih (fun item hi => henc item (mem_cons_of_mem _ hi)) hrest
        (le_of_succ_le hlen) (at_append.1 hat).2
        (le_of_succ_le_succ hcount) hend hroom
    · rw [Nat.min_eq_right (Nat.le_of_not_le hroom)]
      have hfull : raw ≤ (source.take raw).length := le_of_eq (length_take_of_le hraw).symm
      dsimp only
      rw [decompressItems_full hfull, min_eq_right (by omega)]
      exact ⟨_, rfl, fun h => absurd h (by omega)⟩

/-- Every group but the last has eight items. -/
def WellGrouped : List (List (Item UInt8)) → Prop
  | [] => True
  | g :: gs => 0 < g.length ∧ g.length ≤ 8 ∧ (g.length = 8 ∨ gs = []) ∧ WellGrouped gs

variable {gs : List (List (Item UInt8))} {fuel : ℕ}

theorem wellGrouped_snoc (hgs : ∀ g ∈ gs, g.length = 8) (hpos : 0 < g.length)
    (hg : g.length ≤ 8) : WellGrouped (gs ++ [g]) := by
  induction gs with
  | nil => exact ⟨hpos, hg, .inr rfl, trivial⟩
  | cons g' gs ih =>
    have hg' := hgs g' mem_cons_self
    exact ⟨by omega, by omega, .inl hg', ih fun g hg => hgs g (mem_cons_of_mem _ hg)⟩

theorem length_le_encode (gs : List (List (Item UInt8))) : gs.length ≤ (encode gs).length := by
  induction gs with
  | nil => exact le_rfl
  | cons g gs ih =>
    show gs.length + 1 ≤ ((ctrlByte g :: itemsBytes g) ++ encode gs).length
    rw [length_append, length_cons]
    omega

theorem decompressLoop_full (hfuel : 0 < fuel) (hout : sp = src.length ∨ raw ≤ out.length) :
    decompressLoop src raw fuel sp out = .ok (sp, out) := by
  obtain _ | fuel := fuel
  · omega
  rw [decompressLoop, if_neg]
  omega

variable (henc : ∀ item ∈ gs.flatten, Encodable item)
include henc

theorem decompressLoop_spec
    (hparse : Parses source pos gs.flatten e) (hgs : WellGrouped gs) (hat : At src sp (encode gs))
    (hend : sp + (encode gs).length = src.length) (hfuel : gs.length < fuel) (hpos : pos ≤ raw)
    (hraw : raw ≤ source.length) :
    ∃ sp', decompressLoop src raw fuel sp (source.take pos) = .ok (sp', source.take (min e raw)) ∧
      (e ≤ raw → sp' = src.length) := by
  induction gs generalizing sp pos fuel with
  | nil =>
    obtain rfl : e = pos := hparse
    rw [min_eq_left hpos]
    exact ⟨sp, decompressLoop_full hfuel (.inl hend), fun _ => hend⟩
  | cons g gs ih => ?_
  obtain ⟨hne, hlen, hlast, hgs⟩ := hgs
  obtain ⟨m, hg, hrest⟩ := parses_append.1 hparse
  have hmid : pos < m := hg.lt hne
  have hle := hrest.le
  obtain _ | fuel := fuel
  · omega
  rcases eq_or_lt_of_le hpos with rfl | hlt
  · have hfull : pos ≤ (source.take pos).length := le_of_eq (length_take_of_le hraw).symm
    rw [decompressLoop_full (succ_pos fuel) (.inr hfull), min_eq_right (by omega)]
    exact ⟨sp, rfl, fun h => absurd h (by omega)⟩
  have hbytes : encode (g :: gs) = ctrlByte g :: (itemsBytes g ++ encode gs) := rfl
  rw [hbytes] at hat hend
  rw [length_cons, length_append] at hend
  obtain ⟨hitems, hgroups⟩ := at_append.1 (at_cons.1 hat).2
  have hcond : sp < src.length ∧ (source.take pos).length < raw := by
    rw [length_take_of_le (by omega)]
    omega
  have hcut : g.length = 8 ∨ sp + 1 + (itemsBytes g).length = src.length := by
    refine hlast.imp_right fun hnil => ?_
    rw [hnil] at hend
    rw [← hend]
    show _ = sp + ((itemsBytes g).length + 0 + 1)
    omega
  obtain ⟨sp1, hrun, hsp1⟩ := decompressItems_spec (fun item hi => henc item (mem_append_left _ hi)) hg
    hlen hitems hlen hcut hpos hraw
  rw [decompressLoop, if_pos hcond, byteAt_of_at hat, ok_bind, hrun, ok_bind]
  dsimp only
  by_cases hroom : m ≤ raw
  · obtain rfl := hsp1 hroom
    rw [min_eq_left hroom]
    exact ih (fun item hi => henc item (mem_append_right _ hi)) hrest hgs hgroups (by omega)
      (lt_of_succ_lt_succ hfuel) hroom
  have hfull : raw ≤ (source.take raw).length := le_of_eq (length_take_of_le hraw).symm
  have hpos' : 0 < fuel := lt_of_le_of_lt (zero_le _) (lt_of_succ_lt_succ hfuel)
  rw [Nat.min_eq_right (Nat.le_of_not_le hroom), decompressLoop_full hpos' (.inr hfull),
    Nat.min_eq_right (by omega)]
  exact ⟨_, rfl, fun h => absurd h (by omega)⟩

theorem pglzDecompress_spec
    (hparse : Parses source 0 gs.flatten source.length) (hgs : WellGrouped gs) :
    pglzDecompress (encode gs) source.length true = .ok (source.length, source) ∧
    ∀ rawsize ≤ source.length,
      pglzDecompress (encode gs) rawsize false = .ok (rawsize, source.take rawsize) := by
  have hrun : ∀ raw ≤ source.length,
    ∃ sp', decompressLoop (encode gs) raw ((encode gs).length + 1) 0 [] = .ok (sp', source.take raw) ∧
      (source.length ≤ raw → sp' = (encode gs).length) := by
    intro raw hraw
    have hat : At (encode gs) 0 (encode gs) := prefix_refl _
    obtain ⟨sp', hloop, hsp'⟩ := decompressLoop_spec henc hparse hgs hat (zero_add _)
      (lt_succ_of_le (length_le_encode gs)) (zero_le raw) hraw
    rw [min_eq_right hraw] at hloop
    exact ⟨sp', hloop, hsp'⟩
  refine ⟨?_, fun raw hraw => ?_⟩
  · obtain ⟨sp', hloop, hsp'⟩ := hrun source.length le_rfl
    rw [pglzDecompress, hloop, ok_bind, take_length]
    dsimp only
    rw [if_neg]
    rintro ⟨-, h | h⟩
    · exact h rfl
    · exact h (hsp' le_rfl)
  · obtain ⟨sp', hloop, -⟩ := hrun raw hraw
    rw [pglzDecompress, hloop, ok_bind]
    dsimp only
    rw [if_neg (fun h => Bool.false_ne_true h.1), length_take_of_le hraw]

omit henc

variable {text : List UInt8} {rawsize : ℕ}

/-- The items from `sp` on, with `n` bytes made and `count` bits of `ctrl` left: up to the end
of the source or of the area every tag is complete, and goes back by at least one byte and at
most to the first. -/
inductive SafeFrom (source : List UInt8) (rawsize : ℕ) : ℕ → UInt8 → ℕ → ℕ → Prop
  | stop {count sp n : ℕ} {ctrl : UInt8} (hend : source.length ≤ sp ∨ rawsize ≤ n) :
      SafeFrom source rawsize count ctrl sp n
  | control {sp n : ℕ} {ctrl ctrl' : UInt8} (hbyte : source[sp]? = some ctrl')
      (hrest : SafeFrom source rawsize 8 ctrl' (sp + 1) n) : SafeFrom source rawsize 0 ctrl sp n
  | literal {count sp n : ℕ} {ctrl : UInt8} (hbit : ¬ ctrl &&& 1 ≠ 0)
      (hrest : SafeFrom source rawsize count (ctrl >>> 1) (sp + 1) (n + 1)) :
      SafeFrom source rawsize (count + 1) ctrl sp n
  | copy {count sp n off len sp' : ℕ} {ctrl : UInt8} (hbit : ctrl &&& 1 ≠ 0)
      (htag : readTag source sp = .ok (off, len, sp')) (hoff : 0 < off) (hback : off ≤ n)
      (hrest : SafeFrom source rawsize count (ctrl >>> 1) sp' (n + min len (rawsize - n))) :
      SafeFrom source rawsize (count + 1) ctrl sp n

theorem copyBack_ok (hoff : 0 < off) (hback : off ≤ out.length) (len : ℕ) :
    ∃ out', copyBack off len out = .ok out' ∧ out'.length = out.length + len := by
  induction len generalizing out with
  | zero => exact ⟨out, rfl, rfl⟩
  | succ len ih =>
    have hlt : out.length - off < out.length := by omega
    have hbyte : byteAt out (out.length - off) = .ok out[out.length - off] := by
      rw [byteAt, List.getElem?_eq_getElem hlt]
    have hback' : off ≤ (out ++ [out[out.length - off]]).length := by
      rw [length_append]
      omega
    obtain ⟨out', hrun, hlen⟩ := ih hback'
    refine ⟨out', by rw [copyBack, if_pos hback, hbyte]; exact hrun, ?_⟩
    rw [hlen, length_append, length_singleton]
    omega

theorem byteAt_lt {b : UInt8} (h : byteAt source sp = .ok b) : sp < source.length := by
  unfold byteAt at h
  split at h
  · next hb => exact (List.getElem?_eq_some_iff.1 hb).1
  · cases h

/-- A copy of at least one byte that gets through goes back to a byte that is there. -/
theorem copyBack_back (hlen : 0 < len) (h : copyBack off len out = .ok src) :
    0 < off ∧ off ≤ out.length := by
  obtain ⟨len, rfl⟩ : ∃ k, len = k + 1 := ⟨len - 1, by omega⟩
  rw [copyBack] at h
  split_ifs at h with hback
  obtain ⟨b, hbyte, -⟩ := bind_eq_ok.1 h
  have hlt := byteAt_lt hbyte
  omega

theorem readTag_next {tag : ℕ × ℕ × ℕ} (h : readTag source sp = .ok tag) :
    0 < tag.2.1 ∧ sp < tag.2.2 := by
  obtain ⟨t₁, -, h⟩ := bind_eq_ok.1 h
  obtain ⟨t₂, -, h⟩ := bind_eq_ok.1 h
  dsimp only at h
  split_ifs at h
  · obtain ⟨t₃, -, h⟩ := bind_eq_ok.1 h
    obtain rfl := Except.ok.inj h
    dsimp only
    omega
  · obtain rfl := Except.ok.inj h
    dsimp only
    omega

/-- The rest of a group and the groups after it. -/
def decompressRest (source : List UInt8) (rawsize fuel count : ℕ) (ctrl : UInt8)
    (sp : ℕ) (out : List UInt8) :
    Except Fault (ℕ × List UInt8) :=
  decompressItems source rawsize count ctrl sp out >>=
    fun r => decompressLoop source rawsize fuel r.1 r.2

theorem decompressRest_stop {count : ℕ} {ctrl : UInt8} (hend : source.length ≤ sp ∨ rawsize ≤ out.length)
    (hfuel : 0 < fuel) : decompressRest source rawsize fuel count ctrl sp out = .ok (sp, out) := by
  have hitems : decompressItems source rawsize count ctrl sp out = .ok (sp, out) := by
    cases count with
    | zero => rfl
    | succ count => rw [decompressItems, if_neg (by omega)]
  obtain ⟨fuel, rfl⟩ : ∃ k, fuel = k + 1 := ⟨fuel - 1, by omega⟩
  rw [decompressRest, hitems, ok_bind, decompressLoop, if_neg (by dsimp only; omega)]

/-- Safe items are decompressed; a round of the loop for each control byte is enough. -/
theorem SafeFrom.decompressRest {count n : ℕ} {ctrl : UInt8}
    (h : SafeFrom source rawsize count ctrl sp n) (hn : out.length = n) (hout : n ≤ rawsize)
    (hpos : 0 < fuel) (hfuel : source.length < fuel + sp) :
    ∃ r, decompressRest source rawsize fuel count ctrl sp out = .ok r ∧ r.2.length ≤ rawsize := by
  induction h generalizing out fuel with
  | stop hend => exact ⟨_, decompressRest_stop (hn ▸ hend) hpos, hn ▸ hout⟩
  | @control sp n ctrl ctrl' hbyte hrest ih =>
    by_cases hgo : sp < source.length ∧ out.length < rawsize
    swap
    · exact ⟨_, decompressRest_stop (by omega) hpos, hn ▸ hout⟩
    have hat : byteAt source sp = .ok ctrl' := by rw [byteAt, hbyte]
    obtain ⟨fuel, rfl⟩ : ∃ k, fuel = k + 1 := ⟨fuel - 1, by omega⟩
    rw [Pglz.decompressRest, decompressItems, ok_bind, decompressLoop, if_pos hgo, hat]
    exact ih hn hout (by omega) (by omega)
  | @literal count sp n ctrl hbit hrest ih =>
    by_cases hgo : sp < source.length ∧ out.length < rawsize
    swap
    · exact ⟨_, decompressRest_stop (by omega) hpos, hn ▸ hout⟩
    have hat : byteAt source sp = .ok source[sp] := by rw [byteAt, List.getElem?_eq_getElem hgo.1]
    rw [Pglz.decompressRest, decompressItems, if_pos hgo, decompressItem, if_neg hbit, hat]
    exact ih (by rw [length_append, hn]; rfl) (by omega) hpos (by omega)
  | @copy count sp n off len sp' ctrl hbit htag hoff hback hrest ih =>
    by_cases hgo : sp < source.length ∧ out.length < rawsize
    swap
    · exact ⟨_, decompressRest_stop (by omega) hpos, hn ▸ hout⟩
    obtain ⟨out', hcopy, hlen⟩ := copyBack_ok hoff (hn ▸ hback) (min len (rawsize - out.length))
    have hsp : sp < sp' := (readTag_next htag).2
    rw [Pglz.decompressRest, decompressItems, if_pos hgo, decompressItem, if_pos hbit, htag, ok_bind]
    dsimp only
    rw [hcopy]
    exact ih (by rw [hlen, hn]) (by omega) hpos (by omega)

theorem decompressItems_safe {count : ℕ} {ctrl : UInt8} {r : ℕ × List UInt8}
    (h : decompressItems source rawsize count ctrl sp out = .ok r)
    (hrest : ∀ ctrl, SafeFrom source rawsize 0 ctrl r.1 r.2.length) :
    SafeFrom source rawsize count ctrl sp out.length := by
  induction count generalizing ctrl sp out with
  | zero =>
    obtain rfl := Except.ok.inj h
    exact hrest ctrl
  | succ count ih => ?_
  rw [decompressItems] at h
  split_ifs at h with hgo
  swap
  · exact .stop (by omega)
  obtain ⟨r', hitem, h⟩ := bind_eq_ok.1 h
  rw [decompressItem] at hitem
  split_ifs at hitem with hbit
  · obtain ⟨⟨off, len, sp'⟩, htag, hitem⟩ := bind_eq_ok.1 hitem
    obtain ⟨out', hcopy, hitem⟩ := bind_eq_ok.1 hitem
    obtain rfl := Except.ok.inj hitem
    have hpos : 0 < len := (readTag_next htag).1
    obtain ⟨hoff, hback⟩ := copyBack_back (by omega) hcopy
    obtain ⟨out₂, hcopy₂, hlen⟩ := copyBack_ok hoff hback (min len (rawsize - out.length))
    obtain rfl := Except.ok.inj (hcopy.symm.trans hcopy₂)
    have hrest := ih h
    rw [hlen] at hrest
    exact .copy hbit htag hoff hback hrest
  · obtain ⟨b, -, hitem⟩ := bind_eq_ok.1 hitem
    obtain rfl := Except.ok.inj hitem
    have hrest := ih h
    rw [length_append, length_singleton] at hrest
    exact .literal (by simpa using hbit) hrest

theorem decompressLoop_safe {r : ℕ × List UInt8} (h : decompressLoop source rawsize fuel sp out = .ok r)
    (ctrl : UInt8) :
    SafeFrom source rawsize 0 ctrl sp out.length := by
  induction fuel generalizing sp out ctrl with
  | zero => cases h
  | succ fuel ih => ?_
  rw [decompressLoop] at h
  split_ifs at h with hgo
  swap
  · exact .stop (by omega)
  obtain ⟨ctrl', hbyte, h⟩ := bind_eq_ok.1 h
  obtain ⟨r', hitems, h⟩ := bind_eq_ok.1 h
  have hread : source[sp]? = some ctrl' := by
    rw [byteAt, List.getElem?_eq_getElem hgo.1] at hbyte
    rw [List.getElem?_eq_getElem hgo.1, Except.ok.inj hbyte]
  exact .control hread (decompressItems_safe hitems fun ctrl => ih h ctrl)

/-- The call returns, with every read inside the source or behind the bytes it has written and
every byte written inside the area, exactly if the items it comes to are safe. -/
theorem pglzDecompress_safe (source : List UInt8) (rawsize : ℕ) (checkComplete : Bool) :
    (∃ n out, pglzDecompress source rawsize checkComplete = .ok (n, out) ∧ out.length ≤ rawsize) ↔
      SafeFrom source rawsize 0 0 0 0 := by
  rw [pglzDecompress]
  constructor
  · rintro ⟨n, out, h, -⟩
    obtain ⟨r, hrun, -⟩ := bind_eq_ok.1 h
    exact decompressLoop_safe hrun 0
  · intro h
    obtain ⟨r, hrun, hlen⟩ := h.decompressRest (@length_nil UInt8) (zero_le _) (succ_pos _)
      (lt_succ_self source.length)
    rw [show decompressLoop source rawsize (source.length + 1) 0 [] = .ok r from hrun, ok_bind]
    dsimp only
    split_ifs
    · exact ⟨_, _, rfl, hlen⟩
    · exact ⟨_, _, rfl, hlen⟩

/-- A tag that is cut off, one whose length byte is missing, and copies from before the area and
from the place that is being written. -/
theorem pglzDecompress_unsafe : pglzDecompress [1, 0] 3 false = .error .outOfBounds ∧
    pglzDecompress [2, 65, 15, 1] 30 false = .error .outOfBounds ∧
    pglzDecompress [1, 0, 1] 3 false = .error .outOfBounds ∧
      pglzDecompress [1, 0, 0] 3 false = .error .outOfBounds := by
  decide

end Pg.Pglz
