import PgRetrofit.Sanity.IntsetAlloc
import PgRetrofit.Lib.Result

/-! What `intset_recv` makes of a message, and of the messages that `intset_send` writes. -/

namespace Pg.Intset

open Result List

/-- an `ereport(ERROR)` -/
def Raised (f : Fault) : Prop := ∃ size message, f = .allocSize size ∨ f = .elog message

theorem raised_elog (message : String) : Raised (.elog message) := ⟨0, message, .inr rfl⟩

theorem not_raised : ¬ Raised .outOfBounds := by
  rintro ⟨_, _, h | h⟩ <;> cases h

/-- the whole words of a message -/
def words : List UInt8 → List UInt32
  | b3 :: b2 :: b1 :: b0 :: rest => msgWord b3 b2 b1 b0 :: words rest
  | _ => []

theorem pqGetmsgint_words (buf : List UInt8) :
    (words buf = [] ∧ pqGetmsgint buf = .error (.elog "insufficient data left in message")) ∨
      ∃ x rest, words buf = x :: words rest ∧ pqGetmsgint buf = .ok (x, rest) := by
  rcases buf with _ | ⟨b3, _ | ⟨b2, _ | ⟨b1, _ | ⟨b0, rest⟩⟩⟩⟩
  all_goals first | exact .inl ⟨rfl, rfl⟩ | exact .inr ⟨_, _, rfl, rfl⟩

theorem write_full {v : BitVec 30} {c : UInt32} (xs : List UInt32) (x : UInt32) :
    (filled v c xs 0).write xs.length x = .error .outOfBounds := by
  simp [Raw.write, filled]

/-- With room for `k` elements: the message or the array may end first. -/
theorem recvLoop_filled {v : BitVec 30} {c : UInt32} (n k : ℕ) (buf : List UInt8) (xs : List UInt32) :
    recvLoop n xs.length buf (filled v c xs k) =
      if n ≤ (words buf).length ∧ n ≤ k then .ok (filled v c (xs ++ (words buf).take n) (k - n))
      else if (words buf).length ≤ k then .error (.elog "insufficient data left in message")
      else .error .outOfBounds := by
  induction n generalizing buf xs k with
  | zero => simp [recvLoop]
  | succ n ih => ?_
  rw [recvLoop]
  rcases pqGetmsgint_words buf with ⟨hw, hget⟩ | ⟨x, rest, hw, hget⟩
  · rw [hget, hw]
    simp [Except.bind]
  rw [hget, hw, Except.bind]
  cases k with
  | zero => simp [write_full, Except.bind]
  | succ k =>
    have hnext := ih k rest (xs ++ [x])
    rw [length_append, length_singleton] at hnext
    simp [write_filled, Except.bind, hnext]

variable {untoast : StringInfo → Except Fault StringInfo} {data : ℕ} {msg : List UInt8} {cardi : UInt32}
  {ws : List UInt32}

theorem intsetRecv_aligned (untoast : StringInfo → Except Fault StringInfo) (hdata : data % 4 = 0)
    (hmsg : words msg = cardi :: ws) :
    ∃ rest, words rest = ws ∧ intsetRecv untoast ⟨data, msg⟩ =
      (allocIntset cardi).bind fun r => (recvLoop cardi.toNat 0 rest r).bind Raw.finish := by
  rcases pqGetmsgint_words msg with ⟨hnil, -⟩ | ⟨x, rest, hw, hget⟩
  · rw [hmsg] at hnil
    cases hnil
  obtain ⟨rfl, rfl⟩ := List.cons.inj (hw.symm.trans hmsg)
  exact ⟨rest, rfl, by rw [intsetRecv, pgDetoastDatum, if_pos hdata, Except.bind, hget]; rfl⟩

/-- An allocation that is not refused: the words are stored, or one of the two ends is hit. -/
theorem intsetRecv_eq (hdata : data % 4 = 0) (hmsg : words msg = cardi :: ws)
    {size : ℕ} (hsize : (8 + 4 * cardi.toNat) % 2 ^ 32 = size) (hlo : 8 ≤ size)
    (hfit : size ≤ maxAllocSize) :
    intsetRecv untoast ⟨data, msg⟩ =
      if cardi.toNat ≤ ws.length ∧ cardi.toNat ≤ (size - 8) / 4 then .ok (ofList (ws.take cardi.toNat))
      else if ws.length ≤ (size - 8) / 4 then .error (.elog "insufficient data left in message")
      else .error .outOfBounds := by
  obtain ⟨rest, rfl, heq⟩ := intsetRecv_aligned untoast hdata hmsg
  have hloop :=
    recvLoop_filled (v := BitVec.ofNat 30 size) (c := cardi) cardi.toNat ((size - 8) / 4) rest []
  rw [length_nil] at hloop
  rw [heq, allocIntset, hsize, palloc_ok hfit]
  simp only [Except.bind, if_neg (Nat.not_lt.2 hlo)]
  rw [show List.replicate ((size - 8) / 4) none = [].map some ++ List.replicate ((size - 8) / 4) none
    from rfl]
  rw [← filled, hloop]
  split_ifs with h1 h2
  · -- the array is as long as announced, so the size was not truncated
    have hlen : ((words rest).take cardi.toNat).length = cardi.toNat := by simp [h1.1]
    have hzero : (size - 8) / 4 - cardi.toNat = 0 := by omega
    have hv : size = 8 + 4 * cardi.toNat := by omega
    rw [filled, hzero, replicate_zero, append_nil, nil_append]
    exact (finish_ok ..).trans (by simp [ofList, hlen, hv])
  · rfl
  · rfl

/-- The announced size, as `alloc_intset` computes it, is refused; or there is a header, and
the message ends inside the array or brings as many words as announced, increasing and in
an array that long. -/
def Sound (cardi : UInt32) (ws : List UInt32) : Prop :=
  maxAllocSize < (8 + 4 * cardi.toNat) % 2 ^ 32 ∨
  8 ≤ (8 + 4 * cardi.toNat) % 2 ^ 32 ∧
    if cardi.toNat ≤ ws.length then 8 + 4 * cardi.toNat < 2 ^ 32 ∧ (ws.take cardi.toNat).Pairwise (· < ·)
    else ws.length ≤ ((8 + 4 * cardi.toNat) % 2 ^ 32 - 8) / 4

/-- a message whose first word is a cardinality that suits the others; one without a word is refused -/
def InOrder (msg : List UInt8) : Prop := ∀ cardi ws, words msg = cardi :: ws → Sound cardi ws

theorem ends_iff_sound (hdata : data % 4 = 0) (hmsg : words msg = cardi :: ws) :
    Ends Raised Canonical (intsetRecv untoast ⟨data, msg⟩) ↔ Sound cardi ws := by
  unfold Sound
  by_cases hbig : maxAllocSize < (8 + 4 * cardi.toNat) % 2 ^ 32
  · obtain ⟨rest, -, heq⟩ := intsetRecv_aligned untoast hdata hmsg
    rw [heq, allocIntset, palloc_error (Nat.not_le.2 hbig)]
    exact iff_of_true ⟨_, "", .inl rfl⟩ (.inl hbig)
  by_cases hlo : 8 ≤ (8 + 4 * cardi.toNat) % 2 ^ 32
  swap
  · obtain ⟨rest, -, heq⟩ := intsetRecv_aligned untoast hdata hmsg
    rw [heq, allocIntset, palloc_ok (Nat.not_lt.1 hbig)]
    simp only [Except.bind, if_pos (Nat.not_le.1 hlo)]
    exact iff_of_false not_raised (by omega)
  rw [intsetRecv_eq hdata hmsg rfl hlo (Nat.not_lt.1 hbig), or_iff_right hbig, and_iff_right hlo]
  by_cases hall : cardi.toNat ≤ ws.length ∧ cardi.toNat ≤ ((8 + 4 * cardi.toNat) % 2 ^ 32 - 8) / 4
  · have hlen : (ws.take cardi.toNat).length = cardi.toNat := by simp [hall.1]
    rw [if_pos hall, if_pos hall.1, and_iff_right (by omega)]
    exact ⟨fun h => h.sorted, fun h => ofList_canonical h (by omega)⟩
  rw [if_neg hall]
  split_ifs with hends hcard hcard
  · exact iff_of_true (raised_elog _) (by omega)
  · exact iff_of_true (raised_elog _) hends
  · exact iff_of_false not_raised (by omega)
  · exact iff_of_false not_raised hends

theorem words_pqSendint32 (x : UInt32) (rest : List UInt8) :
    words (pqSendint32 x ++ rest) = x :: words rest := by
  have hx := x.toNat_lt
  refine congrArg (· :: words rest) (UInt32.toNat_inj.1 ?_)
  simp only [msgWord, UInt32.toNat_ofNat', UInt8.toNat_ofNat', Nat.toUInt8, Nat.toUInt32]
  omega

theorem words_flatMap (xs : List UInt32) : words (xs.flatMap pqSendint32) = xs := by
  induction xs with
  | nil => rfl
  | cons x xs ih => rw [flatMap_cons, words_pqSendint32, ih]

end Pg.Intset
