import PgRetrofit.Lib.Result
import PgRetrofit.Sanity.GinVarbyte

/-! What has been compressed into posting list segments is decoded from them, and removing items
never makes a segment larger. -/

namespace Pg.Gin

open Memory List Nat UInt64

variable {mem : List UInt8} {prev : ItemPointerData} {ipd : List ItemPointerData}

/-- The items have offsets of 11 bits. -/
def ShortOffsets (ipd : List ItemPointerData) : Prop := ∀ iptr ∈ ipd, iptr.ipPosid.toNat < 2 ^ 11

def Increasing (ipd : List ItemPointerData) : Prop :=
  ipd.Pairwise fun a b => ginCompareItemPointers a b < 0

/-- the bytes for the items that follow one with the integer `prev` -/
def deltaBytes : UInt64 → List ItemPointerData → List UInt8
  | _, [] => []
  | prev, iptr :: ipd =>
    encodeVarbyte (itemptrToUint64 iptr - prev) ++ deltaBytes (itemptrToUint64 iptr) ipd

variable {iptr : ItemPointerData} {bytes : List UInt8}

/-- A difference of two item pointers needs at most 43 bits. -/
theorem delta_lt (hshort : ShortOffsets (prev :: ipd)) (hinc : Increasing (prev :: ipd))
    (h : iptr ∈ ipd) :
    (itemptrToUint64 iptr - itemptrToUint64 prev).toNat < 2 ^ 49 := by
  have hp := hshort prev mem_cons_self
  have hi := hshort iptr (mem_cons_of_mem _ h)
  have hlt := (compare_lt_iff hp hi).1 ((pairwise_cons.1 hinc).1 iptr h)
  have hblk := iptr.ipBlkid.toNat_lt
  rw [UInt64.toNat_sub_of_le _ _ (UInt64.le_iff_toNat_le.2 hlt.le)]
  rw [itemptrToUint64_toNat hi] at hlt ⊢
  omega

theorem ShortOffsets.tail (h : ShortOffsets (iptr :: ipd)) : ShortOffsets ipd :=
  fun x hx => h x (mem_cons_of_mem _ hx)

theorem Increasing.tail (h : Increasing (iptr :: ipd)) : Increasing ipd := (pairwise_cons.1 h).2

theorem Increasing.take (h : Increasing ipd) (n : ℕ) : Increasing (ipd.take n) :=
  h.sublist (take_sublist n ipd)

theorem ShortOffsets.take (h : ShortOffsets ipd) (n : ℕ) : ShortOffsets (ipd.take n) :=
  fun x hx => h x (mem_of_mem_take hx)

theorem packLoop_spec (maxbytes : ℕ) (ipd : List ItemPointerData) (prev : ItemPointerData)
    (bytes : List UInt8) (total : ℕ) (hshort : ShortOffsets (prev :: ipd))
    (hinc : Increasing (prev :: ipd)) (hbytes : bytes.length ≤ maxbytes) :
    ∃ n ≤ ipd.length, packLoop maxbytes (itemptrToUint64 prev) bytes total ipd =
        .ok (bytes ++ deltaBytes (itemptrToUint64 prev) (ipd.take n), total + n) ∧
      (bytes ++ deltaBytes (itemptrToUint64 prev) (ipd.take n)).length ≤ maxbytes ∧
      (n < ipd.length →
        maxbytes < (bytes ++ deltaBytes (itemptrToUint64 prev) (ipd.take (n + 1))).length) := by
  induction ipd generalizing prev bytes total with
  | nil =>
    exact ⟨0, le_rfl,
      by
        simp [packLoop, deltaBytes], by simpa [deltaBytes] using hbytes, fun h => absurd h (lt_irrefl _)⟩
  | cons iptr ipd ih => ?_
  have hcode := encodeVarbyte_length_le (delta_lt hshort hinc mem_cons_self)
  set code := encodeVarbyte (itemptrToUint64 iptr - itemptrToUint64 prev) with hcodeEq
  have hunfold : ∀ m, bytes ++ deltaBytes (itemptrToUint64 prev) ((iptr :: ipd).take (m + 1)) =
      bytes ++ code ++ deltaBytes (itemptrToUint64 iptr) (ipd.take m) := by
    intro m
    rw [take_succ_cons, deltaBytes, append_assoc]
  rw [packLoop]
  simp only [← hcodeEq]
  by_cases hfits : bytes.length + code.length ≤ maxbytes
  · obtain ⟨n, hn, hrun, hlen, hnext⟩ := ih iptr (bytes ++ code) (total + 1) hshort.tail hinc.tail (by
      rwa [length_append])
    refine ⟨n + 1, succ_le_succ hn, ?_, by rwa [hunfold], fun hlt => ?_⟩
    · rw [hunfold, ← add_assoc, add_right_comm, ← hrun]
      by_cases hroom : maxbytes - bytes.length ≥ maxBytesPerInteger
      · rw [if_pos hroom, if_pos hfits]
      · rw [if_neg hroom, if_neg (not_lt.2 hcode), if_neg (by omega)]
    · rw [hunfold]
      exact hnext (lt_of_succ_lt_succ hlt)
  · refine ⟨0, zero_le _, ?_, by simpa [deltaBytes] using hbytes, fun _ => ?_⟩
    · rw [if_neg (by omega), if_neg (not_lt.2 hcode), if_pos (by omega)]
      simp [deltaBytes]
    · rw [hunfold]
      simp only [take_zero, deltaBytes, append_nil, length_append]
      omega

/-- bytes with a zero added if their number is odd -/
def padded (bytes : List UInt8) : List UInt8 :=
  if bytes.length ≠ shortalign bytes.length then bytes ++ [0] else bytes

theorem padded_length (bytes : List UInt8) : (padded bytes).length = shortalign bytes.length := by
  rw [padded]
  split
  · rename_i h
    rw [length_append, length_singleton]
    unfold shortalign at h ⊢
    omega
  · omega

/-- A segment with fewer than `2 ^ 16` bytes. -/
def segmentBytes (first : ItemPointerData) (ipd : List ItemPointerData) : List UInt8 :=
  itemPointerBytes first ++ uint16Bytes (UInt16.ofNat (deltaBytes (itemptrToUint64 first) ipd).length) ++
    padded (deltaBytes (itemptrToUint64 first) ipd)

theorem segmentBytes_length (first : ItemPointerData) (ipd : List ItemPointerData) :
    (segmentBytes first ipd).length =
      offsetofBytes + shortalign (deltaBytes (itemptrToUint64 first) ipd).length := by
  rw [segmentBytes, length_append, padded_length]
  rfl

theorem ofNat_toNat {n : ℕ} (h : n < 2 ^ 16) : (UInt16.ofNat n).toNat = n :=
  mod_eq_of_lt h

/-- the padding byte at the end, as the code writes it -/
def padEnd (bytes : List UInt8) : List UInt8 :=
  if (UInt16.ofNat bytes.length).toNat ≠ shortalign (UInt16.ofNat bytes.length).toNat then
    writeByte bytes (UInt16.ofNat bytes.length).toNat 0 else bytes

theorem padEnd_eq (h : bytes.length < 2 ^ 16) : padEnd bytes = padded bytes := by
  rw [padEnd, ofNat_toNat h, padded, writeByte, take_length, drop_eq_nil_of_le (le_succ _)]

variable {first : ItemPointerData} {nallocated : ℕ}

theorem ginCompressPostingList_eq {maxsize maxbytes total : ℕ}
    (halloc : shortalignDown maxsize ≤ maxAllocSize)
    (hmaxbytes : shortalignDown maxsize = offsetofBytes + maxbytes)
    (hrun : packLoop maxbytes (itemptrToUint64 first) [] 1 ipd = .ok (bytes, total))
    (hbytes : (padEnd bytes).length ≤ maxbytes) :
    ginCompressPostingList (first :: ipd) maxsize =
      .ok (itemPointerBytes first ++ uint16Bytes (UInt16.ofNat bytes.length) ++ padEnd bytes,
        total) := by
  rw [ginCompressPostingList, palloc_ok halloc]
  dsimp only [bind, Except.bind]
  rw [hmaxbytes, if_neg (Nat.not_lt.2 (Nat.le_add_right _ _)), Nat.add_sub_cancel_left, hrun]
  exact if_pos hbytes

/-- What a call writes: the first items that fit, as one segment. -/
structure Compressed (ipd : List ItemPointerData) (maxsize : ℕ) (segment : List UInt8)
    (nwritten : ℕ) : Prop where
  nwritten_le : nwritten ≤ ipd.length
  segment_eq : ∃ first rest, ipd.take nwritten = first :: rest ∧ segment = segmentBytes first rest ∧
    (deltaBytes (itemptrToUint64 first) rest).length < 2 ^ 16
  size_le : segment.length ≤ maxsize
  full : nwritten < ipd.length → ∃ first rest, ipd.take (nwritten + 1) = first :: rest ∧
    maxsize < (segmentBytes first rest).length

theorem ginCompressPostingList_spec (hne : ipd ≠ []) (hshort : ShortOffsets ipd)
    (hinc : Increasing ipd) {maxsize : ℕ} (hmin : offsetofBytes ≤ maxsize)
    (hmax : maxsize < offsetofBytes + 2 ^ 16) :
    ∃ segment nwritten, ginCompressPostingList ipd maxsize = .ok (segment, nwritten) ∧
      Compressed ipd maxsize segment nwritten := by
  cases ipd with
  | nil => exact absurd rfl hne
  | cons first ipd => ?_
  have hdown : shortalignDown maxsize ≤ maxsize ∧ maxsize < shortalignDown maxsize + 2 ∧
      offsetofBytes ≤ shortalignDown maxsize := by
    unfold shortalignDown offsetofBytes at *
    omega
  have heven : shortalign (shortalignDown maxsize - offsetofBytes) =
      shortalignDown maxsize - offsetofBytes := by
    unfold shortalign shortalignDown offsetofBytes at *
    omega
  set maxbytes := shortalignDown maxsize - offsetofBytes with hmaxbytes
  obtain ⟨n, hn, hrun, hlen, hnext⟩ := packLoop_spec maxbytes ipd first [] 1 hshort hinc (zero_le _)
  rw [nil_append] at hrun hlen hnext
  set bytes := deltaBytes (itemptrToUint64 first) (ipd.take n) with hbytes
  have hshortalign : ∀ {a b : ℕ}, a ≤ b → shortalign a ≤ shortalign b := by
    unfold shortalign
    omega
  have hpadded : (padded bytes).length ≤ maxbytes := by
    rw [padded_length, ← heven]
    exact hshortalign hlen
  have hsmall : bytes.length < 2 ^ 16 := by omega
  refine ⟨segmentBytes first (ipd.take n), 1 + n, ?_, ⟨?_, ?_, ?_, ?_⟩⟩
  · have halloc : shortalignDown maxsize ≤ maxAllocSize := by
      unfold maxAllocSize
      unfold offsetofBytes at hmax
      omega
    have hpad := padEnd_eq hsmall
    rw [ginCompressPostingList_eq halloc (by omega) hrun (by rwa [hpad]), hpad]
    rfl
  · rw [add_comm]
    exact succ_le_succ hn
  · exact ⟨first, ipd.take n, by rw [add_comm, take_succ_cons], rfl, hsmall⟩
  · rw [segmentBytes_length, ← hbytes, ← padded_length]
    omega
  · intro hmore
    rw [length_cons] at hmore
    refine ⟨first, ipd.take (n + 1), by rw [add_comm 1, take_succ_cons], ?_⟩
    rw [segmentBytes_length]
    unfold shortalign at heven ⊢
    omega

theorem enlarge_spec {ndecoded : ℕ} (hpos : 0 < nallocated) (hle : ndecoded ≤ nallocated)
    (halloc : ndecoded * 12 ≤ maxAllocSize) :
    ∃ n, enlarge ndecoded nallocated = .ok n ∧ ndecoded < n := by
  rw [enlarge]
  by_cases hfull : ndecoded ≥ nallocated
  · rw [if_pos hfull, palloc_ok (by omega)]
    exact ⟨nallocated * 2, rfl, by omega⟩
  · rw [if_neg hfull]
    exact ⟨nallocated, rfl, Nat.lt_of_not_le hfull⟩

theorem storeItem_ok {result : List ItemPointerData} (h : result.length < nallocated)
    (iptr : ItemPointerData) :
    storeItem result nallocated iptr = .ok (result ++ [iptr]) := if_pos h

theorem decodeSegment_spec (ipd : List ItemPointerData) (prev : ItemPointerData) (fuel ptr : ℕ)
    (result : List ItemPointerData) (nallocated : ℕ) (hshort : ShortOffsets (prev :: ipd))
    (hinc : Increasing (prev :: ipd)) (h : At mem ptr (deltaBytes (itemptrToUint64 prev) ipd))
    (hfuel : (deltaBytes (itemptrToUint64 prev) ipd).length ≤ fuel) (hpos : 0 < nallocated)
    (hle : result.length ≤ nallocated) (halloc : (result ++ ipd).length * 12 ≤ maxAllocSize) :
    ∃ n, decodeSegment mem (ptr + (deltaBytes (itemptrToUint64 prev) ipd).length) fuel
      (itemptrToUint64 prev) ptr result nallocated =
        .ok (result ++ ipd, n) ∧ 0 < n ∧ (result ++ ipd).length ≤ n := by
  induction ipd generalizing prev fuel ptr result nallocated with
  | nil =>
    refine ⟨nallocated, ?_, hpos, by simpa using hle⟩
    cases fuel <;> rw [decodeSegment, if_neg (by simp [deltaBytes]), append_nil]
  | cons iptr ipd ih => ?_
  have hdelta := delta_lt hshort hinc mem_cons_self
  rw [deltaBytes, length_append] at hfuel ⊢
  obtain ⟨hcode, hrest⟩ := at_append.1 h
  have hcodePos := encodeVarbyte_length_pos (itemptrToUint64 iptr - itemptrToUint64 prev)
  have hassoc : result ++ iptr :: ipd = result ++ [iptr] ++ ipd := by rw [append_assoc, singleton_append]
  obtain ⟨n, hgrow, hlt⟩ := enlarge_spec hpos hle (by rw [length_append] at halloc; omega)
  have hval : itemptrToUint64 prev + (itemptrToUint64 iptr - itemptrToUint64 prev) =
      itemptrToUint64 iptr := by
    rw [UInt64.add_comm, UInt64.sub_add_cancel]
  cases fuel with
  | zero => omega
  | succ fuel => ?_
  rw [decodeSegment, if_pos (by omega), hgrow]
  dsimp only [bind, Except.bind]
  rw [decodeVarbyte_encode hdelta hcode]
  dsimp only
  rw [hval, uint64ToItemptr_itemptrToUint64 (hshort iptr (mem_cons_of_mem _ mem_cons_self)),
    storeItem_ok hlt]
  rw [← add_assoc, hassoc]
  apply ih iptr fuel _ (result ++ [iptr]) n hshort.tail hinc.tail hrest (by omega) (zero_lt_of_lt hlt)
  · rw [length_append]
    exact hlt
  · rwa [← hassoc]

/-- A segment that holds the first item and these others. -/
def WellFormed (seg : ItemPointerData × List ItemPointerData) : Prop :=
  ShortOffsets (seg.1 :: seg.2) ∧ Increasing (seg.1 :: seg.2) ∧
    (deltaBytes (itemptrToUint64 seg.1) seg.2).length < 2 ^ 16

def segmentsBytes (segs : List (ItemPointerData × List ItemPointerData)) : List UInt8 :=
  segs.flatMap fun seg => segmentBytes seg.1 seg.2

def segmentsItems (segs : List (ItemPointerData × List ItemPointerData)) : List ItemPointerData :=
  segs.flatMap fun seg => seg.1 :: seg.2

variable {ipd : List ItemPointerData} {segment : ℕ} (h : At mem segment (segmentBytes first ipd))
include h

theorem readNbytes_of_at :
    readNbytes mem segment = .ok (UInt16.ofNat (deltaBytes (itemptrToUint64 first) ipd).length) := by
  obtain ⟨hheader, -⟩ := at_append.1 h
  exact readUint16_of_at (at_append.1 hheader).2

theorem deltaBytes_at :
    At mem (segment + offsetofBytes) (deltaBytes (itemptrToUint64 first) ipd) := by
  have hbytes := (at_append.1 h).2
  rw [padded] at hbytes
  split at hbytes
  · exact (at_append.1 hbytes).1
  · exact hbytes

omit h

variable (segs : List (ItemPointerData × List ItemPointerData))
include segs

theorem decodeSegments_spec (fuel segment : ℕ) (result : List ItemPointerData)
    (nallocated : ℕ) (hwf : ∀ seg ∈ segs, WellFormed seg) (h : At mem segment (segmentsBytes segs))
    (hfuel : (segmentsBytes segs).length ≤ fuel) (hpos : 0 < nallocated)
    (hle : result.length ≤ nallocated)
    (halloc : (result ++ segmentsItems segs).length * 12 ≤ maxAllocSize) :
    decodeSegments mem (segment + (segmentsBytes segs).length) fuel segment result nallocated =
      .ok (result ++ segmentsItems segs) := by
  induction segs generalizing fuel segment result nallocated with
  | nil => cases fuel <;> simp [decodeSegments, segmentsBytes, segmentsItems]
  | cons seg segs ih => ?_
  obtain ⟨first, ipd⟩ := seg
  obtain ⟨hshort, hinc, hsmall⟩ := hwf _ mem_cons_self
  have hbytes : segmentsBytes ((first, ipd) :: segs) = segmentBytes first ipd ++ segmentsBytes segs :=
    flatMap_cons
  have hitems : result ++ segmentsItems ((first, ipd) :: segs) = result ++ [first] ++ ipd ++
      segmentsItems segs := by
    simp [segmentsItems]
  rw [hbytes, length_append] at hfuel ⊢
  obtain ⟨hseg, hrest⟩ := at_append.1 h
  have hlength := segmentBytes_length first ipd
  have hsize : sizeOfGinPostingList (UInt16.ofNat (deltaBytes (itemptrToUint64 first) ipd).length) =
      (segmentBytes first ipd).length := by
    rw [sizeOfGinPostingList, ofNat_toNat hsmall, hlength]
  rw [hitems] at halloc ⊢
  simp only [length_append] at halloc
  obtain ⟨n, hgrow, hlt⟩ := enlarge_spec hpos hle (by omega)
  obtain ⟨n', hrun, hpos', hle'⟩ :=
    decodeSegment_spec ipd first _ _ (result ++ [first]) n hshort hinc (deltaBytes_at hseg) le_rfl
    (zero_lt_of_lt hlt) (by rw [length_append]; exact hlt) (by simp only [length_append]; omega)
  cases fuel with
  | zero =>
    unfold offsetofBytes at hlength
    omega
  | succ fuel => ?_
  rw [decodeSegments, if_pos (by unfold offsetofBytes at hlength; omega), hgrow]
  dsimp only [bind, Except.bind]
  rw [readFirst_of_at (at_append.1 (at_append.1 hseg).1).1]
  dsimp only
  rw [storeItem_ok hlt, readNbytes_of_at hseg]
  dsimp only
  rw [ofNat_toNat hsmall, hrun]
  rw [hsize, ← add_assoc]
  apply ih fuel _ _ n' (fun s hs => hwf s (mem_cons_of_mem _ hs)) hrest _ hpos' hle'
  · simp only [length_append]
    exact halloc
  · unfold offsetofBytes at hlength
    omega

theorem decodeAll_segments (hne : segs ≠ [])
    (hwf : ∀ seg ∈ segs, WellFormed seg) (rest : List UInt8)
    (halloc : (segmentsItems segs).length * 12 ≤ maxAllocSize) :
    ginPostingListDecodeAllSegments (segmentsBytes segs ++ rest) (segmentsBytes segs).length =
      .ok (segmentsItems segs) := by
  have hat := at_zero (segmentsBytes segs) rest
  have hnbytes : ∃ nbytes, readNbytes (segmentsBytes segs ++ rest) 0 = .ok nbytes := by
    cases segs with
    | nil => exact absurd rfl hne
    | cons seg segs => exact ⟨_, readNbytes_of_at (at_append.1 hat).1⟩
  obtain ⟨nbytes, hread⟩ := hnbytes
  have hlt := nbytes.toNat_lt
  rw [ginPostingListDecodeAllSegments, hread]
  dsimp only [bind, Except.bind]
  rw [palloc_ok (by unfold maxAllocSize; omega)]
  have := decodeSegments_spec segs (segmentsBytes segs).length 0 []
    (nbytes.toNat * 2 + 1) hwf hat le_rfl (succ_pos _)
    (zero_le _) halloc
  rwa [zero_add] at this

omit segs

theorem decode_segment (hwf : WellFormed (first, ipd)) (rest : List UInt8) :
    ginPostingListDecode (segmentBytes first ipd ++ rest) = .ok (first :: ipd) := by
  have hone : segmentsBytes [(first, ipd)] = segmentBytes first ipd := append_nil _
  have hitems : segmentsItems [(first, ipd)] = first :: ipd := append_nil _
  have hcount : ∀ (prev : UInt64) (xs : List ItemPointerData),
      xs.length ≤ (deltaBytes prev xs).length := by
    intro prev xs
    induction xs generalizing prev with
    | nil => exact le_rfl
    | cons x xs ih =>
      rw [deltaBytes, length_append, length_cons]
      have := encodeVarbyte_length_pos (itemptrToUint64 x - prev)
      have := ih (itemptrToUint64 x)
      omega
  have hlen := hcount (itemptrToUint64 first) ipd
  have hsmall := hwf.2.2
  have hall := decodeAll_segments [(first, ipd)] (cons_ne_nil _ _)
    (fun seg hseg => mem_singleton.1 hseg ▸ hwf) rest (by
      rw [hitems, length_cons]
      unfold maxAllocSize
      dsimp only at hsmall
      omega)
  rw [hone, hitems] at hall
  rw [ginPostingListDecode, readNbytes_of_at (at_zero _ rest)]
  dsimp only [bind, Except.bind]
  rw [sizeOfGinPostingList, ofNat_toNat hsmall, ← segmentBytes_length]
  exact hall

/-- A call of `ginCompressPostingList`: the items and `maxsize`. -/
abbrev Call := List ItemPointerData × ℕ

variable {call : Call}

def Call.Valid (call : Call) : Prop :=
  call.1 ≠ [] ∧ ShortOffsets call.1 ∧ Increasing call.1 ∧ offsetofBytes ≤ call.2 ∧
    call.2 < offsetofBytes + 2 ^ 16

/-- The call wrote these bytes and this number of items: they fit, they are decoded from the
bytes, and one more item would not have fit. -/
def Call.Writes (call : Call) (segment : List UInt8) (nwritten : ℕ) : Prop :=
  ginCompressPostingList call.1 call.2 = .ok (segment, nwritten) ∧ nwritten ≤ call.1.length ∧
    segment.length ≤ call.2 ∧
    (∀ rest, ginPostingListDecode (segment ++ rest) = .ok (call.1.take nwritten)) ∧
    (nwritten < call.1.length → ∃ first ipd, call.1.take (nwritten + 1) = first :: ipd ∧
      call.2 < offsetofBytes + shortalign (deltaBytes (itemptrToUint64 first) ipd).length)

theorem Compressed.wellFormed (hcall : call.Valid) {segment : List UInt8} {nwritten : ℕ}
    (h : Compressed call.1 call.2 segment nwritten) :
    ∃ seg, WellFormed seg ∧ call.1.take nwritten = seg.1 :: seg.2 ∧
      segment = segmentBytes seg.1 seg.2 := by
  obtain ⟨first, rest, htake, hseg, hsmall⟩ := h.segment_eq
  refine ⟨(first, rest), ⟨?_, ?_, hsmall⟩, htake, hseg⟩
  · rw [← htake]
    exact hcall.2.1.take nwritten
  · rw [← htake]
    exact hcall.2.2.1.take nwritten

theorem Call.writes (hcall : call.Valid) :
    ∃ seg nwritten, WellFormed seg ∧ call.1.take nwritten = seg.1 :: seg.2 ∧
      call.Writes (segmentBytes seg.1 seg.2) nwritten := by
  obtain ⟨hne, hshort, hinc, hmin, hmax⟩ := hcall
  obtain ⟨segment, nwritten, hrun, hcomp⟩ := ginCompressPostingList_spec hne hshort hinc hmin hmax
  obtain ⟨seg, hwf, htake, rfl⟩ := hcomp.wellFormed ⟨hne, hshort, hinc, hmin, hmax⟩
  refine ⟨seg, nwritten, hwf, htake, hrun, hcomp.nwritten_le, hcomp.size_le,
    fun rest => ?_, fun hlt => ?_⟩
  · rw [htake]
    exact decode_segment hwf rest
  · obtain ⟨first, ipd, hnext, hfull⟩ := hcomp.full hlt
    exact ⟨first, ipd, hnext, by rwa [← segmentBytes_length]⟩

/-- Every call writes a segment from which its first items are decoded again, as many as fit in
`maxsize`; the segments one after the other decode to the items of all of them. -/
theorem ginPostingList_decode (calls : List Call) (hcalls : ∀ call ∈ calls, call.Valid) :
    ∃ outs : List (List UInt8 × ℕ), List.Forall₂ (fun call out => call.Writes out.1 out.2) calls outs ∧
      (calls ≠ [] → (List.zipWith (fun call out => call.1.take out.2) calls outs).flatten.length * 12 ≤
        maxAllocSize → ∀ rest,
        ginPostingListDecodeAllSegments ((outs.map Prod.fst).flatten ++ rest)
        (outs.map Prod.fst).flatten.length =
          .ok (List.zipWith (fun call out => call.1.take out.2) calls outs).flatten) := by
  have hall : ∃ segs : List (ItemPointerData × List ItemPointerData), ∃ outs : List (List UInt8 × ℕ),
      (∀ seg ∈ segs, WellFormed seg) ∧
      List.Forall₂ (fun call out => call.Writes out.1 out.2) calls outs ∧
      (outs.map Prod.fst).flatten = segmentsBytes segs ∧
      (zipWith (fun (call : Call) out => call.1.take out.2) calls outs).flatten = segmentsItems segs ∧
      (calls ≠ [] → segs ≠ []) := by
    induction calls with
    | nil => exact ⟨[], [], fun _ h => absurd h not_mem_nil, .nil, rfl, rfl, fun h => absurd rfl h⟩
    | cons call calls ih => ?_
    obtain ⟨segs, outs, hwf, hforall, hbytes, hitems, -⟩ :=
      ih fun c hc => hcalls c (mem_cons_of_mem _ hc)
    obtain ⟨seg, nwritten, hseg, htake, hwrites⟩ := Call.writes (hcalls call mem_cons_self)
    refine ⟨seg :: segs, (segmentBytes seg.1 seg.2, nwritten) :: outs, ?_, .cons hwrites hforall, ?_, ?_,
      fun _ => cons_ne_nil _ _⟩
    · intro s hs
      rcases mem_cons.1 hs with rfl | hs
      · exact hseg
      · exact hwf s hs
    · rw [map_cons, flatten_cons, hbytes]
      rfl
    · rw [zipWith_cons_cons, flatten_cons, hitems, htake]
      rfl
  obtain ⟨segs, outs, hwf, hforall, hbytes, hitems, hne⟩ := hall
  refine ⟨outs, hforall, fun hcne halloc rest => ?_⟩
  rw [hitems] at halloc ⊢
  rw [hbytes]
  exact decodeAll_segments segs (hne hcne) hwf rest halloc

/-- Two items that fit, three of which the last does not, both segments in one piece of memory. -/
theorem ginPostingList_decode_two :
    ginPostingListDecodeAllSegments
      [0, 0, 0, 0, 1, 0, 2, 0, 130, 112, 0, 0, 8, 0, 1, 0, 1, 0, 1, 0] 20 =
        .ok [⟨0, 1⟩, ⟨7, 3⟩, ⟨8, 1⟩, ⟨8, 2⟩] := by
  have hvalid :
      ∀ call ∈ ([([⟨0, 1⟩, ⟨7, 3⟩], 100), ([⟨8, 1⟩, ⟨8, 2⟩, ⟨4294967295, 2⟩], 11)] : List Call),
      call.Valid := by
    intro call hcall
    simp only [mem_cons, not_mem_nil, or_false] at hcall
    rcases hcall
      with rfl | rfl <;> exact ⟨cons_ne_nil _ _,
        by unfold ShortOffsets; decide, by unfold Increasing; decide, by decide, by decide⟩
  obtain ⟨outs, hforall, hdecode⟩ := ginPostingList_decode _ hvalid
  have hrun : ∀ (call : Call) (out out' : List UInt8 × ℕ), call.Writes out.1 out.2 →
      ginCompressPostingList call.1 call.2 = .ok out' → out = out' := by
    intro call out out' hwrites hout
    exact Except.ok.inj (hwrites.1.symm.trans hout)
  cases hforall with
  | cons h1 hrest =>
    cases hrest with
    | cons h2 hnil =>
      cases hnil
      obtain rfl := hrun _ _ ([0, 0, 0, 0, 1, 0, 2, 0, 130, 112], 2) h1 (by decide +kernel)
      obtain rfl := hrun _ _ ([0, 0, 8, 0, 1, 0, 1, 0, 1, 0], 2) h2 (by decide +kernel)
      exact hdecode (cons_ne_nil _ _) (by decide) []

def consecutive (v n : ℕ) : List ItemPointerData :=
  (List.range' v n).map fun i => uint64ToItemptr (UInt64.ofNat i)

theorem itemptrToUint64_uint64ToItemptr {v : ℕ} (h : v < 2 ^ 43) :
    itemptrToUint64 (uint64ToItemptr (UInt64.ofNat v)) = UInt64.ofNat v := by
  have hval : (UInt64.ofNat v).toNat = v := by
    rw [toNat_ofNat']
    omega
  have hposid : (uint64ToItemptr (UInt64.ofNat v)).ipPosid.toNat = v % 2 ^ 11 := by
    rw [uint64ToItemptr, UInt64.toNat_toUInt16, UInt64.toNat_and]
    change (_ &&& (2 ^ 11 - 1)) % 2 ^ 16 = _
    rw [and_two_pow_sub_one_eq_mod]
    omega
  have hblkid : (uint64ToItemptr (UInt64.ofNat v)).ipBlkid.toNat = v / 2 ^ 11 := by
    rw [uint64ToItemptr, UInt64.toNat_toUInt32, UInt64.toNat_shiftRight]
    change _ >>> 11 % 2 ^ 32 = _
    omega
  apply UInt64.toNat_inj.1
  rw [itemptrToUint64_toNat (by omega), hposid]
  omega

theorem shortOffsets_consecutive (v n : ℕ) : ShortOffsets (consecutive v n) := by
  intro iptr hiptr
  obtain ⟨i, -, rfl⟩ := mem_map.1 hiptr
  change (_ &&& (2 ^ 11 - 1)) % 2 ^ 16 < _
  rw [and_two_pow_sub_one_eq_mod]
  omega

theorem increasing_consecutive {v n : ℕ} (h : v + n ≤ 2 ^ 43) : Increasing (consecutive v n) := by
  have hshort := shortOffsets_consecutive v n
  rw [Increasing, consecutive, pairwise_map]
  refine (pairwise_lt_range').imp_of_mem fun {i j} hi hj hlt => ?_
  rw [compare_lt_iff (hshort _ (mem_map_of_mem hi)) (hshort _ (mem_map_of_mem hj))]
  rw [mem_range'_1] at hi hj
  rw [itemptrToUint64_uint64ToItemptr (by omega),
    itemptrToUint64_uint64ToItemptr (by omega), toNat_ofNat', toNat_ofNat']
  omega

theorem deltaBytes_consecutive (n v : ℕ) (h : v + 1 + n ≤ 2 ^ 43) :
    deltaBytes (UInt64.ofNat v) (consecutive (v + 1) n) = List.replicate n 1 := by
  induction n generalizing v with
  | zero => rfl
  | succ n ih => ?_
  have hdelta : ofNat (v + 1) - ofNat v = 1 := by
    rw [UInt64.ofNat_add, UInt64.add_comm, UInt64.add_sub_cancel]
    rfl
  have hone : encodeVarbyte 1 = [1] := by
    rw [encodeVarbyte_eq]
    exact Varint.encode_of_lt (by decide)
  rw [consecutive, range'_succ, map_cons, deltaBytes,
    itemptrToUint64_uint64ToItemptr (by omega), hdelta, hone]
  exact congrArg _ (ih (v + 1) (by omega))

/-- In `2 ^ 16` bytes `nbytes` does not fit its `uint16`; of all the items only the first is decoded. -/
theorem ginCompressPostingList_nbytes_overflow :
    ShortOffsets (consecutive 1 65537) ∧ Increasing (consecutive 1 65537) ∧
      ∃ segment, ginCompressPostingList (consecutive 1 65537) (offsetofBytes + 65536) =
        .ok (segment, 65537) ∧ ginPostingListDecode segment = .ok ((consecutive 1 65537).take 1) := by
  have hshort := shortOffsets_consecutive 1 65537
  have hinc := increasing_consecutive (v := 1) (n := 65537) (by decide)
  set first := uint64ToItemptr (ofNat 1)
  have hcons : consecutive 1 65537 = first :: consecutive 2 65536 := by
    rfl
  have hfirst : itemptrToUint64 first = ofNat 1 := itemptrToUint64_uint64ToItemptr (by decide)
  have hlength : (consecutive 2 65536).length = 65536 := by rw [consecutive, length_map, length_range']
  have hall := deltaBytes_consecutive 65536 1 (by decide)
  rw [hcons] at hshort hinc ⊢
  obtain ⟨n, hn, hrun, -, hnext⟩ :=
    packLoop_spec 65536 (consecutive 2 65536) first [] 1 hshort hinc (zero_le _)
  -- every item finds place
  obtain rfl : n = 65536 := by
    rcases lt_or_ge n 65536 with hlt | hge
    · have hover := hnext (by omega)
      have htake : (consecutive 2 65536).take (n + 1) = consecutive 2 (n + 1) := by
        rw [consecutive, consecutive, ← map_take, ← Nat.add_sub_cancel' hlt, ← List.range'_append_1,
          take_left' length_range']
      rw [htake, hfirst, deltaBytes_consecutive (n + 1) 1 (by omega), nil_append, length_replicate]
        at hover
      omega
    · omega
  rw [take_of_length_le hlength.le, hfirst, hall, nil_append] at hrun
  obtain ⟨bytes, hbytes, hlen⟩ : ∃ bytes : List UInt8, replicate 65536 1 = bytes ∧
      bytes.length = 65536 :=
    ⟨_, rfl, length_replicate⟩
  rw [hbytes, ← hfirst] at hrun
  have hzero : UInt16.ofNat 65536 = 0 := by decide
  have hpad : padEnd bytes = bytes := by
    rw [padEnd, hlen]
    exact if_neg (by decide)
  have hempty : segmentBytes first [] = itemPointerBytes first ++ uint16Bytes 0 := by
    rw [segmentBytes, padded, if_neg (by decide)]
    rfl
  refine ⟨hshort, hinc, segmentBytes first [] ++ bytes, ?_, ?_⟩
  · rw [ginCompressPostingList_eq (by decide) (by decide) hrun (by rw [hpad, hlen]),
      hpad, hlen, hzero, hempty]
  · exact decode_segment ⟨fun x hx => hshort x (mem_cons.2 (.inl (mem_singleton.1 hx))),
      pairwise_singleton _ _, by decide⟩ _

variable {sub : List ItemPointerData} {maxbytes : ℕ}

theorem length_encodeVarbyte_add (x y : UInt64) :
    (encodeVarbyte (x + y)).length ≤ (encodeVarbyte x).length + (encodeVarbyte y).length := by
  simp only [encodeVarbyte_eq, UInt64.toNat_add]
  exact (Varint.length_encode_mono (mod_le _ _)).trans (Varint.length_encode_add _ _)

theorem length_deltaBytes_skip (prev item : UInt64) (ipd : List ItemPointerData) :
    (deltaBytes prev ipd).length ≤ (encodeVarbyte (item - prev)).length +
      (deltaBytes item ipd).length := by
  cases ipd with
  | nil => exact zero_le _
  | cons iptr ipd =>
    have h := length_encodeVarbyte_add (item - prev) (itemptrToUint64 iptr - item)
    rw [show item - prev + (itemptrToUint64 iptr - item) = itemptrToUint64 iptr - prev by grind] at h
    simp only [deltaBytes, length_append]
    omega

theorem length_deltaBytes_sublist (h : sub.Sublist ipd) (prev : UInt64) :
    (deltaBytes prev sub).length ≤ (deltaBytes prev ipd).length := by
  induction h generalizing prev with
  | slnil => exact le_rfl
  | cons iptr h ih =>
    rw [deltaBytes, length_append]
    exact (length_deltaBytes_skip _ _ _).trans (Nat.add_le_add_left (ih _) _)
  | cons_cons iptr h ih =>
    simp only [deltaBytes, length_append]
    exact Nat.add_le_add_left (ih _) _

/-- All items are packed just if their bytes fit. -/
theorem packLoop_complete (prev : UInt64) (total : ℕ) (ipd : List ItemPointerData) (out : List UInt8)
    (hbytes : bytes.length ≤ maxbytes) :
    packLoop maxbytes prev bytes total ipd = .ok (out, total + ipd.length) ↔
      out = bytes ++ deltaBytes prev ipd ∧ out.length ≤ maxbytes := by
  induction ipd generalizing prev bytes total with
  | nil =>
    simp only [packLoop, deltaBytes, append_nil, length_nil, add_zero, Except.ok.injEq,
      Prod.mk.injEq, and_true]
    grind
  | cons iptr ipd ih =>
    have hnext (h : (bytes ++ encodeVarbyte (itemptrToUint64 iptr - prev)).length ≤ maxbytes) :=
      ih (itemptrToUint64 iptr) (total + 1) h
    rw [packLoop]
    simp only [deltaBytes, length_cons, maxBytesPerInteger]
    split_ifs <;> grind

theorem length_padEnd (bytes : List UInt8) : (padEnd bytes).length =
    if bytes.length < 2 ^ 16 ∧ bytes.length % 2 = 1 then bytes.length + 1 else bytes.length := by
  have hmod : (UInt16.ofNat bytes.length).toNat = bytes.length % 2 ^ 16 := UInt16.toNat_ofNat'
  rw [padEnd, hmod, shortalign]
  split_ifs <;> simp [writeByte] <;> omega

theorem length_padEnd_mono {bytes' : List UInt8} (h : bytes'.length ≤ bytes.length) :
    (padEnd bytes').length ≤ (padEnd bytes).length := by
  rw [length_padEnd, length_padEnd]
  split_ifs <;> omega

theorem ginCompressPostingList_complete {first : ItemPointerData} {maxsize : ℕ} {segment : List UInt8} :
    ginCompressPostingList (first :: ipd) maxsize = .ok (segment, (first :: ipd).length) ↔
      shortalignDown maxsize ≤ maxAllocSize ∧
      offsetofBytes + (padEnd (deltaBytes (itemptrToUint64 first) ipd)).length ≤ shortalignDown maxsize ∧
      segment = itemPointerBytes first ++ uint16Bytes
      (UInt16.ofNat (deltaBytes (itemptrToUint64 first) ipd).length) ++
        padEnd (deltaBytes (itemptrToUint64 first) ipd) := by
  have hloop (out : List UInt8) := packLoop_complete (itemptrToUint64 first) 1 ipd out
    (show ([] : List UInt8).length ≤ shortalignDown maxsize - offsetofBytes from zero_le _)
  rw [add_comm] at hloop
  constructor
  · intro h
    rw [ginCompressPostingList] at h
    obtain ⟨u, halloc, h⟩ := Result.bind_eq_ok.1 h
    split_ifs at h with hmin
    obtain ⟨⟨bytes, total⟩, hrun, h⟩ := Result.bind_eq_ok.1 h
    dsimp only at h
    change (if (padEnd bytes).length ≤ _ then Except.ok (_ ++ padEnd bytes, total) else _) = _ at h
    split_ifs at h with hfits
    obtain ⟨rfl, rfl⟩ := Prod.mk.inj (Except.ok.inj h)
    obtain ⟨rfl, -⟩ := (hloop bytes).1 hrun
    refine ⟨?_, by rw [nil_append] at hfits; omega, rfl⟩
    by_contra hbig
    rw [palloc_error hbig] at halloc
    cases halloc
  · rintro ⟨halloc, hsize, rfl⟩
    have hpad := length_padEnd (deltaBytes (itemptrToUint64 first) ipd)
    refine ginCompressPostingList_eq halloc (Nat.add_sub_cancel' (by omega)).symm
      ((hloop _).2 ⟨rfl, ?_⟩) ?_
    · split_ifs at hpad <;> omega
    · exact Nat.le_sub_of_add_le' hsize

/-- Where a list fits, every list got from it by removing items fits too, and in no more bytes. -/
theorem ginCompressPostingList_sublist {maxsize : ℕ} {segment : List UInt8}
    (hsub : sub.Sublist ipd) (hne : sub ≠ [])
    (h : ginCompressPostingList ipd maxsize = .ok (segment, ipd.length)) :
    ∃ segment', ginCompressPostingList sub maxsize = .ok (segment', sub.length) ∧
      segment'.length ≤ segment.length := by
  obtain ⟨first', rest', rfl⟩ := exists_cons_of_ne_nil hne
  cases ipd with
  | nil => cases hsub
  | cons first rest => ?_
  obtain ⟨halloc, hsize, rfl⟩ := ginCompressPostingList_complete.1 h
  have hbytes : (deltaBytes (itemptrToUint64 first') rest').length ≤
      (deltaBytes (itemptrToUint64 first) rest).length := by
    rcases hsub with _ | _ | _
    · have := length_deltaBytes_sublist ‹_› (itemptrToUint64 first)
      rw [deltaBytes, length_append] at this
      omega
    · exact length_deltaBytes_sublist ‹_› _
  have hpad := length_padEnd_mono hbytes
  refine ⟨_, ginCompressPostingList_complete.2 ⟨halloc, by omega, rfl⟩, ?_⟩
  simp only [length_append]
  exact Nat.add_le_add_left hpad _

/-- without the item in the middle, the sum of the two deltas takes the three bytes that they took -/
theorem ginCompressPostingList_sublist_middle :
    ∃ segment, ginCompressPostingList [⟨0, 1⟩, ⟨8, 1⟩] 20 = .ok (segment, 2) ∧ segment.length ≤ 12 := by
  have h : ginCompressPostingList [⟨0, 1⟩, ⟨7, 3⟩, ⟨8, 1⟩] 20 =
      .ok ([0, 0, 0, 0, 1, 0, 4, 0, 130, 112, 254, 15], 3) := by
    decide +kernel
  exact ginCompressPostingList_sublist (by decide) (by decide) h

end Pg.Gin
