import PgRetrofit.Spec.HashTable
import PgRetrofit.Lib.Chain
import PgRetrofit.Lib.Result

/-! The dense storage of a hash table: every chunk is filled without gaps from its
start up to `used`, and the list of chunks passes through all of them. -/

namespace Pg.HashTable

open List Option

variable {α : Type*}

def link (T : HashTable α) (l : Loc) : Option Loc := (T.data.lookup l).bind HashTuple.next

def chunkNext (T : HashTable α) (c : ℕ) : Option ℕ := T.headers[c]?.bind Chunk.next

def sizeAt (T : HashTable α) (l : Loc) : Option ℕ := (T.data.lookup l).map HashTuple.size

/-- Tuples stored one behind the other in a chunk, from `idx` up to `stop`. -/
inductive Laid (size : Loc → Option ℕ) (chunk stop : ℕ) : ℕ → List Loc → Prop
  | done : Laid size chunk stop stop []
  | step {idx n : ℕ} {ls : List Loc} : size ⟨chunk, idx⟩ = some n → 0 < n →
      Laid size chunk stop (idx + n) ls → Laid size chunk stop idx (⟨chunk, idx⟩ :: ls)

section Laid

variable {size size' : Loc → Option ℕ} {chunk stop idx n : ℕ} {ls : List Loc}
  (h : Laid size chunk stop idx ls)
include h

theorem Laid.le : idx ≤ stop := by
  induction h with
  | done => exact le_rfl
  | step _ hn _ ih => omega

theorem Laid.mem {l : Loc} (hl : l ∈ ls) :
    l.chunk = chunk ∧ idx ≤ l.off ∧ l.off < stop ∧ (size l).isSome := by
  induction h with
  | done => cases hl
  | step hsz hn htail ih =>
    rcases mem_cons.1 hl with rfl | hl
    · have := htail.le
      exact ⟨rfl, le_rfl, by simp only; omega, by rw [hsz]; rfl⟩
    · obtain ⟨h1, h2, h3, h4⟩ := ih hl
      exact ⟨h1, by omega, h3, h4⟩

theorem Laid.nodup : ls.Nodup := by
  induction h with
  | done => exact nodup_nil
  | step _ hn htail ih =>
    refine nodup_cons.2 ⟨fun hmem => ?_, ih⟩
    have := (htail.mem hmem).2.1
    simp only at this
    omega

theorem Laid.congr (heq : ∀ l ∈ ls, size' l = size l) : Laid size' chunk stop idx ls := by
  induction h with
  | done => exact .done
  | step hsz hn _ ih =>
    refine .step ?_ hn (ih fun l hl => heq l (mem_cons_of_mem _ hl))
    rw [heq _ (mem_cons_self ..), hsz]

theorem Laid.snoc (hnew : size ⟨chunk, stop⟩ = some n) (hn : 0 < n) :
    Laid size chunk (stop + n) idx (ls ++ [⟨chunk, stop⟩]) := by
  induction h with
  | done => exact .step hnew hn .done
  | step hsz hm _ ih => exact .step hsz hm ih

end Laid

/-- What holds of chunk headers and buffers together. -/
structure Stored (T : HashTable α) : Prop where
  chunk_list : ∃ ids, Chain T.chunkNext T.chunks ids ∧ ids.Perm (List.range T.headers.length)
  layout : ∀ c hd, T.headers[c]? = some hd → hd.used ≤ hd.maxlen ∧
    ∃ ls, Laid T.sizeAt c hd.used 0 ls ∧ ls.length = hd.ntuples ∧ ∀ l ∈ T.data, l.chunk = c → l ∈ ls
  in_chunk : ∀ l ∈ T.data, l.chunk < T.headers.length

variable {T : HashTable α} {hd : Chunk} {c : ℕ}

theorem Stored.layout_iff (hT : Stored T) (hhd : T.headers[c]? = some hd) :
    ∃ ls, Laid T.sizeAt c hd.used 0 ls ∧ ls.length = hd.ntuples ∧
      ∀ l, l ∈ ls ↔ l ∈ T.data ∧ l.chunk = c := by
  obtain ⟨-, ls, hlaid, hcount, hall⟩ := hT.layout c hd hhd
  refine ⟨ls, hlaid, hcount, fun l => ⟨fun hl => ⟨?_, (hlaid.mem hl).1⟩, fun hl => hall l hl.1 hl.2⟩⟩
  have := (hlaid.mem hl).2.2.2
  rw [sizeAt, isSome_map] at this
  exact AList.lookup_isSome.1 this

theorem size_pos (h : HashTuple α) : 0 < h.size := by
  have := le_maxalign (hjtupleOverhead + h.tuple.tLen)
  unfold HashTuple.size
  unfold hjtupleOverhead at *
  omega

def put (T : HashTable α) (l : Loc) (h : HashTuple α) : HashTable α :=
  { T with data := T.data.insert l h }

theorem lookup_put (T : HashTable α) (l : Loc) (h : HashTuple α) (k : Loc) :
    (T.put l h).data.lookup k = if k = l then some h else T.data.lookup k := by
  split_ifs with hk
  · subst hk
    exact AList.lookup_insert _
  · exact AList.lookup_insert_ne hk

theorem sizeAt_put (T : HashTable α) (l : Loc) (h : HashTuple α) (k : Loc) :
    (T.put l h).sizeAt k = if k = l then some h.size else T.sizeAt k := by
  unfold sizeAt
  rw [lookup_put]
  split_ifs <;> rfl

variable {h : HashTuple α} {size maxlen first : ℕ}

theorem mem_put {l k : Loc} : k ∈ (T.put l h).data ↔ k = l ∨ k ∈ T.data :=
  AList.mem_insert ..

/-- A tuple written into a chunk of its own: the old chunks keep their buffers, the
list gets one chunk more. -/
theorem Stored.newChunk {T T' : HashTable α} (hT : Stored T)
    (nx : Option ℕ) (hdata : T'.data = T.data) (hlen : T'.headers.length = T.headers.length + 1)
    (hold : ∀ c hd, c < T.headers.length → T'.headers[c]? = some hd →
      ∃ hd0, T.headers[c]? = some hd0 ∧ hd.used = hd0.used ∧ hd.maxlen = hd0.maxlen ∧
      hd.ntuples = hd0.ntuples)
    (hnew : T'.headers[T.headers.length]? = some ⟨1, maxlen, size, nx⟩) (hle : size ≤ maxlen)
    (hlist : ∃ ids, Chain T'.chunkNext T'.chunks ids ∧ ids.Perm (range T'.headers.length))
    (hsize : h.size = size) : Stored (T'.put ⟨T.headers.length, 0⟩ h) := by
  have hmem : ∀ l ∈ T'.data, l.chunk < T.headers.length := fun l hl => hT.in_chunk l (hdata ▸ hl)
  refine ⟨hlist, fun c hd hc => ?_, fun l hl => ?_⟩
  · have hclt : c < T.headers.length + 1 := by
      rw [← hlen]
      exact (List.getElem?_eq_some_iff.1 hc).1
    rcases Nat.lt_succ_iff_lt_or_eq.1 hclt with hlt | rfl
    · obtain ⟨hd0, h0, hu, hm, hn⟩ := hold c hd hlt hc
      obtain ⟨hle0, ls, hlaid, hcount, hall⟩ := hT.layout c hd0 h0
      have hne : ∀ l : Loc, l.chunk = c → l ≠ ⟨T.headers.length, 0⟩ := by
        rintro l hl rfl
        simp only at hl
        omega
      refine ⟨by omega, ls, ?_, by omega, fun l hl hlc => ?_⟩
      · rw [hu]
        refine hlaid.congr fun l hl => ?_
        rw [sizeAt_put, if_neg (hne l (hlaid.mem hl).1), sizeAt, sizeAt, hdata]
      · rcases mem_put.1 hl with rfl | hl
        · exact absurd rfl (hne _ hlc)
        · exact hall l (hdata ▸ hl) hlc
    obtain rfl : hd = ⟨1, maxlen, size, nx⟩ := mem_unique hc hnew
    have hlaid : Laid (T'.put ⟨T.headers.length, 0⟩ h).sizeAt T.headers.length (0 + h.size) 0
        [⟨T.headers.length, 0⟩] :=
      .step (by rw [sizeAt_put, if_pos rfl]) (size_pos h) .done
    refine ⟨hle, _, by rw [← hsize]; simpa using hlaid, rfl, fun l hl hlc => ?_⟩
    rcases mem_put.1 hl with rfl | hl
    · exact mem_singleton_self _
    · exact absurd (hmem l hl) (by omega)
  · change l.chunk < T'.headers.length
    rcases mem_put.1 hl with rfl | hl
    · simp only
      omega
    · have := hmem l hl
      omega

theorem chunkNext_old {T' : HashTable α} (h : T'.headers = T.headers ++ [hd])
    (hc : c < T.headers.length) : T'.chunkNext c = T.chunkNext c := by
  rw [chunkNext, chunkNext, h, getElem?_append_left hc]

theorem chunkNext_new {T T' : HashTable α} {hs : List Chunk} (h : T'.headers = hs ++ [hd])
    (hlen : hs.length = T.headers.length) : T'.chunkNext T.headers.length = hd.next := by
  rw [chunkNext, h, ← hlen, getElem?_concat_length]
  rfl

theorem perm_range_succ {ids : List ℕ} {n : ℕ} (h : ids.Perm (range n)) :
    (n :: ids).Perm (range (n + 1)) := by
  rw [range_succ]
  exact (h.cons n).trans (perm_append_singleton n _).symm

variable (hT : Stored T)
include hT

theorem Stored.pushChunk (hle : size ≤ maxlen) (hsize : h.size = size) :
    Stored ((T.pushChunk maxlen size).1.put ⟨T.headers.length, 0⟩ h) := by
  have hheaders : (T.pushChunk maxlen size).1.headers = T.headers ++ [⟨1, maxlen, size, T.chunks⟩] := rfl
  refine hT.newChunk T.chunks rfl (by simp [hheaders]) ?_ (by simp [hheaders]) hle ?_ hsize
  · intro c hd hc hget
    rw [hheaders, getElem?_append_left hc] at hget
    exact ⟨hd, hget, rfl, rfl, rfl⟩
  obtain ⟨ids, hchain, hperm⟩ := hT.chunk_list
  refine ⟨T.headers.length :: ids, hchain.push (chunkNext_new hheaders rfl) fun c hc => ?_, ?_⟩
  · exact chunkNext_old hheaders (mem_range.1 (hperm.mem_iff.1 hc))
  · rw [hheaders, length_append]
    exact perm_range_succ hperm

theorem Stored.spliceChunk
    (hfirst : T.chunks = some first) (hhd : T.headers[first]? = some hd) (hsize : h.size = size) :
    Stored ((T.spliceChunk first hd size).1.put ⟨T.headers.length, 0⟩ h) := by
  set T' : HashTable α := (T.spliceChunk first hd size).1 with hT'
  have hheaders : T'.headers = T.headers.set first { hd with next := some T.headers.length } ++
    [⟨1, size, size, hd.next⟩] := rfl
  have hlen : T'.headers.length = T.headers.length + 1 := by simp [hheaders]
  obtain ⟨hflt, -⟩ := List.getElem?_eq_some_iff.1 hhd
  have hget : ∀ c, c < T.headers.length → T'.headers[c]? =
      if first = c then some { hd with next := some T.headers.length } else T.headers[c]? := by
    intro c hc
    rw [hheaders, getElem?_append_left (by simpa using hc), getElem?_set, if_pos hflt]
  refine hT.newChunk hd.next rfl hlen ?_ ?_ le_rfl ?_ hsize
  · intro c hd' hc hc'
    rw [hget c hc] at hc'
    split_ifs at hc' with he
    · subst he
      obtain rfl := some.inj hc'
      exact ⟨hd, hhd, rfl, rfl, rfl⟩
    · exact ⟨hd', hc', rfl, rfl, rfl⟩
  · rw [hheaders]
    simp
  obtain ⟨ids, hchain, hperm⟩ := hT.chunk_list
  rw [hfirst] at hchain
  cases hchain with
  | @cons _ rest hrest =>
    have hnd := (Chain.cons hrest).nodup
    have hin : ∀ c ∈ rest, c < T.headers.length := fun c hc =>
      mem_range.1 (hperm.mem_iff.1 (mem_cons_of_mem _ hc))
    refine ⟨first :: T.headers.length :: rest, ?_, ?_⟩
    · change Chain T'.chunkNext T.chunks _
      rw [hfirst]
      refine (Chain.cons hrest).splice ?_ ?_ fun c hc => ?_
      · rw [chunkNext, hget first hflt, if_pos rfl]
        rfl
      · rw [chunkNext_new hheaders (by simp), chunkNext, hhd]
        rfl
      · have hne : first ≠ c := fun he => (nodup_cons.1 hnd).1 (he ▸ hc)
        rw [chunkNext, hget c (hin c hc), if_neg hne, chunkNext]
    · rw [hlen]
      exact (List.Perm.swap ..).trans (perm_range_succ hperm)

theorem Stored.takeRoom
    (hhd : T.headers[first]? = some hd) (hroom : hd.used + size ≤ hd.maxlen) (hsize : h.size = size) :
    ⟨first, hd.used⟩ ∉ T.data ∧
    Stored ((T.takeRoom first hd size).1.put ⟨first, hd.used⟩ h) := by
  obtain ⟨hle, ls, hlaid, hcount, hall⟩ := hT.layout first hd hhd
  obtain ⟨hflt, -⟩ := List.getElem?_eq_some_iff.1 hhd
  have hfresh : ∀ l ∈ ls, l ≠ ⟨first, hd.used⟩ := by
    rintro l hl rfl
    exact absurd (hlaid.mem hl).2.2.1 (lt_irrefl _)
  set T' : HashTable α := (T.takeRoom first hd size).1 with hT'
  have hget : ∀ c, T'.headers[c]? = if first = c then
      some { hd with used := hd.used + size, ntuples := hd.ntuples + 1 } else T.headers[c]? := by
    intro c
    change (T.headers.set first _)[c]? = _
    rw [getElem?_set, if_pos hflt]
  refine ⟨fun hmem => hfresh _ (hall _ hmem rfl) rfl, ⟨?_, fun c hd' hc => ?_, fun l hl => ?_⟩⟩
  · obtain ⟨ids, hchain, hperm⟩ := hT.chunk_list
    refine ⟨ids, hchain.congr fun c _ => ?_, by simpa [T', put, HashTable.takeRoom] using hperm⟩
    change T'.headers[c]?.bind Chunk.next = T.headers[c]?.bind Chunk.next
    rw [hget]
    split_ifs with he
    · subst he
      rw [hhd]
      rfl
    · rfl
  · change T'.headers[c]? = some hd' at hc
    rw [hget] at hc
    split_ifs at hc with he
    · subst he
      obtain rfl := some.inj hc
      refine ⟨hroom, ls ++ [⟨first, hd.used⟩], ?_, by simp [hcount], fun l hl hlc => ?_⟩
      · have hsame : Laid (T'.put ⟨first, hd.used⟩ h).sizeAt first hd.used 0 ls :=
          hlaid.congr fun l hl => by rw [sizeAt_put, if_neg (hfresh l hl)]; rfl
        rw [← hsize]
        exact hsame.snoc (by rw [sizeAt_put, if_pos rfl]) (size_pos h)
      · rcases mem_put.1 hl with rfl | hl
        · simp
        · exact mem_append_left _ (hall l hl hlc)
    · obtain ⟨hle', ls', hlaid', hcount', hall'⟩ := hT.layout c hd' hc
      refine ⟨hle', ls', hlaid'.congr fun l hl => ?_, hcount', fun l hl hlc => ?_⟩
      · rw [sizeAt_put, if_neg fun hl' => he (by rw [← (hlaid'.mem hl).1, hl'])]
        rfl
      · rcases mem_put.1 hl with rfl | hl
        · exact absurd hlc he
        · exact hall' l hl hlc
  · have hlen : (T'.put ⟨first, hd.used⟩ h).headers.length = T.headers.length := by
      simp [T', put, HashTable.takeRoom]
    rw [hlen]
    rcases mem_put.1 hl with rfl | hl
    · exact hflt
    · exact hT.in_chunk l hl

/-- Allocation fails on its size, or finds room for the tuple at a fresh address;
nothing but the chunk list changes. -/
theorem denseAlloc_spec (hsize : h.size = maxalign size) :
    (∃ n, T.denseAlloc size = .error (.allocSize n)) ∨
    ∃ T' loc hd, T.denseAlloc size = .ok (T', loc) ∧
      T' = { T with headers := T'.headers, chunks := T'.chunks } ∧ loc ∉ T.data ∧
      T'.headers[loc.chunk]? = some hd ∧ loc.off + maxalign size ≤ hd.maxlen ∧
      Stored (T'.put loc h) := by
  have hnew : ⟨T.headers.length, 0⟩ ∉ T.data := fun hmem => absurd (hT.in_chunk _ hmem) (lt_irrefl _)
  have hpush : ∀ maxlen, maxalign size ≤ maxlen → ∃ hd,
      (T.pushChunk maxlen (maxalign size)).1.headers[T.headers.length]? = some hd ∧
        0 + maxalign size ≤ hd.maxlen := by
    intro maxlen hle
    exact ⟨_, getElem?_concat_length, by simpa using hle⟩
  have hfirst : ∀ first, T.chunks = some first → ∃ hd, T.headers[first]? = some hd := by
    intro first hf
    obtain ⟨ids, hchain, hperm⟩ := hT.chunk_list
    rw [hf] at hchain
    cases hchain with
    | cons _ =>
      have hlt := mem_range.1 (hperm.mem_iff.1 (mem_cons_self ..))
      exact ⟨_, getElem?_eq_getElem hlt⟩
  unfold denseAlloc
  by_cases hbig : maxalign size > hashChunkThreshold
  · rw [if_pos hbig]
    by_cases hp : hashChunkHeaderSize + maxalign size ≤ maxAllocSize
    swap
    · exact Or.inl ⟨_, by rw [palloc_error hp]; rfl⟩
    rw [palloc_ok hp]
    right
    cases hc : T.chunks with
    | none =>
      obtain ⟨hd, hhd, hroom⟩ := hpush _ le_rfl
      exact ⟨_, _, hd, rfl, rfl, hnew, hhd, hroom, hT.pushChunk le_rfl hsize⟩
    | some first => ?_
    obtain ⟨hd, hhd⟩ := hfirst first hc
    simp only [Except.bind, hhd]
    refine ⟨_, _, ⟨1, maxalign size, maxalign size, hd.next⟩, rfl, ?_, hnew, ?_, ?_,
      hT.spliceChunk hc hhd hsize⟩
    · rfl
    · simp
    · simp
  rw [if_neg hbig]
  have hsmall : maxalign size ≤ hashChunkSize := by
    unfold hashChunkThreshold at hbig
    omega
  have hfresh : ∃ T' loc hd, (T.pushChunk hashChunkSize (maxalign size)) = (T', loc) ∧
      T' = { T with headers := T'.headers, chunks := T'.chunks } ∧ loc ∉ T.data ∧
      T'.headers[loc.chunk]? = some hd ∧ loc.off + maxalign size ≤ hd.maxlen ∧
      Stored (T'.put loc h) := by
    obtain ⟨hd, hhd, hroom⟩ := hpush _ hsmall
    exact ⟨_, _, hd, rfl, rfl, hnew, hhd, hroom, hT.pushChunk hsmall hsize⟩
  rw [palloc_ok (by decide)]
  right
  cases hc : T.chunks with
  | none =>
    obtain ⟨T', loc, hd, he, hrest⟩ := hfresh
    exact ⟨T', loc, hd, by simp only [Except.bind, he], hrest⟩
  | some first => ?_
  obtain ⟨hd, hhd⟩ := hfirst first hc
  simp only [Except.bind, hhd]
  split_ifs with hroom
  · obtain ⟨T', loc, hd, he, hrest⟩ := hfresh
    exact ⟨T', loc, hd, by rw [he], hrest⟩
  have hle := (hT.layout first hd hhd).1
  obtain ⟨hnot, hst⟩ := hT.takeRoom hhd (by omega) hsize
  obtain ⟨hflt, -⟩ := List.getElem?_eq_some_iff.1 hhd
  refine ⟨_, _, { hd with used := hd.used + maxalign size, ntuples := hd.ntuples + 1 }, rfl,
    rfl, hnot, ?_, ?_, hst⟩
  · simp [hflt]
  · simp only
    omega

end Pg.HashTable
