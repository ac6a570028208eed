import PgRetrofit.Proofs.Qsort
import PgRetrofit.Proofs.TidBitmapUnion

/-! Iterating over a bitmap: the lossy pages of the chunks and the exact pages are reported in the
order of their block numbers, each once. -/

namespace Pg.Tbm

open Result List Nat

variable {τ ι : Type} {T : ScanTable Fault ℕ PagetableEntry τ ι} {L : T.Lawful} {m : PageMap} {b : ℕ}
  {tbm : TIDBitmap τ} {S : Set (ℕ × ℕ)}
  {it : TBMIterator}

theorem tbmComparator_order : CmpOrder tbmComparator fun _ => True := by
  refine CmpOrder.ofKey (fun e => (e.1 : ℤ)) fun x y _ _ => ?_
  rw [tbmComparator]
  split_ifs <;> omega

theorem sortPages_spec {pages : List (ℕ × PagetableEntry)} (hnodup : (pages.map Prod.fst).Nodup) :
    ∃ sorted, sortPages pages = .ok sorted ∧ sorted.Perm pages ∧
      sorted.Pairwise fun x y => x.1 < y.1 := by
  rw [sortPages]
  split_ifs with hlen
  · obtain ⟨mem, hrun, hperm, hsorted⟩ := Qsort.pgQsort_list tbmComparator_order pages (0, emptyPage)
    refine ⟨_, by rw [hrun], hperm, ?_⟩
    have hne : (Shuffle.window mem 0 pages.length).Pairwise fun x y => x.1 ≠ y.1 :=
      pairwise_map.1 ((hperm.map Prod.fst).nodup_iff.2 hnodup)
    refine (hsorted.and hne).imp fun {x y} ⟨hle, hne⟩ => ?_
    rw [tbmComparator] at hle
    split_ifs at hle <;> omega
  · refine ⟨pages, rfl, .refl _, ?_⟩
    match pages, hlen with
    | [], _ => exact .nil
    | [x], _ => exact pairwise_singleton _ x
    | x :: y :: rest, hlen => exact absurd (by simp) hlen

def chunkRest (chunk : ℕ × PagetableEntry) (bit : ℕ) : List ℕ :=
  ((chunk.2.words.members wordsPerChunk).filter fun i => bit ≤ i).map fun i => chunk.1 + i

variable {chunk : ℕ × PagetableEntry} {bit : ℕ}

theorem mem_chunkRest :
    b ∈ chunkRest chunk bit ↔
      ∃ i, bit ≤ i ∧ i < pagesPerChunk ∧ chunk.2.words.has i = true ∧ b = chunk.1 + i := by
  rw [chunkRest, mem_map]
  refine exists_congr fun i => ?_
  rw [mem_filter, Words.mem_members (by decide), decide_eq_true_iff]
  constructor
  · rintro ⟨⟨⟨h1, h2⟩, h3⟩, h4⟩
    exact ⟨h3, h1, h2, h4.symm⟩
  · rintro ⟨h1, h2, h3, h4⟩
    exact ⟨⟨⟨h2, h3⟩, h1⟩, h4.symm⟩

theorem chunkRest_sorted (chunk : ℕ × PagetableEntry) (bit : ℕ) :
    (chunkRest chunk bit).Pairwise (· < ·) := by
  rw [chunkRest, pairwise_map]
  exact ((Words.members_sorted (by decide) _).filter _).imp fun h => Nat.add_lt_add_left h _

theorem tbmAdvanceSchunkbit_spec (chunk : PagetableEntry) {k : ℕ} (hk : pagesPerChunk ≤ bit + k) :
    bit ≤ tbmAdvanceSchunkbit chunk k bit ∧
      (∀ i, bit ≤ i → i < tbmAdvanceSchunkbit chunk k bit → chunk.words.has i = false) ∧
      (tbmAdvanceSchunkbit chunk k bit < pagesPerChunk →
        chunk.words.has (tbmAdvanceSchunkbit chunk k bit) = true) := by
  induction k generalizing bit with
  | zero => exact ⟨le_rfl, fun i h1 h2 => absurd h2 (not_lt.2 h1), fun h => absurd h (not_lt.2 hk)⟩
  | succ k ih => ?_
  have hnone : ∀ i, bit ≤ i → i < bit → chunk.words.has i = false :=
    fun i h1 h2 => absurd h2 (not_lt.2 h1)
  rw [tbmAdvanceSchunkbit]
  split_ifs with hlt htest
  · rw [Words.test_eq_has (by decide)] at htest
    exact ⟨le_rfl, hnone, fun _ => htest⟩
  · rw [Words.test_eq_has (by decide)] at htest
    obtain ⟨h1, h2, h3⟩ := ih (show pagesPerChunk ≤ bit + 1 + k by omega)
    refine ⟨by omega, fun i hi hi' => ?_, h3⟩
    rcases eq_or_lt_of_le hi with rfl | hi
    · exact Bool.eq_false_iff.2 htest
    · exact h2 i hi hi'
  · exact ⟨le_rfl, hnone, fun h => absurd h hlt⟩

theorem chunkRest_cons (hlt : bit < pagesPerChunk) (hset : chunk.2.words.has bit = true) :
    chunkRest chunk bit = (chunk.1 + bit) :: chunkRest chunk (bit + 1) := by
  refine List.Pairwise.eq_of_mem_iff (chunkRest_sorted chunk bit)
    (pairwise_cons.2 ⟨fun b hb => ?_, chunkRest_sorted chunk _⟩) fun {b} => ?_
  · obtain ⟨i, hi, -, -, rfl⟩ := mem_chunkRest.1 hb
    omega
  rw [mem_cons, mem_chunkRest, mem_chunkRest]
  constructor
  · rintro ⟨i, h1, h2, h3, rfl⟩
    rcases eq_or_lt_of_le h1 with rfl | hi
    · exact .inl rfl
    · exact .inr ⟨i, hi, h2, h3, rfl⟩
  · rintro (rfl | ⟨i, h1, h2, h3, rfl⟩)
    · exact ⟨bit, le_rfl, hlt, hset, rfl⟩
    · exact ⟨i, by omega, h2, h3, rfl⟩

theorem chunkRest_advance (chunk : ℕ × PagetableEntry) (bit : ℕ) :
    chunkRest chunk bit = chunkRest chunk (tbmAdvanceSchunkbit chunk.2 pagesPerChunk bit) := by
  obtain ⟨hle, hskip, -⟩ :=
    tbmAdvanceSchunkbit_spec chunk.2 (show pagesPerChunk ≤ bit + pagesPerChunk by omega)
  refine List.Pairwise.eq_of_mem_iff (chunkRest_sorted chunk bit)
    (chunkRest_sorted chunk _) fun {b} => ?_
  rw [mem_chunkRest, mem_chunkRest]
  refine exists_congr fun i =>
    ⟨fun ⟨h1, h2, h3, h4⟩ => ⟨?_, h2, h3, h4⟩, fun ⟨h1, h⟩ => ⟨hle.trans h1, h⟩⟩
  by_contra hlt
  rw [hskip i h1 (Nat.lt_of_not_le hlt)] at h3
  cases h3

theorem chunkRest_end (h : pagesPerChunk ≤ bit) : chunkRest chunk bit = [] := by
  refine eq_nil_iff_forall_not_mem.2 fun b hb => ?_
  obtain ⟨i, h1, h2, -⟩ := mem_chunkRest.1 hb
  omega

def lossyFrom : List (ℕ × PagetableEntry) → ℕ → List ℕ
  | [], _ => []
  | chunk :: chunks, bit => chunkRest chunk bit ++ lossyFrom chunks 0

def lossyRest (it : TBMIterator) : List ℕ := lossyFrom (it.schunks.drop it.schunkptr) it.schunkbit

def pagesOf (tbm : TIDBitmap τ) (it : TBMIterator) : List (ℕ × PagetableEntry) :=
  match tbm.storage with
  | .onePage blockno entry1 => [(blockno, entry1)]
  | _ => it.spages

def pageRest (tbm : TIDBitmap τ) (it : TBMIterator) : List (ℕ × PagetableEntry) :=
  (pagesOf tbm it).drop it.spageptr

/-- The counts of the bitmap are the lengths of the arrays. -/
structure Iterating (tbm : TIDBitmap τ) (it : TBMIterator) : Prop where
  chunks : tbm.nchunks = it.schunks.length
  pages : tbm.npages = (pagesOf tbm it).length

/-- The chunks are used up, or the iterator stands at the next lossy page. -/
def AtLossy (it : TBMIterator) : Prop :=
  it.schunks.length ≤ it.schunkptr ∨
    ∃ chunk, it.schunks[it.schunkptr]? = some chunk ∧ it.schunkbit < pagesPerChunk ∧
    chunk.2.words.has it.schunkbit = true

variable {chunks : List (ℕ × PagetableEntry)} {fuel : ℕ}

theorem lossyFrom_drop {ptr : ℕ} (h : chunks[ptr]? = some chunk) (bit : ℕ) :
    lossyFrom (chunks.drop ptr) bit = chunkRest chunk bit ++ lossyFrom (chunks.drop (ptr + 1)) 0 := by
  obtain ⟨hlt, rfl⟩ := List.getElem?_eq_some_iff.1 h
  rw [drop_eq_getElem_cons hlt, lossyFrom]

variable (h : tbm.nchunks = it.schunks.length)
include h

theorem advanceChunks_spec (hfuel : it.schunks.length - it.schunkptr < fuel) :
    ∃ ptr bit, advanceChunks tbm fuel it = .ok { it with schunkptr := ptr, schunkbit := bit } ∧
      lossyRest { it with schunkptr := ptr, schunkbit := bit } = lossyRest it ∧
      AtLossy { it with schunkptr := ptr, schunkbit := bit } := by
  induction fuel generalizing it with
  | zero => omega
  | succ fuel ih => ?_
  rw [advanceChunks]
  by_cases hptr : it.schunkptr < it.schunks.length
  · rw [if_pos (by omega), getElem?_eq_getElem hptr]
    have hchunk := getElem?_eq_getElem hptr
    generalize it.schunks[it.schunkptr] = chunk at hchunk
    dsimp only
    split_ifs with hbit
    · refine ⟨it.schunkptr, _, rfl, ?_, .inr ⟨chunk, hchunk, hbit, ?_⟩⟩
      · rw [lossyRest, lossyRest, lossyFrom_drop hchunk, lossyFrom_drop hchunk, ← chunkRest_advance]
      · exact (tbmAdvanceSchunkbit_spec chunk.2 (le_add_left _ _)).2.2 hbit
    have hnext : tbm.nchunks =
      ({ it with schunkptr := it.schunkptr + 1, schunkbit := 0 } : TBMIterator).schunks.length := h
    obtain ⟨ptr, bit, hrun, hrest, hat⟩ := ih hnext (by dsimp only; omega)
    refine ⟨ptr, bit, hrun, hrest.trans ?_, hat⟩
    rw [lossyRest, lossyRest, lossyFrom_drop hchunk, chunkRest_advance,
      chunkRest_end (Nat.le_of_not_lt hbit), nil_append]
  · rw [if_neg (by omega)]
    exact ⟨it.schunkptr, it.schunkbit, rfl, rfl, .inl (Nat.le_of_not_lt hptr)⟩

theorem nextLossy_spec (hat : AtLossy it) :
    nextLossy tbm it = .ok (lossyRest it).head? ∧
      (lossyRest it).tail = lossyRest { it with schunkbit := it.schunkbit + 1 } := by
  rw [nextLossy]
  rcases hat with hend | ⟨chunk, hchunk, hlt, hset⟩
  · rw [if_neg (by omega), lossyRest, lossyRest, drop_eq_nil_of_le hend]
    exact ⟨rfl, rfl⟩
  · obtain ⟨hptr, -⟩ := List.getElem?_eq_some_iff.1 hchunk
    rw [if_pos (by omega), hchunk, lossyRest, lossyRest, lossyFrom_drop hchunk, lossyFrom_drop hchunk,
      chunkRest_cons hlt hset]
    exact ⟨rfl, rfl⟩

omit h

theorem nextPage_spec (h : tbm.npages = (pagesOf tbm it).length) :
    nextPage tbm it = .ok (pageRest tbm it).head? ∧
      (pageRest tbm it).tail = pageRest tbm { it with spageptr := it.spageptr + 1 } := by
  refine ⟨?_, tail_drop⟩
  rw [nextPage, pageRest, head?_drop]
  split_ifs with hlt
  · rw [pagesOf] at *
    cases hst : tbm.storage with
    | onePage blockno entry1 =>
      rw [hst] at h
      obtain hzero : it.spageptr = 0 := by
        rw [length_singleton] at h
        omega
      rw [hzero]
      rfl
    | _ =>
      rw [hst] at h
      dsimp only at h ⊢
      rw [getElem?_eq_getElem (by omega)]
  · rw [getElem?_eq_none (by omega)]

/-- What one call reports: the numerically earlier of the next lossy page and the next exact one. -/
theorem tbmIterate_spec (h : Iterating tbm it) :
    (lossyRest it = [] ∧ pageRest tbm it = [] ∧ tbmIterate tbm it = .ok none) ∨
    (∃ b it', tbmIterate tbm it = .ok (some (lossyResult b, it')) ∧ Iterating tbm it' ∧
      lossyRest it = b :: lossyRest it' ∧
      pageRest tbm it' = pageRest tbm it ∧ ∀ page ∈ (pageRest tbm it).head?, b < page.1) ∨
    ∃ page it', tbmIterate tbm it = .ok (some (pageResult page, it')) ∧ Iterating tbm it' ∧
      pageRest tbm it = page :: pageRest tbm it' ∧
      lossyRest it' = lossyRest it ∧ ∀ b ∈ (lossyRest it).head?, page.1 ≤ b := by
  have hchunks := h.chunks
  obtain ⟨ptr, bit, hrun, hlossy, hat⟩ :=
    advanceChunks_spec h.chunks (show it.schunks.length - it.schunkptr < tbm.nchunks.toNat + 1 by omega)
  rw [tbmIterate, hrun, ok_bind, ← hlossy,
    show pageRest tbm it = pageRest tbm { it with schunkptr := ptr, schunkbit := bit } from rfl]
  have hit : Iterating tbm { it with schunkptr := ptr, schunkbit := bit } := ⟨h.chunks, h.pages⟩
  generalize ({ it with schunkptr := ptr, schunkbit := bit } : TBMIterator) = it' at hat hit ⊢
  obtain ⟨hnextLossy, hlossyTail⟩ := nextLossy_spec hit.chunks hat
  obtain ⟨hnextPage, hpageTail⟩ := nextPage_spec hit.pages
  have hpassLossy : Iterating tbm { it' with schunkbit := it'.schunkbit + 1 } := ⟨hit.chunks, hit.pages⟩
  have hpassPage : Iterating tbm { it' with spageptr := it'.spageptr + 1 } := ⟨hit.chunks, hit.pages⟩
  rw [hnextLossy, hnextPage, ok_bind, ok_bind]
  cases hls : lossyRest it' with
  | nil =>
    cases hps : pageRest tbm it' with
    | nil => exact .inl ⟨rfl, rfl, rfl⟩
    | cons page ps =>
      refine .inr (.inr ⟨page, _, rfl, hpassPage, ?_, hls, fun b hb => nomatch hb⟩)
      rw [← hpageTail, hps, tail_cons]
  | cons b ls => ?_
  cases hps : pageRest tbm it' with
  | nil =>
    refine .inr (.inl ⟨b, _, rfl, hpassLossy, ?_, hps, fun page hpage => nomatch hpage⟩)
    rw [← hlossyTail, hls, tail_cons]
  | cons page ps => ?_
  dsimp only [head?_cons]
  split_ifs with hlt
  · refine .inr (.inl ⟨b, _, rfl, hpassLossy, ?_, hps, fun page' hpage => ?_⟩)
    · rw [← hlossyTail, hls, tail_cons]
    · rwa [← Option.some.inj hpage]
  refine .inr (.inr ⟨page, _, rfl, hpassPage, ?_, hls, fun b' hb => ?_⟩)
  · rw [← hpageTail, hps, tail_cons]
  · rw [← Option.some.inj hb]
    exact Nat.le_of_not_lt hlt

def earlier (x y : TBMIterateResult) : Bool := decide (x.blockno ≤ y.blockno)

theorem iterateLoop_spec (h : Iterating tbm it)
    (hapart : ∀ b ∈ lossyRest it, ∀ page ∈ pageRest tbm it, b ≠ page.1)
    (hfuel : (lossyRest it).length + (pageRest tbm it).length < fuel) :
    iterateLoop tbm fuel it =
      .ok (((lossyRest it).map lossyResult).merge ((pageRest tbm it).map pageResult) earlier) := by
  induction fuel generalizing it with
  | zero => omega
  | succ fuel ih => ?_
  rw [iterateLoop]
  obtain ⟨hls, hps, hrun⟩ | ⟨b, it', hrun, hit', hls, hps, hfirst⟩ |
    ⟨page, it', hrun, hit', hps, hls, hfirst⟩ := tbmIterate_spec h
  · rw [hls, hps, hrun, ok_bind]
    simp
  · rw [hls] at hapart hfuel
    rw [← hps] at hapart hfuel hfirst
    rw [length_cons] at hfuel
    rw [hrun, ok_bind, hls, ← hps]
    dsimp only
    rw [ih hit' (fun x hx => hapart x (mem_cons_of_mem _ hx)) (by omega), ok_bind, map_cons]
    cases hrest : pageRest tbm it' with
    | nil => simp
    | cons page ps =>
      have hle : earlier (lossyResult b) (pageResult page) = true := by
        have hlt := hfirst page (by rw [hrest]; rfl)
        exact decide_eq_true (le_of_lt hlt)
      rw [map_cons, cons_merge_cons, if_pos hle]
  rw [hps] at hapart hfuel
  rw [← hls] at hapart hfuel hfirst
  rw [length_cons] at hfuel
  rw [hrun, ok_bind, hps, ← hls]
  dsimp only
  rw [ih hit' (fun x hx y hy => hapart x hx y (mem_cons_of_mem _ hy)) (by omega), ok_bind, map_cons]
  cases hrest : lossyRest it' with
  | nil => simp
  | cons b ls => ?_
  have hle : earlier (lossyResult b) (pageResult page) = false := by
    have hge := hfirst b (by rw [hrest]; rfl)
    have hne := hapart b (by rw [hrest]; exact mem_cons_self) page mem_cons_self
    exact decide_eq_false (show ¬ b ≤ page.1 by omega)
  rw [map_cons, cons_merge_cons, hle]
  rfl

theorem chunkRest_length (chunk : ℕ × PagetableEntry) (bit : ℕ) :
    (chunkRest chunk bit).length ≤ pagesPerChunk := by
  have hnodup : (chunkRest chunk bit).Nodup := (chunkRest_sorted chunk bit).imp ne_of_lt
  have hsub : chunkRest chunk bit ⊆ range' chunk.1 pagesPerChunk := by
    intro b hb
    obtain ⟨i, -, hi, -, rfl⟩ := mem_chunkRest.1 hb
    exact mem_range'_1.2 ⟨Nat.le_add_right _ _, Nat.add_lt_add_left hi _⟩
  have hlen := (hnodup.subperm hsub).length_le
  rwa [length_range'] at hlen

theorem lossyFrom_length (chunks : List (ℕ × PagetableEntry)) (bit : ℕ) :
    (lossyFrom chunks bit).length ≤ chunks.length * pagesPerChunk := by
  induction chunks generalizing bit with
  | nil => exact zero_le _
  | cons chunk chunks ih =>
    rw [lossyFrom, length_append, length_cons, Nat.succ_mul, Nat.add_comm]
    exact Nat.add_le_add (ih 0) (chunkRest_length chunk bit)

theorem mem_lossyFrom : b ∈ lossyFrom chunks 0 ↔ ∃ chunk ∈ chunks, b ∈ chunkRest chunk 0 := by
  induction chunks with
  | nil => simp [lossyFrom]
  | cons chunk chunks ih => rw [lossyFrom, mem_append, ih, exists_mem_cons_iff]

theorem lossyFrom_sorted (hkeys : ∀ chunk ∈ chunks, chunk.1 % pagesPerChunk = 0)
    (hsorted : chunks.Pairwise fun x y => x.1 < y.1) : (lossyFrom chunks 0).Pairwise (· < ·) := by
  induction chunks with
  | nil => exact .nil
  | cons chunk chunks ih => ?_
  obtain ⟨hfirst, hsorted⟩ := pairwise_cons.1 hsorted
  obtain ⟨hkey, hkeys⟩ := forall_mem_cons.1 hkeys
  rw [lossyFrom, pairwise_append]
  refine ⟨chunkRest_sorted chunk 0, ih hkeys hsorted, fun x hx y hy => ?_⟩
  obtain ⟨other, hother, hy⟩ := mem_lossyFrom.1 hy
  obtain ⟨i, -, hi, -, rfl⟩ := mem_chunkRest.1 hx
  obtain ⟨j, -, -, -, rfl⟩ := mem_chunkRest.1 hy
  have hlt := hfirst other hother
  have hkey' := hkeys other hother
  -- two different multiples of the chunk size are a chunk apart
  rw [show pagesPerChunk = 256 from rfl] at hkey hkey' hi
  omega

theorem mem_lossyFrom_iff (hw : WellFormed m)
    (hchunks : ∀ page, page ∈ chunks ↔ m page.1 = some page.2 ∧ page.2.ischunk = true) :
    b ∈ lossyFrom chunks 0 ↔ Lossy m b := by
  rw [mem_lossyFrom]
  constructor
  · rintro ⟨⟨c, e⟩, hin, hb⟩
    obtain ⟨hc, hchunk⟩ := (hchunks _).1 hin
    obtain ⟨i, -, hi, hset, rfl⟩ := mem_chunkRest.1 hb
    obtain ⟨hof, hmod⟩ := chunkOf_add (hw.chunk_key hc hchunk) hi
    exact ⟨e, by rwa [hof], hchunk, by rwa [hmod]⟩
  · rintro ⟨e, he, hchunk, hset⟩
    refine ⟨(chunkOf b, e), (hchunks _).2 ⟨he, hchunk⟩,
      mem_chunkRest.2 ⟨_, zero_le _, mod_lt b, hset, ?_⟩⟩
    exact (chunkOf_add_mod b).symm

theorem Tally.eq_length {P : PagetableEntry → Bool} {z : ℤ} {entries : List (ℕ × PagetableEntry)}
    (h : Tally m P z) (hnodup : (entries.map Prod.fst).Nodup)
    (hentries : ∀ page, page ∈ entries ↔ m page.1 = some page.2) :
    z = (entries.filter fun page => P page.2).length := by
  obtain ⟨n, rfl, hn⟩ := h
  rw [hn.length_filter hnodup fun k v => hentries (k, v)]

/-- An iterator over the sorted entries has all lossy and all exact pages before it. -/
theorem iterating_start (entries schunks spages : List (ℕ × PagetableEntry)) (h : Keeping L tbm m S)
    (hnodup : (entries.map Prod.fst).Nodup) (hentries : ∀ page, page ∈ entries ↔ m page.1 = some page.2)
    (hc : schunks.Perm (entries.filter fun page => page.2.ischunk))
    (hcsorted : schunks.Pairwise fun x y => x.1 < y.1)
    (hp : (pagesOf tbm ⟨spages, schunks, 0, 0, 0⟩).Perm (entries.filter fun page => !page.2.ischunk)) :
    Iterating tbm ⟨spages, schunks, 0, 0, 0⟩ ∧ (∀ b, b ∈ lossyFrom schunks 0 ↔ Lossy m b) ∧
      (lossyFrom schunks 0).Pairwise (· < ·) ∧
      ∀ page, page ∈ pagesOf tbm ⟨spages, schunks, 0, 0, 0⟩ ↔ Exact m page.1 page.2 := by
  have hcmem : ∀ page, page ∈ schunks ↔ m page.1 = some page.2 ∧ page.2.ischunk = true := by
    intro page
    rw [hc.mem_iff, mem_filter, hentries]
  refine ⟨⟨?_, ?_⟩, fun b => mem_lossyFrom_iff h.wellFormed hcmem,
    lossyFrom_sorted (fun page hpage => ?_) hcsorted, fun page => ?_⟩
  · rw [h.holds.counted.chunks.eq_length hnodup hentries, hc.length_eq]
  · rw [h.holds.counted.pages.eq_length hnodup hentries, hp.length_eq]
  · obtain ⟨hm, hchunk⟩ := (hcmem page).1 hpage
    exact h.wellFormed.chunk_key hm hchunk
  · rw [hp.mem_iff, mem_filter, hentries, Bool.not_eq_true', Exact]

theorem tbmBeginIterate_spec (h : Keeping L tbm m S) :
    ∃ it, tbmBeginIterate T tbm = .ok it ∧ Iterating tbm it ∧ (∀ b, b ∈ lossyRest it ↔ Lossy m b) ∧
      (lossyRest it).Pairwise (· < ·) ∧ (∀ page, page ∈ pageRest tbm it ↔ Exact m page.1 page.2) ∧
      (pageRest tbm it).Pairwise fun x y => x.1 < y.1 := by
  have hs := h.holds.stored
  rw [tbmBeginIterate]
  cases hst : tbm.storage with
  | empty =>
    rw [hst] at hs
    obtain rfl : m = fun _ => none := hs
    have hpages : pagesOf tbm ⟨[], [], 0, 0, 0⟩ = [] := by rw [pagesOf, hst]
    obtain ⟨hit, hlossy, hlsorted, hpage⟩ :=
      iterating_start [] [] [] h .nil (by simp) .nil .nil (by rw [hpages]; rfl)
    refine ⟨_, rfl, hit, hlossy, hlsorted, hpage, ?_⟩
    rw [pageRest, hpages]
    exact .nil
  | onePage blockno entry1 =>
    rw [hst] at hs
    obtain ⟨hpg, rfl⟩ : _ ∧ m = _ := hs
    have hpages : pagesOf tbm ⟨[], [], 0, 0, 0⟩ = [(blockno, entry1)] := by rw [pagesOf, hst]
    have hentries : ∀ page, page ∈ [(blockno, entry1)] ↔
        Function.update (fun _ => none) blockno (some entry1) page.1 = some page.2 := by
      intro page
      rw [mem_singleton, Prod.ext_iff]
      by_cases hb : page.1 = blockno
      · simp [hb, eq_comm]
      · simp [hb]
    obtain ⟨hit, hlossy, hlsorted, hpage⟩ :=
      iterating_start [(blockno, entry1)] [] [] h (nodup_singleton _) hentries (by simp [hpg]) .nil
        (by rw [hpages]; simp [hpg])
    refine ⟨_, rfl, hit, hlossy, hlsorted, hpage, ?_⟩
    rw [pageRest, hpages]
    exact pairwise_singleton _ _
  | hash t =>
    obtain ⟨hvalid, rfl⟩ := h.holds.of_hash hst
    have hnodup : ∀ P, (((T.entries t).filter P).map Prod.fst).Nodup :=
      fun P => (L.entries_nodup hvalid).sublist (filter_sublist.map _)
    obtain ⟨spages, hspages, hpperm, hpsorted⟩ := sortPages_spec (hnodup fun page => !page.2.ischunk)
    obtain ⟨schunks, hschunks, hcperm, hcsorted⟩ := sortPages_spec (hnodup fun page => page.2.ischunk)
    have hpages : pagesOf tbm ⟨spages, schunks, 0, 0, 0⟩ = spages := by rw [pagesOf, hst]
    obtain ⟨hit, hlossy, hlsorted, hpage⟩ :=
      iterating_start _ _ _ h (L.entries_nodup hvalid) (fun page => L.mem_entries hvalid) hcperm hcsorted
        (by rwa [hpages])
    dsimp only
    rw [hspages, hschunks]
    refine ⟨_, rfl, hit, hlossy, hlsorted, hpage, ?_⟩
    rw [pageRest, hpages]
    exact hpsorted

theorem earlier_trans (x y z : TBMIterateResult) (hxy : earlier x y = true) (hyz : earlier y z = true) :
    earlier x z = true :=
  decide_eq_true (le_trans (of_decide_eq_true hxy) (of_decide_eq_true hyz))

theorem earlier_total (x y : TBMIterateResult) : (earlier x y || earlier y x) = true := by
  rw [Bool.or_eq_true]
  exact (le_total x.blockno y.blockno).imp decide_eq_true decide_eq_true

theorem merge_sorted {xs ys : List TBMIterateResult}
    (hxs : (xs.map TBMIterateResult.blockno).Pairwise (· < ·))
    (hys : (ys.map TBMIterateResult.blockno).Pairwise (· < ·))
    (hapart : ∀ x ∈ xs, ∀ y ∈ ys, x.blockno ≠ y.blockno) :
    ((xs.merge ys earlier).map TBMIterateResult.blockno).Pairwise (· < ·) := by
  rw [pairwise_map] at hxs hys ⊢
  have hle : (xs.merge ys earlier).Pairwise fun x y => earlier x y = true :=
    pairwise_merge earlier_trans earlier_total xs ys (hxs.imp fun h => decide_eq_true h.le)
      (hys.imp fun h => decide_eq_true h.le)
  have hne : (xs.merge ys earlier).Pairwise fun x y => x.blockno ≠ y.blockno := by
    refine ((merge_perm_append earlier).pairwise_iff fun h => h.symm).2
      (pairwise_append.2 ⟨?_, ?_, hapart⟩)
    · exact hxs.imp fun h => h.ne
    · exact hys.imp fun h => h.ne
  exact (hle.and hne).imp fun ⟨hle, hne⟩ => lt_of_le_of_ne (of_decide_eq_true hle) hne

theorem iterateAll_spec (h : Keeping L tbm m S) :
    ∃ results, iterateAll T tbm = .ok results ∧ (results.map TBMIterateResult.blockno).Pairwise (· < ·) ∧
      ∀ r, r ∈ results ↔ (∃ b, Lossy m b ∧ r = lossyResult b) ∨
        ∃ b e, Exact m b e ∧ r = pageResult (b, e) := by
  obtain ⟨it, hbegin, hit, hlossy, hlsorted, hpage, hpsorted⟩ := tbmBeginIterate_spec h
  have hapart : ∀ b ∈ lossyRest it, ∀ page ∈ pageRest tbm it, b ≠ page.1 := by
    rintro _ hb page hpg rfl
    exact h.wellFormed.apart ((hpage page).1 hpg) ((hlossy _).1 hb)
  have hchunks := hit.chunks
  have hpages := hit.pages
  have hrooml : (lossyRest it).length ≤ tbm.nchunks.toNat * pagesPerChunk := by
    refine (lossyFrom_length _ _).trans (mul_le_mul_right _ ?_)
    rw [length_drop]
    omega
  have hroomp : (pageRest tbm it).length ≤ tbm.npages.toNat := by
    rw [pageRest, length_drop]
    omega
  have hrun := iterateLoop_spec hit hapart
    (show _ < tbm.npages.toNat + tbm.nchunks.toNat * pagesPerChunk + 1 by omega)
  refine ⟨_,
    by rw [iterateAll, hbegin, ok_bind, hrun], merge_sorted ?_ ?_ fun x hx y hy => ?_, fun r => ?_⟩
  · simpa [Function.comp_def, lossyResult] using hlsorted
  · rw [map_map, pairwise_map]
    exact hpsorted
  · obtain ⟨b, hb, rfl⟩ := mem_map.1 hx
    obtain ⟨page, hpg, rfl⟩ := mem_map.1 hy
    exact hapart b hb page hpg
  · rw [mem_merge, mem_map, mem_map]
    constructor
    · rintro (⟨b, hb, rfl⟩ | ⟨page, hpg, rfl⟩)
      · exact .inl ⟨b, (hlossy b).1 hb, rfl⟩
      · exact .inr ⟨page.1, page.2, (hpage page).1 hpg, rfl⟩
    · rintro (⟨b, hb, rfl⟩ | ⟨b, e, he, rfl⟩)
      · exact .inl ⟨b, (hlossy b).2 hb, rfl⟩
      · exact .inr ⟨(b, e), (hpage (b, e)).2 he, rfl⟩

end Pg.Tbm
