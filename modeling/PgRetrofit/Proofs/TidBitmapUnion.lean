import PgRetrofit.Sanity.TidBitmapStore

/-! Adding tuples and pages to a bitmap, and bitmaps to one another: the set that a bitmap
approximates grows by what is added, wherever pages become lossy on the way. -/

namespace Pg.Tbm

open FiniteMap Result List Function Words Option

variable {τ ι : Type} {T : ScanTable Fault ℕ PagetableEntry τ ι} {L : T.Lawful} {m m' : PageMap}
  {p b fuel : ℕ} {e : PagetableEntry} {s : AddState τ} {recheck : Bool}
  {tbm : TIDBitmap τ} {t : τ} {i : ι} {S S' : Set (ℕ × ℕ)}

/-- The bitmap has these entries, and they approximate the set. -/
structure Keeping (L : T.Lawful) (tbm : TIDBitmap τ) (m : PageMap) (S : Set (ℕ × ℕ)) : Prop where
  holds : Holds L tbm m
  wellFormed : WellFormed m
  approximates : Approximates m S

def Represents (L : T.Lawful) (tbm : TIDBitmap τ) (S : Set (ℕ × ℕ)) : Prop := ∃ m, Keeping L tbm m S

theorem lossifyScan_spec (ht : L.Valid t) (hi : L.Usable t i) (hfuel : T.room t i < fuel) :
    ∃ r, lossifyScan T t fuel i = .ok r ∧ ∀ b i', r = some (b, i') → (∃ e, Exact (T.lookup t) b e) ∧
      b % pagesPerChunk ≠ 0 ∧ L.Usable t i' := by
  induction fuel generalizing i with
  | zero => omega
  | succ fuel ih => ?_
  rw [lossifyScan]
  cases hnext : T.iterate t i with
  | none => exact ⟨none, rfl, fun b i' h => nomatch h⟩
  | some r => ?_
  obtain ⟨b, page, i'⟩ := r
  obtain ⟨hpage, hi', hroom⟩ := L.iterate_ok ht hi hnext
  dsimp only
  split_ifs with hchunk hheader
  · exact ih hi' (by omega)
  · exact ih hi' (by omega)
  · refine ⟨_, rfl, fun b' i'' h => ?_⟩
    cases h
    exact ⟨⟨page, hpage, Bool.eq_false_iff.2 hchunk⟩, hheader, hi'⟩

theorem npages_mark {tbm' : TIDBitmap τ} (h : Holds L tbm m) (h' : Holds L tbm' (markMap m b))
    (he : Exact m b e) : tbm'.npages < tbm.npages := by
  obtain ⟨n, hn, hcount⟩ := h.counted.pages
  obtain ⟨n', hn', hcount'⟩ := h'.counted.pages
  have hany : ∀ {m : PageMap} {k : ℕ}, (m k).any (fun e => !e.ischunk) = true ↔ ∃ e, Exact m k e := by
    intro m k
    rw [Option.any_eq_true]
    simp [Exact]
  have hlt : n' < n := by
    refine hcount.lt hcount' (fun k hk => ?_) (hany.2 ⟨e, he⟩) (Bool.eq_false_iff.2 fun hk => ?_)
    · obtain ⟨x, hx⟩ := hany.1 hk
      exact hany.2 ⟨x, (exact_mark.1 hx).1⟩
    · obtain ⟨x, hx⟩ := hany.1 hk
      exact (exact_mark.1 hx).2.1 rfl
  omega

/-- At most the chunk header is new, and only if neither it nor an entry of the page was there. -/
theorem nentries_mark {tbm' : TIDBitmap τ} (h : Holds L tbm m) (h' : Holds L tbm' (markMap m p)) :
    tbm'.nentries ≤ tbm.nentries + 1 ∧
      ((m (chunkOf p)).isSome ∨ p % pagesPerChunk ≠ 0 ∧ (m p).isSome →
        tbm'.nentries ≤ tbm.nentries) := by
  obtain ⟨n, hn, hcount⟩ := h.counted.entries
  obtain ⟨n', hn', hcount'⟩ := h'.counted.entries
  have hnew : ∀ k, (markMap m p k).any (fun _ => true) = true → k = chunkOf p ∨
      (m k).any (fun _ => true) = true := by
    intro k hk
    rw [markMap] at hk
    by_cases hc : k = chunkOf p
    · exact .inl hc
    rw [update_of_ne hc, dropMap] at hk
    split_ifs at hk
    · by_cases hp : k = p
      · rw [hp, update_self] at hk
        cases hk
      · rw [update_of_ne hp] at hk
        exact .inr hk
    · exact .inr hk
  have hle := hcount.le_succ hcount' hnew
  refine ⟨by omega, fun hold => ?_⟩
  have hless : n' ≤ n := by
    rcases hold with hc | ⟨hp, hm⟩
    · exact hcount.le_of_old hcount' hnew (by simpa using hc) (.inl rfl)
    · have hgone : (markMap m p p).any (fun _ => true) = false := by
        rw [markMap, update_of_ne (chunkOf_ne hp p).symm, dropMap, if_pos hp, update_self]
        rfl
      exact hcount.le_of_old hcount' hnew (by simpa using hm) (.inr hgone)
  omega

theorem nentries_get {tbm' : TIDBitmap τ} (h : Holds L tbm m) (h' : Holds L tbm' (getMap m p)) :
    tbm'.nentries ≤ tbm.nentries + 1 := by
  obtain ⟨n, hn, hcount⟩ := h.counted.entries
  obtain ⟨n', hn', hcount'⟩ := h'.counted.entries
  have hle : n' ≤ n + 1 := by
    refine hcount.le_succ hcount' (k := p) fun k hk => or_iff_not_imp_left.2 fun hne => ?_
    rw [getMap] at hk
    split_ifs at hk
    · exact hk
    · rwa [update_of_ne hne] at hk
  omega

theorem lossifyLoop_ends (h : Keeping L tbm m S) (hst : tbm.storage = .hash t) (hi : L.Usable t i)
    (hfuel : tbm.npages < fuel) :
    Ends (Full L tbm.nentries) (fun tbm' => Represents L tbm' S ∧ tbm'.nentries ≤ tbm.nentries)
      (lossifyLoop T fuel tbm i) := by
  induction fuel generalizing tbm m t i with
  | zero =>
    obtain ⟨n, hn, -⟩ := h.holds.counted.pages
    omega
  | succ fuel ih => ?_
  obtain ⟨ht, hlookup⟩ := h.holds.of_hash hst
  obtain ⟨r, hscan, hr⟩ := lossifyScan_spec ht hi (Nat.lt_succ_self _)
  rw [lossifyLoop, hst]
  dsimp only
  rw [hscan]
  cases r with
  | none => exact ⟨⟨m, h⟩, le_rfl⟩
  | some r => ?_
  obtain ⟨b, i'⟩ := r
  obtain ⟨⟨e, he⟩, hb, hi'⟩ := hr b i' rfl
  rw [hlookup] at he
  refine (tbmMarkPageLossy_ends h.holds h.wellFormed b).bind fun tbm' ⟨hholds, hkeeps⟩ => ?_
  have hkeep : Keeping L tbm' (markMap m b) S :=
    ⟨hholds, h.wellFormed.mark b, h.approximates.mark (fun _ hx => hx) fun _ _ hx => .inl hx⟩
  have hfewer : tbm'.nentries ≤ tbm.nentries :=
    (nentries_mark h.holds hholds).2 (.inr ⟨hb, isSome_iff_exists.2 ⟨e, he.1⟩⟩)
  split_ifs with hroom
  · exact ⟨⟨_, { hholds with }, hkeep.wellFormed, hkeep.approximates⟩, hfewer⟩
  · obtain ⟨t', hst', husable⟩ := hkeeps.hash t hst
    have hless := npages_mark h.holds hholds he
    refine (ih hkeep hst' (husable i' hi') (by omega)).mono
      (fun _ hfull => hfull.trans hfewer) fun _ hr => ?_
    exact hr.imp_right fun hle => hle.trans hfewer

theorem hash_of_limit (h : Holds L tbm m) (hmany : tbm.nentries > tbm.maxentries) :
    ∃ t, tbm.storage = .hash t := by
  have hlimit := h.limit
  have hs := h.stored
  obtain ⟨n, hn, hcount⟩ := h.counted.entries
  cases hst : tbm.storage with
  | hash t => exact ⟨t, rfl⟩
  | empty =>
    rw [hst] at hs
    obtain rfl : m = fun _ => none := hs
    have := hcount.unique (counts_none _)
    omega
  | onePage blockno entry1 => ?_
  rw [hst] at hs
  obtain ⟨-, rfl⟩ : _ ∧ m = _ := hs
  obtain ⟨n', hone, hsum⟩ := (counts_none fun _ : PagetableEntry => true).update blockno (some entry1)
  have := hcount.unique hone
  simp at hsum
  omega

variable (h : Keeping L tbm m S)
include h

theorem tbmLossify_ends (hmany : tbm.nentries > tbm.maxentries) :
    Ends (Full L tbm.nentries) (fun tbm' => Represents L tbm' S ∧ tbm'.nentries ≤ tbm.nentries)
      (tbmLossify T tbm) := by
  obtain ⟨t, hst⟩ := hash_of_limit h.holds hmany
  obtain ⟨ht, -⟩ := h.holds.of_hash hst
  rw [tbmLossify, hst]
  refine (lossifyLoop_ends h hst (L.usable_startAt ht) (by omega)).bind fun tbm' ⟨⟨m', h'⟩, hfewer⟩ => ?_
  split_ifs with hfull
  · refine ⟨⟨m', ⟨h'.holds.stored, h'.holds.counted, ?_⟩, h'.wellFormed, h'.approximates⟩, hfewer⟩
    have hlimit := h'.holds.limit
    have hdiv : 0 ≤ tbm'.maxentries.tdiv 2 := Int.tdiv_nonneg (by omega) (by decide)
    have hmin : 1 ≤ min tbm'.nentries ((intMax - 1).tdiv 2) := le_min (by omega) (by decide)
    show 1 ≤ min tbm'.nentries ((intMax - 1).tdiv 2) * 2
    omega
  · exact ⟨⟨m', h'⟩, hfewer⟩

theorem checkLimit_ends :
    Ends (Full L tbm.nentries) (fun tbm' => Represents L tbm' S ∧ tbm'.nentries ≤ tbm.nentries)
      (checkLimit T tbm) := by
  rw [checkLimit]
  split_ifs with hmany
  · exact tbmLossify_ends h hmany
  · exact ⟨⟨m, h⟩, le_rfl⟩

def pageTids (p : ℕ) : Set (ℕ × ℕ) := {tid | tid.1 = p}

theorem tbmMarkPageLossy_keeping (hsub : S ⊆ S') (hnew : ∀ b off, (b, off) ∈ S' → (b, off) ∈ S ∨ b = p) :
    Ends (Full L tbm.nentries) (fun tbm' => Keeping L tbm' (markMap m p) S')
      (tbmMarkPageLossy T tbm p) :=
  (tbmMarkPageLossy_ends h.holds h.wellFormed p).imp fun _ ⟨hholds, _⟩ =>
    ⟨hholds, h.wellFormed.mark p, h.approximates.mark hsub hnew⟩

omit h

theorem Full.mono {n n' : ℤ} (hle : n ≤ n') (e : Fault) (h : Full L n e) : Full L n' e := le_trans h hle

theorem tbmAddPage_ends (h : Represents L tbm S) (p : ℕ) :
    Ends (Full L (tbm.nentries + 1)) (fun tbm' => Represents L tbm' (S ∪ pageTids p))
      (tbmAddPage T tbm p) := by
  obtain ⟨m, h⟩ := h
  have hmark : Ends _ (fun tbm' => Keeping L tbm' (markMap m p) (S ∪ pageTids p)) _ :=
    tbmMarkPageLossy_keeping h Set.subset_union_left fun _ _ hin => hin
  refine (hmark.mono (Full.mono (by omega)) fun _ hr => hr).bind fun tbm' h' => ?_
  exact (checkLimit_ends h').mono (Full.mono (nentries_mark h.holds h'.holds).1) fun _ hr => hr.1

/-- What may be done to the entry of `p`: bits are added, for tuples that are added to the set. -/
structure Changes (page page' : PagetableEntry) (p : ℕ) (S S' : Set (ℕ × ℕ)) : Prop where
  ischunk : page'.ischunk = page.ischunk
  sub : S ⊆ S'
  new : ∀ b off, (b, off) ∈ S' → (b, off) ∈ S ∨ b = p
  /-- a chunk header gets the bit for itself -/
  header : page.ischunk = true → ∀ i, page'.words.has i = (page.words.has i || decide (i = 0))
  bits : page.ischunk = false →
    ∀ i, page'.words.has i = true → page.words.has i = true ∨ i < maxTuplesPerPage
  mono : page.ischunk = false → ∀ i, page.words.has i = true → page'.words.has i = true
  added : page.ischunk = false →
    ∀ off, (p, off) ∈ S' → (p, off) ∈ S ∨ 0 < off ∧ page'.words.has (off - 1) = true
  recheck : page'.recheck = false → page.recheck = false
  precise : page.ischunk = false → page'.recheck = false →
    ∀ i, page'.words.has i = true → page.words.has i = true ∨ (p, i + 1) ∈ S'

theorem Changes.keeping {page page' : PagetableEntry} (hc : Changes page page' p S S')
    (h : Keeping L tbm m S) (hm : m p = some page) :
    Keeping L (setPage T tbm p page') (update m p (some page')) S' := by
  suffices hmap : WellFormed (update m p (some page')) ∧ Approximates (update m p (some page')) S' from
    ⟨(setPage_holds h.holds hm hc.ischunk).1, hmap.1, hmap.2⟩
  cases hchunk : page.ischunk with
  | true =>
    have hbit : HeaderBit m p page page' := ⟨hm, hchunk, hc.ischunk.trans hchunk, hc.header hchunk⟩
    exact ⟨hbit.wellFormed h.wellFormed, hbit.approximates h.wellFormed h.approximates hc.sub hc.new⟩
  | false => ?_
  have hexact : Exact m p page := ⟨hm, hchunk⟩
  have hold : ∀ e, m p = some e → e.ischunk = false := fun e he => mem_unique hm he ▸ hchunk
  have hnew : ∀ e, some page' = some e → e.ischunk = false :=
    fun e he => some.inj he ▸ hc.ischunk.trans hchunk
  constructor
  · refine h.wellFormed.update hold fun e he => ⟨hnew e he, h.wellFormed.apart hexact, fun i hi => ?_⟩
    rw [← some.inj he] at hi
    exact (hc.bits hchunk i hi).elim (fun hi => h.wellFormed.page_bits hexact hi) id
  refine h.approximates.update hold hnew (fun b off hb => ?_) (fun off hin => ?_) fun e i he hr hi => ?_
  · exact ⟨fun hin => (hc.new b off hin).resolve_right hb, fun hin => hc.sub hin⟩
  · rcases hc.added hchunk off hin with hS | hbit
    · refine (h.approximates.covers hS).imp_right fun ⟨e, he, hoff, hhas⟩ =>
        ⟨page', rfl, hoff, hc.mono hchunk _ ?_⟩
      rwa [mem_unique hm he.1]
    · exact .inr ⟨page', rfl, hbit⟩
  · rw [← some.inj he] at hr hi
    rcases hc.precise hchunk hr i hi with hi | hin
    · exact hc.sub (h.approximates.precise hexact (hc.recheck hr) hi)
    · exact hin

theorem tbmGetPageentry_keeping (h : Keeping L tbm m S) (hl : ¬ Lossy m p) :
    Ends (Full L tbm.nentries) (fun tbm' => Keeping L tbm' (getMap m p) S)
      (tbmGetPageentry T tbm p) := by
  suffices hmap : WellFormed (getMap m p) ∧ Approximates (getMap m p) S from
    (tbmGetPageentry_ends h.holds p).imp fun tbm' hholds => ⟨hholds.1, hmap.1, hmap.2⟩
  rw [getMap]
  cases hm : m p with
  | some e => exact ⟨h.wellFormed, h.approximates⟩
  | none => ?_
  have hold : ∀ e, m p = some e → e.ischunk = false := fun e he => by cases hm.symm.trans he
  have hempty : ∀ e i, some emptyPage = some e → ¬ e.words.has i = true := by
    intro e i he hi
    rw [← some.inj he, show emptyPage.words.has i = false from has_zero i] at hi
    cases hi
  constructor
  · exact h.wellFormed.update hold fun e he =>
      ⟨some.inj he ▸ rfl, hl, fun i hi => absurd hi (hempty e i he)⟩
  refine h.approximates.update hold (fun e he => some.inj he ▸ rfl) (fun _ _ _ => Iff.rfl)
    (fun off hin => ?_)
    fun e i he _ hi => absurd hi (hempty e i he)
  refine (h.approximates.covers hin).imp_right ?_
  rintro ⟨e, he, _⟩
  cases hm.symm.trans he.1

def tidOf (tid : ItemPointerData) : ℕ × ℕ := (tid.ipBlkid.toNat, tid.ipPosid.toNat)

theorem setTuple_changes {page : PagetableEntry} {off : ℕ} (hoff : ¬ (off < 1 ∨ off > maxTuplesPerPage))
    (recheck : Bool) :
    Changes page (setTuple page off recheck) p S (S ∪ {(p, off)}) := by
  have hlt : off - 1 < maxTuplesPerPage := by omega
  have hmax : maxTuplesPerPage ≤ max wordsPerPage wordsPerChunk * bitsPerBitmapword := by decide
  have hhas : page.ischunk = false →
      ∀ i, (setTuple page off recheck).words.has i = (page.words.has i || decide (i = off - 1)) := by
    intro hc i
    rw [setTuple, hc]
    exact has_add (by omega)
  refine ⟨rfl, Set.subset_union_left, fun b o hin => ?_, fun hc i => ?_, fun hc i hi => ?_,
    fun hc i hi => ?_, fun hc o hin => ?_, fun hr => ?_, fun hc hr i hi => ?_⟩
  · exact hin.imp_right fun heq => congrArg Prod.fst (Set.mem_singleton_iff.1 heq)
  · rw [setTuple, hc]
    exact has_add (by decide)
  · rw [hhas hc, Bool.or_eq_true, decide_eq_true_iff] at hi
    exact hi.imp_right fun heq => Nat.lt_of_le_of_lt (Nat.le_of_eq heq) hlt
  · rw [hhas hc, hi, Bool.true_or]
  · refine hin.imp_right fun heq => ?_
    obtain rfl : o = off := congrArg Prod.snd (Set.mem_singleton_iff.1 heq)
    refine ⟨by omega, ?_⟩
    rw [hhas hc, decide_eq_true rfl, Bool.or_true]
  · exact (Bool.or_eq_false_iff.1 hr).1
  · rw [hhas hc, Bool.or_eq_true, decide_eq_true_iff] at hi
    refine hi.imp_right fun heq => .inr ?_
    rw [heq, Nat.sub_add_cancel (by omega)]
    rfl

def Target (m : PageMap) (blk : ℕ) (page : Option ℕ) : Prop :=
  page = none ∧ Lossy m blk ∨ page = some blk ∧ ∃ e, m blk = some e

def Adding (L : T.Lawful) (S : Set (ℕ × ℕ)) (s : AddState τ) : Prop :=
  ∃ m, Keeping L s.tbm m S ∧ (s.currblk = invalidBlockNumber ∨ Target m s.currblk s.page)

theorem findTarget_ends {blk : ℕ} (h : Adding L S s) (hblk : blk ≠ invalidBlockNumber) :
    Ends (Full L s.tbm.nentries) (fun s' => s'.tbm.nentries ≤ s.tbm.nentries + 1 ∧ s'.currblk = blk ∧
      ∃ m, Keeping L s'.tbm m S ∧ Target m blk s'.page) (findTarget T s blk) := by
  obtain ⟨m, h, htarget⟩ := h
  rw [findTarget]
  split_ifs with hne hl
  · exact ⟨Int.le_add_one le_rfl, rfl, m, h, .inl ⟨rfl, (tbmPageIsLossy_iff h.holds).1 hl⟩⟩
  · refine (tbmGetPageentry_keeping h (mt (tbmPageIsLossy_iff h.holds).2 hl)).bind fun tbm' h' => ?_
    exact ⟨nentries_get h.holds h'.holds, rfl, _, h', .inr ⟨rfl, _, getMap_self m blk⟩⟩
  · obtain rfl : blk = s.currblk := not_not.1 hne
    exact ⟨Int.le_add_one le_rfl, rfl, m, h, htarget.resolve_left hblk⟩

/-- The error for an offset that is out of range, or the table may have been full. -/
def AddFails (L : T.Lawful) (n : ℤ) (tids : List ItemPointerData) (e : Fault) : Prop :=
  Full L n e ∨ e = .elog "tuple offset out of range: %u" ∧
    ∃ tid ∈ tids, tid.ipPosid.toNat < 1 ∨ tid.ipPosid.toNat > maxTuplesPerPage

theorem setPage_nentries (tbm : TIDBitmap τ) (p : ℕ) (e : PagetableEntry) :
    (setPage T tbm p e).nentries = tbm.nentries := by
  rw [setPage]
  split <;> rfl

theorem addTuple_ends {tid : ItemPointerData} (h : Adding L S s)
    (hblk : tid.ipBlkid.toNat ≠ invalidBlockNumber) :
    Ends (AddFails L (s.tbm.nentries + 1) [tid])
      (fun s' => Adding L (S ∪ {tidOf tid}) s' ∧ s'.tbm.nentries ≤ s.tbm.nentries + 1)
      (addTuple T recheck s tid) := by
  rw [addTuple]
  split_ifs with hoff
  · exact .inr ⟨rfl, tid, mem_singleton_self tid, hoff⟩
  refine Ends.mono ?_ (fun e he => .inl he) fun _ hs => hs
  refine ((findTarget_ends h hblk).mono (Full.mono (by omega)) fun _ hs => hs).bind
    fun s' ⟨hless, hcur, m, h', htarget⟩ => ?_
  rcases htarget with ⟨hpage, hl⟩ | ⟨hpage, page, hm⟩
  · rw [hpage]
    refine ⟨⟨m,
      ⟨h'.holds, h'.wellFormed, h'.approximates.grow Set.subset_union_left fun b off hin => ?_⟩,
      .inr (.inl ⟨hpage, hcur ▸ hl⟩)⟩, hless⟩
    refine hin.imp_right fun heq => .inl ?_
    rwa [show b = tid.ipBlkid.toNat from congrArg Prod.fst (Set.mem_singleton_iff.1 heq)]
  have hkeep := (setTuple_changes hoff recheck).keeping h' hm
  rw [← setPage_nentries s'.tbm] at hless
  rw [hpage]
  dsimp only
  rw [pageAt_eq h'.holds hm, ok_bind]
  split_ifs with hmany
  · refine ((tbmLossify_ends hkeep hmany).mono (Full.mono hless) fun _ hr => hr).bind
      fun tbm' ⟨⟨m', h''⟩, hfewer⟩ => ?_
    exact ⟨⟨m', h'', .inl rfl⟩, hfewer.trans hless⟩
  · refine ⟨⟨_, hkeep,
      .inr (.inr ⟨congrArg some hcur.symm, setTuple page tid.ipPosid.toNat recheck, ?_⟩)⟩, hless⟩
    rw [hcur, update_self]

/-- A TID of a table: its block number is valid. -/
def ValidTid (tid : ItemPointerData) : Prop := tid.ipBlkid.toNat ≠ invalidBlockNumber

theorem tbmAddTuples_ends {tids : List ItemPointerData} (h : Represents L tbm S)
    (hvalid : ∀ tid ∈ tids, ValidTid tid) :
    Ends (AddFails L (tbm.nentries + tids.length) tids)
      (fun tbm' => Represents L tbm' (S ∪ {x | x ∈ tids.map tidOf}))
      (tbmAddTuples T tbm tids recheck) := by
  obtain ⟨m, h⟩ := h
  have hloop : Ends (AddFails L (tbm.nentries + tids.length) tids)
      (fun s => Adding L (S ∪ {x | x ∈ tids.map tidOf}) s ∧ s.tbm.nentries ≤ tbm.nentries + tids.length)
      (tids.foldlM (addTuple T recheck) ⟨tbm, invalidBlockNumber, none⟩) := by
    refine Ends.foldlM (P := fun done s => Adding L (S ∪ {x | x ∈ done.map tidOf}) s ∧
      s.tbm.nentries ≤ tbm.nentries + done.length) (fun done tid rest s htids hdone => ?_) ?_
    · obtain ⟨hs, hless⟩ := hdone
      have hin : tid ∈ tids := htids ▸ mem_append_right _ mem_cons_self
      have hlength := congrArg List.length htids
      rw [length_append, length_cons] at hlength
      refine (addTuple_ends hs (hvalid tid hin)).mono (fun e he => ?_) fun s' hs' => ⟨?_, ?_⟩
      · refine he.imp (Full.mono (by omega) e) ?_
        rintro ⟨heq, tid', hin', hoff⟩
        refine ⟨heq, tid, hin, ?_⟩
        rwa [← mem_singleton.1 hin']
      · have hset : S ∪ {x | x ∈ (done ++ [tid]).map tidOf} = S ∪
            {x | x ∈ done.map tidOf} ∪ {tidOf tid} := by
          ext x
          simp only [map_append, map_cons, map_nil, mem_append, mem_singleton,
            Set.mem_union, Set.mem_ofPred_eq, Set.mem_singleton_iff]
          exact or_assoc.symm
        rw [hset]
        exact hs'.1
      · have := hs'.2
        rw [length_append, length_singleton]
        omega
    · exact ⟨⟨m, by simpa using h, .inl rfl⟩, by simp⟩
  exact hloop.bind fun s hs => hs.1.imp fun _ h' => h'.1

def onPage (S : Set (ℕ × ℕ)) (p : ℕ) : Set (ℕ × ℕ) := {tid | tid ∈ S ∧ tid.1 = p}

theorem mergePage_changes {apage bpage : PagetableEntry} {mb : PageMap} {B : Set (ℕ × ℕ)}
    (hw : WellFormed mb) (hb : Approximates mb B) (hbpage : Exact mb p bpage) :
    Changes apage (mergePage apage bpage) p S (S ∪ onPage B p) := by
  have hischunk : (mergePage apage bpage).ischunk = apage.ischunk := by
    rw [mergePage]
    split_ifs <;> rfl
  have hhas : apage.ischunk = false →
      ∀ i, (mergePage apage bpage).words.has i = (apage.words.has i || bpage.words.has i) := by
    intro hc i
    rw [mergePage, if_neg (Bool.eq_false_iff.1 hc), has_mapWords (by decide) (by decide)]
    split_ifs with hi
    · rw [BitVec.getLsbD_or, has, has]
    · have hge : max wordsPerPage wordsPerChunk * bitsPerBitmapword ≤ i := Nat.le_of_not_lt hi
      rw [has_eq_false hge, has_eq_false hge, Bool.or_false]
  have hrecheck : apage.ischunk = false →
      (mergePage apage bpage).recheck = (apage.recheck || bpage.recheck) := by
    intro hc
    rw [mergePage, if_neg (Bool.eq_false_iff.1 hc)]
  refine ⟨hischunk, Set.subset_union_left, fun b o hin => ?_, fun hc i => ?_, fun hc i hi => ?_,
    fun hc i hi => ?_, fun hc o hin => ?_, fun hr => ?_, fun hc hr i hi => ?_⟩
  · exact hin.imp_right fun hin => hin.2
  · rw [mergePage, if_pos hc]
    exact has_add (by decide)
  · rw [hhas hc, Bool.or_eq_true] at hi
    exact hi.imp_right fun hi => hw.page_bits hbpage hi
  · rw [hhas hc, hi, Bool.true_or]
  · refine hin.imp_right fun hin => ?_
    rcases hb.covers hin.1 with hl | ⟨e, he, hoff, hbit⟩
    · exact absurd hl (hw.apart hbpage)
    · refine ⟨hoff, ?_⟩
      rw [hhas hc, mem_unique hbpage.1 he.1, hbit, Bool.or_true]
  · cases hc : apage.ischunk with
    | false => exact (Bool.or_eq_false_iff.1 (hrecheck hc ▸ hr)).1
    | true =>
      rw [mergePage, if_pos hc] at hr
      exact hr
  · rw [hhas hc, Bool.or_eq_true] at hi
    rw [hrecheck hc, Bool.or_eq_false_iff] at hr
    exact hi.imp_right fun hi => .inr ⟨hb.precise hbpage hr.2 hi, rfl⟩

def entryTids (B : Set (ℕ × ℕ)) (bpage : ℕ × PagetableEntry) : Set (ℕ × ℕ) :=
  if bpage.2.ischunk then
    {tid | tid ∈ B ∧ ∃ i < pagesPerChunk, bpage.2.words.has i = true ∧ tid.1 = bpage.1 + i}
    else onPage B bpage.1

variable {mb : PageMap} {B : Set (ℕ × ℕ)} {entries : List (ℕ × PagetableEntry)}

def chunkTids (B : Set (ℕ × ℕ)) (base : ℕ) (bits : List ℕ) : Set (ℕ × ℕ) :=
  {tid | tid ∈ B ∧ ∃ i ∈ bits, tid.1 = base + i}

/-- Some pages of the chunk at `base` have been marked in a bitmap of `n` entries. All have one
header, so at most one entry is new. -/
def MarkedBits (L : T.Lawful) (S B : Set (ℕ × ℕ)) (base : ℕ) (n : ℤ) (bits : List ℕ)
    (tbm : TIDBitmap τ) : Prop :=
  ∃ m, Keeping L tbm m (S ∪ chunkTids B base bits) ∧ tbm.nentries ≤ n + 1 ∧
    (tbm.nentries ≤ n ∨ (m base).isSome)

theorem markBits_ends (h : Keeping L tbm m S) {base : ℕ} (bits : List ℕ)
    (hbits : ∀ bit ∈ bits, chunkOf (base + bit) = base) :
    Ends (Full L (tbm.nentries + 1)) (MarkedBits L S B base tbm.nentries bits)
      (bits.foldlM (fun a bit => tbmMarkPageLossy T a (base + bit)) tbm) := by
  have hstart : MarkedBits L S B base tbm.nentries [] tbm := by
    refine ⟨m, ?_, by omega, .inl le_rfl⟩
    simpa [chunkTids] using h
  refine Ends.foldlM (P := MarkedBits L S B base tbm.nentries) (fun done bit rest tbm' heq hdone => ?_)
    hstart
  obtain ⟨m', h', hless, hheader⟩ := hdone
  have hchunkOf := hbits bit (heq ▸ mem_append_right _ mem_cons_self)
  have hmark : Ends (Full L tbm'.nentries)
      (fun tbm'' => Keeping L tbm'' (markMap m' (base + bit)) (S ∪ chunkTids B base (done ++ [bit])))
      (tbmMarkPageLossy T tbm' (base + bit)) := by
    refine tbmMarkPageLossy_keeping h' (Set.union_subset_union_right S ?_) fun b off hin => ?_
    · rintro x ⟨hB, i, hi, hx⟩
      exact ⟨hB, i, mem_append_left _ hi, hx⟩
    rcases hin with hS | ⟨hB, i, hi, hx⟩
    · exact .inl (.inl hS)
    · rcases mem_append.1 hi with hi | hi
      · exact .inl (.inr ⟨hB, i, hi, hx⟩)
      · exact .inr (mem_singleton.1 hi ▸ hx)
  refine hmark.mono (Full.mono hless) fun tbm'' h'' => ⟨_, h'', ?_, .inr ?_⟩
  · obtain ⟨hsucc, hsame⟩ := nentries_mark h'.holds h''.holds
    rw [hchunkOf] at hsame
    rcases hheader with hle | hsome
    · omega
    · exact (hsame (.inl hsome)).trans hless
  · rw [markMap, hchunkOf, update_self]
    rfl

theorem tbmUnionPage_ends {bpage : ℕ × PagetableEntry} (h : Represents L tbm S) (hw : WellFormed mb)
    (hb : Approximates mb B) (hbpage : mb bpage.1 = some bpage.2) :
    Ends (Full L (tbm.nentries + 1))
      (fun tbm' => Represents L tbm' (S ∪ entryTids B bpage) ∧ tbm'.nentries ≤ tbm.nentries + 1)
      (tbmUnionPage T tbm bpage) := by
  obtain ⟨m, h⟩ := h
  rw [tbmUnionPage, entryTids]
  split_ifs with hchunk hlossy
  · have hloop := markBits_ends (B := B) h (bpage.2.words.members wordsPerChunk) fun bit hin =>
      (chunkOf_add (hw.chunk_key hbpage hchunk) ((mem_members (by decide)).1 hin).1).1
    refine hloop.bind fun tbm' hend => ?_
    obtain ⟨m', h', hless, -⟩ := hend
    have hset : chunkTids B bpage.1 (bpage.2.words.members wordsPerChunk) =
        {tid | tid ∈ B ∧ ∃ i < pagesPerChunk, bpage.2.words.has i = true ∧ tid.1 = bpage.1 + i} := by
      ext tid
      refine and_congr_right fun _ => exists_congr fun i => ?_
      rw [mem_members (by decide), and_assoc]
      rfl
    rw [hset] at h'
    exact (checkLimit_ends h').mono (Full.mono hless) fun _ hr => ⟨hr.1, hr.2.trans hless⟩
  · -- the page is lossy in a already
    refine ⟨⟨m, h.holds, h.wellFormed, h.approximates.grow Set.subset_union_left fun b off hin => ?_⟩,
      by omega⟩
    exact hin.imp_right fun (hin : (b, off) ∈ onPage B bpage.1) =>
      .inl ((show b = bpage.1 from hin.2) ▸ (tbmPageIsLossy_iff h.holds).1 hlossy)
  · have hget := tbmGetPageentry_keeping h (mt (tbmPageIsLossy_iff h.holds).2 hlossy)
    refine (hget.mono (Full.mono (by omega)) fun _ hr => hr).bind fun tbm' h' => ?_
    have hless := nentries_get h.holds h'.holds
    rw [← setPage_nentries tbm'] at hless
    rw [pageAt_eq h'.holds (getMap_self m bpage.1)]
    have hexact : Exact mb bpage.1 bpage.2 := ⟨hbpage, Bool.eq_false_iff.2 hchunk⟩
    refine (checkLimit_ends ((mergePage_changes hw hb hexact).keeping h' (getMap_self m bpage.1))).mono
      (Full.mono hless) ?_
    exact fun _ hr => ⟨hr.1, hr.2.trans hless⟩

theorem entryTids_cover (hb : Approximates mb B) (hentries : ∀ k v, (k, v) ∈ entries ↔ mb k = some v) :
    {tid | ∃ bpage ∈ entries, tid ∈ entryTids B bpage} = B := by
  ext ⟨b, off⟩
  constructor
  · rintro ⟨bpage, -, hin⟩
    rw [entryTids] at hin
    split_ifs at hin
    · exact hin.1
    · exact hin.1
  intro hin
  rcases hb.covers hin with ⟨e, he, hc, hbit⟩ | ⟨e, he, -⟩
  · refine ⟨(chunkOf b, e), (hentries _ _).2 he, ?_⟩
    rw [entryTids, if_pos hc]
    exact ⟨hin, b % pagesPerChunk, mod_lt b, hbit, (chunkOf_add_mod b).symm⟩
  · refine ⟨(b, e), (hentries _ _).2 he.1, ?_⟩
    rw [entryTids, if_neg (Bool.eq_false_iff.1 he.2)]
    exact ⟨hin, rfl⟩

theorem unionLoop_ends (h : Represents L tbm S) (hw : WellFormed mb) (hb : Approximates mb B)
    (hentries : ∀ k v, (k, v) ∈ entries ↔ mb k = some v) :
    Ends (Full L (tbm.nentries + entries.length)) (fun tbm' => Represents L tbm' (S ∪ B))
      (entries.foldlM (tbmUnionPage T) tbm) := by
  have hloop : Ends (Full L (tbm.nentries + entries.length))
      (fun tbm' => Represents L tbm' (S ∪ {tid | ∃ bpage ∈ entries, tid ∈ entryTids B bpage}) ∧
        tbm'.nentries ≤ tbm.nentries + entries.length) (entries.foldlM (tbmUnionPage T) tbm) := by
    refine Ends.foldlM
      (P := fun done tbm' => Represents L tbm' (S ∪ {tid | ∃ bpage ∈ done, tid ∈ entryTids B bpage}) ∧
        tbm'.nentries ≤ tbm.nentries + done.length)
      (fun done bpage rest tbm' hall hdone => ?_) (by simpa using h)
    obtain ⟨h', hless⟩ := hdone
    have hin : bpage ∈ entries := hall ▸ mem_append_right _ mem_cons_self
    have hlength := congrArg List.length hall
    rw [length_append, length_cons] at hlength
    refine (tbmUnionPage_ends h' hw hb ((hentries _ _).1 hin)).mono (Full.mono (by omega))
      fun tbm'' h'' => ⟨?_, ?_⟩
    · have hset : S ∪ {tid | ∃ page ∈ done ++ [bpage], tid ∈ entryTids B page} =
          S ∪ {tid | ∃ page ∈ done, tid ∈ entryTids B page} ∪ entryTids B bpage := by
        ext x
        simp only [mem_append, mem_singleton, or_and_right, exists_or, exists_eq_left,
          Set.mem_union, Set.mem_ofPred_eq]
        exact or_assoc.symm
      rw [hset]
      exact h''.1
    · have := h''.2
      rw [length_append, length_singleton]
      omega
  rw [entryTids_cover hb hentries] at hloop
  exact hloop.imp fun _ hr => hr.1

theorem Represents.eq_empty {b : TIDBitmap τ} (h : Represents L b B)
    (hzero : b.nentries = 0) : B = ∅ := by
  obtain ⟨m, h⟩ := h
  have hnone : ∀ k, m k = none := fun k => by
    have := h.holds.counted.entries.eq_zero hzero k
    cases hm : m k with
    | none => rfl
    | some e => simp [hm] at this
  refine Set.eq_empty_of_forall_notMem fun ⟨b, off⟩ hin => ?_
  rcases h.approximates.covers hin with ⟨e, he, -⟩ | ⟨e, he, -⟩
  · exact nomatch (hnone _).symm.trans he
  · exact nomatch (hnone _).symm.trans he.1

theorem tbmUnion_ends {a b : TIDBitmap τ} (ha : Represents L a S) (hb : Represents L b B) :
    Ends (Full L (a.nentries + b.nentries)) (fun tbm' => Represents L tbm' (S ∪ B))
      (tbmUnion T a b) := by
  rw [tbmUnion]
  split_ifs with hzero
  · rw [hb.eq_empty hzero, Set.union_empty]
    exact ha
  obtain ⟨mb, hb⟩ := hb
  have hs := hb.holds.stored
  obtain ⟨n, hn, hcount⟩ := hb.holds.counted.entries
  cases hst : b.storage with
  | empty =>
    rw [hst] at hs
    obtain rfl : mb = fun _ => none := hs
    have := hcount.unique (counts_none _)
    omega
  | onePage blockno entry1 =>
    rw [hst] at hs
    obtain ⟨-, rfl⟩ : _ ∧ mb = _ := hs
    have hentries : ∀ k v, (k, v) ∈ [(blockno, entry1)] ↔
        update (fun _ => none) blockno (some entry1) k = some v := by
      intro k v
      by_cases hk : k = blockno
      · subst hk
        simp [eq_comm]
      · simp [hk]
    have hloop := unionLoop_ends ha hb.wellFormed hb.approximates hentries
    have hlength := hcount.length_filter (l := [(blockno, entry1)]) (nodup_singleton _) hentries
    rw [filter_true] at hlength
    rw [hn, ← hlength]
    simpa only [foldlM_cons, foldlM_nil, bind_pure] using hloop
  | hash t =>
    obtain ⟨ht, rfl⟩ := hb.holds.of_hash hst
    have hlength := hcount.length_filter (L.entries_nodup ht) fun k v => L.mem_entries ht
    rw [filter_true] at hlength
    rw [hn, ← hlength]
    exact unionLoop_ends ha hb.wellFormed hb.approximates fun k v => L.mem_entries ht

end Pg.Tbm
