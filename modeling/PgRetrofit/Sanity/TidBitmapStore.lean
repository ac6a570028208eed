import PgRetrofit.Sanity.TidBitmapMap

/-! The functions on entries, whichever way a bitmap stores them: they do to the map of its entries
what they do to the table or the single entry, and keep the counts. -/

namespace Pg.Tbm

open FiniteMap Result Function Bool Option

variable {τ ι : Type} {T : ScanTable Fault ℕ PagetableEntry τ ι} {L : T.Lawful} {m : PageMap} {p b : ℕ}
  {e e' : PagetableEntry} {o : Option PagetableEntry}
  {tbm : TIDBitmap τ} {P : PagetableEntry → Bool} {z ne np nc : ℤ} {t : τ}

def Stored (L : T.Lawful) : Storage τ → PageMap → Prop
  | .empty, m => m = fun _ => none
  | .onePage blockno entry1, m =>
    entry1.ischunk = false ∧ m = Function.update (fun _ => none) blockno (some entry1)
  | .hash pagetable, m => L.Valid pagetable ∧ T.lookup pagetable = m

def Tally (m : PageMap) (P : PagetableEntry → Bool) (z : ℤ) : Prop := ∃ n : ℕ, z = n ∧ Counts m P n

/-- `nentries`, `npages` and `nchunks` are right. -/
structure Counted (m : PageMap) (ne np nc : ℤ) : Prop where
  entries : Tally m (fun _ => true) ne
  pages : Tally m (fun e => !e.ischunk) np
  chunks : Tally m (fun e => e.ischunk) nc

structure Holds (L : T.Lawful) (tbm : TIDBitmap τ) (m : PageMap) : Prop where
  stored : Stored L tbm.storage m
  counted : Counted m tbm.nentries tbm.npages tbm.nchunks
  limit : 1 ≤ tbm.maxentries

theorem Tally.update (h : Tally m P z) (p : ℕ) (o : Option PagetableEntry) :
    Tally (update m p o) P (z - ((m p).any P).toNat + (o.any P).toNat) := by
  obtain ⟨n, rfl, hn⟩ := h
  obtain ⟨n', hn', hsum⟩ := hn.update p o
  exact ⟨n', by omega, hn'⟩

theorem Tally.eq_zero (h : Tally m P z) (hz : z = 0) (b : ℕ) : (m b).any P = false := by
  obtain ⟨n, rfl, hn⟩ := h
  obtain rfl : n = 0 := by omega
  exact hn.eq_zero b

variable (h : Counted m ne np nc)
include h

theorem Counted.update (p : ℕ) (o : Option PagetableEntry) :
    Counted (update m p o) (ne - ((m p).any fun _ => true).toNat + (o.any fun _ => true).toNat)
      (np - ((m p).any fun e => !e.ischunk).toNat + (o.any fun e => !e.ischunk).toNat)
      (nc - ((m p).any fun e => e.ischunk).toNat + (o.any fun e => e.ischunk).toNat) :=
  ⟨h.entries.update p o, h.pages.update p o, h.chunks.update p o⟩

theorem Counted.new_page (hm : m p = none) (he : e.ischunk = false) :
    Counted (Function.update m p (some e)) (ne + 1) (np + 1) nc := by
  have hu := h.update p (some e)
  simpa [hm, he] using hu

theorem Counted.new_chunk (hm : m p = none) (he : e.ischunk = true) :
    Counted (Function.update m p (some e)) (ne + 1) np (nc + 1) := by
  have hu := h.update p (some e)
  simpa [hm, he] using hu

theorem Counted.to_chunk (hm : Exact m p e) (he' : e'.ischunk = true) :
    Counted (Function.update m p (some e')) ne (np - 1) (nc + 1) := by
  have hu := h.update p (some e')
  simpa [hm.1, hm.2, he'] using hu

theorem Counted.drop_page (hm : Exact m p e) :
    Counted (Function.update m p none) (ne - 1) (np - 1) nc := by
  have hu := h.update p none
  simpa [hm.1, hm.2] using hu

theorem Counted.drop_chunk (hm : m p = some e) (he : e.ischunk = true) :
    Counted (Function.update m p none) (ne - 1) np (nc - 1) := by
  have hu := h.update p none
  simpa [hm, he] using hu

theorem Counted.set (hm : m p = some e) (hsame : e'.ischunk = e.ischunk) :
    Counted (Function.update m p (some e')) ne np nc := by
  have hu := h.update p (some e')
  simpa [hm, hsame] using hu

omit h

theorem Holds.of_hash (h : Holds L tbm m) (ht : tbm.storage = .hash t) : L.Valid t ∧ T.lookup t = m := by
  have hs := h.stored
  rwa [ht] at hs

theorem Holds.of_empty (h : Holds L tbm m) (hst : tbm.storage = .empty) : m = fun _ => none := by
  have hs := h.stored
  rwa [hst] at hs

theorem Holds.of_onePage (h : Holds L tbm m) (hst : tbm.storage = .onePage p e) :
    e.ischunk = false ∧ m = update (fun _ => none) p (some e) := by
  have hs := h.stored
  rwa [hst] at hs

theorem tbmFindPageentry_iff (h : Holds L tbm m) : tbmFindPageentry T tbm p = some e ↔ Exact m p e := by
  rw [tbmFindPageentry]
  split_ifs with hzero
  · have hnone := h.counted.entries.eq_zero hzero p
    cases hm : m p with
    | none => simp [Exact, hm]
    | some page => simp [hm] at hnone
  cases hst : tbm.storage with
  | empty => simp [Exact, h.of_empty hst]
  | onePage blockno entry1 =>
    obtain ⟨hne, rfl⟩ := h.of_onePage hst
    by_cases hb : blockno = p
    · subst hb
      simp only [ne_eq, not_true_eq_false, if_false, exact_update_self, some.injEq]
      exact ⟨fun he => ⟨he, he ▸ hne⟩, fun he => he.1⟩
    · simp [hb, Exact, update_of_ne (Ne.symm hb)]
  | hash t => ?_
  obtain ⟨-, rfl⟩ := h.of_hash hst
  dsimp only
  cases hm : T.lookup t p with
  | none => simp [Exact, hm]
  | some page => ?_
  unfold Exact
  rw [hm]
  dsimp only
  by_cases hc : page.ischunk = true
  · rw [if_pos hc]
    refine ⟨fun he => absurd he (by simp), fun he => ?_⟩
    obtain ⟨he, hne⟩ := he
    rw [← some.inj he, hc] at hne
    cases hne
  · rw [if_neg hc]
    exact ⟨fun he => ⟨he, by rw [← some.inj he]; exact eq_false_iff.2 hc⟩, fun he => he.1⟩

theorem tbmPageIsLossy_iff (h : Holds L tbm m) : tbmPageIsLossy T tbm p = true ↔ Lossy m p := by
  rw [tbmPageIsLossy]
  split_ifs with hzero
  · refine ⟨fun hf => hf.elim, fun ⟨e, he, hc, _⟩ => ?_⟩
    have hnone := h.counted.chunks.eq_zero hzero (chunkOf p)
    simp [he, hc] at hnone
  cases hst : tbm.storage with
  | empty => simp [Lossy, h.of_empty hst]
  | onePage blockno entry1 =>
    obtain ⟨hne, rfl⟩ := h.of_onePage hst
    refine ⟨fun hf => absurd hf false_ne_true, fun ⟨e, he, hc, _⟩ => ?_⟩
    by_cases hb : chunkOf p = blockno
    · rw [hb, update_self] at he
      rw [← some.inj he, hne] at hc
      cases hc
    · rw [update_of_ne hb] at he
      cases he
  | hash t => ?_
  obtain ⟨-, rfl⟩ := h.of_hash hst
  have hchunk : p - p % pagesPerChunk = chunkOf p := rfl
  dsimp only
  rw [hchunk, Lossy]
  cases T.lookup t (chunkOf p) with
  | none => simp
  | some page => simp [Words.test_eq_has (show 0 < bitsPerBitmapword by decide)]

theorem pageAt_hash (hst : tbm.storage = .hash t) (hm : T.lookup t p = some e) :
    pageAt T tbm p = .ok e := by
  rw [pageAt, hst]
  dsimp only
  rw [hm]

/-- An entry is the only one, or in the table. -/
theorem Holds.storage_of_some (h : Holds L tbm m) (hm : m p = some e) :
    (tbm.storage = .onePage p e ∧ e.ischunk = false ∧ m = update (fun _ => none) p (some e)) ∨
      ∃ t, tbm.storage = .hash t := by
  cases hst : tbm.storage with
  | empty =>
    rw [h.of_empty hst] at hm
    cases hm
  | onePage blockno entry1 =>
    obtain ⟨hne, rfl⟩ := h.of_onePage hst
    by_cases hb : p = blockno
    · subst hb
      rw [update_self] at hm
      obtain rfl := some.inj hm
      exact .inl ⟨rfl, hne, rfl⟩
    · rw [update_of_ne hb] at hm
      cases hm
  | hash t => exact .inr ⟨t, rfl⟩

theorem pageAt_eq (h : Holds L tbm m) (hm : m p = some e) : pageAt T tbm p = .ok e := by
  rcases h.storage_of_some hm with ⟨hst, -⟩ | ⟨t, hst⟩
  · simp [pageAt, hst]
  · obtain ⟨-, rfl⟩ := h.of_hash hst
    exact pageAt_hash hst hm

/-- What a call keeps of a bitmap: its limit, and the iterators of its table. -/
structure Keeps (L : T.Lawful) (tbm tbm' : TIDBitmap τ) : Prop where
  limit : tbm'.maxentries = tbm.maxentries
  hash : ∀ t, tbm.storage = .hash t → ∃ t', tbm'.storage = .hash t' ∧ ∀ i, L.Usable t i → L.Usable t' i

theorem setPage_holds (h : Holds L tbm m) (hm : m p = some e) (hsame : e'.ischunk = e.ischunk) :
    Holds L (setPage T tbm p e') (update m p (some e')) ∧ Keeps L tbm (setPage T tbm p e') := by
  have hcount := h.counted.set hm hsame
  rw [setPage]
  rcases h.storage_of_some hm with ⟨hst, hne, rfl⟩ | ⟨t, hst⟩ <;> rw [hst]
  · exact ⟨⟨⟨hsame.trans hne, update_idem ..⟩, hcount, h.limit⟩, rfl,
      fun t ht => by cases hst.symm.trans ht⟩
  obtain ⟨hvalid, rfl⟩ := h.of_hash hst
  obtain ⟨hvalid', hlookup⟩ := L.store_ok hvalid (isSome_iff_exists.2 ⟨e, hm⟩)
  refine ⟨⟨⟨hvalid', hlookup⟩, hcount, h.limit⟩, rfl, fun t' ht => ?_⟩
  cases hst.symm.trans ht
  exact ⟨_, rfl, fun i hi => L.usable_store hvalid hi⟩

/-- The table has no room for an entry more than `n`. -/
def Full (L : T.Lawful) (n : ℤ) (_ : Fault) : Prop := L.capacity ≤ n

theorem insert_full (ht : L.Valid t) (hcount : Tally (T.lookup t) (fun _ => true) z)
    (p : ℕ) (e : PagetableEntry) :
    Ends (Full L z) (fun r => L.Valid r.1 ∧ r.2 = (T.lookup t p).isSome ∧
      (T.lookup r.1 = if r.2 then T.lookup t else update (T.lookup t) p (some e)) ∧
      ∀ i, L.Usable t i → L.Usable r.1 i) (T.insert t p e) := by
  obtain ⟨n, rfl, hn⟩ := hcount
  exact (L.insert_ends ht hn p e).mono (fun _ hfull => Int.ofNat_le.2 hfull) fun _ hr => hr

theorem tbmCreatePagetable_ends (h : Holds L tbm m) (hnot : ∀ t, tbm.storage ≠ .hash t) :
    Ends (Full L tbm.nentries) (fun t => L.Valid t ∧ T.lookup t = m) (tbmCreatePagetable T tbm) := by
  obtain ⟨t, hcreate, ht, hlookup⟩ := L.create_ok
  obtain ⟨n, hn, -⟩ := h.counted.entries
  rw [tbmCreatePagetable, hcreate, ok_bind]
  cases hst : tbm.storage with
  | empty => exact ⟨ht, hlookup.trans (h.of_empty hst).symm⟩
  | onePage blockno entry1 =>
    obtain ⟨-, rfl⟩ := h.of_onePage hst
    have hzero : Tally (T.lookup t) (fun _ => true) 0 := hlookup ▸ ⟨0, rfl, counts_none _⟩
    refine ((insert_full ht hzero blockno entry1).mono (fun _ (hfull : _ ≤ _) => hfull.trans ?_)
      fun _ hr => hr).bind
      fun r ⟨hr, hfound, hlookup', _⟩ => ⟨hr, ?_⟩
    · omega
    · rw [hlookup', hfound, hlookup]
      rfl
  | hash t => exact absurd hst (hnot t)

theorem forceHash_ends (h : Holds L tbm m) :
    Ends (Full L tbm.nentries) (fun t => (L.Valid t ∧ T.lookup t = m) ∧
      ∀ t', tbm.storage = .hash t' → t = t') (forceHash T tbm) := by
  rw [forceHash]
  cases hst : tbm.storage with
  | hash t => exact ⟨h.of_hash hst, fun t' ht => (Storage.hash.inj ht)⟩
  | _ =>
    exact (tbmCreatePagetable_ends h (by simp [hst])).imp fun t ht => ⟨ht, fun t' ht' => nomatch ht'⟩

def getMap (m : PageMap) (p : ℕ) : PageMap :=
  if (m p).isSome then m else Function.update m p (some emptyPage)

theorem getMap_self (m : PageMap) (p : ℕ) : getMap m p p = some ((m p).getD emptyPage) := by
  unfold getMap
  cases hm : m p with
  | some e =>
    rw [isSome_some, if_pos rfl, hm]
    rfl
  | none =>
    rw [isSome_none, if_neg Bool.false_ne_true, update_self]
    rfl

theorem insertPage_ends (ht : L.Valid t) (hlookup : T.lookup t = m)
    (hcount : Counted m tbm.nentries tbm.npages tbm.nchunks) (hlimit : 1 ≤ tbm.maxentries) (p : ℕ) :
    Ends (Full L tbm.nentries) (fun tbm' => Holds L tbm' (getMap m p) ∧ tbm'.maxentries = tbm.maxentries)
      (insertPage T tbm t p) := by
  subst hlookup
  refine (insert_full ht hcount.entries p emptyPage).bind
    fun ⟨t', found⟩ ⟨ht', hfound, hlookup', _⟩ => ?_
  cases hm : T.lookup t p with
  | some e =>
    rw [hm] at hfound
    subst hfound
    rw [getMap, hm, isSome_some]
    exact ⟨⟨⟨ht', hlookup'⟩, hcount, hlimit⟩, rfl⟩
  | none =>
    rw [hm] at hfound
    subst hfound
    rw [getMap, hm, isSome_none]
    exact ⟨⟨⟨ht', hlookup'⟩, hcount.new_page hm rfl, hlimit⟩, rfl⟩

theorem tbmGetPageentry_ends (h : Holds L tbm m) (p : ℕ) :
    Ends (Full L tbm.nentries) (fun tbm' => Holds L tbm' (getMap m p) ∧ tbm'.maxentries = tbm.maxentries)
      (tbmGetPageentry T tbm p) := by
  rw [tbmGetPageentry]
  cases hst : tbm.storage with
  | empty =>
    obtain rfl := h.of_empty hst
    exact ⟨⟨⟨rfl, rfl⟩, h.counted.new_page rfl rfl, h.limit⟩, rfl⟩
  | onePage blockno entry1 =>
    have hm := (h.of_onePage hst).2
    dsimp only
    split_ifs with hb
    · have hget : getMap m p = m := by
        rw [getMap, hm, ← hb, update_self]
        rfl
      rw [hget]
      exact ⟨h, rfl⟩
    · refine (tbmCreatePagetable_ends h (by simp [hst])).bind fun t ⟨ht, hlookup⟩ => ?_
      exact insertPage_ends ht hlookup h.counted h.limit p
  | hash t =>
    obtain ⟨ht, hlookup⟩ := h.of_hash hst
    exact insertPage_ends ht hlookup h.counted h.limit p

theorem dropPage_spec (hw : WellFormed m) (ht : L.Valid t) (hlookup : T.lookup t = m)
    (hcount : Counted m tbm.nentries tbm.npages tbm.nchunks) (p : ℕ) :
    ∃ tbm' t', dropPage T tbm t p = (tbm', t') ∧ L.Valid t' ∧ T.lookup t' = dropMap m p ∧
      Counted (dropMap m p) tbm'.nentries tbm'.npages tbm'.nchunks ∧ tbm'.nentries ≤ tbm.nentries ∧
      tbm'.maxentries = tbm.maxentries ∧ ∀ i, L.Usable t i → L.Usable t' i := by
  subst hlookup
  rw [dropPage, dropMap]
  split_ifs with hp
  · obtain ⟨hvalid, hpresent, hlookup⟩ := L.delete_ok ht
    dsimp only
    cases hm : T.lookup t p with
    | none =>
      rw [hpresent, hm, isSome_none]
      refine ⟨_, _, rfl, hvalid, hlookup, ?_, le_rfl, rfl, fun i hi => L.usable_delete ht hi⟩
      rwa [← hm, update_eq_self]
    | some e =>
      rw [hpresent, hm, isSome_some]
      have hexact : Exact (T.lookup t) p e := ⟨hm, eq_false_iff.2 fun hc => hp (hw.chunk_key hm hc)⟩
      exact ⟨_, _, rfl, hvalid, hlookup, hcount.drop_page hexact, Int.sub_le_self _ zero_le_one, rfl,
        fun i hi => L.usable_delete ht hi⟩
  · exact ⟨_, _, rfl, ht, rfl, hcount, le_rfl, rfl, fun i hi => hi⟩

theorem chunkHeader_spec (tbm : TIDBitmap τ)
    (hcount : Counted m tbm.nentries tbm.npages tbm.nchunks) (p : ℕ) :
    ∃ tbm', chunkHeader tbm (m p).isSome ((m p).getD emptyChunk) = (tbm', headerOf (m p)) ∧
      tbm'.storage = tbm.storage ∧
      tbm'.maxentries = tbm.maxentries ∧
      ∀ i, Counted (Function.update m p (some (addBit (headerOf (m p)) i))) tbm'.nentries
        tbm'.npages tbm'.nchunks := by
  rw [chunkHeader]
  cases hm : m p with
  | none => exact ⟨_, rfl, rfl, rfl, fun i => hcount.new_chunk hm rfl⟩
  | some e => ?_
  rw [headerOf]
  by_cases hc : e.ischunk = true
  · rw [if_pos hc]
    refine ⟨tbm, ?_, rfl, rfl, fun i => hcount.set hm rfl⟩
    simp [hc]
  · rw [if_neg hc]
    refine ⟨{ tbm with nchunks := tbm.nchunks + 1, npages := tbm.npages - 1 }, ?_, rfl, rfl,
      fun i => hcount.to_chunk ⟨hm, eq_false_iff.2 hc⟩ rfl⟩
    simp [hc]

theorem tbmMarkPageLossy_ends (h : Holds L tbm m) (hw : WellFormed m) (p : ℕ) :
    Ends (Full L tbm.nentries) (fun tbm' => Holds L tbm' (markMap m p) ∧ Keeps L tbm tbm')
      (tbmMarkPageLossy T tbm p) := by
  refine (forceHash_ends h).bind fun t ⟨⟨ht, hlookup⟩, hsame⟩ => ?_
  obtain ⟨tbm1, t1, hdrop, ht1, hlookup1, hcount1, hless, hlimit1, husable1⟩ :=
    dropPage_spec hw ht hlookup h.counted p
  rw [hdrop]
  have hinsert := insert_full ht1 (hlookup1 ▸ hcount1.entries) (p - p % pagesPerChunk) emptyChunk
  refine (hinsert.mono (fun _ (hfull : _ ≤ _) => hfull.trans hless) fun _ hr => hr).bind
    fun ⟨t2, found⟩ ⟨ht2, hfound, hlookup2, husable2⟩ => ?_
  dsimp only at ht2 hfound hlookup2 husable2 ⊢
  rw [hlookup1, show p - p % pagesPerChunk = chunkOf p from rfl] at hfound hlookup2
  rw [show p - p % pagesPerChunk = chunkOf p from rfl]
  -- the entry of the chunk, which is there now
  have hentry : T.lookup t2 (chunkOf p) = some ((dropMap m p (chunkOf p)).getD emptyChunk) := by
    rw [hlookup2, hfound]
    cases hm : dropMap m p (chunkOf p) with
    | none => rw [isSome_none, if_neg Bool.false_ne_true, update_self]; rfl
    | some e => rw [isSome_some, if_pos rfl, hm]; rfl
  obtain ⟨tbm2, hheader, hstorage, hlimit2, hcount2⟩ :=
    chunkHeader_spec { tbm1 with storage := .hash t2 } hcount1 (chunkOf p)
  rw [pageAt_hash rfl hentry, ok_bind, hfound, hheader]
  have hsome : (T.lookup t2 (chunkOf p)).isSome := by rw [hentry]; rfl
  obtain ⟨ht3, hlookup3⟩ := L.store_ok ht2 hsome
  have hmap : update (T.lookup t2) (chunkOf p)
      (some (addBit (headerOf (dropMap m p (chunkOf p))) (p % pagesPerChunk))) = markMap m p := by
    rw [hlookup2]
    split_ifs
    · rfl
    · exact update_idem ..
  rw [setPage, hstorage]
  refine ⟨⟨⟨ht3, hlookup3.trans hmap⟩, hcount2 _, ?_⟩, ?_, fun t' ht' => ?_⟩
  · rw [hlimit2, hlimit1]
    exact h.limit
  · exact hlimit2.trans hlimit1
  · obtain rfl := hsame t' ht'
    exact ⟨_, rfl, fun i hi => L.usable_store ht2 (husable2 i (husable1 i hi))⟩

end Pg.Tbm
