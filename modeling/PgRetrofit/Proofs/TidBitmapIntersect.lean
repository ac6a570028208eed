import PgRetrofit.Proofs.TidBitmapUnion

/-! The intersection of bitmaps. The scan of the table of a visits every entry once, although the
entries that become empty are removed on the way. -/

namespace Pg.Tbm

open FiniteMap Function Words Bool Nat Option

variable {τ ι : Type} {T : ScanTable Fault ℕ PagetableEntry τ ι} {L : T.Lawful} {m mb cur : PageMap}
  {b k i : ℕ} {e e' bpage : PagetableEntry} {K : Set ℕ}
  {tbm tb : TIDBitmap τ} {t : τ} {S B : Set (ℕ × ℕ)}

def meet (T : ScanTable Fault ℕ PagetableEntry τ ι) (tb : TIDBitmap τ) (b : ℕ) (e : PagetableEntry) :
    Option PagetableEntry :=
  if (tbmIntersectPage T tb b e).2 then none else some (tbmIntersectPage T tb b e).1

def meetMap (T : ScanTable Fault ℕ PagetableEntry τ ι) (tb : TIDBitmap τ) (m : PageMap) : PageMap :=
  fun b => (m b).bind (meet T tb b)

def Present (mb : PageMap) (b : ℕ) : Prop := Lossy mb b ∨ ∃ e, Exact mb b e

theorem intersect_ischunk (b : ℕ) (e : PagetableEntry) :
    (tbmIntersectPage T tb b e).1.ischunk = e.ischunk := by
  rw [tbmIntersectPage]
  split_ifs with hc hl
  · rfl
  · rfl
  · cases tbmFindPageentry T tb b <;> rfl

theorem eq_of_meet (h : meet T tb b e = some e') : (tbmIntersectPage T tb b e).1 = e' := by
  rw [meet] at h
  split_ifs at h
  exact some.inj h

theorem meet_ischunk (h : meet T tb b e = some e') : e'.ischunk = e.ischunk :=
  eq_of_meet h ▸ intersect_ischunk b e

variable (hb : Holds L tb mb)
include hb

theorem present_iff : (tbmPageIsLossy T tb b || (tbmFindPageentry T tb b).isSome) = true ↔
    Present mb b := by
  rw [or_eq_true, tbmPageIsLossy_iff hb, isSome_iff_exists, Present]
  simp only [tbmFindPageentry_iff hb]

theorem intersect_chunk (hc : e.ischunk = true) (hbits : ∀ i, e.words.has i = true → i < pagesPerChunk) :
    (∀ i, (tbmIntersectPage T tb b e).1.words.has i = true ↔ e.words.has i = true ∧ Present mb (b + i)) ∧
    ((tbmIntersectPage T tb b e).2 = true ↔ ∀ i, (tbmIntersectPage T tb b e).1.words.has i = false) := by
  have hw : 0 < bitsPerBitmapword := by decide
  have hlow : ∀ {i}, i < wordsPerChunk * bitsPerBitmapword ↔ i < pagesPerChunk := Iff.rfl
  have hhas : ∀ i, (tbmIntersectPage T tb b e).1.words.has i = true ↔
      e.words.has i = true ∧ Present mb (b + i) := by
    intro i
    rw [tbmIntersectPage, if_pos hc]
    rw [has_mapWords hw (by decide)]
    split_ifs with hi
    · have hpos : b + i / bitsPerBitmapword * bitsPerBitmapword + i % bitsPerBitmapword = b + i := by
        rw [Nat.add_assoc, Nat.mul_comm, Nat.div_add_mod]
      rw [getLsbD_keepBits hw (Nat.mod_lt _ hw), and_eq_true, hpos, present_iff hb, Words.has]
    · exact ⟨fun hbit => absurd (hlow.2 (hbits i hbit)) hi,
        fun hbit => absurd (hlow.2 (hbits i hbit.1)) hi⟩
  refine ⟨hhas, ?_⟩
  have hzero : (tbmIntersectPage T tb b e).2 =
    (tbmIntersectPage T tb b e).1.words.allZero wordsPerChunk := by rw [tbmIntersectPage, if_pos hc]
  rw [hzero, allZero_iff hw]
  refine ⟨fun hall i => ?_, fun hall i _ => hall i⟩
  by_cases hi : i < wordsPerChunk * bitsPerBitmapword
  · exact hall i hi
  · exact eq_false_iff.2 fun hbit => hi (hlow.2 (hbits i ((hhas i).1 hbit).1))

theorem intersect_lossy (hc : e.ischunk = false) (hl : Lossy mb b) :
    tbmIntersectPage T tb b e = ({ e with recheck := true }, false) := by
  rw [tbmIntersectPage, if_neg (eq_false_iff.1 hc), if_pos ((tbmPageIsLossy_iff hb).2 hl)]

theorem intersect_absent (hc : e.ischunk = false) (hp : ¬ Present mb b) :
    tbmIntersectPage T tb b e = (e, true) := by
  have hl : ¬ tbmPageIsLossy T tb b = true := fun h => hp (.inl ((tbmPageIsLossy_iff hb).1 h))
  rw [tbmIntersectPage, if_neg (eq_false_iff.1 hc), if_neg hl]
  cases hfind : tbmFindPageentry T tb b with
  | none => rfl
  | some bpage => exact absurd (.inr ⟨bpage, (tbmFindPageentry_iff hb).1 hfind⟩) hp

theorem intersect_exact (hw : WellFormed mb) (hc : e.ischunk = false) (he : Exact mb b bpage) :
    (∀ i, (tbmIntersectPage T tb b e).1.words.has i = (e.words.has i && bpage.words.has i)) ∧
    (tbmIntersectPage T tb b e).1.recheck = (e.recheck || bpage.recheck) ∧
    ((tbmIntersectPage T tb b e).2 = true ↔ ∀ i, (tbmIntersectPage T tb b e).1.words.has i = false) := by
  have hpos : 0 < bitsPerBitmapword := by decide
  have hl : ¬ tbmPageIsLossy T tb b = true := fun h => hw.apart he ((tbmPageIsLossy_iff hb).1 h)
  have hall : ∀ {s : Words bitsPerBitmapword (max wordsPerPage wordsPerChunk)} {i},
      ¬ i < wordsPerPage * bitsPerBitmapword → s.has i = false :=
    fun hi => has_eq_false (Nat.le_of_not_lt hi)
  rw [tbmIntersectPage, if_neg (eq_false_iff.1 hc), if_neg hl, (tbmFindPageentry_iff hb).2 he]
  refine ⟨fun i => ?_, rfl, ?_⟩
  · rw [has_mapWords hpos (by decide)]
    split_ifs with hi
    · rw [BitVec.getLsbD_and, has, has]
    · rw [hall hi, hall hi, Bool.and_false]
  · rw [allZero_iff hpos]
    refine ⟨fun hzero i => ?_, fun hzero i _ => hzero i⟩
    by_cases hi : i < wordsPerPage * bitsPerBitmapword
    · exact hzero i hi
    · exact hall hi

theorem meet_page (hw : WellFormed mb) (hc : e.ischunk = false) (h : meet T tb b e = some e') :
    (∀ i, e'.words.has i = true → e.words.has i = true) ∧
      (e'.recheck = false → e.recheck = false ∧ ∃ bpage, Exact mb b bpage ∧ bpage.recheck = false ∧
        ∀ i, e'.words.has i = true → bpage.words.has i = true) := by
  rw [meet] at h
  split_ifs at h with hdel
  obtain rfl := some.inj h
  by_cases hl : Lossy mb b
  · rw [intersect_lossy hb hc hl]
    exact ⟨fun i hi => hi, fun hr => absurd hr.symm false_ne_true⟩
  by_cases hex : ∃ bpage, Exact mb b bpage
  · obtain ⟨bpage, he⟩ := hex
    obtain ⟨hhas, hrecheck, -⟩ := intersect_exact hb hw hc he
    have hboth : ∀ i, (tbmIntersectPage T tb b e).1.words.has i = true → e.words.has i = true ∧
        bpage.words.has i = true := by
      intro i hi
      rwa [hhas, and_eq_true] at hi
    refine ⟨fun i hi => (hboth i hi).1, fun hr => ?_⟩
    rw [hrecheck, or_eq_false_iff] at hr
    exact ⟨hr.1, bpage, he, hr.2, fun i hi => (hboth i hi).2⟩
  · rw [intersect_absent hb hc (fun hp => hp.elim hl hex)] at hdel
    exact absurd rfl hdel

omit hb

theorem meet_kept {r : PagetableEntry × Bool} {i : ℕ} (hdel : r.2 = true ↔ ∀ i, r.1.words.has i = false)
    (hbit : r.1.words.has i = true) :
    (if r.2 then none else some r.1) = some r.1 := by
  refine if_neg fun h => ?_
  rw [hdel.1 h] at hbit
  cases hbit

theorem meetMap_eq_some (h : meetMap T tb m b = some e') : ∃ e, m b = some e ∧ meet T tb b e = some e' :=
  bind_eq_some_iff.1 h

theorem exact_meet : Exact (meetMap T tb m) b e' ↔ ∃ e, Exact m b e ∧ meet T tb b e = some e' := by
  constructor
  · rintro ⟨h, hc⟩
    obtain ⟨e, he, hmeet⟩ := meetMap_eq_some h
    exact ⟨e, ⟨he, (meet_ischunk hmeet).symm.trans hc⟩, hmeet⟩
  rintro ⟨e, ⟨he, hc⟩, hmeet⟩
  refine ⟨?_, (meet_ischunk hmeet).trans hc⟩
  rw [meetMap, he]
  exact hmeet

theorem lossy_meet (hb : Holds L tb mb) (hm : WellFormed m) : Lossy (meetMap T tb m) b ↔
    Lossy m b ∧ Present mb b := by
  constructor
  · rintro ⟨e', he', hc', hbit⟩
    obtain ⟨e, he, hmeet⟩ := meetMap_eq_some he'
    have hc : e.ischunk = true := (meet_ischunk hmeet).symm.trans hc'
    obtain rfl := eq_of_meet hmeet
    obtain ⟨hold, hpres⟩ := ((intersect_chunk hb hc fun i hi => hm.chunk_bits he hc hi).1 _).1 hbit
    rw [chunkOf_add_mod] at hpres
    exact ⟨⟨e, he, hc, hold⟩, hpres⟩
  · rintro ⟨⟨e, he, hc, hbit⟩, hpres⟩
    obtain ⟨hhas, hdel⟩ := intersect_chunk hb hc fun i hi => hm.chunk_bits he hc hi
    have hbit' := (hhas (b % pagesPerChunk)).2 ⟨hbit, by rwa [chunkOf_add_mod]⟩
    refine ⟨_, ?_, (intersect_ischunk _ e).trans hc, hbit'⟩
    rw [meetMap, he]
    exact meet_kept hdel hbit'

theorem wellFormed_meet (hb : Holds L tb mb) (hw : WellFormed mb) (hm : WellFormed m) :
    WellFormed (meetMap T tb m) := by
  refine ⟨fun {b e'} h hc => ?_, fun {b e' i} h hc hi => ?_, fun {b e' i} h hi => ?_,
    fun {b e'} h hl => ?_⟩
  · obtain ⟨e, he, hmeet⟩ := meetMap_eq_some h
    exact hm.chunk_key he ((meet_ischunk hmeet).symm.trans hc)
  · obtain ⟨e, he, hmeet⟩ := meetMap_eq_some h
    have hce : e.ischunk = true := (meet_ischunk hmeet).symm.trans hc
    obtain rfl := eq_of_meet hmeet
    exact hm.chunk_bits he hce
      (((intersect_chunk hb hce fun i hi => hm.chunk_bits he hce hi).1 i).1 hi).1
  · obtain ⟨e, he, hmeet⟩ := exact_meet.1 h
    exact hm.page_bits he ((meet_page hb hw he.2 hmeet).1 i hi)
  · obtain ⟨e, he, -⟩ := exact_meet.1 h
    exact hm.apart he ((lossy_meet hb hm).1 hl).1

theorem approximates_meet (hb : Keeping L tb mb B) (hm : WellFormed m) (ha : Approximates m S) :
    Approximates (meetMap T tb m) (S ∩ B) := by
  refine ⟨fun {b off} ⟨hS, hB⟩ => ?_, fun {b e' i} h hr hi => ?_⟩
  · rw [lossy_meet hb.holds hm]
    have hpres : Present mb b := (hb.approximates.covers hB).imp_right fun ⟨bpage, he, _⟩ => ⟨bpage, he⟩
    rcases ha.covers hS with hl | ⟨e, he, hoff, hbit⟩
    · exact .inl ⟨hl, hpres⟩
    refine .inr ?_
    rcases hb.approximates.covers hB with hl | ⟨bpage, hbp, -, hbit'⟩
    · refine ⟨{ e with recheck := true }, exact_meet.2 ⟨e, he, ?_⟩, hoff, hbit⟩
      rw [meet, intersect_lossy hb.holds he.2 hl]
      rfl
    obtain ⟨hhas, -, hdel⟩ := intersect_exact hb.holds hb.wellFormed he.2 hbp
    have hboth : (tbmIntersectPage T tb b e).1.words.has (off - 1) = true := by
      rw [hhas, hbit, hbit', Bool.and_true]
    exact ⟨_, exact_meet.2 ⟨e, he, meet_kept hdel hboth⟩, hoff, hboth⟩
  · obtain ⟨e, he, hmeet⟩ := exact_meet.1 h
    obtain ⟨hsub, hprec⟩ := meet_page hb.holds hb.wellFormed he.2 hmeet
    obtain ⟨hre, bpage, hbp, hrb, hbits⟩ := hprec hr
    exact ⟨ha.precise he hre (hsub i hi), hb.approximates.precise hbp hrb (hbits i hi)⟩

/-- The entries of `K` have still to be visited. -/
structure Partly (T : ScanTable Fault ℕ PagetableEntry τ ι) (tb : TIDBitmap τ) (m : PageMap) (K : Set ℕ)
    (cur : PageMap) : Prop where
  rest : ∀ k ∈ K, cur k = m k
  done : ∀ k, k ∉ K → cur k = meetMap T tb m k

theorem Partly.visit (h : Partly T tb m K cur) (k : ℕ) :
    Partly T tb m (K \ {k}) (update cur k (meetMap T tb m k)) := by
  refine ⟨fun k' hk' => ?_, fun k' hk' => ?_⟩
  · rw [update_of_ne hk'.2, h.rest k' hk'.1]
  by_cases heq : k' = k
  · rw [heq, update_self]
  · rw [update_of_ne heq]
    exact h.done k' fun hin => hk' ⟨hin, heq⟩

theorem countRemoved_counted (hcount : Counted cur tbm.nentries tbm.npages tbm.nchunks)
    (hk : cur k = some e) (hsame : e'.ischunk = e.ischunk) :
    Counted (update cur k none) (countRemoved tbm e').nentries (countRemoved tbm e').npages
      (countRemoved tbm e').nchunks ∧ (countRemoved tbm e').maxentries = tbm.maxentries := by
  rw [countRemoved]
  split_ifs with hc
  · exact ⟨hcount.drop_chunk hk (hsame.symm.trans hc), rfl⟩
  · exact ⟨hcount.drop_page ⟨hk, hsame.symm.trans (eq_false_iff.2 hc)⟩, rfl⟩

theorem intersectLoop_spec {fuel : ℕ} {it : ι} (ht : L.Valid t) (hi : L.Usable t it)
    (hp : L.Pending t it K) (hcur : Partly T tb m K (T.lookup t))
    (hcount : Counted (T.lookup t) tbm.nentries tbm.npages tbm.nchunks) (hlimit : 1 ≤ tbm.maxentries)
    (hfuel : T.room t it < fuel) :
    ∃ tbm', intersectLoop T tb fuel tbm t it = .ok tbm' ∧ Holds L tbm' (meetMap T tb m) := by
  induction fuel generalizing tbm t it K with
  | zero => omega
  | succ fuel ih => ?_
  rw [intersectLoop]
  cases hnext : T.iterate t it with
  | none =>
    obtain rfl := L.pending_none ht hp hnext
    have hdone : T.lookup t = meetMap T tb m := funext fun k => hcur.done k (Set.notMem_empty k)
    exact ⟨_, rfl, ⟨ht, hdone⟩, hdone ▸ hcount, hlimit⟩
  | some r => ?_
  obtain ⟨k, e, it'⟩ := r
  obtain ⟨he, hi', hroom⟩ := L.iterate_ok ht hi hnext
  obtain ⟨hk, hp', hlast⟩ := L.pending_some ht hp hnext
  have hsome : (T.lookup t k).isSome := isSome_iff_exists.2 ⟨e, he⟩
  have hmeet : meetMap T tb m k = meet T tb k e := by
    rw [meetMap, ← hcur.rest k hk, he]
    rfl
  have hvisit := hcur.visit k
  dsimp only
  obtain ⟨ht1, hlookup1⟩ := L.store_ok ht hsome
  have hp1 := L.pending_store (v := (tbmIntersectPage T tb k e).1) ht hp' hsome
  have hi1 := L.usable_store (k := k) (v := (tbmIntersectPage T tb k e).1) ht hi'
  have hlast1 := L.last_store (v := (tbmIntersectPage T tb k e).1) ht hlast hsome
  have hroom1 : T.room (T.store t k (tbmIntersectPage T tb k e).1) it' = T.room t it' := L.room_store
  generalize T.store t k (tbmIntersectPage T tb k e).1 = t1 at *
  by_cases hdel : (tbmIntersectPage T tb k e).2 = true
  · obtain ⟨ht2, hpresent, hlookup2⟩ := L.delete_ok ht1
    have hp2 := L.pending_delete ht1 hp1 hlast1
    have hi2 := L.usable_delete (k := k) ht1 hi1
    have hroom2 : T.room (T.delete t1 k).1 it' = T.room t1 it' := L.room_delete ht1
    have hmap : T.lookup (T.delete t1 k).1 = update (T.lookup t) k none := by
      rw [hlookup2, hlookup1, update_idem]
    obtain ⟨hcount2, hlimit2⟩ := countRemoved_counted hcount he (intersect_ischunk k e)
    rw [if_pos hdel, hpresent, hlookup1, update_self, isSome_some]
    refine ih ht2 hi2 hp2 ?_ (hmap ▸ hcount2) (hlimit2 ▸ hlimit)
      (show T.room (T.delete t1 k).1 it' < fuel by omega)
    rw [hmap]
    rwa [hmeet, meet, if_pos hdel] at hvisit
  · rw [if_neg hdel]
    refine ih ht1 hi1 hp1 ?_ (hlookup1 ▸ hcount.set he (intersect_ischunk k e)) hlimit (by omega)
    rw [hlookup1]
    rwa [hmeet, meet, if_neg hdel] at hvisit

theorem tbmIntersect_spec {a b : TIDBitmap τ} (ha : Represents L a S) (hb : Represents L b B) :
    ∃ a', tbmIntersect T a b = .ok a' ∧ Represents L a' (S ∩ B) := by
  rw [tbmIntersect]
  split_ifs with hzero
  · have hS := ha.eq_empty hzero
    rw [hS] at ha
    exact ⟨a, rfl, by rwa [hS, Set.empty_inter]⟩
  obtain ⟨m, ha⟩ := ha
  obtain ⟨mb, hb⟩ := hb
  have hmap : ∀ a', Holds L a' (meetMap T b m) → Represents L a' (S ∩ B) := fun a' h =>
    ⟨_, h, wellFormed_meet hb.holds hb.wellFormed ha.wellFormed,
      approximates_meet hb ha.wellFormed ha.approximates⟩
  have hs := ha.holds.stored
  have hcount := ha.holds.counted
  cases hst : a.storage with
  | empty =>
    rw [hst] at hs
    obtain rfl : m = fun _ => none := hs
    obtain ⟨n, hn, hnone⟩ := hcount.entries
    have := hnone.unique (counts_none _)
    omega
  | onePage blockno entry1 =>
    rw [hst] at hs
    obtain ⟨hne, rfl⟩ : _ ∧ m = _ := hs
    have hmeet : ∀ o, meet T b blockno entry1 = o →
        meetMap T b (update (fun _ => none) blockno (some entry1)) =
          update (fun _ => none) blockno o := by
      rintro o rfl
      funext k
      by_cases hk : k = blockno
      · rw [hk, meetMap, update_self, update_self]
        rfl
      · rw [meetMap, update_of_ne hk, update_of_ne hk]
        rfl
    have hentry : update (fun _ => none) blockno (some entry1) blockno = some entry1 := update_self ..
    dsimp only
    by_cases hdel : (tbmIntersectPage T b blockno entry1).2 = true
    · rw [if_pos hdel]
      have hnone := hmeet none (if_pos hdel)
      refine ⟨_, rfl, hmap _ ⟨?_, ?_, ha.holds.limit⟩⟩
      · show meetMap T b _ = fun _ => none
        rw [hnone, update_eq_self_iff]
      have hdrop := hcount.drop_page ⟨hentry, hne⟩
      rw [update_idem] at hdrop
      rw [hnone]
      exact hdrop
    rw [if_neg hdel]
    have hsome := hmeet _ (if_neg hdel)
    refine ⟨_, rfl, hmap _ ⟨⟨(intersect_ischunk blockno entry1).trans hne, hsome⟩, ?_, ha.holds.limit⟩⟩
    have hsame : (tbmIntersectPage T b blockno entry1).1.ischunk = entry1.ischunk :=
      intersect_ischunk blockno entry1
    have hset := hcount.set hentry hsame
    rw [update_idem] at hset
    rw [hsome]
    exact hset
  | hash t =>
    obtain ⟨ht, hlookup⟩ := ha.holds.of_hash hst
    have hstart : Partly T b m {k | (T.lookup t k).isSome} (T.lookup t) := by
      refine ⟨fun k _ => hlookup ▸ rfl, fun k hk => ?_⟩
      have hnone : T.lookup t k = none := not_isSome_iff_eq_none.1 hk
      rw [meetMap, ← hlookup, hnone]
      rfl
    obtain ⟨a', hrun, hholds⟩ := intersectLoop_spec ht (L.usable_start ht) (L.pending_start ht) hstart
      (hlookup ▸ hcount) ha.holds.limit (lt_succ_self _)
    exact ⟨a', hrun, hmap a' hholds⟩

end Pg.Tbm
