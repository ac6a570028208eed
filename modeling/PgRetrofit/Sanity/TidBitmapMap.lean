import PgRetrofit.Lib.FiniteMap
import PgRetrofit.Spec.TidBitmap

/-! What the entries of a bitmap say about blocks: which are stored lossily, and which exactly. The
entries are a map from block numbers; a set of TIDs is approximated by it if every TID is in a
block that is lossy, or among the tuples of one that is exact, and if the tuples of an exact page
that needs no recheck are in the set. -/

namespace Pg.Tbm

open Function Words Option

abbrev PageMap := ℕ → Option PagetableEntry

def chunkOf (b : ℕ) : ℕ := b - b % pagesPerChunk

variable {m : PageMap} {b p off i : ℕ} {e e' : PagetableEntry} {o : Option PagetableEntry}
  {S S' : Set (ℕ × ℕ)}

def Lossy (m : PageMap) (b : ℕ) : Prop :=
  ∃ e, m (chunkOf b) = some e ∧ e.ischunk = true ∧ e.words.has (b % pagesPerChunk) = true

def Exact (m : PageMap) (b : ℕ) (e : PagetableEntry) : Prop := m b = some e ∧ e.ischunk = false

structure WellFormed (m : PageMap) : Prop where
  chunk_key : ∀ {b e}, m b = some e → e.ischunk = true → b % pagesPerChunk = 0
  chunk_bits : ∀ {b e i}, m b = some e → e.ischunk = true → e.words.has i = true → i < pagesPerChunk
  page_bits : ∀ {b e i}, Exact m b e → e.words.has i = true → i < maxTuplesPerPage
  /-- No block is stored both exactly and lossily. -/
  apart : ∀ {b e}, Exact m b e → ¬ Lossy m b

structure Approximates (m : PageMap) (S : Set (ℕ × ℕ)) : Prop where
  covers :
    ∀ {b off}, (b, off) ∈ S → Lossy m b ∨ ∃ e, Exact m b e ∧ 0 < off ∧ e.words.has (off - 1) = true
  precise : ∀ {b e i}, Exact m b e → e.recheck = false → e.words.has i = true → (b, i + 1) ∈ S

theorem chunkOf_mod (b : ℕ) : chunkOf b % pagesPerChunk = 0 :=
  Nat.sub_mod_eq_zero_of_mod_eq (Nat.mod_mod _ _).symm

theorem chunkOf_eq (h : b % pagesPerChunk = 0) : chunkOf b = b := by rw [chunkOf, h, Nat.sub_zero]

theorem chunkOf_ne (h : p % pagesPerChunk ≠ 0) (b : ℕ) : chunkOf b ≠ p :=
  fun he => h (he ▸ chunkOf_mod b)

theorem chunkOf_add (h : b % pagesPerChunk = 0) (hi : i < pagesPerChunk) :
    chunkOf (b + i) = b ∧ (b + i) % pagesPerChunk = i := by
  have hmod : (b + i) % pagesPerChunk = i := by
    rw [Nat.add_mod, h, Nat.zero_add, Nat.mod_mod, Nat.mod_eq_of_lt hi]
  rw [chunkOf, hmod, Nat.add_sub_cancel]
  exact ⟨rfl, rfl⟩

theorem chunkOf_add_mod (b : ℕ) : chunkOf b + b % pagesPerChunk = b :=
  Nat.sub_add_cancel (Nat.mod_le _ _)

theorem eq_of_chunk (hc : chunkOf b = chunkOf p) (hi : b % pagesPerChunk = p % pagesPerChunk) :
    b = p := by
  rw [← chunkOf_add_mod b, hc, hi, chunkOf_add_mod]

theorem wellFormed_none : WellFormed fun _ => none where
  chunk_key h := nomatch h
  chunk_bits h := nomatch h
  page_bits h := nomatch h.1
  apart h := nomatch h.1

theorem approximates_none : Approximates (fun _ => none) ∅ where
  covers h := absurd h (Set.notMem_empty _)
  precise h := nomatch h.1

theorem Approximates.grow (h : Approximates m S) (hsub : S ⊆ S')
    (hnew : ∀ b off, (b, off) ∈ S' → (b, off) ∈ S ∨ Lossy m b ∨
      ∃ e, Exact m b e ∧ 0 < off ∧ e.words.has (off - 1) = true) :
    Approximates m S' where
  covers := fun {b off} hin => (hnew b off hin).elim (fun hS => h.covers hS) id
  precise := fun he hr hi => hsub (h.precise he hr hi)

/-- An entry that is exact or missing says nothing about lossy blocks. -/
theorem lossy_update (hold : ∀ e, m p = some e → e.ischunk = false)
    (hnew : ∀ e, o = some e → e.ischunk = false) :
    Lossy (update m p o) b ↔ Lossy m b := by
  by_cases hc : chunkOf b = p
  · refine ⟨fun ⟨e, he, hchunk, _⟩ => ?_, fun ⟨e, he, hchunk, _⟩ => ?_⟩
    · rw [hc, update_self] at he
      exact absurd hchunk (by rw [hnew e he]; exact Bool.false_ne_true)
    · rw [hc] at he
      exact absurd hchunk (by rw [hold e he]; exact Bool.false_ne_true)
  · unfold Lossy
    rw [update_of_ne hc]

theorem exact_update_of_ne (hb : b ≠ p) : Exact (update m p o) b e ↔ Exact m b e := by
  unfold Exact
  rw [update_of_ne hb]

theorem exact_update_self : Exact (update m p o) p e ↔ o = some e ∧ e.ischunk = false := by
  rw [Exact, update_self]

theorem WellFormed.update (h : WellFormed m) (hold : ∀ e, m p = some e → e.ischunk = false)
    (hnew : ∀ e, o = some e → e.ischunk = false ∧ ¬ Lossy m p ∧
      ∀ i, e.words.has i = true → i < maxTuplesPerPage) :
    WellFormed (Function.update m p o) := by
  have hnew1 : ∀ e, o = some e → e.ischunk = false := fun e he => (hnew e he).1
  have hchunk : ∀ {b e}, Function.update m p o b = some e → e.ischunk = true → m b = some e := by
    intro b e he hc
    by_cases hb : b = p
    · rw [hb, update_self] at he
      exact absurd hc (by rw [hnew1 e he]; exact Bool.false_ne_true)
    · rwa [update_of_ne hb] at he
  refine ⟨fun he hc => h.chunk_key (hchunk he hc) hc, fun he hc => h.chunk_bits (hchunk he hc) hc,
    fun {b e i} he => ?_, fun {b e} he => ?_⟩
  · by_cases hb : b = p
    · subst hb
      exact (hnew e (exact_update_self.1 he).1).2.2 i
    · exact h.page_bits ((exact_update_of_ne hb).1 he)
  · rw [lossy_update hold hnew1]
    by_cases hb : b = p
    · subst hb
      exact (hnew e (exact_update_self.1 he).1).2.1
    · exact h.apart ((exact_update_of_ne hb).1 he)

theorem Approximates.update (h : Approximates m S) (hold : ∀ e, m p = some e → e.ischunk = false)
    (hnew : ∀ e, o = some e → e.ischunk = false)
    (hsame : ∀ b off, b ≠ p → ((b, off) ∈ S' ↔ (b, off) ∈ S))
    (hcovers : ∀ off, (p, off) ∈ S' → Lossy m p ∨
      ∃ e, o = some e ∧ 0 < off ∧ e.words.has (off - 1) = true)
    (hprecise : ∀ e i, o = some e → e.recheck = false → e.words.has i = true → (p, i + 1) ∈ S') :
    Approximates (update m p o) S' := by
  refine ⟨fun {b off} hin => ?_, fun {b e i} he hr hi => ?_⟩
  · rw [lossy_update hold hnew]
    by_cases hb : b = p
    · subst hb
      refine (hcovers off hin).imp_right fun ⟨e, he, hoff⟩ =>
        ⟨e, exact_update_self.2 ⟨he, hnew e he⟩, hoff⟩
    · refine (h.covers ((hsame b off hb).1 hin)).imp_right fun ⟨e, he, hoff⟩ =>
        ⟨e, (exact_update_of_ne hb).2 he, hoff⟩
  · by_cases hb : b = p
    · subst hb
      exact hprecise e i (exact_update_self.1 he).1 hr hi
    · exact (hsame b (i + 1) hb).2 (h.precise ((exact_update_of_ne hb).1 he) hr hi)

def headerOf : Option PagetableEntry → PagetableEntry
  | none => emptyChunk
  | some page => if page.ischunk then page
      else { emptyChunk with words := Words.zero.modify 0 fun _ => 1 }

def dropMap (m : PageMap) (p : ℕ) : PageMap :=
  if p % pagesPerChunk ≠ 0 then Function.update m p none else m

def addBit (page : PagetableEntry) (i : ℕ) : PagetableEntry := { page with words := page.words.add i }

def markMap (m : PageMap) (p : ℕ) : PageMap :=
  Function.update (dropMap m p) (chunkOf p)
    (some (addBit (headerOf (dropMap m p (chunkOf p))) (p % pagesPerChunk)))

theorem dropMap_of_ne (hb : b ≠ p) : dropMap m p b = m b := by
  unfold dropMap
  split_ifs
  · exact update_of_ne hb ..
  · rfl

theorem dropMap_chunkOf (m : PageMap) (p b : ℕ) : dropMap m p (chunkOf b) = m (chunkOf b) := by
  unfold dropMap
  split_ifs with hp
  · exact update_of_ne (chunkOf_ne hp b) ..
  · rfl

theorem headerOf_ischunk (o : Option PagetableEntry) : (headerOf o).ischunk = true := by
  cases o with
  | none => rfl
  | some page =>
    rw [headerOf]
    split_ifs with h
    · exact h
    · rfl

theorem has_first (i : ℕ) :
    (Words.zero.modify 0 fun _ => 1 : Words bitsPerBitmapword (max wordsPerPage wordsPerChunk)).has i =
      decide (i = 0) := by
  have hadd : (zero.modify 0 fun _ => 1 : Words bitsPerBitmapword (max wordsPerPage wordsPerChunk)) =
    zero.add 0 := by decide
  rw [hadd, has_add (by decide), has_zero, Bool.false_or]

theorem has_addBit (hi : i < pagesPerChunk) (j : ℕ) :
    (addBit e i).words.has j = (e.words.has j || decide (j = i)) := by
  have hlt : i < max wordsPerPage wordsPerChunk * bitsPerBitmapword := hi.trans_le (by decide)
  exact has_add hlt

theorem mod_lt (b : ℕ) : b % pagesPerChunk < pagesPerChunk := Nat.mod_lt _ (by decide)

theorem lossy_mark : Lossy (markMap m p) b ↔ Lossy m b ∨ b = p ∨ b = chunkOf p ∧ ∃ e, Exact m b e := by
  unfold Lossy markMap
  by_cases hc : chunkOf b = chunkOf p
  · have hbp : b % pagesPerChunk = p % pagesPerChunk ↔ b = p := ⟨eq_of_chunk hc, fun h => h ▸ rfl⟩
    rw [hc, update_self, dropMap_chunkOf]
    have hlhs :
      (∃ e, some (addBit (headerOf (m (chunkOf p))) (p % pagesPerChunk)) = some e ∧ e.ischunk = true ∧
        e.words.has (b % pagesPerChunk) = true) ↔
        (headerOf (m (chunkOf p))).words.has (b % pagesPerChunk) = true ∨ b = p := by
      constructor
      · rintro ⟨e, he, -, hhas⟩
        obtain rfl := some.inj he
        rw [has_addBit (mod_lt p), Bool.or_eq_true, decide_eq_true_iff, hbp] at hhas
        exact hhas
      · intro h
        refine ⟨_, rfl, headerOf_ischunk _, ?_⟩
        rw [has_addBit (mod_lt p), Bool.or_eq_true, decide_eq_true_iff, hbp]
        exact h
    rw [hlhs]
    cases hm : m (chunkOf p) with
    | none =>
      have hempty : (headerOf none).words.has (b % pagesPerChunk) = false := has_zero _
      have hexact : ¬ (b = chunkOf p ∧ ∃ e, Exact m b e) := by
        rintro ⟨rfl, e, he, -⟩
        rw [hm] at he
        cases he
      simp [hempty, hexact]
    | some page => ?_
    by_cases hchunk : page.ischunk = true
    · have hexact : ¬ (b = chunkOf p ∧ ∃ e, Exact m b e) := by
        rintro ⟨rfl, e, he, hne⟩
        rw [hm] at he
        rw [← some.inj he, hchunk] at hne
        cases hne
      simp [headerOf, hchunk, hexact]
    · -- the header was an exact page, which is lossy now
      have hfirst : b % pagesPerChunk = 0 ↔ b = chunkOf p := by
        refine ⟨fun h => hc ▸ (chunkOf_eq h).symm, fun h => h ▸ chunkOf_mod p⟩
      have hexact : (b = chunkOf p ∧ ∃ e, Exact m b e) ↔ b = chunkOf p := by
        refine ⟨fun h => h.1, fun h => ⟨h, page, h ▸ hm, by simpa using hchunk⟩⟩
      rw [headerOf, if_neg hchunk, has_first, decide_eq_true_iff, hfirst, hexact]
      simp [hchunk, or_comm]
  · have hp : b ≠ p := fun h => hc (h ▸ rfl)
    have hb : b ≠ chunkOf p := fun h => hc (by rw [h, chunkOf_eq (chunkOf_mod p)])
    rw [update_of_ne hc, dropMap_chunkOf]
    simp [hp, hb]

theorem exact_mark : Exact (markMap m p) b e ↔ Exact m b e ∧ b ≠ p ∧ b ≠ chunkOf p := by
  unfold Exact markMap
  by_cases hc : b = chunkOf p
  · subst hc
    rw [update_self]
    refine ⟨fun ⟨he, hne⟩ => ?_, fun h => absurd rfl h.2.2⟩
    rw [← some.inj he, show (addBit (headerOf (dropMap m p (chunkOf p))) (p % pagesPerChunk)).ischunk =
      true from headerOf_ischunk _] at hne
    cases hne
  rw [update_of_ne hc]
  by_cases hp : b = p
  · subst hp
    have hmod : b % pagesPerChunk ≠ 0 := fun h => hc (chunkOf_eq h).symm
    rw [dropMap, if_pos hmod]
    simp
  · rw [dropMap_of_ne hp]
    simp [hp, hc]

theorem WellFormed.mark (h : WellFormed m) (p : ℕ) : WellFormed (markMap m p) := by
  have hother : ∀ {b e}, b ≠ chunkOf p → markMap m p b = some e → m b = some e := by
    intro b e hb he
    rw [markMap, update_of_ne hb] at he
    by_cases hp : b = p
    · subst hp
      rw [dropMap, if_pos (fun h0 => hb (chunkOf_eq h0).symm), update_self] at he
      cases he
    · rwa [dropMap_of_ne hp] at he
  refine ⟨fun {b e} he hc => ?_, fun {b e i} he hc hi => ?_, fun he => h.page_bits (exact_mark.1 he).1,
    fun {b e} he hl => ?_⟩
  · by_cases hb : b = chunkOf p
    · exact hb ▸ chunkOf_mod p
    · exact h.chunk_key (hother hb he) hc
  · by_cases hb : b = chunkOf p
    · subst hb
      rw [markMap, update_self, dropMap_chunkOf] at he
      obtain rfl := some.inj he
      rw [has_addBit (mod_lt p), Bool.or_eq_true, decide_eq_true_iff] at hi
      rcases hi with hi | rfl
      · cases hm : m (chunkOf p) with
        | none =>
          rw [hm] at hi
          exact absurd hi
            (by rw [show (headerOf none).words.has i = false from has_zero _]; exact Bool.false_ne_true)
        | some page => ?_
        rw [hm, headerOf] at hi
        split_ifs at hi with hchunk
        · exact h.chunk_bits hm hchunk hi
        · rw [has_first, decide_eq_true_iff] at hi
          exact hi ▸ (by decide)
      · exact mod_lt p
    · exact h.chunk_bits (hother hb he) hc hi
  · obtain ⟨he, hp, hc⟩ := exact_mark.1 he
    rcases lossy_mark.1 hl with hl | hbp | hbc
    · exact h.apart he hl
    · exact hp hbp
    · exact hc hbc.1

theorem Approximates.mark (h : Approximates m S) (hsub : S ⊆ S')
    (hnew : ∀ b off, (b, off) ∈ S' → (b, off) ∈ S ∨ b = p) :
    Approximates (markMap m p) S' := by
  refine ⟨fun {b off} hin => ?_, fun he hr hi => hsub (h.precise (exact_mark.1 he).1 hr hi)⟩
  rw [lossy_mark]
  rcases hnew b off hin with hS | hb
  · rcases h.covers hS with hl | ⟨e, he, hoff⟩
    · exact .inl (.inl hl)
    by_cases hp : b = p
    · exact .inl (.inr (.inl hp))
    · by_cases hc : b = chunkOf p
      · exact .inl (.inr (.inr ⟨hc, e, he⟩))
      · exact .inr ⟨e, exact_mark.2 ⟨he, hp, hc⟩, hoff⟩
  · exact .inl (.inr (.inl hb))

/-- A chunk header that gets the bit for itself. -/
structure HeaderBit (m : PageMap) (p : ℕ) (e e' : PagetableEntry) : Prop where
  entry : m p = some e
  ischunk : e.ischunk = true
  ischunk' : e'.ischunk = true
  has : ∀ i, e'.words.has i = (e.words.has i || decide (i = 0))

theorem HeaderBit.lossy (hw : WellFormed m) (h : HeaderBit m p e e') : Lossy (update m p (some e')) b ↔
    Lossy m b ∨ b = p := by
  have hp := hw.chunk_key h.entry h.ischunk
  unfold Lossy
  by_cases hc : chunkOf b = p
  · have hfirst : b % pagesPerChunk = 0 ↔ b = p :=
      ⟨fun h0 => hc ▸ (chunkOf_eq h0).symm, fun hb => hb ▸ hp⟩
    rw [hc, h.entry]
    simp [h.ischunk, h.ischunk', h.has, hfirst]
  · have hb : b ≠ p := fun hb => hc (by rw [hb, chunkOf_eq hp])
    rw [update_of_ne hc]
    simp [hb]

theorem HeaderBit.exact (h : HeaderBit m p e e') {page : PagetableEntry} :
    Exact (update m p (some e')) b page ↔ Exact m b page := by
  by_cases hb : b = p
  · subst hb
    rw [exact_update_self, Exact, h.entry]
    constructor
    · rintro ⟨he, hne⟩
      rw [← some.inj he, h.ischunk'] at hne
      cases hne
    · rintro ⟨he, hne⟩
      rw [← some.inj he, h.ischunk] at hne
      cases hne
  · exact exact_update_of_ne hb

theorem HeaderBit.wellFormed (hw : WellFormed m) (h : HeaderBit m p e e') :
    WellFormed (update m p (some e')) := by
  refine ⟨fun {b page} he hc => ?_, fun {b page i} he hc hi => ?_, fun he => hw.page_bits (h.exact.1 he),
    fun {b page} he hl => ?_⟩
  · by_cases hb : b = p
    · exact hb ▸ hw.chunk_key h.entry h.ischunk
    · rw [update_of_ne hb] at he
      exact hw.chunk_key he hc
  · by_cases hb : b = p
    · subst hb
      rw [update_self] at he
      rw [← some.inj he, h.has, Bool.or_eq_true, decide_eq_true_iff] at hi
      rcases hi with hi | rfl
      · exact hw.chunk_bits h.entry h.ischunk hi
      · decide
    · rw [update_of_ne hb] at he
      exact hw.chunk_bits he hc hi
  · rcases (h.lossy hw).1 hl with hl | rfl
    · exact hw.apart (h.exact.1 he) hl
    · obtain ⟨he, hne⟩ := h.exact.1 he
      rw [← mem_unique h.entry he, h.ischunk] at hne
      cases hne

theorem HeaderBit.approximates (hw : WellFormed m) (h : HeaderBit m p e e')
    (ha : Approximates m S) (hsub : S ⊆ S') (hnew : ∀ b off, (b, off) ∈ S' → (b, off) ∈ S ∨ b = p) :
    Approximates (update m p (some e')) S' := by
  refine ⟨fun {b off} hin => ?_, fun he hr hi => hsub (ha.precise (h.exact.1 he) hr hi)⟩
  rw [h.lossy hw]
  rcases hnew b off hin with hS | hb
  · rcases ha.covers hS with hl | ⟨page, he, hoff⟩
    · exact .inl (.inl hl)
    · exact .inr ⟨page, h.exact.2 he, hoff⟩
  · exact .inl (.inr hb)

end Pg.Tbm
