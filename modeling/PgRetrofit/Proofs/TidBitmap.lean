import PgRetrofit.Proofs.SimpleHashScan
import PgRetrofit.Proofs.TidBitmapIntersect
import PgRetrofit.Proofs.TidBitmapIterate

/-! Runs of calls on bitmaps, against the sets of TIDs that they stand for. -/

namespace Pg.Tbm

open FiniteMap Result List Function

variable {τ ι : Type} {T : ScanTable Fault ℕ PagetableEntry τ ι} {L : T.Lawful} {m : PageMap}
  {tbm : TIDBitmap τ} {S : Set (ℕ × ℕ)}

/-- An iteration that reports `results` is right about the set. -/
structure Faithful (T : ScanTable Fault ℕ PagetableEntry τ ι) (tbm : TIDBitmap τ) (S : Set (ℕ × ℕ))
    (results : List TBMIterateResult) : Prop where
  increasing : (results.map TBMIterateResult.blockno).Pairwise (· < ·)
  /-- no block is stored both exactly and lossily -/
  apart : ∀ b, tbmPageIsLossy T tbm b = true → tbmFindPageentry T tbm b = none
  covered : ∀ b off, (b, off) ∈ S → ∃ r ∈ results, r.blockno = b ∧ (r.ntuples < 0 ∨ off ∈ r.offsets)
  precise : ∀ r ∈ results, 0 ≤ r.ntuples → r.recheck = false →
    ∀ off, off ∈ r.offsets ↔ (r.blockno, off) ∈ S

theorem mem_tbmExtractPageTuple {e : PagetableEntry}
    (hbits : ∀ i, e.words.has i = true → i < maxTuplesPerPage) {off : ℕ} :
    off ∈ tbmExtractPageTuple e ↔ 0 < off ∧ e.words.has (off - 1) = true := by
  have hmax : maxTuplesPerPage ≤ wordsPerPage * bitsPerBitmapword := by decide
  rw [tbmExtractPageTuple, mem_map]
  constructor
  · rintro ⟨i, hi, rfl⟩
    exact ⟨Nat.succ_pos i, ((Words.mem_members (by decide)).1 hi).2⟩
  · rintro ⟨hpos, hset⟩
    refine ⟨off - 1, (Words.mem_members (by decide)).2 ⟨(hbits _ hset).trans_le hmax, hset⟩, ?_⟩
    omega

theorem Represents.faithful (h : Represents L tbm S) :
    ∃ results, iterateAll T tbm = .ok results ∧ Faithful T tbm S results := by
  obtain ⟨m, h⟩ := h
  obtain ⟨results, hrun, hsorted, hmem⟩ := iterateAll_spec h
  refine ⟨results, hrun, hsorted, fun b hl => ?_, fun b off hin => ?_, fun r hr hn hre off => ?_⟩
  · refine Option.eq_none_iff_forall_ne_some.2 fun e he => ?_
    exact h.wellFormed.apart ((tbmFindPageentry_iff h.holds).1 he) ((tbmPageIsLossy_iff h.holds).1 hl)
  · rcases h.approximates.covers hin with hl | ⟨e, he, hpos, hset⟩
    · exact ⟨lossyResult b, (hmem _).2 (.inl ⟨b, hl, rfl⟩), rfl, .inl (show (-1 : ℤ) < 0 by decide)⟩
    · have hoff := (mem_tbmExtractPageTuple fun i => h.wellFormed.page_bits he).2 ⟨hpos, hset⟩
      exact ⟨pageResult (b, e), (hmem _).2 (.inr ⟨b, e, he, rfl⟩), rfl, .inr hoff⟩
  rcases (hmem r).1 hr with ⟨b, -, rfl⟩ | ⟨b, e, he, rfl⟩
  · exact absurd hn (show ¬ (0 : ℤ) ≤ -1 by decide)
  rw [show (pageResult (b, e)).offsets = tbmExtractPageTuple e from rfl,
    mem_tbmExtractPageTuple fun i => h.wellFormed.page_bits he]
  constructor
  · rintro ⟨hpos, hset⟩
    have hin := h.approximates.precise he hre hset
    rwa [Nat.sub_add_cancel hpos] at hin
  intro hin
  rcases h.approximates.covers hin with hl | ⟨e', he', hoff⟩
  · exact absurd hl (h.wellFormed.apart he)
  · obtain rfl : e' = e := Option.mem_unique he'.1 he.1
    exact hoff

def exactCall (sets : ℕ → Set (ℕ × ℕ)) : Op → Set (ℕ × ℕ)
  | .addTuples i tids _ => sets i ∪ {x | x ∈ tids.map tidOf}
  | .addPage i pageno => sets i ∪ pageTids pageno
  | .union i j _ => sets i ∪ sets j
  | .intersect i j _ => sets i ∩ sets j

def exactRun (ops : List Op) : ℕ → Set (ℕ × ℕ) :=
  ops.foldl (fun sets op => Function.update sets op.target (exactCall sets op)) fun _ => ∅

def Op.tids : Op → List ItemPointerData
  | .addTuples _ tids _ => tids
  | _ => []

theorem tbmCreate_represents (L : T.Lawful) (maxbytes : ℤ) : Represents L (tbmCreate maxbytes) ∅ := by
  refine ⟨fun _ => none, ⟨rfl, ?_, ?_⟩, wellFormed_none, approximates_none⟩
  · exact ⟨⟨0, rfl, counts_none _⟩, ⟨0, rfl, counts_none _⟩, ⟨0, rfl, counts_none _⟩⟩
  · exact le_max_of_le_right (by decide)

/-- the entries that a call can add to the table of its bitmap -/
def adds (bitmaps : ℕ → TIDBitmap τ) : Op → ℤ
  | .addTuples _ tids _ => tids.length
  | .addPage _ _ => 1
  | .union _ j _ => (bitmaps j).nentries
  | .intersect _ _ _ => 0

theorem call_ends {bitmaps : ℕ → TIDBitmap τ} {sets : ℕ → Set (ℕ × ℕ)}
    (h : ∀ i, Represents L (bitmaps i) (sets i)) (op : Op) (hvalid : ∀ tid ∈ op.tids, ValidTid tid) :
    Ends (AddFails L ((bitmaps op.target).nentries + adds bitmaps op) op.tids)
      (fun tbm => Represents L tbm (exactCall sets op)) (call T bitmaps op) := by
  cases op with
  | addTuples i tids recheck => exact tbmAddTuples_ends (h i) hvalid
  | addPage i pageno => exact (tbmAddPage_ends (h i) pageno).mono (fun _ => .inl) fun _ => id
  | union i j => exact (tbmUnion_ends (h i) (h j)).mono (fun _ => .inl) fun _ => id
  | intersect i j =>
    obtain ⟨tbm, hrun, hrep⟩ := tbmIntersect_spec (h i) (h j)
    rw [call, hrun]
    exact hrep

section Run

variable {maxbytes : ℕ → ℤ} {ops : List Op} (hvalid : ∀ tid ∈ ops.flatMap Op.tids, ValidTid tid)
include hvalid

/-- Whatever becomes lossy on the way, the bitmaps stand for the exact sets. -/
theorem run_ok_represents {bitmaps : ℕ → TIDBitmap τ} (L : T.Lawful)
    (hrun : run T maxbytes ops = .ok bitmaps) :
    ∀ i, Represents L (bitmaps i) (exactRun ops i) := by
  let P (done : List Op) (bitmaps : ℕ → TIDBitmap τ) : Prop :=
    (∀ tid ∈ done.flatMap Op.tids, ValidTid tid) → ∀ i, Represents L (bitmaps i) (exactRun done i)
  have hinit : P [] fun i => tbmCreate (maxbytes i) := fun _ i => tbmCreate_represents L (maxbytes i)
  refine foldlM_inv (P := P) (fun {done bitmaps op bitmaps'} h hstep hvalid i => ?_)
    ops hinit hrun hvalid
  rw [flatMap_append, flatMap_singleton, forall_mem_append] at hvalid
  obtain ⟨tbm, hcall, hupdate⟩ := bind_eq_ok.1 hstep
  cases hupdate
  have hends := call_ends (h hvalid.1) op hvalid.2
  rw [hcall] at hends
  rw [exactRun, foldl_append, foldl_cons, foldl_nil]
  by_cases hi : i = op.target
  · subst hi
    rw [update_self, update_self]
    exact hends
  · rw [update_of_ne hi, update_of_ne hi]
    exact h hvalid.1 i

/-- An offset is out of range, or the run has come to a call with which a table may become full. -/
def Stopped (L : T.Lawful) (maxbytes : ℕ → ℤ) (ops : List Op) (e : Fault) : Prop :=
  ∃ done op rest bitmaps, ops = done ++ op :: rest ∧ run T maxbytes done = .ok bitmaps ∧
    AddFails L ((bitmaps op.target).nentries + adds bitmaps op) op.tids e

end Run

/-- `pagetable_create(tbm->mcxt, 128, tbm)` and the other functions of the table -/
def pagetable : ScanTable Fault ℕ PagetableEntry (SimpleHash ℕ PagetableEntry) SimpleHash.ShIterator :=
  SimpleHash.scanTable pagetableType 128

def pagetableLawful : pagetable.Lawful := SimpleHash.lawful pagetableType 128 (by decide)

/-- A tuple of block 1 in one bitmap, the whole block in another, and their intersection. -/
def sampleOps : List Op := [.addTuples 0 [⟨1, 3⟩] false, .addPage 1 1, .intersect 0 1 Nat.zero_ne_one]

/-- A TID of the block that has no number. -/
def unnumberedOps : List Op := [.addTuples 0 [⟨0xFFFFFFFF, 1⟩] false]

end Pg.Tbm
