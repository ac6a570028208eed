import PgRetrofit.Lib.ScanTable
import PgRetrofit.Lib.WordSet
import PgRetrofit.Spec.Qsort
import PgRetrofit.Spec.SimpleHash

/-! The bitmaps of `nodes/tidbitmap.c`. The hash table behind them is any `ScanTable`; its entries
have the block number as key. A pointer to an entry is the block number of the entry. -/

namespace Pg.Tbm

def maxTuplesPerPage : ℕ := (blcksz - sizeOfPageHeaderData) / (maxalign 23 + 4)

def pagesPerChunk : ℕ := blcksz / 32

def bitsPerBitmapword : ℕ := 64

def wordsPerPage : ℕ := (maxTuplesPerPage - 1) / bitsPerBitmapword + 1

def wordsPerChunk : ℕ := (pagesPerChunk - 1) / bitsPerBitmapword + 1

def invalidBlockNumber : ℕ := 0xFFFFFFFF

def intMax : ℤ := 2 ^ 31 - 1

/-- `PagetableEntry` without its key -/
structure PagetableEntry where
  ischunk : Bool
  recheck : Bool
  words : Words bitsPerBitmapword (max wordsPerPage wordsPerChunk)
deriving DecidableEq

/-- `MemSet(page, 0, sizeof(PagetableEntry))` -/
def emptyPage : PagetableEntry := ⟨false, false, .zero⟩

def emptyChunk : PagetableEntry := { emptyPage with ischunk := true }

def murmurhash32 (data : UInt32) : UInt32 :=
  let h := data
  let h := h ^^^ (h >>> 16)
  let h := h * 0x85ebca6b
  let h := h ^^^ (h >>> 13)
  let h := h * 0xc2b2ae35
  h ^^^ (h >>> 16)

/-- the parameters of `pagetable_hash` -/
def pagetableType : SimpleHashType ℕ := ⟨fun blockno => murmurhash32 blockno.toUInt32, 48, by decide⟩

/-- `TBMStatus`, with the field that is valid in it: `entry1` or `pagetable` -/
inductive Storage (τ : Type)
  | empty
  | onePage (blockno : ℕ) (entry1 : PagetableEntry)
  | hash (pagetable : τ)

structure TIDBitmap (τ : Type) where
  storage : Storage τ
  nentries : ℤ
  maxentries : ℤ
  npages : ℤ
  nchunks : ℤ
  lossifyStart : ℕ

/-- `sizeof(PagetableEntry)` and two pointers -/
def entryBytes : ℤ := 48 + 8 + 8

def tbmCalculateEntries (maxbytes : ℤ) : ℤ := max (min (maxbytes.tdiv entryBytes) (intMax - 1)) 16

def tbmCreate {τ : Type} (maxbytes : ℤ) : TIDBitmap τ :=
  ⟨.empty, 0, tbmCalculateEntries maxbytes, 0, 0, 0⟩

variable {τ ι : Type} (T : ScanTable Fault ℕ PagetableEntry τ ι)

/-- `tbm_create_pagetable`: the new table, with `entry1` in it if that is valid -/
def tbmCreatePagetable (tbm : TIDBitmap τ) : Except Fault τ := do
  let pagetable ← T.create
  match tbm.storage with
  | .onePage blockno entry1 =>
    let (pagetable, _) ← T.insert pagetable blockno entry1
    .ok pagetable
  | _ => .ok pagetable

def tbmFindPageentry (tbm : TIDBitmap τ) (pageno : ℕ) : Option PagetableEntry :=
  if tbm.nentries = 0 then none
  else
    match tbm.storage with
    | .empty => none
    | .onePage blockno page => if blockno ≠ pageno then none else some page
    | .hash pagetable =>
      match T.lookup pagetable pageno with
      | none => none
      | some page => if page.ischunk then none else some page

def tbmPageIsLossy (tbm : TIDBitmap τ) (pageno : ℕ) : Bool :=
  if tbm.nchunks = 0 then false
  else
    match tbm.storage with
    | .hash pagetable =>
      let bitno := pageno % pagesPerChunk
      match T.lookup pagetable (pageno - bitno) with
      | none => false
      | some page => page.ischunk && page.words.test bitno
    | _ => false

def insertPage (tbm : TIDBitmap τ) (pagetable : τ) (pageno : ℕ) : Except Fault (TIDBitmap τ) := do
  let (pagetable, found) ← T.insert pagetable pageno emptyPage
  if found then .ok { tbm with storage := .hash pagetable }
  else
    .ok { tbm with storage := .hash pagetable, nentries := tbm.nentries + 1, npages := tbm.npages + 1 }

/-- `tbm_get_pageentry`; the entry it returns is the one for `pageno` -/
def tbmGetPageentry (tbm : TIDBitmap τ) (pageno : ℕ) : Except Fault (TIDBitmap τ) :=
  match tbm.storage with
  | .empty => .ok { tbm with
      storage := .onePage pageno emptyPage, nentries := tbm.nentries + 1, npages := tbm.npages + 1 }
  | .onePage blockno _ => if blockno = pageno then .ok tbm else do
      insertPage T tbm (← tbmCreatePagetable T tbm) pageno
  | .hash pagetable => insertPage T tbm pagetable pageno

def pageAt (tbm : TIDBitmap τ) (page : ℕ) : Except Fault PagetableEntry :=
  match tbm.storage with
  | .empty => .error .outOfBounds
  | .onePage blockno entry1 => if blockno = page then .ok entry1 else .error .outOfBounds
  | .hash pagetable =>
    match T.lookup pagetable page with
    | some entry => .ok entry
    | none => .error .outOfBounds

def setPage (tbm : TIDBitmap τ) (page : ℕ) (entry : PagetableEntry) : TIDBitmap τ :=
  match tbm.storage with
  | .empty => tbm
  | .onePage blockno _ => { tbm with storage := .onePage blockno entry }
  | .hash pagetable => { tbm with storage := .hash (T.store pagetable page entry) }

/-- The table, which is created if there is none. -/
def forceHash (tbm : TIDBitmap τ) : Except Fault τ :=
  match tbm.storage with
  | .hash pagetable => .ok pagetable
  | _ => tbmCreatePagetable T tbm

/-- Remove any extant non-lossy entry for the page, unless it is its own chunk header. -/
def dropPage (tbm : TIDBitmap τ) (pagetable : τ) (pageno : ℕ) : TIDBitmap τ × τ :=
  if pageno % pagesPerChunk ≠ 0 then
    let (pagetable, present) := T.delete pagetable pageno
    if present then ({ tbm with nentries := tbm.nentries - 1, npages := tbm.npages - 1 }, pagetable)
    else (tbm, pagetable)
  else (tbm, pagetable)

/-- The chunk header: new, formerly non-lossy, or a chunk already. -/
def chunkHeader (tbm : TIDBitmap τ) (found : Bool) (page : PagetableEntry) :
    TIDBitmap τ × PagetableEntry :=
  if !found then ({ tbm with nentries := tbm.nentries + 1, nchunks := tbm.nchunks + 1 }, page)
  else if !page.ischunk then
    ({ tbm with nchunks := tbm.nchunks + 1, npages := tbm.npages - 1 },
      { emptyChunk with words := Words.zero.modify 0 fun _ => 1 })
  else (tbm, page)

def tbmMarkPageLossy (tbm : TIDBitmap τ) (pageno : ℕ) : Except Fault (TIDBitmap τ) := do
  let pagetable ← forceHash T tbm
  let bitno := pageno % pagesPerChunk
  let chunkPageno := pageno - bitno
  let (tbm, pagetable) := dropPage T tbm pagetable pageno
  let (pagetable, found) ← T.insert pagetable chunkPageno emptyChunk
  let tbm := { tbm with storage := .hash pagetable }
  let (tbm, page) := chunkHeader tbm found (← pageAt T tbm chunkPageno)
  .ok (setPage T tbm chunkPageno { page with words := page.words.add bitno })

def lossifyScan (pagetable : τ) : ℕ → ι → Except Fault (Option (ℕ × ι))
  | 0, _ => .error .diverges
  | fuel + 1, i =>
    match T.iterate pagetable i with
    | none => .ok none
    | some (blockno, page, i) =>
      if page.ischunk then lossifyScan pagetable fuel i
      else if blockno % pagesPerChunk = 0 then lossifyScan pagetable fuel i
      else .ok (some (blockno, i))

/-- The loop of `tbm_lossify`; every round converts an exact page. -/
def lossifyLoop : ℕ → TIDBitmap τ → ι → Except Fault (TIDBitmap τ)
  | 0, _, _ => .error .diverges
  | fuel + 1, tbm, i =>
    match tbm.storage with
    | .hash pagetable => do
      match ← lossifyScan T pagetable (T.room pagetable i + 1) i with
      | none => .ok tbm
      | some (blockno, i) =>
        let tbm ← tbmMarkPageLossy T tbm blockno
        if tbm.nentries ≤ tbm.maxentries.tdiv 2 then .ok { tbm with lossifyStart := T.cur i }
        else lossifyLoop fuel tbm i
    | _ => .error .outOfBounds

def tbmLossify (tbm : TIDBitmap τ) : Except Fault (TIDBitmap τ) :=
  match tbm.storage with
  | .hash pagetable => do
    let tbm ← lossifyLoop T (tbm.npages.toNat + 1) tbm (T.startAt pagetable tbm.lossifyStart)
    if tbm.nentries > tbm.maxentries.tdiv 2 then
      .ok { tbm with maxentries := min tbm.nentries ((intMax - 1).tdiv 2) * 2 }
    else .ok tbm
  | _ => .error .outOfBounds

/-- `if (tbm->nentries > tbm->maxentries) tbm_lossify(tbm);` -/
def checkLimit (tbm : TIDBitmap τ) : Except Fault (TIDBitmap τ) :=
  if tbm.nentries > tbm.maxentries then tbmLossify T tbm else .ok tbm

/-- The loop of `tbm_add_tuples`, with the variables `currblk` and `page`. -/
structure AddState (τ : Type) where
  tbm : TIDBitmap τ
  currblk : ℕ
  page : Option ℕ

def findTarget (s : AddState τ) (blk : ℕ) : Except Fault (AddState τ) :=
  if blk ≠ s.currblk then
    if tbmPageIsLossy T s.tbm blk then .ok ⟨s.tbm, blk, none⟩
    else do .ok ⟨← tbmGetPageentry T s.tbm blk, blk, some blk⟩
  else .ok s

def setTuple (page : PagetableEntry) (off : ℕ) (recheck : Bool) : PagetableEntry :=
  { page with
    words := if page.ischunk then page.words.add 0 else page.words.add (off - 1)
    recheck := page.recheck || recheck }

def addTuple (recheck : Bool) (s : AddState τ) (tid : ItemPointerData) : Except Fault (AddState τ) := do
  let off := tid.ipPosid.toNat
  if off < 1 ∨ off > maxTuplesPerPage then .error (.elog "tuple offset out of range: %u")
  else
    let s ← findTarget T s tid.ipBlkid.toNat
    match s.page with
    | none => .ok s
    | some p =>
      let page ← pageAt T s.tbm p
      let tbm := setPage T s.tbm p (setTuple page off recheck)
      if tbm.nentries > tbm.maxentries then do .ok ⟨← tbmLossify T tbm, invalidBlockNumber, s.page⟩
      else .ok { s with tbm := tbm }

def tbmAddTuples (tbm : TIDBitmap τ) (tids : List ItemPointerData)
    (recheck : Bool) : Except Fault (TIDBitmap τ) := do
  let s ← tids.foldlM (addTuple T recheck) ⟨tbm, invalidBlockNumber, none⟩
  .ok s.tbm

def tbmAddPage (tbm : TIDBitmap τ) (pageno : ℕ) : Except Fault (TIDBitmap τ) := do
  checkLimit T (← tbmMarkPageLossy T tbm pageno)

def mergePage (apage bpage : PagetableEntry) : PagetableEntry :=
  if apage.ischunk then { apage with words := apage.words.add 0 }
  else
    { apage with
      words := apage.words.mapWords wordsPerPage fun k w => w ||| bpage.words.word k
      recheck := apage.recheck || bpage.recheck }

def tbmUnionPage (a : TIDBitmap τ) (bpage : ℕ × PagetableEntry) : Except Fault (TIDBitmap τ) :=
  if bpage.2.ischunk then do
    checkLimit T (← (bpage.2.words.members wordsPerChunk).foldlM
      (fun a bit => tbmMarkPageLossy T a (bpage.1 + bit)) a)
  else if tbmPageIsLossy T a bpage.1 then .ok a
  else do
    let a ← tbmGetPageentry T a bpage.1
    let apage ← pageAt T a bpage.1
    checkLimit T (setPage T a bpage.1 (mergePage apage bpage.2))

def tbmUnion (a b : TIDBitmap τ) : Except Fault (TIDBitmap τ) :=
  if b.nentries = 0 then .ok a
  else
    match b.storage with
    | .empty => .ok a
    | .onePage blockno entry1 => tbmUnionPage T a (blockno, entry1)
    | .hash pagetable => (T.entries pagetable).foldlM (tbmUnionPage T) a

/-- `tbm_intersect_page`: the entry afterwards, and whether it is empty and should be deleted -/
def tbmIntersectPage (b : TIDBitmap τ) (blockno : ℕ) (apage : PagetableEntry) : PagetableEntry × Bool :=
  if apage.ischunk then
    let words := apage.words.mapWords wordsPerChunk fun k w =>
      Words.keepBits (fun bit =>
        let pg := blockno + k * bitsPerBitmapword + bit
        tbmPageIsLossy T b pg || (tbmFindPageentry T b pg).isSome) w
    ({ apage with words := words }, words.allZero wordsPerChunk)
  else if tbmPageIsLossy T b blockno then ({ apage with recheck := true }, false)
  else
    match tbmFindPageentry T b blockno with
    | some bpage =>
      let words := apage.words.mapWords wordsPerPage fun k w => w &&& bpage.words.word k
      ({ apage with words := words, recheck := apage.recheck || bpage.recheck },
        words.allZero wordsPerPage)
    | none => (apage, true)

def countRemoved (a : TIDBitmap τ) (apage : PagetableEntry) : TIDBitmap τ :=
  if apage.ischunk then { a with nchunks := a.nchunks - 1, nentries := a.nentries - 1 }
  else { a with npages := a.npages - 1, nentries := a.nentries - 1 }

def intersectLoop (b : TIDBitmap τ) : ℕ → TIDBitmap τ → τ → ι → Except Fault (TIDBitmap τ)
  | 0, _, _, _ => .error .diverges
  | fuel + 1, a, pagetable, i =>
    match T.iterate pagetable i with
    | none => .ok { a with storage := .hash pagetable }
    | some (blockno, apage, i) =>
      let (apage, candelete) := tbmIntersectPage T b blockno apage
      let pagetable := T.store pagetable blockno apage
      if candelete then
        let (pagetable, present) := T.delete pagetable blockno
        if present then intersectLoop b fuel (countRemoved a apage) pagetable i
        else .error (.elog "hash table corrupted")
      else intersectLoop b fuel a pagetable i

def tbmIntersect (a b : TIDBitmap τ) : Except Fault (TIDBitmap τ) :=
  if a.nentries = 0 then .ok a
  else
    match a.storage with
    | .empty => .ok a
    | .onePage blockno entry1 =>
      let (apage, candelete) := tbmIntersectPage T b blockno entry1
      if candelete then
        .ok { a with storage := .empty, npages := a.npages - 1, nentries := a.nentries - 1 }
      else .ok { a with storage := .onePage blockno apage }
    | .hash pagetable =>
      intersectLoop T b (T.room pagetable (T.start pagetable) + 1) a pagetable (T.start pagetable)

/-- `TBMIterateResult`; `ntuples` is -1 for a lossy page. -/
structure TBMIterateResult where
  blockno : ℕ
  ntuples : ℤ
  recheck : Bool
  offsets : List ℕ
deriving DecidableEq

structure TBMIterator where
  spages : List (ℕ × PagetableEntry)
  schunks : List (ℕ × PagetableEntry)
  spageptr : ℕ
  schunkptr : ℕ
  schunkbit : ℕ

def tbmComparator (left right : ℕ × PagetableEntry) :
    ℤ := if left.1 < right.1 then -1 else if left.1 > right.1 then 1 else 0

/-- `if (n > 1) qsort(pages, n, sizeof(PagetableEntry *), tbm_comparator);` -/
def sortPages (pages : List (ℕ × PagetableEntry)) : Except Fault (List (ℕ × PagetableEntry)) :=
  if pages.length > 1 then
    match Qsort.pgQsort tbmComparator ⟨fun i => pages.getD i (0, emptyPage)⟩ 0 pages.length with
    | some m => .ok (Shuffle.window m 0 pages.length)
    | none => .error .diverges
  else .ok pages

def tbmBeginIterate (tbm : TIDBitmap τ) : Except Fault TBMIterator :=
  match tbm.storage with
  | .hash pagetable => do
    let spages ← sortPages ((T.entries pagetable).filter fun page => !page.2.ischunk)
    let schunks ← sortPages ((T.entries pagetable).filter fun page => page.2.ischunk)
    .ok ⟨spages, schunks, 0, 0, 0⟩
  | _ => .ok ⟨[], [], 0, 0, 0⟩

def tbmExtractPageTuple (page : PagetableEntry) : List ℕ := (page.words.members wordsPerPage).map (· + 1)

/-- `tbm_advance_schunkbit`, in at most `k` rounds -/
def tbmAdvanceSchunkbit (chunk : PagetableEntry) : ℕ → ℕ → ℕ
  | 0, schunkbit => schunkbit
  | k + 1, schunkbit =>
    if schunkbit < pagesPerChunk then
      if chunk.words.test schunkbit then schunkbit else tbmAdvanceSchunkbit chunk k (schunkbit + 1)
    else schunkbit

def advanceChunks (tbm : TIDBitmap τ) : ℕ → TBMIterator → Except Fault TBMIterator
  | 0, _ => .error .diverges
  | fuel + 1, it =>
    if (it.schunkptr : ℤ) < tbm.nchunks then
      match it.schunks[it.schunkptr]? with
      | none => .error .outOfBounds
      | some chunk =>
        let schunkbit := tbmAdvanceSchunkbit chunk.2 pagesPerChunk it.schunkbit
        if schunkbit < pagesPerChunk then .ok { it with schunkbit := schunkbit }
        else advanceChunks tbm fuel { it with schunkptr := it.schunkptr + 1, schunkbit := 0 }
    else .ok it

def nextPage (tbm : TIDBitmap τ) (it : TBMIterator) : Except Fault (Option (ℕ × PagetableEntry)) :=
  if (it.spageptr : ℤ) < tbm.npages then
    match tbm.storage with
    | .onePage blockno entry1 => .ok (some (blockno, entry1))
    | _ =>
      match it.spages[it.spageptr]? with
      | some page => .ok (some page)
      | none => .error .outOfBounds
  else .ok none

def nextLossy (tbm : TIDBitmap τ) (it : TBMIterator) : Except Fault (Option ℕ) :=
  if (it.schunkptr : ℤ) < tbm.nchunks then
    match it.schunks[it.schunkptr]? with
    | some chunk => .ok (some (chunk.1 + it.schunkbit))
    | none => .error .outOfBounds
  else .ok none

def lossyResult (blockno : ℕ) : TBMIterateResult := ⟨blockno, -1, true, []⟩

def pageResult (page : ℕ × PagetableEntry) : TBMIterateResult :=
  ⟨page.1, (tbmExtractPageTuple page.2).length, page.2.recheck, tbmExtractPageTuple page.2⟩

/-- If both chunk and per-page data remain, must output the numerically earlier page. -/
def tbmIterate (tbm : TIDBitmap τ) (it : TBMIterator) :
    Except Fault (Option (TBMIterateResult × TBMIterator)) := do
  let it ← advanceChunks tbm (tbm.nchunks.toNat + 1) it
  match ← nextLossy tbm it, ← nextPage tbm it with
  | some chunkBlockno, none =>
    .ok (some (lossyResult chunkBlockno, { it with schunkbit := it.schunkbit + 1 }))
  | some chunkBlockno, some page =>
    if chunkBlockno < page.1 then
      .ok (some (lossyResult chunkBlockno, { it with schunkbit := it.schunkbit + 1 }))
    else .ok (some (pageResult page, { it with spageptr := it.spageptr + 1 }))
  | none, some page => .ok (some (pageResult page, { it with spageptr := it.spageptr + 1 }))
  | none, none => .ok none

def iterateLoop (tbm : TIDBitmap τ) : ℕ → TBMIterator → Except Fault (List TBMIterateResult)
  | 0, _ => .error .diverges
  | fuel + 1, it => do
    match ← tbmIterate tbm it with
    | none => .ok []
    | some (output, it) => .ok (output :: (← iterateLoop tbm fuel it))

def iterateAll (tbm : TIDBitmap τ) : Except Fault (List TBMIterateResult) := do
  iterateLoop tbm (tbm.npages.toNat + tbm.nchunks.toNat * pagesPerChunk + 1) (← tbmBeginIterate T tbm)

/-- Calls on bitmaps that are named by numbers. "a is modified in-place, b is not changed": they are
two. -/
inductive Op
  | addTuples (i : ℕ) (tids : List ItemPointerData) (recheck : Bool)
  | addPage (i : ℕ) (pageno : ℕ)
  | union (i j : ℕ) (hne : i ≠ j)
  | intersect (i j : ℕ) (hne : i ≠ j)

def Op.target : Op → ℕ
  | .addTuples i _ _ => i
  | .addPage i _ => i
  | .union i _ _ => i
  | .intersect i _ _ => i

/-- The new value of the bitmap that a call modifies. -/
def call (bitmaps : ℕ → TIDBitmap τ) : Op → Except Fault (TIDBitmap τ)
  | .addTuples i tids recheck => tbmAddTuples T (bitmaps i) tids recheck
  | .addPage i pageno => tbmAddPage T (bitmaps i) pageno
  | .union i j _ => tbmUnion T (bitmaps i) (bitmaps j)
  | .intersect i j _ => tbmIntersect T (bitmaps i) (bitmaps j)

def step (bitmaps : ℕ → TIDBitmap τ) (op : Op) : Except Fault (ℕ → TIDBitmap τ) := do
  .ok (Function.update bitmaps op.target (← call T bitmaps op))

def run (maxbytes : ℕ → ℤ) (ops : List Op) : Except Fault (ℕ → TIDBitmap τ) :=
  ops.foldlM (step T) fun i => tbmCreate (maxbytes i)

end Pg.Tbm
