import PgRetrofit.Lib.Shuffle

/-! `pg_qsort` of `src/port/qsort.c`. The array is a window of a memory of whole
elements: `a` is the cell number of its first element, pointers are cell
numbers, and `es` is one cell. The comparison is C's `int (*cmp)`. -/

namespace Pg.Qsort

open Shuffle

variable {α : Type*} (cmp : α → α → ℤ)

def med3 (m : Mem α) (a b c : ℕ) : ℕ :=
  if cmp (m a) (m b) < 0 then
    if cmp (m b) (m c) < 0 then b else if cmp (m a) (m c) < 0 then c else a
  else if cmp (m b) (m c) > 0 then b else if cmp (m a) (m c) < 0 then a else c

/-- The inner loop of the insertion sort, with `pl = a + k`. -/
def sink (a : ℕ) : ℕ → Mem α → Mem α
  | 0, m => m
  | k + 1, m =>
    if cmp (m (a + k)) (m (a + k + 1)) > 0 then sink a k (swap m (a + k + 1) (a + k)) else m

def insertionSort (m : Mem α) (a n : ℕ) : Mem α :=
  (List.range (n - 1)).foldl (fun m i => sink cmp a (i + 1) m) m

def presorted (m : Mem α) (a n : ℕ) : Bool :=
  (List.range (n - 1)).all fun i => decide (cmp (m (a + i)) (m (a + i + 1)) ≤ 0)

/-- the element chosen as pivot: the middle, or a median of three or of nine -/
def pivotPos (m : Mem α) (a n : ℕ) : ℕ :=
  let pm := a + n / 2
  if n > 7 then
    let pl := a
    let pn := a + (n - 1)
    if n > 40 then
      let d := n / 8
      med3 cmp m (med3 cmp m pl (pl + d) (pl + 2 * d)) (med3 cmp m (pm - d) pm (pm + d))
        (med3 cmp m (pn - 2 * d) (pn - d) pn)
    else med3 cmp m pl pm pn
  else pm

/-- the memory and the four moving pointers of the partitioning loop -/
structure Part (α : Type*) where
  mem : Mem α
  pa : ℕ
  pb : ℕ
  pc : ℕ
  pd : ℕ

/-- `while (pb <= pc && (r = cmp(pb, a)) <= 0)`, at most `k` rounds -/
def scanUp (a : ℕ) : ℕ → Part α → Part α
  | 0, p => p
  | k + 1, p =>
    if p.pb ≤ p.pc ∧ cmp (p.mem p.pb) (p.mem a) ≤ 0 then
      if cmp (p.mem p.pb) (p.mem a) = 0 then
        scanUp a k { p with mem := swap p.mem p.pa p.pb, pa := p.pa + 1, pb := p.pb + 1 }
      else scanUp a k { p with pb := p.pb + 1 }
    else p

/-- `while (pb <= pc && (r = cmp(pc, a)) >= 0)`, at most `k` rounds -/
def scanDown (a : ℕ) : ℕ → Part α → Part α
  | 0, p => p
  | k + 1, p =>
    if p.pb ≤ p.pc ∧ cmp (p.mem p.pc) (p.mem a) ≥ 0 then
      if cmp (p.mem p.pc) (p.mem a) = 0 then
        scanDown a k { p with mem := swap p.mem p.pc p.pd, pd := p.pd - 1, pc := p.pc - 1 }
      else scanDown a k { p with pc := p.pc - 1 }
    else p

/-- `for (;;)`, at most `k` rounds. A round that does not leave the loop brings
`pb` and `pc` closer, so the array's length bounds all three loops. -/
def partLoop (a n : ℕ) : ℕ → Part α → Part α
  | 0, p => p
  | k + 1, p =>
    let q := scanDown cmp a n (scanUp cmp a n p)
    if q.pb > q.pc then q
    else partLoop a n k { q with mem := swap q.mem q.pb q.pc, pb := q.pb + 1, pc := q.pc - 1 }

def vecswap (m : Mem α) (i j n : ℕ) : Mem α :=
  (List.range n).foldl (fun m k => swap m (i + k) (j + k)) m

/-- The pivot is moved to `a`, the rest is split in four, and the two runs of
elements equal to the pivot are moved from the ends to the middle. -/
def partition (m : Mem α) (a n : ℕ) : Part α :=
  let p := partLoop cmp a n n
    { mem := swap m a (pivotPos cmp m a n), pa := a + 1, pb := a + 1,
      pc := a + (n - 1), pd := a + (n - 1) }
  let pn := a + n
  let d1 := min (p.pa - a) (p.pb - p.pa)
  let m1 := vecswap p.mem a (p.pb - d1) d1
  let d2 := min (p.pd - p.pc) (pn - p.pd - 1)
  { p with mem := vecswap m1 p.pb (pn - d2) d2 }

/-- The body of `pg_qsort` from its label `loop` on, at most `k` rounds of
`goto loop`; `rec` is the nested call on the smaller partition. -/
def qsortLoop (rec : Mem α → ℕ → ℕ → Option (Mem α)) :
    ℕ → Mem α → ℕ → ℕ → Option (Mem α)
  | 0, _, _, _ => none
  | k + 1, m, a, n =>
    if n < 7 then some (insertionSort cmp m a n)
    else if presorted cmp m a n then some m
    else
      let p := partition cmp m a n
      let d1 := p.pb - p.pa
      let d2 := p.pd - p.pc
      if d1 ≤ d2 then
        (if d1 > 1 then rec p.mem a d1 else some p.mem).bind fun m' =>
          if d2 > 1 then qsortLoop rec k m' (a + n - d2) d2 else some m'
      else
        (if d2 > 1 then rec p.mem (a + n - d2) d2 else some p.mem).bind fun m' =>
          if d1 > 1 then qsortLoop rec k m' a d1 else some m'

/-- `pg_qsort` with at most `d` calls nested inside one another. -/
def qsortNested : ℕ → Mem α → ℕ → ℕ → Option (Mem α)
  | 0, m, a, n => qsortLoop cmp (fun _ _ _ => none) (n + 1) m a n
  | d + 1, m, a, n => qsortLoop cmp (qsortNested d) (n + 1) m a n

def pgQsort (m : Mem α) (a n : ℕ) : Option (Mem α) := qsortNested cmp (Nat.log2 n) m a n

end Pg.Qsort
