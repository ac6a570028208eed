import PgRetrofit.Spec.Backend
import PgRetrofit.Spec.Qsort

/-! The `intset` type of `src/tutorial/intset.c`: an intset is a varlena holding a
cardinality and an array of 32-bit elements meant to be sorted. Modelled here are
its allocation, its text input, its membership and inclusion tests and its four set operations. -/

namespace Pg

/-- A finished intset: `VARSIZE(iset)`, `ISET_CARDI(iset)` and the array that
follows the two header words. `VARSIZE` is a 30-bit field. -/
structure Intset where
  varsize : BitVec 30
  cardi : UInt32
  arr : List UInt32
deriving DecidableEq

namespace Intset

/-- What every operator assumes of its arguments: an increasing array, and a
header that says how long it is. -/
structure Canonical (s : Intset) : Prop where
  sorted : s.arr.Pairwise (· < ·)
  cardi_eq : s.cardi.toNat = s.arr.length
  varsize_eq : s.varsize.toNat = 8 + 4 * s.arr.length

def set (s : Intset) : Finset UInt32 := s.arr.toFinset

/-- An intset under construction; a slot holds nothing until it is written. -/
structure Raw where
  varsize : BitVec 30
  cardi : UInt32
  slots : List (Option UInt32)

/-- `alloc_intset`. The size is computed in a `uint32_t`, so for a large `cardi`
it may be too small for the array, or even for the header. -/
def allocIntset (cardi : UInt32) : Except Fault Raw :=
  let totalSize := (8 + 4 * cardi.toNat) % 2 ^ 32
  (palloc totalSize).bind fun _ =>
    if totalSize < 8 then .error .outOfBounds
    else .ok ⟨BitVec.ofNat 30 totalSize, cardi, List.replicate ((totalSize - 8) / 4) none⟩

def Raw.write (r : Raw) (i : ℕ) (x : UInt32) : Except Fault Raw :=
  if i < r.slots.length then .ok { r with slots := r.slots.set i (some x) } else .error .outOfBounds

def Raw.copy (r : Raw) (xs : List UInt32) : Except Fault Raw :=
  if xs.length ≤ r.slots.length then
    .ok { r with slots := xs.map some ++ r.slots.drop xs.length }
  else .error .outOfBounds

/-- Hand the intset to the caller; every slot must have been written. -/
def Raw.finish (r : Raw) : Except Fault Intset :=
  match r.slots.mapM id with
  | some arr => .ok ⟨r.varsize, r.cardi, arr⟩
  | none => .error .unwritten

/-- The elements the loops read: the first `ISET_CARDI` entries of the array. -/
def elems (s : Intset) : Except Fault (List UInt32) :=
  if s.cardi.toNat ≤ s.arr.length then .ok (s.arr.take s.cardi.toNat) else .error .outOfBounds

def cloneIntset (src : Intset) : Except Fault Intset :=
  (allocIntset src.cardi).bind fun r => src.elems.bind fun xs => (r.copy xs).bind Raw.finish

/-- `alloc_intset(0)`, as the operators return it -/
def emptyIntset : Except Fault Intset := (allocIntset 0).bind Raw.finish

/-- `eintset_cmp` subtracts unsigned values and returns the difference as an `int`. -/
def eintsetCmp (a b : UInt32) : ℤ := (a - b).toBitVec.toInt

inductive BracketState
  | none | left | leftAndRight
deriving DecidableEq

inductive NumberState
  | notExpectingNum | expectingNum | insideNum
deriving DecidableEq

/-- the scanner's variables; `nelements` is the length of `buf` -/
structure Scan where
  bracket : BracketState
  number : NumberState
  lastNum : UInt32
  buf : List UInt32
deriving DecidableEq

def Scan.init : Scan := ⟨.none, .notExpectingNum, 0, []⟩

/-- the six characters of the scanner's first case -/
def isWhitespace (c : UInt8) : Bool := c == 32 || c == 9 || c == 13 || c == 10 || c == 11 || c == 12

def isDigit (c : UInt8) : Bool := 48 ≤ c && c ≤ 57

def lbrace : UInt8 := 123
def rbrace : UInt8 := 125
def comma : UInt8 := 44

/-- `buf[nelements++] = last_num`, in a buffer of `slots` elements -/
def Scan.push (s : Scan) (slots : ℕ) : Except Fault Scan :=
  if s.buf.length < slots then .ok { s with buf := s.buf ++ [s.lastNum] } else .error .outOfBounds

def syntaxError (str : CString) : Fault := .invalidText "intset" str

def scanStep (str : CString) (slots : ℕ) (s : Scan) (c : UInt8) : Except Fault Scan :=
  if isWhitespace c then
    if s.number = .insideNum then
      (s.push slots).bind fun s => .ok { s with number := .notExpectingNum }
    else .ok s
  else if c = lbrace then
    if s.bracket = .none then .ok { s with bracket := .left, number := .expectingNum }
    else .error (syntaxError str)
  else if c = rbrace then
    if s.bracket = .left then
      (if s.number = .insideNum then s.push slots else .ok s).bind fun s =>
        -- a comma was read last, unless nothing was
        if s.number = .expectingNum ∧ s.buf.length ≠ 0 then .error (syntaxError str)
        else .ok { s with bracket := .leftAndRight, number := .notExpectingNum }
    else .error (syntaxError str)
  else if s.bracket ≠ .left then .error (syntaxError str)
  else if isDigit c then
    if s.number = .notExpectingNum then .error (syntaxError str)
    else
      let lastNum := if s.number = .expectingNum then 0 else s.lastNum
      .ok { s with number := .insideNum, lastNum := lastNum * 10 + (c - 48).toUInt32 }
  else if c = comma then
    if s.number = .insideNum ∨ s.number = .notExpectingNum then
      (s.push slots).bind fun s => .ok { s with number := .expectingNum }
    else .error (syntaxError str)
  else .error (syntaxError str)

def scan (str : CString) (slots : ℕ) : Except Fault Scan :=
  (str.bytes.foldlM (scanStep str slots) Scan.init).bind fun s =>
    if s.bracket ≠ .leftAndRight ∨ s.number ≠ .notExpectingNum then .error (syntaxError str) else .ok s

/-- `nreserve_slot`, one more than the number of commas, in a `uint32_t` -/
def nreserveSlot (str : CString) : ℕ := (1 + str.bytes.count comma) % 2 ^ 32

/-- The deduplicating loop, run in place with `k` rounds to go. -/
def dedupLoop : ℕ → Mem UInt32 → ℕ → ℕ → UInt32 → Mem UInt32 × ℕ
  | 0, buf, _, cardi, _ => (buf, cardi)
  | k + 1, buf, i, cardi, last =>
    if buf.get i = last then dedupLoop k buf (i + 1) cardi last
    else
      let buf' := buf.set cardi (buf.get i)
      dedupLoop k buf' (i + 1) (cardi + 1) (buf'.get i)

def intsetIn (str : CString) : Except Fault Intset :=
  (palloc (nreserveSlot str * 4)).bind fun _ =>
    (scan str (nreserveSlot str)).bind fun s =>
      let nelements := s.buf.length
      if nelements = 0 then emptyIntset
      else
        match Qsort.pgQsort eintsetCmp ⟨fun i => s.buf.getD i 0⟩ 0 nelements with
        | none => .error .diverges
        | some buf =>
          let (buf, cardi) := dedupLoop (nelements - 1) buf 1 1 (buf.get 0)
          (allocIntset cardi.toUInt32).bind fun r =>
            (r.copy (Shuffle.window buf 0 cardi)).bind Raw.finish

/-- four bytes of a message, the most significant first -/
def msgWord (b3 b2 b1 b0 : UInt8) : UInt32 :=
  (b3.toNat * 2 ^ 24 + b2.toNat * 2 ^ 16 + b1.toNat * 2 ^ 8 + b0.toNat).toUInt32

/-- `pq_getmsgint(buf, 4)` -/
def pqGetmsgint : List UInt8 → Except Fault (UInt32 × List UInt8)
  | b3 :: b2 :: b1 :: b0 :: rest => .ok (msgWord b3 b2 b1 b0, rest)
  | _ => .error (.elog "insufficient data left in message")

/-- Rounds `i` on, with as many to go; the order of the elements is taken on trust. -/
def recvLoop : ℕ → ℕ → List UInt8 → Raw → Except Fault Raw
  | 0, _, _, r => .ok r
  | n + 1, i, buf, r =>
    (pqGetmsgint buf).bind fun (x, buf) => (r.write i x).bind fun r => recvLoop n (i + 1) buf r

/-- `StringInfoData`: the address in its first field, and the bytes left to read -/
structure StringInfo where
  data : ℕ
  unread : List UInt8

/-- `PG_DETOAST_DATUM` on a `StringInfo`. What it takes for the first byte of a varlena
is the low byte of the address: unless its two low bits are zero, the struct is handed to
`heap_tuple_untoast_attr` as a compressed, short or external value. -/
def pgDetoastDatum (untoast : StringInfo → Except Fault StringInfo) (buf : StringInfo) :
    Except Fault StringInfo :=
  if buf.data % 4 = 0 then .ok buf else untoast buf

def intsetRecv (untoast : StringInfo → Except Fault StringInfo) (buf : StringInfo) :
    Except Fault Intset :=
  (pgDetoastDatum untoast buf).bind fun buf =>
    (pqGetmsgint buf.unread).bind fun (cardi, rest) =>
      (allocIntset cardi).bind fun r => (recvLoop cardi.toNat 0 rest r).bind Raw.finish

def pqSendint32 (x : UInt32) : List UInt8 :=
  [x.toNat / 2 ^ 24, x.toNat / 2 ^ 16, x.toNat / 2 ^ 8, x.toNat].map Nat.toUInt8

def intsetSend (s : Intset) : Except Fault (List UInt8) :=
  s.elems.bind fun xs => .ok ((s.cardi :: xs).flatMap pqSendint32)

/-- The loop `while(l<=r)`; in `uint32_t`, `l+r` may wrap. -/
def containLoop (s : Intset) (a : UInt32) : ℕ → UInt32 → UInt32 → Except Fault Bool
  | 0, _, _ => .error .diverges
  | fuel + 1, l, r =>
    if l ≤ r then
      let mid := (l + r) / 2
      match s.arr[mid.toNat]? with
      | none => .error .outOfBounds
      | some x =>
        if x = a then .ok true
        else if x < a then containLoop s a fuel (mid + 1) r
        else if mid = 0 then .ok false
        else containLoop s a fuel l (mid - 1)
    else .ok false

/-- A window of `cardi` elements lasts for at most `cardi` rounds. -/
def intsetContain (a : UInt32) (s : Intset) : Except Fault Bool :=
  if s.cardi = 0 then .ok false else containLoop s a (s.cardi.toNat + 1) 0 (s.cardi - 1)

/-- The scan over `arr_b`, on what `i` and `j` have not passed yet; `i` stays where an element was
found. -/
def supersetScan : List UInt32 → List UInt32 → Bool
  | _, [] => true
  | [], _ :: _ => false
  | a :: as, x :: bs =>
    if a < x then supersetScan as (x :: bs)
    else if a ≠ x then false
    else supersetScan (a :: as) bs
termination_by as bs => as.length + bs.length

def intsetImproperSuperset (a b : Intset) : Except Fault Bool :=
  if b.cardi = 0 then .ok true
  else if a.cardi < b.cardi then .ok false
  else
    match b.arr[0]?, a.arr[0]?, b.arr[(b.cardi - 1).toNat]?, a.arr[(a.cardi - 1).toNat]? with
    | some b0, some a0, some b1, some a1 =>
      if b0 < a0 ∨ b1 > a1 then .ok false
      else a.elems.bind fun as => b.elems.bind fun bs => .ok (supersetScan as bs)
    | _, _, _, _ => .error .outOfBounds

def intsetImproperSubset (a b : Intset) : Except Fault Bool := intsetImproperSuperset b a

/-- `memcmp` of the elements, when there are as many of both -/
def intsetEqual (a b : Intset) : Except Fault Bool :=
  if a.cardi ≠ b.cardi then .ok false
  else a.elems.bind fun as => b.elems.bind fun bs => .ok (decide (as = bs))

/-- Which elements a merge keeps: those of `a` only, of `b` only, of both. The two
loops of each operator, counting and filling, differ between operators in this only. -/
structure Keep where
  left : Bool
  right : Bool
  both : Bool

/-- The counting loop. The recursion is on the parts of `arr_a` and `arr_b` that
`i` and `j` have not passed yet; what one array has left over counts as a whole. -/
def mergeCount (k : Keep) : List UInt32 → List UInt32 → UInt32 → UInt32
  | [], bs, cardi => if k.right then cardi + bs.length.toUInt32 else cardi
  | as, [], cardi => if k.left then cardi + as.length.toUInt32 else cardi
  | a :: as, b :: bs, cardi =>
    if a > b then mergeCount k (a :: as) bs (if k.right then cardi + 1 else cardi)
    else if a < b then mergeCount k as (b :: bs) (if k.left then cardi + 1 else cardi)
    else mergeCount k as bs (if k.both then cardi + 1 else cardi)
termination_by as bs => as.length + bs.length

/-- `arr[cardi++] = x` for each element, in order; the last value of `cardi` is returned too -/
def fillRest : List UInt32 → UInt32 → Raw → Except Fault (Raw × UInt32)
  | [], cardi, r => .ok (r, cardi)
  | x :: xs, cardi, r => (r.write cardi.toNat x).bind fun r => fillRest xs (cardi + 1) r

/-- The filling loops, with `arr[cardi++] = x` for each element kept. -/
def mergeFill (k : Keep) : List UInt32 → List UInt32 → UInt32 → Raw → Except Fault (Raw × UInt32)
  | [], bs, cardi, r => if k.right then fillRest bs cardi r else .ok (r, cardi)
  | as, [], cardi, r => if k.left then fillRest as cardi r else .ok (r, cardi)
  | a :: as, b :: bs, cardi, r =>
    if a > b then
      if k.right then (r.write cardi.toNat b).bind fun r => mergeFill k (a :: as) bs (cardi + 1) r
      else mergeFill k (a :: as) bs cardi r
    else if a < b then
      if k.left then (r.write cardi.toNat a).bind fun r => mergeFill k as (b :: bs) (cardi + 1) r
      else mergeFill k as (b :: bs) cardi r
    else
      if k.both then (r.write cardi.toNat a).bind fun r => mergeFill k as bs (cardi + 1) r
      else mergeFill k as bs cardi r
termination_by as bs => as.length + bs.length

def merge (k : Keep) (a b : Intset) : Except Fault Intset :=
  a.elems.bind fun as => b.elems.bind fun bs =>
    (allocIntset (mergeCount k as bs 0)).bind fun r => (mergeFill k as bs 0 r).bind fun p => p.1.finish

def intsetIntersect (a b : Intset) : Except Fault Intset :=
  if a.cardi = 0 ∨ b.cardi = 0 then emptyIntset else merge ⟨false, false, true⟩ a b

def intsetUnion (a b : Intset) : Except Fault Intset :=
  if a.cardi = 0 then cloneIntset b
  else if b.cardi = 0 then cloneIntset a
  else merge ⟨true, true, true⟩ a b

def intsetDisjunct (a b : Intset) : Except Fault Intset :=
  if a.cardi = 0 then cloneIntset b
  else if b.cardi = 0 then cloneIntset a
  else merge ⟨true, true, false⟩ a b

def intsetSubtract (a b : Intset) : Except Fault Intset :=
  if a.cardi = 0 then emptyIntset
  else if b.cardi = 0 then cloneIntset a
  else merge ⟨true, false, false⟩ a b

end Intset

end Pg
