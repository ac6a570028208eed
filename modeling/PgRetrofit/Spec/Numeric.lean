import PgRetrofit.Lib.Positional
import PgRetrofit.Spec.Backend
import Mathlib.Data.List.DropRight

/-! Arithmetic on `NumericVar`, from `numeric.c`, with `NBASE` 10000: sum, difference, product and
quotient, rounding, `apply_typmod`, and the conversions from and to integers.

An `int` is a `ℤ`. A computation of sizes, weights or accumulators that leaves the range of `int` ends
with a fault, as does an `Assert` that does not hold. A digit is what the code stores in an `int16`;
`/` and `%` are for numbers that are not negative, where C and Lean agree; elsewhere it is `Int.tdiv`. -/

namespace Pg.Numeric

open Positional (carryLoop)

inductive Fault
  /-- `ereport` and `palloc` -/
  | backend (fault : Pg.Fault)
  | intOverflow
  | assertion
deriving DecidableEq

def nbase : ℤ := 10000
def halfNbase : ℤ := 5000
def decDigits : ℤ := 4
def mulGuardDigits : ℤ := 2
def intMax : ℤ := 2147483647

/-- a result of type `int` -/
def int (x : ℤ) : Except Fault ℤ := if -intMax - 1 ≤ x ∧ x ≤ intMax then .ok x else .error .intOverflow

def assert (p : Prop) [Decidable p] : Except Fault Unit := if p then .ok () else .error .assertion

def read (digits : List ℤ) (i : ℕ) : Except Fault ℤ :=
  match digits[i]? with
  | some digit => .ok digit
  | none => .error (.backend .outOfBounds)

def alloc (n : ℤ) (size : ℕ) : Except Fault Unit := (palloc (n.toNat * size)).mapError .backend

/-- `sizeof(NumericDigit)` is 2 -/
def digitbufAlloc (ndigits : ℤ) : Except Fault Unit := alloc ndigits 2

inductive Sign
  | pos
  | neg
  | nan
deriving DecidableEq

/-- `ndigits` is the length of `digits`. -/
structure NumericVar where
  /-- what `buf` holds before `digits`, the nearest first; `none` was never written -/
  spare : List (Option ℤ)
  digits : List ℤ
  weight : ℤ
  sign : Sign
  dscale : ℤ
deriving DecidableEq

def NumericVar.ndigits (var : NumericVar) : ℤ := var.digits.length

def zeroVar (var : NumericVar) : NumericVar :=
  { var with spare := [], digits := [], weight := 0, sign := .pos }

def setVarFromVar (value : NumericVar) : Except Fault NumericVar := do
  digitbufAlloc (value.ndigits + 1)
  pure { value with spare := [some 0] }

def stripLeading : List (Option ℤ) → List ℤ → ℤ → List (Option ℤ) × List ℤ × ℤ
  | spare, [], weight => (spare, [], weight)
  | spare, d :: ds, weight => if d = 0 then stripLeading (some 0 :: spare) ds (weight - 1)
      else (spare, d :: ds, weight)

def stripVar (var : NumericVar) : NumericVar :=
  let (spare, digits, weight) := stripLeading var.spare var.digits var.weight
  let digits := digits.rdropWhile (· = 0)
  if digits = [] then { var with spare := spare, digits := [], weight := 0, sign := .pos }
  else { var with spare := spare, digits := digits, weight := weight }

/-- the loop that propagates a carry, on the digits from the last to the first; true if it goes on to
the digit before the first -/
def propagateCarry : List ℤ → List ℤ × Bool
  | [] => ([], true)
  | d :: ds =>
    if 1 + d ≥ nbase then
      let rest := propagateCarry ds
      ((1 + d - nbase) :: rest.1, rest.2)
    else ((1 + d) :: ds, false)

/-- `round_powers`, where the first entry is not used -/
def roundPowers (di : ℤ) : ℤ := if di = 1 then 1000 else if di = 2 then 100 else if di = 3 then 10 else 0

/-- the digit that is rounded within, and the carry out of it -/
def roundDigit (digit pow10 : ℤ) : ℤ × Bool :=
  let extra := digit % pow10
  if extra ≥ pow10 / 2 then
    let up := pow10 + (digit - extra)
    if up ≥ nbase then (up - nbase, true) else (up, false)
  else (digit - extra, false)

/-- the digits `init` with a carry out of `last`, which follows them -/
def roundUp (var : NumericVar) (init last : List ℤ) (carry : Bool) : Except Fault NumericVar :=
  if carry then
    let (digits, out) := propagateCarry init.reverse
    if out then
      match var.spare with
      | some d :: spare => do
        assert (1 + d < nbase)
        pure { var with
          spare := spare, digits := (1 + d) :: digits.reverse ++ last, weight := var.weight + 1 }
      | none :: _ => .error (.backend .unwritten)
      | [] => .error (.backend .outOfBounds)
    else .ok { var with digits := digits.reverse ++ last }
  else .ok { var with digits := init ++ last }

/-- the number of decimal digits of `var` up to `rscale` digits after the decimal point -/
def decimalDigits (var : NumericVar) (rscale : ℤ) : Except Fault ℤ := do
  let places ← int (var.weight + 1)
  let places ← int (places * decDigits)
  int (places + rscale)

def roundVar (var : NumericVar) (rscale : ℤ) : Except Fault NumericVar := do
  let var := { var with dscale := rscale }
  let di ← decimalDigits var rscale
  if di < 0 then pure { var with digits := [], weight := 0, sign := .pos }
  else
    let places ← int (di + decDigits - 1)
    let ndigits := places / decDigits
    let di := di % decDigits
    if ndigits < var.ndigits ∨ (ndigits = var.ndigits ∧ di > 0) then
      let kept := var.digits.take ndigits.toNat
      if di = 0 then
        let next ← read var.digits ndigits.toNat
        roundUp var kept [] (decide (next ≥ halfNbase))
      else
        let digit ← read kept (ndigits.toNat - 1)
        let (digit, carry) := roundDigit digit (roundPowers di)
        roundUp var kept.dropLast [digit] carry
    else pure var

def truncVar (var : NumericVar) (rscale : ℤ) : Except Fault NumericVar := do
  let var := { var with dscale := rscale }
  let di ← decimalDigits var rscale
  if di ≤ 0 then pure { var with digits := [], weight := 0, sign := .pos }
  else
    let places ← int (di + decDigits - 1)
    let ndigits := places / decDigits
    if ndigits ≤ var.ndigits then
      let kept := var.digits.take ndigits.toNat
      let di := di % decDigits
      if di > 0 then
        let digit ← read kept (ndigits.toNat - 1)
        pure { var with digits := kept.dropLast ++ [digit - digit % roundPowers di] }
      else pure { var with digits := kept }
    else pure var

/-- The decimal digits before the point, from the first digit that is not zero on. -/
def trueDdigits : List ℤ → ℤ → Option ℤ
  | [], _ => none
  | dig :: ds, ddigits =>
    if dig = 0 then trueDdigits ds (ddigits - decDigits)
    else some (if dig < 10 then ddigits - 3 else if dig < 100 then ddigits - 2 else if dig < 1000 then
      ddigits - 1 else ddigits)

/-- `errmsg` and `errdetail` -/
def fieldOverflow (precision scale : ℤ) : Fault :=
  let bound := if precision - scale ≠ 0 then s!"10^{precision - scale}" else "1"
  .backend
    (.elog
      s!"numeric field overflow: A field with precision {precision}, scale {scale} must round to an absolute value less than {bound}.")

/-- `VARHDRSZ` is 4; from there on a `typmod` is not negative. -/
def applyTypmod (var : NumericVar) (typmod : ℤ) : Except Fault NumericVar :=
  if typmod < 4 then .ok var
  else do
    let precision := (typmod - 4) / 2 ^ 16 % 2 ^ 16
    let scale := (typmod - 4) % 2 ^ 16
    let maxdigits := precision - scale
    let var ← roundVar var scale
    let places ← int (var.weight + 1)
    let ddigits ← int (places * decDigits)
    if ddigits > maxdigits ∧
      ∃ d ∈ trueDdigits var.digits ddigits, d > maxdigits then .error (fieldOverflow precision scale)
    else pure var

/-- Digits of the greater weight before the first common one: stops at a digit that is not zero. -/
def skipZeros : List ℤ → ℤ → ℤ → Option (List ℤ × ℤ)
  | [], weight, _ => some ([], weight)
  | d :: ds, weight, other => if weight > other then
      (if d ≠ 0 then none else skipZeros ds (weight - 1) other) else some (d :: ds, weight)

def cmpDigits : List ℤ → List ℤ → ℤ
  | [], [] => 0
  | [], d2 :: ds2 => if d2 ≠ 0 then -1 else cmpDigits [] ds2
  | d1 :: ds1, [] => if d1 ≠ 0 then 1 else cmpDigits ds1 []
  | d1 :: ds1, d2 :: ds2 => if d1 - d2 = 0 then cmpDigits ds1 ds2 else if d1 - d2 > 0 then 1 else -1

/-- What is left when the weights still differ: any digit that is not zero decides. -/
def cmpRest (ds1 ds2 : List ℤ) : ℤ := if ds1.any (· ≠ 0) then 1 else if ds2.any (· ≠ 0) then -1 else 0

def cmpAbs (var1 var2 : NumericVar) : ℤ :=
  match skipZeros var1.digits var1.weight var2.weight with
  | none => 1
  | some (ds1, weight1) =>
    match skipZeros var2.digits var2.weight weight1 with
    | none => -1
    | some (ds2, weight2) => if weight1 = weight2 then cmpDigits ds1 ds2 else cmpRest ds1 ds2

def digitAt (digits : List ℤ) (i : ℤ) :
    ℤ := if i ≥ 0 ∧ i < digits.length then digits.getD i.toNat 0 else 0

def addStep (digits1 digits2 : List ℤ) (start1 start2 ndigits : ℤ) (i : ℕ) (carry : ℤ) :
    Except Fault (ℤ × ℤ) :=
  let carry := carry + digitAt digits1 (start1 - (ndigits - i))
  let carry := carry + digitAt digits2 (start2 - (ndigits - i))
  if carry ≥ nbase then .ok (carry - nbase, 1) else .ok (carry, 0)

def subStep (digits1 digits2 : List ℤ) (start1 start2 ndigits : ℤ) (i : ℕ) (borrow : ℤ) :
    Except Fault (ℤ × ℤ) :=
  let borrow := borrow + digitAt digits1 (start1 - (ndigits - i))
  let borrow := borrow - digitAt digits2 (start2 - (ndigits - i))
  if borrow < 0 then .ok (borrow + nbase, -1) else .ok (borrow, 0)

/-- What `add_abs` and `sub_abs` share: the result is aligned to the operand with more digits after the
decimal point and has the weight `resWeight`. -/
def alignedLoop (step : List ℤ → List ℤ → ℤ → ℤ → ℤ → ℕ → ℤ → Except Fault (ℤ × ℤ))
    (var1 var2 : NumericVar) (resWeight : ℤ) :
    Except Fault NumericVar := do
  let rscale1 ← int (var1.ndigits - var1.weight - 1)
  let rscale2 ← int (var2.ndigits - var2.weight - 1)
  let resRscale := max rscale1 rscale2
  let resNdigits ← int (resRscale + resWeight + 1)
  let resNdigits := if resNdigits ≤ 0 then 1 else resNdigits
  digitbufAlloc (resNdigits + 1)
  let (digits, carry) ← carryLoop
    (step var1.digits var2.digits (resRscale + var1.weight + 1) (resRscale + var2.weight + 1) resNdigits)
    resNdigits.toNat 0 []
  assert (carry = 0)
  pure
    { spare := [some 0], digits := digits, weight := resWeight, sign := .pos,
      dscale := max var1.dscale var2.dscale }

section Store

/-! The variables live in a store, so that the result may be one of the operands. -/

variable {ι : Type} [DecidableEq ι]

/-- `result` gets the digits, the weight and the scale, and keeps its sign until the caller sets it. -/
def addAbs (s : ι → NumericVar) (var1 var2 result : ι) : Except Fault (ι → NumericVar) := do
  let resWeight ← int (max (s var1).weight (s var2).weight + 1)
  let res ← alignedLoop addStep (s var1) (s var2) resWeight
  pure (Function.update s result (stripVar { res with sign := (s result).sign }))

def subAbs (s : ι → NumericVar) (var1 var2 result : ι) : Except Fault (ι → NumericVar) := do
  let res ← alignedLoop subStep (s var1) (s var2) (s var1).weight
  pure (Function.update s result (stripVar { res with sign := (s result).sign }))

def setSign (s : ι → NumericVar) (result : ι) (sign : Sign) : ι → NumericVar :=
  Function.update s result { s result with sign := sign }

/-- the `switch` on the comparison of the absolute values, with the signs of the result -/
def subByMagnitude (s : ι → NumericVar) (var1 var2 result : ι) (greater less : Sign) :
    Except Fault (ι → NumericVar) :=
  match cmpAbs (s var1) (s var2) with
  | 0 =>
    let s := Function.update s result (zeroVar (s result))
    .ok (Function.update s result { s result with dscale := max (s var1).dscale (s var2).dscale })
  | 1 => return setSign (← subAbs s var1 var2 result) result greater
  | _ => return setSign (← subAbs s var2 var1 result) result less

def addVar (s : ι → NumericVar) (var1 var2 result : ι) : Except Fault (ι → NumericVar) :=
  if (s var1).sign = .pos then
    if (s var2).sign = .pos then return setSign (← addAbs s var1 var2 result) result .pos
    else subByMagnitude s var1 var2 result .pos .neg
  else
    if (s var2).sign = .pos then subByMagnitude s var1 var2 result .neg .pos
    else return setSign (← addAbs s var1 var2 result) result .neg

def subVar (s : ι → NumericVar) (var1 var2 result : ι) : Except Fault (ι → NumericVar) :=
  if (s var1).sign = .pos then
    if (s var2).sign = .neg then return setSign (← addAbs s var1 var2 result) result .pos
    else subByMagnitude s var1 var2 result .pos .neg
  else
    if (s var2).sign = .neg then subByMagnitude s var1 var2 result .neg .pos
    else return setSign (← addAbs s var1 var2 result) result .neg

end Store

/-- the body of the carry propagation, at digit `i` of the accumulator -/
def carryStep (dig : List ℤ) (i : ℕ) (carry : ℤ) : Except Fault (ℤ × ℤ) := do
  let entry ← read dig i
  let newdig ← int (entry + carry)
  if newdig ≥ nbase then
    let carry := newdig / nbase
    pure (newdig - carry * nbase, carry)
  else pure (newdig, 0)

def normalize (dig : List ℤ) : Except Fault (List ℤ) := do
  let (dig, carry) ← carryLoop (carryStep dig) dig.length 0 []
  assert (carry = 0)
  pure dig

def mulInner (i1 : ℕ) (var1digit : ℤ) (var2digits : List ℤ) : ℕ → List ℤ → Except Fault (List ℤ)
  | 0, dig => .ok dig
  | i2 + 1, dig => do
    let digit ← read var2digits i2
    let product ← int (var1digit * digit)
    let entry ← read dig (i1 + i2 + 2)
    let entry ← int (entry + product)
    mulInner i1 var1digit var2digits i2 (dig.set (i1 + i2 + 2) entry)

/-- Normalises the accumulator if an entry might get too large; `maxdig` is the new bound. -/
def makeRoom (dig : List ℤ) (maxdig var1digit : ℤ) : Except Fault (List ℤ × ℤ) :=
  if maxdig > (intMax - intMax / nbase) / (nbase - 1) then do
    let dig ← normalize dig
    pure (dig, 1 + var1digit)
  else .ok (dig, maxdig)

def mulOuter (var1digits var2digits : List ℤ) (resNdigits : ℤ) : ℕ → ℤ → List ℤ → Except Fault (List ℤ)
  | 0, _, dig => .ok dig
  | i1 + 1, maxdig, dig => do
    let var1digit ← read var1digits i1
    if var1digit = 0 then mulOuter var1digits var2digits resNdigits i1 maxdig dig
    else
      let maxdig ← int (maxdig + var1digit)
      let (dig, maxdig) ← makeRoom dig maxdig var1digit
      let i2 := min (var2digits.length - 1 : ℤ) (resNdigits - i1 - 3)
      let dig ← mulInner i1 var1digit var2digits (i2 + 1).toNat dig
      mulOuter var1digits var2digits resNdigits i1 maxdig dig

def mulVarOrdered (var1 var2 : NumericVar) (rscale : ℤ) : Except Fault NumericVar := do
  let zero : NumericVar := { spare := [], digits := [], weight := 0, sign := .pos, dscale := rscale }
  if var1.ndigits = 0 ∨ var2.ndigits = 0 then pure zero
  else
    let resSign := if var1.sign = var2.sign then .pos else .neg
    let resWeight ← int (var1.weight + var2.weight)
    let resWeight ← int (resWeight + 2)
    let resNdigits ← int (var1.ndigits + var2.ndigits + 1)
    let fraction ← int (rscale + decDigits - 1)
    let maxdigits ← int (resWeight + 1)
    let maxdigits ← int (maxdigits + fraction.tdiv decDigits + mulGuardDigits)
    let resNdigits := min resNdigits maxdigits
    if resNdigits < 3 then pure zero
    else
      alloc resNdigits 4
      let i1 := min (var1.ndigits - 1) (resNdigits - 3)
      let dig ← mulOuter var1.digits var2.digits resNdigits (i1 + 1).toNat 0
        (List.replicate resNdigits.toNat 0)
      digitbufAlloc (resNdigits + 1)
      let digits ← normalize dig
      let result ← roundVar
        { spare := [some 0], digits := digits, weight := resWeight, sign := resSign, dscale := 0 } rscale
      pure (stripVar result)

/-- The operand with fewer digits comes first. -/
def mulVar (var1 var2 : NumericVar) (rscale : ℤ) : Except Fault NumericVar :=
  if var1.ndigits > var2.ndigits then mulVarOrdered var2 var1 rscale else mulVarOrdered var1 var2 rscale

/-- a divisor of one digit; the argument counts the digits already there -/
def shortDivision (dividend : List ℤ) (divisor1 : ℤ) : ℕ → ℕ → ℤ → List ℤ → Except Fault (List ℤ)
  | 0, _, _, digits => .ok digits
  | n + 1, i, carry, digits => do
    let next ← read dividend (i + 1)
    let carry ← int (carry * nbase + next)
    shortDivision dividend divisor1 n (i + 1) (carry % divisor1) (digits ++ [carry / divisor1])

def scaleStep (digits : List ℤ) (d : ℤ) (i : ℕ) (carry : ℤ) : Except Fault (ℤ × ℤ) := do
  let digit ← read digits i
  let carry ← int (carry + digit * d)
  pure (carry % nbase, carry / nbase)

/-- Multiplies digits `0 .. n`; those after them stay. -/
def scale (digits : List ℤ) (n : ℕ) (d : ℤ) : Except Fault (List ℤ) := do
  let (front, carry) ← carryLoop (scaleStep digits d) (n + 1) 0 []
  assert (carry = 0)
  pure (front ++ digits.drop (n + 1))

/-- `while (divisor2 * qhat > (next2digits - qhat * divisor1) * NBASE + dividend[j + 2]) qhat--` -/
def adjustQhat (divisor1 divisor2 next2digits next : ℤ) : ℕ → ℤ → Except Fault ℤ
  | 0, _ => .error (.backend .diverges)
  | fuel + 1, qhat => do
    let left ← int (divisor2 * qhat)
    let rest ← int (next2digits - qhat * divisor1)
    let right ← int (rest * nbase + next)
    if left > right then adjustQhat divisor1 divisor2 next2digits next fuel (qhat - 1) else pure qhat

/-- the body of the loop that subtracts `qhat` times the divisor, with the state `carry`, `borrow` -/
def mulSubStep (dividend divisor : List ℤ) (j : ℕ) (qhat : ℤ) (i : ℕ) (state : ℤ × ℤ) :
    Except Fault (ℤ × ℤ × ℤ) := do
  let digit ← read divisor i
  let carry ← int (state.1 + digit * qhat)
  let borrow := state.2 - carry % nbase
  let carry := carry / nbase
  let digit ← read dividend (j + i)
  let borrow := borrow + digit
  if borrow < 0 then pure (borrow + nbase, carry, -1) else pure (borrow, carry, 0)

def addBackStep (dividend divisor : List ℤ) (j : ℕ) (i : ℕ) (carry : ℤ) : Except Fault (ℤ × ℤ) := do
  let digit1 ← read dividend (j + i)
  let digit2 ← read divisor i
  let carry := carry + (digit1 + digit2)
  if carry ≥ nbase then pure (carry - nbase, 1) else pure (carry, 0)

/-- The window of the dividend from `j` on is replaced. -/
def replaceWindow (dividend window : List ℤ) (j : ℕ) : List ℤ :=
  dividend.take j ++ window ++ dividend.drop (j + window.length)

/-- Subtracts `qhat` times the divisor from the dividend, and adds the divisor back if that was too
much. -/
def subtractMultiple (divisor : List ℤ) (var2ndigits j : ℕ) (dividend : List ℤ) (qhat : ℤ) :
    Except Fault (ℤ × List ℤ) := do
  let (window, carry, borrow) ← carryLoop (mulSubStep dividend divisor j qhat)
    (var2ndigits + 1) (0, 0) []
  assert (carry = 0)
  let dividend := replaceWindow dividend window j
  if borrow ≠ 0 then
    let (window, carry) ← carryLoop (addBackStep dividend divisor j) (var2ndigits + 1) 0 []
    assert (carry = 1)
    pure (qhat - 1, replaceWindow dividend window j)
  else pure (qhat, dividend)

def divStep (divisor : List ℤ) (divisor1 divisor2 : ℤ) (var2ndigits j : ℕ) (dividend : List ℤ) :
    Except Fault (ℤ × List ℤ) := do
  let digit0 ← read dividend j
  let digit1 ← read dividend (j + 1)
  let next2digits ← int (digit0 * nbase + digit1)
  if next2digits = 0 then pure (0, dividend)
  else
    let qhat := if digit0 = divisor1 then nbase - 1 else next2digits / divisor1
    let next ← read dividend (j + 2)
    let qhat ← adjustQhat divisor1 divisor2 next2digits next (qhat.toNat + 1) qhat
    if qhat > 0 then subtractMultiple divisor var2ndigits j dividend qhat else pure (qhat, dividend)

/-- the main loop; the first argument counts the rounds to go -/
def longDivision (divisor : List ℤ) (divisor1 divisor2 : ℤ) (var2ndigits : ℕ) :
    ℕ → ℕ → List ℤ → List ℤ → Except Fault (List ℤ)
  | 0, _, _, digits => .ok digits
  | n + 1, j, dividend, digits => do
    let (digit, dividend) ← divStep divisor divisor1 divisor2 var2ndigits j dividend
    longDivision divisor divisor1 divisor2 var2ndigits n (j + 1) dividend (digits ++ [digit])

/-- Both operands scaled such that the first digit of the divisor is at least half of `NBASE`. -/
def scaleOperands (dividend divisor : List ℤ) (var1ndigits var2ndigits : ℕ) :
    Except Fault (List ℤ × List ℤ) := do
  let first ← read divisor 1
  if first < halfNbase then
    let d := nbase / (first + 1)
    let (front, carry) ← carryLoop (fun i => scaleStep divisor d (i + 1)) var2ndigits 0 []
    assert (carry = 0)
    let divisor := divisor.take 1 ++ front
    let dividend ← scale dividend var1ndigits d
    let first ← read divisor 1
    assert (first ≥ halfNbase)
    pure (dividend, divisor)
  else pure (dividend, divisor)

/-- `resNdigits` digits of the quotient, by the fast path for a divisor of one digit or by Knuth's
Algorithm D -/
def quotientDigits (dividend divisor : List ℤ) (var1ndigits var2ndigits resNdigits : ℕ) :
    Except Fault (List ℤ) :=
  if var2ndigits = 1 then do
    let divisor1 ← read divisor 1
    shortDivision dividend divisor1 resNdigits 0 0 []
  else do
    let (dividend, divisor) ← scaleOperands dividend divisor var1ndigits var2ndigits
    let divisor1 ← read divisor 1
    let divisor2 ← read divisor 2
    longDivision divisor divisor1 divisor2 var2ndigits resNdigits 0 dividend []

def divVar (var1 var2 : NumericVar) (rscale : ℤ) (round : Bool) : Except Fault NumericVar :=
  if var2.digits = [] ∨ var2.digits.head? = some 0 then .error (.backend (.elog "division by zero"))
  else if var1.ndigits = 0 then
    .ok { spare := [], digits := [], weight := 0, sign := .pos, dscale := rscale }
  else do
    let resWeight ← int (var1.weight - var2.weight)
    let fraction ← int (rscale + decDigits - 1)
    let resNdigits ← int (resWeight + 1)
    let resNdigits ← int (resNdigits + fraction.tdiv decDigits)
    let resNdigits := max resNdigits 1
    let resNdigits ← int (if round then resNdigits + 1 else resNdigits)
    let divNdigits ← int (resNdigits + var2.ndigits)
    let divNdigits := max divNdigits var1.ndigits
    let size ← int (divNdigits + var2.ndigits)
    let size ← int (size + 2)
    alloc size 2
    let dividend := 0 :: var1.digits ++ List.replicate (divNdigits - var1.ndigits).toNat 0
    let divisor := 0 :: var2.digits
    digitbufAlloc (resNdigits + 1)
    let digits ← quotientDigits dividend divisor var1.digits.length var2.digits.length resNdigits.toNat
    let result : NumericVar :=
      { spare := [some 0], digits := digits, weight := resWeight, sign := if var1.sign = var2.sign then
        .pos else .neg, dscale := 0 }
    if round then return stripVar (← roundVar result rscale)
      else return stripVar (← truncVar result rscale)

/-- The quotient is kept in a variable of the function's own. -/
def modVar {ι : Type} [DecidableEq ι] (s : ι → NumericVar) (var1 var2 result : ι) :
    Except Fault (ι → NumericVar) := do
  let tmp ← divVar (s var1) (s var2) 0 false
  let tmp ← mulVar (s var2) tmp (s var2).dscale
  let s ← subVar (fun var => Option.elim var tmp s) (some var1) none (some result)
  pure fun var => s (some var)

def int64Min : ℤ := -9223372036854775808
def int64Max : ℤ := 9223372036854775807

/-- the value of `pg_mul_s64_overflow`, `pg_sub_s64_overflow` if they return false -/
def s64 (x : ℤ) : Option ℤ := if int64Min ≤ x ∧ x ≤ int64Max then some x else none

/-- rounds `i` to `weight`, counted down, with the digits from `i` on -/
def int64Loop : ℕ → List ℤ → ℤ → Option ℤ
  | 0, _, val => some val
  | n + 1, digits, val => do
    let val ← s64 (val * nbase)
    match digits with
    | [] => int64Loop n [] val
    | d :: ds => do
      let val ← s64 (val - d)
      int64Loop n ds val

/-- the integer `var` rounds to, without leading and trailing zero digits -/
def roundToInteger (var : NumericVar) : Except Fault NumericVar := do
  let rounded ← setVarFromVar var
  let rounded ← roundVar rounded 0
  pure (stripVar rounded)

/-- `none` is the return value false. -/
def numericvarToInt64 (var : NumericVar) : Except Fault (Option ℤ) := do
  let rounded ← roundToInteger var
  match rounded.digits with
  | [] => pure (some 0)
  | d :: ds =>
    assert (rounded.weight ≥ 0 ∧ rounded.ndigits ≤ rounded.weight + 1)
    match int64Loop rounded.weight.toNat ds (-d) with
    | none => pure none
    | some val =>
      if rounded.sign = .neg then pure (some val)
      else if val = int64Min then pure none
      else pure (some (-val))

def int128Min : ℤ := -170141183460469231731687303715884105728
def int128Max : ℤ := 170141183460469231731687303715884105727

/-- two's complement of 128 bits -/
def wrap128 (x : ℤ) : ℤ := (x - int128Min) % 340282366920938463463374607431768211456 + int128Min

def int128Loop (neg : Bool) : ℕ → List ℤ → ℤ → Option ℤ
  | 0, _, val => some val
  | n + 1, digits, oldval =>
    let val := wrap128 (oldval * nbase)
    let val := match digits with
      | [] => val
      | d :: _ => wrap128 (val + d)
    -- a quotient other than the old value is an overflow; only a value that is its own negative may pass
    if val.tdiv nbase ≠ oldval ∧ (!neg ∨ wrap128 (-val) ≠ val ∨ val = 0 ∨ oldval < 0) then none
    else int128Loop neg n digits.tail val

def numericvarToInt128 (var : NumericVar) : Except Fault (Option ℤ) := do
  let rounded ← roundToInteger var
  match rounded.digits with
  | [] => pure (some 0)
  | d :: ds =>
    assert (rounded.weight ≥ 0 ∧ rounded.ndigits ≤ rounded.weight + 1)
    let neg := decide (rounded.sign = .neg)
    match int128Loop neg rounded.weight.toNat ds d with
    | none => pure none
    | some val => pure (some (if neg then wrap128 (-val) else val))

/-- Fills the digits from the last to the first; `room` is the number of those not yet written. -/
def digitLoop : ℕ → ℤ → List ℤ → Except Fault (List ℤ × ℕ)
  | 0, _, _ => .error (.backend .outOfBounds)
  | room + 1, uval, digits =>
    let newuval := uval / nbase
    let digits := (uval - newuval * nbase) :: digits
    if newuval ≠ 0 then digitLoop room newuval digits else .ok (digits, room)

/-- `int64_to_numericvar` and `int128_to_numericvar`, for integers of `2 ^ w` values and `room` digits -/
def intToNumericvar (w room : ℕ) (val : ℤ) : Except Fault NumericVar :=
  -- the unsigned type holds the negative of every value
  let uval := if val < 0 then (-val) % 2 ^ w else val
  let sign := if val < 0 then .neg else .pos
  if val = 0 then .ok { spare := [some 0], digits := [], weight := 0, sign := sign, dscale := 0 }
  else do
    let (digits, unused) ← digitLoop room uval []
    pure {
      spare := List.replicate unused none ++ [some 0], digits := digits, weight := digits.length - 1
      sign := sign, dscale := 0 }

def int64ToNumericvar (val : ℤ) : Except Fault NumericVar := intToNumericvar 64 5 val
def int128ToNumericvar (val : ℤ) : Except Fault NumericVar := intToNumericvar 128 10 val

end Pg.Numeric
