import PgRetrofit.Spec.Backend

/-! The Simple-8b codewords of `lib/integerset.c`. -/

namespace Pg.Simple8b

/-- `bits_per_int` and `num_ints` of each mode; the last is the sentinel -/
def simple8bModes : List (ℕ × ℕ) :=
  [(0, 240), (0, 120), (1, 60), (2, 30), (3, 20), (4, 15), (5, 12), (6, 10), (7, 8),
    (8, 7), (10, 6), (12, 5), (15, 4), (20, 3), (30, 2), (60, 1), (0, 0)]

def bitsPerInt (selector : ℕ) : ℕ := (simple8bModes.getD selector (0, 0)).1

def numInts (selector : ℕ) : ℕ := (simple8bModes.getD selector (0, 0)).2

def simple8bMaxValuesPerCodeword : ℕ := 240

def emptyCodeword : UInt64 := 0x0FFFFFFFFFFFFFFF

/-- The loop that selects the mode; `i` is the number of accepted deltas. -/
def selectMode (ints : List UInt64) : ℕ → ℕ → ℕ → UInt64 → UInt64 → Except Fault ℕ
  | 0, _, _, _, _ => .error .diverges
  | fuel + 1, selector, i, diff, lastVal =>
    if diff ≥ (1 : UInt64) <<< (bitsPerInt selector).toUInt64 then
      -- too large, step up to next mode
      if i ≥ numInts (selector + 1) then .ok (selector + 1)
      else selectMode ints fuel (selector + 1) i diff lastVal
    else
      -- accept this delta; then done if codeword is full
      if i + 1 ≥ numInts selector then .ok selector
      else
        match ints[i + 1]? with
        | none => .error .outOfBounds
        | some next => selectMode ints fuel selector (i + 1) (next - lastVal - 1) next

def packLoop (ints : List UInt64) (bits : ℕ) : ℕ → UInt64 → Except Fault UInt64
  | 0, codeword => .ok codeword
  | i + 1, codeword =>
    match ints[i + 1]?, ints[i]? with
    | some next, some prev => packLoop ints bits i ((codeword ||| (next - prev - 1)) <<< bits.toUInt64)
    | _, _ => .error .outOfBounds

/-- The codeword and `*num_encoded`. A round of the selection steps up to one of 16 further
modes or accepts one of at most 240 deltas. -/
def simple8bEncode (ints : List UInt64) (base : UInt64) : Except Fault (UInt64 × ℕ) :=
  match ints[0]? with
  | none => .error .outOfBounds
  | some first =>
    let diff := first - base - (1 : UInt64)
    (selectMode ints 257 0 0 diff first).bind fun selector =>
      let nints := numInts selector
      let bits := bitsPerInt selector
      if nints = 0 then .ok (emptyCodeword, 0)
      else if bits > 0 then
        (packLoop ints bits (nints - 1) 0).map fun codeword =>
          (codeword ||| diff ||| (selector.toUInt64 <<< 60), nints)
      else .ok (selector.toUInt64 <<< 60, nints)

def mask (bits : ℕ) : UInt64 := ((1 : UInt64) <<< bits.toUInt64) - (1 : UInt64)

def decodeLoop (bits : ℕ) : ℕ → UInt64 → UInt64 → List UInt64
  | 0, _, _ => []
  | n + 1, codeword, currValue =>
    let diff := codeword &&& mask bits
    let currValue := currValue + (1 + diff)
    currValue :: decodeLoop bits n (codeword >>> bits.toUInt64) currValue

def simple8bDecode (codeword base : UInt64) : List UInt64 :=
  let selector := (codeword >>> 60).toNat
  if codeword = emptyCodeword then []
  else decodeLoop (bitsPerInt selector) (numInts selector) codeword base

def containsLoop (bits : ℕ) (key : UInt64) : ℕ → UInt64 → UInt64 → Bool
  | 0, _, _ => false
  | n + 1, codeword, currValue =>
    let diff := codeword &&& mask bits
    let currValue := currValue + (1 + diff)
    if currValue ≥ key then currValue = key
    else containsLoop bits key n (codeword >>> bits.toUInt64) currValue

def simple8bContains (codeword key base : UInt64) : Bool :=
  let selector := (codeword >>> 60).toNat
  let nints := numInts selector
  let bits := bitsPerInt selector
  if codeword = emptyCodeword then false
  -- special handling for 0-bit cases
  else if bits = 0 then key - base ≤ nints.toUInt64
  else containsLoop bits key nints codeword base

end Pg.Simple8b
