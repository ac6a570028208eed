import PgRetrofit.Spec.Backend

/-! The compression of `common/pg_lzcompress.c`. Positions in the input and the output are
indexes; a loop whose rounds are not bounded by its own condition has a bound as first argument. -/

namespace Pg.Pglz

def historySize : ℕ := 4096
def maxMatch : ℕ := 273
def intMax : ℤ := 2 ^ 31 - 1

structure Strategy where
  minInputSize : ℤ
  maxInputSize : ℤ
  minCompRate : ℤ
  firstSuccessBy : ℤ
  matchSizeGood : ℤ
  matchSizeDrop : ℤ

def strategyDefault : Strategy := ⟨32, intMax, 25, 1024, 128, 10⟩

def strategyAlways : Strategy := ⟨0, intMax, 0, intMax, 128, 6⟩

/-- `PGLZ_HistEntry`; pointers to entries are their indexes, or `none` for `NULL`. -/
structure HistEntry where
  next : Option ℕ
  prev : Option ℕ
  hindex : ℕ
  pos : ℕ

/-- `hist_start` and `hist_entries`, with the variables `hist_next` and `hist_recycle`. An entry
that has not been written in this call may hold anything. -/
structure Hist where
  start : ℕ → ℕ
  entries : ℕ → HistEntry
  next : ℕ
  recycle : Bool

def invalidEntry : ℕ := 0

def byteAt (source : List UInt8) (i : ℕ) : Except Fault UInt8 :=
  match source[i]? with
  | some b => .ok b
  | none => .error .outOfBounds

/-- a (signed) `char` as an `int` -/
def charInt (b : UInt8) : UInt32 := b.toInt8.toInt32.toUInt32

def histIdx (source : List UInt8) (s mask : ℕ) : Except Fault ℕ := do
  let s₀ ← byteAt source s
  if source.length - s < 4 then
    .ok ((charInt s₀).toNat &&& mask)
  else
    let s₁ ← byteAt source (s + 1)
    let s₂ ← byteAt source (s + 2)
    let s₃ ← byteAt source (s + 3)
    .ok
      (((charInt s₀ <<< 6) ^^^ (charInt s₁ <<< 4) ^^^ (charInt s₂ <<< 2) ^^^ charInt s₃).toNat &&& mask)

/-- Set a field of the entry that a pointer points to. -/
def Hist.setEntry (h : Hist) (i : ℕ) (e : HistEntry) : Hist :=
  { h with entries := Function.update h.entries i e }

def histDelink (h : Hist) (i : ℕ) : Except Fault Hist := do
  let myhe := h.entries i
  let h ← match myhe.prev with
    | none => match myhe.next with
      | some next => .ok { h with start := Function.update h.start myhe.hindex next }
      | none => .error .outOfBounds
    | some prev => .ok (h.setEntry prev { h.entries prev with next := myhe.next })
  match myhe.next with
    | some next => .ok (h.setEntry next { h.entries next with prev := myhe.prev })
    | none => .ok h

def histLink (h : Hist) (i hindex s : ℕ) : Hist :=
  let first := h.start hindex
  let h := h.setEntry i ⟨some first, none, hindex, s⟩
  let h := h.setEntry first { h.entries first with prev := some i }
  { h with start := Function.update h.start hindex i }

/-- `if (_recycle)` -/
def histRecycle (h : Hist) : Except Fault Hist := if h.recycle then histDelink h h.next else .ok h

/-- `++(_hn)`, back to 1 after the last entry -/
def histAdvance (h : Hist) : Hist :=
  if h.next + 1 ≥ historySize + 1 then { h with next := 1, recycle := true }
    else { h with next := h.next + 1 }

def histAdd (source : List UInt8) (mask s : ℕ) (h : Hist) : Except Fault Hist := do
  let hindex ← histIdx source s mask
  let h ← histRecycle h
  .ok (histAdvance (histLink h h.next hindex s))

def histAddAll (source : List UInt8) (mask : ℕ) : ℕ → ℕ → Hist → Except Fault Hist
  | 0, _, h => .ok h
  | matchLen + 1, dp, h => do histAddAll source mask matchLen (dp + 1) (← histAdd source mask dp h)

/-- `while (ip < end && *ip == *hp && thislen < PGLZ_MAX_MATCH)`, with `room` more until the limit -/
def extendMatch (source : List UInt8) : ℕ → ℕ → ℕ → ℕ → Except Fault ℕ
  | 0, _, _, thislen => .ok thislen
  | room + 1, ip, hp, thislen => do
    if ip < source.length then
      if (← byteAt source ip) = (← byteAt source hp) then
        extendMatch source room (ip + 1) (hp + 1) (thislen + 1)
      else .ok thislen
    else .ok thislen

def memcmpEq (source : List UInt8) (ip hp len : ℕ) : Except Fault Bool :=
  if ip + len ≤ source.length ∧ hp + len ≤ source.length then
    .ok ((source.drop ip).take len = (source.drop hp).take len)
  else .error .outOfBounds

/-- The length of the match at `hp`, if a better one than `len` is wanted. -/
def matchAt (source : List UInt8) (input hp len : ℕ) : Except Fault ℕ := do
  if len ≥ 16 then
    if ← memcmpEq source input hp len then
      extendMatch source (maxMatch - len) (input + len) (hp + len) len
    else .ok 0
  else extendMatch source maxMatch input hp 0

def findMatchLoop (source : List UInt8) (h : Hist) (input : ℕ) (goodDrop : ℤ) :
    ℕ → Option ℕ → ℕ → ℤ → ℤ → Except Fault (ℕ × ℤ)
  | 0, _, _, _, _ => .error .diverges
  | fuel + 1, hent, len, off, goodMatch => do
    if hent = some invalidEntry then .ok (len, off)
    else match hent with
      | none => .error .outOfBounds
      | some i =>
        let hp := (h.entries i).pos
        let thisoff : ℤ := (input : ℤ) - hp
        if thisoff ≥ 0x0fff then .ok (len, off)
        else
          let thislen ← matchAt source input hp len
          let (len, off) := if thislen > len then (thislen, thisoff) else (len, off)
          let hent := (h.entries i).next
          if hent ≠ some invalidEntry then
            if (len : ℤ) ≥ goodMatch then .ok (len, off)
            else
              findMatchLoop source h input goodDrop fuel hent len off
                (goodMatch - (goodMatch * goodDrop).tdiv 100)
          else findMatchLoop source h input goodDrop fuel hent len off goodMatch

/-- `pglz_find_match`; a list has no more entries than the history -/
def findMatch (source : List UInt8) (h : Hist) (input : ℕ) (goodMatch goodDrop : ℤ) (mask : ℕ) :
    Except Fault (Option (ℕ × ℤ)) := do
  let hentno := h.start (← histIdx source input mask)
  let (len, off) ← findMatchLoop source h input goodDrop (historySize + 1) (some hentno) 0 0 goodMatch
  if len > 2 then .ok (some (len, off)) else .ok none

/-- The output area and the variables `bp`, `ctrlp`, `ctrlb` and `ctrl`; `none` is `&ctrl_dummy`. -/
structure Out where
  dest : List UInt8
  bp : ℕ
  ctrlp : Option ℕ
  ctrlb : UInt8
  ctrl : UInt8

def store (dest : List UInt8) (i : ℕ) (b : UInt8) : Except Fault (List UInt8) :=
  if i < dest.length then .ok (dest.set i b) else .error .outOfBounds

/-- `*ctrlp = ctrlb` -/
def storeCtrl (o : Out) : Except Fault (List UInt8) :=
  match o.ctrlp with
  | some i => store o.dest i o.ctrlb
  | none => .ok o.dest

def outCtrl (o : Out) : Except Fault Out :=
  if o.ctrl &&& 0xff = 0 then do .ok ⟨← storeCtrl o, o.bp + 1, some o.bp, 0, 1⟩
  else .ok o

def outLiteral (o : Out) (b : UInt8) : Except Fault Out := do
  let o ← outCtrl o
  .ok { o with dest := ← store o.dest o.bp b, bp := o.bp + 1, ctrl := o.ctrl <<< 1 }

/-- The first byte of a tag; `nibble` is the part that says the length. -/
def tagByte (off : ℤ) (nibble : ℤ) : UInt8 :=
  UInt8.ofNat (((off.toNat &&& 0xf00) >>> 4) ||| nibble.toNat)

def outTag (o : Out) (len : ℕ) (off : ℤ) : Except Fault Out := do
  let o ← outCtrl o
  let o := { o with ctrlb := o.ctrlb ||| o.ctrl, ctrl := o.ctrl <<< 1 }
  if len > 17 then
    let dest ← store o.dest o.bp (tagByte off 0x0f)
    let dest ← store dest (o.bp + 1) (UInt8.ofNat (off.toNat &&& 0xff))
    let dest ← store dest (o.bp + 2) (UInt8.ofNat (len - 18))
    .ok { o with dest := dest, bp := o.bp + 3 }
  else
    let dest ← store o.dest o.bp (tagByte off (len - 3))
    let dest ← store dest (o.bp + 1) (UInt8.ofNat (off.toNat &&& 0xff))
    .ok { o with dest := dest, bp := o.bp + 2 }

/-- The parameters that are computed from the strategy and the size of the input. -/
structure Params where
  goodMatch : ℤ
  goodDrop : ℤ
  resultMax : ℤ
  mask : ℕ
  firstSuccessBy : ℤ

def clamp (lo hi x : ℤ) : ℤ := if x > hi then hi else if x < lo then lo else x

def resultMax (slen needRate : ℤ) : ℤ :=
  if slen > intMax.tdiv 100 then slen.tdiv 100 * (100 - needRate) else (slen * (100 - needRate)).tdiv 100

def hashsz (slen : ℕ) : ℕ :=
  if slen < 128 then 512 else if slen < 256 then 1024 else if slen < 512 then 2048
    else if slen < 1024 then 4096 else 8192

def params (strategy : Strategy) (slen : ℕ) : Params where
  goodMatch := clamp 17 maxMatch strategy.matchSizeGood
  goodDrop := clamp 0 100 strategy.matchSizeDrop
  resultMax := resultMax slen (clamp 0 99 strategy.minCompRate)
  mask := hashsz slen - 1
  firstSuccessBy := strategy.firstSuccessBy

structure Comp where
  hist : Hist
  out : Out
  dp : ℕ
  foundMatch : Bool

def compressRound (source : List UInt8) (p : Params) (c : Comp) : Except Fault Comp := do
  match ← findMatch source c.hist c.dp p.goodMatch p.goodDrop p.mask with
  | some (matchLen, matchOff) =>
    let out ← outTag c.out matchLen matchOff
    let hist ← histAddAll source p.mask matchLen c.dp c.hist
    .ok ⟨hist, out, c.dp + matchLen, true⟩
  | none =>
    let out ← outLiteral c.out (← byteAt source c.dp)
    let hist ← histAdd source p.mask c.dp c.hist
    .ok ⟨hist, out, c.dp + 1, c.foundMatch⟩

/-- The loop; the second part of the result is false if it gives up. -/
def compressLoop (source : List UInt8) (p : Params) : ℕ → Comp → Except Fault (Comp × Bool)
  | 0, _ => .error .diverges
  | fuel + 1, c => do
    if c.dp < source.length then
      if (c.out.bp : ℤ) ≥ p.resultMax then .ok (c, false)
      else if !c.foundMatch && decide ((c.out.bp : ℤ) ≥ p.firstSuccessBy) then .ok (c, false)
      else compressLoop source p fuel (← compressRound source p c)
    else .ok (c, true)

def initHist (old : Hist) (slen : ℕ) : Hist where
  start := fun i => if i < hashsz slen then 0 else old.start i
  entries := old.entries
  next := 1
  recycle := false

/-- `pglz_compress`, with what earlier calls left in the history. The result is the size, or -1,
and the output area. -/
def pglzCompress (old : Hist) (source dest : List UInt8) (strategy : Option Strategy) :
    Except Fault (ℤ × List UInt8) := do
  let strategy := strategy.getD strategyDefault
  let slen := source.length
  if strategy.matchSizeGood ≤ 0 ∨ (slen : ℤ) < strategy.minInputSize ∨
    (slen : ℤ) > strategy.maxInputSize then .ok (-1, dest)
  else
    let p := params strategy slen
    let (c, done) ← compressLoop source p (slen + 1) ⟨initHist old slen, ⟨dest, 0, none, 0, 0⟩, 0, false⟩
    if done then
      let dest ← storeCtrl c.out
      if (c.out.bp : ℤ) ≥ p.resultMax then .ok (-1, dest) else .ok (c.out.bp, dest)
    else .ok (-1, c.out.dest)

/-- `while (len--) { *dp = dp[-off]; dp++; }`, on the bytes written so far -/
def copyBack (off : ℕ) : ℕ → List UInt8 → Except Fault (List UInt8)
  | 0, out => .ok out
  | len + 1, out => do
    if off ≤ out.length then copyBack off len (out ++ [← byteAt out (out.length - off)])
    else .error .outOfBounds

/-- A tag at `sp`: its offset, its length and where the next item is. -/
def readTag (source : List UInt8) (sp : ℕ) : Except Fault (ℕ × ℕ × ℕ) := do
  let t₁ ← byteAt source sp
  let t₂ ← byteAt source (sp + 1)
  let len := (t₁ &&& 0x0f).toNat + 3
  let off := ((t₁ &&& 0xf0).toNat <<< 4) ||| t₂.toNat
  if len = 18 then .ok (off, len + (← byteAt source (sp + 2)).toNat, sp + 3) else .ok (off, len, sp + 2)

def decompressItem (source : List UInt8) (rawsize : ℕ) (ctrl : UInt8) (sp : ℕ) (out : List UInt8) :
    Except Fault (ℕ × List UInt8) := do
  if ctrl &&& 1 ≠ 0 then
    let (off, len, sp) ← readTag source sp
    .ok (sp, ← copyBack off (min len (rawsize - out.length)) out)
  else .ok (sp + 1, out ++ [← byteAt source sp])

/-- `for (ctrlc = 0; ctrlc < 8 && sp < srcend && dp < destend; ctrlc++)`, with `count` rounds left -/
def decompressItems (source : List UInt8) (rawsize : ℕ) :
    ℕ → UInt8 → ℕ → List UInt8 → Except Fault (ℕ × List UInt8)
  | 0, _, sp, out => .ok (sp, out)
  | count + 1, ctrl, sp, out => do
    if sp < source.length ∧ out.length < rawsize then
      let (sp, out) ← decompressItem source rawsize ctrl sp out
      decompressItems source rawsize count (ctrl >>> 1) sp out
    else .ok (sp, out)

def decompressLoop (source : List UInt8) (rawsize : ℕ) :
    ℕ → ℕ → List UInt8 → Except Fault (ℕ × List UInt8)
  | 0, _, _ => .error .diverges
  | fuel + 1, sp, out => do
    if sp < source.length ∧ out.length < rawsize then
      let ctrl ← byteAt source sp
      let (sp, out) ← decompressItems source rawsize 8 ctrl (sp + 1) out
      decompressLoop source rawsize fuel sp out
    else .ok (sp, out)

/-- `pglz_decompress`: the number of bytes, or -1, and the bytes written. -/
def pglzDecompress (source : List UInt8) (rawsize : ℕ) (checkComplete : Bool) :
    Except Fault (ℤ × List UInt8) := do
  let (sp, out) ← decompressLoop source rawsize (source.length + 1) 0 []
  if checkComplete ∧ (out.length ≠ rawsize ∨ sp ≠ source.length) then .ok (-1, out)
  else .ok (out.length, out)

end Pg.Pglz
