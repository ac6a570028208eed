import PgRetrofit.Spec.Backend

/-! Compressed posting lists, `access/gin/ginpostinglist.c`. Memory is a list of bytes,
pointers into it are offsets; `uint16` values are stored with the low byte first. -/

namespace Pg.Gin

/-- The order of `ginCompareItemPointers`. -/
def ginCompareItemPointers (a b : ItemPointerData) : ℤ :=
  let ia := a.ipBlkid.toUInt64 <<< 32 ||| a.ipPosid.toUInt64
  let ib := b.ipBlkid.toUInt64 <<< 32 ||| b.ipPosid.toUInt64
  if ia = ib then 0 else if ia > ib then 1 else -1

def maxHeapTuplesPerPageBits : UInt64 := 11

def maxBytesPerInteger : ℕ := 7

def itemptrToUint64 (iptr : ItemPointerData) : UInt64 :=
  iptr.ipBlkid.toUInt64 <<< maxHeapTuplesPerPageBits ||| iptr.ipPosid.toUInt64

def uint64ToItemptr (val : UInt64) : ItemPointerData where
  ipPosid := (val &&& ((1 <<< maxHeapTuplesPerPageBits) - 1)).toUInt16
  ipBlkid := (val >>> maxHeapTuplesPerPageBits).toUInt32

/-- The bytes that `encode_varbyte` writes. -/
def encodeVarbyte (val : UInt64) : List UInt8 :=
  if val > 0x7F then (0x80 ||| (val &&& 0x7F)).toUInt8 :: encodeVarbyte (val >>> 7) else [val.toUInt8]
termination_by val.toNat
decreasing_by
  rename_i h
  have hpos : 0x7F < val.toNat := UInt64.lt_iff_toNat_lt.1 h
  rw [UInt64.toNat_shiftRight]
  change val.toNat >>> 7 < _
  rw [Nat.shiftRight_eq_div_pow]
  omega

def readByte (mem : List UInt8) (p : ℕ) : Except Fault UInt8 :=
  match mem[p]? with
  | some c => .ok c
  | none => .error .outOfBounds

/-- The bytes of `decode_varbyte` from one with `shift` on. `more` of them may have a
continuation bit, the one after these is taken as it is. -/
def decodeBytes (mem : List UInt8) : ℕ → UInt64 → UInt64 → ℕ → Except Fault (UInt64 × ℕ)
  | 0, shift, val, p => do
    let c ← readByte mem p
    .ok (val ||| c.toUInt64 <<< shift, p + 1)
  | more + 1, shift, val, p => do
    let c ← readByte mem p
    let val := val ||| (c.toUInt64 &&& 0x7F) <<< shift
    if c &&& 0x80 ≠ 0 then decodeBytes mem more (shift + 7) val (p + 1) else .ok (val, p + 1)

def decodeVarbyte (mem : List UInt8) (p : ℕ) : Except Fault (UInt64 × ℕ) := decodeBytes mem 6 0 0 p

/-! ### Segments

A segment is the first item, the number of bytes that follow, and these bytes. -/

def shortalign (n : ℕ) : ℕ := (n + 1) / 2 * 2

def shortalignDown (n : ℕ) : ℕ := n / 2 * 2

def uint16Bytes (n : UInt16) : List UInt8 := [n.toUInt8, (n >>> 8).toUInt8]

def itemPointerBytes (iptr : ItemPointerData) : List UInt8 :=
  uint16Bytes (iptr.ipBlkid >>> 16).toUInt16 ++ uint16Bytes (iptr.ipBlkid &&& 0xFFFF).toUInt16 ++
    uint16Bytes iptr.ipPosid

def readUint16 (mem : List UInt8) (p : ℕ) : Except Fault UInt16 := do
  let lo ← readByte mem p
  let hi ← readByte mem (p + 1)
  .ok (lo.toUInt16 ||| hi.toUInt16 <<< 8)

def readFirst (mem : List UInt8) (segment : ℕ) : Except Fault ItemPointerData := do
  let biHi ← readUint16 mem segment
  let biLo ← readUint16 mem (segment + 2)
  let ipPosid ← readUint16 mem (segment + 4)
  .ok { ipBlkid := biHi.toUInt32 <<< 16 ||| biLo.toUInt32, ipPosid := ipPosid }

def readNbytes (mem : List UInt8) (segment : ℕ) : Except Fault UInt16 := readUint16 mem (segment + 6)

def offsetofBytes : ℕ := 8

/-- `SizeOfGinPostingList`, from `nbytes` -/
def sizeOfGinPostingList (nbytes : UInt16) : ℕ := offsetofBytes + shortalign nbytes.toNat

def packLoop (maxbytes : ℕ) : UInt64 → List UInt8 → ℕ → List ItemPointerData →
    Except Fault (List UInt8 × ℕ)
  | _, bytes, totalpacked, [] => .ok (bytes, totalpacked)
  | prev, bytes, totalpacked, iptr :: ipd =>
    let val := itemptrToUint64 iptr
    let delta := val - prev
    let code := encodeVarbyte delta
    if maxbytes - bytes.length ≥ maxBytesPerInteger then
      if bytes.length + code.length ≤ maxbytes then
        packLoop maxbytes val (bytes ++ code) (totalpacked + 1) ipd
      else .error .outOfBounds
    else if code.length > maxBytesPerInteger then .error .outOfBounds
    else if code.length > maxbytes - bytes.length then .ok (bytes, totalpacked)
    else packLoop maxbytes val (bytes ++ code) (totalpacked + 1) ipd

/-- Set a byte that is among the ones written, or the next one. -/
def writeByte (bytes : List UInt8) (i : ℕ) (b : UInt8) : List UInt8 :=
  bytes.take i ++ b :: bytes.drop (i + 1)

/-- The segment as it is written to memory, and `*nwritten`. -/
def ginCompressPostingList (ipd : List ItemPointerData) (maxsize : ℕ) :
    Except Fault (List UInt8 × ℕ) := do
  let maxsize := shortalignDown maxsize
  palloc maxsize
  if maxsize < offsetofBytes then .error .outOfBounds
  else
    let maxbytes := maxsize - offsetofBytes
    match ipd with
    | [] => .error .outOfBounds
    | first :: ipd =>
      let (bytes, totalpacked) ← packLoop maxbytes (itemptrToUint64 first) [] 1 ipd
      let nbytes := UInt16.ofNat bytes.length
      let bytes :=
        if nbytes.toNat ≠ shortalign nbytes.toNat then writeByte bytes nbytes.toNat 0 else bytes
      if bytes.length ≤ maxbytes then
        .ok (itemPointerBytes first ++ uint16Bytes nbytes ++ bytes, totalpacked)
      else .error .outOfBounds

def enlarge (ndecoded nallocated : ℕ) : Except Fault ℕ :=
  if ndecoded ≥ nallocated then do
    palloc (nallocated * 2 * 6)
    .ok (nallocated * 2)
  else .ok nallocated

def storeItem (result : List ItemPointerData) (nallocated : ℕ) (iptr : ItemPointerData) :
    Except Fault (List ItemPointerData) :=
  if result.length < nallocated then .ok (result ++ [iptr]) else .error .outOfBounds

def decodeSegment (mem : List UInt8) (endptr : ℕ) :
    ℕ → UInt64 → ℕ → List ItemPointerData → ℕ → Except Fault (List ItemPointerData × ℕ)
  | 0, _, ptr, result, nallocated => if ptr < endptr then .error .diverges else .ok (result, nallocated)
  | fuel + 1, val, ptr, result, nallocated =>
    if ptr < endptr then do
      let nallocated ← enlarge result.length nallocated
      let (delta, ptr) ← decodeVarbyte mem ptr
      let val := val + delta
      let result ← storeItem result nallocated (uint64ToItemptr val)
      decodeSegment mem endptr fuel val ptr result nallocated
    else .ok (result, nallocated)

def decodeSegments (mem : List UInt8) (endseg : ℕ) :
    ℕ → ℕ → List ItemPointerData → ℕ → Except Fault (List ItemPointerData)
  | 0, segment, result, _ => if segment < endseg then .error .diverges else .ok result
  | fuel + 1, segment, result, nallocated =>
    if segment < endseg then do
      let nallocated ← enlarge result.length nallocated
      let first ← readFirst mem segment
      let result ← storeItem result nallocated first
      let nbytes ← readNbytes mem segment
      let ptr := segment + offsetofBytes
      let (result, nallocated) ← decodeSegment mem (ptr + nbytes.toNat) nbytes.toNat
        (itemptrToUint64 first) ptr
        result nallocated
      decodeSegments mem endseg fuel (segment + sizeOfGinPostingList nbytes) result nallocated
    else .ok result

/-- Decode the segments in the first `len` bytes of memory. -/
def ginPostingListDecodeAllSegments (mem : List UInt8) (len : ℕ) :
    Except Fault (List ItemPointerData) := do
  let nbytes ← readNbytes mem 0
  let nallocated := nbytes.toNat * 2 + 1
  palloc (nallocated * 6)
  decodeSegments mem len len 0 [] nallocated

def ginPostingListDecode (mem : List UInt8) : Except Fault (List ItemPointerData) := do
  let nbytes ← readNbytes mem 0
  ginPostingListDecodeAllSegments mem (sizeOfGinPostingList nbytes)

end Pg.Gin
