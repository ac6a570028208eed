import Mathlib.Tactic

/-! What the modelled code takes from the backend around it: C strings, `palloc`, disk blocks in the
default configuration, and the ways a call can end without a result. -/

namespace Pg

/-- A C string: the bytes before its terminator. -/
structure CString where
  bytes : List UInt8
  nul_free : 0 ∉ bytes
deriving DecidableEq

def CString.strlen (s : CString) : ℕ := s.bytes.length

/-- Why a call returns nothing. The first three are `ereport(ERROR)` and
`elog(ERROR)`; the others are what C leaves undefined, or a call that never ends. -/
inductive Fault
  /-- `errmsg("invalid input syntax for type %s: \"%s\"", typeName, input)` -/
  | invalidText (typeName : String) (input : CString)
  /-- `elog(ERROR, "invalid memory alloc request size %zu", size)` -/
  | allocSize (size : ℕ)
  /-- any other `elog(ERROR, message)` -/
  | elog (message : String)
  /-- an access outside an allocated object -/
  | outOfBounds
  /-- memory handed on that was never written -/
  | unwritten
  | diverges
deriving DecidableEq

/-- `MaxAllocSize`, 1 gigabyte - 1 -/
def maxAllocSize : ℕ := 0x3fffffff

/-- the size check of `palloc` -/
def palloc (size : ℕ) : Except Fault Unit :=
  if size ≤ maxAllocSize then .ok () else .error (.allocSize size)

theorem palloc_ok {size : ℕ} (h : size ≤ maxAllocSize) : palloc size = .ok () := if_pos h

theorem palloc_error {size : ℕ} (h : ¬ size ≤ maxAllocSize) : palloc size = .error (.allocSize size) :=
  if_neg h

/-- `MAXALIGN`, for a `MAXIMUM_ALIGNOF` of 8 -/
def maxalign (n : ℕ) : ℕ := (n + 7) / 8 * 8

theorem le_maxalign (n : ℕ) : n ≤ maxalign n := by
  unfold maxalign
  omega

/-- `isspace` of the C locale: space, `\t`, `\n`, `\v`, `\f`, `\r` -/
def isspace (c : UInt8) : Bool := c == 32 || (9 ≤ c && c ≤ 13)

def blcksz : ℕ := 8192

/-- `offsetof(PageHeaderData, pd_linp)` -/
def sizeOfPageHeaderData : ℕ := 24

abbrev BlockNumber := UInt32

abbrev OffsetNumber := UInt16

/-- a pointer to an item on a page of a file -/
structure ItemPointerData where
  ipBlkid : BlockNumber
  ipPosid : OffsetNumber
deriving DecidableEq

end Pg
