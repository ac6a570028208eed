import PgRetrofit.Spec.Backend
import PgRetrofit.Lib.Ere
import Mathlib.Data.List.TakeWhile

/-! The tutorial type `PersonName`: input, output, comparison and hashing, and the string functions
of the C library that it calls. -/

namespace Pg

/-- The C string at the start of an object's bytes. -/
def readCString (bs : List UInt8) : Except Fault CString :=
  if 0 ∈ bs then
    .ok ⟨bs.takeWhile (· != 0), fun h => by simpa using List.mem_takeWhile_imp h⟩
  else .error .outOfBounds

/-- the bytes `snprintf(buf, n, "%s", s)` writes -/
def snprintf (n : ℕ) (s : List UInt8) : List UInt8 := if n = 0 then [] else s.take (n - 1) ++ [0]

/-- `strtok_r(s, delim, &rest)` for one delimiter: the token and `rest`, or `NULL` -/
def strtokR (delim : UInt8) (s : List UInt8) : Option (List UInt8 × List UInt8) :=
  match s.dropWhile (· == delim) with
  | [] => none
  | c :: cs => some ((c :: cs).takeWhile (· != delim), ((c :: cs).dropWhile (· != delim)).drop 1)

/-- `strcmp`: the difference of the first two bytes that differ, terminators included -/
def strcmp : List UInt8 → List UInt8 → ℤ
  | [], [] => 0
  | [], b :: _ => -b.toNat
  | a :: _, [] => a.toNat
  | a :: as, b :: bs => if a = b then strcmp as bs else (a.toNat : ℤ) - b.toNat

/-- A stored value: the size word of the varlena header, and the bytes after it. -/
structure PersonName where
  varsize : BitVec 30
  name : List UInt8
deriving DecidableEq

namespace Pname

open Ere

def comma : UInt8 := 44
def space : UInt8 := 32

/-- the range `lo-hi` of a bracket expression in the C locale -/
def range (lo hi : Char) : List UInt8 := (List.range' lo.toNat (hi.toNat + 1 - lo.toNat)).map Nat.toUInt8

/-- `[A-Z]` -/
def upper : List UInt8 := range 'A' 'Z'

/-- `[-a-zA-Z']` -/
def nameChar : List UInt8 := 45 :: range 'a' 'z' ++ range 'A' 'Z' ++ [39]

/-- `[A-Z][-a-zA-Z']+` -/
def word : RegularExpression UInt8 := oneOf upper * many1 (oneOf nameChar)

/-- `[ ]` -/
def blank : RegularExpression UInt8 := oneOf [space]

/-- `regexec` of an expression anchored at both ends -/
def regexMatch (str : List UInt8) (re : RegularExpression UInt8) : Bool := re.rmatch str

/-- `^(([A-Z][-a-zA-Z\']+)[ ]?)+$` -/
def checkFamilyName (s : List UInt8) : Bool := regexMatch s (many1 (word * opt blank))

/-- `^[ ]?(([A-Z][-a-zA-Z\']+)[ ]?)+$` -/
def checkGivenName (s : List UInt8) : Bool := regexMatch s (opt blank * many1 (word * opt blank))

/-- `s[strlen(s)-1]`. In front of an empty given name stands the terminator that
`strtok_r` has put in the place of the comma. -/
def lastByte (s : List UInt8) : UInt8 := s.getLast?.getD 0

def validName (str : List UInt8) : Except Fault Bool :=
  if comma ∉ str then .ok false
  else if str.head? = some comma then .ok false
  else
    match strtokR comma str with
    | none => .error .outOfBounds
    | some (familyName, givenName) =>
      if familyName.head? = some space then .ok false
      else if lastByte familyName = space ∨ lastByte givenName = space then .ok false
      else if checkFamilyName familyName = false ∨ checkGivenName givenName = false then .ok false
      else .ok true

/-- The loop of `lltrim`. Its bound `strlen(str)` is taken anew each time, of the
string that is left. -/
def lltrimLoop : ℕ → List UInt8 → List UInt8
  | _, [] => []
  | i, c :: cs => if i ≤ (c :: cs).length ∧ isspace c then lltrimLoop (i + 1) cs else c :: cs

def lltrim (str : List UInt8) : List UInt8 := lltrimLoop 0 str

def varhdrsz : ℕ := 4

def pnameIn (str : CString) : Except Fault PersonName :=
  (palloc (str.strlen + 1)).bind fun _ =>
    (validName str.bytes).bind fun valid =>
      if valid = false then .error (.invalidText "PersonName" str)
      else
        match strtokR comma str.bytes with
        | none => .error .outOfBounds
        | some (family, given) =>
          -- sprintf into a buffer of strlen(str)+1 bytes
          let temp2 := family ++ comma :: lltrim given
          if temp2.length + 1 ≤ str.strlen + 1 then
            let len := temp2.length + 1
            (palloc (varhdrsz + len)).bind fun _ =>
              .ok ⟨BitVec.ofNat 30 (varhdrsz + len), snprintf len temp2⟩
          else .error .outOfBounds

/-- `VARSIZE_ANY_EXHDR`; the type is stored plain, with a 4-byte header -/
def exhdr (p : PersonName) : ℕ := p.varsize.toNat - varhdrsz

/-- `palloc(len)` and `snprintf(copy, len, "%s", p->name)`: the bytes written -/
def copyName (p : PersonName) : Except Fault (List UInt8) :=
  (palloc (exhdr p)).bind fun _ => (readCString p.name).bind fun s => .ok (snprintf (exhdr p) s.bytes)

def pnameOut (p : PersonName) : Except Fault CString := (copyName p).bind readCString

def splitName (p : PersonName) : Except Fault (List UInt8 × List UInt8) :=
  (copyName p).bind fun copy => (readCString copy).bind fun s =>
    match strtokR comma s.bytes with
    | none => .error .outOfBounds
    | some parts => .ok parts

def pnameCmp (p1 p2 : PersonName) : Except Fault ℤ :=
  (splitName p1).bind fun (family1, given1) => (splitName p2).bind fun (family2, given2) =>
    if strcmp family1 family2 = 0 then .ok (strcmp given1 given2) else .ok (strcmp family1 family2)

def pnameBigger (p1 p2 : PersonName) : Except Fault Bool := (pnameCmp p1 p2).map fun a => decide (a > 0)
def pnameBiggerEqual (p1 p2 : PersonName) : Except Fault Bool :=
  (pnameCmp p1 p2).map fun a => decide (a ≥ 0)
def pnameLess (p1 p2 : PersonName) : Except Fault Bool := (pnameCmp p1 p2).map fun a => decide (a < 0)
def pnameLessEqual (p1 p2 : PersonName) : Except Fault Bool :=
  (pnameCmp p1 p2).map fun a => decide (a ≤ 0)
def pnameEqual (p1 p2 : PersonName) : Except Fault Bool := (pnameCmp p1 p2).map fun a => decide (a = 0)
def pnameNotEqual (p1 p2 : PersonName) : Except Fault Bool :=
  (pnameCmp p1 p2).map fun a => decide (a ≠ 0)
def pnameAbsCmp (p1 p2 : PersonName) : Except Fault ℤ := pnameCmp p1 p2

/-- `hash_any(result, len)` reads the whole buffer, so all of it has to be written. -/
def pnameOwnHash (hashAny : List UInt8 → UInt32) (p : PersonName) : Except Fault UInt32 :=
  (copyName p).bind fun copy => if copy.length = exhdr p then .ok (hashAny copy) else .error .unwritten

end Pname

end Pg
