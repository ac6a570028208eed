import PgRetrofit.Spec.Intset
import Mathlib.Computability.Language

/-! What the text of an intset is and denotes, said without reference to the scanner: its grammar,
and the numbers written by its maximal runs of decimal digits. -/

namespace Pg.Intset

open Computability

/-- the words of one byte that satisfies `p` -/
def oneByte (p : UInt8 → Bool) : Language UInt8 := { w | ∃ c, p c = true ∧ w = [c] }

abbrev ws : Language UInt8 := oneByte isWhitespace

abbrev byte (c : UInt8) : Language UInt8 := oneByte (· == c)

def num : Language UInt8 := oneByte isDigit * (oneByte isDigit)∗

/-- `( ',' ws* num ws* )*` -/
def more : Language UInt8 := (byte comma * ws∗ * num * ws∗)∗

/-- `ws* '{' ws* [ num ws* ( ',' ws* num ws* )* ] '}' ws*` -/
def grammar : Language UInt8 := ws∗ * byte lbrace * ws∗ * (num * ws∗ * more + 1) * byte rbrace * ws∗

/-- Read one more byte: the numerals completed so far, and the one being read. -/
def readByte (acc : List ℕ × Option ℕ) (c : UInt8) : List ℕ × Option ℕ :=
  if isDigit c then (acc.1, some (acc.2.getD 0 * 10 + (c - 48).toNat)) else (acc.1 ++ acc.2.toList, none)

/-- The numerals a prefix of the text holds, and the one it breaks off in. -/
abbrev reading (p : List UInt8) : List ℕ × Option ℕ := p.foldl readByte ([], none)

/-- The values of the maximal digit runs of a byte string, in order. -/
def numeralValues (bs : List UInt8) : List ℕ :=
  (bs.foldl readByte ([], none)).1 ++ (bs.foldl readByte ([], none)).2.toList

def denoted (str : CString) : Finset ℕ := (numeralValues str.bytes).toFinset

/-- How often a comma directly follows a whitespace character. -/
def looseCommas : List UInt8 → ℕ
  | [] => 0
  | [_] => 0
  | c :: d :: bs => (if isWhitespace c ∧ d = comma then 1 else 0) + looseCommas (d :: bs)

/-- The scanner gets through the text without reaching `syntax_error`; with a slot
for every byte its buffer cannot be the obstacle. -/
def SyntaxOk (str : CString) : Prop := ∃ s, scan str str.strlen = .ok s

/-- The text is accepted: neither its syntax nor its size raises an error. -/
def Accepts (str : CString) : Prop := SyntaxOk str ∧ ∀ n, intsetIn str ≠ .error (.allocSize n)

/-- What the input function owes an accepted text: a canonical intset whose elements
are the numbers written in it. -/
def StoredRight (str : CString) : Prop :=
  ∃ r, intsetIn str = .ok r ∧ Canonical r ∧ ∀ n : ℕ, n ∈ r.arr.map UInt32.toNat ↔ n ∈ denoted str

def Fits (str : CString) : Prop := ∀ n ∈ denoted str, n < 2 ^ 32

/-- No comma directly follows whitespace, and the commas can be counted in 32 bits. -/
def TightCommas (str : CString) : Prop :=
  looseCommas str.bytes = 0 ∧ 1 + str.bytes.count comma < 2 ^ 32

/-- Up to every place at which the text may still become one of the grammar, the numerals that have
ended and the commas directly after whitespace are no more than the slots. -/
def HasRoom (str : CString) : Prop :=
  ∀ p, p <+: str.bytes → (∃ w, p ++ w ∈ grammar) →
    (reading p).1.length + looseCommas p ≤ nreserveSlot str

/-- No two of the numbers are 2^31 or more apart. -/
def Narrow (V : Finset ℕ) : Prop := ∀ u ∈ V, ∀ v ∈ V, v < u + 2 ^ 31

/-- The buffer as the array handed to `qsort`. -/
def bufMem (buf : List UInt32) : Mem UInt32 := ⟨fun i => buf.getD i 0⟩

/-- The numbers come out of the sort the same whatever is answered about two of them
whose difference `eintset_cmp` does not return because it overflows an `int`. -/
def SortsExactly (buf : List UInt32) : Prop :=
  ∀ cmp : UInt32 → UInt32 → ℤ,
    (∀ x y, eintsetCmp x y = (x.toNat : ℤ) - y.toNat → cmp x y = eintsetCmp x y) →
      Qsort.pgQsort cmp (bufMem buf) 0 buf.length = Qsort.pgQsort eintsetCmp (bufMem buf) 0 buf.length

end Pg.Intset
