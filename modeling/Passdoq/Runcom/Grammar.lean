import Passdoq.Lib.Decimal
import Passdoq.Lib.OrdMap
import Passdoq.Lib.Peg
import Mathlib

/-!
# The grammar of the runcom language

The rules of `prl_grammar` in `runcom.cpp` with the actions that the parser attaches to them.

* `Value`, `ParseState` : configuration values and what the actions work on;
* the rules, under their names in the source, up to `grammar`;
* `parsePrl` : `Config::parse_prl`, with fuel, since a rule that repeats an empty match does not end.
-/

namespace Passdoq.Runcom

inductive ValueType
  | string
  | integer
  | boolean
  | list
  deriving DecidableEq

structure Value where
  type : ValueType
  stringValue : Bytes
  intValue : Int
  boolValue : Bool
  listValue : List Bytes
  deriving DecidableEq

namespace Value

def default : Value := ⟨.string, [], 0, false, []⟩

def fromString (s : Bytes) : Value := { default with type := .string, stringValue := s }

def fromInt (i : Int) : Value := { default with type := .integer, intValue := i }

def fromBool (b : Bool) : Value := { default with type := .boolean, boolValue := b }

def fromList (l : List Bytes) : Value := { default with type := .list, listValue := l }

end Value

structure ParseState where
  values : OrdMap Bytes Value
  currentKey : Bytes
  currentString : Bytes
  currentList : List Bytes
  inList : Bool

/-- The state that a parse into `values` starts with. -/
def ParseState.start (values : OrdMap Bytes Value) : ParseState := ⟨values, [], [], [], false⟩

/-- Assign to the key being parsed. -/
def ParseState.assign (st : ParseState) (v : Value) : ParseState :=
  { st with values := st.values.insert st.currentKey v }

/-! ## Actions -/

namespace Action

def identifier (text : Bytes) (st : ParseState) : Option ParseState := some { st with currentKey := text }

/-- The text without the quotes, when it has two. -/
def unquote (text : Bytes) : Bytes :=
  if text.head? = some 34 ∧ text.getLast? = some 34 then (text.drop 1).take (text.length - 2) else text

def stringValue (text : Bytes) (st : ParseState) : Option ParseState :=
  let val := unquote text
  some (if st.inList then { st with currentList := st.currentList ++ [val] } else { st with currentString := val })

/-- `std::stoll` of a sign and digits; `none` where it throws `std::out_of_range`. -/
def stoll (text : Bytes) : Option Int :=
  let i : Int := if text.head? = some 45 then -Decimal.valueOf 0 text.tail else Decimal.valueOf 0 text
  if -2 ^ 63 ≤ i ∧ i < 2 ^ 63 then some i else none

def integer (text : Bytes) (st : ParseState) : Option ParseState :=
  if st.currentKey = [] then some st else (stoll text).map fun i => st.assign (.fromInt i)

def boolean (text : Bytes) (st : ParseState) : Option ParseState :=
  let b := text = ascii "true" ∨ text = ascii "yes" ∨ text = ascii "1"
  some (if st.currentKey = [] then st else st.assign (.fromBool b))

def listValue (_ : Bytes) (st : ParseState) : Option ParseState :=
  some (if st.currentKey = [] then st else { st.assign (.fromList st.currentList) with currentList := [] })

def assignment (_ : Bytes) (st : ParseState) : Option ParseState :=
  let st := if st.currentKey ≠ [] ∧ st.currentString ≠ [] then
      { st.assign (.fromString st.currentString) with currentString := [] }
    else st
  some { st with currentKey := [] }

end Action

/-! ## Rules -/

open Peg

/-- `peg::space`. -/
abbrev isSpace : UInt8 → Bool := Decimal.isSpace

def isLetter (c : UInt8) : Bool := (65 ≤ c && c ≤ 90) || (97 ≤ c && c ≤ 122)

/-- `peg::identifier_first`. -/
def isIdentFirst (c : UInt8) : Bool := isLetter c || c == 95

/-- `peg::identifier_other`. -/
def isIdentOther (c : UInt8) : Bool := isIdentFirst c || Decimal.isDigit c

/-- `not_one<' ', '\t', '\n', '\r', '#'>`. -/
def isBare (c : UInt8) : Bool := !(c == 32 || c == 9 || c == 10 || c == 13 || c == 35)

def ws : Peg ParseState := star (byte isSpace)

def comment : Peg ParseState := seq (one 35) (upto eolf any)

def identifier : Peg ParseState := act (seq (byte isIdentFirst) (star (byte isIdentOther))) Action.identifier

def quotedString : Peg ParseState := seq (one 34) (upto (one 34) any)

def unquotedString : Peg ParseState := plus (byte isBare)

def stringValue : Peg ParseState := act (sor quotedString unquotedString) Action.stringValue

def integer : Peg ParseState := act (seq (opt (one 45)) (plus (byte Decimal.isDigit))) Action.integer

def boolean : Peg ParseState :=
  act (sor (str (ascii "true")) (sor (str (ascii "false")) (sor (str (ascii "yes")) (sor (str (ascii "no"))
    (sor (one 49) (one 48)))))) Action.boolean

def listItem : Peg ParseState := seq ws (seq stringValue ws)

def listValue : Peg ParseState := act (seq (one 91) (seq (list listItem (one 44) ws) (one 93))) Action.listValue

def value : Peg ParseState := sor listValue (sor boolean (sor integer stringValue))

def assignment : Peg ParseState :=
  act (seq identifier (seq ws (seq (one 61) (seq ws value)))) Action.assignment

def statement : Peg ParseState := seq ws (seq (opt assignment) (seq ws (seq (opt comment) eol)))

def grammar : Peg ParseState := upto eof statement

/-- `Config::parse_prl` on a configuration with these values: what it returns, and the values after it. -/
def parsePrl (fuel : Nat) (content : Bytes) (values : OrdMap Bytes Value) : Option (Bool × OrdMap Bytes Value) :=
  (run fuel grammar content (.start values)).map fun o => match o with
    | .ok _ st => (true, st.values)
    | .fail st => (false, st.values)
    | .thrown st => (false, st.values)

/-- `parse_prl` comes to an end, and returns `b`. -/
def Returns (content : Bytes) (values : OrdMap Bytes Value) (b : Bool) : Prop :=
  ∃ fuel after, parsePrl fuel content values = some (b, after)

end Passdoq.Runcom
