import ContractLinker.Text.Blank

/-!
# Addresses

An account address is a row of bytes of any length. Its text is hexadecimal, with blanks around
it, a radix mark in front and `_` between the digits allowed; its literal, as contract code spells
it, is `0x` and two lowercase digits for each byte.
-/

namespace ContractLinker

structure Address where
  bytes : List UInt8
  deriving DecidableEq, Repr, Inhabited

namespace Address

def digitValue? (c : Char) : Option Nat :=
  if '0' ≤ c ∧ c ≤ '9' then some (c.toNat - '0'.toNat)
  else if 'a' ≤ c ∧ c ≤ 'f' then some (c.toNat - 'a'.toNat + 10)
  else if 'A' ≤ c ∧ c ≤ 'F' then some (c.toNat - 'A'.toNat + 10)
  else none

def isHexDigit (c : Char) : Bool := (digitValue? c).isSome

/-- The digits in address text: blanks around it, one radix mark and all separators dropped. -/
def digitsOf (text : List Char) : List Char :=
  let body := match Text.trim text with
    | '0' :: 'x' :: rest => rest
    | '0' :: 'X' :: rest => rest
    | other => other
  body.filter (· ≠ '_')

def pairUp : List Nat → List UInt8
  | high :: low :: rest => UInt8.ofNat (16 * high + low) :: pairUp rest
  | _ => []

/-- The digit values of a text, padded with one leading zero to an even number. -/
def nibbles (digits : List Char) : List Nat :=
  let values := digits.filterMap digitValue?
  if values.length % 2 = 0 then values else 0 :: values

/-- Reads address text; `none` unless at least one digit and nothing but digits is left of it. -/
def ofText? (text : String) : Option Address :=
  let digits := digitsOf text.toList
  if digits ≠ [] ∧ digits.all isHexDigit then some ⟨pairUp (nibbles digits)⟩ else none

def digit (n : Nat) : Char := if n < 10 then Char.ofNat (48 + n) else Char.ofNat (87 + n)

def hexChars (a : Address) : List Char :=
  a.bytes.flatMap fun b => [digit (b.toNat / 16), digit (b.toNat % 16)]

def hex (a : Address) : String := String.ofList a.hexChars

def literal (a : Address) : String := "0x" ++ a.hex

end Address

end ContractLinker
