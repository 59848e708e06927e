import Fiscobcos.Lib.Numerals

/-! # Hex strings (common/hexutil/hexutil.go) and the number parsers below them

A parser that fails still returns a value next to its error, which the event-log reader of the
client uses. -/

namespace Fiscobcos.Hexutil
open Numerals

inductive DecError where
  | emptyString
  | badSyntax
  | missingPrefix
  | oddLength
  | emptyNumber
  | leadingZero
  | uint64Range
  deriving DecidableEq

def fromHexChar (c : Byte) : Option ℕ :=
  if 48 ≤ c.val ∧ c.val ≤ 57 then some (c.val - 48)
  else if 97 ≤ c.val ∧ c.val ≤ 102 then some (c.val - 97 + 10)
  else if 65 ≤ c.val ∧ c.val ≤ 70 then some (c.val - 65 + 10)
  else none

/-- `hex.DecodeString`: the bytes before the first error, and the error. -/
def hexDecodeString : Bytes → Bytes × Option DecError
  | [] => ([], none)
  | [c] => ([], if (fromHexChar c).isSome then some .oddLength else some .badSyntax)
  | c :: d :: rest =>
    match fromHexChar c, fromHexChar d with
    | some a, some b =>
      let r := hexDecodeString rest
      (lowByte (16 * a + b) :: r.1, r.2)
    | _, _ => ([], some .badSyntax)

def has0xPrefix : Bytes → Bool
  | a :: b :: _ => a = 48 && (b = 120 || b = 88)
  | _ => false

def decode (input : Bytes) : Bytes × Option DecError :=
  if input = [] then ([], some .emptyString)
  else if ¬ has0xPrefix input then ([], some .missingPrefix)
  else hexDecodeString (input.drop 2)

/-- `FromHex` (`common/bytes.go`): with or without `0x`, of any length, and cut off at the first
bad digit. -/
def fromHex (s : Bytes) : Bytes :=
  let digits := if has0xPrefix s then s.drop 2 else s
  let even := if digits.length % 2 = 1 then 48 :: digits else digits
  (hexDecodeString even).1

def setBytes (n : ℕ) (b : Bytes) : Bytes :=
  if n < b.length then b.drop (b.length - n) else List.replicate (n - b.length) 0 ++ b

def hexToAddress (s : Bytes) : Bytes := setBytes 20 (fromHex s)

def hexToHash (s : Bytes) : Bytes := setBytes 32 (fromHex s)

def digitVal (c : Byte) : Option ℕ :=
  if 48 ≤ c.val ∧ c.val ≤ 57 then some (c.val - 48)
  else if 97 ≤ c.val ∧ c.val ≤ 122 then some (c.val - 97 + 10)
  else if 65 ≤ c.val ∧ c.val ≤ 90 then some (c.val - 65 + 10)
  else none

def parseDigits (base : ℕ) : ℕ → Bytes → ℕ × Option DecError
  | n, [] => (n, none)
  | n, c :: cs =>
    match digitVal c with
    | none => (0, some .badSyntax)
    | some d =>
      if base ≤ d then (0, some .badSyntax)
      else if 2 ^ 64 ≤ n * base + d then (2 ^ 64 - 1, some .uint64Range)
      else parseDigits base (n * base + d) cs

def parseUint (base : ℕ) (s : Bytes) : ℕ × Option DecError :=
  if s = [] then (0, some .badSyntax) else parseDigits base 0 s

def checkNumber (input : Bytes) : Except DecError Bytes :=
  if input = [] then .error .emptyString
  else if ¬ has0xPrefix input then .error .missingPrefix
  else
    match input.drop 2 with
    | [] => .error .emptyNumber
    | c :: cs => if cs ≠ [] ∧ c = 48 then .error .leadingZero else .ok (c :: cs)

def decodeUint64 (input : Bytes) : ℕ × Option DecError :=
  match checkNumber input with
  | .error e => (0, some e)
  | .ok raw => parseUint 16 raw

def hexChar (d : ℕ) : Byte := lowByte (if d < 10 then 48 + d else 87 + d)

def hexEncode (b : Bytes) : Bytes := b.flatMap fun c => [hexChar (c.val / 16), hexChar (c.val % 16)]

def hexUint (i : ℕ) : Bytes := if i = 0 then [48] else (Nat.digits 16 i).reverse.map hexChar

def encode (b : Bytes) : Bytes := [48, 120] ++ hexEncode b

def encodeUint64 (i : UInt64) : Bytes := [48, 120] ++ hexUint i.toNat

/-- `EncodeBig` (`common/hexutil/hexutil.go:180-186`); a sign comes before the `0x`. -/
def encodeBig (bigint : ℤ) : Bytes :=
  if bigint = 0 then [48, 120, 48]
  else (if bigint < 0 then [45] else []) ++ [48, 120] ++ hexUint bigint.natAbs

end Fiscobcos.Hexutil
