import Mathlib.Algebra.Ring.Nat
import Nemclass.Lib.OperatorChain
import Nemclass.Model.Error

/-! The lexer of address formulas. It walks over the bytes of the text: what is
still unread is a suffix of them, and a position is the number of bytes before it. -/
namespace Nemclass.Address
open Model OperatorChain

namespace Tokenizer

/-- `std::str::from_utf8(..).unwrap()`, of the bytes between two delimiters. -/
def fromUtf8 (bs : List UInt8) : String := (Utf8.decode bs).getD ""

def isWhitespace (b : UInt8) : Bool :=
  b == ' '.toUInt8 || b == '\t'.toUInt8 || b == '\r'.toUInt8 || b == '\n'.toUInt8

def skipWhitespace (bs : List UInt8) : List UInt8 := bs.dropWhile isWhitespace

def isDigit (b : UInt8) : Bool := '0'.toUInt8 ≤ b && b ≤ '9'.toUInt8

def isHexDigit (b : UInt8) : Bool :=
  isDigit b || ('a'.toUInt8 ≤ b && b ≤ 'f'.toUInt8) || ('A'.toUInt8 ≤ b && b ≤ 'F'.toUInt8)

def digitValue (b : UInt8) : ℕ :=
  if isDigit b then b.toNat - '0'.toNat
  else if 'a'.toUInt8 ≤ b then b.toNat - 'a'.toNat + 10
  else b.toNat - 'A'.toNat + 10

def digitsValue (radix : ℕ) (digits : List UInt8) : ℕ :=
  digits.foldl (fun acc d => acc * radix + digitValue d) 0

/-- `i64::from_str_radix` on digits without a sign. -/
def fromStrRadix (radix : ℕ) (digits : List UInt8) : Option Int64 :=
  if digits ≠ [] ∧ digitsValue radix digits < 2 ^ 63 then
    some (Int64.ofNat (digitsValue radix digits))
  else none

theorem ne_nil_of_fromStrRadix {radix : ℕ} {digits : List UInt8} {n : Int64}
    (h : fromStrRadix radix digits = some n) : digits ≠ [] := by
  unfold fromStrRadix at h
  split at h
  · exact (‹_ ∧ _› : _ ∧ _).1
  · cases h

theorem dropWhile_length_lt {p : UInt8 → Bool} {bs : List UInt8} (h : bs.takeWhile p ≠ []) :
    (bs.dropWhile p).length < bs.length := by
  have hlen := congrArg List.length (List.takeWhile_append_dropWhile (p := p) (l := bs))
  have hpos := List.length_pos_of_ne_nil h
  rw [List.length_append] at hlen
  omega

/-- The longest run of digits. -/
def readDigits (radix : ℕ) (digit : UInt8 → Bool) (invalid : ParseFailure) :
    Reader UInt8 ParseFailure Token := fun bs =>
  match hv : fromStrRadix radix (bs.takeWhile digit) with
  | some value =>
    .ok (.number value, ⟨bs.dropWhile digit, dropWhile_length_lt (ne_nil_of_fromStrRadix hv)⟩)
  | none => .error invalid

/-- A number that starts at the position `start`. -/
def readNumber (start : ℕ) : Reader UInt8 ParseFailure Token := fun bs =>
  match bs with
  | zero :: x :: digits =>
    if zero = '0'.toUInt8 ∧ (x = 'x'.toUInt8 ∨ x = 'X'.toUInt8) then
      past zero (past x (readDigits 16 isHexDigit (.invalidHex start) digits))
    else readDigits 10 isDigit (.invalidDecimal start) (zero :: x :: digits)
  | bs => readDigits 10 isDigit (.invalidDecimal start) bs

/-- An identifier up to its closing delimiter; `bs` starts with the opening one. -/
def readDelimited (close : Char) (unclosed : ParseFailure) : Reader UInt8 ParseFailure Token :=
  fun bs =>
    match h : bs.tail.dropWhile (· != close.toUInt8) with
    | [] => .error unclosed
    | _ :: rest => .ok (.identifier (fromUtf8 (bs.tail.takeWhile (· != close.toUInt8))), ⟨rest, by
        have hle := (List.dropWhile_suffix (l := bs.tail) (· != close.toUInt8)).length_le
        rw [h, List.length_cons, List.length_tail] at hle
        omega⟩)

def readAngleIdentifier : Reader UInt8 ParseFailure Token := readDelimited '>' .unclosedAngle

def readQuotedIdentifier : Reader UInt8 ParseFailure Token := readDelimited '"' .unclosedQuote

/-- One token of text that does not start with whitespace. -/
def readToken (start : ℕ) (ch : UInt8) (bs : List UInt8) :
    Except ParseFailure (Token × Rest (ch :: bs)) :=
  let single (tok : Token) : Except ParseFailure (Token × Rest (ch :: bs)) :=
    .ok (tok, ⟨bs, Nat.lt_succ_self _⟩)
  match Char.ofUInt8 ch with
  | '+' => single .plus
  | '-' => single .minus
  | '*' => single .star
  | '/' => single .slash
  | '%' => single .percent
  | '(' => single .openParen
  | ')' => single .closeParen
  | '[' => single .openBracket
  | ']' => single .closeBracket
  | '<' => readAngleIdentifier (ch :: bs)
  | '"' => readQuotedIdentifier (ch :: bs)
  | c => if isDigit ch then readNumber start (ch :: bs) else .error (.unexpectedCharacter c)

/-- The tokens of a suffix of a text of `size` bytes. -/
def tokenizeFrom (size : ℕ) (bs : List UInt8) : Except ParseFailure (List Token) :=
  match _h : skipWhitespace bs with
  | [] => .ok []
  | ch :: tail => do
    let (tok, rest) ← readToken (size - (ch :: tail).length) ch tail
    let toks ← tokenizeFrom size rest.1
    .ok (tok :: toks)
termination_by bs.length
decreasing_by
  have hle := (List.dropWhile_suffix (l := bs) isWhitespace).length_le
  rw [show bs.dropWhile isWhitespace = ch :: tail from _h] at hle
  exact Nat.lt_of_lt_of_le rest.2 hle

end Tokenizer

def tokenize (input : String) : Except ParseFailure (List Token) :=
  Tokenizer.tokenizeFrom (Utf8.bytes input).length (Utf8.bytes input)

end Nemclass.Address
