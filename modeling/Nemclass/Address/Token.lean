import Nemclass.Lib.Utf8

/-! The tokens of an address formula, and what can be wrong with one. -/
namespace Nemclass.Address

inductive Token where
  | number (n : Int64)
  | identifier (name : String)
  | plus
  | minus
  | star
  | slash
  | percent
  | openParen
  | closeParen
  | openBracket
  | closeBracket
deriving DecidableEq

namespace Token

/-- The derived `Debug` text, given how a string is quoted. -/
def debug (quote : String → String) : Token → String
  | number n => s!"Number({n.toInt})"
  | identifier name => s!"Identifier({quote name})"
  | plus => "Plus"
  | minus => "Minus"
  | star => "Star"
  | slash => "Slash"
  | percent => "Percent"
  | openParen => "OpenParen"
  | closeParen => "CloseParen"
  | openBracket => "OpenBracket"
  | closeBracket => "CloseBracket"

end Token

/-- What the tokenizer and the parser report. -/
inductive ParseFailure where
  | invalidHex (start : ℕ)
  | invalidDecimal (start : ℕ)
  | unclosedAngle
  | unclosedQuote
  | unexpectedCharacter (ch : Char)
  | expectedToken (expected got : Token)
  | expectedBeforeEnd (expected : Token)
  | nestedTooDeeply
  | unexpectedToken (tok : Token)
  | unexpectedEnd
  | trailing (index : ℕ) (tok : Token)
deriving DecidableEq

namespace ParseFailure

/-- The message text. -/
def text (quote : String → String) : ParseFailure → String
  | invalidHex start => s!"invalid hex number at pos {start}"
  | invalidDecimal start => s!"invalid decimal number at pos {start}"
  | unclosedAngle => "unclosed '<' in identifier"
  | unclosedQuote => "unclosed '\"' in identifier"
  | unexpectedCharacter ch => s!"unexpected character '{ch}'"
  | expectedToken expected got => s!"expected {expected.debug quote}, got {got.debug quote}"
  | expectedBeforeEnd expected => s!"expected {expected.debug quote}, got end of input"
  | nestedTooDeeply => "expression nested too deeply"
  | unexpectedToken tok => s!"unexpected token: {tok.debug quote}"
  | unexpectedEnd => "unexpected end of input"
  | trailing index tok => s!"trailing tokens starting at index {index}: {tok.debug quote}"

end ParseFailure

end Nemclass.Address
