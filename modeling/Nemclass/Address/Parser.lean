import Nemclass.Address.Tokenizer

/-! The recursive-descent parser of address formulas. The nesting depth is counted
on the way down and bounded, so that every procedure ends; the cursor is the list
of tokens still unread. -/
namespace Nemclass.Address
open Model OperatorChain

inductive Expr where
  | constant (n : Int64)
  | module (name : String)
  | add (lhs rhs : Expr)
  | sub (lhs rhs : Expr)
  | mul (lhs rhs : Expr)
  | div (lhs rhs : Expr)
  | rem (lhs rhs : Expr)
  | negate (inner : Expr)
  | deref (inner : Expr)
deriving DecidableEq

inductive AdditiveOp where
  | add
  | sub
deriving DecidableEq

inductive MultiplicativeOp where
  | mul
  | div
  | rem
deriving DecidableEq

namespace AdditiveOp

def ofToken : Token → Option AdditiveOp
  | .plus => some add
  | .minus => some sub
  | _ => none

def expr : AdditiveOp → Expr → Expr → Expr
  | add => .add
  | sub => .sub

end AdditiveOp

namespace MultiplicativeOp

def ofToken : Token → Option MultiplicativeOp
  | .star => some mul
  | .slash => some div
  | .percent => some rem
  | _ => none

def expr : MultiplicativeOp → Expr → Expr → Expr
  | mul => .mul
  | div => .div
  | rem => .rem

end MultiplicativeOp

namespace Parser

def maxDepth : ℕ := 128

/-- The next token must be `expected`. -/
def expect (expected : Token) : (ts : List Token) → Except ParseFailure (Rest ts)
  | [] => .error (.expectedBeforeEnd expected)
  | t :: ts =>
    if t = expected then .ok ⟨ts, Nat.lt_succ_self _⟩ else .error (.expectedToken expected t)

/-- What an opening token starts: the expression up to the closing one. -/
def enclosed (inner : Reader Token ParseFailure Expr) (close : Token) (wrap : Expr → Expr)
    (ts : List Token) : Except ParseFailure (Expr × Rest ts) := do
  let (e, mid) ← inner ts
  let rest ← expect close mid.1
  .ok (wrap e, ⟨rest.1, Nat.lt_trans rest.2 mid.2⟩)

/-- The error where no primary expression starts. -/
def unexpected : List Token → ParseFailure
  | tok :: _ => .unexpectedToken tok
  | [] => .unexpectedEnd

mutual

def parseAdditive (depth : ℕ) : Reader Token ParseFailure Expr :=
  leftAssoc id AdditiveOp.ofToken AdditiveOp.expr fun ts => parseMultiplicative depth ts
termination_by (maxDepth + 1 - depth, 3)

def parseMultiplicative (depth : ℕ) : Reader Token ParseFailure Expr :=
  leftAssoc id MultiplicativeOp.ofToken MultiplicativeOp.expr fun ts => parseUnary depth ts
termination_by (maxDepth + 1 - depth, 2)

def parseUnary (depth : ℕ) : Reader Token ParseFailure Expr := fun ts =>
  if maxDepth < depth then .error .nestedTooDeeply
  else
    match ts with
    | .minus :: ts => past .minus do
      let (inner, rest) ← parseUnary (depth + 1) ts
      .ok (.negate inner, rest)
    | ts => parsePrimary depth ts
termination_by (maxDepth + 1 - depth, 1)

def parsePrimary (depth : ℕ) : Reader Token ParseFailure Expr := fun ts =>
  if maxDepth < depth then .error .nestedTooDeeply
  else
    match ts with
    | .number n :: ts => .ok (.constant n, ⟨ts, Nat.lt_succ_self _⟩)
    | .identifier name :: ts => .ok (.module name, ⟨ts, Nat.lt_succ_self _⟩)
    | .openParen :: ts =>
      past .openParen (enclosed (fun ts => parseAdditive (depth + 1) ts) .closeParen id ts)
    | .openBracket :: ts =>
      past .openBracket (enclosed (fun ts => parseAdditive (depth + 1) ts) .closeBracket .deref ts)
    | ts => .error (unexpected ts)
termination_by (maxDepth + 1 - depth, 0)

end

def parseExpr : Reader Token ParseFailure Expr := parseAdditive 0

/-- Nothing may follow the expression. -/
def finish (tokens rest : List Token) : Except ParseFailure Unit :=
  match rest with
  | [] => .ok ()
  | tok :: _ => .error (.trailing (tokens.length - rest.length) tok)

/-- `parse_expr` followed by `finish`. -/
def parseTokens (tokens : List Token) : Except ParseFailure Expr := do
  let (expr, rest) ← parseExpr tokens
  finish tokens rest.1
  .ok expr

end Parser

def parseFormula (input : String) : Except ParseFailure Expr := do
  let tokens ← tokenize input
  Parser.parseTokens tokens

/-- `address::parse`. -/
def parse (input : String) : Except ModelError Expr :=
  (parseFormula input).mapError .parseError

end Nemclass.Address
