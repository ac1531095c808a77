import Mathlib.Data.Set.Basic
import Mathlib.Tactic.Ring
import Nemclass.Address.Lexing
import Nemclass.Address.ParserGrammar

/-! How high a parsed expression is, which is how deep its evaluation recurses. The
limit on the nesting bounds the height together with the longest chain of operators
of one level; it does not bound the height alone. -/
namespace Nemclass.Address
open OperatorChain Outcome Tokenizer

namespace Expr

/-- The recursion depth of a walk over the tree. -/
def height : Expr → ℕ
  | constant _ | module _ => 1
  | add lhs rhs | sub lhs rhs | mul lhs rhs | div lhs rhs | rem lhs rhs =>
    max lhs.height rhs.height + 1
  | negate inner | deref inner => inner.height + 1

end Expr

theorem AdditiveOp.height_expr (op : AdditiveOp) (lhs rhs : Expr) :
    (op.expr lhs rhs).height = max lhs.height rhs.height + 1 := by cases op <;> rfl

theorem MultiplicativeOp.height_expr (op : MultiplicativeOp) (lhs rhs : Expr) :
    (op.expr lhs rhs).height = max lhs.height rhs.height + 1 := by cases op <;> rfl

namespace Derivation

/-- The operators of the outermost chain. -/
def links {l : Level} : Derivation l → ℕ
  | multiplied _ lhs _ => lhs.links + 1
  | added _ lhs _ => lhs.links + 1
  | _ => 0

/-- The most operators of one level that stand in one chain, inside brackets or not. -/
def longestChain {l : Level} : Derivation l → ℕ
  | number _ | identifier _ => 0
  | parens inner => inner.longestChain
  | deref inner => inner.longestChain
  | negate inner => inner.longestChain
  | primary p => p.longestChain
  | unary u => u.longestChain
  | multiplicative m => m.longestChain
  | multiplied _ lhs rhs => max (lhs.links + 1) (max lhs.longestChain rhs.longestChain)
  | added _ lhs rhs => max (lhs.links + 1) (max lhs.longestChain rhs.longestChain)

theorem links_le {l : Level} (t : Derivation l) : t.links ≤ t.longestChain := by
  cases t with
  | multiplied op lhs rhs | added op lhs rhs =>
    rw [links, longestChain]
    exact Nat.le_max_left _ _
  | _ => exact Nat.zero_le _

theorem links_lt_height {l : Level} (t : Derivation l) : t.links < t.expr.height := by
  induction t with
  | multiplied op lhs rhs ihl _ =>
    rw [links, expr, MultiplicativeOp.height_expr]
    omega
  | added op lhs rhs ihl _ =>
    rw [links, expr, AdditiveOp.height_expr]
    omega
  | parens inner ih | primary _ ih | unary _ ih | multiplicative _ ih =>
    exact Nat.lt_of_le_of_lt (Nat.zero_le _) ih
  | number | identifier | deref | negate => exact Nat.succ_pos _

/-- A chain is no longer than the tree is high. -/
theorem longestChain_lt_height {l : Level} (t : Derivation l) :
    t.longestChain < t.expr.height := by
  induction t with
  | multiplied op lhs rhs ihl ihr =>
    have hl := lhs.links_lt_height
    rw [longestChain, expr, MultiplicativeOp.height_expr]
    omega
  | added op lhs rhs ihl ihr =>
    have hl := lhs.links_lt_height
    rw [longestChain, expr, AdditiveOp.height_expr]
    omega
  | parens inner ih | primary _ ih | unary _ ih | multiplicative _ ih => exact ih
  | number | identifier => exact Nat.succ_pos _
  | deref inner ih | negate inner ih => exact Nat.lt_succ_of_lt ih

/-- What the operators of the outermost level, and of the level below it, may add to the height
when no chain has more than `k` of them. -/
def slack {l : Level} (k : ℕ) (t : Derivation l) : ℕ :=
  match l with
  | .additive => k + t.links
  | .multiplicative => t.links
  | .unary | .primary => 0

theorem slack_le {l : Level} {k : ℕ} (t : Derivation l) (hk : t.longestChain ≤ k) :
    t.slack k ≤ 2 * k := by
  have hlinks := t.links_le
  unfold slack
  split <;> omega

/-- One level of nesting adds at most two full chains and itself to the height. -/
theorem height_le {l : Level} {k : ℕ} (t : Derivation l) (hk : t.longestChain ≤ k) :
    t.expr.height ≤ t.nesting * (2 * k + 1) + 1 + t.slack k := by
  induction t with
  | number | identifier =>
    rw [expr, Expr.height]
    omega
  | parens inner ih | deref inner ih | negate inner ih =>
    have h := ih hk
    have hslack := inner.slack_le hk
    have hmul := Nat.add_one_mul inner.nesting (2 * k + 1)
    simp only [longestChain] at hk
    simp only [expr, Expr.height, nesting, slack, hmul]
    omega
  | primary p ih => exact ih hk
  | unary u ih => exact ih hk
  | multiplicative m ih =>
    have h := ih hk
    simp only [expr, nesting, slack, links] at h ⊢
    have hlinks := m.links_le.trans hk
    omega
  | multiplied op lhs rhs ihl ihr =>
    simp only [longestChain, Nat.max_le] at hk
    have hl := ihl hk.2.1
    have hr := ihr hk.2.2
    have hnl := Nat.mul_le_mul_right (2 * k + 1) (Nat.le_max_left lhs.nesting rhs.nesting)
    have hnr := Nat.mul_le_mul_right (2 * k + 1) (Nat.le_max_right lhs.nesting rhs.nesting)
    simp only [expr, nesting, slack, links, MultiplicativeOp.height_expr] at hl hr ⊢
    omega
  | added op lhs rhs ihl ihr =>
    simp only [longestChain, Nat.max_le] at hk
    have hl := ihl hk.2.1
    have hr := ihr hk.2.2
    have hlinks := rhs.links_le.trans hk.2.2
    have hnl := Nat.mul_le_mul_right (2 * k + 1) (Nat.le_max_left lhs.nesting rhs.nesting)
    have hnr := Nat.mul_le_mul_right (2 * k + 1) (Nat.le_max_right lhs.nesting rhs.nesting)
    simp only [expr, nesting, slack, links, AdditiveOp.height_expr] at hl hr ⊢
    omega

end Derivation

/-- In every derivation of the text within the nesting limit, no chain has more than `k`
operators. -/
def ChainsWithin (k : ℕ) (input : String) : Prop :=
  ∀ t : Derivation .additive, tokenize input = .ok t.tokens → t.nesting ≤ Parser.maxDepth →
    t.longestChain ≤ k

theorem parse_eq_ok {input : String} {e : Expr} :
    parse input = .ok e ↔
      ∃ tokens, tokenize input = .ok tokens ∧ Parser.parseTokens tokens = .ok e := by
  rw [parse, mapError_eq_ok, parseFormula]
  exact bind_eq_ok

theorem parse_iff {input : String} {e : Expr} :
    parse input = .ok e ↔ ∃ t : Derivation .additive, tokenize input = .ok t.tokens ∧
      t.nesting ≤ Parser.maxDepth ∧ t.expr = e := by
  rw [parse_eq_ok]
  constructor
  · rintro ⟨tokens, htok, hparse⟩
    obtain ⟨t, rfl, hn, he⟩ := Parser.parseTokens_iff.mp hparse
    exact ⟨t, htok, hn, he⟩
  · rintro ⟨t, htok, hn, he⟩
    exact ⟨t.tokens, htok, Parser.parseTokens_iff.mpr ⟨t, rfl, hn, he⟩⟩

/-- The heights of the accepted formulas of a set are bounded exactly if the chains in them are. -/
theorem heights_bounded_iff (formulas : Set String) :
    (∃ bound, ∀ input ∈ formulas, ∀ e, parse input = .ok e → e.height ≤ bound) ↔
      ∃ k, ∀ input ∈ formulas, ChainsWithin k input := by
  constructor
  · rintro ⟨bound, hbound⟩
    refine ⟨bound, fun input hinput t htok hn => ?_⟩
    have hheight := hbound input hinput t.expr (parse_iff.mpr ⟨t, htok, hn, rfl⟩)
    exact (t.longestChain_lt_height.trans_le hheight).le
  · rintro ⟨k, hk⟩
    refine ⟨Parser.maxDepth * (2 * k + 1) + 1 + 2 * k, fun input hinput e he => ?_⟩
    obtain ⟨t, htok, hn, rfl⟩ := parse_iff.mp he
    have hchain := hk input hinput t htok hn
    have hmul := Nat.mul_le_mul_right (2 * k + 1) hn
    have hslack := t.slack_le hchain
    exact (t.height_le hchain).trans (by omega)

section Sums

/-- `1+1+…+1`, with `n` additions. -/
def sumFormula : ℕ → String
  | 0 => "1"
  | n + 1 => sumFormula n ++ "+1"

def sumDerivation : ℕ → Derivation .additive
  | 0 => .multiplicative (.unary (.primary (.number 1)))
  | n + 1 => .added .add (sumDerivation n) (.unary (.primary (.number 1)))

theorem sum_lexes (n : ℕ) {bs : List UInt8} {toks : List Token}
    (hbs : ∀ b ∈ bs.head?, isDigit b = false) (h : Lexes bs toks) :
    Lexes (Utf8.bytes (sumFormula n) ++ bs) ((sumDerivation n).tokens ++ toks) := by
  induction n generalizing bs toks with
  | zero => exact h.one hbs
  | succ n ih =>
    rw [sumFormula, Utf8.bytes_append, List.append_assoc, sumDerivation, Derivation.tokens,
      List.append_assoc]
    refine ih (fun b hb => ?_) (h.one hbs).plus
    cases hb
    rfl

theorem tokenize_sum (n : ℕ) : tokenize (sumFormula n) = .ok (sumDerivation n).tokens := by
  have h := sum_lexes n (by simp) Lexes.nil
  rw [List.append_nil, List.append_nil] at h
  exact h _

theorem sum_nesting (n : ℕ) : (sumDerivation n).nesting = 0 := by
  induction n with
  | zero => rfl
  | succ n ih => simp [sumDerivation, Derivation.nesting, ih]

theorem sum_links (n : ℕ) : (sumDerivation n).links = n := by
  induction n with
  | zero => rfl
  | succ n ih => rw [sumDerivation, Derivation.links, ih]

/-- No height bounds the expressions of all accepted formulas. -/
theorem heights_unbounded :
    ¬ ∃ bound, ∀ input e, parse input = .ok e → e.height ≤ bound := by
  rintro ⟨bound, hbound⟩
  have hparse : parse (sumFormula bound) = .ok (sumDerivation bound).expr :=
    parse_iff.mpr ⟨_, tokenize_sum bound, by rw [sum_nesting]; exact Nat.zero_le _, rfl⟩
  have hle := hbound _ _ hparse
  have hlt := (sumDerivation bound).links_lt_height
  rw [sum_links] at hlt
  omega

end Sums

end Nemclass.Address
