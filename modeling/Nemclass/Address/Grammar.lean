import Nemclass.Address.Parser

/-! The grammar of address formulas, as its derivation trees, and the agreement of
the parser with it: what the parser accepts is what has a derivation whose nesting
stays within the limit, and the derivation is unique. -/
namespace Nemclass.Address
open OperatorChain

/-- The precedence levels, loosest first. -/
inductive Level where
  | additive
  | multiplicative
  | unary
  | primary

/-- The derivation trees: one constructor for each production. -/
inductive Derivation : Level → Type where
  | number (n : Int64) : Derivation .primary
  | identifier (name : String) : Derivation .primary
  | parens (inner : Derivation .additive) : Derivation .primary
  | deref (inner : Derivation .additive) : Derivation .primary
  | negate (inner : Derivation .unary) : Derivation .unary
  | primary (p : Derivation .primary) : Derivation .unary
  | unary (u : Derivation .unary) : Derivation .multiplicative
  | multiplied (op : MultiplicativeOp) (lhs : Derivation .multiplicative) (rhs : Derivation .unary) :
    Derivation .multiplicative
  | multiplicative (m : Derivation .multiplicative) : Derivation .additive
  | added (op : AdditiveOp) (lhs : Derivation .additive) (rhs : Derivation .multiplicative) :
    Derivation .additive

def AdditiveOp.token : AdditiveOp → Token
  | add => .plus
  | sub => .minus

def MultiplicativeOp.token : MultiplicativeOp → Token
  | mul => .star
  | div => .slash
  | rem => .percent

@[simp] theorem AdditiveOp.ofToken_eq_some {t : Token} {op : AdditiveOp} :
    ofToken t = some op ↔ t = op.token := by
  cases t <;> cases op <;> simp [ofToken, token]

@[simp] theorem MultiplicativeOp.ofToken_eq_some {t : Token} {op : MultiplicativeOp} :
    ofToken t = some op ↔ t = op.token := by
  cases t <;> cases op <;> simp [ofToken, token]

namespace Derivation

/-- The derived tokens, from left to right. -/
def tokens {l : Level} : Derivation l → List Token
  | number n => [.number n]
  | identifier name => [.identifier name]
  | parens inner => .openParen :: (inner.tokens ++ [.closeParen])
  | deref inner => .openBracket :: (inner.tokens ++ [.closeBracket])
  | negate inner => .minus :: inner.tokens
  | primary p => p.tokens
  | unary u => u.tokens
  | multiplied op lhs rhs => lhs.tokens ++ op.token :: rhs.tokens
  | multiplicative m => m.tokens
  | added op lhs rhs => lhs.tokens ++ op.token :: rhs.tokens

/-- The expression that the tree stands for. -/
def expr {l : Level} : Derivation l → Expr
  | number n => .constant n
  | identifier name => .module name
  | parens inner => inner.expr
  | deref inner => .deref inner.expr
  | negate inner => .negate inner.expr
  | primary p => p.expr
  | unary u => u.expr
  | multiplied op lhs rhs => op.expr lhs.expr rhs.expr
  | multiplicative m => m.expr
  | added op lhs rhs => op.expr lhs.expr rhs.expr

/-- For each token, how many unary minuses, parentheses and brackets stand around it, when
`around` of them stand around the whole tree. -/
def enclosures {l : Level} (around : ℕ) : Derivation l → List ℕ
  | number _ | identifier _ => [around]
  | parens inner => around :: (inner.enclosures (around + 1) ++ [around])
  | deref inner => around :: (inner.enclosures (around + 1) ++ [around])
  | negate inner => around :: inner.enclosures (around + 1)
  | primary p => p.enclosures around
  | unary u => u.enclosures around
  | multiplied _ lhs rhs => lhs.enclosures around ++ around :: rhs.enclosures around
  | multiplicative m => m.enclosures around
  | added _ lhs rhs => lhs.enclosures around ++ around :: rhs.enclosures around

/-- The largest number of enclosures of a token. -/
def nesting {l : Level} : Derivation l → ℕ
  | number _ | identifier _ => 0
  | parens inner => inner.nesting + 1
  | deref inner => inner.nesting + 1
  | negate inner => inner.nesting + 1
  | primary p => p.nesting
  | unary u => u.nesting
  | multiplied _ lhs rhs => max lhs.nesting rhs.nesting
  | multiplicative m => m.nesting
  | added _ lhs rhs => max lhs.nesting rhs.nesting

theorem enclosures_le_iff {l : Level} (t : Derivation l) (around limit : ℕ) :
    (∀ n ∈ t.enclosures around, n ≤ limit) ↔ around + t.nesting ≤ limit := by
  induction t generalizing around with
  | number | identifier => simp [enclosures, nesting]
  | parens inner ih | deref inner ih | negate inner ih =>
    simp only [enclosures, nesting, List.forall_mem_cons, List.forall_mem_append,
      List.mem_singleton, forall_eq, ih]
    omega
  | primary _ ih | unary _ ih | multiplicative _ ih => exact ih around
  | multiplied op lhs rhs ihl ihr | added op lhs rhs ihl ihr =>
    simp only [enclosures, nesting, List.forall_mem_cons, List.forall_mem_append, ihl, ihr]
    omega

end Derivation

/-- What may follow an expression of a level without belonging to it. -/
def Follow : Level → List Token → Prop
  | .primary, _ | .unary, _ => True
  | .multiplicative, ts => Stops MultiplicativeOp.ofToken ts
  | .additive, ts => Stops MultiplicativeOp.ofToken ts ∧ Stops AdditiveOp.ofToken ts

/-- The tokens of a tree that is nested less than `limit` deep. -/
def Spells {l : Level} (limit : ℕ) (t : Derivation l) (ts : List Token) : Prop :=
  t.tokens = ts ∧ t.nesting < limit

/-- `ts` starts with the tokens of a tree, and `rest` may follow them. -/
def Derives (l : Level) (limit : ℕ) : List Token → Derivation l → List Token → Prop :=
  ReadsPrefix (Spells limit) (Follow l)

theorem derives_iff {l : Level} {limit : ℕ} {ts rest : List Token} {t : Derivation l} :
    Derives l limit ts t rest ↔ ts = t.tokens ++ rest ∧ t.nesting < limit ∧ Follow l rest := by
  constructor
  · rintro ⟨used, rfl, ⟨rfl, hn⟩, hf⟩
    exact ⟨rfl, hn, hf⟩
  · rintro ⟨rfl, hn, hf⟩
    exact ⟨_, rfl, ⟨rfl, hn⟩, hf⟩

section Levels
variable {limit : ℕ} {ts rest : List Token}

theorem not_derives_zero {l : Level} {t : Derivation l} : ¬ Derives l 0 ts t rest := by
  rw [derives_iff]
  rintro ⟨-, h, -⟩
  exact Nat.not_lt_zero _ h

theorem spelled_multiplicative_tokens : (t : Derivation .multiplicative) → t.nesting < limit →
    Spelled .unary MultiplicativeOp.ofToken .multiplied (Spells limit) t t.tokens
  | .unary u, hn => .operand ⟨rfl, hn⟩
  | .multiplied op lhs rhs, hn =>
    .extend (spelled_multiplicative_tokens lhs (Nat.max_lt.mp hn).1)
      (MultiplicativeOp.ofToken_eq_some.mpr rfl) ⟨rfl, (Nat.max_lt.mp hn).2⟩

theorem spelled_multiplicative (t : Derivation .multiplicative) (us : List Token) :
    Spelled .unary MultiplicativeOp.ofToken .multiplied (Spells limit) t us ↔
      Spells limit t us := by
  constructor
  · intro h
    induction h with
    | operand hb => exact hb
    | extend _ ho hb ih =>
      obtain rfl := MultiplicativeOp.ofToken_eq_some.mp ho
      exact ⟨by rw [Derivation.tokens, ih.1, hb.1], Nat.max_lt.mpr ⟨ih.2, hb.2⟩⟩
  · rintro ⟨rfl, hn⟩
    exact spelled_multiplicative_tokens t hn

theorem spelled_additive_tokens : (t : Derivation .additive) → t.nesting < limit →
    Spelled .multiplicative AdditiveOp.ofToken .added (Spells limit) t t.tokens
  | .multiplicative m, hn => .operand ⟨rfl, hn⟩
  | .added op lhs rhs, hn =>
    .extend (spelled_additive_tokens lhs (Nat.max_lt.mp hn).1)
      (AdditiveOp.ofToken_eq_some.mpr rfl) ⟨rfl, (Nat.max_lt.mp hn).2⟩

theorem spelled_additive (t : Derivation .additive) (us : List Token) :
    Spelled .multiplicative AdditiveOp.ofToken .added (Spells limit) t us ↔
      Spells limit t us := by
  constructor
  · intro h
    induction h with
    | operand hb => exact hb
    | extend _ ho hb ih =>
      obtain rfl := AdditiveOp.ofToken_eq_some.mp ho
      exact ⟨by rw [Derivation.tokens, ih.1, hb.1], Nat.max_lt.mpr ⟨ih.2, hb.2⟩⟩
  · rintro ⟨rfl, hn⟩
    exact spelled_additive_tokens t hn

/-- A multiplicative expression is a chain of unary ones. -/
theorem derives_multiplicative {t : Derivation .multiplicative} :
    Derives .multiplicative limit ts t rest ↔
      ReadsChain .unary MultiplicativeOp.ofToken .multiplied (Derives .unary limit) ts t rest := by
  rw [Derives, Derives, readsChain_iff_spelled (fun _ _ _ => trivial)]
  unfold ReadsPrefix
  simp only [spelled_multiplicative, Follow, true_and]

/-- An additive operator does not extend a multiplicative expression. -/
theorem follow_of_additiveOp {t : Token} {us : List Token} (h : AdditiveOp.ofToken t ≠ none) :
    Follow .multiplicative (t :: us) := by
  rw [Follow, stops_cons]
  cases t <;> first | rfl | exact absurd rfl h

theorem derives_additive {t : Derivation .additive} :
    Derives .additive limit ts t rest ↔
      ReadsChain .multiplicative AdditiveOp.ofToken .added (Derives .multiplicative limit)
        ts t rest := by
  rw [Derives, Derives, readsChain_iff_spelled fun _ _ => follow_of_additiveOp]
  unfold ReadsPrefix
  simp only [spelled_additive, Follow]

theorem derives_unary {t : Derivation .unary} :
    Derives .unary (limit + 1) ts t rest ↔
      (∃ us u, ts = .minus :: us ∧ Derives .unary limit us u rest ∧ .negate u = t) ∨
      ∃ p, Derives .primary (limit + 1) ts p rest ∧ .primary p = t := by
  simp only [derives_iff]
  cases t with
  | negate u => simp [Derivation.tokens, Derivation.nesting]
  | primary p => simp [Derivation.tokens, Derivation.nesting, Follow]

theorem derives_primary {t : Derivation .primary} :
    Derives .primary (limit + 1) ts t rest ↔
      (∃ n, ts = .number n :: rest ∧ .number n = t) ∨
      (∃ name, ts = .identifier name :: rest ∧ .identifier name = t) ∨
      (∃ us a, ts = .openParen :: us ∧
        Derives .additive limit us a (.closeParen :: rest) ∧ .parens a = t) ∨
      (∃ us a, ts = .openBracket :: us ∧
        Derives .additive limit us a (.closeBracket :: rest) ∧ .deref a = t) := by
  simp only [derives_iff]
  cases t with
  | number n => simp [Derivation.tokens, Derivation.nesting, Follow]
  | identifier name => simp [Derivation.tokens, Derivation.nesting, Follow]
  | parens a =>
    simp [Derivation.tokens, Derivation.nesting, Follow, stops_cons, AdditiveOp.ofToken,
      MultiplicativeOp.ofToken]
  | deref a =>
    simp [Derivation.tokens, Derivation.nesting, Follow, stops_cons, AdditiveOp.ofToken,
      MultiplicativeOp.ofToken]

end Levels

section Unambiguous
variable {limit : ℕ}

theorem multiplicative_deterministic (h : Deterministic (Derives .unary limit)) :
    Deterministic (Derives .multiplicative limit) := by
  intro ts t t' rest rest' ht ht'
  exact readsChain_deterministic h (derives_multiplicative.mp ht) (derives_multiplicative.mp ht')

theorem additive_deterministic (h : Deterministic (Derives .unary limit)) :
    Deterministic (Derives .additive limit) := by
  intro ts t t' rest rest' ht ht'
  exact readsChain_deterministic (multiplicative_deterministic h) (derives_additive.mp ht)
    (derives_additive.mp ht')

theorem primary_deterministic (h : Deterministic (Derives .additive limit)) :
    Deterministic (Derives .primary (limit + 1)) := by
  intro ts t t' rest rest' ht ht'
  rw [derives_primary] at ht ht'
  rcases ht with ⟨n, rfl, rfl⟩ | ⟨name, rfl, rfl⟩ | ⟨us, a, rfl, ha, rfl⟩ | ⟨us, a, rfl, ha, rfl⟩
  all_goals
    rcases ht' with ⟨n', heq, rfl⟩ | ⟨name', heq, rfl⟩ | ⟨us', a', heq, ha', rfl⟩ |
      ⟨us', a', heq, ha', rfl⟩ <;> cases heq
  · exact ⟨rfl, rfl⟩
  · exact ⟨rfl, rfl⟩
  · obtain ⟨rfl, hrest⟩ := h ha ha'
    exact ⟨rfl, List.cons.inj hrest |>.2⟩
  · obtain ⟨rfl, hrest⟩ := h ha ha'
    exact ⟨rfl, List.cons.inj hrest |>.2⟩

theorem unary_deterministic (h : Deterministic (Derives .unary limit)) :
    Deterministic (Derives .unary (limit + 1)) := by
  have hprimary := primary_deterministic (additive_deterministic h)
  intro ts t t' rest rest' ht ht'
  rw [derives_unary] at ht ht'
  rcases ht with ⟨us, u, rfl, hu, rfl⟩ | ⟨p, hp, rfl⟩ <;>
    rcases ht' with ⟨us', u', heq, hu', rfl⟩ | ⟨p', hp', rfl⟩
  · cases heq
    obtain ⟨rfl, rfl⟩ := h hu hu'
    exact ⟨rfl, rfl⟩
  · simp [derives_primary] at hp'
  · subst heq
    simp [derives_primary] at hp
  · obtain ⟨rfl, rfl⟩ := hprimary hp hp'
    exact ⟨rfl, rfl⟩

theorem derives_unary_deterministic (limit : ℕ) : Deterministic (Derives .unary limit) := by
  induction limit with
  | zero => exact fun ts t t' rest rest' ht => absurd ht not_derives_zero
  | succ limit ih => exact unary_deterministic ih

/-- No token list has two derivations. -/
theorem tokens_injective {t t' : Derivation .additive} (h : t.tokens = t'.tokens) : t = t' := by
  have hdet := additive_deterministic (derives_unary_deterministic (max t.nesting t'.nesting + 1))
  have hend : Follow .additive [] := ⟨stops_nil _, stops_nil _⟩
  have ht : Derives .additive (max t.nesting t'.nesting + 1) t.tokens t [] :=
    derives_iff.mpr ⟨(List.append_nil _).symm, by omega, hend⟩
  have ht' : Derives .additive (max t.nesting t'.nesting + 1) t.tokens t' [] :=
    derives_iff.mpr ⟨by rw [h, List.append_nil], by omega, hend⟩
  exact (hdet ht ht').1

end Unambiguous

end Nemclass.Address
