import Nemclass.Address.Grammar

/-! The parser reads exactly the derivations of the grammar. One level of nesting
is spent by each unary minus, parenthesis and bracket; the levels still available
at a depth are those that the guard leaves. -/
namespace Nemclass.Address
open OperatorChain Outcome

/-- A procedure of the parser reads what a level derives with `limit` levels of nesting left. -/
def Agrees (l : Level) (limit : ℕ) (r : Reader Token ParseFailure Expr) : Prop :=
  ∀ ts e rest, r.Reads ts e rest ↔ ∃ t : Derivation l, Derives l limit ts t rest ∧ t.expr = e

namespace Parser

section Reads
variable {ts rest : List Token} {e : Expr}

theorem expect_eq_ok {tok : Token} {r : Rest ts} : expect tok ts = .ok r ↔ ts = tok :: r.1 := by
  cases ts with
  | nil => simp [expect]
  | cons t ts =>
    by_cases ht : t = tok
    · simp [expect, ht, Subtype.ext_iff]
    · simp [expect, ht]

theorem yields_enclosed {inner : Reader Token ParseFailure Expr} {close : Token}
    {wrap : Expr → Expr} :
    Yields (enclosed inner close wrap ts) e rest ↔
      ∃ e₀, inner.Reads ts e₀ (close :: rest) ∧ wrap e₀ = e := by
  unfold enclosed
  rw [yields_bind_read]
  constructor
  · rintro ⟨e₀, mid, hmid, hread, hclose⟩
    obtain ⟨rest', hexpect, hout⟩ := yields_bind.mp hclose
    obtain ⟨rfl, rfl⟩ := yields_ok.mp hout
    have hcut : mid = close :: rest'.1 := expect_eq_ok.mp hexpect
    refine ⟨e₀, ?_, rfl⟩
    change inner.Reads ts e₀ (close :: rest'.1)
    rw [← hcut]
    exact ⟨hmid, hread⟩
  · rintro ⟨e₀, ⟨hmid, hread⟩, rfl⟩
    refine ⟨e₀, close :: rest, hmid, hread, yields_bind.mpr ⟨⟨rest, Nat.lt_succ_self _⟩, ?_⟩⟩
    exact ⟨expect_eq_ok.mpr rfl, yields_ok.mpr ⟨rfl, rfl⟩⟩

theorem parsePrimary_reads {depth : ℕ} (hd : depth ≤ maxDepth) :
    (parsePrimary depth).Reads ts e rest ↔
      (∃ n, ts = .number n :: rest ∧ .constant n = e) ∨
      (∃ name, ts = .identifier name :: rest ∧ .module name = e) ∨
      (∃ us, ts = .openParen :: us ∧
        (parseAdditive (depth + 1)).Reads us e (.closeParen :: rest)) ∨
      (∃ us e₀, ts = .openBracket :: us ∧
        (parseAdditive (depth + 1)).Reads us e₀ (.closeBracket :: rest) ∧ .deref e₀ = e) := by
  unfold Reader.Reads
  rw [parsePrimary.eq_def, if_neg (Nat.not_lt.mpr hd)]
  cases ts with
  | nil => simp
  | cons t us =>
    cases t with
    | number n => simp [and_comm]
    | identifier name => simp [and_comm]
    | openParen => simp [yields_enclosed, Reader.Reads]
    | openBracket => simp [yields_enclosed, Reader.Reads]
    | _ => simp

theorem parseUnary_reads {depth : ℕ} (hd : depth ≤ maxDepth) :
    (parseUnary depth).Reads ts e rest ↔
      (∃ us e₀, ts = .minus :: us ∧ (parseUnary (depth + 1)).Reads us e₀ rest ∧
        .negate e₀ = e) ∨
      (parsePrimary depth).Reads ts e rest := by
  have hminus : ∀ us, ¬ (parsePrimary depth).Reads (.minus :: us) e rest := by
    intro us
    simp [parsePrimary_reads hd]
  unfold Reader.Reads at hminus ⊢
  rw [parseUnary.eq_def, if_neg (Nat.not_lt.mpr hd)]
  split
  · rename_i us
    rw [yields_past, yields_map, or_iff_left (hminus us)]
    simp
  · rename_i hne
    simp only [iff_or_self]
    rintro ⟨us, e₀, rfl, -⟩
    exact absurd rfl (hne us)

end Reads

section Levels
variable {depth limit : ℕ}

theorem multiplicative_agrees (h : Agrees .unary limit (parseUnary depth)) :
    Agrees .multiplicative limit (parseMultiplicative depth) := by
  intro ts e rest
  rw [parseMultiplicative, leftAssoc_reads,
    readsChain_image h (fun u => (rfl : (Derivation.unary u).expr = u.expr))
      fun op a b => (rfl : (Derivation.multiplied op a b).expr = op.expr a.expr b.expr)]
  simp only [derives_multiplicative]

theorem additive_agrees (h : Agrees .unary limit (parseUnary depth)) :
    Agrees .additive limit (parseAdditive depth) := by
  intro ts e rest
  rw [parseAdditive, leftAssoc_reads,
    readsChain_image (multiplicative_agrees h)
      (fun m => (rfl : (Derivation.multiplicative m).expr = m.expr))
      fun op a b => (rfl : (Derivation.added op a b).expr = op.expr a.expr b.expr)]
  simp only [derives_additive]

theorem primary_agrees (hd : depth ≤ maxDepth)
    (h : Agrees .additive limit (parseAdditive (depth + 1))) :
    Agrees .primary (limit + 1) (parsePrimary depth) := by
  intro ts e rest
  rw [parsePrimary_reads hd]
  unfold Agrees at h
  simp only [derives_primary, h]
  constructor
  · rintro (⟨n, rfl, rfl⟩ | ⟨name, rfl, rfl⟩ | ⟨us, rfl, a, ha, rfl⟩ |
      ⟨us, e₀, rfl, ⟨a, ha, rfl⟩, rfl⟩)
    · exact ⟨.number n, .inl ⟨n, rfl, rfl⟩, rfl⟩
    · exact ⟨.identifier name, .inr (.inl ⟨name, rfl, rfl⟩), rfl⟩
    · exact ⟨.parens a, .inr (.inr (.inl ⟨us, a, rfl, ha, rfl⟩)), rfl⟩
    · exact ⟨.deref a, .inr (.inr (.inr ⟨us, a, rfl, ha, rfl⟩)), rfl⟩
  · rintro ⟨t, ⟨n, rfl, rfl⟩ | ⟨name, rfl, rfl⟩ | ⟨us, a, rfl, ha, rfl⟩ |
      ⟨us, a, rfl, ha, rfl⟩, rfl⟩
    · exact .inl ⟨n, rfl, rfl⟩
    · exact .inr (.inl ⟨name, rfl, rfl⟩)
    · exact .inr (.inr (.inl ⟨us, rfl, a, ha, rfl⟩))
    · exact .inr (.inr (.inr ⟨us, a.expr, rfl, ⟨a, ha, rfl⟩, rfl⟩))

theorem unary_agrees_succ (hd : depth ≤ maxDepth)
    (h : Agrees .unary limit (parseUnary (depth + 1))) :
    Agrees .unary (limit + 1) (parseUnary depth) := by
  have hprimary := primary_agrees hd (additive_agrees h)
  intro ts e rest
  rw [parseUnary_reads hd]
  unfold Agrees at h hprimary
  simp only [derives_unary, h, hprimary]
  constructor
  · rintro (⟨us, e₀, rfl, ⟨u, hu, rfl⟩, rfl⟩ | ⟨p, hp, rfl⟩)
    · exact ⟨.negate u, .inl ⟨us, u, rfl, hu, rfl⟩, rfl⟩
    · exact ⟨.primary p, .inr ⟨p, hp, rfl⟩, rfl⟩
  · rintro ⟨t, ⟨us, u, rfl, hu, rfl⟩ | ⟨p, hp, rfl⟩, rfl⟩
    · exact .inl ⟨us, u.expr, rfl, ⟨u, hu, rfl⟩, rfl⟩
    · exact .inr ⟨p, hp, rfl⟩

/-- The guard stops the procedures where no level of nesting is left. -/
theorem unary_agrees (h : depth + limit = maxDepth + 1) :
    Agrees .unary limit (parseUnary depth) := by
  induction limit generalizing depth with
  | zero =>
    intro ts e rest
    simp only [not_derives_zero, false_and, exists_false, iff_false]
    unfold Reader.Reads
    rw [parseUnary.eq_def, if_pos (by omega)]
    exact not_yields_error
  | succ limit ih => exact unary_agrees_succ (by omega) (ih (by omega))

end Levels

theorem parseTokens_eq_ok {tokens : List Token} {e : Expr} :
    parseTokens tokens = .ok e ↔ parseExpr.Reads tokens e [] := by
  constructor
  · intro hok
    obtain ⟨⟨e', rest, h⟩, hread, hok⟩ := bind_eq_ok.mp hok
    obtain ⟨_, hfinish, hout⟩ := bind_eq_ok.mp hok
    cases hout
    cases rest with
    | nil => exact ⟨h, hread⟩
    | cons t rest => cases hfinish
  · rintro ⟨h, hread⟩
    exact bind_eq_ok.mpr ⟨_, hread, rfl⟩

theorem parseTokens_iff {tokens : List Token} {e : Expr} :
    parseTokens tokens = .ok e ↔
      ∃ t : Derivation .additive, t.tokens = tokens ∧ t.nesting ≤ maxDepth ∧ t.expr = e := by
  have hagree := additive_agrees (unary_agrees (Nat.zero_add (maxDepth + 1)))
  rw [parseTokens_eq_ok, parseExpr, hagree]
  constructor
  · rintro ⟨t, ht, rfl⟩
    obtain ⟨rfl, hn, -⟩ := derives_iff.mp ht
    exact ⟨t, (List.append_nil _).symm, Nat.le_of_lt_succ hn, rfl⟩
  · rintro ⟨t, rfl, hn, rfl⟩
    refine ⟨t, derives_iff.mpr ⟨(List.append_nil _).symm, Nat.lt_succ_of_le hn, ?_⟩, rfl⟩
    exact ⟨stops_nil _, stops_nil _⟩

/-- The parser accepts what has a derivation with at most 128 levels around any token, and
returns the expression of that derivation, which is the only one. -/
theorem parseTokens_derives (tokens : List Token) :
    ((∃ e, parseTokens tokens = .ok e) ↔
      ∃ t : Derivation .additive, t.tokens = tokens ∧ ∀ n ∈ t.enclosures 0, n ≤ 128) ∧
    ∀ e, parseTokens tokens = .ok e →
      ∃ t : Derivation .additive, t.tokens = tokens ∧ (∀ n ∈ t.enclosures 0, n ≤ 128) ∧
        t.expr = e ∧ ∀ t' : Derivation .additive, t'.tokens = tokens → t' = t := by
  simp only [Derivation.enclosures_le_iff, Nat.zero_add]
  constructor
  · constructor
    · rintro ⟨e, he⟩
      obtain ⟨t, ht, hn, -⟩ := parseTokens_iff.mp he
      exact ⟨t, ht, hn⟩
    · rintro ⟨t, ht, hn⟩
      exact ⟨t.expr, parseTokens_iff.mpr ⟨t, ht, hn, rfl⟩⟩
  · intro e he
    obtain ⟨t, ht, hn, hexpr⟩ := parseTokens_iff.mp he
    exact ⟨t, ht, hn, hexpr, fun t' ht' => tokens_injective (ht'.trans ht.symm)⟩

end Parser

end Nemclass.Address
