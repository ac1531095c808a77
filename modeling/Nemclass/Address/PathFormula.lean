import Nemclass.Address.Height
import Nemclass.Address.Interpreter
import Nemclass.Scan.PathFormula

/-! A pointer path and the formula it is written as have the same meaning: the text
is tokenized and parsed back to one dereference for each offset, and evaluating that
expression follows the path. -/
namespace Nemclass.Address
open Model Usize OperatorChain Tokenizer Scan

/-- The text lexes to the tokens of the tree, before anything that ends a literal. -/
def Writes (text : String) (t : Derivation .additive) : Prop :=
  ∀ ⦃bs toks⦄, EndsHex bs → Lexes bs toks → Lexes (Utf8.bytes text ++ bs) (t.tokens ++ toks)

def numberTree (n : ℕ) : Derivation .multiplicative := .unary (.primary (.number (Int64.ofNat n)))

def moduleTree (name : String) : Derivation .additive :=
  .multiplicative (.unary (.primary (.identifier name)))

def anchorTree (name : String) (baseOff : ℕ) : Derivation .additive :=
  if baseOff = 0 then moduleTree name else .added .add (moduleTree name) (numberTree baseOff)

/-- One hop: what `inner` points at, plus an offset. -/
def hopTree (inner : Derivation .additive) (off : ℕ) : Derivation .additive :=
  .added .add (.multiplicative (.unary (.primary (.deref inner)))) (numberTree off)

section Text
variable {bs : List UInt8} {toks : List Token}

theorem bytes_lowerHex (n : ℕ) :
    Utf8.bytes (lowerHex n) = '0'.toUInt8 :: 'x'.toUInt8 :: hexBytes n := by
  rw [lowerHex, Utf8.bytes_append]
  simp only [Utf8.bytes, String.toList_ofList]
  rfl

theorem lexes_lowerHex {n : ℕ} (hn : n < 2 ^ 63) (hbs : EndsHex bs) (h : Lexes bs toks) :
    Lexes (Utf8.bytes (lowerHex n) ++ bs) ((numberTree n).tokens ++ toks) := by
  rw [bytes_lowerHex]
  exact h.hex hn hbs

/-- ` + ` and a literal. -/
theorem lexes_plusHex {n : ℕ} (hn : n < 2 ^ 63) (hbs : EndsHex bs) (h : Lexes bs toks) :
    Lexes (' '.toUInt8 :: '+'.toUInt8 :: ' '.toUInt8 :: (Utf8.bytes (lowerHex n) ++ bs))
      (.plus :: ((numberTree n).tokens ++ toks)) :=
  (((lexes_lowerHex hn hbs h).space rfl).plus).space rfl

theorem writes_anchor {name : String} {baseOff : ℕ} (hname : '>' ∉ name.toList)
    (hoff : baseOff < 2 ^ 63) :
    Writes (PointerPath.anchorFormula name baseOff) (anchorTree name baseOff) := by
  intro bs toks hbs h
  unfold PointerPath.anchorFormula anchorTree
  split
  · simp only [Utf8.bytes_append, List.append_assoc]
    exact h.angle hname
  · simp only [Utf8.bytes_append, List.append_assoc, Derivation.tokens]
    exact (lexes_plusHex hoff hbs h).angle hname

theorem writes_hop {expr : String} {t : Derivation .additive} {off : ℕ} (hoff : off < 2 ^ 63)
    (h : Writes expr t) : Writes ("[" ++ expr ++ "] + " ++ lowerHex off) (hopTree t off) := by
  intro bs toks hbs hrest
  have hclose := (lexes_plusHex hoff hbs hrest).closeBracket
  have hinner := h (by intro b hb; cases hb; rfl) hclose
  simp only [Utf8.bytes_append, List.append_assoc, hopTree, Derivation.tokens, List.cons_append,
    List.nil_append]
  exact hinner.openBracket

theorem writes_hops {offs : List ℕ} (hoffs : ∀ o ∈ offs, o < 2 ^ 63) {expr : String}
    {t : Derivation .additive} (h : Writes expr t) :
    Writes (offs.foldl (fun expr off => "[" ++ expr ++ "] + " ++ lowerHex off) expr)
      (offs.foldl hopTree t) := by
  induction offs generalizing expr t with
  | nil => exact h
  | cons off offs ih =>
    rw [List.forall_mem_cons] at hoffs
    exact ih hoffs.2 (writes_hop hoffs.1 h)

theorem tokenize_of_writes {text : String} {t : Derivation .additive} (h : Writes text t) :
    tokenize text = .ok t.tokens := by
  have hall := h (by simp [EndsHex]) Lexes.nil
  rw [List.append_nil, List.append_nil] at hall
  exact hall _

end Text

section Nesting

theorem nesting_anchor (name : String) (baseOff : ℕ) : (anchorTree name baseOff).nesting = 0 := by
  unfold anchorTree
  split <;> rfl

theorem nesting_hop (t : Derivation .additive) (off : ℕ) :
    (hopTree t off).nesting = t.nesting + 1 := by
  simp [hopTree, numberTree, Derivation.nesting]

theorem nesting_hops (offs : List ℕ) (t : Derivation .additive) :
    (offs.foldl hopTree t).nesting = t.nesting + offs.length := by
  induction offs generalizing t with
  | nil => rfl
  | cons off offs ih =>
    rw [List.foldl_cons, ih, nesting_hop, List.length_cons]
    omega

end Nesting

section Evaluate
variable {modules : ModuleResolver} {reader : MemoryReader}

/-- The walk of a formula: each offset is added, wrapping, to what is read at the address before. -/
def follow (reader : MemoryReader) : List ℕ → ℕ → Except ModelError ℕ
  | [], addr => .ok addr
  | off :: offs, addr => do
    let v ← reader addr
    follow reader offs (wrappingAdd v off)

theorem evaluate_anchor {name : String} {m off : ℕ} (hm : modules name = some m)
    (hle : m ≤ usizeMax) (hoff : off < 2 ^ 63) :
    evaluate modules reader (anchorTree name off).expr = .ok (wrappingAdd m off) := by
  unfold anchorTree
  split
  · rename_i hzero
    rw [hzero, wrappingAdd_of_le (by omega), Nat.add_zero]
    exact evaluate_module hm
  · exact evaluate_add (evaluate_module hm) (evaluate_constant hoff)

theorem evaluate_hop {off : ℕ} (hoff : off < 2 ^ 63) (t : Derivation .additive) :
    evaluate modules reader (hopTree t off).expr =
      evaluate modules reader t.expr >>= follow reader [off] := by
  change ((evaluate modules reader t.expr >>= reader) >>= fun v =>
    evaluate modules reader (.constant (Int64.ofNat off)) >>= fun o => .ok (wrappingAdd v o)) = _
  rw [evaluate_constant hoff, bind_assoc]
  rfl

/-- Evaluating the hops of a formula walks them. -/
theorem evaluate_hops {offs : List ℕ} (hoffs : ∀ o ∈ offs, o < 2 ^ 63)
    (t : Derivation .additive) :
    evaluate modules reader (offs.foldl hopTree t).expr =
      evaluate modules reader t.expr >>= follow reader offs := by
  induction offs generalizing t with
  | nil => exact (bind_pure _).symm
  | cons off offs ih =>
    rw [List.forall_mem_cons] at hoffs
    have hwalk (addr : ℕ) : follow reader [off] addr >>= follow reader offs =
        follow reader (off :: offs) addr := by
      rw [follow, follow, bind_assoc]
      rfl
    rw [List.foldl_cons, ih hoffs.2, evaluate_hop hoffs.1, bind_assoc]
    exact congrArg _ (funext hwalk)

theorem toOption_eq_some {x : Except ModelError ℕ} {v : ℕ} :
    x.toOption = some v ↔ x = .ok v := by
  cases x <;> simp [Except.toOption]

/-- Where a path resolves, no sum wraps, and the walk ends at the same address. -/
theorem follow_of_resolveFrom {offs : List ℕ} (hne : offs ≠ []) {addr v goal : ℕ}
    (hv : reader addr = .ok v)
    (hgoal : PointerPath.resolveFrom (fun a => (reader a).toOption) offs v = some goal) :
    follow reader offs addr = .ok goal := by
  induction offs generalizing addr v with
  | nil => exact absurd rfl hne
  | cons off offs ih =>
    rw [PointerPath.resolveFrom] at hgoal
    obtain ⟨stepped, hstep, hgoal⟩ := Option.bind_eq_some_iff.mp hgoal
    obtain ⟨hsum, hle⟩ := checkedAdd_eq_some.mp hstep
    have hhop : follow reader (off :: offs) addr = follow reader offs stepped := by
      rw [follow, hv, ← hsum, ← wrappingAdd_of_le hle]
      rfl
    rw [hhop]
    cases offs with
    | nil =>
      cases hgoal
      rfl
    | cons off' offs =>
      obtain ⟨next, hnext, hgoal⟩ := Option.bind_eq_some_iff.mp hgoal
      exact ih (List.cons_ne_nil _ _) (toOption_eq_some.mp hnext) hgoal

theorem follow_of_resolve {p : PointerPath} (hne : p.offsets ≠ []) {goal : ℕ}
    (hgoal : p.resolve (fun a => (reader a).toOption) = some goal) :
    follow reader p.offsets p.base = .ok goal := by
  obtain ⟨v, hv, hgoal⟩ := Option.bind_eq_some_iff.mp hgoal
  exact follow_of_resolveFrom hne (toOption_eq_some.mp hv) hgoal

end Evaluate

/-- The tree of a path's formula, with its module loaded at `m`. -/
def pathTree (p : PointerPath) (name : String) (m : ℕ) : Derivation .additive :=
  p.offsets.foldl hopTree (anchorTree name (p.base - m))

/-- What makes a path's formula well formed, for a module at `m`. -/
structure Writable (p : PointerPath) (m : ℕ) : Prop where
  base_le : p.base ≤ usizeMax
  module_le : m ≤ p.base
  anchor_lt : p.base - m < 2 ^ 63
  offsets_ne : p.offsets ≠ []
  offsets_le : p.offsets.length ≤ Parser.maxDepth
  offsets_lt : ∀ o ∈ p.offsets, o < 2 ^ 63

section Path
variable {p : PointerPath} {name : String} {m : ℕ}

theorem Writable.parse (hp : Writable p m) (hname : '>' ∉ name.toList) :
    parse (p.toFormula name m) = .ok (pathTree p name m).expr := by
  have hwrites : Writes (p.toFormula name m) (pathTree p name m) := by
    rw [PointerPath.toFormula, wrappingSub_of_le hp.module_le hp.base_le]
    exact writes_hops hp.offsets_lt (writes_anchor hname hp.anchor_lt)
  refine parse_iff.mpr ⟨_, tokenize_of_writes hwrites, ?_, rfl⟩
  rw [pathTree, nesting_hops, nesting_anchor, Nat.zero_add]
  exact hp.offsets_le

theorem Writable.evaluate (hp : Writable p m) {modules : ModuleResolver} {reader : MemoryReader}
    {base : ℕ} (hbase : modules name = some base) (hle : base ≤ usizeMax) :
    evaluate modules reader (pathTree p name m).expr =
      follow reader p.offsets (wrappingAdd base (p.base - m)) := by
  rw [pathTree, evaluate_hops hp.offsets_lt, evaluate_anchor hbase hle hp.anchor_lt]
  rfl

/-- With the module where it was, the formula walks from the path's own anchor. -/
theorem Writable.anchor_eq (hp : Writable p m) : wrappingAdd m (p.base - m) = p.base := by
  have hbase := hp.base_le
  have hle := hp.module_le
  rw [wrappingAdd_of_le (by omega), Nat.add_sub_cancel' hle]

end Path

section Rejected

/-- No identifier begins in these bytes. -/
def NoIdentifier (bs : List UInt8) : Prop := '<'.toUInt8 ∉ bs ∧ '"'.toUInt8 ∉ bs

theorem NoIdentifier.append {bs cs : List UInt8} (h : NoIdentifier bs) (h' : NoIdentifier cs) :
    NoIdentifier (bs ++ cs) := by
  unfold NoIdentifier at *
  simp [h, h']

theorem noIdentifier_lowerHex (n : ℕ) : NoIdentifier (Utf8.bytes (lowerHex n)) := by
  rw [bytes_lowerHex]
  unfold NoIdentifier
  simp only [List.mem_cons, not_or]
  refine ⟨⟨by decide, by decide, fun h => ?_⟩, by decide, by decide, fun h => ?_⟩ <;>
    exact absurd (isHexDigit_of_mem_hexBytes _ h) (by decide)

theorem noIdentifier_name {name : String} (hangle : '<' ∉ name.toList)
    (hquote : '"' ∉ name.toList) :
    NoIdentifier (Utf8.bytes name) :=
  ⟨fun h => hangle (Utf8.mem_encode_ascii (by decide) h),
    fun h => hquote (Utf8.mem_encode_ascii (by decide) h)⟩

/-- The text does not lex, whatever follows without an identifier. -/
def Rejected (text : String) : Prop :=
  ∀ ⦃bs⦄, NoIdentifier bs → ∀ size toks, tokenizeFrom size (Utf8.bytes text ++ bs) ≠ .ok toks

/-- A `>` in a name closes the identifier too early, and the one after the name has no opening. -/
theorem rejected_name {name : String} (hclose : '>' ∈ name.toList) (hangle : '<' ∉ name.toList)
    (hquote : '"' ∉ name.toList) {bs : List UInt8} (hbs : NoIdentifier bs) (size : ℕ)
    (toks : List Token) :
    tokenizeFrom size ('<'.toUInt8 :: (Utf8.bytes name ++ '>'.toUInt8 :: bs)) ≠ .ok toks := by
  obtain ⟨before, after, hname, hbefore⟩ := List.eq_append_cons_of_mem hclose
  have hbytes : Utf8.bytes name = Utf8.encode before ++ '>'.toUInt8 :: Utf8.encode after := by
    rw [Utf8.bytes, hname, Utf8.encode_append, Utf8.encode_cons]
    rfl
  have hclean := noIdentifier_name hangle hquote
  rw [hbytes] at hclean ⊢
  rw [List.append_assoc, List.cons_append]
  intro hok
  obtain ⟨tok, rest, toks', hread, hnext, -⟩ :=
    (tokenizeFrom_eq_ok (skipWhitespace_cons (by decide))).mp hok
  have hcut : Yields (readAngleIdentifier ('<'.toUInt8 :: (Utf8.encode before ++ '>'.toUInt8 ::
      (Utf8.encode after ++ '>'.toUInt8 :: bs)))) (.identifier (fromUtf8 (Utf8.encode before)))
      (Utf8.encode after ++ '>'.toUInt8 :: bs) :=
    yields_readDelimited fun h => hbefore (Utf8.mem_encode_ascii (by decide) h)
  obtain ⟨h, hread⟩ := hread
  obtain ⟨h', hcut⟩ := hcut
  have hrest := congrArg (fun out => out.2.1) (Except.ok.inj (hread.symm.trans hcut))
  have hno : NoIdentifier (Utf8.encode after ++ '>'.toUInt8 :: bs) := by
    unfold NoIdentifier at *
    simp only [List.mem_append, List.mem_cons, not_or] at *
    exact ⟨⟨hclean.1.2.2, by decide, hbs.1⟩, hclean.2.2.2, by decide, hbs.2⟩
  rw [show rest = _ from hrest] at hnext
  exact tokenizeFrom_ne_ok (by simp) hno.1 hno.2 size toks' hnext

theorem rejected_anchor {name : String} (hclose : '>' ∈ name.toList) (hangle : '<' ∉ name.toList)
    (hquote : '"' ∉ name.toList) (baseOff : ℕ) :
    Rejected (PointerPath.anchorFormula name baseOff) := by
  intro bs hbs size toks
  unfold PointerPath.anchorFormula
  split
  · simp only [Utf8.bytes_append, List.append_assoc]
    exact rejected_name hclose hangle hquote hbs size toks
  · simp only [Utf8.bytes_append, List.append_assoc]
    have hrest : NoIdentifier (Utf8.bytes " + " ++ (Utf8.bytes (lowerHex baseOff) ++ bs)) :=
      .append ⟨by decide, by decide⟩ (.append (noIdentifier_lowerHex baseOff) hbs)
    exact rejected_name hclose hangle hquote hrest size toks

theorem rejected_hops {expr : String} (h : Rejected expr) (offs : List ℕ) :
    Rejected (offs.foldl (fun expr off => "[" ++ expr ++ "] + " ++ lowerHex off) expr) := by
  induction offs generalizing expr with
  | nil => exact h
  | cons off offs ih =>
    refine ih fun bs hbs size toks hok => ?_
    simp only [Utf8.bytes_append, List.append_assoc] at hok
    obtain ⟨tok, rest, toks', hread, hnext, -⟩ :=
      (tokenizeFrom_eq_ok (skipWhitespace_cons (by decide))).mp hok
    obtain ⟨-, rfl⟩ := yields_ok.mp hread
    refine h (.append ⟨by decide, by decide⟩ (.append (noIdentifier_lowerHex off) hbs)) _ _ hnext

/-- A path of a module whose name holds a `>` has no readable formula. -/
theorem toFormula_rejected (p : PointerPath) {name : String} (m : ℕ)
    (hclose : '>' ∈ name.toList) (hangle : '<' ∉ name.toList) (hquote : '"' ∉ name.toList)
    (e : Expr) : parse (p.toFormula name m) ≠ .ok e := by
  intro hok
  obtain ⟨t, htok, -⟩ := parse_iff.mp hok
  have h := rejected_hops (rejected_anchor hclose hangle hquote (wrappingSub p.base m)) p.offsets
  have hempty : NoIdentifier [] := ⟨by simp, by simp⟩
  refine h hempty (Utf8.bytes (p.toFormula name m)).length t.tokens ?_
  rw [List.append_nil]
  exact htok

end Rejected

/-- A path's formula parses, and evaluates to what the path resolves to. -/
theorem toFormula_resolves (p : PointerPath) (name : String) (m : ℕ) (hbase : p.base ≤ usizeMax)
    (hsome : 1 ≤ p.offsets.length) (hmany : p.offsets.length ≤ 128)
    (hoffs : ∀ o ∈ p.offsets, o < 2 ^ 63) (hm : m ≤ p.base) (hdiff : p.base - m < 2 ^ 63)
    (hname : '>' ∉ name.toList) :
    ∃ e, parse (p.toFormula name m) = .ok e ∧
      ∀ (modules : ModuleResolver) (reader : MemoryReader) (a : ℕ), modules name = some m →
        p.resolve (fun x => (reader x).toOption) = some a → evaluate modules reader e = .ok a := by
  have hp : Writable p m :=
    ⟨hbase, hm, hdiff, List.ne_nil_of_length_pos hsome, hmany, hoffs⟩
  refine ⟨_, hp.parse hname, fun modules reader a hmodule hgoal => ?_⟩
  rw [hp.evaluate hmodule (hm.trans hbase), hp.anchor_eq]
  exact follow_of_resolve hp.offsets_ne hgoal

def gamePath : PointerPath := ⟨0x140001000, [0x10, 0x20]⟩

theorem toFormula_resolves_gamePath :
    ∃ e, parse (gamePath.toFormula "game.exe" 0x140000000) = .ok e ∧
      ∀ (modules : ModuleResolver) (reader : MemoryReader) (a : ℕ),
        modules "game.exe" = some 0x140000000 →
        gamePath.resolve (fun x => (reader x).toOption) = some a →
        evaluate modules reader e = .ok a :=
  toFormula_resolves gamePath "game.exe" 0x140000000 (by decide) (by decide) (by decide)
    (by decide) (by decide) (by decide) (by decide)

end Nemclass.Address
