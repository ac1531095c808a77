import Nemclass.Address.PathFormula
import Nemclass.Scan.SpiderRefine

/-! A spider path and the formulas it is written as. Literals are written as unsigned words and
read back as signed ones: a formula whose literals all fit the signed ones means what the path
means, any other is no formula. -/
namespace Nemclass.Address
open Model Usize OperatorChain Tokenizer Scan

/-- `expr + off` -/
def sumTree (t : Derivation .additive) (off : ℕ) : Derivation .additive :=
  .added .add t (numberTree off)

/-- `[expr + off]` -/
def derefTree (t : Derivation .additive) (off : ℕ) : Derivation .additive :=
  .multiplicative (.unary (.primary (.deref (sumTree t off))))

def rootTree (root : ℕ) : Derivation .additive := .multiplicative (numberTree root)

def spiderTree (p : SpiderPath) (base : Derivation .additive) : Derivation .additive :=
  sumTree (p.parentOffsets.foldl derefTree base) p.offset

section Text
variable {expr : String} {t : Derivation .additive} {off : ℕ}

theorem endsHex_space (bs : List UInt8) : EndsHex (' '.toUInt8 :: bs) := by
  intro b hb
  cases hb
  rfl

theorem endsHex_closeBracket (bs : List UInt8) : EndsHex (']'.toUInt8 :: bs) := by
  intro b hb
  cases hb
  rfl

theorem writes_root {root : ℕ} (hroot : root < 2 ^ 63) : Writes (lowerHex root) (rootTree root) :=
  fun _ _ hbs h => lexes_lowerHex hroot hbs h

theorem writes_sum (hoff : off < 2 ^ 63) (h : Writes expr t) :
    Writes (expr ++ " + " ++ lowerHex off) (sumTree t off) := by
  intro bs toks hbs hrest
  have hinner := h (endsHex_space _) (lexes_plusHex hoff hbs hrest)
  simp only [Utf8.bytes_append, List.append_assoc, sumTree, Derivation.tokens, List.cons_append]
  exact hinner

theorem writes_deref (hoff : off < 2 ^ 63) (h : Writes expr t) :
    Writes ("[" ++ expr ++ " + " ++ lowerHex off ++ "]") (derefTree t off) := by
  intro bs toks hbs hrest
  have hinner := writes_sum hoff h (endsHex_closeBracket bs) hrest.closeBracket
  simp only [Utf8.bytes_append, List.append_assoc, derefTree, Derivation.tokens, List.cons_append,
    List.nil_append] at hinner ⊢
  exact hinner.openBracket

theorem writes_derefs {offs : List ℕ} (hoffs : ∀ o ∈ offs, o < 2 ^ 63) (h : Writes expr t) :
    Writes (offs.foldl (fun expr off => "[" ++ expr ++ " + " ++ lowerHex off ++ "]") expr)
      (offs.foldl derefTree t) := by
  induction offs generalizing expr t with
  | nil => exact h
  | cons off offs ih =>
    rw [List.forall_mem_cons] at hoffs
    exact ih hoffs.2 (writes_deref hoffs.1 h)

theorem nesting_derefs (offs : List ℕ) (t : Derivation .additive) :
    (offs.foldl derefTree t).nesting = t.nesting + offs.length := by
  induction offs generalizing t with
  | nil => rfl
  | cons off offs ih =>
    have hone : (derefTree t off).nesting = t.nesting + 1 := by
      simp [derefTree, sumTree, numberTree, Derivation.nesting]
    rw [List.foldl_cons, ih, hone, List.length_cons]
    omega

/-- A formula is the sum of its last offset and a bracket for each other one. -/
theorem writes_toFormula {p : SpiderPath} (hparents : ∀ o ∈ p.parentOffsets, o < 2 ^ 63)
    (hoff : p.offset < 2 ^ 63) (h : Writes expr t) :
    Writes (p.toFormula expr) (spiderTree p t) :=
  writes_sum hoff (writes_derefs hparents h)

theorem parse_toFormula {p : SpiderPath} (hparents : ∀ o ∈ p.parentOffsets, o < 2 ^ 63)
    (hoff : p.offset < 2 ^ 63) (hdepth : p.parentOffsets.length ≤ Parser.maxDepth)
    (hflat : t.nesting = 0) (h : Writes expr t) :
    parse (p.toFormula expr) = .ok (spiderTree p t).expr := by
  refine parse_iff.mpr ⟨_, tokenize_of_writes (writes_toFormula hparents hoff h), ?_, rfl⟩
  have hnesting : (spiderTree p t).nesting = p.parentOffsets.length := by
    simp [spiderTree, sumTree, numberTree, Derivation.nesting, nesting_derefs, hflat]
  rwa [hnesting]

end Text

section Evaluate
variable {modules : ModuleResolver} {reader : MemoryReader} {t : Derivation .additive}

/-- The memory that a path is walked over. -/
def wordAt (reader : MemoryReader) (_ : Unit) (addr : ℕ) : Option ℕ × Unit :=
  ((reader addr).toOption, ())

theorem evaluate_sum {off v : ℕ} (hoff : off < 2 ^ 63)
    (h : evaluate modules reader t.expr = .ok v) :
    evaluate modules reader (sumTree t off).expr = .ok (wrappingAdd v off) :=
  evaluate_add h (evaluate_constant hoff)

/-- Where the dereferences of a path succeed, no sum wraps, and the brackets read the same words. -/
theorem evaluate_derefs {offs : List ℕ} (hoffs : ∀ o ∈ offs, o < 2 ^ 63) {addr goal : ℕ}
    (haddr : evaluate modules reader t.expr = .ok addr)
    (hgoal : (SpiderPath.hops (wordAt reader) addr offs ()).1 = some goal) :
    evaluate modules reader (offs.foldl derefTree t).expr = .ok goal := by
  induction offs generalizing t addr with
  | nil =>
    cases hgoal
    exact haddr
  | cons off offs ih =>
    rw [List.forall_mem_cons] at hoffs
    rw [SpiderPath.hops] at hgoal
    cases hslot : checkedAdd addr off with
    | none =>
      rw [hslot] at hgoal
      cases hgoal
    | some slot =>
      obtain ⟨hsum, hle⟩ := checkedAdd_eq_some.mp hslot
      simp only [hslot, wordAt] at hgoal
      cases hword : reader slot with
      | error e =>
        rw [hword] at hgoal
        cases hgoal
      | ok word =>
        simp only [hword, Except.toOption] at hgoal
        split at hgoal
        · cases hgoal
        · have hread : evaluate modules reader (derefTree t off).expr = .ok word := by
            change (evaluate modules reader (sumTree t off).expr >>= fun a => reader a) = _
            rw [evaluate_sum hoffs.1 haddr, wrappingAdd_of_le hle, hsum]
            exact hword
          exact ih hoffs.2 hread hgoal

theorem evaluate_spiderTree {p : SpiderPath} (hparents : ∀ o ∈ p.parentOffsets, o < 2 ^ 63)
    (hoff : p.offset < 2 ^ 63) {goal : ℕ} (hroot : evaluate modules reader t.expr = .ok p.root)
    (hgoal : (p.resolve (wordAt reader) ()).1 = some goal) :
    evaluate modules reader (spiderTree p t).expr = .ok goal := by
  rw [SpiderPath.resolve] at hgoal
  cases hhops : SpiderPath.hops (wordAt reader) p.root p.parentOffsets () with
  | mk reached world =>
    rw [hhops] at hgoal
    cases reached with
    | none => cases hgoal
    | some addr =>
      obtain ⟨hsum, hle⟩ := checkedAdd_eq_some.mp hgoal
      have hwalk := evaluate_derefs hparents hroot (congrArg Prod.fst hhops)
      rw [spiderTree, evaluate_sum hoff hwalk, wrappingAdd_of_le hle, hsum]

end Evaluate

section Refused
variable {expr : String} {off : ℕ}

/-- Nothing can be made of the text, before anything that ends a literal. -/
def Spoils (text : String) : Prop := ∀ ⦃bs⦄, EndsHex bs → Refuses (Utf8.bytes text ++ bs)

/-- The text does not hide that nothing can be made of what follows it. -/
def Forwards (text : String) : Prop :=
  ∀ ⦃bs⦄, EndsHex bs → Refuses bs → Refuses (Utf8.bytes text ++ bs)

theorem forwards_lowerHex (n : ℕ) : Forwards (lowerHex n) := by
  intro bs hbs h
  rw [bytes_lowerHex]
  exact h.hex n hbs

theorem spoils_lowerHex {n : ℕ} (hn : 2 ^ 63 ≤ n) : Spoils (lowerHex n) := by
  intro bs hbs
  rw [bytes_lowerHex]
  exact refuses_hex hn hbs

theorem forwards_name {name : String} (hname : '>' ∉ name.toList) :
    Forwards ("<" ++ name ++ ">") := by
  intro bs _ h
  simp only [Utf8.bytes_append, List.append_assoc]
  exact .cons (by decide) (yields_angle hname) h

theorem refuses_plus {bs : List UInt8} (h : Refuses bs) :
    Refuses (' '.toUInt8 :: '+'.toUInt8 :: ' '.toUInt8 :: bs) := ((h.space rfl).plus).space rfl

theorem forwards_sum (h : Forwards expr) : Forwards (expr ++ " + " ++ lowerHex off) := by
  intro bs hbs hrest
  simp only [Utf8.bytes_append, List.append_assoc]
  exact h (endsHex_space _) (refuses_plus (forwards_lowerHex off hbs hrest))

theorem spoils_sum (h : Spoils expr ∨ Forwards expr ∧ 2 ^ 63 ≤ off) :
    Spoils (expr ++ " + " ++ lowerHex off) := by
  intro bs hbs
  simp only [Utf8.bytes_append, List.append_assoc]
  rcases h with h | ⟨h, hoff⟩
  · exact h (endsHex_space _)
  · exact h (endsHex_space _) (refuses_plus (spoils_lowerHex hoff hbs))

theorem forwards_deref (h : Forwards expr) :
    Forwards ("[" ++ expr ++ " + " ++ lowerHex off ++ "]") := by
  intro bs hbs hrest
  have hsum : Forwards (expr ++ " + " ++ lowerHex off) := forwards_sum h
  have hinner := hsum (endsHex_closeBracket bs) hrest.closeBracket
  simp only [Utf8.bytes_append, List.append_assoc] at hinner ⊢
  exact hinner.openBracket

theorem spoils_deref (h : Spoils expr ∨ Forwards expr ∧ 2 ^ 63 ≤ off) :
    Spoils ("[" ++ expr ++ " + " ++ lowerHex off ++ "]") := by
  intro bs hbs
  have hinner := spoils_sum h (endsHex_closeBracket bs)
  simp only [Utf8.bytes_append, List.append_assoc] at hinner ⊢
  exact hinner.openBracket

/-- Steps that pass on what was read before them and stop at their own literal, one after the
other. -/
theorem spoils_foldl {step : String → ℕ → String}
    (hforwards : ∀ {expr off}, Forwards expr → Forwards (step expr off))
    (hspoils : ∀ {expr off}, Spoils expr ∨ Forwards expr ∧ 2 ^ 63 ≤ off → Spoils (step expr off))
    {offs : List ℕ} (h : Spoils expr ∨ Forwards expr ∧ ∃ o ∈ offs, 2 ^ 63 ≤ o) :
    Spoils (offs.foldl step expr) := by
  induction offs generalizing expr with
  | nil => exact h.resolve_right fun h => by simpa using h.2
  | cons off offs ih =>
    refine ih ?_
    rcases h with h | ⟨h, hlarge⟩
    · exact .inl (hspoils (.inl h))
    · rw [List.exists_mem_cons_iff] at hlarge
      rcases hlarge with hoff | hlater
      · exact .inl (hspoils (.inr ⟨h, hoff⟩))
      · exact .inr ⟨hforwards h, hlater⟩

theorem spoils_derefs {offs : List ℕ} (h : Spoils expr ∨ Forwards expr ∧ ∃ o ∈ offs, 2 ^ 63 ≤ o) :
    Spoils (offs.foldl (fun expr off => "[" ++ expr ++ " + " ++ lowerHex off ++ "]") expr) :=
  spoils_foldl forwards_deref spoils_deref h

theorem forwards_derefs (offs : List ℕ) (h : Forwards expr) :
    Forwards (offs.foldl (fun expr off => "[" ++ expr ++ " + " ++ lowerHex off ++ "]") expr) := by
  induction offs generalizing expr with
  | nil => exact h
  | cons off offs ih => exact ih (forwards_deref h)

/-- One offset that does not fit is enough. -/
theorem spoils_toFormula {p : SpiderPath} (h : Forwards expr)
    (hlarge : (∃ o ∈ p.parentOffsets, 2 ^ 63 ≤ o) ∨ 2 ^ 63 ≤ p.offset) :
    Spoils (p.toFormula expr) := by
  rcases hlarge with hparent | hoff
  · exact spoils_sum (.inl (spoils_derefs (.inr ⟨h, hparent⟩)))
  · exact spoils_sum (.inr ⟨forwards_derefs _ h, hoff⟩)

theorem spoils_toFormula_of_base (p : SpiderPath) (h : Spoils expr) : Spoils (p.toFormula expr) :=
  spoils_sum (.inl (spoils_derefs (.inl h)))

theorem Spoils.parse_ne {text : String} (h : Spoils text) (e : Expr) : parse text ≠ .ok e := by
  intro hok
  obtain ⟨t, htok, -⟩ := parse_iff.mp hok
  have hempty : EndsHex [] := by simp [EndsHex]
  refine h hempty (Utf8.bytes text).length t.tokens ?_
  rw [List.append_nil]
  exact htok

end Refused

section Anchor
variable {name : String} {baseOff : ℕ}

theorem anchorFormula_ne_zero (hoff : baseOff ≠ 0) :
    PointerPath.anchorFormula name baseOff = "<" ++ name ++ ">" ++ " + " ++ lowerHex baseOff := by
  have hcut : "> + " = ">" ++ " + " := by decide
  rw [PointerPath.anchorFormula, if_neg hoff, hcut, ← String.append_assoc]

theorem forwards_anchor (hname : '>' ∉ name.toList) :
    Forwards (PointerPath.anchorFormula name baseOff) := by
  by_cases hzero : baseOff = 0
  · rw [PointerPath.anchorFormula, if_pos hzero]
    exact forwards_name hname
  · rw [anchorFormula_ne_zero hzero]
    exact forwards_sum (forwards_name hname)

theorem spoils_anchor (hname : '>' ∉ name.toList) (hoff : 2 ^ 63 ≤ baseOff) :
    Spoils (PointerPath.anchorFormula name baseOff) := by
  rw [anchorFormula_ne_zero (by omega)]
  exact spoils_sum (.inr ⟨forwards_name hname, hoff⟩)

/-- Adding the wrapped difference to the base leads back to the root. -/
theorem wrappingAdd_wrappingSub {a m : ℕ} (ha : a ≤ usizeMax) :
    wrappingAdd m (wrappingSub a m) = a := by
  unfold usizeMax at ha
  unfold wrappingAdd wrappingSub
  omega

end Anchor

/-- The text is read, and wherever the path resolves, evaluating it gives the same address. -/
def Means (p : SpiderPath) (known : ModuleResolver → Prop) (text : String) : Prop :=
  ∃ e, parse text = .ok e ∧ ∀ modules reader a, known modules →
    (p.resolve (wordAt reader) ()).1 = some a → evaluate modules reader e = .ok a

/-- The literals of a path's offsets are read as what they are written from. -/
def SpiderPath.Signed (p : SpiderPath) : Prop :=
  (∀ o ∈ p.parentOffsets, o < 2 ^ 63) ∧ p.offset < 2 ^ 63

section Formula
variable {p : SpiderPath} {known : ModuleResolver → Prop} {expr : String}
  {t : Derivation .additive}

theorem means_toFormula (hsigned : SpiderPath.Signed p)
    (hdepth : p.parentOffsets.length ≤ SpiderConfig.maxDepthLimit) (hwrites : Writes expr t)
    (hflat : t.nesting = 0)
    (hroot : ∀ modules reader, known modules → evaluate modules reader t.expr = .ok p.root) :
    Means p known (p.toFormula expr) := by
  have hmax : SpiderConfig.maxDepthLimit ≤ Parser.maxDepth := by decide
  refine ⟨_, parse_toFormula hsigned.1 hsigned.2 (hdepth.trans hmax) hflat hwrites, ?_⟩
  exact fun modules reader a hknown hgoal =>
    evaluate_spiderTree hsigned.1 hsigned.2 (hroot modules reader hknown) hgoal

theorem not_means_of_spoils {text : String} (h : Spoils text) : ¬ Means p known text :=
  fun ⟨e, hparse, _⟩ => h.parse_ne e hparse

/-- Offsets that do not fit spoil the formula over any base. -/
theorem signed_of_means (h : Means p known (p.toFormula expr)) (hforwards : Forwards expr) :
    SpiderPath.Signed p := by
  by_contra hsigned
  refine not_means_of_spoils (spoils_toFormula hforwards ?_) h
  unfold SpiderPath.Signed at hsigned
  rw [not_and_or] at hsigned
  rcases hsigned with hparent | hoff
  · push Not at hparent
    exact .inl hparent
  · exact .inr (by omega)

theorem means_toFormulaRaw_iff (hdepth : p.parentOffsets.length ≤ SpiderConfig.maxDepthLimit) :
    Means p (fun _ => True) p.toFormulaRaw ↔ p.root < 2 ^ 63 ∧ SpiderPath.Signed p := by
  constructor
  · intro h
    refine ⟨?_, signed_of_means h (forwards_lowerHex _)⟩
    by_contra hroot
    exact not_means_of_spoils (spoils_toFormula_of_base p (spoils_lowerHex (by omega))) h
  · rintro ⟨hroot, hsigned⟩
    exact means_toFormula hsigned hdepth (writes_root hroot) rfl fun _ _ _ =>
      evaluate_constant hroot

theorem means_toFormulaAtModule_iff {name : String} {m : ℕ} (hroot : p.root ≤ usizeMax)
    (hm : m ≤ usizeMax) (hdepth : p.parentOffsets.length ≤ SpiderConfig.maxDepthLimit)
    (hname : '>' ∉ name.toList) :
    Means p (fun modules => modules name = some m) (p.toFormulaAtModule name m) ↔
      wrappingSub p.root m < 2 ^ 63 ∧ SpiderPath.Signed p := by
  change Means p _ (p.toFormula (PointerPath.anchorFormula name (wrappingSub p.root m))) ↔ _
  constructor
  · intro h
    refine ⟨?_, signed_of_means h (forwards_anchor hname)⟩
    by_contra hoff
    exact not_means_of_spoils (spoils_toFormula_of_base p (spoils_anchor hname (by omega))) h
  · rintro ⟨hoff, hsigned⟩
    refine means_toFormula hsigned hdepth (writes_anchor hname hoff) (nesting_anchor _ _) ?_
    intro modules reader hknown
    rw [evaluate_anchor hknown hm hoff, wrappingAdd_wrappingSub hroot]

end Formula

/-- Both formulas of a path mean the path exactly when every literal in them fits a signed word. -/
theorem toFormula_means_iff (p : SpiderPath) (name : String) (m : ℕ) (hroot : p.root ≤ usizeMax)
    (hm : m ≤ usizeMax) (hdepth : p.parentOffsets.length ≤ SpiderConfig.maxDepthLimit)
    (hname : '>' ∉ name.toList) :
    Means p (fun _ => True) p.toFormulaRaw ∧
        Means p (fun modules => modules name = some m) (p.toFormulaAtModule name m) ↔
      p.root < 2 ^ 63 ∧ wrappingSub p.root m < 2 ^ 63 ∧ (∀ o ∈ p.parentOffsets, o < 2 ^ 63) ∧
        p.offset < 2 ^ 63 := by
  rw [means_toFormulaRaw_iff hdepth, means_toFormulaAtModule_iff hroot hm hdepth hname]
  unfold SpiderPath.Signed
  tauto

def gameSpider : SpiderPath := ⟨0x140001000, [0x10, 0x20], 0x8⟩

theorem toFormula_means_gameSpider :
    Means gameSpider (fun _ => True) gameSpider.toFormulaRaw ∧
        Means gameSpider (fun modules => modules "game.exe" = some 0x140000000)
          (gameSpider.toFormulaAtModule "game.exe" 0x140000000) ↔
      gameSpider.root < 2 ^ 63 ∧ wrappingSub gameSpider.root 0x140000000 < 2 ^ 63 ∧
        (∀ o ∈ gameSpider.parentOffsets, o < 2 ^ 63) ∧ gameSpider.offset < 2 ^ 63 :=
  toFormula_means_iff gameSpider "game.exe" 0x140000000 (by decide) (by decide) (by decide)
    (by decide)

def kernelSpider : SpiderPath := ⟨2 ^ 63, [], 0⟩

/-- The formula of a root in the upper half is no formula. -/
theorem toFormulaRaw_upperHalf : ¬ Means kernelSpider (fun _ => True) kernelSpider.toFormulaRaw :=
  not_means_of_spoils (spoils_toFormula_of_base kernelSpider (spoils_lowerHex (le_refl (2 ^ 63))))

end Nemclass.Address
