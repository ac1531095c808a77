import Nemclass.Address.Parser
import Nemclass.Lib.Usize

/-! Evaluation of address expressions in wrapping 64-bit arithmetic, over a module
resolver and a memory reader. -/
namespace Nemclass.Address
open Model Usize Outcome

abbrev ModuleResolver := String → Option ℕ

abbrev MemoryReader := ℕ → Except ModelError ℕ

section Evaluate
variable (modules : ModuleResolver) (reader : MemoryReader)

def evaluate : Expr → Except ModelError ℕ
  | .constant n => .ok n.toUInt64.toNat
  | .module name =>
    match modules name with
    | some base => .ok base
    | none => .error (.resolveError s!"module not found: '{name}'")
  | .add lhs rhs => do
    let l ← evaluate lhs
    let r ← evaluate rhs
    .ok (wrappingAdd l r)
  | .sub lhs rhs => do
    let l ← evaluate lhs
    let r ← evaluate rhs
    .ok (wrappingSub l r)
  | .mul lhs rhs => do
    let l ← evaluate lhs
    let r ← evaluate rhs
    .ok (wrappingMul l r)
  | .div lhs rhs => do
    let divisor ← evaluate rhs
    if divisor = 0 then .error (.resolveError "division by zero")
    else
      let l ← evaluate lhs
      .ok (l / divisor)
  | .rem lhs rhs => do
    let divisor ← evaluate rhs
    if divisor = 0 then .error (.resolveError "modulo by zero")
    else
      let l ← evaluate lhs
      .ok (l % divisor)
  | .negate inner => do
    let v ← evaluate inner
    .ok (wrappingNeg v)
  | .deref inner => do
    let addr ← evaluate inner
    reader addr

variable {modules reader}

theorem evaluate_constant {n : ℕ} (hn : n < 2 ^ 63) :
    evaluate modules reader (.constant (Int64.ofNat n)) = .ok n := by
  rw [evaluate, Int64.toUInt64_ofNat', UInt64.toNat_ofNat', Nat.mod_eq_of_lt (by omega)]

theorem evaluate_add {lhs rhs : Expr} {l r : ℕ} (hl : evaluate modules reader lhs = .ok l)
    (hr : evaluate modules reader rhs = .ok r) :
    evaluate modules reader (.add lhs rhs) = .ok (wrappingAdd l r) := by
  rw [evaluate]
  exact bind_eq_ok.mpr ⟨l, hl, bind_eq_ok.mpr ⟨r, hr, rfl⟩⟩

theorem evaluate_module {name : String} {base : ℕ} (h : modules name = some base) :
    evaluate modules reader (.module name) = .ok base := by
  simp [evaluate, h]

end Evaluate

/-- `resolve_formula`: parse and evaluate in one shot. -/
def resolveFormula (formula : String) (modules : ModuleResolver) (reader : MemoryReader) :
    Except ModelError ℕ := do
  let expr ← parse formula
  evaluate modules reader expr

structure ModuleInfoWithName where
  base : ℕ
  size : ℕ
  name : String
deriving DecidableEq

/-- Equal up to the case of ASCII letters. -/
def eqIgnoreAsciiCase (s t : String) : Bool :=
  s.toList.map Char.toLower == t.toList.map Char.toLower

/-- A module list resolves a name to its first match. -/
def resolveModule (modules : List ModuleInfoWithName) (name : String) : Option ℕ :=
  (modules.find? fun m => eqIgnoreAsciiCase m.name name).map (·.base)

end Nemclass.Address
