import Nemclass.Lib.Binary64
import Nemclass.Lib.MappedPrefix
import Nemclass.Lib.Usize
import Nemclass.Scan.IntText

/-! What the calls of a script are made of: the values that come and go, the arguments read from
them, and the process that is read from. -/
namespace Nemclass.Ui
open Usize MappedPrefix Scan

/-- `serde_json::Number` -/
inductive Number where
  | posInt (n : ℕ)
  | negInt (n : ℤ)
  | float (q : ℚ)
deriving DecidableEq

def Number.asU64 : Number → Option ℕ
  | posInt n => some n
  | negInt _ | float _ => none

def Number.asF64 : Number → ℚ
  | posInt n => Binary64.roundNat n
  | negInt n => Binary64.roundInt n
  | float q => q

inductive Value where
  | null
  | bool (b : Bool)
  | number (n : Number)
  | string (s : String)
  | array (vs : List Value)
  | object (fields : List (String × Value))

/-- `f as usize` -/
def asUsize (q : ℚ) : ℕ := min q.floor.toNat usizeMax

/-- `json!(f)`; what is not finite has no number. -/
def Value.ofF64 : Option ℚ → Value
  | some q => .number (.float q)
  | none => .null

def Value.get (v : Value) (key : String) : Option Value :=
  match v with
  | object fields => fields.lookup key
  | _ => none

def Value.asStr : Value → Option String
  | string s => some s
  | _ => none

def Value.asF64 : Value → Option ℚ
  | number n => some n.asF64
  | _ => none

def Value.asArray : Value → Option (List Value)
  | array vs => some vs
  | _ => none

/-- A call fails with an error's text, or by an overflow. -/
inductive HostFailure where
  | error (text : String)
  | overflow
deriving DecidableEq

/-- `ok_or_else` -/
def orFail {α : Type} (x : Option α) (text : String) : Except HostFailure α :=
  x.elim (.error (.error text)) .ok

/-- An addition that must not overflow. -/
def addUsize (a b : ℕ) : Except HostFailure ℕ := (checkedAdd a b).elim (.error .overflow) .ok

/-! ## Arguments -/

section Arguments

/- The printing of a value as JSON and that of a string in quotes, which only texts of errors and
names of modules contain. -/
variable (printJson : Value → String) (debugStr : String → String)

def parseAddrStr (s : String) : Except HostFailure ℕ :=
  let t := trim s.toList
  let r := match (t.dropPrefix? ['0', 'x']).or (t.dropPrefix? ['0', 'X']) with
    | some hex => fromStrRadix false 8 16 hex
    | none => fromStrRadix false 8 10 t
  match r with
  | .ok n => .ok n.toNat
  | .error _ => .error (.error ("bad address string: " ++ debugStr s))

def asAddr (v : Value) : Except HostFailure ℕ :=
  match v with
  | .number n =>
    match n.asU64 with
    | some u => .ok u
    | none => if n.asF64 < 0 then .error (.error "negative address") else .ok (asUsize n.asF64)
  | .string s => parseAddrStr debugStr s
  | _ => .error (.error ("expected an address, got " ++ printJson v))

def arg (args : Value) (idx : ℕ) : Except HostFailure Value := do
  let vs ← orFail args.asArray "args must be an array"
  orFail vs[idx]? s!"missing argument #{idx}"

def optArg (args : Value) (idx : ℕ) : Option Value :=
  (args.asArray.bind fun vs => vs[idx]?).filter fun v => match v with
    | .null => false
    | _ => true

def asStr (v : Value) : String :=
  match v with
  | .string s => s
  | other => printJson other

def asF64 (v : Value) : Except HostFailure ℚ :=
  orFail v.asF64 ("expected a number, got " ++ printJson v)

end Arguments

/-! ## The process -/

/-- A module, which is a span of the address space. -/
structure ModuleInfo where
  base : ℕ
  size : ℕ
  name : String
  spans : base + size ≤ usizeMax + 1

/-- A process: its modules, and reads into a buffer, which come back with how many bytes they
brought. -/
structure HostProcess where
  modules : Except String (List ModuleInfo)
  readBuf : ℕ → List UInt8 → Except String ℕ × List UInt8

/-- Reads transfer the longest prefix that is mapped; the rest of the buffer is left as it was. -/
structure HostProcess.Transfers (proc : HostProcess) (mem : ℕ → Option UInt8) : Prop where
  buffer addr buf : (proc.readBuf addr buf).2 = mappedPrefix mem addr buf.length ++
    buf.drop (mappedPrefix mem addr buf.length).length
  whole addr buf : (mappedPrefix mem addr buf.length).length = buf.length →
    (proc.readBuf addr buf).1 = .ok buf.length

/-- A process whose reads bring what is mapped. -/
def reading (mem : ℕ → Option UInt8) (mods : List ModuleInfo) : HostProcess where
  modules := .ok mods
  readBuf addr buf :=
    (.ok (mappedPrefix mem addr buf.length).length,
      mappedPrefix mem addr buf.length ++ buf.drop (mappedPrefix mem addr buf.length).length)

theorem reading_transfers (mem : ℕ → Option UInt8) (mods : List ModuleInfo) :
    (reading mem mods).Transfers mem where
  buffer _ _ := rfl
  whole _ _ h := congrArg Except.ok h

end Nemclass.Ui
