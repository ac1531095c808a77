import Nemclass.Scan.PointerScan
import Nemclass.Scan.Spider

/-! The address formulas that paths are written as. A pointer path is its anchor relative to
its module, then one bracket for each offset; a spider path adds each offset inside the bracket
that dereferences it, and its last one outside. -/
namespace Nemclass.Scan
open Usize

/-- `0x` and the lower-case digits. -/
def lowerHex (n : ℕ) : String := "0x" ++ String.ofList (Nat.toDigits 16 n)

namespace PointerPath

def anchorFormula (moduleName : String) (baseOff : ℕ) : String :=
  if baseOff = 0 then "<" ++ moduleName ++ ">"
  else "<" ++ moduleName ++ "> + " ++ lowerHex baseOff

/-- `moduleBase` is where the module was loaded when the path was found. -/
def toFormula (p : PointerPath) (moduleName : String) (moduleBase : ℕ) : String :=
  p.offsets.foldl (fun expr off => "[" ++ expr ++ "] + " ++ lowerHex off)
    (anchorFormula moduleName (wrappingSub p.base moduleBase))

end PointerPath

namespace SpiderPath

def toFormula (p : SpiderPath) (baseExpr : String) : String :=
  p.parentOffsets.foldl (fun expr off => "[" ++ expr ++ " + " ++ lowerHex off ++ "]") baseExpr ++
    " + " ++ lowerHex p.offset

def toFormulaRaw (p : SpiderPath) : String := p.toFormula (lowerHex p.root)

/-- `moduleBase` is where the module was loaded when the path was found. -/
def toFormulaAtModule (p : SpiderPath) (moduleName : String) (moduleBase : ℕ) : String :=
  let baseOff := wrappingSub p.root moduleBase
  p.toFormula
    (if baseOff = 0 then "<" ++ moduleName ++ ">"
    else "<" ++ moduleName ++ "> + " ++ lowerHex baseOff)

end SpiderPath

end Nemclass.Scan
