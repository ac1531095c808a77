import Mathlib.Data.Nat.Notation

/-! Scan comparison kinds: the absolute ones need a needle only, the
change-relative ones need the previous scan's value. -/
namespace Nemclass.Scan

inductive ScanCompareType where
  | exact
  | notEqual
  | greaterThan
  | lessThan
  | between
  | unknown
  | increased
  | increasedBy
  | decreased
  | decreasedBy
  | changed
  | unchanged
deriving DecidableEq, Repr

namespace ScanCompareType

def needsPrevious : ScanCompareType → Bool
  | increased | increasedBy | decreased | decreasedBy | changed | unchanged => true
  | _ => false

def isBaseline : ScanCompareType → Bool
  | unknown => true
  | _ => false

def needsNeedle : ScanCompareType → Bool
  | unknown | increased | decreased | changed | unchanged => false
  | _ => true

end ScanCompareType

end Nemclass.Scan
