import Mathlib.Data.List.Basic

/-! Array-of-bytes patterns with a mask for each byte. A candidate matches a
byte of the pattern when both agree on the mask's bits. -/
namespace Nemclass.Scan

/-- `data.get(offset..offset + len)`: the bytes, or nothing when they would run past the end. -/
def slice (data : List UInt8) (offset len : ℕ) : Option (List UInt8) :=
  if offset + len ≤ data.length then some ((data.drop offset).take len) else none

theorem slice_eq_some {data bytes : List UInt8} {offset len : ℕ} :
    slice data offset len = some bytes ↔
      offset + len ≤ data.length ∧ (data.drop offset).take len = bytes := by
  unfold slice
  split <;> simp [*]

theorem slice_zero_length (bytes : List UInt8) : slice bytes 0 bytes.length = some bytes := by
  simp [slice]

structure PatternByte where
  value : UInt8
  mask : UInt8
deriving DecidableEq, Repr

namespace PatternByte

def exact (value : UInt8) : PatternByte := ⟨value, 0xFF⟩

def wildcard : PatternByte := ⟨0, 0⟩

def isWildcard (p : PatternByte) : Bool := p.mask != 0xFF

def «matches» (p : PatternByte) (candidate : UInt8) : Bool :=
  (candidate &&& p.mask) == (p.value &&& p.mask)

end PatternByte

structure BytePattern where
  bytes : List PatternByte
deriving DecidableEq, Repr

namespace BytePattern

def fromBytes (data : List UInt8) : BytePattern := ⟨data.map PatternByte.exact⟩

def len (p : BytePattern) : ℕ := p.bytes.length

def hasWildcards (p : BytePattern) : Bool := p.bytes.any PatternByte.isWildcard

def matchesAt (p : BytePattern) (data : List UInt8) (index : ℕ) : Bool :=
  match slice data index p.len with
  | none => false
  | some window => (p.bytes.zip window).all fun pair => pair.1.matches pair.2

end BytePattern

end Nemclass.Scan
