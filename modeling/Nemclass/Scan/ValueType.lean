import Mathlib.Data.Int.Notation
import Mathlib.Algebra.Order.Ring.Int
import Nemclass.Scan.Compare
import Nemclass.Scan.Pattern

/-! Scan value types, parsed needles, and their comparison against raw bytes.
Integers are little-endian and unbounded here: the code widens to 128 bits,
which no value or sum of two values of at most 64 bits leaves. Floats are the
machine's own IEEE-754 singles and doubles. -/
namespace Nemclass.Scan

inductive ScanValueType where
  | i8
  | i16
  | i32
  | i64
  | u8
  | u16
  | u32
  | u64
  | f32
  | f64
  | bytes
  | stringUtf8
  | stringUtf16
deriving DecidableEq, Repr

namespace ScanValueType

def fixedWidth : ScanValueType → Option ℕ
  | i8 | u8 => some 1
  | i16 | u16 => some 2
  | i32 | u32 | f32 => some 4
  | i64 | u64 | f64 => some 8
  | bytes | stringUtf8 | stringUtf16 => none

theorem fixedWidth_pos {ty : ScanValueType} {w : ℕ} (h : ty.fixedWidth = some w) : 0 < w := by
  cases ty <;> cases h <;> decide

def isString : ScanValueType → Bool
  | stringUtf8 | stringUtf16 => true
  | _ => false

def isSigned : ScanValueType → Bool
  | i8 | i16 | i32 | i64 => true
  | _ => false

def isFloat : ScanValueType → Bool
  | f32 | f64 => true
  | _ => false

end ScanValueType

/-- The little-endian value of a byte string. -/
def leBytes : List UInt8 → ℕ
  | [] => 0
  | b :: bs => b.toNat + 256 * leBytes bs

theorem leBytes_lt (bytes : List UInt8) : leBytes bytes < 256 ^ bytes.length := by
  induction bytes with
  | nil => simp [leBytes]
  | cons b bytes ih =>
    have hb := b.toNat_lt
    rw [leBytes, List.length_cons, Nat.pow_succ]
    omega

/-- A little-endian integer of `width` bytes, sign-extended when `signed`. -/
def readInt (data : List UInt8) (offset width : ℕ) (signed : Bool) : Option ℤ :=
  (slice data offset width).map fun bytes =>
    let acc := leBytes bytes
    if signed ∧ 2 ^ (width * 8 - 1) ≤ acc then (acc : ℤ) - 2 ^ (width * 8) else acc

/-- A little-endian float of 4 or 8 bytes, widened to a double. -/
def readFloat (data : List UInt8) (offset width : ℕ) : Option Float :=
  match slice data offset width with
  | none => none
  | some bytes =>
    if width = 4 then some (Float32.ofBits (leBytes bytes).toUInt32).toFloat
    else if width = 8 then some (Float.ofBits (leBytes bytes).toUInt64)
    else none

def compareInt (compare : ScanCompareType) (cur needle : ℤ) (upper prev : Option ℤ) : Bool :=
  match compare with
  | .exact => cur == needle
  | .notEqual => cur != needle
  | .greaterThan => needle < cur
  | .lessThan => cur < needle
  | .between => needle < cur && upper.all (cur < ·)
  | .unknown => true
  | .increased => prev.any (· < cur)
  | .decreased => prev.any (cur < ·)
  | .changed => prev.any (cur != ·)
  | .unchanged => prev.any (cur == ·)
  | .increasedBy => prev.any fun p => cur == p + needle
  | .decreasedBy => prev.any fun p => cur == p - needle

def compareFloat (compare : ScanCompareType) (cur needle : Float) (upper prev : Option Float)
    (tol : Float) : Bool :=
  let nearly (a b : Float) : Bool := (a - b).abs < tol
  match compare with
  | .exact => nearly cur needle
  | .notEqual => !nearly cur needle
  | .greaterThan => needle < cur
  | .lessThan => cur < needle
  | .between => needle < cur && upper.all (cur < ·)
  | .unknown => true
  | .increased => prev.any (· < cur)
  | .decreased => prev.any (cur < ·)
  | .changed => prev.any fun p => !nearly cur p
  | .unchanged => prev.any (nearly cur)
  | .increasedBy => prev.any fun p => nearly cur (p + needle)
  | .decreasedBy => prev.any fun p => nearly cur (p - needle)

def defaultFloatTolerance : Float := 0.01

/-- The change-relative comparison of a next scan without a needle. -/
def ScanValueType.compareChange (ty : ScanValueType) (compare : ScanCompareType)
    (cur prev : List UInt8) : Bool :=
  match ty.fixedWidth with
  | none =>
    match compare with
    | .changed => cur != prev
    | .unchanged => cur == prev
    | _ => false
  | some width =>
    if cur.length < width ∨ prev.length < width then false
    else if ty.isFloat then
      match readFloat cur 0 width, readFloat prev 0 width with
      | some c, some p => compareFloat compare c 0.0 none (some p) defaultFloatTolerance
      | _, _ => false
    else
      match readInt cur 0 width ty.isSigned, readInt prev 0 width ty.isSigned with
      | some c, some p => compareInt compare c 0 none (some p)
      | _, _ => false

inductive NeedleValue where
  | I (needle : ℤ) (width : ℕ) (upper : Option ℤ)
  | F (needle : Float) (width : ℕ) (upper : Option Float)
  | Bytes (pattern : BytePattern)
  | Str (needle : List UInt8)

/-- The payload a needle of the type is parsed to. -/
def NeedleValue.Fits : NeedleValue → ScanValueType → Prop
  | I _ width _, ty => ty.isFloat = false ∧ ty.fixedWidth = some width
  | F _ width _, ty => ty.isFloat = true ∧ ty.fixedWidth = some width
  | Bytes pattern, ty => ty = .bytes ∧ 0 < pattern.len
  | Str _, ty => ty.isString = true

structure Needle where
  ty : ScanValueType
  value : NeedleValue
  tolerance : Float
  fits : value.Fits ty

namespace Needle

def valueType (n : Needle) : ScanValueType := n.ty

def stride (n : Needle) : ℕ :=
  match n.value with
  | .I _ w _ | .F _ w _ => w
  | .Bytes p => p.len
  | .Str b => b.length

def compare (n : Needle) (data : List UInt8) (offset : ℕ) (compare : ScanCompareType)
    (previous : Option (List UInt8)) : Bool :=
  match n.value with
  | .I needle width upper =>
    match readInt data offset width n.ty.isSigned with
    | none => false
    | some cur =>
      compareInt compare cur needle upper (previous.bind (readInt · 0 width n.ty.isSigned))
  | .F needle width upper =>
    match readFloat data offset width with
    | none => false
    | some cur =>
      compareFloat compare cur needle upper (previous.bind (readFloat · 0 width)) n.tolerance
  | .Bytes pattern =>
    match compare with
    | .exact | .unknown => pattern.matchesAt data offset
    | _ => false
  | .Str needle =>
    match slice data offset needle.length with
    | none => false
    | some window =>
      match compare with
      | .exact | .unknown => window == needle
      | .notEqual => window != needle
      | _ => false

def compareFirst (n : Needle) (data : List UInt8) (offset : ℕ) (compare : ScanCompareType) : Bool :=
  n.compare data offset compare none

def compareNext (n : Needle) (data : List UInt8) (offset : ℕ) (compare : ScanCompareType)
    (previous : List UInt8) : Bool :=
  n.compare data offset compare (some previous)

/-- A needle of a type with a width is as wide as its type. -/
theorem stride_of_fixedWidth (n : Needle) {w : ℕ} (h : n.ty.fixedWidth = some w) :
    n.stride = w := by
  obtain ⟨ty, value, tolerance, fits⟩ := n
  cases value with
  | I needle width upper => exact Option.some.inj (fits.2.symm.trans h)
  | F needle width upper => exact Option.some.inj (fits.2.symm.trans h)
  | Bytes pattern =>
    obtain rfl : ty = .bytes := fits.1
    cases h
  | Str needle =>
    have hnone : ty.fixedWidth = none := by
      have hty : ty.isString = true := fits
      cases ty <;> first | rfl | cases hty
    dsimp only at h
    rw [hnone] at h
    cases h

/-- A comparison looks at the `stride` bytes of its candidate and nothing else. -/
theorem compare_congr (n : Needle) {data data' : List UInt8} {offset offset' : ℕ}
    (h : slice data offset n.stride = slice data' offset' n.stride)
    (compare : ScanCompareType) (previous : Option (List UInt8)) :
    n.compare data offset compare previous = n.compare data' offset' compare previous := by
  obtain ⟨ty, value, tolerance, fits⟩ := n
  cases value with
  | I needle width upper =>
    have hread : readInt data offset width ty.isSigned = readInt data' offset' width ty.isSigned :=
      congrArg _ h
    simp only [Needle.compare, hread]
  | F needle width upper =>
    have hread : readFloat data offset width = readFloat data' offset' width := by
      simp only [readFloat]
      rw [show slice data offset width = slice data' offset' width from h]
    simp only [Needle.compare, hread]
  | Bytes pattern =>
    have hmatch : pattern.matchesAt data offset = pattern.matchesAt data' offset' := by
      simp only [BytePattern.matchesAt]
      rw [show slice data offset pattern.len = slice data' offset' pattern.len from h]
    simp only [Needle.compare, hmatch]
  | Str needle =>
    simp only [Needle.compare]
    rw [show slice data offset needle.length = slice data' offset' needle.length from h]

/-- The candidate at an offset of a longer buffer, seen on its own. -/
theorem compare_window (n : Needle) {data : List UInt8} {offset : ℕ}
    (h : offset + n.stride ≤ data.length) (compare : ScanCompareType)
    (previous : Option (List UInt8)) :
    n.compare data offset compare previous =
      n.compare ((data.drop offset).take n.stride) 0 compare previous := by
  apply n.compare_congr
  have hlen : ((data.drop offset).take n.stride).length = n.stride := by
    rw [List.length_take, List.length_drop]
    omega
  have hwhole := slice_zero_length ((data.drop offset).take n.stride)
  rw [hlen] at hwhole
  rw [hwhole]
  exact slice_eq_some.mpr ⟨h, rfl⟩

end Needle

end Nemclass.Scan
