import Mathlib.Data.List.Sort
import Nemclass.Lib.Usize

/-! The scan-target seam: regions and what a target may answer. Addresses are naturals;
where the code adds to an address the sum is checked or saturated as in `Usize`.

A target answers from a state of the outside world, which it may change: two
reads of one address need not agree. The bytes a read transfers are at most as
many as were asked for; the buffer past them is not read by any caller. -/
namespace Nemclass.Scan
open Usize

/-- `nemclass_core::Error` as the Linux build has it; an I/O error is kept as its text. -/
inductive Error where
  | invalidAddress
  | ioError (text : String)
  | errno (code : ℤ)
  | processNotFound
  | moduleNotFound
  | noThreads
  | invalidString
  | processDied
  | partialTransfer (requested actual : ℕ)
  | enumerationUnstable
deriving DecidableEq, Repr

structure Region where
  base : ℕ
  size : ℕ
deriving DecidableEq, Repr

/-- The exclusive end, saturating at the top of the address space. -/
def Region.stop (r : Region) : ℕ := saturatingAdd r.base r.size

theorem Region.stop_le (r : Region) : r.stop ≤ usizeMax := saturatingAdd_le _ _

theorem Region.stop_mk {a b : ℕ} (hab : a ≤ b) (hb : b ≤ usizeMax) :
    (⟨a, b - a⟩ : Region).stop = b := by
  simp only [Region.stop, saturatingAdd]
  omega

/-- Below the top of the address space the end is exact. -/
theorem Region.stop_eq_of_lt {r : Region} (h : r.stop < usizeMax) : r.stop = r.base + r.size := by
  simp only [Region.stop, saturatingAdd] at *
  omega

/-- Regions in ascending order, each ending at or before the next one begins. -/
def Ascending (rs : List Region) : Prop := rs.Pairwise fun a b => a.stop ≤ b.base

instance (rs : List Region) : Decidable (Ascending rs) := by unfold Ascending; infer_instance

/-- The bytes one read transferred: never more than were requested. -/
abbrev Transfer (len : ℕ) := { bytes : List UInt8 // bytes.length ≤ len }

/-- A readable source of target memory, answering from the world `σ`. -/
structure ScanTarget (σ : Type) where
  regions : σ → Except Error (List Region) × σ
  read : σ → ℕ → (len : ℕ) → Except Error (Transfer len) × σ

/-- The bytes of a memory from an address on. -/
def memBytes (mem : ℕ → UInt8) (addr len : ℕ) : List UInt8 :=
  (List.range len).map fun i => mem (addr + i)

@[simp] theorem memBytes_length (mem : ℕ → UInt8) (addr len : ℕ) :
    (memBytes mem addr len).length = len := by simp [memBytes]

theorem memBytes_slice (mem : ℕ → UInt8) (addr : ℕ) {off w len : ℕ} (h : off + w ≤ len) :
    ((memBytes mem addr len).drop off).take w = memBytes mem (addr + off) w := by
  apply List.ext_getElem
  · simp only [List.length_take, List.length_drop, memBytes_length]
    omega
  · intro i _ _
    simp [memBytes, Nat.add_assoc]

/-- An in-memory target: a flat buffer at a base address, under explicit regions. -/
structure MockTarget where
  base : ℕ
  buf : List UInt8
  regions : List Region

namespace MockTarget

/-- Whole buffer, one region. -/
def new (base : ℕ) (buf : List UInt8) : MockTarget := ⟨base, buf, [⟨base, buf.length⟩]⟩

def offsetOf (m : MockTarget) (addr : ℕ) : Option ℕ :=
  if m.base ≤ addr ∧ addr - m.base ≤ m.buf.length then some (addr - m.base) else none

/-- Reads clamp to the buffer, as a live target's do at a region edge. -/
def read (m : MockTarget) (addr len : ℕ) : Transfer len :=
  match m.offsetOf addr with
  | none => ⟨[], Nat.zero_le _⟩
  | some offset => ⟨(m.buf.drop offset).take len, List.length_take_le _ _⟩

/-- A mock target leaves the world alone. -/
def target (m : MockTarget) (σ : Type) : ScanTarget σ where
  regions world := (.ok m.regions, world)
  read world addr len := (.ok (m.read addr len), world)

end MockTarget

end Nemclass.Scan
