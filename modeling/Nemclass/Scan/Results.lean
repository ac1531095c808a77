import Mathlib.Data.List.Basic
import Mathlib.Algebra.Order.Ring.Nat
import Mathlib.Tactic.Ring

/-! One generation of results, stored as parallel columns: the addresses, and
`stride` bytes for each of them in the current and the previous value column.
The columns carry their lengths, so no operation can let them drift apart.
Reading row by row is the list of rows pushed so far. -/
namespace Nemclass.Scan

structure ScanResult where
  address : ℕ
  current : List UInt8
  previous : List UInt8
deriving DecidableEq, Repr

@[ext] structure ScanResults where
  stride : ℕ
  addresses : List ℕ
  current : List UInt8
  previous : List UInt8
  current_length : current.length = addresses.length * stride
  previous_length : previous.length = addresses.length * stride
deriving DecidableEq, Repr

/-- Exactly `stride` bytes of `src`: cut when longer, zero-padded when shorter. -/
def fixed (src : List UInt8) (stride : ℕ) : List UInt8 :=
  let n := min src.length stride
  src.take n ++ List.replicate (stride - n) 0

@[simp] theorem fixed_length (src : List UInt8) (stride : ℕ) :
    (fixed src stride).length = stride := by
  simp only [fixed, List.length_append, List.length_take, List.length_replicate]
  omega

theorem fixed_of_length {src : List UInt8} {stride : ℕ} (h : src.length = stride) :
    fixed src stride = src := by
  subst h
  simp [fixed]

def pushFixed (dst src : List UInt8) (stride : ℕ) : List UInt8 := dst ++ fixed src stride

namespace ScanResults

def withStride (stride : ℕ) : ScanResults := ⟨stride, [], [], [], by simp, by simp⟩

/-- The sentinel shown before any scan. -/
def empty : ScanResults := withStride 0

def len (r : ScanResults) : ℕ := r.addresses.length

def push (r : ScanResults) (address : ℕ) (current previous : List UInt8) : ScanResults where
  stride := r.stride
  addresses := r.addresses ++ [address]
  current := pushFixed r.current current r.stride
  previous := pushFixed r.previous previous r.stride
  current_length := by simp [pushFixed, r.current_length, Nat.add_mul]
  previous_length := by simp [pushFixed, r.previous_length, Nat.add_mul]

/-- The `i`-th value of a column. -/
def slot (column : List UInt8) (stride i : ℕ) : List UInt8 := (column.drop (i * stride)).take stride

def get (r : ScanResults) (index : ℕ) : Option ScanResult :=
  r.addresses[index]?.map fun address =>
    ⟨address, slot r.current r.stride index, slot r.previous r.stride index⟩

/-- `iter()`: the rows in the order they were pushed. -/
def rows (r : ScanResults) : List ScanResult :=
  r.addresses.zipIdx.map fun (address, i) =>
    ⟨address, slot r.current r.stride i, slot r.previous r.stride i⟩

@[simp] theorem rows_length (r : ScanResults) : r.rows.length = r.len := by simp [rows, len]

@[simp] theorem withStride_rows (stride : ℕ) : (withStride stride).rows = [] := rfl

theorem slot_bound {i n : ℕ} (stride : ℕ) (h : i < n) : i * stride + stride ≤ n * stride := by
  calc i * stride + stride = (i + 1) * stride := by ring
    _ ≤ n * stride := Nat.mul_le_mul_right _ h

/-- A slot is untouched by what is appended after it. -/
theorem slot_append {column extra : List UInt8} {i stride : ℕ}
    (h : i * stride + stride ≤ column.length) :
    slot (column ++ extra) stride i = slot column stride i := by
  unfold slot
  rw [List.drop_append_of_le_length (by omega), List.take_append_of_le_length]
  rw [List.length_drop]
  omega

theorem slot_last {column extra : List UInt8} {n stride : ℕ} (hcol : column.length = n * stride)
    (hextra : extra.length = stride) : slot (column ++ extra) stride n = extra := by
  unfold slot
  rw [← hcol, List.drop_left, ← hextra, List.take_length]

theorem slot_length {column : List UInt8} {i n stride : ℕ} (hcol : column.length = n * stride)
    (h : i < n) : (slot column stride i).length = stride := by
  have := slot_bound stride h
  simp only [slot, List.length_take, List.length_drop]
  omega

theorem rows_push (r : ScanResults) (a : ℕ) (c p : List UInt8) :
    (r.push a c p).rows = r.rows ++ [⟨a, fixed c r.stride, fixed p r.stride⟩] := by
  have hcur := slot_last r.current_length (fixed_length c r.stride)
  have hprev := slot_last r.previous_length (fixed_length p r.stride)
  simp only [rows, push, pushFixed, List.zipIdx_append, List.map_append, List.zipIdx_singleton,
    List.map_singleton, Nat.zero_add, hcur, hprev]
  congr 1
  refine List.map_congr_left fun ⟨x, i⟩ hx => ?_
  have hslot := slot_bound r.stride (List.snd_lt_of_mem_zipIdx hx)
  rw [Nat.add_zero] at hslot
  simp only [slot_append (hslot.trans r.current_length.ge),
    slot_append (hslot.trans r.previous_length.ge)]

theorem rows_map_address (r : ScanResults) : r.rows.map ScanResult.address = r.addresses := by
  simp only [rows, List.map_map, Function.comp_def]
  exact List.zipIdx_map_fst 0 r.addresses

/-- A captured value always has the generation's width. -/
theorem current_length_of_mem {r : ScanResults} {x : ScanResult} (h : x ∈ r.rows) :
    x.current.length = r.stride := by
  obtain ⟨⟨a, i⟩, hmem, rfl⟩ := List.mem_map.mp h
  exact slot_length r.current_length (by simpa using List.snd_lt_of_mem_zipIdx hmem)

end ScanResults

end Nemclass.Scan
