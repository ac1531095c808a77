import Mathlib.Data.Finset.Basic
import Nemclass.Scan.Ranges

/-! Reverse pointer scan: from a goal back through recorded pointers to a static
anchor, bounded in depth, offset and number of results. The search shares its
visited set, its suffix of offsets and its output between all frames. -/
namespace Nemclass.Scan
open Usize PartitionPoint

structure PointerScanConfig where
  maxDepth : ℕ := 5
  maxOffset : ℕ := 0x1000
  alignment : ℕ := 4
  pointerSize : ℕ := 8
  staticRanges : List Region := []
  maxResults : ℕ := 5000
  maxMapEntries : ℕ := 8000000

/-- A static anchor and the offsets applied from it to the goal. -/
@[ext] structure PointerPath where
  base : ℕ
  offsets : List ℕ
deriving DecidableEq, Repr

namespace PointerPath

/-- The hops from an address on: every sum but the last is dereferenced. -/
def resolveFrom (readPtr : ℕ → Option ℕ) : List ℕ → ℕ → Option ℕ
  | [], addr => some addr
  | off :: offs, addr => do
    let stepped ← checkedAdd addr off
    let addr ← if offs.isEmpty then some stepped else readPtr stepped
    resolveFrom readPtr offs addr

def resolve (p : PointerPath) (readPtr : ℕ → Option ℕ) : Option ℕ := do
  let addr ← readPtr p.base
  resolveFrom readPtr p.offsets addr

end PointerPath

structure PointerScanResult where
  paths : List PointerPath
  truncated : Bool
deriving DecidableEq, Repr

/-- The harvested `(value, holder)` pairs, sorted by value. -/
structure PointerMap where
  entries : List (ℕ × ℕ)
  truncated : Bool
  sorted : entries.Pairwise fun a b => a.1 ≤ b.1
  bounded : ∀ e ∈ entries, e.1 ≤ usizeMax ∧ e.2 ≤ usizeMax

/-- What the frames of one search share. -/
structure Search where
  visited : Finset ℕ := ∅
  suffix : List ℕ := []
  out : List PointerPath := []
  truncated : Bool := false
deriving DecidableEq

namespace PointerScanConfig

def staticRangesSorted (cfg : PointerScanConfig) : List Range := sortedRanges cfg.staticRanges

end PointerScanConfig

namespace PointerMap
variable (map : PointerMap) (cfg : PointerScanConfig)

/-- All `(value, holder)` with `lo ≤ value ≤ hi`. -/
def range (lo hi : ℕ) : List (ℕ × ℕ) :=
  (map.entries.drop (partitionPoint (·.1 < lo) map.entries)).takeWhile (·.1 ≤ hi)

/-- The loop over the candidate hops of one goal; `next` is the search one level up. -/
def hops (statics : List Range) (next : ℕ → Search → Search) (goal : ℕ) :
    List (ℕ × ℕ) → Search → Search
  | [], st => st
  | (value, addr) :: rest, st =>
    if cfg.maxResults ≤ st.out.length then { st with truncated := true }
    else
      let off := goal - value
      let chain := off :: st.suffix
      if isMapped statics addr then
        hops statics next goal rest { st with out := st.out ++ [⟨addr, chain⟩] }
      else
        let st := next addr { st with suffix := off :: st.suffix }
        hops statics next goal rest { st with suffix := st.suffix.tail }

def solve (statics : List Range) : ℕ → ℕ → Search → Search
  | 0, _, st => if cfg.maxResults ≤ st.out.length then { st with truncated := true } else st
  | depth + 1, goal, st =>
    if cfg.maxResults ≤ st.out.length then { st with truncated := true }
    else if goal ∈ st.visited then st
    else
      let st := { st with visited := insert goal st.visited }
      let st := hops cfg statics (fun addr => solve statics depth addr) goal
        (map.range (goal - cfg.maxOffset) goal) st
      { st with visited := st.visited.erase goal }

def findPaths (goal : ℕ) : PointerScanResult :=
  let st := map.solve cfg cfg.staticRangesSorted cfg.maxDepth goal {}
  ⟨st.out, st.truncated⟩

end PointerMap

end Nemclass.Scan
