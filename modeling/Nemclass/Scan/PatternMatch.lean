import Mathlib.Data.List.GetD
import Nemclass.Scan.Pattern

/-! Where a pattern matches, byte by byte. -/
namespace Nemclass.Scan

/-- The byte at an index; every index that is read is in range. -/
def byteAt (haystack : List UInt8) (i : ℕ) : UInt8 := haystack.getD i 0

theorem getElem_slice {data run : List UInt8} {offset len : ℕ}
    (h : slice data offset len = some run) (i : ℕ) (hi : i < run.length) :
    run[i] = byteAt data (offset + i) := by
  obtain ⟨hle, rfl⟩ := slice_eq_some.mp h
  rw [List.length_take, List.length_drop] at hi
  rw [List.getElem_take, List.getElem_drop, byteAt, List.getD_eq_getElem _ _ (by omega)]

theorem length_slice {data run : List UInt8} {offset len : ℕ}
    (h : slice data offset len = some run) : run.length = len := by
  obtain ⟨hle, rfl⟩ := slice_eq_some.mp h
  rw [List.length_take, List.length_drop]
  omega

theorem slice_of_le {data : List UInt8} {offset len : ℕ} (h : offset + len ≤ data.length) :
    slice data offset len = some ((data.drop offset).take len) := if_pos h

/-- Two runs are equal when they are byte by byte. -/
theorem slice_eq_slice_iff {data : List UInt8} {p offset len : ℕ}
    (h : offset + len ≤ data.length) :
    slice data p len = slice data offset len ↔
      p + len ≤ data.length ∧ ∀ i < len, byteAt data (p + i) = byteAt data (offset + i) := by
  have hright := slice_of_le h
  constructor
  · intro heq
    have hleft := heq.trans hright
    refine ⟨(slice_eq_some.mp hleft).1, fun i hi => ?_⟩
    have hrun : i < ((data.drop offset).take len).length := by rwa [length_slice hright]
    rw [← getElem_slice hleft i hrun, getElem_slice hright i hrun]
  · rintro ⟨hle, hbytes⟩
    have hleft := slice_of_le hle
    rw [hleft, hright, Option.some_inj]
    refine List.ext_getElem ?_ fun i hi hi' => ?_
    · rw [length_slice hleft, length_slice hright]
    · rw [getElem_slice hleft i hi, getElem_slice hright i hi']
      exact hbytes i (by rwa [length_slice hleft] at hi)

/-- A pattern matches where it fits and each of its bytes matches. -/
theorem matchesAt_iff {p : BytePattern} {data : List UInt8} {index : ℕ} :
    p.matchesAt data index = true ↔
      index + p.len ≤ data.length ∧
        ∀ i, (h : i < p.bytes.length) → p.bytes[i].matches (byteAt data (index + i)) = true := by
  unfold BytePattern.matchesAt
  by_cases hle : index + p.len ≤ data.length
  · have hslice := slice_of_le hle
    have hlen : ((data.drop index).take p.len).length = p.bytes.length := length_slice hslice
    rw [hslice]
    simp only [hle, true_and, List.all_eq_true, List.forall_mem_iff_forall_getElem,
      List.getElem_zip, List.length_zip, hlen, Nat.min_self]
    refine forall_congr' fun i => forall_congr' fun hi => ?_
    rw [getElem_slice hslice i (by rwa [hlen])]
  · rw [slice, if_neg hle]
    simp [hle]

theorem matches_exact {b c : UInt8} : (PatternByte.exact b).matches c = true ↔ c = b := by
  have hmask (x : UInt8) : x &&& 0xFF = x := UInt8.and_neg_one
  rw [PatternByte.matches, PatternByte.exact, hmask, hmask, beq_iff_eq]

theorem matches_wildcard (c : UInt8) : PatternByte.wildcard.matches c = true := by
  simp [PatternByte.matches, PatternByte.wildcard]

end Nemclass.Scan
