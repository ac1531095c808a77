import Mathlib.Order.Lattice.Nat
import Nemclass.Lib.Narrowing
import Nemclass.Scan.PatternMatch
import Nemclass.Scan.PatternText

/-! Signatures: the shortest run at an offset that occurs nowhere else, found by
narrowing the positions where it may occur by one byte after another. -/
namespace Nemclass.Scan
open Narrowing

structure SignatureConfig where
  minLen : ℕ
  maxLen : ℕ

/-- The loop: the length that is compared, and the positions that agree as far. -/
def narrow (haystack : List UInt8) (offset maxLen len : ℕ) (candidates : List ℕ) :
    ℕ × List ℕ :=
  if len < maxLen ∧ 1 < candidates.length then
    let cmp := byteAt haystack (offset + (len + 1) - 1)
    narrow haystack offset maxLen (len + 1) (candidates.filter fun p =>
      p + (len + 1) ≤ haystack.length && byteAt haystack (p + (len + 1) - 1) == cmp)
  else (len, candidates)
termination_by maxLen - len

def makeSignature (haystack : List UInt8) (offset : ℕ) (cfg : SignatureConfig) : Option String :=
  if haystack.length ≤ offset ∨ cfg.maxLen = 0 then none
  else
    let first := byteAt haystack offset
    let candidates := (List.range haystack.length).filter fun i => byteAt haystack i == first
    let maxLen := min cfg.maxLen (haystack.length - offset)
    let (len, candidates) := narrow haystack offset maxLen 1 candidates
    if candidates ≠ [offset] then none
    else
      let finalLen := min (max len cfg.minLen) (haystack.length - offset)
      some (formatSignature ((haystack.drop offset).take finalLen))

/-- The run of `len` bytes at `offset` is found there only. -/
def OccursOnlyAt (haystack : List UInt8) (offset len : ℕ) : Prop :=
  ∀ p, slice haystack p len = slice haystack offset len → p = offset

section Search
variable {haystack : List UInt8} {offset : ℕ}

/-- What one more byte tells of a position. -/
def agrees (haystack : List UInt8) (offset i p : ℕ) : Bool :=
  p + (i + 1) ≤ haystack.length && byteAt haystack (p + i) == byteAt haystack (offset + i)

/-- The positions that agree on the first `len` bytes. -/
def candidates (haystack : List UInt8) (offset len : ℕ) : List ℕ :=
  survivors (List.range haystack.length) (agrees haystack offset) len

/-- Among all positions only `offset` agrees on the first `len` bytes. -/
def Alone (haystack : List UInt8) (offset len : ℕ) : Prop :=
  Isolates (List.range haystack.length) (agrees haystack offset) offset len

theorem agrees_offset {len i : ℕ} (h : offset + len ≤ haystack.length) (hi : i < len) :
    agrees haystack offset i offset = true := by
  rw [agrees, Bool.and_eq_true, decide_eq_true_iff, beq_self_eq_true]
  exact ⟨by omega, rfl⟩

/-- To agree on a run is to hold it. -/
theorem agrees_iff_slice {p len : ℕ} (h : offset + len ≤ haystack.length)
    (hp : p < haystack.length) :
    (∀ i < len, agrees haystack offset i p = true) ↔
      slice haystack p len = slice haystack offset len := by
  rw [slice_eq_slice_iff h]
  simp only [agrees, Bool.and_eq_true, decide_eq_true_iff, beq_iff_eq]
  constructor
  · intro hall
    refine ⟨?_, fun i hi => (hall i hi).2⟩
    cases len with
    | zero => omega
    | succ len => exact (hall len (Nat.lt_succ_self len)).1
  · rintro ⟨hle, hbytes⟩ i hi
    exact ⟨by omega, hbytes i hi⟩

theorem alone_iff {len : ℕ} (hpos : 0 < len) (h : offset + len ≤ haystack.length) :
    Alone haystack offset len ↔ OccursOnlyAt haystack offset len := by
  constructor
  · intro halone p hp
    have hfits := (slice_eq_some.mp (hp.trans (slice_of_le h))).1
    have hlt : p < haystack.length := by omega
    exact halone p (List.mem_range.mpr hlt) ((agrees_iff_slice h hlt).mpr hp)
  · intro honly p hp hall
    exact honly p ((agrees_iff_slice h (List.mem_range.mp hp)).mp hall)

theorem candidates_eq_singleton {len : ℕ} (hoff : offset < haystack.length)
    (h : offset + len ≤ haystack.length) :
    candidates haystack offset len = [offset] ↔ Alone haystack offset len :=
  survivors_eq_singleton List.nodup_range (List.mem_range.mpr hoff) fun _ hi => agrees_offset h hi

theorem length_candidates_le_one {len : ℕ} (hoff : offset < haystack.length)
    (h : offset + len ≤ haystack.length) :
    (candidates haystack offset len).length ≤ 1 ↔ Alone haystack offset len :=
  length_survivors_le_one List.nodup_range (List.mem_range.mpr hoff) fun _ hi => agrees_offset h hi

/-- The loop stops at the first length that leaves one position, or at the last length. -/
theorem narrow_spec {maxLen len : ℕ} (hoff : offset < haystack.length)
    (hmax : offset + maxLen ≤ haystack.length) (hlen : len ≤ maxLen) :
    ∃ L, narrow haystack offset maxLen len (candidates haystack offset len) =
        (L, candidates haystack offset L) ∧
      len ≤ L ∧ L ≤ maxLen ∧ (∀ k, len ≤ k → k < L → ¬ Alone haystack offset k) ∧
      (L < maxLen → Alone haystack offset L) := by
  rw [narrow]
  by_cases hgo : len < maxLen ∧ 1 < (candidates haystack offset len).length
  · rw [if_pos hgo]
    obtain ⟨L, heq, hle, hmaxL, hbefore, hafter⟩ := narrow_spec hoff hmax (Nat.succ_le_of_lt hgo.1)
    refine ⟨L, heq, by omega, hmaxL, fun k hk hlt => ?_, hafter⟩
    rcases hk.eq_or_lt with rfl | hk
    · rw [← length_candidates_le_one hoff (by omega)]
      exact Nat.not_le.mpr hgo.2
    · exact hbefore k hk hlt
  · rw [if_neg hgo]
    refine ⟨len, rfl, le_rfl, hlen, fun k hk hlt => by omega, fun hlt => ?_⟩
    rw [← length_candidates_le_one hoff (by omega)]
    exact Nat.le_of_not_lt fun h => hgo ⟨hlt, h⟩
termination_by maxLen - len

/-- The first candidates are those that agree on one byte. -/
theorem candidates_one :
    (List.range haystack.length).filter (fun i => byteAt haystack i == byteAt haystack offset) =
      candidates haystack offset 1 := by
  refine List.filter_congr fun i hi => ?_
  have hlt := List.mem_range.mp hi
  simp [agrees, Nat.succ_le_of_lt hlt]

/-- The lengths at which the run at `offset` is found nowhere else. -/
def uniqueLengths (haystack : List UInt8) (offset maxLen : ℕ) : Set ℕ :=
  {len | 1 ≤ len ∧ len ≤ min maxLen (haystack.length - offset) ∧ OccursOnlyAt haystack offset len}

/-- Where the loop stops is the least such length, if there is one. -/
theorem isLeast_iff_alone {maxLen L : ℕ} (hoff : offset < haystack.length) (hpos : 1 ≤ L)
    (hle : L ≤ min maxLen (haystack.length - offset))
    (hbefore : ∀ k, 1 ≤ k → k < L → ¬ Alone haystack offset k)
    (hafter : L < min maxLen (haystack.length - offset) → Alone haystack offset L) (l : ℕ) :
    IsLeast (uniqueLengths haystack offset maxLen) l ↔ l = L ∧ Alone haystack offset L := by
  constructor
  · rintro ⟨⟨hl, hlmax, honly⟩, hleast⟩
    have halone : Alone haystack offset l := (alone_iff hl (by omega)).mpr honly
    have hge : L ≤ l := Nat.le_of_not_lt fun hlt => hbefore l hl hlt halone
    rcases hge.eq_or_lt with rfl | hlt
    · exact ⟨rfl, halone⟩
    · have hL := hafter (by omega)
      have := hleast ⟨hpos, hle, (alone_iff hpos (by omega)).mp hL⟩
      omega
  · rintro ⟨rfl, halone⟩
    refine ⟨⟨hpos, hle, (alone_iff hpos (by omega)).mp halone⟩, fun k hk => ?_⟩
    obtain ⟨hk1, hkmax, honly⟩ := hk
    exact Nat.le_of_not_lt fun hlt => hbefore k hk1 hlt ((alone_iff hk1 (by omega)).mpr honly)

/-- A signature is the shortest run that is found nowhere else, made long enough. -/
theorem makeSignature_eq_some {cfg : SignatureConfig} (hmax : 1 ≤ cfg.maxLen) {sig : String} :
    makeSignature haystack offset cfg = some sig ↔
      offset < haystack.length ∧ ∃ L, IsLeast (uniqueLengths haystack offset cfg.maxLen) L ∧
        sig = formatSignature ((haystack.drop offset).take
          (min (max L cfg.minLen) (haystack.length - offset))) := by
  by_cases hoff : offset < haystack.length
  · have hfits : offset + min cfg.maxLen (haystack.length - offset) ≤ haystack.length := by omega
    have hone : 1 ≤ min cfg.maxLen (haystack.length - offset) := by omega
    obtain ⟨L, heq, hpos, hle, hbefore, hafter⟩ := narrow_spec hoff hfits hone
    have hleast := isLeast_iff_alone hoff hpos hle hbefore hafter
    rw [makeSignature, if_neg (by omega)]
    dsimp only
    rw [candidates_one, heq]
    simp only [hleast, hoff, true_and]
    rw [← candidates_eq_singleton hoff (by omega)]
    by_cases hone : candidates haystack offset L = [offset]
    · simp [hone, eq_comm]
    · simp [hone]
  · rw [makeSignature, if_pos (.inl (Nat.le_of_not_lt hoff))]
    simp [hoff]

/-- A run that is found nowhere else stays so when it is made longer. -/
theorem OccursOnlyAt.longer {len len' : ℕ} (h : OccursOnlyAt haystack offset len)
    (hle : len ≤ len') (hfits : offset + len' ≤ haystack.length) :
    OccursOnlyAt haystack offset len' := by
  intro p hp
  obtain ⟨hpfits, hbytes⟩ := (slice_eq_slice_iff hfits).mp hp
  exact h p ((slice_eq_slice_iff (by omega)).mpr ⟨by omega, fun i hi => hbytes i (by omega)⟩)

/-- The pattern of a run matches where the run is. -/
theorem matchesAt_fromBytes {run : List UInt8} {p : ℕ} :
    (BytePattern.fromBytes run).matchesAt haystack p = true ↔
      slice haystack p run.length = some run := by
  have hlen : (BytePattern.fromBytes run).len = run.length := List.length_map _
  rw [matchesAt_iff, hlen]
  simp only [BytePattern.fromBytes, List.getElem_map, matches_exact, List.length_map]
  constructor
  · rintro ⟨hle, hbytes⟩
    have hslice := slice_of_le hle
    rw [hslice, Option.some_inj]
    refine List.ext_getElem (length_slice hslice) fun i hi hi' => ?_
    rw [getElem_slice hslice i hi, hbytes i hi']
  · intro hslice
    exact ⟨(slice_eq_some.mp hslice).1, fun i hi => (getElem_slice hslice i hi).symm⟩

end Search

/-- A signature exists exactly where some run at the offset is found nowhere else; it has the
bytes asked for, and its text reads back as a pattern that matches at the offset only. -/
theorem makeSignature_unique (haystack : List UInt8) (offset : ℕ) (cfg : SignatureConfig)
    (hmax : 1 ≤ cfg.maxLen) :
    ((makeSignature haystack offset cfg).isSome = true ↔
      offset < haystack.length ∧ (uniqueLengths haystack offset cfg.maxLen).Nonempty) ∧
    ∀ sig, makeSignature haystack offset cfg = some sig →
      ∃ L pattern, IsLeast (uniqueLengths haystack offset cfg.maxLen) L ∧
        BytePattern.parse sig = .ok pattern ∧
        pattern.len = min (max L cfg.minLen) (haystack.length - offset) ∧
        ∀ p, pattern.matchesAt haystack p = true ↔ p = offset := by
  constructor
  · rw [Option.isSome_iff_exists]
    constructor
    · rintro ⟨sig, hsig⟩
      obtain ⟨hoff, L, hleast, -⟩ := (makeSignature_eq_some hmax).mp hsig
      exact ⟨hoff, L, hleast.1⟩
    · rintro ⟨hoff, hne⟩
      exact ⟨_, (makeSignature_eq_some hmax).mpr ⟨hoff, _, isLeast_csInf hne, rfl⟩⟩
  · intro sig hsig
    obtain ⟨hoff, L, hleast, rfl⟩ := (makeSignature_eq_some hmax).mp hsig
    obtain ⟨hpos, hle, honly⟩ := hleast.1
    set len := min (max L cfg.minLen) (haystack.length - offset) with hlen
    have hfits : offset + len ≤ haystack.length := by omega
    have hslice := slice_of_le hfits
    have hrun : ((haystack.drop offset).take len).length = len := length_slice hslice
    have hne : (haystack.drop offset).take len ≠ [] := by
      rw [← List.length_pos_iff, hrun]
      omega
    refine ⟨L, .fromBytes _, hleast, parse_formatSignature hne, ?_, fun p => ?_⟩
    · rw [BytePattern.len, BytePattern.fromBytes, List.length_map, hrun]
    · rw [matchesAt_fromBytes, hrun, ← hslice]
      exact ⟨honly.longer (by omega) hfits p, fun hp => by rw [hp]⟩

/-- The bytes `11 22 11 33`: the first run that is found at 2 only is `11 33`. -/
theorem makeSignature_unique_second :
    (makeSignature [0x11, 0x22, 0x11, 0x33] 2 ⟨1, 64⟩).isSome = true ∧
    ∀ sig, makeSignature [0x11, 0x22, 0x11, 0x33] 2 ⟨1, 64⟩ = some sig →
      ∃ pattern, BytePattern.parse sig = .ok pattern ∧
        ∀ p, pattern.matchesAt [0x11, 0x22, 0x11, 0x33] p = true ↔ p = 2 := by
  obtain ⟨hsome, hsig⟩ := makeSignature_unique [0x11, 0x22, 0x11, 0x33] 2 ⟨1, 64⟩ (by decide)
  refine ⟨hsome.mpr ⟨by decide, 2, by decide, by decide, fun p hp => ?_⟩, fun sig h => ?_⟩
  · have hfits := (slice_eq_some.mp (hp.trans (slice_of_le (by decide)))).1
    have hcases : p = 0 ∨ p = 1 ∨ p = 2 := by
      simp at hfits
      omega
    rcases hcases with rfl | rfl | rfl
    · exact absurd hp (by decide)
    · exact absurd hp (by decide)
    · rfl
  · obtain ⟨L, pattern, -, hparse, -, hmatch⟩ := hsig sig h
    exact ⟨pattern, hparse, hmatch⟩

end Nemclass.Scan
