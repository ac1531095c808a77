import Mathlib.Data.PNat.Basic
import Nemclass.Lib.Narrowing
import Nemclass.Scan.PatternMatch
import Nemclass.Scan.PatternText

/-! Masked signatures: a run of code whose operand bytes may be anything. The
search narrows the starts that leave room for the whole decoded span, and may
stop at a shorter length. -/
namespace Nemclass.Analysis
open Narrowing Scan

/-- What is used of an instruction: its length, and where its operands lie in it. -/
structure Instruction where
  len : ℕ+
  operands : List (ℕ × ℕ)

/-- The instruction decoder: what it reads at a position of some code, `none` where it reads no
byte. -/
structure Decoder where
  decode : List UInt8 → ℕ → ℕ → Option Instruction

namespace Instruction

def wildcard (mask : List Bool) (operand : ℕ × ℕ) : List Bool :=
  mask.mapIdx fun i b => b || (operand.1 ≤ i && i < operand.1 + operand.2)

/-- The operand bytes of one instruction. -/
def mask (ins : Instruction) : List Bool :=
  ins.operands.foldl wildcard (List.replicate ins.len false)

end Instruction

namespace Decoder

def maskFrom (decoder : Decoder) (code : List UInt8) (virtualAddress minLen position : ℕ)
    (mask : List Bool) : List Bool :=
  if position < code.length ∧ mask.length < minLen then
    match decoder.decode code virtualAddress position with
    | none => mask
    | some ins =>
      decoder.maskFrom code virtualAddress minLen (position + ins.len) (mask ++ ins.mask)
  else mask
termination_by code.length - position
decreasing_by
  have := ins.len.pos
  omega

/-- The operand bytes of the instructions that cover `minLen` bytes of `code`. -/
def operandWildcardMask (decoder : Decoder) (code : List UInt8) (virtualAddress minLen : ℕ) :
    List Bool :=
  decoder.maskFrom code virtualAddress minLen 0 []

end Decoder

/-- Whether a byte of the span may be anything. -/
def masked (mask : List Bool) (i : ℕ) : Bool := mask.getD i false

/-- The text of the first `len` bytes of the span. -/
def maskedText (haystack : List UInt8) (offset : ℕ) (mask : List Bool) (len : ℕ) : String :=
  formatMasked ((haystack.drop offset).take len) (mask.take len)

/-- The search loop; `candidates` agree on what was compared before. -/
def maskedLoop (haystack : List UInt8) (offset minLen : ℕ) (mask : List Bool) (len : ℕ)
    (candidates : List ℕ) : Option String :=
  let i := len - 1
  let candidates :=
    if masked mask i then candidates
    else candidates.filter fun p => byteAt haystack (p + i) == byteAt haystack (offset + i)
  let unique := candidates = [offset]
  if unique ∧ minLen ≤ len then some (maskedText haystack offset mask len)
  else if mask.length ≤ len then
    if unique then some (maskedText haystack offset mask len) else none
  else maskedLoop haystack offset minLen mask (len + 1) candidates
termination_by mask.length - len

/-- The starts that are narrowed: those that leave room for the whole span. -/
def seed (haystack : List UInt8) (offset : ℕ) (mask : List Bool) : List ℕ :=
  let lastStart := haystack.length - mask.length
  if masked mask 0 then List.range (lastStart + 1)
  else (List.range (lastStart + 1)).filter fun p => byteAt haystack p == byteAt haystack offset

/-- The mask of the code at `offset`, as far as a signature may go. -/
def fullMask (decoder : Decoder) (haystack : List UInt8) (offset maxLen : ℕ) : List Bool :=
  let maxLen := min maxLen (haystack.length - offset)
  decoder.operandWildcardMask (haystack.drop offset) offset maxLen

def makeMaskedSignature (decoder : Decoder) (haystack : List UInt8) (offset minLen maxLen : ℕ) :
    Option String :=
  if haystack.length ≤ offset then none
  else
    let mask := fullMask decoder haystack offset maxLen
    if mask.isEmpty then none
    else maskedLoop haystack offset minLen mask 1 (seed haystack offset mask)

section Search
variable {haystack : List UInt8} {offset minLen : ℕ} {mask : List Bool}

/-- What one more byte of the span tells of a start. -/
def agreesMasked (haystack : List UInt8) (offset : ℕ) (mask : List Bool) (i p : ℕ) : Bool :=
  masked mask i || byteAt haystack (p + i) == byteAt haystack (offset + i)

/-- The starts that leave room for the whole span. -/
def roomyStarts (haystack : List UInt8) (mask : List Bool) : List ℕ :=
  List.range (haystack.length - mask.length + 1)

/-- Of the starts that leave room for the span, only `offset` agrees on its first `len` bytes. -/
def AloneMasked (haystack : List UInt8) (offset : ℕ) (mask : List Bool) (len : ℕ) : Prop :=
  Isolates (roomyStarts haystack mask) (agreesMasked haystack offset mask) offset len

/-- A length at which the search stops with a signature: the shortest one that is long enough and
leaves one start, or the whole span. -/
structure StopsAt (haystack : List UInt8) (offset minLen : ℕ) (mask : List Bool) (len : ℕ) :
    Prop where
  pos : 1 ≤ len
  le_span : len ≤ mask.length
  alone : AloneMasked haystack offset mask len
  enough : minLen ≤ len ∨ len = mask.length
  first : ∀ k, 1 ≤ k → k < len → AloneMasked haystack offset mask k → k < minLen

theorem agreesMasked_offset (i : ℕ) : agreesMasked haystack offset mask i offset = true := by
  rw [agreesMasked, beq_self_eq_true, Bool.or_true]

/-- One round of the loop compares one byte more. -/
theorem filter_agreesMasked (candidates : List ℕ) (i : ℕ) :
    (if masked mask i then candidates
      else candidates.filter fun p => byteAt haystack (p + i) == byteAt haystack (offset + i)) =
      candidates.filter (agreesMasked haystack offset mask i) := by
  split
  · next h =>
    refine (List.filter_eq_self.mpr fun p _ => ?_).symm
    rw [agreesMasked, h, Bool.true_or]
  · next h =>
    refine List.filter_congr fun p _ => ?_
    rw [agreesMasked, Bool.eq_false_iff.mpr h, Bool.false_or]

theorem seed_eq : seed haystack offset mask =
    survivors (roomyStarts haystack mask) (agreesMasked haystack offset mask) 1 :=
  filter_agreesMasked (roomyStarts haystack mask) 0

theorem survivors_eq_offset (hspan : offset + mask.length ≤ haystack.length) (len : ℕ) :
    survivors (roomyStarts haystack mask) (agreesMasked haystack offset mask) len = [offset] ↔
      AloneMasked haystack offset mask len :=
  survivors_eq_singleton List.nodup_range (List.mem_range.mpr (by omega)) fun i _ =>
    agreesMasked_offset i

/-- There is one such length at most. -/
theorem StopsAt.unique {L L' : ℕ} (h : StopsAt haystack offset minLen mask L)
    (h' : StopsAt haystack offset minLen mask L') : L = L' := by
  rcases Nat.lt_trichotomy L L' with hlt | heq | hlt
  · have := h'.first L h.pos hlt h.alone
    have := h.enough
    have := h'.le_span
    omega
  · exact heq
  · have := h.first L' h'.pos hlt h'.alone
    have := h'.enough
    have := h.le_span
    omega

theorem StopsAt.text_iff {L : ℕ} (h : StopsAt haystack offset minLen mask L) {sig : String} :
    some (maskedText haystack offset mask L) = some sig ↔
      ∃ L', StopsAt haystack offset minLen mask L' ∧ sig = maskedText haystack offset mask L' := by
  rw [Option.some_inj]
  constructor
  · rintro rfl
    exact ⟨L, h, rfl⟩
  · rintro ⟨L', h', rfl⟩
    rw [h.unique h']

/-- The loop yields the text of the length it stops at. -/
theorem maskedLoop_eq_some (hspan : offset + mask.length ≤ haystack.length) {len : ℕ}
    (hpos : 1 ≤ len) (hlen : len ≤ mask.length)
    (hbefore : ∀ k, 1 ≤ k → k < len → AloneMasked haystack offset mask k → k < minLen)
    {candidates : List ℕ}
    (hcandidates : candidates.filter (agreesMasked haystack offset mask (len - 1)) =
      survivors (roomyStarts haystack mask) (agreesMasked haystack offset mask) len)
    {sig : String} :
    maskedLoop haystack offset minLen mask len candidates = some sig ↔
      ∃ L, StopsAt haystack offset minLen mask L ∧ sig = maskedText haystack offset mask L := by
  have halone := survivors_eq_offset hspan len
  rw [maskedLoop, filter_agreesMasked, hcandidates]
  split_ifs with hstop hend hunique
  · have hstops : StopsAt haystack offset minLen mask len :=
      ⟨hpos, hlen, halone.mp hstop.1, .inl hstop.2, hbefore⟩
    exact hstops.text_iff
  · have hstops : StopsAt haystack offset minLen mask len :=
      ⟨hpos, hlen, halone.mp hunique, .inr (by omega), hbefore⟩
    exact hstops.text_iff
  · refine iff_of_false nofun ?_
    rintro ⟨L, hL, -⟩
    have := hL.le_span
    exact hunique (halone.mpr (hL.alone.mono (by omega)))
  · refine maskedLoop_eq_some hspan (by omega) (by omega) (fun k hk hlt hkalone => ?_) rfl
    rcases Nat.lt_succ_iff_lt_or_eq.mp hlt with hlt | rfl
    · exact hbefore k hk hlt hkalone
    · exact Nat.lt_of_not_le fun hmin => hstop ⟨halone.mpr hkalone, hmin⟩
termination_by mask.length - len

theorem makeMaskedSignature_eq_some {decoder : Decoder} {maxLen : ℕ}
    (hspan : (fullMask decoder haystack offset maxLen).length ≤ haystack.length - offset)
    {sig : String} :
    makeMaskedSignature decoder haystack offset minLen maxLen = some sig ↔
      ∃ L, StopsAt haystack offset minLen (fullMask decoder haystack offset maxLen) L ∧
        sig = maskedText haystack offset (fullMask decoder haystack offset maxLen) L := by
  rw [makeMaskedSignature]
  dsimp only
  generalize fullMask decoder haystack offset maxLen = mask at hspan ⊢
  split_ifs with hoff hempty
  · refine iff_of_false nofun ?_
    rintro ⟨L, hL, -⟩
    have := hL.pos
    have := hL.le_span
    omega
  · refine iff_of_false nofun ?_
    rintro ⟨L, hL, -⟩
    have := hL.pos
    have := hL.le_span
    rw [List.isEmpty_iff.mp hempty, List.length_nil] at this
    omega
  · have hne : 1 ≤ mask.length := by
      rw [List.isEmpty_iff] at hempty
      exact List.length_pos_iff.mpr hempty
    refine maskedLoop_eq_some (by omega) le_rfl hne (fun k hk hlt => by omega) ?_
    rw [seed_eq, survivors, List.filter_filter]
    simp only [Bool.and_self]

/-! ## What a signature matches -/

/-- The text reads as a pattern of at most `maxLen` bytes that matches at `offset` only. -/
def UniqueSignature (haystack : List UInt8) (offset maxLen : ℕ) (sig : String) : Prop :=
  ∃ pattern, BytePattern.parse sig = .ok pattern ∧ pattern.len ≤ maxLen ∧
    ∀ p, pattern.matchesAt haystack p = true ↔ p = offset

theorem length_maskedBytes {L : ℕ} (hL : L ≤ mask.length)
    (hspan : offset + mask.length ≤ haystack.length) :
    (maskedBytes ((haystack.drop offset).take L) (mask.take L)).length = L := by
  rw [maskedBytes, List.length_map, List.length_zip, List.length_take, List.length_take,
    List.length_drop]
  omega

/-- One byte of the pattern matches what agrees with the span there. -/
theorem matches_maskedBytes {L i p : ℕ} (hL : L ≤ mask.length)
    (hspan : offset + mask.length ≤ haystack.length)
    (hi : i < (maskedBytes ((haystack.drop offset).take L) (mask.take L)).length) :
    (maskedBytes ((haystack.drop offset).take L) (mask.take L))[i].matches
        (byteAt haystack (p + i)) = true ↔ agreesMasked haystack offset mask i p = true := by
  have hiL : i < L := by rwa [length_maskedBytes hL hspan] at hi
  have hslice := slice_of_le (show offset + L ≤ haystack.length by omega)
  have hbyte := getElem_slice hslice i (by rwa [length_slice hslice])
  have hmask : masked mask i = mask[i] := List.getD_eq_getElem _ _ _
  simp only [maskedBytes, List.getElem_map, List.getElem_zip, hbyte, List.getElem_take]
  rw [agreesMasked, hmask, Bool.or_eq_true, beq_iff_eq]
  cases mask[i] with
  | true => simp [matches_wildcard]
  | false => simp [matches_exact]

/-- The pattern of a prefix of the span matches where its bytes agree. -/
theorem matchesAt_masked {L : ℕ} (hL : L ≤ mask.length)
    (hspan : offset + mask.length ≤ haystack.length) {p : ℕ} :
    (⟨maskedBytes ((haystack.drop offset).take L) (mask.take L)⟩ : BytePattern).matchesAt
        haystack p = true ↔
      p + L ≤ haystack.length ∧ ∀ i < L, agreesMasked haystack offset mask i p = true := by
  rw [matchesAt_iff]
  simp only [BytePattern.len, matches_maskedBytes hL hspan, length_maskedBytes hL hspan]

theorem uniqueSignature_iff {L maxLen : ℕ} (hpos : 1 ≤ L) (hL : L ≤ mask.length)
    (hspan : offset + mask.length ≤ haystack.length) :
    UniqueSignature haystack offset maxLen (maskedText haystack offset mask L) ↔
      L ≤ maxLen ∧ ∀ p, p + L ≤ haystack.length →
        (∀ i < L, agreesMasked haystack offset mask i p = true) → p = offset := by
  have hlen := length_maskedBytes hL hspan
  have hne : maskedBytes ((haystack.drop offset).take L) (mask.take L) ≠ [] :=
    List.ne_nil_of_length_pos (by omega)
  have hparse := parse_formatMasked hne
  constructor
  · rintro ⟨pattern, hpattern, hmax, hmatch⟩
    cases hparse.symm.trans hpattern
    rw [BytePattern.len, hlen] at hmax
    exact ⟨hmax, fun p hp hall => (hmatch p).mp ((matchesAt_masked hL hspan).mpr ⟨hp, hall⟩)⟩
  · rintro ⟨hmax, honly⟩
    refine ⟨_, hparse, hlen.trans_le hmax, fun p => ?_⟩
    rw [matchesAt_masked hL hspan]
    constructor
    · exact fun h => honly p h.1 h.2
    · rintro rfl
      exact ⟨by omega, fun i _ => agreesMasked_offset i⟩

/-- Where the search stops no start that leaves room for the span agrees; what is left are the
starts behind them. -/
theorem StopsAt.uniqueSignature_iff {L maxLen : ℕ} (h : StopsAt haystack offset minLen mask L)
    (hspan : offset + mask.length ≤ haystack.length) :
    UniqueSignature haystack offset maxLen (maskedText haystack offset mask L) ↔
      L ≤ maxLen ∧ ∀ p, haystack.length - mask.length < p → p + L ≤ haystack.length →
        ∃ i < L, agreesMasked haystack offset mask i p = false := by
  rw [Analysis.uniqueSignature_iff h.pos h.le_span hspan]
  refine and_congr_right fun _ => ⟨fun honly p hp hfits => ?_, fun hlate p hfits hall => ?_⟩
  · by_contra hnone
    push Not at hnone
    have hp' := honly p hfits fun i hi => by simpa using hnone i hi
    omega
  · rcases Nat.lt_or_ge (haystack.length - mask.length) p with hp | hp
    · obtain ⟨i, hi, hfalse⟩ := hlate p hp hfits
      rw [hall i hi] at hfalse
      cases hfalse
    · exact h.alone p (List.mem_range.mpr (by omega)) hall

end Search

/-- A masked signature is unique and short enough exactly where the length at which the search
stops is, and no start behind those it narrowed agrees on the bytes of that length. -/
theorem makeMaskedSignature_unique_iff (decoder : Decoder) (haystack : List UInt8)
    (offset minLen maxLen : ℕ)
    (hspan : (fullMask decoder haystack offset maxLen).length ≤ haystack.length - offset) :
    (∀ sig, makeMaskedSignature decoder haystack offset minLen maxLen = some sig →
      UniqueSignature haystack offset maxLen sig) ↔
    ∀ L, StopsAt haystack offset minLen (fullMask decoder haystack offset maxLen) L →
      L ≤ maxLen ∧
      ∀ p, haystack.length - (fullMask decoder haystack offset maxLen).length < p →
        p + L ≤ haystack.length →
        ∃ i < L, agreesMasked haystack offset (fullMask decoder haystack offset maxLen) i p =
          false := by
  constructor
  · intro hunique L hL
    have hroom := hL.pos.trans hL.le_span
    exact (hL.uniqueSignature_iff (by omega)).mp
      (hunique _ ((makeMaskedSignature_eq_some hspan).mpr ⟨L, hL, rfl⟩))
  · intro hlate sig hsig
    obtain ⟨L, hL, rfl⟩ := (makeMaskedSignature_eq_some hspan).mp hsig
    have hroom := hL.pos.trans hL.le_span
    exact (hL.uniqueSignature_iff (by omega)).mpr (hlate L hL)

/-- The decoder on code of one-byte instructions without operands, such as `push` and `nop`. -/
def singleByte : Decoder := ⟨fun _ _ _ => some ⟨1, []⟩⟩

theorem fullMask_singleByte {haystack : List UInt8} (h : haystack.length = 4) :
    fullMask singleByte haystack 0 2 = [false, false] := by
  have hmask : singleByte.maskFrom (haystack.drop 0) 0 2 0 [] = [false, false] := by
    rw [Decoder.maskFrom, if_pos (by simp [h])]
    change singleByte.maskFrom _ 0 2 1 [false] = _
    rw [Decoder.maskFrom, if_pos (by simp [h])]
    change singleByte.maskFrom _ 0 2 2 [false, false] = _
    rw [Decoder.maskFrom, if_neg (by simp)]
  rw [fullMask, h]
  exact hmask

/-- One byte tells `push rax` from the two `nop` behind it, whatever follows. -/
theorem stopsAt_push (last : UInt8) :
    StopsAt [0x50, 0x90, 0x90, last] 0 1 [false, false] 1 := by
  refine ⟨le_rfl, by decide, fun p hp hall => ?_, .inl le_rfl, fun k hk hlt => by omega⟩
  have hp3 : p = 0 ∨ p = 1 ∨ p = 2 := by
    have := List.mem_range.mp hp
    simp at this
    omega
  have hfirst := hall 0 (by decide)
  rcases hp3 with rfl | rfl | rfl
  · rfl
  · simp [agreesMasked, masked, byteAt] at hfirst
  · simp [agreesMasked, masked, byteAt] at hfirst

theorem span_push (last : UInt8) :
    (fullMask singleByte [0x50, 0x90, 0x90, last] 0 2).length ≤ 4 - 0 := by
  rw [fullMask_singleByte rfl]
  decide

theorem makeMaskedSignature_push (last : UInt8) :
    makeMaskedSignature singleByte [0x50, 0x90, 0x90, last] 0 1 2 = some "50" := by
  refine (makeMaskedSignature_eq_some (span_push last)).mpr ⟨1, ?_, ?_⟩
  · rw [fullMask_singleByte rfl]
    exact stopsAt_push last
  · rw [fullMask_singleByte rfl]
    rfl

/-- `push rax` before two `nop` and a `ret` comes once. -/
theorem makeMaskedSignature_unique_push :
    makeMaskedSignature singleByte [0x50, 0x90, 0x90, 0xC3] 0 1 2 = some "50" ∧
      UniqueSignature [0x50, 0x90, 0x90, 0xC3] 0 2 "50" := by
  have hmask : fullMask singleByte [0x50, 0x90, 0x90, 0xC3] 0 2 = [false, false] :=
    fullMask_singleByte rfl
  have hunique := (makeMaskedSignature_unique_iff singleByte [0x50, 0x90, 0x90, 0xC3] 0 1 2
    (span_push 0xC3)).mpr
  rw [hmask] at hunique
  refine ⟨makeMaskedSignature_push 0xC3, hunique (fun L hL => ?_) _ (makeMaskedSignature_push 0xC3)⟩
  refine ⟨hL.le_span, fun p hp hfits => ⟨0, hL.pos, ?_⟩⟩
  simp at hp hfits
  have hpos := hL.pos
  obtain rfl : p = 3 := by omega
  decide

/-- `push rax` at the start is found again behind the starts that leave room for two bytes. -/
theorem push_notUnique :
    ¬ ∀ (decoder : Decoder) (haystack : List UInt8) (offset minLen maxLen : ℕ) (sig : String),
      (fullMask decoder haystack offset maxLen).length ≤ haystack.length - offset →
      makeMaskedSignature decoder haystack offset minLen maxLen = some sig →
      UniqueSignature haystack offset maxLen sig := by
  intro h
  have hunique := h singleByte [0x50, 0x90, 0x90, 0x50] 0 1 2 "50" (span_push 0x50)
    (makeMaskedSignature_push 0x50)
  have hlate := ((stopsAt_push 0x50).uniqueSignature_iff (by decide)).mp hunique
  exact absurd (hlate.2 3 (by decide) (by decide)) (by decide)

end Nemclass.Analysis
