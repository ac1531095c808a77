import Nemclass.Analysis.Strings
import Nemclass.Scan.NeedleText

/-! All printable runs of a buffer. The scan skips a run that it reports and goes one byte on where
none starts; so a run that starts anywhere starts where the scan stops, or inside a reported one. -/
namespace Nemclass.Analysis
open Scan

/-- The scan from a byte on. -/
def detectFrom (buf : List UInt8) {minLen : ℕ} (hmin : 0 < minLen) (i : ℕ) : List StringRun :=
  if _hi : i < buf.length then
    let (u16Chars, u16Text) := measureUtf16le buf i
    if _hwide : minLen ≤ u16Chars then
      ⟨i, u16Chars * 2, u16Text, .utf16Le⟩ :: detectFrom buf hmin (i + u16Chars * 2)
    else
      let (aChars, aText) := measureAscii buf i
      if _hascii : minLen ≤ aChars then
        ⟨i, aChars, aText, .ascii⟩ :: detectFrom buf hmin (i + aChars)
      else detectFrom buf hmin (i + 1)
  else []
termination_by buf.length - i

/-- A minimum of 0 counts as 1. -/
def detectStrings (buf : List UInt8) (minLen : ℕ) : List StringRun :=
  have hmin : 0 < max minLen 1 := by omega
  detectFrom buf hmin 0

/-- `to_le_bytes` of a UTF-16 unit. -/
def unitBytes (u : UInt16) : List UInt8 := [u.toUInt8, (u >>> 8).toUInt8]

/-- The bytes of a text in an encoding. -/
def StrKind.encode (kind : StrKind) (text : String) : List UInt8 :=
  match kind with
  | ascii => Utf8.bytes text
  | utf16Le => text.toList.flatMap fun c => (encodeUtf16 c).flatMap unitBytes

section Encode

theorem isPrintable_lt {b : UInt8} (h : isPrintable b = true) : b.toNat < 128 := by
  unfold isPrintable at h
  rw [Bool.or_eq_true, Bool.and_eq_true, beq_iff_eq, decide_eq_true_eq, decide_eq_true_eq] at h
  rcases h with rfl | ⟨-, hle⟩
  · decide
  · exact Nat.lt_of_le_of_lt (UInt8.le_iff_toNat_le.mp hle) (by decide)

theorem toNat_ofNat_byte {b : UInt8} (h : b.toNat < 128) : (Char.ofNat b.toNat).toNat = b.toNat := by
  have hvalid : b.toNat.isValidChar := .inl (by omega)
  rw [Char.ofNat, dif_pos hvalid]
  rfl

/-- The characters read off ASCII bytes have these bytes. -/
theorem encode_ascii {run : List UInt8} (h : ∀ b ∈ run, b.toNat < 128) :
    StrKind.ascii.encode (measured run).2 = run := by
  show Utf8.bytes (String.ofList (run.map fun b => Char.ofNat b.toNat)) = run
  rw [Utf8.bytes, String.toList_ofList]
  induction run with
  | nil => rfl
  | cons b run ih =>
    obtain ⟨hb, hrun⟩ := List.forall_mem_cons.mp h
    have hchar := toNat_ofNat_byte hb
    rw [List.map_cons, Utf8.encode_cons, ih hrun, Utf8.encodeChar_ascii (by omega), hchar]
    simp

/-- In UTF-16 each has a zero byte behind it. -/
theorem encode_utf16Le {run : List UInt8} (h : ∀ b ∈ run, b.toNat < 128) :
    StrKind.utf16Le.encode (measured run).2 = run.flatMap fun b => [b, 0] := by
  show (String.ofList (run.map fun b => Char.ofNat b.toNat)).toList.flatMap _ = _
  rw [String.toList_ofList]
  induction run with
  | nil => rfl
  | cons b run ih =>
    obtain ⟨hb, hrun⟩ := List.forall_mem_cons.mp h
    have hchar := toNat_ofNat_byte hb
    have hunits : (encodeUtf16 (Char.ofNat b.toNat)).flatMap unitBytes = [b, 0] := by
      have hlow : b.toNat.toUInt16.toUInt8 = b := by
        rw [← UInt8.toNat_inj, UInt16.toNat_toUInt8, Nat.toUInt16, UInt16.toNat_ofNat']
        omega
      have hhigh : (b.toNat.toUInt16 >>> 8).toUInt8 = 0 := by
        rw [← UInt8.toNat_inj, UInt16.toNat_toUInt8, UInt16.toNat_shiftRight, Nat.toUInt16,
          UInt16.toNat_ofNat', Nat.mod_eq_of_lt (by omega : b.toNat < 2 ^ 16)]
        show (b.toNat >>> 8) % 2 ^ 8 = 0
        rw [Nat.shiftRight_eq_div_pow, Nat.div_eq_of_lt (by omega)]
      rw [encodeUtf16, hchar, if_pos (by omega), List.flatMap_cons, List.flatMap_nil,
        List.append_nil, unitBytes, hlow, hhigh]
    rw [List.map_cons, List.flatMap_cons, ih hrun, List.flatMap_cons, hunits]

/-- The wide run takes twice its characters of the bytes. -/
theorem take_wideRun (bytes : List UInt8) :
    (wideRun bytes).flatMap (fun b => [b, 0]) = bytes.take ((wideRun bytes).length * 2) := by
  fun_induction wideRun bytes with
  | case1 lo hi bytes h ih =>
    have hhi : hi = 0 := by
      rw [Bool.and_eq_true, beq_iff_eq] at h
      exact h.2
    rw [List.flatMap_cons, ih, List.length_cons, Nat.succ_mul, hhi]
    rfl
  | case2 lo hi bytes h => rfl
  | case3 => rfl

theorem printable_wideRun (bytes : List UInt8) : ∀ b ∈ wideRun bytes, isPrintable b = true := by
  fun_induction wideRun bytes with
  | case1 lo hi bytes h ih =>
    rw [Bool.and_eq_true] at h
    exact List.forall_mem_cons.mpr ⟨h.1, ih⟩
  | case2 => simp
  | case3 => simp

/-- The text of a run has the bytes of the run. -/
theorem encode_stringAt {buf : List UInt8} {offset minLen : ℕ} {run : StringRun}
    (h : stringAt buf offset minLen = some run) : run.kind.encode run.text =
      (buf.drop run.offset).take run.lenBytes := by
  unfold stringAt measureUtf16le measureAscii at h
  dsimp only at h
  split_ifs at h with hoff hwide hascii
  · cases h
    have hrun := printable_wideRun (buf.drop offset)
    exact (encode_utf16Le fun b hb => isPrintable_lt (hrun b hb)).trans (take_wideRun _)
  · cases h
    have hrun (b : UInt8) (hb : b ∈ (buf.drop offset).takeWhile isPrintable) : b.toNat < 128 :=
      isPrintable_lt (List.mem_takeWhile_imp hb)
    have hbegins := List.takeWhile_prefix (l := buf.drop offset) isPrintable
    exact (encode_ascii hrun).trans (List.prefix_iff_eq_take.mp hbegins)

end Encode

section Scan
variable {buf : List UInt8} {minLen : ℕ} (hmin : 0 < minLen) {i : ℕ}

theorem stringAt_max (offset minLen : ℕ) :
    stringAt buf offset (max minLen 1) = stringAt buf offset minLen := by
  rw [stringAt, stringAt, Nat.max_eq_left (Nat.le_max_right minLen 1)]

/-- The scan reports what starts at its position. -/
theorem detectFrom_eq (hi : i < buf.length) : detectFrom buf hmin i =
    match stringAt buf i minLen with
    | some run => run :: detectFrom buf hmin (i + run.lenBytes)
    | none => detectFrom buf hmin (i + 1) := by
  rw [detectFrom, stringAt, dif_pos hi, if_neg (Nat.not_le_of_lt hi), Nat.max_eq_left hmin]
  dsimp only
  split_ifs <;> rfl

/-- What holds of a position holds of the whole scan from it. -/
theorem scan_induction {P : ℕ → List StringRun → Prop}
    (hend : ∀ i, buf.length ≤ i → P i [])
    (hrun : ∀ i run, i < buf.length → stringAt buf i minLen = some run →
      P (i + run.lenBytes) (detectFrom buf hmin (i + run.lenBytes)) →
      P i (run :: detectFrom buf hmin (i + run.lenBytes)))
    (hstep : ∀ i, i < buf.length → stringAt buf i minLen = none →
      P (i + 1) (detectFrom buf hmin (i + 1)) → P i (detectFrom buf hmin (i + 1)))
    (i : ℕ) : P i (detectFrom buf hmin i) := by
  induction hn : buf.length - i using Nat.strong_induction_on generalizing i with
  | _ n ih =>
    by_cases hi : i < buf.length
    · rw [detectFrom_eq hmin hi]
      cases hat : stringAt buf i minLen with
      | some run =>
        have hbounds := stringAt_bounds hat
        exact hrun i run hi hat (ih _ (by omega) (i + run.lenBytes) rfl)
      | none => exact hstep i hi hat (ih _ (by omega) (i + 1) rfl)
    · rw [detectFrom, dif_neg hi]
      exact hend i (Nat.le_of_not_lt hi)

theorem stringAt_offset {offset : ℕ} {run : StringRun}
    (h : stringAt buf offset minLen = some run) : run.offset = offset := by
  unfold stringAt at h
  dsimp only at h
  split_ifs at h <;> cases h <;> rfl

/-- The runs of a scan start where a string does, at its position or past it. -/
theorem mem_detectFrom : ∀ run ∈ detectFrom buf hmin i, i ≤ run.offset ∧
    stringAt buf run.offset minLen = some run := by
  refine scan_induction hmin (P := fun i runs => ∀ run ∈ runs, i ≤ run.offset ∧
    stringAt buf run.offset minLen = some run) (by simp) ?_ ?_ i
  · intro i run hi hat ih
    have hoffset := stringAt_offset hat
    refine List.forall_mem_cons.mpr ⟨⟨hoffset.ge, hoffset ▸ hat⟩, fun run' hrun' => ?_⟩
    obtain ⟨hle, hat'⟩ := ih run' hrun'
    exact ⟨by omega, hat'⟩
  · intro i hi hnone ih run hrun
    obtain ⟨hle, hat⟩ := ih run hrun
    exact ⟨by omega, hat⟩

/-- Each run ends where the next one starts, or before it. -/
theorem pairwise_detectFrom :
    (detectFrom buf hmin i).Pairwise fun a b => a.offset + a.lenBytes ≤ b.offset := by
  refine scan_induction hmin (P := fun _ runs => runs.Pairwise fun a b : StringRun =>
    a.offset + a.lenBytes ≤ b.offset) (fun _ _ => .nil) ?_ (fun _ _ _ ih => ih) i
  intro i run hi hat ih
  refine List.pairwise_cons.mpr ⟨fun next hnext => ?_, ih⟩
  rw [stringAt_offset hat]
  exact (mem_detectFrom hmin next hnext).1

/-- Where a string starts from the position on, some run reaches. -/
theorem covers_detectFrom : ∀ o, i ≤ o → (stringAt buf o minLen).isSome = true →
    ∃ run ∈ detectFrom buf hmin i, run.offset ≤ o ∧ o < run.offset + run.lenBytes := by
  refine scan_induction hmin (P := fun i runs => ∀ o, i ≤ o →
    (stringAt buf o minLen).isSome = true →
      ∃ run ∈ runs, run.offset ≤ o ∧ o < run.offset + run.lenBytes) ?_ ?_ ?_ i
  · intro i hi o hle hsome
    obtain ⟨run, hat⟩ := Option.isSome_iff_exists.mp hsome
    have hbounds := stringAt_bounds hat
    omega
  · intro i run hi hat ih o hle hsome
    have hoffset := stringAt_offset hat
    by_cases hin : o < i + run.lenBytes
    · exact ⟨run, List.mem_cons_self, by omega, by omega⟩
    · obtain ⟨run', hrun', hreach⟩ := ih o (by omega) hsome
      exact ⟨run', List.mem_cons_of_mem run hrun', hreach⟩
  · intro i hi hnone ih o hle hsome
    have hne : o ≠ i := by
      rintro rfl
      simp [hnone] at hsome
    exact ih o (by omega) hsome

end Scan

/-- What a list of runs says of a buffer: each run is the string at its offset, lies in the buffer
and has its bytes, the runs follow each other, and every string starts inside one of them. -/
structure Covers (buf : List UInt8) (minLen : ℕ) (runs : List StringRun) : Prop where
  found : ∀ run ∈ runs, stringAt buf run.offset minLen = some run
  inside : ∀ run ∈ runs, 0 < run.lenBytes ∧ run.offset + run.lenBytes ≤ buf.length
  apart : runs.Pairwise fun a b => a.offset + a.lenBytes ≤ b.offset
  bytes : ∀ run ∈ runs, run.kind.encode run.text = (buf.drop run.offset).take run.lenBytes
  covered : ∀ offset, (stringAt buf offset minLen).isSome = true →
    ∃ run ∈ runs, run.offset ≤ offset ∧ offset < run.offset + run.lenBytes

/-- The scan ends, with runs that cover exactly the strings. -/
theorem detectStrings_covers (buf : List UInt8) (minLen : ℕ) :
    Covers buf minLen (detectStrings buf minLen) := by
  have hmin : 0 < max minLen 1 := by omega
  have hfound : ∀ run ∈ detectStrings buf minLen, stringAt buf run.offset minLen = some run :=
    fun run hrun => (stringAt_max _ _).symm.trans (mem_detectFrom hmin run hrun).2
  refine ⟨hfound, fun run hrun => stringAt_bounds (hfound run hrun), pairwise_detectFrom hmin,
    fun run hrun => encode_stringAt (hfound run hrun), fun offset hsome => ?_⟩
  rw [← stringAt_max] at hsome
  exact covers_detectFrom hmin offset (Nat.zero_le _) hsome

end Nemclass.Analysis
