import Nemclass.Scan.IntText
import Nemclass.Scan.NeedleMeaning

/-! The values of the cheat table as text. What is shown of an integer is read back as its bytes.
Beyond that the table reads texts in its own way: what it reads is what the scanner's needle reads
unless an unsigned number is cut to the type, or the needle takes a text that is no plain signed
decimal. -/
namespace Nemclass.Ui
open Scan Outcome

def parseUintText (t : List Char) : Except IntErrorKind ℤ :=
  let t := trim t
  match (t.dropPrefix? ['0', 'x']).or (t.dropPrefix? ['0', 'X']) with
  | some hex => fromStrRadix false 8 16 hex
  | none => fromStrRadix false 8 10 t

/-- The bytes of a signed number of the type, which is decimal. -/
def signedToBytes (width : ℕ) (t : List Char) : Option (List UInt8) :=
  (fromStrRadix true width 10 t).toOption.map (toLeBytes width)

/-- The bytes of a number of 64 bits, cast to the type. -/
def unsignedToBytes (width : ℕ) (t : List Char) : Option (List UInt8) :=
  (parseUintText t).toOption.map fun n => toLeBytes width (n % 2 ^ (8 * width))

/-- An integer of the type if there are bytes enough, and else the bytes. -/
def formatInteger (signed : Bool) (width : ℕ) (bytes : List UInt8) : String :=
  if width ≤ bytes.length then String.ofList (display (fromLeBytes signed (bytes.take width)))
  else formatSignature bytes

section Values

/- The float syntax of the standard library, to the bytes of a value of the width, and the
printing of a float's bytes. -/
variable (parseFloat : ℕ → List Char → Option (List UInt8)) (formatFloat : ℕ → List UInt8 → String)

def valueTextToBytes (vt : ScanValueType) (text : String) : Option (List UInt8) :=
  let t := trim text.toList
  match vt with
  | .i8 => signedToBytes 1 t
  | .i16 => signedToBytes 2 t
  | .i32 => signedToBytes 4 t
  | .i64 => signedToBytes 8 t
  | .u8 => unsignedToBytes 1 t
  | .u16 => unsignedToBytes 2 t
  | .u32 => unsignedToBytes 4 t
  | .u64 => unsignedToBytes 8 t
  | .f32 => parseFloat 4 t
  | .f64 => parseFloat 8 t
  | .bytes | .stringUtf8 | .stringUtf16 => none

def formatValueBytes (bytes : List UInt8) (vt : ScanValueType) : String :=
  match vt with
  | .i8 => formatInteger true 1 bytes
  | .i16 => formatInteger true 2 bytes
  | .i32 => formatInteger true 4 bytes
  | .i64 => formatInteger true 8 bytes
  | .u8 => formatInteger false 1 bytes
  | .u16 => formatInteger false 2 bytes
  | .u32 => formatInteger false 4 bytes
  | .u64 => formatInteger false 8 bytes
  | .f32 => if 4 ≤ bytes.length then formatFloat 4 (bytes.take 4) else formatSignature bytes
  | .f64 => if 8 ≤ bytes.length then formatFloat 8 (bytes.take 8) else formatSignature bytes
  | .bytes | .stringUtf8 | .stringUtf16 => formatSignature bytes

end Values

/-- The magnitudes that the text spells below 2⁶⁴ are numbers of the type. -/
def Uncut (width : ℕ) (t : List Char) : Prop :=
  ∀ m, Magnitude t m → m < 2 ^ 64 → m < 2 ^ (8 * width)

/-- Where the magnitude gives a needle of the type, at once or around the top of 128 bits, the text
is a plain signed decimal of the type. -/
structure Plain (width : ℕ) (t : List Char) : Prop where
  positive {m} : Magnitude t m → m < 2 ^ 128 →
    m < 2 ^ (8 * width - 1) ∨ 2 ^ 128 - 2 ^ (8 * width - 1) ≤ m →
    m < 2 ^ (8 * width - 1) ∧ Reads true 10 t m
  negative {body m} : t = '-' :: body → Magnitude (trim body) m → m < 2 ^ 128 →
    m ≤ 2 ^ (8 * width - 1) ∨ 2 ^ 128 - 2 ^ (8 * width - 1) < m →
    m ≤ 2 ^ (8 * width - 1) ∧ Reads true 10 t (-m)

section Reading

theorem reads_unsigned {radix : ℕ} {cs : List Char} {v : ℤ} :
    Reads false radix cs v ↔ ∃ m : ℕ, Numeral radix cs m ∧ (m : ℤ) = v := by
  constructor
  · rintro (h | ⟨hsigned, -⟩)
    · exact ⟨_, h, rfl⟩
    · cases hsigned
  · rintro ⟨m, h, rfl⟩
    exact .positive h

theorem inRange_u64 {m : ℕ} : InRange false 8 m ↔ m < 2 ^ 64 := by
  rw [inRange_natCast]
  rfl

theorem parseUintText_eq_ok {t : List Char} {v : ℤ} : parseUintText t = .ok v ↔
    ∃ m : ℕ, (Magnitude (trim t) m ∧ m < 2 ^ 64) ∧ (m : ℤ) = v := by
  have hread (radix : ℕ) (hradix : 0 < radix) (src : List Char) :
      fromStrRadix false 8 radix src = .ok v ↔
        ∃ m : ℕ, (Numeral radix src m ∧ m < 2 ^ 64) ∧ (m : ℤ) = v := by
    rw [fromStrRadix_eq_ok hradix, reads_unsigned, ← exists_and_right]
    refine exists_congr fun m => ?_
    constructor
    · rintro ⟨⟨hm, rfl⟩, hrange⟩
      exact ⟨⟨hm, inRange_u64.mp hrange⟩, rfl⟩
    · rintro ⟨⟨hm, hlt⟩, rfl⟩
      exact ⟨⟨hm, rfl⟩, inRange_u64.mpr hlt⟩
  unfold parseUintText
  dsimp only
  cases hhex : ((trim t).dropPrefix? ['0', 'x']).or ((trim t).dropPrefix? ['0', 'X']) with
  | none => simp only [hread 10 (by decide), magnitude_iff_of_hexPrefix_none hhex]
  | some hex => simp only [hread 16 (by decide), magnitude_iff_of_hexPrefix_some hhex]

/-- A text spells one magnitude. -/
theorem magnitude_unique {t : List Char} {m n : ℕ} (hm : Magnitude t m) (hn : Magnitude t n)
    (hlt : m < 2 ^ 128) (hlt' : n < 2 ^ 128) : m = n := by
  have hm' := parseU128Radix_eq_ok.mpr ⟨hm.trim_eq.symm ▸ hm, hlt⟩
  have hn' := parseU128Radix_eq_ok.mpr ⟨hn.trim_eq.symm ▸ hn, hlt'⟩
  exact Except.ok.inj (hm'.symm.trans hn')

theorem signedToBytes_eq_some {width : ℕ} {t : List Char} {b : List UInt8} :
    signedToBytes width t = some b ↔
      ∃ v, (Reads true 10 t v ∧ InRange true width v) ∧ toLeBytes width v = b := by
  simp only [signedToBytes, Option.map_eq_some_iff, toOption_eq_some,
    fromStrRadix_eq_ok (by decide : 0 < 10)]

theorem unsignedToBytes_eq_some {width : ℕ} {t : List Char} (ht : trim t = t) {b : List UInt8} :
    unsignedToBytes width t = some b ↔
      ∃ m : ℕ, (Magnitude t m ∧ m < 2 ^ 64) ∧ toLeBytes width ((m : ℤ) % 2 ^ (8 * width)) = b := by
  simp only [unsignedToBytes, Option.map_eq_some_iff, toOption_eq_some, parseUintText_eq_ok, ht]
  constructor
  · rintro ⟨_, ⟨m, hm, rfl⟩, hb⟩
    exact ⟨m, hm, hb⟩
  · rintro ⟨m, hm, hb⟩
    exact ⟨m, ⟨m, hm, rfl⟩, hb⟩

/-- A needle of an unsigned type, by the magnitude of its text. -/
theorem parseUint_eq_ok_natCast {width : ℕ} {t : List Char} (ht : trim t = t) {v : ℤ} :
    parseUint width t = .ok v ↔
      ∃ m : ℕ, (Magnitude t m ∧ m < 2 ^ 128) ∧ (m : ℤ) = v ∧ m < 2 ^ (8 * width) := by
  rw [parseUint_eq_ok, ht]
  refine exists_congr fun m => and_congr_right fun _ => and_congr_right fun hv => ?_
  rw [← hv]
  exact inRange_natCast

end Reading

section Agreement

variable {width : ℕ} {t : List Char}

/-- The table reads an unsigned text as the needle does, exactly if it does not cut it. -/
theorem unsigned_agrees (hwidth : width ≤ 8) (ht : trim t = t) :
    (∀ b, unsignedToBytes width t = some b ↔
      ∃ v, parseUint width t = .ok v ∧ toLeBytes width v = b) ↔ Uncut width t := by
  have hpow : 2 ^ (8 * width) ≤ 2 ^ 64 := Nat.pow_le_pow_right (by decide) (by omega)
  constructor
  · intro h m hm hlt
    obtain ⟨v, hv, -⟩ := (h _).mp ((unsignedToBytes_eq_some ht).mpr ⟨m, ⟨hm, hlt⟩, rfl⟩)
    obtain ⟨n, ⟨hn, hlt'⟩, -, hfits⟩ := (parseUint_eq_ok_natCast ht).mp hv
    rwa [magnitude_unique hm hn (by omega) hlt']
  · intro h b
    rw [unsignedToBytes_eq_some ht]
    constructor
    · rintro ⟨m, ⟨hm, hlt⟩, rfl⟩
      have hfits := h m hm hlt
      refine ⟨m, (parseUint_eq_ok_natCast ht).mpr ⟨m, ⟨hm, by omega⟩, rfl, hfits⟩, ?_⟩
      rw [Int.emod_eq_of_lt (Int.natCast_nonneg m) (by exact_mod_cast hfits)]
    · rintro ⟨v, hv, rfl⟩
      obtain ⟨m, ⟨hm, -⟩, rfl, hfits⟩ := (parseUint_eq_ok_natCast ht).mp hv
      refine ⟨m, ⟨hm, by omega⟩, ?_⟩
      rw [Int.emod_eq_of_lt (Int.natCast_nonneg m) (by exact_mod_cast hfits)]

/-- A plain signed decimal is what the needle reads. -/
theorem parseInt_of_reads (hwidth : width ≤ 8) {v : ℤ} (hreads : Reads true 10 t v)
    (hrange : InRange true width v) : parseInt width t = .ok v := by
  obtain ⟨-, hhalf⟩ := half_bounds hwidth
  have hbounds : -2 ^ (8 * width - 1) ≤ v ∧ v < 2 ^ (8 * width - 1) := hrange
  cases hreads with
  | @positive _ m hm =>
    have hmagnitude : Magnitude t m := .decimal hm
    refine (parseInt_plain_eq_ok ?_).mpr ⟨m, ⟨hmagnitude.trim_eq.symm ▸ hmagnitude, by omega⟩,
      asI128_of_lt (by omega), hrange⟩
    rintro body rfl
    exact hmagnitude.not_minus
  | @negative digits m _ hne hm =>
    have hmagnitude : Magnitude digits m := .decimal ⟨digits, hne, .inl rfl, hm⟩
    have hsmall : asI128 m = m := asI128_of_lt (by omega)
    refine parseInt_minus_eq_ok.mpr
      ⟨m, ⟨hmagnitude.trim_eq.symm ▸ hmagnitude, by omega⟩, ⟨?_, by rw [hsmall]⟩, hrange⟩
    rw [hsmall]
    omega

/-- A needle's value that the table reads too is spelled by the text as it stands. -/
theorem reads_of_agrees (hwidth : width ≤ 8)
    (h : ∀ b, signedToBytes width t = some b ↔
      ∃ v, parseInt width t = .ok v ∧ toLeBytes width v = b)
    {v : ℤ} (hv : parseInt width t = .ok v) : Reads true 10 t v := by
  obtain ⟨u, ⟨hu, hrange⟩, -⟩ := signedToBytes_eq_some.mp ((h _).mpr ⟨v, hv, rfl⟩)
  have heq := (parseInt_of_reads hwidth hu hrange).symm.trans hv
  rwa [Except.ok.inj heq] at hu

theorem Plain.of_agrees (hwidth : width ≤ 8) (ht : trim t = t)
    (h : ∀ b, signedToBytes width t = some b ↔
      ∃ v, parseInt width t = .ok v ∧ toLeBytes width v = b) : Plain width t := by
  obtain ⟨hone, hhalf⟩ := half_bounds hwidth
  have hcast : ((2 ^ (8 * width - 1) : ℕ) : ℤ) = 2 ^ (8 * width - 1) := by norm_num
  have hrange (v : ℤ) : InRange true width v ↔
    -2 ^ (8 * width - 1) ≤ v ∧ v < 2 ^ (8 * width - 1) := Iff.rfl
  constructor
  · intro m hm hlt hlands
    have hplain : ∀ body, t ≠ '-' :: body := by
      rintro body rfl
      exact hm.not_minus
    have hin : InRange true width (asI128 m) := by
      rw [hrange]
      unfold asI128
      split <;> omega
    have hok := (parseInt_plain_eq_ok hplain).mpr ⟨m, ⟨ht.symm ▸ hm, hlt⟩, rfl, hin⟩
    have hreads := reads_of_agrees hwidth h hok
    generalize hv : asI128 m = v at hreads hin
    rw [hrange] at hin
    cases hreads with
    | @positive _ n hn =>
      obtain rfl := magnitude_unique hm (.decimal hn) hlt (by omega)
      exact ⟨by omega, .positive hn⟩
    | negative => exact (hplain _ rfl).elim
  · intro body m ht' hm hlt hlands
    subst ht'
    have hin : InRange true width (-asI128 m) := by
      rw [hrange]
      unfold asI128
      split <;> omega
    have hleast : asI128 m ≠ -2 ^ 127 := by
      rw [hrange] at hin
      omega
    have hok := parseInt_minus_eq_ok.mpr ⟨m, ⟨hm, hlt⟩, ⟨hleast, rfl⟩, hin⟩
    have hreads := reads_of_agrees hwidth h hok
    generalize hv : -asI128 m = v at hreads hin
    rw [hrange] at hin
    cases hreads with
    | positive hn => exact ((Magnitude.decimal hn).not_minus).elim
    | @negative _ n hsigned hne hn =>
      have hbody : Magnitude body n := .decimal ⟨body, hne, .inl rfl, hn⟩
      rw [hbody.trim_eq] at hm
      obtain rfl := magnitude_unique hm hbody hlt (by omega)
      exact ⟨by omega, .negative hsigned hne hn⟩

/-- The value of a needle that a plain text gives. -/
theorem Plain.reads (hwidth : width ≤ 8) (ht : trim t = t) (h : Plain width t) {v : ℤ}
    (hv : parseInt width t = .ok v) : Reads true 10 t v ∧ InRange true width v := by
  obtain ⟨hone, hhalf⟩ := half_bounds hwidth
  have hcast : ((2 ^ (8 * width - 1) : ℕ) : ℤ) = 2 ^ (8 * width - 1) := by norm_num
  have hrange (v : ℤ) : InRange true width v ↔
    -2 ^ (8 * width - 1) ≤ v ∧ v < 2 ^ (8 * width - 1) := Iff.rfl
  by_cases hplain : ∀ body, t ≠ '-' :: body
  · obtain ⟨m, ⟨hm, hlt⟩, rfl, hin⟩ := (parseInt_plain_eq_ok hplain).mp hv
    rw [ht] at hm
    have hlands : m < 2 ^ (8 * width - 1) ∨ 2 ^ 128 - 2 ^ (8 * width - 1) ≤ m := by
      have hbounds := (hrange _).mp hin
      unfold asI128 at hbounds
      split at hbounds <;> omega
    obtain ⟨hsmall, hreads⟩ := h.positive hm hlt hlands
    rw [asI128_of_lt (by omega)] at hin ⊢
    exact ⟨hreads, hin⟩
  · push Not at hplain
    obtain ⟨body, rfl⟩ := hplain
    obtain ⟨m, ⟨hm, hlt⟩, ⟨-, rfl⟩, hin⟩ := parseInt_minus_eq_ok.mp hv
    have hlands : m ≤ 2 ^ (8 * width - 1) ∨ 2 ^ 128 - 2 ^ (8 * width - 1) < m := by
      have hbounds := (hrange _).mp hin
      unfold asI128 at hbounds
      split at hbounds <;> omega
    obtain ⟨hsmall, hreads⟩ := h.negative rfl hm hlt hlands
    rw [asI128_of_lt (by omega)] at hin ⊢
    exact ⟨hreads, hin⟩

/-- The table reads a signed text as the needle does, exactly if what the needle takes is a plain
decimal. -/
theorem signed_agrees (hwidth : width ≤ 8) (ht : trim t = t) :
    (∀ b, signedToBytes width t = some b ↔
      ∃ v, parseInt width t = .ok v ∧ toLeBytes width v = b) ↔ Plain width t := by
  refine ⟨.of_agrees hwidth ht, fun h b => ?_⟩
  rw [signedToBytes_eq_some]
  refine exists_congr fun v => and_congr_left fun _ => ?_
  exact ⟨fun ⟨hreads, hrange⟩ => parseInt_of_reads hwidth hreads hrange, h.reads hwidth ht⟩

end Agreement

section Table

variable (parseFloat : ℕ → List Char → Option (List UInt8)) (formatFloat : ℕ → List UInt8 → String)
  (widen : ℕ → List Char → Option Float) {ty : ScanValueType} {width : ℕ} (text : String)

theorem valueTextToBytes_eq (h : ty.IsInteger width) : valueTextToBytes parseFloat ty text =
    if ty.isSigned then signedToBytes width (trim text.toList)
    else unsignedToBytes width (trim text.toList) := by
  obtain ⟨hfloat, hwidth⟩ := h
  cases ty <;> cases hwidth <;> first | rfl | cases hfloat

theorem formatValueBytes_eq (h : ty.IsInteger width) (bytes : List UInt8) :
    formatValueBytes formatFloat bytes ty = formatInteger ty.isSigned width bytes := by
  obtain ⟨hfloat, hwidth⟩ := h
  cases ty <;> cases hwidth <;> first | rfl | cases hfloat

theorem valueTextToBytes_eq_some (h : ty.IsInteger width) {b : List UInt8}
    (hread : signedToBytes width (trim text.toList) = some b ∧ ty.isSigned = true ∨
      unsignedToBytes width (trim text.toList) = some b ∧ ty.isSigned = false) :
    valueTextToBytes parseFloat ty text = some b := by
  rw [valueTextToBytes_eq parseFloat text h]
  obtain ⟨hb, hsigned⟩ | ⟨hb, hsigned⟩ := hread
  · rw [hsigned, if_pos rfl, hb]
  · rw [hsigned, if_neg (by decide), hb]

theorem integer_width_bounds (h : ty.IsInteger width) : 0 < width ∧ width ≤ 8 := by
  obtain ⟨-, hwidth⟩ := h
  cases ty <;> cases hwidth <;> decide

/-- What is shown of the bytes of a type is read back as these bytes. -/
theorem valueTextToBytes_formatValueBytes (h : ty.IsInteger width) {b : List UInt8}
    (hb : b.length = width) :
    valueTextToBytes parseFloat ty (formatValueBytes formatFloat b ty) = some b := by
  obtain ⟨hpos, -⟩ := integer_width_bounds h
  have hne : b ≠ [] := List.ne_nil_of_length_pos (by omega)
  have hshown : formatValueBytes formatFloat b ty =
      String.ofList (display (fromLeBytes ty.isSigned b)) := by
    rw [formatValueBytes_eq formatFloat h, formatInteger, if_pos hb.ge,
      List.take_of_length_le hb.le]
  subst hb
  have hrange := inRange_fromLeBytes ty.isSigned hne
  have hbytes := toLeBytes_fromLeBytes ty.isSigned b
  have hreads : Reads ty.isSigned 10 (display (fromLeBytes ty.isSigned b))
      (fromLeBytes ty.isSigned b) := by
    refine reads_display ?_
    cases hsigned : ty.isSigned with
    | true => exact .inr rfl
    | false =>
      rw [hsigned] at hrange
      exact .inl hrange.1
  refine valueTextToBytes_eq_some parseFloat _ h ?_
  rw [hshown, String.toList_ofList, hreads.trim_eq]
  generalize hv : fromLeBytes ty.isSigned b = v at hrange hbytes hreads
  cases hsigned : ty.isSigned with
  | true =>
    rw [hsigned] at hreads hrange
    exact .inl ⟨signedToBytes_eq_some.mpr ⟨v, ⟨hreads, hrange⟩, hbytes⟩, rfl⟩
  | false =>
    rw [hsigned] at hreads hrange
    have hpow : (2 : ℤ) ^ (8 * b.length) ≤ 2 ^ 64 := by
      refine pow_le_pow_right₀ (by decide) ?_
      have := (integer_width_bounds h).2
      omega
    obtain ⟨m, hm, rfl⟩ := reads_unsigned.mp hreads
    have hlt : (m : ℤ) < 2 ^ (8 * b.length) := hrange.2
    refine .inr ⟨(unsignedToBytes_eq_some hreads.trim_eq).mpr ⟨m, ⟨.decimal hm, by omega⟩, ?_⟩, rfl⟩
    rw [Int.emod_eq_of_lt (Int.natCast_nonneg m) hlt, hbytes]

theorem parseNeedle_eq_int (h : ty.IsInteger width) {v : ℤ} :
    ty.parseNeedle widen text = .ok (.int h none defaultFloatTolerance v) ↔
      parseInteger ty.isSigned width (trim text.toList) = .ok v := by
  simp only [parseNeedle_eq widen h, map_eq_ok, Needle.int_inj, exists_eq_right]

/-- The table shows integers as it reads them, and reads a text as the scanner's needle exactly if
an unsigned number is not cut and a signed one is a plain decimal. -/
theorem cheatTable_reads (h : ty.IsInteger width) :
    (∀ b : List UInt8, b.length = width →
      valueTextToBytes parseFloat ty (formatValueBytes formatFloat b ty) = some b) ∧
    ∀ text : String,
      (∀ b, valueTextToBytes parseFloat ty text = some b ↔
        ∃ v, ty.parseNeedle widen text = .ok (.int h none defaultFloatTolerance v) ∧
          toLeBytes width v = b) ↔
      if ty.isSigned then Plain width (trim text.toList) else Uncut width (trim text.toList) := by
  refine ⟨fun b hb => valueTextToBytes_formatValueBytes parseFloat formatFloat h hb, fun text => ?_⟩
  have hwidth := (integer_width_bounds h).2
  have htrim := trim_trim text.toList
  simp only [parseNeedle_eq_int, valueTextToBytes_eq parseFloat text h, parseInteger]
  cases ty.isSigned with
  | true => exact signed_agrees hwidth htrim
  | false => exact unsigned_agrees hwidth htrim

end Table

/-- A byte of the table, spelled in hexadecimal. -/
theorem cheatTable_reads_byte :
    valueTextToBytes (fun _ _ => none) .u8 (formatValueBytes (fun _ _ => "") [44] .u8) = some [44] ∧
      ∀ b, valueTextToBytes (fun _ _ => none) .u8 " 0x2C" = some b ↔
        ∃ v, ScanValueType.u8.parseNeedle (fun _ _ => none) " 0x2C" =
          .ok (.int (.mk rfl rfl : ScanValueType.u8.IsInteger 1) none defaultFloatTolerance v) ∧
            toLeBytes 1 v = b := by
  obtain ⟨hshown, hagrees⟩ := cheatTable_reads (fun _ _ => none) (fun _ _ => "") (fun _ _ => none)
    (.mk rfl rfl : ScanValueType.u8.IsInteger 1)
  refine ⟨hshown [44] rfl, (hagrees " 0x2C").mpr ?_⟩
  have htrim : trim " 0x2C".toList = "0x2C".toList := rfl
  have hread : parseU128Radix "0x2C".toList = .ok 44 := rfl
  rw [if_neg (by decide), htrim]
  intro m hm hlt
  have hm' := parseU128Radix_eq_ok.mpr ⟨hm.trim_eq.symm ▸ hm, hlt.trans (by decide)⟩
  rw [hread] at hm'
  cases hm'
  decide

/-- A number that is no byte is cut to one, though it gives no needle. -/
theorem valueTextToBytes_cuts :
    valueTextToBytes (fun _ _ => none) .u8 "300" = some [44] ∧
      ∀ n, ScanValueType.u8.parseNeedle (fun _ _ => none) "300" ≠ .ok n := by
  refine ⟨by decide +kernel, fun n hn => ?_⟩
  have herror : ScanValueType.u8.parseNeedle (fun _ _ => none) "300" =
      .error (.error .integer) := rfl
  rw [herror] at hn
  cases hn

end Nemclass.Ui
