import Nemclass.Lib.Rounding
import Nemclass.Scan.FreezeSet
import Nemclass.Ui.ScanSession
import Nemclass.Ui.StructReads

/-! Structs that a script writes. The fields are written one by one, each narrowed to its type, and
those without a value are left as they are; what is written before a failure stays. -/
namespace Nemclass.Ui
open Usize MappedPrefix Scan Outcome Records

def Value.asObject : Value → Option (List (String × Value))
  | object fields => some fields
  | _ => none

def Number.asI64 : Number → Option ℤ
  | posInt n => if n < 2 ^ 63 then some n else none
  | negInt n => some n
  | float _ => none

/-- `f as i64` -/
def asInt64 (q : ℚ) : ℤ := max (-2 ^ 63) (min (q.num.tdiv q.den) (2 ^ 63 - 1))

section Calls

/- The printing of JSON and of strings in quotes, the texts of errors, and the process's writes. -/
variable (printJson : Value → String) (debugStr : String → String) (errorText : Scan.Error → String)
  (T : WriteTarget)

def asI64 (v : Value) : Except HostFailure ℤ :=
  match v with
  | .number n => .ok (n.asI64.getD (asInt64 n.asF64))
  | .string s => (fromStrRadix true 8 10 (trim s.toList)).mapError fun _ =>
      .error ("bad int: " ++ debugStr s)
  | _ => .error (.error ("expected an integer, got " ++ printJson v))

def asU64Flex (v : Value) : Except HostFailure ℤ :=
  match v with
  | .number n => .ok (n.asU64.getD (asUsize n.asF64))
  | .string s => (fromStrRadix false 8 10 (trim s.toList)).mapError fun _ =>
      .error ("bad u64: " ++ debugStr s)
  | _ => .error (.error ("expected an unsigned integer, got " ++ printJson v))

/-- The bytes that a value is written as; a zero has no sign here. -/
def typedBytes (vt : ScanValueType) (v : Value) : Except HostFailure (List UInt8) :=
  let wi (width : ℕ) := (asI64 printJson debugStr v).map (toLeBytes width)
  let wu (width : ℕ) := (asU64Flex printJson debugStr v).map (toLeBytes width)
  match vt with
  | .i8 => wi 1
  | .i16 => wi 2
  | .i32 => wi 4
  | .i64 => wi 8
  | .u8 => wu 1
  | .u16 => wu 2
  | .u32 => wu 4
  | .u64 => wu 8
  | .f32 => (asF64 printJson v).map fun q => toLeBytes 4 (Binary64.single.encode q)
  | .f64 => (asF64 printJson v).map fun q => toLeBytes 8 (Binary64.double.encode q)
  | .bytes | .stringUtf8 | .stringUtf16 =>
    .error (.error ("writeValues: unsupported type " ++ ScanSession.asTag vt))

/-- `Process::write`, of a value's bytes. -/
def writeWhole (addr : ℕ) (bytes : List UInt8) (mem : Cells) : Except Scan.Error Unit × Cells :=
  let r := T.write addr bytes mem
  match r.1 with
  | .error e => (.error e, r.2)
  | .ok n => (if n = bytes.length then .ok () else .error (.partialTransfer bytes.length n), r.2)

def writeTypedValue (addr : ℕ) (vt : ScanValueType) (v : Value) (mem : Cells) :
    Except HostFailure Unit × Cells :=
  match typedBytes printJson debugStr vt v with
  | .error e => (.error e, mem)
  | .ok bytes =>
    let r := writeWhole T addr bytes mem
    (r.1.mapError fun e => .error ("write: " ++ errorText e), r.2)

/-- A field that has a value; how many were written afterwards. -/
def writeField (addr : ℕ) (values : List (String × Value)) (field : Field) (written : ℕ)
    (mem : Cells) : Except HostFailure ℕ × Cells :=
  match values.lookup field.name with
  | none => (.ok written, mem)
  | some v =>
    let r := writeTypedValue printJson debugStr errorText T
      ((addr + field.off) % (usizeMax + 1)) field.vt v mem
    (r.1.map fun _ => written + 1, r.2)

/-- The loop of `mem.writeStruct` over the fields. -/
def writeFields (addr : ℕ) (values : List (String × Value)) :
    List Value → ℕ → ℕ → Cells → Except HostFailure ℕ × Cells
  | [], _, written, mem => (.ok written, mem)
  | f :: fields, cursor, written, mem =>
    match parseField "writeStruct: " f cursor with
    | .error e => (.error e, mem)
    | .ok field =>
      let r := writeField printJson debugStr errorText T addr values field written mem
      match r.1, addUsize field.off field.width with
      | .error e, _ => (.error e, r.2)
      | .ok _, .error e => (.error e, r.2)
      | .ok written, .ok cursor => writeFields addr values fields cursor written r.2

/-- The arguments of `mem.writeStruct`: where, the layout and the values. -/
def writeArgs (args : Value) :
    Except HostFailure (ℕ × List Value × List (String × Value)) := do
  let addr ← asAddr printJson debugStr (← arg args 0)
  let fields ← orFail (← arg args 1).asArray "writeStruct: layout must be an array"
  let values ← orFail (← arg args 2).asObject "writeStruct: values must be an object"
  .ok (addr, fields, values)

/-- `mem.writeStruct`, while a process is attached or not. -/
def writeStruct (attached : Bool) (args : Value) (mem : Cells) :
    Except HostFailure Value × Cells :=
  match writeArgs printJson debugStr args with
  | .error e => (.error e, mem)
  | .ok (addr, fields, values) =>
    if attached then
      let r := writeFields printJson debugStr errorText T addr values fields 0 0 mem
      (r.1.map fun n => .ofF64 (some n), r.2)
    else (.error (.error "not attached"), mem)

end Calls

/-! ## Values that a field holds -/

/-- What a number says, before any conversion. -/
def Number.value : Number → ℚ
  | posInt n => n
  | negInt n => n
  | float q => q

/-- A field of the type holds the number that the value says, and so does a double. -/
inductive Held : ScanValueType → Value → ℚ → Prop
  | integer {vt : ScanValueType} {width : ℕ} {n : Number} {z : ℤ} (hvt : vt.IsInteger width)
      (hn : n.value = z) (hrange : InRange vt.isSigned width z)
      (hdouble : Binary64.roundInt z = z) : Held vt (.number n) z
  | text {vt : ScanValueType} {width : ℕ} {s : String} {z : ℤ} (hvt : vt.IsInteger width)
      (hs : Reads vt.isSigned 10 (trim s.toList) z) (hrange : InRange vt.isSigned width z)
      (hdouble : Binary64.roundInt z = z) : Held vt (.string s) z
  | single {n : Number} {q : ℚ} {bits : ℕ} (hn : n.asF64 = q)
      (h : Binary64.single.decode bits = some q) : Held .f32 (.number n) q
  | double {n : Number} {q : ℚ} {bits : ℕ} (hn : n.asF64 = q)
      (h : Binary64.double.decode bits = some q) : Held .f64 (.number n) q

section Held

variable {signed : Bool} {width : ℕ} {n : Number} {z : ℤ}

theorem width_le {vt : ScanValueType} (h : vt.fixedWidth = some width) : width ≤ 8 := by
  cases vt <;> cases h <;> decide

/-- The range of a type is within that of the widest. -/
theorem InRange.widest (hwidth : width ≤ 8) (h : InRange signed width z) : InRange signed 8 z := by
  have hpow : (2 : ℤ) ^ (8 * width) ≤ 2 ^ 64 := pow_le_pow_right₀ one_le_two (by omega)
  have hhalf : (2 : ℤ) ^ (8 * width - 1) ≤ 2 ^ 63 := pow_le_pow_right₀ one_le_two (by omega)
  unfold InRange at h ⊢
  split at h
  · rw [if_pos ‹_›]
    omega
  · rw [if_neg ‹_›]
    omega

theorem asInt64_intCast (h : InRange true 8 z) : asInt64 z = z := by
  have hbounds : -2 ^ 63 ≤ z ∧ z < 2 ^ 63 := h
  rw [asInt64, Rat.num_intCast, Rat.den_intCast, Nat.cast_one, Int.tdiv_one]
  omega

theorem asUsize_intCast (h : InRange false 8 z) : (asUsize z : ℤ) = z := by
  have hbounds : 0 ≤ z ∧ z < 2 ^ 64 := h
  rw [asUsize, Rat.floor_intCast, usizeMax]
  omega

theorem fromLeBytes_toLeBytes (hpos : 0 < width) (h : InRange signed width z) :
    fromLeBytes signed (toLeBytes width z) = z := by
  have hne : toLeBytes width z ≠ [] := List.ne_nil_of_length_pos (by rwa [length_toLeBytes])
  have hrange := inRange_fromLeBytes signed hne
  have hbytes := toLeBytes_fromLeBytes signed (toLeBytes width z)
  rw [length_toLeBytes] at hrange hbytes
  exact eq_of_toLeBytes_eq hpos hrange h hbytes

theorem leJson_toLeBytes (hpos : 0 < width) (h : InRange signed width z)
    (hdouble : Binary64.roundInt z = z) :
    leJson signed width (toLeBytes width z) = .number (.float z) := by
  rw [leJson, List.take_of_length_le (length_toLeBytes width z).le, fromLeBytes_toLeBytes hpos h,
    hdouble]
  rfl

theorem asI64_number (hn : n.value = z) (h : InRange true 8 z)
    (printJson : Value → String) (debugStr : String → String) :
    asI64 printJson debugStr (.number n) = .ok z := by
  have hbounds : -2 ^ 63 ≤ z ∧ z < 2 ^ 63 := h
  cases n with
  | posInt m =>
    have hq : (m : ℚ) = z := hn
    have hm : (m : ℤ) = z := by exact_mod_cast hq
    rw [asI64, Number.asI64, if_pos (by omega), Option.getD_some, hm]
  | negInt m =>
    have hq : (m : ℚ) = z := hn
    have hm : m = z := by exact_mod_cast hq
    rw [asI64, Number.asI64, Option.getD_some, hm]
  | float q =>
    have hq : q = z := hn
    rw [asI64, Number.asI64, Option.getD_none, Number.asF64, hq, asInt64_intCast h]

theorem asU64Flex_number (hn : n.value = z) (h : InRange false 8 z)
    (hdouble : Binary64.roundInt z = z) (printJson : Value → String)
    (debugStr : String → String) : asU64Flex printJson debugStr (.number n) = .ok z := by
  cases n with
  | posInt m =>
    have hq : (m : ℚ) = z := hn
    have hm : (m : ℤ) = z := by exact_mod_cast hq
    rw [asU64Flex, Number.asU64, Option.getD_some, hm]
  | negInt m =>
    have hq : (m : ℚ) = z := hn
    have hm : m = z := by exact_mod_cast hq
    rw [asU64Flex, Number.asU64, Option.getD_none, Number.asF64, hm, hdouble, asUsize_intCast h]
  | float q =>
    have hq : q = z := hn
    rw [asU64Flex, Number.asU64, Option.getD_none, Number.asF64, hq, asUsize_intCast h]

variable {vt : ScanValueType} {v : Value} (printJson : Value → String) (debugStr : String → String)

/-- The conversion of a type of integers is the one of its sign. -/
theorem typedBytes_integer (hvt : vt.IsInteger width)
    (hsigned : vt.isSigned = true → asI64 printJson debugStr v = .ok z)
    (hunsigned : vt.isSigned = false → asU64Flex printJson debugStr v = .ok z) :
    typedBytes printJson debugStr vt v = .ok (toLeBytes width z) := by
  obtain ⟨hfloat, hwidth⟩ := hvt
  unfold typedBytes
  cases vt <;> cases hwidth
  case i8 | i16 | i32 | i64 =>
    dsimp only
    rw [hsigned rfl]
    rfl
  case u8 | u16 | u32 | u64 =>
    dsimp only
    rw [hunsigned rfl]
    rfl
  case f32 | f64 => cases hfloat

theorem bytesToJsonNum_integer (hvt : vt.IsInteger width) (b : List UInt8) :
    bytesToJsonNum vt b = leJson vt.isSigned width b := by
  obtain ⟨hfloat, hwidth⟩ := hvt
  cases vt <;> cases hwidth
  case f32 | f64 => cases hfloat
  all_goals rfl

/-- A number of a format comes back from its bytes. -/
theorem decode_leBytes {format : Binary64.Format} {bits : ℕ} {q : ℚ}
    (hwidth : format.fractionBits + format.exponentBits + 1 = 8 * width)
    (h : format.decode bits = some q) :
    format.decode (leBytes ((toLeBytes width (format.encode q)).take width)) = some q := by
  have hrange : InRange false width (format.encode q) := by
    have hlt := Binary64.Format.encode_lt (f := format) q
    rw [hwidth] at hlt
    exact ⟨Int.natCast_nonneg _, by exact_mod_cast hlt⟩
  have hpos : 0 < width := by omega
  have hbytes : (leBytes (toLeBytes width (format.encode q)) : ℤ) = format.encode q :=
    fromLeBytes_toLeBytes hpos hrange
  rw [List.take_of_length_le (length_toLeBytes width _).le, Int.ofNat_inj.mp hbytes]
  exact Binary64.Format.decode_encode h

/-- A value that the type holds is written as bytes that are read as its number. -/
theorem typedBytes_held {q : ℚ} (h : Held vt v q) : ∃ b,
    typedBytes printJson debugStr vt v = .ok b ∧ vt.fixedWidth = some b.length ∧
      bytesToJsonNum vt b = .number (.float q) := by
  have hinteger {width : ℕ} {z : ℤ} (hvt : vt.IsInteger width)
      (hrange : InRange vt.isSigned width z) (hdouble : Binary64.roundInt z = z)
      (hbytes : typedBytes printJson debugStr vt v = .ok (toLeBytes width z)) : ∃ b,
      typedBytes printJson debugStr vt v = .ok b ∧ vt.fixedWidth = some b.length ∧
        bytesToJsonNum vt b = .number (.float z) := by
    refine ⟨_, hbytes, ?_, ?_⟩
    · rw [length_toLeBytes, hvt.fixedWidth]
    · rw [bytesToJsonNum_integer hvt,
        leJson_toLeBytes (ScanValueType.fixedWidth_pos hvt.fixedWidth) hrange hdouble]
  cases h with
  | @integer _ width n z hvt hn hrange hdouble =>
    have hwide := InRange.widest (width_le hvt.fixedWidth) hrange
    refine hinteger hvt hrange hdouble (typedBytes_integer printJson debugStr hvt ?_ ?_)
    · intro hsigned
      exact asI64_number hn (hsigned ▸ hwide) printJson debugStr
    · intro hsigned
      exact asU64Flex_number hn (hsigned ▸ hwide) hdouble printJson debugStr
  | @text _ width s z hvt hs hrange hdouble =>
    have hwide := InRange.widest (width_le hvt.fixedWidth) hrange
    have hread : fromStrRadix vt.isSigned 8 10 (trim s.toList) = .ok z :=
      (fromStrRadix_eq_ok (by decide)).mpr ⟨hs, hwide⟩
    refine hinteger hvt hrange hdouble (typedBytes_integer printJson debugStr hvt ?_ ?_)
    · intro hsigned
      rw [hsigned] at hread
      rw [asI64, hread]
      rfl
    · intro hsigned
      rw [hsigned] at hread
      rw [asU64Flex, hread]
      rfl
  | @single n q bits hn hbits =>
    refine ⟨toLeBytes 4 (Binary64.single.encode q), ?_, by rw [length_toLeBytes]; rfl, ?_⟩
    · rw [← hn]
      rfl
    · rw [bytesToJsonNum, decode_leBytes (by decide) hbits]
      rfl
  | @double n q bits hn hbits =>
    refine ⟨toLeBytes 8 (Binary64.double.encode q), ?_, by rw [length_toLeBytes]; rfl, ?_⟩
    · rw [← hn]
      rfl
    · rw [bytesToJsonNum, decode_leBytes (by decide) hbits]
      rfl

end Held

/-! ## The writes of the fields -/

section Writes

variable (printJson : Value → String) (debugStr : String → String) (errorText : Scan.Error → String)
  {T : WriteTarget} {addr : ℕ} {values : List (String × Value)} {number : Field → ℚ}

/-- A write to what is mapped throughout. -/
theorem writeTypedValue_mapped (hT : T.Stores) {vt : ScanValueType} {v : Value}
    {bytes : List UInt8} (hbytes : typedBytes printJson debugStr vt v = .ok bytes) {mem : Cells}
    (hmapped : FullyMapped mem (addr, bytes)) :
    writeTypedValue printJson debugStr errorText T addr vt v mem =
      (.ok (), overwrite mem addr bytes) := by
  obtain ⟨k, -, hmem, hok⟩ := hT.wrote addr bytes mem
  have hwhole : (T.write addr bytes mem).1 = .ok bytes.length := hT.whole addr bytes mem hmapped
  have hstored : (T.write addr bytes mem).2 = overwrite mem addr bytes := by
    rw [hmem, ← hok _ hwhole, List.take_length]
  rw [writeTypedValue, hbytes]
  dsimp only
  rw [writeWhole, hwhole]
  dsimp only
  rw [if_pos rfl, hstored]
  rfl

/-- What is written for a field that has a value. -/
def fieldWrite (addr : ℕ) (values : List (String × Value)) (f : Field) : Option (ℕ × List UInt8) :=
  (values.lookup f.name).bind fun v =>
    (typedBytes printJson debugStr f.vt v).toOption.map (addr + f.off, ·)

theorem fieldWrite_of_some {f : Field} {v : Value} (hv : values.lookup f.name = some v)
    {bytes : List UInt8} (hbytes : typedBytes printJson debugStr f.vt v = .ok bytes) :
    fieldWrite printJson debugStr addr values f = some (addr + f.off, bytes) := by
  rw [fieldWrite, hv, Option.bind_some, hbytes]
  rfl

/-- The fields of a layout are written in its order. -/
theorem writeFields_held (hT : T.Stores) {fields : List Value} {cursor last : ℕ}
    {parsed : List Field} (hlayout : parseLayout fields cursor = .ok (parsed, last))
    (hspace : ∀ f ∈ parsed, addr + f.stop ≤ usizeMax) {mem₀ mem : Cells}
    {es : List (ℕ × List UInt8)} (hpinned : Pinned es mem₀ mem)
    (hmapped : ∀ f ∈ parsed, ∀ k < f.width, (mem₀ (addr + f.off + k)).isSome)
    (hheld : ∀ f ∈ parsed, ∀ v, values.lookup f.name = some v → Held f.vt v (number f))
    (written : ℕ) : ∃ mem',
      writeFields printJson debugStr errorText T addr values fields cursor written mem =
        (.ok (written + parsed.countP fun f => (values.lookup f.name).isSome), mem') ∧
      Pinned (es ++ parsed.filterMap (fieldWrite printJson debugStr addr values)) mem₀ mem' := by
  induction fields generalizing cursor parsed mem es written with
  | nil =>
    cases hlayout
    exact ⟨mem, rfl, by rwa [List.filterMap_nil, List.append_nil]⟩
  | cons f fields ih =>
    simp only [parseLayout, bind_eq_ok, addUsize_eq_ok, Except.ok.injEq] at hlayout
    obtain ⟨field, hfield, next, ⟨rfl, hnext⟩, ⟨rest, last'⟩, hrest, heq⟩ := hlayout
    cases heq
    obtain ⟨hstop, hspace⟩ := List.forall_mem_cons.mp hspace
    obtain ⟨hcells, hmapped⟩ := List.forall_mem_cons.mp hmapped
    obtain ⟨hvalue, hheld⟩ := List.forall_mem_cons.mp hheld
    have hsame : parseField "writeStruct: " f cursor = .ok field :=
      parseField_eq_ok.mpr (parseField_eq_ok.mp hfield)
    have hwidth : field.vt.fixedWidth = some field.width := (parseField_eq_ok.mp hfield).2.2.1
    unfold Field.stop at hstop
    rw [writeFields, hsame]
    dsimp only
    rw [addUsize_of_le hnext, writeField, Nat.mod_eq_of_lt (by omega)]
    cases hv : values.lookup field.name with
    | none =>
      have hnone : fieldWrite printJson debugStr addr values field = none := by
        rw [fieldWrite, hv, Option.bind_none]
      obtain ⟨mem', hrun, hall⟩ := ih hrest hspace hpinned hmapped hheld written
      refine ⟨mem', ?_, ?_⟩
      · rw [List.countP_cons_of_neg (by rw [hv]; decide)]
        exact hrun
      · rwa [List.filterMap_cons_none hnone]
    | some v =>
      obtain ⟨bytes, hbytes, hlen, -⟩ := typedBytes_held printJson debugStr (hvalue v hv)
      have hbound : field.width = bytes.length := Option.some.inj (hwidth.symm.trans hlen)
      have hfull : FullyMapped mem (addr + field.off, bytes) :=
        length_mappedPrefix_of_mapped fun k hk => by
          rw [hpinned.mapping]
          exact hcells k (hbound ▸ hk)
      have hwrite := @fieldWrite_of_some printJson debugStr addr _ _ _ hv _ hbytes
      have hstep := hpinned.concat (addr + field.off, bytes) (k := bytes.length) fun _ => rfl
      rw [List.take_length] at hstep
      obtain ⟨mem', hrun, hall⟩ := ih hrest hspace hstep hmapped hheld (written + 1)
      refine ⟨mem', ?_, ?_⟩
      · dsimp only
        rw [writeTypedValue_mapped printJson debugStr errorText hT hbytes hfull,
          List.countP_cons_of_pos (by rw [hv]; rfl)]
        rw [Nat.add_right_comm] at hrun
        exact hrun
      · rw [List.filterMap_cons_some hwrite]
        rwa [List.append_assoc] at hall

/-- The fields do not overlap. -/
def Field.Apart (f g : Field) : Prop := f.stop ≤ g.off ∨ g.stop ≤ f.off

instance : Std.Symm Field.Apart := ⟨fun _ _ => Or.symm⟩

section Written

variable {parsed : List Field} {mem mem' : Cells}
  (hwidths : ∀ f ∈ parsed, f.vt.fixedWidth = some f.width)
  (hheld : ∀ f ∈ parsed, ∀ v, values.lookup f.name = some v → Held f.vt v (number f))
include hwidths hheld

/-- What is written for a field covers it and nothing else. -/
theorem exists_of_mem_fieldWrites {e : ℕ × List UInt8}
    (he : e ∈ parsed.filterMap (fieldWrite printJson debugStr addr values)) :
    ∃ g ∈ parsed, fieldWrite printJson debugStr addr values g = some e ∧
      (values.lookup g.name).isSome ∧ e.1 = addr + g.off ∧ e.1 + e.2.length = addr + g.stop := by
  obtain ⟨g, hg, hge⟩ := List.mem_filterMap.mp he
  obtain ⟨v, hv, hbytes⟩ := Option.bind_eq_some_iff.mp hge
  obtain ⟨bytes, hok, rfl⟩ := Option.map_eq_some_iff.mp hbytes
  obtain ⟨bytes', hok', hlen, -⟩ := typedBytes_held printJson debugStr (hheld g hg v hv)
  rw [hok', Except.toOption, Option.some.injEq] at hok
  subst hok
  rw [hwidths g hg, Option.some.injEq] at hlen
  refine ⟨g, hg, hge, by rw [hv]; rfl, rfl, ?_⟩
  rw [Field.stop, hlen]
  exact Nat.add_assoc _ _ _

variable (hpinned : Pinned (parsed.filterMap (fieldWrite printJson debugStr addr values)) mem mem')
include hpinned

/-- Outside of the fields that are given a value nothing changes. -/
theorem frame_fieldWrites {a : ℕ} (ha : ∀ f ∈ parsed, (values.lookup f.name).isSome →
    a < addr + f.off ∨ addr + f.stop ≤ a) : mem' a = mem a := by
  refine hpinned.frame a fun e he => ?_
  obtain ⟨g, hg, -, hsome, hstart, hend⟩ :=
    exists_of_mem_fieldWrites printJson debugStr hwidths hheld he
  have hout := ha g hg hsome
  rw [← Option.not_isSome_iff_eq_none, isSome_covers]
  omega

variable (hapart : parsed.Pairwise Field.Apart)
include hapart

/-- A field without a value shows what it showed before. -/
theorem memValue_of_none {f : Field} (hf : f ∈ parsed) (hv : values.lookup f.name = none) :
    memValue mem' addr f = memValue mem addr f := by
  refine congrArg _ (mappedPrefix_congr fun k hk => ?_)
  refine frame_fieldWrites printJson debugStr hwidths hheld hpinned fun g hg hsome => ?_
  have hne : f ≠ g := fun heq => by
    rw [← heq, hv] at hsome
    cases hsome
  have hbetween := hapart.forall hf hg hne
  unfold Field.Apart at hbetween
  unfold Field.stop at hbetween ⊢
  omega

/-- A field with a value shows its number. -/
theorem memValue_of_some
    (hmapped : ∀ f ∈ parsed, ∀ k < f.width, (mem (addr + f.off + k)).isSome)
    {f : Field} (hf : f ∈ parsed) {v : Value} (hv : values.lookup f.name = some v) :
    memValue mem' addr f = .number (.float (number f)) := by
  obtain ⟨bytes, hbytes, hlen, hshown⟩ := typedBytes_held printJson debugStr (hheld f hf v hv)
  have hwidth := hwidths f hf
  rw [hlen, Option.some.injEq] at hwidth
  have hwrite := @fieldWrite_of_some printJson debugStr addr _ _ _ hv _ hbytes
  have hmem : (addr + f.off, bytes) ∈
      parsed.filterMap (fieldWrite printJson debugStr addr values) :=
    List.mem_filterMap.mpr ⟨f, hf, hwrite⟩
  have hfull : FullyMapped mem (addr + f.off, bytes) :=
    length_mappedPrefix_of_mapped fun k hk => hmapped f hf k (hwidth ▸ hk)
  have hpos : ∀ g ∈ parsed, g.off < g.stop := fun g hg =>
    Nat.lt_add_of_pos_right (ScanValueType.fixedWidth_pos (hwidths g hg))
  have hrange := hpinned.apart hmem hfull ?_ ?_
  · rw [memValue, ← hwidth]
    exact (congrArg _ hrange).trans hshown
  · intro e he hne
    obtain ⟨g, hg, -, -, hstart, hend⟩ :=
      exists_of_mem_fieldWrites printJson debugStr hwidths hheld he
    have hbetween := hapart.forall hf hg fun heq => hne (by rw [hstart, heq])
    unfold Field.Apart at hbetween
    unfold Field.stop at hbetween hend
    dsimp only
    omega
  · intro e he heq
    obtain ⟨g, hg, hge, -, hstart, hend⟩ :=
      exists_of_mem_fieldWrites printJson debugStr hwidths hheld he
    by_cases hfg : f = g
    · rw [← hfg, hwrite, Option.some.injEq] at hge
      exact hge.symm
    · -- two fields at one place would overlap, since neither is empty
      have hbetween := hapart.forall hf hg hfg
      have hf' := hpos f hf
      have hg' := hpos g hg
      unfold Field.Apart at hbetween
      dsimp only at heq
      omega

end Written

/-- The arguments of `mem.writeStruct` at an address. -/
def structWriteArgs (addr : ℕ) (fields : List Value) (values : List (String × Value)) : Value :=
  .array [.number (.posInt addr), .array fields, .object values]

end Writes

end Nemclass.Ui
