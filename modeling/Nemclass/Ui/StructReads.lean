import Nemclass.Lib.Records
import Nemclass.Scan.ValueType
import Nemclass.Ui.HostCalls

/-! Structs that a script reads, one at a time or many in one read. A field without an offset
follows the one before. Many structs are read at the distance of the stride, or else of where the
last field ends, and what their fields need beyond the whole of that is not read. -/
namespace Nemclass.Ui
open Usize MappedPrefix Scan Outcome Records

def maxScriptRead : ℕ := 64 * 1024 * 1024

def fromTag (tag : String) : Option ScanValueType :=
  match String.ofList ((trim tag.toList).map Char.toLower) with
  | "i8" => some .i8
  | "i16" => some .i16
  | "i32" => some .i32
  | "i64" => some .i64
  | "u8" => some .u8
  | "u16" => some .u16
  | "u32" => some .u32
  | "u64" => some .u64
  | "f32" | "float" => some .f32
  | "f64" | "double" => some .f64
  | "bytes" | "aob" => some .bytes
  | "string_utf8" | "string" | "utf8" => some .stringUtf8
  | "string_utf16" | "utf16" => some .stringUtf16
  | _ => none

/-- An integer as a JSON number. -/
def leJson (signed : Bool) (width : ℕ) (b : List UInt8) : Value :=
  .ofF64 (some (Binary64.roundInt (fromLeBytes signed (b.take width))))

def bytesToJsonNum (vt : ScanValueType) (b : List UInt8) : Value :=
  match vt with
  | .i8 => leJson true 1 b
  | .u8 => leJson false 1 b
  | .i16 => leJson true 2 b
  | .u16 => leJson false 2 b
  | .i32 => leJson true 4 b
  | .u32 => leJson false 4 b
  | .i64 => leJson true 8 b
  | .u64 => leJson false 8 b
  | .f32 => .ofF64 (Binary64.single.decode (leBytes (b.take 4)))
  | .f64 => .ofF64 (Binary64.double.decode (leBytes (b.take 8)))
  | .bytes | .stringUtf8 | .stringUtf16 => .null

/-- A field of a layout. -/
structure Field where
  name : String
  vt : ScanValueType
  width : ℕ
  off : ℕ
deriving DecidableEq

def Field.stop (f : Field) : ℕ := f.off + f.width

/-- The field that a layout's element describes, after a cursor. The texts of the errors begin
with a name of the call. -/
def parseField (call : String) (f : Value) (cursor : ℕ) : Except HostFailure Field := do
  let name ← orFail ((f.get "name").bind Value.asStr) (call ++ "field needs a name")
  let ty ← orFail ((f.get "type").bind Value.asStr) (call ++ "field needs a type")
  let vt ← orFail (fromTag ty) ("unknown type: " ++ ty)
  let width ← orFail vt.fixedWidth ("type " ++ ty ++ " has no fixed width")
  let off := (((f.get "offset").bind Value.asF64).map asUsize).getD cursor
  .ok ⟨name, vt, width, off⟩

section Calls

/- The attached process, and the printing of JSON and of strings in quotes. -/
variable (process : Option HostProcess) (printJson : Value → String) (debugStr : String → String)

/-- The loop of `mem.readStruct` over the fields. -/
def readFields (proc : HostProcess) (addr : ℕ) :
    List Value → ℕ → List (String × Value) → Except HostFailure (List (String × Value))
  | [], _, obj => .ok obj
  | f :: fields, cursor, obj => do
    let field ← parseField "readStruct: " f cursor
    let read := proc.readBuf ((addr + field.off) % (usizeMax + 1)) (.replicate field.width 0)
    let n ← read.1.mapError fun e => .error ("read: " ++ e)
    let value := if field.width ≤ n then bytesToJsonNum field.vt read.2 else .null
    let cursor ← addUsize field.off field.width
    readFields proc addr fields cursor (insert obj field.name value)

/-- `mem.readStruct` -/
def readStruct (args : Value) : Except HostFailure Value := do
  let addr ← asAddr printJson debugStr (← arg args 0)
  let fields ← orFail (← arg args 1).asArray "readStruct: layout must be an array"
  let proc ← orFail process "not attached"
  let obj ← readFields proc addr fields 0 []
  .ok (.object obj)

/-- The loop of `mem.readStructArray` over the layout: its fields, and where the last one ends. -/
def parseLayout : List Value → ℕ → Except HostFailure (List Field × ℕ)
  | [], cursor => .ok ([], cursor)
  | f :: fields, cursor => do
    let field ← parseField "" f cursor
    let cursor ← addUsize field.off field.width
    let (parsed, cursor) ← parseLayout fields cursor
    .ok (field :: parsed, cursor)

/-- One field of a struct in the buffer, of which `n` bytes were read. -/
def bulkValue (buf : List UInt8) (n base : ℕ) (field : Field) : Except HostFailure Value := do
  let s ← addUsize base field.off
  let stop ← addUsize s field.width
  .ok (if stop ≤ n then bytesToJsonNum field.vt ((buf.drop s).take field.width) else .null)

def bulkStruct (buf : List UInt8) (n base : ℕ) :
    List Field → List (String × Value) → Except HostFailure (List (String × Value))
  | [], obj => .ok obj
  | field :: parsed, obj => do
    let value ← bulkValue buf n base field
    bulkStruct buf n base parsed (insert obj field.name value)

/-- The read of `mem.readStructArray`, and the structs in its buffer. -/
def bulkRead (addr count stride : ℕ) (parsed : List Field) : Except HostFailure Value := do
  if stride = 0 then .error (.error "readStructArray: struct stride is 0")
  else
    let total ← orFail (checked (count * stride)) "readStructArray: size overflow"
    if maxScriptRead < total then
      .error (.error ("readStructArray span " ++ toString total ++ " exceeds cap"))
    else
      let proc ← orFail process "not attached"
      let read := proc.readBuf addr (.replicate total 0)
      let n ← read.1.mapError fun e => .error ("read: " ++ e)
      let arr ← (List.range (n / stride)).mapM fun i =>
        (bulkStruct read.2 n (i * stride) parsed []).map Value.object
      .ok (.array arr)

/-- `mem.readStructArray` -/
def readStructArray (args : Value) : Except HostFailure Value := do
  let addr ← asAddr printJson debugStr (← arg args 0)
  let fields ← orFail (← arg args 1).asArray "readStructArray: layout must be an array"
  let count := asUsize (← asF64 printJson (← arg args 2))
  let (parsed, cursor) ← parseLayout fields 0
  let stride :=
    ((((optArg args 3).bind (·.get "stride")).bind Value.asF64).map asUsize).getD cursor
  bulkRead process addr count stride parsed

end Calls

/-! ## What a bulk read should give -/

/-- The largest end of any field. -/
def extent (parsed : List Field) : ℕ := (parsed.map Field.stop).foldr max 0

/-- The arguments of `mem.readStruct` at an address. -/
def structArgs (addr : ℕ) (fields : List Value) : Value :=
  .array [.number (.posInt addr), .array fields]

/-- What the arguments of `mem.readStructArray` say. -/
structure ArrayArgs (printJson : Value → String) (debugStr : String → String) (args : Value)
    (addr : ℕ) (fields : List Value) (count : ℕ) (stride : Option ℕ) : Prop where
  addr : ∃ v, arg args 0 = .ok v ∧ asAddr printJson debugStr v = .ok addr
  layout : ∃ v, arg args 1 = .ok v ∧ v.asArray = some fields
  count : ∃ v q, arg args 2 = .ok v ∧ v.asF64 = some q ∧ asUsize q = count
  stride : (((optArg args 3).bind (·.get "stride")).bind Value.asF64).map asUsize = stride

/-- On memory that is mapped in a range, a bulk read is the reads of its structs. -/
def BulkReads (printJson : Value → String) (debugStr : String → String) (args : Value)
    (addr : ℕ) (fields : List Value) (count stride size : ℕ) : Prop :=
  ∀ (proc : HostProcess) (mem : ℕ → Option UInt8), proc.Transfers mem →
    (∀ k < size, (mem (addr + k)).isSome) →
    readStructArray (some proc) printJson debugStr args =
      ((List.range count).mapM fun i =>
        readStruct (some proc) printJson debugStr (structArgs (addr + i * stride) fields)).map
          Value.array

/-- The structs of a bulk read hold their fields, but for those that another field of the same name
comes after; and they are where they should be. -/
structure BulkFits (parsed : List Field) (count cursor : ℕ) (stride : Option ℕ) : Prop where
  stride_pos : 0 < stride.getD cursor
  fits {f} : 0 < count → Last Field.name parsed f → f.stop ≤ stride.getD cursor
  placed : 1 < count → stride = none → cursor = extent parsed

/-! ## Layouts -/

section Layouts

theorem orFail_eq_ok {α : Type} {x : Option α} {text : String} {a : α} :
    orFail x text = .ok a ↔ x = some a := by
  cases x <;> simp [orFail]

theorem addUsize_of_le {a b : ℕ} (h : a + b ≤ usizeMax) : addUsize a b = .ok (a + b) := by
  rw [addUsize, checkedAdd_of_le h]
  rfl

theorem addUsize_eq_ok {a b m : ℕ} : addUsize a b = .ok m ↔ a + b = m ∧ a + b ≤ usizeMax := by
  rw [← checkedAdd_eq_some, addUsize]
  cases checkedAdd a b <;> simp

theorem parseField_eq_ok {call : String} {f : Value} {cursor : ℕ} {field : Field} :
    parseField call f cursor = .ok field ↔
      (f.get "name").bind Value.asStr = some field.name ∧
      (∃ ty, (f.get "type").bind Value.asStr = some ty ∧ fromTag ty = some field.vt) ∧
      field.vt.fixedWidth = some field.width ∧
      (((f.get "offset").bind Value.asF64).map asUsize).getD cursor = field.off := by
  simp only [parseField, bind_eq_ok, orFail_eq_ok, Except.ok.injEq]
  constructor
  · rintro ⟨name, hname, ty, hty, vt, hvt, width, hwidth, rfl⟩
    exact ⟨hname, ⟨ty, hty, hvt⟩, hwidth, rfl⟩
  · rintro ⟨hname, ⟨ty, hty, hvt⟩, hwidth, hoff⟩
    refine ⟨_, hname, ty, hty, _, hvt, _, hwidth, ?_⟩
    rw [hoff]

/-- The fields of a layout have the widths of their types. -/
theorem parseLayout_widths {fields : List Value} {cursor last : ℕ} {parsed : List Field}
    (h : parseLayout fields cursor = .ok (parsed, last)) :
    ∀ f ∈ parsed, f.vt.fixedWidth = some f.width := by
  induction fields generalizing cursor parsed with
  | nil =>
    cases h
    exact List.forall_mem_nil _
  | cons v fields ih =>
    simp only [parseLayout, bind_eq_ok, Except.ok.injEq] at h
    obtain ⟨field, hfield, next, -, ⟨rest, last'⟩, hrest, heq⟩ := h
    cases heq
    exact List.forall_mem_cons.mpr ⟨(parseField_eq_ok.mp hfield).2.2.1, ih hrest⟩

/-- The cursor is left where the last field ends. -/
theorem parseLayout_cursor {fields : List Value} {cursor last : ℕ} {parsed : List Field}
    (h : parseLayout fields cursor = .ok (parsed, last)) :
    parsed = [] ∧ last = cursor ∨ ∃ before f, parsed = before ++ [f] ∧ last = f.stop := by
  induction fields generalizing cursor parsed with
  | nil =>
    cases h
    exact .inl ⟨rfl, rfl⟩
  | cons v fields ih =>
    simp only [parseLayout, bind_eq_ok, addUsize_eq_ok, Except.ok.injEq] at h
    obtain ⟨field, -, next, ⟨hnext, -⟩, ⟨rest, last'⟩, hrest, heq⟩ := h
    cases heq
    obtain ⟨rfl, rfl⟩ | ⟨before, f, rfl, rfl⟩ := ih hrest
    · exact .inr ⟨[], field, rfl, hnext.symm⟩
    · exact .inr ⟨field :: before, f, rfl, rfl⟩

theorem stop_le_extent {parsed : List Field} {f : Field} (hf : f ∈ parsed) :
    f.stop ≤ extent parsed := by
  induction parsed with
  | nil => cases hf
  | cons g parsed ih =>
    rw [extent, List.map_cons, List.foldr_cons]
    obtain rfl | hf := List.mem_cons.mp hf
    · exact le_max_left _ _
    · exact (ih hf).trans (le_max_right _ _)

theorem cursor_le_extent {fields : List Value} {cursor : ℕ} {parsed : List Field}
    (h : parseLayout fields 0 = .ok (parsed, cursor)) : cursor ≤ extent parsed := by
  obtain ⟨-, rfl⟩ | ⟨before, f, rfl, rfl⟩ := parseLayout_cursor h
  · exact Nat.zero_le _
  · exact stop_le_extent (by simp)

theorem Last.mem {parsed : List Field} {f : Field} (h : Last Field.name parsed f) : f ∈ parsed := by
  obtain ⟨before, after, rfl, -⟩ := h
  simp

end Layouts

/-! ## What is read -/

section Reads

variable {proc : HostProcess} {mem : ℕ → Option UInt8}

/-- The value of a field in the struct at an address. -/
def memValue (mem : ℕ → Option UInt8) (addr : ℕ) (f : Field) : Value :=
  bytesToJsonNum f.vt (mappedPrefix mem (addr + f.off) f.width)

/-- A read of what is mapped throughout. -/
theorem readBuf_mapped (h : proc.Transfers mem) {addr len : ℕ}
    (hmapped : ∀ k < len, (mem (addr + k)).isSome) :
    proc.readBuf addr (.replicate len 0) = (.ok len, mappedPrefix mem addr len) := by
  have hlen := length_mappedPrefix_of_mapped hmapped
  have hwhole := h.whole addr (.replicate len 0)
  have hbuffer := h.buffer addr (.replicate len 0)
  rw [List.length_replicate] at hwhole hbuffer
  rw [hlen, List.drop_replicate, Nat.sub_self, List.replicate_zero, List.append_nil] at hbuffer
  exact Prod.ext (hwhole hlen) hbuffer

theorem readFields_mapped (h : proc.Transfers mem) {addr : ℕ} {fields : List Value}
    {cursor last : ℕ} {parsed : List Field}
    (hlayout : parseLayout fields cursor = .ok (parsed, last))
    (hspace : ∀ f ∈ parsed, addr + f.stop ≤ usizeMax)
    (hmapped : ∀ f ∈ parsed, ∀ k < f.width, (mem (addr + f.off + k)).isSome)
    (obj : List (String × Value)) : readFields proc addr fields cursor obj =
      .ok (insertAll Field.name (memValue mem addr) obj parsed) := by
  induction fields generalizing cursor parsed obj with
  | nil =>
    cases hlayout
    rfl
  | cons v fields ih =>
    simp only [parseLayout, bind_eq_ok, addUsize_eq_ok, Except.ok.injEq] at hlayout
    obtain ⟨field, hfield, next, ⟨rfl, hnext⟩, ⟨rest, last'⟩, hrest, heq⟩ := hlayout
    cases heq
    obtain ⟨hstop, hspace⟩ := List.forall_mem_cons.mp hspace
    obtain ⟨hbytes, hmapped⟩ := List.forall_mem_cons.mp hmapped
    have hsame : parseField "readStruct: " v cursor = .ok field :=
      parseField_eq_ok.mpr (parseField_eq_ok.mp hfield)
    unfold Field.stop at hstop
    have hread : proc.readBuf ((addr + field.off) % (usizeMax + 1)) (.replicate field.width 0) =
        (.ok field.width, mappedPrefix mem (addr + field.off) field.width) := by
      rw [Nat.mod_eq_of_lt (by omega)]
      exact readBuf_mapped h hbytes
    rw [readFields, hsame]
    dsimp only [bind, Except.bind]
    rw [hread, addUsize_of_le hnext]
    dsimp only [Except.mapError]
    rw [if_pos le_rfl]
    exact ih hrest hspace hmapped _

/-- The value of a field in a struct of a bulk read, if it is inside what was read. -/
def bulkField (mem : ℕ → Option UInt8) (addr total base : ℕ) (f : Field) : Value :=
  if base + f.stop ≤ total then memValue mem (addr + base) f else .null

theorem bulkStruct_mapped {addr total base : ℕ}
    (hmapped : ∀ k < total, (mem (addr + k)).isSome) {parsed : List Field}
    (hspace : ∀ f ∈ parsed, base + f.stop ≤ usizeMax) (obj : List (String × Value)) :
    bulkStruct (mappedPrefix mem addr total) total base parsed obj =
      .ok (insertAll Field.name (bulkField mem addr total base) obj parsed) := by
  induction parsed generalizing obj with
  | nil => rfl
  | cons f parsed ih =>
    obtain ⟨hstop, hspace⟩ := List.forall_mem_cons.mp hspace
    have hvalue : bulkValue (mappedPrefix mem addr total) total base f =
        .ok (bulkField mem addr total base f) := by
      unfold Field.stop at hstop
      rw [bulkValue, addUsize_of_le (by omega)]
      dsimp only [bind, Except.bind]
      rw [addUsize_of_le (by omega)]
      dsimp only
      rw [bulkField, Field.stop, ← Nat.add_assoc]
      by_cases hfits : base + f.off + f.width ≤ total
      · rw [if_pos hfits, if_pos hfits, memValue, Nat.add_assoc addr,
          mappedPrefix_window hfits (length_mappedPrefix_of_mapped hmapped)]
      · rw [if_neg hfits, if_neg hfits]
    rw [bulkStruct, hvalue]
    exact ih hspace _

end Reads

/-! ## The calls -/

section Bulk

variable {proc : HostProcess} {mem : ℕ → Option UInt8} (printJson : Value → String)
  (debugStr : String → String) {args : Value} {addr count cursor size : ℕ} {fields : List Value}
  {parsed : List Field} {stride : Option ℕ}

theorem readStruct_mapped (h : proc.Transfers mem)
    (hlayout : parseLayout fields 0 = .ok (parsed, cursor))
    (hspace : addr + extent parsed ≤ usizeMax)
    (hmapped : ∀ k < extent parsed, (mem (addr + k)).isSome) :
    readStruct (some proc) printJson debugStr (structArgs addr fields) =
      .ok (.object (insertAll Field.name (memValue mem addr) [] parsed)) := by
  have hfields := readFields_mapped h hlayout
    (fun f hf => (Nat.add_le_add_left (stop_le_extent hf) addr).trans hspace)
    (fun f hf k hk => by
      have hstop := stop_le_extent hf
      unfold Field.stop at hstop
      rw [Nat.add_assoc]
      exact hmapped _ (by omega)) []
  unfold readStruct structArgs
  dsimp only [arg, Value.asArray, orFail, bind, Except.bind, Option.elim]
  simp only [List.getElem?_cons_zero, List.getElem?_cons_succ, asAddr, Number.asU64]
  rw [hfields]

theorem readStructArray_args {process : Option HostProcess}
    (hargs : ArrayArgs printJson debugStr args addr fields count stride)
    (hlayout : parseLayout fields 0 = .ok (parsed, cursor)) :
    readStructArray process printJson debugStr args =
      bulkRead process addr count (stride.getD cursor) parsed := by
  obtain ⟨av, harg, haddr⟩ := hargs.addr
  obtain ⟨lv, hlv, hfields⟩ := hargs.layout
  obtain ⟨cv, q, hcv, hq, rfl⟩ := hargs.count
  have hlist : orFail lv.asArray "readStructArray: layout must be an array" = .ok fields :=
    orFail_eq_ok.mpr hfields
  have hnumber : asF64 printJson cv = .ok q := orFail_eq_ok.mpr hq
  unfold readStructArray
  rw [harg, hlv, hcv, hargs.stride]
  dsimp only [bind, Except.bind]
  rw [haddr]
  dsimp only
  rw [hlist]
  dsimp only
  rw [hnumber]
  dsimp only
  rw [hlayout]

/-- The structs of a bulk read, at the distance of the stride. -/
theorem bulkRead_mapped {step : ℕ} (hpos : 0 < step) (hcap : count * step ≤ maxScriptRead)
    (h : proc.Transfers mem) (hmapped : ∀ k < count * step, (mem (addr + k)).isSome)
    (hspace : ∀ i < count, i * step + extent parsed ≤ usizeMax) :
    bulkRead (some proc) addr count step parsed =
      .ok (.array ((List.range count).map fun i => .object
        (insertAll Field.name (bulkField mem addr (count * step) (i * step)) [] parsed))) := by
  have htotal : checked (count * step) = some (count * step) := if_pos (hcap.trans (by decide))
  have harr : ((List.range count).mapM fun i =>
      (bulkStruct (mappedPrefix mem addr (count * step)) (count * step) (i * step) parsed []).map
        Value.object) = .ok ((List.range count).map fun i => .object
          (insertAll Field.name (bulkField mem addr (count * step) (i * step)) [] parsed)) := by
    refine mapM_eq_ok fun i hi => ?_
    have hlt := List.mem_range.mp hi
    rw [bulkStruct_mapped hmapped fun f hf =>
      (Nat.add_le_add_left (stop_le_extent hf) _).trans (hspace i hlt)]
    rfl
  unfold bulkRead
  rw [if_neg hpos.ne', htotal]
  dsimp only [orFail, Option.elim, bind, Except.bind]
  rw [if_neg (Nat.not_lt.mpr hcap), readBuf_mapped h hmapped]
  dsimp only [Except.mapError]
  rw [Nat.mul_div_cancel _ hpos, harr]

/-- The reads of the structs, one by one. -/
theorem readStructs_mapped (hlayout : parseLayout fields 0 = .ok (parsed, cursor))
    (hsize : addr + size ≤ usizeMax) {step : ℕ}
    (hstructs : ∀ i < count, i * step + extent parsed ≤ size)
    (h : proc.Transfers mem) (hmapped : ∀ k < size, (mem (addr + k)).isSome) :
    (List.range count).mapM (fun i => readStruct (some proc) printJson debugStr
      (structArgs (addr + i * step) fields)) =
    .ok ((List.range count).map fun i => .object (insertAll Field.name
      (memValue mem (addr + i * step)) [] parsed)) := by
  refine mapM_eq_ok fun i hi => ?_
  have hstop := hstructs i (List.mem_range.mp hi)
  refine readStruct_mapped printJson debugStr h hlayout (by omega) fun k hk => ?_
  rw [Nat.add_assoc]
  exact hmapped _ (by omega)

/-- One bulk read is the reads of its structs exactly if each field that remains is the same. -/
theorem readStructArray_eq_iff
    (hargs : ArrayArgs printJson debugStr args addr fields count stride)
    (hlayout : parseLayout fields 0 = .ok (parsed, cursor)) (hpos : 0 < stride.getD cursor)
    (hcap : count * stride.getD cursor ≤ maxScriptRead) (hsize : addr + size ≤ usizeMax)
    (hbulk : count * stride.getD cursor ≤ size)
    (hstructs : ∀ i < count, i * stride.getD (extent parsed) + extent parsed ≤ size)
    (h : proc.Transfers mem) (hmapped : ∀ k < size, (mem (addr + k)).isSome) :
    readStructArray (some proc) printJson debugStr args =
        ((List.range count).mapM fun i => readStruct (some proc) printJson debugStr
          (structArgs (addr + i * stride.getD (extent parsed)) fields)).map Value.array ↔
      ∀ i < count, ∀ f, Last Field.name parsed f →
        bulkField mem addr (count * stride.getD cursor) (i * stride.getD cursor) f =
          memValue mem (addr + i * stride.getD (extent parsed)) f := by
  have hle : stride.getD cursor ≤ stride.getD (extent parsed) := by
    cases stride with
    | none => exact cursor_le_extent hlayout
    | some n => exact le_rfl
  have hspace : ∀ i < count, i * stride.getD cursor + extent parsed ≤ usizeMax := fun i hi => by
    have hmul := Nat.mul_le_mul_left i hle
    have hstop := hstructs i hi
    omega
  rw [readStructArray_args printJson debugStr hargs hlayout,
    readStructs_mapped printJson debugStr hlayout hsize hstructs h hmapped,
    bulkRead_mapped hpos hcap h (fun k hk => hmapped k (by omega)) hspace, Except.map,
    Except.ok.injEq, Value.array.injEq, List.map_eq_map_iff]
  simp only [List.mem_range, Value.object.injEq, insertAll_eq_iff]

end Bulk

/-! ## Bytes that show a difference -/

section Numbers

theorem leBytes_replicate_zero (n : ℕ) : leBytes (.replicate n 0) = 0 := by
  induction n with
  | zero => rfl
  | succ n ih =>
    rw [List.replicate_succ, leBytes, ih]
    rfl

theorem leJson_of_lt (signed : Bool) {b : List UInt8} (hsmall : leBytes b < 128)
    (hne : b ≠ []) : leJson signed b.length b = .number (.float (leBytes b)) := by
  have hpow : 128 ≤ 2 ^ (8 * b.length - 1) := by
    have hlen := List.length_pos_iff.mpr hne
    calc 128 = 2 ^ 7 := rfl
      _ ≤ 2 ^ (8 * b.length - 1) := Nat.pow_le_pow_right (by decide) (by omega)
  have hvalue : fromLeBytes signed b = leBytes b := if_neg (by omega)
  rw [leJson, List.take_length, hvalue, Binary64.roundInt_of_lt (by omega)]
  rfl

theorem leJson_zeros (signed : Bool) {width : ℕ} (hpos : 0 < width) :
    leJson signed width (.replicate width 0) = .number (.float 0) := by
  have hlen : (List.replicate width (0 : UInt8)).length = width := List.length_replicate
  have hne : List.replicate width (0 : UInt8) ≠ [] := List.ne_nil_of_length_pos (by omega)
  have hjson := leJson_of_lt signed (by rw [leBytes_replicate_zero]; decide) hne
  rw [leBytes_replicate_zero, hlen] at hjson
  exact hjson

theorem leBytes_one (n : ℕ) : leBytes (1 :: .replicate n 0) = 1 := by
  rw [leBytes, leBytes_replicate_zero]
  rfl

theorem leJson_one (signed : Bool) {width : ℕ} (hpos : 0 < width) :
    leJson signed width (1 :: .replicate (width - 1) 0) = .number (.float 1) := by
  have hlen : ((1 : UInt8) :: List.replicate (width - 1) 0).length = width := by
    rw [List.length_cons, List.length_replicate]
    omega
  have hjson := leJson_of_lt signed (by rw [leBytes_one]; decide)
    (List.cons_ne_nil (1 : UInt8) (.replicate (width - 1) 0))
  rw [leBytes_one, hlen] at hjson
  exact_mod_cast hjson

/-- Zeros are the number zero. -/
theorem bytesToJsonNum_zeros {vt : ScanValueType} {width : ℕ} (h : vt.fixedWidth = some width) :
    bytesToJsonNum vt (.replicate width 0) = .number (.float 0) := by
  have hfloat (format : Binary64.Format) (hexponent : 0 < format.exponentBits) (n : ℕ) :
      Value.ofF64 (format.decode (leBytes (.replicate n 0))) = .number (.float 0) := by
    rw [leBytes_replicate_zero, Binary64.Format.decode_zero hexponent]
    rfl
  cases vt <;> cases h
  case f32 => exact hfloat Binary64.single (by decide) 4
  case f64 => exact hfloat Binary64.double (by decide) 8
  all_goals exact leJson_zeros _ (by decide)

/-- A lowest byte of one is not. -/
theorem bytesToJsonNum_one {vt : ScanValueType} {width : ℕ} (h : vt.fixedWidth = some width) :
    bytesToJsonNum vt (1 :: .replicate (width - 1) 0) ≠ .number (.float 0) := by
  have hfloat (format : Binary64.Format) (hexponent : 0 < format.exponentBits)
      (hfraction : 0 < format.fractionBits) (n : ℕ) :
      Value.ofF64 (format.decode (leBytes (1 :: .replicate n 0))) ≠ .number (.float 0) := by
    obtain ⟨q, hq, hne⟩ := Binary64.Format.decode_one hexponent hfraction
    rw [leBytes_one, hq]
    simpa [Value.ofF64] using hne
  have hint (signed : Bool) {w : ℕ} (hpos : 0 < w) :
      leJson signed w (1 :: .replicate (w - 1) 0) ≠ .number (.float 0) := by
    rw [leJson_one signed hpos]
    simp
  cases vt <;> cases h
  case f32 => exact hfloat Binary64.single (by decide) (by decide) 3
  case f64 => exact hfloat Binary64.double (by decide) (by decide) 7
  all_goals exact hint _ (by decide)

end Numbers

section Shown

variable {mem : ℕ → Option UInt8} {addr : ℕ} {f : Field}

theorem memValue_zeros (hf : f.vt.fixedWidth = some f.width)
    (h : ∀ k < f.width, mem (addr + f.off + k) = some 0) :
    memValue mem addr f = .number (.float 0) := by
  rw [memValue, mappedPrefix_const h]
  exact bytesToJsonNum_zeros hf

theorem memValue_one (hf : f.vt.fixedWidth = some f.width) (hone : mem (addr + f.off) = some 1)
    (h : ∀ k, mem (addr + f.off + 1 + k) = some 0) : memValue mem addr f ≠ .number (.float 0) := by
  have hpos := ScanValueType.fixedWidth_pos hf
  have hbytes : mappedPrefix mem (addr + f.off) f.width = 1 :: .replicate (f.width - 1) 0 := by
    obtain ⟨n, hn⟩ := Nat.exists_eq_succ_of_ne_zero hpos.ne'
    rw [hn, mappedPrefix_some hone, mappedPrefix_const fun k _ => h k]
    rfl
  rw [memValue, hbytes]
  exact bytesToJsonNum_one hf

end Shown

section Laid

variable (printJson : Value → String) (debugStr : String → String) {args : Value}
  {addr count cursor size : ℕ} {fields : List Value} {parsed : List Field} {stride : Option ℕ}
  (hargs : ArrayArgs printJson debugStr args addr fields count stride)
  (hlayout : parseLayout fields 0 = .ok (parsed, cursor))
  (hcap : count * stride.getD cursor ≤ maxScriptRead) (hsize : addr + size ≤ usizeMax)
  (hbulk : count * stride.getD cursor ≤ size)
  (hstructs : ∀ i < count, i * stride.getD (extent parsed) + extent parsed ≤ size)

include hargs hlayout hsize hstructs

/-- A stride of zero is refused, where the structs on their own are read. -/
theorem BulkReads.stride_pos
    (h : BulkReads printJson debugStr args addr fields count (stride.getD (extent parsed)) size) :
    0 < stride.getD cursor := by
  by_contra hzero
  have hrefused := h (reading (fun _ => some 0) []) _ (reading_transfers _ _) fun _ _ => rfl
  rw [readStructs_mapped printJson debugStr hlayout hsize hstructs (reading_transfers _ _)
      fun _ _ => rfl,
    readStructArray_args printJson debugStr hargs hlayout, bulkRead,
    if_pos (Nat.eq_zero_of_not_pos hzero)] at hrefused
  cases hrefused

include hcap hbulk

/-- Where the reads agree, so do the values of every field that remains. -/
theorem BulkReads.values
    (h : BulkReads printJson debugStr args addr fields count (stride.getD (extent parsed)) size)
    (mem : ℕ → Option UInt8) (hmapped : ∀ k < size, (mem (addr + k)).isSome) :
    ∀ i < count, ∀ f, Last Field.name parsed f →
      bulkField mem addr (count * stride.getD cursor) (i * stride.getD cursor) f =
        memValue mem (addr + i * stride.getD (extent parsed)) f := by
  have hpos := h.stride_pos printJson debugStr hargs hlayout hsize hstructs
  have htransfers := reading_transfers mem []
  exact (readStructArray_eq_iff printJson debugStr hargs hlayout hpos hcap hsize hbulk hstructs
    htransfers hmapped).mp (h _ mem htransfers hmapped)

/-- The last struct of the bulk read leaves no room behind its stride. -/
theorem BulkReads.fits
    (h : BulkReads printJson debugStr args addr fields count (stride.getD (extent parsed)) size)
    {f : Field} (hcount : 0 < count) (hf : Last Field.name parsed f) :
    f.stop ≤ stride.getD cursor := by
  have hwidth := parseLayout_widths hlayout f (Last.mem hf)
  have hsame := h.values printJson debugStr hargs hlayout hcap hsize hbulk hstructs
    (fun _ => some 0) (fun _ _ => rfl) (count - 1) (by omega) f hf
  rw [memValue_zeros hwidth fun _ _ => rfl, bulkField] at hsame
  split at hsame
  · rename_i hstop
    obtain ⟨n, rfl⟩ := Nat.exists_eq_succ_of_ne_zero hcount.ne'
    rw [Nat.succ_sub_one, Nat.succ_mul] at hstop
    omega
  · cases hsame

omit hcap hbulk in
/-- Without a stride of its own the bulk read places the structs by the last field. -/
theorem BulkReads.placed (hcap : count * cursor ≤ maxScriptRead) (hbulk : count * cursor ≤ size)
    (hnone : stride = none)
    (h : BulkReads printJson debugStr args addr fields count (stride.getD (extent parsed)) size)
    (hcount : 1 < count) : cursor = extent parsed := by
  subst hnone
  have hpos := h.stride_pos printJson debugStr hargs hlayout hsize hstructs
  obtain ⟨-, hempty⟩ | ⟨before, f, hparsed, hcursor⟩ := parseLayout_cursor hlayout
  · exact absurd hempty hpos.ne'
  have hf : Last Field.name parsed f := ⟨before, [], hparsed, List.forall_mem_nil _⟩
  have hwidth := parseLayout_widths hlayout f (Last.mem hf)
  have hle := cursor_le_extent hlayout
  by_contra hshort
  -- one byte is set, where the second struct of the bulk read has its last field
  let mem (a : ℕ) : Option UInt8 := some (if a = addr + cursor + f.off then 1 else 0)
  have hsame := h.values printJson debugStr hargs hlayout hcap hsize hbulk hstructs mem
    (fun _ _ => rfl) 1 hcount f hf
  have hinside : cursor + f.stop ≤ count * cursor := by
    have htwo := Nat.mul_le_mul_right cursor (Nat.succ_le_of_lt hcount)
    omega
  rw [Option.getD_none, Option.getD_none, Nat.one_mul, Nat.one_mul, bulkField,
    if_pos hinside] at hsame
  refine memValue_one hwidth (congrArg some (if_pos rfl)) (fun k => ?_)
    (hsame.trans (memValue_zeros hwidth ?_))
  · exact congrArg some (if_neg (by omega))
  · exact fun k _ => congrArg some (if_neg (by omega))

end Laid

/-- A field that fits is inside of the bulk read, at the address of the struct's own read. -/
theorem BulkFits.value_eq {parsed : List Field} {count cursor : ℕ} {stride : Option ℕ}
    (h : BulkFits parsed count cursor stride) (mem : ℕ → Option UInt8) (addr : ℕ) {i : ℕ}
    (hi : i < count) {f : Field} (hf : Last Field.name parsed f) :
    bulkField mem addr (count * stride.getD cursor) (i * stride.getD cursor) f =
      memValue mem (addr + i * stride.getD (extent parsed)) f := by
  have hstop := h.fits (by omega) hf
  have hinside : i * stride.getD cursor + f.stop ≤ count * stride.getD cursor := by
    calc i * stride.getD cursor + f.stop ≤ (i + 1) * stride.getD cursor := by
          rw [Nat.succ_mul]
          omega
      _ ≤ count * stride.getD cursor := Nat.mul_le_mul_right _ hi
  rw [bulkField, if_pos hinside]
  cases stride with
  | some n => rfl
  | none =>
    obtain rfl | hpos' := Nat.eq_zero_or_pos i
    · rw [Nat.zero_mul, Nat.zero_mul]
    · have hsame := h.placed (by omega) rfl
      rw [Option.getD_none, Option.getD_none, ← hsame]

/-- A bulk read is the reads of its structs exactly if the fields that remain end within the
stride, and the stride, if it is not given, is the largest end of any field. -/
theorem bulkReads_iff (printJson : Value → String) (debugStr : String → String) {args : Value}
    {addr count cursor size : ℕ} {fields : List Value} {parsed : List Field} {stride : Option ℕ}
    (hargs : ArrayArgs printJson debugStr args addr fields count stride)
    (hlayout : parseLayout fields 0 = .ok (parsed, cursor))
    (hcap : count * stride.getD cursor ≤ maxScriptRead) (hsize : addr + size ≤ usizeMax)
    (hbulk : count * stride.getD cursor ≤ size)
    (hstructs : ∀ i < count, i * stride.getD (extent parsed) + extent parsed ≤ size) :
    BulkReads printJson debugStr args addr fields count (stride.getD (extent parsed)) size ↔
      BulkFits parsed count cursor stride := by
  constructor
  · intro h
    refine ⟨h.stride_pos printJson debugStr hargs hlayout hsize hstructs,
      h.fits printJson debugStr hargs hlayout hcap hsize hbulk hstructs, fun hcount hnone => ?_⟩
    subst hnone
    exact h.placed printJson debugStr hargs hlayout hsize hstructs hcap hbulk rfl hcount
  · intro h proc mem htransfers hmapped
    exact (readStructArray_eq_iff printJson debugStr hargs hlayout h.stride_pos hcap hsize hbulk
      hstructs htransfers hmapped).mpr fun i hi f hf => h.value_eq mem addr hi hf

/-- A word, and after a gap a double word. -/
def gapLayout : List Value :=
  [.object [("name", .string "x"), ("type", .string "u16")],
   .object [("name", .string "y"), ("type", .string "U32"), ("offset", .number (.float 4))]]

theorem bulkReads_gap : BulkReads (fun _ => "") id
    (.array [.number (.posInt 4096), .array gapLayout, .number (.float 2)]) 4096 gapLayout 2 8 16 := by
  have hargs : ArrayArgs (fun _ => "") id
      (.array [.number (.posInt 4096), .array gapLayout, .number (.float 2)]) 4096 gapLayout 2
        none :=
    ⟨⟨_, rfl, rfl⟩, ⟨_, rfl, rfl⟩, ⟨_, 2, rfl, rfl, by decide +kernel⟩, rfl⟩
  have hlayout : parseLayout gapLayout 0 = .ok ([⟨"x", .u16, 2, 0⟩, ⟨"y", .u32, 4, 4⟩], 8) := by
    decide +kernel
  refine (bulkReads_iff (fun _ => "") id hargs hlayout (by decide) (by decide) (by decide)
    (by decide)).mpr ⟨by decide, fun _ hf => ?_, fun _ _ => by decide⟩
  have hmem := Last.mem hf
  simp only [List.mem_cons, List.not_mem_nil, or_false] at hmem
  obtain rfl | rfl := hmem <;> decide

/-- The second of two double words, and then the first. -/
def swappedLayout : List Value :=
  [.object [("name", .string "a"), ("type", .string "u32"), ("offset", .number (.float 4))],
   .object [("name", .string "b"), ("type", .string "u32"), ("offset", .number (.float 0))]]

/-- The stride is where the last field ends, and what is beyond it is not read. -/
theorem readStructArray_swapped :
    readStructArray (some (reading (fun _ => some 0) [])) (fun _ => "") id
        (.array [.number (.posInt 4096), .array swappedLayout, .number (.float 1)]) =
      .ok (.array [.object [("a", .null), ("b", .number (.float 0))]]) ∧
    readStruct (some (reading (fun _ => some 0) [])) (fun _ => "") id
        (structArgs 4096 swappedLayout) =
      .ok (.object [("a", .number (.float 0)), ("b", .number (.float 0))]) ∧
    ¬ BulkReads (fun _ => "") id
      (.array [.number (.posInt 4096), .array swappedLayout, .number (.float 1)]) 4096
      swappedLayout 1 8 8 := by
  have hargs : ArrayArgs (fun _ => "") id
      (.array [.number (.posInt 4096), .array swappedLayout, .number (.float 1)]) 4096
        swappedLayout 1 none :=
    ⟨⟨_, rfl, rfl⟩, ⟨_, rfl, rfl⟩, ⟨_, 1, rfl, rfl, by decide +kernel⟩, rfl⟩
  have hlayout : parseLayout swappedLayout 0 =
      .ok ([⟨"a", .u32, 4, 4⟩, ⟨"b", .u32, 4, 0⟩], 4) := by
    decide +kernel
  have hzeros (addr : ℕ) (f : Field) (hf : f.vt.fixedWidth = some f.width) :
      memValue (fun _ => some 0) addr f = .number (.float 0) :=
    memValue_zeros hf fun _ _ => rfl
  have hbulk : readStructArray (some (reading (fun _ => some 0) [])) (fun _ => "") id
      (.array [.number (.posInt 4096), .array swappedLayout, .number (.float 1)]) =
      .ok (.array [.object [("a", .null), ("b", .number (.float 0))]]) := by
    rw [readStructArray_args (fun _ => "") id hargs hlayout,
      bulkRead_mapped (by decide) (by decide) (reading_transfers _ _) (fun _ _ => rfl)
        (by decide)]
    simp only [Nat.one_mul, List.range_one, List.map_cons, List.map_nil, insertAll,
      List.foldl_cons, List.foldl_nil, Option.getD_none, Nat.zero_mul, bulkField, Field.stop]
    rw [hzeros _ _ rfl, hzeros _ _ rfl]
    rfl
  have hsingle : readStruct (some (reading (fun _ => some 0) [])) (fun _ => "") id
      (structArgs 4096 swappedLayout) =
      .ok (.object [("a", .number (.float 0)), ("b", .number (.float 0))]) := by
    rw [readStruct_mapped (fun _ => "") id (reading_transfers _ _) hlayout (by decide)
      fun _ _ => rfl]
    rw [insertAll, List.foldl_cons, List.foldl_cons, hzeros _ _ rfl, hzeros _ _ rfl]
    rfl
  refine ⟨hbulk, hsingle, fun h => ?_⟩
  have hsame := h _ _ (reading_transfers (fun _ => some 0) []) fun _ _ => rfl
  rw [hbulk, List.range_one, List.mapM_cons, Nat.zero_mul, Nat.add_zero, hsingle] at hsame
  cases hsame

end Nemclass.Ui
