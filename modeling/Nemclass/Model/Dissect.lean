import Nemclass.Address.Lexing
import Nemclass.Analysis.Strings
import Nemclass.Lib.Strides
import Nemclass.Model.ProjectFile
import Nemclass.Scan.PathFormula
import Nemclass.Scan.ValueType

/-! The dissector: a walk over a buffer that guesses a field for each slot. A
string field is as long as its run, but the walk goes on at the next word. -/
namespace Nemclass.Model
open Address Analysis Scan

/-- A byte slice, which no machine has longer. -/
structure ByteSlice where
  bytes : List UInt8
  length_lt : bytes.length < 2 ^ 63

inductive PointerClass where
  | null
  | notPointer
  | dataPtr
  | codePtr
  | vTablePtr (methodCount : UInt64)

namespace Dissect

def stringMinLen : ℕ := 4

def int64SmallBound : ℕ := 0x100000000

def leafDef (typeTag name : String) : NodeDef := ⟨typeTag, name, "", [], []⟩

def leafDefWithInt (typeTag name attr : String) (val : Int64) : NodeDef :=
  ⟨typeTag, name, "", [(attr, .integer val)], []⟩

/-- Up to a multiple of a power of two, whose mask clears the remainder. -/
def roundUp (n align : ℕ) : ℕ := (n + align - 1) / align * align

def fieldName (offset : ℕ) : String := "field_" ++ lowerHex offset

def textDef (name : String) (run : StringRun) : NodeDef :=
  match run.kind with
  | .ascii => leafDefWithInt "Utf8Text" name "length" (UInt64.ofNat run.lenBytes).toInt64
  | .utf16Le => leafDefWithInt "Utf16Text" name "length" (UInt64.ofNat run.lenBytes).toInt64

def methodDefs (methodCount : UInt64) : List NodeDef :=
  (List.range methodCount.toNat).map fun i => leafDef "VMethod" s!"method_{i}"

/-- The field of a word. -/
def wordDef (classify : UInt64 → PointerClass) (name : String) (value : UInt64) : NodeDef :=
  match classify value with
  | .vTablePtr methodCount => { leafDef "VTable" name with nodes := methodDefs methodCount }
  | .codePtr => leafDef "FunctionPtr" name
  | .dataPtr => leafDef "Pointer" name
  | .null | .notPointer =>
    if value.toInt64.toInt.natAbs < int64SmallBound then leafDef "Int64" name
    else leafDef "Hex64" name

def wordAt (buf : List UInt8) (offset : ℕ) : UInt64 :=
  UInt64.ofNat (leBytes ((buf.drop offset).take 8))

theorem le_roundUp {n align : ℕ} (h : 0 < align) : n ≤ roundUp n align := by
  have hdiv := Nat.div_add_mod (n + align - 1) align
  have hmod := Nat.mod_lt (n + align - 1) h
  rw [roundUp, Nat.mul_comm]
  omega

theorem roundUp_eq_iff {n : ℕ} : n = roundUp n 8 ↔ 8 ∣ n := by
  unfold roundUp
  omega

/-- The walk from `offset` on. -/
def dissectFrom (buf : List UInt8) (classify : UInt64 → PointerClass) (offset : ℕ) :
    List NodeDef :=
  if 8 ≤ buf.length - offset then
    match h : stringAt buf offset stringMinLen with
    | some run =>
      textDef (fieldName offset) run ::
        dissectFrom buf classify (offset + roundUp run.lenBytes 8)
    | none =>
      wordDef classify (fieldName offset) (wordAt buf offset) ::
        dissectFrom buf classify (offset + 8)
  else []
termination_by buf.length - offset
decreasing_by
  · have hpos := (stringAt_bounds h).1
    have hle := @le_roundUp run.lenBytes 8 (by decide)
    omega
  · omega

def dissectBuffer (buf : ByteSlice) (classify : UInt64 → PointerClass) : List NodeDef :=
  dissectFrom buf.bytes classify 0

/-! ## The slots of a buffer -/

/-- The offsets that the walk visits, and where it stops. -/
inductive Slot (buf : List UInt8) : ℕ → Prop
  | start : Slot buf 0
  | string {offset : ℕ} {run : StringRun} : Slot buf offset → offset + 8 ≤ buf.length →
      stringAt buf offset stringMinLen = some run → Slot buf (offset + roundUp run.lenBytes 8)
  | word {offset : ℕ} : Slot buf offset → offset + 8 ≤ buf.length →
      stringAt buf offset stringMinLen = none → Slot buf (offset + 8)

/-- Every string that a further field follows ends at a word boundary. -/
def StringsFill (buf : List UInt8) : Prop :=
  ∀ offset run, Slot buf offset → stringAt buf offset stringMinLen = some run →
    offset + roundUp run.lenBytes 8 + 8 ≤ buf.length → 8 ∣ run.lenBytes

def advance (buf : List UInt8) (offset : ℕ) : ℕ+ :=
  match stringAt buf offset stringMinLen with
  | some run => (roundUp run.lenBytes 8).toPNat'
  | none => 8

theorem advance_string {buf : List UInt8} {offset : ℕ} {run : StringRun}
    (h : stringAt buf offset stringMinLen = some run) :
    (advance buf offset : ℕ) = roundUp run.lenBytes 8 := by
  have hpos := (stringAt_bounds h).1.trans_le (le_roundUp (n := run.lenBytes) (by decide : 0 < 8))
  rw [advance, h]
  exact (Nat.toPNat'_coe _).trans (if_pos hpos)

theorem advance_word {buf : List UInt8} {offset : ℕ}
    (h : stringAt buf offset stringMinLen = none) : (advance buf offset : ℕ) = 8 := by
  rw [advance, h]
  rfl

/-- The node that a slot's definition stands for. -/
def textNode (name : String) (run : StringRun) : Node :=
  match run.kind with
  | .ascii => .utf8Text name "" (UInt64.ofNat run.lenBytes)
  | .utf16Le => .utf16Text name "" (UInt64.ofNat run.lenBytes)

def methodNodes (methodCount : UInt64) : List Node :=
  (List.range methodCount.toNat).map fun i => .simple .vMethod s!"method_{i}" ""

def wordNode (classify : UInt64 → PointerClass) (name : String) (value : UInt64) : Node :=
  match classify value with
  | .vTablePtr methodCount => .vTable name "" (methodNodes methodCount)
  | .codePtr => .simple .functionPtr name ""
  | .dataPtr => .pointer name "" none
  | .null | .notPointer =>
    if value.toInt64.toInt.natAbs < int64SmallBound then .simple .int64 name ""
    else .simple .hex64 name ""

def slotNode (buf : List UInt8) (classify : UInt64 → PointerClass) (offset : ℕ) : Node :=
  match stringAt buf offset stringMinLen with
  | some run => textNode (fieldName offset) run
  | none => wordNode classify (fieldName offset) (wordAt buf offset)

section Serialize
variable [UuidLibrary]

theorem textDef_eq (name : String) (run : StringRun) :
    textDef name run = serializeNodeRecursive (textNode name run) := by
  unfold textDef textNode
  split <;> rfl

theorem wordDef_eq (classify : UInt64 → PointerClass) (name : String) (value : UInt64) :
    wordDef classify name value = serializeNodeRecursive (wordNode classify name value) := by
  unfold wordDef wordNode
  split
  · next methodCount _ =>
    rw [serializeNodeRecursive, serializeNodes_eq_map, methodNodes, List.map_map]
    rfl
  · rfl
  · rfl
  · split <;> rfl
  · split <;> rfl

/-- The walk visits the stops, and each slot's definition is a node's. -/
theorem dissectFrom_eq (buf : List UInt8) (classify : UInt64 → PointerClass) (offset : ℕ) :
    dissectFrom buf classify offset =
      serializeNodes ((Strides.stops (buf.length - 7) (advance buf) offset).map
        (slotNode buf classify)) := by
  fun_induction dissectFrom buf classify offset with
  | case1 offset hroom run h ih =>
    rw [Strides.stops_of_lt (by omega), List.map_cons, serializeNodes, advance_string h, ih,
      textDef_eq, slotNode, h]
  | case2 offset hroom h ih =>
    rw [Strides.stops_of_lt (by omega), List.map_cons, serializeNodes, advance_word h, ih,
      wordDef_eq, slotNode, h]
  | case3 offset hroom => rw [Strides.stops_of_le (by omega), List.map_nil, serializeNodes]

end Serialize

/-- The three shapes of a word's node. -/
theorem wordNode_cases (classify : UInt64 → PointerClass) (name : String) (value : UInt64) :
    (∃ methodCount, wordNode classify name value = .vTable name "" (methodNodes methodCount)) ∨
    (∃ kind, kind.size = 8 ∧ wordNode classify name value = .simple kind name "") ∨
    wordNode classify name value = .pointer name "" none := by
  unfold wordNode
  split
  · exact .inl ⟨_, rfl⟩
  · exact .inr (.inl ⟨.functionPtr, rfl, rfl⟩)
  · exact .inr (.inr rfl)
  all_goals
    split
    · exact .inr (.inl ⟨.int64, rfl, rfl⟩)
    · exact .inr (.inl ⟨.hex64, rfl, rfl⟩)

/-- What a slot's node is for the registry and for the layout. -/
structure Fits (n : Node) (name : String) (size : ℕ) : Prop where
  builtIn : n.BuiltIn
  height_le : n.height ≤ 2
  name_eq : n.name = name
  size_eq : n.memorySize = size

theorem fits_textNode (name : String) {run : StringRun} (h : run.lenBytes < 2 ^ 64) :
    Fits (textNode name run) name run.lenBytes := by
  have hsize : (UInt64.ofNat run.lenBytes).toNat = run.lenBytes :=
    UInt64.toNat_ofNat_of_lt h
  unfold textNode
  split
  · exact ⟨trivial, by simp [Node.height], rfl, by rw [Node.memorySize, hsize]⟩
  · exact ⟨trivial, by simp [Node.height], rfl, by rw [Node.memorySize, hsize]⟩

theorem fits_wordNode (classify : UInt64 → PointerClass) (name : String) (value : UInt64) :
    Fits (wordNode classify name value) name 8 := by
  obtain ⟨methodCount, h⟩ | ⟨kind, hkind, h⟩ | h := wordNode_cases classify name value
  · rw [h]
    have hmethods : ∀ n ∈ methodNodes methodCount, n.BuiltIn ∧ n.height ≤ 1 := by
      intro n hn
      obtain ⟨i, -, rfl⟩ := List.mem_map.mp hn
      exact ⟨trivial, by simp [Node.height]⟩
    refine ⟨Node.allBuiltIn_iff.mpr fun n hn => (hmethods n hn).1, ?_, rfl, rfl⟩
    rw [Node.height]
    exact Nat.succ_le_succ (Node.heights_le_iff.mpr fun n hn => (hmethods n hn).2)
  · rw [h]
    exact ⟨trivial, by simp [Node.height], rfl, hkind⟩
  · rw [h]
    exact ⟨trivial, by simp [Node.height], rfl, rfl⟩

/-- The size of a slot's field: a string's run, or a word. -/
def slotSize (buf : List UInt8) (offset : ℕ) : ℕ :=
  match stringAt buf offset stringMinLen with
  | some run => run.lenBytes
  | none => 8

theorem fits_slotNode {buf : List UInt8} (hlen : buf.length < 2 ^ 63)
    (classify : UInt64 → PointerClass) (offset : ℕ) :
    Fits (slotNode buf classify offset) (fieldName offset) (slotSize buf offset) := by
  unfold slotNode slotSize
  cases h : stringAt buf offset stringMinLen with
  | some run =>
    have hbound := (stringAt_bounds h).2
    exact fits_textNode _ (by omega)
  | none => exact fits_wordNode classify _ _

/-! ## The condition -/

theorem slot_iff (buf : List UInt8) (offset : ℕ) :
    Slot buf offset ↔
      Relation.ReflTransGen (Strides.Leads (buf.length - 7) (advance buf)) 0 offset := by
  constructor
  · intro h
    induction h with
    | start => exact .refl
    | string _ hroom hrun ih => exact ih.tail ⟨by omega, by rw [advance_string hrun]⟩
    | word _ hroom hnone ih => exact ih.tail ⟨by omega, by rw [advance_word hnone]⟩
  · intro h
    induction h with
    | refl => exact .start
    | @tail p q _ hstep ih =>
      obtain ⟨hlt, rfl⟩ := hstep
      cases hrun : stringAt buf p stringMinLen with
      | some run =>
        rw [advance_string hrun]
        exact .string ih (by omega) hrun
      | none =>
        rw [advance_word hrun]
        exact .word ih (by omega) hrun

theorem filled_iff_stringsFill (buf : List UInt8) :
    Strides.Filled (buf.length - 7) (advance buf) (slotSize buf) 0 ↔ StringsFill buf := by
  constructor
  · intro h offset run hslot hrun hroom
    have hsize := h offset ((slot_iff buf offset).mp hslot)
      (by rw [advance_string hrun]; omega)
    rw [slotSize, hrun, advance_string hrun] at hsize
    exact roundUp_eq_iff.mp hsize
  · intro h offset hslot hroom
    cases hrun : stringAt buf offset stringMinLen with
    | some run =>
      rw [advance_string hrun] at hroom
      have hdvd := h offset run ((slot_iff buf offset).mpr hslot) hrun (by omega)
      rw [slotSize, hrun, advance_string hrun]
      exact roundUp_eq_iff.mpr hdvd
    | none => rw [slotSize, hrun, advance_word hrun]

/-- A name tells the offset it was made from. -/
theorem fieldName_injective : Function.Injective fieldName := by
  intro a b h
  have hdigits : Nat.toDigits 16 a = Nat.toDigits 16 b := by
    simpa [fieldName, lowerHex] using congrArg String.toList h
  have hbytes : Tokenizer.hexBytes a = Tokenizer.hexBytes b := congrArg Utf8.encode hdigits
  have hvalue := congrArg (Tokenizer.digitsValue 16) hbytes
  rwa [Tokenizer.digitsValue_hexBytes, Tokenizer.digitsValue_hexBytes] at hvalue

def slots (buf : List UInt8) : List ℕ := Strides.stops (buf.length - 7) (advance buf) 0

/-- The nodes that a buffer's fields are built as. -/
def dissectedNodes (buf : ByteSlice) (classify : UInt64 → PointerClass) : List Node :=
  (slots buf.bytes).map (slotNode buf.bytes classify)

/-- Every node is named after the sum of the sizes of the nodes before it. -/
def OffsetsKept (nodes : List Node) : Prop :=
  nodes.map Node.name = (Usize.runningSums 0 (nodes.map Node.memorySize)).map fieldName

theorem offsetsKept_iff (buf : ByteSlice) (classify : UInt64 → PointerClass) :
    OffsetsKept (dissectedNodes buf classify) ↔ StringsFill buf.bytes := by
  have hfits := fits_slotNode buf.length_lt classify
  have hnames : (dissectedNodes buf classify).map Node.name = (slots buf.bytes).map fieldName := by
    rw [dissectedNodes, List.map_map]
    exact List.map_congr_left fun offset _ => (hfits offset).name_eq
  have hsizes : (dissectedNodes buf classify).map Node.memorySize =
      (slots buf.bytes).map (slotSize buf.bytes) := by
    rw [dissectedNodes, List.map_map]
    exact List.map_congr_left fun offset _ => (hfits offset).size_eq
  rw [OffsetsKept, hnames, hsizes, (List.map_injective_iff.mpr fieldName_injective).eq_iff,
    slots, Strides.stops_eq_runningSums, filled_iff_stringsFill]

section Materialise
variable [UuidLibrary]

theorem readNodes_dissectBuffer (buf : ByteSlice) (classify : UInt64 → PointerClass) (s : ℕ) :
    (Project.readNodes (dissectBuffer buf classify)).run s =
      .ok (dissectedNodes buf classify, s) := by
  have hfits := fits_slotNode buf.length_lt classify
  have hbuilt : ∀ n ∈ dissectedNodes buf classify, n.BuiltIn :=
    List.forall_mem_map.mpr fun offset _ => (hfits offset).builtIn
  have hheight : ∀ n ∈ dissectedNodes buf classify, n.height ≤ maxNodeDepth :=
    List.forall_mem_map.mpr fun offset _ => (hfits offset).height_le.trans (by decide)
  rw [dissectBuffer, dissectFrom_eq]
  exact (Project.limited_readNodes hbuilt).ok hheight s

/-- The fields of a buffer can be built, and lie over the bytes they were inferred from exactly
where every string that a further field follows ends at a word boundary. -/
theorem dissectBuffer_offsets (buf : ByteSlice) (classify : UInt64 → PointerClass) :
    ∃ nodes : List Node,
      (∀ s, (Project.readNodes (dissectBuffer buf classify)).run s = .ok (nodes, s)) ∧
      (OffsetsKept nodes ↔ StringsFill buf.bytes) :=
  ⟨_, readNodes_dissectBuffer buf classify, offsetsKept_iff buf classify⟩

end Materialise

/-- `Hello`, padded to a word, then a zero word. -/
def helloBuffer : ByteSlice where
  bytes := [0x48, 0x65, 0x6c, 0x6c, 0x6f, 0, 0, 0, 0, 0, 0, 0, 0, 0, 0, 0]
  length_lt := by decide

/-- The word after `Hello` is named after offset 8, and lies at 5. -/
theorem helloBuffer_misaligned :
    ¬ ∀ (buf : ByteSlice) (classify : UInt64 → PointerClass) (nodes : List Node),
      (∀ s, (@Project.readNodes hyphenatedLibrary (dissectBuffer buf classify)).run s =
        .ok (nodes, s)) → OffsetsKept nodes := by
  intro h
  have hkept := h helloBuffer (fun _ => .null) _
    (@readNodes_dissectBuffer hyphenatedLibrary helloBuffer fun _ => .null)
  have hdvd := (offsetsKept_iff helloBuffer _).mp hkept 0 ⟨0, 5, "Hello", .ascii⟩ .start
    (by decide) (by decide)
  exact absurd hdvd (by decide)

end Dissect

end Nemclass.Model
