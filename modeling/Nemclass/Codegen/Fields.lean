import Nemclass.Codegen.ResolvedSize
import Nemclass.Codegen.Text

/-! The fields of a class as the generators see them: a name, an offset, a kind
and a comment for each child, the kind read off the child's definition. -/
namespace Nemclass.Codegen
open Usize Model

inductive PrimKind where
  | int8 | int16 | int32 | int64
  | uint8 | uint16 | uint32 | uint64
  | float | double | bool
deriving DecidableEq, Repr

/-- The size of a primitive, in C++ as in Rust. -/
def PrimKind.size : PrimKind → ℕ
  | int8 | uint8 | bool => 1
  | int16 | uint16 => 2
  | int32 | uint32 | float => 4
  | int64 | uint64 | double => 8

inductive FieldKind where
  | primitive (p : PrimKind)
  | rawBytes (n : ℕ)
  | pointer (target : Option String)
  | classInstance (name : String)
  | array (count : ℕ)
  | utf8Text (length : ℕ)
  | utf16Text (length : ℕ)
  | vector (components : ℕ) (width : FloatWidth)
  | matrix (rows cols : ℕ) (width : FloatWidth)
deriving DecidableEq, Repr

structure FieldInfo where
  name : String
  offset : ℕ
  kind : FieldKind
  comment : String
deriving DecidableEq, Repr

/-- An integer attribute, cast to a machine word. -/
def wordAttr (d : NodeDef) (key : String) (default : Int64) : ℕ :=
  (((d.attr key).bind TomlValue.asInteger).getD default).toUInt64.toNat

theorem wordAttr_word {d : NodeDef} {key : String} {w : UInt64}
    (h : d.attr key = some (.integer w.toInt64)) (default : Int64) :
    wordAttr d key default = w.toNat := by
  simp [wordAttr, h, TomlValue.asInteger]

section Fields
variable [UuidText] [UnicodeTables] (project : Project)

/-- The class a pointer targets, when it is in the project. -/
def pointerTarget (d : NodeDef) : Option String := do
  let value ← d.attr "target_class_uuid"
  let s ← value.asStr
  let uuid ← Uuid.parse s
  let c ← project.getClass uuid
  pure (sanitizeIdent c.name)

/-- The kind of an embed; one that cannot be resolved is an empty blob, noted in its comment. -/
def instanceKind : Option Uuid → FieldKind × Option String
  | some uuid =>
    match project.getClass uuid with
    | some c => (.classInstance (sanitizeIdent c.name), none)
    | none => (.rawBytes 0, some ("UNRESOLVED " ++ uuid.toString))
  | none => (.rawBytes 0, some "UNRESOLVED (missing class_uuid)")

def fieldKind (d : NodeDef) (contributedSize : ℕ) : FieldKind × Option String :=
  match d.typeTag with
  | "Int8" => (.primitive .int8, none)
  | "Int16" => (.primitive .int16, none)
  | "Int32" => (.primitive .int32, none)
  | "Int64" => (.primitive .int64, none)
  | "UInt8" => (.primitive .uint8, none)
  | "UInt16" => (.primitive .uint16, none)
  | "UInt32" => (.primitive .uint32, none)
  | "UInt64" => (.primitive .uint64, none)
  | "Float" => (.primitive .float, none)
  | "Double" => (.primitive .double, none)
  | "Bool" => (.primitive .bool, none)
  | "Hex8" => (.rawBytes 1, none)
  | "Hex16" => (.rawBytes 2, none)
  | "Hex32" => (.rawBytes 4, none)
  | "Hex64" => (.rawBytes 8, none)
  | "Pointer" => (.pointer (pointerTarget project d), none)
  | "ClassInstance" => instanceKind project (classUuidAttr d)
  | "Array" => (.array (saturatingMul (wordAttr d "count" 0) (wordAttr d "element_size" 1)), none)
  | "Utf8Text" => (.utf8Text (wordAttr d "length" 0), none)
  | "Utf16Text" => (.utf16Text (wordAttr d "length" 0), none)
  | "StrPtr" => (.pointer none, none)
  | tag =>
    match vectorShape tag with
    | some (components, width) => (.vector components width, none)
    | none =>
      match matrixShape tag with
      | some (rows, cols, width) => (.matrix rows cols width, none)
      | none => (.rawBytes contributedSize, none)

def fieldInfo (child : Node) (offset contributedSize : ℕ) : FieldInfo :=
  let (kind, note) := fieldKind project child.toNodeDef contributedSize
  let comment :=
    match note with
    | none => child.comment
    | some note => if child.comment.isEmpty then note else child.comment ++ " " ++ note
  ⟨sanitizeIdent child.name, offset, kind, comment⟩

/-- The walk over a child list, from an offset and a visited set. -/
def resolveFieldsFrom (offset : ℕ) (visited : Finset Uuid) : List Node → List FieldInfo
  | [] => []
  | child :: rest =>
    let contributed := resolvedNodeSize project visited child
    fieldInfo project child offset contributed.size ::
      resolveFieldsFrom (saturatingAdd offset contributed.size) contributed.visited rest

def resolveFields (c : ClassNode) : List FieldInfo := resolveFieldsFrom project 0 ∅ c.children

/-- The kinds of the leaf nodes without attributes. -/
def simpleFieldKind (contributedSize : ℕ) : SimpleKind → FieldKind
  | .int8 => .primitive .int8
  | .int16 => .primitive .int16
  | .int32 => .primitive .int32
  | .int64 => .primitive .int64
  | .uint8 => .primitive .uint8
  | .uint16 => .primitive .uint16
  | .uint32 => .primitive .uint32
  | .uint64 => .primitive .uint64
  | .float => .primitive .float
  | .double => .primitive .double
  | .bool => .primitive .bool
  | .hex8 => .rawBytes 1
  | .hex16 => .rawBytes 2
  | .hex32 => .rawBytes 4
  | .hex64 => .rawBytes 8
  | .strPtr => .pointer none
  | .vMethod | .functionPtr => .rawBytes contributedSize

/-- The kind of a node's field, read off the node itself. -/
def nodeFieldKind (contributedSize : ℕ) : Node → FieldKind
  | .simple kind _ _ => simpleFieldKind contributedSize kind
  | .pointer _ _ target =>
    .pointer ((target.bind project.getClass).map fun c => sanitizeIdent c.name)
  | .classInstance _ _ uuid =>
    match project.getClass uuid with
    | some c => .classInstance (sanitizeIdent c.name)
    | none => .rawBytes 0
  | .malformedInstance .. => .rawBytes 0
  | .array _ _ count elementSize => .array (saturatingMul count.toNat elementSize.toNat)
  | .utf8Text _ _ length => .utf8Text length.toNat
  | .utf16Text _ _ length => .utf16Text length.toNat
  | .vector _ _ size width => .vector size.components width
  | .matrix _ _ size width => .matrix size.rows size.cols width
  | .vTable .. | .function .. | .cls .. => .rawBytes contributedSize

theorem pointerTarget_pointer (name comment : String) (target : Option Uuid) :
    pointerTarget project (Node.pointer name comment target).toNodeDef =
      (target.bind project.getClass).map fun c => sanitizeIdent c.name := by
  cases target with
  | none => rfl
  | some uuid =>
    simp only [pointerTarget, Node.toNodeDef, NodeDef.attr, Node.attrs, TomlValue.asStr,
      List.lookup_cons, beq_self_eq_true, Uuid.parse_toString, Option.bind_eq_bind,
      Option.bind_some]
    cases project.getClass uuid <;> rfl

theorem fieldKind_eq (contributedSize : ℕ) (n : Node) :
    (fieldKind project n.toNodeDef contributedSize).1 =
      nodeFieldKind project contributedSize n := by
  cases n with
  | simple kind => cases kind <;> rfl
  | pointer name comment target => exact congrArg FieldKind.pointer (pointerTarget_pointer ..)
  | classInstance name comment uuid =>
    have hattr := classUuidAttr_classInstance name comment uuid
    refine (congrArg (fun attr => (instanceKind project attr).1) hattr).trans ?_
    rw [instanceKind, nodeFieldKind]
    cases project.getClass uuid <;> rfl
  | malformedInstance => rfl
  | array =>
    exact congrArg₂ (fun count size => FieldKind.array (saturatingMul count size))
      (wordAttr_word rfl 0) (wordAttr_word rfl 1)
  | utf8Text => exact congrArg FieldKind.utf8Text (wordAttr_word rfl 0)
  | utf16Text => exact congrArg FieldKind.utf16Text (wordAttr_word rfl 0)
  | vector _ _ size width => cases size <;> cases width <;> rfl
  | matrix _ _ size width => cases size <;> cases width <;> rfl
  | vTable => rfl
  | function => rfl
  | cls => rfl

theorem resolveFieldsFrom_cons (offset : ℕ) (n : Node) (ns : List Node) :
    resolveFieldsFrom project offset ∅ (n :: ns) =
      fieldInfo project n offset (contributedSize project n) ::
        resolveFieldsFrom project (saturatingAdd offset (contributedSize project n)) ∅ ns := by
  rw [resolveFieldsFrom, resolvedNodeSize_visited_eq]
  rfl

theorem resolveFieldsFrom_getElem (offset : ℕ) (ns : List Node) (i : ℕ) :
    (resolveFieldsFrom project offset ∅ ns)[i]? = ns[i]?.map fun n =>
      fieldInfo project n (saturatingFold offset ((ns.take i).map (contributedSize project)))
        (contributedSize project n) := by
  induction ns generalizing offset i with
  | nil => simp [resolveFieldsFrom]
  | cons n ns ih =>
    rw [resolveFieldsFrom_cons]
    cases i with
    | zero => simp
    | succ i => simp [ih]

/-- The kind of the field emitted for a child. -/
def childKind (n : Node) : FieldKind := nodeFieldKind project (contributedSize project n) n

theorem resolveFieldsFrom_kinds (offset : ℕ) (ns : List Node) :
    (resolveFieldsFrom project offset ∅ ns).map FieldInfo.kind = ns.map (childKind project) := by
  induction ns generalizing offset with
  | nil => rfl
  | cons n ns ih =>
    rw [resolveFieldsFrom_cons, List.map_cons, ih, List.map_cons, childKind, ← fieldKind_eq]
    rfl

/-- What is computed from the kinds of the fields is computed from the children. -/
theorem zipWith_resolveFields {α β : Type} (g : FieldKind → α → β) (c : ClassNode) (xs : List α) :
    List.zipWith (fun f x => g f.kind x) (resolveFields project c) xs =
      List.zipWith (fun n x => g (childKind project n) x) c.children xs := by
  have hkinds := resolveFieldsFrom_kinds project 0 c.children
  calc List.zipWith (fun f x => g f.kind x) (resolveFields project c) xs
      = List.zipWith g ((resolveFields project c).map FieldInfo.kind) xs :=
        List.zipWith_map_left.symm
    _ = List.zipWith g (c.children.map (childKind project)) xs := by rw [resolveFields, hkinds]
    _ = _ := List.zipWith_map_left

theorem resolveFieldsFrom_offsets (offset : ℕ) (ns : List Node) :
    (resolveFieldsFrom project offset ∅ ns).map FieldInfo.offset =
      saturatingSums offset (ns.map (contributedSize project)) := by
  induction ns generalizing offset with
  | nil => rfl
  | cons n ns ih =>
    rw [resolveFieldsFrom_cons, List.map_cons, ih, List.map_cons, saturatingSums]
    rfl

/-- The offsets are the clamped running sums of the exact sizes. -/
theorem resolveFields_offsets (c : ClassNode) : (resolveFields project c).map FieldInfo.offset =
    (runningSums 0 (exactSizes project c.children)).map (min · usizeMax) := by
  have hclamped := saturatingSums_clamped 0 (exactSizes project c.children)
  rw [← contributedSizes_eq, Nat.zero_min] at hclamped
  rw [← hclamped]
  exact resolveFieldsFrom_offsets project 0 c.children

/-- The fields are the children in order, each at the saturating sum of the sizes before it; the
sum of all is the class size, and no call leaves anything in the visited set. -/
theorem resolveFields_layout (c : ClassNode) :
    (∀ i, (resolveFields project c)[i]? = c.children[i]?.map fun n =>
      fieldInfo project n (saturatingFold 0 ((c.children.take i).map (contributedSize project)))
        (contributedSize project n)) ∧
    saturatingFold 0 (c.children.map (contributedSize project)) =
      (resolvedClassSize project ∅ c).size ∧
    (∀ visited d, (resolvedClassSize project visited d).visited = visited) ∧
    ∀ visited n, (resolvedNodeSize project visited n).visited = visited :=
  ⟨resolveFieldsFrom_getElem project 0 c.children,
    (addResolvedSizes_fold project 0 c.children).symm, resolvedClassSize_visited_eq project,
    resolvedNodeSize_visited_eq project⟩

end Fields

end Nemclass.Codegen
