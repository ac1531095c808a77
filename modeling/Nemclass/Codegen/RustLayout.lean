import Nemclass.Codegen.CppLayout
import Nemclass.Lib.StructLayout

/-! The `repr(C)` layout of the generated Rust against the offsets and sizes
printed in it. The printed offsets leave no room for padding, so they are those
of the layout exactly when none is needed, in the class and in every class
embedded in it. -/
namespace Nemclass.Codegen
open Usize Model Expand StructLayout

theorem PrimKind.size_pos (p : PrimKind) : 0 < p.size := by cases p <;> decide

theorem floatWidth_size_pos (width : FloatWidth) : 0 < width.size := by cases width <;> decide

/-- No bytes, aligned anywhere. -/
def emptyLayout : Layout := ⟨0, 1, one_pos⟩

/-- The size and alignment of a type on x86-64, given those of the struct it may name. -/
def RustType.layout (embedded : Layout) : RustType → Layout
  | prim p => ⟨p.size, p.size, p.size_pos⟩
  | u8 => ⟨1, 1, one_pos⟩
  | u16 => ⟨2, 2, two_pos⟩
  | float width => ⟨width.size, width.size, floatWidth_size_pos width⟩
  | usize | mutPtr _ => ⟨8, 8, by decide⟩
  | named _ => embedded
  | array elem n => ⟨(elem.layout embedded).size * n, (elem.layout embedded).align,
      (elem.layout embedded).align_pos⟩

section Layout
variable [UuidText] [UnicodeTables] (project : Project)

def fieldLayouts (c : ClassNode) (embedded : List Layout) : List Layout :=
  List.zipWith (fun f e => f.type.layout e) (rustStruct project c).fields embedded

/-- The layout of the struct generated for a class. -/
def structLayout (c : ClassNode) : Layout :=
  (store project).eval emptyLayout (fun c embedded => struct (fieldLayouts project c embedded)) c

/-- The layout of the struct that a node embeds. -/
def embeddedLayout (n : Node) : Layout :=
  ((embeds n).bind project.getClass).elim emptyLayout (structLayout project)

/-- The layouts of the fields of a class. -/
def rustLayouts (c : ClassNode) : List Layout :=
  fieldLayouts project c (c.children.map (embeddedLayout project))

/-- Every field lies at its printed offset, and the struct has the printed size. -/
def LaidOutAsPrinted (c : ClassNode) : Prop :=
  (rustStruct project c).fields.map RustField.offset = offsets 0 (rustLayouts project c) ∧
    (rustStruct project c).totalSize = (struct (rustLayouts project c)).size

end Layout

/-- The alignment of the type a node is declared with, when it embeds no class. -/
def simpleAlign : SimpleKind → ℕ
  | .int8 | .uint8 | .bool | .hex8 | .hex16 | .hex32 | .hex64 | .vMethod | .functionPtr => 1
  | .int16 | .uint16 => 2
  | .int32 | .uint32 | .float => 4
  | .int64 | .uint64 | .double | .strPtr => 8

def nodeAlign : Node → ℕ
  | .simple kind _ _ => simpleAlign kind
  | .pointer .. => 8
  | .utf16Text .. => 2
  | .vector _ _ _ width | .matrix _ _ _ width => width.size
  | .classInstance .. | .malformedInstance .. | .array .. | .utf8Text .. | .vTable .. | .function ..
  | .cls .. => 1

theorem nodeAlign_pos (n : Node) : 0 < nodeAlign n := by
  cases n with
  | simple kind => cases kind <;> exact Nat.succ_pos _
  | vector _ _ _ width => exact floatWidth_size_pos width
  | matrix _ _ _ width => exact floatWidth_size_pos width
  | _ => exact Nat.succ_pos _

/-- The exact size of each field with the alignment it needs. -/
def exactLayouts : Expansion Uuid ClassNode Node → List Layout :=
  Expansion.fold (fun n => ⟨n.memorySize, nodeAlign n, nodeAlign_pos n⟩)
    (fun _ _ ls => ⟨total ls, maxAlign ls, maxAlign_pos ls⟩) fun _ => emptyLayout

/-- Nothing in an expansion makes a field larger than its exact size: no text is rounded up, and no
embedded class is padded. -/
def Unpadded : Expansion Uuid ClassNode Node → Prop
  | .nil => True
  | .leaf n rest => oddByte n = 0 ∧ Unpadded rest
  | .item _ _ _ parts rest => (Unpadded parts ∧ Tight (exactLayouts parts)) ∧ Unpadded rest
  | .cut _ rest => Unpadded rest

instance decidableUnpadded : (e : Expansion Uuid ClassNode Node) → Decidable (Unpadded e)
  | .nil => .isTrue trivial
  | .leaf _ rest => @instDecidableAnd _ _ inferInstance (decidableUnpadded rest)
  | .item _ _ _ parts rest =>
    @instDecidableAnd _ _ (@instDecidableAnd _ _ (decidableUnpadded parts) inferInstance)
      (decidableUnpadded rest)
  | .cut _ rest => decidableUnpadded rest

theorem exactLayouts_sizes (e : Expansion Uuid ClassNode Node) :
    (exactLayouts e).map Layout.size = e.weights Node.memorySize := by
  unfold exactLayouts Expansion.weights
  induction e with
  | nil => rfl
  | leaf n rest ih => rw [Expansion.fold, Expansion.fold, List.map_cons, ih]
  | item n k c parts rest ihparts ih =>
    rw [Expansion.fold, Expansion.fold, List.map_cons, ih, ← ihparts]
    rfl
  | cut n rest ih =>
    rw [Expansion.fold, Expansion.fold, List.map_cons, ih]
    rfl

section Layout
variable [UuidText] [UnicodeTables] (project : Project)

/-- The layout declared for a field of a kind. -/
def kindLayout (kind : FieldKind) (embedded : Layout) : Layout :=
  (rustFieldType kind).layout embedded

theorem fieldLayouts_eq (c : ClassNode) (embedded : List Layout) : fieldLayouts project c embedded =
    List.zipWith (fun n e => kindLayout (childKind project n) e) c.children embedded := by
  calc List.zipWith (fun f e => f.type.layout e) ((resolveFields project c).map rustField) embedded
      = List.zipWith (fun f e => kindLayout f.kind e) (resolveFields project c) embedded :=
        List.zipWith_map_left
    _ = _ := zipWith_resolveFields project kindLayout c embedded

theorem kindLayout_leaf {n : Node} (h : (embeds n).bind project.getClass = none) :
    kindLayout (childKind project n) emptyLayout =
      ⟨n.memorySize + oddByte n, nodeAlign n, nodeAlign_pos n⟩ := by
  have hplain (hnone : embeds n = none) := contributedSize_plain project hnone
  cases n with
  | simple kind =>
    rw [childKind, hplain rfl]
    cases kind <;> simp [nodeFieldKind, simpleFieldKind, kindLayout, rustFieldType, RustType.layout,
      PrimKind.size, Node.memorySize, SimpleKind.size, oddByte, nodeAlign, simpleAlign]
  | pointer name comment target =>
    cases htarget : target.bind project.getClass <;>
      simp [childKind, nodeFieldKind, htarget, kindLayout, rustFieldType, RustType.layout,
        Node.memorySize, oddByte, nodeAlign]
  | classInstance name comment uuid =>
    rw [embeds, Option.bind_some] at h
    simp [childKind, nodeFieldKind, h, kindLayout, rustFieldType, RustType.layout, Node.memorySize,
      oddByte, nodeAlign]
  | utf16Text name comment length =>
    simp only [childKind, nodeFieldKind, kindLayout, rustFieldType, RustType.layout,
      Node.memorySize, oddByte, nodeAlign, Layout.mk.injEq, and_true]
    omega
  | vector _ _ size width =>
    simp [childKind, nodeFieldKind, kindLayout, rustFieldType, RustType.layout, Node.memorySize,
      oddByte, nodeAlign, Nat.mul_comm]
  | matrix _ _ size width =>
    simp only [childKind, nodeFieldKind, kindLayout, rustFieldType, RustType.layout,
      Node.memorySize, oddByte, nodeAlign, Layout.mk.injEq, and_true]
    cases size <;> cases width <;> rfl
  | vTable | function | cls =>
    rw [childKind, hplain rfl]
    simp [nodeFieldKind, kindLayout, rustFieldType, RustType.layout, oddByte, nodeAlign]
  | malformedInstance | array | utf8Text =>
    simp [childKind, nodeFieldKind, kindLayout, rustFieldType, RustType.layout, Node.memorySize,
      oddByte, nodeAlign]

theorem kindLayout_embed {n : Node} {uuid : Uuid} {c : ClassNode} (href : embeds n = some uuid)
    (hget : project.getClass uuid = some c) (l : Layout) :
    kindLayout (childKind project n) l = l := by
  cases n with
  | classInstance name comment classUuid =>
    rw [embeds, Option.some.injEq] at href
    subst href
    rw [childKind, nodeFieldKind, hget]
    rfl
  | _ => simp [embeds] at href

theorem kindLayout_cut {n : Node} {uuid : Uuid} (href : embeds n = some uuid) :
    kindLayout (childKind project n) emptyLayout = emptyLayout := by
  cases hget : project.getClass uuid with
  | none =>
    have hleaf := kindLayout_leaf project (embeds_bind_missing href hget)
    cases n with
    | classInstance => exact hleaf.trans (by simp [Node.memorySize]; rfl)
    | _ => simp [embeds] at href
  | some c => exact kindLayout_embed project href hget emptyLayout

/-- The layouts of the structs embedded in fields. -/
def embeddedLayouts (stack : Finset Uuid) (ns : List Node) : List Layout :=
  (store project).evalParts emptyLayout (fun c embedded => struct (fieldLayouts project c embedded))
    stack ns

/-- The generated fields cover the exact ones, and are the same when nothing is padded. -/
theorem layouts_fit (stack : Finset Uuid) (ns : List Node) :
    let e := (store project).expand stack ns
    let ls := List.zipWith (fun n l => kindLayout (childKind project n) l) ns
      (embeddedLayouts project stack ns)
    List.Forall₂ Layout.Fits (exactLayouts e) ls ∧ (ls = exactLayouts e ↔ Unpadded e) := by
  unfold embeddedLayouts Store.evalParts exactLayouts
  fun_induction (store project).expand stack ns with
  | case1 => exact ⟨.nil, fun _ => trivial, fun _ => rfl⟩
  | case2 stack n ns href ih =>
    have hleaf := kindLayout_leaf project (embeds_bind_plain href)
    simp only [Expansion.fold, List.zipWith_cons_cons, hleaf]
    refine fits_cons ⟨rfl, Nat.le_add_right _ _⟩ ?_ ih.1 ih.2
    exact Nat.add_eq_left
  | case3 stack n ns uuid href hseen ih =>
    have hcut := kindLayout_cut project (show embeds n = some uuid from href)
    simp only [Expansion.fold, List.zipWith_cons_cons, hcut]
    have hempty : emptyLayout.Fits emptyLayout := ⟨rfl, Nat.le_refl _⟩
    have hcons := fits_cons hempty (iff_of_true rfl trivial) ih.1 ih.2
    exact ⟨hcons.1, hcons.2.trans (iff_of_eq (true_and _))⟩
  | case4 stack n ns uuid href hseen hget ih =>
    have hleaf := kindLayout_leaf project (embeds_bind_missing href hget)
    simp only [Expansion.fold, List.zipWith_cons_cons, hleaf]
    refine fits_cons ⟨rfl, Nat.le_add_right _ _⟩ ?_ ih.1 ih.2
    exact Nat.add_eq_left
  | case5 stack n ns uuid href hseen target hget ihparts ih =>
    simp only [Expansion.fold, List.zipWith_cons_cons, kindLayout_embed project href hget]
    rw [fieldLayouts_eq project target]
    refine fits_cons (struct_fits ihparts.1 rfl rfl) ?_ ih.1 ih.2
    exact (struct_size_eq_iff_of_fits ihparts.1).trans (and_congr ihparts.2 Iff.rfl)

theorem rustLayouts_eq (hacyclic : (store project).Acyclic) (c : ClassNode) :
    rustLayouts project c =
      List.zipWith (fun n l => kindLayout (childKind project n) l) c.children
        (embeddedLayouts project ∅ c.children) := by
  have hembedded := hacyclic.evalParts_eq emptyLayout
    (fun c embedded => struct (fieldLayouts project c embedded)) c.children
  have hmap : c.children.map (embeddedLayout project) = _ := hembedded.symm
  rw [rustLayouts, fieldLayouts_eq, hmap]
  rfl

/-- Without cycles the layout of a struct is that of its fields, each embedded struct at its own
layout. -/
theorem structLayout_eq (hacyclic : (store project).Acyclic) (c : ClassNode) :
    structLayout project c = struct (rustLayouts project c) :=
  hacyclic.eval_eq emptyLayout (fun c embedded => struct (fieldLayouts project c embedded)) c

theorem rustOffsets_eq (c : ClassNode) : (rustStruct project c).fields.map RustField.offset =
    (runningSums 0 (exactSizes project c.children)).map (min · usizeMax) :=
  List.map_map.trans (resolveFields_offsets project c)

/-- The generated fields are the exact ones when nothing is padded. -/
theorem rustLayouts_exact_iff (hacyclic : (store project).Acyclic) (c : ClassNode) :
    rustLayouts project c = exactLayouts (expansion project c) ↔
      Unpadded (expansion project c) := by
  rw [rustLayouts_eq project hacyclic]
  exact (layouts_fit project ∅ c.children).2

theorem laidOutAsPrinted_iff (hacyclic : (store project).Acyclic) (c : ClassNode) :
    LaidOutAsPrinted project c ↔ Unpadded (expansion project c) ∧
      Tight (exactLayouts (expansion project c)) ∧
      ((expansion project c).leaves.map Node.memorySize).sum ≤ usizeMax := by
  have hfits : List.Forall₂ Layout.Fits (exactLayouts (expansion project c))
      (rustLayouts project c) := by
    rw [rustLayouts_eq project hacyclic]
    exact (layouts_fit project ∅ c.children).1
  have hsame := rustLayouts_exact_iff project hacyclic c
  have hsizes : (exactLayouts (expansion project c)).map Layout.size =
      exactSizes project c.children := exactLayouts_sizes (expansion project c)
  have htotal : total (exactLayouts (expansion project c)) =
      ((expansion project c).leaves.map Node.memorySize).sum := by
    rw [total, hsizes]
    exact exactSizes_sum project c.children
  have hprinted : (rustStruct project c).totalSize =
      min (total (exactLayouts (expansion project c))) usizeMax := htotal ▸ printedSize_eq project c
  have hle : total (exactLayouts (expansion project c)) ≤ (struct (rustLayouts project c)).size :=
    (total_le_of_fits hfits).trans (total_le_struct _)
  rw [LaidOutAsPrinted, rustOffsets_eq, hprinted, ← htotal, ← hsizes]
  constructor
  · intro h
    have hsize : (struct (rustLayouts project c)).size =
        total (exactLayouts (expansion project c)) := by omega
    have htight := (struct_size_eq_iff_of_fits hfits).mp hsize
    exact ⟨hsame.mp htight.1, htight.2, by omega⟩
  · intro h
    have heq : rustLayouts project c = exactLayouts (expansion project c) := hsame.mpr h.1
    rw [heq, offsets_of_aligned h.2.1.1, (struct_size_eq_iff _).mpr h.2.1]
    exact ⟨runningSums_clamped h.2.2, Nat.min_eq_left h.2.2⟩

end Layout

section Players
attribute [local instance] hyphenatedText asciiTables

theorem laidOutAsPrinted_iff_evenPlayer : LaidOutAsPrinted (playerProject 8) (player 8) := by
  refine (laidOutAsPrinted_iff (playerProject 8) (playerProject_acyclic 8) (player 8)).mpr ?_
  rw [playerProject_expansion]
  decide

/-- Six bytes of text end the struct off its alignment: it is two bytes larger than asserted. -/
theorem paddedPlayer_not_laidOut : (store (playerProject 6)).Acyclic ∧
    (playerProject 6).getClass ⟨2⟩ = some (player 6) ∧
    (struct (rustLayouts (playerProject 6) (player 6))).size = 24 ∧
    (rustStruct (playerProject 6) (player 6)).totalSize = 22 ∧
    ¬ LaidOutAsPrinted (playerProject 6) (player 6) := by
  have hacyclic := playerProject_acyclic 6
  have hexpansion := playerProject_expansion 6
  have hexact : rustLayouts (playerProject 6) (player 6) =
      exactLayouts (expansion (playerProject 6) (player 6)) := by
    rw [rustLayouts_exact_iff _ hacyclic, hexpansion]
    decide
  have hsize : (struct (rustLayouts (playerProject 6) (player 6))).size = 24 := by
    rw [hexact, hexpansion]
    decide
  have hprinted : (rustStruct (playerProject 6) (player 6)).totalSize = 22 := by
    refine (printedSize_eq (playerProject 6) (player 6)).trans ?_
    rw [hexpansion]
    decide
  refine ⟨hacyclic, rfl, hsize, hprinted, fun h => ?_⟩
  have := h.2
  omega

end Players

end Nemclass.Codegen
