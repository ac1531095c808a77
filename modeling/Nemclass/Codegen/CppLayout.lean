import Nemclass.Codegen.ClassSize

/-! The packed layout of the generated C++ against the offsets and sizes printed
in it. A text of an odd number of bytes is declared one byte wider than it is,
and the printed sums clamp; nothing else differs. -/
namespace Nemclass.Codegen
open Usize Model Expand

def CppType.width (embedded : ℕ) : CppType → ℕ
  | prim p => p.size
  | uint8 | char => 1
  | pointer _ => 8
  | named _ => embedded
  | wchar => 2
  | float width => width.size

/-- The packed width of a field, given that of the class its type may name. -/
def CppField.width (f : CppField) (embedded : ℕ) : ℕ := f.type.width embedded * f.dims.prod

/-- The byte that rounding up adds to a text of 2-byte characters of odd length. -/
def oddByte : Node → ℕ
  | .utf16Text _ _ length => length.toNat % 2
  | _ => 0

section Layout
variable [UuidText] [UnicodeTables] (project : Project)

def packedWidths (c : ClassNode) (embedded : List ℕ) : List ℕ :=
  List.zipWith CppField.width (cppClass project c).fields embedded

/-- The packed width of a class: the sum over its declared fields. -/
def packedWidth (c : ClassNode) : ℕ :=
  (store project).eval 0 (fun c embedded => (packedWidths project c embedded).sum) c

/-- The packed width of the class that a node embeds. -/
def embeddedWidth (n : Node) : ℕ := ((embeds n).bind project.getClass).elim 0 (packedWidth project)

/-- The packed widths of the fields of a class. -/
def cppWidths (c : ClassNode) : List ℕ :=
  packedWidths project c (c.children.map (embeddedWidth project))

/-- The printed offsets are the sums of the widths declared before, the printed size that of all. -/
def PackedAsPrinted (c : ClassNode) : Prop :=
  (cppClass project c).fields.map CppField.offset = runningSums 0 (cppWidths project c) ∧
    (cppClass project c).totalSize = (cppWidths project c).sum

/-- The width declared for a field of a kind. -/
def kindWidth (kind : FieldKind) (embedded : ℕ) : ℕ :=
  (cppDeclarator kind).1.width embedded * (cppDeclarator kind).2.prod

theorem packedWidths_eq (c : ClassNode) (embedded : List ℕ) : packedWidths project c embedded =
    List.zipWith (fun n w => kindWidth (childKind project n) w) c.children embedded := by
  calc List.zipWith CppField.width ((resolveFields project c).map cppField) embedded
      = List.zipWith (fun f w => kindWidth f.kind w) (resolveFields project c) embedded :=
        List.zipWith_map_left
    _ = _ := zipWith_resolveFields project kindWidth c embedded

theorem kindWidth_leaf {n : Node} (h : (embeds n).bind project.getClass = none) :
    kindWidth (childKind project n) 0 = n.memorySize + oddByte n := by
  have hplain (hnone : embeds n = none) := contributedSize_plain project hnone
  cases n with
  | simple kind =>
    rw [childKind, hplain rfl]
    cases kind <;> simp [nodeFieldKind, simpleFieldKind, kindWidth, cppDeclarator, CppType.width,
      PrimKind.size, Node.memorySize, SimpleKind.size, oddByte]
  | classInstance name comment uuid =>
    rw [embeds, Option.bind_some] at h
    simp [childKind, nodeFieldKind, h, kindWidth, cppDeclarator, Node.memorySize, oddByte]
  | utf16Text name comment length =>
    simp only [childKind, nodeFieldKind, kindWidth, cppDeclarator, CppType.width,
      List.prod_singleton, Node.memorySize, oddByte]
    omega
  | vector _ _ size width =>
    simp [childKind, nodeFieldKind, kindWidth, cppDeclarator, CppType.width, Node.memorySize,
      oddByte, Nat.mul_comm]
  | matrix _ _ size width =>
    simp [childKind, nodeFieldKind, kindWidth, cppDeclarator, CppType.width, Node.memorySize,
      oddByte, Nat.mul_comm]
  | vTable | function | cls =>
    rw [childKind, hplain rfl]
    simp [nodeFieldKind, kindWidth, cppDeclarator, CppType.width, oddByte]
  | pointer | malformedInstance | array | utf8Text =>
    simp [childKind, nodeFieldKind, kindWidth, cppDeclarator, CppType.width, Node.memorySize,
      oddByte]

theorem kindWidth_embed {n : Node} {uuid : Uuid} {c : ClassNode} (href : embeds n = some uuid)
    (hget : project.getClass uuid = some c) (w : ℕ) : kindWidth (childKind project n) w = w := by
  cases n with
  | classInstance name comment classUuid =>
    rw [embeds, Option.some.injEq] at href
    subst href
    rw [childKind, nodeFieldKind, hget]
    simp [kindWidth, cppDeclarator, CppType.width]
  | _ => simp [embeds] at href

theorem kindWidth_cut {n : Node} {uuid : Uuid} (href : embeds n = some uuid) :
    kindWidth (childKind project n) 0 = 0 := by
  cases hget : project.getClass uuid with
  | none =>
    have hleaf := kindWidth_leaf project (embeds_bind_missing href hget)
    cases n with
    | classInstance => exact hleaf.trans (by simp [Node.memorySize, oddByte])
    | _ => simp [embeds] at href
  | some c => exact kindWidth_embed project href hget 0

/-- The widths of emitted fields are the exact sizes and the odd bytes. -/
theorem widths_weights (stack : Finset Uuid) (ns : List Node) :
    List.zipWith (fun n w => kindWidth (childKind project n) w) ns
      ((store project).evalParts 0 (fun c embedded => (packedWidths project c embedded).sum)
        stack ns) =
      ((store project).expand stack ns).weights fun n => n.memorySize + oddByte n := by
  unfold Store.evalParts Expansion.weights
  fun_induction (store project).expand stack ns with
  | case1 => rfl
  | case2 stack n ns href ih =>
    have hleaf := kindWidth_leaf project (embeds_bind_plain href)
    simp only [Expansion.fold, List.zipWith_cons_cons, hleaf, ih]
  | case3 stack n ns uuid href hseen ih =>
    have hcut := kindWidth_cut project href
    simp only [Expansion.fold, List.zipWith_cons_cons, hcut, ih]
  | case4 stack n ns uuid href hseen hget ih =>
    have hleaf := kindWidth_leaf project (embeds_bind_missing href hget)
    simp only [Expansion.fold, List.zipWith_cons_cons, hleaf, ih]
  | case5 stack n ns uuid href hseen target hget ihparts ih =>
    simp only [Expansion.fold, List.zipWith_cons_cons, kindWidth_embed project href hget, ih]
    rw [packedWidths_eq project target]
    exact congrArg₂ _ (congrArg List.sum ihparts) rfl

theorem cppWidths_eq (hacyclic : (store project).Acyclic) (c : ClassNode) : cppWidths project c =
    (expansion project c).weights fun n => n.memorySize + oddByte n := by
  have hembedded := hacyclic.evalParts_eq 0
    (fun c embedded => (packedWidths project c embedded).sum) c.children
  have hmap : c.children.map (embeddedWidth project) = _ := hembedded.symm
  rw [cppWidths, packedWidths_eq, hmap]
  exact widths_weights project ∅ c.children

/-- Without cycles the packed width of a class is that of its fields, each embedded class at its own
packed width. -/
theorem packedWidth_eq (hacyclic : (store project).Acyclic) (c : ClassNode) :
    packedWidth project c = (cppWidths project c).sum :=
  hacyclic.eval_eq 0 (fun c embedded => (packedWidths project c embedded).sum) c

theorem cppOffsets_eq (c : ClassNode) : (cppClass project c).fields.map CppField.offset =
    (runningSums 0 (exactSizes project c.children)).map (min · usizeMax) :=
  List.map_map.trans (resolveFields_offsets project c)

theorem packedAsPrinted_iff (hacyclic : (store project).Acyclic) (c : ClassNode) :
    PackedAsPrinted project c ↔ (∀ n ∈ (expansion project c).leaves, oddByte n = 0) ∧
      ((expansion project c).leaves.map Node.memorySize).sum ≤ usizeMax := by
  have hsize : (exactSizes project c.children).sum =
      ((expansion project c).leaves.map Node.memorySize).sum := exactSizes_sum project c.children
  have hwidth : (cppWidths project c).sum = ((expansion project c).leaves.map Node.memorySize).sum +
      ((expansion project c).leaves.map oddByte).sum := by
    rw [cppWidths_eq project hacyclic, Expansion.weights_sum, List.sum_map_add]
  have hodd : ((expansion project c).leaves.map oddByte).sum = 0 ↔
      ∀ n ∈ (expansion project c).leaves, oddByte n = 0 := by
    rw [List.sum_eq_zero_iff]
    simp
  have htotal : (cppClass project c).totalSize =
      min ((expansion project c).leaves.map Node.memorySize).sum usizeMax :=
    printedSize_eq project c
  rw [PackedAsPrinted, cppOffsets_eq, htotal, hwidth, ← hodd]
  constructor
  · intro h
    omega
  · intro h
    have hsame : cppWidths project c = exactSizes project c.children := by
      rw [cppWidths_eq project hacyclic]
      exact Expansion.weights_congr fun n hn => by rw [hodd.mp h.1 n hn, Nat.add_zero]
    refine ⟨?_, by omega⟩
    rw [hsame, runningSums_clamped (by omega)]

end Layout

section Players
attribute [local instance] hyphenatedText asciiTables

def vec3 : ClassNode :=
  ⟨⟨1⟩, "Vec3", "", "", [.simple .float "x" "", .simple .float "y" "", .simple .float "z" ""]⟩

/-- A class with an embed between a number and a text of the given length. -/
def player (length : UInt64) : ClassNode :=
  ⟨⟨2⟩, "Player", "", "",
    [.simple .int32 "health" "", .classInstance "pos" "" ⟨1⟩, .utf16Text "name" "" length]⟩

def playerProject (length : UInt64) : Project :=
  ((Project.new "p").addClass vec3).addClass (player length)

/-- The embed in the second class is the only reference. -/
theorem players_acyclic (length : UInt64) {p : Project} (h : ∀ uuid c, p.getClass uuid = some c →
    uuid = ⟨2⟩ ∧ c = player length ∨ uuid = ⟨1⟩ ∧ c = vec3) : (store p).Acyclic := by
  refine Store.acyclic_of_rank _ (fun uuid => if uuid = ⟨2⟩ then 1 else 0) fun a b hab => ?_
  obtain ⟨c, n, hget, hn, href⟩ := hab
  rcases h a c hget with ⟨rfl, rfl⟩ | ⟨rfl, rfl⟩
  · have hb : b = ⟨1⟩ := by
      simp only [store, player, List.mem_cons, List.not_mem_nil, or_false] at hn
      rcases hn with rfl | rfl | rfl <;> simp_all [store, embeds]
    rw [hb]
    decide
  · simp only [store, vec3, List.mem_cons, List.not_mem_nil, or_false] at hn
    rcases hn with rfl | rfl | rfl <;> simp [store, embeds] at href

theorem playerProject_acyclic (length : UInt64) : (store (playerProject length)).Acyclic := by
  refine players_acyclic length fun uuid c hget => ?_
  simp only [playerProject, Project.getClass_addClass, Project.getClass_new] at hget
  split at hget
  · exact .inl ⟨‹_›, (Option.some.inj hget).symm⟩
  · split at hget
    · exact .inr ⟨‹_›, (Option.some.inj hget).symm⟩
    · simp at hget

theorem playerProject_expansion (length : UInt64) :
    expansion (playerProject length) (player length) =
      .leaf (.simple .int32 "health" "") (.item (.classInstance "pos" "" ⟨1⟩) ⟨1⟩ vec3
        (.leaf (.simple .float "x" "") (.leaf (.simple .float "y" "")
          (.leaf (.simple .float "z" "") .nil)))
        (.leaf (.utf16Text "name" "" length) .nil)) := by
  have href : (store (playerProject length)).ref (.classInstance "pos" "" ⟨1⟩) = some ⟨1⟩ := rfl
  have hget : (store (playerProject length)).get ⟨1⟩ = some vec3 := rfl
  show Store.expand _ ∅ [_, _, _] = _
  rw [Store.expand_plain _ rfl, Store.expand_item _ href (by decide) hget, Store.expand_plain _ rfl,
    Store.expand_nil]
  show Expansion.leaf _ (.item _ _ _ (Store.expand _ _ [_, _, _]) _) = _
  rw [Store.expand_plain _ rfl, Store.expand_plain _ rfl, Store.expand_plain _ rfl,
    Store.expand_nil]

theorem packedAsPrinted_iff_evenPlayer : PackedAsPrinted (playerProject 8) (player 8) := by
  refine (packedAsPrinted_iff (playerProject 8) (playerProject_acyclic 8) (player 8)).mpr ?_
  rw [playerProject_expansion]
  decide

/-- Three bytes of text are declared as two characters: the class is one byte wider than printed. -/
theorem oddPlayer_not_packed : (store (playerProject 3)).Acyclic ∧
    (playerProject 3).getClass ⟨2⟩ = some (player 3) ∧
    (cppWidths (playerProject 3) (player 3)).sum = 20 ∧
    (cppClass (playerProject 3) (player 3)).totalSize = 19 ∧
    ¬ PackedAsPrinted (playerProject 3) (player 3) := by
  have hwidth : (cppWidths (playerProject 3) (player 3)).sum = 20 := by
    rw [cppWidths_eq _ (playerProject_acyclic 3), playerProject_expansion]
    decide
  have htotal : (cppClass (playerProject 3) (player 3)).totalSize = 19 := by
    refine (printedSize_eq (playerProject 3) (player 3)).trans ?_
    rw [playerProject_expansion]
    decide
  refine ⟨playerProject_acyclic 3, rfl, hwidth, htotal, fun h => ?_⟩
  have := h.2
  omega

end Players

end Nemclass.Codegen
