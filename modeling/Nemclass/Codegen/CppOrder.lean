import Nemclass.Codegen.CppLayout

/-! The order of the generated C++. Classes are emitted in the order in which they
were added and nothing is declared ahead, so a type is known where it is used
exactly when its class was added early enough. -/
namespace Nemclass.Codegen
open Usize Model

/-- A class name used by value needs a definition before it, one pointed at a declaration. -/
def CppType.Known (declared defined : List String) : CppType → Prop
  | named name => name ∈ defined
  | pointer (some target) => target ∈ declared
  | _ => True

/-- Reads the output from the top with the class names declared and defined so far: a head declares
its class, an end defines it. -/
def WellDeclared (declared defined : List String) : List CppItem → Prop
  | [] => True
  | .classHead name _ :: rest => WellDeclared (declared ++ [name]) defined rest
  | .field f :: rest => f.type.Known declared defined ∧ WellDeclared declared defined rest
  | .classEnd name _ :: rest => WellDeclared declared (defined ++ [name]) rest

theorem wellDeclared_fields (declared defined : List String) (fs : List CppField)
    (rest : List CppItem) :
    WellDeclared declared defined (fs.map .field ++ rest) ↔
      (∀ f ∈ fs, f.type.Known declared defined) ∧ WellDeclared declared defined rest := by
  induction fs with
  | nil => simp
  | cons f fs ih =>
    rw [List.map_cons, List.cons_append, WellDeclared, ih, List.forall_mem_cons, and_assoc]

theorem wellDeclared_class (declared defined : List String) (c : CppClass) (rest : List CppItem) :
    WellDeclared declared defined (c.items ++ rest) ↔
      (∀ f ∈ c.fields, f.type.Known (declared ++ [c.name]) defined) ∧
        WellDeclared (declared ++ [c.name]) (defined ++ [c.name]) rest := by
  rw [CppClass.items, List.cons_append, WellDeclared, List.append_assoc, wellDeclared_fields]
  rfl

/-- The class that a node points at. -/
def pointsTo : Node → Option Uuid
  | .pointer _ _ target => target
  | _ => none

section Order
variable [UuidText] [UnicodeTables] (project : Project)

def className (c : ClassNode) : String := sanitizeIdent c.name

/-- The classes a node refers to are among the classes before: an embedded one strictly before, one
that is pointed at also the class itself. -/
def RefersBack (before : List ClassNode) (c : ClassNode) (n : Node) : Prop :=
  (∀ d, (embeds n).bind project.getClass = some d → className d ∈ before.map className) ∧
    ∀ d, (pointsTo n).bind project.getClass = some d → className d ∈ (before ++ [c]).map className

/-- Every class was added after the classes it refers to. -/
def AddedInOrder : Prop :=
  ∀ before c after, project.classesInOrder = before ++ c :: after →
    ∀ n ∈ c.children, RefersBack project before c n

omit [UuidText] in
theorem refersBack_plain {n : Node} (hembeds : embeds n = none) (hpoints : pointsTo n = none)
    (before : List ClassNode) (c : ClassNode) : RefersBack project before c n := by
  rw [RefersBack, hembeds, hpoints]
  exact ⟨fun d h => by simp at h, fun d h => by simp at h⟩

theorem known_iff (before : List ClassNode) (c : ClassNode) (n : Node) :
    (cppDeclarator (childKind project n)).1.Known ((before ++ [c]).map className)
        (before.map className) ↔
      RefersBack project before c n := by
  cases n with
  | pointer name comment target =>
    cases htarget : target.bind project.getClass <;>
      simp [childKind, nodeFieldKind, htarget, cppDeclarator, CppType.Known, RefersBack, embeds,
        pointsTo, className]
  | classInstance name comment uuid =>
    cases hget : project.getClass uuid <;>
      simp [childKind, nodeFieldKind, hget, cppDeclarator, CppType.Known, RefersBack, embeds,
        pointsTo, className]
  | simple kind =>
    refine iff_of_true ?_ (refersBack_plain project rfl rfl before c)
    cases kind <;> trivial
  | _ => exact iff_of_true trivial (refersBack_plain project rfl rfl before c)

theorem fields_known_iff (before : List ClassNode) (c : ClassNode) :
    (∀ f ∈ (cppClass project c).fields,
        f.type.Known ((before ++ [c]).map className) (before.map className)) ↔
      ∀ n ∈ c.children, RefersBack project before c n := by
  have hkinds := resolveFieldsFrom_kinds project 0 c.children
  have htypes : (cppClass project c).fields.map CppField.type =
      c.children.map fun n => (cppDeclarator (childKind project n)).1 := by
    calc ((resolveFields project c).map cppField).map CppField.type
        = ((resolveFields project c).map FieldInfo.kind).map
            fun kind => (cppDeclarator kind).1 := by
          rw [List.map_map, List.map_map]
          rfl
      _ = _ := by
          rw [resolveFields, hkinds, List.map_map]
          rfl
  rw [← List.forall_mem_map (f := CppField.type), htypes, List.forall_mem_map]
  simp only [known_iff]

theorem wellDeclared_classes (before cs : List ClassNode) :
    WellDeclared (before.map className) (before.map className)
        (cs.flatMap fun c => (cppClass project c).items) ↔
      ∀ pre c post, cs = pre ++ c :: post →
        ∀ n ∈ c.children, RefersBack project (before ++ pre) c n := by
  induction cs generalizing before with
  | nil => simp [WellDeclared]
  | cons c cs ih =>
    have hnames :
        before.map className ++ [(cppClass project c).name] = (before ++ [c]).map className := by
      rw [List.map_append]
      rfl
    rw [List.flatMap_cons, wellDeclared_class, hnames, ih, fields_known_iff]
    constructor
    · intro h pre d post heq
      cases pre with
      | nil =>
        rw [List.nil_append, List.cons.injEq] at heq
        rw [List.append_nil, ← heq.1]
        exact h.1
      | cons e pre =>
        rw [List.cons_append, List.cons.injEq] at heq
        rw [← heq.1, List.append_cons]
        exact h.2 pre d post heq.2
    · intro h
      refine ⟨?_, fun pre d post heq => ?_⟩
      · have hhere := h [] c cs rfl
        rwa [List.append_nil] at hhere
      · have hlater := h (c :: pre) d post (by rw [heq, List.cons_append])
        rwa [List.append_cons] at hlater

/-- The output can be read from the top exactly when the classes were added in order. -/
theorem wellDeclared_iff : WellDeclared [] [] (cppItems project) ↔ AddedInOrder project :=
  wellDeclared_classes project [] project.classesInOrder

end Order

section Players
attribute [local instance] hyphenatedText asciiTables

/-- The class with the embed, added before the class that it embeds. -/
def reversedPlayers : Project := ((Project.new "p").addClass (player 8)).addClass vec3

/-- The output starts with a class that has a field of a type defined only after it. -/
theorem reversedPlayers_not_wellDeclared : (store reversedPlayers).Acyclic ∧
    ¬ WellDeclared [] [] (cppItems reversedPlayers) := by
  have hacyclic : (store reversedPlayers).Acyclic := by
    refine players_acyclic 8 fun uuid c hget => ?_
    simp only [reversedPlayers, Project.getClass_addClass, Project.getClass_new] at hget
    split at hget
    · exact .inr ⟨‹_›, (Option.some.inj hget).symm⟩
    · split at hget
      · exact .inl ⟨‹_›, (Option.some.inj hget).symm⟩
      · simp at hget
  refine ⟨hacyclic, fun h => ?_⟩
  have hbefore := (wellDeclared_classes reversedPlayers [] reversedPlayers.classesInOrder).mp h []
    (player 8) [vec3] rfl (.classInstance "pos" "" ⟨1⟩) (by simp [player])
  have hnone := hbefore.1 vec3 rfl
  simp at hnone

end Players

end Nemclass.Codegen
