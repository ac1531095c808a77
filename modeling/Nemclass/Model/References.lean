import Nemclass.Model.Node

/-! References between classes. The code looks for them by comparing the texts
of the attributes that a node is written with; a node refers to a class when it
embeds it or points at it, at any depth. -/
namespace Nemclass.Model

/-- The identifier that a node refers to through itself, its children left aside. -/
def Node.target : Node → Option Uuid
  | .pointer _ _ target => target
  | .classInstance _ _ classUuid => some classUuid
  | _ => none

/-- A node embeds the class or points at it, itself or below. -/
inductive Node.References (u : Uuid) : Node → Prop
  | here {n : Node} : n.target = some u → References u n
  | inVTable {name comment : String} {children : List Node} {n : Node} :
      n ∈ children → References u n → References u (.vTable name comment children)
  | inClass {uuid : Uuid} {name comment addressFormula : String} {children : List Node}
      {n : Node} : n ∈ children → References u n →
      References u (.cls uuid name comment addressFormula children)

section References
variable [UuidText]

/-- The test on one child's own definition. -/
def refersTo (d : NodeDef) (target : Uuid) : Bool :=
  match d.typeTag with
  | "ClassInstance" =>
    (((d.attr "class_uuid").bind TomlValue.asStr).map (· == target.toString)).getD false
  | "Pointer" =>
    (((d.attr "target_class_uuid").bind TomlValue.asStr).map (· == target.toString)).getD false
  | _ => false

mutual

/-- One round of the loop: a child's own definition, then its children. -/
def childReferencesClass (target : Uuid) : Node → Bool
  | .vTable name comment children =>
    refersTo (Node.vTable name comment children).toNodeDef target ||
      childrenReferenceClass target children
  | .cls uuid name comment addressFormula children =>
    refersTo (Node.cls uuid name comment addressFormula children).toNodeDef target ||
      childrenReferenceClass target children
  | n => refersTo n.toNodeDef target

def childrenReferenceClass (target : Uuid) : List Node → Bool
  | [] => false
  | n :: ns => childReferencesClass target n || childrenReferenceClass target ns

end

/-- The texts agree exactly where the identifiers do. -/
theorem refersTo_toNodeDef (n : Node) (u : Uuid) :
    refersTo n.toNodeDef u = true ↔ n.target = some u := by
  cases n with
  | pointer name comment target =>
    cases target with
    | none => simp [refersTo, Node.toNodeDef, Node.typeTag, Node.attrs, NodeDef.attr, Node.target]
    | some v =>
      change (v.toString == u.toString) = true ↔ some v = some u
      rw [beq_iff_eq, Uuid.toString_inj, Option.some_inj]
  | classInstance name comment v =>
    change (v.toString == u.toString) = true ↔ some v = some u
    rw [beq_iff_eq, Uuid.toString_inj, Option.some_inj]
  | simple kind => cases kind <;> exact iff_of_false Bool.false_ne_true (Option.some_ne_none u).symm
  | vector _ _ size width =>
    cases size <;> cases width <;> exact iff_of_false Bool.false_ne_true (Option.some_ne_none u).symm
  | matrix _ _ size width =>
    cases size <;> cases width <;> exact iff_of_false Bool.false_ne_true (Option.some_ne_none u).symm
  | _ => exact iff_of_false Bool.false_ne_true (Option.some_ne_none u).symm

theorem childReferencesClass_leaf {n : Node} (u : Uuid) (hn : ¬ n.IsContainer) :
    childReferencesClass u n = true ↔ n.References u := by
  have hown : childReferencesClass u n = refersTo n.toNodeDef u := by
    cases n with
    | vTable | cls => exact absurd trivial hn
    | _ => rw [childReferencesClass] <;> exact fun _ _ _ => by simp
  rw [hown, refersTo_toNodeDef]
  refine ⟨.here, fun h => ?_⟩
  cases h with
  | here h => exact h
  | inVTable | inClass => exact absurd trivial hn

mutual

theorem childReferencesClass_iff (u : Uuid) : (n : Node) →
    (childReferencesClass u n = true ↔ n.References u)
  | .vTable name comment children => by
    rw [childReferencesClass, Bool.or_eq_true, refersTo_toNodeDef,
      childrenReferenceClass_iff u children]
    constructor
    · rintro (h | ⟨n, hn, hu⟩)
      · exact .here h
      · exact .inVTable hn hu
    · rintro (h | ⟨hn, hu⟩)
      · exact .inl h
      · exact .inr ⟨_, hn, hu⟩
  | .cls uuid name comment addressFormula children => by
    rw [childReferencesClass, Bool.or_eq_true, refersTo_toNodeDef,
      childrenReferenceClass_iff u children]
    constructor
    · rintro (h | ⟨n, hn, hu⟩)
      · exact .here h
      · exact .inClass hn hu
    · rintro (h | _ | ⟨hn, hu⟩)
      · exact .inl h
      · exact .inr ⟨_, hn, hu⟩
  | .simple .. | .pointer .. | .classInstance .. | .malformedInstance .. | .array ..
  | .utf8Text .. | .utf16Text .. | .vector .. | .matrix .. | .function .. =>
    childReferencesClass_leaf u id

theorem childrenReferenceClass_iff (u : Uuid) : (ns : List Node) →
    (childrenReferenceClass u ns = true ↔ ∃ n ∈ ns, n.References u)
  | [] => by simp [childrenReferenceClass]
  | n :: ns => by
    rw [childrenReferenceClass, Bool.or_eq_true, childReferencesClass_iff u n,
      childrenReferenceClass_iff u ns, List.exists_mem_cons_iff]

end

end References

end Nemclass.Model
