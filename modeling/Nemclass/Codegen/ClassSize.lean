import Mathlib.Algebra.Order.BigOperators.Group.List
import Nemclass.Codegen.Cpp
import Nemclass.Codegen.Rust

/-! The size that the project reports for a class against the one the generators
print. The project starts with the class on the stack, the generators with an
empty stack, so an embed of the class in itself counts once more in their sum. -/
namespace Nemclass.Codegen
open Usize Model Expand

section Sizes
variable (project : Project)

/-- The fields of a class with all its embeds expanded. -/
def expansion (c : ClassNode) : Expansion Uuid ClassNode Node := (store project).expand ∅ c.children

/-- The fields reached below an embed of the class in itself. -/
def reenteredFields (uuid : Uuid) (c : ClassNode) : List Node :=
  (expansion project c).reentered uuid

/-- The fields reached otherwise. -/
def firstFields (uuid : Uuid) (c : ClassNode) : List Node :=
  ((expansion project c).prune uuid).leaves

theorem expansion_sum (uuid : Uuid) (c : ClassNode) :
    ((expansion project c).leaves.map Node.memorySize).sum =
      ((firstFields project uuid c).map Node.memorySize).sum +
      ((reenteredFields project uuid c).map Node.memorySize).sum :=
  Expansion.sum_leaves uuid Node.memorySize (expansion project c)

variable [UuidText]

theorem reported_eq {uuid : Uuid} {c : ClassNode} (hget : project.getClass uuid = some c) :
    project.resolvedClassSize uuid =
      min ((firstFields project uuid c).map Node.memorySize).sum usizeMax := by
  have hprune : (store project).expand {uuid} c.children = (expansion project c).prune uuid :=
    (store project).expand_insert hget ∅ c.children
  rw [Project.resolvedClassSize, hget]
  simp only [resolvedClassSize_eq, exactSize, hprune]
  rfl

/-- The printed size is the clamped sum of the expanded fields. -/
theorem printedSize_eq (c : ClassNode) : (resolvedClassSize project ∅ c).size =
    min ((expansion project c).leaves.map Node.memorySize).sum usizeMax :=
  congrArg Sized.size (resolvedClassSize_eq project ∅ c)

theorem printed_eq (uuid : Uuid) (c : ClassNode) : (resolvedClassSize project ∅ c).size =
    min (((firstFields project uuid c).map Node.memorySize).sum +
      ((reenteredFields project uuid c).map Node.memorySize).sum) usizeMax := by
  rw [printedSize_eq, expansion_sum project uuid]

theorem reported_matches_iff [UnicodeTables] {uuid : Uuid} {c : ClassNode}
    (hget : project.getClass uuid = some c) :
    project.resolvedClassSize uuid = (cppClass project c).totalSize ∧
        project.resolvedClassSize uuid = (rustStruct project c).totalSize ↔
      (∀ n ∈ reenteredFields project uuid c, n.memorySize = 0) ∨
        usizeMax ≤ ((firstFields project uuid c).map Node.memorySize).sum := by
  have hzero : ((reenteredFields project uuid c).map Node.memorySize).sum = 0 ↔
      ∀ n ∈ reenteredFields project uuid c, n.memorySize = 0 := by
    rw [List.sum_eq_zero_iff]
    simp
  have hprinted := printed_eq project uuid c
  have hreported := reported_eq project hget
  show _ = (resolvedClassSize project ∅ c).size ∧ _ = (resolvedClassSize project ∅ c).size ↔ _
  rw [← hzero, hprinted, hreported]
  omega

end Sizes

section SelfEmbedding

/-- Letters and digits as on ASCII. -/
@[reducible] def asciiTables : UnicodeTables where
  isAlphanumeric := Char.isAlphanum
  isAlphanumeric_ascii _ _ := rfl

attribute [local instance] hyphenatedText asciiTables

def nodeUuid : Uuid := ⟨1⟩

def valueField : Node := .simple .int32 "value" ""

def innerField : Node := .classInstance "inner" "" nodeUuid

/-- A class of one integer and an embed of itself. -/
def selfEmbedding : ClassNode := ⟨nodeUuid, "Node", "", "", [valueField, innerField]⟩

def selfEmbeddingProject : Project := (Project.new "p").addClass selfEmbedding

theorem selfEmbedding_expansion : expansion selfEmbeddingProject selfEmbedding =
    .leaf valueField (.item innerField nodeUuid selfEmbedding
      (.leaf valueField (.cut innerField .nil)) .nil) := by
  have hget : (store selfEmbeddingProject).get nodeUuid = some selfEmbedding := rfl
  have href : (store selfEmbeddingProject).ref innerField = some nodeUuid := rfl
  show Store.expand _ ∅ [valueField, innerField] = _
  rw [Store.expand_plain _ rfl, Store.expand_item _ href (by decide) hget, Store.expand_nil]
  show Expansion.leaf _ (.item _ _ _ (Store.expand _ _ [valueField, innerField]) _) = _
  rw [Store.expand_plain _ rfl, Store.expand_cut _ href (by decide), Store.expand_nil]

/-- The project says 4 bytes, both generators print 8. -/
theorem selfEmbedding_sizes_differ :
    selfEmbeddingProject.getClass nodeUuid = some selfEmbedding ∧
    selfEmbeddingProject.resolvedClassSize nodeUuid = 4 ∧
    (cppClass selfEmbeddingProject selfEmbedding).totalSize = 8 ∧
    (rustStruct selfEmbeddingProject selfEmbedding).totalSize = 8 := by
  have hfirst : firstFields selfEmbeddingProject nodeUuid selfEmbedding = [valueField] := by
    rw [firstFields, selfEmbedding_expansion]
    rfl
  have hreentered : reenteredFields selfEmbeddingProject nodeUuid selfEmbedding = [valueField] := by
    rw [reenteredFields, selfEmbedding_expansion]
    rfl
  have hreported := reported_eq selfEmbeddingProject
    (show selfEmbeddingProject.getClass nodeUuid = some selfEmbedding from rfl)
  have hprinted := printed_eq selfEmbeddingProject nodeUuid selfEmbedding
  rw [hfirst] at hreported hprinted
  rw [hreentered] at hprinted
  exact ⟨rfl, hreported, hprinted, hprinted⟩

theorem reported_matches_iff_selfEmbedding :
    selfEmbeddingProject.resolvedClassSize nodeUuid =
          (cppClass selfEmbeddingProject selfEmbedding).totalSize ∧
        selfEmbeddingProject.resolvedClassSize nodeUuid =
          (rustStruct selfEmbeddingProject selfEmbedding).totalSize ↔
      (∀ n ∈ reenteredFields selfEmbeddingProject nodeUuid selfEmbedding, n.memorySize = 0) ∨
        usizeMax ≤
          ((firstFields selfEmbeddingProject nodeUuid selfEmbedding).map Node.memorySize).sum :=
  reported_matches_iff selfEmbeddingProject rfl

end SelfEmbedding

end Nemclass.Codegen
