import Nemclass.Lib.Rewire
import Nemclass.Lib.Trace
import Nemclass.Model.NodeEdit
import Nemclass.Model.References

/-! The class picker. A selection is refused when the selected class refers to the owner of the
edited node itself, as an embed or as a pointer; references through other classes are not
followed. -/
namespace Nemclass.Ui
open Model Relation Rewire

inductive PickerPurpose where
  | setPtrTarget (owner : Uuid) (path : List ℕ)
  | setInstance (owner : Uuid) (path : List ℕ)
  | changeToInstance (owner : Uuid) (path : List ℕ)
deriving DecidableEq, Repr

namespace PickerPurpose

def owner : PickerPurpose → Uuid
  | setPtrTarget owner _ | setInstance owner _ | changeToInstance owner _ => owner

def path : PickerPurpose → List ℕ
  | setPtrTarget _ path | setInstance _ path | changeToInstance _ path => path

/-- The selected class is embedded, not pointed at. -/
def IsInstance : PickerPurpose → Prop
  | setPtrTarget .. => False
  | setInstance .. | changeToInstance .. => True

end PickerPurpose

/-- The edits that a selection leads to. -/
inductive NodeEditOp where
  | setPtrTarget (owner : Uuid) (path : List ℕ) (target : Option Uuid)
  | setInstance (owner : Uuid) (path : List ℕ) (target : Uuid)
deriving DecidableEq, Repr

/-- The edited node keeps its name and comment. -/
def applyNodeEdit (project : Project) : NodeEditOp → Project
  | .setPtrTarget owner path target =>
    project.editNode owner path fun old => .pointer old.name old.comment target
  | .setInstance owner path target =>
    project.editNode owner path fun old => .classInstance old.name old.comment target

def PickerPurpose.op (uuid : Uuid) : PickerPurpose → NodeEditOp
  | setPtrTarget owner path => .setPtrTarget owner path (some uuid)
  | setInstance owner path | changeToInstance owner path => .setInstance owner path uuid

/-- A class selected for a purpose. -/
structure Selection where
  purpose : PickerPurpose
  uuid : Uuid
deriving DecidableEq, Repr

section Edit
variable {project : Project} {owner uuid : Uuid} {path : List ℕ}

/-- A pointer embeds nothing. -/
theorem setPtrTarget_acyclic (h : Acyclic project.EmbedsClass) (target : Option Uuid) :
    Acyclic (applyNodeEdit project (.setPtrTarget owner path target)).EmbedsClass := by
  refine h.anti fun u v hedge => ?_
  rcases Project.editNode_embeds hedge with hold | ⟨-, n, hnew⟩
  · exact hold
  · exact absurd hnew (Node.not_embeds_pointer v)

/-- An instance rewires its owner to its class. -/
theorem setInstance_rewires (h : (project.getNode owner path).isSome) :
    Rewires project.EmbedsClass
      (applyNodeEdit project (.setInstance owner path uuid)).EmbedsClass owner uuid where
  added := Project.editNode_embeds_new h fun _ => .here
  elsewhere _ v hu := Project.editNode_elsewhere hu v
  kept v hedge := by
    rcases Project.editNode_embeds hedge with hold | ⟨-, n, hnew⟩
    · exact .inr hold
    · exact .inl (Node.embeds_classInstance_iff.mp hnew)

theorem setInstance_acyclic_iff (h : Acyclic project.EmbedsClass) :
    Acyclic (applyNodeEdit project (.setInstance owner path uuid)).EmbedsClass ↔
      ((project.getNode owner path).isSome →
        ¬ ReflTransGen project.EmbedsClass uuid owner) := by
  by_cases hnode : (project.getNode owner path).isSome
  · rw [(setInstance_rewires hnode).acyclic_iff h]
    simp [hnode]
  · rw [Option.not_isSome_iff_eq_none] at hnode
    have hsame : Acyclic (applyNodeEdit project (.setInstance owner path uuid)).EmbedsClass :=
      h.anti fun u v hedge => (Project.editNode_missing hnode u v).mp hedge
    simp [hnode, hsame]

end Edit

section Select
variable [UuidText]

def wouldCycle (project : Project) (s : Selection) : Bool :=
  ((project.getClass s.uuid).map fun c =>
    childrenReferenceClass s.purpose.owner c.children || s.uuid == s.purpose.owner).getD false

/-- One selection: whether it is accepted, and the project afterwards. -/
def select (project : Project) (s : Selection) : Bool × Project :=
  if wouldCycle project s then (false, project)
  else (true, applyNodeEdit project (s.purpose.op s.uuid))

/-- Embedding the class closes no cycle: through no chain of embeds does it lead back. -/
def LeadsNowhere (project : Project) (s : Selection) : Prop :=
  s.purpose.IsInstance → wouldCycle project s = false →
    (project.getNode s.purpose.owner s.purpose.path).isSome →
      ¬ ReflTransGen project.EmbedsClass s.uuid s.purpose.owner

/-- One selection keeps the embeds free of cycles exactly when it leads nowhere. -/
theorem select_acyclic_iff (project : Project) (s : Selection)
    (h : Acyclic project.EmbedsClass) :
    Acyclic (select project s).2.EmbedsClass ↔ LeadsNowhere project s := by
  unfold select LeadsNowhere
  cases hcycle : wouldCycle project s with
  | true => simp [h]
  | false =>
    obtain ⟨purpose, uuid⟩ := s
    cases purpose with
    | setPtrTarget owner path =>
      simp only [PickerPurpose.IsInstance, false_imp_iff, iff_true]
      exact setPtrTarget_acyclic h (some uuid)
    | setInstance owner path | changeToInstance owner path =>
      simp only [PickerPurpose.IsInstance, true_imp_iff]
      exact setInstance_acyclic_iff h

/-- A run of selections keeps the embeds free of cycles throughout exactly when each accepted
instance embeds a class that does not lead back to its owner. -/
theorem selections_acyclic_iff (project : Project) (selections : List Selection)
    (h : Acyclic project.EmbedsClass) :
    (∀ earlier later, selections = earlier ++ later →
      Acyclic (Trace.final select project earlier).EmbedsClass) ↔
        ∀ earlier s later, selections = earlier ++ s :: later →
          LeadsNowhere (Trace.final select project earlier) s :=
  Trace.forall_final_iff (P := fun p : Project => Acyclic p.EmbedsClass) h select_acyclic_iff
    selections

end Select

section Chain
attribute [local instance] hyphenatedText

/-- `Player` embeds nothing, `Slot` embeds `Player`, and `Weapon` embeds `Slot`. -/
def inventory : Project :=
  (((Project.new "game").addClass ⟨⟨1⟩, "Player", "", "", [.simple .int32 "health" ""]⟩).addClass
    ⟨⟨2⟩, "Weapon", "", "", [.classInstance "slot" "" ⟨3⟩]⟩).addClass
    ⟨⟨3⟩, "Slot", "", "", [.classInstance "holder" "" ⟨1⟩]⟩

theorem inventory_embeds {u v : Uuid} (h : inventory.EmbedsClass u v) :
    u = ⟨2⟩ ∧ v = ⟨3⟩ ∨ u = ⟨3⟩ ∧ v = ⟨1⟩ := by
  obtain ⟨c, hc, n, hn, hembeds⟩ := h
  simp only [inventory, Project.getClass_addClass, Project.getClass_new] at hc
  split at hc
  · cases hc
    obtain rfl := List.mem_singleton.mp hn
    exact .inr ⟨‹_›, Node.embeds_classInstance_iff.mp hembeds⟩
  · split at hc
    · cases hc
      obtain rfl := List.mem_singleton.mp hn
      exact .inl ⟨‹_›, Node.embeds_classInstance_iff.mp hembeds⟩
    · split at hc
      · cases hc
        obtain rfl := List.mem_singleton.mp hn
        cases hembeds with
        | inside h => cases h
      · cases hc

theorem inventory_acyclic : Acyclic inventory.EmbedsClass := by
  refine acyclic_of_rank (fun u => if u = ⟨2⟩ then 2 else if u = ⟨3⟩ then 1 else 0) fun u v h => ?_
  rcases inventory_embeds h with ⟨rfl, rfl⟩ | ⟨rfl, rfl⟩ <;> decide

/-- Embedding `Slot` in `Player` directly is refused, pointing at it is refused as well. -/
theorem selections_acyclic_inventory :
    let selections : List Selection :=
      [⟨.setInstance ⟨1⟩ [0], ⟨3⟩⟩, ⟨.setPtrTarget ⟨1⟩ [0], ⟨3⟩⟩]
    (∀ earlier later, selections = earlier ++ later →
      Acyclic (Trace.final select inventory earlier).EmbedsClass) ↔
        ∀ earlier s later, selections = earlier ++ s :: later →
          LeadsNowhere (Trace.final select inventory earlier) s :=
  selections_acyclic_iff inventory _ inventory_acyclic

/-- `Weapon` does not refer to `Player` itself, but it leads there through `Slot`. -/
theorem select_closes_cycle : Acyclic inventory.EmbedsClass ∧
    (select inventory ⟨.changeToInstance ⟨1⟩ [0], ⟨2⟩⟩).1 = true ∧
      ¬ Acyclic (select inventory ⟨.changeToInstance ⟨1⟩ [0], ⟨2⟩⟩).2.EmbedsClass := by
  have haccepted : wouldCycle inventory ⟨.changeToInstance ⟨1⟩ [0], ⟨2⟩⟩ = false := by decide
  have hweapon : inventory.EmbedsClass ⟨2⟩ ⟨3⟩ := ⟨_, rfl, _, List.mem_singleton_self _, .here⟩
  have hslot : inventory.EmbedsClass ⟨3⟩ ⟨1⟩ := ⟨_, rfl, _, List.mem_singleton_self _, .here⟩
  refine ⟨inventory_acyclic, by rw [select, haccepted]; rfl, fun h => ?_⟩
  rw [select_acyclic_iff _ _ inventory_acyclic] at h
  exact h trivial haccepted rfl (.head hweapon (.single hslot))

end Chain

end Nemclass.Ui
