import Mathlib.Data.List.Nodup
import Nemclass.Model.Node

/-! A project: its classes under their identifiers, the order in which they were
first added, and its enums. -/
namespace Nemclass.Model

structure ClassNode where
  uuid : Uuid
  name : String
  comment : String
  addressFormula : String
  children : List Node

structure EnumDescription where
  name : String
  size : UInt8
  useFlags : Bool
  values : List (String × Int64)

/-- The class map as the function of its lookups; `class_order` lists its keys once each. -/
structure Project where
  name : String
  classes : Uuid → Option ClassNode
  classOrder : List Uuid
  enums : List EnumDescription
  order_nodup : classOrder.Nodup
  mem_order : ∀ u, u ∈ classOrder ↔ (classes u).isSome = true

namespace Project

def new (name : String) : Project where
  name := name
  classes _ := none
  classOrder := []
  enums := []
  order_nodup := .nil
  mem_order u := by simp

/-- A class that is already there is replaced where it stands. -/
def addClass (p : Project) (c : ClassNode) : Project :=
  { p with
    classes := fun u => if u = c.uuid then some c else p.classes u
    classOrder := if (p.classes c.uuid).isSome then p.classOrder else p.classOrder ++ [c.uuid]
    order_nodup := by
      split
      · exact p.order_nodup
      · rename_i hnew
        rw [← p.mem_order] at hnew
        rw [← List.concat_eq_append]
        exact p.order_nodup.concat hnew
    mem_order := fun u => by
      by_cases hu : u = c.uuid
      · subst hu
        split
        · rename_i hold
          simpa [p.mem_order] using hold
        · simp
      · rw [if_neg hu]
        split
        · exact p.mem_order u
        · simp [hu, p.mem_order] }

def getClass (p : Project) (u : Uuid) : Option ClassNode := p.classes u

@[simp] theorem getClass_new (name : String) (u : Uuid) : (new name).getClass u = none := rfl

@[simp] theorem getClass_addClass (p : Project) (c : ClassNode) (u : Uuid) :
    (p.addClass c).getClass u = if u = c.uuid then some c else p.getClass u := rfl

def classesInOrder (p : Project) : List ClassNode := p.classOrder.filterMap p.classes

theorem mem_classOrder {p : Project} {u : Uuid} {c : ClassNode} (h : p.getClass u = some c) :
    u ∈ p.classOrder := by
  rw [p.mem_order, show p.classes u = some c from h, Option.isSome_some]

end Project

end Nemclass.Model
