import Nemclass.Model.ClassStore
import Nemclass.Model.RegistryRoundTrip

/-! Saving a project and loading it again. The text format belongs to a library,
which is a parameter; the loader reads the nodes with the registry, whose depth
limit the writer does not have. -/
namespace Nemclass.Model

structure ClassDef where
  uuid : String
  name : String
  comment : String
  addressFormula : String
  nodes : List NodeDef

structure EnumValueDef where
  name : String
  value : Int64

structure EnumDef where
  name : String
  size : UInt8
  useFlags : Bool
  values : List EnumValueDef

structure ProjectMeta where
  name : String
  version : String

structure ProjectFile where
  project : ProjectMeta
  enums : List EnumDef
  classes : List ClassDef

/-- The serializer: how a project file is written as text and read back. -/
structure Toml where
  toString : ProjectFile → Except String String
  fromStr : String → Except String ProjectFile

def EnumDescription.toDef (e : EnumDescription) : EnumDef :=
  ⟨e.name, e.size, e.useFlags, e.values.map fun (name, value) => ⟨name, value⟩⟩

def EnumDef.description (d : EnumDef) : EnumDescription :=
  ⟨d.name, d.size, d.useFlags, d.values.map fun v => (v.name, v.value)⟩

theorem EnumDescription.description_toDef (e : EnumDescription) : e.toDef.description = e := by
  simp [toDef, EnumDef.description, Function.comp_def]

section File
variable [library : UuidLibrary]

def ClassNode.toDef (c : ClassNode) : ClassDef :=
  ⟨c.uuid.toString, c.name, c.comment, c.addressFormula, serializeNodes c.children⟩

namespace Project

def file (p : Project) : ProjectFile :=
  ⟨⟨p.name, "1"⟩, p.enums.map EnumDescription.toDef, p.classesInOrder.map ClassNode.toDef⟩

def toToml (toml : Toml) (p : Project) : Except ModelError String :=
  (toml.toString p.file).mapError .serializeError

/-- The children of one class, each with its own depth check. -/
def readNodes : List NodeDef → Draws (List Node)
  | [] => pure []
  | d :: ds => do
    let n ← deserializeNode d
    let ns ← readNodes ds
    pure (n :: ns)

def readClass (d : ClassDef) : Draws ClassNode :=
  match Uuid.parse d.uuid with
  | none => throw (.deserializeError s!"bad class uuid: {library.parseError d.uuid}")
  | some uuid => do
    let children ← readNodes d.nodes
    pure ⟨uuid, d.name, d.comment, d.addressFormula, children⟩

def addClasses (p : Project) : List ClassDef → Draws Project
  | [] => pure p
  | d :: ds => do
    let c ← readClass d
    (p.addClass c).addClasses ds

def fromFile (f : ProjectFile) : Draws Project :=
  addClasses { new f.project.name with enums := f.enums.map EnumDef.description } f.classes

def fromToml (toml : Toml) (s : String) : Draws Project :=
  match toml.fromStr s with
  | .error e => throw (.deserializeError e)
  | .ok f => fromFile f

/-- A project that is built through the calls of the model from built-in nodes. An edit in place
that keeps the identifier of a class is the class added again. -/
inductive Built : Project → Prop
  | new (name : String) : Built (new name)
  | addClass {p : Project} {c : ClassNode} : Built p → (∀ n ∈ c.children, n.BuiltIn) →
      Built (p.addClass c)
  | removeClass {p : Project} (u : Uuid) : Built p → Built (p.removeClass u).2
  | rename {p : Project} (name : String) : Built p → Built { p with name := name }
  | setEnums {p : Project} (enums : List EnumDescription) : Built p →
      Built { p with enums := enums }

/-- Every class stands under its own identifier and holds built-in nodes. -/
def WellKept (p : Project) : Prop :=
  ∀ u c, p.getClass u = some c → c.uuid = u ∧ ∀ n ∈ c.children, n.BuiltIn

theorem Built.wellKept {p : Project} (h : p.Built) : p.WellKept := by
  induction h with
  | new name => exact fun u c hc => by cases hc
  | @addClass p d _ hd ih =>
    intro u c hc
    rw [getClass_addClass] at hc
    split at hc
    · next hu =>
      cases hc
      exact ⟨hu.symm, hd⟩
    · exact ih u c hc
  | @removeClass p v _ ih =>
    intro u c hc
    obtain ⟨-, heq⟩ | ⟨_, -, -, heq⟩ | ⟨_, -, -, heq⟩ := removeClass_cases p v
    · rw [heq] at hc
      exact ih u c hc
    · rw [heq] at hc
      exact ih u c hc
    · rw [heq] at hc
      have hne : (if u = v then none else p.getClass u) = some c := hc
      split at hne
      · cases hne
      · exact ih u c hne
  | rename name _ ih => exact ih
  | setEnums enums _ ih => exact ih

end Project

end File

/-! ## Rebuilding a project from its classes -/

attribute [ext] Project

namespace Project

theorem getClass_foldl_addClass (p : Project) (cs : List ClassNode)
    (h : (cs.map ClassNode.uuid).Nodup) (u : Uuid) :
    (cs.foldl addClass p).getClass u = (cs.find? (·.uuid = u)).or (p.getClass u) := by
  induction cs generalizing p with
  | nil => rfl
  | cons c cs ih =>
    rw [List.map_cons, List.nodup_cons] at h
    rw [List.foldl_cons, ih (p.addClass c) h.2, getClass_addClass, List.find?_cons]
    by_cases hu : u = c.uuid
    · subst hu
      have hnone : cs.find? (·.uuid = c.uuid) = none := by
        refine List.find?_eq_none.mpr fun d hd heq => h.1 ?_
        rw [← of_decide_eq_true heq]
        exact List.mem_map_of_mem hd
      simp [hnone]
    · simp [hu, Ne.symm hu]

theorem classOrder_foldl_addClass (p : Project) (cs : List ClassNode)
    (h : (cs.map ClassNode.uuid).Nodup) (hnew : ∀ c ∈ cs, p.getClass c.uuid = none) :
    (cs.foldl addClass p).classOrder = p.classOrder ++ cs.map ClassNode.uuid := by
  induction cs generalizing p with
  | nil => rw [List.foldl_nil, List.map_nil, List.append_nil]
  | cons c cs ih =>
    rw [List.map_cons, List.nodup_cons] at h
    have hadd : (p.addClass c).classOrder = p.classOrder ++ [c.uuid] := by
      refine if_neg ?_
      rw [show p.classes c.uuid = none from hnew c List.mem_cons_self]
      exact Bool.false_ne_true
    rw [List.foldl_cons, ih (p.addClass c) h.2, hadd, List.map_cons, List.append_assoc,
      List.singleton_append]
    intro d hd
    rw [getClass_addClass, if_neg, hnew d (List.mem_cons_of_mem _ hd)]
    intro heq
    rw [← heq] at h
    exact h.1 (List.mem_map_of_mem hd)

theorem name_foldl_addClass (p : Project) (cs : List ClassNode) :
    (cs.foldl addClass p).name = p.name := by
  induction cs generalizing p with
  | nil => rfl
  | cons c cs ih => exact ih (p.addClass c)

theorem enums_foldl_addClass (p : Project) (cs : List ClassNode) :
    (cs.foldl addClass p).enums = p.enums := by
  induction cs generalizing p with
  | nil => rfl
  | cons c cs ih => exact ih (p.addClass c)

theorem map_uuid_classesInOrder {p : Project} (h : ∀ u c, p.getClass u = some c → c.uuid = u) :
    p.classesInOrder.map ClassNode.uuid = p.classOrder := by
  rw [classesInOrder, List.map_filterMap]
  refine (List.filterMap_congr fun u hu => ?_).trans List.filterMap_some
  obtain ⟨c, hc⟩ := Option.isSome_iff_exists.mp ((p.mem_order u).mp hu)
  rw [hc, Option.map_some, h u c hc]

theorem mem_classesInOrder {p : Project} {c : ClassNode} :
    c ∈ p.classesInOrder ↔ ∃ u, p.getClass u = some c := by
  rw [classesInOrder, List.mem_filterMap]
  exact ⟨fun ⟨u, _, hu⟩ => ⟨u, hu⟩, fun ⟨u, hu⟩ => ⟨u, mem_classOrder hu, hu⟩⟩

theorem find?_classesInOrder {p : Project} (h : ∀ u c, p.getClass u = some c → c.uuid = u)
    (u : Uuid) : p.classesInOrder.find? (·.uuid = u) = p.getClass u := by
  cases hu : p.getClass u with
  | none =>
    refine List.find?_eq_none.mpr fun c hc heq => ?_
    obtain ⟨v, hv⟩ := mem_classesInOrder.mp hc
    rw [← h v c hv, of_decide_eq_true heq, hu] at hv
    cases hv
  | some c =>
    cases hfind : p.classesInOrder.find? (·.uuid = u) with
    | none =>
      have hne := List.find?_eq_none.mp hfind c (mem_classesInOrder.mpr ⟨u, hu⟩)
      exact absurd (decide_eq_true (h u c hu)) hne
    | some d =>
      obtain ⟨v, hv⟩ := mem_classesInOrder.mp (List.mem_of_find?_eq_some hfind)
      have hd := List.find?_some hfind
      rwa [← h v d hv, show d.uuid = u from of_decide_eq_true hd, hu, eq_comm] at hv

/-- Adding a project's classes in order to an empty one gives it back. -/
theorem foldl_classesInOrder {p : Project} (h : ∀ u c, p.getClass u = some c → c.uuid = u) :
    p.classesInOrder.foldl addClass { new p.name with enums := p.enums } = p := by
  have hnodup : (p.classesInOrder.map ClassNode.uuid).Nodup := by
    rw [map_uuid_classesInOrder h]
    exact p.order_nodup
  ext1
  · rw [name_foldl_addClass]
    rfl
  · funext u
    refine (getClass_foldl_addClass _ _ hnodup u).trans ?_
    rw [find?_classesInOrder h]
    exact Option.or_none
  · rw [classOrder_foldl_addClass _ _ hnodup fun _ _ => rfl, map_uuid_classesInOrder h]
    rfl
  · rw [enums_foldl_addClass]

/-- No node tree is deeper than the registry reads. -/
def Shallow (p : Project) : Prop :=
  ∀ c ∈ p.classesInOrder, ∀ n ∈ c.children, n.height ≤ maxNodeDepth

theorem shallow_single {name : String} {c : ClassNode} :
    ((new name).addClass c).Shallow ↔ ∀ n ∈ c.children, n.height ≤ maxNodeDepth := by
  have hclasses : ((new name).addClass c).classesInOrder = [c] := by
    simp [classesInOrder, addClass, new]
  rw [Shallow, hclasses, List.forall_mem_singleton]

end Project

/-! ## Loading what was saved -/

section Load
variable [library : UuidLibrary]

namespace Project

theorem limited_readNodes {ns : List Node} (h : ∀ n ∈ ns, n.BuiltIn) :
    Limited (readNodes (serializeNodes ns)) (∀ n ∈ ns, n.height ≤ maxNodeDepth) ns := by
  induction ns with
  | nil => exact (Limited.pure []).congr (by simp)
  | cons n ns ih =>
    have hn := limited_deserializeNode (h n List.mem_cons_self)
    have hns := ih fun m hm => h m (List.mem_cons_of_mem _ hm)
    refine (hn.bind (hns.map (n :: ·))).congr ?_
    rw [List.forall_mem_cons]

theorem limited_readClass {c : ClassNode} (h : ∀ n ∈ c.children, n.BuiltIn) :
    Limited (readClass c.toDef) (∀ n ∈ c.children, n.height ≤ maxNodeDepth) c := by
  rw [readClass, show Uuid.parse c.toDef.uuid = some c.uuid from Uuid.parse_toString c.uuid]
  exact (limited_readNodes h).map fun children => { c with children := children }

theorem limited_addClasses (p : Project) {cs : List ClassNode}
    (h : ∀ c ∈ cs, ∀ n ∈ c.children, n.BuiltIn) :
    Limited (p.addClasses (cs.map ClassNode.toDef))
      (∀ c ∈ cs, ∀ n ∈ c.children, n.height ≤ maxNodeDepth) (cs.foldl addClass p) := by
  induction cs generalizing p with
  | nil => exact (Limited.pure p).congr (by simp)
  | cons c cs ih =>
    have hc := limited_readClass (h c List.mem_cons_self)
    have hcs := ih (p.addClass c) fun d hd => h d (List.mem_cons_of_mem _ hd)
    refine (hc.bind hcs).congr ?_
    rw [List.forall_mem_cons]

theorem limited_fromFile {p : Project} (h : p.Built) : Limited (fromFile p.file) p.Shallow p := by
  have hkeyed (u : Uuid) (c : ClassNode) (hc : p.getClass u = some c) := h.wellKept u c hc
  have hchildren (c : ClassNode) (hc : c ∈ p.classesInOrder) : ∀ n ∈ c.children, n.BuiltIn := by
    obtain ⟨u, hu⟩ := mem_classesInOrder.mp hc
    exact (hkeyed u c hu).2
  have henums : p.file.enums.map EnumDef.description = p.enums := by
    rw [file, List.map_map]
    exact (List.map_congr_left fun e _ => e.description_toDef).trans (List.map_id _)
  have hread := limited_addClasses { new p.name with enums := p.enums } hchildren
  rw [foldl_classesInOrder fun u c hc => (hkeyed u c hc).1] at hread
  rw [fromFile, henums]
  exact hread

theorem Built.single (name : String) {c : ClassNode} (h : ∀ n ∈ c.children, n.BuiltIn) :
    ((Project.new name).addClass c).Built :=
  .addClass (.new name) h

end Project

end Load

/-- A serializer as far as one file and its text. -/
def Toml.ofFile (f : ProjectFile) (text : String) : Toml := ⟨fun _ => .ok text, fun _ => .ok f⟩

namespace Project

def playerProject : Project :=
  (new "game").addClass ⟨⟨7⟩, "Player", "", "", [.simple .int32 "health" "player HP"]⟩

def playerText : String :=
  "enums = []\n\n[project]\nname = \"game\"\nversion = \"1\"\n\n" ++
  "[[classes]]\nuuid = \"00000000-0000-0000-0000-000000000007\"\nname = \"Player\"\n" ++
  "comment = \"\"\naddress_formula = \"\"\n\n" ++
  "[[classes.nodes]]\ntype = \"Int32\"\nname = \"health\"\ncomment = \"player HP\"\n"

/-- A virtual table in a virtual table, `k` times. -/
def nested : ℕ → Node
  | 0 => .vTable "vtable" "" []
  | k + 1 => .vTable "vtable" "" [nested k]

theorem builtIn_nested (k : ℕ) : (nested k).BuiltIn := by
  induction k with
  | zero => trivial
  | succ k ih => exact ⟨ih, trivial⟩

theorem height_nested (k : ℕ) : (nested k).height = k + 1 := by
  induction k with
  | zero => rfl
  | succ k ih => rw [nested, Node.height, Node.heights, Node.heights, ih, Nat.max_zero]

def deepProject : Project := (new "game").addClass ⟨⟨7⟩, "Deep", "", "", [nested 128]⟩

end Project

end Nemclass.Model
