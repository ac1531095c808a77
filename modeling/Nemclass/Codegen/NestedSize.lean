import Nemclass.Codegen.ClassSize

/-! The size of a class whose fields nest. A container among the fields of a class is sized without
the project, so that a class embedded below it counts as nothing; expanded in full, it has the
fields of that class there. -/
namespace Nemclass.Codegen
open Usize Model Expand

section Spread

mutual

/-- The fields that a node lays out in place: those of a container, or the node itself. -/
def spreadNode : Node → List Node
  | .cls _ _ _ _ children => spread children
  | n => [n]

def spread : List Node → List Node
  | [] => []
  | n :: ns => spreadNode n ++ spread ns

end

/-- The classes embedded below a container. -/
def hiddenIn (n : Node) : List Node :=
  match n with
  | .cls _ _ _ _ children => (spread children).filter fun m => (embeds m).isSome
  | _ => []

mutual

/-- A container is as large as the fields laid out in it. -/
theorem memorySize_spreadNode : (n : Node) →
    n.memorySize = min ((spreadNode n).map Node.memorySize).sum usizeMax
  | .cls uuid name comment addressFormula children => by
    rw [Node.memorySize, Node.addMemorySizes_eq, saturatingFold_zero, memorySizes_spread children,
      spreadNode]
  | .simple .. | .pointer .. | .classInstance .. | .malformedInstance .. | .array ..
  | .utf8Text .. | .utf16Text .. | .vector .. | .matrix .. | .vTable .. | .function .. => by
    rw [spreadNode, List.map_singleton, List.sum_singleton, Nat.min_eq_left (Node.memorySize_le _)]
    all_goals exact nofun

theorem memorySizes_spread : (ns : List Node) →
    min (ns.map Node.memorySize).sum usizeMax =
      min ((spread ns).map Node.memorySize).sum usizeMax
  | [] => rfl
  | n :: ns => by
    have hn := memorySize_spreadNode n
    have hns := memorySizes_spread ns
    rw [spread, List.map_cons, List.sum_cons, List.map_append, List.sum_append]
    omega

end

end Spread

section Deep
variable (project : Project)

theorem mem_keys_of_getClass :
    ∀ k c, project.getClass k = some c → k ∈ project.classOrder.toFinset :=
  fun _ _ h => List.mem_toFinset.mpr (Project.mem_classOrder h)

/-- The classes as items made of the fields laid out in them, at whatever depth. -/
def deepStore : Store Uuid ClassNode Node where
  get := project.getClass
  keys := project.classOrder.toFinset
  mem_keys := mem_keys_of_getClass project
  parts c := spread c.children
  ref := embeds

/-- The number of bytes of a field in the expansion in full. -/
def fieldSize (n : Node) : ℕ :=
  (((deepStore project).expand ∅ [n]).leaves.map Node.memorySize).sum

/-- The number of bytes of a child list in the expansion in full. -/
def deepSize (ns : List Node) : ℕ :=
  (((deepStore project).expand ∅ (spread ns)).leaves.map Node.memorySize).sum

variable {project}

theorem sum_expand_deep (ns : List Node) :
    (((deepStore project).expand ∅ ns).leaves.map Node.memorySize).sum =
      (ns.map (fieldSize project)).sum := by
  rw [← Expansion.weights_sum]
  induction ns with
  | nil =>
    rw [Store.expand_nil]
    rfl
  | cons n ns ih => rw [Store.weights_cons, List.sum_cons, ih, List.map_cons, List.sum_cons]; rfl

theorem deepSize_eq (ns : List Node) :
    deepSize project ns = ((spread ns).map (fieldSize project)).sum := sum_expand_deep (spread ns)

/-- In full, a field that embeds no class of the project has its own size. -/
theorem fieldSize_leaf {n : Node} (h : (embeds n).bind project.getClass = none) :
    fieldSize project n = n.memorySize := by
  unfold fieldSize
  cases href : embeds n with
  | none =>
    rw [Store.expand_plain [] href, Store.expand_nil]
    simp [Expansion.leaves]
  | some uuid =>
    rw [href, Option.bind_some] at h
    rw [Store.expand_unresolved [] href (Finset.notMem_empty uuid) h, Store.expand_nil]
    simp [Expansion.leaves]

/-- In full, a field that embeds a class has the size of that class in full. -/
theorem fieldSize_embed (hacyclic : (deepStore project).Acyclic) {n : Node} {uuid : Uuid}
    {target : ClassNode} (href : embeds n = some uuid) (hget : project.getClass uuid = some target) :
    fieldSize project n = deepSize project target.children := by
  unfold fieldSize
  rw [hacyclic.expand_alone [] href hget, Store.expand_nil, Expansion.leaves, Expansion.leaves,
    List.append_nil]
  rfl

theorem mem_spread {n : Node} {ns : List Node} (hn : n ∈ ns) (hplain : spreadNode n = [n]) :
    n ∈ spread ns := by
  induction ns with
  | nil => cases hn
  | cons m ns ih =>
    rw [spread, List.mem_append]
    rcases List.mem_cons.mp hn with rfl | hn
    · exact .inl (by rw [hplain]; exact List.mem_singleton_self n)
    · exact .inr (ih hn)

/-- A field that embeds a class is no container, and its own size is 0. -/
theorem embeds_plain {n : Node} {uuid : Uuid} (h : embeds n = some uuid) :
    spreadNode n = [n] := by
  cases n with
  | classInstance name comment classUuid => rw [spreadNode]; exact nofun
  | _ => cases h

/-- What the fields of a class embed, the class embeds in full. -/
theorem refers_deep {a b : Uuid} (h : (store project).Refers a b) :
    (deepStore project).Refers a b := by
  obtain ⟨c, n, hget, hn, href⟩ := h
  exact ⟨c, n, hget, mem_spread hn (embeds_plain href), href⟩

theorem acyclic_of_deep (h : (deepStore project).Acyclic) : (store project).Acyclic :=
  fun k hk => h k (Relation.TransGen.mono (fun _ _ => refers_deep) k k hk)

theorem clear_of_deep {visited : Finset Uuid} {ns : List Node}
    (h : (deepStore project).Clear visited (spread ns)) : (store project).Clear visited ns := by
  intro n hn k href j hj hreach
  exact h n (mem_spread hn (embeds_plain href)) k href j hj
    (Relation.ReflTransGen.mono (fun _ _ => refers_deep) k j hreach)

/-- The bytes of a leaf that its size counts. -/
def countedIn (n : Node) : ℕ := ((spreadNode n).map Node.memorySize).sum

/-- The bytes of a leaf that its size does not count. -/
def missedIn (project : Project) (n : Node) : ℕ := ((hiddenIn n).map (fieldSize project)).sum

/-- Below a leaf, the expansion in full has what the leaf counts and what it misses. -/
theorem leaf_split {n : Node} (h : (embeds n).bind project.getClass = none) :
    ((spreadNode n).map (fieldSize project)).sum = countedIn n + missedIn project n := by
  cases n with
  | cls uuid name comment addressFormula children =>
    rw [countedIn, missedIn, hiddenIn, spreadNode]
    exact sum_embeds (fun m hm => fieldSize_leaf (embeds_bind_plain hm)) (spread children)
  | _ =>
    rw [countedIn, missedIn, hiddenIn, spreadNode, List.map_singleton, List.sum_singleton,
      fieldSize_leaf h, List.map_singleton, List.sum_singleton, List.map_nil, List.sum_nil,
      Nat.add_zero]
    all_goals exact nofun

/-- The expansion in full has what the sizes count and what they miss. -/
theorem deepSize_split (hacyclic : (deepStore project).Acyclic) {stack : Finset Uuid}
    {ns : List Node} (hclear : (store project).Clear stack ns) : deepSize project ns =
      (((store project).expand stack ns).leaves.map countedIn).sum +
        (((store project).expand stack ns).leaves.map (missedIn project)).sum := by
  have hcons (n : Node) (ns : List Node) : deepSize project (n :: ns) =
      ((spreadNode n).map (fieldSize project)).sum + deepSize project ns := by
    rw [deepSize_eq, spread, List.map_append, List.sum_append, deepSize_eq]
  fun_induction (store project).expand stack ns with
  | case1 => rw [deepSize_eq]; rfl
  | case2 stack n ns href ih =>
    rw [hcons, leaf_split (embeds_bind_plain href), ih hclear.tail]
    simp only [Expansion.leaves, List.map_cons, List.sum_cons]
    omega
  | case3 stack n ns uuid href hseen => exact absurd hseen (hclear.notMem href)
  | case4 stack n ns uuid href hseen hget ih =>
    rw [hcons, leaf_split (embeds_bind_missing href hget), ih hclear.tail]
    simp only [Expansion.leaves, List.map_cons, List.sum_cons]
    omega
  | case5 stack n ns uuid href hseen target hget ihparts ih =>
    have hparts := ihparts ((acyclic_of_deep hacyclic).clear_insert hclear href hget)
    rw [hcons, embeds_plain href, List.map_singleton, List.sum_singleton,
      fieldSize_embed hacyclic href hget, ih hclear.tail]
    rw [show deepSize project target.children = _ from hparts]
    simp only [Expansion.leaves, List.map_append, List.sum_append]
    omega

/-- The sizes of leaves clamp to what the leaves count. -/
theorem counted_sum (ns : List Node) :
    min (ns.map Node.memorySize).sum usizeMax = min (ns.map countedIn).sum usizeMax := by
  induction ns with
  | nil => rfl
  | cons n ns ih =>
    have hn : n.memorySize = min (countedIn n) usizeMax := memorySize_spreadNode n
    rw [List.map_cons, List.sum_cons, List.map_cons, List.sum_cons]
    omega

variable (project)

/-- The fields of a class below containers that embed classes. -/
def hiddenEmbeds (c : ClassNode) : List Node := (expansion project c).leaves.flatMap hiddenIn

/-- The bytes that the size of a class counts. -/
def countedSize (c : ClassNode) : ℕ := ((expansion project c).leaves.map countedIn).sum

variable {project}

theorem missed_sum (ns : List Node) : (ns.map (missedIn project)).sum =
    ((ns.flatMap hiddenIn).map (fieldSize project)).sum := by
  induction ns with
  | nil => rfl
  | cons n ns ih =>
    rw [List.map_cons, List.sum_cons, List.flatMap_cons, List.map_append, List.sum_append, ih,
      missedIn]

/-- The size of a class counts every class embedded at any depth when those below containers
are empty, or when it is clamped anyway. -/
theorem resolvedClassSize_deep_iff [UuidText] {visited : Finset Uuid} {c : ClassNode}
    (hacyclic : (deepStore project).Acyclic)
    (hclear : (deepStore project).Clear visited (spread c.children)) :
    (resolvedClassSize project visited c).size = min (deepSize project c.children) usizeMax ↔
      (∀ n ∈ hiddenEmbeds project c, fieldSize project n = 0) ∨
        usizeMax ≤ countedSize project c := by
  have hnone := (store project).clear_empty c.children
  have hsize : (resolvedClassSize project visited c).size =
      min (exactSize project visited c.children) usizeMax :=
    congrArg Sized.size (resolvedClassSize_eq project visited c)
  have hmissed : ((hiddenEmbeds project c).map (fieldSize project)).sum = 0 ↔
      ∀ n ∈ hiddenEmbeds project c, fieldSize project n = 0 := by
    rw [List.sum_eq_zero_iff]
    simp
  have hdeep := deepSize_split hacyclic hnone
  rw [exactSize, (acyclic_of_deep hacyclic).expand_eq (clear_of_deep hclear) hnone,
    counted_sum] at hsize
  rw [missed_sum] at hdeep
  change _ = countedSize project c + ((hiddenEmbeds project c).map (fieldSize project)).sum
    at hdeep
  change _ = min (countedSize project c) usizeMax at hsize
  rw [hsize, hdeep, ← hmissed]
  omega

end Deep

section NestedEmbed

attribute [local instance] hyphenatedText

/-- A class of one integer. -/
def innerClass : ClassNode := ⟨nodeUuid, "Inner", "", "", [valueField]⟩

/-- A container that embeds it. -/
def boxField : Node := .cls ⟨2⟩ "box" "" "" [innerField]

def boxingClass : ClassNode := ⟨⟨3⟩, "Outer", "", "", [boxField]⟩

def boxingProject : Project := ((Project.new "p").addClass innerClass).addClass boxingClass

theorem boxing_acyclic : (deepStore boxingProject).Acyclic := by
  refine Store.acyclic_of_rank _ (fun uuid => uuid.bits.toNat) ?_
  rintro a b ⟨c, n, hget, hn, href⟩
  change (if a = ⟨3⟩ then some boxingClass else
    if a = nodeUuid then some innerClass else none) = some c at hget
  split at hget
  · rename_i ha
    subst ha
    cases hget
    change n ∈ [innerField] at hn
    rw [List.mem_singleton.mp hn] at href
    cases href
    decide
  · split at hget
    · cases hget
      change n ∈ [valueField] at hn
      rw [List.mem_singleton.mp hn] at href
      cases href
    · cases hget

theorem boxing_fieldSize : fieldSize boxingProject innerField = 4 := by
  have hget : boxingProject.getClass nodeUuid = some innerClass := rfl
  rw [fieldSize_embed boxing_acyclic rfl hget, deepSize_eq]
  show ([valueField].map (fieldSize boxingProject)).sum = 4
  rw [List.map_singleton, List.sum_singleton, fieldSize_leaf rfl]
  rfl

/-- The embedded class has 4 bytes, its container and the class around it are sized 0. -/
theorem boxing_sizes_differ :
    (deepStore boxingProject).Acyclic ∧
    (resolvedClassSize boxingProject ∅ boxingClass).size = 0 ∧
    deepSize boxingProject boxingClass.children = 4 := by
  refine ⟨boxing_acyclic, ?_, ?_⟩
  · rw [printedSize_eq]
    have hexpansion : expansion boxingProject boxingClass = .leaf boxField .nil := by
      show Store.expand _ ∅ [boxField] = _
      rw [Store.expand_plain _ rfl, Store.expand_nil]
    rw [hexpansion]
    rfl
  · rw [deepSize_eq]
    show ([innerField].map (fieldSize boxingProject)).sum = 4
    rw [List.map_singleton, List.sum_singleton, boxing_fieldSize]

theorem resolvedClassSize_deep_iff_boxing :
    (resolvedClassSize boxingProject ∅ boxingClass).size =
        min (deepSize boxingProject boxingClass.children) usizeMax ↔
      (∀ n ∈ hiddenEmbeds boxingProject boxingClass, fieldSize boxingProject n = 0) ∨
        usizeMax ≤ countedSize boxingProject boxingClass :=
  resolvedClassSize_deep_iff boxing_acyclic (Store.clear_empty _ _)

end NestedEmbed

end Nemclass.Codegen
