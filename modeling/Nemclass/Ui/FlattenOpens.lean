import Nemclass.Codegen.ClassSize
import Nemclass.Ui.FlattenLayout

/-! A whole walk of the class view: which classes it opens does not depend on where it places
them, and it places every row as the generators do where none of these classes is shadowed. -/
namespace Nemclass.Ui
open Usize Model Codegen Relation Expand

section Calls

theorem idPath_ne_empty (c : Call) (i : ℕ) : (c.idPath i).isEmpty = false := by
  unfold Call.idPath
  split
  · simp
  · simp

theorem idPath_opened (c : Call) (k i addr offset : ℕ) (uuid : Uuid) (target : ClassNode) :
    (c.opened k addr offset uuid target).idPath i = c.idPath k ++ "." ++ toString i := by
  rw [Call.idPath, Call.opened, idPath_ne_empty]
  rfl

/-- Calls that differ in where they list their children. -/
structure Alike (c d : Call) : Prop where
  children : d.children = c.children
  depth : d.depth = c.depth
  parentId : d.parentId = c.parentId
  ownerClass : d.ownerClass = c.ownerClass
  parentPath : d.parentPath = c.parentPath
  visited : d.visited = c.visited
  depthBudget : d.depthBudget = c.depthBudget

variable {c d : Call}

theorem Alike.idPath (h : Alike c d) (i : ℕ) : d.idPath i = c.idPath i := by
  unfold Call.idPath
  rw [h.parentId]

theorem Alike.opened (h : Alike c d) (i addr addr' offset offset' : ℕ) (uuid : Uuid)
    (target : ClassNode) :
    Alike (c.opened i addr offset uuid target) (d.opened i addr' offset' uuid target) where
  children := rfl
  depth := congrArg (· + 1) h.depth
  parentId := h.idPath i
  ownerClass := rfl
  parentPath := rfl
  visited := congrArg (insert uuid) h.visited
  depthBudget := congrArg (· - 1) h.depthBudget

end Calls

section Walk
variable [UuidText] (v : View)

/-- One call is made by another, wherever that one lists its children. -/
def Opens (c c' : Call) : Prop := ∃ i cur n, c.children[i]? = some n ∧ CallsAt v c i cur n c'

variable {v} {c c' d : Call}

theorem SubCall.opens (h : SubCall v c c') : Opens v c c' := by
  obtain ⟨i, n, hn, hcall⟩ := h
  exact ⟨i, offsetAt v c i, n, hn, hcall⟩

/-- What a call makes does not depend on where it lists its children. -/
theorem Alike.subCall (h : Alike c d) (hopens : Opens v c c') : ∃ d', SubCall v d d' ∧ Alike c' d' := by
  obtain ⟨i, cur, n, hn, hcall⟩ := hopens
  rw [← h.children] at hn
  cases hcall with
  | nested hne =>
    refine ⟨_, ⟨i, n, hn, .nested hne⟩, ?_⟩
    constructor
    · rfl
    · exact congrArg (· + 1) h.depth
    · exact h.idPath i
    · exact h.ownerClass
    · exact congrArg (· ++ [i]) h.parentPath
    · exact h.visited
    · exact congrArg (· - 1) h.depthBudget
  | inlined heq =>
    obtain ⟨uuid, target, huuid, hgates, hget, rfl⟩ := (inlined_eq_some v).mp heq
    rw [← h.idPath, ← h.visited, ← h.depthBudget] at hgates
    exact ⟨_, ⟨i, n, hn, .inlined ((inlined_eq_some v).mpr ⟨uuid, target, huuid, hgates, hget, rfl⟩)⟩,
      h.opened i _ _ _ _ uuid target⟩
  | dereferenced heq =>
    obtain ⟨uuid, target, addr, buf, huuid, hgates, hbuf, hget, rfl⟩ :=
      (dereferenced_eq_some v).mp heq
    rw [← h.idPath, ← h.visited, ← h.depthBudget] at hgates
    rw [← h.idPath] at hbuf
    exact ⟨_, ⟨i, n, hn, .dereferenced ((dereferenced_eq_some v).mpr
      ⟨uuid, target, addr, buf, huuid, hgates, hbuf, hget, rfl⟩)⟩, h.opened i _ _ _ _ uuid target⟩

/-- Every call that is opened is made, at some place. -/
theorem exists_alike_of_opens (h : ReflTransGen (Opens v) c c') :
    ∃ d, ReflTransGen (SubCall v) c d ∧ Alike c' d := by
  induction h with
  | refl => exact ⟨c, .refl, rfl, rfl, rfl, rfl, rfl, rfl, rfl⟩
  | tail _ hopens ih =>
    obtain ⟨d, hpath, halike⟩ := ih
    obtain ⟨d', hsub, halike'⟩ := halike.subCall hopens
    exact ⟨d', hpath.tail hsub, halike'⟩

theorem Alike.unshadowed_iff (h : Alike c d) : Unshadowed v d ↔ Unshadowed v c := by
  unfold Unshadowed
  rw [h.children, h.visited]

theorem offsetAt_le (hbase : c.baseOffset ≤ usizeMax) (i : ℕ) : offsetAt v c i ≤ usizeMax := by
  rw [offsetAt, foldl_wrappingAdd hbase]
  exact Nat.le_pred_of_lt (Nat.mod_lt _ (by decide))

/-- A call lists a class or the children of a node, at an offset of the machine's width. -/
theorem SubCall.lists (h : SubCall v c c') (hbase : c.baseOffset ≤ usizeMax) :
    ListsClass v c' ∧ c'.baseOffset ≤ usizeMax := by
  obtain ⟨i, n, hn, hcall⟩ := h
  cases hcall with
  | nested => exact ⟨fun hpath => absurd hpath (by simp [Call.nested]), offsetAt_le hbase i⟩
  | inlined heq =>
    obtain ⟨uuid, target, huuid, hgates, hget, rfl⟩ := (inlined_eq_some v).mp heq
    exact ⟨fun _ => ⟨target, hget, rfl⟩, offsetAt_le hbase i⟩
  | dereferenced heq =>
    obtain ⟨uuid, target, addr, buf, huuid, hgates, hbuf, hget, rfl⟩ :=
      (dereferenced_eq_some v).mp heq
    exact ⟨fun _ => ⟨target, hget, rfl⟩, Nat.zero_le _⟩

theorem lists_of_path (h : ReflTransGen (SubCall v) c c') (hc : ListsClass v c)
    (hbase : c.baseOffset ≤ usizeMax) : ListsClass v c' ∧ c'.baseOffset ≤ usizeMax := by
  induction h with
  | refl => exact ⟨hc, hbase⟩
  | tail _ hsub ih => exact hsub.lists ih.2

/-- A listed class lies at the row that it was opened below. -/
theorem enclosed_of_path {root : Call} (h : ReflTransGen (SubCall v) root c)
    (hclass : c.parentPath = []) {i : ℕ} {n : Node} : Enclosed v root (rowAt v c i n) i := by
  rcases ReflTransGen.cases_tail h with rfl | ⟨d, hpath, k, m, hm, hcall⟩
  · exact .inl ⟨rfl, rfl⟩
  · have hrow : rowAt v d k m ∈ flattenNodes v root := mem_flattenNodes_iff.mpr ⟨d, k, m, hpath, hm, rfl⟩
    cases hcall with
    | nested => exact absurd hclass (by simp [Call.nested])
    | inlined heq =>
      obtain ⟨uuid, target, huuid, hgates, hget, rfl⟩ := (inlined_eq_some v).mp heq
      refine .inr ⟨_, hrow, idPath_opened d k i _ _ uuid target, .inl ⟨?_, rfl⟩⟩
      rw [classInstanceTarget_eq] at huuid
      exact (embeds_eq_some huuid).1
    | dereferenced heq =>
      obtain ⟨uuid, target, addr, buf, huuid, hgates, hbuf, hget, rfl⟩ :=
        (dereferenced_eq_some v).mp heq
      exact .inr ⟨_, hrow, idPath_opened d k i _ _ uuid target, .inr ⟨addr, buf, huuid, hbuf, rfl⟩⟩

/-- The view places every field as the generators do exactly when no class that it opens lists,
before another field, a full embed of a class that is open on the way to it. -/
theorem flattenNodes_layout_iff [UnicodeTables] (hacyclic : (store v.project).Acyclic)
    (hfits : Fits v.project) {uuid : Uuid} {viewed : ClassNode}
    (hget : v.project.getClass uuid = some viewed) (addr depthBudget : ℕ) :
    (∀ row ∈ flattenNodes v (viewCall uuid viewed addr depthBudget), ∀ i, row.localPath = [i] →
      Enclosed v (viewCall uuid viewed addr depthBudget) row i ∧ Placed v row i) ↔
        ∀ c, ReflTransGen (Opens v) (viewCall uuid viewed addr depthBudget) c →
          c.parentPath = [] → Unshadowed v c := by
  have hlists (c : Call) (hpath : ReflTransGen (SubCall v) (viewCall uuid viewed addr depthBudget) c)
      (hclass : c.parentPath = []) :
      (∀ i n, c.children[i]? = some n → Placed v (rowAt v c i n) i) ↔ Unshadowed v c := by
    obtain ⟨hlists, hbase⟩ := lists_of_path hpath (fun _ => ⟨viewed, hget, rfl⟩) (Nat.zero_le _)
    obtain ⟨target, htarget, hchildren⟩ := hlists hclass
    exact placed_iff hacyclic hfits hbase htarget hchildren
  constructor
  · intro h c hopens hclass
    obtain ⟨d, hpath, halike⟩ := exists_alike_of_opens hopens
    have hclass' : d.parentPath = [] := halike.parentPath.trans hclass
    refine halike.unshadowed_iff.mp ((hlists d hpath hclass').mp fun i n hn => ?_)
    refine (h _ (mem_flattenNodes_iff.mpr ⟨d, i, n, hpath, hn, rfl⟩) i ?_).2
    show d.parentPath ++ [i] = [i]
    rw [hclass', List.nil_append]
  · intro h row hrow i hi
    obtain ⟨d, k, n, hpath, hn, rfl⟩ := mem_flattenNodes_iff.mp hrow
    obtain ⟨hclass, hk⟩ : d.parentPath = [] ∧ k = i := by
      change d.parentPath ++ [k] = [] ++ [i] at hi
      obtain ⟨hparent, hlast⟩ := List.append_inj' hi rfl
      exact ⟨hparent, List.singleton_inj.mp hlast⟩
    subst hk
    have hopens : ReflTransGen (Opens v) (viewCall uuid viewed addr depthBudget) d :=
      ReflTransGen.mono (fun _ _ hsub => SubCall.opens hsub) _ _ hpath
    exact ⟨enclosed_of_path hpath hclass, (hlists d hpath hclass).mpr (h d hopens hclass) k n hn⟩

end Walk

section Graph
attribute [local instance] hyphenatedText asciiTables

def vertex : ClassNode := ⟨⟨1⟩, "Vertex", "", "", [.pointer "out" "" (some ⟨2⟩)]⟩

def edge : ClassNode :=
  ⟨⟨2⟩, "Edge", "", "", [.classInstance "to" "" ⟨1⟩, .simple .int32 "weight" ""]⟩

/-- An edge embeds its vertex, which points to the next edge. -/
def graph : Project := ((Project.new "graph").addClass vertex).addClass edge

theorem graph_getClass {uuid : Uuid} {c : ClassNode} (h : graph.getClass uuid = some c) :
    uuid = ⟨2⟩ ∧ c = edge ∨ uuid = ⟨1⟩ ∧ c = vertex := by
  simp only [graph, Project.getClass_addClass, Project.getClass_new] at h
  split at h
  · exact .inl ⟨‹_›, (Option.some.inj h).symm⟩
  · split at h
    · exact .inr ⟨‹_›, (Option.some.inj h).symm⟩
    · simp at h

theorem graph_acyclic : (store graph).Acyclic := by
  refine Store.acyclic_of_rank _ (fun uuid => if uuid = ⟨2⟩ then 1 else 0) fun a b hab => ?_
  obtain ⟨c, n, hget, hn, href⟩ := hab
  rcases graph_getClass hget with ⟨rfl, rfl⟩ | ⟨rfl, rfl⟩
  · have hb : b = ⟨1⟩ := by
      simp only [store, edge, List.mem_cons, List.not_mem_nil, or_false] at hn
      rcases hn with rfl | rfl <;> simp_all [store, embeds]
    rw [hb]
    decide
  · obtain rfl := List.mem_singleton.mp hn
    simp [store, embeds] at href

theorem exactSize_vertex : exactSize graph ∅ vertex.children = 8 := by
  have hexpand : (store graph).expand ∅ vertex.children =
      .leaf (.pointer "out" "" (some ⟨2⟩)) .nil := by
    show Store.expand _ ∅ [_] = _
    rw [Store.expand_plain _ rfl, Store.expand_nil]
  rw [exactSize, hexpand]
  decide

theorem exactSize_edge : exactSize graph ∅ edge.children = 12 := by
  have href : (store graph).ref (.classInstance "to" "" ⟨1⟩) = some ⟨1⟩ := rfl
  have hget : (store graph).get ⟨1⟩ = some vertex := rfl
  have hexpand : (store graph).expand ∅ edge.children =
      .item (.classInstance "to" "" ⟨1⟩) ⟨1⟩ vertex (.leaf (.pointer "out" "" (some ⟨2⟩)) .nil)
        (.leaf (.simple .int32 "weight" "") .nil) := by
    show Store.expand _ ∅ [_, _] = _
    rw [Store.expand_item _ href (by decide) hget, Store.expand_plain _ rfl, Store.expand_nil]
    show Expansion.item _ _ _ (Store.expand _ _ [_]) _ = _
    rw [Store.expand_plain _ rfl, Store.expand_nil]
  rw [exactSize, hexpand]
  decide

theorem graph_fits : Fits graph := by
  intro uuid c hget
  rcases graph_getClass hget with ⟨rfl, rfl⟩ | ⟨rfl, rfl⟩
  · rw [exactSize_edge]
    decide
  · rw [exactSize_vertex]
    decide

/-- The view of an edge with its vertex's pointer expanded. -/
def graphView : View where
  project := graph
  collapsed := ∅
  expandedPtrs := {"0.0"}
  derefBufs id := if id = "0.0" then some (4096, []) else none

theorem flattenNodes_layout_graph :
    (∀ row ∈ flattenNodes graphView (viewCall ⟨2⟩ edge 256 8), ∀ i, row.localPath = [i] →
      Enclosed graphView (viewCall ⟨2⟩ edge 256 8) row i ∧ Placed graphView row i) ↔
        ∀ c, ReflTransGen (Opens graphView) (viewCall ⟨2⟩ edge 256 8) c →
          c.parentPath = [] → Unshadowed graphView c :=
  flattenNodes_layout_iff graph_acyclic graph_fits rfl 256 8

/-- The edge behind the pointer embeds a vertex, which is open: its weight is shown at its first
byte, while the generators place it behind the eight bytes of the vertex. -/
theorem flattenNodes_hides_vertex : (store graph).Acyclic ∧ Fits graph ∧
    graph.getClass ⟨2⟩ = some edge ∧ ((resolveFields graph edge)[1]?.map (·.offset)) = some 8 ∧
      ∃ row ∈ flattenNodes graphView (viewCall ⟨2⟩ edge 256 8), row.idPath = "0.0.1" ∧
        row.localPath = [1] ∧ row.ownerClass = ⟨2⟩ ∧ row.within = (4096, 0) ∧ row.offset = 0 ∧
          row.address = 4096 := by
  let root := viewCall ⟨2⟩ edge 256 8
  let opened := root.opened 0 256 0 ⟨1⟩ vertex
  let behind := opened.opened 0 4096 0 ⟨2⟩ edge
  have hopened : SubCall graphView root opened :=
    ⟨0, _, rfl, .inlined ((inlined_eq_some graphView).mpr
      ⟨⟨1⟩, vertex, rfl, by decide +kernel, rfl, rfl⟩)⟩
  have hbehind : SubCall graphView opened behind :=
    ⟨0, _, rfl, .dereferenced ((dereferenced_eq_some graphView).mpr
      ⟨⟨2⟩, edge, 4096, [], rfl, by decide +kernel, rfl, rfl, rfl⟩)⟩
  -- The vertex is open below its own pointer.
  have hshadowed : viewSize graphView behind.visited (.classInstance "to" "" ⟨1⟩) = 0 :=
    (viewSize_eq graphView graph_acyclic _ _).1 ⟨⟨1⟩, by decide +kernel, rfl⟩
  have hoffset : offsetAt graphView behind 1 = 0 := by
    show wrappingAdd 0 (viewSize graphView behind.visited (.classInstance "to" "" ⟨1⟩)) = 0
    rw [hshadowed]
    rfl
  have hvertex : contributedSize graph (.classInstance "to" "" ⟨1⟩) = 8 := by
    have htarget : (store graphView.project).Acyclic := graph_acyclic
    have hget : graphView.project.getClass ⟨1⟩ = some vertex := rfl
    refine (contributedSize_target graphView htarget rfl hget).trans ?_
    rw [resolvedClassSize_eq]
    exact congrArg (min · usizeMax) exactSize_vertex
  have hfield := (resolveFields_layout graph edge).1 1
  refine ⟨graph_acyclic, graph_fits, rfl, ?_, rowAt graphView behind 1 (.simple .int32 "weight" ""),
    ?_, ?_⟩
  · rw [hfield]
    show some (saturatingAdd 0 (contributedSize graph (.classInstance "to" "" ⟨1⟩))) = some 8
    rw [hvertex]
    rfl
  · exact mem_flattenNodes_iff.mpr
      ⟨behind, 1, _, .tail (.single hopened) hbehind, rfl, rfl⟩
  · refine ⟨by decide +kernel, rfl, rfl, rfl, hoffset, ?_⟩
    show wrappingAdd 4096 (offsetAt graphView behind 1) = 4096
    rw [hoffset]
    rfl

end Graph

end Nemclass.Ui
