import Nemclass.Model.Registry

/-! What the registry reads back: a tree of built-in nodes from its definition,
and nothing from a definition that is too deep or has a tag it does not know. -/
namespace Nemclass.Model

/-- A run that draws nothing: it yields `a` within a limit, and reports the depth beyond it. -/
structure Limited {α : Type} (m : Draws α) (within : Prop) (a : α) : Prop where
  ok : within → ∀ s, m.run s = .ok (a, s)
  error : ¬ within → ∀ s, m.run s = .error (.maxDepthExceeded maxNodeDepth)

namespace Limited
variable {α β : Type} {m : Draws α} {f : α → Draws β} {P Q : Prop} {a : α} {b : β}

theorem pure (a : α) : Limited (Pure.pure a) True a := ⟨fun _ _ => rfl, fun h => absurd trivial h⟩

theorem bind (hm : Limited m P a) (hf : Limited (f a) Q b) : Limited (m >>= f) (P ∧ Q) b where
  ok h s := by
    change (m.run s >>= fun x => (f x.1).run x.2) = _
    rw [hm.ok h.1]
    exact hf.ok h.2 s
  error h s := by
    change (m.run s >>= fun x => (f x.1).run x.2) = _
    by_cases hP : P
    · rw [hm.ok hP]
      exact hf.error (fun hQ => h ⟨hP, hQ⟩) s
    · rw [hm.error hP]
      rfl

theorem congr (hm : Limited m P a) (h : P ↔ Q) : Limited m Q a :=
  ⟨fun hQ => hm.ok (h.mpr hQ), fun hQ => hm.error (mt h.mp hQ)⟩

theorem map (hm : Limited m P a) (g : α → β) : Limited (m >>= fun x => Pure.pure (g x)) P (g a) :=
  (hm.bind (Limited.pure (g a))).congr (iff_of_eq (and_true P))

end Limited

section RoundTrip
variable [library : UuidLibrary]

mutual

theorem height_serialize : (n : Node) → (serializeNodeRecursive n).height = n.height
  | .vTable _ _ children | .cls _ _ _ _ children => by
    rw [serializeNodeRecursive, NodeDef.height_eq, Node.height, heights_serialize children]
  | .simple .. | .pointer .. | .classInstance .. | .malformedInstance .. | .array ..
  | .utf8Text .. | .utf16Text .. | .vector .. | .matrix .. | .function .. => by
    simp [serializeNodeRecursive, NodeDef.height_eq, Node.toNodeDef, NodeDef.heights, Node.height]

theorem heights_serialize : (ns : List Node) → NodeDef.heights (serializeNodes ns) = Node.heights ns
  | [] => rfl
  | n :: ns => by
    rw [serializeNodes, NodeDef.heights, Node.heights, height_serialize n, heights_serialize ns]

end

theorem serializeNodes_eq_map (ns : List Node) :
    serializeNodes ns = ns.map serializeNodeRecursive := by
  induction ns with
  | nil => rfl
  | cons n ns ih => rw [serializeNodes, List.map_cons, ih]

/-- A leaf is read back from its own definition. -/
theorem lookup_leaf {n : Node} (h : n.BuiltIn) (hn : ¬ n.IsContainer) :
    ∃ de, builtins.lookup n.typeTag = some (.leaf de) ∧ de n.toNodeDef = n := by
  cases n with
  | simple kind name comment => cases kind <;> exact ⟨_, rfl, rfl⟩
  | pointer name comment target =>
    refine ⟨_, rfl, ?_⟩
    cases target with
    | none => rfl
    | some uuid =>
      change Node.pointer name comment (Uuid.parse uuid.toString) = _
      rw [Uuid.parse_toString]
  | classInstance name comment uuid =>
    refine ⟨_, rfl, ?_⟩
    change Node.classInstance name comment ((Uuid.parse uuid.toString).getD Uuid.nil) = _
    rw [Uuid.parse_toString, Option.getD_some]
  | malformedInstance => exact h.elim
  | array name comment count elementSize =>
    refine ⟨_, rfl, ?_⟩
    change Node.array name comment count.toInt64.toUInt64 elementSize.toInt64.toUInt64 = _
    rw [UInt64.toUInt64_toInt64, UInt64.toUInt64_toInt64]
  | utf8Text name comment length =>
    refine ⟨_, rfl, ?_⟩
    change Node.utf8Text name comment length.toInt64.toUInt64 = _
    rw [UInt64.toUInt64_toInt64]
  | utf16Text name comment length =>
    refine ⟨_, rfl, ?_⟩
    change Node.utf16Text name comment length.toInt64.toUInt64 = _
    rw [UInt64.toUInt64_toInt64]
  | vector name comment size width => cases size <;> cases width <;> exact ⟨_, rfl, rfl⟩
  | matrix name comment size width => cases size <;> cases width <;> exact ⟨_, rfl, rfl⟩
  | function => exact ⟨_, rfl, rfl⟩
  | vTable | cls => exact absurd trivial hn

theorem deserializeNodeInner_leaf {d : NodeDef} {de : NodeDef → Node}
    (h : builtins.lookup d.typeTag = some (.leaf de)) (s : ℕ) :
    (deserializeNodeInner d).run s = .ok (de d, s) := by
  obtain ⟨typeTag, name, comment, attrs, nodes⟩ := d
  rw [deserializeNodeInner, show builtins.lookup typeTag = _ from h]
  rfl

theorem serialize_leaf {n : Node} (hn : ¬ n.IsContainer) :
    serializeNodeRecursive n = n.toNodeDef := by
  cases n with
  | vTable | cls => exact absurd trivial hn
  | _ => rw [serializeNodeRecursive] <;> exact fun _ _ _ => by simp

theorem deserialize_leaf {n : Node} (h : n.BuiltIn) (hn : ¬ n.IsContainer) (s : ℕ) :
    (deserializeNodeInner (serializeNodeRecursive n)).run s = .ok (n, s) := by
  obtain ⟨de, hlookup, hde⟩ := lookup_leaf h hn
  rw [serialize_leaf hn, deserializeNodeInner_leaf hlookup, hde]

theorem deserializeNodeInner_vTable {name comment : String} {attrs : List (String × TomlValue)}
    {nodes : List NodeDef} {children : List Node} {s t : ℕ}
    (h : (deserializeNodes nodes).run s = .ok (children, t)) :
    (deserializeNodeInner ⟨"VTable", name, comment, attrs, nodes⟩).run s =
      .ok (.vTable name comment children, t) := by
  rw [deserializeNodeInner, show builtins.lookup "VTable" = some .vTable from rfl]
  simp only [StateT.run_bind, h]
  rfl

/-- An identifier that is written is read back, and none is drawn. -/
theorem classUuid_toString (u : Uuid) (s : ℕ) : (classUuid u.toString).run s = .ok (u, s) := by
  have hne : u.toString.isEmpty = false := by
    rw [← Bool.not_eq_true, String.isEmpty_iff]
    exact library.toString_ne u
  rw [classUuid, hne, Uuid.parse_toString]
  rfl

theorem deserializeNodeInner_cls {uuid : Uuid} {name comment addressFormula : String}
    {nodes : List NodeDef} {children : List Node} {s t : ℕ}
    (h : (deserializeNodes nodes).run s = .ok (children, t)) :
    (deserializeNodeInner ⟨"Class", name, comment,
      (Node.cls uuid name comment addressFormula []).attrs, nodes⟩).run s =
      .ok (.cls uuid name comment addressFormula children, t) := by
  rw [deserializeNodeInner, show builtins.lookup "Class" = some .cls from rfl]
  change ((classUuid uuid.toString).run s >>= _) = _
  rw [classUuid_toString]
  change ((deserializeNodes nodes).run s >>= _) = _
  rw [h]
  rfl

mutual

theorem deserialize_serialize : (n : Node) → n.BuiltIn → (s : ℕ) →
    (deserializeNodeInner (serializeNodeRecursive n)).run s = .ok (n, s)
  | .vTable _ _ children, h, s =>
    deserializeNodeInner_vTable (deserializeNodes_serializeNodes children h s)
  | .cls _ _ _ _ children, h, s =>
    deserializeNodeInner_cls (deserializeNodes_serializeNodes children h s)
  | .simple .., h, s | .pointer .., h, s | .classInstance .., h, s | .malformedInstance .., h, s
  | .array .., h, s | .utf8Text .., h, s | .utf16Text .., h, s | .vector .., h, s
  | .matrix .., h, s | .function .., h, s => deserialize_leaf h id s

theorem deserializeNodes_serializeNodes : (ns : List Node) → Node.AllBuiltIn ns → (s : ℕ) →
    (deserializeNodes (serializeNodes ns)).run s = .ok (ns, s)
  | [], _, _ => rfl
  | n :: ns, h, s => by
    rw [serializeNodes, deserializeNodes]
    simp only [StateT.run_bind, deserialize_serialize n h.1 s]
    change ((deserializeNodes (serializeNodes ns)).run s >>= _) = _
    rw [deserializeNodes_serializeNodes ns h.2 s]
    rfl

end

/-- An identifier library that writes the hyphenated form. -/
@[reducible] def hyphenatedLibrary : UuidLibrary where
  toUuidText := hyphenatedText
  toString_ne u h := by
    have hlist : (hyphenated u).toList = [] := by rw [show hyphenated u = "" from h]; rfl
    rw [hyphenated, String.toList_ofList] at hlist
    simp [hyphenate] at hlist
  parseError s := s!"invalid length: {s.length}"
  newV4 k := ⟨BitVec.ofNat 128 (0x40008000000000000000 + k)⟩

/-! ## What is rejected -/

/-- The definitions that are turned into nodes: children are read below the two containers. -/
inductive Materialised (d : NodeDef) : NodeDef → Prop
  | root : Materialised d d
  | child {x c : NodeDef} : Materialised d x → x.typeTag = "VTable" ∨ x.typeTag = "Class" →
      c ∈ x.nodes → Materialised d c

/-- Some run reads the definition. -/
def Reads (d : NodeDef) : Prop := ∃ s n t, (deserializeNodeInner d).run s = .ok (n, t)

theorem reads_of_mem {ds : List NodeDef} {s t : ℕ} {ns : List Node}
    (h : (deserializeNodes ds).run s = .ok (ns, t)) : ∀ d ∈ ds, Reads d := by
  induction ds generalizing s t ns with
  | nil => simp
  | cons d ds ih =>
    rw [deserializeNodes] at h
    obtain ⟨x, hd, hrest⟩ := run_bind_ok h
    obtain ⟨y, hds, -⟩ := run_bind_ok hrest
    exact List.forall_mem_cons.mpr ⟨⟨s, x.1, x.2, hd⟩, ih hds⟩

theorem reads_child {d c : NodeDef} (h : Reads d)
    (htag : d.typeTag = "VTable" ∨ d.typeTag = "Class") (hc : c ∈ d.nodes) : Reads c := by
  obtain ⟨s, n, t, hok⟩ := h
  obtain ⟨typeTag, name, comment, attrs, nodes⟩ := d
  have hread : ∃ s' ns t', (deserializeNodes nodes).run s' = .ok (ns, t') := by
    rw [deserializeNodeInner] at hok
    rcases htag with hv | hk
    · rw [show typeTag = "VTable" from hv, show builtins.lookup "VTable" = some .vTable from rfl]
        at hok
      obtain ⟨x, hx, -⟩ := run_bind_ok hok
      exact ⟨s, x.1, x.2, hx⟩
    · rw [show typeTag = "Class" from hk, show builtins.lookup "Class" = some .cls from rfl] at hok
      obtain ⟨u, -, hu⟩ := run_bind_ok hok
      obtain ⟨x, hx, -⟩ := run_bind_ok hu
      exact ⟨u.2, x.1, x.2, hx⟩
  obtain ⟨s', ns, t', hns⟩ := hread
  exact reads_of_mem hns c hc

theorem Materialised.reads {d x : NodeDef} (h : Materialised d x) (hd : Reads d) : Reads x := by
  induction h with
  | root => exact hd
  | child _ htag hc ih => exact reads_child ih htag hc

theorem not_reads_of_unknown {d : NodeDef} (h : builtins.lookup d.typeTag = none) : ¬ Reads d := by
  rintro ⟨s, n, t, hok⟩
  obtain ⟨typeTag, name, comment, attrs, nodes⟩ := d
  rw [deserializeNodeInner, show builtins.lookup typeTag = none from h] at hok
  cases hok

theorem deserializeNode_run (d : NodeDef) (s : ℕ) :
    (deserializeNode d).run s =
      if d.height ≤ maxNodeDepth then (deserializeNodeInner d).run s
      else .error (.maxDepthExceeded maxNodeDepth) := by
  rw [deserializeNode, NodeDef.checkNodeDepth_eq]
  split <;> rfl

theorem limited_deserializeNode {n : Node} (h : n.BuiltIn) :
    Limited (deserializeNode (serializeNodeRecursive n)) (n.height ≤ maxNodeDepth) n where
  ok hheight s := by
    rw [deserializeNode_run, height_serialize, if_pos hheight, deserialize_serialize n h]
  error hheight s := by rw [deserializeNode_run, height_serialize, if_neg hheight]

/-- A tree of built-in nodes that is not too deep is read back as it was, and a definition that is
too deep or holds an unknown tag where nodes are read is rejected. -/
theorem deserializeNode_roundTrip :
    (∀ (n : Node) (s : ℕ), n.BuiltIn → n.height ≤ 128 →
      (deserializeNode (serializeNodeRecursive n)).run s = .ok (n, s)) ∧
    (∀ (d : NodeDef) (s : ℕ), 128 < d.height →
      (deserializeNode d).run s = .error (.maxDepthExceeded 128)) ∧
    ∀ (d x : NodeDef) (s : ℕ), Materialised d x → builtins.lookup x.typeTag = none →
      ∃ e, (deserializeNode d).run s = .error e := by
  refine ⟨fun n s hn hheight => ?_, fun d s hheight => ?_, fun d x s hx hunknown => ?_⟩
  · exact (limited_deserializeNode hn).ok hheight s
  · exact (deserializeNode_run d s).trans (if_neg (Nat.not_le.mpr hheight))
  · rw [deserializeNode_run]
    split
    · cases hrun : (deserializeNodeInner d).run s with
      | error e => exact ⟨e, rfl⟩
      | ok y => exact absurd (hx.reads ⟨s, y.1, y.2, hrun⟩) (not_reads_of_unknown hunknown)
    · exact ⟨_, rfl⟩

end RoundTrip

/-- A class of a virtual table and a pointer to itself. -/
def sampleTree : Node :=
  .cls ⟨7⟩ "Player" "" "<game.exe>+0x10"
    [.vTable "vtable" "" [.simple .vMethod "Update" ""], .pointer "next" "" (some ⟨7⟩)]

/-- A virtual table whose only method has a tag of a newer version. -/
def newerDef : NodeDef := ⟨"VTable", "vtable", "", [], [⟨"VMethod2", "Update", "", [], []⟩]⟩

theorem deserializeNode_roundTrip_sampleTree :
    (@deserializeNode hyphenatedLibrary
      (@serializeNodeRecursive hyphenatedLibrary sampleTree)).run 0 = .ok (sampleTree, 0) ∧
    ∃ e, (@deserializeNode hyphenatedLibrary newerDef).run 0 = .error e := by
  have hread := @deserializeNode_roundTrip hyphenatedLibrary
  have hbuilt : sampleTree.BuiltIn := by simp [sampleTree, Node.BuiltIn, Node.AllBuiltIn]
  have hbelow : Materialised newerDef ⟨"VMethod2", "Update", "", [], []⟩ :=
    .child .root (.inl rfl) List.mem_cons_self
  exact ⟨hread.1 sampleTree 0 hbuilt (by decide), hread.2.2 newerDef _ 0 hbelow rfl⟩

end Nemclass.Model
