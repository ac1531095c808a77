import Nemclass.Address.Interpreter
import Nemclass.Codegen.ClassSize
import Nemclass.Codegen.EditedSize
import Nemclass.Codegen.Fields
import Nemclass.Model.Construct
import Nemclass.Scan.PathFormula

/-! `classes.addNodeAt` of the host interface: a field put at an offset of a class. The walk over
the children counts their own sizes, in which an embedded class is empty. -/
namespace Nemclass.Ui
open Usize Model Codegen Scan Address Expand

/-- The sizes that a gap is filled with, the largest first. -/
def hexTags : List (String × ℕ) := [("Hex64", 8), ("Hex32", 4), ("Hex16", 2), ("Hex8", 1)]

/-- Of each size as many nodes as fit what is left. -/
def fillWith (construct : String → Option Node) : ℕ → List (String × ℕ) → List Node
  | _, [] => []
  | gap, (tag, size) :: rest =>
    if gap < size then fillWith construct gap rest
    else
      match construct tag with
      | some n => List.replicate (gap / size) n ++ fillWith construct (gap % size) rest
      | none => []

def hexFill (fresh : Uuid) (gap : ℕ) : List Node := fillWith (construct fresh) gap hexTags

/-- The arguments of the call as read off its values. -/
structure AddNodeArgs where
  key : String
  offset : UInt64
  ty : String
  name : Option String
  comment : Option String

/-- The new node under the name and the comment of the call. -/
def AddNodeArgs.named (args : AddNodeArgs) (node : Node) : Node :=
  let node := args.name.elim node fun name => node.setName name
  args.comment.elim node fun comment => node.setComment comment

/-- A class by its identifier, or else the first of that name. -/
def findClassUuid [UuidText] (p : Project) (key : String) : Option Uuid :=
  match (Uuid.parse key).filter fun uuid => (p.getClass uuid).isSome with
  | some uuid => some uuid
  | none => (p.classesInOrder.find? fun c => eqIgnoreAsciiCase c.name key).map ClassNode.uuid

/-- Where an offset lies among the children: inside one, at the start of one, or past all. -/
inductive Slot where
  | inside
  | before (i : ℕ)
  | atEnd (cursor : ℕ)

/-- The walk; `cursor` is where child `i` starts. -/
def slotFrom (offset cursor i : ℕ) : List Node → Slot
  | [] => if offset < cursor then .inside else .atEnd cursor
  | child :: rest =>
    if cursor = offset then .before i
    else if offset < cursor then .inside
    else slotFrom offset (saturatingAdd cursor child.memorySize) (i + 1) rest

/-- The reply and the project afterwards; none where the class found is not in the map. Arguments
that cannot be read are an error before all else. -/
def addNodeAt [UuidText] (p : Project) (fresh : Uuid) (args : Except String AddNodeArgs) :
    Option (Except String Bool × Project) :=
  match args with
  | .error e => some (.error e, p)
  | .ok args =>
    match findClassUuid p args.key with
    | none => some (.ok false, p)
    | some uuid =>
      match construct fresh args.ty with
      | none => some (.error ("unknown node type: " ++ args.ty), p)
      | some node => do
        let node := args.named node
        let offset := args.offset.toNat
        let c ← p.getClass uuid
        match slotFrom offset 0 0 c.children with
        | .inside =>
          some (.error ("offset " ++ lowerHex offset ++ " falls inside an existing field"), p)
        | .before i =>
          let children := c.children.insertIdx i node
          some (.ok true, p.updateClass uuid fun _ => { c with children })
        | .atEnd cursor =>
          let children := c.children ++ hexFill fresh (offset - cursor) ++ [node]
          some (.ok true, p.updateClass uuid fun _ => { c with children })

section Fill

theorem fillWith_sum {construct : String → Option Node} {tag : String} {size : ℕ} {n : Node}
    (hn : construct tag = some n) (hsize : n.memorySize = size) (gap : ℕ)
    (rest : List (String × ℕ)) :
    ((fillWith construct gap ((tag, size) :: rest)).map Node.memorySize).sum =
      gap / size * size + ((fillWith construct (gap % size) rest).map Node.memorySize).sum := by
  rw [fillWith]
  split
  · next hlt => rw [Nat.div_eq_of_lt hlt, Nat.mod_eq_of_lt hlt, Nat.zero_mul, Nat.zero_add]
  · simp [hn, hsize]

/-- The nodes fill the gap exactly. -/
theorem hexFill_sum (fresh : Uuid) (gap : ℕ) :
    ((hexFill fresh gap).map Node.memorySize).sum = gap := by
  rw [hexFill, hexTags, fillWith_sum rfl (by rw [Node.memorySize]; rfl),
    fillWith_sum rfl (by rw [Node.memorySize]; rfl),
    fillWith_sum rfl (by rw [Node.memorySize]; rfl),
    fillWith_sum rfl (by rw [Node.memorySize]; rfl), fillWith, List.map_nil, List.sum_nil]
  omega

theorem mem_fillWith {construct : String → Option Node} {gap : ℕ} {tags : List (String × ℕ)}
    {n : Node} (h : n ∈ fillWith construct gap tags) :
    ∃ tag ∈ tags.map Prod.fst, construct tag = some n := by
  fun_induction fillWith construct gap tags with
  | case1 => cases h
  | case2 gap tag size rest hlt ih =>
    obtain ⟨tag', hmem, hn⟩ := ih h
    exact ⟨tag', List.mem_cons_of_mem tag hmem, hn⟩
  | case3 gap tag size rest hle m hm ih =>
    rcases List.mem_append.mp h with h | h
    · rw [List.eq_of_mem_replicate h]
      exact ⟨tag, List.mem_cons_self, hm⟩
    · obtain ⟨tag', hmem, hn⟩ := ih h
      exact ⟨tag', List.mem_cons_of_mem tag hmem, hn⟩
  | case4 => cases h

/-- A padding node. -/
def IsHex (n : Node) : Prop :=
  n = .simple .hex64 "" "" ∨ n = .simple .hex32 "" "" ∨ n = .simple .hex16 "" "" ∨
    n = .simple .hex8 "" ""

theorem isHex_hexFill {fresh : Uuid} {gap : ℕ} {n : Node} (h : n ∈ hexFill fresh gap) :
    IsHex n := by
  obtain ⟨tag, hmem, hn⟩ := mem_fillWith h
  simp only [hexTags, List.map_cons, List.map_nil, List.mem_cons, List.not_mem_nil, or_false]
    at hmem
  rcases hmem with rfl | rfl | rfl | rfl <;> cases hn <;> simp [IsHex]

theorem IsHex.embeds_eq {n : Node} (h : IsHex n) : embeds n = none := by
  rcases h with rfl | rfl | rfl | rfl <;> rfl

end Fill

section Walk

/-- The children that start below the offset, by their own sizes. -/
def fieldsBelow (offset cursor : ℕ) : List Node → List Node
  | [] => []
  | n :: ns =>
    if cursor < offset then n :: fieldsBelow offset (saturatingAdd cursor n.memorySize) ns else []

/-- Where these end. -/
def endBelow (offset cursor : ℕ) (ns : List Node) : ℕ :=
  saturatingFold cursor ((fieldsBelow offset cursor ns).map Node.memorySize)

/-- Something below the offset keeps the offset from being 0. -/
theorem pos_of_mem_fieldsBelow {offset : ℕ} {n : Node} {ns : List Node}
    (h : n ∈ fieldsBelow offset 0 ns) : 0 < offset := by
  cases ns with
  | nil => cases h
  | cons m ns =>
    rw [fieldsBelow] at h
    split at h
    · assumption
    · cases h

theorem fieldsBelow_begins (offset cursor : ℕ) (ns : List Node) :
    fieldsBelow offset cursor ns <+: ns := by
  fun_induction fieldsBelow offset cursor ns with
  | case1 => exact List.prefix_rfl
  | case2 cursor n ns hlt ih => exact (List.prefix_cons_inj n).mpr ih
  | case3 => exact List.nil_prefix

/-- The walk stops before the end only at a child that starts at the offset or past it. -/
theorem le_endBelow {offset cursor : ℕ} {ns : List Node}
    (h : (fieldsBelow offset cursor ns).length < ns.length) : offset ≤ endBelow offset cursor ns := by
  unfold endBelow
  fun_induction fieldsBelow offset cursor ns with
  | case1 => exact absurd h (Nat.lt_irrefl 0)
  | case2 cursor n ns hlt ih =>
    rw [List.map_cons, saturatingFold_cons]
    exact ih (Nat.lt_of_succ_lt_succ h)
  | case3 cursor n ns hle => exact Nat.le_of_not_lt hle

theorem slotFrom_eq (offset cursor i : ℕ) (ns : List Node) : slotFrom offset cursor i ns =
    if (fieldsBelow offset cursor ns).length < ns.length then
      if endBelow offset cursor ns = offset then
        .before (i + (fieldsBelow offset cursor ns).length)
      else .inside
    else if offset < endBelow offset cursor ns then .inside
    else .atEnd (endBelow offset cursor ns) := by
  unfold endBelow
  induction ns generalizing cursor i with
  | nil => rfl
  | cons n ns ih =>
    rw [slotFrom, fieldsBelow]
    by_cases hlt : cursor < offset
    · rw [if_neg (by omega), if_neg (by omega), if_pos hlt, ih, List.map_cons, saturatingFold_cons]
      simp only [List.length_cons, Nat.add_lt_add_iff_right, Nat.add_assoc, Nat.add_comm 1]
    · have hlen : ([] : List Node).length < (n :: ns).length := Nat.succ_pos ns.length
      rw [if_neg hlt, List.map_nil, saturatingFold_nil, if_pos hlen]
      split
      · rfl
      · rw [if_pos (by omega)]

theorem insertIdx_begins {α : Type} {l₁ l : List α} (h : l₁ <+: l) (x : α) :
    l.insertIdx l₁.length x = l₁ ++ x :: l.drop l₁.length := by
  obtain ⟨l₂, rfl⟩ := h
  rw [List.drop_left]
  exact List.modifyTailIdx_add (List.cons x) 0 l₁ l₂

/-- The offset is where a child starts, or past all of them. -/
def Free (offset : ℕ) (c : ClassNode) : Prop :=
  endBelow offset 0 c.children ≤ offset ∧
    ((fieldsBelow offset 0 c.children).length < c.children.length →
      endBelow offset 0 c.children = offset)

/-- The nodes that the gap before the new field takes. -/
def padding (fresh : Uuid) (offset : ℕ) (c : ClassNode) : List Node :=
  hexFill fresh (offset - endBelow offset 0 c.children)

/-- The children with the new field and the padding before it. -/
def placedChildren (fresh : Uuid) (offset : ℕ) (node : Node) (c : ClassNode) : List Node :=
  fieldsBelow offset 0 c.children ++ padding fresh offset c ++
    node :: c.children.drop (fieldsBelow offset 0 c.children).length

section Children
variable {c : ClassNode} (fresh : Uuid) {offset : ℕ} (node : Node)

/-- The class with the field placed. -/
def placed (fresh : Uuid) (offset : ℕ) (node : Node) (c : ClassNode) : ClassNode :=
  { c with children := placedChildren fresh offset node c }

theorem take_children {i : ℕ} (h : i ≤ (fieldsBelow offset 0 c.children).length) :
    c.children.take i = (fieldsBelow offset 0 c.children).take i := by
  obtain ⟨rest, hrest⟩ := fieldsBelow_begins offset 0 c.children
  rw [← List.take_append_of_le_length h, hrest]

theorem take_placed {i : ℕ} (h : i ≤ (fieldsBelow offset 0 c.children).length) :
    (placed fresh offset node c).children.take i = c.children.take i := by
  rw [take_children h]
  show (placedChildren fresh offset node c).take i = _
  rw [placedChildren, List.append_assoc, List.take_append_of_le_length h]

theorem getElem?_placed {i : ℕ} (h : i < (fieldsBelow offset 0 c.children).length) :
    (placed fresh offset node c).children[i]? = c.children[i]? := by
  have htake := take_placed fresh node (Nat.succ_le_of_lt h)
  rw [← List.getElem?_take_of_lt (Nat.lt_succ_self i), htake,
    List.getElem?_take_of_lt (Nat.lt_succ_self i)]

/-- The own sizes of the fields below the offset and of the padding reach the offset. -/
theorem offset_le_own (hfree : Free offset c) : offset ≤
    ((fieldsBelow offset 0 c.children).map Node.memorySize).sum +
      ((padding fresh offset c).map Node.memorySize).sum := by
  have hend := hfree.1
  rw [padding, hexFill_sum]
  rw [endBelow, saturatingFold_zero] at hend ⊢
  omega

end Children

variable [UuidText] {p : Project} {fresh : Uuid} {args : AddNodeArgs} {uuid : Uuid}
  {node : Node} {c : ClassNode}

/-- A call on a class that is there places the field where it is free. -/
theorem addNodeAt_eq (hfind : findClassUuid p args.key = some uuid)
    (hnode : construct fresh args.ty = some node) (hget : p.getClass uuid = some c) :
    Free args.offset.toNat c ∧ addNodeAt p fresh (.ok args) = some (.ok true,
        p.updateClass uuid fun _ => placed fresh args.offset.toNat (args.named node) c) ∨
      ¬ Free args.offset.toNat c ∧ ∃ e, addNodeAt p fresh (.ok args) = some (.error e, p) := by
  have hslot := slotFrom_eq args.offset.toNat 0 0 c.children
  have hbegins := fieldsBelow_begins args.offset.toNat 0 c.children
  rw [addNodeAt, hfind]
  simp only [hnode, hget, Option.bind_eq_bind, Option.bind_some]
  unfold Free placed placedChildren padding
  split at hslot
  · next hlt =>
    split at hslot
    · next hend =>
      refine .inl ⟨⟨hend.le, fun _ => hend⟩, ?_⟩
      have hnone : hexFill fresh 0 = [] := by simp [hexFill, hexTags, fillWith]
      rw [hslot, hend, Nat.sub_self, hnone, List.append_nil, Nat.zero_add]
      simp only [insertIdx_begins hbegins]
    · next hend => exact .inr ⟨fun hfree => hend (hfree.2 hlt), _, by rw [hslot]⟩
  · next hle =>
    split at hslot
    · next hlt => exact .inr ⟨fun hfree => absurd hfree.1 (by omega), _, by rw [hslot]⟩
    · next hend =>
      refine .inl ⟨⟨Nat.le_of_not_lt hend, fun hlt => absurd hlt hle⟩, ?_⟩
      have hall : fieldsBelow args.offset.toNat 0 c.children = c.children :=
        hbegins.eq_of_length_le (Nat.le_of_not_lt hle)
      rw [hslot, hall, List.drop_length]

end Walk

section Layout
variable [UuidText] [UnicodeTables]

/-- Where a field of a class starts in the resolved layout. -/
def fieldStart (p : Project) (c : ClassNode) (i : ℕ) : Option ℕ :=
  (resolveFields p c)[i]?.map FieldInfo.offset

theorem fieldStart_eq (p : Project) (c : ClassNode) (i : ℕ) : fieldStart p c i =
    c.children[i]?.map fun _ => min ((c.children.take i).map (contributedSize p)).sum usizeMax := by
  rw [fieldStart, (resolveFields_layout p c).1 i, Option.map_map, saturatingFold_zero]
  rfl

/-- The new field starts at the offset, the padding before it is hexadecimal fields, and what
started below the offset starts where it did. -/
structure PlacedAt (p p' : Project) (c c' : ClassNode) (offset : ℕ) (pads : List Node)
    (node : Node) : Prop where
  children : c'.children = fieldsBelow offset 0 c.children ++ pads ++
    node :: c.children.drop (fieldsBelow offset 0 c.children).length
  hex : ∀ n ∈ pads, IsHex n
  starts : fieldStart p' c' ((fieldsBelow offset 0 c.children).length + pads.length) = some offset
  keeps : ∀ i start, fieldStart p c i = some start → start < offset →
    fieldStart p' c' i = some start

/-- What a call promises: an error changes nothing, and a field is placed where it was asked. -/
def AddsInPlace (p : Project) (fresh : Uuid) (args : Except String AddNodeArgs) : Prop :=
  ∀ reply p', addNodeAt p fresh args = some (reply, p') →
    (∀ e, reply = .error e → p' = p) ∧
    (reply = .ok true → ∃ a uuid c c' node pads, args = .ok a ∧
      findClassUuid p a.key = some uuid ∧ construct fresh a.ty = some node ∧
      p.getClass uuid = some c ∧ p'.getClass uuid = some c' ∧
      PlacedAt p p' c c' a.offset.toNat pads (a.named node))

/-- Below the offset nothing embedded counts, and nothing embeds the class itself; at the largest
offset, no embed of the class itself stands before a field with an offset of its own. -/
def EmbedsClear (p : Project) (uuid : Uuid) (c : ClassNode) (offset : ℕ) : Prop :=
  (offset < usizeMax ∧ ∀ n ∈ fieldsBelow offset 0 c.children, (embeds n).isSome = true →
    contributedSize p n = 0 ∧ ¬ Reaches p uuid n) ∨
  (offset = usizeMax ∧ ∀ i start, fieldStart p c i = some start → start < usizeMax →
    ∀ n ∈ c.children.take i, ¬ Reaches p uuid n)

/-- What starts below the offset in the resolved layout starts below it by the own sizes. -/
theorem lt_of_fieldStart_lt {p : Project} {c : ClassNode} {offset i start : ℕ}
    (h : fieldStart p c i = some start) (hlt : start < offset) :
    i < (fieldsBelow offset 0 c.children).length := by
  by_contra hle
  rw [fieldStart_eq] at h
  obtain ⟨n, hn, rfl⟩ := Option.map_eq_some_iff.mp h
  obtain ⟨hi, -⟩ := List.getElem?_eq_some_iff.mp hn
  have hend : offset ≤ endBelow offset 0 c.children := le_endBelow (by omega)
  have hbegins : fieldsBelow offset 0 c.children <+: c.children.take i :=
    List.prefix_take_iff.mpr ⟨fieldsBelow_begins offset 0 c.children, by omega⟩
  have hsum := (hbegins.sublist.map (contributedSize p)).sum_le_sum fun _ _ => Nat.zero_le _
  have hown := sum_embeds (w := contributedSize p) (fun _ => contributedSize_plain p)
    (fieldsBelow offset 0 c.children)
  rw [endBelow, saturatingFold_zero] at hend
  omega

section Placed
variable {p : Project} {uuid : Uuid} {c : ClassNode} (fresh : Uuid) {offset : ℕ} (node : Node)

/-- A field with no embed of the edited class before it stays where it is. -/
theorem fieldStart_kept {i : ℕ} (h : i < (fieldsBelow offset 0 c.children).length)
    (hclear : ∀ n ∈ c.children.take i, ¬ Reaches p uuid n) :
    fieldStart (p.updateClass uuid fun _ => placed fresh offset node c)
      (placed fresh offset node c) i = fieldStart p c i := by
  rw [fieldStart_eq, fieldStart_eq, getElem?_placed fresh node h, take_placed fresh node h.le]
  rw [List.map_congr_left fun n hn => contributedSize_kept (hclear n hn)]

omit [UnicodeTables] in
/-- An embed of the edited class grows past the offset. -/
theorem offset_le_contributedSize (hget : p.getClass uuid = some c) (hfree : Free offset c)
    (hmax : offset ≤ usizeMax) {n : Node} (h : Reaches p uuid n) :
    offset ≤ contributedSize (p.updateClass uuid fun _ => placed fresh offset node c) n := by
  have hgrown := contributedSize_grown (f := fun _ => placed fresh offset node c) h hget
  have hown := offset_le_own fresh hfree
  have hsum : ((placed fresh offset node c).children.map Node.memorySize).sum =
      ((fieldsBelow offset 0 c.children).map Node.memorySize).sum +
        ((padding fresh offset c).map Node.memorySize).sum +
        ((node :: c.children.drop (fieldsBelow offset 0 c.children).length).map
          Node.memorySize).sum := by
    show ((placedChildren fresh offset node c).map Node.memorySize).sum = _
    rw [placedChildren, List.map_append, List.sum_append, List.map_append, List.sum_append]
  rw [hsum] at hgrown
  omega

/-- The new field starts past what is below the offset and the padding. -/
theorem fieldStart_new (hfree : Free offset c) (hmax : offset ≤ usizeMax) :
    fieldStart (p.updateClass uuid fun _ => placed fresh offset node c)
      (placed fresh offset node c)
      ((fieldsBelow offset 0 c.children).length + (padding fresh offset c).length) = some offset ↔
    offset = usizeMax ∨ ∀ n ∈ fieldsBelow offset 0 c.children, (embeds n).isSome = true →
      contributedSize (p.updateClass uuid fun _ => placed fresh offset node c) n = 0 := by
  generalize hp' : (p.updateClass uuid fun _ => placed fresh offset node c) = p'
  have hpads : (padding fresh offset c).map (contributedSize p') =
      (padding fresh offset c).map Node.memorySize :=
    List.map_congr_left fun n hn => contributedSize_plain p' (isHex_hexFill hn).embeds_eq
  have hchildren : (placed fresh offset node c).children =
      (fieldsBelow offset 0 c.children ++ padding fresh offset c) ++
        node :: c.children.drop (fieldsBelow offset 0 c.children).length := rfl
  have hown := sum_embeds (w := contributedSize p') (fun _ => contributedSize_plain p')
    (fieldsBelow offset 0 c.children)
  have hzero : (((fieldsBelow offset 0 c.children).filter fun n => (embeds n).isSome).map
      (contributedSize p')).sum = 0 ↔ ∀ n ∈ fieldsBelow offset 0 c.children,
        (embeds n).isSome = true → contributedSize p' n = 0 := by
    rw [List.sum_eq_zero_iff, List.forall_mem_map]
    simp only [List.mem_filter, and_imp]
  have hpadded := hexFill_sum fresh (offset - endBelow offset 0 c.children)
  have hend := hfree.1
  rw [fieldStart_eq, ← List.length_append, hchildren, List.getElem?_append_right le_rfl,
    Nat.sub_self, List.getElem?_cons_zero, Option.map_some, List.take_left, List.map_append,
    List.sum_append, hpads, hown, ← hzero, padding, hpadded, Option.some.injEq]
  rw [endBelow, saturatingFold_zero] at hend ⊢
  omega

/-- Where the offset is free, the field is placed as asked exactly when the embeds are clear. -/
theorem placedAt_iff (hget : p.getClass uuid = some c) (hfree : Free offset c)
    (hmax : offset ≤ usizeMax) :
    PlacedAt p (p.updateClass uuid fun _ => placed fresh offset node c) c
      (placed fresh offset node c) offset (padding fresh offset c) node ↔
    EmbedsClear p uuid c offset := by
  have hnew := @fieldStart_new _ _ p uuid c fresh offset node hfree hmax
  have hgrown (n : Node) := offset_le_contributedSize (n := n) fresh node hget hfree hmax
  constructor
  · rintro ⟨-, -, hstarts, hkeeps⟩
    rcases Nat.lt_or_eq_of_le hmax with hlt | heq
    · have hzero := (hnew.mp hstarts).resolve_left hlt.ne
      refine .inl ⟨hlt, fun n hn hembeds => ?_⟩
      have hpos := pos_of_mem_fieldsBelow hn
      have hout : ¬ Reaches p uuid n := by
        intro hreaches
        have := hgrown n hreaches
        have := hzero n hn hembeds
        omega
      exact ⟨(contributedSize_kept hout).symm.trans (hzero n hn hembeds), hout⟩
    · refine .inr ⟨heq, fun i start hstart hlt n hn hreaches => ?_⟩
      have hi := lt_of_fieldStart_lt hstart (heq ▸ hlt)
      have hkept := hkeeps i start hstart (heq ▸ hlt)
      rw [fieldStart_eq, take_placed fresh node hi.le] at hkept
      obtain ⟨-, -, hsum⟩ := Option.map_eq_some_iff.mp hkept
      have hmem := List.mem_map_of_mem (f := contributedSize
        (p.updateClass uuid fun _ => placed fresh offset node c)) hn
      have hle := List.single_le_sum (fun _ _ => Nat.zero_le _) _ hmem
      have := hgrown n hreaches
      omega
  · intro hclear
    have hbefore (i start : ℕ) (hstart : fieldStart p c i = some start) (hlt : start < offset) :
        ∀ n ∈ c.children.take i, ¬ Reaches p uuid n := by
      rcases hclear with ⟨-, hclear⟩ | ⟨heq, hclear⟩
      · intro n hn hreaches
        have hi := lt_of_fieldStart_lt hstart hlt
        obtain ⟨target, href, -⟩ := id hreaches
        rw [take_children hi.le] at hn
        exact (hclear n (List.mem_of_mem_take hn) (by rw [href]; rfl)).2 hreaches
      · exact hclear i start hstart (heq ▸ hlt)
    refine ⟨rfl, fun n hn => isHex_hexFill hn, hnew.mpr ?_, fun i start hstart hlt => ?_⟩
    · refine hclear.symm.imp And.left fun ⟨_, hclear⟩ n hn hembeds => ?_
      obtain ⟨hzero, hout⟩ := hclear n hn hembeds
      rw [contributedSize_kept hout, hzero]
    · rw [fieldStart_kept fresh node (lt_of_fieldStart_lt hstart hlt)
        (hbefore i start hstart hlt), hstart]

end Placed

/-- A call keeps its promise exactly when the embeds are clear wherever a field is placed. -/
theorem addNodeAt_inPlace_iff (p : Project) (fresh : Uuid) (args : Except String AddNodeArgs) :
    AddsInPlace p fresh args ↔ ∀ a uuid c, args = .ok a → findClassUuid p a.key = some uuid →
      (construct fresh a.ty).isSome = true → p.getClass uuid = some c →
      Free a.offset.toNat c → EmbedsClear p uuid c a.offset.toNat := by
  constructor
  · rintro h a uuid c rfl hfind hsome hget hfree
    obtain ⟨node, hnode⟩ := Option.isSome_iff_exists.mp hsome
    obtain ⟨-, hcall⟩ | ⟨hnot, -⟩ := addNodeAt_eq hfind hnode hget
    · obtain ⟨a', uuid', c₀, c', node', pads, ha, hfind', hnode', hget', hedited, hplaced⟩ :=
        (h _ _ hcall).2 rfl
      obtain rfl := Except.ok.inj ha
      obtain rfl := Option.some.inj (hfind.symm.trans hfind')
      obtain rfl := Option.some.inj (hnode.symm.trans hnode')
      obtain rfl := Option.some.inj (hget.symm.trans hget')
      rw [getClass_updateClass, hget, Option.map_some, Option.some.injEq] at hedited
      subst hedited
      have hpads : pads = padding fresh a.offset.toNat c :=
        List.append_cancel_left (List.append_cancel_right hplaced.children).symm
      rw [hpads] at hplaced
      exact (placedAt_iff fresh _ hget hfree (Nat.le_of_lt_succ a.offset.toNat_lt)).mp hplaced
    · exact absurd hfree hnot
  · intro h reply p' hcall
    match args with
    | .error e =>
      cases hcall
      exact ⟨fun _ _ => rfl, nofun⟩
    | .ok a =>
      cases hfind : findClassUuid p a.key with
      | none =>
        rw [addNodeAt, hfind] at hcall
        cases hcall
        exact ⟨fun _ _ => rfl, nofun⟩
      | some uuid =>
        cases hnode : construct fresh a.ty with
        | none =>
          simp only [addNodeAt, hfind, hnode] at hcall
          cases hcall
          exact ⟨fun _ _ => rfl, nofun⟩
        | some node =>
          cases hget : p.getClass uuid with
          | none =>
            simp only [addNodeAt, hfind, hnode, hget] at hcall
            cases hcall
          | some c =>
            obtain ⟨hfree, hplace⟩ | ⟨-, e, herror⟩ := addNodeAt_eq hfind hnode hget
            · obtain ⟨rfl, rfl⟩ := Prod.mk.inj (Option.some.inj (hplace.symm.trans hcall))
              have hclear := h a uuid c rfl hfind (by rw [hnode]; rfl) hget hfree
              refine ⟨nofun, fun _ => ⟨a, uuid, c, _, node, _, rfl, hfind, hnode, hget, ?_,
                (placedAt_iff fresh _ hget hfree (Nat.le_of_lt_succ a.offset.toNat_lt)).mpr
                  hclear⟩⟩
              rw [getClass_updateClass, hget, Option.map_some]
            · obtain ⟨rfl, rfl⟩ := Prod.mk.inj (Option.some.inj (herror.symm.trans hcall))
              exact ⟨fun _ _ => rfl, nofun⟩


end Layout

section EmbedBefore

attribute [local instance] hyphenatedText asciiTables

def integerClass : ClassNode := ⟨⟨1⟩, "Inner", "", "", [.simple .int32 "value" ""]⟩

def embedField : Node := .classInstance "inner" "" ⟨1⟩

/-- A class that embeds another of 4 bytes. -/
def embedBefore : ClassNode := ⟨⟨2⟩, "Outer", "", "", [embedField]⟩

def embedBeforeProject : Project := ((Project.new "p").addClass integerClass).addClass embedBefore

/-- The call for a field right behind the embedded class. -/
def embedBeforeArgs : AddNodeArgs := ⟨"Outer", 4, "Int32", none, none⟩

/-- The class after the call, with padding of 4 bytes that is not needed. -/
def embedBeforePlaced : ClassNode :=
  ⟨⟨2⟩, "Outer", "", "", [embedField, .simple .hex32 "" "", .simple .int32 "" ""]⟩

/-- The field asked for at offset 4 starts at 8. -/
theorem addNodeAt_misplaces :
    addNodeAt embedBeforeProject ⟨9⟩ (.ok embedBeforeArgs) =
      some (.ok true, embedBeforeProject.updateClass ⟨2⟩ fun _ => embedBeforePlaced) ∧
    fieldStart (embedBeforeProject.updateClass ⟨2⟩ fun _ => embedBeforePlaced)
      embedBeforePlaced 2 = some 8 ∧
    ¬ AddsInPlace embedBeforeProject ⟨9⟩ (.ok embedBeforeArgs) := by
  generalize hp' : (embedBeforeProject.updateClass ⟨2⟩ fun _ => embedBeforePlaced) = p'
  have hcall : addNodeAt embedBeforeProject ⟨9⟩ (.ok embedBeforeArgs) = some (.ok true, p') := by
    rw [← hp']
    rfl
  have hinner : contributedSize p' embedField = 4 := by
    have hget : (store p').get ⟨1⟩ = some integerClass := by
      rw [← hp']
      rfl
    have hparts : (store p').parts integerClass = [.simple .int32 "value" ""] := rfl
    have hpart : (store p').ref (.simple .int32 "value" "") = none := rfl
    rw [contributedSize_eq, exactSize, Store.expand_item [] rfl (Finset.notMem_empty _) hget,
      Store.expand_nil, hparts, Store.expand_plain [] hpart, Store.expand_nil]
    rfl
  have hstart : fieldStart p' embedBeforePlaced 2 = some 8 := by
    rw [fieldStart_eq]
    show (some (Node.simple .int32 "" "")).map (fun _ => min ([embedField,
      .simple .hex32 "" ""].map (contributedSize p')).sum usizeMax) = some 8
    rw [List.map_cons, List.map_cons, hinner, contributedSize_plain p' rfl]
    rfl
  refine ⟨hcall, hstart, fun h => ?_⟩
  obtain ⟨a, uuid, c, c', node, pads, ha, hfind, -, hget, hedited, hplaced⟩ := (h _ _ hcall).2 rfl
  obtain rfl := Except.ok.inj ha
  have huuid : uuid = ⟨2⟩ := (Option.some.inj hfind).symm
  subst huuid
  obtain rfl : c = embedBefore := (Option.some.inj hget).symm
  obtain rfl : c' = embedBeforePlaced := by
    rw [← hp'] at hedited
    exact (Option.some.inj hedited).symm
  have hbelow : fieldsBelow embedBeforeArgs.offset.toNat 0 embedBefore.children = [embedField] :=
    rfl
  have hlength := congrArg List.length hplaced.children
  have hstarts := hplaced.starts
  rw [hbelow] at hlength hstarts
  have hpads : pads.length = 1 := by
    simp only [embedBeforePlaced, embedBefore, List.length_append, List.length_cons,
      List.length_nil, List.length_drop] at hlength
    omega
  rw [hpads] at hstarts
  exact absurd (hstart.symm.trans hstarts) (by decide)

end EmbedBefore

end Nemclass.Ui
