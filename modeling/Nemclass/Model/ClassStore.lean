import Mathlib.Data.Set.Card
import Nemclass.Model.Error
import Nemclass.Model.Project
import Nemclass.Model.References

/-! Removing classes, and runs of additions and removals. A class that another
one refers to stays; a removal that fails leaves the project as it was. -/
namespace Nemclass.Model

namespace Project

/-- The classes other than `u` that refer to it. -/
def referrers (p : Project) (u : Uuid) : Set Uuid :=
  {v | v ≠ u ∧ ∃ c, p.getClass v = some c ∧ ∃ n ∈ c.children, n.References u}

/-- The class map without a key, and the order without it. -/
def erase (p : Project) (u : Uuid) : Project :=
  { p with
    classes := fun v => if v = u then none else p.classes v
    classOrder := p.classOrder.filter (· ≠ u)
    order_nodup := p.order_nodup.filter _
    mem_order := fun v => by
      by_cases hv : v = u
      · simp [hv]
      · simp [hv, p.mem_order] }

/-- What is left refers to `u` nowhere. -/
theorem not_references_erase {p : Project} {u v : Uuid} {d : ClassNode} {n : Node}
    (h : ¬ (p.referrers u).Nonempty) (hd : (p.erase u).getClass v = some d) (hn : n ∈ d.children) :
    ¬ n.References u := by
  intro href
  have hv : (if v = u then none else p.getClass v) = some d := hd
  split at hv
  · cases hv
  · next hne => exact h ⟨v, hne, d, hv, n, hn, href⟩

section Remove
variable [UuidText]

/-- The entries of the class map that are counted, one for each key of the order. -/
def referring (p : Project) (u : Uuid) : List Uuid :=
  (p.classOrder.filter (· ≠ u)).filter fun v =>
    (p.classes v).any fun c => childrenReferenceClass u c.children

def refCount (p : Project) (u : Uuid) : ℕ := (p.referring u).length

def removeClass (p : Project) (u : Uuid) : Except ModelError ClassNode × Project :=
  match p.classes u with
  | none => (.error (.classNotFound u), p)
  | some c =>
    if 0 < p.refCount u then (.error (.classReferenced c.name (p.refCount u)), p)
    else (.ok c, p.erase u)

theorem mem_referring {p : Project} {u v : Uuid} : v ∈ p.referring u ↔ v ∈ p.referrers u := by
  simp only [referring, List.mem_filter, Option.any_eq_true, childrenReferenceClass_iff,
    decide_eq_true_iff]
  constructor
  · rintro ⟨⟨-, hv⟩, c, hc, href⟩
    exact ⟨hv, c, hc, href⟩
  · rintro ⟨hv, c, hc, href⟩
    exact ⟨⟨mem_classOrder hc, hv⟩, c, hc, href⟩

theorem refCount_eq (p : Project) (u : Uuid) : p.refCount u = (p.referrers u).ncard := by
  have hnodup : (p.referring u).Nodup := (p.order_nodup.filter _).filter _
  have hset : p.referrers u = ↑(p.referring u).toFinset := by
    ext v
    rw [Finset.mem_coe, List.mem_toFinset, mem_referring]
  rw [hset, Set.ncard_coe_finset, List.toFinset_card_of_nodup hnodup, refCount]

theorem refCount_pos {p : Project} {u : Uuid} : 0 < p.refCount u ↔ (p.referrers u).Nonempty := by
  rw [refCount, List.length_pos_iff_exists_mem]
  exact exists_congr fun v => mem_referring

theorem removeClass_absent {p : Project} {u : Uuid} (h : p.getClass u = none) :
    p.removeClass u = (.error (.classNotFound u), p) := by
  rw [removeClass, show p.classes u = none from h]

theorem removeClass_referenced {p : Project} {u : Uuid} {c : ClassNode}
    (h : p.getClass u = some c) (href : (p.referrers u).Nonempty) :
    p.removeClass u = (.error (.classReferenced c.name (p.referrers u).ncard), p) := by
  rw [removeClass, show p.classes u = some c from h]
  dsimp only
  rw [if_pos (refCount_pos.mpr href), refCount_eq]

theorem removeClass_unreferenced {p : Project} {u : Uuid} {c : ClassNode}
    (h : p.getClass u = some c) (href : ¬ (p.referrers u).Nonempty) :
    p.removeClass u = (.ok c, p.erase u) := by
  rw [removeClass, show p.classes u = some c from h]
  dsimp only
  rw [if_neg (mt refCount_pos.mp href)]

/-! ## Runs -/

inductive Op where
  | add (c : ClassNode)
  | remove (u : Uuid)

/-- One call, its result left aside. -/
def apply (p : Project) : Op → Project
  | .add c => p.addClass c
  | .remove u => (p.removeClass u).2

def run (p : Project) (ops : List Op) : Project := ops.foldl apply p

/-- What holds of a project between two calls, and what the next call does to it. -/
structure Store (p : Project) : Prop where
  order_nodup : p.classOrder.Nodup
  order_keys : ∀ u, u ∈ p.classOrder ↔ ∃ c, p.getClass u = some c
  add_new : ∀ c, p.getClass c.uuid = none → (p.addClass c).classOrder = p.classOrder ++ [c.uuid]
  add_again : ∀ c old, p.getClass c.uuid = some old → (p.addClass c).classOrder = p.classOrder
  add_map : ∀ c u, (p.addClass c).getClass u = if u = c.uuid then some c else p.getClass u
  remove_absent : ∀ u, p.getClass u = none → (p.removeClass u).1 = .error (.classNotFound u)
  remove_referenced : ∀ u c, p.getClass u = some c →
    ((∃ name k, (p.removeClass u).1 = .error (.classReferenced name k)) ↔
      (p.referrers u).Nonempty)
  ref_count : ∀ u name k, (p.removeClass u).1 = .error (.classReferenced name k) →
    k = (p.referrers u).ncard
  remove_error : ∀ u e, (p.removeClass u).1 = .error e → (p.removeClass u).2 = p
  remove_ok_map : ∀ u c, (p.removeClass u).1 = .ok c → p.getClass u = some c ∧
    ∀ v, (p.removeClass u).2.getClass v = if v = u then none else p.getClass v
  remove_ok_order : ∀ u c, (p.removeClass u).1 = .ok c →
    (p.removeClass u).2.classOrder = p.classOrder.filter (· ≠ u)
  remove_ok_free : ∀ u c, (p.removeClass u).1 = .ok c → ∀ v d,
    (p.removeClass u).2.getClass v = some d → ∀ n ∈ d.children, ¬ n.References u

/-- The three outcomes of a removal. -/
theorem removeClass_cases (p : Project) (u : Uuid) :
    (p.getClass u = none ∧ p.removeClass u = (.error (.classNotFound u), p)) ∨
    (∃ c, p.getClass u = some c ∧ (p.referrers u).Nonempty ∧
      p.removeClass u = (.error (.classReferenced c.name (p.referrers u).ncard), p)) ∨
    ∃ c, p.getClass u = some c ∧ ¬ (p.referrers u).Nonempty ∧
      p.removeClass u = (.ok c, p.erase u) := by
  cases hu : p.getClass u with
  | none => exact .inl ⟨rfl, removeClass_absent hu⟩
  | some c =>
    by_cases href : (p.referrers u).Nonempty
    · exact .inr (.inl ⟨c, rfl, href, removeClass_referenced hu href⟩)
    · exact .inr (.inr ⟨c, rfl, href, removeClass_unreferenced hu href⟩)

theorem removeClass_ok {p : Project} {u : Uuid} {c : ClassNode}
    (h : (p.removeClass u).1 = .ok c) :
    p.getClass u = some c ∧ ¬ (p.referrers u).Nonempty ∧ (p.removeClass u).2 = p.erase u := by
  obtain ⟨-, heq⟩ | ⟨d, -, -, heq⟩ | ⟨d, hd, href, heq⟩ := removeClass_cases p u
  · rw [heq] at h; cases h
  · rw [heq] at h; cases h
  · rw [heq] at h ⊢
    cases h
    exact ⟨hd, href, rfl⟩

theorem removeClass_error {p : Project} {u : Uuid} {e : ModelError}
    (h : (p.removeClass u).1 = .error e) : (p.removeClass u).2 = p := by
  obtain ⟨-, heq⟩ | ⟨d, -, -, heq⟩ | ⟨d, -, -, heq⟩ := removeClass_cases p u
  · rw [heq]
  · rw [heq]
  · rw [heq] at h; cases h

theorem removeClass_eq_referenced {p : Project} {u : Uuid} {name : String} {k : ℕ}
    (h : (p.removeClass u).1 = .error (.classReferenced name k)) :
    (p.referrers u).Nonempty ∧ k = (p.referrers u).ncard := by
  obtain ⟨-, heq⟩ | ⟨d, -, href, heq⟩ | ⟨d, -, -, heq⟩ := removeClass_cases p u
  · rw [heq] at h; cases h
  · rw [heq] at h
    cases h
    exact ⟨href, rfl⟩
  · rw [heq] at h; cases h

theorem store (p : Project) : p.Store where
  order_nodup := p.order_nodup
  order_keys u := (p.mem_order u).trans Option.isSome_iff_exists
  add_new c h := if_neg (by simp [show p.classes c.uuid = none from h])
  add_again c old h := if_pos (by rw [show p.classes c.uuid = some old from h]; rfl)
  add_map := getClass_addClass p
  remove_absent u h := by rw [removeClass_absent h]
  remove_referenced u c h :=
    ⟨fun ⟨_, _, hk⟩ => (removeClass_eq_referenced hk).1,
      fun href => ⟨_, _, congrArg Prod.fst (removeClass_referenced h href)⟩⟩
  ref_count _ _ _ h := (removeClass_eq_referenced h).2
  remove_error _ _ h := removeClass_error h
  remove_ok_map u c h := by
    obtain ⟨hc, -, heq⟩ := removeClass_ok h
    rw [heq]
    exact ⟨hc, fun _ => rfl⟩
  remove_ok_order u c h := by
    rw [(removeClass_ok h).2.2]
    rfl
  remove_ok_free u c h v d hd n hn := by
    obtain ⟨-, href, heq⟩ := removeClass_ok h
    rw [heq] at hd
    exact not_references_erase href hd hn

/-- Every run keeps the map and the order in step, and every call on what it reaches does what it
should. -/
theorem run_store (p : Project) (ops : List Op) : (p.run ops).Store := store _

end Remove

/-- A class that points at one that was never added. -/
def dangling : ClassNode := ⟨⟨1⟩, "Holder", "", "", [.pointer "next" "" (some ⟨2⟩)]⟩

/-- A class that is referred to but absent is not found. -/
theorem dangling_notFound :
    ¬ ∀ (p : Project) (ops : List Op) (u : Uuid),
      (∃ name k, (@removeClass hyphenatedText (@run hyphenatedText p ops) u).1 =
        .error (.classReferenced name k)) ↔ ((@run hyphenatedText p ops).referrers u).Nonempty := by
  intro h
  have hiff := h (new "game") [.add dangling] ⟨2⟩
  obtain ⟨name, k, hk⟩ := hiff.mpr
    ⟨⟨1⟩, by decide, dangling, rfl, _, List.mem_cons_self, .here rfl⟩
  rw [@removeClass_absent hyphenatedText _ ⟨2⟩ rfl] at hk
  cases hk

end Project

end Nemclass.Model
