import Mathlib.Algebra.BigOperators.Group.List.Basic
import Mathlib.Algebra.Ring.Nat
import Mathlib.Data.Finset.Card
import Mathlib.Logic.Relation

/-! Expansion of references. A store holds items made of parts, and a part may
refer to another item, through a cycle too. Expanding parts replaces each
reference by the expansion of its item; a reference to an item that is being
expanded is cut. The measure is the number of items not yet on the stack. -/
namespace Nemclass.Expand

variable {κ γ ν β : Type}

/-- Items under finitely many keys, each made of parts that may refer to items. -/
structure Store (κ γ ν : Type) where
  get : κ → Option γ
  keys : Finset κ
  mem_keys : ∀ k item, get k = some item → k ∈ keys
  parts : γ → List ν
  ref : ν → Option κ

/-- The expansion of a list of parts. -/
inductive Expansion (κ γ ν : Type) where
  | nil
  | leaf (n : ν) (rest : Expansion κ γ ν)
  | item (n : ν) (k : κ) (i : γ) (parts rest : Expansion κ γ ν)
  | cut (n : ν) (rest : Expansion κ γ ν)

namespace Expansion

/-- One value for each part, an item's from those of its parts. -/
def fold (leaf : ν → β) (item : ν → γ → List β → β) (cut : ν → β) : Expansion κ γ ν → List β
  | nil => []
  | .leaf n rest => leaf n :: rest.fold leaf item cut
  | .item n _ i parts rest => item n i (parts.fold leaf item cut) :: rest.fold leaf item cut
  | .cut n rest => cut n :: rest.fold leaf item cut

/-- The parts that are neither expanded nor cut. -/
def leaves : Expansion κ γ ν → List ν
  | nil => []
  | leaf n rest => n :: rest.leaves
  | item _ _ _ parts rest => parts.leaves ++ rest.leaves
  | cut _ rest => rest.leaves

/-- One total for each part: the weight of its leaves. -/
def weights (w : ν → ℕ) : Expansion κ γ ν → List ℕ := fold w (fun _ _ ws => ws.sum) fun _ => 0

theorem weights_sum (w : ν → ℕ) (e : Expansion κ γ ν) :
    (e.weights w).sum = (e.leaves.map w).sum := by
  unfold weights
  induction e with
  | nil => rfl
  | leaf n rest ih => simp only [fold, leaves, List.sum_cons, List.map_cons, ih]
  | item n k i parts rest ihparts ihrest =>
    simp only [fold, leaves, List.sum_cons, List.map_append, List.sum_append, ihparts, ihrest]
  | cut n rest ih => simp only [fold, leaves, List.sum_cons, Nat.zero_add, ih]

theorem weights_congr {w w' : ν → ℕ} {e : Expansion κ γ ν} (h : ∀ n ∈ e.leaves, w n = w' n) :
    e.weights w = e.weights w' := by
  unfold weights
  induction e with
  | nil => rfl
  | leaf n rest ih =>
    simp only [leaves, List.forall_mem_cons] at h
    simp only [fold, h.1, ih h.2]
  | item n k i parts rest ihparts ihrest =>
    simp only [leaves, List.forall_mem_append] at h
    simp only [fold, ihparts h.1, ihrest h.2]
  | cut n rest ih => simp only [fold, ih h]

section Reentry
variable [DecidableEq κ] (k : κ)

/-- The expansion with every reference to one item cut. -/
def prune : Expansion κ γ ν → Expansion κ γ ν
  | nil => nil
  | leaf n rest => leaf n rest.prune
  | item n j i parts rest =>
    if j = k then cut n rest.prune else item n j i parts.prune rest.prune
  | cut n rest => cut n rest.prune

/-- The leaves below a reference to one item. -/
def reentered : Expansion κ γ ν → List ν
  | nil => []
  | leaf _ rest => rest.reentered
  | item _ j _ parts rest =>
    (if j = k then parts.leaves else parts.reentered) ++ rest.reentered
  | cut _ rest => rest.reentered

/-- Each leaf is below a reference to the item, or is left when these are cut. -/
theorem sum_leaves (w : ν → ℕ) (e : Expansion κ γ ν) :
    (e.leaves.map w).sum = ((e.prune k).leaves.map w).sum + ((e.reentered k).map w).sum := by
  induction e with
  | nil => rfl
  | leaf n rest ih =>
    simp only [leaves, prune, reentered, List.map_cons, List.sum_cons, ih]
    omega
  | item n j i parts rest ihparts ihrest =>
    by_cases hj : j = k
    · simp only [leaves, prune, reentered, if_pos hj, List.map_append, List.sum_append, ihrest]
      omega
    · simp only [leaves, prune, reentered, if_neg hj, List.map_append, List.sum_append, ihrest,
        ihparts]
      omega
  | cut n rest ih => exact ih

end Reentry

end Expansion

namespace Store
variable (s : Store κ γ ν)

/-- One item is made of a reference to another. -/
def Refers (a b : κ) : Prop := ∃ i n, s.get a = some i ∧ n ∈ s.parts i ∧ s.ref n = some b

def Acyclic : Prop := ∀ k, ¬ Relation.TransGen s.Refers k k

/-- References that lower a rank form no cycle. -/
theorem acyclic_of_rank (rank : κ → ℕ) (h : ∀ a b, s.Refers a b → rank b < rank a) : s.Acyclic := by
  have hlower (a b : κ) (hab : Relation.TransGen s.Refers a b) : rank b < rank a := by
    induction hab with
    | single hab => exact h _ _ hab
    | tail _ hbc ih => exact (h _ _ hbc).trans ih
  exact fun k hk => Nat.lt_irrefl _ (hlower k k hk)

/-- Parts from which nothing on a stack is reached. -/
def Clear (stack : Finset κ) (ns : List ν) : Prop :=
  ∀ n ∈ ns, ∀ k, s.ref n = some k → ∀ j ∈ stack, ¬ Relation.ReflTransGen s.Refers k j

theorem clear_empty (ns : List ν) : s.Clear ∅ ns := fun _ _ _ _ _ hj => by simp at hj

section Clear
variable {s} {stack : Finset κ} {n : ν} {ns : List ν} {k : κ}

theorem Clear.tail (h : s.Clear stack (n :: ns)) : s.Clear stack ns :=
  fun m hm => h m (List.mem_cons_of_mem n hm)

theorem Clear.notMem (h : s.Clear stack (n :: ns)) (href : s.ref n = some k) : k ∉ stack :=
  fun hk => h n List.mem_cons_self k href k hk .refl

end Clear

variable [DecidableEq κ]

theorem card_unseen_insert {k : κ} {i : γ} {stack : Finset κ} (hget : s.get k = some i)
    (hk : k ∉ stack) : (s.keys \ insert k stack).card < (s.keys \ stack).card := by
  apply Finset.card_lt_card
  have hmem : k ∈ s.keys \ stack := Finset.mem_sdiff.mpr ⟨s.mem_keys k i hget, hk⟩
  rw [Finset.sdiff_insert]
  exact Finset.erase_ssubset hmem

def expand (stack : Finset κ) : List ν → Expansion κ γ ν
  | [] => .nil
  | n :: ns =>
    match s.ref n with
    | none => .leaf n (expand stack ns)
    | some k =>
      if _hk : k ∈ stack then .cut n (expand stack ns)
      else
        match _hget : s.get k with
        | none => .leaf n (expand stack ns)
        | some i => .item n k i (expand (insert k stack) (s.parts i)) (expand stack ns)
termination_by ns => ((s.keys \ stack).card, ns.length)
decreasing_by
  all_goals first
    | exact .left _ _ (s.card_unseen_insert _hget _hk)
    | exact .right _ (Nat.lt_succ_self _)

section Step
variable {s} {stack : Finset κ} {n : ν} (ns : List ν) {k : κ} {i : γ}

theorem expand_nil (stack : Finset κ) : s.expand stack [] = .nil := by rw [expand]

theorem expand_plain (href : s.ref n = none) :
    s.expand stack (n :: ns) = .leaf n (s.expand stack ns) := by
  rw [expand]
  simp only [href]

theorem expand_cut (href : s.ref n = some k) (hk : k ∈ stack) :
    s.expand stack (n :: ns) = .cut n (s.expand stack ns) := by
  rw [expand]
  simp only [href, dif_pos hk]

theorem expand_unresolved (href : s.ref n = some k) (hk : k ∉ stack) (hget : s.get k = none) :
    s.expand stack (n :: ns) = .leaf n (s.expand stack ns) := by
  rw [expand]
  simp only [href, dif_neg hk]
  split
  · rfl
  · simp_all

theorem expand_item (href : s.ref n = some k) (hk : k ∉ stack) (hget : s.get k = some i) :
    s.expand stack (n :: ns) =
      .item n k i (s.expand (insert k stack) (s.parts i)) (s.expand stack ns) := by
  rw [expand]
  simp only [href, dif_neg hk]
  split
  · simp_all
  · rename_i j hj
    rw [hget, Option.some.injEq] at hj
    rw [hj]

end Step

theorem weights_cons (w : ν → ℕ) (stack : Finset κ) (n : ν) (ns : List ν) :
    (s.expand stack (n :: ns)).weights w =
      ((s.expand stack [n]).leaves.map w).sum :: (s.expand stack ns).weights w := by
  cases href : s.ref n with
  | none =>
    rw [expand_plain ns href, expand_plain [] href, expand_nil]
    simp [Expansion.weights, Expansion.fold, Expansion.leaves]
  | some k =>
    by_cases hk : k ∈ stack
    · rw [expand_cut ns href hk, expand_cut [] href hk, expand_nil]
      simp [Expansion.weights, Expansion.fold, Expansion.leaves]
    · cases hget : s.get k with
      | none =>
        rw [expand_unresolved ns href hk hget, expand_unresolved [] href hk hget, expand_nil]
        simp [Expansion.weights, Expansion.fold, Expansion.leaves]
      | some i =>
        have hparts := Expansion.weights_sum w (s.expand (insert k stack) (s.parts i))
        rw [expand_item ns href hk hget, expand_item [] href hk hget, expand_nil, Expansion.leaves,
          Expansion.leaves, List.append_nil, ← hparts]
        rfl

/-- Expanding with one more item on the stack cuts its references. -/
theorem expand_insert {k : κ} {i : γ} (hget : s.get k = some i) (stack : Finset κ) (ns : List ν) :
    s.expand (insert k stack) ns = (s.expand stack ns).prune k := by
  fun_induction s.expand stack ns with
  | case1 => rw [expand_nil, Expansion.prune]
  | case2 stack n ns href ih => rw [expand_plain ns href, Expansion.prune, ih]
  | case3 stack n ns j href hj ih =>
    rw [expand_cut ns href (Finset.mem_insert_of_mem hj), Expansion.prune, ih]
  | case4 stack n ns j href hj hnone ih =>
    have hne : j ≠ k := fun heq => by simp [heq, hget] at hnone
    have hout : j ∉ insert k stack := fun hin => hj ((Finset.mem_insert.mp hin).resolve_left hne)
    rw [expand_unresolved ns href hout hnone, Expansion.prune, ih]
  | case5 stack n ns j href hj i' hget' ihparts ih =>
    by_cases hjk : j = k
    · have hin : j ∈ insert k stack := hjk ▸ Finset.mem_insert_self k stack
      rw [expand_cut ns href hin, Expansion.prune, if_pos hjk, ih]
    · have hout : j ∉ insert k stack := fun hin => hj ((Finset.mem_insert.mp hin).resolve_left hjk)
      rw [expand_item ns href hout hget', Expansion.prune, if_neg hjk, ih, Finset.insert_comm,
        ihparts]

section Reach
variable {s : Store κ γ ν}

/-- Changing an item that the parts do not reach does not change their expansion. -/
theorem expand_update {s' : Store κ γ ν} {k : κ} (hget' : ∀ j, j ≠ k → s'.get j = s.get j)
    (hparts : s'.parts = s.parts) (href' : s'.ref = s.ref) (stack : Finset κ) {ns : List ν}
    (h : s.Clear {k} ns) : s'.expand stack ns = s.expand stack ns := by
  have hne {n : ν} {ns : List ν} {j : κ} (h : s.Clear {k} (n :: ns)) (href : s.ref n = some j) :
      s'.get j = s.get j := hget' j fun heq => h.notMem href (Finset.mem_singleton.mpr heq)
  fun_induction s.expand stack ns with
  | case1 => rw [expand_nil]
  | case2 stack n ns href ih => rw [expand_plain ns (href' ▸ href), ih h.tail]
  | case3 stack n ns j href hj ih => rw [expand_cut ns (href' ▸ href) hj, ih h.tail]
  | case4 stack n ns j href hj hnone ih =>
    rw [expand_unresolved ns (href' ▸ href) hj ((hne h href).trans hnone), ih h.tail]
  | case5 stack n ns j href hj i hget ihparts ih =>
    have hinner : s.Clear {k} (s.parts i) := by
      intro m hm b hb c hc hreach
      exact h n List.mem_cons_self j href c hc (.head ⟨i, m, hget, hm, hb⟩ hreach)
    rw [expand_item ns (href' ▸ href) hj ((hne h href).trans hget), ih h.tail, hparts,
      ihparts hinner]

/-- Parts that refer to nothing are leaves. -/
theorem plain_sublist (stack : Finset κ) (ns : List ν) :
    (ns.filter fun n => (s.ref n).isNone).Sublist (s.expand stack ns).leaves := by
  fun_induction s.expand stack ns with
  | case1 => exact .slnil
  | case2 stack n ns href ih =>
    rw [List.filter_cons_of_pos (by simp [href])]
    exact ih.cons_cons n
  | case3 stack n ns k href hk ih => rwa [List.filter_cons_of_neg (by simp [href])]
  | case4 stack n ns k href hk hnone ih =>
    rw [List.filter_cons_of_neg (by simp [href])]
    exact ih.cons n
  | case5 stack n ns k href hk i hget ihparts ih =>
    rw [List.filter_cons_of_neg (by simp [href])]
    exact ih.trans (List.sublist_append_right _ _)

/-- A way to an item leaves its start for good at some reference. -/
theorem reaches_leave {p : κ → κ → Prop} {a b : κ} (h : Relation.ReflTransGen p a b) :
    b = a ∨ ∃ c, p a c ∧ c ≠ a ∧ Relation.ReflTransGen (fun x y => p x y ∧ y ≠ a) c b := by
  induction h with
  | refl => exact .inl rfl
  | @tail b c hab hbc ih =>
    by_cases hc : c = a
    · exact .inl hc
    · rcases ih with rfl | ⟨d, had, hd, hdb⟩
      · exact .inr ⟨c, hbc, hc, .refl⟩
      · exact .inr ⟨d, had, hd, hdb.tail ⟨hbc, hc⟩⟩

/-- An item that the parts reach past the stack has its plain parts among the leaves. -/
theorem sublist_of_reaches {stack : Finset κ} {ns : List ν} {n : ν} {k target : κ} {i : γ}
    (hn : n ∈ ns) (href : s.ref n = some k) (hk : k ∉ stack) (hget : s.get target = some i)
    (hreach : Relation.ReflTransGen (fun a b => s.Refers a b ∧ b ∉ stack) k target) :
    ((s.parts i).filter fun m => (s.ref m).isNone).Sublist (s.expand stack ns).leaves := by
  fun_induction s.expand stack ns generalizing n k with
  | case1 => cases hn
  | case2 stack m ns hnone ih =>
    rcases List.mem_cons.mp hn with rfl | hn
    · simp [href] at hnone
    · exact (ih hn href hk hreach).cons m
  | case3 stack m ns j hj hin ih =>
    rcases List.mem_cons.mp hn with rfl | hn
    · rw [href, Option.some.injEq] at hj
      exact absurd (hj ▸ hin) hk
    · exact ih hn href hk hreach
  | case4 stack m ns j hj hout hnone ih =>
    rcases List.mem_cons.mp hn with rfl | hn
    · obtain rfl : k = j := Option.some.inj (href.symm.trans hj)
      rcases reaches_leave hreach with rfl | ⟨b, ⟨⟨i', -, hget', -, -⟩, -⟩, -⟩
      · simp [hget] at hnone
      · simp [hget'] at hnone
    · exact (ih hn href hk hreach).cons m
  | case5 stack m ns j hj hout i' hget' ihparts ih =>
    rcases List.mem_cons.mp hn with rfl | hn
    · obtain rfl : k = j := Option.some.inj (href.symm.trans hj)
      refine List.Sublist.trans ?_ (List.sublist_append_left _ _)
      rcases reaches_leave hreach with rfl | ⟨b, ⟨⟨i'', m', hget'', hm', hb⟩, hbout⟩, hne, hrest⟩
      · obtain rfl : i = i' := Option.some.inj (hget.symm.trans hget')
        exact plain_sublist _ _
      · obtain rfl : i' = i'' := Option.some.inj (hget'.symm.trans hget'')
        refine ihparts hm' hb (by simp [hne, hbout]) (Relation.ReflTransGen.mono ?_ b target hrest)
        rintro x y ⟨⟨hxy, hy⟩, hya⟩
        exact ⟨hxy, by simp [hya, hy]⟩
    · exact (ih hn href hk hreach).trans (List.sublist_append_right _ _)

end Reach

section Acyclic
variable {s} {stack : Finset κ} {n : ν} {ns : List ν} {k : κ} {i : γ}

theorem Acyclic.clear_insert (hacyclic : s.Acyclic) (h : s.Clear stack (n :: ns))
    (href : s.ref n = some k) (hget : s.get k = some i) : s.Clear (insert k stack) (s.parts i) := by
  intro m hm b hb j hj hreach
  rcases Finset.mem_insert.mp hj with heq | hj
  · exact hacyclic k (.head' ⟨i, m, hget, hm, hb⟩ (heq ▸ hreach))
  · exact h n List.mem_cons_self k href j hj (.head ⟨i, m, hget, hm, hb⟩ hreach)

/-- Without cycles the stack does not matter. -/
theorem Acyclic.expand_eq (hacyclic : s.Acyclic) {stack stack' : Finset κ} {ns : List ν}
    (h : s.Clear stack ns) (h' : s.Clear stack' ns) : s.expand stack ns = s.expand stack' ns := by
  fun_induction s.expand stack ns generalizing stack' with
  | case1 => rw [expand_nil]
  | case2 stack n ns href ih => rw [expand_plain ns href, ih h.tail h'.tail]
  | case3 stack n ns k href hk => exact absurd hk (h.notMem href)
  | case4 stack n ns k href hk hnone ih =>
    rw [expand_unresolved ns href (h'.notMem href) hnone, ih h.tail h'.tail]
  | case5 stack n ns k href hk i hget ihparts ih =>
    rw [expand_item ns href (h'.notMem href) hget, ih h.tail h'.tail,
      ihparts (hacyclic.clear_insert h href hget) (hacyclic.clear_insert h' href hget)]

/-- Without cycles an item expands inside another as it does alone. -/
theorem Acyclic.expand_alone (hacyclic : s.Acyclic) (ns : List ν) (href : s.ref n = some k)
    (hget : s.get k = some i) : s.expand ∅ (n :: ns) =
      .item n k i (s.expand ∅ (s.parts i)) (s.expand ∅ ns) := by
  rw [expand_item ns href (Finset.notMem_empty k) hget]
  rw [hacyclic.expand_eq (hacyclic.clear_insert (s.clear_empty (n :: ns)) href hget)
    (s.clear_empty (s.parts i))]

section Eval
variable (s) (d : β) (f : γ → List β → β)

/-- The values of the items that parts refer to, `d` for a part that refers to none. -/
def evalParts (stack : Finset κ) (ns : List ν) : List β :=
  (s.expand stack ns).fold (fun _ => d) (fun _ i vs => f i vs) fun _ => d

/-- The value of an item, computed from those of the items that its parts refer to. -/
def eval (i : γ) : β := f i (s.evalParts d f ∅ (s.parts i))

/-- The value of the item that a part refers to. -/
def evalRef (n : ν) : β := ((s.ref n).bind s.get).elim d (s.eval d f)

variable {s}

/-- Without cycles the values obey the recursion they stand for. -/
theorem Acyclic.evalParts_eq (hacyclic : s.Acyclic) (ns : List ν) :
    s.evalParts d f ∅ ns = ns.map (s.evalRef d f) := by
  induction ns with
  | nil => rw [evalParts, expand_nil, Expansion.fold, List.map_nil]
  | cons n ns ih =>
    rw [evalParts] at ih
    cases href : s.ref n with
    | none =>
      rw [evalParts, expand_plain ns href, Expansion.fold, ih, List.map_cons, evalRef, href]
      rfl
    | some k =>
      cases hget : s.get k with
      | none =>
        rw [evalParts, expand_unresolved ns href (Finset.notMem_empty k) hget, Expansion.fold, ih,
          List.map_cons, evalRef, href, Option.bind_some, hget]
        rfl
      | some i =>
        rw [evalParts, hacyclic.expand_alone ns href hget, Expansion.fold, ih, List.map_cons,
          evalRef, href, Option.bind_some, hget]
        rfl

theorem Acyclic.eval_eq (hacyclic : s.Acyclic) (i : γ) :
    s.eval d f i = f i ((s.parts i).map (s.evalRef d f)) := by
  rw [eval, hacyclic.evalParts_eq]

end Eval

end Acyclic

end Store

end Nemclass.Expand
