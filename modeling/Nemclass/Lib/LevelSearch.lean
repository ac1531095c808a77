import Mathlib.Data.Finset.Basic
import Mathlib.Data.List.Nodup

/-! Breadth-first search level by level. The items of a level are expanded in
order, and an item is admitted to the next level unless its key was seen
before. Level `d` then holds, once each, the keys at distance exactly `d` from
the root, so the path an item was first reached by is a shortest one. -/
namespace Nemclass.LevelSearch

variable {ι α β : Type}

section Admit
variable [DecidableEq α] (key : ι → α)

/-- Admits an item unless its key was seen before. -/
def admitOne (st : Finset α × List ι) (x : ι) : Finset α × List ι :=
  if key x ∈ st.1 then st else (insert (key x) st.1, st.2 ++ [x])

def admitAll (st : Finset α × List ι) (xs : List ι) : Finset α × List ι :=
  xs.foldl (admitOne key) st

theorem admitAll_append (st : Finset α × List ι) (xs ys : List ι) :
    admitAll key st (xs ++ ys) = admitAll key (admitAll key st xs) ys := List.foldl_append

/-- Each key is admitted once, at its first item, unless it was seen at the start. -/
structure Admitted (seen : Finset α) (xs : List ι) (seen' : Finset α) (new : List ι) : Prop where
  subset : ∀ x ∈ new, x ∈ xs
  nodup : (new.map key).Nodup
  fresh : ∀ a, a ∈ new.map key ↔ a ∈ xs.map key ∧ a ∉ seen
  seen : ∀ a, a ∈ seen' ↔ a ∈ seen ∨ a ∈ xs.map key

theorem admitAll_admitted (seen : Finset α) (queue xs : List ι) :
    ∃ new, (admitAll key (seen, queue) xs).2 = queue ++ new ∧
      Admitted key seen xs (admitAll key (seen, queue) xs).1 new := by
  induction xs generalizing seen queue with
  | nil => exact ⟨[], (List.append_nil _).symm, by simp, by simp, by simp, by simp [admitAll]⟩
  | cons x xs ih =>
    by_cases hx : key x ∈ seen
    · have hstep : admitAll key (seen, queue) (x :: xs) = admitAll key (seen, queue) xs :=
        congrArg (fun st => admitAll key st xs) (if_pos hx)
      obtain ⟨new, hqueue, h⟩ := ih seen queue
      rw [hstep]
      refine ⟨new, hqueue, fun y hy => List.mem_cons_of_mem x (h.subset y hy), h.nodup, fun a => ?_,
        fun a => ?_⟩
      · rw [h.fresh, List.map_cons, List.mem_cons]
        grind
      · rw [h.seen, List.map_cons, List.mem_cons]
        grind
    · have hstep : admitAll key (seen, queue) (x :: xs) =
          admitAll key (insert (key x) seen, queue ++ [x]) xs :=
        congrArg (fun st => admitAll key st xs) (if_neg hx)
      obtain ⟨new, hqueue, h⟩ := ih (insert (key x) seen) (queue ++ [x])
      rw [hstep]
      refine ⟨x :: new, by rw [hqueue, List.append_assoc, List.singleton_append], fun y hy => ?_,
        ?_, fun a => ?_, fun a => ?_⟩
      · rcases List.mem_cons.mp hy with rfl | hy
        · exact List.mem_cons_self
        · exact List.mem_cons_of_mem x (h.subset y hy)
      · rw [List.map_cons, List.nodup_cons, h.fresh]
        exact ⟨fun hin => hin.2 (Finset.mem_insert_self _ _), h.nodup⟩
      · rw [List.map_cons, List.map_cons, List.mem_cons, List.mem_cons, h.fresh, Finset.mem_insert]
        grind
      · rw [h.seen, List.map_cons, List.mem_cons, Finset.mem_insert]
        grind

end Admit

/-- Labelled walks from a root. -/
inductive Leads (edge : α → β → α → Prop) (root : α) : List β → α → Prop
  | nil : Leads edge root [] root
  | snoc {p : List β} {a b : α} {l : β} (h : Leads edge root p a) (e : edge a l b) :
      Leads edge root (p ++ [l]) b

section Level
variable (edge : α → β → α → Prop) (root : α) (key : ι → α) (path : ι → List β)

/-- The items of a level: one for each key at distance `d`, with a path that leads to it. -/
structure Level [DecidableEq α] (d : ℕ) (seen : Finset α) (level : List ι) : Prop where
  leads : ∀ x ∈ level, Leads edge root (path x) (key x) ∧ (path x).length = d
  nodup : (level.map key).Nodup
  nearest : ∀ a, a ∈ level.map key ↔
    (∃ p, Leads edge root p a ∧ p.length = d) ∧ ∀ p, Leads edge root p a → d ≤ p.length
  seen : ∀ a, a ∈ seen ↔ ∃ p, Leads edge root p a ∧ p.length ≤ d

/-- The children of an item are its edges, each with the label added to the path. -/
structure Expands (children : ι → List ι) (x : ι) : Prop where
  sound : ∀ y ∈ children x, ∃ l, edge (key x) l (key y) ∧ path y = path x ++ [l]
  complete : ∀ l b, edge (key x) l b → ∃ y ∈ children x, key y = b

/-- What was expanded up to a distance: each key once, by a shortest path. -/
structure Explored (d : ℕ) (items : List ι) : Prop where
  shortest : ∀ x ∈ items, Leads edge root (path x) (key x) ∧
    ∀ p, Leads edge root p (key x) → (path x).length ≤ p.length
  nodup : (items.map key).Nodup
  exact : ∀ a, a ∈ items.map key ↔ ∃ p, Leads edge root p a ∧ p.length < d

variable {edge root key path}

theorem Level.zero [DecidableEq α] {x : ι} (hkey : key x = root) (hpath : path x = []) :
    Level edge root key path 0 {root} [x] where
  leads y hy := by
    rw [List.mem_singleton.mp hy, hkey, hpath]
    exact ⟨.nil, rfl⟩
  nodup := by simp
  nearest a := by
    constructor
    · intro ha
      rw [List.map_singleton, List.mem_singleton, hkey] at ha
      subst ha
      exact ⟨⟨[], .nil, rfl⟩, fun p _ => Nat.zero_le _⟩
    · intro h
      obtain ⟨⟨p, hp, hlen⟩, _⟩ := h
      rw [List.map_singleton, List.mem_singleton, hkey]
      cases hp with
      | nil => rfl
      | snoc => simp at hlen
  seen a := by
    rw [Finset.mem_singleton]
    constructor
    · intro ha
      subst ha
      exact ⟨[], .nil, Nat.le_refl _⟩
    · intro h
      obtain ⟨p, hp, hlen⟩ := h
      cases hp with
      | nil => rfl
      | snoc => simp at hlen

theorem Explored.zero : Explored edge root key path 0 [] :=
  ⟨by simp, by simp, by simp⟩

/-- A key one step past a level that no shorter walk reaches is the target of an edge out of it. -/
theorem Level.mem_children [DecidableEq α] {d : ℕ} {seen : Finset α} {level : List ι}
    (h : Level edge root key path d seen level) {children : ι → List ι}
    (hexpands : ∀ x ∈ level, Expands edge key path children x) {p : List β} {a : α}
    (hp : Leads edge root p a) (hlen : p.length = d + 1) (hfar : a ∉ seen) :
    a ∈ (level.flatMap children).map key := by
  cases hp with
  | nil => simp at hlen
  | snoc hq e =>
    rename_i q b l
    rw [List.length_append, List.length_singleton, Nat.add_right_cancel_iff] at hlen
    have hb : b ∈ level.map key := by
      refine (h.nearest b).mpr ⟨⟨q, hq, hlen⟩, fun q' hq' => ?_⟩
      by_contra hlt
      refine hfar ((h.seen a).mpr ⟨q' ++ [l], .snoc hq' e, ?_⟩)
      rw [List.length_append, List.length_singleton]
      omega
    obtain ⟨x, hx, rfl⟩ := List.mem_map.mp hb
    obtain ⟨y, hy, rfl⟩ := (hexpands x hx).complete l a e
    exact List.mem_map.mpr ⟨y, List.mem_flatMap.mpr ⟨x, hx, hy⟩, rfl⟩

/-- The children of a level are one step further away. -/
theorem Level.leads_children [DecidableEq α] {d : ℕ} {seen : Finset α} {level : List ι}
    (h : Level edge root key path d seen level) {children : ι → List ι}
    (hexpands : ∀ x ∈ level, Expands edge key path children x) {y : ι}
    (hy : y ∈ level.flatMap children) :
    Leads edge root (path y) (key y) ∧ (path y).length = d + 1 := by
  obtain ⟨x, hx, hy⟩ := List.mem_flatMap.mp hy
  obtain ⟨l, e, hpath⟩ := (hexpands x hx).sound y hy
  have hx := h.leads x hx
  rw [hpath, List.length_append, List.length_singleton, hx.2]
  exact ⟨.snoc hx.1 e, rfl⟩

theorem Level.next [DecidableEq α] {d : ℕ} {seen : Finset α} {level : List ι}
    (h : Level edge root key path d seen level) {children : ι → List ι}
    (hexpands : ∀ x ∈ level, Expands edge key path children x) :
    let st := admitAll key (seen, []) (level.flatMap children)
    Level edge root key path (d + 1) st.1 st.2 := by
  obtain ⟨new, hqueue, hnew⟩ := admitAll_admitted key seen [] (level.flatMap children)
  intro st
  rw [show st.2 = new from hqueue]
  have hreach (a : α) (ha : a ∈ (level.flatMap children).map key) :
      ∃ p, Leads edge root p a ∧ p.length = d + 1 := by
    obtain ⟨y, hy, rfl⟩ := List.mem_map.mp ha
    exact ⟨path y, h.leads_children hexpands hy⟩
  refine ⟨fun y hy => h.leads_children hexpands (hnew.subset y hy), hnew.nodup, fun a => ?_,
    fun a => ?_⟩
  · rw [hnew.fresh]
    constructor
    · intro ha
      refine ⟨hreach a ha.1, fun p hp => ?_⟩
      by_contra hlt
      exact ha.2 ((h.seen a).mpr ⟨p, hp, by omega⟩)
    · intro ha
      obtain ⟨⟨p, hp, hlen⟩, hmin⟩ := ha
      have hfar : a ∉ seen := by
        intro hseen
        obtain ⟨q, hq, hle⟩ := (h.seen a).mp hseen
        have := hmin q hq
        omega
      exact ⟨h.mem_children hexpands hp hlen hfar, hfar⟩
  · rw [hnew.seen]
    constructor
    · intro ha
      rcases ha with ha | ha
      · obtain ⟨p, hp, hle⟩ := (h.seen a).mp ha
        exact ⟨p, hp, by omega⟩
      · obtain ⟨p, hp, hlen⟩ := hreach a ha
        exact ⟨p, hp, by omega⟩
    · intro ha
      obtain ⟨p, hp, hle⟩ := ha
      by_cases hseen : a ∈ seen
      · exact .inl hseen
      · refine .inr (h.mem_children hexpands hp ?_ hseen)
        by_contra hne
        exact hseen ((h.seen a).mpr ⟨p, hp, by omega⟩)

theorem Explored.append [DecidableEq α] {d : ℕ} {seen : Finset α} {items level : List ι}
    (h : Explored edge root key path d items) (hlevel : Level edge root key path d seen level) :
    Explored edge root key path (d + 1) (items ++ level) where
  shortest x hx := by
    rcases List.mem_append.mp hx with hx | hx
    · exact h.shortest x hx
    · have hleads := hlevel.leads x hx
      have hmin := ((hlevel.nearest (key x)).mp (List.mem_map_of_mem hx)).2
      exact ⟨hleads.1, fun p hp => hleads.2 ▸ hmin p hp⟩
  nodup := by
    rw [List.map_append, List.nodup_append]
    refine ⟨h.nodup, hlevel.nodup, fun a ha b hb heq => ?_⟩
    subst heq
    obtain ⟨p, hp, hlt⟩ := (h.exact a).mp ha
    have := ((hlevel.nearest a).mp hb).2 p hp
    omega
  exact a := by
    rw [List.map_append, List.mem_append, h.exact, hlevel.nearest]
    constructor
    · intro ha
      rcases ha with ⟨p, hp, hlt⟩ | ⟨⟨p, hp, hlen⟩, _⟩
      · exact ⟨p, hp, by omega⟩
      · exact ⟨p, hp, by omega⟩
    · intro ha
      obtain ⟨p, hp, hle⟩ := ha
      by_cases hnear : ∃ q, Leads edge root q a ∧ q.length < d
      · exact .inl hnear
      · have hmin (q : List β) (hq : Leads edge root q a) : d ≤ q.length := by
          by_contra hlt
          exact hnear ⟨q, hq, by omega⟩
        have := hmin p hp
        exact .inr ⟨⟨p, hp, by omega⟩, hmin⟩

/-- An empty level means that everything reachable is nearer. -/
theorem Explored.of_empty [DecidableEq α] {d D : ℕ} {seen : Finset α} {items : List ι}
    (h : Explored edge root key path d items) (hlevel : Level edge root key path d seen [])
    (hle : d ≤ D) : Explored edge root key path D items where
  shortest := h.shortest
  nodup := h.nodup
  exact a := by
    have hnear (p : List β) (b : α) (hp : Leads edge root p b) (hlen : p.length = d) :
        ∃ q, Leads edge root q b ∧ q.length < d := by
      by_contra hfar
      have hb := (hlevel.nearest b).mpr ⟨⟨p, hp, hlen⟩, fun q hq => by
        by_contra hlt
        exact hfar ⟨q, hq, by omega⟩⟩
      simp at hb
    have hall (p : List β) (b : α) (hp : Leads edge root p b) :
        ∃ q, Leads edge root q b ∧ q.length < d := by
      induction hp with
      | nil =>
        by_cases hd : d = 0
        · exact hnear [] root .nil hd.symm
        · exact ⟨[], .nil, by simp; omega⟩
      | snoc hp e ih =>
        rename_i l
        obtain ⟨q, hq, hlt⟩ := ih
        by_cases hend : (q ++ [l]).length < d
        · exact ⟨q ++ [l], .snoc hq e, hend⟩
        · refine hnear (q ++ [l]) _ (.snoc hq e) ?_
          rw [List.length_append, List.length_singleton] at *
          omega
    rw [h.exact]
    constructor
    · intro ha
      obtain ⟨p, hp, hlt⟩ := ha
      exact ⟨p, hp, by omega⟩
    · intro ha
      obtain ⟨p, hp, _⟩ := ha
      exact hall p a hp

end Level

end Nemclass.LevelSearch
