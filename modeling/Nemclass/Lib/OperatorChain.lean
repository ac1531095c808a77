import Mathlib.Data.List.Basic
import Nemclass.Lib.Outcome

/-! Chains of left-associative operators over a list of tokens: the loop that reads
them from the left, the relation it computes, and the left-recursive production
`chain → operand | chain operator operand` that the relation agrees with. -/
namespace Nemclass.OperatorChain
open Outcome

variable {τ ε ω α α' β β' : Type}

/-- What is left after a read that consumed at least one token. -/
abbrev Rest (ts : List τ) := {rest : List τ // rest.length < ts.length}

abbrev Reader (τ ε β : Type) := (ts : List τ) → Except ε (β × Rest ts)

/-- The read succeeds with a value and leaves a rest. -/
def Yields {ts : List τ} (x : Except ε (β × Rest ts)) (b : β) (rest : List τ) : Prop :=
  ∃ h, x = .ok (b, ⟨rest, h⟩)

section Yields
variable {ts us : List τ} {b : β} {rest : List τ}

@[simp] theorem yields_ok {a : β} {r : Rest ts} :
    Yields (.ok (a, r) : Except ε (β × Rest ts)) b rest ↔ a = b ∧ r.1 = rest := by
  constructor
  · rintro ⟨h, hok⟩
    cases hok
    exact ⟨rfl, rfl⟩
  · rintro ⟨rfl, rfl⟩
    exact ⟨r.2, rfl⟩

@[simp] theorem not_yields_error {e : ε} :
    ¬ Yields (.error e : Except ε (β × Rest ts)) b rest := by
  rintro ⟨h, herr⟩
  cases herr

theorem yields_bind {x : Except ε α} {f : α → Except ε (β × Rest ts)} :
    Yields (x >>= f) b rest ↔ ∃ a, x = .ok a ∧ Yields (f a) b rest := by
  unfold Yields
  simp only [bind_eq_ok]
  constructor
  · rintro ⟨h, a, hx, hf⟩
    exact ⟨a, hx, h, hf⟩
  · rintro ⟨a, hx, h, hf⟩
    exact ⟨h, a, hx, hf⟩

theorem yields_bind_read {x : Except ε (α × Rest ts)}
    {f : α × Rest ts → Except ε (β × Rest us)} :
    Yields (x >>= f) b rest ↔
      ∃ a mid, ∃ h : mid.length < ts.length, x = .ok (a, ⟨mid, h⟩) ∧
        Yields (f (a, ⟨mid, h⟩)) b rest := by
  rw [yields_bind]
  constructor
  · rintro ⟨⟨a, mid, h⟩, hx, hf⟩
    exact ⟨a, mid, h, hx, hf⟩
  · rintro ⟨a, mid, h, hx, hf⟩
    exact ⟨(a, ⟨mid, h⟩), hx, hf⟩

theorem yields_map {x : Except ε (α × Rest ts)} {f : α → β} :
    Yields (do let (a, r) ← x; .ok (f a, r)) b rest ↔ ∃ a, Yields x a rest ∧ f a = b := by
  rw [yields_bind_read]
  constructor
  · rintro ⟨a, mid, h, hx, hok⟩
    obtain ⟨rfl, rfl⟩ := yields_ok.mp hok
    exact ⟨a, ⟨h, hx⟩, rfl⟩
  · rintro ⟨a, ⟨h, hx⟩, rfl⟩
    exact ⟨a, rest, h, hx, yields_ok.mpr ⟨rfl, rfl⟩⟩

/-- A read that starts after the token `t`. -/
def past (t : τ) (x : Except ε (β × Rest ts)) : Except ε (β × Rest (t :: ts)) := do
  let (b, rest) ← x
  .ok (b, ⟨rest.1, Nat.lt_succ_of_lt rest.2⟩)

@[simp] theorem yields_past {t : τ} {x : Except ε (β × Rest ts)} :
    Yields (past t x) b rest ↔ Yields x b rest := by
  unfold past
  rw [yields_bind_read]
  constructor
  · rintro ⟨b, mid, h, rfl, hrest⟩
    obtain ⟨rfl, rfl⟩ := yields_ok.mp hrest
    exact ⟨h, rfl⟩
  · rintro ⟨h, rfl⟩
    exact ⟨b, rest, h, rfl, yields_ok.mpr ⟨rfl, rfl⟩⟩

end Yields

def Reader.Reads (r : Reader τ ε β) (ts : List τ) (b : β) (rest : List τ) : Prop :=
  Yields (r ts) b rest

section Loop
variable (lift : β → α) (op : τ → Option ω) (apply : ω → α → β → α) (operand : Reader τ ε β)

/-- Extends a left operand for as long as an operator follows. -/
def leftAssocFrom (lhs : α) (ts : List τ) :
    Except ε (α × {rest : List τ // rest.length ≤ ts.length}) :=
  match ts with
  | [] => .ok (lhs, ⟨[], Nat.le_refl _⟩)
  | t :: ts =>
    match op t with
    | none => .ok (lhs, ⟨t :: ts, Nat.le_refl _⟩)
    | some o => do
      let (rhs, mid) ← operand ts
      let (e, rest) ← leftAssocFrom (apply o lhs rhs) mid.1
      .ok (e, ⟨rest.1, Nat.le_trans rest.2 (Nat.le_of_lt (Nat.lt_succ_of_lt mid.2))⟩)
termination_by ts.length
decreasing_by exact Nat.lt_succ_of_lt mid.2

def leftAssoc : Reader τ ε α := fun ts => do
  let (first, mid) ← operand ts
  let (e, rest) ← leftAssocFrom op apply operand (lift first) mid.1
  .ok (e, ⟨rest.1, Nat.lt_of_le_of_lt rest.2 mid.2⟩)

end Loop

/-- No operator at the head. -/
def Stops (op : τ → Option ω) (ts : List τ) : Prop := ∀ t ∈ ts.head?, op t = none

theorem stops_nil (op : τ → Option ω) : Stops op [] := by simp [Stops]

theorem stops_cons {op : τ → Option ω} {t : τ} {ts : List τ} :
    Stops op (t :: ts) ↔ op t = none := by simp [Stops]

section Relation
variable (lift : β → α) (op : τ → Option ω) (apply : ω → α → β → α)
  (R : List τ → β → List τ → Prop)

/-- What the loop computes from a left operand on. -/
inductive Tail : α → List τ → α → List τ → Prop where
  | stop {a ts} (h : Stops op ts) : Tail a ts a ts
  | step {a t ts o b mid e rest} (ho : op t = some o) (hb : R ts b mid)
      (htail : Tail (apply o a b) mid e rest) : Tail a (t :: ts) e rest

def ReadsChain (ts : List τ) (e : α) (rest : List τ) : Prop :=
  ∃ b mid, R ts b mid ∧ Tail op apply R (lift b) mid e rest

end Relation

section Reads
variable {lift : β → α} {op : τ → Option ω} {apply : ω → α → β → α} {operand : Reader τ ε β}

theorem leftAssocFrom_iff_tail {a e : α} {ts rest : List τ} :
    (∃ h, leftAssocFrom op apply operand a ts = .ok (e, ⟨rest, h⟩)) ↔
      Tail op apply operand.Reads a ts e rest := by
  constructor
  · rintro ⟨h, hrun⟩
    fun_induction leftAssocFrom op apply operand a ts with
    | case1 a =>
      cases hrun
      exact .stop (stops_nil op)
    | case2 a t ts hop =>
      cases hrun
      exact .stop (stops_cons.mpr hop)
    | case3 a t ts o hop ih =>
      obtain ⟨⟨b, mid⟩, hread, hrun⟩ := bind_eq_ok.mp hrun
      obtain ⟨⟨e', rest'⟩, hnext, hout⟩ := bind_eq_ok.mp hrun
      cases hout
      exact .step hop ⟨mid.2, hread⟩ (ih b mid rest'.2 hnext)
  · intro htail
    induction htail with
    | @stop a ts h =>
      refine ⟨Nat.le_refl _, ?_⟩
      cases ts with
      | nil => rw [leftAssocFrom]
      | cons t ts => rw [leftAssocFrom, stops_cons.mp h]
    | @step a t ts o b mid e rest ho hb _ ih =>
      obtain ⟨hmid, hread⟩ := hb
      obtain ⟨hrest, hnext⟩ := ih
      refine ⟨Nat.le_trans hrest (Nat.le_of_lt (Nat.lt_succ_of_lt hmid)), ?_⟩
      rw [leftAssocFrom, ho]
      exact bind_eq_ok.mpr ⟨_, hread, bind_eq_ok.mpr ⟨_, hnext, rfl⟩⟩

theorem leftAssoc_reads {ts rest : List τ} {e : α} :
    (leftAssoc lift op apply operand).Reads ts e rest ↔
      ReadsChain lift op apply operand.Reads ts e rest := by
  unfold leftAssoc Reader.Reads ReadsChain
  rw [yields_bind_read]
  constructor
  · rintro ⟨b, mid, hmid, hread, hnext⟩
    obtain ⟨⟨e', rest'⟩, hrun, hout⟩ := yields_bind.mp hnext
    obtain ⟨rfl, rfl⟩ := yields_ok.mp hout
    exact ⟨b, mid, ⟨hmid, hread⟩, leftAssocFrom_iff_tail.mp ⟨rest'.2, hrun⟩⟩
  · rintro ⟨b, mid, ⟨hmid, hread⟩, htail⟩
    obtain ⟨hrest, hrun⟩ := leftAssocFrom_iff_tail.mpr htail
    exact ⟨b, mid, hmid, hread,
      yields_bind.mpr ⟨(e, ⟨rest, hrest⟩), hrun, yields_ok.mpr ⟨rfl, rfl⟩⟩⟩

end Reads

/-- A relation that reads at most one value, and leaves at most one rest. -/
def Deterministic (R : List τ → β → List τ → Prop) : Prop :=
  ∀ ⦃ts b b' rest rest'⦄, R ts b rest → R ts b' rest' → b = b' ∧ rest = rest'

section Unique
variable {lift : β → α} {op : τ → Option ω} {apply : ω → α → β → α}
  {R : List τ → β → List τ → Prop}

theorem Tail.unique (hR : Deterministic R) {a e e' : α} {ts rest rest' : List τ}
    (h : Tail op apply R a ts e rest) (h' : Tail op apply R a ts e' rest') :
    e = e' ∧ rest = rest' := by
  induction h with
  | stop hs =>
    cases h' with
    | stop => exact ⟨rfl, rfl⟩
    | step ho => simp [stops_cons.mp hs] at ho
  | step ho hb _ ih =>
    cases h' with
    | stop hs => simp [stops_cons.mp hs] at ho
    | step ho' hb' htail' =>
      obtain rfl := Option.some.inj (ho.symm.trans ho')
      obtain ⟨rfl, rfl⟩ := hR hb hb'
      exact ih htail'

theorem readsChain_deterministic (hR : Deterministic R) :
    Deterministic (ReadsChain lift op apply R) := by
  rintro ts e e' rest rest' ⟨b, mid, hb, htail⟩ ⟨b', mid', hb', htail'⟩
  obtain ⟨rfl, rfl⟩ := hR hb hb'
  exact htail.unique hR htail'

end Unique

section Image
variable {lift : β → α} {op : τ → Option ω} {apply : ω → α → β → α}
  {lift' : β' → α'} {apply' : ω → α' → β' → α'} {φ : α → α'} {ψ : β → β'}
  {R : List τ → β → List τ → Prop} {R' : List τ → β' → List τ → Prop}

/-- A chain over the images of operands is the image of a chain over the operands. -/
theorem readsChain_image (hR : ∀ ts b' rest, R' ts b' rest ↔ ∃ b, R ts b rest ∧ ψ b = b')
    (hlift : ∀ b, φ (lift b) = lift' (ψ b))
    (happly : ∀ o a b, φ (apply o a b) = apply' o (φ a) (ψ b))
    {ts rest : List τ} {e' : α'} :
    ReadsChain lift' op apply' R' ts e' rest ↔
      ∃ e, ReadsChain lift op apply R ts e rest ∧ φ e = e' := by
  have himage : ∀ {x ts e' rest}, Tail op apply' R' x ts e' rest →
      ∀ a, φ a = x → ∃ e, Tail op apply R a ts e rest ∧ φ e = e' := by
    intro x ts e' rest htail
    induction htail with
    | stop hs => exact fun a ha => ⟨a, .stop hs, ha⟩
    | @step x t ts o b' mid e' rest ho hb _ ih =>
      rintro a rfl
      obtain ⟨b, hread, rfl⟩ := (hR _ _ _).mp hb
      obtain ⟨e, htail, he⟩ := ih (apply o a b) (happly o a b)
      exact ⟨e, .step ho hread htail, he⟩
  have hmap : ∀ {a ts e rest}, Tail op apply R a ts e rest →
      Tail op apply' R' (φ a) ts (φ e) rest := by
    intro a ts e rest htail
    induction htail with
    | stop hs => exact .stop hs
    | step ho hb _ ih => exact .step ho ((hR _ _ _).mpr ⟨_, hb, rfl⟩) (happly _ _ _ ▸ ih)
  constructor
  · rintro ⟨b', mid, hb, htail⟩
    obtain ⟨b, hread, rfl⟩ := (hR _ _ _).mp hb
    obtain ⟨e, htail, he⟩ := himage htail (lift b) (hlift b)
    exact ⟨e, ⟨b, mid, hread, htail⟩, he⟩
  · rintro ⟨e, ⟨b, mid, hb, htail⟩, rfl⟩
    exact ⟨ψ b, mid, (hR _ _ _).mpr ⟨b, hb, rfl⟩, hlift b ▸ hmap htail⟩

end Image

section Spelled
variable (lift : β → α) (op : τ → Option ω) (apply : ω → α → β → α) (S : β → List τ → Prop)

/-- The left-recursive production. -/
inductive Spelled : α → List τ → Prop where
  | operand {b ts} (hb : S b ts) : Spelled (lift b) ts
  | extend {a ts t o b us} (ha : Spelled a ts) (ho : op t = some o) (hb : S b us) :
      Spelled (apply o a b) (ts ++ t :: us)

/-- Reading a prefix that `S` spells, when what follows meets `F`. -/
def ReadsPrefix (F : List τ → Prop) (ts : List τ) (b : β) (rest : List τ) : Prop :=
  ∃ used, ts = used ++ rest ∧ S b used ∧ F rest

variable {lift op apply S} {F : List τ → Prop}

theorem Tail.spelled {a e : α} {mid rest used : List τ}
    (htail : Tail op apply (ReadsPrefix S F) a mid e rest)
    (ha : Spelled lift op apply S a used) (hF : F mid) :
    ∃ all, used ++ mid = all ++ rest ∧ Spelled lift op apply S e all ∧ F rest ∧ Stops op rest := by
  induction htail generalizing used with
  | stop hs => exact ⟨used, rfl, ha, hF, hs⟩
  | @step a t ts o b mid e rest ho hb _ ih =>
    obtain ⟨us, rfl, hb, hmid⟩ := hb
    obtain ⟨all, heq, hall⟩ := ih (ha.extend ho hb) hmid
    exact ⟨all, by rw [← heq, List.append_assoc, List.cons_append], hall⟩

/-- After a spelled chain the loop goes on from the chain's value. -/
theorem Spelled.readsChain (hF : ∀ t ts, op t ≠ none → F (t :: ts)) {a e : α}
    {used rest out : List τ} (ha : Spelled lift op apply S a used) (hrest : F rest)
    (htail : Tail op apply (ReadsPrefix S F) a rest e out) :
    ReadsChain lift op apply (ReadsPrefix S F) (used ++ rest) e out := by
  induction ha generalizing rest with
  | operand hb => exact ⟨_, rest, ⟨_, rfl, hb, hrest⟩, htail⟩
  | @extend a ts t o b us _ ho hb ih =>
    rw [List.append_assoc, List.cons_append]
    exact ih (hF t _ (by simp [ho])) (.step ho ⟨us, rfl, hb, hrest⟩ htail)

theorem readsChain_iff_spelled (hF : ∀ t ts, op t ≠ none → F (t :: ts)) {ts rest : List τ}
    {e : α} :
    ReadsChain lift op apply (ReadsPrefix S F) ts e rest ↔
      ReadsPrefix (Spelled lift op apply S) (fun rest => F rest ∧ Stops op rest) ts e rest := by
  constructor
  · rintro ⟨b, mid, ⟨used, rfl, hb, hmid⟩, htail⟩
    obtain ⟨all, heq, hall, hrest⟩ := htail.spelled (.operand hb) hmid
    exact ⟨all, heq, hall, hrest⟩
  · rintro ⟨used, rfl, he, hrest, hs⟩
    exact he.readsChain hF hrest (.stop hs)

end Spelled

end Nemclass.OperatorChain
