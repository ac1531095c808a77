import Mathlib.Data.Finset.Card
import Mathlib.Data.Finset.Image
import Mathlib.Data.Finset.Range
import Nemclass.Address.SpiderFormula

/-! The two ways to follow a pointer path. Resolving it again checks each sum and evaluating its
formula wraps, so they agree over a memory where no sum leaves the address space; and the formula
is read back only where its literals fit a signed word. -/
namespace Nemclass.Address
open Model Usize Scan

section Refused
variable {expr : String} {off : ℕ}

theorem forwards_hop (h : Forwards expr) : Forwards ("[" ++ expr ++ "] + " ++ lowerHex off) := by
  intro bs hbs hrest
  have hclose := (refuses_plus (forwards_lowerHex off hbs hrest)).closeBracket
  simp only [Utf8.bytes_append, List.append_assoc]
  exact (h (endsHex_closeBracket _) hclose).openBracket

theorem spoils_hop (h : Spoils expr ∨ Forwards expr ∧ 2 ^ 63 ≤ off) :
    Spoils ("[" ++ expr ++ "] + " ++ lowerHex off) := by
  intro bs hbs
  simp only [Utf8.bytes_append, List.append_assoc]
  rcases h with h | ⟨h, hoff⟩
  · exact (h (endsHex_closeBracket _)).openBracket
  · have hclose := (refuses_plus (spoils_lowerHex hoff hbs)).closeBracket
    exact (h (endsHex_closeBracket _) hclose).openBracket

/-- One literal that does not fit a signed word is enough. -/
theorem spoils_pointerFormula {p : PointerPath} {name : String} {m : ℕ}
    (hname : '>' ∉ name.toList)
    (hlarge : 2 ^ 63 ≤ wrappingSub p.base m ∨ ∃ o ∈ p.offsets, 2 ^ 63 ≤ o) :
    Spoils (p.toFormula name m) := by
  refine spoils_foldl forwards_hop spoils_hop (hlarge.imp (spoils_anchor hname) fun hoff => ?_)
  exact ⟨forwards_anchor hname, hoff⟩

end Refused

/-- An anchor in a module that is not loaded has no address. -/
theorem evaluate_anchor_none {modules : ModuleResolver} {reader : MemoryReader} {name : String}
    (hm : modules name = none) (off a : ℕ) :
    evaluate modules reader (anchorTree name off).expr ≠ .ok a := by
  have hmodule (a : ℕ) : evaluate modules reader (.module name) ≠ .ok a := by
    rw [evaluate, hm]
    rintro ⟨⟩
  unfold anchorTree
  split
  · exact hmodule a
  · intro hok
    obtain ⟨l, hl, -⟩ := Outcome.bind_eq_ok.mp hok
    exact hmodule l hl

/-- Memory holds words of the address space. -/
def Words (reader : MemoryReader) : Prop := ∀ a v, reader a = .ok v → v ≤ usizeMax

/-- No sum on the walk leaves the address space. -/
def Climbs (reader : MemoryReader) : List ℕ → ℕ → Prop
  | [], _ => True
  | off :: offs, addr =>
    match reader addr with
    | .ok v => v + off ≤ usizeMax ∧ Climbs reader offs (v + off)
    | .error _ => True

section Walks
variable {reader : MemoryReader} {offs : List ℕ} {goal : ℕ}

theorem resolveFrom_of_follow (hne : offs ≠ []) {addr : ℕ} (hclimbs : Climbs reader offs addr)
    (hgoal : follow reader offs addr = .ok goal) :
    ((reader addr).toOption.bind fun v =>
      PointerPath.resolveFrom (fun a => (reader a).toOption) offs v) = some goal := by
  induction offs generalizing addr with
  | nil => exact absurd rfl hne
  | cons off offs ih =>
    rw [Climbs] at hclimbs
    rw [follow] at hgoal
    obtain ⟨v, hv, hgoal⟩ := Outcome.bind_eq_ok.mp hgoal
    rw [hv] at hclimbs
    obtain ⟨hle, hclimbs⟩ := hclimbs
    rw [wrappingAdd_of_le hle] at hgoal
    rw [hv, Except.toOption, Option.bind_some, PointerPath.resolveFrom, checkedAdd_of_le hle]
    cases offs with
    | nil =>
      cases hgoal
      rfl
    | cons off' offs => exact ih (List.cons_ne_nil _ _) hclimbs hgoal

/-- Over a memory where no sum wraps, both ways lead to the same address. -/
theorem resolve_iff_follow {p : PointerPath} (hne : p.offsets ≠ [])
    (hclimbs : Climbs reader p.offsets p.base) :
    p.resolve (fun a => (reader a).toOption) = some goal ↔
      follow reader p.offsets p.base = .ok goal :=
  ⟨follow_of_resolve hne, resolveFrom_of_follow hne hclimbs⟩

theorem climbs_of_zero (hwords : Words reader) (hzero : ∀ o ∈ offs, o = 0) (addr : ℕ) :
    Climbs reader offs addr := by
  induction offs generalizing addr with
  | nil => trivial
  | cons off offs ih =>
    obtain ⟨rfl, hrest⟩ := List.forall_mem_cons.mp hzero
    rw [Climbs]
    split
    · rename_i v hv
      exact ⟨hwords addr v hv, ih hrest _⟩
    · trivial

end Walks

/-- A memory with one value everywhere but in its holes. -/
def flatReader (value : ℕ) (hole : ℕ → Bool) : MemoryReader := fun a =>
  if hole a then .error (.resolveError "unmapped") else .ok value

section Flat
variable {value : ℕ} {hole : ℕ → Bool} {offs : List ℕ} {addr : ℕ}

theorem words_flatReader (hvalue : value ≤ usizeMax) : Words (flatReader value hole) := by
  intro a v h
  unfold flatReader at h
  split at h <;> cases h
  exact hvalue

theorem follow_hole (hne : offs ≠ []) (hhole : hole addr = true) (goal : ℕ) :
    follow (flatReader value hole) offs addr ≠ .ok goal := by
  cases offs with
  | nil => exact absurd rfl hne
  | cons off offs =>
    rw [follow, flatReader, if_pos hhole]
    rintro ⟨⟩

/-- A walk that keeps clear of the holes ends somewhere, and climbs. -/
theorem climbs_flat (haddr : hole addr = false)
    (hoffs : ∀ o ∈ offs, hole (value + o) = false ∧ value + o ≤ usizeMax) :
    Climbs (flatReader value hole) offs addr ∧
      ∃ goal, follow (flatReader value hole) offs addr = .ok goal := by
  induction offs generalizing addr with
  | nil => exact ⟨trivial, addr, rfl⟩
  | cons off offs ih =>
    obtain ⟨⟨hnext, hle⟩, hoffs⟩ := List.forall_mem_cons.mp hoffs
    have hread : flatReader value hole addr = .ok value := by
      rw [flatReader, haddr]
      rfl
    obtain ⟨hclimbs, goal, hgoal⟩ := ih hnext hoffs
    rw [Climbs, follow, hread]
    refine ⟨⟨hle, hclimbs⟩, goal, ?_⟩
    rw [← hgoal, ← wrappingAdd_of_le hle]
    rfl

/-- Over the greatest word everywhere, a formula wraps where resolving gives up. -/
theorem follow_greatest (offs : List ℕ) (addr : ℕ) :
    ∃ goal, follow (flatReader usizeMax fun _ => false) offs addr = .ok goal := by
  induction offs generalizing addr with
  | nil => exact ⟨addr, rfl⟩
  | cons off offs ih => exact ih _

theorem zero_of_resolveFrom {goal : ℕ}
    (h : PointerPath.resolveFrom
      (fun a => (flatReader usizeMax (fun _ => false) a).toOption) offs usizeMax = some goal) :
    ∀ o ∈ offs, o = 0 := by
  induction offs with
  | nil => simp
  | cons off offs ih =>
    rw [PointerPath.resolveFrom] at h
    obtain ⟨stepped, hstep, h⟩ := Option.bind_eq_some_iff.mp h
    obtain ⟨-, hle⟩ := checkedAdd_eq_some.mp hstep
    refine List.forall_mem_cons.mpr ⟨by omega, ?_⟩
    cases offs with
    | nil => simp
    | cons off' offs => exact ih h

end Flat

/-- Small enough a value can be found that misses an address from every offset. -/
theorem exists_missing (offs : List ℕ) (a : ℕ) : ∃ c ≤ offs.length, ∀ o ∈ offs, c + o ≠ a := by
  have hcard : (offs.toFinset.image (a - ·)).card < (Finset.range (offs.length + 1)).card := by
    rw [Finset.card_range]
    have hle := Finset.card_image_le (s := offs.toFinset) (f := (a - ·))
    have hlen := offs.toFinset_card_le
    omega
  obtain ⟨c, hc, hnot⟩ := Finset.exists_mem_notMem_of_card_lt_card hcard
  rw [Finset.mem_range] at hc
  refine ⟨c, by omega, fun o ho heq => hnot ?_⟩
  rw [Finset.mem_image]
  exact ⟨o, List.mem_toFinset.mpr ho, by omega⟩

end Nemclass.Address
