import Nemclass.Lib.Capped
import Nemclass.Scan.PointerScan

/-! What a pointer scan finds. The capped search over shared state is the cut
of an uncapped enumeration, and leaves the visited set and the suffix as they
were. The enumeration lists each chain from a static anchor to the goal once,
where a chain passes through no slot twice. -/
namespace Nemclass.Scan
open Usize PartitionPoint Capped

/-- What one frame of the search did: it offered `found` to the output, and restored the rest. -/
structure Search.Explores (limit : ℕ) (st st' : Search) (found : List PointerPath) : Prop where
  visited_eq : st'.visited = st.visited
  suffix_eq : st'.suffix = st.suffix
  out_eq : st'.out = offer limit st.out found
  complete : st'.truncated = false → st.truncated = false ∧ st'.out = st.out ++ found

namespace Search.Explores
variable {limit : ℕ} {st st' st'' : Search} {found found' : List PointerPath}

theorem refl (h : st.out.length ≤ limit) : Explores limit st st [] :=
  ⟨rfl, rfl, (offer_nil h).symm, fun ht => ⟨ht, (List.append_nil _).symm⟩⟩

theorem trans (h : Explores limit st st' found) (h' : Explores limit st' st'' found') :
    Explores limit st st'' (found ++ found') := by
  refine ⟨h'.visited_eq.trans h.visited_eq, h'.suffix_eq.trans h.suffix_eq, ?_, fun ht => ?_⟩
  · rw [h'.out_eq, h.out_eq, offer_offer]
  · have hlater := h'.complete ht
    have hearlier := h.complete hlater.1
    exact ⟨hearlier.1, by rw [hlater.2, hearlier.2, List.append_assoc]⟩

/-- A frame that finds the output full reports it, whatever was still to be found. -/
theorem full (hfull : limit ≤ st.out.length) (hcap : st.out.length ≤ limit)
    (found : List PointerPath) : Explores limit st { st with truncated := true } found :=
  ⟨rfl, rfl, (offer_full (Nat.le_antisymm hcap hfull) found).symm, fun ht => by simp at ht⟩

theorem length_le (h : Explores limit st st' found) : st'.out.length ≤ limit := by
  rw [h.out_eq, length_offer]
  exact Nat.min_le_left _ _

end Search.Explores

namespace PointerMap
variable (map : PointerMap) (cfg : PointerScanConfig) (statics : List Range)

/-- The paths through one candidate hop; `below` enumerates one level up. -/
def hopPaths (below : List ℕ → ℕ → List PointerPath) (goal : ℕ) (suffix : List ℕ) (e : ℕ × ℕ) :
    List PointerPath :=
  if isMapped statics e.2 then [⟨e.2, (goal - e.1) :: suffix⟩]
  else below ((goal - e.1) :: suffix) e.2

/-- Every path to `goal` within the depth, in search order, with `suffix` appended. -/
def paths : ℕ → Finset ℕ → List ℕ → ℕ → List PointerPath
  | 0, _, _, _ => []
  | depth + 1, visited, suffix, goal =>
    if goal ∈ visited then []
    else (map.range (goal - cfg.maxOffset) goal).flatMap
      (hopPaths statics (paths depth (insert goal visited)) goal suffix)

variable {map cfg}

theorem hops_explores (below : List ℕ → ℕ → List PointerPath) (next : ℕ → Search → Search)
    (visited : Finset ℕ) (goal : ℕ) (hnext : ∀ (addr : ℕ) (st : Search), st.visited = visited →
      st.out.length ≤ cfg.maxResults →
      st.Explores cfg.maxResults (next addr st) (below st.suffix addr))
    (entries : List (ℕ × ℕ)) (st : Search) (hvisited : st.visited = visited)
    (hcap : st.out.length ≤ cfg.maxResults) :
    st.Explores cfg.maxResults (hops cfg statics next goal entries st)
      (entries.flatMap (hopPaths statics below goal st.suffix)) := by
  induction entries generalizing st with
  | nil => exact .refl hcap
  | cons e entries ih =>
    obtain ⟨value, addr⟩ := e
    rw [List.flatMap_cons]
    unfold hops
    by_cases hfull : cfg.maxResults ≤ st.out.length
    · rw [if_pos hfull]
      exact .full hfull hcap _
    · rw [if_neg hfull]
      by_cases hstatic : isMapped statics addr = true
      · have hfound : hopPaths statics below goal st.suffix (value, addr) =
            [⟨addr, (goal - value) :: st.suffix⟩] := if_pos hstatic
        have hpush : st.Explores cfg.maxResults
            { st with out := st.out ++ [⟨addr, (goal - value) :: st.suffix⟩] }
            [⟨addr, (goal - value) :: st.suffix⟩] := by
          refine ⟨rfl, rfl, (offer_of_le ?_).symm, fun ht => ⟨ht, rfl⟩⟩
          rw [List.length_singleton]
          omega
        rw [hfound]
        simp only [hstatic, if_true]
        exact hpush.trans (ih _ hvisited hpush.length_le)
      · have hfound : hopPaths statics below goal st.suffix (value, addr) =
            below ((goal - value) :: st.suffix) addr := if_neg hstatic
        have hframe := hnext addr { st with suffix := (goal - value) :: st.suffix } hvisited hcap
        rw [hfound]
        simp only [hstatic]
        generalize next addr { st with suffix := (goal - value) :: st.suffix } = st' at hframe
        have hhop : st.Explores cfg.maxResults { st' with suffix := st'.suffix.tail }
            (below ((goal - value) :: st.suffix) addr) :=
          ⟨hframe.visited_eq, by rw [hframe.suffix_eq, List.tail_cons], hframe.out_eq, hframe.complete⟩
        have hrest := ih { st' with suffix := st'.suffix.tail } (hhop.visited_eq.trans hvisited)
          hhop.length_le
        rw [hhop.suffix_eq] at hrest
        exact hhop.trans hrest

/-- The search offers exactly the enumerated paths, and restores what its frames share. -/
theorem solve_explores (depth goal : ℕ) (st : Search) (hcap : st.out.length ≤ cfg.maxResults) :
    st.Explores cfg.maxResults (map.solve cfg statics depth goal st)
      (map.paths cfg statics depth st.visited st.suffix goal) := by
  induction depth generalizing goal st with
  | zero =>
    unfold solve
    by_cases hfull : cfg.maxResults ≤ st.out.length
    · rw [if_pos hfull]
      exact .full hfull hcap _
    · rw [if_neg hfull]
      exact .refl hcap
  | succ depth ih =>
    unfold solve paths
    by_cases hfull : cfg.maxResults ≤ st.out.length
    · rw [if_pos hfull]
      exact .full hfull hcap _
    · rw [if_neg hfull]
      by_cases hseen : goal ∈ st.visited
      · rw [if_pos hseen, if_pos hseen]
        exact .refl hcap
      · rw [if_neg hseen, if_neg hseen]
        have hhops := hops_explores statics (map.paths cfg statics depth (insert goal st.visited))
          (fun addr => map.solve cfg statics depth addr) (insert goal st.visited) goal
          (fun addr st' hvisited hcap' => hvisited ▸ ih addr st' hcap')
          (map.range (goal - cfg.maxOffset) goal) { st with visited := insert goal st.visited } rfl hcap
        refine ⟨?_, hhops.suffix_eq, hhops.out_eq, hhops.complete⟩
        exact (congrArg (Finset.erase · goal) hhops.visited_eq).trans (Finset.erase_insert hseen)

/-- One hop: `slot` is recorded to hold a value that is `off` before `next`, within the bound. -/
def Hop (map : PointerMap) (cfg : PointerScanConfig) (slot next off : ℕ) : Prop :=
  ∃ value, (value, slot) ∈ map.entries ∧ value ≤ next ∧ next - value = off ∧ off ≤ cfg.maxOffset

/-- The hops from `base` to a goal, with their offsets and the slots in between. -/
inductive Hops (map : PointerMap) (cfg : PointerScanConfig) (base : ℕ) :
    ℕ → List ℕ → List ℕ → Prop
  | one {goal off : ℕ} (h : map.Hop cfg base goal off) : Hops map cfg base goal [off] []
  | snoc {slot goal off : ℕ} {offs slots : List ℕ} (hs : Hops map cfg base slot offs slots)
      (h : map.Hop cfg slot goal off) : Hops map cfg base goal (offs ++ [off]) (slots ++ [slot])

theorem Hops.slots_recorded {base goal : ℕ} {offs slots : List ℕ}
    (h : map.Hops cfg base goal offs slots) :
    (∃ value, (value, base) ∈ map.entries) ∧ ∀ s ∈ slots, ∃ value, (value, s) ∈ map.entries := by
  induction h with
  | one h =>
    obtain ⟨value, hmem, _⟩ := h
    exact ⟨⟨value, hmem⟩, by simp⟩
  | snoc hs h ih =>
    obtain ⟨value, hmem, _⟩ := h
    refine ⟨ih.1, fun s hs => ?_⟩
    rcases List.mem_append.mp hs with hs | hs
    · exact ih.2 s hs
    · exact ⟨value, List.mem_singleton.mp hs ▸ hmem⟩

/-- An offset is at most the address it leads to. -/
theorem Hops.offsets_le {base goal : ℕ} {offs slots : List ℕ}
    (h : map.Hops cfg base goal offs slots) (hgoal : goal ≤ usizeMax) :
    ∀ o ∈ offs, o ≤ usizeMax := by
  induction h with
  | one h =>
    obtain ⟨value, -, -, rfl, -⟩ := h
    rw [List.forall_mem_singleton]
    omega
  | snoc hs h ih =>
    obtain ⟨value, hmem, -, rfl, -⟩ := h
    intro o ho
    rcases List.mem_append.mp ho with ho | ho
    · exact ih (map.bounded _ hmem).2 o ho
    · rw [List.mem_singleton.mp ho]
      omega

theorem mem_range {value slot goal : ℕ} :
    (value, slot) ∈ map.range (goal - cfg.maxOffset) goal ↔
      (value, slot) ∈ map.entries ∧ value ≤ goal ∧ goal - value ≤ cfg.maxOffset := by
  rw [range, range_eq_filter map.sorted, List.mem_filter, decide_eq_true_eq]
  constructor
  · rintro ⟨hmem, hlo, hhi⟩
    exact ⟨hmem, hhi, by omega⟩
  · rintro ⟨hmem, hhi, hoff⟩
    exact ⟨hmem, by omega, hhi⟩

/-- A chain as the search sees it from a goal: anchored at its base and nowhere else, through no
slot twice, and avoiding the visited ones. -/
structure LinksTo (map : PointerMap) (cfg : PointerScanConfig) (statics : List Range) (depth : ℕ)
    (visited : Finset ℕ) (base goal : ℕ) (offs slots : List ℕ) : Prop where
  hops : map.Hops cfg base goal offs slots
  anchored : isMapped statics base = true
  free : ∀ s ∈ slots, isMapped statics s = false
  simple : (slots ++ [goal]).Nodup
  fresh : ∀ s ∈ slots ++ [goal], s ∉ visited
  short : offs.length ≤ depth

variable {statics} {depth base goal slot off : ℕ} {visited : Finset ℕ} {offs slots : List ℕ}

theorem LinksTo.one (h : map.Hop cfg base goal off) (hbase : isMapped statics base = true)
    (hseen : goal ∉ visited) : map.LinksTo cfg statics (depth + 1) visited base goal [off] [] where
  hops := .one h
  anchored := hbase
  free := by simp
  simple := List.nodup_singleton goal
  fresh := by simpa using hseen
  short := by simp

/-- Extending a chain to a fresh goal. -/
theorem LinksTo.snoc
    (hs : map.LinksTo cfg statics depth (insert goal visited) base slot offs slots)
    (h : map.Hop cfg slot goal off) (hslot : isMapped statics slot = false)
    (hseen : goal ∉ visited) :
    map.LinksTo cfg statics (depth + 1) visited base goal (offs ++ [off]) (slots ++ [slot]) where
  hops := .snoc hs.hops h
  anchored := hs.anchored
  free s hmem := by
    rcases List.mem_append.mp hmem with hmem | hmem
    · exact hs.free s hmem
    · rwa [List.mem_singleton.mp hmem]
  simple := by
    refine List.nodup_append.mpr ⟨hs.simple, List.nodup_singleton goal, fun s hmem g hg heq => ?_⟩
    obtain rfl := List.mem_singleton.mp hg
    exact hs.fresh s hmem (heq ▸ Finset.mem_insert_self _ _)
  fresh s hmem := by
    rcases List.mem_append.mp hmem with hmem | hmem
    · exact fun hv => hs.fresh s hmem (Finset.mem_insert_of_mem hv)
    · rwa [List.mem_singleton.mp hmem]
  short := by simpa using hs.short

/-- Taking the last hop off a chain leaves one that avoids the goal as well. -/
theorem LinksTo.init
    (h : map.LinksTo cfg statics (depth + 1) visited base goal (offs ++ [off]) (slots ++ [slot]))
    (hs : map.Hops cfg base slot offs slots) :
    map.LinksTo cfg statics depth (insert goal visited) base slot offs slots where
  hops := hs
  anchored := h.anchored
  free s hmem := h.free s (List.mem_append_left _ hmem)
  simple := (List.nodup_append.mp h.simple).1
  fresh s hmem := by
    rw [Finset.mem_insert, not_or]
    exact ⟨(List.nodup_append.mp h.simple).2.2 s hmem goal (List.mem_singleton_self goal),
      h.fresh s (List.mem_append_left _ hmem)⟩
  short := by simpa using h.short

/-- The enumeration below a goal consists of the chains to it. -/
theorem mem_paths (depth : ℕ) (visited : Finset ℕ) (suffix : List ℕ) (goal : ℕ) (p : PointerPath) :
    p ∈ map.paths cfg statics depth visited suffix goal ↔ ∃ offs slots,
      p.offsets = offs ++ suffix ∧
        map.LinksTo cfg statics depth visited p.base goal offs slots := by
  induction depth generalizing visited suffix goal with
  | zero =>
    refine iff_of_false (by simp [paths]) ?_
    rintro ⟨offs, slots, _, h⟩
    have hlen := h.short
    cases h.hops <;> simp at hlen
  | succ depth ih =>
    unfold paths
    by_cases hseen : goal ∈ visited
    · rw [if_pos hseen]
      refine iff_of_false (by simp) ?_
      rintro ⟨offs, slots, _, h⟩
      exact h.fresh goal (by simp) hseen
    · rw [if_neg hseen, List.mem_flatMap]
      constructor
      · rintro ⟨⟨value, slot⟩, hrange, hp⟩
        obtain ⟨hmem, hle, hoff⟩ := mem_range.mp hrange
        have hhop : map.Hop cfg slot goal (goal - value) := ⟨value, hmem, hle, rfl, hoff⟩
        unfold hopPaths at hp
        by_cases hstatic : isMapped statics slot = true
        · rw [if_pos hstatic, List.mem_singleton] at hp
          subst hp
          exact ⟨[goal - value], [], rfl, .one hhop hstatic hseen⟩
        · rw [if_neg hstatic, ih] at hp
          obtain ⟨offs, slots, hoffs, h⟩ := hp
          exact ⟨offs ++ [goal - value], slots ++ [slot], by simp [hoffs],
            h.snoc hhop (by simpa using hstatic) hseen⟩
      · rintro ⟨offs, slots, hoffs, h⟩
        have hhops := h.hops
        cases hhops with
        | one hhop =>
          obtain ⟨value, hmem, hle, rfl, hoff⟩ := hhop
          refine ⟨(value, p.base), mem_range.mpr ⟨hmem, hle, hoff⟩, ?_⟩
          rw [hopPaths, if_pos h.anchored, List.mem_singleton]
          exact PointerPath.ext rfl hoffs
        | snoc hs hhop =>
          rename_i slot off offs slots
          have hfree := h.free slot (by simp)
          obtain ⟨value, hmem, hle, rfl, hoff⟩ := hhop
          refine ⟨(value, slot), mem_range.mpr ⟨hmem, hle, hoff⟩, ?_⟩
          rw [hopPaths, if_neg (by simp [hfree]), ih]
          exact ⟨offs, slots, by simp [hoffs], h.init hs⟩

section Memory
variable {readPtr : ℕ → Option ℕ}

/-- The entries are words of one memory. -/
def Holds (map : PointerMap) (readPtr : ℕ → Option ℕ) : Prop :=
  ∀ value slot, (value, slot) ∈ map.entries → readPtr slot = some value

theorem resolveFrom_append {off : ℕ} {more : List ℕ} (hmore : more ≠ []) {addr : ℕ}
    (hle : addr + off ≤ usizeMax) : PointerPath.resolveFrom readPtr (off :: more) addr =
      (readPtr (addr + off)).bind (PointerPath.resolveFrom readPtr more) := by
  simp [PointerPath.resolveFrom, checkedAdd_of_le hle, hmore]

/-- Following the offsets of a chain leads to its goal, and from there on to whatever comes next. -/
theorem Hops.resolve (hread : map.Holds readPtr) (h : map.Hops cfg base goal offs slots)
    (hgoal : goal ≤ usizeMax) : PointerPath.resolve ⟨base, offs⟩ readPtr = some goal ∧
      ∀ more ≠ [], PointerPath.resolve ⟨base, offs ++ more⟩ readPtr =
        (readPtr goal).bind (PointerPath.resolveFrom readPtr more) := by
  induction h with
  | one h =>
    obtain ⟨value, hmem, hle, rfl, _⟩ := h
    have hsum : value + (_ - value) = _ := Nat.add_sub_cancel' hle
    constructor
    · simp [PointerPath.resolve, hread value base hmem, PointerPath.resolveFrom, checkedAdd, hsum,
        checked_of_le hgoal]
    · intro more hmore
      simp only [PointerPath.resolve, hread value base hmem, List.singleton_append,
        Option.bind_eq_bind, Option.bind_some]
      rw [resolveFrom_append hmore (by omega), hsum]
  | snoc hs h ih =>
    obtain ⟨value, hmem, hle, rfl, _⟩ := h
    have hsum : value + (_ - value) = _ := Nat.add_sub_cancel' hle
    have hbefore := ih (map.bounded _ hmem).2
    constructor
    · rw [hbefore.2 _ (List.cons_ne_nil _ _), hread value _ hmem]
      simp [PointerPath.resolveFrom, checkedAdd, hsum, checked_of_le hgoal]
    · intro more hmore
      rw [List.append_assoc, List.singleton_append, hbefore.2 _ (List.cons_ne_nil _ _),
        hread value _ hmem, Option.bind_some, resolveFrom_append hmore (by omega), hsum]

/-- The slot a path has reached after some of its offsets. -/
def reached (readPtr : ℕ → Option ℕ) (base : ℕ) (offs : List ℕ) : Option ℕ :=
  if offs = [] then some base else PointerPath.resolve ⟨base, offs⟩ readPtr

theorem reached_of_mem_hopPaths (hread : map.Holds readPtr) {suffix : List ℕ} {e : ℕ × ℕ}
    (he : e ∈ map.range (goal - cfg.maxOffset) goal) {p : PointerPath}
    (hp : p ∈ hopPaths statics (map.paths cfg statics depth visited) goal suffix e) :
    ∃ offs, p.offsets = offs ++ (goal - e.1) :: suffix ∧
      reached readPtr p.base offs = some e.2 := by
  obtain ⟨value, slot⟩ := e
  unfold hopPaths at hp
  by_cases hstatic : isMapped statics slot = true
  · rw [if_pos hstatic, List.mem_singleton] at hp
    subst hp
    exact ⟨[], rfl, rfl⟩
  · rw [if_neg hstatic, mem_paths] at hp
    obtain ⟨offs, slots, hoffs, h⟩ := hp
    have hne : offs ≠ [] := by
      have hhops := h.hops
      cases hhops <;> simp
    have hslot := (map.bounded _ (mem_range.mp he).1).2
    exact ⟨offs, hoffs, by rw [reached, if_neg hne, (h.hops.resolve hread hslot).1]⟩

/-- A path belongs to one candidate hop only. -/
theorem hopPaths_injective (hread : map.Holds readPtr) {suffix : List ℕ} {e e' : ℕ × ℕ}
    (he : e ∈ map.range (goal - cfg.maxOffset) goal)
    (he' : e' ∈ map.range (goal - cfg.maxOffset) goal) {p : PointerPath}
    (hp : p ∈ hopPaths statics (map.paths cfg statics depth visited) goal suffix e)
    (hp' : p ∈ hopPaths statics (map.paths cfg statics depth visited) goal suffix e') : e = e' := by
  obtain ⟨offs, hoffs, hreached⟩ := reached_of_mem_hopPaths hread he hp
  obtain ⟨offs', hoffs', hreached'⟩ := reached_of_mem_hopPaths hread he' hp'
  obtain ⟨rfl, htail⟩ := List.append_inj' (hoffs.symm.trans hoffs') (by simp)
  have hslot : e.2 = e'.2 := Option.some.inj (hreached.symm.trans hreached')
  have hoff := (List.cons.inj htail).1
  have hle := (mem_range.mp he).2.1
  have hle' := (mem_range.mp he').2.1
  exact Prod.ext (by omega) hslot

theorem paths_nodup (hread : map.Holds readPtr) (hentries : map.entries.Nodup) (depth : ℕ)
    (visited : Finset ℕ) (suffix : List ℕ) (goal : ℕ) :
    (map.paths cfg statics depth visited suffix goal).Nodup := by
  induction depth generalizing visited suffix goal with
  | zero => exact List.nodup_nil
  | succ depth ih =>
    unfold paths
    by_cases hseen : goal ∈ visited
    · rw [if_pos hseen]
      exact List.nodup_nil
    · rw [if_neg hseen, List.nodup_flatMap]
      have hrange : (map.range (goal - cfg.maxOffset) goal).Nodup := by
        rw [range, range_eq_filter map.sorted]
        exact hentries.filter _
      constructor
      · intro e _
        unfold hopPaths
        split
        · exact List.nodup_singleton _
        · exact ih _ _ _
      · refine List.Pairwise.imp_of_mem (fun {e e'} he he' hne => ?_) hrange
        exact fun p hp hp' => hne (hopPaths_injective hread he he' hp hp')

end Memory

/-- A slot inside a static range. -/
def Anchor (cfg : PointerScanConfig) (slot : ℕ) : Prop :=
  ∃ r ∈ cfg.staticRanges, r.base ≤ slot ∧ slot < r.stop

/-- The chains a scan is to find: from an anchored slot to the goal, through distinct recorded slots
outside every static range and different from the goal, within the depth. -/
structure Chain (map : PointerMap) (cfg : PointerScanConfig) (goal : ℕ) (p : PointerPath)
    (slots : List ℕ) : Prop where
  hops : map.Hops cfg p.base goal p.offsets slots
  anchored : Anchor cfg p.base
  free : ∀ s ∈ slots, ¬ Anchor cfg s
  distinct : slots.Nodup
  avoids : goal ∉ slots
  nonempty : 1 ≤ p.offsets.length
  short : p.offsets.length ≤ cfg.maxDepth

theorem linksTo_iff_chain (hdis : cfg.staticRanges.Pairwise Region.Disjoint) (goal : ℕ)
    (p : PointerPath) (slots : List ℕ) :
    map.LinksTo cfg cfg.staticRangesSorted cfg.maxDepth ∅ p.base goal p.offsets slots ↔
      map.Chain cfg goal p slots := by
  have hanchor (slot : ℕ) (h : ∃ value, (value, slot) ∈ map.entries) :
      isMapped cfg.staticRangesSorted slot = true ↔ Anchor cfg slot := by
    obtain ⟨value, hmem⟩ := h
    exact isMapped_iff hdis (map.bounded _ hmem).2
  constructor
  · intro h
    have hrecorded := h.hops.slots_recorded
    have hsimple := List.nodup_append.mp h.simple
    have hhops := h.hops
    refine ⟨hhops, (hanchor _ hrecorded.1).mp h.anchored, fun s hs ha => ?_, hsimple.1,
      fun hmem => hsimple.2.2 goal hmem goal (List.mem_singleton_self goal) rfl, ?_, h.short⟩
    · exact Bool.false_ne_true ((h.free s hs).symm.trans ((hanchor s (hrecorded.2 s hs)).mpr ha))
    · generalize p.offsets = offs at hhops
      cases hhops <;> simp
  · intro h
    have hrecorded := h.hops.slots_recorded
    refine ⟨h.hops, (hanchor _ hrecorded.1).mpr h.anchored, fun s hs => ?_, ?_, by simp, h.short⟩
    · rw [← Bool.not_eq_true, hanchor s (hrecorded.2 s hs)]
      exact h.free s hs
    · refine List.nodup_append.mpr ⟨h.distinct, List.nodup_singleton goal, fun s hs g hg heq => ?_⟩
      rw [List.mem_singleton] at hg
      exact h.avoids (hg ▸ heq ▸ hs)

theorem findPaths_explores (map : PointerMap) (cfg : PointerScanConfig) (goal : ℕ) :
    Search.Explores cfg.maxResults {}
      (map.solve cfg cfg.staticRangesSorted cfg.maxDepth goal {})
      (map.paths cfg cfg.staticRangesSorted cfg.maxDepth ∅ [] goal) :=
  solve_explores _ _ _ _ (Nat.zero_le _)

/-- A scan returns the enumeration, cut at the number of results asked for. -/
theorem findPaths_paths (map : PointerMap) (cfg : PointerScanConfig) (goal : ℕ) :
    (map.findPaths cfg goal).paths =
      (map.paths cfg cfg.staticRangesSorted cfg.maxDepth ∅ [] goal).take cfg.maxResults := by
  have hout := (findPaths_explores map cfg goal).out_eq
  rw [show (map.findPaths cfg goal).paths = _ from hout, offer, List.nil_append]

theorem linksTo_of_findPaths {goal : ℕ} {p : PointerPath}
    (hp : p ∈ (map.findPaths cfg goal).paths) :
    ∃ slots, map.LinksTo cfg cfg.staticRangesSorted cfg.maxDepth ∅ p.base goal p.offsets slots := by
  rw [findPaths_paths] at hp
  obtain ⟨offs, slots, hoffs, hlinks⟩ := (mem_paths _ _ _ _ _).mp (List.mem_of_mem_take hp)
  rw [List.append_nil] at hoffs
  exact ⟨slots, hoffs ▸ hlinks⟩

/-- What a pointer scan returns: chains only, each once, each leading to the goal, at most as many
as asked for, and all of them unless it says that it stopped early. -/
structure Finds (map : PointerMap) (cfg : PointerScanConfig) (goal : ℕ) (readPtr : ℕ → Option ℕ)
    (r : PointerScanResult) : Prop where
  sound : ∀ p ∈ r.paths, ∃ slots, map.Chain cfg goal p slots
  once : r.paths.Nodup
  resolves : ∀ p ∈ r.paths, p.resolve readPtr = some goal
  capped : r.paths.length ≤ cfg.maxResults
  complete : r.truncated = false → ∀ p slots, map.Chain cfg goal p slots → p ∈ r.paths

theorem findPaths_finds (map : PointerMap) (cfg : PointerScanConfig) (goal : ℕ)
    (readPtr : ℕ → Option ℕ) (hgoal : goal ≤ usizeMax) (hread : map.Holds readPtr)
    (hentries : map.entries.Nodup) (hdis : cfg.staticRanges.Pairwise Region.Disjoint) :
    map.Finds cfg goal readPtr (map.findPaths cfg goal) := by
  have hexplores := findPaths_explores map cfg goal
  have hmem (p : PointerPath) : p ∈ map.paths cfg cfg.staticRangesSorted cfg.maxDepth ∅ [] goal ↔
      ∃ slots, map.Chain cfg goal p slots := by
    rw [mem_paths]
    constructor
    · intro h
      obtain ⟨offs, slots, hoffs, hlinks⟩ := h
      rw [List.append_nil] at hoffs
      exact ⟨slots, (linksTo_iff_chain hdis goal p slots).mp (hoffs ▸ hlinks)⟩
    · intro h
      obtain ⟨slots, hchain⟩ := h
      exact ⟨p.offsets, slots, (List.append_nil _).symm,
        (linksTo_iff_chain hdis goal p slots).mpr hchain⟩
  have hout := findPaths_paths map cfg goal
  have hsound (p : PointerPath) (hp : p ∈ (map.findPaths cfg goal).paths) :
      ∃ slots, map.Chain cfg goal p slots := (hmem p).mp (List.mem_of_mem_take (hout ▸ hp))
  refine ⟨hsound, ?_, fun p hp => ?_, hexplores.length_le, fun ht p slots hchain => ?_⟩
  · rw [hout]
    exact (paths_nodup hread hentries _ _ _ _).sublist (List.take_sublist _ _)
  · obtain ⟨slots, hchain⟩ := hsound p hp
    exact (hchain.hops.resolve hread hgoal).1
  · have hall := (hexplores.complete ht).2
    rw [show (map.findPaths cfg goal).paths = _ from hall, List.nil_append]
    exact (hmem p).mpr ⟨slots, hchain⟩

/-- A cycle of two slots through which an anchor leads to the goal at two depths. -/
def cyclicMap : PointerMap where
  entries := [(0x2000, 0x1000), (0x2000, 0x3000), (0x3000, 0x2000)]
  truncated := false
  sorted := by decide
  bounded := by decide

theorem findPaths_finds_cyclicMap :
    let cfg : PointerScanConfig := { staticRanges := [⟨0x1000, 0x100⟩] }
    let readPtr (slot : ℕ) : Option ℕ :=
      if slot = 0x1000 ∨ slot = 0x3000 then some 0x2000
      else if slot = 0x2000 then some 0x3000 else none
    cyclicMap.Finds cfg 0x3008 readPtr (cyclicMap.findPaths cfg 0x3008) := by
  refine findPaths_finds _ _ _ _ (by decide) ?_ (by decide) (by decide)
  intro value slot hmem
  simp only [cyclicMap, List.mem_cons, Prod.mk.injEq, List.not_mem_nil, or_false] at hmem
  rcases hmem with ⟨rfl, rfl⟩ | ⟨rfl, rfl⟩ | ⟨rfl, rfl⟩ <;> rfl

end PointerMap

end Nemclass.Scan
