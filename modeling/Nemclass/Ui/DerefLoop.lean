import Nemclass.Scan.IntText
import Nemclass.Ui.RowIds

/-! The rebuilding of the class view: the walk and the reads of expanded pointers take turns, since
what a pointer leads to may show further pointers. -/
namespace Nemclass.Ui
open Usize Model Codegen Relation Scan

/-- A process whose memory may change between two reads. A read tells how many bytes it brought,
unless it failed, and what its buffer of zeroes holds then. -/
structure ViewProcess (σ : Type) where
  readBuf : σ → ℕ → ℕ → (Option ℕ × List UInt8) × σ

abbrev DerefBufs := String → Option (ℕ × List UInt8)

/-- `MAX_DEREF_DEPTH` -/
def maxDerefDepth : ℕ := 8

def View.reading (v : View) (bufs : DerefBufs) : View := { v with derefBufs := bufs }

section Loop
variable {σ : Type} [UuidText]

/-- `read_process_buf` -/
def readProcessBuf (proc : ViewProcess σ) (addr size : ℕ) (w : σ) : List UInt8 × σ :=
  if size = 0 then ([], w)
  else
    let r := proc.readBuf w addr size
    (r.1.2, r.2)

/-- The word at an address, or zero where it cannot be read in full. -/
def readPointer (proc : ViewProcess σ) (addr : ℕ) (w : σ) : ℕ × σ :=
  let r := proc.readBuf w addr 8
  (if 8 ≤ r.1.1.getD 0 then leBytes r.1.2 else 0, r.2)

/-- What the loop keeps of an expanded pointer: where it leads, and the bytes of its class there. -/
def dereference (project : Project) (proc : ViewProcess σ) (addr : ℕ) (target : Uuid) (w : σ) :
    (ℕ × List UInt8) × σ :=
  let (derefAddr, w) := readPointer proc addr w
  if derefAddr = 0 then ((0, []), w)
  else
    let targetSize :=
      match project.getClass target with
      | some c => (resolvedClassSize project ∅ c).size
      | none => 0
    if 0 < targetSize then
      let (buf, w) := readProcessBuf proc derefAddr targetSize w
      ((derefAddr, buf), w)
    else ((derefAddr, []), w)

/-- The rows of the viewed class, if there is one. -/
def viewRows (v : View) (uuid : Uuid) (base : ℕ) : List NodeSnapshot :=
  match v.project.getClass uuid with
  | some c => flattenNodes v (viewCall uuid c base maxDerefDepth)
  | none => []

/-- The expanded pointers that still need a buffer, each with its address and its class. -/
def needed (v : View) (rows : List NodeSnapshot) : List (String × ℕ × Uuid) :=
  rows.filterMap fun s => do
    let target ← s.pointerTarget
    if s.typeTag = "Pointer" ∧ s.idPath ∈ v.expandedPtrs ∧ v.derefBufs s.idPath = none then
      some (s.idPath, s.address, target)
    else none

/-- One round of reads. -/
def fill (project : Project) (proc : ViewProcess σ) :
    List (String × ℕ × Uuid) → DerefBufs → σ → DerefBufs × σ
  | [], bufs, w => (bufs, w)
  | (id, addr, target) :: rest, bufs, w =>
    let r := dereference project proc addr target w
    fill project proc rest (Function.update bufs id (some r.1)) r.2

/-- The expanded pointers that have no buffer. -/
def unread (v : View) (bufs : DerefBufs) : Finset String :=
  v.expandedPtrs.filter fun id => bufs id = none

omit [UuidText] in
theorem mem_needed {v : View} {rows : List NodeSnapshot} {id : String} {addr : ℕ} {target : Uuid} :
    (id, addr, target) ∈ needed v rows ↔ ∃ s ∈ rows, s.pointerTarget = some target ∧
      s.typeTag = "Pointer" ∧ id ∈ v.expandedPtrs ∧ v.derefBufs id = none ∧ s.idPath = id ∧
        s.address = addr := by
  simp only [needed, List.mem_filterMap, Option.bind_eq_bind, Option.bind_eq_some_iff,
    Option.ite_none_right_eq_some, Option.some.injEq, Prod.mk.injEq]
  grind

variable (project : Project) (proc : ViewProcess σ)

theorem fill_of_notMem {need : List (String × ℕ × Uuid)} {id : String}
    (h : ∀ n ∈ need, n.1 ≠ id) (bufs : DerefBufs) (w : σ) :
    (fill project proc need bufs w).1 id = bufs id := by
  induction need generalizing bufs w with
  | nil => rfl
  | cons n need ih =>
    rw [fill, ih fun m hm => h m (List.mem_cons_of_mem n hm),
      Function.update_of_ne (h n List.mem_cons_self).symm]

/-- What is asked for is there after the round, as it was read at some time. -/
theorem fill_of_mem {need : List (String × ℕ × Uuid)} {id : String} (h : ∃ n ∈ need, n.1 = id)
    (bufs : DerefBufs) (w : σ) : ∃ addr target w', (id, addr, target) ∈ need ∧
      (fill project proc need bufs w).1 id =
        some (dereference project proc addr target w').1 := by
  induction need generalizing bufs w with
  | nil =>
    obtain ⟨n, hn, -⟩ := h
    cases hn
  | cons m need ih =>
    obtain ⟨mid, maddr, mtarget⟩ := m
    by_cases hlater : ∃ n ∈ need, n.1 = id
    · obtain ⟨addr, target, w', hmem, heq⟩ := ih hlater
        (Function.update bufs mid (some (dereference project proc maddr mtarget w).1))
        (dereference project proc maddr mtarget w).2
      exact ⟨addr, target, w', List.mem_cons_of_mem _ hmem, heq⟩
    · obtain ⟨n, hn, hid⟩ := h
      rcases List.mem_cons.mp hn with rfl | hn
      · subst hid
        refine ⟨maddr, mtarget, w, List.mem_cons_self, ?_⟩
        rw [fill, fill_of_notMem _ _ fun n hn hid => hlater ⟨n, hn, hid⟩, Function.update_self]
      · exact absurd ⟨n, hn, hid⟩ hlater

/-- A round leaves fewer pointers without a buffer. -/
theorem unread_fill_lt {v : View} {bufs : DerefBufs} {rows : List NodeSnapshot}
    (h : needed (v.reading bufs) rows ≠ []) (w : σ) :
    (unread v (fill project proc (needed (v.reading bufs) rows) bufs w).1).card <
      (unread v bufs).card := by
  obtain ⟨⟨id, addr, target⟩, rest, heq⟩ := List.exists_cons_of_ne_nil h
  have hmem : (id, addr, target) ∈ needed (v.reading bufs) rows := by
    rw [heq]
    exact List.mem_cons_self
  obtain ⟨-, -, -, -, hexpanded, hnone, -, -⟩ := mem_needed.mp hmem
  refine Finset.card_lt_card ((Finset.ssubset_iff_of_subset ?_).mpr ⟨id, ?_, ?_⟩)
  · intro x hx
    obtain ⟨hx, hxnone⟩ := Finset.mem_filter.mp hx
    refine Finset.mem_filter.mpr ⟨hx, ?_⟩
    by_cases hneed : ∃ n ∈ needed (v.reading bufs) rows, n.1 = x
    · obtain ⟨_, _, _, -, hsome⟩ := fill_of_mem project proc hneed bufs w
      rw [hsome] at hxnone
      cases hxnone
    · rw [← hxnone, fill_of_notMem _ _ fun n hn hid => hneed ⟨n, hn, hid⟩]
  · exact Finset.mem_filter.mpr ⟨hexpanded, hnone⟩
  · intro hunread
    obtain ⟨_, _, _, -, hsome⟩ := fill_of_mem project proc ⟨_, hmem, rfl⟩ bufs w
    rw [(Finset.mem_filter.mp hunread).2] at hsome
    cases hsome

variable {project} {proc}

/-- The loop of `rebuild_snapshots_from_buf`: the rows, the buffers of the expanded pointers. -/
def rebuild (proc : Option (ViewProcess σ)) (v : View) (uuid : Uuid) (base : ℕ)
    (bufs : DerefBufs) (w : σ) : List NodeSnapshot × DerefBufs × σ :=
  let rows := viewRows (v.reading bufs) uuid base
  let need := needed (v.reading bufs) rows
  if _hneed : need = [] then (rows, bufs, w)
  else
    match proc with
    | none => (rows, need.foldl (fun bufs n => Function.update bufs n.1 (some (0, []))) bufs, w)
    | some proc =>
      let r := fill v.project proc need bufs w
      rebuild proc v uuid base r.1 r.2
termination_by (unread v bufs).card
decreasing_by exact unread_fill_lt v.project proc _hneed w

end Loop

section Rows
variable [UuidText] {v : View} {bufs bufs' : DerefBufs} {c c' : Call} {row : NodeSnapshot}

/-- More buffers. -/
def Extends (bufs bufs' : DerefBufs) : Prop := ∀ id b, bufs id = some b → bufs' id = some b

theorem callsAt_extends (h : Extends bufs bufs') {i cur : ℕ} {n : Node}
    (hcall : CallsAt (v.reading bufs) c i cur n c') : CallsAt (v.reading bufs') c i cur n c' := by
  cases hcall with
  | nested hne => exact .nested hne
  | inlined heq => exact .inlined heq
  | dereferenced heq =>
    obtain ⟨uuid, target, addr, buf, huuid, hgates, hbuf, hget, rfl⟩ :=
      (dereferenced_eq_some _).mp heq
    exact .dereferenced ((dereferenced_eq_some _).mpr
      ⟨uuid, target, addr, buf, huuid, hgates, h _ _ hbuf, hget, rfl⟩)

theorem flattenNodes_extends (h : Extends bufs bufs')
    (hrow : row ∈ flattenNodes (v.reading bufs) c) : row ∈ flattenNodes (v.reading bufs') c := by
  obtain ⟨c', i, n, hpath, hn, rfl⟩ := mem_flattenNodes_iff.mp hrow
  refine mem_flattenNodes_iff.mpr ⟨c', i, n, ?_, hn, rfl⟩
  refine ReflTransGen.mono (fun d d' hsub => ?_) _ _ hpath
  obtain ⟨j, m, hm, hcall⟩ := hsub
  exact ⟨j, m, hm, callsAt_extends h hcall⟩

/-- Further buffers do not change the rows that are there. -/
theorem viewRows_extends (h : Extends bufs bufs') {uuid : Uuid} {base : ℕ}
    (hrow : row ∈ viewRows (v.reading bufs) uuid base) :
    row ∈ viewRows (v.reading bufs') uuid base := by
  unfold viewRows at *
  split at hrow
  · rename_i viewed hget
    have hget' : (v.reading bufs').project.getClass uuid = some viewed := hget
    rw [hget']
    exact flattenNodes_extends h hrow
  · cases hrow

end Rows

section Rebuild
variable {σ : Type} [UuidText] {proc : ViewProcess σ} {v : View} {uuid : Uuid} {base : ℕ}
  {bufs : DerefBufs}

/-- Every buffer is that of a row of an expanded pointer, and was read through this row's word. -/
def Read (proc : ViewProcess σ) (v : View) (uuid : Uuid) (base : ℕ) (bufs : DerefBufs) : Prop :=
  ∀ id b, bufs id = some b → ∃ row ∈ viewRows (v.reading bufs) uuid base, row.idPath = id ∧
    id ∈ v.expandedPtrs ∧ ∃ target, row.pointerTarget = some target ∧
      ∃ w, b = (dereference v.project proc row.address target w).1

theorem fill_extends (proc : ViewProcess σ) (v : View) (bufs : DerefBufs)
    (rows : List NodeSnapshot) (w : σ) :
    Extends bufs (fill v.project proc (needed (v.reading bufs) rows) bufs w).1 := by
  intro id b hb
  rw [fill_of_notMem _ _ fun n hn hid => ?_, hb]
  obtain ⟨nid, addr, target⟩ := n
  obtain ⟨-, -, -, -, -, hnone, -, -⟩ := mem_needed.mp hn
  subst hid
  rw [show (v.reading bufs).derefBufs nid = bufs nid from rfl, hb] at hnone
  cases hnone

theorem read_fill (h : Read proc v uuid base bufs) (w : σ) :
    Read proc v uuid base (fill v.project proc
      (needed (v.reading bufs) (viewRows (v.reading bufs) uuid base)) bufs w).1 := by
  intro id b hb
  have hextends := fill_extends proc v bufs (viewRows (v.reading bufs) uuid base) w
  by_cases hneed : ∃ n ∈ needed (v.reading bufs) (viewRows (v.reading bufs) uuid base), n.1 = id
  · obtain ⟨addr, target, w', hmem, hsome⟩ := fill_of_mem v.project proc hneed bufs w
    obtain ⟨row, hrow, htarget, -, hexpanded, -, hid, rfl⟩ := mem_needed.mp hmem
    rw [hb] at hsome
    exact ⟨row, viewRows_extends hextends hrow, hid, hexpanded, target, htarget, w',
      Option.some.inj hsome⟩
  · rw [fill_of_notMem _ _ fun n hn hid => hneed ⟨n, hn, hid⟩] at hb
    obtain ⟨row, hrow, hid, hread⟩ := h id b hb
    exact ⟨row, viewRows_extends hextends hrow, hid, hread⟩

/-- The loop ends with the rows of its buffers, when none of them needs a further buffer. -/
theorem rebuild_spec (h : Read proc v uuid base bufs) (w : σ) :
    let r := rebuild (some proc) v uuid base bufs w
    r.1 = viewRows (v.reading r.2.1) uuid base ∧ needed (v.reading r.2.1) r.1 = [] ∧
      Read proc v uuid base r.2.1 := by
  induction hcard : (unread v bufs).card using Nat.strong_induction_on generalizing bufs w with
  | _ card ih =>
    rw [rebuild]
    split
    · rename_i hneed
      exact ⟨rfl, hneed, h⟩
    · rename_i hneed
      exact ih _ (hcard ▸ unread_fill_lt v.project proc hneed w) (read_fill h w) _ rfl

/-- The class view of an attached process. Its rows are the walk over the buffers that it ends
with. Each expanded pointer has a buffer, which was read through the word that its own row shows,
and the rows below it are listed from the address that this word held. -/
theorem rebuild_follows (proc : ViewProcess σ) (v : View) (uuid : Uuid) (base : ℕ) (w : σ) :
    let r := rebuild (some proc) v uuid base (fun _ => none) w
    r.1 = viewRows (v.reading r.2.1) uuid base ∧
    (∀ id, (r.2.1 id).isSome → ∃ row ∈ r.1, row.idPath = id) ∧
    ∀ row ∈ r.1, ∀ target, row.typeTag = "Pointer" → row.pointerTarget = some target →
      row.idPath ∈ v.expandedPtrs → ∃ w',
        r.2.1 row.idPath = some (dereference v.project proc row.address target w').1 ∧
        ∀ child ∈ r.1, ∀ j : ℕ, child.idPath = row.idPath ++ "." ++ toString j →
          child.address =
            wrappingAdd (dereference v.project proc row.address target w').1.1 child.offset := by
  have hstart : Read proc v uuid base fun _ => none := fun id b hb => by cases hb
  obtain ⟨hrows, hneeded, hread⟩ := rebuild_spec hstart w
  dsimp only
  generalize rebuild (some proc) v uuid base (fun _ => none) w = r at *
  obtain ⟨rows, bufs, w'⟩ := r
  dsimp only at hrows hneeded hread ⊢
  refine ⟨hrows, fun id hid => ?_, fun row hrow target htag htarget hexpanded => ?_⟩
  · obtain ⟨b, hb⟩ := Option.isSome_iff_exists.mp hid
    obtain ⟨row, hrow, hid, -⟩ := hread id b hb
    exact ⟨row, hrows ▸ hrow, hid⟩
  · cases hbuf : bufs row.idPath with
    | none =>
      have hmem : (row.idPath, row.address, target) ∈ needed (v.reading bufs) rows :=
        mem_needed.mpr ⟨row, hrow, htarget, htag, hexpanded, hbuf, rfl, rfl⟩
      rw [hneeded] at hmem
      cases hmem
    | some b =>
      obtain ⟨row', hrow', hid, -, target', htarget', w', rfl⟩ := hread _ b hbuf
      rw [hrows, viewRows] at hrow
      rw [viewRows] at hrow' hrows
      cases hget : (v.reading bufs).project.getClass uuid with
      | none =>
        rw [hget] at hrow
        cases hrow
      | some viewed =>
        rw [hget] at hrow hrow' hrows
        dsimp only at hrow hrow' hrows
        -- the row that the buffer was read for is this one
        obtain rfl : row' = row :=
          List.inj_on_of_nodup_map (nodup_idPath (p := []) _ rfl) hrow' hrow hid
        rw [htarget] at htarget'
        obtain rfl := Option.some.inj htarget'
        refine ⟨w', rfl, fun child hchild j hj => ?_⟩
        rw [hrows] at hchild
        obtain ⟨addr, buf, hkept, haddress⟩ :=
          address_of_child rfl hrow hchild hj (by rw [htarget]; rfl)
        rw [show (v.reading bufs).derefBufs row'.idPath = bufs row'.idPath from rfl, hbuf] at hkept
        rw [haddress, Option.some.inj hkept]

end Rebuild

end Nemclass.Ui
