import Nemclass.Analysis.AddrClass
import Nemclass.Lib.MappedStore
import Nemclass.Lib.Outcome
import Nemclass.Model.Dissect

/-! What a word of a target's memory points at, by the mappings of the target and the entries of
the table that it may lead to, and the dissection of a range of a live process by it. -/
namespace Nemclass.Model.Dissect
open Usize MappedPrefix Analysis Scan

/-- `Process::read_buf`: how many bytes came in, and the buffer. -/
abbrev ReadBuf := ℕ → (buf : List UInt8) → Except Error ℕ × {out : List UInt8 // out.length = buf.length}

def maxVtableProbe : ℕ := 8

def minVtableMethods : ℕ := 2

def entrySize : ℕ := 8

section Classify

variable (table : ℕ) (index : ModuleIndex) (read : ReadBuf)

/-- The loop over the entries, when `count` of them are code. -/
def countEntries : List ℕ → ℕ → ℕ
  | [], count => count
  | i :: is, count =>
    match checkedAdd table (i * entrySize) with
    | none => count
    | some entryAddr =>
      match read entryAddr (.replicate entrySize 0) with
      | (.ok n, bytes) =>
        if n = entrySize ∧ index.isExecutable (leBytes bytes.val) then countEntries is (count + 1)
        else count
      | (.error _, _) => count

def countLeadingCodeEntries : ℕ := countEntries table index read (List.range maxVtableProbe) 0

/-- A word of 64 bits always fits the host's. -/
def classifyValue (value : UInt64) (index : ModuleIndex) (read : ReadBuf) : PointerClass :=
  if value = 0 then .null
  else
    let addr := value.toNat
    match index.classify addr with
    | .unmapped => .notPointer
    | .executable _ => .codePtr
    | .data _ =>
      if addr % entrySize ≠ 0 then .dataPtr
      else
        let methods := countLeadingCodeEntries addr index read
        if minVtableMethods ≤ methods then .vTablePtr (UInt64.ofNat methods) else .dataPtr

end Classify

/-- `RegionIndex::from_pid`, the names kept; a map that cannot be read is none. -/
def indexFromPid : Option (List ModuleSection) → Except Error ModuleIndex
  | none => .error .processDied
  | some sections => .ok (ModuleIndex.fromSections sections)

/-- None where the buffer is longer than an allocation can be. -/
def autoDissect (read : ReadBuf) (maps : Option (List ModuleSection)) (base len : ℕ) :
    Option (Except Error (List NodeDef)) :=
  if hlen : len < 2 ^ 63 then some do
    let (r, buf) := read base (.replicate len 0)
    let n ← r
    let index ← indexFromPid maps
    pure (dissectBuffer ⟨buf.val.take n, by
      rw [List.length_take, buf.property, List.length_replicate]
      omega⟩ fun value => classifyValue value index read)
  else none

theorem isSome_autoDissect (read : ReadBuf) (maps : Option (List ModuleSection)) (base : ℕ)
    {len : ℕ} (h : len < 2 ^ 63) : (autoDissect read maps base len).isSome := by
  rw [autoDissect, dif_pos h]
  rfl

theorem autoDissect_dissected {read : ReadBuf} {maps : Option (List ModuleSection)} {base len : ℕ}
    {defs : List NodeDef} (h : autoDissect read maps base len = some (.ok defs)) :
    ∃ buf classify, defs = dissectBuffer buf classify := by
  unfold autoDissect at h
  split at h
  · rw [Option.some.injEq] at h
    obtain ⟨n, -, h⟩ := Outcome.bind_eq_ok.mp h
    obtain ⟨index, -, h⟩ := Outcome.bind_eq_ok.mp h
    exact ⟨_, _, (Except.ok.inj h).symm⟩
  · cases h

/-! ## What a word points at -/

/-- Reads bring the longest prefix that is mapped, and fail only where not all of it is. -/
structure ReadBuf.Reads (read : ReadBuf) (mem : ℕ → Option UInt8) : Prop where
  buffer addr buf : ((read addr buf).2 : List UInt8) = mappedPrefix mem addr buf.length ++
    buf.drop (mappedPrefix mem addr buf.length).length
  count addr buf n : (read addr buf).1 = .ok n → n = (mappedPrefix mem addr buf.length).length
  whole addr buf : (mappedPrefix mem addr buf.length).length = buf.length →
    (read addr buf).1 = .ok buf.length

/-- Mappings that do not overlap and end at an address. -/
structure UserMaps (sections : List ModuleSection) : Prop where
  disjoint : Disjoint (sections.map ModuleSection.toSection)
  below : ∀ s ∈ sections, s.base + s.size ≤ usizeMax

section Meaning

variable (mem : ℕ → Option UInt8) (sections : List ModuleSection)

/-- The address lies in a section with code, or in one without. -/
def InSection (execute : Bool) (addr : ℕ) : Prop :=
  ∃ s ∈ sections, s.execute = execute ∧ s.Covers addr

/-- An entry of a table that can be read throughout and leads to code. -/
def CodeEntry (table i : ℕ) : Prop :=
  table + i * entrySize ≤ usizeMax ∧
    (mappedPrefix mem (table + i * entrySize) entrySize).length = entrySize ∧
    InSection sections true (leBytes (mappedPrefix mem (table + i * entrySize) entrySize))

/-- What a word points at, by the sections and the memory alone. -/
inductive PointsTo : ℕ → PointerClass → Prop
  | null : PointsTo 0 .null
  | notPointer {w : ℕ} (hw : w ≠ 0) (h : ∀ s ∈ sections, ¬ s.Covers w) : PointsTo w .notPointer
  | codePtr {w : ℕ} (hw : w ≠ 0) (h : InSection sections true w) : PointsTo w .codePtr
  | dataPtr {w : ℕ} (hw : w ≠ 0) (h : InSection sections false w)
      (hshort : 8 ∣ w → ∃ i < minVtableMethods, ¬ CodeEntry mem sections w i) : PointsTo w .dataPtr
  | vTablePtr {w k : ℕ} (hw : w ≠ 0) (h : InSection sections false w) (haligned : 8 ∣ w)
      (hmin : minVtableMethods ≤ k) (hmax : k ≤ maxVtableProbe)
      (hcode : ∀ i < k, CodeEntry mem sections w i)
      (hend : k < maxVtableProbe → ¬ CodeEntry mem sections w k) :
      PointsTo w (.vTablePtr (UInt64.ofNat k))

end Meaning

section Classes

variable {mem : ℕ → Option UInt8} {sections : List ModuleSection} {read : ReadBuf}

theorem covers_lt {s : ModuleSection} (hmaps : UserMaps sections) (hs : s ∈ sections) {addr : ℕ}
    (h : s.Covers addr) : addr < usizeMax := h.2.2.trans_le (hmaps.below s hs)

/-- No address lies in two sections. -/
theorem UserMaps.unique (hmaps : UserMaps sections) {s s' : ModuleSection} (hs : s ∈ sections)
    (hs' : s' ∈ sections) {addr : ℕ} (h : s.Covers addr) (h' : s'.Covers addr) : s = s' := by
  by_contra hne
  have hsymm : Std.Symm fun a b : ModuleSection => a.stop ≤ b.base ∨ b.stop ≤ a.base :=
    ⟨fun _ _ => Or.symm⟩
  have hover := (List.pairwise_map.mp hmaps.disjoint).forall hs hs' hne
  have hend := hmaps.below s hs
  have hend' := hmaps.below s' hs'
  obtain ⟨-, hbase, hlt⟩ := h
  obtain ⟨-, hbase', hlt'⟩ := h'
  simp only [Section.stop, saturatingAdd, Nat.min_eq_left hend, Nat.min_eq_left hend'] at hover
  omega

/-- The index finds the section that an address lies in. -/
theorem UserMaps.classify (hmaps : UserMaps sections) {s : ModuleSection} (hs : s ∈ sections)
    {addr : ℕ} (h : s.Covers addr) :
    (ModuleIndex.fromSections sections).classify addr = s.addrClass ∧
      (ModuleIndex.fromSections sections).isExecutable addr = s.execute := by
  have hanswers := answers_of_disjoint hmaps.disjoint (covers_lt hmaps hs h)
  have hfirst : firstCovering sections addr = some s := by
    cases hf : firstCovering sections addr with
    | none =>
      rw [firstCovering, List.find?_eq_none] at hf
      exact absurd (decide_eq_true h) (hf s ((List.mergeSort_perm sections _).mem_iff.mpr hs))
    | some s' =>
      rw [firstCovering] at hf
      have hmem := (List.mergeSort_perm sections _).mem_iff.mp (List.mem_of_find?_eq_some hf)
      have hcovers := List.find?_some (p := fun s : ModuleSection => decide (s.Covers addr)) hf
      rw [hmaps.unique hmem hs (of_decide_eq_true hcovers) h]
  constructor
  · rw [hanswers.classify, hfirst]
    rfl
  · rw [hanswers.isExecutable, hfirst]
    rfl

theorem classify_unmapped {addr : ℕ} (h : ∀ s ∈ sections, ¬ s.Covers addr) :
    (ModuleIndex.fromSections sections).classify addr = .unmapped ∧
      (ModuleIndex.fromSections sections).isExecutable addr = false := by
  have hnone : (ModuleIndex.fromSections sections).covering addr = none := by
    change _ = (none : Option ModuleSection).map ModuleSection.range
    rw [covering_fromSections]
    refine congrArg _ (?_ : decided sections addr = none)
    by_contra hsome
    obtain ⟨s, hd⟩ := Option.ne_none_iff_exists'.mp hsome
    obtain ⟨hmem, hcovers⟩ := covers_of_decided sections addr hd
    exact h s ((List.mergeSort_perm sections _).mem_iff.mp (List.mem_filter.mp hmem).1) hcovers
  constructor
  · rw [ModuleIndex.classify, hnone]
  · rw [ModuleIndex.isExecutable, hnone]
    rfl

theorem isExecutable_iff (hmaps : UserMaps sections) (addr : ℕ) :
    (ModuleIndex.fromSections sections).isExecutable addr = true ↔ InSection sections true addr := by
  constructor
  · intro h
    by_cases hcover : ∃ s ∈ sections, s.Covers addr
    · obtain ⟨s, hs, hcovers⟩ := hcover
      exact ⟨s, hs, (hmaps.classify hs hcovers).2 ▸ h, hcovers⟩
    · rw [(classify_unmapped fun s hs hcovers => hcover ⟨s, hs, hcovers⟩).2] at h
      cases h
  · rintro ⟨s, hs, hexecute, hcovers⟩
    rw [(hmaps.classify hs hcovers).2, hexecute]

/-- A read of an entry. -/
theorem ReadBuf.Reads.entry (hread : read.Reads mem) (addr : ℕ) :
    ((read addr (.replicate entrySize 0)).1 = .ok entrySize →
      (mappedPrefix mem addr entrySize).length = entrySize) ∧
    ((mappedPrefix mem addr entrySize).length = entrySize →
      (read addr (.replicate entrySize 0)).1 = .ok entrySize ∧
        ((read addr (.replicate entrySize 0)).2 : List UInt8) = mappedPrefix mem addr entrySize) := by
  constructor
  · intro h
    exact (hread.count addr (.replicate entrySize 0) entrySize h).symm
  · intro h
    refine ⟨hread.whole addr (.replicate entrySize 0) h, ?_⟩
    have hbuffer : ((read addr (.replicate entrySize 0)).2 : List UInt8) =
      mappedPrefix mem addr entrySize ++ (List.replicate entrySize 0).drop
        (mappedPrefix mem addr entrySize).length := hread.buffer addr (.replicate entrySize 0)
    rw [hbuffer, h]
    exact List.append_nil _

/-- One round of the loop: it goes on exactly if the entry is code. -/
theorem countEntries_cons (hmaps : UserMaps sections) (hread : read.Reads mem) (table i count : ℕ)
    (is : List ℕ) :
    (CodeEntry mem sections table i →
      countEntries table (ModuleIndex.fromSections sections) read (i :: is) count =
        countEntries table (ModuleIndex.fromSections sections) read is (count + 1)) ∧
    (¬ CodeEntry mem sections table i →
      countEntries table (ModuleIndex.fromSections sections) read (i :: is) count = count) := by
  rw [countEntries]
  constructor
  · rintro ⟨hfits, hmapped, hcode⟩
    obtain ⟨hok, hbytes⟩ := (hread.entry _).2 hmapped
    rw [checkedAdd_of_le hfits]
    dsimp only
    generalize read (table + i * entrySize) (.replicate entrySize 0) = r at *
    obtain ⟨n, bytes⟩ := r
    dsimp only at hok hbytes
    subst hok
    dsimp only
    rw [if_pos ⟨rfl, by rw [hbytes]; exact (isExecutable_iff hmaps _).mpr hcode⟩]
  · intro h
    cases hadd : checkedAdd table (i * entrySize) with
    | none => rfl
    | some entryAddr =>
      obtain ⟨rfl, hfits⟩ := checkedAdd_eq_some.mp hadd
      have hentry := hread.entry (table + i * entrySize)
      dsimp only
      generalize read (table + i * entrySize) (.replicate entrySize 0) = r at *
      obtain ⟨e | n, bytes⟩ := r
      · rfl
      · dsimp only at hentry ⊢
        refine if_neg fun ⟨hn, hcode⟩ => h ?_
        rw [hn] at hentry
        have hmapped := hentry.1 rfl
        rw [(hentry.2 hmapped).2] at hcode
        exact ⟨hfits, hmapped, (isExecutable_iff hmaps _).mp hcode⟩

/-- The loop counts entries up to the first that is not code. -/
theorem countEntries_range (hmaps : UserMaps sections) (hread : read.Reads mem) (table : ℕ)
    (i left : ℕ) :
    ∃ k ≤ left, countEntries table (ModuleIndex.fromSections sections) read
        (List.range' i left) i = i + k ∧
      (∀ j < k, CodeEntry mem sections table (i + j)) ∧
      (k < left → ¬ CodeEntry mem sections table (i + k)) := by
  induction left generalizing i with
  | zero => exact ⟨0, Nat.le_refl 0, rfl, fun j hj => absurd hj (Nat.not_lt_zero j),
      fun h => absurd h (Nat.lt_irrefl 0)⟩
  | succ left ih =>
    have hround := countEntries_cons hmaps hread table i i (List.range' (i + 1) left)
    rw [List.range'_succ]
    by_cases hcode : CodeEntry mem sections table i
    · obtain ⟨k, hk, hcount, hall, hend⟩ := ih (i + 1)
      refine ⟨k + 1, Nat.succ_le_succ hk, ?_, fun j hj => ?_, fun hlt => ?_⟩
      · rw [hround.1 hcode, hcount]
        omega
      · cases j with
        | zero => exact hcode
        | succ j =>
          have hj' := hall j (Nat.lt_of_succ_lt_succ hj)
          rwa [Nat.add_right_comm, Nat.add_assoc] at hj'
      · have hk' := hend (Nat.lt_of_succ_lt_succ hlt)
        rwa [Nat.add_right_comm, Nat.add_assoc] at hk'
    · exact ⟨0, Nat.zero_le _, hround.2 hcode, fun j hj => absurd hj (Nat.not_lt_zero j),
        fun _ => hcode⟩

/-- The loop's count. -/
theorem countLeading_spec (hmaps : UserMaps sections) (hread : read.Reads mem) (table : ℕ) :
    ∃ k ≤ maxVtableProbe,
      countLeadingCodeEntries table (ModuleIndex.fromSections sections) read = k ∧
      (∀ i < k, CodeEntry mem sections table i) ∧
      (k < maxVtableProbe → ¬ CodeEntry mem sections table k) := by
  obtain ⟨k, hk, hcount, hall, hend⟩ := countEntries_range hmaps hread table 0 maxVtableProbe
  rw [countLeadingCodeEntries, List.range_eq_range']
  simp only [Nat.zero_add] at hcount hall hend
  exact ⟨k, hk, hcount, hall, hend⟩

/-- The classifier says what the word points at. -/
theorem classifyValue_points (hmaps : UserMaps sections) (hread : read.Reads mem) (value : UInt64) :
    PointsTo mem sections value.toNat
      (classifyValue value (ModuleIndex.fromSections sections) read) := by
  rw [classifyValue]
  split_ifs with hzero
  · subst hzero
    exact .null
  have hw : value.toNat ≠ 0 := fun h => hzero (UInt64.toNat_inj.mp h)
  by_cases hcover : ∃ s ∈ sections, s.Covers value.toNat
  · obtain ⟨s, hs, hcovers⟩ := hcover
    dsimp only
    rw [(hmaps.classify hs hcovers).1, ModuleSection.addrClass]
    cases hexecute : s.execute with
    | true => exact .codePtr hw ⟨s, hs, hexecute, hcovers⟩
    | false =>
      have hdata : InSection sections false value.toNat := ⟨s, hs, hexecute, hcovers⟩
      simp only [Bool.false_eq_true, if_false]
      split_ifs with halign hmethods
      · exact .dataPtr hw hdata fun hdvd => absurd (Nat.mod_eq_zero_of_dvd hdvd) halign
      · obtain ⟨k, hk, hcount, hall, hend⟩ := countLeading_spec hmaps hread value.toNat
        rw [hcount] at hmethods ⊢
        exact .vTablePtr hw hdata (Nat.dvd_of_mod_eq_zero (not_not.mp halign)) hmethods hk hall hend
      · obtain ⟨k, hk, hcount, -, hend⟩ := countLeading_spec hmaps hread value.toNat
        rw [hcount] at hmethods
        have hlt : k < minVtableMethods := Nat.lt_of_not_le hmethods
        exact .dataPtr hw hdata fun _ => ⟨k, hlt, hend (hlt.trans (by decide))⟩
  · dsimp only
    have hnone : ∀ s ∈ sections, ¬ s.Covers value.toNat := fun s hs h => hcover ⟨s, hs, h⟩
    rw [(classify_unmapped hnone).1]
    exact .notPointer hw hnone

/-- A word points at one kind of thing. -/
theorem PointsTo.unique (hmaps : UserMaps sections) {w : ℕ} {c c' : PointerClass}
    (h : PointsTo mem sections w c) (h' : PointsTo mem sections w c') : c = c' := by
  have hapart : InSection sections true w → ¬ InSection sections false w := by
    rintro ⟨s, hs, hexecute, hcovers⟩ ⟨s', hs', hexecute', hcovers'⟩
    rw [hmaps.unique hs hs' hcovers hcovers', hexecute'] at hexecute
    cases hexecute
  have hcovered {execute : Bool} : InSection sections execute w → ∃ s ∈ sections, s.Covers w :=
    fun ⟨s, hs, _, hcovers⟩ => ⟨s, hs, hcovers⟩
  cases h with
  | null =>
    cases h' with
    | null => rfl
    | notPointer hw | codePtr hw | dataPtr hw | vTablePtr hw => exact absurd rfl hw
  | notPointer hw hnone =>
    cases h' with
    | null => exact absurd rfl hw
    | notPointer => rfl
    | codePtr _ hin | dataPtr _ hin | vTablePtr _ hin =>
      obtain ⟨s, hs, hcovers⟩ := hcovered hin
      exact absurd hcovers (hnone s hs)
  | codePtr hw hcode =>
    cases h' with
    | null => exact absurd rfl hw
    | notPointer _ hnone =>
      obtain ⟨s, hs, hcovers⟩ := hcovered hcode
      exact absurd hcovers (hnone s hs)
    | codePtr => rfl
    | dataPtr _ hdata | vTablePtr _ hdata => exact absurd hdata (hapart hcode)
  | dataPtr hw hdata hshort =>
    cases h' with
    | null => exact absurd rfl hw
    | notPointer _ hnone =>
      obtain ⟨s, hs, hcovers⟩ := hcovered hdata
      exact absurd hcovers (hnone s hs)
    | codePtr _ hcode => exact absurd hdata (hapart hcode)
    | dataPtr => rfl
    | vTablePtr _ _ haligned hmin _ hall _ =>
      obtain ⟨i, hi, hentry⟩ := hshort haligned
      exact absurd (hall i (hi.trans_le hmin)) hentry
  | @vTablePtr _ k hw hdata haligned hmin hmax hall hend =>
    cases h' with
    | null => exact absurd rfl hw
    | notPointer _ hnone =>
      obtain ⟨s, hs, hcovers⟩ := hcovered hdata
      exact absurd hcovers (hnone s hs)
    | codePtr _ hcode => exact absurd hdata (hapart hcode)
    | dataPtr _ _ hshort =>
      obtain ⟨i, hi, hentry⟩ := hshort haligned
      exact absurd (hall i (hi.trans_le hmin)) hentry
    | @vTablePtr _ k' _ _ _ _ hmax' hall' hend' =>
      -- the longer of two runs would hold the entry that ends the shorter
      rcases Nat.lt_trichotomy k k' with hlt | rfl | hlt
      · exact absurd (hall' k hlt) (hend (hlt.trans_le hmax'))
      · rfl
      · exact absurd (hall k' hlt) (hend' (hlt.trans_le hmax))

/-- What the classifier says is what the word points at, and it says nothing else. -/
theorem classifyValue_eq_iff (hmaps : UserMaps sections) (hread : read.Reads mem) (value : UInt64)
    (c : PointerClass) : classifyValue value (ModuleIndex.fromSections sections) read = c ↔
      PointsTo mem sections value.toNat c :=
  ⟨fun h => h ▸ classifyValue_points hmaps hread value,
    (classifyValue_points hmaps hread value).unique hmaps⟩

end Classes

/-! ## The dissection -/

section AutoDissect

/-- A word of the target, none where a part of it is not mapped. -/
def targetWord (mem : ℕ → Option UInt8) (addr : ℕ) : Option ℕ :=
  if (mappedPrefix mem addr 8).length = 8 then some (leBytes (mappedPrefix mem addr 8)) else none

/-- The field that a slot of the range gets: text, or what the word there points at. -/
inductive Shows (mem : ℕ → Option UInt8) (sections : List ModuleSection) (base len offset : ℕ) :
    Node → Prop
  | text {run : StringRun}
      (h : stringAt (mappedPrefix mem base len) offset stringMinLen = some run) :
      Shows mem sections base len offset (textNode (fieldName offset) run)
  | vTable {w : ℕ} {k : UInt64} (hw : targetWord mem (base + offset) = some w)
      (h : PointsTo mem sections w (.vTablePtr k)) :
      Shows mem sections base len offset (.vTable (fieldName offset) "" (methodNodes k))
  | functionPtr {w : ℕ} (hw : targetWord mem (base + offset) = some w)
      (h : PointsTo mem sections w .codePtr) :
      Shows mem sections base len offset (.simple .functionPtr (fieldName offset) "")
  | pointer {w : ℕ} (hw : targetWord mem (base + offset) = some w)
      (h : PointsTo mem sections w .dataPtr) :
      Shows mem sections base len offset (.pointer (fieldName offset) "" none)
  | int64 {w : ℕ} (hw : targetWord mem (base + offset) = some w)
      (h : PointsTo mem sections w .null ∨ PointsTo mem sections w .notPointer)
      (hsmall : (UInt64.ofNat w).toInt64.toInt.natAbs < int64SmallBound) :
      Shows mem sections base len offset (.simple .int64 (fieldName offset) "")
  | hex64 {w : ℕ} (hw : targetWord mem (base + offset) = some w)
      (h : PointsTo mem sections w .notPointer)
      (hlarge : int64SmallBound ≤ (UInt64.ofNat w).toInt64.toInt.natAbs) :
      Shows mem sections base len offset (.simple .hex64 (fieldName offset) "")

variable {mem : ℕ → Option UInt8} {sections : List ModuleSection} {read : ReadBuf}

/-- A word of a range that came in is the target's. -/
theorem targetWord_eq {base len offset : ℕ}
    (h : offset + 8 ≤ (mappedPrefix mem base len).length) :
    ∃ w, targetWord mem (base + offset) = some w ∧ w < 2 ^ 64 ∧
      wordAt (mappedPrefix mem base len) offset = UInt64.ofNat w := by
  have hall : mappedPrefix mem base (mappedPrefix mem base len).length =
      mappedPrefix mem base len :=
    mappedPrefix_of_values fun i hi => mappedPrefix_getElem mem base len hi
  have hwindow := mappedPrefix_window h (congrArg List.length hall)
  rw [hall] at hwindow
  have hlen : (mappedPrefix mem (base + offset) 8).length = 8 := by
    rw [← hwindow, List.length_take, List.length_drop]
    omega
  refine ⟨leBytes (mappedPrefix mem (base + offset) 8), if_pos hlen, ?_, by rw [wordAt, hwindow]⟩
  have hlt := leBytes_lt (mappedPrefix mem (base + offset) 8)
  rw [hlen] at hlt
  exact hlt.trans_eq (by decide)

/-- Every slot of a range gets the field that the target's memory asks for. -/
theorem shows_slotNode (hmaps : UserMaps sections) (hread : read.Reads mem) {base len offset : ℕ}
    (h : offset + 8 ≤ (mappedPrefix mem base len).length) :
    Shows mem sections base len offset (slotNode (mappedPrefix mem base len)
      (fun value => classifyValue value (ModuleIndex.fromSections sections) read) offset) := by
  rw [slotNode]
  cases hrun : stringAt (mappedPrefix mem base len) offset stringMinLen with
  | some run => exact .text hrun
  | none =>
    obtain ⟨w, hw, hlt, hword⟩ := targetWord_eq h
    have hpoints := classifyValue_points hmaps hread (UInt64.ofNat w)
    rw [UInt64.toNat_ofNat_of_lt' hlt] at hpoints
    dsimp only
    rw [hword, wordNode]
    generalize classifyValue (UInt64.ofNat w) (ModuleIndex.fromSections sections) read = c at *
    cases c with
    | vTablePtr k => exact .vTable hw hpoints
    | codePtr => exact .functionPtr hw hpoints
    | dataPtr => exact .pointer hw hpoints
    | notPointer =>
      dsimp only
      split_ifs with hsmall
      · exact .int64 hw (.inr hpoints) hsmall
      · exact .hex64 hw hpoints (Nat.le_of_not_lt hsmall)
    | null =>
      cases hpoints
      exact .int64 hw (.inl .null) (by decide)

/-- A dissection fails only where the read or the map does. -/
theorem autoDissect_ok {maps : Option (List ModuleSection)} {base len : ℕ} {defs : List NodeDef}
    (hread : read.Reads mem) (h : autoDissect read maps base len = some (.ok defs)) :
    ∃ sections buf, maps = some sections ∧ buf.bytes = mappedPrefix mem base len ∧
      defs = dissectBuffer buf
        fun value => classifyValue value (ModuleIndex.fromSections sections) read := by
  unfold autoDissect at h
  split at h
  · rw [Option.some.injEq] at h
    obtain ⟨n, hn, h⟩ := Outcome.bind_eq_ok.mp h
    obtain ⟨index, hindex, h⟩ := Outcome.bind_eq_ok.mp h
    cases maps with
    | none => cases hindex
    | some sections =>
      cases hindex
      refine ⟨sections, _, rfl, ?_, (Except.ok.inj h).symm⟩
      have hbuffer := hread.buffer base (.replicate len 0)
      have hcount := hread.count base (.replicate len 0) n hn
      dsimp only
      rw [hbuffer, hcount, List.take_left, List.length_replicate]
  · cases h

/-- The fields of a live range: the nodes that its definitions become stand one for each slot, and
each is the field that the target's memory asks for. What it calls a pointer leads into a section
without code, a function into one with code, and the methods of a table are the entries at its
start that can be read and lead to code, between two and eight; every other word leads nowhere. -/
theorem autoDissect_shows [UuidLibrary] (hmaps : UserMaps sections) (hread : read.Reads mem)
    {base len : ℕ} {defs : List NodeDef}
    (h : autoDissect read (some sections) base len = some (.ok defs)) (k : ℕ) :
    ∃ nodes, (Project.readNodes defs).run k = .ok (nodes, k) ∧
      List.Forall₂ (Shows mem sections base len) (slots (mappedPrefix mem base len)) nodes := by
  obtain ⟨sections', buf, hsections, hbuf, rfl⟩ := autoDissect_ok hread h
  cases hsections
  refine ⟨_, readNodes_dissectBuffer buf _ k, ?_⟩
  rw [dissectedNodes, hbuf, List.forall₂_map_right_iff, List.forall₂_same]
  intro offset hoffset
  refine shows_slotNode hmaps hread ?_
  have hlt := Strides.lt_of_mem_stops hoffset
  omega

/-- A read that brings what is mapped. -/
def prefixRead (mem : ℕ → Option UInt8) : ReadBuf := fun addr buf =>
  (.ok (mappedPrefix mem addr buf.length).length, ⟨mappedPrefix mem addr buf.length ++
    buf.drop (mappedPrefix mem addr buf.length).length, by
      have hle := length_mappedPrefix_le mem addr buf.length
      rw [List.length_append, List.length_drop]
      omega⟩)

theorem prefixRead_reads (mem : ℕ → Option UInt8) : (prefixRead mem).Reads mem where
  buffer _ _ := rfl
  count _ _ _ h := (Except.ok.inj h).symm
  whole _ _ h := congrArg Except.ok h

/-- One section with code, and a word outside it that leads there. -/
theorem autoDissect_shows_function :
    let mem : ℕ → Option UInt8 := fun a =>
      if 64 ≤ a ∧ a < 72 then some (if a = 64 then 16 else 0) else none
    ∃ defs nodes, autoDissect (prefixRead mem) (some [⟨⟨16, 16, true⟩, none⟩]) 64 16 =
        some (.ok defs) ∧ (@Project.readNodes hyphenatedLibrary defs).run 0 = .ok (nodes, 0) ∧
      List.Forall₂ (Shows mem [⟨⟨16, 16, true⟩, none⟩] 64 16)
        (slots [16, 0, 0, 0, 0, 0, 0, 0]) nodes := by
  intro mem
  have hmaps : UserMaps [⟨⟨16, 16, true⟩, none⟩] := ⟨List.pairwise_singleton _ _, by decide⟩
  have hrun : autoDissect (prefixRead mem) (some [⟨⟨16, 16, true⟩, none⟩]) 64 16 = some (.ok _) := rfl
  obtain ⟨nodes, hnodes⟩ :=
    @autoDissect_shows _ _ _ hyphenatedLibrary hmaps (prefixRead_reads mem) _ _ _ hrun 0
  exact ⟨_, nodes, hrun, hnodes⟩

end AutoDissect

end Nemclass.Model.Dissect
