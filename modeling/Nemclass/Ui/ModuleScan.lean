import Nemclass.Address.Interpreter
import Nemclass.Script.PatternScan
import Nemclass.Ui.HostCalls

/-! Pattern scans of a module. Its image is one read into a buffer of zeros, and how much was read
is not asked: the first hole ends what is read, and zeros stand for all that comes after. -/
namespace Nemclass.Ui
open Usize MappedPrefix Scan Script Outcome
open Address (eqIgnoreAsciiCase)

/-! ## The script log -/

inductive LogKind where
  | info
  | warn
  | error
  | lifecycle
deriving DecidableEq, Repr

structure LogLine where
  kind : LogKind
  text : String
deriving DecidableEq, Repr

def maxLogLines : ℕ := 1000

/-- The oldest quarter goes when the log is full. -/
def pushLog (log : List LogLine) (kind : LogKind) (text : String) : List LogLine :=
  let log := if maxLogLines ≤ log.length then log.drop (maxLogLines / 4) else log
  log ++ [⟨kind, text⟩]

/-! ## Scans -/

/-- A pattern that is none has no matches. -/
def findPattern (haystack : List UInt8) (pattern : String) : List ℕ :=
  (tryFindPattern haystack pattern).toOption.getD []

def scanModule (moduleBase : ℕ) (moduleBytes : List UInt8) (pattern : String) :
    Except HostFailure (List ℕ) :=
  (findPattern moduleBytes pattern).mapM fun off => addUsize moduleBase off

def findModule (mods : List ModuleInfo) (name : Option String) : Except HostFailure ModuleInfo :=
  match name with
  | some n => orFail (mods.find? fun m => eqIgnoreAsciiCase m.name n) ("module not found: " ++ n)
  | none => orFail mods.head? "no modules"

section Host

/- The attached process, and the printing of JSON and of strings in quotes. -/
variable (process : Option HostProcess) (printJson : Value → String) (debugStr : String → String)

def attached : Except HostFailure HostProcess := orFail process "not attached"

def hostModules : Except HostFailure (List ModuleInfo) := do
  let proc ← attached process
  proc.modules.mapError fun e => .error ("enumerate modules: " ++ e)

/-- The buffer of a module's size after the read, whatever the read says. -/
def moduleBytes (name : Option String) : Except HostFailure (ℕ × List UInt8) := do
  let mods ← hostModules process
  let info ← findModule mods name
  let proc ← attached process
  let read := proc.readBuf info.base (.replicate info.size 0)
  .ok (info.base, read.2)

def patternScan (log : List LogLine) (module pattern : String) :
    Except HostFailure (List ℕ) × List LogLine :=
  let hits := do
    let (base, bytes) ← moduleBytes process (some module)
    scanModule base bytes pattern
  match hits with
  | .error e => (.error e, log)
  | .ok hits =>
    let text := "pattern_scan(" ++ debugStr module ++ ", " ++ debugStr pattern ++ "): " ++
      toString hits.length ++ " hit(s)"
    (.ok hits, pushLog log .info text)

/-- `scan.aob` -/
def scanAob (args : Value) : Except HostFailure Value := do
  let pattern := asStr printJson (← arg args 0)
  let module := ((optArg args 1).bind (·.get "module")).map (asStr printJson)
  let (base, bytes) ← moduleBytes process module
  let hits ← scanModule base bytes pattern
  .ok (.array (hits.map fun a : ℕ => .ofF64 (some (Binary64.roundNat a))))

end Host

/-! ## What is there -/

/-- The elements match the bytes, one by one. -/
def Matches (pat : List PatByte) (window : List UInt8) : Prop :=
  List.Forall₂ (fun p b => patMatches p b = true) pat window

/-- Every byte under the pattern is mapped in the span, and it matches. -/
structure OccursAt (mem : ℕ → Option UInt8) (base size : ℕ) (pat : List PatByte) (a : ℕ) :
    Prop where
  low : base ≤ a
  high : a + pat.length ≤ base + size
  here i (h : i < pat.length) : ∃ b, mem (a + i) = some b ∧ patMatches pat[i] b = true

/-- The addresses are those where the pattern is, in order. -/
structure Lists (mem : ℕ → Option UInt8) (base size : ℕ) (pat : List PatByte) (addrs : List ℕ) :
    Prop where
  ascending : addrs.Pairwise (· < ·)
  complete a : a ∈ addrs ↔ OccursAt mem base size pat a

/-- The zeros that stand for what was not read mislead nowhere. Over the hole, where `n` bytes were
read, the pattern does not match what was read before and zeros; and beyond, it matches zeros just
where it occurs. -/
structure ClearOfHoles (mem : ℕ → Option UInt8) (base size : ℕ) (pat : List PatByte) : Prop where
  across i : i ≤ (mappedPrefix mem base size).length →
    (mappedPrefix mem base size).length < i + pat.length → i + pat.length ≤ size →
    ¬ Matches pat ((mappedPrefix mem base size).drop i ++
      .replicate (i + pat.length - (mappedPrefix mem base size).length) 0)
  beyond i : (mappedPrefix mem base size).length < i → i + pat.length ≤ size →
    ((∀ p ∈ pat, patMatches p 0 = true) ↔ OccursAt mem base size pat (base + i))

section Windows

variable {pat : List PatByte} {buf : List UInt8} {i : ℕ}

theorem matches_iff {window : List UInt8} : Matches pat window ↔
    pat.length = window.length ∧ ((window.zip pat).all fun pair => patMatches pair.2 pair.1) := by
  rw [Matches, List.forall₂_iff_zip]
  refine and_congr_right fun _ => ?_
  rw [List.all_eq_true, Prod.forall, ← List.zip_swap pat window]
  constructor
  · intro h b p hmem
    obtain ⟨⟨q, c⟩, hpair, heq⟩ := List.mem_map.mp hmem
    cases heq
    exact h hpair
  · intro h p b hmem
    exact h b p (List.mem_map.mpr ⟨(p, b), hmem, rfl⟩)

theorem matches_window (hfits : i + pat.length ≤ buf.length) :
    Matches pat ((buf.drop i).take pat.length) ↔
      ∀ j (h : j < pat.length), patMatches pat[j] (buf[i + j]) = true := by
  have hlen : ((buf.drop i).take pat.length).length = pat.length := by
    rw [List.length_take, List.length_drop]
    omega
  rw [Matches, List.forall₂_iff_get]
  constructor
  · rintro ⟨-, h⟩ j hj
    simpa using h j hj (by omega)
  · intro h
    refine ⟨hlen.symm, fun j hj _ => ?_⟩
    simpa using h j hj

theorem matches_zeros : Matches pat (.replicate pat.length 0) ↔
    ∀ p ∈ pat, patMatches p 0 = true := by
  unfold Matches
  induction pat with
  | nil => simp
  | cons p pat ih => rw [List.length_cons, List.replicate_succ, List.forall₂_cons, ih,
      List.forall_mem_cons]

theorem tryFindPattern_ok {pattern : String} (hpat : parsePatternChecked pattern = .ok pat)
    (buf : List UInt8) : (findPattern buf pattern).Pairwise (· < ·) ∧
      ∀ i, i ∈ findPattern buf pattern ↔
        i + pat.length ≤ buf.length ∧ Matches pat ((buf.drop i).take pat.length) := by
  have hfind : findPattern buf pattern =
      if buf.length < pat.length then []
      else (List.range (buf.length - pat.length + 1)).filter fun start =>
        (((buf.drop start).take pat.length).zip pat).all fun pair => patMatches pair.2 pair.1 := by
    rw [findPattern, tryFindPattern, hpat]
    dsimp only [bind, Except.bind]
    split <;> rfl
  rw [hfind]
  split
  · exact ⟨.nil, fun i => iff_of_false List.not_mem_nil (by omega)⟩
  · refine ⟨List.pairwise_lt_range.filter _, fun i => ?_⟩
    rw [List.mem_filter, List.mem_range, matches_iff]
    constructor
    · rintro ⟨hi, hall⟩
      refine ⟨by omega, ?_, hall⟩
      rw [List.length_take, List.length_drop]
      omega
    · rintro ⟨hi, -, hall⟩
      exact ⟨by omega, hall⟩

end Windows

/-! ## The buffer -/

section Buffer

variable {mem : ℕ → Option UInt8} {base size : ℕ} {pat : List PatByte}

/-- What was read, and zeros. -/
def image (mem : ℕ → Option UInt8) (base size : ℕ) : List UInt8 :=
  mappedPrefix mem base size ++ .replicate (size - (mappedPrefix mem base size).length) 0

theorem length_image : (image mem base size).length = size := by
  have hle := length_mappedPrefix_le mem base size
  rw [image, List.length_append, List.length_replicate]
  omega

theorem image_inside {k : ℕ} (h : k < (mappedPrefix mem base size).length) :
    mem (base + k) = (image mem base size)[k]? := by
  rw [image, List.getElem?_append_left h, mappedPrefix_getElem mem base size h,
    List.getElem?_eq_getElem h]

/-- Where all of it was read, the pattern matches what is there. -/
theorem matches_inside {i : ℕ} (hread : i + pat.length ≤ (mappedPrefix mem base size).length) :
    Matches pat (((image mem base size).drop i).take pat.length) ↔
      OccursAt mem base size pat (base + i) := by
  have hle := length_mappedPrefix_le mem base size
  have hfits : i + pat.length ≤ (image mem base size).length := by
    rw [length_image]
    omega
  rw [matches_window hfits]
  have hthere {j : ℕ} (hj : j < pat.length) :
      mem (base + i + j) = some ((image mem base size)[i + j]) := by
    have hlt : i + j < (mappedPrefix mem base size).length := by omega
    rw [Nat.add_assoc, image_inside hlt, List.getElem?_eq_getElem]
  constructor
  · intro h
    refine ⟨Nat.le_add_right base i, by omega, fun j hj => ⟨_, hthere hj, h j hj⟩⟩
  · intro h j hj
    obtain ⟨b, hb, hmatch⟩ := h.here j hj
    rw [hthere hj, Option.some_inj] at hb
    rwa [hb]

theorem not_occursAt_across {i : ℕ} (hi : i ≤ (mappedPrefix mem base size).length)
    (hover : (mappedPrefix mem base size).length < i + pat.length)
    (hfits : i + pat.length ≤ size) : ¬ OccursAt mem base size pat (base + i) := by
  intro h
  have hhole : mem (base + (mappedPrefix mem base size).length) = none :=
    mappedPrefix_hole (by omega)
  obtain ⟨b, hb, -⟩ := h.here ((mappedPrefix mem base size).length - i) (by omega)
  rw [Nat.add_assoc, Nat.add_sub_cancel' hi, hhole] at hb
  cases hb

theorem window_across {i : ℕ} (hi : i ≤ (mappedPrefix mem base size).length)
    (hover : (mappedPrefix mem base size).length < i + pat.length)
    (hfits : i + pat.length ≤ size) :
    ((image mem base size).drop i).take pat.length = (mappedPrefix mem base size).drop i ++
      .replicate (i + pat.length - (mappedPrefix mem base size).length) 0 := by
  rw [image, List.drop_append_of_le_length hi, List.take_append, List.length_drop,
    List.take_of_length_le (by rw [List.length_drop]; omega), List.take_replicate]
  congr 2
  omega

theorem window_beyond {i : ℕ} (hi : (mappedPrefix mem base size).length < i)
    (hfits : i + pat.length ≤ size) :
    ((image mem base size).drop i).take pat.length = .replicate pat.length 0 := by
  rw [image, List.drop_append, List.drop_eq_nil_of_le hi.le, List.nil_append, List.drop_replicate,
    List.take_replicate]
  congr 1
  omega

/-- The offsets that match the buffer are those of the occurrences exactly if no zeros mislead. -/
theorem clearOfHoles_iff : ClearOfHoles mem base size pat ↔
    ∀ i, i + pat.length ≤ size →
      (Matches pat (((image mem base size).drop i).take pat.length) ↔
        OccursAt mem base size pat (base + i)) := by
  constructor
  · intro h i hfits
    by_cases hread : i + pat.length ≤ (mappedPrefix mem base size).length
    · exact matches_inside hread
    by_cases hi : i ≤ (mappedPrefix mem base size).length
    · rw [window_across hi (by omega) hfits]
      exact iff_of_false (h.across i hi (by omega) hfits)
        (not_occursAt_across hi (by omega) hfits)
    · rw [window_beyond (by omega) hfits, matches_zeros]
      exact h.beyond i (by omega) hfits
  · intro h
    constructor
    · intro i hi hover hfits hmatch
      rw [← window_across hi hover hfits, h i hfits] at hmatch
      exact not_occursAt_across hi hover hfits hmatch
    · intro i hi hfits
      rw [← matches_zeros, ← window_beyond hi hfits]
      exact h i hfits

theorem OccursAt.offset {a : ℕ} (h : OccursAt mem base size pat a) :
    ∃ i, base + i = a ∧ i + pat.length ≤ size :=
  ⟨a - base, by have := h.low; omega, by have := h.low; have := h.high; omega⟩

/-- What the scan lists, over the image of a module. -/
theorem lists_iff {pattern : String} (hpat : parsePatternChecked pattern = .ok pat) :
    Lists mem base size pat ((findPattern (image mem base size) pattern).map (base + ·)) ↔
      ClearOfHoles mem base size pat := by
  obtain ⟨hascending, hmem⟩ := tryFindPattern_ok hpat (image mem base size)
  rw [clearOfHoles_iff]
  simp only [length_image] at hmem
  constructor
  · intro h i hfits
    rw [← h.complete, List.mem_map]
    constructor
    · intro hmatch
      exact ⟨i, (hmem i).mpr ⟨hfits, hmatch⟩, rfl⟩
    · rintro ⟨j, hj, heq⟩
      obtain rfl : j = i := Nat.add_left_cancel heq
      exact ((hmem j).mp hj).2
  · intro h
    refine ⟨List.pairwise_map.mpr (hascending.imp fun hlt => Nat.add_lt_add_left hlt base),
      fun a => ?_⟩
    rw [List.mem_map]
    constructor
    · rintro ⟨i, hi, rfl⟩
      obtain ⟨hfits, hmatch⟩ := (hmem i).mp hi
      exact (h i hfits).mp hmatch
    · intro hoccurs
      obtain ⟨i, rfl, hfits⟩ := hoccurs.offset
      exact ⟨i, (hmem i).mpr ⟨hfits, (h i hfits).mpr hoccurs⟩, rfl⟩

end Buffer

/-! ## The calls -/

section Calls

variable {proc : HostProcess} {mem : ℕ → Option UInt8} {mods : List ModuleInfo} {info : ModuleInfo}
  {pat : List PatByte} {pattern : String}

/-- The addresses stay in the address space. -/
theorem scanModule_eq (hpat : parsePatternChecked pattern = .ok pat) :
    scanModule info.base (image mem info.base info.size) pattern =
      .ok ((findPattern (image mem info.base info.size) pattern).map (info.base + ·)) := by
  refine mapM_eq_ok fun off hoff => ?_
  obtain ⟨hfits, -⟩ := ((tryFindPattern_ok hpat _).2 off).mp hoff
  have hne : 0 < pat.length := by
    obtain ⟨out, -, hout⟩ := bind_eq_ok.mp hpat
    split at hout
    · cases hout
    · rename_i hne
      cases hout
      exact List.length_pos_iff.mpr (by simpa using hne)
  have hspans := info.spans
  rw [length_image] at hfits
  rw [addUsize, checkedAdd_of_le (by omega)]
  rfl

theorem moduleBytes_eq (hmods : proc.modules = .ok mods) {name : Option String}
    (hinfo : findModule mods name = .ok info) (htransfers : proc.Transfers mem) :
    moduleBytes (some proc) name = .ok (info.base, image mem info.base info.size) := by
  have hread : (proc.readBuf info.base (.replicate info.size 0)).2 =
      image mem info.base info.size := by
    rw [htransfers.buffer, List.length_replicate, List.drop_replicate]
    rfl
  have hhost : hostModules (some proc) = .ok mods := by
    rw [hostModules, attached, orFail, Option.elim_some]
    dsimp only [bind, Except.bind]
    rw [hmods]
    rfl
  rw [moduleBytes, hhost]
  dsimp only [bind, Except.bind]
  rw [hinfo]
  dsimp only
  rw [attached, orFail, Option.elim_some]
  dsimp only
  rw [hread]

/-- The arguments of `scan.aob`: the pattern, and the module that the options name. -/
structure AobArgs (printJson : Value → String) (args : Value) (pattern : String)
    (name : Option String) : Prop where
  pattern : ∃ v, arg args 0 = .ok v ∧ asStr printJson v = pattern
  module : ((optArg args 1).bind (·.get "module")).map (asStr printJson) = name

/-- Both scans list what is in the module. -/
structure ScansSee (proc : HostProcess) (printJson : Value → String) (debugStr : String → String)
    (log : List LogLine) (module : String) (args : Value) (mem : ℕ → Option UInt8)
    (info : ModuleInfo) (pattern : String) (pat : List PatByte) : Prop where
  patternScan : ∃ addrs, (patternScan (some proc) debugStr log module pattern).1 = .ok addrs ∧
    Lists mem info.base info.size pat addrs
  scanAob : ∃ addrs : List ℕ, scanAob (some proc) printJson args =
      .ok (.array (addrs.map fun a : ℕ => .ofF64 (some (a : ℚ)))) ∧
    Lists mem info.base info.size pat addrs

theorem Lists.unique {base size : ℕ} {addrs addrs' : List ℕ} (h : Lists mem base size pat addrs)
    (h' : Lists mem base size pat addrs') : addrs = addrs' := by
  refine List.Perm.eq_of_pairwise (fun _ _ _ _ hab hba => (Nat.lt_asymm hab hba).elim)
    h.ascending h'.ascending ?_
  refine (List.perm_ext_iff_of_nodup (h.ascending.imp Nat.ne_of_lt)
    (h'.ascending.imp Nat.ne_of_lt)).mpr fun a => ?_
  rw [h.complete, h'.complete]

/-- The addresses that are found in the image. -/
def found (mem : ℕ → Option UInt8) (info : ModuleInfo) (pattern : String) : List ℕ :=
  (findPattern (image mem info.base info.size) pattern).map (info.base + ·)

theorem patternScan_eq (debugStr : String → String) (log : List LogLine) {module : String}
    (hmods : proc.modules = .ok mods) (htransfers : proc.Transfers mem)
    (hmodule : findModule mods (some module) = .ok info)
    (hpat : parsePatternChecked pattern = .ok pat) :
    (patternScan (some proc) debugStr log module pattern).1 = .ok (found mem info pattern) := by
  unfold patternScan
  rw [moduleBytes_eq hmods hmodule htransfers]
  dsimp only [bind, Except.bind]
  rw [scanModule_eq hpat]
  rfl

theorem scanAob_eq (printJson : Value → String) {name : Option String} {args : Value}
    (hmods : proc.modules = .ok mods) (htransfers : proc.Transfers mem)
    (hname : findModule mods name = .ok info) (hargs : AobArgs printJson args pattern name)
    (hpat : parsePatternChecked pattern = .ok pat) : scanAob (some proc) printJson args =
      .ok (.array ((found mem info pattern).map fun a : ℕ => .ofF64 (some (Binary64.roundNat a)))) := by
  obtain ⟨v, hv, hpattern⟩ := hargs.pattern
  unfold scanAob
  rw [hv]
  dsimp only [bind, Except.bind]
  rw [hargs.module, moduleBytes_eq hmods hname htransfers, hpattern]
  dsimp only
  rw [scanModule_eq hpat]
  rfl

theorem ofF64_inj {q r : ℚ} : Value.ofF64 (some q) = Value.ofF64 (some r) ↔ q = r := by
  simp [Value.ofF64]

/-- The scans of a module see what is mapped of it exactly if no zeros of the buffer mislead, and
if every address where the pattern occurs is a number in double precision. -/
theorem moduleScans_see (printJson : Value → String) (debugStr : String → String)
    (log : List LogLine) {module : String} {name : Option String} {args : Value}
    (hmods : proc.modules = .ok mods) (htransfers : proc.Transfers mem)
    (hmodule : findModule mods (some module) = .ok info) (hname : findModule mods name = .ok info)
    (hargs : AobArgs printJson args pattern name) (hpat : parsePatternChecked pattern = .ok pat) :
    ScansSee proc printJson debugStr log module args mem info pattern pat ↔
      ClearOfHoles mem info.base info.size pat ∧
        ∀ a, OccursAt mem info.base info.size pat a → Binary64.roundNat a = a := by
  have hscan := patternScan_eq debugStr log hmods htransfers hmodule hpat
  have haob := scanAob_eq printJson hmods htransfers hname hargs hpat
  constructor
  · rintro ⟨⟨addrs, hok, hlists⟩, ⟨addrs', hok', hlists'⟩⟩
    obtain rfl : found mem info pattern = addrs := Except.ok.inj (hscan.symm.trans hok)
    refine ⟨(lists_iff hpat).mp hlists, fun a ha => ?_⟩
    obtain rfl := hlists.unique hlists'
    have hsame := Value.array.inj (Except.ok.inj (haob.symm.trans hok'))
    have hround := List.map_eq_map_iff.mp hsame a ((hlists.complete a).mpr ha)
    exact_mod_cast ofF64_inj.mp hround
  · rintro ⟨hclear, hexact⟩
    have hlists : Lists mem info.base info.size pat (found mem info pattern) :=
      (lists_iff hpat).mpr hclear
    refine ⟨⟨_, hscan, hlists⟩, ⟨_, haob.trans ?_, hlists⟩⟩
    congr 2
    refine List.map_congr_left fun a ha => ?_
    rw [hexact a ((hlists.complete a).mp ha)]

end Calls

def quad : ModuleInfo := ⟨16, 4, "a", by decide⟩

/-- Four bytes are mapped. -/
def quadMem (a : ℕ) : Option UInt8 := if 16 ≤ a ∧ a < 20 then some (UInt8.ofNat (a - 15)) else none

def quadArgs : Value := .array [.string "02 ??", .object [("module", .string "A")]]

theorem moduleScans_see_quad :
    ScansSee (reading quadMem [quad]) (fun _ => "") id [] "a" quadArgs quadMem quad "02 ??"
      [.byte 2, .any] := by
  have hmodule : findModule [quad] (some "a") = .ok quad := rfl
  have hname : findModule [quad] (some "A") = .ok quad := rfl
  have hargs : AobArgs (fun _ => "") quadArgs "02 ??" (some "A") := ⟨⟨_, rfl, rfl⟩, rfl⟩
  have hpat : parsePatternChecked "02 ??" = .ok [.byte 2, .any] := by rfl
  refine (moduleScans_see (fun _ => "") id [] rfl (reading_transfers quadMem [quad]) hmodule hname
    hargs hpat).mpr ⟨?_, ?_⟩
  · have hread : (mappedPrefix quadMem 16 4).length = 4 := by decide +kernel
    refine ⟨fun i _ hover hfits => ?_, fun i hi hfits => ?_⟩
    · change (mappedPrefix quadMem 16 4).length < _ at hover
      change _ ≤ 4 at hfits
      omega
    · change (mappedPrefix quadMem 16 4).length < i at hi
      change _ ≤ 4 at hfits
      omega
  · intro a ha
    refine Binary64.roundNat_of_lt ?_
    have hhigh : a + 2 ≤ 16 + 4 := ha.high
    omega

def triple : ModuleInfo := ⟨16, 3, "a", by decide⟩

/-- Of three bytes the one in the middle is not mapped. -/
def holedMem (a : ℕ) : Option UInt8 := if a = 16 then some 1 else if a = 18 then some 5 else none

/-- A scan finds zeros that were never read, and misses what is mapped after a hole. -/
theorem patternScan_hole :
    (patternScan (some (reading holedMem [triple])) id [] "a" "00").1 = .ok [17, 18] ∧
      (∀ a, ¬ OccursAt holedMem 16 3 [.byte 0] a) ∧
      (patternScan (some (reading holedMem [triple])) id [] "a" "05").1 = .ok [] ∧
      OccursAt holedMem 16 3 [.byte 5] 18 := by
  refine ⟨rfl, fun a ha => ?_, rfl, ⟨by decide, by decide, fun i hi => ?_⟩⟩
  · obtain ⟨b, hb, hmatch⟩ := ha.here 0 (by decide)
    unfold holedMem at hb
    split_ifs at hb
    · cases hb
      cases hmatch
    · cases hb
      cases hmatch
  · obtain rfl : i = 0 := Nat.lt_one_iff.mp hi
    exact ⟨5, rfl, rfl⟩

end Nemclass.Ui
