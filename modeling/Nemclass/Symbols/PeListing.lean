import Nemclass.Symbols.ExportsOverflow
import Nemclass.Symbols.Image

/-! What a mapped PE image exports, read off its bytes: the entries of its three parallel arrays,
without those whose slot is unused or lies in the export directory itself. The parser lists
exactly these, and fails where there is no such list. -/
namespace Nemclass.Symbols
open Scan Usize Guarded

/-- Where the optional header of each magic has its data directories. -/
def peDataDirectories (opt magic : ℕ) : Option ℕ :=
  if magic = 0x20b then some (opt + 112) else if magic = 0x10b then some (opt + 96) else none

namespace Image
variable (img : Image) (cap base : ℕ)

/-- The headers: where the data directories of a PE32 or a PE32+ image are. -/
def peHeaders : Option ℕ := do
  let mz ← img.bytes base 2
  guard (mz = [0x4D, 0x5A])
  let e_lfanew ← img.uint 4 (base + 0x3C)
  let signature ← img.bytes (base + e_lfanew) 4
  guard (signature = [0x50, 0x45, 0, 0])
  let magic ← img.uint 2 (base + e_lfanew + 24)
  peDataDirectories (base + e_lfanew + 24) magic

/-- The export directory at an RVA, whose arrays are at addresses. -/
def peDirectory (rva size : ℕ) : Option ExportDirectory := do
  let numberOfFunctions ← img.uint 4 (base + rva + 0x14)
  let numberOfNames ← img.uint 4 (base + rva + 0x18)
  let functions ← img.uint 4 (base + rva + 0x1C)
  let names ← img.uint 4 (base + rva + 0x20)
  let ordinals ← img.uint 4 (base + rva + 0x24)
  guard (base + functions ≤ usizeMax ∧ base + names ≤ usizeMax ∧ base + ordinals ≤ usizeMax)
  pure ⟨rva, rva + size, numberOfFunctions, numberOfNames, base + functions, base + names,
    base + ordinals⟩

/-- Entry `i` of the parallel arrays: a name, and the function RVA that its ordinal indexes. -/
def peEntry (dir : ExportDirectory) (i : ℕ) : Option (String × ℕ) := do
  let nameRva ← img.uint 4 (dir.names + i * 4)
  let name ← img.name cap (base + nameRva)
  let ordinal ← img.uint 2 (dir.ordinals + i * 2)
  guard (ordinal < dir.numberOfFunctions)
  let funcRva ← img.uint 4 (dir.functions + ordinal * 4)
  pure (name, funcRva)

/-- The entries that are symbols, at their addresses, which have to exist. -/
def peSymbols (dir : ExportDirectory) : Option (List Symbol) := do
  let entries ← (List.range dir.numberOfNames).mapM (img.peEntry cap base dir)
  let exported := entries.filter fun e => e.2 ≠ 0 ∧ ¬ (dir.rva ≤ e.2 ∧ e.2 < dir.stop)
  guard (∀ e ∈ exported, base + e.2 ≤ usizeMax)
  pure (exported.map fun e => ⟨e.1, base + e.2⟩)

/-- The exports of the image at `base`, names being cut at `cap` bytes. -/
def peListing : Option (List Symbol) := do
  let entry ← img.peHeaders base
  let rva ← img.uint 4 entry
  let size ← img.uint 4 (entry + 4)
  if rva = 0 ∨ size = 0 then pure []
  else do
    let dir ← img.peDirectory base rva size
    img.peSymbols cap base dir

end Image

variable {σ α : Type} (img : Image) (base : ℕ)

theorem computes_dataDirectory (opt magic : ℕ) {f : ℕ → Parser σ α} {g : ℕ → Option α}
    (hpast : ∀ entry, usizeMax < entry → g entry = none)
    (h : ∀ entry, Computes (f entry) (g entry)) :
    Computes (dataDirectoryOffset magic >>= fun ddOffset =>
        noOverflow (ddOffset + imageDirectoryEntryExport * 8) >>= fun _ =>
          add opt (ddOffset + imageDirectoryEntryExport * 8) >>= f)
      ((peDataDirectories opt magic).bind g) := by
  have hentry (ddOffset : ℕ) (hle : ddOffset ≤ dataDirectoryOffsetPe64) :
      Computes (noOverflow (ddOffset + imageDirectoryEntryExport * 8) >>= fun _ =>
        add opt (ddOffset + imageDirectoryEntryExport * 8) >>= f) (g (opt + ddOffset)) := by
    have hmax : dataDirectoryOffsetPe64 ≤ usizeMax := by decide
    refine (computes_noOverflow (hle.trans hmax)).bind (g := fun _ => _) fun _ _ => ?_
    exact computes_add (hpast _) fun _ => h _
  unfold dataDirectoryOffset peDataDirectories
  split_ifs
  · exact hentry dataDirectoryOffsetPe64 le_rfl
  · exact hentry dataDirectoryOffsetPe32 (by decide)
  · exact (computes_fail _).bind_none

/-- The export directory, where the headers are those of an image that has one. -/
theorem computes_peExportDirectory :
    Computes (peExportDirectory (img.reader σ) base) ((img.peHeaders base).bind fun entry =>
      (img.uint 4 entry).bind fun rva => (img.uint 4 (entry + 4)).bind fun size =>
        if rva = 0 ∨ size = 0 then some none else (img.peDirectory base rva size).map some) := by
  simp only [Image.peHeaders, Option.bind_eq_bind, Option.bind_assoc]
  refine computes_readExact img (by decide) fun mz _ => ?_
  refine computes_check Iff.rfl _ fun _ => ?_
  refine computes_readAt img (by decide) fun e_lfanew _ => ?_
  refine computes_add (fun hpast => ?_) fun _ => ?_
  · rw [img.bytes_past (by decide) hpast, Option.bind_none]
  refine computes_readExact img (by decide) fun signature _ => ?_
  refine computes_check Iff.rfl _ fun _ => ?_
  refine computes_add (fun hpast => ?_) fun _ =>
    (computes_readUint img (by decide)).bind fun magic _ => ?_
  · rw [img.uint_past (by decide) hpast, Option.bind_none]
  refine computes_dataDirectory _ magic (fun entry hpast => ?_) fun entry => ?_
  · rw [img.uint_past (by decide) hpast, Option.bind_none]
  refine (computes_readUint img (by decide)).bind fun rva hrva => ?_
  refine computes_readAt img (by decide) fun size hsize => ?_
  split_ifs
  · exact .pure none
  simp only [Image.peDirectory, Option.bind_eq_bind, Option.map_bind, Function.comp_def]
  refine computes_add (fun hpast => ?_) fun _ => ?_
  · rw [img.uint_past (by decide) (hpast.trans_le (Nat.le_add_right _ _)), Option.bind_none]
  refine computes_readAt img (by decide) fun numberOfFunctions _ => ?_
  refine computes_readAt img (by decide) fun numberOfNames _ => ?_
  refine computes_readAt img (by decide) fun functions _ => ?_
  refine computes_readAt img (by decide) fun names _ => ?_
  refine computes_readAt img (by decide) fun ordinals _ => ?_
  have hstop : rva + size ≤ usizeMax := by
    have hmax : 2 * 256 ^ 4 ≤ usizeMax := by decide
    have hrvaLt := img.uint_lt hrva
    have hsizeLt := img.uint_lt hsize
    omega
  refine computes_add (fun hpast => ?_) fun hfunctions => computes_add (fun hpast => ?_)
    fun hnames => computes_add (fun hpast => ?_) fun hordinals =>
      computes_add (fun hpast => absurd hstop (Nat.not_le_of_lt hpast)) fun _ => ?_
  · rw [guard, if_neg fun hfit => Nat.not_le_of_lt hpast hfit.1]
    rfl
  · rw [guard, if_neg fun hfit => Nat.not_le_of_lt hpast hfit.2.1]
    rfl
  · rw [guard, if_neg fun hfit => Nat.not_le_of_lt hpast hfit.2.2]
    rfl
  · rw [guard, if_pos ⟨hfunctions, hnames, hordinals⟩]
    exact .pure _

/-- A round of the listing adds what the entry gives. -/
theorem computes_peExport (dir : ExportDirectory) {i : ℕ} (hi : i < 2 ^ 32) (out : List Symbol) :
    Computes (peExport (img.reader σ) base dir i out)
      (((img.peEntry maxName base dir i).bind fun e =>
        if e.2 ≠ 0 ∧ ¬ (dir.rva ≤ e.2 ∧ e.2 < dir.stop) then
          if base + e.2 ≤ usizeMax then some [⟨e.1, base + e.2⟩] else none
        else some []).map fun xs => (out ++ xs, true)) := by
  have hmax : 2 ^ 34 ≤ usizeMax := by decide
  simp only [Image.peEntry, Option.bind_eq_bind, Option.map_bind, Option.bind_assoc,
    Option.pure_def, Option.bind_some, Function.comp_def]
  refine (computes_noOverflow (by omega)).bind (g := fun _ => _) fun _ _ => ?_
  refine computes_readAt img (by decide) fun nameRva _ => ?_
  refine computes_add (fun hpast => ?_) fun _ => (computes_name img _).bind fun name _ => ?_
  · rw [img.name_past (by decide) hpast, Option.bind_none]
  refine (computes_noOverflow (by omega)).bind (g := fun _ => _) fun _ _ => ?_
  refine computes_readAt img (by decide) fun ordinal hordinal => ?_
  refine computes_check Nat.not_lt.symm _ fun _ => ?_
  have hordinalLt := img.uint_lt hordinal
  refine (computes_noOverflow (by omega)).bind (g := fun _ => _) fun _ _ => ?_
  refine computes_readAt img (by decide) fun funcRva _ => ?_
  by_cases hkeep : funcRva ≠ 0 ∧ ¬ (dir.rva ≤ funcRva ∧ funcRva < dir.stop)
  · rw [if_pos hkeep, if_neg fun hskip => hskip.elim hkeep.2 hkeep.1]
    refine computes_add (fun hpast => ?_) fun hfits => ?_
    · rw [if_neg (Nat.not_le_of_lt hpast), Option.map_none]
    · rw [if_pos hfits]
      exact .pure _
  · rw [if_neg hkeep, if_pos (by tauto)]
    simpa using Computes.pure (out, true)

theorem computes_peSymbols {dir : ExportDirectory} (hnames : dir.numberOfNames < 2 ^ 32) :
    Computes (loop (peExport (img.reader σ) base dir) dir.numberOfNames 0 [])
      (img.peSymbols maxName base dir) := by
  have hloop := Computes.loop (fun i hi out =>
    computes_peExport (σ := σ) img base dir (hi.trans hnames) out) dir.numberOfNames 0
    (Nat.zero_add _).le []
  rw [loopValue_append, ← List.range_eq_range'] at hloop
  simp only [List.nil_append, mapM_select] at hloop
  convert hloop using 1
  refine congrArg (Option.bind _) (funext fun entries => ?_)
  simp only [guard, List.mem_filter, decide_eq_true_eq, and_imp]
  split_ifs with hfits
  · rfl
  · rfl

/-- The directory counts its names by 32 bits. -/
theorem peDirectory_numberOfNames {rva size : ℕ} {dir : ExportDirectory}
    (h : img.peDirectory base rva size = some dir) : dir.numberOfNames < 2 ^ 32 := by
  obtain ⟨numberOfFunctions, -, h⟩ := Option.bind_eq_some_iff.mp h
  obtain ⟨numberOfNames, hnames, h⟩ := Option.bind_eq_some_iff.mp h
  obtain ⟨functions, -, h⟩ := Option.bind_eq_some_iff.mp h
  obtain ⟨names, -, h⟩ := Option.bind_eq_some_iff.mp h
  obtain ⟨ordinals, -, h⟩ := Option.bind_eq_some_iff.mp h
  obtain ⟨_, -, h⟩ := Option.bind_eq_some_iff.mp h
  cases h
  exact img.uint_lt hnames

theorem computes_peExports :
    Computes (peExports (img.reader σ) base) (img.peListing maxName base) := by
  have hvalue : img.peListing maxName base = ((img.peHeaders base).bind fun entry =>
      (img.uint 4 entry).bind fun rva => (img.uint 4 (entry + 4)).bind fun size =>
        if rva = 0 ∨ size = 0 then some none else (img.peDirectory base rva size).map some).bind
          fun dir => dir.elim (some []) (img.peSymbols maxName base) := by
    simp only [Image.peListing, Option.bind_eq_bind, Option.bind_assoc]
    refine congrArg (Option.bind _) (funext fun entry => congrArg (Option.bind _) (funext fun rva =>
      congrArg (Option.bind _) (funext fun size => ?_)))
    split_ifs
    · rfl
    · rw [Option.bind_map]
      rfl
  rw [hvalue]
  refine (computes_peExportDirectory img base).bind fun dir hdir => ?_
  cases dir with
  | none => exact .pure []
  | some dir =>
    refine computes_peSymbols img base ?_
    obtain ⟨entry, -, hdir⟩ := Option.bind_eq_some_iff.mp hdir
    obtain ⟨rva, -, hdir⟩ := Option.bind_eq_some_iff.mp hdir
    obtain ⟨size, -, hdir⟩ := Option.bind_eq_some_iff.mp hdir
    split_ifs at hdir
    · cases hdir
    · obtain ⟨_, hdir, ⟨⟩⟩ := Option.map_eq_some_iff.mp hdir
      exact peDirectory_numberOfNames img base hdir

/-- Whatever bytes an image has, its exports are the list read off them, and without one there is an
error. -/
theorem peExports_exact (s : σ) :
    match img.peListing maxName base with
    | some list => (outcome (peExports (img.reader σ) base) s).1 = .ok list
    | none => ∃ e, (outcome (peExports (img.reader σ) base) s).1 = .error (.error e) := by
  have hlist := computes_peExports (σ := σ) img base
  cases hvalue : img.peListing maxName base with
  | some list => exact hlist.ok list hvalue s
  | none =>
    obtain ⟨fault, hfault⟩ := hlist.error hvalue s
    cases fault with
    | error e => exact ⟨e, hfault⟩
    | overflow => exact absurd hfault ((peExports_safe (img.reader σ) base).ne_overflow s)

/-- A PE32+ image at 0x10000 with one export, whose name has 4097 letters before its zero byte. -/
def longName : Image where
  cell addr := if usizeMax < addr then .error .invalidAddress else .ok <|
    if addr < 0x10000 + 258 then
      (([0x4D, 0x5A] ++ .replicate 58 0 ++ [0x40, 0, 0, 0] ++ [0x50, 0x45, 0, 0] ++ .replicate 20 0 ++
        [0x0b, 0x02] ++ .replicate 110 0 ++ [0xD0, 0, 0, 0, 40, 0, 0, 0] ++ .replicate 20 0 ++
        [1, 0, 0, 0, 1, 0, 0, 0, 0xF8, 0, 0, 0, 0xFC, 0, 0, 0, 0, 1, 0, 0] ++
        [0, 0x20, 0, 0, 2, 1, 0, 0, 0, 0] : List UInt8)[addr - 0x10000]?)
    else if addr < 0x10000 + 258 + 4097 then some 65 else some 0
  space _ h := ⟨.invalidAddress, if_pos h⟩

theorem longName_text : longName.Text (0x10000 + 258) (.replicate 4097 65) where
  bytes i hi := by
    rw [List.length_replicate] at hi
    have hmax : 0x10000 + 258 + 4097 ≤ usizeMax := by decide
    rw [List.getElem_replicate]
    unfold longName
    dsimp only
    rw [if_neg (by omega), if_neg (by omega), if_pos (by omega)]
  nonzero h := absurd (List.eq_of_mem_replicate h) (by decide)
  stop := by
    rw [List.length_replicate]
    rfl

theorem peSymbols_single {img : Image} {cap base : ℕ} {dir : ExportDirectory} {name : String}
    {rva : ℕ} (hcount : dir.numberOfNames = 1) (hentry : img.peEntry cap base dir 0 = some (name, rva))
    (hkeep : rva ≠ 0 ∧ ¬ (dir.rva ≤ rva ∧ rva < dir.stop)) (hfits : base + rva ≤ usizeMax) :
    img.peSymbols cap base dir = some [⟨name, base + rva⟩] := by
  have hentries : (List.range dir.numberOfNames).mapM (img.peEntry cap base dir) =
      some [(name, rva)] := by
    rw [hcount, show List.range 1 = [0] from rfl, List.mapM_cons, hentry, List.mapM_nil]
    rfl
  have hexported : [(name, rva)].filter (fun e => e.2 ≠ 0 ∧ ¬ (dir.rva ≤ e.2 ∧ e.2 < dir.stop)) =
      [(name, rva)] := List.filter_cons_of_pos (decide_eq_true hkeep)
  have hexist : ∀ e ∈ [(name, rva)], base + e.2 ≤ usizeMax := List.forall_mem_singleton.mpr hfits
  rw [Image.peSymbols, hentries, Option.bind_eq_bind, Option.bind_some, hexported]
  simp only [guard, if_pos hexist]
  rfl

theorem longName_listing (cap : ℕ) : longName.peListing cap 0x10000 =
    some [⟨String.ofList (.replicate (min cap 4097) 'A'), 0x12000⟩] := by
  have hheaders : longName.peHeaders 0x10000 = some 0x100C8 := by decide +kernel
  have hrva : longName.uint 4 0x100C8 = some 0xD0 := by decide +kernel
  have hsize : longName.uint 4 (0x100C8 + 4) = some 40 := by decide +kernel
  have hdir : longName.peDirectory 0x10000 0xD0 40 =
      some ⟨0xD0, 0xF8, 1, 1, 0x100F8, 0x100FC, 0x10100⟩ := by decide +kernel
  have hnameRva : longName.uint 4 0x100FC = some 258 := by decide +kernel
  have hordinal : longName.uint 2 0x10100 = some 0 := by decide +kernel
  have hfuncRva : longName.uint 4 0x100F8 = some 0x2000 := by decide +kernel
  have hname : longName.name cap (0x10000 + 258) =
      some (String.ofList (.replicate (min cap 4097) 'A')) := by
    have hletters (n : ℕ) : List.replicate n 65 = Utf8.encode (.replicate n 'A') := by
      induction n with
      | zero => rfl
      | succ n ih =>
        rw [List.replicate_succ, List.replicate_succ, Utf8.encode_cons, ← ih]
        rfl
    rw [Image.name, longName_text.nameBytes, List.take_replicate, Option.bind_some, hletters,
      Utf8.decode_encode]
  have hentry : longName.peEntry cap 0x10000 ⟨0xD0, 0xF8, 1, 1, 0x100F8, 0x100FC, 0x10100⟩ 0 =
      some (String.ofList (.replicate (min cap 4097) 'A'), 0x2000) := by
    simp only [Image.peEntry, hnameRva, hname, hordinal, hfuncRva, Option.bind_eq_bind,
      Option.bind_some, Nat.zero_mul, Nat.add_zero]
    rfl
  have hsymbols := peSymbols_single rfl hentry (by decide) (by decide)
  rw [Image.peListing, hheaders, Option.bind_eq_bind, Option.bind_some, hrva, Option.bind_some, hsize,
    Option.bind_some, if_neg (by decide), hdir, Option.bind_eq_bind, Option.bind_some, hsymbols]

/-- A name of more than 4096 bytes is listed by its first 4096. -/
theorem longName_cut : longName.peListing (usizeMax + 1) 0x10000 =
      some [⟨String.ofList (.replicate 4097 'A'), 0x12000⟩] ∧
    (outcome (peExports (longName.reader Unit) 0x10000) ()).1 ≠
      .ok [⟨String.ofList (.replicate 4097 'A'), 0x12000⟩] := by
  have hcut : min maxName 4097 = 4096 := rfl
  have hfull : min (usizeMax + 1) 4097 = 4097 := by decide
  refine ⟨by rw [longName_listing, hfull], fun hok => ?_⟩
  have hlist := ((computes_peExports longName 0x10000).ok_iff () _).mp hok
  rw [longName_listing, hcut, Option.some_inj, List.cons.injEq, Symbol.mk.injEq] at hlist
  have hlength := congrArg List.length (String.ofList_injective hlist.1.1)
  rw [List.length_replicate, List.length_replicate] at hlength
  cases hlength

end Nemclass.Symbols
