import Nemclass.Symbols.Exports

/-! The arithmetic of the export parsers, for every reader and every base. Header fields have
at most 32 bits where they are scaled, so no product leaves a word, and sums with an
address are checked. The one exception is the place of the symbol count in an ELF
hash table, which is added to the table's own address unchecked. -/
namespace Nemclass.Symbols
open Scan Usize Guarded

variable {σ : Type} {α : Type}

/-- No arithmetic leaves the range of a word, and a result satisfies the postcondition. -/
abbrev Safe (m : Parser σ α) (post : α → Prop) : Prop := Guarantees (· ≠ Fault.overflow) m post

theorem fail_safe {e : Error} {post : α → Prop} : Safe (fail e : Parser σ α) post :=
  .throw (fun h => nomatch h)

theorem noOverflow_safe {n : ℕ} (h : n ≤ usizeMax) : Safe (noOverflow n : Parser σ Unit) fun _ =>
    True := by
  rw [noOverflow, if_pos h]
  exact .pure trivial

theorem noUnderflow_safe {a b : ℕ} (h : b ≤ a) : Safe (noUnderflow a b : Parser σ Unit) fun _ =>
    True := by
  rw [noUnderflow, if_pos h]
  exact .pure trivial

theorem add_safe (base offset : ℕ) : Safe (add base offset : Parser σ ℕ) fun _ => True := by
  unfold add
  cases checkedAdd base offset with
  | none => exact fail_safe
  | some sum => exact .pure trivial

section Reading
variable (read : Reader σ)

theorem fetch_safe (addr len : ℕ) : Safe (fetch read addr len) fun _ => True := by
  refine ⟨fun s => ?_⟩
  simp only [outcome, fetch, ExceptT.mk, ExceptT.run, StateT.run]
  rcases read s addr len with ⟨_ | _, _⟩
  · simp
  · trivial

theorem readExact_safe (addr len : ℕ) : Safe (readExact read addr len) (·.val.length = len) := by
  refine (fetch_safe read addr len).bind fun buf _ => ?_
  split_ifs with hfull
  · exact .pure hfull
  · exact fail_safe

theorem readUint_safe (width addr : ℕ) : Safe (readUint read width addr) (· < 256 ^ width) :=
  (readExact_safe read addr width).bind fun buf hbuf => .pure ((leBytes_lt buf.val).trans_le
    (Nat.pow_le_pow_right (by decide) hbuf.le))

theorem readU16_safe (addr : ℕ) : Safe (readU16 read addr) (· < 2 ^ 16) := readUint_safe read 2 addr

theorem readU32_safe (addr : ℕ) : Safe (readU32 read addr) (· < 2 ^ 32) := readUint_safe read 4 addr

theorem readU64_safe (addr : ℕ) : Safe (readU64 read addr) (· < 2 ^ 64) := readUint_safe read 8 addr

theorem fromUtf8_safe (out : List UInt8) : Safe (fromUtf8 out : Parser σ String) fun _ => True := by
  unfold fromUtf8
  cases Utf8.decode out with
  | none => exact fail_safe
  | some text => exact .pure trivial

/-- A name is read byte after byte, and it is never longer than its cap. -/
theorem readCstr_safe (addr offset : ℕ) (out : List UInt8) (hoffset : offset = out.length) :
    Safe (readCstr read addr offset out) fun _ => True := by
  rw [readCstr]
  by_cases hroom : out.length < maxName
  · rw [if_pos hroom]
    refine (noUnderflow_safe hroom.le).bind fun _ _ => (add_safe addr offset).bind fun start _ =>
      (fetch_safe read start _).bind fun got _ => ?_
    split_ifs with hempty hzero
    · exact fromUtf8_safe out
    · exact fromUtf8_safe _
    · have hgot := List.length_pos_iff.mpr hempty
      have hlen := got.property
      have hmax : maxName ≤ usizeMax := by decide
      refine (noOverflow_safe (by omega)).bind fun _ _ => readCstr_safe addr _ _ ?_
      rw [List.length_append, hoffset]
  · rw [if_neg hroom]
    exact fromUtf8_safe out
termination_by maxName - out.length
decreasing_by
  rw [List.length_append]
  omega

end Reading

section Pe
variable (read : Reader σ) (moduleBase : ℕ)

theorem dataDirectoryOffset_safe (magic : ℕ) :
    Safe (dataDirectoryOffset magic : Parser σ ℕ) (· ≤ dataDirectoryOffsetPe64) := by
  unfold dataDirectoryOffset
  split_ifs
  · exact .pure le_rfl
  · exact .pure (by decide)
  · exact fail_safe

theorem peExportDirectory_safe : Safe (peExportDirectory read moduleBase) fun dir =>
    ∀ d, dir = some d → d.numberOfNames < 2 ^ 32 := by
  unfold peExportDirectory
  refine (readExact_safe read _ _).bind fun mz _ => ?_
  split_ifs
  · exact fail_safe
  refine (add_safe _ _).bind fun _ _ => (readU32_safe read _).bind fun e_lfanew _ =>
    (add_safe _ _).bind fun nt _ => (readExact_safe read _ _).bind fun peSig _ => ?_
  split_ifs
  · exact fail_safe
  refine (add_safe _ _).bind fun opt _ => (readU16_safe read _).bind fun magic _ => ?_
  refine (dataDirectoryOffset_safe magic).bind fun ddOffset hdd =>
    (noOverflow_safe ?_).bind fun _ _ => (add_safe _ _).bind fun exportEntry _ =>
    (readU32_safe read _).bind fun exportRva _ => (add_safe _ _).bind fun _ _ =>
    (readU32_safe read _).bind fun exportSize _ => ?_
  · simp only [dataDirectoryOffsetPe64, imageDirectoryEntryExport, usizeMax] at *
    omega
  split_ifs
  · exact .pure (by simp)
  refine (add_safe _ _).bind fun exportDir _ => (add_safe _ _).bind fun _ _ =>
    (readU32_safe read _).bind fun numberOfFunctions _ => (add_safe _ _).bind fun _ _ =>
    (readU32_safe read _).bind fun numberOfNames hnames => (add_safe _ _).bind fun _ _ =>
    (readU32_safe read _).bind fun functionsRva _ => (add_safe _ _).bind fun _ _ =>
    (readU32_safe read _).bind fun namesRva _ => (add_safe _ _).bind fun _ _ =>
    (readU32_safe read _).bind fun ordinalsRva _ => (add_safe _ _).bind fun functions _ =>
    (add_safe _ _).bind fun names _ => (add_safe _ _).bind fun ordinals _ =>
    (add_safe _ _).bind fun forwarderEnd _ => .pure ?_
  rintro d ⟨⟩
  exact hnames

theorem peExport_safe (dir : ExportDirectory) {i : ℕ} (hi : i < 2 ^ 32) (out : List Symbol) :
    Safe (peExport read moduleBase dir i out) fun _ => True := by
  unfold peExport
  have hmax : 2 ^ 34 ≤ usizeMax := by decide
  refine (noOverflow_safe (by omega)).bind fun _ _ => (add_safe _ _).bind fun _ _ =>
    (readU32_safe read _).bind fun nameRva _ => (add_safe _ _).bind fun _ _ =>
    (readCstr_safe read _ 0 [] rfl).bind fun name _ => (noOverflow_safe (by omega)).bind fun _ _ =>
    (add_safe _ _).bind fun _ _ => (readU16_safe read _).bind fun ordinal hordinal => ?_
  split_ifs
  · exact fail_safe
  refine (noOverflow_safe (by omega)).bind fun _ _ => (add_safe _ _).bind fun _ _ =>
    (readU32_safe read _).bind fun funcRva _ => ?_
  split_ifs
  · exact .pure trivial
  · exact (add_safe _ _).bind fun address _ => .pure trivial

theorem peExports_safe : Safe (peExports read moduleBase) fun _ => True := by
  refine (peExportDirectory_safe read moduleBase).bind fun dir hdir => ?_
  cases dir with
  | none => exact .pure trivial
  | some dir =>
    have hnames := hdir dir rfl
    exact .loop_of_forall (fun i hi out =>
      peExport_safe read moduleBase dir (hi.trans hnames) out) le_rfl []

end Pe

section Elf
variable (read : Reader σ) (moduleBase : ℕ)

theorem elfProgramHeader_safe (phdrTable : ℕ) {e_phentsize i : ℕ} (hsize : e_phentsize < 2 ^ 16)
    (hi : i < 2 ^ 16) (dynVaddr : Option ℕ) :
    Safe (elfProgramHeader read phdrTable e_phentsize i dynVaddr) fun _ => True := by
  have hprod : i * e_phentsize ≤ 2 ^ 16 * 2 ^ 16 := Nat.mul_le_mul hi.le hsize.le
  have hmax : 2 ^ 16 * 2 ^ 16 ≤ usizeMax := by decide
  refine (noOverflow_safe (hprod.trans hmax)).bind fun _ _ => (add_safe _ _).bind fun ph _ =>
    (readU32_safe read _).bind fun p_type _ => ?_
  split_ifs
  · exact (add_safe _ _).bind fun _ _ => (readU64_safe read _).bind fun vaddr _ => .pure trivial
  · exact .pure trivial

theorem elfDynamicEntry_safe (dynamic : ℕ) {i : ℕ} (hi : i < 4096) (tags : DynamicTags) :
    Safe (elfDynamicEntry read dynamic i tags) fun _ => True := by
  have hmax : 4096 * 16 ≤ usizeMax := by decide
  refine (noOverflow_safe (by omega)).bind fun _ _ => (add_safe _ _).bind fun ent _ =>
    (readU64_safe read _).bind fun tag _ => (add_safe _ _).bind fun _ _ =>
    (readU64_safe read _).bind fun val _ => ?_
  split_ifs <;> exact .pure trivial

theorem elfDynamicTables_safe : Safe (elfDynamicTables read moduleBase) fun _ => True := by
  refine (readExact_safe read _ _).bind fun ident _ => ?_
  split_ifs
  · exact fail_safe
  · exact fail_safe
  refine (add_safe _ _).bind fun _ _ => (readU64_safe read _).bind fun e_phoff _ =>
    (add_safe _ _).bind fun _ _ => (readU16_safe read _).bind fun e_phentsize hsize =>
    (add_safe _ _).bind fun _ _ => (readU16_safe read _).bind fun e_phnum hnum => ?_
  split_ifs
  · exact fail_safe
  refine (add_safe _ _).bind fun phdrTable _ => Guarantees.bind (.loop_of_forall (fun i hi dynVaddr =>
    elfProgramHeader_safe read phdrTable hsize (hi.trans hnum) dynVaddr) le_rfl none)
    fun dynVaddr _ => ?_
  cases dynVaddr with
  | none => exact .pure trivial
  | some dynVaddr =>
    refine (add_safe _ _).bind fun dynamic _ => Guarantees.bind (.loop_of_forall (fun i hi tags =>
      elfDynamicEntry_safe read dynamic hi tags) le_rfl _) fun tags _ => ?_
    split
    · exact (add_safe _ _).bind fun symtab _ => (add_safe _ _).bind fun strtab _ => .pure trivial
    · exact .pure trivial

theorem gnuHashChain_safe (chains : ℕ) {symoffset lastSymbol : ℕ} (hoffset : symoffset < 2 ^ 32)
    (hlast : lastSymbol < 2 ^ 33) (hle : symoffset ≤ lastSymbol) :
    Safe (gnuHashChain read chains symoffset lastSymbol) (· ≤ 2 ^ 33) := by
  have hmax : 2 ^ 36 ≤ usizeMax := by decide
  rw [gnuHashChain]
  refine (noUnderflow_safe hle).bind fun _ _ => (noOverflow_safe (by omega)).bind fun _ _ =>
    (add_safe _ _).bind fun _ _ => (readU32_safe read _).bind fun word _ => ?_
  split_ifs
  · exact .pure hlast.le
  · exact (noOverflow_safe (by omega)).bind fun _ _ => (noOverflow_safe (by omega)).bind fun _ _ =>
      .pure (Nat.succ_le_of_lt hlast)
  · exact (noOverflow_safe (by omega)).bind fun _ _ => (noOverflow_safe (by omega)).bind fun _ _ =>
      gnuHashChain_safe chains hoffset (by omega) (by omega)
termination_by symoffset + 1000000 - lastSymbol

/-- The highest symbol that a bucket begins with has as many bits as a bucket. -/
theorem gnuHashBuckets_safe (buckets : ℕ) {nbuckets : ℕ} (hbuckets : nbuckets < 2 ^ 32) :
    Safe (loop (gnuHashBucket read buckets) nbuckets 0 0) (· < 2 ^ 32) := by
  have hmax : 2 ^ 34 ≤ usizeMax := by decide
  refine .loop (fun i hi lastSymbol hlast => ?_) nbuckets 0 (Nat.zero_add _).le (by decide)
  exact (noOverflow_safe (by omega)).bind fun _ _ => (add_safe _ _).bind fun _ _ =>
    (readU32_safe read _).bind fun bucket hbucket => .pure (max_lt hlast hbucket)

theorem gnuHashSymbolCount_safe (gnuHash : ℕ) :
    Safe (gnuHashSymbolCount read gnuHash) (· ≤ 2 ^ 33 + 1) := by
  have hmax : 2 ^ 36 ≤ usizeMax := by decide
  refine (readU32_safe read _).bind fun nbuckets hbuckets => (add_safe _ _).bind fun _ _ =>
    (readU32_safe read _).bind fun symoffset hoffset => (add_safe _ _).bind fun _ _ =>
    (readU32_safe read _).bind fun bloomSize hbloom => ?_
  split_ifs
  · exact .pure (by omega)
  refine (noOverflow_safe (by omega)).bind fun _ _ => (add_safe _ _).bind fun buckets _ =>
    (noOverflow_safe (by omega)).bind fun _ _ => (add_safe _ _).bind fun chains _ =>
    (gnuHashBuckets_safe read buckets hbuckets).bind fun lastSymbol hlast => ?_
  split_ifs
  · exact .pure (by omega)
  · exact (gnuHashChain_safe read chains hoffset (by omega) (by omega)).bind fun lastSymbol hlast =>
      (noOverflow_safe (by omega)).bind fun _ _ => .pure (by omega)

theorem elfSymbol_safe (tables : DynamicTables) {i : ℕ} (hi : i ≤ 2 ^ 34) (out : List Symbol) :
    Safe (elfSymbol read moduleBase tables i out) fun _ => True := by
  have hmax : 2 ^ 34 * 24 ≤ usizeMax := by decide
  refine (noOverflow_safe (by omega)).bind fun _ _ => (add_safe _ _).bind fun sym _ =>
    (readU32_safe read _).bind fun st_name _ => (add_safe _ _).bind fun _ _ =>
    (readUint_safe read _ _).bind fun st_info _ => (add_safe _ _).bind fun _ _ =>
    (readU16_safe read _).bind fun st_shndx _ => (add_safe _ _).bind fun _ _ =>
    (readU64_safe read _).bind fun st_value _ => ?_
  dsimp only
  split_ifs
  · exact .pure trivial
  refine (add_safe _ _).bind fun _ _ => (readCstr_safe read _ 0 [] rfl).bind fun name _ => ?_
  split_ifs
  · exact .pure trivial
  · exact (add_safe _ _).bind fun address _ => .pure trivial

/-- Counting the symbols is safe where the hash table is not at the very end of the words. -/
theorem elfSymbolCount_safe {tables : DynamicTables}
    (hhash : ∀ hash, tables.hash = some hash → hash + 4 ≤ usizeMax) :
    Safe (elfSymbolCount read moduleBase tables) fun count => ∀ n, count = some n → n ≤ 2 ^ 34 := by
  unfold elfSymbolCount
  cases hcase : tables.hash with
  | some hash =>
    refine (noOverflow_safe (hhash hash hcase)).bind fun _ _ => (add_safe _ _).bind fun _ _ =>
      (readU32_safe read _).bind fun count hcount => .pure ?_
    rintro n ⟨⟩
    omega
  | none =>
    cases tables.gnuHash with
    | some gnuHash =>
      refine (add_safe _ _).bind fun _ _ => (gnuHashSymbolCount_safe read _).bind fun count hcount =>
        .pure ?_
      rintro n ⟨⟩
      omega
    | none => exact .pure (by simp)

theorem elfSymbols_safe {tables : DynamicTables}
    (hhash : ∀ hash, tables.hash = some hash → hash + 4 ≤ usizeMax) :
    Safe (elfSymbols read moduleBase tables) fun _ => True := by
  refine (elfSymbolCount_safe read moduleBase hhash).bind fun count hcount => ?_
  cases count with
  | none => exact .pure trivial
  | some count =>
    exact .loop_of_forall (fun i hi out => elfSymbol_safe read moduleBase tables
      (hi.le.trans (hcount count rfl)) out) le_rfl []

/-- The hash table of the dynamic array, where the symbols are counted by one, is not at the very
end of the words. -/
def HashInRange (s : σ) : Prop :=
  ∀ tables s', outcome (elfDynamicTables read moduleBase) s = (.ok (some tables), s') →
    ∀ hash, tables.hash = some hash → hash + 4 ≤ usizeMax

theorem elfSymbols_overflow {tables : DynamicTables} {hash : ℕ} (hhash : tables.hash = some hash)
    (hover : ¬ hash + 4 ≤ usizeMax) (s : σ) :
    (outcome (elfSymbols read moduleBase tables) s).1 = .error .overflow := by
  have hcount : outcome (elfSymbolCount read moduleBase tables) s = (.error .overflow, s) := by
    simp only [elfSymbolCount, hhash, outcome_bind, noOverflow, if_neg hover]
    rfl
  rw [elfSymbols, outcome_bind, hcount]

theorem Safe.ne_overflow {m : Parser σ α} {post : α → Prop} (h : Safe m post) (s : σ) :
    (outcome m s).1 ≠ .error .overflow := by
  have hs := h.outcome s
  intro hover
  rw [hover] at hs
  exact hs rfl

theorem elfExports_ne_overflow_iff (s : σ) :
    (outcome (elfExports read moduleBase) s).1 ≠ .error .overflow ↔
      HashInRange read moduleBase s := by
  have htables := (elfDynamicTables_safe read moduleBase).outcome s
  rw [HashInRange, elfExports, outcome_bind]
  generalize outcome (elfDynamicTables read moduleBase) s = tablesOutcome at htables ⊢
  rcases tablesOutcome with ⟨fault | found, s'⟩
  · refine ⟨fun _ tables s'' h => (nomatch h), fun _ hover => ?_⟩
    exact htables (Except.error.inj hover)
  · cases found with
    | none => exact ⟨fun _ tables s'' h => (nomatch h), fun _ hover => nomatch hover⟩
    | some tables =>
      refine ⟨fun hne tables' s'' h hash hhash => ?_, fun hrange => ?_⟩
      · cases h
        by_contra hover
        exact hne (elfSymbols_overflow read moduleBase hhash hover s')
      · exact (elfSymbols_safe read moduleBase (hrange tables s' rfl)).ne_overflow s'

end Elf

/-- Whatever a reader answers, no arithmetic of the PE parser and of the GNU hash table leaves a
word; that of the ELF parser does if and only if it counts the symbols by a hash table at the very
end of the words. -/
theorem exports_ne_overflow_iff (read : Reader σ) (moduleBase gnuHash : ℕ) (s : σ) :
    (outcome (peExports read moduleBase) s).1 ≠ .error .overflow ∧
      (outcome (gnuHashSymbolCount read gnuHash) s).1 ≠ .error .overflow ∧
      ((outcome (elfExports read moduleBase) s).1 ≠ .error .overflow ↔
        HashInRange read moduleBase s) :=
  ⟨(peExports_safe read moduleBase).ne_overflow s, (gnuHashSymbolCount_safe read gnuHash).ne_overflow s,
    elfExports_ne_overflow_iff read moduleBase s⟩

/-- An image with one program header and a dynamic array: symbols, strings, and a hash table at the
last word. -/
def hashAtEnd : List UInt8 :=
  [0x7F, 0x45, 0x4C, 0x46, 2, 1] ++ .replicate 26 0 ++ [64] ++ .replicate 21 0 ++ [56, 0, 1] ++
    .replicate 7 0 ++ [2] ++ .replicate 15 0 ++ [120] ++ .replicate 39 0 ++
    ([6] ++ .replicate 15 0) ++ ([5] ++ .replicate 15 0) ++
    ([4] ++ .replicate 7 0 ++ .replicate 8 0xFF) ++ .replicate 16 0

theorem elfExports_hashAtEnd :
    (outcome (elfExports ((MockTarget.new 4096 hashAtEnd).target Unit).read 4096) ()).1 =
      .error .overflow := by
  decide +kernel

end Nemclass.Symbols
