import Nemclass.Lib.Words
import Nemclass.Process.Maps

/-! Mapping records as the kernel prints them, one on a line, and what the parsers read
off such a line: every column in front of the pathname as it was printed. -/
namespace Nemclass.Process
open Scan Kernel Numerals Words

/-- The path of a file, as printed: a newline in it is escaped, and it ends in the file's name. -/
structure AbsolutePath where
  chars : List Char
  absolute : chars.head? = some '/'
  inline : '\n' ∉ chars
  named : chars.getLast? ≠ some '/'

inductive Pathname where
  | empty
  | pseudo (name : List Char) (inline : '\n' ∉ name)
  | file (path : AbsolutePath) (deleted : Bool)

def Pathname.text : Pathname → List Char
  | empty => []
  | pseudo name _ => '[' :: (name ++ [']'])
  | file path deleted => path.chars ++ if deleted then " (deleted)".toList else []

structure MapsRecord where
  start : ℕ
  stop : ℕ
  read : Bool
  write : Bool
  exec : Bool
  shared : Bool
  offset : ℕ
  major : ℕ
  minor : ℕ
  inode : ℕ
  /-- The blanks up to the pathname, beyond the first. -/
  padding : ℕ
  pathname : Pathname
  nonempty : start < stop
  stop_word : stop < 2 ^ 64
  offset_word : offset < 2 ^ 64

/-- A hexadecimal number padded with zeros. -/
def hexPadded (width n : ℕ) : List Char :=
  let digits := Nat.toDigits 16 n
  List.replicate (width - digits.length) '0' ++ digits

namespace MapsRecord

def range (r : MapsRecord) : List Char := hexPadded 8 r.start ++ '-' :: hexPadded 8 r.stop

def perms (r : MapsRecord) : List Char :=
  [if r.read then 'r' else '-', if r.write then 'w' else '-', if r.exec then 'x' else '-',
    if r.shared then 's' else 'p']

def device (r : MapsRecord) : List Char := hexPadded 2 r.major ++ ':' :: hexPadded 2 r.minor

/-- What is behind the file offset, up to the pathname. -/
def origin (r : MapsRecord) : List Char :=
  r.device ++ ' ' :: (Nat.toDigits 10 r.inode ++ List.replicate (r.padding + 1) ' ')

/-- All columns but the pathname. -/
def columns (r : MapsRecord) : List Char :=
  r.range ++ ' ' :: (r.perms ++ ' ' :: (hexPadded 8 r.offset ++ ' ' :: r.origin))

def text (r : MapsRecord) : List Char := r.columns ++ r.pathname.text

end MapsRecord

def render (records : List MapsRecord) : List Char := records.flatMap fun r => r.text ++ ['\n']

section Characters

/-- What stands in the columns in front of the pathname. -/
def Plain (c : Char) : Prop := c = ' ' ∨ c = '-' ∨ 48 ≤ c.toNat ∧ c.toNat ≤ 122

theorem Plain.ne_slash {c : Char} (h : Plain c) : c ≠ '/' := by
  rintro rfl
  revert h
  unfold Plain
  decide

theorem Plain.ne_newline {c : Char} (h : Plain c) : c ≠ '\n' := by
  rintro rfl
  revert h
  unfold Plain
  decide

theorem toDigits_bounds {radix n : ℕ} (hradix : 1 < radix) (hle : radix ≤ 16) :
    ∀ c ∈ Nat.toDigits radix n, 48 ≤ c.toNat ∧ c.toNat ≤ 122 := fun c hc =>
  digit_bounds ((denotes_toDigits hradix hle n).1.isSome_digit c hc)

theorem hexPadded_bounds {width n : ℕ} :
    ∀ c ∈ hexPadded width n, 48 ≤ c.toNat ∧ c.toNat ≤ 122 := by
  intro c hc
  obtain hzero | hdigit := List.mem_append.mp hc
  · rw [List.eq_of_mem_replicate hzero]
    decide
  · exact toDigits_bounds (by decide) (le_refl 16) c hdigit

theorem hexPadded_ne_nil (width n : ℕ) : hexPadded width n ≠ [] :=
  List.append_ne_nil_of_right_ne_nil _ (toDigits_ne_nil n)

theorem hexUsize_hexPadded {width n : ℕ} (h : n < 2 ^ 64) :
    hexUsize (hexPadded width n) = some n := by
  have hdigits := (denotes_toDigits (by decide) (le_refl 16) n).1
  have hreads : Reads false 16 (hexPadded width n) n :=
    .positive ⟨_, hexPadded_ne_nil width n, .inl rfl, denotes_padded (by decide) _ hdigits⟩
  have hok : fromStrRadix false 8 16 (hexPadded width n) = .ok (n : ℤ) :=
    (fromStrRadix_eq_ok (by decide)).mpr ⟨hreads, inRange_natCast.mpr h⟩
  rw [hexUsize, hok]
  rfl

variable (r : MapsRecord)

theorem mem_perms {c : Char} (h : c ∈ r.perms) :
    c = '-' ∨ 48 ≤ c.toNat ∧ c.toNat ≤ 122 := by
  simp only [MapsRecord.perms, List.mem_cons, List.not_mem_nil, or_false] at h
  obtain rfl | rfl | rfl | rfl := h <;> split <;> decide

theorem mem_range {c : Char} (h : c ∈ r.range) : c = '-' ∨ 48 ≤ c.toNat ∧ c.toNat ≤ 122 := by
  rw [MapsRecord.range, List.mem_append, List.mem_cons] at h
  obtain hstart | rfl | hstop := h
  · exact .inr (hexPadded_bounds c hstart)
  · exact .inl rfl
  · exact .inr (hexPadded_bounds c hstop)

theorem mem_device {c : Char} (h : c ∈ r.device) : 48 ≤ c.toNat ∧ c.toNat ≤ 122 := by
  rw [MapsRecord.device, List.mem_append, List.mem_cons] at h
  obtain hmajor | rfl | hminor := h
  · exact hexPadded_bounds c hmajor
  · decide
  · exact hexPadded_bounds c hminor

theorem mem_origin {c : Char} (h : c ∈ r.origin) : Plain c := by
  rw [MapsRecord.origin, List.mem_append, List.mem_cons, List.mem_append] at h
  obtain hdevice | rfl | hinode | hblank := h
  · exact .inr (.inr (mem_device r hdevice))
  · exact .inl rfl
  · exact .inr (.inr (toDigits_bounds (by decide) (by decide) c hinode))
  · exact .inl (List.eq_of_mem_replicate hblank)

theorem mem_columns {c : Char} (h : c ∈ r.columns) : Plain c := by
  simp only [MapsRecord.columns, List.mem_append, List.mem_cons] at h
  obtain hrange | rfl | hperms | rfl | hoffset | rfl | horigin := h
  · exact .inr (mem_range r hrange)
  · exact .inl rfl
  · exact .inr (mem_perms r hperms)
  · exact .inl rfl
  · exact .inr (.inr (hexPadded_bounds c hoffset))
  · exact .inl rfl
  · exact mem_origin r horigin

theorem newline_notMem_text : '\n' ∉ r.text := by
  intro h
  obtain hcolumns | hpath := List.mem_append.mp h
  · exact (mem_columns r hcolumns).ne_newline rfl
  · revert hpath
    cases r.pathname with
    | empty => simp [Pathname.text]
    | pseudo name hinline => simp [Pathname.text, hinline]
    | file path deleted => cases deleted <;> simp [Pathname.text, path.inline]

end Characters

section Lines

theorem linesFrom_append (line rest : List Char) {cs : List Char} (h : '\n' ∉ cs) :
    linesFrom line (cs ++ '\n' :: rest) = stripReturn (line ++ cs) :: linesFrom [] rest := by
  induction cs generalizing line with
  | nil => rw [List.nil_append, linesFrom, if_pos rfl, List.append_nil]
  | cons c cs ih =>
    rw [List.mem_cons, not_or] at h
    obtain ⟨hc, hcs⟩ := h
    rw [List.cons_append, linesFrom, if_neg (Ne.symm hc), ih _ hcs, List.append_assoc]
    rfl

/-- The lines are those of the records. -/
theorem lines_render (records : List MapsRecord) :
    lines (render records) = records.map fun r => stripReturn r.text := by
  induction records with
  | nil => rfl
  | cons r rs ih =>
    rw [render, List.flatMap_cons, List.append_assoc, lines]
    exact (linesFrom_append [] _ (newline_notMem_text r)).trans (congrArg _ ih)

theorem stripReturn_concat (s : List Char) (c : Char) :
    stripReturn (s ++ [c]) = if c = '\r' then s else s ++ [c] := by
  simp only [stripReturn, List.getLast?_concat, List.dropLast_concat, Option.some_inj]

/-- What is read from a pathname column: all from the first slash on. -/
def readColumn (s : List Char) : Option (List Char) :=
  let rest := s.dropWhile (· ≠ '/')
  if rest = [] then none else some (stripDeleted (trimEnd rest))

/-- A carriage return at the end is trimmed off anyway. -/
theorem readColumn_concat_return (s : List Char) : readColumn (s ++ ['\r']) = readColumn s := by
  have hdrop : (s ++ ['\r']).dropWhile (· ≠ '/') =
      if s.dropWhile (· ≠ '/') = [] then [] else s.dropWhile (· ≠ '/') ++ ['\r'] := by
    rw [List.dropWhile_append]
    by_cases hnil : s.dropWhile (· ≠ '/') = []
    · rw [hnil, if_pos rfl]
      rfl
    · rw [if_neg hnil, if_neg (by simpa using hnil)]
  rw [readColumn, readColumn, hdrop]
  by_cases hnil : s.dropWhile (· ≠ '/') = []
  · rw [if_pos hnil, hnil]
  · rw [if_neg hnil, if_neg (List.append_ne_nil_of_left_ne_nil hnil _), if_neg hnil, trimEnd,
      List.rdropWhile_concat_pos _ _ _ (by decide), trimEnd]

theorem exists_columns_concat (r : MapsRecord) : ∃ front, r.columns = front ++ [' '] := by
  refine ⟨r.range ++ ' ' :: (r.perms ++ ' ' :: (hexPadded 8 r.offset ++ ' ' :: (r.device ++ ' ' ::
    (Nat.toDigits 10 r.inode ++ List.replicate r.padding ' ')))), ?_⟩
  simp only [MapsRecord.columns, MapsRecord.origin, List.replicate_succ', List.append_assoc,
    List.cons_append]

/-- A line holds the columns, and what is read from the rest is that of the pathname. -/
theorem exists_stripReturn_text (r : MapsRecord) : ∃ rest,
    stripReturn r.text = r.columns ++ rest ∧ readColumn rest = readColumn r.pathname.text := by
  rw [MapsRecord.text]
  obtain hnil | ⟨s, c, hs⟩ := List.eq_nil_or_concat' r.pathname.text
  · obtain ⟨front, hfront⟩ := exists_columns_concat r
    rw [hnil, List.append_nil, hfront, stripReturn_concat, if_neg (by decide)]
    exact ⟨[], (List.append_nil _).symm, rfl⟩
  · rw [hs, ← List.append_assoc, stripReturn_concat]
    by_cases hc : c = '\r'
    · rw [if_pos hc, hc]
      exact ⟨s, rfl, (readColumn_concat_return s).symm⟩
    · rw [if_neg hc]
      exact ⟨s ++ [c], List.append_assoc .., rfl⟩

end Lines

section Columns
variable (r : MapsRecord)

theorem isWhitespace_of_range {c : Char} (h : c = '-' ∨ 48 ≤ c.toNat ∧ c.toNat ≤ 122) :
    isWhitespace c = false := by
  obtain rfl | hbounds := h
  · decide
  · exact isWhitespace_of_bounds hbounds

theorem splitWhitespace_append {w : List Char} (rest : List Char) (hne : w ≠ [])
    (h : ∀ c ∈ w, isWhitespace c = false) :
    splitWhitespace (w ++ ' ' :: rest) = w :: splitWhitespace rest := by
  have hblank : isWhitespace ' ' = true := rfl
  change words isWhitespace (w ++ ' ' :: rest) = w :: words isWhitespace rest
  rw [words_append hne h (by simpa using hblank), words_cons hblank]

theorem splitWhitespace_columns (rest : List Char) :
    splitWhitespace (r.columns ++ rest) =
      r.range :: r.perms :: hexPadded 8 r.offset :: splitWhitespace (r.origin ++ rest) := by
  have hrange : r.range ≠ [] := List.append_ne_nil_of_left_ne_nil (hexPadded_ne_nil 8 r.start) _
  have hperms : r.perms ≠ [] := List.cons_ne_nil _ _
  simp only [MapsRecord.columns, List.append_assoc, List.cons_append]
  rw [splitWhitespace_append _ hrange fun c hc => isWhitespace_of_range (mem_range r hc),
    splitWhitespace_append _ hperms fun c hc =>
      isWhitespace_of_range (mem_perms r hc),
    splitWhitespace_append _ (hexPadded_ne_nil 8 r.offset) fun c hc =>
      isWhitespace_of_bounds (hexPadded_bounds c hc)]

theorem splitOnce_range :
    splitOnce '-' r.range = some (hexPadded 8 r.start, hexPadded 8 r.stop) := by
  have hdigit : ∀ c ∈ hexPadded 8 r.start, decide (c ≠ '-') = true := by
    intro c hc
    obtain ⟨hlow, -⟩ := hexPadded_bounds c hc
    simp only [ne_eq, decide_eq_true_eq]
    rintro rfl
    exact absurd hlow (by decide)
  have hmem : '-' ∈ r.range := List.mem_append_right _ List.mem_cons_self
  rw [splitOnce, if_pos hmem, MapsRecord.range, List.takeWhile_append_of_pos hdigit,
    List.dropWhile_append_of_pos hdigit, List.takeWhile_cons_of_neg (by decide),
    List.dropWhile_cons_of_neg (by decide), List.append_nil, List.tail_cons]

theorem addressRange_range : addressRange (some r.range) = some (r.start, r.stop) := by
  have hstart : hexUsize (hexPadded 8 r.start) = some r.start :=
    hexUsize_hexPadded (r.nonempty.trans r.stop_word)
  have hstop : hexUsize (hexPadded 8 r.stop) = some r.stop := hexUsize_hexPadded r.stop_word
  rw [addressRange, Option.bind_some, splitOnce_range]
  show (do pure (← hexUsize (hexPadded 8 r.start), ← hexUsize (hexPadded 8 r.stop))) = _
  rw [hstart, hstop]
  rfl

theorem takeWhile_columns (rest : List Char) :
    (r.columns ++ rest).takeWhile (· ≠ '/') = r.columns ++ rest.takeWhile (· ≠ '/') :=
  List.takeWhile_append_of_pos fun _ hc => decide_eq_true (mem_columns r hc).ne_slash

theorem dropWhile_columns (rest : List Char) :
    (r.columns ++ rest).dropWhile (· ≠ '/') = rest.dropWhile (· ≠ '/') :=
  List.dropWhile_append_of_pos fun _ hc => decide_eq_true (mem_columns r hc).ne_slash

/-- What the record adds to the modules, as a mapping of a file of this path. -/
def MapsRecord.fileMapping (path : List Char) : Option FileMapping :=
  (fileName path).map fun name => ⟨path, name, r.start, r.stop, r.offset⟩

theorem fileMapping_columns (rest : List Char) :
    fileMapping (r.columns ++ rest) = (readColumn rest).bind r.fileMapping := by
  have hoffset : hexUsize (hexPadded 8 r.offset) = some r.offset :=
    hexUsize_hexPadded r.offset_word
  simp only [fileMapping, readColumn, MapsRecord.fileMapping, takeWhile_columns, dropWhile_columns,
    splitWhitespace_columns]
  by_cases hnil : rest.dropWhile (· ≠ '/') = []
  · rw [hnil]
    rfl
  · simp only [List.getElem?_cons_zero, List.getElem?_cons_succ, addressRange_range, hoffset,
      Option.bind_some, if_neg hnil]
    rw [guard, if_pos hnil, MapsRecord.fileMapping]
    cases fileName (stripDeleted (trimEnd (rest.dropWhile (· ≠ '/')))) <;> rfl

def MapsRecord.prot : UInt8 :=
  (if r.read then protR else 0) ||| (if r.write then protW else 0) |||
    (if r.exec then protX else 0)

/-- The section of the record, as a mapping of a file of this path or of none. -/
def MapsRecord.section (path : Option (List Char)) : Section where
  base := r.start
  size := r.stop - r.start
  prot := if r.shared = false ∧ path.isSome ∧ r.write then r.prot ||| protCow else r.prot
  kind := if r.shared then .mapped else if path.isSome then .image else .privateMemory
  module := if r.shared then none else path.bind fileName

theorem perms_read : sliceTo (min (Utf8.encode r.perms).length 3) r.perms = some (r.perms.take 3) ∧
    parseProtection (r.perms.take 3) = r.prot ∧
    ((Utf8.encode r.perms)[3]? = some 0x73 ↔ r.shared = true) ∧
    (protWrite r.prot = r.write) := by
  unfold MapsRecord.perms MapsRecord.prot
  cases r.read <;> cases r.write <;> cases r.exec <;> cases r.shared <;> decide

theorem mappingSection_columns (rest : List Char) :
    mappingSection (r.columns ++ rest) = some (some (r.section (readColumn rest))) := by
  obtain ⟨hslice, hprot, hshared, hwrite⟩ := perms_read r
  unfold mappingSection readColumn
  rw [takeWhile_columns, dropWhile_columns, splitWhitespace_columns]
  generalize rest.dropWhile (· ≠ '/') = path
  dsimp only [List.getElem?_cons_zero, List.getElem?_cons_succ, Option.getD_some]
  rw [addressRange_range]
  dsimp only
  rw [hslice]
  simp only [Option.bind_eq_bind, Option.bind_some, hprot, hshared, hwrite, MapsRecord.section]
  cases r.shared with
  | true => simp
  | false => cases path <;> simp

end Columns

end Nemclass.Process
