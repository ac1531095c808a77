import Nemclass.Model.Node
import Nemclass.Scan.IntText

/-! Edits of a value in the class view. The editor is seeded with what is shown of the value, less
its prefix, and what is committed is parsed by the kind of the node and written to the process. What
is shown is written back as it was; other texts are read as they say unless a prefix stands before a
decimal, or before another prefix. -/
namespace Nemclass.Ui
open Usize Model Scan Outcome

/-! ## Rendering -/

structure RenderedValue where
  value : String
  typeTag : String
  memorySize : ℕ
deriving DecidableEq, Repr

def readBytes (buf : List UInt8) (offset size : ℕ) : Option (List UInt8) := do
  let last ← checkedAdd offset size
  if last ≤ buf.length then some ((buf.drop offset).take size) else none

def fallback (typeTag : String) (size : ℕ) : RenderedValue := ⟨"<?>", typeTag, size⟩

def renderInteger (signed : Bool) (bytes : List UInt8) : String :=
  String.ofList (display (fromLeBytes signed bytes))

/-- `0x{:0wX}` -/
def renderHex (w : ℕ) (bytes : List UInt8) : String :=
  String.ofList ('0' :: 'x' :: upperHexPadded w (leBytes bytes))

/-- What a node of a kind shows of its bytes. The printing of the floats is the standard
library's. -/
def renderSimple (formatFloat : ℕ → List UInt8 → String) (kind : SimpleKind) (name : String)
    (bytes : List UInt8) : String :=
  match kind with
  | .int8 | .int16 | .int32 | .int64 => renderInteger true bytes
  | .uint8 | .uint16 | .uint32 | .uint64 => renderInteger false bytes
  | .float => formatFloat 4 bytes
  | .double => formatFloat 8 bytes
  | .bool => if bytes.head? ≠ some 0 then "true" else "false"
  | .hex8 => renderHex 2 bytes
  | .hex16 => renderHex 4 bytes
  | .hex32 => renderHex 8 bytes
  | .hex64 | .strPtr | .functionPtr => renderHex 16 bytes
  | .vMethod => if name = "" then renderHex 16 bytes else name ++ " -> " ++ renderHex 16 bytes

/-- `render` of the nodes that are one value. -/
def renderValue (formatFloat : ℕ → List UInt8 → String) (node : Node) (buf : List UInt8)
    (baseOffset : ℕ) : Option RenderedValue :=
  match node with
  | .simple kind name _ =>
    match readBytes buf baseOffset kind.size with
    | none => some (fallback kind.typeTag kind.size)
    | some bytes => some ⟨renderSimple formatFloat kind name bytes, kind.typeTag, kind.size⟩
  | .pointer .. =>
    match readBytes buf baseOffset 8 with
    | none => some (fallback "Pointer" 8)
    | some bytes => some ⟨renderHex 12 bytes, "Pointer", 8⟩
  | _ => none

/-! ## Writing back -/

/-- A process that is written to. Its memory is what it is; a write answers with the number of bytes
written, or with an error's text. -/
structure Process (σ : Type) where
  writeBuf : ℕ → List UInt8 → σ → Except String ℕ × σ

/-- `Process::write` of a value's bytes. -/
def Process.write {σ : Type} (proc : Process σ) (address : ℕ) (bytes : List UInt8) (memory : σ) :
    Except String Unit × σ :=
  let requested := bytes.length
  match proc.writeBuf address bytes memory with
  | (.error e, memory) => (.error e, memory)
  | (.ok written, memory) =>
    if written ≠ requested then
      (.error s!"partial memory transfer: {written} of {requested} bytes", memory)
    else (.ok (), memory)

/-- `trim_start_matches` of a text of two characters. -/
def trimStartMatches (a b : Char) : List Char → List Char
  | c :: d :: rest => if c = a ∧ d = b then trimStartMatches a b rest else c :: d :: rest
  | text => text

/-- The macros of `write_parsed`: the parsed integer's bytes are written. -/
def writeParse {σ : Type} (proc : Process σ) (addr width : ℕ) (parsed : Except IntErrorKind ℤ)
    (memory : σ) : Except String Unit × σ :=
  match parsed with
  | .error e => (.error e.text, memory)
  | .ok v => proc.write addr (toLeBytes width v) memory

section Writing

/- The float syntax of the standard library, to the bytes of a value of the width. -/
variable (parseFloat : ℕ → List Char → Except String (List UInt8)) {σ : Type} (proc : Process σ)
  (addr : ℕ)

def writeFloat (width : ℕ) (raw : List Char) (memory : σ) : Except String Unit × σ :=
  match parseFloat width raw with
  | .error e => (.error e, memory)
  | .ok bytes => proc.write addr bytes memory

/-- The text without the prefixes that are stripped off it. -/
def rawText (text : List Char) : List Char :=
  trimStartMatches '0' 'X' (trimStartMatches '0' 'x' text)

def writeParsed (typeTag text : String) (memory : σ) : Except String Unit × σ :=
  let raw := rawText text.toList
  match typeTag with
  | "Int8" => writeParse proc addr 1 (fromStrRadix true 1 10 raw) memory
  | "Int16" => writeParse proc addr 2 (fromStrRadix true 2 10 raw) memory
  | "Int32" => writeParse proc addr 4 (fromStrRadix true 4 10 raw) memory
  | "Int64" => writeParse proc addr 8 (fromStrRadix true 8 10 raw) memory
  | "UInt8" => writeParse proc addr 1 (fromStrRadix false 1 10 raw) memory
  | "UInt16" => writeParse proc addr 2 (fromStrRadix false 2 10 raw) memory
  | "UInt32" => writeParse proc addr 4 (fromStrRadix false 4 10 raw) memory
  | "UInt64" => writeParse proc addr 8 (fromStrRadix false 8 10 raw) memory
  | "Hex8" => writeParse proc addr 1 (fromStrRadix false 1 16 raw) memory
  | "Hex16" => writeParse proc addr 2 (fromStrRadix false 2 16 raw) memory
  | "Hex32" => writeParse proc addr 4 (fromStrRadix false 4 16 raw) memory
  | "Hex64" => writeParse proc addr 8 (fromStrRadix false 8 16 raw) memory
  | "Float" => writeFloat parseFloat proc addr 4 raw memory
  | "Double" => writeFloat parseFloat proc addr 8 raw memory
  | "Bool" =>
    let lower := text.toList.map Char.toLower
    let v := if lower = ['t', 'r', 'u', 'e'] ∨ lower = ['1'] then 1 else 0
    proc.write addr [v] memory
  | "Pointer" => writeParse proc addr 8 (fromStrRadix false 8 16 raw) memory
  | _ => (.error s!"'{typeTag}' is not directly writable", memory)

/-- The text that the editor starts with. -/
def editSeed (value : String) : String :=
  ((value.toList.dropPrefix? ['0', 'x']).or (value.toList.dropPrefix? ['0', 'X'])).elim value
    String.ofList

/-- What `commit_edit` writes of the edited text. -/
def commitEdit (typeTag text : String) (memory : σ) : Except String Unit × σ :=
  writeParsed parseFloat proc addr typeTag (String.ofList (trim text.toList)) memory

end Writing

/-! ## What a text means -/

/-- A kind of integers that is written: its type, and the radix of a text without a prefix. -/
structure EditKind where
  typeTag : String
  signed : Bool
  width : ℕ
  radix : ℕ
deriving DecidableEq, Repr

def editKinds : List EditKind :=
  [⟨"Int8", true, 1, 10⟩, ⟨"Int16", true, 2, 10⟩, ⟨"Int32", true, 4, 10⟩, ⟨"Int64", true, 8, 10⟩,
   ⟨"UInt8", false, 1, 10⟩, ⟨"UInt16", false, 2, 10⟩, ⟨"UInt32", false, 4, 10⟩,
   ⟨"UInt64", false, 8, 10⟩, ⟨"Hex8", false, 1, 16⟩, ⟨"Hex16", false, 2, 16⟩,
   ⟨"Hex32", false, 4, 16⟩, ⟨"Hex64", false, 8, 16⟩, ⟨"Pointer", false, 8, 16⟩]

def IsMark (x : Char) : Prop := x = 'x' ∨ x = 'X'

/-- A text with one prefix is hexadecimal; without, it is of the kind's radix. -/
inductive Means (k : EditKind) : List Char → ℤ → Prop
  | prefixed {x rest v} : IsMark x → Reads k.signed 16 rest v → Means k ('0' :: x :: rest) v
  | plain {text v} : (∀ x rest, IsMark x → text ≠ '0' :: x :: rest) →
      Reads k.signed k.radix text v → Means k text v

/-- What a text means is written if it fits, and else nothing is. -/
structure WritesText (parseFloat : ℕ → List Char → Except String (List UInt8)) (k : EditKind)
    (text : String) : Prop where
  writes {σ : Type} (proc : Process σ) (addr : ℕ) (memory : σ) {v} : Means k text.toList v →
    InRange k.signed k.width v →
    writeParsed parseFloat proc addr k.typeTag text memory =
      proc.write addr (toLeBytes k.width v) memory
  rejects {σ : Type} (proc : Process σ) (addr : ℕ) (memory : σ) :
    (∀ v, Means k text.toList v → ¬ InRange k.signed k.width v) →
    ∃ e, writeParsed parseFloat proc addr k.typeTag text memory = (.error e, memory)

/-- Where the text has a prefix and another is stripped off, what is left is no number of the kind;
and of a decimal kind a text with a prefix has no number in either radix but one of one digit. -/
structure Unambiguous (k : EditKind) (text : List Char) : Prop where
  once {x rest} : text = '0' :: x :: rest → IsMark x → rawText text ≠ rest →
    ∀ v, Reads k.signed k.radix (rawText text) v → ¬ InRange k.signed k.width v
  decimal {x rest} : k.radix = 10 → text = '0' :: x :: rest → IsMark x →
    ∀ v, Reads k.signed 10 rest v ∨ Reads k.signed 16 rest v → InRange k.signed k.width v →
      v.natAbs < 10

/-! ## Prefixes -/

section Prefixes

variable {text rest : List Char} {x : Char}

theorem trimStartMatches_self {a b : Char} (h : ∀ rest, text ≠ a :: b :: rest) :
    trimStartMatches a b text = text := by
  unfold trimStartMatches
  split
  · rw [if_neg]
    rintro ⟨rfl, rfl⟩
    exact h _ rfl
  · rfl

theorem rawText_plain (h : ∀ x rest, IsMark x → text ≠ '0' :: x :: rest) : rawText text = text := by
  rw [rawText, trimStartMatches_self fun rest => h 'x' rest (.inl rfl),
    trimStartMatches_self fun rest => h 'X' rest (.inr rfl)]

/-- One prefix is stripped off. -/
theorem rawText_prefixed (hx : IsMark x) (h : ∀ y rest', IsMark y → rest ≠ '0' :: y :: rest') :
    rawText ('0' :: x :: rest) = rest := by
  obtain rfl | rfl := hx
  · have hstep : rawText ('0' :: 'x' :: rest) = rawText rest := rfl
    rw [hstep, rawText_plain h]
  · have hlower : trimStartMatches '0' 'x' ('0' :: 'X' :: rest) = '0' :: 'X' :: rest :=
      trimStartMatches_self (by rintro _ ⟨⟩)
    have hstep : trimStartMatches '0' 'X' ('0' :: 'X' :: rest) = trimStartMatches '0' 'X' rest :=
      rfl
    rw [rawText, hlower, hstep, trimStartMatches_self fun rest' => h 'X' rest' (.inr rfl)]

theorem plain_of_reads {signed : Bool} {radix : ℕ} (hradix : radix ≤ 16) {v : ℤ}
    (h : Reads signed radix text v) : ∀ x rest, IsMark x → text ≠ '0' :: x :: rest := by
  rintro x rest hx rfl
  exact h.not_prefix hradix hx

theorem editSeed_plain {value : String}
    (h : ∀ x rest, IsMark x → value.toList ≠ '0' :: x :: rest) : editSeed value = value := by
  have hnone : (value.toList.dropPrefix? ['0', 'x']).or (value.toList.dropPrefix? ['0', 'X']) =
      none := by
    rw [Option.eq_none_iff_forall_ne_some]
    intro hex hhex
    obtain ⟨x, hx, heq⟩ := hexPrefix_eq_some.mp hhex
    exact h x hex hx heq
  rw [editSeed, hnone, Option.elim_none]

theorem editSeed_prefixed (hx : IsMark x) {value : String} (h : value.toList = '0' :: x :: rest) :
    editSeed value = String.ofList rest := by
  rw [editSeed, hexPrefix_eq_some.mpr ⟨x, hx, h⟩, Option.elim_some]

end Prefixes

/-! ## What is written -/

section Kinds

variable (parseFloat : ℕ → List Char → Except String (List UInt8)) {k : EditKind} {text : String}

theorem EditKind.radix_eq (hk : k ∈ editKinds) :
    k.radix = 10 ∨ k.radix = 16 ∧ k.signed = false := by
  have hall : ∀ k ∈ editKinds, k.radix = 10 ∨ k.radix = 16 ∧ k.signed = false := by decide
  exact hall k hk

theorem EditKind.width_pos (hk : k ∈ editKinds) : 0 < k.width := by
  have hall : ∀ k ∈ editKinds, 0 < k.width := by decide
  exact hall k hk

theorem writeParsed_eq (hk : k ∈ editKinds) {σ : Type} (proc : Process σ) (addr : ℕ) (memory : σ) :
    writeParsed parseFloat proc addr k.typeTag text memory =
      writeParse proc addr k.width
        (fromStrRadix k.signed k.width k.radix (rawText text.toList)) memory := by
  simp only [editKinds, List.mem_cons, List.not_mem_nil, or_false] at hk
  obtain rfl | rfl | rfl | rfl | rfl | rfl | rfl | rfl | rfl | rfl | rfl | rfl | rfl := hk <;> rfl

/-- A process that keeps what was written to it. -/
def recorder : Process (List (List UInt8)) where
  writeBuf _ bytes memory := (.ok bytes.length, memory ++ [bytes])

theorem recorder_write (addr : ℕ) (bytes : List UInt8) (memory : List (List UInt8)) :
    recorder.write addr bytes memory = (.ok (), memory ++ [bytes]) := by
  unfold Process.write
  dsimp only [recorder]
  rw [if_neg (by simp)]

theorem writeParse_eq_of_reads {signed : Bool} {width radix : ℕ} (hradix : 0 < radix)
    {raw : List Char} {v : ℤ} (h : Reads signed radix raw v) (hrange : InRange signed width v)
    {σ : Type} (proc : Process σ) (addr : ℕ) (memory : σ) :
    writeParse proc addr width (fromStrRadix signed width radix raw) memory =
      proc.write addr (toLeBytes width v) memory := by
  rw [(fromStrRadix_eq_ok hradix).mpr ⟨h, hrange⟩]
  rfl

theorem writeParse_eq_error {signed : Bool} {width radix : ℕ} (hradix : 0 < radix)
    {raw : List Char} (h : ∀ v, Reads signed radix raw v → ¬ InRange signed width v)
    {σ : Type} (proc : Process σ) (addr : ℕ) (memory : σ) :
    ∃ e, writeParse proc addr width (fromStrRadix signed width radix raw) memory =
      (.error e, memory) := by
  cases hparsed : fromStrRadix signed width radix raw with
  | error e => exact ⟨e.text, rfl⟩
  | ok v =>
    obtain ⟨hreads, hrange⟩ := (fromStrRadix_eq_ok hradix).mp hparsed
    exact (h v hreads hrange).elim

theorem EditKind.radix_pos (hk : k ∈ editKinds) : 0 < k.radix := by
  obtain h | ⟨h, -⟩ := EditKind.radix_eq hk <;> rw [h] <;> decide

/-- Where what fits is written and nothing else is, the bytes written tell the number. -/
theorem of_written {signed : Bool} {width : ℕ} (hpos : 0 < width) {P : ℤ → Prop}
    {outcome : Except String Unit × List (List UInt8)}
    (hwrites : ∀ u, P u → InRange signed width u →
      outcome = recorder.write 0 (toLeBytes width u) [])
    (hrejects : (∀ u, P u → ¬ InRange signed width u) → ∃ e, outcome = (.error e, []))
    {v : ℤ} (hrange : InRange signed width v)
    (hwritten : outcome = recorder.write 0 (toLeBytes width v) []) : P v := by
  by_cases hother : ∃ u, P u ∧ InRange signed width u
  · obtain ⟨u, hu, hfits⟩ := hother
    rw [hwrites u hu hfits, recorder_write, recorder_write] at hwritten
    have hbytes : toLeBytes width u = toLeBytes width v := by simpa using hwritten
    exact eq_of_toLeBytes_eq hpos hfits hrange hbytes ▸ hu
  · obtain ⟨e, he⟩ := hrejects fun u hu hfits => hother ⟨u, hu, hfits⟩
    rw [he, recorder_write] at hwritten
    cases hwritten

/-- The text is written as it means if what is parsed of it is what it means. -/
theorem writesText_iff (hk : k ∈ editKinds) : WritesText parseFloat k text ↔
    ∀ v, InRange k.signed k.width v →
      (Reads k.signed k.radix (rawText text.toList) v ↔ Means k text.toList v) := by
  have hradix := EditKind.radix_pos hk
  have hpos := EditKind.width_pos hk
  constructor
  · intro h v hrange
    have hparsed : writeParsed parseFloat recorder 0 k.typeTag text [] =
        writeParse recorder 0 k.width
          (fromStrRadix k.signed k.width k.radix (rawText text.toList)) [] :=
      writeParsed_eq parseFloat hk recorder 0 []
    constructor
    · intro hreads
      refine of_written hpos (fun u => h.writes recorder 0 []) (h.rejects recorder 0 []) hrange ?_
      rw [hparsed, writeParse_eq_of_reads hradix hreads hrange]
    · intro hmeans
      refine of_written hpos
        (fun u hu hfits => writeParse_eq_of_reads hradix hu hfits recorder 0 [])
        (fun hnone => writeParse_eq_error hradix hnone recorder 0 []) hrange ?_
      rw [← hparsed, h.writes recorder 0 [] hmeans hrange]
  · intro h
    refine ⟨fun proc addr memory v hmeans hrange => ?_, fun proc addr memory hnone => ?_⟩
    · rw [writeParsed_eq parseFloat hk,
        writeParse_eq_of_reads hradix ((h v hrange).mpr hmeans) hrange]
    · rw [writeParsed_eq parseFloat hk]
      exact writeParse_eq_error hradix
        (fun v hreads hrange => hnone v ((h v hrange).mp hreads) hrange) proc addr memory

end Kinds

/-! ## When a text is read as it means -/

section Readings

variable {k : EditKind} {text rest : List Char} {x : Char} {v : ℤ}

theorem means_plain (h : ∀ x rest, IsMark x → text ≠ '0' :: x :: rest) :
    Means k text v ↔ Reads k.signed k.radix text v := by
  constructor
  · rintro (⟨hx, -⟩ | ⟨-, hreads⟩)
    · exact (h _ _ hx rfl).elim
    · exact hreads
  · exact .plain h

theorem means_prefixed (hx : IsMark x) :
    Means k ('0' :: x :: rest) v ↔ Reads k.signed 16 rest v := by
  constructor
  · rintro (⟨-, hreads⟩ | ⟨hplain, -⟩)
    · exact hreads
    · exact (hplain x rest hx rfl).elim
  · exact .prefixed hx

/-- After a second prefix there is no number. -/
theorem eq_rest_of_reads (hx : IsMark x) {signed : Bool} {radix : ℕ} (hradix : radix ≤ 16)
    (h : Reads signed radix rest v) : rawText ('0' :: x :: rest) = rest :=
  rawText_prefixed hx (plain_of_reads hradix h)

theorem unambiguous_iff (hk : k ∈ editKinds) : Unambiguous k text ↔
    ∀ v, InRange k.signed k.width v →
      (Reads k.signed k.radix (rawText text) v ↔ Means k text v) := by
  have hle : k.radix ≤ 16 := by
    obtain h | ⟨h, -⟩ := EditKind.radix_eq hk <;> omega
  constructor
  · intro h v hrange
    by_cases hplain : ∀ x rest, IsMark x → text ≠ '0' :: x :: rest
    · rw [means_plain hplain, rawText_plain hplain]
    push Not at hplain
    obtain ⟨x, rest, hx, rfl⟩ := hplain
    rw [means_prefixed hx]
    by_cases honce : rawText ('0' :: x :: rest) = rest
    · rw [honce]
      obtain hten | ⟨hsixteen, -⟩ := EditKind.radix_eq hk
      · rw [hten]
        have hdigit := h.decimal hten rfl hx v
        constructor
        · intro hreads
          exact (reads_ten_iff (hdigit (.inl hreads) hrange)).mp hreads
        · intro hreads
          exact (reads_ten_iff (hdigit (.inr hreads) hrange)).mpr hreads
      · rw [hsixteen]
    · refine iff_of_false (fun hreads => h.once rfl hx honce v hreads hrange) fun hreads => ?_
      exact honce (eq_rest_of_reads hx le_rfl hreads)
  · intro h
    constructor
    · rintro x rest rfl hx hmore v hreads hrange
      rw [h v hrange, means_prefixed hx] at hreads
      exact hmore (eq_rest_of_reads hx le_rfl hreads)
    · rintro x rest hten rfl hx v hreads hrange
      have honce : rawText ('0' :: x :: rest) = rest := by
        obtain hreads | hreads := hreads
        · exact eq_rest_of_reads hx (by decide) hreads
        · exact eq_rest_of_reads hx le_rfl hreads
      have hboth := h v hrange
      rw [means_prefixed hx, honce, hten] at hboth
      obtain hreads | hreads := hreads
      · exact hreads.natAbs_lt_of_both (hboth.mp hreads)
      · exact (hboth.mpr hreads).natAbs_lt_of_both hreads

end Readings

/-! ## What is shown -/

section Shown

variable (parseFloat : ℕ → List Char → Except String (List UInt8))
  (formatFloat : ℕ → List UInt8 → String) {k : EditKind}

/-- What is shown of a value, by the radix of its kind. -/
inductive Shows (k : EditKind) (bytes : List UInt8) (value : String) : Prop
  | decimal : k.radix = 10 → value = renderInteger k.signed bytes → Shows k bytes value
  | hexadecimal (w : ℕ) : k.radix = 16 → k.signed = false → value = renderHex w bytes →
      Shows k bytes value

theorem Shows.reads {bytes : List UInt8} {value : String} (h : Shows k bytes value)
    (hne : bytes ≠ []) : Reads k.signed k.radix (editSeed value).toList
      (fromLeBytes k.signed bytes) := by
  cases h with
  | decimal hten hvalue =>
    subst hvalue
    have hreads : Reads k.signed 10 (display (fromLeBytes k.signed bytes))
        (fromLeBytes k.signed bytes) := by
      refine reads_display ?_
      have hrange := inRange_fromLeBytes k.signed hne
      cases hsigned : k.signed with
      | true => exact .inr rfl
      | false =>
        rw [hsigned] at hrange
        exact .inl hrange.1
    have hlist : (renderInteger k.signed bytes).toList = display (fromLeBytes k.signed bytes) :=
      String.toList_ofList
    rw [editSeed_plain (hlist ▸ plain_of_reads (by decide) hreads), hlist, hten]
    exact hreads
  | hexadecimal w hsixteen hunsigned hvalue =>
    subst hvalue
    have hlist : (renderHex w bytes).toList = '0' :: 'x' :: upperHexPadded w (leBytes bytes) :=
      String.toList_ofList
    have hvalue : fromLeBytes false bytes = leBytes bytes := if_neg (by simp)
    rw [editSeed_prefixed (.inl rfl) hlist, String.toList_ofList, hsixteen, hunsigned, hvalue]
    exact reads_upperHexPadded false w (leBytes bytes)

/-- A shown value, committed as it is, is written back. -/
theorem commitEdit_editSeed (hk : k ∈ editKinds) {bytes : List UInt8}
    (hbytes : bytes.length = k.width) {value : String} (h : Shows k bytes value)
    {σ : Type} (proc : Process σ) (addr : ℕ) (memory : σ) :
    commitEdit parseFloat proc addr k.typeTag (editSeed value) memory =
      proc.write addr bytes memory := by
  have hpos := EditKind.width_pos hk
  have hne : bytes ≠ [] := List.ne_nil_of_length_pos (by omega)
  have hle : k.radix ≤ 16 := by
    obtain h | ⟨h, -⟩ := EditKind.radix_eq hk <;> omega
  have hreads := h.reads hne
  have hrange := inRange_fromLeBytes k.signed hne
  have hback := toLeBytes_fromLeBytes k.signed bytes
  rw [hbytes] at hrange hback
  rw [commitEdit, writeParsed_eq parseFloat hk, String.toList_ofList, hreads.trim_eq,
    rawText_plain (plain_of_reads hle hreads),
    writeParse_eq_of_reads (EditKind.radix_pos hk) hreads hrange, hback]

theorem readBytes_length {buf bytes : List UInt8} {offset size : ℕ}
    (h : readBytes buf offset size = some bytes) : bytes.length = size := by
  obtain ⟨last, hlast, h⟩ := Option.bind_eq_some_iff.mp h
  obtain ⟨rfl, -⟩ := checkedAdd_eq_some.mp hlast
  obtain ⟨hle, hbytes⟩ := Option.ite_none_right_eq_some.mp h
  have hsome := Option.some_inj.mp hbytes
  rw [← hsome, List.length_take, List.length_drop]
  omega

/-- Only simple nodes and pointers are of a kind that is edited. -/
theorem typeTag_editKinds (hk : k ∈ editKinds) {node : Node} (hnode : node.typeTag = k.typeTag) :
    (∃ kind name comment, node = .simple kind name comment ∧ kind.typeTag = k.typeTag) ∨
      (∃ name comment target, node = .pointer name comment target) ∧ k.typeTag = "Pointer" := by
  have htag : k.typeTag ∈ editKinds.map EditKind.typeTag := List.mem_map_of_mem hk
  rw [← hnode] at htag
  have hvector (size : VectorSize) (width : FloatWidth) :
      vectorTag size.components width ∉ editKinds.map EditKind.typeTag := by
    cases size <;> cases width <;> decide
  have hmatrix (size : MatrixSize) (width : FloatWidth) :
      matrixTag size.rows size.cols width ∉ editKinds.map EditKind.typeTag := by
    cases size <;> cases width <;> decide
  cases node with
  | simple kind name comment => exact .inl ⟨kind, name, comment, rfl, hnode⟩
  | pointer name comment target => exact .inr ⟨⟨name, comment, target, rfl⟩, hnode.symm⟩
  | vector _ _ size width => exact absurd htag (hvector size width)
  | matrix _ _ size width => exact absurd htag (hmatrix size width)
  | _ => exact absurd htag (by simp [Node.typeTag, editKinds])

/-- The nodes of a kind show their bytes in the radix of the kind. -/
theorem renderValue_shows (hk : k ∈ editKinds) {node : Node} (hnode : node.typeTag = k.typeTag)
    {buf bytes : List UInt8} {offset : ℕ} (h : readBytes buf offset k.width = some bytes) :
    ∃ rendered, renderValue formatFloat node buf offset = some rendered ∧
      Shows k bytes rendered.value := by
  obtain ⟨kind, name, comment, rfl, htag⟩ | ⟨⟨name, comment, target, rfl⟩, htag⟩ :=
    typeTag_editKinds hk hnode
  · have hshown : kind.size = k.width ∧ Shows k bytes (renderSimple formatFloat kind name bytes) := by
      clear hnode h
      simp only [editKinds, List.mem_cons, List.not_mem_nil, or_false] at hk
      obtain rfl | rfl | rfl | rfl | rfl | rfl | rfl | rfl | rfl | rfl | rfl | rfl | rfl := hk <;>
        cases kind <;> first
        | exact absurd htag (by decide)
        | exact ⟨rfl, .decimal rfl (by rw [renderSimple])⟩
        | exact ⟨rfl, .hexadecimal _ rfl rfl rfl⟩
    rw [renderValue, hshown.1, h]
    exact ⟨_, rfl, hshown.2⟩
  · have hshown : k.width = 8 ∧ Shows k bytes (renderHex 12 bytes) := by
      simp only [editKinds, List.mem_cons, List.not_mem_nil, or_false] at hk
      obtain rfl | rfl | rfl | rfl | rfl | rfl | rfl | rfl | rfl | rfl | rfl | rfl | rfl := hk <;>
        first
        | exact absurd htag (by decide)
        | exact ⟨rfl, .hexadecimal 12 rfl rfl rfl⟩
    rw [renderValue, ← hshown.1, h]
    exact ⟨_, rfl, hshown.2⟩

end Shown

/-- Values are edited as they mean: what is shown is written back, and a text is read as it means
exactly if its prefix, if it has one, is one prefix of a number that is the same in the radix of the
kind. -/
theorem valueEdit_means (parseFloat : ℕ → List Char → Except String (List UInt8))
    (formatFloat : ℕ → List UInt8 → String) {k : EditKind} (hk : k ∈ editKinds) :
    (∀ (node : Node) (buf bytes : List UInt8) (offset : ℕ), node.typeTag = k.typeTag →
      readBytes buf offset k.width = some bytes →
      ∃ rendered, renderValue formatFloat node buf offset = some rendered ∧
        ∀ (σ : Type) (proc : Process σ) (addr : ℕ) (memory : σ),
          commitEdit parseFloat proc addr k.typeTag (editSeed rendered.value) memory =
            proc.write addr bytes memory) ∧
    ∀ text, WritesText parseFloat k text ↔ Unambiguous k text.toList := by
  refine ⟨fun node buf bytes offset hnode hread => ?_, fun text => ?_⟩
  · obtain ⟨rendered, hrendered, hshows⟩ := renderValue_shows formatFloat hk hnode hread
    refine ⟨rendered, hrendered, fun σ proc addr memory => ?_⟩
    exact commitEdit_editSeed parseFloat hk (readBytes_length hread) hshows proc addr memory
  · rw [writesText_iff parseFloat hk, unambiguous_iff hk]

/-- A word of two bytes. -/
theorem valueEdit_means_word :
    (∃ rendered, renderValue (fun _ _ => "") (.simple .hex16 "" "") [0xCD, 0xAB] 0 = some rendered ∧
      ∀ (σ : Type) (proc : Process σ) (addr : ℕ) (memory : σ),
        commitEdit (fun _ _ => .error "") proc addr "Hex16" (editSeed rendered.value) memory =
          proc.write addr [0xCD, 0xAB] memory) ∧
    WritesText (fun _ _ => .error "") ⟨"Hex16", false, 2, 16⟩ "0xABCD" := by
  obtain ⟨hshown, htexts⟩ := valueEdit_means (fun _ _ => .error "") (fun _ _ => "")
    (by decide : (⟨"Hex16", false, 2, 16⟩ : EditKind) ∈ editKinds)
  refine ⟨hshown (.simple .hex16 "" "") [0xCD, 0xAB] [0xCD, 0xAB] 0 rfl rfl, ?_⟩
  have hstripped : rawText "0xABCD".toList = ['A', 'B', 'C', 'D'] := rfl
  refine (htexts "0xABCD").mpr ⟨fun htext _ hmore => ?_, fun hten => ?_⟩
  · cases htext
    exact (hmore hstripped).elim
  · cases hten

/-- Of a decimal kind a prefix is stripped off and the digits after it are read as decimal. -/
theorem writeParsed_prefix :
    writeParsed (fun _ _ => .error "") recorder 0 "Int32" "0x10" [] = (.ok (), [[10, 0, 0, 0]]) ∧
      Means ⟨"Int32", true, 4, 10⟩ "0x10".toList 16 ∧
      ¬ WritesText (fun _ _ => .error "") ⟨"Int32", true, 4, 10⟩ "0x10" := by
  have hwritten : writeParsed (fun _ _ => .error "") recorder 0 "Int32" "0x10" [] =
      (.ok (), [[10, 0, 0, 0]]) := rfl
  have hmeans : Means ⟨"Int32", true, 4, 10⟩ "0x10".toList 16 :=
    .prefixed (.inl rfl) (.positive ⟨['1', '0'], by simp, .inl rfl, [1, 0], rfl, rfl⟩)
  refine ⟨hwritten, hmeans, fun h => ?_⟩
  have hspec := h.writes recorder 0 [] hmeans (by decide)
  rw [hwritten, recorder_write] at hspec
  exact absurd (congrArg Prod.snd hspec) (by decide)

end Nemclass.Ui
