import Nemclass.Symbols.Exports

/-! The content of a mapped image, and what the reads of the export parsers give on it. At each
address there is a byte, nothing, or a failure; a read takes the bytes up to the first address
without one, and answers as its first address does where that has none. -/
namespace Nemclass.Symbols
open Scan Usize Guarded

/-- What is at each address; past the address space every read fails. -/
structure Image where
  cell : ℕ → Except Error (Option UInt8)
  space : ∀ addr, usizeMax < addr → ∃ e, cell addr = .error e

/-- Nothing but some bytes at an address. -/
def Image.ofBytes (base : ℕ) (bytes : List UInt8) : Image where
  cell addr := if usizeMax < addr then .error .invalidAddress
    else .ok (if addr < base then none else bytes[addr - base]?)
  space _ h := ⟨.invalidAddress, if_pos h⟩

namespace Image
variable (img : Image)

/-- The bytes from an address on, at most `len`, up to the first address without one. -/
def run : (len addr : ℕ) → List UInt8
  | 0, _ => []
  | len + 1, addr =>
    match img.cell addr with
    | .ok (some b) => b :: run len (addr + 1)
    | _ => []

theorem length_run_le (len addr : ℕ) : (img.run len addr).length ≤ len := by
  induction len generalizing addr with
  | zero => exact Nat.le_refl 0
  | succ len ih =>
    rw [run]
    split
    · exact Nat.succ_le_succ (ih (addr + 1))
    · exact Nat.zero_le _

theorem cell_of_run_pos {len addr : ℕ} (h : 0 < (img.run len addr).length) :
    ∃ b, img.cell addr = .ok (some b) := by
  cases len with
  | zero => cases h
  | succ len =>
    rw [run] at h
    split at h
    · next b hb => exact ⟨b, hb⟩
    · cases h

/-- The reader of an image; reading changes nothing. -/
def reader (σ : Type) : Reader σ := fun s addr len =>
  match img.cell addr with
  | .error e => (.error e, s)
  | .ok _ => (.ok ⟨img.run len addr, img.length_run_le len addr⟩, s)

/-- Exactly `len` bytes, where they are all there. -/
def bytes (addr len : ℕ) : Option (List UInt8) :=
  if (img.run len addr).length = len then some (img.run len addr) else none

/-- The little-endian number of `width` bytes. -/
def uint (width addr : ℕ) : Option ℕ := (img.bytes addr width).map leBytes

/-- The bytes of a name: up to a zero byte, to the cap, or to where there is nothing more. -/
def nameBytes : (cap addr : ℕ) → Option (List UInt8)
  | 0, _ => some []
  | cap + 1, addr =>
    match img.cell addr with
    | .error _ => none
    | .ok none => some []
    | .ok (some b) => if b = 0 then some [] else (nameBytes cap (addr + 1)).map (b :: ·)

/-- The text at an address, where it is UTF-8. -/
def name (cap addr : ℕ) : Option String := (img.nameBytes cap addr).bind Utf8.decode

theorem bytes_past {addr len : ℕ} (hlen : 0 < len) (h : usizeMax < addr) :
    img.bytes addr len = none := by
  obtain ⟨e, he⟩ := img.space addr h
  cases len with
  | zero => cases hlen
  | succ len => rw [bytes, run, he, if_neg (by simp)]

theorem uint_past {addr width : ℕ} (hwidth : 0 < width) (h : usizeMax < addr) :
    img.uint width addr = none := by rw [uint, img.bytes_past hwidth h, Option.map_none]

theorem uint_lt {addr width v : ℕ} (h : img.uint width addr = some v) : v < 256 ^ width := by
  obtain ⟨bs, hbs, rfl⟩ := Option.map_eq_some_iff.mp h
  unfold bytes at hbs
  split at hbs
  · next hlen =>
    cases hbs
    have hlt := leBytes_lt (img.run width addr)
    rwa [hlen] at hlt
  · cases hbs

/-- A chunk of a name without a zero byte is followed by the rest; one with a zero byte ends it. -/
theorem nameBytes_run {want cap : ℕ} (hle : want ≤ cap) (addr : ℕ) : img.nameBytes cap addr =
      if 0 ∈ img.run want addr then some ((img.run want addr).takeWhile (· ≠ 0))
      else (img.nameBytes (cap - (img.run want addr).length)
        (addr + (img.run want addr).length)).map (img.run want addr ++ ·) := by
  induction want generalizing cap addr with
  | zero => simp [run]
  | succ want ih =>
    obtain ⟨cap, rfl⟩ : ∃ n, cap = n + 1 := ⟨cap - 1, by omega⟩
    rw [run]
    split
    · next b hcell =>
      rw [nameBytes, hcell]
      by_cases hb : b = 0
      · simp [hb]
      · have hne : (0 : UInt8) ≠ b := Ne.symm hb
        simp only [if_neg hb, ih (Nat.le_of_succ_le_succ hle) (addr + 1), List.mem_cons, hne,
          false_or, List.length_cons]
        split
        · simp [hb]
        · rw [Option.map_map, Nat.add_sub_add_right, Nat.add_right_comm, Nat.add_assoc addr]
          rfl
    · simp

theorem nameBytes_of_run_nil {want cap : ℕ} (hpos : 0 < want) (hle : want ≤ cap) {addr : ℕ}
    (hcell : ∀ e, img.cell addr ≠ .error e) (h : img.run want addr = []) :
    img.nameBytes cap addr = some [] := by
  obtain ⟨want, rfl⟩ : ∃ n, want = n + 1 := ⟨want - 1, by omega⟩
  obtain ⟨cap, rfl⟩ : ∃ n, cap = n + 1 := ⟨cap - 1, by omega⟩
  rw [nameBytes]
  rw [run] at h
  split at h
  · cases h
  · next hnone =>
    cases hc : img.cell addr with
    | error e => exact absurd hc (hcell e)
    | ok cell =>
      cases cell with
      | none => rfl
      | some b => exact absurd hc (hnone b)

theorem nameBytes_past {cap addr : ℕ} (hcap : 0 < cap) {e : Error} (h : img.cell addr = .error e) :
    img.nameBytes cap addr = none := by
  obtain ⟨cap, rfl⟩ : ∃ n, cap = n + 1 := ⟨cap - 1, by omega⟩
  rw [nameBytes, h]

theorem name_past {cap addr : ℕ} (hcap : 0 < cap) (h : usizeMax < addr) :
    img.name cap addr = none := by
  obtain ⟨e, he⟩ := img.space addr h
  rw [name, img.nameBytes_past hcap he, Option.bind_none]

/-- A zero-terminated text is at an address. -/
structure Text (addr : ℕ) (bs : List UInt8) : Prop where
  bytes : ∀ i (h : i < bs.length), img.cell (addr + i) = .ok (some bs[i])
  nonzero : 0 ∉ bs
  stop : img.cell (addr + bs.length) = .ok (some 0)

variable {img}

theorem Text.nameBytes {addr : ℕ} {bs : List UInt8} (h : img.Text addr bs) (cap : ℕ) :
    img.nameBytes cap addr = some (bs.take cap) := by
  induction bs generalizing addr cap with
  | nil =>
    cases cap with
    | zero => rfl
    | succ cap =>
      have hstop : img.cell addr = .ok (some 0) := h.stop
      rw [Image.nameBytes, hstop, List.take_nil]
      exact if_pos rfl
  | cons b bs ih =>
    cases cap with
    | zero => rfl
    | succ cap =>
      obtain ⟨hb, hnonzero⟩ := not_or.mp (List.mem_cons.not.mp h.nonzero)
      have hfirst : img.cell addr = .ok (some b) := h.bytes 0 (Nat.succ_pos _)
      have hrest : img.Text (addr + 1) bs := by
        refine ⟨fun i hi => ?_, hnonzero, ?_⟩
        · rw [Nat.add_assoc, Nat.add_comm 1]
          exact h.bytes (i + 1) (Nat.succ_lt_succ hi)
        · rw [Nat.add_assoc, Nat.add_comm 1]
          exact h.stop
      rw [Image.nameBytes, hfirst, List.take_succ_cons]
      simp only [if_neg (Ne.symm hb), ih hrest, Option.map_some]

theorem Text.name {addr cap : ℕ} {text : String} (h : img.Text addr (Utf8.bytes text))
    (hcap : (Utf8.bytes text).length ≤ cap) : img.name cap addr = some text := by
  rw [Image.name, h.nameBytes, List.take_of_length_le hcap, Option.bind_some, Utf8.decode_bytes]

theorem Text.le_usizeMax {addr : ℕ} {bs : List UInt8} (h : img.Text addr bs) : addr ≤ usizeMax := by
  by_contra hpast
  obtain ⟨e, he⟩ := img.space _ ((Nat.lt_of_not_le hpast).trans_le (Nat.le_add_right addr bs.length))
  rw [h.stop] at he
  cases he

/-- There is one text at an address. -/
theorem Text.unique {addr : ℕ} {bs cs : List UInt8} (hbs : img.Text addr bs)
    (hcs : img.Text addr cs) : bs = cs := by
  have htake := (hbs.nameBytes (max bs.length cs.length)).symm.trans (hcs.nameBytes _)
  rwa [List.take_of_length_le (le_max_left _ _), List.take_of_length_le (le_max_right _ _),
    Option.some_inj] at htake

end Image

section Reads
variable {σ : Type} (img : Image)

theorem computes_fail (e : Error) {α : Type} : Computes (fail e : Parser σ α) none :=
  .throw (Fault.error e)

theorem computes_noOverflow {n : ℕ} (h : n ≤ usizeMax) :
    Computes (noOverflow n : Parser σ Unit) (some ()) := by
  rw [noOverflow, if_pos h]
  exact .pure ()

/-- A sum that leaves the address space is a failure, which what follows has to be too. -/
theorem computes_add {α : Type} {base offset : ℕ} {f : ℕ → Parser σ α} {v : Option α}
    (hpast : usizeMax < base + offset → v = none)
    (h : base + offset ≤ usizeMax → Computes (f (base + offset)) v) :
    Computes (add base offset >>= f) v := by
  unfold add
  by_cases hle : base + offset ≤ usizeMax
  · rw [checkedAdd_of_le hle]
    have hbind := Computes.bind (v := some (base + offset)) (g := fun _ => v)
      (.pure (σ := σ) (ε := Fault) (base + offset)) fun a ha => (Option.some.inj ha) ▸ h hle
    exact hbind
  · have hnone : checkedAdd base offset = none := checked_eq_none.mpr (Nat.lt_of_not_le hle)
    rw [hnone, hpast (Nat.lt_of_not_le hle)]
    exact (computes_fail (α := ℕ) .invalidAddress).bind_none

theorem computes_fetch (addr len : ℕ) : Computes (fetch (img.reader σ) addr len)
    (match img.cell addr with
      | .error _ => none
      | .ok _ => some ⟨img.run len addr, img.length_run_le len addr⟩) := by
  cases hcell : img.cell addr with
  | error e =>
    have hread (s : σ) : img.reader σ s addr len = (.error e, s) := by rw [Image.reader, hcell]
    refine ⟨fun _ h => absurd h.symm (Option.some_ne_none _), fun _ s => ⟨.error e, ?_⟩⟩
    simp only [outcome, fetch, ExceptT.mk, StateT.run, ExceptT.run, hread]
  | ok cell =>
    have hread (s : σ) : img.reader σ s addr len =
        (.ok ⟨img.run len addr, img.length_run_le len addr⟩, s) := by rw [Image.reader, hcell]
    refine ⟨fun bytes h s => ?_, fun h => absurd h (Option.some_ne_none _)⟩
    simp only [outcome, fetch, ExceptT.mk, StateT.run, ExceptT.run, hread]
    exact congrArg Except.ok (Option.some.inj h)

theorem computes_readExact {addr len : ℕ} (hlen : 0 < len) {α : Type}
    {f : Transfer len → Parser σ α} {g : List UInt8 → Option α}
    (h : ∀ buf : Transfer len, img.bytes addr len = some buf.val → Computes (f buf) (g buf.val)) :
    Computes (readExact (img.reader σ) addr len >>= f) ((img.bytes addr len).bind g) := by
  by_cases hfull : (img.run len addr).length = len
  · have hbytes : img.bytes addr len = some (img.run len addr) := if_pos hfull
    have hexact : Computes (readExact (img.reader σ) addr len)
        (some ⟨img.run len addr, img.length_run_le len addr⟩) := by
      have hfetch := computes_fetch (σ := σ) img addr len
      obtain ⟨b, hb⟩ := img.cell_of_run_pos (hlen.trans_eq hfull.symm)
      rw [hb] at hfetch
      refine hfetch.bind (g := fun buf => some buf) fun buf hbuf => ?_
      rw [← Option.some.inj hbuf, if_pos hfull]
      exact .pure _
    rw [hbytes] at h ⊢
    refine hexact.bind (g := fun buf => g buf.val) fun buf hbuf => ?_
    rw [← Option.some.inj hbuf]
    exact h _ rfl
  · have hexact : Computes (readExact (img.reader σ) addr len) none := by
      have hvalue := (computes_fetch (σ := σ) img addr len).bind
        (f := fun buf => if buf.val.length = len then pure buf
          else fail (.partialTransfer len buf.val.length)) (g := fun _ => none) fun buf hbuf => by
            have hrun : buf.val = img.run len addr := by
              split at hbuf
              · cases hbuf
              · rw [← Option.some.inj hbuf]
            rw [hrun, if_neg hfull]
            exact computes_fail _
      rwa [Option.bind_fun_none] at hvalue
    rw [Image.bytes, if_neg hfull]
    exact hexact.bind (g := fun buf => g buf.val) nofun

/-- A number of a few bytes. -/
theorem computes_readUint {addr width : ℕ} (hwidth : 0 < width) :
    Computes (readUint (img.reader σ) width addr) (img.uint width addr) := by
  rw [Image.uint, Option.map_eq_bind]
  exact computes_readExact img hwidth fun buf _ => .pure (leBytes buf.val)

/-- A number read at a sum. -/
theorem computes_readAt {base offset width : ℕ} (hwidth : 0 < width) {α : Type}
    {f : ℕ → Parser σ α} {g : ℕ → Option α}
    (h : ∀ v, img.uint width (base + offset) = some v → Computes (f v) (g v)) :
    Computes (add base offset >>= fun addr => readUint (img.reader σ) width addr >>= f)
      ((img.uint width (base + offset)).bind g) := by
  refine computes_add (fun hpast => ?_) fun _ => (computes_readUint img hwidth).bind h
  rw [img.uint_past hwidth hpast, Option.bind_none]

section Known
variable {addr base offset len width : ℕ} {α : Type} {v : Option α}

theorem computes_exact {bs : List UInt8} (hlen : 0 < len) (hread : img.bytes addr len = some bs)
    {f : Transfer len → Parser σ α} (h : ∀ buf : Transfer len, buf.val = bs → Computes (f buf) v) :
    Computes (readExact (img.reader σ) addr len >>= f) v := by
  have hvalue := computes_readExact img hlen (f := f) (g := fun _ => v) fun buf hbuf =>
    h buf (Option.some.inj (hbuf.symm.trans hread))
  rwa [hread] at hvalue

theorem computes_known {n : ℕ} (hwidth : 0 < width) (hread : img.uint width addr = some n)
    {f : ℕ → Parser σ α} (h : Computes (f n) v) :
    Computes (readUint (img.reader σ) width addr >>= f) v := by
  have hvalue := (computes_readUint (σ := σ) img hwidth).bind (f := f) (g := fun _ => v)
    fun m hm => (Option.some.inj (hread.symm.trans hm)) ▸ h
  rwa [hread] at hvalue

theorem computes_unreadable (hwidth : 0 < width) (hread : img.uint width addr = none)
    {f : ℕ → Parser σ α} : Computes (readUint (img.reader σ) width addr >>= f) none := by
  have hvalue : Computes (readUint (img.reader σ) width addr) (img.uint width addr) :=
    computes_readUint img hwidth
  rw [hread] at hvalue
  exact hvalue.bind_none

theorem le_of_uint {n : ℕ} (hwidth : 0 < width) (hread : img.uint width addr = some n) :
    addr ≤ usizeMax := by
  by_contra hpast
  rw [img.uint_past hwidth (Nat.lt_of_not_le hpast)] at hread
  cases hread

theorem computes_add_of_le (hle : base + offset ≤ usizeMax) {f : ℕ → Parser σ α}
    (h : Computes (f (base + offset)) v) : Computes (add base offset >>= f) v :=
  computes_add (fun hpast => absurd hle (Nat.not_le_of_lt hpast)) fun _ => h

theorem computes_knownAt {n : ℕ} (hwidth : 0 < width)
    (hread : img.uint width (base + offset) = some n) {f : ℕ → Parser σ α} (h : Computes (f n) v) :
    Computes (add base offset >>= fun addr => readUint (img.reader σ) width addr >>= f) v :=
  computes_add_of_le (le_of_uint img hwidth hread) (computes_known img hwidth hread h)

/-- An entry of a table, whose offset fits where its address does. -/
theorem computes_entryAt {n : ℕ} (hwidth : 0 < width)
    (hread : img.uint width (base + offset) = some n) {f : ℕ → ℕ → Parser σ α}
    (h : Computes (f (base + offset) n) v) :
    Computes (noOverflow offset >>= fun _ => add base offset >>= fun addr =>
      readUint (img.reader σ) width addr >>= f addr) v := by
  have hle := le_of_uint img hwidth hread
  have hoffset : offset ≤ usizeMax := (Nat.le_add_left offset base).trans hle
  refine (computes_noOverflow hoffset).bind (g := fun _ => v) fun _ _ => ?_
  exact computes_add_of_le hle (computes_known img hwidth hread h)

end Known

theorem computes_fromUtf8 (out : List UInt8) :
    Computes (fromUtf8 out : Parser σ String) (Utf8.decode out) := by
  unfold fromUtf8
  cases Utf8.decode out with
  | none => exact computes_fail .invalidString
  | some text => exact .pure text

/-- A name is read chunk after chunk, each of which continues what has been read before it. -/
theorem computes_readCstr (addr : ℕ) {offset : ℕ} {out : List UInt8} (hoffset : offset = out.length) :
    Computes (readCstr (img.reader σ) addr offset out)
      (((img.nameBytes (maxName - out.length) (addr + out.length)).map (out ++ ·)).bind
        Utf8.decode) := by
  rw [readCstr]
  by_cases hroom : out.length < maxName
  · rw [if_pos hroom, ← hoffset]
    have hcap : 0 < maxName - offset := by omega
    generalize hwant : min nameChunk (maxName - offset) = want
    have hpos : 0 < want := by rw [← hwant]; exact lt_min (by decide) hcap
    have hle : want ≤ maxName - offset := by rw [← hwant]; exact min_le_right _ _
    have hunder : Computes (noUnderflow maxName offset : Parser σ Unit) (some ()) := by
      rw [noUnderflow, if_pos (by omega)]
      exact .pure ()
    refine hunder.bind (g := fun _ => _) fun _ _ => computes_add (fun hpast => ?_) fun _ => ?_
    · obtain ⟨e, he⟩ := img.space _ hpast
      rw [img.nameBytes_past hcap he]
      rfl
    have hfetch := computes_fetch (σ := σ) img (addr + offset) want
    cases hcell : img.cell (addr + offset) with
    | error e =>
      rw [hcell] at hfetch
      rw [img.nameBytes_past hcap hcell]
      exact hfetch.bind_none
    | ok cell =>
      rw [hcell] at hfetch
      refine hfetch.bind (g := fun _ => _) fun got hgot => ?_
      obtain rfl := Option.some.inj hgot
      dsimp only
      split_ifs with hempty hzero
      · rw [img.nameBytes_of_run_nil hpos hle (fun e he => by rw [hcell] at he; cases he) hempty]
        simpa using computes_fromUtf8 (σ := σ) out
      · rw [img.nameBytes_run hle, if_pos hzero]
        exact computes_fromUtf8 (σ := σ) _
      · have hgrow := List.length_pos_iff.mpr hempty
        have hshort := img.length_run_le want (addr + offset)
        have hmax : maxName ≤ usizeMax := by decide
        have hlength : offset + (img.run want (addr + offset)).length =
            (out ++ img.run want (addr + offset)).length := by rw [List.length_append, hoffset]
        have hnext := computes_readCstr addr hlength
        rw [← hlength, ← Nat.sub_sub, ← Nat.add_assoc] at hnext
        have happend : (out ++ ·) ∘ (img.run want (addr + offset) ++ ·) =
            (out ++ img.run want (addr + offset) ++ ·) :=
          funext fun _ => (List.append_assoc _ _ _).symm
        rw [img.nameBytes_run hle, if_neg hzero, Option.map_map, happend]
        exact (computes_noOverflow (by omega)).bind (g := fun _ => _) fun _ _ => hnext
  · rw [if_neg hroom, Nat.sub_eq_zero_of_le (Nat.le_of_not_lt hroom), Image.nameBytes]
    simpa using computes_fromUtf8 (σ := σ) out
termination_by maxName - out.length
decreasing_by
  rw [List.length_append]
  omega

theorem computes_name (addr : ℕ) :
    Computes (readCstr (img.reader σ) addr 0 []) (img.name maxName addr) := by
  have hname := computes_readCstr (σ := σ) img addr (List.length_nil (α := UInt8)).symm
  simpa only [Image.name, List.length_nil, Nat.sub_zero, Nat.add_zero, List.nil_append,
    Option.map_id'] using hname

/-- A check before the rest. -/
theorem computes_check {bad good : Prop} [Decidable bad] [Decidable good] (hbad : bad ↔ ¬ good)
    (e : Error) {α : Type} {m : Parser σ α} {v : Unit → Option α} (h : good → Computes m (v ())) :
    Computes (if bad then fail e else m) (guard good >>= v) := by
  by_cases hgood : good
  · rw [if_neg fun hb => hbad.mp hb hgood, guard, if_pos hgood]
    exact h hgood
  · rw [if_pos (hbad.mpr hgood), guard, if_neg hgood]
    exact computes_fail e

end Reads

end Nemclass.Symbols
