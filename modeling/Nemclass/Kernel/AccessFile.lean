import Nemclass.Kernel.Text
import Nemclass.Lib.Capped

/-! The access list: what the module makes of the configuration file's content, and what
the lines of the file say. An id is a 32-bit number, of which the last is no id. -/
namespace Nemclass.Kernel
open Capped

def aclFileMax : ℕ := 16 * 1024

def aclMaxEntry : ℕ := 256

def invalidId : ℕ := 2 ^ 32 - 1

/-- `nemclass_acl`: the ids that are let in. -/
structure Acl where
  uids : List ℕ
  gids : List ℕ
deriving DecidableEq, Repr

inductive IdKind where
  | uid
  | gid
deriving DecidableEq, Repr

/-- `uid` and `gid`. -/
def IdKind.keyword : IdKind → List UInt8
  | .uid => [0x75, 0x69, 0x64]
  | .gid => [0x67, 0x69, 0x64]

def Acl.ids (a : Acl) : IdKind → List ℕ
  | .uid => a.uids
  | .gid => a.gids

/-- The line up to a `#`. -/
def stripComment (line : List UInt8) : List UInt8 := line.takeWhile (· ≠ 0x23)

/-- The keyword of a line and the text behind it. -/
def lineFields (line : List UInt8) : Option (List UInt8 × List UInt8) :=
  (splitBlank (strim (stripComment line))).map fun (kw, val) => (kw, skipSpaces val)

/-- `make_kuid` and `make_kgid` in the initial namespace take 32 bits, and keep all but the last. -/
def makeId (num : ℕ) : Option ℕ := if num % 2 ^ 32 = invalidId then none else some (num % 2 ^ 32)

/-- Adds an id, unless the list is full. -/
def pushId (ids : List ℕ) (id : ℕ) : List ℕ := if ids.length < aclMaxEntry then ids ++ [id] else ids

/-- `nemclass_acl_parse_line`: malformed lines are skipped. -/
def parseLine (a : Acl) (line : List UInt8) : Acl :=
  match lineFields line with
  | none => a
  | some (kw, val) =>
    match kstrtoul val with
    | none => a
    | some num =>
      if kw = IdKind.uid.keyword then
        match makeId num with
        | none => a
        | some k => { a with uids := pushId a.uids k }
      else if kw = IdKind.gid.keyword then
        match makeId num with
        | none => a
        | some k => { a with gids := pushId a.gids k }
      else a

/-- `nemclass_acl_build`: one line after another of the buffer, as a C string. -/
def buildAcl (buf : List UInt8) : Acl := ((cstr buf).splitOn 0x0A).foldl parseLine ⟨[], []⟩

/-- What a reload publishes from a file's content: of a long file, the first bytes are read. -/
def snapshot (content : List UInt8) : Acl := buildAcl (content.take aclFileMax)

section Lines

/-- The lines that the parser sees, the last of them perhaps cut. -/
def readLines (content : List UInt8) : List (List UInt8) :=
  (cstr (content.take aclFileMax)).splitOn 0x0A

/-- A line says `n` of a kind: before any comment and between blanks there are the keyword, blanks
and a number, whose exact value is `n`, and which is an id. -/
def Says (kind : IdKind) (line : List UInt8) (n : ℕ) : Prop :=
  ∃ lead blank blanks number trail,
    stripComment line = lead ++ (kind.keyword ++ blank :: (blanks ++ number)) ++ trail ∧
      (∀ c ∈ lead, isSpace c = true) ∧ isBlank blank = true ∧ (∀ c ∈ blanks, isSpace c = true) ∧
      (∀ c ∈ number.head?, isSpace c = false) ∧ (∀ c ∈ number.getLast?, isSpace c = false) ∧
      (∀ c ∈ trail, isSpace c = true) ∧ parseNumber number = some n ∧ n < invalidId

/-- The id that a line says, exactly. -/
def lineId (kind : IdKind) (line : List UInt8) : Option ℕ :=
  match lineFields line with
  | none => none
  | some (kw, val) => if kw = kind.keyword then (parseNumber val).filter (· < invalidId) else none

/-- The id that the parser takes a line for. -/
def parsedId (kind : IdKind) (line : List UInt8) : Option ℕ :=
  match lineFields line with
  | none => none
  | some (kw, val) => if kw = kind.keyword then (kstrtoul val).bind makeId else none

/-- The line's number is too large for an id, so that it is cut to one. -/
def Wide (kind : IdKind) (line : List UInt8) : Prop :=
  ∃ val n, lineFields line = some (kind.keyword, val) ∧ parseNumber val = some n ∧ 2 ^ 32 ≤ n

variable {kind : IdKind} {line : List UInt8} {n : ℕ}

theorem splitBlank_eq_some {s kw rest : List UInt8} (h : splitBlank s = some (kw, rest)) :
    ∃ blank, s = kw ++ blank :: rest ∧ isBlank blank = true := by
  unfold splitBlank at h
  cases hdrop : s.dropWhile (!isBlank ·) with
  | nil =>
    rw [hdrop] at h
    cases h
  | cons blank rest' =>
    rw [hdrop] at h
    cases h
    have hnot := List.head?_dropWhile_not (!isBlank ·) s
    rw [hdrop] at hnot
    refine ⟨blank, ?_, by simpa using hnot⟩
    rw [← hdrop, List.takeWhile_append_dropWhile]

theorem splitBlank_append {kw : List UInt8} {blank : UInt8} (rest : List UInt8)
    (hkw : ∀ c ∈ kw, isBlank c = false) (hblank : isBlank blank = true) :
    splitBlank (kw ++ blank :: rest) = some (kw, rest) := by
  have hpos : ∀ c ∈ kw, (!isBlank c) = true := fun c hc => by simp [hkw c hc]
  rw [splitBlank, List.dropWhile_append_of_pos hpos, List.takeWhile_append_of_pos hpos,
    List.dropWhile_cons_of_neg (by simp [hblank]), List.takeWhile_cons_of_neg (by simp [hblank]),
    List.append_nil]

/-- How a line with a keyword and something behind it is made up. -/
theorem lineFields_eq_some {kw val : List UInt8} (h : lineFields line = some (kw, val))
    (hne : val ≠ []) : ∃ lead blank blanks trail,
      stripComment line = lead ++ (kw ++ blank :: (blanks ++ val)) ++ trail ∧
        (∀ c ∈ lead, isSpace c = true) ∧ isBlank blank = true ∧
        (∀ c ∈ blanks, isSpace c = true) ∧ (∀ c ∈ val.head?, isSpace c = false) ∧
        (∀ c ∈ val.getLast?, isSpace c = false) ∧ ∀ c ∈ trail, isSpace c = true := by
  obtain ⟨⟨kw', rest⟩, hsplit, hfields⟩ := Option.map_eq_some_iff.mp h
  cases hfields
  obtain ⟨blank, htrim, hblank⟩ := splitBlank_eq_some hsplit
  obtain ⟨lead, trail, hline, hlead, htrail⟩ := exists_strim (stripComment line)
  have hrest : rest = rest.takeWhile isSpace ++ skipSpaces rest :=
    (List.takeWhile_append_dropWhile).symm
  have hwhole : strim (stripComment line) =
      (kw ++ blank :: rest.takeWhile isSpace) ++ skipSpaces rest := by
    rw [htrim, List.append_assoc, List.cons_append, ← hrest]
  refine ⟨lead, blank, rest.takeWhile isSpace, trail, ?_, hlead, hblank,
    fun c hc => List.mem_takeWhile_imp hc, head_skipSpaces rest, fun c hc => ?_, htrail⟩
  · rw [← hrest, ← htrim]
    exact hline
  · refine last_strim (stripComment line) c ?_
    rw [hwhole, List.getLast?_append_of_ne_nil _ hne]
    exact hc

/-- Such a line is read as it is made up. -/
theorem lineFields_append {kind : IdKind} {lead blanks number trail : List UInt8} {blank : UInt8}
    (hline : stripComment line = lead ++ (kind.keyword ++ blank :: (blanks ++ number)) ++ trail)
    (hlead : ∀ c ∈ lead, isSpace c = true) (hblank : isBlank blank = true)
    (hblanks : ∀ c ∈ blanks, isSpace c = true) (hhead : ∀ c ∈ number.head?, isSpace c = false)
    (hlast : ∀ c ∈ number.getLast?, isSpace c = false) (htrail : ∀ c ∈ trail, isSpace c = true)
    (hne : number ≠ []) : lineFields line = some (kind.keyword, number) := by
  have hkw : ∀ c ∈ kind.keyword, isBlank c = false := by
    have hall : kind.keyword.all (!isBlank ·) = true := by cases kind <;> rfl
    exact fun c hc => by simpa using List.all_eq_true.mp hall c hc
  have hfirst : ∀ c ∈ (kind.keyword ++ blank :: (blanks ++ number)).head?, isSpace c = false := by
    cases kind <;> exact fun c hc => by cases hc; rfl
  have hend : ∀ c ∈ (kind.keyword ++ blank :: (blanks ++ number)).getLast?, isSpace c = false := by
    rw [← List.cons_append, ← List.append_assoc, List.getLast?_append_of_ne_nil _ hne]
    exact hlast
  rw [lineFields, hline, strim_append hlead htrail hfirst hend (by simp),
    splitBlank_append _ hkw hblank, Option.map_some]
  dsimp only
  rw [skipSpaces_append hblanks hhead]

/-- What a line says, its fields tell. -/
theorem says_iff : Says kind line n ↔ lineId kind line = some n := by
  constructor
  · rintro ⟨lead, blank, blanks, number, trail, hline, hlead, hblank, hblanks, hhead, hlast, htrail,
      hnumber, hn⟩
    have hne : number ≠ [] := by
      rintro rfl
      rw [parseNumber_nil] at hnumber
      cases hnumber
    rw [lineId, lineFields_append hline hlead hblank hblanks hhead hlast htrail hne]
    simp [hnumber, hn]
  · intro h
    unfold lineId at h
    cases hfields : lineFields line with
    | none =>
      rw [hfields] at h
      cases h
    | some fields =>
      obtain ⟨kw, val⟩ := fields
      rw [hfields] at h
      dsimp only at h
      split_ifs at h with hkw
      obtain ⟨hnumber, hn⟩ := Option.filter_eq_some_iff.mp h
      have hne : val ≠ [] := by
        rintro rfl
        rw [parseNumber_nil] at hnumber
        cases hnumber
      obtain ⟨lead, blank, blanks, trail, hline, hlead, hblank, hblanks, hhead, hlast, htrail⟩ :=
        lineFields_eq_some hfields hne
      exact ⟨lead, blank, blanks, val, trail, hkw ▸ hline, hlead, hblank, hblanks, hhead, hlast,
        htrail, hnumber, by simpa using hn⟩

/-- The parser takes a line that says an id for that id. -/
theorem parsedId_of_proper (h : Says kind line n) : parsedId kind line = some n := by
  have hid := says_iff.mp h
  unfold lineId at hid
  cases hfields : lineFields line with
  | none =>
    rw [hfields] at hid
    cases hid
  | some fields =>
    obtain ⟨kw, val⟩ := fields
    rw [hfields] at hid
    dsimp only at hid
    split_ifs at hid with hkw
    obtain ⟨hnumber, hn⟩ := Option.filter_eq_some_iff.mp hid
    have hn : n < invalidId := by simpa using hn
    have hfits : n < 2 ^ 64 := hn.trans (by decide)
    have hmod : n % 2 ^ 32 = n := Nat.mod_eq_of_lt (hn.trans (by decide))
    have hlong : kstrtoul val = some n := by
      rw [kstrtoul, hnumber, Option.filter_some]
      exact if_pos (decide_eq_true hfits)
    have hid : makeId n = some n := by
      rw [makeId, hmod]
      exact if_neg hn.ne
    rw [parsedId, hfields]
    dsimp only
    rw [if_pos hkw, hlong, Option.bind_some, hid]

/-- What the parser takes a line for, the line says, unless its number is cut. -/
theorem proper_of_parsedId (h : parsedId kind line = some n) (hwide : ¬ Wide kind line) :
    Says kind line n := by
  rw [says_iff]
  unfold parsedId at h
  unfold lineId
  cases hfields : lineFields line with
  | none =>
    rw [hfields] at h
    cases h
  | some fields =>
    obtain ⟨kw, val⟩ := fields
    rw [hfields] at h
    dsimp only at h ⊢
    split_ifs at h with hkw
    obtain ⟨num, hkstrtoul, hid⟩ := Option.bind_eq_some_iff.mp h
    obtain ⟨hparse, -⟩ := Option.filter_eq_some_iff.mp hkstrtoul
    have hlt : num < 2 ^ 32 := by
      by_contra hge
      exact hwide ⟨val, num, hkw ▸ hfields, hparse, by omega⟩
    have hmod : num % 2 ^ 32 = num := Nat.mod_eq_of_lt hlt
    unfold makeId at hid
    rw [hmod] at hid
    split_ifs at hid with hinvalid
    have hnum : num = n := Option.some.inj hid
    subst hnum
    have hvalid : num < invalidId := by
      unfold invalidId at hinvalid ⊢
      omega
    rw [if_pos hkw, hparse, Option.filter_some, if_pos (by simpa using hvalid)]

end Lines

section Build
variable {kind : IdKind}

theorem ids_parseLine (kind : IdKind) (a : Acl) (line : List UInt8) : (parseLine a line).ids kind =
    match parsedId kind line with
    | none => a.ids kind
    | some k => pushId (a.ids kind) k := by
  have hdistinct : IdKind.uid.keyword ≠ IdKind.gid.keyword := by decide
  unfold parseLine parsedId
  cases lineFields line with
  | none => rfl
  | some fields =>
    obtain ⟨kw, val⟩ := fields
    cases hnumber : kstrtoul val with
    | none => cases kind <;> simp [hnumber]
    | some num =>
      cases kind with
      | uid =>
        by_cases hkw : kw = IdKind.uid.keyword
        · cases hk : makeId num <;> simp [hnumber, hkw, hk, Acl.ids]
        · by_cases hgid : kw = IdKind.gid.keyword
          · cases hk : makeId num <;> simp [hnumber, hgid, hk, Acl.ids, hdistinct.symm]
          · simp [hnumber, hkw, hgid, Acl.ids]
      | gid =>
        by_cases hkw : kw = IdKind.uid.keyword
        · cases hk : makeId num <;> simp [hnumber, hkw, hk, Acl.ids, hdistinct]
        · by_cases hgid : kw = IdKind.gid.keyword
          · cases hk : makeId num <;> simp [hnumber, hgid, hk, Acl.ids, hdistinct.symm]
          · simp [hnumber, hkw, hgid, Acl.ids]

theorem pushId_eq (ids : List ℕ) (k : ℕ) (h : ids.length ≤ aclMaxEntry) :
    pushId ids k = offer aclMaxEntry ids [k] := by
  unfold pushId
  split_ifs with hroom
  · rw [offer_of_le (by rw [List.length_singleton]; omega)]
  · rw [offer_full (by omega)]

/-- The list holds the first ids that the lines are taken for. -/
theorem ids_foldl_parseLine (lines : List (List UInt8)) (a : Acl)
    (ha : (a.ids kind).length ≤ aclMaxEntry) : (lines.foldl parseLine a).ids kind =
      offer aclMaxEntry (a.ids kind) (lines.filterMap (parsedId kind)) := by
  induction lines generalizing a with
  | nil => rw [List.foldl_nil, List.filterMap_nil, offer_nil ha]
  | cons line lines ih =>
    have hstep := ids_parseLine kind a line
    cases hid : parsedId kind line with
    | none =>
      rw [hid] at hstep
      dsimp only at hstep
      rw [List.foldl_cons, ih _ (by rwa [hstep]), hstep, List.filterMap_cons_none hid]
    | some k =>
      rw [hid] at hstep
      dsimp only at hstep
      have hlen : ((parseLine a line).ids kind).length ≤ aclMaxEntry := by
        rw [hstep, pushId_eq _ _ ha, length_offer]
        exact min_le_left _ _
      rw [List.foldl_cons, ih _ hlen, hstep, pushId_eq _ _ ha, offer_offer,
        List.filterMap_cons_some hid, List.singleton_append]

theorem ids_snapshot (content : List UInt8) : (snapshot content).ids kind =
    ((readLines content).filterMap (parsedId kind)).take aclMaxEntry := by
  have hnil : (⟨[], []⟩ : Acl).ids kind = [] := by cases kind <;> rfl
  have h := ids_foldl_parseLine (readLines content) ⟨[], []⟩
    (show (_ : List ℕ).length ≤ aclMaxEntry by rw [hnil]; exact Nat.zero_le aclMaxEntry)
  rw [hnil, offer, List.nil_append] at h
  exact h

end Build

end Nemclass.Kernel
