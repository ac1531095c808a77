import Nemclass.Kernel.AccessFile

/-! What the access list grants against what the file's lines say: the ids of the first complete
lines, where no number is cut to 32 bits and no line is cut by the end of what is read. -/
namespace Nemclass.Kernel

/-- The file's lines. -/
def fileLines (content : List UInt8) : List (List UInt8) := content.splitOn 0x0A

/-- The file's lines that end, at a newline or with the file, within what is read of it. -/
def completeLines (content : List UInt8) : List (List UInt8) :=
  (((content ++ [0x0A]).take (aclFileMax + 1)).splitOn 0x0A).dropLast

section Cut

theorem splitOn_cons (a c : UInt8) (s : List UInt8) : (c :: s).splitOn a =
    if c == a then [] :: s.splitOn a else (s.splitOn a).modifyHead (List.cons c) :=
  List.splitOnP_cons_eq_if_modifyHead c s

/-- A text behind the lines adds to the last of them. -/
theorem exists_splitOn_append (a : UInt8) (s : List UInt8) : ∃ whole last,
    s.splitOn a = whole ++ [last] ∧ ∀ r, (s ++ r).splitOn a = whole ++ (last ++ r).splitOn a := by
  induction s with
  | nil => exact ⟨[], [], rfl, fun r => rfl⟩
  | cons c s ih =>
    obtain ⟨whole, last, hs, happ⟩ := ih
    cases hc : c == a with
    | true =>
      refine ⟨[] :: whole, last, ?_, fun r => ?_⟩
      · rw [splitOn_cons, hc, if_pos rfl, hs, List.cons_append]
      · rw [List.cons_append, splitOn_cons, hc, if_pos rfl, happ, List.cons_append]
    | false =>
      cases whole with
      | nil =>
        refine ⟨[], c :: last, ?_, fun r => ?_⟩
        · rw [splitOn_cons, hc, hs]
          rfl
        · rw [List.cons_append, splitOn_cons, hc, happ, List.nil_append, List.nil_append,
            List.cons_append, splitOn_cons, hc]
      | cons first whole =>
        refine ⟨(c :: first) :: whole, last, ?_, fun r => ?_⟩
        · rw [splitOn_cons, hc, hs]
          rfl
        · rw [List.cons_append, splitOn_cons, hc, happ]
          rfl

theorem splitOn_concat (a : UInt8) (s : List UInt8) :
    (s ++ [a]).splitOn a = s.splitOn a ++ [[]] := by
  induction s with
  | nil => simp [splitOn_cons]
  | cons c s ih =>
    rw [List.cons_append, splitOn_cons, splitOn_cons, ih]
    split_ifs with hc
    · rw [List.cons_append]
    · cases hs : s.splitOn a with
      | nil => exact absurd hs (List.splitOnP_ne_nil _ _)
      | cons first rest => rfl

variable (content : List UInt8)

/-- The complete lines are the file's first ones. -/
theorem completeLines_isPrefix : completeLines content <+: fileLines content := by
  unfold completeLines fileLines
  by_cases hlen : content.length ≤ aclFileMax
  · have hwhole : (content ++ [0x0A]).take (aclFileMax + 1) = content ++ [0x0A] :=
      List.take_of_length_le (by simpa using hlen)
    exact ⟨[], by rw [List.append_nil, hwhole, splitOn_concat, List.dropLast_concat]⟩
  · rw [List.take_append_of_le_length (by omega)]
    obtain ⟨whole, last, hwhole, happ⟩ := exists_splitOn_append 0x0A (content.take (aclFileMax + 1))
    have hsplit := happ (content.drop (aclFileMax + 1))
    rw [List.take_append_drop] at hsplit
    rw [hwhole, List.dropLast_concat, hsplit]
    exact List.prefix_append _ _

/-- Of the lines that the parser sees, all but the last are complete. -/
theorem exists_readLines : ∃ whole last,
    readLines content = whole ++ [last] ∧ whole <+: completeLines content := by
  have hcstr : cstr (content.take aclFileMax) <+: content.take aclFileMax :=
    List.takeWhile_prefix _
  have hread : cstr (content.take aclFileMax) <+: (content ++ [0x0A]).take (aclFileMax + 1) := by
    refine List.prefix_take_iff.mpr ⟨?_, ?_⟩
    · exact (hcstr.trans (List.take_prefix _ _)).trans (List.prefix_append _ _)
    · exact hcstr.length_le.trans ((List.length_take_le _ _).trans (Nat.le_succ _))
  obtain ⟨more, hmore⟩ := hread
  obtain ⟨whole, last, hwhole, happ⟩ :=
    exists_splitOn_append 0x0A (cstr (content.take aclFileMax))
  refine ⟨whole, last, hwhole, ?_⟩
  unfold completeLines
  have hne : (last ++ more).splitOn 0x0A ≠ [] := List.splitOnP_ne_nil _ _
  rw [← hmore, happ, List.dropLast_append_of_ne_nil hne]
  exact List.prefix_append _ _

/-- A file that fits and has no zero byte is read line by line. -/
theorem readLines_eq (hlen : content.length ≤ aclFileMax) (hzero : 0 ∉ content) :
    readLines content = fileLines content ∧ completeLines content = fileLines content := by
  constructor
  · have hcstr : cstr content = content := by
      refine List.takeWhile_eq_self_iff.mpr fun c hc => ?_
      have hne : c ≠ 0 := fun h => hzero (h ▸ hc)
      simpa using hne
    rw [readLines, List.take_of_length_le hlen, hcstr]
    rfl
  · rw [completeLines, List.take_of_length_le (by simpa using hlen), splitOn_concat,
      List.dropLast_concat]
    rfl

end Cut

section Exactness

instance (kind : IdKind) (line : List UInt8) (n : ℕ) : Decidable (Says kind line n) :=
  decidable_of_iff (lineId kind line = some n) says_iff.symm

instance (kind : IdKind) (line : List UInt8) : Decidable (∃ n, Says kind line n) :=
  decidable_of_iff ((lineId kind line).isSome = true) (by simp [Option.isSome_iff_exists, says_iff])

/-- The file's first complete lines that say an id of a kind. -/
def properLines (kind : IdKind) (content : List UInt8) : List (List UInt8) :=
  ((completeLines content).filter fun line => ∃ n, Says kind line n).take aclMaxEntry

/-- The first of the lines that the parser sees which it takes for an id of a kind. -/
def takenLines (kind : IdKind) (content : List UInt8) : List (List UInt8) :=
  ((readLines content).filter fun line => (parsedId kind line).isSome).take aclMaxEntry

/-- Where the parser takes other lines than those that say an id, this makes no difference: what
it takes too much is said by another line, and what it misses is taken from another line. -/
def Harmless (kind : IdKind) (content : List UInt8) : Prop :=
  (∀ line ∈ takenLines kind content, line ∉ properLines kind content →
    ∃ line' ∈ properLines kind content, ∃ n, Says kind line' n ∧ parsedId kind line = some n) ∧
  ∀ line ∈ properLines kind content, line ∉ takenLines kind content →
    ∃ line' ∈ takenLines kind content, ∃ n, Says kind line n ∧ parsedId kind line' = some n

variable {kind : IdKind} {content : List UInt8} {n : ℕ}

/-- The first results of a partial function are those of the first elements that have one. -/
theorem take_filterMap {α β : Type*} (f : α → Option β) (k : ℕ) (xs : List α) :
    (xs.filterMap f).take k = ((xs.filter fun x => (f x).isSome).take k).filterMap f := by
  induction xs generalizing k with
  | nil => simp
  | cons x xs ih =>
    cases hx : f x with
    | none => rw [List.filterMap_cons_none hx, List.filter_cons_of_neg (by simp [hx]), ih]
    | some y =>
      rw [List.filterMap_cons_some hx, List.filter_cons_of_pos (by simp [hx])]
      cases k with
      | zero => rfl
      | succ k =>
        rw [List.take_succ_cons, List.take_succ_cons, ih, List.filterMap_cons_some hx]

theorem mem_ids_snapshot : n ∈ (snapshot content).ids kind ↔
    ∃ line ∈ takenLines kind content, parsedId kind line = some n := by
  rw [ids_snapshot, take_filterMap, List.mem_filterMap]
  rfl

theorem parsedId_of_mem_takenLines {line : List UInt8} (h : line ∈ takenLines kind content) :
    ∃ n, parsedId kind line = some n :=
  Option.isSome_iff_exists.mp (List.mem_filter.mp (List.mem_of_mem_take h)).2

theorem exists_of_mem_properLines {line : List UInt8} (h : line ∈ properLines kind content) :
    ∃ n, Says kind line n := by
  simpa using (List.mem_filter.mp (List.mem_of_mem_take h)).2

/-- What stands among the first that meet a condition stands so with a stronger one it meets. -/
theorem mem_take_filter {α : Type*} {p q : α → Bool} (hpq : ∀ x, p x = true → q x = true)
    {x : α} (hx : p x = true) {k : ℕ} {xs : List α} (h : x ∈ (xs.filter q).take k) :
    x ∈ (xs.filter p).take k := by
  induction xs generalizing k with
  | nil => exact h
  | cons y ys ih =>
    by_cases hq : q y = true
    · rw [List.filter_cons_of_pos hq] at h
      cases k with
      | zero => exact absurd h List.not_mem_nil
      | succ k =>
        rw [List.take_succ_cons] at h
        rcases List.mem_cons.mp h with rfl | h
        · rw [List.filter_cons_of_pos hx, List.take_succ_cons]
          exact List.mem_cons_self
        · by_cases hp : p y = true
          · rw [List.filter_cons_of_pos hp, List.take_succ_cons]
            exact List.mem_cons_of_mem _ (ih h)
          · rw [List.filter_cons_of_neg hp]
            exact (List.take_prefix_take_left (Nat.le_succ k)).subset (ih h)
    · have hp : ¬ p y = true := fun hp => hq (hpq y hp)
      rw [List.filter_cons_of_neg hq] at h
      rw [List.filter_cons_of_neg hp]
      exact ih h

theorem isSome_parsedId (kind : IdKind) (line : List UInt8)
    (h : decide (∃ n, Says kind line n) = true) : (parsedId kind line).isSome = true := by
  obtain ⟨n, hn⟩ := of_decide_eq_true h
  rw [parsedId_of_proper hn]
  rfl

/-- A line that is taken and does not count is one whose number is cut, or the last that is read. -/
theorem wide_or_last {line : List UInt8} (htaken : line ∈ takenLines kind content)
    (hproper : line ∉ properLines kind content) :
    Wide kind line ∨ (readLines content).getLast? = some line := by
  by_contra hno
  obtain ⟨hwide, hlast⟩ := not_or.mp hno
  obtain ⟨whole, last, hread, hwhole⟩ := exists_readLines content
  have hne : line ≠ last := by
    rintro rfl
    rw [hread, List.getLast?_concat] at hlast
    exact hlast rfl
  obtain ⟨n, hn⟩ := parsedId_of_mem_takenLines htaken
  have hsays : decide (∃ n, Says kind line n) = true := by
    simpa using ⟨n, proper_of_parsedId hn hwide⟩
  rw [takenLines, hread, List.filter_append, List.take_append] at htaken
  rcases List.mem_append.mp htaken with htaken | htaken
  · have hmem := mem_take_filter (isSome_parsedId kind) hsays htaken
    obtain ⟨more, hmore⟩ := hwhole
    refine hproper ?_
    rw [properLines, ← hmore, List.filter_append, List.take_append]
    exact List.mem_append_left _ hmem
  · exact hne (List.mem_singleton.mp (List.mem_filter.mp (List.mem_of_mem_take htaken)).1)

/-- A file that fits, has no zero byte and no number that is cut grants what it says. -/
theorem snapshot_exact_of_plain (hlen : content.length ≤ aclFileMax) (hzero : 0 ∉ content)
    (hwide : ∀ kind, ∀ line ∈ fileLines content, ¬ Wide kind line) (kind : IdKind) (n : ℕ) :
    n ∈ (snapshot content).ids kind ↔ ∃ line ∈ properLines kind content, Says kind line n := by
  obtain ⟨hread, hcomplete⟩ := readLines_eq content hlen hzero
  have hsame : takenLines kind content = properLines kind content := by
    rw [takenLines, properLines, hread, hcomplete]
    refine congrArg _ (List.filter_congr fun line hline => ?_)
    rw [Bool.eq_iff_iff, Option.isSome_iff_exists, decide_eq_true_iff]
    exact exists_congr fun n =>
      ⟨fun hn => proper_of_parsedId hn (hwide kind line hline), parsedId_of_proper⟩
  rw [mem_ids_snapshot, hsame]
  refine exists_congr fun line => and_congr_right fun hline => ?_
  have hmem : line ∈ fileLines content :=
    (completeLines_isPrefix content).subset (List.mem_filter.mp (List.mem_of_mem_take hline)).1
  exact ⟨fun hn => proper_of_parsedId hn (hwide kind line hmem), parsedId_of_proper⟩

end Exactness

end Nemclass.Kernel
