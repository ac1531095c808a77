import Nemclass.Scan.History

/-! What a next scan makes of the previous generation: it re-reads every result once, in order, and
what the reads answered decides which results stay. -/
namespace Nemclass.Scan

/-- What a re-read gave, when it gave a whole value. -/
def wholeValue (stride : ℕ) : Except Error (List UInt8) → Option (List UInt8)
  | .ok bytes => if stride ≤ bytes.length then some bytes else none
  | .error _ => none

namespace NextPass
variable {σ : Type} (p : NextPass σ)

/-- The answers to the re-reads of a pass, in order, up to where the observer stops it. -/
def answers : ℕ → List ScanResult → Refine σ → List (Except Error (List UInt8))
  | _, [], _ => []
  | i, prev :: rest, r =>
    match p.tick i r with
    | (false, _) => []
    | (true, r) =>
      (p.target.read r.world prev.address p.stride).1.map Subtype.val ::
        answers (i + 1) rest (p.refineOne prev r)

/-- The re-read gave no whole value. -/
def unreadable (answer : Except Error (List UInt8)) : Bool := (wholeValue p.stride answer).isNone

/-- The result that is kept, given what its re-read answered. -/
def kept (prev : ScanResult) (answer : Except Error (List UInt8)) : Option ScanResult :=
  (wholeValue p.stride answer).bind fun fresh =>
    if p.matched fresh prev.current then
      some ⟨prev.address, fresh, fixed prev.current p.stride⟩
    else none

/-- What a re-read adds to the results, and to the count of the unreadable ones. -/
structure Adds (r r' : Refine σ) (rows : List ScanResult) (unreadable : ℕ) : Prop where
  stride : r'.out.stride = r.out.stride
  rows : r'.out.rows = r.out.rows ++ rows
  unreadable : r'.unreadable = r.unreadable + unreadable

theorem tick_adds (i : ℕ) (r : Refine σ) : Adds r (p.tick i r).2 [] 0 := by
  unfold tick
  split <;> exact ⟨rfl, (List.append_nil _).symm, rfl⟩

/-- One round: the result is counted and dropped, dropped, or kept with its fresh value. -/
theorem refineOne_adds (prev : ScanResult) (r : Refine σ) (hstride : r.out.stride = p.stride) :
    let answer := (p.target.read r.world prev.address p.stride).1.map Subtype.val
    Adds r (p.refineOne prev r) (p.kept prev answer).toList (p.unreadable answer).toNat := by
  unfold refineOne kept unreadable
  cases hread : p.target.read r.world prev.address p.stride with
  | mk answer world =>
    cases answer with
    | error e => exact ⟨rfl, (List.append_nil _).symm, rfl⟩
    | ok buf =>
      have hmap : (Except.ok buf : Except Error _).map Subtype.val = .ok buf.val := rfl
      dsimp only
      rw [hmap]
      by_cases hshort : buf.val.length < p.stride
      · have hwhole : wholeValue p.stride (.ok buf.val) = none := if_neg (Nat.not_le.mpr hshort)
        rw [if_pos hshort, hwhole]
        exact ⟨rfl, (List.append_nil _).symm, rfl⟩
      · have hwhole : wholeValue p.stride (.ok buf.val) = some buf.val :=
          if_pos (Nat.not_lt.mp hshort)
        rw [if_neg hshort, hwhole, Option.bind_some]
        cases hmatched : p.matched buf prev.current with
        | false => exact ⟨rfl, (List.append_nil _).symm, rfl⟩
        | true =>
          have hlen : buf.val.length = p.stride := by
            have := buf.property
            omega
          refine ⟨rfl, ?_, rfl⟩
          rw [if_pos rfl, if_pos rfl, ScanResults.rows_push, hstride, fixed_of_length hlen]
          rfl

/-- A whole pass: each result beside the answer to its re-read. A pass that was not stopped has
re-read all of them. -/
theorem refine_adds (i : ℕ) (rows : List ScanResult) (r : Refine σ)
    (hstride : r.out.stride = p.stride) :
    Adds r (p.refine i rows r).2
      ((rows.zip (p.answers i rows r)).filterMap fun read => p.kept read.1 read.2)
      ((p.answers i rows r).countP p.unreadable) ∧
    ((p.refine i rows r).1 = true → (p.answers i rows r).length = rows.length) := by
  induction rows generalizing i r with
  | nil => exact ⟨⟨rfl, (List.append_nil _).symm, rfl⟩, fun _ => rfl⟩
  | cons prev rest ih =>
    have htick := p.tick_adds i r
    unfold refine answers
    cases hgo : p.tick i r with
    | mk go ticked =>
      rw [hgo] at htick
      cases go with
      | false =>
        refine ⟨⟨htick.stride, ?_, htick.unreadable⟩, fun h => absurd h Bool.false_ne_true⟩
        rw [htick.rows]
        rfl
      | true =>
        dsimp only
        have hone := p.refineOne_adds prev ticked (htick.stride.trans hstride)
        obtain ⟨hrest, hlen⟩ := ih (i + 1) (p.refineOne prev ticked)
          ((hone.stride.trans htick.stride).trans hstride)
        refine ⟨⟨?_, ?_, ?_⟩, fun h => ?_⟩
        · rw [hrest.stride, hone.stride, htick.stride]
        · rw [hrest.rows, hone.rows, htick.rows, List.append_nil, List.append_assoc,
            List.zip_cons_cons, List.filterMap_cons]
          cases p.kept prev _ <;> rfl
        · rw [hrest.unreadable, hone.unreadable, htick.unreadable, List.countP_cons]
          cases p.unreadable _ with
          | false => rfl
          | true => exact Nat.add_right_comm ..
        · rw [List.length_cons, List.length_cons, hlen h]

end NextPass

/-- The errors of the checks before a pass. -/
def ScanError.BeforePass : ScanError → Prop
  | .targetUnreadable _ | .target _ | .cancelled => False
  | _ => True

namespace Scanner
variable {σ : Type} (s : Scanner) (target : ScanTarget σ) (observer : ScanObserver σ)
  (compare : ScanCompareType) (needle : Option Needle) (world : σ)

/-- The answers to the re-reads of a next scan. -/
def rereads : List (Except Error (List UInt8)) :=
  (s.nextPass target observer compare needle).answers 0 s.results.rows
    ⟨world, .withStride (s.stride needle), 0, none⟩

theorem nextScanWith_of_check (h : s.checkNext compare needle = .ok ()) :
    s.nextScanWith target observer compare needle world =
      match (s.nextPass target observer compare needle).refine 0 s.results.rows
          ⟨world, .withStride (s.stride needle), 0, none⟩ with
      | (false, r) => (.error (.error .cancelled), s, r.world)
      | (true, r) =>
        if r.unreadable = s.results.len ∧ s.results.len ≠ 0 then
          (.error (.error (.targetUnreadable (r.lastErr.getD .processNotFound))), s, r.world)
        else (.ok (), s.commitRefine s.results.len r, r.world) := by
  rewrite [nextScanWith, h]
  rfl

theorem checkNext_beforePass {e : ScanError} (h : s.checkNext compare needle = .error e) :
    e.BeforePass := by
  have hneedle (e : ScanError) (hvalidate : s.validateNeedle compare needle = .error e) :
      e.BeforePass := by
    unfold validateNeedle at hvalidate
    split at hvalidate
    · split at hvalidate
      · cases hvalidate
        trivial
      · cases hvalidate
    · split at hvalidate
      · cases hvalidate
        trivial
      · cases hvalidate
  unfold checkNext at h
  split at h
  · cases h
    trivial
  · split at h
    · cases h
      trivial
    · split at h
      · rename_i hvalidate
        cases h
        exact hneedle e hvalidate
      · split at h
        · cases h
          trivial
        · cases h

/-- What the pass of a next scan makes of the re-reads. -/
theorem rereads_spec {go : Bool} {r : Refine σ}
    (hrefine : (s.nextPass target observer compare needle).refine 0 s.results.rows
      ⟨world, .withStride (s.stride needle), 0, none⟩ = (go, r)) :
    r.out.stride = s.stride needle ∧
      r.out.rows = (s.results.rows.zip (s.rereads target observer compare needle world)).filterMap
        (fun read => (s.nextPass target observer compare needle).kept read.1 read.2) ∧
      r.unreadable = (s.rereads target observer compare needle world).countP
        (s.nextPass target observer compare needle).unreadable ∧
      (go = true → (s.rereads target observer compare needle world).length = s.results.len) := by
  obtain ⟨hadds, hlen⟩ := (s.nextPass target observer compare needle).refine_adds 0 s.results.rows
    ⟨world, .withStride (s.stride needle), 0, none⟩ rfl
  rw [hrefine] at hadds hlen
  have hrows := hadds.rows
  have hunreadable := hadds.unreadable
  rw [ScanResults.withStride_rows, List.nil_append] at hrows
  rw [Nat.zero_add] at hunreadable
  rw [ScanResults.rows_length] at hlen
  exact ⟨hadds.stride, hrows, hunreadable, hlen⟩

/-- The new generation and the counters. -/
theorem nextScanWith_commits {s' : Scanner} {world' : σ}
    (h : s.nextScanWith target observer compare needle world = (.ok (), s', world')) :
    (s.rereads target observer compare needle world).length = s.results.len ∧
      s'.results.stride = s.stride needle ∧
      s'.results.rows =
        (s.results.rows.zip (s.rereads target observer compare needle world)).filterMap
          (fun read => (s.nextPass target observer compare needle).kept read.1 read.2) ∧
      s'.lastStats = ⟨s.results.len, s'.results.len,
        (s.rereads target observer compare needle world).countP
          (s.nextPass target observer compare needle).unreadable⟩ := by
  obtain ⟨r, -, hrefine, rfl⟩ := nextScanWith_ok h
  obtain ⟨hstride, hrows, hunreadable, hlen⟩ :=
    s.rereads_spec target observer compare needle world hrefine
  rw [commitRefine_results]
  exact ⟨hlen rfl, hstride, hrows, congrArg (ScanStats.mk s.results.len r.out.len) hunreadable⟩

/-- A target is reported unreadable when a pass that is not cancelled could re-read no result. -/
theorem targetUnreadable_iff (hne : s.results.len ≠ 0) :
    (∃ e, (s.nextScanWith target observer compare needle world).1 =
        .error (.error (.targetUnreadable e))) ↔
      (s.nextScanWith target observer compare needle world).1 ≠ .error (.error .cancelled) ∧
      s.checkNext compare needle = .ok () ∧
      ∀ answer ∈ s.rereads target observer compare needle world,
        (s.nextPass target observer compare needle).unreadable answer = true := by
  cases hcheck : s.checkNext compare needle with
  | error e =>
    have hbefore := s.checkNext_beforePass compare needle hcheck
    have hverdict : (s.nextScanWith target observer compare needle world).1 =
        .error (.error e) := by rw [nextScanWith, hcheck]
    refine iff_of_false ?_ (fun h => nomatch h.2.1)
    rintro ⟨cause, hcause⟩
    rw [hverdict] at hcause
    cases hcause
    exact hbefore
  | ok =>
    rw [s.nextScanWith_of_check target observer compare needle world hcheck]
    cases hrefine : (s.nextPass target observer compare needle).refine 0 s.results.rows
        ⟨world, .withStride (s.stride needle), 0, none⟩ with
    | mk go r =>
      obtain ⟨-, -, hunreadable, hlen⟩ :=
        s.rereads_spec target observer compare needle world hrefine
      cases go with
      | false => exact iff_of_false (fun ⟨_, h⟩ => nomatch h) (fun h => h.1 rfl)
      | true =>
        have hall : r.unreadable = s.results.len ↔
            ∀ answer ∈ s.rereads target observer compare needle world,
              (s.nextPass target observer compare needle).unreadable answer = true := by
          rw [hunreadable, ← hlen rfl]
          exact List.countP_eq_length
        dsimp only
        by_cases hdead : r.unreadable = s.results.len
        · rw [if_pos ⟨hdead, hne⟩]
          exact iff_of_true ⟨_, rfl⟩ ⟨nofun, rfl, hall.mp hdead⟩
        · rw [if_neg fun h => hdead h.1]
          exact iff_of_false (fun ⟨_, h⟩ => nomatch h) (fun h => hdead (hall.mpr h.2.2))

/-- The new generation, the counters and the report of an unreadable target, for every next scan.
The value that was current becomes the previous one, cut or padded to the width of this scan. -/
theorem nextScanWith_refines :
    (∀ s' world', s.nextScanWith target observer compare needle world = (.ok (), s', world') →
      (s.rereads target observer compare needle world).length = s.results.len ∧
        s'.results.stride = s.stride needle ∧
        s'.results.rows =
          (s.results.rows.zip (s.rereads target observer compare needle world)).filterMap
            (fun read => (s.nextPass target observer compare needle).kept read.1 read.2) ∧
        s'.lastStats = ⟨s.results.len, s'.results.len,
          (s.rereads target observer compare needle world).countP
            (s.nextPass target observer compare needle).unreadable⟩) ∧
    (s.results.len ≠ 0 →
      ((∃ e, (s.nextScanWith target observer compare needle world).1 =
          .error (.error (.targetUnreadable e))) ↔
        (s.nextScanWith target observer compare needle world).1 ≠ .error (.error .cancelled) ∧
        s.checkNext compare needle = .ok () ∧
        ∀ answer ∈ s.rereads target observer compare needle world,
          (s.nextPass target observer compare needle).unreadable answer = true)) ∧
    (s.results.stride = s.stride needle → ∀ prev ∈ s.results.rows,
      fixed prev.current (s.nextPass target observer compare needle).stride = prev.current) := by
  refine ⟨fun s' world' h => s.nextScanWith_commits target observer compare needle world h,
    fun hne => s.targetUnreadable_iff target observer compare needle world hne,
    fun hsame prev hprev => ?_⟩
  exact fixed_of_length ((ScanResults.current_length_of_mem hprev).trans hsame)

/-- The bytes `AA BB`, found by looking for `AA`. -/
def byteTarget : ScanTarget Unit := (MockTarget.new 0x1000 [0xAA, 0xBB]).target Unit

def bytesNeedle (b : UInt8) (bytes : List UInt8) : Needle where
  ty := .bytes
  value := .Bytes (.fromBytes (b :: bytes))
  tolerance := defaultFloatTolerance
  fits := ⟨rfl, by simp [BytePattern.len, BytePattern.fromBytes]⟩

def byteSession : Scanner :=
  ((Scanner.new .bytes).firstScan byteTarget .exact (some (bytesNeedle 0xAA [])) ()).2.1

/-- Looking for `AA BB` next keeps the result; its previous value is not the one byte that was
current, but that byte and a zero. -/
theorem nextScanWith_pads : ¬ ∀ (s s' : Scanner) (target : ScanTarget Unit)
    (observer : ScanObserver Unit) (compare : ScanCompareType) (needle : Option Needle)
    (world world' : Unit),
    s.nextScanWith target observer compare needle world = (.ok (), s', world') →
      s'.results.rows = (s.results.rows.zip (s.rereads target observer compare needle world)).filterMap
        fun read => (wholeValue (s.stride needle) read.2).bind fun fresh =>
          if (s.nextPass target observer compare needle).matched fresh read.1.current then
            some ⟨read.1.address, fresh, read.1.current⟩
          else none := by
  intro h
  have hok : (byteSession.nextScanWith byteTarget (noObserver Unit) .exact
      (some (bytesNeedle 0xAA [0xBB])) ()).1 = .ok () := by decide +kernel
  have hrows := h byteSession _ byteTarget (noObserver Unit) .exact
    (some (bytesNeedle 0xAA [0xBB])) () _ (Prod.ext hok rfl)
  revert hrows
  decide +kernel

/-- Looking for `AA` again. -/
theorem nextScanWith_refines_bytes :
    let needle := some (bytesNeedle 0xAA [])
    let p := byteSession.nextPass byteTarget (noObserver Unit) .exact needle
    let answers := byteSession.rereads byteTarget (noObserver Unit) .exact needle ()
    let s' := (byteSession.nextScanWith byteTarget (noObserver Unit) .exact needle ()).2.1
    answers.length = byteSession.results.len ∧ s'.results.stride = byteSession.stride needle ∧
      s'.results.rows =
        (byteSession.results.rows.zip answers).filterMap (fun read => p.kept read.1 read.2) ∧
      s'.lastStats = ⟨byteSession.results.len, s'.results.len, answers.countP p.unreadable⟩ := by
  have hok : (byteSession.nextScanWith byteTarget (noObserver Unit) .exact
      (some (bytesNeedle 0xAA [])) ()).1 = .ok () := by decide +kernel
  exact (byteSession.nextScanWith_refines byteTarget (noObserver Unit) .exact
    (some (bytesNeedle 0xAA [])) ()).1 _ _ (Prod.ext hok rfl)

end Scanner

end Nemclass.Scan
