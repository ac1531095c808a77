import Nemclass.Scan.Spider

/-! Reading a struct window. A read may stop short of what it was asked for; what the cover has was
read, and the cover has all that is readable when no read left a readable byte out. -/
namespace Nemclass.Scan
open Usize Spans

/-- Reads of a constant memory: each brings back readable bytes from its first on, and stops where
it likes. -/
structure ShortReads {σ : Type} (target : ScanTarget σ) (readable : ℕ → Prop)
    (mem : ℕ → UInt8) : Prop where
  transfers : ∀ world addr len buf world', target.read world addr len = (.ok buf, world') →
    buf.val = memBytes mem addr buf.val.length ∧ ∀ i < buf.val.length, readable (addr + i)

section Overwrite

theorem overwrite_length {buf bytes : List UInt8} {off : ℕ} (h : off + bytes.length ≤ buf.length) :
    (overwrite buf off bytes).length = buf.length := by
  simp only [overwrite, List.length_append, List.length_take, List.length_drop]
  omega

theorem overwrite_before {buf bytes : List UInt8} {off i : ℕ}
    (h : off + bytes.length ≤ buf.length) (hi : i < off) :
    (overwrite buf off bytes)[i]? = buf[i]? := by
  have hlen : (buf.take off).length = off := List.length_take_of_le (by omega)
  rw [overwrite, List.append_assoc, List.getElem?_append_left (by omega),
    List.getElem?_take_of_lt hi]

theorem overwrite_inside {buf bytes : List UInt8} {off i : ℕ}
    (h : off + bytes.length ≤ buf.length) (hlo : off ≤ i) (hhi : i < off + bytes.length) :
    (overwrite buf off bytes)[i]? = bytes[i - off]? := by
  have hlen : (buf.take off).length = off := List.length_take_of_le (by omega)
  rw [overwrite, List.append_assoc, List.getElem?_append_right (by omega), hlen,
    List.getElem?_append_left (by omega)]

end Overwrite

/-- A part of a window that shows the memory is a part of the memory. -/
theorem take_drop_eq_memBytes {mem : ℕ → UInt8} {addr off need : ℕ} {win : List UInt8}
    (h : ∀ i, off ≤ i → i < off + need → win[i]? = some (mem (addr + i))) :
    (win.drop off).take need = memBytes mem (addr + off) need := by
  refine List.ext_getElem? fun i => ?_
  by_cases hi : i < need
  · rw [List.getElem?_take_of_lt hi, List.getElem?_drop, h (off + i) (by omega) (by omega),
      List.getElem?_eq_getElem (by rw [memBytes_length]; exact hi)]
    simp [memBytes, Nat.add_assoc]
  · rw [List.getElem?_eq_none, List.getElem?_eq_none]
    · rw [memBytes_length]
      omega
    · rw [List.length_take]
      omega

/-- A cover has a span when one of its stretches does, and the span ends at an address. -/
theorem Cover.has_iff (c : Cover) (off need : ℕ) : c.has off need = true ↔
    off + need ≤ usizeMax ∧ match c with
      | .full n => off + need ≤ n
      | .sparse spans => ∃ s ∈ spans, s.1 ≤ off ∧ off + need ≤ s.2 := by
  unfold Cover.has
  by_cases hsum : off + need ≤ usizeMax
  · rw [checkedAdd_of_le hsum]
    cases c with
    | full n => simp [hsum]
    | sparse spans => simp [hsum]
  · have hnone : checkedAdd off need = none := checked_eq_none.mpr (Nat.not_le.mp hsum)
    simp [hnone, hsum]

/-- A cover without holes reaches up to its length. -/
theorem full_has_iff {len off need : ℕ} (hmax : len ≤ usizeMax) :
    (Cover.full len).has off need = true ↔ off + need ≤ len := by
  rw [Cover.has_iff]
  exact ⟨fun h => h.2, fun h => ⟨h.trans hmax, h⟩⟩

section ReadWindow
variable {σ : Type} {target : ScanTarget σ} {readable : ℕ → Prop} {mem : ℕ → UInt8}
  {addr : ℕ} {win : List UInt8}

/-- The number of bytes a read brings back; a read that fails brings none. -/
def transferred (target : ScanTarget σ) (world : σ) (addr len : ℕ) : ℕ :=
  match (target.read world addr len).1 with
  | .ok buf => buf.val.length
  | .error _ => 0

/-- How a window is read: by one read that brings something back, or else page by page. -/
theorem readWindow_cases {addr : ℕ} {win win' : List UInt8} {world world' : σ} {cover : Cover}
    (h : readWindow target addr win world = (some (cover, win'), world')) :
    (∃ buf world₁, target.read world addr win.length = (.ok buf, world₁) ∧
      (buf.val.length = win.length ∨ 0 < buf.val.length) ∧
      cover = .full buf.val.length ∧ win' = overwrite win 0 buf) ∨
    transferred target world addr win.length = 0 ∧ ∃ spans, cover = .sparse spans ∧
      pageWalk target addr win.length 0 [] win (target.read world addr win.length).2 =
        (some (spans, win'), world') := by
  unfold readWindow at h
  dsimp only at h
  split at h
  · rename_i buf world₁ hread
    split_ifs at h with hfull hsome
    · cases h
      exact .inl ⟨buf, _, hread, .inl hfull, rfl, rfl⟩
    · cases h
      exact .inl ⟨buf, _, hread, .inr hsome, rfl, rfl⟩
    · right
      rw [transferred, hread]
      refine ⟨by dsimp only; omega, ?_⟩
      split at h
      · cases h
      · rename_i spans win₁ world₂ hwalk
        cases h
        exact ⟨spans, rfl, hwalk⟩
  · rename_i e world₁ hread
    right
    rw [transferred, hread]
    refine ⟨rfl, ?_⟩
    split at h
    · cases h
    · rename_i spans win₁ world₂ hwalk
      cases h
      exact ⟨spans, rfl, hwalk⟩

/-- A retry that stays below the top of the address space returns. -/
theorem pageWalk_some {addr len : ℕ} (hroom : addr + len + page ≤ usizeMax) (off : ℕ)
    (spans : List (ℕ × ℕ)) (win : List UInt8) (world : σ) : ∃ spans' win' world',
      pageWalk target addr len off spans win world = (some (spans', win'), world') := by
  fun_induction pageWalk target addr len off spans win world with
  | case1 off spans win world hlt hnone =>
    have hnext := nextMultipleOf_lt (addr + off) (show 0 < page by decide)
    rw [checkedAdd_of_le (by omega), Option.bind_eq_bind, Option.bind_some, checkedNextMultipleOf,
      checked_of_le (by omega)] at hnone
    cases hnone
  | case2 off spans win world hlt boundary hboundary stop buf world₁ hread n spans₁ ih => exact ih
  | case3 off spans win world hlt boundary hboundary stop e world₁ hread ih => exact ih
  | case4 off spans win world hge => exact ⟨_, _, _, rfl⟩

theorem readWindow_some {addr : ℕ} {win : List UInt8}
    (hroom : addr + win.length + page ≤ usizeMax) (world : σ) : ∃ cover win' world',
      readWindow target addr win world = (some (cover, win'), world') := by
  have hpages (world : σ) : ∃ spans win' world',
      pageWalk target addr win.length 0 [] win world = (some (spans, win'), world') :=
    pageWalk_some hroom 0 [] win world
  unfold readWindow
  dsimp only
  split
  · rename_i buf world₁ hread
    split_ifs
    · exact ⟨_, _, _, rfl⟩
    · exact ⟨_, _, _, rfl⟩
    · obtain ⟨spans, win', world', hwalk⟩ := hpages world₁
      exact ⟨.sparse spans, win', world', by rw [hwalk]⟩
  · rename_i e world₁ hread
    obtain ⟨spans, win', world', hwalk⟩ := hpages world₁
    exact ⟨.sparse spans, win', world', by rw [hwalk]⟩

/-- A stretch of a window holds readable bytes of the memory. -/
structure Holds (readable : ℕ → Prop) (mem : ℕ → UInt8) (addr : ℕ) (win : List UInt8)
    (lo hi : ℕ) : Prop where
  le_length : hi ≤ win.length
  shows : ∀ i, lo ≤ i → i < hi → win[i]? = some (mem (addr + i))
  reads : ∀ i, lo ≤ i → i < hi → readable (addr + i)

/-- What the cover has, the window holds. -/
def Covers (readable : ℕ → Prop) (mem : ℕ → UInt8) (addr : ℕ) (cover : Cover)
    (win : List UInt8) : Prop :=
  ∀ off need, cover.has off need = true → Holds readable mem addr win off (off + need)

theorem Holds.mono {lo hi lo' hi' : ℕ} (h : Holds readable mem addr win lo hi) (hlo : lo ≤ lo')
    (hhi : hi' ≤ hi) : Holds readable mem addr win lo' hi' where
  le_length := hhi.trans h.le_length
  shows i hi hi' := h.shows i (hlo.trans hi) (hi'.trans_le hhi)
  reads i hi hi' := h.reads i (hlo.trans hi) (hi'.trans_le hhi)

theorem Holds.append {lo mid hi : ℕ} (h : Holds readable mem addr win lo mid)
    (h' : Holds readable mem addr win mid hi) : Holds readable mem addr win lo hi where
  le_length := h'.le_length
  shows i hlo hhi := by
    rcases Nat.lt_or_ge i mid with hlt | hge
    · exact h.shows i hlo hlt
    · exact h'.shows i hge hhi
  reads i hlo hhi := by
    rcases Nat.lt_or_ge i mid with hlt | hge
    · exact h.reads i hlo hlt
    · exact h'.reads i hge hhi

theorem Holds.bytes {off need : ℕ} (h : Holds readable mem addr win off (off + need)) :
    (win.drop off).take need = memBytes mem (addr + off) need := take_drop_eq_memBytes h.shows

/-- What is copied into a window behind a stretch leaves the stretch as it is. -/
theorem Holds.overwrite {lo hi off : ℕ} {bytes : List UInt8} (h : Holds readable mem addr win lo hi)
    (hoff : hi ≤ off) (hroom : off + bytes.length ≤ win.length) :
    Holds readable mem addr (overwrite win off bytes) lo hi where
  le_length := by rw [overwrite_length hroom]; exact h.le_length
  shows i hlo hhi := by
    rw [overwrite_before hroom (by omega)]
    exact h.shows i hlo hhi
  reads := h.reads

/-- What a read transfers into a window, the window holds. -/
theorem ShortReads.holds (hmem : ShortReads target readable mem) {off len : ℕ}
    {buf : Transfer len} {world world' : σ}
    (hread : target.read world (addr + off) len = (.ok buf, world'))
    (hroom : off + buf.val.length ≤ win.length) :
    Holds readable mem addr (overwrite win off buf.val) off (off + buf.val.length) := by
  obtain ⟨hbytes, hreads⟩ := hmem.transfers _ _ _ _ _ hread
  refine ⟨by rw [overwrite_length hroom]; exact hroom, fun i hlo hhi => ?_, fun i hlo hhi => ?_⟩
  · rw [overwrite_inside hroom hlo hhi, hbytes, List.getElem?_eq_getElem (by
      rw [memBytes_length]
      omega)]
    simp only [memBytes, List.getElem_map, List.getElem_range]
    rw [show addr + off + (i - off) = addr + i by omega]
  · have hi := hreads (i - off) (by omega)
    rwa [show addr + off + (i - off) = addr + i by omega] at hi

theorem pageWalk_holds (hmem : ShortReads target readable mem) {len : ℕ} (off : ℕ)
    (spans : List (ℕ × ℕ)) (win : List UInt8) (world : σ) (hlen : win.length = len)
    (hspans : ∀ s ∈ spans, s.2 ≤ off ∧ Holds readable mem addr win s.1 s.2)
    {spans' : List (ℕ × ℕ)} {win' : List UInt8} {world' : σ}
    (h : pageWalk target addr len off spans win world = (some (spans', win'), world')) :
    win'.length = len ∧ ∀ s ∈ spans', Holds readable mem addr win' s.1 s.2 := by
  fun_induction pageWalk target addr len off spans win world with
  | case1 => simp at h
  | case2 off spans win world hlt boundary hboundary stop buf world₁ hread n spans₁ ih =>
    have hstop : off < stop ∧ stop ≤ len := by omega
    have hn : n ≤ stop - off := buf.property
    have hroom : off + buf.val.length ≤ win.length := by
      rw [hlen]
      omega
    refine ih (by rw [overwrite_length hroom, hlen]) (fun s hs => ?_) h
    have hheld := hmem.holds hread hroom
    have hold : ∀ s ∈ spans, s.2 ≤ stop ∧ Holds readable mem addr (overwrite win off buf) s.1 s.2 :=
      fun s hs => ⟨(hspans s hs).1.trans hstop.1.le, (hspans s hs).2.overwrite (hspans s hs).1 hroom⟩
    by_cases hpos : 0 < n
    · rw [show spans₁ = Spans.extend spans off n from if_pos hpos] at hs
      rcases mem_extend hs with hs | ⟨hend, hbegin⟩
      · exact hold s hs
      · refine ⟨by omega, ?_⟩
        rw [hend]
        rcases hbegin with hbegin | hbefore
        · rw [hbegin]
          exact hheld
        · exact (hold _ hbefore).2.append hheld
    · rw [show spans₁ = spans from if_neg hpos] at hs
      exact hold s hs
  | case3 off spans win world hlt boundary hboundary stop e world₁ hread ih =>
    have hstop : off < stop ∧ stop ≤ len := by omega
    exact ih hlen (fun s hs => ⟨(hspans s hs).1.trans hstop.1.le, (hspans s hs).2⟩) h
  | case4 off spans win world hge =>
    simp only [Prod.mk.injEq, Option.some.injEq] at h
    obtain ⟨⟨rfl, rfl⟩, _⟩ := h
    exact ⟨hlen, fun s hs => (hspans s hs).2⟩

theorem covers_full {n : ℕ} (h : Holds readable mem addr win 0 n) :
    Covers readable mem addr (.full n) win := by
  intro off need hhas
  obtain ⟨-, hle⟩ := (Cover.has_iff _ off need).mp hhas
  exact h.mono (Nat.zero_le _) hle

theorem covers_sparse {spans : List (ℕ × ℕ)}
    (h : ∀ s ∈ spans, Holds readable mem addr win s.1 s.2) :
    Covers readable mem addr (.sparse spans) win := by
  intro off need hhas
  obtain ⟨-, s, hs, hlo, hhi⟩ := (Cover.has_iff _ off need).mp hhas
  exact (h s hs).mono hlo hhi

theorem readWindow_covers (hmem : ShortReads target readable mem) {world world' : σ}
    {cover : Cover} {win' : List UInt8}
    (h : readWindow target addr win world = (some (cover, win'), world')) :
    Covers readable mem addr cover win' := by
  rcases readWindow_cases h with ⟨buf, world₁, hread, -, rfl, rfl⟩ | ⟨-, spans, rfl, hwalk⟩
  · have hread₀ : target.read world (addr + 0) win.length = (.ok buf, world₁) := hread
    have hroom : 0 + buf.val.length ≤ win.length := by
      rw [Nat.zero_add]
      exact buf.property
    have hheld := hmem.holds hread₀ hroom
    rw [Nat.zero_add] at hheld
    exact covers_full hheld
  · exact covers_sparse (pageWalk_holds hmem 0 [] win _ rfl
      (fun s hs => absurd hs List.not_mem_nil) hwalk).2

/-! ## What the cover leaves out -/

/-- From an offset on, no retry of a window leaves out a readable byte of what it asked for. -/
def RetriesComplete (target : ScanTarget σ) (readable : ℕ → Prop) (addr len off : ℕ) (world : σ) :
    Prop :=
  if off < len then
    match checkedAdd addr off >>= (checkedNextMultipleOf · page) with
    | none => True
    | some boundary =>
      let stop := min (max (boundary - addr) (off + 1)) len
      let n := transferred target world (addr + off) (stop - off)
      (∀ i, off + n ≤ i → i < stop → ¬ readable (addr + i)) ∧
        RetriesComplete target readable addr len stop
          (target.read world (addr + off) (stop - off)).2
  else True
termination_by len - off

/-- The read of the whole window leaves out no readable byte of it, or it brings nothing back and
the retries leave none out. -/
def ReadsComplete (target : ScanTarget σ) (readable : ℕ → Prop) (addr len : ℕ) (world : σ) :
    Prop :=
  let n := transferred target world addr len
  if 0 < n then ∀ i, n ≤ i → i < len → ¬ readable (addr + i)
  else RetriesComplete target readable addr len 0 (target.read world addr len).2

/-- One retry: `n` bytes at `off` come back, of those up to `stop`. -/
theorem retry_step {spans spans₁ spans' : List (ℕ × ℕ)} {off n stop len : ℕ} {R : ℕ → Prop}
    {rest : Prop} (hold : ∀ i, Contains spans i → i < off)
    (hgrown : ∀ i, Contains spans₁ i ↔ Contains spans i ∨ off ≤ i ∧ i < off + n)
    (hn : off + n ≤ stop) (hstop : stop ≤ len)
    (hkept : ∀ i < stop, Contains spans' i ↔ Contains spans₁ i)
    (hrest : rest ↔ ∀ i, stop ≤ i → i < len → R i → Contains spans' i) :
    (∀ i < off, Contains spans' i ↔ Contains spans i) ∧
      ((∀ i, off + n ≤ i → i < stop → ¬ R i) ∧ rest ↔
        ∀ i, off ≤ i → i < len → R i → Contains spans' i) := by
  refine ⟨fun i hi => ?_, ?_⟩
  · rw [hkept i (by omega), hgrown, or_iff_left]
    omega
  · rw [hrest]
    constructor
    · rintro ⟨hnone, hlater⟩ i hlo hhi hreadable
      rcases Nat.lt_or_ge i stop with hlt | hge
      · refine (hkept i hlt).mpr ((hgrown i).mpr (.inr ⟨hlo, ?_⟩))
        by_contra hout
        exact hnone i (not_lt.mp hout) hlt hreadable
      · exact hlater i hge hhi hreadable
    · intro hall
      refine ⟨fun i hlo hhi hreadable => ?_, fun i hlo => hall i (by omega)⟩
      have hin := (hkept i hhi).mp (hall i (by omega) (by omega) hreadable)
      rcases (hgrown i).mp hin with hbefore | hnew
      · have hlt := hold i hbefore
        omega
      · omega

/-- The spans of a retry are maximal, and they contain every readable offset exactly when no read
left one out. -/
theorem pageWalk_spans {len : ℕ} (off : ℕ) (spans : List (ℕ × ℕ)) (win : List UInt8) (world : σ)
    (hoff : off ≤ len) (hruns : Runs (Contains spans) off spans) {spans' : List (ℕ × ℕ)}
    {win' : List UInt8} {world' : σ}
    (h : pageWalk target addr len off spans win world = (some (spans', win'), world')) :
    Runs (Contains spans') len spans' ∧ (∀ i < off, Contains spans' i ↔ Contains spans i) ∧
      (RetriesComplete target readable addr len off world ↔
        ∀ i, off ≤ i → i < len → readable (addr + i) → Contains spans' i) := by
  fun_induction pageWalk target addr len off spans win world with
  | case1 => simp at h
  | case2 off spans win world hlt boundary hboundary stop buf world₁ hread n spans₁ ih =>
    have hstop : off < stop ∧ stop ≤ len := by omega
    have hn : n ≤ stop - off := buf.property
    have hbrought : transferred target world (addr + off) (stop - off) = n := by
      rw [transferred, hread]
    have hgrown : Runs (Contains spans₁) stop spans₁ ∧
        ∀ i, Contains spans₁ i ↔ Contains spans i ∨ off ≤ i ∧ i < off + n := by
      by_cases hpos : 0 < n
      · obtain ⟨hextended, hin⟩ := hruns.contains_extend hpos
        rw [show spans₁ = Spans.extend spans off n from if_pos hpos]
        exact ⟨hextended.self_skip (by omega), hin⟩
      · rw [show spans₁ = spans from if_neg hpos]
        exact ⟨hruns.self_skip hstop.1.le, fun i => (or_iff_left (by omega)).symm⟩
    obtain ⟨hruns', hkept, hrest⟩ := ih hstop.2 hgrown.1 h
    have hstep := retry_step (fun i hi => (hruns.contains.mp hi).1) hgrown.2 (by omega) hstop.2
      hkept hrest
    rw [RetriesComplete, if_pos hlt, hboundary]
    dsimp only
    rw [hbrought, hread]
    exact ⟨hruns', hstep⟩
  | case3 off spans win world hlt boundary hboundary stop e world₁ hread ih =>
    have hstop : off < stop ∧ stop ≤ len := by omega
    have hbrought : transferred target world (addr + off) (stop - off) = 0 := by
      rw [transferred, hread]
    obtain ⟨hruns', hkept, hrest⟩ := ih hstop.2 (hruns.self_skip hstop.1.le) h
    have hstep := retry_step (fun i hi => (hruns.contains.mp hi).1)
      (fun i => (or_iff_left (by omega)).symm) (n := 0) (by omega) hstop.2 hkept hrest
    rw [RetriesComplete, if_pos hlt, hboundary]
    dsimp only
    rw [hbrought, hread]
    exact ⟨hruns', hstep⟩
  | case4 off spans win world hge =>
    simp only [Prod.mk.injEq, Option.some.injEq] at h
    obtain ⟨⟨rfl, rfl⟩, _⟩ := h
    obtain rfl : off = len := by omega
    rw [RetriesComplete, if_neg hge, true_iff]
    exact ⟨hruns, fun _ _ => Iff.rfl, fun i hlo hhi => absurd hhi (not_lt.mpr hlo)⟩

end ReadWindow

end Nemclass.Scan
