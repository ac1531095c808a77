import Nemclass.Scan.WindowReads

/-! When a struct window loses only what cannot be read. The retry page by page begins only when
the read of the whole window brought nothing back: a read that stops short at a hole is taken for
the end of what is readable, and hides the pages behind the hole. -/
namespace Nemclass.Scan
open Usize Spans

/-- The cover tells whether all of a stretch of the window is readable, and what it has is the
memory's. -/
structure Cover.RightAt (c : Cover) (readable : ℕ → Prop) (mem : ℕ → UInt8) (addr : ℕ)
    (win : List UInt8) (off need : ℕ) : Prop where
  has_iff : c.has off need = true ↔
    off + need ≤ win.length ∧ ∀ i, off ≤ i → i < off + need → readable (addr + i)
  bytes : c.has off need = true → (win.drop off).take need = memBytes mem (addr + off) need

section Exact
variable {σ : Type} {target : ScanTarget σ} {readable : ℕ → Prop} {mem : ℕ → UInt8} {addr len : ℕ}
  {win win' : List UInt8} {cover : Cover} {world world' : σ}

/-- A cover of the bytes that were brought back is right exactly when those are all readable ones. -/
theorem has_iff_readable {brought : ℕ → Prop}
    (hhas : ∀ off need, 0 < need → (cover.has off need = true ↔
      off + need ≤ len ∧ ∀ i, off ≤ i → i < off + need → brought i))
    (hread : ∀ i, brought i → readable (addr + i)) :
    (∀ off need, 0 < need → (cover.has off need = true ↔
        off + need ≤ len ∧ ∀ i, off ≤ i → i < off + need → readable (addr + i))) ↔
      ∀ i < len, readable (addr + i) → brought i := by
  constructor
  · intro hright i hi hreadable
    have hone : ∀ j, i ≤ j → j < i + 1 → readable (addr + j) := fun j hlo hhi => by
      rwa [show j = i by omega]
    have hmem := (hright i 1 Nat.one_pos).mpr ⟨hi, hone⟩
    exact ((hhas i 1 Nat.one_pos).mp hmem).2 i le_rfl (Nat.lt_succ_self i)
  · intro hall off need hpos
    rw [hhas off need hpos]
    refine and_congr_right fun hle => ⟨fun h i hlo hhi => hread i (h i hlo hhi), ?_⟩
    exact fun h i hlo hhi => hall i (by omega) (h i hlo hhi)

theorem full_brought {n : ℕ} (hn : n ≤ len) (hmax : len ≤ usizeMax) (off need : ℕ)
    (hpos : 0 < need) : (Cover.full n).has off need = true ↔
      off + need ≤ len ∧ ∀ i, off ≤ i → i < off + need → i < n := by
  rw [full_has_iff (hn.trans hmax)]
  refine ⟨fun h => ⟨h.trans hn, fun i _ hhi => hhi.trans_le h⟩, fun ⟨_, h⟩ => ?_⟩
  have hlast := h (off + need - 1) (by omega) (by omega)
  omega

theorem sparse_brought {spans : List (ℕ × ℕ)} (hruns : Runs (Contains spans) len spans)
    (hmax : len ≤ usizeMax) (off need : ℕ) (hpos : 0 < need) :
    (Cover.sparse spans).has off need = true ↔
      off + need ≤ len ∧ ∀ i, off ≤ i → i < off + need → Contains spans i := by
  rw [Cover.has_iff]
  dsimp only
  rw [hruns.contains_iff hpos]
  exact and_iff_right_of_imp fun h => h.1.trans hmax

/-- What was brought back decides what the cover has, and no read left a readable byte out when
all readable ones were. -/
theorem readWindow_brings (hmem : ShortReads target readable mem) (hmax : win.length ≤ usizeMax)
    (h : readWindow target addr win world = (some (cover, win'), world')) :
    ∃ brought : ℕ → Prop,
      (∀ off need, 0 < need → (cover.has off need = true ↔
        off + need ≤ win.length ∧ ∀ i, off ≤ i → i < off + need → brought i)) ∧
      (∀ i, brought i → readable (addr + i)) ∧ win'.length = win.length ∧
      (ReadsComplete target readable addr win.length world ↔
        ∀ i < win.length, readable (addr + i) → brought i) := by
  rcases readWindow_cases h with ⟨buf, world₁, hread, hsome, rfl, rfl⟩ | ⟨hn, spans, rfl, hwalk⟩
  · obtain ⟨-, hreadable⟩ := hmem.transfers _ _ _ _ _ hread
    have hroom : 0 + buf.val.length ≤ win.length := by
      rw [Nat.zero_add]
      exact buf.property
    have hn : transferred target world addr win.length = buf.val.length := by
      rw [transferred, hread]
    refine ⟨fun i => i < buf.val.length, full_brought buf.property hmax, hreadable,
      overwrite_length hroom, ?_⟩
    rw [ReadsComplete, hn]
    split
    · refine ⟨fun h i hi hreadable => ?_, fun h i hlo hhi hreadable => ?_⟩
      · by_contra hout
        exact h i (not_lt.mp hout) hi hreadable
      · exact absurd (h i hhi hreadable) (not_lt.mpr hlo)
    · have hempty : win.length = 0 := by omega
      rw [RetriesComplete, if_neg (by omega), true_iff]
      omega
  · obtain ⟨hruns, -, hcomplete⟩ := pageWalk_spans 0 [] win _ (Nat.zero_le _) Runs.nil hwalk
    obtain ⟨hlen, hheld⟩ := pageWalk_holds hmem 0 [] win _ rfl
      (fun s hs => absurd hs List.not_mem_nil) hwalk
    refine ⟨Contains spans, sparse_brought hruns hmax, ?_, hlen, ?_⟩
    · rintro i ⟨s, hs, hlo, hhi⟩
      exact (hheld s hs).reads i hlo hhi
    · rw [ReadsComplete, hn, if_neg (Nat.lt_irrefl 0), hcomplete]
      exact ⟨fun h i => h i (Nat.zero_le i), fun h i _ => h i⟩

/-- A window is read unless an address computation overflows, and its cover is right about every
stretch exactly when no read it made left out a readable byte of what it asked for. -/
theorem readWindow_right_iff (hmem : ShortReads target readable mem) (addr : ℕ) (win : List UInt8)
    (hmax : addr + win.length ≤ usizeMax) (world : σ) :
    (addr + win.length + page ≤ usizeMax → ∃ cover win' world',
      readWindow target addr win world = (some (cover, win'), world')) ∧
    ∀ cover win' world', readWindow target addr win world = (some (cover, win'), world') →
      win'.length = win.length ∧
        ((∀ off need, 0 < need → cover.RightAt readable mem addr win' off need) ↔
          ReadsComplete target readable addr win.length world) := by
  refine ⟨fun hroom => readWindow_some hroom world, fun cover win' world' h => ?_⟩
  obtain ⟨brought, hhas, hreadable, hlen, hcomplete⟩ :=
    readWindow_brings hmem (by omega) h
  refine ⟨hlen, ?_⟩
  rw [hcomplete, ← has_iff_readable hhas hreadable]
  constructor
  · intro hright off need hpos
    rw [← hlen]
    exact (hright off need hpos).has_iff
  · intro hright off need hpos
    refine ⟨?_, fun hin => (readWindow_covers hmem h off need hin).bytes⟩
    rw [hlen]
    exact hright off need hpos

end Exact

section Hole

/-- Two mapped pages with an unmapped one between them. -/
def aroundHole (a : ℕ) : Prop := 0x1000 ≤ a ∧ a < 0x2000 ∨ 0x3000 ≤ a ∧ a < 0x4000

instance (a : ℕ) : Decidable (aroundHole a) := inferInstanceAs (Decidable (_ ∨ _))

/-- How much of a request lies before the end of the mapped page it begins in. -/
def pageRest (addr len : ℕ) : ℕ :=
  if 0x1000 ≤ addr ∧ addr < 0x2000 then min len (0x2000 - addr)
  else if 0x3000 ≤ addr ∧ addr < 0x4000 then min len (0x4000 - addr)
  else 0

theorem pageRest_le (addr len : ℕ) : pageRest addr len ≤ len := by
  unfold pageRest
  split_ifs <;> omega

/-- Reads of zeros that stop at the hole. -/
def holeTarget : ScanTarget Unit where
  regions world := (.ok [⟨0x1000, 0x3000⟩], world)
  read world addr len :=
    (.ok ⟨memBytes (fun _ => 0) addr (pageRest addr len), by
      rw [memBytes_length]
      exact pageRest_le addr len⟩, world)

theorem transferred_holeTarget (addr len : ℕ) :
    transferred holeTarget () addr len = pageRest addr len := by
  show (memBytes (fun _ => 0) addr (pageRest addr len)).length = _
  rw [memBytes_length]

theorem holeTarget_reads : ShortReads holeTarget aroundHole fun _ => 0 := by
  refine ⟨fun world addr len buf world' h => ?_⟩
  cases h
  dsimp only
  rw [memBytes_length]
  refine ⟨rfl, fun i hi => ?_⟩
  unfold aroundHole
  unfold pageRest at hi
  split_ifs at hi <;> omega

/-- A window that begins in the hole is read page by page. -/
theorem readWindow_right_fromHole :
    ∃ cover win' world', readWindow holeTarget 0x2fff [7, 7] () = (some (cover, win'), world') ∧
      ∀ off need, 0 < need → cover.RightAt aroundHole (fun _ => 0) 0x2fff win' off need := by
  obtain ⟨hsome, hexact⟩ := readWindow_right_iff holeTarget_reads 0x2fff [7, 7] (by decide) ()
  obtain ⟨cover, win', world', h⟩ := hsome (by decide)
  refine ⟨cover, win', world', h, (hexact _ _ _ h).2.mpr ?_⟩
  rw [ReadsComplete, transferred_holeTarget, if_neg (by decide)]
  -- the last byte of the hole, then the first one behind it
  rw [RetriesComplete, if_pos (by decide),
    show checkedAdd 0x2fff 0 >>= (checkedNextMultipleOf · page) = some 0x3000 by decide]
  refine ⟨by decide, ?_⟩
  change RetriesComplete holeTarget aroundHole 0x2fff 2 1 ()
  rw [RetriesComplete, if_pos (by decide),
    show checkedAdd 0x2fff 1 >>= (checkedNextMultipleOf · page) = some 0x3000 by decide]
  refine ⟨fun i hlo hhi => ?_, ?_⟩
  · change 2 ≤ i at hlo
    change i < 2 at hhi
    omega
  · change RetriesComplete holeTarget aroundHole 0x2fff 2 2 ()
    rw [RetriesComplete, if_neg (by decide)]
    trivial

/-- A window that begins before the hole ends at it, although a byte behind the hole is mapped. -/
theorem readWindow_beforeHole :
    ∃ cover win' world',
      readWindow holeTarget 0x1fff (List.replicate 0x1002 7) () = (some (cover, win'), world') ∧
        aroundHole (0x1fff + 0x1001) ∧
        ¬ cover.RightAt aroundHole (fun _ => 0) 0x1fff win' 0x1001 1 := by
  have hlen : (List.replicate 0x1002 (7 : UInt8)).length = 0x1002 := List.length_replicate
  have hsome : ∃ cover win' world',
      readWindow holeTarget 0x1fff (List.replicate 0x1002 7) () = (some (cover, win'), world') :=
    readWindow_some (by rw [hlen]; decide) ()
  obtain ⟨cover, win', world', h⟩ := hsome
  refine ⟨cover, win', world', h, by decide, fun hright => ?_⟩
  rcases readWindow_cases h with ⟨buf, world₁, hread, -, rfl, rfl⟩ | ⟨hn, -⟩
  · have hbrought : transferred holeTarget () 0x1fff (List.replicate 0x1002 (7 : UInt8)).length =
        buf.val.length := by
      rw [transferred, hread]
    have hone : buf.val.length = 1 := hbrought.symm.trans (by
      rw [transferred_holeTarget, hlen]
      decide)
    have hsame : (overwrite (List.replicate 0x1002 7) 0 buf.val).length = 0x1002 := by
      rw [overwrite_length (by omega), hlen]
    have hhas := hright.has_iff.mpr ⟨by omega, fun i hlo hhi => by unfold aroundHole; omega⟩
    rw [hone] at hhas
    exact absurd hhas (by decide)
  · rw [transferred_holeTarget, hlen] at hn
    exact absurd hn (by decide)

end Hole

end Nemclass.Scan
