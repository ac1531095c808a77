import Nemclass.Scan.WindowReads

/-! What a struct window holds over memory that is mapped by whole pages: its
cover says of every span whether all of it is mapped, and the bytes under the
cover are those of the memory, however the reads were split. -/
namespace Nemclass.Scan
open Usize Spans

/-- An address inside one of the regions. -/
def Mapped (regions : List Region) (a : ℕ) : Prop := ∃ r ∈ regions, r.base ≤ a ∧ a < r.stop

/-- A constant memory mapped by whole pages: a read fills its request when all of it is mapped, and
transfers nothing otherwise. -/
structure PagedMemory {σ : Type} (target : ScanTarget σ) (regions : List Region)
    (mem : ℕ → UInt8) : Prop where
  paged : ∀ a b, a / page = b / page → Mapped regions a → Mapped regions b
  fills : ∀ world addr len, (∀ i < len, Mapped regions (addr + i)) →
    ∃ buf world', target.read world addr len = (.ok buf, world') ∧ buf.val = memBytes mem addr len
  withholds : ∀ world addr len, (∃ i < len, ¬ Mapped regions (addr + i)) →
    ∀ buf world', target.read world addr len = (.ok buf, world') → buf.val = []

/-- A constant memory mapped by whole pages, whatever part of a request a read leaves out: it
transfers mapped bytes from its first on, and all of them when all are mapped. -/
structure PagedReads {σ : Type} (target : ScanTarget σ) (regions : List Region)
    (mem : ℕ → UInt8) : Prop where
  paged : ∀ a b, a / page = b / page → Mapped regions a → Mapped regions b
  fills : ∀ world addr len, (∀ i < len, Mapped regions (addr + i)) →
    ∃ buf world', target.read world addr len = (.ok buf, world') ∧ buf.val = memBytes mem addr len
  transfers : ∀ world addr len buf world', target.read world addr len = (.ok buf, world') →
    buf.val = memBytes mem addr buf.val.length ∧
      ∀ i < buf.val.length, Mapped regions (addr + i)

/-- Reads that transfer all of a request or nothing. -/
theorem PagedMemory.reads {σ : Type} {target : ScanTarget σ} {regions : List Region}
    {mem : ℕ → UInt8} (h : PagedMemory target regions mem) : PagedReads target regions mem where
  paged := h.paged
  fills := h.fills
  transfers world addr len buf world' hread := by
    by_cases hall : ∀ i < len, Mapped regions (addr + i)
    · obtain ⟨buf', world₁, hread', hbytes⟩ := h.fills world addr len hall
      rw [hread, Prod.mk.injEq, Except.ok.injEq] at hread'
      obtain ⟨rfl, -⟩ := hread'
      have hlen : buf.val.length = len := by rw [hbytes, memBytes_length]
      exact ⟨by rw [hlen]; exact hbytes, fun i hi => hall i (hlen ▸ hi)⟩
    · have hempty := h.withholds world addr len (by simpa using hall) buf world' hread
      rw [hempty]
      exact ⟨rfl, fun i hi => absurd hi (Nat.not_lt_zero i)⟩

theorem PagedReads.short {σ : Type} {target : ScanTarget σ} {regions : List Region}
    {mem : ℕ → UInt8} (h : PagedReads target regions mem) :
    ShortReads target (Mapped regions) mem := ⟨h.transfers⟩

section ReadWindow
variable {σ : Type} {target : ScanTarget σ} {regions : List Region} {mem : ℕ → UInt8}

/-- The mapped offsets below a bound hold the bytes of the memory. -/
def Shows (regions : List Region) (mem : ℕ → UInt8) (addr bound : ℕ) (win : List UInt8) : Prop :=
  ∀ i < bound, Mapped regions (addr + i) → win[i]? = some (mem (addr + i))

/-- Each retry stays inside one page. -/
theorem same_page {addr off i len boundary : ℕ}
    (h : (checkedAdd addr off >>= (checkedNextMultipleOf · page)) = some boundary) (hlo : off ≤ i)
    (hhi : i < min (max (boundary - addr) (off + 1)) len) :
    (addr + off) / page = (addr + i) / page := by
  rw [Option.bind_eq_bind, Option.bind_eq_some_iff] at h
  obtain ⟨at_, hat, hboundary⟩ := h
  have hsum := (checkedAdd_eq_some.mp hat).1
  have hnext := (checked_eq_some.mp hboundary).1
  by_cases hi : i = off
  · rw [hi]
  · exact div_eq_of_lt_nextMultipleOf (by decide) (by omega) (by subst hsum; omega)

/-- A stretch that stays inside one page is mapped throughout or nowhere. -/
theorem PagedReads.uniform (hmem : PagedReads target regions mem) {addr off stop : ℕ}
    (hpage : ∀ i, off ≤ i → i < stop → (addr + off) / page = (addr + i) / page) :
    (∀ i, off ≤ i → i < stop → Mapped regions (addr + i)) ∨
      ∀ i, off ≤ i → i < stop → ¬ Mapped regions (addr + i) := by
  by_cases hfirst : Mapped regions (addr + off)
  · exact .inl fun i hlo hhi => hmem.paged _ _ (hpage i hlo hhi) hfirst
  · exact .inr fun i hlo hhi hi => hfirst (hmem.paged _ _ (hpage i hlo hhi).symm hi)

/-- One retry is filled when its stretch is mapped, and no part of the stretch is otherwise. -/
theorem PagedReads.retry (hmem : PagedReads target regions mem) {addr off boundary : ℕ}
    (hboundary : (checkedAdd addr off >>= (checkedNextMultipleOf · page)) = some boundary)
    (len : ℕ) (world : σ) :
    let stop := min (max (boundary - addr) (off + 1)) len
    ((∀ i, off ≤ i → i < stop → Mapped regions (addr + i)) ∧
      ∃ buf world', target.read world (addr + off) (stop - off) = (.ok buf, world') ∧
        buf.val = memBytes mem (addr + off) (stop - off)) ∨
      ∀ i, off ≤ i → i < stop → ¬ Mapped regions (addr + i) := by
  rcases hmem.uniform fun i hlo hhi => same_page hboundary hlo hhi with hall | hnone
  · refine .inl ⟨hall, hmem.fills world (addr + off) _ fun i hi => ?_⟩
    rw [Nat.add_assoc]
    exact hall (off + i) (by omega) (by omega)
  · exact .inr hnone

/-- No retry leaves out a mapped byte. -/
theorem PagedReads.retriesComplete (hmem : PagedReads target regions mem) (addr len off : ℕ)
    (world : σ) : RetriesComplete target (Mapped regions) addr len off world := by
  fun_induction RetriesComplete target (Mapped regions) addr len off world with
  | case1 => trivial
  | case2 off world hlt boundary hboundary stop n ih =>
    refine ⟨fun i hlo hhi => ?_, ih⟩
    rcases hmem.retry hboundary len world with ⟨-, buf, world', hread, hbytes⟩ | hnone
    · have hn : n = stop - off := by
        rw [show n = transferred target world (addr + off) (stop - off) from rfl, transferred, hread]
        dsimp only
        rw [hbytes, memBytes_length]
      omega
    · exact hnone i (by omega) hhi
  | case3 => trivial

/-- A window of `len` bytes: its cover tells what is mapped, and covered bytes are the memory's. -/
structure Window (regions : List Region) (mem : ℕ → UInt8) (addr len : ℕ) (cover : Cover)
    (win : List UInt8) : Prop where
  length_eq : win.length = len
  has_iff : ∀ off need, 0 < need → (cover.has off need = true ↔
    off + need ≤ len ∧ ∀ i, off ≤ i → i < off + need → Mapped regions (addr + i))
  shows : Shows regions mem addr len win
  has_lt : ∀ off need, 0 < need → cover.has off need = true → off < cover.limit

/-- Covered bytes are the memory's. -/
theorem Window.bytes {addr len : ℕ} {cover : Cover} {win : List UInt8}
    (h : Window regions mem addr len cover win) {off need : ℕ} (hpos : 0 < need)
    (hhas : cover.has off need = true) :
    off + need ≤ win.length ∧ (win.drop off).take need = memBytes mem (addr + off) need := by
  obtain ⟨hbound, hmapped⟩ := (h.has_iff off need hpos).mp hhas
  have hlen := h.length_eq
  exact ⟨by omega, take_drop_eq_memBytes fun i hlo hhi =>
    h.shows i (by omega) (hmapped i hlo hhi)⟩

theorem full_window {addr len : ℕ} (hmax : len ≤ usizeMax)
    (hall : ∀ i < len, Mapped regions (addr + i)) {win : List UInt8} (hlen : win.length = len) :
    Window regions mem addr len (.full len) (overwrite win 0 (memBytes mem addr len)) := by
  have hcopied : overwrite win 0 (memBytes mem addr len) = memBytes mem addr len := by
    rw [overwrite, List.take_zero, List.nil_append, memBytes_length, Nat.zero_add,
      List.drop_of_length_le (by omega), List.append_nil]
  refine ⟨by rw [hcopied, memBytes_length], fun off need hpos => ?_, fun i hi _ => ?_,
    fun off need hpos hhas => ?_⟩
  · rw [full_has_iff hmax]
    exact ⟨fun hle => ⟨hle, fun i hlo hhi => hall i (by omega)⟩, fun h => h.1⟩
  · rw [hcopied, List.getElem?_eq_getElem (by rw [memBytes_length]; exact hi)]
    simp [memBytes]
  · have hle := (full_has_iff hmax).mp hhas
    show off < len
    omega

theorem sparse_window {addr len : ℕ} (hmax : len ≤ usizeMax) {spans : List (ℕ × ℕ)}
    {win : List UInt8}
    (hruns : Runs (fun i => Mapped regions (addr + i)) len spans) (hlen : win.length = len)
    (hshows : Shows regions mem addr len win) :
    Window regions mem addr len (.sparse spans) win := by
  refine ⟨hlen, fun off need hpos => ?_, hshows, fun off need hpos h => ?_⟩
  · rw [Cover.has_iff]
    dsimp only
    rw [hruns.contains_iff hpos]
    constructor
    · exact fun h => h.2
    · exact fun h => ⟨h.1.trans hmax, h⟩
  · obtain ⟨_, s, hs, hlo, hhi⟩ := (Cover.has_iff _ off need).mp h
    have hlast := List.getLast?_eq_some_getLast (List.ne_nil_of_mem hs)
    have hle := hruns.le_last hs hlast
    show off < spans.getLast?.elim 0 Prod.snd
    rw [hlast]
    show off < (spans.getLast _).2
    omega

/-- The page by page retry, as a window. -/
theorem pages_window (hmem : PagedReads target regions mem) {addr : ℕ} {win : List UInt8}
    (hmax : win.length ≤ usizeMax) {world world' : σ} {spans : List (ℕ × ℕ)} {win' : List UInt8}
    (h : pageWalk target addr win.length 0 [] win world = (some (spans, win'), world')) :
    Window regions mem addr win.length (.sparse spans) win' := by
  obtain ⟨hruns, -, hall⟩ := pageWalk_spans 0 [] win world (Nat.zero_le _) Runs.nil h
  obtain ⟨hlen, hheld⟩ := pageWalk_holds hmem.short 0 [] win world rfl
    (fun s hs => absurd hs List.not_mem_nil) h
  have hcontained := hall.mp (hmem.retriesComplete addr win.length 0 world)
  have hmapped : Runs (fun i => Mapped regions (addr + i)) win.length spans := by
    refine hruns.congr fun i hi => ⟨?_, hcontained i (Nat.zero_le _) hi⟩
    rintro ⟨s, hs, hlo, hhi⟩
    exact (hheld s hs).reads i hlo hhi
  refine sparse_window hmax hmapped hlen fun i hi hread => ?_
  obtain ⟨s, hs, hlo, hhi⟩ := hcontained i (Nat.zero_le _) hi hread
  exact (hheld s hs).shows i hlo hhi

theorem readWindow_window (hmem : PagedMemory target regions mem) {addr : ℕ} {win : List UInt8}
    (hmax : win.length ≤ usizeMax) {world world' : σ} {cover : Cover} {win' : List UInt8}
    (h : readWindow target addr win world = (some (cover, win'), world')) :
    Window regions mem addr win.length cover win' := by
  rcases readWindow_cases h with
    ⟨buf, world₁, hread, hsome, rfl, rfl⟩ | ⟨-, spans, rfl, hwalk⟩
  · have hall : ∀ i < win.length, Mapped regions (addr + i) := by
      by_contra hhole
      have hempty := hmem.withholds world addr win.length (by simpa using hhole) buf world₁ hread
      rw [hempty, List.length_nil] at hsome
      exact hhole fun i hi => by omega
    obtain ⟨buf', world₂, hread', hbytes⟩ := hmem.fills world addr win.length hall
    rw [hread, Prod.mk.injEq, Except.ok.injEq] at hread'
    obtain ⟨rfl, -⟩ := hread'
    rw [hbytes, memBytes_length]
    exact full_window hmax hall rfl
  · exact pages_window hmem.reads hmax hwalk

end ReadWindow

end Nemclass.Scan
