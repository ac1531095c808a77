import Mathlib.Algebra.BigOperators.Group.List.Basic
import Nemclass.Kernel.TransferWrite

/-! The memory backends of a process and its typed reads: a batch of them brings the values that
they bring one by one. -/
namespace Nemclass.Process
open Usize MappedPrefix Scan Kernel

/-- The memory of the client and that of the target. -/
structure Client where
  user : UserMem
  target : TargetMem

abbrev Transfer := Client → Except Scan.Error ℕ × Client

/-- A `MemoryBackend`: each call returns how many bytes went through. -/
structure MemoryBackend where
  readBuf : ℕ → Buffer → Transfer
  readBufBatch : List (ℕ × Buffer) → Transfer
  writeBuf : ℕ → Buffer → Transfer
  writeBufBatch : List (ℕ × Buffer) → Transfer

/-- The loop of a batch: one transfer after another, when `total` bytes are through. -/
def transfers {β : Type} (f : β → Transfer) (total : ℕ) : List β → Transfer
  | [], c => (.ok total, c)
  | part :: parts, c =>
    match f part c with
    | (.error e, c) => (.error e, c)
    | (.ok n, c) => transfers f (total + n) parts c

section Buffers

def headOf (b : Buffer) (n : ℕ) : Buffer :=
  ⟨b.ptr, min n b.len, by have := b.fits; omega⟩

def tailOf (b : Buffer) (n : ℕ) : Buffer :=
  ⟨b.ptr + min n b.len, b.len - n, by have := b.fits; omega⟩

/-- `slice::chunks` and `chunks_mut` -/
def chunks (size : ℕ) (b : Buffer) : List Buffer :=
  if 0 < size ∧ 0 < b.len then headOf b size :: chunks size (tailOf b size) else []
termination_by b.len
decreasing_by simp only [tailOf]; omega

theorem chunks_cons {size n : ℕ} {b : Buffer} (hsize : 0 < size) (hlen : b.len = size * (n + 1)) :
    ∃ first rest : Buffer, chunks size b = first :: chunks size rest ∧
      first.ptr = b.ptr ∧ first.len = size ∧ rest.ptr = b.ptr + size ∧ rest.len = size * n := by
  have hle : size ≤ b.len := hlen ▸ Nat.le_mul_of_pos_right size (Nat.succ_pos n)
  refine ⟨headOf b size, tailOf b size, ?_, rfl, ?_, ?_, ?_⟩
  · rw [chunks, if_pos ⟨hsize, by omega⟩]
  · simp only [headOf, Nat.min_eq_left hle]
  · simp only [tailOf, Nat.min_eq_left hle]
  · simp only [tailOf, hlen, Nat.mul_succ, Nat.add_sub_cancel]

theorem chunks_nil {size : ℕ} {b : Buffer} (hlen : b.len = 0) : chunks size b = [] := by
  rw [chunks, if_neg (by omega)]

end Buffers

/-- `Process::read` of a type of as many bytes as `value` has. -/
def MemoryBackend.read (B : MemoryBackend) (address : ℕ) (value : Buffer) (c : Client) :
    Except Scan.Error (List UInt8) × Client :=
  let c := { c with user := store c.user value.ptr (.replicate value.len 0) }
  match B.readBuf address value c with
  | (.error e, c) => (.error e, c)
  | (.ok read, c) =>
    if read ≠ value.len then (.error (.partialTransfer value.len read), c)
    else (.ok (memBytes c.user value.ptr value.len), c)

/-- `Process::read_batch` of a type of `size` bytes; `alloc` is where the vector comes to lie. -/
def MemoryBackend.readBatch (B : MemoryBackend) (size : ℕ) (addresses : List ℕ)
    (alloc : ℕ → Buffer) (c : Client) : Except Scan.Error (List (List UInt8)) × Client :=
  if size = 0 then (.ok (.replicate addresses.length []), c)
  else
    match checked (size * addresses.length) with
    | none => (.error .invalidAddress, c)
    | some requested =>
      let bytes := alloc requested
      let c := { c with user := store c.user bytes.ptr (.replicate requested 0) }
      match B.readBufBatch (addresses.zip (chunks (max size 1) bytes)) c with
      | (.error e, c) => (.error e, c)
      | (.ok read, c) =>
        if read ≠ requested then (.error (.partialTransfer requested read), c)
        else (.ok ((chunks (max size 1) bytes).map fun b => memBytes c.user b.ptr b.len), c)

/-- What a range holds, when it is mapped throughout. -/
def wholeRead (target : TargetMem) (addr len : ℕ) : Option (List UInt8) :=
  if (mappedPrefix target addr len).length = len then some (mappedPrefix target addr len) else none

/-- A region's buffer takes up what is there. -/
def Client.fill (c : Client) (region : ℕ × Buffer) : Client :=
  { c with user := store c.user region.2.ptr (mappedPrefix c.target region.1 region.2.len) }

/-- Of a target's memory, reads bring exactly what is asked for where all of that is mapped, and do
not claim to elsewhere. -/
structure MemoryBackend.Reads (B : MemoryBackend) (target : TargetMem) : Prop where
  whole : ∀ (region : ℕ × Buffer) (c : Client), c.target = target →
    (mappedPrefix target region.1 region.2.len).length = region.2.len →
      B.readBuf region.1 region.2 c = (.ok region.2.len, c.fill region)
  short : ∀ (region : ℕ × Buffer) (c : Client), c.target = target →
    (B.readBuf region.1 region.2 c).1 = .ok region.2.len →
      (mappedPrefix target region.1 region.2.len).length = region.2.len
  wholeBatch : ∀ (regions : List (ℕ × Buffer)) (c : Client), c.target = target →
    (∀ r ∈ regions, (mappedPrefix target r.1 r.2.len).length = r.2.len) →
      B.readBufBatch regions c = (.ok (regions.map (·.2.len)).sum, regions.foldl Client.fill c)
  shortBatch : ∀ (regions : List (ℕ × Buffer)) (c : Client), c.target = target →
    (B.readBufBatch regions c).1 = .ok (regions.map (·.2.len)).sum →
      ∀ r ∈ regions, (mappedPrefix target r.1 r.2.len).length = r.2.len

section Transfers

variable {β : Type} {f : β → Transfer} {P : Client → Prop}

/-- Transfers that all bring what they are asked for. -/
theorem transfers_whole (want : β → ℕ) (eff : Client → β → Client) {parts : List β} {total : ℕ}
    {c : Client} (hc : P c) (h : ∀ p ∈ parts, ∀ c, P c → f p c = (.ok (want p), eff c p) ∧ P (eff c p)) :
    transfers f total parts c = (.ok (total + (parts.map want).sum), parts.foldl eff c) := by
  induction parts generalizing total c with
  | nil => rfl
  | cons p parts ih =>
    obtain ⟨hp, hkeeps⟩ := h p List.mem_cons_self c hc
    simp only [transfers, hp]
    rw [ih hkeeps fun q hq => h q (List.mem_cons_of_mem p hq), List.map_cons, List.sum_cons,
      Nat.add_assoc, List.foldl_cons]

/-- The sum is all that was asked for only if each transfer brought all. -/
theorem transfers_short (want : β → ℕ) (good : β → Prop) {parts : List β} {total n : ℕ}
    {c : Client} (hc : P c)
    (h : ∀ p ∈ parts, ∀ c, P c → P (f p c).2 ∧
      ∀ n, (f p c).1 = .ok n → n ≤ want p ∧ (n = want p → good p))
    (hn : (transfers f total parts c).1 = .ok n) :
    n ≤ total + (parts.map want).sum ∧ (n = total + (parts.map want).sum → ∀ p ∈ parts, good p) := by
  induction parts generalizing total c with
  | nil =>
    cases hn
    exact ⟨Nat.le_refl _, fun _ p hp => absurd hp List.not_mem_nil⟩
  | cons p parts ih =>
    obtain ⟨hkeeps, hp⟩ := h p List.mem_cons_self c hc
    simp only [transfers] at hn
    generalize f p c = r at *
    obtain ⟨_ | k, c'⟩ := r
    · cases hn
    · obtain ⟨hk, hgood⟩ := hp k rfl
      obtain ⟨hle, hall⟩ := ih hkeeps (fun q hq => h q (List.mem_cons_of_mem p hq)) hn
      rw [List.map_cons, List.sum_cons]
      refine ⟨by omega, fun hsum q hq => ?_⟩
      rcases List.mem_cons.mp hq with rfl | hq
      · exact hgood (by omega)
      · exact hall (by omega) q hq

end Transfers

section Typed

variable {B : MemoryBackend} {target : TargetMem}

theorem memBytes_store (user : UserMem) (ptr : ℕ) (vs : List UInt8) :
    memBytes (store user ptr vs) ptr vs.length = vs := by
  refine List.ext_getElem (memBytes_length _ _ _) fun i hi hi' => ?_
  simp only [memBytes, List.getElem_map, List.getElem_range]
  exact store_get user ptr vs hi'

/-- A read succeeds exactly where the whole of it is mapped, and brings what is there. -/
theorem read_eq (hB : B.Reads target) (address : ℕ) (value : Buffer) {c : Client}
    (hc : c.target = target) :
    (B.read address value c).1.toOption = wholeRead target address value.len := by
  have hwhole := hB.whole (address, value)
    { c with user := store c.user value.ptr (.replicate value.len 0) } hc
  have hshort := hB.short (address, value)
    { c with user := store c.user value.ptr (.replicate value.len 0) } hc
  rw [MemoryBackend.read, wholeRead]
  dsimp only at hwhole hshort ⊢
  by_cases hmapped : (mappedPrefix target address value.len).length = value.len
  · rw [if_pos hmapped, hwhole hmapped]
    simp only [ne_eq, not_true_eq_false, if_false, Client.fill, hc]
    have hbytes := memBytes_store (store c.user value.ptr (.replicate value.len 0)) value.ptr
      (mappedPrefix target address value.len)
    rw [hmapped] at hbytes
    rw [hbytes]
    rfl
  · rw [if_neg hmapped]
    generalize B.readBuf address value _ = r at *
    obtain ⟨e | read, c'⟩ := r
    · rfl
    · have hne : read ≠ value.len := fun h => hmapped (hshort (by rw [h]))
      simp only [if_pos hne]
      rfl

theorem fill_zip_chunks {size : ℕ} (hsize : 0 < size) {addresses : List ℕ} {b : Buffer}
    (hlen : b.len = size * addresses.length) {c : Client}
    (hall : ∀ a ∈ addresses, (mappedPrefix c.target a size).length = size) :
    (addresses.zip (chunks size b)).foldl Client.fill c =
      { c with user := store c.user b.ptr (addresses.flatMap (mappedPrefix c.target · size)) } := by
  induction addresses generalizing b c with
  | nil => simp [store_nil]
  | cons a addresses ih =>
    obtain ⟨first, rest, hchunks, hfirst, hsame, hptr, hrest⟩ := chunks_cons hsize hlen
    have ha := hall a List.mem_cons_self
    rw [hchunks, List.zip_cons_cons, List.foldl_cons,
      ih (c := c.fill (a, first)) hrest fun a' ha' => hall a' (List.mem_cons_of_mem a ha')]
    simp only [Client.fill, List.flatMap_cons, hfirst, hsame]
    have happend := store_append c.user b.ptr (mappedPrefix c.target a size)
      (addresses.flatMap (mappedPrefix c.target · size))
    rw [ha] at happend
    rw [hptr, happend]

theorem length_flatMap_of_forall {α β : Type} {f : α → List β} {xs : List α} {k : ℕ}
    (h : ∀ x ∈ xs, (f x).length = k) : (xs.flatMap f).length = k * xs.length := by
  induction xs with
  | nil => rfl
  | cons x xs ih =>
    rw [List.flatMap_cons, List.length_append, h x List.mem_cons_self,
      ih fun y hy => h y (List.mem_cons_of_mem x hy), List.length_cons, Nat.mul_succ, Nat.add_comm]

theorem values_of_flatten {size : ℕ} (hsize : 0 < size) {user : UserMem}
    {values : List (List UInt8)} {b : Buffer} (hlen : b.len = size * values.length)
    (hvalues : ∀ v ∈ values, v.length = size) (hbytes : memBytes user b.ptr b.len = values.flatten) :
    (chunks size b).map (fun b => memBytes user b.ptr b.len) = values := by
  induction values generalizing b with
  | nil => rw [chunks_nil hlen, List.map_nil]
  | cons v values ih =>
    obtain ⟨first, rest, hchunks, hfirst, hsame, hptr, hrest⟩ := chunks_cons hsize hlen
    rw [hlen, List.length_cons, Nat.mul_succ, Nat.add_comm, memBytes_add, List.flatten_cons]
      at hbytes
    obtain ⟨hv, hvs⟩ := List.append_inj hbytes
      (by rw [memBytes_length, hvalues v List.mem_cons_self])
    rw [hchunks, List.map_cons, hfirst, hsame, hv, ih hrest (fun w hw => hvalues w (List.mem_cons_of_mem v hw))
      (by rw [hptr, hrest, hvs])]

theorem map_len_zip_chunks {size : ℕ} (hsize : 0 < size) {addresses : List ℕ} {b : Buffer}
    (hlen : b.len = size * addresses.length) :
    ((addresses.zip (chunks size b)).map (·.2.len)).sum = b.len ∧
      ∀ P : ℕ → ℕ → Prop,
        (∀ r ∈ addresses.zip (chunks size b), P r.1 r.2.len) ↔ ∀ a ∈ addresses, P a size := by
  induction addresses generalizing b with
  | nil => simp [hlen]
  | cons a addresses ih =>
    obtain ⟨first, rest, hchunks, -, hsame, -, hrest⟩ := chunks_cons hsize hlen
    obtain ⟨hsum, hiff⟩ := ih hrest
    rw [hchunks, List.zip_cons_cons]
    refine ⟨?_, fun P => ?_⟩
    · rw [List.map_cons, List.sum_cons, hsum, hsame, hrest, hlen, List.length_cons, Nat.mul_succ,
        Nat.add_comm]
    · rw [List.forall_mem_cons, List.forall_mem_cons, hsame, hiff]

theorem mapM_wholeRead (target : TargetMem) (size : ℕ) (addresses : List ℕ) :
    addresses.mapM (wholeRead target · size) =
      if ∀ a ∈ addresses, (mappedPrefix target a size).length = size then
        some (addresses.map (mappedPrefix target · size))
      else none := by
  induction addresses with
  | nil => simp
  | cons a addresses ih =>
    rw [List.mapM_cons, ih, wholeRead]
    simp only [List.forall_mem_cons]
    by_cases ha : (mappedPrefix target a size).length = size
    · by_cases hrest : ∀ a ∈ addresses, (mappedPrefix target a size).length = size
      · rw [if_pos ha, if_pos hrest, if_pos ⟨ha, hrest⟩]
        rfl
      · rw [if_pos ha, if_neg hrest, if_neg (not_and_of_not_right _ hrest)]
        rfl
    · rw [if_neg ha, if_neg (not_and_of_not_left _ ha)]
      rfl

/-- A batch brings the values of all its addresses, or fails where one of them is not mapped
throughout. -/
theorem readBatch_eq (hB : B.Reads target) {size : ℕ} {addresses : List ℕ} {alloc : ℕ → Buffer}
    (hfits : size * addresses.length ≤ usizeMax)
    (halloc : (alloc (size * addresses.length)).len = size * addresses.length) {c : Client}
    (hc : c.target = target) :
    (B.readBatch size addresses alloc c).1.toOption =
      addresses.mapM (wholeRead target · size) := by
  rw [mapM_wholeRead, MemoryBackend.readBatch]
  by_cases hzero : size = 0
  · rw [if_pos hzero, hzero, if_pos (show ∀ a ∈ addresses, (mappedPrefix target a 0).length = 0
      from fun _ _ => rfl)]
    simp only [mappedPrefix, List.map_const']
    rfl
  · have hsize : 0 < size := Nat.pos_of_ne_zero hzero
    obtain ⟨hsum, hforall⟩ := map_len_zip_chunks hsize halloc
    have hiff := hforall fun a len => (mappedPrefix target a len).length = len
    rw [if_neg hzero, checked_of_le hfits, Nat.max_eq_left hsize]
    dsimp only
    generalize alloc (size * addresses.length) = bytes at *
    have hwhole := hB.wholeBatch (addresses.zip (chunks size bytes))
      { c with user := store c.user bytes.ptr (.replicate (size * addresses.length) 0) } hc
    have hshort := hB.shortBatch (addresses.zip (chunks size bytes))
      { c with user := store c.user bytes.ptr (.replicate (size * addresses.length) 0) } hc
    rw [hsum, halloc] at hwhole hshort
    by_cases hall : ∀ a ∈ addresses, (mappedPrefix target a size).length = size
    · have hvalues : ∀ v ∈ addresses.map (mappedPrefix target · size), v.length = size :=
        fun v hv => by
          obtain ⟨a, ha, rfl⟩ := List.mem_map.mp hv
          exact hall a ha
      rw [if_pos hall, hwhole (hiff.mpr hall)]
      simp only [ne_eq, not_true_eq_false, if_false]
      rw [fill_zip_chunks hsize halloc (by rwa [hc])]
      dsimp only
      rw [hc, values_of_flatten hsize (by rw [List.length_map, halloc]) hvalues]
      · rfl
      · rw [halloc, ← length_flatMap_of_forall hall, memBytes_store, List.flatMap_def]
    · rw [if_neg hall]
      generalize B.readBufBatch _ _ = r at *
      obtain ⟨e | read, c'⟩ := r
      · rfl
      · have hne : read ≠ size * addresses.length :=
          fun h => hall (hiff.mp (hshort (by rw [h])))
        simp only [if_pos hne]
        rfl

end Typed

end Nemclass.Process
