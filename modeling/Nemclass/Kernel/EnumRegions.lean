import Nemclass.Kernel.Debugger
import Nemclass.Scan.Target

/-! Enumeration of a target's memory areas: the module's walk over the list, under its lock, and
the client's passes, between which the target changes the list as it likes. -/
namespace Nemclass.Kernel
open Usize

/-- `struct vm_area_struct`; `pgoff` is that of the file it maps, if it maps one. -/
structure Vma where
  vmStart : UInt64
  vmEnd : UInt64
  read : Bool
  write : Bool
  exec : Bool
  pgoff : Option UInt64
deriving DecidableEq, Repr

/-- The areas of an address space: not empty, and one after the other. -/
structure Mm where
  vmas : List Vma
  nonempty : ∀ v ∈ vmas, v.vmStart < v.vmEnd
  ascending : vmas.Pairwise fun a b => a.vmEnd ≤ b.vmStart

/-- `find_vma`: the first area that ends after the address. -/
def Mm.findVma (mm : Mm) (addr : UInt64) : Option Vma := mm.vmas.find? (addr < ·.vmEnd)

/-- `struct nemclass_region` -/
structure RegionRecord where
  start : UInt64
  stop : UInt64
  fileOff : UInt64
  prot : UInt32
deriving DecidableEq, Repr

def RegionRecord.zero : RegionRecord := ⟨0, 0, 0, 0⟩

def pageShift : UInt64 := 12

def Vma.record (v : Vma) : RegionRecord where
  start := v.vmStart
  stop := v.vmEnd
  fileOff := (v.pgoff.map (· <<< pageShift)).getD 0
  prot := (if v.read then 1 else 0) ||| (if v.write then 2 else 0) ||| (if v.exec then 4 else 0)

def wrapU32 (n : ℕ) : ℕ := n % 2 ^ 32

/-- The user's buffer and the two counters, which are 32 bits wide. -/
structure EnumWalk where
  buf : List RegionRecord
  count : ℕ
  total : ℕ
deriving DecidableEq, Repr

/-- One area: copied out while there is room, and counted. There is no result where it cannot be
copied to the user. -/
def enumStep (max : ℕ) (fault : ℕ → Bool) (reg : RegionRecord) (w : EnumWalk) : Option EnumWalk :=
  if w.count < max then
    if fault w.count then none
    else some ⟨w.buf.set w.count reg, wrapU32 (w.count + 1), wrapU32 (w.total + 1)⟩
  else some { w with total := wrapU32 (w.total + 1) }

/-- The loop of `nemclass_do_enum_regions`, from an address on. -/
def enumWalk (mm : Mm) (max : ℕ) (fault : ℕ → Bool) (addr : UInt64) (w : EnumWalk) :
    Option EnumWalk :=
  match mm.findVma addr with
  | none => some w
  | some vma =>
    match enumStep max fault vma.record w with
    | none => none
    | some w => if _h : vma.vmEnd ≤ addr then some w else enumWalk mm max fault vma.vmEnd w
termination_by 2 ^ 64 - addr.toNat
decreasing_by
  have hlt := UInt64.lt_iff_toNat_lt.mp (UInt64.not_le.mp _h)
  have hmax := vma.vmEnd.toNat_lt
  omega

/-- What one enumeration meets: who calls, whether the request can be copied in, whether the task
and its address space are still there, which records cannot be copied to the user, and whether
the request can be copied out. -/
structure Meeting where
  session : Session
  env : Env
  copyIn : Bool
  task : Bool
  mm : Option Mm
  fault : ℕ → Bool
  copyOut : Bool

/-- `nemclass_do_enum_regions` -/
def doEnumRegions (m : Meeting) (max : ℕ) (buf : List RegionRecord) : Except ℤ EnumWalk :=
  if !m.copyIn then .error (-efault)
  else if !m.task then .error (-esrch)
  else
    match m.mm with
    | none => .error (-esrch)
    | some mm =>
      match enumWalk mm max m.fault 0 ⟨buf, 0, 0⟩ with
      | none => .error (-efault)
      | some w => if m.copyOut then .ok w else .error (-efault)

def ioctlEnumRegions (key : List UInt8) (m : Meeting) (max : ℕ) (buf : List RegionRecord) :
    Except ℤ EnumWalk :=
  match (ioctl key m.session ⟨m.env.policy, m.env.caller, .privileged .enumRegions⟩).1 with
  | .returned ret => .error ret
  | .handled _ => doEnumRegions m max buf

/-- The flags of `Protection`, and what is kept of a byte. -/
def protR : UInt8 := 0b001
def protW : UInt8 := 0b010
def protX : UInt8 := 0b100
def protCow : UInt8 := 0b1000

def fromBitsTruncate (bits : UInt8) : UInt8 := bits &&& (protR ||| protW ||| protX ||| protCow)

structure MemoryRegion where
  start : ℕ
  stop : ℕ
  prot : UInt8
  name : Option String
deriving DecidableEq, Repr

def RegionRecord.region (r : RegionRecord) : MemoryRegion :=
  ⟨r.start.toNat, r.stop.toNat, fromBitsTruncate r.prot.toUInt8, none⟩

/-- The sized passes, `attempts` of them at most; the meetings are numbered from the probe on. -/
def sizedPasses (key : List UInt8) (meets : ℕ → Meeting) :
    ℕ → ℕ → ℕ → Except Scan.Error (List MemoryRegion)
  | 0, _, _ => .error .enumerationUnstable
  | attempts + 1, i, cap =>
    match ioctlEnumRegions key (meets i) (wrapU32 cap) (List.replicate cap .zero) with
    | .error ret => .error (.errno (-ret))
    | .ok arg =>
      if cap < arg.total then
        sizedPasses key meets attempts (i + 1) (saturatingAdd arg.total 16)
      else .ok ((arg.buf.take (min arg.count cap)).map RegionRecord.region)

/-- `KernelClient::enum_regions` -/
def enumRegions (key : List UInt8) (meets : ℕ → Meeting) :
    Except Scan.Error (List MemoryRegion) :=
  match ioctlEnumRegions key (meets 0) 0 [] with
  | .error ret => .error (.errno (-ret))
  | .ok probe => sizedPasses key meets 4 1 (max (saturatingAdd probe.total 16) 16)

/-- The area as it is: its bounds, and a flag for each right. -/
def Vma.region (v : Vma) : MemoryRegion where
  start := v.vmStart.toNat
  stop := v.vmEnd.toNat
  prot := (if v.read then protR else 0) ||| (if v.write then protW else 0) |||
    (if v.exec then protX else 0)
  name := none

theorem region_record (v : Vma) : v.record.region = v.region := by
  have hprot : ∀ read write exec : Bool,
      fromBitsTruncate ((if read then (1 : UInt32) else 0) ||| (if write then 2 else 0) |||
        (if exec then 4 else 0)).toUInt8 =
      (if read then protR else 0) ||| (if write then protW else 0) ||| (if exec then protX else 0) := by
    decide
  simp only [RegionRecord.region, Vma.record, Vma.region, hprot]

section Walk
variable {vmas : List Vma} {max cap : ℕ} {fault : ℕ → Bool}

/-- The first `n` areas have been listed, as far as there is room. -/
structure Listed (vmas : List Vma) (max cap n : ℕ) (w : EnumWalk) : Prop where
  total : w.total = n
  count : w.count = min n max
  length : w.buf.length = cap
  records : w.buf.take w.count = (vmas.take w.count).map Vma.record

theorem listed_zero (vmas : List Vma) (max : ℕ) (buf : List RegionRecord) :
    Listed vmas max buf.length 0 ⟨buf, 0, 0⟩ := ⟨rfl, (Nat.zero_min max).symm, rfl, rfl⟩

theorem Listed.step {n : ℕ} {w w' : EnumWalk} {v : Vma} (h : Listed vmas max cap n w)
    (hv : vmas[n]? = some v) (hlen : vmas.length < 2 ^ 32) (hmax : max ≤ cap)
    (hstep : enumStep max fault v.record w = some w') : Listed vmas max cap (n + 1) w' := by
  have hn : n < vmas.length := (List.getElem?_eq_some_iff.mp hv).1
  have htotal : wrapU32 (w.total + 1) = n + 1 := by
    rw [h.total]
    exact Nat.mod_eq_of_lt (by omega)
  have hcount := h.count
  unfold enumStep at hstep
  split at hstep
  · rename_i hroom
    split at hstep
    · cases hstep
    · cases hstep
      have hw : w.count = n := by omega
      have hnext : wrapU32 (w.count + 1) = n + 1 := by
        rw [hw]
        exact Nat.mod_eq_of_lt (by omega)
      have hset : n < w.buf.length := by
        rw [h.length]
        omega
      have hkept : n + 1 = min (n + 1) max := by omega
      refine ⟨htotal, hnext.trans hkept, by rw [List.length_set, h.length], ?_⟩
      have hrecords := h.records
      rw [hw] at hrecords
      rw [hnext, hw, List.take_succ_eq_append_getElem (by rwa [List.length_set]),
        List.take_set_of_le le_rfl, hrecords, List.getElem_set_self,
        List.take_succ_eq_append_getElem hn, List.map_append]
      rw [List.getElem?_eq_some_iff] at hv
      obtain ⟨_, rfl⟩ := hv
      rfl
  · rename_i hfull
    cases hstep
    have hkept : min n max = min (n + 1) max := by omega
    exact ⟨htotal, hcount.trans hkept, h.length, h.records⟩

/-- An area that the walk has not reached is found; the ones it has passed are not. -/
theorem findVma_eq {mm : Mm} {n : ℕ} {addr : UInt64}
    (hbefore : ∀ v ∈ mm.vmas.take n, v.vmEnd ≤ addr)
    (hafter : ∀ v ∈ mm.vmas.drop n, addr < v.vmEnd) : mm.findVma addr = mm.vmas[n]? := by
  rw [Mm.findVma]
  conv_lhs => rw [← List.take_append_drop n mm.vmas]
  rw [List.find?_append, List.find?_eq_none.mpr fun v hv => by simpa using hbefore v hv,
    Option.none_or, ← List.head?_drop]
  cases hdrop : mm.vmas.drop n with
  | nil => rfl
  | cons v rest =>
    rw [hdrop] at hafter
    rw [List.find?_cons_of_pos (by simpa using hafter v List.mem_cons_self), List.head?_cons]

/-- The walk lists every area that is left. -/
theorem Listed.walk {mm : Mm} {n : ℕ} {addr : UInt64} {w w' : EnumWalk}
    (h : Listed mm.vmas max cap n w) (hn : n ≤ mm.vmas.length)
    (hbefore : ∀ v ∈ mm.vmas.take n, v.vmEnd ≤ addr)
    (hafter : ∀ v ∈ mm.vmas.drop n, addr < v.vmEnd) (hlen : mm.vmas.length < 2 ^ 32)
    (hmax : max ≤ cap) (hwalk : enumWalk mm max fault addr w = some w') :
    Listed mm.vmas max cap mm.vmas.length w' := by
  induction hleft : mm.vmas.length - n generalizing n addr w with
  | zero =>
    obtain rfl : n = mm.vmas.length := by omega
    rw [enumWalk, findVma_eq hbefore hafter, List.getElem?_eq_none le_rfl] at hwalk
    cases hwalk
    exact h
  | succ left ih =>
    have hlt : n < mm.vmas.length := by omega
    have hget : mm.vmas[n]? = some mm.vmas[n] := List.getElem?_eq_getElem hlt
    have hdrop : mm.vmas.drop n = mm.vmas[n] :: mm.vmas.drop (n + 1) :=
      List.drop_eq_getElem_cons hlt
    rw [enumWalk, findVma_eq hbefore hafter, hget] at hwalk
    dsimp only at hwalk
    cases hstep : enumStep max fault mm.vmas[n].record w with
    | none =>
      rw [hstep] at hwalk
      cases hwalk
    | some next =>
      have hends : addr < mm.vmas[n].vmEnd := hafter _ (by rw [hdrop]; exact List.mem_cons_self)
      rw [hstep] at hwalk
      dsimp only at hwalk
      rw [dif_neg (UInt64.not_le.mpr hends)] at hwalk
      refine ih (h.step hget hlen hmax hstep) hlt (fun v hv => ?_) (fun v hv => ?_) hwalk (by omega)
      · rw [List.take_succ_eq_append_getElem hlt, List.mem_append, List.mem_singleton] at hv
        rcases hv with hv | rfl
        · exact UInt64.le_of_lt (UInt64.lt_of_le_of_lt (hbefore v hv) hends)
        · exact UInt64.le_refl _
      · have hlater : ∀ v ∈ mm.vmas.drop (n + 1), mm.vmas[n].vmEnd ≤ v.vmStart := by
          have hsorted := mm.ascending.sublist (List.drop_sublist n mm.vmas)
          rw [hdrop, List.pairwise_cons] at hsorted
          exact hsorted.1
        exact UInt64.lt_of_le_of_lt (hlater v hv)
          (mm.nonempty v ((List.drop_sublist _ _).subset hv))

/-- An enumeration that succeeds reports the whole list of that moment. -/
theorem listed_of_ioctl {key : List UInt8} {m : Meeting} {buf : List RegionRecord} {w : EnumWalk}
    (hsmall : ∀ mm, m.mm = some mm → mm.vmas.length < 2 ^ 32 - 16) (hmax : max ≤ buf.length)
    (h : ioctlEnumRegions key m max buf = .ok w) :
    ∃ mm, m.mm = some mm ∧ Listed mm.vmas max buf.length mm.vmas.length w := by
  unfold ioctlEnumRegions doEnumRegions at h
  split at h
  · cases h
  · split at h
    · cases h
    · split at h
      · cases h
      · split at h
        · cases h
        · rename_i mm hmm
          split at h
          · cases h
          · rename_i hwalk
            split at h
            · cases h
              refine ⟨mm, hmm, (listed_zero mm.vmas max buf).walk (Nat.zero_le _) (by simp)
                (fun v hv => ?_) (lt_trans (hsmall mm hmm) (by decide)) hmax hwalk⟩
              exact UInt64.lt_of_le_of_lt UInt64.zero_le (mm.nonempty v (by simpa using hv))
            · cases h

end Walk

section Passes
variable (key : List UInt8) {meets : ℕ → Meeting}

/-- A pass whose buffer has room for the list gives all of it. -/
theorem Listed.regions {vmas : List Vma} {cap : ℕ} {w : EnumWalk}
    (h : Listed vmas cap cap vmas.length w) (hroom : w.total ≤ cap) :
    (w.buf.take (min w.count cap)).map RegionRecord.region = vmas.map Vma.region := by
  have hcount : w.count = vmas.length := by
    have := h.total
    have := h.count
    omega
  have hrecords := h.records
  rw [hcount, List.take_length] at hrecords
  rw [hcount, Nat.min_eq_left (by rwa [h.total] at hroom), hrecords, List.map_map]
  exact List.map_congr_left fun v _ => region_record v

/-- The list at the meeting, and `none` where the address space is gone. -/
def Meeting.vmas (m : Meeting) : List Vma := m.mm.elim [] Mm.vmas

theorem Meeting.vmas_eq {m : Meeting} {mm : Mm} (h : m.mm = some mm) : m.vmas = mm.vmas := by
  rw [Meeting.vmas, h, Option.elim_some]

theorem Meeting.length_vmas_lt {m : Meeting}
    (hsmall : ∀ mm, m.mm = some mm → mm.vmas.length < 2 ^ 32 - 16) :
    m.vmas.length < 2 ^ 32 - 16 := by
  cases hmm : m.mm with
  | none =>
    rw [Meeting.vmas, hmm]
    decide
  | some mm =>
    rw [m.vmas_eq hmm]
    exact hsmall mm hmm

/-- The buffer for the next pass. -/
theorem saturatingAdd_vmas {m : Meeting}
    (hsmall : ∀ mm, m.mm = some mm → mm.vmas.length < 2 ^ 32 - 16) :
    saturatingAdd m.vmas.length 16 = m.vmas.length + 16 := by
  have hlt := m.length_vmas_lt hsmall
  rw [saturatingAdd, Nat.min_eq_left]
  unfold usizeMax
  omega

/-- What the sized passes give: the list of a pass that had room for it, or every list had outgrown
the buffer that was sized for the one before. -/
theorem sizedPasses_spec (hsmall : ∀ i mm, (meets i).mm = some mm → mm.vmas.length < 2 ^ 32 - 16)
    (attempts i cap : ℕ) (hcap : cap = (meets i).vmas.length + 16) :
    (∀ v, sizedPasses key meets attempts (i + 1) cap = .ok v →
      ∃ j mm, i < j ∧ j ≤ i + attempts ∧ (meets j).mm = some mm ∧ v = mm.vmas.map Vma.region) ∧
    (sizedPasses key meets attempts (i + 1) cap = .error .enumerationUnstable →
      ∀ j, i ≤ j → j < i + attempts → (meets j).vmas.length + 16 < (meets (j + 1)).vmas.length) := by
  induction attempts generalizing i cap with
  | zero => exact ⟨nofun, fun _ j hij hj => absurd hj (by omega)⟩
  | succ attempts ih =>
    have hfits : cap < 2 ^ 32 := by
      have hlt := (meets i).length_vmas_lt (hsmall i)
      omega
    rw [sizedPasses, wrapU32, Nat.mod_eq_of_lt hfits]
    cases hpass : ioctlEnumRegions key (meets (i + 1)) cap (List.replicate cap .zero) with
    | error ret => exact ⟨nofun, nofun⟩
    | ok arg =>
      obtain ⟨mm, hmm, hlisted⟩ := listed_of_ioctl (hsmall (i + 1))
        (by rw [List.length_replicate]) hpass
      rw [List.length_replicate] at hlisted
      have htotal : arg.total = (meets (i + 1)).vmas.length := by
        rw [(meets (i + 1)).vmas_eq hmm, hlisted.total]
      dsimp only
      split
      · rename_i hgrew
        rw [htotal] at hgrew ⊢
        obtain ⟨hok, hunstable⟩ := ih (i + 1) _ (saturatingAdd_vmas (hsmall (i + 1)))
        refine ⟨fun v hv => ?_, fun hv j hij hj => ?_⟩
        · obtain ⟨j, mm, hlt, hle, hmm, hv⟩ := hok v hv
          exact ⟨j, mm, by omega, by omega, hmm, hv⟩
        · rcases Nat.eq_or_lt_of_le hij with rfl | hlt
          · rwa [← hcap]
          · exact hunstable hv j hlt (by omega)
      · rename_i hroom
        refine ⟨fun v hv => ?_, nofun⟩
        cases hv
        exact ⟨i + 1, mm, by omega, by omega, hmm, hlisted.regions (by omega)⟩

/-- Whatever the target does between the ioctls: what is returned is the whole list of memory areas,
in ascending order, as one of them found it; and the enumeration is given up only if each of four
sized passes met a list that had outgrown the buffer. -/
theorem enumRegions_snapshot (key : List UInt8) (meets : ℕ → Meeting)
    (hsmall : ∀ i mm, (meets i).mm = some mm → mm.vmas.length < 2 ^ 32 - 16) :
    (∀ v, enumRegions key meets = .ok v → v.Pairwise (fun a b => a.stop ≤ b.start) ∧
      ∃ i mm, i ≤ 4 ∧ (meets i).mm = some mm ∧ v = mm.vmas.map Vma.region) ∧
    (enumRegions key meets = .error .enumerationUnstable →
      ∀ i < 4, (meets i).vmas.length + 16 < (meets (i + 1)).vmas.length) := by
  unfold enumRegions
  cases hprobe : ioctlEnumRegions key (meets 0) 0 [] with
  | error ret => exact ⟨nofun, nofun⟩
  | ok probe =>
    obtain ⟨mm, hmm, hlisted⟩ := listed_of_ioctl (hsmall 0) (Nat.zero_le _) hprobe
    have hcap : max (saturatingAdd probe.total 16) 16 = (meets 0).vmas.length + 16 := by
      rw [hlisted.total, ← (meets 0).vmas_eq hmm, saturatingAdd_vmas (hsmall 0)]
      omega
    obtain ⟨hok, hunstable⟩ := sizedPasses_spec key hsmall 4 0 _ hcap
    refine ⟨fun v hv => ?_, fun hv i hi => hunstable hv i (Nat.zero_le i) (by omega)⟩
    obtain ⟨j, mm, -, hle, hmm, rfl⟩ := hok v hv
    refine ⟨?_, j, mm, by omega, hmm, rfl⟩
    exact List.pairwise_map.mpr (mm.ascending.imp UInt64.le_iff_toNat_le.mp)

/-- A target with two areas that stay, seen by a privileged caller. -/
def quiet (_ : ℕ) : Meeting where
  session := ⟨true, 0⟩
  env := ⟨none, ⟨true, 0, 0, []⟩⟩
  copyIn := true
  task := true
  mm := some {
    vmas := [⟨0x1000, 0x3000, true, false, true, some 0⟩, ⟨0x3000, 0x4000, true, true, false, none⟩]
    nonempty := by decide
    ascending := by decide }
  fault _ := false
  copyOut := true

def quietRegions : List MemoryRegion := [⟨0x1000, 0x3000, 5, none⟩, ⟨0x3000, 0x4000, 3, none⟩]

theorem enumRegions_snapshot_quiet : enumRegions [] quiet = .ok quietRegions ∧
    quietRegions.Pairwise (fun a b => a.stop ≤ b.start) ∧
      ∃ i mm, i ≤ 4 ∧ (quiet i).mm = some mm ∧ quietRegions = mm.vmas.map Vma.region := by
  have hok : enumRegions [] quiet = .ok quietRegions := by decide +kernel
  refine ⟨hok, (enumRegions_snapshot [] quiet fun i mm hmm => ?_).1 quietRegions hok⟩
  cases hmm
  decide

end Passes

end Nemclass.Kernel
