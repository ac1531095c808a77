import Nemclass.Scan.Scanner

/-! The order in which a first scan appends rows, for any target and observer.
A window appends at some of its offsets, in order; the next window begins past
them; a region is left before the next one begins. So a walk over ascending
regions appends strictly ascending addresses, however it ends. -/
namespace Nemclass.Scan.FirstPass
open Usize Multiples

variable {σ : Type} (p : FirstPass σ)

@[simp] theorem tick_out (sinceTick : ℕ) (w : Walk σ) : (p.tick sinceTick w).2.2.out = w.out := by
  unfold tick
  split <;> rfl

/-- The row a first scan captures at one offset of a window. -/
def windowRow (addr : ℕ) (buf : List UInt8) (off : ℕ) : ScanResult :=
  let value := fixed ((buf.drop off).take p.stride) p.stride
  ⟨addr + off, value, value⟩

theorem push_windowRow {out : ScanResults} (hout : out.stride = p.stride) (addr : ℕ)
    (buf : List UInt8) (off : ℕ) :
    (out.push (addr + off) ((buf.drop off).take p.stride) ((buf.drop off).take p.stride)).rows =
      out.rows ++ [p.windowRow addr buf off] := by
  rw [ScanResults.rows_push, hout]
  rfl

/-- Whatever the exit, a window appends rows at some of its offsets, in order. -/
theorem scanWindow_appends (addr : ℕ) (buf : List UInt8) (offs : List ℕ) (sinceTick : ℕ)
    (w : Walk σ) (hout : w.out.stride = p.stride) :
    (p.scanWindow addr buf offs sinceTick w).2.2.out.stride = p.stride ∧
      ∃ hits : List ℕ, hits.Sublist offs ∧
        (p.scanWindow addr buf offs sinceTick w).2.2.out.rows =
          w.out.rows ++ hits.map (p.windowRow addr buf) := by
  induction offs generalizing sinceTick w with
  | nil => exact ⟨hout, [], List.Sublist.refl _, by simp [scanWindow]⟩
  | cons off offs ih =>
    have htick := p.tick_out sinceTick w
    unfold scanWindow
    split
    · rename_i sinceTick' w' heq
      rw [heq] at htick
      dsimp only at htick
      exact ⟨htick ▸ hout, [], List.nil_sublist _, by simp [htick]⟩
    · rename_i sinceTick' w' heq
      rw [heq] at htick
      dsimp only at htick
      have hout' : w'.out.stride = p.stride := htick ▸ hout
      have hpush := p.push_windowRow hout' addr buf off
      by_cases hm : p.matched buf off = true
      · rw [if_pos hm]
        dsimp only
        split
        · refine ⟨hout', [off], List.singleton_sublist.mpr List.mem_cons_self, ?_⟩
          rw [hpush, htick]
          rfl
        · obtain ⟨hstride, hits, hsub, hrows⟩ := ih sinceTick'
            { w' with out := w'.out.push (addr + off) _ _ } hout'
          refine ⟨hstride, off :: hits, hsub.cons_cons off, ?_⟩
          rw [hrows, hpush, htick, List.append_assoc]
          rfl
      · rw [if_neg hm]
        obtain ⟨hstride, hits, hsub, hrows⟩ := ih sinceTick' w' hout'
        exact ⟨hstride, hits, hsub.cons off, by rw [hrows, htick]⟩

/-- Rows are appended in strictly ascending address order, all of them in `[lo, hi)`. -/
def AppendsWithin (lo hi : ℕ) (before after : ScanResults) : Prop :=
  after.stride = before.stride ∧ ∃ new : List ScanResult, after.rows = before.rows ++ new ∧
    new.Pairwise (fun a b => a.address < b.address) ∧
    ∀ x ∈ new, lo ≤ x.address ∧ x.address < hi ∧ x.previous = x.current

theorem AppendsWithin.refl (lo hi : ℕ) (r : ScanResults) : AppendsWithin lo hi r r :=
  ⟨rfl, [], by simp, List.Pairwise.nil, by simp⟩

/-- Two stretches join where the first stops before the second begins. -/
theorem AppendsWithin.trans {lo mid mid' hi : ℕ} {r s t : ScanResults}
    (h : AppendsWithin lo mid r s) (h' : AppendsWithin mid' hi s t) (hlo : lo ≤ mid')
    (hmid : mid ≤ mid') (hhi : mid ≤ hi) : AppendsWithin lo hi r t := by
  obtain ⟨hst, new, hrows, hsorted, hin⟩ := h
  obtain ⟨hst', new', hrows', hsorted', hin'⟩ := h'
  refine ⟨hst'.trans hst, new ++ new', by rw [hrows', hrows, List.append_assoc], ?_, ?_⟩
  · refine List.pairwise_append.mpr ⟨hsorted, hsorted', fun a ha b hb => ?_⟩
    have := hin a ha
    have := hin' b hb
    omega
  · intro x hx
    rcases List.mem_append.mp hx with hx | hx
    · obtain ⟨h₁, h₂, h₃⟩ := hin x hx
      exact ⟨h₁, by omega, h₃⟩
    · obtain ⟨h₁, h₂, h₃⟩ := hin' x hx
      exact ⟨by omega, h₂, h₃⟩

theorem AppendsWithin.mono {lo hi lo' hi' : ℕ} {r s : ScanResults} (h : AppendsWithin lo hi r s)
    (hlo : lo' ≤ lo) (hhi : hi ≤ hi') : AppendsWithin lo' hi' r s := by
  obtain ⟨hst, new, hrows, hsorted, hin⟩ := h
  refine ⟨hst, new, hrows, hsorted, fun x hx => ?_⟩
  obtain ⟨h₁, h₂, h₃⟩ := hin x hx
  exact ⟨by omega, by omega, h₃⟩

theorem scanWindow_within (addr : ℕ) (buf : List UInt8) (last sinceTick : ℕ) (w : Walk σ)
    (hout : w.out.stride = p.stride) :
    AppendsWithin addr (addr + last + 1) w.out
      (p.scanWindow addr buf (stepBy last p.align) sinceTick w).2.2.out := by
  obtain ⟨hstride, hits, hsub, hrows⟩ :=
    p.scanWindow_appends addr buf (stepBy last p.align) sinceTick w hout
  refine ⟨hstride.trans hout.symm, hits.map (p.windowRow addr buf), hrows, ?_, ?_⟩
  · rw [List.pairwise_map]
    refine ((stepBy_sorted last p.align_pos).sublist hsub).imp fun h => ?_
    simp only [windowRow]
    omega
  · intro x hx
    obtain ⟨off, hoff, rfl⟩ := List.mem_map.mp hx
    have := ((mem_stepBy p.align_pos).mp (hsub.subset hoff)).2
    show addr ≤ addr + off ∧ addr + off < addr + last + 1 ∧ _
    exact ⟨by omega, by omega, rfl⟩

theorem advance_ge {addr read next : ℕ} (h : p.advance addr read = some next) :
    addr + (read - (p.stride - 1)) ≤ next := by
  simp only [advance, Option.bind_eq_bind, Option.bind_eq_some_iff] at h
  obtain ⟨moved, hmoved, rounded, hrounded, least, _, h⟩ := h
  have := (checkedAdd_eq_some.mp hmoved).1
  have := (checked_eq_some.mp hrounded).1
  have := le_nextMultipleOf moved p.align
  have := Option.some.inj h
  omega

/-- A window that was read without the region's end being passed appends before that end. -/
theorem scanWindow_within_read (regionEnd addr : ℕ) {want : ℕ} (buf : Transfer want)
    (hwant : want ≤ regionEnd - addr) (hread : ¬ buf.val.length < p.stride) (hpos : 0 < p.stride)
    (sinceTick : ℕ) (w : Walk σ) (hout : w.out.stride = p.stride) :
    AppendsWithin addr regionEnd w.out (p.scanWindow addr buf.val
      (stepBy (buf.val.length - p.stride) p.align) sinceTick w).2.2.out := by
  have hlen := buf.property
  exact (p.scanWindow_within addr buf.val _ sinceTick w hout).mono (Nat.le_refl _) (by omega)

/-- Every address a walk appends lies in what is left of its region. -/
theorem walkRegion_within (regionEnd addr sinceTick : ℕ) (w : Walk σ) (hpos : 0 < p.stride)
    (hout : w.out.stride = p.stride) :
    AppendsWithin addr regionEnd w.out (p.walkRegion regionEnd addr sinceTick w).2.out := by
  fun_induction p.walkRegion regionEnd addr sinceTick w with
  | case1 | case2 | case7 => exact AppendsWithin.refl _ _ _
  | case3 addr sinceTick w _ _ _ buf _ _ w' _ hread _ w'' heq
  | case4 addr sinceTick w _ _ _ buf _ _ w' _ hread _ w'' heq
  | case5 addr sinceTick w _ _ _ buf _ _ w' _ hread _ w'' heq =>
    have hwin := p.scanWindow_within_read regionEnd addr buf (Nat.min_le_right _ _) hread hpos
      sinceTick w' hout
    rw [heq] at hwin
    exact hwin
  | case6 addr sinceTick w _ _ _ buf _ _ w' read hread sinceTick' w'' heq next hnext ih =>
    have hwin := p.scanWindow_within addr buf.val (buf.val.length - p.stride) sinceTick w' hout
    rw [heq] at hwin
    have hbuf := buf.property
    have hge := p.advance_ge hnext
    have hlt := p.lt_advance hnext
    exact hwin.trans (ih (hwin.1.trans hout)) (by omega) (by omega) (by omega)

theorem scanRegionFirst_within (region : Region) (w : Walk σ) (hpos : 0 < p.stride)
    (hout : w.out.stride = p.stride) :
    AppendsWithin region.base region.stop w.out (p.scanRegionFirst region w).2.out := by
  unfold scanRegionFirst
  split
  · exact AppendsWithin.refl _ _ _
  · rename_i addr haddr
    have hle := le_nextMultipleOf region.base p.align
    rw [(checked_eq_some.mp haddr).1] at hle
    exact (p.walkRegion_within region.stop addr 0 w hpos hout).mono hle (Nat.le_refl _)

section Regions

variable (region : Region) (regions : List Region) (w : Walk σ)

theorem scanRegions_past {w' : Walk σ} (hdone : p.scanRegionFirst region w = (.ok .completed, w'))
    (hroom : w'.out.len < p.limit) :
    p.scanRegions (region :: regions) w = p.scanRegions regions w' := by
  rw [scanRegions, hdone]
  exact if_neg (Nat.not_le.mpr hroom)

/-- A pass goes on past its first region, or is left with what that region gave. -/
theorem scanRegions_cons :
    (∃ w', p.scanRegionFirst region w = (.ok .completed, w') ∧ w'.out.len < p.limit ∧
      p.scanRegions (region :: regions) w = p.scanRegions regions w') ∨
    (p.scanRegions (region :: regions) w).2 = (p.scanRegionFirst region w).2 := by
  rcases hregion : p.scanRegionFirst region w with ⟨_ | _ | _, w'⟩
  · exact .inr (by rw [scanRegions, hregion])
  · by_cases hroom : w'.out.len < p.limit
    · exact .inl ⟨w', rfl, hroom, p.scanRegions_past region regions w hregion hroom⟩
    · right
      rw [scanRegions, hregion]
      exact congrArg Prod.snd (if_pos (Nat.not_lt.mp hroom))
  · exact .inr (by rw [scanRegions, hregion])

theorem scanRegions_cancelled (hstop : (p.scanRegionFirst region w).1 = .ok .cancelled) :
    (p.scanRegions (region :: regions) w).1 = .error (.error .cancelled) := by
  rcases hregion : p.scanRegionFirst region w with ⟨_ | _ | _, w'⟩
  · rw [hregion] at hstop
    cases hstop
  · rw [hregion] at hstop
    cases hstop
  · rw [scanRegions, hregion]

/-- A pass that succeeds walks its first region to the end; it is left there at the limit. -/
theorem scanRegions_cons_ok {truncated : Bool} {w₂ : Walk σ}
    (hdone : p.scanRegions (region :: regions) w = (.ok truncated, w₂)) :
    ∃ w', p.scanRegionFirst region w = (.ok .completed, w') ∧
      (p.limit ≤ w'.out.len ∧ truncated = true ∧ w₂ = w' ∨
        w'.out.len < p.limit ∧ p.scanRegions regions w' = (.ok truncated, w₂)) := by
  rw [scanRegions] at hdone
  rcases hregion : p.scanRegionFirst region w with ⟨_ | _ | _, w'⟩
  · rw [hregion] at hdone
    cases hdone
  · rw [hregion] at hdone
    dsimp only at hdone
    refine ⟨w', rfl, ?_⟩
    split at hdone
    · rename_i hfull
      cases hdone
      exact .inl ⟨hfull, rfl, rfl⟩
    · rename_i hmore
      exact .inr ⟨Nat.not_le.mp hmore, hdone⟩
  · rw [hregion] at hdone
    cases hdone

end Regions

/-- Ascending regions are appended one after the other. -/
theorem scanRegions_within (lo : ℕ) (regions : List Region) (w : Walk σ) (hpos : 0 < p.stride)
    (hasc : Ascending regions) (hlo : ∀ r ∈ regions, lo ≤ r.base)
    (hout : w.out.stride = p.stride) :
    AppendsWithin lo usizeMax w.out (p.scanRegions regions w).2.out := by
  induction regions generalizing lo w with
  | nil => exact AppendsWithin.refl _ _ _
  | cons region regions ih =>
    obtain ⟨hfirst, hrest⟩ := List.pairwise_cons.mp hasc
    have hregion := p.scanRegionFirst_within region w hpos hout
    have hhere := hregion.mono (hlo region List.mem_cons_self) (Nat.le_refl _)
    obtain ⟨w', hdone, -, hgo⟩ | hleft := p.scanRegions_cons region regions w
    · rw [hdone] at hhere
      rw [hgo]
      refine hhere.trans (ih (max lo region.stop) w' hrest (fun r hr => ?_)
        (hhere.1.trans hout)) (Nat.le_max_left _ _) (Nat.le_max_right _ _) region.stop_le
      exact Nat.max_le.mpr ⟨hlo r (List.mem_cons_of_mem _ hr), hfirst r hr⟩
    · rw [hleft]
      exact hhere.mono (Nat.le_refl lo) region.stop_le

end Nemclass.Scan.FirstPass
