import Nemclass.Kernel.SlotDiscipline

/-! Slots are torn down exactly once. Every handler keeps to what its thread may do, so this holds
however the calls on one open file are interleaved. -/
namespace Nemclass.Kernel.Teardown
open Interleaving Discipline

namespace Perm
variable {p q : Perm} {slot : Ptr} {life : Life}

theorem owns_set (q : Perm) (slot : Ptr) (life : Option Life) : (q.set slot life).owns slot = life :=
  Function.update_self ..

theorem set_set (q : Perm) (slot : Ptr) (a b : Option Life) :
    (q.set slot a).set slot b = q.set slot b := by
  simp only [set, Function.update_idem]

theorem set_eq_self (h : p.owns slot = some life) : p.set slot (some life) = p := by
  simp only [set, ← h, Function.update_eq_self]

end Perm

section Rules
variable {ι : Type} [Fintype ι] [DecidableEq ι] {q : Perm} {slot : Ptr} {life : Life} {r : Resource}

theorem wp_ask {Q : ℕ → Perm → Prop} {p : Perm} (h : ∀ x, Q x p) : (discipline ι).wp ask Q p := by
  refine ⟨trivial, fun x p' hpost => ?_⟩
  obtain rfl : p' = p := hpost
  exact h x

theorem wp_acquire {Q : ℕ → Perm → Prop} (hr : r ≠ .memory) (hfresh : life.status r = .fresh)
    (hok : Q 0 (q.set slot (some (life.take r)))) (herr : ∀ x, x ≠ 0 → Q x (q.set slot (some life))) :
    (discipline ι).wp (Prog.perform (Op.acquire r slot)) Q (q.set slot (some life)) := by
  refine ⟨⟨hr, life, q.owns_set slot _, hfresh⟩, fun x p' hpost => ?_⟩
  have hp := hpost life (q.owns_set slot _)
  by_cases hx : x = 0
  · rw [if_pos hx, Perm.set_set] at hp
    subst hx hp
    exact hok
  · rw [if_neg hx] at hp
    subst hp
    exact herr x hx

theorem wp_mmgrab {Q : Unit → Perm → Prop} (hfresh : life.status .mm = .fresh)
    (h : Q () (q.set slot (some (life.take .mm)))) :
    (discipline ι).wp (mmgrab slot) Q (q.set slot (some life)) := by
  refine ⟨⟨life, q.owns_set slot _, hfresh⟩, fun _ p' hpost => ?_⟩
  have hp := hpost life (q.owns_set slot _)
  rw [Perm.set_set] at hp
  subst hp
  exact h

theorem wp_release {Q : Unit → Perm → Prop} (hr : r ≠ .memory) (hheld : life.status r = .held)
    (h : Q () (q.set slot (some (life.drop r)))) :
    (discipline ι).wp (Prog.perform (Op.release r slot)) Q (q.set slot (some life)) := by
  have howns : (q.set slot (some life)).owns slot = some life := q.owns_set slot _
  cases r with
  | memory => exact absurd rfl hr
  | _ =>
    refine ⟨⟨life, howns, hheld⟩, fun _ p' hpost => ?_⟩
    have hp := hpost life howns
    rw [Perm.set_set] at hp
    subst hp
    exact h

theorem wp_kfree {Q : Unit → Perm → Prop} (hspent : life.Spent) (h : Q () (q.set slot none)) :
    (discipline ι).wp (kfree slot) Q (q.set slot (some life)) := by
  refine ⟨⟨life, q.owns_set slot _, hspent⟩, fun _ p' hpost => ?_⟩
  have hp : p' = (q.set slot (some life)).set slot none := hpost
  rw [Perm.set_set] at hp
  subst hp
  exact h

theorem wp_load {Q : Links → Perm → Prop} (h : Q life.links (q.set slot (some life))) :
    (discipline ι).wp (load slot) Q (q.set slot (some life)) := by
  have howns : (q.set slot (some life)).owns slot = some life := q.owns_set slot _
  refine ⟨fun hnone => (nomatch howns.symm.trans hnone), fun links p' hpost => ?_⟩
  obtain ⟨rfl, hlinks⟩ := hpost
  rw [hlinks life howns]
  exact h

theorem wp_store {f : Links → Links} {Q : Unit → Perm → Prop}
    (h : Q () (q.set slot (some (life.relink f)))) :
    (discipline ι).wp (store slot f) Q (q.set slot (some life)) := by
  have howns : (q.set slot (some life)).owns slot = some life := q.owns_set slot _
  refine ⟨fun hnone => (nomatch howns.symm.trans hnone), fun _ p' hpost => ?_⟩
  have hp := hpost life howns
  rw [Perm.set_set] at hp
  subst hp
  exact h

end Rules

section Arming
variable {ι : Type} [Fintype ι] [DecidableEq ι]

/-- A slot that was armed is ready to be listed; one that was not is ready to be freed. -/
def Outcome (q : Perm) (slot : Ptr) (ret : ℤ) (p : Perm) : Prop :=
  ∃ life : Life, p = q.set slot (some life) ∧ (ret = 0 → life.Armed) ∧ (ret ≠ 0 → life.Spent)

theorem outcome_armed {q : Perm} {slot : Ptr} {life : Life} (h : life.Armed) :
    Outcome q slot 0 (q.set slot (some life)) :=
  ⟨life, rfl, fun _ => h, fun hret => absurd rfl hret⟩

theorem outcome_spent {q : Perm} {slot : Ptr} {life : Life} {ret : ℤ} (hret : ret ≠ 0)
    (h : life.Spent) : Outcome q slot ret (q.set slot (some life)) :=
  ⟨life, rfl, fun hzero => absurd hzero hret, fun _ => h⟩

theorem neg_errno_ne_zero {x : ℕ} (hx : x ≠ 0) : -(x : ℤ) ≠ 0 := by omega

theorem born_spent : Life.born.Spent where
  memory := rfl
  others r hr := by cases r <;> first | exact absurd rfl hr | decide
  synced h := nomatch h

theorem wp_armHw (q : Perm) (slot : Ptr) (req : BpSet) :
    (discipline ι).wp (armHw slot req) (Outcome q slot) (q.set slot (some .born)) := by
  unfold armHw
  refine wp_bind (wp_ask fun unsupported => ?_)
  split
  · exact outcome_spent (by decide) born_spent
  · split
    · exact outcome_spent (by decide) born_spent
    · split
      · exact outcome_spent (by decide) born_spent
      · refine wp_bind (wp_acquire (by decide) rfl ?_ fun err herr => ?_)
        · refine wp_bind (wp_store (outcome_armed ?_))
          exact ⟨rfl, rfl, rfl, rfl, rfl, by decide, by decide⟩
        · rw [if_pos herr]
          exact outcome_spent (neg_errno_ne_zero herr) born_spent

/-- Finding the mapped file takes the inode when it succeeds, and nothing otherwise. -/
theorem wp_resolveFileOffset (q : Perm) (slot : Ptr) :
    (discipline ι).wp (resolveFileOffset slot) (fun ret p =>
      ret ≠ 0 ∧ (∃ life : Life, p = q.set slot (some life) ∧ life.Spent) ∨
      ret = 0 ∧ p = q.set slot (some
        (((Life.born.take .resolveUsers).take .inode).drop .resolveUsers)))
      (q.set slot (some .born)) := by
  have hspent : ((Life.born.take .resolveUsers).drop .resolveUsers).Spent := by
    refine ⟨rfl, fun r hr => ?_, fun h => nomatch h⟩
    cases r <;> first | exact absurd rfl hr | decide
  unfold resolveFileOffset
  refine wp_bind (wp_acquire (by decide) rfl ?_ fun err herr => ?_)
  · refine wp_bind (wp_ask fun noFile => ?_)
    split
    · refine wp_bind (wp_release (by decide) rfl ?_)
      exact .inl ⟨by decide, _, rfl, hspent⟩
    · refine wp_bind (wp_acquire (by decide) rfl ?_ fun err herr => ?_)
      · refine wp_bind (wp_release (by decide) rfl ?_)
        exact .inr ⟨rfl, rfl⟩
      · refine wp_bind (wp_release (by decide) rfl ?_)
        rw [if_pos herr]
        exact .inl ⟨by decide, _, rfl, hspent⟩
  · rw [if_pos herr]
    exact .inl ⟨by decide, _, rfl, born_spent⟩

theorem wp_armUprobe (q : Perm) (slot : Ptr) :
    (discipline ι).wp (armUprobe slot) (Outcome q slot) (q.set slot (some .born)) := by
  unfold armUprobe
  refine wp_bind (wp_ask fun unsupported => ?_)
  split
  · exact outcome_spent (by decide) born_spent
  · refine wp_bind_of (wp_resolveFileOffset q slot) fun ret p hret => ?_
    rcases hret with ⟨hret, life, rfl, hspent⟩ | ⟨rfl, rfl⟩
    · rw [if_pos hret]
      exact outcome_spent hret hspent
    · refine wp_bind (wp_acquire (by decide) rfl ?_ fun noMm hnoMm => ?_)
      · refine wp_bind (wp_mmgrab rfl ?_)
        refine wp_bind (wp_release (by decide) rfl ?_)
        refine wp_bind (wp_store ?_)
        refine wp_bind (wp_store ?_)
        refine wp_bind (wp_acquire (by decide) rfl ?_ fun err herr => ?_)
        · refine wp_bind (wp_store (outcome_armed ?_))
          exact ⟨rfl, rfl, rfl, rfl, rfl, by decide, by decide⟩
        · rw [if_pos herr]
          refine wp_bind (wp_release (by decide) rfl ?_)
          refine wp_bind (wp_store ?_)
          refine wp_bind (wp_release (by decide) rfl ?_)
          refine wp_bind (wp_store (outcome_spent (neg_errno_ne_zero herr) ?_))
          refine ⟨rfl, fun r hr => ?_, fun h => nomatch h⟩
          cases r <;> first | exact absurd rfl hr | decide
      · rw [if_pos hnoMm]
        refine wp_bind (wp_release (by decide) rfl ?_)
        refine outcome_spent (by decide) ⟨rfl, fun r hr => ?_, fun h => nomatch h⟩
        cases r <;> first | exact absurd rfl hr | decide

theorem wp_arm (q : Perm) (slot : Ptr) (req : BpSet) :
    (discipline ι).wp (arm slot req) (Outcome q slot) (q.set slot (some .born)) := by
  unfold arm
  split
  · exact wp_armHw q slot req
  · split
    · exact wp_armUprobe q slot
    · exact outcome_spent (by decide) born_spent

end Arming

section Teardown
variable {ι : Type} [Fintype ι] [DecidableEq ι] {p : Perm} {slot : Ptr} {life : Life}

/-- Nothing is registered any more; a sync may still have to come. -/
structure Life.Detached (life : Life) (needSync : Bool) : Prop where
  memory : life.status .memory = .held
  hwBp : life.status .hwBp ≠ .held
  uprobe : life.status .uprobe ≠ .held
  inode : life.status .inode = heldIf life.links.inode
  mm : life.status .mm = heldIf life.links.targetMm
  resolveUsers : life.status .resolveUsers ≠ .held
  pinUsers : life.status .pinUsers ≠ .held
  synced : life.status .uprobe = .released → life.synced = true ∨ needSync = true

theorem Life.dropped (life : Life) (r : Resource) (f : Links → Links) :
    ((life.drop r).relink f).status r ≠ .held := by
  show Function.update life.status r .released r ≠ .held
  rw [Function.update_self]
  exact nofun

theorem wp_slotDetach (howns : p.owns slot = some life) (h : life.Armed) :
    (discipline ι).wp (slotDetach slot) (fun needSync p' => ∃ life' : Life,
      p' = p.set slot (some life') ∧ life'.Detached needSync) p := by
  have huprobe : life.status .uprobe ≠ .released := by
    rw [h.uprobe, Life.heldIf]
    split <;> decide
  -- The second half, once no hardware breakpoint is left.
  have hrest (mid : Life) (hhwBp : mid.status .hwBp ≠ .held)
      (hsame : ∀ r, r ≠ .hwBp → mid.status r = life.status r)
      (hlinks : mid.links.uprobe = life.links.uprobe ∧ mid.links.inode = life.links.inode ∧
        mid.links.targetMm = life.links.targetMm) :
      (discipline ι).wp (do
        let links ← load slot
        if links.uprobe then do
          uprobeUnregisterNosync slot
          store slot ({ · with uprobe := false })
          pure true
        else pure false) (fun needSync p' => ∃ life' : Life,
          p' = p.set slot (some life') ∧ life'.Detached needSync) (p.set slot (some mid)) := by
    obtain ⟨hlinkUprobe, hlinkInode, hlinkMm⟩ := hlinks
    have hheld : mid.status .uprobe = Life.heldIf mid.links.uprobe := by
      rw [hsame _ (by decide), h.uprobe, hlinkUprobe]
    have hmemory : mid.status .memory = .held := (hsame _ (by decide)).trans h.memory
    have hinode : mid.status .inode = Life.heldIf mid.links.inode := by
      rw [hsame _ (by decide), h.inode, hlinkInode]
    have hmm : mid.status .mm = Life.heldIf mid.links.targetMm := by
      rw [hsame _ (by decide), h.mm, hlinkMm]
    have hresolve : mid.status .resolveUsers ≠ .held := by
      rw [hsame _ (by decide)]
      exact h.resolveUsers
    have hpin : mid.status .pinUsers ≠ .held := by
      rw [hsame _ (by decide)]
      exact h.pinUsers
    refine wp_bind (wp_load ?_)
    split
    · rename_i hlinked
      refine wp_bind (wp_release (by decide) (by rw [hheld, hlinked]; rfl) ?_)
      refine wp_bind (wp_store ?_)
      refine ⟨_, rfl, ?_⟩
      exact ⟨hmemory, hhwBp, Life.dropped _ _ _, hinode, hmm, hresolve, hpin, fun _ => .inr rfl⟩
    · refine ⟨mid, rfl, hmemory, hhwBp, ?_, hinode, hmm, hresolve, hpin, fun hreleased => ?_⟩
      · rw [hheld, Life.heldIf, if_neg ‹_›]
        decide
      · rw [hsame _ (by decide)] at hreleased
        exact absurd hreleased huprobe
  rw [← Perm.set_eq_self howns]
  simp only [Perm.set_set]
  unfold slotDetach
  refine wp_bind (wp_load ?_)
  dsimp only
  split
  · rename_i hlinked
    refine wp_bind (wp_release (by decide) (by rw [h.hwBp, hlinked]; rfl) ?_)
    refine wp_bind (wp_store (hrest _ (Life.dropped _ _ _) (fun r hr => ?_) ⟨rfl, rfl, rfl⟩))
    exact Function.update_of_ne hr ..
  · refine hrest life ?_ (fun _ _ => rfl) ⟨rfl, rfl, rfl⟩
    rw [h.hwBp, Life.heldIf, if_neg ‹_›]
    decide

theorem wp_slotReclaim {needSync : Bool} (howns : p.owns slot = some life) (h : life.Detached needSync)
    (hsynced : life.status .uprobe = .released → life.synced = true) :
    (discipline ι).wp (slotReclaim slot) (fun _ p' => p' = p.set slot none) p := by
  -- What is left to do once the inode is dropped.
  have hrest (mid : Life) (hinode : mid.status .inode ≠ .held)
      (hsame : ∀ r, r ≠ .inode → mid.status r = life.status r)
      (hlinks : mid.links.targetMm = life.links.targetMm) (hsync : mid.synced = life.synced) :
      (discipline ι).wp (do
        let links ← load slot
        if links.targetMm then do
          mmdrop slot
          store slot ({ · with targetMm := false })
        kfree slot) (fun _ p' => p' = p.set slot none) (p.set slot (some mid)) := by
    have hspent (last : Life) (hmm : last.status .mm ≠ .held)
        (hlast : ∀ r, r ≠ .mm → last.status r = mid.status r) (hlastSync : last.synced = mid.synced) :
        last.Spent := by
      refine ⟨?_, fun r hr => ?_, fun hreleased => ?_⟩
      · rw [hlast _ (by decide), hsame _ (by decide)]
        exact h.memory
      · cases r with
        | memory => exact absurd rfl hr
        | mm => exact hmm
        | inode =>
          rw [hlast _ (by decide)]
          exact hinode
        | hwBp =>
          rw [hlast _ (by decide), hsame _ (by decide)]
          exact h.hwBp
        | uprobe =>
          rw [hlast _ (by decide), hsame _ (by decide)]
          exact h.uprobe
        | resolveUsers =>
          rw [hlast _ (by decide), hsame _ (by decide)]
          exact h.resolveUsers
        | pinUsers =>
          rw [hlast _ (by decide), hsame _ (by decide)]
          exact h.pinUsers
      · rw [hlast _ (by decide), hsame _ (by decide)] at hreleased
        rw [hlastSync, hsync]
        exact hsynced hreleased
    have hmm : mid.status .mm = Life.heldIf mid.links.targetMm := by
      rw [hsame _ (by decide), h.mm, hlinks]
    refine wp_bind (wp_load ?_)
    dsimp only
    split
    · rename_i hlinked
      refine wp_bind (wp_release (by decide) (by rw [hmm, hlinked]; rfl) ?_)
      refine wp_bind (wp_store (wp_kfree (hspent _ (Life.dropped _ _ _) (fun r hr => ?_) rfl) rfl))
      exact Function.update_of_ne hr ..
    · refine wp_kfree (hspent mid ?_ (fun _ _ => rfl) rfl) rfl
      rw [hmm, Life.heldIf, if_neg ‹_›]
      decide
  rw [← Perm.set_eq_self howns]
  simp only [Perm.set_set]
  unfold slotReclaim
  refine wp_bind (wp_load ?_)
  dsimp only
  split
  · rename_i hlinked
    refine wp_bind (wp_release (by decide) (by rw [h.inode, hlinked]; rfl) ?_)
    refine wp_bind (wp_store (hrest _ (Life.dropped _ _ _) (fun r hr => ?_) rfl rfl))
    exact Function.update_of_ne hr ..
  · refine hrest life ?_ (fun _ _ => rfl) rfl rfl
    rw [h.inode, Life.heldIf, if_neg ‹_›]
    decide

/-- Detaching one slot after another leaves the others alone. -/
theorem wp_detachAll (dead : List Ptr) (needSync : Bool) (hnodup : dead.Nodup)
    (harmed : ∀ s ∈ dead, ∃ life, p.owns s = some life ∧ life.Armed) :
    (discipline ι).wp (detachAll dead needSync) (fun needSync' p' => p'.role = p.role ∧
      (needSync = true → needSync' = true) ∧ (∀ s ∉ dead, p'.owns s = p.owns s) ∧
        ∀ s ∈ dead, ∃ life, p'.owns s = some life ∧ life.Detached needSync') p := by
  induction dead generalizing p needSync with
  | nil => exact ⟨rfl, id, fun _ _ => rfl, fun _ hs => nomatch hs⟩
  | cons slot dead ih =>
    obtain ⟨hslot, hdead⟩ := List.nodup_cons.mp hnodup
    obtain ⟨life, howns, hlife⟩ := harmed slot List.mem_cons_self
    refine wp_bind_of (wp_slotDetach howns hlife) fun more p' hp => ?_
    obtain ⟨life', rfl, hdetached⟩ := hp
    have hother (s : Ptr) (hs : s ≠ slot) : (p.set slot (some life')).owns s = p.owns s :=
      Function.update_of_ne hs ..
    refine wp_mono (ih (needSync || more) hdead fun s hs => ?_) fun needSync' p' hall => ?_
    · rw [hother s (ne_of_mem_of_not_mem hs hslot)]
      exact harmed s (List.mem_cons_of_mem _ hs)
    · obtain ⟨hrole, hsync, hkept, hdone⟩ := hall
      refine ⟨hrole, fun h => hsync (by rw [h, Bool.true_or]), fun s hs => ?_, fun s hs => ?_⟩
      · rw [List.mem_cons, not_or] at hs
        rw [hkept s hs.2, hother s hs.1]
      · rcases List.mem_cons.mp hs with rfl | hs
        · refine ⟨life', by rw [hkept s hslot, Perm.owns_set], ?_⟩
          refine { hdetached with synced := fun hreleased => ?_ }
          exact (hdetached.synced hreleased).imp_right fun h => hsync (by rw [h, Bool.or_true])
        · exact hdone s hs

theorem wp_reclaimAll (dead : List Ptr) (hnodup : dead.Nodup)
    (hdetached : ∀ s ∈ dead, ∃ life needSync, p.owns s = some life ∧ life.Detached needSync ∧
      (life.status .uprobe = .released → life.synced = true)) :
    (discipline ι).wp (reclaimAll dead) (fun _ p' => p'.role = p.role ∧
      (∀ s ∉ dead, p'.owns s = p.owns s) ∧ ∀ s ∈ dead, p'.owns s = none) p := by
  induction dead generalizing p with
  | nil => exact ⟨rfl, fun _ _ => rfl, fun _ hs => nomatch hs⟩
  | cons slot dead ih =>
    obtain ⟨hslot, hdead⟩ := List.nodup_cons.mp hnodup
    obtain ⟨life, needSync, howns, hlife, hsynced⟩ := hdetached slot List.mem_cons_self
    refine wp_bind_of (wp_slotReclaim howns hlife hsynced) fun _ p' hp => ?_
    subst hp
    have hother (s : Ptr) (hs : s ≠ slot) : (p.set slot none).owns s = p.owns s :=
      Function.update_of_ne hs ..
    refine wp_mono (ih hdead fun s hs => ?_) fun _ p' hall => ?_
    · rw [hother s (ne_of_mem_of_not_mem hs hslot)]
      exact hdetached s (List.mem_cons_of_mem _ hs)
    · obtain ⟨hrole, hkept, hdone⟩ := hall
      refine ⟨hrole, fun s hs => ?_, fun s hs => ?_⟩
      · rw [List.mem_cons, not_or] at hs
        rw [hkept s hs.2, hother s hs.1]
      · rcases List.mem_cons.mp hs with rfl | hs
        · rw [hkept s hslot, Perm.owns_set]
        · exact hdone s hs

/-- After a sync no handler of an unregistered uprobe is left. -/
theorem Life.Detached.sync {needSync : Bool} (h : life.Detached needSync) :
    life.sync.Detached needSync ∧
      (life.sync.status .uprobe = .released → life.sync.synced = true) := by
  refine ⟨{ h with synced := fun hreleased => .inl ?_ }, fun hreleased => ?_⟩
  · have hstatus : life.status .uprobe = .released := hreleased
    simp [Life.sync, hstatus]
  · have hstatus : life.status .uprobe = .released := hreleased
    simp [Life.sync, hstatus]

theorem Life.Detached.unsynced (h : life.Detached false) :
    life.status .uprobe = .released → life.synced = true := fun hreleased =>
  (h.synced hreleased).resolve_right nofun

end Teardown

section Handlers
variable {ι : Type} [Fintype ι] [DecidableEq ι] {p : Perm}

theorem wp_bpSet (req : BpSet) (hempty : ∀ s, p.owns s = none) (hrole : p.role = .caller)
    (hnumbers : 0 < p.numbers) : (discipline ι).wp (bpSet req) (fun _ => Perm.Rest) p := by
  have hrest : p.Rest := ⟨hempty, by rw [hrole]; decide⟩
  unfold bpSet
  refine wp_bind (wp_ask fun copyIn => ?_)
  split
  · exact hrest
  · refine wp_bind (wp_ask fun noTask => ?_)
    split
    · exact hrest
    · refine wp_bind ⟨trivial, fun memory p' hpost => ?_⟩
      cases memory with
      | none =>
        obtain rfl : p' = p := hpost
        exact hrest
      | some slot =>
        obtain rfl : p' = p.set slot (some .born) := hpost
        refine wp_bind ⟨⟨hnumbers, fun hnone => (nomatch (p.owns_set slot _).symm.trans hnone)⟩,
          fun _ p' hpost => ?_⟩
        let q : Perm := { p with numbers := p.numbers - 1 }
        have hfreed : (q.set slot none).Rest := by
          refine ⟨fun s => ?_, hrest.2⟩
          by_cases hs : s = slot
          · subst hs
            exact q.owns_set s none
          · exact (Function.update_of_ne hs ..).trans (hempty s)
        obtain rfl : p' = q.set slot (some .born) := hpost
        refine wp_bind_of (wp_arm q slot req) fun ret p' hret => ?_
        obtain ⟨life, rfl, harmed, hspent⟩ := hret
        split
        · rename_i hne
          exact wp_bind (wp_kfree (hspent hne) hfreed)
        · rename_i hzero
          refine wp_bind ⟨⟨hrole, life, q.owns_set slot _, harmed (not_not.mp hzero)⟩,
            fun _ p' hpost => ?_⟩
          have hp : p' = (q.set slot (some life)).set slot none := hpost
          rw [Perm.set_set] at hp
          subst hp
          refine wp_bind ⟨trivial, fun _ p' hpost => ?_⟩
          obtain rfl : p' = q.set slot none := hpost
          refine wp_bind (wp_ask fun copyOut => ?_)
          split
          · exact hfreed
          · exact hfreed

theorem wp_bpClear (id : BitVec 32) (hrest : p.Rest) :
    (discipline ι).wp (bpClear id) (fun _ => Perm.Rest) p := by
  unfold bpClear
  refine wp_bind (wp_ask fun copyIn => ?_)
  split
  · exact hrest
  · refine wp_bind ⟨trivial, fun found p' hpost => ?_⟩
    cases found with
    | none =>
      obtain rfl : p' = p := hpost
      exact hrest
    | some slot =>
      obtain ⟨-, life, harmed, rfl⟩ := hpost
      have hfreed : (p.set slot none).Rest := by
        refine ⟨fun s => ?_, hrest.2⟩
        by_cases hs : s = slot
        · subst hs
          exact p.owns_set s none
        · exact (Function.update_of_ne hs ..).trans (hrest.1 s)
      have hreclaim (last : Life) (needSync : Bool) (hlast : last.Detached needSync)
          (hsynced : last.status .uprobe = .released → last.synced = true) :
          (discipline ι).wp (do slotReclaim slot; pure (0 : ℤ)) (fun _ => Perm.Rest)
            (p.set slot (some last)) := by
        refine wp_bind_of (wp_slotReclaim (p.owns_set slot _) hlast hsynced) fun _ p' hp => ?_
        rw [Perm.set_set] at hp
        subst hp
        exact hfreed
      refine wp_bind_of (wp_slotDetach (p.owns_set slot _) harmed) fun needSync p' hp => ?_
      obtain ⟨life', rfl, hdetached⟩ := hp
      rw [Perm.set_set]
      cases needSync with
      | true =>
        obtain ⟨hsync, hsynced⟩ := hdetached.sync
        refine wp_bind ⟨trivial, fun _ p' hpost => ?_⟩
        have hp : p' = p.set slot (some life'.sync) := by
          refine hpost.trans ?_
          simp only [Perm.set]
          congr 1
          funext s
          by_cases hs : s = slot
          · subst hs
            simp only [Function.update_self]
            rfl
          · simp only [Function.update_of_ne hs, hrest.1 s]
            rfl
        subst hp
        exact hreclaim _ _ hsync hsynced
      | false => exact hreclaim _ _ hdetached hdetached.unsynced

theorem wp_sessionFreeSlots (hempty : ∀ s, p.owns s = none) (hrole : p.role = .closing) :
    (discipline ι).wp sessionFreeSlots (fun _ => Perm.Rest) p := by
  unfold sessionFreeSlots
  refine wp_bind ⟨hrole, fun dead p' hpost => ?_⟩
  obtain ⟨lives, hnodup, harmed, rfl⟩ := hpost
  have howns (s : Ptr) (hs : s ∉ dead) : (if s ∈ dead then some (lives s) else p.owns s) = none := by
    rw [if_neg hs, hempty]
  refine wp_bind_of (wp_detachAll dead false hnodup fun s hs => ⟨lives s, if_pos hs, (harmed s hs).1⟩)
    fun needSync q hq => ?_
  obtain ⟨hq, -, hkept, hdetached⟩ := hq
  have hreclaim (q' : Perm) (hrole' : q'.role = .emptied) (hnone : ∀ s ∉ dead, q'.owns s = none)
      (hall : ∀ s ∈ dead, ∃ life needSync, q'.owns s = some life ∧ life.Detached needSync ∧
        (life.status .uprobe = .released → life.synced = true)) :
      (discipline ι).wp (reclaimAll dead) (fun _ => Perm.Rest) q' := by
    refine wp_mono (wp_reclaimAll dead hnodup hall) fun _ p' hp => ?_
    obtain ⟨hsame, hothers, hfreed⟩ := hp
    refine ⟨fun s => ?_, by rw [hsame, hrole']; decide⟩
    by_cases hs : s ∈ dead
    · exact hfreed s hs
    · rw [hothers s hs, hnone s hs]
  cases needSync with
  | true =>
    refine wp_bind ⟨trivial, fun _ p' hpost => ?_⟩
    obtain rfl : p' = { q with owns := fun s => (q.owns s).map Life.sync } := hpost
    refine hreclaim _ hq (fun s hs => ?_) fun s hs => ?_
    · show (q.owns s).map Life.sync = none
      rw [hkept s hs]
      exact congrArg (Option.map Life.sync) (howns s hs)
    · obtain ⟨life, hlife, hdown⟩ := hdetached s hs
      obtain ⟨hsync, hsynced⟩ := hdown.sync
      refine ⟨life.sync, true, ?_, hsync, hsynced⟩
      show (q.owns s).map Life.sync = some life.sync
      rw [hlife]
      rfl
  | false =>
    refine hreclaim q hq (fun s hs => (hkept s hs).trans (howns s hs)) fun s hs => ?_
    obtain ⟨life, hlife, hdown⟩ := hdetached s hs
    exact ⟨life, false, hlife, hdown, hdown.unsynced⟩

end Handlers

section Runs
variable {ι : Type} [Fintype ι] [DecidableEq ι]

/-- A thread that makes a call may number one slot. -/
theorem admits : (discipline ι).Admits where
  call {started σ perms t} h hrest c := by
    obtain ⟨lives, place, hinv⟩ := h
    obtain ⟨hempty, -⟩ := hrest
    have hrole : (perms t).role = .caller := (hinv.roles.caller t).mpr rfl
    refine ⟨{ (perms t : Perm) with numbers := 1 }, ⟨lives, place, ?_⟩, ?_⟩
    · constructor
      · exact hinv.accounts
      · exact hinv.frees
      · exact hinv.held.congr rfl rfl (update_eq (f := Perm.owns) rfl)
      · exact hinv.numbered.call t (le_refl 1)
      · exact hinv.roles.congr (update_eq (f := Perm.role) rfl) fun _ hempty => hempty
    · cases c with
      | bpSet req => exact wp_bind_of (wp_bpSet req hempty hrole one_pos) fun _ _ hdone => hdone
      | bpClear id =>
        refine wp_bind_of (wp_bpClear id ⟨hempty, ?_⟩) fun _ _ hdone => hdone
        show (perms t).role ≠ .closing
        rw [hrole]
        decide
  close {started σ perms} h hrest t := by
    obtain ⟨lives, place, hinv⟩ := h
    let perms' : ι → Perm := fun t' => ⟨fun _ => none, if t' = t then .closing else .gone, 0⟩
    refine ⟨perms', ⟨lives, place, ?_⟩, fun t' ht => ⟨fun _ => rfl, ?_⟩, ?_⟩
    · constructor
      · exact hinv.accounts
      · exact hinv.frees
      · exact hinv.held.congr rfl rfl fun t' => (funext (hrest t').1).symm
      · refine ⟨hinv.numbered.numbers, hinv.numbered.next, ?_⟩
        have := hinv.numbered.budget
        simp only [perms', Finset.sum_const_zero]
        omega
      · constructor
        · intro t'
          refine iff_of_false ?_ nofun
          simp only [perms']
          split <;> decide
        · exact fun _ => ⟨t, .inl (if_pos rfl)⟩
        · intro t' ht'
          simp only [perms'] at ht'
          split at ht' <;> cases ht'
    · simp only [perms', if_neg ht]
      decide
    · exact wp_sessionFreeSlots (fun _ => rfl) (if_pos rfl)

theorem init_kept : (discipline ι).Kept (Config.init Session.new) := by
  refine ⟨fun _ => ⟨fun _ => none, .caller, 0⟩, ⟨fun _ => .unborn, fun _ => .nowhere, ?_⟩,
    fun t => ⟨fun _ => rfl, by simp⟩⟩
  constructor
  · exact fun slot => ⟨fun _ => rfl, fun _ => rfl, rfl, fun h => absurd h Bool.false_ne_true⟩
  · intro before after slot hlog
    exact absurd hlog.symm (by simp [Session.new, Config.init])
  · constructor
    · exact fun _ _ => (if_neg (by simp)).symm
    · exact fun _ => iff_of_false List.not_mem_nil (by simp)
    · exact List.nodup_nil
    · exact fun _ h => absurd h (by simp)
    · exact fun _ _ _ => Status.noConfusion
    · exact fun _ _ => ⟨rfl, fun _ => rfl⟩
  · exact ⟨rfl, rfl, by simp [Session.new, Session.numbers, Config.init]⟩
  · exact ⟨fun _ => iff_of_true rfl rfl, fun h => absurd h Bool.false_ne_true,
      fun _ h => absurd h (by simp)⟩

/-- In every interleaving of fewer than 2³¹ calls the ids are distinct; whatever is taken for a slot
is taken once, and given back at most once; a listed slot is allocated and not freed; a slot that
had a uprobe is freed after a sync that came after unregistering it; and once the file is released
and all threads have come to an end, everything that was taken is given back. -/
theorem slots_torn_down_once (events : List (Event openFile ι)) :
    let s := (Config.init Session.new : Config openFile ι).run events
    let log := s.shared.log
    (s.started < 2 ^ 31 → s.shared.numbers.Nodup) ∧
    (∀ r slot, log.count (.release r slot) ≤ log.count (.acquire r slot) ∧
      log.count (.acquire r slot) ≤ 1) ∧
    (s.shared.slots.Nodup ∧ ∀ slot ∈ s.shared.slots,
      .acquire .memory slot ∈ log ∧ .release .memory slot ∉ log) ∧
    FreesSynced log ∧
    (s.closed → s.atRest →
      ∀ r slot, log.count (.release r slot) = log.count (.acquire r slot)) := by
  intro s log
  have hkept : (discipline ι).Kept s := init_kept.run admits events
  have hrest := fun hrest => hkept.exists_rest hrest
  obtain ⟨perms, ⟨lives, place, hinv⟩, -⟩ := hkept
  refine ⟨fun hcalls => ?_, fun r slot => ⟨?_, ?_⟩, ⟨hinv.held.nodup, fun slot hslot => ⟨?_, ?_⟩⟩,
    hinv.frees, fun hclosed hdone r slot => ?_⟩
  · have hle : s.shared.numbers.length < 2 ^ 31 :=
      Nat.lt_of_le_of_lt (Nat.le_of_add_right_le hinv.numbered.budget) hcalls
    rw [hinv.numbered.numbers]
    refine List.Nodup.map_on (fun a ha b hb hab => ?_) List.nodup_range
    rw [List.mem_range] at ha hb
    have hbits := congrArg BitVec.toNat hab
    rw [BitVec.toNat_ofNat, BitVec.toNat_ofNat, Nat.mod_eq_of_lt (by omega),
      Nat.mod_eq_of_lt (by omega)] at hbits
    exact hbits
  · rw [(hinv.accounts slot).given, (hinv.accounts slot).taken]
    exact Status.given_le_taken _
  · rw [(hinv.accounts slot).taken]
    exact Status.taken_le_one _
  · have harmed := hinv.held.armed slot ((hinv.held.listed slot).mp hslot)
    rw [← List.one_le_count_iff, (hinv.accounts slot).taken, harmed.memory]
    exact le_refl 1
  · have harmed := hinv.held.armed slot ((hinv.held.listed slot).mp hslot)
    rw [← List.count_eq_zero, (hinv.accounts slot).given, harmed.memory]
    rfl
  · obtain ⟨perms, ⟨lives, place, hinv⟩, hend⟩ := hrest hdone
    rw [(hinv.accounts slot).given, (hinv.accounts slot).taken, Status.given_eq_taken_iff]
    have hslots : s.shared.slots = [] := by
      obtain ⟨t, ht | ht⟩ := hinv.roles.closing hclosed
      · exact absurd ht (hend t).2
      · exact hinv.roles.emptied t ht
    refine hinv.held.ended slot ?_ r
    cases hplace : place slot with
    | nowhere => rfl
    | listed =>
      have := (hinv.held.listed slot).mpr hplace
      rw [hslots] at this
      cases this
    | heldBy t =>
      have howns := hinv.held.owns t slot
      rw [(hend t).1, if_pos hplace] at howns
      cases howns

section TwoThreads

def hwRequest : BpSet := ⟨1, bpKindHw, 0x1000, 4, bpW⟩

def uprobeRequest : BpSet := ⟨1, bpKindUprobe, 0x1000, 1, bpX⟩

/-- The thread takes some steps, in which nothing fails. -/
def steps (t : Fin 2) (n : ℕ) : List (Event openFile (Fin 2)) := List.replicate n (.act t (0 : ℕ))

/-- Two slots are armed side by side, one is cleared, and the file is released. -/
def twoThreads : List (Event openFile (Fin 2)) :=
  [.call 0 (Call.bpSet hwRequest), .call 1 (Call.bpSet uprobeRequest)] ++ steps 0 4 ++ steps 1 20 ++
    steps 0 8 ++ [.call 1 (Call.bpClear 0)] ++ steps 1 12 ++ [.close 0] ++ steps 0 20

theorem slots_torn_down_once_twoThreads :
    let s := (Config.init Session.new : Config openFile (Fin 2)).run twoThreads
    s.shared.numbers.Nodup ∧ ∀ r slot,
      s.shared.log.count (.release r slot) = s.shared.log.count (.acquire r slot) := by
  obtain ⟨hids, -, -, -, hreleased⟩ := slots_torn_down_once twoThreads
  exact ⟨hids (by decide +kernel), hreleased (by decide +kernel) (by decide +kernel)⟩

end TwoThreads

end Runs

end Nemclass.Kernel.Teardown
