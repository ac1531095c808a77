import Nemclass.Kernel.SlotSteps

/-! The discipline of an open file's threads: an operation that a thread may do keeps the books and
gives the thread the permission that it goes on with. -/
namespace Nemclass.Kernel.Teardown
open Interleaving

variable {ι : Type} [Fintype ι] [DecidableEq ι] {closed : Bool} {started : ℕ} {σ σ' : Session}
  {perms perms' : ι → Perm} {lives : Ptr → Life} {place : Ptr → Place ι} {t : ι} {slot : Ptr}
  {life : Life}

/-- What an operation leaves behind, for the thread that does it. -/
def Goes (closed : Bool) (started : ℕ) (perms : ι → Perm) (t : ι) (o : Op) (x : ℕ) (σ : Session) :
    Prop :=
  ∃ p, (perms t).Post o (Session.exec o x σ).1 p ∧ ∃ lives place,
    Inv closed started (Session.exec o x σ).2 (Function.update perms t p) lives place

theorem Inv.same (h : Inv closed started σ perms lives place) :
    Inv closed started σ (Function.update perms t (perms t)) lives place := by
  rw [Function.update_eq_self]
  exact h

theorem not_of_ne {r : Resource} {s : Ptr} (hs : s ≠ slot) :
    ¬ (Effect.acquire r slot).Of s ∧ ¬ (Effect.release r slot).Of s := by
  constructor
  · rintro ⟨r', h | h⟩ <;> cases h
    exact hs rfl
  · rintro ⟨r', h | h⟩ <;> cases h
    exact hs rfl

theorem Inv.kzalloc (h : Inv closed started σ perms lives place) (t : ι) (x : ℕ) :
    Goes closed started perms t .kzalloc x σ := by
  unfold Goes Session.exec
  by_cases hx : x = 0
  · simp only [if_pos hx]
    obtain ⟨hnowhere, hfresh⟩ := h.held.unborn σ.allocated (le_refl _)
    have hold := h.accounts σ.allocated
    have hunborn : Accounts ({ σ with
        allocated := σ.allocated + 1
        links := Function.update σ.links σ.allocated ⟨false, false, false, false⟩ } : Session)
          σ.allocated .unborn := by
      refine ⟨fun r => ?_, fun r => ?_, Function.update_self .., fun hsynced => nomatch hsynced⟩
      · exact (hold.taken r).trans (congrArg Status.taken (hfresh r))
      · exact (hold.given r).trans (congrArg Status.given (hfresh r))
    have hmoved : Inv closed started σ.kzalloc (Function.update perms t
        ((perms t).set σ.allocated (if (.heldBy t : Place ι) = .heldBy t then some .born else none)))
          (Function.update lives σ.allocated .born)
            (Function.update place σ.allocated (.heldBy t)) := by
      refine h.relocate (fun t' ht => ?_) (fun t' ht => (Place.heldBy.inj ht).symm)
        (Nat.lt_succ_self _) (Nat.le_succ _) (h.held.listed_update ?_ (fun hb => nomatch hb)) h.held.nodup
        (fun hb => nomatch hb) (fun hb => nomatch hb) (hunborn.take rfl rfl (Function.update_self ..))
        (fun s hs l hl => ?_) (h.frees.append _ fun s hs => nomatch hs) ?_ rfl fun _ hempty => hempty
      · rw [hnowhere] at ht
        cases ht
      · rw [hnowhere]
        exact nofun
      · exact hl.append rfl (not_of_ne hs).1 ((Function.update_of_ne hs ..).trans hl.links)
      · exact (numbers_append (e := .acquire .memory σ.allocated) rfl).trans (List.append_nil _)
    rw [if_pos rfl] at hmoved
    exact ⟨_, rfl, _, _, hmoved⟩
  · simp only [if_neg hx]
    exact ⟨perms t, rfl, lives, place, h.same⟩

theorem Inv.number (h : Inv closed started σ perms lives place) (slot : Ptr) (x : ℕ)
    (hpos : 0 < (perms t).numbers) : Goes closed started perms t (.number slot) x σ := by
  refine ⟨_, rfl, lives, place, ?_⟩
  constructor
  · intro s
    refine (h.accounts s).append rfl ?_ (h.accounts s).links
    rintro ⟨r, h | h⟩ <;> cases h
  · exact h.frees.append _ fun s hs => nomatch hs
  · exact h.held.congr rfl rfl (update_eq (f := Perm.owns) rfl)
  · exact h.numbered.number slot (Nat.sub_add_cancel hpos)
  · exact h.roles.congr (update_eq (f := Perm.role) rfl) fun _ hempty => hempty

/-- A resource is taken for a slot that the thread keeps. -/
theorem Inv.take (h : Inv closed started σ perms lives place) {r : Resource}
    (howns : (perms t).owns slot = some life) (hfresh : life.status r = .fresh) :
    ∃ lives, Inv closed started (σ.record (.acquire r slot))
      (Function.update perms t ((perms t).set slot (some (life.take r)))) lives place := by
  refine h.keep howns rfl rfl (fun hbefore => hbefore.take hfresh rfl hbefore.links)
    (fun s hs l hl => hl.append rfl (not_of_ne hs).1 hl.links)
    (h.frees.append _ fun s hs => nomatch hs) ?_ rfl
  exact (numbers_append (e := .acquire r slot) rfl).trans (List.append_nil _)

theorem Inv.acquire (h : Inv closed started σ perms lives place) {r : Resource} (x : ℕ)
    (hpre : (perms t).Pre (.acquire r slot)) :
    Goes closed started perms t (.acquire r slot) x σ := by
  obtain ⟨-, life, howns, hfresh⟩ := hpre
  unfold Goes Session.exec
  by_cases hx : x = 0
  · obtain ⟨lives', htaken⟩ := h.take howns hfresh
    refine ⟨(perms t).set slot (some (life.take r)), fun l hl => ?_, lives', place, ?_⟩
    · rw [howns] at hl
      cases hl
      rw [if_pos hx]
    · simp only [if_pos hx]
      exact htaken
  · refine ⟨perms t, fun l hl => ?_, lives, place, ?_⟩
    · rw [if_neg hx]
    · simp only [if_neg hx]
      exact h.same

theorem Inv.mmgrab (h : Inv closed started σ perms lives place) (x : ℕ)
    (hpre : (perms t).Pre (.mmgrab slot)) : Goes closed started perms t (.mmgrab slot) x σ := by
  obtain ⟨life, howns, hfresh⟩ := hpre
  obtain ⟨lives', htaken⟩ := h.take howns hfresh
  refine ⟨(perms t).set slot (some (life.take .mm)), fun l hl => ?_, lives', place, htaken⟩
  rw [howns] at hl
  cases hl
  rfl

theorem Inv.free (h : Inv closed started σ perms lives place) (x : ℕ)
    (hpre : (perms t).Pre (.release .memory slot)) :
    Goes closed started perms t (.release .memory slot) x σ := by
  obtain ⟨life, howns, hspent⟩ := hpre
  obtain ⟨hplace, rfl⟩ := h.held.of_owns howns
  have haccount := h.accounts slot
  have hmoved : Inv closed started (σ.record (.release .memory slot)) (Function.update perms t
      ((perms t).set slot
        (if (.nowhere : Place ι) = .heldBy t then some ((lives slot).drop .memory) else none)))
        (Function.update lives slot ((lives slot).drop .memory))
          (Function.update place slot .nowhere) := by
    refine h.relocate (fun t' ht => ?_) (fun t' ht => nomatch ht) ?_ (le_refl _)
      (h.held.listed_update ?_ (fun hb => nomatch hb)) h.held.nodup (fun hb => nomatch hb)
      (fun _ r => ?_) (haccount.drop hspent.memory rfl haccount.links)
      (fun s hs l hl => hl.append rfl (not_of_ne hs).2 hl.links)
      (h.frees.append _ fun s hs huprobe => ?_) ?_ rfl fun _ hempty => hempty
    · rw [hplace] at ht
      exact (Place.heldBy.inj ht).symm
    · exact h.held.lt_allocated (by rw [hplace]; exact nofun)
    · rw [hplace]
      exact nofun
    · by_cases hr : r = .memory
      · subst hr
        show Function.update (lives slot).status .memory .released .memory ≠ .held
        rw [Function.update_self]
        exact nofun
      · exact fun hheld => hspent.others r hr ((Function.update_of_ne hr ..).symm.trans hheld)
    · cases hs
      exact haccount.free_synced hspent huprobe
    · exact (numbers_append (e := .release .memory slot) rfl).trans (List.append_nil _)
  rw [if_neg nofun] at hmoved
  exact ⟨_, rfl, _, _, hmoved⟩

theorem Inv.release (h : Inv closed started σ perms lives place) {r : Resource} (x : ℕ)
    (hpre : (perms t).Pre (.release r slot)) :
    Goes closed started perms t (.release r slot) x σ := by
  by_cases hr : r = .memory
  · subst hr
    exact h.free x hpre
  · obtain ⟨life, howns, hheld⟩ : ∃ life, (perms t).owns slot = some life ∧ life.status r = .held := by
      cases r <;> first | exact absurd rfl hr | exact hpre
    obtain ⟨lives', hdropped⟩ : ∃ lives', Inv closed started (σ.record (.release r slot))
        (Function.update perms t ((perms t).set slot (some (life.drop r)))) lives' place := by
      refine h.keep howns rfl rfl (fun hbefore => hbefore.drop hheld rfl hbefore.links)
        (fun s hs l hl => hl.append rfl (not_of_ne hs).2 hl.links)
        (h.frees.append _ fun s hs => ?_) ?_ rfl
      · cases hs
        exact absurd rfl hr
      · exact (numbers_append (e := .release r slot) rfl).trans (List.append_nil _)
    refine ⟨(perms t).set slot (some (life.drop r)), ?_, lives', place, hdropped⟩
    have hpost (l : Life) (hl : (perms t).owns slot = some l) :
        (perms t).set slot (some (life.drop r)) = (perms t).set slot (some (l.drop r)) := by
      rw [howns] at hl
      cases hl
      rfl
    cases r <;> first | exact absurd rfl hr | exact hpost

theorem Inv.load (h : Inv closed started σ perms lives place) (x : ℕ) :
    Goes closed started perms t (.load slot) x σ := by
  refine ⟨perms t, ⟨rfl, fun l hl => ?_⟩, lives, place, h.same⟩
  obtain ⟨-, rfl⟩ := h.held.of_owns hl
  exact (h.accounts slot).links

theorem Inv.store (h : Inv closed started σ perms lives place) (f : Links → Links) (x : ℕ)
    (hpre : (perms t).Pre (.store slot f)) : Goes closed started perms t (.store slot f) x σ := by
  obtain ⟨life, howns⟩ := Option.ne_none_iff_exists'.mp hpre
  obtain ⟨lives', hstored⟩ : ∃ lives', Inv closed started (Session.exec (.store slot f) x σ).2
      (Function.update perms t ((perms t).set slot (some (life.relink f)))) lives' place := by
    refine h.keep howns rfl rfl (fun hbefore => ?_) (fun s hs l hl => ?_) h.frees rfl rfl
    · have hlinks : f (σ.links slot) = f life.links := congrArg f hbefore.links
      exact ⟨hbefore.taken, hbefore.given, (Function.update_self ..).trans hlinks, hbefore.synced⟩
    · exact hl.congr rfl ((Function.update_of_ne hs ..).trans hl.links)
  refine ⟨_, fun l hl => ?_, lives', place, hstored⟩
  rw [howns] at hl
  cases hl
  rfl

theorem Inv.list (h : Inv closed started σ perms lives place) (x : ℕ)
    (hpre : (perms t).Pre (.list slot)) : Goes closed started perms t (.list slot) x σ := by
  obtain ⟨hcaller, life, howns, harmed⟩ := hpre
  obtain ⟨hplace, rfl⟩ := h.held.of_owns howns
  have hopen : closed = false := (h.roles.caller t).mp hcaller
  have hnew : slot ∉ σ.slots := by
    rw [h.held.listed, hplace]
    exact nofun
  have hmoved : Inv closed started ({ σ with slots := σ.slots ++ [slot] } : Session)
      (Function.update perms t ((perms t).set slot
        (if (.listed : Place ι) = .heldBy t then some (lives slot) else none)))
        (Function.update lives slot (lives slot)) (Function.update place slot .listed) := by
    refine h.relocate (fun t' ht => ?_) (fun t' ht => nomatch ht) ?_ (le_refl _) (fun s => ?_) ?_
      (fun _ => harmed) (fun hb => nomatch hb) ((h.accounts slot).congr rfl (h.accounts slot).links)
      (fun s hs l hl => hl.congr rfl hl.links) h.frees rfl rfl fun hclosed => ?_
    · rw [hplace] at ht
      exact (Place.heldBy.inj ht).symm
    · exact h.held.lt_allocated (by rw [hplace]; exact nofun)
    · rw [List.mem_append, List.mem_singleton, h.held.listed]
      by_cases hs : s = slot
      · subst hs
        rw [Function.update_self]
        exact iff_of_true (.inr rfl) rfl
      · rw [Function.update_of_ne hs]
        exact or_iff_left hs
    · exact List.nodup_append.mpr ⟨h.held.nodup, List.nodup_singleton slot, fun a ha b hb => by
        rintro rfl
        exact hnew (List.mem_singleton.mp hb ▸ ha)⟩
    · rw [hopen] at hclosed
      cases hclosed
  rw [if_neg nofun] at hmoved
  exact ⟨_, rfl, _, _, hmoved⟩

theorem Inv.unlist (h : Inv closed started σ perms lives place) (id : BitVec 32) (x : ℕ) :
    Goes closed started perms t (.unlist id) x σ := by
  unfold Goes
  simp only [Session.exec]
  cases hfind : σ.slots.find? (σ.ids · == id) with
  | none => exact ⟨perms t, rfl, lives, place, h.same⟩
  | some slot =>
    have hmem := List.mem_of_find?_eq_some hfind
    have hplace := (h.held.listed slot).mp hmem
    have hmoved : Inv closed started ({ σ with slots := σ.slots.erase slot } : Session)
        (Function.update perms t ((perms t).set slot
          (if (.heldBy t : Place ι) = .heldBy t then some (lives slot) else none)))
          (Function.update lives slot (lives slot)) (Function.update place slot (.heldBy t)) := by
      refine h.relocate (fun t' ht => ?_) (fun t' ht => (Place.heldBy.inj ht).symm) ?_ (le_refl _)
        (fun s => ?_) (h.held.nodup.erase slot) (fun hb => nomatch hb) (fun hb => nomatch hb)
        ((h.accounts slot).congr rfl (h.accounts slot).links)
        (fun s hs l hl => hl.congr rfl hl.links) h.frees rfl rfl fun _ hempty => ?_
      · rw [hplace] at ht
        cases ht
      · exact h.held.lt_allocated (by rw [hplace]; exact nofun)
      · rw [h.held.nodup.mem_erase_iff, h.held.listed]
        by_cases hs : s = slot
        · subst hs
          rw [Function.update_self]
          exact iff_of_false (fun hboth => hboth.1 rfl) nofun
        · rw [Function.update_of_ne hs]
          exact and_iff_right hs
      · rw [hempty] at hmem
        cases hmem
    rw [if_pos rfl] at hmoved
    refine ⟨_, ⟨?_, lives slot, h.held.armed slot hplace, rfl⟩, _, _, hmoved⟩
    rw [h.held.owns, hplace]
    exact if_neg nofun

/-- All listed slots go to the thread that closes. -/
theorem Inv.splice (h : Inv closed started σ perms lives place) (x : ℕ)
    (hclosing : (perms t).role = .closing) : Goes closed started perms t .splice x σ := by
  have hplaced (s : Ptr) (hs : s ∉ σ.slots) : place s ≠ .listed := fun hp => hs ((h.held.listed s).mpr hp)
  have hclosed : closed = true := by
    rw [← Bool.not_eq_false, ← h.roles.caller t, hclosing]
    decide
  refine ⟨_, ⟨lives, h.held.nodup, fun s hs => ⟨?_, ?_⟩, rfl⟩, lives,
    fun s => if s ∈ σ.slots then .heldBy t else place s, ?_⟩
  · exact h.held.armed s ((h.held.listed s).mp hs)
  · rw [h.held.owns, (h.held.listed s).mp hs]
    exact if_neg nofun
  · constructor
    · exact fun s => (h.accounts s).congr rfl (h.accounts s).links
    · exact h.frees
    · constructor
      · intro t' s
        by_cases ht : t' = t
        · subst ht
          rw [Function.update_self]
          by_cases hs : s ∈ σ.slots
          · simp [hs, Session.exec]
          · simp [hs, Session.exec, h.held.owns]
        · rw [Function.update_of_ne ht, h.held.owns]
          by_cases hs : s ∈ σ.slots
          · have hp := (h.held.listed s).mp hs
            simp [hs, hp, Ne.symm ht]
          · simp [hs]
      · intro s
        refine iff_of_false (List.not_mem_nil) ?_
        split
        · exact nofun
        · exact hplaced s ‹_›
      · exact List.nodup_nil
      · intro s hs
        split at hs
        · cases hs
        · exact absurd hs (hplaced s ‹_›)
      · intro s hs
        split at hs
        · cases hs
        · exact h.held.ended s hs
      · intro s hs
        obtain ⟨hp, hfresh⟩ := h.held.unborn s hs
        have hnot : s ∉ σ.slots := by
          rw [h.held.listed, hp]
          exact nofun
        exact ⟨(if_neg hnot).trans hp, hfresh⟩
    · exact h.numbered.congr rfl rfl (update_eq (f := Perm.numbers) rfl)
    · constructor
      · intro t'
        by_cases ht : t' = t
        · subst ht
          rw [Function.update_self, hclosed]
          exact iff_of_false nofun nofun
        · rw [Function.update_of_ne ht, h.roles.caller]
      · exact fun _ => ⟨t, by rw [Function.update_self]; exact .inr rfl⟩
      · exact fun _ _ => rfl

/-- A sync ends what handlers the thread's own slots had. -/
theorem Inv.sync (h : Inv closed started σ perms lives place) (x : ℕ) :
    Goes closed started perms t .sync x σ := by
  refine ⟨_, rfl, fun s => if place s = .heldBy t then (lives s).sync else lives s, place, ?_⟩
  constructor
  · intro s
    have haccount := h.accounts s
    split
    · exact haccount.sync rfl haccount.links
    · refine haccount.append rfl ?_ haccount.links
      rintro ⟨r, h | h⟩ <;> cases h
  · exact h.frees.append _ fun s hs => nomatch hs
  · constructor
    · intro t' s
      by_cases ht : t' = t
      · subst ht
        rw [Function.update_self]
        dsimp only
        rw [h.held.owns]
        split <;> rfl
      · rw [Function.update_of_ne ht, h.held.owns]
        by_cases hp : place s = .heldBy t'
        · have hother : place s ≠ .heldBy t := fun heq => ht (Place.heldBy.inj (hp.symm.trans heq))
          rw [if_pos hp, if_pos hp, if_neg hother]
        · simp [hp]
    · exact h.held.listed
    · exact h.held.nodup
    · intro s hs
      rw [if_neg (by rw [hs]; exact nofun)]
      exact h.held.armed s hs
    · intro s hs
      rw [if_neg (by rw [hs]; exact nofun)]
      exact h.held.ended s hs
    · intro s hs
      obtain ⟨hp, hfresh⟩ := h.held.unborn s hs
      rw [if_neg (by rw [hp]; exact nofun)]
      exact ⟨hp, hfresh⟩
  · refine h.numbered.congr ?_ rfl (update_eq (f := Perm.numbers) rfl)
    exact (numbers_append (e := .sync) rfl).trans (List.append_nil _)
  · exact h.roles.congr (update_eq (f := Perm.role) rfl) fun _ hempty => hempty

theorem Inv.act (h : Inv closed started σ perms lives place) {o : Op} (x : ℕ)
    (hpre : (perms t).Pre o) : Goes closed started perms t o x σ := by
  cases o with
  | ask | readId => exact ⟨perms t, rfl, lives, place, h.same⟩
  | kzalloc => exact h.kzalloc t x
  | number slot => exact h.number slot x hpre.1
  | acquire r slot => exact h.acquire x hpre
  | mmgrab slot => exact h.mmgrab x hpre
  | release r slot => exact h.release x hpre
  | load slot => exact h.load x
  | store slot f => exact h.store f x hpre
  | list slot => exact h.list x hpre
  | unlist id => exact h.unlist id x
  | splice => exact h.splice x hpre
  | sync => exact h.sync x

variable (ι) in
/-- The discipline of an open file. -/
def discipline : Discipline openFile ι where
  Perm := Perm
  Pre := Perm.Pre
  Post := Perm.Post
  Rest := Perm.Rest
  Inv closed started σ perms := ∃ lives place, Inv closed started σ perms lives place
  act x h hpre := by
    obtain ⟨lives, place, hinv⟩ := h
    exact hinv.act x hpre

end Nemclass.Kernel.Teardown
