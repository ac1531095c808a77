import Nemclass.Kernel.AccessFile

/-! The policy in force and how reloads of the configuration file change it. Every reload sees the
file in some state; the first one, at module load, is forced. -/
namespace Nemclass.Kernel

def eacces : ℤ := 13

/-- The credentials of a task that the open-time gate looks at. -/
structure Caller where
  capSysAdmin : Bool
  euid : ℕ
  egid : ℕ
  groups : List ℕ
deriving DecidableEq, Repr

/-- `in_egroup_p` -/
def Caller.inEgroup (c : Caller) (gid : ℕ) : Bool := gid == c.egid || c.groups.contains gid

/-- `nemclass_access_check_open`: without a policy, only `CAP_SYS_ADMIN` passes. -/
def accessCheckOpen (policy : Option Acl) (c : Caller) : ℤ :=
  if c.capSysAdmin then 0
  else
    match policy with
    | none => -eacces
    | some a => if a.uids.any (· == c.euid) || a.gids.any c.inEgroup then 0 else -eacces

/-- What change is detected by. -/
structure Fingerprint where
  size : ℕ
  mtimeSec : ℤ
  mtimeNsec : ℤ
  ino : ℕ
deriving DecidableEq, Repr

/-- What a reload meets at the file's path: the file cannot be opened; it is opened and reading it
fails (it is a directory, say); or it has a content. -/
inductive ConfigFile where
  | unavailable (errno : ℕ)
  | unreadable (fp : Fingerprint) (errno : ℕ)
  | readable (fp : Fingerprint) (content : List UInt8)
deriving DecidableEq, Repr

/-- The content, where the file can be opened and read. -/
def ConfigFile.content? : ConfigFile → Option (List UInt8)
  | .readable _ content => some content
  | _ => none

/-- The published snapshot and the fingerprint, which is present if it is valid. -/
structure AclState where
  policy : Option Acl
  fp : Option Fingerprint
deriving DecidableEq, Repr

def AclState.initial : AclState := ⟨none, none⟩

/-- `nemclass_acl_reload`, where memory can be allocated, with what it returns. -/
def reload (force : Bool) (file : ConfigFile) (st : AclState) : ℤ × AclState :=
  match file with
  | .unavailable errno => (-errno, if force || st.fp.isSome then ⟨none, none⟩ else st)
  | .unreadable fp errno => if !force && st.fp == some fp then (0, st) else (-errno, st)
  | .readable fp content =>
    if !force && st.fp == some fp then (0, st) else (0, ⟨some (snapshot content), some fp⟩)

/-- One reload after another, each with the state it leaves. -/
def reloads (force : Bool) (st : AclState) : List ConfigFile → List (ConfigFile × AclState)
  | [] => []
  | file :: files =>
    let st' := (reload force file st).2
    (file, st') :: reloads false st' files

/-- The reload at module load and the polls after it. -/
def fromLoad (files : List ConfigFile) : List (ConfigFile × AclState) :=
  reloads true AclState.initial files

/-- Files with the same fingerprint have the same content. -/
def Identifies (files : List ConfigFile) : Prop :=
  ∀ fp content content', .readable fp content ∈ files → .readable fp content' ∈ files →
    content = content'

/-- The policy is the parse of the current content, and where there is none to be read, nobody
without `CAP_SYS_ADMIN` passes. -/
structure Tracks (file : ConfigFile) (policy : Option Acl) : Prop where
  current : policy = file.content?.map snapshot
  closed : file.content? = none → ∀ c, accessCheckOpen policy c = 0 ↔ c.capSysAdmin = true

/-- The published snapshot is that of a file seen, whose fingerprint is kept; or there is neither. -/
def Consistent (files : List ConfigFile) (st : AclState) : Prop :=
  st = ⟨none, none⟩ ∨
    ∃ fp content, .readable fp content ∈ files ∧ st = ⟨some (snapshot content), some fp⟩

variable {files : List ConfigFile} {file : ConfigFile} {st : AclState} {force : Bool}

theorem accessCheckOpen_none (c : Caller) :
    accessCheckOpen none c = 0 ↔ c.capSysAdmin = true := by
  unfold accessCheckOpen
  split_ifs with h
  · simp [h]
  · simp [h, eacces]

theorem tracks_iff (policy : Option Acl) :
    Tracks file policy ↔ policy = file.content?.map snapshot := by
  refine ⟨fun h => h.current, fun h => ⟨h, fun hnone c => ?_⟩⟩
  rw [h, hnone, Option.map_none]
  exact accessCheckOpen_none c

theorem Consistent.reload (h : Consistent files st) (hfile : file ∈ files) :
    Consistent files (reload force file st).2 := by
  cases file with
  | unavailable errno =>
    simp only [Kernel.reload]
    split_ifs
    · exact .inl rfl
    · exact h
  | unreadable fp errno =>
    simp only [Kernel.reload]
    split_ifs <;> exact h
  | readable fp content =>
    simp only [Kernel.reload]
    split_ifs
    · exact h
    · exact .inr ⟨fp, content, hfile, rfl⟩

/-- The policy that a reload leaves: only where reading fails, it is not that of the file. -/
theorem policy_reload (hst : Consistent files st) (hid : Identifies files) (hfile : file ∈ files) :
    (reload force file st).2.policy =
      match file with
      | .unreadable _ _ => st.policy
      | _ => file.content?.map snapshot := by
  cases file with
  | unavailable errno =>
    simp only [reload]
    split_ifs with hclear
    · rfl
    · -- nothing is cleared where there is nothing to clear
      obtain rfl | ⟨fp, content, -, rfl⟩ := hst
      · rfl
      · simp at hclear
  | unreadable fp errno =>
    simp only [reload]
    split_ifs <;> rfl
  | readable fp content =>
    simp only [reload]
    split_ifs with hsame
    · -- the fingerprint is the one kept, and so is the content
      obtain rfl | ⟨fp', content', hmem, rfl⟩ := hst
      · simp at hsame
      · have hfp : fp' = fp := by simpa using (Bool.and_eq_true_iff.mp hsame).2
        subst hfp
        rw [hid fp' content' content hmem hfile]
        rfl
    · rfl

/-- A file that is opened and cannot be read does not directly follow one that can. -/
def Follows (before now : ConfigFile) : Prop :=
  now matches .unreadable .. → before.content? = none

theorem tracks_reload_iff (hst : Consistent files st) (hid : Identifies files)
    (hfile : file ∈ files) {before : ConfigFile}
    (hbefore : st.policy = before.content?.map snapshot) :
    Tracks file (reload force file st).2.policy ↔ Follows before file := by
  rw [tracks_iff, policy_reload hst hid hfile]
  cases file with
  | unavailable errno => simp [Follows]
  | unreadable fp errno =>
    cases before <;> simp [Follows, ConfigFile.content?, hbefore]
  | readable fp content => simp [Follows]

/-- Reloads that follow a state with the policy of a file. -/
theorem reloads_track_iff (hid : Identifies files) (polls : List ConfigFile)
    (hpolls : ∀ file ∈ polls, file ∈ files) (hst : Consistent files st) {before : ConfigFile}
    (hbefore : st.policy = before.content?.map snapshot) :
    (∀ after ∈ reloads force st polls, Tracks after.1 after.2.policy) ↔
      (before :: polls).IsChain Follows := by
  induction polls generalizing st force before with
  | nil => simp [reloads]
  | cons file polls ih =>
    have hfile := hpolls file List.mem_cons_self
    rw [reloads, List.forall_mem_cons, tracks_reload_iff hst hid hfile hbefore,
      List.isChain_cons_cons]
    refine and_congr_right fun hfollows => ?_
    have htracks : Tracks file (reload force file st).2.policy :=
      (tracks_reload_iff hst hid hfile hbefore).mpr hfollows
    exact ih (fun f hf => hpolls f (List.mem_cons_of_mem _ hf)) (hst.reload hfile) htracks.current

/-- From module load on, the policy tracks the file after every reload, if and only if no file that
cannot be read though it is opened directly follows one that was read. -/
theorem fromLoad_track_iff (hid : Identifies files) :
    (∀ after ∈ fromLoad files, Tracks after.1 after.2.policy) ↔ files.IsChain Follows := by
  have hnone : AclState.initial.policy = (ConfigFile.unavailable 2).content?.map snapshot := rfl
  have hinitial : Consistent files AclState.initial := .inl rfl
  rw [fromLoad, reloads_track_iff hid files (fun _ hf => hf) hinitial hnone]
  cases files with
  | nil => simp
  | cons file files => simp [Follows, ConfigFile.content?]

/-- A single content is identified by any fingerprint. -/
theorem Identifies.single (fp : Fingerprint) (content : List UInt8) {rest : List ConfigFile}
    (hrest : ∀ file ∈ rest, file.content? = none) : Identifies (.readable fp content :: rest) := by
  have honly : ∀ fp' content', .readable fp' content' ∈ .readable fp content :: rest →
      content' = content := by
    intro fp' content' h
    rcases List.mem_cons.mp h with h | h
    · cases h
      rfl
    · cases hrest _ h
  intro fp' first second hfirst hsecond
  rw [honly fp' first hfirst, honly fp' second hsecond]

/-- `uid 1` as the content, then a directory in the file's place, and then no file. -/
def replacedFile : List ConfigFile :=
  [.readable ⟨5, 0, 0, 7⟩ [0x75, 0x69, 0x64, 0x20, 0x31], .unreadable ⟨4096, 9, 0, 8⟩ 21,
    .unavailable 2]

/-- The user 1 still passes after the reload that could not read the directory. -/
theorem replacedFile_stays : ¬ ∀ files, Identifies files →
    ∀ after ∈ fromLoad files, Tracks after.1 after.2.policy := by
  intro h
  have hstays : (ConfigFile.unreadable ⟨4096, 9, 0, 8⟩ 21,
      (⟨some ⟨[1], []⟩, some ⟨5, 0, 0, 7⟩⟩ : AclState)) ∈ fromLoad replacedFile := by
    decide +kernel
  have hpasses := (h replacedFile (.single _ _ (by decide)) _ hstays).closed rfl ⟨false, 1, 1, []⟩
  revert hpasses
  decide

/-- `uid 1` as the content, and then no file. -/
def removedFile : List ConfigFile :=
  [.readable ⟨5, 0, 0, 7⟩ [0x75, 0x69, 0x64, 0x20, 0x31], .unavailable 2]

/-- Without the directory between them, both files are tracked. -/
theorem fromLoad_track_removed : Identifies removedFile ∧
    ∀ after ∈ fromLoad removedFile, Tracks after.1 after.2.policy := by
  have hid : Identifies removedFile := .single _ _ (by decide)
  refine ⟨hid, (fromLoad_track_iff hid).mpr ?_⟩
  simp [removedFile, Follows]

end Nemclass.Kernel
