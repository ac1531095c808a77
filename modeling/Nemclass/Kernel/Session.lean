import Nemclass.Kernel.AccessPolicy
import Nemclass.Lib.Trace

/-! The ioctls of one open file: the handshake with the module's key, which locks after too many
wrong keys, and the dispatch of everything else. Each call comes from whatever task holds the file
and meets whatever policy is then in force. -/
namespace Nemclass.Kernel
open Trace

def efault : ℤ := 14
def enotty : ℤ := 25

def keyMax : ℕ := 64

/-- `hex2bin`: two digits a byte. -/
def hex2bin : List UInt8 → Option (List UInt8)
  | hi :: lo :: src =>
    if digitValue hi < 16 ∧ digitValue lo < 16 then
      (hex2bin src).map (UInt8.ofNat (digitValue hi * 16 + digitValue lo) :: ·)
    else none
  | [] => some []
  | [_] => none

/-- `nemclass_parse_key`: the key that the module is loaded with, empty where none is given; with
an invalid one it is not loaded. -/
def parseKey (param : Option (List UInt8)) : Option (List UInt8) :=
  match param.map cstr with
  | none => some []
  | some [] => some []
  | some key => if key.length % 2 ≠ 0 ∨ keyMax < key.length / 2 then none else hex2bin key

/-- `struct nemclass_auth` -/
structure Auth where
  key : Vector UInt8 keyMax
  keyLen : UInt32

/-- What the handshake keeps in `struct nemclass_session`. -/
structure Session where
  authed : Bool
  authFailures : ℕ
deriving DecidableEq, Repr

def Session.opened : Session := ⟨false, 0⟩

def authMaxFailures : ℕ := 16

/-- `nemclass_do_auth`; there is no argument where it cannot be copied from the user. -/
def doAuth (key : List UInt8) (sess : Session) (arg : Option Auth) : ℤ × Session :=
  match arg with
  | none => (-efault, sess)
  | some a =>
    if key.length = 0 then (-eacces, sess)
    else if authMaxFailures ≤ sess.authFailures then (-eacces, sess)
    else if a.keyLen.toNat ≠ key.length ∨ a.key.toList.take key.length ≠ key then
      (-eacces, { sess with authFailures := sess.authFailures + 1 })
    else (0, { sess with authed := true, authFailures := 0 })

inductive Handler where
  | read
  | write
  | enumRegions
  | bpSet
  | bpClear
  | waitEvent
  | ptraceQuery
  | ptraceHide
deriving DecidableEq, Repr

/-- The ioctl's command and what its argument is to it; `unknown` is any other number. -/
inductive Command where
  | version (writable : Bool)
  | auth (arg : Option Auth)
  | privileged (handler : Handler)
  | unknown

def Command.isAuth : Command → Bool
  | .auth _ => true
  | _ => false

structure Call where
  policy : Option Acl
  caller : Caller
  command : Command

inductive Reply where
  | returned (ret : ℤ)
  | handled (handler : Handler)
deriving DecidableEq, Repr

/-- `nemclass_ioctl`, up to what the handlers do. -/
def ioctl (key : List UInt8) (sess : Session) (call : Call) : Reply × Session :=
  match call.command with
  | .version writable => (.returned (if writable then 0 else -efault), sess)
  | .auth arg => (.returned (doAuth key sess arg).1, (doAuth key sess arg).2)
  | command =>
    if !sess.authed then (.returned (-eacces), sess)
    else if accessCheckOpen call.policy call.caller ≠ 0 then (.returned (-eacces), sess)
    else
      match command with
      | .privileged handler => (.handled handler, sess)
      | _ => (.returned (-enotty), sess)

/-- The argument presents exactly the key, which is not empty. -/
structure Presents (key : List UInt8) (a : Auth) : Prop where
  nonempty : key ≠ []
  length : a.keyLen.toNat = key.length
  bytes : a.key.toList.take a.keyLen.toNat = key

section Attempts

/-- A handshake that succeeds. -/
def accepted (p : Call × Reply) : Bool := p.1.command.isAuth && p.2 == .returned 0

/-- A handshake that is refused. -/
def refused (p : Call × Reply) : Bool := p.1.command.isAuth && p.2 == .returned (-eacces)

/-- The failed attempts since the last success, or since the file was opened. -/
def failures (past : List (Call × Reply)) : ℕ :=
  (past.reverse.takeWhile (!accepted ·)).countP refused

theorem failures_concat (past : List (Call × Reply)) (p : Call × Reply) :
    failures (past ++ [p]) =
      if accepted p then 0 else failures past + if refused p then 1 else 0 := by
  rw [failures, List.reverse_append, List.reverse_singleton, List.singleton_append]
  cases haccepted : accepted p with
  | true => simp [haccepted]
  | false => simp [haccepted, failures, List.countP_cons]

theorem failures_refused (past : List (Call × Reply)) {call : Call}
    (hauth : call.command.isAuth = true) :
    failures (past ++ [(call, .returned (-eacces))]) = failures past + 1 := by
  rw [failures_concat]
  simp [accepted, refused, hauth, eacces]

end Attempts

variable {key : List UInt8} {sess : Session}

/-- Whatever else a key is compared with, nothing is accepted any more. -/
def Locked (key : List UInt8) (sess : Session) : Prop :=
  key = [] ∨ authMaxFailures ≤ sess.authFailures

theorem doAuth_locked (h : Locked key sess) (a : Auth) :
    doAuth key sess (some a) = (-eacces, sess) := by
  simp only [doAuth, List.length_eq_zero_iff]
  rcases h with h | h
  · rw [if_pos h]
  · rw [if_pos h, ite_self]

theorem doAuth_presents (h : ¬ Locked key sess) {a : Auth} (ha : Presents key a) :
    doAuth key sess (some a) = (0, ⟨true, 0⟩) := by
  obtain ⟨hne, hroom⟩ := not_or.mp h
  have hsame : ¬ (a.keyLen.toNat ≠ key.length ∨ a.key.toList.take key.length ≠ key) := by
    rw [not_or, not_not, not_not]
    exact ⟨ha.length, ha.length ▸ ha.bytes⟩
  simp only [doAuth, List.length_eq_zero_iff]
  rw [if_neg hne, if_neg hroom, if_neg hsame]

theorem doAuth_wrong (h : ¬ Locked key sess) {a : Auth} (ha : ¬ Presents key a) :
    doAuth key sess (some a) =
      (-eacces, { sess with authFailures := sess.authFailures + 1 }) := by
  obtain ⟨hne, hroom⟩ := not_or.mp h
  have hother : a.keyLen.toNat ≠ key.length ∨ a.key.toList.take key.length ≠ key := by
    by_contra hsame
    obtain ⟨hlen, hbytes⟩ := not_or.mp hsame
    rw [not_not] at hlen hbytes
    exact ha ⟨hne, hlen, hlen ▸ hbytes⟩
  simp only [doAuth, List.length_eq_zero_iff]
  rw [if_neg hne, if_neg hroom, if_pos hother]

/-- Only the handshake changes the session. -/
theorem ioctl_session (call : Call) (h : call.command.isAuth = false) :
    (ioctl key sess call).2 = sess := by
  unfold ioctl
  cases hcommand : call.command with
  | version writable => rfl
  | auth arg =>
    rw [hcommand] at h
    cases h
  | privileged handler =>
    dsimp only
    split_ifs <;> rfl
  | unknown =>
    dsimp only
    split_ifs <;> rfl

theorem ioctl_handled {call : Call} {handler : Handler}
    (h : (ioctl key sess call).1 = .handled handler) :
    sess.authed = true ∧ accessCheckOpen call.policy call.caller = 0 := by
  unfold ioctl at h
  cases hcommand : call.command with
  | version writable =>
    rw [hcommand] at h
    cases h
  | auth arg =>
    rw [hcommand] at h
    cases h
  | privileged handler' =>
    rw [hcommand] at h
    dsimp only at h
    split_ifs at h with hauthed haccess
    exact ⟨by simpa using hauthed, not_not.mp haccess⟩
  | unknown =>
    rw [hcommand] at h
    dsimp only at h
    split_ifs at h

/-- A call that is answered by a handler comes after a handshake with the key, made when there were
few failures behind it. -/
def Authenticated (key : List UInt8) (past : List (Call × Reply)) : Prop :=
  ∃ earlier call reply later a, past = earlier ++ (call, reply) :: later ∧
    call.command = .auth (some a) ∧ Presents key a ∧ failures earlier < authMaxFailures

theorem Authenticated.append {past : List (Call × Reply)} (h : Authenticated key past)
    (more : List (Call × Reply)) : Authenticated key (past ++ more) := by
  obtain ⟨earlier, call, reply, later, a, rfl, hrest⟩ := h
  exact ⟨earlier, call, reply, later ++ more, a, by simp, hrest⟩

theorem Authenticated.nonempty {past : List (Call × Reply)} (h : Authenticated key past) :
    key ≠ [] := by
  obtain ⟨_, _, _, _, a, _, _, hpresents, _⟩ := h
  exact hpresents.nonempty

/-- The session's counter is that of the failed attempts, and its flag is set by a handshake. -/
structure Accounts (key : List UInt8) (past : List (Call × Reply)) (sess : Session) : Prop where
  counter : key ≠ [] → sess.authFailures = min (failures past) authMaxFailures
  authed : sess.authed = true → Authenticated key past

theorem Accounts.opened : Accounts key [] Session.opened where
  counter _ := rfl
  authed h := by cases h

/-- What is no handshake, or one without an argument, leaves all as it is. -/
theorem Accounts.of_same {past : List (Call × Reply)} (h : Accounts key past sess)
    {p : Call × Reply} (haccepted : accepted p = false) (hrefused : refused p = false) :
    Accounts key (past ++ [p]) sess where
  counter hne := by
    rw [failures_concat, haccepted, hrefused]
    exact h.counter hne
  authed hauthed := (h.authed hauthed).append [p]

theorem Accounts.ioctl {past : List (Call × Reply)} (h : Accounts key past sess) (call : Call) :
    Accounts key (past ++ [(call, (ioctl key sess call).1)]) (ioctl key sess call).2 := by
  cases hauth : call.command.isAuth with
  | false =>
    rw [ioctl_session call hauth]
    exact h.of_same (by simp [accepted, hauth]) (by simp [refused, hauth])
  | true =>
    obtain ⟨arg, hcommand⟩ : ∃ arg, call.command = .auth arg := by
      cases hcommand : call.command with
      | auth arg => exact ⟨arg, rfl⟩
      | _ => rw [hcommand] at hauth; cases hauth
    have hioctl : Kernel.ioctl key sess call =
        (.returned (doAuth key sess arg).1, (doAuth key sess arg).2) := by
      rw [Kernel.ioctl, hcommand]
    rw [hioctl]
    cases arg with
    | none =>
      exact h.of_same (p := (call, .returned (-efault))) (by simp [accepted, efault])
        (by simp [refused, efault, eacces])
    | some a =>
      by_cases hlocked : Locked key sess
      · rw [doAuth_locked hlocked]
        refine ⟨fun hne => ?_, fun hauthed => (h.authed hauthed).append _⟩
        -- the counter stays where it is, at its end
        have hfull := hlocked.resolve_left hne
        have hcounter := h.counter hne
        rw [failures_refused past hauth]
        dsimp only
        omega
      · by_cases ha : Presents key a
        · rw [doAuth_presents hlocked ha]
          refine ⟨fun hne => ?_, fun _ => ?_⟩
          · rw [failures_concat]
            simp [accepted, hauth]
          · obtain ⟨hne, hroom⟩ := not_or.mp hlocked
            have hcounter := h.counter hne
            exact ⟨past, call, _, [], a, rfl, hcommand, ha, by omega⟩
        · rw [doAuth_wrong hlocked ha]
          refine ⟨fun hne => ?_, fun hauthed => (h.authed hauthed).append _⟩
          have hroom := (not_or.mp hlocked).2
          have hcounter := h.counter hne
          rw [failures_refused past hauth]
          dsimp only
          omega

theorem Locked.ioctl (h : Locked key sess) (call : Call) :
    (ioctl key sess call).2 = sess ∧ accepted (call, (ioctl key sess call).1) = false := by
  cases hcommand : call.command with
  | auth arg =>
    rw [Kernel.ioctl, hcommand]
    cases arg with
    | none => simp [doAuth, accepted, efault]
    | some a => simp [doAuth_locked h a, accepted, eacces]
  | _ =>
    have hauth : call.command.isAuth = false := by rw [hcommand]; rfl
    exact ⟨ioctl_session call hauth, by simp [accepted, hauth]⟩

/-- A key that is not empty is what the parameter's hexadecimal text says. -/
theorem parseKey_nonempty {param : Option (List UInt8)} (h : parseKey param = some key)
    (hne : key ≠ []) : ∃ text, param = some text ∧ hex2bin (cstr text) = some key := by
  cases param with
  | none =>
    cases h
    exact absurd rfl hne
  | some text =>
    refine ⟨text, rfl, ?_⟩
    rw [parseKey, Option.map_some] at h
    cases htext : cstr text with
    | nil =>
      rw [htext] at h
      cases h
      exact absurd rfl hne
    | cons c rest =>
      rw [htext] at h
      dsimp only at h
      split_ifs at h
      exact h

/-- In every run of ioctls on one file, a handler is reached only behind a handshake with the key
and with the caller let in, and after the last of the allowed failures no handshake succeeds. -/
theorem ioctl_run {param : Option (List UInt8)} (hkey : parseKey param = some key)
    (calls : List Call) :
    (∀ past call handler later,
      trace (ioctl key) Session.opened calls = past ++ (call, .handled handler) :: later →
        (∃ text, param = some text ∧ hex2bin (cstr text) = some key) ∧ Authenticated key past ∧
          accessCheckOpen call.policy call.caller = 0) ∧
    ∀ past later, trace (ioctl key) Session.opened calls = past ++ later →
      authMaxFailures ≤ failures past → ∀ p ∈ later, accepted p = false := by
  constructor
  · intro past call handler later h
    obtain ⟨earlier, rest, rfl, hpast, hrest⟩ := exists_of_trace_eq_append h
    have haccounts : Accounts key past (final (ioctl key) Session.opened earlier) :=
      hpast ▸ holds_of_step (Accounts key) Accounts.opened (fun _ _ call h => h.ioctl call) earlier
    cases rest with
    | nil => cases hrest
    | cons call' rest =>
      rw [trace, List.cons.injEq, Prod.mk.injEq] at hrest
      obtain ⟨⟨rfl, hreply⟩, -⟩ := hrest
      obtain ⟨hauthed, haccess⟩ := ioctl_handled hreply
      have hauthenticated := haccounts.authed hauthed
      exact ⟨parseKey_nonempty hkey hauthenticated.nonempty, hauthenticated, haccess⟩
  · intro past later h hfull p hp
    obtain ⟨earlier, rest, rfl, hpast, rfl⟩ := exists_of_trace_eq_append h
    have haccounts : Accounts key past (final (ioctl key) Session.opened earlier) :=
      hpast ▸ holds_of_step (Accounts key) Accounts.opened (fun _ _ call h => h.ioctl call) earlier
    have hlocked : Locked key (final (ioctl key) Session.opened earlier) := by
      by_cases hne : key = []
      · exact .inl hne
      · have hcounter := haccounts.counter hne
        exact .inr (by omega)
    exact forall_of_keeps (Q := fun call reply => accepted (call, reply) = false) hlocked
      (fun _ call h => (h.ioctl call).1.symm ▸ h) (fun _ call h => (h.ioctl call).2) hp

/-- A handshake with the key `ab`, and then a read. -/
def handshakeAndRead : List Call :=
  [⟨none, ⟨true, 0, 0, []⟩, .auth (some ⟨(Vector.replicate keyMax 0).set 0 0xAB, 1⟩)⟩,
    ⟨none, ⟨true, 0, 0, []⟩, .privileged .read⟩]

theorem ioctl_run_read : ∃ past, Authenticated [0xAB] past ∧
    trace (ioctl [0xAB]) Session.opened handshakeAndRead =
      past ++ [(⟨none, ⟨true, 0, 0, []⟩, .privileged .read⟩, .handled .read)] := by
  have hrun : trace (ioctl [0xAB]) Session.opened handshakeAndRead =
      [(handshakeAndRead.head (by decide), .returned 0),
        (⟨none, ⟨true, 0, 0, []⟩, .privileged .read⟩, .handled .read)] := by rfl
  have hkey : parseKey (some [0x61, 0x62]) = some [0xAB] := by decide
  exact ⟨_, ((ioctl_run hkey handshakeAndRead).1 [_] _ _ [] hrun).2.1, hrun⟩

end Nemclass.Kernel
