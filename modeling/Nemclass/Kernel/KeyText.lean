import Nemclass.Kernel.Breakpoints
import Nemclass.Scan.IntText

/-! From the text of a key file to an authenticated file: the key that the module is loaded with
and the one that the client presents are each read from hexadecimal text, by two different
readers. -/
namespace Nemclass.Kernel
open Scan

/-- `char::is_ascii_hexdigit` -/
def isAsciiHexdigit (c : Char) : Bool :=
  ('0' ≤ c && c ≤ '9') || ('a' ≤ c && c ≤ 'f') || ('A' ≤ c && c ≤ 'F')

/-- The bytes of `parse_hex_key`, two characters each; a pair that is no number is left out. -/
def pairBytes : List Char → List UInt8
  | hi :: lo :: rest =>
    match fromStrRadix false 1 16 [hi, lo] with
    | .ok v => UInt8.ofNat v.toNat :: pairBytes rest
    | .error _ => pairBytes rest
  | _ => []

/-- `parse_hex_key` -/
def parseHexKey (s : List Char) : List UInt8 :=
  let hex := s.filter isAsciiHexdigit
  if hex = [] then []
  else pairBytes (if hex.length % 2 ≠ 0 then '0' :: hex else hex)

/-- `read_kernel_key`, on what the file holds; there is no content where it cannot be read. -/
def readKernelKey (raw : Option (List Char)) : Option (List Char) := do
  let trimmed := trim (← raw)
  if trimmed = [] then none else some trimmed

/-- The argument of `KernelClient::auth`. -/
def authArg (key : List UInt8) : Auth where
  key := ⟨((key.take keyMax) ++ List.replicate (keyMax - key.length) 0).toArray, by
    simp only [List.size_toArray, List.length_append, List.length_take, List.length_replicate]
    omega⟩
  keyLen := UInt32.ofNat (min key.length keyMax)

/-- `NEMCLASS_ABI_VERSION` of the client. -/
def abiVersion : ℕ := 1

inductive OpenError where
  | deviceUnavailable
  | abiMismatch (expected found : ℕ)
  | errno (code : ℤ)
deriving DecidableEq, Repr

/-- `nemclass_open`; there may be no memory for the session. -/
def openFile (policy : Option Acl) (caller : Caller) (memory : Bool) : Except ℤ Session :=
  if accessCheckOpen policy caller ≠ 0 then .error (-eacces)
  else if !memory then .error (-enomem)
  else .ok Session.opened

/-- A reply of an ioctl as the client has it. -/
def replyErrno : Reply → Option ℤ
  | .returned ret => if ret < 0 then some (-ret) else none
  | .handled _ => none

/-- `KernelProvider::open_authed_client` against a module of some ABI version that was loaded with a
key; the client's memory can be read and written. -/
def openAuthedClient (moduleAbi : ℕ) (moduleKey : List UInt8) (policy : Option Acl)
    (caller : Caller) (memory : Bool) (key : List UInt8) : Except OpenError Session :=
  match openFile policy caller memory with
  | .error _ => .error .deviceUnavailable
  | .ok sess =>
    let (reply, sess) := ioctl moduleKey sess ⟨policy, caller, .version true⟩
    match replyErrno reply with
    | some code => .error (.errno code)
    | none =>
      if moduleAbi ≠ abiVersion then .error (.abiMismatch abiVersion moduleAbi)
      else
        let (reply, sess) := ioctl moduleKey sess ⟨policy, caller, .auth (some (authArg key))⟩
        match replyErrno reply with
        | some code => .error (.errno code)
        | none => .ok sess

section Digits

/-- The two digits of a byte. -/
def nibbles (b : UInt8) : List ℕ := [b.toNat / 16, b.toNat % 16]

theorem nibbles_ofNat {hi lo : ℕ} (hhi : hi < 16) (hlo : lo < 16) :
    nibbles (UInt8.ofNat (hi * 16 + lo)) = [hi, lo] := by
  have hbyte : (UInt8.ofNat (hi * 16 + lo)).toNat = hi * 16 + lo := by
    rw [UInt8.toNat_ofNat', Nat.mod_eq_of_lt (by omega)]
  rw [nibbles, hbyte]
  congr 1
  · omega
  · congr 1
    omega

/-- Bytes are told apart by their digits. -/
theorem flatMap_nibbles_inj {xs ys : List UInt8} (h : xs.flatMap nibbles = ys.flatMap nibbles) :
    xs = ys := by
  induction xs generalizing ys with
  | nil =>
    cases ys with
    | nil => rfl
    | cons y ys => cases h
  | cons x xs ih =>
    cases ys with
    | nil => cases h
    | cons y ys =>
      simp only [List.flatMap_cons, nibbles, List.cons_append, List.nil_append,
        List.cons.injEq] at h
      obtain ⟨hdiv, hmod, hrest⟩ := h
      rw [UInt8.toNat_inj.mp (show x.toNat = y.toNat by omega), ih hrest]

theorem flatMap_nibbles_take (xs : List UInt8) (n : ℕ) :
    (xs.take n).flatMap nibbles = (xs.flatMap nibbles).take (2 * n) := by
  induction n generalizing xs with
  | zero => rfl
  | succ n ih =>
    cases xs with
    | nil => simp
    | cons x xs =>
      rw [List.take_succ_cons, List.flatMap_cons, List.flatMap_cons, ih]
      rfl

/-- Both filters let the same characters through. -/
theorem isSome_toDigit (c : Char) : (toDigit 16 c).isSome = isAsciiHexdigit c := by
  have hnat (a b : Char) : a ≤ b ↔ a.toNat ≤ b.toNat := Iff.rfl
  rw [Bool.eq_iff_iff]
  simp only [toDigit, isAsciiHexdigit, Bool.or_eq_true, Bool.and_eq_true, decide_eq_true_eq, hnat]
  have h0 : '0'.toNat = 48 := rfl
  have h9 : '9'.toNat = 57 := rfl
  have ha : 'a'.toNat = 97 := rfl
  have hf : 'f'.toNat = 102 := rfl
  have hz : 'z'.toNat = 122 := rfl
  have hA : 'A'.toNat = 65 := rfl
  have hF : 'F'.toNat = 70 := rfl
  have hZ : 'Z'.toNat = 90 := rfl
  split_ifs with hdigit hlower hupper
  · simp only [Option.filter_some, Option.isSome_ite, decide_eq_true_eq]
    omega
  · simp only [Option.filter_some, Option.isSome_ite, decide_eq_true_eq]
    omega
  · simp only [Option.filter_some, Option.isSome_ite, decide_eq_true_eq]
    omega
  · simp only [Option.filter_none, Option.isSome_none, Bool.false_eq_true, false_iff]
    omega

theorem lt_of_toDigit {c : Char} {d : ℕ} (h : toDigit 16 c = some d) : d < 16 := by
  rw [toDigit, Option.filter_eq_some_iff] at h
  exact of_decide_eq_true h.2

/-- A pair of digits is one byte. -/
theorem fromStrRadix_pair {hi lo : Char} {x y : ℕ} (hx : toDigit 16 hi = some x)
    (hy : toDigit 16 lo = some y) :
    fromStrRadix false 1 16 [hi, lo] = .ok ((x * 16 + y : ℕ) : ℤ) := by
  have hplus : hi ≠ '+' := fun h => by
    rw [h, toDigit_plus] at hx
    cases hx
  have hltx := lt_of_toDigit hx
  have hlty := lt_of_toDigit hy
  have hdigits : readDigits 16 (2 ^ (8 * 1)) .posOverflow 0 [hi, lo] = .ok (x * 16 + y) := by
    rw [readDigits, hx]
    dsimp only
    rw [if_pos ⟨by decide, by omega⟩, readDigits, hy]
    dsimp only
    rw [if_pos ⟨by omega, by omega⟩, readDigits, Nat.zero_mul, Nat.zero_add]
  simp only [fromStrRadix, hdigits, List.cons_ne_nil, List.cons.injEq, and_false,
    List.head?_cons, Option.some.injEq, hplus, Bool.false_eq_true, if_false, or_self]
  rfl

theorem pairBytes_digits {cs : List Char} (hcs : ∀ c ∈ cs, (toDigit 16 c).isSome)
    (heven : cs.length % 2 = 0) :
    (pairBytes cs).flatMap nibbles = cs.filterMap (toDigit 16) := by
  induction cs using pairBytes.induct with
  | case1 hi lo rest v hv ih =>
    obtain ⟨x, hx⟩ := Option.isSome_iff_exists.mp (hcs hi List.mem_cons_self)
    obtain ⟨y, hy⟩ := Option.isSome_iff_exists.mp
      (hcs lo (List.mem_cons_of_mem _ List.mem_cons_self))
    have hpair := fromStrRadix_pair hx hy
    rw [pairBytes, hpair]
    dsimp only
    rw [List.flatMap_cons, Int.toNat_natCast, nibbles_ofNat (lt_of_toDigit hx) (lt_of_toDigit hy),
      ih (fun c hc => hcs c (List.mem_cons_of_mem _ (List.mem_cons_of_mem _ hc)))
        (by rw [List.length_cons, List.length_cons] at heven; omega),
      List.filterMap_cons_some hx, List.filterMap_cons_some hy]
    rfl
  | case2 hi lo rest e he ih =>
    obtain ⟨x, hx⟩ := Option.isSome_iff_exists.mp (hcs hi List.mem_cons_self)
    obtain ⟨y, hy⟩ := Option.isSome_iff_exists.mp
      (hcs lo (List.mem_cons_of_mem _ List.mem_cons_self))
    rw [fromStrRadix_pair hx hy] at he
    cases he
  | case3 cs hnot =>
    cases cs with
    | nil => rfl
    | cons hi rest =>
      cases rest with
      | nil => cases heven
      | cons lo rest => exact absurd rfl (hnot hi lo rest)

end Digits

/-- The digits of a client's key text. -/
def keyDigits (s : List Char) : List ℕ :=
  let digits := s.filterMap (toDigit 16)
  if digits.length % 2 ≠ 0 then 0 :: digits else digits

section Texts

theorem filterMap_toDigit_filter (s : List Char) :
    (s.filter isAsciiHexdigit).filterMap (toDigit 16) = s.filterMap (toDigit 16) := by
  induction s with
  | nil => rfl
  | cons c s ih =>
    cases hc : toDigit 16 c with
    | none =>
      have hnot : isAsciiHexdigit c = false := by rw [← isSome_toDigit, hc]; rfl
      rw [List.filter_cons_of_neg (by rw [hnot]; exact Bool.false_ne_true), ih,
        List.filterMap_cons_none hc]
    | some d =>
      have hyes : isAsciiHexdigit c = true := by rw [← isSome_toDigit, hc]; rfl
      rw [List.filter_cons_of_pos hyes, List.filterMap_cons_some hc, ih,
        List.filterMap_cons_some hc]

theorem length_filterMap_toDigit (s : List Char) :
    (s.filterMap (toDigit 16)).length = (s.filter isAsciiHexdigit).length := by
  induction s with
  | nil => rfl
  | cons c s ih =>
    cases hc : toDigit 16 c with
    | none =>
      have hnot : isAsciiHexdigit c = false := by rw [← isSome_toDigit, hc]; rfl
      rw [List.filter_cons_of_neg (by rw [hnot]; exact Bool.false_ne_true),
        List.filterMap_cons_none hc, ih]
    | some d =>
      have hyes : isAsciiHexdigit c = true := by rw [← isSome_toDigit, hc]; rfl
      rw [List.filter_cons_of_pos hyes, List.filterMap_cons_some hc, List.length_cons,
        List.length_cons, ih]

/-- The client's key, digit by digit. -/
theorem parseHexKey_digits (s : List Char) : (parseHexKey s).flatMap nibbles = keyDigits s := by
  have hall : ∀ c ∈ s.filter isAsciiHexdigit, (toDigit 16 c).isSome := fun c hc => by
    rw [isSome_toDigit]
    exact (List.mem_filter.mp hc).2
  rw [parseHexKey, keyDigits, ← filterMap_toDigit_filter s, length_filterMap_toDigit,
    List.filter_filter]
  simp only [Bool.and_self]
  by_cases hnil : s.filter isAsciiHexdigit = []
  · rw [if_pos hnil, hnil]
    rfl
  · rw [if_neg hnil]
    by_cases hodd : (s.filter isAsciiHexdigit).length % 2 ≠ 0
    · rw [if_pos hodd, if_pos hodd, pairBytes_digits]
      · exact List.filterMap_cons_some rfl
      · intro c hc
        rcases List.mem_cons.mp hc with rfl | hc
        · rfl
        · exact hall c hc
      · rw [List.length_cons]
        omega
    · rw [if_neg hodd, if_neg hodd, pairBytes_digits hall (not_not.mp hodd)]

/-- The module's key, digit by digit. -/
theorem hex2bin_digits {text key : List UInt8} (h : hex2bin text = some key) :
    key.flatMap nibbles = text.map digitValue := by
  induction text using hex2bin.induct generalizing key with
  | case1 hi lo src hdigits ih =>
    rw [hex2bin, if_pos hdigits, Option.map_eq_some_iff] at h
    obtain ⟨rest, hrest, rfl⟩ := h
    rw [List.flatMap_cons, nibbles_ofNat hdigits.1 hdigits.2, ih hrest]
    rfl
  | case2 hi lo src hdigits =>
    rw [hex2bin, if_neg hdigits] at h
    cases h
  | case3 =>
    cases h
    rfl
  | case4 c => cases h

/-- What a module is loaded with, digit by digit. -/
theorem parseKey_digits {param : Option (List UInt8)} {key : List UInt8}
    (h : parseKey param = some key) :
    key.flatMap nibbles = ((param.map cstr).getD []).map digitValue := by
  rw [parseKey] at h
  split at h
  · rename_i hnone
    cases h
    rw [hnone]
    rfl
  · rename_i hempty
    cases h
    rw [hempty]
    rfl
  · rename_i text _ htext
    split_ifs at h with hbad
    rw [htext]
    exact hex2bin_digits h

end Texts

section Handshake

variable {key : List UInt8}

theorem keyLen_authArg (bytes : List UInt8) :
    (authArg bytes).keyLen.toNat = (bytes.take keyMax).length := by
  have hsmall : min bytes.length keyMax < 2 ^ 32 := by
    have hmax : keyMax < 2 ^ 32 := by decide
    omega
  rw [authArg, UInt32.toNat_ofNat', Nat.mod_eq_of_lt hsmall, List.length_take, Nat.min_comm]

/-- The client presents the first bytes of its key. -/
theorem presents_authArg (bytes : List UInt8) :
    Presents key (authArg bytes) ↔ key ≠ [] ∧ bytes.take keyMax = key := by
  have hbytes : (authArg bytes).key.toList.take (bytes.take keyMax).length =
      bytes.take keyMax := List.take_left' rfl
  constructor
  · rintro ⟨hne, hlen, hkey⟩
    rw [keyLen_authArg, hbytes] at hkey
    exact ⟨hne, hkey⟩
  · rintro ⟨hne, hkey⟩
    refine ⟨hne, ?_, ?_⟩
    · rw [keyLen_authArg, hkey]
    · rw [keyLen_authArg, hbytes, hkey]

/-- The first bytes of the client's key are the module's key exactly if the texts say so. -/
theorem take_parseHexKey_iff {param : Option (List UInt8)} (hkey : parseKey param = some key)
    (s : List Char) : (parseHexKey s).take keyMax = key ↔
      (keyDigits s).take (2 * keyMax) = ((param.map cstr).getD []).map digitValue := by
  rw [← parseKey_digits hkey, ← parseHexKey_digits, ← flatMap_nibbles_take]
  exact ⟨fun h => by rw [h], flatMap_nibbles_inj⟩

theorem keyDigits_of_filterMap {s t : List Char}
    (h : s.filterMap (toDigit 16) = t.filterMap (toDigit 16)) : keyDigits s = keyDigits t := by
  rw [keyDigits, keyDigits, h]

theorem filterMap_dropWhile (s : List Char) :
    (s.dropWhile isWhitespace).filterMap (toDigit 16) = s.filterMap (toDigit 16) := by
  induction s with
  | nil => rfl
  | cons c s ih =>
    cases hspace : isWhitespace c with
    | false => rw [List.dropWhile_cons_of_neg (by rw [hspace]; exact Bool.false_ne_true)]
    | true =>
      have hnone : toDigit 16 c = none := by
        rw [← Option.not_isSome_iff_eq_none]
        intro hsome
        rw [isWhitespace_of_bounds (digit_bounds hsome)] at hspace
        cases hspace
      rw [List.dropWhile_cons_of_pos hspace, ih, List.filterMap_cons_none hnone]

/-- The blanks around a key are no part of it. -/
theorem keyDigits_trim (s : List Char) : keyDigits (trim s) = keyDigits s := by
  refine keyDigits_of_filterMap ?_
  rw [trim, List.rdropWhile, List.filterMap_reverse, filterMap_dropWhile, ← List.filterMap_reverse,
    List.reverse_reverse, filterMap_dropWhile]

/-- The attach as a whole. -/
theorem openAuthedClient_ok {moduleAbi : ℕ} {policy : Option Acl} {caller : Caller} {memory : Bool}
    {bytes : List UInt8} {sess : Session} :
    openAuthedClient moduleAbi key policy caller memory bytes = .ok sess ↔
      sess = ⟨true, 0⟩ ∧ accessCheckOpen policy caller = 0 ∧ memory = true ∧
        moduleAbi = abiVersion ∧ Presents key (authArg bytes) := by
  rw [openAuthedClient, openFile]
  by_cases haccess : accessCheckOpen policy caller = 0
  · rw [if_neg (not_not.mpr haccess)]
    cases memory with
    | false => simp
    | true =>
      have hversion : ioctl key Session.opened ⟨policy, caller, .version true⟩ =
          (.returned 0, Session.opened) := rfl
      have hauth : ioctl key Session.opened ⟨policy, caller, .auth (some (authArg bytes))⟩ =
          (.returned (doAuth key Session.opened (some (authArg bytes))).1,
            (doAuth key Session.opened (some (authArg bytes))).2) := rfl
      simp only [Bool.not_true, Bool.false_eq_true, if_false, hversion, hauth]
      by_cases habi : moduleAbi = abiVersion
      · by_cases hpresents : Presents key (authArg bytes)
        · have hroom : ¬Locked key Session.opened := by
            rw [Locked, not_or]
            exact ⟨hpresents.nonempty, by decide⟩
          rw [doAuth_presents hroom hpresents]
          simp [replyErrno, haccess, habi, hpresents, eq_comm]
        · have hwrong : (doAuth key Session.opened (some (authArg bytes))).1 = -eacces := by
            by_cases hlocked : Locked key Session.opened
            · rw [doAuth_locked hlocked]
            · rw [doAuth_wrong hlocked hpresents]
          simp [replyErrno, habi, hpresents, hwrong, eacces]
      · simp [replyErrno, habi]
  · rw [if_pos haccess]
    simp [haccess]

/-- An open file of a caller that the policy lets in, authenticated with the digits of a key file:
the attach succeeds exactly if the module speaks the client's ABI, was loaded with a key, and the
first 128 hexadecimal digits of the file, behind a zero where their number is odd, are those of the
module's parameter; letter case and everything else in the file do not matter. Every privileged
call of a caller that is let in reaches its handler then. -/
theorem openAuthedClient_iff {param : Option (List UInt8)} (hkey : parseKey param = some key)
    (moduleAbi : ℕ) (policy : Option Acl) (caller : Caller) (memory : Bool) (raw text : List Char)
    (hfile : readKernelKey (some raw) = some text) :
    ((∃ sess, openAuthedClient moduleAbi key policy caller memory (parseHexKey text) = .ok sess) ↔
      accessCheckOpen policy caller = 0 ∧ memory = true ∧ moduleAbi = abiVersion ∧ key ≠ [] ∧
        (keyDigits raw).take 128 = ((param.map cstr).getD []).map digitValue) ∧
    ∀ sess, openAuthedClient moduleAbi key policy caller memory (parseHexKey text) = .ok sess →
      ∀ (policy' : Option Acl) (caller' : Caller) (handler : Handler),
        accessCheckOpen policy' caller' = 0 →
          (ioctl key sess ⟨policy', caller', .privileged handler⟩).1 = .handled handler := by
  have htext : keyDigits text = keyDigits raw := by
    rw [readKernelKey, Option.bind_eq_bind, Option.bind_some] at hfile
    dsimp only at hfile
    split_ifs at hfile
    rw [← Option.some.inj hfile, keyDigits_trim]
  have hpresents : Presents key (authArg (parseHexKey text)) ↔ key ≠ [] ∧
      (keyDigits raw).take 128 = ((param.map cstr).getD []).map digitValue := by
    rw [presents_authArg, take_parseHexKey_iff hkey, htext]
    rfl
  constructor
  · constructor
    · rintro ⟨sess, hopen⟩
      obtain ⟨-, haccess, hmemory, habi, h⟩ := openAuthedClient_ok.mp hopen
      exact ⟨haccess, hmemory, habi, hpresents.mp h⟩
    · rintro ⟨haccess, hmemory, habi, h⟩
      exact ⟨⟨true, 0⟩, openAuthedClient_ok.mpr ⟨rfl, haccess, hmemory, habi, hpresents.mpr h⟩⟩
  · intro sess hopen policy' caller' handler haccess'
    obtain ⟨rfl, -⟩ := openAuthedClient_ok.mp hopen
    simp [ioctl, haccess']

theorem openAuthedClient_iff_padded :
    ∃ sess, openAuthedClient 1 [0x0A, 0xBC] none ⟨true, 0, 0, []⟩ true
        (parseHexKey ['A', 'b', '-', 'c']) = .ok sess ∧
      (ioctl [0x0A, 0xBC] sess ⟨none, ⟨true, 0, 0, []⟩, .privileged .read⟩).1 = .handled .read := by
  have hkey : parseKey (some [48, 97, 66, 67]) = some [0x0A, 0xBC] := by decide
  have h := openAuthedClient_iff hkey 1 none ⟨true, 0, 0, []⟩ true [' ', 'A', 'b', '-', 'c', '\n'] ['A', 'b', '-', 'c'] (by decide)
  obtain ⟨sess, hopen⟩ := h.1.mpr (by decide)
  exact ⟨sess, hopen, h.2 sess hopen none ⟨true, 0, 0, []⟩ .read rfl⟩

end Handshake

end Nemclass.Kernel
