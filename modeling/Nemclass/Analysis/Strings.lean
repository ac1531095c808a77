import Mathlib.Data.List.Basic

/-! Printable runs in a buffer. A run is ASCII, one byte a character, or UTF-16
of the same characters, each followed by a zero byte. -/
namespace Nemclass.Analysis

inductive StrKind where
  | ascii
  | utf16Le
deriving DecidableEq, Repr

structure StringRun where
  offset : ℕ
  lenBytes : ℕ
  text : String
  kind : StrKind
deriving DecidableEq

/-- Printable ASCII and the tab. -/
def isPrintable (b : UInt8) : Bool := b == 9 || (0x20 ≤ b && b ≤ 0x7E)

/-- The characters of the wide run at the start of `bytes`. -/
def wideRun : List UInt8 → List UInt8
  | lo :: hi :: bytes => if isPrintable lo && hi == 0 then lo :: wideRun bytes else []
  | _ => []

/-- The text of a run and its length, which counts its bytes; each character is one. -/
def measured (run : List UInt8) : ℕ × String :=
  (run.length, String.ofList (run.map fun b => Char.ofNat b.toNat))

def measureUtf16le (buf : List UInt8) (start : ℕ) : ℕ × String :=
  measured (wideRun (buf.drop start))

def measureAscii (buf : List UInt8) (start : ℕ) : ℕ × String :=
  measured ((buf.drop start).takeWhile isPrintable)

/-- The run of at least `minLen` characters that starts at `offset`; the wide one goes first. -/
def stringAt (buf : List UInt8) (offset minLen : ℕ) : Option StringRun :=
  let minLen := max minLen 1
  if buf.length ≤ offset then none
  else
    let (u16Chars, u16Text) := measureUtf16le buf offset
    if minLen ≤ u16Chars then some ⟨offset, u16Chars * 2, u16Text, .utf16Le⟩
    else
      let (aChars, aText) := measureAscii buf offset
      if minLen ≤ aChars then some ⟨offset, aChars, aText, .ascii⟩
      else none

theorem length_wideRun_le (bytes : List UInt8) : (wideRun bytes).length * 2 ≤ bytes.length := by
  fun_induction wideRun bytes with
  | case1 lo hi bytes h ih =>
    simp only [List.length_cons]
    omega
  | case2 => simp
  | case3 => simp

/-- A run that is found has a byte, and lies in the buffer. -/
theorem stringAt_bounds {buf : List UInt8} {offset minLen : ℕ} {run : StringRun}
    (h : stringAt buf offset minLen = some run) :
    0 < run.lenBytes ∧ offset + run.lenBytes ≤ buf.length := by
  unfold stringAt measureUtf16le measureAscii measured at h
  dsimp only at h
  split_ifs at h with hoff hwide hascii
  · cases h
    have hlen := length_wideRun_le (buf.drop offset)
    rw [List.length_drop] at hlen
    dsimp only
    omega
  · cases h
    have hlen := (List.takeWhile_prefix (l := buf.drop offset) isPrintable).length_le
    rw [List.length_drop] at hlen
    dsimp only
    omega

end Nemclass.Analysis
