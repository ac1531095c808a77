import Mathlib.Data.List.Basic
import Mathlib.Data.Nat.Basic

/-! The UTF-8 bytes of a text, and where its ASCII characters stand among them. -/
namespace Nemclass.Utf8

def encode (cs : List Char) : List UInt8 := cs.flatMap String.utf8EncodeChar

def bytes (s : String) : List UInt8 := encode s.toList

def decode (bs : List UInt8) : Option String := String.fromUTF8? bs.toByteArray

@[simp] theorem encode_cons (c : Char) (cs : List Char) :
    encode (c :: cs) = String.utf8EncodeChar c ++ encode cs := rfl

@[simp] theorem encode_append (cs ds : List Char) :
    encode (cs ++ ds) = encode cs ++ encode ds := List.flatMap_append

@[simp] theorem bytes_append (s t : String) : bytes (s ++ t) = bytes s ++ bytes t := by
  simp [bytes]

theorem decode_encode (cs : List Char) : decode (encode cs) = some (String.ofList cs) := by
  have hvalid : (encode cs).toByteArray.IsValidUTF8 := .intro cs rfl
  unfold decode String.fromUTF8?
  rw [dif_pos hvalid]
  rfl

theorem encode_injective : Function.Injective encode := by
  intro cs ds h
  have hdecode := congrArg decode h
  rw [decode_encode, decode_encode, Option.some_inj] at hdecode
  exact String.ofList_injective hdecode

theorem decode_bytes (s : String) : decode (bytes s) = some s := by
  rw [bytes, decode_encode, String.ofList_toList]

/-- An ASCII character is its own single byte. -/
theorem encodeChar_ascii {c : Char} (hc : c.toNat < 128) :
    String.utf8EncodeChar c = [UInt8.ofNat c.toNat] := by
  have hle : c.val.toNat ≤ 0x7f := Nat.le_of_lt_succ hc
  simp only [String.utf8EncodeChar]
  rw [if_pos hle]
  rfl

/-- A byte below 128 occurs in an encoded character only as the whole of it. -/
theorem encodeChar_eq_of_mem {c : Char} {b : UInt8} (hb : b.toNat < 128)
    (h : b ∈ String.utf8EncodeChar c) : c.toNat = b.toNat ∧ String.utf8EncodeChar c = [b] := by
  by_cases hc : c.toNat < 128
  · rw [encodeChar_ascii hc, List.mem_singleton] at h
    subst h
    rw [encodeChar_ascii hc]
    refine ⟨?_, rfl⟩
    rw [UInt8.toNat_ofNat', Nat.mod_eq_of_lt (by omega)]
  · exfalso
    have hlarge : ¬ c.val.toNat ≤ 0x7f := fun hle => hc (Nat.lt_succ_of_le hle)
    have hmax : c.val.toNat < 0x110000 := by
      have := c.valid
      simp only [UInt32.isValidChar, Nat.isValidChar] at this
      omega
    simp only [String.utf8EncodeChar] at h
    rw [if_neg hlarge] at h
    generalize c.val.toNat = v at h hlarge hmax
    split_ifs at h <;> simp only [List.mem_cons, List.not_mem_nil, or_false] at h
    · rcases h with rfl | rfl <;> rw [UInt8.toNat_ofNat'] at hb <;> omega
    · rcases h with rfl | rfl | rfl <;> rw [UInt8.toNat_ofNat'] at hb <;> omega
    · rcases h with rfl | rfl | rfl | rfl <;> rw [UInt8.toNat_ofNat'] at hb <;> omega

theorem mem_encode_ascii {cs : List Char} {b : UInt8} (hb : b.toNat < 128)
    (h : b ∈ encode cs) : Char.ofNat b.toNat ∈ cs := by
  obtain ⟨c, hc, hmem⟩ := List.mem_flatMap.mp h
  rw [← (encodeChar_eq_of_mem hb hmem).1, Char.ofNat_toNat]
  exact hc

end Nemclass.Utf8
