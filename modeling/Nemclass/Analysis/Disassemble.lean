import Nemclass.Lib.Sweep
import Nemclass.Scan.Target

/-! Linear disassembly. The decoder of single instructions is a parameter; over a
memory, disassembling a range is a sweep over its instructions. -/
namespace Nemclass.Analysis
open Scan Sweep

/-- What an instruction does to the flow of control. -/
inductive FlowKind where
  | seq
  | call
  | jump
  | condJump
  | ret
  | int3
  | other
deriving DecidableEq, Repr

/-- What the decoder tells of one instruction; a valid one has a byte. -/
structure Decoded where
  len : ℕ
  isInvalid : Bool
  formatted : String
  staticBytes : ℤ
  kind : FlowKind
  nearBranchTarget : Option ℕ
  ipRelMemoryTarget : Option ℕ
  len_pos : isInvalid = false → 0 < len

/-- The decoder of single instructions: what it reads at the start of some code at an address. -/
structure InstructionDecoder where
  decode : List UInt8 → ℕ → Decoded

structure InstructionData where
  address : ℕ
  length : ℕ
  data : List UInt8
  staticInstructionBytes : ℤ
  instruction : String
  kind : FlowKind
  target : Option ℕ
  memTarget : Option ℕ
deriving DecidableEq

/-- Neither of no length nor junk. -/
def isDecoded (ins : InstructionData) : Bool := ins.length ≠ 0 ∧ ins.instruction ≠ "???"

namespace InstructionDecoder
variable (decoder : InstructionDecoder)

/-- The first instruction of `code`. An invalid one carries no flow. -/
def instructionData (determineStaticBytes : Bool) (code : List UInt8) (ip : ℕ) :
    InstructionData :=
  let ins := decoder.decode code ip
  { address := ip
    length := ins.len
    data := code.take ins.len
    staticInstructionBytes :=
      if ins.isInvalid then -1 else if determineStaticBytes then ins.staticBytes else -1
    instruction := if ins.isInvalid then "???" else ins.formatted
    kind := if ins.isInvalid then .other else ins.kind
    target := if ins.isInvalid then none else ins.nearBranchTarget
    memTarget := if ins.isInvalid then none else ins.ipRelMemoryTarget }

/-- Hands one instruction after another to the callback, until it answers `false`. -/
def disassembleInstructions {σ : Type} (determineStaticBytes : Bool)
    (callback : σ → InstructionData → σ × Bool) (code : List UInt8) (virtualAddress : ℕ) (s : σ) :
    σ :=
  match code with
  | [] => s
  | b :: bs =>
    let ins := decoder.decode (b :: bs) virtualAddress
    if _hstuck : ins.isInvalid ∧ ins.len = 0 then s
    else
      match callback s (decoder.instructionData determineStaticBytes (b :: bs) virtualAddress) with
      | (s, false) => s
      | (s, true) =>
        disassembleInstructions determineStaticBytes callback ((b :: bs).drop ins.len)
          (virtualAddress + ins.len) s
termination_by code.length
decreasing_by
  have hpos : 0 < (decoder.decode (b :: bs) virtualAddress).len := by
    by_contra hzero
    cases hvalid : (decoder.decode (b :: bs) virtualAddress).isInvalid with
    | false => exact hzero ((decoder.decode (b :: bs) virtualAddress).len_pos hvalid)
    | true => exact _hstuck ⟨hvalid, Nat.eq_zero_of_not_pos hzero⟩
  rw [List.length_drop, List.length_cons]
  omega

variable {decoder}

theorem disassembleInstructions_of_ne {σ : Type} {determine : Bool}
    {callback : σ → InstructionData → σ × Bool} {code : List UInt8} {virtualAddress : ℕ} {s : σ}
    (hne : code ≠ []) :
    decoder.disassembleInstructions determine callback code virtualAddress s =
      if (decoder.decode code virtualAddress).isInvalid ∧ (decoder.decode code virtualAddress).len = 0
      then s
      else
        match callback s (decoder.instructionData determine code virtualAddress) with
        | (s, false) => s
        | (s, true) =>
          decoder.disassembleInstructions determine callback
            (code.drop (decoder.decode code virtualAddress).len)
            (virtualAddress + (decoder.decode code virtualAddress).len) s := by
  cases code with
  | nil => exact absurd rfl hne
  | cons b bs => rw [disassembleInstructions.eq_def]; simp only [dite_eq_ite]

variable (decoder)

/-- The addresses of the instructions that branch to `target` or refer to it. -/
def findCodeRefs (code : List UInt8) (virtualAddress target : ℕ) : List ℕ :=
  decoder.disassembleInstructions false (fun refs ins =>
    if ins.target = some target ∨ ins.memTarget = some target then (refs ++ [ins.address], true)
    else (refs, true)) code virtualAddress []

/-- What is assumed of the decoder: an instruction has 1 to 15 bytes, all of them in the code, and
what it is depends on the next 15 bytes only. -/
structure Local : Prop where
  consumes : ∀ code ip, code ≠ [] →
    0 < (decoder.decode code ip).len ∧ (decoder.decode code ip).len ≤ min 15 code.length
  near : ∀ code ip, decoder.decode code ip = decoder.decode (code.take 15) ip

/-- A decoder of `nop`, `ret` and short jumps, to which all other code is junk. -/
def shortDecode (code : List UInt8) (ip : ℕ) : Decoded :=
  match code with
  | [] => ⟨0, true, "", -1, .other, none, none, by simp⟩
  | opcode :: operands =>
    if opcode = 0x90 then ⟨1, false, "nop", 1, .seq, none, none, by simp⟩
    else if opcode = 0xC3 then ⟨1, false, "ret", 1, .ret, none, none, by simp⟩
    else if opcode = 0xEB then
      match operands with
      | [] => ⟨1, true, "", -1, .other, none, none, by simp⟩
      | disp :: _ =>
        let target := (ip + 2 + (if disp < 0x80 then disp.toNat else 2 ^ 64 - 256 + disp.toNat)) %
          2 ^ 64
        let digits := (List.range 16).map fun i => (target / 16 ^ (15 - i) % 16).digitChar.toUpper
        ⟨2, false, "jmp short " ++ String.ofList digits ++ "h", 2, .jump, some target, none,
          fun _ => Nat.two_pos⟩
    else ⟨1, true, "", -1, .other, none, none, by simp⟩

def shortDecoder : InstructionDecoder := ⟨shortDecode⟩

theorem shortDecoder_local : shortDecoder.Local where
  consumes code ip hne := by
    match code with
    | [] => exact absurd rfl hne
    | [b] =>
      simp only [shortDecoder, shortDecode]
      split_ifs <;> simp
    | b :: c :: rest =>
      simp only [shortDecoder, shortDecode, List.length_cons]
      split_ifs <;> dsimp only <;> omega
  near code ip := by
    match code with
    | [] => rfl
    | [b] => rfl
    | b :: c :: rest => rfl

/-- Of code that is cut short, the decoder reads the same instruction, or none. -/
structure PrefixSafe : Prop extends decoder.Local where
  cut : ∀ code ip k, decoder.decode (code.take k) ip = decoder.decode code ip ∨
    (decoder.decode (code.take k) ip).isInvalid = true

theorem shortDecoder_prefixSafe : shortDecoder.PrefixSafe where
  toLocal := shortDecoder_local
  cut code ip k := by
    match code, k with
    | [], _ => exact .inl (by rw [List.take_nil])
    | _, 0 => exact .inr rfl
    | [b], k + 1 => exact .inl (by rw [List.take_succ_cons, List.take_nil])
    | b :: c :: rest, 1 =>
      by_cases hnop : b = 0x90
      · exact .inl (by rw [hnop]; rfl)
      · by_cases hret : b = 0xC3
        · exact .inl (by rw [hret]; rfl)
        · refine .inr ?_
          simp only [shortDecoder, shortDecode, List.take_succ_cons, List.take_zero, if_neg hnop,
            if_neg hret, ite_self]
    | b :: c :: rest, k + 2 => exact .inl rfl

end InstructionDecoder

/-- `Process::read_buf`. -/
abbrev ReadBuf := (addr len : ℕ) → Except Error (Transfer len)

/-- Every read between two addresses returns all of the bytes it asks for, those of one memory. -/
def ReadBuf.Fills (read : ReadBuf) (mem : ℕ → UInt8) (start stop : ℕ) : Prop :=
  ∀ addr len, start ≤ addr → addr + len ≤ stop →
    read addr len = .ok ⟨memBytes mem addr len, (memBytes_length mem addr len).le⟩

/-- Reads of the memory that holds nothing but `nop` instructions. -/
def nopRead : ReadBuf := fun addr len => .ok ⟨memBytes (fun _ => 0x90) addr len, by simp⟩

/-- The instructions of a range, up to the first that does not decode. -/
def disassembleRange (decoder : InstructionDecoder) (read : ReadBuf) (addr len : ℕ) :
    Except Error (List InstructionData) :=
  if len = 0 then .ok []
  else
    match read addr len with
    | .error e => .error e
    | .ok buf => .ok (decoder.disassembleInstructions true (fun out ins =>
        if isDecoded ins then (out ++ [ins], true) else (out, false)) buf.val addr [])

section OverMemory
variable (decoder : InstructionDecoder) (mem : ℕ → UInt8)

/-- The instruction at `p`, of the bytes up to `stop`. -/
def instructionAt (determineStaticBytes : Bool) (p stop : ℕ) : InstructionData :=
  decoder.instructionData determineStaticBytes (memBytes mem p (stop - p)) p

/-- The instructions of a range, one after another from its start to its end. -/
def linearSweep (determineStaticBytes : Bool) (start stop : ℕ) : List InstructionData :=
  sweep (instructionAt decoder mem determineStaticBytes) InstructionData.length stop start

variable {decoder mem}

theorem memBytes_take (mem : ℕ → UInt8) (addr len k : ℕ) :
    (memBytes mem addr len).take k = memBytes mem addr (min k len) := by
  rw [memBytes, ← List.map_take, List.take_range, memBytes]

theorem memBytes_drop (mem : ℕ → UInt8) (addr len k : ℕ) :
    (memBytes mem addr len).drop k = memBytes mem (addr + k) (len - k) := by
  apply List.ext_getElem
  · simp
  · intro i _ _
    simp [memBytes, Nat.add_assoc]

theorem memBytes_ne_nil (mem : ℕ → UInt8) (addr : ℕ) {len : ℕ} (h : 0 < len) :
    memBytes mem addr len ≠ [] :=
  List.ne_nil_of_length_pos (by rwa [memBytes_length])

theorem memBytes_succ (mem : ℕ → UInt8) (addr len : ℕ) :
    memBytes mem addr (len + 1) = mem addr :: memBytes mem (addr + 1) len := by
  rw [memBytes, List.range_succ_eq_map, List.map_cons, List.map_map, memBytes]
  simp [Nat.add_assoc, Nat.add_comm 1, Function.comp_def]

/-- An instruction depends on the bytes that the decoder reads, and on its own. -/
theorem instructionData_congr {determine : Bool} {code code' : List UInt8} {ip : ℕ}
    (hdecode : decoder.decode code ip = decoder.decode code' ip)
    (htake : code.take (decoder.decode code ip).len = code'.take (decoder.decode code ip).len) :
    decoder.instructionData determine code ip = decoder.instructionData determine code' ip := by
  simp only [InstructionDecoder.instructionData, ← hdecode, htake]

namespace InstructionDecoder.Local
variable (h : decoder.Local)
include h

theorem reads (mem : ℕ → UInt8) (determine : Bool) :
    Reads (instructionAt decoder mem determine) InstructionData.address InstructionData.length
      15 where
  start_eq _ _ := rfl
  len_pos p stop hp := (h.consumes _ p (memBytes_ne_nil _ _ (Nat.sub_pos_of_lt hp))).1
  end_le p stop hp := by
    have hle := (h.consumes (memBytes mem p (stop - p)) p (memBytes_ne_nil _ _ (by omega))).2
    rw [memBytes_length] at hle
    change p + (decoder.decode (memBytes mem p (stop - p)) p).len ≤ stop
    omega
  near p stop stop' hstop hstop' := by
    have hle := (h.consumes (memBytes mem p (stop - p)) p (memBytes_ne_nil _ _ (by omega))).2
    rw [memBytes_length] at hle
    refine instructionData_congr ?_ ?_
    · rw [h.near, h.near (memBytes mem p (stop' - p)), memBytes_take, memBytes_take]
      congr 2
      omega
    · rw [memBytes_take, memBytes_take]
      congr 1
      omega

/-- Disassembling the bytes of a range hands its instructions to the callback. -/
theorem disassembleInstructions_eq {σ : Type} (determine : Bool)
    (callback : σ → InstructionData → σ × Bool) (start stop : ℕ) (s : σ) :
    decoder.disassembleInstructions determine callback (memBytes mem start (stop - start)) start s =
      visit callback s (linearSweep decoder mem determine start stop) := by
  have hreads := h.reads mem determine
  unfold linearSweep
  induction start using hreads.induction stop generalizing s with
  | done p hp =>
    rw [sweep_of_le hp, Nat.sub_eq_zero_of_le hp, InstructionDecoder.disassembleInstructions.eq_def]
    rfl
  | unit p hp ih =>
    have hpos : 0 < (decoder.decode (memBytes mem p (stop - p)) p).len := hreads.len_pos p stop hp
    have hrest := memBytes_drop mem p (stop - p)
      (decoder.decode (memBytes mem p (stop - p)) p).len
    rw [Nat.sub_sub] at hrest
    rw [hreads.sweep_cons hp, visit,
      disassembleInstructions_of_ne (memBytes_ne_nil _ _ (Nat.sub_pos_of_lt hp)),
      if_neg fun hstuck => hpos.ne' hstuck.2, hrest]
    change (match callback s (instructionAt decoder mem determine p stop) with
      | (s, false) => s
      | (s, true) => decoder.disassembleInstructions determine callback
          (memBytes mem (p + (instructionAt decoder mem determine p stop).length)
            (stop - (p + (instructionAt decoder mem determine p stop).length)))
          (p + (instructionAt decoder mem determine p stop).length) s) = _
    cases callback s (instructionAt decoder mem determine p stop) with
    | mk s go => cases go <;> simp [ih]

theorem disassembleInstructions_memBytes {σ : Type} (determine : Bool)
    (callback : σ → InstructionData → σ × Bool) (start len : ℕ) (s : σ) :
    decoder.disassembleInstructions determine callback (memBytes mem start len) start s =
      visit callback s (linearSweep decoder mem determine start (start + len)) := by
  rw [← h.disassembleInstructions_eq, Nat.add_sub_cancel_left]

theorem disassembleRange_eq {read : ReadBuf} {start stop addr len : ℕ}
    (hread : read.Fills mem start stop) (hstart : start ≤ addr) (hstop : addr + len ≤ stop) :
    disassembleRange decoder read addr len =
      .ok ((linearSweep decoder mem true addr (addr + len)).takeWhile isDecoded) := by
  by_cases hlen : len = 0
  · rw [disassembleRange, if_pos hlen, linearSweep, sweep_of_le (by omega), List.takeWhile_nil]
  · rw [disassembleRange, if_neg hlen, hread addr len hstart hstop]
    dsimp only
    rw [h.disassembleInstructions_memBytes, visit_takeWhile isDecoded fun out ins => out ++ [ins]]
    · rw [List.foldl_append_eq_append, List.nil_append, ← List.flatMap_def, List.flatMap_singleton']
    · exact fun _ _ => rfl

end InstructionDecoder.Local

end OverMemory

end Nemclass.Analysis
