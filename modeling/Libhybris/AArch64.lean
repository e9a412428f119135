import Libhybris.ByteMemory
import Mathlib.Data.Nat.Bitwise
import Mathlib.Tactic.Positivity
import Mathlib.Tactic.Ring

/-!
# A part of the AArch64 machine

The general registers, the stack pointer, the flags, the thread pointer register and memory, with
the loads and stores of 64-bit registers, additions of an immediate, branches and calls that
small generated code is made of. Instructions are fetched from memory and decoded from their
words. A callee is code that is not looked into: a call runs it to its return.
-/
namespace AArch64

open ByteMemory

structure Flags where
  n : Bool
  z : Bool
  c : Bool
  v : Bool
deriving DecidableEq, Repr

structure Cpu where
  x : Fin 31 → UInt64
  sp : UInt64
  pc : UInt64
  flags : Flags
  tpidr : UInt64
  mem : Memory

/-- Register 31 is the zero register in an operand and the stack pointer in a base. -/
inductive Inst where
  | stpPre (rt rt2 rn : Fin 32) (offset : Int)
  | ldpPost (rt rt2 rn : Fin 32) (offset : Int)
  | str (rt rn : Fin 32) (offset : Nat)
  | ldr (rt rn : Fin 32) (offset : Nat)
  | ldrLiteral (rt : Fin 32) (offset : Int)
  | mrsTpidr (rt : Fin 32)
  | addImm (rd rn : Fin 32) (imm : Nat)
  | cbz (rt : Fin 32) (offset : Int)
  | cbnz (rt : Fin 32) (offset : Int)
  | blr (rn : Fin 32)
  | nop
  | b (offset : Int)
deriving DecidableEq

/-! ## Decoding -/

/-- A field of `width` bits as a two's complement number. -/
def signed (width f : Nat) : Int := if f < 2 ^ (width - 1) then f else f - 2 ^ width

def field (n lo width : Nat) : Nat := n / 2 ^ lo % 2 ^ width

def register (n lo : Nat) : Fin 32 := Fin.ofNat 32 (n / 2 ^ lo)

def decode (w : UInt32) : Option Inst :=
  let n := w.toNat
  let rt := register n 0
  let rn := register n 5
  if n / 2 ^ 22 = 0x2A6 then some (.stpPre rt (register n 10) rn (8 * signed 7 (field n 15 7)))
  else if n / 2 ^ 22 = 0x2A3 then
    some (.ldpPost rt (register n 10) rn (8 * signed 7 (field n 15 7)))
  else if n / 2 ^ 22 = 0x3E4 then some (.str rt rn (8 * field n 10 12))
  else if n / 2 ^ 22 = 0x3E5 then some (.ldr rt rn (8 * field n 10 12))
  else if n / 2 ^ 22 = 0x244 then some (.addImm rt rn (field n 10 12))
  else if n / 2 ^ 22 = 0x245 then some (.addImm rt rn (2 ^ 12 * field n 10 12))
  else if n / 2 ^ 24 = 0x58 then some (.ldrLiteral rt (4 * signed 19 (field n 5 19)))
  else if n / 2 ^ 24 = 0xB4 then some (.cbz rt (4 * signed 19 (field n 5 19)))
  else if n / 2 ^ 24 = 0xB5 then some (.cbnz rt (4 * signed 19 (field n 5 19)))
  else if n / 2 ^ 26 = 0x5 then some (.b (4 * signed 26 (field n 0 26)))
  else if n / 2 ^ 5 = 0x6A9DE82 then some (.mrsTpidr rt)
  else if n / 2 ^ 10 = 0x358FC0 ∧ n % 2 ^ 5 = 0 then some (.blr rn)
  else if n = 0xD503201F then some .nop
  else none

/-- Setting a field of zero bits is an addition. -/
theorem or_field (hi : Nat) {lo f i width : Nat} (hlo : lo < 2 ^ i) (hf : f < 2 ^ width) :
    (hi * 2 ^ (i + width) + lo) ||| (f * 2 ^ i) = hi * 2 ^ (i + width) + f * 2 ^ i + lo := by
  have hlow : f * 2 ^ i + lo = f * 2 ^ i ||| lo := by
    rw [← Nat.shiftLeft_eq]
    exact Nat.shiftLeft_add_eq_or_of_lt hlo f
  have hlt : f * 2 ^ i + lo < 2 ^ (i + width) := by
    rw [Nat.add_comm i width, Nat.pow_add]
    calc f * 2 ^ i + lo < f * 2 ^ i + 2 ^ i := by omega
      _ = (f + 1) * 2 ^ i := by ring
      _ ≤ 2 ^ width * 2 ^ i := Nat.mul_le_mul_right _ hf
  have hpow : 2 ^ i ≤ 2 ^ (i + width) := Nat.pow_le_pow_right (by omega) (by omega)
  calc (hi * 2 ^ (i + width) + lo) ||| (f * 2 ^ i)
      = (hi <<< (i + width) ||| lo) ||| (f * 2 ^ i) := by
        rw [← Nat.shiftLeft_eq, Nat.shiftLeft_add_eq_or_of_lt (hlo.trans_le hpow)]
    _ = hi <<< (i + width) ||| (f * 2 ^ i + lo) := by
        rw [hlow, Nat.or_assoc, Nat.or_comm lo]
    _ = hi * 2 ^ (i + width) + f * 2 ^ i + lo := by
        rw [← Nat.shiftLeft_add_eq_or_of_lt hlt, Nat.shiftLeft_eq, Nat.add_assoc]

theorem signed_emod {width : Nat} {n : Int} (hw : 0 < width) (hlow : -2 ^ (width - 1) ≤ n)
    (hhigh : n < 2 ^ (width - 1)) : signed width (n % 2 ^ width).toNat = n := by
  obtain ⟨k, rfl⟩ : ∃ k, width = k + 1 := ⟨width - 1, by omega⟩
  simp only [Nat.add_sub_cancel, signed, pow_succ] at *
  have hcast : ((2 ^ k : Nat) : Int) = 2 ^ k := by push_cast; rfl
  by_cases hn : 0 ≤ n
  · rw [Int.emod_eq_of_lt hn (by omega)]
    omega
  · have hmod : n % (2 ^ k * 2) = n + 2 ^ k * 2 := by
      rw [← Int.add_emod_right, Int.emod_eq_of_lt] <;> omega
    omega

/-! ## Execution -/

namespace Cpu

section
variable (s : Cpu) (r : Fin 32)

/-- An operand register. -/
def get : UInt64 := if h : r.val < 31 then s.x ⟨r.val, h⟩ else 0

def set (v : UInt64) : Cpu :=
  { s with x := fun i => if i.val = r.val then v else s.x i }

/-- A base register. -/
def base : UInt64 := if r.val = 31 then s.sp else s.get r

def setBase (v : UInt64) : Cpu :=
  if r.val = 31 then { s with sp := v } else s.set r v

/-- An access through the stack pointer needs it aligned. -/
def aligned : Bool := r.val ≠ 31 || s.sp.toNat % 16 = 0

end

def next (s : Cpu) : Cpu := { s with pc := s.pc + 4 }

def jump (s : Cpu) (offset : Int) : Cpu := { s with pc := s.pc + UInt64.ofInt offset }

def load (s : Cpu) (a : UInt64) : UInt64 := readDword s.mem a.toNat

def store (s : Cpu) (a v : UInt64) : Cpu := { s with mem := writeDword s.mem a.toNat v }

section
variable (s : Cpu) (r : Fin 31)

theorem get_castSucc : s.get r.castSucc = s.x r := by
  simp [get]

theorem base_castSucc : s.base r.castSucc = s.x r := by
  rw [base, if_neg (by simp; omega), get_castSucc]

theorem setBase_castSucc (v : UInt64) :
    s.setBase r.castSucc v = s.set r.castSucc v := by
  rw [setBase, if_neg (by simp; omega)]

theorem aligned_castSucc : s.aligned r.castSucc = true := by
  have hne : r.val ≠ 31 := by omega
  simp [aligned, hne]

theorem set_x (v : UInt64) :
    (s.set r.castSucc v).x = Function.update s.x r v := by
  funext i
  simp [set, Function.update_apply, Fin.ext_iff]

end

/-- Write a register and go on. -/
def write (s : Cpu) (r : Fin 31) (v : UInt64) : Cpu :=
  { s with x := Function.update s.x r v, pc := s.pc + 4 }

theorem set_next (s : Cpu) (r : Fin 31) (v : UInt64) : (s.set r.castSucc v).next = s.write r v := by
  rw [write, ← set_x]
  rfl

end Cpu

def exec (s : Cpu) : Inst → Option Cpu
  | .stpPre rt rt2 rn offset =>
    let a := s.base rn + UInt64.ofInt offset
    if s.aligned rn then
      some ((((s.store a (s.get rt)).store (a + 8) (s.get rt2)).setBase rn a).next)
    else none
  | .ldpPost rt rt2 rn offset =>
    let a := s.base rn
    if s.aligned rn then
      some ((((s.set rt (s.load a)).set rt2 (s.load (a + 8))).setBase rn
        (a + UInt64.ofInt offset)).next)
    else none
  | .str rt rn offset =>
    if s.aligned rn then some (s.store (s.base rn + UInt64.ofNat offset) (s.get rt)).next else none
  | .ldr rt rn offset =>
    if s.aligned rn then some (s.set rt (s.load (s.base rn + UInt64.ofNat offset))).next else none
  | .ldrLiteral rt offset => some (s.set rt (s.load (s.pc + UInt64.ofInt offset))).next
  | .mrsTpidr rt => some (s.set rt s.tpidr).next
  | .addImm rd rn imm => some (s.setBase rd (s.base rn + UInt64.ofNat imm)).next
  | .cbz rt offset => some (if s.get rt = 0 then s.jump offset else s.next)
  | .cbnz rt offset => some (if s.get rt ≠ 0 then s.jump offset else s.next)
  | .blr rn => some { s.set 30 (s.pc + 4) with pc := s.get rn }
  | .nop => some s.next
  | .b offset => some (s.jump offset)

section
variable (s : Cpu)

theorem exec_mrs (r : Fin 31) : exec s (.mrsTpidr r.castSucc) = some (s.write r s.tpidr) :=
  congrArg some (s.set_next r _)

theorem exec_add (r : Fin 31) (imm : Nat) :
    exec s (.addImm r.castSucc r.castSucc imm) = some (s.write r (s.x r + UInt64.ofNat imm)) := by
  simp only [exec]
  rw [Cpu.base_castSucc, Cpu.setBase_castSucc, Cpu.set_next]

theorem exec_ldr (r n : Fin 31) (offset : Nat) :
    exec s (.ldr r.castSucc n.castSucc offset) =
      some (s.write r (s.load (s.x n + UInt64.ofNat offset))) := by
  simp only [exec]
  rw [if_pos (s.aligned_castSucc n), Cpu.base_castSucc, Cpu.set_next]

section
variable (r : Fin 31)

theorem exec_ldrLiteral (offset : Int) :
    exec s (.ldrLiteral r.castSucc offset) = some (s.write r (s.load (s.pc + UInt64.ofInt offset))) :=
  congrArg some (s.set_next r _)

theorem exec_blr :
    exec s (.blr r.castSucc) = some { s with x := Function.update s.x 30 (s.pc + 4), pc := s.x r } := by
  simp only [exec]
  rw [Cpu.get_castSucc, ← Cpu.set_x]
  rfl

theorem exec_cbz (offset : Int) :
    exec s (.cbz r.castSucc offset) = some (if s.x r = 0 then s.jump offset else s.next) := by
  simp only [exec, Cpu.get_castSucc]

theorem exec_cbnz (offset : Int) :
    exec s (.cbnz r.castSucc offset) = some (if s.x r ≠ 0 then s.jump offset else s.next) := by
  simp only [exec, Cpu.get_castSucc]

/-- A load from the stack. -/
theorem exec_ldr_sp (offset : Nat) (h : s.sp.toNat % 16 = 0) :
    exec s (.ldr r.castSucc 31 offset) = some (s.write r (s.load (s.sp + UInt64.ofNat offset))) := by
  simp only [exec]
  rw [if_pos (by simp [Cpu.aligned, h]), ← Cpu.set_next]
  rfl

end

/-- A pair popped off the stack. -/
theorem exec_ldp_sp (r r' : Fin 31) (offset : Int) (h : s.sp.toNat % 16 = 0) :
    exec s (.ldpPost r.castSucc r'.castSucc 31 offset) =
      some { s with
        x := Function.update (Function.update s.x r (s.load s.sp)) r' (s.load (s.sp + 8))
        sp := s.sp + UInt64.ofInt offset
        pc := s.pc + 4 } := by
  simp only [exec]
  rw [if_pos (by simp [Cpu.aligned, h])]
  rw [← Cpu.set_x, ← Cpu.set_x]
  rfl

/-- A pair pushed on the stack. -/
theorem exec_stp_sp (r r' : Fin 31) (offset : Int) (h : s.sp.toNat % 16 = 0) :
    exec s (.stpPre r.castSucc r'.castSucc 31 offset) =
      some { s with
        sp := s.sp + UInt64.ofInt offset
        pc := s.pc + 4
        mem := writeDword (writeDword s.mem (s.sp + UInt64.ofInt offset).toNat (s.x r))
          (s.sp + UInt64.ofInt offset + 8).toNat (s.x r') } := by
  simp only [exec]
  rw [if_pos (by simp [Cpu.aligned, h]), Cpu.get_castSucc, Cpu.get_castSucc]
  rfl

theorem exec_str_sp (r : Fin 31) (offset : Nat) (h : s.sp.toNat % 16 = 0) :
    exec s (.str r.castSucc 31 offset) =
      some { s with
        pc := s.pc + 4
        mem := writeDword s.mem (s.sp + UInt64.ofNat offset).toNat (s.x r) } := by
  simp only [exec]
  rw [if_pos (by simp [Cpu.aligned, h]), Cpu.get_castSucc]
  rfl

end

/-- Code that is not looked into: where it starts and what running it to its return does. -/
structure Callee where
  entry : UInt64
  run : Cpu → Cpu

/-- Runs of the machine, with the number of times the callee was run. -/
inductive Runs (callee : Callee) : Cpu → Nat → Cpu → Prop
  | refl (s : Cpu) : Runs callee s 0 s
  | inst {s s' s'' : Cpu} {i : Inst} {calls : Nat} (outside : s.pc ≠ callee.entry)
      (fetched : decode (readWord s.mem s.pc.toNat) = some i) (executed : exec s i = some s')
      (rest : Runs callee s' calls s'') : Runs callee s calls s''
  | call {s s' : Cpu} {calls : Nat} (inside : s.pc = callee.entry)
      (rest : Runs callee (callee.run s) calls s') : Runs callee s (calls + 1) s'

theorem Runs.of_eq {callee : Callee} {s s' s'' : Cpu} {calls : Nat} (h : s = s')
    (hrest : Runs callee s' calls s'') : Runs callee s calls s'' := h ▸ hrest

end AArch64
