import Libhybris.AArch64
import Libhybris.TlsPatcher

/-!
# A patched read is a read of the simulated thread pointer

The words the patcher writes are decoded and executed. The thunk saves the registers it uses,
tests the arena and its shadow, calls the helper if one of them is zero, restores the registers
and reads the slot; `Saved` is what holds between saving and restoring.
-/
namespace TlsPatcher

open ByteMemory AArch64 Function

/-! ## The words of the thunk -/

theorem toNat_or_shift {a f : UInt32} (hi lo i width : Nat) (ha : a.toNat = hi * 2 ^ (i + width) + lo)
    (hlo : lo < 2 ^ i) (hf : f.toNat < 2 ^ width) (hi32 : i < 32) (hle : i + width ≤ 32) :
    (a ||| (f <<< UInt32.ofNat i)).toNat = a.toNat + f.toNat * 2 ^ i := by
  have hpow : f.toNat * 2 ^ i < 2 ^ 32 :=
    calc f.toNat * 2 ^ i < 2 ^ width * 2 ^ i := Nat.mul_lt_mul_of_pos_right hf (by positivity)
      _ = 2 ^ (i + width) := by rw [Nat.add_comm, Nat.pow_add]
      _ ≤ 2 ^ 32 := Nat.pow_le_pow_right (by omega) hle
  have hshift : (f <<< UInt32.ofNat i).toNat = f.toNat * 2 ^ i := by
    rw [UInt32.toNat_shiftLeft, UInt32.toNat_ofNat', Nat.shiftLeft_eq,
      show i % 2 ^ 32 % 32 = i by omega, Nat.mod_eq_of_lt hpow]
  rw [UInt32.toNat_or, hshift, ha, or_field hi hlo hf]
  omega

theorem toNat_or_low {a f : UInt32} (hi width : Nat) (ha : a.toNat = hi * 2 ^ width)
    (hf : f.toNat < 2 ^ width) : (a ||| f).toNat = a.toNat + f.toNat := by
  have h : (hi * 2 ^ (0 + width) + 0) ||| (f.toNat * 2 ^ 0) = _ := or_field hi (by decide) hf
  simp only [Nat.zero_add, Nat.pow_zero, Nat.mul_one, Nat.add_zero] at h
  rw [UInt32.toNat_or, ha, h]

variable {i k rn calls : Nat} {w : UInt32} {m : Memory} {a : UInt64} {c' s' : Cpu}

theorem register_eq {n lo : Nat} (h : n / 2 ^ lo % 32 = k) (hk : k < 32) : register n lo = ⟨k, hk⟩ := by
  ext
  simpa [register] using h

section
variable {rd imm : Nat} (hrd : rd < 32) (hrn : rn < 32) (himm : imm < 2 ^ 12)
include hrd hrn himm

/-- The fields of an instruction with an immediate of twelve bits and two registers. -/
theorem fields_eq {op : Nat} (hw : w.toNat = op * 2 ^ 22 + imm * 2 ^ 10 + rn * 2 ^ 5 + rd) :
    w.toNat / 2 ^ 22 = op ∧ field w.toNat 10 12 = imm ∧ register w.toNat 0 = ⟨rd, hrd⟩ ∧
      register w.toNat 5 = ⟨rn, hrn⟩ := by
  refine ⟨by omega, ?_, register_eq (by omega) hrd, register_eq (by omega) hrn⟩
  unfold field
  omega

theorem decode_add (hw : w.toNat = 0x244 * 2 ^ 22 + imm * 2 ^ 10 + rn * 2 ^ 5 + rd) :
    decode w = some (.addImm ⟨rd, hrd⟩ ⟨rn, hrn⟩ imm) := by
  obtain ⟨hop, hfield, h0, h5⟩ := fields_eq hrd hrn himm hw
  simp only [decode, hop, hfield, h0, h5]
  rfl

theorem decode_add_shifted (hw : w.toNat = 0x245 * 2 ^ 22 + imm * 2 ^ 10 + rn * 2 ^ 5 + rd) :
    decode w = some (.addImm ⟨rd, hrd⟩ ⟨rn, hrn⟩ (2 ^ 12 * imm)) := by
  obtain ⟨hop, hfield, h0, h5⟩ := fields_eq hrd hrn himm hw
  simp only [decode, hop, hfield, h0, h5]
  rfl

theorem decode_ldr (hw : w.toNat = 0x3E5 * 2 ^ 22 + imm * 2 ^ 10 + rn * 2 ^ 5 + rd) :
    decode w = some (.ldr ⟨rd, hrd⟩ ⟨rn, hrn⟩ (8 * imm)) := by
  obtain ⟨hop, hfield, h0, h5⟩ := fields_eq hrd hrn himm hw
  simp only [decode, hop, hfield, h0, h5]
  rfl

end

theorem decode_mrs {rt : Nat} (hrt : rt < 32) (hw : w.toNat = 0x6A9DE82 * 2 ^ 5 + rt) :
    decode w = some (.mrsTpidr ⟨rt, hrt⟩) := by
  have h22 : w.toNat / 2 ^ 22 = 0x354 := by omega
  have h24 : w.toNat / 2 ^ 24 = 0xD5 := by omega
  have h26 : w.toNat / 2 ^ 26 = 0x35 := by omega
  have hop : w.toNat / 2 ^ 5 = 0x6A9DE82 := by omega
  simp only [decode, h22, h24, h26, hop, register_eq (show w.toNat / 2 ^ 0 % 32 = rt by omega) hrt]
  rfl

theorem branchWord_toNat (n : Int) :
    (branchWord n).toNat = 0x5 * 2 ^ 26 + (n % 2 ^ 26).toNat := by
  have hmask : (UInt32.ofInt n &&& 0x3ffffff).toNat = (n % 2 ^ 26).toNat := by
    have hof : (UInt32.ofInt n).toNat = (n % 2 ^ 32).toNat := by
      simp [UInt32.ofInt]
      omega
    rw [UInt32.toNat_and, hof]
    change (n % 2 ^ 32).toNat &&& (2 ^ 26 - 1) = _
    rw [Nat.and_two_pow_sub_one_eq_mod]
    omega
  rw [branchWord, toNat_or_low 5 26 rfl (by rw [hmask]; omega), hmask]
  rfl

theorem decode_branch {n : Int} (hlow : -2 ^ 25 ≤ n) (hhigh : n < 2 ^ 25) :
    decode (branchWord n) = some (.b (4 * n)) := by
  have hw := branchWord_toNat n
  have h26 : (branchWord n).toNat / 2 ^ 26 = 0x5 := by omega
  have hfield : field (branchWord n).toNat 0 26 = (n % 2 ^ 26).toNat := by
    unfold field
    omega
  simp only [decode, h26, hfield, signed_emod (show 0 < 26 by decide) hlow hhigh]
  repeat rw [if_neg (by omega)]
  rfl

/-- A branch that is not refused goes where it should. -/
theorem branchOffset_spec {source target : UInt64} {n : Int}
    (h : branchOffset source target = some n) :
    decode (branchWord n) = some (.b (4 * n)) ∧ source + UInt64.ofInt (4 * n) = target := by
  simp only [branchOffset, Option.ite_none_left_eq_some, not_or, not_not, not_lt, not_le,
    Option.some.injEq] at h
  obtain ⟨⟨hmod, hlow, hhigh⟩, rfl⟩ := h
  refine ⟨decode_branch hlow hhigh, ?_⟩
  have hdiff : 4 * (target - source).toInt64.toInt.tdiv 4 = (target - source).toInt64.toInt := by
    have hdiv := Int.mul_tdiv_add_tmod (target - source).toInt64.toInt 4
    omega
  have hback : UInt64.ofInt (target - source).toInt64.toInt = target - source := by
    have hcond := BitVec.toInt_eq_toNat_cond (target - source).toBitVec
    have hlt := (target - source).toNat_lt
    change (target - source).toInt64.toInt =
      if 2 * (target - source).toNat < 2 ^ 64 then ((target - source).toNat : Int)
      else (target - source).toNat - (2 ^ 64 : Nat) at hcond
    rw [hcond, ← UInt64.toNat_inj]
    simp only [UInt64.ofInt, UInt64.toNat_ofNat']
    split <;> omega
  rw [hdiff, hback, UInt64.add_comm, UInt64.sub_add_cancel]

/-! ## Registers and code while the thunk runs -/

/-- The words from `a` on are the code. -/
def CodeAt (m : Memory) (a : UInt64) (code : List UInt32) : Prop :=
  ∀ i w, code[i]? = some w → readWord m (a.toNat + 4 * i) = w

theorem CodeAt.congr {m' : Memory} {code : List UInt32} (h : CodeAt m a code)
    (hsame : ∀ x, a.toNat ≤ x → x < a.toNat + 4 * code.length → m' x = m x) : CodeAt m' a code := by
  intro i w hw
  have hi : i < code.length := (List.getElem?_eq_some_iff.mp hw).1
  rw [← h i w hw]
  exact readWord_congr fun x hx hx' => hsame x (by omega) (by omega)

/-- The address of word `i`. -/
def wordAt (a : UInt64) (i : Nat) : UInt64 := a + UInt64.ofNat (4 * i)

theorem wordAt_next (a : UInt64) (i : Nat) : wordAt a i + 4 = wordAt a (i + 1) := by
  unfold wordAt
  rw [UInt64.add_assoc]
  congr 1
  rw [← UInt64.toNat_inj, UInt64.toNat_add]
  simp only [UInt64.toNat_ofNat', UInt64.reduceToNat]
  omega

theorem wordAt_ahead (a : UInt64) (i k : Nat) :
    wordAt a i + UInt64.ofInt (4 * k) = wordAt a (i + k) := by
  unfold wordAt
  rw [UInt64.add_assoc]
  congr 1
  rw [← UInt64.toNat_inj, UInt64.toNat_add]
  simp only [UInt64.ofInt, UInt64.toNat_ofNat']
  omega

theorem wordAt_toNat (h : a.toNat + 4 * i < 2 ^ 64) : (wordAt a i).toNat = a.toNat + 4 * i := by
  unfold wordAt
  rw [UInt64.toNat_add, UInt64.toNat_ofNat']
  omega

/-- One instruction of the code, with the callee elsewhere. -/
theorem CodeAt.step {callee : Callee} {s s'' : Cpu} {code : List UInt32} {inst : Inst}
    (h : CodeAt s.mem a code) (hpc : s.pc = wordAt a i) (hw : code[i]? = some w)
    (hinside : a.toNat + 4 * code.length ≤ 2 ^ 64) (hcallee : callee.entry ≠ wordAt a i)
    (hdecode : decode w = some inst) (hexec : exec s inst = some s') (hrest : Runs callee s' calls s'') :
    Runs callee s calls s'' := by
  have hi : i < code.length := (List.getElem?_eq_some_iff.mp hw).1
  refine .inst (hpc ▸ hcallee.symm) ?_ hexec hrest
  rw [hpc, wordAt_toNat (by omega), h i w hw]
  exact hdecode

section Thunk

variable {offset : Nat} {t : Fin 31}

theorem toNat_immLo (offset : Nat) :
    (UInt32.ofNat (offset &&& 0xfff)).toNat = offset % 2 ^ 12 := by
  rw [UInt32.toNat_ofNat', show (0xfff : Nat) = 2 ^ 12 - 1 from rfl, Nat.and_two_pow_sub_one_eq_mod]
  omega

theorem toNat_immHi (h : offset ≤ 0xffffff) :
    (UInt32.ofNat (offset >>> 12 &&& 0xfff)).toNat = offset / 2 ^ 12 := by
  rw [UInt32.toNat_ofNat', show (0xfff : Nat) = 2 ^ 12 - 1 from rfl, Nat.and_two_pow_sub_one_eq_mod,
    Nat.shiftRight_eq_div_pow]
  omega

theorem toNat_target (t : Fin 31) : (UInt32.ofNat t).toNat = t := by
  rw [UInt32.toNat_ofNat']
  omega

/-- The word of an instruction on the target register, before its immediate. -/
theorem toNat_targetWord {a : UInt32} (hi : Nat) (ha : a.toNat = hi * 2 ^ 22) (t : Fin 31) :
    (a ||| (UInt32.ofNat t <<< (5 : UInt32)) ||| UInt32.ofNat t).toNat =
      hi * 2 ^ 22 + t * 2 ^ 5 + t := by
  have ht := toNat_target t
  have h5 : (a ||| (UInt32.ofNat t <<< (5 : UInt32))).toNat = a.toNat + t * 2 ^ 5 := by
    have h := toNat_or_shift (a := a) (f := UInt32.ofNat t) hi 0 5 17 (by rw [ha]; simp)
      (by decide) (by rw [ht]; omega) (by decide) (by decide)
    rw [ht] at h
    exact h
  rw [toNat_or_low (hi * 2 ^ 17 + t) 5 (by rw [h5]; omega) (by rw [ht]; omega),
    h5, ht, ha]

theorem decode_mrsTarget (t : Fin 31) :
    decode (0xd53bd040 ||| UInt32.ofNat t) = some (.mrsTpidr t.castSucc) := by
  have ht := toNat_target t
  refine decode_mrs (by omega) ?_
  rw [toNat_or_low 0x6A9DE82 5 rfl (by rw [ht]; omega), ht]
  rfl

theorem toNat_immWord {a f : UInt32} (hi : Nat) (ha : a.toNat = hi * 2 ^ 22) (t : Fin 31)
    (hf : f.toNat < 2 ^ 12) :
    (a ||| (UInt32.ofNat t <<< (5 : UInt32)) ||| UInt32.ofNat t ||| (f <<< (10 : UInt32))).toNat =
      hi * 2 ^ 22 + f.toNat * 2 ^ 10 + t * 2 ^ 5 + t := by
  have hbase := toNat_targetWord hi ha t
  have h := toNat_or_shift hi (t * 2 ^ 5 + t) 10 12 (by rw [hbase]; omega) (by omega) hf (by decide)
    (by decide)
  exact h.trans (by omega)

theorem decode_addLo (offset : Nat) (t : Fin 31) :
    decode ((0x91000000 : UInt32) ||| (UInt32.ofNat t <<< (5 : UInt32)) ||| UInt32.ofNat t |||
      (UInt32.ofNat (offset &&& 0xfff) <<< (10 : UInt32))) =
      some (.addImm t.castSucc t.castSucc (offset % 2 ^ 12)) := by
  have hlo := toNat_immLo offset
  refine decode_add (by omega) (by omega) (by omega) ?_
  rw [toNat_immWord 0x244 rfl t (by omega), hlo]

theorem decode_addHi (h : offset ≤ 0xffffff) (t : Fin 31) :
    decode ((0x91400000 : UInt32) ||| (UInt32.ofNat t <<< (5 : UInt32)) ||| UInt32.ofNat t |||
      (UInt32.ofNat (offset >>> 12 &&& 0xfff) <<< (10 : UInt32))) =
      some (.addImm t.castSucc t.castSucc (2 ^ 12 * (offset / 2 ^ 12))) := by
  have hhi := toNat_immHi h
  refine decode_add_shifted (by omega) (by omega) (by omega) ?_
  rw [toNat_immWord 0x245 rfl t (by omega), hhi]

theorem decode_ldrTarget (t : Fin 31) :
    decode ((0xf9400000 : UInt32) ||| (UInt32.ofNat t <<< (5 : UInt32)) ||| UInt32.ofNat t) =
      some (.ldr t.castSucc t.castSucc 0) :=
  decode_ldr (by omega) (by omega) (show 0 < 2 ^ 12 by decide) (toNat_targetWord 0x3E5 rfl t)

/-- The two words on `x16` are those for target 16. -/
theorem decode_addLo16 (offset : Nat) :
    decode ((0x91000210 : UInt32) ||| (UInt32.ofNat (offset &&& 0xfff) <<< (10 : UInt32))) =
      some (.addImm 16 16 (offset % 2 ^ 12)) := decode_addLo offset 16

theorem decode_addHi16 (h : offset ≤ 0xffffff) :
    decode ((0x91400210 : UInt32) ||| (UInt32.ofNat (offset >>> 12 &&& 0xfff) <<< (10 : UInt32))) =
      some (.addImm 16 16 (2 ^ 12 * (offset / 2 ^ 12))) := decode_addHi h 16

/-- The two immediates make up the offset. -/
theorem add_immediates (v : UInt64) (offset : Nat) :
    v + UInt64.ofNat (offset % 2 ^ 12) + UInt64.ofNat (2 ^ 12 * (offset / 2 ^ 12)) =
      v + UInt64.ofNat offset := by
  rw [UInt64.add_assoc]
  congr 1
  rw [← UInt64.toNat_inj, UInt64.toNat_add]
  simp only [UInt64.toNat_ofNat']
  omega

/-! ## Running the thunk -/

/-- Where a thunk lies and what it was generated for. -/
structure Ready (callee : Callee) (offset : Nat) (location thunk : UInt64) (ret : Int) : Prop where
  inside : thunk.toNat + 96 ≤ 2 ^ 64
  offsetLe : offset ≤ 0xffffff
  back : branchOffset (thunk + 72) (location + 4) = some ret
  elsewhere : ∀ i < 24, callee.entry ≠ wordAt thunk i

variable {callee : Callee} {location thunk : UInt64} {ret : Int} {s c : Cpu}

/-- The code of the thunk for the target register. -/
def Loaded (callee : Callee) (offset : Nat) (t : Fin 31) (thunk : UInt64) (ret : Int)
    (m : Memory) : Prop :=
  CodeAt m thunk (thunkCode callee.entry offset (UInt32.ofNat t) ret)

theorem Ready.step (h : Ready callee offset location thunk ret) {c'' : Cpu} {inst : Inst}
    (hcode : Loaded callee offset t thunk ret c.mem) (hpc : c.pc = wordAt thunk i)
    (hw : (thunkCode callee.entry offset (UInt32.ofNat t) ret)[i]? = some w)
    (hdecode : decode w = some inst) (hexec : exec c inst = some c') (hrest : Runs callee c' calls c'') :
    Runs callee c calls c'' :=
  hcode.step hpc hw h.inside (h.elsewhere i (List.getElem?_eq_some_iff.mp hw).1) hdecode hexec hrest

/-- What the thunk keeps of the state `s` it was entered in: the registers it uses are in its
frame, and all others as they were. -/
structure Saved (s c : Cpu) : Prop where
  sp : c.sp.toNat + 32 = s.sp.toNat
  aligned : c.sp.toNat % 16 = 0
  tpidr : c.tpidr = s.tpidr
  flags : c.flags = s.flags
  others : ∀ r : Fin 31, r ≠ 16 → r ≠ 17 → r ≠ 30 → c.x r = s.x r
  x16 : readDword c.mem c.sp.toNat = s.x 16
  x17 : readDword c.mem (c.sp.toNat + 8) = s.x 17
  x30 : readDword c.mem (c.sp.toNat + 16) = s.x 30

theorem Saved.frame_toNat (h : Saved s c) (hk : k < 32) :
    (c.sp + UInt64.ofNat k).toNat = c.sp.toNat + k := by
  have hsp := h.sp
  have hlt := s.sp.toNat_lt
  rw [UInt64.toNat_add, UInt64.toNat_ofNat']
  omega

/-- The registers the thunk uses may change. -/
theorem Saved.scratch (h : Saved s c) (hsp : c'.sp = c.sp) (htpidr : c'.tpidr = c.tpidr)
    (hflags : c'.flags = c.flags) (hmem : c'.mem = c.mem)
    (hx : ∀ r : Fin 31, r ≠ 16 → r ≠ 17 → r ≠ 30 → c'.x r = c.x r) : Saved s c' where
  sp := hsp ▸ h.sp
  aligned := hsp ▸ h.aligned
  tpidr := htpidr.trans h.tpidr
  flags := hflags.trans h.flags
  others r h16 h17 h30 := (hx r h16 h17 h30).trans (h.others r h16 h17 h30)
  x16 := by rw [hsp, hmem, h.x16]
  x17 := by rw [hsp, hmem, h.x17]
  x30 := by rw [hsp, hmem, h.x30]

/-- The state after the thunk: the target has the slot's value, the rest is restored. -/
def restored (s c : Cpu) (t : Fin 31) (offset : Nat) (location : UInt64) : Cpu where
  x := fun r => if r = t then c.load (s.tpidr + UInt64.ofNat offset) else s.x r
  sp := s.sp
  pc := location + 4
  flags := s.flags
  tpidr := s.tpidr
  mem := c.mem

/-- Three instructions from word `i` on put the address of the slot into a register. -/
theorem Ready.address (h : Ready callee offset location thunk ret)
    (hcode : Loaded callee offset t thunk ret c.mem) {r : Fin 31} (hpc : c.pc = wordAt thunk i)
    {w₀ w₁ w₂ : UInt32} (hw₀ : (thunkCode callee.entry offset (UInt32.ofNat t) ret)[i]? = some w₀)
    (hw₁ : (thunkCode callee.entry offset (UInt32.ofNat t) ret)[i + 1]? = some w₁)
    (hw₂ : (thunkCode callee.entry offset (UInt32.ofNat t) ret)[i + 2]? = some w₂)
    (hd₀ : decode w₀ = some (.mrsTpidr r.castSucc))
    (hd₁ : decode w₁ = some (.addImm r.castSucc r.castSucc (offset % 2 ^ 12)))
    (hd₂ : decode w₂ = some (.addImm r.castSucc r.castSucc (2 ^ 12 * (offset / 2 ^ 12))))
    (hrest : Runs callee { c with
      x := Function.update c.x r (c.tpidr + UInt64.ofNat offset)
      pc := wordAt thunk (i + 3) } calls c') : Runs callee c calls c' := by
  have hpc₁ : c.pc + 4 = wordAt thunk (i + 1) := by rw [hpc, wordAt_next]
  have hpc₂ : c.pc + 4 + 4 = wordAt thunk (i + 2) := by rw [hpc₁, wordAt_next]
  have hpc₃ : c.pc + 4 + 4 + 4 = wordAt thunk (i + 3) := by rw [hpc₂, wordAt_next]
  refine h.step hcode hpc hw₀ hd₀ (exec_mrs c r) ?_
  refine h.step hcode hpc₁ hw₁ hd₁ (exec_add _ r _) ?_
  refine h.step hcode hpc₂ hw₂ hd₂ (exec_add _ r _) ?_
  simpa only [Cpu.write, update_self, update_idem, add_immediates, hpc₃] using hrest

theorem Ready.restore (h : Ready callee offset location thunk ret) (hsaved : Saved s c)
    (hcode : Loaded callee offset t thunk ret c.mem) (hpc : c.pc = wordAt thunk 12) :
    Runs callee c 0 (restored s c t offset location) := by
  have hpc₁₃ : c.pc + 4 = wordAt thunk 13 := by rw [hpc, wordAt_next]
  have hpc₁₄ : c.pc + 4 + 4 = wordAt thunk 14 := by rw [hpc₁₃, wordAt_next]
  obtain ⟨hbranch, hback⟩ := branchOffset_spec h.back
  refine h.step hcode hpc rfl (by decide : decode 0xf9400bfe = some (.ldr 30 31 16))
    (exec_ldr_sp c 30 16 hsaved.aligned) ?_
  refine h.step hcode hpc₁₃ rfl (by decide : decode 0xa8c247f0 = some (.ldpPost 16 17 31 32))
    (exec_ldp_sp _ 16 17 32 hsaved.aligned) ?_
  refine h.address (by exact hcode) (by exact hpc₁₄) rfl rfl rfl (decode_mrsTarget t)
    (decode_addLo offset t) (decode_addHi h.offsetLe t) ?_
  refine h.step hcode rfl rfl (decode_ldrTarget t) (exec_ldr _ t t 0) ?_
  refine h.step hcode (wordAt_next thunk 17) rfl hbranch rfl ?_
  have h17 : readDword c.mem (c.sp + 8).toNat = s.x 17 := by
    rw [← hsaved.x17, ← hsaved.frame_toNat (by decide : 8 < 32)]
    rfl
  have h30 : readDword c.mem (c.sp + UInt64.ofNat 16).toNat = s.x 30 := by
    rw [hsaved.frame_toNat (by decide), hsaved.x30]
  have hend : ∀ {u v : Cpu}, u = v → Runs callee u 0 v := fun huv => huv ▸ .refl _
  refine hend ?_
  simp only [Cpu.write, Cpu.jump, Cpu.load, restored, update_self, update_idem,
    Cpu.mk.injEq, hsaved.x16, h17, h30, hsaved.tpidr, hsaved.flags, and_true]
  refine ⟨?_, ?_, by rw [wordAt_next]; exact hback⟩
  · funext r
    by_cases ht : r = t
    · rw [ht, update_self, if_pos rfl]
      exact congrArg (fun a : UInt64 => readDword c.mem a.toNat) (UInt64.add_zero _)
    · simp only [update_apply]
      split_ifs with h17 h16 h30
      · rw [h17]
      · rw [h16]
      · rw [h30]
      · exact hsaved.others r h16 h17 h30
  · have hsp := hsaved.sp
    have hlt := s.sp.toNat_lt
    rw [← UInt64.toNat_inj]
    change (c.sp.toNat + 32) % 2 ^ 64 = _
    omega

/-- The helper returns to its caller with all registers but those the thunk restores, with the
flags, and without writing the thunk or its frame. -/
structure Preserving (callee : Callee) (thunk : UInt64) : Prop where
  returns : ∀ c, c.pc = callee.entry → (callee.run c).pc = c.x 30
  sp : ∀ c, c.pc = callee.entry → (callee.run c).sp = c.sp
  tpidr : ∀ c, c.pc = callee.entry → (callee.run c).tpidr = c.tpidr
  flags : ∀ c, c.pc = callee.entry → (callee.run c).flags = c.flags
  registers : ∀ c, c.pc = callee.entry → ∀ r, r ≠ 16 → r ≠ 17 → r ≠ 30 →
    (callee.run c).x r = c.x r
  frame : ∀ c, c.pc = callee.entry → ∀ a, c.sp.toNat ≤ a → a < c.sp.toNat + 32 →
    (callee.run c).mem a = c.mem a
  code : ∀ c, c.pc = callee.entry → ∀ a, thunk.toNat ≤ a → a < thunk.toNat + 96 →
    (callee.run c).mem a = c.mem a

theorem Preserving.saved (h : Preserving callee thunk) (hsaved : Saved s c)
    (hpc : c.pc = callee.entry) : Saved s (callee.run c) := by
  have hread : ∀ k, k ≤ 24 → readDword (callee.run c).mem ((callee.run c).sp.toNat + k) =
      readDword c.mem (c.sp.toNat + k) := by
    intro k hk
    rw [h.sp c hpc]
    exact readDword_congr fun x hx hx' => h.frame c hpc x (by omega) (by omega)
  exact {
    sp := h.sp c hpc ▸ hsaved.sp
    aligned := h.sp c hpc ▸ hsaved.aligned
    tpidr := (h.tpidr c hpc).trans hsaved.tpidr
    flags := (h.flags c hpc).trans hsaved.flags
    others := fun r h16 h17 h30 =>
      (h.registers c hpc r h16 h17 h30).trans (hsaved.others r h16 h17 h30)
    x16 := (hread 0 (by omega)).trans hsaved.x16
    x17 := (hread 8 (by omega)).trans hsaved.x17
    x30 := (hread 16 (by omega)).trans hsaved.x30 }

/-- The helper pointer stands behind the code. -/
theorem Ready.helperPointer (h : Ready callee offset location thunk ret)
    (hcode : Loaded callee offset t thunk ret m) : readDword m (wordAt thunk 22).toNat = callee.entry := by
  have hinside := h.inside
  rw [wordAt_toNat (by omega)]
  exact readDword_of_words (hcode 22 _ rfl) (hcode 23 _ rfl)

/-- From the slow path to the restoring part, through the helper. -/
theorem Ready.firstTouch (h : Ready callee offset location thunk ret)
    (hcallee : Preserving callee thunk) (hsaved : Saved s c)
    (hcode : Loaded callee offset t thunk ret c.mem) (hpc : c.pc = wordAt thunk 9) :
    ∃ d, d.pc = callee.entry ∧ d.mem = c.mem ∧
      Runs callee c 1 (restored s (callee.run d) t offset location) := by
  obtain ⟨d, hd⟩ : ∃ d : Cpu, d = { c with
      x := Function.update (Function.update c.x 17 callee.entry) 30 (wordAt thunk 11)
      pc := callee.entry } := ⟨_, rfl⟩
  have hdpc : d.pc = callee.entry := by rw [hd]
  have hdmem : d.mem = c.mem := by rw [hd]
  have hdx : d.x = Function.update (Function.update c.x 17 callee.entry) 30 (wordAt thunk 11) := by
    rw [hd]
  have hdsaved : Saved s d := hsaved.scratch (by rw [hd]) (by rw [hd]) (by rw [hd]) hdmem
    (fun r h16 h17 h30 => by rw [hdx, update_of_ne h30, update_of_ne h17])
  have hcode' : Loaded callee offset t thunk ret (callee.run d).mem := by
    refine CodeAt.congr (m := c.mem) hcode (fun x hx hx' => ?_)
    rw [hcallee.code d hdpc x hx hx', hdmem]
  have hreturn : (callee.run d).pc = wordAt thunk 11 := by
    rw [hcallee.returns d hdpc, hdx, update_self]
  have hpc₁₀ : c.pc + 4 = wordAt thunk 10 := by rw [hpc, wordAt_next]
  have hliteral : c.load (c.pc + UInt64.ofInt 52) = callee.entry := by
    rw [hpc, show (52 : Int) = 4 * ((13 : Nat) : Int) from rfl, wordAt_ahead]
    exact h.helperPointer hcode
  refine ⟨d, hdpc, hdmem, ?_⟩
  refine h.step hcode hpc rfl (by decide : decode 0x580001b1 = some (.ldrLiteral 17 52))
    (exec_ldrLiteral c 17 52) ?_
  refine h.step hcode hpc₁₀ rfl (by decide : decode 0xd63f0220 = some (.blr 17))
    (exec_blr _ 17) ?_
  have hcall : ∀ {u : Cpu}, u = d →
      Runs callee (callee.run d) 0 (restored s (callee.run d) t offset location) →
      Runs callee u 1 (restored s (callee.run d) t offset location) := by
    intro u hu hrest
    rw [hu]
    exact .call hdpc hrest
  refine hcall ?_ ?_
  · simp only [hd, Cpu.write, hliteral, update_self, hpc₁₀, wordAt_next]
  · refine h.step hcode' hreturn rfl (by decide : decode 0xd503201f = some .nop) rfl ?_
    exact h.restore ((hcallee.saved hdsaved hdpc).scratch rfl rfl rfl rfl fun _ _ _ _ => rfl) hcode'
      (by show (callee.run d).pc + 4 = _; rw [hreturn, wordAt_next])

/-- The 8 bytes at `a` are not in the 32 bytes below the stack pointer. -/
def OffFrame (s : Cpu) (a : UInt64) : Prop := s.sp.toNat ≤ a.toNat ∨ a.toNat + 8 + 32 ≤ s.sp.toNat

/-- The pointer in the slot: the thread pointer of the arena. -/
def arenaOf (s : Cpu) (offset : Nat) : UInt64 := s.load (s.tpidr + UInt64.ofNat offset)

/-- A stack pointer with 32 bytes below it that hold neither the thunk nor what it tests. -/
structure Usable (s : Cpu) (thunk : UInt64) (offset : Nat) : Prop where
  aligned : s.sp.toNat % 16 = 0
  room : 32 ≤ s.sp.toNat
  code : s.sp.toNat ≤ thunk.toNat ∨ thunk.toNat + 96 + 32 ≤ s.sp.toNat
  slot : OffFrame s (s.tpidr + UInt64.ofNat offset)
  shadow : OffFrame s (arenaOf s offset + 8)

/-- The state after the registers are saved. -/
def pushed (s : Cpu) (thunk : UInt64) : Cpu :=
  { s with
    sp := s.sp - 32
    pc := wordAt thunk 2
    mem := writeDword (writeDword (writeDword s.mem (s.sp.toNat - 32) (s.x 16))
      (s.sp.toNat - 24) (s.x 17)) (s.sp.toNat - 16) (s.x 30) }

theorem pushed_outside {a : Nat} (hroom : 32 ≤ s.sp.toNat)
    (ha : a + 32 < s.sp.toNat ∨ s.sp.toNat ≤ a) : (pushed s thunk).mem a = s.mem a := by
  simp only [pushed]
  rw [writeDword_outside _ _ (by omega), writeDword_outside _ _ (by omega),
    writeDword_outside _ _ (by omega)]

section
variable (h : Usable s thunk offset)
include h

theorem Usable.pushed_sp : (s.sp - 32).toNat = s.sp.toNat - 32 :=
  UInt64.toNat_sub_of_le s.sp 32 (UInt64.le_iff_toNat_le.mpr h.room)

theorem Usable.frame (hk : k < 32) : (s.sp - 32 + UInt64.ofNat k).toNat = s.sp.toNat - 32 + k := by
  have hlt := s.sp.toNat_lt
  rw [UInt64.toNat_add, h.pushed_sp, UInt64.toNat_ofNat']
  omega

theorem Usable.saved : Saved s (pushed s thunk) := by
  have hroom := h.room
  have haligned := h.aligned
  have hsp : (pushed s thunk).sp.toNat = s.sp.toNat - 32 := h.pushed_sp
  refine ⟨by omega, by omega, rfl, rfl, fun _ _ _ _ => rfl, ?_, ?_, ?_⟩
  · rw [hsp]
    simp only [pushed]
    rw [readDword_writeDword_apart _ _ (by omega), readDword_writeDword_apart _ _ (by omega),
      readDword_writeDword]
  · rw [hsp, show s.sp.toNat - 32 + 8 = s.sp.toNat - 24 by omega]
    simp only [pushed]
    rw [readDword_writeDword_apart _ _ (by omega), readDword_writeDword]
  · rw [hsp, show s.sp.toNat - 32 + 16 = s.sp.toNat - 16 by omega]
    simp only [pushed]
    rw [readDword_writeDword]

/-- What is not in the frame is read as before. -/
theorem Usable.load_pushed (ha : OffFrame s a) : (pushed s thunk).load a = s.load a := by
  have hroom := h.room
  unfold OffFrame at ha
  exact readDword_congr fun x hx hx' => pushed_outside hroom (by omega)

theorem Usable.loaded (hcode : Loaded callee offset t thunk ret s.mem) :
    Loaded callee offset t thunk ret (pushed s thunk).mem := by
  have hcodeOff := h.code
  refine CodeAt.congr hcode fun x hx hx' => pushed_outside h.room ?_
  change x < thunk.toNat + 96 at hx'
  omega

end

/-- Saving the registers. -/
theorem Ready.push (h : Ready callee offset location thunk ret) (husable : Usable s thunk offset)
    (hcode : Loaded callee offset t thunk ret s.mem) (hrest : Runs callee (pushed s thunk) calls s') :
    Runs callee { s with pc := thunk } calls s' := by
  have hroom := husable.room
  have hstart : thunk = wordAt thunk 0 := (UInt64.add_zero thunk).symm
  have hminus : s.sp + UInt64.ofInt (-32) = s.sp - 32 := by
    rw [UInt64.sub_eq_add_neg]
    exact congrArg (s.sp + ·) (by decide)
  have hf0 := husable.pushed_sp
  have hf8 : (s.sp - 32 + 8).toNat = s.sp.toNat - 24 :=
    (husable.frame (by decide : 8 < 32)).trans (by omega)
  have hf16 : (s.sp - 32 + UInt64.ofNat 16).toNat = s.sp.toNat - 16 :=
    (husable.frame (by decide : 16 < 32)).trans (by omega)
  have hpc₁ : thunk + 4 = wordAt thunk 1 := by
    rw [← wordAt_next, ← hstart]
  obtain ⟨c, hc⟩ : ∃ c : Cpu, c = { s with
      sp := s.sp - 32
      pc := wordAt thunk 1
      mem := writeDword (writeDword s.mem (s.sp.toNat - 32) (s.x 16)) (s.sp.toNat - 24) (s.x 17) } :=
    ⟨_, rfl⟩
  have hstp : exec { s with pc := thunk } (.stpPre 16 17 31 (-32)) = some c := by
    rw [hc]
    refine (exec_stp_sp { s with pc := thunk } 16 17 (-32) husable.aligned).trans ?_
    simp only [hminus, hf0, hf8, hpc₁]
  have hstr : exec c (.str 30 31 16) = some (pushed s thunk) := by
    rw [hc]
    refine (exec_str_sp _ 30 16 (by rw [hf0]; have := husable.aligned; omega)).trans ?_
    simp only [pushed, hf16, wordAt_next]
  have hcode₁ : Loaded callee offset t thunk ret c.mem := by
    have hcodeOff := husable.code
    refine CodeAt.congr hcode fun x hx hx' => ?_
    change x < thunk.toNat + 96 at hx'
    rw [congrArg Cpu.mem hc]
    dsimp only
    rw [writeDword_outside _ _ (by omega), writeDword_outside _ _ (by omega)]
  refine h.step (t := t) (by exact hcode) (by exact hstart) rfl
    (by decide : decode 0xa9be47f0 = some (.stpPre 16 17 31 (-32))) hstp ?_
  exact h.step hcode₁ (by rw [hc]) rfl (by decide : decode 0xf9000bfe = some (.str 30 31 16)) hstr hrest

/-- The helper is needed: the arena or its shadow of the thread is not set up. -/
def NeedsHelper (s : Cpu) (offset : Nat) : Prop :=
  arenaOf s offset = 0 ∨ s.load (arenaOf s offset + 8) = 0

instance (s : Cpu) (offset : Nat) : Decidable (NeedsHelper s offset) :=
  inferInstanceAs (Decidable (_ ∨ _))

/-- A run that behaves like a read of the simulated thread pointer. -/
structure ReadsThreadPointer (callee : Callee) (offset : Nat) (t : Fin 31) (location : UInt64)
    (s : Cpu) (calls : Nat) (s' : Cpu) : Prop where
  pc : s'.pc = location + 4
  target : s'.x t = s'.load (s.tpidr + UInt64.ofNat offset)
  others : ∀ r, r ≠ t → s'.x r = s.x r
  sp : s'.sp = s.sp
  flags : s'.flags = s.flags
  tpidr : s'.tpidr = s.tpidr
  helper : calls = if NeedsHelper s offset then 1 else 0
  /-- Memory changes in the 32 bytes below the stack pointer and by the helper only. -/
  memory : ∃ m : Memory, (∀ a, a + 32 < s.sp.toNat ∨ s.sp.toNat ≤ a → m a = s.mem a) ∧
    if NeedsHelper s offset then
      ∃ d, d.pc = callee.entry ∧ d.mem = m ∧ s'.mem = (callee.run d).mem
    else s'.mem = m

theorem readsThreadPointer_restored {c : Cpu} (hcalls : calls = if NeedsHelper s offset then 1 else 0)
    (hm : ∀ a, a + 32 < s.sp.toNat ∨ s.sp.toNat ≤ a → m a = s.mem a) (hmem : if NeedsHelper s offset then
      ∃ d, d.pc = callee.entry ∧ d.mem = m ∧ c.mem = (callee.run d).mem else c.mem = m) :
    ReadsThreadPointer callee offset t location s calls (restored s c t offset location) where
  pc := rfl
  target := if_pos rfl
  others _ hr := if_neg hr
  sp := rfl
  flags := rfl
  tpidr := rfl
  helper := hcalls
  memory := ⟨m, hm, hmem⟩

/-- The state during the tests: the slot's address in `x16`, what is tested in `x17`. -/
def tested (s : Cpu) (thunk : UInt64) (offset : Nat) (v pc : UInt64) : Cpu :=
  { pushed s thunk with
    x := Function.update (Function.update s.x 16 (s.tpidr + UInt64.ofNat offset)) 17 v
    pc }

section
variable (s : Cpu) (thunk : UInt64) (offset : Nat)

theorem tested_next (v : UInt64) (i : Nat) :
    (tested s thunk offset v (wordAt thunk i)).next = tested s thunk offset v (wordAt thunk (i + 1)) := by
  simp only [tested, Cpu.next, wordAt_next]

theorem tested_jump (v : UInt64) (i k : Nat) :
    (tested s thunk offset v (wordAt thunk i)).jump (4 * k) =
      tested s thunk offset v (wordAt thunk (i + k)) := by
  simp only [tested, Cpu.jump, wordAt_ahead]

/-- A load into `x17` during the tests. -/
theorem tested_write (v v' : UInt64) (i : Nat) :
    (tested s thunk offset v (wordAt thunk i)).write 17 v' =
      tested s thunk offset v' (wordAt thunk (i + 1)) := by
  simp only [tested, Cpu.write, wordAt_next, update_idem]

end

theorem Usable.tested (h : Usable s thunk offset) (v pc : UInt64) :
    Saved s (tested s thunk offset v pc) := by
  refine h.saved.scratch rfl rfl rfl rfl fun r h16 h17 _ => ?_
  simp only [TlsPatcher.tested, update_of_ne h17, update_of_ne h16]
  rfl

section
variable (h : Ready callee offset location thunk ret)
include h

/-- To the first test. -/
theorem Ready.loadArena (husable : Usable s thunk offset) (hcode : Loaded callee offset t thunk ret s.mem)
    (hrest : Runs callee (tested s thunk offset (arenaOf s offset) (wordAt thunk 6)) calls s') :
    Runs callee (pushed s thunk) calls s' := by
  have hcode' := husable.loaded hcode
  have hslot : (pushed s thunk).load (s.tpidr + UInt64.ofNat offset) = arenaOf s offset :=
    husable.load_pushed husable.slot
  refine h.address (r := 16) hcode' rfl rfl rfl rfl (by decide) (decode_addLo16 offset)
    (decode_addHi16 h.offsetLe) ?_
  refine h.step (t := t) (by exact hcode') rfl rfl
    (by decide : decode 0xf9400211 = some (.ldr 17 16 0)) (exec_ldr _ 17 16 0) ?_
  have hread : (pushed s thunk).load
      ((pushed s thunk).tpidr + UInt64.ofNat offset + UInt64.ofNat 0) = arenaOf s offset :=
    (congrArg (pushed s thunk).load (UInt64.add_zero _)).trans hslot
  refine .of_eq ?_ hrest
  simp only [Cpu.write, tested, update_self, wordAt_next, Cpu.mk.injEq, and_true]
  exact congrArg (Function.update _ 17) hread

section
variable (hcallee : Preserving callee thunk) (husable : Usable s thunk offset)
  (hcode : Loaded callee offset t thunk ret s.mem)
include hcallee husable hcode

/-- The slow path from either test. -/
theorem Ready.slow (hneeds : NeedsHelper s offset) (v : UInt64) :
    ∃ calls s', Runs callee (tested s thunk offset v (wordAt thunk 9)) calls s' ∧
      ReadsThreadPointer callee offset t location s calls s' := by
  obtain ⟨d, hdpc, hdmem, hruns⟩ :=
    h.firstTouch hcallee (husable.tested v (wordAt thunk 9)) (husable.loaded hcode) rfl
  refine ⟨1, _, hruns, readsThreadPointer_restored (m := (pushed s thunk).mem)
    (if_pos hneeds).symm (fun a ha => pushed_outside husable.room ha) ?_⟩
  rw [if_pos hneeds]
  exact ⟨d, hdpc, hdmem, rfl⟩

/-- From the saved registers to the end. -/
theorem Ready.test :
    ∃ calls s', Runs callee (pushed s thunk) calls s' ∧
      ReadsThreadPointer callee offset t location s calls s' := by
  have hcode' := husable.loaded hcode
  have hshadow : (pushed s thunk).load (arenaOf s offset + 8) = s.load (arenaOf s offset + 8) :=
    husable.load_pushed husable.shadow
  have hcbz := exec_cbz (tested s thunk offset (arenaOf s offset) (wordAt thunk 6)) 17 (4 * (3 : Nat))
  have hcbnz := exec_cbnz
    (tested s thunk offset (s.load (arenaOf s offset + 8)) (wordAt thunk 8)) 17 (4 * (4 : Nat))
  rw [tested_jump, tested_next] at hcbz hcbnz
  have hldr : exec (tested s thunk offset (arenaOf s offset) (wordAt thunk 7)) (.ldr 17 17 8) =
      some (tested s thunk offset (s.load (arenaOf s offset + 8)) (wordAt thunk 8)) := by
    refine (exec_ldr _ 17 17 8).trans ?_
    rw [tested_write]
    exact congrArg (fun v => some (tested s thunk offset v (wordAt thunk 8))) hshadow
  have hstart : ∀ {calls s'},
      Runs callee (if arenaOf s offset = 0 then
        tested s thunk offset (arenaOf s offset) (wordAt thunk 9)
        else tested s thunk offset (arenaOf s offset) (wordAt thunk 7)) calls s' →
      Runs callee (pushed s thunk) calls s' := fun hrest =>
    h.loadArena husable hcode (h.step (t := t) (by exact hcode') rfl rfl
      (by decide : decode 0xb4000071 = some (.cbz 17 12)) hcbz hrest)
  by_cases harena : arenaOf s offset = 0
  · rw [if_pos harena] at hstart
    obtain ⟨calls, s', hruns, hreads⟩ := h.slow hcallee husable hcode (.inl harena) (arenaOf s offset)
    exact ⟨calls, s', hstart hruns, hreads⟩
  rw [if_neg harena] at hstart
  have hsecond : ∀ {calls s'},
      Runs callee (if s.load (arenaOf s offset + 8) ≠ 0 then
        tested s thunk offset (s.load (arenaOf s offset + 8)) (wordAt thunk 12)
        else tested s thunk offset (s.load (arenaOf s offset + 8)) (wordAt thunk 9)) calls s' →
      Runs callee (pushed s thunk) calls s' := fun hrest =>
    hstart (h.step (t := t) (by exact hcode') rfl rfl
      (by decide : decode 0xf9400631 = some (.ldr 17 17 8)) hldr
      (h.step (t := t) (by exact hcode') rfl rfl
        (by decide : decode 0xb5000091 = some (.cbnz 17 16)) hcbnz hrest))
  by_cases hzero : s.load (arenaOf s offset + 8) = 0
  · rw [if_neg (not_not.mpr hzero)] at hsecond
    obtain ⟨calls, s', hruns, hreads⟩ := h.slow hcallee husable hcode (.inr hzero) _
    exact ⟨calls, s', hsecond hruns, hreads⟩
  · rw [if_pos hzero] at hsecond
    have hnot : ¬NeedsHelper s offset := fun hneeds => hneeds.elim harena hzero
    refine ⟨0, _, hsecond (h.restore (t := t) (husable.tested _ _) hcode' rfl),
      readsThreadPointer_restored (m := (pushed s thunk).mem) (if_neg hnot).symm
        (fun a ha => pushed_outside husable.room ha) ?_⟩
    rw [if_neg hnot]
    rfl

end

end

end Thunk

end TlsPatcher
