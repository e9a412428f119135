import Libhybris.ByteMemory
import Mathlib.Algebra.Group.Int.Defs

/-!
# The TLS patcher

`common/tls_patcher.c` and `common/tls_patcher_aarch64.c`: reads of the thread pointer in the
code of a library are replaced by branches to thunks that read the simulated one. Memory is
passed along; an abort gives no result. The address of `hybris_tls_first_touch` is a parameter.
-/
namespace TlsPatcher

open ByteMemory

/-- `hybris_is_tls_mrs`: `mrs x, tpidr_el0` for a register other than `xzr`. -/
def isTlsMrs (instruction : UInt32) : Bool :=
  (instruction &&& 0xffffffe0) == 0xd53bd040 && (instruction &&& 31) != 31

/-! ## Thunks -/

def thunkSize : Nat := 96

/-- The region the linker registered: it lies in the address space. -/
structure ThunkRegion where
  start : UInt64
  size : Nat
  used : Nat
  inside : start.toNat + size ≤ 2 ^ 64

/-- `hybris_register_thunk_region`. -/
def registerThunkRegion (start : UInt64) (size : Nat) (inside : start.toNat + size ≤ 2 ^ 64) :
    ThunkRegion := ⟨start, size, 0, inside⟩

/-- `hybris_allocate_thunk_near`. -/
def allocateThunkNear (region : ThunkRegion) (target : UInt64) (size : Nat) :
    Option (ThunkRegion × UInt64) :=
  let alignedSize := (size + 15) / 16 * 16
  if region.start = 0 ∨ region.size < region.used + alignedSize then none
  else
    let thunk := region.start + UInt64.ofNat region.used
    let distance := if thunk < target then target - thunk else thunk - target
    if 128 * 1024 * 1024 < distance then none
    else some ({ region with used := region.used + alignedSize }, thunk)

/-- The words from one instruction to another, if a branch reaches that far. The difference of
the addresses is an `intptr_t`, its quotient and remainder those of C. -/
def branchOffset (source target : UInt64) : Option Int :=
  let diff := (target - source).toInt64.toInt
  if diff.tmod 4 ≠ 0 ∨ diff.tdiv 4 < -2 ^ 25 ∨ 2 ^ 25 ≤ diff.tdiv 4 then none
  else some (diff.tdiv 4)

/-- `b offset`. -/
def branchWord (offset : Int) : UInt32 := 0x14000000 ||| (UInt32.ofInt offset &&& 0x3ffffff)

/-- The words `generate_tls_thunk` stores. -/
def thunkCode (helper : UInt64) (tlsOffsetBytes : Nat) (target : UInt32) (returnOffset : Int) :
    List UInt32 :=
  let immLo := UInt32.ofNat (tlsOffsetBytes &&& 0xfff)
  let immHi := UInt32.ofNat (tlsOffsetBytes >>> 12 &&& 0xfff)
  ([ 0xa9be47f0, -- stp x16, x17, [sp, #-32]!
    0xf9000bfe, -- str x30, [sp, #16]
    0xd53bd050, -- mrs x16, tpidr_el0
    0x91000210 ||| (immLo <<< (10 : UInt32)),
    0x91400210 ||| (immHi <<< (10 : UInt32)),
    0xf9400211, -- ldr x17, [x16]: arena thread pointer
    0xb4000071, -- cbz x17, +12 (first touch)
    0xf9400631, -- ldr x17, [x17, #8]: bionic pthread shadow
    0xb5000091, -- cbnz x17, +16 (restore)
    0x580001b1, -- ldr x17, +52 (helper pointer)
    0xd63f0220, -- blr x17
    0xd503201f, -- nop
    0xf9400bfe, -- ldr x30, [sp, #16]
    0xa8c247f0, -- ldp x16, x17, [sp], #32
    0xd53bd040 ||| target,
    0x91000000 ||| (target <<< (5 : UInt32)) ||| target ||| (immLo <<< (10 : UInt32)),
    0x91400000 ||| (target <<< (5 : UInt32)) ||| target ||| (immHi <<< (10 : UInt32)),
    0xf9400000 ||| (target <<< (5 : UInt32)) ||| target, -- ldr target, [target]
    branchWord returnOffset,
    0xd503201f, 0xd503201f, 0xd503201f ] : List UInt32) ++ dwordWords helper

/-- `generate_tls_thunk`. -/
def generateTlsThunk (helper : UInt64) (tlsOffsetWords : Int32) (target : UInt32)
    (mrsLocation thunk : UInt64) (m : Memory) : Option Memory :=
  let tlsOffsetBytes := tlsOffsetWords.toInt * 8
  if tlsOffsetBytes < 0 ∨ 0xffffff < tlsOffsetBytes then none
  else
    (branchOffset (thunk + 72) (mrsLocation + 4)).map fun returnOffset =>
      writeWords m thunk.toNat (thunkCode helper tlsOffsetBytes.toNat target returnOffset)

/-- `patch_mrs_with_branch`. -/
def patchMrsWithBranch (mrsLocation thunk : UInt64) (m : Memory) : Option Memory :=
  (branchOffset mrsLocation thunk).map fun wordOffset =>
    writeWords m mrsLocation.toNat [branchWord wordOffset]

/-! ## Segments -/

/-- An executable segment in the address space. -/
structure Segment where
  addr : UInt64
  size : Nat
  inside : addr.toNat + size ≤ 2 ^ 64

def Segment.count (segment : Segment) : Nat := segment.size / 4

/-- `text[i]`. -/
def Segment.text (segment : Segment) (m : Memory) (i : Nat) : UInt32 :=
  readWord m (segment.addr.toNat + 4 * i)

/-- `&text[i]`. -/
def Segment.location (segment : Segment) (i : Nat) : UInt64 :=
  segment.addr + UInt64.ofNat (4 * i)

/-- The loop of `hybris_patch_tls_arch`, from word `i` on with `left` words to go. -/
def patchFrom (helper : UInt64) (tlsOffset : Int32) (segment : Segment) :
    Nat → Nat → ThunkRegion → Memory → Option (ThunkRegion × Memory)
  | _, 0, region, m => some (region, m)
  | i, left + 1, region, m =>
    if isTlsMrs (segment.text m i) then
      match allocateThunkNear region (segment.location i) thunkSize with
      | none => none
      | some (region', thunk) =>
        match generateTlsThunk helper tlsOffset (segment.text m i &&& 31) (segment.location i)
            thunk m with
        | none => none
        | some m₁ =>
          match patchMrsWithBranch (segment.location i) thunk m₁ with
          | none => none
          | some m₂ => patchFrom helper tlsOffset segment (i + 1) left region' m₂
    else patchFrom helper tlsOffset segment (i + 1) left region m

/-- `hybris_patch_tls_arch`. -/
def patchTlsArch (helper : UInt64) (segment : Segment) (tlsOffset : Int32) (region : ThunkRegion)
    (m : Memory) : Option (ThunkRegion × Memory) :=
  patchFrom helper tlsOffset segment 0 segment.count region m

end TlsPatcher
