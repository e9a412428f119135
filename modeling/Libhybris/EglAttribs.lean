import Libhybris.ByteMemory
import Mathlib.Data.List.TakeWhile

/-!
# Attribute lists of platform surfaces

`eglCreatePlatformWindowSurface` of `egl.c` passes its list of `EGLAttrib` on as one of `EGLint`.
Integers are given by their bits.
-/
namespace EglAttribs

open List ByteMemory

/-- `EGL_NONE`. -/
def eglNone : UInt32 := 0x3038

inductive Build where
  | bits32
  | bits64

def sign (v : UInt32) : UInt32 := if v < 0x80000000 then 0 else 0xffffffff

/-- The words of an `EGLAttrib` that is representable as `EGLint`. -/
def attrib : Build → UInt32 → List UInt32
  | .bits32, v => [v]
  | .bits64, v => [v, sign v]

def attribList (b : Build) (pairs : List (UInt32 × UInt32)) : List UInt32 :=
  pairs.flatMap (fun p => attrib b p.1 ++ attrib b p.2) ++ attrib b eglNone

/-- A list of `EGLint` up to its terminator. A reader that does not find it runs out of the list. -/
def upToNone : List UInt32 → Option (List (UInt32 × UInt32))
  | n :: rest =>
    if n = eglNone then some []
    else
      match rest with
      | v :: rest => (upToNone rest).map ((n, v) :: ·)
      | [] => none
  | [] => none

/-- What the driver reads of a list of `size` words at `list`. -/
def driverReads (m : Memory) (size list : Nat) : Option (List (UInt32 × UInt32)) :=
  upToNone ((range size).map fun i => readWord m (list + 4 * i))

section
variable {α : Type} (driver : Nat → α)

def eglCreateWindowSurface (list : Nat) : α := driver list

/-- The cast changes the type of the pointer only. -/
def eglCreatePlatformWindowSurface (list : Nat) : α := eglCreateWindowSurface driver list

end

variable {pairs : List (UInt32 × UInt32)}

theorem upToNone_flatMap (pairs : List (UInt32 × UInt32)) (rest : List UInt32) :
    upToNone (pairs.flatMap (fun p => [p.1, p.2]) ++ eglNone :: rest) =
      some (pairs.takeWhile fun p => p.1 ≠ eglNone) := by
  induction pairs with
  | nil => rw [flatMap_nil, nil_append, upToNone.eq_def]; simp
  | cons p pairs ih => by_cases hp : p.1 = eglNone <;> simp [upToNone, hp, ih]

/-- The pairs a list of `EGLint` seems to hold: half an `EGLAttrib` of 64 bits is its sign. -/
def seen : Build → List (UInt32 × UInt32) → List (UInt32 × UInt32)
  | .bits32, pairs => pairs
  | .bits64, pairs => pairs.flatMap fun p => [(p.1, sign p.1), (p.2, sign p.2)]

theorem platform_reads (m : Memory) (a : Nat) (b : Build) (pairs : List (UInt32 × UInt32)) :
    eglCreatePlatformWindowSurface
      (driverReads (writeWords m a (attribList b pairs)) (attribList b pairs).length) a =
      some ((seen b pairs).takeWhile fun p => p.1 ≠ eglNone) := by
  have hwords : (range (attribList b pairs).length).map
      (fun i => readWord (writeWords m a (attribList b pairs)) (a + 4 * i)) = attribList b pairs := by
    refine ext_getElem (by simp) fun i hi hi' => ?_
    rw [getElem_map, getElem_range, readWord_writeWords m (getElem?_eq_getElem hi')]
  have hseen : ∃ rest,
    attribList b pairs = (seen b pairs).flatMap (fun p => [p.1, p.2]) ++ eglNone :: rest := by
    cases b with
    | bits32 => exact ⟨[], rfl⟩
    | bits64 => exact ⟨[0], by simp [attribList, seen, attrib, flatMap_assoc]; rfl⟩
  obtain ⟨rest, hrest⟩ := hseen
  rw [eglCreatePlatformWindowSurface, eglCreateWindowSurface, driverReads, hwords, hrest, upToNone_flatMap]

theorem sign_eq (v : UInt32) : sign v = 0 ∨ sign v = 0xffffffff := ite_eq_or_eq _ _ _

/-- If the pairs read of a 64-bit list were those it holds, all its values would be signs. None
would be taken for the terminator, and there would be twice as many pairs. -/
theorem eq_nil_of_seen (hnames : ∀ p ∈ pairs, p.1 ≠ eglNone)
    (h : (seen .bits64 pairs).takeWhile (fun p => p.1 ≠ eglNone) = pairs) : pairs = [] := by
  have hsign : ∀ p ∈ pairs, p.2 = 0 ∨ p.2 = 0xffffffff := by
    rw [← h]
    intro q hq
    obtain ⟨p, -, hq⟩ := mem_flatMap.mp (( takeWhile_prefix _).subset hq)
    simp only [mem_cons, not_mem_nil, or_false] at hq
    obtain rfl | rfl := hq <;> exact sign_eq _
  have hall : (seen .bits64 pairs).takeWhile (fun p => p.1 ≠ eglNone) = seen .bits64 pairs := by
    refine takeWhile_eq_self_iff.mpr fun q hq => decide_eq_true ?_
    obtain ⟨p, hp, hq⟩ := mem_flatMap.mp hq
    simp only [mem_cons, not_mem_nil, or_false] at hq
    obtain rfl | rfl := hq
    · exact hnames p hp
    · obtain hs | hs := hsign p hp <;> simp [hs, eglNone]
  have hlength := congrArg length (hall.symm.trans h)
  simp only [seen, length_flatMap, length_cons, length_nil, map_const', sum_replicate_nat] at hlength
  exact length_eq_zero_iff.mp (by omega)

/-- The driver never reads past the list, and it reads the application's pairs in a 32-bit build
only. -/
theorem driver_reads_pairs_iff (m : Memory) (a : Nat) (b : Build)
    (hnames : ∀ p ∈ pairs, p.1 ≠ eglNone) : ∃ read, eglCreatePlatformWindowSurface
        (driverReads (writeWords m a (attribList b pairs)) (attribList b pairs).length) a = some read ∧
      (read = pairs ↔ b = .bits32 ∨ pairs = []) := by
  refine ⟨_, platform_reads m a b pairs, ?_⟩
  cases b with
  | bits32 => simpa [seen] using hnames
  | bits64 =>
    refine ⟨fun h => .inr (eq_nil_of_seen hnames h), ?_⟩
    rintro (h | rfl)
    · cases h
    · rfl

/-- `EGL_RENDER_BUFFER`, `EGL_BACK_BUFFER`. -/
def renderBuffer : List (UInt32 × UInt32) := [(0x3086, 0x3084)]

theorem driver_reads_render_buffer : ∃ read, eglCreatePlatformWindowSurface
    (driverReads (writeWords (fun _ => 0) 64 (attribList .bits32 renderBuffer)) 3) 64 = some read ∧
      (read = renderBuffer ↔ Build.bits32 = .bits32 ∨ renderBuffer = []) :=
  driver_reads_pairs_iff _ _ .bits32 (by simp [renderBuffer, eglNone])

theorem render_buffer_misread : eglCreatePlatformWindowSurface
    (driverReads (writeWords (fun _ => 0) 64 (attribList .bits64 renderBuffer)) 6) 64 =
      some [(0x3086, 0), (0x3084, 0)] := by
  decide

end EglAttribs
