import Libhybris.BionicSync
import Mathlib.Tactic

/-!
# The shared segment

`common/hooks_shm.c` on a 64-bit host. One segment is shared by all processes; each maps it at an
address of its own and maps it again when it has grown. The offsets are `int`s in the segment, the
sizes of the mappings are `int`s of each process, and a handle is an offset with all bits above the
lowest 24 set. Mapping and truncation succeed, at addresses that are inputs.

The size of a `pthread_mutex_t` is a parameter. The header macro counts the padding behind the last
member, so that a mapping is seven bytes longer than its data.
-/
namespace Shm

open BionicSync List

/-- `HYBRIS_DATA_SIZE`. -/
def hybrisDataSize : Int := 4000

/-- Conversion to `int`. -/
def toInt (n : Int) : Int := Int.bmod n (2 ^ 32)

/-- Conversion to `size_t`. -/
def toSize (n : Int) : Nat := (n % 2 ^ 64).toNat

structure Segment where
  currentOffset : Int
  maxOffset : Int
  /-- The length of the shared object. -/
  length : Int
deriving DecidableEq, Repr

/-- `_hybris_shm_data` and `_current_mapped_size`. -/
structure Mapping where
  base : Nat
  size : Int
deriving DecidableEq, Repr

/-- What `hybris_shm_alloc` was asked for and returned. -/
structure Allocation where
  handle : Nat
  size : Nat
deriving DecidableEq, Repr

structure State where
  segment : Option Segment
  mapping : Nat → Option Mapping
  given : List Allocation

def start : State := ⟨none, fun _ => none, []⟩

section

variable (mutexSize : Nat)

/-- The offset of `data`. -/
def dataOffset : Int := mutexSize + 8

/-- `HYBRIS_SHM_DATA_HEADER_SIZE`, for a mutex aligned to eight bytes. -/
def headerSize : Int := mutexSize + 15

def syncMmapWithShm (seg : Segment) (m : Mapping) (address : Nat) : Mapping :=
  if m.size < toInt (seg.maxOffset + headerSize mutexSize) then
    ⟨address, toInt (seg.maxOffset + headerSize mutexSize)⟩
  else m

/-- `_hybris_shm_init`: open the segment, or create it. -/
def hybrisShmInit (s : State) (p address : Nat) : Segment × Mapping :=
  match s.segment with
  | some seg =>
    match s.mapping p with
    | some m => (seg, m)
    | none =>
      (seg, syncMmapWithShm mutexSize seg ⟨address, headerSize mutexSize + hybrisDataSize⟩ address)
  | none =>
    (⟨0, hybrisDataSize, headerSize mutexSize + hybrisDataSize⟩,
      ⟨address, headerSize mutexSize + hybrisDataSize⟩)

def hybrisShmExtendRegion (seg : Segment) (m : Mapping) (address : Nat) : Segment × Mapping :=
  let seg := { seg with
    length := toInt (m.size + hybrisDataSize), maxOffset := toInt (seg.maxOffset + hybrisDataSize) }
  (seg, syncMmapWithShm mutexSize seg m address)

def State.set (s : State) (seg : Segment) (p : Nat) (m : Mapping) : State :=
  { s with segment := some seg, mapping := Function.update s.mapping p (some m) }

def hybrisShmAlloc (s : State) (p size address : Nat) : State :=
  let (seg, m) := hybrisShmInit mutexSize s p address
  let m := syncMmapWithShm mutexSize seg m address
  let (seg, m) :=
    if (toSize seg.currentOffset + size) % 2 ^ 64 ≥ toSize seg.maxOffset then
      let (seg, m) := hybrisShmExtendRegion mutexSize seg m address
      (seg, syncMmapWithShm mutexSize seg m address)
    else (seg, m)
  let location := toSize seg.currentOffset ||| hybrisShmMask
  let seg := { seg with currentOffset := toInt (seg.currentOffset + size) }
  { s.set seg p m with given := s.given ++ [⟨location, size⟩] }

/-- The part of a handle that is the offset. -/
def handleOffset (handle : Nat) : Nat := handle &&& 0xFFFFFF

/-- The pointer, if the handle is one, and the mapping it points into. -/
def hybrisGetShmpointer (s : State) (p handle address : Nat) : State × Option (Int × Mapping) :=
  if isPointerInShm handle then
    let (seg, m) := hybrisShmInit mutexSize s p address
    let m := syncMmapWithShm mutexSize seg m address
    (s.set seg p m, some (m.base + dataOffset mutexSize + handleOffset handle, m))
  else (s, none)

inductive Op where
  | alloc (p size address : Nat)
  | get (p handle address : Nat)
deriving DecidableEq, Repr

def step (s : State) : Op → State
  | .alloc p size address => hybrisShmAlloc mutexSize s p size address
  | .get p handle address => (hybrisGetShmpointer mutexSize s p handle address).1

def run (s : State) (ops : List Op) : State := ops.foldl (step mutexSize) s

end

/-! ## Arithmetic -/

theorem toInt_eq {n : Int} (h : 0 ≤ n) (h' : n < 2 ^ 31) : toInt n = n := by
  rw [toInt, Int.bmod]
  omega

theorem toSize_eq (n : Nat) (h : n < 2 ^ 64) : toSize n = n := by
  rw [toSize]
  omega

variable {o : Nat} {seg : Segment} {m : Mapping}

/-- A handle carries the offset modulo the size of the handle range. -/
theorem or_hybrisShmMask (h : o < 2 ^ 64) : o ||| hybrisShmMask = hybrisShmMask + o % 2 ^ 24 := by
  have hlow : (o ||| hybrisShmMask) % 2 ^ 24 = o % 2 ^ 24 := by
    rw [Nat.or_mod_two_pow, show hybrisShmMask % 2 ^ 24 = 0 from rfl, Nat.or_zero]
  have hhigh : (o ||| hybrisShmMask) >>> 24 = 2 ^ 40 - 1 := by
    have ho : o >>> 24 < 2 ^ 40 := by
      omega
    rw [Nat.shiftRight_or_distrib, show hybrisShmMask >>> 24 = 2 ^ 40 - 1 from rfl]
    apply Nat.eq_of_testBit_eq
    intro i
    rw [Nat.testBit_or, Nat.testBit_two_pow_sub_one]
    by_cases hi : i < 40
    · rw [decide_eq_true hi, Bool.or_true]
    · rw [Nat.testBit_lt_two_pow (lt_of_lt_of_le ho (Nat.pow_le_pow_right (by omega) (by omega)))]
      rfl
  rw [Nat.shiftRight_eq_div_pow] at hhigh
  have hsplit := Nat.div_add_mod (o ||| hybrisShmMask) (2 ^ 24)
  rw [hhigh, hlow] at hsplit
  rw [← hsplit]
  rfl

theorem handleOffset_or (h : o < 2 ^ 64) : handleOffset (o ||| hybrisShmMask) = o % 2 ^ 24 := by
  rw [or_hybrisShmMask h, handleOffset, show 0xFFFFFF = 2 ^ 24 - 1 from rfl,
    Nat.and_two_pow_sub_one_eq_mod, show hybrisShmMask = (2 ^ 40 - 1) * 2 ^ 24 from rfl]
  omega

/-- The top 15 values of the handle range are taken for negative `int`s. -/
theorem isPointerInShm_or (h : o < 2 ^ 64) :
    isPointerInShm (o ||| hybrisShmMask) = true ↔ o % 2 ^ 24 ≤ 0xFFFFF0 := by
  rw [or_hybrisShmMask h, isPointerInShm, Bool.and_eq_true, decide_eq_true_iff, decide_eq_true_iff,
    show hybrisShmMask = 0xFFFFFFFFFF000000 from rfl, show hybrisShmMaskTop = 0xFFFFFFFFFFFFFFF0 from rfl]
  omega

/-! ## Tiling -/

/-- Objects of the given sizes one behind the other, with their offsets. -/
def tiles : Nat → List Nat → List (Nat × Nat)
  | _, [] => []
  | o, n :: rest => (o, n) :: tiles (o + n) rest

theorem tiles_append (o : Nat) (sizes : List Nat) (n : Nat) :
    tiles o (sizes ++ [n]) = tiles o sizes ++ [(o + sizes.sum, n)] := by
  induction sizes generalizing o with
  | nil => rfl
  | cons m sizes ih =>
    rw [cons_append, tiles, ih, Nat.add_assoc]
    rfl

variable {sizes : List Nat}

theorem tiles_bounds {t : Nat × Nat} (h : t ∈ tiles o sizes) : o ≤ t.1 ∧ t.1 + t.2 ≤ o + sizes.sum := by
  induction sizes generalizing o with
  | nil => cases h
  | cons n sizes ih =>
    rw [sum_cons]
    rcases mem_cons.mp h with rfl | h
    · exact ⟨le_rfl, by dsimp only; omega⟩
    · obtain ⟨hle, hend⟩ := ih h
      exact ⟨by omega, by omega⟩

/-- The last object starts where the others end, and no object starts later. -/
theorem tiles_start {t : Nat × Nat} (h : t ∈ tiles o sizes) : t.1 ≤ o + sizes.dropLast.sum := by
  induction sizes using List.reverseRecOn with
  | nil => cases h
  | append_singleton sizes n _ =>
    rw [dropLast_concat]
    rw [tiles_append] at h
    rcases mem_append.mp h with h | h
    · obtain ⟨-, hend⟩ := tiles_bounds h
      omega
    · rw [mem_singleton.mp h]

theorem tiles_pairwise (o : Nat) (sizes : List Nat) :
    (tiles o sizes).Pairwise fun a b => a.1 + a.2 ≤ b.1 := by
  induction sizes generalizing o with
  | nil => exact .nil
  | cons n sizes ih => exact .cons (fun t ht => (tiles_bounds ht).1) (ih _)

/-- The objects leave no gap. -/
theorem tiles_cover (sizes : List Nat) {x : Nat} (h : o ≤ x) (h' : x < o + sizes.sum) :
    ∃ t ∈ tiles o sizes, t.1 ≤ x ∧ x < t.1 + t.2 := by
  induction sizes generalizing o with
  | nil => simp only [sum_nil] at h'; omega
  | cons n sizes ih =>
    rw [sum_cons] at h'
    by_cases hx : x < o + n
    · exact ⟨(o, n), mem_cons_self, h, hx⟩
    · obtain ⟨t, ht, hin⟩ := ih (o := o + n) (by omega) (by omega)
      exact ⟨t, mem_cons_of_mem _ ht, hin⟩

/-! ## The segment while the offsets are small -/

section

variable {mutexSize : Nat} {s : State}

/-- The segment after objects of the given sizes. -/
structure Grown (mutexSize : Nat) (seg : Segment) (sizes : List Nat) : Prop where
  current : seg.currentOffset = sizes.sum
  room : seg.currentOffset < seg.maxOffset
  least : hybrisDataSize ≤ seg.maxOffset
  most : seg.maxOffset ≤ sizes.sum + hybrisDataSize
  length : seg.length = seg.maxOffset + headerSize mutexSize

structure Inv (mutexSize : Nat) (s : State) (sizes : List Nat) : Prop where
  given : s.given = (tiles 0 sizes).map fun t => ⟨t.1 ||| hybrisShmMask, t.2⟩
  created : s.segment = none → sizes = [] ∧ ∀ p, s.mapping p = none
  segment : ∀ seg, s.segment = some seg → Grown mutexSize seg sizes
  mapping : ∀ p m, s.mapping p = some m → ∀ seg, s.segment = some seg →
    m.size ≤ seg.maxOffset + headerSize mutexSize

/-- Small enough for the `int`s. -/
def Small (mutexSize : Nat) (sizes : List Nat) : Prop := mutexSize ≤ 4096 ∧ sizes.sum ≤ 2 ^ 25

theorem Inv.start (mutexSize : Nat) : Inv mutexSize Shm.start [] where
  given := rfl
  created _ := ⟨rfl, fun _ => rfl⟩
  segment _ h := nomatch h
  mapping _ _ h := nomatch h

/-- A mapping that is not longer than the segment becomes exactly as long. -/
theorem sync_size (hmutex : mutexSize ≤ 4096) (hpos : 0 ≤ seg.maxOffset) (hmax : seg.maxOffset ≤ 2 ^ 26)
    (hm : m.size ≤ seg.maxOffset + headerSize mutexSize) (address : Nat) :
    (syncMmapWithShm mutexSize seg m address).size = seg.maxOffset + headerSize mutexSize := by
  have hbound : toInt (seg.maxOffset + headerSize mutexSize) = seg.maxOffset + headerSize mutexSize := by
    apply toInt_eq
    all_goals rw [headerSize]; omega
  rw [syncMmapWithShm, hbound]
  split
  · rfl
  · omega

theorem Grown.sync_size (hseg : Grown mutexSize seg sizes) (hsmall : Small mutexSize sizes)
    (hm : m.size ≤ seg.maxOffset + headerSize mutexSize) (address : Nat) :
    (syncMmapWithShm mutexSize seg m address).size = seg.maxOffset + headerSize mutexSize := by
  obtain ⟨hmutex, hsum⟩ := hsmall
  have hleast := hseg.least
  have hmost := hseg.most
  rw [hybrisDataSize] at hleast hmost
  exact Shm.sync_size hmutex (by omega) (by omega) hm address

/-- Attaching and mapping all of the segment. -/
theorem attach_spec (h : Inv mutexSize s sizes) (hsmall : Small mutexSize sizes) (p address : Nat) :
    ∃ seg m, hybrisShmInit mutexSize s p address = (seg, m) ∧ Grown mutexSize seg sizes ∧
      (∀ seg', s.segment = some seg' → seg' = seg) ∧
      (syncMmapWithShm mutexSize seg m address).size = seg.maxOffset + headerSize mutexSize := by
  rw [hybrisShmInit]
  cases hseg : s.segment with
  | none =>
    obtain ⟨rfl, -⟩ := h.created hseg
    have hgrown : Grown mutexSize
        ⟨0, hybrisDataSize, headerSize mutexSize + hybrisDataSize⟩ [] :=
      ⟨rfl, show (0 : Int) < 4000 by decide, le_rfl, show (4000 : Int) ≤ 0 + 4000 by decide,
        Int.add_comm _ _⟩
    refine ⟨_, _, rfl, hgrown, nofun, hgrown.sync_size hsmall ?_ address⟩
    exact (Int.add_comm _ _).le
  | some seg =>
    have hgrown := h.segment seg hseg
    cases hmap : s.mapping p with
    | some m =>
      exact ⟨seg, m, rfl, hgrown, fun seg' h' => (Option.some.inj h').symm,
        hgrown.sync_size hsmall (h.mapping p m hmap seg hseg) address⟩
    | none =>
      refine ⟨seg, _, rfl, hgrown, fun seg' h' => (Option.some.inj h').symm,
        hgrown.sync_size hsmall ?_ address⟩
      refine (hgrown.sync_size hsmall ?_ address).le
      have hleast := hgrown.least
      dsimp only
      omega

/-- One allocation from a segment that is mapped as a whole. -/
theorem extend_spec (hseg : Grown mutexSize seg sizes) (hm : m.size = seg.maxOffset + headerSize mutexSize)
    {size : Nat} (hpos : 1 ≤ size) (hsize : size ≤ 4000) (hsmall : Small mutexSize (sizes ++ [size]))
    (address : Nat) :
    ∃ seg' m', (if (toSize seg.currentOffset + size) % 2 ^ 64 ≥ toSize seg.maxOffset then
        let (seg, m) := hybrisShmExtendRegion mutexSize seg m address
        (seg, syncMmapWithShm mutexSize seg m address)
      else (seg, m)) = (seg', m') ∧ toSize seg'.currentOffset = sizes.sum ∧
      Grown mutexSize { seg' with currentOffset := toInt (seg'.currentOffset + size) } (sizes ++ [size]) ∧
      seg.maxOffset ≤ seg'.maxOffset ∧ m'.size = seg'.maxOffset + headerSize mutexSize := by
  obtain ⟨hmutex, hsum⟩ := hsmall
  obtain ⟨hcurrent, hroom, hleast, hmost, hlength⟩ := hseg
  have hsum' : ((sizes ++ [size]).sum : Int) = sizes.sum + size := by
    rw [sum_append]
    rfl
  have hheader : headerSize mutexSize = mutexSize + 15 := rfl
  rw [hybrisDataSize] at hleast hmost
  have hmax : toSize seg.maxOffset = seg.maxOffset.toNat := by
    rw [toSize]
    omega
  have hcur : toSize seg.currentOffset = sizes.sum := by
    rw [hcurrent]
    exact toSize_eq _ (by omega)
  have hnext : toInt (seg.currentOffset + size) = sizes.sum + size := by
    rw [hcurrent]
    exact toInt_eq (by omega) (by omega)
  split
  · have hmax' : toInt (seg.maxOffset + hybrisDataSize) = seg.maxOffset + 4000 :=
      toInt_eq (by rw [hybrisDataSize]; omega) (by rw [hybrisDataSize]; omega)
    have hlen' : toInt (m.size + hybrisDataSize) = seg.maxOffset + 4000 + headerSize mutexSize := by
      rw [toInt_eq (by rw [hybrisDataSize]; omega) (by rw [hybrisDataSize]; omega), hybrisDataSize]
      omega
    have hpos' : 0 ≤ toInt (seg.maxOffset + hybrisDataSize) := by omega
    have hmost' : toInt (seg.maxOffset + hybrisDataSize) ≤ 2 ^ 26 := by omega
    refine ⟨_, _, rfl, hcur, ⟨?_, ?_, ?_, ?_, ?_⟩, ?_, ?_⟩
    · rw [hnext, hsum']
    · change toInt (seg.currentOffset + size) < toInt (seg.maxOffset + hybrisDataSize)
      omega
    · change hybrisDataSize ≤ toInt (seg.maxOffset + hybrisDataSize)
      rw [hmax', hybrisDataSize]
      omega
    · change toInt (seg.maxOffset + hybrisDataSize) ≤ _
      rw [hmax', hybrisDataSize]
      omega
    · rw [hmax', hlen']
    · change seg.maxOffset ≤ toInt (seg.maxOffset + hybrisDataSize)
      omega
    · refine sync_size hmutex hpos' hmost' (sync_size hmutex hpos' hmost' ?_ address).le address
      change m.size ≤ toInt (seg.maxOffset + hybrisDataSize) + _
      omega
  · refine ⟨seg, m, rfl, hcur, ⟨?_, ?_, ?_, ?_, hlength⟩, le_rfl, hm⟩
    · rw [hsum']
      exact hnext
    · change toInt (seg.currentOffset + size) < seg.maxOffset
      omega
    · exact hleast
    · rw [hybrisDataSize]
      change seg.maxOffset ≤ _
      omega

theorem Small.dropLast {n : Nat} (h : Small mutexSize (sizes ++ [n])) : Small mutexSize sizes := by
  obtain ⟨hmutex, hsum⟩ := h
  rw [sum_append] at hsum
  exact ⟨hmutex, by omega⟩

section
variable (h : Inv mutexSize s sizes)
include h

/-- The other mappings stay within a segment that does not shrink. -/
theorem Inv.set_mapping {seg' : Segment} {p : Nat} (hseg : ∀ seg', s.segment = some seg' → seg' = seg)
    (hle : seg.maxOffset ≤ seg'.maxOffset) (hm : m.size = seg'.maxOffset + headerSize mutexSize) (q : Nat)
    (m' : Mapping) (hq : (s.set seg' p m).mapping q = some m') :
    m'.size ≤ seg'.maxOffset + headerSize mutexSize := by
  by_cases hpq : q = p
  · subst hpq
    have hq' : some m = some m' := by
      rw [← hq]
      exact (Function.update_self q (some m) s.mapping).symm
    cases hq'
    exact hm.le
  · have hq' : s.mapping q = some m' := by
      rw [← hq]
      exact (Function.update_of_ne hpq _ _).symm
    cases hs : s.segment with
    | none =>
      rw [(h.created hs).2 q] at hq'
      cases hq'
    | some seg₀ =>
      have hle' := h.mapping q m' hq' seg₀ hs
      rw [hseg seg₀ hs] at hle'
      omega

theorem Inv.alloc (p : Nat) {size : Nat} (address : Nat) (hpos : 1 ≤ size) (hsize : size ≤ 4000)
    (hsmall : Small mutexSize (sizes ++ [size])) :
    Inv mutexSize (hybrisShmAlloc mutexSize s p size address) (sizes ++ [size]) := by
  obtain ⟨seg, m, hinit, hgrown, hsame, hsync⟩ := attach_spec h hsmall.dropLast p address
  obtain ⟨seg', m', hextend, hcur, hgrown', hle, hm'⟩ :=
    extend_spec hgrown hsync hpos hsize hsmall address
  rw [hybrisShmAlloc, hinit]
  dsimp only
  rw [hextend]
  refine ⟨?_, nofun, ?_, ?_⟩
  · rw [h.given, tiles_append, map_append, hcur, Nat.zero_add]
    rfl
  · intro seg₀ h₀
    cases h₀
    exact hgrown'
  · intro q m₀ hq seg₀ h₀
    cases h₀
    exact h.set_mapping hsame hle hm' q m₀ hq

theorem get_spec (hsmall : Small mutexSize sizes) (p address : Nat) {handle : Nat}
    (hhandle : isPointerInShm handle = true) :
    ∃ seg m, hybrisGetShmpointer mutexSize s p handle address =
        (s.set seg p m, some (m.base + dataOffset mutexSize + handleOffset handle, m)) ∧
      Grown mutexSize seg sizes ∧ (∀ seg', s.segment = some seg' → seg' = seg) ∧
      m.size = seg.maxOffset + headerSize mutexSize := by
  obtain ⟨seg, m, hinit, hgrown, hsame, hsync⟩ := attach_spec h hsmall p address
  refine ⟨seg, _, ?_, hgrown, hsame, hsync⟩
  rw [hybrisGetShmpointer, if_pos hhandle, hinit]

theorem Inv.get (hsmall : Small mutexSize sizes) (p handle address : Nat) :
    Inv mutexSize (hybrisGetShmpointer mutexSize s p handle address).1 sizes := by
  by_cases hhandle : isPointerInShm handle = true
  · obtain ⟨seg, m, hget, hgrown, hsame, hm⟩ := get_spec h hsmall p address hhandle
    rw [hget]
    refine ⟨h.given, nofun, ?_, ?_⟩
    · intro seg₀ h₀
      cases h₀
      exact hgrown
    · intro q m₀ hq seg₀ h₀
      cases h₀
      exact h.set_mapping hsame le_rfl hm q m₀ hq
  · rw [hybrisGetShmpointer, if_neg hhandle]
    exact h

end

/-- The size an operation asks for. -/
def Op.size? : Op → Option Nat
  | .alloc _ size _ => some size
  | .get .. => none

theorem Small.mono {sizes' : List Nat} (h : Small mutexSize (sizes ++ sizes')) :
    Small mutexSize sizes := by
  obtain ⟨hmutex, hsum⟩ := h
  rw [sum_append] at hsum
  exact ⟨hmutex, by omega⟩

theorem Inv.run (h : Inv mutexSize s sizes) {ops : List Op}
    (hsizes : ∀ n ∈ ops.filterMap Op.size?, 1 ≤ n ∧ n ≤ 4000)
    (hsmall : Small mutexSize (sizes ++ ops.filterMap Op.size?)) :
    Inv mutexSize (Shm.run mutexSize s ops) (sizes ++ ops.filterMap Op.size?) := by
  induction ops generalizing s sizes with
  | nil =>
    rw [filterMap_nil, append_nil]
    exact h
  | cons op ops ih =>
    cases op with
    | alloc p size address =>
      have hcons : (Op.alloc p size address :: ops).filterMap Op.size? =
          size :: ops.filterMap Op.size? := rfl
      rw [hcons] at hsizes hsmall ⊢
      obtain ⟨hpos, hsize⟩ := hsizes size mem_cons_self
      rw [append_cons] at hsmall ⊢
      exact ih (h.alloc p address hpos hsize hsmall.mono)
        (fun n hn => hsizes n (mem_cons_of_mem size hn)) hsmall
    | get p handle address =>
      exact ih (h.get hsmall.mono p handle address) hsizes hsmall

/-! ## Soundness of the handles -/

/-- Every handle is known as one, and points in every process to an object that lies inside the
mapping; objects do not overlap. -/
structure Sound (mutexSize : Nat) (s : State) : Prop where
  recognised : ∀ a ∈ s.given, isPointerInShm a.handle = true
  mapped : ∀ a ∈ s.given, ∀ p address, ∃ m,
    (hybrisGetShmpointer mutexSize s p a.handle address).2 =
      some (m.base + dataOffset mutexSize + handleOffset a.handle, m) ∧
    dataOffset mutexSize + handleOffset a.handle + a.size ≤ m.size
  disjoint : s.given.Pairwise fun a b =>
    handleOffset a.handle + a.size ≤ handleOffset b.handle ∨
      handleOffset b.handle + b.size ≤ handleOffset a.handle

theorem Inv.sound (h : Inv mutexSize s sizes) (hsmall : Small mutexSize sizes)
    (hsum : sizes.dropLast.sum ≤ 0xFFFFF0) : Sound mutexSize s := by
  have hstart : ∀ t ∈ tiles 0 sizes, t.1 ≤ 0xFFFFF0 := fun t ht => by
    have hle := tiles_start ht
    omega
  have hoffset : ∀ t ∈ tiles 0 sizes, handleOffset (t.1 ||| hybrisShmMask) = t.1 := fun t ht => by
    have hle := hstart t ht
    rw [handleOffset_or (by omega)]
    omega
  have hrecognised : ∀ t ∈ tiles 0 sizes, isPointerInShm (t.1 ||| hybrisShmMask) = true :=
    fun t ht => by
      have hle := hstart t ht
      rw [isPointerInShm_or (by omega)]
      omega
  refine ⟨?_, ?_, ?_⟩
  · rw [h.given]
    intro a ha
    obtain ⟨t, ht, rfl⟩ := mem_map.mp ha
    exact hrecognised t ht
  · rw [h.given]
    intro a ha p address
    obtain ⟨t, ht, rfl⟩ := mem_map.mp ha
    obtain ⟨seg, m, hget, hgrown, -, hm⟩ := get_spec h hsmall p address (hrecognised t ht)
    refine ⟨m, by rw [hget], ?_⟩
    have hend := (tiles_bounds ht).2
    have hcurrent := hgrown.current
    have hroom := hgrown.room
    dsimp only
    rw [hoffset t ht, hm, dataOffset, headerSize]
    omega
  · rw [h.given, pairwise_map]
    refine (tiles_pairwise 0 sizes).imp_of_mem fun {t u} ht hu htu => .inl ?_
    rw [hoffset t ht, hoffset u hu]
    exact htu

/-- The object at an offset past the handle range is either not recognised or lies over an
earlier one. -/
theorem not_sound_of_past {n : Nat} (hpos : 1 ≤ n) (hpast : 0xFFFFF0 < sizes.sum)
    (hnear : sizes.sum ≤ 0xFFFFF0 + 4000)
    (hrecognised : isPointerInShm (sizes.sum ||| hybrisShmMask) = true) :
    ∃ t ∈ tiles 0 sizes,
      ¬(handleOffset (t.1 ||| hybrisShmMask) + t.2 ≤ handleOffset (sizes.sum ||| hybrisShmMask) ∨
        handleOffset (sizes.sum ||| hybrisShmMask) + n ≤ handleOffset (t.1 ||| hybrisShmMask)) := by
  rw [isPointerInShm_or (by omega)] at hrecognised
  obtain ⟨t, ht, hle, hlt⟩ := tiles_cover (o := 0) sizes (x := sizes.sum % 2 ^ 24)
    (by omega) (by omega)
  refine ⟨t, ht, ?_⟩
  rw [handleOffset_or (by omega), handleOffset_or (by omega)]
  omega

/-- Nothing that was given out is ever taken back from the list. -/
theorem given_run (mutexSize : Nat) (s : State) (ops : List Op) :
    ∃ later, (run mutexSize s ops).given = s.given ++ later := by
  induction ops generalizing s with
  | nil => exact ⟨[], (append_nil _).symm⟩
  | cons op ops ih =>
    obtain ⟨later, hlater⟩ := ih (step mutexSize s op)
    have hstep : ∃ now, (step mutexSize s op).given = s.given ++ now := by
      cases op with
      | alloc p size address => exact ⟨_, rfl⟩
      | get p handle address =>
        refine ⟨[], ?_⟩
        rw [step, hybrisGetShmpointer, append_nil]
        split
        all_goals rfl
    obtain ⟨now, hnow⟩ := hstep
    exact ⟨now ++ later, by rw [← append_assoc, ← hnow]; exact hlater⟩

theorem sum_le_dropLast (h : ∀ n ∈ sizes, n ≤ 4000) : sizes.sum ≤ sizes.dropLast.sum + 4000 := by
  induction sizes using List.reverseRecOn with
  | nil => simp
  | append_singleton sizes n _ =>
    have hn := h n (by simp)
    rw [dropLast_concat, sum_append, sum_singleton]
    omega

/-- Handles that are recognised and disjoint were given out below the end of the handle range.
The induction takes the operations in order, so that the first object past the range is the last
one of a run in which the offsets are still small. -/
theorem sum_le_of_sound (hmutex : mutexSize ≤ 4096) {ops : List Op}
    (hsizes : ∀ n ∈ ops.filterMap Op.size?, 1 ≤ n ∧ n ≤ 4000)
    (hrecognised : ∀ a ∈ (run mutexSize start ops).given, isPointerInShm a.handle = true)
    (hdisjoint : (run mutexSize start ops).given.Pairwise fun a b =>
      handleOffset a.handle + a.size ≤ handleOffset b.handle ∨
        handleOffset b.handle + b.size ≤ handleOffset a.handle) :
    (ops.filterMap Op.size?).dropLast.sum ≤ 0xFFFFF0 := by
  induction ops using List.reverseRecOn with
  | nil => simp
  | append_singleton ops op ih =>
    have hrun : run mutexSize start (ops ++ [op]) = run mutexSize (run mutexSize start ops) [op] :=
      foldl_append
    obtain ⟨now, hnow⟩ := given_run mutexSize (run mutexSize start ops) [op]
    rw [← hrun] at hnow
    have hstart : (ops.filterMap Op.size?).dropLast.sum ≤ 0xFFFFF0 := by
      rw [hnow] at hrecognised hdisjoint
      refine ih (fun n hn => hsizes n ?_) (fun a ha => hrecognised a (mem_append_left now ha))
        (pairwise_append.mp hdisjoint).1
      rw [filterMap_append]
      exact mem_append_left _ hn
    cases op with
    | get p handle address =>
      rw [filterMap_append]
      change (List.filterMap Op.size? ops ++ []).dropLast.sum ≤ _
      rw [append_nil]
      exact hstart
    | alloc p size address =>
      have happend : (ops ++ [Op.alloc p size address]).filterMap Op.size? =
          ops.filterMap Op.size? ++ [size] := filterMap_append
      have hnear := sum_le_dropLast fun n hn => (hsizes n (happend ▸ mem_append_left _ hn)).2
      obtain ⟨hpos, hsize⟩ := hsizes size (happend ▸ mem_append_right _ (mem_singleton_self size))
      have hinv := (Inv.start mutexSize).run hsizes
      rw [nil_append, happend] at hinv
      replace hinv := hinv ⟨hmutex, by rw [sum_append, sum_singleton]; omega⟩
      rw [happend, dropLast_concat]
      by_contra hpast
      rw [hinv.given, tiles_append, map_append, Nat.zero_add] at hrecognised hdisjoint
      obtain ⟨t, ht, hover⟩ := not_sound_of_past hpos (not_le.mp hpast) (by omega)
        (hrecognised _ (mem_append_right _ (mem_singleton_self _)))
      exact hover ((pairwise_append.mp hdisjoint).2.2 _ (mem_map_of_mem ht) _
        (mem_singleton_self _))

end

/-- For every sequence of allocations of 1 to 4000 bytes and translations by any processes, the
handles are sound exactly when every object but the last ends below the handle range's top. -/
theorem allocations_sound_iff (mutexSize : Nat) (hmutex : mutexSize ≤ 4096) (ops : List Op)
    (hsizes : ∀ n ∈ ops.filterMap Op.size?, 1 ≤ n ∧ n ≤ 4000) :
    Sound mutexSize (run mutexSize start ops) ↔ (ops.filterMap Op.size?).dropLast.sum ≤ 0xFFFFF0 := by
  constructor
  · exact fun h => sum_le_of_sound hmutex hsizes h.recognised h.disjoint
  · intro hsum
    have hnear := sum_le_dropLast fun n hn => (hsizes n hn).2
    have hsmall : Small mutexSize (ops.filterMap Op.size?) := ⟨hmutex, by omega⟩
    exact ((Inv.start mutexSize).run hsizes hsmall).sound hsmall hsum

theorem allocations_sound_iff_two :
    Sound 48 (run 48 start [.alloc 0 4000 0x10000, .alloc 1 40 0x20000]) ↔
      [4000, 40].dropLast.sum ≤ 0xFFFFF0 :=
  allocations_sound_iff 48 (by decide) [.alloc 0 4000 0x10000, .alloc 1 40 0x20000] (by decide)

/-- One process fills the handle range to its last byte and another allocates. -/
def filledRange : List Op :=
  List.replicate 4194 (.alloc 0 4000 0x10000) ++ [.alloc 0 1216 0x10000, .alloc 1 40 0x20000]

/-- The first object and the last one get the same handle. -/
theorem filledRange_aliases :
    (run 48 start filledRange).given.head? = some ⟨hybrisShmMask, 4000⟩ ∧
      (run 48 start filledRange).given.getLast? = some ⟨hybrisShmMask, 40⟩ := by
  have hsizes : filledRange.filterMap Op.size? = List.replicate 4194 4000 ++ [1216] ++ [40] := by
    have hsize : Op.size? (.alloc 0 4000 0x10000) = some 4000 := rfl
    rw [filledRange, filterMap_append, filterMap_replicate_of_some hsize, append_assoc]
    rfl
  have hsum : (List.replicate 4194 4000 ++ [1216]).sum = 2 ^ 24 := by
    rw [sum_append, sum_replicate]
    rfl
  have hrange : ∀ n ∈ filledRange.filterMap Op.size?, 1 ≤ n ∧ n ≤ 4000 := by
    rw [hsizes]
    intro n hn
    simp only [mem_append, mem_replicate, mem_singleton] at hn
    omega
  have hinv := (Inv.start 48).run hrange
    ⟨by decide, by rw [nil_append, hsizes, sum_append, hsum]; decide⟩
  rw [nil_append, hsizes] at hinv
  constructor
  · rw [hinv.given]
    rfl
  · rw [hinv.given, tiles_append, hsum, map_append, map_singleton, getLast?_concat]
    rfl

end Shm
