import Mathlib.Data.Nat.Bitwise
import Mathlib.Tactic.Ring
import Libhybris.LastWriter
import Libhybris.PolygonDraw
import Libhybris.Primitives

/-!
# The line indices of a draw

The compute shader has one invocation for each triangle; it reads the three indices of the triangle
out of packed words and writes its three edges. Every triangle has its own invocation and its own
six words, so the order of the invocations does not matter, and the words are the edges of the
triangles that Vulkan assembles from the indices.
-/
namespace Polygon

open Vulkan Primitives LastWriter List UInt32

/-- The number in `n` bytes, the lowest first. -/
def littleEndian (bytes : Nat → UInt8) (a : Nat) : Nat → Nat
  | 0 => 0
  | n + 1 => (bytes a).toNat + 256 * littleEndian bytes (a + 1) n

/-- The words of a range that begins at byte `base`. -/
def wordsFrom (bytes : Nat → UInt8) (base : Nat) (w : UInt32) : UInt32 :=
  UInt32.ofNat (littleEndian bytes (base + 4 * w.toNat) 4)

section
variable (p : Push)

def Push.byteOf (k : UInt32) : UInt32 := p.byteOffset + k * p.indexSize

/-- `idx`. -/
def Push.idx (src : UInt32 → UInt32) (k : UInt32) : UInt32 :=
  let b := p.byteOf k
  let word := src (b >>> 2)
  if p.indexSize = 4 then word
  else if p.indexSize = 2 then (word >>> ((b &&& 2) * 8)) &&& 0xffff
  else (word >>> ((b &&& 3) * 8)) &&& 0xff

/-- The triangle of an invocation. -/
def Push.number (x y : UInt32) : UInt32 := x + y * p.row

/-- Which indices of the draw are the corners of a triangle. -/
def Push.corners (t : UInt32) : Triangle UInt32 :=
  if p.topology = 0 then (3 * t, 3 * t + 1, 3 * t + 2)
  else if p.topology = 1 then (t, t + 1, t + 2)
  else (0, t + 1, t + 2)

def Push.restartValue : UInt32 :=
  if p.indexSize = 4 then 0xffffffff else if p.indexSize = 2 then 0xffff else 0xff

/-- The vertices of a triangle; one that touches the restart value has no extent. -/
def Push.vertices (src : UInt32 → UInt32) (t : UInt32) : Triangle UInt32 :=
  let (i, j, k) := p.corners t
  let (a, b, c) := (p.idx src i, p.idx src j, p.idx src k)
  if p.restart ≠ 0 then
    let r := p.restartValue
    if a = r ∨ b = r ∨ c = r then (0, 0, 0) else (a, b, c)
  else (a, b, c)

/-- What an invocation of `main` writes, by words. -/
def Push.writes (src : UInt32 → UInt32) (x y : UInt32) : List (UInt32 × UInt32) :=
  let t := p.number x y
  if p.triangles ≤ t then []
  else
    let (a, b, c) := p.vertices src t
    let o := 6 * t
    [(o, a), (o + 1, b), (o + 2, b), (o + 3, c), (o + 4, c), (o + 5, a)]

/-- The words an invocation of `main` reads. -/
def Push.reads (x y : UInt32) : List UInt32 :=
  let t := p.number x y
  if p.triangles ≤ t then []
  else
    let (i, j, k) := p.corners t
    [p.byteOf i >>> 2, p.byteOf j >>> 2, p.byteOf k >>> 2]

end

/-- `gl_GlobalInvocationID` of all invocations, with 64 of them in a work group. -/
def Dispatch.invocations (d : Dispatch) : List (UInt32 × UInt32) :=
  (List.range d.groupsY).flatMap fun y =>
    (List.range d.groupsX).flatMap fun g =>
      (List.range 64).map fun l => (UInt32.ofNat (g * 64 + l), UInt32.ofNat y)

/-- The target after the invocations ran in some order. -/
def Dispatch.result (d : Dispatch) (src : UInt32 → UInt32) (order : List (UInt32 × UInt32))
    (before : UInt32 → Option UInt32) : UInt32 → Option UInt32 :=
  applyAll before (order.map fun i w => (d.push.writes src i.1 i.2).lookup w)

/-! ### What is dispatched -/

/-- A row of numbers for each of `a` rows. -/
theorem flatMap_range_rows (a b : Nat) :
    ((List.range a).flatMap fun i => (List.range b).map fun j => i * b + j) = List.range (a * b) := by
  induction a with
  | zero => simp
  | succ a ih =>
    rw [range_succ, flatMap_append, ih, Nat.succ_mul, range_add, flatMap_cons, flatMap_nil,
      append_nil]

variable {limits : Limits}

theorem workGroups_spec {tris gx gy : Nat} (hfew : tris ≤ uint32Max / 6)
    (h : workGroups limits tris = .ok (gx, gy)) :
    gx ≤ limits.maxGroupsX.toNat ∧ gy ≤ limits.maxGroupsY.toNat ∧ gx ≤ uint32Max / 64 ∧
      tris ≤ gy * (gx * 64) ∧ gy * (gx * 64) ≤ uint32Max := by
  simp only [workGroups, ite_error_eq_ok, Except.ok.injEq, Prod.mk.injEq] at h
  obtain ⟨hok, hgx, hgy⟩ := h
  rw [hgx] at hok hgy
  rw [hgy] at hok
  by_cases hx : limits.maxGroupsX.toNat < (tris + 63) / 64
  · rw [if_pos hx] at hgx hgy
    have hdiv := Nat.div_add_mod ((tris + 63) / 64 + gx - 1) gx
    have hmod := Nat.mod_lt ((tris + 63) / 64 + gx - 1) (show 0 < gx by omega)
    rw [hgy] at hdiv
    have hproduct : gy * (gx * 64) = 64 * (gx * gy) := by ring
    omega
  · rw [if_neg hx] at hgx hgy
    subst hgy
    omega

theorem takeRoom_spec {alignment size : Nat} {chunks chunks' : List Chunk} {range : Range}
    (h : takeRoom alignment size chunks = some (chunks', range)) :
    range.size = size ∧ ∃ c ∈ chunks', c.buffer = range.buffer ∧ range.offset + size ≤ c.size := by
  induction chunks generalizing chunks' with
  | nil => cases h
  | cons c chunks ih =>
    rw [takeRoom] at h
    split at h
    · next hroom =>
      cases h
      simp only [Chunk.hasRoom, Bool.and_eq_true, decide_eq_true_eq] at hroom
      exact ⟨rfl, _, mem_cons_self, rfl, by simp only; omega⟩
    · obtain ⟨⟨rest, range'⟩, hrest, heq⟩ := Option.map_eq_some_iff.mp h
      cases heq
      obtain ⟨hsize, c', hc', hinside⟩ := ih hrest
      exact ⟨hsize, c', mem_cons_of_mem _ hc', hinside⟩

/-- A reserved range lies in a chunk. -/
theorem reserve_spec {chunks chunks' : List Chunk} {size : Nat} {made : Except VkResult Buffer}
    {descriptors : VkResult} {range : Range}
    (h : reserve limits chunks size made descriptors = (chunks', .ok range)) :
    range.size = size ∧ ∃ c ∈ chunks', c.buffer = range.buffer ∧ range.offset + size ≤ c.size := by
  unfold reserve at h
  simp only at h
  split at h
  · next hroom =>
    split at h
    · cases h
      exact takeRoom_spec hroom
    · cases congrArg Prod.snd h
  · cases made with
    | error result => cases congrArg Prod.snd h
    | ok buffer =>
      simp only at h
      split at h
      · cases h
        refine ⟨rfl, _, mem_cons_self, rfl, ?_⟩
        show 0 + size ≤ chunkSize size
        rw [chunkSize]
        omega
      · cases congrArg Prod.snd h

/-- What is known of a draw whose line indices a dispatch writes. -/
structure Converted (limits : Limits) (b : Binding) (count first : UInt32) (shape : Shape)
    (restart : Bool) (d : Dispatch) : Prop where
  positive : 0 < triangles shape count
  few : triangles shape count ≤ uint32Max / 6
  sizes : b.type.size = 1 ∨ b.type.size = 2 ∨ b.type.size = 4
  indexSize : d.push.indexSize.toNat = b.type.size
  number : d.push.triangles.toNat = triangles shape count
  topology : d.push.topology = shape.code
  restarts : d.push.restart ≠ 0 ↔ restart = true
  strips : restart = true → shape = .strip
  row : d.push.row.toNat = d.groupsX * 64
  limitX : d.groupsX ≤ limits.maxGroupsX.toNat
  limitY : d.groupsY ≤ limits.maxGroupsY.toNat
  covered : triangles shape count ≤ d.groupsY * (d.groupsX * 64)
  bounded : d.groupsY * (d.groupsX * 64) ≤ uint32Max
  sourceBuffer : d.source.buffer = b.buffer
  start : d.source.offset + d.push.byteOffset.toNat = b.offset + first.toNat * b.type.size
  fits : d.push.byteOffset.toNat + count.toNat * b.type.size ≤ d.source.size
  wordly : 4 ∣ d.source.size
  small : d.source.size ≤ uint32Max
  target : d.target.size = triangles shape count * 24

/-- The indices of a draw lie in the source range, which is one of whole words. -/
theorem indexSource_spec {b : Binding} {count first : UInt32} {source : Source}
    (h : indexSource limits b count first = some source) :
    (b.type.size = 1 ∨ b.type.size = 2 ∨ b.type.size = 4) ∧ source.indexSize.toNat = b.type.size ∧
      source.range.buffer = b.buffer ∧
      source.range.offset + source.byteOffset.toNat = b.offset + first.toNat * b.type.size ∧
      source.byteOffset.toNat + count.toNat * b.type.size ≤ source.range.size ∧ 4 ∣ source.range.size ∧
      source.range.size ≤ uint32Max := by
  have hsizes : b.type.size = 0 ∨ b.type.size = 1 ∨ b.type.size = 2 ∨ b.type.size = 4 := by
    cases b.type <;> simp [IndexType.size]
  simp only [indexSource, Option.ite_none_left_eq_some, Option.some.injEq, not_or, Nat.not_lt] at h
  obtain ⟨hsize, -, ⟨halign, hoffset⟩, ⟨hrange, hbyte⟩, rfl⟩ := h
  have hmax : uint32Max = 4294967295 := rfl
  have hlimit := limits.maxStorageBufferRange.toNat_lt
  have hfirst := first.toNat_lt
  have hsmall : first.toNat * b.type.size < 2 ^ 34 := by
    rcases hsizes with h | h | h | h <;> rw [h] <;> omega
  -- a sum that wraps is below the offset of the binding
  have hwrap : (b.offset + first.toNat * b.type.size) % 2 ^ 64 = b.offset + first.toNat * b.type.size := by
    omega
  rw [hwrap] at hrange hbyte ⊢
  generalize hstart : b.offset + first.toNat * b.type.size = start at hrange hbyte ⊢
  have hbase := Nat.div_mul_le_self start limits.minStorageBufferOffsetAlignment
  generalize start / limits.minStorageBufferOffsetAlignment *
    limits.minStorageBufferOffsetAlignment = base at hrange hbyte hbase ⊢
  have hbytes : (UInt32.ofNat (start - base)).toNat = start - base := by
    rw [toNat_ofNat']
    omega
  have hindex : (UInt32.ofNat b.type.size).toNat = b.type.size := by
    rw [toNat_ofNat']
    omega
  simp only [hbytes, hindex]
  exact ⟨by omega, trivial, trivial, by omega, by omega, Nat.dvd_mul_left _ _, by omega⟩

theorem edgesCreate_dispatched {env : EdgesEnv} {stores stores' : Stores} {count first : UInt32}
    {shape : Shape} {b : Binding} {source : Source} {restart : Bool} {d : Dispatch}
    (hsource : indexSource limits b count first = some source) (hstrip : restart = true → shape = .strip)
    (h : edgesCreate env limits stores count shape (some source) restart = (stores', .ok (.dispatched d))) :
    Converted limits b count first shape restart d ∧
      ∃ c ∈ stores'.chunks, c.buffer = d.target.buffer ∧ d.target.offset + d.target.size ≤ c.size := by
  obtain ⟨hsizes, hsize, hbuffer, hstart, hfits, hwordly, hsmall⟩ := indexSource_spec hsource
  unfold edgesCreate at h
  simp only at h
  split at h
  · cases congrArg Prod.snd h
  split at h
  · cases congrArg Prod.snd h
  split at h
  · cases congrArg Prod.snd h
  split at h
  · cases congrArg Prod.snd h
  split at h
  · cases congrArg Prod.snd h
  cases hreserve : reserve limits stores.chunks (triangles shape count * 24) env.chunk env.descriptors with
  | mk chunks reserved =>
    rw [hreserve] at h
    cases reserved with
    | error result => cases congrArg Prod.snd h
    | ok target =>
      cases hgroups : workGroups limits (triangles shape count) with
      | error result => simp only [hgroups] at h; cases congrArg Prod.snd h
      | ok groups =>
        simp only [hgroups, Prod.mk.injEq, Except.ok.injEq, Edges.dispatched.injEq] at h
        obtain ⟨rfl, rfl⟩ := h
        have hmax : uint32Max = 4294967295 := rfl
        obtain ⟨hx, hy, hrow, hcovered, hbounded⟩ := workGroups_spec (by omega) hgroups
        obtain ⟨hlength, c, hc, hcbuffer, hinside⟩ := reserve_spec hreserve
        refine ⟨⟨by omega, by omega, hsizes, hsize, ?_, rfl, ?_, hstrip, ?_, hx, hy, hcovered,
          hbounded, hbuffer,
          hstart, hfits, hwordly, hsmall, hlength⟩, c, hc, hcbuffer, by rw [hlength]; exact hinside⟩
        · rw [toNat_ofNat']
          omega
        · cases restart with
          | false => simp
          | true => simp [hstrip rfl]
        · show groups.1 % 2 ^ 32 * 64 % 2 ^ 32 = groups.1 * 64
          omega

variable {patterns : Patterns} {k m n t : Nat}

/-- A draw that becomes a line list written by a dispatch. -/
theorem drawLines_dispatched {env : DrawEnv} {patterns' : Patterns} {c c' : CommandState} {indexed : Bool}
    {count first : UInt32} {vertexOffset : Int32} {shape : Shape} {restart : Bool} {d : Dispatch}
    (h : drawLines env patterns c indexed count first vertexOffset shape restart =
      (c', patterns', .lines (.dispatched d))) :
    ∃ limits b s, c.recording.index = some b ∧ c.recording.written b.buffer = false ∧
      c.recording.prepass env.prepass = .ok s ∧ Converted limits b count first shape restart d ∧
      c'.error = c.error ∧
      c'.recording = { s with
        pre := s.pre.map fun pre => { pre with used := true }
        edges := some d.source.buffer :: s.edges } ∧
      ∃ chunk ∈ c'.storage, chunk.buffer = d.target.buffer ∧
        d.target.offset + d.target.size ≤ chunk.size := by
  rcases drawLines_cases h with ⟨hdrawn, -⟩ | ⟨limits, -, -, hedges⟩ |
      ⟨limits, b, source, s, -, -, hindex, hwritten, hstrip, hsource, hpre, hedges⟩
  · rcases hdrawn with hdrawn | hdrawn <;> cases hdrawn
  · rcases drawEdges_cases hedges with ⟨hdrawn, -⟩ | ⟨stores, edges, hcreate, hresult⟩
    · cases hdrawn
    · obtain ⟨p, rfl⟩ := edgesCreate_none hcreate
      cases congrArg (·.2.2) hresult
  · rcases drawEdges_cases hedges with ⟨hdrawn, -⟩ | ⟨stores, edges, hcreate, hresult⟩
    · cases hdrawn
    · cases hresult
      obtain ⟨hconverted, hchunk⟩ := edgesCreate_dispatched hsource hstrip hcreate
      have hbuffer : source.range.buffer = d.source.buffer :=
        (indexSource_spec hsource).2.2.1.trans hconverted.sourceBuffer.symm
      exact ⟨limits, b, s, hindex, hwritten, hpre, hconverted, rfl,
        by simp only [hbuffer, Option.map_some, Option.isSome_some, if_true], hchunk⟩

/-! ### The invocations -/

variable {b : Binding} {count first : UInt32} {shape : Shape} {restart : Bool} {d : Dispatch}

theorem Dispatch.invocations_eq (d : Dispatch) :
    d.invocations = (List.range d.groupsY).flatMap fun y =>
      (List.range (d.groupsX * 64)).map fun x => (UInt32.ofNat x, UInt32.ofNat y) := by
  refine flatMap_congr fun y _ => ?_
  rw [← flatMap_range_rows, map_flatMap]
  refine flatMap_congr fun g _ => ?_
  rfl

/-- Each number below the size of the grid is that of one invocation. -/
theorem Converted.numbers (h : Converted limits b count first shape restart d) :
    (d.invocations.map fun i => (d.push.number i.1 i.2).toNat) =
      List.range (d.groupsY * (d.groupsX * 64)) := by
  rw [d.invocations_eq, map_flatMap, ← flatMap_range_rows d.groupsY (d.groupsX * 64)]
  refine flatMap_congr fun y hy => ?_
  rw [map_map]
  refine map_congr_left fun x hx => ?_
  have hy' := mem_range.mp hy
  have hx' := mem_range.mp hx
  have hmax : uint32Max = 4294967295 := rfl
  have hbounded := h.bounded
  have hlast : y * (d.groupsX * 64) + d.groupsX * 64 ≤ d.groupsY * (d.groupsX * 64) := by
    rw [← Nat.succ_mul]
    exact Nat.mul_le_mul_right _ hy'
  have hsmall : y ≤ y * (d.groupsX * 64) := Nat.le_mul_of_pos_right y (by omega)
  show (UInt32.ofNat x + UInt32.ofNat y * d.push.row).toNat = _
  rw [UInt32.toNat_add, UInt32.toNat_mul, h.row, toNat_ofNat', toNat_ofNat',
    Nat.mod_eq_of_lt (show y < 2 ^ 32 by omega)]
  omega

/-! ### Packed indices -/

section
variable (bytes : Nat → UInt8)

theorem littleEndian_lt (a n : Nat) : littleEndian bytes a n < 256 ^ n := by
  induction n generalizing a with
  | zero => exact Nat.one_pos
  | succ n ih =>
    have hbyte := (bytes a).toNat_lt
    have hrest := ih (a + 1)
    rw [littleEndian]
    omega

theorem littleEndian_mod (a : Nat) (h : n ≤ m) :
    littleEndian bytes a m % 256 ^ n = littleEndian bytes a n := by
  induction n generalizing a m with
  | zero => rw [Nat.pow_zero, Nat.mod_one, littleEndian]
  | succ n ih =>
    obtain ⟨m, rfl⟩ : ∃ k, m = k + 1 := ⟨m - 1, by omega⟩
    have hbyte := (bytes a).toNat_lt
    have hrest := ih (a + 1) (show n ≤ m by omega)
    have hdiv : ((bytes a).toNat + 256 * littleEndian bytes (a + 1) m) / 256 = littleEndian bytes
      (a + 1) m := by
      omega
    rw [littleEndian, littleEndian, Nat.pow_succ', Nat.mod_mul, hdiv]
    omega

/-- The number in some of the bytes of a number. -/
theorem littleEndian_slice (a : Nat) (h : k + n ≤ m) :
    littleEndian bytes a m / 256 ^ k % 256 ^ n = littleEndian bytes (a + k) n := by
  induction k generalizing a m with
  | zero => rw [Nat.pow_zero, Nat.div_one, littleEndian_mod bytes a (by omega), Nat.add_zero]
  | succ k ih =>
    obtain ⟨m, rfl⟩ : ∃ j, m = j + 1 := ⟨m - 1, by omega⟩
    have hbyte := (bytes a).toNat_lt
    have hrest := ih (a + 1) (show k + n ≤ m by omega)
    rw [littleEndian, Nat.pow_succ', ← Nat.div_div_eq_div_mul,
      show ((bytes a).toNat + 256 * littleEndian bytes (a + 1) m) / 256 = littleEndian bytes
        (a + 1) m by omega,
      hrest, Nat.add_assoc, Nat.add_comm 1 k]

end

/-- The `k`-th index of a draw, as Vulkan reads it. -/
def drawIndex (bytes : Nat → UInt8) (b : Binding) (first : UInt32) (k : Nat) : UInt32 :=
  UInt32.ofNat (littleEndian bytes (b.offset + (first.toNat + k) * b.type.size) b.type.size)

section
variable (h : Converted limits b count first shape restart d) (hk : k < count.toNat)
include h hk

theorem Converted.byteOf :
    (d.push.byteOf (UInt32.ofNat k)).toNat = d.push.byteOffset.toNat + k * b.type.size ∧
      d.push.byteOffset.toNat + k * b.type.size + b.type.size ≤ d.source.size := by
  have hmax : uint32Max = 4294967295 := rfl
  have hfits := h.fits
  have hsmall := h.small
  have hcount := count.toNat_lt
  have hlast : k * b.type.size + b.type.size ≤ count.toNat * b.type.size := by
    rw [← Nat.succ_mul]
    exact Nat.mul_le_mul_right _ hk
  rw [Push.byteOf, UInt32.toNat_add, UInt32.toNat_mul, h.indexSize, toNat_ofNat',
    Nat.mod_eq_of_lt (show k < 2 ^ 32 by omega)]
  omega

/-- The word of an index lies in the source. -/
theorem Converted.word_inside :
    4 * (d.push.byteOf (UInt32.ofNat k) >>> 2).toNat + 4 ≤ d.source.size := by
  obtain ⟨hbyte, hinside⟩ := h.byteOf hk
  obtain ⟨words, hwords⟩ := h.wordly
  have hsizes := h.sizes
  rw [UInt32.toNat_shiftRight, hbyte, Nat.shiftRight_eq_div_pow]
  show 4 * ((d.push.byteOffset.toNat + k * b.type.size) / 4) + 4 ≤ d.source.size
  omega

end

/-- Some bytes of a word, cut out by shift and mask. -/
theorem wordsFrom_shift (bytes : Nat → UInt8) (base n : Nat) (place shift mask : UInt32)
    (hshift : shift.toNat = 8 * (place.toNat % 4)) (hmask : mask.toNat = 256 ^ n - 1)
    (hinside : place.toNat % 4 + n ≤ 4) :
    (wordsFrom bytes base (place >>> 2) >>> shift) &&& mask =
      UInt32.ofNat (littleEndian bytes (base + place.toNat) n) := by
  have hplace : (place >>> 2).toNat = place.toNat / 4 := by
    rw [UInt32.toNat_shiftRight, Nat.shiftRight_eq_div_pow]
    rfl
  have hword := littleEndian_lt bytes (base + 4 * (place.toNat / 4)) 4
  have hvalue := littleEndian_lt bytes (base + place.toNat) n
  have hpow : 256 ^ n = 2 ^ (8 * n) := by rw [Nat.pow_mul]
  have hle : 256 ^ n ≤ 256 ^ 4 := Nat.pow_le_pow_right (by decide) (by omega)
  apply UInt32.toNat_inj.mp
  rw [UInt32.toNat_and, UInt32.toNat_shiftRight, hmask, hpow,
    Nat.and_two_pow_sub_one_eq_mod, ← hpow, hshift,
    Nat.mod_eq_of_lt (show 8 * (place.toNat % 4) < 32 by omega), Nat.shiftRight_eq_div_pow,
    Nat.pow_mul, wordsFrom,
    hplace, toNat_ofNat', toNat_ofNat', Nat.mod_eq_of_lt (show _ < 2 ^ 32 by omega),
    Nat.mod_eq_of_lt (show _ < 2 ^ 32 by omega), show 2 ^ 8 = 256 from rfl,
      littleEndian_slice bytes _ hinside]
  congr 1
  omega

/-- An index is read as Vulkan reads it, if it does not straddle words. -/
theorem Converted.idx_eq (h : Converted limits b count first shape restart d) (bytes : Nat → UInt8)
    (haligned : b.type.size ∣ d.push.byteOffset.toNat) (hk : k < count.toNat) :
    d.push.idx (wordsFrom bytes d.source.offset) (UInt32.ofNat k) = drawIndex bytes b first k := by
  obtain ⟨hbyte, -⟩ := h.byteOf hk
  have hplace : d.source.offset + (d.push.byteOf (UInt32.ofNat k)).toNat =
      b.offset + (first.toNat + k) * b.type.size := by
    rw [hbyte, Nat.add_mul, ← Nat.add_assoc, h.start, Nat.add_assoc]
  have hmultiple : b.type.size ∣ (d.push.byteOf (UInt32.ofNat k)).toNat := by
    rw [hbyte]
    exact Nat.dvd_add haligned (Nat.dvd_mul_left _ _)
  have hsize := h.indexSize
  simp only [Push.idx, drawIndex, ← hplace]
  generalize d.push.byteOf (UInt32.ofNat k) = place at hmultiple ⊢
  have hthree : place.toNat &&& 3 = place.toNat % 4 := Nat.and_two_pow_sub_one_eq_mod _ 2
  rcases h.sizes with hone | htwo | hfour
  · have hfour : d.push.indexSize ≠ 4 := fun heq =>
      by rw [heq, hone] at hsize; exact absurd hsize (by decide)
    have htwo : d.push.indexSize ≠ 2 :=
      fun heq => by rw [heq, hone] at hsize; exact absurd hsize (by decide)
    rw [if_neg hfour, if_neg htwo, hone]
    refine wordsFrom_shift bytes _ 1 place _ _ ?_ rfl (by omega)
    show (place.toNat &&& 3) * 8 % 2 ^ 32 = _
    omega
  · have hfour : d.push.indexSize ≠ 4 := fun heq =>
      by rw [heq, htwo] at hsize; exact absurd hsize (by decide)
    have hindex : d.push.indexSize = 2 := UInt32.toNat_inj.mp (hsize.trans htwo)
    rw [htwo] at hmultiple
    have heven : place.toNat &&& 2 = place.toNat % 4 := by
      rw [show 2 = 2 ^ 1 from rfl, Nat.and_two_pow, Nat.testBit_eq_decide_div_mod_eq]
      by_cases hbit : place.toNat / 2 ^ 1 % 2 = 1
      · rw [decide_eq_true hbit]
        show 2 = _
        omega
      · rw [decide_eq_false hbit]
        show 0 = _
        omega
    rw [if_neg hfour, if_pos hindex, htwo]
    refine wordsFrom_shift bytes _ 2 place _ _ ?_ rfl (by omega)
    show (place.toNat &&& 2) * 8 % 2 ^ 32 = _
    omega
  · have hindex : d.push.indexSize = 4 := UInt32.toNat_inj.mp (hsize.trans hfour)
    rw [hfour] at hmultiple
    rw [if_pos hindex, hfour, wordsFrom, UInt32.toNat_shiftRight, Nat.shiftRight_eq_div_pow]
    show UInt32.ofNat (littleEndian bytes (d.source.offset + 4 * (place.toNat / 4)) 4) = _
    rw [Nat.mul_div_cancel' hmultiple]

/-! ### The triangles -/

/-- Which indices of the draw are the corners of a triangle. -/
def Shape.corners : Shape → Nat → Triangle Nat
  | .list, t => (3 * t, 3 * t + 1, 3 * t + 2)
  | .strip, t => (t, t + 1, t + 2)
  | .fan, t => (0, t + 1, t + 2)

def mapTriangle {α β : Type} (f : α → β) (t : Triangle α) : Triangle β := (f t.1, f t.2.1, f t.2.2)

theorem corners_lt (ht : t < triangles shape count) :
    (shape.corners t).1 < count.toNat ∧ (shape.corners t).2.1 < count.toNat ∧
      (shape.corners t).2.2 < count.toNat := by
  cases shape <;> simp only [triangles, Shape.corners] at ht ⊢ <;>
    [skip; split at ht; split at ht] <;> omega

section
variable (h : Converted limits b count first shape restart d)
include h

theorem Converted.corners_eq (t : Nat) :
    d.push.corners (UInt32.ofNat t) = mapTriangle UInt32.ofNat (shape.corners t) := by
  rw [Push.corners, h.topology]
  cases shape with
  | list => simp [Shape.code, Shape.corners, mapTriangle, ofNat_add, ofNat_mul]
  | strip | fan => simp [Shape.code, Shape.corners, mapTriangle, ofNat_add]

/-- The triangle of an invocation, from the indices that Vulkan reads. -/
def drawTriangle (bytes : Nat → UInt8) (b : Binding) (first : UInt32) (shape : Shape) (t : Nat) :
    Triangle UInt32 :=
  mapTriangle (drawIndex bytes b first) (shape.corners t)

def IndexType.restartValue (type : IndexType) : UInt32 :=
  match type with
  | .uint32 => 0xffffffff
  | .uint16 => 0xffff
  | _ => 0xff

theorem Converted.restartValue_eq : d.push.restartValue = b.type.restartValue := by
  have hsize := h.indexSize
  have hsizes := h.sizes
  cases htype : b.type with
  | other code => rw [htype] at hsizes; exact absurd hsizes (by simp [IndexType.size])
  | uint8 =>
    have hindex : d.push.indexSize = 1 := UInt32.toNat_inj.mp (hsize.trans (by rw [htype]; rfl))
    rw [Push.restartValue, hindex]
    rfl
  | uint16 =>
    have hindex : d.push.indexSize = 2 := UInt32.toNat_inj.mp (hsize.trans (by rw [htype]; rfl))
    rw [Push.restartValue, hindex]
    rfl
  | uint32 =>
    have hindex : d.push.indexSize = 4 := UInt32.toNat_inj.mp (hsize.trans (by rw [htype]; rfl))
    rw [Push.restartValue, hindex]
    rfl

theorem Converted.vertices_eq (bytes : Nat → UInt8)
    (haligned : b.type.size ∣ d.push.byteOffset.toNat) (ht : t < triangles shape count) :
    d.push.vertices (wordsFrom bytes d.source.offset) (UInt32.ofNat t) =
      if restart = true ∧
        touches b.type.restartValue (drawTriangle bytes b first shape t) = true then (0, 0, 0)
      else drawTriangle bytes b first shape t := by
  obtain ⟨hi, hj, hk⟩ := corners_lt ht
  simp only [Push.vertices, h.corners_eq, mapTriangle, h.idx_eq bytes haligned hi,
    h.idx_eq bytes haligned hj,
    h.idx_eq bytes haligned hk, h.restartValue_eq, h.restarts, drawTriangle, touches_iff]
  cases restart with
  | false => simp only [Bool.false_eq_true, if_false, false_and]
  | true => simp only [if_true, true_and]

/-! ### The words written -/

/-- The three edges of a triangle. -/
def lineWords (t : Triangle UInt32) : List UInt32 := [t.1, t.2.1, t.2.1, t.2.2, t.2.2, t.1]

theorem Converted.writes_eq (src : UInt32 → UInt32) (x y : UInt32) :
    d.push.writes src x y =
      if (d.push.number x y).toNat < triangles shape count then
        (List.range 6).map fun j => (UInt32.ofNat (6 * (d.push.number x y).toNat + j),
          (lineWords (d.push.vertices src (d.push.number x y))).getD j 0)
      else [] := by
  rw [Push.writes]
  simp only [le_iff_toNat_le, h.number]
  by_cases ht : (d.push.number x y).toNat < triangles shape count
  · rw [if_neg (by omega), if_pos ht]
    simp [range_succ, lineWords, ofNat_add, ofNat_mul]
  · rw [if_pos (by omega), if_neg ht]

end

theorem lookup_map_of_injOn {ι κ β : Type} [DecidableEq κ] {key : ι → κ} {value : ι → β}
    {l : List ι} {i : ι} (hi : i ∈ l) (hinj : ∀ j ∈ l, key j = key i → j = i) :
    (l.map fun j => (key j, value j)).lookup (key i) = some (value i) := by
  induction l with
  | nil => cases hi
  | cons j l ih =>
    rw [map_cons, lookup_cons]
    by_cases hkey : key i = key j
    · rw [hinj j mem_cons_self hkey.symm]
      simp
    · have hmem : i ∈ l := (mem_cons.mp hi).resolve_left fun heq => hkey (congrArg key heq)
      rw [show (key i == key j) = false by simpa using hkey]
      exact ih hmem fun k hk => hinj k (mem_cons_of_mem _ hk)

section
variable (h : Converted limits b count first shape restart d)
include h

/-- What an invocation writes to a word of a triangle: its own edges to its own words. -/
theorem Converted.lookup_writes (src : UInt32 → UInt32) (x y : UInt32) {j : Nat}
    (ht : t < triangles shape count) (hj : j < 6) :
    (d.push.writes src x y).lookup (UInt32.ofNat (6 * t + j)) =
      if (d.push.number x y).toNat =
        t then some ((lineWords (d.push.vertices src (UInt32.ofNat t))).getD j 0)
      else none := by
  have hmax : uint32Max = 4294967295 := rfl
  have hfew := h.few
  have hword : ∀ {t' j' : Nat}, t' < triangles shape count → j' < 6 →
      UInt32.ofNat (6 * t' + j') = UInt32.ofNat (6 * t + j) → t' = t ∧ j' = j := by
    intro t' j' ht' hj' heq
    have hnat := congrArg UInt32.toNat heq
    rw [toNat_ofNat', toNat_ofNat', Nat.mod_eq_of_lt (show 6 * t' + j' < 2 ^ 32 by omega),
      Nat.mod_eq_of_lt (show 6 * t + j < 2 ^ 32 by omega)] at hnat
    omega
  rw [h.writes_eq]
  by_cases hnumber : (d.push.number x y).toNat = t
  · have hback : d.push.number x y = UInt32.ofNat t := by rw [← hnumber, UInt32.ofNat_toNat]
    rw [if_pos (by omega), if_pos hnumber, hnumber, hback]
    exact lookup_map_of_injOn (mem_range.mpr hj) fun j' hj' heq => (hword ht (mem_range.mp hj') heq).2
  · rw [if_neg hnumber]
    by_cases hlt : (d.push.number x y).toNat < triangles shape count
    · rw [if_pos hlt, lookup_eq_none_iff]
      intro p hp
      obtain ⟨j', hj', rfl⟩ := mem_map.mp hp
      simp only [bne_iff_ne, ne_eq]
      exact fun heq => hnumber (hword hlt (mem_range.mp hj') heq.symm).1
    · rw [if_neg hlt]
      rfl

/-- In any order of the invocations, the words of a triangle are its edges. -/
theorem Converted.result_word (src : UInt32 → UInt32) {order : List (UInt32 × UInt32)}
    (horder : order.Perm d.invocations) (before : UInt32 → Option UInt32) {j : Nat}
    (ht : t < triangles shape count) (hj : j < 6) :
    d.result src order before (UInt32.ofNat (6 * t + j)) =
      some ((lineWords (d.push.vertices src (UInt32.ofNat t))).getD j 0) := by
  have hmem : t ∈ d.invocations.map fun i => (d.push.number i.1 i.2).toNat := by
    rw [h.numbers]
    exact mem_range.mpr (ht.trans_le h.covered)
  obtain ⟨i, hi, hnumber⟩ := mem_map.mp hmem
  rw [Dispatch.result, applyAll_eq]
  refine Option.or_eq_some_iff.mpr (.inl ?_)
  refine last_eq_some ⟨_, mem_map_of_mem (horder.mem_iff.mpr hi), ?_⟩ ?_
  · rw [h.lookup_writes src _ _ ht hj, if_pos hnumber]
  · intro w hw
    obtain ⟨i', -, rfl⟩ := mem_map.mp hw
    simp only [h.lookup_writes src _ _ ht hj]
    split
    · exact .inr rfl
    · exact .inl rfl

/-- The triangles whose edges a dispatch writes. -/
def Dispatch.drawn (d : Dispatch) (src : UInt32 → UInt32) (tris : Nat) : List (Triangle UInt32) :=
  (List.range tris).map fun t => d.push.vertices src (UInt32.ofNat t)

theorem Converted.result_eq (src : UInt32 → UInt32) {order : List (UInt32 × UInt32)}
    (horder : order.Perm d.invocations) (before : UInt32 → Option UInt32) :
    (List.range (triangles shape count * 6)).map (fun w => d.result src order before (UInt32.ofNat w)) =
      ((d.drawn src (triangles shape count)).flatMap lineWords).map some := by
  rw [← flatMap_range_rows, map_flatMap, map_flatMap, Dispatch.drawn, flatMap_map]
  refine flatMap_congr fun t ht => ?_
  have hlist : ∀ x : Triangle UInt32, lineWords x = (List.range 6).map fun j =>
    (lineWords x).getD j 0 := fun _ => rfl
  rw [hlist, map_map, map_map]
  refine map_congr_left fun j hj => ?_
  rw [Nat.mul_comm t 6]
  exact h.result_word src horder before (mem_range.mp ht) (mem_range.mp hj)

end

/-- The triangles Vulkan assembles. -/
def assembled : Shape → (Nat → UInt32) → Nat → List (Triangle UInt32)
  | .list => listTriangles
  | .strip => stripTriangles
  | .fan => fanTriangles

theorem triangles_strip (count : UInt32) : triangles .strip count = count.toNat - 2 := by
  simp only [triangles]
  split <;> omega

theorem triangles_fan (count : UInt32) : triangles .fan count = count.toNat - 2 := by
  simp only [triangles]
  split <;> omega

section
variable (bytes : Nat → UInt8) (b : Binding) (first count : UInt32)

theorem windows_drawIndex :
    windows ((List.range count.toNat).map (drawIndex bytes b first)) =
      (List.range (triangles .strip count)).map (drawTriangle bytes b first .strip) := by
  rw [windows_range, triangles_strip]
  rfl

/-- The triangles of the indices have the edges of those Vulkan assembles. -/
theorem edges_drawTriangle (shape : Shape) :
    (List.range (triangles shape count)).map (fun t => edges (drawTriangle bytes b first shape t)) =
      (assembled shape (drawIndex bytes b first) count.toNat).map edges := by
  cases shape with
  | list =>
    rw [assembled, listTriangles, map_map]
    rfl
  | strip =>
    rw [assembled, edges_stripTriangles, windows_drawIndex, map_map]
    rfl
  | fan =>
    rw [assembled, edges_fanTriangles, triangles_fan]
    rfl

end

theorem edges_strip_of_list (l : List UInt32) :
    (stripTriangles (fun i => l.getD i 0) l.length).map edges = (windows l).map edges := by
  have hlist : (List.range l.length).map (fun i => l.getD i 0) = l := by
    refine ext_getElem (by simp) fun i h₁ h₂ => ?_
    rw [getElem_map, getElem_range, getD_eq_getElem?_getD, getElem?_eq_getElem h₂, Option.getD_some]
  rw [edges_stripTriangles, hlist]

/-- The triangles of the runs between restart values. -/
def restarted (r : UInt32) (indices : List UInt32) : List (Triangle UInt32) :=
  (indices.splitOn r).flatMap fun run => stripTriangles (fun i => run.getD i 0) run.length

theorem edges_restarted (r : UInt32) (indices : List UInt32) :
    (restarted r indices).map edges = ((indices.splitOn r).flatMap windows).map edges := by
  rw [restarted, map_flatMap, map_flatMap]
  exact flatMap_congr fun run _ => edges_strip_of_list run

/-! ### Patterns -/

/-- The patterns after some draws without indices. -/
def patternsAfter (calls : List (Shape × Nat × VkResult)) : Patterns :=
  calls.foldl (fun patterns call => (patternFor patterns call.1 call.2.1 call.2.2).1) fun _ => none

def PatternsSound (patterns : Patterns) : Prop :=
  ∀ shape p, patterns shape = some p → p.words = patternWords shape p.triangles

theorem growPattern_sound (h : PatternsSound patterns) (shape : Shape) (triangles grown : Nat)
    (made : VkResult) :
    PatternsSound (growPattern patterns shape triangles grown made).1 ∧
      ∀ p, (growPattern patterns shape triangles grown made).2 = .ok p →
        triangles ≤ p.triangles ∧ p.words = patternWords shape p.triangles := by
  have hle : triangles ≤ if grown < triangles then triangles else grown := by split <;> omega
  unfold growPattern
  generalize (if grown < triangles then triangles else grown) = count at hle ⊢
  simp only
  split
  · exact ⟨h, fun p hp => nomatch hp⟩
  split
  · exact ⟨h, fun p hp => nomatch hp⟩
  refine ⟨fun shape' p hp => ?_, fun p hp => ?_⟩
  · simp only at hp
    split at hp
    · next heq =>
      subst heq
      cases hp
      rfl
    · exact h shape' p hp
  · cases hp
    exact ⟨hle, rfl⟩

theorem patternFor_sound (h : PatternsSound patterns) (shape : Shape) (triangles : Nat)
    (made : VkResult) : PatternsSound (patternFor patterns shape triangles made).1 ∧
      ∀ p, (patternFor patterns shape triangles made).2 = .ok p →
        triangles ≤ p.triangles ∧ p.words = patternWords shape p.triangles := by
  unfold patternFor
  cases hold : patterns shape with
  | none => exact growPattern_sound h shape triangles 1024 made
  | some old =>
    simp only
    split
    · exact growPattern_sound h shape triangles (old.triangles * 2) made
    · refine ⟨h, fun p hp => ?_⟩
      cases hp
      exact ⟨by omega, h shape old hold⟩

theorem patternsAfter_sound (calls : List (Shape × Nat × VkResult)) :
    PatternsSound (patternsAfter calls) := by
  have hrun : ∀ patterns, PatternsSound patterns →
      PatternsSound
        (calls.foldl (fun patterns call => (patternFor patterns call.1 call.2.1 call.2.2).1) patterns) := by
    induction calls with
    | nil => exact fun _ h => h
    | cons call calls ih => exact fun patterns h => ih _ (patternFor_sound h call.1 call.2.1 call.2.2).1
  exact hrun _ fun _ _ hp => nomatch hp

theorem patternTriangle_eq (shape : Shape) (t : Nat) :
    patternTriangle shape (UInt32.ofNat t) = lineWords (mapTriangle UInt32.ofNat (shape.corners t)) := by
  cases shape <;>
    simp [patternTriangle, lineWords, mapTriangle, Shape.corners, ofNat_add, ofNat_mul, mul_comm]

/-- A longer pattern begins with a shorter one. -/
theorem take_patternWords (shape : Shape) (h : n ≤ m) :
    (patternWords shape m).take (n * 6) = patternWords shape n := by
  have hlength : ∀ n, (patternWords shape n).length = n * 6 := by
    intro n
    induction n with
    | zero => rfl
    | succ n ih =>
      rw [patternWords, range_succ, flatMap_append, length_append, ← patternWords, ih, flatMap_cons,
        patternTriangle_eq]
      show n * 6 + 6 = _
      omega
  obtain ⟨k, rfl⟩ := Nat.exists_eq_add_of_le h
  have happend : ∃ rest, patternWords shape (n + k) = patternWords shape n ++ rest := by
    rw [patternWords, range_add, flatMap_append]
    exact ⟨_, rfl⟩
  obtain ⟨rest, hrest⟩ := happend
  rw [hrest, ← hlength n, take_left]

section
variable (h : Converted limits b count first shape restart d)
include h

/-- With the indices 0, 1, 2, … and no restart value among them the words are those of a pattern. -/
theorem Converted.drawn_identity (bytes : Nat → UInt8) (haligned : b.type.size ∣ d.push.byteOffset.toNat)
    (hidentity : ∀ k < count.toNat, drawIndex bytes b first k = UInt32.ofNat k)
    (hrestart : restart = false ∨ count.toNat ≤ b.type.restartValue.toNat) :
    (d.drawn (wordsFrom bytes d.source.offset) (triangles shape count)).flatMap lineWords =
      patternWords shape (triangles shape count) := by
  rw [Dispatch.drawn, flatMap_map]
  refine flatMap_congr fun t ht => ?_
  obtain ⟨hi, hj, hk⟩ := corners_lt (mem_range.mp ht)
  have htriangle : drawTriangle bytes b first shape t = mapTriangle UInt32.ofNat (shape.corners t) := by
    rw [drawTriangle, mapTriangle, hidentity _ hi, hidentity _ hj, hidentity _ hk]
    rfl
  have hvalue : ∀ k < count.toNat, restart = true → UInt32.ofNat k ≠ b.type.restartValue := by
    intro k hlt hr heq
    have hnat := congrArg UInt32.toNat heq
    rw [toNat_ofNat'] at hnat
    rcases hrestart with hfalse | hle
    · rw [hr] at hfalse
      cases hfalse
    · omega
  have htouch :
    ¬(restart = true ∧
      touches b.type.restartValue (mapTriangle UInt32.ofNat (shape.corners t)) = true) := by
    rintro ⟨hr, htouch⟩
    rcases touches_iff.mp htouch with heq | heq | heq
    · exact hvalue _ hi hr heq
    · exact hvalue _ hj hr heq
    · exact hvalue _ hk hr heq
  rw [h.vertices_eq bytes haligned (mem_range.mp ht), htriangle, if_neg htouch, patternTriangle_eq]

theorem Converted.reads_inside (x y : UInt32) :
    ∀ w ∈ d.push.reads x y, 4 * w.toNat + 4 ≤ d.source.size := by
  rw [Push.reads]
  simp only [le_iff_toNat_le, h.number]
  split
  · exact fun w hw => absurd hw not_mem_nil
  next ht =>
  obtain ⟨hi, hj, hk⟩ := corners_lt (Nat.lt_of_not_le ht)
  have hnumber : d.push.number x y = UInt32.ofNat (d.push.number x y).toNat := UInt32.ofNat_toNat.symm
  rw [hnumber, h.corners_eq]
  intro w hw
  simp only [mapTriangle, mem_cons, not_mem_nil, or_false] at hw
  rcases hw with rfl | rfl | rfl
  · exact h.word_inside hi
  · exact h.word_inside hj
  · exact h.word_inside hk

theorem Converted.writes_inside (src : UInt32 → UInt32) (x y : UInt32) :
    ∀ w ∈ (d.push.writes src x y).map Prod.fst, 4 * w.toNat + 4 ≤ d.target.size := by
  rw [h.writes_eq, h.target]
  split
  · intro w hw
    obtain ⟨p, hp, rfl⟩ := mem_map.mp hw
    obtain ⟨j, hj, rfl⟩ := mem_map.mp hp
    have hj' := mem_range.mp hj
    simp only [toNat_ofNat']
    omega
  · exact fun w hw => absurd hw not_mem_nil

theorem Converted.edges_drawn (bytes : Nat → UInt8)
    (haligned : b.type.size ∣ d.push.byteOffset.toNat) (hrestart : restart = false) :
    (d.drawn (wordsFrom bytes d.source.offset) (triangles shape count)).map edges =
      (assembled shape (drawIndex bytes b first) count.toNat).map edges := by
  rw [← edges_drawTriangle, Dispatch.drawn, map_map]
  refine map_congr_left fun t ht => ?_
  rw [Function.comp, h.vertices_eq bytes haligned (mem_range.mp ht), if_neg (by rw [hrestart]; simp)]

end

theorem Converted.edges_drawn_restart (h : Converted limits b count first .strip true d)
    (bytes : Nat → UInt8) (haligned : b.type.size ∣ d.push.byteOffset.toNat) :
    ((d.drawn (wordsFrom bytes d.source.offset) (triangles .strip count)).map edges).filter
      (fun m => Proper m) =
      ((restarted b.type.restartValue ((List.range count.toNat).map (drawIndex bytes b first))).map
        edges).filter
        fun m => Proper m := by
  rw [edges_restarted, ← proper_restart b.type.restartValue 0, windows_drawIndex, map_map,
    Dispatch.drawn, map_map]
  refine congrArg (List.filter _) (map_congr_left fun t ht => ?_)
  rw [Function.comp, h.vertices_eq bytes haligned (mem_range.mp ht)]
  simp only [true_and, Function.comp]

/-- The dispatch of a draw: it has one invocation for each triangle, reads inside the source range
and writes inside the reserved one, and in every order of the invocations leaves the edges of the
triangles that Vulkan assembles from the draw's indices. With restart the proper triangles are those
of the runs between restart values, and for the indices 0, 1, 2, … the words begin the pattern of
draws without indices, whatever was drawn before. -/
theorem lines_are_edges (env : DrawEnv) (patterns patterns' : Patterns) (c c' : CommandState)
    (count first : UInt32) (vertexOffset : Int32) (shape : Shape) (restart : Bool) (b : Binding)
    (d : Dispatch)
    (bytes : Nat → UInt8) (hindex : c.recording.index = some b)
    (hdraw : drawLines env patterns c true count first vertexOffset shape restart =
      (c', patterns', .lines (.dispatched d)))
    (haligned : b.type.size ∣ d.push.byteOffset.toNat) :
    (∀ t < triangles shape count, d.invocations.countP (fun i => (d.push.number i.1 i.2).toNat = t) = 1) ∧
    (∀ i ∈ d.invocations, (∀ w ∈ d.push.reads i.1 i.2, 4 * w.toNat + 4 ≤ d.source.size) ∧
      ∀ w ∈ (d.push.writes (wordsFrom bytes d.source.offset) i.1 i.2).map Prod.fst,
        4 * w.toNat + 4 ≤ d.target.size) ∧
    (∃ chunk ∈ c'.storage, chunk.buffer = d.target.buffer ∧ d.target.offset + d.target.size ≤ chunk.size) ∧
    (∀ order, order.Perm d.invocations → ∀ before,
      (List.range (triangles shape count * 6)).map
          (fun w => d.result (wordsFrom bytes d.source.offset) order before (UInt32.ofNat w)) =
        ((d.drawn (wordsFrom bytes d.source.offset) (triangles shape count)).flatMap lineWords).map some) ∧
    (restart = false →
      (d.drawn (wordsFrom bytes d.source.offset) (triangles shape count)).map edges =
        (assembled shape (drawIndex bytes b first) count.toNat).map edges) ∧
    (restart = true → shape = .strip ∧
      ((d.drawn (wordsFrom bytes d.source.offset) (triangles shape count)).map edges).filter
        (fun m => Proper m) =
        ((restarted b.type.restartValue
          ((List.range count.toNat).map (drawIndex bytes b first))).map edges).filter
          fun m => Proper m) ∧
    ((∀ k < count.toNat, drawIndex bytes b first k = UInt32.ofNat k) →
      (restart = false ∨ count.toNat ≤ b.type.restartValue.toNat) →
      ∀ calls made p, (patternFor (patternsAfter calls) shape (triangles shape count) made).2 = .ok
        p → (d.drawn (wordsFrom bytes d.source.offset) (triangles shape count)).flatMap lineWords =
          p.words.take (triangles shape count * 6)) := by
  obtain ⟨limits, b', -, hb, -, -, h, -, -, hchunk⟩ := drawLines_dispatched hdraw
  cases hindex.symm.trans hb
  refine ⟨fun t ht => ?_, fun i hi => ⟨fun w hw => ?_, fun w hw => ?_⟩, hchunk,
    fun order horder before => h.result_eq _ horder before, fun hrestart => ?_, fun hrestart =>
    ⟨h.strips hrestart, ?_⟩,
    fun hidentity hvalue calls made p hp => ?_⟩
  · have hcount : (d.invocations.map fun i => (d.push.number i.1 i.2).toNat).count t = 1 := by
      rw [h.numbers]
      exact count_eq_one_of_mem nodup_range (mem_range.mpr (ht.trans_le h.covered))
    rw [List.count, countP_map] at hcount
    rw [← hcount]
    rfl
  · exact h.reads_inside _ _ w hw
  · exact h.writes_inside _ _ _ w hw
  · exact h.edges_drawn bytes haligned hrestart
  · cases hrestart
    cases h.strips rfl
    exact h.edges_drawn_restart bytes haligned
  · obtain ⟨hle, hwords⟩ := (patternFor_sound (patternsAfter_sound calls) shape _ made).2 p hp
    rw [h.drawn_identity bytes haligned hidentity hvalue, hwords, take_patternWords shape hle]

/-- A device where everything succeeds; buffer 9 is made for line indices, command buffer 8 for
prepasses. -/
def sampleEnv : DrawEnv where
  acquire _ := some ⟨.line, .triangleStrip, true, false, false⟩
  setTopology := true
  setRestart := true
  bindIndex2 := true
  limits := some ⟨16, 0x8000000, 65535, 65535⟩
  storageBuffer _ := true
  prepass := .ok 8
  edges := ⟨true, .success, .success, true, .ok 9, .success⟩
  retained := .success

/-- Buffer 3 is bound from byte 4 on, with two bytes an index. -/
def sampleBinding : Binding := ⟨3, 4, none, .uint16⟩

def sampleState : CommandState :=
  ⟨{ Recording.fresh 1 false with graphics := some 5, index := some sampleBinding }, [], .success⟩

theorem lines_are_edges_sample :
    ∃ c' d, drawLines sampleEnv (fun _ => none) sampleState true 7 2 0 .strip true =
        (c', fun _ => none, .lines (.dispatched d)) ∧
      ((d.drawn (wordsFrom (fun a => UInt8.ofNat a) d.source.offset) 5).map edges).filter
        (fun m => Proper m) = ((restarted 0xffff ((List.range 7).map
          (drawIndex (fun a => UInt8.ofNat a) sampleBinding 2))).map edges).filter fun m => Proper m :=
  ⟨_, _, rfl, ((lines_are_edges sampleEnv (fun _ => none) (fun _ => none) sampleState _ 7 2 0 .strip
    true sampleBinding _ (fun a => UInt8.ofNat a) rfl rfl (by decide)).2.2.2.2.2.1 rfl).2⟩

end Polygon
