import Libhybris.BcCoverage
import Libhybris.BlockGrid

/-!
# Copies between buffers and compressed images

`hybris_bc_copy_buffer_image` of `compat/bc_transfer.c`: the copies between the application's buffer
and the backing buffer it records for each region, each slice as a whole when both layouts are
packed and otherwise in commands of up to 64 rows. The decoding that follows a copy to the image is
`operate`, and what is restored at the end is the journal's.
-/
namespace Bc

open BlockGrid List

/-- `VK_REMAINING_ARRAY_LAYERS`. -/
def remainingArrayLayers : Nat := 2 ^ 32 - 1

def Job.normalized (job : Job) : Job :=
  if job.region.layerCount = remainingArrayLayers then
    { job with region := { job.region with
      layerCount := (job.image.layers - UInt32.ofNat job.region.baseArrayLayer).toNat } }
  else job

/-- The bytes of a row of the level. -/
def Job.row (job : Job) : Nat := job.image.rowBlocks job.region.mipLevel * job.image.blockBytes

def Job.bufferRow (job : Job) : Nat :=
  blocksOf (if job.region.bufferRowLength ≠ 0 then job.region.bufferRowLength else job.width) *
    job.image.blockBytes

def Job.bufferHeight (job : Job) : Nat :=
  blocksOf (if job.region.bufferImageHeight ≠ 0 then job.region.bufferImageHeight else job.height)

def Job.rows (job : Job) : Nat := blocksOf job.height

/-- The bytes of a row of the region. -/
def Job.rowBytes (job : Job) : Nat := blocksOf job.width * job.image.blockBytes

def Job.imageStart (job : Job) (layer : Nat) : Nat :=
  (job.image.mipOffset.getD job.region.mipLevel 0 +
    (job.firstSlice + layer) * job.image.sliceSize job.region.mipLevel +
    job.region.imageOffset.y.toUInt32.toNat / 4 * job.row +
    job.region.imageOffset.x.toUInt32.toNat / 4 * job.image.blockBytes) % 2 ^ 64

def Job.bufferStart (job : Job) (layer : Nat) : Nat :=
  (job.region.bufferOffset + layer * job.bufferRow * job.bufferHeight) % 2 ^ 64

/-- A copy between an offset in the buffer and one in the backing buffer. -/
def oriented (toImage : Bool) (buffer image size : Nat) : Copy :=
  if toImage then ⟨buffer % 2 ^ 64, image % 2 ^ 64, size⟩ else ⟨image % 2 ^ 64, buffer % 2 ^ 64, size⟩

/-- The fast path: one command with one copy. -/
def Job.wholeSlice (job : Job) (toImage : Bool) (layer : Nat) : List (List Copy) :=
  [[oriented toImage (job.bufferStart layer) (job.imageStart layer) (job.rowBytes * job.rows % 2 ^ 64)]]

def Job.rowCopy (job : Job) (toImage : Bool) (layer y : Nat) : Copy :=
  oriented toImage (job.bufferStart layer + y * job.bufferRow) (job.imageStart layer + y * job.row)
    job.rowBytes

/-- The commands of up to 64 rows from row `y` on. -/
def Job.batches (job : Job) (toImage : Bool) (layer : Nat) : Nat → Nat → List (List Copy)
  | 0, _ => []
  | fuel + 1, y =>
    if y < job.rows then
      let n := if job.rows - y > 64 then 64 else job.rows - y
      ((List.range n).map fun j => job.rowCopy toImage layer (y + j)) ::
        job.batches toImage layer fuel (y + n)
    else []

def Job.batchedSlice (job : Job) (toImage : Bool) (layer : Nat) : List (List Copy) :=
  job.batches toImage layer job.rows 0

def Job.sliceCommands (job : Job) (toImage : Bool) (layer : Nat) : List (List Copy) :=
  if job.row = job.rowBytes ∧ job.bufferRow = job.rowBytes then job.wholeSlice toImage layer
  else job.batchedSlice toImage layer

/-- The copy commands for one region. -/
def copyRegion (job : Job) (toImage : Bool) : List (List Copy) :=
  (List.range job.normalized.slices).flatMap (job.normalized.sliceCommands toImage)

/-- `hybris_bc_copy_buffer_image` on the regions of a call, with the copy commands it records.
Nothing is recorded after an error, be it one that was set before or that of a region's decoding. -/
def copyBufferImage (image : Image) (toImage : Bool) :
    Recording → List (BufferImageCopy × Env × Nat) → Option (Recording × List (List Copy))
  | s, [] => some (s, [])
  | s, (region, env, fuel) :: rest =>
    if s.error ≠ .success then some (s, [])
    else
      let job : Job := ⟨env, image, region⟩
      match if toImage then operate s (.decodeImage job.normalized fuel) else some s with
      | none => none
      | some s' =>
        (copyBufferImage image toImage s' rest).map fun r => (r.1, copyRegion job toImage ++ r.2)

/-! ## The two layouts -/

def Job.cols (job : Job) : Nat := blocksOf job.width

/-- The first byte of a block of the region in the buffer, as Vulkan addresses it. -/
def Job.bufferBlock (job : Job) (s r c : Nat) : Nat :=
  job.region.bufferOffset + s * (job.bufferRow * job.bufferHeight) + r * job.bufferRow +
    c * job.image.blockBytes

/-- The first byte of a block of the region in the backing buffer. -/
def Job.backingBlock (job : Job) (s r c : Nat) : Nat :=
  job.image.blockAt job.region.mipLevel (job.firstSlice + s)
    (job.region.imageOffset.y.toUInt32.toNat / 4 + r) (job.region.imageOffset.x.toUInt32.toNat / 4 + c)

def Job.bufferLayout (job : Job) : Layout :=
  ⟨job.region.bufferOffset, job.bufferRow * job.bufferHeight, job.bufferRow⟩

def Job.backingLayout (job : Job) : Layout :=
  ⟨job.backingBlock 0 0 0, job.image.sliceSize job.region.mipLevel, job.row⟩

theorem Job.bufferBlock_eq (job : Job) (s r c : Nat) :
    job.bufferBlock s r c = job.bufferLayout.at job.image.blockBytes s r c := rfl

theorem Job.backingBlock_eq (job : Job) (s r c : Nat) :
    job.backingBlock s r c = job.backingLayout.at job.image.blockBytes s r c := by
  simp only [backingBlock, Image.blockAt, Layout.at, backingLayout, Job.row]
  ring

/-- The part of the buffer the region names has addresses, and its pitches are zero or at least the
extent. -/
structure Job.BufferInBounds (job : Job) : Prop where
  rowLength : job.region.bufferRowLength = 0 ∨ job.width ≤ job.region.bufferRowLength
  imageHeight : job.region.bufferImageHeight = 0 ∨ job.height ≤ job.region.bufferImageHeight
  bytes : ∀ s r c, s < job.slices → r < job.rows → c < job.cols →
    job.bufferBlock s r c + job.image.blockBytes ≤ 2 ^ 64

variable {c r s : Nat}

section Region

variable {job : Job}

theorem blocksOf_mono {m n : Nat} (h : m ≤ n) : blocksOf m ≤ blocksOf n :=
  Nat.div_le_div_right (Nat.add_le_add_right h 3)

theorem Job.BufferInBounds.fits (h : job.BufferInBounds) :
    job.bufferLayout.Fits job.image.blockBytes job.rows job.cols where
  row := by
    refine Nat.mul_le_mul_right _ (blocksOf_mono ?_)
    rcases h.rowLength with hzero | hle
    · rw [if_neg (not_not.mpr hzero)]
    · split
      · exact hle
      · exact le_rfl
  slice := by
    have hrows : job.rows ≤ job.bufferHeight := by
      refine blocksOf_mono ?_
      rcases h.imageHeight with hzero | hle
      · rw [if_neg (not_not.mpr hzero)]
      · split
        · exact hle
        · exact le_rfl
    calc job.rows * job.bufferRow ≤ job.bufferHeight * job.bufferRow := Nat.mul_le_mul_right _ hrows
      _ = job.bufferRow * job.bufferHeight := Nat.mul_comm _ _

section
variable (h : job.InBounds)
include h

/-- A region that starts at a block and ends within the level covers blocks of the level. -/
theorem Job.InBounds.right_block (hc : c < job.cols) :
    job.region.imageOffset.x.toUInt32.toNat / 4 + c < job.image.rowBlocks job.region.mipLevel := by
  have hx := toUInt32_toNat h.left
  have hright := h.right
  rw [Job.cols, blocksOf] at hc
  rw [Image.rowBlocks, blocksOf]
  omega

theorem Job.InBounds.bottom_block (hr : r < job.rows) :
    job.region.imageOffset.y.toUInt32.toNat / 4 + r <
      blocksOf (job.image.levelExtent job.region.mipLevel).height := by
  have hy := toUInt32_toNat h.top
  have hbottom := h.bottom
  rw [Job.rows, blocksOf] at hr
  rw [blocksOf]
  omega

theorem Job.InBounds.cols_le : job.cols ≤ job.image.rowBlocks job.region.mipLevel := by
  by_cases hcols : job.cols = 0
  · omega
  · have hlast := h.right_block (c := job.cols - 1) (by omega)
    omega

theorem Job.InBounds.rows_le : job.rows ≤ blocksOf (job.image.levelExtent job.region.mipLevel).height := by
  by_cases hrows : job.rows = 0
  · omega
  · have hlast := h.bottom_block (r := job.rows - 1) (by omega)
    omega

theorem Job.InBounds.fits : job.backingLayout.Fits job.image.blockBytes job.rows job.cols where
  row := Nat.mul_le_mul_right _ h.cols_le
  slice :=
    calc job.rows * job.row
        ≤ blocksOf (job.image.levelExtent job.region.mipLevel).height * job.row :=
          Nat.mul_le_mul_right _ h.rows_le
      _ = job.image.sliceSize job.region.mipLevel := by
          rw [Job.row, Image.sliceSize, Image.rowBlocks]
          ring

theorem Job.InBounds.backingBlock_lt (hs : s < job.slices) (hr : r < job.rows) (hc : c < job.cols) :
    job.backingBlock s r c < 2 ^ 64 :=
  h.described.blockAt_lt h.mip (h.slice_lt hs) (h.bottom_block hr) (h.right_block hc)

theorem Job.InBounds.blockBytes_pos : 0 < job.image.blockBytes := by
  rw [h.described.blockBytes, formatBlockBytes]
  split
  all_goals omega

/-! ## The copies of a slice -/

theorem imageStart_eq (hs : s < job.slices) (hr : 0 < job.rows) (hc : 0 < job.cols) :
    job.imageStart s = job.backingBlock s 0 0 := by
  have hlt := h.backingBlock_lt hs hr hc
  have heq : job.backingBlock s 0 0 = job.image.mipOffset.getD job.region.mipLevel 0 +
      (job.firstSlice + s) * job.image.sliceSize job.region.mipLevel +
      job.region.imageOffset.y.toUInt32.toNat / 4 * job.row +
      job.region.imageOffset.x.toUInt32.toNat / 4 * job.image.blockBytes := by
    simp only [Job.backingBlock, Image.blockAt, Job.row]
    ring
  rw [Job.imageStart, ← heq, Nat.mod_eq_of_lt hlt]

theorem bufferStart_eq (hb : job.BufferInBounds) (hs : s < job.slices) (hr : 0 < job.rows)
    (hc : 0 < job.cols) : job.bufferStart s = job.bufferBlock s 0 0 := by
  have hle := hb.bytes s 0 0 hs hr hc
  have hpos := h.blockBytes_pos
  have heq : job.bufferBlock s 0 0 =
      job.region.bufferOffset + s * job.bufferRow * job.bufferHeight := by
    simp only [Job.bufferBlock]
    ring
  rw [Job.bufferStart, ← heq, Nat.mod_eq_of_lt (by omega)]

/-- Block `c` of row `r` of slice `s`, in the direction of the call. -/
def Job.blockCopy (job : Job) (toImage : Bool) (s r c : Nat) : Copy :=
  if toImage then ⟨job.bufferBlock s r c, job.backingBlock s r c, job.image.blockBytes⟩
  else ⟨job.backingBlock s r c, job.bufferBlock s r c, job.image.blockBytes⟩

/-- A copy of `n` blocks that starts at block zero of row `r`. -/
theorem blocks_oriented (hb : job.BufferInBounds) (toImage : Bool) {n : Nat} (hs : s < job.slices)
    (hr : r < job.rows) (hc : 0 < job.cols) :
    (oriented toImage (job.bufferBlock s r 0) (job.backingBlock s r 0)
        (n * job.image.blockBytes)).blocks job.image.blockBytes =
      (List.range n).map (job.blockCopy toImage s r) := by
  have hlt := h.backingBlock_lt hs hr hc
  have hle := hb.bytes s r 0 hs hr hc
  have hpos := h.blockBytes_pos
  have hbuffer : ∀ k, job.bufferBlock s r 0 + k * job.image.blockBytes = job.bufferBlock s r k := by
    intro k
    rw [Job.bufferBlock_eq, Job.bufferBlock_eq, Layout.at, Layout.at]
    ring
  have hbacking : ∀ k, job.backingBlock s r 0 + k * job.image.blockBytes = job.backingBlock s r k := by
    intro k
    rw [Job.backingBlock_eq, Job.backingBlock_eq, Layout.at, Layout.at]
    ring
  cases toImage with
  | true =>
    simp only [oriented, if_true, Copy.blocks, Nat.mul_div_cancel n hpos, Nat.mod_eq_of_lt hlt,
      Nat.mod_eq_of_lt (show job.bufferBlock s r 0 < 2 ^ 64 by omega), hbuffer, hbacking]
    rfl
  | false =>
    simp only [oriented, Bool.false_eq_true, if_false, Copy.blocks, Nat.mul_div_cancel n hpos,
      Nat.mod_eq_of_lt hlt, Nat.mod_eq_of_lt (show job.bufferBlock s r 0 < 2 ^ 64 by omega), hbuffer,
      hbacking]
    rfl

theorem rowCopy_blocks (hb : job.BufferInBounds) (toImage : Bool) (hs : s < job.slices)
    (hr : r < job.rows) : (job.rowCopy toImage s r).blocks job.image.blockBytes =
      (List.range job.cols).map (job.blockCopy toImage s r) := by
  by_cases hc : job.cols = 0
  · have hsize : job.rowBytes = 0 := by
      rw [Job.rowBytes, show blocksOf job.width = 0 from hc, Nat.zero_mul]
    rw [hc, Job.rowCopy, hsize]
    cases toImage <;> simp [oriented, Copy.blocks]
  · rw [Job.rowCopy, imageStart_eq h hs (by omega) (by omega), bufferStart_eq h hb hs (by omega) (by omega),
      show job.bufferBlock s 0 0 + r * job.bufferRow = job.bufferBlock s r 0 by
        simp only [Job.bufferBlock]; ring,
      show job.backingBlock s 0 0 + r * job.row = job.backingBlock s r 0 by
        simp only [Job.backingBlock, Image.blockAt, Job.row]; ring]
    exact blocks_oriented h hb toImage hs hr (by omega)

end

/-- The commands of up to 64 rows have the remaining rows in order. -/
theorem batches_flatten (job : Job) (toImage : Bool) (layer fuel y : Nat)
    (hfuel : job.rows ≤ y + fuel) : (job.batches toImage layer fuel y).flatten =
      (List.range (job.rows - y)).map fun j => job.rowCopy toImage layer (y + j) := by
  induction fuel generalizing y with
  | zero => rw [Nat.sub_eq_zero_of_le (by omega)]; rfl
  | succ fuel ih =>
    rw [Job.batches]
    by_cases hy : y < job.rows
    · rw [if_pos hy, flatten_cons]
      generalize hn : (if job.rows - y > 64 then 64 else job.rows - y) = n
      have hrange : 0 < n ∧ n ≤ job.rows - y := by
        split at hn
        all_goals omega
      rw [ih (y + n) (by omega), show job.rows - y = n + (job.rows - (y + n)) by omega, range_add,
        map_append, map_map]
      simp only [Function.comp_def, Nat.add_assoc]
    · rw [if_neg hy, Nat.sub_eq_zero_of_le (by omega)]
      rfl

/-- The blocks of a slice, row by row. -/
def Job.sliceBlocks (job : Job) (toImage : Bool) (s : Nat) : List Copy :=
  (List.range job.rows).flatMap fun r => (List.range job.cols).map (job.blockCopy toImage s r)

theorem batchedSlice_blocks (h : job.InBounds) (hb : job.BufferInBounds) (toImage : Bool)
    (hs : s < job.slices) :
    (job.batchedSlice toImage s).flatten.flatMap (Copy.blocks job.image.blockBytes) =
      job.sliceBlocks toImage s := by
  rw [Job.batchedSlice, batches_flatten job toImage s job.rows 0 (by omega), flatMap_map,
    Job.sliceBlocks]
  refine flatMap_congr fun r hr => ?_
  rw [Nat.zero_add]
  exact rowCopy_blocks h hb toImage hs (mem_range.mp hr)

theorem range_mul_map {α : Type} (f : Nat → α) (m n : Nat) :
    (List.range (m * n)).map f =
      (List.range m).flatMap fun i => (List.range n).map fun j => f (i * n + j) := by
  induction m with
  | zero => rw [Nat.zero_mul]; rfl
  | succ m ih =>
    rw [Nat.succ_mul, range_add, map_append, ih, range_succ, flatMap_append,
      map_map]
    simp [Function.comp_def]

theorem Job.InBounds.slice_bytes_lt (h : job.InBounds) (hs : s < job.slices) :
    job.rowBytes * job.rows < 2 ^ 64 := by
  have hinside := h.described.laidOut.inside _ h.mip
  have htotal := h.described.laidOut.total
  have hslice := h.slice_lt hs
  have hone : 1 * job.image.sliceSize job.region.mipLevel ≤
      job.image.slicesAt job.region.mipLevel * job.image.sliceSize job.region.mipLevel :=
    Nat.mul_le_mul_right _ (by omega)
  have hrows : job.rowBytes * job.rows ≤ job.image.sliceSize job.region.mipLevel :=
    calc job.rowBytes * job.rows ≤ job.row * job.rows := Nat.mul_le_mul_right _ h.fits.row
      _ = job.rows * job.row := Nat.mul_comm _ _
      _ ≤ _ := h.fits.slice
  unfold uint64Max at htotal
  omega

section
variable (h : job.InBounds) (hb : job.BufferInBounds) (toImage : Bool) (hs : s < job.slices)
include h hb hs

theorem wholeSlice_blocks (hrow : job.row = job.rowBytes) (hbuffer : job.bufferRow = job.rowBytes) :
    (job.wholeSlice toImage s).flatten.flatMap (Copy.blocks job.image.blockBytes) =
      job.sliceBlocks toImage s := by
  have hbytes : job.rowBytes * job.rows = job.rows * job.cols * job.image.blockBytes := by
    rw [Job.rowBytes, Job.cols]
    ring
  have hstep : ∀ r c, job.blockCopy toImage s 0 (r * job.cols + c) = job.blockCopy toImage s r c := by
    intro r c
    have hbufferBlock : job.bufferBlock s 0 (r * job.cols + c) = job.bufferBlock s r c := by
      rw [Job.bufferBlock, Job.bufferBlock, hbuffer, Job.rowBytes, Job.cols]
      ring
    have hbackingBlock : job.backingBlock s 0 (r * job.cols + c) = job.backingBlock s r c := by
      rw [Job.backingBlock_eq, Job.backingBlock_eq, Layout.at, Layout.at,
        show job.backingLayout.row = job.rowBytes from hrow, Job.rowBytes, Job.cols]
      ring
    rw [Job.blockCopy, Job.blockCopy, hbufferBlock, hbackingBlock]
  have hsingle : (job.wholeSlice toImage s).flatten.flatMap (Copy.blocks job.image.blockBytes) =
      (oriented toImage (job.bufferStart s) (job.imageStart s)
        (job.rowBytes * job.rows % 2 ^ 64)).blocks job.image.blockBytes := by
    rw [Job.wholeSlice, flatten_singleton, flatMap_singleton]
  rw [hsingle, Nat.mod_eq_of_lt (h.slice_bytes_lt hs), hbytes, Job.sliceBlocks]
  by_cases hempty : job.rows = 0 ∨ job.cols = 0
  · rcases hempty with hrows | hcols
    · rw [hrows]
      cases toImage <;> simp [oriented, Copy.blocks]
    · rw [hcols]
      cases toImage <;> simp [oriented, Copy.blocks]
  · rw [imageStart_eq h hs (by omega) (by omega), bufferStart_eq h hb hs (by omega) (by omega),
      blocks_oriented h hb toImage hs (by omega) (by omega), range_mul_map]
    simp only [hstep]

theorem sliceCommands_blocks :
    (job.sliceCommands toImage s).flatten.flatMap (Copy.blocks job.image.blockBytes) =
      job.sliceBlocks toImage s := by
  rw [Job.sliceCommands]
  split
  case isTrue hpacked => exact wholeSlice_blocks h hb toImage hs hpacked.1 hpacked.2
  case isFalse => exact batchedSlice_blocks h hb toImage hs

end

/-- Every copy is of whole blocks. -/
theorem sliceCommands_size (h : job.InBounds) (toImage : Bool) (hs : s < job.slices) :
    ∀ c ∈ (job.sliceCommands toImage s).flatten, job.image.blockBytes ∣ c.size := by
  have hrow : job.image.blockBytes ∣ job.rowBytes := Nat.dvd_mul_left _ _
  have hsize : ∀ buffer image size, (oriented toImage buffer image size).size = size := by
    intro buffer image size
    cases toImage <;> rfl
  intro c hc
  rw [Job.sliceCommands] at hc
  split at hc
  case isTrue =>
    rw [Job.wholeSlice, flatten_singleton, mem_singleton] at hc
    rw [hc, hsize, Nat.mod_eq_of_lt (h.slice_bytes_lt hs)]
    exact Dvd.dvd.mul_right hrow _
  case isFalse =>
    rw [Job.batchedSlice, batches_flatten job toImage s job.rows 0 (by omega)] at hc
    obtain ⟨y, -, rfl⟩ := mem_map.mp hc
    rw [Job.rowCopy, hsize]
    exact hrow

end Region

/-! ## The copies of a region -/

/-- The copies of a region, block by block. -/
def blockCopies (job : Job) (toImage : Bool) : List Copy :=
  (copyRegion job toImage).flatten.flatMap (Copy.blocks job.image.blockBytes)

theorem copyRegion_flatten (job : Job) (toImage : Bool) :
    (copyRegion job toImage).flatten = (List.range job.normalized.slices).flatMap fun s =>
      (job.normalized.sliceCommands toImage s).flatten := by
  rw [copyRegion, ← flatMap_id, flatMap_assoc]
  simp only [flatMap_id]

theorem normalized_image (job : Job) : job.normalized.image = job.image := by
  rw [Job.normalized]
  split
  all_goals rfl

section Whole

variable {job : Job}

section
variable (h : job.normalized.InBounds)
include h

section
variable (hb : job.normalized.BufferInBounds)
include hb

theorem blockCopies_eq (toImage : Bool) :
    blockCopies job toImage =
      (grid job.normalized.slices job.normalized.rows job.normalized.cols).map fun p =>
        job.normalized.blockCopy toImage p.1 p.2.1 p.2.2 := by
  rw [blockCopies, copyRegion_flatten, ← normalized_image job, grid, map_flatMap,
    flatMap_assoc]
  refine flatMap_congr fun s hs => ?_
  rw [sliceCommands_blocks h hb toImage (mem_range.mp hs), Job.sliceBlocks, map_flatMap]
  simp only [map_map, Function.comp_def]

theorem blockCopies_true :
    blockCopies job true = gridCopies job.normalized.bufferLayout job.normalized.backingLayout
      job.image.blockBytes job.normalized.slices job.normalized.rows job.normalized.cols := by
  rw [blockCopies_eq h hb, ← normalized_image job]
  refine map_congr_left fun p _ => ?_
  rw [Job.blockCopy, if_pos rfl, Job.backingBlock_eq, Job.bufferBlock_eq]

theorem blockCopies_false :
    blockCopies job false = (blockCopies job true).map Copy.swap := by
  rw [blockCopies_eq h hb, blockCopies_eq h hb, map_map]
  rfl

end

theorem copyAll_blockCopies (toImage : Bool) (m m' : ByteMemory.Memory) :
    copyAll m m' (copyRegion job toImage).flatten = copyAll m m' (blockCopies job toImage) := by
  refine (copyAll_flatMap_blocks fun c hc => ?_).symm
  rw [copyRegion_flatten] at hc
  obtain ⟨s, hs, hc⟩ := mem_flatMap.mp hc
  rw [← normalized_image job]
  exact sliceCommands_size h toImage (mem_range.mp hs) c hc

/-- A byte of none of the region's blocks, which start at `block`. -/
def Job.Outside (job : Job) (block : Nat → Nat → Nat → Nat) (a : Nat) : Prop :=
  ∀ s < job.slices, ∀ r < job.rows, ∀ c < job.cols,
    a < block s r c ∨ block s r c + job.image.blockBytes ≤ a

/-- A call for one region. -/
def Job.copyCall (job : Job) (toImage : Bool) (s : Recording) (fuel : Nat) :
    Option (Recording × List (List Copy)) :=
  copyBufferImage job.image toImage s [(job.region, job.env, fuel)]

/-- The copies of a region move its blocks, each once and nothing else, and back. A call records
them unless an error is set. -/
structure CopyExact (job : Job) : Prop where
  blocks : ∀ toImage, blockCopies job toImage =
    (grid job.normalized.slices job.normalized.rows job.normalized.cols).map fun p =>
      job.normalized.blockCopy toImage p.1 p.2.1 p.2.2
  apart : ∀ toImage, (blockCopies job toImage).Pairwise fun c d =>
    (c.dst + c.size ≤ d.dst ∨ d.dst + d.size ≤ c.dst) ∧
      (c.src + c.size ≤ d.src ∨ d.src + d.size ≤ c.src)
  paths : ∀ toImage, ∀ s < job.normalized.slices, job.normalized.row = job.normalized.rowBytes →
    job.normalized.bufferRow = job.normalized.rowBytes →
      (job.normalized.wholeSlice toImage s).flatten.flatMap (Copy.blocks job.image.blockBytes) =
        (job.normalized.batchedSlice toImage s).flatten.flatMap (Copy.blocks job.image.blockBytes)
  arrive : ∀ buffer image : ByteMemory.Memory, ∀ s < job.normalized.slices,
    ∀ r < job.normalized.rows, ∀ c < job.normalized.cols, ∀ i < job.image.blockBytes,
      copyAll buffer image (copyRegion job true).flatten (job.normalized.backingBlock s r c + i) =
        buffer (job.normalized.bufferBlock s r c + i)
  recorded : ∀ toImage s fuel s' copies, s.error = .success →
    job.copyCall toImage s fuel = some (s', copies) → copies = copyRegion job toImage
  refused : ∀ toImage s fuel, s.error ≠ .success → job.copyCall toImage s fuel = some (s, [])
  restore : ∀ s fuel s' copies, s.error = .success → job.copyCall true s fuel = some (s', copies) →
    s'.error = .success → ∃ copies', job.copyCall false s' fuel = some (s', copies') ∧
      ∀ buffer image buffer' : ByteMemory.Memory, ∀ s < job.normalized.slices,
        ∀ r < job.normalized.rows, ∀ c < job.normalized.cols, ∀ i < job.image.blockBytes,
          copyAll (copyAll buffer image copies.flatten) buffer' copies'.flatten
              (job.normalized.bufferBlock s r c + i) =
            buffer (job.normalized.bufferBlock s r c + i)
  imageKept : ∀ buffer image : ByteMemory.Memory, ∀ a,
    job.normalized.Outside job.normalized.backingBlock a →
      copyAll buffer image (copyRegion job true).flatten a = image a
  bufferKept : ∀ image buffer : ByteMemory.Memory, ∀ a,
    job.normalized.Outside job.normalized.bufferBlock a →
      copyAll image buffer (copyRegion job false).flatten a = buffer a

section
variable (hb : job.normalized.BufferInBounds) (toImage : Bool)
include hb

theorem mem_blockCopies
    (hs : s < job.normalized.slices) (hr : r < job.normalized.rows) (hc : c < job.normalized.cols) :
    job.normalized.blockCopy toImage s r c ∈ blockCopies job toImage := by
  rw [blockCopies_eq h hb]
  exact mem_map.mpr ⟨(s, r, c), mem_grid.mpr ⟨hs, hr, hc⟩, rfl⟩

theorem blockCopies_apart :
    (blockCopies job toImage).Pairwise fun c d =>
      (c.dst + c.size ≤ d.dst ∨ d.dst + d.size ≤ c.dst) ∧
        (c.src + c.size ≤ d.src ∨ d.src + d.size ≤ c.src) := by
  have hto : (blockCopies job true).Pairwise fun c d =>
      (c.dst + c.size ≤ d.dst ∨ d.dst + d.size ≤ c.dst) ∧
        (c.src + c.size ≤ d.src ∨ d.src + d.size ≤ c.src) := by
    rw [blockCopies_true h hb, ← normalized_image job]
    exact pairwise_and_iff.mpr ⟨gridCopies_dst h.fits, gridCopies_src hb.fits⟩
  cases toImage with
  | true => exact hto
  | false =>
    rw [blockCopies_false h hb]
    exact pairwise_map.mpr (hto.imp And.symm)

theorem copies_kept (m m' : ByteMemory.Memory)
    {a : Nat} (ha : job.normalized.Outside
      (if toImage then job.normalized.backingBlock else job.normalized.bufferBlock) a) :
    copyAll m m' (copyRegion job toImage).flatten a = m' a := by
  rw [copyAll_blockCopies h, blockCopies_eq h hb]
  refine copyAll_outside fun c hc => ?_
  obtain ⟨⟨s, r, c⟩, hp, rfl⟩ := mem_map.mp hc
  obtain ⟨hs, hr, hc⟩ := mem_grid.mp hp
  have hout := ha s hs r hr c hc
  cases toImage with
  | true => exact hout
  | false => exact hout

end

end

theorem copy_recorded {toImage : Bool} {s s' : Recording} {fuel : Nat} {copies : List (List Copy)}
    (hok : s.error = .success) (hcopy : job.copyCall toImage s fuel = some (s', copies)) :
    copies = copyRegion job toImage := by
  simp only [Job.copyCall, copyBufferImage, hok, ne_eq, not_true, if_false] at hcopy
  split at hcopy
  · cases hcopy
  · cases hcopy
    rw [append_nil]

/-- For every region in bounds of an image `describe` accepts. -/
theorem copyBufferImage_exact (job : Job) (h : job.normalized.InBounds)
    (hb : job.normalized.BufferInBounds) : CopyExact job where
  blocks := blockCopies_eq h hb
  apart := blockCopies_apart h hb
  paths toImage s hs hrow hbuffer := by
    rw [← normalized_image job, wholeSlice_blocks h hb toImage hs hrow hbuffer,
      batchedSlice_blocks h hb toImage hs]
  arrive buffer image s hs r hr c hc i hi := by
    rw [copyAll_blockCopies h]
    rw [← normalized_image job] at hi
    exact copyAll_inside ((blockCopies_apart h hb true).imp And.left)
      (mem_blockCopies h hb true hs hr hc) hi
  recorded _ _ _ _ _ := copy_recorded
  refused _ _ _ herror := if_pos herror
  restore s fuel s' copies hok hcopy hok' := by
    obtain rfl := copy_recorded hok hcopy
    refine ⟨copyRegion job false ++ [], by
      simp [Job.copyCall, copyBufferImage, hok'], fun buffer image buffer' s hs r hr c hc i hi => ?_⟩
    rw [append_nil, copyAll_blockCopies h, copyAll_blockCopies h, blockCopies_false h hb]
    rw [← normalized_image job] at hi
    exact copyAll_swap ((blockCopies_apart h hb true).imp And.left)
      ((blockCopies_apart h hb true).imp And.right) (mem_blockCopies h hb true hs hr hc) hi
  imageKept buffer image a ha := copies_kept h hb true buffer image ha
  bufferKept image buffer a ha := copies_kept h hb false image buffer ha

end Whole

/-- All layers of an image, from a buffer with rows of three blocks. -/
def paddedJob : Job :=
  ⟨tinyEnv 9 9, tinyImage, ⟨16, 12, 0, 0, 0, remainingArrayLayers, ⟨0, 0, 0⟩, ⟨8, 4, 1⟩⟩⟩

theorem copyBufferImage_exact_padded : paddedJob.normalized.InBounds ∧
    paddedJob.normalized.BufferInBounds ∧
    (∃ s copies, paddedJob.copyCall true .start 8 = some (s, copies) ∧ s.error = .success) ∧
      CopyExact paddedJob := by
  have hbounds : paddedJob.normalized.InBounds :=
    ⟨⟨tinyInfo 8 4, { tinyImage with decodedFormat := 0 }, rfl, rfl⟩, by decide, by decide,
      by decide, by decide, by decide, by decide, by decide, by decide, by decide⟩
  have hbuffer : paddedJob.normalized.BufferInBounds := by
    refine ⟨by decide, by decide, fun s r c hs hr hc => ?_⟩
    have hs : s < 1 := hs
    have hr : r < 1 := hr
    have hc : c < 2 := hc
    interval_cases s
    interval_cases r
    interval_cases c
    all_goals decide
  exact ⟨hbounds, hbuffer, ⟨_, _, rfl, rfl⟩, copyBufferImage_exact paddedJob hbounds hbuffer⟩

/-- The same copy, with no descriptor set for the second block. -/
def undecodedJob : Job := { paddedJob with env := tinyEnv 9 2 }

/-- The copy to the image fails in its decoding, and the copy back records nothing. -/
theorem undecoded_not_restored : ∃ s copies,
    undecodedJob.copyCall true .start 8 = some (s, copies) ∧
      copies = copyRegion undecodedJob true ∧ s.error = .errorOutOfDeviceMemory ∧
      undecodedJob.copyCall false s 8 = some (s, []) :=
  ⟨_, _, rfl, rfl, rfl, rfl⟩

end Bc
