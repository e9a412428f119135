import Libhybris.BcCoverage

/-!
# The packing of the backing buffer

The levels of an accepted image follow one another, each with its slices, rows and blocks, so
every byte of the backing buffer belongs to one block.
-/
namespace Bc

open Packing

structure Block where
  mip : Nat
  slice : Nat
  row : Nat
  column : Nat

/-- The slices of a level are its depth slices, or the layers of the image. -/
structure Image.Has (image : Image) (b : Block) : Prop where
  mip : b.mip < image.mipLevels.toNat
  slice : b.slice < if image.type = .threeD then (image.levelExtent b.mip).depth else image.layers.toNat
  row : b.row < blocksOf (image.levelExtent b.mip).height
  column : b.column < image.rowBlocks b.mip

def Image.bytes (image : Image) (b : Block) : Set Nat :=
  Set.Ico (image.blockAt b.mip b.slice b.row b.column)
    (image.blockAt b.mip b.slice b.row b.column + image.blockBytes)

/-- What is computed for a level, in the order of the source. -/
def Image.levelTerms (image : Image) (mip : Nat) : List Nat :=
  let extent := image.levelExtent mip
  let blocks := blocksOf extent.width * blocksOf extent.height
  let bytes := blocks * image.blockBytes * image.layers.toNat * extent.depth
  [extent.width + 3, extent.height + 3, blocks, blocks * image.blockBytes,
    blocks * image.blockBytes * image.layers.toNat, bytes, image.mipOffset.getD mip 0 + bytes,
    image.sliceSize mip * extent.depth]

/-- What `block_offset` computes. -/
def Image.blockTerms (image : Image) (b : Block) : List Nat :=
  let stride := image.rowBlocks b.mip * image.blockBytes
  let slice := image.mipOffset.getD b.mip 0 + b.slice * image.sliceSize b.mip
  [stride, b.slice * image.sliceSize b.mip, slice, b.row * stride, slice + b.row * stride,
    b.column * image.blockBytes, slice + b.row * stride + b.column * image.blockBytes]

variable {image : Image} {mip : Nat} {b : Block}

section
variable (h : Described image)
include h

theorem slicesAt_eq (hmip : mip < image.mipLevels.toNat) : image.slicesAt mip =
    if image.type = .threeD then (image.levelExtent mip).depth else image.layers.toNat := by
  unfold Image.slicesAt
  split
  case isTrue htype => rw [h.volume htype, UInt32.toNat_one, Nat.one_mul]
  case isFalse htype =>
    have hdepth : (image.levelExtent mip).depth = 1 := by
      rw [Image.levelExtent, if_neg (Nat.not_le.mpr hmip), h.flat htype]
      exact Nat.le_antisymm (levelSide_le (by decide) (by decide) mip) (levelSide_pos 1 mip)
    rw [hdepth, Nat.mul_one]

theorem levelTerms_le (hlayers : 0 < image.layers.toNat) (hmip : mip < image.mipLevels.toNat) :
    ∀ x ∈ image.levelTerms mip, x ≤ uint64Max := by
  have hinside := (h.laidOut.inside mip hmip).trans h.laidOut.total
  obtain ⟨hwidth, hheight, hdepth⟩ : (image.levelExtent mip).width ≤ 2 ^ 32 ∧
      (image.levelExtent mip).height ≤ 2 ^ 32 ∧ 0 < (image.levelExtent mip).depth := by
    rw [Image.levelExtent, if_neg (Nat.not_le.mpr hmip)]
    exact ⟨levelSide_le (Nat.le_of_lt (UInt32.toNat_lt _)) (by decide) mip,
      levelSide_le (Nat.le_of_lt (UInt32.toNat_lt _)) (by decide) mip, levelSide_pos _ mip⟩
  have hsize : image.slicesAt mip * image.sliceSize mip =
      image.sliceSize mip * image.layers.toNat * (image.levelExtent mip).depth := by
    unfold Image.slicesAt
    ring
  have hblocks : blocksOf (image.levelExtent mip).width * blocksOf (image.levelExtent mip).height ≤
      image.sliceSize mip := Nat.le_mul_of_pos_right _ h.blockBytes_pos
  have hslice := Nat.le_mul_of_pos_right (image.sliceSize mip) hlayers
  have hlayer := Nat.le_mul_of_pos_right (image.sliceSize mip * image.layers.toNat) hdepth
  have hdeep := Nat.mul_le_mul_right (image.levelExtent mip).depth hslice
  have hbytes : blocksOf (image.levelExtent mip).width * blocksOf (image.levelExtent mip).height *
      image.blockBytes = image.sliceSize mip := rfl
  simp only [Image.levelTerms, hbytes, List.forall_mem_cons, List.not_mem_nil, false_imp_iff,
    implies_true, and_true]
  unfold uint64Max at hinside ⊢
  omega

theorem Image.Has.place_lt (hb : image.Has b) {t : Nat} (ht : t < image.blockBytes) :
    (b.row * image.rowBlocks b.mip + b.column) * image.blockBytes + t < image.sliceSize b.mip ∧
      b.slice * image.sliceSize b.mip +
        ((b.row * image.rowBlocks b.mip + b.column) * image.blockBytes + t) < image.levelSize b.mip :=
  Image.place_lt (by rw [slicesAt_eq h hb.mip]; exact hb.slice) hb.row hb.column ht

theorem blockTerms_le (hb : image.Has b) : ∀ x ∈ image.blockTerms b, x ≤ uint64Max := by
  have hinside := (h.laidOut.inside b.mip hb.mip).trans h.laidOut.total
  obtain ⟨hplace, hlevel⟩ := hb.place_lt h h.blockBytes_pos
  have hrow : (b.row * image.rowBlocks b.mip + b.column) * image.blockBytes =
      b.row * (image.rowBlocks b.mip * image.blockBytes) + b.column * image.blockBytes := by ring
  have hstride : image.rowBlocks b.mip * image.blockBytes ≤ image.sliceSize b.mip :=
    Nat.mul_le_mul_right _ (Nat.le_mul_of_pos_right _ (Nat.zero_lt_of_lt hb.row))
  have hslice : image.sliceSize b.mip ≤ image.levelSize b.mip :=
    Nat.le_mul_of_pos_left _ (Nat.pos_of_lt_mul_right (Nat.zero_lt_of_lt hlevel))
  simp only [Image.blockTerms, List.forall_mem_cons, List.not_mem_nil, false_imp_iff, implies_true,
    and_true]
  unfold Image.levelSize at hlevel hslice
  omega

end

/-- A byte of a block is at one place of its slice, that at one place of its level, and that at one
place of the buffer. -/
theorem mem_bytes (h : Packed image image.mipLevels.toNat) (hb : image.Has b) (a : Nat) :
    a ∈ image.bytes b ↔ ∃ t < image.blockBytes, a = ∑ m ∈ Finset.range b.mip, image.levelSize m +
      (b.slice * image.sliceSize b.mip +
        ((b.row * image.rowBlocks b.mip + b.column) * image.blockBytes + t)) := by
  rw [← h.offset b.mip hb.mip, Image.bytes, Set.mem_Ico, Image.blockAt]
  constructor
  · intro ha
    exact ⟨a - (image.mipOffset.getD b.mip 0 + b.slice * image.sliceSize b.mip +
      (b.row * image.rowBlocks b.mip + b.column) * image.blockBytes), by omega, by omega⟩
  · omega

/-- Every byte of the backing buffer of an accepted image belongs to one block, and nothing that is
computed for it wraps. -/
theorem describe_packs (info : ImageCreateInfo) (image : Image) (h : describe info = .ok image) :
    (∀ mip < image.mipLevels.toNat, ∀ x ∈ image.levelTerms mip, x ≤ uint64Max) ∧
      (∀ b, image.Has b → ∀ x ∈ image.blockTerms b, x ≤ uint64Max) ∧
      (∀ b b', image.Has b → image.Has b' → b ≠ b' → Disjoint (image.bytes b) (image.bytes b')) ∧
      ∀ a, a < image.blockSize ↔ ∃ b, image.Has b ∧ a ∈ image.bytes b := by
  obtain ⟨hspec, hpacked, hlayers⟩ := describe_spec h
  refine ⟨fun mip hmip => levelTerms_le hspec hlayers hmip, fun b hb => blockTerms_le hspec hb,
    fun b b' hb hb' hne => ?_, fun a => ⟨fun ha => ?_, ?_⟩⟩
  · refine Set.disjoint_left.mpr fun a ha ha' => hne ?_
    obtain ⟨t, ht, rfl⟩ := (mem_bytes hpacked hb a).mp ha
    obtain ⟨t', ht', heq⟩ := (mem_bytes hpacked hb' _).mp ha'
    obtain ⟨mip, slice, row, column⟩ := b
    obtain ⟨hplace, hlevel⟩ := hb.place_lt hspec ht
    obtain ⟨hplace', hlevel'⟩ := hb'.place_lt hspec ht'
    -- equal places are in one level, slice, block and column
    obtain ⟨rfl, heq⟩ := part_unique _ hlevel hlevel' heq
    obtain ⟨rfl, heq⟩ := row_unique hplace hplace' heq
    obtain ⟨heq, -⟩ := row_unique ht ht' heq
    obtain ⟨rfl, rfl⟩ := row_unique hb.column hb'.column heq
    rfl
  · rw [hpacked.size] at ha
    obtain ⟨mip, hmip, place, hlevel, rfl⟩ := exists_part _ ha
    obtain ⟨slice, hslice, place, hplace, rfl⟩ := exists_row hlevel
    obtain ⟨block, hblock, t, ht, rfl⟩ := exists_row hplace
    rw [Nat.mul_comm] at hblock
    obtain ⟨row, hrow, column, hcolumn, rfl⟩ := exists_row hblock
    rw [slicesAt_eq hspec hmip] at hslice
    have hb : image.Has ⟨mip, slice, row, column⟩ := ⟨hmip, hslice, hrow, hcolumn⟩
    exact ⟨_, hb, (mem_bytes hpacked hb _).mpr ⟨t, ht, rfl⟩⟩
  · rintro ⟨b, hb, ha⟩
    obtain ⟨t, ht, rfl⟩ := (mem_bytes hpacked hb a).mp ha
    rw [hpacked.size]
    exact part_lt _ hb.mip (hb.place_lt hspec ht).2

/-- Two layers with four blocks each and their second level, of one block each. -/
theorem describe_packs_tiny : ∃ image,
    describe { tinyInfo 8 8 with mipLevels := 2, arrayLayers := 2 } = .ok image ∧
      image.blockSize = 80 ∧ ∀ a, a < 80 ↔ ∃ b, image.Has b ∧ a ∈ image.bytes b :=
  ⟨_, rfl, rfl, (describe_packs { tinyInfo 8 8 with mipLevels := 2, arrayLayers := 2 } _ rfl).2.2.2⟩

end Bc
