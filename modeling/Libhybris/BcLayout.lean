import Libhybris.BcImage
import Libhybris.Packing
import Mathlib.Data.List.GetD
import Mathlib.Tactic.IntervalCases
import Mathlib.Tactic.Ring

/-!
# The layout of the backing buffer

An image that `hybris_bc_image_describe` accepts has all slices of all its levels inside the
backing buffer, whose size fits `VkDeviceSize`, and its blocks have the size the decoder reads.
-/
namespace Bc

open Vulkan

/-- The slices of a level: its layers, or its depth. -/
def Image.slicesAt (image : Image) (mip : Nat) : Nat :=
  image.layers.toNat * (image.levelExtent mip).depth

/-- The levels from zero to `count` are laid out within the blocks so far. -/
structure LaidOut (image : Image) (count : Nat) : Prop where
  length : image.mipOffset.length = count
  inside : ∀ mip < count,
    image.mipOffset.getD mip 0 + image.slicesAt mip * image.sliceSize mip ≤ image.blockSize
  total : image.blockSize ≤ uint64Max

/-- The bytes of a level. -/
def Image.levelSize (image : Image) (mip : Nat) : Nat := image.slicesAt mip * image.sliceSize mip

/-- The levels so far lie one behind another, and the next one starts where they end. -/
structure Packed (image : Image) (count : Nat) : Prop where
  length : image.mipOffset.length = count
  offset : ∀ mip < count, image.mipOffset.getD mip 0 = ∑ m ∈ Finset.range mip, image.levelSize m
  size : image.blockSize = ∑ m ∈ Finset.range count, image.levelSize m
  total : image.blockSize ≤ uint64Max

variable {image : Image}

theorem Packed.zero (hlevels : image.mipOffset = []) (hsize : image.blockSize = 0) : Packed image 0 where
  length := by rw [hlevels]; rfl
  offset mip h := absurd h (Nat.not_lt_zero mip)
  size := hsize
  total := by rw [hsize]; exact Nat.zero_le _

theorem Packed.laidOut {count : Nat} (h : Packed image count) : LaidOut image count where
  length := h.length
  inside mip hmip := by
    have hle := Finset.sum_le_sum_of_subset (f := image.levelSize) (Finset.range_mono hmip)
    rw [Finset.sum_range_succ, ← h.offset mip hmip, ← h.size] at hle
    exact hle
  total := h.total

/-- Two images that differ in what `layoutLevels` computes only. -/
structure SameShape (image image' : Image) : Prop where
  format : image'.format = image.format
  type : image'.type = image.type
  extent : image'.extent = image.extent
  mipLevels : image'.mipLevels = image.mipLevels
  layers : image'.layers = image.layers
  blockBytes : image'.blockBytes = image.blockBytes

theorem SameShape.trans {a b c : Image} (h : SameShape a b) (h' : SameShape b c) :
    SameShape a c :=
  ⟨h'.format.trans h.format, h'.type.trans h.type, h'.extent.trans h.extent,
    h'.mipLevels.trans h.mipLevels, h'.layers.trans h.layers, h'.blockBytes.trans h.blockBytes⟩

/-- Adding a level behind the others. -/
theorem Packed.push {mip : Nat} (h : Packed image mip)
    (hroom : image.levelSize mip ≤ uint64Max - image.blockSize) :
    Packed { image with
      mipOffset := image.mipOffset ++ [image.blockSize]
      blockSize := image.blockSize + image.levelSize mip } (mip + 1) where
  length := by simp [h.length]
  offset m hm := by
    show (image.mipOffset ++ [image.blockSize]).getD m 0 = ∑ k ∈ Finset.range m, image.levelSize k
    by_cases heq : m = mip
    · subst heq
      rw [List.getD_append_right _ _ _ _ h.length.le, h.length, ← h.size]
      simp
    · have hlt : m < mip := by omega
      rw [List.getD_append _ _ _ _ (h.length ▸ hlt)]
      exact h.offset m hlt
  size := by
    show _ = ∑ k ∈ Finset.range (mip + 1), image.levelSize k
    rw [Finset.sum_range_succ, ← h.size]
  total := by
    have htotal := h.total
    dsimp only
    omega

theorem layoutLevels_spec {image' : Image} {mip left : Nat} (h : Packed image mip)
    (hlayout : layoutLevels image mip left = .ok image') :
    Packed image' (mip + left) ∧ SameShape image image' := by
  induction left generalizing image mip with
  | zero =>
    cases hlayout
    exact ⟨h, rfl, rfl, rfl, rfl, rfl, rfl⟩
  | succ left ih =>
    obtain ⟨-, hlayout⟩ := ite_error_eq_ok.mp hlayout
    obtain ⟨hroom, hlayout⟩ := ite_error_eq_ok.mp hlayout
    have hbytes : blocksOf (image.levelExtent mip).width * blocksOf (image.levelExtent mip).height *
        image.blockBytes * image.layers.toNat * (image.levelExtent mip).depth = image.levelSize mip := by
      unfold Image.levelSize Image.slicesAt Image.sliceSize
      ring
    rw [hbytes] at hroom hlayout
    obtain ⟨hpacked, hshape⟩ := ih (h.push (Nat.not_lt.mp hroom)) hlayout
    refine ⟨by rwa [show mip + (left + 1) = mip + 1 + left by omega], .trans ?_ hshape⟩
    exact ⟨rfl, rfl, rfl, rfl, rfl, rfl⟩

/-- What holds of every accepted image. -/
structure Described (image : Image) : Prop where
  format : bc1RgbUnormBlock ≤ image.format ∧ image.format ≤ bc7SrgbBlock
  blockBytes : image.blockBytes = formatBlockBytes image.format
  volume : image.type = .threeD → image.layers = 1
  flat : image.type ≠ .threeD → image.extent.depth = 1
  laidOut : LaidOut image image.mipLevels.toNat

theorem imageFormat_range {format : Nat} (h : imageFormat format ≠ 0) :
    bc1RgbUnormBlock ≤ format ∧ format ≤ bc7SrgbBlock := by
  unfold imageFormat at h
  unfold bc1RgbUnormBlock bc7SrgbBlock
  split at h <;> omega

theorem describe_spec {info : ImageCreateInfo} (h : describe info = .ok image) :
    Described image ∧ Packed image image.mipLevels.toNat ∧ 0 < image.layers.toNat := by
  obtain ⟨hsupported, h⟩ := ite_error_eq_ok.mp h
  obtain ⟨-, h⟩ := ite_error_eq_ok.mp h
  obtain ⟨-, h⟩ := ite_error_eq_ok.mp h
  obtain ⟨hpacked, hshape⟩ := layoutLevels_spec (Packed.zero rfl rfl) h
  rw [Nat.zero_add, show info.mipLevels = image.mipLevels from hshape.mipLevels.symm] at hpacked
  simp only [unsupported, Bool.or_eq_true, Bool.and_eq_true, decide_eq_true_eq, not_or,
    not_and, and_assoc, ne_eq, not_not] at hsupported
  obtain ⟨hformat, htype, -, -, -, -, -, -, -, -, -, -, hflat, hvolume, -, -, hlayers⟩ := hsupported
  refine ⟨⟨?_, hshape.blockBytes.trans (congrArg formatBlockBytes hshape.format.symm), fun ht => ?_,
    fun ht => ?_, hpacked.laidOut⟩, hpacked, ?_⟩
  · rw [hshape.format]
    exact imageFormat_range hformat
  · rw [hshape.type] at ht
    rw [hshape.layers]
    exact (hvolume ht).1
  · rw [hshape.type] at ht
    rw [hshape.extent]
    exact hflat (not_imp_comm.mp htype ht)
  · rw [hshape.layers]
    exact Nat.pos_of_ne_zero fun hzero => hlayers (UInt32.toNat_inj.mp hzero)

/-- The decoder reads blocks of the size they are laid out with. -/
theorem Described.inputBytes (h : Described image) :
    inputBytes ((family image.format).getD 0) = image.blockBytes := by
  obtain ⟨hlow, hhigh⟩ := h.format
  rw [h.blockBytes]
  generalize image.format = format at *
  unfold bc1RgbUnormBlock at hlow
  unfold bc7SrgbBlock at hhigh
  interval_cases format <;> decide

end Bc
