import Libhybris.Vulkan
import Mathlib.Data.Nat.Log
import Mathlib.Data.List.Basic
import Mathlib.Algebra.Group.Nat.Defs

/-!
# Block-compressed images and their decoder

`compat/bc_image.c`: which images are emulated and how their compressed blocks are laid out in
the backing buffer, and `compat/bc_decode.c`: the checks and push constants of one dispatch.
Formats are their Vulkan numbers, which the source compares and subtracts. The driver objects
of an image, its requirements and the selection of a pipeline are left out.
-/
namespace Bc

open Vulkan

structure Extent3D where
  width : UInt32
  height : UInt32
  depth : UInt32
deriving DecidableEq, Repr

inductive ImageType where
  | oneD
  | twoD
  | threeD
deriving DecidableEq, Repr

def bc1RgbUnormBlock : Nat := 131

def bc1RgbSrgbBlock : Nat := 132

def bc1RgbaSrgbBlock : Nat := 134

def bc4UnormBlock : Nat := 139

def bc4SnormBlock : Nat := 140

def bc5SnormBlock : Nat := 142

def bc6hSfloatBlock : Nat := 144

def bc7SrgbBlock : Nat := 146

/-- `hybris_bc_image_format`, `VK_FORMAT_UNDEFINED` being zero. -/
def imageFormat (format : Nat) : Nat :=
  match format with
  | 131 | 133 | 135 | 137 | 145 => 37
  | 132 | 134 | 136 | 138 | 146 => 43
  | 139 => 9
  | 140 => 10
  | 141 => 16
  | 142 => 17
  | 143 | 144 => 97
  | _ => 0

def mutableFormat (format : Nat) : Bool := bc1RgbUnormBlock ≤ format && format ≤ bc7SrgbBlock

/-- `VK_IMAGE_CREATE_MUTABLE_FORMAT_BIT`. -/
def mutableFormatBit : Nat := 0x8

def viewFormatAllowed (base view flags : Nat) : Bool :=
  base = view || (flags &&& mutableFormatBit ≠ 0 && mutableFormat base && mutableFormat view &&
    (base - bc1RgbUnormBlock) / 2 = (view - bc1RgbUnormBlock) / 2)

/-- The structures a create info may be followed by. -/
inductive Chained where
  | formatList (viewFormats : List Nat)
  | externalMemory (handleTypes : Nat)
  | swapchain (swapchain : Nat)
  | other
deriving DecidableEq, Repr

structure ImageCreateInfo where
  chain : List Chained
  flags : Nat
  imageType : ImageType
  format : Nat
  extent : Extent3D
  mipLevels : UInt32
  arrayLayers : UInt32
  samples : Nat
  optimalTiling : Bool
  usage : Nat
  initialLayout : Nat

/-- Cube compatible, mutable format, multisampled render to single sampled, 2D array
compatible and 2D view compatible. -/
def allowedFlags : Nat := 0x10 ||| 0x8 ||| 0x40000 ||| 0x20 ||| 0x20000

/-- Sampled, transfer source and transfer destination. -/
def allowedUsage : Nat := 0x4 ||| 0x1 ||| 0x2

def cubeCompatibleBit : Nat := 0x10

/-- The first test of `hybris_bc_image_describe`. -/
def unsupported (info : ImageCreateInfo) : Bool :=
  imageFormat info.format = 0 ||
  (info.imageType ≠ .twoD && info.imageType ≠ .threeD) ||
  !info.optimalTiling || info.samples ≠ 1 ||
  (info.initialLayout ≠ 0 && info.initialLayout ≠ 8) ||
  info.flags ||| allowedFlags ≠ allowedFlags ||
  (info.flags &&& mutableFormatBit ≠ 0 && !mutableFormat info.format) ||
  info.usage = 0 || info.usage ||| allowedUsage ≠ allowedUsage ||
  info.extent.width = 0 || info.extent.height = 0 || info.extent.depth = 0 ||
  (info.imageType = .twoD && info.extent.depth ≠ 1) ||
  (info.imageType = .threeD &&
    (info.arrayLayers ≠ 1 || info.flags &&& cubeCompatibleBit ≠ 0)) ||
  info.mipLevels = 0 || 32 < info.mipLevels || info.arrayLayers = 0

def chainedOk (info : ImageCreateInfo) : Chained → Bool
  | .formatList viewFormats => viewFormats.all (fun view =>
      viewFormatAllowed info.format view info.flags)
  | .externalMemory handleTypes => handleTypes = 0
  | .swapchain swapchain => swapchain = 0
  | .other => false

/-- The number of levels of a full mip chain. -/
def fullLevels (extent : Extent3D) : Nat :=
  Nat.log2 (max (max extent.width.toNat extent.height.toNat) extent.depth.toNat) + 1

structure Image where
  format : Nat
  decodedFormat : Nat
  type : ImageType
  extent : Extent3D
  mipLevels : UInt32
  layers : UInt32
  blockBytes : Nat
  mipOffset : List Nat
  blockSize : Nat

/-- One side of a mip level. -/
def levelSide (side : UInt32) (mip : Nat) : Nat :=
  if side.toNat >>> mip = 0 then 1 else side.toNat >>> mip

structure Size3D where
  width : Nat
  height : Nat
  depth : Nat
deriving DecidableEq, Repr

/-- `hybris_bc_image_extent`. -/
def Image.levelExtent (image : Image) (mip : Nat) : Size3D :=
  if image.mipLevels.toNat ≤ mip then ⟨0, 0, 0⟩
  else ⟨levelSide image.extent.width mip, levelSide image.extent.height mip,
    levelSide image.extent.depth mip⟩

/-- The number of blocks that cover `n` texels. -/
def blocksOf (n : Nat) : Nat := (n + 3) / 4

def Image.rowBlocks (image : Image) (mip : Nat) : Nat := blocksOf (image.levelExtent mip).width

def Image.sliceSize (image : Image) (mip : Nat) : Nat :=
  blocksOf (image.levelExtent mip).width * blocksOf (image.levelExtent mip).height *
    image.blockBytes

def formatBlockBytes (format : Nat) : Nat :=
  if format ≤ bc1RgbaSrgbBlock ∨ format = bc4UnormBlock ∨ format = bc4SnormBlock then 8 else 16

def uint64Max : Nat := 2 ^ 64 - 1

/-- The loop that lays out the mip levels, from `mip` on with `left` of them to go. -/
def layoutLevels (image : Image) : Nat → Nat → Except VkResult Image
  | _, 0 => .ok image
  | mip, left + 1 =>
    let extent := image.levelExtent mip
    let blocks := blocksOf extent.width * blocksOf extent.height
    if uint64Max / image.blockBytes / image.layers.toNat / extent.depth < blocks then
      .error .errorOutOfDeviceMemory
    else
      let bytes := blocks * image.blockBytes * image.layers.toNat * extent.depth
      if uint64Max - image.blockSize < bytes then .error .errorOutOfDeviceMemory
      else layoutLevels { image with
          mipOffset := image.mipOffset ++ [image.blockSize]
          blockSize := image.blockSize + bytes } (mip + 1) left

/-- `hybris_bc_image_describe`. The decoded format is chosen later. -/
def describe (info : ImageCreateInfo) : Except VkResult Image :=
  if unsupported info then .error .errorFormatNotSupported
  else if info.chain.all (chainedOk info) = false then .error .errorFormatNotSupported
  else if fullLevels info.extent < info.mipLevels.toNat then .error .errorFormatNotSupported
  else layoutLevels
    { format := info.format
      decodedFormat := 0
      type := info.imageType
      extent := info.extent
      mipLevels := info.mipLevels
      layers := info.arrayLayers
      blockBytes := formatBlockBytes info.format
      mipOffset := []
      blockSize := 0 } 0 info.mipLevels.toNat

/-- `hybris_bc_transcode_format`: the compressed format of the device that blocks are transcoded
to. -/
def transcodeFormat (format : Nat) : Nat :=
  match format with
  | 131 | 133 | 135 | 137 | 145 => 157
  | 132 | 134 | 136 | 138 | 146 => 158
  | 139 => 153
  | 140 => 154
  | 141 => 155
  | 142 => 156
  | 143 | 144 => 1000066000
  | _ => 0

/-- How `hybris_bc_image_create` chooses the format blocks are decoded to. -/
def chooseFormat (info : ImageCreateInfo) (rgbMask outputFormat : Nat) : Nat :=
  if outputFormat ≠ 0 then outputFormat
  else if info.flags &&& mutableFormatBit ≠ 0 then imageFormat info.format
  else if info.format = 131 ∧ rgbMask &&& 1 ≠ 0 then 4
  else if info.format = 133 ∧ rgbMask &&& 2 ≠ 0 then 8
  else imageFormat info.format

/-- `hybris_bc_image_create`, without the objects it creates. -/
def createImage (info : ImageCreateInfo) (rgbMask outputFormat : Nat) : Except VkResult Image :=
  match describe info with
  | .error e => .error e
  | .ok image => .ok { image with decodedFormat := chooseFormat info rgbMask outputFormat }

/-! ## One dispatch of the decoder -/

/-- `family`: the compression family of a format. -/
def family (format : Nat) : Option Nat :=
  if format < bc1RgbUnormBlock ∨ bc7SrgbBlock < format then none
  else
    let offset := format - bc1RgbUnormBlock
    some (if offset < 4 then 0 else offset / 2 - 1)

structure Region where
  format : Nat
  outputFormat : Nat
  rgb16 : Bool
  rgb8 : Bool
  width : Nat
  height : Nat
  layers : Nat
  rowLength : Nat
  imageHeight : Nat
  sourceOffset : Nat
  destinationOffset : Nat
  sourceRange : Nat
  destinationRange : Nat
deriving DecidableEq, Repr

/-- `variant`, by the numbers of the ASTC, EAC and packed output formats. -/
def variant (r : Region) : Option Nat :=
  match family r.format with
  | none => none
  | some f =>
    match r.outputFormat with
    | 157 | 158 =>
      if f = 0 then some 9 else if f = 1 then some 10 else if f = 2 then some 11
      else if f = 6 then some 14 else none
    | 153 | 154 => if f = 3 then some 12 else none
    | 155 | 156 => if f = 4 then some 13 else none
    | 4 | 8 => if f = 0 then some 15 else none
    | 1000066000 => if f = 5 then some 16 else none
    | _ =>
      if r.rgb8 then (if f = 0 then some 7 else none)
      else if r.rgb16 then (if f = 5 then some 8 else none)
      else some f

/-- `hybris_bc_output_block_bytes`. -/
def outputBlockBytes (r : Region) : Nat :=
  match variant r with
  | none => 0
  | some v => [64, 64, 64, 16, 32, 128, 64, 48, 96, 16, 16, 16, 8, 16, 16, 32, 16].getD v 0

/-- Device limits. Vulkan allows no storage buffer alignment above 256, so that the sums the
source makes with it do not wrap. -/
structure Limits where
  maxStorageBufferRange : UInt32
  minStorageBufferOffsetAlignment : Nat
  alignmentLe : minStorageBufferOffsetAlignment ≤ 256
  maxComputeWorkGroupCount : Size3D
  maxComputeWorkGroupSize : Size3D
  maxComputeWorkGroupInvocations : Nat

structure Push where
  sourceWord : Nat
  rowBlocks : Nat
  layerBlocks : Nat
  flags : Nat
  destinationWord : Nat
  width : Nat
  height : Nat
deriving DecidableEq, Repr

def uint32Max : Nat := 2 ^ 32 - 1

/-- `rgb8` is for BC1 without alpha only and `rgb16` for BC6H only. -/
def packedMismatch (r : Region) : Bool :=
  (r.rgb8 && (r.rgb16 || (r.format ≠ bc1RgbUnormBlock && r.format ≠ bc1RgbSrgbBlock))) ||
    (r.rgb16 && family r.format ≠ some 5)

def inputBytes (f : Nat) : Nat := if f = 0 ∨ f = 3 then 8 else 16

section
variable (r : Region)

def pushFlags : Nat :=
  (if r.format = bc1RgbUnormBlock ∨ r.format = bc1RgbSrgbBlock then 1 else 0) +
  (if r.format = bc4SnormBlock ∨ r.format = bc5SnormBlock ∨ r.format = bc6hSfloatBlock then 2
    else 0) +
  (if r.outputFormat = 149 ∨ r.outputFormat = 150 then 4 else 0)

/-- The layout the source of a dispatch is read with: blocks of a row and of a layer. -/
def Region.row : Nat := if r.rowLength ≠ 0 then r.rowLength else r.width

def Region.rows : Nat := if r.imageHeight ≠ 0 then r.imageHeight else r.height

def Region.sourceBytes (f : Nat) : Nat :=
  (blocksOf r.row * blocksOf r.rows * (r.layers - 1) + (blocksOf r.height - 1) * blocksOf r.row +
    blocksOf r.width) * inputBytes f

def Region.destinationBytes : Nat :=
  blocksOf r.width * blocksOf r.height * r.layers * outputBlockBytes r

/-- `hybris_bc_prepare`. -/
def prepare (limits : Limits) : Except VkResult Push :=
  let range := limits.maxStorageBufferRange.toNat
  if packedMismatch r then .error .errorInitializationFailed
  else
    match family r.format with
    | none => .error .errorFormatNotSupported
    | some f =>
      if outputBlockBytes r = 0 then .error .errorFormatNotSupported
      else if r.width = 0 ∨ r.height = 0 ∨ r.layers = 0 ∨ r.sourceOffset % 4 ≠ 0 ∨
          r.destinationOffset % 4 ≠ 0 ∨ range < r.sourceRange ∨ range < r.destinationRange ∨
          limits.maxComputeWorkGroupSize.width < 8 ∨ limits.maxComputeWorkGroupSize.height < 8 ∨
          limits.maxComputeWorkGroupInvocations < 64 then
        .error .errorInitializationFailed
      else if r.row < r.width ∨ r.rows < r.height ∨ (r.rowLength ≠ 0 ∧ r.row % 4 ≠ 0) ∨
          (r.imageHeight ≠ 0 ∧ r.rows % 4 ≠ 0) then
        .error .errorInitializationFailed
      else if uint32Max / r.layers < blocksOf r.row * blocksOf r.rows ∨
          limits.maxComputeWorkGroupCount.width < (blocksOf r.width + 7) / 8 ∨
          limits.maxComputeWorkGroupCount.height < (blocksOf r.height + 7) / 8 ∨
          limits.maxComputeWorkGroupCount.depth < r.layers then
        .error .errorInitializationFailed
      else if r.sourceRange < r.sourceOffset ∨
          r.sourceRange - r.sourceOffset < r.sourceBytes f ∨
          r.destinationRange < r.destinationOffset ∨
          r.destinationRange - r.destinationOffset < r.destinationBytes ∨
          uint32Max < r.sourceOffset / 4 + r.sourceBytes f / 4 ∨
          uint32Max < r.destinationOffset / 4 + r.destinationBytes / 4 then
        .error .errorInitializationFailed
      else .ok
        { sourceWord := r.sourceOffset / 4
          rowBlocks := blocksOf r.row
          layerBlocks := blocksOf r.row * blocksOf r.rows
          flags := pushFlags r
          destinationWord := r.destinationOffset / 4
          width := r.width
          height := r.height }

end

end Bc
