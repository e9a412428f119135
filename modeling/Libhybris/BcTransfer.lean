import Libhybris.BcImage
import Libhybris.Transition

/-!
# Decoding block-compressed uploads

`compat/bc_transfer.c`: the scratch chunks of a command buffer, the queue of copies out of them
and the loops that cut a copy region into pieces. The commands that are recorded are the
result. The scratch pool is shared with other command buffers, so its content at each call is an
input, as are the results of the driver. A loop that does not end within its fuel gives no
result.
-/
namespace Bc

open Vulkan

/-! ## Scratch chunks -/

def chunkMin : Nat := 2 ^ 20

def chunkMax : Nat := 16 * 2 ^ 20

def cbMax : Nat := chunkMax

def liveMax : Nat := 96 * 2 ^ 20

structure Chunk where
  buffer : Nat
  size : Nat
  used : Nat
deriving DecidableEq, Repr

/-- `current` counts the chunks before the current one; past the end it is the null pointer. -/
structure Transfer where
  chunks : List Chunk
  current : Nat
  heldBytes : Nat
deriving DecidableEq, Repr

def Transfer.init : Transfer := ⟨[], 0, 0⟩

/-- The doublings of `chunk_size`. A limit is below `2 ^ 64`, so 64 of them are enough. -/
def growChunk : Nat → Nat → Nat → Nat → Nat
  | 0, size, _, _ => size
  | fuel + 1, size, want, limit =>
    if size < want ∧ size ≤ limit / 2 then growChunk fuel (size * 2) want limit else size

def chunkSize (want limit : Nat) : Nat := growChunk 64 (min chunkMin limit) want limit

/-- The pool when it is asked: its idle chunks, by buffer and size, and the bytes alive. -/
structure Pool where
  idle : List (Nat × Nat)
  live : Nat

/-- What creating a buffer with its memory gives. -/
structure Created where
  buffer : Nat
  result : VkResult

/-- The smallest idle chunk that is large enough, the first of several. -/
def bestIdle (need : Nat) : List (Nat × Nat) → Option (Nat × Nat) → Option (Nat × Nat)
  | [], best => best
  | c :: rest, best =>
    match best with
    | none => bestIdle need rest (if need ≤ c.2 then some c else none)
    | some b => bestIdle need rest (if need ≤ c.2 ∧ c.2 < b.2 then some c else some b)

def createChunk (created : Created) (size : Nat) : Except VkResult (Option Chunk) :=
  if created.result = .success then .ok (some ⟨created.buffer, size, 0⟩)
  else .error created.result

def chunkLimit (limits : Limits) : Nat := min limits.maxStorageBufferRange.toNat chunkMax

def chunkGet (limits : Limits) (held : List Chunk) (need want : Nat) (pool : Pool)
    (created : Created) : Except VkResult (Option Chunk) :=
  let limit := chunkLimit limits
  if limit < need ∨ limit < 64 then .error .errorFormatNotSupported
  else
    match bestIdle need pool.idle none with
    | some (buffer, size) => .ok (some ⟨buffer, size, 0⟩)
    | none =>
      let size := chunkSize (min want limit) limit
      if liveMax < pool.live + size then
        if held ≠ [] then .ok none else createChunk created (chunkSize need limit)
      else createChunk created size

/-! ## Recorded commands -/

structure Slice where
  buffer : Nat
  offset : Nat
  size : Nat
deriving DecidableEq, Repr

structure Offset3D where
  x : Int32
  y : Int32
  z : Int32
deriving DecidableEq

structure BufferImageCopy where
  bufferOffset : Nat
  bufferRowLength : Nat
  bufferImageHeight : Nat
  mipLevel : Nat
  baseArrayLayer : Nat
  layerCount : Nat
  imageOffset : Offset3D
  imageExtent : Size3D
deriving DecidableEq

/-- A dispatch of the decoder: the range of the backing buffer it reads, its push constants and
the range of a chunk it writes. -/
structure Dispatch where
  sourceBase : Nat
  sourceRange : Nat
  inputBytes : Nat
  push : Push
  scratch : Slice
deriving DecidableEq

/-- Where the shader reads block `(bx, by)` of a dispatch in the backing buffer. -/
def Dispatch.sourceByte (d : Dispatch) (bx byRow : Nat) : Nat :=
  d.sourceBase + 4 * d.push.sourceWord + (byRow * d.push.rowBlocks + bx) * d.inputBytes

/-- `reuse` stands for no command: the chunks' offsets are set to zero at that point. -/
inductive Command where
  | blocksToCompute
  | blocksToTransfer
  | toCompute
  | toTransfer
  | dispatch (d : Dispatch)
  | copyBufferToImage (buffer blockBytes : Nat) (copies : List BufferImageCopy)
  | reuse
deriving DecidableEq

/-- The commands are kept newest first; `tick` counts the calls to the pool and the driver. -/
structure Run where
  transfer : Transfer
  queue : List (Nat × BufferImageCopy)
  log : List Command
  tick : Nat

structure Env where
  limits : Limits
  pool : Nat → Pool
  created : Nat → Created
  descriptors : Nat → VkResult
  pipeline : Nat → VkResult

/-- One call of `decode`. -/
structure Job where
  env : Env
  image : Image
  region : BufferImageCopy

def formatRepresentation (image : Image) : Region where
  format := image.format
  outputFormat := image.decodedFormat
  rgb16 := image.decodedFormat = 90
  rgb8 := image.decodedFormat = 23 || image.decodedFormat = 29
  width := 0
  height := 0
  layers := 0
  rowLength := 0
  imageHeight := 0
  sourceOffset := 0
  destinationOffset := 0
  sourceRange := 0
  destinationRange := 0

section
variable (job : Job)

def Job.blockBytes : Nat := outputBlockBytes (formatRepresentation job.image)

def Job.alignment : Nat :=
  if job.env.limits.minStorageBufferOffsetAlignment = 0 then 1
  else job.env.limits.minStorageBufferOffsetAlignment

def Job.slotAlignment : Nat := max job.alignment 256

def Job.volume : Bool := job.image.type = .threeD

def Job.slices : Nat :=
  if job.volume then job.region.imageExtent.depth else job.region.layerCount

def Job.firstSlice : Nat :=
  if job.volume then job.region.imageOffset.z.toUInt32.toNat else job.region.baseArrayLayer

def Job.width : Nat := job.region.imageExtent.width

def Job.height : Nat := job.region.imageExtent.height

end

def Run.record (r : Run) (c : Command) : Run := { r with log := c :: r.log }

/-- Consecutive copies out of one buffer become one command. -/
def groupCopies : List (Nat × BufferImageCopy) → List (Nat × List BufferImageCopy)
  | [] => []
  | (buffer, copy) :: rest =>
    match groupCopies rest with
    | [] => [(buffer, [copy])]
    | (buffer', copies) :: groups =>
      if buffer = buffer' then (buffer, copy :: copies) :: groups
      else (buffer, [copy]) :: (buffer', copies) :: groups

def flush (blockBytes : Nat) (r : Run) : Run :=
  if r.queue = [] then r
  else { r with
    queue := []
    log := ((groupCopies r.queue).map fun g =>
        Command.copyBufferToImage g.1 blockBytes g.2).reverse ++ .toTransfer :: r.log }

/-- The end of `slot`'s loop body: flush, wait and start over in the first chunk. -/
def reuse (blockBytes : Nat) (r : Run) : Run :=
  let flushed := ((flush blockBytes r).record .toCompute).record .reuse
  { flushed with
    transfer := { flushed.transfer with
      chunks := flushed.transfer.chunks.map (fun c => { c with used := 0 })
      current := 0 } }

/-- A chunk from the pool goes to the head of the list and becomes the current one. -/
def Run.addChunk (r : Run) (c : Chunk) : Run :=
  { r with transfer :=
      { chunks := c :: r.transfer.chunks
        current := 0
        heldBytes := r.transfer.heldBytes + c.size } }

def Run.next (r : Run) : Run :=
  { r with transfer := { r.transfer with current := r.transfer.current + 1 } }

def Run.ticked (r : Run) : Run := { r with tick := r.tick + 1 }

def alignUp (n alignment : Nat) : Nat := (n + alignment - 1) / alignment * alignment

/-- A chunk the pool can hand out is of the pool's sizes, and not one that is held. -/
def chunkPossible (limits : Limits) (held : List Chunk) (c : Chunk) : Bool :=
  c.size ≤ chunkLimit limits && held.all (fun h => h.buffer ≠ c.buffer)

/-- `slot`: a chunk with room, and where the room starts. -/
def slot (job : Job) (want : Nat) : Nat → Run → Option (Run × Except VkResult (Chunk × Nat))
  | 0, _ => none
  | fuel + 1, r =>
    match r.transfer.chunks[r.transfer.current]? with
    | some c =>
      let start := alignUp c.used job.slotAlignment
      if start < c.size then some (r, .ok (c, start))
      else slot job want fuel r.next
    | none =>
      if r.transfer.heldBytes < cbMax then
        match chunkGet job.env.limits r.transfer.chunks 64
            (min want (cbMax - r.transfer.heldBytes)) (job.env.pool r.tick)
            (job.env.created r.tick) with
        | .error e => some (r.ticked, .error e)
        | .ok none => slot job want fuel (reuse job.blockBytes r.ticked)
        | .ok (some c) =>
          if chunkPossible job.env.limits r.transfer.chunks c then
            slot job want fuel (r.ticked.addChunk c)
          else none
      else slot job want fuel (reuse job.blockBytes r)

/-! ## Cutting a region into pieces -/

/-- The size of a piece in a slot with room for `available` blocks, or none if the rest of the
chunk is given up. `band` is the height of the band, zero before its first piece. -/
def fit (width height available : Nat) (used : Bool) (band : Nat) : Option (Nat × Nat) :=
  if available = 0 then none
  else if band = 0 ∧ available < blocksOf width ∧ used then none
  else
    let pieceWidth := if available * 4 < width then available * 4 % 2 ^ 32 else width
    let maxHeight := available / blocksOf pieceWidth * 4 % 2 ^ 32
    let wanted := if band ≠ 0 then band else height
    let clamped := if maxHeight < wanted then maxHeight else wanted
    let pieceHeight := if pieceWidth < width ∧ band = 0 ∧ 4 < clamped then 4 else clamped
    if band ≠ 0 ∧ pieceHeight ≠ band then none else some (pieceWidth, pieceHeight)

/-- The first byte of a piece in the backing buffer. -/
def Job.source (job : Job) (layer y x : Nat) : Nat :=
  (job.image.mipOffset.getD job.region.mipLevel 0 +
    (job.firstSlice + layer) * job.image.sliceSize job.region.mipLevel +
    (job.region.imageOffset.y.toUInt32.toNat / 4 + y / 4) *
      (job.image.rowBlocks job.region.mipLevel * job.image.blockBytes) +
    (job.region.imageOffset.x.toUInt32.toNat / 4 + x / 4) * job.image.blockBytes) % 2 ^ 64

/-- The descriptor range of a piece's source: its base, its size and the width that fits. -/
structure Binding where
  base : Nat
  offset : Nat
  range : Nat
  width : Nat
deriving DecidableEq, Repr

def Job.bind (job : Job) (layer y x width height : Nat) : Except VkResult Binding :=
  let source := job.source layer y x
  let offset := source % job.alignment
  let limit := job.env.limits.maxStorageBufferRange.toNat
  if limit ≤ offset then .error .errorFormatNotSupported
  else
    let available := (limit - offset) / job.image.blockBytes
    if available = 0 then .error .errorFormatNotSupported
    else
      let width' := if available < blocksOf width then available * 4 % 2 ^ 32 else width
      let range := offset + (blocksOf height - 1) *
          (job.image.rowBlocks job.region.mipLevel * job.image.blockBytes) +
        blocksOf width' * job.image.blockBytes
      if limit < range then .error .errorFormatNotSupported
      else .ok ⟨source - offset, offset, range, width'⟩

/-- The decoder's region for a piece. -/
def Job.decoding (job : Job) (b : Binding) (height : Nat) : Region :=
  { formatRepresentation job.image with
    width := b.width
    height := height
    layers := 1
    rowLength := ((job.image.levelExtent job.region.mipLevel).width + 3) % 2 ^ 32 / 4 * 4
    sourceOffset := b.offset
    sourceRange := b.range
    destinationRange := blocksOf b.width * blocksOf height * job.blockBytes }

/-- The copy of a piece out of its slot. The sums of the offsets are those of `int32_t`. -/
def Job.copy (job : Job) (layer y x width height destination : Nat) : BufferImageCopy where
  bufferOffset := destination
  bufferRowLength := (width + 3) % 2 ^ 32 / 4 * 4
  bufferImageHeight := (height + 3) % 2 ^ 32 / 4 * 4
  mipLevel := job.region.mipLevel
  baseArrayLayer :=
    if job.volume then job.region.baseArrayLayer else job.region.baseArrayLayer + layer
  layerCount := 1
  imageOffset :=
    { x := job.region.imageOffset.x + (UInt32.ofNat x).toInt32
      y := job.region.imageOffset.y + (UInt32.ofNat y).toInt32
      z := if job.volume then job.region.imageOffset.z + (UInt32.ofNat layer).toInt32 else 0 }
  imageExtent := ⟨width, height, 1⟩

/-- Set the fill position of the current chunk. -/
def Run.setUsed (r : Run) (used : Nat) : Run :=
  { r with transfer := { r.transfer with
      chunks := r.transfer.chunks.modify r.transfer.current (fun c => { c with used }) } }

def Run.enqueue (r : Run) (buffer : Nat) (copy : BufferImageCopy) : Run :=
  { r with queue := r.queue ++ [(buffer, copy)] }

/-- A full queue is flushed. -/
def Run.flushFull (blockBytes : Nat) (r : Run) : Run :=
  if r.queue.length = 64 then (flush blockBytes r).record .toCompute else r

/-- Record the dispatch of a piece and queue its copy. -/
def recordPiece (job : Job) (layer y x height : Nat) (b : Binding) (chunk : Chunk)
    (destination : Nat) (r : Run) : Run × Except VkResult Unit :=
  let decoding := job.decoding b height
  if job.env.descriptors r.tick ≠ .success then (r.ticked, .error (job.env.descriptors r.tick))
  else
    match prepare decoding job.env.limits with
    | .error e => (r.ticked, .error e)
    | .ok push =>
      if job.env.pipeline r.tick ≠ .success then (r.ticked, .error (job.env.pipeline r.tick))
      else
        let d : Dispatch :=
          { sourceBase := b.base
            sourceRange := b.range
            inputBytes := inputBytes ((family job.image.format).getD 0)
            push
            scratch := ⟨chunk.buffer, destination, decoding.destinationRange⟩ }
        ((((r.ticked.record (.dispatch d)).setUsed (destination + decoding.destinationRange)).enqueue
          chunk.buffer (job.copy layer y x b.width height destination)).flushFull job.blockBytes,
          .ok ())

/-- The pieces of one row band, from `x` on; gives the band's height. -/
def rowBand (job : Job) (layer y : Nat) :
    Nat → Nat → Nat → Nat → Nat → Run → Option (Run × Except VkResult (Nat × Nat))
  | 0, _, _, _, _, _ => none
  | fuel + 1, x, band, height, wanted, r =>
    if job.width ≤ x then some (r, .ok (height, wanted))
    else
      match slot job wanted (fuel + 1) r with
      | none => none
      | some (r, .error e) => some (r, .error e)
      | some (r, .ok (chunk, destination)) =>
        match fit (job.width - x) (job.height - y) ((chunk.size - destination) / job.blockBytes)
            (chunk.used ≠ 0) band with
        | none => rowBand job layer y fuel x band height wanted (r.setUsed chunk.size)
        | some (width, height) =>
          match job.bind layer y x width height with
          | .error e => some (r, .error e)
          | .ok b =>
            match recordPiece job layer y x height b chunk destination r with
            | (r, .error e) => some (r, .error e)
            | (r, .ok ()) =>
              rowBand job layer y fuel (x + b.width) height height
                (wanted - blocksOf b.width * blocksOf height * job.blockBytes) r

/-- The bands of one slice, from `y` on. -/
def bands (job : Job) (layer : Nat) :
    Nat → Nat → Nat → Run → Option (Run × Except VkResult Unit)
  | 0, _, _, _ => none
  | fuel + 1, y, wanted, r =>
    if job.height ≤ y then some (r, .ok ())
    else
      match rowBand job layer y (fuel + 1) 0 0 (job.height - y) wanted r with
      | none => none
      | some (r, .error e) => some (r, .error e)
      | some (r, .ok (height, wanted)) => bands job layer fuel (y + height) wanted r

/-- The slices from `layer` on, `left` of them. -/
def decodeSlices (job : Job) (fuel : Nat) :
    Nat → Nat → Run → Option (Run × Except VkResult Unit)
  | 0, _, r => some (r, .ok ())
  | left + 1, layer, r =>
    match bands job layer fuel 0 (blocksOf job.width * blocksOf job.height * job.blockBytes %
        2 ^ 64) r with
    | none => none
    | some (r, .error e) => some (r, .error e)
    | some (r, .ok ()) => decodeSlices job fuel left (layer + 1) r

/-- `decode`, from the chunks earlier operations left. The queue is its own. -/
def decode (job : Job) (fuel : Nat) (transfer : Transfer) :
    Option (Run × Except VkResult Unit) :=
  let r : Run := { transfer, queue := [], log := [.toCompute], tick := 0 }
  if job.blockBytes = 0 then some (r, .error .errorFormatNotSupported)
  else
    match decodeSlices job fuel job.slices 0 r with
    | none => none
    | some (r, .error e) => some (r, .error e)
    | some (r, .ok ()) => some (flush job.blockBytes r, .ok ())

/-! ## A command buffer -/

/-- What is recorded so far, newest first, with the error that stopped it. -/
structure Recording where
  transfer : Transfer
  log : List Command
  error : VkResult

def Recording.start : Recording := ⟨.init, [], .success⟩

inductive Operation where
  | decodeImage (job : Job) (fuel : Nat)
  | finish

/-- `hybris_bc_decode_image`; and `hybris_bc_transfer_finish`, which is for a command buffer that
is reset. -/
def operate (s : Recording) : Operation → Option Recording
  | .decodeImage job fuel =>
    if s.error ≠ .success then some s
    else
      match decode job fuel s.transfer with
      | none => none
      | some (r, .error e) => some ⟨r.transfer, r.log ++ .blocksToCompute :: s.log, e⟩
      | some (r, .ok ()) =>
        some ⟨r.transfer, .blocksToTransfer :: (r.log ++ .blocksToCompute :: s.log), .success⟩
  | .finish => some .start

end Bc
