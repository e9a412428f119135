import Libhybris.BcHazard
import Libhybris.BcLayout
import Libhybris.ExactCover

/-!
# A decode covers its region exactly

The copies a successful decode records cover the requested texels exactly, each copy's piece was
decoded from the blocks of the same texels, and it lies inside its chunk. The pieces of the loops
tile the region in its own coordinates; the copies are those pieces moved to the region's place.
-/
namespace Bc

open Vulkan List Packing

/-! ## What is recorded -/

def Command.copies : Command → List (Nat × BufferImageCopy)
  | .copyBufferToImage buffer _ copies => copies.map (fun c => (buffer, c))
  | _ => []

def Command.dispatches : Command → List Dispatch
  | .dispatch d => [d]
  | _ => []

/-- The copies of a log with their buffers, oldest first. -/
def copiesOf : List Command → List (Nat × BufferImageCopy)
  | [] => []
  | c :: older => copiesOf older ++ c.copies

/-- The dispatches of a log, oldest first. -/
def dispatchesOf : List Command → List Dispatch
  | [] => []
  | c :: older => dispatchesOf older ++ c.dispatches

theorem groupCopies_copies (queue : List (Nat × BufferImageCopy)) :
    (groupCopies queue).flatMap (fun g => g.2.map (fun c => (g.1, c))) = queue := by
  induction queue with
  | nil => rfl
  | cons q rest ih =>
    simp only [groupCopies]
    split
    case h_1 hnil =>
      rw [hnil] at ih
      simp [← ih]
    case h_2 buffer' copies groups hcons =>
      rw [hcons] at ih
      split
      case isTrue heq =>
        subst heq
        simp [← ih]
      case isFalse => simp [← ih]

section
variable (blockBytes : Nat)

section
variable (groups : List (Nat × List BufferImageCopy)) (log : List Command)

theorem copiesOf_groups :
    copiesOf ((groups.map fun g => Command.copyBufferToImage g.1 blockBytes g.2).reverse ++ log) =
      copiesOf log ++ groups.flatMap (fun g => g.2.map (fun c => (g.1, c))) := by
  induction groups generalizing log with
  | nil => simp
  | cons g groups ih => simp [ih, copiesOf, Command.copies]

theorem dispatchesOf_groups :
    dispatchesOf ((groups.map fun g => Command.copyBufferToImage g.1 blockBytes g.2).reverse ++
      log) = dispatchesOf log := by
  induction groups generalizing log with
  | nil => rfl
  | cons g groups ih => simp [ih, dispatchesOf, Command.dispatches]

end

section
variable (r : Run)

/-- A flush records the copies of the queue. -/
theorem copiesOf_flush : copiesOf (flush blockBytes r).log = copiesOf r.log ++ r.queue := by
  unfold flush
  split
  case isTrue hempty => simp [hempty]
  case isFalse => simp [copiesOf_groups, groupCopies_copies, copiesOf, Command.copies]

theorem dispatchesOf_flush : dispatchesOf (flush blockBytes r).log = dispatchesOf r.log := by
  unfold flush
  split
  case isTrue => rfl
  case isFalse => simp [dispatchesOf_groups, dispatchesOf, Command.dispatches]

/-- Every copy the run has recorded or still has in its queue. -/
def Run.copies : List (Nat × BufferImageCopy) := copiesOf r.log ++ r.queue

@[simp] theorem copies_reuse : (reuse blockBytes r).copies = r.copies := by
  simp [Run.copies, reuse, Run.record, copiesOf, Command.copies, copiesOf_flush]

@[simp] theorem dispatchesOf_reuse :
    dispatchesOf (reuse blockBytes r).log = dispatchesOf r.log := by
  simp [reuse, Run.record, dispatchesOf, Command.dispatches, dispatchesOf_flush]

@[simp] theorem copies_flushFull : (r.flushFull blockBytes).copies = r.copies := by
  unfold Run.flushFull
  split
  · simp [Run.copies, Run.record, copiesOf, Command.copies, copiesOf_flush]
  · rfl

@[simp] theorem dispatchesOf_flushFull :
    dispatchesOf (r.flushFull blockBytes).log = dispatchesOf r.log := by
  unfold Run.flushFull
  split
  · simp [Run.record, dispatchesOf, Command.dispatches, dispatchesOf_flush]
  · rfl

end

end

variable {job : Job} {r : Run} {ps : List Piece} {p : Piece} {x y left byRow layer height : Nat}

/-- The pieces of a sequence of moves are dispatched and copied in order. -/
theorem Moves.records {r' : Run} (h : Moves job r ps r') :
    r'.copies = r.copies ++ ps.map (fun p => (p.chunk.buffer, p.copy job)) ∧
      dispatchesOf r'.log = dispatchesOf r.log ++ ps.map (Piece.dispatch job) := by
  induction h with
  | refl => simp
  | next _ ih => exact ih
  | ticked _ ih => exact ih
  | addChunk _ _ _ ih => exact ih
  | reuse _ ih => simpa using ih
  | giveUp _ _ ih => exact ih
  | piece _ _ _ ih =>
    simp only [copies_flushFull, dispatchesOf_flushFull] at ih
    rw [ih.1, ih.2]
    simp [Run.put, Run.copies, Run.enqueue, Run.setUsed, Run.record, copiesOf, dispatchesOf,
      Command.copies, Command.dispatches]

/-! ## Chunks stay -/

/-- A chunk of this buffer and size is held. -/
def Run.Holds (r : Run) (c : Chunk) : Prop :=
  ∃ d ∈ r.transfer.chunks, d.buffer = c.buffer ∧ d.size = c.size

theorem Run.Holds.setUsed {c : Chunk} (h : r.Holds c) (used : Nat) : (r.setUsed used).Holds c := by
  obtain ⟨d, hd, hsame⟩ := h
  rcases mem_modify_of_mem (i := r.transfer.current) (f := fun c => { c with used }) hd with
    hkept | ⟨-, hnew⟩
  · exact ⟨d, hkept, hsame⟩
  · exact ⟨_, hnew, hsame⟩

/-- The moves keep every chunk, and each piece was checked against one that is held. -/
theorem Moves.holds {r' : Run} (h : Moves job r ps r') :
    (∀ c, r.Holds c → r'.Holds c) ∧ ∀ p ∈ ps, p.Checked job ∧ r'.Holds p.chunk := by
  induction h with
  | refl => exact ⟨fun _ hc => hc, by simp⟩
  | next _ ih => exact ih
  | ticked _ ih => exact ih
  | addChunk _ _ _ ih =>
    refine ⟨fun c ⟨d, hd, hsame⟩ => ih.1 c ⟨d, mem_cons_of_mem _ hd, hsame⟩, ih.2⟩
  | reuse _ ih =>
    refine ⟨fun c ⟨d, hd, hsame⟩ => ih.1 c ⟨{ d with used := 0 }, ?_, hsame⟩, ih.2⟩
    simp only [Bc.reuse, Run.record, flush_transfer]
    exact mem_map_of_mem hd
  | giveUp _ _ ih => exact ⟨fun c hc => ih.1 c (hc.setUsed _), ih.2⟩
  | @piece r _ _ p current checked _ ih =>
    have hkeep : ∀ c, r.Holds c → ((r.put job p).flushFull job.blockBytes).Holds c := by
      intro c hc
      simp only [Run.Holds, flushFull_transfer]
      exact hc.setUsed (p.destination + p.bytes job)
    refine ⟨fun c hc => ih.1 c (hkeep c hc), fun q hq => ?_⟩
    rcases mem_cons.mp hq with rfl | hrest
    · exact ⟨checked, ih.1 _ (hkeep _ ⟨_, mem_of_getElem? current, rfl, rfl⟩)⟩
    · exact ih.2 q hrest

/-! ## The pieces tile the region -/

/-- A point in the region's own coordinates: slice, row and column. -/
abbrev Point := Int × Int × Int

def Piece.box (p : Piece) : Set Point :=
  {t | t.1 = p.layer ∧ (p.y ≤ t.2.1 ∧ t.2.1 < p.y + p.height) ∧
    (p.x ≤ t.2.2 ∧ t.2.2 < p.x + p.binding.width)}

/-- The points of the band of height `height` at `y`, from column `x` on. -/
def bandBox (job : Job) (layer y height x : Nat) : Set Point :=
  {t | t.1 = layer ∧ (y ≤ t.2.1 ∧ t.2.1 < y + height) ∧ (x ≤ t.2.2 ∧ t.2.2 < job.width)}

/-- The points of `left` slices from `layer` on, from row `y` on. -/
def slicesBox (job : Job) (layer left y : Nat) : Set Point :=
  {t | (layer ≤ t.1 ∧ t.1 < layer + left) ∧ (y ≤ t.2.1 ∧ t.2.1 < job.height) ∧
    (0 ≤ t.2.2 ∧ t.2.2 < job.width)}

variable {t : Point}

theorem mem_box : t ∈ p.box ↔
    t.1 = p.layer ∧ (p.y ≤ t.2.1 ∧ t.2.1 < p.y + p.height) ∧
      (p.x ≤ t.2.2 ∧ t.2.2 < p.x + p.binding.width) := Iff.rfl

theorem mem_bandBox :
    t ∈ bandBox job layer y height x ↔
      t.1 = layer ∧ (y ≤ t.2.1 ∧ t.2.1 < y + height) ∧ (x ≤ t.2.2 ∧ t.2.2 < job.width) := Iff.rfl

theorem mem_slicesBox :
    t ∈ slicesBox job layer left y ↔ (layer ≤ t.1 ∧ t.1 < layer + left) ∧
      (y ≤ t.2.1 ∧ t.2.1 < job.height) ∧ (0 ≤ t.2.2 ∧ t.2.2 < job.width) := Iff.rfl

theorem Row.cover (h : Row job layer y height x ps) :
    ExactCover Piece.box ps (bandBox job layer y height x) := by
  induction h with
  | done => exact .nil fun t ht => by rw [mem_bandBox] at ht; omega
  | @cons x p ps place sameHeight pos le whole _ ih =>
    obtain ⟨hlayer, hy, hx⟩ := place
    refine ih.cons (fun t ht hrest => ?_) (fun t => ?_)
    · rw [mem_box] at ht
      rw [mem_bandBox] at hrest
      omega
    · rw [mem_box, mem_bandBox, mem_bandBox]
      omega

theorem Bands.cover (h : Bands job layer y ps) : ExactCover Piece.box ps (slicesBox job layer 1 y) := by
  induction h with
  | done => exact .nil fun t ht => by rw [mem_slicesBox] at ht; omega
  | @cons y height row ps band pieces _ ih =>
    have hle := band.le
    refine pieces.cover.append ih (fun t ht hrest => ?_) (fun t => ?_)
    · rw [mem_bandBox] at ht
      rw [mem_slicesBox] at hrest
      omega
    · rw [mem_slicesBox, mem_bandBox, mem_slicesBox]
      omega

theorem Slices.cover (h : Slices job layer left ps) :
    ExactCover Piece.box ps (slicesBox job layer left 0) := by
  induction h with
  | done => exact .nil fun t ht => by rw [mem_slicesBox] at ht; omega
  | @cons layer left slice ps bands _ ih =>
    refine bands.cover.append ih (fun t ht hrest => ?_) (fun t => ?_)
    · rw [mem_slicesBox] at ht hrest
      omega
    · rw [mem_slicesBox, mem_slicesBox, mem_slicesBox]
      omega

/-- Where a piece of a decode stands in its region: at the corner of a block. -/
structure Piece.Placed (job : Job) (p : Piece) : Prop where
  layer : p.layer < job.slices
  yBlock : p.y % 4 = 0
  xBlock : p.x % 4 = 0
  heightPos : 0 < p.height
  widthPos : 0 < p.binding.width
  bottom : p.y + p.height ≤ job.height
  right : p.x + p.binding.width ≤ job.width

theorem Row.mem (h : Row job layer y height x ps) (hx : x % 4 = 0 ∨ x = job.width) (hp : p ∈ ps) :
    p.layer = layer ∧ p.y = y ∧ p.height = height ∧ p.x % 4 = 0 ∧ 0 < p.binding.width ∧
      p.x + p.binding.width ≤ job.width := by
  induction h with
  | done => cases hp
  | @cons x q ps place sameHeight pos le whole _ ih =>
    rcases mem_cons.mp hp with rfl | hrest
    · exact ⟨place.1, place.2.1, sameHeight, by omega, pos, by omega⟩
    · exact ih (by omega) hrest

theorem Bands.mem (h : Bands job layer y ps) (hy : y % 4 = 0 ∨ y = job.height) (hp : p ∈ ps) :
    p.layer = layer ∧ p.y % 4 = 0 ∧ 0 < p.height ∧ p.y + p.height ≤ job.height ∧ p.x % 4 = 0 ∧
      0 < p.binding.width ∧ p.x + p.binding.width ≤ job.width := by
  induction h with
  | done => cases hp
  | cons band pieces _ ih =>
    have hpos := band.pos
    have hle := band.le
    have hwhole := band.whole
    rcases mem_append.mp hp with hrow | hrest
    · obtain ⟨hlayer, rfl, rfl, hx⟩ := pieces.mem (.inl rfl) hrow
      exact ⟨hlayer, by omega, hpos, hle, hx⟩
    · exact ih (by omega) hrest

theorem Slices.mem (h : Slices job layer left ps) (hle : layer + left ≤ job.slices) (hp : p ∈ ps) :
    p.Placed job := by
  induction h with
  | done => cases hp
  | cons bands _ ih =>
    rcases mem_append.mp hp with hslice | hrest
    · obtain ⟨hlayer, hy, hheight, hbottom, hx, hwidth, hright⟩ := bands.mem (.inl rfl) hslice
      exact ⟨by omega, hy, hx, hheight, hwidth, hbottom, hright⟩
    · exact ih (by omega) hrest

/-! ## Where a piece is read -/

/-- An image accepted by `hybris_bc_image_describe`, with its decoded format chosen, and a region
inside one of its levels that starts at the corner of a block. -/
structure Job.InBounds (job : Job) : Prop where
  accepted : ∃ info image, describe info = .ok image ∧
    job.image = { image with decodedFormat := job.image.decodedFormat }
  mip : job.region.mipLevel < job.image.mipLevels.toNat
  left : 0 ≤ job.region.imageOffset.x.toInt
  top : 0 ≤ job.region.imageOffset.y.toInt
  xBlock : job.region.imageOffset.x.toInt % 4 = 0
  yBlock : job.region.imageOffset.y.toInt % 4 = 0
  right : job.region.imageOffset.x.toInt + job.width ≤
    (job.image.levelExtent job.region.mipLevel).width
  bottom : job.region.imageOffset.y.toInt + job.height ≤
    (job.image.levelExtent job.region.mipLevel).height
  depths : job.volume = true → 0 ≤ job.region.imageOffset.z.toInt ∧
    job.region.imageOffset.z.toInt + job.slices ≤
      (job.image.levelExtent job.region.mipLevel).depth
  layers : job.volume = false → job.region.baseArrayLayer + job.slices ≤ job.image.layers.toNat

/-- The first byte of block `(bx, byRow)` of a slice. -/
def Image.blockAt (image : Image) (mip slice byRow bx : Nat) : Nat :=
  image.mipOffset.getD mip 0 + slice * image.sliceSize mip +
    (byRow * image.rowBlocks mip + bx) * image.blockBytes

theorem toUInt32_toNat {a : Int32} (ha : 0 ≤ a.toInt) : (a.toUInt32.toNat : Int) = a.toInt := by
  have hcond := BitVec.toInt_eq_toNat_cond a.toUInt32.toBitVec
  have hlt := a.toUInt32.toNat_lt
  change a.toInt = if 2 * a.toUInt32.toNat < 2 ^ 32 then (a.toUInt32.toNat : Int) else
    a.toUInt32.toNat - (2 ^ 32 : Nat) at hcond
  split at hcond <;> omega

theorem Job.InBounds.described (h : job.InBounds) : Described job.image := by
  obtain ⟨info, image, hdescribe, heq⟩ := h.accepted
  have hspec := (describe_spec hdescribe).1
  rw [heq]
  exact ⟨hspec.format, hspec.blockBytes, hspec.volume, hspec.flat, hspec.laidOut.length,
    hspec.laidOut.inside, hspec.laidOut.total⟩

theorem levelSide_pos (side : UInt32) (mip : Nat) : 0 < levelSide side mip := by
  unfold levelSide
  split
  case isTrue => exact Nat.one_pos
  case isFalse hne => exact Nat.pos_of_ne_zero hne

theorem levelSide_le {side : UInt32} {bound : Nat} (hside : side.toNat ≤ bound) (hpos : 0 < bound)
    (mip : Nat) : levelSide side mip ≤ bound := by
  have hle : side.toNat >>> mip ≤ side.toNat := by
    rw [Nat.shiftRight_eq_div_pow]
    exact Nat.div_le_self _ _
  unfold levelSide
  split <;> omega

theorem Job.InBounds.slice_lt (h : job.InBounds) (hlayer : layer < job.slices) :
    job.firstSlice + layer < job.image.slicesAt job.region.mipLevel := by
  have hspec := h.described
  unfold Job.firstSlice Image.slicesAt
  by_cases hvolume : job.volume = true
  · have htype : job.image.type = .threeD := by simpa [Job.volume] using hvolume
    obtain ⟨hz, hdepth⟩ := h.depths hvolume
    have hcast := toUInt32_toNat hz
    rw [if_pos hvolume, hspec.volume htype]
    simp only [UInt32.toNat_one, Nat.one_mul]
    omega
  · have hlayers := h.layers (by simpa using hvolume)
    have hdepth : 0 < (job.image.levelExtent job.region.mipLevel).depth := by
      unfold Image.levelExtent
      rw [if_neg (Nat.not_le.mpr h.mip)]
      exact levelSide_pos _ _
    rw [if_neg hvolume]
    calc job.region.baseArrayLayer + layer < job.image.layers.toNat := by omega
      _ ≤ job.image.layers.toNat * (job.image.levelExtent job.region.mipLevel).depth :=
        Nat.le_mul_of_pos_right _ hdepth

theorem Described.blockBytes_pos {image : Image} (h : Described image) : 0 < image.blockBytes := by
  rw [h.blockBytes, formatBlockBytes]
  split <;> omega

/-- A byte of a block lies inside its slice, and that inside its level. -/
theorem Image.place_lt {image : Image} {mip slice bx t : Nat} (hslice : slice < image.slicesAt mip)
    (hrow : byRow < blocksOf (image.levelExtent mip).height) (hbx : bx < image.rowBlocks mip)
    (ht : t < image.blockBytes) :
    (byRow * image.rowBlocks mip + bx) * image.blockBytes + t < image.sliceSize mip ∧
      slice * image.sliceSize mip + ((byRow * image.rowBlocks mip + bx) * image.blockBytes + t) <
        image.levelSize mip := by
  have hplace := row_lt (row_lt hrow hbx) ht
  rw [Nat.mul_comm (blocksOf _)] at hplace
  exact ⟨hplace, row_lt hslice hplace⟩

/-- Blocks of a slice lie inside the backing buffer. -/
theorem Described.blockAt_lt {image : Image} (h : Described image) {mip slice bx : Nat}
    (hmip : mip < image.mipLevels.toNat) (hslice : slice < image.slicesAt mip)
    (hrow : byRow < blocksOf (image.levelExtent mip).height) (hbx : bx < image.rowBlocks mip) :
    image.blockAt mip slice byRow bx < 2 ^ 64 := by
  have hinside := h.laidOut.inside mip hmip
  have htotal := h.laidOut.total
  have hlevel := (Image.place_lt hslice hrow hbx h.blockBytes_pos).2
  unfold Image.levelSize at hlevel
  unfold Image.blockAt
  unfold uint64Max at htotal
  omega

/-- The first block of a piece, without a wrap. -/
theorem source_eq (h : job.InBounds) (hp : p.Placed job) :
    job.source p.layer p.y p.x = job.image.blockAt job.region.mipLevel (job.firstSlice + p.layer)
      (job.region.imageOffset.y.toUInt32.toNat / 4 + p.y / 4)
      (job.region.imageOffset.x.toUInt32.toNat / 4 + p.x / 4) := by
  have hx := toUInt32_toNat h.left
  have hy := toUInt32_toNat h.top
  have hright := h.right
  have hbottom := h.bottom
  obtain ⟨hlayer, hyb, hxb, hheight, hwidth, hpb, hpr⟩ := hp
  have hrow : job.region.imageOffset.y.toUInt32.toNat / 4 + p.y / 4 <
      blocksOf (job.image.levelExtent job.region.mipLevel).height := by
    rw [lt_blocksOf]
    omega
  have hcolumn : job.region.imageOffset.x.toUInt32.toNat / 4 + p.x / 4 <
      job.image.rowBlocks job.region.mipLevel := by
    rw [Image.rowBlocks, lt_blocksOf]
    omega
  have hlt := h.described.blockAt_lt h.mip (h.slice_lt hlayer) hrow hcolumn
  rw [Job.source, ← Nat.mod_eq_of_lt hlt]
  unfold Image.blockAt
  ring_nf

/-- What an accepted dispatch's push constants are. -/
theorem prepare_spec {r : Region} {limits : Limits} {push : Push}
    (h : prepare r limits = .ok push) :
    r.sourceOffset % 4 = 0 ∧ push.sourceWord = r.sourceOffset / 4 ∧
      push.rowBlocks = blocksOf r.row ∧ push.width = r.width ∧ push.height = r.height := by
  obtain ⟨-, h⟩ := ite_error_eq_ok.mp h
  split at h
  case h_1 => cases h
  case h_2 f _ =>
    simp only [ite_error_eq_ok, not_or, not_not] at h
    obtain ⟨-, hranges, -, -, -, hpush⟩ := h
    cases hpush
    exact ⟨hranges.2.2.2.1, rfl, rfl, rfl, rfl⟩

/-- The rows of a piece are read at the distance they are laid out with. The row length wraps to
zero for the widest levels only, of which no two rows fit a descriptor's range. -/
theorem rowBlocks_eq (h : job.InBounds) (hp : p.Checked job) (hrow : byRow < blocksOf p.height) :
    byRow * blocksOf (job.decoding p.binding p.height).row =
      byRow * job.image.rowBlocks job.region.mipLevel := by
  by_cases hzero : byRow = 0
  · rw [hzero, Nat.zero_mul, Nat.zero_mul]
  · congr 1
    have hextent : (job.image.levelExtent job.region.mipLevel).width =
        levelSide job.image.extent.width job.region.mipLevel := by
      unfold Image.levelExtent
      rw [if_neg (Nat.not_le.mpr h.mip)]
    have hpos := levelSide_pos job.image.extent.width job.region.mipLevel
    obtain ⟨width, hbound⟩ := hp.bound
    have hbytes : 8 ≤ job.image.blockBytes := by
      rw [h.described.blockBytes, formatBlockBytes]
      split <;> omega
    have hrange : job.image.rowBlocks job.region.mipLevel * 8 < 2 ^ 32 :=
      calc job.image.rowBlocks job.region.mipLevel * 8
          ≤ job.image.rowBlocks job.region.mipLevel * job.image.blockBytes :=
            Nat.mul_le_mul_left _ hbytes
        _ ≤ (blocksOf p.height - 1) *
            (job.image.rowBlocks job.region.mipLevel * job.image.blockBytes) :=
          Nat.le_mul_of_pos_left _ (by omega)
        _ ≤ p.binding.range := by
          rw [hbound.range]
          omega
        _ < 2 ^ 32 := hbound.rangeLe.trans_lt (UInt32.toNat_lt _)
    unfold Image.rowBlocks blocksOf at hrange
    have hlength : (job.decoding p.binding p.height).rowLength =
        ((job.image.levelExtent job.region.mipLevel).width + 3) / 4 * 4 := by
      simp only [Job.decoding]
      omega
    simp only [Region.row, hlength, Image.rowBlocks, blocksOf]
    rw [if_pos (by omega)]
    omega

theorem sourceByte_eq (h : job.InBounds) (hp : p.Placed job) (hc : p.Checked job)
    (hrow : byRow < blocksOf p.height) (bx : Nat) :
    (p.dispatch job).sourceByte bx byRow =
      job.image.blockAt job.region.mipLevel (job.firstSlice + p.layer)
        (job.region.imageOffset.y.toUInt32.toNat / 4 + p.y / 4 + byRow)
        (job.region.imageOffset.x.toUInt32.toNat / 4 + p.x / 4 + bx) := by
  obtain ⟨halign, hword, hblocks, -, -⟩ := prepare_spec hc.prepared
  obtain ⟨width, hbound⟩ := hc.bound
  have hsource : p.binding.base + 4 * p.push.sourceWord = job.source p.layer p.y p.x := by
    have hle : p.binding.offset ≤ job.source p.layer p.y p.x := by
      rw [hbound.offset]
      exact Nat.mod_le _ _
    rw [hword, hbound.base]
    simp only [Job.decoding] at halign ⊢
    omega
  simp only [Dispatch.sourceByte, Piece.dispatch]
  rw [hsource, hblocks, rowBlocks_eq h hc hrow, h.described.inputBytes, source_eq h hp]
  unfold Image.blockAt
  ring

/-! ## Texels -/

structure Texel where
  mip : Nat
  layer : Int
  z : Int
  y : Int
  x : Int

/-- The texels a copy writes. -/
def BufferImageCopy.texels (c : BufferImageCopy) : Set Texel :=
  {t | t.mip = c.mipLevel ∧ (c.baseArrayLayer ≤ t.layer ∧ t.layer < c.baseArrayLayer + c.layerCount) ∧
    (c.imageOffset.z.toInt ≤ t.z ∧ t.z < c.imageOffset.z.toInt + c.imageExtent.depth) ∧
    (c.imageOffset.y.toInt ≤ t.y ∧ t.y < c.imageOffset.y.toInt + c.imageExtent.height) ∧
    (c.imageOffset.x.toInt ≤ t.x ∧ t.x < c.imageOffset.x.toInt + c.imageExtent.width)}

instance (c : BufferImageCopy) (t : Texel) : Decidable (t ∈ c.texels) :=
  inferInstanceAs (Decidable (_ ∧ (_ ∧ _) ∧ (_ ∧ _) ∧ (_ ∧ _) ∧ _ ∧ _))

/-- The texels of the requested slices: depths of a volume, layers of any other image. -/
def Job.requested (job : Job) : Set Texel :=
  {t | t.mip = job.region.mipLevel ∧
    (if job.volume then
      t.layer = job.region.baseArrayLayer ∧ job.region.imageOffset.z.toInt ≤ t.z ∧
        t.z < job.region.imageOffset.z.toInt + job.slices
    else
      t.z = 0 ∧ job.region.baseArrayLayer ≤ t.layer ∧
        t.layer < job.region.baseArrayLayer + job.slices) ∧
    (job.region.imageOffset.y.toInt ≤ t.y ∧ t.y < job.region.imageOffset.y.toInt + job.height) ∧
    (job.region.imageOffset.x.toInt ≤ t.x ∧ t.x < job.region.imageOffset.x.toInt + job.width)}

/-- The edges of the region are offsets a `VkOffset3D` can stand before. -/
structure Job.Representable (job : Job) : Prop where
  x : job.region.imageOffset.x.toInt + job.width ≤ 2 ^ 31
  y : job.region.imageOffset.y.toInt + job.height ≤ 2 ^ 31
  z : job.volume = true → job.region.imageOffset.z.toInt + job.slices ≤ 2 ^ 31

theorem toInt_add_ofNat {a : Int32} {n : Nat} (ha : 0 ≤ a.toInt) (h : a.toInt + n < 2 ^ 31) :
    (a + (UInt32.ofNat n).toInt32).toInt = a.toInt + n := by
  have hn : (UInt32.ofNat n).toInt32.toInt = n := by
    change (UInt32.ofNat n).toBitVec.toInt = n
    have hmod : (UInt32.ofNat n).toBitVec.toNat = n := by
      simp
      omega
    rw [BitVec.toInt_eq_toNat_of_lt (by omega), hmod]
  rw [Int32.toInt_add, Int.bmod_eq_of_le] <;> omega

/-- A texel in the region's own coordinates. -/
def Job.point (job : Job) (t : Texel) : Point :=
  (if job.volume then t.z - job.region.imageOffset.z.toInt else t.layer - job.region.baseArrayLayer,
    t.y - job.region.imageOffset.y.toInt, t.x - job.region.imageOffset.x.toInt)

/-- The texel is of the region's level, and in the one layer or depth that is not counted. -/
def Job.onLevel (job : Job) (t : Texel) : Prop :=
  t.mip = job.region.mipLevel ∧
    if job.volume then t.layer = job.region.baseArrayLayer else t.z = 0

theorem requested_eq (job : Job) :
    job.requested = {t | job.onLevel t ∧ job.point t ∈ slicesBox job 0 job.slices 0} := by
  ext t
  change _ ∧ _ ↔ (_ ∧ _) ∧ _
  simp only [mem_slicesBox, Job.point]
  split <;> omega

theorem copy_offset (h : job.InBounds) (hrep : job.Representable) (hp : p.Placed job) :
    (p.copy job).imageOffset.x.toInt = job.region.imageOffset.x.toInt + p.x ∧
      (p.copy job).imageOffset.y.toInt = job.region.imageOffset.y.toInt + p.y := by
  obtain ⟨-, -, -, hheight, hwidth, hbottom, hright⟩ := hp
  have hrx := hrep.x
  have hry := hrep.y
  exact ⟨toInt_add_ofNat h.left (by omega), toInt_add_ofNat h.top (by omega)⟩

theorem copy_texels (h : job.InBounds) (hrep : job.Representable) (hp : p.Placed job) :
    (p.copy job).texels = {t | job.onLevel t ∧ job.point t ∈ p.box} := by
  obtain ⟨hx, hy⟩ := copy_offset h hrep hp
  have hlayer := hp.layer
  ext t
  change _ ∧ _ ↔ (_ ∧ _) ∧ _
  rw [hx, hy, mem_box]
  simp only [Job.point, Piece.copy, Job.copy]
  by_cases hvolume : job.volume = true
  · have hrz := hrep.z hvolume
    have hz := toInt_add_ofNat (h.depths hvolume).1
      (show job.region.imageOffset.z.toInt + p.layer < 2 ^ 31 by omega)
    simp only [hvolume, if_true, hz]
    omega
  · simp only [hvolume, Bool.false_eq_true, if_false, Int32.toInt_zero]
    omega

/-- The slice a copy writes to. -/
def Job.sliceOf (job : Job) (c : BufferImageCopy) : Nat :=
  if job.volume then c.imageOffset.z.toInt.toNat else c.baseArrayLayer

/-- The dispatch decodes, into the range the copy reads, the blocks of the copy's texels. -/
structure Decodes (job : Job) (d : Dispatch) (q : Nat × BufferImageCopy) : Prop where
  scratch : d.scratch = queued job.blockBytes q
  width : d.push.width = q.2.imageExtent.width
  height : d.push.height = q.2.imageExtent.height
  source : ∀ byRow < blocksOf q.2.imageExtent.height, ∀ bx < blocksOf q.2.imageExtent.width,
    d.sourceByte bx byRow = job.image.blockAt q.2.mipLevel (job.sliceOf q.2)
      (q.2.imageOffset.y.toInt.toNat / 4 + byRow) (q.2.imageOffset.x.toInt.toNat / 4 + bx)

section
variable (h : job.InBounds) (hrep : job.Representable) (hp : p.Placed job)
include h hrep hp

theorem sliceOf_copy :
    job.sliceOf (p.copy job) = job.firstSlice + p.layer := by
  have hlayer := hp.layer
  unfold Job.sliceOf Job.firstSlice
  by_cases hvolume : job.volume = true
  · have hrz := hrep.z hvolume
    have hzero := (h.depths hvolume).1
    have hz := toInt_add_ofNat hzero
      (show job.region.imageOffset.z.toInt + p.layer < 2 ^ 31 by omega)
    have hcast := toUInt32_toNat hzero
    simp only [Piece.copy, Job.copy, hvolume, if_true, hz]
    omega
  · simp [Piece.copy, Job.copy, hvolume]

theorem decodes_piece (hc : p.Checked job)
    (hsize : p.chunk.size ≤ chunkMax) : Decodes job (p.dispatch job) (p.chunk.buffer, p.copy job) where
  scratch := (queued_copy hc hsize).symm
  width := (prepare_spec hc.prepared).2.2.2.1
  height := (prepare_spec hc.prepared).2.2.2.2
  source byRow hrow bx _ := by
    obtain ⟨-, hyb, hxb, -⟩ := id hp
    obtain ⟨hx, hy⟩ := copy_offset h hrep hp
    have hox := toUInt32_toNat h.left
    have hoy := toUInt32_toNat h.top
    rw [sourceByte_eq h hp hc hrow bx, sliceOf_copy h hrep hp]
    have hrows : job.region.imageOffset.y.toUInt32.toNat / 4 + p.y / 4 =
        (p.copy job).imageOffset.y.toInt.toNat / 4 := by omega
    have hcolumns : job.region.imageOffset.x.toUInt32.toNat / 4 + p.x / 4 =
        (p.copy job).imageOffset.x.toInt.toNat / 4 := by omega
    rw [hrows, hcolumns]
    rfl

end

/-- What a decode has recorded of its region. -/
structure Covers (job : Job) (r : Run) : Prop where
  /-- Every requested texel is copied once, and no other. -/
  exact : ExactCover (fun q => q.2.texels) (copiesOf r.log) job.requested
  /-- The copies belong to the dispatches, in order. -/
  decoded : List.Forall₂ (Decodes job) (dispatchesOf r.log) (copiesOf r.log)
  /-- What a copy reads lies inside its chunk. -/
  inside : ∀ q ∈ copiesOf r.log, ∃ c ∈ r.transfer.chunks,
    c.buffer = q.1 ∧ (queued job.blockBytes q).stop ≤ c.size

/-- After any history of the command buffer, whatever sizes the pool's chunks have. -/
theorem decode_covers_region (ops : List Operation) (s : Recording)
    (hrun : Transition.run operate .start ops = some s) (job : Job) (hbounds : job.InBounds)
    (hrep : job.Representable) (fuel : Nat) (r : Run)
    (hdecode : decode job fuel s.transfer = some (r, .ok ())) : Covers job r := by
  have hsized := (recorded hrun).sized
  obtain ⟨ps, r₁, hmoves, ⟨⟨_, heq, -⟩, -⟩ | ⟨-, hslices, -, rfl⟩⟩ := decode_moves hsized hdecode
  · cases heq
  have hplaced : ∀ p ∈ ps, p.Placed job := fun p hp => hslices.mem (by omega) hp
  obtain ⟨hcopies, hdispatches⟩ := hmoves.records
  have hheld := hmoves.holds.2
  have hsize : ∀ p ∈ ps, p.chunk.size ≤ chunkMax := by
    intro p hp
    obtain ⟨c, hc, -, hsame⟩ := (hheld p hp).2
    exact hsame ▸ (hmoves.sized hsized c hc).2
  have hlog : copiesOf (flush job.blockBytes r₁).log =
      ps.map (fun p => (p.chunk.buffer, p.copy job)) := by
    rw [copiesOf_flush]
    simpa [Run.copies, Run.begin, copiesOf, Command.copies] using hcopies
  have hlog' : dispatchesOf (flush job.blockBytes r₁).log = ps.map (Piece.dispatch job) := by
    rw [dispatchesOf_flush, hdispatches]
    rfl
  refine ⟨?_, ?_, ?_⟩
  · rw [hlog, requested_eq]
    exact (hslices.cover.preimage job.point job.onLevel).map _
      (fun p hp => copy_texels hbounds hrep (hplaced p hp))
  · rw [hlog, hlog', List.forall₂_map_left_iff, List.forall₂_map_right_iff, List.forall₂_same]
    exact fun p hp => decodes_piece hbounds hrep (hplaced p hp) (hheld p hp).1 (hsize p hp)
  · intro q hq
    rw [hlog] at hq
    obtain ⟨p, hp, rfl⟩ := mem_map.mp hq
    obtain ⟨hchecked, c, hc, hbuffer, hsame⟩ := hheld p hp
    refine ⟨c, by rwa [flush_transfer], hbuffer, ?_⟩
    rw [queued_copy hchecked (hsize p hp), hsame]
    exact hchecked.room

def tinyInfo (width height : UInt32) : ImageCreateInfo where
  chain := []
  flags := 0
  imageType := .twoD
  format := bc1RgbUnormBlock
  extent := ⟨width, height, 1⟩
  mipLevels := 1
  arrayLayers := 1
  samples := 1
  optimalTiling := true
  usage := 2
  initialLayout := 0

/-- The upload of an image of two blocks, each of which fills a chunk. -/
def tinyJob : Job := ⟨tinyEnv 9 9, tinyImage, ⟨0, 0, 0, 0, 0, 1, ⟨0, 0, 0⟩, ⟨8, 4, 1⟩⟩⟩

theorem decode_covers_region_tiny : ∃ s r,
    Transition.run operate .start [tinyUpload 0 9] = some s ∧ tinyJob.InBounds ∧
      tinyJob.Representable ∧ decode tinyJob 8 s.transfer = some (r, .ok ()) ∧ Covers tinyJob r := by
  have hbounds : tinyJob.InBounds :=
    ⟨⟨tinyInfo 8 4, { tinyImage with decodedFormat := 0 }, rfl, rfl⟩, by decide, by decide,
      by decide, by decide, by decide, by decide, by decide, by decide, by decide⟩
  have hrep : tinyJob.Representable := ⟨by decide, by decide, by decide⟩
  exact ⟨_, _, rfl, hbounds, hrep, rfl,
    decode_covers_region [tinyUpload 0 9] _ rfl tinyJob hbounds hrep 8 _ rfl⟩

/-- Two blocks on either side of column `2 ^ 31`. -/
def wideJob : Job where
  env := tinyEnv 0 9
  image := { tinyImage with
    extent := ⟨0x80000008, 4, 1⟩
    blockSize := 0x100000010 }
  region := ⟨0, 0, 0, 0, 0, 1, ⟨0x7ffffffc, 0, 0⟩, ⟨8, 4, 1⟩⟩

/-- The second block's offset is not an `int32_t`: its copy goes elsewhere. -/
theorem wide_region_not_covered : ∃ r, wideJob.InBounds ∧
    decode wideJob 8 .init = some (r, .ok ()) ∧
      ∃ t ∈ wideJob.requested, ∀ q ∈ copiesOf r.log, t ∉ q.2.texels := by
  have hbounds : wideJob.InBounds :=
    ⟨⟨tinyInfo 0x80000008 4, { wideJob.image with decodedFormat := 0 }, rfl, rfl⟩, by decide,
      by decide, by decide, by decide, by decide, by decide, by decide, by decide, by decide⟩
  refine ⟨_, hbounds, rfl, ⟨0, 0, 0, 0, 2 ^ 31⟩, ?_, ?_⟩
  · exact ⟨rfl, ⟨rfl, by decide, by decide⟩, ⟨by decide, by decide⟩, by decide, by decide⟩
  · decide

end Bc
