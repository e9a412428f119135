import Libhybris.BcCoverage
import Mathlib.Algebra.Group.Action.Defs

/-!
# Decoding makes progress

The retries of `decode` give up the rest of a chunk, so they end in a fresh chunk, and a fresh
chunk holds a whole row of blocks of any level. What can fail is the descriptor of a piece's
source: a tall band of a wide level spans more of the backing buffer than a storage buffer may. The
loops cut the bands by the room in the chunks alone, so a decode is compared with the same one on a
device without that limit: it succeeds exactly if none of those bands spans too much.
-/
namespace Bc

open Vulkan List

/-! ## What is given -/

/-- The limits Vulkan requires of a device. -/
structure Limits.Required (limits : Limits) : Prop where
  range : 2 ^ 27 ≤ limits.maxStorageBufferRange.toNat
  alignment : ∃ k, limits.minStorageBufferOffsetAlignment = 2 ^ k
  groups : 65535 ≤ limits.maxComputeWorkGroupCount.width ∧
    65535 ≤ limits.maxComputeWorkGroupCount.height ∧ 65535 ≤ limits.maxComputeWorkGroupCount.depth
  groupSize : 128 ≤ limits.maxComputeWorkGroupSize.width ∧
    128 ≤ limits.maxComputeWorkGroupSize.height
  invocations : 128 ≤ limits.maxComputeWorkGroupInvocations

/-- A size the pool's chunks are created with. -/
def PoolSize (limits : Limits) (size : Nat) : Prop :=
  ∃ want, size = chunkSize want (chunkLimit limits)

/-- The buffer the pool hands out at a call, idle or new. -/
def Env.handed (env : Env) (n : Nat) : Nat :=
  match bestIdle 64 (env.pool n).idle none with
  | some c => c.1
  | none => (env.created n).buffer

/-- The scratch chunks of a command buffer: the last one was added when the others were too few. -/
structure Transfer.Possible (limits : Limits) (t : Transfer) : Prop where
  sizes : ∀ c ∈ t.chunks, PoolSize limits c.size
  held : t.heldBytes = (t.chunks.map Chunk.size).sum
  needed : (t.chunks.tail.map Chunk.size).sum < cbMax

/-- A pool and a driver that answer every call. A chunk that is handed out is not handed out again
while it is held; what would be handed out at a call for something else does not matter. -/
structure Env.Answers (env : Env) (t : Transfer) : Prop where
  created : ∀ n, (env.created n).result = .success
  descriptors : ∀ n, env.descriptors n = .success
  pipeline : ∀ n, env.pipeline n = .success
  sizes : ∀ n, ∀ c ∈ (env.pool n).idle, PoolSize env.limits c.2
  distinct : Function.Injective env.handed
  apart : ∀ n, ∀ c ∈ t.chunks, c.buffer ≠ env.handed n

/-- The region ends with a block or at the edge of its level. -/
structure Job.Aligned (job : Job) : Prop where
  right : job.width % 4 = 0 ∨ job.region.imageOffset.x.toInt + job.width =
    (job.image.levelExtent job.region.mipLevel).width
  bottom : job.height % 4 = 0 ∨ job.region.imageOffset.y.toInt + job.height =
    (job.image.levelExtent job.region.mipLevel).height

/-- `decode` ends, and returns `VK_SUCCESS`. -/
def Job.Succeeds (job : Job) (t : Transfer) : Prop :=
  ∃ bound, ∀ fuel ≥ bound, ∃ r, decode job fuel t = some (r, .ok ())

/-- The decode on a device whose storage buffers may have any size. -/
def Job.unlimited (job : Job) : Job :=
  { job with env.limits.maxStorageBufferRange := 0xFFFFFFFF }

/-- No dispatch reads over more than `limit` bytes. -/
def Run.Within (r : Run) (limit : Nat) : Prop := ∀ d ∈ dispatchesOf r.log, d.sourceRange ≤ limit

/-- The bands `decode` cuts by the room in the chunks can all be bound. -/
def Job.CutsFit (job : Job) (t : Transfer) : Prop :=
  ∃ bound, ∀ fuel ≥ bound, ∃ r, decode job.unlimited fuel t = some (r, .ok ()) ∧
    r.Within job.env.limits.maxStorageBufferRange.toNat

theorem init_possible (limits : Limits) : Transfer.init.Possible limits :=
  ⟨fun _ hc => (not_mem_nil hc).elim, rfl, by decide⟩

/-! ## Chunks -/

variable {y mip fuel size tick layer width height available : Nat} {env : Env} {r : Run} {c : Chunk}
  {t : Transfer} {limits : Limits}

theorem growChunk_bounds (fuel want : Nat) {limit : Nat} (h : size ≤ limit) :
    size ≤ growChunk fuel size want limit ∧ growChunk fuel size want limit ≤ limit := by
  induction fuel generalizing size with
  | zero => exact ⟨le_rfl, h⟩
  | succ fuel ih =>
    simp only [growChunk]
    split
    case isTrue hgrow =>
      have hnext := ih (show size * 2 ≤ limit by omega)
      exact ⟨by omega, hnext.2⟩
    case isFalse => exact ⟨le_rfl, h⟩

theorem Limits.Required.chunkLimit (h : limits.Required) : Bc.chunkLimit limits = 2 ^ 24 := by
  have hrange := h.range
  unfold Bc.chunkLimit chunkMax
  omega

theorem PoolSize.bounds (hl : limits.Required) (h : PoolSize limits size) :
    2 ^ 20 ≤ size ∧ size ≤ 2 ^ 24 := by
  obtain ⟨want, rfl⟩ := h
  rw [hl.chunkLimit, chunkSize]
  have hbounds := growChunk_bounds 64 want (show 2 ^ 20 ≤ 2 ^ 24 by omega)
  rwa [show min chunkMin (2 ^ 24) = 2 ^ 20 by decide]

theorem Transfer.Possible.length_le (hl : limits.Required) (h : t.Possible limits) :
    t.chunks.length ≤ 16 := by
  have htail := card_nsmul_le_sum (t.chunks.tail.map Chunk.size) (2 ^ 20) fun size hmem => by
    obtain ⟨c, hc, rfl⟩ := mem_map.mp hmem
    exact ((h.sizes c (mem_of_mem_tail hc)).bounds hl).1
  have hneeded := h.needed
  simp only [length_map, length_tail, smul_eq_mul] at htail
  unfold cbMax chunkMax at hneeded
  omega

theorem bestIdle_mem {need : Nat} {idle : List (Nat × Nat)} {best : Option (Nat × Nat)}
    {c : Nat × Nat} (h : bestIdle need idle best = some c) : c ∈ idle ∨ best = some c := by
  induction idle generalizing best with
  | nil => exact .inr h
  | cons d rest ih =>
    cases best with
    | none =>
      rcases ih h with hmem | hbest
      · exact .inl (mem_cons_of_mem _ hmem)
      · rw [Option.ite_none_right_eq_some] at hbest
        cases hbest.2
        exact .inl mem_cons_self
    | some b =>
      rcases ih h with hmem | hbest
      · exact .inl (mem_cons_of_mem _ hmem)
      · split at hbest
        · cases hbest
          exact .inl mem_cons_self
        · exact .inr hbest

/-- A call to a pool that answers gives a chunk, or none to one who holds some. -/
theorem chunkGet_answers (hl : env.limits.Required) (he : env.Answers t) (held : List Chunk)
    (want n : Nat) :
    (held ≠ [] ∧ chunkGet env.limits held 64 want (env.pool n) (env.created n) = .ok none) ∨
      ∃ size, PoolSize env.limits size ∧
        chunkGet env.limits held 64 want (env.pool n) (env.created n) =
          .ok (some ⟨env.handed n, size, 0⟩) := by
  have hnew : ∀ size, createChunk (env.created n) size =
      .ok (some ⟨(env.created n).buffer, size, 0⟩) := by
    intro size
    rw [createChunk, if_pos (he.created n)]
  simp only [chunkGet, hl.chunkLimit]
  rw [if_neg (by decide)]
  cases hbest : bestIdle 64 (env.pool n).idle none with
  | some c =>
    rcases bestIdle_mem hbest with hmem | hnone
    · exact .inr ⟨c.2, he.sizes n c hmem, by simp [Env.handed, hbest]⟩
    · cases hnone
  | none =>
    have hhanded : env.handed n = (env.created n).buffer := by simp [Env.handed, hbest]
    simp only [hhanded, hnew]
    split
    case isTrue =>
      split
      case isTrue hheld => exact .inl ⟨hheld, rfl⟩
      case isFalse => exact .inr ⟨_, ⟨64, by rw [hl.chunkLimit]⟩, rfl⟩
    case isFalse => exact .inr ⟨_, ⟨min want (2 ^ 24), by rw [hl.chunkLimit]⟩, rfl⟩

/-! ## Finding a slot -/

/-- A decode that can go on: its chunks are possible, and the pool has none of them. -/
structure Ready (env : Env) (t : Transfer) (tick : Nat) : Prop where
  possible : t.Possible env.limits
  apart : ∀ n ≥ tick, ∀ c ∈ t.chunks, c.buffer ≠ env.handed n

theorem Ready.ticked (h : Ready env t tick) : Ready env t (tick + 1) :=
  ⟨h.possible, fun n hn => h.apart n (by omega)⟩

theorem Ready.move (h : Ready env t tick) (current : Nat) : Ready env { t with current } tick :=
  ⟨⟨h.possible.sizes, h.possible.held, h.possible.needed⟩, h.apart⟩

/-- Only the buffers and the sizes of the chunks matter. -/
theorem Ready.of_map {t' : Transfer} (h : Ready env t tick)
    (hchunks : t'.chunks.map (fun c => (c.buffer, c.size)) =
      t.chunks.map (fun c => (c.buffer, c.size))) (hheld : t'.heldBytes = t.heldBytes) :
    Ready env t' tick := by
  have hmem : ∀ c ∈ t'.chunks, ∃ d ∈ t.chunks, d.buffer = c.buffer ∧ d.size = c.size := by
    intro c hc
    have hpair := mem_map_of_mem (f := fun c : Chunk => (c.buffer, c.size)) hc
    rw [hchunks] at hpair
    obtain ⟨d, hd, heq⟩ := mem_map.mp hpair
    exact ⟨d, hd, congrArg Prod.fst heq, congrArg Prod.snd heq⟩
  have hsizes : t'.chunks.map Chunk.size = t.chunks.map Chunk.size := by
    have hsnd := congrArg (List.map Prod.snd) hchunks
    simpa [map_map, Function.comp_def] using hsnd
  refine ⟨⟨fun c hc => ?_, ?_, ?_⟩, fun n hn c hc => ?_⟩
  · obtain ⟨d, hd, -, hsize⟩ := hmem c hc
    exact hsize ▸ h.possible.sizes d hd
  · rw [hheld, hsizes, h.possible.held]
  · rw [map_tail, hsizes, ← map_tail]
    exact h.possible.needed
  · obtain ⟨d, hd, hbuffer, -⟩ := hmem c hc
    exact hbuffer ▸ h.apart n hn d hd

theorem Ready.setUsed (h : Ready env r.transfer r.tick) (used : Nat) :
    Ready env (r.setUsed used).transfer r.tick := by
  refine h.of_map ?_ rfl
  apply ext_getElem?
  intro i
  simp only [Run.setUsed, getElem?_map, getElem?_modify]
  split
  · simp [Option.map_map, Function.comp_def]
  · simp

@[simp] theorem flush_tick (blockBytes : Nat) (r : Run) : (flush blockBytes r).tick = r.tick := by
  unfold flush
  split <;> rfl

theorem Ready.reuse (blockBytes : Nat) (h : Ready env r.transfer r.tick) :
    Ready env (reuse blockBytes r).transfer (reuse blockBytes r).tick := by
  rw [show (Bc.reuse blockBytes r).tick = r.tick from flush_tick blockBytes r]
  refine h.of_map ?_ ?_
  · simp [Bc.reuse, Run.record, Function.comp_def]
  · simp [Bc.reuse, Run.record]

theorem Ready.addChunk (henv : Function.Injective env.handed) (h : Ready env r.transfer r.tick)
    (hsize : PoolSize env.limits size) (hneeded : r.transfer.heldBytes < cbMax) :
    Ready env (r.ticked.addChunk ⟨env.handed r.tick, size, 0⟩).transfer (r.tick + 1) := by
  refine ⟨⟨fun c hc => ?_, ?_, ?_⟩, fun n hn c hc => ?_⟩
  · rcases mem_cons.mp hc with rfl | hold
    · exact hsize
    · exact h.possible.sizes c hold
  · show r.transfer.heldBytes + size = _
    rw [h.possible.held]
    exact Nat.add_comm _ _
  · exact h.possible.held ▸ hneeded
  · rcases mem_cons.mp hc with rfl | hold
    · exact henv.ne (by omega)
    · exact h.apart n (by omega) c hold

def Job.roomy (job : Job) (c : Chunk) : Bool := alignUp c.used job.slotAlignment < c.size

/-- The chunks with room from the current one on. Giving one up leaves one less. -/
def Run.ahead (job : Job) (r : Run) : Nat :=
  (r.transfer.chunks.drop r.transfer.current).countP job.roomy

theorem ahead_le (job : Job) (r : Run) : r.ahead job ≤ r.transfer.chunks.length :=
  countP_le_length.trans (by simp)

theorem drop_current (h : r.chunk? = some c) :
    r.transfer.chunks.drop r.transfer.current = c :: r.transfer.chunks.drop (r.transfer.current + 1) := by
  obtain ⟨hlt, rfl⟩ := List.getElem?_eq_some_iff.mp h
  exact drop_eq_getElem_cons hlt

variable {job : Job}

theorem ahead_next (h : r.chunk? = some c) (hfull : job.roomy c = false) :
    r.next.ahead job = r.ahead job := by
  simp only [Run.ahead, drop_current h, countP_cons, hfull]
  rfl

theorem ahead_giveUp (h : r.chunk? = some c) (hroomy : job.roomy c = true) :
    (r.setUsed c.size).ahead job + 1 = r.ahead job := by
  have hafter : (r.setUsed c.size).chunk? = some { c with used := c.size } := by
    simp only [Run.chunk?, Run.setUsed, getElem?_modify] at h ⊢
    simp [h]
  have hrest : (r.setUsed c.size).transfer.chunks.drop (r.transfer.current + 1) =
      r.transfer.chunks.drop (r.transfer.current + 1) := by
    apply ext_getElem?
    intro i
    have hne : r.transfer.current ≠ r.transfer.current + 1 + i := by omega
    simp [Run.setUsed, getElem?_drop, hne]
  have hfull : job.roomy { c with used := c.size } = false := by
    have hle : c.size ≤ alignUp c.size job.slotAlignment := le_alignUp (slotAlignment_pos job)
    simpa [Job.roomy] using hle
  simp only [Run.ahead, drop_current h, drop_current hafter, countP_cons, hroomy, hfull]
  rw [show (r.setUsed c.size).transfer.current = r.transfer.current from rfl, hrest]
  rfl

theorem alignUp_zero {alignment : Nat} (h : 0 < alignment) : alignUp 0 alignment = 0 := by
  rw [alignUp, Nat.div_eq_of_lt (by omega), Nat.zero_mul]

theorem roomy_fresh (job : Job) (hused : c.used = 0) (hsize : 0 < c.size) : job.roomy c = true := by
  simpa [Job.roomy, hused, alignUp_zero (slotAlignment_pos job)] using hsize

theorem slot_roomy (want fuel : Nat) (h : r.chunk? = some c) (hroomy : job.roomy c = true) :
    slot job want (fuel + 1) r = some (r, .ok (c, alignUp c.used job.slotAlignment)) := by
  rw [Run.chunk?] at h
  simp only [slot, h]
  rw [if_pos (by simpa [Job.roomy] using hroomy)]

/-- After starting over, the first chunk is fresh. -/
theorem reuse_chunk (blockBytes : Nat) (h : r.transfer.chunks ≠ []) :
    ∃ c, (reuse blockBytes r).chunk? = some c ∧ c.used = 0 := by
  obtain ⟨c, rest, hchunks⟩ := exists_cons_of_ne_nil h
  exact ⟨{ c with used := 0 }, by simp [Run.chunk?, reuse, Run.record, hchunks], rfl⟩

/-- What `slot` finds: a chunk that is fresh, or one of those ahead. -/
structure Found (job : Job) (r r' : Run) (c : Chunk) : Prop where
  ready : Ready job.env r'.transfer r'.tick
  current : r'.chunk? = some c
  roomy : job.roomy c = true
  ahead : c.used = 0 ∨ r'.ahead job = r.ahead job
  dispatches : dispatchesOf r'.log = dispatchesOf r.log

section
variable (want fuel : Nat) (hl : job.env.limits.Required)
include hl

/-- A chunk that is put in front of the others is fresh, and the next iteration takes it. -/
theorem slot_fresh {r₁ : Run} (hc : r₁.chunk? = some c) (hused : c.used = 0)
    (hready : Ready job.env r₁.transfer r₁.tick)
    (hlog : dispatchesOf r₁.log = dispatchesOf r.log) :
    ∃ r' c, slot job want (fuel + 1) r₁ = some (r', .ok (c, alignUp c.used job.slotAlignment)) ∧
      Found job r r' c := by
  have hsize := ((hready.possible.sizes c (mem_of_getElem? hc)).bounds hl).1
  have hroomy := roomy_fresh job hused (by omega)
  exact ⟨r₁, c, slot_roomy want _ hc hroomy, hready, hc, hroomy, .inl hused, hlog⟩

theorem slot_found (he : job.env.Answers t) (h : Ready job.env r.transfer r.tick)
    (hfuel : r.transfer.chunks.length - r.transfer.current + 2 ≤ fuel) :
    ∃ r' c, slot job want fuel r = some (r', .ok (c, alignUp c.used job.slotAlignment)) ∧
      Found job r r' c := by
  induction fuel generalizing r with
  | zero => omega
  | succ fuel ih =>
    cases hc : r.chunk? with
    | some c =>
      by_cases hroomy : job.roomy c = true
      · exact ⟨r, c, slot_roomy want _ hc hroomy, h, hc, hroomy, .inr rfl, rfl⟩
      · have hlt : r.transfer.current < r.transfer.chunks.length :=
          (List.getElem?_eq_some_iff.mp hc).1
        have hahead := ahead_next hc (by simpa using hroomy)
        obtain ⟨r', c', hslot, hfound⟩ := ih (r := r.next) (h.move _)
          (by simp only [Run.next]; omega)
        refine ⟨r', c', ?_, hfound.ready, hfound.current, hfound.roomy, ?_, hfound.dispatches⟩
        · rw [Run.chunk?] at hc
          simp only [slot, hc]
          rw [if_neg (by simpa [Job.roomy] using hroomy)]
          exact hslot
        · rw [← hahead]
          exact hfound.ahead
    | none =>
      obtain ⟨fuel, rfl⟩ : ∃ k, fuel = k + 1 := ⟨fuel - 1, by omega⟩
      rw [Run.chunk?] at hc
      rw [slot]
      simp only [hc]
      by_cases hmore : r.transfer.heldBytes < cbMax
      · rw [if_pos hmore]
        rcases chunkGet_answers hl he r.transfer.chunks
          (min want (cbMax - r.transfer.heldBytes)) r.tick with
          ⟨hheld, hget⟩ | ⟨size, hsize, hget⟩
        · simp only [hget]
          obtain ⟨c, hcurrent, hused⟩ := reuse_chunk (r := r.ticked) job.blockBytes hheld
          exact slot_fresh want fuel hl hcurrent hused (Ready.reuse (r := r.ticked) _ h.ticked)
            (dispatchesOf_reuse _ r.ticked)
        · have hpossible : chunkPossible job.env.limits r.transfer.chunks
              ⟨job.env.handed r.tick, size, 0⟩ = true := by
            have hle := (hsize.bounds hl).2
            have hapart := h.apart r.tick le_rfl
            simp only [chunkPossible, hl.chunkLimit, Bool.and_eq_true, decide_eq_true_eq,
              all_eq_true]
            exact ⟨hle, hapart⟩
          simp only [hget, hpossible, if_true]
          exact slot_fresh want fuel hl rfl rfl (h.addChunk he.distinct hsize hmore) rfl
      · rw [if_neg hmore]
        have hheld : r.transfer.chunks ≠ [] := by
          intro hnil
          rw [h.possible.held, hnil] at hmore
          exact hmore (by decide)
        obtain ⟨c, hcurrent, hused⟩ := reuse_chunk (r := r) job.blockBytes hheld
        exact slot_fresh want fuel hl hcurrent hused (h.reuse _) (dispatchesOf_reuse _ r)

/-- The chunks do not depend on the limit of the descriptors. -/
theorem slot_unlimited (r : Run) : slot job.unlimited want fuel r = slot job want fuel r := by
  have hlimit : chunkLimit job.unlimited.env.limits = chunkLimit job.env.limits := by
    rw [hl.chunkLimit]
    rfl
  induction fuel generalizing r with
  | zero => rfl
  | succ fuel ih =>
    simp only [slot, ih, chunkGet, chunkPossible, hlimit]
    rfl

end

/-! ## Cutting a band -/

/-- A slot with room for a row gives a band of the region's width. -/
theorem fit_row {used : Bool} (hpos : 0 < width) (hrow : blocksOf width ≤ available)
    (hsmall : available < 2 ^ 30) :
    fit width height available used 0 = some (width, min height (available / blocksOf width * 4)) := by
  have hwide : ¬available * 4 < width := by
    have := blocksOf_le.mp hrow
    omega
  have hle : available / blocksOf width ≤ available := Nat.div_le_self _ _
  have hmod : available / blocksOf width * 4 % 2 ^ 32 = available / blocksOf width * 4 := by omega
  rw [fit, if_neg (by omega), if_neg (by omega)]
  simp only [hwide, if_false, hmod, ne_eq, not_true_eq_false, false_and, lt_irrefl]
  congr 2
  split <;> omega

theorem fit_giveUp {used : Bool} (hused : used = true) (hrow : available < blocksOf width) :
    fit width height available used 0 = none := by
  unfold fit
  split
  case isTrue => rfl
  case isFalse => rw [if_pos ⟨rfl, hrow, hused⟩]

/-- The bytes of the backing buffer from the base of a descriptor to the end of a band. -/
def Job.bandRange (job : Job) (layer y height : Nat) : Nat :=
  job.source layer y 0 % job.alignment +
    (blocksOf height - 1) * (job.image.rowBlocks job.region.mipLevel * job.image.blockBytes) +
      blocksOf job.width * job.image.blockBytes

def Job.bandBinding (job : Job) (layer y height : Nat) : Binding where
  base := job.source layer y 0 - job.source layer y 0 % job.alignment
  offset := job.source layer y 0 % job.alignment
  range := job.bandRange layer y height
  width := job.width

def Job.bandPush (job : Job) (layer y height : Nat) : Push :=
  let r := job.decoding (job.bandBinding layer y height) height
  { sourceWord := r.sourceOffset / 4
    rowBlocks := blocksOf r.row
    layerBlocks := blocksOf r.row * blocksOf r.rows
    flags := pushFlags r
    destinationWord := r.destinationOffset / 4
    width := r.width
    height := r.height }

/-- Where a row of the region can be bound, a band is bound if its range is allowed. -/
theorem bind_band (hbytes : 0 < job.image.blockBytes) (hwidth : 0 < job.width)
    (hrow : job.source layer y 0 % job.alignment + blocksOf job.width * job.image.blockBytes ≤
      job.env.limits.maxStorageBufferRange.toNat) :
    job.bind layer y 0 job.width height =
      if job.env.limits.maxStorageBufferRange.toNat < job.bandRange layer y height then
        .error .errorFormatNotSupported
      else .ok (job.bandBinding layer y height) := by
  have hblocks := blocksOf_pos hwidth
  have hpos : 0 < blocksOf job.width * job.image.blockBytes := Nat.mul_pos hblocks hbytes
  have havailable : blocksOf job.width ≤
      (job.env.limits.maxStorageBufferRange.toNat - job.source layer y 0 % job.alignment) /
        job.image.blockBytes :=
    (Nat.le_div_iff_mul_le hbytes).mpr (by omega)
  simp only [Job.bind]
  rw [if_neg (by omega), if_neg (by omega)]
  simp only [if_neg (Nat.not_lt.mpr havailable)]
  rfl

/-! ## Accepted images -/

/-- The blocks of an image have a decoder, with a size that fits a chunk many times. -/
structure Image.Decodable (image : Image) : Prop where
  bytesPos : 0 < outputBlockBytes (formatRepresentation image)
  bytesLe : outputBlockBytes (formatRepresentation image) ≤ 128
  packed : packedMismatch (formatRepresentation image) = false

variable {info : ImageCreateInfo} {image : Image} {outputFormat : Nat}

theorem chooseFormat_cases (rgbMask : Nat)
    (houtput : outputFormat = 0 ∨ outputFormat = transcodeFormat info.format) :
    chooseFormat info rgbMask outputFormat = imageFormat info.format ∨
      chooseFormat info rgbMask outputFormat = transcodeFormat info.format ∨
      info.format = 131 ∧ chooseFormat info rgbMask outputFormat = 4 ∨
      info.format = 133 ∧ chooseFormat info rgbMask outputFormat = 8 := by
  unfold chooseFormat
  split
  case isTrue hne => exact .inr (.inl (houtput.resolve_left hne))
  case isFalse =>
  split
  case isTrue => exact .inl rfl
  case isFalse =>
  split
  case isTrue hrgb => exact .inr (.inr (.inl ⟨hrgb.1, rfl⟩))
  case isFalse =>
  split
  case isTrue hrgba => exact .inr (.inr (.inr ⟨hrgba.1, rfl⟩))
  case isFalse => exact .inl rfl

theorem createImage_spec {rgbMask : Nat} (h : createImage info rgbMask outputFormat = .ok image) :
    ∃ described, describe info = .ok described ∧
      image = { described with decodedFormat := chooseFormat info rgbMask outputFormat } := by
  unfold createImage at h
  split at h
  case h_1 => cases h
  case h_2 described hdescribe => exact ⟨described, hdescribe, (Except.ok.inj h).symm⟩

theorem describe_shape (h : describe info = .ok image) :
    image.format = info.format ∧ image.extent = info.extent := by
  simp only [describe, ite_error_eq_ok] at h
  obtain ⟨-, -, -, h⟩ := h
  have hshape := (layoutLevels_spec (Packed.zero rfl rfl) h).2
  exact ⟨hshape.format, hshape.extent⟩

theorem createImage_decodable {rgbMask : Nat}
    (houtput : outputFormat = 0 ∨ outputFormat = transcodeFormat info.format)
    (h : createImage info rgbMask outputFormat = .ok image) : image.Decodable := by
  obtain ⟨described, hdescribe, rfl⟩ := createImage_spec h
  obtain ⟨hlow, hhigh⟩ := (describe_spec hdescribe).1.format
  have hcases := chooseFormat_cases rgbMask houtput
  rw [← (describe_shape hdescribe).1] at hcases
  -- Only the two formats matter; the table of variants is read at each of them.
  have htable : ∀ format decoded, 131 ≤ format → format ≤ 146 →
      (decoded = imageFormat format ∨ decoded = transcodeFormat format ∨
        format = 131 ∧ decoded = 4 ∨ format = 133 ∧ decoded = 8) →
      Image.Decodable { tinyImage with format := format, decodedFormat := decoded } := by
    intro format decoded hlow hhigh hcases
    rcases hcases with rfl | rfl | ⟨rfl, rfl⟩ | ⟨rfl, rfl⟩
    · interval_cases format <;> exact ⟨by decide, by decide, by decide⟩
    · interval_cases format <;> exact ⟨by decide, by decide, by decide⟩
    · exact ⟨by decide, by decide, by decide⟩
    · exact ⟨by decide, by decide, by decide⟩
  obtain ⟨hpos, hle, hpacked⟩ := htable described.format _ hlow hhigh hcases
  exact ⟨hpos, hle, hpacked⟩

/-- The levels are laid out in whole blocks. -/
theorem layoutLevels_dvd {image' : Image} {left : Nat} (hsize : image.blockBytes ∣ image.blockSize)
    (hoffsets : ∀ offset ∈ image.mipOffset, image.blockBytes ∣ offset)
    (hlayout : layoutLevels image mip left = .ok image') :
    ∀ offset ∈ image'.mipOffset, image'.blockBytes ∣ offset := by
  induction left generalizing image mip with
  | zero =>
    cases hlayout
    exact hoffsets
  | succ left ih =>
    simp only [layoutLevels, ite_error_eq_ok] at hlayout
    obtain ⟨-, -, hlayout⟩ := hlayout
    refine ih (Nat.dvd_add hsize ?_) (fun offset hmem => ?_) hlayout
    · exact ((Nat.dvd_mul_left _ _).mul_right _).mul_right _
    · rcases mem_append.mp hmem with hold | hnew
      · exact hoffsets offset hold
      · rwa [mem_singleton.mp hnew]

theorem describe_dvd (h : describe info = .ok image) (mip : Nat) :
    image.blockBytes ∣ image.mipOffset.getD mip 0 := by
  simp only [describe, ite_error_eq_ok] at h
  obtain ⟨-, -, -, hlayout⟩ := h
  have hall := layoutLevels_dvd (Nat.dvd_zero _) (fun _ hmem => (not_mem_nil hmem).elim) hlayout
  rw [getD_eq_getElem?_getD]
  cases hget : image.mipOffset[mip]? with
  | none => exact Nat.dvd_zero _
  | some offset => exact hall offset (mem_of_getElem? hget)

/-! ## A band is decoded -/

/-- An upload that a device with the required limits can be asked for. -/
structure Job.Asked (job : Job) : Prop where
  limits : job.env.limits.Required
  bounds : job.InBounds
  decodable : job.image.Decodable
  wide : job.image.extent.width.toNat ≤ 16384
  tall : job.image.extent.height.toNat ≤ 16384

section
variable (h : job.Asked)
include h

theorem Job.Asked.levelExtent : job.image.levelExtent job.region.mipLevel =
    ⟨levelSide job.image.extent.width job.region.mipLevel,
      levelSide job.image.extent.height job.region.mipLevel,
      levelSide job.image.extent.depth job.region.mipLevel⟩ := by
  rw [Image.levelExtent, if_neg (Nat.not_le.mpr h.bounds.mip)]

theorem Job.Asked.levelWidth : 0 < (job.image.levelExtent job.region.mipLevel).width ∧
    (job.image.levelExtent job.region.mipLevel).width ≤ 16384 := by
  rw [h.levelExtent]
  exact ⟨levelSide_pos _ _, levelSide_le h.wide (by decide) _⟩

theorem Job.Asked.levelHeight : (job.image.levelExtent job.region.mipLevel).height ≤ 16384 := by
  rw [h.levelExtent]
  exact levelSide_le h.tall (by decide) _

theorem Job.Asked.width_le :
    job.width ≤ (job.image.levelExtent job.region.mipLevel).width := by
  have hleft := h.bounds.left
  have hright := h.bounds.right
  omega

theorem Job.Asked.height_le : job.height ≤ 16384 := by
  have htop := h.bounds.top
  have hbottom := h.bounds.bottom
  have hlevel := h.levelHeight
  omega

theorem Job.Asked.blockBytes : job.image.blockBytes = 8 ∨ job.image.blockBytes = 16 := by
  rw [h.bounds.described.blockBytes, formatBlockBytes]
  split
  · exact .inl rfl
  · exact .inr rfl

theorem Job.Asked.blockBytes_pos : 0 < job.image.blockBytes := by
  rcases h.blockBytes with hbytes | hbytes <;> omega

theorem Job.Asked.alignment : ∃ k ≤ 8, job.alignment = 2 ^ k := by
  obtain ⟨k, hk⟩ := h.limits.alignment
  have hle := job.env.limits.alignmentLe
  rw [hk] at hle
  refine ⟨k, (Nat.pow_le_pow_iff_right (by decide : 1 < 2)).mp (hle.trans_eq (by decide)), ?_⟩
  rw [Job.alignment, hk, if_neg (Nat.pow_pos (by decide)).ne']

theorem Job.Asked.source_dvd (layer y x : Nat) : 8 ∣ job.source layer y x := by
  have hbytes : 8 ∣ job.image.blockBytes := by
    rcases h.blockBytes with hbytes | hbytes
    · rw [hbytes]
    · rw [hbytes]
      decide
  have hmip : 8 ∣ job.image.mipOffset.getD job.region.mipLevel 0 := by
    obtain ⟨info, image, hdescribe, heq⟩ := h.bounds.accepted
    rw [heq] at hbytes ⊢
    exact hbytes.trans (describe_dvd hdescribe _)
  refine (Nat.dvd_mod_iff (by decide)).mpr
    (Nat.dvd_add (Nat.dvd_add (Nat.dvd_add hmip ?_) ?_) ?_)
  · exact (hbytes.mul_left _).mul_left _
  · exact (hbytes.mul_left _).mul_left _
  · exact hbytes.mul_left _

/-- The source of a band starts with a block, so its offset from an aligned base is a number of
words. -/
theorem Job.Asked.offset (layer y x : Nat) :
    job.source layer y x % job.alignment % 4 = 0 ∧ job.source layer y x % job.alignment < 256 := by
  have hdvd := h.source_dvd layer y x
  obtain ⟨k, hk, halignment⟩ := h.alignment
  have hpow : 2 ^ k ≤ 2 ^ 8 := Nat.pow_le_pow_right (by decide) hk
  rw [halignment]
  refine ⟨?_, by omega⟩
  rcases Nat.lt_or_ge k 2 with hsmall | hlarge
  · have hzero : job.source layer y x % 2 ^ k = 0 :=
      Nat.mod_eq_zero_of_dvd ((Nat.pow_dvd_pow 2 (show k ≤ 3 by omega)).trans hdvd)
    rw [hzero]
  · rw [Nat.mod_mod_of_dvd _ (Nat.pow_dvd_pow 2 hlarge)]
    omega

/-- A row of the region can always be bound. -/
theorem Job.Asked.row_range (layer y : Nat) :
    job.source layer y 0 % job.alignment + blocksOf job.width * job.image.blockBytes ≤
      job.env.limits.maxStorageBufferRange.toNat := by
  have hoffset := (h.offset layer y 0).2
  have hrange := h.limits.range
  have hwidth := h.width_le
  have hlevel := h.levelWidth.2
  have hblocks : blocksOf job.width ≤ 4096 := blocksOf_le.mpr (by omega)
  rcases h.blockBytes with hbytes | hbytes <;> rw [hbytes] <;> omega

theorem Job.Asked.decoding_row {b : Binding} :
    (job.decoding b height).rowLength = 4 * job.image.rowBlocks job.region.mipLevel ∧
      (job.decoding b height).row = 4 * job.image.rowBlocks job.region.mipLevel := by
  obtain ⟨hpos, hle⟩ := h.levelWidth
  have hlength : (job.decoding b height).rowLength =
      4 * job.image.rowBlocks job.region.mipLevel := by
    simp only [Job.decoding, Image.rowBlocks, blocksOf]
    omega
  refine ⟨hlength, ?_⟩
  rw [Region.row, if_pos, hlength]
  rw [hlength, Image.rowBlocks, blocksOf]
  omega

/-- The decoder accepts every band that is bound. -/
theorem Job.Asked.prepare (hwidth : 0 < job.width) (hheight : 0 < height) (hle : height ≤ 16384)
    (hrange : job.bandRange layer y height ≤ job.env.limits.maxStorageBufferRange.toNat)
    (hroom : blocksOf job.width * blocksOf height * job.blockBytes ≤ 2 ^ 24) :
    Bc.prepare (job.decoding (job.bandBinding layer y height) height) job.env.limits =
      .ok (job.bandPush layer y height) := by
  set b := job.bandBinding layer y height with hb
  set r := job.decoding b height with hr
  obtain ⟨hlength, hrow⟩ : r.rowLength = 4 * job.image.rowBlocks job.region.mipLevel ∧
      r.row = 4 * job.image.rowBlocks job.region.mipLevel := h.decoding_row
  have hrows : r.rows = height := by simp [hr, Region.rows, Job.decoding, formatRepresentation]
  obtain ⟨f, hf⟩ : ∃ f, family r.format = some f := by
    obtain ⟨hlow, hhigh⟩ := h.bounds.described.format
    rw [show r.format = job.image.format from rfl, family, if_neg (by omega)]
    exact ⟨_, rfl⟩
  have hinput : inputBytes f = job.image.blockBytes := by
    have hbytes := h.bounds.described.inputBytes
    rwa [show family job.image.format = some f from hf] at hbytes
  have hblocks : blocksOf r.row = job.image.rowBlocks job.region.mipLevel := by
    rw [blocksOf]
    omega
  have hsource : r.sourceOffset + r.sourceBytes f = r.sourceRange := by
    rw [Region.sourceBytes, hblocks, hinput]
    simp only [hr, hb, Job.decoding, Job.bandBinding, Job.bandRange]
    ring
  have hdestination : r.destinationBytes = r.destinationRange := by
    rw [Region.destinationBytes, show r.layers = 1 from rfl, Nat.mul_one]
    rfl
  have hoffset : r.sourceOffset % 4 = 0 := (h.offset layer y 0).1
  have hsourceLe : r.sourceRange ≤ job.env.limits.maxStorageBufferRange.toNat := hrange
  have hdestinationLe : r.destinationRange ≤ 2 ^ 24 := hroom
  have hlimit := h.limits.range
  have hmax := job.env.limits.maxStorageBufferRange.toNat_lt
  obtain ⟨hgroupsX, hgroupsY, hgroupsZ⟩ := h.limits.groups
  obtain ⟨hsizeX, hsizeY⟩ := h.limits.groupSize
  have hinvocations := h.limits.invocations
  obtain ⟨-, hlevel⟩ := h.levelWidth
  have hinside := h.width_le
  have hrowBlocks : job.image.rowBlocks job.region.mipLevel ≤ 4096 := blocksOf_le.mpr (by omega)
  have hwidthRow : job.width ≤ 4 * job.image.rowBlocks job.region.mipLevel :=
    blocksOf_le.mp (by unfold Image.rowBlocks blocksOf; omega)
  have hcolumns : blocksOf job.width ≤ 4096 := blocksOf_le.mpr (by omega)
  have hheightBlocks : blocksOf height ≤ 4096 := blocksOf_le.mpr (by omega)
  have harea : blocksOf r.row * blocksOf r.rows ≤ 4096 * 4096 := by
    rw [hblocks]
    exact Nat.mul_le_mul hrowBlocks hheightBlocks
  simp only [Bc.prepare, hf]
  rw [if_neg (by simp [show packedMismatch r = false from h.decodable.packed])]
  rw [if_neg (show ¬outputBlockBytes r = 0 from h.decodable.bytesPos.ne')]
  have hzero : r.destinationOffset = 0 := rfl
  have hlayers : r.layers = 1 := rfl
  have himage : r.imageHeight = 0 := rfl
  have hrwidth : r.width = job.width := rfl
  have hrheight : r.height = height := rfl
  simp only [hdestination, hrows, hrow, hlength, hzero, hlayers, himage, hrwidth, hrheight,
    Nat.div_one] at harea ⊢
  unfold uint32Max
  rw [if_neg (by omega), if_neg (by omega), if_neg (by omega), if_neg (by omega)]
  simp only [Job.bandPush, ← hb, ← hr, hrows, hrow, hrwidth, hrheight, hzero]

/-- A fresh chunk has room for a row of any level. -/
theorem Job.Asked.fresh_row (hsize : 2 ^ 20 ≤ c.size) (hused : c.used = 0) :
    blocksOf job.width ≤ (c.size - alignUp c.used job.slotAlignment) / job.blockBytes := by
  have hlevel := h.levelWidth.2
  have hinside := h.width_le
  have hcolumns : blocksOf job.width ≤ 4096 := blocksOf_le.mpr (by omega)
  have hbytes : job.blockBytes ≤ 128 := h.decodable.bytesLe
  have hpos : 0 < job.blockBytes := h.decodable.bytesPos
  rw [hused, alignUp_zero (slotAlignment_pos job), Nat.le_div_iff_mul_le hpos]
  calc blocksOf job.width * job.blockBytes ≤ 4096 * 128 := Nat.mul_le_mul hcolumns hbytes
    _ ≤ c.size := by omega

end

@[simp] theorem flushFull_tick (blockBytes : Nat) (r : Run) :
    (r.flushFull blockBytes).tick = r.tick := by
  unfold Run.flushFull
  split
  · exact flush_tick blockBytes r
  · rfl

/-- The band of a height, written to a chunk. -/
def Job.bandPiece (job : Job) (layer y height : Nat) (chunk : Chunk) (destination : Nat) : Piece :=
  ⟨layer, y, 0, height, job.bandBinding layer y height, chunk, destination, job.bandPush layer y height⟩

def Run.putBand (r : Run) (job : Job) (layer y height : Nat) (chunk : Chunk) (destination : Nat) :
    Run :=
  (r.ticked.put job (job.bandPiece layer y height chunk destination)).flushFull job.blockBytes

theorem Ready.putBand (h : Ready job.env r.transfer r.tick) (layer y height : Nat) (chunk : Chunk)
    (destination : Nat) :
    Ready job.env (r.putBand job layer y height chunk destination).transfer
      (r.putBand job layer y height chunk destination).tick := by
  simp only [Run.putBand, flushFull_transfer, flushFull_tick]
  exact (h.setUsed _).ticked

theorem within_putBand (layer y height : Nat) (chunk : Chunk) (destination limit : Nat) :
    (r.putBand job layer y height chunk destination).Within limit ↔
      r.Within limit ∧ job.bandRange layer y height ≤ limit := by
  have hdispatches : dispatchesOf (r.putBand job layer y height chunk destination).log =
      dispatchesOf r.log ++ [(job.bandPiece layer y height chunk destination).dispatch job] := by
    rw [Run.putBand, dispatchesOf_flushFull]
    rfl
  simp only [Run.Within, hdispatches, forall_mem_append, forall_mem_singleton]
  rfl

/-- The height of the band that `available` blocks hold. -/
def Job.cutHeight (job : Job) (y available : Nat) : Nat :=
  min (job.height - y) (available / blocksOf job.width * 4)

theorem bandHeight_cut (hy : y < job.height) (hwidth : 0 < job.width)
    (hrow : blocksOf job.width ≤ available) :
    BandHeight job y (job.cutHeight y available) ∧
      blocksOf job.width * blocksOf (job.cutHeight y available) ≤ available := by
  have hrows : 0 < available / blocksOf job.width := Nat.div_pos hrow (blocksOf_pos hwidth)
  unfold Job.cutHeight
  refine ⟨⟨by omega, by omega, by omega⟩, ?_⟩
  calc blocksOf job.width * blocksOf (min (job.height - y) (available / blocksOf job.width * 4))
      ≤ blocksOf job.width * (available / blocksOf job.width) :=
        Nat.mul_le_mul_left _ (blocksOf_le.mpr (by omega))
    _ ≤ available := Nat.mul_div_le _ _

/-- Every band that fits a chunk can be bound. -/
def Job.RangesAllowed (job : Job) : Prop :=
  0 < job.width → ∀ layer < job.slices, ∀ y height, BandHeight job y height → y % 4 = 0 →
    blocksOf job.width * blocksOf height * job.blockBytes ≤ chunkMax →
    job.bandRange layer y height ≤ job.env.limits.maxStorageBufferRange.toNat

/-- A slot without room for a row is given up. -/
theorem rowBand_retry {wanted start : Nat} {r₁ : Run} (hwidth : 0 < job.width)
    (hslot : slot job wanted (fuel + 1) r = some (r₁, .ok (c, start))) (hused : c.used ≠ 0)
    (hrow : (c.size - start) / job.blockBytes < blocksOf job.width) :
    rowBand job layer y (fuel + 1) 0 0 height wanted r =
      rowBand job layer y fuel 0 0 height wanted (r₁.setUsed c.size) := by
  rw [rowBand, if_neg (Nat.not_le.mpr hwidth)]
  simp only [hslot, Nat.sub_zero, fit_giveUp (decide_eq_true hused) hrow]

/-! ## The decode without the limit -/

/-- A part of the decode without the limit ends well. With the limit it is the same if all
dispatches are within it, and otherwise fails. -/
def Agree {α : Type} (job : Job) (P : Run → α → Prop) (r : Run)
    (free limited : Option (Run × Except VkResult α)) : Prop :=
  let limit := job.env.limits.maxStorageBufferRange.toNat
  ∃ r' a, free = some (r', .ok a) ∧ P r' a ∧ (r'.Within limit → r.Within limit) ∧
    (job.RangesAllowed → r.Within limit → r'.Within limit) ∧
    (r'.Within limit → limited = free) ∧
    (r.Within limit → ¬r'.Within limit → ∃ r₂ e, limited = some (r₂, .error e))

section
variable {α β : Type} {P : Run → α → Prop} {Q : Run → β → Prop} {r₁ : Run} {a : α}
  {free limited : Option (Run × Except VkResult α)}
  {free' limited' : Option (Run × Except VkResult β)}

theorem Agree.same (h : P r a) : Agree job P r (some (r, .ok a)) (some (r, .ok a)) :=
  ⟨r, a, rfl, h, id, fun _ => id, fun _ => rfl, fun hin hout => absurd hin hout⟩

theorem Agree.of_dispatches (h : Agree job P r₁ free limited)
    (heq : dispatchesOf r₁.log = dispatchesOf r.log) : Agree job P r free limited := by
  simpa only [Agree, Run.Within, heq] using h

/-- One part after the other. -/
theorem Agree.bind (h : Agree job P r free limited)
    (hok : ∀ r₁ a, P r₁ a → free = some (r₁, .ok a) →
      ∃ next, Agree job Q r₁ free' next ∧ (limited = free → limited' = next))
    (herror : ∀ r₂ e, limited = some (r₂, .error e) → ∃ r₂ e, limited' = some (r₂, .error e)) :
    Agree job Q r free' limited' := by
  obtain ⟨r₁, a, hfree, hP, hback, hranges, hsame, hfails⟩ := h
  obtain ⟨next, ⟨r', b, hfree', hQ, hback', hranges', hsame', hfails'⟩, hnext⟩ :=
    hok r₁ a hP hfree
  refine ⟨r', b, hfree', hQ, fun hin => hback (hback' hin),
    fun hall hin => hranges' hall (hranges hall hin), fun hin => ?_, fun hin hout => ?_⟩
  · exact (hnext (hsame (hback' hin))).trans (hsame' hin)
  · by_cases hin₁ : r₁.Within job.env.limits.maxStorageBufferRange.toNat
    · obtain ⟨r₂, e, heq⟩ := hfails' hin₁ hout
      exact ⟨r₂, e, (hnext (hsame hin₁)).trans heq⟩
    · obtain ⟨r₂, e, heq⟩ := hfails hin hin₁
      exact herror r₂ e heq

end

section
variable (h : job.Asked) (he : job.env.Answers t)
include h

theorem Job.Asked.unlimited : job.unlimited.Asked where
  limits :=
    { range := show 2 ^ 27 ≤ (0xFFFFFFFF : UInt32).toNat by decide
      alignment := h.limits.alignment
      groups := h.limits.groups
      groupSize := h.limits.groupSize
      invocations := h.limits.invocations }
  bounds := ⟨h.bounds.accepted, h.bounds.mip, h.bounds.left, h.bounds.top, h.bounds.xBlock,
    h.bounds.yBlock, h.bounds.right, h.bounds.bottom, h.bounds.depths, h.bounds.layers⟩
  decodable := h.decodable
  wide := h.wide
  tall := h.tall

/-- Without the limit every band can be bound. -/
theorem Job.Asked.bandRange_le (hheight : height ≤ 16384) (layer y : Nat) :
    job.bandRange layer y height ≤ job.unlimited.env.limits.maxStorageBufferRange.toNat := by
  have hoffset := (h.offset layer y 0).2
  have hrow : job.image.rowBlocks job.region.mipLevel ≤ 4096 := blocksOf_le.mpr h.levelWidth.2
  have hcolumns : blocksOf job.width ≤ 4096 := blocksOf_le.mpr (h.width_le.trans h.levelWidth.2)
  have hrows : blocksOf height - 1 ≤ 4096 :=
    (Nat.sub_le _ _).trans (blocksOf_le.mpr (by omega))
  have hbytes : job.image.blockBytes ≤ 16 := by
    rcases h.blockBytes with hbytes | hbytes <;> omega
  calc job.bandRange layer y height ≤ 256 + 4096 * (4096 * 16) + 4096 * 16 :=
        Nat.add_le_add (Nat.add_le_add hoffset.le (Nat.mul_le_mul hrows (Nat.mul_le_mul hrow hbytes)))
          (Nat.mul_le_mul hcolumns hbytes)
    _ ≤ (0xFFFFFFFF : UInt32).toNat := by decide

/-- A slot with room for a row: the band is recorded if it can be bound. -/
theorem rowBand_cut (layer height : Nat) {wanted start : Nat} {r₁ : Run}
    (hdescriptors : ∀ n, job.env.descriptors n = .success)
    (hpipeline : ∀ n, job.env.pipeline n = .success) (hwidth : 0 < job.width) (hy : y < job.height)
    (hslot : slot job wanted (fuel + 2) r = some (r₁, .ok (c, start))) (hsize : c.size ≤ 2 ^ 24)
    (hrow : blocksOf job.width ≤ (c.size - start) / job.blockBytes) :
    let cut := job.cutHeight y ((c.size - start) / job.blockBytes)
    rowBand job layer y (fuel + 2) 0 0 height wanted r =
      if job.env.limits.maxStorageBufferRange.toNat < job.bandRange layer y cut then
        some (r₁, .error .errorFormatNotSupported)
      else some (r₁.putBand job layer y cut c start,
        .ok (cut, wanted - blocksOf job.width * blocksOf cut * job.blockBytes)) := by
  intro cut
  have havailable : (c.size - start) / job.blockBytes ≤ c.size :=
    (Nat.div_le_self _ _).trans (Nat.sub_le _ _)
  obtain ⟨hband, harea⟩ := bandHeight_cut hy hwidth hrow
  have hbytes := ((bytes_le harea).trans (Nat.sub_le _ _)).trans hsize
  have htall := hband.le.trans h.height_le
  have hfit : fit job.width (job.height - y) ((c.size - start) / job.blockBytes)
      (decide (c.used ≠ 0)) 0 = some (job.width, cut) := fit_row hwidth hrow (by omega)
  rw [rowBand, if_neg (Nat.not_le.mpr hwidth)]
  simp only [hslot, Nat.sub_zero, hfit, bind_band h.blockBytes_pos hwidth (h.row_range layer y)]
  by_cases hlarge : job.env.limits.maxStorageBufferRange.toNat < job.bandRange layer y cut
  · simp only [if_pos hlarge]
  · have hprepare :=
      h.prepare hwidth (show 0 < cut from hband.pos) (by omega) (Nat.not_lt.mp hlarge) hbytes
    simp only [if_neg hlarge, recordPiece, hprepare, hdescriptors, hpipeline, ne_eq,
      not_true_eq_false, if_false]
    rw [rowBand, if_pos (by simp [Job.bandBinding])]
    rfl

include he

theorem rowBand_agree (wanted : Nat) (hlayer : layer < job.slices) (hblock : y % 4 = 0)
    (hheight : BandHeight job y height) (hready : Ready job.env r.transfer r.tick)
    (hfuel : r.ahead job + 20 ≤ fuel) :
    Agree job (fun r' a => Ready job.env r'.transfer r'.tick ∧ BandHeight job y a.1) r
      (rowBand job.unlimited layer y fuel 0 0 height wanted r)
      (rowBand job layer y fuel 0 0 height wanted r) := by
  induction fuel generalizing r with
  | zero => omega
  | succ fuel ih =>
    rcases Nat.eq_zero_or_pos job.width with hempty | hwidth
    · rw [rowBand, rowBand, if_pos hempty.le, if_pos (show job.unlimited.width ≤ 0 from hempty.le)]
      exact .same ⟨hready, hheight⟩
    have hlength := hready.possible.length_le h.limits
    obtain ⟨r₁, c, hslot, hfound⟩ := slot_found wanted (fuel + 1) h.limits he hready
      (by omega)
    have hslot' := (slot_unlimited wanted (fuel + 1) h.limits r).trans hslot
    obtain ⟨hsizeGe, hsizeLe⟩ :=
      (hfound.ready.possible.sizes c (mem_of_getElem? hfound.current)).bounds h.limits
    refine Agree.of_dispatches ?_ hfound.dispatches
    by_cases hrow : blocksOf job.width ≤
        (c.size - alignUp c.used job.slotAlignment) / job.blockBytes
    · have hy : y < job.height := by
        have hpos := hheight.pos
        have hle := hheight.le
        omega
      obtain ⟨fuel, rfl⟩ : ∃ k, fuel = k + 1 := ⟨fuel - 1, by omega⟩
      obtain ⟨hband, harea⟩ := bandHeight_cut hy hwidth hrow
      have hbytes := ((bytes_le harea).trans (Nat.sub_le _ _)).trans hsizeLe
      have htall := hband.le.trans h.height_le
      set cut := job.cutHeight y ((c.size - alignUp c.used job.slotAlignment) / job.blockBytes)
      have hlimited := rowBand_cut h layer height he.descriptors he.pipeline hwidth hy hslot hsizeLe hrow
      have hfree : rowBand job.unlimited layer y (fuel + 2) 0 0 height wanted r =
          some (r₁.putBand job layer y cut c (alignUp c.used job.slotAlignment),
            .ok (cut, wanted - blocksOf job.width * blocksOf cut * job.blockBytes)) :=
        (rowBand_cut h.unlimited layer height he.descriptors he.pipeline hwidth hy hslot' hsizeLe
          hrow).trans
          (if_neg (Nat.not_lt.mpr (h.bandRange_le (show cut ≤ 16384 by omega) layer y)))
      refine ⟨_, _, hfree, ⟨hfound.ready.putBand layer y _ c _, hband⟩,
        fun hin => ((within_putBand ..).mp hin).1,
        fun hall hin => (within_putBand ..).mpr ⟨hin, ?_⟩, fun hin => ?_, fun hin hout => ?_⟩
      · exact hall hwidth layer hlayer y _ hband hblock hbytes
      · rw [hfree, hlimited, if_neg (Nat.not_lt.mpr ((within_putBand ..).mp hin).2)]
      · rw [hlimited, if_pos]
        · exact ⟨_, _, rfl⟩
        · exact Nat.not_le.mp fun hle => hout ((within_putBand ..).mpr ⟨hin, hle⟩)
    · have hused : c.used ≠ 0 := fun hzero => hrow (h.fresh_row hsizeGe hzero)
      have hahead := ahead_giveUp hfound.current hfound.roomy
      have hsame := hfound.ahead.resolve_left hused
      rw [rowBand_retry hwidth hslot hused (Nat.not_le.mp hrow),
        rowBand_retry (show 0 < job.unlimited.width from hwidth) hslot' hused (Nat.not_le.mp hrow)]
      exact ih (r := r₁.setUsed c.size) (hfound.ready.setUsed c.size) (by omega)

theorem bands_agree (wanted : Nat) (hlayer : layer < job.slices)
    (hblock : y % 4 = 0 ∨ y = job.height) (hready : Ready job.env r.transfer r.tick)
    (hfuel : job.height - y + 40 ≤ fuel) :
    Agree job (fun r' _ => Ready job.env r'.transfer r'.tick) r
      (bands job.unlimited layer fuel y wanted r) (bands job layer fuel y wanted r) := by
  induction fuel generalizing y wanted r with
  | zero => omega
  | succ fuel ih =>
    rw [bands, bands, show job.unlimited.height = job.height from rfl]
    by_cases hdone : job.height ≤ y
    · rw [if_pos hdone, if_pos hdone]
      exact .same hready
    · rw [if_neg hdone, if_neg hdone]
      have hahead := ahead_le job r
      have hlength := hready.possible.length_le h.limits
      have hrow := rowBand_agree h he wanted hlayer (show y % 4 = 0 by omega)
        (show BandHeight job y (job.height - y) from ⟨by omega, by omega, by omega⟩) hready
        (show _ ≤ fuel + 1 by omega)
      refine hrow.bind (fun r₁ a hends hfree => ?_) fun r₂ e heq => ?_
      · obtain ⟨hready₁, hband⟩ := hends
        have hpos := hband.pos
        have hwhole := hband.whole
        refine ⟨bands job layer fuel (y + a.1) a.2 r₁, ?_, fun heq => ?_⟩
        · rw [hfree]
          exact ih a.2 (by omega) hready₁ (by omega)
        · rw [heq, hfree]
      · rw [heq]
        exact ⟨r₂, e, rfl⟩

theorem decodeSlices_agree {left : Nat} (hlayers : layer + left = job.slices)
    (hready : Ready job.env r.transfer r.tick) (hfuel : job.height + 40 ≤ fuel) :
    Agree job (fun _ _ => True) r (decodeSlices job.unlimited fuel left layer r)
      (decodeSlices job fuel left layer r) := by
  induction left generalizing layer r with
  | zero => exact .same trivial
  | succ left ih =>
    have hbands := bands_agree h he
      (blocksOf job.width * blocksOf job.height * job.blockBytes % 2 ^ 64)
      (show layer < job.slices by omega) (.inl (Nat.zero_mod 4)) hready hfuel
    rw [decodeSlices, decodeSlices, show job.unlimited.width = job.width from rfl,
      show job.unlimited.height = job.height from rfl,
      show job.unlimited.blockBytes = job.blockBytes from rfl]
    refine hbands.bind (fun r₁ _ hready₁ hfree => ?_) fun r₂ e heq => ?_
    · refine ⟨decodeSlices job fuel left (layer + 1) r₁, ?_, fun heq => ?_⟩
      · rw [hfree]
        exact ih (by omega) hready₁
      · rw [heq, hfree]
    · rw [heq]
      exact ⟨r₂, e, rfl⟩

theorem decode_agree (hpossible : t.Possible job.env.limits) (hfuel : job.height + 40 ≤ fuel) :
    Agree job (fun _ _ => True) (.begin t) (decode job.unlimited fuel t) (decode job fuel t) := by
  have hpos : 0 < job.blockBytes := h.decodable.bytesPos
  have hslices := decodeSlices_agree (r := .begin t) h he (Nat.zero_add _)
    ⟨hpossible, fun n _ => he.apart n⟩ hfuel
  rw [decode, decode, if_neg hpos.ne', if_neg (show job.unlimited.blockBytes ≠ 0 from hpos.ne')]
  refine hslices.bind (fun r₁ _ _ hfree => ?_) fun r₂ e heq => ?_
  · refine ⟨some (flush job.blockBytes r₁, .ok ()), ?_, fun heq => ?_⟩
    · rw [Run.begin] at hfree
      simp only [show job.unlimited.slices = job.slices from rfl, hfree]
      exact .of_dispatches (.same trivial) (dispatchesOf_flush _ r₁)
    · rw [Run.begin] at hfree heq
      simp only [heq, hfree]
  · rw [Run.begin] at heq
    simp only [heq]
    exact ⟨r₂, e, rfl⟩

end

/-! ## An image that cannot -/

/-- A pool that has a chunk of the largest size idle at every call. -/
def amplePool (limits : Limits) : Env where
  limits
  pool n := ⟨[(n, chunkMax)], 0⟩
  created n := ⟨n, .success⟩
  descriptors _ := .success
  pipeline _ := .success

theorem amplePool_answers (hl : limits.Required) : (amplePool limits).Answers .init where
  created _ := rfl
  descriptors _ := rfl
  pipeline _ := rfl
  sizes n c hc := by
    have hsize : chunkMax = chunkSize chunkMax (2 ^ 24) := by decide
    rw [mem_singleton.mp hc]
    exact ⟨chunkMax, by rwa [show (amplePool limits).limits = limits from rfl, hl.chunkLimit]⟩
  distinct n m hnm := hnm
  apart _ _ hc := (not_mem_nil hc).elim

theorem asked_of_created {rgbMask : Nat} {region : BufferImageCopy}
    (houtput : outputFormat = 0 ∨ outputFormat = transcodeFormat info.format)
    (himage : createImage info rgbMask outputFormat = .ok image)
    (hwide : info.extent.width.toNat ≤ 16384) (htall : info.extent.height.toNat ≤ 16384)
    (hlimits : env.limits.Required) (hbounds : Job.InBounds ⟨env, image, region⟩) :
    Job.Asked ⟨env, image, region⟩ := by
  have hdecodable := createImage_decodable houtput himage
  obtain ⟨described, hdescribe, rfl⟩ := createImage_spec himage
  have hextent := (describe_shape hdescribe).2
  refine ⟨hlimits, hbounds, hdecodable, ?_, ?_⟩
  · rw [hextent]
    exact hwide
  · rw [hextent]
    exact htall

/-- The least a device may have. -/
def leastLimits : Limits := ⟨0x8000000, 256, by decide, ⟨65535, 65535, 65535⟩, ⟨128, 128, 64⟩, 128⟩

theorem leastLimits_required : leastLimits.Required :=
  ⟨by decide, ⟨8, rfl⟩, by decide, by decide, by decide⟩

/-- A large BC7 image with one level. -/
def largeInfo : ImageCreateInfo := { tinyInfo 16384 16384 with format := 145 }

def largeImage : Image where
  format := 145
  decodedFormat := 157
  type := .twoD
  extent := ⟨16384, 16384, 1⟩
  mipLevels := 1
  layers := 1
  blockBytes := 16
  mipOffset := [0]
  blockSize := 2 ^ 28

/-- The first column of blocks, down to a height. -/
def column (height : Nat) : BufferImageCopy := ⟨0, 0, 0, 0, 0, 1, ⟨0, 0, 0⟩, ⟨4, height, 1⟩⟩

theorem column_inBounds : ∀ height ∈ [8188, 16384],
    Job.InBounds ⟨amplePool leastLimits, largeImage, column height⟩ := by
  simp only [mem_cons, not_mem_nil, or_false]
  rintro height (rfl | rfl) <;>
    exact ⟨⟨largeInfo, { largeImage with decodedFormat := 0 }, rfl, rfl⟩, by decide, by decide,
      by decide, by decide, by decide, by decide, by decide, by decide, by decide⟩

end Bc
