import Libhybris.BcTransfer

/-!
# The pieces of a decode

`decode` works on its chunks, its queue and its commands by a few moves only. They are listed
here once, with what holds when each is made, and the loops are shown to be sequences of them:
the pieces they record, in order, and the moves between.
-/
namespace Bc

open Vulkan

variable {h k n w x y band fuel layer width height destination : Nat} {r r' : Run} {c chunk : Chunk}
  {b : Binding} {result : Except VkResult Unit}

theorem blocksOf_le : blocksOf n ≤ k ↔ n ≤ 4 * k := by
  unfold blocksOf
  omega

theorem lt_blocksOf : k < blocksOf n ↔ 4 * k < n := by
  unfold blocksOf
  omega

theorem blocksOf_pos (h : 0 < n) : 0 < blocksOf n := lt_blocksOf.mpr (by omega)

/-- What binding a piece's source gives. -/
structure Bound (job : Job) (layer y x width height : Nat) (b : Binding) : Prop where
  offset : b.offset = job.source layer y x % job.alignment
  base : b.base = job.source layer y x - b.offset
  widthPos : 0 < width → 0 < b.width
  widthLe : b.width ≤ width
  widthWhole : b.width = width ∨ b.width % 4 = 0
  range : b.range = b.offset + (blocksOf height - 1) *
      (job.image.rowBlocks job.region.mipLevel * job.image.blockBytes) +
    blocksOf b.width * job.image.blockBytes
  rangeLe : b.range ≤ job.env.limits.maxStorageBufferRange.toNat

/-- A piece of a region: where it was cut, the source it is bound to and the slot it is decoded
into. -/
structure Piece where
  layer : Nat
  y : Nat
  x : Nat
  height : Nat
  binding : Binding
  chunk : Chunk
  destination : Nat
  push : Push

namespace Piece

variable (job : Job) (p : Piece)

def bytes : Nat := blocksOf p.binding.width * blocksOf p.height * job.blockBytes

def dispatch : Dispatch where
  sourceBase := p.binding.base
  sourceRange := p.binding.range
  inputBytes := inputBytes ((family job.image.format).getD 0)
  push := p.push
  scratch := ⟨p.chunk.buffer, p.destination, p.bytes job⟩

def copy : BufferImageCopy :=
  job.copy p.layer p.y p.x p.binding.width p.height p.destination

/-- What the loops have checked of a piece when they record it. -/
structure Checked : Prop where
  bound : ∃ width, Bound job p.layer p.y p.x width p.height p.binding
  prepared : prepare (job.decoding p.binding p.height) job.env.limits = .ok p.push
  free : p.chunk.used ≤ p.destination
  room : p.destination + p.bytes job ≤ p.chunk.size
  widthLe : p.binding.width ≤ 4 * p.chunk.size
  heightLe : p.height ≤ 4 * p.chunk.size

end Piece

/-- Record a piece and queue its copy. -/
def Run.put (job : Job) (p : Piece) (r : Run) : Run :=
  ((r.record (.dispatch (p.dispatch job))).setUsed (p.destination + p.bytes job)).enqueue
    p.chunk.buffer (p.copy job)

/-- The chunk in use. -/
def Run.chunk? (r : Run) : Option Chunk := r.transfer.chunks[r.transfer.current]?

/-- Moves from one state of a decode to another, with the pieces they record. -/
inductive Moves (job : Job) : Run → List Piece → Run → Prop
  | refl (r : Run) : Moves job r [] r
  | next {r r' : Run} {ps : List Piece} (rest : Moves job r.next ps r') : Moves job r ps r'
  | ticked {r r' : Run} {ps : List Piece} (rest : Moves job r.ticked ps r') : Moves job r ps r'
  | addChunk {r r' : Run} {ps : List Piece} {c : Chunk} (empty : c.used = 0)
      (possible : chunkPossible job.env.limits r.transfer.chunks c = true)
      (rest : Moves job (r.addChunk c) ps r') : Moves job r ps r'
  | reuse {r r' : Run} {ps : List Piece} (rest : Moves job (reuse job.blockBytes r) ps r') :
      Moves job r ps r'
  | giveUp {r r' : Run} {ps : List Piece} {c : Chunk} (current : r.chunk? = some c)
      (rest : Moves job (r.setUsed c.size) ps r') : Moves job r ps r'
  | piece {r r' : Run} {ps : List Piece} {p : Piece} (current : r.chunk? = some p.chunk)
      (checked : p.Checked job)
      (rest : Moves job ((r.put job p).flushFull job.blockBytes) ps r') : Moves job r (p :: ps) r'

variable {job : Job}

theorem Moves.trans {r'' : Run} {ps qs : List Piece} (h : Moves job r ps r')
    (h' : Moves job r' qs r'') : Moves job r (ps ++ qs) r'' := by
  induction h with
  | refl => exact h'
  | next _ ih => exact .next (ih h')
  | ticked _ ih => exact .ticked (ih h')
  | addChunk empty possible _ ih => exact .addChunk empty possible (ih h')
  | reuse _ ih => exact .reuse (ih h')
  | giveUp current _ ih => exact .giveUp current (ih h')
  | piece current checked _ ih => exact .piece current checked (ih h')

/-- Every chunk is of a size the pool hands out and filled within it. -/
def Run.Sized (r : Run) : Prop := ∀ c ∈ r.transfer.chunks, c.used ≤ c.size ∧ c.size ≤ chunkMax

@[simp] theorem flush_transfer (blockBytes : Nat) (r : Run) :
    (flush blockBytes r).transfer = r.transfer := by
  unfold flush
  split <;> rfl

@[simp] theorem flushFull_transfer (blockBytes : Nat) (r : Run) :
    (r.flushFull blockBytes).transfer = r.transfer := by
  unfold Run.flushFull
  split
  · exact flush_transfer blockBytes r
  · rfl

theorem mem_modify {α : Type} {f : α → α} {l : List α} {i : Nat} {a : α} (h : a ∈ l.modify i f) :
    a ∈ l ∨ ∃ b, l[i]? = some b ∧ a = f b := by
  obtain ⟨j, hj⟩ := List.mem_iff_getElem?.mp h
  rw [List.getElem?_modify] at hj
  split at hj
  case isTrue heq =>
    obtain ⟨b, hb, hfb⟩ := Option.map_eq_some_iff.mp hj
    exact .inr ⟨b, heq ▸ hb, hfb.symm⟩
  case isFalse =>
    exact .inl (List.mem_of_getElem? (by simpa using hj))

theorem Run.Sized.setUsed {used : Nat} (h : r.Sized) (hc : r.chunk? = some c)
    (hle : used ≤ c.size) : (r.setUsed used).Sized := by
  intro d hd
  rcases mem_modify hd with hold | ⟨b, hb, rfl⟩
  · exact h d hold
  · obtain rfl : b = c := Option.some.inj (hb.symm.trans hc)
    exact ⟨hle, (h b (List.mem_of_getElem? hc)).2⟩

theorem chunkLimit_le (limits : Limits) : chunkLimit limits ≤ chunkMax := Nat.min_le_right _ _

theorem Run.Sized.addChunk {limits : Limits} (h : r.Sized) (hused : c.used = 0)
    (hc : chunkPossible limits r.transfer.chunks c = true) : (r.addChunk c).Sized := by
  simp only [chunkPossible, Bool.and_eq_true, decide_eq_true_eq] at hc
  intro d hd
  rcases List.mem_cons.mp hd with rfl | hold
  · exact ⟨hused ▸ Nat.zero_le _, hc.1.trans (chunkLimit_le limits)⟩
  · exact h d hold

theorem Run.Sized.reuse (blockBytes : Nat) (h : r.Sized) : (Bc.reuse blockBytes r).Sized := by
  intro d hd
  obtain ⟨c, hc, rfl⟩ := List.mem_map.mp hd
  simp only [Run.record, flush_transfer] at hc
  exact ⟨Nat.zero_le _, (h c hc).2⟩

theorem Moves.sized {ps : List Piece} (h : Moves job r ps r') (hr : r.Sized) : r'.Sized := by
  induction h with
  | refl => exact hr
  | next _ ih => exact ih hr
  | ticked _ ih => exact ih hr
  | addChunk empty possible _ ih => exact ih (hr.addChunk empty possible)
  | reuse _ ih => exact ih (hr.reuse _)
  | giveUp current _ ih => exact ih (hr.setUsed current le_rfl)
  | piece current checked _ ih =>
    refine ih (fun c hc => ?_)
    rw [flushFull_transfer] at hc
    exact hr.setUsed current checked.room c hc

/-! ## Cutting -/

/-- How a piece's size stands to the room it is cut from. -/
structure Cut (width height available band : Nat) (w h : Nat) : Prop where
  widthPos : 0 < w
  widthLe : w ≤ width
  widthWhole : w = width ∨ w % 4 = 0
  heightPos : 0 < h
  heightBand : band ≠ 0 → h = band
  heightLe : band = 0 → h ≤ height
  heightWhole : band = 0 → h = height ∨ h % 4 = 0
  area : blocksOf w * blocksOf h ≤ available

theorem fit_spec {available : Nat} {used : Bool} (hw : 0 < width) (hh : 0 < height)
    (hsmall : available < 2 ^ 30) (hfit : fit width height available used band = some (w, h)) :
    Cut width height available band w h := by
  simp only [fit, Option.ite_none_left_eq_some, Option.some.injEq, Prod.mk.injEq] at hfit
  obtain ⟨havail, -, hband, hpw, hph⟩ := hfit
  rw [hpw] at hband hph
  have hnarrow : w = width ∨ w = available * 4 ∧ available * 4 < width := by
    rw [← hpw]
    split
    · right; omega
    · left; rfl
  have hblocks : blocksOf w ≤ available := blocksOf_le.mpr (by
    split at hpw <;> omega)
  have hwpos : 0 < w := by omega
  have hrows : 0 < available / blocksOf w := Nat.div_pos hblocks (blocksOf_pos hwpos)
  have hrowsle : available / blocksOf w ≤ available := Nat.div_le_self _ _
  have hmod : available / blocksOf w * 4 % 2 ^ 32 = available / blocksOf w * 4 := by omega
  rw [hph] at hband
  have hclamp : h ≤ available / blocksOf w * 4 ∧ 0 < h ∧
      (band = 0 → h ≤ height ∧ (h = height ∨ h % 4 = 0)) := by
    by_cases hzero : band = 0
    · split_ifs at hph <;> omega
    · split_ifs at hph <;> omega
  refine ⟨hwpos, by omega, by omega, hclamp.2.1, fun hne => ?_, fun hzero => (hclamp.2.2 hzero).1,
    fun hzero => (hclamp.2.2 hzero).2, ?_⟩
  · by_contra hcon
    exact hband ⟨hne, hcon⟩
  · calc blocksOf w * blocksOf h
        ≤ blocksOf w * (available / blocksOf w) :=
          Nat.mul_le_mul_left _ (blocksOf_le.mpr (by omega))
      _ ≤ available := Nat.mul_div_le _ _

theorem bind_spec (hwidth : width < 2 ^ 32) (h : job.bind layer y x width height = .ok b) :
    Bound job layer y x width height b := by
  simp only [Job.bind, ite_error_eq_ok, Except.ok.injEq] at h
  obtain ⟨-, havail, hrange, rfl⟩ := h
  refine ⟨rfl, rfl, fun hpos => ?_, ?_, ?_, rfl, Nat.not_lt.mp hrange⟩
  all_goals
    dsimp only
    split
    case isTrue hlt =>
      rw [lt_blocksOf] at hlt
      omega
    case isFalse => omega

theorem le_alignUp {alignment : Nat} (h : 0 < alignment) : n ≤ alignUp n alignment := by
  have hmod := Nat.div_add_mod (n + alignment - 1) alignment
  have hlt := Nat.mod_lt (n + alignment - 1) h
  unfold alignUp
  rw [Nat.mul_comm]
  omega

theorem slotAlignment_pos (job : Job) : 0 < job.slotAlignment := by
  unfold Job.slotAlignment
  omega

/-! ## The loops as moves -/

theorem chunkGet_used {limits : Limits} {held : List Chunk} {need want : Nat} {pool : Pool}
    {created : Created} (h : chunkGet limits held need want pool created = .ok (some c)) : c.used = 0 := by
  simp only [chunkGet, ite_error_eq_ok] at h
  obtain ⟨-, h⟩ := h
  have hcreate : ∀ size, createChunk created size = .ok (some c) → c.used = 0 := by
    intro size hc
    unfold createChunk at hc
    split at hc
    · cases hc
      rfl
    · cases hc
  split at h
  · cases h
    rfl
  · split at h
    · split at h
      · cases h
      · exact hcreate _ h
    · exact hcreate _ h

theorem chunkGet_error (limits : Limits) (held : List Chunk) (need want : Nat) (pool : Pool)
    (created : Created) : chunkGet limits held need want pool created ≠ .error .success := by
  have hcreate : ∀ size, createChunk created size ≠ .error .success := by
    unfold createChunk
    split
    case isTrue => simp
    case isFalse hne => simpa using hne
  simp only [chunkGet]
  split
  · simp
  · split
    · simp
    · split
      · split
        · simp
        · exact hcreate _
      · exact hcreate _

/-- `slot` makes moves without a piece; on success there is room in the chunk in use. -/
theorem slot_moves {want : Nat} {result : Except VkResult (Chunk × Nat)}
    (h : slot job want fuel r = some (r', result)) :
    Moves job r [] r' ∧ result ≠ .error .success ∧ ∀ c start, result = .ok (c, start) →
      r'.chunk? = some c ∧ c.used ≤ start ∧ start < c.size := by
  induction fuel generalizing r with
  | zero => cases h
  | succ fuel ih =>
    simp only [slot] at h
    split at h
    case h_1 c hc =>
      split at h
      case isTrue hlt =>
        cases h
        refine ⟨.refl _, by simp, fun c' start heq => ?_⟩
        cases heq
        exact ⟨hc, le_alignUp (slotAlignment_pos job), hlt⟩
      case isFalse => exact ⟨.next (ih h).1, (ih h).2⟩
    case h_2 =>
      split at h
      case isTrue =>
        split at h
        case h_1 e hget =>
          cases h
          refine ⟨.ticked (.refl _), fun heq => ?_, fun _ _ heq => nomatch heq⟩
          cases heq
          exact chunkGet_error _ _ _ _ _ _ hget
        case h_2 => exact ⟨.ticked (.reuse (ih h).1), (ih h).2⟩
        case h_3 c hget =>
          split at h
          case isTrue hpossible =>
            exact ⟨.ticked (.addChunk (chunkGet_used hget) hpossible (ih h).1), (ih h).2⟩
          case isFalse => cases h
      case isFalse => exact ⟨.reuse (ih h).1, (ih h).2⟩

theorem bind_error (job : Job) (layer y x width height : Nat) :
    job.bind layer y x width height ≠ .error .success := by
  simp only [Job.bind]
  repeat' split
  all_goals simp

theorem prepare_error (r : Region) (limits : Limits) : prepare r limits ≠ .error .success := by
  simp only [prepare]
  repeat' split
  all_goals simp

theorem recordPiece_error {e : VkResult}
    (h : recordPiece job layer y x height b chunk destination r = (r', .error e)) :
    r' = r.ticked ∧ e ≠ .success := by
  simp only [recordPiece] at h
  split at h
  case isTrue hne =>
    cases h
    exact ⟨rfl, hne⟩
  case isFalse =>
  split at h
  case h_1 e' hprepare =>
    cases h
    refine ⟨rfl, fun heq => ?_⟩
    subst heq
    exact prepare_error _ _ hprepare
  case h_2 =>
  split at h
  case isTrue hne =>
    cases h
    exact ⟨rfl, hne⟩
  case isFalse => cases (Prod.mk.inj h).2

theorem recordPiece_ok (h : recordPiece job layer y x height b chunk destination r = (r', .ok ())) :
    ∃ push, prepare (job.decoding b height) job.env.limits = .ok push ∧
      r' = (r.ticked.put job ⟨layer, y, x, height, b, chunk, destination, push⟩).flushFull
        job.blockBytes := by
  simp only [recordPiece] at h
  split at h
  · cases (Prod.mk.inj h).2
  · split at h
    · cases (Prod.mk.inj h).2
    · rename_i push hpush
      split at h
      · cases (Prod.mk.inj h).2
      · exact ⟨push, hpush, (Prod.mk.inj h).1.symm⟩

/-- A height at `y` that reaches the bottom of the region or is of whole blocks. -/
structure BandHeight (job : Job) (y height : Nat) : Prop where
  pos : 0 < height
  le : y + height ≤ job.height
  whole : y + height = job.height ∨ height % 4 = 0

/-- The pieces from `x` on of the band at `y`, side by side up to the right edge. -/
inductive Row (job : Job) (layer y height : Nat) : Nat → List Piece → Prop
  | done : Row job layer y height job.width []
  | cons {x : Nat} {p : Piece} {ps : List Piece} (place : p.layer = layer ∧ p.y = y ∧ p.x = x)
      (sameHeight : p.height = height) (pos : 0 < p.binding.width)
      (le : x + p.binding.width ≤ job.width)
      (whole : x + p.binding.width = job.width ∨ p.binding.width % 4 = 0)
      (rest : Row job layer y height (x + p.binding.width) ps) :
      Row job layer y height x (p :: ps)

/-- The bands from `y` on, one below the other down to the bottom. -/
inductive Bands (job : Job) (layer : Nat) : Nat → List Piece → Prop
  | done : Bands job layer job.height []
  | cons {y height : Nat} {row ps : List Piece} (band : BandHeight job y height)
      (pieces : Row job layer y height 0 row) (rest : Bands job layer (y + height) ps) :
      Bands job layer y (row ++ ps)

/-- The slices from `layer` on, `left` of them. -/
inductive Slices (job : Job) : Nat → Nat → List Piece → Prop
  | done {layer : Nat} : Slices job layer 0 []
  | cons {layer left : Nat} {slice ps : List Piece} (bands : Bands job layer 0 slice)
      (rest : Slices job (layer + 1) left ps) : Slices job layer (left + 1) (slice ++ ps)

theorem bytes_le {blockBytes room : Nat} (harea : blocksOf w * blocksOf h ≤ room / blockBytes) :
    blocksOf w * blocksOf h * blockBytes ≤ room :=
  (Nat.mul_le_mul_right _ harea).trans (Nat.div_mul_le_self _ _)

theorem side_le (hw : 0 < w) (hh : 0 < h) (harea : blocksOf w * blocksOf h ≤ k) :
    w ≤ 4 * k ∧ h ≤ 4 * k := by
  have hwle : blocksOf w ≤ blocksOf w * blocksOf h := Nat.le_mul_of_pos_right _ (blocksOf_pos hh)
  have hhle : blocksOf h ≤ blocksOf w * blocksOf h := Nat.le_mul_of_pos_left _ (blocksOf_pos hw)
  exact ⟨blocksOf_le.mp (hwle.trans harea), blocksOf_le.mp (hhle.trans harea)⟩

/-- A piece that is cut, bound and recorded has passed all checks. -/
theorem checked_of_cut {rest below : Nat} {push : Push}
    (hcut : Cut rest below ((chunk.size - destination) / job.blockBytes) band width height)
    (hsize : chunk.size ≤ chunkMax) (hbind : job.bind layer y x width height = .ok b)
    (hprepare : prepare (job.decoding b height) job.env.limits = .ok push)
    (hfree : chunk.used ≤ destination) (hlt : destination < chunk.size) :
    Bound job layer y x width height b ∧
      (⟨layer, y, x, height, b, chunk, destination, push⟩ : Piece).Checked job := by
  have havail : (chunk.size - destination) / job.blockBytes ≤ chunk.size :=
    (Nat.div_le_self _ _).trans (Nat.sub_le _ _)
  obtain ⟨hw4, hh4⟩ := side_le hcut.widthPos hcut.heightPos (hcut.area.trans havail)
  have hbound : Bound job layer y x width height b := bind_spec (by unfold chunkMax at hsize; omega) hbind
  have harea : blocksOf b.width * blocksOf height ≤ (chunk.size - destination) / job.blockBytes := by
    have hmono : blocksOf b.width ≤ blocksOf width :=
      Nat.div_le_div_right (Nat.add_le_add_right hbound.widthLe 3)
    exact (Nat.mul_le_mul_right _ hmono).trans hcut.area
  have hbytes := bytes_le harea
  refine ⟨hbound, ⟨width, hbound⟩, hprepare, hfree, ?_, hbound.widthLe.trans hw4, hh4⟩
  simp only [Piece.bytes]
  omega

theorem rowBand_moves {wanted : Nat} {result : Except VkResult (Nat × Nat)} (hsized : r.Sized)
    (hx : x ≤ job.width) (hheight : BandHeight job y height) (hband : band ≠ 0 → band = height)
    (h : rowBand job layer y fuel x band height wanted r = some (r', result)) :
    ∃ ps, Moves job r ps r' ∧ result ≠ .error .success ∧
      ∀ height' wanted', result = .ok (height', wanted') →
        (band ≠ 0 → height' = band) ∧ BandHeight job y height' ∧ Row job layer y height' x ps := by
  induction fuel generalizing x band height wanted r with
  | zero => cases h
  | succ fuel ih =>
    simp only [rowBand] at h
    split at h
    case isTrue hdone =>
      cases h
      refine ⟨[], .refl _, by simp, fun height' wanted' heq => ?_⟩
      cases heq
      obtain rfl : x = job.width := le_antisymm hx hdone
      exact ⟨fun hne => (hband hne).symm, hheight, .done⟩
    case isFalse hmore =>
    split at h
    case h_1 => cases h
    case h_2 e hslot =>
      cases h
      obtain ⟨hmoves, herror, -⟩ := slot_moves hslot
      exact ⟨[], hmoves, by simpa using herror, fun _ _ heq => nomatch heq⟩
    case h_3 r₁ chunk destination hslot =>
    obtain ⟨hmoves, -, hroom⟩ := slot_moves hslot
    obtain ⟨hcurrent, hfree, hlt⟩ := hroom _ _ rfl
    have hsized₁ := hmoves.sized hsized
    have hsize : chunk.size ≤ chunkMax := (hsized₁ chunk (List.mem_of_getElem? hcurrent)).2
    split at h
    case h_1 =>
      obtain ⟨ps, hrest, hok⟩ := ih (hsized₁.setUsed hcurrent le_rfl) hx hheight hband h
      exact ⟨ps, hmoves.trans (.giveUp hcurrent hrest), hok⟩
    case h_2 width height₁ hfit =>
    have havail : (chunk.size - destination) / job.blockBytes ≤ chunk.size :=
      (Nat.div_le_self _ _).trans (Nat.sub_le _ _)
    have hcut := fit_spec (by omega) (by have := hheight.pos; have := hheight.le; omega)
      (by unfold chunkMax at hsize; omega) hfit
    have hheight₁ : BandHeight job y height₁ := by
      by_cases hzero : band = 0
      · have hle := hcut.heightLe hzero
        have hwhole := hcut.heightWhole hzero
        have hyle := hheight.le
        exact ⟨hcut.heightPos, by omega, by omega⟩
      · rw [hcut.heightBand hzero, hband hzero]
        exact hheight
    split at h
    case h_1 e hbind =>
      cases h
      refine ⟨[], hmoves, fun heq => ?_, fun _ _ heq => nomatch heq⟩
      cases heq
      exact bind_error _ _ _ _ _ _ hbind
    case h_2 b hbind =>
    split at h
    case h_1 r₂ e hrecord =>
      cases h
      obtain ⟨rfl, herror⟩ := recordPiece_error hrecord
      exact ⟨[], hmoves.trans (.ticked (.refl _)), by simpa using herror,
        fun _ _ heq => nomatch heq⟩
    case h_2 r₂ hrecord =>
    obtain ⟨push, hprepare, rfl⟩ := recordPiece_ok hrecord
    obtain ⟨hbound, hchecked⟩ := checked_of_cut hcut hsize hbind hprepare hfree hlt
    have hwpos := hbound.widthPos hcut.widthPos
    have hwle := hbound.widthLe
    have hcutle := hcut.widthLe
    have hpiece := hmoves.trans (.ticked (.piece
      (p := ⟨layer, y, x, height₁, b, chunk, destination, push⟩) hcurrent hchecked (.refl _)))
    obtain ⟨ps, hrest, herror, hok⟩ := ih (hpiece.sized hsized) (by omega) hheight₁ (fun _ => rfl) h
    refine ⟨_, hpiece.trans hrest, herror, fun height' wanted' heq => ?_⟩
    obtain ⟨hsame, hheight', hrow⟩ := hok height' wanted' heq
    obtain rfl : height' = height₁ := hsame hcut.heightPos.ne'
    refine ⟨hcut.heightBand, hheight', .cons ⟨rfl, rfl, rfl⟩ rfl hwpos (by dsimp only; omega) ?_ hrow⟩
    rcases hbound.widthWhole with hall | hwhole
    · rcases hcut.widthWhole with hcutall | hcutwhole
      · dsimp only
        omega
      · dsimp only
        omega
    · exact .inr hwhole

theorem bands_moves {wanted : Nat} (hsized : r.Sized) (hy : y ≤ job.height)
    (h : bands job layer fuel y wanted r = some (r', result)) :
    ∃ ps, Moves job r ps r' ∧ result ≠ .error .success ∧ (result = .ok () → Bands job layer y ps) := by
  induction fuel generalizing y wanted r with
  | zero => cases h
  | succ fuel ih =>
    simp only [bands] at h
    split at h
    case isTrue hdone =>
      cases h
      obtain rfl : y = job.height := le_antisymm hy hdone
      exact ⟨[], .refl _, by simp, fun _ => .done⟩
    case isFalse hmore =>
    have hheight : BandHeight job y (job.height - y) := ⟨by omega, by omega, by omega⟩
    split at h
    case h_1 => cases h
    case h_2 e hrow =>
      cases h
      obtain ⟨ps, hmoves, herror, -⟩ :=
        rowBand_moves hsized (Nat.zero_le _) hheight (fun hne => absurd rfl hne) hrow
      exact ⟨ps, hmoves, by simpa using herror, fun heq => nomatch heq⟩
    case h_3 r₁ height wanted₁ hrow =>
    obtain ⟨row, hmoves, -, hok⟩ :=
      rowBand_moves hsized (Nat.zero_le _) hheight (fun hne => absurd rfl hne) hrow
    obtain ⟨-, hband, hpieces⟩ := hok _ _ rfl
    obtain ⟨ps, hrest, herror, hbands⟩ := ih (hmoves.sized hsized) hband.le h
    exact ⟨row ++ ps, hmoves.trans hrest, herror, fun heq => .cons hband hpieces (hbands heq)⟩

theorem decodeSlices_moves {left : Nat} (hsized : r.Sized)
    (h : decodeSlices job fuel left layer r = some (r', result)) :
    ∃ ps, Moves job r ps r' ∧ result ≠ .error .success ∧ (result = .ok () → Slices job layer left ps) := by
  induction left generalizing layer r with
  | zero =>
    cases h
    exact ⟨[], .refl _, by simp, fun _ => .done⟩
  | succ left ih =>
    simp only [decodeSlices] at h
    split at h
    case h_1 => cases h
    case h_2 e hbands =>
      cases h
      obtain ⟨ps, hmoves, herror, -⟩ := bands_moves hsized (Nat.zero_le _) hbands
      exact ⟨ps, hmoves, by simpa using herror, fun heq => nomatch heq⟩
    case h_3 r₁ hbands =>
      obtain ⟨slice, hmoves, -, hslice⟩ := bands_moves hsized (Nat.zero_le _) hbands
      obtain ⟨ps, hrest, herror, hslices⟩ := ih (hmoves.sized hsized) h
      exact ⟨slice ++ ps, hmoves.trans hrest, herror, fun heq => .cons (hslice rfl) (hslices heq)⟩

/-- The state `decode` starts in. -/
def Run.begin (transfer : Transfer) : Run :=
  { transfer, queue := [], log := [.toCompute], tick := 0 }

/-- A decode is a sequence of moves from its start, and when it succeeds its pieces are those of
the region and the queue is flushed at the end. -/
theorem decode_moves {transfer : Transfer} (hsized : (Run.begin transfer).Sized)
    (h : decode job fuel transfer = some (r', result)) :
    ∃ ps r, Moves job (.begin transfer) ps r ∧
      ((∃ e, result = .error e ∧ e ≠ .success) ∧ r' = r ∨
        result = .ok () ∧ Slices job 0 job.slices ps ∧ 0 < job.blockBytes ∧
          r' = flush job.blockBytes r) := by
  simp only [decode] at h
  split at h
  case isTrue =>
    cases h
    exact ⟨[], _, .refl _, .inl ⟨⟨_, rfl, by decide⟩, rfl⟩⟩
  case isFalse hbytes =>
  split at h
  case h_1 => cases h
  case h_2 r e hslices =>
    cases h
    obtain ⟨ps, hmoves, herror, -⟩ := decodeSlices_moves hsized hslices
    exact ⟨ps, _, hmoves, .inl ⟨⟨_, rfl, by simpa using herror⟩, rfl⟩⟩
  case h_3 r hslices =>
    cases h
    obtain ⟨ps, hmoves, -, hok⟩ := decodeSlices_moves hsized hslices
    exact ⟨ps, r, hmoves, .inr ⟨rfl, hok rfl, Nat.pos_of_ne_zero hbytes, rfl⟩⟩

end Bc
