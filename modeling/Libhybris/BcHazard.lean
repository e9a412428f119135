import Libhybris.BcPieces
import Mathlib.Data.List.Nodup

/-!
# Scratch memory is consumed before it is reused

The commands of a command buffer are replayed: a dispatch writes a slice of a chunk, a copy reads
the oldest slices that are written and not yet copied. A dispatch must write away from all of
those and behind a barrier from every copy before it; a copy must stand behind a barrier from
the dispatches; and the chunks' offsets start over only when nothing is left to copy and a
barrier has just been recorded.
-/
namespace Bc

open Vulkan List

def Slice.stop (s : Slice) : Nat := s.offset + s.size

/-- The slices share no byte. -/
def Slice.Apart (s s' : Slice) : Prop :=
  s.buffer ≠ s'.buffer ∨ s.stop ≤ s'.offset ∨ s'.stop ≤ s.offset

instance (s s' : Slice) : Decidable (s.Apart s') := inferInstanceAs (Decidable (_ ∨ _ ∨ _))

/-- The slice a copy reads: rows and columns of whole blocks. -/
def copySlice (blockBytes buffer : Nat) (c : BufferImageCopy) : Slice :=
  ⟨buffer, c.bufferOffset, c.bufferRowLength / 4 * (c.bufferImageHeight / 4) * blockBytes⟩

/-- `pending` are the slices written and not yet copied, oldest first. `visible`: a barrier from
compute to transfer since the last dispatch. `reading`: a copy since the last barrier from
transfer to compute. `quiet`: the last command was that barrier. -/
structure Hazard where
  pending : List Slice
  visible : Bool
  reading : Bool
  quiet : Bool
deriving DecidableEq

def Hazard.start : Hazard := ⟨[], false, false, false⟩

def Hazard.apply (h : Hazard) : Command → Option Hazard
  | .blocksToCompute | .blocksToTransfer => some { h with quiet := false }
  | .toCompute => some { h with reading := false, quiet := true }
  | .toTransfer => some { h with visible := true, quiet := false }
  | .dispatch d =>
    if (∀ s ∈ h.pending, s.Apart d.scratch) ∧ h.reading = false ∧ h.pending.length < 64 then
      some { pending := h.pending ++ [d.scratch], visible := false, reading := false, quiet := false }
    else none
  | .copyBufferToImage buffer blockBytes copies =>
    if h.visible = true ∧ copies.map (copySlice blockBytes buffer) <+: h.pending then
      some { h with pending := h.pending.drop copies.length, reading := true, quiet := false }
    else none
  | .reuse =>
    if h.pending = [] ∧ h.quiet = true then some { h with quiet := false } else none

/-- Replay a log, newest command first; a hazard leaves no state. -/
def replay : List Command → Option Hazard
  | [] => some .start
  | c :: rest => (replay rest).bind (fun h => h.apply c)

variable {h : Hazard} {d : Dispatch} {older : List Command} {c : Chunk} {job : Job} {p : Piece}
  {s : Recording}

theorem replay_cons {c : Command} {rest : List Command} (hr : replay rest = some h) :
    replay (c :: rest) = h.apply c := by
  simp [replay, hr]

theorem replay_of_append {l l' : List Command} (hr : replay (l ++ l') = some h) :
    ∃ h', replay l' = some h' := by
  induction l generalizing h with
  | nil => exact ⟨h, hr⟩
  | cons c rest ih =>
    obtain ⟨h', hrest, -⟩ := Option.bind_eq_some_iff.mp hr
    exact ih hrest

/-- At most 64 slices are pending, and no two of them share a byte. -/
theorem replay_pending {log : List Command} (hr : replay log = some h) :
    h.pending.Pairwise Slice.Apart ∧ h.pending.length ≤ 64 := by
  induction log generalizing h with
  | nil =>
    cases hr
    exact ⟨List.Pairwise.nil, by decide⟩
  | cons c rest ih =>
    obtain ⟨h', hrest, happly⟩ := Option.bind_eq_some_iff.mp hr
    obtain ⟨hpair, hlen⟩ := ih hrest
    cases c with
    | dispatch d =>
      obtain ⟨hok, happly⟩ := Option.ite_none_right_eq_some.mp happly
      cases happly
      refine ⟨pairwise_append.mpr ⟨hpair, pairwise_singleton _ _, ?_⟩, ?_⟩
      · intro s hs s' hs'
        rw [mem_singleton.mp hs']
        exact hok.1 s hs
      · simp
        omega
    | copyBufferToImage buffer blockBytes copies =>
      obtain ⟨-, happly⟩ := Option.ite_none_right_eq_some.mp happly
      cases happly
      exact ⟨hpair.sublist (drop_sublist _ _), by simp; omega⟩
    | reuse =>
      obtain ⟨-, happly⟩ := Option.ite_none_right_eq_some.mp happly
      cases happly
      exact ⟨hpair, hlen⟩
    | _ =>
      cases happly
      exact ⟨hpair, hlen⟩

/-- The copy reads the slice. -/
def Command.reads (s : Slice) : Command → Prop
  | .copyBufferToImage buffer blockBytes copies => s ∈ copies.map (copySlice blockBytes buffer)
  | _ => False

/-- A pending slice stays pending until a copy reads it. -/
theorem pending_until_read {s : Slice} {l l' : List Command} {h' : Hazard} (hr' : replay l' = some h')
    (hs : s ∈ h'.pending) (hr : replay (l ++ l') = some h) : s ∈ h.pending ∨ ∃ c ∈ l, c.reads s := by
  induction l generalizing h with
  | nil =>
    obtain rfl : h' = h := Option.some.inj (hr'.symm.trans hr)
    exact .inl hs
  | cons c rest ih =>
    obtain ⟨g, hrest, happly⟩ := Option.bind_eq_some_iff.mp hr
    rcases ih hrest with hpending | ⟨c', hc', hreads⟩
    · cases c with
      | dispatch d =>
        obtain ⟨-, happly⟩ := Option.ite_none_right_eq_some.mp happly
        cases happly
        exact .inl (mem_append_left _ hpending)
      | copyBufferToImage buffer blockBytes copies =>
        obtain ⟨hok, happly⟩ := Option.ite_none_right_eq_some.mp happly
        cases happly
        obtain ⟨tail, htail⟩ := hok.2
        rw [← htail, mem_append] at hpending
        rcases hpending with hread | hkept
        · exact .inr ⟨_, mem_cons_self, hread⟩
        · refine .inl ?_
          have hlen : copies.length = (copies.map (copySlice blockBytes buffer)).length := by
            simp
          simp only [← htail]
          rw [hlen, drop_left]
          exact hkept
      | reuse =>
        obtain ⟨-, happly⟩ := Option.ite_none_right_eq_some.mp happly
        cases happly
        exact .inl hpending
      | _ =>
        cases happly
        exact .inl hpending
    · exact .inr ⟨c', mem_cons_of_mem c hc', hreads⟩

theorem mem_pending_dispatch (hr : replay (.dispatch d :: older) = some h) : d.scratch ∈ h.pending := by
  obtain ⟨g, -, happly⟩ := Option.bind_eq_some_iff.mp hr
  obtain ⟨-, happly⟩ := Option.ite_none_right_eq_some.mp happly
  cases happly
  simp

/-- A log without hazards: between the dispatch that writes a slice and the copy that reads it
no dispatch writes a byte of it. -/
theorem not_overwritten {newer between : List Command} {e : Dispatch}
    (hr : replay (newer ++ .dispatch e :: (between ++ .dispatch d :: older)) = some h) :
    d.scratch.Apart e.scratch ∨ ∃ c ∈ between, c.reads d.scratch := by
  obtain ⟨he, hre⟩ := replay_of_append hr
  obtain ⟨hb, hrb, happly⟩ := Option.bind_eq_some_iff.mp hre
  obtain ⟨hd, hrd⟩ := replay_of_append hrb
  rcases pending_until_read hrd (mem_pending_dispatch hrd) hrb with hpending | hread
  · refine .inl ?_
    obtain ⟨hok, happly⟩ := Option.ite_none_right_eq_some.mp happly
    exact hok.1 _ hpending
  · exact .inr hread

/-- The offsets start over right behind a barrier, with nothing pending. -/
theorem replay_reuse (hr : replay (.reuse :: older) = some h) :
    ∃ rest h', older = .toCompute :: rest ∧ replay older = some h' ∧ h'.pending = [] := by
  obtain ⟨h', holder, happly⟩ := Option.bind_eq_some_iff.mp hr
  obtain ⟨hok, happly⟩ := Option.ite_none_right_eq_some.mp happly
  cases older with
  | nil =>
    cases holder
    cases hok.2
  | cons c rest =>
    obtain ⟨g, -, hc⟩ := Option.bind_eq_some_iff.mp holder
    cases c with
    | toCompute => exact ⟨rest, h', rfl, holder, hok.1⟩
    | dispatch _ | copyBufferToImage _ _ _ | reuse =>
      simp only [Hazard.apply] at hc
      split at hc <;> cases hc
      cases hok.2
    | _ =>
      cases hc
      cases hok.2

/-! ## The queue is what is pending -/

/-- The slice a queued copy will read. -/
def queued (blockBytes : Nat) (q : Nat × BufferImageCopy) : Slice := copySlice blockBytes q.1 q.2

theorem groupCopies_slices (blockBytes : Nat) (queue : List (Nat × BufferImageCopy)) :
    (groupCopies queue).flatMap (fun g => g.2.map (copySlice blockBytes g.1)) =
      queue.map (queued blockBytes) := by
  induction queue with
  | nil => rfl
  | cons q rest ih =>
    simp only [groupCopies]
    split
    case h_1 hnil =>
      rw [hnil] at ih
      simp [← ih, queued]
    case h_2 buffer' copies groups hcons =>
      rw [hcons] at ih
      split
      case isTrue heq =>
        subst heq
        simp [← ih, queued]
      case isFalse => simp [← ih, queued]

/-- Copy commands that read the pending slices in order leave the rest pending. -/
theorem replay_copies {blockBytes : Nat} (groups : List (Nat × List BufferImageCopy)) (rest : List Slice)
    {log : List Command} (hr : replay log = some h) (hvisible : h.visible = true)
    (hpending : h.pending = groups.flatMap (fun g => g.2.map (copySlice blockBytes g.1)) ++ rest) :
    ∃ h', replay ((groups.map fun g => Command.copyBufferToImage g.1 blockBytes g.2).reverse ++
      log) = some h' ∧ h'.pending = rest := by
  induction groups generalizing log h with
  | nil => exact ⟨h, hr, hpending⟩
  | cons g groups ih =>
    have hlen : g.2.length = (g.2.map (copySlice blockBytes g.1)).length := by simp
    rw [flatMap_cons, append_assoc] at hpending
    have happly : h.apply (.copyBufferToImage g.1 blockBytes g.2) =
        some { h with pending := h.pending.drop g.2.length, reading := true, quiet := false } := by
      simp only [Hazard.apply]
      rw [if_pos ⟨hvisible, hpending ▸ prefix_append _ _⟩]
    have hdrop : h.pending.drop g.2.length =
        groups.flatMap (fun g => g.2.map (copySlice blockBytes g.1)) ++ rest := by
      rw [hpending, hlen, drop_left]
    obtain ⟨h', hr', hrest⟩ := ih ((replay_cons hr).trans happly) hvisible hdrop
    refine ⟨h', ?_, hrest⟩
    simpa using hr'

theorem flush_replays {blockBytes : Nat} {r : Run} {old : List Command}
    (hr : replay (r.log ++ old) = some h) (hpending : h.pending = r.queue.map (queued blockBytes)) :
    ∃ h', replay ((flush blockBytes r).log ++ old) = some h' ∧ h'.pending = [] := by
  unfold flush
  split
  case isTrue hempty =>
    refine ⟨h, hr, ?_⟩
    rw [hpending, hempty]
    rfl
  case isFalse =>
    have hbarrier : replay (.toTransfer :: (r.log ++ old)) =
        some { h with visible := true, quiet := false } := replay_cons hr
    obtain ⟨h', hr', hnone⟩ := replay_copies (groupCopies r.queue) [] hbarrier rfl
      (by rw [groupCopies_slices, append_nil]; exact hpending)
    exact ⟨h', by simpa using hr', hnone⟩

/-- The queue holds the copies of what is pending, every pending slice lies below the fill
position of its chunk and every dispatch so far is behind a barrier from the copies before it. -/
structure Tracks (blockBytes : Nat) (old : List Command) (r : Run) : Prop where
  replays : ∃ h, replay (r.log ++ old) = some h ∧ h.reading = false ∧
    h.pending = r.queue.map (queued blockBytes)
  filled : ∀ q ∈ r.queue, ∃ c ∈ r.transfer.chunks,
    c.buffer = q.1 ∧ (queued blockBytes q).stop ≤ c.used
  distinct : (r.transfer.chunks.map Chunk.buffer).Nodup
  sized : r.Sized

@[simp] theorem flush_queue (blockBytes : Nat) (r : Run) : (flush blockBytes r).queue = [] := by
  unfold flush
  split
  · assumption
  · rfl

theorem mem_modify_of_mem {α : Type} {f : α → α} {l : List α} {i : Nat} {a : α} (h : a ∈ l) :
    a ∈ l.modify i f ∨ l[i]? = some a ∧ f a ∈ l.modify i f := by
  obtain ⟨j, hj⟩ := mem_iff_getElem?.mp h
  by_cases hij : i = j
  · subst hij
    refine .inr ⟨hj, mem_of_getElem? (i := i) ?_⟩
    simp [hj]
  · refine .inl (mem_of_getElem? (i := j) ?_)
    simp [hij, hj]

theorem map_modify_of_eq {α β : Type} {f : α → α} {g : α → β} (hg : ∀ a, g (f a) = g a)
    (l : List α) (i : Nat) : (l.modify i f).map g = l.map g := by
  apply ext_getElem?
  intro j
  simp only [getElem?_map, getElem?_modify]
  split
  · cases l[j]? <;> simp [hg]
  · simp

variable {blockBytes : Nat} {old : List Command} {r : Run}

/-- Moving the fill position of the chunk in use up. -/
theorem filled_setUsed {used : Nat} (hc : r.chunk? = some c) (hle : c.used ≤ used)
    {buffer stop : Nat} (h : ∃ d ∈ r.transfer.chunks, d.buffer = buffer ∧ stop ≤ d.used) :
    ∃ d ∈ (r.setUsed used).transfer.chunks, d.buffer = buffer ∧ stop ≤ d.used := by
  obtain ⟨d, hd, hbuffer, hstop⟩ := h
  rcases mem_modify_of_mem (i := r.transfer.current) (f := fun c => { c with used }) hd with
    hkept | ⟨hcur, hnew⟩
  · exact ⟨d, hkept, hbuffer, hstop⟩
  · obtain rfl : d = c := Option.some.inj (hcur.symm.trans hc)
    exact ⟨_, hnew, hbuffer, hstop.trans hle⟩

theorem distinct_setUsed (used : Nat) (h : (r.transfer.chunks.map Chunk.buffer).Nodup) :
    ((r.setUsed used).transfer.chunks.map Chunk.buffer).Nodup := by
  simp only [Run.setUsed]
  rw [map_modify_of_eq (f := fun c : Chunk => { c with used }) (g := Chunk.buffer) (fun _ => rfl)]
  exact h

theorem Tracks.giveUp (h : Tracks blockBytes old r) (hc : r.chunk? = some c) :
    Tracks blockBytes old (r.setUsed c.size) where
  replays := h.replays
  filled q hq := filled_setUsed hc (h.sized c (mem_of_getElem? hc)).1 (h.filled q hq)
  distinct := distinct_setUsed _ h.distinct
  sized := h.sized.setUsed hc le_rfl

theorem Tracks.addChunk (h : Tracks blockBytes old r) {limits : Limits} (hused : c.used = 0)
    (hc : chunkPossible limits r.transfer.chunks c = true) : Tracks blockBytes old (r.addChunk c) where
  replays := h.replays
  filled q hq := by
    obtain ⟨d, hd, hfill⟩ := h.filled q hq
    exact ⟨d, mem_cons_of_mem c hd, hfill⟩
  distinct := by
    simp only [chunkPossible, Bool.and_eq_true, all_eq_true, decide_eq_true_eq] at hc
    refine nodup_cons.mpr ⟨fun hmem => ?_, h.distinct⟩
    obtain ⟨d, hd, heq⟩ := mem_map.mp hmem
    exact hc.2 d hd heq
  sized := h.sized.addChunk hused hc

/-- A flush with the barrier behind it. -/
theorem Tracks.flushed (h : Tracks blockBytes old r) :
    ∃ g, replay (((flush blockBytes r).record .toCompute).log ++ old) = some g ∧
      g.reading = false ∧ g.quiet = true ∧ g.pending = [] := by
  obtain ⟨g, hr, -, hpending⟩ := h.replays
  obtain ⟨g', hr', hnone⟩ := flush_replays hr hpending
  exact ⟨_, replay_cons hr', rfl, rfl, hnone⟩

theorem Tracks.reuse (h : Tracks blockBytes old r) :
    Tracks blockBytes old (Bc.reuse blockBytes r) where
  replays := by
    obtain ⟨g, hr, hreading, hquiet, hnone⟩ := h.flushed
    have happly : g.apply .reuse = some { g with quiet := false } := by
      simp only [Hazard.apply]
      rw [if_pos ⟨hnone, hquiet⟩]
    refine ⟨_, (replay_cons hr).trans happly, hreading, ?_⟩
    simp [Bc.reuse, Run.record, hnone]
  filled q hq := by simp [Bc.reuse, Run.record] at hq
  distinct := by
    simp only [Bc.reuse, Run.record, flush_transfer, map_map]
    exact h.distinct
  sized := h.sized.reuse blockBytes

theorem Tracks.flushFull (h : Tracks blockBytes old r) (hlen : r.queue.length ≤ 64) :
    Tracks blockBytes old (r.flushFull blockBytes) ∧ (r.flushFull blockBytes).queue.length < 64 := by
  unfold Run.flushFull
  split
  case isTrue =>
    obtain ⟨g, hr, hreading, -, hnone⟩ := h.flushed
    refine ⟨⟨⟨g, hr, hreading, by simp [Run.record, hnone]⟩, ?_, ?_, ?_⟩, by simp [Run.record]⟩
    · intro q hq
      simp [Run.record] at hq
    · simpa [Run.record] using h.distinct
    · simpa [Run.record, Run.Sized] using h.sized
  case isFalse hne => exact ⟨h, by omega⟩

/-- The copy of a piece reads what its dispatch writes. -/
theorem queued_copy (hp : p.Checked job) (hsize : p.chunk.size ≤ chunkMax) :
    queued job.blockBytes (p.chunk.buffer, p.copy job) = (p.dispatch job).scratch := by
  have hw := hp.widthLe
  have hh := hp.heightLe
  unfold chunkMax at hsize
  have hrow : (p.binding.width + 3) % 2 ^ 32 / 4 * 4 / 4 = blocksOf p.binding.width := by
    unfold blocksOf
    omega
  have hcolumn : (p.height + 3) % 2 ^ 32 / 4 * 4 / 4 = blocksOf p.height := by
    unfold blocksOf
    omega
  simp only [queued, copySlice, Piece.copy, Job.copy, Piece.dispatch, Piece.bytes, hrow, hcolumn]

theorem Tracks.apart (h : Tracks blockBytes old r) (hc : r.chunk? = some p.chunk) (hp : p.Checked job)
    {s : Slice} (hs : s ∈ r.queue.map (queued blockBytes)) : s.Apart (p.dispatch job).scratch := by
  obtain ⟨q, hq, rfl⟩ := mem_map.mp hs
  obtain ⟨c, hmem, hbuffer, hstop⟩ := h.filled q hq
  by_cases heq : q.1 = p.chunk.buffer
  · obtain rfl : c = p.chunk := inj_on_of_nodup_map h.distinct hmem
      (mem_of_getElem? hc) (hbuffer.trans heq)
    exact .inr (.inl (hstop.trans hp.free))
  · exact .inl heq

theorem Tracks.put (h : Tracks job.blockBytes old r) (hlen : r.queue.length < 64)
    (hc : r.chunk? = some p.chunk) (hp : p.Checked job) : Tracks job.blockBytes old (r.put job p) where
  replays := by
    obtain ⟨g, hr, hreading, hpending⟩ := h.replays
    have hmem := mem_of_getElem? hc
    have hapart : ∀ s ∈ g.pending, s.Apart (p.dispatch job).scratch := by
      rw [hpending]
      exact fun s hs => h.apart hc hp hs
    have happly : g.apply (.dispatch (p.dispatch job)) =
        some ⟨g.pending ++ [(p.dispatch job).scratch], false, false, false⟩ :=
      if_pos ⟨hapart, hreading, by rw [hpending, length_map]; exact hlen⟩
    refine ⟨_, (replay_cons hr).trans happly, rfl, ?_⟩
    simp only [Run.put, Run.enqueue, Run.setUsed, Run.record, map_append, map_cons,
      map_nil, hpending, queued_copy hp (h.sized _ hmem).2]
  filled q hq := by
    have hup : p.chunk.used ≤ p.destination + p.bytes job := hp.free.trans (Nat.le_add_right _ _)
    have hmem := mem_of_getElem? hc
    rcases mem_append.mp hq with hold | hnew
    · exact filled_setUsed (r := r.record (.dispatch (p.dispatch job))) hc hup (h.filled q hold)
    · obtain rfl := mem_singleton.mp hnew
      refine ⟨{ p.chunk with used := p.destination + p.bytes job }, ?_, rfl, ?_⟩
      · exact mem_of_getElem? (i := r.transfer.current) (by
          rw [Run.chunk?] at hc
          simp [Run.put, Run.enqueue, Run.setUsed, Run.record, hc])
      · rw [queued_copy hp (h.sized _ hmem).2]
        exact le_rfl
  distinct := distinct_setUsed _ h.distinct
  sized := h.sized.setUsed hc hp.room

theorem Moves.tracks {r r' : Run} {ps : List Piece} (h : Moves job r ps r')
    (ht : Tracks job.blockBytes old r) (hlen : r.queue.length < 64) :
    Tracks job.blockBytes old r' ∧ r'.queue.length < 64 := by
  induction h with
  | refl => exact ⟨ht, hlen⟩
  | next _ ih | ticked _ ih => exact ih ⟨ht.replays, ht.filled, ht.distinct, ht.sized⟩ hlen
  | addChunk empty possible _ ih => exact ih (ht.addChunk empty possible) hlen
  | reuse _ ih => exact ih ht.reuse (by simp [Bc.reuse, Run.record])
  | giveUp current _ ih => exact ih (ht.giveUp current) hlen
  | piece current checked _ ih =>
    have hput := (ht.put hlen current checked).flushFull (by
      simp only [Run.put, Run.enqueue, Run.setUsed, Run.record, length_append,
        length_singleton]
      omega)
    exact ih hput.1 hput.2

/-! ## Whole recordings -/

/-- What holds of a command buffer between two operations. -/
structure Recorded (s : Recording) : Prop where
  replays : ∃ h, replay s.log = some h ∧ (s.error = .success → h.pending = [])
  distinct : (s.transfer.chunks.map Chunk.buffer).Nodup
  sized : (Run.begin s.transfer).Sized

theorem recorded_start : Recorded .start where
  replays := ⟨.start, rfl, fun _ => rfl⟩
  distinct := nodup_nil
  sized _ hc := nomatch hc

/-- A decode starts with nothing queued and behind a barrier. -/
theorem Recorded.begin (h : Recorded s) (hok : s.error = .success) (blockBytes : Nat) :
    Tracks blockBytes (.blocksToCompute :: s.log) (.begin s.transfer) where
  replays := by
    obtain ⟨g, hr, hnone⟩ := h.replays
    have hbarrier : replay (.toCompute :: .blocksToCompute :: s.log) =
        some { g with reading := false, quiet := true } := by
      rw [replay_cons (replay_cons hr)]
      rfl
    exact ⟨_, hbarrier, rfl, hnone hok⟩
  filled _ hq := nomatch hq
  distinct := h.distinct
  sized := h.sized

theorem Recorded.tracks (h : Recorded s) (hok : s.error = .success) {ps : List Piece} {r : Run}
    (hmoves : Moves job (.begin s.transfer) ps r) :
    Tracks job.blockBytes (.blocksToCompute :: s.log) r ∧ r.queue.length < 64 :=
  hmoves.tracks (h.begin hok job.blockBytes) (by simp [Run.begin])

theorem Recorded.operate {s' : Recording} {op : Operation} (h : Recorded s)
    (hop : Bc.operate s op = some s') : Recorded s' := by
  cases op with
  | finish =>
    cases hop
    exact recorded_start
  | decodeImage job fuel =>
    simp only [Bc.operate] at hop
    split at hop
    case isTrue =>
      cases hop
      exact h
    case isFalse hok =>
    replace hok := not_not.mp hok
    split at hop
    case h_1 => cases hop
    case h_2 r e hdecode =>
      cases hop
      obtain ⟨ps, r', hmoves, ⟨⟨e', heq, hne⟩, rfl⟩ | ⟨heq, -⟩⟩ := decode_moves h.sized hdecode
      · cases heq
        obtain ⟨ht, -⟩ := h.tracks hok hmoves
        obtain ⟨g, hr, -⟩ := ht.replays
        exact ⟨⟨g, hr, fun hsuccess => absurd hsuccess hne⟩, ht.distinct, ht.sized⟩
      · cases heq
    case h_3 r hdecode =>
      cases hop
      obtain ⟨ps, r', hmoves, ⟨⟨e', heq, -⟩, -⟩ | ⟨-, -, -, rfl⟩⟩ := decode_moves h.sized hdecode
      · cases heq
      · obtain ⟨ht, -⟩ := h.tracks hok hmoves
        obtain ⟨g, hr, -, hpending⟩ := ht.replays
        obtain ⟨g', hr', hnone⟩ := flush_replays hr hpending
        refine ⟨⟨_, replay_cons hr', fun _ => hnone⟩, ?_, ?_⟩
        · simpa using ht.distinct
        · simpa [Run.Sized, Run.begin] using ht.sized

theorem recorded {ops : List Operation} (hrun : Transition.run operate .start ops = some s) : Recorded s :=
  Transition.run_invariant (fun _ _ _ hs hop => hs.operate hop) ops .start s recorded_start hrun

/-- A dispatched slice of a recording without an error has been copied. -/
theorem Recorded.copied (h : Recorded s) (hok : s.error = .success) {newer : List Command}
    (hlog : s.log = newer ++ .dispatch d :: older) : ∃ c ∈ newer, c.reads d.scratch := by
  obtain ⟨g, hr, hnone⟩ := h.replays
  rw [hlog] at hr
  obtain ⟨g', hr'⟩ := replay_of_append hr
  rcases pending_until_read hr' (mem_pending_dispatch hr') hr with hpending | hread
  · rw [hnone hok] at hpending
    cases hpending
  · exact hread

/-- The scratch memory of a recording is used in order. -/
structure InOrder (s : Recording) : Prop where
  /-- A dispatch that writes a byte an earlier one wrote comes after the copy of the earlier. -/
  consumed : ∀ newer e between d older,
    s.log = newer ++ .dispatch e :: (between ++ .dispatch d :: older) →
      d.scratch.Apart e.scratch ∨ ∃ c ∈ between, c.reads d.scratch
  /-- At every point at most 64 slices wait for their copy, and no two share a byte. -/
  waiting : ∀ newer older, s.log = newer ++ older → ∃ h, replay older = some h ∧
    h.pending.Pairwise Slice.Apart ∧ h.pending.length ≤ 64
  /-- The offsets start over right after a barrier to compute, when nothing waits. -/
  restarted : ∀ newer older, s.log = newer ++ .reuse :: older →
    ∃ rest h, older = .toCompute :: rest ∧ replay older = some h ∧ h.pending = []
  /-- No copy is lost, unless an operation failed. -/
  copied : s.error = .success → ∀ newer d older, s.log = newer ++ .dispatch d :: older →
    ∃ c ∈ newer, c.reads d.scratch
  /-- In the middle of the next decode, the queue holds the copies of what waits. -/
  queued : s.error = .success → ∀ job ps r, Moves job (.begin s.transfer) ps r →
    r.queue.length < 64 ∧ (r.queue.map (queued job.blockBytes)).Pairwise Slice.Apart ∧
      ∃ h, replay (r.log ++ .blocksToCompute :: s.log) = some h ∧
        h.pending = r.queue.map (Bc.queued job.blockBytes)
  /-- A decode that fails sets the error, and the copies still queued are not recorded. -/
  failed : s.error = .success → ∀ job fuel r e, decode job fuel s.transfer = some (r, .error e) →
    ∃ s' h, operate s (.decodeImage job fuel) = some s' ∧ s'.error = e ∧ e ≠ .success ∧
      s'.log = r.log ++ .blocksToCompute :: s.log ∧ replay s'.log = some h ∧
        h.pending = r.queue.map (Bc.queued job.blockBytes)
  /-- With an error set, nothing more is recorded. -/
  stopped : s.error ≠ .success → ∀ job fuel, operate s (.decodeImage job fuel) = some s

/-- Whatever is recorded on a command buffer, whatever the pool and the driver answer. -/
theorem scratch_used_in_order (ops : List Operation) (s : Recording)
    (hrun : Transition.run operate .start ops = some s) : InOrder s := by
  have hs := recorded hrun
  obtain ⟨g, hr, -⟩ := hs.replays
  refine ⟨fun newer e between d older hlog => ?_, fun newer older hlog => ?_,
    fun newer older hlog => ?_, fun hok newer d older hlog => hs.copied hok hlog,
    fun hok job ps r hmoves => ?_, fun hok job fuel r e hdecode => ?_,
    fun herror job fuel => if_pos herror⟩
  · rw [hlog] at hr
    exact not_overwritten hr
  · rw [hlog] at hr
    obtain ⟨h, hold⟩ := replay_of_append hr
    exact ⟨h, hold, replay_pending hold⟩
  · rw [hlog] at hr
    obtain ⟨h, hold⟩ := replay_of_append hr
    exact replay_reuse hold
  · obtain ⟨ht, hlen⟩ := hs.tracks hok hmoves
    obtain ⟨h, hold, -, hpending⟩ := ht.replays
    exact ⟨hlen, hpending ▸ (replay_pending hold).1, h, hold, hpending⟩
  · obtain ⟨ps, r', hmoves, ⟨⟨e', heq, hne⟩, rfl⟩ | ⟨heq, -⟩⟩ := decode_moves hs.sized hdecode
    · cases heq
      obtain ⟨h, hold, -, hpending⟩ := (hs.tracks hok hmoves).1.replays
      refine ⟨⟨r.transfer, r.log ++ .blocksToCompute :: s.log, e⟩, h, ?_, rfl, hne, rfl, hold,
        hpending⟩
      simp only [operate, hok, hdecode, ne_eq, not_true, if_false]
    · cases heq

/-- A device whose storage buffers hold 64 bytes, so that every chunk holds one BC1 block. -/
def tinyLimits : Limits := ⟨64, 4, by decide, ⟨65535, 65535, 65535⟩, ⟨128, 128, 64⟩, 128⟩

/-- Every chunk is created anew; the descriptor sets run out at the call `last`. -/
def tinyEnv (first last : Nat) : Env where
  limits := tinyLimits
  pool _ := ⟨[], 0⟩
  created n := ⟨first + n, .success⟩
  descriptors n := if n < last then .success else .errorOutOfDeviceMemory
  pipeline _ := .success

def tinyImage : Image where
  format := bc1RgbUnormBlock
  decodedFormat := 37
  type := .twoD
  extent := ⟨8, 4, 1⟩
  mipLevels := 1
  layers := 1
  blockBytes := 8
  mipOffset := [0]
  blockSize := 16

/-- The upload of an image of two blocks. -/
def tinyUpload (first last : Nat) : Operation :=
  .decodeImage ⟨tinyEnv first last, tinyImage, ⟨0, 0, 0, 0, 0, 1, ⟨0, 0, 0⟩, ⟨8, 4, 1⟩⟩⟩ 8

theorem scratch_used_in_order_twice : ∃ s,
    Transition.run operate .start [tinyUpload 0 9, tinyUpload 9 9] = some s ∧ s.error = .success ∧
      InOrder s :=
  ⟨_, rfl, rfl, scratch_used_in_order [tinyUpload 0 9, tinyUpload 9 9] _ rfl⟩

/-- The second block's descriptor set cannot be had: the first block is decoded, but its copy is
never recorded. -/
theorem failed_upload_loses_copy : ∃ s d,
    Transition.run operate .start [tinyUpload 0 2] = some s ∧
      s.error = .errorOutOfDeviceMemory ∧ s.log = [.dispatch d, .toCompute, .blocksToCompute] :=
  ⟨_, _, rfl, rfl, rfl⟩

end Bc
