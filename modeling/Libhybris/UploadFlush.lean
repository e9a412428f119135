import Libhybris.MemoryVisibility
import Libhybris.Transition

/-!
# Flushes of host uploads

`flush_upload` of `memory_visibility.c`, run by any number of threads between any operations on the
metadata. It decides under the lock, calls the driver without it, and stores the result under the
lock if nothing it depends on has changed. A binding of the same vertex buffer in the same recording
then needs no flush. A call of the application to flush or invalidate is recorded under the lock
before it reaches the driver. The log is a history that no branch reads.
-/
namespace UploadFlush

open MemoryVisibility Vulkan List Registry

/-- The usage of buffers that hold texture (0), vertex (1) or indirect parameter (2) uploads. -/
def hostUsage (kind : Nat) : UInt32 :=
  if kind = 2 then 0x100 else if kind = 1 then 0x80 ||| 0x2 else 0x1

/-- What a flush has copied under the lock. -/
structure Flush where
  device : Device
  source : Nat
  epoch : Nat
  allocation : Allocation
  buffer : Buffer
deriving DecidableEq, Repr

/-- The bytes to flush. -/
def uploadRange (a : Allocation) (b : Buffer) : UInt64 × UInt64 :=
  alignedRange a b.offset (b.offset + b.size)

inductive Decision where
  | nothing
  | fail (result : VkResult)
  | reuse
  | flush (f : Flush)
deriving DecidableEq, Repr

/-- The upload of this epoch was flushed and the mapping is the same. -/
def Reusable (a : Allocation) (b : Buffer) (epoch : Nat) : Prop :=
  epoch ≠ 0 ∧ a.uploadRevision ≠ maxCounter ∧ b.vertexUploadEpoch = epoch ∧
    b.vertexUploadRevision = a.uploadRevision

instance (a : Allocation) (b : Buffer) (epoch : Nat) : Decidable (Reusable a b epoch) :=
  inferInstanceAs (Decidable (_ ∧ _))

/-- The first section of `flush_upload`; `policy` is `HYBRIS_APP_HOST_UPLOAD_FLUSH` of the
device. -/
def decision (policy : Bool) (m : Memory) (device : Device) (source kind recordingEpoch : Nat) :
    Decision :=
  let epoch := if kind = 1 then recordingEpoch else 0
  if policy = false then .nothing
  else match findBuffer m device source with
  | none => .fail .errorInitializationFailed
  | some b =>
    if b.usage ≠ hostUsage kind then .nothing
    else
      match findMemory m device b.memory with
      | none => .fail .errorInitializationFailed
      | some a =>
        if b.memoryGeneration = 0 ∨ a.generation ≠ b.memoryGeneration then .fail .errorInitializationFailed
        else if a.mapped ∧ a.coherent = false then
          if ¬ Fits a b then .fail errorMemoryMapFailed
          else if ¬ a.Covers (uploadRange a b) then .fail errorMemoryMapFailed
          else if Reusable a b epoch then .reuse
          else .flush ⟨device, source, epoch, a, b⟩
        else .nothing

/-- Nothing the flush depends on has changed. -/
def Current (a : Allocation) (b : Buffer) (f : Flush) : Prop :=
  b.generation = f.buffer.generation ∧ b.memory = f.allocation.memory ∧ b.offset = f.buffer.offset ∧
    b.memoryGeneration = f.allocation.generation ∧ a.generation = f.allocation.generation ∧
    a.uploadRevision = f.allocation.uploadRevision ∧ a.mapped = true

instance (a : Allocation) (b : Buffer) (f : Flush) : Decidable (Current a b f) :=
  inferInstanceAs (Decidable (_ ∧ _))

def uploaded (f : Flush) (b : Buffer) : Buffer :=
  { b with vertexUploadEpoch := f.epoch, vertexUploadRevision := f.allocation.uploadRevision }

/-- The second section. -/
def store (m : Memory) (f : Flush) : Memory :=
  match findBuffer m f.device f.source, findMemory m f.device f.allocation.memory with
  | some b, some a =>
    if Current a b f then
      { m with buffers := Registry.modify Buffer.key (f.device, f.source) (uploaded f) m.buffers }
    else m
  | _, _ => m

/-- A flush between its two sections. -/
structure Flight where
  token : Nat
  flush : Flush
  succeeded : Bool
deriving DecidableEq, Repr

inductive Event where
  | change (c : Change)
  | start (token : Nat) (f : Flush)
  /-- the driver was called, when the handle stood for the allocation of this generation -/
  | issued (token : Nat) (generation : Option Nat)
  | flushed (token : Nat)
  | stored (token : Nat)
  /-- a call of the application to flush or invalidate has reached the driver -/
  | cached (device : Device) (memory : Nat)
deriving DecidableEq, Repr

structure State where
  memory : Memory := {}
  /-- calls of the application that have not reached the driver -/
  calls : List (Device × Nat) := []
  flights : List Flight := []
  nextToken : Nat := 0
  log : List Event := []
deriving DecidableEq, Repr

inductive Action where
  | memory (op : Op)
  | flush (device : Device) (source kind recordingEpoch : Nat)
  | answer (token : Nat) (success : Bool)
  | store (token : Nat)
  | cacheMemory (device : Device) (memory : Nat)
deriving DecidableEq, Repr

/-- The driver's answer; only a successful flush of a recording's upload has a second section. -/
def answer (s : State) (p : Flight) (success : Bool) : State :=
  let issued := Event.issued p.token
    ((findMemory s.memory p.flush.device p.flush.allocation.memory).map Allocation.generation)
  if success then
    { s with
      log := s.log ++ [issued, .flushed p.token]
      flights :=
        if p.flush.epoch ≠ 0 then
          Registry.modify Flight.token p.token (fun p => { p with succeeded := true }) s.flights
        else Registry.remove Flight.token p.token s.flights }
  else
    { s with
      log := s.log ++ [issued]
      flights := Registry.remove Flight.token p.token s.flights }

/-- The call of the application that a section belongs to, if the driver is called behind it. -/
def cacheCall : Op → Option (Device × Nat)
  | .explicitCacheChange device memory => some (device, memory)
  | _ => none

def step (policy : Device → Bool) (s : State) : Action → Option State
  | .memory op =>
    -- `explicit_cache_change` has no section without the policy
    (if (cacheCall op).any fun c => !policy c.1 then some (s.memory, []) else apply s.memory op).map
      fun r => { s with
        memory := r.1
        calls := (cacheCall op).toList ++ s.calls
        log := s.log ++ r.2.map .change }
  | .flush device source kind recordingEpoch =>
    match decision (policy device) s.memory device source kind recordingEpoch with
    | .flush f => some { s with
        flights := ⟨s.nextToken, f, false⟩ :: s.flights
        nextToken := s.nextToken + 1
        log := s.log ++ [.start s.nextToken f] }
    | _ => some s
  | .answer token success =>
    match Registry.lookup Flight.token token s.flights with
    | some p => if p.succeeded then none else some (answer s p success)
    | none => none
  | .store token =>
    match Registry.lookup Flight.token token s.flights with
    | some p =>
      if p.succeeded then
        some { s with
          memory := store s.memory p.flush
          flights := Registry.remove Flight.token token s.flights
          log := s.log ++ [.stored token] }
      else none
    | none => none
  | .cacheMemory device memory =>
    if s.calls.contains (device, memory) then
      some { s with
        calls := s.calls.erase (device, memory)
        log := s.log ++ [.cached device memory] }
    else none

/-! ## What a flush in progress can rely on -/

/-- A flush that started at a position of the log, and what its objects have become since. -/
structure Tracks (m : Memory) (log : List Event) (i : Nat) (f : Flush) : Prop where
  started : i < log.length
  known : ∀ g, g = f.allocation.generation ∨ g = f.buffer.generation → g ≤ m.nextGeneration ∧ g ∉ m.reserved
  identity : ∀ a ∈ m.allocations, a.generation = f.allocation.generation →
    a.identity = f.allocation.identity
  revision : ∀ a ∈ m.allocations, a.generation = f.allocation.generation →
    f.allocation.uploadRevision ≤ a.uploadRevision
  unaltered : ∀ a ∈ m.allocations, a.generation = f.allocation.generation →
    a.uploadRevision = f.allocation.uploadRevision → a.uploadRevision ≠ maxCounter →
      ∀ c, .change c ∈ log.drop (i + 1) → ¬ c.Alters a.generation
  buffer : ∀ b ∈ m.buffers, b.generation = f.buffer.generation →
    b.identity = f.buffer.identity ∧ .change (.created b.device b.handle) ∉ log.drop (i + 1)
  freed : (∃ a ∈ m.allocations, a.identity = f.allocation.identity) ∨
    .change (.freed f.allocation.generation) ∈ log.drop (i + 1)

variable {log new : List Event} {i token source : Nat} {a : Allocation} {m : Memory} {f : Flush}
  {device : Device} {b : Buffer} {s s' : State}

theorem mem_drop_append (h : i < log.length) (new : List Event) (e : Event) :
    e ∈ (log ++ new).drop (i + 1) ↔ e ∈ log.drop (i + 1) ∨ e ∈ new := by
  rw [drop_append_of_le_length h, mem_append]

theorem identity_generation {a' : Allocation} (h : a'.identity = a.identity) :
    a'.generation = a.generation := congrArg (fun x => x.2.1) h

theorem identity_buffer {b b' : Buffer} (h : b'.identity = b.identity) :
    b'.generation = b.generation ∧ b'.device = b.device ∧ b'.handle = b.handle := by
  simp only [Buffer.identity, Prod.mk.injEq] at h
  exact ⟨h.2.1, h.1, h.2.2.1⟩

theorem Tracks.apply {m' : Memory} {op : Op} {changes : List Change} (h : Tracks m log i f)
    (ht : Tables m) (happly : MemoryVisibility.apply m op = some (m', changes)) :
    Tracks m' (log ++ changes.map .change) i f := by
  obtain ⟨-, hnext, hreserved, hallocations, houtcome, hbuffers⟩ := ht.evolves happly
  have hdrop := fun e => mem_drop_append h.started (changes.map .change) e
  have hchange : ∀ c, .change c ∈ changes.map Event.change ↔ c ∈ changes := fun c => by simp
  -- an allocation of the generation is a successor of one from before
  have hold : ∀ a' ∈ m'.allocations, a'.generation = f.allocation.generation →
      ∃ a ∈ m.allocations, a.generation = f.allocation.generation ∧ Successor a a' changes := by
    intro a' ha' hgeneration
    rcases hallocations a' ha' with ⟨a, ha, hs⟩ | hnew
    · exact ⟨a, ha, (identity_generation hs.identity).symm.trans hgeneration, hs⟩
    · exact absurd (hgeneration ▸ hnew) (h.known _ (.inl rfl)).2
  refine ⟨?_, fun g hg => ?_, fun a' ha' hgeneration => ?_, fun a' ha' hgeneration => ?_,
    fun a' ha' hgeneration hrevision hmax c hc => ?_, fun b' hb' hgeneration => ?_, ?_⟩
  · rw [length_append]
    exact Nat.lt_add_right _ h.started
  · obtain ⟨hle, hnot⟩ := h.known g hg
    refine ⟨Nat.le_trans hle hnext, fun hm => ?_⟩
    rcases hreserved g hm with hm | hlt
    · exact hnot hm
    · omega
  · obtain ⟨a, ha, hg, hs⟩ := hold a' ha' hgeneration
    exact hs.identity.trans (h.identity a ha hg)
  · obtain ⟨a, ha, hg, hs⟩ := hold a' ha' hgeneration
    exact Nat.le_trans (h.revision a ha hg) hs.revision
  · obtain ⟨a, ha, hg, hs⟩ := hold a' ha' hgeneration
    have hle := h.revision a ha hg
    have hle' := hs.revision
    have heq : a.uploadRevision = f.allocation.uploadRevision := by omega
    have heq' : a'.uploadRevision = a.uploadRevision := by omega
    rw [identity_generation hs.identity]
    rcases (hdrop _).mp hc with hc | hc
    · exact h.unaltered a ha hg heq (heq' ▸ hmax) c hc
    · exact hs.altered heq' (heq' ▸ hmax) c ((hchange c).mp hc)
  · rcases hbuffers b' hb' with ⟨b, hb, hs⟩ | ⟨hnew, -⟩
    · have hid := hs.identity
      obtain ⟨hg, hd, hx⟩ := identity_buffer hid
      obtain ⟨hidentity, hcreated⟩ := h.buffer b hb (hg.symm.trans hgeneration)
      refine ⟨hid.trans hidentity, fun hm => ?_⟩
      rw [hd, hx] at hm
      rcases (hdrop _).mp hm with hm | hm
      · exact hcreated hm
      · exact hs.created ((hchange _).mp hm)
    · exact absurd (hgeneration ▸ hnew) (h.known _ (.inr rfl)).2
  · rcases h.freed with ⟨a, ha, hid⟩ | hm
    · rcases houtcome a ha with ⟨a', ha', hid', -⟩ | hm
      · exact .inl ⟨a', ha', hid'.trans hid⟩
      · refine .inr ((hdrop _).mpr (.inr ((hchange _).mpr ?_)))
        rw [← identity_generation hid]
        exact hm
    · exact .inr ((hdrop _).mpr (.inl hm))

/-- Sections that leave the allocations and the identities of the buffers as they are. -/
theorem Tracks.other {m' : Memory} (h : Tracks m log i f) (hallocations : m'.allocations = m.allocations)
    (hbuffers : ∀ b' ∈ m'.buffers, ∃ b ∈ m.buffers, b'.identity = b.identity)
    (hnext : m'.nextGeneration = m.nextGeneration) (hreserved : m'.reserved = m.reserved)
    (hnew : ∀ c, .change c ∉ new) : Tracks m' (log ++ new) i f := by
  have hdrop : ∀ c, .change c ∈ (log ++ new).drop (i + 1) → .change c ∈ log.drop (i + 1) := fun c hc =>
    ((mem_drop_append h.started new _).mp hc).resolve_right (hnew c)
  refine ⟨?_, fun g hg => ?_, ?_, ?_, ?_, fun b' hb' hgeneration => ?_, ?_⟩
  · rw [length_append]
    exact Nat.lt_add_right _ h.started
  · rw [hnext, hreserved]
    exact h.known g hg
  · rw [hallocations]
    exact h.identity
  · rw [hallocations]
    exact h.revision
  · rw [hallocations]
    exact fun a ha hg hr hm c hc => h.unaltered a ha hg hr hm c (hdrop c hc)
  · obtain ⟨b, hb, hid⟩ := hbuffers b' hb'
    obtain ⟨hg, hd, hx⟩ := identity_buffer hid
    obtain ⟨hidentity, hcreated⟩ := h.buffer b hb (hg.symm.trans hgeneration)
    refine ⟨hid.trans hidentity, fun hm => hcreated ?_⟩
    rw [hd, hx] at hm
    exact hdrop _ hm
  · rw [hallocations]
    exact h.freed.imp id fun hm => (mem_drop_append h.started new _).mpr (.inl hm)

/-- At its start a flush has the objects as they are. -/
theorem Tracks.start (ht : Tables m) (ha : f.allocation ∈ m.allocations) (hb : f.buffer ∈ m.buffers)
    (log : List Event) (token : Nat) : Tracks m (log ++ [.start token f]) log.length f := by
  have hdrop : (log ++ [Event.start token f]).drop (log.length + 1) = [] := by simp
  have hsame : ∀ a ∈ m.allocations, a.generation = f.allocation.generation → a = f.allocation :=
    fun a ha' hg => inj_on_of_nodup_map ht.allocationGenerations ha' ha hg
  have hnodup := ht.generations
  rw [Memory.generations, append_assoc] at hnodup
  refine ⟨by simp, fun g hg => ?_, fun a ha' hg => ?_, fun a ha' hg => ?_,
    fun a ha' hg hr hm c hc => ?_, fun b hb' hg => ?_, .inl ⟨_, ha, rfl⟩⟩
  · have hmem : g ∈ m.allocations.map Allocation.generation ++ m.buffers.map Buffer.generation := by
      rcases hg with rfl | rfl
      · exact mem_append_left _ (mem_map_of_mem ha)
      · exact mem_append_right _ (mem_map_of_mem hb)
    refine ⟨ht.bounded g ?_, fun hr => (nodup_append.mp hnodup).2.2 g hr g hmem rfl⟩
    rw [Memory.generations, append_assoc]
    exact mem_append_right _ hmem
  · rw [hsame a ha' hg]
  · exact hsame a ha' hg ▸ Nat.le_refl _
  · rw [hdrop] at hc
    cases hc
  · rw [hdrop, inj_on_of_nodup_map ht.bufferGenerations hb' hb hg]
    exact ⟨rfl, not_mem_nil⟩

/-! ## The two sections -/

theorem decision_flush {policy : Bool} {kind recordingEpoch : Nat}
    (h : decision policy m device source kind recordingEpoch = .flush f) :
    f.device = device ∧ f.source = source ∧ findBuffer m device source = some f.buffer ∧
      findMemory m device f.buffer.memory = some f.allocation ∧
      f.allocation.generation = f.buffer.memoryGeneration := by
  simp only [decision] at h
  split at h
  · cases h
  cases hb : findBuffer m device source with
  | none =>
    rw [hb] at h
    cases h
  | some b =>
    simp only [hb] at h
    split at h
    · cases h
    cases ha : findMemory m device b.memory with
    | none =>
      rw [ha] at h
      cases h
    | some a =>
      simp only [ha] at h
      by_cases hgeneration : b.memoryGeneration = 0 ∨ a.generation ≠ b.memoryGeneration
      · rw [if_pos hgeneration] at h
        cases h
      · repeat' split at h
        all_goals cases h
        all_goals exact ⟨rfl, rfl, rfl, ha, not_not.mp (not_or.mp hgeneration).2⟩

/-- A vertex buffer whose bytes could be flushed and are not has been uploaded in this epoch. -/
theorem decision_reuse {epoch : Nat} (hb : findBuffer m device source = some b)
    (husage : b.usage = hostUsage 1) (ha : findMemory m device b.memory = some a)
    (hbound : b.memoryGeneration ≠ 0) (hgeneration : a.generation = b.memoryGeneration)
    (hmapped : a.mapped = true) (hcoherent : a.coherent = false) (hfits : Fits a b)
    (hcovers : a.Covers (uploadRange a b)) (h : ∀ f, decision true m device source 1 epoch ≠ .flush f) :
    Reusable a b epoch := by
  by_contra hnot
  refine h ⟨device, source, epoch, a, b⟩ ?_
  simp only [decision, hb, husage, ha, Bool.true_eq_false, if_false]
  rw [if_neg (by simp), if_neg (by simp [hbound, hgeneration]), if_pos ⟨hmapped, hcoherent⟩,
    if_neg (not_not.mpr hfits), if_neg (not_not.mpr hcovers)]
  simp only [if_true]
  rw [if_neg hnot]

theorem store_buffers (m : Memory) (f : Flush) : (store m f).allocations = m.allocations ∧
    (store m f).nextGeneration = m.nextGeneration ∧ (store m f).reserved = m.reserved ∧
    (store m f).buffers.map (fun b => (b.handles, b.generation)) =
      m.buffers.map fun b => (b.handles, b.generation) := by
  rw [store]
  split
  · split
    · exact ⟨rfl, rfl, rfl, map_modify Buffer.key _ (f := uploaded f) (fun _ => rfl) m.buffers⟩
    · exact ⟨rfl, rfl, rfl, rfl⟩
  · exact ⟨rfl, rfl, rfl, rfl⟩

theorem tables_store (h : Tables m) (f : Flush) : Tables (store m f) := by
  obtain ⟨ha, hn, hr, hb⟩ := store_buffers m f
  refine h.shrink ?_ ?_ ?_ (Nat.le_of_eq hn.symm)
  · rw [hr]
  · rw [ha]
  · rw [hb]

/-- A buffer after the second section: as before, or uploaded. -/
theorem mem_store (h : Tables m) {b' : Buffer} (hb' : b' ∈ (store m f).buffers) :
    b' ∈ m.buffers ∨ ∃ a b, findBuffer m f.device f.source = some b ∧
      findMemory m f.device f.allocation.memory = some a ∧ Current a b f ∧ b' = uploaded f b := by
  rw [store] at hb'
  split at hb'
  case h_1 b a hb ha =>
    split at hb'
    case isTrue hcurrent =>
      rcases mem_modify_of_nodup Buffer.key h.bufferKeys hb' with ⟨b₀, hb₀, rfl⟩ | ⟨hb', -⟩
      · rw [findBuffer] at hb
        rw [hb] at hb₀
        cases hb₀
        exact .inr ⟨a, b, hb, ha, hcurrent, rfl⟩
      · exact .inl hb'
    case isFalse => exact .inl hb'
  case h_2 => exact .inl hb'

/-! ## The invariant -/

/-- A flush has started and its objects are tracked. -/
structure Started (s : State) (i token : Nat) (f : Flush) : Prop where
  event : s.log[i]? = some (.start token f)
  bound : f.allocation.generation = f.buffer.memoryGeneration
  place : f.allocation.device = f.device
  tracks : Tracks s.memory s.log i f

/-- The upload a buffer remembers was a flush of the bytes it holds. -/
structure Stored (s : State) (b : Buffer) (i j token : Nat) (f : Flush) : Prop where
  started : Started s i token f
  event : s.log[j]? = some (.stored token)
  flushed : .flushed token ∈ s.log.drop (i + 1)
  epoch : f.epoch = b.vertexUploadEpoch
  buffer : f.buffer.generation = b.generation
  offset : f.buffer.offset = b.offset
  allocation : f.allocation.generation = b.memoryGeneration
  revision : f.allocation.uploadRevision = b.vertexUploadRevision
  unbound : .change (.bound b.device b.handle) ∉ s.log.drop (j + 1)

/-- The driver was called for the allocation the buffer was bound to when the flush began, or for
the next one of that handle after it was freed. -/
def Issued (log : List Event) (n token : Nat) (generation : Option Nat) : Prop :=
  ∃ i f, i < n ∧ log[i]? = some (.start token f) ∧ f.allocation.generation =
    f.buffer.memoryGeneration ∧ (generation = some f.allocation.generation ∨
      .change (.freed f.allocation.generation) ∈ (log.take n).drop (i + 1))

structure Inv (s : State) : Prop where
  tables : Tables s.memory
  flights : ∀ p ∈ s.flights, ∃ i, Started s i p.token p.flush ∧
    (p.succeeded = true → .flushed p.token ∈ s.log.drop (i + 1))
  stored : ∀ b ∈ s.memory.buffers, b.vertexUploadEpoch ≠ 0 → ∃ i j token f, Stored s b i j token f
  issued : ∀ n token generation, s.log[n]? = some (.issued token generation) →
    Issued s.log n token generation

theorem Started.append (h : Started s i token f) (hlog : s'.log = s.log ++ new)
    (htracks : Tracks s'.memory s'.log i f) : Started s' i token f := by
  refine ⟨?_, h.bound, h.place, htracks⟩
  rw [hlog, getElem?_append_left h.tracks.started]
  exact h.event

theorem Stored.append {j : Nat} (h : Stored s b i j token f) (hlog : s'.log = s.log ++ new)
    (htracks : Tracks s'.memory s'.log i f) (hnew : .change (.bound b.device b.handle) ∉ new) :
    Stored s' b i j token f := by
  have hj : j < s.log.length := (List.getElem?_eq_some_iff.mp h.event).1
  refine ⟨h.started.append hlog htracks, ?_, ?_, h.epoch, h.buffer, h.offset, h.allocation, h.revision, ?_⟩
  · rw [hlog, getElem?_append_left hj]
    exact h.event
  · rw [hlog]
    exact (mem_drop_append h.started.tracks.started new _).mpr (.inl h.flushed)
  · rw [hlog]
    intro hm
    rcases (mem_drop_append hj new _).mp hm with hm | hm
    · exact h.unbound hm
    · exact hnew hm

theorem Issued.append {n : Nat} {generation : Option Nat} (new : List Event) (hn : n < log.length)
    (h : Issued log n token generation) : Issued (log ++ new) n token generation := by
  obtain ⟨i, f, hi, hevent, hbound, hcase⟩ := h
  refine ⟨i, f, hi, ?_, hbound, ?_⟩
  · rw [getElem?_append_left (Nat.lt_trans hi hn)]
    exact hevent
  · rw [take_append_of_le_length (Nat.le_of_lt hn)]
    exact hcase

/-! ## Steps -/

/-- The log grows. Flights go on, or are at their start; buffers stay as they are, are new or bound
again, or have their upload stored; and what the driver is called for is what it should be. -/
theorem Inv.extend (h : Inv s) (hlog : s'.log = s.log ++ new) (htables : Tables s'.memory)
    (htracks : ∀ i f, Tracks s.memory s.log i f → Tracks s'.memory s'.log i f)
    (hflights : ∀ q' ∈ s'.flights, (∃ q ∈ s.flights, q'.token = q.token ∧ q'.flush = q.flush ∧
        (q'.succeeded = true → q.succeeded = true ∨ .flushed q.token ∈ new)) ∨
      q'.succeeded = false ∧ ∃ i, Started s' i q'.token q'.flush)
    (hbuffers : ∀ b ∈ s'.memory.buffers, b.vertexUploadEpoch = 0 ∨
      b ∈ s.memory.buffers ∧ .change (.bound b.device b.handle) ∉ new ∨
      ∃ i j token f, Stored s' b i j token f)
    (hissued : ∀ n token generation, new[n]? = some (.issued token generation) →
      Issued s'.log (s.log.length + n) token generation) : Inv s' := by
  refine ⟨htables, fun q' hq' => ?_, fun b hb hepoch => ?_, fun n token generation hevent => ?_⟩
  · rcases hflights q' hq' with ⟨q, hq, htoken, hflush, hsucceeded⟩ | ⟨hfails, i, hs⟩
    · obtain ⟨i, hs, hflushed⟩ := h.flights q hq
      refine ⟨i, ?_, fun hs' => ?_⟩
      · rw [htoken, hflush]
        exact hs.append hlog (htracks i _ hs.tracks)
      · rw [hlog, htoken]
        exact (mem_drop_append hs.tracks.started _ _).mpr ((hsucceeded hs').imp_left hflushed)
    · exact ⟨i, hs, fun hs' => absurd (hfails.symm.trans hs') Bool.false_ne_true⟩
  · rcases hbuffers b hb with hzero | ⟨hold, hunbound⟩ | hstored
    · exact absurd hzero hepoch
    · obtain ⟨i, j, token, f, hstored⟩ := h.stored b hold hepoch
      exact ⟨i, j, token, f, hstored.append hlog (htracks i f hstored.started.tracks) hunbound⟩
    · exact hstored
  · rw [hlog] at hevent
    by_cases hn : n < s.log.length
    · rw [getElem?_append_left hn] at hevent
      rw [hlog]
      exact (h.issued n token generation hevent).append new hn
    · rw [getElem?_append_right (Nat.le_of_not_lt hn)] at hevent
      have hindex := hissued _ token generation hevent
      rwa [Nat.add_sub_cancel' (Nat.le_of_not_lt hn)] at hindex

/-- Events that are neither changes nor calls of the driver for an upload. -/
theorem Inv.outside (h : Inv s) (hmemory : s'.memory = s.memory) (hflights : s'.flights = s.flights)
    (hlog : s'.log = s.log ++ new) (hchange : ∀ c, .change c ∉ new)
    (hissued : ∀ token generation, .issued token generation ∉ new) : Inv s' := by
  refine h.extend hlog (hmemory ▸ h.tables) (fun i f ht => ?_)
    (fun q hq => .inl ⟨q, hflights ▸ hq, rfl, rfl, .inl⟩)
    (fun b hb => .inr (.inl ⟨hmemory ▸ hb, hchange _⟩))
    fun n token generation hevent => absurd (mem_of_getElem? hevent) (hissued token generation)
  rw [hmemory, hlog]
  exact ht.other rfl (fun b hb => ⟨b, hb, rfl⟩) rfl rfl hchange

theorem Inv.memory (h : Inv s) {op : Op} {changes : List Change}
    (happly : apply s.memory op = some (m, changes)) (calls : List (Device × Nat)) :
    Inv { s with memory := m, calls := calls, log := s.log ++ changes.map .change } := by
  refine h.extend rfl (h.tables.evolves happly).tables (fun i f ht => ht.apply h.tables happly)
    (fun q hq => .inl ⟨q, hq, rfl, rfl, .inl⟩) (fun b' hb' => ?_) fun n token generation hevent => ?_
  · rcases (h.tables.evolves happly).buffers b' hb' with ⟨b, hb, hs⟩ | ⟨-, hzero⟩
    · rcases hs.unbound with ⟨rfl, hunbound⟩ | hzero
      · exact .inr (.inl ⟨hb, by simpa using hunbound⟩)
      · exact .inl hzero
    · exact .inl hzero
  · exact absurd (mem_of_getElem? hevent) (by simp)

theorem Inv.flush (h : Inv s) {policy : Bool} {kind recordingEpoch : Nat}
    (hf : decision policy s.memory device source kind recordingEpoch = .flush f) :
    Inv { s with
      flights := ⟨s.nextToken, f, false⟩ :: s.flights
      nextToken := s.nextToken + 1
      log := s.log ++ [.start s.nextToken f] } := by
  obtain ⟨rfl, rfl, hb, ha, hbound⟩ := decision_flush hf
  refine h.extend rfl h.tables (fun i f' ht => ?_) (fun q hq => ?_)
    (fun b hb => .inr (.inl ⟨hb, by simp⟩)) fun n token generation hevent => ?_
  · exact ht.other rfl (fun b hb => ⟨b, hb, rfl⟩) rfl rfl (by simp)
  · rcases mem_cons.mp hq with rfl | hq
    · refine .inr ⟨rfl, s.log.length, by simp, hbound, ?_, ?_⟩
      · exact congrArg Prod.fst (key_of_lookup _ ha)
      · exact Tracks.start h.tables (mem_of_lookup _ ha) (mem_of_lookup _ hb) _ _
    · exact .inl ⟨q, hq, rfl, rfl, .inl⟩
  · exact absurd (mem_of_getElem? hevent) (by simp)

/-- The driver is called for the tracked allocation, unless that was freed. -/
theorem Started.issued (h : Started s i token f) (ht : Tables s.memory) (new : List Event) :
    Issued (s.log ++ new) s.log.length token
      ((findMemory s.memory f.device f.allocation.memory).map Allocation.generation) := by
  refine ⟨i, f, h.tracks.started, ?_, h.bound, ?_⟩
  · rw [getElem?_append_left h.tracks.started]
    exact h.event
  · rw [take_left]
    rcases h.tracks.freed with ⟨a, ha, hid⟩ | hm
    · have hdevice : a.device = f.allocation.device := congrArg (fun x => x.1) hid
      have hmemory : a.memory = f.allocation.memory := congrArg (fun x => x.2.2.1) hid
      have hfind : findMemory s.memory f.device f.allocation.memory = some a := by
        rw [← h.place, ← hdevice, ← hmemory]
        exact lookup_of_mem _ ht.allocationKeys ha
      rw [hfind]
      exact .inl (congrArg some (identity_generation hid))
    · exact .inr hm

theorem Inv.answer (h : Inv s) {p : Flight} (hp : p ∈ s.flights) (success : Bool) :
    Inv (answer s p success) := by
  obtain ⟨i, hstarted, -⟩ := h.flights p hp
  have hremove : ∀ q ∈ Registry.remove Flight.token p.token s.flights, q ∈ s.flights :=
    fun q hq => (remove_sublist _ _ _).subset hq
  rw [UploadFlush.answer]
  split
  case isTrue =>
    refine h.extend rfl h.tables (fun i f ht => ?_) (fun q' hq' => .inl ?_)
      (fun b hb => .inr (.inl ⟨hb, by simp⟩)) fun n token generation hevent => ?_
    · exact ht.other rfl (fun b hb => ⟨b, hb, rfl⟩) rfl rfl (by simp)
    · dsimp only at hq'
      split at hq'
      · rcases mem_modify _ hq' with ⟨q, hq, rfl⟩ | hq
        · refine ⟨q, mem_of_lookup _ hq, rfl, rfl, fun _ => .inr ?_⟩
          rw [key_of_lookup _ hq]
          simp
        · exact ⟨q', hq, rfl, rfl, .inl⟩
      · exact ⟨q', hremove q' hq', rfl, rfl, .inl⟩
    · cases n with
      | zero =>
        cases hevent
        exact hstarted.issued h.tables _
      | succ n => cases n <;> simp at hevent
  case isFalse =>
    refine h.extend rfl h.tables (fun i f ht => ?_)
      (fun q' hq' => .inl ⟨q', hremove q' hq', rfl, rfl, .inl⟩)
      (fun b hb => .inr (.inl ⟨hb, by simp⟩)) fun n token generation hevent => ?_
    · exact ht.other rfl (fun b hb => ⟨b, hb, rfl⟩) rfl rfl (by simp)
    · cases n with
      | zero =>
        cases hevent
        exact hstarted.issued h.tables _
      | succ n => simp at hevent

theorem Inv.store (h : Inv s) {p : Flight} (hp : p ∈ s.flights) (hsucceeded : p.succeeded = true) :
    Inv { s with
      memory := store s.memory p.flush
      flights := Registry.remove Flight.token p.token s.flights
      log := s.log ++ [.stored p.token] } := by
  obtain ⟨hallocations, hnext, hreserved, -⟩ := store_buffers s.memory p.flush
  have hidentity : ∀ b' ∈ (UploadFlush.store s.memory p.flush).buffers,
      ∃ b ∈ s.memory.buffers, b'.identity = b.identity := by
    intro b' hb'
    rcases mem_store h.tables hb' with hb | ⟨a, b, hb, -, -, rfl⟩
    · exact ⟨b', hb, rfl⟩
    · exact ⟨b, mem_of_lookup _ hb, rfl⟩
  have hother : ∀ i f, Tracks s.memory s.log i f →
      Tracks (UploadFlush.store s.memory p.flush) (s.log ++ [.stored p.token]) i f := fun i f ht =>
    ht.other hallocations hidentity hnext hreserved (by simp)
  refine h.extend rfl (tables_store h.tables p.flush) hother
    (fun q hq => .inl ⟨q, (remove_sublist _ _ _).subset hq, rfl, rfl, .inl⟩) (fun b' hb' => .inr ?_)
    fun n token generation hevent => absurd (mem_of_getElem? hevent) (by simp)
  rcases mem_store h.tables hb' with hb | ⟨a, b, hb, ha, hcurrent, rfl⟩
  · exact .inl ⟨hb, by simp⟩
  · obtain ⟨i, hs, hflushed⟩ := h.flights p hp
    obtain ⟨hgeneration, -, hoffset, hmemory, -⟩ := hcurrent
    refine .inr ⟨i, s.log.length, p.token, p.flush, hs.append rfl (hother i _ hs.tracks), by simp,
      ?_, rfl, hgeneration.symm, hoffset.symm, hmemory.symm, rfl, by simp⟩
    exact (mem_drop_append hs.tracks.started _ _).mpr (.inl (hflushed hsucceeded))

theorem Inv.step {policy : Device → Bool} {a : Action} (h : Inv s)
    (hstep : step policy s a = some s') : Inv s' := by
  cases a with
  | memory op =>
    obtain ⟨⟨m, changes⟩, happly, rfl⟩ := Option.map_eq_some_iff.mp hstep
    split at happly
    · cases happly
      exact h.outside rfl rfl rfl (by simp) (by simp)
    · exact h.memory happly _
  | flush device source kind recordingEpoch =>
    rw [UploadFlush.step] at hstep
    split at hstep
    case h_1 f hf =>
      cases hstep
      exact h.flush hf
    case h_2 =>
      cases hstep
      exact h
  | answer token success =>
    rw [UploadFlush.step] at hstep
    split at hstep
    case h_1 p hp =>
      obtain ⟨-, hstep⟩ := Option.ite_none_left_eq_some.mp hstep
      cases hstep
      exact h.answer (mem_of_lookup _ hp) success
    case h_2 => cases hstep
  | store token =>
    rw [UploadFlush.step] at hstep
    split at hstep
    case h_1 p hp =>
      obtain ⟨hsucceeded, hstep⟩ := Option.ite_none_right_eq_some.mp hstep
      cases hstep
      have htoken := key_of_lookup _ hp
      subst htoken
      exact h.store (mem_of_lookup _ hp) hsucceeded
    case h_2 => cases hstep
  | cacheMemory device memory =>
    obtain ⟨-, hstep⟩ := Option.ite_none_right_eq_some.mp hstep
    cases hstep
    exact h.outside rfl rfl rfl (by simp) (by simp)

theorem Inv.start : Inv {} where
  tables := ⟨nodup_nil, nodup_nil, nodup_nil, nofun⟩
  flights := nofun
  stored := nofun
  issued := by simp

/-! ## Reuse -/

/-- An earlier flush of the same bytes of the same allocation succeeded in the recording epoch.
Since it started the mapping was not changed or flushed and the buffer not created again; since its
result was stored the buffer was not bound. -/
def Redundant (log : List Event) (a : Allocation) (b : Buffer) (epoch : Nat) : Prop :=
  ∃ i j token f, log[i]? = some (.start token f) ∧ log[j]? = some (.stored token) ∧
    f.epoch = epoch ∧ f.allocation.identity = a.identity ∧ f.buffer.identity = b.identity ∧
    uploadRange f.allocation f.buffer = uploadRange a b ∧ .flushed token ∈ log.drop (i + 1) ∧
    (∀ c, .change c ∈ log.drop (i + 1) → ¬ c.Alters a.generation ∧ c ≠ .created b.device b.handle) ∧
    .change (.bound b.device b.handle) ∉ log.drop (j + 1)

theorem uploadRange_congr {a' : Allocation} {b' : Buffer} (ha : a.identity = a'.identity)
    (hb : b.identity = b'.identity) (hoffset : b.offset = b'.offset) :
    uploadRange a b = uploadRange a' b' := by
  simp only [Allocation.identity, Prod.mk.injEq] at ha
  simp only [Buffer.identity, Prod.mk.injEq] at hb
  rw [uploadRange, uploadRange, hoffset, hb.2.2.2.1, alignedRange, alignedRange, ha.2.2.2.1, ha.2.2.2.2.1]

theorem Inv.redundant (h : Inv s) {epoch : Nat} (ha : a ∈ s.memory.allocations) (hb : b ∈ s.memory.buffers)
    (hgeneration : a.generation = b.memoryGeneration) (hreusable : Reusable a b epoch) :
    Redundant s.log a b epoch := by
  obtain ⟨hepoch, hmax, hsame, hrevision⟩ := hreusable
  obtain ⟨i, j, token, f, hstored⟩ := h.stored b hb (hsame ▸ hepoch)
  have htracks := hstored.started.tracks
  have hallocation : a.generation = f.allocation.generation := hgeneration.trans hstored.allocation.symm
  have hidentity := htracks.identity a ha hallocation
  obtain ⟨hbuffer, hcreated⟩ := htracks.buffer b hb hstored.buffer.symm
  have hunaltered := htracks.unaltered a ha hallocation (hrevision.symm.trans hstored.revision.symm) hmax
  refine ⟨i, j, token, f, hstored.started.event, hstored.event, hstored.epoch.trans hsame, hidentity.symm,
    hbuffer.symm, uploadRange_congr hidentity.symm hbuffer.symm hstored.offset, hstored.flushed,
    fun c hc => ⟨hunaltered c hc, ?_⟩, hstored.unbound⟩
  rintro rfl
  exact hcreated hc

/-- In every run: a vertex buffer that could be flushed and is not has been flushed in this epoch,
and the driver is only called for the allocation the buffer was bound to, as long as that is not
freed during the call. -/
theorem flush_skipped_redundant (policy : Device → Bool) (actions : List Action) (s : State)
    (hrun : Transition.run (step policy) {} actions = some s) :
    (∀ device source epoch a b, policy device = true → findBuffer s.memory device source = some b →
      b.usage = hostUsage 1 →
      findMemory s.memory device b.memory = some a → b.memoryGeneration ≠ 0 →
      a.generation = b.memoryGeneration → a.mapped = true → a.coherent = false → Fits a b →
      a.Covers (uploadRange a b) →
      (∀ f, decision (policy device) s.memory device source 1 epoch ≠ .flush f) →
      Redundant s.log a b epoch) ∧
    ∀ n token generation, s.log[n]? = some (.issued token generation) →
      Issued s.log n token generation := by
  have hinv : Inv s := Transition.run_invariant (fun _ _ _ h ht => h.step ht) actions _ s Inv.start hrun
  refine ⟨fun device source epoch a b hpolicy hb husage ha hbound hgeneration hmapped hcoherent hfits hcovers h => ?_,
    hinv.issued⟩
  exact hinv.redundant (mem_of_lookup _ ha) (mem_of_lookup _ hb) hgeneration
    (decision_reuse hb husage ha hbound hgeneration hmapped hcoherent hfits hcovers (hpolicy ▸ h))

def sampleDevice : Device := ⟨1, 1⟩

/-- A mapped allocation with a vertex buffer at its start. -/
def sampleUpload (usage : UInt32) : List Action :=
  [.memory .reserve, .memory (.allocateMemory 1 sampleDevice 7 4096 64 false), .memory .reserve,
    .memory (.createBuffer 2 sampleDevice 9 256 usage), .memory (.bound sampleDevice 9 7 0),
    .memory (.mapMemory sampleDevice 7 0 wholeSize)]

/-- The flush of that buffer in a recording of epoch 5. -/
def sampleFlush : Flush :=
  ⟨sampleDevice, 9, 5, ⟨sampleDevice, 1, 1, 7, 4096, 64, 0, 4096, false, true⟩,
    ⟨sampleDevice, 1, 2, 0, 0, 9, 7, 256, 0, hostUsage 1⟩⟩

def observe {β : Type} (f : State → β) (actions : List Action) : Option β :=
  (Transition.run (step fun _ => true) {} actions).map f

def sampleBuffer : Buffer := { sampleFlush.buffer with vertexUploadEpoch := 5, vertexUploadRevision := 1 }

/-- The buffer was flushed in that recording. -/
def sampleState : State where
  memory := ⟨[sampleFlush.allocation], [sampleBuffer], 2, []⟩
  nextToken := 1
  log := [.change (.created sampleDevice 9), .change (.bound sampleDevice 9), .change (.mapped 1),
    .start 0 sampleFlush, .issued 0 (some 1), .flushed 0, .stored 0]

/-- A second binding is not flushed. -/
theorem flush_skipped_redundant_sample :
    decision true sampleState.memory sampleDevice 9 1 5 = .reuse ∧
      Redundant sampleState.log sampleFlush.allocation sampleBuffer 5 := by
  have hreuse : decision true sampleState.memory sampleDevice 9 1 5 = .reuse := by decide
  have hrun : Transition.run (step fun _ => true) {} (sampleUpload (hostUsage 1) ++
      [.flush sampleDevice 9 1 5, .answer 0 true, .store 0]) = some sampleState := by decide +kernel
  refine ⟨hreuse,
    (flush_skipped_redundant (fun _ => true) _ _ hrun).1 sampleDevice 9 5 _ _ rfl ?_ ?_ ?_ ?_ ?_ ?_
      ?_ ?_ ?_ ?_⟩
  case refine_10 =>
    exact nofun
  all_goals decide

/-- A flush can be skipped although, after the flush it relies on had started, the buffer was bound
again, or a call to flush or invalidate that was recorded before has reached the driver. A buffer of
another usage, or of a device without the policy, is never flushed. The memory can be freed and its
handle be another allocation's when the driver is called. -/
theorem flush_skipped_rebound :
    observe (fun s => (decision true s.memory sampleDevice 9 1 5, s.log.drop 3))
        (sampleUpload (hostUsage 1) ++ [.flush sampleDevice 9 1 5,
          .memory (.bound sampleDevice 9 7 0), .answer 0 true, .store 0]) =
      some (.reuse, [.start 0 sampleFlush, .change (.bound sampleDevice 9), .issued 0 (some 1),
        .flushed 0, .stored 0]) ∧
    observe (fun s => (decision true s.memory sampleDevice 9 1 5, s.log.drop 5))
        (sampleUpload (hostUsage 1) ++ [.memory (.explicitCacheChange sampleDevice 7),
          .flush sampleDevice 9 1 5, .answer 0 true, .store 0, .cacheMemory sampleDevice 7]) =
      some (.reuse, [.issued 0 (some 1), .flushed 0, .stored 0, .cached sampleDevice 7]) ∧
    observe (fun s => decision false s.memory sampleDevice 9 1 5) (sampleUpload (hostUsage 1)) =
      some .nothing ∧
    observe (fun s => (decision true s.memory sampleDevice 9 1 5, s.log)) (sampleUpload 0x80) =
      some (.nothing, [.change (.created sampleDevice 9), .change (.bound sampleDevice 9),
        .change (.mapped 1)]) ∧
    observe (fun s => s.log.drop 3)
        (sampleUpload (hostUsage 1) ++ [.flush sampleDevice 9 1 5, .memory (.freeMemory 1 7),
          .memory .reserve, .memory (.allocateMemory 3 sampleDevice 7 4096 64 false), .answer 0 true]) =
      some [.start 0 sampleFlush, .change (.freed 1), .issued 0 (some 3), .flushed 0] := by
  decide +kernel

end UploadFlush
