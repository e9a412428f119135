import Libhybris.Registry
import Libhybris.Vulkan
import Mathlib.Algebra.Group.Nat.Defs

/-!
# Memory and buffer metadata

The tables of `memory_visibility.c`: what the layer remembers of the allocations and buffers of each
device, under the handles of the driver, which it may use again for other objects. Every object has
a generation of its own. An operation is what one section under the metadata lock does; it reports
what it changed.
-/
namespace MemoryVisibility

open Vulkan List Registry

/-- `UINT64_MAX`, where the counters stop. -/
def maxCounter : Nat := 2 ^ 64 - 1

/-- `VK_WHOLE_SIZE` -/
def wholeSize : UInt64 := 0xFFFFFFFFFFFFFFFF

def errorMemoryMapFailed : VkResult := .other (-5)

structure Device where
  handle : Nat
  generation : Nat
deriving DecidableEq, Repr

structure Allocation where
  device : Device
  generation : Nat
  uploadRevision : Nat
  memory : Nat
  size : UInt64
  atom : UInt64
  mapOffset : UInt64
  mapSize : UInt64
  coherent : Bool
  mapped : Bool
deriving DecidableEq, Repr

structure Buffer where
  device : Device
  memoryGeneration : Nat
  generation : Nat
  vertexUploadEpoch : Nat
  vertexUploadRevision : Nat
  handle : Nat
  memory : Nat
  size : UInt64
  offset : UInt64
  usage : UInt32
deriving DecidableEq, Repr

structure Memory where
  allocations : List Allocation := []
  buffers : List Buffer := []
  nextGeneration : Nat := 0
  /-- generations of objects whose creation the driver has not answered yet -/
  reserved : List Nat := []
deriving DecidableEq, Repr

def Allocation.key (a : Allocation) : Device × Nat := (a.device, a.memory)

/-- What `vkFreeMemory` goes by. -/
def Allocation.handles (a : Allocation) : Nat × Nat := (a.device.handle, a.memory)

def Buffer.key (b : Buffer) : Device × Nat := (b.device, b.handle)

def Buffer.handles (b : Buffer) : Nat × Nat := (b.device.handle, b.handle)

def findMemory (m : Memory) (device : Device) (memory : Nat) : Option Allocation :=
  Registry.lookup Allocation.key (device, memory) m.allocations

def findBuffer (m : Memory) (device : Device) (handle : Nat) : Option Buffer :=
  Registry.lookup Buffer.key (device, handle) m.buffers

/-- Saturation disables reuse rather than aliasing an old revision. -/
def changedUploadMapping (a : Allocation) : Allocation :=
  { a with
    uploadRevision := if a.uploadRevision ≠ maxCounter then a.uploadRevision + 1 else a.uploadRevision }

/-! ## Operations -/

inductive Op where
  /-- an object about to be created takes its generation -/
  | reserve
  /-- its creation failed -/
  | abandon (generation : Nat)
  | allocateMemory (generation : Nat) (device : Device) (memory : Nat) (size atom : UInt64)
    (coherent : Bool)
  | freeMemory (device memory : Nat)
  | mapMemory (device : Device) (memory : Nat) (offset size : UInt64)
  | unmapMemory (device : Device) (memory : Nat)
  | createBuffer (generation : Nat) (device : Device) (handle : Nat) (size : UInt64) (usage : UInt32)
  | destroyBuffer (device handle : Nat)
  | bound (device : Device) (buffer memory : Nat) (offset : UInt64)
  /-- one range of a call of the application to flush or invalidate -/
  | explicitCacheChange (device : Device) (memory : Nat)
  | releaseDevice (device : Nat)
deriving DecidableEq, Repr

/-- What an operation has done: to the allocations by generation, to the buffers by handle. -/
inductive Change where
  | mapped (generation : Nat)
  | unmapped (generation : Nat)
  | flushed (generation : Nat)
  | freed (generation : Nat)
  | created (device : Device) (buffer : Nat)
  | bound (device : Device) (buffer : Nat)
deriving DecidableEq, Repr

def Allocation.map (offset size : UInt64) (a : Allocation) : Allocation :=
  { changedUploadMapping a with
    mapped := true
    mapOffset := offset
    mapSize := if size = wholeSize then a.size - offset else size }

def Allocation.unmap (a : Allocation) : Allocation := { changedUploadMapping a with mapped := false }

def Buffer.bind (memory : Nat) (offset : UInt64) (generation : Nat) (b : Buffer) : Buffer :=
  { b with vertexUploadEpoch := 0, memory := memory, offset := offset, memoryGeneration := generation }

/-- Change the allocation of a handle, and say which it was. -/
def onAllocation (m : Memory) (device : Device) (memory : Nat) (f : Allocation → Allocation)
    (change : Nat → Change) : Memory × List Change :=
  ({ m with allocations := Registry.modify Allocation.key (device, memory) f m.allocations },
    (findMemory m device memory).toList.map fun a => change a.generation)

/-- The tables after an operation. The driver does not return a handle that is in use. -/
def apply (m : Memory) : Op → Option (Memory × List Change)
  | .reserve =>
    if m.nextGeneration = maxCounter then none
    else
      some ({ m with
        nextGeneration := m.nextGeneration + 1
        reserved := (m.nextGeneration + 1) :: m.reserved }, [])
  | .abandon generation => some ({ m with reserved := m.reserved.erase generation }, [])
  | .allocateMemory generation device memory size atom coherent =>
    if generation ∈ m.reserved ∧ (device.handle, memory) ∉ m.allocations.map Allocation.handles then
      some ({ m with
        reserved := m.reserved.erase generation
        allocations := ⟨device, generation, 0, memory, size, atom, 0, 0, coherent, false⟩ ::
          m.allocations },
        [])
    else none
  | .freeMemory device memory =>
    some ({ m with allocations := Registry.remove Allocation.handles (device, memory) m.allocations },
      (Registry.lookup Allocation.handles (device, memory) m.allocations).toList.map
        fun a => .freed a.generation)
  | .mapMemory device memory offset size =>
    some (onAllocation m device memory (Allocation.map offset size) .mapped)
  | .unmapMemory device memory => some (onAllocation m device memory Allocation.unmap .unmapped)
  | .createBuffer generation device handle size usage =>
    if generation ∈ m.reserved ∧ (device.handle, handle) ∉ m.buffers.map Buffer.handles then
      some ({ m with
        reserved := m.reserved.erase generation
        buffers := ⟨device, 0, generation, 0, 0, handle, 0, size, 0, usage⟩ :: m.buffers },
        [.created device handle])
    else none
  | .destroyBuffer device handle =>
    some ({ m with buffers := Registry.remove Buffer.handles (device, handle) m.buffers }, [])
  | .bound device buffer memory offset =>
    let generation := ((findMemory m device memory).map Allocation.generation).getD 0
    some ({ m with
      buffers := Registry.modify Buffer.key (device, buffer)
        (Buffer.bind memory offset generation) m.buffers },
      [.bound device buffer])
  | .explicitCacheChange device memory =>
    some (onAllocation m device memory changedUploadMapping .flushed)
  | .releaseDevice device =>
    some ({ m with
      allocations := m.allocations.filter fun a => a.device.handle ≠ device
      buffers := m.buffers.filter fun b => b.device.handle ≠ device },
      (m.allocations.filter fun a => a.device.handle = device).map fun a => .freed a.generation)

/-! ## Ranges -/

/-- The atoms that cover the bytes from `first` to `last`, as far as the allocation goes. -/
def alignedRange (a : Allocation) (first last : UInt64) : UInt64 × UInt64 :=
  let padding := if last % a.atom ≠ 0 then a.atom - last % a.atom else 0
  (first - first % a.atom, last + if padding < a.size - last then padding else a.size - last)

def Allocation.Covers (a : Allocation) (range : UInt64 × UInt64) : Prop :=
  a.mapOffset ≤ range.1 ∧ range.2 ≤ a.mapOffset + a.mapSize

instance (a : Allocation) (range : UInt64 × UInt64) : Decidable (a.Covers range) :=
  inferInstanceAs (Decidable (_ ∧ _))

/-- The buffer lies in its allocation, whose atom is known. -/
def Fits (a : Allocation) (b : Buffer) : Prop :=
  a.atom ≠ 0 ∧ b.offset ≤ a.size ∧ b.size ≤ a.size - b.offset

instance (a : Allocation) (b : Buffer) : Decidable (Fits a b) := inferInstanceAs (Decidable (_ ∧ _))

/-! ## What operations keep -/

/-- What no operation changes of an allocation. -/
def Allocation.identity (a : Allocation) : Device × Nat × Nat × UInt64 × UInt64 × Bool :=
  (a.device, a.generation, a.memory, a.size, a.atom, a.coherent)

/-- What no operation changes of a buffer. -/
def Buffer.identity (b : Buffer) : Device × Nat × Nat × UInt64 × UInt32 :=
  (b.device, b.generation, b.handle, b.size, b.usage)

def Memory.generations (m : Memory) : List Nat :=
  m.reserved ++ m.allocations.map Allocation.generation ++ m.buffers.map Buffer.generation

/-- Handles in use are distinct, and so are the generations of everything there is. -/
structure Tables (m : Memory) : Prop where
  allocations : (m.allocations.map Allocation.handles).Nodup
  buffers : (m.buffers.map Buffer.handles).Nodup
  generations : m.generations.Nodup
  bounded : ∀ g ∈ m.generations, g ≤ m.nextGeneration

variable {m m' : Memory} {f : Allocation → Allocation} {op : Op} {changes : List Change} {a a' : Allocation}

section
variable (h : Tables m)
include h

theorem Tables.allocationKeys : (m.allocations.map Allocation.key).Nodup := by
  refine List.Nodup.of_map (fun k : Device × Nat => (k.1.handle, k.2)) ?_
  rw [map_map]
  exact h.allocations

theorem Tables.bufferKeys : (m.buffers.map Buffer.key).Nodup := by
  refine List.Nodup.of_map (fun k : Device × Nat => (k.1.handle, k.2)) ?_
  rw [map_map]
  exact h.buffers

theorem Tables.allocationGenerations : (m.allocations.map Allocation.generation).Nodup :=
  h.generations.of_append_left.of_append_right

theorem Tables.bufferGenerations : (m.buffers.map Buffer.generation).Nodup :=
  h.generations.of_append_right

/-- Operations that take objects away or change them in place. -/
theorem Tables.shrink (hreserved : m'.reserved.Sublist m.reserved)
    (hallocations : (m'.allocations.map fun a => (a.handles, a.generation)).Sublist
      (m.allocations.map fun a => (a.handles, a.generation)))
    (hbuffers : (m'.buffers.map fun b => (b.handles, b.generation)).Sublist
      (m.buffers.map fun b => (b.handles, b.generation))) (hnext : m.nextGeneration ≤ m'.nextGeneration) :
    Tables m' := by
  have ha := hallocations.map Prod.fst
  have hag := hallocations.map Prod.snd
  have hb := hbuffers.map Prod.fst
  have hbg := hbuffers.map Prod.snd
  simp only [map_map, Function.comp_def] at ha hag hb hbg
  have hgenerations : m'.generations.Sublist m.generations := (hreserved.append hag).append hbg
  exact ⟨h.allocations.sublist ha, h.buffers.sublist hb, h.generations.sublist hgenerations,
    fun g hg => Nat.le_trans (h.bounded g (hgenerations.subset hg)) hnext⟩

end

theorem map_modify_allocation {k : Device × Nat} (hf : ∀ a, (f a).identity = a.identity) :
    ((Registry.modify Allocation.key k f m.allocations).map fun a => (a.handles, a.generation)) =
      m.allocations.map fun a => (a.handles, a.generation) := by
  refine map_modify Allocation.key k (fun a => ?_) m.allocations
  have h := hf a
  simp only [Allocation.identity, Prod.mk.injEq] at h
  simp only [Allocation.handles, h]

theorem changedUploadMapping_identity (a : Allocation) :
    (changedUploadMapping a).identity = a.identity := rfl

theorem Allocation.map_identity (offset size : UInt64) (a : Allocation) :
    (a.map offset size).identity = a.identity := rfl

theorem Allocation.unmap_identity (a : Allocation) : a.unmap.identity = a.identity := rfl

theorem Tables.onAllocation (h : Tables m) (device : Device) (memory : Nat)
    (hf : ∀ a, (f a).identity = a.identity) (change : Nat → Change) :
    Tables (onAllocation m device memory f change).1 := by
  refine h.shrink (List.Sublist.refl _) ?_ (List.Sublist.refl _) (Nat.le_refl _)
  rw [show (MemoryVisibility.onAllocation m device memory f change).1.allocations =
    Registry.modify Allocation.key (device, memory) f m.allocations from rfl, map_modify_allocation hf]

/-- A change that may make the mapped bytes stale. -/
def Change.Alters (c : Change) (generation : Nat) : Prop :=
  c = .mapped generation ∨ c = .unmapped generation ∨ c = .flushed generation

/-- An allocation after some changes: its revision tells whether it was altered. -/
structure Successor (a a' : Allocation) (changes : List Change) : Prop where
  identity : a'.identity = a.identity
  revision : a.uploadRevision ≤ a'.uploadRevision
  altered : a'.uploadRevision = a.uploadRevision → a.uploadRevision ≠ maxCounter →
    ∀ c ∈ changes, ¬ c.Alters a.generation

theorem Successor.refl (h : ∀ c ∈ changes, ¬ c.Alters a.generation) : Successor a a changes :=
  ⟨rfl, Nat.le_refl _, fun _ _ => h⟩

/-- An allocation whose revision moves on. -/
theorem Successor.changed (changes : List Change) (h : a'.identity = a.identity)
    (hrevision : a'.uploadRevision = (changedUploadMapping a).uploadRevision) : Successor a a' changes := by
  rw [changedUploadMapping] at hrevision
  by_cases hmax : a.uploadRevision = maxCounter
  · simp only [hmax, ne_eq, not_true, if_false] at hrevision
    exact ⟨h, by omega, fun _ hne => absurd hmax hne⟩
  · simp only [ne_eq, hmax, not_false_eq_true, if_true] at hrevision
    exact ⟨h, by omega, fun heq => by omega⟩

theorem Tables.mem_onAllocation (h : Tables m) {device : Device} {memory : Nat}
    {change : Nat → Change} (hf : ∀ a, (f a).identity = a.identity)
    (hrevision : ∀ a, (f a).uploadRevision = (changedUploadMapping a).uploadRevision)
    (hchange : ∀ g g', (change g).Alters g' → g = g')
    (ha' : a' ∈ (MemoryVisibility.onAllocation m device memory f change).1.allocations) :
    ∃ a ∈ m.allocations, Successor a a' (MemoryVisibility.onAllocation m device memory f change).2 := by
  rcases mem_modify_of_nodup Allocation.key h.allocationKeys ha' with ⟨a, ha, rfl⟩ | ⟨ha, hne⟩
  · exact ⟨a, mem_of_lookup _ ha, Successor.changed _ (hf a) (hrevision a)⟩
  · refine ⟨a', ha, Successor.refl fun c hc halters => hne ?_⟩
    obtain ⟨a, hfound, rfl⟩ := mem_map.mp hc
    have hlookup := Option.mem_toList.mp hfound
    have hgeneration := hchange _ _ halters
    have heq := inj_on_of_nodup_map h.allocationGenerations
      (mem_of_lookup _ hlookup) ha hgeneration
    rw [← heq]
    exact key_of_lookup _ hlookup

/-- What becomes of an allocation: it stays, mapped if it was and was not unmapped, or it is
freed. -/
def Outcome (a : Allocation) (m' : Memory) (changes : List Change) : Prop :=
  (∃ a' ∈ m'.allocations, a'.identity = a.identity ∧
    (a.mapped = true → a'.mapped = true ∨ .unmapped a.generation ∈ changes)) ∨
  .freed a.generation ∈ changes

theorem Outcome.same (h : a ∈ m'.allocations) : Outcome a m' changes := .inl ⟨a, h, rfl, .inl⟩

theorem Tables.outcome_onAllocation (h : Tables m) {device : Device} {memory : Nat}
    {change : Nat → Change} (hf : ∀ a, (f a).identity = a.identity)
    (hmapped : ∀ a, a.mapped = true → (f a).mapped = true ∨ change a.generation = .unmapped a.generation)
    (ha : a ∈ m.allocations) :
    Outcome a (MemoryVisibility.onAllocation m device memory f change).1
      (MemoryVisibility.onAllocation m device memory f change).2 := by
  by_cases hkey : a.key = (device, memory)
  · have hlookup : findMemory m device memory = some a := by
      rw [findMemory, ← hkey]
      exact lookup_of_mem _ h.allocationKeys ha
    obtain ⟨before, after, -, -, hmodify⟩ := exists_split _ hlookup
    refine .inl ⟨f a, ?_, hf a, fun hm => (hmapped a hm).imp id fun hc => ?_⟩
    · change f a ∈ Registry.modify Allocation.key (device, memory) f m.allocations
      rw [hmodify]
      exact mem_append_right _ mem_cons_self
    · refine mem_map.mpr ⟨a, ?_, hc⟩
      rw [hlookup]
      exact mem_singleton_self a
  · refine Outcome.same ?_
    have hlookup : Registry.lookup Allocation.key a.key
        (Registry.modify Allocation.key (device, memory) f m.allocations) = some a := by
      rw [lookup_modify Allocation.key _ _ _ (fun x => ?_), if_neg hkey]
      · exact lookup_of_mem _ h.allocationKeys ha
      · have hid := hf x
        simp only [Allocation.identity, Prod.mk.injEq] at hid
        rw [Allocation.key, Allocation.key, hid.1, hid.2.2.1]
        exact id
    exact mem_of_lookup _ hlookup

/-- A buffer after some changes: it was not created again, and a bind forgets its upload. -/
structure BufferSuccessor (b b' : Buffer) (changes : List Change) : Prop where
  identity : b'.identity = b.identity
  created : .created b.device b.handle ∉ changes
  unbound : (b' = b ∧ .bound b.device b.handle ∉ changes) ∨ b'.vertexUploadEpoch = 0

/-- What an operation does to the tables. -/
structure Evolves (m m' : Memory) (changes : List Change) : Prop where
  tables : Tables m'
  next : m.nextGeneration ≤ m'.nextGeneration
  reserved : ∀ g ∈ m'.reserved, g ∈ m.reserved ∨ m.nextGeneration < g
  /-- every allocation was there before or takes a reserved generation -/
  allocations : ∀ a' ∈ m'.allocations, (∃ a ∈ m.allocations, Successor a a' changes) ∨
    a'.generation ∈ m.reserved
  outcome : ∀ a ∈ m.allocations, Outcome a m' changes
  /-- and so for every buffer -/
  buffers : ∀ b' ∈ m'.buffers, (∃ b ∈ m.buffers, BufferSuccessor b b' changes) ∨
    b'.generation ∈ m.reserved ∧ b'.vertexUploadEpoch = 0

/-- A change that is not to a buffer. -/
def Change.OfMemory (c : Change) : Prop := ∀ d x, c ≠ .created d x ∧ c ≠ .bound d x

theorem BufferSuccessor.refl (b : Buffer) (h : ∀ c ∈ changes, c.OfMemory) : BufferSuccessor b b changes :=
  ⟨rfl, fun hm => (h _ hm _ _).1 rfl, .inl ⟨rfl, fun hm => (h _ hm _ _).2 rfl⟩⟩

/-- The change of allocations that an operation reports. -/
theorem ofMemory_of_map {l : List Allocation} {change : Nat → Change}
    (h : ∀ g, (change g).OfMemory) : ∀ c ∈ l.map (fun a => change a.generation), c.OfMemory := by
  intro c hc
  obtain ⟨a, -, rfl⟩ := mem_map.mp hc
  exact h _

theorem not_alters_freed {l : List Allocation} {g : Nat} :
    ∀ c ∈ l.map (fun a => Change.freed a.generation), ¬ c.Alters g := by
  intro c hc
  obtain ⟨a, -, rfl⟩ := mem_map.mp hc
  simp [Change.Alters]

section
variable (h : Tables m)
include h

theorem Tables.evolves_onAllocation (device : Device) (memory : Nat) {change : Nat → Change}
    (hf : ∀ a, (f a).identity = a.identity)
    (hrevision : ∀ a, (f a).uploadRevision = (changedUploadMapping a).uploadRevision)
    (hmapped : ∀ a, a.mapped = true → (f a).mapped = true ∨ change a.generation = .unmapped a.generation)
    (hchange : ∀ g g', (change g).Alters g' → g = g') (hmemory : ∀ g, (change g).OfMemory) :
    Evolves m (MemoryVisibility.onAllocation m device memory f change).1
      (MemoryVisibility.onAllocation m device memory f change).2 where
  tables := h.onAllocation device memory hf change
  next := Nat.le_refl _
  reserved _ hg := .inl hg
  allocations _ ha' := .inl (h.mem_onAllocation hf hrevision hchange ha')
  outcome _ ha := h.outcome_onAllocation hf hmapped ha
  buffers b' hb' := .inl ⟨b', hb', .refl b' (ofMemory_of_map hmemory)⟩

theorem Tables.evolves (happly : apply m op = some (m', changes)) : Evolves m m' changes := by
  have hkept : ∀ a ∈ m.allocations, (∃ a₀ ∈ m.allocations, Successor a₀ a []) ∨ a.generation ∈ m.reserved :=
    fun a ha => .inl ⟨a, ha, .refl nofun⟩
  have hunchanged : ∀ b ∈ m.buffers, (∃ b₀ ∈ m.buffers, BufferSuccessor b₀ b []) ∨
      b.generation ∈ m.reserved ∧ b.vertexUploadEpoch = 0 := fun b hb => .inl ⟨b, hb, .refl b nofun⟩
  cases op with
  | reserve =>
    obtain ⟨-, happly⟩ := Option.ite_none_left_eq_some.mp happly
    cases happly
    have hfresh : m.nextGeneration + 1 ∉ m.generations := fun hm => by
      have := h.bounded _ hm
      omega
    refine ⟨⟨h.allocations, h.buffers, ?_, fun g hg => ?_⟩, Nat.le_succ _, fun g hg => ?_,
      hkept, fun a ha => .same ha, hunchanged⟩
    · change (_ :: m.generations).Nodup
      exact nodup_cons.mpr ⟨hfresh, h.generations⟩
    · change g ∈ _ :: m.generations at hg
      rcases mem_cons.mp hg with rfl | hg
      · exact Nat.le_refl _
      · exact Nat.le_succ_of_le (h.bounded g hg)
    · rcases mem_cons.mp hg with rfl | hg
      · exact .inr (Nat.lt_succ_self _)
      · exact .inl hg
  | abandon generation =>
    cases happly
    exact ⟨h.shrink erase_sublist (.refl _) (.refl _) (Nat.le_refl _), Nat.le_refl _,
      fun g hg => .inl (mem_of_mem_erase hg), hkept, fun a ha => .same ha, hunchanged⟩
  | allocateMemory generation device memory size atom coherent =>
    obtain ⟨⟨hgeneration, hfree⟩, happly⟩ := Option.ite_none_right_eq_some.mp happly
    cases happly
    have hperm : m.generations.Perm (m.reserved.erase generation ++
        generation :: m.allocations.map Allocation.generation ++ m.buffers.map Buffer.generation) := by
      refine (((perm_cons_erase hgeneration).append_right _).trans ?_).append_right _
      exact perm_middle.symm
    refine ⟨⟨nodup_cons.mpr ⟨hfree, h.allocations⟩, h.buffers, hperm.nodup_iff.mp h.generations,
      fun g hg => h.bounded g (hperm.mem_iff.mpr hg)⟩, Nat.le_refl _, fun g hg =>
        .inl (mem_of_mem_erase hg),
      fun a ha => ?_, fun a ha => .same (mem_cons_of_mem _ ha), hunchanged⟩
    rcases mem_cons.mp ha with rfl | ha
    · exact .inr hgeneration
    · exact hkept a ha
  | freeMemory device memory =>
    cases happly
    refine ⟨h.shrink (.refl _) ((remove_sublist _ _ _).map _) (.refl _) (Nat.le_refl _),
      Nat.le_refl _, fun _ => .inl, fun a ha =>
      .inl ⟨a, (remove_sublist _ _ _).subset ha, .refl not_alters_freed⟩,
      fun a ha => ?_, fun b hb => .inl ⟨b, hb, .refl b (ofMemory_of_map fun _ _ _ => ⟨nofun, nofun⟩)⟩⟩
    by_cases hkey : a.handles = (device, memory)
    · refine .inr (mem_map.mpr ⟨a, ?_, rfl⟩)
      rw [← hkey, lookup_of_mem _ h.allocations ha]
      exact mem_singleton_self a
    · refine .same (mem_of_lookup Allocation.handles (k := a.handles) ?_)
      rw [lookup_remove_ne _ hkey]
      exact lookup_of_mem _ h.allocations ha
  | mapMemory device memory offset size =>
    cases happly
    exact h.evolves_onAllocation device memory (Allocation.map_identity offset size) (fun _ => rfl)
      (fun _ _ => .inl rfl) (fun g g' => by simp [Change.Alters]) fun _ _ _ => ⟨nofun, nofun⟩
  | unmapMemory device memory =>
    cases happly
    exact h.evolves_onAllocation device memory Allocation.unmap_identity (fun _ => rfl)
      (fun _ _ => .inr rfl) (fun g g' => by simp [Change.Alters]) fun _ _ _ => ⟨nofun, nofun⟩
  | createBuffer generation device handle size usage =>
    obtain ⟨⟨hgeneration, hfree⟩, happly⟩ := Option.ite_none_right_eq_some.mp happly
    cases happly
    have hperm : m.generations.Perm (m.reserved.erase generation ++
        m.allocations.map Allocation.generation ++ generation :: m.buffers.map Buffer.generation) := by
      refine (((perm_cons_erase hgeneration).append_right _).append_right _).trans ?_
      exact perm_middle.symm
    refine ⟨⟨h.allocations, nodup_cons.mpr ⟨hfree, h.buffers⟩, hperm.nodup_iff.mp h.generations,
      fun g hg => h.bounded g (hperm.mem_iff.mpr hg)⟩, Nat.le_refl _, fun g hg =>
        .inl (mem_of_mem_erase hg),
      fun a ha => .inl ⟨a, ha, .refl (by simp [Change.Alters])⟩, fun a ha => .same ha, fun b hb => ?_⟩
    rcases mem_cons.mp hb with rfl | hb
    · exact .inr ⟨hgeneration, rfl⟩
    · refine .inl ⟨b, hb, rfl, fun hm => hfree ?_, .inl ⟨rfl, nofun⟩⟩
      obtain ⟨hd, hx⟩ := Change.created.inj (mem_singleton.mp hm)
      rw [← hd, ← hx]
      exact mem_map_of_mem hb
  | destroyBuffer device handle =>
    cases happly
    exact ⟨h.shrink (.refl _) (.refl _) ((remove_sublist _ _ _).map _) (Nat.le_refl _),
      Nat.le_refl _, fun _ => .inl, hkept, fun a ha => .same ha,
      fun b hb => hunchanged b ((remove_sublist _ _ _).subset hb)⟩
  | bound device buffer memory offset =>
    cases happly
    have hmap := map_modify Buffer.key (g := fun b => (b.handles, b.generation)) (device, buffer)
      (f := Buffer.bind memory offset (((findMemory m device memory).map Allocation.generation).getD 0))
      (fun _ => rfl) m.buffers
    refine ⟨h.shrink (.refl _) (.refl _) (hmap ▸ .refl _) (Nat.le_refl _),
      Nat.le_refl _, fun _ => .inl, fun a ha => .inl ⟨a, ha, .refl (by simp [Change.Alters])⟩,
      fun a ha => .same ha, fun b' hb' => .inl ?_⟩
    rcases mem_modify_of_nodup Buffer.key h.bufferKeys hb' with ⟨b, hb, rfl⟩ | ⟨hb, hne⟩
    · exact ⟨b, mem_of_lookup _ hb, rfl, nofun, .inr rfl⟩
    · refine ⟨b', hb, rfl, nofun, .inl ⟨rfl, fun hm => hne ?_⟩⟩
      obtain ⟨hd, hx⟩ := Change.bound.inj (mem_singleton.mp hm)
      rw [Buffer.key, hd, hx]
  | explicitCacheChange device memory =>
    cases happly
    exact h.evolves_onAllocation device memory changedUploadMapping_identity (fun _ => rfl)
      (fun _ => .inl) (fun g g' => by simp [Change.Alters]) fun _ _ _ => ⟨nofun, nofun⟩
  | releaseDevice device =>
    cases happly
    refine ⟨h.shrink (.refl _) (filter_sublist.map _) (filter_sublist.map _) (Nat.le_refl _),
      Nat.le_refl _, fun _ => .inl, fun a ha =>
      .inl ⟨a, mem_of_mem_filter ha, .refl not_alters_freed⟩, fun a ha => ?_,
      fun b hb => .inl ⟨b, mem_of_mem_filter hb, .refl b (ofMemory_of_map fun _ _ _ => ⟨nofun, nofun⟩)⟩⟩
    by_cases hd : a.device.handle = device
    · exact .inr (mem_map.mpr ⟨a, mem_filter.mpr ⟨ha, decide_eq_true hd⟩, rfl⟩)
    · exact .same (mem_filter.mpr ⟨ha, decide_eq_true hd⟩)

end

end MemoryVisibility
