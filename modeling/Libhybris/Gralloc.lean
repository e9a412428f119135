import Libhybris.Registry
import Libhybris.Transition

/-!
# The AHardwareBuffer backend of gralloc

The calls `hybris_gralloc_allocate`, `retain`, `release`, `lock`, `unlock` and
`get_hardware_buffer` on this backend, cut at the boundaries of their critical
sections and of their calls into the system library. Any thread may take the
next step, so every interleaving is a list of actions.

A buffer of the system library is live while it is listed, with its own
count; it leaves the list when the count reaches zero. Buffers and native
handles are addresses and may be used again after that.
-/
namespace Gralloc

abbrev Thread := Nat
abbrev Ahb := Nat
abbrev Handle := Nat

def einval : Int := 22
def enomem : Int := 12

/-- A live AHardwareBuffer with its native handle and its own count. -/
structure Buffer where
  ahb : Ahb
  handle : Handle
  own : Nat
  deriving DecidableEq, Repr

/-- `ahb_entry`: a map entry with its shadow count. -/
structure Entry where
  handle : Handle
  ahb : Ahb
  refcount : Nat
  deriving DecidableEq, Repr

def Buffer.gain (b : Buffer) : Buffer := { b with own := b.own + 1 }

def Buffer.drop (b : Buffer) : Buffer := { b with own := b.own - 1 }

def Entry.gain (e : Entry) : Entry := { e with refcount := e.refcount + 1 }

def Entry.drop (e : Entry) : Entry := { e with refcount := e.refcount - 1 }

/-- Where a thread stands. An idle thread remembers what its last call
returned. -/
inductive Pc where
  | idle (ret : Int)
  | allocated (ahb : Ahb)
  | inserting (ahb : Ahb)
  | retaining (ahb : Ahb)
  | acquired (ahb : Ahb)
  | releasing (ahb : Ahb)
  | accessing (ahb : Ahb)
  deriving DecidableEq, Repr

/-- A reference of a thread: from an allocate or the acquire of a retain to
the matching release. It is counted once the map entry accounts for it. -/
structure Ref where
  thread : Thread
  ahb : Ahb
  counted : Bool
  deriving DecidableEq, Repr

/-- `refs` and `touched` are history variables: the references the threads
hold, and whether a call was ever made on a destroyed buffer. -/
structure State where
  buffers : List Buffer := []
  map : List Entry := []
  pcs : Thread → Pc := fun _ => .idle 0
  refs : List Ref := []
  touched : Bool := false

def findBuffer (s : State) (ahb : Ahb) : Option Buffer := Registry.lookup Buffer.ahb ahb s.buffers

section
variable (map : List Entry) (handle : Handle)

/-- `ahb_map_find`. -/
def mapFind : Option Ahb :=
  (Registry.lookup Entry.handle handle map).map Entry.ahb

/-- `ahb_map_insert`, whose entry needs host memory. -/
def mapInsert (ahb : Ahb) (memory : Bool) : List Entry :=
  if memory then ⟨handle, ahb, 1⟩ :: map else map

/-- `ahb_map_incref`. -/
def mapIncref : List Entry :=
  Registry.modify Entry.handle handle Entry.gain map

end

inductive Decref where
  | last (ahb : Ahb)
  | remaining
  | missing
  deriving DecidableEq, Repr

/-- `ahb_map_decref_take`. -/
def mapDecrefTake (map : List Entry) (handle : Handle) : Decref × List Entry :=
  match Registry.lookup Entry.handle handle map with
  | none => (.missing, map)
  | some e =>
    if e.refcount - 1 = 0 then (.last e.ahb, Registry.remove Entry.handle handle map)
    else (.remaining, Registry.modify Entry.handle handle Entry.drop map)

/-- A call into the system library on a buffer. -/
def touch (s : State) (ahb : Ahb) : State :=
  if (findBuffer s ahb).isSome then s else { s with touched := true }

/-- `AHardwareBuffer_acquire`. -/
def acquireBuffer (s : State) (ahb : Ahb) : State :=
  { touch s ahb with buffers := Registry.modify Buffer.ahb ahb Buffer.gain s.buffers }

/-- `AHardwareBuffer_release`: the last reference destroys the buffer. -/
def releaseBuffer (s : State) (ahb : Ahb) : State :=
  match findBuffer s ahb with
  | none => touch s ahb
  | some b =>
    if b.own - 1 = 0 then { s with buffers := Registry.remove Buffer.ahb ahb s.buffers }
    else { s with buffers := Registry.modify Buffer.ahb ahb Buffer.drop s.buffers }

def setPc (s : State) (t : Thread) (pc : Pc) : State := { s with pcs := Function.update s.pcs t pc }

inductive Action where
  /-- The system allocates a buffer at addresses that are not in use. -/
  | allocate (t : Thread) (ahb : Ahb) (handle : Handle)
  | allocateFails (t : Thread) (rc : Int)
  /-- Describe the buffer and ask for its native handle, which may be null. -/
  | nativeHandle (t : Thread) (null : Bool)
  | insert (t : Thread) (memory : Bool)
  | retain (t : Thread) (ahb : Ahb)
  | acquire (t : Thread)
  | incref (t : Thread)
  | release (t : Thread) (ahb : Ahb)
  | finishRelease (t : Thread)
  /-- The lookup of `lock` and of `unlock`, and then the access itself. -/
  | find (t : Thread) (ahb : Ahb)
  | access (t : Thread) (ret : Int)
  | getHardwareBuffer (t : Thread) (ahb : Ahb)
  /-- A thread hands one of its references to another thread. -/
  | pass (t t' : Thread) (ahb : Ahb)
  deriving DecidableEq, Repr

/-- The handle an idle thread may use: that of a buffer it has a reference to. -/
def usable (s : State) (t : Thread) (ahb : Ahb) : Option Handle :=
  match s.pcs t with
  | .idle _ =>
    if ⟨t, ahb, true⟩ ∈ s.refs then (findBuffer s ahb).map Buffer.handle else none
  | _ => none

/-- One step. An action is disabled when its thread stands elsewhere or holds
no reference to the buffer it names. -/
def step (s : State) : Action → Option State
  | .allocate t ahb handle =>
    match s.pcs t with
    | .idle _ =>
      if ∀ b ∈ s.buffers, b.ahb ≠ ahb ∧ b.handle ≠ handle then
        some (setPc { s with buffers := ⟨ahb, handle, 1⟩ :: s.buffers } t (.allocated ahb))
      else none
    | _ => none
  | .allocateFails t rc =>
    match s.pcs t with
    | .idle _ => some (setPc s t (.idle (if rc ≠ 0 then rc else -enomem)))
    | _ => none
  | .nativeHandle t null =>
    match s.pcs t with
    | .allocated ahb =>
      let s := touch s ahb
      if null then some (setPc (releaseBuffer s ahb) t (.idle (-einval)))
      else some (setPc s t (.inserting ahb))
    | _ => none
  | .insert t memory =>
    match s.pcs t with
    | .inserting ahb =>
      (findBuffer s ahb).map fun b =>
        setPc { s with map := mapInsert s.map b.handle ahb memory,
                       refs := ⟨t, ahb, true⟩ :: s.refs } t (.idle 0)
    | _ => none
  | .retain t ahb =>
    (usable s t ahb).map fun handle =>
      match mapFind s.map handle with
      | some found => setPc s t (.retaining found)
      | none => setPc s t (.idle (-einval))
  | .acquire t =>
    match s.pcs t with
    | .retaining ahb =>
      let s := acquireBuffer s ahb
      some (setPc { s with refs := ⟨t, ahb, false⟩ :: s.refs } t (.acquired ahb))
    | _ => none
  | .incref t =>
    match s.pcs t with
    | .acquired ahb =>
      (findBuffer s ahb).map fun b =>
        setPc { s with map := mapIncref s.map b.handle,
                       refs := ⟨t, ahb, true⟩ :: s.refs.erase ⟨t, ahb, false⟩ } t (.idle 0)
    | _ => none
  | .release t ahb =>
    (usable s t ahb).map fun handle =>
      let (taken, map) := mapDecrefTake s.map handle
      let s := { s with map, refs := s.refs.erase ⟨t, ahb, true⟩ }
      match taken with
      | .last found => setPc s t (.releasing found)
      | .remaining => setPc s t (.idle 0)
      | .missing => setPc s t (.idle (-einval))
  | .finishRelease t =>
    match s.pcs t with
    | .releasing ahb => some (setPc (releaseBuffer s ahb) t (.idle 0))
    | _ => none
  | .find t ahb =>
    (usable s t ahb).map fun handle =>
      match mapFind s.map handle with
      | some found => setPc s t (.accessing found)
      | none => setPc s t (.idle (-einval))
  | .access t ret =>
    match s.pcs t with
    | .accessing ahb => some (setPc (touch s ahb) t (.idle ret))
    | _ => none
  | .getHardwareBuffer t ahb => (usable s t ahb).map fun _ => s
  | .pass t t' ahb =>
    (usable s t ahb).map fun _ =>
      { s with refs := ⟨t', ahb, true⟩ :: s.refs.erase ⟨t, ahb, true⟩ }

end Gralloc
