import Libhybris.RefCount
import Libhybris.Transition

/-!
# The Wayland window's buffer pool

`wayland_window_common.cpp` and `wayland_window.cpp` of the Vulkan ICD, which allocates its buffers
itself: the pool, the list of buffers the compositor shows, and the compositor's events, which are
handled wherever the source dispatches its queue. The loop of `destroyBuffer` also handles events
that arrive while it waits; which these are is the environment's choice and part of a run. A call
that waits for the frame callback has changed nothing, and is taken when the callback has arrived.
Buffers are numbered in the order of their creation. An assertion that fails, and an access that is
not allowed, ends a run with a fault.
-/
namespace WaylandWindow

open RefCount

/-- What a buffer is allocated for. -/
structure Shape where
  width : Int
  height : Int
  format : Int
  usage : Nat
deriving DecidableEq, Repr

structure Buffer where
  /-- the `wl_buffer`, once there is one -/
  wlbuffer : Option Nat
  busy : Bool
  youngest : Bool
  /-- the callback that follows the creation of the `wl_buffer` has not been handled -/
  creating : Bool
  shape : Shape
deriving DecidableEq, Repr

/-- Events of the window's queue. -/
inductive Event where
  | release (w : Nat)
  /-- the creation callback of a buffer -/
  | created (b : Nat)
  | frame (callback : Nat)
deriving DecidableEq, Repr

inductive Fault where
  | assertion
  /-- a buffer was used after its last reference was dropped -/
  | freed
  /-- the first element of an empty list -/
  | pastEnd
  /-- a list changed under the loop that walks it -/
  | iterator
  /-- `destroyBuffer` dispatches while events are being handled -/
  | reentered
deriving DecidableEq, Repr

/-- Why an operation does not complete. -/
inductive Stop where
  /-- it waits for an event -/
  | blocked
  | fault (f : Fault)
deriving DecidableEq, Repr

structure State where
  bufList : List Nat
  fronted : List Nat
  freeBufs : Int
  shape : Shape
  /-- the `wl_egl_window` exists -/
  window : Bool
  frameCallback : Option Nat
  /-- the display has had a fatal error -/
  broken : Bool
  buffers : Heap Nat Buffer
  /-- the `wl_buffer` proxies that were not destroyed; the library drops events of others -/
  proxies : List Nat
  /-- the events that arrived and were not dispatched -/
  events : List Event
  /-- the events that arrive while calls wait, by the dispatch that handles them -/
  coming : List (List Event)
  /-- commits that the compositor has not released -/
  committed : List Nat
  /-- the buffers the producer holds -/
  held : List Nat
  /-- the producer's own references, and that of a call in progress -/
  clients : List Nat
  nextBuffer : Nat
  nextObject : Nat
  /-- the references taken for buffers that were queued after their pool was gone -/
  requeues : List Nat
  /-- the references `destroyBuffer` dropped -/
  drops : List Nat

section
variable (s : State) (b : Nat)

def State.wlbuffer : Option Nat :=
  (s.buffers b).bind fun o => o.value.wlbuffer

def State.creating : Bool :=
  ((s.buffers b).map fun o => o.value.creating).getD false

def State.idle : Bool :=
  ((s.buffers b).map fun o => !o.value.busy).getD false

def State.alive : Bool := (s.buffers b).isSome

end

/-! ## Events -/

/-- What the compositor can send: the answers to what was asked. It answers the request for the
creation callback, which was sent before the commit, before it releases the buffer. -/
def State.MayArrive (s : State) : Event → Prop
  | .release w => w ∈ s.committed ∧
    ∀ b ∈ s.fronted, s.wlbuffer b = some w → s.creating b = true → .created b ∈ s.events
  | .created b => s.creating b = true ∧ .created b ∉ s.events
  | .frame callback => s.frameCallback = some callback

instance (s : State) (e : Event) : Decidable (s.MayArrive e) := by
  cases e with
  | release w => exact inferInstanceAs (Decidable (_ ∧ _))
  | created b => exact inferInstanceAs (Decidable (_ ∧ _))
  | frame callback => exact inferInstanceAs (Decidable (_ = _))

def arrive (s : State) (e : Event) : State :=
  { s with
    events := s.events ++ [e]
    committed := match e with
      | .release w => s.committed.erase w
      | .created _ => s.committed
      | .frame _ => s.committed }

def receive (s : State) : List Event → Option State
  | [] => some s
  | e :: rest => if s.MayArrive e then receive (arrive s e) rest else none

/-- The first shown buffer with the given proxy. -/
def findFronted (s : State) (w : Nat) : List Nat → Except Stop Nat
  | [] => .error (.fault .assertion)
  | b :: rest =>
    if s.alive b = false then .error (.fault .freed)
    else if s.wlbuffer b = some w then .ok b
    else findFronted s w rest

def Buffer.close (b : Buffer) : Buffer := { b with wlbuffer := none, creating := false }

/-- `destroyBuffer` without its loop. -/
def drop (s : State) (b : Nat) (counted : Bool) : State :=
  { s with
    proxies := s.proxies.filter fun w => s.wlbuffer b ≠ some w
    buffers := release (modify s.buffers b Buffer.close) b
    freeBufs := if counted then s.freeBufs - 1 else s.freeBufs
    drops := b :: s.drops }

def Buffer.unused (b : Buffer) : Buffer := { b with busy := false }

def Buffer.older (b : Buffer) : Buffer := { b with youngest := false }

def Buffer.newest (b : Buffer) : Buffer := { b with youngest := true }

/-- The buffer is free, and the youngest of the pool. -/
def settle (h : Heap Nat Buffer) (pool : List Nat) (b : Nat) : Heap Nat Buffer :=
  modify (pool.foldl (fun h x => modify h x Buffer.older) (modify h b Buffer.unused)) b
    Buffer.newest

/-- The end of `releaseBuffer` and of `cancelBuffer`. -/
def giveBack (s : State) (b : Nat) : Except Stop State :=
  if s.bufList.all s.alive then
    .ok { s with buffers := settle s.buffers s.bufList b, freeBufs := s.freeBufs + 1 }
  else .error (.fault .freed)

def releaseBuffer (s : State) (w : Nat) : Except Stop State :=
  match findFronted s w s.fronted with
  | .error e => .error e
  | .ok b =>
    let s := { s with fronted := s.fronted.erase b }
    if b ∈ s.bufList then giveBack s b
    -- the buffer belonged to a prior connection
    else if s.creating b then .error (.fault .reentered)
    else .ok (drop s b false)

def Buffer.acknowledge (b : Buffer) : Buffer := { b with creating := false }

def handle (s : State) : Event → Except Stop State
  | .release w => if w ∈ s.proxies then releaseBuffer s w else .ok s
  | .created b => .ok { s with buffers := modify s.buffers b Buffer.acknowledge }
  | .frame callback =>
    .ok (if s.frameCallback = some callback then { s with frameCallback := none } else s)

def handleAll (s : State) : List Event → Except Stop State
  | [] => .ok s
  | e :: rest =>
    match handle s e with
    | .error stop => .error stop
    | .ok s => handleAll s rest

/-- Dispatch the queue; a display with an error dispatches nothing. -/
def dispatch (s : State) : Except Stop State :=
  if s.broken then .ok s else handleAll { s with events := [] } s.events

/-! ## The pool -/

/-- The loop of `destroyBuffer`: the queue is read, unless events are waiting, and dispatched until
the buffer's creation callback was handled. -/
def awaitCreation (b : Nat) (coming : List (List Event)) (s : State) : Except Stop State :=
  if s.alive b = false then .error (.fault .freed)
  else if s.creating b = false ∨ s.broken then .ok { s with coming := coming }
  else
    match coming with
    | [] => .error .blocked
    | batch :: coming =>
      match receive s batch with
      | none => .error .blocked
      | some s =>
        match dispatch s with
        | .error e => .error e
        | .ok s => awaitCreation b coming s

def destroyBuffer (s : State) (b : Nat) (counted : Bool) : Except Stop State :=
  match awaitCreation b s.coming s with
  | .error e => .error e
  | .ok s => .ok (drop s b counted)

def addBuffer (s : State) : State :=
  { s with
    bufList := s.bufList ++ [s.nextBuffer]
    freeBufs := s.freeBufs + 1
    buffers := create s.buffers s.nextBuffer ⟨none, false, false, false, s.shape⟩
    nextBuffer := s.nextBuffer + 1 }

def addBuffers : Nat → State → State
  | 0, s => s
  | n + 1, s => addBuffers n (addBuffer s)

/-- The loop of `setBufferCount` that removes buffers; the bound shrinks with the list. -/
def shrink (cnt : Int) : Nat → Int → State → Except Stop State
  | 0, _, s => .ok s
  | fuel + 1, i, s =>
    if i ≤ s.bufList.length - cnt then
      match s.bufList with
      | [] => .error (.fault .pastEnd)
      | b :: _ =>
        match destroyBuffer s b true with
        | .error e => .error e
        | .ok s => shrink cnt fuel (i + 1) { s with bufList := s.bufList.tail }
    else .ok s

def setBufferCount (s : State) (cnt : Int) : Except Stop State :=
  if s.bufList.length > cnt then shrink cnt ((s.bufList.length - cnt).toNat + 1) 0 s
  else .ok (addBuffers (cnt - s.bufList.length).toNat s)

/-- The loop of `apiDisconnect`. -/
def retire : List Nat → State → Except Stop State
  | [], s => .ok s
  | b :: rest, s =>
    if b ∈ s.fronted then retire rest s
    else
      match destroyBuffer s b true with
      | .error e => .error e
      | .ok s => retire rest s

def apiDisconnect (s : State) : Except Stop State :=
  match dispatch s with
  | .error e => .error e
  | .ok s =>
    match retire s.bufList s with
    | .error e => .error e
    | .ok s => .ok { s with bufList := [], freeBufs := 0, frameCallback := none }

/-- The first loop of `destroyBuffers`. -/
def destroyPool : List Nat → State → Except Stop State
  | [], s => .ok s
  | b :: rest, s =>
    match destroyBuffer { s with fronted := s.fronted.filter (· ≠ b) } b true with
    | .error e => .error e
    | .ok s => destroyPool rest s

/-- The second loop, over what is left of the list. -/
def destroyFronted : List Nat → State → Except Stop State
  | [], s => .ok s
  | b :: rest, s =>
    if b ∈ s.fronted then
      match destroyBuffer s b false with
      | .error e => .error e
      | .ok s => if b ∈ s.fronted then destroyFronted rest s else .error (.fault .iterator)
    else destroyFronted rest s

def destroyBuffers (s : State) : Except Stop State :=
  match destroyPool s.bufList s with
  | .error e => .error e
  | .ok s =>
    match destroyFronted s.fronted { s with bufList := [] } with
    | .error e => .error e
    | .ok s => .ok { s with fronted := [], freeBufs := 0 }

/-! ## Dequeue, queue and cancel -/

/-- The first buffer of a list that meets a condition. -/
def scan (s : State) (p : Buffer → Bool) : List Nat → Except Stop (Option Nat)
  | [] => .ok none
  | b :: rest =>
    match s.buffers b with
    | none => .error (.fault .freed)
    | some o => if p o.value then .ok (some b) else scan s p rest

/-- A free buffer, the youngest only if there is no other. -/
def pick (s : State) : Except Stop (Option Nat) :=
  match scan s (fun b => !b.busy && !b.youngest) s.bufList with
  | .ok none => scan s (fun b => !b.busy) s.bufList
  | found => found

/-- Re-allocate a buffer that does not match the window. -/
def reallocate (s : State) (b : Nat) : Except Stop (State × Nat) :=
  if (s.buffers b).map (fun o => o.value.shape) = some s.shape then .ok (s, b)
  else
    match destroyBuffer s b true with
    | .error e => .error e
    | .ok s => .ok (addBuffer { s with bufList := s.bufList.erase b }, s.nextBuffer)

def Buffer.used (b : Buffer) : Buffer := { b with busy := true }

/-- The buffer is the producer's, which takes a reference of its own. -/
def give (s : State) (b : Nat) : State :=
  { s with
    buffers := retain (modify s.buffers b Buffer.used) b
    freeBufs := s.freeBufs - 1
    held := b :: s.held
    clients := b :: s.clients }

/-- `dequeueBufferTimeout`; without a free buffer it gives up at some time, where `dequeueBuffer`
waits. -/
def dequeueBuffer (s : State) : Except Stop State :=
  match dispatch s with
  | .error e => .error e
  | .ok s =>
    if s.broken ∨ s.freeBufs = 0 then .ok s
    else
      match pick s with
      | .error e => .error e
      | .ok none => .ok s
      | .ok (some b) =>
        match reallocate s b with
        | .error e => .error e
        | .ok (s, b) => .ok (give s b)

def Buffer.connect (b : Buffer) (w : Nat) : Buffer :=
  { b with wlbuffer := some w, creating := true }

section
variable (s : State) (b : Nat)

/-- The buffer gets a `wl_buffer` if it has none. -/
def connect : State :=
  match s.wlbuffer b with
  | some _ => s
  | none =>
    { s with
      buffers := modify s.buffers b fun o => o.connect s.nextObject
      proxies := s.nextObject :: s.proxies
      nextObject := s.nextObject + 1 }

/-- Attach the buffer and commit it. -/
def commit : State :=
  let s := connect s b
  { s with
    fronted := s.fronted ++ [b]
    committed := (s.wlbuffer b).toList ++ s.committed
    frameCallback := some s.nextObject
    nextObject := s.nextObject + 1 }

/-- The state after `presentBuffer`, and whether it succeeded. -/
def presentBuffer : Except Stop (State × Bool) :=
  if s.window = false then .ok (s, false)
  else
    match dispatch s with
    | .error e => .error e
    | .ok s =>
      if s.broken then .ok (s, false)
      else if s.frameCallback.isSome then .error .blocked
      else
        match s.buffers b with
        | none => .error (.fault .freed)
        | some o => if o.value.busy then .ok (commit s b, true) else .error (.fault .assertion)

/-- `queueBuffer`; a buffer that is not queued stays with the producer. -/
def queueBuffer (signalled : Bool) : Except Stop State :=
  if signalled = false then .ok s
  else if b ∈ s.bufList then
    match presentBuffer s b with
    | .error e => .error e
    | .ok (s, true) => .ok { s with held := s.held.erase b }
    | .ok (s, false) => .ok s
  else
    -- a buffer whose pool is gone is shown with a reference of its own, at first the call's
    match presentBuffer { s with buffers := retain s.buffers b, clients := b :: s.clients } b with
    | .error e => .error e
    | .ok (s, true) =>
      .ok { s with
        held := s.held.erase b
        clients := s.clients.erase b
        requeues := b :: s.requeues }
    | .ok (s, false) => .ok { s with buffers := release s.buffers b, clients := s.clients.erase b }

def cancelBuffer : Except Stop State :=
  if b ∈ s.bufList then
    match giveBack s b with
    | .error e => .error e
    | .ok s => .ok { s with held := s.held.erase b }
  else .error (.fault .assertion)

end

/-! ## Steps -/

inductive Action where
  | arrive (e : Event)
  /-- the environment's choice for the waits of the calls to come -/
  | foresee (coming : List (List Event))
  | breakDisplay
  | dequeue
  | queue (b : Nat) (signalled : Bool)
  | cancel (b : Nat)
  | setBufferCount (cnt : Int)
  | reshape (shape : Shape)
  | closeWindow
  | disconnect
  | incRef (b : Nat)
  | decRef (b : Nat)
  | destroy
deriving DecidableEq, Repr

/-- The operation of an action, if the producer may call it. -/
def perform (s : State) : Action → Except Stop State
  | .arrive e => if s.MayArrive e then .ok (arrive s e) else .error .blocked
  | .foresee coming => .ok { s with coming := coming }
  | .breakDisplay => .ok { s with broken := true }
  | .dequeue => dequeueBuffer s
  | .queue b signalled => if b ∈ s.held then queueBuffer s b signalled else .error .blocked
  | .cancel b => if b ∈ s.held then cancelBuffer s b else .error .blocked
  | .setBufferCount cnt => setBufferCount s cnt
  | .reshape shape => .ok { s with shape := shape }
  | .closeWindow => .ok { s with window := false }
  | .disconnect => apiDisconnect s
  | .incRef b =>
    if b ∈ s.clients then .ok { s with buffers := retain s.buffers b, clients := b :: s.clients }
    else .error .blocked
  | .decRef b =>
    -- the producer keeps a reference to what it holds
    if b ∈ s.clients ∧ (b ∈ s.held → b ∈ s.clients.erase b) then
      .ok { s with buffers := release s.buffers b, clients := s.clients.erase b }
    else .error .blocked
  | .destroy => destroyBuffers s

/-- A window that is used, until it is destroyed or something goes wrong. -/
structure Window where
  state : State
  destroyed : Bool
  fault : Option Fault

def step (s : Window) (a : Action) : Option Window :=
  if s.fault.isSome ∨ s.destroyed then none
  else
    match perform s.state a with
    | .ok t => some ⟨t, a = .destroy, none⟩
    | .error (.fault f) => some ⟨s.state, false, some f⟩
    | .error .blocked => none

/-- A new window has three buffers. -/
def Window.start (shape : Shape) : Window where
  state := addBuffers 3
    { bufList := []
      fronted := []
      freeBufs := 0
      shape := shape
      window := true
      frameCallback := none
      broken := false
      buffers := fun _ => none
      proxies := []
      events := []
      coming := []
      committed := []
      held := []
      clients := []
      nextBuffer := 0
      nextObject := 0
      requeues := []
      drops := [] }
  destroyed := false
  fault := none

end WaylandWindow
