import Libhybris.RefCount
import Libhybris.Registry
import Libhybris.Transition
import Mathlib.Algebra.Group.Nat.Defs

/-!
# The X11 swapchain window

`native_window_x11.cpp`: a pool of buffers that the client dequeues and queues, the presenter thread
that waits for their fences and sends them to the server, and the server's release events. Each
section under the window's mutex is one step, and so is each part of a call outside it; calls in
progress are listed without regard to their threads. Buffers are addressed, and an address may be
used again once its buffer is gone.
-/
namespace X11Window

open RefCount

/-- A buffer's two flags; `taken` says that the client dequeued it and did not give it back. -/
structure Buffer where
  held : Bool
  queued : Bool
  taken : Bool
deriving DecidableEq, Repr

def Buffer.fresh : Buffer := ⟨false, false, false⟩

def Buffer.free (b : Buffer) : Buffer := { b with held := false, queued := false }

def Buffer.dequeue (b : Buffer) : Buffer := { b with held := true, taken := true }

def Buffer.enqueue (b : Buffer) : Buffer := { b with queued := true, taken := false }

def Buffer.giveBack (b : Buffer) : Buffer := { b with held := false, taken := false }

/-- An entry of the pending list; `id` is its own address, which the presenter keeps. -/
structure Pending where
  id : Nat
  buffer : Nat
  serial : UInt32
  checked : Bool
  released : Bool
deriving DecidableEq, Repr

def Pending.markReleased (p : Pending) : Pending := { p with released := true }

def Pending.markChecked (p : Pending) : Pending := { p with checked := true }

/-- A queued buffer with the fence that was passed with it. -/
structure Submission where
  buffer : Nat
  fence : Option Nat
deriving DecidableEq, Repr

/-- Events of the window's private queue. -/
inductive Event where
  | configureNotify
  | bufferRelease (serial : UInt32)
deriving DecidableEq, Repr

/-- Where the presenter is. -/
inductive Worker where
  | waiting
  /-- `present` was called and has not waited for the fence yet -/
  | presenting (s : Submission)
  /-- the fence has signalled -/
  | preparing (s : Submission)
  /-- the request was sent and recorded, and the server's answer is awaited -/
  | checking (s : Submission) (id : Nat)
  /-- `present` returned before it sent a request -/
  | failed (s : Submission) (error : Int)
  /-- `present` returned after the answer -/
  | checked (s : Submission) (error : Int)
  | exited
deriving DecidableEq, Repr

/-- A call that has not returned, outside the mutex. -/
inductive Call where
  | dequeuing (timeout : Int)
  | polling (timeout : Int)
  | queueing (buffer : Nat) (fence : Option Nat)
  | closing (fence : Option Nat)
  | disconnecting
deriving DecidableEq, Repr

structure State where
  serial : UInt32
  events : List Event
  pool : List Nat
  nextBuffer : Nat
  pending : List Pending
  work : List Submission
  busy : Bool
  stopping : Bool
  draining : Bool
  asynchronousError : Int
  buffers : Heap Nat Buffer
  worker : Worker
  calls : List Call
  /-- the references the client has taken -/
  clients : List Nat
  /-- the fences passed to `queue` are numbered; these were waited for or closed -/
  consumed : List Nat
  nextFence : Nat
  nextPending : Nat

def State.start : State where
  serial := 0
  events := []
  pool := []
  nextBuffer := 0
  pending := []
  work := []
  busy := false
  stopping := false
  draining := false
  asynchronousError := 0
  buffers := fun _ => none
  worker := .waiting
  calls := []
  clients := []
  consumed := []
  nextFence := 0
  nextPending := 0

def State.flags (s : State) (a : Nat) : Buffer := ((s.buffers a).map Object.value).getD .fresh

/-! ## Error codes -/

def eio : Int := 5
def eagain : Int := 11
def enomem : Int := 12
def ebusy : Int := 16
def einval : Int := 22
def epipe : Int := 32
def etimedout : Int := 110

def intMax : Nat := 2 ^ 31 - 1

/-! ## Events and the pool -/

/-- A release event. The server may release while the presenter checks its request; the entry then
stays until both are done. -/
def State.release (s : State) (serial : UInt32) : State :=
  match Registry.lookup Pending.serial serial s.pending with
  | none => s
  | some p =>
    if p.checked = false then
      { s with pending := Registry.modify Pending.serial serial Pending.markReleased s.pending }
    else
      { s with
        pending := Registry.remove Pending.serial serial s.pending
        buffers := RefCount.release (modify s.buffers p.buffer Buffer.free) p.buffer }

def State.handle (s : State) : Event → State
  | .configureNotify => s
  | .bufferRelease serial => s.release serial

def drain (s : State) : State := { s.events.foldl State.handle s with events := [] }

def dropPool (s : State) : State :=
  { s with
    buffers := s.pool.foldl RefCount.release s.buffers
    pool := []
    nextBuffer := 0 }

/-- The loop of `configure`; a failed allocation ends it. -/
def fill (s : State) : List (Option Nat) → State × Int
  | [] => (s, 0)
  | none :: _ => (s, -enomem)
  | some a :: rest => fill { s with buffers := create s.buffers a .fresh, pool := s.pool ++ [a] } rest

def configure (s : State) (width height : Nat) (allocations : List (Option Nat)) : State × Int :=
  if width = 0 ∨ height = 0 ∨ width > intMax ∨ height > intMax ∨ allocations.length < 2 ∨
      allocations.length > 8 then (s, -einval)
  else if s.pool ≠ [] ∨ s.draining ∨ s.stopping ∨ s.busy ∨ s.work ≠ [] then (s, -ebusy)
  else
    let filled := fill { s with asynchronousError := 0 } allocations
    (if filled.2 ≠ 0 then dropPool filled.1 else filled.1, filled.2)

/-- The second half of `disconnect`, when nothing is queued or being presented. -/
def disconnected (s : State) : State := { dropPool (drain s) with draining := false }

/-! ## Dequeue, queue and cancel -/

/-- What one round of `dequeue` ends with. -/
inductive Acquired where
  | got (a : Nat)
  | failed (error : Int)
  | again
deriving DecidableEq, Repr

/-- The first buffer that is not held, from the one after the previous acquisition on. -/
def State.candidate (s : State) : Option Nat :=
  ((List.range s.pool.length).map fun step => (s.nextBuffer + step) % s.pool.length).find? fun i =>
    !(s.flags (s.pool.getD i 0)).held

/-- One round of `dequeue` under the mutex. -/
def acquire (s : State) (timeout elapsed : Int) (broken : Bool) : State × Acquired :=
  let s := drain s
  if s.asynchronousError ≠ 0 ∨ s.stopping ∨ s.draining ∨ s.pool = [] then
    (s, .failed (if s.asynchronousError ≠ 0 then s.asynchronousError else -epipe))
  else if broken then (s, .failed (-epipe))
  else
    match s.candidate with
    | some i =>
      let a := s.pool.getD i 0
      ({ s with
        nextBuffer := (i + 1) % s.pool.length
        buffers := modify s.buffers a Buffer.dequeue }, .got a)
    | none =>
      if timeout = 0 then (s, .failed (-eagain))
      else if 0 ≤ timeout ∧ timeout - elapsed ≤ 0 then (s, .failed (-etimedout))
      else (s, .again)

def queueError (s : State) (a : Nat) : Int :=
  if s.asynchronousError ≠ 0 then s.asynchronousError
  else if s.stopping ∨ s.draining then -epipe
  else if a ∉ s.pool ∨ (s.flags a).held = false ∨ (s.flags a).queued then -einval
  else 0

/-- The section of `queue` under the mutex. -/
def enqueue (s : State) (a : Nat) (fence : Option Nat) : State × Int :=
  let s := drain s
  if queueError s a = 0 then
    ({ s with
      buffers := retain (modify s.buffers a Buffer.enqueue) a
      work := s.work ++ [⟨a, fence⟩] }, 0)
  else (s, queueError s a)

def cancel (s : State) (a : Nat) (signalled : Bool) : State × Int :=
  if signalled = false then (s, -eio)
  else if a ∈ s.pool ∧ (s.flags a).queued = false then
    ({ s with buffers := modify s.buffers a Buffer.giveBack }, 0)
  else (s, 0)

/-! ## The presenter -/

/-- The serial after `serial`, zero left out. -/
def succSerial (serial : UInt32) : UInt32 := if serial + 1 = 0 then serial + 1 + 1 else serial + 1

/-- The next serial of no pending entry. -/
def nextSerial (pending : List Pending) : Nat → UInt32 → Option UInt32
  | 0, _ => none
  | fuel + 1, serial =>
    if pending.any fun p => p.serial = succSerial serial then nextSerial pending fuel (succSerial serial)
    else some (succSerial serial)

/-- The reasons `present` gives up before it sends anything. -/
inductive Failure where
  | handle
  | memory
  /-- a descriptor was not duplicated -/
  | duplicate (errno : Nat)
deriving DecidableEq, Repr

def Failure.error : Failure → Int
  | .handle => -einval
  | .memory => -enomem
  | .duplicate errno => -errno

/-- Send the request and record it. -/
def record (s : State) (sub : Submission) : Option State :=
  let s := drain s
  (nextSerial s.pending (s.pending.length + 1) s.serial).map fun serial =>
    { s with
      serial := serial
      buffers := retain s.buffers sub.buffer
      pending := ⟨s.nextPending, sub.buffer, serial, false, false⟩ :: s.pending
      nextPending := s.nextPending + 1
      worker := .checking sub s.nextPending }

/-- The error that stays until the pool is configured again: the first one. -/
def sticky (s : State) (error : Int) : Int :=
  if error ≠ 0 ∧ s.asynchronousError = 0 then error else s.asynchronousError

/-- The server has answered the request. -/
def answered (s : State) (sub : Submission) (id : Nat) (error : Int) : Option State :=
  (Registry.lookup Pending.id id s.pending).map fun p =>
    if error ≠ 0 ∨ p.released then
      { s with
        pending := Registry.remove Pending.id id s.pending
        buffers := RefCount.release (modify s.buffers sub.buffer Buffer.free) sub.buffer
        asynchronousError := sticky s error
        worker := .checked sub error }
    else
      { s with
        pending := Registry.modify Pending.id id Pending.markChecked s.pending
        worker := .checked sub error }

/-- The end of the presenter's round. -/
def finish (s : State) (sub : Submission) (error : Int) : State :=
  { s with
    asynchronousError := sticky s error
    buffers := RefCount.release
      (if error ≠ 0 then modify s.buffers sub.buffer Buffer.free else s.buffers) sub.buffer
    busy := false
    worker := .waiting }

/-- The last part of `destroy`, when the presenter is gone. -/
def destroyed (s : State) : State :=
  let s := dropPool s
  { s with
    buffers := (s.pending.map Pending.buffer).foldl RefCount.release s.buffers
    pending := [] }

/-! ## Steps -/

inductive Action where
  | server (e : Event)
  | configure (width height : Nat) (allocations : List (Option Nat))
  | dequeue (timeout : Int)
  | acquire (timeout elapsed : Int) (broken : Bool)
  | polled (timeout : Int) (error : Bool)
  | queue (a : Nat) (fence : Bool)
  /-- `queue` gets no memory for the submission -/
  | queueMemory (a : Nat) (fence : Option Nat)
  | enqueue (a : Nat) (fence : Option Nat)
  | close (fence : Option Nat)
  | cancel (a : Nat) (signalled : Bool)
  | disconnect
  | disconnected
  | incRef (a : Nat)
  | decRef (a : Nat)
  /-- the presenter takes the first submission -/
  | take
  | consume (signalled : Bool)
  /-- `present` gives up -/
  | giveUp (failure : Failure)
  | record
  | answer (rejected : Bool)
  | finish
  /-- the first part of `destroy` -/
  | stop
  | exit
deriving DecidableEq, Repr

/-- The allocator's addresses are of no buffer that exists. -/
def Fresh (s : State) (allocations : List (Option Nat)) : Prop :=
  (allocations.filterMap id).Nodup ∧ ∀ a ∈ allocations.filterMap id, (s.buffers a).isNone

instance (s : State) (allocations : List (Option Nat)) : Decidable (Fresh s allocations) :=
  inferInstanceAs (Decidable (_ ∧ _))

/-- A call goes on, or returns. -/
def State.resume (s : State) (c : Call) (next : List Call) : State :=
  { s with calls := next ++ s.calls.erase c }

def step (s : State) : Action → Option State
  | .server e => some { s with events := s.events ++ [e] }
  | .configure width height allocations =>
    if Fresh s allocations then some (configure s width height allocations).1 else none
  | .dequeue timeout => some { s with calls := .dequeuing timeout :: s.calls }
  | .acquire timeout elapsed broken =>
    if .dequeuing timeout ∈ s.calls then
      let acquired := acquire s timeout elapsed broken
      some (acquired.1.resume (.dequeuing timeout)
        (if acquired.2 = .again then [.polling timeout] else []))
    else none
  | .polled timeout error =>
    if .polling timeout ∈ s.calls then
      some (s.resume (.polling timeout) (if error then [] else [.dequeuing timeout]))
    else none
  | .queue a fence =>
    if fence then
      some { s with calls := .queueing a (some s.nextFence) :: s.calls, nextFence := s.nextFence + 1 }
    else some { s with calls := .queueing a none :: s.calls }
  | .queueMemory a fence =>
    if .queueing a fence ∈ s.calls then
      some { s.resume (.queueing a fence) [] with consumed := fence.toList ++ s.consumed }
    else none
  | .enqueue a fence =>
    if .queueing a fence ∈ s.calls then
      let enqueued := enqueue s a fence
      some (enqueued.1.resume (.queueing a fence)
        (if enqueued.2 ≠ 0 then [.closing fence] else []))
    else none
  | .close fence =>
    if .closing fence ∈ s.calls then
      some { s.resume (.closing fence) [] with consumed := fence.toList ++ s.consumed }
    else none
  | .cancel a signalled => some (cancel s a signalled).1
  | .disconnect =>
    if s.work ≠ [] ∨ s.busy then
      some { s with draining := true, calls := .disconnecting :: s.calls }
    else some (disconnected { s with draining := true })
  | .disconnected =>
    if .disconnecting ∈ s.calls ∧ s.work = [] ∧ s.busy = false then
      some ((disconnected s).resume .disconnecting [])
    else none
  | .incRef a =>
    if (s.buffers a).isSome then some { s with buffers := retain s.buffers a, clients := a :: s.clients }
    else none
  | .decRef a =>
    if a ∈ s.clients then
      some { s with buffers := RefCount.release s.buffers a, clients := s.clients.erase a }
    else none
  | .take =>
    match s.worker, s.work with
    | .waiting, sub :: rest => some { s with work := rest, busy := true, worker := .presenting sub }
    | _, _ => none
  | .consume signalled =>
    match s.worker with
    | .presenting sub =>
      -- without a descriptor there is nothing to wait for
      some { s with
        consumed := sub.fence.toList ++ s.consumed
        worker := if sub.fence.isSome ∧ signalled = false then .failed sub (-eio) else .preparing sub }
    | _ => none
  | .giveUp failure =>
    match s.worker with
    | .preparing sub =>
      -- a failed call leaves a number other than zero
      if failure.error ≠ 0 then some { s with worker := .failed sub failure.error } else none
    | _ => none
  | .record =>
    match s.worker with
    | .preparing sub => record s sub
    | _ => none
  | .answer rejected =>
    match s.worker with
    | .checking sub id => answered s sub id (if rejected then -epipe else 0)
    | _ => none
  | .finish =>
    match s.worker with
    | .failed sub error => some (finish s sub error)
    | .checked sub error => some (finish s sub error)
    | _ => none
  | .stop => some { s with stopping := true }
  | .exit =>
    if s.worker = .waiting ∧ s.work = [] ∧ s.stopping then some { s with worker := .exited } else none

end X11Window
