import Libhybris.MemoryVisibility
import Libhybris.RefCount
import Libhybris.Transition

/-!
# Invalidation of readback ranges

`readback_record.c` and `readback_submit.c`: the ranges that recorded commands write, the submission
records that snapshot them, and the calls that wait for submissions and then invalidate their
ranges. Calls are in progress in any number of threads; what a thread does between two lock
operations or calls of the driver is one step. A record that is used after its last reference was
dropped is a fault. The driver's side (what it accepted, the fences) and the log are history: no
branch of the layer reads them.
-/
namespace Readback

open MemoryVisibility RefCount Vulkan

structure Range where
  memory : Nat
  generation : Nat
  offset : UInt64
  size : UInt64
deriving DecidableEq, Repr

/-- A recorded range. -/
structure Write where
  range : Range
  /-- history: the device, and the length of the log when it was recorded -/
  device : Device
  since : Nat
deriving DecidableEq, Repr

/-! ## Recording -/

/-- `hybris_memory_visibility_readback_range`; no range if the buffer is no readback buffer. -/
def readbackRange (m : Memory) (device : Device) (buffer : Nat) (offset size : UInt64) :
    Except VkResult (Option Range) :=
  match findBuffer m device buffer with
  | none => .ok none
  | some b =>
    match findMemory m device b.memory with
    | none => .ok none
    | some a =>
      if b.usage ≠ 0x2 ∨ a.generation ≠ b.memoryGeneration ∨ a.mapped = false ∨ a.coherent then .ok none
      else if offset > b.size then .error errorMemoryMapFailed
      else
        let size := if size = wholeSize then b.size - offset else size
        if ¬ Fits a b ∨ size > b.size - offset then .error errorMemoryMapFailed
        else if size = 0 then .ok none
        else
          let range := alignedRange a (b.offset + offset) (b.offset + offset + size)
          if a.Covers range then .ok (some ⟨a.memory, a.generation, range.1, range.2 - range.1⟩)
          else .error errorMemoryMapFailed

def append (writes : List Write) (w : Write) : List Write :=
  if writes.any fun w' => w'.range = w.range then writes else w :: writes

structure Command where
  handle : Nat
  pool : Nat
  device : Device
deriving DecidableEq, Repr

structure Recording where
  command : Nat
  pool : Nat
  device : Device
  writes : List Write
deriving DecidableEq, Repr

def remember (recordings : List Recording) (c : Command) (w : Write) : List Recording :=
  if recordings.any fun r => r.command = c.handle then
    Registry.modify Recording.command c.handle (fun r => { r with writes := append r.writes w }) recordings
  else ⟨c.handle, c.pool, c.device, [w]⟩ :: recordings

/-- The ranges of a command buffer. -/
def recorded (recordings : List Recording) (command : Nat) : List Write :=
  ((Registry.lookup Recording.command command recordings).map Recording.writes).getD []

/-- `hybris_readback_collect` over command buffers. -/
def collect (recordings : List Recording) (commands : List Nat) (writes : List Write) : List Write :=
  commands.foldl (fun writes c => (recorded recordings c).foldl append writes) writes

/-! ## Submissions -/

structure Record where
  device : Device
  queue : Nat
  fence : Option Nat
  serial : Nat
  ready : Bool
  cancelled : Bool
  writes : List Write
deriving DecidableEq, Repr

/-- History: a submission, by the address of its record. -/
structure Submission where
  id : Nat
  device : Device
  queue : Nat
  fence : Option Nat
  serial : Nat
  wanted : List Write
deriving DecidableEq, Repr

inductive FenceState where
  | absent
  | unsignaled
  /-- a submission will signal it -/
  | pending (id : Nat)
  /-- a submission has signaled it, or it was created so -/
  | signaled (id : Option Nat)
deriving DecidableEq, Repr

inductive Event where
  | change (c : Change)
  | completed (id : Nat)
  | invalidated (range : Range)
deriving DecidableEq, Repr

/-- Which submissions of a device a completed call covers. -/
inductive Selector where
  | fence (f : Nat)
  | queue (q : Nat)
  | device
deriving DecidableEq, Repr

inductive After where
  | leave
  | reset
deriving DecidableEq, Repr

/-- A call that completes submissions. -/
structure Pass where
  device : Device
  fences : List Nat
  /-- the fences not yet looked at -/
  rest : List Nat
  /-- the submissions of a queue or device that is idle -/
  idle : Option Selector
  ok : Bool
  next : After
  /-- history: the submissions the call covers, known when the driver reports success -/
  cover : List Submission
deriving DecidableEq, Repr

/-- Where a thread is. -/
inductive Pc where
  | idle
  /-- `queue_submit` before `publish` -/
  | publish (device : Device) (queue : Nat) (fence : Option Nat) (writes wanted : List Write)
  | submit (sub : Submission)
  | reject (sub : Submission)
  /-- references to drop before `queue_submit` returns -/
  | drop (sub : Submission) (count : Nat)
  | lock (p : Pass)
  | scan (p : Pass)
  | detach (p : Pass) (selector : Selector)
  | work (p : Pass) (work : List Nat)
  /-- the loop over the ranges of a record -/
  | ranges (p : Pass) (r : Nat) (writes : List Write) (work : List Nat)
  | invalidate (p : Pass) (r : Nat) (w : Write) (writes : List Write) (work : List Nat)
  | failed (p : Pass) (r : Nat) (work : List Nat)
  | release (p : Pass) (r : Nat) (work : List Nat)
  | unlock (p : Pass)
  | resetFences (device : Device) (fences : List Nat)
  | forget (device : Device) (fences : List Nat)
  | forgetDestroyed (device : Device) (fence : Nat)
  | destroyFence (device : Device) (fence : Nat)
  | releaseDevice (device : Device)
  | releaseRecords (device : Device) (work : List Nat)
  | returned (ok : Bool) (cover : List Submission)
deriving DecidableEq, Repr

structure State where
  memory : Memory := {}
  recordings : List Recording := []
  heap : Heap Nat Record := fun _ => none
  registry : List Nat := []
  nextSerial : Nat := 0
  nextRecord : Nat := 0
  /-- `completion_guard` is held -/
  completing : Bool := false
  threads : List Pc
  devices : List Device := []
  /-- the submissions the driver accepted, the latest first -/
  accepted : List Submission := []
  fences : Device → Nat → FenceState := fun _ _ => .absent
  log : List Event := []
  fault : Bool := false

def State.record (s : State) (r : Nat) : Option Record := values s.heap r

def State.alive (s : State) (r : Nat) : Bool := (s.record r).isSome

/-- Go on in thread `t`. -/
def State.goto (s : State) (t : Nat) (pc : Pc) : State := { s with threads := s.threads.set t pc }

/-- A use of records: it is a fault if one of them is gone. -/
def State.access (s : State) (rs : List Nat) (next : State) : State :=
  if rs.all s.alive then next else { s with fault := true }

/-! ## Completion -/

def Record.markReady (r : Record) : Record := { r with ready := true }

def Record.requeue (r : Record) : Record := { r with ready := false }

def Record.cancel (r : Record) : Record := { r with cancelled := true }

def Record.forgetFence (r : Record) : Record := { r with fence := none }

/-- The record of the fence, on the same queue and not earlier. -/
def State.marks (s : State) (device : Device) (f : Nat) (record : Record) (m : Nat) : Bool :=
  match s.record m with
  | none => false
  | some marker =>
    marker.device = device ∧ marker.fence = some f ∧ record.queue = marker.queue ∧
      record.serial ≤ marker.serial

/-- A fence covers earlier submissions to its queue. -/
def State.selects (s : State) (device : Device) (selector : Selector) (record : Record) : Bool :=
  match selector with
  | .fence f => s.registry.any (s.marks device f record)
  | .queue q => record.queue = q
  | .device => true

def State.covers (s : State) (device : Device) (selector : Selector) (r : Nat) : Bool :=
  match s.record r with
  | none => false
  | some record => decide (record.device = device) && s.selects device selector record

/-- Change each record of a list. -/
def modifyAll (h : Heap Nat Record) (f : Record → Record) (rs : List Nat) : Heap Nat Record :=
  rs.foldl (fun h r => modify h r f) h

def State.ready (s : State) (r : Nat) : Bool := ((s.record r).map Record.ready).getD false

/-- `detach_completed`; the new work list and what is left. -/
def detachCompleted (s : State) (device : Device) (selector : Selector) : List Nat × State :=
  let s := { s with
    heap := modifyAll s.heap Record.markReady (s.registry.filter (s.covers device selector)) }
  ((s.registry.filter s.ready).reverse, { s with registry := s.registry.filter fun r => !s.ready r })

inductive Check where
  | skip
  | fail
  | call
deriving DecidableEq, Repr

/-- The section of `hybris_memory_visibility_invalidate`. -/
def checkInvalidate (m : Memory) (device : Device) (g : Range) : Check :=
  match findMemory m device g.memory with
  | none => .skip
  | some a =>
    if a.generation = g.generation ∧ a.mapped then
      if g.offset < a.mapOffset ∨ g.offset > a.mapOffset + a.mapSize ∨
          g.size > a.mapOffset + a.mapSize - g.offset then .fail
      else .call
    else .skip

/-- The changes of memory by an operation, if it is possible, with its log. -/
def State.change (s : State) (op : Op) : Option State :=
  (apply s.memory op).map fun r => { s with memory := r.1, log := s.log ++ r.2.map .change }

section
variable (s : State) (device : Device)

/-- A driver call has invalidated a range of whatever allocation has the handle. -/
def State.invalidated (g : Range) : State :=
  { s with
    log := s.log ++ ((findMemory s.memory device g.memory).toList.map fun a =>
      .invalidated { g with generation := a.generation }) }

/-- The records of `forget_fences`. -/
def State.forgotten (fences : List Nat) (r : Nat) : Bool :=
  match s.record r with
  | none => false
  | some record => record.device.handle = device.handle ∧ fences.any fun f => record.fence = some f

def forgetFences (fences : List Nat) : State :=
  { s with heap := modifyAll s.heap Record.forgetFence (s.registry.filter (s.forgotten device fences)) }

def State.setFence (f : Nat) (state : FenceState) : State :=
  { s with fences := fun d x => if d = device ∧ x = f then state else s.fences d x }

def State.setFences (fences : List Nat) (state : FenceState) : State :=
  { s with fences := fun d x => if d = device ∧ x ∈ fences then state else s.fences d x }

end

inductive Answer where
  | success
  | notReady
  | error
deriving DecidableEq, Repr

/-- Where a call goes with the completion lock. -/
def Pass.enter (p : Pass) : Pc :=
  match p.idle with
  | some selector => .detach p selector
  | none => .scan p

/-- Where a call goes without it. -/
def Pass.leave (p : Pass) : Pc :=
  match p.next, p.ok with
  | .leave, ok => .returned ok p.cover
  | .reset, true => .resetFences p.device p.fences
  | .reset, false => .returned false []

/-- What becomes of a range. -/
def Check.next (p : Pass) (r : Nat) (w : Write) (writes : List Write) (work : List Nat) : Check → Pc
  | .skip => .ranges p r writes work
  | .fail => .failed p r work
  | .call => .invalidate p r w writes work

/-- A record and the driver's fence after the driver accepted a submission. -/
def State.accept (s : State) (sub : Submission) : State :=
  match sub.fence with
  | none => { s with accepted := sub :: s.accepted }
  | some f => { s.setFence sub.device f (.pending sub.id) with accepted := sub :: s.accepted }

/-- The next step of a call, with the answer of the driver if the step calls it. -/
def advance (s : State) (t : Nat) (answer : Answer) : Pc → Option State
  | .idle => none
  | .publish device queue fence writes wanted =>
    if s.nextSerial = maxCounter then some (s.goto t .idle)
    else
      some { s.goto t (.submit ⟨s.nextRecord, device, queue, fence, s.nextSerial + 1, wanted⟩) with
        -- the registry's reference and the submitter's
        heap := retain (create s.heap s.nextRecord
          ⟨device, queue, fence, s.nextSerial + 1, false, false, writes⟩) s.nextRecord
        registry := s.nextRecord :: s.registry
        nextSerial := s.nextSerial + 1
        nextRecord := s.nextRecord + 1 }
  | .submit sub =>
    if answer = .success then some ((s.accept sub).goto t (.drop sub 1)) else some (s.goto t (.reject sub))
  | .reject sub =>
    some (s.access (sub.id :: s.registry)
      { s.goto t (.drop sub (if sub.id ∈ s.registry then 2 else 1)) with
        heap := modify s.heap sub.id Record.cancel
        registry := s.registry.erase sub.id })
  | .drop sub count =>
    some (s.access [sub.id]
      { s.goto t (if count ≤ 1 then .idle else .drop sub (count - 1)) with heap := release s.heap sub.id })
  | .lock p =>
    if s.completing then none else some { s.goto t p.enter with completing := true }
  | .scan p =>
    match p.rest with
    | [] => some (s.goto t (.unlock p))
    | f :: rest =>
      match answer with
      | .success => some (s.goto t (.detach { p with rest := rest } (.fence f)))
      | .notReady => some (s.goto t (.scan { p with rest := rest }))
      | .error => some (s.goto t (.scan { p with rest := rest, ok := false }))
  | .detach p selector =>
    let r := detachCompleted s p.device selector
    some (s.access s.registry (r.2.goto t (.work p r.1)))
  | .work p [] => some (s.goto t (.scan p))
  | .work p (r :: work) =>
    match s.record r with
    | none => some { s with fault := true }
    | some record => some (s.goto t (.ranges p r record.writes work))
  | .ranges p r [] work => some (s.goto t (.release p r work))
  | .ranges p r (w :: writes) work =>
    some (s.access [r] (s.goto t ((checkInvalidate s.memory p.device w.range).next p r w writes work)))
  | .invalidate p r w writes work =>
    (s.change (.explicitCacheChange p.device w.range.memory)).map fun s =>
      if answer = .success then (s.invalidated p.device w.range).goto t (.ranges p r writes work)
      else s.goto t (.failed p r work)
  | .failed p r work =>
    match s.record r with
    | none => some { s with fault := true }
    | some record =>
      if record.cancelled then some (s.goto t (.release { p with ok := false } r work))
      else
        some { s.goto t (.work { p with ok := false } work) with
          heap := modify s.heap r Record.requeue
          registry := r :: s.registry }
  | .release p r work => some (s.access [r] { s.goto t (.work p work) with heap := release s.heap r })
  | .unlock p => some { s.goto t p.leave with completing := false }
  | .resetFences device fences =>
    if answer = .success then some ((s.setFences device fences .unsignaled).goto t (.forget device fences))
    else some (s.goto t (.returned false []))
  | .forget device fences =>
    some (s.access s.registry ((forgetFences s device fences).goto t (.returned true [])))
  | .forgetDestroyed device f =>
    some (s.access s.registry
      (((forgetFences s device [f]).setFence device f .absent).goto t (.destroyFence device f)))
  | .destroyFence _ _ => some (s.goto t .idle)
  | .releaseDevice device =>
    let r := detachCompleted s device .device
    some (s.access s.registry
      { r.2.goto t (.releaseRecords device r.1) with
        accepted := s.accepted.filter fun sub => sub.device ≠ device })
  | .releaseRecords device [] =>
    (s.change (.releaseDevice device.handle)).map fun s =>
      { s.goto t .idle with
        devices := s.devices.filter fun d => d ≠ device
        fences := fun d x => if d = device then .absent else s.fences d x }
  | .releaseRecords device (r :: work) =>
    some (s.access [r] { s.goto t (.releaseRecords device work) with heap := release s.heap r })
  | .returned _ _ => some (s.goto t .idle)

/-! ## Steps -/

inductive Action where
  | memory (op : Op)
  | write (c : Command) (buffer : Nat) (offset size : UInt64)
  | execute (c : Command) (children : List Nat)
  | resetCommand (command : Nat)
  | resetPool (device pool : Nat)
  | createDevice (device : Device)
  | createFence (device : Device) (f : Nat) (signaled : Bool)
  | submit (t : Nat) (device : Device) (queue : Nat) (batches : List (List Nat)) (fence : Option Nat)
  /-- the driver's wait or status query has succeeded -/
  | waited (t : Nat) (device : Device) (fences : List Nat) (all : Bool)
  | queueIdle (t : Nat) (device : Device) (queue : Nat)
  | deviceIdle (t : Nat) (device : Device)
  | resetFences (t : Nat) (device : Device) (fences : List Nat)
  | destroyFence (t : Nat) (device : Device) (f : Nat)
  | destroyDevice (t : Nat) (device : Device)
  | advance (t : Nat) (answer : Answer)
  /-- the driver finishes a submission -/
  | complete (id : Nat)
  | signal (device : Device) (f : Nat)
deriving DecidableEq, Repr

/-- A submission and what the driver accepted before it for the same queue. -/
def upTo (accepted : List Submission) (sub : Submission) : List Submission :=
  (accepted.dropWhile fun x => x.id ≠ sub.id).filter fun x => x.device = sub.device ∧ x.queue = sub.queue

/-- The submissions that a fence covers. -/
def State.fenceCover (s : State) (device : Device) (f : Nat) : List Submission :=
  match s.fences device f with
  | .signaled (some id) => (s.accepted.filter fun x => x.id = id).flatMap (upTo s.accepted)
  | _ => []

def State.queueCover (s : State) (device : Device) (queue : Nat) : List Submission :=
  s.accepted.filter fun x => x.device = device ∧ x.queue = queue

/-- Start a call in an idle thread. -/
def begin (s : State) (t : Nat) (pc : Pc) : Option State :=
  if s.threads[t]? = some .idle then some (s.goto t pc) else none

def perform (s : State) : Action → Option State
  | .memory op => s.change op
  | .write c buffer offset size =>
    match readbackRange s.memory c.device buffer offset size with
    | .ok (some range) =>
      some { s with recordings := remember s.recordings c ⟨range, c.device, s.log.length⟩ }
    | _ => some s
  | .execute c children =>
    some { s with
      recordings := (collect s.recordings children []).foldl (fun rs w => remember rs c w) s.recordings }
  | .resetCommand command =>
    some { s with recordings := s.recordings.filter fun r => r.command ≠ command }
  | .resetPool device pool =>
    some { s with recordings := s.recordings.filter fun r => r.device.handle ≠ device ∨ r.pool ≠ pool }
  | .createDevice device => some { s with devices := device :: s.devices }
  | .createFence device f signaled =>
    some (s.setFence device f (if signaled then .signaled none else .unsignaled))
  | .submit t device queue batches fence =>
    -- a call without batches and fence has no record
    if batches = [] ∧ fence = none then some s
    else
      begin s t (.publish device queue fence (collect s.recordings batches.flatten [])
        (batches.flatten.flatMap (recorded s.recordings)))
  | .waited t device fences all =>
    begin s t (.lock ⟨device, fences, fences, none, true, .leave,
      if all then fences.flatMap (s.fenceCover device) else []⟩)
  | .queueIdle t device queue =>
    begin s t (.lock ⟨device, [], [], some (.queue queue), true, .leave, s.queueCover device queue⟩)
  | .deviceIdle t device =>
    begin s t (.lock ⟨device, [], [], some .device, true, .leave,
      s.accepted.filter fun x => x.device = device⟩)
  | .resetFences t device fences => begin s t (.lock ⟨device, fences, fences, none, true, .reset, []⟩)
  | .destroyFence t device f => begin s t (.forgetDestroyed device f)
  | .destroyDevice t device => begin s t (.releaseDevice device)
  | .advance t answer =>
    match s.threads[t]? with
    | none => none
    | some pc => advance s t answer pc
  | .complete id => some { s with log := s.log ++ [.completed id] }
  | .signal device f =>
    match s.fences device f with
    | .pending id => some (s.setFence device f (.signaled (some id)))
    | _ => none

/-- A fault ends a run. -/
def step (s : State) (a : Action) : Option State := if s.fault then none else perform s a

/-- Before any call, with `n` threads. -/
def State.start (n : Nat) : State := { threads := List.replicate n .idle }

end Readback
