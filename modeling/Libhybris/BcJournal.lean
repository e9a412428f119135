import Libhybris.LastWriter
import Libhybris.Vulkan
import Mathlib.Data.List.Count
import Mathlib.Algebra.Group.Nat.Defs

/-!
# The command journal of the block decoder

`compat/bc_command_state.c` and the command wrappers of `compat/bc_commands.c`. The decoder records
compute work of its own in the application's command buffer, so what the application binds and
pushes is journalled and replayed behind the decoder's commands. The driver's side of the command
buffer is kept next to the journal. The registry of pipeline layouts holds one record for each
layout the application created; the record owns a clone of the layout that outlives it.
-/
namespace BcJournal

open Vulkan LastWriter

abbrev Handle := Nat

inductive BindPoint where
  | graphics
  | compute
  | other (value : Nat)
deriving DecidableEq, Repr

/-- `VK_SHADER_STAGE_COMPUTE_BIT`. -/
def computeBit : UInt32 := 0x20

/-- `VK_SHADER_STAGE_ALL_GRAPHICS`. -/
def allGraphics : UInt32 := 0x1f

def sizeMax : Nat := 2 ^ 64 - 1

/-- The size of a saved command without its data. -/
def savedHeader : Nat := 40

def errorFeatureNotPresent : VkResult := .other (-8)

/-! ## What the driver holds -/

/-- One push-constant write. -/
structure Push where
  stages : UInt32
  first : Nat
  bytes : List UInt8
deriving DecidableEq, Repr

/-- The bytes a push writes, by stage and position. -/
def Push.write (p : Push) : Fin 32 × Nat → Option UInt8 := fun k =>
  if p.stages.toNat.testBit k.1 ∧ p.first ≤ k.2 then p.bytes[k.2 - p.first]? else none

/-- A set as it was bound, with its own dynamic offsets and the definition of the layout. -/
structure Bound (Info : Type) where
  set : Handle
  offsets : List UInt32
  layout : Info
deriving DecidableEq, Repr

structure Bindings (Info : Type) where
  /-- The compute pipeline, zero when none was bound. -/
  pipeline : Handle
  sets : Nat → Option (Bound Info)
  push : Fin 32 × Nat → Option UInt8

inductive Command (Info : Type) where
  | bindPipeline (point : BindPoint) (pipeline : Handle)
  | bindDescriptors (point : BindPoint) (layout : Info) (first : Nat) (sets : List Handle)
      (offsets : List UInt32)
  | push (layout : Info) (p : Push)
deriving DecidableEq, Repr

section Driver

variable {Info : Type} (dynamic : Handle → Nat)

/-- The sets bound from index `first` on. Each takes as many of the offsets as it has dynamic
descriptors. -/
def boundSets (layout : Info) : Nat → List Handle → List UInt32 → Nat → Option (Bound Info)
  | _, [], _, _ => none
  | first, set :: rest, offsets, k =>
    if k = first then some ⟨set, offsets.take (dynamic set), layout⟩
    else boundSets layout (first + 1) rest (offsets.drop (dynamic set)) k

def Command.setsWrite : Command Info → Nat → Option (Bound Info)
  | .bindDescriptors .compute layout first sets offsets => boundSets dynamic layout first sets offsets
  | _ => fun _ => none

def Command.push? : Command Info → Option Push
  | .push _ p => some p
  | _ => none

def exec (b : Bindings Info) : Command Info → Bindings Info
  | .bindPipeline point pipeline => if point = .compute then { b with pipeline } else b
  | .bindDescriptors point layout first sets offsets =>
    let write := Command.setsWrite dynamic (.bindDescriptors point layout first sets offsets)
    { b with sets := apply b.sets write }
  | .push _ p => { b with push := apply b.push p.write }

def execAll (b : Bindings Info) (cs : List (Command Info)) : Bindings Info :=
  cs.foldl (exec dynamic) b

end Driver

/-! ## Pipeline layouts -/

structure Layout (Info : Type) where
  handle : Handle
  clone : Handle
  info : Info
  references : Nat
deriving DecidableEq, Repr

/-- `record` is the heap: a record that was freed is gone from it. `listed` is the ownership
list, newest first; the hash index lists the same records in the same order. -/
structure Layouts (Info : Type) where
  record : Nat → Option (Layout Info)
  next : Nat
  listed : List Nat

namespace Layouts

variable {Info : Type}

def empty : Layouts Info := ⟨fun _ => none, 0, []⟩

def info (ls : Layouts Info) (i : Nat) : Option Info := (ls.record i).map Layout.info

def find (ls : Layouts Info) (handle : Handle) : Option (Nat × Layout Info) :=
  ls.listed.findSome? fun i =>
    (ls.record i).bind fun l => if l.handle = handle then some (i, l) else none

def setRecord (ls : Layouts Info) (i : Nat) (l : Option (Layout Info)) : Layouts Info :=
  { ls with record := Function.update ls.record i l }

section
variable (ls : Layouts Info)

@[simp]
theorem setRecord_self (i : Nat) (l : Option (Layout Info)) :
    (ls.setRecord i l).record i = l := Function.update_self ..

@[simp]
theorem setRecord_of_ne {i j : Nat} (l : Option (Layout Info)) (h : j ≠ i) :
    (ls.setRecord i l).record j = ls.record j := Function.update_of_ne h ..

@[simp]
theorem setRecord_listed (i : Nat) (l : Option (Layout Info)) :
    (ls.setRecord i l).listed = ls.listed := rfl

end

/-- `hybris_bc_layout_add`, once the record and its clone exist. -/
def add (ls : Layouts Info) (handle clone : Handle) (info : Info) : Layouts Info :=
  { ls.setRecord ls.next (some ⟨handle, clone, info, 1⟩) with
    next := ls.next + 1, listed := ls.next :: ls.listed }

def release (ls : Layouts Info) (i : Nat) (l : Layout Info) : Layouts Info :=
  ls.setRecord i
    (if l.references - 1 = 0 then none else some { l with references := l.references - 1 })

def remove (ls : Layouts Info) (handle : Handle) : Layouts Info :=
  match ls.find handle with
  | none => ls
  | some (i, l) => release { ls with listed := ls.listed.erase i } i l

def acquire (ls : Layouts Info) (handle : Handle) : Except VkResult (Nat × Layouts Info) :=
  match ls.find handle with
  | none => .error .errorInitializationFailed
  | some (i, l) =>
    if l.references = sizeMax then .error .errorOutOfHostMemory
    else .ok (i, ls.setRecord i (some { l with references := l.references + 1 }))

end Layouts

/-! ## The journal -/

/-- A saved command points at the record of its layout. -/
inductive Saved where
  | descriptors (layout : Nat) (point : BindPoint) (first : Nat) (sets : List Handle)
      (offsets : List UInt32)
  | push (layout : Nat) (p : Push)
deriving DecidableEq, Repr

def Saved.layout : Saved → Nat
  | .descriptors layout .. => layout
  | .push layout _ => layout

structure Journal where
  computePipeline : Handle
  graphicsPipeline : Handle
  trackGraphics : Bool
  saved : List Saved
  error : VkResult
deriving DecidableEq, Repr

structure Session (Info : Type) where
  layouts : Layouts Info
  journal : Journal
  bindings : Bindings Info

section Session

variable {Info : Type}

/-- A command buffer at `vkBeginCommandBuffer`. -/
def start (trackGraphics : Bool) : Session Info where
  layouts := .empty
  journal := ⟨0, 0, trackGraphics, [], .success⟩
  bindings := ⟨0, fun _ => none, fun _ => none⟩

section
variable (s : Session Info)

def Session.fail (error : VkResult) : Session Info :=
  { s with journal := { s.journal with error } }

def save (handle : Handle) (bytes : Nat) (allocated : Bool) (entry : Nat → Saved) : Session Info :=
  if s.journal.error ≠ .success then s
  else if bytes > sizeMax - savedHeader then s.fail .errorOutOfHostMemory
  else if allocated = false then s.fail .errorOutOfHostMemory
  else
    match s.layouts.acquire handle with
    | .error error => s.fail error
    | .ok (i, layouts) =>
      { s with layouts, journal := { s.journal with saved := s.journal.saved ++ [entry i] } }

def savePipeline (point : BindPoint) (pipeline : Handle) : Session Info :=
  if point = .compute then { s with journal := { s.journal with computePipeline := pipeline } }
  else if s.journal.trackGraphics = true ∧ point = .graphics then
    { s with journal := { s.journal with graphicsPipeline := pipeline } }
  else s

def saveDescriptors (point : BindPoint) (layout : Handle) (first : Nat)
    (sets : List Handle) (offsets : List UInt32) (allocated : Bool) : Session Info :=
  if sets.length = 0 ∨ (point ≠ .compute ∧ ¬(s.journal.trackGraphics = true ∧ point = .graphics)) then s
  else if sets.length * 8 + offsets.length * 4 > sizeMax then s.fail .errorOutOfHostMemory
  else save s layout (sets.length * 8 + offsets.length * 4) allocated
    fun i => .descriptors i point first sets offsets

def savePush (layout : Handle) (p : Push) (allocated : Bool) : Session Info :=
  save s layout p.bytes.length allocated fun i => .push i p

end

/-! ## The wrapped commands -/

variable (dynamic : Handle → Nat)

/-- The driver executes a command that names a live layout by its handle. -/
def Session.forward (s : Session Info) (layout : Handle) (command : Info → Command Info) :
    Session Info :=
  match s.layouts.find layout with
  | none => s
  | some (_, l) => { s with bindings := exec dynamic s.bindings (command l.info) }

inductive Op (Info : Type) where
  | createLayout (handle clone : Handle) (info : Info)
  | destroyLayout (handle : Handle)
  | bindPipeline (point : BindPoint) (pipeline : Handle)
  | bindDescriptors (point : BindPoint) (layout : Handle) (first : Nat) (sets : List Handle)
      (offsets : List UInt32) (allocated : Bool)
  | pushConstants (layout : Handle) (p : Push) (allocated : Bool)
  | bindDescriptors2 (stages : UInt32) (layout : Handle) (first : Nat) (sets : List Handle)
      (offsets : List UInt32) (allocatedCompute allocatedGraphics : Bool)
  | pushConstants2 (layout : Handle) (p : Push) (allocated : Bool)
deriving DecidableEq, Repr

section
variable (s : Session Info)

def bindDescriptors2 (stages : UInt32) (layout : Handle) (first : Nat)
    (sets : List Handle) (offsets : List UInt32) (allocatedCompute allocatedGraphics : Bool) :
    Session Info :=
  let compute := decide (stages &&& computeBit ≠ 0)
  let graphics := s.journal.trackGraphics && decide (stages &&& allGraphics ≠ 0)
  -- the driver binds for every bind point the stages name; only the compute one is looked at
  let s := if compute then
      s.forward dynamic layout fun info => .bindDescriptors .compute info first sets offsets
    else s
  if compute || graphics then
    if layout = 0 then s.fail errorFeatureNotPresent
    else
      let s := if compute then saveDescriptors s .compute layout first sets offsets allocatedCompute
        else s
      if graphics then saveDescriptors s .graphics layout first sets offsets allocatedGraphics else s
  else s

def step : Op Info → Session Info
  | .createLayout handle clone info => { s with layouts := s.layouts.add handle clone info }
  | .destroyLayout handle => { s with layouts := s.layouts.remove handle }
  | .bindPipeline point pipeline =>
    savePipeline { s with bindings := exec dynamic s.bindings (.bindPipeline point pipeline) }
      point pipeline
  | .bindDescriptors point layout first sets offsets allocated =>
    saveDescriptors
      (s.forward dynamic layout fun info => .bindDescriptors point info first sets offsets)
      point layout first sets offsets allocated
  | .pushConstants layout p allocated =>
    savePush (s.forward dynamic layout fun info => .push info p) layout p allocated
  | .bindDescriptors2 stages layout first sets offsets allocatedCompute allocatedGraphics =>
    bindDescriptors2 dynamic s stages layout first sets offsets allocatedCompute allocatedGraphics
  | .pushConstants2 layout p allocated =>
    let s := s.forward dynamic layout fun info => .push info p
    if layout = 0 then s.fail errorFeatureNotPresent else savePush s layout p allocated

def run (ops : List (Op Info)) : Session Info := ops.foldl (step dynamic) s

/-- `hybris_bc_command_state_reset`; the command buffer forgets its bindings with it. -/
def Session.reset : Session Info where
  layouts := s.journal.saved.foldl
    (fun ls e => (ls.record e.layout).elim ls (ls.release e.layout)) s.layouts
  journal := ⟨0, 0, s.journal.trackGraphics, [], .success⟩
  bindings := ⟨0, fun _ => none, fun _ => none⟩

/-- Recordings one after another, a reset behind each. -/
def recordings (earlier : List (List (Op Info))) : Session Info :=
  earlier.foldl (fun s ops => (run dynamic s ops).reset) s

end

/-! ## Restoring -/

/-- The command that replays a saved one with the clone of its layout. A record that was freed
has no clone. -/
def Saved.command (ls : Layouts Info) : Saved → Option (Command Info)
  | .descriptors layout point first sets offsets =>
    (ls.info layout).map fun info => .bindDescriptors point info first sets offsets
  | .push layout p => (ls.info layout).map fun info => .push info p

def Saved.bindsAt (point : BindPoint) : Saved → Bool
  | .descriptors _ p .. => p == point
  | .push .. => false

/-- The pushes of one pass: those that name an active stage are left to the second. -/
def Saved.inPass (active : UInt32) (pass : Bool) : Saved → Bool
  | .descriptors .. => false
  | .push _ p => decide (p.stages &&& active ≠ 0) == pass

def restore (s : Session Info) (point : BindPoint) : List (Command Info) :=
  if s.journal.error ≠ .success then []
  else
    let handle := if point = .compute then s.journal.computePipeline else s.journal.graphicsPipeline
    let active := if point = .compute then computeBit else allGraphics
    (if handle ≠ 0 then [.bindPipeline point handle] else []) ++
      (s.journal.saved.filter (Saved.bindsAt point)).filterMap (Saved.command s.layouts) ++
      [false, true].flatMap fun pass =>
        (s.journal.saved.filter (Saved.inPass active pass)).filterMap (Saved.command s.layouts)

def restoreCompute (s : Session Info) : List (Command Info) := restore s .compute

end Session

end BcJournal
