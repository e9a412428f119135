import Libhybris.Vulkan
import Mathlib.Algebra.Group.Nat.Defs

/-!
# What a command buffer remembers for polygon modes

A device without line and point polygon modes draws an indexed triangle draw as lines. The line
indices are made by a compute prepass in a command buffer of its own, which runs before the
application's command buffer. The recording therefore remembers which buffers were written, which
secondary command buffers were executed and which buffers the prepass reads.
-/
namespace Polygon

open Vulkan

abbrev Buffer := Nat
abbrev Command := Nat

inductive IndexType where
  | uint8
  | uint16
  | uint32
  | other (code : Nat)
  deriving DecidableEq, Repr

inductive Topology where
  | triangleList
  | triangleStrip
  | triangleFan
  | other (code : Nat)
  deriving DecidableEq, Repr

/-- The index buffer bound last; no size is `VK_WHOLE_SIZE`. -/
structure Binding where
  buffer : Buffer
  offset : Nat
  size : Option Nat
  type : IndexType
  deriving DecidableEq, Repr

/-- `hybris_polygon_link`: a buffer written, or a secondary command buffer as it was recorded when
it was executed. -/
inductive Link where
  | written (buffer : Buffer)
  | child (command : Command) (epoch : Nat)
  deriving DecidableEq, Repr

/-- The prepass command buffer, whether it still records and whether a draw uses it. -/
structure Pre where
  command : Command
  opened : Bool
  used : Bool
  deriving DecidableEq, Repr

/-- `hybris_polygon_recording`. `edges` has the index buffer of each converted draw, none for a draw
without one; `topology` and `restart` are the dynamic states once they are known. -/
structure Recording where
  epoch : Nat
  simultaneous : Bool
  graphics : Option Nat
  index : Option Binding
  topology : Option Topology
  restart : Option Bool
  unknownWrites : Bool
  pre : Option Pre
  edges : List (Option Buffer)
  links : List Link
  deriving DecidableEq, Repr

abbrev Recordings := Command → Option Recording

/-- A command buffer that was just begun. -/
def Recording.fresh (epoch : Nat) (simultaneous : Bool) : Recording where
  epoch := epoch
  simultaneous := simultaneous
  graphics := none
  index := none
  topology := none
  restart := none
  unknownWrites := false
  pre := none
  edges := []
  links := []

def Recording.written (s : Recording) (b : Buffer) : Bool :=
  s.unknownWrites || s.links.any fun l => l == .written b

/-- The prepass command to submit, if a draw uses it; nothing is had while it still records. -/
def Recording.ownPrepass (s : Recording) : Option (List Command) :=
  match s.pre with
  | none => some []
  | some pre => if !pre.used then some [] else if pre.opened then none else some [pre.command]

/-- The prepass commands of executed secondaries, up to the first link that is stale or whose
prepass still records; then also whether there was no such link. -/
def childPrepasses (recordings : Recordings) : List Link → List Command × Bool
  | [] => ([], true)
  | .written _ :: links => childPrepasses recordings links
  | .child c epoch :: links =>
    match recordings c with
    | none => ([], false)
    | some child =>
      if child.epoch ≠ epoch then ([], false)
      else
        match child.ownPrepass with
        | none => ([], false)
        | some own =>
          let rest := childPrepasses recordings links
          (own ++ rest.1, rest.2)

/-- The commands `hybris_polygon_record_prepasses` finds, in its order. -/
def foundPrepasses (recordings : Recordings) (c : Command) : List Command × Bool :=
  match recordings c with
  | none => ([], true)
  | some s =>
    match s.ownPrepass with
    | none => ([], false)
    | some own =>
      let rest := childPrepasses recordings s.links
      (own ++ rest.1, rest.2)

def uint32Max : Nat := 2 ^ 32 - 1

/-- `hybris_polygon_record_prepasses`: how many commands there are, `UINT32_MAX` for a failure. -/
def recordPrepasses (recordings : Recordings) (c : Command) : Nat :=
  let found := foundPrepasses recordings c
  if found.2 = false then uint32Max
  else if uint32Max ≤ found.1.length then uint32Max
  else found.1.length

/-- What it writes to `out` for a capacity. -/
def prepassesOut (recordings : Recordings) (c : Command) (capacity : Nat) : List Command :=
  (foundPrepasses recordings c).1.take capacity

end Polygon
