import Libhybris.LastWriter
import Libhybris.Transition
import Mathlib.Data.List.Count

/-!
# Replay of promoted TLS modules

`common/bionic_tls.c`: every thread has a private arena in which each promoted module has a fixed
range. A promotion appends the module to the registry and copies the initial bytes of all modules
the promoting thread has not seen yet into its own arena; an entry compares the thread's cursor with
the published count without a lock and, if they differ, catches up under the mutex. Calls are cut at
the mutex, at the load of the count and between the copies, so that calls of different threads
interleave there. What aborts the process has no successor.

Each arena has a log of what changed it, oldest event first.
-/
namespace StaticTls

open LastWriter

/-- `BIONIC_TLS_RESERVE_SIZE`. -/
def reserveSize : Nat := 16 * 1024 * 1024

/-- `struct hybris_promoted_tls`. The size of the initial bytes is their number. -/
structure Module where
  staticOffset : Nat
  initData : List UInt8
  segmentSize : Nat
deriving DecidableEq, Repr

/-- The range check of a promotion, made again before each copy. -/
def Module.Valid (m : Module) : Prop :=
  m.staticOffset ≤ reserveSize ∧ m.segmentSize ≤ reserveSize - m.staticOffset ∧
    m.initData.length ≤ m.segmentSize

instance (m : Module) : Decidable m.Valid := inferInstanceAs (Decidable (_ ∧ _ ∧ _))

/-- The address lies in the module's range. -/
def Module.Owns (m : Module) (a : Nat) : Prop :=
  m.staticOffset ≤ a ∧ a < m.staticOffset + m.segmentSize

instance (m : Module) (a : Nat) : Decidable (m.Owns a) := inferInstanceAs (Decidable (_ ∧ _))

def Module.Apart (m n : Module) : Prop :=
  m.staticOffset + m.segmentSize ≤ n.staticOffset ∨ n.staticOffset + n.segmentSize ≤ m.staticOffset

instance (m n : Module) : Decidable (m.Apart n) := inferInstanceAs (Decidable (_ ∨ _))

/-- The bytes of slot -1 and slot 1, which an entry fills in. -/
def tcbWord (a : Nat) : Bool := a < 8 || (16 ≤ a && a < 24)

/-- The range stays clear of the two words. -/
def Module.ClearOfTcb (m : Module) : Prop :=
  8 ≤ m.staticOffset ∧ (m.staticOffset + m.segmentSize ≤ 16 ∨ 24 ≤ m.staticOffset) ∨ m.segmentSize = 0

instance (m : Module) : Decidable m.ClearOfTcb := inferInstanceAs (Decidable (_ ∨ _))

inductive Event where
  /-- The entry filled in the TCB. -/
  | tcb (word : Nat → UInt8)
  /-- Module number `i` of the registry was copied in. -/
  | applied (i : Nat) (m : Module)
  /-- The thread wrote a byte. -/
  | wrote (a : Nat) (v : UInt8)

/-- The bytes an event puts into the arena. -/
def Event.write : Event → Nat → Option UInt8
  | .tcb word => fun a => if tcbWord a then some (word a) else none
  | .applied _ m => fun a => if m.staticOffset ≤ a then m.initData[a - m.staticOffset]? else none
  | .wrote b v => fun a => if a = b then some v else none

theorem Event.write_applied (i : Nat) (m : Module) (a : Nat) : Event.write (.applied i m) a =
    if m.staticOffset ≤ a then m.initData[a - m.staticOffset]? else none := rfl

inductive Pc where
  /-- Outside; the last call began when `since` modules were published. -/
  | returned (since : Nat)
  | promoteLock (m : Module) (since : Nat)
  | promoteApply (i since : Nat)
  | promoteUnlock (since : Nat)
  | enterLoad (since : Nat)
  | enterLock (since : Nat)
  | enterApply (i since : Nat)
deriving DecidableEq, Repr

structure Thread where
  /-- The bytes of the arena, if the thread has one. -/
  arena : Option (Nat → UInt8)
  inited : Bool
  /-- `tls_module_init_count`. -/
  cursor : Nat
  pc : Pc
  log : List Event

def Thread.fresh : Thread := ⟨none, false, 0, .returned 0, []⟩

structure State where
  entries : List Module
  published : Nat
  /-- The thread that holds the mutex. -/
  holder : Option Nat
  threads : Nat → Thread

def start : State := ⟨[], 0, none, fun _ => .fresh⟩

def State.set (s : State) (t : Nat) (th : Thread) : State :=
  { s with threads := Function.update s.threads t th }

/-- `hybris_ensure_static_tls`. -/
def Thread.ensure (th : Thread) : Nat → UInt8 := th.arena.getD fun _ => 0

/-- One event happens to the arena. -/
def Thread.record (th : Thread) (e : Event) : Thread :=
  { th with
    arena := some fun a => (e.write a).getD (th.ensure a)
    log := th.log ++ [e] }

/-- `hybris_apply_static_tls_locked`. -/
def Thread.apply (th : Thread) (i : Nat) (m : Module) : Option Thread :=
  if m.Valid then some (th.record (.applied i m)) else none

inductive Action where
  | promote (t : Nat) (m : Module)
  | lock (t : Nat)
  | apply (t : Nat)
  | publish (t : Nat)
  | unlock (t : Nat)
  | enter (t : Nat) (word : Nat → UInt8)
  | load (t : Nat)
  | write (t a : Nat) (v : UInt8)
  | cleanup (t : Nat)

section
variable (s : State) (t : Nat)

/-- `_hybris_init_static_tls_for_thread` up to its lock. -/
def beginPromote (m : Module) : Option State :=
  match (s.threads t).pc with
  | .returned _ =>
    if m.Valid then
      some (s.set t { s.threads t with pc := .promoteLock m s.published })
    else none
  | _ => none

/-- The linker's layout gives every module a range of its own, clear of the TCB words. -/
def lock : Option State :=
  if s.holder = none then
    match (s.threads t).pc with
    | .promoteLock m since =>
      if m.ClearOfTcb ∧ ∀ n ∈ s.entries, m.Apart n then
        some { s.set t { s.threads t with pc := .promoteApply (s.threads t).cursor since } with
          holder := some t, entries := s.entries ++ [m] }
      else none
    | .enterLock since =>
      some { s.set t { s.threads t with pc := .enterApply (s.threads t).cursor since } with
        holder := some t }
    | _ => none
  else none

/-- One round of either loop. -/
def applyNext : Option State :=
  match (s.threads t).pc with
  | .promoteApply i since =>
    (s.entries[i]?).bind fun m => ((s.threads t).apply i m).map fun th =>
      s.set t { th with pc := .promoteApply (i + 1) since }
  | .enterApply i since =>
    (s.entries[i]?).bind fun m => ((s.threads t).apply i m).map fun th =>
      s.set t { th with pc := .enterApply (i + 1) since }
  | _ => none

def publish : Option State :=
  match (s.threads t).pc with
  | .promoteApply i since =>
    if i < s.entries.length then none
    else
      some { s.set t { s.threads t with cursor := s.entries.length, pc := .promoteUnlock since } with
        published := s.entries.length }
  | _ => none

def unlock : Option State :=
  match (s.threads t).pc with
  | .promoteUnlock since =>
    some { s.set t { s.threads t with pc := .returned since } with holder := none }
  | .enterApply i since =>
    if i < s.entries.length then none
    else
      some { s.set t { s.threads t with cursor := s.entries.length, pc := .returned since } with
        holder := none }
  | _ => none

/-- `_hybris_hook___get_tls_hooks` up to its load. -/
def enter (word : Nat → UInt8) : Option State :=
  match (s.threads t).pc with
  | .returned _ =>
    let th := s.threads t
    let th := if th.inited then th else { th.record (.tcb word) with inited := true }
    some (s.set t { th with pc := .enterLoad s.published })
  | _ => none

def load : Option State :=
  match (s.threads t).pc with
  | .enterLoad since =>
    let pc := if (s.threads t).cursor ≠ s.published then .enterLock since else .returned since
    some (s.set t { s.threads t with pc })
  | _ => none

end

/-- A thread writes to its arena outside the calls. -/
def write (s : State) (t a : Nat) (v : UInt8) : Option State :=
  match (s.threads t).pc with
  | .returned _ =>
    if (s.threads t).arena.isSome then
      some (s.set t ((s.threads t).record (.wrote a v)))
    else none
  | _ => none

/-- `_bionic_tls_cleanup`. -/
def cleanup (s : State) (t : Nat) : Option State :=
  match (s.threads t).pc with
  | .returned _ => if (s.threads t).arena.isSome then some (s.set t .fresh) else none
  | _ => none

def step (s : State) : Action → Option State
  | .promote t m => beginPromote s t m
  | .lock t => lock s t
  | .apply t => applyNext s t
  | .publish t => publish s t
  | .unlock t => unlock s t
  | .enter t word => enter s t word
  | .load t => load s t
  | .write t a v => write s t a v
  | .cleanup t => cleanup s t

end StaticTls
