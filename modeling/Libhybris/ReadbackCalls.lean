import Libhybris.ReadbackRecords
import Mathlib.Data.List.TakeWhile

/-!
# What a wait promises, and what it relies on

The driver tells the truth and the application keeps the rules of external synchronization: a queue
and a fence that is submitted or reset are used by one call at a time. On these terms a call that
completes submissions and reports success promises that what they wrote is visible to the host.
-/
namespace Readback

open MemoryVisibility RefCount List

/-! ## Visibility -/

/-- The memory of a range was unmapped or freed after the range was recorded. -/
def Gone (log : List Event) (w : Write) : Prop :=
  .change (.unmapped w.range.generation) ∈ log.drop w.since ∨
    .change (.freed w.range.generation) ∈ log.drop w.since

/-- The range was invalidated after the submission had completed, or it is gone. -/
def Visible (log : List Event) (id : Nat) (w : Write) : Prop :=
  .invalidated w.range ∈ log.dropWhile (fun e => e ≠ .completed id) ∨ Gone log w

instance (log : List Event) (w : Write) : Decidable (Gone log w) := inferInstanceAs (Decidable (_ ∨ _))

instance (log : List Event) (id : Nat) (w : Write) : Decidable (Visible log id w) :=
  inferInstanceAs (Decidable (_ ∨ _))

def State.Shown (s : State) (sub : Submission) : Prop := ∀ w ∈ sub.wanted, Visible s.log sub.id w

instance (s : State) (sub : Submission) : Decidable (s.Shown sub) :=
  inferInstanceAs (Decidable (∀ w ∈ sub.wanted, _))

variable {log : List Event}

theorem Gone.append {w : Write} (h : Gone log w) (events : List Event) : Gone (log ++ events) w := by
  have hdrop : ∀ e ∈ log.drop w.since, e ∈ (log ++ events).drop w.since := by
    intro e he
    rw [drop_append]
    exact mem_append_left _ he
  exact h.imp (hdrop _) (hdrop _)

theorem Visible.append {id : Nat} {w : Write} (h : Visible log id w) (events : List Event) :
    Visible (log ++ events) id w := by
  refine h.imp (fun hm => ?_) fun hg => hg.append events
  rw [dropWhile_append]
  split
  case isTrue hempty =>
    rw [isEmpty_iff.mp hempty] at hm
    cases hm
  case isFalse => exact mem_append_left _ hm

/-- What happens after a submission has completed. -/
theorem mem_after_completed {events : List Event} {id : Nat} {e : Event} (h : .completed id ∈ log)
    (he : e ∈ events) : e ∈ (log ++ events).dropWhile (fun e => e ≠ .completed id) := by
  rw [dropWhile_append]
  split
  case isTrue hempty =>
    have hnone := dropWhile_eq_nil_iff.mp (isEmpty_iff.mp hempty) _ h
    simp at hnone
  case isFalse => exact mem_append_right _ he

/-! ## External synchronization -/

/-- The queues and fences that a call uses. -/
structure Uses where
  /-- one queue of a device or all of them, for itself -/
  queues : Option (Device × Option Nat) := none
  submitted : List (Device × Nat) := []
  resetting : List (Device × Nat) := []
  waiting : List (Device × Nat) := []

def Overlap (x y : Device × Option Nat) : Prop := x.1 = y.1 ∧ (x.2 = none ∨ y.2 = none ∨ x.2 = y.2)

instance (x y : Device × Option Nat) : Decidable (Overlap x y) := inferInstanceAs (Decidable (_ ∧ _))

/-- Two calls may be in progress together. -/
structure Uses.Apart (u v : Uses) : Prop where
  queues : ∀ x ∈ u.queues, ∀ y ∈ v.queues, ¬ Overlap x y
  submitted : ∀ k ∈ u.submitted, k ∉ v.submitted ∧ k ∉ v.resetting
  resetting : ∀ k ∈ u.resetting, k ∉ v.submitted ∧ k ∉ v.resetting ∧ k ∉ v.waiting
  waiting : ∀ k ∈ u.waiting, k ∉ v.resetting

instance (u v : Uses) : Decidable (u.Apart v) :=
  decidable_of_iff ((∀ x ∈ u.queues, ∀ y ∈ v.queues, ¬ Overlap x y) ∧
      (∀ k ∈ u.submitted, k ∉ v.submitted ∧ k ∉ v.resetting) ∧
      (∀ k ∈ u.resetting, k ∉ v.submitted ∧ k ∉ v.resetting ∧ k ∉ v.waiting) ∧
      ∀ k ∈ u.waiting, k ∉ v.resetting)
    ⟨fun h => ⟨h.1, h.2.1, h.2.2.1, h.2.2.2⟩, fun h => ⟨h.1, h.2, h.3, h.4⟩⟩

theorem Overlap.symm {x y : Device × Option Nat} (h : Overlap x y) : Overlap y x :=
  ⟨h.1.symm, h.2.elim (fun h => .inr (.inl h)) fun h => h.elim .inl fun h => .inr (.inr h.symm)⟩

theorem Uses.Apart.symm {u v : Uses} (h : u.Apart v) : v.Apart u :=
  ⟨fun y hy x hx ho => h.queues x hx y hy ho.symm,
    fun k hk => ⟨fun hu => (h.submitted k hu).1 hk, fun hu => (h.resetting k hu).1 hk⟩,
    fun k hk => ⟨fun hu => (h.submitted k hu).2 hk, fun hu => (h.resetting k hu).2.1 hk,
      fun hu => h.waiting k hu hk⟩,
    fun k hk hu => (h.resetting k hu).2.2 hk⟩

/-- A call that uses no more than another. -/
structure Uses.Within (u v : Uses) : Prop where
  queues : ∀ x ∈ u.queues, x ∈ v.queues
  submitted : u.submitted ⊆ v.submitted
  resetting : u.resetting ⊆ v.resetting
  waiting : u.waiting ⊆ v.waiting

theorem Uses.Within.refl (u : Uses) : u.Within u := ⟨fun _ h => h, fun _ h => h, fun _ h => h, fun _ h => h⟩

theorem Uses.Within.of_none (v : Uses) : Uses.Within {} v := ⟨nofun, nofun, nofun, nofun⟩

theorem Uses.Apart.within {u v w : Uses} (h : u.Apart w) (hv : v.Within u) : v.Apart w :=
  ⟨fun x hx => h.queues x (hv.queues x hx), fun k hk => h.submitted k (hv.submitted hk),
    fun k hk => h.resetting k (hv.resetting hk), fun k hk => h.waiting k (hv.waiting hk)⟩

def keys (device : Device) (fences : List Nat) : List (Device × Nat) := fences.map fun f => (device, f)

def submitUses (device : Device) (queue : Nat) (fence : Option Nat) : Uses :=
  { queues := some (device, some queue), submitted := keys device fence.toList }

def Pass.uses (p : Pass) : Uses :=
  { queues := match p.idle with
      | some (.queue q) => some (p.device, some q)
      | some .device => some (p.device, none)
      | _ => none
    resetting := if p.next = .reset then keys p.device p.fences else []
    waiting := if p.next = .leave then keys p.device p.fences else [] }

/-- What a call uses, until the driver has answered a submission and until a wait has done its
work. -/
def Pc.uses : Pc → Uses
  | .publish device queue fence _ _ => submitUses device queue fence
  | .submit sub => submitUses sub.device sub.queue sub.fence
  | .reject sub => submitUses sub.device sub.queue sub.fence
  | .lock p => p.uses
  | .scan p => p.uses
  | .detach p _ => p.uses
  | .work p _ => p.uses
  | .ranges p _ _ _ => p.uses
  | .invalidate p _ _ _ _ => p.uses
  | .failed p _ _ => p.uses
  | .release p _ _ => p.uses
  | .unlock p => p.uses
  | .resetFences device fences => { resetting := keys device fences }
  | .forget device fences => { resetting := keys device fences }
  | _ => {}

def State.Free (s : State) (u : Uses) : Prop := ∀ pc ∈ s.threads, u.Apart pc.uses

instance (s : State) (u : Uses) : Decidable (s.Free u) := inferInstanceAs (Decidable (∀ pc ∈ s.threads, _))

def FenceState.isSignaled : FenceState → Bool
  | .signaled _ => true
  | _ => false

def FenceState.isPending : FenceState → Bool
  | .pending _ => true
  | _ => false

/-- A submission has signaled the fence or will. -/
def FenceState.StandsFor (state : FenceState) (id : Nat) : Prop :=
  state = .pending id ∨ state = .signaled (some id)

instance (state : FenceState) (id : Nat) : Decidable (state.StandsFor id) :=
  inferInstanceAs (Decidable (_ ∨ _))

/-- The fence of the submission was not reset since. -/
def Submission.Marked (sub : Submission) (fences : Device → Nat → FenceState) : Prop :=
  ∃ f ∈ sub.fence, (fences sub.device f).StandsFor sub.id

instance (sub : Submission) (fences : Device → Nat → FenceState) : Decidable (sub.Marked fences) :=
  inferInstanceAs (Decidable (∃ f ∈ sub.fence, _))

def State.Completed (s : State) (id : Nat) : Prop := .completed id ∈ s.log

instance (s : State) (id : Nat) : Decidable (s.Completed id) := inferInstanceAs (Decidable (_ ∈ s.log))

/-- The fence whose status a call asks for. -/
def Pc.asked : Pc → Option (Device × Nat)
  | .scan p => p.rest.head?.map fun f => (p.device, f)
  | _ => none

/-- What the application may do and what the driver may say. Nothing is destroyed meanwhile. -/
def Valid (s : State) : Action → Prop
  | .createDevice device => ∀ d ∈ s.devices, d.handle ≠ device.handle
  | .createFence device f _ => s.fences device f = .absent
  | .submit _ device queue batches fence =>
    device ∈ s.devices ∧ s.Free (submitUses device queue fence) ∧
      (∀ f ∈ fence, s.fences device f = .unsignaled) ∧
      ∀ w ∈ batches.flatten.flatMap (recorded s.recordings), w.device = device
  | .waited _ device fences all =>
    device ∈ s.devices ∧ s.Free { waiting := keys device fences } ∧
      (all = true → ∀ f ∈ fences, (s.fences device f).isSignaled = true)
  | .queueIdle _ device queue =>
    device ∈ s.devices ∧ s.Free { queues := some (device, some queue) } ∧
      ∀ sub ∈ s.queueCover device queue, s.Completed sub.id
  | .deviceIdle _ device =>
    device ∈ s.devices ∧ s.Free { queues := some (device, none) } ∧
      ∀ sub ∈ s.accepted, sub.device = device → s.Completed sub.id
  | .resetFences _ device fences =>
    device ∈ s.devices ∧ s.Free { resetting := keys device fences } ∧
      ∀ f ∈ fences, (s.fences device f).isPending = false
  | .destroyFence _ _ _ => False
  | .destroyDevice _ _ => False
  | .advance t answer =>
    ∀ pc ∈ s.threads[t]?, ∀ k ∈ pc.asked,
      (answer = .success → (s.fences k.1 k.2).isSignaled = true) ∧
        (answer = .notReady → (s.fences k.1 k.2).isSignaled = false)
  | .complete id => (∃ sub ∈ s.accepted, sub.id = id) ∧ ¬ s.Completed id
  | .signal device f =>
    ∀ sub ∈ s.accepted, s.fences device f = .pending sub.id → ∀ x ∈ upTo s.accepted sub, s.Completed x.id
  | .memory _ => True
  | .write _ _ _ _ => True
  | .execute _ _ => True
  | .resetCommand _ => True
  | .resetPool _ _ => True

instance (s : State) (a : Action) : Decidable (Valid s a) :=
  match a with
  | .createDevice device => inferInstanceAs (Decidable (∀ d ∈ s.devices, d.handle ≠ device.handle))
  | .createFence device f _ => inferInstanceAs (Decidable (s.fences device f = .absent))
  | .submit _ _ _ _ _ => inferInstanceAs (Decidable (_ ∧ _ ∧ (∀ f ∈ _, _) ∧ ∀ w ∈ List.flatMap _ _, _))
  | .waited _ _ fences _ => inferInstanceAs (Decidable (_ ∧ _ ∧ (_ → ∀ f ∈ fences, _)))
  | .queueIdle _ device queue => inferInstanceAs (Decidable (_ ∧ _ ∧ ∀ sub ∈ s.queueCover device queue, _))
  | .deviceIdle _ _ => inferInstanceAs (Decidable (_ ∧ _ ∧ ∀ sub ∈ s.accepted, _))
  | .resetFences _ _ fences => inferInstanceAs (Decidable (_ ∧ _ ∧ ∀ f ∈ fences, _))
  | .destroyFence _ _ _ => .isFalse id
  | .destroyDevice _ _ => .isFalse id
  | .advance t _ => inferInstanceAs (Decidable (∀ pc ∈ s.threads[t]?, ∀ k ∈ pc.asked, _))
  | .complete _ => inferInstanceAs (Decidable ((∃ sub ∈ s.accepted, _) ∧ _))
  | .signal _ _ => inferInstanceAs (Decidable (∀ sub ∈ s.accepted, _ → ∀ x ∈ upTo s.accepted sub, _))
  | .memory _ | .write _ _ _ _ | .execute _ _ | .resetCommand _ | .resetPool _ _ => .isTrue trivial

def SameQueue (x y : Submission) : Prop := x.device = y.device ∧ x.queue = y.queue

instance (x y : Submission) : Decidable (SameQueue x y) := inferInstanceAs (Decidable (_ ∧ _))

theorem SameQueue.symm {x y : Submission} (h : SameQueue x y) : SameQueue y x := ⟨h.1.symm, h.2.symm⟩

/-- The record that a call gives up because its ranges are invalidated. -/
def Pc.settles : Pc → Option Nat
  | .release _ r _ => some r
  | _ => none

/-- The record that a call puts back because an invalidation failed. -/
def Pc.returns : Pc → Option Nat
  | .failed _ r _ => some r
  | _ => none

/-- A submission that a fence stands for is given up after the earlier ones to its queue: not before
one that was put back, and none is put back after it was given up. -/
def Orderly (s : State) : Action → Prop
  | .advance t _ =>
    ∀ pc ∈ s.threads[t]?, ∀ x ∈ s.accepted,
      (x.id ∈ pc.settles ∧ x.Marked s.fences →
        ∀ y ∈ s.accepted, SameQueue y x → y.serial < x.serial → y.id ∉ s.registry) ∧
      (x.id ∈ pc.returns → ∀ y ∈ s.accepted, y.Marked s.fences ∧ SameQueue y x →
        x.serial < y.serial → s.Listed y.id)
  | _ => True

instance (s : State) (a : Action) : Decidable (Orderly s a) :=
  match a with
  | .advance t _ => inferInstanceAs (Decidable (∀ pc ∈ s.threads[t]?, ∀ x ∈ s.accepted,
      (_ → ∀ y ∈ s.accepted, _) ∧ (_ → ∀ y ∈ s.accepted, _)))
  | .memory _ | .write _ _ _ _ | .execute _ _ | .resetCommand _ | .resetPool _ _ | .createDevice _
  | .createFence _ _ _ | .submit _ _ _ _ _ | .waited _ _ _ _ | .queueIdle _ _ _ | .deviceIdle _ _
  | .resetFences _ _ _ | .destroyFence _ _ _ | .destroyDevice _ _ | .complete _ | .signal _ _ =>
    .isTrue trivial

/-! ## The invariant -/

/-- The allocation of a recorded range is there and mapped, or the log says otherwise. -/
def Tracked (s : State) (w : Write) : Prop :=
  w.since ≤ s.log.length ∧
    ((∃ a ∈ s.memory.allocations, a.device = w.device ∧ a.memory = w.range.memory ∧
      a.generation = w.range.generation ∧ a.mapped = true) ∨ Gone s.log w)

/-- The submission and everything the driver accepted before it for the queue have completed. -/
def Done (s : State) (sub : Submission) : Prop :=
  ∀ x ∈ s.accepted, SameQueue x sub → x.serial ≤ sub.serial → s.Completed x.id

/-- The record of a submission. -/
structure Matches (v : Record) (sub : Submission) : Prop where
  device : v.device = sub.device
  queue : v.queue = sub.queue
  serial : v.serial = sub.serial
  cancelled : v.cancelled = false
  writes : ∀ w ∈ sub.wanted, ∃ w' ∈ v.writes, w'.range = w.range

structure Known (s : State) (sub : Submission) : Prop where
  tracked : ∀ w ∈ sub.wanted, Tracked s w ∧ w.device = sub.device
  record : ∀ v, s.record sub.id = some v → Matches v sub
  serial : sub.serial ≤ s.nextSerial
  id : sub.id < s.nextRecord
  device : sub.device ∈ s.devices

/-- A submission that the driver has not answered, or not accepted. -/
structure InFlight (s : State) (sub : Submission) : Prop where
  known : Known s sub
  registered : sub.id ∈ s.registry
  later : ∀ x ∈ s.accepted, SameQueue x sub → x.serial < sub.serial
  fence : ∀ v, s.record sub.id = some v → v.fence = sub.fence
  unsignaled : ∀ f ∈ sub.fence, s.fences sub.device f = .unsignaled

def Pc.inFlight : Pc → Option Submission
  | .submit sub => some sub
  | .reject sub => some sub
  | _ => none

/-- What a successful status or idle call covers. -/
def Selected (s : State) (device : Device) (selector : Selector) (sub : Submission) : Prop :=
  sub.device = device ∧
    match selector with
    | .fence f => ∃ m ∈ s.accepted, s.fences device f = .signaled (some m.id) ∧ SameQueue sub m ∧
        sub.serial ≤ m.serial
    | .queue q => sub.queue = q
    | .device => True

/-- The status or idle call was successful. -/
def Reached (s : State) (device : Device) : Selector → Prop
  | .fence f => ∃ id, s.fences device f = .signaled id
  | .queue q => ∀ x ∈ s.accepted, x.device = device → x.queue = q → s.Completed x.id
  | .device => ∀ x ∈ s.accepted, x.device = device → s.Completed x.id

/-- The call uses what it asks about. -/
def Pass.Asks (p : Pass) : Selector → Prop
  | .fence f => f ∈ p.fences
  | .queue q => p.idle = some (.queue q)
  | .device => p.idle = some .device

/-- A call in progress: what it covers is visible, or it has failed already, or it will come to
it. -/
structure Progress (s : State) (p : Pass) (listed : List Nat) (next : Submission → Prop) : Prop where
  device : p.device ∈ s.devices
  rest : p.rest ⊆ p.fences
  cover : ∀ sub ∈ p.cover, sub ∈ s.accepted ∧ (p.ok = false ∨ s.Shown sub ∨ sub.id ∈ listed ∨
    next sub ∨ ∃ f ∈ p.rest, Selected s p.device (.fence f) sub)

/-- Detached records are those of completed submissions. -/
def Finished (s : State) (device : Device) (rs : List Nat) : Prop :=
  ∀ r ∈ rs, ∃ sub ∈ s.accepted, sub.id = r ∧ sub.device = device ∧ Done s sub

/-- The ranges of a record that are not visible are still to come. -/
def Remaining (s : State) (r : Nat) (writes : List Write) : Prop :=
  ∃ sub ∈ s.accepted, sub.id = r ∧
    ∀ w ∈ sub.wanted, Visible s.log r w ∨ ∃ w' ∈ writes, w'.range = w.range

/-- What holds where a thread is. -/
def Local (s : State) : Pc → Prop
  | .idle => True
  | .publish device _ fence writes wanted =>
    (∀ w ∈ wanted, (Tracked s w ∧ w.device = device) ∧ ∃ w' ∈ writes, w'.range = w.range) ∧
      device ∈ s.devices ∧ ∀ f ∈ fence, s.fences device f = .unsignaled
  | .submit sub => InFlight s sub
  | .reject sub => InFlight s sub
  | .drop _ _ => True
  | .lock p =>
    Progress s p [] (fun sub => ∃ selector ∈ p.idle, Selected s p.device selector sub) ∧
      ∀ selector ∈ p.idle, Reached s p.device selector ∧ p.Asks selector
  | .scan p => Progress s p [] fun _ => False
  | .detach p selector =>
    Progress s p [] (Selected s p.device selector) ∧ Reached s p.device selector ∧ p.Asks selector
  | .work p rs => Progress s p rs (fun _ => False) ∧ Finished s p.device rs
  | .ranges p r writes rs =>
    Progress s p (r :: rs) (fun _ => False) ∧ Finished s p.device (r :: rs) ∧ Remaining s r writes
  | .invalidate p r w writes rs =>
    Progress s p (r :: rs) (fun _ => False) ∧ Finished s p.device (r :: rs) ∧ Remaining s r (w :: writes)
  | .failed p r rs => Progress s p (r :: rs) (fun _ => False) ∧ Finished s p.device (r :: rs)
  | .release p r rs =>
    Progress s p (r :: rs) (fun _ => False) ∧ Finished s p.device (r :: rs) ∧ Remaining s r []
  | .unlock p => Progress s p [] (fun _ => False) ∧ p.rest = []
  | .resetFences device _ => device ∈ s.devices
  | .forget device fences => device ∈ s.devices ∧ ∀ f ∈ fences, s.fences device f = .unsignaled
  | .returned ok cover => ok = true → ∀ sub ∈ cover, s.Shown sub
  | .forgetDestroyed _ _ => False
  | .destroyFence _ _ => False
  | .releaseDevice _ => False
  | .releaseRecords _ _ => False

/-- What holds of a call; a fence that it resets is not pending. -/
structure Position (s : State) (pc : Pc) : Prop where
  here : Local s pc
  settled : ∀ k ∈ pc.uses.resetting, (s.fences k.1 k.2).isPending = false

/-- The thread has the completion lock. -/
def Pc.locked : Pc → Bool
  | .scan _ => true
  | .detach _ _ => true
  | .work _ _ => true
  | .ranges _ _ _ _ => true
  | .invalidate _ _ _ _ _ => true
  | .failed _ _ _ => true
  | .release _ _ _ => true
  | .unlock _ => true
  | _ => false

/-- What was recorded and what was submitted. -/
structure Book (s : State) : Prop where
  tables : Tables s.memory
  recordings : ∀ r ∈ s.recordings, ∀ w ∈ r.writes, Tracked s w
  handles : (s.devices.map Device.handle).Nodup
  ids : (s.accepted.map Submission.id).Nodup
  ordered : s.accepted.Pairwise fun x y => SameQueue y x → y.serial < x.serial
  known : ∀ sub ∈ s.accepted, Known s sub

/-- What the fences stand for. -/
structure Fenced (s : State) : Prop where
  known : ∀ d f id, (s.fences d f).StandsFor id → ∃ sub ∈ s.accepted, sub.id = id
  signaled : ∀ sub ∈ s.accepted, ∀ d f, s.fences d f = .signaled (some sub.id) → Done s sub
  marker : ∀ sub ∈ s.accepted, ∀ v f, s.record sub.id = some v → v.fence = some f →
    (s.fences sub.device f).StandsFor sub.id ∨ Done s sub
  fence : ∀ sub ∈ s.accepted, ∀ d f, (s.fences d f).StandsFor sub.id →
    (d = sub.device ∧ sub.fence = some f) ∧ ∀ v, s.record sub.id = some v → v.fence = some f

/-- What is in the registry. -/
structure Listing (s : State) : Prop where
  unsettled : ∀ sub ∈ s.accepted, s.Shown sub ∨ s.Listed sub.id
  ordered : ∀ x ∈ s.accepted, x.Marked s.fences →
    ∀ y ∈ s.accepted, SameQueue y x → y.serial ≤ x.serial → y.id ∈ s.registry → s.Listed x.id
  submitted : ∀ r ∈ s.registry, (∃ sub ∈ s.accepted, sub.id = r) ∨
    ∃ pc ∈ s.threads, ∃ sub ∈ pc.inFlight, sub.id = r
  unready : ∀ r ∈ s.registry, ∀ v, s.record r = some v → v.ready = false

/-- The calls in progress. -/
structure Calls (s : State) : Prop where
  apart : ∀ (i j : Nat) (pc pc' : Pc), i ≠ j → s.threads[i]? = some pc → s.threads[j]? = some pc' →
    pc.uses.Apart pc'.uses
  lock : ∀ (i j : Nat) (pc pc' : Pc), s.threads[i]? = some pc → s.threads[j]? = some pc' →
    pc.locked = true → pc'.locked = true → i = j
  held : ∀ pc ∈ s.threads, pc.locked = true → s.completing = true
  position : ∀ pc ∈ s.threads, Position s pc

structure Sound (s : State) : Prop where
  records : Inv s
  book : Book s
  fenced : Fenced s
  listing : Listing s
  calls : Calls s

end Readback
