import Libhybris.BionicSync

/-!
# Conditions shared with Android

The use of `hybris_check_android_shared_cond` and the compare-and-swap loop of
`__android_pthread_cond_pulse` in `common/bionic_cond.c`, for both word sizes. The counter of the
condition is a 32-bit integer; in a 64-bit word it is followed by zero bytes, so that a negative
counter is a small address there and not, as the check expects, one above `HYBRIS_SHM_MASK_TOP`.
-/
namespace BionicCond

open BionicSync Transition

/-- `hybris_read_sync_value` on the storage of a counter. -/
def readSyncValue (counter : Int) : Nat := (counter % 0x100000000).toNat

/-- What a hook takes the storage for. -/
inductive Reading where
  | shared
  | initializer
  | handle
  | pointer
deriving DecidableEq, Repr

/-- The tests of the signal and broadcast hooks. -/
def classify (w : WordSize) (value : Nat) : Reading :=
  if checkAndroidSharedCond value w then .shared
  else if value ≤ androidTopAddrValue .cond then .initializer
  else if hybrisShmMask w ≤ value ∧ value ≤ hybrisShmMaskTop w then .handle
  else .pointer

/-- The new counter: bit 0 is replaced by the flags. -/
def nextCounter (counter flags : Int) : Int :=
  let moved := if counter < -12 then counter + 2 else counter - 2
  moved - moved % 2 + flags

/-- Where a thread stands inside a hook. -/
inductive Pc where
  | idle
  | pulse
  | loop (flags : Int)
  | swap (flags old : Int)
  /-- the storage was not taken for a shared condition -/
  | astray (reading : Reading)
deriving DecidableEq, Repr

structure State where
  counter : Int
  pc : Nat → Pc

inductive Action where
  | signal (t : Nat)
  | broadcast (t : Nat)
  | flags (t : Nat)
  | load (t : Nat)
  | swap (t : Nat)
deriving DecidableEq, Repr

def State.goto (s : State) (t : Nat) (pc : Pc) : State := { s with pc := put s.pc t pc }

/-- The first look at the storage. -/
def enter (w : WordSize) (s : State) (t : Nat) : Option State :=
  match s.pc t with
  | .idle =>
    match classify w (readSyncValue s.counter) with
    | .shared => some (s.goto t .pulse)
    | reading => some (s.goto t (.astray reading))
  | _ => none

def step (w : WordSize) (s : State) : Action → Option State
  | .signal t => enter w s t
  | .broadcast t => enter w s t
  | .flags t =>
    match s.pc t with
    | .pulse => some (s.goto t (.loop (s.counter % 2)))
    | _ => none
  | .load t =>
    match s.pc t with
    | .loop flags => some (s.goto t (.swap flags s.counter))
    | _ => none
  | .swap t =>
    match s.pc t with
    | .swap flags old =>
      if s.counter = old then some ({ s with counter := nextCounter old flags }.goto t .idle)
      else some (s.goto t (.loop flags))
    | _ => none

/-- The shared static initializer, and no thread in a hook. -/
def start : State := ⟨1, fun _ => .idle⟩

/-- The condition is recognised: no thread has taken it for anything else, a hook that starts now
will not either, the shared bit is set, and the swap that comes next changes the counter. -/
structure Recognised (w : WordSize) (s : State) : Prop where
  threads : ∀ t reading, s.pc t ≠ .astray reading
  next : classify w (readSyncValue s.counter) = .shared
  flagged : s.counter % 2 = 1
  changes : ∀ t flags, s.pc t = .swap flags s.counter → nextCounter s.counter flags ≠ s.counter

/-- Where the counter moves: from the initializer down to the turning point and back up. -/
def Walk (counter : Int) : Prop := counter % 2 = 1 ∧ -13 ≤ counter ∧ counter ≤ 1

variable {counter : Int}

theorem Walk.next (h : Walk counter) : Walk (nextCounter counter 1) := by
  obtain ⟨hodd, hlow, hhigh⟩ := h
  simp only [Walk, nextCounter]
  split <;> omega

theorem Walk.shared (h : Walk counter) : classify .w32 (readSyncValue counter) = .shared := by
  obtain ⟨hodd, hlow, hhigh⟩ := h
  have hword : readSyncValue counter = 1 ∨ hybrisShmMaskTop .w32 < readSyncValue counter := by
    simp only [readSyncValue, hybrisShmMaskTop]
    omega
  have hcheck : checkAndroidSharedCond (readSyncValue counter) .w32 = true := by
    rcases hword with hone | hlarge
    · rw [hone]
      decide
    · simp [checkAndroidSharedCond, hlarge]
  rw [classify, if_pos hcheck]

/-- The invariant of 32-bit runs. -/
structure Inv (s : State) : Prop where
  walk : Walk s.counter
  threads : ∀ t, match s.pc t with
    | .idle | .pulse => True
    | .loop flags => flags = 1
    | .swap flags _ => flags = 1
    | .astray _ => False

variable {s : State}

theorem Inv.goto (h : Inv s) (t : Nat) {pc : Pc} (hwalk : Walk counter) (hpc : match pc with
      | .idle | .pulse => True
      | .loop flags => flags = 1
      | .swap flags _ => flags = 1
      | .astray _ => False) : Inv (({ s with counter := counter } : State).goto t pc) := by
  refine ⟨hwalk, fun u => ?_⟩
  by_cases hu : u = t
  · simpa [State.goto, put, hu] using hpc
  · simpa [State.goto, put, hu] using h.threads u

theorem Inv.enter {s' : State} (h : Inv s) {t : Nat} (hstep : enter .w32 s t = some s') : Inv s' := by
  rw [BionicCond.enter, h.walk.shared] at hstep
  split at hstep
  · cases hstep
    exact h.goto t h.walk trivial
  · cases hstep

theorem Inv.step {s' : State} {a : Action} (h : Inv s) (hstep : step .w32 s a = some s') : Inv s' := by
  cases a with
  | signal t => exact h.enter hstep
  | broadcast t => exact h.enter hstep
  | flags t =>
    simp only [BionicCond.step] at hstep
    split at hstep
    · cases hstep
      exact h.goto t h.walk h.walk.1
    · cases hstep
  | load t =>
    have ht := h.threads t
    simp only [BionicCond.step] at hstep
    split at hstep
    · rename_i flags hpc
      rw [hpc] at ht
      cases hstep
      exact h.goto t h.walk ht
    · cases hstep
  | swap t =>
    have ht := h.threads t
    simp only [BionicCond.step] at hstep
    split at hstep
    · rename_i flags old hpc
      rw [hpc] at ht
      obtain rfl : flags = 1 := ht
      split at hstep
      · rename_i heq
        cases hstep
        exact h.goto t (heq ▸ h.walk).next trivial
      · cases hstep
        exact h.goto t h.walk rfl
    · cases hstep

theorem Inv.recognised (h : Inv s) : Recognised .w32 s := by
  refine ⟨fun t reading hpc => ?_, h.walk.shared, h.walk.1, fun t flags hpc => ?_⟩
  · have ht := h.threads t
    rw [hpc] at ht
    exact ht
  · have ht := h.threads t
    rw [hpc] at ht
    simp only [nextCounter]
    split <;> omega

/-- In a 64-bit word the first pulse hides the condition: the next hook takes the counter for a
pointer. -/
theorem pulsed_condition_lost :
    ((run (step .w64) start [.signal 0, .flags 0, .load 0, .swap 0, .broadcast 1]).map fun s =>
      (s.counter, s.pc 1)) = some (-1, .astray .pointer) := by
  decide +kernel

/-- Pulses keep the condition recognisable in every run exactly if words have 32 bits. -/
theorem pulses_recognised_iff (w : WordSize) :
    (∀ actions s, run (step w) start actions = some s → Recognised w s) ↔ w = .w32 := by
  constructor
  · intro h
    cases w with
    | w32 => rfl
    | w64 =>
      -- after one pulse the counter is -1
      obtain ⟨s, hs, hcounter⟩ : ∃ s, run (step .w64) start [.signal 0, .flags 0, .load 0,
          .swap 0] = some s ∧ s.counter = -1 := ⟨_, rfl, by decide +kernel⟩
      have hnext := (h _ s hs).next
      rw [hcounter] at hnext
      exact absurd hnext (by decide +kernel)
  · rintro rfl actions s hrun
    exact (run_invariant (fun _ _ _ h ht => Inv.step h ht) actions start s
      ⟨⟨rfl, by decide, by decide⟩, fun _ => trivial⟩ hrun).recognised

end BionicCond
