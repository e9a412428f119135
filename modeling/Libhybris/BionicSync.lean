import Libhybris.Transition
import Mathlib.Algebra.Group.Nat.Defs

/-!
# Android synchronization storage over host objects

`common/bionic_sync.c` and `common/bionic_cond.c` on a 64-bit host.  A word of Android
storage is a number: up to `0xFFFF` it is an initializer, in the `HYBRIS_SHM_MASK` range a
shared-memory handle, anything else the address of a heap object.  Hooks are cut at the
sections of `static_sync_guard` and at their host calls, so that hooks of different threads
interleave between them.  A host object is named by its heap address or by its handle.

What the host functions compute, the NULL checks on the storage argument and the mutex type
chosen by an initializer are left out; the shared segment is taken as attached and mapped at
one address, so that a handle it gave out always translates to the same object.
-/
namespace BionicSync

inductive Kind where
  | mutex
  | cond
  | rwlock
deriving DecidableEq, Repr

structure Storage where
  kind : Kind
  address : Nat
deriving DecidableEq, Repr

/-- `ANDROID_TOP_ADDR_VALUE_MUTEX`, `_COND` and `_RWLOCK`. -/
def androidTopAddrValue : Kind → Nat
  | .mutex => 0xFFFF
  | .cond => 0xFFFF
  | .rwlock => 0xFFFF

@[simp] theorem androidTopAddrValue_eq (k : Kind) : androidTopAddrValue k = 0xFFFF := by
  cases k <;> rfl

/-- The size of a pointer; the hooks below are those of the larger one. -/
inductive WordSize where
  | w32
  | w64
deriving DecidableEq, Repr

def hybrisShmMask (w : WordSize := .w64) : Nat :=
  match w with
  | .w32 => 0xFF000000
  | .w64 => 0xFFFFFFFFFF000000

def hybrisShmMaskTop (w : WordSize := .w64) : Nat :=
  match w with
  | .w32 => 2 ^ 32 - 1 - 15
  | .w64 => 2 ^ 64 - 1 - 15

def isPointerInShm (value : Nat) : Bool :=
  hybrisShmMask ≤ value && value ≤ hybrisShmMaskTop

def checkAndroidSharedMutex (value : Nat) : Bool :=
  value ≤ androidTopAddrValue .mutex && value &&& 0x2000 ≠ 0

def checkAndroidSharedCond (value : Nat) (w : WordSize := .w64) : Bool :=
  (value ≤ androidTopAddrValue .cond && value % 2 = 1) || hybrisShmMaskTop w < value

/-- `__android_pthread_cond_pulse` on the `int` in the low half of the word.  Both branches
keep bit 0, so the masking with the flags adds or subtracts the increment and no more. -/
def pulseWord (word : Nat) : Nat :=
  let low := word % 2 ^ 32
  let negative := 2 ^ 31 ≤ low
  word / 2 ^ 32 * 2 ^ 32 +
    (if negative ∧ low < 2 ^ 32 - 12 then low + 2 else low + 2 ^ 32 - 2) % 2 ^ 32

/-- The hooks on one storage that are neither `init` nor `destroy`. -/
inductive Hook where
  | mutexLock
  | mutexTrylock
  | mutexUnlock
  | mutexLockTimeoutNp
  | mutexTimedlock
  | mutexTimedlockMonotonicNp
  | condBroadcast
  | condSignal
  | rwlockRdlock
  | rwlockTryrdlock
  | rwlockTimedrdlock
  | rwlockWrlock
  | rwlockTrywrlock
  | rwlockTimedwrlock
  | rwlockTimedrdlockMonotonicNp
  | rwlockTimedwrlockMonotonicNp
  | rwlockUnlock
deriving DecidableEq, Repr

def Hook.kind : Hook → Kind
  | .mutexLock | .mutexTrylock | .mutexUnlock | .mutexLockTimeoutNp | .mutexTimedlock
  | .mutexTimedlockMonotonicNp => .mutex
  | .condBroadcast | .condSignal => .cond
  | _ => .rwlock

/-- What a hook does after its first look at the storage. -/
inductive Verdict where
  | skip
  | pulse
  | static
  | pass
deriving DecidableEq, Repr

def lockVerdict (value : Nat) : Verdict :=
  if checkAndroidSharedMutex value then .skip
  else if value ≤ androidTopAddrValue .mutex then .static
  else .pass

def unlockVerdict (value : Nat) : Verdict :=
  if checkAndroidSharedMutex value then .skip
  else if value ≤ androidTopAddrValue .mutex then .skip
  else .pass

def pulseVerdict (value : Nat) : Verdict :=
  if checkAndroidSharedCond value then .pulse
  else if value ≤ androidTopAddrValue .cond then .static
  else .pass

def rwlockUnlockVerdict (value : Nat) : Verdict :=
  if value ≤ androidTopAddrValue .rwlock then .skip else .pass

/-- The rwlock hooks other than unlock go through `hybris_set_realrwlock`, which does not
read the storage before `hybris_get_static_rwlock_value` does. -/
def Hook.verdict : Hook → Nat → Verdict
  | .mutexUnlock => unlockVerdict
  | .mutexLock | .mutexTrylock | .mutexLockTimeoutNp | .mutexTimedlock
  | .mutexTimedlockMonotonicNp => lockVerdict
  | .condBroadcast | .condSignal => pulseVerdict
  | .rwlockUnlock => rwlockUnlockVerdict
  | _ => fun _ => .static

def etimedout : Int := 110

def ebusy : Int := 16

def enomem : Int := 12

/-- What a hook returns for a host result. -/
def Hook.result : Hook → Int → Int
  | .mutexLockTimeoutNp, error => if error = etimedout then ebusy else error
  | _, error => error

/-- Where a thread stands inside a hook.  `idle` holds the last return value. -/
inductive Pc where
  | idle (ret : Int)
  | static (hook : Hook) (x : Storage)
  | pulse (hook : Hook) (x : Storage)
  | call (hook : Hook) (x : Storage) (object : Nat)
  | waitRead (c m : Storage) (cvalue : Nat)
  | waitCond (c m : Storage) (cvalue mvalue : Nat)
  | waitMutex (c m : Storage) (realcond mvalue : Nat)
  | waitCall (c m : Storage) (realcond realmutex : Nat)
  | initCall (x : Storage) (object : Nat)
  | destroyCall (x : Storage) (object : Nat)
  | destroyFree (x : Storage) (object : Nat) (ret : Int)
  | destroyClear (x : Storage) (object : Nat) (ret : Int)
deriving DecidableEq, Repr

/-- The storages of the hook a thread is in. -/
def Pc.storages : Pc → List Storage
  | .idle _ => []
  | .static _ x | .pulse _ x | .call _ x _ => [x]
  | .waitRead c m _ | .waitCond c m _ _ | .waitMutex c m _ _ | .waitCall c m _ _ => [c, m]
  | .initCall x _ | .destroyCall x _ | .destroyFree x _ _ | .destroyClear x _ _ => [x]

/-- The thread is in an `init` or a `destroy`. -/
def Pc.exclusive : Pc → Bool
  | .initCall _ _ | .destroyCall _ _ | .destroyFree _ _ _ | .destroyClear _ _ _ => true
  | _ => false

inductive Fault where
  /-- A host function got something that is no allocated, undestroyed object. -/
  | wild (x : Storage) (object : Nat)
  /-- A host function got another object than the one before it. -/
  | rebound (x : Storage) (before object : Nat)
  /-- An object was freed whose host destroy had not succeeded. -/
  | freed (x : Storage) (object : Nat)
  /-- A storage was cleared whose object's host destroy had not succeeded. -/
  | lost (x : Storage) (object : Nat)
deriving DecidableEq, Repr

/-- `live` are the allocated objects and `ended` those of them whose host destroy succeeded;
`bound` is the object host functions have been given for a storage since its last init or
successful destroy. -/
structure State where
  word : Storage → Nat
  pc : Nat → Pc
  live : List Nat
  ended : List Nat
  bound : Storage → Option Nat
  faults : List Fault

def put {α β : Type} [DecidableEq α] (f : α → β) (a : α) (b : β) : α → β :=
  fun x => if x = a then b else f x

def State.goto (s : State) (t : Nat) (pc : Pc) : State := { s with pc := put s.pc t pc }

def State.Usable (s : State) (object : Nat) : Prop := object ∈ s.live ∧ object ∉ s.ended

instance (s : State) (object : Nat) : Decidable (s.Usable object) :=
  inferInstanceAs (Decidable (_ ∧ _))

/-- An address `malloc` may return. -/
def State.MallocOk (s : State) (p : Nat) : Prop :=
  0xFFFF < p ∧ p < hybrisShmMask ∧ p ∉ s.live

instance (s : State) (p : Nat) : Decidable (s.MallocOk p) :=
  inferInstanceAs (Decidable (_ ∧ _ ∧ _))

/-- What the two allocators may return.  `hybris_shm_alloc` keeps 24 bits of its offset, so
that a handle can come back once the segment has grown past them. -/
def State.AllocOk (s : State) (p : Nat) : Bool → Prop
  | true => isPointerInShm p = true
  | false => s.MallocOk p

instance (s : State) (p : Nat) : (pshared : Bool) → Decidable (s.AllocOk p pshared)
  | true => inferInstanceAs (Decidable (_ = _))
  | false => inferInstanceAs (Decidable (s.MallocOk p))

/-- A host function is called with `object` for the storage `x`. -/
def State.host (s : State) (x : Storage) (object : Nat) : State :=
  { s with
    bound := put s.bound x (some object)
    faults :=
      (if s.Usable object then [] else [.wild x object]) ++
      (match s.bound x with
        | some before => if before = object then [] else [.rebound x before object]
        | none => []) ++ s.faults }

/-- A new heap object is stored in place of an initializer. -/
def State.publish (s : State) (x : Storage) (p : Nat) : State :=
  { s with word := put s.word x p, live := p :: s.live }

/-- `hybris_get_static_mutex`, `_cond` and `_rwlock_value`, one section of the guard, with
the address `malloc` returns if it is called.  A failed allocation aborts the process. -/
def getStatic (s : State) (x : Storage) (p : Nat) : Option (State × Nat) :=
  if s.word x ≤ androidTopAddrValue x.kind then
    if s.MallocOk p then some (s.publish x p, p) else none
  else some (s, s.word x)

/-- The pointer test at the head of the three destroy hooks. -/
def unusedInitializer (k : Kind) (value : Nat) : Bool :=
  match k with
  | .mutex => value ≤ androidTopAddrValue .mutex && !checkAndroidSharedMutex value
  | .cond => value ≤ androidTopAddrValue .cond && !checkAndroidSharedCond value
  | .rwlock => value ≤ androidTopAddrValue .rwlock

/-- Where a destroy hook goes after the host's destroy: a mutex is kept on an error, a
condition and a rwlock are freed whatever the host said, and a rwlock is not cleared. -/
def afterDestroy (x : Storage) (object : Nat) (ret : Int) : Pc :=
  match x.kind with
  | .mutex =>
    if ret ≠ 0 then .idle ret
    else if isPointerInShm object then .destroyClear x object ret
    else .destroyFree x object ret
  | .cond =>
    if isPointerInShm object then .destroyClear x object ret
    else .destroyFree x object ret
  | .rwlock =>
    if isPointerInShm object then .idle ret
    else .destroyFree x object ret

def afterFree (x : Storage) (object : Nat) (ret : Int) : Pc :=
  match x.kind with
  | .mutex | .cond => .destroyClear x object ret
  | .rwlock => .idle ret

inductive Action where
  | hook (t : Nat) (hook : Hook) (x : Storage)
  | static (t p : Nat)
  | pulse (t : Nat)
  | call (t : Nat) (ret : Int)
  | clockFailed (t : Nat) (errno : Int)
  | wait (t : Nat) (c m : Storage)
  | waitRead (t : Nat)
  | waitCond (t p : Nat)
  | waitMutex (t p : Nat)
  | waitCall (t : Nat) (ret : Int)
  | init (t : Nat) (x : Storage) (pshared : Bool) (object : Option Nat)
  | initCall (t : Nat) (ret : Int)
  | destroy (t : Nat) (x : Storage)
  | destroyCall (t : Nat) (ret : Int)
  | destroyFree (t : Nat)
  | destroyClear (t : Nat)
deriving DecidableEq, Repr

def Pc.isIdle : Pc → Bool
  | .idle _ => true
  | _ => false

section
variable (s : State)

/-- The first section of a hook: read the storage and classify what it holds. -/
def enterHook (t : Nat) (hook : Hook) (x : Storage) : State :=
  match hook.verdict (s.word x) with
  | .skip => s.goto t (.idle 0)
  | .pulse => s.goto t (.pulse hook x)
  | .static => s.goto t (.static hook x)
  | .pass => s.goto t (.call hook x (s.word x))

def runStatic (t p : Nat) : Option State :=
  match s.pc t with
  | .static hook x => (getStatic s x p).map fun r => r.1.goto t (.call hook x r.2)
  | _ => none

def runPulse (t : Nat) : Option State :=
  match s.pc t with
  | .pulse _ x => some ({ s with word := put s.word x (pulseWord (s.word x)) }.goto t (.idle 0))
  | _ => none

def runCall (t : Nat) (ret : Int) : Option State :=
  match s.pc t with
  | .call hook x object => some ((s.host x object).goto t (.idle (hook.result ret)))
  | _ => none

/-- Only `pthread_mutex_lock_timeout_np` reads a clock between the publication and the host
call. -/
def runClockFailed (t : Nat) (errno : Int) : Option State :=
  match s.pc t with
  | .call .mutexLockTimeoutNp _ _ => some (s.goto t (.idle errno))
  | _ => none

/-- The second read of the wait hooks, and their test for values shared with Android. -/
def runWaitRead (t : Nat) : Option State :=
  match s.pc t with
  | .waitRead c m cvalue =>
    if checkAndroidSharedCond cvalue || checkAndroidSharedMutex (s.word m) then
      some (s.goto t (.idle 0))
    else some (s.goto t (.waitCond c m cvalue (s.word m)))
  | _ => none

def runWaitCond (t p : Nat) : Option State :=
  match s.pc t with
  | .waitCond c m cvalue mvalue =>
    if cvalue ≤ androidTopAddrValue .cond then
      (getStatic s c p).map fun r => r.1.goto t (.waitMutex c m r.2 mvalue)
    else some (s.goto t (.waitMutex c m cvalue mvalue))
  | _ => none

def runWaitMutex (t p : Nat) : Option State :=
  match s.pc t with
  | .waitMutex c m realcond mvalue =>
    if mvalue ≤ androidTopAddrValue .mutex then
      (getStatic s m p).map fun r => r.1.goto t (.waitCall c m realcond r.2)
    else some (s.goto t (.waitCall c m realcond mvalue))
  | _ => none

def runWaitCall (t : Nat) (ret : Int) : Option State :=
  match s.pc t with
  | .waitCall c m realcond realmutex =>
    some (((s.host c realcond).host m realmutex).goto t (.idle ret))
  | _ => none

/-- The init hooks store what the allocation gave, a null pointer included. -/
def runInit (t : Nat) (x : Storage) (pshared : Bool) : Option Nat → Option State
  | none =>
    some ({ s with word := put s.word x 0, bound := put s.bound x none }.goto t (.idle enomem))
  | some p =>
    if s.AllocOk p pshared then
      some ({ s with
        word := put s.word x p
        live := p :: s.live
        ended := s.ended.filter (· ≠ p)
        bound := put s.bound x none }.goto t (.initCall x p))
    else none

def runInitCall (t : Nat) (ret : Int) : Option State :=
  match s.pc t with
  | .initCall x object => some ((s.host x object).goto t (.idle ret))
  | _ => none

def runDestroy (t : Nat) (x : Storage) : State :=
  if unusedInitializer x.kind (s.word x) then
    { s with word := put s.word x 0 }.goto t (.idle 0)
  else s.goto t (.destroyCall x (s.word x))

/-- The host's destroy ends the object's life when it returns zero. -/
def State.endObject (x : Storage) (object : Nat) (ret : Int) : State :=
  if ret = 0 then { s with ended := object :: s.ended, bound := put s.bound x none } else s

def runDestroyCall (t : Nat) (ret : Int) : Option State :=
  match s.pc t with
  | .destroyCall x object =>
    some (((s.host x object).endObject x object ret).goto t (afterDestroy x object ret))
  | _ => none

def runDestroyFree (t : Nat) : Option State :=
  match s.pc t with
  | .destroyFree x object ret =>
    some ({ s with
      live := s.live.filter (· ≠ object)
      ended := s.ended.filter (· ≠ object)
      faults := (if object ∈ s.ended then [] else [Fault.freed x object]) ++ s.faults }.goto t
        (afterFree x object ret))
  | _ => none

def runDestroyClear (t : Nat) : Option State :=
  match s.pc t with
  | .destroyClear x object ret =>
    some ({ s with
      word := put s.word x 0
      faults := (if isPointerInShm object ∧ object ∉ s.ended then [Fault.lost x object] else []) ++
        s.faults }.goto t (.idle ret))
  | _ => none

def step : Action → Option State
  | .hook t hook x =>
    if (s.pc t).isIdle ∧ x.kind = hook.kind then some (enterHook s t hook x) else none
  | .static t p => runStatic s t p
  | .pulse t => runPulse s t
  | .call t ret => runCall s t ret
  | .clockFailed t errno => runClockFailed s t errno
  | .wait t c m =>
    if (s.pc t).isIdle ∧ c.kind = .cond ∧ m.kind = .mutex then
      some (s.goto t (.waitRead c m (s.word c)))
    else none
  | .waitRead t => runWaitRead s t
  | .waitCond t p => runWaitCond s t p
  | .waitMutex t p => runWaitMutex s t p
  | .waitCall t ret => runWaitCall s t ret
  | .init t x pshared object => if (s.pc t).isIdle then runInit s t x pshared object else none
  | .initCall t ret => runInitCall s t ret
  | .destroy t x => if (s.pc t).isIdle then some (runDestroy s t x) else none
  | .destroyCall t ret => runDestroyCall s t ret
  | .destroyFree t => runDestroyFree s t
  | .destroyClear t => runDestroyClear s t

end

/-- Every storage holds the initializer it was defined with and no hook has run. -/
def start (word : Storage → Nat) : State where
  word := word
  pc := fun _ => .idle 0
  live := []
  ended := []
  bound := fun _ => none
  faults := []

end BionicSync
