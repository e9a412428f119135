import Libhybris.Transition
import Mathlib.Data.List.Count
import Mathlib.Data.List.Perm.Basic

/-!
# References of outstanding thread-local destructors

`common/dso_handle_counters.cpp` and the `__cxa_thread_atexit` hook of `common/hooks.c`. The first
outstanding destructor of a handle opens its library once more, the last one closes it, after it has
left the lock. Calls are cut at the host's registration, at the lock and before `dlclose`. What
`dladdr` finds depends on the handle alone, and a call of `dlopen` or `dlclose` for a loaded library
takes or returns one reference. Each outstanding destructor has an allocation of its own, so that
the counter does not overflow.
-/
namespace DsoHandles

open Transition List

/-- What a thread is doing, innermost call first. -/
inductive Frame where
  /-- the host has the destructor; the handle's counter is next -/
  | registering (handle : Nat)
  /-- `__dtor_wrapper` runs the destructor -/
  | running (handle : Nat)
  /-- the last destructor is done; the library is to be closed -/
  | closing (handle : Nat)
deriving DecidableEq, Repr

structure State where
  /-- `g_dso_handle_counters` -/
  counters : Nat → Option Nat
  /-- the registered destructors that have not started, by thread, newest first -/
  waiting : List (Nat × Nat)
  frames : List (Nat × Frame)
  /-- the references taken and returned -/
  opened : List Nat
  closed : List Nat

def start : State := ⟨fun _ => none, [], [], [], []⟩

inductive Action where
  /-- the hook up to the host's registration, and whether that succeeds -/
  | register (t handle : Nat) (ok : Bool)
  | add (t : Nat)
  | run (t : Nat)
  | remove (t : Nat)
  | close (t : Nat)
deriving DecidableEq, Repr

def State.top (s : State) (t : Nat) : Option Frame :=
  (s.frames.find? fun f => f.1 = t).map Prod.snd

/-- The table with another entry for a handle. -/
def State.put (s : State) (handle : Nat) (entry : Option Nat) : State :=
  { s with counters := fun x => if x = handle then entry else s.counters x }

/-- `__hybris_add_thread_local_dtor`. -/
def addThreadLocalDtor (dladdr : Nat → Bool) (s : State) (handle : Nat) : State :=
  if handle = 0 then s
  else
    match s.counters handle with
    | some n => s.put handle (some (n + 1))
    | none =>
      if dladdr handle then
        { s.put handle (some 1) with opened := handle :: s.opened }
      else s

/-- The locked part of `__hybris_remove_thread_local_dtor`, and whether the library is to be
closed. -/
def removeThreadLocalDtor (s : State) (handle : Nat) : State × Bool :=
  if handle = 0 then (s, false)
  else
    match s.counters handle with
    | none => (s, false)
    | some n =>
      if n - 1 = 0 then (s.put handle none, true)
      else (s.put handle (some (n - 1)), false)

def State.leave (s : State) (t : Nat) (f : Frame) : State := { s with frames := s.frames.erase (t, f) }

def step (dladdr : Nat → Bool) (s : State) : Action → Option State
  | .register t handle ok =>
    match s.top t with
    | some (.registering _) => none
    | _ => some (if ok then { s with frames := (t, .registering handle) :: s.frames } else s)
  | .add t =>
    match s.top t with
    | some (.registering handle) =>
      let s := addThreadLocalDtor dladdr (s.leave t (.registering handle)) handle
      some { s with waiting := (t, handle) :: s.waiting }
    | _ => none
  | .run t =>
    -- a thread that ends runs its newest destructor first
    match s.top t, s.waiting.find? fun d => d.1 = t with
    | none, some d =>
      some { s with waiting := s.waiting.erase d, frames := (t, .running d.2) :: s.frames }
    | _, _ => none
  | .remove t =>
    match s.top t with
    | some (.running handle) =>
      let (s, last) := removeThreadLocalDtor (s.leave t (.running handle)) handle
      some (if last then { s with frames := (t, .closing handle) :: s.frames } else s)
    | _ => none
  | .close t =>
    match s.top t with
    | some (.closing handle) => some { s.leave t (.closing handle) with closed := handle :: s.closed }
    | _ => none

section
variable (s : State) (handle : Nat)

/-- The destructors of a handle that run. -/
def State.running : Nat := s.frames.countP fun f => f.2 == .running handle

/-- The destructors of a handle that are registered and have not finished. -/
def State.outstanding : Nat :=
  s.waiting.countP (fun d => d.2 == handle) + s.running handle

/-- The removals of a handle between the lock and `dlclose`. -/
def State.closing : Nat := s.frames.countP fun f => f.2 == .closing handle

/-- The references held for a handle. -/
def State.refs : Nat := s.opened.count handle - s.closed.count handle

end

def Found (dladdr : Nat → Bool) (handle : Nat) : Prop := handle ≠ 0 ∧ dladdr handle = true

instance (dladdr : Nat → Bool) (handle : Nat) : Decidable (Found dladdr handle) :=
  inferInstanceAs (Decidable (_ ∧ _))

/-- The library of a handle stays loaded as long as it is needed, and no longer. -/
structure Held (s : State) (handle : Nat) : Prop where
  loaded : 0 < s.outstanding handle → 1 ≤ s.refs handle
  bounded : s.refs handle ≤ 1 + s.closing handle
  released : s.outstanding handle = 0 → s.closing handle = 0 → s.refs handle = 0
  once : s.closed.count handle + s.refs handle = s.opened.count handle

/-- The counter counts, and what was opened is closed, about to be closed, or counted. -/
structure Inv (dladdr : Nat → Bool) (s : State) : Prop where
  counters : ∀ h, s.counters h =
    if Found dladdr h ∧ 0 < s.outstanding h then some (s.outstanding h) else none
  balance : ∀ h, s.opened.count h =
    s.closed.count h + s.closing h + if Found dladdr h ∧ 0 < s.outstanding h then 1 else 0
  known : ∀ h, ¬Found dladdr h → s.opened.count h = 0

variable {dladdr : Nat → Bool} {s s' : State} {t handle : Nat}

theorem Inv.held (h : Inv dladdr s) (hfound : Found dladdr handle) : Held s handle := by
  have hbalance := h.balance handle
  simp only [hfound, true_and] at hbalance
  constructor <;> simp only [State.refs] <;> split at hbalance <;> omega

theorem mem_of_top {f : Frame} (h : s.top t = some f) : (t, f) ∈ s.frames := by
  obtain ⟨⟨u, g⟩, hfind, rfl⟩ := Option.map_eq_some_iff.mp h
  have hu : u = t := by simpa using find?_some hfind
  exact hu ▸ mem_of_find?_eq_some hfind

theorem countP_erase_add {α : Type} [BEq α] [LawfulBEq α] {l : List α} {a : α} (h : a ∈ l)
    (p : α → Bool) : l.countP p = (l.erase a).countP p + if p a then 1 else 0 := by
  rw [(perm_cons_erase h).countP_eq, countP_cons]

theorem Inv.register {ok : Bool} (h : Inv dladdr s)
    (hstep : step dladdr s (.register t handle ok) = some s') : Inv dladdr s' := by
  simp only [step] at hstep
  split at hstep
  · cases hstep
  · cases hstep
    cases ok with
    | false => exact h
    | true => exact ⟨fun x => h.counters x, fun x => h.balance x, h.known⟩

/-- The frames of a thread that leaves its innermost call. -/
theorem leave_counts {f : Frame} (h : s.top t = some f) (x : Nat) :
    s.running x = (s.leave t f).running x + (if f == .running x then 1 else 0) ∧
      s.closing x = (s.leave t f).closing x + if f == .closing x then 1 else 0 :=
  ⟨countP_erase_add (mem_of_top h) _, countP_erase_add (mem_of_top h) _⟩

@[simp] theorem addThreadLocalDtor_rest (handle : Nat) :
    (addThreadLocalDtor dladdr s handle).waiting = s.waiting ∧
      (addThreadLocalDtor dladdr s handle).frames = s.frames ∧
        (addThreadLocalDtor dladdr s handle).closed = s.closed := by
  grind [addThreadLocalDtor, State.put]

theorem addThreadLocalDtor_spec {n : Nat}
    (hn : s.counters handle = if Found dladdr handle ∧ 0 < n then some n else none) (x : Nat) :
    (addThreadLocalDtor dladdr s handle).counters x =
        (if Found dladdr handle ∧ handle = x then some (n + 1) else s.counters x) ∧
      (addThreadLocalDtor dladdr s handle).opened.count x =
        s.opened.count x + if Found dladdr handle ∧ handle = x ∧ n = 0 then 1 else 0 := by
  by_cases hfound : Found dladdr handle
  · grind [addThreadLocalDtor, Found, State.put]
  · grind [addThreadLocalDtor, Found]

@[simp] theorem removeThreadLocalDtor_rest (handle : Nat) :
    (removeThreadLocalDtor s handle).1.waiting = s.waiting ∧
      (removeThreadLocalDtor s handle).1.frames = s.frames ∧
      (removeThreadLocalDtor s handle).1.opened = s.opened ∧
        (removeThreadLocalDtor s handle).1.closed = s.closed := by
  grind [removeThreadLocalDtor, State.put]

theorem removeThreadLocalDtor_spec {n : Nat}
    (hn : s.counters handle = if Found dladdr handle then some (n + 1) else none) (x : Nat) :
    (removeThreadLocalDtor s handle).1.counters x =
        (if Found dladdr handle ∧ handle = x then (if 0 < n then some n else none) else s.counters x) ∧
      ((removeThreadLocalDtor s handle).2 = true ↔ Found dladdr handle ∧ n = 0) := by
  grind [removeThreadLocalDtor, Found, State.put]

section
variable (h : Inv dladdr s)
include h

theorem Inv.add (hstep : step dladdr s (.add t) = some s') : Inv dladdr s' := by
  simp only [step] at hstep
  split at hstep
  case h_2 => cases hstep
  case h_1 handle htop =>
    have hspec := addThreadLocalDtor_spec (s := s.leave t (.registering handle)) (h.counters handle)
    have hcounts := leave_counts htop
    have hout : ∀ x, s'.outstanding x = s.outstanding x + if handle = x then 1 else 0 := fun x => by
      cases hstep
      simp only [State.outstanding, (hcounts x).1]
      simp [State.running, State.leave, countP_cons]
      omega
    have hclosing : ∀ x, s'.closing x = s.closing x := fun x => by
      cases hstep
      rw [(hcounts x).2]
      simp [State.closing]
    refine ⟨fun x => ?_, fun x => ?_, fun x hunknown => ?_⟩
    · have hx := h.counters x
      rw [hout, ← Option.some.inj hstep, (hspec x).1]
      clear * - hx
      simp only [State.leave]
      grind
    · have hx := h.balance x
      have hclosed : s'.closed = s.closed := by
        cases hstep
        simp [State.leave]
      rw [hout, hclosing, hclosed, ← Option.some.inj hstep, (hspec x).2]
      clear * - hx
      simp only [State.leave]
      grind
    · have hother : ¬(Found dladdr handle ∧ handle = x ∧ s.outstanding handle = 0) :=
        fun hx => hunknown (hx.2.1 ▸ hx.1)
      rw [← Option.some.inj hstep, (hspec x).2, if_neg hother]
      exact h.known x hunknown

theorem Inv.run (hstep : step dladdr s (.run t) = some s') : Inv dladdr s' := by
  simp only [step] at hstep
  split at hstep
  case h_2 => cases hstep
  case h_1 d htop hfind =>
    have hout : ∀ x, s'.outstanding x = s.outstanding x := fun x => by
      cases hstep
      have hcount := countP_erase_add (mem_of_find?_eq_some hfind) fun d => d.2 == x
      simp [State.outstanding, State.running, hcount, countP_cons]
      omega
    refine ⟨fun x => ?_, fun x => ?_, ?_⟩
    · rw [hout]
      cases hstep
      exact h.counters x
    · rw [hout]
      cases hstep
      simpa [State.closing] using h.balance x
    · cases hstep
      exact h.known

theorem Inv.remove (hstep : step dladdr s (.remove t) = some s') : Inv dladdr s' := by
  simp only [step] at hstep
  split at hstep
  case h_2 => cases hstep
  case h_1 handle htop =>
    have hcounts := leave_counts htop
    obtain ⟨n, hn⟩ : ∃ n, s.outstanding handle = n + 1 := by
      refine ⟨s.outstanding handle - 1, ?_⟩
      have hself := (hcounts handle).1
      simp only [beq_self_eq_true, if_true] at hself
      simp only [State.outstanding, hself]
      omega
    have hcounter : (s.leave t (.running handle)).counters handle =
        if Found dladdr handle then some (n + 1) else none := by
      have hx := h.counters handle
      simp only [hn, Nat.succ_pos, and_true] at hx
      exact hx
    have hspec := removeThreadLocalDtor_spec hcounter
    have hrest : s'.waiting = s.waiting ∧ s'.opened = s.opened ∧ s'.closed = s.closed ∧
        s'.counters = (removeThreadLocalDtor (s.leave t (.running handle)) handle).1.counters := by
      cases hstep
      split <;> simp [State.leave]
    have hframes : ∀ x, s'.running x = (s.leave t (.running handle)).running x ∧
        s'.closing x = s.closing x + if Found dladdr handle ∧ n = 0 ∧ handle = x then 1 else 0 :=
          fun x => by
      rw [(hcounts x).2]
      by_cases hlast : (removeThreadLocalDtor (s.leave t (.running handle)) handle).2 = true
      · rw [if_pos hlast] at hstep
        cases hstep
        simp [State.running, State.closing, countP_cons, (hspec x).2.mp hlast]
      · rw [if_neg hlast] at hstep
        cases hstep
        rw [(hspec x).2] at hlast
        simp [State.running, State.closing]
        grind
    have hout : ∀ x, s.outstanding x = s'.outstanding x + if handle = x then 1 else 0 := fun x => by
      simp [State.outstanding, (hcounts x).1, hrest.1, (hframes x).1]
      omega
    refine ⟨fun x => ?_, fun x => ?_, hrest.2.1 ▸ h.known⟩
    · have hx := h.counters x
      have houtx := hout x
      rw [hrest.2.2.2, (hspec x).1]
      clear * - hx houtx hn
      simp only [State.leave]
      grind
    · have hx := h.balance x
      have houtx := hout x
      rw [hrest.2.1, hrest.2.2.1, (hframes x).2]
      clear * - hx houtx hn
      grind

theorem Inv.close (hstep : step dladdr s (.close t) = some s') : Inv dladdr s' := by
  simp only [step] at hstep
  split at hstep
  case h_2 => cases hstep
  case h_1 handle htop =>
    have hcounts := leave_counts htop
    have hout : ∀ x, s'.outstanding x = s.outstanding x := fun x => by
      cases hstep
      simp only [State.outstanding, (hcounts x).1]
      simp [State.running, State.leave]
    have hclosing : ∀ x, s.closing x = s'.closing x + if handle = x then 1 else 0 := fun x => by
      cases hstep
      rw [(hcounts x).2]
      simp [State.closing]
    refine ⟨fun x => ?_, fun x => ?_, ?_⟩
    · have hx := h.counters x
      rw [hout]
      cases hstep
      exact hx
    · rw [hout]
      have hx := h.balance x
      have hclosingx := hclosing x
      cases hstep
      simp only [count_cons, beq_iff_eq, State.leave] at hclosingx ⊢
      omega
    · cases hstep
      exact h.known

theorem Inv.step {a : Action} (hstep : step dladdr s a = some s') : Inv dladdr s' := by
  cases a with
  | register t handle ok => exact h.register hstep
  | add t => exact h.add hstep
  | run t => exact h.run hstep
  | remove t => exact h.remove hstep
  | close t => exact h.close hstep

end

/-- In every run the library of a handle that `dladdr` finds stays loaded while a destructor of the
handle is outstanding, and its references are returned after that. For another handle none is
taken. -/
theorem library_stays_loaded (dladdr : Nat → Bool) (actions : List Action) (s : State)
    (hrun : Transition.run (step dladdr) start actions = some s) (handle : Nat) :
    (Found dladdr handle → Held s handle) ∧ (¬Found dladdr handle → handle ∉ s.opened) := by
  have hinv : Inv dladdr s := run_invariant (fun _ _ _ h ht => Inv.step h ht) actions start s
    ⟨fun _ => by simp [start, State.outstanding, State.running],
      fun _ => by simp [start, State.outstanding, State.running, State.closing], fun _ _ => rfl⟩ hrun
  exact ⟨hinv.held, fun hunknown => count_eq_zero.mp (hinv.known handle hunknown)⟩

/-- A second thread registers a destructor between the lock and `dlclose` of the first. -/
def reopening : List Action :=
  [.register 1 7 true, .add 1, .run 1, .remove 1, .register 2 7 true, .add 2]

theorem library_stays_loaded_reopening :
    ∃ s, Transition.run (step fun _ => true) start reopening = some s ∧
      (s.outstanding 7, s.closing 7, s.refs 7) = (1, 1, 2) ∧ Held s 7 :=
  ⟨_, rfl, by decide, (library_stays_loaded (fun _ => true) reopening _ rfl 7).1 (by decide)⟩

/-- No reference is held for a handle that `dladdr` does not find, nor between the host's
registration of a destructor and its count. -/
theorem unknown_library_unloaded :
    ((Transition.run (step fun _ => false) start [.register 1 7 true, .add 1]).map fun s =>
      (s.outstanding 7, s.refs 7)) = some (1, 0) ∧
    ((Transition.run (step fun _ => true) start [.register 1 7 true]).map fun s =>
      (s.top 1, s.refs 7)) = some (some (.registering 7), 0) := by
  decide

end DsoHandles
