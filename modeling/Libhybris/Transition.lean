import Mathlib.Data.List.Basic

/-!
# Finite runs of a guarded step function

A system is a step function on states; an action that is not enabled gives no
successor. Everything here is over arbitrary state and action types: the runs,
the condition that every action of a run meets in the state before it, and the
two invariant rules the systems of this development are verified with.
-/
namespace Transition

variable {σ α : Type}

/-- Run a list of actions; a disabled action ends the run without a state. -/
def run (step : σ → α → Option σ) : σ → List α → Option σ
  | s, [] => some s
  | s, a :: rest => (step s a).bind (fun t => run step t rest)

/-- Every action of the run meets `ok` in the state it is taken from. -/
def Along (step : σ → α → Option σ) (ok : σ → α → Prop) : σ → List α → Prop
  | _, [] => True
  | s, a :: rest => ok s a ∧ ∀ t, step s a = some t → Along step ok t rest

@[simp] theorem run_nil (step : σ → α → Option σ) (s : σ) : run step s [] = some s := rfl

theorem run_cons (step : σ → α → Option σ) (s : σ) (a : α) (rest : List α) :
    run step s (a :: rest) = (step s a).bind (fun t => run step t rest) := rfl

instance decidableAlong (step : σ → α → Option σ) (ok : σ → α → Prop) [∀ s a, Decidable (ok s a)] :
    ∀ s actions, Decidable (Along step ok s actions)
  | _, [] => .isTrue trivial
  | s, a :: rest =>
    match h : step s a with
    | none => decidable_of_iff (ok s a) (by simp [Along, h])
    | some t =>
      have := decidableAlong step ok t rest
      decidable_of_iff (ok s a ∧ Along step ok t rest) (by simp [Along, h])

variable {step : σ → α → Option σ} {ok : σ → α → Prop} {Inv : σ → Prop}

theorem Along.and {ok' : σ → α → Prop} {s : σ} {actions : List α} (h : Along step ok s actions)
    (h' : Along step ok' s actions) : Along step (fun s a => ok s a ∧ ok' s a) s actions := by
  induction actions generalizing s with
  | nil => trivial
  | cons a rest ih => exact ⟨⟨h.1, h'.1⟩, fun t ht => ih (h.2 t ht) (h'.2 t ht)⟩

theorem Along.of_forall {actions : List α} (h : ∀ a ∈ actions, ∀ s, ok s a) (s : σ) :
    Along step ok s actions := by
  induction actions generalizing s with
  | nil => trivial
  | cons a rest ih =>
    exact ⟨h a List.mem_cons_self s, fun t _ => ih (fun b hb => h b (List.mem_cons_of_mem _ hb)) t⟩

/-- A run of a nonempty list is its first step followed by the rest. -/
theorem run_cons_some {s u : σ} {a : α} {rest : List α} (h : run step s (a :: rest) = some u) :
    ∃ t, step s a = some t ∧ run step t rest = some u := by
  exact Option.bind_eq_some_iff.mp h

/-- An invariant that every step meeting `ok` keeps holds at the end of every
run all of whose steps meet `ok`. -/
theorem run_invariant_along (hstep : ∀ s a t, Inv s → ok s a → step s a = some t → Inv t) (actions : List α)
    (s u : σ) (hs : Inv s) (hok : Along step ok s actions) (hrun : run step s actions = some u) :
    Inv u := by
  induction actions generalizing s with
  | nil =>
    have he : s = u := by simpa using hrun
    exact he ▸ hs
  | cons a rest ih =>
    obtain ⟨t, ht, hrest⟩ := run_cons_some hrun
    exact ih t (hstep s a t hs hok.1 ht) (hok.2 t ht) hrest

/-- The unconditional rule: an invariant that every step keeps. -/
theorem run_invariant (hstep : ∀ s a t, Inv s → step s a = some t → Inv t) (actions : List α)
    (s u : σ) (hs : Inv s) (hrun : run step s actions = some u) : Inv u := by
  exact run_invariant_along (fun v a t hv _ ht => hstep v a t hv ht) actions s u hs
    (Along.of_forall (fun _ _ _ => (trivial : True)) s) hrun

/-- Two step conditions agree along every run of enabled steps if they agree
on each step taken from a state satisfying an invariant, which a step meeting
the first keeps. -/
theorem along_iff {ok' : σ → α → Prop} (hkeep : ∀ s a t, Inv s → step s a = some t → ok s a → Inv t)
    (hiff : ∀ s a t, Inv s → step s a = some t → (ok s a ↔ ok' s a)) (actions : List α) (s u : σ)
    (hs : Inv s) (hrun : run step s actions = some u) :
    Along step ok s actions ↔ Along step ok' s actions := by
  induction actions generalizing s with
  | nil => exact Iff.rfl
  | cons a rest ih =>
    obtain ⟨t, ht, hrest⟩ := run_cons_some hrun
    constructor
    · rintro ⟨hok, hal⟩
      refine ⟨(hiff s a t hs ht).mp hok, fun t' ht' => ?_⟩
      have he : t = t' := by simpa [ht] using ht'
      subst he
      exact (ih t (hkeep s a t hs ht hok) hrest).mp (hal t ht)
    · rintro ⟨hok', hal⟩
      have hok := (hiff s a t hs ht).mpr hok'
      refine ⟨hok, fun t' ht' => ?_⟩
      have he : t = t' := by simpa [ht] using ht'
      subst he
      exact (ih t (hkeep s a t hs ht hok) hrest).mpr (hal t ht)

end Transition
