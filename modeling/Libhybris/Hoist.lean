import Mathlib.Data.List.Basic

/-!
# Reads moved to the front

A program is a list of operations on a memory: some change it, some only read one cell. All its
reads may run before the program if no operation before a read changes the cell read. A set of
touched cells is enough to know that: a cell outside it is kept by every operation so far.
-/
namespace Hoist

open List

variable {κ β ρ : Type}

inductive Op (κ β ρ : Type) where
  | effect (f : (κ → β) → κ → β)
  | read (r : ρ)

def Op.run : Op κ β ρ → (κ → β) → κ → β
  | .effect f, m => f m
  | .read _, m => m

def run (ops : List (Op κ β ρ)) (m : κ → β) : κ → β := ops.foldl (fun m o => o.run m) m

/-- The operation changes the cell in no memory. -/
def Op.Keeps (o : Op κ β ρ) (k : κ) : Prop := ∀ m, o.run m k = m k

theorem keeps_read (r : ρ) (k : κ) : (.read r : Op κ β ρ).Keeps k := fun _ => rfl

variable {ops : List (Op κ β ρ)}

theorem run_keeps {k : κ} (h : ∀ o ∈ ops, o.Keeps k) (m : κ → β) : run ops m k = m k := by
  induction ops generalizing m with
  | nil => rfl
  | cons o ops ih =>
    exact (ih (fun o' ho' => h o' (mem_cons_of_mem _ ho')) (o.run m)).trans (h o mem_cons_self m)

/-- Every cell outside the touched ones is kept. -/
def Framed (touched : κ → Bool) (ops : List (Op κ β ρ)) : Prop :=
  ∀ k, touched k = false → ∀ o ∈ ops, o.Keeps k

theorem framed_nil (touched : κ → Bool) : Framed touched ([] : List (Op κ β ρ)) :=
  fun _ _ _ ho => absurd ho not_mem_nil

variable {touched : κ → Bool}

theorem Framed.mono {touched' : κ → Bool} (h : Framed touched ops)
    (hle : ∀ k, touched' k = false → touched k = false) : Framed touched' ops :=
  fun k hk => h k (hle k hk)

theorem Framed.append {ops' : List (Op κ β ρ)} (h : Framed touched ops) (h' : Framed touched ops') :
    Framed touched (ops ++ ops') := by
  intro k hk o ho
  rcases mem_append.mp ho with ho | ho
  · exact h k hk o ho
  · exact h' k hk o ho

section Place

variable {place : ρ → κ}

/-- No operation before a read changes the cell read. -/
def Hoistable (place : ρ → κ) (ops : List (Op κ β ρ)) : Prop :=
  ∀ before r after, ops = before ++ .read r :: after → ∀ o ∈ before, o.Keeps (place r)

theorem hoistable_nil : Hoistable place ([] : List (Op κ β ρ)) :=
  fun _ _ _ h => absurd h.symm (append_ne_nil_of_right_ne_nil _ (cons_ne_nil _ _))

/-- A read sees what it would see at the front. -/
theorem Hoistable.run_eq {before after : List (Op κ β ρ)} {r : ρ} (h : Hoistable place ops)
    (hops : ops = before ++ .read r :: after) (m : κ → β) : run before m (place r) = m (place r) :=
  run_keeps (h before r after hops) m

theorem Hoistable.append {ops' : List (Op κ β ρ)} (h : Hoistable place ops) (h' : Hoistable place ops')
    (hread : ∀ r, .read r ∈ ops' → ∀ o ∈ ops, o.Keeps (place r)) : Hoistable place (ops ++ ops') := by
  intro before r after heq o ho
  rcases append_eq_append_iff.mp heq with ⟨rest, hbefore, hafter⟩ | ⟨rest, hfirst, hsecond⟩
  · rw [hbefore] at ho
    have hmem : .read r ∈ ops' := by
      rw [hafter]
      exact mem_append_right _ mem_cons_self
    rcases mem_append.mp ho with ho | ho
    · exact hread r hmem o ho
    · exact h' rest r after hafter o ho
  · cases rest with
    | nil =>
      have hmem : .read r ∈ ops' := by
        rw [show ops' = .read r :: after from hsecond.symm]
        exact mem_cons_self
      rw [append_nil] at hfirst
      exact hread r hmem o (hfirst ▸ ho)
    | cons o' rest =>
      cases hsecond
      exact h before r rest hfirst o ho

/-- One more operation that is no read of a touched cell. -/
theorem Hoistable.concat {o : Op κ β ρ} (h : Hoistable place ops) (hframed : Framed touched ops)
    (ho : ∀ r, o = .read r → touched (place r) = false) : Hoistable place (ops ++ [o]) := by
  refine h.append (fun before r after heq o' ho' => ?_) fun r hr => ?_
  · cases before with
    | nil => cases ho'
    | cons first rest => exact absurd heq (by cases rest <;> simp)
  · exact hframed (place r) (ho r (mem_singleton.mp hr).symm)

end Place

end Hoist
