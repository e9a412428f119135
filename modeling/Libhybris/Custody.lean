import Mathlib.Data.List.Perm.Basic

/-!
# Custody of borrowed tokens

A party takes tokens, uses them while it has them and gives them back. The
ledger of a log of such events is undefined as soon as a token is used or
given back that is not held, so a defined ledger says that nothing was ever
given back twice. Logs are read newest event first.
-/
namespace Custody

variable {τ : Type} [DecidableEq τ]

inductive Event (τ : Type) where
  | take (t : τ)
  | use (t : τ)
  | give (t : τ)
  deriving DecidableEq, Repr

/-- The tokens held after one event, if the event was permitted. -/
def settle (held : List τ) : Event τ → Option (List τ)
  | .take t => some (t :: held)
  | .use t => if t ∈ held then some held else none
  | .give t => if t ∈ held then some (held.erase t) else none

def ledger : List (Event τ) → Option (List τ)
  | [] => some []
  | e :: earlier => (ledger earlier).bind (fun held => settle held e)

/-- The lender never hands out a token that is already held. -/
def Honest : List (Event τ) → Prop
  | [] => True
  | .take t :: earlier => t ∉ (ledger earlier).getD [] ∧ Honest earlier
  | _ :: earlier => Honest earlier

variable {log : List (Event τ)}

theorem Honest.tail {e : Event τ} (h : Honest (e :: log)) : Honest log := by
  cases e with
  | take t => exact h.2
  | use t => exact h
  | give t => exact h

instance decidableHonest : (log : List (Event τ)) → Decidable (Honest log)
  | [] => .isTrue trivial
  | .take t :: earlier =>
    have := decidableHonest earlier
    inferInstanceAs (Decidable (t ∉ (ledger earlier).getD [] ∧ Honest earlier))
  | .use _ :: earlier => decidableHonest earlier
  | .give _ :: earlier => decidableHonest earlier

/-- The log is permitted so far and `owned` lists distinct held tokens. -/
def Owns (log : List (Event τ)) (owned : List τ) : Prop :=
  ∃ held, ledger log = some held ∧ owned ⊆ held ∧ owned.Nodup

theorem owns_nil : Owns ([] : List (Event τ)) [] := ⟨[], rfl, by simp, List.nodup_nil⟩

variable {owned owned' : List τ} {t : τ}

section
variable (h : Owns log owned)
include h

theorem Owns.isSome : (ledger log).isSome := by
  obtain ⟨held, hl, -, -⟩ := h
  simp [hl]

theorem Owns.perm (hp : owned.Perm owned') : Owns log owned' := by
  obtain ⟨held, hl, hs, hn⟩ := h
  exact ⟨held, hl, List.Subset.trans hp.symm.subset hs, hp.nodup_iff.mp hn⟩

/-- Claims on tokens may be forgotten; the tokens are then held for ever. -/
theorem Owns.forget (hs : owned'.Sublist owned) : Owns log owned' := by
  obtain ⟨held, hl, hsub, hn⟩ := h
  exact ⟨held, hl, List.Subset.trans hs.subset hsub, hn.sublist hs⟩

theorem Owns.not_mem_of_honest (hh : Honest (.take t :: log)) : t ∉ owned := by
  obtain ⟨held, hl, hs, -⟩ := h
  have hnot : t ∉ held := by simpa [hl] using hh.1
  exact fun hm => hnot (hs hm)

theorem Owns.take (hh : Honest (.take t :: log)) : Owns (.take t :: log) (t :: owned) := by
  have hnew := h.not_mem_of_honest hh
  obtain ⟨held, hl, hs, hn⟩ := h
  exact ⟨t :: held, by simp [ledger, hl, settle], List.cons_subset_cons t hs,
    List.nodup_cons.mpr ⟨hnew, hn⟩⟩

theorem Owns.use (ht : t ∈ owned) : Owns (.use t :: log) owned := by
  obtain ⟨held, hl, hs, hn⟩ := h
  exact ⟨held, by simp [ledger, hl, settle, hs ht], hs, hn⟩

end

theorem Owns.give (h : Owns log (t :: owned)) : Owns (.give t :: log) owned := by
  obtain ⟨held, hl, hs, hn⟩ := h
  obtain ⟨hnot, hn⟩ := List.nodup_cons.mp hn
  refine ⟨held.erase t, by simp [ledger, hl, settle, hs List.mem_cons_self], ?_, hn⟩
  intro u hu
  have hne : u ≠ t := fun he => hnot (he ▸ hu)
  exact (List.mem_erase_of_ne hne).mpr (hs (List.mem_cons_of_mem t hu))

/-- The log is permitted and exactly the tokens `owned` are held: nothing was
given back twice and nothing else is still out. -/
def Holds (log : List (Event τ)) (owned : List τ) : Prop :=
  ∃ held, ledger log = some held ∧ held.Perm owned

theorem holds_nil : Holds ([] : List (Event τ)) [] := ⟨[], rfl, .nil⟩

theorem Holds.perm (h : Holds log owned) (hp : owned.Perm owned') : Holds log owned' := by
  obtain ⟨held, hl, hh⟩ := h
  exact ⟨held, hl, hh.trans hp⟩

theorem Holds.take (h : Holds log owned) (t : τ) : Holds (.take t :: log) (t :: owned) := by
  obtain ⟨held, hl, hh⟩ := h
  exact ⟨t :: held, by simp [ledger, hl, settle], hh.cons t⟩

theorem Holds.use (h : Holds log owned) (ht : t ∈ owned) : Holds (.use t :: log) owned := by
  obtain ⟨held, hl, hh⟩ := h
  exact ⟨held, by simp [ledger, hl, settle, hh.mem_iff.mpr ht], hh⟩

theorem Holds.give (h : Holds log (t :: owned)) : Holds (.give t :: log) owned := by
  obtain ⟨held, hl, hh⟩ := h
  refine ⟨held.erase t, by simp [ledger, hl, settle, hh.mem_iff], ?_⟩
  simpa using hh.erase t

/-- Giving back a whole list of held tokens, in its order. -/
theorem Holds.give_all {given : List τ} (h : Holds log (given ++ owned)) :
    Holds ((given.map Event.give).reverse ++ log) owned := by
  induction given generalizing log with
  | nil => exact h
  | cons t given ih => simpa using ih h.give

end Custody
