import Mathlib.Data.List.Basic

/-!
# Marking until nothing changes

A pass goes over items in order and marks keys; which keys an item marks depends on the marks so
far, and an item may refuse. Passes are repeated until one marks nothing new. The marks that are
left are the least ones that contain the first and are closed under the items, and the number of
passes is bounded by the number of keys.
-/
namespace Saturate

open List

variable {κ ι : Type} [DecidableEq κ]

/-- Mark a key, and tell if that changed anything. -/
def mark (s : (κ → Bool) × Bool) (k : κ) : (κ → Bool) × Bool :=
  if s.1 k then s else (Function.update s.1 k true, true)

def pass (targets : ι → (κ → Bool) → Option (List κ)) :
    List ι → (κ → Bool) × Bool → Option ((κ → Bool) × Bool)
  | [], s => some s
  | i :: is, s => (targets i s.1).bind fun ks => pass targets is (ks.foldl mark s)

/-- Passes until one changes nothing. -/
def saturate (targets : ι → (κ → Bool) → Option (List κ)) (items : List ι) :
    Nat → (κ → Bool) → Option (κ → Bool)
  | 0, _ => none
  | fuel + 1, f =>
    match pass targets items (f, false) with
    | none => none
    | some (g, changed) => if changed then saturate targets items fuel g else some g

theorem mark_iff (s : (κ → Bool) × Bool) (k j : κ) : (mark s k).1 j = true ↔ s.1 j = true ∨ j = k := by
  rw [mark]
  split
  · next h =>
    refine ⟨.inl, ?_⟩
    rintro (hj | rfl)
    · exact hj
    · exact h
  · by_cases hj : j = k
    · simp [hj]
    · simp [hj]

theorem marks_iff (s : (κ → Bool) × Bool) (ks : List κ) (j : κ) :
    (ks.foldl mark s).1 j = true ↔ s.1 j = true ∨ j ∈ ks := by
  induction ks generalizing s with
  | nil => simp
  | cons k ks ih => rw [foldl_cons, ih, mark_iff, mem_cons, or_assoc]

/-- Marks that change nothing were there. -/
theorem marks_unchanged {s : (κ → Bool) × Bool} {ks : List κ} (h : (ks.foldl mark s).2 = false) :
    ks.foldl mark s = s ∧ ∀ k ∈ ks, s.1 k = true := by
  induction ks generalizing s with
  | nil => exact ⟨rfl, forall_mem_nil _⟩
  | cons k ks ih =>
    rw [foldl_cons] at h ⊢
    obtain ⟨hrest, hmarked⟩ := ih h
    rw [hrest] at h ⊢
    have hk : s.1 k = true := by
      by_contra hk
      rw [mark, if_neg hk] at h
      cases h
    have hsame : mark s k = s := if_pos hk
    rw [hsame] at hmarked ⊢
    exact ⟨rfl, forall_mem_cons.mpr ⟨hk, hmarked⟩⟩

section Pass

variable {targets : ι → (κ → Bool) → Option (List κ)} {items : List ι}

theorem pass_cons {i : ι} {is : List ι} {s s' : (κ → Bool) × Bool}
    (h : pass targets (i :: is) s = some s') :
    ∃ ks, targets i s.1 = some ks ∧ pass targets is (ks.foldl mark s) = some s' :=
  Option.bind_eq_some_iff.mp h

theorem pass_le {s s' : (κ → Bool) × Bool} (h : pass targets items s = some s') {k : κ}
    (hk : s.1 k = true) : s'.1 k = true := by
  induction items generalizing s with
  | nil => cases h; exact hk
  | cons i is ih =>
    obtain ⟨ks, -, hrest⟩ := pass_cons h
    exact ih hrest ((marks_iff s ks k).mpr (.inl hk))

theorem pass_eq_none {s : (κ → Bool) × Bool} (h : pass targets items s = none) :
    ∃ i ∈ items, ∃ f, targets i f = none := by
  induction items generalizing s with
  | nil => cases h
  | cons i is ih =>
    cases hi : targets i s.1 with
    | none => exact ⟨i, mem_cons_self, s.1, hi⟩
    | some ks =>
      rw [pass, hi] at h
      obtain ⟨j, hj, hrefused⟩ := ih h
      exact ⟨j, mem_cons_of_mem _ hj, hrefused⟩

/-- What every item keeps, a pass keeps. -/
theorem pass_sound {P : κ → Prop} {s s' : (κ → Bool) × Bool}
    (hitem : ∀ i ∈ items, ∀ f ks, (∀ k, f k = true → P k) → targets i f = some ks → ∀ k ∈ ks, P k)
    (hs : ∀ k, s.1 k = true → P k) (h : pass targets items s = some s') (k : κ) (hk : s'.1 k = true) :
    P k := by
  induction items generalizing s with
  | nil => cases h; exact hs k hk
  | cons i is ih =>
    obtain ⟨ks, hks, hrest⟩ := pass_cons h
    refine ih (fun j hj => hitem j (mem_cons_of_mem _ hj)) (fun j hj => ?_) hrest
    rcases (marks_iff s ks j).mp hj with hj | hj
    · exact hs j hj
    · exact hitem i mem_cons_self s.1 ks hs hks j hj

/-- Items that mark more from more marks have marked what they would from the first marks. -/
theorem pass_complete {s s' : (κ → Bool) × Bool}
    (hmono : ∀ i ∈ items, ∀ f g ks, (∀ k, f k = true → g k = true) → targets i f = some ks →
      ∃ ks', targets i g = some ks' ∧ ks ⊆ ks') (h : pass targets items s = some s') {f : κ → Bool}
    (hf : ∀ k, f k = true → s.1 k = true) {i : ι} (hi : i ∈ items) {ks : List κ}
    (hks : targets i f = some ks) {k : κ} (hk : k ∈ ks) : s'.1 k = true := by
  induction items generalizing s with
  | nil => cases hi
  | cons j js ih =>
    obtain ⟨ks', hks', hrest⟩ := pass_cons h
    rcases mem_cons.mp hi with rfl | hi
    · obtain ⟨_, hmore, hsub⟩ := hmono i mem_cons_self f s.1 ks hf hks
      cases hks'.symm.trans hmore
      exact pass_le hrest ((marks_iff s ks' k).mpr (.inr (hsub hk)))
    · exact ih (fun l hl => hmono l (mem_cons_of_mem _ hl)) hrest
        (fun l hl => (marks_iff s ks' l).mpr (.inl (hf l hl))) hi

theorem pass_changes {s s' : (κ → Bool) × Bool} (h : pass targets items s = some s')
    (hs' : s'.2 = false) : s.2 = false := by
  induction items generalizing s with
  | nil => cases h; exact hs'
  | cons i is ih =>
    obtain ⟨ks, -, hrest⟩ := pass_cons h
    have hks := ih hrest
    rwa [(marks_unchanged hks).1] at hks

/-- A pass that changes nothing found its marks closed. -/
theorem pass_unchanged {f g : κ → Bool} (h : pass targets items (f, false) = some (g, false)) :
    g = f ∧ ∀ i ∈ items, ∃ ks, targets i f = some ks ∧ ∀ k ∈ ks, f k = true := by
  suffices hmain : ∀ s, pass targets items s = some (g, false) →
      g = s.1 ∧ ∀ i ∈ items, ∃ ks, targets i s.1 = some ks ∧ ∀ k ∈ ks, s.1 k = true from hmain _ h
  intro s hs
  clear h
  induction items generalizing s with
  | nil => cases hs; exact ⟨rfl, forall_mem_nil _⟩
  | cons i is ih =>
    obtain ⟨ks, hks, hrest⟩ := pass_cons hs
    obtain ⟨hsame, hmarked⟩ := marks_unchanged (pass_changes hrest rfl)
    rw [hsame] at hrest
    obtain ⟨hg, hclosed⟩ := ih s hrest
    refine ⟨hg, fun j hj => ?_⟩
    rcases mem_cons.mp hj with rfl | hj
    · exact ⟨ks, hks, hmarked⟩
    · exact hclosed j hj

end Pass

variable {fuel : Nat}

section Saturate

variable {targets : ι → (κ → Bool) → Option (List κ)}

theorem saturate_sound {P : κ → Prop}
    (hitem : ∀ i ∈ items, ∀ f ks, (∀ k, f k = true → P k) → targets i f = some ks → ∀ k ∈ ks, P k)
    {f g : κ → Bool} (hf : ∀ k, f k = true → P k) (h : saturate targets items fuel f = some g) (k : κ)
    (hk : g k = true) : P k := by
  induction fuel generalizing f with
  | zero => cases h
  | succ fuel ih =>
    simp only [saturate] at h
    split at h
    · cases h
    next g' changed hpass =>
    have hg' := pass_sound hitem hf hpass
    split at h
    · exact ih hg' h
    · cases h
      exact hg' k hk

theorem saturate_le {f g : κ → Bool} (h : saturate targets items fuel f = some g) {k : κ}
    (hk : f k = true) : g k = true := by
  induction fuel generalizing f with
  | zero => cases h
  | succ fuel ih =>
    simp only [saturate] at h
    split at h
    · cases h
    next g' changed hpass =>
    have hg' := pass_le hpass hk
    split at h
    · exact ih h hg'
    · cases h
      exact hg'

theorem saturate_closed {f g : κ → Bool} (h : saturate targets items fuel f = some g) :
    ∀ i ∈ items, ∃ ks, targets i g = some ks ∧ ∀ k ∈ ks, g k = true := by
  induction fuel generalizing f with
  | zero => cases h
  | succ fuel ih =>
    simp only [saturate] at h
    split at h
    · cases h
    next g' changed hpass =>
    split at h
    · exact ih h
    · next hchanged =>
      cases h
      rw [Bool.not_eq_true] at hchanged
      subst hchanged
      obtain ⟨rfl, hclosed⟩ := pass_unchanged hpass
      exact hclosed

/-- The keys that have no mark. -/
def unmarked (keys : List κ) (f : κ → Bool) : Nat := keys.countP fun k => !f k

variable {keys : List κ}

omit [DecidableEq κ] in
theorem unmarked_lt {f g : κ → Bool} (hle : ∀ k, f k = true → g k = true) {k : κ} (hk : k ∈ keys)
    (hf : f k = false) (hg : g k = true) : unmarked keys g < unmarked keys f := by
  induction keys with
  | nil => cases hk
  | cons j keys ih =>
    have hrest : unmarked keys g ≤ unmarked keys f := by
      refine countP_mono_left fun l _ hl => ?_
      rw [Bool.not_eq_true'] at hl ⊢
      exact Bool.eq_false_iff.mpr fun hfl => Bool.false_ne_true (hl.symm.trans (hle l hfl))
    rw [unmarked, unmarked, countP_cons, countP_cons]
    rcases mem_cons.mp hk with rfl | hk
    · simp only [hf, hg, Bool.not_true, Bool.not_false, if_true, Bool.false_eq_true, if_false]
      exact Nat.lt_succ_of_le hrest
    · have hlt := ih hk
      by_cases hfj : f j = true
      · simp only [hfj, hle j hfj, Bool.not_true, Bool.false_eq_true, if_false]
        exact hlt
      · simp only [hfj, Bool.not_false, if_true]
        have hone : (if (!g j) = true then 1 else 0) ≤ 1 := by split <;> omega
        unfold unmarked at hlt
        omega

/-- A pass that changes something marks one more of the keys the items name. -/
theorem pass_changed (hkeys : ∀ i ∈ items, ∀ f ks, targets i f = some ks → ks ⊆ keys) {f g : κ → Bool}
    (h : pass targets items (f, false) = some (g, true)) : ∃ k ∈ keys, f k = false ∧ g k = true := by
  suffices hmain : ∀ s, pass targets items s = some (g, true) → s.2 = false →
      ∃ k ∈ keys, s.1 k = false ∧ g k = true from hmain _ h rfl
  intro s hs hfalse
  clear h
  induction items generalizing s with
  | nil => cases hs; cases hfalse
  | cons i is ih =>
    obtain ⟨ks, hks, hrest⟩ := pass_cons hs
    by_cases hall : ∀ k ∈ ks, s.1 k = true
    · have hsame : ks.foldl mark s = s := by
        clear hks hrest
        induction ks with
        | nil => rfl
        | cons k ks ihk =>
          obtain ⟨hk, hks⟩ := forall_mem_cons.mp hall
          rw [foldl_cons, show mark s k = s from if_pos hk]
          exact ihk hks
      rw [hsame] at hrest
      exact ih (fun j hj => hkeys j (mem_cons_of_mem _ hj)) s hrest hfalse
    · push Not at hall
      obtain ⟨k, hk, hunmarked⟩ := hall
      exact ⟨k, hkeys i mem_cons_self s.1 ks hks hk, Bool.eq_false_iff.mpr hunmarked,
        pass_le hrest ((marks_iff s ks k).mpr (.inr hk))⟩

/-- With more fuel than there are keys without a mark, the passes end early only where an item
refuses. -/
theorem saturate_eq_none (hkeys : ∀ i ∈ items, ∀ f ks, targets i f = some ks → ks ⊆ keys)
    {f : κ → Bool} (h : unmarked keys f < fuel) (hnone : saturate targets items fuel f = none) :
    ∃ i ∈ items, ∃ g, targets i g = none := by
  induction fuel generalizing f with
  | zero => exact absurd h (Nat.not_lt_zero _)
  | succ fuel ih =>
    simp only [saturate] at hnone
    split at hnone
    · next hpass => exact pass_eq_none hpass
    next g changed hpass =>
    split at hnone
    · next hchanged =>
      subst hchanged
      obtain ⟨k, hk, hf, hg⟩ := pass_changed hkeys hpass
      have hle : ∀ j, f j = true → g j = true := fun j hj => pass_le hpass hj
      have hlt := unmarked_lt hle hk hf hg
      exact ih (by omega) hnone
    · cases hnone

end Saturate

end Saturate
