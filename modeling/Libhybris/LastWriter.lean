import Mathlib.Data.List.Induction

/-!
# Last writer wins

A write assigns values at some positions. After a list of writes each position
holds what the last write to it assigned. Writes may be sorted into two groups
and replayed group after group; that gives the same values exactly when, wherever
the second group writes at all, it is the last writer's value that it leaves.
-/
namespace LastWriter

open List Option

variable {κ β : Type}

/-- One write laid over what was there. -/
def apply (m w : κ → Option β) : κ → Option β := fun k => (w k).or (m k)

def applyAll (m : κ → Option β) (ws : List (κ → Option β)) : κ → Option β := ws.foldl apply m

/-- What a list of writes leaves at each position. -/
def last (ws : List (κ → Option β)) : κ → Option β := applyAll (fun _ => none) ws

theorem applyAll_append (m : κ → Option β) (ws ws' : List (κ → Option β)) :
    applyAll m (ws ++ ws') = applyAll (applyAll m ws) ws' := foldl_append

theorem applyAll_eq (m : κ → Option β) (ws : List (κ → Option β)) (k : κ) :
    applyAll m ws k = (last ws k).or (m k) := by
  induction ws using List.reverseRecOn with
  | nil => rfl
  | append_singleton ws w ih =>
    rw [last, applyAll_append, applyAll_append]
    change (w k).or (applyAll m ws k) = ((w k).or (last ws k)).or (m k)
    rw [ih, Option.or_assoc]

theorem last_append (ws ws' : List (κ → Option β)) (k : κ) :
    last (ws ++ ws') k = (last ws' k).or (last ws k) := by
  rw [last, applyAll_append, applyAll_eq]
  rfl

theorem last_singleton (w : κ → Option β) : last [w] = w := by
  funext k
  exact or_none

variable {k : κ}

/-- Positions nobody writes to. -/
theorem last_eq_none {ws : List (κ → Option β)} (h : ∀ w ∈ ws, w k = none) : last ws k = none := by
  induction ws using List.reverseRecOn with
  | nil => rfl
  | append_singleton ws w ih =>
    rw [last_append, last_singleton, h w (by simp), ih fun w' hw' => h w' (by simp [hw'])]
    rfl

/-- A position to which all writers assign one value. -/
theorem last_eq_some {ws : List (κ → Option β)} {v : β} (hsome : ∃ w ∈ ws, w k = some v)
    (hsame : ∀ w ∈ ws, w k = none ∨ w k = some v) : last ws k = some v := by
  induction ws using List.reverseRecOn with
  | nil =>
    obtain ⟨w, hw, -⟩ := hsome
    cases hw
  | append_singleton ws w ih =>
    rw [last_append, last_singleton]
    rcases hsame w (by simp) with hnone | hv
    · have hbefore : ∃ w' ∈ ws, w' k = some v := by
        obtain ⟨w', hw', hv⟩ := hsome
        rcases mem_append.mp hw' with hw' | hw'
        · exact ⟨w', hw', hv⟩
        · rw [mem_singleton.mp hw', hnone] at hv
          cases hv
      rw [hnone, none_or, ih hbefore fun w' hw' => hsame w' (by simp [hw'])]
    · rw [hv, some_or]

variable {ι : Type} (f : ι → κ → Option β) (p : ι → Bool)

theorem last_map_append (l : List ι) (i : ι) (k : κ) :
    last ((l ++ [i]).map f) k = (f i k).or (last (l.map f) k) := by
  rw [map_append, last_append]
  exact congrArg (fun w => Option.or (w k) _) (last_singleton (f i))

/-- Positions that one group leaves alone are decided by the other. -/
theorem last_of_filter_none {l : List ι} (h : last ((l.filter p).map f) k = none) :
    last ((l.filter fun i => !p i).map f) k = last (l.map f) k := by
  induction l using List.reverseRecOn with
  | nil => rfl
  | append_singleton l i ih =>
    rw [filter_append] at h ⊢
    rw [last_map_append]
    cases hp : p i with
    | false =>
      simp only [filter_cons, hp, Bool.false_eq_true, if_false, filter_nil,
        append_nil] at h
      simp only [filter_cons, hp, Bool.not_false, if_true, filter_nil]
      rw [last_map_append, ih h]
    | true =>
      simp only [filter_cons, hp, if_true, filter_nil] at h
      rw [last_map_append, or_eq_none_iff] at h
      simp only [filter_cons, hp, Bool.not_true, Bool.false_eq_true, if_false, filter_nil,
        append_nil]
      rw [ih h.2, h.1, none_or]

theorem last_isSome_of_filter {l : List ι} (h : last (l.map f) k = none) :
    last ((l.filter p).map f) k = none := by
  induction l using List.reverseRecOn with
  | nil => rfl
  | append_singleton l i ih =>
    rw [last_map_append, or_eq_none_iff] at h
    rw [filter_append]
    cases hp : p i with
    | false =>
      simp only [filter_cons, hp, Bool.false_eq_true, if_false, filter_nil, append_nil]
      exact ih h.2
    | true =>
      simp only [filter_cons, hp, if_true, filter_nil]
      rw [last_map_append, h.1, ih h.2, none_or]

/-- The writes of `p` replayed behind the others leave, over any start, what the writes in
their own order left, exactly when they leave the last writer's value wherever they write. -/
theorem replay_iff (l : List ι) (m : κ → Option β) :
    (∀ k v, last (l.map f) k = some v →
      applyAll m ((l.filter fun i => !p i).map f ++ (l.filter p).map f) k = some v) ↔
      ∀ k v, last ((l.filter p).map f) k = some v → last (l.map f) k = some v := by
  have hreplay : ∀ k, applyAll m ((l.filter fun i => !p i).map f ++ (l.filter p).map f) k =
      (last ((l.filter p).map f) k).or ((last ((l.filter fun i => !p i).map f) k).or (m k)) := by
    intro k
    rw [applyAll_eq, last_append, Option.or_assoc]
  constructor
  · intro h k v hv
    cases hlast : last (l.map f) k with
    | none =>
      rw [last_isSome_of_filter f p hlast] at hv
      cases hv
    | some u =>
      have hu := h k u hlast
      rw [hreplay, hv] at hu
      exact hu.symm
  · intro h k v hv
    rw [hreplay]
    cases hgroup : last ((l.filter p).map f) k with
    | none =>
      rw [none_or, last_of_filter_none f p hgroup, hv, some_or]
    | some u =>
      rw [h k u hgroup] at hv
      exact hv

end LastWriter
