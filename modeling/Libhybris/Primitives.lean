import Mathlib.Data.Sym.Sym2

/-!
# Triangles from a sequence of vertices

Vulkan assembles triangles from a sequence of vertices as a list, a strip or a fan. A line drawing
of a triangle needs only its three edges, whatever vertex it starts from and whichever way it turns.
With primitive restart a strip is cut at each restart value; its triangles are the windows of three
vertices that do not touch one.
-/
namespace Primitives

open List

variable {α : Type}

abbrev Triangle (α : Type) := α × α × α

/-- Every second triangle of a strip turns the other way, so that all of them face one side. -/
def stripTriangles (v : Nat → α) (count : Nat) : List (Triangle α) :=
  (List.range (count - 2)).map fun i => (v i, v (i + (1 + i % 2)), v (i + (2 - i % 2)))

def listTriangles (v : Nat → α) (count : Nat) : List (Triangle α) :=
  (List.range (count / 3)).map fun i => (v (3 * i), v (3 * i + 1), v (3 * i + 2))

def fanTriangles (v : Nat → α) (count : Nat) : List (Triangle α) :=
  (List.range (count - 2)).map fun i => (v (i + 1), v (i + 2), v 0)

def edges (t : Triangle α) : Multiset (Sym2 α) := {s(t.1, t.2.1), s(t.2.1, t.2.2), s(t.2.2, t.1)}

/-- The other way round. -/
theorem edges_turn (a b c : α) : edges (a, c, b) = edges (a, b, c) := by
  have hturn : edges (a, c, b) = {s(c, a), s(b, c), s(a, b)} := by
    simp only [edges, Sym2.eq_swap (a := a) (b := c), Sym2.eq_swap (a := c) (b := b),
      Sym2.eq_swap (a := b) (b := a)]
  rw [hturn]
  exact Multiset.coe_eq_coe.mpr (reverse_perm [s(a, b), s(b, c), s(c, a)])

/-- From another vertex. -/
theorem edges_rotate (a b c : α) : edges (b, c, a) = edges (a, b, c) := by
  have hperm : ([s(b, c), s(c, a)] ++ [s(a, b)]).Perm ([s(a, b)] ++ [s(b, c), s(c, a)]) := perm_append_comm
  exact Multiset.coe_eq_coe.mpr hperm

/-- Three vertices in a row. -/
def windows : List α → List (Triangle α)
  | a :: b :: c :: l => (a, b, c) :: windows (b :: c :: l)
  | _ => []

theorem map_range_succ {β : Type} (f : Nat → β) (n : Nat) :
    (List.range (n + 1)).map f = f 0 :: (List.range n).map fun i => f (i + 1) := by
  rw [range_succ_eq_map, map_cons, map_map]
  rfl

theorem windows_range (v : Nat → α) (n : Nat) :
    windows ((List.range n).map v) = (List.range (n - 2)).map fun i => (v i, v (i + 1), v (i + 2)) := by
  induction n generalizing v with
  | zero => rfl
  | succ n ih =>
    match n, ih with
    | 0, _ => rfl
    | 1, _ => rfl
    | n + 2, ih =>
      have hrest := ih fun i => v (i + 1)
      rw [map_range_succ, map_range_succ] at hrest
      rw [map_range_succ, map_range_succ, map_range_succ, windows,
        show n + 2 + 1 - 2 = n + 1 by omega, map_range_succ]
      exact congrArg ((v 0, v 1, v 2) :: ·) hrest

/-- As edges, a strip has its windows. -/
theorem edges_stripTriangles (v : Nat → α) (count : Nat) :
    (stripTriangles v count).map edges = (windows ((List.range count).map v)).map edges := by
  rw [windows_range, stripTriangles, map_map, map_map]
  refine map_congr_left fun i _ => ?_
  rcases Nat.mod_two_eq_zero_or_one i with h | h
  · simp only [Function.comp, h]
  · simp only [Function.comp, h]
    exact edges_turn _ _ _

theorem edges_fanTriangles (v : Nat → α) (count : Nat) :
    (fanTriangles v count).map edges =
      (List.range (count - 2)).map fun i => edges (v 0, v (i + 1), v (i + 2)) := by
  rw [fanTriangles, map_map]
  exact map_congr_left fun i _ => edges_rotate _ _ _

section Restart

variable [DecidableEq α]

def touches (r : α) (t : Triangle α) : Bool := t.1 = r ∨ t.2.1 = r ∨ t.2.2 = r

theorem touches_iff {r : α} {t : Triangle α} : touches r t = true ↔ t.1 = r ∨ t.2.1 = r ∨ t.2.2 = r :=
  decide_eq_true_iff

theorem splitOn_cons_self (r : α) (l : List α) : (r :: l).splitOn r = [] :: l.splitOn r := by
  rw [List.splitOn, splitOnP_cons_eq_if_modifyHead, if_pos (by simp)]
  rfl

theorem splitOn_cons_of_ne {r a : α} (h : a ≠ r) (l : List α) :
    ∃ run runs, l.splitOn r = run :: runs ∧ (a :: l).splitOn r = (a :: run) :: runs := by
  obtain ⟨run, runs, hruns⟩ := exists_cons_of_ne_nil (splitOnP_ne_nil (· == r) l)
  refine ⟨run, runs, hruns, ?_⟩
  rw [List.splitOn, splitOnP_cons_eq_if_modifyHead, if_neg (by simpa using h), hruns]
  rfl

/-- One more vertex at the front makes one more window, if it does not touch the restart value. -/
theorem filter_windows_cons (r a b c : α) (l : List α) :
    (windows (a :: b :: c :: l)).filter (fun t => !touches r t) =
      (if a = r ∨ b = r ∨ c = r then [] else [(a, b, c)]) ++
        (windows (b :: c :: l)).filter fun t => !touches r t := by
  rw [windows, filter_cons, touches]
  by_cases h : a = r ∨ b = r ∨ c = r
  · simp [h]
  · simp [h]

/-- The windows that do not touch the restart value are those of the runs between restart values. -/
theorem windows_splitOn (r : α) (l : List α) :
    (l.splitOn r).flatMap windows = (windows l).filter fun t => !touches r t := by
  induction l with
  | nil => rfl
  | cons a l ih =>
    by_cases ha : a = r
    · subst ha
      rw [splitOn_cons_self, flatMap_cons, ih]
      match l with
      | [] => rfl
      | [b] => rfl
      | b :: c :: l => rw [filter_windows_cons, if_pos (.inl rfl)]; rfl
    · obtain ⟨run, runs, hl, hal⟩ := splitOn_cons_of_ne ha l
      rw [hal]
      rw [hl] at ih
      match l with
      | [] => cases hl; rfl
      | [b] =>
        by_cases hb : b = r
        · subst hb
          rw [splitOn_cons_self] at hl
          cases hl
          rfl
        · obtain ⟨run', runs', hnil, hone⟩ := splitOn_cons_of_ne hb []
          cases hnil
          rw [hone] at hl
          cases hl
          rfl
      | b :: c :: l =>
        rw [filter_windows_cons, ← ih]
        by_cases hb : b = r
        · rw [hb, splitOn_cons_self] at hl
          cases hl
          rw [if_pos (.inr (.inl hb))]
          rfl
        · obtain ⟨run', runs', hrest, hbl⟩ := splitOn_cons_of_ne hb (c :: l)
          rw [hbl] at hl
          cases hl
          by_cases hc : c = r
          · rw [hc, splitOn_cons_self] at hrest
            cases hrest
            rw [if_pos (.inr (.inr hc))]
            rfl
          · obtain ⟨run'', runs'', -, hcl⟩ := splitOn_cons_of_ne hc l
            rw [hcl] at hrest
            cases hrest
            rw [if_neg (by simp [ha, hb, hc])]
            rfl

/-- No edge from a vertex to itself. -/
def Proper (m : Multiset (Sym2 α)) : Prop := ∀ e ∈ m, ¬e.IsDiag

instance (m : Multiset (Sym2 α)) : Decidable (Proper m) :=
  inferInstanceAs (Decidable (∀ e ∈ m, ¬e.IsDiag))

omit [DecidableEq α] in
theorem not_proper_edges_self (a : α) : ¬Proper (edges (a, a, a)) := by
  intro h
  have hmem : s(a, a) ∈ edges (a, a, a) := by simp [edges]
  exact h s(a, a) hmem rfl

/-- A strip whose triangles at restart values are drawn as points has, as proper triangles, those of
the runs between restart values. -/
theorem proper_restart (r a : α) (l : List α) :
    (((windows l).map fun t => edges (if touches r t then (a, a, a) else t)).filter fun m => Proper m) =
      (((l.splitOn r).flatMap windows).map edges).filter fun m => Proper m := by
  rw [windows_splitOn]
  induction windows l with
  | nil => rfl
  | cons t ts ih =>
    cases htouch : touches r t with
    | true =>
      rw [map_cons, filter_cons_of_neg (by simpa [htouch] using not_proper_edges_self a), ih,
        filter_cons_of_neg (by simp [htouch])]
    | false =>
      have hkeep : (t :: ts).filter (fun t => !touches r t) = t :: ts.filter fun t => !touches r t :=
        filter_cons_of_pos (by simp [htouch])
      rw [hkeep, map_cons, map_cons, filter_cons, filter_cons, ih, htouch]
      rfl

end Restart

end Primitives
