import Mathlib.Algebra.Order.BigOperators.Group.Finset

/-!
# Places in nested layouts

A place in parts that lie one behind another is a part and a place in it, and each place is had in
one way. Rows of one width are such parts.
-/
namespace Packing

open Finset

variable {n w q q' t t' a m m' : Nat} (f : Nat → Nat)

theorem part_lt (hm : m < n) (ht : t < f m) : ∑ k ∈ range m, f k + t < ∑ k ∈ range n, f k := by
  have hle := sum_le_sum_of_subset (f := f) (range_mono hm)
  rw [sum_range_succ] at hle
  omega

theorem exists_part (h : a < ∑ m ∈ range n, f m) : ∃ m < n, ∃ t < f m, a = ∑ k ∈ range m, f k + t := by
  induction n with
  | zero => simp at h
  | succ n ih =>
    rw [sum_range_succ] at h
    by_cases hlt : a < ∑ m ∈ range n, f m
    · obtain ⟨m, hm, hrest⟩ := ih hlt
      exact ⟨m, by omega, hrest⟩
    · exact ⟨n, by omega, a - ∑ m ∈ range n, f m, by omega, by omega⟩

theorem part_unique (ht : t < f m) (ht' : t' < f m')
    (h : ∑ k ∈ range m, f k + t = ∑ k ∈ range m', f k + t') : m = m' ∧ t = t' := by
  rcases Nat.lt_trichotomy m m' with hlt | rfl | hlt
  · have hend := part_lt f hlt ht
    omega
  · exact ⟨rfl, Nat.add_left_cancel h⟩
  · have hend := part_lt f hlt ht'
    omega

theorem row_lt (hq : q < n) (ht : t < w) : q * w + t < n * w := by
  simpa using part_lt (fun _ => w) hq ht

theorem exists_row (h : a < n * w) : ∃ q < n, ∃ t < w, a = q * w + t := by
  simpa using exists_part (fun _ => w) (n := n) (by simpa using h)

theorem row_unique (ht : t < w) (ht' : t' < w) (h : q * w + t = q' * w + t') : q = q' ∧ t = t' :=
  part_unique (fun _ => w) ht ht' (by simpa using h)

end Packing
