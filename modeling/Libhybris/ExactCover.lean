import Mathlib.Data.Set.Lattice
import Mathlib.Order.CompletePartialOrder

/-!
# Exact covers

A list of cells, each a set of points, covers a region exactly when every point of the region
lies in one cell of the list and no other point in any. A cell that stands twice in the list
counts twice. Nested loops that cut a region are verified by the two rules for a cell in front
of a cover and for one cover behind another.
-/

variable {α β γ : Type}

structure ExactCover (cell : α → Set β) (l : List α) (region : Set β) : Prop where
  disjoint : l.Pairwise (fun a b => Disjoint (cell a) (cell b))
  union : ∀ b, b ∈ region ↔ ∃ a ∈ l, b ∈ cell a

namespace ExactCover

variable {cell : α → Set β} {l l' : List α} {region region' : Set β}

theorem nil (h : ∀ b, b ∉ region) : ExactCover cell [] region :=
  ⟨List.Pairwise.nil, fun b => ⟨fun hb => absurd hb (h b), fun ⟨_, ha, _⟩ => nomatch ha⟩⟩

/-- One cover behind another, the regions having no point in common. -/
theorem append (h : ExactCover cell l region) (h' : ExactCover cell l' region')
    (hapart : ∀ b ∈ region, b ∉ region') {whole : Set β}
    (hwhole : ∀ b, b ∈ whole ↔ b ∈ region ∨ b ∈ region') : ExactCover cell (l ++ l') whole where
  disjoint := by
    refine List.pairwise_append.mpr ⟨h.disjoint, h'.disjoint, fun a ha a' ha' => ?_⟩
    refine Set.disjoint_left.mpr fun b hb hb' => ?_
    exact hapart b ((h.union b).mpr ⟨a, ha, hb⟩) ((h'.union b).mpr ⟨a', ha', hb'⟩)
  union b := by
    rw [hwhole, h.union, h'.union]
    simp only [List.mem_append, or_and_right, exists_or]

/-- A cell in front of a cover. -/
theorem cons {a : α} (h : ExactCover cell l region) (hapart : ∀ b ∈ cell a, b ∉ region)
    {whole : Set β} (hwhole : ∀ b, b ∈ whole ↔ b ∈ cell a ∨ b ∈ region) :
    ExactCover cell (a :: l) whole := by
  have hsingle : ExactCover cell [a] (cell a) := ⟨List.pairwise_singleton _ _, by simp⟩
  exact hsingle.append h hapart hwhole

/-- Cells and region seen through a map of the points, `valid` being those that are mapped. -/
theorem preimage (h : ExactCover cell l region) (f : γ → β) (valid : γ → Prop) :
    ExactCover (fun a => {c | valid c ∧ f c ∈ cell a}) l {c | valid c ∧ f c ∈ region} where
  disjoint := h.disjoint.imp fun hab =>
    Set.disjoint_left.mpr fun _ hc hc' => Set.disjoint_left.mp hab hc.2 hc'.2
  union c := by
    simp only [Set.mem_ofPred_eq, h.union]
    constructor
    · rintro ⟨hv, a, ha, hc⟩
      exact ⟨a, ha, hv, hc⟩
    · rintro ⟨a, ha, hv, hc⟩
      exact ⟨hv, a, ha, hc⟩

/-- Only the cells of the list matter. -/
theorem map {δ : Type} {cell' : δ → Set β} (g : α → δ) (h : ExactCover cell l region)
    (hcell : ∀ a ∈ l, cell' (g a) = cell a) : ExactCover cell' (l.map g) region where
  disjoint := by
    refine List.pairwise_map.mpr (h.disjoint.imp_of_mem fun {a b} ha hb hab => ?_)
    rw [hcell a ha, hcell b hb]
    exact hab
  union b := by
    rw [h.union]
    constructor
    · rintro ⟨a, ha, hb⟩
      exact ⟨g a, List.mem_map_of_mem ha, hcell a ha ▸ hb⟩
    · rintro ⟨d, hd, hb⟩
      obtain ⟨a, ha, rfl⟩ := List.mem_map.mp hd
      exact ⟨a, ha, hcell a ha ▸ hb⟩

end ExactCover
