import Mathlib.Data.List.Pairwise
import Mathlib.Data.Set.Basic

/-!
# Overlapping replacements in a shared memory

Items are read from one memory, and several may read the same positions. An item
whose guard is blank is to be read with a replacement laid over it. A sweep goes
through the items in order and lays the replacement of each item that it still
finds blank over the shared memory itself, so that a later item may find a
replacement that was meant for an earlier one.

Such a sweep serves every item exactly when the items agree at each position that
two of them read, and each position that a replacement changes is covered by an
item that the sweep takes.
-/
namespace Overlay

open Classical List Option

variable {α β : Type}

/-- The positions an item is read from, those that tell whether it is blank, and its
replacement. -/
structure Item (α β : Type) where
  reads : Set α
  guard : Set α
  patch : α → Option β
  guard_reads : ∀ p ∈ guard, p ∈ reads
  patch_reads : ∀ p, (patch p).isSome → p ∈ reads

variable (blank : β)

def Item.Blank (x : Item α β) (m : α → β) : Prop := ∀ p ∈ x.guard, m p = blank

/-- The memory as this item alone would have it. -/
noncomputable def Item.overlay (x : Item α β) (m : α → β) : α → β :=
  if x.Blank blank m then fun p => (x.patch p).getD (m p) else m

noncomputable def sweep : List (Item α β) → (α → β) → α → β
  | [], m => m
  | x :: rest, m => sweep rest (x.overlay blank m)

/-- An item that was taken puts something into the guard of `x`. -/
def Hidden (done : List (Item α β)) (x : Item α β) : Prop :=
  ∃ z ∈ done, ∃ p ∈ x.guard, ∃ b, z.patch p = some b ∧ b ≠ blank

/-- The items whose replacement is laid down: they are blank, and no item taken
before hides that. -/
noncomputable def takenFrom (m : α → β) : List (Item α β) → List (Item α β) → List (Item α β)
  | done, [] => done
  | done, x :: rest =>
    if x.Blank blank m ∧ ¬ Hidden blank done x then takenFrom m (x :: done) rest
    else takenFrom m done rest

noncomputable def taken (m : α → β) (xs : List (Item α β)) : List (Item α β) := takenFrom blank m [] xs

def Agree (m : α → β) (xs : List (Item α β)) : Prop :=
  ∀ x ∈ xs, ∀ y ∈ xs, ∀ p ∈ x.reads, p ∈ y.reads → x.overlay blank m p = y.overlay blank m p

/-- Each position that a replacement changes is covered by an item that is taken. -/
def Covered (m : α → β) (xs : List (Item α β)) : Prop :=
  ∀ y ∈ xs, y.Blank blank m → ∀ p b, y.patch p = some b → b ≠ m p →
    ∃ x ∈ taken blank m xs, (x.patch p).isSome

structure Coherent (m : α → β) (xs : List (Item α β)) : Prop where
  agree : Agree blank m xs
  covered : Covered blank m xs

variable {blank} {m : α → β} {xs : List (Item α β)} {x : Item α β} {p : α} {b : β}

theorem Item.overlay_of_patch (hx : x.Blank blank m) (hp : x.patch p = some b) :
    x.overlay blank m p = b := by
  rw [Item.overlay, if_pos hx, hp, getD_some]

theorem Item.overlay_of_none (hp : x.patch p = none) : x.overlay blank m p = m p := by
  unfold Item.overlay
  split
  · simp only [hp, getD_none]
  · rfl

theorem Item.overlay_of_not_blank (hx : ¬ x.Blank blank m) : x.overlay blank m = m := if_neg hx

theorem Item.reads_of_patch (hp : x.patch p = some b) : p ∈ x.reads :=
  x.patch_reads p (by rw [hp]; rfl)

/-- The shared memory while the sweep is under way: `done` has been laid over `m`,
as far as anybody reads. -/
structure Laid (blank : β) (m : α → β) (xs done : List (Item α β)) (m' : α → β) : Prop where
  blank : ∀ z ∈ done, z ∈ xs ∧ z.Blank blank m
  inside : ∀ z ∈ done, ∀ p b, z.patch p = some b → m' p = b
  outside : ∀ x ∈ xs, ∀ p ∈ x.reads, (∀ z ∈ done, z.patch p = none) → m' p = m p

variable {done : List (Item α β)} {m' : α → β}

/-- Where an item laid down touches what `x` reads, it is what `x` wants there. -/
theorem Laid.wanted (h : Laid blank m xs done m') (hagree : Agree blank m xs) {z : Item α β} (hx : x ∈ xs)
    (hz : z ∈ done) (hp : p ∈ x.reads) (hb : z.patch p = some b) : x.overlay blank m p = b := by
  obtain ⟨hmem, hblank⟩ := h.blank z hz
  rw [hagree x hx z hmem p hp (Item.reads_of_patch hb)]
  exact Item.overlay_of_patch hblank hb

theorem patch_cases (done : List (Item α β)) (p : α) :
    (∃ z ∈ done, ∃ b, z.patch p = some b) ∨ ∀ z ∈ done, z.patch p = none := by
  by_cases h : ∃ z ∈ done, ∃ b, z.patch p = some b
  · exact .inl h
  · refine .inr fun z hz => eq_none_iff_forall_ne_some.mpr fun b hb => ?_
    exact h ⟨z, hz, b, hb⟩

section
variable (h : Laid blank m xs done m') (hagree : Agree blank m xs) (hx : x ∈ xs)
include h hagree hx

/-- The sweep finds an item blank exactly when it is taken. -/
theorem Laid.blank_iff :
    x.Blank blank m' ↔ x.Blank blank m ∧ ¬ Hidden blank done x := by
  constructor
  · intro hblank
    refine ⟨fun p hp => ?_, ?_⟩
    · by_contra hne
      have hx' : ¬ x.Blank blank m := fun h => hne (h p hp)
      rcases patch_cases done p with ⟨z, hz, b, hb⟩ | hnone
      · have hwant := h.wanted hagree hx hz (x.guard_reads p hp) hb
        rw [Item.overlay_of_not_blank hx'] at hwant
        rw [hwant, ← h.inside z hz p b hb] at hne
        exact hne (hblank p hp)
      · rw [← h.outside x hx p (x.guard_reads p hp) hnone] at hne
        exact hne (hblank p hp)
    · rintro ⟨z, hz, p, hp, b, hb, hne⟩
      rw [← h.inside z hz p b hb] at hne
      exact hne (hblank p hp)
  · rintro ⟨hblank, hhidden⟩ p hp
    rcases patch_cases done p with ⟨z, hz, b, hb⟩ | hnone
    · rw [h.inside z hz p b hb]
      by_contra hne
      exact hhidden ⟨z, hz, p, hp, b, hb, hne⟩
    · rw [h.outside x hx p (x.guard_reads p hp) hnone]
      exact hblank p hp

theorem Laid.take (hblank : x.Blank blank m) (hblank' : x.Blank blank m') :
    Laid blank m xs (x :: done) (x.overlay blank m') where
  blank z hz := by
    rcases mem_cons.mp hz with rfl | hz
    · exact ⟨hx, hblank⟩
    · exact h.blank z hz
  inside z hz p b hb := by
    rcases mem_cons.mp hz with rfl | hz
    · exact Item.overlay_of_patch hblank' hb
    · cases hp : x.patch p with
      | none => rw [Item.overlay_of_none hp, h.inside z hz p b hb]
      | some c =>
        rw [Item.overlay_of_patch hblank' hp, ← h.wanted hagree hx hz (Item.reads_of_patch hp) hb]
        exact (Item.overlay_of_patch hblank hp).symm
  outside y hy p hp hnone := by
    rw [Item.overlay_of_none (hnone x mem_cons_self)]
    exact h.outside y hy p hp fun z hz => hnone z (mem_cons_of_mem x hz)

end

theorem Laid.sweep (hagree : Agree blank m xs) {rest : List (Item α β)} :
    ∀ {done : List (Item α β)} {m' : α → β}, Laid blank m xs done m' → (∀ x ∈ rest, x ∈ xs) →
      Laid blank m xs (takenFrom blank m done rest) (sweep blank rest m') := by
  induction rest with
  | nil => exact fun h _ => h
  | cons x rest ih =>
    intro done m' h hrest
    have hx : x ∈ xs := hrest x mem_cons_self
    have hrest' : ∀ y ∈ rest, y ∈ xs := fun y hy => hrest y (mem_cons_of_mem x hy)
    rw [takenFrom, Overlay.sweep]
    by_cases hx' : x.Blank blank m'
    · have htaken := (h.blank_iff hagree hx).mp hx'
      rw [if_pos htaken]
      exact ih (h.take hagree hx htaken.1 hx') hrest'
    · rw [if_neg fun htaken => hx' ((h.blank_iff hagree hx).mpr htaken),
        Item.overlay_of_not_blank hx']
      exact ih h hrest'

/-- The sweep of a memory that looks like `m` to every reader. -/
theorem laid_taken (hagree : Agree blank m xs) {m₀ : α → β}
    (hsame : ∀ x ∈ xs, ∀ p ∈ x.reads, m₀ p = m p) :
    Laid blank m xs (taken blank m xs) (sweep blank xs m₀) := by
  refine Laid.sweep hagree ⟨by simp, by simp, fun x hx p hp _ => hsame x hx p hp⟩ fun _ h => h

/-- A sweep serves every item exactly when the items are coherent. -/
theorem sweep_serves_iff {m₀ : α → β} (hsame : ∀ x ∈ xs, ∀ p ∈ x.reads, m₀ p = m p) :
    (∀ x ∈ xs, ∀ p ∈ x.reads, sweep blank xs m₀ p = x.overlay blank m p) ↔ Coherent blank m xs := by
  constructor
  · intro hserved
    have hagree : Agree blank m xs := fun x hx y hy p hp hp' =>
      (hserved x hx p hp).symm.trans (hserved y hy p hp')
    refine ⟨hagree, fun y hy hblank p b hb hne => ?_⟩
    by_contra hnone
    have hlaid := laid_taken hagree hsame
    refine hne ?_
    rw [← Item.overlay_of_patch hblank hb, ← hserved y hy p (Item.reads_of_patch hb)]
    refine hlaid.outside y hy p (Item.reads_of_patch hb) fun z hz => ?_
    exact not_isSome_iff_eq_none.mp fun hz' => hnone ⟨z, hz, hz'⟩
  · intro h y hy p hp
    have hlaid := laid_taken h.agree hsame
    rcases patch_cases (taken blank m xs) p with ⟨z, hz, b, hb⟩ | hnone
    · rw [hlaid.inside z hz p b hb, hlaid.wanted h.agree hy hz hp hb]
    · rw [hlaid.outside y hy p hp hnone]
      -- nobody changes this position, so no replacement of `y` does
      by_cases hblank : y.Blank blank m
      · cases hb : y.patch p with
        | none => rw [Item.overlay_of_none hb]
        | some b =>
          rw [Item.overlay_of_patch hblank hb]
          by_contra hne
          obtain ⟨z, hz, hz'⟩ := h.covered y hy hblank p b hb (Ne.symm hne)
          rw [hnone z hz] at hz'
          cases hz'
      · rw [Item.overlay_of_not_blank hblank]

/-- Items without a replacement are always coherent. -/
theorem coherent_of_no_patch (h : ∀ x ∈ xs, x.Blank blank m → ∀ p, x.patch p = none) :
    Coherent blank m xs where
  agree x hx y hy p _ _ := by
    have hid : ∀ z ∈ xs, z.overlay blank m p = m p := fun z hz => by
      by_cases hblank : z.Blank blank m
      · exact Item.overlay_of_none (h z hz hblank p)
      · rw [Item.overlay_of_not_blank hblank]
    rw [hid x hx, hid y hy]
  covered y hy hblank p b hb _ := by
    rw [h y hy hblank p] at hb
    cases hb

theorem subset_takenFrom {z : Item α β} (hz : z ∈ done) (rest : List (Item α β)) :
    z ∈ takenFrom blank m done rest := by
  induction rest generalizing done with
  | nil => exact hz
  | cons x rest ih =>
    rw [takenFrom]
    split
    · exact ih (mem_cons_of_mem x hz)
    · exact ih hz

/-- No position is read by two items of the list. -/
def Apart (x y : Item α β) : Prop := ∀ p ∈ x.reads, p ∉ y.reads

/-- A blank item that shares nothing with the others is taken. -/
theorem mem_takenFrom {y : Item α β} (hblank : y.Blank blank m) {rest : List (Item α β)} :
    ∀ {done : List (Item α β)}, (∀ z ∈ done, Apart z y) → rest.Pairwise Apart → y ∈ rest →
      y ∈ takenFrom blank m done rest := by
  induction rest with
  | nil => exact fun _ _ hy => nomatch hy
  | cons x rest ih =>
    intro done hdone hapart hy
    obtain ⟨hx, hrest⟩ := pairwise_cons.mp hapart
    rw [takenFrom]
    rcases mem_cons.mp hy with rfl | hmem
    · have hvisible : ¬ Hidden blank done y := by
        rintro ⟨z, hz, p, hp, b, hb, -⟩
        exact hdone z hz p (Item.reads_of_patch hb) (y.guard_reads p hp)
      rw [if_pos ⟨hblank, hvisible⟩]
      exact subset_takenFrom mem_cons_self rest
    · split
      · refine ih (fun z hz => ?_) hrest hmem
        rcases mem_cons.mp hz with rfl | hz
        · exact hx y hmem
        · exact hdone z hz
      · exact ih hdone hrest hmem

/-- Items that share nothing are coherent. -/
theorem coherent_of_apart (h : xs.Pairwise Apart) : Coherent blank m xs where
  agree x hx y hy := by
    have hsymm : Std.Symm fun x y : Item α β =>
        ∀ p ∈ x.reads, p ∈ y.reads → x.overlay blank m p = y.overlay blank m p :=
      ⟨fun x y hxy p hp hp' => (hxy p hp' hp).symm⟩
    have hagree := h.imp (S := fun x y => ∀ p ∈ x.reads, p ∈ y.reads →
      x.overlay blank m p = y.overlay blank m p) fun hxy p hp hp' => absurd hp' (hxy p hp)
    exact hagree.forall_of_forall (fun _ _ _ _ _ => rfl) hx hy
  covered y hy hblank p b hb _ :=
    ⟨y, mem_takenFrom hblank (fun z hz => nomatch hz) h hy, by rw [hb]; rfl⟩

end Overlay
