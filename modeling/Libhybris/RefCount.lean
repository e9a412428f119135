import Mathlib.Data.List.Count
import Mathlib.Data.List.Perm.Basic

/-!
# Reference-counted objects

A heap of objects that are destroyed when their last reference is dropped. The references are listed
by their owners, in any order: the heap is balanced when each object counts its entries in the list
and nothing in the list has been destroyed.
-/
namespace RefCount

open Option Function

variable {κ α : Type}

structure Object (α : Type) where
  refs : Nat
  value : α

/-- The objects that exist, by their address. -/
abbrev Heap (κ α : Type) := κ → Option (Object α)

/-- Every object of the second heap is one of the first, perhaps with other references. -/
def Keeps (h h' : Heap κ α) : Prop :=
  ∀ a o', h' a = some o' → ∃ o, h a = some o ∧ o.value = o'.value

theorem Keeps.rfl {h : Heap κ α} : Keeps h h := fun _ o ho => ⟨o, ho, Eq.refl _⟩

theorem Keeps.trans {h h' h'' : Heap κ α} (hk : Keeps h h') (hk' : Keeps h' h'') : Keeps h h'' := by
  intro a o'' ho''
  obtain ⟨o', ho', heq'⟩ := hk' a o'' ho''
  obtain ⟨o, ho, heq⟩ := hk a o' ho'
  exact ⟨o, ho, heq.trans heq'⟩

variable [DecidableEq κ]

section
variable (h : Heap κ α) (a : κ)

/-- A new object, with the reference of whoever made it. -/
def create (v : α) : Heap κ α := Function.update h a (some ⟨1, v⟩)

def retain : Heap κ α :=
  Function.update h a ((h a).map fun o => { o with refs := o.refs + 1 })

/-- Drop a reference; the last one takes the object with it. -/
def release : Heap κ α :=
  Function.update h a
    ((h a).bind fun o => if o.refs = 1 then none else some { o with refs := o.refs - 1 })

def modify (f : α → α) : Heap κ α :=
  Function.update h a ((h a).map fun o => { o with value := f o.value })

end

/-- Each object counts the references that `owners` lists, and every reference is to an object. -/
def Balanced (h : Heap κ α) (owners : List κ) : Prop :=
  ∀ a, match h a with
    | some o => o.refs = owners.count a ∧ 0 < owners.count a
    | none => owners.count a = 0

variable {h : Heap κ α} {owners owners' : List κ} {a x : κ}

theorem balanced_empty : Balanced (fun _ => none : Heap κ α) [] := fun _ => rfl

section
variable (hb : Balanced h owners)
include hb

theorem Balanced.perm (hp : owners.Perm owners') : Balanced h owners' := by
  intro x
  have hx := hb x
  rw [hp.count_eq x] at hx
  exact hx

theorem Balanced.exists (ha : a ∈ owners) : ∃ o, h a = some o := by
  have hx := hb a
  have hpos := List.count_pos_iff.mpr ha
  cases hh : h a with
  | none =>
    rw [hh] at hx
    omega
  | some o => exact ⟨o, rfl⟩

theorem Balanced.not_mem (ha : h a = none) : a ∉ owners := by
  intro hm
  obtain ⟨o, ho⟩ := hb.exists hm
  rw [ha] at ho
  cases ho

theorem Balanced.mem {o : Object α} (ha : h a = some o) : a ∈ owners := by
  have hx := hb a
  rw [ha] at hx
  exact List.count_pos_iff.mp hx.2

/-- A change at one address, with the count it has then. -/
theorem Balanced.update {v : Option (Object α)}
    (hother : ∀ x, x ≠ a → owners'.count x = owners.count x) (ha : match v with
      | some o => o.refs = owners'.count a ∧ 0 < owners'.count a
      | none => owners'.count a = 0) : Balanced (Function.update h a v) owners' := by
  intro x
  by_cases hx : x = a
  · subst hx
    rw [update_self]
    exact ha
  · rw [update_of_ne hx, hother x hx]
    exact hb x

end

theorem Balanced.create (hb : Balanced h owners) (ha : h a = none) (v : α) :
    Balanced (create h a v) (a :: owners) := by
  have hzero : owners.count a = 0 := List.count_eq_zero.mpr (hb.not_mem ha)
  exact hb.update (fun x hx => List.count_cons_of_ne hx.symm) (by simp [hzero])

theorem Balanced.retain (hb : Balanced h owners) (ha : a ∈ owners) :
    Balanced (retain h a) (a :: owners) := by
  obtain ⟨o, ho⟩ := hb.exists ha
  have hx := hb a
  rw [ho] at hx
  refine hb.update (fun x hx => List.count_cons_of_ne hx.symm) ?_
  rw [ho]
  simp only [map_some, List.count_cons_self]
  omega

theorem Balanced.release (hb : Balanced h (a :: owners)) : Balanced (release h a) owners := by
  obtain ⟨o, ho⟩ := hb.exists List.mem_cons_self
  have hx := hb a
  rw [ho, List.count_cons_self] at hx
  simp only at hx
  refine hb.update (fun x hx => (List.count_cons_of_ne hx.symm).symm) ?_
  rw [ho, bind_some]
  by_cases hlast : o.refs = 1
  · rw [if_pos hlast]
    simp only
    omega
  · rw [if_neg hlast]
    simp only
    omega

theorem Balanced.modify (hb : Balanced h owners) (a : κ) (f : α → α) :
    Balanced (modify h a f) owners := by
  refine hb.update (fun _ _ => rfl) ?_
  have hx := hb a
  cases hh : h a with
  | none => rw [hh] at hx; exact hx
  | some o => rw [hh] at hx; exact hx

theorem Balanced.releaseAll {dropped : List κ} (hb : Balanced h (dropped ++ owners)) :
    Balanced (dropped.foldl RefCount.release h) owners := by
  induction dropped generalizing h with
  | nil => exact hb
  | cons a dropped ih => exact ih hb.release

/-! ## Values -/

theorem keeps_retain (h : Heap κ α) (a : κ) : Keeps h (retain h a) := by
  intro x o' ho'
  by_cases hx : x = a
  · subst hx
    rw [retain, update_self, map_eq_some_iff] at ho'
    obtain ⟨o, ho, rfl⟩ := ho'
    exact ⟨o, ho, rfl⟩
  · rw [retain, update_of_ne hx] at ho'
    exact ⟨o', ho', rfl⟩

theorem keeps_release (h : Heap κ α) (a : κ) : Keeps h (release h a) := by
  intro x o' ho'
  by_cases hx : x = a
  · subst hx
    rw [release, update_self, bind_eq_some_iff] at ho'
    obtain ⟨o, ho, hif⟩ := ho'
    split at hif
    case isTrue => cases hif
    case isFalse => cases hif; exact ⟨o, ho, rfl⟩
  · rw [release, update_of_ne hx] at ho'
    exact ⟨o', ho', rfl⟩

theorem keeps_releaseAll (dropped : List κ) (h : Heap κ α) :
    Keeps h (dropped.foldl release h) := by
  induction dropped generalizing h with
  | nil => exact Keeps.rfl
  | cons a dropped ih => exact (keeps_release h a).trans (ih (release h a))

/-- The value after a change at one address. -/
theorem modify_eq_some {f : α → α} {o' : Object α} (ho' : modify h a f x = some o') :
    ∃ o, h x = some o ∧ o'.value = if x = a then f o.value else o.value := by
  by_cases hx : x = a
  · subst hx
    rw [modify, update_self, map_eq_some_iff] at ho'
    obtain ⟨o, ho, rfl⟩ := ho'
    exact ⟨o, ho, (if_pos rfl).symm⟩
  · rw [modify, update_of_ne hx] at ho'
    exact ⟨o', ho', (if_neg hx).symm⟩

theorem create_eq_some {v : α} {o' : Object α} (ho' : create h a v x = some o') :
    (x = a ∧ o'.value = v) ∨ (x ≠ a ∧ h x = some o') := by
  by_cases hx : x = a
  · subst hx
    rw [create, update_self] at ho'
    cases ho'
    exact .inl ⟨rfl, rfl⟩
  · rw [create, update_of_ne hx] at ho'
    exact .inr ⟨hx, ho'⟩

/-! ## Values by address -/

section
variable (h : Heap κ α) (a : κ)

def values : Option α := (h a).map Object.value

@[simp] theorem values_retain : values (retain h a) = values h := by
  funext x
  by_cases hx : x = a
  · subst hx
    rw [values, retain, update_self, map_map]
    rfl
  · rw [values, retain, update_of_ne hx]
    rfl

theorem values_modify (f : α → α) (x : κ) :
    values (modify h a f) x = if x = a then (values h a).map f else values h x := by
  by_cases hx : x = a
  · subst hx
    rw [if_pos rfl, values, values, modify, update_self, map_map, map_map]
    rfl
  · rw [if_neg hx, values, values, modify, update_of_ne hx]

theorem values_create (v : α) (x : κ) :
    values (create h a v) x = if x = a then some v else values h x := by
  by_cases hx : x = a
  · subst hx
    rw [if_pos rfl, values, create, update_self]
    rfl
  · rw [if_neg hx, values, values, create, update_of_ne hx]

end

theorem values_release_of_ne (hx : x ≠ a) : values (release h a) x = values h x := by
  rw [values, values, release, update_of_ne hx]

/-- An object that still has an owner keeps its value. -/
theorem Balanced.values_release (hb : Balanced h (a :: owners)) (hx : x ∈ owners) :
    values (RefCount.release h a) x = values h x := by
  obtain ⟨o', ho'⟩ := hb.release.exists hx
  obtain ⟨o, ho, heq⟩ := keeps_release h a x o' ho'
  rw [values, values, ho, ho', map_some, map_some, heq]

theorem values_release_some {v : α} (hv : values (release h a) x = some v) : values h x = some v := by
  obtain ⟨o', ho', rfl⟩ := map_eq_some_iff.mp hv
  obtain ⟨o, ho, heq⟩ := keeps_release h a x o' ho'
  rw [values, ho, map_some, heq]

theorem Balanced.values_isSome (hb : Balanced h owners) : (values h a).isSome ↔ a ∈ owners := by
  rw [values, isSome_map]
  constructor
  · intro hs
    obtain ⟨o, ho⟩ := isSome_iff_exists.mp hs
    exact hb.mem ho
  · intro ha
    obtain ⟨o, ho⟩ := hb.exists ha
    rw [ho]
    rfl

end RefCount
