import Mathlib.Data.List.Sort
import Mathlib.Data.List.Perm.Basic

/-!
# Binary search and sorting by a key

The loop of `bsearch`: an interval is halved until an element compares equal. On any array a hit has
the key; on a sorted array a miss means that no element has it. Which element is hit depends on the
outcomes of the comparisons only. A sort is any function whose results are sorted permutations.
-/
namespace BinarySearch

open List

variable {α κ : Type}

/-- The loop; `c` compares the key that is searched with an element. -/
def loop (c : α → Ordering) (xs : List α) : Nat → Nat → Nat → Option Nat
  | 0, _, _ => none
  | fuel + 1, l, u =>
    if l < u then
      match (xs[(l + u) / 2]?).map c with
      | none => none
      | some .lt => loop c xs fuel l ((l + u) / 2)
      | some .gt => loop c xs fuel ((l + u) / 2 + 1) u
      | some .eq => some ((l + u) / 2)
    else none

/-- The index that is hit. The interval gets shorter in every turn. -/
def bsearch (c : α → Ordering) (xs : List α) : Option Nat := loop c xs xs.length 0 xs.length

/-- The outcomes of the comparisons decide. -/
theorem loop_map (c : α → Ordering) (xs : List α) (fuel l u : Nat) :
    loop id (xs.map c) fuel l u = loop c xs fuel l u := by
  induction fuel generalizing l u with
  | zero => rfl
  | succ fuel ih =>
    simp only [loop, ih, getElem?_map, Option.map_map, Function.id_comp]

theorem bsearch_map (c : α → Ordering) (xs : List α) : bsearch id (xs.map c) = bsearch c xs := by
  rw [bsearch, bsearch, length_map, loop_map]

variable {c : α → Ordering} {xs : List α} {p : Nat}

theorem loop_eq_some {fuel l u : Nat} (h : loop c xs fuel l u = some p) :
    ∃ x, xs[p]? = some x ∧ c x = .eq := by
  induction fuel generalizing l u with
  | zero => cases h
  | succ fuel ih =>
    rw [loop] at h
    split at h
    next =>
      split at h
      next => cases h
      next => exact ih h
      next => exact ih h
      next heq =>
        cases h
        obtain ⟨x, hx, hc⟩ := Option.map_eq_some_iff.mp heq
        exact ⟨x, hx, hc⟩
    next => cases h

theorem bsearch_eq_some (h : bsearch c xs = some p) : ∃ x, xs[p]? = some x ∧ c x = .eq := loop_eq_some h

/-- Elements come in the order less, equal, greater, seen from the array. -/
def Monotone (c : α → Ordering) (xs : List α) : Prop :=
  xs.Pairwise fun a b => (c a = .lt → c b = .lt) ∧ (c b = .gt → c a = .gt)

variable {x y : α} {q : Nat}

section
variable (h : Monotone c xs)
include h

theorem Monotone.lt_before {m : Nat} (hm : xs[m]? = some x) (hq : xs[q]? = some y)
    (hx : c x = .lt) (hy : c y = .eq) : q < m := by
  obtain ⟨hmlt, rfl⟩ := List.getElem?_eq_some_iff.mp hm
  obtain ⟨hqlt, rfl⟩ := List.getElem?_eq_some_iff.mp hq
  rcases Nat.lt_trichotomy q m with hlt | rfl | hlt
  · exact hlt
  · rw [hx] at hy
    cases hy
  · have hpair := pairwise_iff_getElem.mp h m q hmlt hqlt hlt
    rw [hpair.1 hx] at hy
    cases hy

theorem Monotone.gt_behind {m : Nat} (hm : xs[m]? = some x) (hq : xs[q]? = some y)
    (hx : c x = .gt) (hy : c y = .eq) : m < q := by
  obtain ⟨hmlt, rfl⟩ := List.getElem?_eq_some_iff.mp hm
  obtain ⟨hqlt, rfl⟩ := List.getElem?_eq_some_iff.mp hq
  rcases Nat.lt_trichotomy q m with hlt | rfl | hlt
  · have hpair := pairwise_iff_getElem.mp h q m hqlt hmlt hlt
    rw [hpair.2 hx] at hy
    cases hy
  · rw [hx] at hy
    cases hy
  · exact hlt

/-- An element in the interval that compares equal is not missed. -/
theorem loop_isSome {fuel l u : Nat} (hfuel : u - l ≤ fuel) (hu : u ≤ xs.length)
    (hl : l ≤ q) (hqu : q < u) (hq : xs[q]? = some y) (hy : c y = .eq) :
    (loop c xs fuel l u).isSome = true := by
  induction fuel generalizing l u with
  | zero => omega
  | succ fuel ih =>
    have hmid : (l + u) / 2 < xs.length := by omega
    have hget := getElem?_eq_getElem hmid
    rw [loop, if_pos (by omega), hget, Option.map_some]
    cases hc : c xs[(l + u) / 2] with
    | lt =>
      have hlt := h.lt_before hget hq hc hy
      exact ih (by omega) (by omega) hl hlt
    | gt =>
      have hgt := h.gt_behind hget hq hc hy
      exact ih (by omega) hu hgt hqu
    | eq => rfl

theorem bsearch_isSome (hmem : y ∈ xs) (hy : c y = .eq) :
    (bsearch c xs).isSome = true := by
  obtain ⟨q, hq⟩ := mem_iff_getElem?.mp hmem
  have hlt := (List.getElem?_eq_some_iff.mp hq).1
  exact loop_isSome h (by omega) le_rfl (Nat.zero_le q) hlt hq hy

end

/-! ## Arrays sorted by a key -/

/-- Exchanging two elements with one key in a sorted array. -/
theorem exchange {key : α → κ} (hp : p < xs.length) (hq : q < xs.length)
    (hkey : key xs[p] = key xs[q]) : ((xs.set p xs[q]).set q xs[p]).map key = xs.map key := by
  apply ext_getElem
  · simp
  · intro n hn hn'
    simp only [getElem_map, getElem_set]
    split_ifs with h h'
    · subst h
      exact hkey
    · subst h'
      exact hkey.symm
    · rfl

variable [Ord κ]

/-- The element with a key that the search hits. -/
def find (key : α → κ) (xs : List α) (k : κ) : Option α :=
  (bsearch (fun x => compare k (key x)) xs).bind fun p => xs[p]?

def Sorted (key : α → κ) (xs : List α) : Prop := xs.Pairwise fun a b => compare (key a) (key b) ≠ .gt

/-- Sorted, and no key twice. -/
def Strict (key : α → κ) (xs : List α) : Prop := xs.Pairwise fun a b => compare (key a) (key b) = .lt

/-- A function that sorts by a key. -/
structure Sorter (key : α → κ) where
  sort : List α → List α
  perm : ∀ xs, (sort xs).Perm xs
  sorted : ∀ xs, Sorted key (sort xs)

section Find

variable {key : α → κ} {k : κ}

theorem Sorted.of_map {ys : List α} (h : Sorted key xs) (hmap : ys.map key = xs.map key) :
    Sorted key ys := by
  have hpairs : (xs.map key).Pairwise fun a b => compare a b ≠ .gt := pairwise_map.mpr h
  rw [← hmap] at hpairs
  exact pairwise_map.mp hpairs

theorem Strict.sorted (h : Strict key xs) : Sorted key xs := by
  refine List.Pairwise.imp (fun {a b} hlt hgt => ?_) h
  rw [hlt] at hgt
  cases hgt

theorem find_eq_bsearch (h : bsearch (fun x => compare k (key x)) xs = some p) :
    find key xs k = xs[p]? := by
  rw [find, h, Option.bind_some]

theorem find_isSome_iff : (find key xs k).isSome = (bsearch (fun x => compare k (key x)) xs).isSome := by
  cases hb : bsearch (fun x => compare k (key x)) xs with
  | none => rw [find, hb]; rfl
  | some p =>
    obtain ⟨x, hx, -⟩ := bsearch_eq_some hb
    rw [find_eq_bsearch hb, hx]
    rfl

theorem Sorted.monotone [Std.TransOrd κ] (h : Sorted key xs) (k : κ) :
    Monotone (fun x => compare k (key x)) xs := by
  refine List.Pairwise.imp (fun {a b} hab => ?_) h
  have hle : (compare (key a) (key b)).isLE = true := by
    cases hc : compare (key a) (key b) with
    | lt => rfl
    | eq => rfl
    | gt => exact absurd hc hab
  constructor
  · intro hlt
    exact Std.TransCmp.lt_of_lt_of_isLE hlt hle
  · intro hgt
    rw [Std.OrientedCmp.gt_iff_lt] at hgt ⊢
    exact Std.TransCmp.lt_of_isLE_of_lt hle hgt

variable [Std.LawfulEqOrd κ]

theorem Strict.nodup (h : Strict key xs) : (xs.map key).Nodup := by
  refine pairwise_map.mpr (List.Pairwise.imp (fun {a b} hlt heq => ?_) h)
  rw [heq, Std.LawfulEqOrd.compare_eq_iff_eq.mpr rfl] at hlt
  cases hlt

theorem Sorted.strict (h : Sorted key xs) (hnodup : (xs.map key).Nodup) : Strict key xs := by
  refine List.Pairwise.imp (fun {a b} hab => ?_) (List.Pairwise.and h (pairwise_map.mp hnodup))
  cases hc : compare (key a) (key b) with
  | lt => rfl
  | eq => exact absurd (Std.LawfulEqOrd.eq_of_compare hc) hab.2
  | gt => exact absurd hc hab.1

theorem find_eq_some (h : find key xs k = some x) : x ∈ xs ∧ key x = k := by
  obtain ⟨p, hp, hx⟩ := Option.bind_eq_some_iff.mp h
  obtain ⟨y, hy, hc⟩ := bsearch_eq_some hp
  rw [hx] at hy
  cases hy
  exact ⟨mem_of_getElem? hx, (Std.LawfulEqOrd.eq_of_compare hc).symm⟩

variable [Std.TransOrd κ]

theorem find_isSome (h : Sorted key xs) (hx : x ∈ xs) : (find key xs (key x)).isSome = true := by
  rw [find_isSome_iff]
  exact bsearch_isSome (h.monotone (key x)) hx (Std.LawfulEqOrd.compare_eq_iff_eq.mpr rfl)

/-- On a sorted array the search misses exactly the keys nobody has. -/
theorem find_eq_none_iff (h : Sorted key xs) : find key xs k = none ↔ ∀ x ∈ xs, key x ≠ k := by
  constructor
  · rintro hnone x hx rfl
    have hsome := find_isSome h hx
    rw [hnone] at hsome
    cases hsome
  · intro hnone
    cases hfind : find key xs k with
    | none => rfl
    | some x =>
      obtain ⟨hx, hk⟩ := find_eq_some hfind
      exact absurd hk (hnone x hx)

end Find

section Sorter

variable {key : α → κ} [Std.TransOrd κ]

/-- Insertion sort is one, and keeps the order of elements with one key. -/
def Sorter.insertion (key : α → κ) : Sorter key where
  sort := fun xs => xs.insertionSort fun a b => compare (key a) (key b) ≠ .gt
  perm := fun xs => xs.perm_insertionSort _
  sorted := by
    intro xs
    have : Std.Total fun a b : α => compare (key a) (key b) ≠ .gt := ⟨fun a b => by
      by_contra hboth
      obtain ⟨hab, hba⟩ := not_or.mp hboth
      rw [not_not, Std.OrientedCmp.gt_iff_lt] at hab
      exact hba (by rw [hab]; decide)⟩
    have : IsTrans α fun a b => compare (key a) (key b) ≠ .gt := ⟨fun a b c hab hbc => by
      rw [ne_eq, ← Ordering.isLE_iff_ne_gt] at hab hbc ⊢
      exact Std.TransCmp.isLE_trans hab hbc⟩
    exact xs.pairwise_insertionSort _

/-- Whichever element has a key, some sort puts it where the search hits. -/
theorem exists_sorter_find [Std.LawfulEqOrd κ] (hx : x ∈ xs) :
    ∃ s : Sorter key, find key (s.sort xs) (key x) = some x := by
  classical
  have hperm := (Sorter.insertion key).perm xs
  have hsorted := (Sorter.insertion key).sorted xs
  generalize (Sorter.insertion key).sort xs = ys at hperm hsorted
  have hmem : x ∈ ys := hperm.mem_iff.mpr hx
  obtain ⟨q, hq, rfl⟩ := mem_iff_getElem.mp hmem
  obtain ⟨p, hp⟩ := Option.isSome_iff_exists.mp (bsearch_isSome (hsorted.monotone (key ys[q])) hmem
    (Std.LawfulEqOrd.compare_eq_iff_eq.mpr rfl))
  obtain ⟨y, hy, hc⟩ := bsearch_eq_some hp
  obtain ⟨hplt, rfl⟩ := List.getElem?_eq_some_iff.mp hy
  have hkey : key ys[p] = key ys[q] := (Std.LawfulEqOrd.eq_of_compare hc).symm
  -- the two elements change places
  have hmap := exchange hplt hq hkey
  have hperm' : ((ys.set p ys[q]).set q ys[p]).Perm xs := (set_set_perm hplt hq).trans hperm
  refine ⟨⟨fun zs =>
    if zs = xs then (ys.set p ys[q]).set q ys[p] else (Sorter.insertion key).sort zs, ?_, ?_⟩, ?_⟩
  · intro zs
    split_ifs with h
    · rw [h]
      exact hperm'
    · exact (Sorter.insertion key).perm zs
  · intro zs
    split_ifs
    · exact hsorted.of_map hmap
    · exact (Sorter.insertion key).sorted zs
  · have hhit : bsearch (fun x => compare (key ys[q]) (key x)) ((ys.set p ys[q]).set q ys[p]) = some p := by
      have hcomp := congrArg (List.map fun k => compare (key ys[q]) k) hmap
      rw [map_map, map_map] at hcomp
      exact (bsearch_map _ _).symm.trans ((congrArg (bsearch id) hcomp).trans ((bsearch_map _ _).trans hp))
    simp only [if_pos]
    rw [find_eq_bsearch hhit, getElem?_set, getElem?_set_self hplt]
    split_ifs with h h'
    · subst h
      rfl
    · simp at h'
      omega
    · rfl

end Sorter

end BinarySearch
