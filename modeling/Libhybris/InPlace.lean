import Mathlib.Data.List.Induction

/-!
# An array filled from the front, with repeats dropped in place

An array is a list of fixed length; a write outside it does not succeed. A run of values is stored
behind what is already kept, and the values not seen in the run so far are moved to its front. What
is kept then is the run without repeats, each value where it first stood.
-/
namespace InPlace

open List

variable {α : Type} [DecidableEq α]

def put (array : List α) (i : Nat) (a : α) : Option (List α) :=
  if i < array.length then some (array.set i a) else none

/-- Consecutive writes from place `i` on. -/
def store (array : List α) (i : Nat) : List α → Option (List α)
  | [] => some array
  | a :: as => (put array i a).bind (store · (i + 1) as)

/-- Looks at `count` values from place `i` on; the ones that do not stand between `start` and `used`
are moved to place `used`. -/
def squeeze (start : Nat) : Nat → List α → Nat → Nat → Option (List α × Nat)
  | 0, array, _, used => some (array, used)
  | count + 1, array, i, used =>
    array[i]?.bind fun a =>
      if a ∈ (array.take used).drop start then squeeze start count array (i + 1) used
      else (put array used a).bind (squeeze start count · (i + 1) (used + 1))

variable {array : List α} {i : Nat}

omit [DecidableEq α] in
theorem put_eq_some (a : α) (h : i < array.length) : put array i a = some (array.set i a) := if_pos h

omit [DecidableEq α] in
theorem take_set_succ (a : α) (h : i < array.length) :
    (array.set i a).take (i + 1) = array.take i ++ [a] := by
  rw [take_add_one, take_set_of_le (Nat.le_refl _), getElem?_set_self h]
  rfl

omit [DecidableEq α] in
/-- Values are stored behind what stands before place `i`. -/
theorem store_spec {as : List α} (h : i + as.length ≤ array.length) :
    ∃ array', store array i as = some array' ∧ array'.length = array.length ∧
      array'.take i = array.take i ∧ (array'.drop i).take as.length = as := by
  induction as generalizing array i with
  | nil => exact ⟨array, rfl, rfl, rfl, by rw [length_nil, take_zero]⟩
  | cons a as ih =>
    rw [length_cons] at h
    have hput := put_eq_some a (show i < array.length by omega)
    obtain ⟨array', hstore, hlength, hbefore, hbehind⟩ :=
      ih (show i + 1 + as.length ≤ (array.set i a).length by rw [length_set]; omega)
    refine ⟨array', by rw [store, hput, Option.bind_some, hstore], ?_, ?_, ?_⟩
    · rw [hlength, length_set]
    · have hshort := congrArg (List.take i) hbefore
      rwa [take_take, take_take, Nat.min_eq_left (by omega), take_set_of_le (Nat.le_refl _)] at hshort
    · have hhead : array'[i]? = some a := by
        have hlast := congrArg (·[i]?) hbefore
        simpa [getElem?_take, getElem?_set_self (show i < array.length by omega)] using hlast
      have hi : i < array'.length := (List.getElem?_eq_some_iff.mp hhead).1
      have hget : array'[i] = a := (List.getElem?_eq_some_iff.mp hhead).2
      rw [drop_eq_getElem_cons hi, hget, length_cons, take_succ_cons, hbehind]

/-- One more value at the end of a run. -/
theorem eraseDups_concat (seen : List α) (a : α) :
    (seen ++ [a]).eraseDups = if a ∈ seen then seen.eraseDups else seen.eraseDups ++ [a] := by
  rw [eraseDups_append]
  by_cases h : a ∈ seen <;> simp [List.removeAll, h, eraseDups_cons]

theorem nodup_eraseDups (as : List α) : as.eraseDups.Nodup := by
  induction as using List.reverseRecOn with
  | nil => exact .nil
  | append_singleton as a ih =>
    rw [eraseDups_concat]
    split
    · exact ih
    · next h =>
      refine nodup_append.mpr ⟨ih, pairwise_singleton _ a, ?_⟩
      rintro x hx y hy rfl
      rw [mem_singleton.mp hy] at hx
      exact h (mem_eraseDups.mp hx)

/-- After the loop the run without repeats stands behind what was kept. `seen` is the part of the
run looked at, the rest of it still stands from place `i` on, at or behind place `used`. -/
theorem squeeze_spec {start count used : Nat} {kept seen rest : List α} (hstart : kept.length = start)
    (hused : used ≤ i) (hfit : i + count ≤ array.length) (hkept : array.take used = kept ++ seen.eraseDups)
    (hlength : kept.length + seen.eraseDups.length = used) (hrest : (array.drop i).take count = rest) :
    ∃ array' used', squeeze start count array i used = some (array', used') ∧
      array'.length = array.length ∧ used' ≤ i + count ∧
      array'.take used' = kept ++ (seen ++ rest).eraseDups := by
  induction count generalizing array i used seen rest with
  | zero =>
    rw [take_zero] at hrest
    subst hrest
    exact ⟨array, used, rfl, rfl, hused, by rw [hkept, append_nil]⟩
  | succ count ih =>
    have hi : i < array.length := by omega
    rw [drop_eq_getElem_cons hi, take_succ_cons] at hrest
    obtain ⟨a, ha⟩ : ∃ a, array[i] = a := ⟨_, rfl⟩
    rw [ha] at hrest
    have hstep : squeeze start (count + 1) array i used =
        if a ∈ seen then squeeze start count array (i + 1) used
        else (put array used a).bind (squeeze start count · (i + 1) (used + 1)) := by
      rw [squeeze, getElem?_eq_getElem hi, Option.bind_some, ha, hkept, ← hstart, drop_left]
      simp only [mem_eraseDups]
    have hrun : seen ++ rest = (seen ++ [a]) ++ (array.drop (i + 1)).take count := by
      rw [← hrest, append_assoc, singleton_append]
    rw [hstep, hrun]
    by_cases hseen : a ∈ seen
    · have hsame : (seen ++ [a]).eraseDups = seen.eraseDups := by rw [eraseDups_concat, if_pos hseen]
      rw [← hsame] at hkept hlength
      have hnext : used ≤ i + 1 := by omega
      have hroom : i + 1 + count ≤ array.length := by omega
      obtain ⟨array', used', hsqueeze, hsize, hbound, htaken⟩ := ih hnext hroom hkept hlength rfl
      exact ⟨array', used', by rw [if_pos hseen, hsqueeze], hsize, by omega, htaken⟩
    · have hmore : (seen ++ [a]).eraseDups = seen.eraseDups ++ [a] := by rw [eraseDups_concat, if_neg hseen]
      have hnext : used + 1 ≤ i + 1 := by omega
      have hroom : i + 1 + count ≤ (array.set used a).length := by rw [length_set]; omega
      have htaken : (array.set used a).take (used + 1) = kept ++ (seen ++ [a]).eraseDups := by
        rw [take_set_succ a (by omega), hkept, hmore, append_assoc]
      have hcount : kept.length + (seen ++ [a]).eraseDups.length = used + 1 := by
        rw [hmore, length_append, length_singleton]
        omega
      have hbehind : ((array.set used a).drop (i + 1)).take count = (array.drop (i + 1)).take count := by
        rw [drop_set_of_lt (by omega)]
      obtain ⟨array', used', hsqueeze, hsize, hbound, hresult⟩ := ih hnext hroom htaken hcount hbehind
      refine ⟨array', used', ?_, ?_, by omega, hresult⟩
      · rw [if_neg hseen, put_eq_some a (by omega), Option.bind_some, hsqueeze]
      · rw [hsize, length_set]

end InPlace
