import Mathlib.Data.List.Nodup

/-!
# Linked lists searched by key

Lookup, update and removal of the first element with a given key, as a
pointer walk over a linked list does them. When the keys are distinct the
lists behave as finite maps; the lemmas state this through lookup.
-/
namespace Registry

open List

variable {α κ : Type} [DecidableEq κ] (key : α → κ)

def lookup (k : κ) (l : List α) : Option α := l.find? (fun a => key a = k)

def modify (k : κ) (f : α → α) : List α → List α
  | [] => []
  | a :: rest => if key a = k then f a :: rest else a :: modify k f rest

def remove (k : κ) (l : List α) : List α := l.eraseP (fun a => key a = k)

@[simp] theorem lookup_nil (k : κ) : lookup key k [] = none := rfl

theorem lookup_cons (k : κ) (a : α) (l : List α) :
    lookup key k (a :: l) = if key a = k then some a else lookup key k l := by
  by_cases h : key a = k <;> simp [lookup, h]

variable {l : List α} {k : κ} {f : α → α} {a : α}

theorem key_of_lookup (h : lookup key k l = some a) : key a = k := by
  simpa using find?_some h

theorem mem_of_lookup (h : lookup key k l = some a) : a ∈ l :=
  mem_of_find?_eq_some h

theorem lookup_eq_none : lookup key k l = none ↔ ∀ a ∈ l, key a ≠ k := by
  simp [lookup, find?_eq_none]

/-- With distinct keys every element is found under its key. -/
theorem lookup_of_mem (hn : (l.map key).Nodup) (h : a ∈ l) : lookup key (key a) l = some a := by
  induction l with
  | nil => simp at h
  | cons b l ih =>
    obtain ⟨hb, hl⟩ := nodup_cons.mp hn
    rcases mem_cons.mp h with rfl | h
    · simp [lookup_cons]
    · have hne : key b ≠ key a := fun he => hb (he ▸ mem_map_of_mem h)
      rw [lookup_cons, if_neg hne]
      exact ih hl h

/-- The update, read as an update of the finite map. -/
theorem lookup_modify (k k' : κ) (f : α → α) (hf : ∀ a, key a = k → key (f a) = k) (l : List α) :
    lookup key k' (modify key k f l) =
      if k' = k then (lookup key k l).map f else lookup key k' l := by
  induction l with
  | nil => simp [modify]
  | cons a l ih =>
    by_cases h : key a = k
    · by_cases hk : k' = k
      · simp [modify, lookup_cons, h, hf a h, hk]
      · simp [modify, lookup_cons, h, hf a h, hk, Ne.symm hk]
    · rw [modify, if_neg h, lookup_cons, ih, lookup_cons, lookup_cons, if_neg h]
      by_cases hk : k' = k
      · rw [if_pos hk, if_pos hk, if_neg (hk ▸ h)]
      · rw [if_neg hk, if_neg hk]

theorem mem_modify {x : α} (h : x ∈ modify key k f l) :
    (∃ a, lookup key k l = some a ∧ x = f a) ∨ x ∈ l := by
  induction l with
  | nil => simp [modify] at h
  | cons a l ih =>
    by_cases hk : key a = k
    · simp only [modify, hk, if_true, mem_cons] at h
      rcases h with h | h
      · exact .inl ⟨a, by simp [lookup_cons, hk], h⟩
      · exact .inr (mem_cons_of_mem a h)
    · simp only [modify, hk, if_false, mem_cons] at h
      rcases h with h | h
      · exact .inr (h ▸ mem_cons_self)
      · rcases ih h with ⟨b, hb, hx⟩ | hx
        · exact .inl ⟨b, by simp [lookup_cons, hk, hb], hx⟩
        · exact .inr (mem_cons_of_mem a hx)

/-- With distinct keys, the elements of other keys stay and the one of the key is replaced. -/
theorem mem_modify_of_nodup (hn : (l.map key).Nodup) {x : α} (h : x ∈ modify key k f l) :
    (∃ a, lookup key k l = some a ∧ x = f a) ∨ x ∈ l ∧ key x ≠ k := by
  induction l with
  | nil => simp [modify] at h
  | cons a l ih =>
    obtain ⟨ha, hl⟩ := nodup_cons.mp hn
    by_cases hk : key a = k
    · simp only [modify, hk, if_true, mem_cons] at h
      rcases h with h | h
      · exact .inl ⟨a, by simp [lookup_cons, hk], h⟩
      · exact .inr ⟨mem_cons_of_mem a h, fun he => ha (hk ▸ he ▸ mem_map_of_mem h)⟩
    · simp only [modify, hk, if_false, mem_cons] at h
      rcases h with h | h
      · exact .inr ⟨h ▸ mem_cons_self, h ▸ hk⟩
      · rcases ih hl h with ⟨b, hb, hx⟩ | ⟨hx, hne⟩
        · exact .inl ⟨b, by simp [lookup_cons, hk, hb], hx⟩
        · exact .inr ⟨mem_cons_of_mem a hx, hne⟩

theorem modify_mem (k : κ) (h : a ∈ l) : a ∈ modify key k f l ∨ f a ∈ modify key k f l := by
  induction l with
  | nil => cases h
  | cons b l ih =>
    rw [modify]
    rcases mem_cons.mp h with rfl | h
    · split
      · exact .inr mem_cons_self
      · exact .inl mem_cons_self
    · split
      · exact .inl (mem_cons_of_mem _ h)
      · exact (ih h).imp (mem_cons_of_mem b) (mem_cons_of_mem b)

/-- What the update does not touch. -/
theorem map_modify {β : Type} {g : α → β} (k : κ) {f : α → α} (hg : ∀ a, g (f a) = g a)
    (l : List α) : (modify key k f l).map g = l.map g := by
  induction l with
  | nil => rfl
  | cons a l ih =>
    rw [modify]
    split
    · rw [map_cons, map_cons, hg]
    · rw [map_cons, map_cons, ih]

theorem remove_sublist (k : κ) (l : List α) : (remove key k l).Sublist l :=
  eraseP_sublist

theorem nodup_remove (hn : (l.map key).Nodup) : ((remove key k l).map key).Nodup :=
  hn.sublist ((remove_sublist key k l).map key)

theorem lookup_remove_ne {k' : κ} (hk : k' ≠ k) (l : List α) :
    lookup key k' (remove key k l) = lookup key k' l := by
  induction l with
  | nil => rfl
  | cons a l ih =>
    by_cases h : key a = k
    · simp [remove, lookup_cons, h, Ne.symm hk]
    · rw [remove] at ih
      simp [remove, lookup_cons, h, ih]

theorem lookup_remove_self (hn : (l.map key).Nodup) : lookup key k (remove key k l) = none := by
  induction l with
  | nil => rfl
  | cons a l ih =>
    obtain ⟨ha, hl⟩ := nodup_cons.mp hn
    by_cases h : key a = k
    · have hrest : lookup key k l = none := by
        rw [lookup_eq_none]
        intro b hb he
        exact ha (by rw [h, ← he]; exact mem_map_of_mem hb)
      simpa [remove, h] using hrest
    · have hi := ih hl
      rw [remove] at hi
      simp [remove, lookup_cons, h, hi]

theorem lookup_remove {k' : κ} (hn : (l.map key).Nodup) :
    lookup key k' (remove key k l) = if k' = k then none else lookup key k' l := by
  by_cases h : k' = k
  · subst h
    simp [lookup_remove_self key hn]
  · simp [h, lookup_remove_ne key h]

/-- The element found splits the list; update and removal act at the split. -/
theorem exists_split (h : lookup key k l = some a) :
    ∃ before after, l = before ++ a :: after ∧ remove key k l = before ++ after ∧
      ∀ f, modify key k f l = before ++ f a :: after := by
  induction l with
  | nil => simp at h
  | cons b l ih =>
    by_cases hk : key b = k
    · have he : b = a := by simpa [lookup_cons, hk] using h
      subst he
      exact ⟨[], l, rfl, by simp [remove, hk], fun f => by simp [modify, hk]⟩
    · have h' : lookup key k l = some a := by simpa [lookup_cons, hk] using h
      obtain ⟨before, after, hl, hr, hm⟩ := ih h'
      rw [remove] at hr
      exact ⟨b :: before, after, by simp [hl], by simp [remove, hk, hr],
        fun f => by simp [modify, hk, hm]⟩

theorem perm_remove (h : lookup key k l = some a) : l.Perm (a :: remove key k l) := by
  obtain ⟨before, after, hl, hr, -⟩ := exists_split key h
  rw [hr, hl]
  exact perm_middle

end Registry
