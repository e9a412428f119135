import Libhybris.BinarySearch
import Libhybris.PropertyCache
import Mathlib.Data.Finset.Card
import Mathlib.Algebra.Group.Nat.Defs

/-!
# The runtime property cache as an array

`legacy_properties/runtime_cache.c`: a sorted array with room for more entries, searched by halving,
sorted again when an entry is added, with slots whose value is gone. It refines a map whose entries
expire, as long as the room can be counted.
-/
namespace RuntimeCache

open BinarySearch List Option Function
open PropertyCache (Str Config runtimeCacheGet runtimeCacheInsert runtimeCacheRemove)

/-- `struct hybris_prop_value`; times are in seconds. -/
structure Entry where
  key : Str
  value : Option Str
  lastUpdate : Int
deriving DecidableEq

/-- The statics; `ready` is whether `prop_array` has been allocated, and its length is
`num_prop`. -/
structure State where
  props : List Entry := []
  numAlloc : Nat := 0
  ready : Bool := false

inductive Fault where
  | assertion
  | overflow
deriving DecidableEq

/-- `INT_MAX` -/
def intMax : Nat := 2 ^ 31 - 1

/-! ## The functions -/

def State.ensureInitialized (s : State) : State :=
  if s.ready then s else { s with ready := true, numAlloc := 8 }

/-- `cache_find_internal`: the index and the entry. -/
def cacheFind (props : List Entry) (key : Str) : Option (Nat × Entry) :=
  (bsearch (fun e => compare key e.key) props).bind fun p => (props[p]?).map fun e => (p, e)

def Entry.invalidate (e : Entry) : Entry := { e with value := none }

/-- `runtime_cache_get_impl` -/
def getImpl (timeout : Int) (props : List Entry) (key : Str) (now : Int) : Option Str × List Entry :=
  match cacheFind props key with
  | none => (none, props)
  | some (p, e) =>
    match e.value with
    | none => (none, props)
    | some v => if timeout < now - e.lastUpdate then (none,
      props.modify p Entry.invalidate) else (some v, props)

/-- The room there is when an entry is added; `3 * num_alloc` is computed first. -/
def grow (numProp numAlloc : Nat) : Except Fault Nat :=
  if numAlloc = numProp then if intMax < 3 * numAlloc then .error .overflow else .ok
    (3 * numAlloc / 2) else .ok numAlloc

section Functions

variable (timeout : Int) (qsort : Sorter Entry.key)

/-- `runtime_cache_insert_impl` -/
def insertImpl (s : State) (key value : Str) (now : Int) : Except Fault State :=
  match cacheFind s.props key with
  | some (p, e) =>
    if e.value = none then .ok { s with props := s.props.modify p fun e => ⟨e.key, some value, now⟩ }
    else .error .assertion
  | none => (grow s.props.length s.numAlloc).map fun numAlloc =>
      { s with numAlloc, props := qsort.sort (s.props ++ [⟨key, some value, now⟩]) }

/-- The invalidation in `runtime_cache_remove`. -/
def removeImpl (props : List Entry) (key : Str) : List Entry :=
  match cacheFind props key with
  | none => props
  | some (p, _) => props.modify p Entry.invalidate

inductive Call where
  | get (key : Str) (now : Int)
  | insert (key value : Str) (now : Int)
  | remove (key : Str)

/-- A call, with what `get` finds. -/
def step (s : State) : Call → Except Fault (State × Option Str)
  | .get key now =>
    let r := getImpl timeout s.ensureInitialized.props key now
    .ok ({ s.ensureInitialized with props := r.2 }, r.1)
  | .insert key value now => (insertImpl qsort s.ensureInitialized key value now).map fun s => (s, none)
  | .remove key =>
    .ok ({ s.ensureInitialized with props := removeImpl s.ensureInitialized.props key }, none)

def run : State → List Call → Except Fault State
  | s, [] => .ok s
  | s, c :: cs =>
    match step timeout qsort s c with
    | .error e => .error e
    | .ok (s', _) => run s' cs

/-- The key of a `get` that found nothing. -/
def Call.missed : Call → Option Str → Option Str
  | .get key _, none => some key
  | _, _ => none

/-- Insertions follow immediately on a `get` of the key that found nothing, as in
`my_property_get`. -/
def Disciplined : State → Option Str → List Call → Prop
  | _, _, [] => True
  | s, missed, c :: cs => (∀ key value now, c = .insert key value now → missed = some key) ∧
      ∀ s' r, step timeout qsort s c = .ok (s', r) → Disciplined s' (c.missed r) cs

end Functions

/-! ## The map -/

/-- The values of the keys and since when they are there. -/
abbrev Map := Str → Option (Str × Int)

section Map

variable (timeout : Int)

/-- A `get` drops what is too old. -/
def Map.next (m : Map) : Call → Map
  | .get key now => Function.update m key ((m key).filter fun x => now - x.2 ≤ timeout)
  | .insert key value now => Function.update m key (some (value, now))
  | .remove key => Function.update m key none

def mapOf (calls : List Call) : Map := calls.foldl (Map.next timeout) fun _ => none

/-- A call that leaves an insertion of a key at a time what it is. -/
def Call.Keeps (key : Str) (inserted : Int) : Call → Prop
  | .get key' now => key' = key → now - inserted ≤ timeout
  | .insert key' _ _ => key' ≠ key
  | .remove key' => key' ≠ key

/-- The last insertion of a key, not followed by a removal or by a `get` that was too late. -/
def Live (calls : List Call) (key value : Str) (inserted : Int) : Prop :=
  ∃ before after, calls = before ++ .insert key value inserted :: after ∧ ∀ c ∈ after,
    c.Keeps timeout key inserted

variable {timeout} {calls : List Call} {c : Call} {key value : Str} {inserted : Int}

theorem mapOf_append (calls : List Call) (c : Call) :
    mapOf timeout (calls ++ [c]) = (mapOf timeout calls).next timeout c := by
  rw [mapOf, foldl_append]
  rfl

theorem live_append : Live timeout (calls ++ [c]) key value inserted ↔
    c = .insert key value inserted ∨ Live timeout calls key value inserted ∧
      c.Keeps timeout key inserted := by
  constructor
  · rintro ⟨before, after, heq, hkeeps⟩
    rcases eq_nil_or_concat after with rfl | ⟨after, d, rfl⟩
    · obtain ⟨-, hc⟩ := append_inj' heq rfl
      exact .inl (singleton_inj.mp hc)
    · rw [concat_eq_append, ← cons_append, ← append_assoc] at heq
      obtain ⟨hcalls, hc⟩ := append_inj' heq rfl
      cases singleton_inj.mp hc
      rw [concat_eq_append, forall_mem_append, forall_mem_singleton] at hkeeps
      exact .inr ⟨⟨before, after, hcalls, hkeeps.1⟩, hkeeps.2⟩
  · rintro (rfl | ⟨⟨before, after, rfl, hkeeps⟩, hc⟩)
    · exact ⟨calls, [], rfl, forall_mem_nil _⟩
    · refine ⟨before, after ++ [c], by simp, ?_⟩
      rw [forall_mem_append, forall_mem_singleton]
      exact ⟨hkeeps, hc⟩

theorem next_eq_some {m : Map} : m.next timeout c key = some (value, inserted) ↔
    c = .insert key value inserted ∨ m key = some (value, inserted) ∧ c.Keeps timeout key inserted := by
  cases c with
  | get key' now =>
    by_cases h : key = key'
    · subst h
      simp [Map.next, Call.Keeps, filter_eq_some_iff]
    · have h' : key' ≠ key := Ne.symm h
      simp [Map.next, Call.Keeps, h, h']
  | insert key' _ _ | remove key' =>
    by_cases h : key = key'
    · subst h
      simp [Map.next, Call.Keeps]
    · have h' : key' ≠ key := Ne.symm h
      simp [Map.next, Call.Keeps, h, h']

/-- The map holds the live insertions. -/
theorem mapOf_eq_some :
    mapOf timeout calls key = some (value, inserted) ↔ Live timeout calls key value inserted := by
  induction calls using List.reverseRecOn with
  | nil =>
    constructor
    · intro h
      cases h
    · rintro ⟨before, after, heq, -⟩
      simp at heq
  | append_singleton calls c ih => rw [mapOf_append, next_eq_some, live_append, ih]

end Map

/-! ## The array -/

section Array

variable {props : List Entry} {key : Str} {p : Nat} {e : Entry}

theorem cacheFind_eq_some (h : cacheFind props key = some (p, e)) : props[p]? = some e ∧ e.key = key := by
  obtain ⟨q, hq, hmap⟩ := bind_eq_some_iff.mp h
  obtain ⟨e', he', heq⟩ := map_eq_some_iff.mp hmap
  cases heq
  obtain ⟨x, hx, hc⟩ := bsearch_eq_some hq
  rw [he'] at hx
  cases hx
  exact ⟨he', (Std.LawfulEqOrd.eq_of_compare hc).symm⟩

theorem cacheFind_eq_none (hstrict : Strict Entry.key props) (h : cacheFind props key = none) :
    ∀ e ∈ props, e.key ≠ key := by
  refine (find_eq_none_iff hstrict.sorted).mp ?_
  cases hb : bsearch (fun e => compare key e.key) props with
  | none => rw [find, hb]; rfl
  | some p =>
    obtain ⟨x, hx, -⟩ := bsearch_eq_some hb
    rw [cacheFind, hb, bind_some, hx] at h
    cases h

/-- The entries after one was changed. -/
theorem mem_modify (hstrict : Strict Entry.key props) (hp : props[p]? = some e) (f : Entry → Entry)
    {x : Entry} : x ∈ props.modify p f ↔ x = f e ∨ x ∈ props ∧ x.key ≠ e.key := by
  have hplace : ∀ q y, props[q]? = some y → y.key = e.key → q = p := by
    intro q y hq hkey
    obtain ⟨hqlt, rfl⟩ := List.getElem?_eq_some_iff.mp hq
    obtain ⟨hplt, rfl⟩ := List.getElem?_eq_some_iff.mp hp
    have hinj := (nodup_iff_injective_getElem.mp hstrict.nodup)
    have heq := @hinj ⟨q, by simpa using hqlt⟩ ⟨p, by simpa using hplt⟩ (by simpa using hkey)
    exact Fin.mk.inj heq
  constructor
  · intro hx
    obtain ⟨q, hq⟩ := mem_iff_getElem?.mp hx
    rw [getElem?_modify] at hq
    by_cases hpq : p = q
    · subst hpq
      rw [hp] at hq
      exact .inl (by simpa using hq.symm)
    · obtain ⟨y, hy, hxy⟩ := map_eq_some_iff.mp hq
      rw [if_neg hpq] at hxy
      subst hxy
      exact .inr ⟨mem_of_getElem? hy, fun hkey => hpq (hplace q y hy hkey).symm⟩
  · rintro (rfl | ⟨hx, hkey⟩)
    · exact mem_of_getElem? (by rw [getElem?_modify, hp]; simp)
    · obtain ⟨q, hq⟩ := mem_iff_getElem?.mp hx
      have hpq : p ≠ q := by
        rintro rfl
        rw [hp] at hq
        cases hq
        exact hkey rfl
      exact mem_of_getElem? (by rw [getElem?_modify, hq]; simp [hpq])

theorem map_key_modify (hp : props[p]? = some e) {f : Entry → Entry} (hf : (f e).key = e.key) :
    (props.modify p f).map Entry.key = props.map Entry.key := by
  apply ext_getElem?
  intro q
  by_cases hpq : p = q
  · subst hpq
    simp [hp, hf]
  · simp [hpq]

theorem Strict.of_map_key {props' : List Entry} (h : Strict Entry.key props)
    (hmap : props'.map Entry.key = props.map Entry.key) : Strict Entry.key props' :=
  (h.sorted.of_map hmap).strict (hmap ▸ h.nodup)

end Array

/-! ## The room -/

/-- The sizes the array can have. -/
def growth : Nat → Nat
  | 0 => 8
  | j + 1 => 3 * growth j / 2

theorem growth_strictMono : StrictMono growth := by
  refine strictMono_nat_of_lt_succ fun j => ?_
  have hle : 8 ≤ growth j := by
    induction j with
    | zero => exact le_rfl
    | succ j ih =>
      rw [growth]
      omega
  rw [growth]
  omega

/-- The largest of them. -/
def maxKeys : Nat := 990492544

theorem growth_last : growth 46 = maxKeys := by decide +kernel

theorem growth_overflow {j : Nat} (hj : j ≤ 46) : intMax < 3 * growth j ↔ j = 46 := by
  constructor
  · by_contra hne
    have hle : growth j ≤ growth 45 := growth_strictMono.monotone (by omega)
    have hlast : growth 45 = 660328363 := by decide +kernel
    have hmax : intMax = 2147483647 := by decide
    omega
  · rintro rfl
    decide

/-! ## The array refines the map -/

/-- The entries of the array are those of the map; a key without an entry has no value. -/
structure Refines (m : Map) (props : List Entry) : Prop where
  strict : Strict Entry.key props
  value : ∀ e ∈ props, m e.key = e.value.map fun v => (v, e.lastUpdate)
  absent : ∀ key, (∀ e ∈ props, e.key ≠ key) → m key = none

section Refines

variable {m : Map} {props : List Entry} {key : Str} {p : Nat} {e : Entry}

theorem Refines.nil : Refines (fun _ => none) [] :=
  ⟨.nil, forall_mem_nil _, fun _ _ => rfl⟩

section
variable (h : Refines m props)
include h

theorem Refines.found (hfind : cacheFind props key = some (p, e)) :
    m key = e.value.map fun v => (v, e.lastUpdate) := by
  obtain ⟨hp, rfl⟩ := cacheFind_eq_some hfind
  exact h.value e (mem_of_getElem? hp)

theorem Refines.missing (hfind : cacheFind props key = none) : m key = none :=
  h.absent key (cacheFind_eq_none h.strict hfind)

/-- Changing the entry of a key. -/
theorem Refines.modify (hfind : cacheFind props key = some (p, e)) (f : Entry → Entry)
    (hf : (f e).key = e.key) :
    Refines (Function.update m key ((f e).value.map fun v => (v, (f e).lastUpdate)))
      (props.modify p f) := by
  obtain ⟨hp, rfl⟩ := cacheFind_eq_some hfind
  refine ⟨Strict.of_map_key h.strict (map_key_modify hp hf), fun x hx => ?_, fun key hkey => ?_⟩
  · rcases (mem_modify h.strict hp f).mp hx with rfl | ⟨hx, hne⟩
    · rw [hf, update_self]
    · rw [update_of_ne hne]
      exact h.value x hx
  · have hne : key ≠ e.key := by
      rintro rfl
      exact hkey (f e) ((mem_modify h.strict hp f).mpr (.inl rfl)) hf
    rw [update_of_ne hne]
    refine h.absent key fun x hx hxkey => ?_
    exact hkey x ((mem_modify h.strict hp f).mpr (.inr ⟨hx, hxkey ▸ hne⟩)) hxkey

theorem Refines.unchanged (hnone : m key = none) : Refines (Function.update m key none) props := by
  rw [← hnone, update_eq_self]
  exact h

/-- Adding an entry and sorting. -/
theorem Refines.insert (hfind : cacheFind props key = none) (qsort : Sorter Entry.key) (value : Str)
    (now : Int) :
    Refines (Function.update m key (some (value, now)))
      (qsort.sort (props ++ [⟨key, some value, now⟩])) := by
  have hperm := qsort.perm (props ++ [⟨key, some value, now⟩])
  have hfresh := cacheFind_eq_none h.strict hfind
  have hnodup : ((qsort.sort (props ++ [⟨key, some value, now⟩])).map Entry.key).Nodup := by
    rw [(hperm.map Entry.key).nodup_iff, map_append, nodup_append]
    refine ⟨h.strict.nodup, nodup_singleton _, fun k hk k' hk' heq => ?_⟩
    obtain ⟨e, he, rfl⟩ := mem_map.mp hk
    rw [map_singleton, mem_singleton] at hk'
    exact hfresh e he (heq.trans hk')
  refine ⟨(qsort.sorted _).strict hnodup, fun x hx => ?_, fun key' hkey' => ?_⟩
  · rcases mem_append.mp (hperm.mem_iff.mp hx) with hx | hx
    · rw [update_of_ne (hfresh x hx)]
      exact h.value x hx
    · rw [mem_singleton.mp hx, update_self]
      rfl
  · have hne : key' ≠ key := by
      rintro rfl
      exact hkey' ⟨key', some value, now⟩ (hperm.mem_iff.mpr (by simp)) rfl
    rw [update_of_ne hne]
    exact h.absent key' fun x hx => hkey' x (hperm.mem_iff.mpr (mem_append_left _ hx))

section
variable (timeout : Int) (key : Str)

/-- What `get` finds is what the map has, if it is not too old. -/
theorem Refines.getImpl_fst (now : Int) :
    (getImpl timeout props key now).1 = ((m key).filter fun x => now - x.2 ≤ timeout).map Prod.fst := by
  unfold getImpl
  split
  next hfind =>
    rw [h.missing hfind]
    rfl
  next p e hfind =>
    rw [h.found hfind]
    split
    next hvalue =>
      rw [hvalue]
      rfl
    next v hvalue =>
      rw [hvalue]
      split
      next hold => simp [Option.filter, Int.not_le.mpr hold]
      next hfresh => simp [Option.filter, Int.not_lt.mp hfresh]

theorem Refines.getImpl_snd (now : Int) :
    Refines (m.next timeout (.get key now)) (getImpl timeout props key now).2 := by
  rw [Map.next]
  unfold getImpl
  split
  next hfind =>
    rw [h.missing hfind]
    exact h.unchanged (h.missing hfind)
  next p e hfind =>
    have hfound := h.found hfind
    split
    next hvalue =>
      rw [hvalue] at hfound
      rw [hfound]
      exact h.unchanged hfound
    next v hvalue =>
      rw [hvalue] at hfound
      split
      next hold =>
        rw [hfound]
        simp only [map_some, Option.filter, Int.not_le.mpr hold, decide_false]
        exact h.modify hfind Entry.invalidate rfl
      next hfresh =>
        have hkeep : (m key).filter (fun x => now - x.2 ≤ timeout) = m key := by
          rw [hfound]
          simp [Option.filter, Int.not_lt.mp hfresh]
        rw [hkeep, update_eq_self]
        exact h

theorem Refines.removeImpl :
    Refines (m.next timeout (.remove key)) (removeImpl props key) := by
  rw [Map.next]
  unfold RuntimeCache.removeImpl
  split
  next hfind => exact h.unchanged (h.missing hfind)
  next p e hfind => exact h.modify hfind Entry.invalidate rfl

end

end

end Refines

/-! ## The cache of the lookups -/

/-- The list that `my_property_get` and `my_property_set` work on in `PropertyCache` has the entries
of the map. Its operations do to the map what those on the array do. -/
def Represents (m : Map) (cache : List PropertyCache.Entry) : Prop :=
  ∀ key, m key = (PropertyCache.cacheFind cache key).bind fun e =>
    e.value.map fun v => (v, (e.lastUpdate : Int))

section Represents

variable {m : Map} {cache : List PropertyCache.Entry} {props : List Entry} {key : Str}

section
variable (h : Represents m cache)
include h

theorem Represents.modify (f : PropertyCache.Entry → PropertyCache.Entry)
    (hf : ∀ e, e.key = key → (f e).key = key) {x : Option (Str × Int)}
    (hx : x = (PropertyCache.cacheFind cache key).bind fun e =>
      (f e).value.map fun v => (v, ((f e).lastUpdate : Int))) :
    Represents (Function.update m key x) (Registry.modify PropertyCache.Entry.key key f cache) := by
  intro key'
  have hlookup := Registry.lookup_modify PropertyCache.Entry.key key key' f hf cache
  rw [← PropertyCache.cacheFind] at hlookup
  rw [hlookup]
  by_cases hkey : key' = key
  · rw [hkey, update_self, if_pos rfl, Option.bind_map]
    exact hx
  · rw [update_of_ne hkey, if_neg hkey]
    exact h key'

theorem Represents.remove :
    Represents (Function.update m key none) (runtimeCacheRemove cache key) :=
  h.modify PropertyCache.Entry.invalidate (fun _ => id) (by simp [PropertyCache.Entry.invalidate])

theorem Represents.get (cfg : Config) (now : Nat) : (runtimeCacheGet cfg cache key now).1 =
        ((m key).filter fun x => (now / cfg.second : Nat) - x.2 ≤ cfg.timeout).map Prod.fst ∧
      Represents (m.next cfg.timeout (.get key (now / cfg.second : Nat)))
        (runtimeCacheGet cfg cache key now).2 := by
  have hnone : m key = none → Represents (Function.update m key none) cache := fun hkey => by
    rwa [← hkey, update_eq_self]
  have hkey := h key
  rw [Map.next]
  unfold runtimeCacheGet
  split
  next hfind =>
    replace hkey : m key = none := by rw [hkey, hfind, bind_none]
    rw [hkey]
    exact ⟨rfl, hnone hkey⟩
  next e hfind =>
    split
    next hvalue =>
      replace hkey : m key = none := by rw [hkey, hfind, bind_some, hvalue, map_none]
      rw [hkey]
      exact ⟨rfl, hnone hkey⟩
    next v hvalue =>
      replace hkey : m key = some (v, (e.lastUpdate : Int)) := by
        rw [hkey, hfind, bind_some, hvalue, map_some]
      rw [hkey]
      split
      next hstale =>
        rw [Option.filter_some, decide_eq_false (Int.not_le.mpr hstale)]
        exact ⟨rfl, h.remove⟩
      next hfresh =>
        rw [Option.filter_some, decide_eq_true (Int.not_lt.mp hfresh)]
        exact ⟨rfl, by rwa [if_pos rfl, ← hkey, update_eq_self]⟩

/-- The assertion holds where there is no value. -/
theorem Represents.insert {e : PropertyCache.Entry} {value : Str}
    (hvalue : e.value = some value) (hnone : m e.key = none) :
    ∃ cache', runtimeCacheInsert cache e = some cache' ∧
      Represents (Function.update m e.key (some (value, e.lastUpdate))) cache' := by
  unfold runtimeCacheInsert
  split
  next hfind =>
    refine ⟨_, rfl, fun key => ?_⟩
    rw [PropertyCache.cacheFind, Registry.lookup_cons]
    by_cases hkey : e.key = key
    · rw [← hkey, update_self, if_pos rfl, bind_some, hvalue, map_some]
    · rw [update_of_ne (Ne.symm hkey), if_neg hkey]
      exact h key
  next old hfind =>
    have hold := h e.key
    rw [hfind, hnone, bind_some, eq_comm, map_eq_none_iff] at hold
    rw [if_pos hold]
    exact ⟨_, rfl, h.modify (fun _ => e) (fun _ _ => rfl) (by rw [hfind, bind_some, hvalue, map_some])⟩

/-- A lookup in the list finds what one in the array finds. -/
theorem Represents.get_eq (hrefines : Refines m props) (cfg : Config) (key : Str) (now : Nat) :
    (runtimeCacheGet cfg cache key now).1 =
      (getImpl cfg.timeout props key (now / cfg.second : Nat)).1 := by
  rw [(h.get cfg now).1, hrefines.getImpl_fst]

end

end Represents

/-! ## Runs -/

def insertedKeys (calls : List Call) : List Str :=
  calls.filterMap fun c => match c with
    | .insert key _ _ => some key
    | _ => none

structure Inv (timeout : Int) (calls : List Call) (missed : Option Str) (s : State) : Prop where
  refines : Refines (mapOf timeout calls) s.props
  keys : (s.props.map Entry.key).toFinset = (insertedKeys calls).toFinset
  room : s.props.length ≤ s.numAlloc
  grown : s.ready = true → ∃ j, j ≤ 46 ∧ s.numAlloc = growth j
  unready : s.ready = false → s.props = []
  missed : ∀ key, missed = some key → mapOf timeout calls key = none

section Run

variable {timeout : Int} {qsort : Sorter Entry.key} {calls : List Call} {missed : Option Str} {s : State}

theorem Inv.start (timeout : Int) : Inv timeout [] none {} :=
  ⟨.nil, rfl, le_rfl, (fun h => nomatch h), fun _ => rfl, (fun _ h => nomatch h)⟩

section
variable (h : Inv timeout calls missed s)
include h

theorem Inv.length_eq : s.props.length = (insertedKeys calls).toFinset.card := by
  rw [← h.keys, toFinset_card_of_nodup h.refines.strict.nodup, length_map]

theorem Inv.initialized :
    Inv timeout calls missed s.ensureInitialized ∧ s.ensureInitialized.ready = true := by
  unfold State.ensureInitialized
  split
  next hready => exact ⟨h, hready⟩
  next hready =>
    have hnil := h.unready (by simpa using hready)
    refine ⟨{ h with
      room := ?_, grown := fun _ => ⟨0, by decide, rfl⟩, unready := fun h => nomatch h }, rfl⟩
    simp [hnil]

/-- A step that keeps the keys. -/
theorem Inv.keep (hready : s.ready = true) {c : Call} {props : List Entry}
    (hrefines : Refines (mapOf timeout (calls ++ [c])) props)
    (hkeys : props.map Entry.key = s.props.map Entry.key)
    (hinserted : (insertedKeys (calls ++ [c])).toFinset = (insertedKeys calls).toFinset)
    {missed' : Option Str}
    (hmissed : ∀ key, missed' = some key → mapOf timeout (calls ++ [c]) key = none) :
    Inv timeout (calls ++ [c]) missed' { s with props } where
  refines := hrefines
  keys := by rw [hkeys, h.keys, hinserted]
  room := by
    have hlength := congrArg List.length hkeys
    rw [length_map, length_map] at hlength
    exact hlength.le.trans h.room
  grown := h.grown
  unready := fun hfalse => absurd (hready.symm.trans hfalse) (by decide)
  missed := hmissed

end

theorem map_key_getImpl (timeout : Int) (props : List Entry) (key : Str) (now : Int) :
    (getImpl timeout props key now).2.map Entry.key = props.map Entry.key := by
  unfold getImpl
  split
  next => rfl
  next p e hfind =>
    split
    next => rfl
    next =>
      split
      next => exact map_key_modify (cacheFind_eq_some hfind).1 rfl
      next => rfl

theorem map_key_removeImpl (props : List Entry) (key : Str) :
    (removeImpl props key).map Entry.key = props.map Entry.key := by
  unfold removeImpl
  split
  next => rfl
  next p e hfind => exact map_key_modify (cacheFind_eq_some hfind).1 rfl

theorem insertedKeys_insert (calls : List Call) (key value : Str) (now : Int) :
    (insertedKeys (calls ++ [.insert key value now])).toFinset = insert key
    (insertedKeys calls).toFinset := by
  simp [insertedKeys]

/-- A call after an admissible run: the invariant holds after it, or the room cannot be counted, and
then there are more keys than the array can have. -/
theorem Inv.step (h : Inv timeout calls missed s) (qsort : Sorter Entry.key) (c : Call)
    (hdisc : ∀ key value now, c = .insert key value now → missed = some key) :
    (∃ s' r, step timeout qsort s c = .ok (s', r) ∧ Inv timeout (calls ++ [c]) (c.missed r) s') ∨
      RuntimeCache.step timeout qsort s c = .error .overflow ∧
        maxKeys < (insertedKeys (calls ++ [c])).toFinset.card := by
  obtain ⟨h, hready⟩ := h.initialized
  unfold RuntimeCache.step
  generalize s.ensureInitialized = s at h hready
  cases c with
  | get key now =>
    refine .inl ⟨_, _, rfl, h.keep hready ?_ (map_key_getImpl ..) (by simp [insertedKeys]) ?_⟩
    · rw [mapOf_append]
      exact h.refines.getImpl_snd timeout key now
    · intro key' hkey'
      rw [h.refines.getImpl_fst] at hkey'
      rw [mapOf_append, Map.next]
      cases hfilter : (mapOf timeout calls key).filter fun x => now - x.2 ≤ timeout with
      | none =>
        rw [hfilter] at hkey'
        cases hkey'
        rw [update_self]
      | some x =>
        rw [hfilter] at hkey'
        cases hkey'
  | remove key =>
    refine .inl ⟨_, _, rfl,
      h.keep hready ?_ (map_key_removeImpl ..) (by simp [insertedKeys]) fun _ hnone => nomatch hnone⟩
    rw [mapOf_append]
    exact h.refines.removeImpl timeout key
  | insert key value now =>
    have hnone := h.missed key (hdisc key value now rfl)
    simp only [insertImpl]
    split
    next p e hfind =>
      have hkey := (cacheFind_eq_some hfind).2
      have hvalue : e.value = none := by
        have hfound := h.refines.found hfind
        rw [hnone] at hfound
        simpa using hfound.symm
      have hmem : key ∈ (insertedKeys calls).toFinset := by
        rw [← h.keys, List.mem_toFinset, ← hkey]
        exact mem_map_of_mem (mem_of_getElem? (cacheFind_eq_some hfind).1)
      rw [if_pos hvalue]
      refine .inl ⟨_, _, rfl,
        h.keep hready ?_ (map_key_modify (cacheFind_eq_some hfind).1 rfl) ?_ fun _ hf => nomatch hf⟩
      · rw [mapOf_append]
        exact h.refines.modify hfind (fun e => ⟨e.key, some value, now⟩) rfl
      · rw [insertedKeys_insert, Finset.insert_eq_of_mem hmem]
    next hfind =>
      have hfresh : key ∉ (insertedKeys calls).toFinset := by
        rw [← h.keys, List.mem_toFinset]
        intro hmem
        obtain ⟨e, he, hkey⟩ := mem_map.mp hmem
        exact cacheFind_eq_none h.refines.strict hfind e he hkey
      have hcard : (insertedKeys (calls ++ [.insert key value now])).toFinset.card =
        s.props.length + 1 := by
        rw [insertedKeys_insert, Finset.card_insert_of_notMem hfresh, h.length_eq]
      have hinv : ∀ numAlloc j, j ≤ 46 → numAlloc = growth j → s.props.length + 1 ≤ numAlloc →
          Inv timeout (calls ++ [.insert key value now]) none
            { s with numAlloc, props := qsort.sort (s.props ++ [⟨key, some value, now⟩]) } := by
        intro numAlloc j hj hgrowth hroom
        refine ⟨?_, ?_, ?_, fun _ => ⟨j, hj, hgrowth⟩,
          fun hf => absurd (hready.symm.trans hf) (by decide), fun _ hf => nomatch hf⟩
        · rw [mapOf_append]
          exact h.refines.insert hfind qsort value now
        · rw [insertedKeys_insert, ← h.keys, toFinset_eq_of_perm _ _ ((qsort.perm _).map Entry.key)]
          ext key'
          simp
        · rw [(qsort.perm _).length_eq, length_append]
          exact hroom
      obtain ⟨j, hj, hgrowth⟩ := h.grown hready
      have hroom := h.room
      rw [grow]
      split
      next hfull =>
        split
        next hover =>
          rw [hgrowth, growth_overflow hj] at hover
          refine .inr ⟨rfl, ?_⟩
          rw [hcard, ← hfull, hgrowth, hover, growth_last]
          exact Nat.lt_succ_self _
        next hfits =>
          have hlast : j ≠ 46 := by
            rw [hgrowth, growth_overflow hj] at hfits
            exact hfits
          refine .inl ⟨_, _, rfl, hinv _ (j + 1) (by omega) (by rw [hgrowth, growth]) ?_⟩
          have hlt := growth_strictMono (Nat.lt_succ_self j)
          rw [Nat.succ_eq_add_one, growth] at hlt
          omega
      next hfull => exact .inl ⟨_, _, rfl, hinv _ j hj hgrowth (by omega)⟩

theorem insertedKeys_subset (calls rest : List Call) :
    (insertedKeys calls).toFinset ⊆ (insertedKeys (calls ++ rest)).toFinset := by
  intro key hkey
  rw [List.mem_toFinset] at hkey ⊢
  rw [insertedKeys, filterMap_append]
  exact mem_append_left _ hkey

/-- An admissible run. -/
theorem Inv.run (h : Inv timeout calls missed s) {rest : List Call}
    (hdisc : Disciplined timeout qsort s missed rest) :
    (∃ s' missed', run timeout qsort s rest = .ok s' ∧ Inv timeout (calls ++ rest) missed' s') ∨
      RuntimeCache.run timeout qsort s rest = .error .overflow ∧
        maxKeys < (insertedKeys (calls ++ rest)).toFinset.card := by
  induction rest generalizing calls missed s with
  | nil =>
    rw [append_nil]
    exact .inl ⟨s, missed, rfl, h⟩
  | cons c rest ih =>
    have hassoc : calls ++ c :: rest = calls ++ [c] ++ rest := by simp
    rw [hassoc, RuntimeCache.run]
    rcases h.step qsort c hdisc.1 with ⟨s', r, hstep, hinv⟩ | ⟨hstep, hmany⟩
    · rw [hstep]
      exact ih hinv (hdisc.2 s' r hstep)
    · rw [hstep]
      exact .inr ⟨rfl, hmany.trans_le (Finset.card_le_card (insertedKeys_subset _ rest))⟩

theorem Inv.few (h : Inv timeout calls missed s) : (insertedKeys calls).toFinset.card ≤ maxKeys := by
  rw [← h.length_eq]
  cases hready : s.ready with
  | false => simp [h.unready hready]
  | true =>
    obtain ⟨j, hj, hgrowth⟩ := h.grown hready
    have hroom := h.room
    have hle := growth_strictMono.monotone hj
    rw [growth_last] at hle
    omega

end Run

/-- Admissible runs: exactly with at most so many keys as the room can be counted for, no assertion
fails, the array is strictly sorted and not longer than its room, and a `get` finds the value of the
key's last insertion if this was not removed or found too old since, and is not too old. -/
theorem run_refines_map {timeout : Int} {qsort : Sorter Entry.key} {calls : List Call}
    (hdisc : Disciplined timeout qsort {} none calls) :
    (∃ s, run timeout qsort {} calls = .ok s ∧ Strict Entry.key s.props ∧ s.props.length ≤ s.numAlloc ∧
      ∀ key now, ∃ s' found, step timeout qsort s (.get key now) = .ok (s', found) ∧
        ∀ value, found = some value ↔ ∃ inserted, Live timeout calls key value inserted ∧
          now - inserted ≤ timeout) ↔
      (insertedKeys calls).toFinset.card ≤ maxKeys := by
  have hcases := (Inv.start timeout).run hdisc
  rw [nil_append] at hcases
  constructor
  · rintro ⟨s, hrun, -⟩
    rcases hcases with ⟨s', missed, -, hinv⟩ | ⟨herror, -⟩
    · exact hinv.few
    · rw [hrun] at herror
      cases herror
  · intro hfew
    rcases hcases with ⟨s, missed, hrun, hinv⟩ | ⟨-, hmany⟩
    · refine ⟨s, hrun, hinv.refines.strict, hinv.room, fun key now => ⟨_, _, rfl, fun value => ?_⟩⟩
      rw [hinv.initialized.1.refines.getImpl_fst]
      simp only [map_eq_some_iff, filter_eq_some_iff, decide_eq_true_eq, Prod.exists, ← mapOf_eq_some]
      constructor
      · rintro ⟨v, inserted, ⟨hmap, hle⟩, rfl⟩
        exact ⟨inserted, hmap, hle⟩
      · rintro ⟨inserted, hmap, hle⟩
        exact ⟨value, inserted, ⟨hmap, hle⟩, rfl⟩
    · omega

/-! ## Too many keys -/

section Filling

variable {timeout : Int} {qsort : Sorter Entry.key}

theorem Disciplined.append {s : State} {missed : Option Str} {calls rest : List Call}
    (h : Disciplined timeout qsort s missed calls)
    (hrest : ∀ s' missed', run timeout qsort s calls = .ok s' → Disciplined timeout qsort s' missed' rest) :
    Disciplined timeout qsort s missed (calls ++ rest) := by
  induction calls generalizing s missed with
  | nil => exact hrest s missed rfl
  | cons c calls ih =>
    refine ⟨h.1, fun s' r hstep => ih (h.2 s' r hstep) fun s'' missed'' hrun => hrest s'' missed'' ?_⟩
    rw [run, hstep]
    exact hrun

/-- One key after the other is looked up and inserted. -/
def fill : Nat → List Call
  | 0 => []
  | n + 1 => fill n ++ [.get (List.replicate n 97) 0, .insert (List.replicate n 97) [] 0]

theorem insertedKeys_fill (n : Nat) :
    insertedKeys (fill n) = (List.range n).map fun k => List.replicate k 97 := by
  induction n with
  | zero => rfl
  | succ n ih =>
    rw [fill, range_succ, map_append, ← ih, insertedKeys, filterMap_append]
    rfl

theorem nodup_insertedKeys_fill (n : Nat) : (insertedKeys (fill n)).Nodup := by
  rw [insertedKeys_fill]
  refine List.Nodup.map (fun a b heq => ?_) nodup_range
  simpa using congrArg List.length heq

theorem fill_disciplined (n : Nat) : Disciplined timeout qsort {} none (fill n) := by
  induction n with
  | zero => trivial
  | succ n ih =>
    refine ih.append fun s missed hrun =>
      ⟨(fun _ _ _ heq => nomatch heq), fun s' r hstep => ⟨?_, fun _ _ _ => trivial⟩⟩
    intro key value now heq
    cases heq
    rcases (Inv.start timeout).run ih with ⟨s'', missed'', hrun', hinv⟩ | ⟨herror, -⟩
    · rw [hrun] at hrun'
      cases hrun'
      rw [nil_append] at hinv
      have hnone : mapOf timeout (fill n) (List.replicate n 97) = none := by
        refine hinv.refines.absent _ fun e he hkey => ?_
        have hmem : List.replicate n 97 ∈ (insertedKeys (fill n)).toFinset := by
          rw [← hinv.keys, List.mem_toFinset, ← hkey]
          exact mem_map_of_mem he
        rw [List.mem_toFinset, insertedKeys_fill] at hmem
        obtain ⟨k, hk, heq⟩ := mem_map.mp hmem
        have hlength := congrArg List.length heq
        rw [length_replicate, length_replicate] at hlength
        exact absurd (mem_range.mp hk) (by omega)
      obtain ⟨-, rfl⟩ := Prod.mk.inj (Except.ok.inj hstep)
      rw [hinv.initialized.1.refines.getImpl_fst, hnone]
      rfl
    · rw [hrun] at herror
      cases herror

/-- With more keys the new room is computed beyond the largest `int`. -/
theorem fill_overflows {n : Nat} (hn : maxKeys < n) : run timeout qsort {} (fill n) = .error .overflow := by
  rcases (Inv.start timeout).run (fill_disciplined n) with ⟨s, missed, -, hinv⟩ | ⟨herror, -⟩
  · have hfew := hinv.few
    rw [nil_append, toFinset_card_of_nodup (nodup_insertedKeys_fill _), insertedKeys_fill,
      length_map, length_range] at hfew
    omega
  · exact herror

end Filling

/-- Nine keys, for which the array grows, and a removal. -/
def sampleCalls : List Call := fill 9 ++ [.remove (List.replicate 3 97)]

theorem run_refines_map_fill : (∃ s, run 10 (Sorter.insertion Entry.key) {} sampleCalls = .ok s ∧
    Strict Entry.key s.props ∧ s.props.length ≤ s.numAlloc ∧
    ∀ key now, ∃ s' found, step 10 (Sorter.insertion Entry.key) s (.get key now) = .ok (s', found) ∧
      ∀ value, found = some value ↔
        ∃ inserted, Live 10 sampleCalls key value inserted ∧ now - inserted ≤ 10) := by
  have hdisc : Disciplined 10 (Sorter.insertion Entry.key) {} none sampleCalls :=
    (fill_disciplined 9).append fun _ _ _ => ⟨(fun _ _ _ h => nomatch h), fun _ _ _ => trivial⟩
  exact (run_refines_map hdisc).mpr (by decide)

theorem room_overflows : ∃ calls, Disciplined 10 (Sorter.insertion Entry.key) {} none calls ∧
    run 10 (Sorter.insertion Entry.key) {} calls = .error .overflow := by
  obtain ⟨n, hn⟩ : ∃ n, maxKeys < n := ⟨_, Nat.lt_succ_self _⟩
  exact ⟨fill n, fill_disciplined n, fill_overflows hn⟩

end RuntimeCache
