import Libhybris.Registry
import Libhybris.Transition

/-!
# Property lookups through the runtime cache

`my_property_get` and `my_property_set` of `properties.c` with the cache of `runtime_cache.c`. The
property server is a map that any process may change at any time; a key without a value answers with
the empty string. Threads are between two operations on the cache lock, the server and the clock.
-/
namespace PropertyCache

open List Registry Option

abbrev Str := List UInt8

/-- `PROP_NAME_MAX` -/
def propNameMax : Nat := 32

/-- `PROP_VALUE_MAX` -/
def propValueMax : Nat := 92

/-- What does not change: the clock's ticks in a second, `runtime_cache_timeout_secs`, and the
properties in the files that are searched without a server. -/
structure Config where
  second : Nat
  timeout : Int
  file : Str → Option Str

structure Entry where
  key : Str
  value : Option Str
  lastUpdate : Nat
  /-- history: when the server answered, and the default that was stored if it had no value -/
  answered : Nat
  fallback : Option Str
deriving DecidableEq, Repr

/-- `cache_find_internal`; the array is sorted by key after every insertion. -/
def cacheFind (cache : List Entry) (key : Str) : Option Entry := Registry.lookup Entry.key key cache

def Entry.invalidate (e : Entry) : Entry := { e with value := none }

def runtimeCacheRemove (cache : List Entry) (key : Str) : List Entry :=
  Registry.modify Entry.key key Entry.invalidate cache

/-- The entry is too old to be used. -/
def Entry.Stale (cfg : Config) (e : Entry) (now : Nat) : Prop :=
  (now / cfg.second : Nat) - (e.lastUpdate : Int) > cfg.timeout

instance (cfg : Config) (e : Entry) (now : Nat) : Decidable (e.Stale cfg now) :=
  inferInstanceAs (Decidable (_ > _))

def runtimeCacheGet (cfg : Config) (cache : List Entry) (key : Str) (now : Nat) : Option Str × List Entry :=
  match cacheFind cache key with
  | none => (none, cache)
  | some e =>
    match e.value with
    | none => (none, cache)
    | some v => if e.Stale cfg now then (none, runtimeCacheRemove cache key) else (some v, cache)

/-- `runtime_cache_insert`; nothing if its assertion fails. -/
def runtimeCacheInsert (cache : List Entry) (e : Entry) : Option (List Entry) :=
  match cacheFind cache e.key with
  | none => some (e :: cache)
  | some old =>
    if old.value = none then some (Registry.modify Entry.key e.key (fun _ => e) cache) else none

/-- What `property_get_socket` makes of the server's answer. -/
def propertyGetSocket (reply : Str) (default : Option Str) : Option Str :=
  match reply, default with
  | [], some d => if d.length > propValueMax - 1 then none else some d
  | v, _ => some v

/-- A call of `my_property_get` that has its value, and when. -/
structure Answer where
  key : Str
  default : Option Str
  value : Str
  time : Nat
deriving DecidableEq, Repr

inductive Pc where
  | idle
  | get (key : Str) (default : Option Str)
  | lookup (key : Str) (default : Option Str)
  | ask (key : Str) (default : Option Str)
  | store (e : Entry) (answer : Answer)
  | unlock (key : Str) (default : Option Str) (answer : Option Answer)
  /-- the server could not be asked -/
  | search (key : Str) (default : Option Str)
  | searched (value : Option Str)
  | returned (answer : Answer)
  | set (key value : Str)
  | remove (key value : Str)
  | unlockSet (key value : Str)
  | send (key value : Str)
deriving DecidableEq, Repr

structure State where
  now : Nat := 0
  server : Str → Str
  cache : List Entry := []
  /-- the thread that has the cache lock -/
  lock : Option Nat := none
  threads : List Pc
  /-- an assertion has failed -/
  fault : Bool := false
  /-- history: the server's map at each time, the latest first -/
  past : List (Nat × (Str → Str))

def State.goto (s : State) (t : Nat) (pc : Pc) : State := { s with threads := s.threads.set t pc }

/-- The next step of a call; `reachable` if it asks the server and the server answers. -/
def advance (cfg : Config) (s : State) (t : Nat) (reachable : Bool) : Pc → Option State
  | .idle => none
  | .get key default =>
    if s.lock.isSome then none else some { s.goto t (.lookup key default) with lock := some t }
  | .lookup key default =>
    let r := runtimeCacheGet cfg s.cache key s.now
    match r.1 with
    | some v => some { s.goto t (.unlock key default (some ⟨key, default, v, s.now⟩)) with cache := r.2 }
    | none => some { s.goto t (.ask key default) with cache := r.2 }
  | .ask key default =>
    if reachable then
      match propertyGetSocket (s.server key) default with
      | some v =>
        some (s.goto t (.store ⟨key, some v, 0, s.now, if s.server key = [] then some v else none⟩
          ⟨key, default, v, s.now⟩))
      | none => some (s.goto t (.unlock key default none))
    else some (s.goto t (.unlock key default none))
  | .store e answer =>
    match runtimeCacheInsert s.cache { e with lastUpdate := s.now / cfg.second } with
    | some cache => some { s.goto t (.unlock answer.key answer.default (some answer)) with cache := cache }
    | none => some { s with fault := true }
  | .unlock key default answer =>
    some { s.goto t (match answer with
      | some a => .returned a
      | none => .search key default) with lock := none }
  | .search key default =>
    some (s.goto t (.searched (match cfg.file key with
      | some v => some v
      | none => default)))
  | .searched _ => some (s.goto t .idle)
  | .returned _ => some (s.goto t .idle)
  | .set key value =>
    if s.lock.isSome then none else some { s.goto t (.remove key value) with lock := some t }
  | .remove key value =>
    some { s.goto t (.unlockSet key value) with cache := runtimeCacheRemove s.cache key }
  | .unlockSet key value => some { s.goto t (.send key value) with lock := none }
  | .send key value =>
    some { s.goto t .idle with server :=
      if reachable then Function.update s.server key value else s.server }

inductive Action where
  | get (t : Nat) (key : Str) (default : Option Str)
  | set (t : Nat) (key : Str) (value : Option Str)
  | advance (t : Nat) (reachable : Bool)
  | tick (n : Nat)
  /-- another process sets a property -/
  | change (key value : Str)
deriving DecidableEq, Repr

/-- Start a call in an idle thread. -/
def begin (s : State) (t : Nat) (pc : Pc) : Option State :=
  if s.threads[t]? = some .idle then some (s.goto t pc) else none

def perform (cfg : Config) (s : State) : Action → Option State
  | .get t key default =>
    -- a call with a key that is too long fails at once
    if key.length > propNameMax - 1 then some s else begin s t (.get key default)
  | .set t key value =>
    let value := value.getD []
    if key.length > propNameMax - 1 ∨ value.length > propValueMax - 1 then some s
    else begin s t (.set key value)
  | .advance t reachable =>
    match s.threads[t]? with
    | none => none
    | some pc => advance cfg s t reachable pc
  | .tick n => some { s with now := s.now + n }
  | .change key value => some { s with server := Function.update s.server key value }

def State.remember (s : State) : State := { s with past := (s.now, s.server) :: s.past }

/-- A failed assertion ends a run. -/
def step (cfg : Config) (s : State) (a : Action) : Option State :=
  if s.fault then none else (perform cfg s a).map State.remember

/-- Before any call, with `n` threads. -/
def State.start (n : Nat) (server : Str → Str) : State :=
  { server := server, threads := List.replicate n .idle, past := [(0, server)] }

/-! ## Transparency -/

/-- The server had the value within the last seconds. -/
def Held (cfg : Config) (s : State) (key value : Str) (time : Nat) : Prop :=
  ∃ p ∈ s.past, p.1 ≤ time ∧ time ≤ p.1 + (cfg.timeout + 1).toNat * cfg.second ∧ p.2 key = value

instance (cfg : Config) (s : State) (key value : Str) (time : Nat) :
    Decidable (Held cfg s key value time) :=
  inferInstanceAs (Decidable (∃ p ∈ s.past, _))

/-- The answer is a value that the server had, or the call's own default if the server had none. -/
def Transparent (cfg : Config) (s : State) (a : Answer) : Prop :=
  (a.value ≠ [] ∧ Held cfg s a.key a.value a.time) ∨
    (a.value = a.default.getD [] ∧ Held cfg s a.key [] a.time)

instance (cfg : Config) (s : State) (a : Answer) : Decidable (Transparent cfg s a) :=
  inferInstanceAs (Decidable (_ ∨ _))

/-- The key that a call looks up, and its default. -/
def Pc.looked : Pc → Option (Str × Option Str)
  | .lookup key default => some (key, default)
  | _ => none

/-- The entry as it would be had it been stored in the second in which the server answered. -/
def Entry.prompt (cfg : Config) (e : Entry) : Entry :=
  { e with lastUpdate := e.answered / cfg.second }

/-- A value that the cache gives is not too old either when its age is counted from the server's
answer, and if it is a default that was stored, it is the call's own. -/
def Careful (cfg : Config) (s : State) : Action → Prop
  | .advance t _ => ∀ pc ∈ s.threads[t]?, ∀ k ∈ pc.looked, ∀ e ∈ cacheFind s.cache k.1,
      (e.value ≠ none ∧ ¬ e.Stale cfg s.now) →
        ¬ (e.prompt cfg).Stale cfg s.now ∧ ∀ d ∈ e.fallback, k.2.getD [] = d
  | _ => True

instance (cfg : Config) (s : State) (a : Action) : Decidable (Careful cfg s a) :=
  match a with
  | .advance t _ => inferInstanceAs (Decidable (∀ pc ∈ s.threads[t]?, ∀ k ∈ pc.looked,
      ∀ e ∈ cacheFind s.cache k.1, _ → _ ∧ ∀ d ∈ e.fallback, _))
  | .get _ _ _ | .set _ _ _ | .tick _ | .change _ _ => .isTrue trivial

/-! ## The invariant -/

/-- The value of an entry is what the server had when it answered, or a default for no value. -/
def Sourced (s : State) (e : Entry) (v : Str) : Prop :=
  ∃ p ∈ s.past, p.1 = e.answered ∧
    match e.fallback with
    | none => v ≠ [] ∧ p.2 e.key = v
    | some d => v = d ∧ p.2 e.key = []

def Pc.locked : Pc → Bool
  | .lookup _ _ => true
  | .ask _ _ => true
  | .store _ _ => true
  | .unlock _ _ _ => true
  | .remove _ _ => true
  | .unlockSet _ _ => true
  | _ => false

/-- There is no value in the cache. -/
def Missing (cache : List Entry) (key : Str) : Prop := ∀ e ∈ cacheFind cache key, e.value = none

/-- What holds where a thread is. -/
def Local (cfg : Config) (s : State) : Pc → Prop
  | .ask key _ => Missing s.cache key
  | .store e answer => Missing s.cache e.key ∧ (∀ v ∈ e.value, Sourced s e v) ∧ Transparent cfg s answer
  | .unlock _ _ answer => ∀ a ∈ answer, Transparent cfg s a
  | .returned a => Transparent cfg s a
  | _ => True

structure Inv (cfg : Config) (s : State) : Prop where
  faultless : s.fault = false
  times : ∀ p ∈ s.past, p.1 ≤ s.now
  current : (s.now, s.server) ∈ s.past
  keys : (s.cache.map Entry.key).Nodup
  cached : ∀ e ∈ s.cache, ∀ v ∈ e.value, Sourced s e v
  lock : ∀ t pc, s.threads[t]? = some pc → pc.locked = true → s.lock = some t
  position : ∀ pc ∈ s.threads, Local cfg s pc

variable {e : Entry} {v key : Str} {default : Option Str} {reachable : Bool}

section
variable {cfg : Config} {s s' : State} (hpast : ∀ p ∈ s.past, p ∈ s'.past)
include hpast

theorem Sourced.mono (h : Sourced s e v) : Sourced s' e v := by
  obtain ⟨p, hp, hrest⟩ := h
  exact ⟨p, hpast p hp, hrest⟩

theorem Held.mono {value : Str} {time : Nat} (h : Held cfg s key value time) :
    Held cfg s' key value time := by
  obtain ⟨p, hp, hrest⟩ := h
  exact ⟨p, hpast p hp, hrest⟩

theorem Transparent.mono {a : Answer} (h : Transparent cfg s a) : Transparent cfg s' a :=
  h.imp (fun h => ⟨h.1, h.2.mono hpast⟩) fun h => ⟨h.1, h.2.mono hpast⟩

/-- A call that is not at the cache, or whose cache stays, is where it was. -/
theorem Local.mono {pc : Pc} (hcache : pc.locked = true → s'.cache = s.cache) (h : Local cfg s pc) :
    Local cfg s' pc := by
  cases pc with
  | ask key default =>
    rw [Local, hcache rfl]
    exact h
  | store e answer =>
    obtain ⟨hmissing, hsourced, hanswer⟩ := h
    refine ⟨?_, fun v hv => (hsourced v hv).mono hpast, hanswer.mono hpast⟩
    rw [hcache rfl]
    exact hmissing
  | unlock key default answer => exact fun a ha => (h a ha).mono hpast
  | returned a => exact Transparent.mono hpast h
  | _ => trivial

end

section
variable {cfg : Config} {s s' : State} {t : Nat} {pc pc' : Pc}

section
variable (h : Inv cfg s) (ht : s.threads[t]? = some pc)
  (hthreads : s'.threads = s.threads.set t pc') (hnow : s'.now = s.now)
include h ht hthreads hnow

/-- One thread goes on. -/
theorem Inv.move (hpast : s'.past = (s'.now, s'.server) :: s.past) (hfault : s'.fault = false)
    (hcache : s'.cache = s.cache ∨ pc.locked = true) (hkeys : (s'.cache.map Entry.key).Nodup)
    (hcached : ∀ e ∈ s'.cache, ∀ v ∈ e.value, Sourced s' e v)
    (hlock : ∀ j, j ≠ t → s.lock = some j → s'.lock = some j) (hown : pc'.locked = true → s'.lock = some t)
    (hlocal : Local cfg s' pc') : Inv cfg s' := by
  have hold : ∀ p ∈ s.past, p ∈ s'.past := fun p hp => hpast ▸ mem_cons_of_mem _ hp
  have hcases : ∀ j pc₁, s'.threads[j]? = some pc₁ → pc₁ = pc' ∧ j = t ∨ j ≠ t ∧
    s.threads[j]? = some pc₁ := by
    intro j pc₁ hj
    rw [hthreads] at hj
    by_cases hjt : j = t
    · subst hjt
      rw [getElem?_set_self', ht] at hj
      exact .inl ⟨(Option.some.inj hj).symm, rfl⟩
    · rw [getElem?_set_ne (Ne.symm hjt)] at hj
      exact .inr ⟨hjt, hj⟩
  refine ⟨hfault, fun p hp => ?_, hpast ▸ mem_cons_self, hkeys, hcached, fun j pc₁ hj hl => ?_,
    fun pc₁ hpc₁ => ?_⟩
  · rw [hpast] at hp
    rcases mem_cons.mp hp with rfl | hp
    · exact Nat.le_refl _
    · rw [hnow]
      exact h.times p hp
  · rcases hcases j pc₁ hj with ⟨rfl, rfl⟩ | ⟨hne, hj⟩
    · exact hown hl
    · exact hlock j hne (h.lock j pc₁ hj hl)
  · obtain ⟨j, hj⟩ := mem_iff_getElem?.mp hpc₁
    rcases hcases j pc₁ hj with ⟨rfl, rfl⟩ | ⟨hne, hj⟩
    · exact hlocal
    · refine (h.position pc₁ (mem_of_getElem? hj)).mono hold fun hl => ?_
      -- only the thread with the lock changes the cache
      refine hcache.resolve_right fun hpc => hne ?_
      have h₁ := h.lock j pc₁ hj hl
      rw [h.lock t pc ht hpc] at h₁
      exact (Option.some.inj h₁).symm

/-- One thread goes on and the cache stays. -/
theorem Inv.goto (hpast : s'.past = (s'.now, s'.server) :: s.past) (hfault : s'.fault = s.fault)
    (hcache : s'.cache = s.cache) (hlock : ∀ j, j ≠ t → s.lock = some j → s'.lock = some j)
    (hown : pc'.locked = true → s'.lock = some t) (hlocal : Local cfg s' pc') : Inv cfg s' := by
  refine h.move ht hthreads hnow hpast (hfault.trans h.faultless) (.inl hcache) ?_ ?_ hlock hown hlocal
  · rw [hcache]
    exact h.keys
  · rw [hcache]
    intro e he v hv
    exact (h.cached e he v hv).mono fun p hp => hpast ▸ mem_cons_of_mem _ hp

end

theorem Inv.begin (h : Inv cfg s) (hstep : begin s t pc' = some s') (hlocked : pc'.locked = false)
    (hlocal : Local cfg s'.remember pc') : Inv cfg s'.remember := by
  obtain ⟨ht, hstep⟩ := ite_none_right_eq_some.mp hstep
  cases hstep
  exact h.goto ht rfl rfl rfl rfl rfl (fun _ _ hj => hj) (fun hl => by rw [hlocked] at hl; cases hl) hlocal

/-- A step of no thread. -/
theorem Inv.outside (h : Inv cfg s) (hthreads : s'.threads = s.threads) (hnow : s.now ≤ s'.now)
    (hpast : s'.past = (s'.now, s'.server) :: s.past) (hfault : s'.fault = s.fault)
    (hcache : s'.cache = s.cache) (hlock : s'.lock = s.lock) : Inv cfg s' := by
  have hold : ∀ p ∈ s.past, p ∈ s'.past := fun p hp => hpast ▸ mem_cons_of_mem _ hp
  refine ⟨hfault.trans h.faultless, fun p hp => ?_, hpast ▸ mem_cons_self, hcache ▸ h.keys, ?_, ?_, ?_⟩
  · rw [hpast] at hp
    rcases mem_cons.mp hp with rfl | hp
    · exact Nat.le_refl _
    · exact Nat.le_trans (h.times p hp) hnow
  · rw [hcache]
    intro e he v hv
    exact (h.cached e he v hv).mono hold
  · rw [hthreads, hlock]
    exact h.lock
  · rw [hthreads]
    exact fun pc hpc => (h.position pc hpc).mono hold fun _ => hcache

end

/-! ## The cache -/

section
variable {cfg : Config} {s : State}

theorem map_key_remove (cache : List Entry) (key : Str) :
    (runtimeCacheRemove cache key).map Entry.key = cache.map Entry.key :=
  map_modify Entry.key key (f := Entry.invalidate) (fun _ => rfl) cache

/-- Removal leaves the other values. -/
theorem mem_remove {cache : List Entry} (he : e ∈ runtimeCacheRemove cache key) (hv : v ∈ e.value) :
    e ∈ cache := by
  rcases mem_modify _ he with ⟨old, -, rfl⟩ | he
  · cases hv
  · exact he

theorem missing_remove (cache : List Entry) (key : Str) : Missing (runtimeCacheRemove cache key) key := by
  intro e he
  rw [cacheFind, runtimeCacheRemove, lookup_modify Entry.key key key Entry.invalidate fun _ => id,
    if_pos rfl] at he
  obtain ⟨old, -, rfl⟩ := map_eq_some_iff.mp he
  rfl

/-- A value that is found in time was had by the server not long ago. -/
theorem Inv.fresh (h : Inv cfg s) (he : e ∈ s.cache) (hv : v ∈ e.value)
    (hfresh : ¬ (e.prompt cfg).Stale cfg s.now) (hsecond : 0 < cfg.second)
    (hdefault : ∀ d ∈ e.fallback, default.getD [] = d) :
    Transparent cfg s ⟨e.key, default, v, s.now⟩ := by
  obtain ⟨p, hp, hanswered, hvalue⟩ := h.cached e he v hv
  have hle : p.1 ≤ s.now := h.times p hp
  have hwindow : s.now ≤ p.1 + (cfg.timeout + 1).toNat * cfg.second := by
    simp only [Entry.Stale, Entry.prompt, ← hanswered] at hfresh
    have hdiv : p.1 / cfg.second ≤ s.now / cfg.second := Nat.div_le_div_right hle
    have hage : s.now / cfg.second ≤ p.1 / cfg.second + cfg.timeout.toNat ∧
        (cfg.timeout + 1).toNat = cfg.timeout.toNat + 1 := by omega
    have hnow := Nat.lt_mul_div_succ s.now hsecond
    have hthen := Nat.mul_div_le p.1 cfg.second
    have hmul := Nat.mul_le_mul_left cfg.second hage.1
    rw [hage.2]
    rw [Nat.mul_add] at hmul hnow
    rw [Nat.add_mul, Nat.mul_comm _ cfg.second]
    omega
  cases hfallback : e.fallback with
  | none =>
    rw [hfallback] at hvalue
    exact .inl ⟨hvalue.1, p, hp, hle, hwindow, hvalue.2⟩
  | some d =>
    rw [hfallback] at hvalue
    exact .inr ⟨hvalue.1.trans (hdefault d hfallback).symm, p, hp, hle, hwindow, hvalue.2⟩

end

theorem propertyGetSocket_cases {reply v : Str} (h : propertyGetSocket reply default = some v) :
    (reply ≠ [] ∧ v = reply) ∨ (reply = [] ∧ v = default.getD []) := by
  unfold propertyGetSocket at h
  split at h
  · obtain ⟨-, h⟩ := ite_none_left_eq_some.mp h
    cases h
    exact .inr ⟨rfl, rfl⟩
  · rename_i hne
    cases h
    by_cases hv : reply = []
    · cases default with
      | none => exact .inr ⟨hv, hv⟩
      | some d => exact absurd rfl (hne d hv)
    · exact .inl ⟨hv, rfl⟩

/-! ## Steps -/

section
variable {cfg : Config} {s s' : State} {t : Nat}

theorem Inv.lookup (h : Inv cfg s) (hsecond : 0 < cfg.second)
    (ht : s.threads[t]? = some (.lookup key default)) (hcareful : Careful cfg s (.advance t reachable))
    (hstep : advance cfg s t reachable (.lookup key default) = some s') : Inv cfg s'.remember := by
  have hlocked : s.lock = some t := h.lock t _ ht rfl
  have hserved := hcareful _ ht (key, default) rfl
  cases hfind : cacheFind s.cache key with
  | none =>
    simp only [advance, runtimeCacheGet, hfind] at hstep
    cases hstep
    refine h.goto ht rfl rfl rfl rfl rfl (fun _ _ hj => hj) (fun _ => hlocked) fun e he => ?_
    change e ∈ cacheFind s.cache key at he
    rw [hfind] at he
    cases he
  | some e =>
    have hmem := mem_of_lookup _ hfind
    have hkey := key_of_lookup _ hfind
    cases hvalue : e.value with
    | none =>
      simp only [advance, runtimeCacheGet, hfind, hvalue] at hstep
      cases hstep
      refine h.goto ht rfl rfl rfl rfl rfl (fun _ _ hj => hj) (fun _ => hlocked) fun e' he' => ?_
      change e' ∈ cacheFind s.cache key at he'
      rw [hfind] at he'
      cases he'
      exact hvalue
    | some v =>
      by_cases hstale : e.Stale cfg s.now
      · simp only [advance, runtimeCacheGet, hfind, hvalue, hstale, if_true] at hstep
        cases hstep
        refine h.move ht rfl rfl rfl h.faultless (.inr rfl) ?_ (fun e' he' v' hv' => ?_)
          (fun _ _ hj => hj) (fun _ => hlocked) (missing_remove s.cache key)
        · change ((runtimeCacheRemove s.cache key).map Entry.key).Nodup
          rw [map_key_remove]
          exact h.keys
        · exact (h.cached e' (mem_remove he' hv') v' hv').mono fun p hp => mem_cons_of_mem _ hp
      · simp only [advance, runtimeCacheGet, hfind, hvalue, hstale, if_false] at hstep
        cases hstep
        refine h.goto ht rfl rfl rfl rfl rfl (fun _ _ hj => hj) (fun _ => hlocked) fun a ha => ?_
        cases ha
        subst hkey
        obtain ⟨hfresh, hdefault⟩ := hserved e hfind ⟨by simp [hvalue], hstale⟩
        exact (h.fresh hmem hvalue hfresh hsecond hdefault).mono fun p hp => mem_cons_of_mem _ hp

theorem Inv.ask (h : Inv cfg s) (ht : s.threads[t]? = some (.ask key default))
    (hstep : advance cfg s t reachable (.ask key default) = some s') : Inv cfg s'.remember := by
  have hlocked : s.lock = some t := h.lock t _ ht rfl
  have hmissing : Missing s.cache key := h.position _ (mem_of_getElem? ht)
  have hfail : Inv cfg (s.goto t (.unlock key default none)).remember :=
    h.goto ht rfl rfl rfl rfl rfl (fun _ _ hj => hj) (fun _ => hlocked) nofun
  rw [advance] at hstep
  split at hstep
  · split at hstep
    case h_1 v hv =>
      cases hstep
      refine h.goto ht rfl rfl rfl rfl rfl (fun _ _ hj => hj) (fun _ => hlocked)
        ⟨hmissing, fun v' hv' => ?_, ?_⟩
      · cases hv'
        refine ⟨(s.now, s.server), mem_cons_self, rfl, ?_⟩
        rcases propertyGetSocket_cases hv with ⟨hne, rfl⟩ | ⟨hnil, rfl⟩
        · rw [if_neg hne]
          exact ⟨hne, rfl⟩
        · rw [if_pos hnil]
          exact ⟨rfl, hnil⟩
      · have hheld : ∀ (s₁ : State) x, (s.now, s.server) ∈ s₁.past → s.server key = x →
          Held cfg s₁ key x s.now :=
          fun s₁ x hp hx => ⟨_, hp, Nat.le_refl _, Nat.le_add_right _ _, hx⟩
        rcases propertyGetSocket_cases hv with ⟨hne, rfl⟩ | ⟨hnil, rfl⟩
        · exact .inl ⟨hne, hheld _ _ mem_cons_self rfl⟩
        · exact .inr ⟨rfl, hheld _ _ mem_cons_self hnil⟩
    case h_2 =>
      cases hstep
      exact hfail
  · cases hstep
    exact hfail

theorem Inv.store (h : Inv cfg s) {answer : Answer} (ht : s.threads[t]? = some (.store e answer))
    (hstep : advance cfg s t reachable (.store e answer) = some s') : Inv cfg s'.remember := by
  have hlocked : s.lock = some t := h.lock t _ ht rfl
  obtain ⟨hmissing, hsourced, hanswer⟩ := h.position _ (mem_of_getElem? ht)
  -- the lock has kept the entry without a value, so the assertion holds
  have hinsert : ∃ cache,
      runtimeCacheInsert s.cache { e with lastUpdate := s.now / cfg.second } = some cache ∧
      (cache.map Entry.key).Nodup ∧ ∀ x ∈ cache, x = { e with lastUpdate := s.now / cfg.second } ∨
        x ∈ s.cache := by
    rw [runtimeCacheInsert]
    cases hfind : cacheFind s.cache e.key with
    | none =>
      refine ⟨_, rfl, nodup_cons.mpr ⟨fun hm => ?_, h.keys⟩, fun x hx => mem_cons.mp hx⟩
      obtain ⟨x, hx, hkey⟩ := mem_map.mp hm
      exact (lookup_eq_none _).mp hfind x hx hkey
    | some old =>
      refine ⟨_, if_pos (hmissing old hfind), ?_, fun x hx => ?_⟩
      · obtain ⟨before, after, hsplit, -, hmodify⟩ := exists_split Entry.key hfind
        have hold := key_of_lookup _ hfind
        have hkeys := h.keys
        rw [hmodify]
        rw [hsplit] at hkeys
        simp only [map_append, map_cons] at hkeys ⊢
        rw [hold] at hkeys
        exact hkeys
      · exact (mem_modify _ hx).imp_left fun ⟨_, _, hx⟩ => hx
  obtain ⟨cache, hcache, hkeys, hmem⟩ := hinsert
  rw [advance, hcache] at hstep
  cases hstep
  refine h.move ht rfl rfl rfl h.faultless (.inr rfl) hkeys (fun x hx v hv => ?_) (fun _ _ hj => hj)
    (fun _ => hlocked) fun a ha => ?_
  · rcases hmem x hx with rfl | hx
    · obtain ⟨p, hp, hrest⟩ := hsourced v hv
      exact ⟨p, mem_cons_of_mem _ hp, hrest⟩
    · exact (h.cached x hx v hv).mono fun p hp => mem_cons_of_mem _ hp
  · cases ha
    exact hanswer.mono fun p hp => mem_cons_of_mem _ hp

theorem Inv.advance (h : Inv cfg s) (hsecond : 0 < cfg.second) {pc : Pc} (ht : s.threads[t]? = some pc)
    (hcareful : Careful cfg s (.advance t reachable)) (hstep : advance cfg s t reachable pc = some s') :
    Inv cfg s'.remember := by
  have hmine : pc.locked = true → ∀ j, j ≠ t → s.lock = some j → False := by
    intro hl j hne hj
    rw [h.lock t pc ht hl] at hj
    exact hne (Option.some.inj hj).symm
  cases pc with
  | idle => cases hstep
  | get _ _ | set _ _ =>
    obtain ⟨hfree, hstep⟩ := ite_none_left_eq_some.mp hstep
    cases hstep
    refine h.goto ht rfl rfl rfl rfl rfl (fun j _ hj => ?_) (fun _ => rfl) trivial
    rw [hj] at hfree
    exact absurd rfl hfree
  | lookup key default => exact h.lookup hsecond ht hcareful hstep
  | ask key default => exact h.ask ht hstep
  | store e answer => exact h.store ht hstep
  | unlock key default answer =>
    have hanswer := h.position _ (mem_of_getElem? ht)
    cases hstep
    cases answer with
    | none => exact h.goto ht rfl rfl rfl rfl rfl (fun j hne hj => (hmine rfl j hne hj).elim) nofun trivial
    | some a =>
      refine h.goto ht rfl rfl rfl rfl rfl (fun j hne hj => (hmine rfl j hne hj).elim) nofun ?_
      exact Transparent.mono (fun p hp => mem_cons_of_mem _ hp) (hanswer a rfl)
  | search _ _ | searched _ | returned _ | send _ _ =>
    cases hstep
    exact h.goto ht rfl rfl rfl rfl rfl (fun _ _ hj => hj) nofun trivial
  | remove key value =>
    cases hstep
    refine h.move ht rfl rfl rfl h.faultless (.inr rfl) ?_ (fun e he v hv => ?_) (fun _ _ hj => hj)
      (fun _ => h.lock t _ ht rfl) trivial
    · change ((runtimeCacheRemove s.cache key).map Entry.key).Nodup
      rw [map_key_remove]
      exact h.keys
    · exact (h.cached e (mem_remove he hv) v hv).mono fun p hp => mem_cons_of_mem _ hp
  | unlockSet key value =>
    cases hstep
    exact h.goto ht rfl rfl rfl rfl rfl (fun j hne hj => (hmine rfl j hne hj).elim) nofun trivial

end

theorem Inv.step {cfg : Config} {s s' : State} {a : Action} (hsecond : 0 < cfg.second)
    (h : Inv cfg s) (hcareful : Careful cfg s a) (hstep : step cfg s a = some s') : Inv cfg s' := by
  rw [PropertyCache.step, h.faultless, if_neg Bool.false_ne_true] at hstep
  obtain ⟨s₁, hperform, rfl⟩ := map_eq_some_iff.mp hstep
  have hnothing : Inv cfg s.remember := h.outside rfl (Nat.le_refl _) rfl rfl rfl rfl
  cases a with
  | get t key default =>
    rw [perform] at hperform
    split at hperform
    · cases hperform
      exact hnothing
    · exact h.begin hperform rfl trivial
  | set t key value =>
    simp only [perform] at hperform
    split at hperform
    · cases hperform
      exact hnothing
    · exact h.begin hperform rfl trivial
  | advance t reachable =>
    rw [perform] at hperform
    split at hperform
    case h_1 => cases hperform
    case h_2 pc hpc => exact h.advance hsecond hpc hcareful hperform
  | tick n =>
    cases hperform
    exact h.outside rfl (Nat.le_add_right _ _) rfl rfl rfl rfl
  | change key value =>
    cases hperform
    exact h.outside rfl (Nat.le_refl _) rfl rfl rfl rfl

theorem Inv.start (cfg : Config) (n : Nat) (server : Str → Str) : Inv cfg (State.start n server) := by
  have hidle : ∀ {pc : Pc}, pc ∈ (State.start n server).threads → pc = .idle := fun hpc =>
    eq_of_mem_replicate hpc
  refine ⟨rfl, fun p hp => ?_, mem_singleton_self _, nodup_nil, nofun, fun t pc ht hl => ?_,
    fun pc hpc => ?_⟩
  · rw [mem_singleton.mp hp]
    exact Nat.le_refl _
  · rw [hidle (mem_of_getElem? ht)] at hl
    cases hl
  · rw [hidle hpc]
    trivial

/-- In every run in which the cache gives values that are not too old, counted from the server's
answer, and stored defaults only to calls with the same default, every call returns what the server
had, or its own default, and the cache's assertion holds. -/
theorem run_transparent (cfg : Config) (hsecond : 0 < cfg.second) (n : Nat) (server : Str → Str)
    (actions : List Action) (s : State)
    (hcareful : Transition.Along (step cfg) (Careful cfg) (State.start n server) actions)
    (hrun : Transition.run (step cfg) (State.start n server) actions = some s) :
    s.fault = false ∧ ∀ a, .returned a ∈ s.threads → Transparent cfg s a := by
  have hinv : Inv cfg s := Transition.run_invariant_along
    (fun _ _ _ h hok ht => h.step hsecond hok ht) actions _ s (Inv.start cfg n server) hcareful hrun
  exact ⟨hinv.faultless, fun a ha => hinv.position _ ha⟩

def sampleConfig : Config := ⟨100, 10, fun _ => none⟩

/-- A call of `my_property_get` to its end: through the server, or with a value of the cache. -/
def getThrough (t : Nat) (key : Str) (default : Option Str) : List Action :=
  .get t key default :: List.replicate 5 (.advance t true)

def getCached (t : Nat) (key : Str) (default : Option Str) : List Action :=
  .get t key default :: List.replicate 3 (.advance t true)

/-- A value is read from the server, changed there, and read again from the cache. -/
def sampleUse : List Action :=
  .change [1] [7] :: getThrough 0 [1] none ++ .change [1] [8] :: .tick 1099 :: getCached 1 [1] (some [9])

theorem run_transparent_sampleUse :
    ∃ s, Transition.run (step sampleConfig) (State.start 2 fun _ => []) sampleUse = some s ∧
      .returned ⟨[1], some [9], [7], 1099⟩ ∈ s.threads ∧ s.fault = false ∧
      ∀ a, .returned a ∈ s.threads → Transparent sampleConfig s a := by
  have hrun : (Transition.run (step sampleConfig) (State.start 2 fun _ => []) sampleUse).map
      (fun s => decide (.returned ⟨[1], some [9], [7], 1099⟩ ∈ s.threads)) = some true := by
    decide +kernel
  obtain ⟨s, hs, hreturned⟩ := map_eq_some_iff.mp hrun
  exact ⟨s, hs, of_decide_eq_true hreturned,
    run_transparent sampleConfig (by decide) 2 _ sampleUse s (by decide +kernel) hs⟩

/-- Two calls for a key that the server has no value for: the second returns the default of the
first. -/
theorem default_of_another_call :
    (Transition.run (step sampleConfig) (State.start 2 fun _ => [])
      (getThrough 0 [1] (some [7]) ++ getCached 1 [1] (some [9]))).map (fun s =>
        (decide (.returned ⟨[1], some [9], [7], 0⟩ ∈ s.threads),
          decide (Transparent sampleConfig s ⟨[1], some [9], [7], 0⟩))) = some (true, false) := by
  decide +kernel

end PropertyCache
