import Libhybris.WaylandWindow
import Mathlib.Data.List.Nodup

/-!
# Consistency of the Wayland window's pool

The window's references are the buffers of the pool and the shown buffers of earlier pools. Events
find their buffer because a proxy that may still be released belongs to a shown buffer, and every
way a buffer leaves the window takes it out of both lists and drops its reference.
-/
namespace WaylandWindow

open RefCount Option

/-- The buffers the window has a reference to. -/
def State.windowRefs (s : State) : List Nat := s.bufList ++ s.fronted.filter (· ∉ s.bufList)

def Event.proxy : Event → Option Nat
  | .release w => some w
  | .created _ => none
  | .frame _ => none

/-- The commits whose release has not been handled. -/
def State.outstanding (s : State) : List Nat := s.committed ++ s.events.filterMap Event.proxy

def State.value (s : State) (b : Nat) : Option Buffer := values s.buffers b

section
variable (s : State) (b : Nat)

theorem wlbuffer_eq : s.wlbuffer b = (s.value b).bind Buffer.wlbuffer := by
  rw [State.value, values, bind_map]
  rfl

theorem creating_eq : s.creating b = ((s.value b).map Buffer.creating).getD false := by
  rw [State.value, values, map_map]
  rfl

theorem idle_eq : s.idle b = ((s.value b).map fun v => !v.busy).getD false := by
  rw [State.value, values, map_map]
  rfl

theorem alive_eq : s.alive b = (s.value b).isSome := by
  rw [State.alive, State.value, values, isSome_map]

end

/-! ## The invariant -/

/-- The references: whose they are, and how many. -/
structure Refs (s : State) : Prop where
  pool : s.bufList.Nodup
  fronted : s.fronted.Nodup
  balanced : Balanced s.buffers (s.windowRefs ++ s.clients)
  accounts : ∀ b, (if b < s.nextBuffer then 1 else 0) + s.requeues.count b =
    s.drops.count b + s.windowRefs.count b
  unborn : ∀ b, s.nextBuffer ≤ b → s.value b = none
  held : s.held.Nodup
  heldClients : ∀ b ∈ s.held, b ∈ s.clients
  heldFronted : ∀ b ∈ s.held, b ∉ s.fronted

/-- What the fields of a buffer say about it. -/
structure Fields (s : State) : Prop where
  busy : ∀ b v, s.value b = some v → b ∈ s.held ∨ b ∈ s.fronted → v.busy = true
  creating : ∀ b v, s.value b = some v → v.creating = true → b ∈ s.fronted
  shown : ∀ b ∈ s.fronted, ∃ v w, s.value b = some v ∧ v.wlbuffer = some w
  proxies : ∀ b v w, s.value b = some v → v.wlbuffer = some w → w ∈ s.proxies
  unique : ∀ b b' v v' w, s.value b = some v → s.value b' = some v' → v.wlbuffer = some w →
    v'.wlbuffer = some w → b = b'
  owned : ∀ b v w, s.value b = some v → v.wlbuffer = some w → b ∈ s.bufList ∨ b ∈ s.fronted

/-- Releases find their buffer, and its creation was acknowledged before. -/
structure Releases (s : State) : Prop where
  once : s.outstanding.Nodup
  finds : ∀ w ∈ s.outstanding, w ∈ s.proxies → ∃ b ∈ s.fronted, ∃ v, s.value b = some v ∧
    v.wlbuffer = some w
  old : ∀ w, w ∈ s.outstanding ∨ w ∈ s.proxies → w < s.nextObject
  ordered : ∀ before after w, s.events = before ++ .release w :: after → ∀ b v, s.value b = some v →
    v.wlbuffer = some w → v.creating = true → .created b ∈ before

structure Inv (s : State) : Prop where
  refs : Refs s
  fields : Fields s
  releases : Releases s

/-- The counter is right. -/
def State.Counted (s : State) : Prop := s.freeBufs = s.bufList.countP s.idle

variable {s : State}

theorem count_windowRefs (hp : s.bufList.Nodup) (hf : s.fronted.Nodup) (b : Nat) :
    s.windowRefs.count b = if b ∈ s.bufList ∨ b ∈ s.fronted then 1 else 0 := by
  rw [State.windowRefs, List.count_append, hp.count, (hf.filter _).count]
  by_cases hpool : b ∈ s.bufList
  · simp [hpool, List.mem_filter]
  · by_cases hfront : b ∈ s.fronted
    · simp [hpool, hfront, List.mem_filter]
    · simp [hpool, hfront, List.mem_filter]

variable {b w x : Nat} {l : List Nat} {rest : List Event}

theorem mem_windowRefs : b ∈ s.windowRefs ↔ b ∈ s.bufList ∨ b ∈ s.fronted := by
  simp only [State.windowRefs, List.mem_append, List.mem_filter, decide_eq_true_eq]
  constructor
  · rintro (h | ⟨h, -⟩)
    · exact .inl h
    · exact .inr h
  · intro h
    by_cases hpool : b ∈ s.bufList
    · exact .inl hpool
    · exact .inr ⟨h.resolve_left hpool, hpool⟩

theorem Refs.alive (h : Refs s) (hb : b ∈ s.bufList ∨ b ∈ s.fronted ∨ b ∈ s.clients) :
    ∃ v, s.value b = some v := by
  refine isSome_iff_exists.mp (h.balanced.values_isSome.mpr (List.mem_append.mpr ?_))
  rcases hb with hb | hb | hb
  · exact .inl (mem_windowRefs.mpr (.inl hb))
  · exact .inl (mem_windowRefs.mpr (.inr hb))
  · exact .inr hb

/-! ## A buffer leaves the window -/

/-- A buffer is taken out of both lists and destroyed. -/
def evict (s : State) (b : Nat) (counted : Bool) : State :=
  { drop { s with fronted := s.fronted.filter (· ≠ b) } b counted with
    bufList := s.bufList.filter (· ≠ b) }

theorem evict_value_of_ne (counted : Bool) (hx : x ≠ b) : (evict s b counted).value x = s.value x := by
  change values (release (modify s.buffers b Buffer.close) b) x = values s.buffers x
  rw [values_release_of_ne hx, values_modify, if_neg hx]

variable {v : Buffer}

theorem evict_value_some {counted : Bool} (h : (evict s b counted).value x = some v) :
    (x ≠ b ∧ s.value x = some v) ∨ (x = b ∧ ∃ v', s.value b = some v' ∧ v = v'.close) := by
  by_cases hx : x = b
  · subst hx
    have h' : values (release (modify s.buffers x Buffer.close) x) x = some v := h
    have hmodify := values_release_some h'
    rw [values_modify, if_pos rfl] at hmodify
    obtain ⟨v', hv', rfl⟩ := map_eq_some_iff.mp hmodify
    exact .inr ⟨rfl, v', hv', rfl⟩
  · rw [evict_value_of_ne counted hx] at h
    exact .inl ⟨hx, h⟩

theorem mem_filter_ne : x ∈ l.filter (· ≠ b) ↔ x ∈ l ∧ x ≠ b := by
  simp

section
variable (h : Refs s) (hb : b ∈ s.bufList ∨ b ∈ s.fronted) (counted : Bool)
include h hb

theorem count_evict (x : Nat) :
    s.windowRefs.count x = (b :: (evict s b counted).windowRefs).count x := by
  have hpool : (evict s b counted).bufList.Nodup := h.pool.filter _
  have hfronted : (evict s b counted).fronted.Nodup := h.fronted.filter _
  rw [List.count_cons, count_windowRefs h.pool h.fronted, count_windowRefs hpool hfronted]
  change _ = (if x ∈ s.bufList.filter (· ≠ b) ∨ x ∈ s.fronted.filter (· ≠ b) then 1 else 0) + _
  by_cases hx : x = b
  · subst hx
    simp [hb]
  · simp [hx, Ne.symm hx]

theorem Refs.evict :
    Refs (evict s b counted) where
  pool := h.pool.filter _
  fronted := h.fronted.filter _
  balanced := by
    refine Balanced.release ((h.balanced.modify b Buffer.close).perm (List.perm_iff_count.mpr fun x => ?_))
    have hcount := count_evict h hb counted x
    rw [List.count_append, hcount]
    simp only [List.count_cons, List.count_append]
    change _ = (WaylandWindow.evict s b counted).windowRefs.count x + s.clients.count x + _
    omega
  accounts := by
    intro x
    have hcount := count_evict h hb counted x
    have haccounts := h.accounts x
    change _ = (b :: s.drops).count x + _
    rw [List.count_cons] at hcount ⊢
    refine haccounts.trans ?_
    omega
  unborn := by
    intro x hx
    by_contra hne
    obtain ⟨v, hv⟩ := ne_none_iff_exists'.mp hne
    rcases evict_value_some hv with ⟨-, hv⟩ | ⟨rfl, v', hv, -⟩
    · rw [h.unborn x hx] at hv
      cases hv
    · rw [h.unborn x hx] at hv
      cases hv
  held := h.held
  heldClients := h.heldClients
  heldFronted := fun x hx hmem => h.heldFronted x hx (List.mem_of_mem_filter hmem)

end

theorem Fields.evict (h : Fields s) (b : Nat) (counted : Bool) : Fields (evict s b counted) where
  busy := by
    intro x v hv hx
    have hx' : x ∈ s.held ∨ x ∈ s.fronted := hx.imp id List.mem_of_mem_filter
    rcases evict_value_some hv with ⟨-, hv⟩ | ⟨rfl, v', hv', rfl⟩
    · exact h.busy x v hv hx'
    · exact h.busy x v' hv' hx'
  creating := by
    intro x v hv hc
    rcases evict_value_some hv with ⟨hne, hv⟩ | ⟨rfl, v', hv, rfl⟩
    · exact mem_filter_ne.mpr ⟨h.creating x v hv hc, hne⟩
    · cases hc
  shown := by
    intro x hx
    obtain ⟨hx, hne⟩ := mem_filter_ne.mp hx
    rw [evict_value_of_ne counted hne]
    exact h.shown x hx
  proxies := by
    intro x v w hv hw
    rcases evict_value_some hv with ⟨hne, hv⟩ | ⟨rfl, v', hv, rfl⟩
    · refine List.mem_filter.mpr ⟨h.proxies x v w hv hw, decide_eq_true fun hb => hne ?_⟩
      rw [wlbuffer_eq] at hb
      obtain ⟨v', hv', hw'⟩ := bind_eq_some_iff.mp hb
      exact h.unique x b v v' w hv hv' hw hw'
    · cases hw
  unique := by
    intro x x' v v' w hv hv' hw hw'
    rcases evict_value_some hv with ⟨-, hv⟩ | ⟨rfl, v₀, hv, rfl⟩
    · rcases evict_value_some hv' with ⟨-, hv'⟩ | ⟨rfl, v₀, hv', rfl⟩
      · exact h.unique x x' v v' w hv hv' hw hw'
      · cases hw'
    · cases hw
  owned := by
    intro x v w hv hw
    rcases evict_value_some hv with ⟨hne, hv⟩ | ⟨rfl, v', hv, rfl⟩
    · exact (h.owned x v w hv hw).imp (fun hm => mem_filter_ne.mpr ⟨hm, hne⟩)
        fun hm => mem_filter_ne.mpr ⟨hm, hne⟩
    · cases hw

theorem Releases.evict (h : Releases s) (b : Nat) (counted : Bool) : Releases (evict s b counted) where
  once := h.once
  finds := by
    intro w hw hproxy
    obtain ⟨hproxy, hne⟩ := List.mem_filter.mp hproxy
    obtain ⟨x, hx, v, hv, hwl⟩ := h.finds w hw hproxy
    have hxb : x ≠ b := by
      rintro rfl
      refine of_decide_eq_true hne ?_
      rw [wlbuffer_eq]
      exact bind_eq_some_iff.mpr ⟨v, hv, hwl⟩
    refine ⟨x, mem_filter_ne.mpr ⟨hx, hxb⟩, v, ?_, hwl⟩
    rw [evict_value_of_ne counted hxb]
    exact hv
  old := fun w hw => h.old w (hw.imp id List.mem_of_mem_filter)
  ordered := by
    intro before after w hevents x v hv hw hc
    rcases evict_value_some hv with ⟨-, hv⟩ | ⟨rfl, v', hv, rfl⟩
    · exact h.ordered before after w hevents x v hv hw hc
    · cases hc

theorem Inv.evict (h : Inv s) (hb : b ∈ s.bufList ∨ b ∈ s.fronted) (counted : Bool) :
    Inv (evict s b counted) :=
  ⟨h.refs.evict hb counted, h.fields.evict b counted, h.releases.evict b counted⟩

/-! ## The counter -/

theorem countP_split {p : Nat → Bool} (hl : l.Nodup) (hb : b ∈ l) :
    l.countP p = (if p b then 1 else 0) + (l.filter (· ≠ b)).countP p := by
  have hperm := List.perm_cons_erase hb
  rw [hl.erase_eq_filter] at hperm
  rw [hperm.countP_eq, List.countP_cons, Nat.add_comm]
  simp [bne, beq_eq_decide]

/-- Idleness of the other buffers does not change. -/
theorem countP_idle_congr {s' : State} (h : ∀ x ∈ l, s'.value x = s.value x) :
    l.countP s'.idle = l.countP s.idle := by
  refine List.countP_congr fun x hx => ?_
  rw [idle_eq, idle_eq, h x hx]

theorem evict_counted (h : Inv s) (hc : s.Counted) (hb : b ∈ s.bufList) (hidle : s.idle b = true) :
    (evict s b true).Counted := by
  have hsplit := countP_split (p := s.idle) h.refs.pool hb
  rw [if_pos hidle] at hsplit
  change s.freeBufs - 1 = ((s.bufList.filter (· ≠ b)).countP (evict s b true).idle : Int)
  rw [countP_idle_congr (s := s) fun x hx => evict_value_of_ne true (mem_filter_ne.mp hx).2, hc]
  omega

theorem filter_ne_of_not_mem (hb : b ∉ l) : l.filter (· ≠ b) = l := by
  refine List.filter_eq_self.mpr fun x hx => decide_eq_true ?_
  rintro rfl
  exact hb hx

theorem evict_counted_of_not_mem (hc : s.Counted) (hb : b ∉ s.bufList) : (evict s b false).Counted := by
  change s.freeBufs = ((s.bufList.filter (· ≠ b)).countP (evict s b false).idle : Int)
  rw [countP_idle_congr (s := s) fun x hx => evict_value_of_ne false (mem_filter_ne.mp hx).2,
    filter_ne_of_not_mem hb]
  exact hc

/-- The buffers of the second state are buffers of the first with the same proxies, no more
creations are awaited, and what is shown is still there. -/
structure Alike (s s' : State) : Prop where
  back : ∀ x v', s'.value x = some v' → ∃ v, s.value x = some v ∧ v'.wlbuffer = v.wlbuffer ∧
    (v'.creating = true → v.creating = true)
  shown : ∀ x ∈ s.fronted, (s.value x).isSome → (s'.value x).isSome

section Alike

variable {s' : State}

theorem Alike.proxy (ha : Alike s s') (hx : x ∈ s.fronted) (hv : s.value x = some v)
    (hw : v.wlbuffer = some w) : ∃ v', s'.value x = some v' ∧ v'.wlbuffer = some w := by
  obtain ⟨v', hv'⟩ := isSome_iff_exists.mp (ha.shown x hx (by rw [hv]; rfl))
  obtain ⟨v₀, hv₀, hwl, -⟩ := ha.back x v' hv'
  rw [hv] at hv₀
  cases hv₀
  exact ⟨v', hv', hwl.trans hw⟩

theorem Fields.alike (h : Fields s) (ha : Alike s s') (hfronted : s'.fronted ⊆ s.fronted)
    (hkept : ∀ x ∈ s.fronted, x ∈ s'.fronted ∨ x ∈ s'.bufList ∧ s.creating x = false)
    (hpool : s'.bufList = s.bufList) (hproxies : s'.proxies = s.proxies)
    (hbusy : ∀ b v, s'.value b = some v → b ∈ s'.held ∨ b ∈ s'.fronted → v.busy = true) : Fields s' where
  busy := hbusy
  creating := by
    intro x v' hv' hc
    obtain ⟨v, hv, -, hcreating⟩ := ha.back x v' hv'
    refine (hkept x (h.creating x v hv (hcreating hc))).resolve_right fun hnot => ?_
    rw [creating_eq, hv, map_some, getD_some, hcreating hc] at hnot
    cases hnot.2
  shown := by
    intro x hx
    obtain ⟨v, w, hv, hw⟩ := h.shown x (hfronted hx)
    obtain ⟨v', hv', hw'⟩ := ha.proxy (hfronted hx) hv hw
    exact ⟨v', w, hv', hw'⟩
  proxies := by
    intro x v' w hv' hw
    obtain ⟨v, hv, hwl, -⟩ := ha.back x v' hv'
    rw [hproxies]
    exact h.proxies x v w hv (hwl ▸ hw)
  unique := by
    intro x x' v v' w hv hv' hw hw'
    obtain ⟨u, hu, hwl, -⟩ := ha.back x v hv
    obtain ⟨u', hu', hwl', -⟩ := ha.back x' v' hv'
    exact h.unique x x' u u' w hu hu' (hwl ▸ hw) (hwl' ▸ hw')
  owned := by
    intro x v' w hv' hw
    obtain ⟨v, hv, hwl, -⟩ := ha.back x v' hv'
    rcases h.owned x v w hv (hwl ▸ hw) with hx | hx
    · exact .inl (hpool ▸ hx)
    · exact (hkept x hx).symm.imp And.left id

theorem Alike.finds (ha : Alike s s') (h : Releases s) (hw : w ∈ s.outstanding)
    (hproxy : w ∈ s.proxies) : ∃ b ∈ s.fronted, ∃ v, s'.value b = some v ∧ v.wlbuffer = some w := by
  obtain ⟨x, hx, v, hv, hwl⟩ := h.finds w hw hproxy
  obtain ⟨v', hv', hw'⟩ := ha.proxy hx hv hwl
  exact ⟨x, hx, v', hv', hw'⟩

theorem Releases.alike (h : Releases s) (ha : Alike s s') (hfronted : s'.fronted = s.fronted)
    (hproxies : s'.proxies = s.proxies) (hevents : s'.events = s.events)
    (hcommitted : s'.committed = s.committed) (hnext : s'.nextObject = s.nextObject) : Releases s' := by
  have hout : s'.outstanding = s.outstanding := by
    rw [State.outstanding, State.outstanding, hcommitted, hevents]
  refine ⟨hout ▸ h.once, fun w hw hproxy => ?_, fun w hw => ?_, ?_⟩
  · rw [hout] at hw
    rw [hproxies] at hproxy
    rw [hfronted]
    exact ha.finds h hw hproxy
  · rw [hout, hproxies] at hw
    rw [hnext]
    exact h.old w hw
  · intro before after w hsplit x v' hv' hw hc
    obtain ⟨v, hv, hwl, hcreating⟩ := ha.back x v' hv'
    exact h.ordered before after w (hevents ▸ hsplit) x v hv (hwl ▸ hw) (hcreating hc)

end Alike

/-! ## A buffer comes back to the pool -/

theorem values_youngest (l : List Nat) (h : Heap Nat Buffer) (x : Nat) :
    values (l.foldl (fun h b => modify h b Buffer.older) h) x =
      (values h x).map fun v => if x ∈ l then v.older else v := by
  induction l generalizing h with
  | nil => simp
  | cons b l ih =>
    rw [List.foldl_cons, ih, values_modify]
    by_cases hx : x = b
    · subst hx
      rw [if_pos rfl, map_map]
      congr 1
      funext v
      simp [Buffer.older]
    · simp [hx]

/-- The buffer is neither shown nor held any more. -/
def settled (s : State) (b : Nat) : State :=
  { s with
    buffers := settle s.buffers s.bufList b
    freeBufs := s.freeBufs + 1
    fronted := s.fronted.erase b
    held := s.held.erase b }

variable {v' : Buffer}

/-- The buffer is free; of the others, at most the age has changed. -/
theorem settled_value (h : (settled s b).value x = some v') :
    ∃ v, s.value x = some v ∧ v'.wlbuffer = v.wlbuffer ∧ v'.creating = v.creating ∧
      v'.busy = if x = b then false else v.busy := by
  have h' : values (settle s.buffers s.bufList b) x = some v' := h
  rw [settle, values_modify] at h'
  by_cases hx : x = b
  · subst hx
    rw [if_pos rfl, values_youngest, values_modify, if_pos rfl, map_map, map_map] at h'
    obtain ⟨v, hv, rfl⟩ := map_eq_some_iff.mp h'
    refine ⟨v, hv, ?_⟩
    simp only [Function.comp, if_true]
    split
    all_goals exact ⟨rfl, rfl, rfl⟩
  · rw [if_neg hx, values_youngest, values_modify, if_neg hx] at h'
    obtain ⟨v, hv, rfl⟩ := map_eq_some_iff.mp h'
    refine ⟨v, hv, ?_⟩
    split
    all_goals exact ⟨rfl, rfl, rfl⟩

theorem settled_isSome (h : (s.value x).isSome) : ((settled s b).value x).isSome := by
  change (values (settle s.buffers s.bufList b) x).isSome
  rw [settle, values_modify]
  split
  case isTrue hx =>
    subst hx
    rw [isSome_map, values_youngest, isSome_map, values_modify, if_pos rfl, isSome_map]
    exact h
  case isFalse hx =>
    rw [values_youngest, isSome_map, values_modify, if_neg hx]
    exact h

variable {h : Heap Nat Buffer} {owners : List Nat}

theorem balanced_older (l : List Nat) (hb : Balanced h owners) :
    Balanced (l.foldl (fun h b => modify h b Buffer.older) h) owners := by
  induction l generalizing h with
  | nil => exact hb
  | cons b l ih => exact ih (hb.modify b _)

theorem balanced_settle (hb : Balanced h owners) (pool : List Nat) (b : Nat) :
    Balanced (settle h pool b) owners :=
  (balanced_older pool (hb.modify b _)).modify b _

theorem Refs.settled (h : Refs s) (hb : b ∈ s.bufList) : Refs (settled s b) := by
  have hfronted : (s.fronted.erase b).Nodup := h.fronted.erase b
  have hcount : ∀ x, (WaylandWindow.settled s b).windowRefs.count x = s.windowRefs.count x := by
    intro x
    rw [count_windowRefs h.pool h.fronted,
      count_windowRefs (s := WaylandWindow.settled s b) h.pool hfronted]
    change (if x ∈ s.bufList ∨ x ∈ s.fronted.erase b then 1 else 0) = _
    by_cases hx : x = b
    · subst hx
      simp [hb]
    · simp [List.mem_erase_of_ne hx]
  refine ⟨h.pool, hfronted, ?_, fun x => ?_, fun x hx => ?_, h.held.erase b, fun x hx => ?_,
    fun x hx hmem => ?_⟩
  · refine (balanced_settle h.balanced s.bufList b).perm (List.perm_iff_count.mpr fun x => ?_)
    rw [List.count_append, List.count_append, hcount]
    rfl
  · rw [hcount]
    exact h.accounts x
  · by_contra hne
    obtain ⟨v', hv'⟩ := ne_none_iff_exists'.mp hne
    obtain ⟨v, hv, -⟩ := settled_value hv'
    rw [h.unborn x hx] at hv
    cases hv
  · exact h.heldClients x (List.mem_of_mem_erase hx)
  · exact h.heldFronted x (List.mem_of_mem_erase hx) (List.mem_of_mem_erase hmem)

theorem alike_settled (s : State) (b : Nat) : Alike s (settled s b) := by
  refine ⟨fun x v' hv' => ?_, fun x _ => settled_isSome⟩
  obtain ⟨v, hv, hwl, hcreate, -⟩ := settled_value hv'
  exact ⟨v, hv, hwl, fun hc => hcreate ▸ hc⟩

theorem Fields.settled (h : Fields s) (hr : Refs s) (hb : b ∈ s.bufList)
    (hcreating : s.creating b = false) : Fields (settled s b) := by
  refine h.alike (alike_settled s b) (fun x => List.mem_of_mem_erase) (fun x hx => ?_) rfl rfl
    fun x v' hv' hx => ?_
  · by_cases hne : x = b
    · subst hne
      exact .inr ⟨hb, hcreating⟩
    · exact .inl ((List.mem_erase_of_ne hne).mpr hx)
  · obtain ⟨v, hv, -, -, hbusy⟩ := settled_value hv'
    have hne : x ≠ b := by
      rintro rfl
      rcases hx with hx | hx
      · exact hr.held.not_mem_erase hx
      · exact hr.fronted.not_mem_erase hx
    rw [hbusy, if_neg hne]
    exact h.busy x v hv (hx.imp List.mem_of_mem_erase List.mem_of_mem_erase)

theorem Releases.settled (h : Releases s)
    (hdone : ∀ v w, s.value b = some v → v.wlbuffer = some w → w ∉ s.outstanding) :
    Releases (settled s b) where
  once := h.once
  finds := by
    intro w hw hproxy
    obtain ⟨x, hx, v, hv, hwl⟩ := h.finds w hw hproxy
    have hne : x ≠ b := by
      rintro rfl
      exact hdone v w hv hwl hw
    obtain ⟨v', hv', hwl'⟩ := (alike_settled s b).proxy hx hv hwl
    exact ⟨x, (List.mem_erase_of_ne hne).mpr hx, v', hv', hwl'⟩
  old := h.old
  ordered := by
    intro before after w hevents x v' hv' hw hc
    obtain ⟨v, hv, hwl, hcreate, -⟩ := settled_value hv'
    exact h.ordered before after w hevents x v hv (hwl ▸ hw) (hcreate ▸ hc)

theorem Inv.settled (h : Inv s) (hb : b ∈ s.bufList) (hcreating : s.creating b = false)
    (hdone : ∀ v w, s.value b = some v → v.wlbuffer = some w → w ∉ s.outstanding) : Inv (settled s b) :=
  ⟨h.refs.settled hb, h.fields.settled h.refs hb hcreating, h.releases.settled hdone⟩

theorem settled_counted (h : Inv s) (hc : s.Counted) (hb : b ∈ s.bufList)
    (hbusy : b ∈ s.held ∨ b ∈ s.fronted) : (settled s b).Counted := by
  obtain ⟨v, hv⟩ := h.refs.alive (.inl hb)
  have hidle : s.idle b = false := by
    rw [idle_eq, hv]
    simp [h.fields.busy b v hv hbusy]
  have hidle' : (settled s b).idle b = true := by
    obtain ⟨v', hv'⟩ := isSome_iff_exists.mp (settled_isSome (b := b) (by rw [hv]; rfl))
    obtain ⟨_, -, -, -, hbusy'⟩ := settled_value hv'
    rw [idle_eq, hv']
    simp [hbusy']
  have hothers : (s.bufList.filter (· ≠ b)).countP (settled s b).idle =
      (s.bufList.filter (· ≠ b)).countP s.idle := by
    refine List.countP_congr fun x hx => ?_
    have hne := (mem_filter_ne.mp hx).2
    cases hx' : s.value x with
    | none =>
      have hnone : (settled s b).value x = none := by
        by_contra hsome
        obtain ⟨v', hv'⟩ := ne_none_iff_exists'.mp hsome
        obtain ⟨v, hv, -⟩ := settled_value hv'
        rw [hx'] at hv
        cases hv
      rw [idle_eq, idle_eq, hx', hnone]
    | some u =>
      obtain ⟨u', hu'⟩ := isSome_iff_exists.mp (settled_isSome (b := b) (by rw [hx']; rfl))
      obtain ⟨u₀, hu₀, -, -, hbusy'⟩ := settled_value hu'
      rw [hx'] at hu₀
      cases hu₀
      rw [if_neg hne] at hbusy'
      rw [idle_eq, idle_eq, hx', hu', map_some, map_some, hbusy']
  have hsplit := countP_split (p := s.idle) h.refs.pool hb
  have hsplit' := countP_split (p := (settled s b).idle) h.refs.pool hb
  rw [if_pos hidle'] at hsplit'
  rw [hidle] at hsplit
  change s.freeBufs + 1 = (s.bufList.countP (settled s b).idle : Int)
  rw [hsplit', hothers, hc, hsplit]
  simp
  omega

/-! ## Events -/

/-- An operation does not fault, and completes in a state with a property. -/
def Fine {α : Type} (P : α → Prop) : Except Stop α → Prop
  | .ok s => P s
  | .error .blocked => True
  | .error (.fault _) => False

theorem Fine.stop {α β : Type} {P : α → Prop} {Q : β → Prop} {stop : Stop}
    (h : Fine P (.error stop)) : Fine Q (.error stop) := by
  cases stop with
  | blocked => trivial
  | fault f => exact h

theorem Fine.mono {P Q : State → Prop} {r : Except Stop State} (h : Fine P r)
    (hPQ : ∀ s, P s → Q s) : Fine Q r := by
  cases r with
  | ok s => exact hPQ s h
  | error stop =>
    exact h.stop

/-- What follows an operation: it has stopped, or completed. -/
@[elab_as_elim]
theorem Fine.elim {α : Type} {P : α → Prop} {C : Except Stop α → Prop} {r : Except Stop α} (h : Fine P r)
    (hstop : ∀ stop, Fine P (.error stop) → C (.error stop)) (hok : ∀ a, P a → C (.ok a)) : C r := by
  cases r with
  | ok a => exact hok a h
  | error stop => exact hstop stop h

/-- What the handling of events leaves alone. -/
structure Handled (s s' : State) : Prop where
  bufList : s'.bufList = s.bufList
  held : s'.held = s.held
  clients : s'.clients = s.clients
  broken : s'.broken = s.broken
  fronted : s'.fronted ⊆ s.fronted

theorem Handled.refl (s : State) : Handled s s := ⟨rfl, rfl, rfl, rfl, fun _ h => h⟩

theorem Handled.trans {s' s'' : State} (h : Handled s s') (h' : Handled s' s'') : Handled s s'' :=
  ⟨h'.bufList.trans h.bufList, h'.held.trans h.held, h'.clients.trans h.clients,
    h'.broken.trans h.broken, fun _ hb => h.fronted (h'.fronted hb)⟩

/-- The state with other events waiting: they are handled one after the other. -/
def State.await (s : State) (events : List Event) : State := { s with events := events }

variable {e : Event}

/-- An event that needs nothing done. -/
theorem Inv.skip (h : Inv (s.await (e :: rest)))
    (he : ∀ b v, e = .created b → s.value b = some v → v.creating = false) : Inv (s.await rest) := by
  obtain ⟨hrefs, hfields, hreleases⟩ := h
  have hsub : ∀ w, w ∈ (s.await rest).outstanding → w ∈ (s.await (e :: rest)).outstanding := by
    intro w hw
    simp only [State.outstanding, State.await, List.mem_append, List.mem_filterMap] at hw ⊢
    exact hw.imp id fun ⟨e', he', hproxy⟩ => ⟨e', List.mem_cons_of_mem e he', hproxy⟩
  refine ⟨⟨hrefs.pool, hrefs.fronted, hrefs.balanced, hrefs.accounts, hrefs.unborn, hrefs.held,
    hrefs.heldClients, hrefs.heldFronted⟩, ⟨hfields.busy, hfields.creating, hfields.shown, hfields.proxies,
    hfields.unique, hfields.owned⟩, ⟨?_, fun w hw => hreleases.finds w (hsub w hw),
    fun w hw => hreleases.old w (hw.imp (hsub w) id), ?_⟩⟩
  · refine hreleases.once.sublist (List.Sublist.append_left ?_ s.committed)
    exact (List.sublist_cons_self e rest).filterMap Event.proxy
  · intro before after w hevents b v hv hw hc
    have hevents' : e :: rest = (e :: before) ++ .release w :: after := congrArg (e :: ·) hevents
    rcases List.mem_cons.mp (hreleases.ordered (e :: before) after w hevents' b v hv hw hc) with heq | hmem
    · rw [he b v heq.symm hv] at hc
      cases hc
    · exact hmem

theorem findFronted_spec (halive : ∀ b ∈ l, s.alive b = true)
    (hfound : ∃ b ∈ l, s.wlbuffer b = some w) :
    ∃ b ∈ l, findFronted s w l = .ok b ∧ s.wlbuffer b = some w := by
  induction l with
  | nil =>
    obtain ⟨b, hb, -⟩ := hfound
    cases hb
  | cons x l ih =>
    rw [findFronted, halive x List.mem_cons_self]
    by_cases hx : s.wlbuffer x = some w
    · exact ⟨x, List.mem_cons_self, by simp [hx], hx⟩
    · obtain ⟨b, hb, hw⟩ := hfound
      rcases List.mem_cons.mp hb with rfl | hb
      · exact absurd hw hx
      · obtain ⟨b', hb', hfind, hw'⟩ := ih (fun y hy => halive y (List.mem_cons_of_mem x hy)) ⟨b, hb, hw⟩
        exact ⟨b', List.mem_cons_of_mem x hb', by simp [hx, hfind], hw'⟩

/-- A good state: the invariant, and the counter. -/
def Good (s : State) : Prop := Inv s ∧ s.Counted

/-- The fields that the invariant does not depend on. -/
theorem Inv.other (h : Inv s) (shape : Shape) (window broken : Bool) (frameCallback : Option Nat)
    (freeBufs : Int) (coming : List (List Event)) :
    Inv { s with
      shape := shape, window := window, broken := broken, frameCallback := frameCallback
      freeBufs := freeBufs, coming := coming } := by
  obtain ⟨hr, hf, hw⟩ := h
  exact ⟨⟨hr.pool, hr.fronted, hr.balanced, hr.accounts, hr.unborn, hr.held, hr.heldClients,
    hr.heldFronted⟩, ⟨hf.busy, hf.creating, hf.shown, hf.proxies, hf.unique, hf.owned⟩,
    ⟨hw.once, hw.finds, hw.old, hw.ordered⟩⟩

theorem Good.other (h : Good s) (shape : Shape) (window broken : Bool) (frameCallback : Option Nat)
    (coming : List (List Event)) :
    Good { s with
      shape := shape, window := window, broken := broken, frameCallback := frameCallback
      coming := coming } :=
  ⟨h.1.other shape window broken frameCallback s.freeBufs coming, h.2⟩

theorem Refs.isAlive (h : Refs s) (hb : b ∈ s.bufList ∨ b ∈ s.fronted ∨ b ∈ s.clients) :
    s.alive b = true := by
  obtain ⟨v, hv⟩ := h.alive hb
  rw [alive_eq, hv]
  rfl

theorem giveBack_eq (halive : ∀ x ∈ s.bufList, s.alive x = true) (b : Nat) :
    giveBack s b = .ok { s with buffers := settle s.buffers s.bufList b, freeBufs := s.freeBufs + 1 } := by
  rw [giveBack, if_pos (List.all_eq_true.mpr halive)]

theorem erase_eq_filter_ne (hl : l.Nodup) (b : Nat) : l.erase b = l.filter (· ≠ b) := by
  rw [hl.erase_eq_filter]
  simp [bne, beq_eq_decide]

/-- The buffer of a release: shown, and acknowledged; nothing else is outstanding for it. -/
theorem Inv.released (h : Inv (s.await (.release w :: rest))) (hproxy : w ∈ s.proxies) :
    ∃ b ∈ s.fronted, findFronted s w s.fronted = .ok b ∧ s.creating b = false ∧
      ∀ v w', s.value b = some v → v.wlbuffer = some w' → w' ∉ (s.await rest).outstanding := by
  have hout : w ∈ (s.await (.release w :: rest)).outstanding := by
    simp [State.outstanding, State.await, Event.proxy]
  obtain ⟨x, hx, u, hu, hux⟩ := h.releases.finds w hout hproxy
  obtain ⟨b, hb, hfind, hw⟩ := findFronted_spec (s := s) (w := w) (l := s.fronted)
    (fun y hy => h.refs.isAlive (.inr (.inl hy)))
    ⟨x, hx, by rw [wlbuffer_eq]; exact bind_eq_some_iff.mpr ⟨u, hu, hux⟩⟩
  rw [wlbuffer_eq] at hw
  obtain ⟨v, hv, hw⟩ := bind_eq_some_iff.mp hw
  refine ⟨b, hb, hfind, ?_, fun v' w' hv' hw' => ?_⟩
  · rw [creating_eq, hv]
    by_contra hne
    cases h.releases.ordered [] rest w rfl b v hv hw (by simpa using hne)
  · rw [hv] at hv'
    cases hv'
    rw [hw] at hw'
    cases hw'
    have honce : (w :: (s.await rest).outstanding).Nodup := by
      refine (List.Perm.nodup_iff ?_).mp h.releases.once
      exact List.perm_middle
    exact (List.nodup_cons.mp honce).1

theorem releaseBuffer_good (h : Good (s.await (.release w :: rest))) (hproxy : w ∈ s.proxies) :
    Fine (fun s' => Good (s'.await rest) ∧ s'.events = s.events ∧ Handled s s') (releaseBuffer s w) := by
  obtain ⟨hinv, hcounted⟩ := h
  obtain ⟨b, hb, hfind, hcreating, hdone⟩ := hinv.released hproxy
  have hskip : Inv (s.await rest) := hinv.skip fun _ _ he => nomatch he
  rw [releaseBuffer, hfind]
  simp only
  split
  case isTrue hpool =>
    have hheld : s.held.erase b = s.held := List.erase_of_not_mem fun hm => hinv.refs.heldFronted b hm hb
    rw [giveBack_eq (s := { s with fronted := s.fronted.erase b }) fun x hx => hinv.refs.isAlive (.inl hx)]
    refine ⟨?_, rfl, rfl, rfl, rfl, rfl, fun x hx => List.mem_of_mem_erase hx⟩
    have hsettled : Good (settled (s.await rest) b) :=
      ⟨hskip.settled hpool hcreating hdone, settled_counted hskip hcounted hpool (.inr hb)⟩
    rw [settled, State.await, hheld] at hsettled
    exact hsettled
  case isFalse hpool =>
    rw [if_neg fun hc => by rw [show s.creating b = true from hc] at hcreating; cases hcreating]
    refine ⟨?_, rfl, rfl, rfl, rfl, rfl, fun x hx => List.mem_of_mem_erase hx⟩
    have hevicted : Good (evict (s.await rest) b false) :=
      ⟨hskip.evict (.inr hb) false, evict_counted_of_not_mem hcounted hpool⟩
    rw [evict, State.await] at hevicted
    simp only [filter_ne_of_not_mem hpool] at hevicted
    have hfronted : s.fronted.Nodup := hinv.refs.fronted
    rw [erase_eq_filter_ne hfronted b]
    exact hevicted

theorem acknowledge_value (h : values (modify s.buffers b Buffer.acknowledge) x = some v') :
    ∃ v, s.value x = some v ∧ v'.wlbuffer = v.wlbuffer ∧ v'.busy = v.busy ∧
      (v'.creating = true → v.creating = true ∧ x ≠ b) := by
  rw [values_modify] at h
  by_cases hx : x = b
  · subst hx
    rw [if_pos rfl] at h
    obtain ⟨v, hv, rfl⟩ := map_eq_some_iff.mp h
    exact ⟨v, hv, rfl, rfl, nofun⟩
  · rw [if_neg hx] at h
    exact ⟨v', h, rfl, rfl, fun hc => ⟨hc, hx⟩⟩

theorem values_modify_isSome (h : Heap Nat Buffer) (b x : Nat) (f : Buffer → Buffer) :
    (values (modify h b f) x).isSome = (values h x).isSome := by
  rw [values_modify]
  split
  case isTrue hx => rw [isSome_map, hx]
  case isFalse => rfl

/-- The acknowledgement of a buffer's creation. -/
theorem created_good (h : Good (s.await (.created b :: rest))) :
    Good (({ s with buffers := modify s.buffers b Buffer.acknowledge } : State).await rest) := by
  obtain ⟨⟨hrefs, hfields, hreleases⟩, hcounted⟩ := h
  have halike : Alike (s.await (.created b :: rest))
      (({ s with buffers := modify s.buffers b Buffer.acknowledge } : State).await rest) := by
    refine ⟨fun x v' hv' => ?_, fun x _ hsome => ?_⟩
    · obtain ⟨v, hv, hwl, -, hcreating⟩ := acknowledge_value hv'
      exact ⟨v, hv, hwl, fun hc => (hcreating hc).1⟩
    · exact (values_modify_isSome s.buffers b x _).trans hsome
  have hbusy : ∀ x v', values (modify s.buffers b Buffer.acknowledge) x = some v' →
      x ∈ s.held ∨ x ∈ s.fronted → v'.busy = true := by
    intro x v' hv' hx
    obtain ⟨v, hv, -, hb, -⟩ := acknowledge_value hv'
    rw [hb]
    exact hfields.busy x v hv hx
  refine ⟨⟨⟨hrefs.pool, hrefs.fronted, hrefs.balanced.modify b _, hrefs.accounts, fun x hx => ?_,
    hrefs.held,
    hrefs.heldClients, hrefs.heldFronted⟩, hfields.alike halike (fun _ => id) (fun _ => .inl) rfl rfl hbusy,
    ⟨hreleases.once, fun w hw hproxy => halike.finds hreleases hw hproxy, hreleases.old, ?_⟩⟩, ?_⟩
  · refine not_isSome_iff_eq_none.mp fun hsome => ?_
    rw [show State.value _ x = values (modify s.buffers b Buffer.acknowledge) x from rfl,
      values_modify_isSome, show values s.buffers x = none from hrefs.unborn x hx] at hsome
    cases hsome
  · intro before after w hevents x v' hv' hw hc
    obtain ⟨v, hv, hwl, -, hcreating⟩ := acknowledge_value hv'
    obtain ⟨hc, hne⟩ := hcreating hc
    have hevents' : .created b :: rest = (.created b :: before) ++ .release w :: after :=
      congrArg (Event.created b :: ·) hevents
    have hmem := hreleases.ordered (.created b :: before) after w hevents' x v hv (hwl ▸ hw) hc
    rcases List.mem_cons.mp hmem with heq | hmem
    · cases heq
      exact absurd rfl hne
    · exact hmem
  · have hidle : ∀ x, (({ s with
        buffers := modify s.buffers b Buffer.acknowledge } : State).await rest).idle x = s.idle x := by
      intro x
      rw [idle_eq, idle_eq]
      change ((values (modify s.buffers b Buffer.acknowledge) x).map _).getD false = _
      rw [values_modify]
      split
      case isTrue heq => rw [heq, map_map]; rfl
      case isFalse => rfl
    change s.freeBufs = (s.bufList.countP (State.idle _) : Int)
    rw [funext hidle]
    exact hcounted

theorem handle_good (h : Good (s.await (e :: rest))) :
    Fine (fun s' => Good (s'.await rest) ∧ s'.events = s.events ∧ Handled s s') (handle s e) := by
  cases e with
  | release w =>
    rw [handle]
    split
    case isTrue hproxy => exact releaseBuffer_good h hproxy
    case isFalse => exact ⟨⟨h.1.skip fun _ _ he => (nomatch he), h.2⟩, rfl, Handled.refl s⟩
  | created b => exact ⟨created_good h, rfl, rfl, rfl, rfl, rfl, fun _ hx => hx⟩
  | frame callback =>
    have hskip : Good (s.await rest) := ⟨h.1.skip fun _ _ he => (nomatch he), h.2⟩
    rw [handle]
    split
    · exact ⟨hskip.other _ _ _ none _, rfl, rfl, rfl, rfl, rfl, fun _ hx => hx⟩
    · exact ⟨hskip, rfl, Handled.refl s⟩

theorem handleAll_good {events : List Event} (h : Good (s.await events)) :
    Fine (fun s' => Good (s'.await []) ∧ s'.events = s.events ∧ Handled s s') (handleAll s events) := by
  induction events generalizing s with
  | nil => exact ⟨h, rfl, Handled.refl s⟩
  | cons e rest ih =>
    rw [handleAll]
    refine (handle_good h).elim (fun _ => Fine.stop) fun s' hstep => (ih hstep.1).mono fun s'' h'' => ?_
    exact ⟨h''.1, h''.2.1.trans hstep.2.1, hstep.2.2.trans h''.2.2⟩

theorem dispatch_good (h : Good s) : Fine (fun s' => Good s' ∧ Handled s s') (dispatch s) := by
  rw [dispatch]
  split
  case isTrue => exact ⟨h, Handled.refl s⟩
  case isFalse =>
    have hall : Fine _ (handleAll { s with events := [] } s.events) := handleAll_good h
    refine hall.mono fun s' h' => ?_
    obtain ⟨hgood, hevents, hh⟩ := h'
    have hawait : s'.await [] = s' := by rw [State.await, ← show s'.events = [] from hevents]
    rw [hawait] at hgood
    exact ⟨hgood, hh.bufList, hh.held, hh.clients, hh.broken, hh.fronted⟩

end WaylandWindow
