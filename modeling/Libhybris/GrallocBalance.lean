import Libhybris.GrallocInvariant

/-!
# Reference balance of the AHardwareBuffer backend

Own and shadow counts agree, nothing leaks and every handle in use is found,
exactly as long as no retain acquires a buffer and no map entry fails to be
allocated. A release that does not take the last shadow reference never gives
the buffer's own reference back, so a retain once made is never undone. Up to
the references that retains have acquired and not counted yet, the same holds
as long as every release takes the last shadow reference.
-/
namespace Gralloc

open List Option

/-- What the calls promise in a state: every entry's shadow count is its
buffer's own count, up to references in flight, no call touched a destroyed
buffer, a buffer is live exactly while a reference to it is held or its
allocation or last release is under way, and every reference's handle is found
in the map. -/
structure Balanced (s : State) (inFlight : Ahb → Nat := fun _ => 0) : Prop where
  counts : ∀ h e, findEntry s h = some e →
    ∃ b, findBuffer s e.ahb = some b ∧ b.own = e.refcount + inFlight e.ahb
  untouched : s.touched = false
  live : ∀ a, (findBuffer s a).isSome ↔
    (∃ r ∈ s.refs, r.ahb = a) ∨ ∃ t, (s.pcs t).owns = some a
  found : ∀ r ∈ s.refs, ∃ b, findBuffer s r.ahb = some b ∧ mapFind s.map b.handle = some r.ahb

/-- The references that retains have acquired and not counted yet. -/
def uncountedOf (refs : List Ref) (ahb : Ahb) : Nat :=
  refs.countP (fun r => r.ahb = ahb ∧ r.counted = false)

theorem refsOf_eq (refs : List Ref) (ahb : Ahb) :
    refsOf refs ahb = countedOf refs ahb + uncountedOf refs ahb := by
  rw [refsOf, countP_eq_countP_filter_add refs _ Ref.counted, countP_filter, countP_filter]
  simp [countedOf, uncountedOf]

/-- The own count of a buffer is the number of references to it, or one while
a thread alone builds or destroys it. Without retains all counts are one. -/
structure Level (retains : Bool) (s : State) : Prop where
  own : ∀ a b, findBuffer s a = some b →
    b.own = refsOf s.refs a ∨ b.own = 1 ∧ ∃ t, (s.pcs t).owns = some a
  mapped : ∀ r ∈ s.refs, ∃ b, findBuffer s r.ahb = some b ∧ (findEntry s b.handle).isSome
  shadow : retains = false → ∀ h e, findEntry s h = some e → e.refcount = 1
  quiet : retains = false → ∀ t a, s.pcs t ≠ .acquired a

theorem level_initial (retains : Bool) : Level retains {} := by
  constructor <;> simp [findBuffer, findEntry]

variable {s s' : State} {t : Thread} {ret : Int} {a : Ahb} {b : Buffer} {retains : Bool}

section
variable (hx : Level retains s)
include hx

theorem Level.balanced (hi : Inv s) : Balanced s (uncountedOf s.refs) := by
  refine ⟨fun h e he => ?_, hi.untouched, fun a => ⟨fun ha => ?_, ?_⟩, fun r hr => ?_⟩
  · obtain ⟨-, hcount, b, hb, rfl, -⟩ := hi.entry h e he
    refine ⟨b, hb, ?_⟩
    rcases hx.own e.ahb b hb with hown | ⟨-, t, ht⟩
    · rw [hown, refsOf_eq, hcount]
    · obtain ⟨-, b', hb', hnone⟩ := hi.owns t _ ht
      cases hb.symm.trans hb'
      cases he.symm.trans hnone
  · obtain ⟨b, hb⟩ := isSome_iff_exists.mp ha
    refine (hx.own a b hb).imp (fun hown => ?_) And.right
    have hpos := hi.positive a b hb
    rw [hown] at hpos
    obtain ⟨r, hr, hra⟩ := countP_pos_iff.mp hpos
    exact ⟨r, hr, of_decide_eq_true hra⟩
  · rintro (⟨r, hr, rfl⟩ | ⟨t, ht⟩)
    · exact hi.alive r hr
    · obtain ⟨-, b, hb, -⟩ := hi.owns t a ht
      simp [hb]
  · obtain ⟨b, hb, he⟩ := hx.mapped r hr
    obtain ⟨e, he⟩ := isSome_iff_exists.mp he
    have hea : e.ahb = r.ahb := hi.entry_ahb hb he
    have he' : Registry.lookup Entry.handle b.handle s.map = some e := he
    exact ⟨b, hb, by simp [mapFind, he', hea]⟩

theorem Level.balanced_exact (hi : Inv s) (hr : retains = false) : Balanced s := by
  have hzero : ∀ a, uncountedOf s.refs a = 0 := fun a => countP_eq_zero.mpr fun r hr' hc =>
    hx.quiet hr _ _ (hi.uncounted r hr' (of_decide_eq_true hc).2)
  have hb := hx.balanced hi
  exact ⟨fun h e he => by simpa [hzero] using hb.counts h e he, hb.untouched, hb.live, hb.found⟩

/-- Every map entry gets its memory and every release takes the last shadow
reference; without retains nothing is acquired. -/
def Keeps (retains : Bool) (s : State) : Action → Prop
  | .acquire _ => retains = true
  | .insert _ memory => memory = true
  | .release _ a => ∀ b ∈ findBuffer s a, ∀ e ∈ findEntry s b.handle, e.refcount = 1
  | _ => True

/-- No retain takes a reference of its buffer and every map entry gets its
memory. -/
def KeepsBalance (_ : State) : Action → Prop
  | .acquire _ => False
  | .insert _ memory => memory = true
  | _ => True

theorem Level.move {pc : Pc} (hnew : ∀ a, pc ≠ .acquired a)
    (howns : (s.pcs t).owns = none ∨ pc.owns = (s.pcs t).owns) : Level retains (setPc s t pc) := by
  refine ⟨fun a b hb => ?_, hx.mapped, hx.shadow, fun hr u a => ?_⟩
  · refine (hx.own a b hb).imp_right fun h => ⟨h.1, ?_⟩
    obtain ⟨-, u, hu⟩ := h
    refine ⟨u, ?_⟩
    rw [pcs_setPc]
    split
    case isTrue he =>
      rw [he] at hu
      rcases howns with h | h
      · cases h.symm.trans hu
      · exact h.trans hu
    case isFalse => exact hu
  · rw [pcs_setPc]
    split
    · exact hnew a
    · exact hx.quiet hr u a

theorem Level.allocate {ahb : Ahb} {handle : Handle} (hpc : s.pcs t = .idle ret)
    (hfresh : ∀ b ∈ s.buffers, b.ahb ≠ ahb ∧ b.handle ≠ handle) (hn : Next s s' t (.allocated ahb)
      (fun a => if a = ahb then some ⟨ahb, handle, 1⟩ else findBuffer s a) (findEntry s) s.refs) :
    Level retains s' := by
  have hnone : findBuffer s ahb = none :=
    (Registry.lookup_eq_none Buffer.ahb).mpr fun b hb => (hfresh b hb).1
  obtain ⟨own, mapped, shadow, quiet⟩ := hx
  obtain ⟨-, -, hbuffer, hentry, hrefs, hpcs, -⟩ := hn
  constructor <;> grind [Pc.owns]

/-- A buffer that a thread alone has is not referenced otherwise. -/
theorem Level.own_eq_one (hi : Inv s) (hpc : (s.pcs t).owns = some a)
    (hb : findBuffer s a = some b) : b.own = 1 := by
  rcases hx.own a b hb with hown | ⟨hown, -⟩
  · have hpos := hi.positive a b hb
    rw [hown, refsOf_eq_zero.mpr (hi.owns t a hpc).1] at hpos
    cases hpos
  · exact hown

theorem Level.release_owned (hi : Inv s) (hpc : (s.pcs t).owns = some a)
    (hb : findBuffer s a = some b) (hn : Next s s' t (.idle ret)
      (fun a' => if a' = a then (if b.own - 1 = 0 then none else some b.drop)
        else findBuffer s a') (findEntry s) s.refs) : Level retains s' := by
  have hone : b.own - 1 = 0 := by rw [hx.own_eq_one hi hpc hb]
  have hnorefs := (hi.owns t a hpc).1
  obtain ⟨own, mapped, shadow, quiet⟩ := hx
  obtain ⟨-, -, hbuffer, hentry, hrefs, hpcs, -⟩ := hn
  simp only [hone, if_true] at hbuffer
  constructor <;> grind

theorem Level.insert (hi : Inv s) (hpc : s.pcs t = .inserting a) (hb : findBuffer s a = some b)
    (hn : Next s s' t (.idle 0) (findBuffer s)
      (fun h => if true = true ∧ h = b.handle then some ⟨b.handle, a, 1⟩ else findEntry s h)
      (⟨t, a, true⟩ :: s.refs)) : Level retains s' := by
  have hown : (s.pcs t).owns = some a := by simp [hpc, Pc.owns]
  have hone := hx.own_eq_one hi hown hb
  have hzero := refsOf_eq_zero.mpr (hi.owns t a hown).1
  obtain ⟨own, mapped, shadow, quiet⟩ := hx
  obtain ⟨-, -, hbuffer, hentry, hrefs, hpcs, -⟩ := hn
  constructor <;> grind [refsOf_cons]

theorem Level.acquire (hi : Inv s) (hr : retains = true) (hpc : s.pcs t = .retaining a)
    (hb : findBuffer s a = some b)
    (hn : Next s s' t (.acquired a) (fun a' => if a' = a then some b.gain else findBuffer s a')
      (findEntry s) (⟨t, a, false⟩ :: s.refs)) : Level retains s' := by
  obtain ⟨hmem, -⟩ := hi.uses t a (by simp [hpc, Pc.uses])
  have howns := hi.owns
  obtain ⟨own, mapped, -, -⟩ := hx
  obtain ⟨-, -, hbuffer, hentry, hrefs, hpcs, -⟩ := hn
  constructor <;> grind [Pc.owns, Buffer.gain, refsOf_cons]

theorem Level.incref (hi : Inv s) (hr : retains = true) (hpc : s.pcs t = .acquired a)
    (hb : findBuffer s a = some b)
    (hn : Next s s' t (.idle 0) (findBuffer s)
      (fun h => if h = b.handle then (findEntry s b.handle).map Entry.gain else findEntry s h)
      (⟨t, a, true⟩ :: s.refs.erase ⟨t, a, false⟩)) : Level retains s' := by
  have hmem := hi.acquired t a hpc
  have herase := fun a' => refsOf_erase hmem a'
  obtain ⟨own, mapped, -, -⟩ := hx
  obtain ⟨-, -, hbuffer, hentry, hrefs, hpcs, -⟩ := hn
  constructor <;> grind [Pc.owns, refsOf_cons, mem_of_mem_erase]

theorem Level.release_last (hi : Inv s) {e : Entry} (hpc : s.pcs t = .idle ret)
    (hmem : ⟨t, a, true⟩ ∈ s.refs) (hb : findBuffer s a = some b) (he : findEntry s b.handle = some e)
    (hlast : e.refcount - 1 = 0) (hn : Next s s' t (.releasing a) (findBuffer s)
      (fun h => if h = b.handle then none else findEntry s h)
      (s.refs.erase ⟨t, a, true⟩)) : Level retains s' := by
  have hi' : Inv s' := hi.release_last hpc hmem hb he hlast hn
  have howner : (s'.pcs t).owns = some a := by rw [hn.pcs, if_pos rfl]; rfl
  have hnorefs := (hi'.owns t a howner).1
  have herase := fun a' => refsOf_erase hmem a'
  have hzero : refsOf (s.refs.erase ⟨t, a, true⟩) a = 0 := refsOf_eq_zero.mpr (hn.refs ▸ hnorefs)
  have hhandles := hi.handles
  obtain ⟨own, mapped, shadow, quiet⟩ := hx
  obtain ⟨-, -, hbuffer, hentry, hrefs, hpcs, -⟩ := hn
  constructor <;> grind [Pc.owns, mem_of_mem_erase]

theorem Level.pass {t' : Thread} (hmem : ⟨t, a, true⟩ ∈ s.refs) :
    Level retains { s with refs := ⟨t', a, true⟩ :: s.refs.erase ⟨t, a, true⟩ } := by
  refine ⟨fun a' b hb => ?_, fun r hr => ?_, hx.shadow, hx.quiet⟩
  · rw [refsOf_cons, refsOf_erase hmem a']
    exact hx.own a' b hb
  · rcases mem_cons.mp hr with rfl | hr
    · exact hx.mapped ⟨t, a, true⟩ hmem
    · exact hx.mapped r (mem_of_mem_erase hr)

theorem Level.lookup {h : Handle} {pc : Ahb → Pc} (hu : usable s t a = some h)
    (hpc : ∀ a a', pc a ≠ .acquired a') :
    Level retains (match mapFind s.map h with
      | some found => setPc s t (pc found)
      | none => setPc s t (.idle (-einval))) := by
  obtain ⟨ret, b, hidle, -, -, -⟩ := usable_some hu
  have hown : (s.pcs t).owns = none := by simp [hidle, Pc.owns]
  cases mapFind s.map h with
  | none => exact hx.move (by simp) (.inl hown)
  | some found => exact hx.move (hpc found) (.inl hown)

/-- Without retains a release always takes the last shadow reference. -/
theorem Level.keeps_iff (hr : retains = false) (action : Action) :
    Keeps retains s action ↔ KeepsBalance s action := by
  subst hr
  cases action with
  | acquire t => exact iff_of_false Bool.false_ne_true id
  | release t a => exact iff_of_true (fun b _ e he => hx.shadow rfl b.handle e he) trivial
  | _ => exact Iff.rfl

end

/-! ## Steps -/

/-- The invariant and the level of the counts after a step. -/
def Kept (s s' : State) (action : Action) : Prop :=
  Inv s' ∧ ∀ retains, Level retains s → Keeps retains s action → Level retains s'

section
variable (hi : Inv s)
include hi

theorem Inv.kept_allocate {ahb : Ahb} {handle : Handle}
    (h : step s (.allocate t ahb handle) = some s') : Kept s s' (.allocate t ahb handle) := by
  simp only [step] at h
  split at h
  case h_1 ret hpc =>
    obtain ⟨hfresh, h⟩ := ite_none_right_eq_some.mp h
    cases h
    have hn := next_allocate hi (t := t) hfresh
    exact ⟨hi.allocate hpc hfresh hn, fun _ hx _ => hx.allocate hpc hfresh hn⟩
  case h_2 => cases h

theorem Inv.kept_nativeHandle {null : Bool} (h : step s (.nativeHandle t null) = some s') :
    Kept s s' (.nativeHandle t null) := by
  simp only [step] at h
  split at h
  case h_1 a hpc =>
    have hown : (s.pcs t).owns = some a := by simp [hpc, Pc.owns]
    obtain ⟨-, b, hb, -⟩ := hi.owns t a hown
    rw [touch_alive hb] at h
    cases null with
    | true =>
      cases h
      have hn := next_release hi (t := t) (-einval) hb
      exact ⟨hi.release_owned hown hb hn, fun _ hx _ => hx.release_owned hi hown hb hn⟩
    | false =>
      cases h
      exact ⟨hi.move (by simp [hpc]) (by simp) (by simp [hpc, Pc.owns]) (by simp [Pc.uses]),
        fun _ hx _ => hx.move (by simp) (.inr (by simp [hpc, Pc.owns]))⟩
  case h_2 => cases h

theorem Inv.kept_insert {memory : Bool} (h : step s (.insert t memory) = some s') :
    Kept s s' (.insert t memory) := by
  simp only [step] at h
  split at h
  case h_1 a hpc =>
    obtain ⟨b, hb, rfl⟩ := map_eq_some_iff.mp h
    obtain ⟨-, b', hb', hnone⟩ := hi.owns t a (by simp [hpc, Pc.owns])
    cases hb.symm.trans hb'
    have hn := next_insert hi (t := t) (a := a) memory hnone
    refine ⟨hi.insert hpc hb hn, fun _ hx hk => ?_⟩
    obtain rfl : memory = true := hk
    exact hx.insert hi hpc hb hn
  case h_2 => cases h

theorem Inv.kept_release (h : step s (.release t a) = some s') : Kept s s' (.release t a) := by
  obtain ⟨handle, hu, rfl⟩ := map_eq_some_iff.mp h
  obtain ⟨ret, b, hidle, hmem, hb, rfl⟩ := usable_some hu
  cases he : findEntry s b.handle with
  | none =>
    have he' : Registry.lookup Entry.handle b.handle s.map = none := he
    simp only [mapDecrefTake, he']
    refine ⟨hi.release_some hidle hmem hb (by simp [he]) (next_missing hi he), fun _ hx _ => ?_⟩
    obtain ⟨b', hb', hsome⟩ := hx.mapped ⟨t, a, true⟩ hmem
    cases hb.symm.trans hb'
    simp [he] at hsome
  | some e =>
    have he' : Registry.lookup Entry.handle b.handle s.map = some e := he
    have hea : e.ahb = a := hi.entry_ahb hb he
    by_cases hlast : e.refcount - 1 = 0
    · simp only [mapDecrefTake, he', hlast, if_true, hea]
      exact ⟨hi.release_last hidle hmem hb he hlast (next_remove hi),
        fun _ hx _ => hx.release_last hi hidle hmem hb he hlast (next_remove hi)⟩
    · simp only [mapDecrefTake, he', hlast, if_false]
      refine ⟨hi.release_some hidle hmem hb (fun e₀ he₀ => ?_)
        (next_modify hi Entry.drop fun _ => rfl), fun _ _ hk => absurd (by rw [hk b hb e he]) hlast⟩
      cases he.symm.trans he₀
      exact hlast

/-- Every step keeps the invariant, and the counts stay level as long as it gives back what it
takes. -/
theorem Inv.step (action : Action) (h : step s action = some s') : Kept s s' action := by
  cases action with
  | allocate t ahb handle => exact hi.kept_allocate h
  | allocateFails t rc =>
    simp only [Gralloc.step] at h
    split at h
    case h_1 ret hpc =>
      cases h
      exact ⟨hi.move (by simp [hpc]) (by simp) (by simp [Pc.owns]) (by simp [Pc.uses]),
        fun _ hx _ => hx.move (by simp) (.inl (by simp [hpc, Pc.owns]))⟩
    case h_2 => cases h
  | nativeHandle t null => exact hi.kept_nativeHandle h
  | insert t memory => exact hi.kept_insert h
  | retain _ _ | find _ _ =>
    obtain ⟨handle, hu, rfl⟩ := map_eq_some_iff.mp h
    exact ⟨hi.lookup hu (fun _ => rfl) (fun _ => rfl) (by simp), fun _ hx _ => hx.lookup hu (by simp)⟩
  | acquire t =>
    simp only [Gralloc.step] at h
    split at h
    case h_1 a hpc =>
      cases h
      obtain ⟨-, b, hb, -⟩ := hi.uses t a (by simp [hpc, Pc.uses])
      have hn := next_acquire hi (t := t) hb
      exact ⟨hi.acquire hpc hb hn, fun _ hx hk => hx.acquire hi hk hpc hb hn⟩
    case h_2 => cases h
  | incref t =>
    simp only [Gralloc.step] at h
    split at h
    case h_1 a hpc =>
      obtain ⟨b, hb, rfl⟩ := map_eq_some_iff.mp h
      refine ⟨hi.incref hpc hb (next_modify hi Entry.gain fun _ => rfl), fun retains hx _ => ?_⟩
      cases retains with
      | false => exact absurd hpc (hx.quiet rfl t a)
      | true => exact hx.incref hi rfl hpc hb (next_modify hi Entry.gain fun _ => rfl)
    case h_2 => cases h
  | release t a => exact hi.kept_release h
  | finishRelease t =>
    simp only [Gralloc.step] at h
    split at h
    case h_1 a hpc =>
      cases h
      have hown : (s.pcs t).owns = some a := by simp [hpc, Pc.owns]
      obtain ⟨-, b, hb, -⟩ := hi.owns t a hown
      have hn := next_release hi (t := t) 0 hb
      exact ⟨hi.release_owned hown hb hn, fun _ hx _ => hx.release_owned hi hown hb hn⟩
    case h_2 => cases h
  | access t ret =>
    simp only [Gralloc.step] at h
    split at h
    case h_1 a hpc =>
      cases h
      obtain ⟨-, b, hb, -⟩ := hi.uses t a (by simp [hpc, Pc.uses])
      rw [touch_alive hb]
      exact ⟨hi.move (by simp [hpc]) (by simp) (by simp [Pc.owns]) (by simp [Pc.uses]),
        fun _ hx _ => hx.move (by simp) (.inl (by simp [hpc, Pc.owns]))⟩
    case h_2 => cases h
  | getHardwareBuffer t a =>
    obtain ⟨handle, hu, rfl⟩ := map_eq_some_iff.mp h
    exact ⟨hi, fun _ hx _ => hx⟩
  | pass t t' a =>
    obtain ⟨handle, hu, rfl⟩ := map_eq_some_iff.mp h
    obtain ⟨ret, b, hidle, hmem, -, -⟩ := usable_some hu
    exact ⟨hi.pass hidle hmem, fun _ hx _ => hx.pass hmem⟩

end

/-- In every interleaving, with retains and failed allocations too, no call
is ever made on a destroyed buffer. -/
theorem never_touches_destroyed (actions : List Action) (u : State)
    (hrun : Transition.run step {} actions = some u) : u.touched = false :=
  (Transition.run_invariant (fun _ a _ (hs : Inv _) h => (hs.step a h).1) actions
    {} u inv_initial hrun).untouched

/-- An acquire leaves the own count one ahead of the shadow count, and a
failed insertion leaves a reference whose handle is not in the map. -/
theorem keepsBalance_of_balanced (hs : Balanced s) (hi : Inv s) (action : Action)
    (h : step s action = some s') (hb : Balanced s') : KeepsBalance s action := by
  cases action with
  | acquire t =>
    simp only [step] at h
    split at h
    case h_1 a hpc =>
      cases h
      obtain ⟨-, b, hbuf, hsome⟩ := hi.uses t a (by simp [hpc, Pc.uses])
      obtain ⟨e, he⟩ := isSome_iff_exists.mp hsome
      obtain rfl : e.ahb = a := hi.entry_ahb hbuf he
      have hn := next_acquire hi (t := t) hbuf
      obtain ⟨b', hb', hown⟩ := hb.counts b.handle e (by rw [hn.entry]; exact he)
      obtain ⟨b₀, hb₀, hown₀⟩ := hs.counts b.handle e he
      rw [hn.buffer, if_pos rfl] at hb'
      cases hb'
      cases hbuf.symm.trans hb₀
      simp only [Buffer.gain] at hown
      omega
    case h_2 => cases h
  | insert t memory =>
    cases memory with
    | true => rfl
    | false =>
      simp only [step] at h
      split at h
      case h_1 a hpc =>
        obtain ⟨b, hbuf, rfl⟩ := map_eq_some_iff.mp h
        obtain ⟨-, b', hb', hnone⟩ := hi.owns t a (by simp [hpc, Pc.owns])
        cases hbuf.symm.trans hb'
        obtain ⟨b'', hb'', hfound⟩ := hb.found ⟨t, a, true⟩ mem_cons_self
        cases hbuf.symm.trans (show findBuffer s a = some b'' from hb'')
        have hnone' : Registry.lookup Entry.handle b.handle s.map = none := hnone
        simp [setPc, mapInsert, mapFind, hnone'] at hfound
      case h_2 => cases h
  | _ => trivial

theorem Level.step (hx : Level retains s) (hi : Inv s) {action : Action}
    (hk : Keeps retains s action) (h : step s action = some s') : Inv s' ∧ Level retains s' :=
  (hi.step action h).imp_right fun hl => hl retains hx hk

/-- Every state a run reaches is balanced exactly if no step of the run
acquires a buffer for a retain or loses a map entry to a failed allocation.
Up to the references in flight it is balanced if no map entry is lost and
every release takes the last shadow reference. -/
theorem references_balanced_iff (actions : List Action) (u : State)
    (hrun : Transition.run step {} actions = some u) :
    (Transition.Along step (fun s a => ∀ s', step s a = some s' → Balanced s') {} actions ↔
      Transition.Along step KeepsBalance {} actions) ∧
    (Transition.Along step (Keeps true) {} actions → Balanced u (uncountedOf u.refs)) := by
  have hkeep : ∀ s a s', Inv s ∧ Level false s → step s a = some s' → KeepsBalance s a →
      Inv s' ∧ Level false s' := fun s a s' ⟨hi, hx⟩ hstep hk =>
        hx.step hi ((hx.keeps_iff rfl a).mpr hk) hstep
  have hiff : ∀ s a s', Inv s ∧ Level false s → step s a = some s' →
      (KeepsBalance s a ↔ ∀ s', step s a = some s' → Balanced s') := by
    rintro s a s' ⟨hi, hx⟩ hstep
    refine ⟨fun hk s'' hstep' => ?_, fun hbal => ?_⟩
    · obtain ⟨hi', hx'⟩ := hkeep s a s'' ⟨hi, hx⟩ hstep' hk
      exact hx'.balanced_exact hi' rfl
    · exact keepsBalance_of_balanced (hx.balanced_exact hi rfl) hi a hstep (hbal s' hstep)
  refine ⟨(Transition.along_iff hkeep hiff actions {} u ⟨inv_initial,
    level_initial false⟩ hrun).symm, fun hok => ?_⟩
  obtain ⟨hi, hx⟩ := Transition.run_invariant_along
    (fun s a s' (hs : Inv s ∧ Level true s) hk hstep => hs.2.step hs.1 hk hstep) actions {} u
    ⟨inv_initial, level_initial true⟩ hok hrun
  exact hx.balanced hi

section Traces

def allocateMapped : List Action := [.allocate 0 5 50, .nativeHandle 0 false, .insert 0 true]

/-- Allocate, lock from the same thread, release. -/
def sampleUse : List Action := allocateMapped ++ [.find 0 5, .access 0 0, .release 0 5,
  .finishRelease 0]

def sampleRetain : List Action := allocateMapped ++ [.retain 0 5, .acquire 0, .incref 0]

/-- The release destroys the buffer. -/
theorem never_touches_destroyed_sampleUse :
    ∃ u, Transition.run step {} sampleUse = some u ∧ findBuffer u 5 = none ∧ u.touched = false :=
  ⟨_, rfl, rfl, never_touches_destroyed sampleUse _ rfl⟩

theorem references_balanced_iff_used :
    (Transition.run step {} sampleUse).isSome ∧
      Transition.Along step (fun s a => ∀ s', step s a = some s' → Balanced s') {} sampleUse ∧
      ∃ u, Transition.run step {} sampleRetain = some u ∧ Balanced u (uncountedOf u.refs) := by
  refine ⟨rfl, (references_balanced_iff sampleUse _ rfl).1.mpr ?_, _, rfl,
    (references_balanced_iff sampleRetain _ rfl).2 ?_⟩
  · simp [Transition.Along, sampleUse, allocateMapped, KeepsBalance]
  · simp [Transition.Along, sampleRetain, allocateMapped, Keeps]

/-- With every thread idle again: after a retain and its release the counts
differ, after both releases the buffer is still live although nobody refers
to it, and without memory for the entry the allocated handle is not found. -/
theorem references_unbalanced_when_idle :
    (∃ u, Transition.run step {} (sampleRetain ++ [.release 0 5]) = some u ∧
      (∀ t, u.pcs t = .idle 0) ∧ findEntry u 50 = some ⟨50, 5, 1⟩ ∧
      findBuffer u 5 = some ⟨5, 50, 2⟩) ∧
    (∃ u, Transition.run step {} (sampleRetain ++ [.release 0 5, .release 0 5, .finishRelease 0]) =
      some u ∧ (∀ t, u.pcs t = .idle 0) ∧ u.refs = [] ∧ findBuffer u 5 = some ⟨5, 50, 1⟩) ∧
    (∃ u, Transition.run step {} [.allocate 0 5 50, .nativeHandle 0 false, .insert 0 false] =
      some u ∧ (∀ t, u.pcs t = .idle 0) ∧ u.refs = [⟨0, 5, true⟩] ∧ mapFind u.map 50 = none) := by
  refine ⟨⟨_, rfl, fun t => ?_, rfl, rfl⟩, ⟨_, rfl, fun t => ?_, rfl, rfl⟩,
    ⟨_, rfl, fun t => ?_, rfl, rfl⟩⟩
  all_goals
    cases t with
    | zero => rfl
    | succ n => rfl

end Traces

end Gralloc
