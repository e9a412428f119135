import Libhybris.ReadbackMoves

/-!
# Successful waits make readback data visible

The steps of a call that completes submissions: it detaches their records, which are records of
completed submissions only, invalidates the ranges, and gives the records up or puts them back.
-/
namespace Readback

open MemoryVisibility RefCount List Option

/-! ## Detached records -/

variable {pc : Pc} {r t : Nat} {s' s : State} {answer : Answer} {rs : List Nat} {p : Pass}

/-- Only the thread with the completion lock has a list of records. -/
theorem Sound.locked_of_listed (h : Sound s) (hpc : pc ∈ s.threads) (hr : r ∈ pc.listed) :
    pc.locked = true := by
  have hposition := (h.calls.position pc hpc).here
  cases pc with
  | work _ _ | ranges _ _ _ _ | invalidate _ _ _ _ _ | failed _ _ _ | release _ _ _ => rfl
  | releaseRecords _ _ => exact hposition.elim
  | _ => cases hr

theorem Sound.listed_locked (h : Sound s) (ht : s.threads[t]? = some pc)
    (hlocked : pc.locked = true) (hr : s.Listed r) : r ∈ s.registry ∨ r ∈ pc.listed := by
  rcases hr with hr | ⟨pc₁, hpc₁, hr⟩
  · exact .inl hr
  · obtain ⟨j, hj⟩ := mem_iff_getElem?.mp hpc₁
    have hjt := h.calls.lock j t pc₁ pc hj ht (h.locked_of_listed hpc₁ hr) hlocked
    subst hjt
    rw [ht] at hj
    cases hj
    exact .inr hr

theorem Book.eq_of_serial (h : Book s) {x y : Submission} (hx : x ∈ s.accepted)
    (hy : y ∈ s.accepted) (hqueue : SameQueue x y) (hserial : x.serial = y.serial) : x = y := by
  have hordered := h.ordered
  revert hordered hx hy
  generalize s.accepted = l
  intro hx hy hordered
  induction l with
  | nil => cases hx
  | cons a l ih =>
    obtain ⟨hhead, hrest⟩ := pairwise_cons.mp hordered
    rcases mem_cons.mp hx with rfl | hx
    · rcases mem_cons.mp hy with rfl | hy
      · rfl
      · have := hhead y hy hqueue.symm
        omega
    · rcases mem_cons.mp hy with rfl | hy
      · have := hhead x ‹_› hqueue
        omega
      · exact ih ‹_› hy hrest

theorem Done.earlier {x m : Submission} (h : Done s m) (hqueue : SameQueue x m)
    (hserial : x.serial ≤ m.serial) : Done s x :=
  fun y hy hy' hs => h y hy ⟨hy'.1.trans hqueue.1, hy'.2.trans hqueue.2⟩ (Nat.le_trans hs hserial)

/-- A call in flight and the queue it is for. -/
theorem Sound.flying (h : Sound s) (hr : s.Flying r) :
    ∃ (j : Nat) (pc : Pc) (sub : Submission), s.threads[j]? = some pc ∧ sub.id = r ∧
      sub ∈ pc.inFlight ∧ InFlight s sub ∧ pc.uses.queues = some (sub.device, some sub.queue) := by
  obtain ⟨pc, hpc, sub, hsub, hid⟩ := hr
  obtain ⟨j, hj⟩ := mem_iff_getElem?.mp hpc
  obtain ⟨hfly, huses⟩ := h.inFlight hpc hsub
  exact ⟨j, pc, sub, hj, hid, hsub, hfly, congrArg Uses.queues huses⟩

/-- The submission of a signaled fence that covers a record. -/
theorem Sound.marker (h : Sound s) {device : Device} {f : Nat} {v : Record}
    (hsignaled : ∃ id, s.fences device f = .signaled id)
    (hmarked : s.registry.any (s.marks device f v) = true) :
    ∃ sub ∈ s.accepted, sub.device = device ∧ v.queue = sub.queue ∧ v.serial ≤ sub.serial ∧ Done s sub := by
  obtain ⟨m, hm, hmarks⟩ := any_eq_true.mp hmarked
  obtain ⟨vm, hvm⟩ := h.records.record_of_registered hm
  rw [State.marks, hvm] at hmarks
  obtain ⟨rfl, hfence, hqueue, hserial⟩ := of_decide_eq_true hmarks
  obtain ⟨id, hid⟩ := hsignaled
  rcases h.listing.submitted m hm with ⟨sub, hsub, rfl⟩ | hflying
  · have hmatch := (h.book.known sub hsub).record vm hvm
    refine ⟨sub, hsub, hmatch.device.symm, hqueue.trans hmatch.queue, hmatch.serial ▸ hserial, ?_⟩
    rcases h.fenced.marker sub hsub vm f hvm hfence with (hp | hp) | hp
    · cases (hmatch.device ▸ hid).symm.trans hp
    · exact h.fenced.signaled sub hsub _ _ hp
    · exact hp
  · -- a fence that is being submitted is not signaled
    obtain ⟨j, pc, sub, -, rfl, -, hfly, -⟩ := h.flying hflying
    have hd := (hfly.known.record vm hvm).device
    have hunsignaled := hfly.unsignaled f ((hfly.fence vm hvm).symm.trans hfence)
    rw [← hd, hid] at hunsignaled
    cases hunsignaled

section
variable {selector : Selector}

/-- A record that a successful call covers is of a completed submission. -/
theorem Sound.covered (h : Sound s) (ht : s.threads[t]? = some (.detach p selector))
    (hr : r ∈ s.registry) (hcovers : s.covers p.device selector r = true) :
    ∃ sub ∈ s.accepted, sub.id = r ∧ sub.device = p.device ∧ Done s sub := by
  obtain ⟨⟨-, hreached, hasks⟩, -⟩ := h.position ht
  obtain ⟨v, hv⟩ := h.records.record_of_registered hr
  rw [State.covers, hv] at hcovers
  obtain ⟨hdevice, hselects⟩ := Bool.and_eq_true_iff.mp hcovers
  have hdevice := of_decide_eq_true hdevice
  rcases h.listing.submitted r hr with ⟨sub, hsub, rfl⟩ | hflying
  · have hmatch := (h.book.known sub hsub).record v hv
    have hd : sub.device = p.device := hmatch.device.symm.trans hdevice
    refine ⟨sub, hsub, rfl, hd, ?_⟩
    cases selector with
    | fence f =>
      obtain ⟨m, -, hmd, hqueue, hserial, hdone⟩ := h.marker hreached hselects
      exact hdone.earlier ⟨hd.trans hmd.symm, hmatch.queue.symm.trans hqueue⟩ (hmatch.serial ▸ hserial)
    | queue q =>
      have hq : sub.queue = q := hmatch.queue.symm.trans (of_decide_eq_true hselects)
      exact fun x hx hx' _ => hreached x hx (hx'.1.trans hd) (hx'.2.trans hq)
    | device => exact fun x hx hx' _ => hreached x hx (hx'.1.trans hd)
  · -- a submission in flight is later than any that a fence covers, and no queue in use is idle
    exfalso
    obtain ⟨j, pc, sub, hj, rfl, hsub, hfly, huses⟩ := h.flying hflying
    have hmatch := hfly.known.record v hv
    have hd : sub.device = p.device := hmatch.device.symm.trans hdevice
    have hne : t ≠ j := by
      rintro rfl
      rw [ht] at hj
      cases hj
      cases hsub
    have hapart := (h.calls.apart t j _ pc hne ht hj).queues
    cases selector with
    | fence f =>
      obtain ⟨m, hm, hmd, hqueue, hserial, -⟩ := h.marker hreached hselects
      have hlater := hfly.later m hm ⟨hmd.trans hd.symm, hqueue.symm.trans hmatch.queue⟩
      rw [← hmatch.serial] at hlater
      omega
    | queue q =>
      have hidle : p.idle = some (.queue q) := hasks
      refine hapart (p.device, some q) (by rw [Pc.uses, Pass.uses, hidle]; rfl) _ huses ⟨hd.symm, ?_⟩
      have hq : v.queue = q := of_decide_eq_true hselects
      exact .inr (.inr (congrArg some (hq.symm.trans hmatch.queue)))
    | device =>
      have hidle : p.idle = some .device := hasks
      exact hapart (p.device, none) (by rw [Pc.uses, Pass.uses, hidle]; rfl) _ huses ⟨hd.symm, .inl rfl⟩

/-- A registered submission that the call covers is detached. -/
theorem Sound.covers_of_selected (h : Sound s) (ht : s.threads[t]? = some (.detach p selector))
    {sub : Submission}
    (hsub : sub ∈ s.accepted) (hselected : Selected s p.device selector sub) (hr : sub.id ∈ s.registry) :
    s.covers p.device selector sub.id = true := by
  obtain ⟨v, hv⟩ := h.records.record_of_registered hr
  have hmatch := (h.book.known sub hsub).record v hv
  rw [State.covers, hv]
  refine Bool.and_eq_true_iff.mpr ⟨decide_eq_true (hmatch.device.trans hselected.1), ?_⟩
  cases selector with
  | fence f =>
    obtain ⟨hdevice, m, hm, hfence, hqueue, hserial⟩ := hselected
    -- the later submission of the fence is registered with the earlier one
    obtain ⟨⟨hd, hf⟩, hfenced⟩ := h.fenced.fence m hm _ f (.inr hfence)
    have hlisted := h.listing.ordered m hm ⟨f, hf, hd ▸ .inr hfence⟩ sub hsub hqueue hserial hr
    have hregistered : m.id ∈ s.registry := (h.listed_locked ht rfl hlisted).resolve_right nofun
    obtain ⟨vm, hvm⟩ := h.records.record_of_registered hregistered
    have hmm := (h.book.known m hm).record vm hvm
    refine any_eq_true.mpr ⟨m.id, hregistered, ?_⟩
    rw [State.marks, hvm]
    refine decide_eq_true ⟨hmm.device.trans (hqueue.1.symm.trans hdevice), ?_, ?_, ?_⟩
    · exact hfenced vm hvm
    · rw [hmatch.queue, hmm.queue]
      exact hqueue.2
    · rw [hmatch.serial, hmm.serial]
      exact hserial
  | queue q => exact decide_eq_true (hmatch.queue.trans hselected.2)
  | device => rfl

end

/-- What `detach_completed` takes and leaves when no record is ready before. -/
theorem detachCompleted_spec (device : Device) (selector : Selector)
    (halive : ∀ r ∈ s.registry, ∃ v, s.record r = some v ∧ v.ready = false) :
    (∀ r, r ∈ (detachCompleted s device selector).1 ↔ r ∈ s.registry ∧ s.covers device selector r = true) ∧
      (∀ r, r ∈ (detachCompleted s device selector).2.registry ↔
        r ∈ s.registry ∧ s.covers device selector r = false) ∧
      ∀ r, (detachCompleted s device selector).2.record r =
        if r ∈ s.registry ∧ s.covers device selector r = true then (s.record r).map Record.markReady
        else s.record r := by
  have hrecord : ∀ r, (detachCompleted s device selector).2.record r =
      if r ∈ s.registry ∧ s.covers device selector r = true then (s.record r).map Record.markReady
      else s.record r := by
    intro r
    change values (modifyAll s.heap Record.markReady _) r = _
    rw [values_modifyAll (f := Record.markReady) fun _ => rfl]
    simp only [mem_filter]
    rfl
  have hready : ∀ r ∈ s.registry,
      State.ready (detachCompleted s device selector).2 r = s.covers device selector r := by
    intro r hr
    obtain ⟨v, hv, hv'⟩ := halive r hr
    rw [State.ready, hrecord]
    cases hcovers : s.covers device selector r with
    | true =>
      rw [if_pos ⟨hr, rfl⟩, hv]
      rfl
    | false =>
      rw [if_neg (by simp), hv]
      exact hv'
  refine ⟨fun r => ?_, fun r => ?_, hrecord⟩
  · change r ∈ (s.registry.filter (State.ready (detachCompleted s device selector).2)).reverse ↔ _
    rw [mem_reverse, mem_filter]
    exact and_congr_right fun hr => by rw [hready r hr]
  · change r ∈ s.registry.filter (fun r => !State.ready (detachCompleted s device selector).2 r) ↔ _
    rw [mem_filter]
    exact and_congr_right fun hr => by rw [hready r hr, Bool.not_eq_true']

theorem Sound.detach {selector : Selector} (h : Sound s) (hinv : Inv s')
    (ht : s.threads[t]? = some (.detach p selector))
    (hstep : Readback.advance s t answer (.detach p selector) = some s') : Sound s' := by
  obtain ⟨⟨hprogress, hreached, hasks⟩, -⟩ := h.position ht
  have halive : ∀ r ∈ s.registry, s.alive r = true := fun r hr => h.records.alive (mem_owners_registry hr)
  have hunready : ∀ r ∈ s.registry, ∃ v, s.record r = some v ∧ v.ready = false := by
    intro r hr
    obtain ⟨v, hv⟩ := h.records.record_of_registered hr
    exact ⟨v, hv, h.listing.unready r hr v hv⟩
  obtain ⟨htaken, hleft, hrecord⟩ := detachCompleted_spec p.device selector hunready
  rw [Readback.advance] at hstep
  simp only [access_eq _ halive] at hstep
  cases hstep
  have hlisted : ∀ r, s.Listed r → State.Listed
      ((detachCompleted s p.device selector).2.goto t
        (.work p (detachCompleted s p.device selector).1)) r := by
    refine fun r hr => listed_move ht rfl hr (fun hr => ?_) not_mem_nil.elim
    cases hcovers : s.covers p.device selector r with
    | true => exact .inr ((htaken r).mpr ⟨hr, hcovers⟩)
    | false => exact .inl ((hleft r).mpr ⟨hr, hcovers⟩)
  have hkept : ∀ r ∈ (detachCompleted s p.device selector).2.registry, r ∈ s.registry ∧
      ∀ v, (detachCompleted s p.device selector).2.record r = some v → s.record r = some v := by
    intro r hr
    obtain ⟨hold, hcovers⟩ := (hleft r).mp hr
    refine ⟨hold, fun v hv => ?_⟩
    rw [hrecord, if_neg (by simp [hcovers])] at hv
    exact hv
  refine h.carried hinv (.of_eq rfl) h.book.tables rfl (fun r v' hv' _ => ?_)
    (h.listing.of_quiet (.of_eq rfl) (fun r hr => (hkept r hr).1) (fun sub _ => hlisted _)
      (fun r _ hf => flying_move ht rfl hf (forall_mem_none _))
      fun r hr v hv => ⟨v, (hkept r hr).2 v hv, rfl⟩) ?_
  · have hv' := (hrecord r).symm.trans hv'
    split at hv'
    · obtain ⟨v, hv, rfl⟩ := map_eq_some_iff.mp hv'
      exact ⟨v, hv, rfl, rfl⟩
    · exact ⟨v', hv', rfl, rfl⟩
  · have hlocal : Local s (.work p (detachCompleted s p.device selector).1) := by
      refine ⟨hprogress.imp fun sub haccepted hn => ?_, fun r hr =>
        h.covered ht ((htaken r).mp hr).1 ((htaken r).mp hr).2⟩
      refine (h.listing.unsettled sub haccepted).imp_right fun hl => .inl ((htaken _).mpr ?_)
      have hr := (h.listed_locked ht rfl hl).resolve_right not_mem_nil
      exact ⟨hr, h.covers_of_selected ht haccepted (hn.resolve_left not_mem_nil) hr⟩
    refine h.calls.goto ht rfl (fun j pc₁ hne hj => Quiet.frame (.of_eq rfl) fun sub hsub hr => ?_)
      (.refl _)
      (fun _ => rfl) rfl (fun _ _ hk => hk)
        (Frame.here (s := s) (Quiet.frame (.of_eq rfl) (forall_mem_none _)) hlocal)
    -- a record in flight is not covered
    obtain ⟨hfly, -⟩ := h.inFlight (mem_of_getElem? hj) hsub
    have hleftover : sub.id ∈ (detachCompleted s p.device selector).2.registry := by
      refine (hleft _).mpr ⟨hr, ?_⟩
      cases hcovers : s.covers p.device selector sub.id with
      | false => rfl
      | true =>
        obtain ⟨x, hx, hid, -⟩ := h.covered ht hr hcovers
        exact absurd hid (h.not_accepted hfly hx)
    exact ⟨hleftover, (hkept _ hleftover).2⟩

/-! ## Invalidation -/

theorem Sound.work (h : Sound s) (hinv : Inv s') (ht : s.threads[t]? = some (.work p rs))
    (hstep : Readback.advance s t answer (.work p rs) = some s') : Sound s' := by
  obtain ⟨⟨hprogress, hfinished⟩, -⟩ := h.position ht
  cases rs with
  | nil =>
    cases hstep
    exact h.stay hinv ht rfl hprogress
  | cons r rs =>
    rw [Readback.advance] at hstep
    split at hstep
    case h_1 hnone =>
      cases hstep
      cases hinv.faultless
    case h_2 v hv =>
      cases hstep
      obtain ⟨sub, hsub, hid, -⟩ := hfinished r mem_cons_self
      refine h.stay hinv ht rfl ⟨hprogress, hfinished, sub, hsub, hid, fun w hw => .inr ?_⟩
      exact ((h.book.known sub hsub).record v (hid ▸ hv)).writes w hw

/-- The allocation of a range that is still there is the one the layer finds. -/
theorem Tracked.found {w : Write} (h : Tracked s w) (htables : Tables s.memory) :
    (∃ a, findMemory s.memory w.device w.range.memory = some a ∧ a.generation = w.range.generation ∧
      a.mapped = true) ∨ Gone s.log w := by
  refine h.2.imp_left ?_
  rintro ⟨a, ha, hdevice, hmemory, hgeneration, hmapped⟩
  refine ⟨a, ?_, hgeneration, hmapped⟩
  rw [← hdevice, ← hmemory]
  exact Registry.lookup_of_mem _ htables.allocationKeys ha

section
variable (h : Sound s) (hinv : Inv s')
include h hinv

theorem Sound.ranges {writes : List Write} (ht : s.threads[t]? = some (.ranges p r writes rs))
    (hstep : Readback.advance s t answer (.ranges p r writes rs) = some s') : Sound s' := by
  obtain ⟨⟨hprogress, hfinished, hremaining⟩, -⟩ := h.position ht
  cases writes with
  | nil =>
    cases hstep
    exact h.stay hinv ht rfl ⟨hprogress, hfinished, hremaining⟩
  | cons w writes =>
    rw [Readback.advance, access_eq _ (h.records.alive_singleton ht mem_cons_self)] at hstep
    injection hstep with hstep
    subst hstep
    cases hcheck : checkInvalidate s.memory p.device w.range with
    | skip =>
      rw [hcheck] at hinv
      refine h.stay hinv ht rfl ⟨hprogress, hfinished, ?_⟩
      obtain ⟨sub, hsub, hid, hwanted⟩ := hremaining
      refine ⟨sub, hsub, hid, fun x hx => ?_⟩
      rcases hwanted x hx with hvisible | ⟨w', hw', hrange⟩
      · exact .inl hvisible
      rcases mem_cons.mp hw' with rfl | hw'
      · -- the allocation is not found as it was, so it is gone
        obtain ⟨htracked, hdevice⟩ := (h.book.known sub hsub).tracked x hx
        obtain ⟨sub', hsub', hid', hpass, -⟩ := hfinished r mem_cons_self
        have heq := h.book.eq_of_id hsub hsub' (hid.trans hid'.symm)
        subst heq
        rcases htracked.found h.book.tables with ⟨a, ha, hgeneration, hmapped⟩ | hgone
        · rw [checkInvalidate, hrange, ← hpass, ← hdevice, ha] at hcheck
          simp only [hgeneration, hmapped, and_self, if_true] at hcheck
          split at hcheck <;> cases hcheck
        · exact .inl (.inr hgone)
      · exact .inr ⟨w', hw', hrange⟩
    | fail =>
      rw [hcheck] at hinv
      exact h.stay hinv ht rfl ⟨hprogress, hfinished⟩
    | call =>
      rw [hcheck] at hinv
      exact h.stay hinv ht rfl ⟨hprogress, hfinished, hremaining⟩

theorem Sound.invalidate {w : Write} {writes : List Write}
    (ht : s.threads[t]? = some (.invalidate p r w writes rs))
    (hstep : Readback.advance s t answer (.invalidate p r w writes rs) = some s') : Sound s' := by
  rw [Readback.advance] at hstep
  obtain ⟨s₁, hchange, hs'⟩ := map_eq_some_iff.mp hstep
  have hcore := change_core hchange
  have h₁ := h.memory (h.records.other hcore) hchange
  rw [← show s₁.threads = s.threads from congrArg Prod.fst hcore] at ht
  obtain ⟨⟨hprogress, hfinished, -⟩, -⟩ := h₁.position ht
  split at hs'
  case isTrue =>
    subst hs'
    have h₂ : Sound (s₁.invalidated p.device w.range) := h₁.logged _
    obtain ⟨⟨hprogress₂, hfinished₂, sub, hsub, hid, hwanted⟩, -⟩ := h₂.position ht
    refine h₂.stay hinv ht rfl ⟨hprogress₂, hfinished₂, sub, hsub, hid, fun x hx => ?_⟩
    rcases hwanted x hx with hvisible | ⟨w', hw', hrange⟩
    · exact .inl hvisible
    rcases mem_cons.mp hw' with rfl | hw'
    · -- the driver has invalidated the range of the allocation it was recorded of
      obtain ⟨htracked, hdevice⟩ := (h₁.book.known sub hsub).tracked x hx
      obtain ⟨sub', hsub', hid', hpass, hdone⟩ := hfinished r mem_cons_self
      have heq := h₁.book.eq_of_id hsub hsub' (hid.trans hid'.symm)
      subst heq
      have hcompleted : s₁.Completed r := hid ▸ hdone sub hsub ⟨rfl, rfl⟩ (Nat.le_refl _)
      left
      rcases htracked.found h₁.book.tables with ⟨a, ha, hgeneration, -⟩ | hgone
      · refine .inl (mem_after_completed hcompleted (mem_map.mpr ⟨a, ?_, ?_⟩))
        · rw [hrange, ← hpass, ← hdevice, ha]
          exact mem_singleton_self a
        · rw [hgeneration, hrange]
      · exact .inr (hgone.append _)
    · exact .inr ⟨w', hw', hrange⟩
  case isFalse =>
    subst hs'
    exact h₁.stay hinv ht rfl ⟨hprogress, hfinished⟩

/-! ## Records that are put back or given up -/

theorem Sound.failed (ht : s.threads[t]? = some (.failed p r rs))
    (horderly : Orderly s (.advance t answer))
    (hstep : Readback.advance s t answer (.failed p r rs) = some s') : Sound s' := by
  obtain ⟨⟨hprogress, hfinished⟩, -⟩ := h.position ht
  obtain ⟨sub, hsub, hid, -, hdone⟩ := hfinished r mem_cons_self
  rw [Readback.advance] at hstep
  split at hstep
  case h_1 =>
    cases hstep
    cases hinv.faultless
  case h_2 v hv =>
    have hmatch := (h.book.known sub hsub).record v (hid ▸ hv)
    rw [if_neg (by simp [hmatch.cancelled])] at hstep
    cases hstep
    have hrecord : ∀ x v', values (modify s.heap r Record.requeue) x = some v' →
        ∃ v, s.record x = some v ∧ v'.core = v.core ∧ v'.fence = v.fence ∧
          (v'.ready = false ∨ x ≠ r ∧ v' = v) := by
      intro x v' hv'
      rw [values_modify] at hv'
      split at hv'
      case isTrue hx =>
        obtain ⟨v₀, hv₀, rfl⟩ := map_eq_some_iff.mp hv'
        exact ⟨v₀, hx ▸ hv₀, rfl, rfl, .inl rfl⟩
      case isFalse hx => exact ⟨v', hv', rfl, rfl, .inr ⟨hx, rfl⟩⟩
    have hlisted : ∀ x, s.Listed x → State.Listed { s.goto t (.work { p with ok := false } rs) with
        heap := modify s.heap r Record.requeue, registry := r :: s.registry } x := fun x hx =>
      listed_move ht rfl hx (fun hr => .inl (mem_cons_of_mem _ hr)) fun hr =>
        (mem_cons.mp hr).imp_left fun hr => mem_cons.mpr (.inl hr)
    refine h.carried hinv (.of_eq rfl) h.book.tables rfl (fun x v' hv' _ => ?_)
      ⟨fun sub hsub => (h.listing.unsettled sub hsub).imp_right (hlisted _),
        fun x hx hmarked y hy hqueue hserial hr => ?_, fun x hx => ?_, fun x hx v' hv' => ?_⟩ ?_
    · obtain ⟨v, hv, hcore, hfence, -⟩ := hrecord x v' hv'
      exact ⟨v, hv, hcore, hfence⟩
    · rcases mem_cons.mp hr with hyr | hr
      · rcases Nat.eq_or_lt_of_le hserial with heq | hlt
        · rw [← h.book.eq_of_serial hy hx hqueue heq, hyr]
          exact .inl mem_cons_self
        · -- the later submissions that fences stand for were not given up before
          exact hlisted _ ((horderly _ ht y hy).2 (congrArg some hyr.symm) x hx
            ⟨hmarked, hqueue.symm⟩ hlt)
      · exact hlisted _ (h.listing.ordered x hx hmarked y hy hqueue hserial hr)
    · rcases mem_cons.mp hx with rfl | hx
      · exact .inl ⟨sub, hsub, hid⟩
      · exact (h.listing.submitted x hx).imp_right fun hf => flying_move ht rfl hf (forall_mem_none _)
    · obtain ⟨v, hv, -, -, hready | ⟨hne, rfl⟩⟩ := hrecord x v' hv'
      · exact hready
      · exact h.listing.unready x ((mem_cons.mp hx).resolve_left hne) v' hv
    · have hlocal : Local s (.work { p with ok := false } rs) :=
        ⟨⟨hprogress.device, hprogress.rest, fun x hx => ⟨(hprogress.cover x hx).1, .inl rfl⟩⟩,
          fun x hx => hfinished x (mem_cons_of_mem _ hx)⟩
      refine h.calls.goto ht rfl (fun j pc₁ hne hj => Quiet.frame (.of_eq rfl) fun x hx hr => ?_) (.refl _)
        (fun _ => rfl) rfl (fun _ _ hk => hk)
          (Frame.here (s := s) (Quiet.frame (.of_eq rfl) (forall_mem_none _)) hlocal)
      obtain ⟨hfly, -⟩ := h.inFlight (mem_of_getElem? hj) hx
      have hne : x.id ≠ r := fun heq => h.not_accepted hfly hsub (hid.trans heq.symm)
      exact ⟨mem_cons_of_mem _ hr, fun v hv => (if_neg hne).symm.trans ((values_modify ..).symm.trans hv)⟩

theorem Sound.release (ht : s.threads[t]? = some (.release p r rs))
    (horderly : Orderly s (.advance t answer))
    (hstep : Readback.advance s t answer (.release p r rs) = some s') : Sound s' := by
  obtain ⟨⟨hprogress, hfinished, hremaining⟩, -⟩ := h.position ht
  have hshown : ∀ x ∈ s.accepted, x.id = r → s.Shown x := by
    intro x hx hxr
    obtain ⟨sub, hsub, hid, hwanted⟩ := hremaining
    have heq := h.book.eq_of_id hx hsub (hxr.trans hid.symm)
    subst heq
    intro w hw
    rw [hxr]
    exact (hwanted w hw).resolve_right (by rintro ⟨_, hmem, _⟩; cases hmem)
  rw [Readback.advance, access_eq _ (h.records.alive_singleton ht mem_cons_self)] at hstep
  cases hstep
  have hlisted : ∀ x, x ≠ r → s.Listed x →
      State.Listed { s.goto t (.work p rs) with heap := RefCount.release s.heap r } x := fun x hne hx =>
    listed_move ht rfl hx .inl fun hr => .inr ((mem_cons.mp hr).resolve_left hne)
  refine h.carried hinv (.of_eq rfl) h.book.tables rfl
    (fun x v hv _ => ⟨v, values_release_some hv, rfl, rfl⟩)
    ⟨fun x hx => ?_, fun x hx hmarked y hy hqueue hserial hr => ?_,
      fun x hx => (h.listing.submitted x hx).imp_right fun hf => flying_move ht rfl hf (forall_mem_none _),
      fun x hx v hv => h.listing.unready x hx v (values_release_some hv)⟩ ?_
  · by_cases hxr : x.id = r
    · exact .inl (hshown x hx hxr)
    · exact (h.listing.unsettled x hx).imp_right (hlisted _ hxr)
  · by_cases hxr : x.id = r
    · rcases Nat.eq_or_lt_of_le hserial with heq | hlt
      · rw [← h.book.eq_of_serial hy hx hqueue heq]
        exact .inl hr
      · -- no earlier submission to the queue is registered now
        exact absurd hr ((horderly _ ht x hx).1 ⟨congrArg some hxr.symm, hmarked⟩ y hy hqueue hlt)
    · exact hlisted _ hxr (h.listing.ordered x hx hmarked y hy hqueue hserial hr)
  · have hlocal : Local s (.work p rs) := by
      refine ⟨hprogress.imp fun x haccepted hn => ?_, fun x hx => hfinished x (mem_cons_of_mem _ hx)⟩
      rcases mem_cons.mp (hn.resolve_right id) with hxr | hin
      · exact .inl (hshown x haccepted hxr)
      · exact .inr (.inl hin)
    refine h.calls.goto ht rfl (fun j pc₁ hne hj => ?_) (.refl _) (fun _ => rfl) rfl
      (fun _ _ hk => hk) (Frame.here (s := s) (Quiet.frame (.of_eq rfl) (forall_mem_none _)) hlocal)
    exact Quiet.frame (.of_eq rfl) fun x _ hr => ⟨hr, fun v hv => values_release_some hv⟩

/-! ## Runs -/

theorem Sound.advance (ht : s.threads[t]? = some pc)
    (hvalid : Valid s (.advance t answer)) (horderly : Orderly s (.advance t answer))
    (hstep : Readback.advance s t answer pc = some s') : Sound s' := by
  have hposition := (h.position ht).here
  cases pc with
  | idle => cases hstep
  | publish device queue fence writes wanted => exact h.publish hinv ht hstep
  | submit sub =>
    rw [Readback.advance] at hstep
    split at hstep
    · cases hstep
      exact h.accept hinv ht
    · cases hstep
      exact h.stay hinv ht rfl hposition
  | reject sub => exact h.reject hinv ht hstep
  | drop sub count => exact h.drop hinv ht hstep
  | lock p =>
    rw [Readback.advance] at hstep
    split at hstep
    case isTrue => cases hstep
    case isFalse hfree =>
      cases hstep
      exact h.lock hinv ht (by simpa using hfree)
  | scan p => exact h.scan hinv ht hvalid hstep
  | detach p selector => exact h.detach hinv ht hstep
  | work p rs => exact h.work hinv ht hstep
  | ranges p r writes rs => exact h.ranges hinv ht hstep
  | invalidate p r w writes rs => exact h.invalidate hinv ht hstep
  | failed p r rs => exact h.failed hinv ht horderly hstep
  | release p r rs => exact h.release hinv ht horderly hstep
  | unlock p =>
    cases hstep
    exact h.unlock hinv ht
  | resetFences device fences =>
    rw [Readback.advance] at hstep
    split at hstep
    · cases hstep
      exact h.reset hinv ht
    · cases hstep
      exact h.goto hinv ht (forall_mem_nil _) (forall_mem_none _) (.of_none _) id (by intro _ _ h; cases h)
  | forget device fences => exact h.forget hinv ht hstep
  | returned ok cover =>
    cases hstep
    exact h.goto hinv ht (forall_mem_nil _) (forall_mem_none _) (.of_none _) id trivial
  | forgetDestroyed _ _ | destroyFence _ _ | releaseDevice _ | releaseRecords _ _ => exact hposition.elim

end

theorem Sound.step {a : Action} (h : Sound s) (hok : Valid s a ∧ Orderly s a)
    (hstep : step s a = some s') : Sound s' := by
  have hinv := h.records.step hstep
  rw [Readback.step, h.records.faultless, if_neg Bool.false_ne_true] at hstep
  obtain ⟨hvalid, horderly⟩ := hok
  cases a with
  | memory op => exact h.memory hinv hstep
  | write c buffer offset size => exact h.write hinv hstep
  | execute c children => exact h.execute hinv hstep
  | resetCommand _ | resetPool _ _ =>
    cases hstep
    exact h.recording hinv fun r hr => h.book.recordings r (mem_of_mem_filter hr)
  | createDevice device =>
    cases hstep
    exact h.createDevice hinv hvalid
  | createFence device f signaled =>
    cases hstep
    refine h.createFence hinv hvalid ?_
    cases signaled with
    | true => exact .inr rfl
    | false => exact .inl rfl
  | submit t device queue batches fence => exact h.submit hinv hvalid hstep
  | waited t device fences all => exact h.waited hinv hvalid hstep
  | queueIdle t device queue => exact h.queueIdle hinv hvalid hstep
  | deviceIdle t device => exact h.deviceIdle hinv hvalid hstep
  | resetFences t device fences => exact h.resetFences hinv hvalid hstep
  | destroyFence t device f => exact hvalid.elim
  | destroyDevice t device => exact hvalid.elim
  | advance t answer =>
    rw [perform] at hstep
    split at hstep
    case h_1 => cases hstep
    case h_2 pc hpc => exact h.advance hinv hpc hvalid horderly hstep
  | complete id =>
    cases hstep
    exact h.logged _
  | signal device f =>
    rw [perform] at hstep
    split at hstep
    case h_1 id hid =>
      cases hstep
      exact h.signal hinv hvalid hid
    case h_2 => cases hstep

theorem Sound.start (n : Nat) : Sound (State.start n) := by
  have hidle : ∀ {pc : Pc}, pc ∈ (State.start n).threads → pc = .idle := fun hpc => eq_of_mem_replicate hpc
  refine ⟨Inv.start n, ⟨⟨nodup_nil, nodup_nil, nodup_nil, nofun⟩, nofun, nodup_nil,
    nodup_nil, List.Pairwise.nil, nofun⟩, ⟨fun d f id hid => ?_, nofun, nofun, nofun⟩,
    ⟨nofun, nofun, nofun, nofun⟩, ⟨fun i j pc pc' _ hi hj => ?_, fun i j pc pc' hi hj hl => ?_,
      fun pc hpc hl => ?_, fun pc hpc => ?_⟩⟩
  · rcases hid with hid | hid <;> cases hid
  · rw [hidle (mem_of_getElem? hi)]
    exact ⟨nofun, nofun, nofun, nofun⟩
  · rw [hidle (mem_of_getElem? hi)] at hl
    cases hl
  · rw [hidle hpc] at hl
    cases hl
  · rw [hidle hpc]
    exact ⟨trivial, nofun⟩

/-- What successful calls promise, and what becomes of submissions that are not visible yet. -/
structure Delivered (s : State) : Prop where
  returned : ∀ cover, .returned true cover ∈ s.threads → ∀ sub ∈ cover, s.Shown sub
  registered : ∀ sub ∈ s.accepted, s.Shown sub ∨ s.Listed sub.id

/-- In every valid run in which no submission that a fence stands for is given up before an earlier
one to its queue, a call that has returned success has made what it covers visible, and what is not
visible yet is still registered or in the hands of a call. -/
theorem run_delivered (n : Nat) (actions : List Action) (s : State)
    (hok : Transition.Along step (fun s a => Valid s a ∧ Orderly s a) (State.start n) actions)
    (hrun : Transition.run step (State.start n) actions = some s) : Delivered s := by
  have hsound : Sound s :=
    Transition.run_invariant_along (fun _ _ _ h hok ht => h.step hok ht) actions _ s
      (Sound.start n) hok hrun
  exact ⟨fun cover hcover => (hsound.calls.position _ hcover).here rfl, hsound.listing.unsettled⟩

/-- A mapped readback buffer, a command buffer that writes it, and a fence. -/
def recordReadback : List Action :=
  [.createDevice sampleDevice, .createFence sampleDevice 4 false, .memory .reserve,
    .memory (.allocateMemory 1 sampleDevice 50 256 64 false), .memory (.mapMemory sampleDevice 50 0 256),
    .memory .reserve, .memory (.createBuffer 2 sampleDevice 60 128 0x2),
    .memory (.bound sampleDevice 60 50 0),
    .write ⟨70, 80, sampleDevice⟩ 60 0 128]

/-- The steps of a submission that the driver accepts. -/
def submitAccepted (t : Nat) (batches : List (List Nat)) (fence : Option Nat) : List Action :=
  .submit t sampleDevice 7 batches fence :: List.replicate 3 (.advance t .success)

/-- The command buffer is submitted, then the fence. -/
def submitTwice : List Action :=
  recordReadback ++ submitAccepted 0 [[70]] none ++ submitAccepted 0 [[]] (some 4) ++
    [.complete 0, .complete 1, .signal sampleDevice 4]

/-- The call has returned success and covers a range that is not visible. -/
def Pc.breaks (s : State) : Pc → Bool
  | .returned true cover => cover.any fun sub => !decide (s.Shown sub)
  | _ => false

/-- The call has returned success and covers a range. -/
def Pc.covers : Pc → Bool
  | .returned true cover => cover.any fun sub => !sub.wanted.isEmpty
  | _ => false

def waitOnce : List Action :=
  submitTwice ++ .waited 1 sampleDevice [4] true :: List.replicate 14 (.advance 1 .success)

theorem run_delivered_waitOnce : ∃ s, Transition.run step (State.start 2) waitOnce = some s ∧
    s.threads.any Pc.covers = true ∧ Delivered s := by
  have hrun : (Transition.run step (State.start 2) waitOnce).map
    (fun s => s.threads.any Pc.covers) = some true := by
    decide +kernel
  obtain ⟨s, hs, hcovers⟩ := map_eq_some_iff.mp hrun
  exact ⟨s, hs, hcovers, run_delivered 2 waitOnce s (by decide +kernel) hs⟩

/-- The first wait fails to invalidate; the second finds no record of the fence. -/
def waitAgain : List Action :=
  submitTwice ++ .waited 1 sampleDevice [4] true ::
    List.replicate 5 (.advance 1 .success) ++ .advance 1 .error :: List.replicate 8 (.advance 1 .success) ++
    .waited 1 sampleDevice [4] true :: List.replicate 6 (.advance 1 .success)

/-- A fence whose own submission was given up no longer leads to an earlier submission that was put
back: the second wait reports success and has invalidated nothing. -/
theorem wait_again_not_visible : Transition.Along step Valid (State.start 2) waitAgain ∧
    (Transition.run step (State.start 2) waitAgain).map
    (fun s => s.threads.any (Pc.breaks s)) = some true := by
  decide +kernel

end Readback
