import Libhybris.ReadbackCalls

/-!
# What other calls leave alone

A step of one call changes a few of the tables. The parts of the invariant that are about the rest,
and the positions of the other calls, are carried over by the lemmas here.
-/
namespace Readback

open MemoryVisibility RefCount List

/-! ## Submissions in order -/

variable {s : State}

theorem forall_mem_none {α : Type} (P : α → Prop) : ∀ a ∈ (none : Option α), P a := nofun

theorem Book.eq_of_id (h : Book s) {x y : Submission} (hx : x ∈ s.accepted) (hy : y ∈ s.accepted)
    (hid : x.id = y.id) : x = y :=
  inj_on_of_nodup_map h.ids hx hy hid

/-- The list of accepted submissions is in the order of their serial numbers. -/
theorem Book.mem_upTo (h : Book s) {m : Submission} (hm : m ∈ s.accepted) {x : Submission} :
    x ∈ upTo s.accepted m ↔ x ∈ s.accepted ∧ SameQueue x m ∧ x.serial ≤ m.serial := by
  obtain ⟨newer, older, hsplit⟩ := append_of_mem hm
  have hids := h.ids
  rw [hsplit, map_append] at hids
  have hnewer : ∀ y ∈ newer, y.id ≠ m.id := fun y hy heq =>
    (nodup_append.mp hids).2.2 y.id (mem_map_of_mem hy) m.id mem_cons_self heq
  have hdrop : s.accepted.dropWhile (fun x => x.id ≠ m.id) = m :: older := by
    have hskip : newer.dropWhile (fun x => x.id ≠ m.id) = [] :=
      dropWhile_eq_nil_iff.mpr fun y hy => decide_eq_true (hnewer y hy)
    rw [hsplit, dropWhile_append, hskip]
    simp
  have hordered := h.ordered
  rw [hsplit] at hordered
  obtain ⟨-, hrest, hbefore⟩ := pairwise_append.mp hordered
  rw [upTo, hdrop, mem_filter, decide_eq_true_iff]
  constructor
  · rintro ⟨hx, hqueue⟩
    refine ⟨hsplit ▸ mem_append_right _ hx, hqueue, ?_⟩
    rcases mem_cons.mp hx with rfl | hx
    · exact Nat.le_refl _
    · exact Nat.le_of_lt ((pairwise_cons.mp hrest).1 x hx hqueue)
  · rintro ⟨hx, hqueue, hserial⟩
    refine ⟨?_, hqueue⟩
    rw [hsplit] at hx
    rcases mem_append.mp hx with hx | hx
    · have hlt := hbefore x hx m mem_cons_self hqueue.symm
      omega
    · exact hx

/-! ## Positions of other calls -/

/-- What a step leaves alone for a call at `pc` in another thread. -/
structure Frame (s s' : State) (pc : Pc) : Prop where
  accepted : ∀ sub ∈ s.accepted, sub ∈ s'.accepted
  /-- a new submission is to a queue that the call does not use -/
  new : ∀ x ∈ s'.accepted, x ∈ s.accepted ∨ ∀ k ∈ pc.uses.queues, ¬ Overlap k (x.device, some x.queue)
  log : ∃ events, s'.log = s.log ++ events
  tracked : ∀ w, Tracked s w → Tracked s' w
  done : ∀ sub ∈ s.accepted, Done s sub → Done s' sub
  devices : s.devices ⊆ s'.devices
  serial : s.nextSerial ≤ s'.nextSerial
  next : s.nextRecord ≤ s'.nextRecord
  unsignaled : ∀ k, k ∈ pc.uses.submitted ∨ k ∈ pc.uses.resetting →
    s.fences k.1 k.2 = .unsignaled → s'.fences k.1 k.2 = .unsignaled
  signaled : ∀ k id, k ∈ pc.uses.waiting ∨ k ∈ pc.uses.resetting →
    s.fences k.1 k.2 = .signaled id → s'.fences k.1 k.2 = .signaled id
  settled : ∀ k ∈ pc.uses.resetting,
    (s.fences k.1 k.2).isPending = false → (s'.fences k.1 k.2).isPending = false
  inFlight : ∀ sub ∈ pc.inFlight, sub.id ∈ s.registry →
    sub.id ∈ s'.registry ∧ ∀ v, s'.record sub.id = some v → s.record sub.id = some v

variable {sub : Submission} {p : Pass} {r : Nat} {l : List Pc} {s' : State}

theorem State.Shown.append (h : s.Shown sub) (hlog : ∃ events, s'.log = s.log ++ events) :
    s'.Shown sub := by
  obtain ⟨events, hlog⟩ := hlog
  intro w hw
  rw [hlog]
  exact (h w hw).append events

theorem State.Completed.append {id : Nat} (h : s.Completed id)
    (hlog : ∃ events, s'.log = s.log ++ events) : s'.Completed id := by
  obtain ⟨events, hlog⟩ := hlog
  rw [State.Completed, hlog]
  exact mem_append_left _ h

theorem Done.append (h : Done s sub) (haccepted : s'.accepted = s.accepted)
    (hlog : ∃ events, s'.log = s.log ++ events) : Done s' sub :=
  fun x hx hqueue hserial => (h x (haccepted ▸ hx) hqueue hserial).append hlog

theorem mem_keys {device : Device} {fences : List Nat} {f : Nat} (h : f ∈ fences) :
    (device, f) ∈ keys device fences := mem_map_of_mem h

theorem Pass.mem_uses (p : Pass) {f : Nat} (h : f ∈ p.fences) :
    (p.device, f) ∈ p.uses.waiting ∨ (p.device, f) ∈ p.uses.resetting := by
  rw [Pass.uses]
  cases p.next with
  | leave => exact .inl (mem_keys h)
  | reset => exact .inr (mem_keys h)

section
variable {pc : Pc} (F : Frame s s' pc)
include F

theorem Frame.selected (huses : pc.uses = p.uses) {selector : Selector}
    (hasks : ∀ f, selector = .fence f → f ∈ p.fences) (h : Selected s p.device selector sub) :
    Selected s' p.device selector sub := by
  refine ⟨h.1, ?_⟩
  cases selector with
  | fence f =>
    obtain ⟨m, hm, hfence, hqueue, hserial⟩ := h.2
    refine ⟨m, F.accepted m hm, F.signaled (p.device, f) _ ?_ hfence, hqueue, hserial⟩
    rw [huses]
    exact p.mem_uses (hasks f rfl)
  | queue q => exact h.2
  | device => exact h.2

theorem Frame.reached (huses : pc.uses = p.uses) {selector : Selector} (hasks : p.Asks selector)
    (h : Reached s p.device selector) : Reached s' p.device selector := by
  cases selector with
  | fence f =>
    obtain ⟨id, hid⟩ := h
    refine ⟨id, F.signaled (p.device, f) id ?_ hid⟩
    rw [huses]
    exact p.mem_uses hasks
  | queue q =>
    intro x hx hdevice hqueue
    rcases F.new x hx with hold | hnew
    · exact (h x hold hdevice hqueue).append F.log
    · have hp : p.idle = some (.queue q) := hasks
      rw [huses, Pass.uses, hp] at hnew
      exact absurd ⟨hdevice.symm, .inr (.inr (congrArg some hqueue.symm))⟩ (hnew _ rfl)
  | device =>
    intro x hx hdevice
    rcases F.new x hx with hold | hnew
    · exact (h x hold hdevice).append F.log
    · have hp : p.idle = some .device := hasks
      rw [huses, Pass.uses, hp] at hnew
      exact absurd ⟨hdevice.symm, .inl rfl⟩ (hnew _ rfl)

theorem Frame.progress (huses : pc.uses = p.uses) {listed : List Nat} {next next' : Submission → Prop}
    (hnext : ∀ sub, next sub → next' sub) (h : Progress s p listed next) : Progress s' p listed next' := by
  refine ⟨F.devices h.device, h.rest, fun sub hsub => ?_⟩
  obtain ⟨haccepted, hcover⟩ := h.cover sub hsub
  refine ⟨F.accepted sub haccepted, ?_⟩
  rcases hcover with hok | hshown | hlisted | hn | ⟨f, hf, hselected⟩
  · exact .inl hok
  · exact .inr (.inl (hshown.append F.log))
  · exact .inr (.inr (.inl hlisted))
  · exact .inr (.inr (.inr (.inl (hnext sub hn))))
  · refine .inr (.inr (.inr (.inr ⟨f, hf, F.selected huses (fun g hg => ?_) hselected⟩)))
    cases hg
    exact h.rest hf

theorem Frame.finished {device : Device} {rs : List Nat} (h : Finished s device rs) :
    Finished s' device rs := by
  intro r hr
  obtain ⟨sub, hsub, hid, hdevice, hdone⟩ := h r hr
  exact ⟨sub, F.accepted sub hsub, hid, hdevice, F.done sub hsub hdone⟩

theorem Frame.remaining {writes : List Write} (h : Remaining s r writes) : Remaining s' r writes := by
  obtain ⟨sub, hsub, hid, hwrites⟩ := h
  obtain ⟨events, hlog⟩ := F.log
  refine ⟨sub, F.accepted sub hsub, hid, fun w hw => (hwrites w hw).imp_left fun hv => ?_⟩
  rw [hlog]
  exact hv.append events

theorem Frame.known (hsub : sub ∈ pc.inFlight) (hregistered : sub.id ∈ s.registry)
    (h : Known s sub) : Known s' sub :=
  ⟨fun w hw => ⟨F.tracked w (h.tracked w hw).1, (h.tracked w hw).2⟩,
    fun v hv => h.record v ((F.inFlight sub hsub hregistered).2 v hv),
    Nat.le_trans h.serial F.serial, Nat.lt_of_lt_of_le h.id F.next, F.devices h.device⟩

theorem Frame.flying (hsub : sub ∈ pc.inFlight)
    (huses : pc.uses = submitUses sub.device sub.queue sub.fence) (h : InFlight s sub) :
    InFlight s' sub := by
  obtain ⟨hregistered, hrecord⟩ := F.inFlight sub hsub h.registered
  refine ⟨F.known hsub h.registered h.known, hregistered, fun x hx hqueue => ?_,
    fun v hv => h.fence v (hrecord v hv), fun f hf => ?_⟩
  · rcases F.new x hx with hold | hnew
    · exact h.later x hold hqueue
    · rw [huses] at hnew
      exact absurd ⟨hqueue.1.symm, .inr (.inr (congrArg some hqueue.2.symm))⟩ (hnew _ rfl)
  · refine F.unsignaled (sub.device, f) (.inl ?_) (h.unsignaled f hf)
    rw [huses]
    exact mem_keys (Option.mem_toList.mpr hf)

theorem Frame.here (h : Local s pc) : Local s' pc := by
  cases pc with
  | idle => trivial
  | publish device queue fence writes wanted =>
    obtain ⟨hwanted, hdevice, hfence⟩ := h
    refine ⟨fun w hw => ?_, F.devices hdevice, fun f hf => ?_⟩
    · obtain ⟨⟨htracked, hd⟩, hrange⟩ := hwanted w hw
      exact ⟨⟨F.tracked w htracked, hd⟩, hrange⟩
    · exact F.unsignaled (device, f) (.inl (mem_keys (Option.mem_toList.mpr hf))) (hfence f hf)
  | submit sub => exact F.flying rfl rfl h
  | reject sub => exact F.flying rfl rfl h
  | drop sub count => trivial
  | lock p =>
    refine ⟨F.progress rfl (fun sub hn => ?_) h.1, fun selector hs => ?_⟩
    · obtain ⟨selector, hs, hselected⟩ := hn
      refine ⟨selector, hs, F.selected rfl (fun f hf => ?_) hselected⟩
      subst hf
      exact (h.2 _ hs).2
    · exact ⟨F.reached rfl (h.2 selector hs).2 (h.2 selector hs).1, (h.2 selector hs).2⟩
  | scan p => exact F.progress rfl (fun _ hn => hn) h
  | detach p selector =>
    obtain ⟨hprogress, hreached, hasks⟩ := h
    refine ⟨F.progress rfl (fun sub hn => F.selected rfl (fun f hf => ?_) hn) hprogress,
      F.reached rfl hasks hreached, hasks⟩
    subst hf
    exact hasks
  | work _ _ | failed _ _ _ => exact ⟨F.progress rfl (fun _ hn => hn) h.1, F.finished h.2⟩
  | ranges _ _ _ _ | invalidate _ _ _ _ _ | release _ _ _ =>
    exact ⟨F.progress rfl (fun _ hn => hn) h.1, F.finished h.2.1, F.remaining h.2.2⟩
  | unlock p => exact ⟨F.progress rfl (fun _ hn => hn) h.1, h.2⟩
  | resetFences device fences => exact F.devices h
  | forget device fences =>
    exact ⟨F.devices h.1, fun f hf => F.unsignaled (device, f) (.inr (mem_keys hf)) (h.2 f hf)⟩
  | returned ok cover => exact fun hok sub hsub => (h hok sub hsub).append F.log
  | forgetDestroyed _ _ => exact h
  | destroyFence _ _ => exact h
  | releaseDevice _ => exact h
  | releaseRecords _ _ => exact h

/-- The position of another call still holds. -/
theorem Frame.position (h : Position s pc) : Position s' pc :=
  ⟨F.here h.here, fun k hk => F.settled k hk (h.settled k hk)⟩

end

/-! ## The tables -/

/-- What a step keeps of the tables. -/
structure Quiet (s s' : State) : Prop where
  accepted : s'.accepted = s.accepted
  devices : s'.devices = s.devices
  serial : s.nextSerial ≤ s'.nextSerial
  next : s.nextRecord ≤ s'.nextRecord
  fences : s'.fences = s.fences
  log : ∃ events, s'.log = s.log ++ events
  tracked : ∀ w, Tracked s w → Tracked s' w

/-- What the steps that only move calls and records do not change. -/
def State.rest (s : State) := (s.accepted, s.devices, s.nextSerial, s.nextRecord, s.fences, s.log, s.memory)

theorem Quiet.of_eq (h : s'.rest = s.rest) : Quiet s s' := by
  simp only [State.rest, Prod.mk.injEq] at h
  obtain ⟨haccepted, hdevices, hserial, hnext, hfences, hlog, hmemory⟩ := h
  refine ⟨haccepted, hdevices, Nat.le_of_eq hserial.symm, Nat.le_of_eq hnext.symm, hfences,
    ⟨[], ?_⟩, fun w hw => ?_⟩
  · rw [hlog, append_nil]
  · rw [Tracked, hlog, hmemory]
    exact hw

theorem Quiet.done (q : Quiet s s') (h : Done s sub) : Done s' sub :=
  h.append q.accepted q.log

variable {pc : Pc}

/-- A step that takes no record of a submission in flight away from its call. -/
theorem Quiet.frame (q : Quiet s s') (h : ∀ sub ∈ pc.inFlight, sub.id ∈ s.registry →
      sub.id ∈ s'.registry ∧ ∀ v, s'.record sub.id = some v → s.record sub.id = some v) :
        Frame s s' pc where
  accepted sub hsub := q.accepted ▸ hsub
  new x hx := .inl (q.accepted ▸ hx)
  log := q.log
  tracked := q.tracked
  done _ _ hdone := q.done hdone
  devices := q.devices ▸ List.Subset.refl _
  serial := q.serial
  next := q.next
  unsignaled _ _ hk := by rw [q.fences]; exact hk
  signaled _ _ _ hk := by rw [q.fences]; exact hk
  settled _ _ hk := by rw [q.fences]; exact hk
  inFlight := h

/-- What of a record says which submission it is of. -/
def Record.core (v : Record) : Device × Nat × Nat × Bool × List Write :=
  (v.device, v.queue, v.serial, v.cancelled, v.writes)

theorem Matches.of_core {v v' : Record} (h : Matches v sub) (hcore : v'.core = v.core) :
    Matches v' sub := by
  simp only [Record.core, Prod.mk.injEq] at hcore
  obtain ⟨hdevice, hqueue, hserial, hcancelled, hwrites⟩ := hcore
  exact ⟨hdevice.trans h.device, hqueue.trans h.queue, hserial.trans h.serial,
    hcancelled.trans h.cancelled, hwrites ▸ h.writes⟩

theorem Known.of_quiet (h : Known s sub) (q : Quiet s s')
    (hrecord : ∀ v', s'.record sub.id = some v' → ∃ v, s.record sub.id = some v ∧ v'.core = v.core) :
    Known s' sub := by
  refine ⟨fun w hw => ⟨q.tracked w (h.tracked w hw).1, (h.tracked w hw).2⟩, fun v' hv' => ?_,
    Nat.le_trans h.serial q.serial, Nat.lt_of_lt_of_le h.id q.next, ?_⟩
  · obtain ⟨v, hv, hcore⟩ := hrecord v' hv'
    exact (h.record v hv).of_core hcore
  · rw [q.devices]
    exact h.device

theorem Book.of_quiet (h : Book s) (q : Quiet s s') (htables : Tables s'.memory)
    (hrecordings : ∀ r ∈ s'.recordings, ∀ w ∈ r.writes, Tracked s' w)
    (hrecord : ∀ x v', s'.record x = some v' → x ∈ s.accepted.map Submission.id →
      ∃ v, s.record x = some v ∧ v'.core = v.core) : Book s' := by
  refine ⟨htables, hrecordings, q.devices ▸ h.handles, q.accepted ▸ h.ids, q.accepted ▸ h.ordered, ?_⟩
  rw [q.accepted]
  intro sub hsub
  exact (h.known sub hsub).of_quiet q fun v' hv' => hrecord _ v' hv' (mem_map_of_mem hsub)

theorem Fenced.of_quiet (h : Fenced s) (q : Quiet s s')
    (hrecord : ∀ x v', s'.record x = some v' → x ∈ s.accepted.map Submission.id →
      ∃ v, s.record x = some v ∧ v'.fence = v.fence) : Fenced s' := by
  refine ⟨?_, ?_, ?_, ?_⟩ <;> rw [q.accepted, q.fences]
  · exact h.known
  · exact fun sub hsub d f hf => q.done (h.signaled sub hsub d f hf)
  · intro sub hsub v' f hv' hf
    obtain ⟨v, hv, hfence⟩ := hrecord _ v' hv' (mem_map_of_mem hsub)
    exact (h.marker sub hsub v f hv (hfence ▸ hf)).imp_right q.done
  · intro sub hsub d f hf
    obtain ⟨hd, hmarker⟩ := h.fence sub hsub d f hf
    refine ⟨hd, fun v' hv' => ?_⟩
    obtain ⟨v, hv, hfence⟩ := hrecord _ v' hv' (mem_map_of_mem hsub)
    exact hfence.trans (hmarker v hv)

/-- A submission in flight has the record. -/
def State.Flying (s : State) (r : Nat) : Prop := ∃ pc ∈ s.threads, ∃ sub ∈ pc.inFlight, sub.id = r

theorem Listing.of_quiet (h : Listing s) (q : Quiet s s')
    (hregistry : ∀ r ∈ s'.registry, r ∈ s.registry)
    (hlisted : ∀ sub ∈ s.accepted, s.Listed sub.id → s'.Listed sub.id)
    (hflying : ∀ r ∈ s'.registry, s.Flying r → s'.Flying r)
    (hrecord : ∀ r ∈ s'.registry, ∀ v, s'.record r = some v →
      ∃ v₀, s.record r = some v₀ ∧ v.ready = v₀.ready) : Listing s' := by
  refine ⟨?_, ?_, ?_, fun r hr v hv => ?_⟩
  · rw [q.accepted]
    exact fun sub hsub => (h.unsettled sub hsub).imp (fun hshown => hshown.append q.log) (hlisted sub hsub)
  · rw [q.accepted, q.fences]
    exact fun x hx hmarked y hy hqueue hserial hreg =>
      hlisted x hx (h.ordered x hx hmarked y hy hqueue hserial (hregistry _ hreg))
  · rw [q.accepted]
    exact fun r hr => (h.submitted r (hregistry r hr)).imp_right (hflying r hr)
  · obtain ⟨v₀, hv₀, hready⟩ := hrecord r hr v hv
    exact hready.trans (h.unready r (hregistry r hr) v₀ hv₀)

/-- A quiet step with the recordings as they were, in which records keep what they are of. -/
theorem Sound.carried (h : Sound s) (hinv : Inv s') (q : Quiet s s') (htables : Tables s'.memory)
    (hrecordings : s'.recordings = s.recordings)
    (hrecord : ∀ x v', s'.record x = some v' → x ∈ s.accepted.map Submission.id →
      ∃ v, s.record x = some v ∧ v'.core = v.core ∧ v'.fence = v.fence) (hlisting : Listing s')
    (hcalls : Calls s') : Sound s' := by
  refine ⟨hinv, h.book.of_quiet q htables (fun r hr w hw => ?_) fun x v' hv' hx => ?_,
    h.fenced.of_quiet q fun x v' hv' hx => ?_, hlisting, hcalls⟩
  · exact q.tracked w (h.book.recordings r (hrecordings ▸ hr) w hw)
  · obtain ⟨v, hv, hcore, -⟩ := hrecord x v' hv' hx
    exact ⟨v, hv, hcore⟩
  · obtain ⟨v, hv, -, hfence⟩ := hrecord x v' hv' hx
    exact ⟨v, hv, hfence⟩

/-! ## The threads -/

variable {t : Nat}

theorem mem_set_of_ne {j : Nat} {pc' : Pc} (hne : j ≠ t) (h : l[j]? = some pc) : pc ∈ l.set t pc' := by
  refine mem_of_getElem? (i := j) ?_
  rw [getElem?_set_ne (Ne.symm hne)]
  exact h

/-- Where a thread is after one of them went on. -/
theorem getElem?_set_cases {j : Nat} {pc' : Pc} (h : (l.set t pc')[j]? = some pc) :
    (j = t ∧ pc = pc') ∨ (j ≠ t ∧ l[j]? = some pc) := by
  by_cases hj : j = t
  · subst hj
    rw [getElem?_set_self'] at h
    obtain ⟨-, -, rfl⟩ := Option.map_eq_some_iff.mp h
    exact .inl ⟨rfl, rfl⟩
  · rw [getElem?_set_ne (Ne.symm hj)] at h
    exact .inr ⟨hj, h⟩

theorem exists_set (pc' : Pc) (ht : l[t]? = some pc) {P : Pc → Prop} (h : ∃ x ∈ l, P x) :
    P pc ∨ ∃ x ∈ l.set t pc', P x := by
  obtain ⟨x, hx, hP⟩ := h
  obtain ⟨j, hj⟩ := mem_iff_getElem?.mp hx
  by_cases hne : j = t
  · subst hne
    rw [ht] at hj
    cases hj
    exact .inl hP
  · exact .inr ⟨x, mem_set_of_ne hne hj, hP⟩

theorem mem_set_self {pc' : Pc} (ht : l[t]? = some pc) : pc' ∈ l.set t pc' := by
  refine mem_of_getElem? (i := t) ?_
  rw [getElem?_set_self', ht]
  rfl

section
variable {pc' : Pc} (ht : s.threads[t]? = some pc)
  (hthreads : s'.threads = s.threads.set t pc')
include ht hthreads

/-- What one thread's step does to the lists. -/
theorem listed_move (h : s.Listed r) (hregistry : r ∈ s.registry → r ∈ s'.registry ∨ r ∈ pc'.listed)
    (hlisted : r ∈ pc.listed → r ∈ s'.registry ∨ r ∈ pc'.listed) : s'.Listed r := by
  have hown : r ∈ s'.registry ∨ r ∈ pc'.listed → s'.Listed r := fun h =>
    h.imp_right fun hr => ⟨pc', hthreads ▸ mem_set_self ht, hr⟩
  rcases h with hr | hr
  · exact hown (hregistry hr)
  · rcases exists_set pc' ht hr with hr | hr
    · exact hown (hlisted hr)
    · exact .inr (hthreads ▸ hr)

theorem flying_move (h : s.Flying r) (hinFlight : ∀ sub ∈ pc.inFlight, sub.id = r → s'.Flying r) :
    s'.Flying r := by
  rcases exists_set pc' ht h with ⟨sub, hsub, hid⟩ | h
  · exact hinFlight sub hsub hid
  · rw [State.Flying, hthreads]
    exact h

section
variable (h : Calls s) (hframe : ∀ j pc₁, j ≠ t → s.threads[j]? = some pc₁ → Frame s s' pc₁)
include h hframe

theorem Calls.move (hapart : ∀ j pc₁, j ≠ t → s.threads[j]? = some pc₁ → pc'.uses.Apart pc₁.uses)
    (hlock : pc'.locked = true → ∀ j pc₁, j ≠ t → s.threads[j]? = some pc₁ → pc₁.locked = false)
    (hheld : ∀ pc₁ ∈ s'.threads, pc₁.locked = true → s'.completing = true)
    (hposition : Position s' pc') : Calls s' := by
  refine ⟨fun i j pc₁ pc₂ hne hi hj => ?_, fun i j pc₁ pc₂ hi hj h₁ h₂ => ?_, hheld, fun pc₁ hpc₁ => ?_⟩
  · rw [hthreads] at hi hj
    rcases getElem?_set_cases hi with ⟨rfl, rfl⟩ | ⟨hit, hi'⟩
    · rcases getElem?_set_cases hj with ⟨rfl, -⟩ | ⟨hjt, hj⟩
      · exact absurd rfl hne
      · exact hapart j pc₂ hjt hj
    · rcases getElem?_set_cases hj with ⟨rfl, rfl⟩ | ⟨hjt, hj⟩
      · exact (hapart i pc₁ hit hi').symm
      · exact h.apart i j pc₁ pc₂ hne hi' hj
  · rw [hthreads] at hi hj
    rcases getElem?_set_cases hi with ⟨rfl, rfl⟩ | ⟨hit, hi'⟩
    · rcases getElem?_set_cases hj with ⟨rfl, -⟩ | ⟨hjt, hj⟩
      · rfl
      · exact absurd (hlock h₁ j pc₂ hjt hj) (by simp [h₂])
    · rcases getElem?_set_cases hj with ⟨rfl, rfl⟩ | ⟨hjt, hj⟩
      · exact absurd (hlock h₂ i pc₁ hit hi') (by simp [h₁])
      · exact h.lock i j pc₁ pc₂ hi' hj h₁ h₂
  · rw [hthreads] at hpc₁
    obtain ⟨j, hj⟩ := mem_iff_getElem?.mp hpc₁
    rcases getElem?_set_cases hj with ⟨-, rfl⟩ | ⟨hjt, hj⟩
    · exact hposition
    · exact (hframe j pc₁ hjt hj).position (h.position pc₁ (mem_of_getElem? hj))

/-- A call goes on without using more. -/
theorem Calls.goto
    (huses : pc'.uses.Within pc.uses) (hlocked : pc'.locked = true → pc.locked = true)
    (hcompleting : s'.completing = s.completing)
    (hsettled : ∀ k ∈ pc.uses.resetting,
      (s.fences k.1 k.2).isPending = false → (s'.fences k.1 k.2).isPending = false)
    (hlocal : Local s' pc') : Calls s' := by
  refine h.move ht hthreads hframe (fun j pc₁ hne hj => ?_) (fun hl j pc₁ hne hj => ?_)
    (fun pc₁ hpc₁ hl => ?_) ⟨hlocal, fun k hk => ?_⟩
  · exact (h.apart t j pc pc₁ (Ne.symm hne) ht hj).within huses
  · cases hcase : pc₁.locked with
    | false => rfl
    | true => exact absurd (h.lock j t pc₁ pc hj ht hcase (hlocked hl)) hne
  · rw [hcompleting]
    rw [hthreads] at hpc₁
    rcases mem_or_eq_of_mem_set hpc₁ with hpc₁ | rfl
    · exact h.held pc₁ hpc₁ hl
    · exact h.held pc (mem_of_getElem? ht) (hlocked hl)
  · have hold := huses.resetting hk
    exact hsettled k hold ((h.position pc (mem_of_getElem? ht)).settled k hold)

end

end

/-- A step of no thread. -/
theorem Calls.outside (h : Calls s) (hthreads : s'.threads = s.threads)
    (hcompleting : s'.completing = s.completing) (hframe : ∀ pc ∈ s.threads, Frame s s' pc) :
    Calls s' := by
  refine ⟨hthreads ▸ h.apart, hthreads ▸ h.lock, hthreads ▸ hcompleting ▸ h.held, ?_⟩
  rw [hthreads]
  exact fun pc hpc => (hframe pc hpc).position (h.position pc hpc)

end Readback
