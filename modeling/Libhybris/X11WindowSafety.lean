import Libhybris.X11Window
import Mathlib.Data.List.Range

/-!
# Ownership of the X11 window's buffers

A buffer that is queued, being presented or pending is in exactly one of these places, and the two
flags say so; the presenter's redundant clearing of the flags after a rejected request is harmless
because the error that it leaves stops every other call until the presenter is done.
-/
namespace X11Window

open RefCount List Registry Option

/-! ## Who has a buffer -/

/-- The submission the presenter has a reference for. -/
def Worker.buffer : Worker → List Nat
  | .waiting => []
  | .presenting s => [s.buffer]
  | .preparing s => [s.buffer]
  | .checking s _ => [s.buffer]
  | .failed s _ => [s.buffer]
  | .checked s _ => [s.buffer]
  | .exited => []

/-- The buffer that is being presented: `present` has it, or failed and the presenter has not said
so yet. -/
def Worker.presents : Worker → List Nat
  | .waiting => []
  | .presenting s => [s.buffer]
  | .preparing s => [s.buffer]
  | .checking s _ => [s.buffer]
  | .failed s _ => [s.buffer]
  | .checked _ _ => []
  | .exited => []

/-- The same without what is in the pending list. -/
def Worker.unrecorded : Worker → List Nat
  | .waiting => []
  | .presenting s => [s.buffer]
  | .preparing s => [s.buffer]
  | .checking _ _ => []
  | .failed s _ => [s.buffer]
  | .checked _ _ => []
  | .exited => []

/-- The fence the presenter has yet to wait for. -/
def Worker.fence : Worker → List Nat
  | .waiting => []
  | .presenting s => s.fence.toList
  | .preparing _ => []
  | .checking _ _ => []
  | .failed _ _ => []
  | .checked _ _ => []
  | .exited => []

def Call.fence : Call → List Nat
  | .dequeuing _ => []
  | .polling _ => []
  | .queueing _ fence => fence.toList
  | .closing fence => fence.toList
  | .disconnecting => []

/-- Every reference to a buffer. -/
def State.owners (s : State) : List Nat :=
  s.pool ++ s.work.map Submission.buffer ++ s.worker.buffer ++ s.pending.map Pending.buffer ++ s.clients

/-- The buffers on their way to the server or with it. -/
def State.flight (s : State) : List Nat :=
  s.work.map Submission.buffer ++ s.worker.unrecorded ++ s.pending.map Pending.buffer

/-- The fences that were passed and not consumed yet. -/
def State.carried (s : State) : List Nat :=
  s.calls.flatMap Call.fence ++ s.work.flatMap (fun w => w.fence.toList) ++ s.worker.fence

/-! ## The invariant -/

/-- The flags of a buffer that is on its way `n` times. -/
structure Flags (n : Nat) (b : Buffer) : Prop where
  flight : n = if b.queued then 1 else 0
  held : b.queued = true → b.held = true
  taken : b.taken = (b.held && !b.queued)

theorem Flags.not_queued {n : Nat} {b : Buffer} (hf : Flags n b) (h : b.held = false) :
    b.queued = false := by
  by_contra hne
  rw [hf.held (by simpa using hne)] at h
  cases h

def Flagged (h : Heap Nat Buffer) (flight : List Nat) : Prop :=
  ∀ a o, h a = some o → Flags (flight.count a) o.value

structure Entries (pending : List Pending) (nextPending : Nat) : Prop where
  serials : (pending.map Pending.serial).Nodup
  nonzero : 0 ∉ pending.map Pending.serial
  ids : (pending.map Pending.id).Nodup
  old : ∀ i ∈ pending.map Pending.id, i < nextPending

/-- What the presenter relies on. -/
def State.Presenting (s : State) : Prop :=
  match s.worker with
  | .waiting => s.busy = false
  | .presenting _ => s.busy = true
  | .preparing _ => s.busy = true
  | .checking sub id => s.busy = true ∧
    ∃ p ∈ s.pending, p.id = id ∧ p.buffer = sub.buffer ∧ p.checked = false
  | .failed _ error => s.busy = true ∧ error ≠ 0
  | .checked sub error => s.busy = true ∧
    (error ≠ 0 → s.asynchronousError ≠ 0 ∧ (s.flags sub.buffer).held = false)
  | .exited => s.busy = false

structure Inv (s : State) : Prop where
  balanced : Balanced s.buffers s.owners
  flagged : Flagged s.buffers s.flight
  entries : Entries s.pending s.nextPending
  presenting : s.Presenting
  fences : ∀ f, s.consumed.count f + s.carried.count f = if f < s.nextFence then 1 else 0

theorem Inv.start : Inv .start where
  balanced := balanced_empty
  flagged := fun _ _ h => nomatch h
  entries := ⟨nodup_nil, not_mem_nil, nodup_nil, nofun⟩
  presenting := rfl
  fences := fun _ => rfl

/-! ## Flags -/

section Flags

variable {h h' : Heap Nat Buffer} {flight flight' : List Nat} {a : Nat}

theorem Flagged.perm (hf : Flagged h flight) (hp : flight.Perm flight') : Flagged h flight' := by
  intro x o ho
  rw [← hp.count_eq x]
  exact hf x o ho

theorem Flagged.keeps (hf : Flagged h flight) (hk : Keeps h h') : Flagged h' flight := by
  intro x o' ho'
  obtain ⟨o, ho, heq⟩ := hk x o' ho'
  rw [← heq]
  exact hf x o ho

/-- The flags of one buffer change. -/
theorem Flagged.modify (hf : Flagged h flight) {f : Buffer → Buffer}
    (hother : ∀ x, x ≠ a → flight'.count x = flight.count x)
    (ha : ∀ o, h a = some o → Flags (flight.count a) o.value → Flags (flight'.count a) (f o.value)) :
    Flagged (RefCount.modify h a f) flight' := by
  intro x o' ho'
  obtain ⟨o, ho, heq⟩ := modify_eq_some ho'
  rw [heq]
  by_cases hx : x = a
  · subst hx
    rw [if_pos rfl]
    exact ha o ho (hf x o ho)
  · rw [if_neg hx, hother x hx]
    exact hf x o ho

/-- A buffer that arrived is in no other place. -/
theorem Flagged.free (hf : Flagged h (a :: flight)) : Flagged (RefCount.modify h a Buffer.free) flight := by
  refine hf.modify (fun x hx => (count_cons_of_ne hx.symm).symm) fun o _ hflags => ?_
  obtain ⟨hcount, hheld, htaken⟩ := hflags
  rw [count_cons_self] at hcount
  have hqueued : o.value.queued = true := by
    by_contra hne
    rw [if_neg hne] at hcount
    omega
  rw [if_pos hqueued] at hcount
  refine ⟨by simp only [Buffer.free]; simp; omega, nofun, ?_⟩
  rw [Buffer.free, htaken, hqueued, hheld hqueued]
  rfl

section
variable (hf : Flagged h flight)
include hf

/-- Clearing the flags of a buffer that nobody has changes nothing. -/
theorem Flagged.clear (ha : ∀ o, h a = some o → o.value.held = false) :
    Flagged (RefCount.modify h a Buffer.free) flight := by
  refine hf.modify (fun _ _ => rfl) fun o ho hflags => ?_
  refine ⟨?_, nofun, ?_⟩
  · rw [hflags.flight, hflags.not_queued (ha o ho)]
    rfl
  · rw [Buffer.free, hflags.taken, ha o ho]
    rfl

theorem Flagged.dequeue (ha : ∀ o, h a = some o → o.value.held = false) :
    Flagged (RefCount.modify h a Buffer.dequeue) flight := by
  refine hf.modify (fun _ _ => rfl) fun o ho hflags => ?_
  refine ⟨hflags.flight, fun _ => rfl, ?_⟩
  rw [Buffer.dequeue, hflags.not_queued (ha o ho)]
  rfl

theorem Flagged.enqueue (ha : ∀ o, h a = some o → o.value.held = true)
    (hq : ∀ o, h a = some o → o.value.queued = false) :
    Flagged (RefCount.modify h a Buffer.enqueue) (a :: flight) := by
  refine hf.modify (fun x hx => count_cons_of_ne hx.symm) fun o ho hflags => ?_
  refine ⟨?_, fun _ => ha o ho, ?_⟩
  · rw [count_cons_self, hflags.flight, hq o ho]
    rfl
  · rw [Buffer.enqueue, ha o ho]
    rfl

theorem Flagged.giveBack (hq : ∀ o, h a = some o → o.value.queued = false) :
    Flagged (RefCount.modify h a Buffer.giveBack) flight := by
  refine hf.modify (fun _ _ => rfl) fun o ho hflags => ⟨hflags.flight, fun hqueued => ?_, rfl⟩
  have hnot : o.value.queued = true := hqueued
  rw [hq o ho] at hnot
  cases hnot

theorem Flagged.create (ha : a ∉ flight) : Flagged (RefCount.create h a Buffer.fresh) flight := by
  intro x o' ho'
  rcases create_eq_some ho' with ⟨rfl, hvalue⟩ | ⟨-, ho⟩
  · rw [hvalue, count_eq_zero.mpr ha]
    exact ⟨rfl, nofun, rfl⟩
  · exact hf x o' ho

end

end Flags

/-- No buffer is held in the second heap that was not in the first. -/
def Frees (h h' : Heap Nat Buffer) : Prop :=
  ∀ a o', h' a = some o' → o'.value.held = true → ∃ o, h a = some o ∧ o.value.held = true

/-- No buffer was taken or given back. -/
def Quiet (h h' : Heap Nat Buffer) : Prop :=
  ∀ a o', h' a = some o' → ∃ o, h a = some o ∧ o'.value.taken = o.value.taken ∧
    (o'.value.held = true → o.value.held = true)

theorem Quiet.refl (h : Heap Nat Buffer) : Quiet h h := fun _ o ho => ⟨o, ho, rfl, id⟩

theorem Quiet.trans {h h' h'' : Heap Nat Buffer} (hq : Quiet h h') (hq' : Quiet h' h'') : Quiet h h'' := by
  intro a o'' ho''
  obtain ⟨o', ho', htaken', hheld'⟩ := hq' a o'' ho''
  obtain ⟨o, ho, htaken, hheld⟩ := hq a o' ho'
  exact ⟨o, ho, htaken'.trans htaken, fun h => hheld (hheld' h)⟩

theorem quiet_of_keeps {h h' : Heap Nat Buffer} (hk : Keeps h h') : Quiet h h' := by
  intro a o' ho'
  obtain ⟨o, ho, heq⟩ := hk a o' ho'
  rw [← heq]
  exact ⟨o, ho, rfl, id⟩

theorem quiet_free (h : Heap Nat Buffer) (a : Nat) : Quiet h (modify h a Buffer.free) := by
  intro x o' ho'
  obtain ⟨o, ho, heq⟩ := modify_eq_some ho'
  refine ⟨o, ho, ?_⟩
  rw [heq]
  split
  · exact ⟨rfl, nofun⟩
  · exact ⟨rfl, id⟩

theorem Quiet.frees {h h' : Heap Nat Buffer} (hq : Quiet h h') : Frees h h' := by
  intro a o' ho' hheld'
  obtain ⟨o, ho, -, hheld⟩ := hq a o' ho'
  exact ⟨o, ho, hheld hheld'⟩

theorem frees_giveBack (h : Heap Nat Buffer) (a : Nat) : Frees h (modify h a Buffer.giveBack) := by
  intro x o' ho' hheld'
  obtain ⟨o, ho, heq⟩ := modify_eq_some ho'
  rw [heq] at hheld'
  split at hheld'
  · cases hheld'
  · exact ⟨o, ho, hheld'⟩

variable {s t : State} {p : Pending} {pending : List Pending} {sub : Submission} {error : Int} {a : Nat}

theorem flags_of_some {o : Object Buffer} (ho : s.buffers a = some o) : s.flags a = o.value := by
  rw [State.flags, ho]
  rfl

/-- The flags read as a statement about the object, if there is one. -/
theorem held_eq_false : (s.flags a).held = false ↔ ∀ o, s.buffers a = some o → o.value.held = false := by
  cases ho : s.buffers a with
  | none => simp [State.flags, ho, Buffer.fresh]
  | some o => simp [State.flags, ho]

theorem queued_eq_false :
    (s.flags a).queued = false ↔ ∀ o, s.buffers a = some o → o.value.queued = false := by
  cases ho : s.buffers a with
  | none => simp [State.flags, ho, Buffer.fresh]
  | some o => simp [State.flags, ho]

theorem Frees.not_held {s' : State} (hf : Frees s.buffers s'.buffers)
    (h : (s.flags a).held = false) : (s'.flags a).held = false := by
  rw [held_eq_false] at h ⊢
  intro o' ho'
  by_contra hne
  obtain ⟨o, ho, hheld⟩ := hf a o' ho' (by simpa using hne)
  rw [h o ho] at hheld
  cases hheld

/-! ## Release events -/

/-- An event changes the pending list and the buffers only. -/
theorem handle_frame (s : State) (e : Event) :
    ∃ pending buffers, s.handle e = { s with pending := pending, buffers := buffers } := by
  cases e with
  | configureNotify => exact ⟨s.pending, s.buffers, rfl⟩
  | bufferRelease serial =>
    rw [State.handle, State.release]
    split
    · exact ⟨s.pending, s.buffers, rfl⟩
    · split
      · exact ⟨_, s.buffers, rfl⟩
      · exact ⟨_, _, rfl⟩

theorem foldl_handle_frame (events : List Event) (s : State) :
    ∃ pending buffers, events.foldl State.handle s = { s with pending := pending, buffers := buffers } := by
  induction events generalizing s with
  | nil => exact ⟨s.pending, s.buffers, rfl⟩
  | cons e events ih =>
    obtain ⟨pending, buffers, heq⟩ := handle_frame s e
    obtain ⟨pending', buffers', heq'⟩ := ih (s.handle e)
    refine ⟨pending', buffers', ?_⟩
    rw [foldl_cons, heq', heq]

theorem drain_frame (s : State) : ∃ pending buffers,
    drain s = { s with events := [], pending := pending, buffers := buffers } := by
  obtain ⟨pending, buffers, heq⟩ := foldl_handle_frame s.events s
  exact ⟨pending, buffers, by rw [drain, heq]⟩

@[simp] theorem drain_pool (s : State) : (drain s).pool = s.pool := by
  obtain ⟨pending, buffers, heq⟩ := drain_frame s
  rw [heq]

@[simp] theorem drain_work (s : State) : (drain s).work = s.work := by
  obtain ⟨pending, buffers, heq⟩ := drain_frame s
  rw [heq]

@[simp] theorem drain_worker (s : State) : (drain s).worker = s.worker := by
  obtain ⟨pending, buffers, heq⟩ := drain_frame s
  rw [heq]

@[simp] theorem drain_calls (s : State) : (drain s).calls = s.calls := by
  obtain ⟨pending, buffers, heq⟩ := drain_frame s
  rw [heq]

/-- A pending entry's buffer is among the owners' and in flight. -/
theorem Inv.remove (h : Inv s) (hp : s.pending.Perm (p :: pending)) :
    Balanced (RefCount.release (modify s.buffers p.buffer Buffer.free) p.buffer)
        { s with pending := pending }.owners ∧
      Flagged (RefCount.release (modify s.buffers p.buffer Buffer.free) p.buffer)
        { s with pending := pending }.flight ∧
      Entries pending s.nextPending := by
  have hbuffers : ∀ a, (s.pending.map Pending.buffer).count a =
      (p.buffer :: pending.map Pending.buffer).count a := (hp.map Pending.buffer).count_eq
  refine ⟨?_, ?_, ?_⟩
  · refine Balanced.release (Balanced.modify (h.balanced.perm (perm_iff_count.mpr fun a => ?_)) _ _)
    simp only [State.owners, count_append, count_cons, hbuffers]
    omega
  · refine (Flagged.free (h.flagged.perm (perm_iff_count.mpr fun a => ?_))).keeps (keeps_release _ _)
    simp only [State.flight, count_append, count_cons, hbuffers]
    omega
  · have hserials := hp.map Pending.serial
    have hids := hp.map Pending.id
    exact ⟨(nodup_cons.mp (hserials.nodup_iff.mp h.entries.serials)).2,
      fun hz => h.entries.nonzero (hserials.mem_iff.mpr (mem_cons_of_mem _ hz)),
      (nodup_cons.mp (hids.nodup_iff.mp h.entries.ids)).2,
      fun i hi => h.entries.old i (hids.mem_iff.mpr (mem_cons_of_mem _ hi))⟩

/-- A mark at an entry, which keeps its buffer, serial and address. -/
theorem Inv.mark (h : Inv s) {κ : Type} [DecidableEq κ] (key : Pending → κ) (k : κ) {f : Pending →
    Pending} (hbuffer : ∀ p, (f p).buffer = p.buffer) (hserial : ∀ p, (f p).serial = p.serial)
    (hid : ∀ p, (f p).id = p.id) :
    Balanced s.buffers { s with pending := Registry.modify key k f s.pending }.owners ∧
      Flagged s.buffers { s with pending := Registry.modify key k f s.pending }.flight ∧
      Entries (Registry.modify key k f s.pending) s.nextPending := by
  refine ⟨?_, ?_, ?_⟩
  · rw [State.owners, map_modify key k hbuffer]
    exact h.balanced
  · rw [State.flight, map_modify key k hbuffer]
    exact h.flagged
  · obtain ⟨hserials, hnonzero, hids, hold⟩ := h.entries
    refine ⟨?_, ?_, ?_, ?_⟩
    · rwa [map_modify key k hserial]
    · rwa [map_modify key k hserial]
    · rwa [map_modify key k hid]
    · rwa [map_modify key k hid]

section
variable (h : s.Presenting) {buffers : Heap Nat Buffer} (hfrees : Frees s.buffers buffers)
include h hfrees

/-- What the presenter relies on survives as long as nothing is dequeued. -/
theorem State.Presenting.frees (hkept : ∀ p ∈ s.pending, p.checked = false →
      ∃ p' ∈ pending, p'.id = p.id ∧ p'.buffer = p.buffer ∧ p'.checked = false) :
    { s with pending := pending, buffers := buffers }.Presenting := by
  unfold State.Presenting at h ⊢
  simp only at h ⊢
  split at h
  case h_4 sub id hw =>
    obtain ⟨hbusy, p, hp, hid, hbuffer, hchecked⟩ := h
    obtain ⟨p', hp', hid', hbuffer', hchecked'⟩ := hkept p hp hchecked
    exact ⟨hbusy, p', hp', hid'.trans hid, hbuffer'.trans hbuffer, hchecked'⟩
  case h_6 sub error hw =>
    exact ⟨h.1, fun he => ⟨(h.2 he).1, Frees.not_held hfrees (h.2 he).2⟩⟩
  all_goals exact h

theorem State.Presenting.keeps : { s with buffers := buffers }.Presenting :=
  h.frees hfrees fun p hp hchecked => ⟨p, hp, rfl, rfl, hchecked⟩

end

/-- Until it has sent a request, the presenter relies on nothing else. -/
theorem State.Presenting.preparing (h : s.Presenting)
    (hw : s.worker = .presenting sub ∨ s.worker = .preparing sub) : s.busy = true := by
  unfold State.Presenting at h
  rcases hw with hw | hw <;> rw [hw] at h <;> exact h

theorem Inv.release (h : Inv s) (serial : UInt32) :
    Inv (s.release serial) ∧ Quiet s.buffers (s.release serial).buffers := by
  rw [State.release]
  split
  case h_1 => exact ⟨h, Quiet.refl _⟩
  case h_2 p hlookup =>
    split
    case isTrue =>
      obtain ⟨hbalanced, hflagged, hentries⟩ := h.mark Pending.serial serial
        (f := Pending.markReleased) (fun _ => rfl) (fun _ => rfl) (fun _ => rfl)
      refine ⟨⟨hbalanced, hflagged, hentries,
        h.presenting.frees (Quiet.refl _).frees fun p hp hchecked => ?_, h.fences⟩, Quiet.refl _⟩
      rcases modify_mem Pending.serial serial hp with hmem | hmem
      · exact ⟨p, hmem, rfl, rfl, hchecked⟩
      · exact ⟨_, hmem, rfl, rfl, hchecked⟩
    case isFalse hchecked =>
      have hperm := perm_remove Pending.serial hlookup
      obtain ⟨hbalanced, hflagged, hentries⟩ := h.remove hperm
      have hquiet := (quiet_free s.buffers p.buffer).trans
        (quiet_of_keeps (keeps_release (modify s.buffers p.buffer Buffer.free) p.buffer))
      refine ⟨⟨hbalanced, hflagged, hentries,
        h.presenting.frees hquiet.frees fun q hq hunchecked => ?_, h.fences⟩, hquiet⟩
      -- the entry is not the presenter's, which is unchecked
      rcases mem_cons.mp (hperm.mem_iff.mp hq) with rfl | hq
      · exact absurd hunchecked hchecked
      · exact ⟨q, hq, rfl, rfl, hunchecked⟩

theorem Inv.handle (h : Inv s) (e : Event) : Inv (s.handle e) ∧ Quiet s.buffers (s.handle e).buffers := by
  cases e with
  | configureNotify => exact ⟨h, Quiet.refl _⟩
  | bufferRelease serial => exact h.release serial

theorem Inv.foldl_handle (h : Inv s) (events : List Event) :
    Inv (events.foldl State.handle s) ∧ Quiet s.buffers (events.foldl State.handle s).buffers := by
  induction events generalizing s with
  | nil => exact ⟨h, Quiet.refl _⟩
  | cons e events ih =>
    obtain ⟨hinv, hquiet⟩ := h.handle e
    obtain ⟨hinv', hquiet'⟩ := ih hinv
    exact ⟨hinv', hquiet.trans hquiet'⟩

theorem Inv.drain (h : Inv s) : Inv (drain s) ∧ Quiet s.buffers (drain s).buffers := by
  obtain ⟨hinv, hquiet⟩ := h.foldl_handle s.events
  exact ⟨⟨hinv.balanced, hinv.flagged, hinv.entries, hinv.presenting, hinv.fences⟩, hquiet⟩

/-! ## Calls and fences -/

theorem count_resume {c : Call} (hc : c ∈ s.calls) (next : List Call) (f : Nat) :
    ((s.resume c next).calls.flatMap Call.fence).count f + c.fence.count f =
      (next.flatMap Call.fence).count f + (s.calls.flatMap Call.fence).count f := by
  have hperm := ((perm_cons_erase hc).flatMap_right Call.fence).count_eq f
  rw [flatMap_cons, count_append] at hperm
  rw [State.resume, flatMap_append, count_append]
  omega

/-- A call goes on, and the fence it had is consumed or with the next part of it. -/
theorem Inv.resume (h : Inv s) {c : Call} (hc : c ∈ s.calls) {next : List Call}
    {consumed : List Nat} (hfence : ∀ f, consumed.count f + (next.flatMap Call.fence).count f =
      s.consumed.count f + c.fence.count f) : Inv { s.resume c next with consumed := consumed } where
  balanced := h.balanced
  flagged := h.flagged
  entries := h.entries
  presenting := h.presenting
  fences := fun f => by
    refine Eq.trans ?_ (h.fences f)
    have hcount := count_resume hc next f
    have hnext := hfence f
    simp only [State.carried, State.resume, count_append] at hcount ⊢
    omega

/-! ## The pool -/

theorem Inv.dropPool (h : Inv s) : Inv (dropPool s) where
  balanced := by
    refine Balanced.releaseAll (h.balanced.perm (perm_iff_count.mpr fun a => ?_))
    simp only [State.owners, X11Window.dropPool, count_append, count_nil]
    omega
  flagged := h.flagged.keeps (keeps_releaseAll _ _)
  entries := h.entries
  presenting := h.presenting.keeps (quiet_of_keeps (keeps_releaseAll s.pool s.buffers)).frees
  fences := h.fences

theorem State.Presenting.idle (h : s.Presenting) (hbusy : s.busy = false) :
    s.worker = .waiting ∨ s.worker = .exited := by
  unfold State.Presenting at h
  split at h
  case h_1 hw => exact .inl hw
  case h_7 hw => exact .inr hw
  all_goals simp [hbusy] at h

theorem presenting_of_idle (hw : s.worker = .waiting ∨ s.worker = .exited)
    (hbusy : s.busy = false) : s.Presenting := by
  unfold State.Presenting
  rcases hw with hw | hw <;> rw [hw] <;> exact hbusy

theorem Inv.fill (h : Inv s) (hbusy : s.busy = false) {allocations : List (Option Nat)}
    (hfresh : Fresh s allocations) : Inv (fill s allocations).1 := by
  induction allocations generalizing s with
  | nil => exact h
  | cons allocation rest ih =>
    cases allocation with
    | none => exact h
    | some a =>
      obtain ⟨hnodup, hnone⟩ := hfresh
      obtain ⟨hnot, hnodup⟩ := nodup_cons.mp hnodup
      have ha : s.buffers a = none := by simpa using hnone a mem_cons_self
      have hflight : a ∉ s.flight := fun hm => h.balanced.not_mem ha (by
        simp only [State.flight, State.owners, mem_append] at hm ⊢
        rcases hm with (hm | hm) | hm
        · exact .inl (.inl (.inl (.inr hm)))
        · refine .inl (.inl (.inr ?_))
          cases hw : s.worker <;> simp_all [Worker.unrecorded, Worker.buffer]
        · exact .inl (.inr hm))
      refine ih (s := { s with buffers := create s.buffers a .fresh, pool := s.pool ++ [a] })
        ⟨?_, h.flagged.create hflight, h.entries,
          presenting_of_idle (h.presenting.idle hbusy) hbusy, h.fences⟩ hbusy ⟨hnodup, fun x hx => ?_⟩
      · refine (h.balanced.create ha Buffer.fresh).perm (perm_iff_count.mpr fun x => ?_)
        simp only [State.owners, count_append, count_cons, count_nil]
        omega
      · have hne : x ≠ a := fun he => hnot (he ▸ hx)
        change (Function.update s.buffers a _ x).isNone = true
        rw [Function.update_of_ne hne]
        exact hnone x (mem_cons_of_mem a hx)

theorem Inv.configure (h : Inv s) (width height : Nat) {allocations : List (Option Nat)}
    (hfresh : Fresh s allocations) : Inv (configure s width height allocations).1 := by
  rw [X11Window.configure]
  split
  case isTrue => exact h
  case isFalse =>
    split
    case isTrue => exact h
    case isFalse hidle =>
      have hbusy : s.busy = false := by
        by_contra hne
        exact hidle (.inr (.inr (.inr (.inl (by simpa using hne)))))
      have hzero : Inv { s with asynchronousError := 0 } :=
        ⟨h.balanced, h.flagged, h.entries, presenting_of_idle (h.presenting.idle hbusy) hbusy, h.fences⟩
      have hfill := hzero.fill hbusy hfresh
      simp only
      split
      · exact hfill.dropPool
      · exact hfill

theorem Inv.disconnected (h : Inv s) : Inv (disconnected s) := by
  have hdropped := h.drain.1.dropPool
  exact ⟨hdropped.balanced, hdropped.flagged, hdropped.entries, hdropped.presenting, hdropped.fences⟩

/-! ## Dequeue, queue and cancel -/

/-- While no error is recorded, the presenter does not rely on any flags. -/
theorem State.Presenting.noError (h : s.Presenting) (herror : s.asynchronousError = 0)
    (buffers : Heap Nat Buffer) : { s with buffers := buffers }.Presenting := by
  unfold State.Presenting at h ⊢
  simp only at h ⊢
  split at h
  case h_6 sub error hw =>
    refine ⟨h.1, fun he => ?_⟩
    exact absurd herror (h.2 he).1
  all_goals exact h

theorem candidate_spec {i : Nat} (h : s.candidate = some i) :
    s.pool.getD i 0 ∈ s.pool ∧ (s.flags (s.pool.getD i 0)).held = false := by
  have hheld := find?_some h
  have hmem := mem_of_find?_eq_some h
  obtain ⟨step, hstep, rfl⟩ := mem_map.mp hmem
  have hlt : (s.nextBuffer + step) % s.pool.length < s.pool.length :=
    Nat.mod_lt _ (by have := mem_range.mp hstep; omega)
  refine ⟨?_, by simpa using hheld⟩
  rw [getD_eq_getElem?_getD, getElem?_eq_getElem hlt]
  exact getElem_mem hlt

section
variable (s : State) (timeout elapsed : Int) (broken : Bool)

/-- A round of `dequeue` handles the events, and may take a buffer that is not held. -/
theorem acquire_cases :
    ((acquire s timeout elapsed broken).1 = drain s ∧
        ∀ a, (acquire s timeout elapsed broken).2 ≠ .got a) ∨
      ∃ i a, a ∈ s.pool ∧ ((drain s).flags a).held = false ∧ (drain s).asynchronousError = 0 ∧
        acquire s timeout elapsed broken =
          ({ drain s with
            nextBuffer := i
            buffers := modify (drain s).buffers a Buffer.dequeue }, .got a) := by
  unfold acquire
  simp only
  split
  case isTrue => exact .inl ⟨rfl, fun a => nofun⟩
  case isFalse hok =>
    split
    case isTrue => exact .inl ⟨rfl, fun a => nofun⟩
    case isFalse =>
      split
      case h_1 i hcandidate =>
        obtain ⟨hmem, hheld⟩ := candidate_spec hcandidate
        rw [drain_pool] at hmem
        refine .inr ⟨_, _, ?_, hheld, ?_, rfl⟩
        · rw [drain_pool]
          exact hmem
        · by_contra hne
          exact hok (.inl hne)
      case h_2 =>
        split
        case isTrue => exact .inl ⟨rfl, fun a => nofun⟩
        case isFalse =>
          split
          · exact .inl ⟨rfl, fun a => nofun⟩
          · exact .inl ⟨rfl, fun a => nofun⟩

theorem acquire_calls :
    (acquire s timeout elapsed broken).1.calls = s.calls := by
  rcases acquire_cases s timeout elapsed broken with ⟨heq, -⟩ | ⟨i, a, -, -, -, heq⟩
  · rw [heq, drain_calls]
  · rw [heq]
    exact drain_calls s

end

theorem Inv.acquire (h : Inv s) (timeout elapsed : Int) (broken : Bool) :
    Inv (acquire s timeout elapsed broken).1 := by
  have hd := h.drain.1
  rcases acquire_cases s timeout elapsed broken with ⟨heq, -⟩ | ⟨i, a, -, hheld, herror, heq⟩
  · rw [heq]
    exact hd
  · rw [heq]
    exact ⟨hd.balanced.modify a _, hd.flagged.dequeue (held_eq_false.mp hheld), hd.entries,
      hd.presenting.noError herror _, hd.fences⟩

theorem queueError_eq_zero (h : queueError s a = 0) :
    s.asynchronousError = 0 ∧ a ∈ s.pool ∧ (s.flags a).held = true ∧ (s.flags a).queued = false := by
  unfold queueError at h
  split at h
  case isTrue hne => exact absurd h hne
  case isFalse hnone =>
    split at h
    case isTrue => cases h
    case isFalse =>
      split at h
      case isTrue => cases h
      case isFalse hok =>
        simp only [not_or, not_not] at hok hnone
        exact ⟨hnone, hok.1, by simpa using hok.2.1, by simpa using hok.2.2⟩

section
variable (h : Inv s)
include h

/-- The fence is with the submission or still with the call. -/
theorem Inv.enqueue {fence : Option Nat} (hc : .queueing a fence ∈ s.calls) :
    Inv ((enqueue s a fence).1.resume (.queueing a fence)
      (if (enqueue s a fence).2 ≠ 0 then [.closing fence] else [])) := by
  have hd := h.drain.1
  have hc' : .queueing a fence ∈ (X11Window.drain s).calls := by rwa [drain_calls]
  unfold X11Window.enqueue
  simp only
  split
  case isFalse herror =>
    exact hd.resume hc' fun f => by simp [Call.fence]
  case isTrue hzero =>
    obtain ⟨herror, hpool, hheld, hqueued⟩ := queueError_eq_zero hzero
    have hmem : a ∈ (X11Window.drain s).owners := by
      simp only [State.owners, mem_append]
      exact .inl (.inl (.inl (.inl hpool)))
    have hheld' : ∀ o, (X11Window.drain s).buffers a = some o → o.value.held = true := by
      intro o ho
      rw [flags_of_some ho] at hheld
      exact hheld
    rw [if_neg fun hne => hne rfl]
    refine ⟨?_, ?_, hd.entries, hd.presenting.noError herror _, fun f => ?_⟩
    · refine ((hd.balanced.modify a Buffer.enqueue).retain hmem).perm (perm_iff_count.mpr fun x => ?_)
      simp only [State.owners, State.resume, map_append, map_cons, map_nil,
        count_append, count_cons, count_nil]
      omega
    · refine ((hd.flagged.enqueue hheld' (queued_eq_false.mp hqueued)).keeps
        (keeps_retain _ _)).perm (perm_iff_count.mpr fun x => ?_)
      simp only [State.flight, State.resume, map_append, map_cons, map_nil,
        count_append, count_cons, count_nil]
      omega
    · refine Eq.trans ?_ (hd.fences f)
      have hcount := count_resume hc' [] f
      simp only [State.carried, State.resume, flatMap_append, flatMap_cons, flatMap_nil,
        append_nil, count_append, count_nil, Call.fence] at hcount ⊢
      omega

theorem Inv.cancel (a : Nat) (signalled : Bool) : Inv (cancel s a signalled).1 := by
  rw [X11Window.cancel]
  split
  case isTrue => exact h
  case isFalse =>
    split
    case isFalse => exact h
    case isTrue hok =>
      exact ⟨h.balanced.modify a _, h.flagged.giveBack (queued_eq_false.mp hok.2), h.entries,
        h.presenting.keeps (frees_giveBack s.buffers a), h.fences⟩

/-! ## References of the client -/

theorem Inv.incRef (ha : (s.buffers a).isSome) :
    Inv { s with buffers := retain s.buffers a, clients := a :: s.clients } := by
  obtain ⟨o, ho⟩ := isSome_iff_exists.mp ha
  have hkeeps := keeps_retain s.buffers a
  refine ⟨?_, h.flagged.keeps hkeeps, h.entries, h.presenting.keeps (quiet_of_keeps hkeeps).frees, h.fences⟩
  refine (h.balanced.retain (h.balanced.mem ho)).perm (perm_iff_count.mpr fun x => ?_)
  simp only [State.owners, count_append, count_cons]
  omega

theorem Inv.decRef (ha : a ∈ s.clients) :
    Inv { s with buffers := RefCount.release s.buffers a, clients := s.clients.erase a } := by
  have hkeeps := keeps_release s.buffers a
  refine ⟨?_, h.flagged.keeps hkeeps, h.entries, h.presenting.keeps (quiet_of_keeps hkeeps).frees, h.fences⟩
  refine Balanced.release (h.balanced.perm (perm_iff_count.mpr fun x => ?_))
  have hclients := (perm_cons_erase ha).count_eq x
  simp only [State.owners, count_append, count_cons] at hclients ⊢
  omega

/-! ## The presenter's steps -/

theorem Inv.take {rest : List Submission} (hw : s.worker = .waiting) (hwork : s.work = sub ::
    rest) : Inv { s with work := rest, busy := true, worker := .presenting sub } := by
  refine ⟨h.balanced.perm (perm_iff_count.mpr fun x => ?_),
    h.flagged.perm (perm_iff_count.mpr fun x => ?_), h.entries, rfl, fun f => ?_⟩
  · simp only [State.owners, hw, hwork, Worker.buffer, map_cons, count_append, count_cons,
      count_nil]
    omega
  · simp only [State.flight, hw, hwork, Worker.unrecorded, map_cons, count_append,
      count_cons, count_nil]
    omega
  · refine Eq.trans ?_ (h.fences f)
    simp only [State.carried, hw, hwork, Worker.fence, flatMap_cons, count_append, count_nil]
    omega

/-- The presenter goes on with the same buffer, and has nothing recorded before or after. -/
theorem Inv.advance {worker : Worker} {consumed : List Nat} (hbuffer : worker.buffer = s.worker.buffer)
    (hunrecorded : worker.unrecorded = s.worker.unrecorded)
    (hrelies : { s with worker := worker }.Presenting)
    (hfence : ∀ f, consumed.count f + worker.fence.count f = s.consumed.count f + s.worker.fence.count f) :
    Inv { s with consumed := consumed, worker := worker } := by
  refine ⟨?_, ?_, h.entries, hrelies, fun f => ?_⟩
  · rw [State.owners, hbuffer]
    exact h.balanced
  · rw [State.flight, hunrecorded]
    exact h.flagged
  · refine Eq.trans ?_ (h.fences f)
    have hf := hfence f
    simp only [State.carried, count_append] at hf ⊢
    omega

theorem Inv.consume (hw : s.worker = .presenting sub) (signalled : Bool) :
    Inv { s with
      consumed := sub.fence.toList ++ s.consumed
      worker := if sub.fence.isSome ∧ signalled = false then .failed sub (-eio) else .preparing sub } := by
  have hbusy := h.presenting.preparing (.inl hw)
  split
  · exact h.advance (by rw [hw]; rfl) (by rw [hw]; rfl) ⟨hbusy, by decide⟩ fun f => by
      simp only [hw, Worker.fence, count_append, count_nil]
      omega
  · exact h.advance (by rw [hw]; rfl) (by rw [hw]; rfl) hbusy fun f => by
      simp only [hw, Worker.fence, count_append, count_nil]
      omega

theorem Inv.giveUp (hw : s.worker = .preparing sub) (herror : error ≠ 0) :
    Inv { s with worker := .failed sub error } := by
  have hbusy := h.presenting.preparing (.inr hw)
  exact h.advance (by rw [hw]; rfl) (by rw [hw]; rfl) ⟨hbusy, herror⟩ fun f => by rw [hw]; rfl

end

theorem nextSerial_spec {fuel : Nat} {start serial : UInt32}
    (h : nextSerial pending fuel start = some serial) :
    serial ∉ pending.map Pending.serial ∧ serial ≠ 0 := by
  induction fuel generalizing start with
  | zero => cases h
  | succ fuel ih =>
    rw [nextSerial] at h
    split at h
    case isTrue => exact ih h
    case isFalse hfree =>
      cases h
      constructor
      · intro hmem
        obtain ⟨p, hp, heq⟩ := mem_map.mp hmem
        exact hfree (any_eq_true.mpr ⟨p, hp, by simpa using heq⟩)
      · unfold succSerial
        split
        case isTrue hzero =>
          rw [hzero]
          decide
        case isFalse hne => exact hne

theorem succSerial_toNat (serial : UInt32) :
    (succSerial serial).toNat = serial.toNat % (2 ^ 32 - 1) + 1 := by
  have hlt := serial.toNat_lt
  have hadd : (serial + 1).toNat = (serial.toNat + 1) % 2 ^ 32 := by
    rfl
  unfold succSerial
  split
  case isTrue hzero =>
    rw [hzero] at hadd ⊢
    change 0 = _ at hadd
    change 1 = _
    omega
  case isFalse hne =>
    have hpos : (serial + 1).toNat ≠ 0 := fun hzero => hne (UInt32.toNat_inj.mp hzero)
    omega

/-- The serials a search that fails has tried. -/
theorem nextSerial_eq_none {fuel : Nat} {start : UInt32} (h : nextSerial pending fuel start = none) :
    ∀ k < fuel, (start.toNat + k) % (2 ^ 32 - 1) + 1 ∈ pending.map fun p => p.serial.toNat := by
  induction fuel generalizing start with
  | zero => exact fun k hk => absurd hk (Nat.not_lt_zero k)
  | succ fuel ih =>
    rw [nextSerial] at h
    split at h
    case isFalse => cases h
    case isTrue hused =>
      intro k hk
      have hsucc := succSerial_toNat start
      cases k with
      | zero =>
        obtain ⟨p, hp, heq⟩ := any_eq_true.mp hused
        refine mem_map.mpr ⟨p, hp, ?_⟩
        rw [of_decide_eq_true heq, hsucc]
        rfl
      | succ k =>
        have hmem := ih h k (by omega)
        rwa [hsucc, show (start.toNat % (2 ^ 32 - 1) + 1 + k) % (2 ^ 32 - 1) =
          (start.toNat + (k + 1)) % (2 ^ 32 - 1) by omega] at hmem

/-- As long as there is a serial left, the search ends. -/
theorem nextSerial_isSome (h : pending.length + 1 < 2 ^ 32) (start : UInt32) :
    (nextSerial pending (pending.length + 1) start).isSome := by
  by_contra hnone
  have htried := nextSerial_eq_none (not_isSome_iff_eq_none.mp hnone)
  let tried := (List.range (pending.length + 1)).map fun k => (start.toNat + k) % (2 ^ 32 - 1) + 1
  have hnodup : tried.Nodup := by
    refine List.Nodup.map_on (fun i hi j hj heq => ?_) nodup_range
    rw [mem_range] at hi hj
    omega
  have hsubset : tried ⊆ pending.map fun p => p.serial.toNat := by
    intro n hn
    obtain ⟨k, hk, rfl⟩ := mem_map.mp hn
    exact htried k (mem_range.mp hk)
  have hle := (subperm_of_subset hnodup hsubset).length_le
  simp only [tried, length_map, length_range] at hle
  omega

/-- The presenter finds a serial that is not zero and that no pending request has. -/
theorem record_finds_serial (s : State) (sub : Submission) (h : (drain s).pending.length + 1 < 2 ^ 32) :
    ∃ t, record s sub = some t ∧ t.serial ≠ 0 ∧ t.serial ∉ (drain s).pending.map Pending.serial := by
  obtain ⟨serial, hserial⟩ := isSome_iff_exists.mp (nextSerial_isSome h (drain s).serial)
  obtain ⟨hnew, hnonzero⟩ := nextSerial_spec hserial
  exact ⟨_, congrArg (Option.map _) hserial, hnonzero, hnew⟩

/-- The counter is about to wrap, and requests with the serials 1 and 2 are pending. -/
def wrapping : State :=
  { State.start with
    serial := 0xffffffff
    pending := [⟨1, 0, 2, true, false⟩, ⟨0, 1, 1, true, false⟩] }

theorem record_finds_serial_wrapping :
    (record wrapping ⟨0, none⟩).map State.serial = some 3 ∧
    ∃ t, record wrapping ⟨0, none⟩ = some t ∧ t.serial ≠ 0 ∧
      t.serial ∉ (drain wrapping).pending.map Pending.serial :=
  ⟨rfl, record_finds_serial wrapping ⟨0, none⟩ (by decide)⟩

theorem Inv.record (h : Inv s) (hw : s.worker = .preparing sub) (ht : record s sub = some t) : Inv t := by
  have hd := h.drain.1
  have hw' : (X11Window.drain s).worker = .preparing sub := by rw [drain_worker, hw]
  have hbusy := hd.presenting.preparing (.inr hw')
  rw [X11Window.record] at ht
  obtain ⟨serial, hserial, rfl⟩ := map_eq_some_iff.mp ht
  obtain ⟨hnew, hnonzero⟩ := nextSerial_spec hserial
  generalize X11Window.drain s = d at hd hw' hbusy hnew
  have hmem : sub.buffer ∈ d.owners := by
    simp [State.owners, hw', Worker.buffer]
  refine ⟨?_, ?_, ?_, ⟨hbusy, _, mem_cons_self, rfl, rfl, rfl⟩, fun f => ?_⟩
  · refine (hd.balanced.retain hmem).perm (perm_iff_count.mpr fun x => ?_)
    simp only [State.owners, hw', Worker.buffer, map_cons, count_append, count_cons,
      count_nil]
    omega
  · refine (hd.flagged.keeps (keeps_retain _ _)).perm (perm_iff_count.mpr fun x => ?_)
    simp only [State.flight, hw', Worker.unrecorded, map_cons, count_append, count_cons,
      count_nil]
    omega
  · obtain ⟨hserials, hzero, hids, hold⟩ := hd.entries
    refine ⟨nodup_cons.mpr ⟨hnew, hserials⟩, fun hm => ?_, nodup_cons.mpr ⟨fun hm => ?_, hids⟩,
      fun i hi => ?_⟩
    · rcases mem_cons.mp hm with heq | hm
      · exact hnonzero heq.symm
      · exact hzero hm
    · exact Nat.lt_irrefl _ (hold _ hm)
    · rcases mem_cons.mp hi with rfl | hi
      · exact Nat.lt_succ_self _
      · exact Nat.lt_succ_of_lt (hold i hi)
  · refine Eq.trans ?_ (hd.fences f)
    simp only [State.carried, hw', Worker.fence]

theorem sticky_ne_zero (s : State) (h : error ≠ 0) : sticky s error ≠ 0 := by
  unfold sticky
  split
  case isTrue => exact h
  case isFalse hnot => exact fun hzero => hnot ⟨h, hzero⟩

theorem free_not_held (hb : s.buffers = RefCount.release (modify h a Buffer.free) a) :
    (s.flags a).held = false := by
  rw [held_eq_false]
  intro o ho
  rw [hb] at ho
  obtain ⟨o', ho', heq⟩ := keeps_release _ a a o ho
  obtain ⟨o'', -, heq'⟩ := modify_eq_some ho'
  rw [← heq, heq', if_pos rfl]
  rfl

theorem Inv.answered (h : Inv s) {id : Nat} (hw : s.worker = .checking sub id)
    (ht : answered s sub id error = some t) : Inv t := by
  have hp := h.presenting
  rw [State.Presenting, hw] at hp
  obtain ⟨hbusy, q, hq, rfl, hbuffer, hchecked⟩ := hp
  have hlookup := lookup_of_mem Pending.id h.entries.ids hq
  rw [X11Window.answered, hlookup, map_some] at ht
  cases ht
  split
  case isTrue =>
    obtain ⟨hbalanced, hflagged, hentries⟩ := h.remove (perm_remove Pending.id hlookup)
    rw [hbuffer] at hbalanced hflagged
    refine ⟨?_, ?_, hentries, ⟨hbusy, fun he => ⟨sticky_ne_zero s he, free_not_held rfl⟩⟩, fun f => ?_⟩
    · simpa only [State.owners, hw, Worker.buffer] using hbalanced
    · simpa only [State.flight, hw, Worker.unrecorded] using hflagged
    · refine Eq.trans ?_ (h.fences f)
      simp only [State.carried, hw, Worker.fence]
  case isFalse hok =>
    obtain ⟨hbalanced, hflagged, hentries⟩ := h.mark Pending.id q.id (f := Pending.markChecked)
      (fun _ => rfl) (fun _ => rfl) (fun _ => rfl)
    refine ⟨?_, ?_, hentries, ⟨hbusy, fun he => absurd (.inl he) hok⟩, fun f => ?_⟩
    · simpa only [State.owners, hw, Worker.buffer] using hbalanced
    · simpa only [State.flight, hw, Worker.unrecorded] using hflagged
    · refine Eq.trans ?_ (h.fences f)
      simp only [State.carried, hw, Worker.fence]

theorem Inv.finish_failed (h : Inv s) (hw : s.worker = .failed sub error) : Inv (finish s sub error) := by
  have hp := h.presenting
  rw [State.Presenting, hw] at hp
  unfold X11Window.finish
  rw [if_pos hp.2]
  refine ⟨?_, ?_, h.entries, rfl, fun f => ?_⟩
  · refine Balanced.release ((h.balanced.modify _ _).perm (perm_iff_count.mpr fun x => ?_))
    simp only [State.owners, hw, Worker.buffer, count_append, count_cons, count_nil]
    omega
  · refine (Flagged.free (h.flagged.perm (perm_iff_count.mpr fun x => ?_))).keeps (keeps_release _ _)
    simp only [State.flight, hw, Worker.unrecorded, count_append, count_cons, count_nil]
    omega
  · refine Eq.trans ?_ (h.fences f)
    simp only [State.carried, hw, Worker.fence]

/-- The redundant clearing: the buffer was freed by `present`, and nothing dequeued it since. -/
theorem Inv.finish_checked (h : Inv s) (hw : s.worker = .checked sub error) : Inv (finish s sub error) := by
  have hp := h.presenting
  rw [State.Presenting, hw] at hp
  have hbalanced : Balanced
      (if error ≠ 0 then modify s.buffers sub.buffer Buffer.free else s.buffers) s.owners := by
    split
    · exact h.balanced.modify _ _
    · exact h.balanced
  have hflagged : Flagged
      (if error ≠ 0 then modify s.buffers sub.buffer Buffer.free else s.buffers) s.flight := by
    split
    case isTrue he => exact h.flagged.clear (held_eq_false.mp (hp.2 he).2)
    case isFalse => exact h.flagged
  refine ⟨?_, ?_, h.entries, rfl, fun f => ?_⟩
  · refine Balanced.release (hbalanced.perm (perm_iff_count.mpr fun x => ?_))
    simp only [State.owners, X11Window.finish, hw, Worker.buffer, count_append, count_cons,
      count_nil]
    omega
  · refine (hflagged.perm (perm_iff_count.mpr fun x => ?_)).keeps (keeps_release _ _)
    simp only [State.flight, X11Window.finish, hw, Worker.unrecorded]
  · refine Eq.trans ?_ (h.fences f)
    simp only [State.carried, X11Window.finish, hw, Worker.fence]

/-- What is left of the buffers after `destroy` is the client's. -/
theorem Inv.destroyed (h : Inv s) (hw : s.worker = .exited) (hwork : s.work = []) :
    Balanced (destroyed s).buffers s.clients := by
  refine Balanced.releaseAll (h.dropPool.balanced.perm (perm_iff_count.mpr fun x => ?_))
  simp only [State.owners, X11Window.dropPool, hw, hwork, Worker.buffer, map_nil, count_append,
    count_nil]
  omega

/-! ## Runs -/

theorem Inv.step {a : Action} (h : Inv s) (ht : step s a = some t) : Inv t := by
  cases a with
  | server _ | dequeue _ | stop =>
    cases ht; exact ⟨h.balanced, h.flagged, h.entries, h.presenting, h.fences⟩
  | configure width height allocations =>
    obtain ⟨hfresh, ht⟩ := ite_none_right_eq_some.mp ht
    cases ht
    exact h.configure width height hfresh
  | acquire timeout elapsed broken =>
    obtain ⟨hc, ht⟩ := ite_none_right_eq_some.mp ht
    cases ht
    have hc' : .dequeuing timeout ∈ (X11Window.acquire s timeout elapsed broken).1.calls := by
      rwa [acquire_calls]
    refine (h.acquire timeout elapsed broken).resume hc' fun f => ?_
    split
    · rfl
    · rfl
  | polled timeout error =>
    obtain ⟨hc, ht⟩ := ite_none_right_eq_some.mp ht
    cases ht
    refine h.resume hc fun f => ?_
    split
    · rfl
    · rfl
  | queue a fence =>
    rw [X11Window.step] at ht
    split at ht
    case isTrue =>
      cases ht
      refine ⟨h.balanced, h.flagged, h.entries, h.presenting, fun f => ?_⟩
      have hf := h.fences f
      simp only [State.carried, flatMap_cons, Call.fence, toList_some, count_append,
        count_cons, count_nil, beq_iff_eq] at hf ⊢
      split
      all_goals
        split at hf
        all_goals split
        all_goals omega
    case isFalse => cases ht; exact ⟨h.balanced, h.flagged, h.entries, h.presenting, h.fences⟩
  | queueMemory _ _ | close _ =>
    obtain ⟨hc, ht⟩ := ite_none_right_eq_some.mp ht
    cases ht
    exact h.resume hc fun f => by simp [Call.fence, Nat.add_comm]
  | enqueue a fence =>
    obtain ⟨hc, ht⟩ := ite_none_right_eq_some.mp ht
    cases ht
    exact h.enqueue hc
  | cancel a signalled => cases ht; exact h.cancel a signalled
  | disconnect =>
    have hdraining : Inv { s with draining := true } :=
      ⟨h.balanced, h.flagged, h.entries, h.presenting, h.fences⟩
    rw [X11Window.step] at ht
    split at ht
    · cases ht
      exact ⟨h.balanced, h.flagged, h.entries, h.presenting, h.fences⟩
    · cases ht
      exact hdraining.disconnected
  | disconnected =>
    obtain ⟨⟨hc, -, -⟩, ht⟩ := ite_none_right_eq_some.mp ht
    cases ht
    have hc' : .disconnecting ∈ (X11Window.disconnected s).calls := by
      change .disconnecting ∈ (X11Window.drain s).calls
      rwa [drain_calls]
    exact h.disconnected.resume hc' fun f => rfl
  | incRef a =>
    obtain ⟨ha, ht⟩ := ite_none_right_eq_some.mp ht
    cases ht
    exact h.incRef ha
  | decRef a =>
    obtain ⟨ha, ht⟩ := ite_none_right_eq_some.mp ht
    cases ht
    exact h.decRef ha
  | take =>
    rw [X11Window.step] at ht
    split at ht
    case h_1 sub rest hw hwork => cases ht; exact h.take hw hwork
    case h_2 => cases ht
  | consume signalled =>
    rw [X11Window.step] at ht
    split at ht
    case h_1 sub hw => cases ht; exact h.consume hw signalled
    case h_2 => cases ht
  | giveUp failure =>
    rw [X11Window.step] at ht
    split at ht
    case h_1 sub hw =>
      obtain ⟨herror, ht⟩ := ite_none_right_eq_some.mp ht
      cases ht
      exact h.giveUp hw herror
    case h_2 => cases ht
  | record =>
    rw [X11Window.step] at ht
    split at ht
    case h_1 sub hw => exact h.record hw ht
    case h_2 => cases ht
  | answer rejected =>
    rw [X11Window.step] at ht
    split at ht
    case h_1 sub id hw => exact h.answered hw ht
    case h_2 => cases ht
  | finish =>
    rw [X11Window.step] at ht
    split at ht
    case h_1 sub error hw => cases ht; exact h.finish_failed hw
    case h_2 sub error hw => cases ht; exact h.finish_checked hw
    case h_3 => cases ht
  | exit =>
    obtain ⟨⟨hw, -, -⟩, ht⟩ := ite_none_right_eq_some.mp ht
    cases ht
    have hp := h.presenting
    rw [State.Presenting, hw] at hp
    exact h.advance (by rw [hw]; rfl) (by rw [hw]; rfl) hp fun f => by rw [hw]; rfl

theorem inv_run {actions : List Action} (h : Transition.run step .start actions = some s) : Inv s :=
  Transition.run_invariant (fun _ _ _ hs ht => hs.step ht) actions .start s .start h

/-- A pending entry stays, perhaps marked, unless the server's release of it is handled. -/
theorem pending_handle (s : State) (e : Event) (hp : p ∈ s.pending) :
    (∃ p' ∈ (s.handle e).pending, p'.buffer = p.buffer ∧ p'.serial = p.serial) ∨
      e = .bufferRelease p.serial := by
  cases e with
  | configureNotify => exact .inl ⟨p, hp, rfl, rfl⟩
  | bufferRelease serial =>
    rw [State.handle, State.release]
    split
    case h_1 => exact .inl ⟨p, hp, rfl, rfl⟩
    case h_2 q hlookup =>
      split
      case isTrue =>
        refine .inl ?_
        rcases modify_mem Pending.serial serial hp with hmem | hmem
        · exact ⟨p, hmem, rfl, rfl⟩
        · exact ⟨_, hmem, rfl, rfl⟩
      case isFalse =>
        rcases mem_cons.mp ((perm_remove Pending.serial hlookup).mem_iff.mp hp) with rfl | hp
        · exact .inr (by rw [key_of_lookup Pending.serial hlookup])
        · exact .inl ⟨p, hp, rfl, rfl⟩

theorem pending_drain (s : State) (hp : p ∈ s.pending) :
    (∃ p' ∈ (drain s).pending, p'.buffer = p.buffer) ∨ .bufferRelease p.serial ∈ s.events := by
  change (∃ p' ∈ (s.events.foldl State.handle s).pending, p'.buffer = p.buffer) ∨ _
  generalize s.events = events
  induction events generalizing s p with
  | nil => exact .inl ⟨p, hp, rfl⟩
  | cons e events ih =>
    rcases pending_handle s e hp with ⟨p', hp', hbuffer, hserial⟩ | rfl
    · rcases ih (s.handle e) hp' with ⟨p'', hp'', hbuffer'⟩ | hmem
      · exact .inl ⟨p'', hp'', hbuffer'.trans hbuffer⟩
      · exact .inr (mem_cons_of_mem e (hserial ▸ hmem))
    · exact .inr mem_cons_self

/-- No buffer is in two hands, no reference is lost, and no fence is forgotten or used twice. -/
structure Exclusive (s : State) : Prop where
  /-- a buffer that `dequeue` returns exists, and nobody has it -/
  dequeue : ∀ timeout elapsed broken a, (acquire s timeout elapsed broken).2 = .got a →
    ∃ o, s.buffers a = some o ∧ o.value.taken = false ∧ (∀ w ∈ s.work, w.buffer ≠ a) ∧
      a ∉ s.worker.presents ∧ ∀ p ∈ s.pending, p.buffer = a → .bufferRelease p.serial ∈ s.events
  references : ∀ a, match s.buffers a with
    | some o => o.refs = s.pool.count a + (s.work.map Submission.buffer).count a +
        s.worker.buffer.count a + (s.pending.map Pending.buffer).count a + s.clients.count a ∧ 0 < o.refs
    | none => s.pool.count a + (s.work.map Submission.buffer).count a + s.worker.buffer.count a +
        (s.pending.map Pending.buffer).count a + s.clients.count a = 0
  serials : (s.pending.map Pending.serial).Nodup ∧ ∀ p ∈ s.pending, p.serial ≠ 0
  fences : ∀ f < s.nextFence, s.consumed.count f + s.carried.count f = 1

theorem Inv.nobody (h : Inv s) {o : Object Buffer} (ho : s.buffers a = some o)
    (hheld : o.value.held = false) : o.value.taken = false ∧ a ∉ s.flight := by
  have hflags := h.flagged a o ho
  have hflight := hflags.flight
  rw [hflags.not_queued hheld] at hflight
  exact ⟨by rw [hflags.taken, hheld]; rfl, count_eq_zero.mp hflight⟩

theorem Inv.presents (h : Inv s) (ha : a ∈ s.worker.presents) : a ∈ s.flight := by
  have hp := h.presenting
  simp only [State.flight, mem_append]
  cases hw : s.worker with
  | checking sub id =>
    rw [State.Presenting, hw] at hp
    obtain ⟨-, p, hp, -, hbuffer, -⟩ := hp
    rw [hw] at ha
    rw [mem_singleton.mp ha, ← hbuffer]
    exact .inr (mem_map_of_mem hp)
  | _ => rw [hw] at ha; exact .inl (.inr ha)

theorem Inv.exclusive (h : Inv s) : Exclusive s where
  dequeue timeout elapsed broken a hgot := by
    obtain ⟨hd, hquiet⟩ := h.drain
    rcases acquire_cases s timeout elapsed broken with ⟨-, hnone⟩ | ⟨i, b, hpool, hheld, -, heq⟩
    · exact absurd hgot (hnone a)
    · rw [heq] at hgot
      cases hgot
      have hmem : a ∈ (X11Window.drain s).owners := by
        simp only [State.owners, mem_append, drain_pool]
        exact .inl (.inl (.inl (.inl hpool)))
      obtain ⟨o', ho'⟩ := hd.balanced.exists hmem
      obtain ⟨htaken', hflight⟩ := hd.nobody ho' (held_eq_false.mp hheld o' ho')
      obtain ⟨o, ho, htaken, -⟩ := hquiet a o' ho'
      refine ⟨o, ho, htaken ▸ htaken', fun w hw hbuffer => ?_, fun hpresents => ?_, fun p hp hbuffer => ?_⟩
      · refine hflight ?_
        simp only [State.flight, mem_append, drain_work]
        exact .inl (.inl (hbuffer ▸ mem_map_of_mem hw))
      · exact hflight (hd.presents (by rwa [drain_worker]))
      · rcases pending_drain s hp with ⟨p', hp', hbuffer'⟩ | hreleased
        · refine absurd ?_ hflight
          simp only [State.flight, mem_append]
          exact .inr (hbuffer ▸ hbuffer' ▸ mem_map_of_mem hp')
        · exact hreleased
  references a := by
    have hb := h.balanced a
    simp only [State.owners, count_append] at hb
    cases ho : s.buffers a with
    | none => rw [ho] at hb; exact hb
    | some o => rw [ho] at hb; exact ⟨hb.1, hb.1 ▸ hb.2⟩
  serials := ⟨h.entries.serials, fun p hp hzero => h.entries.nonzero (hzero ▸ mem_map_of_mem hp)⟩
  fences f hf := by rw [h.fences f, if_pos hf]

/-- In every state of every run. -/
theorem run_exclusive (actions : List Action) (s : State)
    (h : Transition.run step .start actions = some s) : Exclusive s :=
  (inv_run h).exclusive

/-- The server's release arrives before its answer, and the other buffer is dequeued meanwhile. -/
def earlyRelease : List Action :=
  [.configure 64 64 [some 10, some 11], .dequeue (-1), .acquire (-1) 0 false, .queue 10 true,
    .enqueue 10 (some 0), .take, .consume true, .record, .server (.bufferRelease 1), .dequeue (-1),
    .acquire (-1) 0 false, .answer false, .finish]

theorem run_exclusive_earlyRelease :
    ∃ s, Transition.run step .start earlyRelease = some s ∧ Exclusive s :=
  ⟨_, rfl, run_exclusive earlyRelease _ rfl⟩

end X11Window
