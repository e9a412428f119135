import Libhybris.WaylandWindowQueue

/-!
# Consistency of the Wayland window over whole runs

The remaining operations: the compositor's events arrive, the pool changes its size, a producer
disconnects, the window is destroyed. What the invariant needs of the calls is little:
`setBufferCount` may not remove buffers in use, `cancelBuffer` may not get a buffer whose pool is
gone, and the window may not be destroyed while a shown buffer's creation callback is awaited: the
wait can also bring the release of a buffer that was taken out of its list. Without that, runs end
in failed assertions.
-/
namespace WaylandWindow

open RefCount Transition List

/-! ## Arrivals -/

theorem append_singleton_split {α : Type} {l before after : List α} {e r : α}
    (h : l ++ [e] = before ++ r :: after) :
    (l = before ∧ e = r) ∨ ∃ after', l = before ++ r :: after' := by
  rcases eq_nil_or_concat after with rfl | ⟨after', x, rfl⟩
  · obtain ⟨hl, he⟩ := append_inj' h rfl
    exact .inl ⟨hl, (List.cons.inj he).1⟩
  · rw [concat_eq_append, ← cons_append, ← append_assoc] at h
    exact .inr ⟨after', (append_inj' h rfl).1⟩

variable {s : State} {b : Nat} {l : List Nat}

theorem arrive_good (h : Good s) {e : Event} (he : s.MayArrive e) : Good (arrive s e) := by
  obtain ⟨⟨hr, hf, hw⟩, hc⟩ := h
  have hout : s.outstanding.Perm (arrive s e).outstanding := by
    cases e with
    | release w =>
      change s.outstanding.Perm
        (s.committed.erase w ++ (s.events ++ [Event.release w]).filterMap Event.proxy)
      refine ((perm_cons_erase he.1).append_right _).trans ?_
      rw [filterMap_append, ← append_assoc]
      exact (perm_append_singleton w _).symm
    | created b =>
      change s.outstanding.Perm (s.committed ++ (s.events ++ [Event.created b]).filterMap Event.proxy)
      rw [filterMap_append, show [Event.created b].filterMap Event.proxy = [] from rfl, append_nil]
      rfl
    | frame callback =>
      change s.outstanding.Perm (s.committed ++ (s.events ++ [Event.frame callback]).filterMap Event.proxy)
      rw [filterMap_append, show [Event.frame callback].filterMap Event.proxy = [] from rfl,
        append_nil]
      rfl
  refine ⟨⟨⟨hr.pool, hr.fronted, hr.balanced, hr.accounts, hr.unborn, hr.held, hr.heldClients,
    hr.heldFronted⟩, ⟨hf.busy, hf.creating, hf.shown, hf.proxies, hf.unique, hf.owned⟩,
    ⟨hout.nodup_iff.mp hw.once, fun w hmem => hw.finds w (hout.mem_iff.mpr hmem),
      fun w hmem => hw.old w (hmem.imp hout.mem_iff.mpr id), ?_⟩⟩, hc⟩
  intro before after w hsplit b v hv hwl hcreating
  rcases append_singleton_split hsplit with ⟨rfl, rfl⟩ | ⟨after', heq⟩
  · -- the compositor answered the creation request first
    have hb := hf.creating b v hv hcreating
    refine he.2 b hb ?_ ?_
    · rw [wlbuffer_eq, show s.value b = some v from hv]
      exact hwl
    · rw [creating_eq, show s.value b = some v from hv]
      exact hcreating
  · exact hw.ordered before after' w heq b v hv hwl hcreating

/-! ## Changes of the pool's size -/

/-- How many buffers the loop of `setBufferCount` removes from its round `i` on. -/
def toRemove (length : Nat) (cnt i : Int) : Nat := ((length - cnt - i) / 2 + 1).toNat

theorem shrink_good {cnt i : Int} {fuel : Nat} (h : Good s)
    (hle : toRemove s.bufList.length cnt i ≤ s.bufList.length)
    (hidle : ∀ b ∈ s.bufList.take (toRemove s.bufList.length cnt i), s.idle b = true) :
    Fine Good (shrink cnt fuel i s) := by
  induction fuel generalizing s i with
  | zero => exact h
  | succ fuel ih =>
    rw [shrink]
    split
    case isFalse => exact h
    case isTrue hi =>
      have hpos : toRemove s.bufList.length cnt i = toRemove (s.bufList.length - 1) cnt
          (i + 1) + 1 ∧ 0 < s.bufList.length := by
        unfold toRemove at hle ⊢
        omega
      cases hl : s.bufList with
      | nil =>
        rw [hl] at hpos
        exact absurd hpos.2 (Nat.lt_irrefl 0)
      | cons b rest =>
        rw [hl, length_cons, Nat.add_sub_cancel] at hpos
        have hb : b ∈ s.bufList := by rw [hl]; exact mem_cons_self
        have hfree : s.idle b = true := by
          refine hidle b ?_
          rw [hl, length_cons, hpos.1]
          exact mem_cons_self
        obtain ⟨v, hv, -, -, hfronted, hcreating⟩ := h.1.idle_free hfree
        simp only
        rw [destroyBuffer_eq (h.1.refs.isAlive (.inl hb)) (.inl hcreating)]
        simp only
        have hnodup : (b :: rest).Nodup := hl ▸ h.1.refs.pool
        have hevict : ({ drop s b true with bufList := (drop s b true).bufList.tail } : State) =
            evict s b true := by
          rw [← drop_erase_eq h.1.refs hfronted, show (drop s b true).bufList = b :: rest from hl,
            tail_cons, erase_cons_head]
        rw [hevict]
        have hbufList : (evict s b true).bufList = rest := by
          change s.bufList.filter (· ≠ b) = rest
          rw [← erase_eq_filter_ne h.1.refs.pool, hl, erase_cons_head]
        refine ih ⟨h.1.evict (.inl hb) true, evict_counted h.1 h.2 hb hfree⟩ ?_ fun x hx => ?_
        · rw [hbufList]
          rw [hl, length_cons] at hle
          omega
        · rw [hbufList] at hx
          have hx' : x ∈ rest := mem_of_mem_take hx
          have hne : x ≠ b := fun heq => (nodup_cons.mp hnodup).1 (heq ▸ hx')
          rw [idle_eq, evict_value_of_ne true hne, ← idle_eq]
          refine hidle x ?_
          rw [hl, length_cons, hpos.1]
          exact mem_cons_of_mem b hx

theorem setBufferCount_good (h : Good s) {cnt : Int}
    (hsafe : s.bufList.length > cnt → toRemove s.bufList.length cnt 0 ≤ s.bufList.length ∧
      ∀ b ∈ s.bufList.take (toRemove s.bufList.length cnt 0), s.idle b = true) :
    Fine Good (setBufferCount s cnt) := by
  rw [setBufferCount]
  split
  case isTrue hgt =>
    obtain ⟨hle, hidle⟩ := hsafe hgt
    exact shrink_good h hle hidle
  case isFalse => exact addBuffers_good _ h

/-! ## Disconnection -/

/-- A shown buffer stays the window's when it leaves the pool. -/
theorem Inv.unpool {rest : List Nat} (h : Inv { s with bufList := b :: rest })
    (hb : b ∈ s.fronted) : Inv { s with bufList := rest } := by
  obtain ⟨hr, hf, hw⟩ := h
  have hpool : rest.Nodup := (nodup_cons.mp hr.pool).2
  have hcount : ∀ x, ({ s with bufList := rest } : State).windowRefs.count x =
      ({ s with bufList := b :: rest } : State).windowRefs.count x := by
    intro x
    rw [count_windowRefs hr.pool hr.fronted,
      count_windowRefs (s := { s with bufList := rest }) hpool hr.fronted]
    by_cases hx : x = b
    · subst hx
      simp [hb]
    · simp [hx]
  refine ⟨⟨hpool, hr.fronted, ?_, fun x => ?_, hr.unborn, hr.held, hr.heldClients, hr.heldFronted⟩,
    ⟨hf.busy, hf.creating, hf.shown, hf.proxies, hf.unique, fun x v w hv hwl => ?_⟩,
    ⟨hw.once, hw.finds, hw.old, hw.ordered⟩⟩
  · refine hr.balanced.perm (perm_iff_count.mpr fun x => ?_)
    rw [count_append, count_append, hcount]
  · rw [hcount]
    exact hr.accounts x
  · rcases hf.owned x v w hv hwl with hx | hx
    · rcases mem_cons.mp hx with rfl | hx
      · exact .inr hb
      · exact .inl hx
    · exact .inr hx

theorem filter_cons_ne {rest : List Nat} (h : (b :: rest).Nodup) : (b :: rest).filter (· ≠ b) = rest := by
  rw [← erase_eq_filter_ne h, erase_cons_head]

theorem retire_good (h : Inv { s with bufList := l }) :
    Fine (fun s' => Inv { s' with bufList := [] }) (retire l s) := by
  induction l generalizing s with
  | nil => exact h
  | cons b rest ih =>
    rw [retire]
    split
    case isTrue hb => exact ih (h.unpool hb)
    case isFalse hb =>
      obtain ⟨v, hv⟩ := h.refs.alive (.inl (mem_cons_self (l := rest) (a := b)))
      have hcreating : s.creating b = false := by
        rw [creating_eq, show s.value b = some v from hv]
        by_contra hne
        exact hb (h.fields.creating b v hv (by simpa using hne))
      have halive : s.alive b = true := by
        rw [alive_eq, show s.value b = some v from hv]
        rfl
      rw [destroyBuffer_eq halive (.inl hcreating)]
      refine ih (s := drop s b true) ?_
      have hevicted := h.evict (.inl mem_cons_self) true
      rw [evict, filter_cons_ne h.refs.pool] at hevicted
      simp only [filter_ne_of_not_mem hb] at hevicted
      exact hevicted

theorem apiDisconnect_good (h : Good s) : Fine Good (apiDisconnect s) := by
  rw [apiDisconnect]
  refine (dispatch_good h).elim (fun _ => Fine.stop) fun s' hgood => ?_
  simp only
  refine (retire_good (s := s') (l := s'.bufList) hgood.1.1).elim (fun _ => Fine.stop) fun t hinv => ?_
  exact ⟨hinv.other t.shape t.window t.broken none 0 t.coming, rfl⟩

/-! ## Destruction -/

/-- `destroyBuffer` does not wait for a shown buffer. -/
def Calm (s : State) (fronted : List Nat) : Prop :=
  s.broken = true ∨ ∀ b ∈ fronted, s.creating b = false

instance (s : State) (fronted : List Nat) : Decidable (Calm s fronted) :=
  inferInstanceAs (Decidable (_ ∨ _))

theorem drop_creating_of_ne (counted : Bool) {x : Nat} (hx : x ≠ b) :
    (drop s b counted).creating x = s.creating x := by
  rw [creating_eq, creating_eq]
  change ((values (release (modify s.buffers b Buffer.close) b) x).map _).getD false = _
  rw [values_release_of_ne hx, values_modify, if_neg hx]
  rfl

/-- A buffer of the lists `pool` and `fronted`, which are what is left of the window's, is destroyed
without a wait. -/
theorem destroyBuffer_calm (pool fronted : List Nat)
    (h : Inv { s with bufList := pool, fronted := fronted }) (hcalm : Calm s fronted)
    (hb : b ∈ pool ∨ b ∈ fronted) (counted : Bool) :
    destroyBuffer s b counted = .ok (drop s b counted) ∧
      Inv { drop s b counted with
        bufList := pool.filter (· ≠ b), fronted := fronted.filter (· ≠ b) } ∧
      Calm (drop s b counted) (fronted.filter (· ≠ b)) := by
  obtain ⟨v, hv⟩ := h.refs.alive (hb.imp id .inl)
  have hv' : s.value b = some v := hv
  have halive : s.alive b = true := by
    rw [alive_eq, hv']
    rfl
  have hwait : s.creating b = false ∨ s.broken = true := by
    by_contra hne
    obtain ⟨hcreating, hbroken⟩ := not_or.mp hne
    have hfronted : b ∈ fronted := by
      refine h.fields.creating b v hv ?_
      rw [creating_eq, hv'] at hcreating
      simpa using hcreating
    exact hcreating (hcalm.resolve_left hbroken b hfronted)
  refine ⟨destroyBuffer_eq halive hwait counted, h.evict hb counted, hcalm.imp id fun hnone x hx => ?_⟩
  obtain ⟨hx, hne⟩ := mem_filter_ne.mp hx
  rw [drop_creating_of_ne counted hne]
  exact hnone x hx

theorem destroyPool_good (h : Inv { s with bufList := l }) (hcalm : Calm s s.fronted) :
    Fine (fun s' => Inv { s' with bufList := [] } ∧ Calm s' s'.fronted) (destroyPool l s) := by
  induction l generalizing s with
  | nil => exact ⟨h, hcalm⟩
  | cons b rest ih =>
    obtain ⟨hdestroy, hinv, hcalm'⟩ := destroyBuffer_calm
      (s := { s with fronted := s.fronted.filter (· ≠ b) }) (b :: rest) s.fronted h hcalm
      (.inl mem_cons_self) true
    rw [destroyPool, hdestroy]
    rw [filter_cons_ne h.refs.pool] at hinv
    exact ih hinv hcalm'

theorem destroyFronted_good (h : Inv { s with bufList := [], fronted := l }) (hcalm : Calm s l)
    (hsub : l ⊆ s.fronted) :
    Fine (fun s' => Inv { s' with bufList := [], fronted := [] } ∧ s'.bufList = s.bufList)
      (destroyFronted l s) := by
  induction l generalizing s with
  | nil => exact ⟨h, rfl⟩
  | cons b rest ih =>
    obtain ⟨hdestroy, hinv, hcalm'⟩ := destroyBuffer_calm [] (b :: rest) h hcalm
      (.inr mem_cons_self) false
    have hb : b ∈ s.fronted := hsub mem_cons_self
    rw [filter_cons_ne h.refs.fronted] at hinv hcalm'
    rw [destroyFronted, if_pos hb, hdestroy]
    simp only
    rw [if_pos (show b ∈ (drop s b false).fronted from hb)]
    exact ih hinv hcalm' fun x hx => hsub (mem_cons_of_mem b hx)

theorem destroyBuffers_good (h : Good s) (hcalm : Calm s s.fronted) :
    Fine (fun s' => Good s' ∧ s'.windowRefs = []) (destroyBuffers s) := by
  rw [destroyBuffers]
  refine (destroyPool_good (s := s) (l := s.bufList) h.1 hcalm).elim (fun _ => Fine.stop)
    fun s' ⟨hinv, hcalm'⟩ => ?_
  simp only
  have hfronted := destroyFronted_good (s := { s' with bufList := [] })
    (l := s'.fronted) hinv hcalm' fun _ hx => hx
  refine hfronted.elim (fun _ => Fine.stop) fun t ⟨hinv', hempty⟩ => ?_
  have hempty' : t.bufList = [] := hempty
  have hinv'' : Inv { t with fronted := [] } := by
    rw [show ({ t with fronted := [] } : State) = { t with bufList := [], fronted := [] } by rw [← hempty']]
    exact hinv'
  refine ⟨⟨hinv''.other t.shape t.window t.broken t.frameCallback 0 t.coming, ?_⟩, ?_⟩
  · rw [hempty']
    rfl
  · rw [hempty']
    rfl

/-! ## Whole runs -/

/-- What the pool needs of the calls: `cancelBuffer` gets a buffer of the current pool,
`setBufferCount` removes buffers that are there and not in use, and the window is not destroyed
while the creation callback of a shown buffer is awaited. -/
def Careful (w : Window) : Action → Prop
  | .cancel b => b ∈ w.state.bufList
  | .setBufferCount cnt => w.state.bufList.length > cnt →
    toRemove w.state.bufList.length cnt 0 ≤ w.state.bufList.length ∧
      ∀ b ∈ w.state.bufList.take (toRemove w.state.bufList.length cnt 0), w.state.idle b = true
  | .destroy => Calm w.state w.state.fronted
  | _ => True

instance (w : Window) (a : Action) : Decidable (Careful w a) :=
  match a with
  | .cancel b => inferInstanceAs (Decidable (b ∈ _))
  | .setBufferCount cnt => inferInstanceAs (Decidable (_ > cnt → _))
  | .destroy => inferInstanceAs (Decidable (Calm _ _))
  | .arrive _ | .foresee _ | .breakDisplay | .dequeue | .queue _ _ | .reshape _ | .closeWindow
  | .disconnect | .incRef _ | .decRef _ => .isTrue trivial

/-- The pool is consistent: no assertion has failed, the counter counts the free buffers, shown
buffers exist, and each buffer has lost the references of the window it has had: the one of its pool
and one for each time it was queued without a pool. -/
structure Consistent (w : Window) : Prop where
  faultless : w.fault = none
  counted : w.state.freeBufs = w.state.bufList.countP w.state.idle
  shown : ∀ b ∈ w.state.fronted, w.state.alive b = true
  balanced : Balanced w.state.buffers (w.state.windowRefs ++ w.state.clients)
  dropped : ∀ b, w.state.drops.count b + w.state.windowRefs.count b =
    (if b < w.state.nextBuffer then 1 else 0) + w.state.requeues.count b
  destroyed : w.destroyed = true → ∀ b, w.state.drops.count b =
    (if b < w.state.nextBuffer then 1 else 0) + w.state.requeues.count b

theorem perform_good (h : Good s) {a : Action} (ha : Careful ⟨s, false, none⟩ a) :
    Fine Good (perform s a) := by
  cases a with
  | arrive e =>
    rw [perform]
    split
    case isTrue he => exact arrive_good h he
    case isFalse => trivial
  | foresee coming => exact h.other s.shape s.window s.broken s.frameCallback coming
  | breakDisplay => exact h.other s.shape s.window true s.frameCallback s.coming
  | dequeue => exact dequeueBuffer_good h
  | queue b signalled =>
    rw [perform]
    split
    case isTrue hb => exact queueBuffer_good h hb signalled
    case isFalse => trivial
  | cancel b =>
    rw [perform]
    split
    case isTrue hb => exact cancelBuffer_good h hb ha
    case isFalse => trivial
  | setBufferCount cnt => exact setBufferCount_good h ha
  | reshape shape => exact h.other shape s.window s.broken s.frameCallback s.coming
  | closeWindow => exact h.other s.shape false s.broken s.frameCallback s.coming
  | disconnect => exact apiDisconnect_good h
  | incRef b =>
    rw [perform]
    split
    case isTrue hb => exact h.incRef hb
    case isFalse => trivial
  | decRef b =>
    rw [perform]
    split
    case isTrue hb => exact h.decRef hb.1 hb.2
    case isFalse => trivial
  | destroy => exact (destroyBuffers_good h ha).mono fun _ h' => h'.1

/-- The invariant of runs. -/
def Sound (w : Window) : Prop :=
  w.fault = none ∧ Good w.state ∧ (w.destroyed = true → w.state.windowRefs = [])

theorem step_sound {w w' : Window} {a : Action} (h : Sound w) (ha : Careful w a)
    (hstep : step w a = some w') : Sound w' := by
  obtain ⟨hfault, hgood, -⟩ := h
  have hperform := perform_good hgood (a := a) ha
  rw [step] at hstep
  split at hstep
  case isTrue => cases hstep
  case isFalse =>
    split at hstep
    case h_1 t ht =>
      rw [ht] at hperform
      cases hstep
      refine ⟨rfl, hperform, fun hd => ?_⟩
      obtain rfl : a = .destroy := of_decide_eq_true hd
      have hdestroy := destroyBuffers_good hgood ha
      rw [show destroyBuffers w.state = .ok t from ht] at hdestroy
      exact hdestroy.2
    case h_2 f hf =>
      rw [hf] at hperform
      cases hperform
    case h_3 => cases hstep

theorem start_sound (shape : Shape) : Sound (Window.start shape) := by
  refine ⟨rfl, addBuffers_good 3 ⟨⟨?_, ?_, ?_⟩, rfl⟩, nofun⟩
  · exact ⟨nodup_nil, nodup_nil, balanced_empty, fun _ => rfl, fun _ _ => rfl, nodup_nil,
      forall_mem_nil _, forall_mem_nil _⟩
  · have hnone : ∀ v : Buffer, none ≠ some v := fun _ h => nomatch h
    exact ⟨fun _ v hv => absurd hv (hnone v), fun _ v hv => absurd hv (hnone v),
      forall_mem_nil _, fun _ v _ hv => absurd hv (hnone v),
      fun _ _ v _ _ hv => absurd hv (hnone v), fun _ v _ hv => absurd hv (hnone v)⟩
  · refine ⟨nodup_nil, forall_mem_nil _, fun w hw => ?_, fun before after w h => ?_⟩
    · exact absurd (hw.elim id id) not_mem_nil
    · exact absurd h.symm (by simp)

theorem Sound.consistent {w : Window} (h : Sound w) : Consistent w := by
  obtain ⟨hfault, ⟨hinv, hcounted⟩, hdestroyed⟩ := h
  refine ⟨hfault, hcounted, fun b hb => hinv.refs.isAlive (.inr (.inl hb)), hinv.refs.balanced,
    fun b => ?_, fun hd b => ?_⟩
  · exact (hinv.refs.accounts b).symm
  · have haccounts := hinv.refs.accounts b
    rw [hdestroyed hd] at haccounts
    exact haccounts.symm

/-- The pool stays consistent in every run of careful calls. -/
theorem run_consistent (shape : Shape) (actions : List Action) (w : Window)
    (hcareful : Along step Careful (Window.start shape) actions)
    (hrun : run step (Window.start shape) actions = some w) : Consistent w :=
  (run_invariant_along (fun _ _ _ h ha ht => step_sound h ha ht) actions _ w (start_sound shape)
    hcareful hrun).consistent

def sampleShape : Shape := ⟨64, 64, 1, 0⟩

/-- Two buffers are shown and one of them released; a new pool is smaller, and an old buffer is
queued after its pool. -/
def sampleUse : List Action :=
  [.dequeue, .queue 0 true, .arrive (.created 0), .arrive (.frame 1), .dequeue, .dequeue, .queue 1 true,
    .arrive (.created 1), .arrive (.release 0), .arrive (.frame 3), .disconnect, .setBufferCount 3,
    .setBufferCount 2, .queue 2 true, .arrive (.created 2), .dequeue, .cancel 4, .arrive (.release 2),
    .destroy]

theorem run_consistent_sampleUse :
    ∃ w, run step (Window.start sampleShape) sampleUse = some w ∧ w.destroyed = true ∧ Consistent w := by
  have hrun : (run step (Window.start sampleShape) sampleUse).map Window.destroyed = some true := by
    decide +kernel
  obtain ⟨w, hw, hdestroyed⟩ := Option.map_eq_some_iff.mp hrun
  exact ⟨w, hw, hdestroyed, run_consistent sampleShape sampleUse w (by decide +kernel) hw⟩

/-- The observation of a run from a new window. -/
def observe {β : Type} (f : Window → β) (actions : List Action) : Option β :=
  (run step (Window.start sampleShape) actions).map f

/-- Calls that are not careful break each part of the pool's consistency: a buffer is cancelled
after its pool is gone, a buffer in use is removed, a shown buffer is destroyed, the window is
destroyed and its wait for the creation of a buffer also brings the release, and more buffers are
removed than there are. -/
theorem pool_inconsistent :
    observe Window.fault [.dequeue, .disconnect, .cancel 0] = some (some .assertion) ∧
    observe (fun w => (w.state.freeBufs, w.state.bufList.countP w.state.idle))
      [.dequeue, .setBufferCount 1] = some (0, 1) ∧
    observe (fun w => (w.state.fronted, w.state.alive 0))
      [.dequeue, .queue 0 true, .foresee [[.created 0]], .setBufferCount 1, .decRef 0] =
        some ([0], false) ∧
    observe Window.fault
      [.dequeue, .queue 0 true, .foresee [[.created 0, .release 0]], .destroy] =
        some (some .assertion) ∧
    observe Window.fault [.setBufferCount (-3)] = some (some .pastEnd) := by
  decide +kernel

end WaylandWindow
