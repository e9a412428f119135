import Libhybris.WaylandWindowPool

/-!
# The producer's calls

Dequeue, queue and cancel keep the invariant of the Wayland window. A queued buffer of an earlier
pool brings its own reference: the one that `queueBuffer` takes for the call becomes the window's.
-/
namespace WaylandWindow

open RefCount List Option

/-! ## Dequeue -/

theorem value_addBuffer (s : State) (x : Nat) :
    (addBuffer s).value x =
      if x = s.nextBuffer then some ⟨none, false, false, false, s.shape⟩ else s.value x :=
  values_create s.buffers s.nextBuffer _ x

variable {s : State} {b : Nat}

theorem Refs.not_born (h : Refs s) :
    s.nextBuffer ∉ s.bufList ∧ s.nextBuffer ∉ s.fronted ∧ s.nextBuffer ∉ s.clients := by
  rw [← not_or, ← not_or]
  intro hm
  obtain ⟨v, hv⟩ := h.alive hm
  rw [h.unborn s.nextBuffer (Nat.le_refl _)] at hv
  cases hv

theorem Refs.addBuffer (h : Refs s) : Refs (addBuffer s) := by
  obtain ⟨hpool, hfronted, hclients⟩ := h.not_born
  have hnodup : (s.bufList ++ [s.nextBuffer]).Nodup :=
    nodup_append.mpr ⟨h.pool, nodup_singleton _, fun x hx y hy heq => by
      rw [mem_singleton.mp hy] at heq
      exact hpool (heq ▸ hx)⟩
  have hcount : ∀ x, (WaylandWindow.addBuffer s).windowRefs.count x =
      s.windowRefs.count x + if x = s.nextBuffer then 1 else 0 := by
    intro x
    rw [count_windowRefs h.pool h.fronted,
      count_windowRefs (s := WaylandWindow.addBuffer s) hnodup h.fronted]
    change (if x ∈ s.bufList ++ [s.nextBuffer] ∨ x ∈ s.fronted then 1 else 0) = _
    by_cases hx : x = s.nextBuffer
    · subst hx
      simp [hpool, hfronted]
    · simp [hx]
  refine ⟨hnodup, h.fronted, ?_, fun x => ?_, fun x hx => ?_, h.held, h.heldClients, h.heldFronted⟩
  · have hnone : s.buffers s.nextBuffer = none := map_eq_none_iff.mp (h.unborn s.nextBuffer (Nat.le_refl _))
    refine (h.balanced.create hnone _).perm (perm_iff_count.mpr fun x => ?_)
    rw [count_cons, count_append, count_append, hcount]
    change s.windowRefs.count x + s.clients.count x + _ = _ + s.clients.count x
    simp only [beq_iff_eq, eq_comm (a := s.nextBuffer)]
    omega
  · have haccounts := h.accounts x
    rw [hcount]
    change (if x < s.nextBuffer + 1 then 1 else 0) + s.requeues.count x = s.drops.count x + _
    by_cases hx : x = s.nextBuffer
    · subst hx
      simp at haccounts ⊢
      omega
    · have hlt : x < s.nextBuffer + 1 ↔ x < s.nextBuffer := by omega
      simp only [hlt, if_neg hx, Nat.add_zero]
      exact haccounts
  · have hx' : s.nextBuffer + 1 ≤ x := hx
    rw [value_addBuffer, if_neg (by omega)]
    exact h.unborn x (by omega)

theorem Fields.addBuffer (h : Fields s) (hr : Refs s) : Fields (addBuffer s) := by
  obtain ⟨hpool, hfronted, hclients⟩ := hr.not_born
  -- the new buffer is neither held nor shown, and has no proxy
  have hcases : ∀ x v, (WaylandWindow.addBuffer s).value x = some v →
      s.value x = some v ∨ (x = s.nextBuffer ∧ v.wlbuffer = none ∧ v.creating = false) := by
    intro x v hv
    rw [value_addBuffer] at hv
    split at hv
    case isTrue hx =>
      cases hv
      exact .inr ⟨hx, rfl, rfl⟩
    case isFalse => exact .inl hv
  refine ⟨fun x v hv hx => ?_, fun x v hv hc => ?_, fun x hx => ?_, fun x v w hv hw => ?_,
    fun x x' v v' w hv hv' hw hw' => ?_, fun x v w hv hw => ?_⟩
  · rcases hcases x v hv with hv | ⟨rfl, -, -⟩
    · exact h.busy x v hv hx
    · rcases hx with hx | hx
      · exact absurd (hr.heldClients _ hx) hclients
      · exact absurd hx hfronted
  · rcases hcases x v hv with hv | ⟨-, -, hnot⟩
    · exact h.creating x v hv hc
    · rw [hnot] at hc
      cases hc
  · obtain ⟨v, w, hv, hw⟩ := h.shown x hx
    refine ⟨v, w, ?_, hw⟩
    rw [value_addBuffer, if_neg (ne_of_mem_of_not_mem hx hfronted)]
    exact hv
  · rcases hcases x v hv with hv | ⟨-, hnot, -⟩
    · exact h.proxies x v w hv hw
    · rw [hnot] at hw
      cases hw
  · rcases hcases x v hv with hv | ⟨-, hnot, -⟩
    · rcases hcases x' v' hv' with hv' | ⟨-, hnot, -⟩
      · exact h.unique x x' v v' w hv hv' hw hw'
      · rw [hnot] at hw'
        cases hw'
    · rw [hnot] at hw
      cases hw
  · rcases hcases x v hv with hv | ⟨-, hnot, -⟩
    · exact (h.owned x v w hv hw).imp (fun hm => mem_append_left _ hm) id
    · rw [hnot] at hw
      cases hw

theorem addBuffer_good (h : Good s) : Good (addBuffer s) := by
  obtain ⟨⟨hr, hf, hw⟩, hc⟩ := h
  obtain ⟨hpool, hfronted, -⟩ := hr.not_born
  refine ⟨⟨hr.addBuffer, hf.addBuffer hr, ⟨hw.once, ?_, hw.old, ?_⟩⟩, ?_⟩
  · intro w hout hproxy
    obtain ⟨x, hx, v, hv, hwl⟩ := hw.finds w hout hproxy
    refine ⟨x, hx, v, ?_, hwl⟩
    rw [value_addBuffer, if_neg (ne_of_mem_of_not_mem hx hfronted)]
    exact hv
  · intro before after w hevents x v hv hwl hcreating
    rw [value_addBuffer] at hv
    split at hv
    case isTrue => cases hv; cases hwl
    case isFalse => exact hw.ordered before after w hevents x v hv hwl hcreating
  · have hothers : s.bufList.countP (addBuffer s).idle = s.bufList.countP s.idle :=
      countP_idle_congr fun x hx => by
        rw [value_addBuffer, if_neg (ne_of_mem_of_not_mem hx hpool)]
    have hnew : (addBuffer s).idle s.nextBuffer = true := by
      rw [idle_eq, value_addBuffer, if_pos rfl]
      rfl
    change s.freeBufs + 1 = ((s.bufList ++ [s.nextBuffer]).countP (addBuffer s).idle : Int)
    rw [countP_append, hothers, countP_singleton, if_pos hnew, hc]
    rfl

theorem addBuffers_good (n : Nat) (h : Good s) : Good (addBuffers n s) := by
  induction n generalizing s with
  | zero => exact h
  | succ n ih => exact ih (addBuffer_good h)

/-- A free buffer is neither held nor shown. -/
theorem Inv.idle_free (h : Inv s) (hidle : s.idle b = true) :
    ∃ v, s.value b = some v ∧ v.busy = false ∧ b ∉ s.held ∧ b ∉ s.fronted ∧ s.creating b = false := by
  rw [idle_eq] at hidle
  cases hv : s.value b with
  | none =>
    rw [hv] at hidle
    cases hidle
  | some v =>
    rw [hv] at hidle
    have hbusy : v.busy = false := by simpa using hidle
    have hnot : ¬(b ∈ s.held ∨ b ∈ s.fronted) := fun hm => by
      rw [h.fields.busy b v hv hm] at hbusy
      cases hbusy
    refine ⟨v, rfl, hbusy, fun hm => hnot (.inl hm), fun hm => hnot (.inr hm), ?_⟩
    rw [creating_eq, hv]
    by_contra hc
    exact hnot (.inr (h.fields.creating b v hv (by simpa using hc)))

theorem give_good (h : Good s) (hb : b ∈ s.bufList) (hidle : s.idle b = true) : Good (give s b) := by
  obtain ⟨hinv, hc⟩ := h
  obtain ⟨v, hv, hbusy, hheld, hfronted, -⟩ := hinv.idle_free hidle
  obtain ⟨hr, hf, hw⟩ := hinv
  have hvalue : ∀ x, (give s b).value x = if x = b then (s.value b).map Buffer.used else s.value x := by
    intro x
    change values (retain (modify s.buffers b Buffer.used) b) x = _
    rw [values_retain, values_modify]
    rfl
  have halike : Alike s (give s b) := by
    refine ⟨fun x v' hv' => ?_, fun x _ hsome => ?_⟩
    · rw [hvalue] at hv'
      split at hv'
      case isTrue hx =>
        obtain ⟨u, hu, rfl⟩ := map_eq_some_iff.mp hv'
        exact ⟨u, hx ▸ hu, rfl, id⟩
      case isFalse => exact ⟨v', hv', rfl, id⟩
    · rw [hvalue]
      split
      case isTrue hx => rw [isSome_map, ← hx]; exact hsome
      case isFalse => exact hsome
  refine ⟨⟨⟨hr.pool, hr.fronted, ?_, hr.accounts, fun x hx => ?_, nodup_cons.mpr ⟨hheld, hr.held⟩,
    fun x hx => ?_, fun x hx => ?_⟩,
      hf.alike halike (fun _ => id) (fun _ => .inl) rfl rfl fun x v' hv' hx => ?_,
    hw.alike halike rfl rfl rfl rfl rfl⟩, ?_⟩
  · have hmem : b ∈ s.windowRefs ++ s.clients := mem_append_left _ (mem_windowRefs.mpr (.inl hb))
    refine ((hr.balanced.modify b Buffer.used).retain hmem).perm ?_
    exact perm_middle.symm
  · rw [hvalue, if_neg, hr.unborn x hx]
    rintro rfl
    rw [hr.unborn x hx] at hv
    cases hv
  · rcases mem_cons.mp hx with rfl | hx
    · exact mem_cons_self
    · exact mem_cons_of_mem b (hr.heldClients x hx)
  · rcases mem_cons.mp hx with rfl | hx
    · exact hfronted
    · exact hr.heldFronted x hx
  · rw [hvalue] at hv'
    split at hv'
    case isTrue =>
      obtain ⟨u, hu, rfl⟩ := map_eq_some_iff.mp hv'
      rfl
    case isFalse hne =>
      refine hf.busy x v' hv' (hx.imp (fun hm => ?_) id)
      exact (mem_cons.mp hm).resolve_left hne
  · have hothers : (s.bufList.filter (· ≠ b)).countP (give s b).idle =
        (s.bufList.filter (· ≠ b)).countP s.idle :=
      countP_idle_congr fun x hx => by rw [hvalue, if_neg (mem_filter_ne.mp hx).2]
    have hused : (give s b).idle b = false := by
      rw [idle_eq, hvalue, if_pos rfl, hv]
      rfl
    have hsplit := countP_split (p := s.idle) hr.pool hb
    have hsplit' := countP_split (p := (give s b).idle) hr.pool hb
    rw [if_pos hidle] at hsplit
    rw [hused, if_neg Bool.false_ne_true] at hsplit'
    change s.freeBufs - 1 = (s.bufList.countP (give s b).idle : Int)
    rw [hc]
    omega

theorem scan_spec {p : Buffer → Bool} {l : List Nat} (halive : ∀ b ∈ l, s.alive b = true) :
    scan s p l = .ok none ∨ ∃ b ∈ l, ∃ v, scan s p l = .ok (some b) ∧ s.value b = some v ∧ p v = true := by
  induction l with
  | nil => exact .inl rfl
  | cons b l ih =>
    obtain ⟨o, ho⟩ := isSome_iff_exists.mp (halive b mem_cons_self)
    have hrest := ih fun x hx => halive x (mem_cons_of_mem b hx)
    rw [scan, ho]
    by_cases hp : p o.value = true
    · refine .inr ⟨b, mem_cons_self, o.value, by simp [hp], ?_, hp⟩
      rw [State.value, values, ho]
      rfl
    · simp only [hp]
      refine hrest.imp id ?_
      rintro ⟨x, hx, v, h⟩
      exact ⟨x, mem_cons_of_mem b hx, v, h⟩

/-- A buffer that is picked is a free one of the pool. -/
theorem pick_spec (h : Refs s) :
    pick s = .ok none ∨ ∃ b ∈ s.bufList, pick s = .ok (some b) ∧ s.idle b = true := by
  have halive : ∀ b ∈ s.bufList, s.alive b = true := fun b hb => h.isAlive (.inl hb)
  have hidle : ∀ b v, s.value b = some v → v.busy = false → s.idle b = true := by
    intro b v hv hbusy
    rw [idle_eq, hv]
    simp [hbusy]
  rw [pick]
  rcases scan_spec (p := fun b => !b.busy && !b.youngest) halive with hnone | ⟨b, hb, v, hscan, hv, hp⟩
  · rw [hnone]
    rcases scan_spec (p := fun b => !b.busy) halive with hnone' | ⟨b, hb, v, hscan, hv, hp⟩
    · exact .inl hnone'
    · exact .inr ⟨b, hb, hscan, hidle b v hv (by simpa using hp)⟩
  · rw [hscan]
    simp only [Bool.and_eq_true, Bool.not_eq_true'] at hp
    exact .inr ⟨b, hb, rfl, hidle b v hv hp.1⟩

/-- A buffer that nothing is awaited for is destroyed at once. -/
theorem destroyBuffer_eq (halive : s.alive b = true) (hcreating : s.creating b = false ∨
    s.broken = true) (counted : Bool) : destroyBuffer s b counted = .ok (drop s b counted) := by
  unfold destroyBuffer awaitCreation
  rw [if_neg (by rw [halive]; decide), if_pos hcreating]

theorem drop_erase_eq (h : Refs s) (hb : b ∉ s.fronted) (counted : Bool) :
    ({ drop s b counted with bufList := (drop s b counted).bufList.erase b } : State) =
      evict s b counted := by
  rw [evict, filter_ne_of_not_mem hb, show (drop s b counted).bufList = s.bufList from rfl,
    erase_eq_filter_ne h.pool]

theorem reallocate_good (h : Good s) (hb : b ∈ s.bufList) (hidle : s.idle b = true) :
    Fine (fun r => Good (give r.1 r.2)) (reallocate s b) := by
  rw [reallocate]
  split
  case isTrue => exact give_good h hb hidle
  case isFalse =>
    obtain ⟨v, hv, -, -, hfronted, hcreating⟩ := h.1.idle_free hidle
    have hevicted : Good (evict s b true) := ⟨h.1.evict (.inl hb) true, evict_counted h.1 h.2 hb hidle⟩
    rw [destroyBuffer_eq (h.1.refs.isAlive (.inl hb)) (.inl hcreating)]
    simp only [drop_erase_eq h.1.refs hfronted]
    refine give_good (addBuffer_good hevicted) (mem_append_right _ (mem_singleton_self _)) ?_
    rw [idle_eq, value_addBuffer,
      if_pos (show (drop s b true).nextBuffer = (evict s b true).nextBuffer from rfl)]
    rfl

theorem dequeueBuffer_good (h : Good s) : Fine Good (dequeueBuffer s) := by
  rw [dequeueBuffer]
  refine (dispatch_good h).elim (fun _ => Fine.stop) fun s' ⟨hgood, _⟩ => ?_
  simp only
  split
  case isTrue => exact hgood
  case isFalse =>
    rcases pick_spec hgood.1.refs with hnone | ⟨b, hb, hpick, hidle⟩
    · rw [hnone]
      exact hgood
    · rw [hpick]
      simp only
      exact (reallocate_good hgood hb hidle).elim (fun _ => Fine.stop) fun _ h => h

/-! ## Queue and cancel -/

/-- What a commit does to the buffer: it has a proxy then, perhaps a new one. -/
theorem commit_spec {v : Buffer} (hv : s.value b = some v) :
    ∃ v' w, (commit s b).value b = some v' ∧ v'.wlbuffer = some w ∧ v'.busy = v.busy ∧
      (commit s b).committed = w :: s.committed ∧ s.nextObject ≤ (commit s b).nextObject ∧
      ((v' = v ∧ (commit s b).proxies = s.proxies) ∨
        (v.wlbuffer = none ∧ w = s.nextObject ∧ w < (commit s b).nextObject ∧
          (commit s b).proxies = w :: s.proxies)) := by
  have hwl : s.wlbuffer b = v.wlbuffer := by
    rw [wlbuffer_eq, hv]
    rfl
  cases hw : v.wlbuffer with
  | some w =>
    rw [hw] at hwl
    have hconnect : connect s b = s := by rw [connect, hwl]
    refine ⟨v, w, ?_, hw, rfl, ?_, ?_, .inl ⟨rfl, ?_⟩⟩
    · change (connect s b).value b = some v
      rw [hconnect, hv]
    · change ((connect s b).wlbuffer b).toList ++ (connect s b).committed = _
      rw [hconnect, hwl]
      rfl
    · change s.nextObject ≤ (connect s b).nextObject + 1
      rw [hconnect]
      omega
    · change (connect s b).proxies = _
      rw [hconnect]
  | none =>
    rw [hw] at hwl
    have hconnect : connect s b = { s with
        buffers := modify s.buffers b fun o => o.connect s.nextObject
        proxies := s.nextObject :: s.proxies
        nextObject := s.nextObject + 1 } := by rw [connect, hwl]
    have hvalue : (connect s b).value b = some (v.connect s.nextObject) := by
      rw [hconnect]
      change values (modify s.buffers b fun o => o.connect s.nextObject) b = _
      rw [values_modify, if_pos rfl, show values s.buffers b = some v from hv]
      rfl
    refine ⟨v.connect s.nextObject, s.nextObject, hvalue, rfl, rfl, ?_, ?_, .inr ⟨rfl, rfl, ?_, ?_⟩⟩
    · change ((connect s b).wlbuffer b).toList ++ (connect s b).committed = _
      rw [wlbuffer_eq, hvalue, hconnect]
      rfl
    · change s.nextObject ≤ (connect s b).nextObject + 1
      rw [hconnect]
      change s.nextObject ≤ s.nextObject + 1 + 1
      omega
    · change s.nextObject < (connect s b).nextObject + 1
      rw [hconnect]
      change s.nextObject < s.nextObject + 1 + 1
      omega
    · change (connect s b).proxies = _
      rw [hconnect]

theorem commit_value_of_ne {x : Nat} (hx : x ≠ b) : (commit s b).value x = s.value x := by
  change (connect s b).value x = s.value x
  rw [connect]
  split
  · rfl
  · change values (modify s.buffers b fun o => o.connect s.nextObject) x = values s.buffers x
    rw [values_modify, if_neg hx]

/-- The other fields of a commit. -/
theorem commit_frame (s : State) (b : Nat) :
    ∃ buffers proxies committed frameCallback nextObject, commit s b = { s with
      buffers := buffers, proxies := proxies, committed := committed, frameCallback := frameCallback
      nextObject := nextObject, fronted := s.fronted ++ [b] } := by
  rw [commit, connect]
  split
  · exact ⟨_, _, _, _, _, rfl⟩
  · exact ⟨_, _, _, _, _, rfl⟩

section Commit

variable {v : Buffer}

theorem Fields.commit (h : Fields s) (hrel : Releases s) (hv : s.value b = some v)
    (hbusy : v.busy = true) : Fields (commit s b) := by
  obtain ⟨v', w, hv', hw, hbusy', -, -, hcase⟩ := commit_spec hv
  obtain ⟨_, _, _, _, _, hframe⟩ := commit_frame s b
  have hfronted : (WaylandWindow.commit s b).fronted = s.fronted ++ [b] := by rw [hframe]
  have hpool : (WaylandWindow.commit s b).bufList = s.bufList := by rw [hframe]
  have hheld : (WaylandWindow.commit s b).held = s.held := by rw [hframe]
  -- every buffer is the committed one, or as before
  have hcases : ∀ x u, (WaylandWindow.commit s b).value x = some u →
      (x = b ∧ u = v') ∨ (x ≠ b ∧ s.value x = some u) := by
    intro x u hu
    by_cases hx : x = b
    · subst hx
      rw [hv'] at hu
      exact .inl ⟨rfl, (Option.some.inj hu).symm⟩
    · rw [commit_value_of_ne hx] at hu
      exact .inr ⟨hx, hu⟩
  have hsub : ∀ w', w' ∈ s.proxies → w' ∈ (WaylandWindow.commit s b).proxies := by
    intro w' hw'
    rcases hcase with ⟨-, heq⟩ | ⟨-, -, -, heq⟩
    · rwa [heq]
    · rw [heq]
      exact mem_cons_of_mem w hw'
  have hmine : w ∈ (WaylandWindow.commit s b).proxies := by
    rcases hcase with ⟨rfl, heq⟩ | ⟨-, -, -, heq⟩
    · exact hsub w (h.proxies b v' w hv hw)
    · rw [heq]
      exact mem_cons_self
  -- nobody else has the proxy
  have halone : ∀ x u, x ≠ b → s.value x = some u → u.wlbuffer ≠ some w := by
    intro x u hx hu huw
    rcases hcase with ⟨rfl, -⟩ | ⟨-, rfl, -, -⟩
    · exact hx (h.unique x b u v' w hu hv huw hw)
    · exact Nat.lt_irrefl _ (hrel.old s.nextObject (.inr (h.proxies x u _ hu huw)))
  refine ⟨fun x u hu hx => ?_, fun x u hu hc => ?_, fun x hx => ?_, fun x u w' hu huw => ?_,
    fun x x' u u' w' hu hu' huw huw' => ?_, fun x u w' hu huw => ?_⟩
  · rcases hcases x u hu with ⟨-, rfl⟩ | ⟨hne, hu⟩
    · exact hbusy'.trans hbusy
    · refine h.busy x u hu (hx.imp (fun hm => hheld ▸ hm) fun hm => ?_)
      rw [hfronted, mem_append, mem_singleton] at hm
      exact hm.resolve_right hne
  · rw [hfronted, mem_append, mem_singleton]
    rcases hcases x u hu with ⟨rfl, -⟩ | ⟨-, hu⟩
    · exact .inr rfl
    · exact .inl (h.creating x u hu hc)
  · rw [hfronted, mem_append, mem_singleton] at hx
    by_cases hxb : x = b
    · exact ⟨v', w, hxb ▸ hv', hw⟩
    · obtain ⟨u, w', hu, huw⟩ := h.shown x (hx.resolve_right hxb)
      exact ⟨u, w', by rw [commit_value_of_ne hxb]; exact hu, huw⟩
  · rcases hcases x u hu with ⟨-, rfl⟩ | ⟨-, hu⟩
    · rw [hw] at huw
      cases huw
      exact hmine
    · exact hsub w' (h.proxies x u w' hu huw)
  · rcases hcases x u hu with ⟨rfl, rfl⟩ | ⟨hne, hu⟩
    · rcases hcases x' u' hu' with ⟨rfl, -⟩ | ⟨hne', hu'⟩
      · rfl
      · rw [hw] at huw
        cases huw
        exact absurd huw' (halone x' u' hne' hu')
    · rcases hcases x' u' hu' with ⟨hx', rfl⟩ | ⟨-, hu'⟩
      · rw [hw] at huw'
        cases huw'
        exact absurd huw (halone x u hne hu)
      · exact h.unique x x' u u' w' hu hu' huw huw'
  · rw [hpool, hfronted, mem_append, mem_singleton]
    rcases hcases x u hu with ⟨rfl, -⟩ | ⟨-, hu⟩
    · exact .inr (.inr rfl)
    · exact (h.owned x u w' hu huw).imp id .inl

theorem Releases.commit (h : Releases s) (hf : Fields s) (hv : s.value b = some v)
    (hb : b ∉ s.fronted) : Releases (commit s b) := by
  obtain ⟨v', w, hv', hw, -, hcommitted, hnext, hcase⟩ := commit_spec hv
  obtain ⟨_, _, _, _, _, hframe⟩ := commit_frame s b
  have hfronted : (WaylandWindow.commit s b).fronted = s.fronted ++ [b] := by rw [hframe]
  have hevents : (WaylandWindow.commit s b).events = s.events := by rw [hframe]
  have hout : (WaylandWindow.commit s b).outstanding = w :: s.outstanding := by
    rw [State.outstanding, hcommitted, hevents]
    rfl
  -- no release of the proxy is outstanding, because its buffer is not shown
  have hnot : w ∉ s.outstanding := by
    intro hmem
    rcases hcase with ⟨rfl, -⟩ | ⟨-, rfl, -, -⟩
    · obtain ⟨x, hx, u, hu, huw⟩ := h.finds w hmem (hf.proxies b v' w hv hw)
      exact hb (hf.unique x b u v' w hu hv huw hw ▸ hx)
    · exact Nat.lt_irrefl _ (h.old _ (.inl hmem))
  refine ⟨?_, fun w' hw' hproxy => ?_, fun w' hw' => ?_, ?_⟩
  · rw [hout]
    exact nodup_cons.mpr ⟨hnot, h.once⟩
  · rw [hfronted]
    by_cases heq : w' = w
    · subst heq
      exact ⟨b, mem_append_right _ (mem_singleton_self b), v', hv', hw⟩
    · rw [hout] at hw'
      have hmem : w' ∈ s.outstanding := (mem_cons.mp hw').resolve_left heq
      have hproxy' : w' ∈ s.proxies := by
        rcases hcase with ⟨-, hproxies⟩ | ⟨-, -, -, hproxies⟩
        · rwa [hproxies] at hproxy
        · rw [hproxies] at hproxy
          exact (mem_cons.mp hproxy).resolve_left heq
      obtain ⟨x, hx, u, hu, huw⟩ := h.finds w' hmem hproxy'
      have hxb : x ≠ b := ne_of_mem_of_not_mem hx hb
      exact ⟨x, mem_append_left _ hx, u, by rw [commit_value_of_ne hxb]; exact hu, huw⟩
  · rw [hout] at hw'
    have hwlt : w < (WaylandWindow.commit s b).nextObject := by
      rcases hcase with ⟨rfl, -⟩ | ⟨-, -, hlt, -⟩
      · exact Nat.lt_of_lt_of_le (h.old w (.inr (hf.proxies b v' w hv hw))) hnext
      · exact hlt
    rcases hw' with hw' | hw'
    · rcases mem_cons.mp hw' with rfl | hw'
      · exact hwlt
      · exact Nat.lt_of_lt_of_le (h.old w' (.inl hw')) hnext
    · rcases hcase with ⟨-, hproxies⟩ | ⟨-, -, -, hproxies⟩
      · exact Nat.lt_of_lt_of_le (h.old w' (.inr (hproxies ▸ hw'))) hnext
      · rw [hproxies] at hw'
        rcases mem_cons.mp hw' with rfl | hw'
        · exact hwlt
        · exact Nat.lt_of_lt_of_le (h.old w' (.inr hw')) hnext
  · intro before after w' hsplit x u hu huw hc
    rw [hevents] at hsplit
    by_cases hx : x = b
    · subst hx
      rw [hv'] at hu
      cases hu
      rw [hw] at huw
      cases huw
      refine absurd ?_ hnot
      rw [State.outstanding, hsplit]
      simp [Event.proxy]
    · rw [commit_value_of_ne hx] at hu
      exact h.ordered before after w' hsplit x u hu huw hc

theorem commit_buffers (s : State) (b : Nat) {owners : List Nat} (h : Balanced s.buffers owners) :
    Balanced (commit s b).buffers owners := by
  change Balanced (connect s b).buffers owners
  rw [connect]
  split
  · exact h
  · exact h.modify b fun o => o.connect s.nextObject

theorem commit_idle (hv : s.value b = some v) (x : Nat) : (commit s b).idle x = s.idle x := by
  rw [idle_eq, idle_eq]
  by_cases hx : x = b
  · subst hx
    obtain ⟨v', w, hv', -, hbusy, -⟩ := commit_spec hv
    rw [hv', hv, map_some, map_some, hbusy]
  · rw [commit_value_of_ne hx]

/-- A held buffer is shown, and is not held any more. Its reference is the pool's, or if the pool is
gone, the call's. -/
theorem commit_good (h : Good s) (hb : b ∈ s.held) (clients requeues : List Nat)
    (hrefs : ∀ x, clients.count x + (if x = b ∧ b ∉ s.bufList then 1 else 0) = s.clients.count x)
    (hrequeues : ∀ x, requeues.count x =
      s.requeues.count x + if x = b ∧ b ∉ s.bufList then 1 else 0)
    (hclients : ∀ x ∈ s.held, x ≠ b → x ∈ clients) :
    Good { commit s b with held := s.held.erase b, clients := clients, requeues := requeues } := by
  obtain ⟨⟨hr, hf, hw⟩, hc⟩ := h
  obtain ⟨v, hv⟩ := hr.alive (.inr (.inr (hr.heldClients b hb)))
  have hbusy := hf.busy b v hv (.inl hb)
  have hnot := hr.heldFronted b hb
  have hf' := hf.commit hw hv hbusy
  have hw' := hw.commit hf hv hnot
  obtain ⟨_, _, _, _, _, hframe⟩ := commit_frame s b
  have hfronted : (commit s b).fronted = s.fronted ++ [b] := by rw [hframe]
  have hpool : (commit s b).bufList = s.bufList := by rw [hframe]
  have hdrops : (commit s b).drops = s.drops := by rw [hframe]
  have hheld : (commit s b).held = s.held := by rw [hframe]
  have hnext : (commit s b).nextBuffer = s.nextBuffer := by rw [hframe]
  have hnodup : (commit s b).fronted.Nodup := by
    rw [hfronted]
    refine nodup_append.mpr ⟨hr.fronted, nodup_singleton b, fun x hx y hy heq => ?_⟩
    rw [mem_singleton.mp hy] at heq
    exact hnot (heq ▸ hx)
  have hcount : ∀ x, (commit s b).windowRefs.count x =
      s.windowRefs.count x + if x = b ∧ b ∉ s.bufList then 1 else 0 := by
    intro x
    rw [count_windowRefs hr.pool hr.fronted,
      count_windowRefs (s := commit s b) (by rw [hpool]; exact hr.pool) hnodup, hpool, hfronted]
    by_cases hx : x = b
    · subst hx
      by_cases hmem : x ∈ s.bufList
      · simp [hmem]
      · simp [hmem, hnot]
    · simp [hx]
  refine ⟨⟨⟨hpool ▸ hr.pool, hnodup, ?_, fun x => ?_, fun x hx => ?_, hr.held.erase b, fun x hx => ?_,
    fun x hx => ?_⟩, ⟨fun x u hu hx => ?_, hf'.creating, hf'.shown, hf'.proxies, hf'.unique, hf'.owned⟩,
    ⟨hw'.once, hw'.finds, hw'.old, hw'.ordered⟩⟩, ?_⟩
  · refine (commit_buffers s b hr.balanced).perm (perm_iff_count.mpr fun x => ?_)
    change _ = ((commit s b).windowRefs ++ clients).count x
    rw [count_append, count_append, hcount, ← hrefs x]
    omega
  · have haccounts := hr.accounts x
    change (if x < (commit s b).nextBuffer then 1 else 0) + requeues.count x =
      (commit s b).drops.count x + (commit s b).windowRefs.count x
    rw [hcount, hdrops, hnext, hrequeues]
    omega
  · have hne : x ≠ b := by
      rintro rfl
      have hx' : s.nextBuffer ≤ x := hnext ▸ hx
      rw [hr.unborn x hx'] at hv
      cases hv
    change (commit s b).value x = none
    rw [commit_value_of_ne hne]
    exact hr.unborn x (hnext ▸ hx)
  · refine hclients x (mem_of_mem_erase hx) ?_
    rintro rfl
    exact hr.held.not_mem_erase hx
  · rw [hfronted, mem_append, mem_singleton]
    rintro (hm | rfl)
    · exact hr.heldFronted x (mem_of_mem_erase hx) hm
    · exact hr.held.not_mem_erase hx
  · exact hf'.busy x u hu (hx.imp (fun hm => hheld ▸ mem_of_mem_erase hm) id)
  · have hfree : (commit s b).freeBufs = s.freeBufs := by rw [hframe]
    change (commit s b).freeBufs = ((commit s b).bufList.countP (commit s b).idle : Int)
    rw [hfree, hpool, funext (commit_idle hv)]
    exact hc

end Commit

/-- `presentBuffer` commits the buffer after the events, or leaves it. -/
def Presented (s : State) (b : Nat) : State × Bool → Prop
  | (t, true) => ∃ s', Good s' ∧ Handled s s' ∧ t = commit s' b
  | (t, false) => Good t ∧ Handled s t

theorem presentBuffer_spec (h : Good s) (hb : b ∈ s.held) : Fine (Presented s b) (presentBuffer s b) := by
  rw [presentBuffer]
  split
  case isTrue => exact ⟨h, Handled.refl s⟩
  case isFalse =>
    refine (dispatch_good h).elim (fun _ => Fine.stop) fun s' ⟨hgood, hhandled⟩ => ?_
    simp only
    split
    case isTrue => exact ⟨hgood, hhandled⟩
    case isFalse =>
      split
      case isTrue => trivial
      case isFalse =>
        have hb' : b ∈ s'.held := hhandled.held ▸ hb
        obtain ⟨v, hv⟩ := hgood.1.refs.alive (.inr (.inr (hgood.1.refs.heldClients b hb')))
        obtain ⟨o, ho, rfl⟩ := map_eq_some_iff.mp hv
        rw [ho]
        simp only
        rw [if_pos (hgood.1.fields.busy b o.value hv (.inl hb'))]
        exact ⟨s', hgood, hhandled, rfl⟩

theorem Good.incRef (h : Good s) (hb : b ∈ s.clients) :
    Good { s with buffers := retain s.buffers b, clients := b :: s.clients } := by
  obtain ⟨⟨hr, hf, hw⟩, hc⟩ := h
  have hvalue : ∀ x, ({ s with
      buffers := retain s.buffers b, clients := b :: s.clients } : State).value x = s.value x := fun x => congrFun (values_retain s.buffers b) x
  have halike : Alike s { s with buffers := retain s.buffers b, clients := b :: s.clients } :=
    ⟨fun x v' hv' => ⟨v', (hvalue x).symm.trans hv', rfl, id⟩, fun x _ hsome => (hvalue x).symm ▸ hsome⟩
  refine ⟨⟨⟨hr.pool, hr.fronted, ?_, hr.accounts, fun x hx => (hvalue x).trans (hr.unborn x hx),
    hr.held, fun x hx => mem_cons_of_mem b (hr.heldClients x hx), hr.heldFronted⟩,
    hf.alike halike (fun _ => id) (fun _ => .inl) rfl rfl fun x v hv hx =>
    hf.busy x v ((hvalue x).symm.trans hv) hx,
    hw.alike halike rfl rfl rfl rfl rfl⟩, ?_⟩
  · exact (hr.balanced.retain (mem_append_right _ hb)).perm perm_middle.symm
  · change s.freeBufs = (s.bufList.countP _ : Int)
    rw [countP_idle_congr (s := s) fun x _ => hvalue x]
    exact hc

theorem Good.decRef (h : Good s) (hb : b ∈ s.clients) (hkeep : b ∈ s.held → b ∈ s.clients.erase b) :
    Good { s with buffers := release s.buffers b, clients := s.clients.erase b } := by
  obtain ⟨⟨hr, hf, hw⟩, hc⟩ := h
  have hbalanced : Balanced s.buffers (b :: (s.windowRefs ++ s.clients.erase b)) := by
    refine hr.balanced.perm ?_
    exact ((perm_cons_erase hb).append_left s.windowRefs).trans perm_middle
  -- what the window refers to is as before
  have hvalue : ∀ x, x ∈ s.bufList ∨ x ∈ s.fronted →
      values (release s.buffers b) x = values s.buffers x := fun x hx =>
    hbalanced.values_release (mem_append_left _ (mem_windowRefs.mpr hx))
  have halike : Alike s { s with buffers := release s.buffers b, clients := s.clients.erase b } := by
    refine ⟨fun x v' hv' => ⟨v', values_release_some hv', rfl, id⟩, fun x hx hsome => ?_⟩
    exact (congrArg Option.isSome (hvalue x (.inr hx))).trans hsome
  refine ⟨⟨⟨hr.pool, hr.fronted, hbalanced.release, hr.accounts, fun x hx => ?_, hr.held, fun x hx => ?_,
    hr.heldFronted⟩, hf.alike halike (fun _ => id) (fun _ => .inl) rfl rfl fun x v hv hx =>
      hf.busy x v (values_release_some hv) hx,
    hw.alike halike rfl rfl rfl rfl rfl⟩, ?_⟩
  · by_contra hne
    obtain ⟨v, hv⟩ := ne_none_iff_exists'.mp hne
    have hv' : s.value x = some v := values_release_some hv
    rw [hr.unborn x hx] at hv'
    cases hv'
  · by_cases heq : x = b
    · exact heq ▸ hkeep (heq ▸ hx)
    · exact (mem_erase_of_ne heq).mpr (hr.heldClients x hx)
  · have hidle : s.bufList.countP
        (State.idle { s with buffers := release s.buffers b, clients := s.clients.erase b }) =
        s.bufList.countP s.idle := countP_idle_congr fun x hx => hvalue x (.inl hx)
    change s.freeBufs = (s.bufList.countP _ : Int)
    rw [hidle]
    exact hc

theorem queueBuffer_good (h : Good s) (hb : b ∈ s.held) (signalled : Bool) :
    Fine Good (queueBuffer s b signalled) := by
  have hclient := h.1.refs.heldClients b hb
  rw [queueBuffer]
  split
  case isTrue => exact h
  case isFalse =>
    split
    case isTrue hpool =>
      refine (presentBuffer_spec h hb).elim (fun _ => Fine.stop) fun ⟨t, shown⟩ hspec => ?_
      cases shown with
      | false => exact hspec.1
      | true =>
        obtain ⟨s', hgood, hhandled, rfl⟩ := hspec
        have hpool' : b ∈ s'.bufList := hhandled.bufList ▸ hpool
        have hcommit := commit_good hgood (hhandled.held ▸ hb) s'.clients s'.requeues
          (fun x => by simp [hpool']) (fun x => by simp [hpool'])
          (fun x hx _ => hgood.1.refs.heldClients x hx)
        obtain ⟨_, _, _, _, _, hframe⟩ := commit_frame s' b
        rw [hframe] at hcommit ⊢
        exact hcommit
    case isFalse hpool =>
      refine (presentBuffer_spec (h.incRef hclient) (b := b) hb).elim (fun _ => Fine.stop)
        fun ⟨t, shown⟩ hspec => ?_
      cases shown with
      | false =>
        obtain ⟨hgood, hhandled⟩ := hspec
        have hclients : t.clients = b :: s.clients := hhandled.clients
        refine hgood.decRef (b := b) (by rw [hclients]; exact mem_cons_self) fun _ => ?_
        rw [hclients, erase_cons_head]
        exact hclient
      | true =>
        obtain ⟨s', hgood, hhandled, rfl⟩ := hspec
        have hpool' : b ∉ s'.bufList := by
          rw [hhandled.bufList]
          exact hpool
        have hclients : s'.clients = b :: s.clients := hhandled.clients
        have hheld : s'.held = s.held := hhandled.held
        have hcommit := commit_good hgood (hheld ▸ hb) (s'.clients.erase b)
          (b :: s'.requeues)
          (fun x => by
            rw [hclients, erase_cons_head, count_cons]
            simp only [hpool', not_false_eq_true, and_true, beq_iff_eq, eq_comm (a := x)])
          (fun x => by
            rw [count_cons]
            simp only [hpool', not_false_eq_true, and_true, beq_iff_eq, eq_comm (a := x)])
          (fun x hx hne => by
            rw [hclients, erase_cons_head]
            exact h.1.refs.heldClients x (hheld ▸ hx))
        obtain ⟨_, _, _, _, _, hframe⟩ := commit_frame s' b
        rw [hframe] at hcommit ⊢
        exact hcommit

theorem cancelBuffer_good (h : Good s) (hb : b ∈ s.held) (hpool : b ∈ s.bufList) :
    Fine Good (cancelBuffer s b) := by
  obtain ⟨hinv, hc⟩ := h
  have hnot := hinv.refs.heldFronted b hb
  obtain ⟨v, hv⟩ := hinv.refs.alive (.inl hpool)
  have hcreating : s.creating b = false := by
    rw [creating_eq, hv]
    by_contra hne
    exact hnot (hinv.fields.creating b v hv (by simpa using hne))
  have hdone : ∀ v' w, s.value b = some v' → v'.wlbuffer = some w → w ∉ s.outstanding := by
    intro v' w hv' hw hout
    obtain ⟨x, hx, u, hu, huw⟩ := hinv.releases.finds w hout (hinv.fields.proxies b v' w hv' hw)
    exact hnot (hinv.fields.unique x b u v' w hu hv' huw hw ▸ hx)
  rw [cancelBuffer, if_pos hpool, giveBack_eq fun x hx => hinv.refs.isAlive (.inl hx)]
  have hgood : Good (settled s b) :=
    ⟨hinv.settled hpool hcreating hdone, settled_counted hinv hc hpool (.inl hb)⟩
  rw [settled, erase_of_not_mem hnot] at hgood
  exact hgood

end WaylandWindow
