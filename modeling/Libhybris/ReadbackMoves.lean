import Libhybris.ReadbackFrames

/-!
# Calls that begin, record and submit

The steps that only move a call on, those that change memory and what is recorded, and the life of a
submission until the driver has answered keep the invariant.
-/
namespace Readback

open MemoryVisibility RefCount List Registry Option

/-! ## Calls that move on -/

variable {p : Pass} {answer : Answer} {w : Write} {op : Op} {recordings : List Recording}
  {c : Command} {device : Device} {f queue t : Nat} {sub : Submission} {s s' : State} {pc pc' : Pc}

theorem Sound.position (h : Sound s) (ht : s.threads[t]? = some pc) : Position s pc :=
  h.calls.position pc (mem_of_getElem? ht)

/-- A step that changes neither the registry nor the submissions. -/
theorem Sound.quiet (h : Sound s) (hinv : Inv s') (ht : s.threads[t]? = some pc)
    (hthreads : s'.threads = s.threads.set t pc') (q : Quiet s s') (htables : Tables s'.memory)
    (hrecordings : s'.recordings = s.recordings) (hregistry : s'.registry = s.registry)
    (hrecord : ∀ r v, s'.record r = some v → s.record r = some v)
    (hlisted : ∀ r ∈ pc.listed, r ∈ pc'.listed)
    (hinFlight : ∀ sub ∈ pc.inFlight, sub ∈ pc'.inFlight) (hcalls : Calls s') : Sound s' := by
  refine h.carried hinv q htables hrecordings (fun r v hv _ => ⟨v, hrecord r v hv, rfl, rfl⟩)
    (h.listing.of_quiet q (fun r hr => hregistry ▸ hr) (fun sub _ hr => ?_) (fun r _ hr => ?_)
      fun r _ v hv => ⟨v, hrecord r v hv, rfl⟩) hcalls
  · exact listed_move ht hthreads hr (fun hr => .inl (hregistry ▸ hr)) fun hr => .inr (hlisted _ hr)
  · refine flying_move ht hthreads hr fun sub hsub hid => ?_
    exact ⟨pc', hthreads ▸ mem_set_self ht, sub, hinFlight sub hsub, hid⟩

/-- A step that only moves a call. -/
theorem Quiet.goto (s : State) (t : Nat) (pc : Pc) : Quiet s (s.goto t pc) := Quiet.of_eq rfl

theorem Quiet.same (q : Quiet s s') (hregistry : s'.registry = s.registry)
    (hheap : s'.heap = s.heap) : Frame s s' pc := by
  refine q.frame fun sub _ hr => ⟨hregistry ▸ hr, fun v hv => ?_⟩
  rw [State.record, hheap] at hv
  exact hv

theorem Sound.goto (h : Sound s) (hinv : Inv (s.goto t pc')) (ht : s.threads[t]? = some pc)
    (hlisted : ∀ r ∈ pc.listed, r ∈ pc'.listed) (hinFlight : ∀ sub ∈ pc.inFlight, sub ∈ pc'.inFlight)
    (huses : pc'.uses.Within pc.uses) (hlocked : pc'.locked = true → pc.locked = true)
    (hlocal : Local s pc') :
    Sound (s.goto t pc') := by
  have q := Quiet.goto s t pc'
  refine h.quiet hinv ht rfl q h.book.tables rfl rfl (fun _ _ hv => hv) hlisted hinFlight ?_
  exact h.calls.goto ht rfl (fun _ _ _ _ => q.same rfl rfl) huses hlocked rfl (fun _ _ hk => hk)
    ((q.same rfl rfl).here hlocal)

/-- A call goes on with what it has. -/
theorem Sound.stay (h : Sound s) (hinv : Inv (s.goto t pc')) (ht : s.threads[t]? = some pc)
    (hsame : (pc.listed, pc.inFlight, pc'.uses, pc'.locked) = (pc'.listed, pc'.inFlight, pc.uses,
      pc.locked))
    (hlocal : Local s pc') : Sound (s.goto t pc') := by
  simp only [Prod.mk.injEq] at hsame
  obtain ⟨hlisted, hinFlight, huses, hlocked⟩ := hsame
  exact h.goto hinv ht (fun _ => hlisted ▸ id) (fun _ => hinFlight ▸ id) (huses ▸ .refl _)
    (fun hl => hlocked ▸ hl) hlocal

/-- A call begins. -/
theorem Sound.begin (h : Sound s) (hinv : Inv s') (hstep : Readback.begin s t pc' = some s')
    (hfree : s.Free pc'.uses) (hlocked : pc'.locked = false) (hposition : Position s pc') : Sound s' := by
  obtain ⟨ht, rfl⟩ := begin_eq_some hstep
  have q := Quiet.goto s t pc'
  refine h.quiet hinv ht rfl q h.book.tables rfl rfl (fun _ _ hv => hv) (forall_mem_nil _)
    (forall_mem_none _) ?_
  refine h.calls.move ht rfl (fun _ _ _ _ => q.same rfl rfl) (fun j pc₁ _ hj => ?_) (fun hl => ?_)
    (fun pc₁ hpc₁ hl => ?_) ((q.same rfl rfl).position hposition)
  · exact hfree pc₁ (mem_of_getElem? hj)
  · exact absurd hl (by simp [hlocked])
  · rcases mem_or_eq_of_mem_set hpc₁ with hpc₁ | rfl
    · exact h.calls.held pc₁ hpc₁ hl
    · exact absurd hl (by simp [hlocked])

/-- What was listed or comes next is shown, listed or comes next. -/
theorem Progress.imp {listed listed' : List Nat} {next next' : Submission → Prop}
    (h : Progress s p listed next)
    (himp : ∀ sub ∈ s.accepted, sub.id ∈ listed ∨ next sub → s.Shown sub ∨ sub.id ∈ listed' ∨ next' sub) :
    Progress s p listed' next' := by
  refine ⟨h.device, h.rest, fun sub hsub => ?_⟩
  obtain ⟨haccepted, hcover⟩ := h.cover sub hsub
  refine ⟨haccepted, hcover.imp_right ?_⟩
  rintro (hshown | hlisted | hnext | hrest)
  · exact .inl hshown
  · exact (himp sub haccepted (.inl hlisted)).imp_right fun h => h.imp_right .inl
  · exact (himp sub haccepted (.inr hnext)).imp_right fun h => h.imp_right .inl
  · exact .inr (.inr (.inr hrest))

theorem Sound.lock (h : Sound s) (hinv : Inv { s.goto t p.enter with completing := true })
    (ht : s.threads[t]? = some (.lock p)) (hfree : s.completing = false) :
    Sound { s.goto t p.enter with completing := true } := by
  have q : Quiet s { s.goto t p.enter with completing := true } := Quiet.of_eq rfl
  have hunlocked : ∀ pc ∈ s.threads, pc.locked = false := by
    intro pc hpc
    cases hcase : pc.locked with
    | false => rfl
    | true => exact absurd (h.calls.held pc hpc hcase) (by simp [hfree])
  obtain ⟨⟨hprogress, hidle⟩, hsettled⟩ := h.position ht
  have henter : p.enter.uses = p.uses ∧ Local s p.enter := by
    rw [Pass.enter]
    cases hp : p.idle with
    | none =>
      refine ⟨rfl, hprogress.imp fun sub _ hn => .inr (hn.imp_right ?_)⟩
      rintro ⟨selector, hs, -⟩
      rw [hp] at hs
      cases hs
    | some selector =>
      refine ⟨rfl, hprogress.imp fun sub _ hn => .inr (hn.imp_right ?_), hidle selector hp⟩
      rintro ⟨selector', hs, hselected⟩
      rw [hp] at hs
      cases hs
      exact hselected
  refine h.quiet hinv ht rfl q h.book.tables rfl rfl (fun _ _ hv => hv) (forall_mem_nil _)
    (forall_mem_none _) ?_
  refine h.calls.move ht rfl (fun _ _ _ _ => q.same rfl rfl) (fun j pc₁ hne hj => ?_)
    (fun _ j pc₁ _ hj => hunlocked pc₁ (mem_of_getElem? hj)) (fun _ _ _ => rfl)
    ((q.same rfl rfl).position ⟨henter.2, henter.1 ▸ hsettled⟩)
  rw [henter.1]
  exact h.calls.apart t j _ pc₁ (Ne.symm hne) ht hj

theorem Sound.unlock (h : Sound s) (hinv : Inv { s.goto t p.leave with completing := false })
    (ht : s.threads[t]? = some (.unlock p)) : Sound { s.goto t p.leave with completing := false } := by
  have q : Quiet s { s.goto t p.leave with completing := false } := Quiet.of_eq rfl
  obtain ⟨⟨hprogress, hrest⟩, hsettled⟩ := h.position ht
  have hleave : p.leave.uses.Within p.uses ∧ p.leave.locked = false ∧ Local s p.leave := by
    rw [Pass.leave]
    split
    case h_1 =>
      refine ⟨Uses.Within.of_none _, rfl, fun hok' sub hsub => ?_⟩
      rcases (hprogress.cover sub hsub).2 with hfalse | hshown | hlisted | hn | ⟨f, hf, -⟩
      · rw [hfalse] at hok'
        cases hok'
      · exact hshown
      · cases hlisted
      · exact hn.elim
      · rw [hrest] at hf
        cases hf
    case h_2 hnext hok =>
      refine ⟨⟨forall_mem_none _, nil_subset _, fun k hk => ?_, nil_subset _⟩, rfl, hprogress.device⟩
      rw [Pass.uses, hnext]
      exact hk
    case h_3 hnext hok => exact ⟨Uses.Within.of_none _, rfl, by intro _ _ h; cases h⟩
  refine h.quiet hinv ht rfl q h.book.tables rfl rfl (fun _ _ hv => hv) (forall_mem_nil _)
    (forall_mem_none _) ?_
  refine h.calls.move ht rfl (fun _ _ _ _ => q.same rfl rfl) (fun j pc₁ hne hj => ?_)
    (fun hl => absurd hl (by simp [hleave.2.1])) (fun pc₁ hpc₁ hl => ?_)
    ((q.same rfl rfl).position ⟨hleave.2.2, fun k hk => hsettled k (hleave.1.resetting hk)⟩)
  · exact (h.calls.apart t j _ pc₁ (Ne.symm hne) ht hj).within hleave.1
  · obtain ⟨j, hj⟩ := mem_iff_getElem?.mp hpc₁
    rcases getElem?_set_cases hj with ⟨-, rfl⟩ | ⟨hne, hj⟩
    · exact absurd hl (by simp [hleave.2.1])
    · exact absurd (h.calls.lock j t pc₁ _ hj ht hl rfl) hne

theorem Sound.scan (h : Sound s) (hinv : Inv s') (ht : s.threads[t]? = some (.scan p))
    (hvalid : Valid s (.advance t answer)) (hstep : Readback.advance s t answer (.scan p) = some s') :
    Sound s' := by
  have hprogress : Progress s p [] fun _ => False := (h.position ht).here
  rw [Readback.advance] at hstep
  split at hstep
  case h_1 hrest =>
    cases hstep
    exact h.stay hinv ht rfl ⟨hprogress, hrest⟩
  case h_2 f rest hrest =>
    obtain ⟨hsignaled, hunsignaled⟩ := hvalid _ ht (p.device, f) (by rw [Pc.asked, hrest]; rfl)
    have hf : f ∈ p.fences := hprogress.rest (hrest ▸ mem_cons_self)
    have hsub : rest ⊆ p.fences := fun g hg => hprogress.rest (hrest ▸ mem_cons_of_mem _ hg)
    have hnow : Progress s { p with rest } [] (Selected s p.device (.fence f)) := by
      refine ⟨hprogress.device, hsub, fun sub hs => ?_⟩
      obtain ⟨haccepted, hok | hshown | hlisted | hn | ⟨g, hg, hselected⟩⟩ := hprogress.cover sub hs
      · exact ⟨haccepted, .inl hok⟩
      · exact ⟨haccepted, .inr (.inl hshown)⟩
      · cases hlisted
      · exact hn.elim
      · rw [hrest] at hg
        rcases mem_cons.mp hg with rfl | hg
        · exact ⟨haccepted, .inr (.inr (.inr (.inl hselected)))⟩
        · exact ⟨haccepted, .inr (.inr (.inr (.inr ⟨g, hg, hselected⟩)))⟩
    cases answer with
    | success =>
      cases hstep
      have hreached : ∃ id, s.fences p.device f = .signaled id := by
        have := hsignaled rfl
        unfold FenceState.isSignaled at this
        split at this
        · rename_i id hid
          exact ⟨id, hid⟩
        · cases this
      exact h.stay hinv ht rfl ⟨hnow, hreached, hf⟩
    | notReady =>
      cases hstep
      refine h.stay hinv ht rfl (hnow.imp fun sub _ hn => .inr (hn.imp_right ?_))
      rintro ⟨-, m, -, hfence, -⟩
      have := hunsignaled rfl
      rw [hfence] at this
      cases this
    | error =>
      cases hstep
      exact h.stay hinv ht rfl
        ⟨hprogress.device, hsub, fun sub hs => ⟨(hprogress.cover sub hs).1, .inl rfl⟩⟩

/-! ## Memory and the log -/

theorem mem_drop_append {log events : List Event} {n : Nat} {e : Event} (hn : n ≤ log.length)
    (he : e ∈ events) : e ∈ (log ++ events).drop n := by
  rw [drop_append_of_le_length hn]
  exact mem_append_right _ he

theorem Tracked.append (h : Tracked s w) (hmemory : s'.memory = s.memory)
    (hlog : ∃ events, s'.log = s.log ++ events) : Tracked s' w := by
  obtain ⟨events, hlog⟩ := hlog
  rw [Tracked, hlog, hmemory, length_append]
  exact ⟨Nat.le_add_right_of_le h.1, h.2.imp_right fun hg => hg.append events⟩

/-- A range stays tracked: if its allocation is unmapped or freed, the log says so. -/
theorem Tracked.change (h : Tracked s w) (htables : Tables s.memory)
    (hstep : s.change op = some s') : Tracked s' w := by
  obtain ⟨⟨m', changes⟩, happly, rfl⟩ := map_eq_some_iff.mp hstep
  have hlogged : ∀ c ∈ changes, Event.change c ∈ (s.log ++ changes.map Event.change).drop w.since :=
    fun c hc =>
    mem_drop_append h.1 (mem_map_of_mem hc)
  refine ⟨?_, ?_⟩
  · rw [length_append]
    exact Nat.le_add_right_of_le h.1
  · rcases h.2 with ⟨a, ha, hdevice, hmemory, hgeneration, hmapped⟩ | hgone
    · rcases (htables.evolves happly).outcome a ha with ⟨a', ha', hidentity, hstill⟩ | hfreed
      · simp only [Allocation.identity, Prod.mk.injEq] at hidentity
        rcases hstill hmapped with hm | hunmapped
        · exact .inl ⟨a', ha', hidentity.1.trans hdevice, hidentity.2.2.1.trans hmemory,
            hidentity.2.1.trans hgeneration, hm⟩
        · exact .inr (.inl (hlogged _ (hgeneration ▸ hunmapped)))
      · exact .inr (.inr (hlogged _ (hgeneration ▸ hfreed)))
    · exact .inr (hgone.append _)

theorem Quiet.change (htables : Tables s.memory) (hstep : s.change op = some s') :
    (Quiet s s' ∧ Tables s'.memory) ∧ s'.recordings = s.recordings ∧ s'.completing = s.completing ∧
      s'.threads = s.threads ∧ s'.heap = s.heap ∧ s'.registry = s.registry := by
  have htracked : ∀ w, Tracked s w → Tracked s' w := fun w h => h.change htables hstep
  obtain ⟨⟨m', changes⟩, happly, rfl⟩ := map_eq_some_iff.mp hstep
  exact ⟨⟨⟨rfl, rfl, Nat.le_refl _, Nat.le_refl _, rfl, ⟨_, rfl⟩, htracked⟩,
    (htables.evolves happly).tables⟩, rfl, rfl, rfl, rfl, rfl⟩

/-- A step of the application or the driver outside the calls. -/
theorem Sound.outside (h : Sound s) (hinv : Inv s') (hthreads : s'.threads = s.threads) (q : Quiet s s')
    (htables : Tables s'.memory) (hrecordings : ∀ r ∈ s'.recordings, ∀ w ∈ r.writes, Tracked s' w)
    (hregistry : s'.registry = s.registry) (hheap : s'.heap = s.heap)
    (hcompleting : s'.completing = s.completing) : Sound s' := by
  have hrecord : ∀ r v, s'.record r = some v → s.record r = some v := fun r v hv => by
    rw [State.record, hheap] at hv
    exact hv
  refine ⟨hinv, h.book.of_quiet q htables hrecordings fun r v hv _ => ⟨v, hrecord r v hv, rfl⟩,
    h.fenced.of_quiet q fun r v hv _ => ⟨v, hrecord r v hv, rfl⟩,
    h.listing.of_quiet q (fun r hr => hregistry ▸ hr) (fun sub _ hr => ?_) (fun r _ hr => ?_)
      (fun r _ v hv => ⟨v, hrecord r v hv, rfl⟩),
    h.calls.outside hthreads hcompleting fun pc _ => q.same hregistry hheap⟩
  · rw [State.Listed, hregistry, hthreads]
    exact hr
  · rw [State.Flying, hthreads]
    exact hr

theorem Sound.memory (h : Sound s) (hinv : Inv s') (hstep : s.change op = some s') : Sound s' := by
  obtain ⟨⟨q, htables⟩, hrecordings, hcompleting, hthreads, hheap, hregistry⟩ :=
    Quiet.change h.book.tables hstep
  refine h.outside hinv hthreads q htables (fun r hr w hw => ?_) hregistry hheap hcompleting
  exact q.tracked w (h.book.recordings r (hrecordings ▸ hr) w hw)

/-! ## Recording -/

theorem mem_append_writes {writes : List Write} {x : Write} (h : x ∈ Readback.append writes w) :
    x ∈ writes ∨ x = w := by
  rw [Readback.append] at h
  split at h
  · exact .inl h
  · exact (mem_cons.mp h).symm

theorem mem_remember {x : Write} {r : Recording} (hr : r ∈ remember recordings c w)
    (hx : x ∈ r.writes) : x = w ∨ ∃ r₀ ∈ recordings, x ∈ r₀.writes := by
  rw [remember] at hr
  split at hr
  · rcases mem_modify _ hr with ⟨r₀, hr₀, rfl⟩ | hold
    · exact (mem_append_writes hx).symm.imp_right fun hx => ⟨r₀, mem_of_lookup _ hr₀, hx⟩
    · exact .inr ⟨r, hold, hx⟩
  · rcases mem_cons.mp hr with rfl | hr
    · exact .inl (mem_singleton.mp hx)
    · exact .inr ⟨r, hr, hx⟩

theorem mem_recorded {command : Nat} (h : w ∈ recorded recordings command) :
    ∃ r ∈ recordings, w ∈ r.writes := by
  rw [recorded] at h
  cases hfound : Registry.lookup Recording.command command recordings with
  | none =>
    rw [hfound] at h
    cases h
  | some r =>
    rw [hfound] at h
    exact ⟨r, mem_of_lookup _ hfound, h⟩

/-- The ranges of a list with those appended to it: nothing is lost, up to equal ranges. -/
theorem foldl_append_spec (new writes : List Write) :
    (∀ x ∈ new.foldl Readback.append writes, x ∈ writes ∨ x ∈ new) ∧
      (∀ x ∈ writes, x ∈ new.foldl Readback.append writes) ∧
      ∀ x ∈ new, ∃ y ∈ new.foldl Readback.append writes, y.range = x.range := by
  induction new generalizing writes with
  | nil => exact ⟨fun x hx => .inl hx, fun x hx => hx, nofun⟩
  | cons w new ih =>
    obtain ⟨hfrom, hkeep, hcover⟩ := ih (Readback.append writes w)
    have hold : ∀ x ∈ writes, x ∈ Readback.append writes w := by
      intro x hx
      rw [Readback.append]
      split
      · exact hx
      · exact mem_cons_of_mem _ hx
    have hnew : ∃ y ∈ Readback.append writes w, y.range = w.range := by
      rw [Readback.append]
      split
      case isTrue hany =>
        obtain ⟨y, hy, hrange⟩ := any_eq_true.mp hany
        exact ⟨y, hy, by simpa using hrange⟩
      case isFalse => exact ⟨w, mem_cons_self, rfl⟩
    refine ⟨fun x hx => ?_, fun x hx => hkeep x (hold x hx), fun x hx => ?_⟩
    · rcases hfrom x hx with hx | hx
      · exact (mem_append_writes hx).imp_right fun h => mem_cons.mpr (.inl h)
      · exact .inr (mem_cons_of_mem _ hx)
    · rcases mem_cons.mp hx with rfl | hx
      · obtain ⟨y, hy, hrange⟩ := hnew
        exact ⟨y, hkeep y hy, hrange⟩
      · exact hcover x hx

/-- What is collected for command buffers is what they have recorded, up to equal ranges. -/
theorem collect_spec (recordings : List Recording) (commands : List Nat) (writes : List Write) :
    (∀ x ∈ collect recordings commands writes, x ∈ writes ∨ ∃ r ∈ recordings, x ∈ r.writes) ∧
      (∀ x ∈ writes, x ∈ collect recordings commands writes) ∧
      ∀ x ∈ commands.flatMap (recorded recordings), ∃ y ∈ collect recordings commands writes,
        y.range = x.range := by
  induction commands generalizing writes with
  | nil => exact ⟨fun x hx => .inl hx, fun x hx => hx, nofun⟩
  | cons c commands ih =>
    obtain ⟨hfrom, hkeep, hcover⟩ := foldl_append_spec (recorded recordings c) writes
    obtain ⟨hfrom', hkeep', hcover'⟩ := ih ((recorded recordings c).foldl Readback.append writes)
    refine ⟨fun x hx => ?_, fun x hx => hkeep' x (hkeep x hx), fun x hx => ?_⟩
    · rcases hfrom' x hx with hx | hx
      · exact (hfrom x hx).imp_right mem_recorded
      · exact .inr hx
    · rcases mem_append.mp hx with hx | hx
      · obtain ⟨y, hy, hrange⟩ := hcover x hx
        exact ⟨y, hkeep' y hy, hrange⟩
      · exact hcover' x hx

/-- A range is recorded of an allocation that is mapped. -/
theorem readbackRange_mapped {m : Memory} {buffer : Nat} {offset size : UInt64} {g : Range}
    (h : readbackRange m device buffer offset size = .ok (some g)) :
    ∃ a ∈ m.allocations, a.device = device ∧ a.memory = g.memory ∧ a.generation = g.generation ∧
      a.mapped = true := by
  rw [readbackRange] at h
  split at h
  case h_1 => cases h
  case h_2 b hb =>
    split at h
    case h_1 => cases h
    case h_2 a ha =>
      have hkey := key_of_lookup _ ha
      have hmem := mem_of_lookup _ ha
      split at h
      case isTrue => cases h
      case isFalse hnone =>
        have hmapped : a.mapped = true := by
          cases hm : a.mapped with
          | true => rfl
          | false => exact absurd (.inr (.inr (.inl hm))) hnone
        obtain ⟨-, h⟩ := Vulkan.ite_error_eq_ok.mp h
        generalize (if size = wholeSize then b.size - offset else size) = length at h
        simp only at h
        obtain ⟨-, h⟩ := Vulkan.ite_error_eq_ok.mp h
        split at h
        case isTrue => cases h
        case isFalse =>
          split at h
          case isTrue =>
            cases h
            exact ⟨a, hmem, congrArg Prod.fst hkey, rfl, rfl, hmapped⟩
          case isFalse => cases h

/-- The recordings change and nothing else. -/
theorem Sound.recording (h : Sound s) (hinv : Inv { s with recordings := recordings })
    (htracked : ∀ r ∈ recordings, ∀ w ∈ r.writes, Tracked s w) :
      Sound { s with recordings := recordings } :=
  h.outside hinv rfl (Quiet.of_eq rfl) h.book.tables htracked rfl rfl rfl

theorem Sound.write {buffer : Nat} {offset size : UInt64} (h : Sound s) (hinv : Inv s')
    (hstep : perform s (.write c buffer offset size) = some s') : Sound s' := by
  rw [perform] at hstep
  split at hstep
  case h_1 range hrange =>
    cases hstep
    refine h.recording hinv fun r hr w hw => ?_
    rcases mem_remember hr hw with rfl | ⟨r₀, hr₀, hw⟩
    · exact ⟨Nat.le_refl _, .inl (readbackRange_mapped hrange)⟩
    · exact h.book.recordings r₀ hr₀ w hw
  case h_2 =>
    cases hstep
    exact h

theorem tracked_remember (new : List Write) (hnew : ∀ w ∈ new, Tracked s w)
    (h : ∀ r ∈ recordings, ∀ w ∈ r.writes, Tracked s w) :
    ∀ r ∈ new.foldl (fun rs w => remember rs c w) recordings, ∀ w ∈ r.writes, Tracked s w := by
  induction new generalizing recordings with
  | nil => exact h
  | cons x new ih =>
    refine ih (fun w hw => hnew w (mem_cons_of_mem _ hw)) fun r hr w hw => ?_
    rcases mem_remember hr hw with rfl | ⟨r₀, hr₀, hw⟩
    · exact hnew w mem_cons_self
    · exact h r₀ hr₀ w hw

section
variable (h : Sound s)
include h

theorem Sound.execute {children : List Nat} (hinv : Inv s')
    (hstep : perform s (.execute c children) = some s') : Sound s' := by
  cases hstep
  refine h.recording hinv (tracked_remember _ (fun w hw => ?_) h.book.recordings)
  rcases (collect_spec s.recordings children []).1 w hw with hnil | ⟨r, hr, hw⟩
  · cases hnil
  · exact h.book.recordings r hr w hw

/-! ## Calls that begin -/

theorem Sound.submit {batches : List (List Nat)} {fence : Option Nat} (hinv : Inv s')
    (hvalid : Valid s (.submit t device queue batches fence))
    (hstep : perform s (.submit t device queue batches fence) = some s') : Sound s' := by
  obtain ⟨hdevice, hfree, hfence, hwanted⟩ := hvalid
  rw [perform] at hstep
  split at hstep
  case isTrue =>
    cases hstep
    exact h
  case isFalse =>
    refine h.begin hinv hstep hfree rfl
      ⟨⟨fun w hw => ⟨⟨?_, hwanted w hw⟩, ?_⟩, hdevice, hfence⟩, (forall_mem_nil _)⟩
    · obtain ⟨c, -, hw⟩ := mem_flatMap.mp hw
      obtain ⟨r, hr, hw⟩ := mem_recorded hw
      exact h.book.recordings r hr w hw
    · exact (collect_spec s.recordings batches.flatten []).2.2 w hw

theorem Sound.mem_fenceCover (hsub : sub ∈ s.fenceCover device f) :
    sub ∈ s.accepted ∧ Selected s device (.fence f) sub := by
  rw [State.fenceCover] at hsub
  split at hsub
  case h_1 id hid =>
    obtain ⟨m, hfound, hupTo⟩ := mem_flatMap.mp hsub
    obtain ⟨hm, hmid⟩ := mem_filter.mp hfound
    have hmid := of_decide_eq_true hmid
    subst hmid
    obtain ⟨haccepted, hqueue, hserial⟩ := (h.book.mem_upTo hm).mp hupTo
    obtain ⟨⟨rfl, -⟩, -⟩ := h.fenced.fence m hm device f (.inr hid)
    exact ⟨haccepted, hqueue.1, m, hm, hid, hqueue, hserial⟩
  case h_2 => cases hsub

theorem Sound.waited {fences : List Nat} {all : Bool} (hinv : Inv s')
    (hvalid : Valid s (.waited t device fences all))
    (hstep : perform s (.waited t device fences all) = some s') : Sound s' := by
  obtain ⟨hdevice, hfree, -⟩ := hvalid
  refine h.begin hinv hstep hfree rfl ⟨⟨⟨hdevice, List.Subset.refl _, fun sub hsub => ?_⟩, nofun⟩, nofun⟩
  cases all with
  | false => cases hsub
  | true =>
    obtain ⟨f, hf, hsub⟩ := mem_flatMap.mp hsub
    obtain ⟨haccepted, hselected⟩ := h.mem_fenceCover hsub
    exact ⟨haccepted, .inr (.inr (.inr (.inr ⟨f, hf, hselected⟩)))⟩

theorem Sound.queueIdle (hinv : Inv s') (hvalid : Valid s (.queueIdle t device queue))
    (hstep : perform s (.queueIdle t device queue) = some s') : Sound s' := by
  obtain ⟨hdevice, hfree, hcompleted⟩ := hvalid
  refine h.begin hinv hstep hfree rfl ⟨⟨⟨hdevice, List.Subset.refl _, fun sub hsub => ?_⟩, ?_⟩, nofun⟩
  · obtain ⟨haccepted, hq⟩ := mem_filter.mp hsub
    have hselected : sub.device = device ∧ sub.queue = queue := of_decide_eq_true hq
    exact ⟨haccepted, .inr (.inr (.inr (.inl ⟨_, rfl, hselected⟩)))⟩
  · intro selector hs
    cases hs
    refine ⟨fun x hx hd hq => hcompleted x ?_, rfl⟩
    exact mem_filter.mpr ⟨hx, decide_eq_true ⟨hd, hq⟩⟩

theorem Sound.deviceIdle (hinv : Inv s') (hvalid : Valid s (.deviceIdle t device))
    (hstep : perform s (.deviceIdle t device) = some s') : Sound s' := by
  obtain ⟨hdevice, hfree, hcompleted⟩ := hvalid
  refine h.begin hinv hstep hfree rfl ⟨⟨⟨hdevice, List.Subset.refl _, fun sub hsub => ?_⟩, ?_⟩, nofun⟩
  · obtain ⟨haccepted, hd⟩ := mem_filter.mp hsub
    exact ⟨haccepted, .inr (.inr (.inr (.inl ⟨_, rfl, of_decide_eq_true hd, trivial⟩)))⟩
  · intro selector hs
    cases hs
    exact ⟨hcompleted, rfl⟩

theorem Sound.resetFences {fences : List Nat} (hinv : Inv s')
    (hvalid : Valid s (.resetFences t device fences))
    (hstep : perform s (.resetFences t device fences) = some s') : Sound s' := by
  obtain ⟨hdevice, hfree, hpending⟩ := hvalid
  refine h.begin hinv hstep hfree rfl ⟨⟨⟨hdevice, List.Subset.refl _, nofun⟩, nofun⟩, fun k hk => ?_⟩
  obtain ⟨f, hf, rfl⟩ := mem_map.mp hk
  exact hpending f hf

end

/-! ## Submissions -/

/-- A record is of one submission. -/
theorem Known.same {x y : Submission} (hx : Known s x) (hy : Known s y) (hid : x.id = y.id)
    {v : Record} (hv : s.record x.id = some v) : SameQueue x y ∧ x.serial = y.serial := by
  have hmx := hx.record v hv
  have hmy := hy.record v (hid ▸ hv)
  exact ⟨⟨hmx.device.symm.trans hmy.device, hmx.queue.symm.trans hmy.queue⟩,
    hmx.serial.symm.trans hmy.serial⟩

theorem Inv.record_of_registered (h : Inv s) {r : Nat} (hr : r ∈ s.registry) : ∃ v, s.record r = some v :=
  isSome_iff_exists.mp (h.alive (mem_owners_registry hr))

theorem Sound.not_accepted (h : Sound s) (hsub : InFlight s sub) {x : Submission}
    (hx : x ∈ s.accepted) : x.id ≠ sub.id := by
  intro hid
  obtain ⟨v, hv⟩ := h.records.record_of_registered hsub.registered
  obtain ⟨hqueue, hserial⟩ := (h.book.known x hx).same hsub.known hid (hid ▸ hv)
  have hlater := hsub.later x hx hqueue
  omega

/-- A call in flight, and what it uses. -/
theorem Sound.inFlight (h : Sound s) (hpc : pc ∈ s.threads) (hsub : sub ∈ pc.inFlight) :
    InFlight s sub ∧ pc.uses = submitUses sub.device sub.queue sub.fence := by
  have hposition := (h.calls.position pc hpc).here
  cases pc with
  | submit sub' | reject sub' =>
    cases hsub
    exact ⟨hposition, rfl⟩
  | _ => cases hsub

/-- Calls in progress have different records. -/
theorem Sound.inFlight_ne (h : Sound s) {i j : Nat} {pc₁ : Pc} (hne : i ≠ j) (hi : s.threads[i]? = some pc)
    (hj : s.threads[j]? = some pc₁) {sub₁ : Submission} (hsub : sub ∈ pc.inFlight)
    (hsub₁ : sub₁ ∈ pc₁.inFlight) : sub.id ≠ sub₁.id := by
  obtain ⟨hfly, huses⟩ := h.inFlight (mem_of_getElem? hi) hsub
  obtain ⟨hfly₁, huses₁⟩ := h.inFlight (mem_of_getElem? hj) hsub₁
  intro hid
  obtain ⟨v, hv⟩ := h.records.record_of_registered hfly.registered
  obtain ⟨⟨hdevice, hqueue⟩, -⟩ := hfly.known.same hfly₁.known hid hv
  have hapart := (h.calls.apart i j pc pc₁ hne hi hj).queues
  rw [huses, huses₁] at hapart
  exact hapart _ rfl _ rfl ⟨hdevice, .inr (.inr (congrArg some hqueue))⟩

theorem Sound.publish {fence : Option Nat} {writes wanted : List Write} (h : Sound s)
    (hinv : Inv s') (ht : s.threads[t]? = some (.publish device queue fence writes wanted))
    (hstep : Readback.advance s t answer (.publish device queue fence writes wanted) = some s') :
    Sound s' := by
  rw [Readback.advance] at hstep
  split at hstep
  case isTrue =>
    cases hstep
    exact h.goto hinv ht (forall_mem_nil _) (forall_mem_none _) (.of_none _) id trivial
  case isFalse =>
    obtain ⟨hwanted, hdevice, hfence⟩ := (h.position ht).here
    injection hstep with hstep
    have hrecord : ∀ x, s'.record x = if x = s.nextRecord then
        some ⟨device, queue, fence, s.nextSerial + 1, false, false, writes⟩ else s.record x := by
      intro x
      rw [← hstep, State.record, values_retain, values_create]
      rfl
    have hold : ∀ x v, x < s.nextRecord → s'.record x = some v → s.record x = some v := by
      intro x v hx hv
      rw [hrecord, if_neg (by omega)] at hv
      exact hv
    have haccepted : ∀ x ∈ s.accepted.map Submission.id, x < s.nextRecord := by
      intro x hx
      obtain ⟨sub, hsub, rfl⟩ := mem_map.mp hx
      exact (h.book.known sub hsub).id
    have htracked : ∀ w, Tracked s w → Tracked s' w := fun w hw =>
      hw.append (hstep ▸ rfl) ⟨[], by rw [← hstep, append_nil]; rfl⟩
    have q : Quiet s s' := by
      refine ⟨hstep ▸ rfl, hstep ▸ rfl, ?_, ?_, hstep ▸ rfl,
        ⟨[], by rw [← hstep, append_nil]; rfl⟩, htracked⟩
      · rw [← hstep]
        exact Nat.le_succ _
      · rw [← hstep]
        exact Nat.le_succ _
    have hregistry : s'.registry = s.nextRecord :: s.registry := by rw [← hstep]
    have hthreads : s'.threads = s.threads.set t
        (.submit ⟨s.nextRecord, device, queue, fence, s.nextSerial + 1, wanted⟩) := hstep ▸ rfl
    have hlisted : ∀ r, s.Listed r → s'.Listed r := fun r hr =>
      listed_move ht hthreads hr (fun hr => .inl (hregistry ▸ mem_cons_of_mem _ hr)) not_mem_nil.elim
    refine h.carried hinv q (hstep ▸ h.book.tables) (hstep ▸ rfl)
      (fun x v hv hx => ⟨v, hold x v (haccepted x hx) hv, rfl, rfl⟩) ?_ ?_
    · refine ⟨?_, ?_, ?_, ?_⟩
      · rw [q.accepted]
        exact fun sub hsub => (h.listing.unsettled sub hsub).imp (fun hs => hs.append q.log) (hlisted _)
      · rw [q.accepted, q.fences, hregistry]
        intro x hx hmarked y hy hqueue hserial hy'
        refine hlisted _ (h.listing.ordered x hx hmarked y hy hqueue hserial ?_)
        refine (mem_cons.mp hy').resolve_left ?_
        exact Nat.ne_of_lt (haccepted _ (mem_map_of_mem hy))
      · rw [q.accepted, hregistry]
        intro r hr
        rcases mem_cons.mp hr with rfl | hr
        · exact .inr ⟨_, hthreads ▸ mem_set_self ht, _, rfl, rfl⟩
        · exact (h.listing.submitted r hr).imp_right fun hf =>
            flying_move ht hthreads hf (forall_mem_none _)
      · intro r hr v hv
        rw [hrecord] at hv
        split at hv
        · cases hv
          rfl
        · rename_i hne
          rw [hregistry] at hr
          exact h.listing.unready r ((mem_cons.mp hr).resolve_left hne) v hv
    · refine h.calls.goto ht hthreads (fun j pc₁ hne hj => ?_) (.refl _) id (hstep ▸ rfl)
        (forall_mem_nil _) ?_
      · refine q.frame fun sub hsub hr => ⟨hregistry ▸ mem_cons_of_mem _ hr, fun v hv => ?_⟩
        refine hold _ v ?_ hv
        -- a registered record has an owner, so its address is not the fresh one
        refine Nat.lt_of_not_le fun hle => ?_
        have hzero := h.records.fresh _ hle
        exact count_eq_zero.mp hzero (mem_owners_registry hr)
      · refine ⟨⟨fun w hw => ⟨q.tracked w (hwanted w hw).1.1, (hwanted w hw).1.2⟩, fun v hv => ?_,
          ?_, ?_, ?_⟩, ?_, fun x hx _ => ?_, fun v hv => ?_, fun f hf => ?_⟩
        · rw [hrecord, if_pos rfl] at hv
          cases hv
          exact ⟨rfl, rfl, rfl, rfl, fun w hw => (hwanted w hw).2⟩
        · rw [← hstep]
        · rw [← hstep]
          exact Nat.lt_succ_self _
        · rw [q.devices]
          exact hdevice
        · rw [hregistry]
          exact mem_cons_self
        · rw [q.accepted] at hx
          exact Nat.lt_succ_of_le (h.book.known x hx).serial
        · rw [hrecord, if_pos rfl] at hv
          cases hv
          rfl
        · rw [q.fences]
          exact hfence f hf

/-- The driver has accepted the submission, with a fence or without. -/
def State.accepting (s : State) (sub : Submission) : State :=
  { s with
    accepted := sub :: s.accepted
    fences := fun d x => if d = sub.device ∧ sub.fence = some x then .pending sub.id else s.fences d x }

theorem accept_eq (s : State) (sub : Submission) : s.accept sub = s.accepting sub := by
  rw [State.accept, State.accepting]
  cases hfence : sub.fence with
  | none => simp
  | some f => simp [State.setFence, eq_comm]

/-- A fence stands for what it stood for, or for the new submission. -/
theorem standsFor_accepting {d : Device} {id : Nat} (hf : ((s.accepting sub).fences d f).StandsFor id) :
    (id = sub.id ∧ d = sub.device ∧ sub.fence = some f) ∨ (s.fences d f).StandsFor id := by
  simp only [State.accepting] at hf
  split at hf
  case isTrue hkey => exact .inl ⟨(FenceState.pending.inj (hf.resolve_right (by simp))).symm, hkey⟩
  case isFalse => exact .inr hf

section
variable (hfly : InFlight s sub)
include hfly

/-- The fence that changes was unsignaled. -/
theorem InFlight.fences_accepting {d : Device} (hne : s.fences d f ≠ .unsignaled) :
    (s.accepting sub).fences d f = s.fences d f :=
  if_neg fun ⟨hd, hf⟩ => hne (hd ▸ hfly.unsignaled f hf)

/-- Later submissions do not count for earlier ones. -/
theorem InFlight.done {x : Submission} (hx : x ∈ s.accepted) (hdone : Done s x) :
    Done ((s.accepting sub).goto t pc) x := by
  intro y hy hqueue hserial
  rcases mem_cons.mp hy with rfl | hy
  · have := hfly.later x hx hqueue.symm
    omega
  · exact hdone y hy hqueue hserial

variable (h : Sound s)
include h

theorem Sound.accept_book : Book ((s.accepting sub).goto t pc) := by
  refine ⟨h.book.tables, h.book.recordings, h.book.handles, nodup_cons.mpr ⟨fun hm => ?_,
    h.book.ids⟩, pairwise_cons.mpr ⟨hfly.later, h.book.ordered⟩, fun x hx => ?_⟩
  · obtain ⟨x, hx, hid⟩ := mem_map.mp hm
    exact h.not_accepted hfly hx hid
  · have hknown := forall_mem_cons.mpr ⟨hfly.known, h.book.known⟩ x hx
    exact ⟨hknown.tracked, hknown.record, hknown.serial, hknown.id, hknown.device⟩

/-- No fence stands for a submission in flight. -/
theorem Sound.not_standsFor (d : Device) (f : Nat) : ¬ (s.fences d f).StandsFor sub.id := by
  intro hf
  obtain ⟨x, hx, hid⟩ := h.fenced.known d f _ hf
  exact h.not_accepted hfly hx hid

theorem Sound.accept_fenced : Fenced ((s.accepting sub).goto t pc) := by
  refine ⟨fun d f id hf => ?_, fun x hx d f hf => ?_, fun x hx v f hv hf => ?_, fun x hx d f hf => ?_⟩
  · rcases standsFor_accepting hf with ⟨rfl, -⟩ | hf
    · exact ⟨sub, mem_cons_self, rfl⟩
    · obtain ⟨x, hx, hid⟩ := h.fenced.known d f id hf
      exact ⟨x, mem_cons_of_mem _ hx, hid⟩
  · have hold : s.fences d f = .signaled (some x.id) := by
      change ite _ _ _ = _ at hf
      split at hf
      · cases hf
      · exact hf
    rcases mem_cons.mp hx with rfl | hx
    · exact absurd (.inr hold) (h.not_standsFor hfly d f)
    · exact hfly.done hx (h.fenced.signaled x hx d f hold)
  · rcases mem_cons.mp hx with rfl | hx
    · exact .inl (.inl (if_pos ⟨rfl, (hfly.fence v hv).symm.trans hf⟩))
    · refine (h.fenced.marker x hx v f hv hf).imp (fun hm => ?_) (hfly.done hx)
      have hne : s.fences x.device f ≠ .unsignaled := fun hu => by simp [FenceState.StandsFor, hu] at hm
      exact (hfly.fences_accepting hne).symm ▸ hm
  · rcases mem_cons.mp hx with rfl | hx
    · obtain ⟨-, hkey⟩ := (standsFor_accepting hf).resolve_right (h.not_standsFor hfly d f)
      exact ⟨hkey, fun v hv => (hfly.fence v hv).trans hkey.2⟩
    · refine h.fenced.fence x hx d f ((standsFor_accepting hf).resolve_left fun hkey => ?_)
      exact h.not_accepted hfly hx hkey.1

theorem Sound.accept_listing (ht : s.threads[t]? = some (.submit sub)) :
    Listing ((s.accepting sub).goto t (.drop sub 1)) := by
  have hlisted : ∀ r, s.Listed r → State.Listed ((s.accepting sub).goto t (.drop sub 1)) r := fun r hr =>
    listed_move ht rfl hr .inl not_mem_nil.elim
  refine ⟨fun x hx => ?_, fun x hx hmarked y hy hqueue hserial hy' => ?_, fun r hr => ?_,
    h.listing.unready⟩
  · rcases mem_cons.mp hx with rfl | hx
    · exact .inr (hlisted _ (.inl hfly.registered))
    · exact (h.listing.unsettled x hx).imp_right (hlisted _)
  · rcases mem_cons.mp hx with rfl | hold
    · exact hlisted _ (.inl hfly.registered)
    · rcases mem_cons.mp hy with rfl | hy
      · have := hfly.later x hold hqueue.symm
        omega
      · obtain ⟨f, hf, hstands⟩ := hmarked
        refine hlisted _ (h.listing.ordered x hold ⟨f, hf, ?_⟩ y hy hqueue hserial hy')
        exact (standsFor_accepting hstands).resolve_left fun hkey => h.not_accepted hfly hold hkey.1
  · rcases h.listing.submitted r hr with ⟨x, hx, hid⟩ | hf
    · exact .inl ⟨x, mem_cons_of_mem _ hx, hid⟩
    · by_cases hr' : sub.id = r
      · exact .inl ⟨sub, mem_cons_self, hr'⟩
      · refine .inr (flying_move ht rfl hf fun x hx hid => ?_)
        cases hx
        exact absurd hid hr'

omit h in
/-- The queue and the fence of the submission are not used by the other call. -/
theorem InFlight.frame {pc₁ : Pc} (hapart : (Pc.submit sub).uses.Apart pc₁.uses) :
    Frame s ((s.accepting sub).goto t pc) pc₁ := by
  have hother : ∀ k, k ∈ pc₁.uses.submitted ∨ k ∈ pc₁.uses.resetting →
      (s.accepting sub).fences k.1 k.2 = s.fences k.1 k.2 := by
    refine fun k hk => if_neg ?_
    rintro ⟨hd, hf⟩
    have hmem : k ∈ (Pc.submit sub).uses.submitted :=
      mem_map.mpr ⟨k.2, mem_toList.mpr hf, by rw [← hd]⟩
    exact hk.elim (hapart.submitted k hmem).1 (hapart.submitted k hmem).2
  refine ⟨fun x hx => mem_cons_of_mem _ hx, fun x hx => ?_, ⟨[], (append_nil _).symm⟩,
    fun _ hw => hw, fun x hx => hfly.done hx, List.Subset.refl _, Nat.le_refl _, Nat.le_refl _,
    fun k hk hu => (hother k hk).trans hu, fun k id _ hsig => ?_,
    fun k hk hp => (congrArg _ (hother k (.inr hk))).trans hp, fun x _ hr => ⟨hr, fun _ hv => hv⟩⟩
  · rcases mem_cons.mp hx with rfl | hx
    · exact .inr fun k hk hoverlap => hapart.queues _ rfl k hk hoverlap.symm
    · exact .inl hx
  · exact (hfly.fences_accepting (by simp [hsig])).trans hsig

end

/-- The fences stand for less than before. -/
theorem Submission.Marked.back {fences : Device → Nat → FenceState} (h : sub.Marked fences)
    (hback : ∀ d f id, (fences d f).StandsFor id → (s.fences d f).StandsFor id) : sub.Marked s.fences := by
  obtain ⟨f, hf, hstands⟩ := h
  exact ⟨f, hf, hback _ f _ hstands⟩

theorem Frame.fences {fences : Device → Nat → FenceState} {threads : List Pc}
    (hunsignaled : ∀ k, k ∈ pc.uses.submitted ∨ k ∈ pc.uses.resetting →
      s.fences k.1 k.2 = .unsignaled → fences k.1 k.2 = .unsignaled)
    (hsignaled : ∀ k id, k ∈ pc.uses.waiting ∨ k ∈ pc.uses.resetting →
      s.fences k.1 k.2 = .signaled id → fences k.1 k.2 = .signaled id)
    (hsettled : ∀ k ∈ pc.uses.resetting,
      (s.fences k.1 k.2).isPending = false → (fences k.1 k.2).isPending = false) :
    Frame s { s with fences := fences, threads := threads } pc :=
  ⟨fun _ hs => hs, fun _ hx => .inl hx, ⟨[], (append_nil _).symm⟩, fun _ hw => hw, fun _ _ hd => hd,
    List.Subset.refl _, Nat.le_refl _, Nat.le_refl _, hunsignaled, hsignaled, hsettled,
    fun _ _ hr => ⟨hr, fun _ hv => hv⟩⟩

section
variable {after : Device → Nat → FenceState} (h : Sound s)
include h

theorem Sound.accept (hinv : Inv ((s.accept sub).goto t (.drop sub 1)))
    (ht : s.threads[t]? = some (.submit sub)) : Sound ((s.accept sub).goto t (.drop sub 1)) := by
  have hfly : InFlight s sub := (h.position ht).here
  rw [accept_eq] at hinv ⊢
  refine ⟨hinv, h.accept_book hfly, h.accept_fenced hfly, h.accept_listing hfly ht, ?_⟩
  refine h.calls.goto ht rfl (fun j pc₁ hne hj => hfly.frame ?_) (.of_none _) id rfl
    (forall_mem_nil _) trivial
  exact h.calls.apart t j _ pc₁ (Ne.symm hne) ht hj

theorem Sound.reject (hinv : Inv s') (ht : s.threads[t]? = some (.reject sub))
    (hstep : Readback.advance s t answer (.reject sub) = some s') : Sound s' := by
  have hfly : InFlight s sub := (h.position ht).here
  have halive : ∀ r ∈ sub.id :: s.registry, s.alive r = true := by
    intro r hr
    rcases mem_cons.mp hr with rfl | hr
    · exact h.records.alive (mem_owners_registry hfly.registered)
    · exact h.records.alive (mem_owners_registry hr)
  rw [Readback.advance, access_eq _ halive, if_pos hfly.registered] at hstep
  cases hstep
  have hrecord : ∀ x v, x ≠ sub.id → values (modify s.heap sub.id Record.cancel) x = some v →
      s.record x = some v := fun x v hx hv => (if_neg hx).symm.trans ((values_modify ..).symm.trans hv)
  have hgone : ∀ r ∈ s.registry.erase sub.id, r ≠ sub.id := by
    rintro r hr rfl
    have hpos := count_pos_iff.mpr hr
    have honce := h.records.once sub.id
    rw [count_erase_self] at hpos
    rw [State.listed, count_append] at honce
    omega
  refine h.carried hinv (.of_eq rfl) h.book.tables rfl (fun x v hv hx => ?_)
    (h.listing.of_quiet (.of_eq rfl) (fun r => mem_of_mem_erase) (fun x hx hl => ?_) (fun r hr hf => ?_)
      fun r hr v hv => ⟨v, hrecord r v (hgone r hr) hv, rfl⟩) ?_
  · obtain ⟨y, hy, rfl⟩ := mem_map.mp hx
    exact ⟨v, hrecord _ v (h.not_accepted hfly hy) hv, rfl, rfl⟩
  · exact listed_move ht rfl hl (fun hr => .inl ((mem_erase_of_ne (h.not_accepted hfly hx)).mpr hr))
      not_mem_nil.elim
  · refine flying_move ht rfl hf fun x hx hid => ?_
    cases hx
    exact absurd hid.symm (hgone r hr)
  · refine h.calls.goto ht rfl (fun j pc₁ hne hj => Quiet.frame (.of_eq rfl) fun x hx hr => ?_)
      (.of_none _) id rfl (forall_mem_nil _) trivial
    have hxne : x.id ≠ sub.id := h.inFlight_ne hne hj ht hx rfl
    exact ⟨(mem_erase_of_ne hxne).mpr hr, fun v hv => hrecord _ v hxne hv⟩

theorem Sound.drop {count : Nat} (hinv : Inv s') (ht : s.threads[t]? = some (.drop sub count))
    (hstep : Readback.advance s t answer (.drop sub count) = some s') : Sound s' := by
  have hcount : count ≠ 0 := fun h0 => h.records.dropping sub (h0 ▸ mem_of_getElem? ht)
  have halive : ∀ r ∈ [sub.id], s.alive r = true :=
    forall_mem_singleton.mpr
      (h.records.alive (mem_owners_thread ht (.inr (mem_replicate.mpr ⟨hcount, rfl⟩))))
  rw [Readback.advance, access_eq _ halive] at hstep
  cases hstep
  have hpc : ∀ pc, pc = (if count ≤ 1 then .idle else .drop sub (count - 1)) →
      pc.uses = {} ∧ pc.locked = false ∧ ∀ s, Local s pc := by
    rintro pc rfl
    split
    · exact ⟨rfl, rfl, fun _ => trivial⟩
    · exact ⟨rfl, rfl, fun _ => trivial⟩
  obtain ⟨huses, hlocked, hlocal⟩ := hpc _ rfl
  refine h.quiet hinv ht rfl (.of_eq rfl) h.book.tables rfl rfl (fun _ _ => values_release_some)
    (forall_mem_nil _) (forall_mem_none _) (h.calls.goto ht rfl (fun j pc₁ _ _ => ?_) ?_ (fun hl => ?_) rfl
      (forall_mem_nil _) (hlocal _))
  · exact Quiet.frame (.of_eq rfl) fun x _ hr => ⟨hr, fun v hv => values_release_some hv⟩
  · rw [huses]
    exact .of_none _
  · rw [hlocked] at hl
    cases hl

/-! ## Devices and fences -/

theorem Sound.createDevice (hinv : Inv { s with devices := device :: s.devices })
    (hvalid : Valid s (.createDevice device)) : Sound { s with devices := device :: s.devices } := by
  have hsub : s.devices ⊆ device :: s.devices := subset_cons_self _ _
  refine ⟨hinv, ⟨h.book.tables, h.book.recordings, ?_, h.book.ids, h.book.ordered,
    fun sub hs => ?_⟩, ⟨h.fenced.known, h.fenced.signaled, h.fenced.marker, h.fenced.fence⟩,
    ⟨h.listing.unsettled, h.listing.ordered, h.listing.submitted, h.listing.unready⟩,
    h.calls.outside rfl rfl fun pc _ => ?_⟩
  · refine nodup_cons.mpr ⟨fun hm => ?_, h.book.handles⟩
    obtain ⟨d, hd, heq⟩ := mem_map.mp hm
    exact hvalid d hd heq
  · have hknown := h.book.known sub hs
    exact ⟨hknown.tracked, hknown.record, hknown.serial, hknown.id, hsub hknown.device⟩
  · exact ⟨fun _ hs => hs, fun _ hx => .inl hx, ⟨[], (append_nil _).symm⟩, fun _ hw => hw, fun _ _ hd => hd,
      hsub, Nat.le_refl _, Nat.le_refl _, fun _ _ hk => hk, fun _ _ _ hk => hk, fun _ _ hk => hk,
      fun _ _ hr => ⟨hr, fun _ hv => hv⟩⟩

/-- The fences and the threads change. -/
theorem Sound.fences_book {threads : List Pc} : Book { s with fences := after, threads := threads } := by
  refine ⟨h.book.tables, h.book.recordings, h.book.handles, h.book.ids, h.book.ordered, fun sub hs => ?_⟩
  have hknown := h.book.known sub hs
  exact ⟨hknown.tracked, hknown.record, hknown.serial, hknown.id, hknown.device⟩

section
variable (hback : ∀ d f id, (after d f).StandsFor id → (s.fences d f).StandsFor id)
  (hdone : ∀ sub ∈ s.accepted, ∀ d f, after d f = .signaled (some sub.id) → Done s sub)
  (hmarker : ∀ sub ∈ s.accepted, ∀ v f, s.record sub.id = some v → v.fence = some f →
    (after sub.device f).StandsFor sub.id ∨ Done s sub)
include hback hdone hmarker

theorem Sound.fences_fenced {threads : List Pc} : Fenced { s with fences := after, threads := threads } :=
  ⟨fun d x id hid => h.fenced.known d x id (hback d x id hid), hdone, hmarker,
    fun sub hsub d x hx => h.fenced.fence sub hsub d x (hback d x _ hx)⟩

/-- Only the fences change, and those that other calls rely on stay. -/
theorem Sound.fences (hinv : Inv { s with fences := after })
    (hunsignaled : ∀ d f, s.fences d f = .unsignaled → after d f = .unsignaled)
    (hsignaled : ∀ d f id, s.fences d f = .signaled id → after d f = .signaled id)
    (hsettled : ∀ d f, (s.fences d f).isPending = false → (after d f).isPending = false) :
    Sound { s with fences := after } := by
  refine ⟨hinv, h.fences_book, h.fences_fenced hback hdone hmarker,
    ⟨h.listing.unsettled, fun x hx hmarked => h.listing.ordered x hx (hmarked.back hback),
      h.listing.submitted, h.listing.unready⟩, h.calls.outside rfl rfl fun pc _ => ?_⟩
  exact .fences (fun k _ hk => hunsignaled k.1 k.2 hk) (fun k id _ hk => hsignaled k.1 k.2 id hk)
    fun k _ hk => hsettled k.1 k.2 hk

end

/-- A fence that is neither unsignaled nor signaled changes and stands for the same submission. -/
theorem Sound.setFence {state : FenceState} (hinv : Inv (s.setFence device f state))
    (hstands : ∀ i, state.StandsFor i ↔ (s.fences device f).StandsFor i)
    (hdone : ∀ sub ∈ s.accepted, state = .signaled (some sub.id) → Done s sub)
    (hunsignaled : s.fences device f ≠ .unsignaled) (hsignaled : ∀ i, s.fences device f ≠ .signaled i)
    (hpending : state.isPending = false) : Sound (s.setFence device f state) := by
  have hcases : ∀ d x, ((s.setFence device f state).fences d x = state ∧ d = device ∧ x = f) ∨
      (s.setFence device f state).fences d x = s.fences d x := by
    intro d x
    by_cases hkey : d = device ∧ x = f
    · exact .inl ⟨if_pos hkey, hkey⟩
    · exact .inr (if_neg hkey)
  have hiff : ∀ d x i, ((s.setFence device f state).fences d x).StandsFor i ↔
      (s.fences d x).StandsFor i := by
    intro d x i
    rcases hcases d x with ⟨hx, rfl, rfl⟩ | hx
    · rw [hx]
      exact hstands i
    · rw [hx]
  refine h.fences (fun d x i => (hiff d x i).mp) (fun sub hsub d x hs => ?_)
    (fun sub hsub v x hv hx => (h.fenced.marker sub hsub v x hv hx).imp_left (hiff _ _ _).mpr) hinv
    (fun d x hu => ?_) (fun d x i hs => ?_) fun d x hp => ?_
  · rcases hcases d x with ⟨hx, -⟩ | hx
    · exact hdone sub hsub (hx.symm.trans hs)
    · exact h.fenced.signaled sub hsub d x (hx.symm.trans hs)
  · rcases hcases d x with ⟨-, rfl, rfl⟩ | hx
    · exact absurd hu hunsignaled
    · exact hx.trans hu
  · rcases hcases d x with ⟨-, rfl, rfl⟩ | hx
    · exact absurd hs (hsignaled i)
    · exact hx.trans hs
  · rcases hcases d x with ⟨hx, -⟩ | hx
    · exact (congrArg _ hx).trans hpending
    · exact (congrArg _ hx).trans hp

theorem Sound.createFence {state : FenceState} (hinv : Inv (s.setFence device f state))
    (habsent : s.fences device f = .absent) (hstate : state = .unsignaled ∨ state = .signaled none) :
    Sound (s.setFence device f state) := by
  have hnone : (∀ i, ¬ state.StandsFor i) ∧ state.isPending = false := by
    rcases hstate with rfl | rfl <;> simp [FenceState.StandsFor, FenceState.isPending]
  refine h.setFence hinv (fun i => iff_of_false (hnone.1 i) ?_) (fun sub _ hs => ?_) ?_ ?_ hnone.2
  · simp [FenceState.StandsFor, habsent]
  · exact absurd (.inr hs) (hnone.1 sub.id)
  · simp [habsent]
  · simp [habsent]

theorem Sound.signal {id : Nat} (hinv : Inv (s.setFence device f (.signaled (some id))))
    (hvalid : Valid s (.signal device f)) (hpending : s.fences device f = .pending id) :
    Sound (s.setFence device f (.signaled (some id))) := by
  refine h.setFence hinv (fun i => ?_) (fun sub hsub hs => ?_) ?_ ?_ rfl
  · rw [hpending]
    simp [FenceState.StandsFor]
  · -- the driver signals a fence when everything before it has completed
    cases hs
    intro y hy hqueue hserial
    exact hvalid sub hsub hpending y ((h.book.mem_upTo hsub).mpr ⟨hy, hqueue, hserial⟩)
  · simp [hpending]
  · simp [hpending]

theorem Sound.logged (events : List Event) : Sound { s with log := s.log ++ events } := by
  have htracked : ∀ w, Tracked s w → Tracked { s with log := s.log ++ events } w := fun w hw =>
    hw.append rfl ⟨_, rfl⟩
  exact h.outside (h.records.other rfl) rfl
    ⟨rfl, rfl, Nat.le_refl _, Nat.le_refl _, rfl, ⟨_, rfl⟩, htracked⟩ h.book.tables
    (fun r hr w hw => htracked w (h.book.recordings r hr w hw)) rfl rfl rfl

/-- The driver resets fences: what they stood for has completed. -/
theorem Sound.reset {fences : List Nat}
    (hinv : Inv ((s.setFences device fences .unsignaled).goto t (.forget device fences)))
    (ht : s.threads[t]? = some (.resetFences device fences)) :
    Sound ((s.setFences device fences .unsignaled).goto t (.forget device fences)) := by
  obtain ⟨hdevice, hsettled⟩ := h.position ht
  have hcases : ∀ d x, ((s.setFences device fences .unsignaled).fences d x = .unsignaled ∧
      d = device ∧ x ∈ fences) ∨ (s.setFences device fences .unsignaled).fences d x = s.fences d x := by
    intro d x
    by_cases hkey : d = device ∧ x ∈ fences
    · exact .inl ⟨if_pos hkey, hkey⟩
    · exact .inr (if_neg hkey)
  have hback : ∀ d x i, ((s.setFences device fences .unsignaled).fences d x).StandsFor i →
      (s.fences d x).StandsFor i := by
    intro d x i hi
    rcases hcases d x with ⟨hx, -⟩ | hx
    · simp [FenceState.StandsFor, hx] at hi
    · exact hx ▸ hi
  have hlisted : ∀ r, s.Listed r → State.Listed
      ((s.setFences device fences .unsignaled).goto t (.forget device fences)) r := fun r hr =>
    listed_move ht rfl hr .inl not_mem_nil.elim
  refine ⟨hinv, h.fences_book,
    h.fences_fenced hback (fun sub hsub d x hs => ?_) fun sub hsub v x hv hx => ?_,
    ⟨fun sub hsub => (h.listing.unsettled sub hsub).imp_right (hlisted _),
      fun x hx hmarked y hy hqueue hserial hr =>
        hlisted _ (h.listing.ordered x hx (hmarked.back hback) y hy hqueue hserial hr),
      fun r hr => (h.listing.submitted r hr).imp_right fun hf => flying_move ht rfl hf (forall_mem_none _),
      h.listing.unready⟩, ?_⟩
  · rcases hcases d x with ⟨hx, -⟩ | hx
    · cases hx.symm.trans hs
    · exact h.fenced.signaled sub hsub d x (hx.symm.trans hs)
  · rcases hcases sub.device x with ⟨-, hd, hmem⟩ | heq
    · have hnot := hsettled (device, x) (mem_keys hmem)
      rw [← hd] at hnot
      rcases h.fenced.marker sub hsub v x hv hx with (hm | hm) | hm
      · rw [hm] at hnot
        cases hnot
      · exact .inr (h.fenced.signaled sub hsub _ _ hm)
      · exact .inr hm
    · exact (h.fenced.marker sub hsub v x hv hx).imp_left fun hm => heq ▸ hm
  · refine h.calls.goto ht rfl (fun j pc₁ hne hj => ?_) (.refl _) id rfl (fun k hk _ => ?_)
      ⟨hdevice, fun f hf => if_pos ⟨rfl, hf⟩⟩
    · have hapart := h.calls.apart t j _ pc₁ (Ne.symm hne) ht hj
      refine .fences (fun k _ hu => ?_) (fun k id hk hs => ?_) fun k _ hp => ?_
      · exact (hcases k.1 k.2).elim And.left fun hx => hx.trans hu
      · refine (if_neg ?_).trans hs
        rintro ⟨hd, hmem⟩
        have hreset := hapart.resetting k (mem_map.mpr ⟨k.2, hmem, by rw [← hd]⟩)
        exact hk.elim hreset.2.2 hreset.2.1
      · rcases hcases k.1 k.2 with ⟨hx, -⟩ | hx
        · exact congrArg _ hx
        · exact (congrArg _ hx).trans hp
    · obtain ⟨x, hx, rfl⟩ := mem_map.mp hk
      exact congrArg _ (if_pos ⟨rfl, hx⟩)

/-- The fences of the records are forgotten after the driver has reset them. -/
theorem Sound.forget {fences : List Nat} (hinv : Inv s') (ht : s.threads[t]? = some (.forget device fences))
    (hstep : Readback.advance s t answer (.forget device fences) = some s') : Sound s' := by
  obtain ⟨⟨hdevice, hreset⟩, -⟩ := h.position ht
  have halive : ∀ r ∈ s.registry, s.alive r = true := fun r hr => h.records.alive (mem_owners_registry hr)
  rw [Readback.advance, access_eq _ halive] at hstep
  cases hstep
  -- a record is as before, or its fence was one of those
  have hrecord : ∀ x v', (forgetFences s device fences).record x = some v' → ∃ v,
      s.record x = some v ∧ (v'.core = v.core ∧ v'.ready = v.ready) ∧
      (v' = v ∨ v'.fence = none ∧ v.device.handle = device.handle ∧ ∃ f ∈ fences, v.fence = some f) := by
    intro x v' hv'
    change values
      (modifyAll s.heap Record.forgetFence (s.registry.filter (s.forgotten device fences))) x = _ at hv'
    rw [values_modifyAll (f := Record.forgetFence) (fun _ => rfl)] at hv'
    split at hv'
    case isTrue hx =>
      obtain ⟨v, hv, rfl⟩ := map_eq_some_iff.mp hv'
      have hforgotten := (mem_filter.mp hx).2
      rw [State.forgotten, show s.record x = some v from hv] at hforgotten
      obtain ⟨hhandle, hany⟩ := of_decide_eq_true hforgotten
      obtain ⟨f, hf, hfence⟩ := any_eq_true.mp hany
      exact ⟨v, hv, ⟨rfl, rfl⟩, .inr ⟨rfl, hhandle, f, hf, of_decide_eq_true hfence⟩⟩
    case isFalse => exact ⟨v', hv', ⟨rfl, rfl⟩, .inl rfl⟩
  have hsame : ∀ d ∈ s.devices, d.handle = device.handle → d = device := fun d hd heq =>
    inj_on_of_nodup_map h.book.handles hd hdevice heq
  refine ⟨hinv, h.book.of_quiet (.of_eq rfl) h.book.tables h.book.recordings fun x v' hv' _ => ?_,
    ⟨h.fenced.known, h.fenced.signaled, fun sub hsub v' f hv' hf => ?_, fun sub hsub d f hf => ?_⟩,
    h.listing.of_quiet (.of_eq rfl) (fun r hr => hr)
      (fun sub _ hl => listed_move ht rfl hl .inl not_mem_nil.elim)
      (fun r _ hf => flying_move ht rfl hf (forall_mem_none _)) fun r _ v' hv' => ?_,
    h.calls.goto ht rfl (fun j pc₁ hne hj => Quiet.frame (.of_eq rfl) fun sub hsub hr => ?_)
      (.of_none _) id rfl (fun _ _ hk => hk) (by intro _ _ h; cases h)⟩
  · obtain ⟨v, hv, hcore, -⟩ := hrecord x v' hv'
    exact ⟨v, hv, hcore.1⟩
  · obtain ⟨v, hv, -, rfl | ⟨hnone, -⟩⟩ := hrecord _ v' hv'
    · exact h.fenced.marker sub hsub v' f hv hf
    · cases hnone.symm.trans hf
  · obtain ⟨hd, hmarker⟩ := h.fenced.fence sub hsub d f hf
    refine ⟨hd, fun v' hv' => ?_⟩
    obtain ⟨v, hv, -, rfl | ⟨-, hhandle, g, hg, hfence⟩⟩ := hrecord _ v' hv'
    · exact hmarker v' hv
    · -- the fence is one that was reset, so it stands for nothing
      have hgf : g = f := Option.some.inj (hfence.symm.trans (hmarker v hv))
      rw [hgf] at hg
      have hknown := h.book.known sub hsub
      rw [(hknown.record v hv).device] at hhandle
      have hunsignaled := hreset f hg
      rw [← hsame _ hknown.device hhandle, ← hd.1] at hunsignaled
      exact absurd (hunsignaled ▸ hf) (by simp [FenceState.StandsFor])
  · obtain ⟨v, hv, hcore, -⟩ := hrecord r v' hv'
    exact ⟨v, hv, hcore.2⟩
  · refine ⟨hr, fun v' hv' => ?_⟩
    obtain ⟨v, hv, -, rfl | ⟨-, hhandle, g, hg, hfence⟩⟩ := hrecord _ v' hv'
    · exact hv
    · -- another call would be submitting a fence that this one resets
      obtain ⟨hfly, huses⟩ := h.inFlight (mem_of_getElem? hj) hsub
      rw [(hfly.known.record v hv).device] at hhandle
      have hkey : (device, g) ∈ pc₁.uses.submitted := by
        rw [huses, ← hsame _ hfly.known.device hhandle]
        exact mem_keys (mem_toList.mpr ((hfly.fence v hv).symm.trans hfence))
      have hapart := h.calls.apart t j _ pc₁ (Ne.symm hne) ht hj
      exact absurd hkey (hapart.resetting (device, g) (mem_keys hg)).1

end

end Readback
