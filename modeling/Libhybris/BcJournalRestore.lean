import Libhybris.BcJournal
import Mathlib.Tactic

/-!
# What the journal restores

Every record of a saved command is alive, because the references of a record are counted by the
ownership list and the journal. So the journal replays, with clones of the same layouts, exactly
what the application recorded: the pipeline, the sets and the bytes of the compute stage come back
in every recording. The pushes are replayed in two passes, though, and the bytes of the other
stages come back exactly when no push without the compute stage came later and wrote other bytes.
-/
namespace BcJournal

open Vulkan LastWriter List Option

/-! ## References of layouts -/

variable {i : Nat}

namespace Layouts

variable {Info : Type} {ls : Layouts Info} {held : List Nat}

/-- Each record has one reference for its place in the list and one for each saved command. -/
structure Counted (ls : Layouts Info) (held : List Nat) : Prop where
  fresh : ∀ i, ls.next ≤ i → ls.record i = none
  references : ∀ i, ((ls.record i).elim 0 Layout.references) = ls.listed.count i + held.count i

theorem Counted.empty : Counted (Layouts.empty : Layouts Info) [] where
  fresh _ _ := rfl
  references _ := rfl

theorem find_spec {handle : Handle} {l : Layout Info} (h : ls.find handle = some (i, l)) :
    i ∈ ls.listed ∧ ls.record i = some l := by
  obtain ⟨j, hj, hfound⟩ := exists_of_findSome?_eq_some h
  obtain ⟨l', hl', hif⟩ := bind_eq_some_iff.mp hfound
  split at hif
  · cases hif
    exact ⟨hj, hl'⟩
  · cases hif

theorem Counted.alive (hc : Counted ls held) (hi : i ∈ held) : ∃ l, ls.record i = some l := by
  have hcount := count_pos_iff.mpr hi
  have href := hc.references i
  cases hrec : ls.record i with
  | none =>
    rw [hrec, elim_none] at href
    omega
  | some l => exact ⟨l, rfl⟩

theorem Counted.lt_next (hc : Counted ls held) {l : Layout Info} (hl : ls.record i = some l) :
    i < ls.next := by
  by_contra hge
  rw [hc.fresh i (by omega)] at hl
  cases hl

theorem add_self (handle clone : Handle) (info : Info) :
    (ls.add handle clone info).record ls.next = some ⟨handle, clone, info, 1⟩ := setRecord_self ..

theorem add_of_ne (handle clone : Handle) (info : Info) (hi : i ≠ ls.next) :
    (ls.add handle clone info).record i = ls.record i := setRecord_of_ne _ _ hi

section
variable (hc : Counted ls held)
include hc

theorem Counted.add (handle clone : Handle) (info : Info) : Counted (ls.add handle clone info) held where
  fresh i hi := by
    have hi' : ls.next + 1 ≤ i := hi
    rw [add_of_ne _ _ _ (by omega)]
    exact hc.fresh i (by omega)
  references i := by
    have href := hc.references i
    by_cases hi : i = ls.next
    · subst hi
      rw [hc.fresh _ le_rfl, elim_none] at href
      rw [add_self]
      change 1 = (ls.next :: ls.listed).count ls.next + _
      rw [count_cons_self]
      omega
    · rw [add_of_ne _ _ _ hi, href]
      change _ = (ls.next :: ls.listed).count i + _
      rw [count_cons_of_ne (Ne.symm hi)]

theorem info_add (handle clone : Handle) (info : Info) (hi : i ∈ held) :
    (ls.add handle clone info).info i = ls.info i := by
  obtain ⟨l, hl⟩ := hc.alive hi
  rw [Layouts.info, Layouts.info, add_of_ne _ _ _ (hc.lt_next hl).ne]

theorem Counted.remove (handle : Handle) : Counted (ls.remove handle) held := by
  rw [Layouts.remove]
  split
  · exact hc
  · next i l hfind =>
    obtain ⟨hlisted, hrec⟩ := find_spec hfind
    have hcount := count_pos_iff.mpr hlisted
    constructor
    · intro j hj
      rw [release, setRecord_of_ne _ _ ((hc.lt_next hrec).trans_le hj).ne']
      exact hc.fresh j hj
    · intro j
      have href := hc.references j
      rw [release, setRecord_listed]
      by_cases hj : j = i
      · subst hj
        rw [hrec, elim_some] at href
        rw [setRecord_self, count_erase_self]
        split
        · rw [elim_none]
          omega
        · rw [elim_some]
          dsimp only
          omega
      · rw [setRecord_of_ne _ _ hj, count_erase_of_ne hj]
        exact href

/-- A layout that is destroyed by the application leaves the records of saved commands alone. -/
theorem info_remove (handle : Handle) (hi : i ∈ held) : (ls.remove handle).info i = ls.info i := by
  rw [Layouts.remove]
  split
  · rfl
  · next j l hfind =>
    obtain ⟨hlisted, hrec⟩ := find_spec hfind
    rw [Layouts.info, Layouts.info, release]
    by_cases hj : i = j
    · subst hj
      have hcount := count_pos_iff.mpr hlisted
      have hheld := count_pos_iff.mpr hi
      have href := hc.references i
      rw [hrec, elim_some] at href
      rw [setRecord_self, if_neg (by omega), hrec]
      rfl
    · rw [setRecord_of_ne _ _ hj]

theorem acquire_spec {handle : Handle} {ls' : Layouts Info} (h : ls.acquire handle = .ok (i, ls')) :
    ∃ l, ls.find handle = some (i, l) ∧ Counted ls' (held ++ [i]) ∧ ls'.info i = some l.info ∧
      ∀ j ∈ held, ls'.info j = ls.info j := by
  rw [acquire] at h
  split at h
  · cases h
  · next j l hfind =>
    split at h
    · cases h
    cases h
    obtain ⟨-, hrec⟩ := find_spec hfind
    refine ⟨l, hfind, ⟨fun k hk => ?_, fun k => ?_⟩, ?_, fun k _ => ?_⟩
    · rw [setRecord_of_ne _ _ ((hc.lt_next hrec).trans_le hk).ne']
      exact hc.fresh k hk
    · have href := hc.references k
      rw [count_append, setRecord_listed]
      by_cases hk : k = i
      · subst hk
        rw [hrec, elim_some] at href
        rw [setRecord_self, elim_some, count_singleton_self]
        dsimp only
        omega
      · rw [setRecord_of_ne _ _ hk, count_singleton, if_neg (by simpa using Ne.symm hk)]
        exact href
    · rw [Layouts.info, setRecord_self]
      rfl
    · rw [Layouts.info, Layouts.info]
      by_cases hk : k = i
      · subst hk
        rw [setRecord_self, hrec]
        rfl
      · rw [setRecord_of_ne _ _ hk]

end

end Layouts

/-! ## What a list of commands does to the driver -/

section Driver

variable {Info : Type} (dynamic : Handle → Nat)

def Command.pushWrite (c : Command Info) : Fin 32 × Nat → Option UInt8 :=
  c.push?.elim (fun _ => none) Push.write

theorem apply_none {κ β : Type} (m : κ → Option β) : LastWriter.apply m (fun _ => none) = m := by
  funext k
  exact none_or

section
variable (b : Bindings Info)

theorem exec_sets (c : Command Info) :
    (exec dynamic b c).sets = LastWriter.apply b.sets (c.setsWrite dynamic) := by
  cases c with
  | bindPipeline point pipeline =>
    rw [exec]
    split
    all_goals exact (apply_none _).symm
  | bindDescriptors point layout first sets offsets => rfl
  | push layout p => exact (apply_none _).symm

theorem exec_push (c : Command Info) : (exec dynamic b c).push = LastWriter.apply b.push c.pushWrite := by
  cases c with
  | bindPipeline point pipeline =>
    rw [exec]
    split
    all_goals exact (apply_none _).symm
  | bindDescriptors point layout first sets offsets => exact (apply_none _).symm
  | push layout p => rfl

section
variable (cs : List (Command Info))

theorem execAll_sets :
    (execAll dynamic b cs).sets = applyAll b.sets (cs.map (Command.setsWrite dynamic)) := by
  induction cs generalizing b with
  | nil => rfl
  | cons c cs ih =>
    rw [execAll, foldl_cons, ← execAll, ih, exec_sets]
    rfl

theorem execAll_push :
    (execAll dynamic b cs).push = applyAll b.push ((cs.filterMap Command.push?).map Push.write) := by
  induction cs generalizing b with
  | nil => rfl
  | cons c cs ih =>
    rw [execAll, foldl_cons, ← execAll, ih, exec_push, filterMap_cons, Command.pushWrite]
    cases c.push? with
    | none => rw [elim_none, apply_none]
    | some p => rfl

theorem execAll_pipeline (hcs : ∀ c ∈ cs, ∀ p, c ≠ .bindPipeline .compute p) :
    (execAll dynamic b cs).pipeline = b.pipeline := by
  induction cs generalizing b with
  | nil => rfl
  | cons c cs ih =>
    rw [execAll, foldl_cons, ← execAll, ih _ fun c' hc' => hcs c' (mem_cons_of_mem c hc')]
    cases c with
    | bindPipeline point pipeline =>
      rw [exec, if_neg]
      rintro rfl
      exact hcs _ mem_cons_self pipeline rfl
    | bindDescriptors point layout first sets offsets => rfl
    | push layout p => rfl

end

end

end Driver

/-! ## Recording -/

section Recording

variable {Info : Type} {dynamic : Handle → Nat} {s s' : Session Info} {sent : List Push}

def Session.held (s : Session Info) : List Nat := s.journal.saved.map Saved.layout

/-- The journal replays `history`, which is what made the bindings. -/
structure Recorded (dynamic : Handle → Nat) (s : Session Info) (history : List (Command Info)) :
    Prop where
  commands : s.journal.saved.map (Saved.command s.layouts) = history.map some
  sets : s.bindings.sets = last (history.map (Command.setsWrite dynamic))
  push : s.bindings.push = last ((history.filterMap Command.push?).map Push.write)

/-- What holds whether or not the journal has failed. -/
structure Kept (s : Session Info) : Prop where
  counted : s.layouts.Counted s.held
  pipeline : s.journal.computePipeline = s.bindings.pipeline

/-- What holds after the application pushed `pushes`. -/
structure Inv (dynamic : Handle → Nat) (s : Session Info) (pushes : List Push) : Prop extends
    Kept s where
  recorded : s.journal.error = .success →
    ∃ history, Recorded dynamic s history ∧ history.filterMap Command.push? = pushes

theorem Inv.start (dynamic : Handle → Nat) (trackGraphics : Bool) :
    Inv dynamic (BcJournal.start trackGraphics : Session Info) [] where
  counted := .empty
  pipeline := rfl
  recorded _ := ⟨[], ⟨rfl, rfl, rfl⟩, rfl⟩

theorem Kept.fail (h : Kept s) {error : VkResult} (herror : error ≠ .success) :
    Inv dynamic (s.fail error) sent where
  counted := h.counted
  pipeline := h.pipeline
  recorded hok := absurd hok herror

/-- The layouts may change as long as the records of saved commands keep their definition. -/
theorem command_congr {ls ls' : Layouts Info} {saved : List Saved}
    (h : ∀ i ∈ saved.map Saved.layout, ls'.info i = ls.info i) :
    saved.map (Saved.command ls') = saved.map (Saved.command ls) := by
  refine map_congr_left fun e he => ?_
  have hinfo := h e.layout (mem_map_of_mem he)
  cases e with
  | descriptors layout point first sets offsets => exact congrArg (Option.map _) hinfo
  | push layout p => exact congrArg (Option.map _) hinfo

theorem Inv.setLayouts (h : Inv dynamic s sent) {ls : Layouts Info}
    (hcounted : ls.Counted s.held) (hinfo : ∀ i ∈ s.held, ls.info i = s.layouts.info i) :
    Inv dynamic { s with layouts := ls } sent where
  counted := hcounted
  pipeline := h.pipeline
  recorded hok := by
    obtain ⟨history, hr, hpushes⟩ := h.recorded hok
    exact ⟨history, ⟨(command_congr hinfo).trans hr.commands, hr.sets, hr.push⟩, hpushes⟩

/-- What a successful save did. -/
theorem save_spec (hc : s.layouts.Counted s.held) (handle : Handle) (bytes : Nat) (allocated : Bool)
    (entry : Nat → Saved) :
    (∃ error, error ≠ .success ∧ save s handle bytes allocated entry = s.fail error) ∨
      ∃ i l ls, s.journal.error = .success ∧ s.layouts.find handle = some (i, l) ∧
        ls.Counted (s.held ++ [i]) ∧ ls.info i = some l.info ∧
        (∀ j ∈ s.held, ls.info j = s.layouts.info j) ∧
        save s handle bytes allocated entry = { s with
          layouts := ls, journal := { s.journal with saved := s.journal.saved ++ [entry i] } } := by
  rw [save]
  split_ifs with herror hbytes hallocated
  · exact .inl ⟨s.journal.error, herror, rfl⟩
  · exact .inl ⟨_, by decide, rfl⟩
  · exact .inl ⟨_, by decide, rfl⟩
  · cases hacquire : s.layouts.acquire handle with
    | error error =>
      refine .inl ⟨error, ?_, rfl⟩
      rw [Layouts.acquire] at hacquire
      split at hacquire
      · cases hacquire
        decide
      · split at hacquire
        all_goals cases hacquire
        decide
    | ok out =>
      obtain ⟨i, ls⟩ := out
      obtain ⟨l, hfind, hcounted, hinfo, hkept⟩ := Layouts.acquire_spec hc hacquire
      exact .inr ⟨i, l, ls, not_not.mp herror, hfind, hcounted, hinfo, hkept, rfl⟩

section
variable (layout : Handle) (command : Info → Command Info)

theorem forward_layouts :
    (s.forward dynamic layout command).layouts = s.layouts := by
  rw [Session.forward]
  split
  all_goals rfl

theorem forward_journal :
    (s.forward dynamic layout command).journal = s.journal := by
  rw [Session.forward]
  split
  all_goals rfl

end

section
variable {layout : Handle} {command : Info → Command Info}

theorem forward_of_find {l : Layout Info}
    (h : s.layouts.find layout = some (i, l)) :
    (s.forward dynamic layout command).bindings = exec dynamic s.bindings (command l.info) := by
  rw [Session.forward, h]

/-- A command without effect on the compute state. -/
theorem forward_silent (h : ∀ info, exec dynamic s.bindings (command info) = s.bindings) :
    s.forward dynamic layout command = s := by
  rw [Session.forward]
  split
  · rfl
  · rw [h]

end

theorem Kept.forward (h : Kept s) (layout : Handle) {command : Info → Command Info}
    (hcommand : ∀ info p, command info ≠ .bindPipeline .compute p) :
    Kept (s.forward dynamic layout command) := by
  constructor
  · rw [Session.held, forward_layouts, forward_journal]
    exact h.counted
  · rw [forward_journal, h.pipeline, Session.forward]
    split
    · rfl
    · refine (execAll_pipeline dynamic s.bindings [_] fun c hc p => ?_).symm
      rw [mem_singleton.mp hc]
      exact hcommand _ p

theorem Recorded.append {history : List (Command Info)} (hr : Recorded dynamic s history)
    {ls : Layouts Info} {e : Saved} {c : Command Info}
    (hinfo : ∀ j ∈ s.held, ls.info j = s.layouts.info j) (he : e.command ls = some c)
    (hs' : s' = { s with
      layouts := ls
      journal := { s.journal with saved := s.journal.saved ++ [e] }
      bindings := exec dynamic s.bindings c }) :
    Recorded dynamic s' (history ++ [c]) := by
  subst hs'
  refine ⟨?_, ?_, ?_⟩
  · rw [map_append, command_congr hinfo, hr.commands, map_append]
    exact congrArg (fun x => _ ++ [x]) he
  · funext k
    rw [last_map_append, exec_sets, hr.sets]
    rfl
  · have hone := execAll_push dynamic s.bindings [c]
    rw [filterMap_append, map_append]
    funext k
    rw [last, applyAll_append]
    exact (congrFun hone k).trans (by rw [hr.push]; rfl)

/-- Binding no sets, or sets of another bind point, is nothing the compute state shows. -/
theorem exec_bind_silent (b : Bindings Info) (point : BindPoint) {layout : Info} {first : Nat}
    {sets : List Handle} {offsets : List UInt32} (h : sets.length = 0 ∨ point ≠ .compute) :
    exec dynamic b (.bindDescriptors point layout first sets offsets) = b := by
  have hwrite : Command.setsWrite dynamic (.bindDescriptors point layout first sets offsets) =
      fun _ => none := by
    cases point with
    | compute =>
      have hnil := eq_nil_of_length_eq_zero (h.resolve_right fun hne => hne rfl)
      subst hnil
      rfl
    | graphics => rfl
    | other value => rfl
  rw [exec, hwrite, apply_none]

section
variable (h : Inv dynamic s sent)
include h

/-- A command that goes to the driver and then into the journal. -/
theorem Inv.record (layout : Handle) (bytes : Nat)
    (allocated : Bool) (command : Info → Command Info) (entry : Nat → Saved)
    (hentry : ∀ ls i, (entry i).command ls = (ls.info i).map command)
    (hlayout : ∀ i, (entry i).layout = i) {q : Option Push} (hpush : ∀ info, (command info).push? = q)
    (hpipeline : ∀ info p, command info ≠ .bindPipeline .compute p) :
    Inv dynamic (save (s.forward dynamic layout command) layout bytes allocated entry)
      (sent ++ q.toList) := by
  have hforward : Kept (s.forward dynamic layout command) := h.toKept.forward layout hpipeline
  rcases save_spec hforward.counted layout bytes allocated entry with ⟨error, herror, heq⟩ | hsaved
  · rw [heq]
    exact hforward.fail herror
  obtain ⟨i, l, ls, hok, hfind, hcounted', hinfo, hkept, heq⟩ := hsaved
  rw [heq]
  rw [Session.held, forward_journal] at hcounted' hkept
  rw [forward_layouts] at hfind hkept
  refine ⟨⟨?_, hforward.pipeline⟩, fun _ => ?_⟩
  · rw [Session.held, map_append, map_singleton, hlayout, forward_journal]
    exact hcounted'
  · rw [forward_journal] at hok
    obtain ⟨history, hr, hpushes⟩ := h.recorded hok
    have he : (entry i).command ls = some (command l.info) := by
      rw [hentry, hinfo]
      rfl
    refine ⟨history ++ [command l.info], hr.append hkept he ?_, ?_⟩
    · rw [forward_of_find hfind, forward_journal]
    · rw [filterMap_append, hpushes, filterMap_cons, hpush]
      cases q with
      | none => rfl
      | some p => rfl

theorem Inv.push (layout : Handle) (p : Push)
    (allocated : Bool) :
    Inv dynamic (savePush (s.forward dynamic layout fun info => .push info p) layout p allocated)
      (sent ++ [p]) :=
  h.record layout p.bytes.length allocated (fun info => .push info p) (fun i => .push i p)
    (fun _ _ => rfl) (fun _ => rfl) (fun _ => rfl) fun _ _ => nofun

theorem Inv.bindDescriptors (point : BindPoint)
    (layout : Handle) (first : Nat) (sets : List Handle) (offsets : List UInt32) (allocated : Bool) :
    Inv dynamic (saveDescriptors
      (s.forward dynamic layout fun info => .bindDescriptors point info first sets offsets)
      point layout first sets offsets allocated) sent := by
  have hrecord := h.record layout (sets.length * 8 + offsets.length * 4) allocated
    (fun info => .bindDescriptors point info first sets offsets)
    (fun i => .descriptors i point first sets offsets) (fun _ _ => rfl) (fun _ => rfl)
    (q := none) (fun _ => rfl) fun _ _ => nofun
  rw [toList_none, append_nil] at hrecord
  rw [saveDescriptors]
  split_ifs with hskip hbytes
  · rw [forward_silent fun info => exec_bind_silent s.bindings point (hskip.imp_right And.left)]
    exact h
  · refine Kept.fail (h.toKept.forward layout ?_) (by decide)
    exact fun _ _ => nofun
  · exact hrecord

theorem Inv.bindDescriptors2 (stages : UInt32)
    (layout : Handle) (first : Nat) (sets : List Handle) (offsets : List UInt32)
    (allocatedCompute allocatedGraphics : Bool) :
    Inv dynamic (BcJournal.bindDescriptors2 dynamic s stages layout first sets offsets
      allocatedCompute allocatedGraphics) sent := by
  -- a graphics bind that is saved is one whose driver command the compute state does not show
  have hgraphics : ∀ {s : Session Info}, Inv dynamic s sent →
      Inv dynamic (saveDescriptors s .graphics layout first sets offsets allocatedGraphics) sent := by
    intro s h
    have hbind := h.bindDescriptors .graphics layout first sets offsets allocatedGraphics
    rw [forward_silent fun info => exec_bind_silent s.bindings .graphics (.inr (by decide))] at hbind
    exact hbind
  rw [BcJournal.bindDescriptors2]
  cases hcompute : decide (stages &&& computeBit ≠ 0) with
  | false =>
    cases s.journal.trackGraphics && decide (stages &&& allGraphics ≠ 0) with
    | false => exact h
    | true =>
      simp only [Bool.false_or, if_true, Bool.false_eq_true, if_false]
      split
      · exact h.toKept.fail (by decide)
      · exact hgraphics h
  | true =>
    simp only [Bool.true_or, if_true]
    split
    · refine Kept.fail (h.toKept.forward layout ?_) (by decide)
      exact fun _ _ => nofun
    · have hbind := h.bindDescriptors .compute layout first sets offsets allocatedCompute
      split
      · exact hgraphics hbind
      · exact hbind

/-- The pushes of an application command. -/
def Op.pushes : Op Info → List Push
  | .pushConstants _ p _ => [p]
  | .pushConstants2 _ p _ => [p]
  | _ => []

theorem Inv.bindPipeline (point : BindPoint)
    (pipeline : Handle) : Inv dynamic (step dynamic s (.bindPipeline point pipeline)) sent := by
  rw [step, savePipeline, exec]
  by_cases hpoint : point = .compute
  · rw [if_pos hpoint, if_pos hpoint]
    refine ⟨⟨h.counted, rfl⟩, fun hok => ?_⟩
    obtain ⟨history, hr, hpushes⟩ := h.recorded hok
    exact ⟨history, ⟨hr.commands, hr.sets, hr.push⟩, hpushes⟩
  · rw [if_neg hpoint, if_neg hpoint]
    split
    · refine ⟨⟨h.counted, h.pipeline⟩, fun hok => ?_⟩
      obtain ⟨history, hr, hpushes⟩ := h.recorded hok
      exact ⟨history, ⟨hr.commands, hr.sets, hr.push⟩, hpushes⟩
    · exact h

theorem Inv.step (op : Op Info) :
    Inv dynamic (BcJournal.step dynamic s op) (sent ++ op.pushes) := by
  cases op with
  | createLayout handle clone info =>
    rw [show Op.pushes _ = [] from rfl, append_nil]
    exact h.setLayouts (h.counted.add handle clone info) fun i hi =>
      Layouts.info_add h.counted handle clone info hi
  | destroyLayout handle =>
    rw [show Op.pushes _ = [] from rfl, append_nil]
    exact h.setLayouts (h.counted.remove handle) fun i hi => Layouts.info_remove h.counted handle hi
  | bindPipeline point pipeline =>
    rw [show Op.pushes _ = [] from rfl, append_nil]
    exact h.bindPipeline point pipeline
  | bindDescriptors point layout first sets offsets allocated =>
    rw [show Op.pushes _ = [] from rfl, append_nil]
    exact h.bindDescriptors point layout first sets offsets allocated
  | pushConstants layout p allocated => exact h.push layout p allocated
  | bindDescriptors2 stages layout first sets offsets allocatedCompute allocatedGraphics =>
    rw [show Op.pushes _ = [] from rfl, append_nil]
    exact h.bindDescriptors2 stages layout first sets offsets allocatedCompute allocatedGraphics
  | pushConstants2 layout p allocated =>
    rw [BcJournal.step]
    split
    · refine Kept.fail (h.toKept.forward layout ?_) (by decide)
      exact fun _ _ => nofun
    · exact h.push layout p allocated

theorem Inv.run (ops : List (Op Info)) :
    Inv dynamic (BcJournal.run dynamic s ops) (sent ++ ops.flatMap Op.pushes) := by
  induction ops generalizing s sent with
  | nil =>
    rw [flatMap_nil, append_nil]
    exact h
  | cons op ops ih =>
    rw [flatMap_cons, ← append_assoc]
    exact ih (h.step op)

end

end Recording

/-! ## Replay -/

section Replay

variable {Info : Type} {dynamic : Handle → Nat} {s : Session Info} {sent : List Push}

def Command.bindsAt (point : BindPoint) : Command Info → Bool
  | .bindDescriptors p .. => p == point
  | _ => false

def Push.inPass (active : UInt32) (pass : Bool) (p : Push) : Bool :=
  decide (p.stages &&& active ≠ 0) == pass

theorem filterMap_filter_of_map {α β : Type} {f : α → Option β} {p : α → Bool} {q : β → Bool}
    {l : List α} {l' : List β} (h : l.map f = l'.map some) (hpq : ∀ a b, f a = some b → p a = q b) :
    (l.filter p).filterMap f = l'.filter q := by
  induction l generalizing l' with
  | nil =>
    rw [map_nil, eq_comm, map_eq_nil_iff] at h
    rw [h]
    rfl
  | cons a l ih =>
    cases l' with
    | nil => cases h
    | cons b l' =>
      obtain ⟨hab, hrest⟩ := List.cons.inj h
      rw [filter_cons, filter_cons, hpq a b hab]
      split
      · rw [filterMap_cons, hab, ih hrest]
      · exact ih hrest

/-- What is replayed, in terms of what was recorded. -/
theorem Recorded.restoreCompute {history : List (Command Info)} (hr : Recorded dynamic s history)
    (hok : s.journal.error = .success) :
    restoreCompute s =
      (if s.journal.computePipeline ≠ 0 then [.bindPipeline .compute s.journal.computePipeline]
        else []) ++
      history.filter (Command.bindsAt .compute) ++
      (history.filter (fun c => c.push?.any (Push.inPass computeBit false)) ++
        history.filter fun c => c.push?.any (Push.inPass computeBit true)) := by
  have hbinds : ∀ e (c : Command Info), Saved.command s.layouts e = some c →
      Saved.bindsAt .compute e = c.bindsAt .compute := by
    intro e c he
    cases e with
    | descriptors _ _ _ _ _ | push _ _ =>
      obtain ⟨info, -, rfl⟩ := map_eq_some_iff.mp he
      rfl
  have hpass : ∀ pass e (c : Command Info), Saved.command s.layouts e = some c →
      Saved.inPass computeBit pass e = c.push?.any (Push.inPass computeBit pass) := by
    intro pass e c he
    cases e with
    | descriptors _ _ _ _ _ | push _ _ =>
      obtain ⟨info, -, rfl⟩ := map_eq_some_iff.mp he
      rfl
  rw [BcJournal.restoreCompute, restore, if_neg (not_not.mpr hok)]
  simp only [if_true, flatMap_cons, flatMap_nil, append_nil]
  rw [filterMap_filter_of_map hr.commands hbinds, filterMap_filter_of_map hr.commands (hpass false),
    filterMap_filter_of_map hr.commands (hpass true)]

/-- Whatever the application had established is there again. -/
structure Restored (before after : Bindings Info) : Prop where
  pipeline : before.pipeline ≠ 0 → after.pipeline = before.pipeline
  sets : ∀ k b, before.sets k = some b → after.sets k = some b
  push : ∀ k v, before.push k = some v → after.push k = some v

/-- A push that writes the compute stage, possibly among others. -/
def Push.compute (p : Push) : Bool := decide (p.stages &&& computeBit ≠ 0)

/-- Wherever pushes with the compute stage write, the last of them agrees with the last push
of all. -/
def ComputeWritesLast (pushes : List Push) : Prop :=
  ∀ k v, last ((pushes.filter Push.compute).map Push.write) k = some v →
    last (pushes.map Push.write) k = some v

theorem filterMap_push (history : List (Command Info)) (q : Push → Bool) :
    (history.filter fun c => c.push?.any q).filterMap Command.push? =
      (history.filterMap Command.push?).filter q := by
  induction history with
  | nil => rfl
  | cons c history ih =>
    rw [filter_cons, filterMap_cons]
    cases hc : c.push? with
    | none => exact ih
    | some p =>
      rw [any_some, filter_cons]
      split
      · rw [filterMap_cons, hc, ih]
      · exact ih

section
variable {history : List (Command Info)} (hr : Recorded dynamic s history)
  (hok : s.journal.error = .success)
include hr hok

theorem Recorded.restoreCompute_pushes :
    (BcJournal.restoreCompute s).filterMap Command.push? =
      (history.filterMap Command.push?).filter (fun p => !p.compute) ++
        (history.filterMap Command.push?).filter Push.compute := by
  have hpipeline : (if s.journal.computePipeline ≠ 0 then
      [(.bindPipeline .compute s.journal.computePipeline : Command Info)] else []).filterMap
        Command.push? = [] := by
    split
    all_goals rfl
  have hbinds : (history.filter (Command.bindsAt .compute)).filterMap Command.push? = [] := by
    rw [filterMap_eq_nil_iff]
    intro c hc
    have hb := (mem_filter.mp hc).2
    cases c with
    | bindPipeline point pipeline => rfl
    | bindDescriptors point layout first sets offsets => rfl
    | push layout p => cases hb
  have hfalse : Push.inPass computeBit false = fun p => !p.compute := by
    funext p
    exact beq_false _
  have htrue : Push.inPass computeBit true = Push.compute := by
    funext p
    exact beq_true _
  rw [hr.restoreCompute hok]
  simp only [filterMap_append, hpipeline, hbinds, filterMap_push, nil_append, hfalse, htrue]

theorem Recorded.restoreCompute_sets (k : Nat) :
    last ((BcJournal.restoreCompute s).map (Command.setsWrite dynamic)) k =
      last (history.map (Command.setsWrite dynamic)) k := by
  have hsilent : ∀ {c : Command Info}, c.bindsAt .compute = false → c.setsWrite dynamic k = none := by
    intro c hc
    cases c with
    | bindPipeline point pipeline => rfl
    | bindDescriptors point layout first sets offsets =>
      cases point with
      | compute => cases hc
      | graphics => rfl
      | other value => rfl
    | push layout p => rfl
  have hpass : ∀ q,
      last ((history.filter fun c => c.push?.any q).map (Command.setsWrite dynamic)) k = none := by
    intro q
    refine last_eq_none fun w hw => ?_
    obtain ⟨c, hc, rfl⟩ := mem_map.mp hw
    have hq := (mem_filter.mp hc).2
    cases c with
    | bindPipeline point pipeline => rfl
    | bindDescriptors point layout first sets offsets => cases hq
    | push layout p => rfl
  have hpipeline : last ((if s.journal.computePipeline ≠ 0 then
      [(.bindPipeline .compute s.journal.computePipeline : Command Info)] else []).map
        (Command.setsWrite dynamic)) k = none := by
    split
    all_goals rfl
  have hother : last
      ((history.filter fun c => !c.bindsAt .compute).map (Command.setsWrite dynamic)) k = none := by
    refine last_eq_none fun w hw => ?_
    obtain ⟨c, hc, rfl⟩ := mem_map.mp hw
    exact hsilent (by simpa using (mem_filter.mp hc).2)
  rw [hr.restoreCompute hok]
  simp only [map_append, last_append, hpass, hpipeline, none_or, or_none]
  have hbinds := last_of_filter_none (Command.setsWrite dynamic) (fun c => !c.bindsAt .compute) hother
  simpa using hbinds

end

section
variable (h : Inv dynamic s sent) (hok : s.journal.error = .success) (internal : List (Command Info))
include h hok

/-- The pipeline and the sets come back in every recording. -/
theorem Inv.restoreCompute_bindings :
    let after := execAll dynamic (execAll dynamic s.bindings internal) (BcJournal.restoreCompute s)
    (s.bindings.pipeline ≠ 0 → after.pipeline = s.bindings.pipeline) ∧
      ∀ k b, s.bindings.sets k = some b → after.sets k = some b := by
  obtain ⟨history, hr, -⟩ := h.recorded hok
  intro after
  constructor
  · intro hne
    have hrest : after = execAll dynamic _ _ := rfl
    rw [hr.restoreCompute hok, h.pipeline, if_pos hne] at hrest
    rw [hrest, execAll, append_assoc, cons_append, nil_append, foldl_cons, ← execAll,
      execAll_pipeline]
    · rfl
    · intro c hc p heq
      subst heq
      simp [Command.bindsAt, Command.push?] at hc
  · intro k b hb
    rw [execAll_sets, applyAll_eq, hr.restoreCompute_sets hok, ← hr.sets, hb, some_or]

/-- The pushed bytes before the internal commands and behind the replay. -/
theorem Inv.restoreCompute_push :
    s.bindings.push = last (sent.map Push.write) ∧
      (execAll dynamic (execAll dynamic s.bindings internal) (BcJournal.restoreCompute s)).push =
        applyAll (execAll dynamic s.bindings internal).push
          ((sent.filter fun p => !p.compute).map Push.write ++
            (sent.filter Push.compute).map Push.write) := by
  obtain ⟨history, hr, hpushes⟩ := h.recorded hok
  refine ⟨hpushes ▸ hr.push, ?_⟩
  rw [execAll_push, hr.restoreCompute_pushes hok, hpushes, map_append]

end

theorem Push.write_compute {p : Push} (h : p.compute = false) (a : Nat) : p.write (5, a) = none := by
  have hzero : p.stages &&& computeBit = 0 := not_not.mp (of_decide_eq_false h)
  have hbit : (p.stages &&& computeBit).toNat.testBit 5 = p.stages.toNat.testBit 5 := by
    rw [UInt32.toNat_and, Nat.testBit_and]
    exact Bool.and_true _
  rw [hzero] at hbit
  rw [Push.write, if_neg]
  rintro ⟨hstage, -⟩
  exact Bool.false_ne_true (hbit.trans hstage)

/-- The bytes of the compute stage come back in every recording. -/
theorem Inv.restoreCompute_computeStage (h : Inv dynamic s sent)
    (hok : s.journal.error = .success) (internal : List (Command Info)) (a : Nat) (v : UInt8)
    (hv : s.bindings.push (5, a) = some v) :
    (execAll dynamic (execAll dynamic s.bindings internal) (BcJournal.restoreCompute s)).push
      (5, a) = some v := by
  obtain ⟨hbefore, hafter⟩ := h.restoreCompute_push hok internal
  have hother : last ((sent.filter fun p => !p.compute).map Push.write) (5, a) = none := by
    refine last_eq_none fun w hw => ?_
    obtain ⟨p, hp, rfl⟩ := mem_map.mp hw
    exact Push.write_compute (by simpa using (mem_filter.mp hp).2) a
  have hcompute := last_of_filter_none Push.write (fun p => !p.compute) hother
  simp only [Bool.not_not] at hcompute
  rw [hafter, applyAll_eq, last_append, hcompute, ← hbefore, hv, some_or, some_or]

/-- For every recording without a journal error and every list of internal commands, the
replay brings back all that the application had established exactly when the pushes with the
compute stage agree with the later ones. -/
theorem restoreCompute_restores_iff (dynamic : Handle → Nat) (trackGraphics : Bool)
    (ops : List (Op Info)) (internal : List (Command Info))
    (hok : (run dynamic (start trackGraphics) ops).journal.error = .success) :
    Restored (run dynamic (start trackGraphics) ops).bindings
      (execAll dynamic
        (execAll dynamic (run dynamic (start trackGraphics) ops).bindings internal)
        (restoreCompute (run dynamic (start trackGraphics) ops))) ↔
      ComputeWritesLast (ops.flatMap Op.pushes) := by
  have h := (Inv.start dynamic trackGraphics).run ops
  rw [nil_append] at h
  generalize run dynamic (start trackGraphics) ops = s at h hok ⊢
  obtain ⟨hpipeline, hsets⟩ := h.restoreCompute_bindings hok internal
  obtain ⟨hbefore, hafter⟩ := h.restoreCompute_push hok internal
  have hreplay := replay_iff Push.write Push.compute (ops.flatMap Op.pushes)
    (execAll dynamic s.bindings internal).push
  rw [← hbefore, ← hafter] at hreplay
  rw [ComputeWritesLast, ← hbefore, ← hreplay]
  exact ⟨Restored.push, fun hpush => ⟨hpipeline, hsets, hpush⟩⟩

/-- A push to the vertex and compute stages with a layout for both, and then one to the vertex
stage with a layout for that stage alone. A layout is given by the stages of its range. -/
def vertexPushedLast : List (Op UInt32) :=
  [.createLayout 1 2 0x21, .createLayout 3 4 0x01, .pushConstants 1 ⟨0x21, 0, [1, 1, 1, 1]⟩ true,
    .pushConstants 3 ⟨0x01, 0, [2, 2, 2, 2]⟩ true]

/-- What the decoder records: its pipeline, its set and its push constants. -/
def decoderCommands : List (Command UInt32) :=
  [.bindPipeline .compute 7, .bindDescriptors .compute 0x20 0 [8] [],
    .push 0x20 ⟨0x20, 0, [9, 9, 9, 9]⟩]

theorem restoreCompute_restores_iff_pushes :
    (run (fun _ => 0) (start false) vertexPushedLast).journal.error = .success ∧
      (Restored (run (fun _ => 0) (start false) vertexPushedLast).bindings
        (execAll (fun _ => 0)
          (execAll (fun _ => 0) (run (fun _ => 0) (start false) vertexPushedLast).bindings
            decoderCommands)
          (restoreCompute (run (fun _ => 0) (start false) vertexPushedLast))) ↔
        ComputeWritesLast (vertexPushedLast.flatMap Op.pushes)) :=
  ⟨rfl, restoreCompute_restores_iff _ false vertexPushedLast decoderCommands rfl⟩

/-- The vertex stage held 2 and finds 1 behind the decoder. -/
theorem vertex_push_overwritten :
    (run (fun _ => 0) (start false) vertexPushedLast).journal.error = .success ∧
      (run (fun _ => 0) (start false) vertexPushedLast).bindings.push (0, 0) = some 2 ∧
      (execAll (fun _ => 0)
        (execAll (fun _ => 0) (run (fun _ => 0) (start false) vertexPushedLast).bindings
          decoderCommands)
        (restoreCompute (run (fun _ => 0) (start false) vertexPushedLast))).push (0, 0) = some 1 := by
  decide +kernel

end Replay

/-! ## Later recordings -/

section Later

variable {Info : Type}

theorem Layouts.Counted.release {ls : Layouts Info} {held : List Nat} {i : Nat} {l : Layout Info}
    (hc : ls.Counted (i :: held)) (hl : ls.record i = some l) : (ls.release i l).Counted held where
  fresh j hj := by
    rw [Layouts.release, Layouts.setRecord_of_ne _ _ ((hc.lt_next hl).trans_le hj).ne']
    exact hc.fresh j hj
  references j := by
    have href := hc.references j
    rw [Layouts.release, Layouts.setRecord_listed]
    by_cases hj : j = i
    · subst hj
      rw [hl, elim_some, count_cons_self] at href
      rw [Layouts.setRecord_self]
      split
      · rw [elim_none]
        omega
      · rw [elim_some]
        dsimp only
        omega
    · rw [Layouts.setRecord_of_ne _ _ hj, href, count_cons_of_ne (Ne.symm hj)]

theorem counted_reset {saved : List Saved} {ls : Layouts Info} (hc : ls.Counted (saved.map Saved.layout)) :
    (saved.foldl (fun ls e => (ls.record e.layout).elim ls (ls.release e.layout)) ls).Counted [] := by
  induction saved generalizing ls with
  | nil => exact hc
  | cons e saved ih =>
    obtain ⟨l, hl⟩ := hc.alive mem_cons_self
    rw [foldl_cons, hl]
    exact ih (hc.release hl)

theorem Inv.recordings {dynamic : Handle → Nat} {s : Session Info} (h : Inv dynamic s [])
    (earlier : List (List (Op Info))) : Inv dynamic (BcJournal.recordings dynamic s earlier) [] := by
  induction earlier generalizing s with
  | nil => exact h
  | cons recording earlier ih =>
    exact ih ⟨⟨counted_reset (h.run recording).counted, rfl⟩, fun _ => ⟨[], ⟨rfl, rfl, rfl⟩, rfl⟩⟩

/-- What a dispatch sees comes back in every recording without a journal error. -/
theorem compute_state_restored (dynamic : Handle → Nat) (trackGraphics : Bool)
    (earlier : List (List (Op Info))) (ops : List (Op Info)) (internal : List (Command Info))
    (hok : (run dynamic (recordings dynamic (start trackGraphics) earlier) ops).journal.error = .success) :
    let s := run dynamic (recordings dynamic (start trackGraphics) earlier) ops
    let after := execAll dynamic (execAll dynamic s.bindings internal) (restoreCompute s)
    (s.bindings.pipeline ≠ 0 → after.pipeline = s.bindings.pipeline) ∧
    (∀ k b, s.bindings.sets k = some b → after.sets k = some b) ∧
    ∀ a v, s.bindings.push (5, a) = some v → after.push (5, a) = some v := by
  intro s after
  have h := ((Inv.start dynamic trackGraphics).recordings earlier).run ops
  obtain ⟨hpipeline, hsets⟩ := h.restoreCompute_bindings hok internal
  exact ⟨hpipeline, hsets, h.restoreCompute_computeStage hok internal⟩

/-- The recording of `vertexPushedLast` once more behind a reset. -/
def pushedAgain : Session UInt32 :=
  run (fun _ => 0) (recordings (fun _ => 0) (start false) [vertexPushedLast]) vertexPushedLast

theorem compute_state_restored_pushedAgain :
    pushedAgain.bindings.push (5, 0) = some 1 ∧
      (execAll (fun _ => 0) (execAll (fun _ => 0) pushedAgain.bindings decoderCommands)
        (restoreCompute pushedAgain)).push (5, 0) = some 1 := by
  have hpushed : pushedAgain.bindings.push (5, 0) = some 1 := by decide +kernel
  have hok : pushedAgain.journal.error = .success := by decide +kernel
  obtain ⟨-, -, hbytes⟩ := compute_state_restored (fun _ => 0) false
    [vertexPushedLast] vertexPushedLast decoderCommands hok
  exact ⟨hpushed, hbytes 0 1 hpushed⟩

end Later

end BcJournal
