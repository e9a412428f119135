import Libhybris.Transition
import Mathlib.Algebra.Group.Nat.Defs

/-!
# The table of TLS modules

`register_soinfo_tls`, `promote_tls_module_to_static` and `unregister_soinfo_tls` of
`common/q/linker_tls.cpp`, under the linker's lock. A slot of the table is given out again only if
its module left it dynamic; a promoted module leaves its offset behind. The static layout answers a
reservation with an offset, which comes with the action; what it promises is a condition on the
action. A failed `CHECK` ends the run.
-/
namespace TlsModules

open Transition List

def sizeMax : Nat := 2 ^ 64 - 1

structure Segment where
  size : Nat
  alignment : Nat
deriving DecidableEq, Repr

/-- `TlsModule`; `soinfo_ptr` is null for none. -/
structure Module where
  segment : Segment
  staticOffset : Nat
  firstGeneration : Nat
  soinfo : Option Nat
deriving DecidableEq, Repr

/-- The value `{}`. -/
def Module.empty : Module := ⟨⟨0, 1⟩, sizeMax, 0, none⟩

/-- A range of the static layout, and the slot and the library it was reserved for. -/
structure Grant where
  slot : Nat
  soinfo : Nat
  offset : Nat
  size : Nat
deriving DecidableEq, Repr

structure State where
  modules : List Module
  moduleCount : Nat
  generation : Nat
  /-- `module_id` of each library; zero is uninitialized -/
  moduleId : Nat → Nat
  /-- the reservations so far, newest first -/
  granted : List Grant
  /-- a `CHECK` failed -/
  aborted : Bool

def start : State := ⟨[], 0, 1, fun _ => 0, [], false⟩

def Module.unused (m : Module) : Bool := m.soinfo = none && m.staticOffset = sizeMax

/-- `get_unused_module_index`: the table, longer by an empty entry if no slot is free, and the
index. -/
def getUnusedModuleIndex (modules : List Module) : List Module × Nat :=
  let i := modules.findIdx Module.unused
  if i < modules.length then (modules, i) else (modules ++ [Module.empty], modules.length)

def nextGeneration (s : State) : Nat := (s.generation + 1) % 2 ^ 64

def registerTlsModule (s : State) (si : Nat) (segment : Segment) (staticOffset : Nat) : State :=
  let (modules, i) := getUnusedModuleIndex s.modules
  { s with
    modules := modules.set i ⟨segment, staticOffset, nextGeneration s, some si⟩
    moduleCount := if s.modules.length < modules.length then modules.length else s.moduleCount
    generation := nextGeneration s
    moduleId := Function.update s.moduleId si (i + 1) }

/-- What is left in the slot of a library that is unloaded. -/
def Module.detach (m : Module) : Module :=
  if m.staticOffset = sizeMax then .empty else { m with soinfo := none }

def unregisterTlsModule (s : State) (si : Nat) : State :=
  match s.modules[s.moduleId si - 1]? with
  | some m =>
    if m.soinfo = some si then
      { s with
        modules := s.modules.set (s.moduleId si - 1) m.detach
        moduleId := Function.update s.moduleId si 0 }
    else { s with aborted := true }
  | none => { s with aborted := true }

section

-- the TLS segment of each library, if it has one
variable (tls : Nat → Option Segment)

def registerSoinfoTls (s : State) (si : Nat) : State :=
  match tls si with
  | none => s
  | some segment => if s.moduleId si ≠ 0 then s else registerTlsModule s si segment sizeMax

def unregisterSoinfoTls (s : State) (si : Nat) : State :=
  match tls si with
  | none => s
  | some _ => if s.moduleId si = 0 then s else unregisterTlsModule s si

/-- The table entry of a registered library, as the `CHECK`s of a promotion find it. -/
def State.entry (s : State) (si : Nat) : Option Module :=
  if tls si = none ∨ s.moduleId si = 0 then none
  else (s.modules[s.moduleId si - 1]?).filter fun m => m.soinfo = some si

/-- `promote_tls_module_to_static`, with the layout's answer if it is asked, and the returned
offset. -/
def promoteTlsModuleToStatic (s : State) (si offset : Nat) : State × Nat :=
  match s.entry tls si, tls si with
  | some m, some segment =>
    if m.staticOffset = sizeMax then
      ({ s with
        modules := s.modules.set (s.moduleId si - 1)
          { m with staticOffset := offset, firstGeneration := nextGeneration s }
        generation := nextGeneration s
        granted := ⟨s.moduleId si - 1, si, offset, segment.size⟩ :: s.granted }, offset)
    else (s, m.staticOffset)
  | _, _ => ({ s with aborted := true }, 0)

inductive Action where
  | register (si : Nat)
  | promote (si offset : Nat)
  | unregister (si : Nat)
deriving DecidableEq, Repr

def step (s : State) (a : Action) : Option State :=
  if s.aborted then none
  else
    match a with
    | .register si => some (registerSoinfoTls tls s si)
    | .promote si offset => some (promoteTlsModuleToStatic tls s si offset).1
    | .unregister si => some (unregisterSoinfoTls tls s si)

def Grant.Apart (g g' : Grant) : Prop := g.offset + g.size ≤ g'.offset ∨ g'.offset + g'.size ≤ g.offset

/-- Promotions are of registered libraries, and the layout reserves aligned ranges that are free. -/
def Lawful (s : State) : Action → Prop
  | .promote si offset => s.moduleId si ≠ 0 ∧ ∀ m, s.entry tls si = some m →
    m.staticOffset = sizeMax → offset < sizeMax ∧ offset % m.segment.alignment = 0 ∧
      ∀ g ∈ s.granted, Grant.Apart ⟨0, si, offset, m.segment.size⟩ g
  | _ => True

/-- The table is sound: no `CHECK` has failed or can fail, ids are those of the libraries' own
entries, every reservation is still in its slot, which no other library has, and is promoted no
second time. -/
structure Safe (s : State) : Prop where
  checks : s.aborted = false
  entry : ∀ si, s.moduleId si ≠ 0 → ∃ m, s.entry tls si = some m ∧
    s.modules[s.moduleId si - 1]? = some m ∧ m.soinfo = some si
  distinct : ∀ si sj, s.moduleId si ≠ 0 → s.moduleId si = s.moduleId sj → si = sj
  slots : ∀ g ∈ s.granted, ∃ m, s.modules[g.slot]? = some m ∧ m.staticOffset = g.offset ∧
    (m.soinfo = none ∨ m.soinfo = some g.soinfo)
  apart : s.granted.Pairwise Grant.Apart
  again : ∀ si m offset, s.entry tls si = some m → m.staticOffset ≠ sizeMax →
    promoteTlsModuleToStatic tls s si offset = (s, m.staticOffset)

/-- The invariant of the table. -/
structure Inv (s : State) : Prop where
  checks : s.aborted = false
  count : s.moduleCount = s.modules.length
  entry : ∀ si, s.moduleId si ≠ 0 → ∃ m, s.modules[s.moduleId si - 1]? = some m ∧
    m.soinfo = some si ∧ tls si = some m.segment
  owner : ∀ i m si, s.modules[i]? = some m → m.soinfo = some si → s.moduleId si = i + 1
  slots : ∀ g ∈ s.granted, ∃ m, s.modules[g.slot]? = some m ∧ m.staticOffset = g.offset ∧
    g.offset ≠ sizeMax ∧ (m.soinfo = none ∨ m.soinfo = some g.soinfo)
  apart : s.granted.Pairwise Grant.Apart

end

/-- What a step leaves: reservations stay, and the counters move up by one at most, the generation
around the end of its range. -/
structure Later (s t : State) : Prop where
  count : s.moduleCount ≤ t.moduleCount
  granted : s.granted ⊆ t.granted
  generation : t.generation = s.generation ∨ t.generation = nextGeneration s

theorem Later.refl (s : State) : Later s s := ⟨Nat.le_refl _, fun _ hg => hg, .inl rfl⟩

variable {tls : Nat → Option Segment} {s t : State} {si : Nat}

theorem Inv.entry_eq (h : Inv tls s) (hsi : s.moduleId si ≠ 0) :
    ∃ m, s.entry tls si = some m ∧ s.modules[s.moduleId si - 1]? = some m ∧ m.soinfo = some si ∧
      tls si = some m.segment := by
  obtain ⟨m, hm, hso, htls⟩ := h.entry si hsi
  exact ⟨m, by simp [State.entry, hsi, htls, hm, hso], hm, hso, htls⟩

theorem Inv.safe (h : Inv tls s) : Safe tls s where
  checks := h.checks
  entry := fun si hsi => by
    obtain ⟨m, he, hm, hso, -⟩ := h.entry_eq hsi
    exact ⟨m, he, hm, hso⟩
  distinct := fun si sj hsi heq => by
    obtain ⟨m, -, hm, hso, -⟩ := h.entry_eq hsi
    obtain ⟨m', -, hm', hso', -⟩ := h.entry_eq (heq ▸ hsi)
    rw [heq, hm'] at hm
    cases hm
    exact Option.some.inj (hso.symm.trans hso')
  slots := fun g hg => by
    obtain ⟨m, hm, hoff, -, hso⟩ := h.slots g hg
    exact ⟨m, hm, hoff, hso⟩
  apart := h.apart
  again := fun si m offset he hoff => by
    have htls : tls si ≠ none := fun hnone => by simp [State.entry, hnone] at he
    obtain ⟨segment, hsegment⟩ := Option.ne_none_iff_exists'.mp htls
    simp [promoteTlsModuleToStatic, he, hsegment, hoff]

/-- The index is in the table or just behind it, and no entry there is in use. -/
theorem getUnusedModuleIndex_spec (modules : List Module) :
    (getUnusedModuleIndex modules).2 < (getUnusedModuleIndex modules).1.length ∧
      modules.length ≤ (getUnusedModuleIndex modules).1.length ∧
      (∀ m, modules[(getUnusedModuleIndex modules).2]? = some m → m.soinfo = none ∧
        m.staticOffset = sizeMax) ∧
      ∀ i, i ≠ (getUnusedModuleIndex modules).2 → (getUnusedModuleIndex modules).1[i]? = modules[i]? := by
  simp only [getUnusedModuleIndex]
  split
  case isTrue hlt =>
    have hunused := List.findIdx_getElem (w := hlt)
    simp only [Module.unused, Bool.and_eq_true, decide_eq_true_eq] at hunused
    refine ⟨hlt, Nat.le_refl _, fun m hm => ?_, fun _ _ => rfl⟩
    rw [List.getElem?_eq_getElem hlt] at hm
    cases hm
    exact hunused
  case isFalse => grind

section
variable (h : Inv tls s)
include h

theorem Inv.registerTlsModule {segment : Segment} (hsi : s.moduleId si = 0)
    (htls : tls si = some segment) :
    Inv tls (registerTlsModule s si segment sizeMax) ∧
      Later s (registerTlsModule s si segment sizeMax) := by
  obtain ⟨hlt, hlen, hfree, hothers⟩ := getUnusedModuleIndex_spec s.modules
  simp only [TlsModules.registerTlsModule]
  generalize getUnusedModuleIndex s.modules = r at hlt hlen hfree hothers ⊢
  obtain ⟨modules, i⟩ := r
  simp only at hlt hlen hfree hothers ⊢
  have hcount := h.count
  refine ⟨⟨h.checks, by grind, fun sj hsj => ?_, fun j m sj hj hso => ?_, fun g hg => ?_, h.apart⟩,
    by grind, fun _ hg => hg, .inr rfl⟩
  · by_cases heq : sj = si
    · subst heq
      simp [hlt, htls]
    · simp only [Function.update_of_ne heq] at hsj ⊢
      obtain ⟨m, hm, hso, hseg⟩ := h.entry sj hsj
      grind
  · have howner := h.owner j
    grind
  · obtain ⟨m, hm, hoff, hne, hso⟩ := h.slots g hg
    grind

theorem Inv.unregisterTlsModule (hsi : s.moduleId si ≠ 0) :
    Inv tls (unregisterTlsModule s si) ∧ Later s (unregisterTlsModule s si) := by
  obtain ⟨m, hm, hso, htls⟩ := h.entry si hsi
  have howner := h.owner
  simp only [TlsModules.unregisterTlsModule, hm, hso, if_true]
  have hdetach : m.detach.soinfo = none ∧
    (m.staticOffset ≠ sizeMax → m.detach.staticOffset = m.staticOffset) := by
    simp only [Module.detach]
    split <;> simp_all [Module.empty]
  refine ⟨⟨h.checks, by simp [h.count], fun sj hsj => ?_, fun j m' sj hj hso' => ?_, fun g hg => ?_,
    h.apart⟩, Nat.le_refl _, fun _ hg => hg, .inl rfl⟩
  · by_cases heq : sj = si
    · simp [heq] at hsj
    · simp only [Function.update_of_ne heq] at hsj ⊢
      obtain ⟨m', hm', hso', hseg⟩ := h.entry sj hsj
      grind
  · grind
  · obtain ⟨m', hm', hoff, hne, hso'⟩ := h.slots g hg
    grind

theorem Inv.promote {offset : Nat} (hlawful : Lawful tls s (.promote si offset)) :
    Inv tls (promoteTlsModuleToStatic tls s si offset).1 ∧
      Later s (promoteTlsModuleToStatic tls s si offset).1 := by
  obtain ⟨m, he, hm, hso, htls⟩ := h.entry_eq hlawful.1
  have howner := h.owner
  simp only [promoteTlsModuleToStatic, he, htls]
  split
  case isFalse => exact ⟨h, .refl s⟩
  case isTrue hdyn =>
    obtain ⟨hlt, -, hapart⟩ := hlawful.2 m he hdyn
    refine ⟨⟨h.checks, by simp [h.count], fun sj hsj => ?_, fun j m' sj hj hso' => ?_,
      fun g hg => ?_, ?_⟩, Nat.le_refl _, fun _ hg => mem_cons_of_mem _ hg, .inr rfl⟩
    · obtain ⟨m', hm', hso', hseg⟩ := h.entry sj hsj
      grind
    · grind
    · rcases mem_cons.mp hg with rfl | hg
      · grind
      · obtain ⟨m', hm', hoff, hne, hso'⟩ := h.slots g hg
        grind
    · exact pairwise_cons.mpr ⟨fun g hg => hapart g hg, h.apart⟩

theorem Inv.step {a : Action} (hlawful : Lawful tls s a) (hstep : step tls s a = some t) :
    Inv tls t ∧ Later s t := by
  simp only [TlsModules.step, h.checks] at hstep
  cases a with
  | register si =>
    cases hstep
    simp only [registerSoinfoTls]
    split
    · exact ⟨h, .refl s⟩
    · split
      · exact ⟨h, .refl s⟩
      · rename_i htls hsi
        exact h.registerTlsModule (not_not.mp hsi) htls
  | promote si offset =>
    cases hstep
    exact h.promote hlawful
  | unregister si =>
    cases hstep
    simp only [unregisterSoinfoTls]
    split
    · exact ⟨h, .refl s⟩
    · split
      · exact ⟨h, .refl s⟩
      · rename_i hsi
        exact h.unregisterTlsModule hsi

theorem run_later {actions : List Action} (hlawful : Along (step tls) (Lawful tls) s actions)
    (hrun : run (step tls) s actions = some t) :
    s.moduleCount ≤ t.moduleCount ∧ s.granted ⊆ t.granted ∧ (s.generation + actions.length < 2 ^ 64 →
      s.generation ≤ t.generation ∧ t.generation ≤ s.generation + actions.length) := by
  induction actions generalizing s with
  | nil =>
    cases hrun
    exact ⟨Nat.le_refl _, fun _ hg => hg, fun _ => ⟨Nat.le_refl _, Nat.le_refl _⟩⟩
  | cons a rest ih =>
    obtain ⟨u, hu, hrest⟩ := run_cons_some hrun
    obtain ⟨hinv, hcount, hgranted, hgeneration⟩ := h.step hlawful.1 hu
    obtain ⟨hcount', hgranted', hgeneration'⟩ := ih hinv (hlawful.2 u hu) hrest
    refine ⟨Nat.le_trans hcount hcount', fun g hg => hgranted' (hgranted hg), fun hlt => ?_⟩
    simp only [List.length_cons, nextGeneration] at hlt hgeneration ⊢
    omega

end

theorem start_inv : Inv tls start :=
  ⟨rfl, rfl, fun _ hsi => absurd rfl hsi, by simp [start], by simp [start], List.Pairwise.nil⟩

/-- In every run of lawful actions the table is safe, and between two of its states no reservation
is lost and the module count does not decrease, nor the generation before its range ends. -/
theorem slots_recycled_safely (tls : Nat → Option Segment) (actions more : List Action) (s t : State)
    (hlawful : Along (step tls) (Lawful tls) start actions) (hs : run (step tls) start actions = some s)
    (hmore : Along (step tls) (Lawful tls) s more) (ht : run (step tls) s more = some t) :
    Safe tls t ∧ s.moduleCount ≤ t.moduleCount ∧ s.granted ⊆ t.granted ∧
      (actions.length + more.length + 1 < 2 ^ 64 → s.generation ≤ t.generation) := by
  have hkeep : ∀ s a u, Inv tls s → Lawful tls s a → step tls s a = some u → Inv tls u :=
    fun _ _ _ h hok hu => (h.step hok hu).1
  have hinv := run_invariant_along hkeep actions start s start_inv hlawful hs
  obtain ⟨-, -, hupto⟩ := run_later start_inv hlawful hs
  obtain ⟨hcount, hgranted, hgeneration⟩ := run_later hinv hmore ht
  refine ⟨(run_invariant_along hkeep more s t hinv hmore ht).safe, hcount, hgranted, fun hlt => ?_⟩
  have hone : start.generation = 1 := rfl
  exact (hgeneration (by have := (hupto (by omega)).2; omega)).1

def sampleTls (_ : Nat) : Option Segment := some ⟨24, 8⟩

/-- Library 1 is promoted and unloaded, and its slot is passed over. -/
theorem slots_recycled_safely_sample : ∃ s t,
    run (step sampleTls) start [.register 1, .promote 1 64] = some s ∧
      run (step sampleTls) s [.unregister 1, .register 2, .register 3] = some t ∧
      (t.moduleId 2, t.moduleId 3) = (2, 3) ∧ Safe sampleTls t := by
  refine ⟨_, _, rfl, rfl, by decide, (slots_recycled_safely sampleTls [.register 1, .promote 1 64]
    [.unregister 1, .register 2, .register 3] _ _ ?_ rfl ?_ rfl).1⟩
  · refine ⟨trivial, fun u hu => ?_⟩
    cases hu
    refine ⟨⟨by decide, fun m hm _ => ?_⟩, fun _ _ => trivial⟩
    cases hm
    exact ⟨by decide, by decide, fun g hg => absurd hg not_mem_nil⟩
  · exact ⟨trivial, fun _ _ => ⟨trivial, fun _ _ => ⟨trivial, fun _ _ => trivial⟩⟩⟩

/-- A library is loaded and unloaded so many times. -/
def cycles : Nat → List Action
  | 0 => []
  | n + 1 => .register 0 :: .unregister 0 :: cycles n

def cycled (generation : Nat) : State := ⟨[.empty], 1, generation, fun _ => 0, [], false⟩

theorem update_back : Function.update (Function.update (fun _ : Nat => 0) 0 1) 0 0 = fun _ => 0 := by
  funext x
  by_cases hx : x = 0 <;> simp [hx]

theorem run_cycle {generation : Nat} (rest : List Action) :
    run (step sampleTls) (cycled generation) (.register 0 :: .unregister 0 :: rest) =
      run (step sampleTls) (cycled ((generation + 1) % 2 ^ 64)) rest := by
  have hregister : step sampleTls (cycled generation) (.register 0) =
      some ⟨[⟨⟨24, 8⟩, sizeMax, (generation + 1) % 2 ^ 64, some 0⟩], 1, (generation + 1) % 2 ^ 64,
        Function.update (fun _ => 0) 0 1, [], false⟩ := rfl
  have hunregister : step sampleTls ⟨[⟨⟨24, 8⟩, sizeMax, (generation + 1) % 2 ^ 64, some 0⟩], 1,
      (generation + 1) % 2 ^ 64, Function.update (fun _ => 0) 0 1, [], false⟩ (.unregister 0) =
        some ⟨[.empty], 1, (generation + 1) % 2 ^ 64, _, [], false⟩ := rfl
  rw [run_cons, hregister, Option.bind_some, run_cons, hunregister, update_back]
  rfl

theorem run_cycles (n : Nat) {generation : Nat} (h : generation + n < 2 ^ 64) :
    run (step sampleTls) (cycled generation) (cycles n) = some (cycled (generation + n)) := by
  induction n generalizing generation with
  | zero => rfl
  | succ n ih =>
    rw [cycles, run_cycle, ih (by omega)]
    congr 2
    omega

theorem cycles_lawful (n : Nat) (s : State) : Along (step sampleTls) (Lawful sampleTls) s (cycles n) := by
  induction n generalizing s with
  | zero => trivial
  | succ n ih => exact ⟨trivial, fun _ _ => ⟨trivial, fun _ _ => ih _⟩⟩

/-- Loading and unloading a library long enough takes the generation back to zero. -/
theorem generation_wraps : ∃ n s t, Along (step sampleTls) (Lawful sampleTls) start (cycles n) ∧
    run (step sampleTls) start (cycles n) = some s ∧ step sampleTls s (.register 0) = some t ∧
      t.generation < s.generation := by
  -- the first cycle makes the slot, the others come back to it
  have hfirst : (step sampleTls start (.register 0)).bind (fun u => step sampleTls u (.unregister 0)) =
      some ⟨[.empty], 1, 2, Function.update (Function.update (fun _ : Nat => 0) 0 1) 0 0, [], false⟩ := rfl
  rw [update_back] at hfirst
  obtain ⟨u, hu, hfirst⟩ := Option.bind_eq_some_iff.mp hfirst
  refine ⟨2 ^ 64 - 3 + 1, cycled (2 ^ 64 - 1), _, cycles_lawful _ _, ?_, rfl, by decide⟩
  rw [cycles, run_cons, hu, Option.bind_some, run_cons, hfirst, Option.bind_some]
  exact run_cycles (2 ^ 64 - 3) (by decide)

end TlsModules
