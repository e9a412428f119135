import Libhybris.SpirvEntry
import Mathlib.Data.List.Pairwise

/-!
# The slice of an entry point

What the selected entry needs, said without the passes: the functions it reaches by calls, and the
ids that are live because these functions, the interface, or something live names them. The marks
the passes leave are exactly these, so the output is a slice of the module. It is closed under
references if no instruction outside of functions that the passes do not follow names something
dropped.
-/
namespace SpirvEntry

open Spirv Vulkan Saturate List Function

/-! ## What an entry needs -/

/-- The functions called from `root`. -/
inductive Reachable (m : Module) (root : Word) : Word → Prop
  | root : Reachable m root root
  | call {x : Item} (hx : x ∈ items m) (hin : x.function ≠ 0) (hfrom : Reachable m root x.function)
      (hop : x.instr.opcode = 57) : Reachable m root (x.instr.word 3)

/-- Variables outside of functions. -/
def Global (t : Tables) (m : Module) (id : Word) : Prop :=
  ∃ y ∈ items m, y.function = 0 ∧ y.instr.opcode = 59 ∧ t.defines y.instr = some id

/-- What stays: every declaration but the variables, the functions called, and the variables these
or the interface name, with those they name in turn. -/
inductive Live (t : Tables) (m : Module) (e : Instruction) : Word → Prop
  | declared {y : Item} {id : Word} (hy : y ∈ items m) (hout : y.function = 0)
      (hop : y.instr.opcode ≠ 59) (hid : t.defines y.instr = some id) : Live t m e id
  | owned {y : Item} {id : Word} (hy : y ∈ items m) (hin : y.function ≠ 0)
      (hreach : Reachable m (e.word 2) y.function) (hid : t.defines y.instr = some id) : Live t m e id
  | listed {id : Word} (hid : id ∈ interfaces e) : Live t m e id
  | used {x : Item} {id : Word} (hx : x ∈ items m) (hin : x.function ≠ 0)
      (hreach : Reachable m (e.word 2) x.function) (hid : id ∈ named t x.instr 1)
        (hglobal : Global t m id) :
      Live t m e id
  | initializer {x : Item} {id : Word} (hx : x ∈ items m) (hout : x.function = 0)
      (hop : x.instr.opcode = 59)
      (hlive : Live t m e (x.instr.word 2)) (hid : id ∈ named t x.instr 4)
        (hglobal : Global t m id) : Live t m e id
  | decoration {x : Item} {id : Word} (hx : x ∈ items m) (hout : x.function = 0)
      (hop : x.instr.opcode = 332 ∨ x.instr.opcode = 71 ∧ x.instr.word 2 = 5634)
      (hlive : Live t m e (x.instr.word 1)) (hid : id ∈ named t x.instr 3)
        (hglobal : Global t m id) : Live t m e id
  | constant {x : Item} {id : Word} (hx : x ∈ items m) (hout : x.function = 0)
      (hop : x.instr.opcode = 52 ∨ x.instr.opcode = 12) (hid : id ∈ named t x.instr 3)
        (hglobal : Global t m id) :
      Live t m e id

/-- What is assumed of the generated tables: which of the opcodes of the passes have a result, and
that only literals are marked. -/
structure Exact (t : Tables) (literal : Instruction → Nat → Prop) : Prop where
  function : t.results 54 = 3
  global : t.results 59 = 3
  plain : ∀ op ∈ ([0, 5, 6, 15, 16, 56, 71, 72, 74, 75, 331, 332, 5632, 5633] : List UInt16),
    t.results op = 1
  literals : ∀ l ∈ t.literals, ∀ (i : Instruction) (k : Nat), i.opcode = l.opcode →
    l.marks k = true → literal i k

/-- The rules of SPIR-V the passes rely on: ids are defined once, entry points, execution modes and
groups stand outside of functions, interfaces are declared outside of functions, and a function
names only what is declared outside of functions or by itself, and functions in calls. -/
structure WellFormed (t : Tables) (literal : Instruction → Nat → Prop) (m : Module) : Prop where
  unique : (m.instructions.filterMap t.defines).Nodup
  sections : ∀ x ∈ items m, x.function ≠ 0 → x.instr.opcode ∉ ([15, 16, 331, 74, 75] : List UInt16)
  interface : ∀ x ∈ items m, x.instr.opcode = 15 → ∀ id ∈ interfaces x.instr, ∀ y ∈ items m,
    t.defines y.instr = some id → y.function = 0
  bodies : ∀ x ∈ items m, x.function ≠ 0 → ∀ k, 0 < k → k < x.instr.count → ¬literal x.instr k →
    ∀ y ∈ items m, t.defines y.instr = some (x.instr.word k) →
      y.function = 0 ∨ y.function = x.function ∨ x.instr.opcode = 57 ∧ k = 3

/-! ## The instructions of a module -/

theorem map_instr_placed (f : Word) (l : List (Nat × Instruction)) :
    (placed f l).map Item.instr = l.map Prod.snd := by
  induction l generalizing f with
  | nil => rfl
  | cons p l ih => rw [placed, map_cons, map_cons, ih]

theorem map_instr_items (m : Module) : (items m).map Item.instr = m.instructions := by
  rw [items, map_instr_placed, map_snd_locate]

theorem map_offset_placed (f : Word) (l : List (Nat × Instruction)) :
    (placed f l).map Item.offset = l.map Prod.fst := by
  induction l generalizing f with
  | nil => rfl
  | cons p l ih => rw [placed, map_cons, map_cons, ih]

variable {i : Instruction} {x y : Item} {id bound model : Word} {k : Nat} {xs : List Item}
  {entry : List UInt8} {m : Module} {literal : Instruction → Nat → Prop} {t : Tables}

theorem exists_item (h : i ∈ m.instructions) : ∃ x ∈ items m, x.instr = i := by
  rw [← map_instr_items] at h
  exact mem_map.mp h

theorem item_instr (h : x ∈ items m) : x.instr ∈ m.instructions := by
  rw [← map_instr_items]
  exact mem_map_of_mem h

/-- Instructions start at different words. -/
theorem eq_of_offset (hx : x ∈ items m) (hy : y ∈ items m) (h : x.offset = y.offset) : x = y := by
  have hoffsets : ((items m).map Item.offset).Nodup := by
    rw [items, map_offset_placed]
    exact pairwise_map.mpr ((locate_pairwise 5 m.instructions).imp fun hlt => Nat.ne_of_lt hlt)
  exact inj_on_of_nodup_map hoffsets hx hy h

theorem function_of_placed {f : Word} {l : List (Nat × Instruction)} (h : x ∈ placed f l) :
    (x.instr.opcode = 54 → x.function = x.instr.word 2) ∧
      (x.function = f ∨ x.function = 0 ∨ ∃ y ∈ placed f l, y.instr.opcode = 54 ∧
        y.instr.word 2 = x.function) := by
  induction l generalizing f with
  | nil => cases h
  | cons p l ih =>
    obtain ⟨offset, i⟩ := p
    rcases mem_cons.mp h with rfl | h
    · refine ⟨fun hop => if_pos hop, ?_⟩
      by_cases hop : i.opcode = 54
      · exact .inr (.inr ⟨_, mem_cons_self, hop, (if_pos hop).symm⟩)
      · exact .inl (if_neg hop)
    · obtain ⟨hown, hfrom⟩ := ih h
      refine ⟨hown, ?_⟩
      rcases hfrom with hsame | hzero | ⟨y, hy, hop, hid⟩
      · rw [functionAfter, functionAt] at hsame
        split at hsame
        · exact .inr (.inl hsame)
        split at hsame
        · next hop => exact .inr (.inr ⟨_, mem_cons_self, hop, hsame.symm⟩)
        · exact .inl hsame
      · exact .inr (.inl hzero)
      · exact .inr (.inr ⟨y, mem_cons_of_mem _ hy, hop, hid⟩)

theorem function_of_opcode (h : x ∈ items m) (hop : x.instr.opcode = 54) :
    x.function = x.instr.word 2 := (function_of_placed h).1 hop

/-- A function starts with its `OpFunction`. -/
theorem exists_function (h : x ∈ items m) (hin : x.function ≠ 0) :
    ∃ y ∈ items m, y.instr.opcode = 54 ∧ y.instr.word 2 = x.function := by
  rcases (function_of_placed h).2 with hzero | hzero | hy
  · exact absurd hzero hin
  · exact absurd hzero hin
  · exact hy

theorem eq_of_defines (hunique : (m.instructions.filterMap t.defines).Nodup) (hx : x ∈ items m)
    (hy : y ∈ items m) (hidx : t.defines x.instr = some id) (hidy : t.defines y.instr = some id) :
    x = y := by
  rw [← map_instr_items, filterMap_map] at hunique
  have hpair := pairwise_filterMap.mp hunique
  have hsymm : Std.Symm fun a b : Item => ∀ c, (t.defines ∘ Item.instr) a = some c → ∀ d,
      (t.defines ∘ Item.instr) b = some d → c ≠ d := ⟨fun a b h c hc d hd => (h d hd c hc).symm⟩
  by_contra hne
  exact hpair.forall hx hy hne id hidx id hidy rfl

theorem mem_named {first : Nat} : id ∈ named t i first ↔
    ∃ k, first ≤ k ∧ k < i.count ∧ t.literalWord i.opcode k = false ∧ i.word k = id := by
  simp only [named, mem_map, mem_filter, mem_range'_1, Bool.not_eq_true']
  constructor
  · rintro ⟨k, ⟨⟨hfirst, hlast⟩, hliteral⟩, hid⟩
    exact ⟨k, hfirst, by omega, hliteral, hid⟩
  · rintro ⟨k, hfirst, hlast, hliteral, hid⟩
    exact ⟨k, ⟨⟨hfirst, by omega⟩, hliteral⟩, hid⟩

/-- The search finds an entry of the table. -/
theorem literal_of_table (h : Exact t literal) (hk : t.literalWord i.opcode k = true) : literal i k := by
  rw [Tables.literalWord] at hk
  split at hk
  · cases hk
  · next l hl =>
    rw [Bool.and_eq_true, decide_eq_true_eq] at hk
    exact h.literals l (mem_of_getElem? hl) i k hk.1.symm hk.2

/-! ## The first loop -/

/-- What the first loop has stored of the instructions it has seen. -/
structure Scanned (t : Tables) (bound : Word) (xs : List Item) (ids : Ids) : Prop where
  whole : ∀ x ∈ xs, t.results x.instr.opcode - 1 ≠ 0 → t.results x.instr.opcode - 1 < x.instr.count
  bounded : ∀ x ∈ xs, ∀ id, t.defines x.instr = some id → id ≠ 0 ∧ id < bound
  stored : ∀ id, (∃ x ∈ xs, t.defines x.instr = some id ∧ ids.owner id = x.function ∧
      ids.opcode id = x.instr.opcode ∧ ids.live id = (x.function = 0 && x.instr.opcode ≠ 59)) ∨
    ((∀ x ∈ xs, t.defines x.instr ≠ some id) ∧ ids.owner id = 0 ∧ ids.opcode id = 0 ∧ ids.live id = false)

theorem scanned_nil (t : Tables) (bound : Word) : Scanned t bound [] .none :=
  ⟨forall_mem_nil _, forall_mem_nil _,
    fun _ => .inr ⟨forall_mem_nil _, rfl, rfl, rfl⟩⟩

theorem Scanned.snoc {ids ids' : Ids} (h : Scanned t bound xs ids)
    (hx : scanResult t bound ids x = some ids') : Scanned t bound (xs ++ [x]) ids' := by
  simp only [scanResult] at hx
  split at hx
  · next hplain =>
    cases hx
    have hnone : t.defines x.instr = none := if_neg fun hd => hd.1 hplain
    refine ⟨forall_mem_append.mpr ⟨h.whole, ?_⟩, forall_mem_append.mpr ⟨h.bounded, ?_⟩, fun id => ?_⟩
    · exact forall_mem_singleton.mpr fun hresult => absurd hplain hresult
    · exact forall_mem_singleton.mpr fun id hid => nomatch hnone.symm.trans hid
    rcases h.stored id with ⟨y, hy, hfound⟩ | ⟨hnew, hrest⟩
    · exact .inl ⟨y, mem_append_left _ hy, hfound⟩
    · refine .inr ⟨forall_mem_append.mpr ⟨hnew, forall_mem_singleton.mpr ?_⟩, hrest⟩
      exact fun hid => nomatch hnone.symm.trans hid
  · next hresult =>
    rw [Option.ite_none_left_eq_some, not_or, not_or, UInt32.not_le, Nat.not_le] at hx
    obtain ⟨⟨hcount, hzero, hbound⟩, hx⟩ := hx
    cases hx
    have hdefines : t.defines x.instr = some (x.instr.word (t.results x.instr.opcode - 1)) :=
      if_pos ⟨hresult, hcount⟩
    refine ⟨forall_mem_append.mpr ⟨h.whole, ?_⟩, forall_mem_append.mpr ⟨h.bounded, ?_⟩, fun id => ?_⟩
    · exact forall_mem_singleton.mpr fun _ => hcount
    · refine forall_mem_singleton.mpr fun id hid => ?_
      cases hdefines.symm.trans hid
      exact ⟨hzero, hbound⟩
    by_cases hid : id = x.instr.word (t.results x.instr.opcode - 1)
    · subst hid
      exact .inl ⟨x, mem_append_right _ mem_cons_self, hdefines, update_self _ _ _,
        update_self _ _ _, update_self _ _ _⟩
    · simp only [Ids.define, update_of_ne hid]
      rcases h.stored id with ⟨y, hy, hfound⟩ | ⟨hnew, hrest⟩
      · exact .inl ⟨y, mem_append_left _ hy, hfound⟩
      · refine .inr ⟨forall_mem_append.mpr ⟨hnew, forall_mem_singleton.mpr ?_⟩, hrest⟩
        exact fun hidx => hid (Option.some.inj (hdefines.symm.trans hidx)).symm

/-- The entry point selected among the instructions seen. -/
structure Selected (model : Word) (entry : List UInt8) (xs : List Item) (s : Scan) : Prop where
  found : ∀ e, s.entry = some e → e ∈ xs ∧ e.instr.opcode = 15 ∧ e.instr.word 1 = model ∧
    nameOf e.instr = entry ∧ s.selected = e.instr.word 2
  only : ∀ x ∈ xs, x.instr.opcode = 15 → x.instr.word 1 = model → nameOf x.instr = entry → s.entry = some x

theorem Selected.snoc {s s' : Scan} (h : Selected model entry xs s)
    (hx : scanEntry bound model entry s x = some s') :
    Selected model entry (xs ++ [x]) s' ∧ s'.ids = s.ids := by
  have hweak : ∀ e, s.entry = some e → e ∈ xs ++ [x] ∧ e.instr.opcode = 15 ∧
      e.instr.word 1 = model ∧ nameOf e.instr = entry ∧ s.selected = e.instr.word 2 := by
    intro e he
    obtain ⟨hmem, hrest⟩ := h.found e he
    exact ⟨mem_append_left _ hmem, hrest⟩
  rw [scanEntry] at hx
  split at hx
  · next hop =>
    cases hx
    exact ⟨⟨hweak, forall_mem_append.mpr ⟨h.only, forall_mem_singleton.mpr fun h => absurd h hop⟩⟩, rfl⟩
  next hop =>
  rw [not_not] at hop
  simp only [Option.ite_none_left_eq_some] at hx
  obtain ⟨-, -, hx⟩ := hx
  split at hx
  · next hmatch =>
    simp only [Option.ite_none_left_eq_some, Option.some.injEq] at hx
    obtain ⟨hfirst, rfl⟩ := hx
    refine ⟨⟨fun e he => ?_, forall_mem_append.mpr ⟨fun y hy hy' hmodel hname => ?_, ?_⟩⟩, rfl⟩
    · cases he
      exact ⟨mem_append_right _ mem_cons_self, hop, hmatch.1, hmatch.2, rfl⟩
    · exact absurd (Option.isSome_of_eq_some (h.only y hy hy' hmodel hname)) hfirst
    · exact forall_mem_singleton.mpr fun _ _ _ => rfl
  · next hmatch =>
    cases hx
    refine ⟨⟨hweak, forall_mem_append.mpr ⟨h.only, ?_⟩⟩, rfl⟩
    exact forall_mem_singleton.mpr fun _ hmodel hname => absurd ⟨hmodel, hname⟩ hmatch

theorem scan_spec {s : Scan} (h : scan t bound model entry xs ⟨.none, 0, none⟩ = some s) :
    Scanned t bound xs s.ids ∧ Selected model entry xs s := by
  suffices hmain : ∀ (todo done : List Item) (s₀ : Scan), Scanned t bound done s₀.ids →
      Selected model entry done s₀ → scan t bound model entry todo s₀ = some s →
      Scanned t bound (done ++ todo) s.ids ∧ Selected model entry (done ++ todo) s by
    exact hmain xs [] ⟨.none, 0, none⟩ (scanned_nil t bound)
      ⟨(fun e he => nomatch he), forall_mem_nil _⟩ h
  intro todo
  induction todo with
  | nil =>
    intro done s₀ hscanned hselected hs
    cases hs
    rw [append_nil]
    exact ⟨hscanned, hselected⟩
  | cons x todo ih =>
    intro done s₀ hscanned hselected hs
    obtain ⟨s₁, hitem, hrest⟩ := Option.bind_eq_some_iff.mp hs
    simp only [scanItem, Option.ite_none_left_eq_some] at hitem
    obtain ⟨-, -, -, hitem⟩ := hitem
    obtain ⟨ids, hresult, hentry⟩ := Option.bind_eq_some_iff.mp hitem
    obtain ⟨hselected', hids⟩ := (show Selected model entry done { s₀ with ids } from
      ⟨hselected.found, hselected.only⟩).snoc hentry
    have hscanned' := hscanned.snoc hresult
    rw [show done ++ x :: todo = (done ++ [x]) ++ todo by rw [append_assoc]; rfl]
    exact ih (done ++ [x]) s₁ (hids ▸ hscanned') hselected' hrest

/-! ## The marks -/

/-- What is known when marking starts. -/
structure Ready (t : Tables) (m : Module) (s : Scan) (e : Item) : Prop where
  function : t.results 54 = 3
  unique : (m.instructions.filterMap t.defines).Nodup
  scanned : Scanned t m.bound (items m) s.ids
  selected : s.selected = e.instr.word 2
  called : s.ids.opcode s.selected = 54
  interface : ∀ id ∈ interfaces e.instr, ∀ y ∈ items m, t.defines y.instr = some id → y.function = 0

variable {live : Word → Bool}

section Marking

variable {s : Scan} {e : Item}

section
variable (h : Ready t m s e)
include h

/-- An id that is defined has what its instruction stored. -/
theorem Ready.stored (hy : y ∈ items m) (hid : t.defines y.instr = some id) :
    s.ids.owner id = y.function ∧ s.ids.opcode id = y.instr.opcode ∧
      s.ids.live id = (y.function = 0 && y.instr.opcode ≠ 59) := by
  rcases h.scanned.stored id with ⟨x, hx, hidx, hstored⟩ | ⟨hnone, -⟩
  · cases eq_of_defines h.unique hx hy hidx hid
    exact hstored
  · exact absurd hid (hnone y hy)

theorem Ready.global_iff (id : Word) : isGlobal m.bound s.ids id = true ↔ Global t m id := by
  simp only [isGlobal, Bool.and_eq_true, decide_eq_true_eq]
  constructor
  · rintro ⟨⟨-, hop⟩, howner⟩
    rcases h.scanned.stored id with ⟨x, hx, hid, howner', hop', -⟩ | ⟨-, -, hzero, -⟩
    · exact ⟨x, hx, howner'.symm.trans howner, hop'.symm.trans hop, hid⟩
    · exact absurd (hzero.symm.trans hop) (by decide)
  · rintro ⟨y, hy, hout, hop, hid⟩
    obtain ⟨howner, hopcode, -⟩ := h.stored hy hid
    exact ⟨⟨(h.scanned.bounded y hy id hid).2, hopcode.trans hop⟩, howner.trans hout⟩

/-- The id of a function, as its `OpFunction` defines it. -/
theorem Ready.function_defines (hy : y ∈ items m) (hop : y.instr.opcode = 54) :
    t.defines y.instr = some (y.instr.word 2) := by
  have hwhole := h.scanned.whole y hy
  rw [hop, h.function] at hwhole
  rw [Tables.defines, hop, h.function, if_pos ⟨by decide, hwhole (by decide)⟩]

theorem Ready.exists_definition (hx : x ∈ items m) (hin : x.function ≠ 0) :
    ∃ y ∈ items m, t.defines y.instr = some x.function ∧ y.function = x.function := by
  obtain ⟨y, hy, hop, hid⟩ := exists_function hx hin
  exact ⟨y, hy, hid ▸ h.function_defines hy hop, hid ▸ function_of_opcode hy hop⟩

theorem Ready.function_stored (hx : x ∈ items m) (hin : x.function ≠ 0) :
    s.ids.owner x.function = x.function ∧ s.ids.live x.function = false := by
  obtain ⟨y, hy, hdefines, hsame⟩ := h.exists_definition hx hin
  obtain ⟨howner, -, hlive⟩ := h.stored hy hdefines
  rw [hsame] at howner hlive
  exact ⟨howner, by rw [hlive, decide_eq_false hin, Bool.false_and]⟩

/-- Ids with the opcode of a function are functions. -/
theorem Ready.owner_function (hop : s.ids.opcode id = 54) : s.ids.owner id = id := by
  rcases h.scanned.stored id with ⟨y, hy, hid, howner, hopcode, -⟩ | ⟨-, -, hzero, -⟩
  · have hy54 : y.instr.opcode = 54 := hopcode.symm.trans hop
    have hdefines := h.function_defines hy hy54
    rw [howner, function_of_opcode hy hy54]
    exact Option.some.inj (hdefines.symm.trans hid)
  · cases hzero.symm.trans hop

end

/-! ### Calls -/

section Called

variable {fuel : Nat}

section
variable (h : Ready t m s e)
  (hcalled : saturate (callTargets m.bound s.ids.opcode) (items m) fuel
    (Function.update s.ids.live s.selected true) = some live)
include h hcalled

theorem called_sound (hid : live id = true) : s.ids.live id = true ∨ Reachable m (e.instr.word 2) id := by
  refine saturate_sound
    (P := fun id => s.ids.live id = true ∨ Reachable m (e.instr.word 2) id) ?_ ?_ hcalled id hid
  · intro x hx f ks hf hks k hk
    rw [callTargets] at hks
    split at hks
    · next hcall =>
      simp only [Option.ite_none_left_eq_some, Option.some.injEq] at hks
      obtain ⟨-, rfl⟩ := hks
      cases mem_singleton.mp hk
      rcases hf x.function hcall.2.1 with hlive | hreach
      · exact absurd ((h.function_stored hx hcall.1).2.symm.trans hlive) (by decide)
      · exact .inr (.call hx hcall.1 hreach hcall.2.2)
    · cases hks
      cases hk
  · intro k hk
    by_cases hk' : k = s.selected
    · rw [hk', h.selected]
      exact .inr .root
    · rw [update_of_ne hk'] at hk
      exact .inl hk

/-- Reachable functions are marked, and they are functions. -/
theorem called_complete (hid : Reachable m (e.instr.word 2) id) :
    live id = true ∧ s.ids.opcode id = 54 := by
  induction hid with
  | root =>
    rw [← h.selected]
    exact ⟨saturate_le hcalled (update_self _ _ _), h.called⟩
  | @call x hx hin _ hop ih =>
    obtain ⟨ks, hks, hmarked⟩ := saturate_closed hcalled x hx
    rw [callTargets, if_pos ⟨hin, ih.1, hop⟩] at hks
    simp only [Option.ite_none_left_eq_some, Option.some.injEq, not_or, not_not] at hks
    obtain ⟨⟨-, -, hopcode⟩, rfl⟩ := hks
    exact ⟨hmarked _ mem_cons_self, hopcode⟩

end

end Called

/-! ### What functions define -/

/-- The marks of owners do not change while the others take them over. -/
theorem foldl_owners {owner : Word → Word} (howner : ∀ id, owner id ≠ 0 →
    owner (owner id) = owner id) (ns : List Nat) (live : Word → Bool) (id : Word) :
    ns.foldl (fun live n =>
        if owner (UInt32.ofNat n) ≠ 0 then Function.update live (UInt32.ofNat n)
          (live (owner (UInt32.ofNat n)))
        else live) live id =
      if id ∈ ns.map UInt32.ofNat ∧ owner id ≠ 0 then live (owner id) else live id := by
  induction ns generalizing live with
  | nil => simp
  | cons n ns ih =>
    rw [foldl_cons, ih]
    simp only [map_cons, mem_cons]
    generalize UInt32.ofNat n = k
    have hmarked : ∀ j, (if owner k ≠ 0 then Function.update live k (live (owner k)) else live) j =
        if j = k ∧ owner j ≠ 0 then live (owner j) else live j := by
      intro j
      by_cases hj : j = k
      · subst hj
        by_cases hzero : owner j = 0 <;> simp [hzero]
      · rw [if_neg (fun hboth : j = k ∧ owner j ≠ 0 => hj hboth.1)]
        split
        · exact update_of_ne hj _ _
        · rfl
    rw [hmarked, hmarked]
    by_cases hzero : owner id = 0
    · simp [hzero]
    · have hsame :
          (if owner id = k ∧ owner (owner id) ≠ 0 then live (owner (owner id)) else live (owner id)) =
          live (owner id) := by
        rw [howner id hzero, ite_self]
      simp only [hsame, ne_eq, hzero, not_false_eq_true, and_true]
      by_cases hmem : id ∈ ns.map UInt32.ofNat
      · simp [hmem]
      · simp [hmem]

theorem Ready.owner_owner (h : Ready t m s e) (hid : s.ids.owner id ≠ 0) :
    s.ids.owner (s.ids.owner id) = s.ids.owner id := by
  rcases h.scanned.stored id with ⟨y, hy, -, howner, -, -⟩ | ⟨-, hzero, -⟩
  · rw [howner] at hid ⊢
    exact (h.function_stored hy hid).1
  · exact absurd hzero hid

theorem ownersLive_eq (h : Ready t m s e) (live : Word → Bool) (id : Word) :
    ownersLive m.bound s.ids.owner live id = if s.ids.owner id ≠ 0 then live
      (s.ids.owner id) else live id := by
  refine (foldl_owners (fun _ => h.owner_owner) _ live id).trans ?_
  by_cases hzero : s.ids.owner id = 0
  · rw [if_neg fun hid => hid.2 hzero, if_neg (not_not.mpr hzero)]
  · rw [if_pos hzero]
    refine if_pos ⟨mem_map.mpr ⟨id.toNat, ?_, UInt32.ofNat_toNat⟩, hzero⟩
    rcases h.scanned.stored id with ⟨y, hy, hid, -⟩ | ⟨-, hnone, -⟩
    · obtain ⟨hpos, hlt⟩ := h.scanned.bounded y hy id hid
      have hlt' : id.toNat < m.bound.toNat := UInt32.lt_iff_toNat_lt.mp hlt
      have hpos' : id.toNat ≠ 0 := fun hnat => hpos (UInt32.toNat.inj hnat)
      rw [mem_range'_1]
      omega
    · exact absurd hnone hzero

/-! ### Interfaces and bodies -/

theorem interfacesLive_iff {listed : Word → Bool} (h : interfacesLive bound i live = some listed)
    (id : Word) : listed id = true ↔ live id = true ∨ id ∈ interfaces i := by
  simp only [interfacesLive, Option.ite_none_left_eq_some, Option.some.injEq] at h
  obtain ⟨-, rfl⟩ := h
  generalize interfaces i = ids
  induction ids generalizing live with
  | nil => simp
  | cons k ids ih =>
    rw [foldl_cons, ih, mem_cons]
    by_cases hid : id = k
    · simp [hid]
    · simp [hid]

/-- Live ids of a function are those of reachable functions. -/
theorem Ready.reachable_of_live (h : Ready t m s e) (hy : y ∈ items m) (hin : y.function ≠ 0)
    (hid : t.defines y.instr = some id) (hlive : Live t m e.instr id) :
    Reachable m (e.instr.word 2) y.function := by
  have hglobal : ¬Global t m id := by
    rintro ⟨y', hy', hout, -, hid'⟩
    cases eq_of_defines h.unique hy hy' hid hid'
    exact hin hout
  cases hlive with
  | declared hy' hout _ hid' =>
    cases eq_of_defines h.unique hy hy' hid hid'
    exact absurd hout hin
  | owned hy' _ hreach hid' =>
    cases eq_of_defines h.unique hy hy' hid hid'
    exact hreach
  | listed hid' => exact absurd (h.interface id hid' y hy hid) hin
  | used _ _ _ _ hg | initializer _ _ _ _ _ hg | decoration _ _ _ _ _ hg | constant _ _ _ _ hg =>
    exact absurd hg hglobal

theorem Ready.reachable_of_function (h : Ready t m s e) (hx : x ∈ items m) (hin : x.function ≠ 0)
    (hlive : Live t m e.instr x.function) : Reachable m (e.instr.word 2) x.function := by
  obtain ⟨y, hy, hdefines, hsame⟩ := h.exists_definition hx hin
  exact hsame ▸ h.reachable_of_live hy (hsame ▸ hin) hdefines hlive

section Owned

variable {fuel : Nat} {called : Word → Bool}

section
variable (h : Ready t m s e)
  (hcalled : saturate (callTargets m.bound s.ids.opcode) (items m) fuel
    (Function.update s.ids.live s.selected true) = some called)
include h hcalled

theorem owned_sound (hid : ownersLive m.bound s.ids.owner called id = true) : Live t m e.instr id := by
  rw [ownersLive_eq h] at hid
  rcases h.scanned.stored id with ⟨y, hy, hdefines, howner, hopcode, hlive⟩ | ⟨hnone, howner,
    hopcode, hlive⟩
  · by_cases hin : y.function = 0
    · rw [if_neg (not_not.mpr (howner.trans hin))] at hid
      rcases called_sound h hcalled hid with hmarked | hreach
      · rw [hlive, Bool.and_eq_true, decide_eq_true_eq, decide_eq_true_eq] at hmarked
        exact .declared hy hmarked.1 hmarked.2 hdefines
      · -- a reachable id is a function, and so its own owner
        have hself := h.owner_function (called_complete h hcalled hreach).2
        rw [howner, hin] at hself
        exact absurd hself.symm (h.scanned.bounded y hy id hdefines).1
    · rw [howner, if_pos hin] at hid
      rcases called_sound h hcalled hid with hmarked | hreach
      · cases (h.function_stored hy hin).2.symm.trans hmarked
      · exact .owned hy hin hreach hdefines
  · rw [if_neg (not_not.mpr howner)] at hid
    rcases called_sound h hcalled hid with hmarked | hreach
    · cases hlive.symm.trans hmarked
    · cases hopcode.symm.trans (called_complete h hcalled hreach).2

theorem owned_declared (hy : y ∈ items m) (hid : t.defines y.instr = some id)
    (hstays : y.function = 0 ∧ y.instr.opcode ≠ 59 ∨ y.function ≠ 0 ∧
      Reachable m (e.instr.word 2) y.function) :
    ownersLive m.bound s.ids.owner called id = true := by
  obtain ⟨howner, -, hlive⟩ := h.stored hy hid
  rw [ownersLive_eq h, howner]
  rcases hstays with ⟨hout, hop⟩ | ⟨hin, hreach⟩
  · rw [if_neg (not_not.mpr hout)]
    refine saturate_le hcalled ?_
    by_cases hsel : id = s.selected
    · rw [hsel, update_self]
    · rw [update_of_ne hsel, hlive, hout]
      simpa using hop
  · rw [if_pos hin]
    exact (called_complete h hcalled hreach).1

end

end Owned

theorem live_lt (h : Ready t m s e) (hinterface : ∀ id ∈ interfaces e.instr, id < m.bound)
    (hlive : Live t m e.instr id) : id < m.bound := by
  have hglobal : Global t m id → id < m.bound := fun ⟨y, hy, _, _, hid⟩ => (h.scanned.bounded y hy id hid).2
  cases hlive with
  | declared hy _ _ hid => exact (h.scanned.bounded _ hy id hid).2
  | owned hy _ _ hid => exact (h.scanned.bounded _ hy id hid).2
  | listed hid => exact hinterface id hid
  | used _ _ _ _ hg | initializer _ _ _ _ _ hg | decoration _ _ _ _ _ hg | constant _ _ _ _ hg =>
    exact hglobal hg

theorem bodyTargets_sound (h : Ready t m s e) (hx : x ∈ items m) {ks : List Word}
    (hlive : ∀ id, live id = true → Live t m e.instr id)
    (hks : bodyTargets t m.bound s.ids x live = some ks) (hid : id ∈ ks) : Live t m e.instr id := by
  cases hks
  split at hid
  · next hin =>
    obtain ⟨hnamed, hglobal⟩ := mem_filter.mp hid
    exact .used hx hin.1 (h.reachable_of_function hx hin.1 (hlive _ hin.2)) hnamed
      ((h.global_iff id).mp hglobal)
  · cases hid

theorem bodyTargets_mono : ∀ x ∈ items m, ∀ f g ks, (∀ k, f k = true → g k = true) →
    bodyTargets t m.bound s.ids x f = some ks → ∃ ks', bodyTargets t m.bound s.ids x g = some ks' ∧
      ks ⊆ ks' := by
  intro x _ f g ks hle hks
  cases hks
  refine ⟨_, rfl, ?_⟩
  split
  · next hin => rw [if_pos ⟨hin.1, hle _ hin.2⟩]; exact List.Subset.refl _
  · exact nil_subset _

theorem globalTargets_sound (h : Ready t m s e) (hx : x ∈ items m) {ks : List Word}
    (hlive : ∀ id, live id = true → Live t m e.instr id)
    (hks : globalTargets t m.bound s.ids x live = some ks) (hid : id ∈ ks) : Live t m e.instr id := by
  cases hks
  split at hid
  · next hout =>
    obtain ⟨hnamed, hglobal⟩ := mem_filter.mp hid
    have hglobal := (h.global_iff id).mp hglobal
    rw [firstNamed] at hnamed
    split at hnamed
    · next hop => exact .initializer hx hout hop.1 (hlive _ hop.2.2) hnamed hglobal
    split at hnamed
    · next hop => exact .decoration hx hout (.inl hop.1) (hlive _ hop.2.2.2) hnamed hglobal
    split at hnamed
    · next hop => exact .decoration hx hout (.inr ⟨hop.1, hop.2.2.2.2⟩) (hlive _ hop.2.2.2.1) hnamed hglobal
    split at hnamed
    · next hop => exact .constant hx hout hop hnamed hglobal
    · obtain ⟨k, hfirst, hlast, -⟩ := mem_named.mp hnamed
      omega
  · cases hid

/-- The marks that are left are exactly what the entry needs. -/
theorem marking_iff (h : Ready t m s e) (hmarking : marking t m.bound s e (items m) = some live)
    (id : Word) : live id = true ↔ Live t m e.instr id := by
  simp only [marking, bind, Option.bind_eq_some_iff] at hmarking
  obtain ⟨called, hcalled, listed, hlisted, ⟨used, changed⟩, hused, hfinal⟩ := hmarking
  have hlistedSound : ∀ id, listed id = true → Live t m e.instr id := by
    intro id hid
    rcases (interfacesLive_iff hlisted id).mp hid with howned | hid
    · exact owned_sound h hcalled howned
    · exact .listed hid
  have husedSound : ∀ id, used id = true → Live t m e.instr id :=
    pass_sound (fun x hx f ks hf hks k => bodyTargets_sound h hx hf hks) hlistedSound hused
  have hlist : ∀ id, listed id = true → live id = true := fun id hid =>
    saturate_le hfinal (pass_le hused hid)
  have hinterface : ∀ id ∈ interfaces e.instr, id < m.bound := by
    simp only [interfacesLive, Option.ite_none_left_eq_some, any_eq_true, decide_eq_true_eq,
      not_exists, not_and, UInt32.not_le] at hlisted
    exact hlisted.1
  -- the last pass has marked the variables an instruction names
  have hfollowed : ∀ {x id first}, x ∈ items m → x.function = 0 → firstNamed m.bound x.instr live =
      first → id ∈ named t x.instr first → Global t m id → live id = true := by
    intro x id first hx hout hfirst hid hglobal
    obtain ⟨ks, hks, hmarked⟩ := saturate_closed hfinal x hx
    rw [globalTargets, if_pos hout, hfirst] at hks
    cases hks
    exact hmarked id (mem_filter.mpr ⟨hid, (h.global_iff id).mpr hglobal⟩)
  constructor
  · exact saturate_sound (fun x hx f ks hf hks k => globalTargets_sound h hx hf hks) husedSound hfinal id
  · intro hlive
    induction hlive with
    | declared hy hout hop hid =>
      exact hlist _
        ((interfacesLive_iff hlisted _).mpr (.inl (owned_declared h hcalled hy hid (.inl ⟨hout, hop⟩))))
    | owned hy hin hreach hid =>
      exact hlist _
        ((interfacesLive_iff hlisted _).mpr (.inl (owned_declared h hcalled hy hid (.inr ⟨hin, hreach⟩))))
    | listed hid => exact hlist _ ((interfacesLive_iff hlisted _).mpr (.inr hid))
    | @used x id hx hin hreach hid hglobal =>
      obtain ⟨y, hy, hdefines, hsame⟩ := h.exists_definition hx hin
      have hfunction : listed x.function = true := (interfacesLive_iff hlisted _).mpr
        (.inl (owned_declared h hcalled hy hdefines (.inr ⟨hsame ▸ hin, hsame ▸ hreach⟩)))
      have hks : bodyTargets t m.bound s.ids x listed =
        some ((named t x.instr 1).filter (isGlobal m.bound s.ids)) := by
        rw [bodyTargets, if_pos ⟨hin, hfunction⟩]
      exact saturate_le hfinal (pass_complete bodyTargets_mono hused (fun _ hk => hk) hx hks
        (mem_filter.mpr ⟨hid, (h.global_iff id).mpr hglobal⟩))
    | initializer hx hout hop _ hid hglobal ih =>
      obtain ⟨k, hfirst, hlast, -⟩ := mem_named.mp hid
      refine hfollowed hx hout ?_ hid hglobal
      rw [firstNamed, if_pos ⟨hop, by omega, ih⟩]
    | decoration hx hout hop hlive hid hglobal ih =>
      obtain ⟨k, hfirst, hlast, -⟩ := mem_named.mp hid
      have hlt := live_lt h hinterface hlive
      refine hfollowed hx hout ?_ hid hglobal
      rcases hop with hop | ⟨hop, hcounter⟩
      · rw [firstNamed, if_neg (by simp [hop]), if_pos ⟨hop, by omega, hlt, ih⟩]
      · rw [firstNamed, if_neg (by simp [hop]), if_neg (by simp [hop]),
          if_pos ⟨hop, by omega, hlt, ih, hcounter⟩]
    | constant hx hout hop hid hglobal =>
      refine hfollowed hx hout ?_ hid hglobal
      rcases hop with hop | hop <;> simp [firstNamed, hop]

end Marking

/-! ## The output -/

theorem slice_eq_some {opcode : Word → UInt16} {e : Item} {is : List Instruction}
    (h : slice t bound opcode live e xs = some is) :
    (∀ x ∈ xs, (keep t bound opcode live e x).isSome) ∧
      is = (xs.filter fun x => keep t bound opcode live e x = some true).map Item.instr := by
  induction xs generalizing is with
  | nil =>
    cases h
    exact ⟨forall_mem_nil _, rfl⟩
  | cons x xs ih =>
    simp only [slice, bind, Option.bind_eq_some_iff] at h
    obtain ⟨kept, hkept, rest, hrest, hout⟩ := h
    obtain ⟨hall, rfl⟩ := ih hrest
    refine ⟨forall_mem_cons.mpr ⟨by rw [hkept]; rfl, hall⟩, ?_⟩
    cases hout
    rw [filter_cons, hkept]
    cases kept <;> rfl

/-- Whether an instruction stays, said of the module. -/
structure Stays (t : Tables) (m : Module) (e x : Item) : Prop where
  body : x.function ≠ 0 → Reachable m (e.instr.word 2) x.function
  entry : x.function = 0 → x.instr.opcode = 15 → x = e
  mode : x.function = 0 → isMode x.instr = true → x.instr.word 1 = e.instr.word 2
  global : x.function = 0 → x.instr.opcode = 59 → Live t m e.instr (x.instr.word 2)
  annotated : x.function = 0 → annotates x.instr = true → Live t m e.instr (x.instr.word 1)

theorem Stays.inside {e : Item} (hin : x.function ≠ 0)
    (h : Reachable m (e.instr.word 2) x.function) : Stays t m e x :=
  ⟨fun _ => h, fun hout => absurd hout hin, fun hout => absurd hout hin,
    fun hout => absurd hout hin, fun hout => absurd hout hin⟩

theorem isMode_iff : isMode i = true ↔ i.opcode = 16 ∨ i.opcode = 331 := by
  simp only [isMode, Bool.or_eq_true, decide_eq_true_eq]

theorem annotates_iff :
    annotates i = true ↔ i.opcode ∈ ([5, 6, 71, 72, 332, 5632, 5633] : List UInt16) := by
  simp only [annotates, Bool.or_eq_true, decide_eq_true_eq, mem_cons, not_mem_nil, or_false, or_assoc]

theorem isChecked_iff : isChecked i = true ↔ i.opcode ∈ ([74, 75, 12] : List UInt16) := by
  simp only [isChecked, Bool.or_eq_true, decide_eq_true_eq, mem_cons, not_mem_nil, or_false, or_assoc]

section Output

variable {s : Scan} {e : Item}

theorem Stays.of_mode (hout : x.function = 0) (hmode : isMode x.instr = true)
    (hword : x.instr.word 1 = e.instr.word 2) : Stays t m e x := by
  rw [isMode_iff] at hmode
  refine ⟨fun hin => absurd hout hin, fun _ hop => ?_, fun _ _ => hword, fun _ hop => ?_,
    fun _ hannotates => ?_⟩
  · rcases hmode with hmode | hmode <;> cases hmode.symm.trans hop
  · rcases hmode with hmode | hmode <;> cases hmode.symm.trans hop
  · rcases hmode with hmode | hmode <;> simp [annotates, hmode] at hannotates

theorem keep_iff (h : Ready t m s e) (he : e ∈ items m) (hlive : ∀ id, live id = true ↔ Live t m e.instr id)
    (hx : x ∈ items m) (hsome : (keep t m.bound s.ids.opcode live e x).isSome) :
    keep t m.bound s.ids.opcode live e x = some true ↔ Stays t m e x := by
  rw [keep] at hsome ⊢
  split
  · next hin =>
    rw [Option.some.injEq, hlive]
    refine ⟨fun hreach => .inside hin (h.reachable_of_function hx hin hreach), fun hstays => ?_⟩
    obtain ⟨y, hy, hdefines, hsame⟩ := h.exists_definition hx hin
    exact .owned hy (hsame ▸ hin) (hsame ▸ hstays.body hin) hdefines
  next hout =>
  rw [if_neg hout] at hsome
  split
  · next hop =>
    rw [Option.some.injEq, decide_eq_true_eq]
    refine ⟨fun hoffset => ?_, fun hstays => by rw [hstays.entry (not_not.mp hout) hop]⟩
    exact ⟨fun hin => absurd hin hout, fun _ _ => eq_of_offset hx he hoffset,
      fun _ hmode => by simp [isMode, hop] at hmode, (fun _ hop' => nomatch hop.symm.trans hop'),
      fun _ hannotates => by simp [annotates, hop] at hannotates⟩
  next hentry =>
  rw [if_neg hentry] at hsome
  split
  · next hmode =>
    rw [if_pos hmode] at hsome
    split
    · next hshort => rw [if_pos hshort] at hsome; cases hsome
    rw [Option.some.injEq, decide_eq_true_eq]
    exact ⟨.of_mode (not_not.mp hout) hmode, fun hstays => hstays.mode (not_not.mp hout) hmode⟩
  next hmode =>
  rw [if_neg hmode] at hsome
  split
  · next hop =>
    rw [Option.some.injEq, hlive]
    refine ⟨fun hword => ?_, fun hstays => hstays.global (not_not.mp hout) hop⟩
    exact ⟨fun hin => absurd hin hout, fun _ hop' => absurd hop' hentry,
      fun _ hmode' => absurd hmode' hmode,
      fun _ _ => hword, fun _ hannotates => by simp [annotates, hop] at hannotates⟩
  next hglobal =>
  rw [if_neg hglobal] at hsome
  split
  · next hannotates =>
    rw [if_pos hannotates] at hsome
    split
    · next hshort => rw [if_pos hshort] at hsome; cases hsome
    rw [Option.some.injEq, hlive]
    refine ⟨fun hword => ?_, fun hstays => hstays.annotated (not_not.mp hout) hannotates⟩
    exact ⟨fun hin => absurd hin hout, fun _ hop => absurd hop hentry,
      fun _ hmode' => absurd hmode' hmode, fun _ hop => absurd hop hglobal, fun _ _ => hword⟩
  next hannotates =>
  rw [if_neg hannotates] at hsome
  have hrest : Stays t m e x :=
    ⟨fun hin => absurd hin hout, fun _ hop => absurd hop hentry, fun _ hmode' => absurd hmode' hmode,
      fun _ hop => absurd hop hglobal, fun _ hannotates' => absurd hannotates' hannotates⟩
  split
  · next hchecked =>
    rw [if_pos hchecked] at hsome
    split
    · next hdead => rw [if_pos hdead] at hsome; cases hsome
    · exact ⟨fun _ => hrest, fun _ => rfl⟩
  · exact ⟨fun _ => hrest, fun _ => rfl⟩

/-- The opcodes without a result. -/
theorem Exact.defines_plain (hexact : Exact t literal)
    (h : i.opcode ∈ ([0, 5, 6, 15, 16, 56, 71, 72, 74, 75, 331, 332, 5632, 5633] : List UInt16)) :
    t.defines i = none := by
  rw [Tables.defines, hexact.plain _ h]
  rfl

theorem Exact.defines_global (hexact : Exact t literal) (hop : i.opcode = 59)
    (h : t.defines i = some id) : i.word 2 = id := by
  rw [Tables.defines, hop, hexact.global] at h
  split at h
  · exact Option.some.inj h
  · cases h

/-- What defines a live id stays. -/
theorem stays_of_live (hexact : Exact t literal) (h : Ready t m s e) (hy : y ∈ items m)
    (hid : t.defines y.instr = some id)
    (hlive : y.function ≠ 0 ∨ y.instr.opcode = 59 → Live t m e.instr id) :
    Stays t m e y := by
  have hresult :
    y.instr.opcode ∉ ([0, 5, 6, 15, 16, 56, 71, 72, 74, 75, 331, 332, 5632, 5633] : List UInt16) :=
    fun hmem => nomatch (hexact.defines_plain hmem).symm.trans hid
  refine ⟨fun hin => h.reachable_of_live hy hin hid (hlive (.inl hin)), fun _ hop => ?_,
    fun _ hmode => ?_, fun _ hop => ?_, fun _ hannotates => ?_⟩
  · exact absurd (by simp [hop]) hresult
  · rcases isMode_iff.mp hmode with hop | hop <;> exact absurd (by simp [hop]) hresult
  · rw [hexact.defines_global hop hid]
    exact hlive (.inr hop)
  · rw [annotates_iff] at hannotates
    refine absurd ?_ hresult
    simp only [mem_cons, not_mem_nil, or_false] at hannotates ⊢
    rcases hannotates with hop | hop | hop | hop | hop | hop | hop <;> simp [hop]

/-- An output that defines every id its instructions name, as far as the input does. -/
def Closed (t : Tables) (literal : Instruction → Nat → Prop) (input output : List Instruction) : Prop :=
  ∀ i ∈ output, ∀ k, 0 < k → k < i.count → ¬literal i k → ∀ j ∈ input,
    t.defines j = some (i.word k) → ∃ j' ∈ output, t.defines j' = some (i.word k)

/-- The words outside of functions in which a dropped id makes the pass drop the instruction, or
refuse. -/
def Checked (i : Instruction) (k : Nat) : Prop :=
  isChecked i = true ∨ (isMode i = true ∨ annotates i = true) ∧ k = 1 ∨ i.opcode = 15 ∧ k = 2

/-- The words outside of functions that keep a variable alive: interfaces, initializers, ids of
decorations and operands of constants. -/
def Followed (i : Instruction) (k : Nat) : Prop :=
  i.opcode = 15 ∧ interfaceStart i ≤ k ∨ i.opcode = 59 ∧ (k = 2 ∨ 4 ≤ k) ∨
    (i.opcode = 332 ∨ i.opcode = 71 ∧ i.word 2 = 5634) ∧ 3 ≤ k ∨ i.opcode = 52 ∧ 3 ≤ k

/-- No other word of an instruction that stays outside of functions names an id of a function that
is not called or a variable that is not live. -/
def Unsevered (t : Tables) (literal : Instruction → Nat → Prop) (m : Module) (e : Item) : Prop :=
  ∀ x ∈ items m, x.function = 0 → Stays t m e x → ∀ k, 0 < k → k < x.instr.count → ¬literal x.instr
    k → ¬Checked x.instr k → ∀ y ∈ items m, t.defines y.instr = some (x.instr.word k) →
      (y.function ≠ 0 → Reachable m (e.instr.word 2) y.function) ∧
      (y.function = 0 → y.instr.opcode = 59 → ¬Followed x.instr k → Live t m e.instr (x.instr.word k))

theorem mem_interfaces (hfirst : interfaceStart i ≤ k) (hlast : k < i.count) : i.word k ∈ interfaces i := by
  rw [interfaces, Instruction.word, getD_eq_getElem _ _ (by rw [i.length_words]; exact hlast)]
  rw [mem_iff_getElem]
  refine ⟨k - interfaceStart i, by rw [length_drop, i.length_words]; omega, ?_⟩
  rw [getElem_drop]
  congr 1
  omega

/-- A followed word names a variable that is live. -/
theorem live_of_followed (hx : x ∈ items m) (hout : x.function = 0) (hstays : Stays t m e x)
    (hlast : k < x.instr.count) (hnamed : t.literalWord x.instr.opcode k = false)
    (hglobal : Global t m (x.instr.word k)) (hfollowed : Followed x.instr k) :
    Live t m e.instr (x.instr.word k) := by
  rcases hfollowed with ⟨hop, hfirst⟩ | ⟨hop, hfirst⟩ | ⟨hop, hfirst⟩ | ⟨hop, hfirst⟩
  · rw [hstays.entry hout hop] at hfirst hlast ⊢
    exact .listed (mem_interfaces hfirst hlast)
  · have hlive := hstays.global hout hop
    rcases hfirst with rfl | hfirst
    · exact hlive
    · exact .initializer hx hout hop hlive (mem_named.mpr ⟨k, hfirst, hlast, hnamed, rfl⟩) hglobal
  · have hannotates : annotates x.instr = true := by
      rcases hop with hop | ⟨hop, -⟩ <;> simp [annotates, hop]
    exact .decoration hx hout hop (hstays.annotated hout hannotates)
      (mem_named.mpr ⟨k, hfirst, hlast, hnamed, rfl⟩) hglobal
  · exact .constant hx hout (.inl hop) (mem_named.mpr ⟨k, hfirst, hlast, hnamed, rfl⟩) hglobal

/-- Called functions are live. -/
theorem live_of_reachable (h : Ready t m s e) (hop : s.ids.opcode id = 54)
    (hreach : Reachable m (e.instr.word 2) id) : Live t m e.instr id := by
  have hself := h.owner_function hop
  rcases h.scanned.stored id with ⟨y, hy, hid, howner, -⟩ | ⟨-, -, hzero, -⟩
  · have hsame : y.function = id := howner.symm.trans hself
    have hpos := (h.scanned.bounded y hy id hid).1
    exact .owned hy (hsame ▸ hpos) (hsame ▸ hreach) hid
  · cases hzero.symm.trans hop

/-- What the passes have found when there is an output. -/
structure Sliced (t : Tables) (m : Module) (s : Scan) (e : Item) (live : Word → Bool) :
    Prop extends Ready t m s e where
  mem : e ∈ items m
  live_iff : ∀ id, live id = true ↔ Live t m e.instr id
  functions : ∀ id, Reachable m (e.instr.word 2) id → s.ids.opcode id = 54
  kept : ∀ x ∈ items m, (keep t m.bound s.ids.opcode live e x).isSome

/-- A checked word names something live. -/
theorem live_of_checked (hexact : Exact t literal) (h : Sliced t m s e live) (hx : x ∈ items m)
    (hout : x.function = 0) (hstays : Stays t m e x) (hpos : 0 < k) (hlast : k < x.instr.count)
    (hnamed : t.literalWord x.instr.opcode k = false) (hy : y ∈ items m)
    (hid : t.defines y.instr = some (x.instr.word k)) (hchecked : Checked x.instr k) :
    Live t m e.instr (x.instr.word k) := by
  have hroot : Live t m e.instr (e.instr.word 2) := live_of_reachable h.toReady (h.functions _ .root) .root
  rcases hchecked with hchecked | ⟨hmode | hannotates, rfl⟩ | ⟨hop, rfl⟩
  · -- the last loop has looked at every word that may be an id
    have hsome := h.kept x hx
    have hmem := isChecked_iff.mp hchecked
    simp only [mem_cons, not_mem_nil, or_false] at hmem
    have hkeep : keep t m.bound s.ids.opcode live e x =
        if (named t x.instr 1).any (fun id => id < m.bound && s.ids.opcode id ≠ 0 && !live id) then none
        else some true := by
      rw [keep, if_neg (not_not.mpr hout)]
      rcases hmem with hop | hop | hop <;> simp [hop, isMode, annotates, isChecked]
    rw [hkeep] at hsome
    split at hsome
    · cases hsome
    next hany =>
    obtain ⟨-, hopcode, -⟩ := h.stored hy hid
    have hresult : y.instr.opcode ≠ 0 :=
      fun hzero => nomatch (hexact.defines_plain (by simp [hzero])).symm.trans hid
    rw [← h.live_iff]
    by_contra hdead
    refine hany (any_eq_true.mpr ⟨_, mem_named.mpr ⟨k, hpos, hlast, hnamed, rfl⟩, ?_⟩)
    simp only [Bool.and_eq_true, decide_eq_true_eq, Bool.not_eq_true']
    exact ⟨⟨(h.scanned.bounded y hy _ hid).2, hopcode ▸ hresult⟩, Bool.eq_false_iff.mpr hdead⟩
  · rw [hstays.mode hout hmode]
    exact hroot
  · exact hstays.annotated hout hannotates
  · rw [hstays.entry hout hop]
    exact hroot

/-- The slice is closed exactly if no word that is neither checked nor followed names something
dropped. -/
theorem closed_iff (hexact : Exact t literal) (hwell : WellFormed t literal m)
    (h : Sliced t m s e live) {output : List Instruction}
    (houtput : ∀ i, i ∈ output ↔ ∃ x ∈ items m, Stays t m e x ∧ x.instr = i) :
    Closed t literal m.instructions output ↔ Unsevered t literal m e := by
  have hnamed : ∀ (i : Instruction) k, ¬literal i k → t.literalWord i.opcode k = false :=
    fun i k hliteral => Bool.eq_false_iff.mpr fun hk => hliteral (literal_of_table hexact hk)
  constructor
  · intro hclosed x hx hout hstays k hpos hlast hliteral _ y hy hid
    have hin := (houtput x.instr).mpr ⟨x, hx, hstays, rfl⟩
    obtain ⟨j, hj, hidj⟩ := hclosed x.instr hin k hpos hlast hliteral y.instr (item_instr hy) hid
    obtain ⟨y', hy', hstays', rfl⟩ := (houtput j).mp hj
    cases eq_of_defines hwell.unique hy hy' hid hidj
    refine ⟨hstays'.body, fun hout' hop _ => ?_⟩
    rw [← hexact.defines_global hop hid]
    exact hstays'.global hout' hop
  · intro hunsevered i hi k hpos hlast hliteral j hj hid
    obtain ⟨x, hx, hstays, rfl⟩ := (houtput i).mp hi
    obtain ⟨y, hy, rfl⟩ := exists_item hj
    suffices hy' : Stays t m e y from ⟨y.instr, (houtput _).mpr ⟨y, hy, hy', rfl⟩, hid⟩
    have hk := hnamed x.instr k hliteral
    refine stays_of_live hexact h.toReady hy hid fun hdroppable => ?_
    by_cases hout : x.function = 0
    · by_cases hchecked : Checked x.instr k
      · exact live_of_checked hexact h hx hout hstays hpos hlast hk hy hid hchecked
      obtain ⟨hfunction, hglobal⟩ := hunsevered x hx hout hstays k hpos hlast hliteral hchecked y hy hid
      by_cases hout' : y.function = 0
      · have hop := hdroppable.resolve_left (not_not.mpr hout')
        by_cases hfollowed : Followed x.instr k
        · exact live_of_followed hx hout hstays hlast hk ⟨y, hy, hout', hop, hid⟩ hfollowed
        · exact hglobal hout' hop hfollowed
      · exact .owned hy hout' (hfunction hout') hid
    · have hreach := hstays.body hout
      by_cases hout' : y.function = 0
      · have hop := hdroppable.resolve_left (not_not.mpr hout')
        exact .used hx hout hreach (mem_named.mpr ⟨k, hpos, hlast, hk, rfl⟩) ⟨y, hy, hout', hop, hid⟩
      rcases hwell.bodies x hx hout k hpos hlast hliteral y hy hid with hout'' | hsame | ⟨hop, rfl⟩
      · exact absurd hout'' hout'
      · exact .owned hy hout' (hsame ▸ hreach) hid
      · have hcall : Reachable m (e.instr.word 2) (x.instr.word 3) := .call hx hout hreach hop
        exact live_of_reachable h.toReady (h.functions _ hcall) hcall

end Output

/-! ## After the groups of decorations are expanded -/

theorem functionAfter_plain {f : Word} (h : i.opcode ≠ 54 ∧ i.opcode ≠ 56) :
    functionAt f i = f ∧ functionAfter f i = f := by
  have hat : functionAt f i = f := if_neg h.1
  exact ⟨hat, (if_neg h.2).trans hat⟩

theorem placed_plain {js : List Instruction} (hplain : ∀ j ∈ js, j.opcode ≠ 54 ∧ j.opcode ≠ 56) (f : Word)
    (offset : Nat) (rest : List Instruction) (hx : x ∈ placed f (locate offset (js ++ rest))) :
    x.function = f ∧ x.instr ∈ js ∨ ∃ offset', x ∈ placed f (locate offset' rest) := by
  induction js generalizing offset with
  | nil => exact .inr ⟨offset, hx⟩
  | cons j js ih =>
    obtain ⟨hj, hjs⟩ := forall_mem_cons.mp hplain
    rw [cons_append, locate, placed, (functionAfter_plain hj).1, (functionAfter_plain hj).2] at hx
    rcases mem_cons.mp hx with rfl | hx
    · exact .inl ⟨rfl, mem_cons_self⟩
    · rcases ih hjs _ hx with ⟨hf, hmem⟩ | hrest
      · exact .inl ⟨hf, mem_cons_of_mem _ hmem⟩
      · exact .inr hrest

/-- Instructions are replaced by others of the same function. -/
theorem placed_flatMap {is : List Instruction} {exp : Instruction → List Instruction}
    (hexp : ∀ i ∈ is, exp i = [i] ∨
      (i.opcode ≠ 54 ∧ i.opcode ≠ 56) ∧ ∀ j ∈ exp i, j.opcode ≠ 54 ∧ j.opcode ≠ 56) {f : Word}
    {offset : Nat} (offset' : Nat) (hx : x ∈ placed f (locate offset (is.flatMap exp))) :
    ∃ y ∈ placed f (locate offset' is), y.function = x.function ∧ x.instr ∈ exp y.instr := by
  induction is generalizing f offset offset' with
  | nil => cases hx
  | cons i is ih =>
    obtain ⟨hi, his⟩ := forall_mem_cons.mp hexp
    rw [flatMap_cons] at hx
    rw [locate, placed]
    rcases hi with hsame | ⟨hop, hplain⟩
    · rw [hsame, singleton_append, locate] at hx
      rcases mem_cons.mp hx with rfl | hx
      · exact ⟨_, mem_cons_self, rfl, by rw [hsame]; exact mem_cons_self⟩
      · obtain ⟨y, hy, hrest⟩ := ih his _ hx
        exact ⟨y, mem_cons_of_mem _ hy, hrest⟩
    · rw [(functionAfter_plain hop).1, (functionAfter_plain hop).2]
      rcases placed_plain hplain f offset _ hx with ⟨hf, hmem⟩ | ⟨_, hrest⟩
      · exact ⟨_, mem_cons_self, hf.symm, hmem⟩
      · obtain ⟨y, hy, hrest⟩ := ih his _ hrest
        exact ⟨y, mem_cons_of_mem _ hy, hrest⟩

/-- An application is replaced by decorations, another instruction by itself. -/
theorem expansion_cases (is : List Instruction) (i : Instruction) :
    SpirvDecorations.expansion is i = [i] ∨ (i.opcode = 74 ∨ i.opcode = 75) ∧
      ∀ j ∈ SpirvDecorations.expansion is i, j.opcode ∈ ([71, 72, 332, 5632] : List UInt16) := by
  rw [SpirvDecorations.expansion]
  split
  · next hop =>
    refine .inr ⟨.inl hop, fun j hj => ?_⟩
    obtain ⟨target, -, hj⟩ := mem_flatMap.mp hj
    obtain ⟨d, hd, rfl⟩ := mem_map.mp hj
    obtain ⟨hop, -⟩ := SpirvDecorations.decorates_iff.mp (mem_filter.mp hd).2
    show d.opcode ∈ _
    rcases hop with hop | hop | hop <;> rw [hop] <;> decide
  split
  · next hop =>
    refine .inr ⟨.inr hop, fun j hj => ?_⟩
    obtain ⟨target, -, hj⟩ := mem_flatMap.mp hj
    obtain ⟨d, -, rfl⟩ := mem_map.mp hj
    show (72 : UInt16) ∈ _
    decide
  · exact .inl rfl

def expandModule (m : Module) : Module :=
  { m with instructions := m.instructions.flatMap (SpirvDecorations.expansion m.instructions) }

/-- Where an instruction of the expanded module comes from. -/
theorem item_of_expanded (hx : x ∈ items (expandModule m)) :
    ∃ y ∈ items m, y.function = x.function ∧ (x.instr = y.instr ∨
      (y.instr.opcode = 74 ∨ y.instr.opcode = 75) ∧
        x.instr.opcode ∈ ([71, 72, 332, 5632] : List UInt16)) := by
  have hexp : ∀ i ∈ m.instructions, SpirvDecorations.expansion m.instructions i = [i] ∨
      (i.opcode ≠ 54 ∧ i.opcode ≠ 56) ∧
        ∀ j ∈ SpirvDecorations.expansion m.instructions i, j.opcode ≠ 54 ∧ j.opcode ≠ 56 := by
    intro i _
    rcases expansion_cases m.instructions i with hsame | ⟨hop, hall⟩
    · exact .inl hsame
    · refine .inr ⟨?_, fun j hj => ?_⟩
      · rcases hop with hop | hop <;> rw [hop] <;> decide
      · have hop := hall j hj
        constructor <;> intro heq <;> rw [heq] at hop <;> exact absurd hop (by decide)
  obtain ⟨y, hy, hfunction, hmem⟩ := placed_flatMap hexp 5 hx
  refine ⟨y, hy, hfunction, ?_⟩
  rcases expansion_cases m.instructions y.instr with hsame | ⟨hop, hall⟩
  · rw [hsame] at hmem
    exact .inl (mem_singleton.mp hmem)
  · exact .inr ⟨hop, hall _ hmem⟩

theorem WellFormed.expanded (hexact : Exact t literal) (h : WellFormed t literal m) :
    WellFormed t literal (expandModule m) := by
  have hplain : ∀ op ∈ ([71, 72, 332, 5632] : List UInt16),
      op ∈ ([0, 5, 6, 15, 16, 56, 71, 72, 74, 75, 331, 332, 5632, 5633] : List UInt16) := by simp
  -- what defines an id was there before
  have hdefines : ∀ y ∈ items (expandModule m), ∀ id, t.defines y.instr = some id →
      ∃ y' ∈ items m, y'.function = y.function ∧ t.defines y'.instr = some id := by
    intro y hy id hid
    obtain ⟨y', hy', hfunction, hsame | ⟨-, hop⟩⟩ := item_of_expanded hy
    · exact ⟨y', hy', hfunction, hsame ▸ hid⟩
    · cases (hexact.defines_plain (hplain _ hop)).symm.trans hid
  refine ⟨?_, fun x hx hin => ?_, fun x hx hop id hid y hy hy' => ?_,
    fun x hx hin k hpos hlast hliteral y hy hid => ?_⟩
  · have hsame :
      (expandModule m).instructions.filterMap t.defines = m.instructions.filterMap t.defines := by
      rw [expandModule, filterMap_flatMap, filterMap_eq_flatMap_toList]
      refine flatMap_congr fun i _ => ?_
      rcases expansion_cases m.instructions i with heq | ⟨hop, hall⟩
      · rw [heq, filterMap_eq_flatMap_toList, flatMap_singleton]
      · have hnone : t.defines i = none :=
          hexact.defines_plain (by rcases hop with hop | hop <;> rw [hop] <;> decide)
        rw [hnone, filterMap_eq_nil_iff.mpr fun j hj => hexact.defines_plain (hplain _ (hall j hj))]
        rfl
    rw [hsame]
    exact h.unique
  · obtain ⟨x', hx', hfunction, hsame | ⟨happlication, -⟩⟩ := item_of_expanded hx
    · rw [hsame]
      exact h.sections x' hx' (hfunction ▸ hin)
    · refine absurd ?_ (h.sections x' hx' (hfunction ▸ hin))
      rcases happlication with hop | hop <;> rw [hop] <;> decide
  · obtain ⟨x', hx', -, hsame | ⟨-, hop'⟩⟩ := item_of_expanded hx
    · obtain ⟨y', hy'', hfunction, hidy⟩ := hdefines y hy id hy'
      rw [hsame] at hop hid
      exact hfunction ▸ h.interface x' hx' hop id hid y' hy'' hidy
    · rw [hop] at hop'
      exact absurd hop' (by decide)
  · obtain ⟨x', hx', hfunction, hsame | ⟨happlication, -⟩⟩ := item_of_expanded hx
    · obtain ⟨y', hy', hfunction', hidy⟩ := hdefines y hy _ hid
      rw [hsame] at hlast hliteral hidy ⊢
      rw [← hfunction] at hin ⊢
      rw [← hfunction']
      exact h.bodies x' hx' hin k hpos hlast hliteral y' hy' hidy
    · refine absurd ?_ (h.sections x' hx' (hfunction ▸ hin))
      rcases happlication with hop | hop <;> rw [hop] <;> decide

/-! ## The entry point -/

/-- An output that is a slice of the module: of the entry points only the selected one, of the
execution modes only its own, and of the functions those called from it, whole. -/
structure Slice (model : Word) (entry : List UInt8) (m : Module) (e : Item) (kept : Item → Bool)
    (output : List Instruction) : Prop where
  copied : output = ((items m).filter kept).map Item.instr
  sublist : output.Sublist m.instructions
  mem : e ∈ items m
  selected : e.instr.opcode = 15 ∧ e.instr.word 1 = model ∧ nameOf e.instr = entry
  only : ∀ x ∈ items m, x.instr.opcode = 15 → x.instr.word 1 = model → nameOf x.instr = entry → x = e
  entries : ∀ x ∈ items m, x.instr.opcode = 15 → (kept x = true ↔ x = e)
  modes : ∀ x ∈ items m, isMode x.instr = true → (kept x = true ↔ x.instr.word 1 = e.instr.word 2)
  bodies : ∀ x ∈ items m, x.function ≠ 0 → (kept x = true ↔ Reachable m (e.instr.word 2) x.function)

theorem extractEntry_slice (hexact : Exact t literal) {b : Binary} (hmodule : b.module? = some m)
    (hwell : WellFormed t literal m) {host : Nat → Bool} {out : List Word}
    (h : extractEntry t b model entry host = .ok out) :
    ∃ e kept output, out = ({ m with instructions := output } : Module).code ∧ Slice model entry m e
      kept output ∧ (Closed t literal m.instructions output ↔ Unsevered t literal m e) := by
  rw [extractEntry, hmodule] at h
  simp only [ite_error_eq_ok] at h
  obtain ⟨-, -, h⟩ := h
  split at h
  · cases h
  next s hscan =>
  split at h
  · cases h
  next e hentry =>
  split at h
  · cases h
  next hselected =>
  split at h
  · cases h
  next live hmarking =>
  split at h
  · cases h
  split at h
  · cases h
  next output hslice =>
  rw [not_or, not_not] at hselected
  obtain ⟨hscanned, hfound⟩ := scan_spec hscan
  obtain ⟨hmem, hop, hmodel, hname, hroot⟩ := hfound.found e hentry
  have hready : Ready t m s e :=
    ⟨hexact.function, hwell.unique, hscanned, hroot, hselected.2, hwell.interface e hmem hop⟩
  have hlive := marking_iff hready hmarking
  obtain ⟨hsome, houtput⟩ := slice_eq_some hslice
  have hfunctions : ∀ id, Reachable m (e.instr.word 2) id → s.ids.opcode id = 54 := by
    intro id hreach
    simp only [marking, bind, Option.bind_eq_some_iff] at hmarking
    obtain ⟨called, hcalled, -⟩ := hmarking
    exact (called_complete hready hcalled hreach).2
  have hsliced : Sliced t m s e live := ⟨hready, hmem, hlive, hfunctions, hsome⟩
  have hstays : ∀ x ∈ items m, keep t m.bound s.ids.opcode live e x = some true ↔ Stays t m e x :=
    fun x hx => keep_iff hready hmem hlive hx (hsome x hx)
  -- outside of functions, as entry points and execution modes are
  have hout : ∀ x ∈ items m, x.instr.opcode ∈ ([15, 16, 331, 74, 75] : List UInt16) → x.function = 0 := by
    intro x hx hop
    by_contra hin
    exact hwell.sections x hx hin hop
  refine ⟨e, fun x => keep t m.bound s.ids.opcode live e x = some true, output, ?_,
    ⟨houtput, ?_, hmem, ⟨hop, hmodel, hname⟩, fun x hx hopx hmodelx hnamex => ?_,
      fun x hx hopx => ?_, fun x hx hmode => ?_, fun x hx hin => ?_⟩, ?_⟩
  · exact (Except.ok.inj h).symm
  · rw [houtput, ← map_instr_items]
    exact filter_sublist.map _
  · exact (Option.some.inj (hentry.symm.trans (hfound.only x hx hopx hmodelx hnamex))).symm
  · have hzero := hout x hx (by rw [hopx]; decide)
    rw [decide_eq_true_eq, keep, if_neg (not_not.mpr hzero), if_pos hopx, Option.some.injEq,
      decide_eq_true_eq]
    exact ⟨eq_of_offset hx hmem, fun heq => by rw [heq]⟩
  · rw [decide_eq_true_eq, hstays x hx]
    have hzero := hout x hx (by rcases isMode_iff.mp hmode with hop | hop <;> rw [hop] <;> decide)
    exact ⟨fun hx' => hx'.mode hzero hmode, .of_mode hzero hmode⟩
  · rw [decide_eq_true_eq, hstays x hx]
    exact ⟨fun hx' => hx'.body hin, .inside hin⟩
  · refine closed_iff hexact hwell hsliced fun i => ?_
    rw [houtput]
    constructor
    · intro hi
      obtain ⟨x, hx, rfl⟩ := mem_map.mp hi
      obtain ⟨hx, hkeep⟩ := mem_filter.mp hx
      exact ⟨x, hx, (hstays x hx).mp (of_decide_eq_true hkeep), rfl⟩
    · rintro ⟨x, hx, hx', rfl⟩
      exact mem_map_of_mem (mem_filter.mpr ⟨hx, decide_eq_true ((hstays x hx).mpr hx')⟩)

/-- The module an entry point is extracted from. -/
def expanded (b : Binary) (decorating : Nat → Bool) : Option Module :=
  match SpirvDecorations.decorations b decorating with
  | .error _ => none
  | .ok none => b.module?
  | .ok (some code) => (Binary.ofWords code).module?

/-- Extraction gives a slice of the expanded module, and the slice is closed under references
exactly if no instruction outside of functions that the passes neither follow nor check names
something dropped. -/
theorem entry_slice {t : Tables} {literal : Instruction → Nat → Prop} (hexact : Exact t literal)
    {b : Binary}
    (hsize : b.size < 2 ^ 64) (hwell : ∀ m, b.module? = some m → WellFormed t literal m) {model : Word}
    {entry : List UInt8} {decorating extracting : Nat → Bool} {out : List Word}
    (h : hybrisSpirvEntry t b model entry decorating extracting = .ok out) :
    ∃ m e kept output, expanded b decorating = some m ∧
      out = ({ m with instructions := output } : Module).code ∧ Slice model entry m e kept output ∧
      (Closed t literal m.instructions output ↔ Unsevered t literal m e) := by
  rw [hybrisSpirvEntry] at h
  split at h
  · cases h
  · next hnone =>
    cases hmodule : b.module? with
    | none =>
      rw [SpirvDecorations.decorations, hmodule] at hnone
      cases hnone
    | some m =>
      obtain ⟨e, kept, output, hout, hslice, hclosed⟩ :=
        extractEntry_slice hexact hmodule (hwell m hmodule) h
      exact ⟨m, e, kept, output, by rw [expanded, hnone]; exact hmodule, hout, hslice, hclosed⟩
  · next code hsome =>
    obtain ⟨m, _, _, _, hmodule, -, -, -, -, -, rfl⟩ := SpirvDecorations.decorations_eq_some hsize hsome
    have hbound := (Binary.module?_eq_some.mp hmodule).2.1
    have hmodule' : (Binary.ofWords (expandModule m).code).module? = some (expandModule m) :=
      Module.module?_ofWords hbound
    obtain ⟨e, kept, output, hout, hslice, hclosed⟩ :=
      extractEntry_slice hexact hmodule' ((hwell m hmodule).expanded hexact) h
    exact ⟨expandModule m, e, kept, output, by rw [expanded, hsome]; exact hmodule', hout, hslice, hclosed⟩

/-! ## A debug instruction with forward references -/

/-- The generated tables at the opcodes of the module below. -/
def sampleTables : Tables where
  results op :=
    (([(0, 1), (5, 1), (6, 1), (11, 2), (15, 1), (16, 1), (19, 2), (22, 2), (32, 2), (33, 2), (43, 3),
    (54, 3), (56, 1), (59, 3), (62, 1), (71, 1), (72, 1), (74, 1), (75, 1), (248, 2), (253, 1),
    (331, 1), (332, 1),
    (4433, 3), (5632, 1), (5633, 1)] : List (UInt16 × Nat)).lookup op).getD 0
  literals := [⟨15, 0, 0x2⟩, ⟨22, 0, 0xc⟩, ⟨32, 0, 0x4⟩, ⟨43, 3, 0⟩, ⟨54, 0, 0x8⟩, ⟨59, 0, 0x8⟩,
    ⟨62, 0, 0x8⟩, ⟨4433, 0, 0x10⟩]

/-- What the grammar has as literals there: the names too. -/
def sampleLiteral (i : Instruction) (k : Nat) : Prop :=
  sampleTables.literalWord i.opcode k = true ∨ i.opcode = 11 ∧ 2 ≤ k ∨ i.opcode = 15 ∧ 3 ≤ k ∧
    k < interfaceStart i

instance (i : Instruction) (k : Nat) : Decidable (sampleLiteral i k) := inferInstanceAs (Decidable (_ ∨ _))

/-- Entry points 10 and 20. The second stores to variable 5, and a debug instruction, with
`OpExtInstWithForwardRefsKHR`, names the variable. -/
def twoEntries : Module where
  version := 0x00010600
  generator := 0
  bound := 22
  schema := 0
  instructions :=
    [⟨11, [6, 0x536e6f4e, 0x6e616d65, 0x2e636974, 0x64616853, 0x442e7265, 0x67756265, 0x6f666e49,
        0x3030312e, 0], by decide⟩,
      ⟨15, [0, 10, 0x61], by decide⟩, ⟨15, [0, 20, 0x62, 5], by decide⟩, ⟨19, [1], by decide⟩,
      ⟨33, [2, 1], by decide⟩, ⟨22, [3, 32], by decide⟩, ⟨32, [4, 3, 3], by decide⟩,
      ⟨59, [4, 5, 3], by decide⟩,
      ⟨43, [3, 8, 0], by decide⟩, ⟨4433, [1, 7, 6, 18, 5], by decide⟩,
      ⟨54, [1, 10, 0, 2], by decide⟩, ⟨248, [11], by decide⟩, ⟨253, [], by decide⟩, ⟨56, [], by decide⟩,
      ⟨54, [1, 20, 0, 2], by decide⟩, ⟨248, [21], by decide⟩, ⟨62, [5, 8], by decide⟩, ⟨253, [], by decide⟩,
      ⟨56, [], by decide⟩]

theorem sample_exact : Exact sampleTables sampleLiteral where
  function := rfl
  global := rfl
  plain := by
    simp only [forall_mem_cons, not_mem_nil, false_implies, implies_true, and_true]
    decide +kernel
  literals := by
    intro l hl i k hop hk
    refine .inl ?_
    rw [hop]
    simp only [sampleTables, mem_cons, not_mem_nil, or_false] at hl
    rcases hl with rfl | rfl | rfl | rfl | rfl | rfl | rfl | rfl <;> exact hk

theorem twoEntries_wellFormed : WellFormed sampleTables sampleLiteral twoEntries where
  unique := by decide
  sections := by decide
  interface := by
    -- `List.all`, since deciding for all words would go through every one of them
    have h : ∀ x ∈ items twoEntries, x.instr.opcode = 15 → ((interfaces x.instr).all fun id =>
        ∀ y ∈ items twoEntries, sampleTables.defines y.instr = some id → y.function = 0) = true :=
          by decide +kernel
    exact fun x hx hop id hid => of_decide_eq_true (all_eq_true.mp (h x hx hop) id hid)
  bodies := by
    have h : ∀ x ∈ items twoEntries, x.function ≠ 0 → ∀ k ∈ List.range x.instr.count, 0 < k →
        ¬sampleLiteral x.instr k →
        ∀ y ∈ items twoEntries, sampleTables.defines y.instr = some (x.instr.word k) →
          y.function = 0 ∨ y.function = x.function ∨ x.instr.opcode = 57 ∧ k = 3 := by decide +kernel
    exact fun x hx hin k hpos hlast => h x hx hin k (mem_range.mpr hlast) hpos

theorem twoEntries_module (m : Module) (h : (Binary.ofWords twoEntries.code).module? = some m) :
    WellFormed sampleTables sampleLiteral m := by
  cases (Module.module?_ofWords (m := twoEntries) (by decide)).symm.trans h
  exact twoEntries_wellFormed

/-- The second entry point needs the variable. -/
theorem entry_slice_sample :
    ∃ out, hybrisSpirvEntry sampleTables (.ofWords twoEntries.code) 0 [0x62] (fun _ => true)
      (fun _ => true) = .ok out ∧
      ∃ m e kept output, expanded (.ofWords twoEntries.code) (fun _ => true) = some m ∧
        out = ({ m with instructions := output } : Module).code ∧ Slice 0 [0x62] m e kept output := by
  have hok : (hybrisSpirvEntry sampleTables (.ofWords twoEntries.code) 0 [0x62] (fun _ => true)
      (fun _ => true)).isOk = true := by decide +kernel
  cases hout : hybrisSpirvEntry sampleTables (.ofWords twoEntries.code) 0 [0x62] (fun _ => true)
    (fun _ => true) with
  | error e => rw [hout] at hok; cases hok
  | ok out =>
    obtain ⟨m, e, kept, output, hm, hcode, hslice, -⟩ :=
      entry_slice sample_exact (by decide) twoEntries_module hout
    exact ⟨out, rfl, m, e, kept, output, hm, hcode, hslice⟩

/-- For the first entry point the variable is dropped, and the debug instruction still names it. -/
theorem forward_reference_severed :
    WellFormed sampleTables sampleLiteral twoEntries ∧
    ∃ output, hybrisSpirvEntry sampleTables (.ofWords twoEntries.code) 0 [0x61] (fun _ => true)
        (fun _ => true) = .ok ({ twoEntries with instructions := output } : Module).code ∧
      ¬Closed sampleTables sampleLiteral twoEntries.instructions output := by
  refine ⟨twoEntries_wellFormed, [
    ⟨11, [6, 0x536e6f4e, 0x6e616d65, 0x2e636974, 0x64616853, 0x442e7265, 0x67756265, 0x6f666e49,
      0x3030312e, 0], by decide⟩,
    ⟨15, [0, 10, 0x61], by decide⟩, ⟨19, [1], by decide⟩, ⟨33, [2, 1], by decide⟩, ⟨22, [3, 32], by decide⟩,
    ⟨32, [4, 3, 3], by decide⟩, ⟨43, [3, 8, 0], by decide⟩, ⟨4433, [1, 7, 6, 18, 5], by decide⟩,
    ⟨54, [1, 10, 0, 2], by decide⟩, ⟨248, [11], by decide⟩, ⟨253, [], by decide⟩, ⟨56, [], by decide⟩],
    by decide +kernel, fun hclosed => ?_⟩
  obtain ⟨j, hj, hdefines⟩ := hclosed ⟨4433, [1, 7, 6, 18, 5], by decide⟩ (by decide) 5 (by decide)
    (by decide) (by decide) ⟨59, [4, 5, 3], by decide⟩ (by decide) (by decide +kernel)
  revert j
  decide +kernel

end SpirvEntry
