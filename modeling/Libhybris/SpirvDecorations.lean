import Libhybris.Spirv
import Libhybris.Vulkan
import Mathlib.Algebra.Order.BigOperators.Group.List
import Mathlib.Algebra.Order.Group.Multiset
import Mathlib.Algebra.Group.Action.Defs
import Mathlib.Data.List.GetD
import Mathlib.Tactic.Ring

/-!
# Expanding decoration groups

`compat/spirv_decorations.c`: the applications of decoration groups are replaced by the
decorations of the groups. The decorations of a group are a list linked through the indices of
their first words; it is built in one pass, costed in a second and expanded in a third. Sums of
`size_t` wrap at `2 ^ 64`.
-/
namespace SpirvDecorations

open Spirv Vulkan List Function

def sizeMax : Nat := 2 ^ 64 - 1

/-- `struct group`, of 40 bytes. -/
structure Group where
  first : Nat
  last : Nat
  words : Nat
  decorations : Nat
  defined : Bool

abbrev Groups := Word → Group

/-- The groups, and for each decoration of a group the next one. -/
structure Chains where
  groups : Groups
  next : Nat → Nat

def Group.empty : Group := ⟨0, 0, 0, 0, false⟩

def isApplication (i : Instruction) : Bool := i.opcode = 74 || i.opcode = 75

/-- The first pass: `OpDecorationGroup`. -/
def defineGroups (bound : Word) : List Instruction → Groups → Except VkResult Groups
  | [], groups => .ok groups
  | i :: is, groups =>
    if i.opcode ≠ 73 then defineGroups bound is groups
    else if i.count ≠ 2 ∨ i.word 1 = 0 ∨ bound ≤ i.word 1 ∨ (groups (i.word 1)).defined then
      .error .errorUnknown
    else defineGroups bound is
      (Function.update groups (i.word 1) { groups (i.word 1) with defined := true })

/-- A decoration is put behind the last one of its group. -/
def Chains.link (c : Chains) (offset : Nat) (i : Instruction) : Chains :=
  let group := c.groups (i.word 1)
  { groups := Function.update c.groups (i.word 1)
      { group with
        first := if group.last ≠ 0 then group.first else offset
        last := offset
        words := (group.words + i.count) % 2 ^ 64
        decorations := (group.decorations + 1) % 2 ^ 64 }
    next := if group.last ≠ 0 then Function.update c.next group.last offset else c.next }

/-- The second pass: the decorations of groups. -/
def collect (bound : Word) : List (Nat × Instruction) → Chains → Except VkResult Chains
  | [], c => .ok c
  | (offset, i) :: is, c =>
    if i.opcode ≠ 71 ∧ i.opcode ≠ 332 ∧ i.opcode ≠ 5632 then collect bound is c
    else if i.count < 3 ∨ bound ≤ i.word 1 then .error .errorUnknown
    else if (c.groups (i.word 1)).defined = false then collect bound is c
    else if i.opcode = 5632 then .error .errorUnknown
    else if sizeMax - (c.groups (i.word 1)).words < i.count then .error .errorOutOfHostMemory
    else collect bound is (c.link offset i)

/-- The loop `for (size_t d = group->first; d; d = next[d])`. -/
def follow (next : Nat → Nat) : Nat → Nat → List Nat
  | 0, _ => []
  | fuel + 1, d => if d = 0 then [] else d :: follow next fuel (next d)

/-- The words an application's targets start at. -/
def targetWords (i : Instruction) : List Nat :=
  let stride := if i.opcode = 75 then 2 else 1
  List.range' 2 ((i.count - 2 + stride - 1) / stride) stride

/-- A decoration that cannot be given to a member. -/
def notForMember (head : Word) : Bool := head.toUInt16 ≠ 71 || head.toNat / 65536 = 0xffff

/-- What one application adds to the capacity. -/
def applicationCost (code : List Word) (bound : Word) (c : Chains) (i : Instruction)
    (capacity : Nat) : Except VkResult Nat :=
  let group := c.groups (i.word 1)
  let stride := if i.opcode = 75 then 2 else 1
  let targets := (i.count - 2) / stride
  let expanded := if i.opcode = 75 then (group.words + group.decorations) % 2 ^ 64 else group.words
  if i.count < 2 ∨ bound ≤ i.word 1 ∨ group.defined = false ∨
      (i.opcode = 75 ∧ i.count % 2 ≠ 0) then .error .errorUnknown
  else if (targetWords i).any (fun k =>
      i.word k = 0 || bound ≤ i.word k || (c.groups (i.word k)).defined) then .error .errorUnknown
  else if i.opcode = 75 ∧ (follow c.next code.length group.first).any
      (fun d => notForMember (code.getD d 0)) then .error .errorUnknown
  else if i.opcode = 75 ∧ sizeMax - group.words < group.decorations then
    .error .errorOutOfHostMemory
  else if targets ≠ 0 ∧ (sizeMax - capacity) / targets < expanded then .error .errorOutOfHostMemory
  else .ok ((capacity + expanded * targets % 2 ^ 64) % 2 ^ 64)

/-- The third pass: the words that are needed at most. -/
def cost (code : List Word) (bound : Word) (c : Chains) :
    List Instruction → Nat → Except VkResult Nat
  | [], capacity => .ok capacity
  | i :: is, capacity =>
    if isApplication i then
      match applicationCost code bound c i capacity with
      | .error e => .error e
      | .ok capacity' => cost code bound c is capacity'
    else cost code bound c is capacity

/-- One decoration given to one target. -/
def expandTarget (code : List Word) (i : Instruction) (k d : Nat) : List Word :=
  let decoration := code.drop d
  let n := (decoration.getD 0 0).toNat / 65536
  (if i.opcode = 75 then [(UInt32.ofNat (n + 1) <<< 16) ||| 72, i.word k, i.word (k + 1)]
    else [decoration.getD 0 0, i.word k]) ++ (decoration.drop 2).take (n - 2)

/-- The last pass. -/
def expand (code : List Word) (c : Chains) (i : Instruction) : List Word :=
  if isApplication i then
    (targetWords i).flatMap fun k =>
      (follow c.next code.length (c.groups (i.word 1)).first).flatMap (expandTarget code i k)
  else i.words

/-- The passes before the output is allocated. -/
def plan (m : Module) : Except VkResult (Chains × Nat) :=
  match defineGroups m.bound m.instructions (fun _ => .empty) with
  | .error e => .error e
  | .ok groups =>
    match collect m.bound (locate 5 m.instructions) ⟨groups, fun _ => 0⟩ with
    | .error e => .error e
    | .ok c =>
      match cost m.code m.bound c m.instructions m.code.length with
      | .error e => .error e
      | .ok capacity => .ok (c, capacity)

/-- `hybris_spirv_decorations`; `host` tells which allocations succeed. There is no output when
there is nothing to expand. -/
def decorations (b : Binary) (host : Nat → Bool) : Except VkResult (Option (List Word)) :=
  match b.module? with
  | none => .error .errorUnknown
  | some m =>
    if m.instructions.countP isApplication = 0 then .ok none
    else if sizeMax / m.bound.toNat < 40 ∨ sizeMax / m.code.length < 8 then
      .error .errorOutOfHostMemory
    else if host 0 = false ∨ host 1 = false then .error .errorOutOfHostMemory
    else
      match plan m with
      | .error e => .error e
      | .ok (c, capacity) =>
        if sizeMax / 4 < capacity ∨ host 2 = false then .error .errorOutOfHostMemory
        else .ok (some (m.header ++ m.instructions.flatMap (expand m.code c)))

/-! ## What decorations mean -/

inductive Kind where
  | plain
  | ids
  | text
deriving DecidableEq

structure Decoration where
  kind : Kind
  operands : List Word
deriving DecidableEq

/-- `OpDecorate`, `OpDecorateId` and `OpDecorateString`. -/
def onId (i : Instruction) : Option (Word × Decoration) :=
  if i.opcode = 71 then some (i.word 1, ⟨.plain, i.operands.drop 1⟩)
  else if i.opcode = 332 then some (i.word 1, ⟨.ids, i.operands.drop 1⟩)
  else if i.opcode = 5632 then some (i.word 1, ⟨.text, i.operands.drop 1⟩)
  else none

/-- `OpMemberDecorate` and `OpMemberDecorateString`. -/
def onMember (i : Instruction) : Option ((Word × Word) × Decoration) :=
  if i.opcode = 72 then some ((i.word 1, i.word 2), ⟨.plain, i.operands.drop 2⟩)
  else if i.opcode = 5633 then some ((i.word 1, i.word 2), ⟨.text, i.operands.drop 2⟩)
  else none

/-- The decorations that instructions give to `k` themselves. -/
def direct {κ : Type} [DecidableEq κ] (f : Instruction → Option (κ × Decoration))
    (is : List Instruction) (k : κ) : Multiset Decoration :=
  ((is.filterMap f).filter (fun d => d.1 = k)).map Prod.snd

/-- The words in pairs. -/
def pairs : List Word → List (Word × Word)
  | a :: b :: rest => (a, b) :: pairs rest
  | _ => []

/-- The ids and the members an application names. -/
def idTargets (i : Instruction) : List Word := if i.opcode = 74 then i.operands.drop 1 else []

def memberTargets (i : Instruction) : List (Word × Word) :=
  if i.opcode = 75 then pairs (i.operands.drop 1) else []

/-- The decorations effective on an id: its own, and those of each group applied to it, as often
as it is named. -/
def effectiveOnId (is : List Instruction) (x : Word) : Multiset Decoration :=
  direct onId is x +
    (is.map fun i => (idTargets i).count x • direct onId is (i.word 1)).sum

def effectiveOnMember (is : List Instruction) (x : Word × Word) : Multiset Decoration :=
  direct onMember is x +
    (is.map fun i => (memberTargets i).count x • direct onId is (i.word 1)).sum

/-! ## The linked lists -/

/-- The list linked from `d` on. -/
inductive Linked (next : Nat → Nat) : Nat → List Nat → Prop
  | nil : Linked next 0 []
  | cons {d : Nat} {ds : List Nat} (hd : d ≠ 0) (rest : Linked next (next d) ds) :
      Linked next d (d :: ds)

variable {next : Nat → Nat} {ds : List Nat} {g bound : Word} {done : List (Nat × Instruction)}
  {d : Instruction}

theorem Linked.follow {d : Nat} (h : Linked next d ds) {fuel : Nat} (hfuel : ds.length ≤ fuel) :
    follow next fuel d = ds := by
  induction h generalizing fuel with
  | nil => cases fuel <;> rfl
  | cons hd _ ih =>
    obtain ⟨fuel, rfl⟩ : ∃ k, fuel = k + 1 := ⟨fuel - 1, by simp at hfuel; omega⟩
    rw [SpirvDecorations.follow, if_neg hd, ih (by simpa using hfuel)]

theorem Linked.congr {next' : Nat → Nat} {d : Nat} (h : Linked next d ds)
    (heq : ∀ a ∈ ds, next' a = next a) : Linked next' d ds := by
  induction h with
  | nil => exact .nil
  | cons hd _ ih =>
    refine .cons hd ?_
    rw [heq _ mem_cons_self]
    exact ih (fun a ha => heq a (mem_cons_of_mem _ ha))

/-- Linking a new element behind the last. -/
theorem Linked.snoc {d last new : Nat} (hnodup : ds.Nodup) (h : Linked next d ds)
    (hlast : ds.getLast? = some last) (hnew : new ≠ 0) (hnot : new ∉ ds) (hend : next new = 0) :
    Linked (Function.update next last new) d (ds ++ [new]) := by
  induction h with
  | nil => cases hlast
  | @cons d ds hd rest ih =>
    refine .cons hd ?_
    obtain ⟨hmem, hrest⟩ := nodup_cons.mp hnodup
    cases ds with
    | nil =>
      obtain rfl : d = last := by simpa using hlast
      rw [update_self]
      refine .cons hnew ?_
      rw [update_of_ne (fun heq => hnot (by simp [heq])), hend]
      exact .nil
    | cons e es =>
      have hne : d ≠ last := fun heq => hmem (heq ▸ mem_of_getLast? hlast)
      rw [update_of_ne hne]
      exact ih hrest hlast (fun hin => hnot (mem_cons_of_mem _ hin))

/-- The instruction decorates the id `g`. -/
def decorates (g : Word) (i : Instruction) : Bool :=
  (i.opcode = 71 || i.opcode = 332 || i.opcode = 5632) && i.word 1 = g

variable {i : Instruction}

theorem decorates_iff :
    decorates g i = true ↔ (i.opcode = 71 ∨ i.opcode = 332 ∨ i.opcode = 5632) ∧ i.word 1 = g := by
  simp [decorates, or_assoc]

/-- The decorations of `g` with where they start. -/
def decorationsOf (located : List (Nat × Instruction)) (g : Word) : List (Nat × Instruction) :=
  located.filter fun p => decorates g p.2

/-- What the second pass knows of the groups after the instructions `done`. -/
structure Collected (defined : Word → Bool) (done : List (Nat × Instruction)) (c : Chains) :
    Prop where
  same : ∀ g, (c.groups g).defined = defined g
  linked : ∀ g, defined g = true →
    Linked c.next (c.groups g).first ((decorationsOf done g).map Prod.fst)
  last : ∀ g, defined g = true →
    (c.groups g).last = (((decorationsOf done g).map Prod.fst).getLast?).getD 0
  words : ∀ g, defined g = true →
    (c.groups g).words = ((decorationsOf done g).map fun p => p.2.count).sum
  number : ∀ g, defined g = true → (c.groups g).decorations = (decorationsOf done g).length
  untouched : ∀ a, a ∉ done.map Prod.fst → c.next a = 0
  shape : ∀ g, defined g = true → ∀ p ∈ decorationsOf done g, p.2.opcode ≠ 5632 ∧ 3 ≤ p.2.count

variable {defined : Word → Bool} {c : Chains}

theorem Collected.skip (h : Collected defined done c) {p : Nat × Instruction}
    (hskip : ∀ g, defined g = true → decorates g p.2 = false) : Collected defined (done ++ [p]) c := by
  have hsame : ∀ g, defined g = true → decorationsOf (done ++ [p]) g = decorationsOf done g := by
    intro g hg
    simp [decorationsOf, hskip g hg]
  refine ⟨h.same, fun g hg => ?_, fun g hg => ?_, fun g hg => ?_, fun g hg => ?_, fun a ha => ?_,
    fun g hg => ?_⟩
  · exact hsame g hg ▸ h.linked g hg
  · exact hsame g hg ▸ h.last g hg
  · exact hsame g hg ▸ h.words g hg
  · exact hsame g hg ▸ h.number g hg
  · exact h.untouched a (fun hmem => ha (by simp [hmem]))
  · exact hsame g hg ▸ h.shape g hg

theorem decorationsOf_append (done : List (Nat × Instruction)) (p : Nat × Instruction) (g : Word) :
    decorationsOf (done ++ [p]) g =
      decorationsOf done g ++ if decorates g p.2 then [p] else [] := by
  simp only [decorationsOf, filter_append, filter_cons, filter_nil]

theorem Collected.link_linked (h : Collected defined done c) {offset : Nat}
    (hdefined : defined (i.word 1) = true) (hoffset : offset ≠ 0) (hnodup : (done.map Prod.fst).Nodup)
    (hnew : offset ∉ done.map Prod.fst) (hpositive : ∀ p ∈ done, p.1 ≠ 0) :
    Linked (c.link offset i).next
      (if (c.groups (i.word 1)).last ≠ 0 then (c.groups (i.word 1)).first else offset)
      ((decorationsOf done (i.word 1)).map Prod.fst ++ [offset]) := by
  have hsublist : ((decorationsOf done (i.word 1)).map Prod.fst).Sublist (done.map Prod.fst) :=
    filter_sublist.map _
  have hlinked := h.linked _ hdefined
  have hlast := h.last _ hdefined
  have hend : c.next offset = 0 := h.untouched offset hnew
  cases hget : ((decorationsOf done (i.word 1)).map Prod.fst).getLast? with
  | none =>
    have hzero : (c.groups (i.word 1)).last = 0 := by rw [hlast, hget]; rfl
    rw [getLast?_eq_none_iff.mp hget]
    simp only [Chains.link, hzero, ne_eq, not_true_eq_false, if_false]
    exact .cons hoffset (hend ▸ .nil)
  | some last =>
    have heq : (c.groups (i.word 1)).last = last := by rw [hlast, hget]; rfl
    have hne : last ≠ 0 := by
      obtain ⟨p, hp, rfl⟩ := mem_map.mp (hsublist.subset (mem_of_getLast? hget))
      exact hpositive p hp
    simp only [Chains.link, heq, ne_eq, hne, not_false_eq_true, if_true]
    exact hlinked.snoc (hnodup.sublist hsublist) hget hoffset
      (fun hin => hnew (hsublist.subset hin)) hend

/-- A decoration of a group is linked. -/
theorem Collected.link (h : Collected defined done c) {offset : Nat} (hop : i.opcode = 71 ∨
    i.opcode = 332) (hcount : 3 ≤ i.count) (hdefined : defined (i.word 1) = true)
    (hwords : i.count ≤ sizeMax - (c.groups (i.word 1)).words) (hfew : done.length + 1 < 2 ^ 64)
    (hoffset : offset ≠ 0) (hnodup : (done.map Prod.fst).Nodup) (hnew : offset ∉ done.map Prod.fst)
    (hpositive : ∀ p ∈ done, p.1 ≠ 0) : Collected defined (done ++ [(offset, i)]) (c.link offset i) := by
  have hself : decorates (i.word 1) i = true := by
    rcases hop with hop | hop <;> simp [decorates, hop]
  have hother : ∀ g, g ≠ i.word 1 → decorates g i = false := by
    intro g hg
    simp [decorates, Ne.symm hg]
  have hsublist : ∀ g, ((decorationsOf done g).map Prod.fst).Sublist (done.map Prod.fst) :=
    fun g => filter_sublist.map _
  have hthis := decorationsOf_append done (offset, i) (i.word 1)
  rw [if_pos hself] at hthis
  have hrest : ∀ g, g ≠ i.word 1 →
      decorationsOf (done ++ [(offset, i)]) g = decorationsOf done g := by
    intro g hg
    rw [decorationsOf_append, hother g hg]
    simp
  have hlast := h.last _ hdefined
  have hnext : ∀ a, a ∉ (decorationsOf done (i.word 1)).map Prod.fst →
      (c.link offset i).next a = c.next a := by
    intro a ha
    simp only [Chains.link]
    split
    case isTrue hne =>
      refine update_of_ne (fun heq => ha ?_) _ _
      rw [heq, hlast] at *
      cases hget : ((decorationsOf done (i.word 1)).map Prod.fst).getLast? with
      | none => simp [hget] at hne
      | some last => simpa using mem_of_getLast? hget
    case isFalse => rfl
  have hgroup : ∀ g, g ≠ i.word 1 → (c.link offset i).groups g = c.groups g := fun g hg =>
    update_of_ne hg _ _
  have hgroupSelf : (c.link offset i).groups (i.word 1) = { c.groups (i.word 1) with
      first := if (c.groups (i.word 1)).last ≠ 0 then (c.groups (i.word 1)).first else offset
      last := offset
      words := ((c.groups (i.word 1)).words + i.count) % 2 ^ 64
      decorations := ((c.groups (i.word 1)).decorations + 1) % 2 ^ 64 } :=
    update_self _ _ _
  refine ⟨fun g => ?_, fun g hg => ?_, fun g hg => ?_, fun g hg => ?_, fun g hg => ?_,
    fun a ha => ?_, fun g hg p hp => ?_⟩
  · by_cases hg : g = i.word 1
    · rw [hg, hgroupSelf]
      exact h.same _
    · rw [hgroup g hg]
      exact h.same g
  · by_cases hself' : g = i.word 1
    · subst hself'
      rw [hgroupSelf, hthis, map_append]
      exact h.link_linked hdefined hoffset hnodup hnew hpositive
    · rw [hgroup g hself', hrest g hself']
      refine (h.linked g hg).congr fun a ha => hnext a fun hin => ?_
      -- An instruction decorates one id only.
      obtain ⟨p, hp, rfl⟩ := mem_map.mp ha
      obtain ⟨q, hq, heq⟩ := mem_map.mp hin
      obtain ⟨hpdone, hpg⟩ := mem_filter.mp hp
      obtain ⟨hqdone, hqg⟩ := mem_filter.mp hq
      obtain rfl : q = p := inj_on_of_nodup_map hnodup hqdone hpdone heq
      simp only [decorates, Bool.and_eq_true, decide_eq_true_eq] at hpg hqg
      exact hself' (hpg.2.symm.trans hqg.2)
  · by_cases hself' : g = i.word 1
    · subst hself'
      rw [hgroupSelf, hthis]
      simp
    · rw [hgroup g hself', hrest g hself']
      exact h.last g hg
  · by_cases hself' : g = i.word 1
    · subst hself'
      rw [hgroupSelf, hthis, map_append, sum_append, ← h.words _ hg]
      unfold sizeMax at hwords
      rw [Nat.mod_eq_of_lt (by omega)]
      simp
    · rw [hgroup g hself', hrest g hself']
      exact h.words g hg
  · by_cases hself' : g = i.word 1
    · subst hself'
      have hle : (decorationsOf done (i.word 1)).length ≤ done.length := length_filter_le _ _
      rw [hgroupSelf, hthis, length_append]
      show ((c.groups (i.word 1)).decorations + 1) % 2 ^ 64 = _
      rw [h.number _ hg, Nat.mod_eq_of_lt (by omega)]
      rfl
    · rw [hgroup g hself', hrest g hself']
      exact h.number g hg
  · rw [map_append, mem_append, not_or] at ha
    rw [hnext a (fun hin => ha.1 ((hsublist _).subset hin))]
    exact h.untouched a ha.1
  · by_cases hself' : g = i.word 1
    · subst hself'
      rw [hthis] at hp
      rcases mem_append.mp hp with hold | hnew'
      · exact h.shape _ hg p hold
      · rw [mem_singleton.mp hnew']
        refine ⟨?_, hcount⟩
        rcases hop with hop | hop <;> simp [hop]
    · rw [hrest g hself'] at hp
      exact h.shape g hg p hp

/-- Before the second pass no group has a decoration. -/
theorem collected_nil {groups : Groups} (h : ∀ g, (groups g).first = 0 ∧ (groups g).last = 0 ∧
    (groups g).words = 0 ∧ (groups g).decorations = 0) :
    Collected (fun g => (groups g).defined) [] ⟨groups, fun _ => 0⟩ := by
  refine ⟨fun g => rfl, fun g _ => ?_, fun g _ => (h g).2.1, fun g _ => (h g).2.2.1,
    fun g _ => (h g).2.2.2, fun a _ => rfl, fun g _ p hp => (not_mem_nil hp).elim⟩
  rw [(h g).1]
  exact .nil

theorem collect_collected {rest : List (Nat × Instruction)} {c' : Chains}
    (hsorted : ((done ++ rest).map Prod.fst).Nodup) (hpositive : ∀ p ∈ done ++ rest, p.1 ≠ 0)
    (hfew : (done ++ rest).length < 2 ^ 64) (h : Collected defined done c)
    (hcollect : collect bound rest c = .ok c') : Collected defined (done ++ rest) c' := by
  induction rest generalizing done c with
  | nil =>
    cases hcollect
    rwa [append_nil]
  | cons p rest ih =>
    obtain ⟨offset, i⟩ := p
    have happend : done ++ (offset, i) :: rest = done ++ [(offset, i)] ++ rest := by simp
    rw [happend] at hsorted hpositive hfew ⊢
    unfold collect at hcollect
    split at hcollect
    case isTrue hop =>
      refine ih hsorted hpositive hfew (h.skip fun g _ => ?_) hcollect
      simp [decorates, hop.1, hop.2.1, hop.2.2]
    case isFalse hop =>
    obtain ⟨hcount, hcollect⟩ := ite_error_eq_ok.mp hcollect
    split at hcollect
    case isTrue hundefined =>
      refine ih hsorted hpositive hfew (h.skip fun g hg => ?_) hcollect
      have hne : i.word 1 ≠ g := by
        rintro rfl
        rw [h.same] at hundefined
        rw [hundefined] at hg
        cases hg
      simp [decorates, hne]
    case isFalse hdefined =>
    obtain ⟨htext, hcollect⟩ := ite_error_eq_ok.mp hcollect
    obtain ⟨hwords, hcollect⟩ := ite_error_eq_ok.mp hcollect
    have hdone : (done.map Prod.fst).Nodup ∧ offset ∉ done.map Prod.fst := by
      rw [append_assoc, map_append, nodup_append] at hsorted
      exact ⟨hsorted.1, fun hin => hsorted.2.2 offset hin offset (by simp) rfl⟩
    refine ih hsorted hpositive hfew (h.link ?_ (by omega) ?_ (by omega) ?_ ?_ hdone.1 hdone.2
      fun p hp => hpositive p (by simp [hp])) hcollect
    · by_contra hnot
      exact hop ⟨fun heq => hnot (.inl heq), fun heq => hnot (.inr heq), htext⟩
    · rw [← h.same]
      simpa using hdefined
    · simp only [length_append] at hfew
      simp only [length_cons, length_nil] at hfew
      omega
    · exact hpositive (offset, i) (by simp)

theorem defineGroups_empty {is : List Instruction} {groups groups' : Groups}
    (h : ∀ g, (groups g).first = 0 ∧ (groups g).last = 0 ∧ (groups g).words = 0 ∧
      (groups g).decorations = 0) (hdefine : defineGroups bound is groups = .ok groups') :
    ∀ g, (groups' g).first = 0 ∧ (groups' g).last = 0 ∧ (groups' g).words = 0 ∧
      (groups' g).decorations = 0 := by
  induction is generalizing groups with
  | nil =>
    cases hdefine
    exact h
  | cons i is ih =>
    unfold defineGroups at hdefine
    split at hdefine
    case isTrue => exact ih h hdefine
    case isFalse =>
    obtain ⟨-, hdefine⟩ := ite_error_eq_ok.mp hdefine
    refine ih (fun g => ?_) hdefine
    by_cases hg : g = i.word 1
    · rw [hg, update_self]
      exact h _
    · rw [update_of_ne hg]
      exact h g

/-! ## Expansion as instructions -/

theorem length_retarget (d : Instruction) (t : Word) :
    (t :: d.operands.drop 1).length < 65535 := by
  have hshort := d.short
  simp only [length_cons, length_drop]
  omega

/-- A decoration given to another id. -/
def retarget (t : Word) (d : Instruction) : Instruction :=
  ⟨d.opcode, t :: d.operands.drop 1, length_retarget d t⟩

/-- A decoration given to a member; no decoration that is is cut. -/
def memberDecorate (t : Word × Word) (d : Instruction) : Instruction :=
  ⟨72, (t.1 :: t.2 :: d.operands.drop 1).take 65534, by rw [length_take]; omega⟩

/-- The decorations of an id. -/
def attached (is : List Instruction) (g : Word) : List Instruction := is.filter (decorates g)

/-- What an instruction is replaced by. -/
def expansion (is : List Instruction) (i : Instruction) : List Instruction :=
  if i.opcode = 74 then
    (idTargets i).flatMap fun t => (attached is (i.word 1)).map (retarget t)
  else if i.opcode = 75 then
    (memberTargets i).flatMap fun t => (attached is (i.word 1)).map (memberDecorate t)
  else [i]

theorem isApplication_iff {i : Instruction} : isApplication i = true ↔ i.opcode = 74 ∨ i.opcode = 75 := by
  simp [isApplication]

theorem expansion_self {i : Instruction} (is : List Instruction) (h : ¬isApplication i = true) :
    expansion is i = [i] := by
  rw [isApplication_iff, not_or] at h
  rw [expansion, if_neg h.1, if_neg h.2]

theorem pairs_eq (l : List Word) :
    pairs l = (List.range (l.length / 2)).map fun j => (l.getD (2 * j) 0, l.getD (2 * j + 1) 0) := by
  induction l using pairs.induct with
  | case1 a b rest ih =>
    rw [pairs, ih, show (a :: b :: rest).length / 2 = rest.length / 2 + 1 by simp; omega,
      range_succ_eq_map, map_cons, map_map]
    rfl
  | case2 l hl =>
    match l, hl with
    | [], _ => rfl
    | [_], _ => simp [pairs]
    | a :: b :: rest, hl => exact (hl a b rest rfl).elim

/-- The words of the targets of an id application. -/
theorem targetWords_ids (hop : i.opcode = 74) (hcount : 2 ≤ i.count) :
    (targetWords i).map i.word = idTargets i := by
  have hlength : i.count = i.operands.length + 1 := rfl
  simp only [targetWords, idTargets, hop, if_true]
  rw [if_neg (by decide)]
  apply ext_getElem
  · simp only [length_map, length_range', length_drop]
    omega
  · intro n h₁ h₂
    rw [length_drop] at h₂
    simp only [getElem_map, getElem_range', getElem_drop, Nat.one_mul]
    rw [show 2 + n = 1 + n + 1 by omega, Instruction.word_succ,
      getD_eq_getElem _ _ (by omega)]

/-- The words of the targets of a member application. -/
theorem targetWords_members (hop : i.opcode = 75) (hcount : 2 ≤ i.count) (heven : i.count % 2 = 0) :
    (targetWords i).map (fun k => (i.word k, i.word (k + 1))) = memberTargets i := by
  have hlength : i.count = i.operands.length + 1 := rfl
  simp only [targetWords, memberTargets, hop, if_true, pairs_eq, length_drop]
  apply ext_getElem
  · simp only [length_map, length_range', length_range]
    omega
  · intro j h₁ h₂
    simp only [getElem_map, getElem_range', getElem_range]
    rw [show 2 + 2 * j = 1 + 2 * j + 1 by omega]
    simp only [getD_eq_getElem?_getD, getElem?_drop]
    rfl

variable {m : Module}

/-- What the second pass finds at the start of a decoration. -/
theorem decoration_words {d : Nat} (h : (d, i) ∈ locate 5 m.instructions) (hcount : 3 ≤ i.count) :
    (m.code.drop d).getD 0 0 = i.head ∧
    ((m.code.drop d).drop 2).take (i.count - 2) = i.operands.drop 1 := by
  obtain ⟨after, hafter⟩ := drop_of_mem_locate m.header h
  rw [Module.code, hafter]
  refine ⟨rfl, ?_⟩
  have hlength : i.count = i.operands.length + 1 := rfl
  rw [Instruction.words, cons_append, drop_succ_cons,
    drop_append_of_le_length (by omega), take_left' (by rw [length_drop]; omega)]

theorem retarget_words (hcount : 3 ≤ d.count) (t : Word) :
    (retarget t d).words = [d.head, t] ++ d.operands.drop 1 := by
  have hlength : d.count = d.operands.length + 1 := rfl
  have hsame : (retarget t d).count = d.count := by
    simp only [retarget, Instruction.count, length_cons, length_drop]
    omega
  have hhead : (retarget t d).head = d.head := by
    simp only [Instruction.head, hsame]
    rfl
  rw [Instruction.words, hhead]
  rfl

theorem memberDecorate_operands (hlong : d.count ≠ 0xffff) (t : Word × Word) :
    (memberDecorate t d).operands = t.1 :: t.2 :: d.operands.drop 1 := by
  have hlength : d.count = d.operands.length + 1 := rfl
  have hlt := d.count_lt
  simp only [memberDecorate]
  rw [take_of_length_le]
  simp only [length_cons, length_drop]
  omega

theorem memberDecorate_words (hcount : 3 ≤ d.count) (hlong : d.count ≠ 0xffff) (t : Word × Word) :
    (memberDecorate t d).words =
      [(UInt32.ofNat (d.count + 1) <<< 16) ||| 72, t.1, t.2] ++ d.operands.drop 1 := by
  have hlength : d.count = d.operands.length + 1 := rfl
  have hlt := d.count_lt
  have hoperands := memberDecorate_operands hlong t
  have hsame : (memberDecorate t d).count = d.count + 1 := by
    simp only [Instruction.count, hoperands, length_cons, length_drop]
    omega
  have hhead : (memberDecorate t d).head = (UInt32.ofNat (d.count + 1) <<< 16) ||| 72 := by
    have hop : (memberDecorate t d).opcode = 72 := rfl
    apply UInt32.toNat.inj
    rw [Instruction.head_toNat, hsame, hop, UInt32.toNat_or, UInt32.toNat_shiftLeft,
      UInt32.toNat_ofNat', Nat.mod_eq_of_lt (show d.count + 1 < 2 ^ 32 by omega)]
    have hor := Nat.shiftLeft_add_eq_or_of_lt (show 72 < 2 ^ 16 by decide) (d.count + 1)
    rw [show (16 : UInt32).toNat % 32 = 16 from rfl, Nat.mod_eq_of_lt,
      show (72 : UInt32).toNat = 72 from rfl, ← hor, Nat.shiftLeft_eq]
    · rfl
    · omega
  rw [Instruction.words, hhead, hoperands]
  rfl

/-- What the third pass has checked of an application, and the words it makes room for. -/
structure Costed (code : List Word) (bound : Word) (c : Chains) (i : Instruction)
    (capacity capacity' : Nat) : Prop where
  count : 2 ≤ i.count
  defined : (c.groups (i.word 1)).defined = true
  even : i.opcode = 75 → i.count % 2 = 0
  targets : ∀ k ∈ targetWords i, (c.groups (i.word k)).defined = false
  members : i.opcode = 75 → ∀ d ∈ follow c.next code.length (c.groups (i.word 1)).first,
    notForMember (code.getD d 0) = false
  capacityEq : capacity' = capacity +
    (if i.opcode = 75 then (c.groups (i.word 1)).words + (c.groups (i.word 1)).decorations
      else (c.groups (i.word 1)).words) * ((i.count - 2) / if i.opcode = 75 then 2 else 1)
  capacityLe : capacity' ≤ sizeMax

variable {capacity capacity' : Nat}

theorem applicationCost_costed {code : List Word} {capacity' : Nat} (hle : capacity ≤ sizeMax)
    (hwords : (c.groups (i.word 1)).defined = true → (c.groups (i.word 1)).words ≤ sizeMax)
    (h : applicationCost code bound c i capacity = .ok capacity') :
    Costed code bound c i capacity capacity' := by
  simp only [applicationCost, ite_error_eq_ok, Except.ok.injEq] at h
  obtain ⟨hshape, htargets, hmembers, hsum, hroom, hcapacity⟩ := h
  simp only [not_or, not_lt, not_and, not_not] at hshape
  have hdefined : (c.groups (i.word 1)).defined = true := by simpa using hshape.2.2.1
  replace hwords := hwords hdefined
  have hwrap : (if i.opcode = 75 then
      ((c.groups (i.word 1)).words + (c.groups (i.word 1)).decorations) % 2 ^ 64 else
        (c.groups (i.word 1)).words) = if i.opcode = 75 then
      (c.groups (i.word 1)).words + (c.groups (i.word 1)).decorations else
        (c.groups (i.word 1)).words := by
    split
    case isTrue hop =>
      have hle := hsum
      simp only [hop, true_and, not_lt] at hle
      unfold sizeMax at hle hwords
      exact Nat.mod_eq_of_lt (by omega)
    case isFalse => rfl
  rw [hwrap] at hroom hcapacity
  generalize hexpanded : (if i.opcode = 75 then
    (c.groups (i.word 1)).words + (c.groups (i.word 1)).decorations else
      (c.groups (i.word 1)).words) = expanded at hroom hcapacity
  generalize htimes : (i.count - 2) / (if i.opcode = 75 then 2 else 1) = times at hroom hcapacity
  have hproduct : expanded * times ≤ sizeMax - capacity := by
    rcases Nat.eq_zero_or_pos times with hzero | hpos
    · rw [hzero]
      exact Nat.zero_le _
    · simp only [not_and, not_lt] at hroom
      exact (Nat.le_div_iff_mul_le hpos).mp (hroom hpos.ne')
  have hexact : capacity' = capacity + expanded * times := by
    unfold sizeMax at hproduct hle
    rw [← hcapacity, Nat.mod_eq_of_lt (show expanded * times < 2 ^ 64 by omega),
      Nat.mod_eq_of_lt (by omega)]
  refine ⟨hshape.1, hdefined, hshape.2.2.2, fun k hk => ?_, fun hop d hd => ?_,
    by rw [hexpanded, htimes, hexact], by omega⟩
  · simp only [any_eq_true, Bool.or_eq_true, decide_eq_true_eq, not_exists, not_and, not_or] at htargets
    simpa using (htargets k hk).2
  · simp only [hop, true_and, any_eq_true, not_exists, not_and] at hmembers
    simpa using hmembers d hd

theorem map_snd_decorationsOf (offset : Nat) (is : List Instruction) (g : Word) :
    (decorationsOf (locate offset is) g).map Prod.snd = attached is g := by
  have hmap := filter_map (f := Prod.snd) (p := decorates g) (l := locate offset is)
  rw [map_snd_locate] at hmap
  rw [attached, hmap]
  rfl

theorem encode_flatMap {α : Type} (l : List α) (f : α → List Instruction) :
    encode (l.flatMap f) = l.flatMap fun a => encode (f a) := by
  simp only [encode, flatMap_assoc]

theorem length_locate_le (offset : Nat) (is : List Instruction) :
    (locate offset is).length ≤ (encode is).length := by
  induction is generalizing offset with
  | nil => exact le_rfl
  | cons i is ih =>
    have hpos := i.count_pos
    have hrest := ih (offset + i.count)
    simp only [locate, length_cons, encode_cons, length_append, Instruction.length_words]
    omega

section
variable (h : Collected defined (locate 5 m.instructions) c)
include h

/-- The loop over a group's list finds its decorations. -/
theorem Collected.follow (hg : defined g = true) :
    SpirvDecorations.follow c.next m.code.length (c.groups g).first =
      (decorationsOf (locate 5 m.instructions) g).map Prod.fst := by
  refine (h.linked g hg).follow ?_
  rw [length_map]
  calc (decorationsOf (locate 5 m.instructions) g).length
      ≤ (locate 5 m.instructions).length := length_filter_le _ _
    _ ≤ (encode m.instructions).length := length_locate_le _ _
    _ ≤ m.code.length := by simp [Module.code]

section
variable (hcost : Costed m.code m.bound c i capacity capacity')
include hcost

theorem Collected.defined_group : defined (i.word 1) = true := by
  rw [← h.same]
  exact hcost.defined

/-- Only decorations with a member form are given to members. -/
theorem Collected.member_attached (hop : i.opcode = 75)
    (hd : d ∈ attached m.instructions (i.word 1)) : d.opcode = 71 ∧ d.count ≠ 0xffff := by
  have hdefined := h.defined_group hcost
  rw [← map_snd_decorationsOf 5] at hd
  obtain ⟨p, hp, rfl⟩ := mem_map.mp hd
  have hhead := (decoration_words (mem_filter.mp hp).1 (h.shape _ hdefined p hp).2).1
  have hnot := hcost.members hop p.1 (by rw [h.follow hdefined]; exact mem_map_of_mem hp)
  rw [show m.code.getD p.1 0 = p.2.head by rw [← hhead]; simp] at hnot
  simpa [notForMember, Instruction.head_opcode, Instruction.head_div] using hnot

/-- One target of an application is given every decoration of the group. -/
theorem Collected.expandTargets (k : Nat) {f : Instruction → Instruction}
    (hf : ∀ d ∈ attached m.instructions (i.word 1), 3 ≤ d.count →
      (if i.opcode = 75 then [(UInt32.ofNat (d.count + 1) <<< 16) ||| 72, i.word k, i.word (k + 1)]
        else [d.head, i.word k]) ++ d.operands.drop 1 = (f d).words) :
    (SpirvDecorations.follow c.next m.code.length (c.groups (i.word 1)).first).flatMap
        (expandTarget m.code i k) =
      encode ((attached m.instructions (i.word 1)).map f) := by
  have hdefined := h.defined_group hcost
  have hfollow := h.follow hdefined
  rw [hfollow, ← map_snd_decorationsOf 5, encode, flatMap_map, map_map, flatMap_map]
  refine flatMap_congr fun p hp => ?_
  obtain ⟨hmem, hdecorates⟩ := mem_filter.mp hp
  obtain ⟨-, hcount⟩ := h.shape _ hdefined p hp
  obtain ⟨hhead, hrest⟩ := decoration_words hmem hcount
  have hattached : p.2 ∈ attached m.instructions (i.word 1) := by
    rw [← map_snd_decorationsOf 5]
    exact mem_map_of_mem hp
  simp only [expandTarget, hhead, Instruction.head_div, hrest]
  exact hf p.2 hattached hcount

/-- The last pass writes the instructions that replace an application. -/
theorem Collected.expand_application (happlication : isApplication i = true) :
    expand m.code c i = encode (expansion m.instructions i) := by
  rw [expand, if_pos happlication]
  by_cases hop : i.opcode = 75
  · have hexpansion : expansion m.instructions i = (targetWords i).flatMap fun k =>
        (attached m.instructions (i.word 1)).map (memberDecorate (i.word k, i.word (k + 1))) := by
      rw [expansion, if_neg (by rw [hop]; decide), if_pos hop,
        ← targetWords_members hop hcost.count (hcost.even hop), flatMap_map]
    rw [hexpansion, encode_flatMap]
    refine flatMap_congr fun k _ => h.expandTargets hcost k fun d hd hcount => ?_
    rw [if_pos hop, memberDecorate_words hcount (h.member_attached hcost hop hd).2]
  · have hop' : i.opcode = 74 := by simpa [isApplication, hop] using happlication
    have hexpansion : expansion m.instructions i = (targetWords i).flatMap fun k =>
        (attached m.instructions (i.word 1)).map (retarget (i.word k)) := by
      rw [expansion, if_pos hop', ← targetWords_ids hop' hcost.count, flatMap_map]
    rw [hexpansion, encode_flatMap]
    refine flatMap_congr fun k _ => h.expandTargets hcost k fun d _ hcount => ?_
    rw [if_neg hop, retarget_words hcount]

end

end

/-! ## Words -/

/-- The words an instruction is given besides its own. -/
def extraWords (c : Chains) (i : Instruction) : Nat :=
  if isApplication i then
    (if i.opcode = 75 then (c.groups (i.word 1)).words + (c.groups (i.word 1)).decorations
      else (c.groups (i.word 1)).words) * ((i.count - 2) / if i.opcode = 75 then 2 else 1)
  else 0

theorem cost_costed {code : List Word} {is : List Instruction} {capacity' : Nat} (hle : capacity ≤ sizeMax)
    (hwords : ∀ g, (c.groups g).defined = true → (c.groups g).words ≤ sizeMax)
    (h : cost code bound c is capacity = .ok capacity') :
    (∀ i ∈ is, isApplication i = true → ∃ a b, Costed code bound c i a b) ∧
      capacity' = capacity + (is.map (extraWords c)).sum := by
  induction is generalizing capacity with
  | nil =>
    cases h
    exact ⟨fun i hi => (not_mem_nil hi).elim, rfl⟩
  | cons i is ih =>
    unfold cost at h
    split at h
    case isTrue happlication =>
      split at h
      case h_1 => cases h
      case h_2 next hnext =>
        have hcosted := applicationCost_costed hle (hwords _) hnext
        obtain ⟨hrest, hsum⟩ := ih hcosted.capacityLe h
        refine ⟨fun j hj hj' => ?_, ?_⟩
        · rcases mem_cons.mp hj with rfl | hj
          · exact ⟨_, _, hcosted⟩
          · exact hrest j hj hj'
        · rw [hsum, hcosted.capacityEq, map_cons, sum_cons, extraWords,
            if_pos happlication, Nat.add_assoc]
    case isFalse happlication =>
      obtain ⟨hrest, hsum⟩ := ih hle h
      refine ⟨fun j hj hj' => ?_, ?_⟩
      · rcases mem_cons.mp hj with rfl | hj
        · exact absurd hj' happlication
        · exact hrest j hj hj'
      · rw [hsum, map_cons, sum_cons, extraWords, if_neg happlication, Nat.zero_add]

theorem length_encode (is : List Instruction) :
    (encode is).length = (is.map Instruction.count).sum := by
  rw [encode, length_flatMap]
  rfl

section
variable (h : Collected defined (locate 5 m.instructions) c)
include h

theorem Collected.words_attached (hg : defined g = true) :
    (c.groups g).words = ((attached m.instructions g).map Instruction.count).sum := by
  rw [h.words g hg, ← map_snd_decorationsOf 5, map_map]
  rfl

theorem Collected.number_attached (hg : defined g = true) :
    (c.groups g).decorations = (attached m.instructions g).length := by
  rw [h.number g hg, ← map_snd_decorationsOf 5, length_map]

theorem Collected.count_attached (hg : defined g = true) (hd : d ∈ attached m.instructions g) :
    d.opcode ≠ 5632 ∧ 3 ≤ d.count := by
  rw [← map_snd_decorationsOf 5] at hd
  obtain ⟨p, hp, rfl⟩ := mem_map.mp hd
  exact h.shape g hg p hp

/-- An application is replaced by as many words as were costed. -/
theorem Collected.length_expansion (hcost : Costed m.code m.bound c i capacity capacity')
    (happlication : isApplication i = true) :
    (encode (expansion m.instructions i)).length = extraWords c i := by
  have hdefined := h.defined_group hcost
  have hlength : i.count = i.operands.length + 1 := rfl
  rw [extraWords, if_pos happlication, h.words_attached hdefined, h.number_attached hdefined]
  by_cases hop : i.opcode = 75
  · have htargets : (memberTargets i).length = (i.count - 2) / 2 := by
      rw [memberTargets, if_pos hop, pairs_eq]
      simp only [length_map, length_range, length_drop]
      omega
    have hone : ∀ t : Word × Word,
        (encode ((attached m.instructions (i.word 1)).map (memberDecorate t))).length =
          ((attached m.instructions (i.word 1)).map Instruction.count).sum +
            (attached m.instructions (i.word 1)).length := by
      intro t
      have hcount : ∀ d ∈ attached m.instructions (i.word 1),
          (memberDecorate t d).count = d.count + 1 := fun d hd => by
        obtain ⟨-, hthree⟩ := h.count_attached hdefined hd
        have hwords := memberDecorate_words hthree (h.member_attached hcost hop hd).2 t
        have hd : d.count = d.operands.length + 1 := rfl
        rw [← Instruction.length_words, hwords]
        simp only [length_append, length_cons, length_nil, length_drop]
        omega
      rw [length_encode, map_map, map_congr_left
        (show ∀ d ∈ _, (Instruction.count ∘ memberDecorate t) d = d.count + 1 from hcount),
        sum_map_add]
      simp
    rw [expansion, if_neg (by rw [hop]; decide), if_pos hop, encode_flatMap, length_flatMap]
    simp only [hone, map_const', sum_replicate, htargets, hop, if_true, smul_eq_mul]
    ring
  · have hop' : i.opcode = 74 := by simpa [isApplication, hop] using happlication
    have htargets : (idTargets i).length = i.count - 2 := by
      rw [idTargets, if_pos hop', length_drop]
      omega
    have hone : ∀ t : Word,
        (encode ((attached m.instructions (i.word 1)).map (retarget t))).length =
          ((attached m.instructions (i.word 1)).map Instruction.count).sum := by
      intro t
      rw [length_encode, map_map]
      refine congrArg _ (map_congr_left fun d hd => ?_)
      obtain ⟨-, hthree⟩ := h.count_attached hdefined hd
      have hd : d.count = d.operands.length + 1 := rfl
      simp only [comp_apply, retarget, Instruction.count, length_cons,
        length_drop]
      omega
    rw [expansion, if_pos hop', encode_flatMap, length_flatMap]
    simp only [hone, map_const', sum_replicate, htargets, hop, if_false, smul_eq_mul,
      Nat.div_one]
    ring

end

/-! ## Decorations are preserved -/

section
variable {κ : Type} [DecidableEq κ] (f : Instruction → Option (κ × Decoration)) (k : κ)

theorem direct_append (is js : List Instruction) :
    direct f (is ++ js) k = direct f is k + direct f js k := by
  simp [direct, filterMap_append, filter_append]

/-- Replacing instructions adds what each replacement adds. -/
theorem direct_flatMap (is : List Instruction) (e : Instruction → List Instruction)
    (extra : Instruction → Multiset Decoration)
    (h : ∀ i ∈ is, direct f (e i) k = direct f [i] k + extra i) :
    direct f (is.flatMap e) k = direct f is k + (is.map extra).sum := by
  induction is with
  | nil => simp [direct]
  | cons i is ih =>
    rw [flatMap_cons, direct_append, h i mem_cons_self,
      ih (fun j hj => h j (mem_cons_of_mem _ hj)),
      show i :: is = [i] ++ is from rfl, direct_append f k [i] is, map_append, sum_append]
    simp only [map_cons, map_nil, sum_singleton]
    exact add_add_add_comm _ _ _ _

/-- Giving the same decorations to one target. -/
theorem direct_target (t : κ) (ds : List Instruction) (g : Instruction → Instruction)
    (content : Instruction → Decoration) (h : ∀ d ∈ ds, f (g d) = some (t, content d)) :
    direct f (ds.map g) k = if t = k then (↑(ds.map content) : Multiset Decoration) else 0 := by
  have hmap : (ds.map g).filterMap f = ds.map fun d => (t, content d) := by
    rw [filterMap_map, ← filterMap_eq_map]
    exact filterMap_congr h
  rw [direct, hmap]
  by_cases ht : t = k
  · rw [if_pos ht, filter_eq_self.mpr, map_map]
    · rfl
    · intro p hp
      obtain ⟨d, -, rfl⟩ := mem_map.mp hp
      simpa using ht
  · rw [if_neg ht, filter_eq_nil_iff.mpr]
    · rfl
    · intro p hp
      obtain ⟨d, -, rfl⟩ := mem_map.mp hp
      simpa using ht

/-- Giving the same decorations to several targets. -/
theorem direct_targets [BEq κ] [LawfulBEq κ] (targets : List κ) (ds : List Instruction)
    (g : κ → Instruction → Instruction) (content : Instruction → Decoration)
    (h : ∀ t, ∀ d ∈ ds, f (g t d) = some (t, content d)) :
    direct f (targets.flatMap fun t => ds.map (g t)) k =
      targets.count k • (↑(ds.map content) : Multiset Decoration) := by
  induction targets with
  | nil => simp [direct]
  | cons t targets ih =>
    rw [flatMap_cons, direct_append, ih, direct_target f k t ds (g t) content (h t),
      count_cons, add_nsmul, add_comm]
    by_cases ht : t = k
    · simp only [ht, beq_self_eq_true, if_true, one_nsmul]
    · simp [ht]

end

/-- What a decoration says of its target. -/
def content (i : Instruction) : Decoration where
  kind := if i.opcode = 71 then .plain else if i.opcode = 332 then .ids else .text
  operands := i.operands.drop 1

theorem onId_eq (i : Instruction) : onId i =
    if i.opcode = 71 ∨ i.opcode = 332 ∨ i.opcode = 5632 then some (i.word 1, content i)
    else none := by
  unfold onId content
  split_ifs <;> simp_all

/-- The decorations of an id are those attached to it. -/
theorem direct_attached (is : List Instruction) (g : Word) :
    direct onId is g = ↑((attached is g).map content) := by
  induction is with
  | nil => rfl
  | cons i is ih =>
    rw [show i :: is = [i] ++ is from rfl, direct_append, ih, attached, attached,
      filter_append, map_append, ← Multiset.coe_add]
    by_cases hop : i.opcode = 71 ∨ i.opcode = 332 ∨ i.opcode = 5632
    · by_cases hg : i.word 1 = g
      · rw [filter_cons_of_pos (decorates_iff.mpr ⟨hop, hg⟩)]
        simp [direct, onId_eq, hop, hg]
      · rw [filter_cons_of_neg fun hd => hg (decorates_iff.mp hd).2]
        simp [direct, onId_eq, hop, hg]
    · rw [filter_cons_of_neg fun hd => hop (decorates_iff.mp hd).1]
      simp [direct, onId_eq, hop]

/-- The instructions of the output say of every id and every member what those of the input
said, and say it directly. -/
structure Preserved (is os : List Instruction) : Prop where
  ids : ∀ x, direct onId os x = effectiveOnId is x
  members : ∀ x, direct onMember os x = effectiveOnMember is x
  /-- An application is replaced by decorations in its place; the rest stays as it is. -/
  replaced : ∃ f : Instruction → List Instruction, os = is.flatMap f ∧
    (∀ i ∈ is, isApplication i = false → f i = [i]) ∧
    ∀ i ∈ is, isApplication i = true → ∀ j ∈ f i, (onId j).isSome ∨ (onMember j).isSome
  gone : ∀ i ∈ os, isApplication i = false

section
/-- What an application's decorations are. -/
theorem Collected.opcode_attached (h : Collected defined (locate 5 m.instructions) c)
    (hg : defined g = true) (hd : d ∈ attached m.instructions g) : d.opcode = 71 ∨ d.opcode = 332 := by
  have htext := (h.count_attached hg hd).1
  rcases (decorates_iff.mp (mem_filter.mp hd).2).1 with hop | hop | hop
  · exact .inl hop
  · exact .inr hop
  · exact absurd hop htext

theorem onId_retarget (t : Word) (hop : d.opcode = 71 ∨ d.opcode = 332) :
    onId (retarget t d) = some (t, content d) := by
  rw [onId_eq, if_pos (by rcases hop with hop | hop <;> simp [retarget, hop])]
  rfl

theorem onMember_memberDecorate (t : Word × Word) (hop : d.opcode = 71) (hlong : d.count ≠ 0xffff) :
    onMember (memberDecorate t d) = some (t, content d) := by
  have hmember : (memberDecorate t d).opcode = 72 := rfl
  rw [onMember, if_pos hmember, Instruction.word_succ, Instruction.word_succ,
    memberDecorate_operands hlong]
  simp [content, hop]

theorem not_application {j : Instruction} (h : (onId j).isSome ∨ (onMember j).isSome) :
    isApplication j = false := by
  by_contra happlication
  rw [Bool.not_eq_false] at happlication
  rcases isApplication_iff.mp happlication with hop | hop <;> simp [onId, onMember, hop] at h

variable (h : Collected defined (locate 5 m.instructions) c)
  (hcosted : ∀ i ∈ m.instructions, isApplication i = true → ∃ a b, Costed m.code m.bound c i a b)
include h hcosted

theorem preserved_ids (x : Word) :
    direct onId (m.instructions.flatMap (expansion m.instructions)) x =
      effectiveOnId m.instructions x := by
  refine direct_flatMap onId x _ _ _ fun i hi => ?_
  by_cases happlication : isApplication i = true
  · obtain ⟨a, b, hcost⟩ := hcosted i hi happlication
    have hdefined := h.defined_group hcost
    have hop := isApplication_iff.mp happlication
    have hnone : direct onId [i] x = 0 := by
      rcases hop with hop | hop <;> simp [direct, onId_eq, hop]
    rw [hnone, zero_add]
    rcases hop with hop | hop
    · rw [expansion, if_pos hop, direct_attached m.instructions]
      exact direct_targets onId x (idTargets i) (attached m.instructions (i.word 1)) retarget
        content fun t d hd => onId_retarget t (h.opcode_attached hdefined hd)
    · have htargets : idTargets i = [] := if_neg (by rw [hop]; decide)
      have hmembers : ∀ j ∈ expansion m.instructions i, onId j = none := by
        intro j hj
        rw [expansion, if_neg (by rw [hop]; decide), if_pos hop] at hj
        obtain ⟨t, -, hj⟩ := mem_flatMap.mp hj
        obtain ⟨d, -, rfl⟩ := mem_map.mp hj
        rfl
      rw [htargets, count_nil, direct, filterMap_eq_nil_iff.mpr hmembers]
      rfl
  · have hop := not_or.mp (mt isApplication_iff.mpr happlication)
    rw [expansion_self _ happlication, idTargets, if_neg hop.1, count_nil, zero_nsmul,
      add_zero]

theorem preserved_members (x : Word × Word) :
    direct onMember (m.instructions.flatMap (expansion m.instructions)) x =
      effectiveOnMember m.instructions x := by
  refine direct_flatMap onMember x _ _ _ fun i hi => ?_
  by_cases happlication : isApplication i = true
  · obtain ⟨a, b, hcost⟩ := hcosted i hi happlication
    have hdefined := h.defined_group hcost
    have hop := isApplication_iff.mp happlication
    have hnone : direct onMember [i] x = 0 := by
      rcases hop with hop | hop <;> simp [direct, onMember, hop]
    rw [hnone, zero_add]
    rcases hop with hop | hop
    · have htargets : memberTargets i = [] := if_neg (by rw [hop]; decide)
      have hids : ∀ j ∈ expansion m.instructions i, onMember j = none := by
        intro j hj
        rw [expansion, if_pos hop] at hj
        obtain ⟨t, -, hj⟩ := mem_flatMap.mp hj
        obtain ⟨d, hd, rfl⟩ := mem_map.mp hj
        rcases h.opcode_attached hdefined hd with hop | hop <;> simp [onMember, retarget, hop]
      rw [htargets, count_nil, direct, filterMap_eq_nil_iff.mpr hids]
      rfl
    · rw [expansion, if_neg (by rw [hop]; decide), if_pos hop, direct_attached]
      refine direct_targets onMember x (memberTargets i) (attached m.instructions (i.word 1))
        memberDecorate content fun t d hd => ?_
      obtain ⟨hplain, hlong⟩ := h.member_attached hcost hop hd
      exact onMember_memberDecorate t hplain hlong
  · have hop := not_or.mp (mt isApplication_iff.mpr happlication)
    rw [expansion_self _ happlication, memberTargets, if_neg hop.2, count_nil,
      zero_nsmul, add_zero]

/-- The instructions that replace an application are decorations. -/
theorem expansion_decorates (hi : i ∈ m.instructions) (happlication : isApplication i = true)
    {j : Instruction} (hj : j ∈ expansion m.instructions i) : (onId j).isSome ∨ (onMember j).isSome := by
  obtain ⟨a, b, hcost⟩ := hcosted i hi happlication
  have hdefined := h.defined_group hcost
  have hop := isApplication_iff.mp happlication
  rcases hop with hop | hop
  · rw [expansion, if_pos hop] at hj
    obtain ⟨t, -, hj⟩ := mem_flatMap.mp hj
    obtain ⟨d, hd, rfl⟩ := mem_map.mp hj
    left
    rw [onId_retarget t (h.opcode_attached hdefined hd)]
    rfl
  · rw [expansion, if_neg (by rw [hop]; decide), if_pos hop] at hj
    obtain ⟨t, -, hj⟩ := mem_flatMap.mp hj
    obtain ⟨d, -, rfl⟩ := mem_map.mp hj
    exact .inr rfl

theorem preserved :
    Preserved m.instructions (m.instructions.flatMap (expansion m.instructions)) := by
  have hself : ∀ i ∈ m.instructions, isApplication i = false → expansion m.instructions i = [i] := by
    intro i _ hnot
    exact expansion_self _ (by simp [hnot])
  refine ⟨preserved_ids h hcosted, preserved_members h hcosted, ⟨_, rfl, hself,
    fun i hi happlication j hj => expansion_decorates h hcosted hi happlication hj⟩, ?_⟩
  intro j hj
  obtain ⟨i, hi, hj⟩ := mem_flatMap.mp hj
  by_cases happlication : isApplication i = true
  · exact not_application (expansion_decorates h hcosted hi happlication hj)
  · have hnot : isApplication i = false := by simpa using happlication
    rw [hself i hi hnot] at hj
    rwa [mem_singleton.mp hj]

end

/-- What the passes before the output have found. -/
theorem plan_spec (hsize : m.code.length < 2 ^ 64) (h : plan m = .ok (c, capacity)) :
    ∃ defined, Collected defined (locate 5 m.instructions) c ∧
      (∀ i ∈ m.instructions, isApplication i = true → ∃ a b, Costed m.code m.bound c i a b) ∧
      capacity = m.code.length + (m.instructions.map (extraWords c)).sum := by
  unfold plan at h
  split at h
  case h_1 => cases h
  case h_2 groups hdefine =>
  split at h
  case h_1 => cases h
  case h_2 c' hcollect =>
  split at h
  case h_1 => cases h
  case h_2 capacity' hcost =>
  cases h
  have hempty := defineGroups_empty (fun g => ⟨rfl, rfl, rfl, rfl⟩) hdefine
  have hcode : m.code.length = (encode m.instructions).length + 5 := rfl
  have hlength : (locate 5 m.instructions).length < 2 ^ 64 := by
    have hle := length_locate_le 5 m.instructions
    omega
  have hnodup : ((locate 5 m.instructions).map Prod.fst).Nodup :=
    pairwise_map.mpr ((locate_pairwise 5 m.instructions).imp fun hlt => Nat.ne_of_lt hlt)
  have hpositive : ∀ p ∈ locate 5 m.instructions, p.1 ≠ 0 := by
    intro p hp
    have hle := le_of_mem_locate (i := p.2) hp
    omega
  have hcollected : Collected _ ([] ++ locate 5 m.instructions) _ :=
    collect_collected hnodup hpositive hlength (collected_nil hempty) hcollect
  have hwords : ∀ g, (c.groups g).defined = true → (c.groups g).words ≤ sizeMax := by
    intro g hg
    rw [hcollected.same] at hg
    rw [hcollected.words_attached hg]
    have hle : ((attached m.instructions g).map Instruction.count).sum ≤
        (m.instructions.map Instruction.count).sum :=
      (filter_sublist.map _).sum_le_sum fun _ _ => Nat.zero_le _
    rw [← length_encode m.instructions] at hle
    unfold sizeMax
    omega
  obtain ⟨hcosted, hcapacity⟩ := cost_costed (show m.code.length ≤ sizeMax by unfold sizeMax; omega)
    hwords hcost
  exact ⟨_, hcollected, hcosted, hcapacity⟩

/-- The words each application is replaced by. -/
def expandedWords (is : List Instruction) (i : Instruction) : Nat :=
  if isApplication i then (encode (expansion is i)).length else 0

/-- An output is written from a plan, and its words are those of the instructions that replace the
old ones. -/
theorem decorations_eq_some {b : Binary} {host : Nat → Bool} {out : List Word}
    (hsize : b.size < 2 ^ 64) (h : decorations b host = .ok (some out)) :
    ∃ m c capacity defined, b.module? = some m ∧ plan m = .ok (c, capacity) ∧
      capacity ≤ sizeMax / 4 ∧ Collected defined (locate 5 m.instructions) c ∧
      (∀ i ∈ m.instructions, isApplication i = true → ∃ a b, Costed m.code m.bound c i a b) ∧
      capacity = m.code.length + (m.instructions.map (extraWords c)).sum ∧
      out = ({ m with
        instructions := m.instructions.flatMap (expansion m.instructions) } : Module).code := by
  unfold decorations at h
  split at h
  case h_1 => cases h
  case h_2 m hmodule =>
  split at h
  case isTrue => cases h
  case isFalse =>
  simp only [ite_error_eq_ok] at h
  obtain ⟨-, -, h⟩ := h
  split at h
  case h_1 => cases h
  case h_2 c capacity hplan =>
  simp only [ite_error_eq_ok, Except.ok.injEq, Option.some.injEq, not_or, not_lt] at h
  obtain ⟨⟨hfits, -⟩, rfl⟩ := h
  obtain ⟨hrest, hbound, hcode⟩ := Binary.module?_eq_some.mp hmodule
  have hlength : m.code.length < 2 ^ 64 := by
    rw [Binary.size, hcode] at hsize
    omega
  obtain ⟨defined, hcollected, hcosted, hcapacity⟩ := plan_spec hlength hplan
  have hexpand : m.instructions.flatMap (expand m.code c) =
      encode (m.instructions.flatMap (expansion m.instructions)) := by
    rw [encode_flatMap]
    refine flatMap_congr fun i hi => ?_
    by_cases happlication : isApplication i = true
    · obtain ⟨x, y, hcost⟩ := hcosted i hi happlication
      exact hcollected.expand_application hcost happlication
    · rw [expand, if_neg happlication, expansion_self _ happlication]
      simp
  rw [hexpand]
  exact ⟨m, c, capacity, defined, hmodule, hplan, hfits, hcollected, hcosted, hcapacity, rfl⟩

/-- Expanding the groups of a module keeps every decoration, and is not repeated. -/
theorem decorations_preserved (b : Binary) (host : Nat → Bool) (out : List Word)
    (hsize : b.size < 2 ^ 64) (h : decorations b host = .ok (some out)) :
    ∃ m os, b.module? = some m ∧ out = ({ m with instructions := os } : Module).code ∧
      Preserved m.instructions os ∧
      (∀ host', decorations (.ofWords out) host' = .ok none) ∧
      ∃ c capacity, plan m = .ok (c, capacity) ∧ out.length ≤ capacity ∧
        capacity = m.code.length + (m.instructions.map (expandedWords m.instructions)).sum ∧
        4 * capacity ≤ sizeMax := by
  obtain ⟨m, c, capacity, defined, hmodule, hplan, hfits, hcollected, hcosted, hcapacity, rfl⟩ :=
    decorations_eq_some hsize h
  have hbound := (Binary.module?_eq_some.mp hmodule).2.1
  have hpreserved := preserved hcollected hcosted
  have hextra : m.instructions.map (extraWords c) =
      m.instructions.map (expandedWords m.instructions) := by
    refine map_congr_left fun i hi => ?_
    unfold expandedWords
    split
    case isTrue happlication =>
      obtain ⟨x, y, hcost⟩ := hcosted i hi happlication
      exact (hcollected.length_expansion hcost happlication).symm
    case isFalse happlication => rw [extraWords, if_neg happlication]
  rw [hextra] at hcapacity
  refine ⟨m, _, hmodule, rfl, hpreserved, fun host' => ?_, c, capacity, hplan, ?_, hcapacity, ?_⟩
  · have hout := Module.module?_ofWords
      (m := { m with instructions := m.instructions.flatMap (expansion m.instructions) }) hbound
    have hnone : (m.instructions.flatMap (expansion m.instructions)).countP isApplication = 0 :=
      countP_eq_zero.mpr fun j hj => by simp [hpreserved.gone j hj]
    unfold decorations
    rw [hout]
    exact if_pos hnone
  · have hcodeLength : m.code.length = 5 + (m.instructions.map Instruction.count).sum := by
      rw [← length_encode, Nat.add_comm]
      rfl
    have hle : ∀ i ∈ m.instructions, (encode (expansion m.instructions i)).length ≤
        i.count + expandedWords m.instructions i := by
      intro i hi
      unfold expandedWords
      split
      case isTrue => exact Nat.le_add_left _ _
      case isFalse happlication =>
        rw [expansion_self _ happlication]
        simp
    have hsum := sum_le_sum hle
    rw [sum_map_add] at hsum
    rw [hcapacity, Module.code, length_append, encode_flatMap, length_flatMap]
    show 5 + _ ≤ _
    omega
  · omega

/-- Group 4 has two decorations; it is applied to ids 2 and 3 and to a member of 1. -/
def sampleModule : Module where
  version := 0x00010000
  generator := 0
  bound := 5
  schema := 0
  instructions :=
    [⟨71, [4, 2], by decide⟩, ⟨71, [4, 35, 16], by decide⟩, ⟨73, [4], by decide⟩,
      ⟨74, [4, 2, 3], by decide⟩, ⟨75, [4, 1, 0], by decide⟩, ⟨71, [2, 24], by decide⟩]

theorem decorations_preserved_sample :
    ∃ out, decorations (.ofWords sampleModule.code) (fun _ => true) = .ok (some out) ∧
      ∃ m os, (Binary.ofWords sampleModule.code).module? = some m ∧
        out = ({ m with instructions := os } : Module).code ∧ Preserved m.instructions os :=
  ⟨_, rfl, by
    obtain ⟨m, os, hm, hout, hpreserved, -⟩ :=
      decorations_preserved (.ofWords sampleModule.code) (fun _ => true) _ (by decide) rfl
    exact ⟨m, os, hm, hout, hpreserved⟩⟩

end SpirvDecorations
