import Mathlib.Algebra.Order.BigOperators.Group.List
import Mathlib.Algebra.GroupWithZero.Nat
import Mathlib.Algebra.Order.Group.Nat
import Libhybris.InPlace
import Libhybris.PolygonRecord

/-!
# Prepasses in a submission

A submission is handed to the driver with the prepass commands of each command buffer right before
it. The list is counted, filled and freed of repeats in one array; device masks are then realigned
by comparing handles.
-/
namespace Polygon

open Vulkan InPlace List

/-- The queue is one of the layer's, and which allocations of the call's arena fail, by the number
of blocks it has. -/
structure SubmitEnv where
  queueKnown : Bool
  fails : Nat → Bool

/-- The call returns without calling the driver, or it writes outside an array. -/
inductive Failure where
  | refused (result : VkResult)
  | overrun
  deriving DecidableEq, Repr

def errorFeatureNotPresent : VkResult := .other (-8)

def alloc (env : SubmitEnv) (blocks : Nat) : Except Failure Nat :=
  if env.fails blocks then .error (.refused .errorOutOfHostMemory) else .ok (blocks + 1)

/-- An array that is not needed when it has no entries. -/
def allocArray (env : SubmitEnv) (count blocks : Nat) : Except Failure Nat :=
  if env.fails blocks then if count = 0 then .ok blocks else .error (.refused .errorOutOfHostMemory)
  else .ok (blocks + 1)

/-- A write outside the array ends the run. -/
def checked {α : Type} : Option α → Except Failure α
  | none => .error .overrun
  | some a => .ok a

/-- The second loop of `expand`, with the array and how much of it is used. -/
def fill (recordings : Recordings) :
    List Command → List Command → Nat → Except Failure (List Command × Nat)
  | [], list, used => .ok (list, used)
  | c :: commands, list, used => do
    let capacity := recordPrepasses recordings c
    let list ← checked (store list used (prepassesOut recordings c capacity))
    let (list, used) ← checked (squeeze used capacity list used used)
    let list ← checked (put list used c)
    fill recordings commands list (used + 1)

/-- `expand`. Both callers answer a null list with out of host memory. The array is zeroed; the list
has the entries in use. -/
def expand (env : SubmitEnv) (recordings : Recordings) (commands : List Command) (blocks : Nat) :
    Except Failure (List Command × Nat) :=
  let extra := commands.map (recordPrepasses recordings)
  let length := commands.length + extra.sum
  if uint32Max ∈ extra then .error (.refused .errorOutOfHostMemory)
  else if uint32Max < length then .error (.refused .errorOutOfHostMemory)
  else if length = commands.length then .ok (commands, blocks)
  else do
    let blocks ← alloc env blocks
    let (list, used) ← fill recordings commands (List.replicate length 0) 0
    return (list.take used, blocks)

abbrev Mask := UInt32

/-- A node of a `pNext` chain: the device group node, one of the others `submit_node_size` knows, or
one it does not know. Data the call only copies is a number. -/
inductive Node where
  | deviceGroup (masks : List Mask) (data : Nat)
  | sized (data : Nat)
  | unsized (data : Nat)
  deriving DecidableEq, Repr

def Node.isGroup : Node → Bool
  | .deviceGroup _ _ => true
  | _ => false

/-- `VkSubmitInfo`, with the stage mask of each wait. -/
structure Batch where
  commands : List Command
  waits : List Nat
  chain : List Node
  data : Nat
  deriving DecidableEq, Repr

/-- The masks for the commands of a copy, with the index of the original command to come. -/
def alignMasks (masks : List Mask) (original : List Command) : List Command → Nat → List Mask
  | [], _ => []
  | c :: copy, i =>
    (if masks.length ≠ 0 then masks.getD i 0 else 1) ::
      alignMasks masks original copy
        (if original[i]? = some c ∧ i + 1 < original.length then i + 1 else i)

/-- The loop of `group_chain`: nodes are copied up to the last device group node. -/
def copyChain (env : SubmitEnv) (original copy : List Command) :
    List Node → Nat → Except Failure (List Node × Nat)
  | [], blocks => .ok ([], blocks)
  | .unsized _ :: _, _ => .error (.refused errorFeatureNotPresent)
  | .sized data :: nodes, blocks => do
    let blocks ← alloc env blocks
    let (nodes, blocks) ← copyChain env original copy nodes blocks
    return (.sized data :: nodes, blocks)
  | .deviceGroup masks data :: nodes, blocks => do
    let blocks ← alloc env blocks
    if nodes.any Node.isGroup then do
      let (nodes, blocks) ← copyChain env original copy nodes blocks
      return (.deviceGroup masks data :: nodes, blocks)
    else do
      let blocks ← alloc env blocks
      return (.deviceGroup (alignMasks masks original copy 0) data :: nodes, blocks)

/-- `group_chain`. -/
def groupChain (env : SubmitEnv) (original copy : List Command) (chain : List Node) (blocks : Nat) :
    Except Failure (List Node × Nat) :=
  if chain.any Node.isGroup then copyChain env original copy chain blocks else .ok (chain, blocks)

/-- `VK_PIPELINE_STAGE_ALL_COMMANDS_BIT`. -/
def allCommands : Nat := 0x10000

/-- The stage masks of a batch that got prepasses; they take an allocation if there are any. -/
def widenWaits {α : Type} (env : SubmitEnv) (widen : α → α) (waits : List α) (blocks : Nat) :
    Except Failure (List α × Nat) :=
  if waits.length = 0 then .ok (waits, blocks)
  else do
    let blocks ← alloc env blocks
    return (waits.map widen, blocks)

/-- One turn of the loop of `hybris_polygon_submit`. -/
def changeBatch (env : SubmitEnv) (recordings : Recordings) (b : Batch) (blocks : Nat) :
    Except Failure (Batch × Nat) := do
  let (list, blocks) ← expand env recordings b.commands blocks
  if list.length ≠ b.commands.length then do
    let (waits, blocks) ← widenWaits env (fun _ => allCommands) b.waits blocks
    let (chain, blocks) ← groupChain env b.commands list b.chain blocks
    return ({ b with commands := list, waits, chain }, blocks)
  else return ({ b with commands := list }, blocks)

/-- The loop over the batches. -/
def changeAll {β : Type} (change : β → Nat → Except Failure (β × Nat)) :
    List β → Nat → Except Failure (List β)
  | [], _ => .ok []
  | b :: batches, blocks => do
    let (b, blocks) ← change b blocks
    let batches ← changeAll change batches blocks
    return b :: batches

/-- What both entry points do around the loop: without prepasses the batches are handed over as they
are. -/
def submitWith {β : Type} (env : SubmitEnv) (recordings : Recordings) (commands : β → List Command)
    (change : β → Nat → Except Failure (β × Nat)) (batches : List β) : Except Failure (List β) :=
  if batches.any fun b => (commands b).any fun c => recordPrepasses recordings c ≠ 0 then
    if !env.queueKnown then .error (.refused .errorInitializationFailed)
    else do
      let blocks ← alloc env 0
      changeAll change batches blocks
  else .ok batches

/-- `hybris_polygon_submit`: the batches handed to the driver. -/
def submit (env : SubmitEnv) (recordings : Recordings) (batches : List Batch) :
    Except Failure (List Batch) :=
  submitWith env recordings Batch.commands (changeBatch env recordings) batches

/-- `VkCommandBufferSubmitInfo`; `next` is its chain. -/
structure CommandInfo where
  command : Command
  mask : Mask
  next : Nat
  deriving DecidableEq, Repr, Inhabited

/-- `VkSubmitInfo2`; a wait has its stage mask and other data. -/
structure Batch2 where
  infos : List CommandInfo
  waits : List (Nat × Nat)
  data : Nat
  deriving DecidableEq, Repr

def Batch2.commands (b : Batch2) : List Command := b.infos.map CommandInfo.command

/-- The entries for the commands of the list, with the index of the original entry to come. -/
def alignInfos (original : List CommandInfo) : List Command → Nat → List CommandInfo
  | [], _ => []
  | c :: list, i =>
    let info := original.getD i default
    if c = info.command then info :: alignInfos original list (if i + 1 < original.length then i + 1 else i)
    else { command := c, mask := info.mask, next := 0 } :: alignInfos original list i

/-- One turn of the loop of `hybris_polygon_submit2`. -/
def changeBatch2 (env : SubmitEnv) (recordings : Recordings) (b : Batch2) (blocks : Nat) :
    Except Failure (Batch2 × Nat) := do
  let blocks ← allocArray env b.infos.length blocks
  let (list, blocks) ← expand env recordings b.commands blocks
  let blocks ← allocArray env list.length blocks
  let infos := alignInfos b.infos list 0
  if list.length ≠ b.infos.length then do
    let (waits, blocks) ← widenWaits env (fun w => (w.1, allCommands)) b.waits blocks
    return ({ b with infos, waits }, blocks)
  else return ({ b with infos }, blocks)

/-- `hybris_polygon_submit2`. -/
def submit2 (env : SubmitEnv) (recordings : Recordings) (batches : List Batch2) :
    Except Failure (List Batch2) :=
  submitWith env recordings Batch2.commands (changeBatch2 env recordings) batches

/-- A recording is current if no link is stale and no prepass still records. -/
def Current (recordings : Recordings) (c : Command) : Prop :=
  (foundPrepasses recordings c).2 = true

instance (recordings : Recordings) (c : Command) : Decidable (Current recordings c) :=
  inferInstanceAs (Decidable (_ = _))

/-- What goes before a command: its own prepass and those of the secondaries it executes, once
each. -/
def preceding (recordings : Recordings) (c : Command) : List Command :=
  (foundPrepasses recordings c).1.eraseDups

def expanded (recordings : Recordings) (commands : List Command) : List Command :=
  commands.flatMap fun c => preceding recordings c ++ [c]

/-- The mask of each command, for it and for what goes before it. -/
def spread (recordings : Recordings) (commands : List Command) (masks : List Mask) : List Mask :=
  (commands.zip masks).flatMap fun p => List.replicate ((preceding recordings p.1).length + 1) p.2

variable {recordings : Recordings} {c : Command} {list original : List Command} {masks : List Mask}
  {nodes : List Node} {env : SubmitEnv} {blocks blocks' : Nat} {b : Batch}

theorem recordPrepasses_eq (h : Current recordings c) (hfew : recordPrepasses recordings c ≠ uint32Max) :
    recordPrepasses recordings c = (foundPrepasses recordings c).1.length := by
  have hfound : (foundPrepasses recordings c).2 = true := h
  simp only [recordPrepasses, hfound, Bool.true_eq_false, if_false] at hfew ⊢
  split at hfew
  · exact absurd rfl hfew
  · next hlt => rw [if_neg hlt]

theorem current_of_recordPrepasses (hfew : recordPrepasses recordings c ≠ uint32Max) :
    Current recordings c := by
  by_contra h
  have hfound : (foundPrepasses recordings c).2 = false := Bool.eq_false_iff.mpr h
  exact hfew (by simp only [recordPrepasses, hfound, if_true])

/-- The array has room for what is found, so nothing is written outside it; behind what was kept
stand the commands with what goes before them. -/
theorem fill_spec {commands kept : List Command}
    (hfew : ∀ c ∈ commands, recordPrepasses recordings c ≠ uint32Max)
    (hroom : kept.length + (commands.length + (commands.map (recordPrepasses recordings)).sum) ≤
      list.length)
    (hkept : list.take kept.length = kept) :
    ∃ list' used, fill recordings commands list kept.length = .ok (list', used) ∧
      list'.take used = kept ++ expanded recordings commands ∧ used ≤ list'.length ∧
      list'.length = list.length := by
  induction commands generalizing list kept with
  | nil =>
    exact ⟨list, kept.length, rfl, by rw [hkept, expanded, flatMap_nil, append_nil], by omega, rfl⟩
  | cons c commands ih =>
    have hc := hfew c mem_cons_self
    have hcount := recordPrepasses_eq (current_of_recordPrepasses hc) hc
    have hout : prepassesOut recordings c
      (recordPrepasses recordings c) = (foundPrepasses recordings c).1 := by
      rw [prepassesOut, hcount, take_length]
    simp only [length_cons, map_cons, sum_cons, hcount] at hroom
    obtain ⟨stored, hstore, hstored, hbefore, hrun⟩ :=
      store_spec (show kept.length + (foundPrepasses recordings c).1.length ≤ list.length by omega)
    have hstart : stored.take kept.length = kept ++ ([] : List Command).eraseDups := by
      rw [hbefore, hkept, eraseDups_nil, append_nil]
    obtain ⟨squeezed, used, hsqueeze, hsqueezed, hused, htaken⟩ :=
      squeeze_spec rfl (Nat.le_refl _) (by omega) hstart rfl hrun
    have hlength : used = (kept ++ preceding recordings c).length := by
      have hmin := congrArg List.length htaken
      rw [length_take_of_le (by omega)] at hmin
      exact hmin
    have hput := put_eq_some c (show used < squeezed.length by omega)
    have hnext : (kept ++ (preceding recordings c ++ [c])).length = used + 1 := by
      rw [hlength, ← append_assoc, length_append, length_singleton]
    have hbehind : (squeezed.set used c).take (kept ++ (preceding recordings c ++ [c])).length =
        kept ++ (preceding recordings c ++ [c]) := by
      rw [hnext, take_set_succ c (by omega), htaken, append_assoc]
      rfl
    obtain ⟨list', used', hfill, hresult, hbound, hsize⟩ :=
      ih (fun d hd => hfew d (mem_cons_of_mem _ hd))
        (by rw [length_set]; omega) hbehind
    refine ⟨list', used', ?_, ?_, hbound, ?_⟩
    · rw [hnext] at hfill
      rw [fill, hout, hstore]
      show (checked (squeeze kept.length _ stored kept.length kept.length) >>= _) = _
      rw [hcount, hsqueeze]
      show (checked (put squeezed used c) >>= _) = _
      rw [hput]
      exact hfill
    · rw [hresult, expanded, expanded, flatMap_cons, append_assoc]
    · rw [hsize, length_set]
      omega

theorem preceding_eq_nil (h : recordPrepasses recordings c = 0) : preceding recordings c = [] := by
  have hfew : recordPrepasses recordings c ≠ uint32Max := by rw [h]; decide
  have hlength := recordPrepasses_eq (current_of_recordPrepasses hfew) hfew
  rw [preceding, length_eq_zero_iff.mp (hlength.symm.trans h), eraseDups_nil]

theorem expanded_eq_self {commands : List Command}
    (h : ∀ c ∈ commands, preceding recordings c = []) : expanded recordings commands = commands := by
  induction commands with
  | nil => rfl
  | cons c commands ih =>
    rw [expanded, flatMap_cons, h c mem_cons_self]
    exact congrArg (c :: ·) (ih fun d hd => h d (mem_cons_of_mem _ hd))

/-- A list that did not grow has nothing before any command. -/
theorem preceding_of_length_expanded {commands : List Command}
    (h : (expanded recordings commands).length = commands.length) :
    ∀ c ∈ commands, preceding recordings c = [] := by
  have hle : ∀ commands : List Command, commands.length ≤ (expanded recordings commands).length := by
    intro commands
    induction commands with
    | nil => exact Nat.zero_le _
    | cons c commands ih =>
      simp only [expanded, flatMap_cons, length_append, length_cons] at ih ⊢
      omega
  induction commands with
  | nil => exact fun c hc => absurd hc not_mem_nil
  | cons c commands ih =>
    have htail := hle commands
    simp only [expanded, flatMap_cons, length_append, length_cons, length_nil] at h htail
    intro d hd
    rcases mem_cons.mp hd with rfl | hd
    · exact length_eq_zero_iff.mp (by omega)
    · exact ih (by rw [expanded]; omega) d hd

/-- A list is refused, or it has each command with what goes before it. -/
theorem expand_eq (env : SubmitEnv) (recordings : Recordings) (commands : List Command)
    (blocks : Nat) : expand env recordings commands blocks =
      if uint32Max ∈ commands.map (recordPrepasses recordings) ∨
          uint32Max < commands.length + (commands.map (recordPrepasses recordings)).sum then
        .error (.refused .errorOutOfHostMemory)
      else if (commands.map (recordPrepasses recordings)).sum = 0 then .ok
        (expanded recordings commands, blocks)
      else (alloc env blocks).map (expanded recordings commands, ·) := by
  by_cases hstale : uint32Max ∈ commands.map (recordPrepasses recordings)
  · simp [expand, hstale]
  by_cases hlong : uint32Max < commands.length + (commands.map (recordPrepasses recordings)).sum
  · simp [expand, hstale, hlong]
  have hor : ¬(uint32Max ∈ commands.map (recordPrepasses recordings) ∨
      uint32Max < commands.length + (commands.map (recordPrepasses recordings)).sum) := by tauto
  rw [expand, if_neg hstale, if_neg hlong, if_neg hor]
  by_cases hnone : (commands.map (recordPrepasses recordings)).sum = 0
  · have hzero : ∀ c ∈ commands, preceding recordings c = [] := fun c hc =>
      preceding_eq_nil (List.sum_eq_zero_iff_forall_eq_nat.mp hnone _ (mem_map_of_mem hc))
    rw [if_pos (by omega), if_pos hnone, expanded_eq_self hzero]
  · rw [if_neg (by omega), if_neg hnone]
    cases alloc env blocks with
    | error e => rfl
    | ok blocks =>
      have hfew : ∀ c ∈ commands, recordPrepasses recordings c ≠ uint32Max := fun c hc heq =>
        hstale (heq ▸ mem_map_of_mem hc)
      have hroom : ([] : List Command).length +
          (commands.length + (commands.map (recordPrepasses recordings)).sum) ≤
          (List.replicate
            (commands.length + (commands.map (recordPrepasses recordings)).sum) 0).length := by
        rw [length_replicate, length_nil]
        omega
      obtain ⟨list, used, hfill, htaken, -, -⟩ := fill_spec hfew hroom rfl
      rw [length_nil] at hfill
      rw [hfill]
      show Except.ok (list.take used, blocks) = _
      rw [htaken]
      rfl

/-- No prepass command is one of the application's. -/
def Apart (recordings : Recordings) (commands : List Command) : Prop :=
  ∀ c ∈ commands, ∀ d ∈ commands, d ∉ preceding recordings c

theorem alignMasks_append {i : Nat} (copy : List Command) (hmasks : masks.length ≠ 0)
    (h : ∀ c ∈ list, original[i]? ≠ some c) :
    alignMasks masks original (list ++ copy) i =
      List.replicate list.length (masks.getD i 0) ++ alignMasks masks original copy i := by
  induction list with
  | nil => rfl
  | cons c list ih =>
    have hc : ¬(original[i]? = some c ∧ i + 1 < original.length) := fun hand =>
      h c mem_cons_self hand.1
    rw [cons_append, alignMasks, if_pos hmasks, if_neg hc, ih fun d hd => h d (mem_cons_of_mem _ hd)]
    rfl

/-- The masks for the commands left, with as many before them as the index says. -/
theorem alignMasks_expanded {before rest : List Command}
    (hapart : Apart recordings (before ++ rest)) (hmasks : masks.length = (before ++ rest).length) :
    alignMasks masks (before ++ rest) (expanded recordings rest) before.length =
      spread recordings rest (masks.drop before.length) := by
  induction rest generalizing before with
  | nil => rfl
  | cons c rest ih =>
    have hlength : masks.length = before.length + (rest.length + 1) := by
      rw [hmasks, length_append, length_cons]
    have hi : before.length < masks.length := by omega
    have hhere : (before ++ c :: rest)[before.length]? = some c := by
      rw [getElem?_append_right (Nat.le_refl _), Nat.sub_self, getElem?_cons_zero]
    have hmask : masks.getD before.length 0 = masks[before.length] := by
      rw [getD_eq_getElem?_getD, getElem?_eq_getElem hi, Option.getD_some]
    have hskip : ∀ d ∈ preceding recordings c, (before ++ c :: rest)[before.length]? ≠ some d := by
      intro d hd heq
      rw [hhere] at heq
      cases heq
      exact hapart c (by simp) c (by simp) hd
    have hrest : alignMasks masks (before ++ c :: rest) (expanded recordings rest)
        (if (before ++ c :: rest)[before.length]? = some c ∧
          before.length + 1 < (before ++ c :: rest).length
          then before.length + 1 else before.length) = spread recordings rest
            (masks.drop (before.length + 1)) := by
      cases rest with
      | nil => rfl
      | cons d rest =>
        have happend : before ++ c :: d :: rest = (before ++ [c]) ++ d :: rest := by
          rw [append_assoc, singleton_append]
        have hnext : before.length + 1 = (before ++ [c]).length := by
          rw [length_append, length_singleton]
        rw [if_pos ⟨hhere, by rw [← hmasks]; simp only [length_cons] at hlength; omega⟩, hnext, happend]
        rw [happend] at hapart hmasks
        exact ih hapart hmasks
    rw [expanded, flatMap_cons, append_assoc, alignMasks_append _ (by omega) hskip,
      singleton_append, alignMasks, if_pos (show masks.length ≠ 0 by omega), hmask]
    show _ ++ _ :: alignMasks masks _ (expanded recordings rest) _ = _
    rw [hrest, spread, spread, drop_eq_getElem_cons hi, zip_cons_cons, flatMap_cons,
      replicate_succ', append_assoc, singleton_append]

/-- The entries of the commands left, and of what goes before them. -/
def infosExpanded (recordings : Recordings) (infos : List CommandInfo) : List CommandInfo :=
  infos.flatMap fun info =>
    (preceding recordings info.command).map
      (fun c => { command := c, mask := info.mask, next := 0 }) ++ [info]

theorem alignInfos_append {original : List CommandInfo} {info : CommandInfo} {i : Nat}
    (copy : List Command) (hi : original.getD i default = info) (h : info.command ∉ list) :
    alignInfos original (list ++ copy) i =
      list.map (fun c => { command := c, mask := info.mask, next := 0 }) ++ alignInfos original copy i := by
  induction list with
  | nil => rfl
  | cons c list ih =>
    have hc : c ≠ info.command := fun heq => h (heq ▸ mem_cons_self)
    rw [cons_append, alignInfos, hi]
    simp only [hc, if_false]
    rw [ih fun hmem => h (mem_cons_of_mem _ hmem)]
    rfl

theorem alignInfos_expanded {before rest : List CommandInfo}
    (hapart : Apart recordings ((before ++ rest).map CommandInfo.command)) :
    alignInfos (before ++ rest) (expanded recordings (rest.map CommandInfo.command)) before.length =
      infosExpanded recordings rest := by
  induction rest generalizing before with
  | nil => rfl
  | cons info rest ih =>
    have hhere : (before ++ info :: rest).getD before.length default = info := by
      rw [getD_eq_getElem?_getD, getElem?_append_right (Nat.le_refl _), Nat.sub_self,
        getElem?_cons_zero, Option.getD_some]
    have hmem : info.command ∈ (before ++ info :: rest).map CommandInfo.command :=
      mem_map_of_mem (mem_append_right _ mem_cons_self)
    have hrest : alignInfos (before ++ info :: rest) (expanded recordings (rest.map CommandInfo.command))
        (if before.length + 1 < (before ++ info :: rest).length then before.length + 1 else before.length) =
          infosExpanded recordings rest := by
      cases rest with
      | nil => rfl
      | cons next rest =>
        have happend : before ++ info :: next :: rest = (before ++ [info]) ++ next :: rest := by
          rw [append_assoc, singleton_append]
        have hnext : before.length + 1 = (before ++ [info]).length := by
          rw [length_append, length_singleton]
        rw [if_pos (by simp), hnext, happend]
        rw [happend] at hapart
        exact ih hapart
    rw [map_cons, expanded, flatMap_cons, append_assoc,
      alignInfos_append _ hhere (hapart _ hmem _ hmem), singleton_append, alignInfos, hhere]
    simp only [if_true]
    show _ ++ _ :: alignInfos _ (expanded recordings (rest.map CommandInfo.command)) _ = _
    rw [hrest, infosExpanded, infosExpanded, flatMap_cons, append_assoc, singleton_append]

/-- At most one device group node, with a mask for each command. -/
structure Batch.Valid (b : Batch) : Prop where
  single : b.chain.countP Node.isGroup ≤ 1
  masks : ∀ masks data, .deviceGroup masks data ∈ b.chain → masks.length = b.commands.length

/-- A node with other masks. -/
def Node.regroup (f : List Mask → List Mask) : Node → Node
  | .deviceGroup masks data => .deviceGroup (f masks) data
  | node => node

theorem map_regroup_eq_self {f : List Mask → List Mask}
    (h : ∀ masks data, .deviceGroup masks data ∈ nodes → f masks = masks) :
    nodes.map (Node.regroup f) = nodes := by
  refine map_congr_left (fun node hnode => ?_) |>.trans (map_id nodes)
  cases node with
  | deviceGroup masks data => rw [Node.regroup, h masks data hnode]; rfl
  | sized data => rfl
  | unsized data => rfl

/-- What is handed to the driver for a batch: masks are for one device group node only. -/
def Batch.Expands (recordings : Recordings) (b b' : Batch) : Prop :=
  b'.commands = expanded recordings b.commands ∧
    (b.Valid → b'.chain = b.chain.map (Node.regroup (spread recordings b.commands)))

theorem spread_eq_self {commands : List Command} (h : ∀ c ∈ commands, preceding recordings c = [])
    (hmasks : masks.length = commands.length) : spread recordings commands masks = masks := by
  induction commands generalizing masks with
  | nil => exact (length_eq_zero_iff.mp hmasks).symm
  | cons c commands ih =>
    cases masks with
    | nil => cases hmasks
    | cons mask masks =>
      rw [spread, zip_cons_cons, flatMap_cons, h c mem_cons_self]
      exact congrArg (mask :: ·) (ih (fun d hd => h d (mem_cons_of_mem _ hd)) (Nat.succ.inj hmasks))

theorem infosExpanded_eq_self {infos : List CommandInfo}
    (h : ∀ c ∈ infos.map CommandInfo.command, preceding recordings c = []) :
    infosExpanded recordings infos = infos := by
  induction infos with
  | nil => rfl
  | cons info infos ih =>
    rw [infosExpanded, flatMap_cons, h _ mem_cons_self]
    exact congrArg (info :: ·) (ih fun d hd => h d (mem_cons_of_mem _ hd))

theorem Batch.expands_self (h : ∀ c ∈ b.commands, preceding recordings c = []) : b.Expands recordings b :=
  ⟨(expanded_eq_self h).symm, fun hvalid => (map_regroup_eq_self fun masks data hmem =>
    spread_eq_self h (hvalid.masks masks data hmem)).symm⟩

def InBounds {α : Type} (x : Except Failure α) : Prop := x ≠ .error .overrun

/-- The queue is known and no allocation fails. -/
structure SubmitEnv.Ample (env : SubmitEnv) : Prop where
  queue : env.queueKnown = true
  memory : ∀ blocks, env.fails blocks = false

/-- A batch of current recordings that with all prepasses has no more than `UINT32_MAX` commands. -/
structure Fits (recordings : Recordings) (commands : List Command) : Prop where
  current : ∀ c ∈ commands, Current recordings c
  few : commands.length + (commands.map fun c => (foundPrepasses recordings c).1.length).sum ≤ uint32Max

theorem Fits.recordPrepasses_eq {commands : List Command} (h : Fits recordings commands)
    (hc : c ∈ commands) : recordPrepasses recordings c ≠ uint32Max ∧
      recordPrepasses recordings c = (foundPrepasses recordings c).1.length := by
  have hlt : (foundPrepasses recordings c).1.length < uint32Max := by
    have hpos := length_pos_of_mem hc
    have hle := single_le_sum (fun _ _ => Nat.zero_le _) _
      (mem_map_of_mem (f := fun c => (foundPrepasses recordings c).1.length) hc)
    have hfew := h.few
    omega
  have hfound : (foundPrepasses recordings c).2 = true := h.current c hc
  have heq : recordPrepasses recordings c = (foundPrepasses recordings c).1.length := by
    simp only [recordPrepasses, hfound, Bool.true_eq_false, if_false, if_neg (Nat.not_le.mpr hlt)]
  exact ⟨by omega, heq⟩

theorem Fits.not_refused {commands : List Command} (h : Fits recordings commands) :
    ¬(uint32Max ∈ commands.map (recordPrepasses recordings) ∨
      uint32Max < commands.length + (commands.map (recordPrepasses recordings)).sum) := by
  have hmap : commands.map (recordPrepasses recordings) =
      commands.map fun c => (foundPrepasses recordings c).1.length :=
    map_congr_left fun c hc => (h.recordPrepasses_eq hc).2
  rintro (hmem | hlong)
  · obtain ⟨c, hc, heq⟩ := mem_map.mp hmem
    exact (h.recordPrepasses_eq hc).1 heq
  · rw [hmap] at hlong
    exact absurd h.few (Nat.not_le.mpr hlong)

/-- A call writes inside its arrays, returns what `post` says, and returns if `p`. -/
structure Spec {α : Type} (x : Except Failure α) (p : Prop) (post : α → Prop) : Prop where
  inBounds : InBounds x
  post : ∀ a, x = .ok a → post a
  returns : p → ∃ a, x = .ok a

variable {α β : Type} {p : Prop}

theorem Spec.ok {post : α → Prop} {a : α} (h : post a) : Spec (.ok a) p post where
  inBounds h := nomatch h
  post b hb := by cases hb; exact h
  returns _ := ⟨a, rfl⟩

theorem Spec.refused {post : α → Prop} (result : VkResult) (h : ¬p) :
    Spec (.error (.refused result)) p post where
  inBounds h := nomatch h
  post _ h := nomatch h
  returns hp := absurd hp h

theorem Spec.imp {x : Except Failure α} {post post' : α → Prop} (hx : Spec x p post)
    (h : ∀ a, post a → post' a) : Spec x p post' :=
  ⟨hx.inBounds, fun a ha => h a (hx.post a ha), hx.returns⟩

theorem Spec.bind {x : Except Failure α} {f : α → Except Failure β} {mid : α → Prop} {post : β →
    Prop} (hx : Spec x p mid) (hf : ∀ a, mid a → Spec (f a) p post) : Spec (x >>= f) p post where
  inBounds h := by
    rcases bind_eq_error.mp h with h | ⟨a, ha, h⟩
    · exact hx.inBounds h
    · exact (hf a (hx.post a ha)).inBounds h
  post b hb := by
    obtain ⟨a, ha, hb⟩ := bind_eq_ok.mp hb
    exact (hf a (hx.post a ha)).post b hb
  returns hp := by
    obtain ⟨a, ha⟩ := hx.returns hp
    obtain ⟨b, hb⟩ := (hf a (hx.post a ha)).returns hp
    exact ⟨b, bind_eq_ok.mpr ⟨a, ha, hb⟩⟩

section
variable (hp : p → env.Ample)
include hp

theorem alloc_spec (blocks : Nat) : Spec (alloc env blocks) p fun _ => True := by
  rw [alloc]
  split
  · next hfails => exact .refused _ fun h => by simp [(hp h).memory] at hfails
  · exact .ok trivial

theorem allocArray_spec (count blocks : Nat) : Spec (allocArray env count blocks) p fun _ => True := by
  rw [allocArray]
  split
  · split
    · exact .ok trivial
    · next hfails _ => exact .refused _ fun h => by simp [(hp h).memory] at hfails
  · exact .ok trivial

theorem expand_spec {commands : List Command} (hfits : p → Fits recordings commands) (blocks : Nat) :
    Spec (expand env recordings commands blocks) p fun r => r.1 = expanded recordings commands := by
  rw [expand_eq]
  split
  · next hrefused => exact .refused _ fun h => (hfits h).not_refused hrefused
  split
  · exact .ok rfl
  · exact (alloc_spec hp blocks).bind fun next _ => .ok rfl

section
variable (hsized : p → ∀ data, .unsized data ∉ nodes) (blocks : Nat)
include hsized

theorem copyChain_spec {copy : List Command} :
    Spec (copyChain env original copy nodes blocks) p fun r => nodes.countP Node.isGroup ≤ 1 →
      r.1 = nodes.map (Node.regroup fun masks => alignMasks masks original copy 0) := by
  induction nodes generalizing blocks with
  | nil => exact .ok fun _ => rfl
  | cons node nodes ih =>
    have ih := ih fun h data hmem => hsized h data (mem_cons_of_mem _ hmem)
    cases node with
    | unsized data => exact .refused _ fun h => hsized h data mem_cons_self
    | sized data =>
      refine (alloc_spec hp blocks).bind fun next _ => (ih next).bind fun r hr => ?_
      exact .ok fun hsingle => congrArg (Node.sized data :: ·) (hr hsingle)
    | deviceGroup masks data =>
      refine (alloc_spec hp blocks).bind fun next _ => ?_
      split
      · next hany =>
        refine (ih next).bind fun r _ => .ok fun hsingle => ?_
        have hpos := countP_pos_iff.mpr (any_eq_true.mp hany)
        rw [countP_cons_of_pos rfl] at hsingle
        omega
      · next hany =>
        refine (alloc_spec hp next).bind fun last _ => .ok fun _ => ?_
        refine congrArg (Node.deviceGroup _ data :: ·) (map_regroup_eq_self fun masks data hmem => ?_).symm
        exact absurd (any_eq_true.mpr ⟨_, hmem, rfl⟩) hany

theorem groupChain_spec {copy : List Command} :
    Spec (groupChain env original copy nodes blocks) p fun r => nodes.countP Node.isGroup ≤ 1 →
      r.1 = nodes.map (Node.regroup fun masks => alignMasks masks original copy 0) := by
  rw [groupChain]
  split
  · exact copyChain_spec hp hsized blocks
  · next hany =>
    refine .ok fun _ => (map_regroup_eq_self fun masks data hmem => ?_).symm
    exact absurd (any_eq_true.mpr ⟨_, hmem, rfl⟩) hany

end

theorem widenWaits_spec (widen : α → α) (waits : List α) (blocks : Nat) :
    Spec (widenWaits env widen waits blocks) p fun r => r.1 = waits.map widen := by
  rw [widenWaits]
  split
  · next hnone => exact .ok (by rw [length_eq_zero_iff.mp hnone, map_nil])
  · exact (alloc_spec hp blocks).bind fun next _ => .ok rfl

theorem changeBatch_spec (hapart : Apart recordings b.commands)
    (hfits : p → Fits recordings b.commands ∧ ∀ data, .unsized data ∉ b.chain) (blocks : Nat) :
    Spec (changeBatch env recordings b blocks) p fun r => b.Expands recordings r.1 := by
  refine (expand_spec hp (fun h => (hfits h).1) blocks).bind ?_
  rintro ⟨list, next⟩ rfl
  simp only
  split
  · refine (widenWaits_spec hp _ b.waits next).bind fun waits _ => ?_
    refine (groupChain_spec hp (fun h => (hfits h).2) waits.2).bind fun chain hchain => ?_
    refine .ok ⟨rfl, fun hvalid => (hchain hvalid.single).trans (map_congr_left fun node hnode => ?_)⟩
    cases node with
    | deviceGroup masks data =>
      have halign :
          alignMasks masks ([] ++ b.commands) (expanded recordings b.commands) ([] : List Command).length =
          spread recordings b.commands (masks.drop 0) :=
            alignMasks_expanded hapart (hvalid.masks masks data hnode)
      exact congrArg (Node.deviceGroup · data) halign
    | sized data => rfl
    | unsized data => rfl
  · next hlength =>
    have hnone := preceding_of_length_expanded (not_not.mp hlength)
    exact .ok ⟨rfl, (Batch.expands_self hnone).2⟩

theorem changeBatch2_spec {b : Batch2} (hapart : Apart recordings b.commands)
    (hfits : p → Fits recordings b.commands) (blocks : Nat) :
    Spec (changeBatch2 env recordings b blocks) p fun r =>
      r.1.infos = infosExpanded recordings b.infos := by
  refine (allocArray_spec hp _ blocks).bind fun first _ => (expand_spec hp hfits first).bind ?_
  rintro ⟨list, next⟩ rfl
  refine (allocArray_spec hp _ next).bind fun last _ => ?_
  have halign : alignInfos ([] ++ b.infos) (expanded recordings b.commands) ([] : List CommandInfo).length =
      infosExpanded recordings b.infos := alignInfos_expanded hapart
  split
  · exact (widenWaits_spec hp _ b.waits last).bind fun waits _ => .ok halign
  · exact .ok halign

variable {commands : β → List Command} {change : β → Nat → Except Failure (β × Nat)} {batches : List β}
  {expands : β → β → Prop}
    (hchange : ∀ b ∈ batches, ∀ blocks, Spec (change b blocks) p fun r => expands b r.1)
include hchange

omit hp in
theorem changeAll_spec (blocks : Nat) :
    Spec (changeAll change batches blocks) p (Forall₂ expands batches) := by
  induction batches generalizing blocks with
  | nil => exact .ok .nil
  | cons b batches ih =>
    refine (hchange b mem_cons_self blocks).bind fun b' hb => ?_
    refine (ih (fun d hd => hchange d (mem_cons_of_mem _ hd)) b'.2).bind fun rest hrest => ?_
    exact .ok (.cons hb hrest)

/-- Both entry points hand over every batch changed, also if there is nothing to insert. -/
theorem submitWith_spec
    (hself : ∀ b ∈ batches, (∀ c ∈ commands b, preceding recordings c = []) → expands b b) :
    Spec (submitWith env recordings commands change batches) p (Forall₂ expands batches) := by
  rw [submitWith]
  split
  · split
    · next hqueue => exact .refused _ fun h => by simp [(hp h).queue] at hqueue
    · exact (alloc_spec hp 0).bind fun blocks _ => changeAll_spec hchange blocks
  · next hany =>
    refine .ok (forall₂_same.mpr fun b hb => hself b hb fun c hc => ?_)
    refine preceding_eq_nil (by_contra fun hne => hany ?_)
    exact any_eq_true.mpr ⟨b, hb, any_eq_true.mpr ⟨c, hc, decide_eq_true hne⟩⟩

end

/-- A prepass that a draw of the recording uses. -/
def Recording.HasPrepass (s : Recording) (d : Command) : Prop :=
  ∃ pre, s.pre = some pre ∧ pre.used = true ∧ pre.command = d

/-- A prepass of a command buffer or of a secondary it executes. -/
def PrepassOf (recordings : Recordings) (c d : Command) : Prop :=
  ∃ s, recordings c = some s ∧
    (s.HasPrepass d ∨ ∃ child epoch r, .child child epoch ∈ s.links ∧ recordings child = some r ∧
      r.HasPrepass d)

theorem mem_ownPrepass {s : Recording} {own : List Command} (h : s.ownPrepass = some own)
    (d : Command) : d ∈ own ↔ s.HasPrepass d := by
  rw [Recording.ownPrepass] at h
  cases hpre : s.pre with
  | none =>
    rw [hpre] at h
    cases h
    exact ⟨fun hd => absurd hd not_mem_nil, fun ⟨_, hp, _⟩ => nomatch hpre.symm.trans hp⟩
  | some pre =>
    simp only [hpre] at h
    split at h
    · next hused =>
      cases h
      refine ⟨fun hd => absurd hd not_mem_nil, fun ⟨_, hp, hu, _⟩ => ?_⟩
      cases hpre.symm.trans hp
      rw [hu] at hused
      cases hused
    · next hused =>
      split at h
      · cases h
      · cases h
        refine ⟨fun hd => ⟨pre, hpre, by simpa using hused, (mem_singleton.mp hd).symm⟩, ?_⟩
        rintro ⟨pre', hp, -, rfl⟩
        cases hpre.symm.trans hp
        exact mem_singleton_self _

theorem mem_childPrepasses {links : List Link} (h : (childPrepasses recordings links).2 = true)
    (d : Command) :
    d ∈ (childPrepasses recordings links).1 ↔
      ∃ child epoch r, .child child epoch ∈ links ∧ recordings child = some r ∧ r.HasPrepass d := by
  induction links with
  | nil => exact ⟨fun hd => absurd hd not_mem_nil, fun ⟨_, _, _, hmem, _⟩ => absurd hmem not_mem_nil⟩
  | cons link links ih =>
    cases link with
    | written b =>
      rw [childPrepasses] at h ⊢
      simpa using ih h
    | child c epoch =>
      rw [childPrepasses] at h ⊢
      cases hc : recordings c with
      | none => rw [hc] at h; cases h
      | some r =>
        simp only [hc] at h ⊢
        split at h
        · cases h
        · next hepoch =>
          rw [if_neg hepoch]
          cases hown : r.ownPrepass with
          | none => rw [hown] at h; cases h
          | some own =>
            simp only [hown] at h ⊢
            rw [mem_append, mem_ownPrepass hown, ih h]
            constructor
            · rintro (hd | ⟨child, epoch', r', hmem, hrest⟩)
              · exact ⟨c, epoch, r, mem_cons_self, hc, hd⟩
              · exact ⟨child, epoch', r', mem_cons_of_mem _ hmem, hrest⟩
            · rintro ⟨child, epoch', r', hmem, hr, hd⟩
              rcases mem_cons.mp hmem with heq | hmem
              · cases heq
                cases hc.symm.trans hr
                exact .inl hd
              · exact .inr ⟨child, epoch', r', hmem, hr, hd⟩

theorem mem_preceding (h : Current recordings c) (d : Command) :
    d ∈ preceding recordings c ↔ PrepassOf recordings c d := by
  rw [preceding, mem_eraseDups]
  rw [Current, foundPrepasses] at h
  rw [foundPrepasses, PrepassOf]
  cases hc : recordings c with
  | none => exact ⟨fun hd => absurd hd not_mem_nil, fun ⟨_, hs, _⟩ => nomatch hs⟩
  | some s =>
    simp only [hc] at h ⊢
    cases hown : s.ownPrepass with
    | none => rw [hown] at h; cases h
    | some own =>
      simp only [hown] at h ⊢
      rw [mem_append, mem_ownPrepass hown, mem_childPrepasses h]
      exact ⟨fun hd => ⟨s, rfl, hd⟩, fun ⟨_, hs, hd⟩ => by cases hs; exact hd⟩

/-- Without what goes before its commands, the list is the original one. -/
theorem filter_expanded {commands all : List Command} (hall : ∀ c ∈ commands, c ∈ all)
    (hapart : ∀ c ∈ commands, ∀ d ∈ all, d ∉ preceding recordings c) :
    (expanded recordings commands).filter (· ∈ all) = commands := by
  induction commands with
  | nil => rfl
  | cons c commands ih =>
    have hnone : (preceding recordings c).filter (fun d => decide (d ∈ all)) = [] :=
      filter_eq_nil_iff.mpr fun d hd hmem =>
        hapart c mem_cons_self d (of_decide_eq_true hmem) hd
    have hkeep : [c].filter (fun d => decide (d ∈ all)) = [c] := by
      rw [filter_singleton, decide_eq_true (hall c mem_cons_self)]
      rfl
    rw [expanded, flatMap_cons, filter_append, filter_append, hnone, hkeep]
    exact congrArg (c :: ·) (ih (fun d hd => hall d (mem_cons_of_mem _ hd))
      fun d hd => hapart d (mem_cons_of_mem _ hd))

/-- The commands with their own prepasses and those of executed secondaries right before each,
without repetition, and nothing else. -/
structure Inserted (recordings : Recordings) (commands commands' : List Command) : Prop where
  sequence : commands' = commands.flatMap fun c => preceding recordings c ++ [c]
  distinct : ∀ c ∈ commands, (preceding recordings c).Nodup
  exact : ∀ c ∈ commands, ∀ d, d ∈ preceding recordings c ↔ PrepassOf recordings c d
  original : commands'.filter (· ∈ commands) = commands

theorem inserted_expanded {commands : List Command} (hcurrent : ∀ c ∈ commands, Current recordings c)
    (hapart : Apart recordings commands) : Inserted recordings commands (expanded recordings commands) where
  sequence := rfl
  distinct _ _ := nodup_eraseDups _
  exact c hc := mem_preceding (hcurrent c hc)
  original := filter_expanded (fun _ hc => hc) hapart

theorem commands_infosExpanded (recordings : Recordings) (infos : List CommandInfo) :
    (infosExpanded recordings infos).map CommandInfo.command =
      expanded recordings (infos.map CommandInfo.command) := by
  induction infos with
  | nil => rfl
  | cons info infos ih =>
    have hown : ((preceding recordings info.command).map fun c =>
        ({ command := c, mask := info.mask, next := 0 } : CommandInfo)).map CommandInfo.command =
          preceding recordings info.command := by
      rw [map_map]
      exact map_id _
    rw [infosExpanded, flatMap_cons, map_append, map_append, hown]
    exact congrArg (preceding recordings info.command ++ [info.command] ++ ·) ih

section
variable (env : SubmitEnv)

theorem submit_spec {batches : List Batch}
    (hcurrent : ∀ b ∈ batches, ∀ c ∈ b.commands, Current recordings c)
    (hapart : ∀ b ∈ batches, Apart recordings b.commands) :
    Spec (submit env recordings batches)
      (env.Ample ∧ ∀ b ∈ batches, Fits recordings b.commands ∧ ∀ data, .unsized data ∉ b.chain)
      (Forall₂ (fun b b' => Inserted recordings b.commands b'.commands ∧
        (b.Valid → b'.chain = b.chain.map (Node.regroup (spread recordings b.commands)))) batches) := by
  have hinserted : ∀ b ∈ batches, ∀ b', b.Expands recordings b' →
      Inserted recordings b.commands b'.commands ∧
      (b.Valid → b'.chain = b.chain.map (Node.regroup (spread recordings b.commands))) :=
    fun b hb b' h => ⟨h.1 ▸ inserted_expanded (hcurrent b hb) (hapart b hb), h.2⟩
  refine submitWith_spec (fun h => h.1) (fun b hb blocks => ?_) fun b hb h =>
    hinserted b hb b (Batch.expands_self h)
  exact (changeBatch_spec (fun h => h.1) (hapart b hb) (fun h => h.2 b hb) blocks).imp fun r =>
    hinserted b hb r.1

theorem submit2_spec {batches : List Batch2}
    (hcurrent : ∀ b ∈ batches, ∀ c ∈ b.commands, Current recordings c)
    (hapart : ∀ b ∈ batches, Apart recordings b.commands) :
    Spec (submit2 env recordings batches) (env.Ample ∧ ∀ b ∈ batches, Fits recordings b.commands)
      (Forall₂ (fun b b' => Inserted recordings b.commands b'.commands ∧
        b'.infos = infosExpanded recordings b.infos) batches) := by
  have hinserted : ∀ b ∈ batches, ∀ b' : Batch2, b'.infos = infosExpanded recordings b.infos →
      Inserted recordings b.commands b'.commands ∧ b'.infos = infosExpanded recordings b.infos := by
    intro b hb b' h
    have hcommands : b'.commands = expanded recordings b.commands :=
      (congrArg (List.map CommandInfo.command) h).trans (commands_infosExpanded _ _)
    rw [hcommands]
    exact ⟨inserted_expanded (hcurrent b hb) (hapart b hb), h⟩
  refine submitWith_spec (fun h => h.1) (fun b hb blocks => ?_)
    fun b hb h => hinserted b hb b (infosExpanded_eq_self h).symm
  exact (changeBatch2_spec (fun h => h.1) (hapart b hb) (fun h => h.2 b hb) blocks).imp fun r =>
    hinserted b hb r.1

end

/-- Each batch handed to the driver is the application's with the prepasses of each command right
before it; in a valid one a mask is that of the command it stands at or before. Removing what was
inserted gives the batch back, and both entry points hand over the same commands. Nothing is written
outside an array, and with memory and a known queue every batch that fits and whose chain is known
is handed over. -/
theorem submissions_expanded (env : SubmitEnv) (recordings : Recordings) (batches : List Batch)
    (batches2 : List Batch2)
    (hcurrent : ∀ b ∈ batches, ∀ c ∈ b.commands, Current recordings c)
    (hcurrent2 : ∀ b ∈ batches2, ∀ c ∈ b.commands, Current recordings c)
    (hapart : ∀ b ∈ batches, Apart recordings b.commands)
    (hapart2 : ∀ b ∈ batches2, Apart recordings b.commands) :
    (∀ out, submit env recordings batches = .ok out →
      List.Forall₂ (fun b b' => Inserted recordings b.commands b'.commands ∧
        (b.Valid → b'.chain = b.chain.map (Node.regroup (spread recordings b.commands)))) batches out) ∧
    (∀ out, submit2 env recordings batches2 = .ok out →
      List.Forall₂ (fun b b' => Inserted recordings b.commands b'.commands ∧
        b'.infos = b.infos.flatMap fun info => (preceding recordings info.command).map
          (fun c => { command := c, mask := info.mask, next := 0 }) ++ [info]) batches2 out) ∧
    (batches.map Batch.commands = batches2.map Batch2.commands →
      ∀ out out2, submit env recordings batches = .ok out → submit2 env recordings batches2 = .ok
        out2 → out.map Batch.commands = out2.map Batch2.commands) ∧
    submit env recordings batches ≠ .error .overrun ∧ submit2 env recordings batches2 ≠ .error .overrun ∧
    (env.Ample → (∀ b ∈ batches, Fits recordings b.commands ∧ ∀ data, .unsized data ∉ b.chain) →
      ∃ out, submit env recordings batches = .ok out) ∧
    (env.Ample → (∀ b ∈ batches2, Fits recordings b.commands) →
      ∃ out, submit2 env recordings batches2 = .ok out) := by
  have hsubmit := submit_spec env hcurrent hapart
  have hsubmit2 := submit2_spec env hcurrent2 hapart2
  refine ⟨hsubmit.post, hsubmit2.post, fun hsame out out2 hout hout2 => ?_, hsubmit.inBounds,
    hsubmit2.inBounds, fun hample hfits => hsubmit.returns ⟨hample, hfits⟩,
    fun hample hfits => hsubmit2.returns ⟨hample, hfits⟩⟩
  have hmap := congrArg (List.map (expanded recordings)) hsame
  have hseq := (hsubmit.post out hout).imp fun _ _ h => h.1.sequence.symm
  have hseq2 := (hsubmit2.post out2 hout2).imp fun _ _ h => h.1.sequence.symm
  rw [← forall₂_map_right_iff, ← forall₂_map_left_iff, forall₂_eq_eq_eq] at hseq hseq2
  rw [map_map, map_map] at hmap
  exact hseq.symm.trans (hmap.trans hseq2)

/-- Command buffer 1 has prepass 11 and executed secondary 2 twice, which has prepass 12. -/
def sampleRecordings : Recordings
  | 1 => some { Recording.fresh 5 false with
      pre := some ⟨11, false, true⟩, links := [.child 2 4, .written 30, .child 2 4] }
  | 2 => some { Recording.fresh 4 false with pre := some ⟨12, false, true⟩ }
  | _ => none

def sampleBatch : Batch := ⟨[1, 3, 1], [7], [.deviceGroup [1, 2, 4] 0], 0⟩

def expandedBatch : Batch :=
  ⟨[11, 12, 1, 3, 11, 12, 1], [allCommands], [.deviceGroup [1, 1, 1, 2, 4, 4, 4] 0], 0⟩

theorem submissions_expanded_sample :
    sampleBatch.Valid ∧ submit ⟨true, fun _ => false⟩ sampleRecordings [sampleBatch] = .ok [expandedBatch] ∧
    List.Forall₂ (fun b b' => Inserted sampleRecordings b.commands b'.commands ∧
        (b.Valid → b'.chain = b.chain.map (Node.regroup (spread sampleRecordings b.commands))))
      [sampleBatch] [expandedBatch] := by
  have hrun : submit ⟨true, fun _ => false⟩ sampleRecordings [sampleBatch] = .ok [expandedBatch] := rfl
  refine ⟨⟨by decide, fun masks data hmem => ?_⟩, hrun, (submissions_expanded ⟨true, fun _ => false⟩
    sampleRecordings [sampleBatch] [] ?_ ?_ ?_ ?_).1 _ hrun⟩
  · cases mem_singleton.mp hmem
    rfl
  · decide
  · exact fun b hb => absurd hb not_mem_nil
  · unfold Apart
    decide
  · exact fun b hb => absurd hb not_mem_nil

end Polygon
