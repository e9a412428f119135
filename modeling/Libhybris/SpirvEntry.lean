import Libhybris.Saturate
import Libhybris.SpirvDecorations

/-!
# Extracting one entry point

`compat/spirv_entry.c`: the functions the selected entry calls, what these name, and every
declaration but the variables nothing names. Ids are marked live in passes over the instructions
until nothing changes; then the instructions are copied whose ids are live. The tables generated
from the grammar are a parameter.
-/
namespace SpirvEntry

open Spirv Vulkan Saturate List

/-! ## The tables -/

/-- `struct literal_position`. -/
structure Literal where
  opcode : UInt16
  tail : UInt16
  mask : UInt32

/-- `result_positions`, zero for unknown opcodes and else one more than the word of the result id,
and `literals`. -/
structure Tables where
  results : UInt16 → Nat
  literals : List Literal

def Literal.marks (l : Literal) (k : Nat) : Bool :=
  (l.tail ≠ 0 && l.tail.toNat ≤ k) || (k < 32 && l.mask.toNat.testBit k)

/-- The loop of the binary search; a table of `fuel` entries is halved no more often. -/
def search (literals : List Literal) (opcode : UInt16) : Nat → Nat → Nat → Nat
  | 0, low, _ => low
  | fuel + 1, low, high =>
    if low < high then
      let mid := low + (high - low) / 2
      if (literals[mid]?).any (fun l => l.opcode < opcode) then search literals opcode fuel (mid + 1) high
      else search literals opcode fuel low mid
    else low

/-- `hybris_spirv_literal_word`. -/
def Tables.literalWord (t : Tables) (opcode : UInt16) (k : Nat) : Bool :=
  match t.literals[search t.literals opcode t.literals.length 0 t.literals.length]? with
  | none => false
  | some l => l.opcode = opcode && l.marks k

/-- The id an instruction defines. -/
def Tables.defines (t : Tables) (i : Instruction) : Option Word :=
  if t.results i.opcode - 1 ≠ 0 ∧
    t.results i.opcode - 1 < i.count then some (i.word (t.results i.opcode - 1))
  else none

/-! ## Instructions in their functions -/

/-- An instruction, where it starts, and the function it is in, zero outside of functions. -/
structure Item where
  function : Word
  offset : Nat
  instr : Instruction
deriving DecidableEq

/-- The variable `function` of the loops at an instruction and after it. -/
def functionAt (function : Word) (i : Instruction) : Word := if i.opcode = 54 then i.word 2 else function

def functionAfter (function : Word) (i : Instruction) : Word :=
  if i.opcode = 56 then 0 else functionAt function i

def placed : Word → List (Nat × Instruction) → List Item
  | _, [] => []
  | function, (offset, i) :: rest =>
    ⟨functionAt function i, offset, i⟩ :: placed (functionAfter function i) rest

def items (m : Module) : List Item := placed 0 (locate 5 m.instructions)

/-! ## The ids -/

/-- `struct definition`, an array for each member. -/
structure Ids where
  owner : Word → Word
  opcode : Word → UInt16
  live : Word → Bool

def Ids.none : Ids := ⟨fun _ => 0, fun _ => 0, fun _ => false⟩

/-- The variables of the first loop; no entry is `selected_entry` zero. -/
structure Scan where
  ids : Ids
  selected : Word
  entry : Option Item

def bytes (words : List Word) : List UInt8 :=
  words.flatMap fun (w : Word) => [w.toUInt8, (w >>> 8).toUInt8, (w >>> 16).toUInt8, (w >>> 24).toUInt8]

/-- The name of an entry point, up to its NUL. -/
def nameOf (i : Instruction) : List UInt8 := (bytes (i.words.drop 3)).takeWhile (· ≠ 0)

/-- The words behind the name. -/
def interfaceStart (i : Instruction) : Nat := 3 + ((nameOf i).length + 4) / 4

def interfaces (i : Instruction) : List Word := i.words.drop (interfaceStart i)

def Ids.define (ids : Ids) (x : Item) (id : Word) : Ids where
  owner := Function.update ids.owner id x.function
  opcode := Function.update ids.opcode id x.instr.opcode
  live := Function.update ids.live id (x.function = 0 && x.instr.opcode ≠ 59)

section Extract

variable (t : Tables) (bound model : Word) (entry : List UInt8)

/-- The definition an instruction makes. -/
def scanResult (ids : Ids) (x : Item) : Option Ids :=
  let position := t.results x.instr.opcode - 1
  if position = 0 then some ids
  else if x.instr.count ≤ position ∨ x.instr.word position = 0 ∨ bound ≤ x.instr.word position then none
  else some (ids.define x (x.instr.word position))

/-- The entry point an instruction selects. -/
def scanEntry (s : Scan) (x : Item) : Option Scan :=
  if x.instr.opcode ≠ 15 then some s
  else if x.instr.count < 4 ∨ bound ≤ x.instr.word 2 then none
  else if 0 ∉ bytes (x.instr.words.drop 3) then none
  else if x.instr.word 1 = model ∧ nameOf x.instr = entry then
    if s.entry.isSome then none else some { s with selected := x.instr.word 2, entry := some x }
  else some s

/-- One turn of the first loop. -/
def scanItem (s : Scan) (x : Item) : Option Scan :=
  if t.results x.instr.opcode = 0 then none
  else if x.instr.opcode = 5600 ∨ x.instr.opcode = 5601 then none
  else if x.instr.opcode = 54 ∧ (x.instr.count < 5 ∨ bound ≤ x.instr.word 2) then none
  else (scanResult t bound s.ids x).bind fun ids => scanEntry bound model entry { s with ids } x

def scan : List Item → Scan → Option Scan
  | [], s => some s
  | x :: xs, s => (scanItem t bound model entry s x).bind (scan xs)

/-- Calls in live functions. -/
def callTargets (opcode : Word → UInt16) (x : Item) (live : Word → Bool) : Option (List Word) :=
  if x.function ≠ 0 ∧ live x.function = true ∧ x.instr.opcode = 57 then
    if x.instr.count < 4 ∨ bound ≤ x.instr.word 3 ∨ opcode (x.instr.word 3) ≠ 54 then none
    else some [x.instr.word 3]
  else some []

/-- What is defined in a function is as live as the function. -/
def ownersLive (owner : Word → Word) (live : Word → Bool) : Word → Bool :=
  (List.range' 1 (bound.toNat - 1)).foldl (fun live n =>
    let id := UInt32.ofNat n
    if owner id ≠ 0 then Function.update live id (live (owner id)) else live) live

/-- The interfaces of the selected entry. -/
def interfacesLive (e : Instruction) (live : Word → Bool) : Option (Word → Bool) :=
  if (interfaces e).any (bound ≤ ·) then none
  else some ((interfaces e).foldl (fun live id => Function.update live id true) live)

/-- The words of an instruction from `first` on that may be ids. -/
def named (i : Instruction) (first : Nat) : List Word :=
  ((List.range' first (i.count - first)).filter fun k => !t.literalWord i.opcode k).map i.word

/-- Ids of variables outside of functions. -/
def isGlobal (ids : Ids) (id : Word) : Bool := id < bound && ids.opcode id = 59 && ids.owner id = 0

def bodyTargets (ids : Ids) (x : Item) (live : Word → Bool) : Option (List Word) :=
  some (if x.function ≠ 0 ∧
    live x.function = true then (named t x.instr 1).filter (isGlobal bound ids) else [])

/-- The first word that keeps a variable alive, in an instruction outside of functions. -/
def firstNamed (i : Instruction) (live : Word → Bool) : Nat :=
  if i.opcode = 59 ∧ 4 < i.count ∧ live (i.word 2) = true then 4
  else if i.opcode = 332 ∧ 3 < i.count ∧ i.word 1 < bound ∧ live (i.word 1) = true then 3
  else if i.opcode = 71 ∧ 3 < i.count ∧ i.word 1 < bound ∧ live (i.word 1) = true ∧ i.word 2 = 5634 then 3
  else if i.opcode = 52 ∨ i.opcode = 12 then 3
  else i.count

def globalTargets (ids : Ids) (x : Item) (live : Word → Bool) : Option (List Word) :=
  some (if x.function = 0 then (named t x.instr (firstNamed bound x.instr live)).filter
    (isGlobal bound ids) else [])

/-- The passes that mark ids. -/
def marking (s : Scan) (e : Item) (xs : List Item) : Option (Word → Bool) := do
  let fuel := bound.toNat + 1
  let called ← saturate (callTargets bound s.ids.opcode) xs fuel
    (Function.update s.ids.live s.selected true)
  let owned := ownersLive bound s.ids.owner called
  let listed ← interfacesLive bound e.instr owned
  let (used, _) ← pass (bodyTargets t bound s.ids) xs (listed, false)
  saturate (globalTargets t bound s.ids) xs fuel used

/-- The ids below the bound. -/
def below (bound : Word) : List Word := (List.range bound.toNat).map UInt32.ofNat

theorem mem_below {bound id : Word} (h : id < bound) : id ∈ below bound :=
  mem_map.mpr ⟨id.toNat, mem_range.mpr (UInt32.lt_iff_toNat_lt.mp h), UInt32.ofNat_toNat⟩

/-- A loop of `marking` whose items mark only ids below the bound ends, unless an item refuses. -/
theorem saturate_below {targets : Item → (Word → Bool) → Option (List Word)} {xs : List Item}
    (h : ∀ x ∈ xs, ∀ live ids, targets x live = some ids → ∀ id ∈ ids, id < bound) {live : Word → Bool}
    (hnone : saturate targets xs (bound.toNat + 1) live = none) :
    ∃ x ∈ xs, ∃ live, targets x live = none := by
  have hkeys : ∀ x ∈ xs, ∀ live ids, targets x live = some ids → ids ⊆ below bound :=
    fun x hx live ids hids id hid => mem_below (h x hx live ids hids id hid)
  have hfew : unmarked (below bound) live ≤ bound.toNat := by
    refine countP_le_length.trans ?_
    rw [below, length_map, length_range]
  exact saturate_eq_none hkeys (by omega) hnone

/-- Both loops of `marking` end in every module; the first is refused only for a malformed call. -/
theorem marking_ends (ids : Ids) (xs : List Item) (live : Word → Bool) :
    ((saturate (callTargets bound ids.opcode) xs (bound.toNat + 1) live).isSome ∨
        ∃ x ∈ xs, ∃ live, callTargets bound ids.opcode x live = none) ∧
      (saturate (globalTargets t bound ids) xs (bound.toNat + 1) live).isSome := by
  constructor
  · rw [or_iff_not_imp_left, Option.not_isSome_iff_eq_none]
    refine saturate_below bound fun x _ live marked hmarked id hid => ?_
    rw [callTargets] at hmarked
    split at hmarked
    · simp only [Option.ite_none_left_eq_some, Option.some.injEq, not_or, UInt32.not_le] at hmarked
      obtain ⟨⟨-, hlt, -⟩, rfl⟩ := hmarked
      cases mem_singleton.mp hid
      exact hlt
    · cases hmarked
      cases hid
  · have hbelow x (_ : x ∈ xs) live marked (h : globalTargets t bound ids x live = some marked) id
        (hid : id ∈ marked) : id < bound := by
      cases h
      split at hid
      · have hglobal := (mem_filter.mp hid).2
        simp only [isGlobal, Bool.and_eq_true, decide_eq_true_eq] at hglobal
        exact hglobal.1.1
      · cases hid
    by_contra hnone
    obtain ⟨x, -, live, hrefused⟩ := saturate_below bound hbelow (Option.not_isSome_iff_eq_none.mp hnone)
    cases hrefused

/-- `OpName`, `OpMemberName` and the decorations. -/
def annotates (i : Instruction) : Bool :=
  i.opcode = 5 || i.opcode = 6 || i.opcode = 71 || i.opcode = 72 || i.opcode = 332 || i.opcode =
    5632 || i.opcode = 5633

/-- `OpExecutionMode` and `OpExecutionModeId`. -/
def isMode (i : Instruction) : Bool := i.opcode = 16 || i.opcode = 331

/-- Groups of decorations and extended instructions. -/
def isChecked (i : Instruction) : Bool := i.opcode = 74 || i.opcode = 75 || i.opcode = 12

/-- Whether an instruction is copied; none is a refusal. -/
def keep (opcode : Word → UInt16) (live : Word → Bool) (e : Item) (x : Item) : Option Bool :=
  if x.function ≠ 0 then some (live x.function)
  else if x.instr.opcode = 15 then some (x.offset = e.offset)
  else if isMode x.instr then
    if x.instr.count < 3 then none else some (x.instr.word 1 = e.instr.word 2)
  else if x.instr.opcode = 59 then some (live (x.instr.word 2))
  else if annotates x.instr then
    if x.instr.count < 2 ∨ bound ≤ x.instr.word 1 then none else some (live (x.instr.word 1))
  else if isChecked x.instr then
    if (named t x.instr 1).any (fun id => id < bound && opcode id ≠ 0 && !live id) then none else some true
  else some true

/-- The last loop. -/
def slice (opcode : Word → UInt16) (live : Word → Bool) (e : Item) : List Item → Option (List Instruction)
  | [] => some []
  | x :: xs => do
    let kept ← keep t bound opcode live e x
    let rest ← slice opcode live e xs
    return if kept then x.instr :: rest else rest

end Extract

/-- `extract_entry`; `host` tells which allocations succeed. An id takes 12 bytes. -/
def extractEntry (t : Tables) (b : Binary) (model : Word) (entry : List UInt8) (host : Nat → Bool) :
    Except VkResult (List Word) :=
  if b.headed = false then .error .errorUnknown
  else if SpirvDecorations.sizeMax / (b.code.getD 3 0).toNat < 12 ∨
    host 0 = false then .error .errorOutOfHostMemory
  else
    match b.module? with
    | none => .error .errorUnknown
    | some m =>
      match scan t m.bound model entry (items m) ⟨.none, 0, none⟩ with
      | none => .error .errorUnknown
      | some s =>
        match s.entry with
        | none => .error .errorUnknown
        | some e =>
          if s.selected = 0 ∨ s.ids.opcode s.selected ≠ 54 then .error .errorUnknown
          else
            match marking t m.bound s e (items m) with
            | none => .error .errorUnknown
            | some live =>
              if host 1 = false then .error .errorOutOfHostMemory
              else
                match slice t m.bound s.ids.opcode live e (items m) with
                | none => .error .errorUnknown
                | some is => .ok ({ m with instructions := is } : Module).code

/-- `hybris_spirv_entry`. -/
def hybrisSpirvEntry (t : Tables) (b : Binary) (model : Word) (entry : List UInt8)
    (decorating extracting : Nat → Bool) : Except VkResult (List Word) :=
  match SpirvDecorations.decorations b decorating with
  | .error e => .error e
  | .ok none => extractEntry t b model entry extracting
  | .ok (some code) => extractEntry t (.ofWords code) model entry extracting

end SpirvEntry
