import Libhybris.Spirv
import Libhybris.Vulkan

/-!
# Relocating dual-source outputs

`hybris_dual_source_spirv` of `compat/dual_source.c`: outputs with Index 1 are given a Location of
their own. The module is changed in place while the loop goes over it, so that each search reads the
locations the searches before it gave out.
-/
namespace DualSource

open Spirv Vulkan List Option

def errorFeatureNotPresent : VkResult := .other (-8)

/-! ## The function -/

/-- A decoration of a variable with a literal: 30 is Location and 32 is Index. -/
def decorates (kind : Word) (i : Instruction) : Bool := i.opcode = 71 && 4 ≤ i.count && i.word 2 = kind

/-- A nonzero Index. -/
def isIndexed (i : Instruction) : Bool := decorates 32 i && i.word 3 ≠ 0

/-- A nonzero Index of a member. -/
def isMemberIndexed (i : Instruction) : Bool :=
  i.opcode = 72 && 5 ≤ i.count && i.word 3 = 32 && i.word 4 ≠ 0

/-- The instructions `hybris_dual_source_outputs` goes over; none is its answer of -1. -/
def framed (b : Binary) : Option (List Instruction) :=
  if b.size % 4 ≠ 0 ∨ b.size < 20 ∨ b.code.getD 0 0 ≠ magic then none
  else (parse (b.code.drop 5)).filter fun is => is.all fun i => !isMemberIndexed i

/-- An output variable. -/
def isOutput (id : Word) (i : Instruction) : Bool :=
  i.opcode = 59 && 4 ≤ i.count && i.word 2 = id && i.word 3 = 3

section
variable (is : List Instruction)

/-- `output_type`. -/
def outputType (id : Word) : Word := ((is.find? (isOutput id)).map fun i => i.word 1).getD 0

/-- `simple_output`. -/
def simpleOutput (pointer : Word) : Bool :=
  let pointee := ((is.filter fun i => i.opcode = 32 && 4 ≤ i.count && i.word 1 = pointer).getLast?.map
    fun i => i.word 3).getD 0
  let vector := is.find? fun i => i.opcode = 23 && i.count = 4 && i.word 1 = pointee
  let scalar (type : Word) :=
    ((is.find? fun i => (i.opcode = 21 || i.opcode = 22) && 3 ≤ i.count && i.word 1 = type).map
    fun i => decide (i.word 2 = 32)).getD false
  match vector with
  | none => scalar pointee
  | some i => if 4 < i.word 3 then false else scalar (i.word 2)

/-- Grouped decorations, located members and located outputs that are no scalars or vectors. -/
def isRefused (i : Instruction) : Bool :=
  i.opcode = 74 || i.opcode = 75 || (i.opcode = 72 && 5 ≤ i.count && i.word 3 = 30) ||
    (decorates 30 i && outputType is (i.word 1) ≠ 0 && !simpleOutput is (outputType is (i.word 1)))

def isOccupied (location : Word) : Bool :=
  is.any fun i => decorates 30 i && i.word 3 = location && outputType is (i.word 1) ≠ 0

end

/-- The first location that may be given out. -/
def firstLocation (attachments : Word) : Word := if attachments = 0 then 1 else attachments

/-- The search for a location. -/
def freeLocation (is : List Instruction) (attachments limit : Word) : Option Word :=
  ((List.range' (firstLocation attachments).toNat (limit.toNat - (firstLocation attachments).toNat)).map
    UInt32.ofNat).find? fun location => !isOccupied is location

/-- Where the last Location of a variable is. -/
def locationIndex (is : List Instruction) (id : Word) : Option Nat :=
  (List.range is.length).reverse.find? fun p => (is[p]?).any fun i => decorates 30 i && i.word 1 = id

/-- The literal of a decoration is overwritten. -/
def overwrite (is : List Instruction) (p : Nat) (w : Word) : List Instruction :=
  is.modify p fun i => i.setWord 3 w

/-- One turn of the last loop; none is a failure. -/
def turn (attachments limit : Word) (is : List Instruction) (k : Nat) : Option (List Instruction) :=
  match (is[k]?).filter isIndexed with
  | none => some is
  | some i =>
    if i.word 3 ≠ 1 ∨ outputType is (i.word 1) = 0 then none
    else
      match freeLocation is attachments limit, locationIndex is (i.word 1) with
      | some location, some p => some (overwrite (overwrite is p location) k 0)
      | _, _ => none

/-- The last loop, with what a failure leaves. -/
def relocate (attachments limit : Word) : List Nat → List Instruction → Bool × List Instruction
  | [], is => (true, is)
  | k :: ks, is =>
    match turn attachments limit is k with
    | none => (false, is)
    | some next => relocate attachments limit ks next

/-- `hybris_dual_source_spirv`: the result and the words. -/
def spirv (b : Binary) (attachments limit : Word) : VkResult × List Word :=
  match framed b with
  | none => (errorFeatureNotPresent, b.code)
  | some is =>
    if is.any isIndexed = false then (.success, b.code)
    else if is.any (isRefused is) then (errorFeatureNotPresent, b.code)
    else
      let relocated := relocate attachments limit (List.range is.length) is
      (if relocated.1 then .success else errorFeatureNotPresent, b.code.take 5 ++ encode relocated.2)

/-! ## What is said of a module -/

def IsOutput (is : List Instruction) (v : Word) : Prop := ∃ i ∈ is, isOutput v i = true

/-- A variable has a Location. -/
def Located (is : List Instruction) (v location : Word) : Prop :=
  ∃ i ∈ is, decorates 30 i = true ∧ i.word 1 = v ∧ i.word 3 = location

/-- An output that has to be moved. -/
def Indexed (is : List Instruction) (v : Word) : Prop := ∃ i ∈ is, isIndexed i = true ∧ i.word 1 = v

/-- Outputs carry at most one decoration of a kind. -/
def AtMostOne (kind : Word) (is : List Instruction) : Prop :=
  is.Pairwise fun i j => decorates kind i = true → decorates kind j = true →
    IsOutput is (i.word 1) → i.word 1 ≠ j.word 1

/-- Every output variable has a type. -/
def Typed (is : List Instruction) : Prop := ∀ v, ∀ i ∈ is, isOutput v i = true → i.word 1 ≠ 0

/-- What may become of an instruction: the literals of Index and Location of an indexed output
change. -/
def Moved (is : List Instruction) (i j : Instruction) : Prop :=
  j = i ∨ (decorates 30 i = true ∨ decorates 32 i = true) ∧ Indexed is (i.word 1) ∧ ∃ w, j = i.setWord 3 w

section Decorations

variable {i : Instruction} {kind : Word}

theorem decorates_iff : decorates kind i = true ↔ i.opcode = 71 ∧ 4 ≤ i.count ∧ i.word 2 = kind := by
  simp [decorates, and_assoc]

theorem word_setWord_three (i : Instruction) (w : Word) {l : Nat} (hl : 0 < l) (hne : l ≠ 3) :
    (i.setWord 3 w).word l = i.word l :=
  Instruction.word_setWord_ne (by decide) hl hne w

@[simp] theorem decorates_setWord (i : Instruction) (w : Word) :
    decorates kind (i.setWord 3 w) = decorates kind i := by
  rw [decorates, decorates, word_setWord_three i w (by decide) (by decide), i.setWord_opcode,
    i.setWord_count]

theorem setWord_literal (h : decorates kind i = true) (w : Word) : (i.setWord 3 w).word 3 = w :=
  Instruction.word_setWord_self (by decide) (decorates_iff.mp h).2.1 w

theorem isIndexed_iff : isIndexed i = true ↔ decorates 32 i = true ∧ i.word 3 ≠ 0 := by
  simp [isIndexed]

theorem not_isOutput (h : decorates kind i = true) (v : Word) : isOutput v i = false := by
  simp [isOutput, (decorates_iff.mp h).1]

end Decorations

section Moved

variable {is : List Instruction} {i j : Instruction}

theorem Moved.decorates (h : Moved is i j) (kind : Word) : decorates kind j = decorates kind i := by
  rcases h with rfl | ⟨-, -, w, rfl⟩
  · rfl
  · exact decorates_setWord i w

theorem Moved.variable_eq (h : Moved is i j) : j.word 1 = i.word 1 := by
  rcases h with rfl | ⟨-, -, w, rfl⟩
  · rfl
  · exact word_setWord_three i w (by decide) (by decide)

theorem Moved.isOutput (h : Moved is i j) (v : Word) : isOutput v j = isOutput v i := by
  rcases h with rfl | ⟨hkind | hkind, -, w, rfl⟩
  · rfl
  · rw [not_isOutput hkind, not_isOutput ((decorates_setWord i w).trans hkind)]
  · rw [not_isOutput hkind, not_isOutput ((decorates_setWord i w).trans hkind)]

theorem Moved.trans_setWord (h : Moved is i j) (hkind : DualSource.decorates 30 i = true ∨
    DualSource.decorates 32 i = true) (hindexed : Indexed is (i.word 1)) (w : Word) :
      Moved is i (j.setWord 3 w) := by
  rcases h with rfl | ⟨-, -, w', rfl⟩
  · exact .inr ⟨hkind, hindexed, w, rfl⟩
  · refine .inr ⟨hkind, hindexed, w, ?_⟩
    ext1
    · rfl
    · exact set_set ..

end Moved

/-! ## The module while the loop goes over it -/

/-- The instructions are where they were. -/
def Aligned (is js : List Instruction) : Prop :=
  js.length = is.length ∧ ∀ (p : Nat) i, is[p]? = some i → ∃ j, js[p]? = some j ∧ Moved is i j

variable {j : Instruction}

variable {p : Nat}

section Aligned

variable {is js : List Instruction}

theorem Aligned.refl (is : List Instruction) : Aligned is is := ⟨rfl, fun _ i hi => ⟨i, hi, .inl rfl⟩⟩

section
variable (h : Aligned is js)
include h

theorem Aligned.source (hj : js[p]? = some j) : ∃ i, is[p]? = some i ∧ Moved is i j := by
  have hlt : p < is.length := h.1 ▸ (List.getElem?_eq_some_iff.mp hj).1
  obtain ⟨j', hj', hmoved⟩ := h.2 p is[p] (getElem?_eq_getElem hlt)
  rw [hj] at hj'
  cases hj'
  exact ⟨_, getElem?_eq_getElem hlt, hmoved⟩

theorem Aligned.output_iff (v : Word) : IsOutput js v ↔ IsOutput is v := by
  constructor
  · rintro ⟨j, hj, hout⟩
    obtain ⟨p, hp⟩ := mem_iff_getElem?.mp hj
    obtain ⟨i, hi, hmoved⟩ := h.source hp
    exact ⟨i, mem_of_getElem? hi, (hmoved.isOutput v).symm.trans hout⟩
  · rintro ⟨i, hi, hout⟩
    obtain ⟨p, hp⟩ := mem_iff_getElem?.mp hi
    obtain ⟨j, hj, hmoved⟩ := h.2 p i hp
    exact ⟨j, mem_of_getElem? hj, (hmoved.isOutput v).trans hout⟩

/-- The instructions that are no decorations are the same ones, so that the types are. -/
theorem Aligned.outputType (htyped : Typed is) (v : Word) :
    outputType js v ≠ 0 ↔ IsOutput is v := by
  constructor
  · intro hne
    cases hfind : js.find? (isOutput v) with
    | none => simp [DualSource.outputType, hfind] at hne
    | some j => exact (h.output_iff v).mp ⟨j, mem_of_find?_eq_some hfind, find?_some hfind⟩
  · intro hout
    cases hfind : js.find? (isOutput v) with
    | none =>
      obtain ⟨j, hj, hout⟩ := (h.output_iff v).mpr hout
      exact absurd hout (by simpa using find?_eq_none.mp hfind j hj)
    | some j =>
      obtain ⟨p, hp⟩ := mem_iff_getElem?.mp (mem_of_find?_eq_some hfind)
      obtain ⟨i, hi, hmoved⟩ := h.source hp
      have houtput : isOutput v i = true := (hmoved.isOutput v).symm.trans (find?_some hfind)
      rw [DualSource.outputType, hfind, map_some, getD_some, hmoved.variable_eq]
      exact htyped v i (mem_of_getElem? hi) houtput

/-- A decoration of an output has its own place. -/
theorem Aligned.same_place {kind : Word} (hone : AtMostOne kind is) {q : Nat}
    {i : Instruction} (hp : js[p]? = some i) (hq : js[q]? = some j) (hi : decorates kind i = true)
    (hj : decorates kind j = true) (hout : IsOutput is (i.word 1)) (heq : j.word 1 = i.word 1) : p = q := by
  obtain ⟨i', hi', hmoved⟩ := h.source hp
  obtain ⟨j', hj', hmoved'⟩ := h.source hq
  rw [hmoved.variable_eq] at hout heq
  rw [hmoved'.variable_eq] at heq
  rw [hmoved.decorates] at hi
  rw [hmoved'.decorates] at hj
  obtain ⟨hplt, rfl⟩ := List.getElem?_eq_some_iff.mp hi'
  obtain ⟨hqlt, rfl⟩ := List.getElem?_eq_some_iff.mp hj'
  have hpairs := pairwise_iff_getElem.mp hone
  rcases Nat.lt_trichotomy p q with hlt | heq' | hlt
  · exact absurd heq.symm (hpairs p q hplt hqlt hlt hi hj hout)
  · exact heq'
  · exact absurd heq (hpairs q p hqlt hplt hlt hj hi (by rwa [heq]))

end

theorem getElem?_overwrite_self (hp : js[p]? = some j) (w : Word) :
    (overwrite js p w)[p]? = some (j.setWord 3 w) := by
  simp [overwrite, hp]

theorem getElem?_overwrite_ne {q : Nat} (hne : p ≠ q) (w : Word) : (overwrite js p w)[q]? = js[q]? := by
  simp [overwrite, hne]

/-- Overwriting the literal of an indexed output's decoration. -/
theorem Aligned.overwrite (h : Aligned is js) (hp : js[p]? = some j)
    (hkind : decorates 30 j = true ∨ decorates 32 j = true) (hindexed : Indexed is (j.word 1)) (w : Word) :
    Aligned is (overwrite js p w) := by
  refine ⟨(length_modify ..).trans h.1, fun q i hi => ?_⟩
  obtain ⟨j', hj', hmoved⟩ := h.2 q i hi
  by_cases hpq : p = q
  · subst hpq
    rw [hp] at hj'
    cases hj'
    rw [hmoved.decorates, hmoved.decorates] at hkind
    rw [hmoved.variable_eq] at hindexed
    exact ⟨_, getElem?_overwrite_self hp w, hmoved.trans_setWord hkind hindexed w⟩
  · exact ⟨j', (getElem?_overwrite_ne hpq w).trans hj', hmoved⟩

end Aligned

/-- After the first turns: indices before are zero, those ahead are as they were, and the outputs
that were moved have locations nobody else has. -/
structure Inv (attachments limit : Word) (is js : List Instruction) (k : Nat) : Prop where
  aligned : Aligned is js
  passed : ∀ (p : Nat) j, p < k → js[p]? = some j → isIndexed j = false
  ahead : ∀ (p : Nat) i, k ≤ p → is[p]? = some i → decorates 32 i = true → js[p]? = some i
  placed : ∀ (p : Nat) i, p < k → is[p]? = some i → isIndexed i = true → ∃ location,
    firstLocation attachments ≤ location ∧ location < limit ∧ IsOutput is (i.word 1) ∧
      Located js (i.word 1) location ∧ ∀ w, w ≠ i.word 1 → IsOutput is w → ¬ Located js w location

section Loop

variable {attachments limit : Word} {is js : List Instruction} {k : Nat}

theorem freeLocation_eq_some {location : Word} (h : freeLocation js attachments limit = some location) :
    firstLocation attachments ≤ location ∧ location < limit ∧ isOccupied js location = false := by
  obtain ⟨n, hn, rfl⟩ := mem_map.mp (mem_of_find?_eq_some h)
  have hfree : isOccupied js (UInt32.ofNat n) = false := by simpa using find?_some h
  have hrange := mem_range'_1.mp hn
  have hlimit := limit.toNat_lt
  have hnat : (UInt32.ofNat n).toNat = n := by
    rw [UInt32.toNat_ofNat', Nat.mod_eq_of_lt (by omega)]
  refine ⟨UInt32.le_iff_toNat_le.mpr ?_, UInt32.lt_iff_toNat_lt.mpr ?_, hfree⟩
  · omega
  · omega

theorem locationIndex_eq_some {id : Word} (h : locationIndex js id = some p) :
    ∃ j, js[p]? = some j ∧ decorates 30 j = true ∧ j.word 1 = id := by
  have hfound := find?_some h
  cases hj : js[p]? with
  | none => simp [hj] at hfound
  | some j => exact ⟨j, rfl, by simpa [hj] using hfound⟩

/-- What a turn does. -/
theorem turn_cases {next : List Instruction} (h : turn attachments limit js k = some next) :
    ((∀ j, js[k]? = some j → isIndexed j = false) ∧ next = js) ∨
      ∃ j location p, js[k]? = some j ∧ isIndexed j = true ∧ j.word 3 = 1 ∧ outputType js (j.word 1) ≠ 0 ∧
        freeLocation js attachments limit = some location ∧ locationIndex js (j.word 1) = some p ∧
        next = overwrite (overwrite js p location) k 0 := by
  unfold turn at h
  split at h
  next hnone =>
    refine .inl ⟨fun j hj => ?_, (Option.some.inj h).symm⟩
    rw [hj, filter_eq_none_iff] at hnone
    simpa using hnone j rfl
  next j hsome =>
    obtain ⟨hj, hindexed⟩ := filter_eq_some_iff.mp hsome
    obtain ⟨hone, h⟩ := ite_none_left_eq_some.mp h
    split at h
    next location p hlocation hp =>
      obtain ⟨hone, hout⟩ := not_or.mp hone
      exact .inr ⟨j, location, p, hj, hindexed, not_not.mp hone, hout, hlocation, hp,
        (Option.some.inj h).symm⟩
    next => cases h

/-- A decoration has one kind. -/
theorem not_both {i : Instruction} (h30 : decorates 30 i = true) (h32 : decorates 32 i = true) : False :=
  absurd ((decorates_iff.mp h30).2.2.symm.trans (decorates_iff.mp h32).2.2) (by decide)

theorem place_ne {jp jk : Instruction} (hp : js[p]? = some jp) (hdp : decorates 30 jp = true)
    (hk : js[k]? = some jk) (hdk : decorates 32 jk = true) : p ≠ k := by
  rintro rfl
  rw [hp] at hk
  cases hk
  exact not_both hdp hdk

/-- The locations after an output was moved. -/
theorem located_overwrite {location v w l : Word} {jp jk : Instruction} (hp : js[p]? = some jp)
    (hdp : decorates 30 jp = true) (hvp : jp.word 1 = v) (hk : js[k]? = some jk)
    (hdk : decorates 32 jk = true) (hw : w ≠ v) :
    Located (overwrite (overwrite js p location) k 0) w l ↔ Located js w l := by
  have hpk : p ≠ k := place_ne hp hdp hk hdk
  have hother : ∀ q, q ≠ p → q ≠ k → (overwrite (overwrite js p location) k 0)[q]? = js[q]? := by
    intro q hqp hqk
    rw [getElem?_overwrite_ne hqk.symm, getElem?_overwrite_ne hqp.symm]
  constructor
  · rintro ⟨j, hj, hd, hv, hl⟩
    obtain ⟨q, hq⟩ := mem_iff_getElem?.mp hj
    by_cases hqk : q = k
    · rw [hqk, getElem?_overwrite_self ((getElem?_overwrite_ne hpk location).trans hk)] at hq
      cases hq
      rw [decorates_setWord] at hd
      exact (not_both hd hdk).elim
    by_cases hqp : q = p
    · rw [hqp, getElem?_overwrite_ne hpk.symm, getElem?_overwrite_self hp] at hq
      cases hq
      rw [word_setWord_three jp location (by decide) (by decide), hvp] at hv
      exact absurd hv.symm hw
    rw [hother q hqp hqk] at hq
    exact ⟨j, mem_of_getElem? hq, hd, hv, hl⟩
  · rintro ⟨j, hj, hd, hv, hl⟩
    obtain ⟨q, hq⟩ := mem_iff_getElem?.mp hj
    have hqk : q ≠ k := place_ne hq hd hk hdk
    have hqp : q ≠ p := by
      rintro rfl
      rw [hp] at hq
      cases hq
      exact hw (hv.symm.trans hvp)
    exact ⟨j, mem_of_getElem? ((hother q hqp hqk).trans hq), hd, hv, hl⟩

theorem isOccupied_of_located {w l : Word} (h : Located js w l) (hout : outputType js w ≠ 0) :
    isOccupied js l = true := by
  obtain ⟨j, hj, hd, rfl, hl⟩ := h
  refine any_eq_true.mpr ⟨j, hj, ?_⟩
  simp [hd, hl, hout]

variable (hlocations : AtMostOne 30 is) (hindices : AtMostOne 32 is) (htyped : Typed is)

include hlocations hindices htyped in
theorem Inv.turn {next : List Instruction} (hinv : Inv attachments limit is js k)
    (h : turn attachments limit js k = some next) : Inv attachments limit is next (k + 1) := by
  obtain ⟨hplain, rfl⟩ | ⟨j, location, p, hj, hindexed, -, hout, hlocation, hp, rfl⟩ := turn_cases h
  · refine ⟨hinv.aligned, fun q j' hq hj' => ?_, fun q i hq => hinv.ahead q i (by omega),
      fun q i hq hi hi' => ?_⟩
    · rcases Nat.lt_succ_iff_lt_or_eq.mp hq with hlt | rfl
      · exact hinv.passed q j' hlt hj'
      · exact hplain j' hj'
    · rcases Nat.lt_succ_iff_lt_or_eq.mp hq with hlt | rfl
      · exact hinv.placed q i hlt hi hi'
      · have hsame := hinv.ahead q i le_rfl hi (isIndexed_iff.mp hi').1
        rw [hplain i hsame] at hi'
        cases hi'
  · obtain ⟨hfirst, hlimit, hfree⟩ := freeLocation_eq_some hlocation
    obtain ⟨jp, hjp, hdp, hvp⟩ := locationIndex_eq_some hp
    have hdk := (isIndexed_iff.mp hindexed).1
    obtain ⟨i, hi, hmoved⟩ := hinv.aligned.source hj
    have hahead := hinv.ahead k i le_rfl hi ((hmoved.decorates 32).symm.trans hdk)
    rw [hj] at hahead
    cases hahead
    have hmoving : Indexed is (j.word 1) := ⟨j, mem_of_getElem? hi, hindexed, rfl⟩
    have hout := (hinv.aligned.outputType htyped (j.word 1)).mp hout
    have hpk : p ≠ k := place_ne hjp hdp hj hdk
    have hatk : (overwrite js p location)[k]? = some j := (getElem?_overwrite_ne hpk location).trans hj
    have hatp : (overwrite (overwrite js p location) k 0)[p]? = some (jp.setWord 3 location) :=
      (getElem?_overwrite_ne hpk.symm 0).trans (getElem?_overwrite_self hjp location)
    have haligned : Aligned is (overwrite (overwrite js p location) k 0) :=
      (hinv.aligned.overwrite hjp (.inl hdp) (by rwa [hvp]) location).overwrite hatk (.inr hdk) hmoving 0
    have hnobody : ∀ w, IsOutput is w → ¬ Located js w location := by
      intro w hw hlocated
      rw [isOccupied_of_located hlocated ((hinv.aligned.outputType htyped w).mpr hw)] at hfree
      cases hfree
    refine ⟨haligned, fun q j' hq hj' => ?_, fun q i hq hi hd => ?_, fun q i hq hi' hi'' => ?_⟩
    · by_cases hqk : q = k
      · rw [hqk, getElem?_overwrite_self hatk] at hj'
        cases hj'
        simp [isIndexed, setWord_literal hdk]
      rw [getElem?_overwrite_ne (Ne.symm hqk)] at hj'
      by_cases hqp : q = p
      · rw [hqp, getElem?_overwrite_self hjp] at hj'
        cases hj'
        refine Bool.eq_false_iff.mpr fun htrue => not_both hdp ?_
        rw [← decorates_setWord jp location]
        exact (isIndexed_iff.mp htrue).1
      rw [getElem?_overwrite_ne (Ne.symm hqp)] at hj'
      exact hinv.passed q j' (by omega) hj'
    · have hsame := hinv.ahead q i (by omega) hi hd
      rw [getElem?_overwrite_ne (by omega), getElem?_overwrite_ne (place_ne hjp hdp hsame hd)]
      exact hsame
    · by_cases hqk : q = k
      · -- the output that is moved in this turn
        rw [hqk, hi] at hi'
        cases hi'
        refine ⟨location, hfirst, hlimit, hout, ?_, fun w hw hw' hlocated => ?_⟩
        · refine ⟨_, mem_of_getElem? hatp, (decorates_setWord jp location).trans hdp, ?_,
            setWord_literal hdp _⟩
          rw [word_setWord_three jp location (by decide) (by decide), hvp]
        · exact hnobody w hw' ((located_overwrite hjp hdp hvp hj hdk hw).mp hlocated)
      · -- an output that was moved before
        obtain ⟨l, hlfirst, hllimit, hlout, hlocated, hothers⟩ := hinv.placed q i (by omega) hi' hi''
        have hne : i.word 1 ≠ j.word 1 := fun heq => hqk ((Aligned.refl is).same_place hindices hi' hi
          (isIndexed_iff.mp hi'').1 hdk hlout heq.symm)
        refine ⟨l, hlfirst, hllimit, hlout, (located_overwrite hjp hdp hvp hj hdk hne).mpr hlocated, ?_⟩
        intro w hw hw' hlocated'
        by_cases hwv : w = j.word 1
        · obtain ⟨i', hi', hd', hv', hl'⟩ := hlocated'
          obtain ⟨r, hr⟩ := mem_iff_getElem?.mp hi'
          have hword : (jp.setWord 3 location).word 1 = j.word 1 :=
            (word_setWord_three jp location (by decide) (by decide)).trans hvp
          have hrp : p = r :=
            haligned.same_place hlocations hatp hr ((decorates_setWord jp location).trans hdp) hd'
            (by rw [hword]; exact hout) (by rw [hv', hword, hwv])
          rw [← hrp, hatp] at hr
          cases hr
          rw [setWord_literal hdp] at hl'
          rw [← hl'] at hlocated
          exact hnobody (i.word 1) hlout hlocated
        · exact hothers w hw hw' ((located_overwrite hjp hdp hvp hj hdk hwv).mp hlocated')

include hlocations hindices htyped in
/-- The rest of the loop. -/
theorem Inv.relocate {n : Nat} (hinv : Inv attachments limit is js k)
    (h : (relocate attachments limit (List.range' k n) js).1 = true) :
    Inv attachments limit is (relocate attachments limit (List.range' k n) js).2 (k + n) := by
  induction n generalizing k js with
  | zero => exact hinv
  | succ n ih =>
    rw [List.range'_succ, DualSource.relocate] at h ⊢
    split at h
    next => cases h
    next next hturn =>
      rw [show k + (n + 1) = k + 1 + n by omega]
      exact ih (hinv.turn hlocations hindices htyped hturn) h

end Loop

/-- Before the loop. -/
theorem Inv.start (attachments limit : Word) (is : List Instruction) : Inv attachments limit is is 0 :=
  ⟨.refl is, fun _ _ h => absurd h (Nat.not_lt_zero _), fun _ _ _ hi _ => hi,
    fun _ _ h => absurd h (Nat.not_lt_zero _)⟩

/-- Success that found something to move. -/
theorem spirv_eq_success {b : Binary} {attachments limit : Word} {out : List Word} {is : List Instruction}
    (hparse : parse (b.code.drop 5) = some is) (h : spirv b attachments limit = (.success, out)) :
    (∀ i ∈ is, isMemberIndexed i = false) ∧ ((∀ i ∈ is, isIndexed i = false) ∧ out = b.code ∨
      (relocate attachments limit (List.range is.length) is).1 = true ∧
        out = b.code.take 5 ++ encode (relocate attachments limit (List.range is.length) is).2) := by
  unfold spirv at h
  split at h
  next => cases h
  next is' hframed =>
    rw [framed, ite_none_left_eq_some, hparse] at hframed
    obtain ⟨-, hframed⟩ := hframed
    obtain ⟨heq, hmembers⟩ := filter_eq_some_iff.mp hframed
    cases heq
    refine ⟨by simpa using hmembers, ?_⟩
    split at h
    next hnone =>
      cases h
      exact .inl ⟨by simpa using hnone, rfl⟩
    next =>
      split at h
      next => cases h
      next =>
        obtain ⟨hresult, hout⟩ := Prod.mk.inj h
        split at hresult
        next hok => exact .inr ⟨hok, hout.symm⟩
        next => cases hresult

/-- When each output carries at most one Location and at most one Index and has a type, success
leaves no Index but zero, the indexed outputs have locations from the range that no other output
has, and no other literal changes. -/
theorem spirv_relocates {b : Binary} {attachments limit : Word} {out : List Word} {is : List Instruction}
    (hparse : parse (b.code.drop 5) = some is) (hlocations : AtMostOne 30 is) (hindices : AtMostOne 32 is)
    (htyped : Typed is) (h : spirv b attachments limit = (.success, out)) :
    b.code = b.code.take 5 ++ encode is ∧ ∃ js, out = b.code.take 5 ++ encode js ∧
      (∀ j ∈ js, isIndexed j = false ∧ isMemberIndexed j = false) ∧
      (∀ v, Indexed is v → IsOutput js v ∧ ∃ location, firstLocation attachments ≤ location ∧
        location < limit ∧ Located js v location ∧ (∀ l, Located js v l → l = location) ∧
        ∀ w, w ≠ v → IsOutput js w → ¬ Located js w location) ∧
      Aligned is js := by
  have hcode : b.code = b.code.take 5 ++ encode is := by
    rw [← parse_eq_some.mp hparse, take_append_drop]
  refine ⟨hcode, ?_⟩
  obtain ⟨hmembers, ⟨hnone, hout⟩ | ⟨hok, hout⟩⟩ := spirv_eq_success hparse h
  · refine ⟨is, hout.trans hcode, fun j hj => ⟨hnone j hj, hmembers j hj⟩, ?_, .refl is⟩
    rintro v ⟨i, hi, hindexed, -⟩
    rw [hnone i hi] at hindexed
    cases hindexed
  · rw [range_eq_range'] at hok hout
    have hinv := (Inv.start attachments limit is).relocate hlocations hindices htyped hok
    rw [Nat.zero_add] at hinv
    refine ⟨_, hout, fun j hj => ?_, ?_, hinv.aligned⟩
    · obtain ⟨p, hp⟩ := mem_iff_getElem?.mp hj
      have hlt : p < is.length := hinv.aligned.1 ▸ (List.getElem?_eq_some_iff.mp hp).1
      refine ⟨hinv.passed p j hlt hp, ?_⟩
      obtain ⟨i, hi, hmoved⟩ := hinv.aligned.source hp
      rcases hmoved with rfl | ⟨hkind, -, w, rfl⟩
      · exact hmembers _ (mem_of_getElem? hi)
      · have hop : i.opcode = 71 := hkind.elim (fun h30 => (decorates_iff.mp h30).1) fun h32 =>
          (decorates_iff.mp h32).1
        simp [isMemberIndexed, hop]
    · rintro v ⟨i, hi, hindexed, rfl⟩
      obtain ⟨p, hp⟩ := mem_iff_getElem?.mp hi
      have hlt := (List.getElem?_eq_some_iff.mp hp).1
      obtain ⟨location, hfirst, hlimit, hisout, hlocated, hothers⟩ := hinv.placed p i hlt hp hindexed
      refine ⟨(hinv.aligned.output_iff _).mpr hisout, location, hfirst, hlimit, hlocated,
        fun l hl => ?_, ?_⟩
      · obtain ⟨j, hj, hd, hv, rfl⟩ := hlocated
        obtain ⟨j', hj', hd', hv', rfl⟩ := hl
        obtain ⟨q, hq⟩ := mem_iff_getElem?.mp hj
        obtain ⟨q', hq'⟩ := mem_iff_getElem?.mp hj'
        have hqq := hinv.aligned.same_place hlocations hq hq' hd hd' (by rwa [hv]) (hv'.trans hv.symm)
        rw [← hqq, hq] at hq'
        cases hq'
        rfl
      · intro w hw hwout
        exact hothers w hw ((hinv.aligned.output_iff w).mp hwout)

/-- Two outputs at locations 1 and 0, the second with Index 1; `type` is the type of the first. -/
def sampleBinary (type : Word) : Binary := Binary.ofWords
  [magic, 0x10000, 0, 20, 0, 0x40047, 1, 30, 1, 0x40047, 2, 30, 0, 0x40047, 2, 32, 1, 0x30016, 13,
    32, 0x40020, 14, 3, 13, 0x4003b, type, 1, 3, 0x4003b, 14, 2, 3]

def sampleInstructions (type : Word) : List Instruction :=
  [⟨71, [1, 30, 1], by decide⟩, ⟨71, [2, 30, 0], by decide⟩, ⟨71, [2, 32, 1], by decide⟩,
    ⟨22, [13, 32], by decide⟩,
    ⟨32, [14, 3, 13], by decide⟩, ⟨59, [type, 1, 3], by simp⟩, ⟨59, [14, 2, 3], by decide⟩]

instance (is : List Instruction) (v : Word) : Decidable (IsOutput is v) :=
  inferInstanceAs (Decidable (∃ i ∈ is, isOutput v i = true))

instance (is : List Instruction) (v location : Word) : Decidable (Located is v location) :=
  inferInstanceAs (Decidable (∃ i ∈ is, decorates 30 i = true ∧ i.word 1 = v ∧ i.word 3 = location))

instance (is : List Instruction) (v : Word) : Decidable (Indexed is v) :=
  inferInstanceAs (Decidable (∃ i ∈ is, isIndexed i = true ∧ i.word 1 = v))

instance (kind : Word) (is : List Instruction) : Decidable (AtMostOne kind is) :=
  inferInstanceAs (Decidable (is.Pairwise fun i j => decorates kind i = true →
    decorates kind j = true → IsOutput is (i.word 1) → i.word 1 ≠ j.word 1))

theorem sampleInstructions_typed : Typed (sampleInstructions 14) := by
  intro v
  simp [sampleInstructions, isOutput, Instruction.word, Instruction.words]

theorem spirv_relocates_sample : Indexed (sampleInstructions 14) 2 ∧
    ∃ js, (spirv (sampleBinary 14) 1 4).2 = (sampleBinary 14).code.take 5 ++ encode js ∧
      ∃ location, 1 ≤ location ∧ location < 4 ∧ Located js 2 location ∧ ¬ Located js 1 location := by
  have hparse : parse ((sampleBinary 14).code.drop 5) = some (sampleInstructions 14) := by decide +kernel
  have hlocations : AtMostOne 30 (sampleInstructions 14) := by decide +kernel
  have hindices : AtMostOne 32 (sampleInstructions 14) := by decide +kernel
  have hresult : spirv (sampleBinary 14) 1 4 = (.success, (spirv (sampleBinary 14) 1 4).2) :=
    by decide +kernel
  have hindexed : Indexed (sampleInstructions 14) 2 := by decide +kernel
  have houtput : IsOutput (sampleInstructions 14) 1 := by decide +kernel
  obtain ⟨-, js, hout, -, hplaced, haligned⟩ :=
    spirv_relocates hparse hlocations hindices sampleInstructions_typed hresult
  obtain ⟨-, location, hfirst, hlimit, hlocated, -, hothers⟩ := hplaced 2 hindexed
  exact ⟨hindexed, js, hout, location, hfirst, hlimit, hlocated,
    hothers 1 (by decide) ((haligned.output_iff 1).mpr houtput)⟩

/-- An output without a type is not seen by the search: the moved output gets its location. -/
theorem untyped_output_collides :
    parse ((sampleBinary 0).code.drop 5) = some (sampleInstructions 0) ∧
      AtMostOne 30 (sampleInstructions 0) ∧
      AtMostOne 32 (sampleInstructions 0) ∧ Indexed (sampleInstructions 0) 2 ∧
      ∃ js, spirv (sampleBinary 0) 1 4 = (.success, (sampleBinary 0).code.take 5 ++ encode js) ∧
        IsOutput js 1 ∧ IsOutput js 2 ∧ Located js 1 1 ∧ Located js 2 1 := by
  refine ⟨by decide +kernel, by decide +kernel, by decide +kernel, by decide +kernel,
    (relocate 1 4 (List.range 7) (sampleInstructions 0)).2, ?_⟩
  decide +kernel

end DualSource
