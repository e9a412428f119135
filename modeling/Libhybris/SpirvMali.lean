import Libhybris.Spirv
import Libhybris.Vulkan
import Mathlib.Data.List.Nodup
import Mathlib.Data.List.Perm.Subperm
import Mathlib.Algebra.Group.Nat.Defs

/-!
# Constant composites of specialization constants

`hybris_spirv_mali_spec_constants` of `compat/spirv_mali.c`. One pass over the instructions before
the first function turns a constant composite into a specialization constant composite if one of its
constituents was marked before. When constituents are declared before the composites that name them,
the marks are the ids that depend on a specialization constant by any chain of composites.
-/
namespace SpirvMali

open Spirv Vulkan List

/-! ## The instructions before the first function -/

/-- The instructions before the first function, and the words from there on. The first word of the
function is checked, the others are not looked at. -/
def globals : Nat → List Word → Option (List Instruction × List Word)
  | _, [] => some ([], [])
  | 0, _ :: _ => none
  | fuel + 1, head :: rest =>
    if head.toNat / 65536 = 0 ∨ rest.length + 1 < head.toNat / 65536 then none
    else if head.toUInt16 = 54 then some ([], head :: rest)
    else (globals fuel (rest.drop (head.toNat / 65536 - 1))).map fun x =>
      (⟨head.toUInt16, rest.take (head.toNat / 65536 - 1), take_short⟩ :: x.1, x.2)

/-- Nothing, or words that begin with a function. -/
inductive Functions : List Word → Prop
  | nil : Functions []
  | cons {head : Word} {rest : List Word} (nonzero : head.toNat / 65536 ≠ 0)
      (fits : head.toNat / 65536 ≤ rest.length + 1) (function : head.toUInt16 = 54) :
        Functions (head :: rest)

theorem globals_eq_some {fuel : Nat} {ws after : List Word} {is : List Instruction}
    (h : globals fuel ws = some (is, after)) :
    ws = encode is ++ after ∧ Functions after ∧ ∀ i ∈ is, i.opcode ≠ 54 := by
  induction fuel generalizing ws is with
  | zero =>
    cases ws with
    | nil => cases h; exact ⟨rfl, .nil, forall_mem_nil _⟩
    | cons => cases h
  | succ fuel ih =>
    cases ws with
    | nil => cases h; exact ⟨rfl, .nil, forall_mem_nil _⟩
    | cons head rest =>
      simp only [globals, Option.ite_none_left_eq_some, not_or, not_lt] at h
      obtain ⟨⟨hzero, hle⟩, h⟩ := h
      split at h
      next hfunction =>
        cases h
        exact ⟨rfl, .cons hzero hle hfunction, forall_mem_nil _⟩
      next hother =>
        obtain ⟨x, hx, heq⟩ := Option.map_eq_some_iff.mp h
        cases heq
        obtain ⟨hwords, hafter, hnone⟩ := ih hx
        refine ⟨?_, hafter, forall_mem_cons.mpr ⟨hother, hnone⟩⟩
        rw [encode_cons, words_of_head hzero hle, append_assoc, ← hwords, cons_append,
          take_append_drop]

theorem globals_encode {fuel : Nat} {is : List Instruction} {after : List Word} (hafter : Functions after)
    (hnone : ∀ i ∈ is, i.opcode ≠ 54) (hfuel : (encode is ++ after).length ≤ fuel) :
    globals fuel (encode is ++ after) = some (is, after) := by
  induction is generalizing fuel with
  | nil =>
    cases hafter with
    | nil => cases fuel <;> rfl
    | @cons head rest hzero hle hfunction =>
      obtain ⟨fuel, rfl⟩ : ∃ k, fuel = k + 1 := ⟨fuel - 1, by simp at hfuel; omega⟩
      rw [encode_nil, nil_append, globals, if_neg (by omega), if_pos hfunction]
  | cons i is ih =>
    obtain ⟨hi, his⟩ := forall_mem_cons.mp hnone
    rw [encode_cons, append_assoc, length_append, i.length_words] at hfuel
    have hpos := i.count_pos
    obtain ⟨fuel, rfl⟩ : ∃ k, fuel = k + 1 := ⟨fuel - 1, by omega⟩
    have hcut : i.count - 1 = i.operands.length := rfl
    rw [encode_cons, append_assoc, Instruction.words, cons_append, globals,
      if_neg (by rw [i.head_div, length_append]; unfold Instruction.count; omega),
      if_neg (by rw [i.head_opcode]; exact hi)]
    simp only [i.head_div, hcut, drop_left,
      ih his (show (encode is ++ after).length ≤ fuel by omega), Option.map_some]
    congr 3
    ext1
    · exact i.head_opcode
    · exact take_left

/-! ## The pass -/

def isSpec (i : Instruction) : Bool := 48 ≤ i.opcode && i.opcode ≤ 52

def constituents (i : Instruction) : List Word := i.words.drop 3

/-- `OpSpecConstantComposite` in place of the opcode. -/
def specialize (i : Instruction) : Instruction := { i with opcode := 51 }

/-- One turn of the second loop: the marks and the instruction; none is a failure. -/
def visit (bound : Word) (specialized : Word → Bool) (i : Instruction) :
    Option ((Word → Bool) × Instruction) :=
  if isSpec i ∨ i.opcode = 44 then
    if i.count < 3 ∨ bound ≤ i.word 2 then none
    else if i.opcode ≠ 44 then some (Function.update specialized (i.word 2) true, i)
    else if (constituents i).any (bound ≤ ·) then none
    else if (constituents i).any specialized then
      some (Function.update specialized (i.word 2) true, specialize i)
    else some (specialized, i)
  else some (specialized, i)

/-- The second loop: whether it succeeds, the instructions it leaves and the number it rewrote. -/
def pass (bound : Word) : (Word → Bool) → List Instruction → Bool × List Instruction × UInt32
  | _, [] => (true, [], 0)
  | specialized, i :: is =>
    match visit bound specialized i with
    | none => (false, i :: is, 0)
    | some (specialized, j) =>
      let rest := pass bound specialized is
      (rest.1, j :: rest.2.1, if j = i then rest.2.2 else rest.2.2 + 1)

/-- `hybris_spirv_mali_spec_constants`: the result, the words and `changed`. -/
def specConstants (b : Binary) (host : Bool) : VkResult × List Word × UInt32 :=
  let bound := b.code.getD 3 0
  if b.headed = false ∨ 0x1000000 < bound then (.errorUnknown, b.code, 0)
  else
    match globals b.code.length (b.code.drop 5) with
    | none => (.errorUnknown, b.code, 0)
    | some (is, after) =>
      if is.all (fun i => i.opcode ≠ 44) ∨ is.all (fun i => isSpec i = false) then (.success, b.code, 0)
      else if host = false then (.errorOutOfHostMemory, b.code, 0)
      else
        let passed := pass bound (fun _ => false) is
        (if passed.1 then .success else .errorUnknown, b.code.take 5 ++ encode passed.2.1 ++ after,
          passed.2.2)

/-! ## Dependence on specialization constants -/

variable {c : Word} {all : List Instruction}

section Dependence

/-- Ids of specialization constants, and of composites with such a constituent. -/
inductive Special (is : List Instruction) : Word → Prop
  | constant {d : Instruction} (mem : d ∈ is) (spec : isSpec d = true) : Special is (d.word 2)
  | composite {d : Instruction} (mem : d ∈ is) (op : d.opcode = 44) {c : Word}
      (named : c ∈ constituents d) (special : Special is c) : Special is (d.word 2)

def Depends (is : List Instruction) (i : Instruction) : Prop := ∃ c ∈ constituents i, Special is c

/-- A constant that is marked, or may be. -/
def Declares (d : Instruction) : Prop := isSpec d = true ∨ d.opcode = 44

/-- No constituent of a constant composite is declared by the composite or behind it. -/
structure Ordered (is : List Instruction) : Prop where
  itself : ∀ i ∈ is, i.opcode = 44 → i.word 2 ∉ constituents i
  later : is.Pairwise fun i d => i.opcode = 44 → Declares d → d.word 2 ∉ constituents i

variable {is before rest : List Instruction} {i : Instruction}

theorem Ordered.left (h : Ordered (before ++ rest)) : Ordered before where
  itself := fun i hi => h.itself i (mem_append_left _ hi)
  later := (pairwise_append.mp h.later).1

theorem Ordered.across (h : Ordered (before ++ rest)) {d d' : Instruction} (hd : d ∈ before)
    (hd' : d' ∈ rest)
    (hop : d.opcode = 44) (hdeclares : Declares d') : d'.word 2 ∉ constituents d :=
  (pairwise_append.mp h.later).2.2 d hd d' hd' hop hdeclares

theorem Special.mono {js : List Instruction} (hsub : ∀ d ∈ is, d ∈ js) (h : Special is c) :
    Special js c := by
  induction h with
  | constant mem spec => exact .constant (hsub _ mem) spec
  | composite mem op named _ ih => exact .composite (hsub _ mem) op named ih

/-- What is declared before does not depend on what is declared behind. -/
theorem Special.of_before (hord : Ordered (before ++ rest)) (h : Special (before ++ rest) c)
    (hdeclared : ∀ d ∈ rest, Declares d → d.word 2 ≠ c) : Special before c := by
  induction h with
  | @constant d mem spec =>
    rcases mem_append.mp mem with hd | hd
    · exact .constant hd spec
    · exact absurd rfl (hdeclared d hd (.inl spec))
  | @composite d mem op c named _ ih =>
    rcases mem_append.mp mem with hd | hd
    · refine .composite hd op named (ih fun d' hd' hdeclares heq => ?_)
      exact hord.across hd hd' op hdeclares (heq ▸ named)
    · exact absurd rfl (hdeclared d hd (.inr op))

/-- A composite depends on what is before it. -/
theorem depends_iff (hord : Ordered (before ++ i :: rest)) (hop : i.opcode = 44) :
    Depends (before ++ i :: rest) i ↔ Depends before i := by
  constructor
  · rintro ⟨c, hc, hspecial⟩
    refine ⟨c, hc, hspecial.of_before hord fun d hd hdeclares heq => ?_⟩
    rcases mem_cons.mp hd with rfl | hd
    · exact hord.itself d (by simp) hop (heq ▸ hc)
    · have hlater := (pairwise_append.mp hord.later).2.1
      exact (pairwise_cons.mp hlater).1 d hd hop hdeclares (heq ▸ hc)
  · rintro ⟨c, hc, hspecial⟩
    exact ⟨c, hc, hspecial.mono fun d hd => mem_append_left _ hd⟩

/-- One more instruction marks at most its own id. -/
theorem special_append (hord : Ordered (before ++ [i])) : Special (before ++ [i]) c ↔
    Special before c ∨ c = i.word 2 ∧ (isSpec i = true ∨ i.opcode = 44 ∧ Depends before i) := by
  constructor
  · intro h
    by_cases hc : c = i.word 2
    · cases h with
      | @constant d mem spec =>
        rcases mem_append.mp mem with hd | hd
        · exact .inl (.constant hd spec)
        · rw [mem_singleton.mp hd] at spec
          exact .inr ⟨hc, .inl spec⟩
      | @composite d mem op c' named special =>
        rcases mem_append.mp mem with hd | hd
        · refine .inl (.composite hd op named (special.of_before hord fun d' hd' hdeclares heq => ?_))
          exact hord.across hd hd' op hdeclares (heq ▸ named)
        · rw [mem_singleton.mp hd] at op named
          exact .inr ⟨hc, .inr ⟨op, (depends_iff hord op).mp ⟨c', named, special⟩⟩⟩
    · refine .inl (h.of_before hord fun d hd _ heq => hc ?_)
      rw [← heq, mem_singleton.mp hd]
  · rintro (h | ⟨rfl, hspec | ⟨hop, c', hc', h⟩⟩)
    · exact h.mono fun d hd => mem_append_left _ hd
    · exact .constant (by simp) hspec
    · exact .composite (by simp) hop hc' (h.mono fun d hd => mem_append_left _ hd)

end Dependence

/-! ## What the pass does -/

/-- What may become of an instruction. -/
def Kept (is : List Instruction) (i j : Instruction) : Prop :=
  j = i ∨ i.opcode = 44 ∧ Depends is i ∧ j = specialize i

/-- What becomes of it when the pass succeeds. -/
def Repaired (is : List Instruction) (i j : Instruction) : Prop :=
  Kept is i j ∧ (j.opcode = 51 ↔ i.opcode = 51 ∨ i.opcode = 44 ∧ Depends is i)

/-- The number of instructions that differ. -/
def rewritten (is js : List Instruction) : Nat := (is.zip js).countP fun x => x.2 ≠ x.1

section Pass

variable {bound : Word} {specialized : Word → Bool} {before is : List Instruction} {i : Instruction}

/-- A turn of the loop, when the marks are the special ids of the part that was passed. -/
theorem visit_spec {next : Word → Bool} {j : Instruction} (hord : Ordered (before ++ [i]))
    (hmarks : ∀ c, specialized c = true ↔ Special before c)
    (h : visit bound specialized i = some (next, j)) :
    (∀ c, next c = true ↔ Special (before ++ [i]) c) ∧ (j = i ∨ i.opcode = 44 ∧ j = specialize i) ∧
      (j.opcode = 51 ↔ i.opcode = 51 ∨ i.opcode = 44 ∧ Depends before i) := by
  have hany : (constituents i).any specialized = true ↔ Depends before i := by
    simp only [any_eq_true, hmarks, Depends]
  have hupdate : ∀ c, Function.update specialized (i.word 2) true c = true ↔ Special before c ∨
    c = i.word 2 := by
    intro c
    by_cases hc : c = i.word 2
    · rw [hc]
      simp
    · rw [Function.update_of_ne hc, hmarks]
      simp [hc]
  simp only [special_append hord]
  unfold visit at h
  split at h
  next hdeclares =>
    obtain ⟨-, h⟩ := Option.ite_none_left_eq_some.mp h
    split at h
    next hop =>
      cases h
      have hspec : isSpec i = true := hdeclares.resolve_right hop
      exact ⟨fun c => by simp [hupdate, hspec], .inl rfl, by simp [hop]⟩
    next hop =>
      replace hop : i.opcode = 44 := not_not.mp hop
      have hspec : isSpec i = false := by simp [isSpec, hop]
      obtain ⟨-, h⟩ := Option.ite_none_left_eq_some.mp h
      split at h
      next hdepends =>
        cases h
        have hdepends := hany.mp hdepends
        exact ⟨fun c => by simp [hupdate, hop, hdepends], .inr ⟨hop, rfl⟩,
          by simp [specialize, hop, hdepends]⟩
      next hdepends =>
        cases h
        have hdepends : ¬ Depends before i := fun hd => hdepends (hany.mpr hd)
        exact ⟨fun c => by simp [hmarks, hop, hspec, hdepends], .inl rfl, by simp [hop, hdepends]⟩
  next hdeclares =>
    cases h
    obtain ⟨hspec, hop⟩ := not_or.mp hdeclares
    exact ⟨fun c => by simp [hmarks, hspec, hop], .inl rfl, by simp [hop]⟩

theorem rewritten_self (is : List Instruction) : rewritten is is = 0 := by
  induction is with
  | nil => rfl
  | cons i is ih => simpa [rewritten] using ih

theorem rewritten_cons (i j : Instruction) (is js : List Instruction) :
    rewritten (i :: is) (j :: js) = rewritten is js + if j = i then 0 else 1 := by
  by_cases h : j = i <;> simp [rewritten, h]

/-- Before the loop nothing is marked. -/
theorem not_marked (c : Word) : (fun _ : Word => false) c = true ↔ Special [] c := by
  constructor
  · intro hfalse
    cases hfalse
  · intro hc
    cases hc with
    | constant mem => cases mem
    | composite mem => cases mem

/-- The rest of the loop. -/
theorem pass_spec (hord : Ordered (before ++ is)) (hmarks : ∀ c, specialized c = true ↔
    Special before c) : List.Forall₂ (Kept (before ++ is)) is (pass bound specialized is).2.1 ∧
      (pass bound specialized is).2.2 = UInt32.ofNat (rewritten is (pass bound specialized is).2.1) ∧
      ((pass bound specialized is).1 = true →
        List.Forall₂ (Repaired (before ++ is)) is (pass bound specialized is).2.1) := by
  induction is generalizing before specialized with
  | nil => exact ⟨.nil, rfl, fun _ => .nil⟩
  | cons i is ih =>
    rw [pass]
    split
    next =>
      refine ⟨List.forall₂_same.mpr fun _ _ => .inl rfl, ?_, fun h => nomatch h⟩
      rw [rewritten_self]
      rfl
    next next j hvisit =>
      have hassoc : before ++ i :: is = before ++ [i] ++ is := by simp
      obtain ⟨hnext, hj, hop⟩ := visit_spec (hassoc ▸ hord).left hmarks hvisit
      obtain ⟨hkept, hcount, hrepaired⟩ := ih (hassoc ▸ hord) hnext
      rw [← hassoc] at hkept hrepaired
      have hiff : j.opcode = 51 ↔ i.opcode = 51 ∨ i.opcode = 44 ∧ Depends (before ++ i :: is) i := by
        rw [hop]
        exact or_congr_right (and_congr_right fun h44 => (depends_iff hord h44).symm)
      have hhead : Kept (before ++ i :: is) i j := by
        rcases hj with rfl | ⟨h44, rfl⟩
        · exact .inl rfl
        · rcases hiff.mp rfl with h51 | ⟨_, hdepends⟩
          · rw [h51] at h44
            exact absurd h44 (by decide)
          · exact .inr ⟨h44, hdepends, rfl⟩
      refine ⟨.cons hhead hkept, ?_, fun h => .cons ⟨hhead, hiff⟩ (hrepaired h)⟩
      simp only [rewritten_cons, hcount]
      split <;> simp [UInt32.ofNat_add]

end Pass

/-! ## The output again -/

section Again

variable {is js : List Instruction} {i j : Instruction}

section
variable (h : Kept is i j)
include h

theorem Kept.operands : j.operands = i.operands := by
  rcases h with rfl | ⟨_, _, rfl⟩ <;> rfl

theorem Kept.word (k : Nat) : j.word (k + 1) = i.word (k + 1) := by
  rw [Instruction.word_succ, Instruction.word_succ, h.operands]

theorem Kept.declares (hj : Declares j) : Declares i := by
  rcases h with rfl | ⟨h44, _, rfl⟩
  · exact hj
  · exact .inr h44

theorem Kept.eq (hop : j.opcode = 44) : j = i := by
  rcases h with rfl | ⟨_, _, rfl⟩
  · rfl
  · exact absurd hop (by simp [specialize])

end

/-- The instruction another came from. -/
theorem exists_kept {R : Instruction → Instruction → Prop} (h : List.Forall₂ R is js)
    (hj : j ∈ js) : ∃ i ∈ is, R i j := by
  induction h with
  | nil => cases hj
  | cons head _ ih =>
    rcases mem_cons.mp hj with rfl | hj
    · exact ⟨_, mem_cons_self, head⟩
    · obtain ⟨i, hi, hR⟩ := ih hj
      exact ⟨i, mem_cons_of_mem _ hi, hR⟩

theorem Ordered.kept (h : Ordered is) (hkept : List.Forall₂ (Kept all) is js) : Ordered js := by
  constructor
  · intro j hj hop
    obtain ⟨i, hi, hij⟩ := exists_kept hkept hj
    obtain rfl := hij.eq hop
    exact h.itself j hi hop
  · have hlater := h.later
    clear h
    induction hkept with
    | nil => exact .nil
    | cons head tail ih =>
      obtain ⟨hfirst, hrest⟩ := pairwise_cons.mp hlater
      refine .cons (fun j' hj' hop hdeclares => ?_) (ih hrest)
      obtain ⟨i', hi', hij'⟩ := exists_kept tail hj'
      rw [hij'.word 1]
      obtain rfl := head.eq hop
      exact hfirst i' hi' hop (hij'.declares hdeclares)

/-- The composites that are left do not depend on anything special, whatever was rewritten. -/
theorem special_of_repaired (h : List.Forall₂ (Repaired is) is js) (hc : Special js c) : Special is c := by
  induction hc with
  | @constant d mem spec =>
    obtain ⟨i, hi, hij, -⟩ := exists_kept h mem
    rw [hij.word 1]
    rcases hij with rfl | ⟨h44, ⟨c, hc, hspecial⟩, rfl⟩
    · exact .constant hi spec
    · exact .composite hi h44 hc hspecial
  | @composite d mem op c named _ ih =>
    obtain ⟨i, hi, hij, -⟩ := exists_kept h mem
    obtain rfl := hij.eq op
    exact .composite hi op named ih

theorem not_depends_of_repaired (h : List.Forall₂ (Repaired is) is js) (hj : j ∈ js)
    (hop : j.opcode = 44) : ¬ Depends js j := by
  rintro ⟨c, hc, hspecial⟩
  obtain ⟨i, hi, hij, hiff⟩ := exists_kept h hj
  obtain rfl := hij.eq hop
  have h51 := hiff.mpr (.inr ⟨hop, c, hc, special_of_repaired h hspecial⟩)
  rw [hop] at h51
  exact absurd h51 (by decide)

theorem forall₂_eq_of_kept {ks : List Instruction} (h : List.Forall₂ (Kept all) js ks)
    (hnone : ∀ j ∈ js, j.opcode = 44 → ¬ Depends all j) : ks = js := by
  induction h with
  | nil => rfl
  | cons head _ ih =>
    obtain ⟨hfirst, hrest⟩ := forall_mem_cons.mp hnone
    rw [ih hrest]
    rcases head with rfl | ⟨h44, hdepends, _⟩
    · rfl
    · exact absurd hdepends (hfirst h44)

/-- The pass leaves its own output. -/
theorem pass_again {bound : Word} (hord : Ordered is) (h : List.Forall₂ (Repaired is) is js) :
    (pass bound (fun _ => false) js).2 = (js, 0) := by
  have hord' : Ordered ([] ++ js) := hord.kept (h.imp fun _ _ hij => hij.1)
  obtain ⟨hkept, hcount, -⟩ : _ ∧ (pass bound (fun _ => false) js).2.2 = _ ∧ _ := pass_spec hord' not_marked
  have heq := forall₂_eq_of_kept hkept fun j hj hop => not_depends_of_repaired h hj hop
  refine Prod.ext heq ?_
  rw [hcount, heq, rewritten_self]
  rfl

end Again

/-! ## The number of rewritten composites -/

section Count

variable {bound : Word} {is js : List Instruction}

theorem rewritten_le (h : List.Forall₂ (Kept all) is js) :
    rewritten is js ≤ (is.filter fun i => i.opcode = 44).length := by
  induction h with
  | nil => exact le_rfl
  | @cons i j is js head _ ih =>
    rw [rewritten_cons]
    rcases head with rfl | ⟨h44, _, _⟩
    · rw [if_pos rfl]
      exact ih.trans (List.Sublist.filter _ (sublist_cons_self _ _)).length_le
    · rw [filter_cons_of_pos (by simpa using h44), length_cons]
      split <;> omega

/-- The loop fails at a composite whose id is not below the bound. -/
theorem lt_bound_of_pass {specialized : Word → Bool} (h : (pass bound specialized is).1 = true)
    {i : Instruction} (hi : i ∈ is) (hop : i.opcode = 44) : i.word 2 < bound := by
  induction is generalizing specialized with
  | nil => cases hi
  | cons j is ih =>
    rw [pass] at h
    split at h
    next => cases h
    next next j' hvisit =>
      rcases mem_cons.mp hi with rfl | hi
      · rw [visit, if_pos (.inr hop), Option.ite_none_left_eq_some] at hvisit
        exact UInt32.not_le.mp (not_or.mp hvisit.1).2
      · exact ih h hi

/-- Composites with ids of their own are at most as many as there are ids, which fit the counter. -/
theorem rewritten_lt (hkept : List.Forall₂ (Kept all) is js)
    (hids : ((is.filter fun i => i.opcode = 44).map fun i => i.word 2).Nodup)
    (hlt : ∀ i ∈ is, i.opcode = 44 → i.word 2 < bound) : rewritten is js < 2 ^ 32 := by
  have hsub : ((is.filter fun i => i.opcode = 44).map fun i => (i.word 2).toNat) ⊆ List.range
    bound.toNat := by
    intro n hn
    obtain ⟨i, hi, rfl⟩ := mem_map.mp hn
    obtain ⟨hmem, hop⟩ := mem_filter.mp hi
    exact mem_range.mpr (hlt i hmem (by simpa using hop))
  have hnodup : ((is.filter fun i => i.opcode = 44).map fun i => (i.word 2).toNat).Nodup := by
    have hmap := List.Nodup.map (fun _ _ heq => UInt32.toNat_inj.mp heq) hids
    rwa [map_map] at hmap
  have hlength := (List.Nodup.subperm hnodup hsub).length_le
  rw [length_map, length_range] at hlength
  have hbound := bound.toNat_lt
  have hle := rewritten_le hkept
  omega

end Count

/-! ## The function -/

section Function

variable {b : Binary} {is : List Instruction} {after : List Word}

theorem not_special_of_none (h : ∀ i ∈ is, isSpec i = false) (c : Word) : ¬ Special is c := by
  intro hc
  induction hc with
  | constant mem spec => rw [h _ mem] at spec; cases spec
  | composite _ _ _ _ ih => exact ih

/-- Without composites or without specialization constants there is nothing to repair. -/
theorem repaired_self (h : (∀ i ∈ is, i.opcode ≠ 44) ∨ ∀ i ∈ is, isSpec i = false) :
    List.Forall₂ (Repaired is) is is := by
  refine List.forall₂_same.mpr fun i hi => ⟨.inl rfl, .inl, ?_⟩
  rintro (h51 | ⟨h44, c, hc, hspecial⟩)
  · exact h51
  · rcases h with hnone | hnone
    · exact absurd h44 (hnone i hi)
    · exact absurd hspecial (not_special_of_none hnone c)

/-- What success means. -/
theorem specConstants_eq_success {host : Bool} {out : List Word} {changed : UInt32}
    (hglobals : globals b.code.length (b.code.drop 5) = some (is, after))
    (h : specConstants b host = (.success, out, changed)) :
    b.headed = true ∧ (((∀ i ∈ is, i.opcode ≠ 44) ∨ ∀ i ∈ is, isSpec i = false) ∧ out = b.code ∧
      changed = 0 ∨ (pass (b.code.getD 3 0) (fun _ => false) is).1 = true ∧
        out = b.code.take 5 ++ encode (pass (b.code.getD 3 0) (fun _ => false) is).2.1 ++ after ∧
        changed = (pass (b.code.getD 3 0) (fun _ => false) is).2.2) := by
  rw [specConstants] at h
  simp only [hglobals] at h
  split at h
  next => cases h
  next hheaded =>
    refine ⟨by simpa using (not_or.mp hheaded).1, ?_⟩
    split at h
    next hnone =>
      cases h
      refine .inl ⟨?_, rfl, rfl⟩
      simpa [all_eq_true] using hnone
    next =>
      split at h
      next => cases h
      next =>
        obtain ⟨hresult, hrest⟩ := Prod.mk.inj h
        split at hresult
        next hok => exact .inr ⟨hok, (Prod.mk.inj hrest).1.symm, (Prod.mk.inj hrest).2.symm⟩
        next => cases hresult

/-- The function on words whose header is fine. -/
theorem specConstants_words (header : List Word) (hlength : header.length = 5) {js : List Instruction}
    (hafter : Functions after) (hnone : ∀ j ∈ js, j.opcode ≠ 54) (host : Bool)
    (hpass : ∀ bound, (pass bound (fun _ => false) js).2 = (js, 0)) :
    (specConstants (Binary.ofWords (header ++ encode js ++ after)) host).2 =
    (header ++ encode js ++ after, 0) := by
  have hdrop : (header ++ encode js ++ after).drop 5 = encode js ++ after := by
    rw [append_assoc, ← hlength, drop_left]
  have htake : (header ++ encode js ++ after).take 5 = header := by
    rw [append_assoc, ← hlength, take_left]
  have hparse : globals (header ++ encode js ++ after).length (encode js ++ after) = some (js, after) :=
    globals_encode hafter hnone (by simp only [length_append]; omega)
  rw [specConstants]
  simp only [Binary.ofWords, hdrop, htake, hparse, hpass]
  split_ifs <;> rfl

end Function

/-- Success turns exactly the constant composites that depend on a specialization constant into
specialization constant composites, changes nothing else and counts them; on its own output the
function changes nothing. -/
theorem specConstants_closure {b : Binary} {host : Bool} {is : List Instruction} {after out : List Word}
    {changed : UInt32} (hglobals : globals b.code.length (b.code.drop 5) = some (is, after))
    (hord : Ordered is)
    (h : specConstants b host = (.success, out, changed)) :
    b.code = b.code.take 5 ++ encode is ++ after ∧ (∀ i ∈ is, i.opcode ≠ 54) ∧ Functions after ∧
      ∃ js, out = b.code.take 5 ++ encode js ++ after ∧
        List.Forall₂ (fun i j => (j = i ∨ i.opcode = 44 ∧ j = specialize i) ∧
          (j.opcode = 51 ↔ i.opcode = 51 ∨ i.opcode = 44 ∧ Depends is i)) is js ∧
        changed = UInt32.ofNat (rewritten is js) ∧
        (((is.filter fun i => i.opcode = 44).map fun i => i.word 2).Nodup →
          changed.toNat = rewritten is js) ∧
        ∀ host, (specConstants (Binary.ofWords out) host).2 = (out, 0) := by
  obtain ⟨hwords, hafter, hnone⟩ := globals_eq_some hglobals
  obtain ⟨hheaded, hcases⟩ := specConstants_eq_success hglobals h
  have hcode : b.code = b.code.take 5 ++ encode is ++ after := by
    rw [append_assoc, ← hwords, take_append_drop]
  refine ⟨hcode, hnone, hafter, ?_⟩
  obtain ⟨js, hout, hrepaired, hchanged, hfits⟩ : ∃ js, out = b.code.take 5 ++ encode js ++ after ∧
      List.Forall₂ (Repaired is) is js ∧ changed = UInt32.ofNat (rewritten is js) ∧
      (((is.filter fun i => i.opcode = 44).map fun i => i.word 2).Nodup → rewritten is js < 2 ^ 32) := by
    rcases hcases with ⟨hnothing, hout, hchanged⟩ | ⟨hok, hout, hchanged⟩
    · refine ⟨is, hout.trans hcode, repaired_self hnothing, ?_, fun _ => ?_⟩
      · rw [hchanged, rewritten_self]
        rfl
      · rw [rewritten_self]
        decide
    · have hspec : _ ∧ (pass (b.code.getD 3 0) (fun _ => false) is).2.2 = _ ∧ _ :=
        pass_spec (show Ordered ([] ++ is) from hord) not_marked
      refine ⟨_, hout, hspec.2.2 hok, hchanged.trans hspec.2.1, fun hids => ?_⟩
      exact rewritten_lt hspec.1 hids fun i hi hop => lt_bound_of_pass hok hi hop
  refine ⟨js, hout, ?_, hchanged, fun hids => ?_, fun host => ?_⟩
  · refine hrepaired.imp fun i j hij => ⟨?_, hij.2⟩
    exact hij.1.imp_right fun hboth => ⟨hboth.1, hboth.2.2⟩
  · rw [hchanged, UInt32.toNat_ofNat', Nat.mod_eq_of_lt (hfits hids)]
  · have hlength : (b.code.take 5).length = 5 := by
      rw [length_take]
      have hfive := (Binary.headed_iff.mp hheaded).2.1
      omega
    have hnone' : ∀ j ∈ js, j.opcode ≠ 54 := by
      intro j hj
      obtain ⟨i, hi, hij, -⟩ := exists_kept hrepaired hj
      rcases hij with rfl | ⟨_, _, rfl⟩
      · exact hnone j hi
      · simp [specialize]
    rw [hout]
    exact specConstants_words _ hlength hafter hnone' host fun bound => pass_again hord hrepaired

/-- A specialization constant, a composite of it, and a composite of that composite. -/
def sampleBinary : Binary := Binary.ofWords
  [magic, 0x10000, 0, 20, 0, 0x40032, 1, 10, 7, 0x5002c, 2, 11, 10, 10, 0x4002c, 3, 12, 11,
    0x4002c, 3, 13, 14, 0x50036, 4, 15, 0, 5]

def sampleGlobals : List Instruction :=
  [⟨50, [1, 10, 7], by decide⟩, ⟨44, [2, 11, 10, 10], by decide⟩, ⟨44, [3, 12, 11], by decide⟩,
    ⟨44, [3, 13, 14], by decide⟩]

theorem specConstants_closure_sample :
    globals sampleBinary.code.length (sampleBinary.code.drop 5) = some (sampleGlobals,
      [0x50036, 4, 15, 0, 5]) ∧ (specConstants sampleBinary true).2.2 = 2 ∧
      ∃ js, (specConstants sampleBinary true).2.1 =
        sampleBinary.code.take 5 ++ encode js ++ [0x50036, 4, 15, 0, 5] := by
  have hglobals : globals sampleBinary.code.length (sampleBinary.code.drop 5) =
      some (sampleGlobals, [0x50036, 4, 15, 0, 5]) := by decide +kernel
  have hord : Ordered sampleGlobals := by
    constructor
    · decide
    · unfold Declares
      decide
  have hresult : specConstants sampleBinary true =
      (.success, (specConstants sampleBinary true).2.1, (specConstants sampleBinary true).2.2) :=
        by decide +kernel
  obtain ⟨-, -, -, js, hout, -⟩ := specConstants_closure hglobals hord hresult
  exact ⟨hglobals, by decide +kernel, js, hout⟩

end SpirvMali
