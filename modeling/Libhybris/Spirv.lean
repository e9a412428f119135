import Mathlib.Data.List.DropRight

/-!
# SPIR-V modules as instructions

A SPIR-V binary is a header of five words and a sequence of instructions, each of which tells
its own length. An `Instruction` cannot have a length that its first word does not tell, so that
the words of a list of instructions are cut in one way only.
-/
namespace Spirv

open List Option

abbrev Word := UInt32

/-- An instruction: its opcode and the words after the first. -/
@[ext] structure Instruction where
  opcode : UInt16
  operands : List Word
  short : operands.length < 65535
deriving DecidableEq

variable {i : Instruction} {is : List Instruction}

namespace Instruction

/-- The number of words, the first included. -/
def count (i : Instruction) : Nat := i.operands.length + 1

/-- The first word: the count above the opcode. -/
def head (i : Instruction) : Word := UInt32.ofNat (i.count * 65536 + i.opcode.toNat)

def words (i : Instruction) : List Word := i.head :: i.operands

/-- The word at an index, zero behind the end. -/
def word (i : Instruction) (k : Nat) : Word := i.words.getD k 0

section
variable (i : Instruction)

@[simp] theorem length_words : i.words.length = i.count := rfl

theorem count_pos : 0 < i.count := Nat.succ_pos _

theorem count_lt : i.count < 65536 := by
  have hshort := i.short
  unfold count
  omega

theorem head_toNat : i.head.toNat = i.count * 65536 + i.opcode.toNat := by
  have hcount := i.count_lt
  have hop := i.opcode.toNat_lt
  rw [head, UInt32.toNat_ofNat', Nat.mod_eq_of_lt (by omega)]

theorem head_div : i.head.toNat / 65536 = i.count := by
  have hop := i.opcode.toNat_lt
  rw [head_toNat]
  omega

theorem head_opcode : i.head.toUInt16 = i.opcode := by
  have hop := i.opcode.toNat_lt
  apply UInt16.toNat.inj
  rw [UInt32.toNat_toUInt16, head_toNat]
  omega

theorem word_succ (k : Nat) : i.word (k + 1) = i.operands.getD k 0 := rfl

/-- An instruction with another word, not the first. -/
def setWord (i : Instruction) (k : Nat) (w : Word) : Instruction :=
  ⟨i.opcode, i.operands.set (k - 1) w, by rw [length_set]; exact i.short⟩

@[simp] theorem setWord_opcode (k : Nat) (w : Word) : (i.setWord k w).opcode = i.opcode := rfl

@[simp] theorem setWord_count (k : Nat) (w : Word) : (i.setWord k w).count = i.count := by
  rw [count, count, setWord, length_set]

end

theorem word_setWord_self {k : Nat} (hpos : 0 < k) (hk : k < i.count) (w : Word) :
    (i.setWord k w).word k = w := by
  obtain ⟨k, rfl⟩ := Nat.exists_eq_succ_of_ne_zero hpos.ne'
  have hlt : k < i.operands.length := Nat.lt_of_succ_lt_succ hk
  change (i.operands.set k w).getD k 0 = w
  rw [getD_eq_getElem?_getD, getElem?_set_self hlt, getD_some]

theorem word_setWord_ne {k l : Nat} (hpos : 0 < k) (hl : 0 < l) (hne : l ≠ k) (w : Word) :
    (i.setWord k w).word l = i.word l := by
  obtain ⟨l, rfl⟩ := Nat.exists_eq_succ_of_ne_zero hl.ne'
  have hne' : k - 1 ≠ l := by omega
  rw [word_succ, word_succ, setWord, getD_eq_getElem?_getD, getElem?_set_ne hne',
    getD_eq_getElem?_getD]

end Instruction

/-- The words of a list of instructions. -/
def encode (is : List Instruction) : List Word := is.flatMap Instruction.words

@[simp] theorem encode_nil : encode [] = [] := rfl

@[simp] theorem encode_cons (i : Instruction) (is : List Instruction) :
    encode (i :: is) = i.words ++ encode is := rfl

/-- The count that a first word tells is at most what is left, the first word included. -/
theorem take_short {head : Word} {rest : List Word} :
    (rest.take (head.toNat / 65536 - 1)).length < 65535 := by
  have hlt := head.toNat_lt
  rw [length_take]
  omega

/-- Cut words into instructions. A count of zero, or one beyond the end, is malformed. -/
def frame : Nat → List Word → Option (List Instruction)
  | _, [] => some []
  | 0, _ :: _ => none
  | fuel + 1, head :: rest =>
    if head.toNat / 65536 = 0 ∨ rest.length + 1 < head.toNat / 65536 then none
    else (frame fuel (rest.drop (head.toNat / 65536 - 1))).map
      (⟨head.toUInt16, rest.take (head.toNat / 65536 - 1), take_short⟩ :: ·)

/-- The first word and the words after it, as `frame` cuts them. -/
theorem words_of_head {head : Word} {rest : List Word} (hzero : head.toNat / 65536 ≠ 0)
    (hle : head.toNat / 65536 ≤ rest.length + 1) :
    (⟨head.toUInt16, rest.take (head.toNat / 65536 - 1), take_short⟩ : Instruction).words =
      head :: rest.take (head.toNat / 65536 - 1) := by
  set i : Instruction := ⟨head.toUInt16, rest.take (head.toNat / 65536 - 1), take_short⟩ with hi
  have hcount : i.count = head.toNat / 65536 := by
    simp only [hi, Instruction.count, length_take]
    omega
  have hhead : i.head = head := by
    apply UInt32.toNat.inj
    rw [i.head_toNat, UInt32.toNat_toUInt16]
    omega
  rw [Instruction.words, hhead]

/-- Framing finds the instructions the words are made of. -/
theorem frame_encode {fuel : Nat} (h : (encode is).length ≤ fuel) : frame fuel (encode is) = some is := by
  induction is generalizing fuel with
  | nil => cases fuel <;> rfl
  | cons i is ih =>
    rw [encode_cons, length_append, i.length_words] at h
    have hpos := i.count_pos
    obtain ⟨fuel, rfl⟩ : ∃ k, fuel = k + 1 := ⟨fuel - 1, by omega⟩
    have hcut : i.count - 1 = i.operands.length := rfl
    rw [encode_cons, Instruction.words, cons_append, frame,
      if_neg (by rw [i.head_div, length_append]; unfold Instruction.count; omega)]
    simp only [i.head_div, hcut, drop_left, ih (show (encode is).length ≤ fuel by omega), map_some]
    congr 2
    ext1
    · exact i.head_opcode
    · exact take_left

/-- What is framed are the words that were given. -/
theorem encode_of_frame {fuel : Nat} {ws : List Word} (h : frame fuel ws = some is) : ws = encode is := by
  induction fuel generalizing ws is with
  | zero =>
    cases ws with
    | nil => cases h; rfl
    | cons => cases h
  | succ fuel ih =>
    cases ws with
    | nil => cases h; rfl
    | cons head rest =>
      simp only [frame, ite_none_left_eq_some, not_or, not_lt, map_eq_some_iff] at h
      obtain ⟨⟨hzero, hle⟩, js, hjs, rfl⟩ := h
      rw [encode_cons, words_of_head hzero hle, ← ih hjs, cons_append, take_append_drop]

def parse (ws : List Word) : Option (List Instruction) := frame ws.length ws

theorem parse_eq_some {ws : List Word} : parse ws = some is ↔ ws = encode is :=
  ⟨encode_of_frame, fun h => by rw [h]; exact frame_encode le_rfl⟩

/-- A list of words in memory, followed by `rest` bytes that are no word. -/
structure Binary where
  code : List Word
  rest : Nat
  restLt : rest < 4

def Binary.size (b : Binary) : Nat := 4 * b.code.length + b.rest

/-- The binary of whole words. -/
def Binary.ofWords (code : List Word) : Binary := ⟨code, 0, by decide⟩

/-- The header: a magic number, the version, the generator, the bound of all ids and a reserved
word. -/
structure Module where
  version : Word
  generator : Word
  bound : Word
  schema : Word
  instructions : List Instruction
deriving DecidableEq

def magic : Word := 0x07230203

def Module.header (m : Module) : List Word := [magic, m.version, m.generator, m.bound, m.schema]

def Module.code (m : Module) : List Word := m.header ++ encode m.instructions

/-- The checks every pass starts with: whole words, the magic number and a bound. -/
def Binary.headed (b : Binary) : Bool :=
  20 ≤ b.size && b.size % 4 = 0 && b.code.getD 0 0 = magic && b.code.getD 3 0 ≠ 0

/-- A binary that passes them and whose instructions can be framed. -/
def Binary.module? (b : Binary) : Option Module :=
  if b.headed then
    (parse (b.code.drop 5)).map fun is =>
      ⟨b.code.getD 1 0, b.code.getD 2 0, b.code.getD 3 0, b.code.getD 4 0, is⟩
  else none

theorem five_words {code : List Word} (h : 5 ≤ code.length) : code =
    [code.getD 0 0, code.getD 1 0, code.getD 2 0, code.getD 3 0, code.getD 4 0] ++ code.drop 5 := by
  match code, h with
  | _ :: _ :: _ :: _ :: _ :: rest, _ => rfl

theorem Binary.headed_iff {b : Binary} : b.headed = true ↔
    b.rest = 0 ∧ 5 ≤ b.code.length ∧ b.code.getD 0 0 = magic ∧ b.code.getD 3 0 ≠ 0 := by
  have hrest := b.restLt
  simp only [Binary.headed, Bool.and_eq_true, decide_eq_true_eq]
  unfold Binary.size
  constructor
  · rintro ⟨⟨⟨hsize, hmod⟩, hmagic⟩, hbound⟩
    exact ⟨by omega, by omega, hmagic, hbound⟩
  · rintro ⟨hzero, hlength, hmagic, hbound⟩
    exact ⟨⟨⟨by omega, by omega⟩, hmagic⟩, hbound⟩

/-- A binary is a module exactly if it is the words of one with a bound. -/
theorem Binary.module?_eq_some {b : Binary} {m : Module} :
    b.module? = some m ↔ b.rest = 0 ∧ m.bound ≠ 0 ∧ b.code = m.code := by
  simp only [Binary.module?, ite_none_right_eq_some, map_eq_some_iff, headed_iff,
    parse_eq_some]
  constructor
  · rintro ⟨⟨hrest, hlength, hmagic, hbound⟩, is, his, rfl⟩
    refine ⟨hrest, hbound, ?_⟩
    rw [Module.code, ← his, Module.header, ← hmagic]
    exact five_words hlength
  · rintro ⟨hrest, hbound, hcode⟩
    rw [hcode]
    exact ⟨⟨hrest, by simp [Module.code, Module.header], rfl, hbound⟩, m.instructions, rfl, rfl⟩

theorem Module.module?_ofWords {m : Module} (h : m.bound ≠ 0) :
    (Binary.ofWords m.code).module? = some m :=
  Binary.module?_eq_some.mpr ⟨rfl, h, rfl⟩

/-! ## Instructions and where they start -/

/-- Instructions with the index of their first word. -/
def locate : Nat → List Instruction → List (Nat × Instruction)
  | _, [] => []
  | offset, i :: is => (offset, i) :: locate (offset + i.count) is

@[simp] theorem map_snd_locate (offset : Nat) (is : List Instruction) :
    (locate offset is).map Prod.snd = is := by
  induction is generalizing offset with
  | nil => rfl
  | cons i is ih => rw [locate, map_cons, ih]

theorem le_of_mem_locate {offset at' : Nat} (h : (at', i) ∈ locate offset is) : offset ≤ at' := by
  induction is generalizing offset with
  | nil => cases h
  | cons j is ih =>
    rcases mem_cons.mp h with heq | hrest
    · cases heq
      exact le_rfl
    · exact (Nat.le_add_right _ _).trans (ih hrest)

/-- Later instructions start later. -/
theorem locate_pairwise (offset : Nat) (is : List Instruction) :
    (locate offset is).Pairwise (fun a b => a.1 < b.1) := by
  induction is generalizing offset with
  | nil => exact .nil
  | cons i is ih =>
    refine .cons (fun b hb => ?_) (ih _)
    have hle : offset + i.count ≤ b.1 := le_of_mem_locate (i := b.2) hb
    have hpos := i.count_pos
    omega

/-- The words from where an instruction starts are its own, then others. -/
theorem drop_of_mem_locate (before : List Word) {at' : Nat}
    (h : (at', i) ∈ locate before.length is) :
    ∃ after, (before ++ encode is).drop at' = i.words ++ after := by
  induction is generalizing before with
  | nil => cases h
  | cons j is ih =>
    rcases mem_cons.mp h with heq | hrest
    · cases heq
      exact ⟨encode is, by rw [drop_left, encode_cons]⟩
    · have hlength : before.length + j.count = (before ++ j.words).length := by
        rw [length_append, j.length_words]
      rw [hlength] at hrest
      obtain ⟨after, hafter⟩ := ih _ hrest
      exact ⟨after, by rwa [encode_cons, ← append_assoc]⟩

end Spirv
