import Mathlib.Data.List.GetD
import Mathlib.Algebra.Group.Nat.Defs

/-!
# Byte-addressed memory

Memory as a function from addresses to bytes, reads of a range and writes of a
list of bytes. A read is determined by the bytes of its range, splits at any
point, and does not see a write to another range.
-/
namespace ByteMemory

open List

abbrev Memory := Nat → UInt8

/-- The `n` bytes from address `a` on. -/
def read (m : Memory) (a n : Nat) : List UInt8 := (List.range n).map (fun i => m (a + i))

/-- Store `bytes` from address `a` on. -/
def write (m : Memory) (a : Nat) (bytes : List UInt8) : Memory :=
  fun x => if a ≤ x ∧ x < a + bytes.length then bytes.getD (x - a) 0 else m x

@[simp] theorem read_zero (m : Memory) (a : Nat) : read m a 0 = [] := rfl

@[simp] theorem length_read (m : Memory) (a n : Nat) : (read m a n).length = n := by
  simp [read]

/-- A range is read in two parts. -/
theorem read_add (m : Memory) (a n k : Nat) : read m a (n + k) = read m a n ++ read m (a + n) k := by
  simp [read, range_add, Nat.add_assoc]

variable {m m' : Memory} {a b n x : Nat}

theorem read_congr (h : ∀ x, a ≤ x → x < a + n → m x = m' x) : read m a n = read m' a n := by
  refine map_congr_left (fun i hi => ?_)
  have hlt : i < n := mem_range.mp hi
  exact h (a + i) (by omega) (by omega)

theorem write_outside (m : Memory) (bytes : List UInt8) (h : x < a ∨ a + bytes.length ≤ x) :
    write m a bytes x = m x := by
  have hout : ¬ (a ≤ x ∧ x < a + bytes.length) := by omega
  simp [write, hout]

@[simp] theorem write_nil (m : Memory) (a : Nat) : write m a [] = m :=
  funext fun _ => write_outside m [] (by simp only [length_nil]; omega)

theorem write_inside (m : Memory) {i : Nat} (bytes : List UInt8) (h : i < bytes.length) :
    write m a bytes (a + i) = bytes.getD i 0 := by
  have hin : a ≤ a + i ∧ a + i < a + bytes.length := by omega
  simp [write, hin]

theorem read_write_self (m : Memory) (a : Nat) (bytes : List UInt8) :
    read (write m a bytes) a bytes.length = bytes := by
  have hbyte : ∀ i ∈ List.range bytes.length, write m a bytes (a + i) = bytes.getD i 0 :=
    fun i hi => write_inside m bytes (mem_range.mp hi)
  rw [read, map_congr_left hbyte]
  refine ext_getElem (by simp) (fun i _ hi => ?_)
  simp [getElem?_eq_getElem hi]

theorem read_eq_iff : read m a n = read m' a n ↔ ∀ x, a ≤ x → x < a + n → m x = m' x := by
  refine ⟨fun h x hx hx' => ?_, read_congr⟩
  have hbyte := congrArg (fun l => l[x - a]?) h
  simpa [read, show x - a < n by omega, show a + (x - a) = x by omega] using hbyte

/-- A range is worked on in a local object and written back. -/
theorem write_back {object : Memory} (hin : ∀ i < n, object i = m' (a + i))
    (hout : ∀ x, x < a ∨ a + n ≤ x → m x = m' x) : write m a (read object 0 n) = m' := by
  funext x
  by_cases hx : a ≤ x ∧ x < a + n
  · obtain ⟨i, rfl⟩ := Nat.exists_eq_add_of_le hx.1
    have hi : i < n := by omega
    rw [write_inside m _ (by rwa [length_read]), ← hin i hi]
    simp [read, hi]
  · rw [write_outside m _ (by rw [length_read]; omega)]
    exact hout x (by omega)

/-- The bytes of a 32-bit word, least significant first. -/
def wordBytes (w : UInt32) : List UInt8 :=
  [UInt8.ofNat w.toNat, UInt8.ofNat (w.toNat / 2 ^ 8), UInt8.ofNat (w.toNat / 2 ^ 16),
    UInt8.ofNat (w.toNat / 2 ^ 24)]

/-- The 32-bit word at address `a`. -/
def readWord (m : Memory) (a : Nat) : UInt32 :=
  UInt32.ofNat ((m a).toNat + 2 ^ 8 * (m (a + 1)).toNat + 2 ^ 16 * (m (a + 2)).toNat +
    2 ^ 24 * (m (a + 3)).toNat)

@[simp] theorem length_wordBytes (w : UInt32) : (wordBytes w).length = 4 := rfl

theorem wordBytes_readWord (m : Memory) (a : Nat) : wordBytes (readWord m a) = read m a 4 := by
  have h0 := (m a).toNat_lt
  have h1 := (m (a + 1)).toNat_lt
  have h2 := (m (a + 2)).toNat_lt
  have h3 := (m (a + 3)).toNat_lt
  simp only [wordBytes, readWord, UInt32.toNat_ofNat', read, range_succ, range_zero,
    nil_append, map_cons, map_nil, cons_append,
    Nat.add_zero, List.cons.injEq, and_true, ← UInt8.toNat_inj, UInt8.toNat_ofNat']
  omega

theorem readWord_congr {n : Memory} (h : ∀ x, a ≤ x → x < a + 4 → m x = n x) :
    readWord m a = readWord n a := by
  unfold readWord
  rw [h a (by omega) (by omega), h (a + 1) (by omega) (by omega), h (a + 2) (by omega) (by omega),
    h (a + 3) (by omega) (by omega)]

/-- Words from address `a` on. -/
def wordsBytes (words : List UInt32) : List UInt8 := words.flatMap wordBytes

@[simp] theorem length_wordsBytes (words : List UInt32) :
    (wordsBytes words).length = 4 * words.length := by
  induction words with
  | nil => rfl
  | cons w rest ih =>
    simp only [wordsBytes, flatMap_cons, length_append, length_wordBytes,
      length_cons] at ih ⊢
    omega

/-- Store words from address `a` on. -/
def writeWords (m : Memory) (a : Nat) (words : List UInt32) : Memory := write m a (wordsBytes words)

section
variable (m : Memory)

theorem writeWords_outside (words : List UInt32) (h : x < a ∨ a + 4 * words.length ≤ x) :
    writeWords m a words x = m x :=
  write_outside m _ (by rw [length_wordsBytes]; exact h)

theorem write_append (a : Nat) (l l' : List UInt8) :
    write m a (l ++ l') = write (write m (a + l.length) l') a l := by
  funext x
  by_cases hx : a ≤ x ∧ x < a + l.length
  · have hall : a ≤ x ∧ x < a + (l.length + l'.length) := by omega
    simp only [write, length_append, if_pos hx, if_pos hall]
    exact getD_append l l' _ (x - a) (by omega)
  · by_cases hx' : a + l.length ≤ x ∧ x < a + l.length + l'.length
    · have hall : a ≤ x ∧ x < a + (l.length + l'.length) := by omega
      simp only [write, length_append, if_neg hx, if_pos hx', if_pos hall]
      rw [getD_append_right l l' _ (x - a) (by omega), Nat.sub_sub]
    · have hnone : ¬(a ≤ x ∧ x < a + (l.length + l'.length)) := by omega
      simp only [write, length_append, if_neg hx, if_neg hx', if_neg hnone]

/-- Writes to ranges without a common byte commute. -/
theorem write_comm {l l' : List UInt8} (h : a + l.length ≤ b ∨ b + l'.length ≤ a) :
    write (write m a l) b l' = write (write m b l') a l := by
  funext x
  by_cases hx : a ≤ x ∧ x < a + l.length
  · have hx' : ¬(b ≤ x ∧ x < b + l'.length) := by omega
    simp only [write, if_pos hx, if_neg hx']
  · simp only [write, if_neg hx]

/-- A write in two parts, the first part first. -/
theorem write_write (a : Nat) (l l' : List UInt8) :
    write (write m a l) (a + l.length) l' = write m a (l ++ l') := by
  rw [write_comm m (.inl (Nat.le_refl _)), write_append]

/-- A memory seen from another origin. -/
theorem write_shift (b a : Nat) (l : List UInt8) :
    (fun x => write m (b + a) l (b + x)) = write (fun x => m (b + x)) a l := by
  funext x
  by_cases hx : a ≤ x ∧ x < a + l.length
  · have hx' : b + a ≤ b + x ∧ b + x < b + a + l.length := by omega
    simp only [write, if_pos hx, if_pos hx', show b + x - (b + a) = x - a by omega]
  · have hx' : ¬(b + a ≤ b + x ∧ b + x < b + a + l.length) := by omega
    simp only [write, if_neg hx, if_neg hx']

theorem readWord_write_wordBytes (a : Nat) (w : UInt32) :
    readWord (write m a (wordBytes w)) a = w := by
  have hlt := w.toNat_lt
  have hbyte : ∀ i, i < 4 → write m a (wordBytes w) (a + i) = (wordBytes w).getD i 0 :=
    fun i hi => write_inside m _ hi
  have h0 := hbyte 0 (by omega)
  rw [Nat.add_zero] at h0
  unfold readWord
  rw [h0, hbyte 1 (by omega), hbyte 2 (by omega), hbyte 3 (by omega)]
  simp only [wordBytes, getD_cons_zero, getD_cons_succ, UInt8.toNat_ofNat',
    ← UInt32.toNat_inj, UInt32.toNat_ofNat']
  omega

theorem readWord_writeWords {i : Nat} {words : List UInt32} {w : UInt32}
    (h : words[i]? = some w) : readWord (writeWords m a words) (a + 4 * i) = w := by
  induction words generalizing a i with
  | nil => simp at h
  | cons v rest ih =>
    have hsplit : writeWords m a (v :: rest) =
        write (writeWords m (a + 4) rest) a (wordBytes v) := by
      exact write_append m a _ _
    cases i with
    | zero =>
      obtain rfl : v = w := by simpa using h
      rw [hsplit]
      exact readWord_write_wordBytes _ a v
    | succ i =>
      rw [hsplit, readWord_congr (n := writeWords m (a + 4) rest)
        (fun x hx _ => write_outside _ _ (by rw [length_wordBytes]; omega)),
        show a + 4 * (i + 1) = a + 4 + 4 * i by omega]
      exact ih (by simpa using h)

end

/-- The 64-bit word at address `a`. -/
def readDword (m : Memory) (a : Nat) : UInt64 :=
  UInt64.ofNat ((readWord m a).toNat + 2 ^ 32 * (readWord m (a + 4)).toNat)

/-- The halves of a 64-bit word, least significant first. -/
def dwordWords (v : UInt64) : List UInt32 :=
  [UInt32.ofNat v.toNat, UInt32.ofNat (v.toNat / 2 ^ 32)]

def writeDword (m : Memory) (a : Nat) (v : UInt64) : Memory := writeWords m a (dwordWords v)

def dwordBytes (v : UInt64) : List UInt8 := wordsBytes (dwordWords v)

theorem writeDword_outside (m : Memory) (v : UInt64) (h : x < a ∨ a + 8 ≤ x) : writeDword m a v x = m x :=
  writeWords_outside m (dwordWords v) h

theorem readDword_congr {n : Memory} (h : ∀ x, a ≤ x → x < a + 8 → m x = n x) :
    readDword m a = readDword n a := by
  unfold readDword
  rw [readWord_congr (m := m) (n := n) fun x hx hx' => h x hx (by omega),
    readWord_congr (m := m) (n := n) fun x hx hx' => h x (by omega) (by omega)]

theorem readWord_eq_zero_iff (m : Memory) (a : Nat) :
    readWord m a = 0 ↔ ∀ x, a ≤ x → x < a + 4 → m x = 0 := by
  constructor
  · intro h x hx hx'
    have hbytes := wordBytes_readWord m a
    rw [h] at hbytes
    have hmem : m x ∈ wordBytes 0 := by
      rw [hbytes]
      exact mem_map.mpr ⟨x - a, mem_range.mpr (by omega), congrArg m (by omega)⟩
    simpa [wordBytes] using hmem
  · intro h
    rw [readWord_congr (n := fun _ => 0) h]
    rfl

/-- A 64-bit word is zero when its bytes are. -/
theorem readDword_eq_zero_iff (m : Memory) (a : Nat) :
    readDword m a = 0 ↔ ∀ x, a ≤ x → x < a + 8 → m x = 0 := by
  constructor
  · intro h x hx hx'
    have hlow := (readWord m a).toNat_lt
    have hhigh := (readWord m (a + 4)).toNat_lt
    have hsum : ((readWord m a).toNat + 2 ^ 32 * (readWord m (a + 4)).toNat) % 2 ^ 64 = 0 := by
      have := congrArg UInt64.toNat h
      simpa only [readDword, UInt64.toNat_ofNat', UInt64.toNat_zero] using this
    by_cases hx4 : x < a + 4
    · exact (readWord_eq_zero_iff m a).mp (UInt32.toNat_inj.mp (by simp; omega)) x hx hx4
    · exact (readWord_eq_zero_iff m (a + 4)).mp (UInt32.toNat_inj.mp (by simp; omega)) x
        (by omega) (by omega)
  · intro h
    rw [readDword_congr (n := fun _ => 0) h]
    rfl

theorem readDword_of_words {v : UInt64} (h : readWord m a = UInt32.ofNat v.toNat)
    (h' : readWord m (a + 4) = UInt32.ofNat (v.toNat / 2 ^ 32)) : readDword m a = v := by
  have hlt := v.toNat_lt
  unfold readDword
  rw [h, h']
  simp only [← UInt64.toNat_inj, UInt64.toNat_ofNat', UInt32.toNat_ofNat']
  omega

theorem readDword_writeDword (m : Memory) (a : Nat) (v : UInt64) :
    readDword (writeDword m a v) a = v :=
  readDword_of_words (readWord_writeWords m (i := 0) rfl) (readWord_writeWords m (i := 1) rfl)

theorem readDword_writeDword_apart (m : Memory) (v : UInt64) (h : a + 8 ≤ b ∨ b + 8 ≤ a) :
    readDword (writeDword m b v) a = readDword m a :=
  readDword_congr (fun _ _ _ => writeDword_outside m v (by omega))

theorem readDword_shift (m : Memory) (b a : Nat) :
    readDword (fun x => m (b + x)) a = readDword m (b + a) := by
  simp only [readDword, readWord, Nat.add_assoc]

end ByteMemory
