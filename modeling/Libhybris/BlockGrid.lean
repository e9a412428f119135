import Libhybris.ByteMemory
import Mathlib.Tactic

/-!
# Copies of blocks between two memories

A list of copies takes bytes from one memory into another. When the targets do not overlap every
copied byte arrives, whatever the order; when the sources do not overlap either, the same copies
turned round bring the bytes back. Blocks that are laid out with strides for slices and rows do not
overlap, because their addresses grow in the order of the indices.
-/
namespace BlockGrid

open ByteMemory List

structure Copy where
  src : Nat
  dst : Nat
  size : Nat
deriving DecidableEq, Repr

def Copy.swap (c : Copy) : Copy := ⟨c.dst, c.src, c.size⟩

/-- The copies in order, from `m` into `m'`. -/
def copyAll (m m' : Memory) (cs : List Copy) : Memory :=
  cs.foldl (fun m' c => write m' c.dst (read m c.src c.size)) m'

theorem copyAll_append (m m' : Memory) (cs cs' : List Copy) :
    copyAll m m' (cs ++ cs') = copyAll m (copyAll m m' cs) cs' := foldl_append

theorem copyAll_cons (m m' : Memory) (c : Copy) (cs : List Copy) :
    copyAll m m' (c :: cs) = copyAll m (write m' c.dst (read m c.src c.size)) cs := rfl

variable {m m' : Memory} {cs : List Copy} {c : Copy}

theorem copyAll_outside {a : Nat} (h : ∀ c ∈ cs, a < c.dst ∨ c.dst + c.size ≤ a) :
    copyAll m m' cs a = m' a := by
  induction cs generalizing m' with
  | nil => rfl
  | cons c cs ih =>
    rw [copyAll_cons, ih fun c' hc' => h c' (mem_cons_of_mem c hc')]
    apply write_outside
    rw [length_read]
    exact h c mem_cons_self

/-- The byte `i` of the copy arrives, because the later copies do not touch it. -/
theorem copyAll_inside (hapart : cs.Pairwise fun c d => c.dst + c.size ≤ d.dst ∨ d.dst + d.size ≤ c.dst)
    (hc : c ∈ cs) {i : Nat} (hi : i < c.size) : copyAll m m' cs (c.dst + i) = m (c.src + i) := by
  induction cs generalizing m' with
  | nil => cases hc
  | cons d cs ih =>
    obtain ⟨hd, hcs⟩ := pairwise_cons.mp hapart
    rw [copyAll_cons]
    rcases mem_cons.mp hc with rfl | hc
    · rw [copyAll_outside fun e he => ?_, write_inside _ _ (by rwa [length_read])]
      · simp [ByteMemory.read, List.getD, hi]
      · have hapart' := hd e he
        omega
    · exact ih hcs hc

/-- There and back again. -/
theorem copyAll_swap {m'' : Memory}
    (hdst : cs.Pairwise fun c d => c.dst + c.size ≤ d.dst ∨ d.dst + d.size ≤ c.dst)
    (hsrc : cs.Pairwise fun c d => c.src + c.size ≤ d.src ∨ d.src + d.size ≤ c.src) (hc : c ∈ cs) {i : Nat}
    (hi : i < c.size) : copyAll (copyAll m m' cs) m'' (cs.map Copy.swap) (c.src + i) = m (c.src + i) := by
  calc copyAll (copyAll m m' cs) m'' (cs.map Copy.swap) (c.swap.dst + i)
      = copyAll m m' cs (c.swap.src + i) :=
        copyAll_inside (pairwise_map.mpr hsrc) (mem_map_of_mem hc) hi
    _ = m (c.src + i) := copyAll_inside hdst hc hi

/-! ## Cutting copies into blocks -/

/-- A copy block by block. -/
def Copy.blocks (b : Nat) (c : Copy) : List Copy :=
  (List.range (c.size / b)).map fun k => ⟨c.src + k * b, c.dst + k * b, b⟩

theorem copyAll_range (m m' : Memory) (b src dst n : Nat) :
    copyAll m m' ((List.range n).map fun k => ⟨src + k * b, dst + k * b, b⟩) =
      write m' dst (read m src (n * b)) := by
  induction n with
  | zero => rw [Nat.zero_mul, read_zero, write_nil]; rfl
  | succ n ih =>
    rw [range_succ, map_append, copyAll_append, ih, Nat.succ_mul, read_add, write_append,
      length_read]
    change write (write m' dst (read m src (n * b))) (dst + n * b) (read m (src + n * b) b) = _
    exact write_comm _ (by rw [length_read]; omega)

theorem copyAll_blocks {b : Nat} (h : b ∣ c.size) :
    copyAll m m' (c.blocks b) = write m' c.dst (read m c.src c.size) := by
  rw [Copy.blocks, copyAll_range, Nat.div_mul_cancel h]

theorem copyAll_flatMap_blocks {b : Nat} (h : ∀ c ∈ cs, b ∣ c.size) :
    copyAll m m' (cs.flatMap (Copy.blocks b)) = copyAll m m' cs := by
  induction cs generalizing m' with
  | nil => rfl
  | cons c cs ih =>
    rw [flatMap_cons, copyAll_append, copyAll_blocks (h c mem_cons_self)]
    exact ih fun c' hc' => h c' (mem_cons_of_mem c hc')

/-! ## Strided layouts -/

/-- Blocks at multiples of a slice and a row stride from a base. -/
structure Layout where
  base : Nat
  slice : Nat
  row : Nat
deriving DecidableEq, Repr

variable {l : Layout} {b slices rows cols : Nat}

/-- The first byte of block `c` of row `r` of slice `s`. -/
def Layout.at (l : Layout) (b s r c : Nat) : Nat := l.base + s * l.slice + r * l.row + c * b

/-- The rows hold their blocks, and the slices their rows. -/
structure Layout.Fits (l : Layout) (b rows cols : Nat) : Prop where
  row : cols * b ≤ l.row
  slice : rows * l.row ≤ l.slice

/-- Slices, rows and columns, the columns fastest. -/
def grid (slices rows cols : Nat) : List (Nat × Nat × Nat) :=
  (List.range slices).flatMap fun s => (List.range rows).flatMap fun r =>
    (List.range cols).map fun c => (s, r, c)

theorem mem_grid {p : Nat × Nat × Nat} :
    p ∈ grid slices rows cols ↔ p.1 < slices ∧ p.2.1 < rows ∧ p.2.2 < cols := by
  obtain ⟨s, r, c⟩ := p
  simp only [grid, mem_flatMap, mem_map, mem_range, Prod.mk.injEq]
  constructor
  · rintro ⟨s', hs, r', hr, c', hc, rfl, rfl, rfl⟩
    exact ⟨hs, hr, hc⟩
  · rintro ⟨hs, hr, hc⟩
    exact ⟨s, hs, r, hr, c, hc, rfl, rfl, rfl⟩

theorem Layout.Fits.row_end (h : l.Fits b rows cols) (r : Nat) {c : Nat} (hc : c < cols) :
    r * l.row + c * b + b ≤ (r + 1) * l.row := by
  have hcols : (c + 1) * b ≤ cols * b := Nat.mul_le_mul_right b hc
  have hrow := h.row
  rw [Nat.succ_mul] at hcols ⊢
  omega

theorem Layout.Fits.slice_end (h : l.Fits b rows cols) {r c : Nat} (hr : r < rows) (hc : c < cols) :
    r * l.row + c * b + b ≤ l.slice :=
  calc r * l.row + c * b + b ≤ (r + 1) * l.row := h.row_end r hc
    _ ≤ rows * l.row := Nat.mul_le_mul_right l.row hr
    _ ≤ l.slice := h.slice

/-- A block ends before the next one in the order of the grid starts. -/
theorem Layout.Fits.pairwise (h : l.Fits b rows cols) (slices : Nat) :
    (grid slices rows cols).Pairwise fun p q =>
      l.at b p.1 p.2.1 p.2.2 + b ≤ l.at b q.1 q.2.1 q.2.2 := by
  refine pairwise_flatMap.mpr ⟨fun s _ => pairwise_flatMap.mpr ⟨fun r hr => ?_, ?_⟩, ?_⟩
  · refine pairwise_map.mpr (pairwise_lt_range.imp fun {c c'} hc => ?_)
    have hle : (c + 1) * b ≤ c' * b := Nat.mul_le_mul_right b hc
    rw [Nat.succ_mul] at hle
    simp only [Layout.at]
    omega
  · refine pairwise_lt_range.imp_of_mem fun {r r'} hr hr' hlt p hp q hq => ?_
    obtain ⟨c, hc, rfl⟩ := mem_map.mp hp
    obtain ⟨c', -, rfl⟩ := mem_map.mp hq
    have hend := h.row_end r (mem_range.mp hc)
    have hle : (r + 1) * l.row ≤ r' * l.row := Nat.mul_le_mul_right l.row hlt
    simp only [Layout.at]
    omega
  · refine pairwise_lt_range.imp fun {s s'} hlt p hp q hq => ?_
    obtain ⟨r, hr, hp⟩ := mem_flatMap.mp hp
    obtain ⟨c, hc, rfl⟩ := mem_map.mp hp
    obtain ⟨r', -, hq⟩ := mem_flatMap.mp hq
    obtain ⟨c', -, rfl⟩ := mem_map.mp hq
    have hend := h.slice_end (mem_range.mp hr) (mem_range.mp hc)
    have hle : (s + 1) * l.slice ≤ s' * l.slice := Nat.mul_le_mul_right l.slice hlt
    rw [Nat.succ_mul] at hle
    simp only [Layout.at]
    omega

/-- The copies of all blocks from one layout to another. -/
def gridCopies (source target : Layout) (b slices rows cols : Nat) : List Copy :=
  (grid slices rows cols).map fun p =>
    ⟨source.at b p.1 p.2.1 p.2.2, target.at b p.1 p.2.1 p.2.2, b⟩

theorem gridCopies_dst {source target : Layout} (h : target.Fits b rows cols) :
    (gridCopies source target b slices rows cols).Pairwise fun c d =>
      c.dst + c.size ≤ d.dst ∨ d.dst + d.size ≤ c.dst :=
  pairwise_map.mpr ((h.pairwise slices).imp .inl)

theorem gridCopies_src {source target : Layout} (h : source.Fits b rows cols) :
    (gridCopies source target b slices rows cols).Pairwise fun c d =>
      c.src + c.size ≤ d.src ∨ d.src + d.size ≤ c.src :=
  pairwise_map.mpr ((h.pairwise slices).imp .inl)

end BlockGrid
