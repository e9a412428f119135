import Mathlib.Data.List.Perm.Basic

/-!
# The scandir hook

`_hybris_hook_scandirat` of `common/hooks.c`: the host lists the directory without a filter, the
hook copies the entries its filter accepts and sorts the copies. What the host has allocated is
never freed, and its result is looked at even if the host has failed and left the pointer as it was.
-/
namespace ScanDir

open List

/-- `struct dirent` of the host. -/
structure Dirent where
  ino : UInt64
  off : Int64
  reclen : UInt16
  type : UInt8
  name : List UInt8
deriving DecidableEq, Repr

/-- `struct bionic_dirent`, with a name of up to 255 bytes. -/
structure BionicDirent where
  ino : UInt64
  off : Int64
  reclen : UInt16
  type : UInt8
  name : List UInt8
deriving DecidableEq, Repr

def convert (d : Dirent) : BionicDirent := ⟨d.ino, d.off, d.reclen, d.type, d.name.take 255⟩

/-- A comparison that is a total preorder, and what `qsort` makes of a list with it. -/
structure Compar where
  le : BionicDirent → BionicDirent → Prop
  total : ∀ a b, le a b ∨ le b a
  trans : ∀ a b c, le a b → le b c → le a c
  qsort : List BionicDirent → List BionicDirent
  perm : ∀ l, (qsort l).Perm l
  sorted : ∀ l, (qsort l).Pairwise le

/-- The order of the names' bytes, with a merge sort for `qsort`. -/
def Compar.byName : Compar where
  le a b := a.name ≤ b.name
  total a b := List.le_total a.name b.name
  trans _ _ _ := List.le_trans
  qsort l := l.mergeSort fun a b => a.name ≤ b.name
  perm l := mergeSort_perm l _
  sorted l := (pairwise_mergeSort (by simpa using fun _ _ _ => List.le_trans)
    (by simpa using fun _ _ => List.le_total _ _) l).imp of_decide_eq_true

/-- The host's answer, and whether its pointer is other than null: after a failure, by chance. -/
inductive Host where
  | failed (pointer : Bool)
  | listed (entries : List Dirent) (pointer : Bool)

structure Env where
  host : Host
  filter : Option (BionicDirent → Bool)
  compar : Option Compar
  /-- whether the allocation of the array, and of each copy, succeeds -/
  malloc : Option Nat → Bool

inductive Object where
  | hostArray
  | hostEntry (i : Nat)
  | array
  | entry (i : Nat)
deriving DecidableEq, Repr

/-- The result of a call and what became of the objects. -/
structure Outcome where
  ret : Int
  namelist : Option (List BionicDirent)
  allocated : List Object
  freed : List Object
  handed : List Object
  /-- `free` was called with something that is no object -/
  wild : Bool

def Env.accepts (env : Env) (d : Dirent) : Bool := (env.filter.getD fun _ => true) (convert d)

def hostObjects (entries : List Dirent) : List Object :=
  .hostArray :: (List.range entries.length).map .hostEntry

/-- The loop from entry `i` on; `kept` are the entries of the array so far. -/
def loop (env : Env) : List Dirent → Nat → List (Nat × BionicDirent) → Outcome → Outcome
  | [], _, kept, o =>
    let copies := kept.map Prod.snd
    { o with
      ret := kept.length
      namelist := some (match env.compar with
        | some c => c.qsort copies
        | none => copies)
      handed := .array :: kept.map fun p => .entry p.1 }
  | d :: rest, i, kept, o =>
    if env.malloc (some i) = false then
      -- as many slots are freed as entries were looked at
      { o with
        ret := -1, freed := .array :: (kept.map fun p => .entry p.1) ++ o.freed
        wild := kept.length < i }
    else
      let o := { o with allocated := .entry i :: o.allocated }
      if env.accepts d then loop env rest (i + 1) (kept ++ [(i, convert d)]) o
      else loop env rest (i + 1) kept { o with freed := .entry i :: o.freed }

def scandirat (env : Env) : Outcome :=
  match env.host with
  -- the size of the array is a negative number of entries, which no allocation satisfies
  | .failed pointer => ⟨if pointer then -1 else 0, none, [], [], [], false⟩
  | .listed [] pointer => ⟨0, none, if pointer then [.hostArray] else [], [], [], false⟩
  | .listed (d :: rest) _ =>
    if env.malloc none = false then ⟨-1, none, hostObjects (d :: rest), [], [], false⟩
    else loop env (d :: rest) 0 [] ⟨0, none, .array :: hostObjects (d :: rest), [], [], false⟩

/-- The array holds the accepted entries, sorted if there is a comparison. -/
def Env.Lists (env : Env) (entries : List Dirent) (o : Outcome) : Prop :=
  let accepted := (entries.filter env.accepts).map convert
  o.ret = accepted.length ∧ ∃ l, o.namelist = some l ∧
    match env.compar with
    | some c => l.Perm accepted ∧ l.Pairwise c.le
    | none => l = accepted

/-- A failure of the host is reported, the accepted entries are listed unless an allocation failed,
and every object is freed or handed to the caller, once. -/
structure Exact (env : Env) (o : Outcome) : Prop where
  result : match env.host with
    | .failed _ => o.ret = -1
    | .listed entries _ => (o.ret = -1 ∧ ∃ k, env.malloc k = false) ∨ env.Lists entries o
  objects : ∀ x, o.freed.count x + o.handed.count x = if x ∈ o.allocated then 1 else 0
  wild : o.wild = false

section
variable (env : Env) (entries : List Dirent) (i : Nat) (kept : List (Nat × BionicDirent)) (o : Outcome)

theorem loop_lists (hmalloc : ∀ k, env.malloc k = true) :
    let copies := kept.map Prod.snd ++ (entries.filter env.accepts).map convert
    (loop env entries i kept o).ret = copies.length ∧ ∃ l,
      (loop env entries i kept o).namelist = some l ∧ match env.compar with
      | some c => l.Perm copies ∧ l.Pairwise c.le
      | none => l = copies := by
  induction entries generalizing i kept o with
  | nil =>
    simp only [loop, filter_nil, map_nil, append_nil, length_map]
    cases env.compar with
    | none => exact ⟨trivial, _, rfl, rfl⟩
    | some c => exact ⟨trivial, _, rfl, c.perm _, c.sorted _⟩
  | cons d rest ih =>
    simp only [loop, hmalloc, Bool.true_eq_false, if_false]
    by_cases hd : env.accepts d = true
    · simpa [hd] using ih (i + 1) (kept ++ [(i, convert d)]) _
    · simpa [hd] using ih (i + 1) kept _

/-- The host's entries stay where they are. -/
theorem loop_hostEntry (j : Nat) (hmem : .hostEntry j ∈ o.allocated) (hfreed : .hostEntry j ∉ o.freed)
    (hhanded : .hostEntry j ∉ o.handed) : .hostEntry j ∈ (loop env entries i kept o).allocated ∧
      .hostEntry j ∉ (loop env entries i kept o).freed ∧
        .hostEntry j ∉ (loop env entries i kept o).handed := by
  induction entries generalizing i kept o with
  | nil => simp [loop, hmem, hfreed]
  | cons d rest ih =>
    simp only [loop]
    split
    · simp [hmem, hfreed, hhanded]
    · split <;> exact ih _ _ _ (by simp [hmem]) (by simp [hfreed]) hhanded

end

/-- The hook lists a directory as it should if no allocation fails, but it keeps its promises only
if the host has failed and the pointer was not null before. -/
theorem scandirat_exact_iff (env : Env) :
    (∀ d rest pointer, env.host = .listed (d :: rest) pointer → (∀ k, env.malloc k = true) →
      env.Lists (d :: rest) (scandirat env)) ∧
    (Exact env (scandirat env) ↔ env.host = .failed true) := by
  refine ⟨fun d rest pointer hhost hmalloc => ?_, fun h => ?_, fun hhost => ?_⟩
  · simp only [scandirat, hhost, hmalloc, Bool.true_eq_false, if_false]
    simpa [Env.Lists] using loop_lists env (d :: rest) 0 [] _ hmalloc
  · have hresult := h.result
    cases hhost : env.host with
    | failed pointer =>
      cases pointer with
      | true => rfl
      | false => simp [scandirat, hhost] at hresult
    | listed entries pointer =>
      cases entries with
      | nil => simp [scandirat, hhost, Env.Lists] at hresult
      | cons d rest =>
        have hobject := h.objects (.hostEntry 0)
        simp only [scandirat, hhost] at hobject
        split at hobject
        · simp [hostObjects] at hobject
        · obtain ⟨hmem, hfreed, hhanded⟩ := loop_hostEntry env (d :: rest) 0 []
            ⟨0, none, .array :: hostObjects (d :: rest), [], [], false⟩ 0 (by simp [hostObjects])
            not_mem_nil not_mem_nil
          rw [if_pos hmem, count_eq_zero.mpr hfreed, count_eq_zero.mpr hhanded] at hobject
          cases hobject
  · refine ⟨?_, fun x => ?_, ?_⟩ <;> simp [scandirat, hhost]

def sampleEntry : Dirent := ⟨1, 2, 24, 4, [46]⟩

/-- One entry is listed and handed over, and the host's array and entry are lost. -/
theorem host_entries_lost : ∃ env : Env, env.host = .listed [sampleEntry] true ∧
    (scandirat env).allocated = [.entry 0, .array, .hostArray, .hostEntry 0] ∧
      (scandirat env).freed = [] ∧ (scandirat env).handed = [.array, .entry 0] ∧
        ¬ Exact env (scandirat env) := by
  refine ⟨⟨.listed [sampleEntry] true, none, some .byName, fun _ => true⟩, rfl, rfl, rfl, rfl, fun h => ?_⟩
  exact absurd (h.objects .hostArray) (by decide)

end ScanDir
