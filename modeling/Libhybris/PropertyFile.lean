import Libhybris.BinarySearch
import Libhybris.PropertyCache

/-!
# Properties from build.prop and the command line

`hybris_propcache_find` of `legacy_properties/cache.c`. The array of properties is filled line by
line and sorted at the end. A definition is dropped if a binary search finds its key, but while the
array is filled it is in the order of the file, so that the search can miss a key that is there.
-/
namespace PropertyFile

open BinarySearch PropertyCache List

/-- `struct hybris_prop_value`. -/
structure Definition where
  key : Str
  value : Str
deriving DecidableEq, Repr

/-- The bytes before the terminating zero. -/
def cString (bytes : List UInt8) : Str := bytes.takeWhile (· ≠ 0)

/-- A string is cut where a character first occurs. -/
def cutAt (c : UInt8) (s : Str) : Str := s.takeWhile (· ≠ c)

/-- What follows the first occurrence. -/
def behind (c : UInt8) (s : Str) : Str := (s.dropWhile (· ≠ c)).drop 1

/-! ## The file -/

/-- `fgets` with room for some bytes: up to the end of the line, if there is room. -/
def fgets : Nat → List UInt8 → List UInt8 × List UInt8
  | 0, bytes => ([], bytes)
  | _, [] => ([], [])
  | room + 1, b :: bytes =>
    if b = 10 then ([b], bytes) else (b :: (fgets room bytes).1, (fgets room bytes).2)

/-- What the calls of `fgets` return; each takes a byte at least. -/
def readLines : Nat → List UInt8 → List (List UInt8)
  | 0, _ => []
  | _, [] => []
  | fuel + 1, b :: bytes => (fgets 1023 (b :: bytes)).1 :: readLines fuel (fgets 1023 (b :: bytes)).2

/-- `strtok` with the delimiter "=": a token and what is left. -/
def strtok (s : Str) : Option (Str × Str) :=
  let t := s.dropWhile (· = 61)
  if t = [] then none else some (cutAt 61 t, behind 61 t)

/-- The definition in a line. -/
def lineDefinition (line : List UInt8) : Option Definition := do
  let (key, rest) ← strtok (cutAt 10 (cutAt 13 (cString line)))
  let (value, _) ← strtok rest
  return ⟨key, value⟩

def fileDefinitions (content : List UInt8) : List Definition :=
  (readLines content.length content).filterMap lineDefinition

/-! ## The command line -/

/-- What is read of the command line, without a newline at its end. -/
def commandText (content : List UInt8) : Str :=
  let text := content.take 1023
  cString (if text.getLast? = some 10 then text.dropLast else text)

/-- The words between blanks; each step takes a character at least. -/
def commandWords : Nat → Str → List Str
  | 0, _ => []
  | _, [] => []
  | fuel + 1, c :: s => cutAt 32 (c :: s) :: commandWords fuel (behind 32 (c :: s))

/-- "androidboot." -/
def bootPrefix : Str := [97, 110, 100, 114, 111, 105, 100, 98, 111, 111, 116, 46]

/-- The definition in a word; the name is cut to the room `snprintf` is given. -/
def wordDefinition (word : Str) : Option Definition :=
  if 61 ∉ word then none
  else if bootPrefix.isPrefixOf (cutAt 61 word) ∧ 12 < word.length then
    some ⟨([114, 111, 46] ++ (cutAt 61 word).drop 12).take (propNameMax - 2), behind 61 word⟩
  else none

def commandDefinitions (content : List UInt8) : List Definition :=
  (commandWords (commandText content).length (commandText content)).filterMap wordDefinition

/-! ## The cache -/

/-- `MAX_PROPS` -/
def maxProps : Nat := 1000

/-- `cache_find_internal` -/
def cacheFind (props : List Definition) (key : Str) : Option Definition := find Definition.key props key

def isUsable (d : Definition) : Bool := d.value.length < propValueMax - 1

/-- `cache_add_internal`; none when the program exits. -/
def cacheAdd (props : List Definition) (d : Definition) : Option (List Definition) :=
  if isUsable d = false then some props
  else if (cacheFind props d.key).isSome then some props
  else if maxProps ≤ (props ++ [d]).length then none
  else some (props ++ [d])

def cacheRepopulate (content : List UInt8) (props : List Definition) : Option (List Definition) :=
  (fileDefinitions content).foldlM cacheAdd props

def cacheRepopulateCmdline (content : List UInt8) (props : List Definition) : Option (List Definition) :=
  (commandDefinitions content).foldlM cacheAdd props

structure File where
  inode : Nat
  mtime : Int
  content : List UInt8

structure State where
  inode : Nat
  mtime : Int
  props : List Definition

section Update

variable (qsort : Sorter Definition.key) (cmdline : List UInt8)

/-- `cache_update`; there may be no file. -/
def cacheUpdate (file : Option File) (s : State) : Option State :=
  match file with
  | none => some s
  | some f =>
    if s.inode ≠ f.inode ∨ s.mtime ≠ f.mtime then
      ((cacheRepopulate f.content []).bind (cacheRepopulateCmdline cmdline)).map fun props =>
        ⟨f.inode, f.mtime, qsort.sort props⟩
    else some s

/-- `hybris_propcache_find`. -/
def propcacheFind (file : Option File) (s : State) (key : Str) : Option (State × Option Str) :=
  (cacheUpdate qsort cmdline file s).map fun s => (s, (cacheFind s.props key).map Definition.value)

end Update

/-! ## The definitions in order -/

/-- The usable definitions, those of the file first. -/
def usable (content cmdline : List UInt8) : List Definition :=
  (fileDefinitions content ++ commandDefinitions cmdline).filter isUsable

def firstValue (ds : List Definition) (key : Str) : Option Str :=
  (ds.find? fun d => d.key = key).map Definition.value

/-- What a usable definition does to the array. -/
def add (props : List Definition) (d : Definition) : List Definition :=
  if (cacheFind props d.key).isSome then props else props ++ [d]

/-- Whenever a key is defined again with another value, the search in the array as it is then finds
the key. -/
def Hits : List Definition → List Definition → Prop
  | _, [] => True
  | props, d :: ds => ((∃ e ∈ props, e.key = d.key ∧ e.value ≠ d.value) →
      (cacheFind props d.key).isSome = true) ∧ Hits (add props d) ds

instance decidableHits : (props ds : List Definition) → Decidable (Hits props ds)
  | _, [] => isTrue trivial
  | props, d :: ds =>
    have := decidableHits (add props d) ds
    inferInstanceAs (Decidable (((∃ e ∈ props, e.key = d.key ∧ e.value ≠ d.value) →
      (cacheFind props d.key).isSome = true) ∧ Hits (add props d) ds))

section Fill

variable {props seen ds : List Definition} {d : Definition}

theorem length_add (props : List Definition) (d : Definition) :
    (add props d).length ≤ props.length + 1 := by
  unfold add
  split <;> simp

/-- With room for all of them, the usable definitions are added one by one. -/
theorem foldlM_cacheAdd (hroom : props.length + (ds.filter isUsable).length < maxProps) :
    ds.foldlM cacheAdd props = some ((ds.filter isUsable).foldl add props) := by
  induction ds generalizing props with
  | nil => rfl
  | cons d ds ih =>
    rw [foldlM_cons]
    cases hd : isUsable d with
    | false =>
      rw [filter_cons_of_neg (by simp [hd])] at hroom ⊢
      rw [cacheAdd, if_pos hd]
      exact ih hroom
    | true =>
      rw [filter_cons_of_pos hd] at hroom ⊢
      rw [length_cons] at hroom
      have hadd : cacheAdd props d = some (add props d) := by
        have hlength : ¬ maxProps ≤ (props ++ [d]).length := by
          rw [length_append, length_singleton]
          omega
        unfold cacheAdd add
        simp only [hd, Bool.true_eq_false, if_false, if_neg hlength]
        split <;> rfl
      rw [hadd]
      have hle := length_add props d
      exact ih (by omega)

theorem mem_add_of_mem {e : Definition} (h : e ∈ props) : e ∈ add props d := by
  unfold add
  split
  · exact h
  · exact mem_append_left _ h

theorem mem_foldl_add {e : Definition} (h : e ∈ props) : e ∈ ds.foldl add props := by
  induction ds generalizing props with
  | nil => exact h
  | cons d ds ih => exact ih (mem_add_of_mem h)

theorem firstValue_append (seen : List Definition) (d : Definition) (key : Str) :
    firstValue (seen ++ [d]) key = (firstValue seen key).or
      (if d.key = key then some d.value else none) := by
  rw [firstValue, find?_append, firstValue]
  cases seen.find? fun d => d.key = key with
  | some e => rfl
  | none =>
    by_cases h : d.key = key
    · simp [h]
    · simp [h]

/-- The array while it is filled: every key has an entry, and all entries have the first value. -/
structure First (seen props : List Definition) : Prop where
  value : ∀ e ∈ props, firstValue seen e.key = some e.value
  present : ∀ key, (firstValue seen key).isSome = true → ∃ e ∈ props, e.key = key

theorem First.add (h : First seen props)
    (hhit : (∃ e ∈ props, e.key = d.key ∧ e.value ≠ d.value) → (cacheFind props d.key).isSome = true) :
    First (seen ++ [d]) (add props d) := by
  have hold : ∀ e ∈ props, firstValue (seen ++ [d]) e.key = some e.value := by
    intro e he
    rw [firstValue_append, h.value e he]
    rfl
  have hnew : ∀ key, (firstValue (seen ++ [d]) key).isSome = true → d.key = key ∨ ∃ e ∈ props,
    e.key = key := by
    intro key hkey
    by_cases hd : d.key = key
    · exact .inl hd
    · rw [firstValue_append, if_neg hd, Option.or_none] at hkey
      exact .inr (h.present key hkey)
  unfold PropertyFile.add
  split
  next hfound =>
    refine ⟨hold, fun key hkey => ?_⟩
    rcases hnew key hkey with rfl | hpresent
    · obtain ⟨e, he⟩ := Option.isSome_iff_exists.mp hfound
      obtain ⟨hmem, heq⟩ := find_eq_some he
      exact ⟨e, hmem, heq⟩
    · exact hpresent
  next hmiss =>
    constructor
    · intro e he
      rcases mem_append.mp he with he | he
      · exact hold e he
      · rw [mem_singleton.mp he, firstValue_append, if_pos rfl]
        cases hseen : firstValue seen d.key with
        | none => rfl
        | some v =>
          -- the key is there, and the search missed it, so that the value is the same
          obtain ⟨e', he', hkey⟩ := h.present d.key (by rw [hseen]; rfl)
          have hvalue := h.value e' he'
          rw [hkey, hseen] at hvalue
          by_cases hne : e'.value = d.value
          · rw [← hne, hvalue]
            rfl
          · exact absurd (hhit ⟨e', he', hkey, hne⟩) hmiss
    · intro key hkey
      rcases hnew key hkey with hd | ⟨e, he, heq⟩
      · exact ⟨d, by simp, hd⟩
      · exact ⟨e, mem_append_left _ he, heq⟩

theorem First.foldl (h : First seen props) (hhits : Hits props ds) :
    First (seen ++ ds) (ds.foldl PropertyFile.add props) := by
  induction ds generalizing seen props with
  | nil =>
    rw [append_nil]
    exact h
  | cons d ds ih =>
    have hnext := ih (h.add hhits.1) hhits.2
    rwa [append_assoc] at hnext

theorem First.nil : First [] [] :=
  ⟨forall_mem_nil _, fun _ h => nomatch h⟩

/-- A search that misses leaves two values of one key. -/
theorem exists_two_values (h : ¬ Hits props ds) :
    ∃ e ∈ ds.foldl add props, ∃ e' ∈ ds.foldl add props, e.key = e'.key ∧ e.value ≠ e'.value := by
  induction ds generalizing props with
  | nil => exact absurd trivial h
  | cons d ds ih =>
    by_cases hhit : (∃ e ∈ props, e.key = d.key ∧ e.value ≠ d.value) → (cacheFind props d.key).isSome = true
    · exact ih fun hrest => h ⟨hhit, hrest⟩
    · obtain ⟨⟨e, he, hkey, hvalue⟩, hmiss⟩ := Classical.not_imp.mp hhit
      have hadded : d ∈ add props d := by
        rw [add, if_neg hmiss]
        simp
      rw [foldl_cons]
      exact ⟨e, mem_foldl_add (mem_add_of_mem he), d, mem_foldl_add hadded, hkey, hvalue⟩

end Fill

section
variable {qsort : Sorter Definition.key} {cmdline : List UInt8} {f : File}

/-- The array after the file and the command line. -/
theorem cacheUpdate_stale {s : State}
    (hstale : s.inode ≠ f.inode ∨ s.mtime ≠ f.mtime) (hfew : (usable f.content cmdline).length < maxProps) :
    cacheUpdate qsort cmdline (some f) s =
      some ⟨f.inode, f.mtime, qsort.sort ((usable f.content cmdline).foldl add [])⟩ := by
  have hfill : (cacheRepopulate f.content []).bind (cacheRepopulateCmdline cmdline) =
      some ((usable f.content cmdline).foldl add []) := by
    rw [usable, ← foldlM_cacheAdd (by simpa [usable] using hfew), foldlM_append]
    rfl
  simp only [cacheUpdate, if_pos hstale, hfill, Option.map_some]

theorem propcacheFind_filled (props : List Definition) (key : Str) :
    propcacheFind qsort cmdline (some f) ⟨f.inode, f.mtime, props⟩ key =
      some (⟨f.inode, f.mtime, props⟩, (cacheFind props key).map Definition.value) := by
  simp [propcacheFind, cacheUpdate]

end

/-- Once the cache has been filled, the first usable definition of every key wins, whatever the sort
does with equal keys, exactly if the search finds each key that is defined again with another
value. -/
theorem first_definition_wins {cmdline : List UInt8} {f : File} {s : State}
    (hstale : s.inode ≠ f.inode ∨ s.mtime ≠ f.mtime) (hfew : (usable f.content cmdline).length < maxProps) :
    (∀ qsort, ∃ s', cacheUpdate qsort cmdline (some f) s = some s' ∧ ∀ key,
      propcacheFind qsort cmdline (some f) s' key = some (s', firstValue (usable f.content cmdline) key)) ↔
      Hits [] (usable f.content cmdline) := by
  simp only [cacheUpdate_stale hstale hfew, Option.some.injEq, exists_eq_left',
    propcacheFind_filled, Prod.mk.injEq, true_and]
  constructor
  · intro hfirst
    by_contra hmiss
    obtain ⟨e, he, e', he', hkey, hvalue⟩ := exists_two_values hmiss
    -- some sort makes the search hit either of the two
    have hone : ∀ x ∈ (usable f.content cmdline).foldl add [],
        firstValue (usable f.content cmdline) x.key = some x.value := by
      intro x hx
      obtain ⟨qsort, hhit⟩ : ∃ qsort : Sorter Definition.key,
        find Definition.key (qsort.sort _) x.key = some x :=
        exists_sorter_find hx
      rw [← hfirst qsort x.key, cacheFind, hhit]
      rfl
    have h := hone e he
    rw [hkey, hone e' he'] at h
    exact hvalue (Option.some.inj h).symm
  · intro hhits qsort key
    have hfirst := First.nil.foldl hhits
    rw [nil_append] at hfirst
    have hperm := qsort.perm ((usable f.content cmdline).foldl add [])
    cases hfind : cacheFind (qsort.sort ((usable f.content cmdline).foldl add [])) key with
    | some x =>
      obtain ⟨hx, rfl⟩ := find_eq_some hfind
      exact (hfirst.value x (hperm.mem_iff.mp hx)).symm
    | none =>
      have hnone := (find_eq_none_iff (qsort.sorted _)).mp hfind
      cases hvalue : firstValue (usable f.content cmdline) key with
      | none => rfl
      | some v =>
        obtain ⟨x, hx, hkey⟩ := hfirst.present key (by rw [hvalue]; rfl)
        exact absurd hkey (hnone x (hperm.mem_iff.mpr hx))

/-- "a=1", "b=2", "a=3". -/
def sampleFile : File := ⟨1, 1, [97, 61, 49, 10, 98, 61, 50, 10, 97, 61, 51, 10]⟩

theorem first_definition_wins_sample : (usable sampleFile.content []).length = 3 ∧
    ∀ qsort, ∃ s', cacheUpdate qsort [] (some sampleFile) ⟨0, 0, []⟩ = some s' ∧ ∀ key,
      propcacheFind qsort []
        (some sampleFile) s' key = some (s', firstValue (usable sampleFile.content []) key) :=
  ⟨by decide +kernel,
    (first_definition_wins (.inl (by decide)) (by decide +kernel)).mpr (by decide +kernel)⟩

/-- "b=1", "a=2", "c=3", "b=4". -/
def shadowingFile : File := ⟨1, 1, [98, 61, 49, 10, 97, 61, 50, 10, 99, 61, 51, 10, 98, 61, 52, 10]⟩

/-- The search for "b" in the array b, a, c misses it, and the last definition is found. -/
theorem later_definition_found : (usable shadowingFile.content []).length < maxProps ∧
    firstValue (usable shadowingFile.content []) [98] = some [49] ∧
    (propcacheFind (Sorter.insertion Definition.key) [] (some shadowingFile) ⟨0, 0, []⟩ [98]).map
      Prod.snd = some (some [52]) := by
  decide +kernel

end PropertyFile
