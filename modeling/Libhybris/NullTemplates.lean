import Libhybris.NullStandIns

/-!
# Template data

The size recorded for a template covers every element of its data, so that the
loops of `prepare_template` and `fix_template_data` stay inside it. Together they
hand the driver a copy in which the null elements have been replaced one after
another.
-/
namespace NullDescriptors

open ByteMemory List

/-! ## The recorded size -/

/-- Each element of the entry lies below `size`. -/
structure Entry.Inside (e : Entry) (size : Nat) : Prop where
  known : 0 < e.descriptorCount.toNat → templateElementSize e.descriptorType ≠ 0
  below : ∀ j < e.descriptorCount.toNat,
    e.offset.toNat + j * e.step.toNat + (templateElementSize e.descriptorType).toNat ≤ size

variable {j left size : Nat} {entries : List Entry} {m m' target : Memory} {xs : List Element} {e : Entry}

theorem Entry.Inside.mono {size' : Nat} (h : e.Inside size) (hle : size ≤ size') : e.Inside size' :=
  ⟨h.known, fun j hj => (h.below j hj).trans hle⟩

/-- The check leaves no room for a sum that wraps. -/
theorem measureEntry_exact (hcount : e.descriptorCount ≠ 0)
    (hoffset : ¬ sizeMax - templateElementSize e.descriptorType < e.offset)
    (hstep : ¬ (1 < e.descriptorCount ∧
      (sizeMax - e.offset - templateElementSize e.descriptorType) / (e.count - 1) < e.step)) :
    (e.offset + (e.count - 1) * e.step + templateElementSize e.descriptorType).toNat =
      e.offset.toNat + (e.descriptorCount.toNat - 1) * e.step.toNat +
        (templateElementSize e.descriptorType).toNat := by
  generalize templateElementSize e.descriptorType = size at *
  generalize e.step = step at *
  generalize e.offset = offset at *
  have hcount' : 0 < e.descriptorCount.toNat := by
    rcases Nat.eq_zero_or_pos e.descriptorCount.toNat with h | h
    · exact absurd (UInt32.toNat_inj.mp h) hcount
    · exact h
  have hmax : sizeMax.toNat = 2 ^ 64 - 1 := rfl
  have hsize : size.toNat < 2 ^ 64 := size.toNat_lt
  have hcountNat : e.count.toNat = e.descriptorCount.toNat := UInt32.toNat_toUInt64 _
  have hless : (e.count - 1).toNat = e.descriptorCount.toNat - 1 := by
    rw [UInt64.toNat_sub_of_le _ _ (UInt64.le_iff_toNat_le.mpr (by rw [hcountNat]; exact hcount')),
      hcountNat]
    rfl
  have hroom : (sizeMax - size).toNat = 2 ^ 64 - 1 - size.toNat := by
    rw [UInt64.toNat_sub_of_le _ _ (UInt64.le_iff_toNat_le.mpr (by omega)), hmax]
  rw [UInt64.lt_iff_toNat_lt] at hoffset
  have hrest : (sizeMax - offset - size).toNat = 2 ^ 64 - 1 - offset.toNat - size.toNat := by
    have hfirst : (sizeMax - offset).toNat = 2 ^ 64 - 1 - offset.toNat := by
      rw [UInt64.toNat_sub_of_le _ _ (UInt64.le_iff_toNat_le.mpr (by omega)), hmax]
    rw [UInt64.toNat_sub_of_le _ _ (UInt64.le_iff_toNat_le.mpr (by omega)), hfirst]
  have hproduct : (e.descriptorCount.toNat - 1) * step.toNat ≤
      2 ^ 64 - 1 - offset.toNat - size.toNat := by
    by_cases hone : e.descriptorCount.toNat = 1
    · simp [hone]
    · have hmany : 1 < e.descriptorCount := UInt32.lt_iff_toNat_lt.mpr (by
        change 1 < e.descriptorCount.toNat
        omega)
      have hdiv : ¬ (sizeMax - offset - size) / (e.count - 1) < step := fun h => hstep ⟨hmany, h⟩
      rw [UInt64.lt_iff_toNat_lt, UInt64.toNat_div, hrest, hless, Nat.not_lt] at hdiv
      rw [Nat.mul_comm]
      exact (Nat.le_div_iff_mul_le (by omega)).mp hdiv
  rw [UInt64.toNat_add, UInt64.toNat_add, UInt64.toNat_mul, hless]
  omega

theorem measureEntry_spec {size size' : UInt64} (h : measureEntry size e = some size') :
    size.toNat ≤ size'.toNat ∧ e.Inside size'.toNat := by
  unfold measureEntry at h
  dsimp only at h
  split at h
  case isTrue hzero =>
    cases h
    have hnone : e.descriptorCount.toNat = 0 := by rw [hzero]; rfl
    exact ⟨Nat.le_refl _, by omega, by omega⟩
  case isFalse hcount =>
  split at h
  case isTrue => cases h
  case isFalse hcheck =>
  simp only [not_or] at hcheck
  obtain ⟨hknown, hoffset, hstep⟩ := hcheck
  have htop := measureEntry_exact hcount hoffset hstep
  generalize e.offset + (e.count - 1) * e.step + templateElementSize e.descriptorType = top at h htop
  have hle : size.toNat ≤ size'.toNat ∧ top.toNat ≤ size'.toNat := by
    split at h
    case isTrue hlt => cases h; exact ⟨Nat.le_of_lt (UInt64.lt_iff_toNat_lt.mp hlt), Nat.le_refl _⟩
    case isFalse hlt =>
      cases h
      rw [UInt64.lt_iff_toNat_lt] at hlt
      exact ⟨Nat.le_refl _, by omega⟩
  refine ⟨hle.1, fun _ => hknown, fun j hj => ?_⟩
  have hmul : j * e.step.toNat ≤ (e.descriptorCount.toNat - 1) * e.step.toNat :=
    Nat.mul_le_mul_right _ (by omega)
  omega

theorem measureEntries_spec {size size' : UInt64} (h : measureEntries size entries = some size') :
    size.toNat ≤ size'.toNat ∧ ∀ e ∈ entries, e.Inside size'.toNat := by
  induction entries generalizing size with
  | nil =>
    cases h
    exact ⟨Nat.le_refl _, fun e he => nomatch he⟩
  | cons e rest ih =>
    rw [measureEntries] at h
    split at h
    case h_1 => cases h
    case h_2 size₁ hfirst =>
    have hspec := measureEntry_spec hfirst
    obtain ⟨hle, hrest⟩ := ih h
    refine ⟨hspec.1.trans hle, fun e' he' => ?_⟩
    rcases mem_cons.mp he' with rfl | he'
    · exact hspec.2.mono hle
    · exact hrest e' he'

theorem Template.inside (t : Template) (he : e ∈ t.entries) : e.Inside t.dataSize.toNat :=
  (measureEntries_spec t.measured).2 e he

/-- The address of an element does not wrap either. -/
theorem Entry.Inside.elementOffset (h : e.Inside size) (hsize : size < 2 ^ 64)
    (htype : e.descriptorType ≠ .inlineUniformBlock) (hj : j < e.descriptorCount.toNat) :
    e.elementOffset j = e.offset.toNat + j * e.step.toNat := by
  have hbelow := h.below j hj
  have hstep : e.step = e.stride := if_neg htype
  have hcount := e.descriptorCount.toNat_lt
  rw [hstep] at hbelow ⊢
  rw [Entry.elementOffset, UInt64.toNat_add, UInt64.toNat_mul, UInt64.toNat_ofNat',
    Nat.mod_eq_of_lt (show j < 2 ^ 64 by omega)]
  omega

/-! ## The elements of a template -/

/-- Memory as it is seen through a pointer. -/
def region (memory : Space → Memory) (p : Pointer) : Memory := fun x => memory p.space (p.addr + x)

theorem region_congr {memory memory' : Space → Memory} {p : Pointer}
    (h : memory p.space = memory' p.space) : region memory p = region memory' p := by
  unfold region
  rw [h]

theorem readDword_region (memory : Space → Memory) (p : Pointer) (a : Nat) :
    readDword (region memory p) a = readDword (memory p.space) (p.addr + a) :=
  readDword_shift (memory p.space) p.addr a

def Entry.kind (d : Device) (t : Template) (e : Entry) : Kind :=
  if imageType e.descriptorType then bindingKind d t.layout e.dstBinding else .unknown

def Entry.element (d : Device) (t : Template) (e : Entry) (j : Nat) : Element :=
  ⟨e.descriptorType, e.kind d t, e.offset.toNat + j * e.step.toNat⟩

def Entry.elements (d : Device) (t : Template) (e : Entry) : List Element :=
  (List.range e.descriptorCount.toNat).map (e.element d t)

/-- The elements of the data in the order of the template. -/
def Template.elements (d : Device) (t : Template) : List Element :=
  t.entries.flatMap (Entry.elements d t)

/-- The driver reads an element within its size. -/
theorem seen_fits {type : DescriptorType} (h : templateElementSize type ≠ 0) :
    readOffset type + readSize type ≤ (templateElementSize type).toNat := by
  cases type with
  | other v => exact absurd rfl h
  | _ => revert h; decide

theorem not_inline {type : DescriptorType} (h : replaceable type = true) :
    type ≠ .inlineUniformBlock := by
  rintro rfl
  cases h

variable {d : Device} {t : Template} {h : Heap} {p : Pointer}

theorem null_region (j : Nat) (htype : replaceable e.descriptorType = true) :
    (e.element d t j).null (region h.memory p) =
      (readDword (h.memory p.space)
        (p.addr + (e.offset.toNat + j * e.step.toNat + handleOffset e.descriptorType)) == 0) := by
  simp only [Element.null, Entry.element, htype, Bool.true_and, Element.handleAt, readDword_region]

/-- Scanning an entry stays inside the recorded size and finds its null elements. -/
theorem scanElements_spec (he : e ∈ t.entries) (htype : replaceable e.descriptorType = true)
    (hj : j + left ≤ e.descriptorCount.toNat) :
    scanElements h (some p) t.dataSize.toNat e left j =
      some ((List.range' j left).any fun j => (e.element d t j).null (region h.memory p)) := by
  have hinside := t.inside he
  induction left generalizing j with
  | zero => rfl
  | succ left ih =>
    have hj' : j < e.descriptorCount.toNat := by omega
    have hoffset := hinside.elementOffset t.dataSize.toNat_lt (not_inline htype) hj'
    have hbelow := hinside.below j hj'
    have hfits := seen_fits (hinside.known (by omega))
    have hread := handle_read htype
    rw [scanElements, hoffset, load, if_pos (by omega)]
    dsimp only
    rw [readDword_local, List.range'_succ, any_cons, null_region j htype]
    split
    case isTrue hnull => rw [hnull]; rfl
    case isFalse hnull =>
      rw [ih (by omega), beq_false_of_ne hnull, Bool.false_or]

theorem any_null_of_not_replaceable (htype : ¬ replaceable e.descriptorType = true) (m : Memory) :
    (e.elements d t).any (fun x => x.null m) = false := by
  simp [Entry.elements, Entry.element, Element.null, htype]

theorem needsCopy_spec (hentries : ∀ e ∈ entries, e ∈ t.entries) :
    needsCopy h (some p) t.dataSize.toNat entries =
      some ((entries.flatMap (Entry.elements d t)).any fun x => x.null (region h.memory p)) := by
  induction entries with
  | nil => rfl
  | cons e rest ih =>
    have ih := ih fun e' he' => hentries e' (mem_cons_of_mem e he')
    rw [needsCopy, flatMap_cons, any_append]
    by_cases htype : replaceable e.descriptorType = true
    · rw [scanElements_spec (d := d) (hentries e mem_cons_self) htype (by omega)]
      rw [if_neg (by simp [htype]), Entry.elements, any_map, range_eq_range']
      cases hnull : (List.range' 0 e.descriptorCount.toNat).any fun j =>
          (e.element d t j).null (region h.memory p) with
      | false =>
        simp only [Function.comp_def, hnull, Bool.false_or]
        exact ih
      | true => simp only [Function.comp_def, hnull, Bool.true_or]
    · rw [any_null_of_not_replaceable htype, if_pos (by simpa using htype)]
      exact ih

/-- Without data there is nothing to scan. -/
theorem needsCopy_empty (entries : List Entry) (hsize : t.dataSize.toNat = 0)
    (hentries : ∀ e ∈ entries, e ∈ t.entries) :
    needsCopy h none 0 entries = some false ∧ entries.flatMap (Entry.elements d t) = [] := by
  induction entries with
  | nil => exact ⟨rfl, rfl⟩
  | cons e rest ih =>
    have ih := ih fun e' he' => hentries e' (mem_cons_of_mem e he')
    have hinside := t.inside (hentries e mem_cons_self)
    have hcount : e.descriptorCount.toNat = 0 := by
      by_contra hne
      have hknown := hinside.known (by omega)
      have hbelow := hinside.below 0 (by omega)
      exact hknown (UInt64.toNat_inj.mp (by change _ = 0; omega))
    rw [needsCopy, flatMap_cons, Entry.elements, hcount]
    refine ⟨?_, ih.2⟩
    split
    · exact ih.1
    · exact ih.1

/-! ## The private copy -/

/-- Two heaps that differ in the memory of one space only. -/
structure Frame (space : Space) (h h' : Heap) : Prop where
  memory : ∀ space', space' ≠ space → h'.memory space' = h.memory space'
  attempts : h'.attempts = h.attempts
  taken : h'.taken = h.taken
  freed : h'.freed = h.freed

theorem Frame.refl (space : Space) (h : Heap) : Frame space h h := ⟨fun _ _ => rfl, rfl, rfl, rfl⟩

theorem Frame.trans {space : Space} {h h' h'' : Heap} (first : Frame space h h')
    (second : Frame space h' h'') : Frame space h h'' where
  memory space' hne := (second.memory space' hne).trans (first.memory space' hne)
  attempts := second.attempts.trans first.attempts
  taken := second.taken.trans first.taken
  freed := second.freed.trans first.freed

theorem Frame.setMemory (h : Heap) (space : Space) (m : Memory) : Frame space h (h.setMemory space m) :=
  ⟨fun _ hne => if_neg hne, rfl, rfl, rfl⟩

theorem Frame.region {space : Space} {h h' : Heap} (hframe : Frame space h h') {p : Pointer}
    (hp : p.space ≠ space) : region h'.memory p = region h.memory p :=
  region_congr (hframe.memory p.space hp)

theorem region_setMemory (h : Heap) (p : Pointer) (o : Nat) (bytes : List UInt8) :
    region (h.setMemory p.space (write (h.memory p.space) (p.addr + o) bytes)).memory p =
      write (region h.memory p) o bytes := by
  refine Eq.trans (funext fun x => ?_) (write_shift (h.memory p.space) p.addr o bytes)
  simp only [region, Heap.setMemory, if_true]

theorem read_region (memory : Space → Memory) (p : Pointer) (o n : Nat) :
    read (region memory p) o n = read (memory p.space) (p.addr + o) n := by
  simp only [ByteMemory.read, region, Nat.add_assoc]

/-- On the way from `m` to `m'` nothing that equals the target is lost. -/
def Toward (target m m' : Memory) : Prop := ∀ x, m x = target x → m' x = target x

theorem Toward.trans {m'' : Memory} (first : Toward target m m') (second : Toward target m' m'') :
    Toward target m m'' :=
  fun x hx => second x (first x hx)

variable {data copy : Pointer}

theorem copyBytes_spec (data copy : Pointer) {o n : Nat} (hin : o + n ≤ size) (h : Heap) :
    ∃ h', copyBytes h (some data) (some copy) size o n = some h' ∧
      Frame copy.space h h' ∧
      Toward (region h.memory data) (region h.memory copy) (region h'.memory copy) ∧
      ∀ x, o ≤ x → x < o + n → region h'.memory copy x = region h.memory data x := by
  rw [copyBytes, load, if_pos hin]
  dsimp only
  rw [store, if_pos (by rwa [length_read])]
  have hbyte : ∀ x, o ≤ x → x < o + n →
      write (region h.memory copy) o (read (region h.memory data) o n) x = region h.memory data x := by
    intro x hx hx'
    obtain ⟨i, rfl⟩ := Nat.exists_eq_add_of_le hx
    have hi : i < n := by omega
    rw [write_inside _ _ (by rwa [length_read])]
    simp [ByteMemory.read, hi]
  refine ⟨_, rfl, Frame.setMemory h _ _, ?_, ?_⟩
  · intro x hx
    rw [region_setMemory, ← read_region]
    by_cases hin : o ≤ x ∧ x < o + n
    · exact hbyte x hin.1 hin.2
    · rw [write_outside _ _ (by rw [length_read]; omega), hx]
  · rw [region_setMemory, ← read_region]
    exact hbyte

/-- The bytes of an element have been copied. -/
def Entry.Copied (e : Entry) (target m : Memory) (j : Nat) : Prop :=
  ∀ x, e.offset.toNat + j * e.step.toNat ≤ x →
    x < e.offset.toNat + j * e.step.toNat + (templateElementSize e.descriptorType).toNat →
    m x = target x

theorem Entry.Copied.toward (hcopied : e.Copied target m j) (htoward : Toward target m m') :
    e.Copied target m' j :=
  fun x hx hx' => htoward x (hcopied x hx hx')

section
variable (hspace : data.space ≠ copy.space)
include hspace

theorem copyElements_spec (he : e ∈ t.entries)
    (htype : e.descriptorType ≠ .inlineUniformBlock) (hj : j + left ≤ e.descriptorCount.toNat) (h : Heap) :
    ∃ h', copyElements (some data) (some copy) t.dataSize.toNat e left j h = some h' ∧
      Frame copy.space h h' ∧
      Toward (region h.memory data) (region h.memory copy) (region h'.memory copy) ∧
      ∀ i, j ≤ i → i < j + left → e.Copied (region h.memory data) (region h'.memory copy) i := by
  have hinside := t.inside he
  induction left generalizing j h with
  | zero => exact ⟨h, rfl, Frame.refl _ h, fun _ hx => hx, fun i hi hi' => absurd hi' (by omega)⟩
  | succ left ih =>
    have hj' : j < e.descriptorCount.toNat := by omega
    have hbelow := hinside.below j hj'
    obtain ⟨h₁, hcopy, hframe, htoward, hbytes⟩ := copyBytes_spec data copy hbelow h
    obtain ⟨h₂, hrest, hframe', htoward', hcopied⟩ := ih (j := j + 1) (by omega) h₁
    rw [copyElements, hinside.elementOffset t.dataSize.toNat_lt htype hj', hcopy]
    rw [hframe.region hspace] at htoward' hcopied
    refine ⟨h₂, hrest, hframe.trans hframe', htoward.trans htoward', fun i hi hi' => ?_⟩
    rcases Nat.eq_or_lt_of_le hi with rfl | hlt
    · exact Entry.Copied.toward hbytes htoward'
    · exact hcopied i hlt (by omega)

theorem copyEntry_spec (he : e ∈ t.entries) (h : Heap) :
    ∃ h', copyEntry (some data) (some copy) t.dataSize.toNat e h = some h' ∧
      Frame copy.space h h' ∧
      Toward (region h.memory data) (region h.memory copy) (region h'.memory copy) ∧
      ∀ i < e.descriptorCount.toNat,
        e.Copied (region h.memory data) (region h'.memory copy) i := by
  have hinside := t.inside he
  unfold copyEntry
  split
  case isFalse htype =>
    obtain ⟨h', hcopy, hframe, htoward, hcopied⟩ :=
      copyElements_spec hspace he htype (j := 0) (Nat.le_of_eq (Nat.zero_add _)) h
    exact ⟨h', hcopy, hframe, htoward, fun i hi => hcopied i (Nat.zero_le i) (by omega)⟩
  case isTrue htype =>
  -- a block of bytes: each is an element, one behind the other
  have hstep : e.step.toNat = 1 := by rw [Entry.step, if_pos htype]; rfl
  have hone : (templateElementSize e.descriptorType).toNat = 1 := by rw [htype]; rfl
  split
  case isTrue hzero =>
    refine ⟨h, rfl, Frame.refl _ h, fun _ hx => hx, fun i hi => ?_⟩
    rw [hzero] at hi
    exact absurd hi (Nat.not_lt_zero i)
  case isFalse hcount =>
  have hpos : 0 < e.descriptorCount.toNat :=
    Nat.pos_of_ne_zero fun h => hcount (UInt32.toNat_inj.mp h)
  have hbelow := hinside.below (e.descriptorCount.toNat - 1) (by omega)
  rw [hstep] at hbelow
  obtain ⟨h', hcopy, hframe, htoward, hbytes⟩ :=
    copyBytes_spec data copy (show e.offset.toNat + e.descriptorCount.toNat ≤ t.dataSize.toNat by omega) h
  refine ⟨h', hcopy, hframe, htoward, fun i hi x hx hx' => hbytes x ?_ ?_⟩
  · omega
  · rw [hstep] at hx'
    omega

theorem copyEntries_spec (hentries : ∀ e ∈ entries, e ∈ t.entries)
    (h : Heap) :
    ∃ h', copyEntries (some data) (some copy) t.dataSize.toNat entries h = some h' ∧
      Frame copy.space h h' ∧
      Toward (region h.memory data) (region h.memory copy) (region h'.memory copy) ∧
      ∀ e ∈ entries, ∀ i < e.descriptorCount.toNat,
        e.Copied (region h.memory data) (region h'.memory copy) i := by
  induction entries generalizing h with
  | nil => exact ⟨h, rfl, Frame.refl _ h, fun _ hx => hx, fun e he => nomatch he⟩
  | cons e rest ih =>
    obtain ⟨h₁, hfirst, hframe, htoward, hcopied⟩ :=
      copyEntry_spec hspace (hentries e mem_cons_self) h
    obtain ⟨h₂, hrest, hframe', htoward', hcopied'⟩ :=
      ih (fun e' he' => hentries e' (mem_cons_of_mem e he')) h₁
    rw [copyEntries, hfirst]
    rw [hframe.region hspace] at htoward' hcopied'
    refine ⟨h₂, hrest, hframe.trans hframe', htoward.trans htoward', fun e' he' i hi => ?_⟩
    rcases mem_cons.mp he' with rfl | he'
    · exact (hcopied i hi).toward htoward'
    · exact hcopied' e' he' i hi

end

/-- Every element is in the copy as the driver would read it from the data. -/
theorem seen_copied (hcopied : ∀ e ∈ t.entries, ∀ i < e.descriptorCount.toNat, e.Copied target m i)
    {x : Element} (hx : x ∈ t.elements d) : x.seen m = x.seen target := by
  obtain ⟨e, he, hx⟩ := mem_flatMap.mp hx
  obtain ⟨j, hj, rfl⟩ := mem_map.mp hx
  have hj := mem_range.mp hj
  have hfits := seen_fits ((t.inside he).known (by omega))
  refine read_congr fun x hx hx' => hcopied e he j hj x ?_ ?_
  · simp only [Entry.element] at hx
    omega
  · simp only [Entry.element] at hx'
    omega

/-! ## The loops that replace -/

/-- The loop has not changed what it started from, and `ready` says whether there are
stand-ins. -/
structure Fix.Ok (driver : Driver) (d : Device) (f : Fix) : Prop where
  keeps : Keeps driver d f.device
  ready : ∀ b, f.ready = some b →
    b = (standIns driver d).isSome ∧ f.device.dummies = (if b then .made else .failed)

theorem Fix.ok_start (driver : Driver) (d : Device) (h : Heap) (dsl : Handle) :
    (Fix.start d h dsl).Ok driver d :=
  ⟨Keeps.refl driver d, nofun⟩

variable {driver : Driver} {f f' f'' : Fix}

theorem Fix.Ok.prepare (hok : f.Ok driver d) :
    (f.prepare driver).Ok driver d ∧ (f.prepare driver).ready = some (standIns driver d).isSome ∧
      (f.prepare driver).device.lost = f.device.lost ∧ (f.prepare driver).heap = f.heap ∧
      (f.prepare driver).last = f.last ∧ (f.prepare driver).dsl = f.dsl := by
  unfold Fix.prepare
  split
  case h_1 b hready =>
    exact ⟨hok, by rw [hready, (hok.ready b hready).1], rfl, rfl, rfl, rfl⟩
  case h_2 hready =>
    obtain ⟨hkeeps, hlost, hsome, hmade⟩ := makeDummies_spec (rfl : makeDummies driver f.device = _)
    rw [hok.keeps.standIns] at hsome
    refine ⟨⟨hok.keeps.trans hkeeps, fun b hb => ?_⟩, congrArg some hsome, hlost, rfl, rfl, rfl⟩
    cases hb
    exact ⟨hsome, hmade⟩

theorem Fix.Ok.lose (hok : f.Ok driver d) (hready : f.ready = some false) : f.lose.Ok driver d := by
  refine ⟨⟨hok.keeps.precise, hok.keeps.templates, hok.keeps.sets, hok.keeps.hints, ?_⟩, hok.ready⟩
  have hfailed : f.device.dummies = .failed := (hok.ready false hready).2
  rw [← hok.keeps.standIns, standIns_failed hfailed]
  exact standIns_failed hfailed

theorem Fix.Ok.present (hok : f.Ok driver d) (hready : f.ready = some true) :
    f.device.dummies = .made ∧ standIns driver d = some (f.device.present driver) := by
  have hmade : f.device.dummies = .made := (hok.ready true hready).2
  exact ⟨hmade, by rw [← hok.keeps.standIns, standIns_made hmade]⟩

/-- A loop has gone through the elements `xs` of the data at `p`. -/
structure Swept (driver : Driver) (d : Device) (p : Pointer) (xs : List Element) (f f' : Fix) :
    Prop where
  ok : f'.Ok driver d
  frame : Frame p.space f.heap f'.heap
  region : region f'.heap.memory p =
    xs.foldl (fun m x => x.replace (standIns driver d) m) (region f.heap.memory p)
  lost : f'.device.lost = (f.device.lost ||
    (standIns driver d).isNone && xs.any (fun x => x.null (NullDescriptors.region f.heap.memory p)))

theorem Swept.nil (hok : f.Ok driver d) (p : Pointer) : Swept driver d p [] f f :=
  ⟨hok, Frame.refl _ _, rfl, by simp⟩

theorem Element.replace_none (x : Element) (m : Memory) : x.replace none m = m := by
  unfold Element.replace
  split
  · exact write_nil m _
  · rfl

theorem foldl_replace_keep {s : Option StandIns} (hkeep : ∀ x ∈ xs, ∀ m, x.replace s m = m)
    (m : Memory) : xs.foldl (fun m x => x.replace s m) m = m := by
  induction xs with
  | nil => rfl
  | cons x rest ih =>
    rw [foldl_cons, hkeep x mem_cons_self]
    exact ih fun y hy => hkeep y (mem_cons_of_mem x hy)

theorem foldl_replace_none (xs : List Element) (m : Memory) :
    xs.foldl (fun m x => x.replace none m) m = m :=
  foldl_replace_keep (fun x _ => x.replace_none) m

theorem Swept.append {xs' : List Element} (first : Swept driver d p xs f f')
    (second : Swept driver d p xs' f' f'') : Swept driver d p (xs ++ xs') f f'' where
  ok := second.ok
  frame := first.frame.trans second.frame
  region := by rw [second.region, first.region, foldl_append]
  lost := by
    rw [second.lost, first.lost, first.region, any_append]
    cases hstand : standIns driver d with
    | none => simp only [foldl_replace_none, Option.isNone_none, Bool.true_and, Bool.or_assoc]
    | some s => simp

/-- An element that is not null is left alone. -/
theorem Swept.sound {x : Element} (hok : f.Ok driver d)
    (hnull : x.null (NullDescriptors.region f.heap.memory p) = false) : Swept driver d p [x] f f :=
  ⟨hok, Frame.refl _ _, by simp [Element.replace, hnull], by simp [hnull]⟩

/-- Without stand-ins a null element costs the device. -/
theorem Swept.loses {x : Element} (hok : f'.Ok driver d) (hready : f'.ready = some false)
    (hheap : f'.heap = f.heap) (hstand : standIns driver d = none)
    (hnull : x.null (NullDescriptors.region f.heap.memory p) = true) : Swept driver d p [x] f f'.lose := by
  have hheap : f'.lose.heap = f.heap := hheap
  refine ⟨hok.lose hready, ?_, ?_, ?_⟩
  · rw [hheap]
    exact Frame.refl _ _
  · rw [hheap, hstand]
    exact (foldl_replace_none _ _).symm
  · simp [Fix.lose, hstand, hnull]

section
variable (hok : f.Ok driver d) (he : e ∈ t.entries) (htype : replaceable e.descriptorType = true)
include hok he htype

/-- One element of a template: read, replaced in a local object, written back. -/
theorem fixTemplateElement_spec (hj : j < e.descriptorCount.toNat) (data : Pointer) :
    ∃ f', fixTemplateElement driver t data e j f = some f' ∧
      Swept driver d data [e.element d t j] f f' := by
  have hinside := t.inside he
  have hbelow := hinside.below j hj
  have hfits := seen_fits (hinside.known (by omega))
  have hlocal := fun s m => Element.replace_local s htype (e.kind d t)
    (o := e.offset.toNat + j * e.step.toNat) m hfits
  rw [fixTemplateElement, hinside.elementOffset t.dataSize.toNat_lt (not_inline htype) hj]
  rw [load, if_pos hbelow]
  dsimp only
  rw [← read_region]
  split
  case isTrue hvalue =>
    have hnull : (e.element d t j).null (region f.heap.memory data) = false := by
      have := (hlocal none (region f.heap.memory data)).2
      simpa [Entry.element, hvalue] using this
    exact ⟨f, rfl, .sound hok hnull⟩
  case isFalse hvalue =>
  have hnull : (e.element d t j).null (region f.heap.memory data) = true :=
    (hlocal none (region f.heap.memory data)).2.mp (not_not.mp hvalue)
  obtain ⟨hok', hready, hlost, hheap, -, -⟩ := hok.prepare
  generalize f.prepare driver = f₁ at hok' hready hlost hheap
  cases hstand : standIns driver d with
  | none =>
    rw [hstand] at hready
    rw [if_pos (by rw [hready]; decide)]
    exact ⟨_, rfl, .loses hok' hready hheap hstand hnull⟩
  | some s =>
    rw [hstand] at hready
    obtain ⟨hmade, hpresent⟩ := hok'.present hready
    have hkind : (if imageType e.descriptorType then bindingKind f₁.device t.layout e.dstBinding
        else .unknown) = e.kind d t := by
      rw [hok'.keeps.bindingKind]
      rfl
    rw [if_neg fun h => h hready, hkind]
    obtain ⟨hvalue, hkeeps, hlost', hmade'⟩ := fixOne_spec driver hmade htype (e.kind d t)
      (localObject (read (region f.heap.memory data) (e.offset.toNat + j * e.step.toNat)
        (templateElementSize e.descriptorType).toNat)) 0
    rw [store, if_pos (by rw [length_read]; exact hbelow)]
    refine ⟨_, rfl, ⟨hok'.keeps.trans hkeeps, fun b hb => ?_⟩, ?_, ?_, ?_⟩
    · obtain rfl : b = true := by simpa [hready] using hb.symm
      exact ⟨(hok'.ready true hready).1, hmade'⟩
    · rw [hheap]
      exact Frame.setMemory _ _ _
    · rw [region_setMemory, hheap, hvalue, hpresent]
      exact (hlocal _ _).1
    · simp [hlost', hlost, hstand]

theorem fixTemplateElements_spec (hj : j + left ≤ e.descriptorCount.toNat) (data : Pointer) :
    ∃ f', fixTemplateElements driver t data e left j f = some f' ∧
      Swept driver d data ((List.range' j left).map (e.element d t)) f f' := by
  induction left generalizing j f with
  | zero => exact ⟨f, rfl, Swept.nil hok data⟩
  | succ left ih =>
    obtain ⟨f₁, hfirst, hswept⟩ :=
      fixTemplateElement_spec hok he htype (show j < e.descriptorCount.toNat by omega) data
    obtain ⟨f₂, hrest, hswept'⟩ := ih hswept.ok (j := j + 1) (by omega)
    rw [fixTemplateElements, hfirst, List.range'_succ]
    exact ⟨f₂, hrest, hswept.append hswept'⟩

end

/-- An entry of another type has no element that could be replaced. -/
theorem Swept.skip (hok : f.Ok driver d) (htype : ¬ replaceable e.descriptorType = true)
    (data : Pointer) : Swept driver d data (e.elements d t) f f where
  ok := hok
  frame := Frame.refl _ _
  region := by
    have hkeep : ∀ x ∈ e.elements d t, ∀ m, x.replace (standIns driver d) m = m := by
      intro x hx m
      obtain ⟨j, -, rfl⟩ := mem_map.mp hx
      simp [Element.replace, Element.null, Entry.element, htype]
    exact (foldl_replace_keep hkeep _).symm
  lost := by rw [any_null_of_not_replaceable htype, Bool.and_false, Bool.or_false]

theorem fixEntries_spec (hok : f.Ok driver d) (hentries : ∀ e ∈ entries, e ∈ t.entries)
    (data : Pointer) : ∃ f', fixEntries driver t data entries f = some f' ∧
      Swept driver d data (entries.flatMap (Entry.elements d t)) f f' := by
  induction entries generalizing f with
  | nil => exact ⟨f, rfl, Swept.nil hok data⟩
  | cons e rest ih =>
    have hrest : ∀ e' ∈ rest, e' ∈ t.entries := fun e' he' => hentries e' (mem_cons_of_mem e he')
    rw [fixEntries]
    split
    case isTrue htype =>
      obtain ⟨f', hfix, hswept⟩ := ih hok hrest
      exact ⟨f', hfix, (Swept.skip hok (by simpa using htype) data).append hswept⟩
    case isFalse htype =>
      obtain ⟨f₁, hfirst, hswept⟩ := fixTemplateElements_spec hok (hentries e mem_cons_self)
        (by simpa using htype) (j := 0) (Nat.le_of_eq (Nat.zero_add _)) data
      obtain ⟨f₂, hfix, hswept'⟩ := ih hswept.ok hrest
      rw [hfirst]
      rw [← range_eq_range'] at hswept
      exact ⟨f₂, hfix, hswept.append hswept'⟩

/-! ## Calls with a template -/

/-- Each block allocated between the two heaps is freed once, and nothing else is. -/
def Balanced (h h' : Heap) : Prop :=
  ∃ (ids : List Nat) (frees : List Pointer), h'.taken = ids ++ h.taken ∧
    h'.freed = frees ++ h.freed ∧ ids.Nodup ∧ (∀ id ∈ ids, h.attempts ≤ id) ∧
    frees.Perm (ids.map fun id => ⟨.block id, 0⟩)

theorem Balanced.of_eq {h h' : Heap} (htaken : h'.taken = h.taken) (hfreed : h'.freed = h.freed) :
    Balanced h h' :=
  ⟨[], [], htaken, hfreed, nodup_nil, nofun, .refl _⟩

/-- The element that stands in `m` is read from `m'` as it should be: unchanged if it is
not null, and else as the stand-in for its type. -/
structure Element.Served (driver : Driver) (d : Device) (x : Element) (m m' : Memory) : Prop where
  standIns : x.null m = true → (standIns driver d).isSome = true
  seen : x.seen m' = x.seen (x.replace (NullDescriptors.standIns driver d) m)

/-- What a call with a template should do. -/
structure TemplateExact (driver : Driver) (d : Device) (h : Heap) (tmpl : Handle)
    (data : Option Pointer) (out : Outcome TemplateCall) : Prop where
  application : out.heap.memory .application = h.memory .application
  reads : ∀ call, out.call = some call → call.tmpl = tmpl ∧
    ∃ t, findTemplate d tmpl = some t ∧ ∀ x ∈ t.elements d,
      ∃ p q, data = some p ∧ call.data = some q ∧
        x.Served driver d (region h.memory p) (region call.memory q)
  lost : out.call = none → out.device.lost = true
  freed : Balanced h out.heap

theorem TemplateExact.refused {tmpl : Handle} {data : Option Pointer} (d' : Device) (h' : Heap)
    (hlost : d'.lost = true) (hmemory : h'.memory .application = h.memory .application)
    (htaken : h'.taken = h.taken) (hfreed : h'.freed = h.freed) :
    TemplateExact driver d h tmpl data ⟨d', h', none⟩ where
  application := hmemory
  reads := nofun
  lost _ := hlost
  freed := Balanced.of_eq htaken hfreed

/-- The elements of the template do not get into each other's way, unless the call is
refused anyway. -/
def TemplateCoherent (driver : Driver) (grants : Grants) (d : Device) (h : Heap) (tmpl : Handle)
    (data : Option Pointer) : Prop :=
  ∀ t p, d.lost = false → findTemplate d tmpl = some t → data = some p →
    grants h.attempts = true →
    Overlay.Coherent 0 (region h.memory p) ((t.elements d).map (Element.item (standIns driver d)))

/-- Without null elements, or without stand-ins, nothing is in anybody's way. -/
theorem coherent_of_no_standIn {s : Option StandIns} (hnone : ∀ x ∈ xs, x.null m = true →
    x.standIn s = []) : Overlay.Coherent 0 m (xs.map (Element.item s)) := by
  refine Overlay.coherent_of_no_patch fun y hy hblank p => ?_
  obtain ⟨x, hx, rfl⟩ := mem_map.mp hy
  refine if_neg fun ⟨htype, hp, hp'⟩ => ?_
  rw [hnone x hx ((Element.item_blank htype).mp hblank)] at hp'
  exact absurd hp' (by simp only [length_nil]; omega)

/-- Whether an element is null shows in what is read of it. -/
theorem Element.null_congr {x : Element} (hseen : x.seen m = x.seen m') : x.null m = x.null m' := by
  unfold Element.null
  by_cases htype : replaceable x.type = true
  · have hread := handle_read htype
    rw [readDword_congr fun p hp hp' => read_eq_iff.mp hseen p
      (by simp only [Element.handleAt] at hp; omega)
      (by simp only [Element.handleAt] at hp'; omega)]
  · simp only [htype, Bool.false_and]

variable {grants : Grants} {tmpl : Handle}

theorem malloc_granted (hgrants : grants h.attempts = true) : malloc grants h =
    ({ h with attempts := h.attempts + 1, taken := h.attempts :: h.taken },
      some ⟨.block h.attempts, 0⟩) := if_pos hgrants

theorem malloc_refused (hgrants : grants h.attempts = false) :
    malloc grants h = ({ h with attempts := h.attempts + 1 }, none) :=
  if_neg (by simp [hgrants])

theorem needsCopy_any {b : Bool} (hnull : (t.elements d).any (fun x => x.null (region h.memory p)) = b) :
    needsCopy h (some p) t.dataSize.toNat t.entries = some b :=
  (needsCopy_spec fun _ he => he).trans (congrArg some hnull)

/-- The call returns, and does what it should. -/
def ForwardsExactly (driver : Driver) (grants : Grants) (d : Device) (h : Heap) (tmpl : Handle)
    (data : Option Pointer) : Prop :=
  ∃ out, forwardTemplate driver grants d h tmpl data = some out ∧ TemplateExact driver d h tmpl data out

section
variable {a : Nat} (hlost : d.lost = false) (hfind : findTemplate d tmpl = some t)
include hlost hfind

/-- A call that needs a copy and gets one. -/
theorem forwardTemplate_copy (driver : Driver) (hgrants : grants h.attempts = true)
    (hnull : (t.elements d).any (fun x => x.null (region h.memory ⟨.application, a⟩)) = true) :
    ∃ out, forwardTemplate driver grants d h tmpl (some ⟨.application, a⟩) = some out ∧
      out.heap.memory .application = h.memory .application ∧ Balanced h out.heap ∧
      out.device.lost = (standIns driver d).isNone ∧
      ∃ (memory : Space → Memory) (q : Pointer) (m₀ : Memory),
        out.call = (if out.device.lost then none else some ⟨tmpl, some q, memory⟩) ∧
        (∀ x ∈ t.elements d, x.seen m₀ = x.seen (region h.memory ⟨.application, a⟩)) ∧
        region memory q = (t.elements d).foldl (fun m x => x.replace (standIns driver d) m) m₀ := by
  -- the copy is a new block of the heap
  obtain ⟨h₁, hcalloc, happ, htaken, hfreed⟩ : ∃ h₁ : Heap,
      calloc grants h = (h₁, some ⟨.block h.attempts, 0⟩) ∧
      h₁.memory .application = h.memory .application ∧
      h₁.taken = h.attempts :: h.taken ∧ h₁.freed = h.freed := by
    refine ⟨_, malloc_granted (h := h.setMemory (.block h.attempts) _) hgrants, ?_, rfl, rfl⟩
    simp [Heap.setMemory]
  have hspace : (⟨.application, a⟩ : Pointer).space ≠ (⟨.block h.attempts, 0⟩ : Pointer).space := by simp
  have hdata : region h₁.memory ⟨.application, a⟩ = region h.memory ⟨.application, a⟩ :=
    region_congr happ
  obtain ⟨h₂, hcopy, hframe, -, hcopied⟩ :=
    copyEntries_spec hspace (fun e (he : e ∈ t.entries) => he) h₁
  obtain ⟨f, hfix, hswept⟩ := fixEntries_spec (Fix.ok_start driver d h₂ 0)
    (fun e (he : e ∈ t.entries) => he) ⟨.block h.attempts, 0⟩
  have hseen := fun x hx => seen_copied (d := d) hcopied (x := x) hx
  rw [hdata] at hseen
  have hany : (t.elements d).any (fun x => x.null (region h₂.memory ⟨.block h.attempts, 0⟩)) = true := by
    rw [any_eq_true] at hnull ⊢
    obtain ⟨x, hx, hxnull⟩ := hnull
    exact ⟨x, hx, by rw [Element.null_congr (hseen x hx), hxnull]⟩
  have hprepare : prepareTemplate grants d h tmpl (some ⟨.application, a⟩) =
      some (d, h₂, .ready (some ⟨.block h.attempts, 0⟩)) := by
    rw [prepareTemplate, if_neg (by simp [hlost]), hfind]
    dsimp only
    rw [if_neg (by simp), needsCopy_any hnull, hcalloc]
    dsimp only
    rw [hcopy]
  have hforward : forwardTemplate driver grants d h tmpl (some ⟨.application, a⟩) =
      some ⟨count f.device f.replaced, free f.heap (some ⟨.block h.attempts, 0⟩),
        if (count f.device f.replaced).lost then none
        else some ⟨tmpl, some ⟨.block h.attempts, 0⟩, f.heap.memory⟩⟩ := by
    rw [forwardTemplate, hprepare]
    dsimp only
    rw [fixTemplateData, hfind]
    dsimp only
    rw [hfix]
  have hlost' : (count f.device f.replaced).lost = (standIns driver d).isNone := by
    change f.device.lost = _
    have hlost'' := hswept.lost
    change f.device.lost = (d.lost || _ && (t.elements d).any _) at hlost''
    rw [hlost'', hlost]
    change (false || _ && (t.elements d).any (fun x => x.null (region h₂.memory _))) = _
    rw [hany, Bool.and_true, Bool.false_or]
  refine ⟨_, hforward, ?_, ?_, hlost', f.heap.memory, ⟨.block h.attempts, 0⟩, _, rfl, hseen,
    hswept.region⟩
  · change f.heap.memory .application = _
    rw [hswept.frame.memory _ hspace, ← happ]
    exact hframe.memory _ hspace
  · refine ⟨[h.attempts], [⟨.block h.attempts, 0⟩], ?_, ?_, by simp, by simp, .refl _⟩
    · exact (hswept.frame.taken.trans hframe.taken).trans htaken
    · exact congrArg (List.cons _) ((hswept.frame.freed.trans hframe.freed).trans hfreed)

/-- Without data there must be nothing to read. -/
theorem forwardTemplate_null (driver : Driver) (grants : Grants) (h : Heap) :
    ForwardsExactly driver grants d h tmpl none := by
  by_cases hsize : t.dataSize = 0
  · obtain ⟨hscan, hnil⟩ := needsCopy_empty (d := d) (h := h) t.entries
      (show t.dataSize.toNat = 0 by rw [hsize]; rfl) fun e he => he
    refine ⟨⟨d, h, some ⟨tmpl, none, h.memory⟩⟩, ?_, rfl, ?_, (by simp), .of_eq rfl rfl⟩
    · rw [forwardTemplate, prepareTemplate, hfind]
      simp only [hsize, ne_eq, not_true_eq_false, false_and, if_false]
      rw [show (0 : UInt64).toNat = 0 from rfl, hscan]
      simp only [hlost, Bool.false_eq_true, if_false]
    · intro call hcall
      cases hcall
      refine ⟨rfl, t, hfind, fun x hx => ?_⟩
      rw [Template.elements, hnil] at hx
      cases hx
  · refine ⟨_, ?_, .refused { d with lost := true } _ rfl rfl rfl rfl⟩
    rw [forwardTemplate, prepareTemplate, if_neg (by simp [hlost]), hfind]
    simp only [ne_eq, hsize, not_false_eq_true, and_self, if_true]

/-- Data in which nothing is null is passed on as it is. -/
theorem forwardTemplate_sound (driver : Driver) (grants : Grants)
    (hsound : ∀ x ∈ t.elements d, x.null (region h.memory p) = false) :
    ForwardsExactly driver grants d h tmpl (some p) := by
  refine ⟨⟨d, h, some ⟨tmpl, some p, h.memory⟩⟩, ?_, rfl, ?_, (by simp), .of_eq rfl rfl⟩
  · rw [forwardTemplate, prepareTemplate, if_neg (by simp [hlost]), hfind]
    dsimp only
    rw [if_neg (by simp), needsCopy_any (d := d) (any_eq_false.mpr fun x hx => by simp [hsound x hx])]
    simp only [hlost, Bool.false_eq_true, if_false]
  · intro call hcall
    cases hcall
    refine ⟨rfl, t, hfind, fun x hx => ⟨_, _, rfl, rfl, fun hx' => ?_, ?_⟩⟩
    · cases (hsound x hx).symm.trans hx'
    · rw [Element.replace, if_neg (by simp [hsound x hx])]

/-- Without memory for the copy the device is lost. -/
theorem forwardTemplate_refused (driver : Driver) (hgrants : grants h.attempts = false)
    (hnull : (t.elements d).any (fun x => x.null (region h.memory p)) = true) :
    ForwardsExactly driver grants d h tmpl (some p) := by
  refine ⟨_, ?_, .refused { d with lost := true } { h.setMemory
    (.block h.attempts) (fun _ => 0) with attempts := h.attempts + 1 } rfl ?_ rfl rfl⟩
  · rw [forwardTemplate, prepareTemplate, if_neg (by simp [hlost]), hfind]
    dsimp only
    rw [if_neg (by simp), needsCopy_any hnull, calloc,
      malloc_refused (h := h.setMemory (.block h.attempts) _) hgrants]
    rfl
  · simp [Heap.setMemory]

/-- A call that gets its copy and its stand-ins. -/
theorem forwardTemplate_copied_iff {s : StandIns} (hgrants : grants h.attempts = true)
    (hnull : (t.elements d).any (fun x => x.null (region h.memory ⟨.application, a⟩)) = true)
    (hstand : standIns driver d = some s) :
    ForwardsExactly driver grants d h tmpl (some ⟨.application, a⟩) ↔
      Overlay.Coherent 0 (region h.memory ⟨.application, a⟩)
        ((t.elements d).map (Element.item (standIns driver d))) := by
  obtain ⟨out, hforward, happ, hfreed, hlost', memory, q, m₀, hcall, hseen, hregion⟩ :=
    forwardTemplate_copy hlost hfind driver hgrants hnull
  rw [hlost', hstand] at hcall
  have hreplaced := replaced_iff (s := standIns driver d) hseen
  rw [← hregion] at hreplaced
  constructor
  · rintro ⟨out', hforward', hexact⟩
    cases hforward.symm.trans hforward'
    refine hreplaced.mp fun x hx => ?_
    obtain ⟨-, t', hfind', hreads⟩ := hexact.reads _ hcall
    cases hfind.symm.trans hfind'
    obtain ⟨p, q', hp, hq, hx'⟩ := hreads x hx
    cases hp
    cases hq
    exact hx'.seen
  · intro hcoherent
    refine ⟨out, hforward, happ, fun call hcall' => ?_, fun hnone => ?_, hfreed⟩
    · cases hcall.symm.trans hcall'
      exact ⟨rfl, t, hfind, fun x hx => ⟨_, _, rfl, rfl, fun _ => by rw [hstand]; rfl,
        hreplaced.mpr hcoherent x hx⟩⟩
    · cases hcall.symm.trans hnone

/-- A call with data of a template that is known. -/
theorem forwardTemplate_found_iff (driver : Driver) (grants : Grants) (h : Heap) :
    ForwardsExactly driver grants d h tmpl (some ⟨.application, a⟩) ↔
      (grants h.attempts = true → Overlay.Coherent 0 (region h.memory ⟨.application, a⟩)
        ((t.elements d).map (Element.item (standIns driver d)))) := by
  cases hnull : (t.elements d).any fun x => x.null (region h.memory ⟨.application, a⟩) with
  | false =>
    have hsound : ∀ x ∈ t.elements d, x.null (region h.memory ⟨.application, a⟩) = false :=
      fun x hx => by simpa using any_eq_false.mp hnull x hx
    refine iff_of_true (forwardTemplate_sound hlost hfind driver grants hsound) fun _ =>
      coherent_of_no_standIn fun x hx hx' => ?_
    cases (hsound x hx).symm.trans hx'
  | true =>
  cases hgrants : grants h.attempts with
  | false => exact iff_of_true (forwardTemplate_refused hlost hfind driver hgrants hnull) (by simp)
  | true =>
  simp only [forall_const]
  cases hstand : standIns driver d with
  | some s => exact hstand ▸ forwardTemplate_copied_iff hlost hfind hgrants hnull hstand
  | none =>
    obtain ⟨out, hforward, happ, hfreed, hlost', memory, q, m₀, hcall, -⟩ :=
      forwardTemplate_copy hlost hfind driver hgrants hnull
    rw [hstand] at hlost'
    rw [hlost'] at hcall
    refine iff_of_true ⟨out, hforward, happ, fun call hcall' => ?_, fun _ => hlost', hfreed⟩
      (coherent_of_no_standIn fun _ _ _ => rfl)
    cases hcall.symm.trans hcall'

end

/-- A call with a template is exact when it is refused or its elements are coherent, and
otherwise not. -/
theorem forwardTemplate_exact_iff (driver : Driver) (grants : Grants) (d : Device) (h : Heap)
    (tmpl : Handle) (address : Option Nat) :
    ForwardsExactly driver grants d h tmpl (address.map (Pointer.mk .application)) ↔
      TemplateCoherent driver grants d h tmpl (address.map (Pointer.mk .application)) := by
  cases hlost : d.lost with
  | true =>
    refine iff_of_true ⟨_, ?_, .refused _ _ hlost rfl rfl rfl⟩ fun t p hlost' => ?_
    · rw [forwardTemplate, prepareTemplate, if_pos hlost]
    · cases hlost.symm.trans hlost'
  | false =>
  cases hfind : findTemplate d tmpl with
  | none =>
    refine iff_of_true ⟨_, ?_, .refused { d with lost := true } _ rfl rfl rfl rfl⟩
      fun t p _ hfind' => ?_
    · rw [forwardTemplate, prepareTemplate, if_neg (by simp [hlost]), hfind]
    · cases hfind.symm.trans hfind'
  | some t =>
  cases address with
  | none =>
    refine iff_of_true (forwardTemplate_null hlost hfind driver grants h) fun t p _ _ hdata => ?_
    cases hdata
  | some a =>
    refine (forwardTemplate_found_iff hlost hfind driver grants h).trans
      ⟨fun hc t' p _ hfind' hdata => ?_, fun hc => hc t _ hlost hfind rfl⟩
    cases hfind.symm.trans hfind'
    cases hdata
    exact hc

end NullDescriptors
