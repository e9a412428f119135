import Libhybris.NullDescriptors
import Libhybris.Overlay

/-!
# Stand-ins and the replacement of one descriptor

Which stand-ins a device has does not change while it uses them: what is made on
first need is what was to be expected before. One descriptor is then replaced in
a way that depends on its type, its kind and the memory only.
-/
namespace NullDescriptors

open ByteMemory

structure StandIns where
  image : (storage : Bool) → Kind → Handle
  buffer : (sink : Bool) → Handle
  texel : (sink : Bool) → Handle

/-- The stand-ins of a device whose dummies exist. -/
def Device.present (driver : Driver) (d : Device) : StandIns where
  image storage kind := (standin driver d kind storage).2
  buffer sink := if sink then d.sink else d.buffer
  texel sink := if sink then d.sinkTexel else d.texel

/-- The stand-ins of a device, if there are any or any can be made. -/
def standIns (driver : Driver) (d : Device) : Option StandIns :=
  match makeDummies driver d with
  | (_, false) => none
  | (d, true) => some (d.present driver)

/-- `d'` differs from `d` in what the replacements do not depend on. -/
structure Keeps (driver : Driver) (d d' : Device) : Prop where
  precise : d'.precise = d.precise
  templates : d'.templates = d.templates
  sets : d'.sets = d.sets
  hints : d'.hints = d.hints
  standIns : standIns driver d' = standIns driver d

theorem Keeps.refl (driver : Driver) (d : Device) : Keeps driver d d := ⟨rfl, rfl, rfl, rfl, rfl⟩

variable {d' d : Device} {type : DescriptorType} {s : Option StandIns} {m : Memory} {driver : Driver}

theorem Keeps.trans {d'' : Device} (h : Keeps driver d d') (h' : Keeps driver d' d'') :
    Keeps driver d d'' where
  precise := h'.precise.trans h.precise
  templates := h'.templates.trans h.templates
  sets := h'.sets.trans h.sets
  hints := h'.hints.trans h.hints
  standIns := h'.standIns.trans h.standIns

theorem Keeps.bindingKind (h : Keeps driver d d') (dsl : Handle) (binding : UInt32) :
    bindingKind d' dsl binding = bindingKind d dsl binding := by
  simp only [NullDescriptors.bindingKind, h.precise, h.hints]

theorem Keeps.setLayout (h : Keeps driver d d') (set : Handle) : setLayout d' set = setLayout d set := by
  simp only [NullDescriptors.setLayout, h.sets]

theorem standIns_made (h : d.dummies = .made) : standIns driver d = some (d.present driver) := by
  simp only [standIns, makeDummies, h]

theorem standIns_failed (h : d.dummies = .failed) : standIns driver d = none := by
  simp only [standIns, makeDummies, h]

/-- The view of a shape, made already or to be made. -/
def Device.viewOf (driver : Driver) (d : Device) (storage : Bool) (s : Shape) : Handle :=
  if (d.shape storage s).tried then (d.shape storage s).view else (driver.makeImage storage s).getD 0

theorem standin_shape (s : Shape) (storage : Bool) :
    (standin driver d (.shape s) storage).2 =
      if d.viewOf driver storage s = 0 then d.view storage else d.viewOf driver storage s := by
  by_cases htried : (d.shape storage s).tried
  · simp only [standin, Device.viewOf, htried, if_true]
    split <;> rfl
  · simp only [standin, Device.viewOf, htried, Device.setShape, and_self, if_true, if_false,
      Bool.false_eq_true]
    split <;> rfl

theorem viewOf_setShape {storage : Bool} {s : Shape} (h : ¬ (d.shape storage s).tried) :
    (d.setShape storage s ⟨true, (driver.makeImage storage s).getD 0⟩).viewOf driver =
      d.viewOf driver := by
  funext storage' s'
  by_cases heq : storage' = storage ∧ s' = s
  · obtain ⟨rfl, rfl⟩ := heq
    simp [Device.viewOf, Device.setShape, h]
  · simp only [Device.viewOf, Device.setShape, if_neg heq]

/-- Making a stand-in on first need does not change which one it is. -/
theorem standin_fst (driver : Driver) (d : Device) (kind : Kind) (storage : Bool) :
    ((standin driver d kind storage).1.viewOf driver = d.viewOf driver) ∧
    ∃ (shape : Bool → Shape → Image) (shaped : Nat),
      (standin driver d kind storage).1 = { d with shape := shape, shaped := shaped } := by
  cases kind with
  | unknown => exact ⟨rfl, d.shape, d.shaped, rfl⟩
  | mixed => exact ⟨rfl, d.shape, d.shaped, rfl⟩
  | shape s =>
    by_cases htried : (d.shape storage s).tried
    · simp only [standin, htried, if_true]
      split
      · exact ⟨rfl, d.shape, d.shaped, rfl⟩
      · exact ⟨rfl, d.shape, d.shaped + 1, rfl⟩
    · simp only [standin, htried, if_false, Bool.false_eq_true]
      split
      · exact ⟨viewOf_setShape htried, _, d.shaped, rfl⟩
      · exact ⟨viewOf_setShape htried, _, d.shaped + 1, rfl⟩

theorem standin_keeps (hmade : d.dummies = .made) (kind : Kind) (storage : Bool) :
    Keeps driver d (standin driver d kind storage).1 ∧
      (standin driver d kind storage).1.lost = d.lost ∧
      (standin driver d kind storage).1.dummies = .made := by
  obtain ⟨hview, shape, shaped, heq⟩ := standin_fst driver d kind storage
  rw [heq] at hview ⊢
  refine ⟨⟨rfl, rfl, rfl, rfl, ?_⟩, rfl, hmade⟩
  rw [standIns_made (by exact hmade), standIns_made hmade]
  have himage : ∀ storage' kind', (standin driver { d with shape := shape, shaped := shaped } kind'
      storage').2 = (standin driver d kind' storage').2 := by
    intro storage' kind'
    cases kind' with
    | unknown => rfl
    | mixed => rfl
    | shape s => rw [standin_shape, standin_shape, hview]
  simp only [Device.present, himage]

theorem makeDefault_fst (driver : Driver) (d : Device) (storage : Bool) :
    ∃ (shape : Bool → Shape → Image) (view : Bool → Handle),
      (makeDefault driver d storage).1 = { d with shape := shape, view := view } := by
  unfold makeDefault
  split
  · exact ⟨_, d.view, rfl⟩
  · exact ⟨_, _, rfl⟩

theorem makeBuffers_fst (driver : Driver) (d : Device) :
    ∃ buffer sink texel sinkTexel : Handle, (makeBuffers driver d).1 =
      { d with buffer := buffer, sink := sink, texel := texel, sinkTexel := sinkTexel } := by
  unfold makeBuffers
  split
  · exact ⟨d.buffer, d.sink, d.texel, d.sinkTexel, rfl⟩
  · split
    · exact ⟨_, d.sink, _, d.sinkTexel, rfl⟩
    · exact ⟨_, _, _, _, rfl⟩

theorem makeDummies_frame {ok : Bool} (h : makeDummies driver d = (d', ok)) :
    d'.dummies = (if ok then .made else .failed) ∧ d'.lost = d.lost ∧ d'.precise = d.precise ∧
      d'.templates = d.templates ∧ d'.sets = d.sets ∧ d'.hints = d.hints := by
  unfold makeDummies at h
  split at h
  case h_1 hmade => cases h; exact ⟨hmade, rfl, rfl, rfl, rfl, rfl⟩
  case h_2 hfailed => cases h; exact ⟨hfailed, rfl, rfl, rfl, rfl, rfl⟩
  case h_3 =>
  obtain ⟨shape, view, hfirst⟩ := makeDefault_fst driver d false
  generalize makeDefault driver d false = first at h hfirst
  obtain ⟨d₁, made₁⟩ := first
  obtain rfl : d₁ = { d with shape := shape, view := view } := hfirst
  cases made₁ with
  | false => cases h; exact ⟨rfl, rfl, rfl, rfl, rfl, rfl⟩
  | true =>
  obtain ⟨shape', view', hsecond⟩ :=
    makeDefault_fst driver { d with shape := shape, view := view } true
  dsimp only at h
  generalize makeDefault driver { d with shape := shape, view := view } true = second at h hsecond
  obtain ⟨d₂, made₂⟩ := second
  obtain rfl : d₂ = { d with shape := shape', view := view' } := hsecond
  cases made₂ with
  | false => cases h; exact ⟨rfl, rfl, rfl, rfl, rfl, rfl⟩
  | true =>
  obtain ⟨buffer, sink, texel, sinkTexel, hthird⟩ :=
    makeBuffers_fst driver { d with shape := shape', view := view' }
  dsimp only at h
  generalize makeBuffers driver { d with shape := shape', view := view' } = third at h hthird
  obtain ⟨d₃, made₃⟩ := third
  subst hthird
  cases made₃ with
  | false => cases h; exact ⟨rfl, rfl, rfl, rfl, rfl, rfl⟩
  | true => cases h; exact ⟨rfl, rfl, rfl, rfl, rfl, rfl⟩

theorem makeDummies_spec {ok : Bool} (h : makeDummies driver d = (d', ok)) :
    Keeps driver d d' ∧ d'.lost = d.lost ∧ ok = (standIns driver d).isSome ∧
      d'.dummies = (if ok then .made else .failed) := by
  obtain ⟨hdummies, hlost, hprecise, htemplates, hsets, hhints⟩ := makeDummies_frame h
  cases ok with
  | false =>
    have hnone : standIns driver d = none := by simp only [standIns, h]
    refine ⟨⟨hprecise, htemplates, hsets, hhints, ?_⟩, hlost, by rw [hnone]; rfl, hdummies⟩
    rw [standIns_failed hdummies, hnone]
  | true =>
    have hsome : standIns driver d = some (d'.present driver) := by simp only [standIns, h]
    refine ⟨⟨hprecise, htemplates, hsets, hhints, ?_⟩, hlost, by rw [hsome]; rfl, hdummies⟩
    rw [standIns_made hdummies, hsome]

/-! ## Elements -/

/-- A descriptor of a write's array or of a template's data, at its place there. -/
structure Element where
  type : DescriptorType
  kind : Kind
  start : Nat
  deriving DecidableEq, Repr

/-- The first byte that the driver reads of an element: an image without a sampler
begins with its view. -/
def readOffset : DescriptorType → Nat
  | .sampledImage | .storageImage | .inputAttachment => viewOffset
  | _ => 0

/-- How many bytes it reads; the padding of an image is not among them. -/
def readSize : DescriptorType → Nat
  | .sampler | .uniformTexelBuffer | .storageTexelBuffer | .accelerationStructure => 8
  | .sampledImage | .storageImage | .inputAttachment => 12
  | .combinedImageSampler => 20
  | .uniformBuffer | .storageBuffer | .uniformBufferDynamic | .storageBufferDynamic => 24
  | .inlineUniformBlock => 1
  | .other _ => 0

/-- What the driver reads of an element. -/
def Element.seen (x : Element) (m : Memory) : List UInt8 :=
  read m (x.start + readOffset x.type) (readSize x.type)

/-- The stand-in for a type, from the handle on: a view with its layout, a buffer with
offset and range, a texel view when one exists. -/
def standInBytes (s : StandIns) (type : DescriptorType) (kind : Kind) : List UInt8 :=
  if imageType type then
    dwordBytes (s.image (type == .storageImage) kind) ++ wordBytes imageLayoutGeneral
  else if bufferType type then
    dwordBytes (s.buffer (type == .storageBuffer || type == .storageBufferDynamic)) ++
      (dwordBytes 0 ++ dwordBytes wholeSize)
  else if texelType type then
    let view := s.texel (type == .storageTexelBuffer)
    if view = 0 then [] else dwordBytes view
  else []

def Element.handleAt (x : Element) : Nat := x.start + handleOffset x.type

def Element.null (x : Element) (m : Memory) : Bool :=
  replaceable x.type && readDword m x.handleAt == 0

def Element.standIn (s : Option StandIns) (x : Element) : List UInt8 :=
  match s with
  | none => []
  | some s => standInBytes s x.type x.kind

/-- The memory with this element alone replaced, if it is null. -/
def Element.replace (s : Option StandIns) (x : Element) (m : Memory) : Memory :=
  if x.null m then write m x.handleAt (x.standIn s) else m

def standInSize (type : DescriptorType) : Nat :=
  if imageType type then 12 else if bufferType type then 24 else if texelType type then 8 else 0

theorem length_standInBytes_le (s : StandIns) (type : DescriptorType) (kind : Kind) :
    (standInBytes s type kind).length ≤ standInSize type := by
  unfold standInBytes standInSize
  split
  · exact Nat.le_refl 12
  · split
    · exact Nat.le_refl 24
    · split
      · dsimp only
        split
        · exact Nat.zero_le 8
        · exact Nat.le_refl 8
      · exact Nat.le_refl 0

theorem Element.length_standIn_le (s : Option StandIns) (x : Element) :
    (x.standIn s).length ≤ standInSize x.type := by
  cases s with
  | none => exact Nat.zero_le _
  | some s => exact length_standInBytes_le s x.type x.kind

variable {x : Element}

/-- The driver reads the handle and all that the stand-in covers. -/
theorem handle_read (h : replaceable type = true) :
    readOffset type ≤ handleOffset type ∧ handleOffset type + 8 ≤ readOffset type + readSize type ∧
      handleOffset type + standInSize type ≤ readOffset type + readSize type := by
  cases type with
  | other v => cases h
  | _ => revert h; decide

/-- `fix_one` replaces the element by the stand-in of its type. -/
theorem fixOne_spec (driver : Driver) (hmade : d.dummies = .made) (htype : replaceable type = true)
    (kind : Kind) (m : Memory) (p : Nat) :
    (fixOne driver d type kind m p).2.1 =
        (Element.mk type kind p).replace (some (d.present driver)) m ∧
      Keeps driver d (fixOne driver d type kind m p).1 ∧
      (fixOne driver d type kind m p).1.lost = d.lost ∧
      (fixOne driver d type kind m p).1.dummies = .made := by
  have hkeep : Keeps driver d d ∧ True ∧ d.dummies = .made := ⟨Keeps.refl driver d, trivial, hmade⟩
  simp only [Element.replace, Element.null, Element.handleAt, Element.standIn, htype, Bool.true_and,
    beq_iff_eq, fixOne]
  by_cases himage : imageType type = true
  · simp only [himage, if_true, handleOffset, standInBytes]
    by_cases hnull : readDword m (p + viewOffset) = 0
    · simp only [hnull, ne_eq, not_true_eq_false, if_false, if_true]
      refine ⟨?_, standin_keeps hmade kind _⟩
      rw [← write_write]
      rfl
    · simp only [hnull, ne_eq, not_false_eq_true, if_true, if_false]
      exact ⟨trivial, hkeep⟩
  · by_cases hbuffer : bufferType type = true
    · simp only [himage, hbuffer, if_true, if_false, handleOffset, standInBytes, Nat.add_zero,
        Bool.false_eq_true]
      by_cases hnull : readDword m p = 0
      · simp only [hnull, ne_eq, not_true_eq_false, if_false, if_true]
        refine ⟨?_, hkeep⟩
        rw [← write_write, ← write_write]
        rfl
      · simp only [hnull, ne_eq, not_false_eq_true, if_true, if_false]
        exact ⟨trivial, hkeep⟩
    · have htexel : texelType type = true := by
        simpa only [replaceable, himage, hbuffer, Bool.false_or, Bool.or_false] using htype
      simp only [himage, hbuffer, htexel, if_true, if_false, handleOffset, standInBytes,
        Nat.add_zero, Bool.false_eq_true, Bool.true_and, Device.present, bne_iff_ne, beq_iff_eq]
      generalize (if type = .storageTexelBuffer then d.sinkTexel else d.texel) = view
      by_cases hview : view = 0
      · simp only [hview, ne_eq, not_true_eq_false, if_false, if_true, write_nil, ite_self]
        exact ⟨trivial, hkeep⟩
      · by_cases hnull : readDword m p = 0
        · simp only [hview, hnull, ne_eq, not_true_eq_false, not_false_eq_true, if_false, if_true]
          exact ⟨rfl, hkeep⟩
        · simp only [hview, hnull, ne_eq, not_false_eq_true, if_false, if_true]
          exact ⟨trivial, hkeep⟩

/-! ## Elements that share memory -/

/-- An element as an item of a shared memory. -/
def Element.item (s : Option StandIns) (x : Element) : Overlay.Item Nat UInt8 where
  reads := {p | x.start + readOffset x.type ≤ p ∧ p < x.start + readOffset x.type + readSize x.type}
  guard := {p | replaceable x.type = true ∧ x.handleAt ≤ p ∧ p < x.handleAt + 8}
  patch p :=
    if replaceable x.type = true ∧ x.handleAt ≤ p ∧ p < x.handleAt + (x.standIn s).length then
      some ((x.standIn s).getD (p - x.handleAt) 0)
    else none
  guard_reads p hp := by
    obtain ⟨htype, hp⟩ := hp
    have hread := handle_read htype
    simp only [Element.handleAt] at hp
    exact ⟨by omega, by omega⟩
  patch_reads p hp := by
    split at hp
    case isFalse => cases hp
    case isTrue h =>
    have hread := handle_read h.1
    have hsize := x.length_standIn_le s
    have hp := h.2
    simp only [Element.handleAt] at hp
    exact ⟨by omega, by omega⟩

theorem Element.item_blank (htype : replaceable x.type = true) :
    (x.item s).Blank 0 m ↔ x.null m = true := by
  simp only [Element.null, htype, Bool.true_and, beq_iff_eq, readDword_eq_zero_iff]
  exact ⟨fun h p hp hp' => h p ⟨htype, hp, hp'⟩, fun h p hp => h p hp.2.1 hp.2.2⟩

theorem Element.overlay_item (s : Option StandIns) (x : Element) (m : Memory) :
    (x.item s).overlay 0 m = x.replace s m := by
  by_cases htype : replaceable x.type = true
  · by_cases hnull : x.null m = true
    · rw [Element.replace, if_pos hnull]
      funext p
      by_cases hp : x.handleAt ≤ p ∧ p < x.handleAt + (x.standIn s).length
      · rw [Overlay.Item.overlay_of_patch ((Element.item_blank htype).mpr hnull)
          (if_pos ⟨htype, hp⟩), write, if_pos hp]
      · rw [Overlay.Item.overlay_of_none (if_neg fun h => hp h.2), write, if_neg hp]
    · rw [Element.replace, if_neg hnull]
      exact Overlay.Item.overlay_of_not_blank fun h => hnull ((Element.item_blank htype).mp h)
  · have hnull : ¬ x.null m = true := by simp [Element.null, htype]
    rw [Element.replace, if_neg hnull]
    exact funext fun p => Overlay.Item.overlay_of_none (if_neg fun h => htype h.1)

/-- Replacing one element after another is a sweep. -/
theorem sweep_items (s : Option StandIns) (xs : List Element) (m : Memory) :
    Overlay.sweep 0 (xs.map (Element.item s)) m = xs.foldl (fun m x => x.replace s m) m := by
  induction xs generalizing m with
  | nil => rfl
  | cons x rest ih =>
    rw [List.map_cons, Overlay.sweep, Element.overlay_item, ih, List.foldl_cons]

theorem Element.served_iff {m' : Memory} :
    x.seen m' = x.seen (x.replace s m) ↔ ∀ p ∈ (x.item s).reads, m' p = (x.item s).overlay 0 m p := by
  rw [Element.seen, Element.seen, read_eq_iff, Element.overlay_item]
  exact ⟨fun h p hp => h p hp.1 hp.2, fun h p hp hp' => h p ⟨hp, hp'⟩⟩

/-- Elements replaced one after another in a copy `m₀` of `m` are all read as they should
exactly when they are coherent. -/
theorem replaced_iff {xs : List Element} {m₀ : Memory} (hcopy : ∀ x ∈ xs, x.seen m₀ = x.seen m) :
    (∀ x ∈ xs, x.seen (xs.foldl (fun m x => x.replace s m) m₀) = x.seen (x.replace s m)) ↔
      Overlay.Coherent 0 m (xs.map (Element.item s)) := by
  have hsame : ∀ y ∈ xs.map (Element.item s), ∀ p ∈ y.reads, m₀ p = m p := by
    intro y hy p hp
    obtain ⟨x, hx, rfl⟩ := List.mem_map.mp hy
    exact read_eq_iff.mp (hcopy x hx) p hp.1 hp.2
  rw [← Overlay.sweep_serves_iff hsame, ← sweep_items]
  constructor
  · intro h y hy
    obtain ⟨x, hx, rfl⟩ := List.mem_map.mp hy
    exact Element.served_iff.mp (h x hx)
  · exact fun h x hx => Element.served_iff.mpr (h _ (List.mem_map_of_mem hx))

/-! ## Change of origin -/

theorem Element.replace_shift (s : Option StandIns) (type : DescriptorType) (kind : Kind)
    (b o : Nat) (m : Memory) :
    (fun p => (Element.mk type kind (b + o)).replace s m (b + p)) =
      (Element.mk type kind o).replace s (fun p => m (b + p)) := by
  have hnull : (Element.mk type kind (b + o)).null m =
      (Element.mk type kind o).null (fun p => m (b + p)) := by
    simp only [Element.null, Element.handleAt, Nat.add_assoc b o, readDword_shift]
  unfold Element.replace
  rw [hnull]
  split
  · simp only [Element.handleAt, Nat.add_assoc b o]
    exact write_shift m b (o + handleOffset type) _
  · rfl

theorem Element.replace_outside (s : Option StandIns) (htype : replaceable x.type = true)
    (m : Memory) {p : Nat} (h : p < x.start ∨ x.start + (readOffset x.type + readSize x.type) ≤ p) :
    x.replace s m p = m p := by
  have hread := handle_read htype
  have hsize := x.length_standIn_le s
  unfold Element.replace
  split
  · exact write_outside m _ (by simp only [Element.handleAt]; omega)
  · rfl

/-- A local object holds the bytes it was made of. -/
theorem localObject_read (m : Memory) (o : Nat) {n i : Nat} (hi : i < n) :
    localObject (read m o n) i = m (o + i) := by
  have hinside := write_inside (fun _ => 0) (a := 0) (i := i) (read m o n) (by simpa using hi)
  rw [Nat.zero_add] at hinside
  rw [localObject, hinside]
  simp [ByteMemory.read, hi]

theorem readDword_local (m : Memory) (o : Nat) :
    readDword (localObject (read m o 8)) 0 = readDword m o := by
  rw [readDword_congr (n := fun i => m (o + i)) fun i _ hi => localObject_read m o (by omega),
    readDword_shift, Nat.add_zero]

/-- An element is replaced in a local copy of its `n` bytes, which is written back. -/
theorem Element.replace_local (s : Option StandIns) (htype : replaceable type = true) (kind : Kind)
    {o n : Nat} (m : Memory) (hn : readOffset type + readSize type ≤ n) :
    write m o (read ((Element.mk type kind 0).replace s (localObject (read m o n))) 0 n) =
        (Element.mk type kind o).replace s m ∧
      (readDword (localObject (read m o n)) (handleOffset type) = 0 ↔
        (Element.mk type kind o).null m = true) := by
  have hread := handle_read htype
  have hnull : (Element.mk type kind 0).null (localObject (read m o n)) =
      (Element.mk type kind 0).null (fun i => m (o + i)) := by
    simp only [Element.null, Element.handleAt, Nat.zero_add]
    rw [readDword_congr fun i _ hi => localObject_read m o (by omega)]
  have hnull' : (Element.mk type kind 0).null (fun i => m (o + i)) =
      (Element.mk type kind o).null m := by
    simp only [Element.null, Element.handleAt, Nat.zero_add, readDword_shift]
  constructor
  · refine write_back (fun i hi => ?_) fun x hx =>
      (Element.replace_outside s htype m (by dsimp only; omega)).symm
    have hshift := congrFun (Element.replace_shift s type kind o 0 m) i
    simp only [Nat.add_zero] at hshift
    rw [hshift, Element.replace, Element.replace, hnull]
    split
    · simp only [write, localObject_read m o hi]
    · exact localObject_read m o hi
  · rw [← hnull', ← hnull]
    simp [Element.null, htype, Element.handleAt]

end NullDescriptors
