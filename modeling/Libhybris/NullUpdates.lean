import Libhybris.NullTemplates
import Mathlib.Data.List.Forall2

/-!
# Descriptor updates

Write lists are copied array by array, so that no replacement touches another
array. Templates share one copy of their data. The section at the end puts both
together: what the driver finds after an update, through a write list or through
a template, and when the elements of a template spoil each other.
-/
namespace NullDescriptors

open ByteMemory List

/-- The kind noted for the binding of a write. -/
def Write.kind (d : Device) (pushed : Bool) (dsl : Handle) (w : Write) : Kind :=
  if imageType w.descriptorType then
    bindingKind d (if pushed then dsl else setLayout d w.dstSet) w.dstBinding
  else .unknown

def Write.elementAt (kind : Kind) (w : Write) (j : Nat) : Element :=
  ⟨w.descriptorType, kind, j * (infoSize w.descriptorType).toNat⟩

def Write.elements (kind : Kind) (w : Write) : List Element :=
  (List.range w.count).map (w.elementAt kind)

variable {driver : Driver} {d : Device} {h h' : Heap} {w : Write} {p : Pointer} {grants : Grants}

@[simp] theorem Write.setData_type (w : Write) (data : Option Pointer) :
    (w.setData data).descriptorType = w.descriptorType := by
  unfold Write.setData
  repeat' split
  all_goals rfl

@[simp] theorem Write.setData_setData (w : Write) (data data' : Option Pointer) :
    (w.setData data).setData data' = w.setData data' := by
  rw [Write.setData.eq_def (w.setData data)]
  unfold Write.setData
  split
  · rfl
  · split
    · rfl
    · split
      · rfl
      · rfl

theorem replaceable_of_data {w : Write} {p : Pointer} (h : w.data = some p) :
    replaceable w.descriptorType = true := by
  unfold Write.data at h
  unfold replaceable
  split at h
  · simp [*]
  · split at h
    · simp [*]
    · split at h
      · simp [*]
      · cases h

theorem Write.data_setData (w : Write) (data : Option Pointer)
    (htype : replaceable w.descriptorType = true) : (w.setData data).data = data := by
  rw [Write.data]
  unfold Write.setData
  split
  · rfl
  · split
    · rfl
    · split
      · rfl
      · simp [replaceable, *] at htype

theorem Write.data_setData_none (w : Write) : (w.setData none).data = none := by
  by_cases htype : replaceable w.descriptorType = true
  · exact w.data_setData none htype
  · cases hdata : (w.setData none).data with
    | none => rfl
    | some p =>
      have htype' := replaceable_of_data hdata
      rw [Write.setData_type] at htype'
      exact absurd htype' htype

/-! ## The copy -/

/-- The blocks `ids` have been added to the heap, each with its own contents. -/
structure Grew (ids : List Nat) (h h' : Heap) : Prop where
  application : h'.memory .application = h.memory .application
  below : ∀ id < h.attempts, h'.memory (.block id) = h.memory (.block id)
  attempts : h.attempts ≤ h'.attempts
  taken : h'.taken = ids.reverse ++ h.taken
  freed : h'.freed = h.freed
  sorted : ids.Pairwise (· < ·)
  range : ∀ id ∈ ids, h.attempts ≤ id ∧ id < h'.attempts

theorem Grew.refl (h : Heap) : Grew [] h h :=
  ⟨rfl, fun _ _ => rfl, Nat.le_refl _, rfl, rfl, .nil, nofun⟩

variable {ids : List Nat} {out : Write} {writes : List Write}

theorem Grew.trans {ids' : List Nat} {h h' h'' : Heap} (first : Grew ids h h')
    (second : Grew ids' h' h'') : Grew (ids ++ ids') h h'' where
  application := second.application.trans first.application
  below id hid := (second.below id (hid.trans_le first.attempts)).trans (first.below id hid)
  attempts := first.attempts.trans second.attempts
  taken := by rw [second.taken, first.taken, reverse_append, append_assoc]
  freed := second.freed.trans first.freed
  sorted := pairwise_append.mpr ⟨first.sorted, second.sorted, fun a ha b hb =>
    (first.range a ha).2.trans_le (second.range b hb).1⟩
  range id hid := by
    rcases mem_append.mp hid with hid | hid
    · exact ⟨(first.range id hid).1, (first.range id hid).2.trans_le second.attempts⟩
    · exact ⟨first.attempts.trans (second.range id hid).1, (second.range id hid).2⟩

theorem grew_malloc (h : Heap) (m : Memory) :
    Grew [h.attempts] h (Heap.setMemory
      { h with attempts := h.attempts + 1, taken := h.attempts :: h.taken } (.block h.attempts) m) where
  application := by simp [Heap.setMemory]
  below id hid := by
    have hne : ¬ id = h.attempts := by omega
    simp [Heap.setMemory, hne]
  attempts := Nat.le_succ _
  taken := rfl
  freed := rfl
  sorted := pairwise_singleton _ _
  range id hid := by
    obtain rfl := mem_singleton.mp hid
    exact ⟨Nat.le_refl _, Nat.lt_succ_self _⟩

theorem grew_refused (h : Heap) : Grew [] h { h with attempts := h.attempts + 1 } :=
  ⟨rfl, fun _ _ => rfl, Nat.le_succ _, rfl, rfl, .nil, nofun⟩

/-- `out` is the copy of `w`: the same write with an array of its own, if it has any. -/
structure CopiedWrite (h h' : Heap) (w out : Write) : Prop where
  target : out.setData none = w.setData none
  data : (out.data = none ∧ (w.data = none ∨ w.count = 0)) ∨
    ∃ p id, w.data = some p ∧ p.space = .application ∧ out.data = some ⟨.block id, 0⟩ ∧
      id < h'.attempts ∧ ∀ i < w.count * (infoSize w.descriptorType).toNat,
        h'.memory (.block id) i = region h.memory p i

theorem CopiedWrite.grew {h'' : Heap} (hcopied : CopiedWrite h h' w out) (hgrew : Grew ids h' h'') :
    CopiedWrite h h'' w out := by
  refine ⟨hcopied.target, hcopied.data.imp_right ?_⟩
  rintro ⟨p, id, hdata, hspace, hout, hid, hbytes⟩
  refine ⟨p, id, hdata, hspace, hout, hid.trans_le hgrew.attempts, fun i hi => ?_⟩
  rw [hgrew.below id hid]
  exact hbytes i hi

theorem CopiedWrite.of_grew {h₀ : Heap} (hgrew : Grew ids h₀ h) (hcopied : CopiedWrite h h' w out) :
    CopiedWrite h₀ h' w out := by
  refine ⟨hcopied.target, hcopied.data.imp_right ?_⟩
  rintro ⟨p, id, hdata, hspace, hout, hid, hbytes⟩
  refine ⟨p, id, hdata, hspace, hout, hid, fun i hi => ?_⟩
  rw [hbytes i hi, region, region, hspace, hgrew.application]

/-- The size of a private array does not wrap. -/
theorem arraySize_toNat (w : Write) :
    (infoSize w.descriptorType * w.descriptorCount.toUInt64).toNat =
      w.count * (infoSize w.descriptorType).toNat := by
  have hcount := w.descriptorCount.toNat_lt
  have hsize : (infoSize w.descriptorType).toNat ≤ 24 := by
    unfold infoSize
    split
    · decide
    · split
      · decide
      · split <;> decide
  have hproduct : (infoSize w.descriptorType).toNat * w.descriptorCount.toNat ≤
      24 * w.descriptorCount.toNat := Nat.mul_le_mul_right _ hsize
  rw [UInt64.toNat_mul, UInt32.toNat_toUInt64, Write.count, Nat.mul_comm w.descriptorCount.toNat]
  exact Nat.mod_eq_of_lt (by omega)

theorem copyWrite_spec (howned : ∀ p, w.data = some p → p.space = .application) {ok : Bool}
    (hcopy : copyWrite grants h w = (h', out, ok)) :
    ∃ ids : List Nat, Grew ids h h' ∧ out.data.toList = ids.map (fun id => ⟨.block id, 0⟩) ∧
      (ok = true → CopiedWrite h h' w out) := by
  unfold copyWrite at hcopy
  dsimp only at hcopy
  split at hcopy
  case h_1 hdata =>
    cases hcopy
    refine ⟨[], Grew.refl h, by rw [Write.data_setData_none]; rfl,
      fun _ => ⟨by simp, .inl ⟨?_, .inl hdata⟩⟩⟩
    exact w.data_setData_none
  case h_2 p hdata =>
  split at hcopy
  case isTrue hcount =>
    cases hcopy
    refine ⟨[], Grew.refl h, by rw [Write.data_setData_none]; rfl, fun _ => ⟨by simp, .inl ⟨?_, .inr ?_⟩⟩⟩
    · exact w.data_setData_none
    · rw [Write.count, hcount]
      rfl
  case isFalse =>
  split at hcopy
  case isTrue =>
    cases hcopy
    exact ⟨[], Grew.refl h, by rw [Write.data_setData_none]; rfl, nofun⟩
  case isFalse =>
  cases hgrants : grants h.attempts with
  | false =>
    rw [malloc_refused hgrants] at hcopy
    cases hcopy
    exact ⟨[], grew_refused h, by rw [Write.data_setData_none]; rfl, nofun⟩
  | true =>
    rw [malloc_granted hgrants] at hcopy
    cases hcopy
    have htype := replaceable_of_data hdata
    have hout : ((w.setData none).setData (some ⟨.block h.attempts, 0⟩)).data =
        some ⟨.block h.attempts, 0⟩ := Write.data_setData _ _ (by rw [Write.setData_type]; exact htype)
    refine ⟨[h.attempts], grew_malloc h _, by rw [hout]; rfl, fun _ => ⟨by simp, .inr ?_⟩⟩
    refine ⟨p, h.attempts, hdata, howned p hdata, hout, Nat.lt_succ_self _, fun i hi => ?_⟩
    simp only [Heap.setMemory, if_true]
    have hinside := write_inside (h.memory (.block h.attempts)) (a := 0) (i := i)
      (read (h.memory p.space) p.addr (infoSize w.descriptorType * w.descriptorCount.toUInt64).toNat)
      (by rw [length_read, arraySize_toNat]; exact hi)
    rw [Nat.zero_add] at hinside
    rw [hinside, arraySize_toNat]
    simp [ByteMemory.read, region, hi]

/-- The application's arrays are in its own memory. -/
def Owned (writes : List Write) : Prop := ∀ w ∈ writes, ∀ p, w.data = some p → p.space = .application

theorem filterMap_zero (rest : List Write) :
    (rest.map fun _ => Write.zero).filterMap Write.data = [] := by
  simp [Write.zero, Write.data, imageType, bufferType, texelType]

theorem copyLoop_spec (howned : Owned writes) {outs : List Write} {ok : Bool}
    (hcopy : copyLoop grants h writes = (h', outs, ok)) :
    ∃ ids : List Nat, Grew ids h h' ∧ outs.filterMap Write.data = ids.map
      (fun id => ⟨.block id, 0⟩) ∧ (ok = true → List.Forall₂ (CopiedWrite h h') writes outs) := by
  induction writes generalizing h h' outs ok with
  | nil =>
    cases hcopy
    exact ⟨[], Grew.refl _, rfl, fun _ => .nil⟩
  | cons w rest ih =>
    rw [copyLoop] at hcopy
    cases hfirst : copyWrite grants h w with
    | mk h₁ result =>
    obtain ⟨out, ok₁⟩ := result
    obtain ⟨ids, hgrew, hdata, hcopied⟩ := copyWrite_spec (howned w mem_cons_self) hfirst
    rw [hfirst] at hcopy
    cases ok₁ with
    | false =>
      cases hcopy
      refine ⟨ids, hgrew, ?_, nofun⟩
      rw [filterMap_cons, filterMap_zero, ← hdata]
      cases out.data <;> rfl
    | true =>
      cases hrest : copyLoop grants h₁ rest with
      | mk h₂ result =>
      obtain ⟨ids', hgrew', hdata', hcopied'⟩ :=
        ih (fun w' hw' => howned w' (mem_cons_of_mem w hw')) hrest
      dsimp only at hcopy
      rw [hrest] at hcopy
      cases hcopy
      refine ⟨ids ++ ids', hgrew.trans hgrew', ?_, fun hok => .cons ((hcopied rfl).grew hgrew') ?_⟩
      · rw [map_append, ← hdata, ← hdata', filterMap_cons]
        cases out.data <;> rfl
      · exact (hcopied' hok).imp fun _ _ => CopiedWrite.of_grew hgrew

theorem foldl_free (writes : List Write) (h : Heap) :
    writes.foldl (fun h w => free h w.data) h =
      { h with freed := (writes.filterMap Write.data).reverse ++ h.freed } := by
  induction writes generalizing h with
  | nil => rfl
  | cons w rest ih =>
    rw [foldl_cons, ih, filterMap_cons]
    cases w.data with
    | none => rfl
    | some p => simp [free]

theorem freeWrites_memory (h : Heap) (out : Option Pointer) (writes : List Write) :
    (freeWrites h out writes).memory = h.memory := by
  cases out with
  | none => rfl
  | some p => rw [freeWrites, foldl_free]; rfl

variable {h₁ : Heap}

/-- Freeing the copy gives back all that was taken for it. -/
theorem freeWrites_balanced {h₂ : Heap} (hfirst : Grew [h.attempts] h h₁) (hgrew : Grew ids h₁ h₂)
    (hdata : writes.filterMap Write.data = ids.map fun id => ⟨.block id, 0⟩) (htaken : h'.taken = h₂.taken)
    (hfreed : h'.freed = h₂.freed) : Balanced h (freeWrites h' (some ⟨.block h.attempts, 0⟩) writes) := by
  have hall := hfirst.trans hgrew
  refine ⟨([h.attempts] ++ ids).reverse, ⟨.block h.attempts, 0⟩ :: (ids.map fun id =>
    (⟨.block id, 0⟩ : Pointer)).reverse, ?_, ?_, ?_, ?_, ?_⟩
  · rw [freeWrites, foldl_free]
    exact htaken.trans hall.taken
  · rw [freeWrites, foldl_free, hdata, free]
    simp only [cons_append, hfreed, hall.freed]
  · exact (reverse_perm _).nodup_iff.mpr (hall.sorted.imp Nat.ne_of_lt)
  · intro id hid
    exact (hall.range id (mem_reverse.mp hid)).1
  · rw [map_reverse]
    exact ((reverse_perm _).cons _).trans (reverse_perm _).symm

/-! ## The replacements -/

/-- The layout at hand is that of the set written last; a pushed set has one layout. -/
def Fix.Layout (d : Device) (pushed : Bool) (dsl : Handle) (f : Fix) : Prop :=
  if pushed then f.dsl = dsl else f.dsl = setLayout d f.last

variable {f f' : Fix} {pushed : Bool} {dsl : Handle}

theorem Fix.Layout.of_eq (hlayout : f.Layout d pushed dsl) (hlast : f'.last = f.last)
    (hdsl : f'.dsl = f.dsl) : f'.Layout d pushed dsl := by
  unfold Fix.Layout at *
  rw [hlast, hdsl]
  exact hlayout

/-- The kind the loop looks up is the one noted for the write's binding. -/
theorem fixWrite_kind (hok : f.Ok driver d) (hlayout : f.Layout d pushed dsl) (w : Write) :
    ∃ last dsl' : Handle,
      (if !pushed && imageType w.descriptorType && w.dstSet != f.last then
          { f with last := w.dstSet, dsl := setLayout f.device w.dstSet }
        else f) = { f with last := last, dsl := dsl' } ∧
      Fix.Layout d pushed dsl { f with last := last, dsl := dsl' } ∧
      (if imageType w.descriptorType then bindingKind f.device dsl' w.dstBinding else .unknown) =
        w.kind d pushed dsl := by
  unfold Write.kind
  by_cases himage : imageType w.descriptorType = true
  · cases pushed with
    | true =>
      refine ⟨f.last, f.dsl, by simp, hlayout, ?_⟩
      have hdsl : f.dsl = dsl := by simpa [Fix.Layout] using hlayout
      simp [himage, hdsl, hok.keeps.bindingKind]
    | false =>
      have hdsl : f.dsl = setLayout d f.last := by simpa [Fix.Layout] using hlayout
      by_cases hlast : w.dstSet = f.last
      · refine ⟨f.last, f.dsl, by simp [hlast], hlayout, ?_⟩
        simp [himage, hlast, hdsl, hok.keeps.bindingKind]
      · refine ⟨w.dstSet, setLayout f.device w.dstSet, by simp [himage, hlast], ?_, ?_⟩
        · simp [Fix.Layout, hok.keeps.setLayout]
        · simp [himage, hok.keeps.bindingKind, hok.keeps.setLayout]
  · exact ⟨f.last, f.dsl, by simp [himage], hlayout, by simp [himage]⟩

theorem nullAt_eq (hdata : w.data = some p) (kind : Kind) (j : Nat) :
    w.nullAt h p j = (w.elementAt kind j).null (region h.memory p) := by
  simp only [Write.nullAt, Write.element, Element.null, Write.elementAt, Element.handleAt,
    replaceable_of_data hdata, Bool.true_and, readDword_region, Nat.add_assoc]

section
variable (hok : f.Ok driver d) (hlayout : f.Layout d pushed dsl) (hdata : w.data = some p)
include hok hlayout hdata

/-- One element of a private array. -/
theorem fixWriteElement_spec (j : Nat) :
    Swept driver d p [w.elementAt (w.kind d pushed dsl) j] f (fixWriteElement driver pushed w p j f) ∧
      (fixWriteElement driver pushed w p j f).Layout d pushed dsl := by
  have htype := replaceable_of_data hdata
  have hnull_eq := nullAt_eq (h := f.heap) hdata (w.kind d pushed dsl) j
  unfold fixWriteElement
  split
  case isTrue hnot =>
    have hnull : (w.elementAt (w.kind d pushed dsl) j).null (region f.heap.memory p) = false := by
      rw [← hnull_eq]
      simpa using hnot
    exact ⟨.sound hok hnull, hlayout⟩
  case isFalse hnot =>
  have hnull : (w.elementAt (w.kind d pushed dsl) j).null (region f.heap.memory p) = true := by
    rw [← hnull_eq]
    simpa using hnot
  obtain ⟨hok', hready, hlost, hheap, hlast, hdsl⟩ := hok.prepare
  have hlayout' := hlayout.of_eq hlast hdsl
  generalize f.prepare driver = f₁ at hok' hready hlost hheap hlayout'
  dsimp only
  cases hstand : standIns driver d with
  | none =>
    rw [hstand] at hready
    rw [if_pos (by rw [hready]; decide)]
    exact ⟨.loses hok' hready hheap hstand hnull, hlayout'.of_eq rfl rfl⟩
  | some s =>
    rw [hstand] at hready
    rw [if_neg fun h => h hready]
    obtain ⟨last, dsl', hset, hlayout'', hkind⟩ := fixWrite_kind hok' hlayout' w
    rw [hset]
    rw [hkind]
    obtain ⟨hmade, hpresent⟩ := hok'.present hready
    obtain ⟨hvalue, hkeeps, hlost', hmade'⟩ := fixOne_spec driver hmade htype (w.kind d pushed dsl)
      (f₁.heap.memory p.space) (w.element p j)
    refine ⟨⟨⟨hok'.keeps.trans hkeeps, fun b hb => ?_⟩, ?_, ?_, ?_⟩, hlayout''.of_eq rfl rfl⟩
    · obtain rfl : b = true := by simpa [hready] using hb.symm
      exact ⟨(hok'.ready true hready).1, hmade'⟩
    · rw [hheap]
      exact Frame.setMemory _ _ _
    · rw [hvalue, hheap, ← hpresent]
      have hshift := Element.replace_shift (standIns driver d) w.descriptorType
        (w.kind d pushed dsl) p.addr (j * (infoSize w.descriptorType).toNat) (f.heap.memory p.space)
      refine Eq.trans (funext fun x => ?_) hshift
      simp only [region, Heap.setMemory, if_true]
      rfl
    · simp [hlost', hlost, hstand]

theorem fixWrite_spec :
    Swept driver d p (w.elements (w.kind d pushed dsl)) f (fixWrite driver pushed f w) ∧
      (fixWrite driver pushed f w).Layout d pushed dsl := by
  rw [fixWrite, hdata, Write.elements]
  generalize List.range w.count = js
  induction js generalizing f with
  | nil => exact ⟨Swept.nil hok p, hlayout⟩
  | cons j rest ih =>
    obtain ⟨hswept, hlayout'⟩ := fixWriteElement_spec hok hlayout hdata j
    obtain ⟨hswept', hlayout''⟩ := ih hswept.ok hlayout'
    exact ⟨hswept.append hswept', hlayout''⟩

end

/-- The loop over all writes, each with an array in a space of its own. -/
structure SweptAll (driver : Driver) (d : Device) (pushed : Bool) (dsl : Handle)
    (writes : List Write) (f f' : Fix) : Prop where
  others : ∀ space, (∀ w ∈ writes, ∀ p, w.data = some p → p.space ≠ space) →
    f'.heap.memory space = f.heap.memory space
  taken : f'.heap.taken = f.heap.taken
  freed : f'.heap.freed = f.heap.freed
  region : ∀ w ∈ writes, ∀ p, w.data = some p → region f'.heap.memory p =
    (w.elements (w.kind d pushed dsl)).foldl (fun m x => x.replace (standIns driver d) m)
      (NullDescriptors.region f.heap.memory p)
  lost : (standIns driver d).isSome → f'.device.lost = f.device.lost
  sticky : f.device.lost = true → f'.device.lost = true
  fails : standIns driver d = none → ∀ w ∈ writes, ∀ p, w.data = some p →
    (w.elements (w.kind d pushed dsl)).any
      (fun x => x.null (NullDescriptors.region f.heap.memory p)) = true → f'.device.lost = true

theorem fixWrites_spec (hok : f.Ok driver d) (hlayout : f.Layout d pushed dsl)
    (hspaces : (writes.filterMap Write.data).Pairwise fun p q => p.space ≠ q.space) :
    SweptAll driver d pushed dsl writes f (writes.foldl (fixWrite driver pushed) f) := by
  induction writes generalizing f with
  | nil => exact ⟨fun _ _ => rfl, rfl, rfl, nofun, fun _ => rfl, fun h => h, nofun⟩
  | cons w rest ih =>
    rw [foldl_cons]
    cases hdata : w.data with
    | none =>
      have hskip : fixWrite driver pushed f w = f := by rw [fixWrite, hdata]
      rw [filterMap_cons, hdata] at hspaces
      have hrest := ih hok hlayout hspaces
      rw [hskip]
      have hnone : ∀ p, ¬ w.data = some p := fun p hp => by rw [hdata] at hp; cases hp
      refine ⟨fun space hspace => hrest.others space fun w' hw' => hspace w' (mem_cons_of_mem w hw'),
        hrest.taken, hrest.freed, fun w' hw' p hp => ?_, hrest.lost, hrest.sticky,
        fun hstand w' hw' p hp => ?_⟩
      all_goals
        rcases mem_cons.mp hw' with rfl | hw'
        · exact absurd hp (hnone p)
      · exact hrest.region w' hw' p hp
      · exact hrest.fails hstand w' hw' p hp
    | some p =>
      rw [filterMap_cons, hdata] at hspaces
      obtain ⟨happart, hspaces⟩ := pairwise_cons.mp hspaces
      obtain ⟨hswept, hlayout'⟩ := fixWrite_spec hok hlayout hdata
      have hrest := ih hswept.ok hlayout' hspaces
      generalize fixWrite driver pushed f w = f₁ at hswept hlayout' hrest
      -- the arrays of the other writes are in other spaces
      have hother : ∀ w' ∈ rest, ∀ q, w'.data = some q → p.space ≠ q.space := fun w' hw' q hq =>
        happart q (mem_filterMap.mpr ⟨w', hw', hq⟩)
      have hregion : ∀ w' ∈ rest, ∀ q, w'.data = some q →
          region f₁.heap.memory q = region f.heap.memory q := fun w' hw' q hq =>
        hswept.frame.region (hother w' hw' q hq).symm
      refine ⟨fun space hspace => ?_, hrest.taken.trans hswept.frame.taken,
        hrest.freed.trans hswept.frame.freed, fun w' hw' q hq => ?_, fun hsome => ?_, fun hlost => ?_,
        fun hstand w' hw' q hq hnull => ?_⟩
      · rw [hrest.others space fun w' hw' => hspace w' (mem_cons_of_mem w hw')]
        exact hswept.frame.memory space (hspace w mem_cons_self p hdata).symm
      · rcases mem_cons.mp hw' with rfl | hw'
        · rw [hdata] at hq
          cases hq
          rw [region_congr (hrest.others p.space fun w' hw' q hq => (hother w' hw' q hq).symm)]
          exact hswept.region
        · rw [hrest.region w' hw' q hq, hregion w' hw' q hq]
      · rw [hrest.lost hsome, hswept.lost]
        cases hstand : standIns driver d with
        | none => rw [hstand] at hsome; cases hsome
        | some s => simp
      · exact hrest.sticky (by rw [hswept.lost, hlost, Bool.true_or])
      · rcases mem_cons.mp hw' with rfl | hw'
        · rw [hdata] at hq
          cases hq
          exact hrest.sticky (by rw [hswept.lost, hstand, hnull]; simp)
        · exact hrest.fails hstand w' hw' q hq (by rw [hregion w' hw' q hq]; exact hnull)

/-- The driver reads an element of an array within its size. -/
theorem array_fits {type : DescriptorType} (htype : replaceable type = true) :
    readOffset type + readSize type ≤ (infoSize type).toNat := by
  cases type with
  | other v => cases htype
  | _ => revert htype; decide

/-- The elements of an array do not overlap. -/
theorem elements_apart (s : Option StandIns) (kind : Kind) (htype : replaceable w.descriptorType = true) :
    ((w.elements kind).map (Element.item s)).Pairwise Overlay.Apart := by
  have hfits := array_fits htype
  rw [Write.elements, map_map, pairwise_map]
  refine pairwise_lt_range.imp fun {i j} hij x hx hx' => ?_
  have hmul : (i + 1) * (infoSize w.descriptorType).toNat ≤ j * (infoSize w.descriptorType).toNat :=
    Nat.mul_le_mul_right _ hij
  rw [Nat.add_mul] at hmul
  have hbelow := hx.2
  have habove := hx'.1
  simp only [Write.elementAt] at hbelow habove
  omega

/-! ## Calls with a write list -/

/-- The driver finds the write `w` in `w'`: the same target, and for each element the
application's descriptor or the stand-in for its type. -/
structure Write.Served (driver : Driver) (d : Device) (h : Heap) (pushed : Bool) (dsl : Handle)
    (memory : Space → Memory) (w w' : Write) : Prop where
  target : w'.setData none = w.setData none
  null : w.data = none → w'.data = none
  reads : ∀ p, w.data = some p → ∀ x ∈ w.elements (w.kind d pushed dsl), ∃ q, w'.data = some q ∧
    x.Served driver d (region h.memory p) (region memory q)

/-- What a call with a write list should do. -/
structure WritesExact (driver : Driver) (d : Device) (h : Heap) (pushed : Bool) (dsl : Handle)
    (writes : List Write) (out : Outcome WritesCall) : Prop where
  application : out.heap.memory .application = h.memory .application
  reads : ∀ call, out.call = some call →
    List.Forall₂ (Write.Served driver d h pushed dsl call.memory) writes call.writes
  lost : out.call = none → out.device.lost = true
  freed : Balanced h out.heap

theorem hasNullWrites_iff (kind : Write → Kind) :
    hasNullWrites h writes = true ↔ ∃ w ∈ writes, ∃ p, w.data = some p ∧
      (w.elements (kind w)).any (fun x => x.null (region h.memory p)) = true := by
  have hany : ∀ (w : Write) (p : Pointer), w.data = some p →
      (w.elements (kind w)).any (fun x => x.null (region h.memory p)) =
        (List.range w.count).any fun j => w.nullAt h p j := by
    intro w p hdata
    rw [Write.elements, any_map]
    refine congrArg _ (funext fun j => ?_)
    exact (nullAt_eq hdata (kind w) j).symm
  unfold hasNullWrites
  rw [any_eq_true]
  refine exists_congr fun w => and_congr_right fun _ => ?_
  cases hdata : w.data with
  | none => simp
  | some p => simp [← hany w p hdata]

theorem served_self (hnull : hasNullWrites h writes = false) :
    List.Forall₂ (Write.Served driver d h pushed dsl h.memory) writes writes := by
  refine List.forall₂_same.mpr fun w hw => ⟨rfl, id, fun p hdata x hx => ⟨p, hdata, ?_⟩⟩
  have hsound : x.null (region h.memory p) = false := by
    by_contra hx'
    have hall := (hasNullWrites_iff (h := h) (Write.kind d pushed dsl)).mpr
      ⟨w, hw, p, hdata, any_eq_true.mpr ⟨x, hx, by simpa using hx'⟩⟩
    rw [hnull] at hall
    cases hall
  refine ⟨fun hx' => ?_, by rw [Element.replace, if_neg (by simp [hsound])]⟩
  rw [hsound] at hx'
  cases hx'

/-- What is read of an element of the copy is what is read of it in the array. -/
theorem seen_array {m m' : Memory} {kind : Kind} (htype : replaceable w.descriptorType = true)
    (hbytes : ∀ i < w.count * (infoSize w.descriptorType).toNat, m i = m' i) {x : Element}
    (hx : x ∈ w.elements kind) : x.seen m = x.seen m' := by
  have hfits := array_fits htype
  obtain ⟨j, hj, rfl⟩ := mem_map.mp hx
  have hmul : (j + 1) * (infoSize w.descriptorType).toNat ≤
      w.count * (infoSize w.descriptorType).toNat :=
    Nat.mul_le_mul_right _ (mem_range.mp hj)
  rw [Nat.add_mul] at hmul
  refine read_congr fun i _ hi => hbytes i ?_
  simp only [Write.elementAt] at hi
  omega

theorem elements_copied (htarget : out.setData none = w.setData none) :
    out.descriptorType = w.descriptorType ∧ out.count = w.count ∧ out.dstSet = w.dstSet ∧
      out.dstBinding = w.dstBinding := by
  have hfields : ∀ w : Write, (w.setData none).descriptorType = w.descriptorType ∧
      (w.setData none).count = w.count ∧ (w.setData none).dstSet = w.dstSet ∧
      (w.setData none).dstBinding = w.dstBinding := by
    intro w
    unfold Write.setData
    repeat' split
    all_goals exact ⟨rfl, rfl, rfl, rfl⟩
  obtain ⟨htype, hcount, hset, hbinding⟩ := hfields w
  rw [← htarget] at htype hcount hset hbinding
  obtain ⟨htype', hcount', hset', hbinding'⟩ := hfields out
  exact ⟨htype'.symm.trans htype, hcount'.symm.trans hcount, hset'.symm.trans hset,
    hbinding'.symm.trans hbinding⟩

theorem elements_of_copy (d : Device) (pushed : Bool) (dsl : Handle)
    (htarget : out.setData none = w.setData none) :
    out.elements (out.kind d pushed dsl) = w.elements (w.kind d pushed dsl) := by
  obtain ⟨htype, hcount, hset, hbinding⟩ := elements_copied htarget
  have hkind : out.kind d pushed dsl = w.kind d pushed dsl := by
    simp only [Write.kind, htype, hset, hbinding]
  have helement : out.elementAt (w.kind d pushed dsl) = w.elementAt (w.kind d pushed dsl) := by
    funext j
    simp only [Write.elementAt, htype]
  rw [Write.elements, Write.elements, hkind, helement, hcount]

/-- The private array of a write holds what the application's array holds. -/
theorem seen_copy (hstart : h₁.memory .application = h.memory .application)
    (hcopied : CopiedWrite h₁ h' w out) (hdata : w.data = some p) {x : Element}
    (hx : x ∈ w.elements (w.kind d pushed dsl)) :
    ∃ q, out.data = some q ∧ ∀ y ∈ w.elements (w.kind d pushed dsl),
      y.seen (region h'.memory q) = y.seen (region h.memory p) := by
  rcases hcopied.data with ⟨-, hnone | hzero⟩ | ⟨p', id, hdata', hspace, hout, hid, hbytes⟩
  · rw [hnone] at hdata
    cases hdata
  · rw [Write.elements, hzero] at hx
    cases hx
  · rw [hdata] at hdata'
    cases hdata'
    have hsource : region h₁.memory p = region h.memory p :=
      region_congr (by rw [hspace]; exact hstart)
    refine ⟨_, hout, fun y hy => seen_array (replaceable_of_data hdata) (fun i hi => ?_) hy⟩
    rw [← hsource, ← hbytes i hi, region, Nat.zero_add]

/-- The driver finds each write served in the copy, once the loop has gone through it. -/
theorem served_copy (hstart : h₁.memory .application = h.memory .application)
    (hcopied : CopiedWrite h₁ f.heap w out) (hregion : ∀ p, out.data = some p → region f'.heap.memory p =
      (out.elements (out.kind d pushed dsl)).foldl (fun m x => x.replace (standIns driver d) m)
        (region f.heap.memory p)) (hstand : standIns driver d = none → ∀ p, out.data = some p →
      (out.elements (out.kind d pushed dsl)).any (fun x => x.null (region f.heap.memory p)) = false) :
    Write.Served driver d h pushed dsl f'.heap.memory w out := by
  refine ⟨hcopied.target, fun hnone => ?_, fun p hdata x hx => ?_⟩
  · rcases hcopied.data with ⟨hout, -⟩ | ⟨p, id, hdata, -⟩
    · exact hout
    · rw [hnone] at hdata
      cases hdata
  · obtain ⟨q, hout, hseen⟩ := seen_copy hstart hcopied hdata hx
    have helements := elements_of_copy d pushed dsl hcopied.target
    rw [helements] at hregion hstand
    refine ⟨q, hout, fun hnull => ?_, ?_⟩
    · cases hsome : standIns driver d with
      | some s => rfl
      | none =>
        have hany := any_eq_false.mp (hstand hsome q hout) x hx
        rw [Element.null_congr (hseen x hx), hnull] at hany
        exact absurd rfl hany
    · rw [hregion q hout]
      exact (replaced_iff hseen).mpr
        (Overlay.coherent_of_apart (elements_apart _ _ (replaceable_of_data hdata))) x hx

theorem grew_calloc (hgrants : grants h.attempts = true) :
    ∃ h₁, calloc grants h = (h₁, some ⟨.block h.attempts, 0⟩) ∧ Grew [h.attempts] h h₁ := by
  refine ⟨_, malloc_granted (h := h.setMemory (.block h.attempts) _) hgrants, ?_⟩
  exact grew_malloc h fun _ => 0

theorem calloc_refused (hgrants : grants h.attempts = false) :
    ∃ h₁, calloc grants h = (h₁, none) ∧ h₁.memory .application = h.memory .application ∧
      h₁.taken = h.taken ∧ h₁.freed = h.freed := by
  refine ⟨_, malloc_refused (h := h.setMemory (.block h.attempts) _) hgrants, ?_, rfl, rfl⟩
  simp [Heap.setMemory]

/-- An update through a write list is exact. -/
theorem forwardWrites_exact (driver : Driver) (grants : Grants) (d : Device) (h : Heap)
    (pushed : Bool) (dsl : Handle) (hdsl : pushed = false → dsl = 0) (howned : Owned writes) :
    WritesExact driver d h pushed dsl writes (forwardWrites driver grants d h pushed dsl writes) := by
  unfold forwardWrites
  split
  case isTrue hlost => exact ⟨rfl, (by simp), fun _ => hlost, .of_eq rfl rfl⟩
  case isFalse hlost =>
  split
  case isTrue hnull =>
    refine ⟨rfl, fun call hcall => ?_, (by simp), .of_eq rfl rfl⟩
    cases hcall
    exact served_self (by simpa using hnull)
  case isFalse hnull =>
  replace hnull : hasNullWrites h writes = true := by simpa using hnull
  have hsome : writes.isEmpty = false := by
    cases writes with
    | nil => cases hnull
    | cons w rest => rfl
  unfold copyWrites
  simp only [hsome, Bool.false_eq_true, if_false, Bool.not_false, Bool.true_and]
  cases hgrants : grants h.attempts with
  | false =>
    obtain ⟨h₁, hcalloc, happ, htaken, hfreed⟩ := calloc_refused hgrants
    rw [hcalloc]
    exact ⟨happ, (by simp), fun _ => rfl, .of_eq htaken hfreed⟩
  | true =>
    obtain ⟨h₁, hcalloc, hfirst⟩ := grew_calloc hgrants
    rw [hcalloc]
    simp only [Option.isNone_some, Bool.false_eq_true, if_false]
    cases hloop : copyLoop grants h₁ writes with
    | mk h₂ result =>
    obtain ⟨outs, ok⟩ := result
    obtain ⟨ids, hgrew, hdata, hcopied⟩ := copyLoop_spec howned hloop
    cases ok with
    | false =>
      refine ⟨?_, (by simp), fun _ => rfl, freeWrites_balanced hfirst hgrew hdata rfl rfl⟩
      rw [freeWrites_memory]
      exact hgrew.application.trans hfirst.application
    | true =>
      have hcopied := hcopied rfl
      have hspaces : (outs.filterMap Write.data).Pairwise fun p q => p.space ≠ q.space := by
        rw [hdata, pairwise_map]
        exact hgrew.sorted.imp fun hlt heq => absurd (Space.block.inj heq) (Nat.ne_of_lt hlt)
      have hlayout : (Fix.start d h₂ dsl).Layout d pushed dsl := by
        cases pushed with
        | true => rfl
        | false =>
          rw [hdsl rfl]
          exact d.sets_null.symm
      have hswept := fixWrites_spec (Fix.ok_start driver d h₂ dsl) hlayout hspaces
      rw [← fixWrites] at hswept
      dsimp only
      have hprivate : ∀ w ∈ outs, ∀ p, w.data = some p → p.space ≠ .application := by
        intro w hw p hp
        have hmem : p ∈ outs.filterMap Write.data := mem_filterMap.mpr ⟨w, hw, hp⟩
        rw [hdata] at hmem
        obtain ⟨id, -, rfl⟩ := mem_map.mp hmem
        exact (by intro heq; cases heq)
      refine ⟨?_, fun call hcall => ?_, fun hnone => ?_,
        freeWrites_balanced hfirst hgrew hdata hswept.taken hswept.freed⟩
      · rw [freeWrites_memory, hswept.others .application hprivate]
        exact hgrew.application.trans hfirst.application
      · -- the call is passed on, so there are stand-ins or nothing was null
        split at hcall
        case isTrue => cases hcall
        case isFalse hfine =>
        cases hcall
        refine List.forall₂_iff_zip.mpr ⟨hcopied.length_eq, fun {w out} hmem => ?_⟩
        have hout : out ∈ outs := (of_mem_zip hmem).2
        refine served_copy (f := Fix.start d h₂ dsl) hfirst.application
          (List.forall₂_zip hcopied hmem) (hswept.region out hout) fun hstand p hp => ?_
        by_contra hany
        exact hfine (hswept.fails hstand out hout p hp (by simpa using hany))
      · by_contra hlost'
        simp only [hlost', if_false] at hnone
        cases hnone

/-! ## Updates -/

/-- A write list of the application, whose arrays are in its own memory. -/
structure ApplicationWrites where
  writes : List Write
  owned : Owned writes

/-- Updates are exact and private. A write list is always passed on as it should be, on its
own or pushed. The elements of a template share one copy of its data; they are all passed
on as they should be exactly when they are coherent or the call is refused. -/
theorem descriptor_updates_exact (driver : Driver) (grants : Grants) (d : Device) (h : Heap) :
    (∀ list : ApplicationWrites, WritesExact driver d h false 0 list.writes
      (updateDescriptorSets driver grants d h list.writes)) ∧
    (∀ (layout : Handle) (set : UInt32) (list : ApplicationWrites),
      WritesExact driver d h true (pushLayout d layout set) list.writes
        (cmdPushDescriptorSet driver grants d h layout set list.writes)) ∧
    ∀ (tmpl : Handle) (address : Option Nat),
      ((∃ out, updateDescriptorSetWithTemplate driver grants d h tmpl
          (address.map (Pointer.mk .application)) = some out ∧
        TemplateExact driver d h tmpl (address.map (Pointer.mk .application)) out) ∧
      (∃ out, cmdPushDescriptorSetWithTemplate driver grants d h tmpl
          (address.map (Pointer.mk .application)) = some out ∧
        TemplateExact driver d h tmpl (address.map (Pointer.mk .application)) out) ↔
      TemplateCoherent driver grants d h tmpl (address.map (Pointer.mk .application))) := by
  refine ⟨fun list => ?_, fun layout set list => ?_, fun tmpl address => ?_⟩
  · exact forwardWrites_exact driver grants d h false 0 (fun _ => rfl) list.owned
  · exact forwardWrites_exact driver grants d h true _ nofun list.owned
  · have hiff := forwardTemplate_exact_iff driver grants d h tmpl address
    exact ⟨fun hboth => hiff.mp hboth.1, fun hcoherent => ⟨hiff.mpr hcoherent, hiff.mpr hcoherent⟩⟩

/-! Two entries of one template, a uniform and a storage buffer, read the same 24 bytes. -/

def sampleTemplate : Template where
  tmpl := 7
  layout := 0
  entries := [⟨0, 1, .uniformBuffer, 0, 24⟩, ⟨1, 1, .storageBuffer, 0, 24⟩]
  dataSize := 24
  measured := by decide

def sampleDevice : Device where
  lost := false
  precise := false
  dummies := .made
  shape := fun _ _ => ⟨false, 0⟩
  view := fun _ => 0x10
  buffer := 0x11
  sink := 0x22
  texel := 0x33
  sinkTexel := 0x44
  shaped := 0
  replaced := 0
  templates := [sampleTemplate]
  layouts := fun _ => []
  sets := fun _ => 0
  hints := fun _ => []
  sets_null := rfl

def sampleDriver : Driver := ⟨fun _ _ => none, fun _ => none⟩

def sampleHeap : Heap := ⟨fun _ _ => 0, 0, [], []⟩

/-- What the driver reads of the storage buffer of the sample. -/
def sampleSeen : Option (Option (List UInt8)) :=
  (updateDescriptorSetWithTemplate sampleDriver (fun _ => true) sampleDevice sampleHeap 7
    (some ⟨.application, 0⟩)).map fun out => out.call.map fun call =>
      (Element.mk .storageBuffer .unknown 0).seen (region call.memory (call.data.getD ⟨.application, 0⟩))

theorem sampleSeen_eq :
    sampleSeen = some (some (dwordBytes 0x11 ++ dwordBytes 0 ++ dwordBytes wholeSize)) := by
  decide +kernel

/-- Both null: the stand-in of the uniform buffer is what the storage buffer is read as,
and shaders write into memory that other null descriptors are read from. -/
theorem shared_null_read_as_uniform :
    ¬ ∃ out, updateDescriptorSetWithTemplate sampleDriver (fun _ => true) sampleDevice sampleHeap 7
        (some ⟨.application, 0⟩) = some out ∧
      TemplateExact sampleDriver sampleDevice sampleHeap 7 (some ⟨.application, 0⟩) out := by
  rintro ⟨out, hout, hexact⟩
  have hseen := sampleSeen_eq
  rw [sampleSeen, hout, Option.map_some, Option.some_inj] at hseen
  obtain ⟨call, hcall, hseen⟩ := Option.map_eq_some_iff.mp hseen
  obtain ⟨-, t, hfind, hreads⟩ := hexact.reads call hcall
  cases hfind
  obtain ⟨p, q, hp, hq, hserved⟩ := hreads (Element.mk .storageBuffer .unknown 0)
    (by decide +kernel)
  cases hp
  rw [hq, Option.getD_some, hserved.seen] at hseen
  revert hseen
  decide +kernel

end NullDescriptors
