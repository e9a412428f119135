import Libhybris.ByteMemory

/-!
# Null descriptors

The layer that keeps null descriptors away from a driver without support for
them (`null_descriptors.c`): before a descriptor update is passed on, every null
element is replaced by a stand-in of its own type, in a private copy of the
writes or of the template's data.

Memory is the application's address space and one space for each block of the
host heap, so that a pointer may lead anywhere and a write through it shows where
it went. Template data is accessed with the recorded size at hand, and an access
beyond it is a fault. The outcome of each host allocation and of each attempt to
make a stand-in is an argument.
-/
namespace NullDescriptors

open ByteMemory

/-- Objects of the driver; zero is `VK_NULL_HANDLE`. -/
abbrev Handle := UInt64

inductive DescriptorType where
  | sampler
  | combinedImageSampler
  | sampledImage
  | storageImage
  | uniformTexelBuffer
  | storageTexelBuffer
  | uniformBuffer
  | storageBuffer
  | uniformBufferDynamic
  | storageBufferDynamic
  | inputAttachment
  | inlineUniformBlock
  | accelerationStructure
  | other (value : UInt32)
  deriving DecidableEq, Repr

def imageType : DescriptorType → Bool
  | .sampledImage | .storageImage | .combinedImageSampler => true
  | _ => false

def bufferType : DescriptorType → Bool
  | .uniformBuffer | .storageBuffer | .uniformBufferDynamic | .storageBufferDynamic => true
  | _ => false

def texelType : DescriptorType → Bool
  | .uniformTexelBuffer | .storageTexelBuffer => true
  | _ => false

/-- `VkDescriptorImageInfo` is a sampler, a view and a layout with four bytes of
padding; `VkDescriptorBufferInfo` a buffer, an offset and a range. -/
def imageInfoSize : UInt64 := 24
def bufferInfoSize : UInt64 := 24
def viewOffset : Nat := 8
def layoutOffset : Nat := 16
def offsetOffset : Nat := 8
def rangeOffset : Nat := 16

def imageLayoutGeneral : UInt32 := 1
def wholeSize : UInt64 := 0xffffffffffffffff

/-! ## Stand-ins -/

inductive ViewType where
  | oneD | twoD | threeD | cube | oneDArray | twoDArray | cubeArray
  deriving DecidableEq, Repr

inductive NumericClass where
  | float | uint | sint
  deriving DecidableEq, Repr

structure Shape where
  view : ViewType
  numeric : NumericClass
  deriving DecidableEq, Repr

def defaultShape : Shape := ⟨.twoD, .float⟩

/-- What a binding wants: not known, one shape, or pipelines disagree. -/
inductive Kind where
  | unknown
  | shape (s : Shape)
  | mixed
  deriving DecidableEq, Repr

/-- `nd_image`: a stand-in image is tried once; its view stays null when it could
not be made. -/
structure Image where
  tried : Bool
  view : Handle
  deriving DecidableEq, Repr

/-- What the driver makes of the attempts at stand-ins: an image's view, a buffer
with its texel view, which is null when the driver refuses it. -/
structure Driver where
  makeImage : (storage : Bool) → Shape → Option Handle
  makeBuffer : (sink : Bool) → Option (Handle × Handle)

structure Use where
  binding : UInt32
  kind : Kind
  deriving DecidableEq, Repr

structure Entry where
  dstBinding : UInt32
  descriptorCount : UInt32
  descriptorType : DescriptorType
  offset : UInt64
  stride : UInt64
  deriving DecidableEq, Repr

def templateElementSize (type : DescriptorType) : UInt64 :=
  if imageType type || type == .sampler then imageInfoSize
  else if bufferType type then bufferInfoSize
  else if texelType type then 8
  else if type == .inlineUniformBlock then 1
  else if type == .accelerationStructure then 8
  else 0

def sizeMax : UInt64 := 0xffffffffffffffff

def Entry.count (e : Entry) : UInt64 := e.descriptorCount.toUInt64

def Entry.step (e : Entry) : UInt64 := if e.descriptorType = .inlineUniformBlock then 1 else e.stride

/-- One entry in the loop of `nd_CreateDescriptorUpdateTemplate`: the size so far
or a refusal. -/
def measureEntry (dataSize : UInt64) (e : Entry) : Option UInt64 :=
  let size := templateElementSize e.descriptorType
  if e.descriptorCount = 0 then some dataSize
  else if size = 0 ∨ sizeMax - size < e.offset ∨
      (1 < e.descriptorCount ∧ (sizeMax - e.offset - size) / (e.count - 1) < e.step) then none
  else
    let top := e.offset + (e.count - 1) * e.step + size
    some (if dataSize < top then top else dataSize)

def measureEntries : UInt64 → List Entry → Option UInt64
  | dataSize, [] => some dataSize
  | dataSize, e :: rest =>
    match measureEntry dataSize e with
    | none => none
    | some dataSize => measureEntries dataSize rest

/-- `nd_template`: recorded only after its entries have been measured. -/
structure Template where
  tmpl : Handle
  layout : Handle
  entries : List Entry
  dataSize : UInt64
  measured : measureEntries 0 entries = some dataSize

/-- The flags `made` and `failed`: the dummies are attempted once. -/
inductive Dummies where
  | untried
  | made
  | failed
  deriving DecidableEq, Repr

structure Device where
  lost : Bool
  precise : Bool
  dummies : Dummies
  shape : (storage : Bool) → Shape → Image
  view : (storage : Bool) → Handle
  buffer : Handle
  sink : Handle
  texel : Handle
  sinkTexel : Handle
  shaped : Nat
  replaced : Nat
  templates : List Template
  layouts : Handle → List Handle
  sets : Handle → Handle
  hints : Handle → List Use
  -- a set that the driver allocates is never null
  sets_null : sets 0 = 0

def Device.setShape (d : Device) (storage : Bool) (s : Shape) (image : Image) : Device :=
  { d with shape := fun storage' s' => if storage' = storage ∧ s' = s then image else d.shape storage' s' }

section
variable (driver : Driver) (d : Device)

def makeDefault (storage : Bool) : Device × Bool :=
  match driver.makeImage storage defaultShape with
  | none => (d.setShape storage defaultShape ⟨true, 0⟩, false)
  | some view =>
    ({ d.setShape storage defaultShape ⟨true, view⟩ with
        view := fun storage' => if storage' = storage then view else d.view storage' }, true)

def makeBuffers : Device × Bool :=
  match driver.makeBuffer false with
  | none => (d, false)
  | some (buffer, texel) =>
    let d := { d with buffer := buffer, texel := texel }
    match driver.makeBuffer true with
    | none => (d, false)
    | some (sink, sinkTexel) => ({ d with sink := sink, sinkTexel := sinkTexel }, true)

/-- The dummies, made on first need; whether they exist. What a failed attempt
leaves in the handles is never read. -/
def makeDummies : Device × Bool :=
  match d.dummies with
  | .made => (d, true)
  | .failed => (d, false)
  | .untried =>
    match makeDefault driver d false with
    | (d, false) => ({ d with dummies := .failed }, false)
    | (d, true) =>
      match makeDefault driver d true with
      | (d, false) => ({ d with dummies := .failed }, false)
      | (d, true) =>
        match makeBuffers driver d with
        | (d, false) => ({ d with dummies := .failed }, false)
        | (d, true) => ({ d with dummies := .made }, true)

/-- The stand-in view of a kind, made on first need; the default one when the kind
is not known or its image could not be made. -/
def standin (kind : Kind) (storage : Bool) : Device × Handle :=
  match kind with
  | .unknown | .mixed => (d, d.view storage)
  | .shape s =>
    let d :=
      if (d.shape storage s).tried then d
      else d.setShape storage s ⟨true, (driver.makeImage storage s).getD 0⟩
    let view := (d.shape storage s).view
    if view = 0 then (d, d.view storage) else ({ d with shaped := d.shaped + 1 }, view)

end

def setLayout (d : Device) (set : Handle) : Handle := d.sets set

def layoutSet (d : Device) (pipelineLayout : Handle) (set : UInt32) : Handle :=
  (d.layouts pipelineLayout).getD set.toNat 0

def bindingKind (d : Device) (dsl : Handle) (binding : UInt32) : Kind :=
  if !d.precise || dsl == 0 then .unknown
  else
    match (d.hints dsl).find? (fun use => use.binding == binding) with
    | none => .unknown
    | some use => use.kind

/-! ## One descriptor -/

/-- The handle field that makes a descriptor of this type null. -/
def handleOffset (type : DescriptorType) : Nat := if imageType type then viewOffset else 0

/-- Fixes the descriptor at `p`; whether it was null. Dummies must exist. -/
def fixOne (driver : Driver) (d : Device) (type : DescriptorType) (kind : Kind) (m : Memory)
    (p : Nat) : Device × Memory × Bool :=
  if imageType type then
    if readDword m (p + viewOffset) ≠ 0 then (d, m, false)
    else
      let (d, view) := standin driver d kind (type == .storageImage)
      let m := writeDword m (p + viewOffset) view
      (d, writeWords m (p + layoutOffset) [imageLayoutGeneral], true)
  else if bufferType type then
    if readDword m p ≠ 0 then (d, m, false)
    else
      let buffer := if type == .storageBuffer || type == .storageBufferDynamic then d.sink else d.buffer
      let m := writeDword m p buffer
      let m := writeDword m (p + offsetOffset) 0
      (d, writeDword m (p + rangeOffset) wholeSize, true)
  else
    let view := if type == .storageTexelBuffer then d.sinkTexel else d.texel
    if texelType type && view != 0 then
      if readDword m p ≠ 0 then (d, m, false) else (d, writeDword m p view, true)
    else (d, m, false)

def count (d : Device) (k : Nat) : Device := { d with replaced := d.replaced + k }

/-! ## The host heap -/

inductive Space where
  | application
  | block (id : Nat)
  deriving DecidableEq, Repr

structure Pointer where
  space : Space
  addr : Nat
  deriving DecidableEq, Repr

/-- Each attempt to allocate has a number, which names the block when it succeeds. -/
structure Heap where
  memory : Space → Memory
  attempts : Nat
  taken : List Nat
  freed : List Pointer

def Heap.setMemory (h : Heap) (space : Space) (m : Memory) : Heap :=
  { h with memory := fun space' => if space' = space then m else h.memory space' }

/-- The outcome of each attempt to allocate. -/
abbrev Grants := Nat → Bool

def malloc (grants : Grants) (h : Heap) : Heap × Option Pointer :=
  if grants h.attempts then
    ({ h with attempts := h.attempts + 1, taken := h.attempts :: h.taken },
      some ⟨.block h.attempts, 0⟩)
  else ({ h with attempts := h.attempts + 1 }, none)

def calloc (grants : Grants) (h : Heap) : Heap × Option Pointer :=
  malloc grants (h.setMemory (.block h.attempts) (fun _ => 0))

def free (h : Heap) : Option Pointer → Heap
  | none => h
  | some p => { h with freed := p :: h.freed }

/-! ## Write lists -/

structure Write where
  dstSet : Handle
  dstBinding : UInt32
  descriptorCount : UInt32
  descriptorType : DescriptorType
  imageInfo : Option Pointer
  bufferInfo : Option Pointer
  texelBufferView : Option Pointer
  deriving DecidableEq, Repr

/-- The array that holds a write's descriptors of the replaceable types. -/
def Write.data (w : Write) : Option Pointer :=
  if imageType w.descriptorType then w.imageInfo
  else if bufferType w.descriptorType then w.bufferInfo
  else if texelType w.descriptorType then w.texelBufferView
  else none

def Write.setData (w : Write) (data : Option Pointer) : Write :=
  if imageType w.descriptorType then { w with imageInfo := data }
  else if bufferType w.descriptorType then { w with bufferInfo := data }
  else if texelType w.descriptorType then { w with texelBufferView := data }
  else w

/-- The size of one element of that array. -/
def infoSize (type : DescriptorType) : UInt64 :=
  if imageType type then imageInfoSize
  else if bufferType type then bufferInfoSize
  else if texelType type then 8
  else 0

/-- What `calloc` leaves in a write: type zero is a sampler. -/
def Write.zero : Write := ⟨0, 0, 0, .sampler, none, none, none⟩

def Write.count (w : Write) : Nat := w.descriptorCount.toNat

def Write.element (w : Write) (p : Pointer) (j : Nat) : Nat :=
  p.addr + j * (infoSize w.descriptorType).toNat

def Write.nullAt (w : Write) (h : Heap) (p : Pointer) (j : Nat) : Bool :=
  readDword (h.memory p.space) (w.element p j + handleOffset w.descriptorType) == 0

def hasNullWrites (h : Heap) (writes : List Write) : Bool :=
  writes.any fun w =>
    match w.data with
    | none => false
    | some p => (List.range w.count).any (fun j => w.nullAt h p j)

def freeWrites (h : Heap) (out : Option Pointer) (writes : List Write) : Heap :=
  match out with
  | none => h
  | some block => free (writes.foldl (fun h w => free h w.data) h) (some block)

/-- The body of the loop of `copy_writes`: the write as it stands in the copy, and
whether the loop goes on. -/
def copyWrite (grants : Grants) (h : Heap) (source : Write) : Heap × Write × Bool :=
  let size := infoSize source.descriptorType
  let out := source.setData none
  match source.data with
  | none => (h, out, true)
  | some data =>
    if source.descriptorCount = 0 then (h, out, true)
    else if sizeMax / size < source.descriptorCount.toUInt64 then (h, out, false)
    else
      match malloc grants h with
      | (h, none) => (h, out, false)
      | (h, some copy) =>
        let bytes := read (h.memory data.space) data.addr (size * source.descriptorCount.toUInt64).toNat
        (h.setMemory copy.space (write (h.memory copy.space) copy.addr bytes),
          out.setData (some copy), true)

def copyLoop (grants : Grants) (h : Heap) : List Write → Heap × List Write × Bool
  | [] => (h, [], true)
  | w :: rest =>
    match copyWrite grants h w with
    | (h, out, false) => (h, out :: rest.map (fun _ => Write.zero), false)
    | (h, out, true) =>
      let (h, outs, ok) := copyLoop grants h rest
      (h, out :: outs, ok)

/-- The private copy: its block and its writes, or nothing after a failed allocation. -/
def copyWrites (grants : Grants) (d : Device) (h : Heap) (source : List Write) :
    Device × Heap × Option (Option Pointer × List Write) :=
  let (h, out) := if source.isEmpty then (h, none) else calloc grants h
  if !source.isEmpty && out.isNone then ({ d with lost := true }, h, none)
  else
    match copyLoop grants h source with
    | (h, outs, false) => ({ d with lost := true }, freeWrites h out outs, none)
    | (h, outs, true) => (d, h, some (out, outs))

/-- The variables of the loops that replace; `ready` is unset until the first null. -/
structure Fix where
  device : Device
  heap : Heap
  replaced : Nat
  ready : Option Bool
  last : Handle
  dsl : Handle

def Fix.start (d : Device) (h : Heap) (dsl : Handle) : Fix := ⟨d, h, 0, none, 0, dsl⟩

def Fix.prepare (driver : Driver) (f : Fix) : Fix :=
  match f.ready with
  | some _ => f
  | none =>
    let (d, ok) := makeDummies driver f.device
    { f with device := d, ready := some ok }

def Fix.lose (f : Fix) : Fix := { f with device := { f.device with lost := true } }

def fixWriteElement (driver : Driver) (pushed : Bool) (w : Write) (p : Pointer) (j : Nat)
    (f : Fix) : Fix :=
  if !w.nullAt f.heap p j then f
  else
    let f := f.prepare driver
    if f.ready ≠ some true then f.lose
    else
      let f :=
        if !pushed && imageType w.descriptorType && w.dstSet != f.last then
          { f with last := w.dstSet, dsl := setLayout f.device w.dstSet }
        else f
      let kind :=
        if imageType w.descriptorType then bindingKind f.device f.dsl w.dstBinding else .unknown
      let (d, m, fixed) :=
        fixOne driver f.device w.descriptorType kind (f.heap.memory p.space) (w.element p j)
      { f with device := d, heap := f.heap.setMemory p.space m, replaced := f.replaced + fixed.toNat }

def fixWrite (driver : Driver) (pushed : Bool) (f : Fix) (w : Write) : Fix :=
  match w.data with
  | none => f
  | some p => (List.range w.count).foldl (fun f j => fixWriteElement driver pushed w p j f) f

def fixWrites (driver : Driver) (d : Device) (h : Heap) (writes : List Write) (pushed : Bool)
    (pushLayout : Handle) : Fix :=
  writes.foldl (fixWrite driver pushed) (Fix.start d h pushLayout)

/-- What the driver is called with, and the memory it then finds. -/
structure WritesCall where
  writes : List Write
  memory : Space → Memory

structure Outcome (α : Type) where
  device : Device
  heap : Heap
  call : Option α

/-- The entry points that take a write list; `dsl` is the set layout of a pushed set. -/
def forwardWrites (driver : Driver) (grants : Grants) (d : Device) (h : Heap) (pushed : Bool)
    (dsl : Handle) (writes : List Write) : Outcome WritesCall :=
  if d.lost then ⟨d, h, none⟩
  else if !hasNullWrites h writes then ⟨d, h, some ⟨writes, h.memory⟩⟩
  else
    match copyWrites grants d h writes with
    | (d, h, none) => ⟨d, h, none⟩
    | (d, h, some (out, copy)) =>
      let f := fixWrites driver d h copy pushed dsl
      let d := count f.device f.replaced
      ⟨d, freeWrites f.heap out copy, if d.lost then none else some ⟨copy, f.heap.memory⟩⟩

def updateDescriptorSets (driver : Driver) (grants : Grants) (d : Device) (h : Heap)
    (writes : List Write) : Outcome WritesCall :=
  forwardWrites driver grants d h false 0 writes

/-- The set layout of a pushed set. -/
def pushLayout (d : Device) (pipelineLayout : Handle) (set : UInt32) : Handle :=
  if d.precise then layoutSet d pipelineLayout set else 0

/-- Also `nd_CmdPushDescriptorSet2`, which takes the same arguments in a record. -/
def cmdPushDescriptorSet (driver : Driver) (grants : Grants) (d : Device) (h : Heap)
    (layout : Handle) (set : UInt32) (writes : List Write) : Outcome WritesCall :=
  forwardWrites driver grants d h true (pushLayout d layout set) writes

/-! ## Templates -/

inductive VkResult where
  | success
  | outOfHostMemory
  | featureNotPresent
  | other (code : Int)
  deriving DecidableEq, Repr

inductive TemplateType where
  | descriptorSet
  | pushDescriptors
  deriving DecidableEq, Repr

structure TemplateCreateInfo where
  entries : List Entry
  templateType : TemplateType
  descriptorSetLayout : Handle
  pipelineLayout : Handle
  set : UInt32
  deriving Repr

/-- The driver's template has been created as `tmpl`, unless `created` says otherwise;
the last component lists the templates destroyed again. -/
def createDescriptorUpdateTemplate (grants : Grants) (d : Device) (h : Heap)
    (ci : TemplateCreateInfo) (created : VkResult) (tmpl : Handle) :
    Device × Heap × VkResult × List Handle :=
  if created ≠ .success then (d, h, created, [])
  else
    match calloc grants h with
    | (h, none) => (d, h, .outOfHostMemory, [tmpl])
    | (h, some t) =>
      match malloc grants h with
      | (h, none) => (d, free h (some t), .outOfHostMemory, [tmpl])
      | (h, some entries) =>
        match hsize : measureEntries 0 ci.entries with
        | none => (d, free (free h (some entries)) (some t), .featureNotPresent, [tmpl])
        | some dataSize =>
          let layout :=
            if ci.templateType = .pushDescriptors then layoutSet d ci.pipelineLayout ci.set
            else ci.descriptorSetLayout
          ({ d with templates := ⟨tmpl, layout, ci.entries, dataSize, hsize⟩ :: d.templates }, h,
            .success, [])

def findTemplate (d : Device) (tmpl : Handle) : Option Template :=
  d.templates.find? (fun t => t.tmpl == tmpl)

def replaceable (type : DescriptorType) : Bool := imageType type || bufferType type || texelType type

def Entry.elementOffset (e : Entry) (j : Nat) : Nat := (e.offset + UInt64.ofNat j * e.stride).toNat

/-- `n` bytes of a range of `size` bytes; a null pointer and an access beyond the
range are faults. -/
def load (h : Heap) (range : Option Pointer) (size offset n : Nat) : Option (List UInt8) :=
  match range with
  | none => none
  | some p =>
    if offset + n ≤ size then some (read (h.memory p.space) (p.addr + offset) n) else none

def store (h : Heap) (range : Option Pointer) (size offset : Nat) (bytes : List UInt8) :
    Option Heap :=
  match range with
  | none => none
  | some p =>
    if offset + bytes.length ≤ size then
      some (h.setMemory p.space (write (h.memory p.space) (p.addr + offset) bytes))
    else none

/-- A local object that holds these bytes. -/
def localObject (bytes : List UInt8) : Memory := write (fun _ => 0) 0 bytes

def scanElements (h : Heap) (data : Option Pointer) (size : Nat) (e : Entry) :
    (left j : Nat) → Option Bool
  | 0, _ => some false
  | left + 1, j =>
    match load h data size (e.elementOffset j + handleOffset e.descriptorType) 8 with
    | none => none
    | some bytes =>
      if readDword (localObject bytes) 0 = 0 then some true
      else scanElements h data size e left (j + 1)

/-- The first loop of `prepare_template`: whether some element is null. -/
def needsCopy (h : Heap) (data : Option Pointer) (size : Nat) : List Entry → Option Bool
  | [] => some false
  | e :: rest =>
    if !replaceable e.descriptorType then needsCopy h data size rest
    else
      match scanElements h data size e e.descriptorCount.toNat 0 with
      | none => none
      | some true => some true
      | some false => needsCopy h data size rest

def copyBytes (h : Heap) (data copy : Option Pointer) (size offset n : Nat) : Option Heap :=
  match load h data size offset n with
  | none => none
  | some bytes => store h copy size offset bytes

def copyElements (data copy : Option Pointer) (size : Nat) (e : Entry) :
    (left j : Nat) → Heap → Option Heap
  | 0, _, h => some h
  | left + 1, j, h =>
    match copyBytes h data copy size (e.elementOffset j)
        (templateElementSize e.descriptorType).toNat with
    | none => none
    | some h => copyElements data copy size e left (j + 1) h

def copyEntry (data copy : Option Pointer) (size : Nat) (e : Entry) (h : Heap) : Option Heap :=
  if e.descriptorType = .inlineUniformBlock then
    if e.descriptorCount = 0 then some h
    else copyBytes h data copy size e.offset.toNat e.descriptorCount.toNat
  else copyElements data copy size e e.descriptorCount.toNat 0 h

def copyEntries (data copy : Option Pointer) (size : Nat) : List Entry → Heap → Option Heap
  | [], h => some h
  | e :: rest, h =>
    match copyEntry data copy size e h with
    | none => none
    | some h => copyEntries data copy size rest h

/-- What `prepare_template` says: the call is over, or it goes on with the copy, if
one was needed. -/
inductive Prepared where
  | refused
  | ready (copy : Option Pointer)
  deriving DecidableEq, Repr

def prepareTemplate (grants : Grants) (d : Device) (h : Heap) (tmpl : Handle)
    (data : Option Pointer) : Option (Device × Heap × Prepared) :=
  if d.lost then some (d, h, .refused)
  else
    match findTemplate d tmpl with
    | none => some ({ d with lost := true }, h, .refused)
    | some t =>
      if t.dataSize ≠ 0 ∧ data = none then some ({ d with lost := true }, h, .refused)
      else
        match needsCopy h data t.dataSize.toNat t.entries with
        | none => none
        | some false => some (d, h, .ready none)
        | some true =>
          match calloc grants h with
          | (h, none) => some ({ d with lost := true }, h, .refused)
          | (h, some copy) =>
            match copyEntries data (some copy) t.dataSize.toNat t.entries h with
            | none => none
            | some h => some (d, h, .ready (some copy))

def fixTemplateElement (driver : Driver) (t : Template) (data : Pointer) (e : Entry) (j : Nat)
    (f : Fix) : Option Fix :=
  let size := (templateElementSize e.descriptorType).toNat
  let offset := e.elementOffset j
  match load f.heap (some data) t.dataSize.toNat offset size with
  | none => none
  | some bytes =>
    let value := localObject bytes
    if readDword value (handleOffset e.descriptorType) ≠ 0 then some f
    else
      let f := f.prepare driver
      if f.ready ≠ some true then some f.lose
      else
        let kind :=
          if imageType e.descriptorType then bindingKind f.device t.layout e.dstBinding
          else .unknown
        let (d, value, fixed) := fixOne driver f.device e.descriptorType kind value 0
        match store f.heap (some data) t.dataSize.toNat offset (read value 0 size) with
        | none => none
        | some h => some { f with device := d, heap := h, replaced := f.replaced + fixed.toNat }

def fixTemplateElements (driver : Driver) (t : Template) (data : Pointer) (e : Entry) :
    (left j : Nat) → Fix → Option Fix
  | 0, _, f => some f
  | left + 1, j, f =>
    match fixTemplateElement driver t data e j f with
    | none => none
    | some f => fixTemplateElements driver t data e left (j + 1) f

def fixEntries (driver : Driver) (t : Template) (data : Pointer) : List Entry → Fix → Option Fix
  | [], f => some f
  | e :: rest, f =>
    if !replaceable e.descriptorType then fixEntries driver t data rest f
    else
      match fixTemplateElements driver t data e e.descriptorCount.toNat 0 f with
      | none => none
      | some f => fixEntries driver t data rest f

def fixTemplateData (driver : Driver) (d : Device) (h : Heap) (tmpl : Handle) (data : Pointer) :
    Option Fix :=
  match findTemplate d tmpl with
  | none => some (Fix.start d h 0)
  | some t => fixEntries driver t data t.entries (Fix.start d h 0)

structure TemplateCall where
  tmpl : Handle
  data : Option Pointer
  memory : Space → Memory

/-- The entry points that take a template; they differ only in the driver's function
that they call. -/
def forwardTemplate (driver : Driver) (grants : Grants) (d : Device) (h : Heap) (tmpl : Handle)
    (data : Option Pointer) : Option (Outcome TemplateCall) :=
  match prepareTemplate grants d h tmpl data with
  | none => none
  | some (d, h, .refused) => some ⟨d, h, none⟩
  | some (d, h, .ready none) =>
    some ⟨d, h, if d.lost then none else some ⟨tmpl, data, h.memory⟩⟩
  | some (d, h, .ready (some copy)) =>
    match fixTemplateData driver d h tmpl copy with
    | none => none
    | some f =>
      let d := count f.device f.replaced
      let call := if d.lost then none else some ⟨tmpl, some copy, f.heap.memory⟩
      some ⟨d, free f.heap (some copy), call⟩

def updateDescriptorSetWithTemplate (driver : Driver) (grants : Grants) (d : Device) (h : Heap)
    (tmpl : Handle) (data : Option Pointer) : Option (Outcome TemplateCall) :=
  forwardTemplate driver grants d h tmpl data

/-- Also `nd_CmdPushDescriptorSetWithTemplate2`. -/
def cmdPushDescriptorSetWithTemplate (driver : Driver) (grants : Grants) (d : Device) (h : Heap)
    (tmpl : Handle) (data : Option Pointer) : Option (Outcome TemplateCall) :=
  forwardTemplate driver grants d h tmpl data

end NullDescriptors
