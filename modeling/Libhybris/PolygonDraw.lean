import Libhybris.PolygonSubmit

/-!
# Draws as lines

A draw of triangles with line polygon mode becomes a draw of a line list. Without an index buffer
its indices come from a pattern that is kept and grown with the device; with one they are written by
a compute dispatch into a range reserved for the command buffer.
-/
namespace Polygon

open Vulkan

inductive Shape where
  | list
  | strip
  | fan
  deriving DecidableEq, Repr

/-- The codes the compute shader has for the topologies. -/
def Shape.code : Shape → UInt32
  | .list => 0
  | .strip => 1
  | .fan => 2

def Topology.shape : Topology → Option Shape
  | .triangleList => some .list
  | .triangleStrip => some .strip
  | .triangleFan => some .fan
  | .other _ => none

inductive Mode where
  | line
  | point
  deriving DecidableEq, Repr

/-- `hybris_polygon_pipeline`. -/
structure Pipeline where
  mode : Mode
  topology : Topology
  restart : Bool
  dynamicTopology : Bool
  dynamicRestart : Bool
  deriving DecidableEq, Repr

/-- The limits of the device that are asked. -/
structure Limits where
  minStorageBufferOffsetAlignment : Nat
  maxStorageBufferRange : UInt32
  maxGroupsX : UInt32
  maxGroupsY : UInt32
  deriving DecidableEq, Repr

/-- A range of a buffer, in bytes. -/
structure Range where
  buffer : Buffer
  offset : Nat
  size : Nat
  deriving DecidableEq, Repr

/-- `hybris_polygon_push`. -/
structure Push where
  byteOffset : UInt32
  indexSize : UInt32
  triangles : UInt32
  topology : UInt32
  restart : UInt32
  row : UInt32
  deriving DecidableEq, Repr

/-- A dispatch of the compute shader with what is bound to it. -/
structure Dispatch where
  push : Push
  groupsX : Nat
  groupsY : Nat
  source : Range
  target : Range
  deriving DecidableEq, Repr

def triangles (shape : Shape) (count : UInt32) : Nat :=
  match shape with
  | .list => count.toNat / 3
  | _ => if 3 ≤ count.toNat then count.toNat - 2 else 0

/-- `hybris_polygon_pattern`, with the words written to its buffer. -/
structure Pattern where
  triangles : Nat
  words : List UInt32
  deriving DecidableEq, Repr

def patternTriangle (shape : Shape) (t : UInt32) : List UInt32 :=
  let x := match shape with
    | .list => t * 3
    | .strip => t
    | .fan => 0
  let y := match shape with
    | .list => t * 3 + 1
    | _ => t + 1
  let z := match shape with
    | .list => t * 3 + 2
    | _ => t + 2
  [x, y, y, z, z, x]

def patternWords (shape : Shape) (count : Nat) : List UInt32 :=
  (List.range count).flatMap fun t => patternTriangle shape (UInt32.ofNat t)

abbrev Patterns := Shape → Option Pattern

/-- A new pattern of `grown` triangles, or more if they are asked for. `made` is what allocating,
creating, mapping and flushing it answers. -/
def growPattern (patterns : Patterns) (shape : Shape) (triangles grown : Nat) (made : VkResult) :
    Patterns × Except VkResult Pattern :=
  let count := if grown < triangles then triangles else grown
  if uint32Max / 6 < count then (patterns, .error errorFeatureNotPresent)
  else if made ≠ .success then (patterns, .error made)
  else
    let fresh : Pattern := { triangles := count, words := patternWords shape count }
    (fun s => if s = shape then some fresh else patterns s, .ok fresh)

/-- `pattern_for`. -/
def patternFor (patterns : Patterns) (shape : Shape) (triangles : Nat) (made : VkResult) :
    Patterns × Except VkResult Pattern :=
  match patterns shape with
  | some p =>
    if p.triangles < triangles then growPattern patterns shape triangles (p.triangles * 2) made
    else (patterns, .ok p)
  | none => growPattern patterns shape triangles 1024 made

/-- `polygon_chunk`. -/
structure Chunk where
  buffer : Buffer
  size : Nat
  used : Nat
  deriving DecidableEq, Repr

/-- Where a chunk has room. -/
def Chunk.start (alignment : Nat) (c : Chunk) : Nat := (c.used + alignment - 1) / alignment * alignment

def Chunk.hasRoom (alignment size : Nat) (c : Chunk) : Bool :=
  c.start alignment ≤ c.size && size ≤ c.size - c.start alignment

/-- The range in the first chunk with room. -/
def takeRoom (alignment size : Nat) : List Chunk → Option (List Chunk × Range)
  | [] => none
  | c :: chunks =>
    if c.hasRoom alignment size then
      some ({ c with used := c.start alignment + size } :: chunks, ⟨c.buffer, c.start alignment, size⟩)
    else (takeRoom alignment size chunks).map fun r => (c :: r.1, r.2)

/-- The size of a new chunk. -/
def chunkSize (size : Nat) : Nat := (size + 2 ^ 20 - 1) / 2 ^ 20 * 2 ^ 20

/-- `reserve`; `made` is the buffer of a new chunk and `descriptors` what the descriptor pool and
set answer. A new chunk stays when they fail. -/
def reserve (limits : Limits) (chunks : List Chunk) (size : Nat) (made : Except VkResult Buffer)
    (descriptors : VkResult) : List Chunk × Except VkResult Range :=
  let alignment := max limits.minStorageBufferOffsetAlignment 4
  match takeRoom alignment size chunks with
  | some (chunks', range) =>
    if descriptors = .success then (chunks', .ok range) else (chunks, .error descriptors)
  | none =>
    match made with
    | .error result => (chunks, .error result)
    | .ok buffer =>
      if descriptors = .success then
        (⟨buffer, chunkSize size, size⟩ :: chunks, .ok ⟨buffer, 0, size⟩)
      else (⟨buffer, chunkSize size, 0⟩ :: chunks, .error descriptors)

/-- The work groups of a dispatch, one invocation a triangle. A device whose first limit is zero
would be divided by; Vulkan has none. -/
def workGroups (limits : Limits) (tris : Nat) : Except VkResult (Nat × Nat) :=
  let groups := (tris + 63) / 64
  let gx := if limits.maxGroupsX.toNat < groups then limits.maxGroupsX.toNat else groups
  let gy := if limits.maxGroupsX.toNat < groups then (groups + gx - 1) / gx else 1
  if gx = 0 ∨ uint32Max / 64 < gx ∨ limits.maxGroupsY.toNat < gy then .error errorFeatureNotPresent
  else .ok (gx, gy)

/-- What the device and the driver answer while line indices are made. -/
structure EdgesEnv where
  allocated : Bool
  pattern : VkResult
  kernel : VkResult
  storage : Bool
  chunk : Except VkResult Buffer
  descriptors : VkResult

/-- The device's patterns and the command buffer's storage. -/
structure Stores where
  patterns : Patterns
  chunks : List Chunk

/-- `hybris_polygon_edges`: where the line indices are, and the dispatch that writes them. -/
inductive Edges where
  | pattern (p : Pattern)
  | dispatched (d : Dispatch)
  deriving DecidableEq, Repr

/-- The indices of a draw: their range, the first one's place in it and their size. -/
structure Source where
  range : Range
  byteOffset : UInt32
  indexSize : UInt32
  deriving DecidableEq, Repr

/-- `hybris_polygon_edges_create`. -/
def edgesCreate (env : EdgesEnv) (limits : Limits) (stores : Stores) (count : UInt32)
    (shape : Shape) (source : Option Source) (restart : Bool) : Stores × Except VkResult Edges :=
  let tris := triangles shape count
  if tris = 0 ∨ uint32Max / 6 < tris then (stores, .error errorFeatureNotPresent)
  else if limits.maxStorageBufferRange.toNat < tris * 24 then (stores, .error errorFeatureNotPresent)
  else if !env.allocated then (stores, .error .errorOutOfHostMemory)
  else
    match source with
    | none =>
      let (patterns, result) := patternFor stores.patterns shape tris env.pattern
      ({ stores with patterns }, result.map .pattern)
    | some source =>
      if env.kernel ≠ .success then (stores, .error env.kernel)
      else if !env.storage then (stores, .error .errorOutOfHostMemory)
      else
        let (chunks, reserved) := reserve limits stores.chunks (tris * 24) env.chunk env.descriptors
        let stores := { stores with chunks }
        match reserved with
        | .error result => (stores, .error result)
        | .ok target =>
          match workGroups limits tris with
          | .error result => (stores, .error result)
          | .ok (gx, gy) =>
            let push : Push := {
              byteOffset := source.byteOffset
              indexSize := source.indexSize
              triangles := UInt32.ofNat tris
              topology := shape.code
              restart := if restart ∧ shape = .strip then 1 else 0
              row := UInt32.ofNat gx * 64 }
            (stores, .ok (.dispatched ⟨push, gx, gy, source.range, target⟩))

def IndexType.size : IndexType → Nat
  | .uint32 => 4
  | .uint16 => 2
  | .uint8 => 1
  | .other _ => 0

/-- The range of the indices of a draw, from the binding; none is unsupported. Sums are those of
64-bit words. -/
def indexSource (limits : Limits) (b : Binding) (count first : UInt32) : Option Source :=
  let size := b.type.size
  let alignment := limits.minStorageBufferOffsetAlignment
  let firstByte := (b.offset + first.toNat * size) % 2 ^ 64
  let base := firstByte / alignment * alignment
  let range := (firstByte - base + count.toNat * size + 3) / 4 * 4
  if size = 0 then none
  else if (match b.size with
      | none => false
      | some limit => decide (limit < (first.toNat + count.toNat) * size)) then none
  else if alignment = 0 ∨ firstByte < b.offset then none
  else if limits.maxStorageBufferRange.toNat < range ∨ uint32Max < firstByte - base then none
  else some ⟨⟨b.buffer, base, range⟩, UInt32.ofNat (firstByte - base), UInt32.ofNat size⟩

/-- What the layer and the driver answer during a draw: the pipelines with a polygon mode, which
entry points there are, the device, whether a range can be a storage buffer, a new prepass command
buffer, and keeping an object until the command buffer is reset. -/
structure DrawEnv where
  acquire : Nat → Option Pipeline
  setTopology : Bool
  setRestart : Bool
  bindIndex2 : Bool
  limits : Option Limits
  storageBuffer : Range → Bool
  prepass : Except VkResult Command
  edges : EdgesEnv
  retained : VkResult

/-- What the layer has for a command buffer. -/
structure CommandState where
  recording : Recording
  storage : List Chunk
  error : VkResult
  deriving DecidableEq, Repr

/-- `hybris_layer_command_error`: the first error stays. -/
def CommandState.fail (c : CommandState) (result : VkResult) : CommandState :=
  if c.error = .success then { c with error := result } else c

/-- An error of a step of a draw; the draw is unsupported without one for a missing feature. -/
def CommandState.failUnless (c : CommandState) (result : VkResult) : CommandState :=
  if result = errorFeatureNotPresent then c else c.fail result

/-- What a draw becomes: the draw as it is, nothing, a point list, or a line list. -/
inductive Drawn where
  | filled
  | nothing
  | points
  | lines (edges : Edges)
  deriving DecidableEq, Repr

/-- `prepass`: the command buffer for prepasses, begun once. -/
def Recording.prepass (s : Recording) (made : Except VkResult Command) : Except VkResult Recording :=
  match s.pre with
  | some pre => if pre.opened then .ok s else .error errorFeatureNotPresent
  | none => made.map fun c => { s with pre := some ⟨c, true, false⟩ }

/-- The last part of `draw_polygon` for lines: making the indices and keeping them. The first draw
that gets them uses the prepass. -/
def drawEdges (env : DrawEnv) (limits : Limits) (patterns : Patterns) (c : CommandState) (count : UInt32)
    (shape : Shape) (source : Option Source) (restart : Bool) : CommandState × Patterns × Drawn :=
  let (stores, result) := edgesCreate env.edges limits ⟨patterns, c.storage⟩ count shape source restart
  let c := { c with storage := stores.chunks }
  match result with
  | .error e => (c.failUnless e, stores.patterns, .filled)
  | .ok edges =>
    if env.retained ≠ .success then (c.fail env.retained, stores.patterns, .filled)
    else
      let s := c.recording
      let pre := if source.isSome then s.pre.map fun pre => { pre with used := true } else s.pre
      ({ c with recording := { s with pre, edges := source.map (·.range.buffer) :: s.edges } },
        stores.patterns, .lines edges)

section
variable (env : DrawEnv) (patterns : Patterns) (c : CommandState) (indexed : Bool)

/-- The part of `draw_polygon` for lines. -/
def drawLines (count first : UInt32)
    (vertexOffset : Int32) (shape : Shape) (restart : Bool) : CommandState × Patterns × Drawn :=
  let s := c.recording
  let tris := triangles shape count
  if tris = 0 then (c, patterns, .nothing)
  else if uint32Max / 6 < tris ∨ (!indexed ∧ 2 ^ 31 - 1 < first.toNat) then (c, patterns, .filled)
  else if (s.index.bind Binding.size).isSome ∧ !env.bindIndex2 then (c, patterns, .filled)
  else
    match env.limits with
    | none => (c, patterns, .filled)
    | some limits =>
      if indexed then
        match s.index with
        | none => (c, patterns, .filled)
        | some b =>
          if s.written b.buffer ∨ s.simultaneous ∨ (restart ∧ (shape ≠ .strip ∨ vertexOffset < 0)) then
            (c, patterns, .filled)
          else
            match indexSource limits b count first with
            | none => (c, patterns, .filled)
            | some source =>
              if !env.storageBuffer source.range then (c, patterns, .filled)
              else
                match s.prepass env.prepass with
                | .error e => (c.failUnless e, patterns, .filled)
                | .ok s =>
                  drawEdges env limits patterns { c with recording := s } count shape (some source) restart
      else drawEdges env limits patterns c count shape none restart

/-- `draw_polygon`. -/
def drawPolygon
    (count instances first : UInt32) (vertexOffset : Int32) : CommandState × Patterns × Drawn :=
  match c.recording.graphics.bind env.acquire with
  | none => (c, patterns, .filled)
  | some p =>
    let topology := if p.dynamicTopology then c.recording.topology else some p.topology
    let restart := if p.dynamicRestart then c.recording.restart else some p.restart
    match topology.bind Topology.shape, restart with
    | some shape, some restart =>
      if count = 0 ∨ instances = 0 then (c, patterns, .nothing)
      else if (p.dynamicTopology ∧ !env.setTopology) ∨ (p.dynamicRestart ∧ !env.setRestart) then
        (c, patterns, .filled)
      else
        match p.mode with
        | .point =>
          if indexed ∧ restart then (c, patterns, .filled)
          else if env.retained ≠ .success then (c.fail env.retained, patterns, .filled)
          else (c, patterns, .points)
        | .line => drawLines env patterns c indexed count first vertexOffset shape restart
    | _, _ => (c, patterns, .filled)

end

/-! ### How a draw can end -/

variable {c : CommandState} {env : DrawEnv} {patterns : Patterns} {count : UInt32} {restart : Bool}
  {result : CommandState × Patterns × Drawn}

theorem fail_error {r : VkResult} (h : (c.fail r).error = .success) : c.error = .success := by
  rw [CommandState.fail] at h
  split at h
  · assumption
  · exact h

theorem fail_ne {r : VkResult} (hr : r ≠ .success) : (c.fail r).error ≠ .success := by
  rw [CommandState.fail]
  split
  · exact hr
  · assumption

@[simp] theorem fail_recording (c : CommandState) (r : VkResult) : (c.fail r).recording = c.recording := by
  rw [CommandState.fail]
  split <;> rfl

/-- The state after a draw that is given up: at most the error and the chunks are new. -/
structure GivenUp (c c' : CommandState) : Prop where
  recording : c'.recording = c.recording
  error : c'.error = .success → c.error = .success

theorem givenUp_refl (c : CommandState) : GivenUp c c := ⟨rfl, id⟩

theorem givenUp_fail (c : CommandState) (r : VkResult) : GivenUp c (c.fail r) :=
  ⟨fail_recording c r, fail_error⟩

theorem givenUp_failUnless (c : CommandState) (r : VkResult) : GivenUp c (c.failUnless r) := by
  rw [CommandState.failUnless]
  split
  · exact givenUp_refl c
  · exact givenUp_fail c r

variable {shape : Shape}

theorem drawEdges_cases {limits : Limits} {source : Option Source}
    (h : drawEdges env limits patterns c count shape source restart = result) :
    (result.2.2 = .filled ∧ GivenUp c result.1) ∨
    (∃ stores edges, edgesCreate env.edges limits ⟨patterns, c.storage⟩ count shape source restart =
        (stores, .ok edges) ∧
      result = ({ c with
            recording := { c.recording with
              pre := if source.isSome then c.recording.pre.map fun pre => { pre with used := true }
                else c.recording.pre
              edges := source.map (·.range.buffer) :: c.recording.edges }
            storage := stores.chunks }, stores.patterns, .lines edges)) := by
  unfold drawEdges at h
  rcases hcreate :
    edgesCreate env.edges limits ⟨patterns, c.storage⟩ count shape source restart with ⟨stores, made⟩
  simp only [hcreate] at h
  cases made with
  | error e =>
    subst h
    have hfail := givenUp_failUnless { c with storage := stores.chunks } e
    exact .inl ⟨rfl, hfail.recording, hfail.error⟩
  | ok edges =>
    simp only at h
    split at h
    · subst h
      have hfail := givenUp_fail { c with storage := stores.chunks } env.retained
      exact .inl ⟨rfl, hfail.recording, hfail.error⟩
    · exact .inr ⟨stores, edges, rfl, h.symm⟩

/-- A draw for lines is given up, or it is made from a pattern, or from indices in a buffer that was
not written. -/
theorem drawLines_cases {indexed : Bool} {first : UInt32} {vertexOffset : Int32}
    (h : drawLines env patterns c indexed count first vertexOffset shape restart = result) :
    ((result.2.2 = .filled ∨ result.2.2 = .nothing) ∧ GivenUp c result.1) ∨
    (∃ limits, env.limits = some limits ∧ indexed = false ∧
      drawEdges env limits patterns c count shape none restart = result) ∨
    (∃ limits b source s, env.limits = some limits ∧ indexed = true ∧ c.recording.index = some b ∧
      c.recording.written b.buffer = false ∧ (restart = true → shape = .strip) ∧
      indexSource limits b count first = some source ∧ c.recording.prepass env.prepass = .ok s ∧
      drawEdges env limits patterns { c with recording := s } count shape
        (some source) restart = result) := by
  unfold drawLines at h
  simp only at h
  split at h
  · subst h; exact .inl ⟨.inr rfl, givenUp_refl c⟩
  split at h
  · subst h; exact .inl ⟨.inl rfl, givenUp_refl c⟩
  split at h
  · subst h; exact .inl ⟨.inl rfl, givenUp_refl c⟩
  split at h
  · subst h; exact .inl ⟨.inl rfl, givenUp_refl c⟩
  next limits hlimits =>
  split at h
  · next hindexed =>
    split at h
    · subst h; exact .inl ⟨.inl rfl, givenUp_refl c⟩
    next b hindex =>
    split at h
    · subst h; exact .inl ⟨.inl rfl, givenUp_refl c⟩
    next hsupported =>
    split at h
    · subst h; exact .inl ⟨.inl rfl, givenUp_refl c⟩
    next source hsource =>
    split at h
    · subst h; exact .inl ⟨.inl rfl, givenUp_refl c⟩
    split at h
    · next e _ => subst h; exact .inl ⟨.inl rfl, givenUp_failUnless c e⟩
    next s hpre =>
    refine .inr (.inr ⟨limits, b, source, s, hlimits, hindexed, hindex, ?_, ?_, hsource, hpre, h⟩)
    · exact Bool.eq_false_iff.mpr fun hwritten => hsupported (.inl hwritten)
    · intro hrestart
      by_contra hshape
      exact hsupported (.inr (.inr ⟨hrestart, .inl hshape⟩))
  · next hindexed => exact .inr (.inl ⟨limits, hlimits, Bool.eq_false_iff.mpr hindexed, h⟩)

/-- A draw is given up or left as it is, or it is one for lines. -/
theorem drawPolygon_cases {indexed : Bool} {instances first : UInt32} {vertexOffset : Int32}
    (h : drawPolygon env patterns c indexed count instances first vertexOffset = result) :
    ((∀ edges, result.2.2 ≠ .lines edges) ∧ GivenUp c result.1) ∨
    ∃ shape restart, drawLines env patterns c indexed count first vertexOffset shape restart = result := by
  unfold drawPolygon at h
  simp only at h
  split at h
  · subst h; exact .inl ⟨fun _ => Drawn.noConfusion, givenUp_refl c⟩
  split at h
  · next shape restart _ _ =>
    split at h
    · subst h; exact .inl ⟨fun _ => Drawn.noConfusion, givenUp_refl c⟩
    split at h
    · subst h; exact .inl ⟨fun _ => Drawn.noConfusion, givenUp_refl c⟩
    split at h
    · split at h
      · subst h; exact .inl ⟨fun _ => Drawn.noConfusion, givenUp_refl c⟩
      split at h
      · subst h; exact .inl ⟨fun _ => Drawn.noConfusion, givenUp_fail c _⟩
      · subst h; exact .inl ⟨fun _ => Drawn.noConfusion, givenUp_refl c⟩
    · exact .inr ⟨shape, restart, h⟩
  · subst h; exact .inl ⟨fun _ => Drawn.noConfusion, givenUp_refl c⟩

/-- The prepass command buffer is there, and nothing else changes. -/
theorem prepass_eq_ok {s s' : Recording} {made : Except VkResult Command} (h : s.prepass made = .ok s') :
    ∃ pre, s' = { s with pre := some pre } ∧ ∀ pre', s.pre = some pre' → pre = pre' := by
  rw [Recording.prepass] at h
  cases hpre : s.pre with
  | none =>
    simp only [hpre] at h
    cases made with
    | error e => cases h
    | ok command =>
      cases h
      exact ⟨_, rfl, fun _ hpre' => nomatch hpre'⟩
  | some pre =>
    simp only [hpre] at h
    split at h
    · cases h
      exact ⟨pre, by rw [← hpre], fun _ hpre' => Option.some.inj hpre'⟩
    · cases h

/-- Without a source no dispatch is recorded. -/
theorem edgesCreate_none {env : EdgesEnv} {limits : Limits} {stores stores' : Stores} {edges : Edges}
    (h : edgesCreate env limits stores count shape none restart = (stores', .ok edges)) :
    ∃ p, edges = .pattern p := by
  unfold edgesCreate at h
  simp only at h
  split at h
  · cases congrArg Prod.snd h
  split at h
  · cases congrArg Prod.snd h
  split at h
  · cases congrArg Prod.snd h
  have hok := congrArg Prod.snd h
  cases hresult : (patternFor stores.patterns shape (triangles shape count) env.pattern).2 with
  | error e => rw [hresult] at hok; cases hok
  | ok p =>
    rw [hresult] at hok
    cases hok
    exact ⟨p, rfl⟩

end Polygon
