import Libhybris.Hoist
import Libhybris.PolygonLines
import Libhybris.Transition

/-!
# Index data read ahead of the command buffer

A prepass reads the indices of a draw before the application's command buffer runs. While a command
buffer is recorded the layer notes the buffers it writes and what the secondaries it executes write,
and refuses draws and secondaries whose indices were written before. Here command buffers are
recorded, executed by others, ended and recorded again in any order. What the shaders of the draws
store is left out: here a draw changes no buffer.
-/
namespace Polygon

open Vulkan Hoist List Function

abbrev Memory := Buffer → Nat → UInt8

/-- What runs on the device: a change of memory, or a converted draw, which would have read the
indices in the source of its dispatch. -/
abbrev Step := Op Buffer (Nat → UInt8) Dispatch

structure Region where
  source : Nat
  dest : Nat
  size : Nat
  deriving DecidableEq, Repr

/-- A change of one buffer. -/
def writeStep (buffer : Buffer) (f : Memory → Nat → UInt8) : Step :=
  .effect fun m b => if b = buffer then f m else m b

def copyBufferStep (source dest : Buffer) (regions : List Region) : Step :=
  writeStep dest fun m => regions.foldl (fun bytes r a =>
    if r.dest ≤ a ∧ a < r.dest + r.size then m source (r.source + (a - r.dest)) else bytes a) (m dest)

/-- Some bytes of the buffer are those of an image. -/
def copyImageStep (dest : Buffer) (texels : Nat → Option UInt8) : Step :=
  writeStep dest fun m a => (texels a).getD (m dest a)

/-- No size is `VK_WHOLE_SIZE`. -/
def fillBufferStep (dest : Buffer) (offset : Nat) (size : Option Nat) (value : UInt32) : Step :=
  writeStep dest fun m a =>
    if offset ≤ a ∧ (size.all fun n => a < offset + n) = true then
      UInt8.ofNat (value.toNat / 256 ^ ((a - offset) % 4))
    else m dest a

def updateBufferStep (dest : Buffer) (offset : Nat) (data : List UInt8) : Step :=
  writeStep dest fun m a => if offset ≤ a then (data[a - offset]?).getD (m dest a) else m dest a

inductive Instr where
  | step (s : Step)
  | execute (children : List Command)

/-- What allocating a link and remembering the range for readback answer. -/
structure WriteAnswer where
  allocated : Bool
  remembered : VkResult

def CommandState.noteUnknown (c : CommandState) : CommandState :=
  { c with recording := { c.recording with unknownWrites := true } }

def CommandState.link (c : CommandState) (l : Link) : CommandState :=
  { c with recording := { c.recording with links := l :: c.recording.links } }

/-- `hybris_polygon_record_written`. -/
def CommandState.recordWritten (c : CommandState) (b : Buffer) (allocated : Bool) : CommandState :=
  if c.recording.written b then c
  else if !allocated then c.noteUnknown.fail .errorOutOfHostMemory
  else c.link (.written b)

/-- `write_buffer`. -/
def CommandState.writeBuffer (c : CommandState) (b : Buffer) (a : WriteAnswer) : CommandState :=
  let c := c.recordWritten b a.allocated
  if a.remembered ≠ .success then c.fail a.remembered else c

/-- A secondary and what allocating its link and those for the buffers it writes answers. -/
structure Child where
  command : Command
  allocated : Bool
  writes : Buffer → Bool

/-- The check of the index buffers a secondary's prepass reads. -/
def CommandState.checkSources (c : CommandState) (edges : List (Option Buffer)) : CommandState :=
  edges.foldl (fun c e =>
    match e with
    | some b => if c.recording.written b then c.fail errorFeatureNotPresent else c
    | none => c) c

/-- What a secondary writes, taken over. -/
def CommandState.takeWrites (c : CommandState) (links : List Link) (writes : Buffer → Bool) :
    CommandState :=
  links.foldl (fun c l =>
    match l with
    | .written b => c.recordWritten b (writes b)
    | .child _ _ => c) c

/-- One turn of the loop of `hybris_polygon_record_execute`. -/
def CommandState.executeChild (recordings : Recordings) (c : CommandState) (child : Child) : CommandState :=
  match recordings child.command with
  | none => c
  | some r =>
    let c := c.checkSources r.edges
    if !child.allocated then c.fail .errorOutOfHostMemory
    else
      let c := c.link (.child child.command r.epoch)
      let c := if r.unknownWrites then c.noteUnknown else c
      c.takeWrites r.links child.writes

/-- `hybris_polygon_record_execute`. -/
def CommandState.recordExecute (recordings : Recordings) (c : CommandState)
    (children : List Child) : CommandState :=
  let c := children.foldl (CommandState.executeChild recordings) c
  { c with recording :=
    { c.recording with graphics := none, index := none, topology := none, restart := none } }

/-- The commands recorded into a command buffer. -/
inductive Call where
  | bindPipeline (p : Nat)
  | bindIndex (b : Binding)
  | setTopology (t : Topology)
  | setRestart (v : Bool)
  | draw (env : DrawEnv) (count instances first : UInt32)
  | drawIndexed (env : DrawEnv) (count instances first : UInt32) (vertexOffset : Int32)
  | copyBuffer (source dest : Buffer) (regions : List (Region × WriteAnswer))
  | copyImage (dest : Buffer) (regions : Nat) (texels : Nat → Option UInt8) (a : WriteAnswer)
  | fillBuffer (dest : Buffer) (offset : Nat) (size : Option Nat) (value : UInt32) (a : WriteAnswer)
  | updateBuffer (dest : Buffer) (offset : Nat) (data : List UInt8) (a : WriteAnswer)
  | dispatch (f : Memory → Memory)
  | dispatchIndirect (f : Memory → Memory)
  | dispatchBase (f : Memory → Memory)
  | executeCommands (children : List Child) (collected : VkResult)

/-- The states of a command buffer in Vulkan. -/
inductive Status where
  | initial
  | recording
  | executable
  | invalid
  deriving DecidableEq, Repr

/-- The layer's command buffers, its counter of recordings and the device's patterns; and what the
driver has: the state of each command buffer, what is recorded in it and in its prepass. -/
structure State where
  commands : Command → Option CommandState
  nextEpoch : Nat
  patterns : Patterns
  status : Command → Status
  programs : Command → List Instr
  prepasses : Command → List Dispatch

def State.start : State where
  commands _ := none
  nextEpoch := 0
  patterns _ := none
  status _ := .initial
  programs _ := []
  prepasses _ := []

def State.recordings (s : State) : Recordings := fun c => (s.commands c).map CommandState.recording

/-- What a call does to the command buffer: its new state, the patterns, the commands recorded in it
and the dispatches recorded in its prepass. A dispatch whose draw was given up is left out; the
command buffer has an error then. -/
structure Performed where
  command : CommandState
  patterns : Patterns
  instrs : List Instr
  dispatches : List Dispatch

/-- A draw that is not converted leaves the memory alone, and so does one from a pattern. -/
def performDraw (s : State) (c : CommandState) (env : DrawEnv) (indexed : Bool)
    (count instances first : UInt32) (vertexOffset : Int32) : Performed :=
  let (c, patterns, drawn) := drawPolygon env s.patterns c indexed count instances first vertexOffset
  match drawn with
  | .lines (.dispatched d) => ⟨c, patterns, [.step (.read d)], [d]⟩
  | _ => ⟨c, patterns, [], []⟩

def perform (s : State) (c : CommandState) : Call → Performed
  | .bindPipeline p => ⟨{ c with recording := { c.recording with graphics := some p } }, s.patterns, [], []⟩
  | .bindIndex b => ⟨{ c with recording := { c.recording with index := some b } }, s.patterns, [], []⟩
  | .setTopology t => ⟨{ c with recording := { c.recording with topology := some t } }, s.patterns, [], []⟩
  | .setRestart v => ⟨{ c with recording := { c.recording with restart := some v } }, s.patterns, [], []⟩
  | .draw env count instances first => performDraw s c env false count instances first 0
  | .drawIndexed env count instances first vertexOffset =>
    performDraw s c env true count instances first vertexOffset
  | .copyBuffer source dest regions =>
    ⟨regions.foldl (fun c r => c.writeBuffer dest r.2) c, s.patterns,
      [.step (copyBufferStep source dest (regions.map Prod.fst))], []⟩
  | .copyImage dest regions texels a =>
    if regions = 0 then ⟨c, s.patterns, [], []⟩
    else ⟨c.writeBuffer dest a, s.patterns, [.step (copyImageStep dest texels)], []⟩
  | .fillBuffer dest offset size value a =>
    ⟨c.writeBuffer dest a, s.patterns, [.step (fillBufferStep dest offset size value)], []⟩
  | .updateBuffer dest offset data a =>
    ⟨c.writeBuffer dest a, s.patterns, [.step (updateBufferStep dest offset data)], []⟩
  | .dispatch f => ⟨c.noteUnknown, s.patterns, [.step (.effect f)], []⟩
  | .dispatchIndirect f => ⟨c.noteUnknown, s.patterns, [.step (.effect f)], []⟩
  -- the layer has no function of this name, the driver's is called
  | .dispatchBase f => ⟨c, s.patterns, [.step (.effect f)], []⟩
  | .executeCommands children collected =>
    let c := if collected ≠ .success then c.fail collected else c
    ⟨c.recordExecute s.recordings children, s.patterns, [.execute (children.map Child.command)], []⟩

inductive Event where
  | allocate (c : Command)
  | begin (c : Command) (simultaneous : Bool)
  | record (c : Command) (call : Call)
  | finish (c : Command) (preEnded ended : VkResult)
  | reset (c : Command)

def Instr.executes (c : Command) : Instr → Bool
  | .step _ => false
  | .execute children => children.contains c

/-- Recording a secondary again makes the command buffers that execute it invalid. -/
def State.disown (s : State) (c : Command) : Command → Status := fun x =>
  if (s.programs x).any (Instr.executes c) then .invalid else s.status x

/-- The number of a new recording; it stays 0 once the counter is used up. -/
def State.epoch (s : State) : Nat := if s.nextEpoch = 2 ^ 64 - 1 then 0 else s.nextEpoch + 1

/-- `reset_resources`: nothing is recorded, the chunks are kept. -/
def State.clear (s : State) (c : Command) (old : CommandState) (simultaneous : Bool)
    (status : Status) : State :=
  { s with
    commands := Function.update s.commands c (some
      { recording := Recording.fresh s.epoch simultaneous
        storage := old.storage.map fun chunk => { chunk with used := 0 }
        error := .success })
    nextEpoch := if s.nextEpoch = 2 ^ 64 - 1 then s.nextEpoch else s.nextEpoch + 1
    status := Function.update (s.disown c) c status
    programs := Function.update s.programs c []
    prepasses := Function.update s.prepasses c [] }

def State.recorded (s : State) (c : Command) (p : Performed) : State :=
  { s with
    commands := Function.update s.commands c (some p.command)
    patterns := p.patterns
    programs := Function.update s.programs c (s.programs c ++ p.instrs)
    prepasses := Function.update s.prepasses c (s.prepasses c ++ p.dispatches) }

/-- `hybris_polygon_record_end`. -/
def CommandState.recordEnd (c : CommandState) (preEnded : VkResult) : CommandState :=
  match c.recording.pre with
  | none => c
  | some pre =>
    if !pre.opened then c
    else
      let c := { c with recording := { c.recording with pre := some { pre with opened := false } } }
      if preEnded ≠ .success then c.fail preEnded else c

/-- What Vulkan allows: secondaries are executed by primaries, and only when they were ended without
error and not recorded again. -/
def Call.allowed (primary : Command → Bool) (s : State) (c : Command) : Call → Bool
  | .executeCommands children _ =>
    primary c && children.all fun child => !primary child.command && s.status child.command == .executable
  | _ => true

def step (primary : Command → Bool) (s : State) : Event → Option State
  | .allocate c =>
    match s.commands c with
    | some _ => none
    | none => some { s with
      commands := Function.update s.commands c (some ⟨Recording.fresh 0 false, [], .success⟩) }
  | .begin c simultaneous =>
    match s.commands c with
    | none => none
    | some old => if s.status c = .recording then none else some (s.clear c old simultaneous .recording)
  | .record c call =>
    match s.commands c with
    | none => none
    | some old =>
      if s.status c ≠ .recording ∨ !call.allowed primary s c then none
      else some (s.recorded c (perform s old call))
  | .finish c preEnded ended =>
    match s.commands c with
    | none => none
    | some old =>
      if s.status c ≠ .recording then none
      else
        let new := old.recordEnd preEnded
        some { s with
          commands := Function.update s.commands c (some new)
          status := Function.update s.status c
            (if ended = .success ∧ new.error = .success then .executable else .invalid) }
  | .reset c =>
    match s.commands c with
    | none => none
    | some old => some (s.clear c old old.recording.simultaneous .initial)

def Instr.own : Instr → Option Step
  | .step st => some st
  | .execute _ => none

/-- The steps of a program, with those of the secondaries it executes. -/
def State.flatten (s : State) (program : List Instr) : List Step :=
  program.flatMap fun
    | .step st => [st]
    | .execute children => children.flatMap fun child => (s.programs child).filterMap Instr.own

def State.steps (s : State) (c : Command) : List Step := s.flatten (s.programs c)

/-- A dispatch with a base is recorded only if it writes no buffer or the command buffer already
counts as one that writes every buffer. -/
def Noted (s : State) : Event → Prop
  | .record c (.dispatchBase f) =>
    (∀ b, (.effect f : Step).Keeps b) ∨ ∃ cs, s.commands c = some cs ∧ cs.recording.unknownWrites = true
  | _ => True

def place (d : Dispatch) : Buffer := d.source.buffer

/-! ### What a call can do to a recording -/

/-- Errors stay, and nothing written, linked or drawn is forgotten. -/
structure Grows (c c' : CommandState) : Prop where
  error : c'.error = .success → c.error = .success
  written : ∀ b, c.recording.written b = true → c'.recording.written b = true
  links : ∀ l ∈ c.recording.links, l ∈ c'.recording.links
  edges : ∀ e ∈ c.recording.edges, e ∈ c'.recording.edges
  used : ∀ pre, c.recording.pre = some pre → pre.used = true → ∃ pre',
    c'.recording.pre = some pre' ∧ pre'.used = true

theorem Grows.refl (c : CommandState) : Grows c c :=
  ⟨id, fun _ => id, fun _ => id, fun _ => id, fun pre h hu => ⟨pre, h, hu⟩⟩

variable {c' cs cs' old : CommandState} {b : Buffer} {s' : State} {patterns : Patterns}
  {call : Call} {x : Command}

theorem Grows.trans {c c'' : CommandState} (h : Grows c c') (h' : Grows c' c'') : Grows c c'' where
  error he := h.error (h'.error he)
  written b hb := h'.written b (h.written b hb)
  links l hl := h'.links l (h.links l hl)
  edges e he := h'.edges e (h.edges e he)
  used pre hpre hused := by
    obtain ⟨pre', hpre', hused'⟩ := h.used pre hpre hused
    exact h'.used pre' hpre' hused'

theorem Grows.foldl {ι : Type} {f : CommandState → ι → CommandState} (h : ∀ c i, Grows c (f c i))
    (l : List ι) (c : CommandState) : Grows c (l.foldl f c) := by
  induction l generalizing c with
  | nil => exact .refl c
  | cons i l ih => exact (h c i).trans (ih (f c i))

/-- A state with an equal recording, up to more links. -/
theorem Grows.of_recording {c : CommandState} (herror : c'.error = .success → c.error = .success)
    (hunknown : c.recording.unknownWrites = true → c'.recording.unknownWrites = true)
    (hlinks : ∀ l ∈ c.recording.links, l ∈ c'.recording.links)
    (hedges : c'.recording.edges = c.recording.edges) (hpre : c'.recording.pre = c.recording.pre) :
    Grows c c' where
  error := herror
  written b hb := by
    rw [Recording.written, Bool.or_eq_true] at hb ⊢
    rcases hb with hb | hb
    · exact .inl (hunknown hb)
    · obtain ⟨l, hl, heq⟩ := any_eq_true.mp hb
      exact .inr (any_eq_true.mpr ⟨l, hlinks l hl, heq⟩)
  links := hlinks
  edges e he := by rw [hedges]; exact he
  used pre h hu := ⟨pre, by rw [hpre]; exact h, hu⟩

section
variable (c : CommandState)

theorem grows_fail (r : VkResult) : Grows c (c.fail r) :=
  .of_recording fail_error (by rw [fail_recording]; exact id)
    (by rw [fail_recording]; exact fun _ => id) (by rw [fail_recording]) (by rw [fail_recording])

theorem grows_noteUnknown : Grows c c.noteUnknown :=
  .of_recording id (fun _ => rfl) (fun _ => id) rfl rfl

theorem grows_link (l : Link) : Grows c (c.link l) :=
  .of_recording id id (fun _ => mem_cons_of_mem _) rfl rfl

theorem grows_recordWritten (b : Buffer) (allocated : Bool) :
    Grows c (c.recordWritten b allocated) := by
  rw [CommandState.recordWritten]
  split
  · exact .refl c
  split
  · exact (grows_noteUnknown c).trans (grows_fail _ _)
  · exact grows_link c _

theorem written_recordWritten (b : Buffer) (allocated : Bool) :
    (c.recordWritten b allocated).recording.written b = true := by
  rw [CommandState.recordWritten]
  split
  · assumption
  split
  · rw [fail_recording]
    rfl
  · simp [Recording.written, CommandState.link]

theorem grows_writeBuffer (b : Buffer) (a : WriteAnswer) : Grows c (c.writeBuffer b a) := by
  rw [CommandState.writeBuffer]
  split
  · exact (grows_recordWritten c b _).trans (grows_fail _ _)
  · exact grows_recordWritten c b _

theorem written_writeBuffer (b : Buffer) (a : WriteAnswer) :
    (c.writeBuffer b a).recording.written b = true := by
  rw [CommandState.writeBuffer]
  split
  · rw [fail_recording]
    exact written_recordWritten c b _
  · exact written_recordWritten c b _

/-! ### Executing a secondary -/

theorem grows_checkSources (edges : List (Option Buffer)) : Grows c (c.checkSources edges) := by
  refine Grows.foldl (fun c e => ?_) edges c
  cases e with
  | none => exact .refl c
  | some b =>
    simp only
    split
    · exact grows_fail _ _
    · exact .refl c

end

/-- Without an error no index buffer of the secondary was written. -/
theorem checkSources_unwritten {c : CommandState} {edges : List (Option Buffer)}
    (h : (c.checkSources edges).error = .success) (hb : some b ∈ edges) :
    c.recording.written b = false := by
  induction edges generalizing c with
  | nil => cases hb
  | cons e edges ih =>
    cases e with
    | none => exact ih h ((mem_cons.mp hb).resolve_left (fun heq => nomatch heq))
    | some b' =>
      simp only [CommandState.checkSources, foldl_cons] at h
      split at h
      · exact absurd (grows_checkSources _ edges |>.error h) (fail_ne (by decide))
      · next hwritten =>
        rcases mem_cons.mp hb with heq | hb
        · cases heq
          exact Bool.eq_false_iff.mpr hwritten
        · exact ih h hb

theorem grows_takeWrites (c : CommandState) (links : List Link) (writes : Buffer → Bool) :
    Grows c (c.takeWrites links writes) := by
  refine Grows.foldl (fun c l => ?_) links c
  cases l with
  | written b => exact grows_recordWritten c b _
  | child command epoch => exact .refl c

theorem written_takeWrites (c : CommandState) {links : List Link} (writes : Buffer → Bool)
    (hb : .written b ∈ links) : (c.takeWrites links writes).recording.written b = true := by
  induction links generalizing c with
  | nil => cases hb
  | cons l links ih =>
    rcases mem_cons.mp hb with rfl | hb
    · exact (grows_takeWrites _ links writes).written b (written_recordWritten c b _)
    · exact ih _ hb

/-- A secondary executed without an error: its link is kept, what it writes counts as written, and
what its prepass reads was not written. -/
theorem executeChild_spec {recordings : Recordings} {c : CommandState} {child : Child}
    {r : Recording} (hr : recordings child.command = some r) :
    Grows c (c.executeChild recordings child) ∧
      ((c.executeChild recordings child).error = .success →
        (∀ b, r.written b = true → (c.executeChild recordings child).recording.written b = true) ∧
        (∀ b, some b ∈ r.edges → c.recording.written b = false) ∧
        .child child.command r.epoch ∈ (c.executeChild recordings child).recording.links) := by
  simp only [CommandState.executeChild, hr]
  have hcheck := grows_checkSources c r.edges
  split
  · refine ⟨hcheck.trans (grows_fail _ _), fun herror => absurd herror (fail_ne (by decide))⟩
  have hlink := grows_link (c.checkSources r.edges) (.child child.command r.epoch)
  have hlinked : .child child.command r.epoch ∈
      ((c.checkSources r.edges).link (.child child.command r.epoch)).recording.links := mem_cons_self
  generalize (c.checkSources r.edges).link (.child child.command r.epoch) = linked at hlink hlinked ⊢
  have hnote : Grows linked (if r.unknownWrites = true then linked.noteUnknown else linked) := by
    split
    · exact grows_noteUnknown linked
    · exact .refl linked
  have hunknown : r.unknownWrites = true →
      (if r.unknownWrites = true then linked.noteUnknown else linked).recording.unknownWrites = true := by
    intro hr
    rw [if_pos hr]
    rfl
  generalize (if r.unknownWrites = true then linked.noteUnknown else linked) = noted at hnote hunknown ⊢
  have htake := grows_takeWrites noted r.links child.writes
  refine ⟨((hcheck.trans hlink).trans hnote).trans htake,
    fun herror => ⟨fun b hb => ?_, fun b hb => ?_, ?_⟩⟩
  · rw [Recording.written, Bool.or_eq_true] at hb
    rcases hb with hb | hb
    · refine htake.written b ?_
      rw [Recording.written, hunknown hb, Bool.true_or]
    · obtain ⟨l, hl, heq⟩ := any_eq_true.mp hb
      cases eq_of_beq heq
      exact written_takeWrites noted child.writes hl
  · exact checkSources_unwritten (hlink.error (hnote.error (htake.error herror))) hb
  · exact htake.links _ (hnote.links _ hlinked)

/-! ### Programs and their steps -/

/-- The program executes no secondaries. -/
def Flat (program : List Instr) : Prop := ∀ children, .execute children ∉ program

theorem flatten_append (s : State) (p q : List Instr) : s.flatten (p ++ q) = s.flatten p ++ s.flatten q :=
  flatMap_append

theorem steps_of_flat {s : State} {c : Command} (h : Flat (s.programs c)) :
    s.steps c = (s.programs c).filterMap Instr.own := by
  rw [State.steps, filterMap_eq_flatMap_toList]
  refine flatMap_congr fun i hi => ?_
  cases i with
  | step st => rfl
  | execute children => exact absurd hi (h children)

theorem flatten_congr {s : State} {p : List Instr}
    (h : ∀ children, .execute children ∈ p → ∀ child ∈ children, s'.programs child = s.programs child) :
    s'.flatten p = s.flatten p := by
  refine flatMap_congr fun i hi => ?_
  cases i with
  | step st => rfl
  | execute children => exact flatMap_congr fun child hchild => by rw [h children hi child hchild]

/-- A step is of the program itself or of a secondary it executes. -/
theorem mem_steps {s : State} {c : Command} {st : Step} (h : st ∈ s.steps c) :
    .step st ∈ s.programs c ∨
      ∃ children child, .execute children ∈ s.programs c ∧ child ∈ children ∧
        .step st ∈ s.programs child := by
  obtain ⟨i, hi, hst⟩ := mem_flatMap.mp h
  cases i with
  | step st' =>
    cases mem_singleton.mp hst
    exact .inl hi
  | execute children =>
    obtain ⟨child, hchild, hst⟩ := mem_flatMap.mp hst
    obtain ⟨i', hi', hown⟩ := mem_filterMap.mp hst
    cases i' with
    | step st' =>
      cases hown
      exact .inr ⟨children, child, hi, hchild, hi'⟩
    | execute _ => cases hown

/-! ### What is kept of a recording -/

/-- The converted draw is in the prepass, and its index buffer among those the prepass reads. -/
structure Drawing (cs : CommandState) (dispatches : List Dispatch) (d : Dispatch) : Prop where
  listed : some d.source.buffer ∈ cs.recording.edges
  dispatched : d ∈ dispatches
  used : ∃ pre, cs.recording.pre = some pre ∧ pre.used = true

theorem Drawing.grows {l l' : List Dispatch} {d : Dispatch} (h : Drawing cs l d)
    (hgrows : Grows cs cs') (hsub : l ⊆ l') : Drawing cs' l' d where
  listed := hgrows.edges _ h.listed
  dispatched := hsub h.dispatched
  used := by
    obtain ⟨pre, hpre, hused⟩ := h.used
    exact hgrows.used pre hpre hused

/-- A recording without error: buffers that are not noted are not written, no buffer is written
before a converted draw reads it, draws are in the prepass, and executed secondaries are linked. -/
structure Good (s : State) (c : Command) (cs : CommandState) : Prop where
  framed : Framed cs.recording.written (s.steps c)
  hoistable : Hoistable place (s.steps c)
  drawn : ∀ d, .step (.read d) ∈ s.programs c → Drawing cs (s.prepasses c) d
  linked : ∀ children, .execute children ∈ s.programs c → ∀ child ∈ children, ∃ epoch,
    .child child epoch ∈ cs.recording.links

theorem Grows.unwritten (h : Grows cs cs') (b : Buffer) (hb : cs'.recording.written b = false) :
    cs.recording.written b = false :=
  Bool.eq_false_iff.mpr fun hw => Bool.false_ne_true (hb.symm.trans (h.written b hw))

section
variable {s : State} {c : Command}

theorem Good.grows (h : Good s c cs) (hgrows : Grows cs cs') : Good s c cs' where
  framed := h.framed.mono hgrows.unwritten
  hoistable := h.hoistable
  drawn d hd := (h.drawn d hd).grows hgrows (List.Subset.refl _)
  linked children hc child hchild := by
    obtain ⟨epoch, hlink⟩ := h.linked children hc child hchild
    exact ⟨epoch, hgrows.links _ hlink⟩

/-- It depends on the programs of the command buffer and of its secondaries only. -/
theorem Good.congr (h : Good s c cs) (hprogram : s'.programs c = s.programs c)
    (hprepass : s'.prepasses c = s.prepasses c)
    (hchildren : ∀ children, .execute children ∈ s.programs c → ∀ child ∈ children,
      s'.programs child = s.programs child) : Good s' c cs := by
  have hsteps : s'.steps c = s.steps c := by
    rw [State.steps, hprogram]
    exact flatten_congr hchildren
  refine ⟨hsteps ▸ h.framed, hsteps ▸ h.hoistable, ?_, ?_⟩
  · rw [hprogram, hprepass]
    exact h.drawn
  · rw [hprogram]
    exact h.linked

theorem good_empty (cs : CommandState) (h : s.programs c = []) : Good s c cs := by
  have hsteps : s.steps c = [] := by rw [State.steps, h]; rfl
  refine ⟨hsteps ▸ framed_nil _, hsteps ▸ hoistable_nil, ?_, ?_⟩
  · rw [h]
    exact fun _ hd => absurd hd not_mem_nil
  · rw [h]
    exact fun _ hc => absurd hc not_mem_nil

end

/-- What one call adds to a recording keeps it good, whatever steps were there. -/
structure Sound (s : State) (cs : CommandState) (p : Performed) : Prop where
  grows : Grows cs p.command
  framed : p.command.error = .success → Framed p.command.recording.written (s.flatten p.instrs)
  hoistable : p.command.error = .success → ∀ ops, Framed cs.recording.written ops →
    Hoistable place ops → Hoistable place (ops ++ s.flatten p.instrs)
  drawn : ∀ d, .step (.read d) ∈ p.instrs → Drawing p.command p.dispatches d
  linked : p.command.error = .success → ∀ children, .execute children ∈ p.instrs →
    ∀ child ∈ children, ∃ epoch, .child child epoch ∈ p.command.recording.links

section
variable {s : State}

/-- The command buffer after a sound call. -/
theorem Sound.good {c : Command} {p : Performed} (h : Sound s cs p) (hgood : Good s c cs)
    (herror : p.command.error = .success) (hprogram : s'.programs c = s.programs c ++ p.instrs)
    (hprepass : s'.prepasses c = s.prepasses c ++ p.dispatches)
    (hchildren : ∀ children, .execute children ∈ s.programs c ++ p.instrs → ∀ child ∈ children,
      s'.programs child = s.programs child) : Good s' c p.command := by
  have hsteps : s'.steps c = s.steps c ++ s.flatten p.instrs := by
    rw [State.steps, hprogram, flatten_congr hchildren, flatten_append]
    rfl
  have hold := hgood.grows h.grows
  refine ⟨hsteps ▸ hold.framed.append (h.framed herror),
    hsteps ▸ h.hoistable herror _ hgood.framed hgood.hoistable, fun d hd => ?_,
      fun children hc child hchild => ?_⟩
  · rw [hprogram] at hd
    rw [hprepass]
    rcases mem_append.mp hd with hd | hd
    · exact (hold.drawn d hd).grows (.refl _) (subset_append_left _ _)
    · exact (h.drawn d hd).grows (.refl _) (subset_append_right _ _)
  · rw [hprogram] at hc
    rcases mem_append.mp hc with hc | hc
    · exact hold.linked children hc child hchild
    · exact h.linked herror children hc child hchild

theorem Sound.after {p : Performed} (hgrows : Grows cs cs') (h : Sound s cs' p) :
    Sound s cs p where
  grows := hgrows.trans h.grows
  framed := h.framed
  hoistable herror ops hops := h.hoistable herror ops (hops.mono hgrows.unwritten)
  drawn := h.drawn
  linked := h.linked

/-! ### The calls -/

/-- A call that records nothing of interest. -/
theorem sound_quiet (h : Grows cs cs') : Sound s cs ⟨cs', patterns, [], []⟩ where
  grows := h
  framed _ := framed_nil _
  hoistable _ ops _ hops := by rwa [show s.flatten [] = [] from rfl, append_nil]
  drawn _ hd := absurd hd not_mem_nil
  linked _ _ hc := absurd hc not_mem_nil

/-- A call that changes only buffers it notes. -/
theorem sound_effect {f : Memory → Memory} (h : Grows cs cs')
    (hkeeps : ∀ b, cs'.recording.written b = false → (.effect f : Step).Keeps b) :
    Sound s cs ⟨cs', patterns, [.step (.effect f)], []⟩ where
  grows := h
  framed _ b hb o ho := by
    cases mem_singleton.mp ho
    exact hkeeps b hb
  hoistable _ ops hframed hops := hops.concat hframed fun _ hr => nomatch hr
  drawn _ hd := nomatch mem_singleton.mp hd
  linked _ _ hc := nomatch mem_singleton.mp hc

theorem sound_write {f : Memory → Nat → UInt8} (h : Grows cs cs')
    (hb : cs'.recording.written b = true) : Sound s cs ⟨cs', patterns, [.step (writeStep b f)], []⟩ := by
  refine sound_effect h fun b' hb' m => if_neg ?_
  rintro rfl
  exact Bool.false_ne_true (hb'.symm.trans hb)

end

theorem grows_givenUp {c : CommandState} (h : GivenUp c c') : Grows c c' :=
  .of_recording h.error (by rw [h.recording]; exact id) (by rw [h.recording]; exact fun _ => id)
    (by rw [h.recording]) (by rw [h.recording])

theorem grows_prepass {c : CommandState} {s : Recording} {made : Except VkResult Command}
    (h : c.recording.prepass made = .ok s) : Grows c { c with recording := s } := by
  obtain ⟨pre, rfl, hold⟩ := prepass_eq_ok h
  exact ⟨id, fun _ => id, fun _ => id, fun _ => id,
    fun pre' hpre' hused => ⟨pre, rfl, hold pre' hpre' ▸ hused⟩⟩

theorem grows_drawEdges {env : DrawEnv} {limits : Limits} {c : CommandState} {count : UInt32}
    {shape : Shape} {source : Option Source} {restart : Bool} {result : CommandState × Patterns × Drawn}
    (h : drawEdges env limits patterns c count shape source restart = result) : Grows c result.1 := by
  rcases drawEdges_cases h with ⟨-, hgiven⟩ | ⟨stores, edges, -, rfl⟩
  · exact grows_givenUp hgiven
  · refine ⟨id, fun _ => id, fun _ => id, fun _ => mem_cons_of_mem _, fun pre hpre hused => ?_⟩
    simp only [hpre]
    split
    · exact ⟨_, rfl, rfl⟩
    · exact ⟨pre, rfl, hused⟩

theorem grows_drawLines {env : DrawEnv} {c : CommandState} {indexed : Bool} {count first : UInt32}
    {vertexOffset : Int32} {shape : Shape} {restart : Bool} {result : CommandState × Patterns × Drawn}
    (h : drawLines env patterns c indexed count first vertexOffset shape restart = result) :
    Grows c result.1 := by
  rcases drawLines_cases h with ⟨-, hgiven⟩ | ⟨limits, -, -, hedges⟩ |
      ⟨limits, b, source, s, -, -, -, -, -, -, hpre, hedges⟩
  · exact grows_givenUp hgiven
  · exact grows_drawEdges hedges
  · exact (grows_prepass hpre).trans (grows_drawEdges hedges)

theorem sound_draw (s : State) (cs : CommandState) (env : DrawEnv) (indexed : Bool)
    (count instances first : UInt32)
    (vertexOffset : Int32) :
    Sound s cs (performDraw s cs env indexed count instances first vertexOffset) := by
  rcases hdraw :
    drawPolygon env s.patterns cs indexed count instances first vertexOffset with ⟨cs', patterns, drawn⟩
  simp only [performDraw, hdraw]
  rcases drawPolygon_cases hdraw with ⟨hdrawn, hgiven⟩ | ⟨shape, restart, hlines⟩
  · split
    · next d => exact absurd rfl (hdrawn _)
    · exact sound_quiet (grows_givenUp hgiven)
  split
  · next d =>
    -- the only draw with a dispatch: its index buffer is not noted as written
    obtain ⟨limits, b, r, -, hwritten, hpre, hconverted, -, hrecording, -⟩ := drawLines_dispatched hlines
    obtain ⟨pre, rfl, -⟩ := prepass_eq_ok hpre
    refine ⟨grows_drawLines hlines, fun _ b' _ o ho => ?_, fun _ ops hframed hops => ?_,
      fun d' hd' => ?_, fun _ _ hc => ?_⟩
    · cases mem_singleton.mp ho
      exact keeps_read d b'
    · refine hops.concat hframed fun d' hd' => ?_
      cases hd'
      rw [place, hconverted.sourceBuffer]
      exact hwritten
    · cases mem_singleton.mp hd'
      refine ⟨?_, mem_cons_self, { pre with used := true }, ?_, rfl⟩
      · rw [hrecording]; exact mem_cons_self
      · rw [hrecording]; rfl
    · cases mem_singleton.mp hc
  · exact sound_quiet (grows_drawLines hlines)

/-- Executing secondaries whose recordings are good. -/
theorem executeChildren_spec {s : State} (children : List Child)
    (hchildren : ∀ child ∈ children, ∃ r, s.commands child.command = some r ∧
      Good s child.command r ∧ Flat (s.programs child.command)) (c : CommandState) :
    let steps := children.flatMap fun child => s.steps child.command
    let c' := children.foldl (CommandState.executeChild s.recordings) c
    Grows c c' ∧ (c'.error = .success →
      Framed c'.recording.written steps ∧
      (∀ ops, Framed c.recording.written ops → Hoistable place ops → Hoistable place (ops ++ steps)) ∧
      ∀ child ∈ children, ∃ epoch, .child child.command epoch ∈ c'.recording.links) := by
  induction children generalizing c with
  | nil =>
    refine ⟨.refl c, fun _ => ⟨framed_nil _, fun ops _ hops => ?_, forall_mem_nil _⟩⟩
    rw [flatMap_nil, append_nil]
    exact hops
  | cons child children ih =>
    obtain ⟨r, hr, hgood, hflat⟩ := hchildren child mem_cons_self
    have hrec : s.recordings child.command = some r.recording := by rw [State.recordings, hr]; rfl
    obtain ⟨hfirst, hspec⟩ := executeChild_spec (c := c) hrec
    obtain ⟨hrest, ih⟩ := ih (fun child' h => hchildren child' (mem_cons_of_mem _ h))
      (c.executeChild s.recordings child)
    simp only [foldl_cons, flatMap_cons]
    refine ⟨hfirst.trans hrest, fun herror => ?_⟩
    obtain ⟨hwritten, hread, hlink⟩ := hspec (hrest.error herror)
    obtain ⟨hframed, hhoist, hlinks⟩ := ih herror
    have hchild : Framed (c.executeChild s.recordings child).recording.written (s.steps child.command) :=
      hgood.framed.mono fun b hb => Bool.eq_false_iff.mpr fun hw =>
        Bool.false_ne_true (hb.symm.trans (hwritten b hw))
    refine ⟨(hchild.mono hrest.unwritten).append hframed, fun ops hops hoist => ?_, fun child' hmem => ?_⟩
    · rw [← append_assoc]
      refine hhoist _ ((hops.mono hfirst.unwritten).append hchild)
        (hoist.append hgood.hoistable fun d hd => ?_)
      -- a draw of the secondary: its index buffer was not noted before the call
      rw [steps_of_flat hflat] at hd
      obtain ⟨i, hi, hown⟩ := mem_filterMap.mp hd
      cases i with
      | execute _ => cases hown
      | step st =>
        cases hown
        exact hops _ (hread _ (hgood.drawn d hi).listed)
    · rcases mem_cons.mp hmem with rfl | hmem
      · exact ⟨_, hrest.links _ hlink⟩
      · exact hlinks child' hmem

theorem sound_execute {s : State} {children : List Child}
    (hchildren : ∀ child ∈ children, ∃ r, s.commands child.command = some r ∧
      Good s child.command r ∧ Flat (s.programs child.command)) :
    Sound s cs ⟨cs.recordExecute s.recordings children, patterns,
      [.execute (children.map Child.command)], []⟩ := by
  obtain ⟨hgrows, hspec⟩ := executeChildren_spec children hchildren cs
  have hsteps : s.flatten [.execute (children.map Child.command)] =
      children.flatMap fun child => s.steps child.command := by
    simp only [State.flatten, flatMap_singleton, flatMap_map]
    refine flatMap_congr fun child hchild => ?_
    obtain ⟨_, -, -, hflat⟩ := hchildren child hchild
    exact (steps_of_flat hflat).symm
  refine ⟨hgrows.trans (.of_recording id id (fun _ => id) rfl rfl), fun herror => ?_, fun herror => ?_,
    (fun d hd => nomatch mem_singleton.mp hd), fun herror children' hc child hchild => ?_⟩
  · rw [hsteps]
    exact (hspec herror).1
  · rw [hsteps]
    exact (hspec herror).2.1
  · cases mem_singleton.mp hc
    obtain ⟨child, hmem, rfl⟩ := mem_map.mp hchild
    exact (hspec herror).2.2 child hmem

theorem grows_writes (regions : List (Region × WriteAnswer)) (cs : CommandState) (dest : Buffer) :
    Grows cs (regions.foldl (fun c r => c.writeBuffer dest r.2) cs) :=
  Grows.foldl (fun c r => grows_writeBuffer c dest r.2) regions cs

/-- Without regions a copy changes nothing, with one its destination is noted. -/
theorem sound_copyBuffer {s : State} (source dest : Buffer) (regions : List (Region × WriteAnswer)) :
    Sound s cs ⟨regions.foldl (fun c r => c.writeBuffer dest r.2) cs, patterns,
      [.step (copyBufferStep source dest (regions.map Prod.fst))], []⟩ := by
  cases regions with
  | nil =>
    refine sound_effect (grows_writes [] cs dest) fun b _ m => ?_
    by_cases hb : b = dest
    · rw [hb]
      exact if_pos rfl
    · exact if_neg hb
  | cons region rest =>
    exact sound_write (grows_writes (region :: rest) cs dest)
      ((grows_writes rest _ dest).written dest (written_writeBuffer cs dest region.2))

/-- Every call is sound, given good secondaries and noted dispatches. -/
theorem sound_perform {primary : Command → Bool} {s : State} {c : Command} (hcs : s.commands c = some cs)
    (hnoted : Noted s (.record c call)) (hallowed : call.allowed primary s c = true)
    (hchildren : ∀ child, primary child = false → s.status child = .executable → ∃ r,
      s.commands child = some r ∧
      Good s child r ∧ Flat (s.programs child)) : Sound s cs (perform s cs call) := by
  cases call with
  | bindPipeline _ | bindIndex _ | setTopology _ | setRestart _ =>
    exact sound_quiet (.of_recording id id (fun _ => id) rfl rfl)
  | draw env count instances first => exact sound_draw s cs env false count instances first 0
  | drawIndexed env count instances first vertexOffset =>
    exact sound_draw s cs env true count instances first vertexOffset
  | copyBuffer source dest regions => exact sound_copyBuffer source dest regions
  | copyImage dest regions texels a =>
    simp only [perform]
    split
    · exact sound_quiet (.refl cs)
    · exact sound_write (grows_writeBuffer cs dest a) (written_writeBuffer cs dest a)
  | fillBuffer dest _ _ _ a | updateBuffer dest _ _ a =>
    exact sound_write (grows_writeBuffer cs dest a) (written_writeBuffer cs dest a)
  | dispatch _ | dispatchIndirect _ => exact sound_effect (grows_noteUnknown cs) fun _ hb => nomatch hb
  | dispatchBase f =>
    refine sound_effect (.refl cs) fun b hb => ?_
    rcases hnoted with hkeeps | ⟨cs', hcs', hunknown⟩
    · exact hkeeps b
    · cases hcs.symm.trans hcs'
      rw [Recording.written, hunknown] at hb
      cases hb
  | executeCommands children collected =>
    have hcollected : Grows cs (if collected ≠ .success then cs.fail collected else cs) := by
      split
      · exact grows_fail cs collected
      · exact .refl cs
    refine Sound.after hcollected (sound_execute fun child hchild => ?_)
    obtain ⟨-, hall⟩ := Bool.and_eq_true_iff.mp hallowed
    obtain ⟨hsecondary, hstatus⟩ := Bool.and_eq_true_iff.mp (all_eq_true.mp hall child hchild)
    exact hchildren child.command (Bool.not_eq_true' _ ▸ hsecondary) (eq_of_beq hstatus)

/-! ### Every run -/

/-- The command buffer is being recorded or can be submitted. -/
def Status.live : Status → Bool
  | .recording | .executable => true
  | .initial | .invalid => false

structure Inv (primary : Command → Bool) (s : State) : Prop where
  unknown : ∀ c, s.commands c = none → s.status c = .initial ∧ s.programs c = []
  good : ∀ c cs, s.commands c = some cs → (s.status c).live = true → cs.error = .success → Good s c cs
  clean : ∀ c cs, s.commands c = some cs → s.status c = .executable → cs.error = .success
  flat : ∀ c, primary c = false → Flat (s.programs c)
  children : ∀ c, (s.status c).live = true → ∀ children, .execute children ∈ s.programs c →
    ∀ child ∈ children, primary child = false ∧ s.status child = .executable

theorem inv_start (primary : Command → Bool) : Inv primary .start where
  unknown _ _ := ⟨rfl, rfl⟩
  good _ _ h := nomatch h
  clean _ _ h := nomatch h
  flat _ _ _ h := absurd h not_mem_nil
  children _ h := nomatch h

section Step

variable {primary : Command → Bool} {s : State} {c : Command}

/-- A command buffer that is being recorded is executed by no other. -/
theorem Inv.not_executed (h : Inv primary s) (hc : s.status c = .recording) (hx : (s.status x).live = true)
    {children : List Command} (hmem : .execute children ∈ s.programs x) : c ∉ children := by
  intro hchild
  obtain ⟨-, hexec⟩ := h.children x hx children hmem c hchild
  cases hc.symm.trans hexec

theorem inv_allocate (h : Inv primary s) (hnone : s.commands c = none) (cs : CommandState) :
    Inv primary { s with commands := Function.update s.commands c (some cs) } := by
  obtain ⟨hinitial, -⟩ := h.unknown c hnone
  have hother : ∀ x, x ≠ c → Function.update s.commands c (some cs) x = s.commands x :=
    fun x hx => update_of_ne hx _ _
  refine ⟨fun x hx => ?_, fun x cs' hcs' hlive herror => ?_, fun x cs' hcs' hexec => ?_, h.flat, h.children⟩
  · have hne : x ≠ c := by
      rintro rfl
      cases (update_self x (some cs) s.commands).symm.trans hx
    exact h.unknown x ((hother x hne).symm.trans hx)
  · have hne : x ≠ c := by
      rintro rfl
      cases (congrArg Status.live hinitial).symm.trans hlive
    have hgood := h.good x cs' ((hother x hne).symm.trans hcs') hlive herror
    exact hgood.congr rfl rfl fun _ _ _ _ => rfl
  · have hne : x ≠ c := by
      rintro rfl
      cases hinitial.symm.trans hexec
    exact h.clean x cs' ((hother x hne).symm.trans hcs') hexec

theorem disown_live (h : (s.disown c x).live = true) :
    s.disown c x = s.status x ∧ ∀ children, .execute children ∈ s.programs x → c ∉ children := by
  rw [State.disown] at h ⊢
  split at h
  · cases h
  · next hany =>
    refine ⟨if_neg hany, fun children hmem hc => hany (any_eq_true.mpr ⟨_, hmem, ?_⟩)⟩
    exact contains_iff_mem.mpr hc

theorem disown_of_flat (h : Flat (s.programs x)) : s.disown c x = s.status x := by
  refine if_neg fun hany => ?_
  obtain ⟨i, hi, hexec⟩ := any_eq_true.mp hany
  cases i with
  | step _ => cases hexec
  | execute children => exact h children hi

theorem Inv.unknown_update (h : Inv primary s) {new : _}
    (hx : Function.update s.commands c (some new) x = none) :
    x ≠ c ∧ s.status x = .initial ∧ s.programs x = [] := by
  have hne : x ≠ c := by
    rintro rfl
    cases (update_self x _ s.commands).symm.trans hx
  exact ⟨hne, h.unknown x ((update_of_ne hne _ _).symm.trans hx)⟩

theorem inv_clear (h : Inv primary s) (simultaneous : Bool) {status : Status}
    (hstatus : status ≠ .executable) : Inv primary (s.clear c old simultaneous status) := by
  have hprograms : ∀ x, x ≠ c → (s.clear c old simultaneous status).programs x = s.programs x :=
    fun x hx => update_of_ne hx _ _
  have hempty : (s.clear c old simultaneous status).programs c = [] := update_self _ _ _
  have hcommands : ∀ x, x ≠ c → (s.clear c old simultaneous status).commands x = s.commands x :=
    fun x hx => update_of_ne hx _ _
  have hother : ∀ x, x ≠ c → (s.clear c old simultaneous status).status x = s.disown c x :=
    fun x hx => update_of_ne hx _ _
  have hself : (s.clear c old simultaneous status).status c = status := update_self _ _ _
  refine ⟨fun x hx => ?_, fun x cs hcs hlive herror => ?_, fun x cs hcs hexec => ?_, fun x hx => ?_,
    fun x hlive children hmem child hchild => ?_⟩
  · obtain ⟨hne, hinitial, hnil⟩ := h.unknown_update hx
    rw [hother x hne, hprograms x hne, disown_of_flat (hnil ▸ fun _ => not_mem_nil)]
    exact ⟨hinitial, hnil⟩
  · by_cases hne : x = c
    · rw [hne]
      exact good_empty cs hempty
    · rw [hother x hne] at hlive
      obtain ⟨hsame, hapart⟩ := disown_live hlive
      have hgood := h.good x cs ((hcommands x hne).symm.trans hcs) (hsame ▸ hlive) herror
      refine hgood.congr (hprograms x hne) (update_of_ne hne _ _) fun children hmem child hchild => ?_
      exact hprograms child fun heq => hapart children hmem (heq ▸ hchild)
  · have hne : x ≠ c := by
      rintro rfl
      exact hstatus (hself.symm.trans hexec)
    rw [hother x hne] at hexec
    have hsame := (disown_live (congrArg Status.live hexec)).1
    exact h.clean x cs ((hcommands x hne).symm.trans hcs) (hsame.symm.trans hexec)
  · by_cases hne : x = c
    · rw [hne, hempty]
      exact fun _ => not_mem_nil
    · rw [hprograms x hne]
      exact h.flat x hx
  · have hne : x ≠ c := by
      rintro rfl
      rw [hempty] at hmem
      exact not_mem_nil hmem
    rw [hother x hne] at hlive
    rw [hprograms x hne] at hmem
    obtain ⟨hsame, hapart⟩ := disown_live hlive
    obtain ⟨hsecondary, hexec⟩ := h.children x (hsame ▸ hlive) children hmem child hchild
    refine ⟨hsecondary, ?_⟩
    rw [hother child fun heq => hapart children hmem (heq ▸ hchild),
      disown_of_flat (h.flat child hsecondary)]
    exact hexec

/-- The secondaries a primary may execute. -/
theorem Inv.child (h : Inv primary s) {child : Command} (hsecondary : primary child = false)
    (hexec : s.status child = .executable) :
    ∃ r, s.commands child = some r ∧ Good s child r ∧ Flat (s.programs child) := by
  cases hr : s.commands child with
  | none =>
    obtain ⟨hinitial, -⟩ := h.unknown child hr
    cases hinitial.symm.trans hexec
  | some r =>
    exact ⟨r, rfl, h.good child r hr (congrArg Status.live hexec) (h.clean child r hr hexec),
      h.flat child hsecondary⟩

/-- A call records only executions of what Vulkan allows to be executed. -/
theorem execute_allowed (hallowed : call.allowed primary s c = true) {children : List Command}
    (hmem : .execute children ∈ (perform s cs call).instrs) :
    primary c = true ∧ ∀ child ∈ children, primary child = false ∧ s.status child = .executable := by
  have hdraw : ∀ env indexed count instances first vertexOffset,
      .execute children ∉ (performDraw s cs env indexed count instances first vertexOffset).instrs := by
    intro env indexed count instances first vertexOffset
    simp only [performDraw]
    split <;> simp
  cases call with
  | executeCommands list collected =>
    cases mem_singleton.mp hmem
    obtain ⟨hprimary, hall⟩ := Bool.and_eq_true_iff.mp hallowed
    refine ⟨hprimary, fun child hchild => ?_⟩
    obtain ⟨child', hmem', rfl⟩ := mem_map.mp hchild
    simpa using all_eq_true.mp hall child' hmem'
  | draw env count instances first => exact absurd hmem (hdraw _ _ _ _ _ _)
  | drawIndexed env count instances first vertexOffset => exact absurd hmem (hdraw _ _ _ _ _ _)
  | copyImage dest regions texels a =>
    simp only [perform] at hmem
    split at hmem <;> simp at hmem
  | _ => simp [perform] at hmem

theorem inv_record (h : Inv primary s) (hold : s.commands c = some old)
    (hrecording : s.status c = .recording) (hallowed : call.allowed primary s c = true)
    (hnoted : Noted s (.record c call)) : Inv primary (s.recorded c (perform s old call)) := by
  have hsound := sound_perform hold hnoted hallowed fun child => h.child
  have hinstrs : ∀ children, .execute children ∈ (perform s old call).instrs → primary c = true ∧
      ∀ child ∈ children, primary child = false ∧ s.status child = .executable := fun _ =>
        execute_allowed hallowed
  generalize perform s old call = p at hsound hinstrs ⊢
  have hprograms : ∀ x, x ≠ c → (s.recorded c p).programs x = s.programs x := fun x hx =>
    update_of_ne hx _ _
  have hself : (s.recorded c p).programs c = s.programs c ++ p.instrs := update_self _ _ _
  have hcommands : ∀ x, x ≠ c → (s.recorded c p).commands x = s.commands x := fun x hx =>
    update_of_ne hx _ _
  have hlive : (s.status c).live = true := congrArg Status.live hrecording
  refine ⟨fun x hx => ?_, fun x cs hcs hlive' herror => ?_, fun x cs hcs hexec => ?_,
    fun x hx => ?_, fun x hlive' children hmem child hchild => ?_⟩
  · obtain ⟨hne, hinitial, hnil⟩ := h.unknown_update hx
    exact ⟨hinitial, (hprograms x hne).trans hnil⟩
  · by_cases hne : x = c
    · subst hne
      cases (update_self x _ s.commands).symm.trans hcs
      have hgood := h.good x old hold hlive (hsound.grows.error herror)
      refine hsound.good hgood herror hself (update_self _ _ _)
        fun children hmem child hchild => hprograms child ?_
      rintro rfl
      rcases mem_append.mp hmem with hmem | hmem
      · exact h.not_executed hrecording hlive hmem hchild
      · obtain ⟨-, hexec⟩ := (hinstrs _ hmem).2 child hchild
        cases hrecording.symm.trans hexec
    · have hgood := h.good x cs ((hcommands x hne).symm.trans hcs) hlive' herror
      refine hgood.congr (hprograms x hne) (update_of_ne hne _ _) fun children hmem child hchild => ?_
      exact hprograms child fun heq => h.not_executed hrecording hlive' hmem (heq ▸ hchild)
  · have hne : x ≠ c := by
      rintro rfl
      cases hrecording.symm.trans hexec
    exact h.clean x cs ((hcommands x hne).symm.trans hcs) hexec
  · by_cases hne : x = c
    · subst hne
      intro children hmem
      rw [hself] at hmem
      rcases mem_append.mp hmem with hmem | hmem
      · exact h.flat x hx children hmem
      · cases hx.symm.trans (hinstrs _ hmem).1
    · rw [hprograms x hne]
      exact h.flat x hx
  · by_cases hne : x = c
    · subst hne
      rw [hself] at hmem
      rcases mem_append.mp hmem with hmem | hmem
      · exact h.children x hlive' children hmem child hchild
      · exact (hinstrs _ hmem).2 child hchild
    · exact h.children x hlive' children (hprograms x hne ▸ hmem) child hchild

theorem grows_recordEnd (cs : CommandState) (preEnded : VkResult) : Grows cs (cs.recordEnd preEnded) := by
  rw [CommandState.recordEnd]
  split
  · exact .refl cs
  next pre hpre =>
  split
  · exact .refl cs
  have hclosed :
    Grows cs { cs with recording := { cs.recording with pre := some { pre with opened := false } } } := by
    refine ⟨id, fun _ => id, fun _ => id, fun _ => id, fun pre' hpre' hused => ⟨_, rfl, ?_⟩⟩
    cases hpre.symm.trans hpre'
    exact hused
  split
  · exact hclosed.trans (grows_fail _ _)
  · exact hclosed

theorem inv_finish (h : Inv primary s) {new : CommandState} (hold : s.commands c = some old)
    (hrecording : s.status c = .recording) (hgrows : Grows old new) {status : Status}
    (hclean : status = .executable → new.error = .success) :
    Inv primary { s with
      commands := Function.update s.commands c (some new)
      status := Function.update s.status c status } := by
  have hcommands : ∀ x, x ≠ c → Function.update s.commands c (some new) x = s.commands x :=
    fun x hx => update_of_ne hx _ _
  have hother : ∀ x, x ≠ c → Function.update s.status c status x = s.status x :=
    fun x hx => update_of_ne hx _ _
  have hlive : (s.status c).live = true := congrArg Status.live hrecording
  refine ⟨fun x hx => ?_, fun x cs hcs hlive' herror => ?_, fun x cs hcs hexec => ?_, h.flat,
    fun x hlive' children hmem child hchild => ?_⟩
  · obtain ⟨hne, hinitial, hnil⟩ := h.unknown_update hx
    exact ⟨(hother x hne).trans hinitial, hnil⟩
  · by_cases hne : x = c
    · subst hne
      cases (update_self x _ s.commands).symm.trans hcs
      have hgood := (h.good x old hold hlive (hgrows.error herror)).grows hgrows
      exact hgood.congr rfl rfl fun _ _ _ _ => rfl
    · have hgood := h.good x cs ((hcommands x hne).symm.trans hcs) (hother x hne ▸ hlive') herror
      exact hgood.congr rfl rfl fun _ _ _ _ => rfl
  · by_cases hne : x = c
    · subst hne
      cases (update_self x _ s.commands).symm.trans hcs
      exact hclean ((update_self x _ s.status).symm.trans hexec)
    · exact h.clean x cs ((hcommands x hne).symm.trans hcs) ((hother x hne).symm.trans hexec)
  · have hlive'' : (s.status x).live = true := by
      by_cases hne : x = c
      · rw [hne]
        exact hlive
      · exact hother x hne ▸ hlive'
    obtain ⟨hsecondary, hexec⟩ := h.children x hlive'' children hmem child hchild
    refine ⟨hsecondary, (hother child fun heq => ?_).trans hexec⟩
    exact h.not_executed hrecording hlive'' hmem (heq ▸ hchild)

end Step

theorem inv_step {primary : Command → Bool} (s : State) (e : Event) (t : State) (h : Inv primary s)
    (hnoted : Noted s e) (hstep : step primary s e = some t) : Inv primary t := by
  cases e with
  | allocate c =>
    rw [step] at hstep
    split at hstep
    · cases hstep
    · next hnone =>
      cases hstep
      exact inv_allocate h hnone _
  | begin c simultaneous =>
    rw [step] at hstep
    split at hstep
    · cases hstep
    split at hstep
    · cases hstep
    · cases hstep
      exact inv_clear h simultaneous Status.noConfusion
  | record c call =>
    rw [step] at hstep
    split at hstep
    · cases hstep
    next old hold =>
    split at hstep
    · cases hstep
    · next hguard =>
      cases hstep
      rw [not_or, not_not, Bool.not_eq_true', Bool.not_eq_false] at hguard
      exact inv_record h hold hguard.1 hguard.2 hnoted
  | finish c preEnded ended =>
    rw [step] at hstep
    split at hstep
    · cases hstep
    next old hold =>
    split at hstep
    · cases hstep
    · next hrecording =>
      cases hstep
      refine inv_finish h hold (not_not.mp hrecording) (grows_recordEnd old preEnded) ?_
      intro hexec
      split at hexec
      · next hended => exact hended.2
      · cases hexec
  | reset c =>
    rw [step] at hstep
    split at hstep
    · cases hstep
    · cases hstep
      exact inv_clear h _ Status.noConfusion

/-- In a run whose dispatches with a base write nothing the layer does not already count as written:
a converted draw of a command buffer that can be submitted is expanded by a prepass submitted before
it, and there the prepass finds the index buffer as the draw would. -/
theorem prepass_reads_indices {primary : Command → Bool} {events : List Event} {s : State}
    (hrun : Transition.run (step primary) .start events = some s)
    (hnoted : Transition.Along (step primary) Noted .start events) {c : Command}
    (hstatus : s.status c = .executable) (hcurrent : Current s.recordings c) {before after : List Step}
    {d : Dispatch} (hsteps : s.steps c = before ++ .read d :: after) :
    (∃ owner r p, s.recordings owner = some r ∧ r.HasPrepass p ∧ d ∈ s.prepasses owner ∧
      p ∈ preceding s.recordings c) ∧
    ∀ m : Memory, Hoist.run before m d.source.buffer = m d.source.buffer := by
  have hinv := Transition.run_invariant_along inv_step events .start s (inv_start primary) hnoted hrun
  have hlive : (s.status c).live = true := congrArg Status.live hstatus
  obtain ⟨cs, hcs⟩ : ∃ cs, s.commands c = some cs := by
    cases hcs : s.commands c with
    | none => cases (hinv.unknown c hcs).1.symm.trans hstatus
    | some cs => exact ⟨cs, rfl⟩
  have hrec : s.recordings c = some cs.recording := by rw [State.recordings, hcs]; rfl
  have hgood := hinv.good c cs hcs hlive (hinv.clean c cs hcs hstatus)
  refine ⟨?_, fun m => hgood.hoistable.run_eq hsteps m⟩
  have hmem : .read d ∈ s.steps c := by
    rw [hsteps]
    exact mem_append_right _ mem_cons_self
  rcases mem_steps hmem with hown | ⟨children, child, hexecute, hchild, hown⟩
  · have hdrawing := hgood.drawn d hown
    obtain ⟨pre, hpre, hused⟩ := hdrawing.used
    have hprepass : cs.recording.HasPrepass pre.command := ⟨pre, hpre, hused, rfl⟩
    exact ⟨c, cs.recording, pre.command, hrec, hprepass, hdrawing.dispatched,
      (mem_preceding hcurrent _).mpr ⟨_, hrec, .inl hprepass⟩⟩
  · obtain ⟨hsecondary, hexec⟩ := hinv.children c hlive children hexecute child hchild
    obtain ⟨r, hr, hgood', -⟩ := hinv.child hsecondary hexec
    have hrec' : s.recordings child = some r.recording := by rw [State.recordings, hr]; rfl
    have hdrawing := hgood'.drawn d hown
    obtain ⟨pre, hpre, hused⟩ := hdrawing.used
    have hprepass : r.recording.HasPrepass pre.command := ⟨pre, hpre, hused, rfl⟩
    obtain ⟨epoch, hlink⟩ := hgood.linked children hexecute child hchild
    exact ⟨child, r.recording, pre.command, hrec', hprepass, hdrawing.dispatched,
      (mem_preceding hcurrent _).mpr ⟨_, hrec, .inr ⟨child, epoch, r.recording, hlink, hrec', hprepass⟩⟩⟩

/-- A dispatch with a base that writes nothing, a secondary with a draw, and then its index buffer
is filled. -/
def sampleRecording : List Event :=
  [.allocate 1, .allocate 2, .begin 2 false, .record 2 (.bindPipeline 5),
    .record 2 (.bindIndex sampleBinding),
    .record 2 (.drawIndexed sampleEnv 7 1 2 0), .finish 2 .success .success, .begin 1 false,
    .record 1 (.dispatchBase id), .record 1 (.executeCommands [⟨2, true, fun _ => true⟩] .success),
    .record 1 (.fillBuffer 3 0 none 0 ⟨true, .success⟩), .finish 1 .success .success]

theorem prepass_reads_indices_sample :
    ∃ s before after d, Transition.run (step (· = 1)) .start sampleRecording = some s ∧
      s.steps 1 = before ++ .read d :: after ∧ d.source.buffer = 3 ∧ preceding s.recordings 1 = [8] ∧
      ∀ m : Memory, Hoist.run before m 3 = m 3 := by
  have hnoted : Transition.Along (step (· = 1)) Noted .start sampleRecording := by
    refine Transition.Along.of_forall (fun e he s => ?_) _
    simp only [sampleRecording, mem_cons, not_mem_nil, or_false] at he
    rcases he with rfl | rfl | rfl | rfl | rfl | rfl | rfl | rfl | rfl | rfl | rfl | rfl
    all_goals first | exact trivial | exact .inl fun _ _ => rfl
  have hreads : ∀ s before after d, Transition.run (step (· = 1)) .start sampleRecording = some s →
      s.status 1 = .executable → Current s.recordings 1 → s.steps 1 = before ++ .read d :: after →
      ∀ m : Memory, Hoist.run before m d.source.buffer = m d.source.buffer :=
    fun _ _ _ _ hrun hstatus hcurrent hsteps =>
      (prepass_reads_indices hrun hnoted hstatus hcurrent hsteps).2
  exact ⟨_, [_], [_], _, rfl, rfl, rfl, by decide, hreads _ [_] [_] _ rfl rfl (by decide) rfl⟩

/-- A dispatch with a base clears the index buffer before the draw; the layer does not note it. -/
def clearedByBase : List Event :=
  [.allocate 1, .begin 1 false, .record 1 (.bindPipeline 5), .record 1 (.bindIndex sampleBinding),
    .record 1 (.dispatchBase fun m b => if b = 3 then fun _ => 0 else m b),
    .record 1 (.drawIndexed sampleEnv 7 1 2 0), .finish 1 .success .success]

/-- The prepass reads the bytes from before the dispatch. -/
theorem dispatchBase_not_noted :
    ∃ s before after d, Transition.run (step fun _ => true) .start clearedByBase = some s ∧
      s.status 1 = .executable ∧ Current s.recordings 1 ∧ s.steps 1 = before ++ .read d :: after ∧
      ∃ (m : Memory) (k : Nat), d.source.offset ≤ k ∧ k < d.source.offset + d.source.size ∧
        Hoist.run before m d.source.buffer k ≠ m d.source.buffer k :=
  ⟨_, [_], [], _, rfl, rfl, by decide, rfl, fun _ _ => 1, 0, by decide, by decide, by decide⟩

end Polygon
