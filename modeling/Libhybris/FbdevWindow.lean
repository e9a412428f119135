import Libhybris.Transition
import Mathlib.Data.List.Nodup

/-!
# Settings of the framebuffer window

`FbDevNativeWindow` of `egl/platforms/fbdev`: settings mark the buffers for a new allocation, and
the next dequeue makes it. `setUsage` assigns the mark where the others add to it, and the
allocation gets 32 bits of the usage. A dequeue that does not return waits for a buffer that is in
use.
-/
namespace FbdevWindow

open Transition List

structure Buffer where
  address : Nat
  /-- what gralloc was asked for -/
  usage : UInt32
  format : Nat
  busy : Nat
deriving DecidableEq

/-- `shown` has the count of free buffers and the front buffer; they have no value before the first
`destroyBuffers`. -/
structure Window where
  bufFormat : Nat
  usage : UInt64
  bufferCount : Nat
  allocateBuffers : Bool
  bufList : List Buffer
  shown : Option (Int × Option Nat)
  next : Nat

/-- `GRALLOC_USAGE_HW_FB`. -/
def usageHwFb : UInt64 := 0x1000

def setUsage (w : Window) (usage : UInt64) : Window :=
  { w with allocateBuffers := w.usage ≠ usage ||| usageHwFb, usage := usage ||| usageHwFb }

def setBuffersFormat (w : Window) (format : Nat) : Window :=
  { w with allocateBuffers := w.allocateBuffers || format ≠ w.bufFormat, bufFormat := format }

def setBufferCount (w : Window) (count : Nat) : Window :=
  if w.bufferCount ≠ count then { w with bufferCount := count, allocateBuffers := true } else w

/-- The constructor, for a display with `framebuffers` buffers. -/
def create (format framebuffers : Nat) : Window :=
  setBufferCount ⟨format, usageHwFb, 0, true, [], none, 0⟩
    (if 0 < framebuffers then framebuffers else 2)

/-- `reallocateBuffers`, with `destroyBuffers`. -/
def reallocateBuffers (w : Window) : Window :=
  { w with
    bufList := (range w.bufferCount).map fun i =>
      ⟨w.next + i, w.usage.toUInt32, w.bufFormat, 0⟩
    shown := some (w.bufferCount, none)
    next := w.next + w.bufferCount
    allocateBuffers := false }

def Window.ready (w : Window) : Window := if w.allocateBuffers then reallocateBuffers w else w

inductive Dequeued where
  | returned (buffer : Buffer) (w : Window)
  | waits
  | uninitialised

/-- The buffer is marked. -/
def Buffer.take (b x : Buffer) : Buffer := if x = b then { x with busy := 1 } else x

def dequeueBuffer (w : Window) : Dequeued :=
  match w.ready.shown with
  | none => .uninitialised
  | some (free, front) =>
    match w.ready.bufList.find? fun b => some b.address ≠ front && b.busy = 0 with
    | none => .waits
    | some b =>
      if free = 0 then .waits
      else .returned b { w.ready with
        bufList := w.ready.bufList.map b.take
        shown := some (free - 1, front) }

def Buffer.giveBack (address : Nat) (x : Buffer) : Buffer :=
  if x.address = address then { x with busy := 0 } else x

def queueBuffer (w : Window) (address : Nat) : Window :=
  { w with
    bufList := w.bufList.map (Buffer.giveBack address)
    shown := w.shown.map fun s => (s.1 + 1, some address) }

inductive Op where
  | setUsage (usage : UInt64)
  | setBuffersFormat (format : Nat)
  | setBufferCount (count : Nat)
  | dequeueBuffer
  | queueBuffer (address : Nat)

/-- The calls of one thread. A dequeue that waits does not return. -/
def step (w : Window) : Op → Option Window
  | .setUsage usage => some (setUsage w usage)
  | .setBuffersFormat format => some (setBuffersFormat w format)
  | .setBufferCount count => some (setBufferCount w count)
  | .dequeueBuffer =>
    match dequeueBuffer w with
    | .returned _ w' => some w'
    | _ => none
  | .queueBuffer address => some (queueBuffer w address)

/-- A usage has 32 bits, and is set again only when no allocation is due. Counts are positive. -/
def Settled (w : Window) : Op → Prop
  | .setUsage usage => usage.toUInt32.toUInt64 = usage ∧
    (w.allocateBuffers = true → w.usage ≠ usage ||| usageHwFb)
  | .setBufferCount count => 0 < count
  | _ => True

instance (w : Window) (op : Op) : Decidable (Settled w op) :=
  match op with
  | .setUsage _ => inferInstanceAs (Decidable (_ ∧ _))
  | .setBufferCount _ => inferInstanceAs (Decidable (_ < _))
  | .setBuffersFormat _ | .dequeueBuffer | .queueBuffer _ => .isTrue trivial

def Buffer.idle (b : Buffer) : Bool := b.busy = 0

/-- The buffers are those the settings ask for, and the free ones are counted. -/
structure Current (w : Window) : Prop where
  buffers : ∀ b ∈ w.bufList, b.usage.toUInt64 = w.usage ∧ b.format = w.bufFormat
  count : w.bufList.length = w.bufferCount
  distinct : (w.bufList.map Buffer.address).Nodup
  counted : ∃ free front, w.shown = some (free, front) ∧ w.bufList.countP Buffer.idle ≤ free

structure Inv (w : Window) : Prop where
  usage : w.usage.toUInt32.toUInt64 = w.usage
  count : 0 < w.bufferCount
  current : w.allocateBuffers = true ∨ Current w

variable {w w' : Window} {op : Op}

theorem reallocateBuffers_current (husage : w.usage.toUInt32.toUInt64 = w.usage) :
    Current (reallocateBuffers w) where
  buffers := by simpa [reallocateBuffers] using fun _ _ => husage
  count := by simp [reallocateBuffers]
  distinct := by
    simp only [reallocateBuffers, map_map]
    exact nodup_range.map fun i j h => Nat.add_left_cancel h
  counted := by
    have hle := countP_le_length (p := Buffer.idle) (l := (reallocateBuffers w).bufList)
    refine ⟨w.bufferCount, none, rfl, ?_⟩
    simp only [reallocateBuffers, length_map, length_range] at hle
    exact_mod_cast hle

theorem ready_current (h : Inv w) : Current w.ready ∧ w.ready.usage = w.usage ∧
    w.ready.bufFormat = w.bufFormat ∧ w.ready.bufferCount = w.bufferCount := by
  rw [Window.ready]
  split
  case isTrue => exact ⟨reallocateBuffers_current h.usage, rfl, rfl, rfl⟩
  case isFalse hdue => exact ⟨h.current.resolve_left hdue, rfl, rfl, rfl⟩

/-- Buffers change their state and nothing else. -/
theorem Current.map (h : Current w) {f : Buffer → Buffer} {free : Int} {front : Option Nat}
    (hf : ∀ b, (f b).usage = b.usage ∧ (f b).format = b.format ∧ (f b).address = b.address)
    (hfree : (w.bufList.map f).countP Buffer.idle ≤ free) :
    Current { w with bufList := w.bufList.map f, shown := some (free, front) } := by
  refine ⟨fun b hb => ?_, by simpa using h.count, ?_, ⟨free, front, rfl, hfree⟩⟩
  · obtain ⟨b, hmem, rfl⟩ := mem_map.mp hb
    rw [(hf b).1, (hf b).2.1]
    exact h.buffers b hmem
  · rw [map_map, show Buffer.address ∘ f = Buffer.address from funext fun b => (hf b).2.2]
    exact h.distinct

variable {b : Buffer} {l : List Buffer}

/-- A buffer that is taken is idle no more. -/
theorem countP_take (hb : b ∈ l) (hidle : b.idle = true) :
    (l.map b.take).countP Buffer.idle + 1 ≤ l.countP Buffer.idle := by
  have hsplit := countP_eq_countP_filter_add l Buffer.idle (· = b)
  have hone : 0 < (l.filter (· = b)).countP Buffer.idle :=
    countP_pos_iff.mpr ⟨b, mem_filter.mpr ⟨hb, by simp⟩, hidle⟩
  have hrest : (l.map b.take).countP Buffer.idle =
      (l.filter fun x => !decide (x = b)).countP Buffer.idle := by
    rw [countP_map, countP_filter]
    refine countP_congr fun x _ => ?_
    by_cases hx : x = b <;> simp [Buffer.take, Buffer.idle, hx]
  omega

/-- Of distinct buffers one at most comes back. -/
theorem countP_giveBack (hl : (l.map Buffer.address).Nodup) (address : Nat) :
    (l.map (Buffer.giveBack address)).countP Buffer.idle ≤ l.countP Buffer.idle + 1 := by
  induction l with
  | nil => simp
  | cons x l ih =>
    rw [map_cons, nodup_cons] at hl
    rw [map_cons, countP_cons, countP_cons]
    by_cases hx : x.address = address
    · have hrest : l.map (Buffer.giveBack address) = l := by
        refine (map_congr_left fun y hy => ?_).trans (map_id l)
        have hne : y.address ≠ address := fun hy' => hl.1 (hx ▸ hy' ▸ mem_map_of_mem hy)
        simp [Buffer.giveBack, hne]
      rw [hrest]
      split <;> omega
    · have hsame : Buffer.giveBack address x = x := by simp [Buffer.giveBack, hx]
      have hrest := ih hl.2
      rw [hsame]
      omega

/-- A dequeue gives a buffer as the settings ask for, of a list of as many as they ask for. It waits
only if no allocation is due and every buffer is in use or shown. -/
structure Served (w : Window) : Prop where
  initialised : dequeueBuffer w ≠ .uninitialised
  returned : ∀ b w', dequeueBuffer w = .returned b w' → b.usage.toUInt64 = w.usage ∧
    b.format = w.bufFormat ∧ { b with busy := 1 } ∈ w'.bufList ∧ w'.bufList.length = w.bufferCount
  waits : dequeueBuffer w = .waits → w.allocateBuffers = false ∧
    ∀ b ∈ w.bufList, b.busy = 0 → w.shown.map Prod.snd = some (some b.address)

/-- What a dequeue does with the buffers as they are to be. -/
theorem dequeueBuffer_spec (h : Inv w) :
    (∃ b w', dequeueBuffer w = .returned b w' ∧ b ∈ w.ready.bufList ∧ Current w' ∧
      w' = { w.ready with bufList := w.ready.bufList.map b.take, shown := w'.shown }) ∨
    dequeueBuffer w = .waits ∧
      ∀ b ∈ w.ready.bufList, b.busy = 0 → w.ready.shown.map Prod.snd = some (some b.address) := by
  obtain ⟨hcurrent, -⟩ := ready_current h
  obtain ⟨free, front, hshown, hfree⟩ := hcurrent.counted
  simp only [dequeueBuffer, hshown]
  cases hfind : w.ready.bufList.find? fun b => some b.address ≠ front && b.busy = 0 with
  | none =>
    refine .inr ⟨rfl, fun b hb hidle => ?_⟩
    have hnone := find?_eq_none.mp hfind b hb
    simp only [hidle, decide_true, Bool.and_true, decide_eq_true_eq, not_not] at hnone
    rw [hnone]
    rfl
  | some b =>
    have hb := mem_of_find?_eq_some hfind
    have hidle : b.idle = true := by
      have hp := find?_some hfind
      simp only [Bool.and_eq_true] at hp
      exact hp.2
    have htake := countP_take hb hidle
    simp only [if_neg (show free ≠ 0 by omega)]
    refine .inl ⟨b, _, rfl, hb, hcurrent.map (f := b.take) (fun x => ?_) (by omega), rfl⟩
    rw [Buffer.take]
    split <;> exact ⟨rfl, rfl, rfl⟩

theorem Inv.served (h : Inv w) : Served w := by
  obtain ⟨hcurrent, husage, hformat, hcount⟩ := ready_current h
  rcases dequeueBuffer_spec h with ⟨b, w', hreturned, hb, hcurrent', hw'⟩ | ⟨hwaits, hbusy⟩
  · refine ⟨by simp [hreturned], fun b' w'' heq => ?_, by simp [hreturned]⟩
    rw [hreturned] at heq
    cases heq
    obtain ⟨hbusage, hbformat⟩ := hcurrent.buffers b hb
    refine ⟨hbusage.trans husage, hbformat.trans hformat, ?_, ?_⟩
    · rw [hw']
      exact mem_map.mpr ⟨b, hb, by simp [Buffer.take]⟩
    · rw [hw', length_map, hcurrent.count, hcount]
  · refine ⟨by simp [hwaits], by simp [hwaits], fun _ => ?_⟩
    by_cases hdue : w.allocateBuffers = true
    · -- a new list has a free buffer, and none is shown
      have hready : w.ready = reallocateBuffers w := by rw [Window.ready, if_pos hdue]
      have hfirst := hbusy ⟨w.next, w.usage.toUInt32, w.bufFormat, 0⟩ (by
        rw [hready]
        exact mem_map.mpr ⟨0, mem_range.mpr h.count, rfl⟩) rfl
      rw [hready] at hfirst
      cases hfirst
    · have hready : w.ready = w := by rw [Window.ready, if_neg hdue]
      rw [hready] at hbusy
      exact ⟨by simpa using hdue, hbusy⟩

theorem or_usageHwFb {usage : UInt64} (h : usage.toUInt32.toUInt64 = usage) :
    (usage ||| usageHwFb).toUInt32.toUInt64 = usage ||| usageHwFb := by
  rw [UInt64.toUInt32_or, UInt32.toUInt64_or, h]
  rfl

theorem Inv.step (h : Inv w) (hsettled : Settled w op) (hstep : step w op = some w') : Inv w' := by
  obtain ⟨husage, hcount, hcurrent⟩ := h
  cases op with
  | setUsage usage =>
    cases hstep
    refine ⟨or_usageHwFb hsettled.1, hcount, ?_⟩
    by_cases hsame : w.usage = usage ||| usageHwFb
    · have hcurrent := hcurrent.resolve_left fun hdue => hsettled.2 hdue hsame
      refine .inr ⟨fun b hb => ?_, hcurrent.count, hcurrent.distinct, hcurrent.counted⟩
      exact ⟨(hcurrent.buffers b hb).1.trans hsame, (hcurrent.buffers b hb).2⟩
    · exact .inl (decide_eq_true hsame)
  | setBuffersFormat format =>
    cases hstep
    refine ⟨husage, hcount, ?_⟩
    by_cases hformat : format = w.bufFormat
    · refine hcurrent.imp (fun hdue => by simp [setBuffersFormat, hdue]) fun hcurrent => ?_
      exact ⟨hformat ▸ hcurrent.buffers, hcurrent.count, hcurrent.distinct, hcurrent.counted⟩
    · exact .inl (by simp [setBuffersFormat, hformat])
  | setBufferCount count =>
    cases hstep
    rw [setBufferCount]
    split
    · exact ⟨husage, hsettled, .inl rfl⟩
    · exact ⟨husage, hcount, hcurrent⟩
  | dequeueBuffer =>
    have h : Inv w := ⟨husage, hcount, hcurrent⟩
    obtain ⟨-, husage', -, hcount'⟩ := ready_current h
    rcases dequeueBuffer_spec h with ⟨b, w₁, hreturned, -, hcurrent₁, hw₁⟩ | ⟨hwaits, -⟩
    · rw [FbdevWindow.step, hreturned] at hstep
      cases hstep
      refine ⟨?_, ?_, .inr hcurrent₁⟩
      · rw [hw₁, husage', husage]
      · rw [hw₁]
        exact hcount' ▸ hcount
    · rw [FbdevWindow.step, hwaits] at hstep
      cases hstep
  | queueBuffer address =>
    cases hstep
    refine ⟨husage, hcount, hcurrent.imp_right fun hcurrent => ?_⟩
    obtain ⟨free, front, hshown, hfree⟩ := hcurrent.counted
    have hback := countP_giveBack hcurrent.distinct address
    simp only [queueBuffer, hshown, Option.map_some]
    refine hcurrent.map (fun x => ?_) (by omega)
    rw [Buffer.giveBack]
    split <;> exact ⟨rfl, rfl, rfl⟩

/-- A buffer is dequeued and queued, then the format and the usage change. -/
def sampleOps : List Op :=
  [.dequeueBuffer, .queueBuffer 0, .setBuffersFormat 2, .setUsage 0x200]

end FbdevWindow
