import Libhybris.WaylandWindowSafety

/-!
# The size `setBufferCount` leaves

The loop that removes buffers compares its counter with a length that it shortens itself, so it
removes half of the surplus and one buffer more. That is the surplus only if it is at most two. A
buffer whose creation callback was not handled is waited for, and the events of the wait change
other buffers.
-/
namespace WaylandWindow

open RefCount List

variable {s t : State} {b : Nat} {cnt : Int}

/-- Distinct buffers that exist. -/
structure State.Pooled (s : State) : Prop where
  distinct : s.bufList.Nodup
  alive : ∀ x ∈ s.bufList, s.alive x = true
  born : ∀ x ∈ s.bufList, x < s.nextBuffer

/-- None of the first buffers of the pool waits for its creation. -/
def State.Acknowledged (s : State) (n : Nat) : Prop :=
  ∀ x ∈ s.bufList.take n, s.creating x = false ∨ s.broken = true

theorem drop_buffers_of_ne (counted : Bool) {x : Nat} (hx : x ≠ b) :
    (drop s b counted).buffers x = s.buffers x := by
  simp [drop, release, RefCount.modify, hx]

theorem toRemove_succ {length : Nat} {i : Int} (h : i ≤ length + 1 - cnt) :
    toRemove (length + 1) cnt i = toRemove length cnt (i + 1) + 1 := by
  simp only [toRemove]
  omega

/-- The pool without its first buffer has what the loop needs. -/
theorem State.Pooled.dropFirst {rest : List Nat} (h : s.Pooled) (hl : s.bufList = b :: rest) :
    State.Pooled { drop s b true with bufList := rest } ∧
      ∀ x ∈ rest, (drop s b true).buffers x = s.buffers x := by
  have hdistinct := hl ▸ h.distinct
  have hothers : ∀ x ∈ rest, (drop s b true).buffers x = s.buffers x := fun x hx =>
    drop_buffers_of_ne true (ne_of_mem_of_not_mem hx (nodup_cons.mp hdistinct).1)
  have hmem : ∀ x ∈ rest, x ∈ s.bufList := fun x hx => hl ▸ mem_cons_of_mem b hx
  refine ⟨⟨(nodup_cons.mp hdistinct).2, fun x hx => ?_, fun x hx => h.born x (hmem x hx)⟩, hothers⟩
  have halive := h.alive x (hmem x hx)
  rw [State.alive] at halive ⊢
  exact (congrArg Option.isSome (hothers x hx)).trans halive

/-- Without a wait the loop removes the first buffers of the pool, each with one reference, and
leaves every other buffer as it is. -/
theorem shrink_spec (fuel : Nat) {i : Int} (hfuel : toRemove s.bufList.length cnt i ≤ fuel)
    (hpool : s.Pooled) (hle : toRemove s.bufList.length cnt i ≤ s.bufList.length)
    (hack : s.Acknowledged (toRemove s.bufList.length cnt i)) :
    ∃ t, shrink cnt fuel i s = .ok t ∧
      t.bufList = s.bufList.drop (toRemove s.bufList.length cnt i) ∧
      (∀ x, t.drops.count x =
        s.drops.count x + (s.bufList.take (toRemove s.bufList.length cnt i)).count x) ∧
      ∀ x, x ∉ s.bufList.take (toRemove s.bufList.length cnt i) → t.buffers x = s.buffers x := by
  induction fuel generalizing s i with
  | zero => exact ⟨s, rfl, by simp [Nat.le_zero.mp hfuel]⟩
  | succ fuel ih =>
    simp only [shrink]
    split
    case isFalse hi =>
      have hzero : toRemove s.bufList.length cnt i = 0 := by
        simp only [toRemove]
        omega
      exact ⟨s, rfl, by simp [hzero]⟩
    case isTrue hi =>
      cases hl : s.bufList with
      | nil =>
        rw [hl] at hle hi
        simp only [toRemove, length_nil] at hle hi
        omega
      | cons b rest =>
        obtain ⟨hrest, hothers⟩ := hpool.dropFirst hl
        have hhead : b ∈ s.bufList := hl ▸ mem_cons_self
        rw [State.Acknowledged, hl] at hack
        rw [hl] at hle hi hfuel
        simp only [length_cons] at hle hi hfuel hack ⊢
        rw [toRemove_succ (by exact_mod_cast hi)] at hle hfuel hack ⊢
        rw [take_succ_cons] at hack ⊢
        simp only [destroyBuffer_eq (hpool.alive b hhead) (hack b mem_cons_self)]
        rw [show (drop s b true).bufList.tail = rest by simp [drop, hl]]
        obtain ⟨t, ht, hlist, hdrops, hkept⟩ := ih (s := { drop s b true with bufList := rest })
          (Nat.le_of_succ_le_succ hfuel) hrest (Nat.le_of_succ_le_succ hle) fun x hx => by
            have hx' := hack x (mem_cons_of_mem b hx)
            rw [State.creating] at hx' ⊢
            rwa [hothers x (mem_of_mem_take hx)]
        refine ⟨t, ht, hlist, fun x => ?_, fun x hx => ?_⟩
        · have hrounds : t.drops.count x = (b :: s.drops).count x +
              (rest.take (toRemove rest.length cnt (i + 1))).count x := hdrops x
          rw [hrounds, count_cons, count_cons]
          omega
        · rw [mem_cons, not_or] at hx
          exact (hkept x hx.2).trans (drop_buffers_of_ne true hx.1)

theorem addBuffers_spec (n : Nat) (hborn : ∀ x ∈ s.bufList, x < s.nextBuffer) :
    (∃ new, (addBuffers n s).bufList = s.bufList ++ new ∧ new.length = n) ∧
      (addBuffers n s).drops = s.drops ∧
      ∀ x < s.nextBuffer, (addBuffers n s).buffers x = s.buffers x := by
  induction n generalizing s with
  | zero => exact ⟨⟨[], by simp [addBuffers], rfl⟩, rfl, fun _ _ => rfl⟩
  | succ n ih =>
    obtain ⟨⟨new, hlist, hlen⟩, hdrops, hold⟩ := ih (s := addBuffer s) fun x hx => by
      rcases mem_append.mp hx with hx | hx
      · exact Nat.lt_succ_of_lt (hborn x hx)
      · rw [mem_singleton.mp hx]
        exact Nat.lt_succ_self _
    refine ⟨⟨s.nextBuffer :: new, ?_, by simp [hlen]⟩, hdrops, fun x hx => ?_⟩
    · rw [addBuffers, hlist]
      simp [addBuffer]
    · rw [addBuffers, hold x (Nat.lt_succ_of_lt hx)]
      simp [addBuffer, create, Nat.ne_of_lt hx]

/-- The pool has the requested size. A smaller pool has the last buffers; the others were destroyed
once, and nothing else has changed. A larger pool has new buffers at its end. -/
structure Resized (s : State) (cnt : Nat) (t : State) : Prop where
  count : t.bufList.length = cnt
  survivors : cnt ≤ s.bufList.length → t.bufList = s.bufList.drop (s.bufList.length - cnt)
  destroyed : cnt ≤ s.bufList.length → ∀ x,
    t.drops.count x = s.drops.count x + (s.bufList.take (s.bufList.length - cnt)).count x
  untouched : cnt ≤ s.bufList.length →
    ∀ x, x ∉ s.bufList.take (s.bufList.length - cnt) → t.buffers x = s.buffers x
  grown : s.bufList.length ≤ cnt → t.drops = s.drops ∧ (∃ new, t.bufList = s.bufList ++ new) ∧
    ∀ x ∈ s.bufList, t.buffers x = s.buffers x

/-- Buffer 2 is shown, then buffer 0, whose creation is not acknowledged yet. -/
def sampleWait : List Action :=
  [.dequeue, .dequeue, .dequeue, .queue 2 true, .arrive (.created 2), .arrive (.frame 1),
    .queue 0 true, .foresee [[.created 0, .release 0]]]

end WaylandWindow
