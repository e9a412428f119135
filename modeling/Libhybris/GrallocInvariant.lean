import Libhybris.Gralloc

/-!
# The invariant of the AHardwareBuffer backend

In every interleaving the shadow count of a map entry is the number of
references it accounts for, and the buffer's own count is at least the number
of all references to it. So a buffer is live while a thread works on it, and
no call is ever made on a destroyed one.
-/
namespace Gralloc

open List Registry Option

/-- The buffer a thread alone is building or destroying. -/
def Pc.owns : Pc → Option Ahb
  | .allocated ahb => some ahb
  | .inserting ahb => some ahb
  | .releasing ahb => some ahb
  | _ => none

/-- The buffer a thread works on under a reference of its own. -/
def Pc.uses : Pc → Option Ahb
  | .retaining ahb => some ahb
  | .acquired ahb => some ahb
  | .accessing ahb => some ahb
  | _ => none

def refsOf (refs : List Ref) (ahb : Ahb) : Nat := refs.countP (fun r => r.ahb = ahb)

def countedOf (refs : List Ref) (ahb : Ahb) : Nat :=
  refs.countP (fun r => r.ahb = ahb ∧ r.counted = true)

def findEntry (s : State) (handle : Handle) : Option Entry :=
  Registry.lookup Entry.handle handle s.map

theorem countedOf_le (refs : List Ref) (ahb : Ahb) : countedOf refs ahb ≤ refsOf refs ahb := by
  refine countP_mono_left fun r _ h => ?_
  simp only [decide_eq_true_eq] at h ⊢
  exact h.1

theorem refsOf_cons (r : Ref) (refs : List Ref) (ahb : Ahb) :
    refsOf (r :: refs) ahb = refsOf refs ahb + if r.ahb = ahb then 1 else 0 := by
  simp [refsOf, countP_cons]

theorem countedOf_cons (r : Ref) (refs : List Ref) (ahb : Ahb) :
    countedOf (r :: refs) ahb =
      countedOf refs ahb + if r.ahb = ahb ∧ r.counted = true then 1 else 0 := by
  simp [countedOf, countP_cons]

variable {refs : List Ref} {a ahb : Ahb} {t : Thread} {s s' : State} {b : Buffer} {pc : Pc}
  {ret : Int} {handle : Handle}

theorem refsOf_erase {r : Ref} (h : r ∈ refs) (ahb : Ahb) :
    refsOf (refs.erase r) ahb + (if r.ahb = ahb then 1 else 0) = refsOf refs ahb := by
  have hp := (perm_cons_erase h).countP_eq (fun r => decide (r.ahb = ahb))
  simp only [countP_cons, decide_eq_true_eq] at hp
  exact hp.symm

theorem countedOf_erase {r : Ref} (h : r ∈ refs) (ahb : Ahb) :
    countedOf (refs.erase r) ahb + (if r.ahb = ahb ∧ r.counted = true then 1 else 0) =
      countedOf refs ahb := by
  have hp := (perm_cons_erase h).countP_eq
    (fun r => decide (r.ahb = ahb ∧ r.counted = true))
  simp only [countP_cons, decide_eq_true_eq] at hp
  exact hp.symm

theorem count_erase_le (refs : List Ref) (r r' : Ref) :
    (refs.erase r).count r' ≤ refs.count r' :=
  erase_sublist.count_le r'

theorem refsOf_eq_zero : refsOf refs ahb = 0 ↔ ∀ r ∈ refs, r.ahb ≠ ahb := by
  simp [refsOf, countP_eq_zero]

/-- Two threads with counted references to one buffer make two references. -/
theorem two_le_countedOf {t' : Thread} (hne : t ≠ t') (h : ⟨t, ahb, true⟩ ∈ refs)
    (h' : ⟨t', ahb, true⟩ ∈ refs) : 2 ≤ countedOf refs ahb := by
  have hmem : (⟨t', ahb, true⟩ : Ref) ∈ refs.erase ⟨t, ahb, true⟩ :=
    (mem_erase_of_ne (by simp [Ne.symm hne])).mpr h'
  have h1 := countedOf_erase h ahb
  have h2 := countedOf_erase hmem ahb
  simp only [and_self, if_true] at h1 h2
  omega

structure Inv (s : State) : Prop where
  ahbs : (s.buffers.map Buffer.ahb).Nodup
  keys : (s.map.map Entry.handle).Nodup
  handles : ∀ a a' b b', findBuffer s a = some b → findBuffer s a' = some b' →
    b.handle = b'.handle → a = a'
  positive : ∀ a b, findBuffer s a = some b → 1 ≤ b.own
  entry : ∀ h e, findEntry s h = some e → 1 ≤ e.refcount ∧ e.refcount = countedOf s.refs e.ahb ∧
    ∃ b, findBuffer s e.ahb = some b ∧ b.handle = h ∧ refsOf s.refs e.ahb ≤ b.own
  alive : ∀ r ∈ s.refs, (findBuffer s r.ahb).isSome
  owns : ∀ t a, (s.pcs t).owns = some a → (∀ r ∈ s.refs, r.ahb ≠ a) ∧
    ∃ b, findBuffer s a = some b ∧ findEntry s b.handle = none
  unique : ∀ t t' a, (s.pcs t).owns = some a → (s.pcs t').owns = some a → t = t'
  uses : ∀ t a, (s.pcs t).uses = some a → ⟨t, a, true⟩ ∈ s.refs ∧
    ∃ b, findBuffer s a = some b ∧ (findEntry s b.handle).isSome
  uncounted : ∀ r ∈ s.refs, r.counted = false → s.pcs r.thread = .acquired r.ahb
  acquired : ∀ t a, s.pcs t = .acquired a → ⟨t, a, false⟩ ∈ s.refs
  single : ∀ t a, s.refs.count ⟨t, a, false⟩ ≤ 1
  untouched : s.touched = false

theorem inv_initial : Inv {} := by
  constructor <;> simp [findBuffer, findEntry, Pc.owns, Pc.uses]

@[simp] theorem pcs_setPc (s : State) (t t' : Thread) (pc : Pc) :
    (setPc s t pc).pcs t' = if t' = t then pc else s.pcs t' := by
  simp [setPc, Function.update_apply]

/-- A call on a live buffer leaves no trace. -/
theorem touch_alive (h : findBuffer s a = some b) : touch s a = s := by
  simp [touch, h]

/-- The buffer the map finds under the handle of a live buffer is that buffer. -/
theorem Inv.entry_ahb (hi : Inv s) {e : Entry} (hb : findBuffer s a = some b)
    (he : findEntry s b.handle = some e) : e.ahb = a := by
  obtain ⟨-, -, b', hb', hh, -⟩ := hi.entry b.handle e he
  exact hi.handles e.ahb a b' b hb' hb hh

theorem usable_some {h : Handle} (hu : usable s t a = some h) :
    ∃ ret b, s.pcs t = .idle ret ∧ ⟨t, a, true⟩ ∈ s.refs ∧ findBuffer s a = some b ∧ b.handle = h := by
  unfold usable at hu
  split at hu
  · rename_i ret hpc
    split at hu
    · rename_i hmem
      obtain ⟨b, hb, hh⟩ := map_eq_some_iff.mp hu
      exact ⟨ret, b, hpc, hmem, hb, hh⟩
    · simp at hu
  · simp at hu

section
variable (hi : Inv s)
include hi

/-- Moving one thread, when nothing else changes: it takes over no buffer it
did not own and works only on buffers it may use. -/
theorem Inv.move (hold : ∀ a, s.pcs t ≠ .acquired a) (hnew : ∀ a, pc ≠ .acquired a)
    (howns : ∀ a, pc.owns = some a → (s.pcs t).owns = some a)
    (huses : ∀ a, pc.uses = some a → ⟨t, a, true⟩ ∈ s.refs ∧
      ∃ b, findBuffer s a = some b ∧ (findEntry s b.handle).isSome) : Inv (setPc s t pc) := by
  have howns' : ∀ u a, ((setPc s t pc).pcs u).owns = some a → (s.pcs u).owns = some a := by
    intro u a h
    rw [pcs_setPc] at h
    split at h
    · rename_i hu
      exact hu ▸ howns a h
    · exact h
  refine ⟨hi.ahbs, hi.keys, hi.handles, hi.positive, hi.entry, hi.alive,
    fun u a h => hi.owns u a (howns' u a h),
    fun u u' a h h' => hi.unique u u' a (howns' u a h) (howns' u' a h'), ?_, ?_, ?_, hi.single,
    hi.untouched⟩
  · intro u a h
    rw [pcs_setPc] at h
    split at h
    · rename_i hu
      exact hu ▸ huses a h
    · exact hi.uses u a h
  · intro r hr hc
    have hacq := hi.uncounted r hr hc
    have hne : r.thread ≠ t := fun he => hold r.ahb (he ▸ hacq)
    rw [pcs_setPc, if_neg hne]
    exact hacq
  · intro u a h
    rw [pcs_setPc] at h
    split at h
    · exact absurd h (hnew a)
    · exact hi.acquired u a h

/-- What remains to be shown of a step that changes buffers, map or references
around one buffer, once its components are known by lookup. -/
structure Next (s s' : State) (t : Thread) (pc : Pc) (buffer : Ahb → Option Buffer)
    (entry : Handle → Option Entry) (refs : List Ref) : Prop where
  ahbs : (s'.buffers.map Buffer.ahb).Nodup
  keys : (s'.map.map Entry.handle).Nodup
  buffer : ∀ a, findBuffer s' a = buffer a
  entry : ∀ h, findEntry s' h = entry h
  refs : s'.refs = refs
  pcs : ∀ u, s'.pcs u = if u = t then pc else s.pcs u
  touched : s'.touched = s.touched

theorem Inv.allocate (hpc : s.pcs t = .idle ret)
    (hfresh : ∀ b ∈ s.buffers, b.ahb ≠ ahb ∧ b.handle ≠ handle) (hn : Next s s' t (.allocated ahb)
      (fun a => if a = ahb then some ⟨ahb, handle, 1⟩ else findBuffer s a) (findEntry s) s.refs) :
    Inv s' := by
  have hnone : findBuffer s ahb = none :=
    (lookup_eq_none Buffer.ahb).mpr fun b hb => (hfresh b hb).1
  have hhandle : ∀ a b, findBuffer s a = some b → b.handle ≠ handle :=
    fun a b hb => (hfresh b (mem_of_lookup Buffer.ahb hb)).2
  have hnoentry : findEntry s handle = none := by
    cases he : findEntry s handle with
    | none => rfl
    | some e =>
      obtain ⟨-, -, b, hb, hh, -⟩ := hi.entry handle e he
      exact absurd hh (hhandle e.ahb b hb)
  cases hi
  cases hn
  constructor <;> grind [Pc.owns, Pc.uses]

/-- The thread that owns a buffer gives up one of its references and owns it
no more. -/
theorem Inv.release_owned (hpc : (s.pcs t).owns = some a) (hb : findBuffer s a = some b)
    (hn : Next s s' t (.idle ret)
      (fun a' => if a' = a then (if b.own - 1 = 0 then none else some b.drop)
        else findBuffer s a') (findEntry s) s.refs) : Inv s' := by
  cases hi
  cases hn
  constructor <;> grind [Pc.owns, Pc.uses, Buffer.drop]

theorem Inv.insert {memory : Bool} (hpc : s.pcs t = .inserting a) (hb : findBuffer s a = some b)
    (hn : Next s s' t (.idle 0) (findBuffer s)
      (fun h => if memory = true ∧ h = b.handle then some ⟨b.handle, a, 1⟩ else findEntry s h)
      (⟨t, a, true⟩ :: s.refs)) : Inv s' := by
  have hown : (s.pcs t).owns = some a := by simp [hpc, Pc.owns]
  have hzero : refsOf s.refs a = 0 := refsOf_eq_zero.mpr (hi.owns t a hown).1
  have hzero' : countedOf s.refs a = 0 := by
    have := countedOf_le s.refs a
    omega
  cases hi
  cases hn
  constructor <;> grind [Pc.owns, Pc.uses, refsOf_cons, countedOf_cons]

/-- A retain that found its buffer takes the reference of the system library. -/
theorem Inv.acquire (hpc : s.pcs t = .retaining a) (hb : findBuffer s a = some b)
    (hn : Next s s' t (.acquired a) (fun a' => if a' = a then some b.gain else findBuffer s a')
      (findEntry s) (⟨t, a, false⟩ :: s.refs)) : Inv s' := by
  have huse : (s.pcs t).uses = some a := by simp [hpc, Pc.uses]
  cases hi
  cases hn
  constructor <;> grind [Pc.owns, Pc.uses, Buffer.gain, refsOf_cons, countedOf_cons]

/-- Changing the count of one entry together with the references to its buffer. -/
theorem Inv.entry_modify (f : Entry → Entry) (hb : findBuffer s a = some b)
    (hf : ∀ e, (f e).ahb = e.ahb) (hother : ∀ a', a' ≠ a → refsOf refs a' = refsOf s.refs a' ∧
      countedOf refs a' = countedOf s.refs a')
    (hat : ∀ e, findEntry s b.handle = some e → 1 ≤ (f e).refcount ∧
      (f e).refcount = countedOf refs a ∧ refsOf refs a ≤ refsOf s.refs a) (h : Handle) (e : Entry)
    (he : (if h = b.handle then (findEntry s b.handle).map f else findEntry s h) = some e) :
    1 ≤ e.refcount ∧ e.refcount = countedOf refs e.ahb ∧
      ∃ b', findBuffer s e.ahb = some b' ∧ b'.handle = h ∧ refsOf refs e.ahb ≤ b'.own := by
  by_cases hh : h = b.handle
  · rw [if_pos hh] at he
    obtain ⟨e₀, he₀, rfl⟩ := map_eq_some_iff.mp he
    have hea : e₀.ahb = a := hi.entry_ahb hb he₀
    obtain ⟨-, -, b', hb', -, hle⟩ := hi.entry b.handle e₀ he₀
    obtain ⟨h1, h2, h3⟩ := hat e₀ he₀
    rw [hea] at hb' hle
    have hbb : b' = b := by simpa [hb] using hb'.symm
    rw [hf, hea]
    exact ⟨h1, h2, b', hb', by rw [hbb, hh], Nat.le_trans h3 hle⟩
  · rw [if_neg hh] at he
    obtain ⟨h1, h2, b', hb', hbh, hle⟩ := hi.entry h e he
    have hea : e.ahb ≠ a := by
      intro hea
      rw [hea, hb] at hb'
      cases hb'
      exact hh hbh.symm
    obtain ⟨hr, hc⟩ := hother e.ahb hea
    exact ⟨h1, by rw [hc]; exact h2, b', hb', hbh, by rw [hr]; exact hle⟩

/-- The map entry accounts for the acquired reference. -/
theorem Inv.incref (hpc : s.pcs t = .acquired a) (hb : findBuffer s a = some b)
    (hn : Next s s' t (.idle 0) (findBuffer s)
      (fun h => if h = b.handle then (findEntry s b.handle).map Entry.gain else findEntry s h)
      (⟨t, a, true⟩ :: s.refs.erase ⟨t, a, false⟩)) : Inv s' := by
  have hmem := hi.acquired t a hpc
  have hgone : (⟨t, a, false⟩ : Ref) ∉ s.refs.erase ⟨t, a, false⟩ := by
    have h1 := hi.single t a
    rw [← count_eq_zero, count_erase_self]
    omega
  have hother : ∀ a', a' ≠ a →
      refsOf (⟨t, a, true⟩ :: s.refs.erase ⟨t, a, false⟩) a' = refsOf s.refs a' ∧
      countedOf (⟨t, a, true⟩ :: s.refs.erase ⟨t, a, false⟩) a' = countedOf s.refs a' := by
    intro a' hne
    have h1 := refsOf_erase hmem a'
    have h2 := countedOf_erase hmem a'
    simp only [hne.symm, false_and, if_false, Nat.add_zero] at h1 h2
    simp [refsOf_cons, countedOf_cons, hne.symm, h1, h2]
  have hat : ∀ e, findEntry s b.handle = some e → 1 ≤ e.gain.refcount ∧
      e.gain.refcount = countedOf (⟨t, a, true⟩ :: s.refs.erase ⟨t, a, false⟩) a ∧
      refsOf (⟨t, a, true⟩ :: s.refs.erase ⟨t, a, false⟩) a ≤ refsOf s.refs a := by
    intro e he
    have hea : e.ahb = a := hi.entry_ahb hb he
    obtain ⟨-, hcount, -⟩ := hi.entry b.handle e he
    have h1 := refsOf_erase hmem a
    have h2 := countedOf_erase hmem a
    simp only [if_true, Bool.false_eq_true, and_false, if_false, Nat.add_zero] at h1 h2
    simp [refsOf_cons, countedOf_cons, Entry.gain, h1, h2, hcount, hea]
  have hentries := fun h e => hi.entry_modify Entry.gain hb (fun _ => rfl) hother hat h e
  have huncounted : ∀ r ∈ s.refs.erase ⟨t, a, false⟩, r.counted = false → r.thread ≠ t := by
    rintro ⟨thread, ahb, counted⟩ hr rfl rfl
    have hacq := hi.uncounted _ (mem_of_mem_erase hr) rfl
    rw [hpc] at hacq
    cases hacq
    exact hgone hr
  cases hi
  cases hn
  constructor <;> grind [Pc.owns, Pc.uses, count_erase_le, mem_of_mem_erase]

section
variable (hpc : s.pcs t = .idle ret) (hmem : ⟨t, a, true⟩ ∈ s.refs)
include hpc hmem

/-- A release that leaves counted references behind, or finds no entry. -/
theorem Inv.release_some {ret' : Int}
    (hb : findBuffer s a = some b) (hmore : ∀ e, findEntry s b.handle = some e → e.refcount - 1 ≠ 0)
    (hn : Next s s' t (.idle ret') (findBuffer s)
      (fun h => if h = b.handle then (findEntry s b.handle).map Entry.drop else findEntry s h)
      (s.refs.erase ⟨t, a, true⟩)) : Inv s' := by
  have hother : ∀ a', a' ≠ a → refsOf (s.refs.erase ⟨t, a, true⟩) a' = refsOf s.refs a' ∧
      countedOf (s.refs.erase ⟨t, a, true⟩) a' = countedOf s.refs a' := by
    intro a' hne
    have h1 := refsOf_erase hmem a'
    have h2 := countedOf_erase hmem a'
    simp only [hne.symm, false_and, if_false, Nat.add_zero] at h1 h2
    exact ⟨h1, h2⟩
  have hat : ∀ e, findEntry s b.handle = some e → 1 ≤ e.drop.refcount ∧
      e.drop.refcount = countedOf (s.refs.erase ⟨t, a, true⟩) a ∧
      refsOf (s.refs.erase ⟨t, a, true⟩) a ≤ refsOf s.refs a := by
    intro e he
    have hea : e.ahb = a := hi.entry_ahb hb he
    obtain ⟨-, hcount, -⟩ := hi.entry b.handle e he
    have hm := hmore e he
    have h1 := refsOf_erase hmem a
    have h2 := countedOf_erase hmem a
    rw [hea] at hcount
    simp only [and_self, if_true] at h1 h2
    simp only [Entry.drop]
    omega
  have hentries := fun h e => hi.entry_modify Entry.drop hb (fun _ => rfl) hother hat h e
  cases hi
  cases hn
  constructor <;> grind [Pc.owns, Pc.uses, count_erase_le, mem_of_mem_erase]

/-- The release that takes the entry: no other thread has a reference left. -/
theorem Inv.release_last {e : Entry}
    (hb : findBuffer s a = some b) (he : findEntry s b.handle = some e) (hlast : e.refcount - 1 = 0)
    (hn : Next s s' t (.releasing a) (findBuffer s)
      (fun h => if h = b.handle then none else findEntry s h)
      (s.refs.erase ⟨t, a, true⟩)) : Inv s' := by
  have hea : e.ahb = a := hi.entry_ahb hb he
  obtain ⟨hone, hcount, -⟩ := hi.entry b.handle e he
  rw [hea] at hcount
  have hcountedOf := countedOf_erase hmem a
  simp only [and_self, if_true] at hcountedOf
  have hnouser : ∀ u, (s.pcs u).uses ≠ some a := by
    intro u hu
    obtain ⟨htoken, -⟩ := hi.uses u a hu
    have hut : t ≠ u := by
      rintro rfl
      simp [hpc, Pc.uses] at hu
    have := two_le_countedOf hut hmem htoken
    omega
  have hnone : ∀ r ∈ s.refs.erase ⟨t, a, true⟩, r.ahb ≠ a := by
    intro r hr hra
    cases hc : r.counted with
    | false =>
      have hacq := hi.uncounted r (mem_of_mem_erase hr) hc
      exact hnouser r.thread (by simp [hacq, Pc.uses, hra])
    | true =>
      have hpos : 0 < countedOf (s.refs.erase ⟨t, a, true⟩) a :=
        countP_pos_iff.mpr ⟨r, hr, by simp [hra, hc]⟩
      omega
  have hrefsOf := fun a' => refsOf_erase hmem a'
  have hcountedOf' := fun a' => countedOf_erase hmem a'
  cases hi
  cases hn
  constructor <;> grind [Pc.owns, Pc.uses, count_erase_le, mem_of_mem_erase]

theorem Inv.pass {t' : Thread} :
    Inv { s with refs := ⟨t', a, true⟩ :: s.refs.erase ⟨t, a, true⟩ } := by
  have hsub : ∀ r ∈ s.refs.erase ⟨t, a, true⟩, r ∈ s.refs := fun r hr => mem_of_mem_erase hr
  have hkeep : ∀ r ∈ s.refs, r ≠ ⟨t, a, true⟩ → r ∈ s.refs.erase ⟨t, a, true⟩ :=
    fun r hr hne => (mem_erase_of_ne hne).mpr hr
  have hrefsOf : ∀ a', refsOf (⟨t', a, true⟩ :: s.refs.erase ⟨t, a, true⟩) a' =
      refsOf s.refs a' := by
    intro a'
    rw [refsOf_cons, ← refsOf_erase hmem a']
  have hcountedOf : ∀ a', countedOf (⟨t', a, true⟩ :: s.refs.erase ⟨t, a, true⟩) a' =
      countedOf s.refs a' := by
    intro a'
    rw [countedOf_cons, ← countedOf_erase hmem a']
  refine ⟨hi.ahbs, hi.keys, hi.handles, hi.positive, ?_, ?_, ?_, hi.unique, ?_, ?_, ?_, ?_,
    hi.untouched⟩
  · intro h e he
    simp only [hrefsOf, hcountedOf]
    exact hi.entry h e he
  · intro r hr
    rcases mem_cons.mp hr with rfl | hr
    · exact hi.alive ⟨t, a, true⟩ hmem
    · exact hi.alive r (hsub r hr)
  · intro u a' hu
    obtain ⟨hnorefs, hrest⟩ := hi.owns u a' hu
    refine ⟨fun r hr => ?_, hrest⟩
    rcases mem_cons.mp hr with rfl | hr
    · exact hnorefs ⟨t, a, true⟩ hmem
    · exact hnorefs r (hsub r hr)
  · intro u a' hu
    obtain ⟨htoken, hrest⟩ := hi.uses u a' hu
    refine ⟨mem_cons_of_mem _ (hkeep _ htoken ?_), hrest⟩
    intro he
    cases he
    simp [hpc, Pc.uses] at hu
  · intro r hr hc
    rcases mem_cons.mp hr with rfl | hr
    · simp at hc
    · exact hi.uncounted r (hsub r hr) hc
  · intro u a' hu
    exact mem_cons_of_mem _ (hkeep _ (hi.acquired u a' hu) (by simp))
  · intro u a'
    have := hi.single u a'
    grind

end

theorem next_allocate (hfresh : ∀ b ∈ s.buffers, b.ahb ≠ ahb ∧ b.handle ≠ handle) :
    Next s (setPc { s with buffers := ⟨ahb, handle, 1⟩ :: s.buffers } t (.allocated ahb)) t
      (.allocated ahb) (fun a => if a = ahb then some ⟨ahb, handle, 1⟩ else findBuffer s a)
      (findEntry s) s.refs := by
  refine ⟨?_, hi.keys, fun a => ?_, fun _ => rfl, rfl, fun u => pcs_setPc _ t u _, rfl⟩
  · simp only [setPc, map_cons, nodup_cons]
    refine ⟨fun hm => ?_, hi.ahbs⟩
    obtain ⟨b, hb, he⟩ := mem_map.mp hm
    exact (hfresh b hb).1 he
  · simp only [findBuffer, setPc, Registry.lookup_cons, eq_comm]

theorem next_release (ret : Int) (hb : findBuffer s a = some b) :
    Next s (setPc (releaseBuffer s a) t (.idle ret)) t (.idle ret)
      (fun a' => if a' = a then (if b.own - 1 = 0 then none else some b.drop)
        else findBuffer s a') (findEntry s) s.refs := by
  have hb' : Registry.lookup Buffer.ahb a s.buffers = some b := hb
  unfold releaseBuffer
  rw [hb]
  by_cases h : b.own - 1 = 0
  · simp only [h, if_true]
    exact ⟨nodup_remove Buffer.ahb hi.ahbs, hi.keys,
      fun a' => lookup_remove Buffer.ahb hi.ahbs, fun _ => rfl, rfl,
      fun u => pcs_setPc _ t u _, rfl⟩
  · simp only [h, if_false]
    refine ⟨?_, hi.keys, fun a' => ?_, fun _ => rfl, rfl, fun u => pcs_setPc _ t u _, rfl⟩
    · simp only [setPc]
      rw [map_modify Buffer.ahb a (f := Buffer.drop) fun _ => rfl]
      exact hi.ahbs
    · have hm := lookup_modify Buffer.ahb a a' Buffer.drop (fun _ h => h) s.buffers
      rw [hb'] at hm
      exact hm

theorem next_insert (memory : Bool) (hnone : findEntry s b.handle = none) :
    Next s (setPc { s with map := mapInsert s.map b.handle a memory,
                           refs := ⟨t, a, true⟩ :: s.refs } t (.idle 0)) t (.idle 0) (findBuffer s)
      (fun h => if memory = true ∧ h = b.handle then some ⟨b.handle, a, 1⟩ else findEntry s h)
      (⟨t, a, true⟩ :: s.refs) := by
  refine ⟨hi.ahbs, ?_, fun _ => rfl, fun h => ?_, rfl, fun u => pcs_setPc _ t u _, rfl⟩
  · cases memory with
    | false => exact hi.keys
    | true =>
      simp only [setPc, mapInsert, if_true, map_cons, nodup_cons]
      refine ⟨fun hm => ?_, hi.keys⟩
      obtain ⟨e, he, heq⟩ := mem_map.mp hm
      exact (lookup_eq_none Entry.handle).mp hnone e he heq
  · cases memory with
    | false => simp [findEntry, setPc, mapInsert]
    | true => simp [findEntry, setPc, mapInsert, Registry.lookup_cons, eq_comm]

theorem next_acquire (hb : findBuffer s a = some b) :
    Next s (setPc { acquireBuffer s a with refs := ⟨t, a, false⟩ :: (acquireBuffer s a).refs } t
        (.acquired a)) t (.acquired a)
      (fun a' => if a' = a then some b.gain else findBuffer s a') (findEntry s)
      (⟨t, a, false⟩ :: s.refs) := by
  have hb' : Registry.lookup Buffer.ahb a s.buffers = some b := hb
  simp only [acquireBuffer, touch_alive hb]
  refine ⟨?_, hi.keys, fun a' => ?_, fun _ => rfl, rfl, fun u => pcs_setPc _ t u _, rfl⟩
  · simp only [setPc]
    rw [map_modify Buffer.ahb a (f := Buffer.gain) fun _ => rfl]
    exact hi.ahbs
  · have hm := lookup_modify Buffer.ahb a a' Buffer.gain (fun _ h => h) s.buffers
    rw [hb'] at hm
    exact hm

/-- A change of one entry's count. -/
theorem next_modify (f : Entry → Entry) (hf : ∀ e, (f e).handle = e.handle) :
    Next s (setPc { s with map := Registry.modify Entry.handle handle f s.map, refs } t pc) t pc
      (findBuffer s)
      (fun h => if h = handle then (findEntry s handle).map f else findEntry s h) refs := by
  refine ⟨hi.ahbs, ?_, fun _ => rfl, fun h => ?_, rfl, fun u => pcs_setPc _ t u _, rfl⟩
  · simp only [setPc]
    rw [map_modify Entry.handle handle hf]
    exact hi.keys
  · exact lookup_modify Entry.handle handle h f (fun e he => (hf e).trans he) s.map

theorem next_remove :
    Next s (setPc { s with map := Registry.remove Entry.handle handle s.map, refs } t pc) t pc
      (findBuffer s) (fun h => if h = handle then none else findEntry s h) refs :=
  ⟨hi.ahbs, nodup_remove Entry.handle hi.keys, fun _ => rfl,
    fun _ => lookup_remove Entry.handle hi.keys, rfl, fun u => pcs_setPc _ t u _, rfl⟩

/-- A handle without an entry: only the reference goes. -/
theorem next_missing (he : findEntry s handle = none) :
    Next s (setPc { s with refs } t pc) t pc (findBuffer s)
      (fun h => if h = handle then (findEntry s handle).map Entry.drop else findEntry s h)
      refs := by
  refine ⟨hi.ahbs, hi.keys, fun _ => rfl, fun h => ?_, rfl, fun u => pcs_setPc _ t u _, rfl⟩
  by_cases hh : h = handle
  · rw [if_pos hh, he, hh]
    exact he
  · rw [if_neg hh]
    rfl

/-- A lookup of `lock`, `unlock` or `retain` under the handle of a live buffer
either fails or finds that buffer, which the thread may then work on. -/
theorem Inv.lookup {h : Handle} {pc : Ahb → Pc} (hu : usable s t a = some h)
    (huses : ∀ a, (pc a).uses = some a) (howns : ∀ a, (pc a).owns = none)
    (hpc : ∀ a a', pc a ≠ .acquired a') :
    Inv (match mapFind s.map h with
      | some found => setPc s t (pc found)
      | none => setPc s t (.idle (-einval))) := by
  obtain ⟨ret, b, hidle, hmem, hb, rfl⟩ := usable_some hu
  have hold : ∀ a', s.pcs t ≠ .acquired a' := by simp [hidle]
  cases hm : mapFind s.map b.handle with
  | none => exact hi.move hold (by simp) (by simp [Pc.owns]) (by simp [Pc.uses])
  | some found =>
    obtain ⟨e, he, rfl⟩ := map_eq_some_iff.mp hm
    have he' : findEntry s b.handle = some e := he
    have hea : e.ahb = a := hi.entry_ahb hb he'
    refine hi.move hold (hpc e.ahb) (by simp [howns]) fun a' ha' => ?_
    have haa : e.ahb = a' := by simpa [huses] using ha'
    rw [← haa, hea]
    exact ⟨hmem, b, hb, by simp [he']⟩

end

end Gralloc
