import Libhybris.Readback

/-!
# The references of submission records

A record is in the registry, in the work list of the thread that detached it, or nowhere; its
submitter has a reference of its own until the driver has answered. A submitter whose submission was
rejected may find its record in the registry and takes the registry's reference too. Everything else
follows by counting, in any interleaving and whatever the driver answers.
-/
namespace Readback

open MemoryVisibility RefCount List Option

/-- The records of a work list. -/
def Pc.listed : Pc → List Nat
  | .work _ rs => rs
  | .ranges _ r _ rs => r :: rs
  | .invalidate _ r _ _ rs => r :: rs
  | .failed _ r rs => r :: rs
  | .release _ r rs => r :: rs
  | .releaseRecords _ rs => rs
  | _ => []

/-- The references of a submitter. -/
def Pc.dropped : Pc → List Nat
  | .submit sub => [sub.id]
  | .reject sub => [sub.id]
  | .drop sub count => List.replicate count sub.id
  | _ => []

/-- The record of a submitter that has not returned. -/
def Pc.submitter : Pc → List Nat
  | .submit sub => [sub.id]
  | .reject sub => [sub.id]
  | .drop sub _ => [sub.id]
  | _ => []

/-- The record that a rejected submission was unlinked from the registry for, before that reference
is dropped. -/
def Pc.unlinked : Pc → List Nat
  | .drop sub 2 => [sub.id]
  | _ => []

def State.listed (s : State) : List Nat := s.registry ++ s.threads.flatMap Pc.listed

def State.owners (s : State) : List Nat := s.listed ++ s.threads.flatMap Pc.dropped

def State.submitters (s : State) : List Nat := s.threads.flatMap Pc.submitter

variable {f : Pc → List Nat} {l : List Pc} {r t : Nat} {pc pc' : Pc} {s s' : State}

/-- A list of lists after a change at one place. -/
theorem count_flatMap_set (pc' : Pc) (h : l[t]? = some pc) (x : Nat) :
    ((l.set t pc').flatMap f).count x + (f pc).count x = (l.flatMap f).count x + (f pc').count x := by
  induction l generalizing t with
  | nil => simp at h
  | cons a l ih =>
    cases t with
    | zero =>
      simp only [getElem?_cons_zero, Option.some.injEq] at h
      subst h
      simp only [set_cons_zero, flatMap_cons, count_append]
      omega
    | succ t =>
      have hrest := ih h
      simp only [set_cons_succ, flatMap_cons, count_append]
      omega

structure Inv (s : State) : Prop where
  faultless : s.fault = false
  balanced : Balanced s.heap s.owners
  once : ∀ x, s.listed.count x ≤ 1
  twice : ∀ x, s.owners.count x ≤ 2
  submitters : ∀ x, s.submitters.count x ≤ 1
  dropping : ∀ sub, .drop sub 0 ∉ s.threads
  fresh : ∀ x, s.nextRecord ≤ x → s.owners.count x = 0
  kept : ∀ r ∈ s.registry, ∀ v, s.record r = some v → v.cancelled = false

theorem Inv.alive (h : Inv s) (hr : r ∈ s.owners) : s.alive r = true :=
  h.balanced.values_isSome.mpr hr

theorem mem_owners_registry (hr : r ∈ s.registry) : r ∈ s.owners :=
  mem_append_left _ (mem_append_left _ hr)

theorem mem_owners_thread (ht : s.threads[t]? = some pc) (hr : r ∈ pc.listed ∨ r ∈ pc.dropped) :
    r ∈ s.owners := by
  have hpc := mem_of_getElem? ht
  rcases hr with hr | hr
  · exact mem_append_left _ (mem_append_right _ (mem_flatMap.mpr ⟨pc, hpc, hr⟩))
  · exact mem_append_right _ (mem_flatMap.mpr ⟨pc, hpc, hr⟩)

theorem access_eq {rs : List Nat} (next : State) (h : ∀ r ∈ rs, s.alive r = true) :
    s.access rs next = next := if_pos (all_eq_true.mpr h)

/-- What the invariant is about. -/
def State.core (s : State) : List Pc × Nat × Bool × Heap Nat Record × List Nat :=
  (s.threads, s.nextRecord, s.fault, s.heap, s.registry)

/-- Steps that change something else. -/
theorem Inv.other (h : Inv s) (hcore : s'.core = s.core) : Inv s' := by
  cases s
  cases s'
  simp only [State.core, Prod.mk.injEq] at hcore
  obtain ⟨rfl, rfl, rfl, rfl, rfl⟩ := hcore
  exact ⟨h.faultless, h.balanced, h.once, h.twice, h.submitters, h.dropping, h.fresh, h.kept⟩

/-! ## Changes of the records -/

theorem balanced_modifyAll (f : Record → Record) (rs : List Nat) {heap : Heap Nat Record}
    {owners : List Nat} (hb : Balanced heap owners) : Balanced (modifyAll heap f rs) owners := by
  induction rs generalizing heap with
  | nil => exact hb
  | cons r rs ih => exact ih (hb.modify r f)

theorem values_modifyAll {f : Record → Record} (hf : ∀ v, f (f v) = f v) (rs : List Nat)
    (heap : Heap Nat Record) (x : Nat) :
    values (modifyAll heap f rs) x = if x ∈ rs then (values heap x).map f else values heap x := by
  induction rs generalizing heap with
  | nil => rfl
  | cons r rs ih =>
    refine (ih (modify heap r f)).trans ?_
    by_cases hx : x = r
    · subst hx
      rw [values_modify, if_pos rfl, Option.map_map, if_pos mem_cons_self]
      split
      · congr 1
        funext v
        exact hf v
      · rfl
    · rw [values_modify]
      simp [hx]

/-- A change of all records that keeps them in the registry. -/
theorem kept_modifyAll (h : Inv s) {f : Record → Record} (hf : ∀ v, f (f v) = f v)
    (hcancelled : ∀ v, (f v).cancelled = v.cancelled) (rs : List Nat) (hr : r ∈ s.registry) {v : Record}
    (hv : values (modifyAll s.heap f rs) r = some v) : v.cancelled = false := by
  rw [values_modifyAll hf] at hv
  split at hv
  · obtain ⟨v₀, hv₀, rfl⟩ := map_eq_some_iff.mp hv
    rw [hcancelled]
    exact h.kept r hr v₀ hv₀
  · exact h.kept r hr v hv

theorem count_partition (l : List Nat) (p : Nat → Bool) (x : Nat) :
    (l.filter p).reverse.count x + (l.filter fun r => !p r).count x = l.count x := by
  rw [count_reverse, ← count_append]
  exact (filter_append_perm p l).count_eq x

/-- The thread has the same references. -/
def Pc.Alike (pc pc' : Pc) : Prop :=
  (pc'.listed, pc'.dropped, pc'.submitter) = (pc.listed, pc.dropped, pc.submitter) ∧
    ∀ sub, pc' ≠ .drop sub 0

section
variable {heap : Heap Nat Record} {registry : List Nat} (h : Inv s) (ht : s.threads[t]? = some pc)
include h ht

/-- One thread goes on; `freed` are the references it drops. -/
theorem Inv.update (freed : List Nat)
    (hlists : ∀ x, registry.count x + pc'.listed.count x ≤ s.registry.count x + pc.listed.count x)
    (htotal : ∀ x, s.registry.count x + pc.listed.count x + pc.dropped.count x =
      freed.count x + (registry.count x + pc'.listed.count x + pc'.dropped.count x))
    (hsubmitters : ∀ x, pc'.submitter.count x ≤ pc.submitter.count x) (hpc' : ∀ sub, pc' ≠ .drop sub 0)
    (hheap : ∀ owners, Balanced s.heap (freed ++ owners) → Balanced heap owners)
    (hkept : ∀ r ∈ registry, ∀ v, values heap r = some v → v.cancelled = false) :
    Inv { s.goto t pc' with heap := heap, registry := registry } := by
  have hlisted := count_flatMap_set (f := Pc.listed) pc' ht
  have hdropped := count_flatMap_set (f := Pc.dropped) pc' ht
  have hsubmitter := count_flatMap_set (f := Pc.submitter) pc' ht
  have howners : ∀ x, s.owners.count x = freed.count x +
      (State.owners { s.goto t pc' with heap := heap, registry := registry }).count x := by
    intro x
    have h1 := hlisted x
    have h2 := hdropped x
    have h3 := htotal x
    simp only [State.owners, State.listed, State.goto, count_append]
    omega
  refine ⟨h.faultless, hheap _ ?_, fun x => ?_, fun x => ?_, fun x => ?_, fun sub hm => ?_,
    fun x hx => ?_, hkept⟩
  · refine h.balanced.perm (perm_iff_count.mpr fun x => ?_)
    rw [howners x, count_append]
  · have h0 := h.once x
    have h1 := hlisted x
    have h2 := hlists x
    simp only [State.listed, State.goto, count_append] at h0 ⊢
    omega
  · have h0 := h.twice x
    have h1 := howners x
    omega
  · have h0 := h.submitters x
    have h1 := hsubmitter x
    have h2 := hsubmitters x
    simp only [State.submitters, State.goto] at h0 ⊢
    omega
  · rcases mem_or_eq_of_mem_set hm with hm | hm
    · exact h.dropping sub hm
    · exact hpc' sub hm.symm
  · have h0 := h.fresh x hx
    have h1 := howners x
    omega

/-- A thread goes on with its references. -/
theorem Inv.keep (halike : pc.Alike pc') (hheap : ∀ owners, Balanced s.heap owners → Balanced heap owners)
    (hkept : ∀ r ∈ s.registry, ∀ v, values heap r = some v → v.cancelled = false) :
    Inv { s.goto t pc' with heap := heap } := by
  simp only [Pc.Alike, Prod.mk.injEq] at halike
  obtain ⟨⟨hlisted, hdropped, hsubmitter⟩, hpc'⟩ := halike
  refine h.update ht [] (fun x => ?_) (fun x => ?_) (fun x => ?_) hpc' hheap hkept
  · exact Nat.le_of_eq (congrArg (s.registry.count x + count x ·) hlisted)
  · simp [hlisted, hdropped, State.goto]
  · exact Nat.le_of_eq (by rw [hsubmitter])

theorem Inv.goto (pc' : Pc) (halike : pc.Alike pc') : Inv (s.goto t pc') :=
  h.keep ht halike (fun _ hb => hb) h.kept

theorem Inv.forget (pc' : Pc) (halike : pc.Alike pc') (device : Device) (fences : List Nat) :
    Inv ((forgetFences s device fences).goto t pc') :=
  h.keep ht halike (fun _ hb => balanced_modifyAll _ _ hb) fun _ hr _ hv =>
    kept_modifyAll h (f := Record.forgetFence) (fun _ => rfl) (fun _ => rfl) _ hr hv

/-- Detached records move to the thread's list. -/
theorem Inv.detach (pc' : Pc) (device : Device) (selector : Selector) (hlisted : pc.listed = [])
    (hlisted' : pc'.listed = (detachCompleted s device selector).1) (hdropped : pc'.dropped = pc.dropped)
    (hsubmitter : pc'.submitter = pc.submitter) (hpc' : ∀ sub, pc' ≠ .drop sub 0) :
    Inv ((detachCompleted s device selector).2.goto t pc') := by
  have hcount : ∀ x, (detachCompleted s device selector).2.registry.count x + pc'.listed.count x =
      s.registry.count x := by
    intro x
    rw [hlisted', Nat.add_comm]
    exact count_partition s.registry _ x
  refine h.update ht [] (fun x => ?_) (fun x => ?_) (fun x => ?_) hpc'
    (fun _ hb => balanced_modifyAll _ _ hb) fun r hr v hv => ?_
  · exact Nat.le_of_eq ((hcount x).trans (by rw [hlisted, count_nil, Nat.add_zero]))
  · rw [hcount, hlisted, hdropped, count_nil, Nat.add_zero, Nat.zero_add]
  · exact Nat.le_of_eq (by rw [hsubmitter])
  · exact kept_modifyAll h (f := Record.markReady) (fun _ => rfl) (fun _ => rfl) _ (mem_of_mem_filter hr) hv

/-- A thread drops a reference. -/
theorem Inv.releases (r : Nat) (hlists : ∀ x, pc'.listed.count x ≤ pc.listed.count x)
    (htotal : ∀ x, pc.listed.count x + pc.dropped.count x =
      [r].count x + (pc'.listed.count x + pc'.dropped.count x))
    (hsubmitters : ∀ x, pc'.submitter.count x ≤ pc.submitter.count x) (hpc' : ∀ sub, pc' ≠ .drop sub 0) :
    Inv { s.goto t pc' with heap := RefCount.release s.heap r } := by
  refine h.update ht [r] (fun x => Nat.add_le_add_left (hlists x) _) (fun x => ?_) hsubmitters hpc'
    (fun _ hb => hb.release) fun r hr v hv => h.kept r hr v (values_release_some hv)
  have := htotal x
  simp only [State.goto]
  omega

/-- A thread gives up a record of its list. -/
theorem Inv.unlist {r : Nat} (hlisted : pc.listed = r :: pc'.listed) (hdropped : pc'.dropped = pc.dropped)
    (hsubmitter : pc'.submitter = pc.submitter) (hpc' : ∀ sub, pc' ≠ .drop sub 0) :
    Inv { s.goto t pc' with heap := RefCount.release s.heap r } := by
  refine h.releases ht r (fun x => ?_) (fun x => ?_) (fun x => ?_) hpc'
  · rw [hlisted]
    exact count_le_count_cons
  · simp only [hlisted, hdropped, count_cons, count_nil]
    omega
  · exact Nat.le_of_eq (by rw [hsubmitter])

end

theorem count_le_flatMap (h : pc ∈ l) (x : Nat) : (f pc).count x ≤ (l.flatMap f).count x := by
  obtain ⟨before, after, rfl⟩ := append_of_mem h
  rw [flatMap_append, flatMap_cons, count_append, count_append]
  omega

theorem count_flatMap_add {g k : Pc → List Nat} {x : Nat}
    (h : ∀ pc ∈ l, (f pc).count x = (g pc).count x + (k pc).count x) :
    (l.flatMap f).count x = (l.flatMap g).count x + (l.flatMap k).count x := by
  induction l with
  | nil => rfl
  | cons pc l ih =>
    have hhead := h pc mem_cons_self
    have hrest := ih fun pc hpc => h pc (mem_cons_of_mem _ hpc)
    simp only [flatMap_cons, count_append]
    omega

/-- A submitter has its own reference, and the registry's if it has unlinked the record. -/
theorem Inv.dropped_eq (h : Inv s) (r : Nat) :
    (s.threads.flatMap Pc.dropped).count r =
      s.submitters.count r + (s.threads.flatMap Pc.unlinked).count r := by
  refine count_flatMap_add fun pc hpc => ?_
  cases pc with
  | drop sub k =>
    have hk : k ≠ 0 := fun h0 => h.dropping sub (h0 ▸ hpc)
    have hcount := count_le_flatMap (f := Pc.dropped) hpc sub.id
    have htwice := h.twice sub.id
    rw [State.owners, count_append] at htwice
    simp only [Pc.dropped, count_replicate_self] at hcount
    have hcases : k = 1 ∨ k = 2 := by omega
    rcases hcases with rfl | rfl
    · simp [Pc.dropped, Pc.submitter, Pc.unlinked]
    · simp only [Pc.dropped, Pc.submitter, Pc.unlinked, count_replicate, count_singleton]
      split <;> rfl
  | _ => rfl

/-! ## Steps -/

theorem Inv.publish (h : Inv s) {device : Device} {queue : Nat} {fence : Option Nat}
    {writes wanted : List Write} {sub : Submission}
    (ht : s.threads[t]? = some (.publish device queue fence writes wanted)) (hid : sub.id = s.nextRecord)
    (hthreads : s'.threads = s.threads.set t (.submit sub)) (hnext : s'.nextRecord = s.nextRecord + 1)
    (hfault : s'.fault = s.fault) {v : Record} (hv : v.cancelled = false)
    (hheap : s'.heap = retain (create s.heap s.nextRecord v) s.nextRecord)
    (hregistry : s'.registry = s.nextRecord :: s.registry) : Inv s' := by
  have hlisted := count_flatMap_set (f := Pc.listed) (.submit sub) ht
  have hdropped := count_flatMap_set (f := Pc.dropped) (.submit sub) ht
  have hsubmitter := count_flatMap_set (f := Pc.submitter) (.submit sub) ht
  simp only [Pc.listed, Pc.dropped, Pc.submitter, hid, count_nil, Nat.add_zero, count_cons]
    at hlisted hdropped hsubmitter
  have hnew : ∀ x, s'.listed.count x = s.listed.count x + if s.nextRecord == x then 1 else 0 := by
    intro x
    have h1 := hlisted x
    simp only [State.listed, count_append, hthreads, hregistry, count_cons]
    omega
  have howners : ∀ x, s'.owners.count x = s.owners.count x + 2 * if s.nextRecord == x then 1 else 0 := by
    intro x
    have h1 := hnew x
    have h2 := hdropped x
    simp only [State.owners, count_append, hthreads]
    omega
  have hfresh : ∀ x, (if s.nextRecord == x then 1 else 0) = 0 ∨
      (if s.nextRecord == x then 1 else 0) = 1 ∧ s.owners.count x = 0 := by
    intro x
    split
    · next hx => exact .inr ⟨rfl, h.fresh x (Nat.le_of_eq (eq_of_beq hx))⟩
    · exact .inl rfl
  have hzero := h.fresh s.nextRecord (Nat.le_refl _)
  have hnone : s.heap s.nextRecord = none := by
    cases hcase : s.heap s.nextRecord with
    | none => rfl
    | some o => exact absurd (h.balanced.mem hcase) (count_eq_zero.mp hzero)
  refine ⟨hfault.trans h.faultless, ?_, fun x => ?_, fun x => ?_, fun x => ?_, fun sub' hm => ?_,
    fun x hx => ?_, fun r hr v' hv' => ?_⟩
  · rw [hheap]
    refine ((h.balanced.create hnone v).retain mem_cons_self).perm
      (perm_iff_count.mpr fun x => ?_)
    rw [howners, count_cons, count_cons]
    omega
  · have h1 := hnew x
    have h2 := h.once x
    have h3 := hfresh x
    rw [State.owners, count_append] at h3
    omega
  · have h1 := howners x
    have h2 := h.twice x
    have h3 := hfresh x
    omega
  · have h1 := hsubmitter x
    have h2 := h.submitters x
    have h3 := h.dropped_eq x
    have h4 := hfresh x
    rw [State.owners, count_append] at h4
    rw [State.submitters, hthreads]
    rw [State.submitters] at h2 h3
    omega
  · rw [hthreads] at hm
    rcases mem_or_eq_of_mem_set hm with hm | hm
    · exact h.dropping sub' hm
    · cases hm
  · have h1 := howners x
    have h2 := h.fresh x (by omega)
    have hx' : s.nextRecord ≠ x := by omega
    simp [hx'] at h1
    omega
  · rw [State.record, hheap, values_retain, values_create] at hv'
    split at hv'
    · cases hv'
      exact hv
    · rename_i hne
      rw [hregistry] at hr
      exact h.kept r ((mem_cons.mp hr).resolve_left hne) v' hv'

theorem change_core {op : Op} (h : s.change op = some s') : s'.core = s.core := by
  obtain ⟨r, -, rfl⟩ := map_eq_some_iff.mp h
  rfl

theorem accept_core (s : State) (sub : Submission) : (s.accept sub).core = s.core := by
  rw [State.accept]
  split
  · rfl
  · rfl

theorem Pass.enter_alike (p : Pass) : Pc.Alike (.lock p) p.enter := by
  rw [Pass.enter]
  split
  · exact ⟨rfl, nofun⟩
  · exact ⟨rfl, nofun⟩

theorem Pass.leave_alike (p : Pass) : Pc.Alike (.unlock p) p.leave := by
  rw [Pass.leave]
  split
  · exact ⟨rfl, nofun⟩
  · exact ⟨rfl, nofun⟩
  · exact ⟨rfl, nofun⟩

section
variable {answer : Answer} (h : Inv s)
include h

theorem Inv.reject {sub : Submission} (ht : s.threads[t]? = some (.reject sub)) :
    Inv { s.goto t (.drop sub (if sub.id ∈ s.registry then 2 else 1)) with
      heap := modify s.heap sub.id Record.cancel
      registry := s.registry.erase sub.id } := by
  have honce : s.registry.count sub.id ≤ 1 := by
    have := h.once sub.id
    rw [State.listed, count_append] at this
    omega
  refine h.update ht [] (fun x => ?_) (fun x => ?_) (fun x => Nat.le_refl _) ?_
    (fun _ hb => hb.modify _ _) fun r hr v hv => ?_
  · exact Nat.add_le_add_right (erase_sublist.count_le x) _
  · rw [count_erase]
    simp only [Pc.listed, Pc.dropped, count_nil, count_singleton, count_replicate]
    by_cases hmem : sub.id ∈ s.registry
    · by_cases hx : x = sub.id
      · subst hx
        simp [hmem]
      · simp [Ne.symm hx]
    · have hnone := count_eq_zero.mpr hmem
      by_cases hx : x = sub.id
      · subst hx
        simp [hmem, hnone]
      · simp [Ne.symm hx]
  · intro sub' heq
    split at heq
    · cases heq
    · cases heq
  · have hne : r ≠ sub.id := by
      rintro rfl
      have := count_pos_iff.mpr hr
      rw [count_erase_self] at this
      omega
    rw [values_modify, if_neg hne] at hv
    exact h.kept r (mem_of_mem_erase hr) v hv

theorem Inv.drop {sub : Submission} {count : Nat} (ht : s.threads[t]? = some (.drop sub count))
    (hcount : count ≠ 0) :
    Inv { s.goto t (if count ≤ 1 then .idle else .drop sub (count - 1)) with
      heap := release s.heap sub.id } := by
  refine h.releases ht sub.id (fun x => ?_) (fun x => ?_) (fun x => ?_) ?_
  · split
    · exact Nat.le_refl _
    · exact Nat.le_refl _
  · split
    · have hone : count = 1 := by omega
      subst hone
      simp [Pc.listed, Pc.dropped]
    · simp only [Pc.listed, Pc.dropped, count_nil, count_replicate, count_singleton]
      split <;> omega
  · split
    · simp [Pc.submitter]
    · exact Nat.le_refl _
  · intro sub' heq
    split at heq
    · cases heq
    · injection heq with _ hzero
      omega

theorem Inv.reinsert {p p' : Pass} {work : List Nat} (ht : s.threads[t]? = some (.failed p r work))
    {record : Record} (hr : s.record r = some record) (hcancelled : record.cancelled = false) :
    Inv { s.goto t (.work p' work) with
      heap := modify s.heap r Record.requeue
      registry := r :: s.registry } := by
  refine h.update ht [] (fun x => ?_) (fun x => ?_) (fun x => Nat.le_refl _) nofun
    (fun _ hb => hb.modify _ _) fun x hx v hv => ?_
  · simp only [Pc.listed, count_cons]
    omega
  · simp only [Pc.listed, Pc.dropped, count_cons, count_nil]
    omega
  · rw [values_modify] at hv
    split at hv
    · obtain ⟨v₀, hv₀, rfl⟩ := map_eq_some_iff.mp hv
      cases hr.symm.trans hv₀
      exact hcancelled
    · rename_i hne
      exact h.kept x ((mem_cons.mp hx).resolve_left hne) v hv

theorem Inv.alive_singleton (ht : s.threads[t]? = some pc) (hr : r ∈ pc.listed) :
    ∀ x ∈ [r], s.alive x = true := forall_mem_singleton.mpr (h.alive (mem_owners_thread ht (.inl hr)))

/-- The record of a list is there. -/
theorem Inv.record_of_listed (ht : s.threads[t]? = some pc) (hr : r ∈ pc.listed) :
    ∃ v, s.record r = some v := isSome_iff_exists.mp (h.alive_singleton ht hr r mem_cons_self)

/-- A thread goes on and something else changes. -/
theorem Inv.goto_other {s₁ : State} (hcore : s₁.core = s.core) (ht : s.threads[t]? = some pc)
    (pc' : Pc) (halike : pc.Alike pc') : Inv (s₁.goto t pc') := by
  refine (h.goto ht pc' halike).other ?_
  simp only [State.core, State.goto, Prod.mk.injEq] at hcore ⊢
  exact ⟨congrArg (·.set t pc') hcore.1, hcore.2⟩

theorem Inv.failed {p : Pass} {work : List Nat} (ht : s.threads[t]? = some (.failed p r work))
    (hstep : Readback.advance s t answer (.failed p r work) = some s') : Inv s' := by
  obtain ⟨record, hrecord⟩ := h.record_of_listed ht mem_cons_self
  simp only [Readback.advance, hrecord] at hstep
  split at hstep
  case isTrue =>
    cases hstep
    exact h.goto ht _ ⟨rfl, nofun⟩
  case isFalse hcancelled =>
    cases hstep
    exact h.reinsert ht hrecord (by simpa using hcancelled)

theorem Inv.ranges {p : Pass} {writes : List Write} {work : List Nat}
    (ht : s.threads[t]? = some (.ranges p r writes work))
    (hstep : Readback.advance s t answer (.ranges p r writes work) = some s') : Inv s' := by
  cases writes with
  | nil =>
    cases hstep
    exact h.goto ht _ ⟨rfl, nofun⟩
  | cons w writes =>
    rw [Readback.advance, access_eq _ (h.alive_singleton ht mem_cons_self)] at hstep
    cases hstep
    cases checkInvalidate s.memory p.device w.range with
    | skip | fail | call => exact h.goto ht _ ⟨rfl, nofun⟩

theorem Inv.releaseRecords {device : Device} {work : List Nat}
    (ht : s.threads[t]? = some (.releaseRecords device work))
    (hstep : Readback.advance s t answer (.releaseRecords device work) = some s') : Inv s' := by
  cases work with
  | nil =>
    rw [Readback.advance] at hstep
    obtain ⟨s₁, hchange, rfl⟩ := map_eq_some_iff.mp hstep
    exact (h.goto_other (change_core hchange) ht .idle ⟨rfl, nofun⟩).other rfl
  | cons r work =>
    rw [Readback.advance, access_eq _ (h.alive_singleton ht mem_cons_self)] at hstep
    cases hstep
    exact h.unlist ht rfl rfl rfl nofun

theorem Inv.advance (ht : s.threads[t]? = some pc) (hstep : advance s t answer pc = some s') : Inv s' := by
  have hregistry : ∀ r ∈ s.registry, s.alive r = true := fun r hr => h.alive (mem_owners_registry hr)
  have hdropped : ∀ r ∈ pc.dropped, s.alive r = true := fun r hr => h.alive (mem_owners_thread ht (.inr hr))
  cases pc with
  | idle => cases hstep
  | publish device queue fence writes wanted =>
    rw [Readback.advance] at hstep
    split at hstep
    · cases hstep
      exact h.goto ht _ ⟨rfl, nofun⟩
    · cases hstep
      exact h.publish ht rfl rfl rfl rfl rfl rfl rfl
  | submit sub =>
    rw [Readback.advance] at hstep
    split at hstep
    · cases hstep
      exact h.goto_other (accept_core s sub) ht _ ⟨rfl, nofun⟩
    · cases hstep
      exact h.goto ht _ ⟨rfl, nofun⟩
  | reject sub =>
    rw [Readback.advance, access_eq] at hstep
    · cases hstep
      exact h.reject ht
    · exact forall_mem_cons.mpr ⟨hdropped _ (mem_singleton_self _), hregistry⟩
  | drop sub count =>
    have hcount : count ≠ 0 := fun h0 => h.dropping sub (h0 ▸ mem_of_getElem? ht)
    rw [Readback.advance, access_eq] at hstep
    · cases hstep
      exact h.drop ht hcount
    · exact forall_mem_singleton.mpr (hdropped _ (mem_replicate.mpr ⟨hcount, rfl⟩))
  | lock p =>
    rw [Readback.advance] at hstep
    split at hstep
    · cases hstep
    · cases hstep
      exact (h.goto ht _ p.enter_alike).other rfl
  | scan p =>
    rw [Readback.advance] at hstep
    split at hstep
    · cases hstep
      exact h.goto ht _ ⟨rfl, nofun⟩
    · cases answer with
      | success | notReady | error =>
        cases hstep
        exact h.goto ht _ ⟨rfl, nofun⟩
  | detach p selector =>
    rw [Readback.advance] at hstep
    simp only [access_eq _ hregistry] at hstep
    cases hstep
    exact h.detach ht _ p.device selector rfl rfl rfl rfl nofun
  | work p rs =>
    cases rs with
    | nil =>
      cases hstep
      exact h.goto ht _ ⟨rfl, nofun⟩
    | cons r rs =>
      obtain ⟨record, hrecord⟩ := h.record_of_listed ht mem_cons_self
      simp only [Readback.advance, hrecord] at hstep
      cases hstep
      exact h.goto ht _ ⟨rfl, nofun⟩
  | ranges p r writes rs => exact h.ranges ht hstep
  | invalidate p r w writes rs =>
    rw [Readback.advance] at hstep
    obtain ⟨s₁, hchange, rfl⟩ := map_eq_some_iff.mp hstep
    split
    · exact (h.goto_other (change_core hchange) ht (.ranges p r writes rs) ⟨rfl, nofun⟩).other rfl
    · exact h.goto_other (change_core hchange) ht _ ⟨rfl, nofun⟩
  | failed p r rs => exact h.failed ht hstep
  | release p r rs =>
    rw [Readback.advance, access_eq _ (h.alive_singleton ht mem_cons_self)] at hstep
    cases hstep
    exact h.unlist ht rfl rfl rfl nofun
  | unlock p =>
    cases hstep
    exact (h.goto ht _ p.leave_alike).other rfl
  | resetFences device fences =>
    rw [Readback.advance] at hstep
    split at hstep
    · cases hstep
      exact (h.goto ht (.forget device fences) ⟨rfl, nofun⟩).other rfl
    · cases hstep
      exact h.goto ht _ ⟨rfl, nofun⟩
  | forget device fences =>
    rw [Readback.advance, access_eq _ hregistry] at hstep
    cases hstep
    exact h.forget ht (.returned true []) ⟨rfl, nofun⟩ device fences
  | forgetDestroyed device f =>
    rw [Readback.advance, access_eq _ hregistry] at hstep
    cases hstep
    exact (h.forget ht (.destroyFence device f) ⟨rfl, nofun⟩ device [f]).other rfl
  | destroyFence _ _ | returned _ _ =>
    cases hstep
    exact h.goto ht _ ⟨rfl, nofun⟩
  | releaseDevice device =>
    rw [Readback.advance] at hstep
    simp only [access_eq _ hregistry] at hstep
    cases hstep
    exact (h.detach ht (.releaseRecords device _) device .device rfl rfl rfl rfl nofun).other rfl
  | releaseRecords device rs => exact h.releaseRecords ht hstep

omit h in
theorem begin_eq_some (h : begin s t pc = some s') : s.threads[t]? = some .idle ∧ s' = s.goto t pc := by
  rw [begin, ite_none_right_eq_some] at h
  exact ⟨h.1, (Option.some.inj h.2).symm⟩

theorem Inv.begin (hstep : Readback.begin s t pc = some s') (halike : Pc.Alike .idle pc) : Inv s' := by
  obtain ⟨ht, rfl⟩ := begin_eq_some hstep
  exact h.goto ht pc halike

theorem Inv.step {a : Action} (hstep : step s a = some s') : Inv s' := by
  rw [Readback.step, h.faultless, if_neg Bool.false_ne_true] at hstep
  cases a with
  | memory op => exact h.other (change_core hstep)
  | write c buffer offset size =>
    rw [perform] at hstep
    split at hstep
    · cases hstep
      exact h.other rfl
    · cases hstep
      exact h
  | execute _ _ | resetCommand _ | resetPool _ _ | createDevice _ | createFence _ _ _ | complete _ =>
    cases hstep
    exact h.other rfl
  | submit t device queue batches fence =>
    rw [perform] at hstep
    split at hstep
    · cases hstep
      exact h
    · exact h.begin hstep ⟨rfl, nofun⟩
  | waited _ _ _ _ | queueIdle _ _ _ | deviceIdle _ _ | resetFences _ _ _ | destroyFence _ _ _
  | destroyDevice _ _ => exact h.begin hstep ⟨rfl, nofun⟩
  | advance t answer =>
    rw [perform] at hstep
    split at hstep
    case h_1 => cases hstep
    case h_2 pc hpc => exact h.advance hpc hstep
  | signal device f =>
    rw [perform] at hstep
    split at hstep
    · cases hstep
      exact h.other rfl
    · cases hstep

end

theorem flatMap_replicate_idle (f : Pc → List Nat) (hf : f .idle = []) (n : Nat) :
    (List.replicate n Pc.idle).flatMap f = [] := by
  rw [flatMap_eq_nil_iff]
  intro pc hpc
  rw [eq_of_mem_replicate hpc]
  exact hf

theorem Inv.start (n : Nat) : Inv (State.start n) := by
  have hlisted := flatMap_replicate_idle Pc.listed rfl n
  have hdropped := flatMap_replicate_idle Pc.dropped rfl n
  have hsubmitter := flatMap_replicate_idle Pc.submitter rfl n
  have howners : (State.start n).owners = [] := by
    rw [State.owners, State.listed, State.start, hlisted, hdropped]
    rfl
  refine ⟨rfl, ?_, fun x => ?_, fun x => ?_, fun x => ?_, fun sub hm => ?_, fun x _ => ?_, nofun⟩
  · rw [howners]
    exact balanced_empty
  · rw [State.listed, State.start, hlisted]
    exact Nat.zero_le 1
  · rw [howners]
    exact Nat.zero_le 2
  · rw [State.submitters, State.start, hsubmitter]
    exact Nat.zero_le 1
  · cases eq_of_mem_replicate hm
  · rw [howners]
    rfl

/-! ## The account of a record -/

/-- The record is in the registry or in a list of detached work. -/
def State.Listed (s : State) (r : Nat) : Prop := r ∈ s.registry ∨ ∃ pc ∈ s.threads, r ∈ pc.listed

def State.Unlinked (s : State) (r : Nat) : Prop := ∃ pc ∈ s.threads, r ∈ pc.unlinked

/-- Its submitter has not dropped its own reference. -/
def State.Submitting (s : State) (r : Nat) : Prop := ∃ pc ∈ s.threads, r ∈ pc.submitter

instance (s : State) (r : Nat) : Decidable (s.Listed r) := inferInstanceAs (Decidable (_ ∨ _))

instance (s : State) (r : Nat) : Decidable (s.Unlinked r) :=
  inferInstanceAs (Decidable (∃ pc ∈ s.threads, _))

instance (s : State) (r : Nat) : Decidable (s.Submitting r) :=
  inferInstanceAs (Decidable (∃ pc ∈ s.threads, _))

/-- Records are counted and destroyed exactly once. -/
structure Accounted (s : State) : Prop where
  /-- no record was used after its destruction -/
  faultless : s.fault = false
  counted : ∀ r o, s.heap r = some o →
    o.refs = (if s.Listed r ∨ s.Unlinked r then 1 else 0) + if s.Submitting r then 1 else 0
  cancelled : ∀ r ∈ s.registry, ∀ v, s.record r = some v → v.cancelled = false
  destroyed : ∀ r < s.nextRecord, ¬ s.Listed r → ¬ s.Submitting r → s.heap r = none

theorem count_eq_if {l : List Nat} (h : l.count r ≤ 1) {P : Prop} [Decidable P] (hP : r ∈ l ↔ P) :
    l.count r = if P then 1 else 0 := by
  by_cases hr : r ∈ l
  · rw [if_pos (hP.mp hr)]
    have := count_pos_iff.mpr hr
    omega
  · rw [if_neg (mt hP.mpr hr)]
    exact count_eq_zero.mpr hr

theorem mem_listed : r ∈ s.listed ↔ s.Listed r := by
  rw [State.listed, mem_append, mem_flatMap]
  rfl

theorem mem_submitters : r ∈ s.submitters ↔ s.Submitting r := mem_flatMap

theorem mem_unlinked (h : r ∈ pc.unlinked) : ∃ sub, pc = .drop sub 2 ∧ sub.id = r := by
  unfold Pc.unlinked at h
  split at h
  · rename_i sub
    exact ⟨sub, rfl, (mem_singleton.mp h).symm⟩
  · cases h

/-- A record that was unlinked by its submitter is in no list. -/
theorem Inv.unlinked_once (h : Inv s) (r : Nat) :
    s.listed.count r + (s.threads.flatMap Pc.unlinked).count r ≤ 1 := by
  have honce := h.once r
  by_cases hr : r ∈ s.threads.flatMap Pc.unlinked
  · obtain ⟨pc, hpc, hmem⟩ := mem_flatMap.mp hr
    obtain ⟨sub, rfl, rfl⟩ := mem_unlinked hmem
    have hsubmitter := count_le_flatMap (f := Pc.submitter) hpc sub.id
    have heq := h.dropped_eq sub.id
    have htwice := h.twice sub.id
    simp only [Pc.submitter, count_singleton_self] at hsubmitter
    rw [State.owners, count_append] at htwice
    rw [State.submitters] at heq
    omega
  · rw [count_eq_zero.mpr hr]
    exact honce

theorem Inv.owners_eq (h : Inv s) (r : Nat) :
    s.owners.count r = (if s.Listed r ∨ s.Unlinked r then 1 else 0) + if s.Submitting r then 1 else 0 := by
  have hone : (s.listed ++ s.threads.flatMap Pc.unlinked).count r ≤ 1 := by
    rw [count_append]
    exact h.unlinked_once r
  have hmem : r ∈ s.listed ++ s.threads.flatMap Pc.unlinked ↔ s.Listed r ∨ s.Unlinked r := by
    rw [mem_append, mem_listed]
    exact or_congr_right mem_flatMap
  rw [← count_eq_if hone hmem, ← count_eq_if (h.submitters r) mem_submitters, State.owners,
    count_append, count_append, h.dropped_eq r]
  omega

theorem Inv.accounted (h : Inv s) : Accounted s := by
  refine ⟨h.faultless, fun r o ho => ?_, h.kept, fun r _ hlisted hsubmitting => ?_⟩
  · have hrefs := h.balanced r
    rw [ho] at hrefs
    exact hrefs.1.trans (h.owners_eq r)
  · have hunlinked : ¬ s.Unlinked r := by
      rintro ⟨pc, hpc, hmem⟩
      obtain ⟨sub, rfl, rfl⟩ := mem_unlinked hmem
      exact hsubmitting ⟨_, hpc, mem_singleton_self _⟩
    have hzero := h.owners_eq r
    rw [if_neg (not_or.mpr ⟨hlisted, hunlinked⟩), if_neg hsubmitting] at hzero
    cases hcase : s.heap r with
    | none => rfl
    | some o => exact absurd (h.balanced.mem hcase) (count_eq_zero.mp hzero)

/-- In every run, whatever the threads and the driver do, records are counted by who has them, never
used after their destruction and destroyed when nobody has them. -/
theorem run_accounted (n : Nat) (actions : List Action) (s : State)
    (hrun : Transition.run step (State.start n) actions = some s) : Accounted s := by
  have hinv : Inv s := Transition.run_invariant (fun _ _ _ h ht => h.step ht) actions _ s (Inv.start n) hrun
  exact hinv.accounted

def sampleDevice : Device := ⟨1, 1⟩

/-- A submission is published and rejected; its submitter unlinks the record. -/
def rejectedSubmission : List Action :=
  [.createDevice sampleDevice, .createFence sampleDevice 4 false, .submit 0 sampleDevice 7 [[]] (some 4),
    .advance 0 .success, .advance 0 .error, .advance 0 .success]

theorem run_accounted_rejected :
    ∃ s, Transition.run step (State.start 2) rejectedSubmission = some s ∧ Accounted s :=
  ⟨_, rfl, run_accounted 2 rejectedSubmission _ rfl⟩

/-- Between the section that unlinks a rejected record and the one that drops its reference the
record is in no list and its submitter has not returned, but its count is two. -/
theorem unlinked_record_counts_two :
    (Transition.run step (State.start 2) rejectedSubmission).map (fun s =>
      ((s.heap 0).map Object.refs, decide (s.Listed 0), decide (s.Submitting 0))) =
    some (some 2, false, true) := by
  decide +kernel

end Readback
