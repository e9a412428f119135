import Libhybris.BionicSync

/-!
# One host object for each storage

The storages of a run in which `init` and `destroy` keep to POSIX. A word that has left the
initializer range names an object of its own, and only a `destroy` can take it away again; so
what a hook read stays true until it makes its host call, whatever other threads published
in between.
-/
namespace BionicSync

open List Option

@[simp] theorem put_self {α β : Type} [DecidableEq α] (f : α → β) (a : α) (b : β) :
    put f a b a = b := by
  simp [put]

theorem put_ne {α β : Type} [DecidableEq α] {a x : α} (f : α → β) (b : β) (h : x ≠ a) :
    put f a b x = f x := by
  simp [put, h]

/-- A destroy of the storage has ended its object and not yet returned. -/
def Pc.closing : Pc → Bool
  | .destroyFree _ _ _ | .destroyClear _ _ _ => true
  | _ => false

def State.Closing (s : State) (x : Storage) : Prop :=
  ∃ t, (s.pc t).closing = true ∧ x ∈ (s.pc t).storages

/-- No `init` or `destroy` of a storage runs at the same time as another hook on it. -/
def Posix (s : State) : Action → Prop
  | .hook _ _ x => ∀ u, (s.pc u).exclusive = true → x ∉ (s.pc u).storages
  | .wait _ c m => ∀ u, (s.pc u).exclusive = true → c ∉ (s.pc u).storages ∧ m ∉ (s.pc u).storages
  | .init _ x _ _ => ∀ u, x ∉ (s.pc u).storages
  | .destroy _ x => ∀ u, x ∉ (s.pc u).storages
  | _ => True

/-- A destroy of the storage may start: no shared-flag initializer of a mutex or a condition,
no heap object of a rwlock. -/
def DestroyOk (value : Nat) : Kind → Prop
  | .mutex => checkAndroidSharedMutex value = false
  | .cond => checkAndroidSharedCond value = false
  | .rwlock => value ≤ androidTopAddrValue .rwlock ∨ isPointerInShm value = true

/-- The host's answer to a destroy: a condition's succeeds, a rwlock's does not. -/
def DestroyResultOk (ret : Int) : Kind → Prop
  | .mutex => True
  | .cond => ret = 0
  | .rwlock => ret ≠ 0

def PulseOk (s : State) : Pc → Prop
  | .pulse _ x => s.word x ≠ 1
  | _ => True

def DestroyCallOk (ret : Int) : Pc → Prop
  | .destroyCall x _ => DestroyResultOk ret x.kind
  | _ => True

/-- The steps the hooks survive: handles of the shared segment are new, the futex counter of a
shared condition is not at its last value, and the destroys are those above. -/
def WellBehaved (s : State) : Action → Prop
  | .pulse t => PulseOk s (s.pc t)
  | .init _ _ true (some p) => p ∉ s.live
  | .destroy _ x => DestroyOk (s.word x) x.kind
  | .destroyCall t ret => DestroyCallOk ret (s.pc t)
  | _ => True

/-- What the storages promise: no host function got a wrong object, no object was freed or
dropped before its destroy succeeded; what the host was given for a storage is what the
storage still holds, and usable; a storage outside a destroy holds an initializer or a usable
object; a destroyed heap object is about to be freed. -/
structure Good (s : State) : Prop where
  faults : s.faults = []
  bound : ∀ x object, s.bound x = some object → s.word x = object ∧ s.Usable object
  word : ∀ x, ¬ s.Closing x → s.word x ≤ 0xFFFF ∨ s.Usable (s.word x)
  ended : ∀ object ∈ s.ended, isPointerInShm object = true ∨
    ∃ t x ret, s.pc t = .destroyFree x object ret

/-- The storage holds an initializer with the condition's shared flag. -/
def State.Flagged (s : State) (x : Storage) : Prop := s.word x ≤ 0xFFFF ∧ s.word x % 2 = 1

/-- A value read from the storage: an object read is still there. -/
def State.Read (s : State) (x : Storage) (value : Nat) : Prop :=
  value ≤ 0xFFFF ∨ s.word x = value

def State.Holds (s : State) (x : Storage) (object : Nat) : Prop :=
  s.word x = object ∧ 0xFFFF < object

/-- What a thread inside a hook knows. -/
def PcOk (s : State) : Pc → Prop
  | .idle _ => True
  | .static _ x => x.kind = .cond → ¬ s.Flagged x
  | .pulse _ x => x.kind = .cond ∧ s.Flagged x
  | .call _ x object => s.Holds x object
  | .waitRead c m cvalue =>
    m.kind = .mutex ∧ s.Read c cvalue ∧ (s.Flagged c → checkAndroidSharedCond cvalue = true)
  | .waitCond c m cvalue mvalue =>
    m.kind = .mutex ∧ s.Read c cvalue ∧ ¬ s.Flagged c ∧ s.Read m mvalue
  | .waitMutex c m realcond mvalue =>
    m.kind = .mutex ∧ s.Holds c realcond ∧ s.Read m mvalue
  | .waitCall c m realcond realmutex => s.Holds c realcond ∧ s.Holds m realmutex
  | .initCall x object => s.Holds x object
  | .destroyCall x object => s.Holds x object ∧ (x.kind = .rwlock → isPointerInShm object = true)
  | .destroyFree x object _ =>
    object ∈ s.live ∧ object ∈ s.ended ∧ isPointerInShm object = false ∧ s.bound x = none ∧
      x.kind ≠ .rwlock
  | .destroyClear x object _ =>
    (isPointerInShm object = true → object ∈ s.ended) ∧ s.bound x = none

structure Inv (s : State) : Prop where
  faults : s.faults = []
  live : ∀ object ∈ s.live, 0xFFFF < object ∧ object ≤ hybrisShmMaskTop
  ended : ∀ object ∈ s.ended, object ∈ s.live
  freeing : ∀ object ∈ s.ended, isPointerInShm object = true ∨
    ∃ t x ret, s.pc t = .destroyFree x object ret
  word : ∀ x, s.Closing x ∨ s.word x ≤ 0xFFFF ∨ s.Usable (s.word x)
  apart : ∀ x y, s.word x = s.word y → 0xFFFF < s.word x → x = y ∨ s.Closing x ∨ s.Closing y
  bound : ∀ x object, s.bound x = some object → s.Holds x object
  alone : ∀ t u x, (s.pc t).exclusive = true → x ∈ (s.pc t).storages →
    x ∈ (s.pc u).storages → u = t
  frees : ∀ t u x y object ret ret', s.pc t = .destroyFree x object ret →
    s.pc u = .destroyFree y object ret' → u = t
  pcs : ∀ t, PcOk s (s.pc t)

variable {pc : Pc} {s s' : State} {p t u w value object : Nat} {x y : Storage} {ret : Int}
  {hook : Hook} {a : Action}

theorem Pc.exclusive_of_closing (h : pc.closing = true) : pc.exclusive = true := by
  cases pc <;> first | rfl | cases h

theorem Inv.known (hs : Inv s) (ht : s.pc t = pc) : PcOk s pc := ht ▸ hs.pcs t

/-- A storage that a hook other than a destroy's last steps is in is not closing. -/
theorem Inv.not_closing (hs : Inv s) (ht : s.pc t = pc) (hpc : pc.closing = false)
    (hx : x ∈ pc.storages) : ¬ s.Closing x := by
  subst ht
  rintro ⟨u, hu, hxu⟩
  have he := hs.alone u t x (Pc.exclusive_of_closing hu) hxu hx
  rw [← he, hpc] at hu
  cases hu

theorem Inv.usable (hs : Inv s) (hx : s.Holds x object) (hc : ¬ s.Closing x) : s.Usable object := by
  obtain ⟨rfl, hlt⟩ := hx
  rcases hs.word x with h | h | h
  · exact absurd h hc
  · omega
  · exact h

theorem Inv.not_closing_of_bound (hs : Inv s) (hb : s.bound x = some object) : ¬ s.Closing x := by
  rintro ⟨u, hu, hxu⟩
  cases h : s.pc u with
  | destroyFree y o r =>
    obtain rfl : x = y := by simpa [h, Pc.storages] using hxu
    simp [(hs.known h).2.2.2.1] at hb
  | destroyClear y o r =>
    obtain rfl : x = y := by simpa [h, Pc.storages] using hxu
    simp [(hs.known h).2] at hb
  | _ => rw [h] at hu; cases hu

theorem Inv.good (hs : Inv s) : Good s where
  faults := hs.faults
  bound x object hb :=
    ⟨(hs.bound x object hb).1, hs.usable (hs.bound x object hb) (hs.not_closing_of_bound hb)⟩
  word x hx := (hs.word x).resolve_left hx
  ended := hs.freeing

theorem inv_start (word : Storage → Nat) (hword : ∀ x, word x ≤ 0xFFFF) : Inv (start word) where
  faults := rfl
  live object h := by cases h
  ended object h := by cases h
  freeing object h := by cases h
  word x := .inr (.inl (hword x))
  apart x y _ h := absurd (hword x) (Nat.not_le.mpr h)
  bound x object h := by cases h
  alone t u x h := by cases h
  frees t u x y object ret ret' h := by cases h
  pcs t := trivial

/-! ## Moving one thread -/

@[simp] theorem goto_pc_self (s : State) (t : Nat) (pc : Pc) : (s.goto t pc).pc t = pc := by
  simp [State.goto]

theorem goto_pc_ne (pc : Pc) (h : u ≠ t) : (s.goto t pc).pc u = s.pc u := by
  simp [State.goto, put_ne _ _ h]

theorem pcOk_goto (s : State) (t : Nat) (pc pc' : Pc) : PcOk (s.goto t pc) pc' ↔ PcOk s pc' := by
  cases pc' <;> exact Iff.rfl

/-- Another thread is in a destroy that has ended the storage's object. -/
def State.ClosingElse (s : State) (t : Nat) (x : Storage) : Prop :=
  ∃ u, u ≠ t ∧ (s.pc u).closing = true ∧ x ∈ (s.pc u).storages

theorem closing_iff (s : State) (t : Nat) (x : Storage) :
    s.Closing x ↔ (s.pc t).closing = true ∧ x ∈ (s.pc t).storages ∨ s.ClosingElse t x := by
  constructor
  · rintro ⟨u, hu, hx⟩
    by_cases hut : u = t
    · exact .inl (hut ▸ ⟨hu, hx⟩)
    · exact .inr ⟨u, hut, hu, hx⟩
  · rintro (⟨ht, hx⟩ | ⟨u, -, hu, hx⟩)
    · exact ⟨t, ht, hx⟩
    · exact ⟨u, hu, hx⟩

/-- A thread that moves closes the storages of its new step, and no others. -/
theorem closing_goto_iff (s : State) (t : Nat) (pc : Pc) (x : Storage) :
    (s.goto t pc).Closing x ↔ pc.closing = true ∧ x ∈ pc.storages ∨ s.ClosingElse t x := by
  have helse : (s.goto t pc).ClosingElse t x ↔ s.ClosingElse t x := by
    refine exists_congr fun u => and_congr_right fun hu => ?_
    rw [goto_pc_ne pc hu]
  rw [closing_iff _ t, goto_pc_self, helse]

/-- Outside its last two steps a destroy moves no storage in or out of closing. -/
theorem closing_goto (ht : (s.pc t).closing = false) (hpc : pc.closing = false) (x : Storage) :
    (s.goto t pc).Closing x ↔ s.Closing x := by
  simp [closing_goto_iff, closing_iff s t, ht, hpc]

/-- Two threads may stand at `pc` and `pc'`: a storage of both is in no `init` or `destroy`. -/
def Pc.Compatible (pc pc' : Pc) : Prop :=
  ∀ x ∈ pc.storages, x ∈ pc'.storages → pc.exclusive = false ∧ pc'.exclusive = false

section
variable (hs : Inv s)
include hs

theorem Inv.alone_goto (hcomp : ∀ u, u ≠ t → pc.Compatible (s.pc u)) (u v : Nat) (x : Storage)
    (hu : ((s.goto t pc).pc u).exclusive = true) (hxu : x ∈ ((s.goto t pc).pc u).storages)
    (hxv : x ∈ ((s.goto t pc).pc v).storages) : v = u := by
  by_cases hut : u = t <;> by_cases hvt : v = t
  · rw [hut, hvt]
  · subst hut
    rw [goto_pc_self] at hu hxu
    rw [goto_pc_ne pc hvt] at hxv
    simp [(hcomp v hvt x hxu hxv).1] at hu
  · subst hvt
    rw [goto_pc_self] at hxv
    rw [goto_pc_ne pc hut] at hu hxu
    simp [(hcomp u hut x hxv hxu).2] at hu
  · rw [goto_pc_ne pc hut] at hu hxu
    rw [goto_pc_ne pc hvt] at hxv
    exact hs.alone u v x hu hxu hxv

/-- The destroys about to free an object, when one thread that is not moves. -/
theorem Inv.freeing_goto (ho : object ∈ s.ended) (ht : ∀ x ret, s.pc t ≠ .destroyFree x object ret) :
    isPointerInShm object = true ∨ ∃ u x ret, (s.goto t pc).pc u = .destroyFree x object ret := by
  refine (hs.freeing object ho).imp_right ?_
  rintro ⟨u, x, ret, hu⟩
  have hut : u ≠ t := by
    rintro rfl
    exact ht x ret hu
  exact ⟨u, x, ret, by rw [goto_pc_ne pc hut, hu]⟩

theorem Inv.frees_goto (hpc : ∀ x object ret, pc ≠ .destroyFree x object ret) (u v : Nat) (x y : Storage)
    (object : Nat) (ret ret' : Int) (hu : (s.goto t pc).pc u = .destroyFree x object ret)
    (hv : (s.goto t pc).pc v = .destroyFree y object ret') : v = u := by
  have hne : ∀ w z r, (s.goto t pc).pc w = .destroyFree z object r → w ≠ t := by
    rintro w z r hw rfl
    rw [goto_pc_self] at hw
    exact hpc z object r hw
  rw [goto_pc_ne pc (hne u x ret hu)] at hu
  rw [goto_pc_ne pc (hne v y ret' hv)] at hv
  exact hs.frees u v x y object ret ret' hu hv

/-- A thread that is about to free nothing moves; what it no longer closes holds an initializer. -/
theorem Inv.move (ht : ∀ x object ret, s.pc t ≠ .destroyFree x object ret)
    (hpc : ∀ x object ret, pc ≠ .destroyFree x object ret)
    (hclosing : ∀ x, s.Closing x → (s.goto t pc).Closing x ∨ s.word x ≤ 0xFFFF) (hok : PcOk s pc)
    (hcomp : ∀ u, u ≠ t → pc.Compatible (s.pc u)) : Inv (s.goto t pc) where
  faults := hs.faults
  live := hs.live
  ended := hs.ended
  freeing object h := hs.freeing_goto h fun x => ht x object
  word x := by
    rcases hs.word x with h | h
    · exact (hclosing x h).imp_right .inl
    · exact .inr h
  apart x y heq hlt := by
    rcases hs.apart x y heq hlt with h | h | h
    · exact .inl h
    · exact .inr (.inl ((hclosing x h).resolve_right (Nat.not_le.mpr hlt)))
    · exact .inr (.inr ((hclosing y h).resolve_right (Nat.not_le.mpr (heq ▸ hlt))))
  bound := hs.bound
  alone := hs.alone_goto hcomp
  frees := hs.frees_goto hpc
  pcs u := by
    by_cases hut : u = t
    · rw [hut, goto_pc_self]
      exact hok
    · rw [goto_pc_ne pc hut]
      exact hs.pcs u

theorem Inv.goto (ht : (s.pc t).closing = false) (hpc : pc.closing = false) (hok : PcOk s pc)
    (hcomp : ∀ u, u ≠ t → pc.Compatible (s.pc u)) : Inv (s.goto t pc) := by
  refine hs.move (fun x object ret he => ?_) (fun x object ret he => ?_) (fun x hx => ?_) hok hcomp
  · simp [he, Pc.closing] at ht
  · simp [he, Pc.closing] at hpc
  · exact .inl ((closing_goto ht hpc x).mpr hx)

/-- A thread that stays on storages it is already in keeps the rest of them compatible. -/
theorem Inv.compatible {old : Pc} (ht : s.pc t = old) (hsub : ∀ x ∈ pc.storages, x ∈ old.storages)
    (hex : pc.exclusive = true → old.exclusive = true) (u : Nat) (hne : u ≠ t) :
    pc.Compatible (s.pc u) := by
  subst ht
  intro x hx hxu
  constructor
  · by_contra h
    exact hne (hs.alone t u x (hex (by simpa using h)) (hsub x hx) hxu)
  · by_contra h
    exact hne (hs.alone u t x (by simpa using h) hxu (hsub x hx)).symm

/-- A thread inside a hook goes on with it. -/
theorem Inv.advance {old : Pc} (ht : s.pc t = old) (hold : old.closing = false) (hpc : pc.closing = false)
    (hok : PcOk s pc) (hsame : pc.storages = old.storages) (hex : pc.exclusive = false) :
    Inv (s.goto t pc) :=
  hs.goto (ht ▸ hold) hpc hok (hs.compatible ht (fun _ h => hsame ▸ h) fun h => by simp [hex] at h)

theorem Inv.finish (ret : Int) (ht : s.pc t = pc) (hpc : pc.closing = false) : Inv (s.goto t (.idle ret)) :=
  hs.goto (ht ▸ hpc) rfl trivial (hs.compatible ht (fun _ h => by cases h) fun h => by cases h)

end

/-! ## Changing a storage or an object -/

/-- What a thread knows is about its own storages, and about the objects it destroys. -/
theorem PcOk.frame (h : PcOk s pc) (hword : ∀ y ∈ pc.storages, s'.word y = s.word y)
    (hbound : ∀ y ∈ pc.storages, pc.closing = true → s'.bound y = s.bound y)
    (hobject : ∀ o ∈ s.ended, isPointerInShm o = true ∨ (∃ y r, pc = .destroyFree y o r) →
      o ∈ s'.ended ∧ (o ∈ s.live → o ∈ s'.live)) : PcOk s' pc := by
  cases pc with
  | idle ret => trivial
  | destroyFree x object ret =>
    obtain ⟨hl, he, hshm, hb, hk⟩ := h
    have ho := hobject object he (.inr ⟨x, ret, rfl⟩)
    exact ⟨ho.2 hl, ho.1, hshm, by rw [hbound x (by simp [Pc.storages]) rfl, hb], hk⟩
  | destroyClear x object ret =>
    obtain ⟨he, hb⟩ := h
    exact ⟨fun hshm => (hobject object (he hshm) (.inl hshm)).1,
      by rw [hbound x (by simp [Pc.storages]) rfl, hb]⟩
  | _ =>
    simp only [Pc.storages, mem_cons, not_mem_nil, or_false, forall_eq_or_imp,
      forall_eq] at hword
    simpa only [PcOk, State.Flagged, State.Read, State.Holds, hword] using h

theorem Inv.host (hs : Inv s) (hx : s.Holds x object) (hc : ¬ s.Closing x) : Inv (s.host x object) where
  faults := by
    have hb : ∀ before, s.bound x = some before → before = object := fun before hbefore =>
      (hs.bound x before hbefore).1.symm.trans hx.1
    cases h : s.bound x with
    | none => simp [State.host, hs.usable hx hc, h, hs.faults]
    | some before => simp [State.host, hs.usable hx hc, h, hb before h, hs.faults]
  live := hs.live
  ended := hs.ended
  freeing := hs.freeing
  word := hs.word
  apart := hs.apart
  bound y o h := by
    by_cases hy : y = x
    · subst hy
      obtain rfl : object = o := by simpa [State.host] using h
      exact hx
    · exact hs.bound y o (by simpa [State.host, put_ne _ _ hy] using h)
  alone := hs.alone
  frees := hs.frees
  pcs u := by
    refine (hs.pcs u).frame (fun _ _ => rfl) (fun y hy hu => ?_) (fun o h _ => ⟨h, id⟩)
    have hne : y ≠ x := by
      rintro rfl
      exact hc ⟨u, hu, hy⟩
    simp [State.host, put_ne _ _ hne]

theorem Inv.bound_none (hs : Inv s) (hx : s.word x ≤ 0xFFFF) : s.bound x = none := by
  cases h : s.bound x with
  | none => rfl
  | some object =>
    obtain ⟨hword, hlt⟩ := hs.bound x object h
    omega

/-- A storage the host was not given an object for gets an initializer. -/
theorem Inv.reword (hs : Inv s) (hx : s.bound x = none) (hw : w ≤ 0xFFFF)
    (hpcs : ∀ u, PcOk { s with word := put s.word x w } (s.pc u)) :
    Inv { s with word := put s.word x w } where
  faults := hs.faults
  live := hs.live
  ended := hs.ended
  freeing := hs.freeing
  word y := by
    by_cases hy : y = x
    · subst hy
      exact .inr (.inl (by simpa using hw))
    · simp only [put_ne _ _ hy]
      exact hs.word y
  apart y z hyz hlt := by
    have hy : y ≠ x := by
      rintro rfl
      simp at hlt
      omega
    have hz : z ≠ x := by
      rintro rfl
      rw [hyz] at hlt
      simp at hlt
      omega
    simp only [put_ne _ _ hy, put_ne _ _ hz] at hyz hlt
    exact hs.apart y z hyz hlt
  bound y o h := by
    have hb := hs.bound y o h
    have hy : y ≠ x := by
      rintro rfl
      rw [show s.bound y = some o from h] at hx
      cases hx
    exact ⟨by simpa [put_ne _ _ hy] using hb.1, hb.2⟩
  alone := hs.alone
  frees := hs.frees
  pcs := hpcs

/-- An initializer is replaced: what hooks have read elsewhere stands. -/
theorem State.Read.put {v : Nat} (h : s.Read y v) (hword : s'.word = put s.word x w)
    (hx : s.word x ≤ 0xFFFF) : s'.Read y v := by
  rcases h with hv | hv
  · exact .inl hv
  · by_cases hyx : y = x
    · subst hyx
      exact .inl (by omega)
    · exact .inr (by rw [hword, put_ne _ _ hyx, hv])

variable {o : Nat}

theorem State.Holds.put (h : s.Holds y o) (hword : s'.word = put s.word x w)
    (hx : s.word x ≤ 0xFFFF) : s'.Holds y o := by
  obtain ⟨hy, ho⟩ := h
  have hyx : y ≠ x := by
    rintro rfl
    omega
  exact ⟨by rw [hword, put_ne _ _ hyx, hy], ho⟩

/-- A hook still knows what it knew when another one replaces an initializer, unless that takes
or gives a condition's shared flag. -/
theorem PcOk.put (h : PcOk s pc) (hword : s'.word = put s.word x w) (hx : s.word x ≤ 0xFFFF)
    (hflagged : ∀ y, s'.Flagged y → s.Flagged y) (hpulse : ∀ y, y.kind = .cond → s.Flagged y → s'.Flagged y)
    (hlive : ∀ o ∈ s.live, o ∈ s'.live) (hended : s'.ended = s.ended) (hbound : s'.bound = s.bound) :
    PcOk s' pc := by
  cases pc with
  | idle ret => trivial
  | static hook y => exact fun hk hy => h hk (hflagged y hy)
  | pulse hook y => exact ⟨h.1, hpulse y h.1 h.2⟩
  | call hook y o => exact State.Holds.put h hword hx
  | waitRead c m v => exact ⟨h.1, h.2.1.put hword hx, fun hc => h.2.2 (hflagged c hc)⟩
  | waitCond c m v v' =>
    exact ⟨h.1, h.2.1.put hword hx, fun hc => h.2.2.1 (hflagged c hc), h.2.2.2.put hword hx⟩
  | waitMutex c m o v => exact ⟨h.1, h.2.1.put hword hx, h.2.2.put hword hx⟩
  | waitCall c m o o' => exact ⟨h.1.put hword hx, h.2.put hword hx⟩
  | initCall y o => exact State.Holds.put h hword hx
  | destroyCall y o => exact ⟨h.1.put hword hx, h.2⟩
  | destroyFree y o r =>
    obtain ⟨hl, he, hshm, hb, hk⟩ := h
    exact ⟨hlive o hl, hended ▸ he, hshm, by rw [hbound, hb], hk⟩
  | destroyClear y o r => exact ⟨fun hshm => hended ▸ h.1 hshm, by rw [hbound, h.2]⟩

theorem PcOk.publish (h : PcOk s pc) (hx : s.word x ≤ 0xFFFF) (hp : 0xFFFF < p)
    (hflag : x.kind = .cond → ¬ s.Flagged x) : PcOk (s.publish x p) pc := by
  refine h.put rfl hx (fun y hy => ?_) (fun y hk hy => ?_)
    (fun o ho => mem_cons_of_mem p ho) rfl rfl
  · have hyx : y ≠ x := by
      rintro rfl
      have := hy.1
      simp [State.publish] at this
      omega
    simpa [State.Flagged, State.publish, put_ne _ _ hyx] using hy
  · have hyx : y ≠ x := by
      rintro rfl
      exact hflag hk hy
    simpa [State.Flagged, State.publish, put_ne _ _ hyx] using hy

/-- A storage gets an object of its own, which no storage held before. -/
theorem Inv.fresh (hs : Inv s) {ended : List Nat} {bound : Storage → Option Nat}
    (hc : ¬ s.Closing x) (hp : p ∉ s.live) (hlow : 0xFFFF < p) (htop : p ≤ hybrisShmMaskTop)
    (hended : ∀ o, o ∈ ended ↔ o ∈ s.ended) (hbound : ∀ y o, bound y = some o → y ≠ x ∧ s.bound y = some o)
    (hpcs : ∀ u, PcOk { s with word := put s.word x p, live := p :: s.live, ended, bound }
      (s.pc u)) : Inv { s with word := put s.word x p, live := p :: s.live, ended, bound } where
  faults := hs.faults
  live o ho := by
    rcases mem_cons.mp ho with rfl | ho
    · exact ⟨hlow, htop⟩
    · exact hs.live o ho
  ended o ho := mem_cons_of_mem p (hs.ended o ((hended o).mp ho))
  freeing o ho := hs.freeing o ((hended o).mp ho)
  word y := by
    by_cases hy : y = x
    · subst hy
      refine .inr (.inr ⟨by simp, fun h => hp (hs.ended p ?_)⟩)
      simpa using (hended _).mp h
    · simp only [put_ne _ _ hy]
      rcases hs.word y with h | h | h
      · exact .inl h
      · exact .inr (.inl h)
      · exact .inr (.inr ⟨mem_cons_of_mem p h.1, fun h' => h.2 ((hended _).mp h')⟩)
  apart y z hyz hlt := by
    -- a storage that is not closing holds a live object, hence not `p`
    have hnew : ∀ w, w ≠ x → s.word w = p → s.Closing w := by
      intro w _ hw
      rcases hs.word w with h | h | h
      · exact h
      · omega
      · exact absurd (hw ▸ h.1) hp
    by_cases hy : y = x <;> by_cases hz : z = x
    · exact .inl (hy.trans hz.symm)
    · subst hy
      simp only [put_self, put_ne _ _ hz] at hyz
      exact .inr (.inr (hnew z hz hyz.symm))
    · subst hz
      simp only [put_self, put_ne _ _ hy] at hyz
      exact .inr (.inl (hnew y hy hyz))
    · simp only [put_ne _ _ hy, put_ne _ _ hz] at hyz hlt
      exact hs.apart y z hyz hlt
  bound y o h := by
    obtain ⟨hy, hb⟩ := hbound y o h
    have hholds := hs.bound y o hb
    exact ⟨by simpa [put_ne _ _ hy] using hholds.1, hholds.2⟩
  alone := hs.alone
  frees := hs.frees
  pcs := hpcs

theorem shmMask_le : hybrisShmMask ≤ hybrisShmMaskTop := by decide

/-- Publication gives a storage its object, or reads the one it has. -/
theorem Inv.getStatic (hs : Inv s) {r : State × Nat} (hc : ¬ s.Closing x)
    (hflag : x.kind = .cond → ¬ s.Flagged x) (h : getStatic s x p = some r) :
    Inv r.1 ∧ r.1.Holds x r.2 ∧ r.1.pc = s.pc ∧
      (∀ y o, s.Holds y o → r.1.Holds y o) ∧ (∀ y v, s.Read y v → r.1.Read y v) := by
  unfold BionicSync.getStatic at h
  rw [androidTopAddrValue_eq] at h
  split at h
  case isTrue hx =>
    obtain ⟨hp, h⟩ := ite_none_right_eq_some.mp h
    obtain ⟨hlow, hmask, hnew⟩ := hp
    have hnone := hs.bound_none hx
    cases h
    refine ⟨hs.fresh hc hnew hlow (by have := shmMask_le; omega) (fun _ => Iff.rfl) ?_
      (fun u => (hs.pcs u).publish hx hlow hflag), ⟨by simp [State.publish], hlow⟩, rfl,
      fun y o ho => ho.put rfl hx, fun y v hv => hv.put rfl hx⟩
    intro y o hb
    refine ⟨?_, hb⟩
    rintro rfl
    rw [show s.bound y = some o from hb] at hnone
    cases hnone
  case isFalse hx =>
    cases h
    exact ⟨hs, ⟨rfl, by omega⟩, rfl, fun _ _ h => h, fun _ _ h => h⟩

/-! ## The end of a destroy -/

/-- The host's destroy succeeded and the thread goes on to free or clear. -/
theorem closing_end (ht : (s.pc t).closing = false) (hpc : pc.closing = true)
    (hx : pc.storages = [x]) (y : Storage) : (s.goto t pc).Closing y ↔ y = x ∨ s.Closing y := by
  simp [closing_goto_iff, closing_iff s t, ht, hpc, hx]

/-- The thread has freed the object and goes on to clear the storage. -/
theorem closing_free (ht : s.pc t = .destroyFree x object ret) (y : Storage) :
    (s.goto t (.destroyClear x object ret)).Closing y ↔ s.Closing y := by
  simp [closing_goto_iff, closing_iff s t, ht, Pc.closing, Pc.storages]

/-- The thread has cleared the storage and returns. -/
theorem closing_clear (ht : s.pc t = .destroyClear x object ret) (hy : s.Closing y) (hne : y ≠ x) :
    (s.goto t (.idle ret)).Closing y := by
  rw [closing_iff s t, ht] at hy
  rw [closing_goto_iff]
  exact .inr (hy.resolve_left fun h => hne (mem_singleton.mp h.2))

/-- Where a successful destroy of a mutex or a condition goes. -/
def closingPc (x : Storage) (object : Nat) : Pc :=
  if isPointerInShm object then .destroyClear x object 0 else .destroyFree x object 0

theorem closingPc_closing (x : Storage) (object : Nat) :
    (closingPc x object).closing = true ∧ (closingPc x object).storages = [x] := by
  unfold closingPc
  split <;> exact ⟨rfl, rfl⟩

theorem closingPc_eq_free {r : Int} (h : closingPc x object = .destroyFree y o r) :
    isPointerInShm object = false ∧ x = y ∧ object = o := by
  unfold closingPc at h
  split at h
  case isTrue => cases h
  case isFalse hshm =>
    cases h
    exact ⟨by simpa using hshm, rfl, rfl⟩

theorem Inv.endObject (hs : Inv s) (ht : s.pc t = .destroyCall x object) (hx : s.Holds x object)
    (hk : x.kind ≠ .rwlock) : Inv ((s.endObject x object 0).goto t (closingPc x object)) := by
  have hopen : (s.pc t).closing = false := by rw [ht]; rfl
  have hclosed : ¬ s.Closing x := hs.not_closing ht rfl mem_cons_self
  have husable : s.Usable object := hs.usable hx hclosed
  obtain ⟨hcl, hst⟩ := closingPc_closing x object
  have hclosing : ∀ y, ((s.endObject x object 0).goto t (closingPc x object)).Closing y ↔
      y = x ∨ s.Closing y := fun y =>
    closing_end (s := s.endObject x object 0) hopen hcl hst y
  refine ⟨hs.faults, hs.live, ?ended, ?freeing, ?word, ?apart, ?bound, ?alone, ?frees, ?pcs⟩
  case ended =>
    intro o ho
    rcases mem_cons.mp ho with rfl | ho
    · exact husable.1
    · exact hs.ended o ho
  case freeing =>
    intro o ho
    rcases mem_cons.mp ho with rfl | ho
    · by_cases hshm : isPointerInShm o = true
      · exact .inl hshm
      · exact .inr ⟨t, x, 0, by simp [closingPc, hshm]⟩
    · exact hs.freeing_goto ho (by simp [ht])
  case word =>
    intro y
    rw [hclosing]
    by_cases hy : y = x
    · exact .inl (.inl hy)
    rcases hs.word y with h | h | h
    · exact .inl (.inr h)
    · exact .inr (.inl h)
    · by_cases hw : s.word y = object
      · rcases hs.apart y x (hw.trans hx.1.symm) (by rw [hw]; exact hx.2) with h' | h' | h'
        · exact .inl (.inl h')
        · exact .inl (.inr h')
        · exact absurd h' hclosed
      · refine .inr (.inr ⟨h.1, fun hmem => ?_⟩)
        rcases mem_cons.mp hmem with hmem | hmem
        · exact hw hmem
        · exact h.2 hmem
  case apart =>
    intro y z hyz hlt
    rw [hclosing, hclosing]
    rcases hs.apart y z hyz hlt with h | h | h
    · exact .inl h
    · exact .inr (.inl (.inr h))
    · exact .inr (.inr (.inr h))
  case bound =>
    intro y o hb
    have hyx : y ≠ x := by
      rintro rfl
      simp [State.goto, State.endObject] at hb
    exact hs.bound y o (by simpa [State.goto, State.endObject, put_ne _ _ hyx] using hb)
  case alone => exact hs.alone_goto (hs.compatible ht (fun y hy => by rwa [hst] at hy) fun _ => rfl)
  case frees =>
    -- another thread that frees `object` would have it ended before
    have hother : ∀ u y r, u ≠ t → s.pc u ≠ .destroyFree y object r := by
      intro u y r _ hu
      exact husable.2 (hs.known hu).2.1
    intro u v y z o r r' hu hv
    by_cases hut : u = t <;> by_cases hvt : v = t
    · rw [hut, hvt]
    · subst hut
      rw [goto_pc_self] at hu
      rw [goto_pc_ne _ hvt] at hv
      obtain ⟨-, -, rfl⟩ := closingPc_eq_free hu
      exact absurd hv (hother v z r' hvt)
    · subst hvt
      rw [goto_pc_self] at hv
      rw [goto_pc_ne _ hut] at hu
      obtain ⟨-, -, rfl⟩ := closingPc_eq_free hv
      exact absurd hu (hother u y r hut)
    · rw [goto_pc_ne _ hut] at hu
      rw [goto_pc_ne _ hvt] at hv
      exact hs.frees u v y z o r r' hu hv
  case pcs =>
    intro u
    rw [pcOk_goto]
    by_cases hut : u = t
    · subst hut
      rw [goto_pc_self]
      unfold closingPc
      split
      case isTrue => exact ⟨fun _ => mem_cons_self, by simp [State.endObject]⟩
      case isFalse hshm =>
        exact ⟨husable.1, mem_cons_self, by simpa using hshm, by simp [State.endObject], hk⟩
    · rw [goto_pc_ne _ hut]
      refine (hs.pcs u).frame (fun _ _ => rfl) (fun y hy hu => ?_)
        (fun o h _ => ⟨mem_cons_of_mem object h, id⟩)
      have hyx : y ≠ x := by
        rintro rfl
        exact hclosed ⟨u, hu, hy⟩
      simp [State.endObject, put_ne _ _ hyx]

/-- The object is given back to the heap. -/
def State.freed (s : State) (object : Nat) : State :=
  { s with live := s.live.filter (· ≠ object), ended := s.ended.filter (· ≠ object) }

theorem mem_freed : (o ∈ (s.freed object).live ↔ o ∈ s.live ∧ o ≠ object) ∧
    (o ∈ (s.freed object).ended ↔ o ∈ s.ended ∧ o ≠ object) := by
  simp [State.freed]

theorem Inv.free (hs : Inv s) (ht : s.pc t = .destroyFree x object ret)
    (hrun : runDestroyFree s t = some s') : Inv s' := by
  obtain ⟨hlive, hended, hheap, hbound, hk⟩ := hs.known ht
  have hafter : afterFree x object ret = .destroyClear x object ret := by
    unfold afterFree
    cases hkind : x.kind with
    | rwlock => exact absurd hkind hk
    | _ => rfl
  obtain rfl : (s.freed object).goto t (.destroyClear x object ret) = s' := by
    simpa [runDestroyFree, ht, hended, hafter, State.goto, State.freed] using hrun
  have hclosing : ∀ y, ((s.freed object).goto t (.destroyClear x object ret)).Closing y ↔
      s.Closing y := fun y => closing_free (s := s) ht y
  refine ⟨hs.faults, fun o ho => hs.live o (mem_freed.1.mp ho).1, ?ended, ?freeing, ?word, ?apart,
    hs.bound, ?alone, hs.frees_goto (by simp), ?pcs⟩
  case ended =>
    intro o ho
    obtain ⟨ho, hne⟩ := mem_freed.2.mp ho
    exact mem_freed.1.mpr ⟨hs.ended o ho, hne⟩
  case freeing =>
    intro o ho
    obtain ⟨ho, hne⟩ := mem_freed.2.mp ho
    exact hs.freeing_goto ho (by simp [ht, hne.symm])
  case word =>
    intro y
    rw [hclosing]
    rcases hs.word y with h | h | h
    · exact .inl h
    · exact .inr (.inl h)
    · have hne : s.word y ≠ object := by
        intro he
        exact h.2 (he ▸ hended)
      exact .inr (.inr ⟨mem_freed.1.mpr ⟨h.1, hne⟩, fun h' => h.2 (mem_freed.2.mp h').1⟩)
  case apart =>
    intro y z
    rw [hclosing, hclosing]
    exact hs.apart y z
  case alone => exact hs.alone_goto (hs.compatible ht (fun _ h => h) fun _ => rfl)
  case pcs =>
    intro u
    rw [pcOk_goto]
    by_cases hut : u = t
    · subst hut
      rw [goto_pc_self]
      refine ⟨fun hshm => ?_, hbound⟩
      rw [hheap] at hshm
      cases hshm
    · rw [goto_pc_ne _ hut]
      refine (hs.pcs u).frame (fun _ _ => rfl) (fun _ _ _ => rfl) ?_
      intro o ho hcase
      have hne : o ≠ object := by
        rintro rfl
        rcases hcase with hshm | ⟨y, r, hu⟩
        · rw [hheap] at hshm
          cases hshm
        · exact hut (hs.frees t u x y o ret r ht hu)
      exact ⟨mem_freed.2.mpr ⟨ho, hne⟩, fun hl => mem_freed.1.mpr ⟨hl, hne⟩⟩

theorem Inv.clear (hs : Inv s) (ht : s.pc t = .destroyClear x object ret)
    (hrun : runDestroyClear s t = some s') : Inv s' := by
  obtain ⟨hended, hbound⟩ := hs.known ht
  have hlost : ¬ (isPointerInShm object = true ∧ object ∉ s.ended) := fun h => h.2 (hended h.1)
  obtain rfl : ({ s with word := put s.word x 0 } : State).goto t (.idle ret) = s' := by
    simpa [runDestroyClear, ht, hlost, State.goto] using hrun
  have hreset : Inv { s with word := put s.word x 0 } := by
    refine hs.reword hbound (by omega) fun u => ?_
    by_cases hut : u = t
    · subst hut
      rw [ht]
      exact ⟨hended, hbound⟩
    · refine (hs.pcs u).frame (fun y hy => put_ne _ _ ?_) (fun _ _ _ => rfl) (fun _ ho _ => ⟨ho, id⟩)
      rintro rfl
      exact hut (hs.alone t u y (by rw [ht]; rfl) (by simp [ht, Pc.storages]) hy)
  refine hreset.move (by simp [ht]) (by simp) (fun y hy => ?_) trivial
    (hreset.compatible ht (fun _ h => by cases h) (fun h => by cases h))
  by_cases hyx : y = x
  · exact .inr (by simp [hyx])
  · exact .inl (closing_clear (s := s) ht hy hyx)

/-! ## Every step -/

theorem not_exclusive_of_isIdle (h : pc.isIdle = true) : pc.closing = false ∧ pc.exclusive = false := by
  cases pc <;> first | exact ⟨rfl, rfl⟩ | cases h

theorem verdict_pulse (h : hook.verdict value = .pulse) :
    hook.kind = .cond ∧ checkAndroidSharedCond value = true := by
  cases hook <;>
    simp only [Hook.verdict, lockVerdict, unlockVerdict, rwlockUnlockVerdict, pulseVerdict] at h <;>
    grind [Hook.kind]

theorem verdict_static (hk : hook.kind = .cond) (h : hook.verdict value = .static) :
    checkAndroidSharedCond value = false := by
  cases hook <;> simp only [Hook.kind, reduceCtorEq] at hk <;>
    simp only [Hook.verdict, pulseVerdict] at h <;> grind

theorem verdict_pass (h : hook.verdict value = .pass) : 0xFFFF < value := by
  cases hook <;>
    simp only [Hook.verdict, lockVerdict, unlockVerdict, rwlockUnlockVerdict, pulseVerdict,
      androidTopAddrValue_eq] at h <;>
    grind

/-- A word is never above the shared segment, where Android keeps negative counters. -/
theorem Inv.shared_cond (hs : Inv s) (hc : ¬ s.Closing x) :
    checkAndroidSharedCond (s.word x) = true ↔ s.Flagged x := by
  have htop : s.word x ≤ hybrisShmMaskTop := by
    rcases hs.word x with h | h | h
    · exact absurd h hc
    · exact Nat.le_trans h (by decide)
    · exact (hs.live _ h.1).2
  simp [checkAndroidSharedCond, State.Flagged]
  omega

theorem Inv.enterHook (hs : Inv s) (ht : (s.pc t).isIdle = true) (hk : x.kind = hook.kind)
    (hposix : ∀ u, (s.pc u).exclusive = true → x ∉ (s.pc u).storages) : Inv (enterHook s t hook x) := by
  obtain ⟨hopen, -⟩ := not_exclusive_of_isIdle ht
  have hc : ¬ s.Closing x := fun ⟨u, hu, hxu⟩ => hposix u (Pc.exclusive_of_closing hu) hxu
  have hgo : ∀ pc : Pc, pc.closing = false → pc.exclusive = false →
      (∀ y ∈ pc.storages, y = x) → PcOk s pc → Inv (s.goto t pc) := by
    intro pc hcl hex hst hok
    refine hs.goto hopen hcl hok (fun u _ y hy hyu => ⟨hex, ?_⟩)
    by_contra h
    rw [hst y hy] at hyu
    exact hposix u (by simpa using h) hyu
  unfold BionicSync.enterHook
  cases hv : hook.verdict (s.word x) with
  | skip => exact hs.finish 0 rfl hopen
  | pulse =>
    obtain ⟨hcond, hshared⟩ := verdict_pulse hv
    exact hgo _ rfl rfl (by simp [Pc.storages]) ⟨hk.trans hcond, (hs.shared_cond hc).mp hshared⟩
  | static =>
    refine hgo _ rfl rfl (by simp [Pc.storages]) (fun hcond hflag => ?_)
    have hshared := verdict_static (hk.symm.trans hcond) hv
    rw [(hs.shared_cond hc).mpr hflag] at hshared
    cases hshared
  | pass => exact hgo _ rfl rfl (by simp [Pc.storages]) ⟨rfl, verdict_pass hv⟩

theorem Inv.runStatic (hs : Inv s) (h : runStatic s t p = some s') : Inv s' := by
  unfold BionicSync.runStatic at h
  split at h
  case h_2 => cases h
  case h_1 hook x hpc =>
    obtain ⟨r, hr, rfl⟩ := map_eq_some_iff.mp h
    obtain ⟨hr1, hholds, hpcs, -, -⟩ :=
      hs.getStatic (hs.not_closing hpc rfl mem_cons_self) (hs.known hpc) hr
    exact hr1.advance ((congrFun hpcs t).trans hpc) rfl rfl hholds rfl rfl

theorem pulseWord_flagged (hle : w ≤ 0xFFFF) (hodd : w % 2 = 1) (hne : w ≠ 1) :
    pulseWord w ≤ 0xFFFF ∧ pulseWord w % 2 = 1 := by
  simp only [pulseWord]
  split <;> omega

section
variable (hs : Inv s)
include hs

theorem Inv.runPulse (hgood : PulseOk s (s.pc t)) (h : runPulse s t = some s') : Inv s' := by
  unfold BionicSync.runPulse at h
  split at h
  case h_2 => cases h
  case h_1 hook x hpc =>
    cases h
    rw [hpc] at hgood
    obtain ⟨hk, hle, hodd⟩ := hs.known hpc
    obtain ⟨hle', hodd'⟩ := pulseWord_flagged hle hodd hgood
    have hflagged : ∀ y, State.Flagged { s with word := put s.word x (pulseWord (s.word x)) } y ↔
        s.Flagged y := by
      intro y
      by_cases hy : y = x
      · subst hy
        simp [State.Flagged, hle, hodd, hle', hodd']
      · simp [State.Flagged, put_ne _ _ hy]
    refine Inv.finish (hs.reword (hs.bound_none hle) hle' fun u => ?_) 0 hpc rfl
    exact (hs.pcs u).put rfl hle (fun y => (hflagged y).mp) (fun y _ => (hflagged y).mpr)
      (fun _ h => h) rfl rfl

theorem Inv.runCall (h : runCall s t ret = some s') : Inv s' := by
  unfold BionicSync.runCall at h
  split at h
  case h_2 => cases h
  case h_1 hook x object hpc =>
    cases h
    exact (hs.host (hs.known hpc) (hs.not_closing hpc rfl mem_cons_self)).finish _ hpc rfl

theorem Inv.runClockFailed {errno : Int} (h : runClockFailed s t errno = some s') : Inv s' := by
  unfold BionicSync.runClockFailed at h
  split at h
  case h_2 => cases h
  case h_1 hpc =>
    cases h
    exact hs.finish errno hpc rfl

theorem Inv.wait {c m : Storage} (ht : (s.pc t).isIdle = true) (hm : m.kind = .mutex)
    (hposix : ∀ u, (s.pc u).exclusive = true →
      c ∉ (s.pc u).storages ∧ m ∉ (s.pc u).storages) : Inv (s.goto t (.waitRead c m (s.word c))) := by
  obtain ⟨hopen, -⟩ := not_exclusive_of_isIdle ht
  have hc : ¬ s.Closing c := fun ⟨u, hu, hxu⟩ => (hposix u (Pc.exclusive_of_closing hu)).1 hxu
  refine hs.goto hopen rfl ⟨hm, .inr rfl, (hs.shared_cond hc).mpr⟩ (fun u _ y hy hyu => ⟨rfl, ?_⟩)
  by_contra hex
  have hout := hposix u (by simpa using hex)
  rcases mem_cons.mp hy with rfl | hy
  · exact hout.1 hyu
  · obtain rfl : y = m := by simpa using hy
    exact hout.2 hyu

theorem Inv.runWaitRead (h : runWaitRead s t = some s') : Inv s' := by
  unfold BionicSync.runWaitRead at h
  split at h
  case h_2 => cases h
  case h_1 c m cvalue hpc =>
    obtain ⟨hm, hread, hflag⟩ := hs.known hpc
    split at h
    case isTrue =>
      cases h
      exact hs.finish 0 hpc rfl
    case isFalse hshared =>
      cases h
      have hc : checkAndroidSharedCond cvalue ≠ true := fun hc => hshared (by simp [hc])
      exact hs.advance hpc rfl rfl ⟨hm, hread, fun hf => hc (hflag hf), .inr rfl⟩ rfl rfl

theorem Inv.runWaitCond (h : runWaitCond s t p = some s') : Inv s' := by
  unfold BionicSync.runWaitCond at h
  split at h
  case h_2 => cases h
  case h_1 c m cvalue mvalue hpc =>
    obtain ⟨hm, hread, hflag, hread'⟩ := hs.known hpc
    rw [androidTopAddrValue_eq] at h
    split at h
    case isTrue =>
      obtain ⟨r, hr, rfl⟩ := map_eq_some_iff.mp h
      obtain ⟨hr1, hholds, hpcs, -, hreads⟩ :=
        hs.getStatic (hs.not_closing hpc rfl mem_cons_self) (fun _ => hflag) hr
      exact hr1.advance ((congrFun hpcs t).trans hpc) rfl rfl ⟨hm, hholds, hreads m mvalue hread'⟩ rfl rfl
    case isFalse hlt =>
      cases h
      exact hs.advance hpc rfl rfl ⟨hm, ⟨hread.resolve_left hlt, by omega⟩, hread'⟩
        rfl rfl

theorem Inv.runWaitMutex (h : runWaitMutex s t p = some s') : Inv s' := by
  unfold BionicSync.runWaitMutex at h
  split at h
  case h_2 => cases h
  case h_1 c m realcond mvalue hpc =>
    obtain ⟨hm, hcond, hread⟩ := hs.known hpc
    rw [androidTopAddrValue_eq] at h
    split at h
    case isTrue =>
      obtain ⟨r, hr, rfl⟩ := map_eq_some_iff.mp h
      have hflag : m.kind = .cond → ¬ s.Flagged m := by
        intro hk
        rw [hm] at hk
        cases hk
      obtain ⟨hr1, hholds, hpcs, hkeep, -⟩ :=
        hs.getStatic (hs.not_closing hpc rfl (by simp [Pc.storages])) hflag hr
      exact hr1.advance ((congrFun hpcs t).trans hpc) rfl rfl ⟨hkeep c realcond hcond, hholds⟩ rfl rfl
    case isFalse hlt =>
      cases h
      exact hs.advance hpc rfl rfl ⟨hcond, hread.resolve_left hlt, by omega⟩ rfl rfl

theorem Inv.runWaitCall (h : runWaitCall s t ret = some s') : Inv s' := by
  unfold BionicSync.runWaitCall at h
  split at h
  case h_2 => cases h
  case h_1 c m realcond realmutex hpc =>
    cases h
    obtain ⟨hcond, hmutex⟩ := hs.known hpc
    have hc : ¬ s.Closing c := hs.not_closing hpc rfl mem_cons_self
    have hm : ¬ s.Closing m := hs.not_closing hpc rfl (by simp [Pc.storages])
    exact ((hs.host hcond hc).host hmutex hm).finish ret hpc rfl

end

/-- No thread is in a hook on the storage. -/
def State.Free (s : State) (x : Storage) : Prop := ∀ u, x ∉ (s.pc u).storages

theorem State.Free.not_closing (h : s.Free x) : ¬ s.Closing x :=
  fun ⟨u, _, hu⟩ => h u hu

theorem State.Free.ne (h : s.Free x) (hy : y ∈ (s.pc u).storages) : y ≠ x := by
  rintro rfl
  exact h u hy

theorem Inv.unbind (hs : Inv s) (hx : s.Free x) : Inv { s with bound := put s.bound x none } where
  faults := hs.faults
  live := hs.live
  ended := hs.ended
  freeing := hs.freeing
  word := hs.word
  apart := hs.apart
  bound y o h := by
    have hy : y ≠ x := by
      rintro rfl
      simp at h
    exact hs.bound y o (by simpa [put_ne _ _ hy] using h)
  alone := hs.alone
  frees := hs.frees
  pcs u := (hs.pcs u).frame (fun _ _ => rfl) (fun _ hy _ => put_ne _ _ (hx.ne hy))
    (fun _ h _ => ⟨h, id⟩)

/-- A storage no hook is in goes back to an initializer. -/
theorem Inv.zero (hs : Inv s) (hx : s.Free x) (hb : s.bound x = none) :
    Inv { s with word := put s.word x 0 } :=
  hs.reword hb (by omega) fun u =>
    (hs.pcs u).frame (fun _ hy => put_ne _ _ (hx.ne hy)) (fun _ _ _ => rfl) (fun _ h _ => ⟨h, id⟩)

/-- A thread enters an `init` or a `destroy` of a storage no hook is in. -/
theorem Inv.enterAlone (hs : Inv s) (ht : (s.pc t).closing = false) (hx : s.Free x)
    (hpc : pc.closing = false) (hst : pc.storages = [x]) (hok : PcOk s pc) : Inv (s.goto t pc) := by
  refine hs.goto ht hpc hok (fun u _ y hy hyu => ?_)
  rw [hst] at hy
  exact absurd (mem_singleton.mp hy) (hx.ne hyu)

theorem allocOk_range {pshared : Bool} (h : s.AllocOk p pshared) : 0xFFFF < p ∧ p ≤ hybrisShmMaskTop := by
  cases pshared with
  | true =>
    have h' : hybrisShmMask ≤ p ∧ p ≤ hybrisShmMaskTop := by
      simpa [State.AllocOk, isPointerInShm] using h
    have : (0xFFFF : Nat) < hybrisShmMask := by decide
    omega
  | false =>
    obtain ⟨hlow, hmask, -⟩ := h
    have := shmMask_le
    exact ⟨hlow, by omega⟩

theorem Inv.runInit (hs : Inv s) {pshared : Bool} {object : Option Nat}
    (ht : (s.pc t).isIdle = true) (hx : s.Free x) (hgood : WellBehaved s (.init t x pshared object))
    (h : runInit s t x pshared object = some s') : Inv s' := by
  obtain ⟨hopen, -⟩ := not_exclusive_of_isIdle ht
  cases object with
  | none =>
    cases h
    have hzero := (hs.unbind hx).zero hx (by simp)
    exact hzero.finish enomem rfl hopen
  | some p =>
    obtain ⟨halloc, h⟩ := ite_none_right_eq_some.mp h
    cases h
    obtain ⟨hlow, htop⟩ := allocOk_range halloc
    have hnew : p ∉ s.live := by
      cases pshared with
      | true => exact hgood
      | false => exact halloc.2.2
    have hended : ∀ o, o ∈ s.ended.filter (· ≠ p) ↔ o ∈ s.ended := by
      intro o
      have : o ∈ s.ended → o ≠ p := fun ho he => hnew (he ▸ hs.ended o ho)
      simpa using this
    refine Inv.enterAlone (hs.fresh hx.not_closing hnew hlow htop hended ?_ ?_) hopen hx rfl rfl
      ⟨by simp, hlow⟩
    · intro y o hb
      have hy : y ≠ x := by
        rintro rfl
        simp at hb
      exact ⟨hy, by simpa [put_ne _ _ hy] using hb⟩
    · intro u
      exact (hs.pcs u).frame (fun _ hy => put_ne _ _ (hx.ne hy))
        (fun _ hy _ => put_ne _ _ (hx.ne hy))
        (fun o ho _ => ⟨(hended o).mpr ho, mem_cons_of_mem p⟩)

theorem Inv.runInitCall (hs : Inv s) (h : runInitCall s t ret = some s') : Inv s' := by
  unfold BionicSync.runInitCall at h
  split at h
  case h_2 => cases h
  case h_1 x object hpc =>
    cases h
    exact (hs.host (hs.known hpc) (hs.not_closing hpc rfl mem_cons_self)).finish ret hpc rfl

/-- A destroy that may start and finds no unused initializer finds an object. -/
theorem destroyOk_object {k : Kind} (h : DestroyOk value k) (hunused : unusedInitializer k value = false) :
    0xFFFF < value ∧ (k = .rwlock → isPointerInShm value = true) := by
  cases k with
  | mutex =>
    have h' : checkAndroidSharedMutex value = false := h
    simp [unusedInitializer, h'] at hunused
    exact ⟨hunused, fun hk => by cases hk⟩
  | cond =>
    have h' : checkAndroidSharedCond value = false := h
    simp [unusedInitializer, h'] at hunused
    exact ⟨hunused, fun hk => by cases hk⟩
  | rwlock =>
    simp only [unusedInitializer, androidTopAddrValue_eq, decide_eq_false_iff_not] at hunused
    exact ⟨by omega, fun _ => h.resolve_left (by simpa using hunused)⟩

theorem unusedInitializer_le {k : Kind} (h : unusedInitializer k value = true) : value ≤ 0xFFFF := by
  cases k <;> simp [unusedInitializer] at h <;> omega

theorem Inv.runDestroy (hs : Inv s) (ht : (s.pc t).isIdle = true) (hx : s.Free x)
    (hgood : DestroyOk (s.word x) x.kind) : Inv (runDestroy s t x) := by
  obtain ⟨hopen, -⟩ := not_exclusive_of_isIdle ht
  unfold BionicSync.runDestroy
  split
  case isTrue hunused =>
    exact (hs.zero hx (hs.bound_none (unusedInitializer_le hunused))).finish 0 rfl hopen
  case isFalse hunused =>
    obtain ⟨hlt, hshm⟩ := destroyOk_object hgood (by simpa using hunused)
    exact hs.enterAlone hopen hx rfl rfl ⟨⟨rfl, hlt⟩, hshm⟩

/-- After a host error the hooks return at once, a condition's excepted. -/
theorem afterDestroy_refused (hret : ret ≠ 0) (hgood : DestroyResultOk ret x.kind)
    (hshm : x.kind = .rwlock → isPointerInShm object = true) : afterDestroy x object ret = .idle ret := by
  cases hkind : x.kind with
  | mutex => simp [afterDestroy, hkind, hret]
  | cond =>
    rw [hkind] at hgood
    exact absurd hgood hret
  | rwlock => simp [afterDestroy, hkind, hshm hkind]

theorem Inv.runDestroyCall (hs : Inv s) (hgood : DestroyCallOk ret (s.pc t))
    (h : runDestroyCall s t ret = some s') : Inv s' := by
  unfold BionicSync.runDestroyCall at h
  split at h
  case h_2 => cases h
  case h_1 x object hpc =>
    cases h
    rw [hpc] at hgood
    obtain ⟨hholds, hshm⟩ := hs.known hpc
    have hhost := hs.host hholds (hs.not_closing hpc rfl mem_cons_self)
    by_cases hret : ret = 0
    · subst hret
      have hk : x.kind ≠ .rwlock := by
        intro hk
        simp [DestroyCallOk, hk, DestroyResultOk] at hgood
      have hafter : afterDestroy x object 0 = closingPc x object := by
        cases hkind : x.kind with
        | rwlock => exact absurd hkind hk
        | _ => simp [afterDestroy, closingPc, hkind]
      rw [hafter]
      exact hhost.endObject hpc hholds hk
    · rw [afterDestroy_refused hret hgood hshm]
      simp only [State.endObject, if_neg hret]
      exact hhost.finish ret hpc rfl

theorem Inv.runDestroyFree (hs : Inv s) (h : runDestroyFree s t = some s') : Inv s' := by
  cases hpc : s.pc t with
  | destroyFree x object ret => exact hs.free hpc h
  | _ => simp [BionicSync.runDestroyFree, hpc] at h

theorem Inv.runDestroyClear (hs : Inv s) (h : runDestroyClear s t = some s') : Inv s' := by
  cases hpc : s.pc t with
  | destroyClear x object ret => exact hs.clear hpc h
  | _ => simp [BionicSync.runDestroyClear, hpc] at h

theorem Inv.step (hs : Inv s) (hok : Posix s a ∧ WellBehaved s a) (h : step s a = some s') : Inv s' := by
  obtain ⟨hposix, hgood⟩ := hok
  cases a with
  | hook t hook x =>
    obtain ⟨⟨ht, hk⟩, rfl⟩ : (_ ∧ _) ∧ _ = s' := by simpa [BionicSync.step] using h
    exact hs.enterHook ht hk hposix
  | static t p => exact hs.runStatic h
  | pulse t => exact hs.runPulse hgood h
  | call t ret => exact hs.runCall h
  | clockFailed t errno => exact hs.runClockFailed h
  | wait t c m =>
    obtain ⟨⟨ht, -, hm⟩, rfl⟩ : (_ ∧ _ ∧ _) ∧ _ = s' := by simpa [BionicSync.step] using h
    exact hs.wait ht hm hposix
  | waitRead t => exact hs.runWaitRead h
  | waitCond t p => exact hs.runWaitCond h
  | waitMutex t p => exact hs.runWaitMutex h
  | waitCall t ret => exact hs.runWaitCall h
  | init t x pshared object =>
    obtain ⟨ht, hrun⟩ : _ ∧ _ = some s' := by simpa [BionicSync.step] using h
    exact hs.runInit ht hposix hgood hrun
  | initCall t ret => exact hs.runInitCall h
  | destroy t x =>
    obtain ⟨ht, rfl⟩ : _ ∧ _ = s' := by simpa [BionicSync.step] using h
    exact hs.runDestroy ht hposix hgood
  | destroyCall t ret => exact hs.runDestroyCall hgood h
  | destroyFree t => exact hs.runDestroyFree h
  | destroyClear t => exact hs.runDestroyClear h

/-- A destroy the host refused leaves the object with its storage. -/
theorem Inv.destroy_refused (hs : Inv s) (hpc : s.pc t = .destroyCall x object) (hret : ret ≠ 0)
    (hgood : DestroyResultOk ret x.kind) (h : BionicSync.runDestroyCall s t ret = some s') :
    s'.pc t = .idle ret ∧ s'.word x = object ∧ s'.Usable object := by
  obtain ⟨hholds, hshm⟩ := hs.known hpc
  have husable : s.Usable object := hs.usable hholds (hs.not_closing hpc rfl mem_cons_self)
  have hs' : s' = (s.host x object).goto t (.idle ret) := by
    simpa [BionicSync.runDestroyCall, hpc, State.endObject, hret,
      afterDestroy_refused hret hgood hshm] using h.symm
  subst hs'
  exact ⟨goto_pc_self _ _ _, hholds.1, husable⟩

/-! ## Runs of one thread -/

def Action.thread : Action → Nat
  | .hook t _ _ | .static t _ | .pulse t | .call t _ | .clockFailed t _ | .wait t _ _
  | .waitRead t | .waitCond t _ | .waitMutex t _ | .waitCall t _ | .init t _ _ _
  | .initCall t _ | .destroy t _ | .destroyCall t _ | .destroyFree t | .destroyClear t => t

theorem getStatic_pc {r : State × Nat} (h : getStatic s x p = some r) : r.1.pc = s.pc := by
  unfold getStatic at h
  split at h
  · split at h
    · cases h
      rfl
    · cases h
  · cases h
    rfl

/-- A step moves its own thread and no other. -/
theorem step_goto (h : step s a = some s') :
    ∃ (v : State) (pc : Pc), s' = v.goto a.thread pc ∧ v.pc = s.pc := by
  cases a with
  | hook t hook x =>
    obtain ⟨-, rfl⟩ : _ ∧ _ = s' := by simpa [step] using h
    unfold enterHook
    split <;> exact ⟨_, _, rfl, rfl⟩
  | static t p =>
    simp only [step, runStatic] at h
    split at h
    · obtain ⟨r, hr, rfl⟩ := map_eq_some_iff.mp h
      exact ⟨_, _, rfl, getStatic_pc hr⟩
    · cases h
  | waitRead t =>
    simp only [step, runWaitRead] at h
    split at h
    · split at h <;> (cases h; exact ⟨_, _, rfl, rfl⟩)
    · cases h
  | waitCond t p | waitMutex t p =>
    simp only [step, runWaitCond, runWaitMutex] at h
    split at h
    · split at h
      · obtain ⟨r, hr, rfl⟩ := map_eq_some_iff.mp h
        exact ⟨_, _, rfl, getStatic_pc hr⟩
      · cases h
        exact ⟨_, _, rfl, rfl⟩
    · cases h
  | wait t c m =>
    obtain ⟨-, rfl⟩ : _ ∧ _ = s' := by simpa [step] using h
    exact ⟨_, _, rfl, rfl⟩
  | init t x pshared object =>
    obtain ⟨-, hrun⟩ : _ ∧ _ = some s' := by simpa [step] using h
    cases object with
    | none =>
      cases hrun
      exact ⟨_, _, rfl, rfl⟩
    | some p =>
      simp only [runInit] at hrun
      split at hrun
      · cases hrun
        exact ⟨_, _, rfl, rfl⟩
      · cases hrun
  | destroy t x =>
    obtain ⟨-, rfl⟩ : _ ∧ _ = s' := by simpa [step] using h
    unfold runDestroy
    split <;> exact ⟨_, _, rfl, rfl⟩
  | destroyCall t ret =>
    simp only [step, runDestroyCall] at h
    split at h
    · cases h
      refine ⟨_, _, rfl, ?_⟩
      unfold State.endObject
      split <;> rfl
    · cases h
  | _ =>
    simp only [step, runPulse, runCall, runClockFailed, runWaitCall, runInitCall,
      runDestroyFree, runDestroyClear] at h
    split at h
    · cases h
      exact ⟨_, _, rfl, rfl⟩
    · cases h

theorem storages_of_isIdle (h : pc.isIdle = true) : pc.storages = [] := by
  cases pc <;> first | rfl | cases h

/-- A step taken while every other thread is idle keeps to POSIX. -/
theorem posix_of_idle (h : step s a = some s')
    (hidle : ∀ u, u ≠ a.thread → (s.pc u).isIdle = true) : Posix s a := by
  have hall : (s.pc a.thread).isIdle = true → ∀ u, (s.pc u).storages = [] := by
    intro ht u
    by_cases hu : u = a.thread
    · rw [hu]
      exact storages_of_isIdle ht
    · exact storages_of_isIdle (hidle u hu)
  cases a with
  | hook _ _ _ | wait _ _ _ =>
    obtain ⟨⟨ht, -⟩, -⟩ : (_ ∧ _) ∧ _ = s' := by simpa [step] using h
    exact fun u _ => by simp [hall ht u]
  | init t x pshared object =>
    obtain ⟨ht, -⟩ : _ ∧ _ = some s' := by simpa [step] using h
    exact fun u => by simp [hall ht u]
  | destroy t x =>
    obtain ⟨ht, -⟩ : _ ∧ _ = s' := by simpa [step] using h
    exact fun u => by simp [hall ht u]
  | _ => exact trivial

/-- The rule POSIX sets is kept by every run of a single thread. -/
theorem posix_of_single (t : Nat) (actions : List Action) (s u : State)
    (hidle : ∀ v, v ≠ t → (s.pc v).isIdle = true) (hthread : ∀ a ∈ actions, a.thread = t)
    (hrun : Transition.run step s actions = some u) : Transition.Along step Posix s actions := by
  induction actions generalizing s with
  | nil => trivial
  | cons a rest ih =>
    obtain ⟨s', hstep, hrest⟩ := Transition.run_cons_some hrun
    have ha : a.thread = t := hthread a mem_cons_self
    refine ⟨posix_of_idle hstep (ha ▸ hidle), fun s'' h => ?_⟩
    obtain rfl : s' = s'' := Option.some.inj (hstep.symm.trans h)
    refine ih s' (fun v hv => ?_) (fun b hb => hthread b (mem_cons_of_mem a hb)) hrest
    obtain ⟨w, pc, rfl, hw⟩ := step_goto hstep
    rw [ha, goto_pc_ne pc hv, hw]
    exact hidle v hv

/-- In every run that keeps to POSIX and whose steps are well behaved, each storage is bound to
at most one live host object, and a destroy the host refuses leaves it there. -/
theorem storage_keeps_its_object (word : Storage → Nat) (hword : ∀ x, word x ≤ 0xFFFF)
    (actions : List Action) (s : State)
    (hok : Transition.Along step (fun s a => Posix s a ∧ WellBehaved s a) (start word) actions)
    (hrun : Transition.run step (start word) actions = some s) :
    Good s ∧ ∀ t x object ret s', s.pc t = .destroyCall x object → ret ≠ 0 →
      WellBehaved s (.destroyCall t ret) → step s (.destroyCall t ret) = some s' →
      s'.pc t = .idle ret ∧ s'.word x = object ∧ s'.Usable object := by
  have hs : Inv s := Transition.run_invariant_along (fun _ _ _ hs hok h => hs.step hok h)
    actions (start word) s (inv_start word hword) hok hrun
  refine ⟨hs.good, fun t x object ret s' hpc hret hgood h => ?_⟩
  have hgood' : DestroyResultOk ret x.kind := by
    have hcall : DestroyCallOk ret (s.pc t) := hgood
    rwa [hpc] at hcall
  exact hs.destroy_refused hpc hret hgood' h

/-- A thread locks a statically initialized mutex, fails to destroy it while it is locked,
unlocks it and is about to destroy it. -/
def refusedDestroy (m : Storage) : List Action :=
  [.hook 0 .mutexLock m, .static 0 0x10000, .call 0 0, .destroy 0 m, .destroyCall 0 ebusy,
    .hook 0 .mutexUnlock m, .call 0 0, .destroy 0 m]

theorem storage_keeps_its_object_refused :
    ∃ s, Transition.run step (start fun _ => 0x4000) (refusedDestroy ⟨.mutex, 1⟩) = some s ∧
      Good s ∧ s.bound ⟨.mutex, 1⟩ = some 0x10000 := by
  refine ⟨_, rfl, (storage_keeps_its_object (fun _ => 0x4000) (fun _ => by decide)
    (refusedDestroy ⟨.mutex, 1⟩) _ (Transition.Along.and ?_ ?_) rfl).1, rfl⟩
  · exact posix_of_single 0 _ _ _ (fun _ _ => rfl) (by decide) rfl
  · refine ⟨trivial, fun _ h => ?_⟩
    cases h
    refine ⟨trivial, fun _ h => ?_⟩
    cases h
    refine ⟨trivial, fun _ h => ?_⟩
    cases h
    refine ⟨?_, fun _ h => ?_⟩
    · change checkAndroidSharedMutex 0x10000 = false
      decide
    cases h
    refine ⟨trivial, fun _ h => ?_⟩
    cases h
    refine ⟨trivial, fun _ h => ?_⟩
    cases h
    refine ⟨trivial, fun _ h => ?_⟩
    cases h
    refine ⟨?_, fun _ h => ?_⟩
    · change checkAndroidSharedMutex 0x10000 = false
      decide
    trivial

/-- A run from storages that all hold `word`, within POSIX, that ends in a bad state. -/
def Breaks (word : Nat) (actions : List Action) : Prop :=
  Transition.Along step Posix (start fun _ => word) actions ∧
    ∃ s, Transition.run step (start fun _ => word) actions = some s ∧ ¬ Good s

theorem breaks_of_fault {word : Nat} {actions : List Action}
    (hrun : Transition.run step (start fun _ => word) actions = some s)
    (hthread : ∀ a ∈ actions, a.thread = 0) (hfault : s.faults ≠ []) : Breaks word actions :=
  ⟨posix_of_single 0 actions _ s (fun _ _ => rfl) hthread hrun, s, hrun,
    fun h => hfault h.faults⟩

/-- A rwlock is used, destroyed and used again. -/
def rwlockReused (x : Storage) : List Action :=
  [.hook 0 .rwlockRdlock x, .static 0 0x10000, .call 0 0, .hook 0 .rwlockUnlock x, .call 0 0,
    .destroy 0 x, .destroyCall 0 0, .destroyFree 0, .hook 0 .rwlockRdlock x, .static 0 0x20000,
    .call 0 0]

/-- A condition is signalled and its destroy refused by the host. -/
def condRefused (x : Storage) : List Action :=
  [.hook 0 .condSignal x, .static 0 0x10000, .call 0 0, .destroy 0 x, .destroyCall 0 ebusy,
    .destroyFree 0, .destroyClear 0]

/-- A mutex or a condition is destroyed unused. -/
def destroyed (x : Storage) : List Action := [.destroy 0 x, .destroyCall 0 0]

/-- A shared condition is signalled twice. -/
def pulsedTwice (x : Storage) : List Action :=
  [.hook 0 .condSignal x, .pulse 0, .hook 0 .condSignal x, .call 0 0]

/-- The freed rwlock is passed to the host again; the condition the host refused to destroy is
freed; shared-flag initializers are destroyed as if they were pointers; the counter of a shared
condition runs below zero and becomes one. -/
theorem storage_loses_its_object :
    Breaks 0 (rwlockReused ⟨.rwlock, 1⟩) ∧ Breaks 0 (condRefused ⟨.cond, 1⟩) ∧
      Breaks 0x2000 (destroyed ⟨.mutex, 1⟩) ∧ Breaks 1 (destroyed ⟨.cond, 1⟩) ∧
      Breaks 1 (pulsedTwice ⟨.cond, 1⟩) :=
  ⟨breaks_of_fault rfl (by decide) (by decide), breaks_of_fault rfl (by decide) (by decide),
    breaks_of_fault rfl (by decide) (by decide), breaks_of_fault rfl (by decide) (by decide),
    breaks_of_fault rfl (by decide) (by decide)⟩

end BionicSync
