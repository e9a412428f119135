import Libhybris.BinarySearch
import Libhybris.Transition

/-!
# Overridden EGL functions

`eglGetProcAddress` of `egl.c`: the first call sorts the table of overrides and every call searches
it. The flag says that the table is sorted before the sort begins.
-/
namespace EglOverrides

open BinarySearch Transition List

abbrev Str := List UInt8

def bytes (s : String) : Str := s.toList.map fun c => c.toNat.toUInt8

/-- A function is given by its symbol. -/
structure FuncNamePair where
  name : Str
  func : String
deriving DecidableEq

def overrideSamename (function : String) : FuncNamePair := ⟨bytes function, function⟩

def overrideMy (function : String) : FuncNamePair := ⟨bytes function, "_my_" ++ function⟩

def overrideTo (source function : String) : FuncNamePair := ⟨bytes source, function⟩

/-- `_eglHybrisOverrideFunctions`. -/
def overrideFunctions : List FuncNamePair :=
  ["eglCreateImageKHR", "eglSwapBuffersWithDamageEXT", "glEGLImageTargetTexture2DOES",
    "glEGLImageTargetRenderbufferStorageOES", "eglDestroyImageKHR"].map overrideMy ++
  ["eglGetError", "eglGetDisplay", "eglGetPlatformDisplay", "eglInitialize", "eglTerminate",
    "eglCreateWindowSurface", "eglCreatePlatformWindowSurface", "eglCreatePlatformPixmapSurface",
    "eglCreateImage",
    "eglDestroyImage", "eglCreateSync", "eglDestroySync", "eglClientWaitSync", "eglGetSyncAttrib",
    "eglWaitSync",
    "eglDestroySurface", "eglSwapInterval", "eglCreateContext", "eglSwapBuffers",
    "eglGetProcAddress"].map overrideSamename ++
  [overrideTo "eglGetPlatformDisplayEXT" "eglGetPlatformDisplay",
    overrideMy "eglCreatePlatformWindowSurfaceEXT",
    overrideTo "eglCreatePlatformPixmapSurfaceEXT" "eglCreatePixmapSurface",
    overrideMy "eglQueryDeviceStringEXT",
    overrideMy "eglQueryDisplayAttribEXT"]

/-- Where a thread is. A call without an override is answered by a library or the driver. -/
inductive Pc where
  | idle
  | check (name : Str)
  | mark (name : Str)
  | sort (name : Str)
  | search (name : Str) (l u : Nat)
  | found (name : Str) (p : Nat)
  | answered (name : Str) (func : Option String)
deriving DecidableEq

/-- The state of `n` threads. -/
structure State (n : Nat) where
  table : List FuncNamePair := overrideFunctions
  sorted : Bool := false
  pc : Fin n → Pc := fun _ => .idle

variable {n : Nat}

def State.goto (s : State n) (t : Fin n) (pc : Pc) : State n := { s with pc := Function.update s.pc t pc }

/-- One turn of the loop of `bsearch`, with the entry in the middle. -/
def probe (name : Str) (l u : Nat) (e : FuncNamePair) : Pc :=
  match compare name e.name with
  | .lt => .search name l ((l + u) / 2)
  | .gt => .search name ((l + u) / 2 + 1) u
  | .eq => .found name ((l + u) / 2)

instance (s : State n) : Decidable (Sorted FuncNamePair.name s.table) :=
  inferInstanceAs (Decidable (Pairwise _ _))

/-- The next step of a call. `qsort` ends when the table is sorted. -/
def advance (s : State n) (t : Fin n) : Pc → Option (State n)
  | .check name => some (s.goto t (if s.sorted then .search name 0 s.table.length else .mark name))
  | .mark name => some { s.goto t (.sort name) with sorted := true }
  | .sort name =>
    if Sorted FuncNamePair.name s.table then some (s.goto t (.search name 0 s.table.length)) else none
  | .search name l u =>
    if l < u then (s.table[(l + u) / 2]?).map fun e => s.goto t (probe name l u e)
    else some (s.goto t (.answered name none))
  | .found name p => (s.table[p]?).map fun e => s.goto t (.answered name (some e.func))
  | _ => none

inductive Action (n : Nat) where
  | call (t : Fin n) (name : Str)
  | advance (t : Fin n)
  /-- `qsort` exchanges two entries -/
  | swap (t : Fin n) (i j : Nat)

def swap (table : List FuncNamePair) (i j : Nat) : Option (List FuncNamePair) :=
  (table[i]?).bind fun a => (table[j]?).map fun b => (table.set i b).set j a

def step (s : State n) : Action n → Option (State n)
  | .call t name =>
    match s.pc t with
    | .idle | .answered _ _ => some (s.goto t (.check name))
    | _ => none
  | .advance t => advance s t (s.pc t)
  | .swap t i j =>
    match s.pc t with
    | .sort _ => (swap s.table i j).map fun table => { s with table }
    | _ => none

/-- Between the test of the flag and the end of the sort. -/
def Pc.sorts : Pc → Bool
  | .mark _ | .sort _ => true
  | _ => false

/-- No other call goes on while one is to sort or sorts. -/
def Alone (s : State n) : Action n → Prop
  | .advance t => ∀ u, u ≠ t → (s.pc u).sorts = false
  | _ => True

/-- The table is sorted and stays so. -/
structure Ready (s : State n) : Prop where
  flag : s.sorted = true
  table : Sorted FuncNamePair.name s.table
  still : ∀ t, (s.pc t).sorts = false

/-- The function that the table pairs with a name. -/
def paired (name : Str) : Option String :=
  (overrideFunctions.find? fun e => e.name = name).map FuncNamePair.func

def Here (s : State n) : Pc → Prop
  | .sort _ => s.sorted = true
  | .search name l u =>
    Ready s ∧ u ≤ s.table.length ∧ ∀ q e, s.table[q]? = some e → e.name = name → l ≤ q ∧ q < u
  | .found name p => Ready s ∧ ∃ e, s.table[p]? = some e ∧ e.name = name
  | .answered name func => func = paired name
  | _ => True

structure Inv (s : State n) : Prop where
  perm : s.table.Perm overrideFunctions
  done : s.sorted = true → Sorted FuncNamePair.name s.table ∨ ∃ t, (s.pc t).sorts = true
  here : ∀ t, Here s (s.pc t)

variable {s s' : State n} {t : Fin n} {pc : Pc} {name : Str} {e : FuncNamePair} {l u : Nat}
  {func : Option String}

theorem paired_of_mem : ∀ e ∈ overrideFunctions, paired e.name = some e.func := by decide +kernel

theorem paired_eq_none (h : ∀ e ∈ overrideFunctions, e.name ≠ name) : paired name = none := by
  simpa [paired] using h

theorem Here.frame (h : Here s pc) (hready : Ready s → Ready s' ∧ s'.table = s.table)
    (hflag : s.sorted = true → s'.sorted = true) : Here s' pc := by
  cases pc with
  | sort name => exact hflag h
  | search name l u =>
    obtain ⟨hs', htable⟩ := hready h.1
    exact ⟨hs', htable ▸ h.2⟩
  | found name p =>
    obtain ⟨hs', htable⟩ := hready h.1
    exact ⟨hs', htable ▸ h.2⟩
  | answered name func => exact h
  | _ => trivial

/-- Something about each thread, after one of them went on. -/
theorem goto_forall {P : Pc → Prop} (hpc : P pc) (hother : ∀ v, v ≠ t → P (s.pc v)) (v : Fin n) :
    P ((s.goto t pc).pc v) := by
  by_cases hvt : v = t
  · simpa [State.goto, hvt] using hpc
  · simpa [State.goto, hvt] using hother v hvt

theorem Ready.goto (hflag : s.sorted = true) (htable : Sorted FuncNamePair.name s.table)
    (hpc : pc.sorts = false) (hother : ∀ v, v ≠ t → (s.pc v).sorts = false) : Ready (s.goto t pc) :=
  ⟨hflag, htable, goto_forall (P := fun pc => pc.sorts = false) hpc hother⟩

theorem Inv.goto (h : Inv s) (hold : Sorted FuncNamePair.name s.table ∨ (s.pc t).sorts = false)
    (hpc : pc.sorts = false) (hhere : Here (s.goto t pc) pc) : Inv (s.goto t pc) where
  perm := h.perm
  done hsorted := by
    rcases h.done hsorted with htable | ⟨v, hv⟩
    · exact .inl htable
    · refine hold.imp_right fun hnot => ⟨v, ?_⟩
      have hvt : v ≠ t := by
        rintro rfl
        simp [hnot] at hv
      simpa [State.goto, hvt] using hv
  here := goto_forall hhere fun v _ => (h.here v).frame
    (fun hready => ⟨.goto hready.flag hready.table hpc fun v _ => hready.still v, rfl⟩) id

theorem Inv.enter (h : Inv s) (hflag : s.sorted = true) (htable : Sorted FuncNamePair.name s.table)
    (halone : Alone s (.advance t)) : Inv (s.goto t (.search name 0 s.table.length)) := by
  refine h.goto (.inl htable) rfl ⟨.goto hflag htable rfl halone, le_rfl, fun q e hq _ => ?_⟩
  exact ⟨Nat.zero_le q, (List.getElem?_eq_some_iff.mp hq).1⟩

/-- A thread is to sort or sorts: nobody searches. -/
theorem Inv.sorting (h : Inv s) (hnot : ¬Ready s) (hperm : s'.table.Perm overrideFunctions)
    (hpcs : s'.pc = (s.goto t pc).pc) (hpc : pc.sorts = true) (hflag : s.sorted = true → s'.sorted = true)
    (hhere : Here s' pc) : Inv s' where
  perm := hperm
  done _ := .inr ⟨t, by simpa [hpcs, State.goto] using hpc⟩
  here := by
    rw [hpcs]
    exact goto_forall hhere fun v _ => (h.here v).frame (fun hready => absurd hready hnot) hflag

theorem Here.probe (h : Here s (.search name l u)) (hready : Ready s') (htable : s'.table = s.table)
    (hlt : l < u) (he : s.table[(l + u) / 2]? = some e) : Here s' (probe name l u e) := by
  obtain ⟨⟨-, hsorted, -⟩, hu, hin⟩ := h
  have hmono := hsorted.monotone name
  rw [EglOverrides.probe]
  split
  case h_1 hc =>
    refine ⟨hready, by rw [htable]; omega, fun q e' hq hname => ?_⟩
    rw [htable] at hq
    have hbefore := hmono.lt_before he hq hc (by simp [hname])
    exact ⟨(hin q e' hq hname).1, hbefore⟩
  case h_2 hc =>
    refine ⟨hready, by rw [htable]; omega, fun q e' hq hname => ?_⟩
    rw [htable] at hq
    have hbehind := hmono.gt_behind he hq hc (by simp [hname])
    exact ⟨hbehind, (hin q e' hq hname).2⟩
  case h_3 hc => exact ⟨hready, e, htable ▸ he, (Std.LawfulEqOrd.eq_of_compare hc).symm⟩

theorem Inv.advance (h : Inv s) (halone : Alone s (.advance t)) (hpc : s.pc t = pc)
    (hstep : advance s t pc = some s') : Inv s' := by
  have hhere : Here s pc := hpc ▸ h.here t
  cases pc with
  | idle | answered _ _ => cases hstep
  | check name =>
    cases hstep
    split
    case isTrue hflag =>
      refine h.enter hflag ((h.done hflag).resolve_right ?_) halone
      rintro ⟨v, hv⟩
      by_cases hvt : v = t
      · simp [hvt, hpc, Pc.sorts] at hv
      · simp [halone v hvt] at hv
    case isFalse hflag => exact h.sorting (fun hready => hflag hready.flag) h.perm rfl rfl id trivial
  | mark name =>
    cases hstep
    refine h.sorting (fun hready => ?_) h.perm rfl rfl (fun _ => rfl) rfl
    simpa [hpc, Pc.sorts] using hready.still t
  | sort name =>
    obtain ⟨htable, hstep⟩ := Option.ite_none_right_eq_some.mp hstep
    cases hstep
    exact h.enter hhere htable halone
  | search name l u =>
    rw [EglOverrides.advance] at hstep
    split at hstep
    case isTrue hlt =>
      obtain ⟨e, he, rfl⟩ := Option.map_eq_some_iff.mp hstep
      have hsorts : (probe name l u e).sorts = false := by
        rw [probe]
        split <;> rfl
      exact h.goto (.inl hhere.1.table) hsorts
        (hhere.probe (.goto hhere.1.flag hhere.1.table hsorts halone) rfl hlt he)
    case isFalse hlt =>
      cases hstep
      refine h.goto (.inl hhere.1.table) rfl (paired_eq_none fun e he hname => ?_).symm
      obtain ⟨q, hq⟩ := mem_iff_getElem?.mp (h.perm.mem_iff.mpr he)
      have hin := hhere.2.2 q e hq hname
      omega
  | found name p =>
    obtain ⟨e, he, rfl⟩ := Option.map_eq_some_iff.mp hstep
    obtain ⟨hready, e', he', rfl⟩ := hhere
    cases he.symm.trans he'
    exact h.goto (.inl hready.table) rfl (paired_of_mem e (h.perm.mem_iff.mp (mem_of_getElem? he))).symm

theorem Inv.step {a : Action n} (h : Inv s) (halone : Alone s a) (hstep : step s a = some s') : Inv s' := by
  cases a with
  | call t name =>
    rw [EglOverrides.step] at hstep
    split at hstep
    case h_1 hpc | h_2 hpc =>
      cases hstep
      exact h.goto (.inr (by simp [hpc, Pc.sorts])) rfl trivial
    case h_3 => cases hstep
  | advance t => exact h.advance halone rfl hstep
  | swap t i j =>
    rw [EglOverrides.step] at hstep
    split at hstep
    case h_1 name hpc =>
      obtain ⟨table, hswap, hstep⟩ := Option.map_eq_some_iff.mp hstep
      cases hstep
      obtain ⟨a, ha, hswap⟩ := Option.bind_eq_some_iff.mp hswap
      obtain ⟨b, hb, rfl⟩ := Option.map_eq_some_iff.mp hswap
      obtain ⟨hi, rfl⟩ := List.getElem?_eq_some_iff.mp ha
      obtain ⟨hj, rfl⟩ := List.getElem?_eq_some_iff.mp hb
      have hflag : Here s (.sort name) := hpc ▸ h.here t
      have hpcs : s.pc = (s.goto t (.sort name)).pc := (Function.update_eq_self_iff.mpr hpc.symm).symm
      refine h.sorting (fun hready => ?_) ((set_set_perm hi hj).trans h.perm) hpcs rfl id hflag
      simpa [hpc, Pc.sorts] using hready.still t
    case h_2 => cases hstep

/-- Every call gets the function that the table pairs with its name, and no override if there is
none. -/
theorem overrides_found {actions : List (Action n)} (halone : Along step Alone {} actions)
    (hpc : (run step {} actions).map (fun s => s.pc t) = some (.answered name func)) :
    func = paired name := by
  obtain ⟨s, hrun, hpc⟩ := Option.map_eq_some_iff.mp hpc
  have hstart : Inv (n := n) {} := ⟨.rfl, nofun, fun _ => trivial⟩
  have hinv := run_invariant_along
    (fun _ _ _ h hok hstep => Inv.step h hok hstep) actions _ _ hstart halone hrun
  have hhere := hinv.here t
  rwa [hpc] at hhere

instance (s : State n) : ∀ a, Decidable (Alone s a)
  | .advance t => inferInstanceAs (Decidable (∀ u, u ≠ t → _))
  | .call _ _ | .swap _ _ _ => .isTrue trivial

/-- A call that sorts the table by selection. -/
def firstCall : List (Action 1) :=
  [.call 0 (bytes "eglGetError"), .advance 0, .advance 0] ++
  [17, 22, 13, 17, 12, 27, 11, 26, 15, 10, 14, 12, 20, 16, 20, 27, 26, 25, 24, 24, 27, 28, 29, 23,
    29, 28, 27, 29].mapIdx (.swap 0) ++ [.advance 0, .advance 0, .advance 0]

theorem overrides_found_first : some "eglGetError" = paired (bytes "eglGetError") :=
  @overrides_found 1 0 _ _ firstCall (by decide +kernel) (by decide +kernel)

/-- A second call that comes right after the flag was set misses an override. -/
theorem override_missed :
    (run step {} [.call (0 : Fin 2) [], .advance 0, .advance 0, .call 1 (bytes "eglGetError"),
      .advance 1, .advance 1,
      .advance 1, .advance 1, .advance 1, .advance 1, .advance 1]).map (fun s => s.pc 1) =
        some (.answered (bytes "eglGetError") none) ∧
          paired (bytes "eglGetError") = some "eglGetError" := by
  decide +kernel

end EglOverrides
