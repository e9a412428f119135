import Libhybris.StaticTls
import Mathlib.Tactic

/-!
# Static TLS is replayed exactly once

The log of an arena names every module up to the thread's position in the registry once and no other
module. Since ranges do not overlap, the bytes of a module are then its initial bytes under the
thread's later writes. The bytes behind the initial ones are never copied, so there a write made
before the module was applied is still seen.
-/
namespace StaticTls

open LastWriter List Option

/-! ## Logs -/

def Event.applies (i : Nat) : Event → Bool
  | .applied j _ => i == j
  | _ => false

/-- The bytes an event of the thread itself puts into the arena. -/
def Event.userWrite : Event → Nat → Option UInt8
  | .tcb _ => fun _ => none
  | .applied _ _ => fun _ => none
  | .wrote b v => Event.write (.wrote b v)

/-- The events behind the first application of module `i`. -/
def sinceApplied (i : Nat) : List Event → List Event
  | [] => []
  | e :: rest => if e.applies i then rest else sinceApplied i rest

variable {a i published : Nat} {entries : List Module} {m : Module} {th : Thread}

theorem exists_split {log : List Event} (h : log.countP (Event.applies i) = 1) :
    ∃ before m after, log = before ++ .applied i m :: after ∧ sinceApplied i log = after ∧
      (∀ e ∈ before, e.applies i = false) ∧ ∀ e ∈ after, e.applies i = false := by
  induction log with
  | nil => cases h
  | cons e log ih =>
    rw [sinceApplied]
    by_cases he : e.applies i = true
    · rw [countP_cons_of_pos he] at h
      have hrest : ∀ e' ∈ log, e'.applies i = false := by
        have hzero := countP_eq_zero.mp (Nat.succ.inj h)
        exact fun e' he' => by simpa using hzero e' he'
      cases e with
      | tcb word => cases he
      | wrote a v => cases he
      | applied j m =>
        have hij : i = j := by simpa [Event.applies] using he
        subst hij
        exact ⟨[], m, log, rfl, if_pos he, nofun, hrest⟩
    · rw [countP_cons_of_neg he] at h
      obtain ⟨before, m, after, hlog, hsince, hbefore, hafter⟩ := ih h
      refine ⟨e :: before, m, after, by rw [hlog]; rfl, by rw [if_neg he, hsince], ?_, hafter⟩
      intro e' he'
      rcases mem_cons.mp he' with rfl | he'
      · simpa using he
      · exact hbefore e' he'

/-! ## Registries -/

/-- What the linker's layout guarantees. -/
structure LaidOut (entries : List Module) : Prop where
  apart : entries.Pairwise Module.Apart
  clear : ∀ m ∈ entries, m.ClearOfTcb

theorem LaidOut.append (h : LaidOut entries) (hclear : m.ClearOfTcb)
    (hapart : ∀ n ∈ entries, m.Apart n) : LaidOut (entries ++ [m]) := by
  constructor
  · refine pairwise_append.mpr ⟨h.apart, pairwise_singleton _ _, fun n hn m' hm' => ?_⟩
    rw [mem_singleton.mp hm']
    exact Or.symm (hapart n hn)
  · intro n hn
    rcases mem_append.mp hn with hn | hn
    · exact h.clear n hn
    · rw [mem_singleton.mp hn]
      exact hclear

theorem LaidOut.apart_of_ne (h : LaidOut entries) {j : Nat} {n : Module} (hm : entries[i]? = some m)
    (hn : entries[j]? = some n) (hij : i ≠ j) : m.Apart n := by
  obtain ⟨hi, rfl⟩ := List.getElem?_eq_some_iff.mp hm
  obtain ⟨hj, rfl⟩ := List.getElem?_eq_some_iff.mp hn
  have hpairs := pairwise_iff_getElem.mp h.apart
  rcases Nat.lt_or_gt_of_ne hij with hlt | hlt
  · exact hpairs i j hi hj hlt
  · exact Or.symm (hpairs j i hj hi hlt)

/-- In a module's range only its own copy and the thread's writes put bytes. -/
theorem write_eq_userWrite (h : LaidOut entries) (hm : entries[i]? = some m) (ha : m.Owns a) {e : Event}
    (he : e.applies i = false) (hlisted : ∀ j n, e = .applied j n → entries[j]? = some n ∧ n.Valid) :
    e.write a = e.userWrite a := by
  cases e with
  | wrote b v => rfl
  | tcb word =>
    have hclear := h.clear m (mem_of_getElem? hm)
    have htcb : tcbWord a = false := by
      simp only [Module.ClearOfTcb, Module.Owns] at hclear ha
      simp only [tcbWord, Bool.or_eq_false_iff, Bool.and_eq_false_iff, decide_eq_false_iff_not]
      omega
    simp [Event.write, Event.userWrite, htcb]
  | applied j n =>
    obtain ⟨hn, -, -, hlength⟩ := hlisted j n rfl
    have hij : i ≠ j := by simpa [Event.applies] using he
    have hapart := h.apart_of_ne hm hn hij
    simp only [Module.Apart, Module.Owns] at hapart ha
    rw [Event.write_applied]
    split
    · exact getElem?_eq_none (by omega)
    · rfl

/-! ## What an arena holds -/

/-- The module is in the arena: it was copied in once, its initial bytes stand under what the
thread wrote since, and the bytes behind them are zero under all the thread wrote to the arena. -/
structure Replayed (th : Thread) (i : Nat) (m : Module) (bytes : Nat → UInt8) : Prop where
  arena : th.arena = some bytes
  once : th.log.countP (Event.applies i) = 1
  init : ∀ k v, m.initData[k]? = some v →
    bytes (m.staticOffset + k) =
      (last ((sinceApplied i th.log).map Event.userWrite) (m.staticOffset + k)).getD v
  tail : ∀ a, m.Owns a → m.staticOffset + m.initData.length ≤ a →
    bytes a = (last (th.log.map Event.userWrite) a).getD 0

theorem last_map_congr {ι : Type} {f g : ι → Nat → Option UInt8} {l : List ι}
    (h : ∀ e ∈ l, f e a = g e a) : last (l.map f) a = last (l.map g) a := by
  induction l using List.reverseRecOn with
  | nil => rfl
  | append_singleton l e ih =>
    rw [last_map_append, last_map_append, h e (by simp), ih fun e' he' => h e' (by simp [he'])]

theorem replayed_of_log (h : LaidOut entries) {bytes : Nat → UInt8} (harena : th.arena = some bytes)
    (hbytes : ∀ a, bytes a = (last (th.log.map Event.write) a).getD 0)
    (hlisted : ∀ j n, .applied j n ∈ th.log → entries[j]? = some n ∧ n.Valid) (hm : entries[i]? = some m)
    (honce : th.log.countP (Event.applies i) = 1) : Replayed th i m bytes := by
  obtain ⟨before, m', after, hlog, hsince, hbefore, hafter⟩ := exists_split honce
  have hmem : .applied i m' ∈ th.log := by
    rw [hlog]
    simp
  obtain ⟨hm', -, -, hlength⟩ := hlisted i m' hmem
  rw [hm] at hm'
  cases hm'
  have heq : ∀ {a e}, m.Owns a → e ∈ th.log → e.applies i = false → e.write a = e.userWrite a := by
    intro a e ha he hne
    exact write_eq_userWrite h hm ha hne fun j n hjn => hlisted j n (hjn ▸ he)
  refine ⟨harena, honce, fun k v hk => ?_, fun a ha htail => ?_⟩
  · have hk' := (List.getElem?_eq_some_iff.mp hk).1
    have ha : m.Owns (m.staticOffset + k) := ⟨by omega, by omega⟩
    have hwrite : Event.write (.applied i m) (m.staticOffset + k) = some v := by
      rw [Event.write_applied, if_pos (by omega), Nat.add_sub_cancel_left, hk]
    rw [hbytes, hsince, hlog, map_append, map_cons, last_append, ← singleton_append,
      last_append, last_singleton, hwrite, Option.or_assoc, Option.some_or,
      last_map_congr fun e he => heq ha (by rw [hlog]; simp [he]) (hafter e he)]
    cases last (after.map Event.userWrite) (m.staticOffset + k) with
    | none => rfl
    | some w => rfl
  · rw [hbytes, last_map_congr (g := Event.userWrite) fun e he => ?_]
    by_cases hne : e.applies i = false
    · exact heq ha he hne
    · cases e with
      | tcb word => exact absurd rfl hne
      | wrote b w => rfl
      | applied j n =>
        have hij : i = j := by simpa [Event.applies] using hne
        subst hij
        obtain ⟨hn, -⟩ := hlisted i n he
        rw [hm] at hn
        cases hn
        rw [Event.write_applied, if_pos (by omega)]
        exact getElem?_eq_none (by omega)

/-! ## The invariant -/

/-- The modules the thread's arena has seen. -/
def Thread.position (th : Thread) : Nat :=
  match th.pc with
  | .promoteApply i _ => i
  | .enterApply i _ => i
  | _ => th.cursor

/-- How many modules were published when the call began. -/
def Pc.since : Pc → Nat
  | .returned since => since
  | .promoteLock _ since => since
  | .promoteApply _ since => since
  | .promoteUnlock since => since
  | .enterLoad since => since
  | .enterLock since => since
  | .enterApply _ since => since

def Pc.holds : Pc → Bool
  | .promoteApply .. => true
  | .promoteUnlock _ => true
  | .enterApply .. => true
  | _ => false

structure ThreadInv (entries : List Module) (published : Nat) (th : Thread) : Prop where
  bytes : ∀ a, th.ensure a = (last (th.log.map Event.write) a).getD 0
  absent : th.arena = none → th.log = []
  inited : th.inited = true → th.arena ≠ none
  listed : ∀ j n, .applied j n ∈ th.log → entries[j]? = some n ∧ n.Valid
  once : ∀ i, th.log.countP (Event.applies i) = if i < th.position then 1 else 0
  bound : th.position ≤ entries.length
  cursor : th.cursor ≤ published
  since : th.pc.since ≤ published
  returned : ∀ n, th.pc = .returned n ∨ th.pc = .promoteUnlock n → n ≤ th.cursor

structure Inv (s : State) : Prop where
  laidOut : LaidOut s.entries
  published : s.published ≤ s.entries.length
  thread : ∀ t, ThreadInv s.entries s.published (s.threads t)
  holder : ∀ t, (s.threads t).pc.holds = true → s.holder = some t
  settled : s.published = s.entries.length ∨
    ∃ t i n, s.holder = some t ∧ (s.threads t).pc = .promoteApply i n

theorem Inv.start : Inv StaticTls.start where
  laidOut := ⟨.nil, nofun⟩
  published := le_rfl
  thread _ := ⟨fun _ => rfl, fun _ => rfl, nofun, nofun, fun _ => rfl, le_rfl, le_rfl, le_rfl,
    fun n h => by
      rcases h with h | h
      · cases h
        exact le_rfl
      · cases h⟩
  holder _ h := nomatch h
  settled := .inl rfl

section
variable (h : ThreadInv entries published th)
include h

theorem ThreadInv.mono {entries' : List Module} {published' : Nat} (hentries : entries <+: entries')
    (hpublished : published ≤ published') : ThreadInv entries' published' th where
  bytes := h.bytes
  absent := h.absent
  inited := h.inited
  listed j n hjn := by
    obtain ⟨hj, hvalid⟩ := h.listed j n hjn
    obtain ⟨rest, rfl⟩ := hentries
    refine ⟨?_, hvalid⟩
    rw [List.getElem?_append_left (List.getElem?_eq_some_iff.mp hj).1]
    exact hj
  once := h.once
  bound := h.bound.trans hentries.length_le
  cursor := h.cursor.trans hpublished
  since := h.since.trans hpublished
  returned := h.returned

/-- A thread whose position is that of the arena goes to another place. -/
theorem ThreadInv.goto {pc : Pc} {cursor : Nat}
    (hposition : Thread.position { th with cursor, pc } = th.position) (hcursor : cursor ≤ published)
    (hsince : pc.since ≤ published)
    (hreturned : ∀ n, pc = .returned n ∨ pc = .promoteUnlock n → n ≤ cursor) :
    ThreadInv entries published { th with cursor, pc } where
  bytes := h.bytes
  absent := h.absent
  inited := h.inited
  listed := h.listed
  once i := by
    rw [hposition]
    exact h.once i
  bound := by
    rw [hposition]
    exact h.bound
  cursor := hcursor
  since := hsince
  returned := hreturned

/-- An event that copies no module. -/
theorem ThreadInv.record {e : Event} (he : ∀ i, e.applies i = false) :
    ThreadInv entries published (th.record e) where
  bytes a := by
    rw [Thread.record, last_map_append]
    change (e.write a).getD (th.ensure a) = _
    rw [h.bytes a]
    cases e.write a with
    | none => rfl
    | some v => rfl
  absent := nofun
  inited _ := nofun
  listed j n hjn := by
    rcases mem_append.mp hjn with hjn | hjn
    · exact h.listed j n hjn
    · have hap := he j
      rw [← mem_singleton.mp hjn] at hap
      simp [Event.applies] at hap
  once i := by
    have hone : [e].countP (Event.applies i) = 0 := by simp [he i]
    change (th.log ++ [e]).countP _ = _
    rw [countP_append, hone, h.once i]
    rfl
  bound := h.bound
  cursor := h.cursor
  since := h.since
  returned := h.returned

/-- The module at the thread's position is copied in. -/
theorem ThreadInv.apply {th' : Thread} (hi : th.position = i) (hm : entries[i]? = some m)
    (happly : th.apply i m = some th') {pc : Pc} (hposition : Thread.position { th' with pc } = i + 1)
    (hsince : pc.since ≤ published) (hpc : pc.holds = true ∧ ∀ n, pc ≠ .promoteUnlock n) :
    ThreadInv entries published { th' with pc } := by
  rw [Thread.apply] at happly
  split at happly
  · next hvalid =>
    cases happly
    refine ⟨?_, nofun, fun _ => nofun, ?_, ?_, ?_, h.cursor, hsince, ?_⟩
    · intro a
      rw [Thread.record, last_map_append]
      change (Event.write (.applied i m) a).getD (th.ensure a) = _
      rw [h.bytes a]
      cases Event.write (.applied i m) a with
      | none => rfl
      | some v => rfl
    · intro j n hjn
      rcases mem_append.mp hjn with hjn | hjn
      · exact h.listed j n hjn
      · cases mem_singleton.mp hjn
        exact ⟨hm, hvalid⟩
    · intro j
      rw [hposition]
      change (th.log ++ [Event.applied i m]).countP _ = _
      rw [countP_append, h.once j, hi]
      by_cases hji : j = i
      · subst hji
        simp [Event.applies]
      · have hone : [Event.applied i m].countP (Event.applies j) = 0 := by simp [Event.applies, hji]
        split_ifs
        all_goals omega
    · rw [hposition]
      exact (List.getElem?_eq_some_iff.mp hm).1
    · rintro n (rfl | rfl)
      · cases hpc.1
      · exact absurd rfl (hpc.2 n)
  · cases happly

end

/-! ## Steps -/

section

variable {s s' : State} {t : Nat}

theorem threads_set_self (s : State) (t : Nat) (th : Thread) : (s.set t th).threads t = th :=
  Function.update_self ..

theorem threads_set_of_ne (s : State) {t t' : Nat} (th : Thread) (h : t' ≠ t) :
    (s.set t th).threads t' = s.threads t' := Function.update_of_ne h ..

section
variable (h : Inv s)
include h

/-- One thread changes, and its hold on the mutex does not. -/
theorem Inv.set (t : Nat) (hth : ThreadInv s.entries s.published th)
    (hholds : th.pc.holds = (s.threads t).pc.holds)
    (happly : ∀ i n, (s.threads t).pc = .promoteApply i n → ∃ j, th.pc = .promoteApply j n) :
    Inv (s.set t th) where
  laidOut := h.laidOut
  published := h.published
  thread t' := by
    by_cases ht : t' = t
    · subst ht
      rw [threads_set_self]
      exact hth
    · rw [threads_set_of_ne s th ht]
      exact h.thread t'
  holder t' ht' := by
    by_cases ht : t' = t
    · subst ht
      rw [threads_set_self, hholds] at ht'
      exact h.holder t' ht'
    · rw [threads_set_of_ne s th ht] at ht'
      exact h.holder t' ht'
  settled := by
    rcases h.settled with hs | ⟨t', i, n, ht', hpc⟩
    · exact .inl hs
    · refine .inr ?_
      by_cases ht : t' = t
      · subst ht
        obtain ⟨j, hj⟩ := happly i n hpc
        exact ⟨t', j, n, ht', by rw [threads_set_self, hj]⟩
      · exact ⟨t', i, n, ht', by rw [threads_set_of_ne s th ht, hpc]⟩

/-- While the mutex is free nobody is inside, and every module is published. -/
theorem Inv.free (hfree : s.holder = none) :
    (∀ t, (s.threads t).pc.holds = false) ∧ s.published = s.entries.length := by
  constructor
  · intro t
    by_contra hholds
    have hholder := h.holder t (by simpa using hholds)
    rw [hfree] at hholder
    cases hholder
  · rcases h.settled with hs | ⟨t, i, n, ht, -⟩
    · exact hs
    · rw [hfree] at ht
      cases ht

theorem Inv.beginPromote (hs : beginPromote s t m = some s') : Inv s' := by
  rw [StaticTls.beginPromote] at hs
  split at hs
  · next since hpc =>
    split at hs
    · cases hs
      refine h.set t ((h.thread t).goto ?_ (h.thread t).cursor le_rfl ?_) ?_ ?_
      · rw [Thread.position, Thread.position, hpc]
      · rintro n (hn | hn)
        all_goals cases hn
      · rw [hpc]
        rfl
      · intro i n hi
        rw [hpc] at hi
        cases hi
    · cases hs
  · cases hs

/-- The thread at the mutex changes the shared state with its own. -/
theorem Inv.change {holder : Option Nat} (hpre : s.entries <+: entries) (hlaid : LaidOut entries)
    (hmono : s.published ≤ published) (hbound : published ≤ entries.length)
    (hth : ThreadInv entries published th)
    (hothers : ∀ t', t' ≠ t → (s.threads t').pc.holds = true → holder = some t')
    (hself : th.pc.holds = true → holder = some t)
    (hsettled : published = entries.length ∨ ∃ i n, holder = some t ∧ th.pc = .promoteApply i n) :
    Inv { s.set t th with entries, published, holder } where
  laidOut := hlaid
  published := hbound
  thread t' := by
    by_cases ht : t' = t
    · subst ht
      exact (threads_set_self s t' th).symm ▸ hth
    · exact (threads_set_of_ne s th ht).symm ▸ (h.thread t').mono hpre hmono
  holder t' ht' := by
    by_cases ht : t' = t
    · subst ht
      rw [threads_set_self] at ht'
      exact hself ht'
    · rw [threads_set_of_ne s th ht] at ht'
      exact hothers t' ht ht'
  settled := hsettled.imp_right fun ⟨i, n, ht, hpc⟩ =>
    ⟨t, i, n, ht, (congrArg Thread.pc (threads_set_self s t th)).trans hpc⟩

theorem Inv.lock (hs : lock s t = some s') : Inv s' := by
  rw [StaticTls.lock] at hs
  split at hs
  · next hfree =>
    obtain ⟨hnobody, hsettled⟩ := h.free hfree
    have hothers : ∀ t', t' ≠ t → (s.threads t').pc.holds = true → some t = some t' := by
      intro t' _ ht'
      rw [hnobody t'] at ht'
      cases ht'
    have hsince := (h.thread t).since
    split at hs
    · next m since hpc =>
      rw [hpc] at hsince
      split at hs
      · next hm =>
        cases hs
        have hpre : s.entries <+: s.entries ++ [m] := prefix_append ..
        refine h.change hpre (h.laidOut.append hm.1 hm.2) le_rfl (h.published.trans hpre.length_le)
          (((h.thread t).mono hpre le_rfl).goto ?_ (h.thread t).cursor hsince ?_) hothers
          (fun _ => rfl) (.inr ⟨_, _, rfl, rfl⟩)
        · rw [Thread.position, Thread.position, hpc]
        · rintro n (hn | hn)
          all_goals cases hn
      · cases hs
    · next since hpc =>
      rw [hpc] at hsince
      cases hs
      refine h.change (prefix_refl _) h.laidOut le_rfl h.published
        ((h.thread t).goto ?_ (h.thread t).cursor hsince ?_) hothers (fun _ => rfl) (.inl hsettled)
      · rw [Thread.position, Thread.position, hpc]
      · rintro n (hn | hn)
        all_goals cases hn
    · cases hs
  · cases hs

/-- Only the thread inside the mutex is inside. -/
theorem Inv.others (ht : (s.threads t).pc.holds = true) (holder : Option Nat) :
    ∀ t', t' ≠ t → (s.threads t').pc.holds = true → holder = some t' := by
  intro t' hne ht'
  have heq := h.holder t' ht'
  rw [h.holder t ht] at heq
  exact absurd (Option.some.inj heq).symm hne

theorem Inv.settled_of (ht : (s.threads t).pc.holds = true)
    (hpc : ∀ i n, (s.threads t).pc ≠ .promoteApply i n) : s.published = s.entries.length := by
  rcases h.settled with hs | ⟨t', i, n, ht', hi⟩
  · exact hs
  · rw [h.holder t ht] at ht'
    cases ht'
    exact absurd hi (hpc i n)

theorem Inv.applyNext (hs : applyNext s t = some s') : Inv s' := by
  have hsince := (h.thread t).since
  rw [StaticTls.applyNext] at hs
  split at hs
  case h_1 i since hpc | h_2 i since hpc =>
    obtain ⟨m, hm, hs⟩ := bind_eq_some_iff.mp hs
    obtain ⟨th, hth, rfl⟩ := map_eq_some_iff.mp hs
    rw [hpc] at hsince
    refine h.set t ((h.thread t).apply ?_ hm hth rfl hsince ⟨rfl, nofun⟩) ?_ ?_
    · rw [Thread.position, hpc]
    · rw [hpc]
      rfl
    · intro j n hj
      rw [hpc] at hj
      cases hj <;> exact ⟨_, rfl⟩
  case h_3 => cases hs

theorem Inv.publish (hs : publish s t = some s') : Inv s' := by
  rw [StaticTls.publish] at hs
  split at hs
  · next i since hpc =>
    split at hs
    · cases hs
    · next hi =>
      cases hs
      have hsince := (h.thread t).since
      have hbound := (h.thread t).bound
      rw [hpc] at hsince
      rw [Thread.position, hpc] at hbound
      have hholds : (s.threads t).pc.holds = true := by rw [hpc]; rfl
      refine h.change (prefix_refl _) h.laidOut h.published le_rfl
        (((h.thread t).mono (prefix_refl _) h.published).goto ?_ le_rfl
          (hsince.trans h.published) ?_)
        (h.others hholds _) (fun _ => h.holder t hholds) (.inl rfl)
      · rw [Thread.position, Thread.position, hpc]
        dsimp only at hbound ⊢
        omega
      · rintro n (hn | hn)
        · cases hn
        · cases hn
          exact hsince.trans h.published
  · cases hs

theorem Inv.unlock (hs : unlock s t = some s') : Inv s' := by
  have hsince := (h.thread t).since
  have hbound := (h.thread t).bound
  rw [StaticTls.unlock] at hs
  split at hs
  · next since hpc =>
    cases hs
    have hholds : (s.threads t).pc.holds = true := by rw [hpc]; rfl
    rw [hpc] at hsince
    refine h.change (prefix_refl _) h.laidOut le_rfl h.published
      ((h.thread t).goto ?_ (h.thread t).cursor hsince ?_) (h.others hholds _) nofun
      (.inl (h.settled_of hholds (by rw [hpc]; nofun)))
    · rw [Thread.position, Thread.position, hpc]
    · rintro n (hn | hn)
      · cases hn
        exact (h.thread t).returned _ (.inr hpc)
      · cases hn
  · next i since hpc =>
    split at hs
    · cases hs
    · next hi =>
      cases hs
      have hholds : (s.threads t).pc.holds = true := by rw [hpc]; rfl
      have hsettled := h.settled_of hholds (by rw [hpc]; nofun)
      rw [hpc] at hsince
      rw [Thread.position, hpc] at hbound
      refine h.change (prefix_refl _) h.laidOut le_rfl h.published
        ((h.thread t).goto ?_ hsettled.ge hsince ?_) (h.others hholds _) nofun (.inl hsettled)
      · rw [Thread.position, Thread.position, hpc]
        dsimp only at hbound ⊢
        omega
      · rintro n (hn | hn)
        · cases hn
          exact hsince.trans h.published
        · cases hn
  · cases hs

theorem Inv.enter {word : Nat → UInt8} (hs : enter s t word = some s') : Inv s' := by
  rw [StaticTls.enter] at hs
  split at hs
  · next since hpc =>
    cases hs
    have hth : ThreadInv s.entries s.published
        (if (s.threads t).inited then s.threads t
          else { (s.threads t).record (.tcb word) with inited := true }) := by
      split
      · exact h.thread t
      · have hr := (h.thread t).record (e := .tcb word) fun _ => rfl
        exact { hr with inited := fun _ => nofun }
    have hpc' : (if (s.threads t).inited then s.threads t
        else { (s.threads t).record (.tcb word) with inited := true }).pc = .returned since := by
      split
      all_goals exact hpc
    refine h.set t (hth.goto ?_ hth.cursor le_rfl ?_) ?_ ?_
    · rw [Thread.position, Thread.position, hpc']
    · rintro n (hn | hn)
      all_goals cases hn
    · rw [hpc]
      rfl
    · intro i n hi
      rw [hpc] at hi
      cases hi
  · cases hs

theorem Inv.load (hs : load s t = some s') : Inv s' := by
  have hsince := (h.thread t).since
  rw [StaticTls.load] at hs
  split at hs
  · next since hpc =>
    cases hs
    rw [hpc] at hsince
    have happly : ∀ i n, (s.threads t).pc = .promoteApply i n →
        ∃ j, (if (s.threads t).cursor ≠ s.published then Pc.enterLock since else .returned since) =
          .promoteApply j n := by
      intro i n hi
      rw [hpc] at hi
      cases hi
    by_cases hcursor : (s.threads t).cursor ≠ s.published
    · rw [if_pos hcursor] at happly ⊢
      refine h.set t ((h.thread t).goto ?_ (h.thread t).cursor hsince ?_) ?_ happly
      · rw [Thread.position, Thread.position, hpc]
      · rintro n (hn | hn)
        all_goals cases hn
      · rw [hpc]
        rfl
    · rw [if_neg hcursor] at happly ⊢
      refine h.set t ((h.thread t).goto ?_ (h.thread t).cursor hsince ?_) ?_ happly
      · rw [Thread.position, Thread.position, hpc]
      · rintro n (hn | hn)
        · cases hn
          exact hsince.trans (not_not.mp hcursor).ge
        · cases hn
      · rw [hpc]
        rfl
  · cases hs

theorem Inv.write {v : UInt8} (hs : write s t a v = some s') : Inv s' := by
  rw [StaticTls.write] at hs
  split at hs
  · split at hs
    · cases hs
      exact h.set t ((h.thread t).record fun _ => rfl) rfl fun i n hi => ⟨i, hi⟩
    · cases hs
  · cases hs

theorem Inv.cleanup (hs : cleanup s t = some s') : Inv s' := by
  rw [StaticTls.cleanup] at hs
  split at hs
  · next since hpc =>
    split at hs
    · cases hs
      refine h.set t ((Inv.start.thread t).mono nil_prefix (Nat.zero_le _)) ?_ ?_
      · rw [hpc]
        rfl
      · intro i n hi
        rw [hpc] at hi
        cases hi
    · cases hs
  · cases hs

end

theorem Inv.step (s : State) (action : Action) (s' : State) (h : Inv s)
    (hs : step s action = some s') : Inv s' := by
  cases action with
  | promote t m => exact h.beginPromote hs
  | lock t => exact h.lock hs
  | apply t => exact h.applyNext hs
  | publish t => exact h.publish hs
  | unlock t => exact h.unlock hs
  | enter t word => exact h.enter hs
  | load t => exact h.load hs
  | write t a v => exact h.write hs
  | cleanup t => exact h.cleanup hs

end

/-- Along every interleaving: when a call has returned, each module that was published before it
began is in the thread's arena, copied in exactly once. -/
theorem published_modules_replayed (actions : List Action) (s : State)
    (hrun : Transition.run step start actions = some s) (t since : Nat)
    (hpc : (s.threads t).pc = .returned since) (i : Nat) (hi : i < since) :
    ∃ m bytes, s.entries[i]? = some m ∧ Replayed (s.threads t) i m bytes := by
  have h := Transition.run_invariant Inv.step actions start s .start hrun
  have hth := h.thread t
  have hcursor := hth.returned since (.inl hpc)
  have hbound := hth.bound
  rw [Thread.position, hpc] at hbound
  have honce := hth.once i
  rw [Thread.position, hpc, if_pos (by dsimp only; omega)] at honce
  have hsome : (s.threads t).arena ≠ none := by
    intro hnone
    rw [hth.absent hnone] at honce
    cases honce
  obtain ⟨bytes, hbytes⟩ := ne_none_iff_exists'.mp hsome
  obtain ⟨m, hm⟩ : ∃ m, s.entries[i]? = some m :=
    ⟨_, getElem?_eq_getElem (by dsimp only at hbound; omega)⟩
  refine ⟨m, bytes, hm, replayed_of_log h.laidOut hbytes (fun a => ?_) hth.listed hm honce⟩
  rw [← hth.bytes a, Thread.ensure, hbytes]
  rfl

/-- Thread 0 has an arena, thread 1 promotes a module of one initial byte and one more, thread 0
writes to the second byte and then enters again. -/
def writeBeforeEntry : List Action :=
  [.enter 0 fun _ => 0, .load 0,
    .promote 1 ⟨100, [7], 2⟩, .lock 1, .apply 1, .publish 1, .unlock 1,
    .write 0 101 5,
    .enter 0 fun _ => 0, .load 0, .lock 0, .apply 0, .unlock 0]

theorem published_modules_replayed_writeBeforeEntry :
    ∃ s, Transition.run step start writeBeforeEntry = some s ∧ (s.threads 0).pc = .returned 1 ∧
      ∃ m bytes, s.entries[0]? = some m ∧ Replayed (s.threads 0) 0 m bytes :=
  ⟨_, rfl, rfl, published_modules_replayed writeBeforeEntry _ rfl 0 1 rfl 0 (by decide)⟩

/-- The second byte was not written since the module was applied, and is not zero. -/
theorem tail_keeps_earlier_write :
    ∃ s m bytes, Transition.run step start writeBeforeEntry = some s ∧
      (s.threads 0).pc = .returned 1 ∧ s.entries[0]? = some m ∧ (s.threads 0).arena = some bytes ∧
      m.Owns 101 ∧ m.initData[101 - m.staticOffset]? = none ∧
      last ((sinceApplied 0 (s.threads 0).log).map Event.userWrite) 101 = none ∧ bytes 101 = 5 :=
  ⟨_, _, _, rfl, rfl, rfl, rfl, by decide, rfl, rfl, rfl⟩

end StaticTls
