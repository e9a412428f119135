import Libhybris.Wlegl

/-!
# Safety of the buffer server

As long as every conversion of a handle is of whole integers and its import
succeeds, whatever the clients request: all writes stay inside the native
handle, exactly the descriptors in live handles are open, exactly the records
of live buffer resources are allocated and none is read after its deletion,
and exactly their window buffers are referenced.
-/
namespace Wlegl

open Custody List Registry Option

def fdsOf (handles : List Handle) : List Fd := handles.flatMap Handle.fds

def recordsOf (buffers : List BufferResource) : List Nat := buffers.map BufferResource.record

def refsOf (buffers : List BufferResource) : List (Option Nat) := buffers.map BufferResource.buf

/-- What the server promises in every state. -/
structure Safe (s : State) : Prop where
  writes : ∀ w ∈ s.writes, 0 ≤ w.start ∧ w.stop ≤ 4 * w.integers
  fds : Holds s.fdLog (fdsOf s.handles)
  records : Holds s.recordLog (recordsOf s.buffers)
  refs : Holds s.refLog (refsOf s.buffers)

/-- A handle never has more descriptors than the client announced. -/
structure Fits (h : Handle) : Prop where
  lower : 0 ≤ h.numFds
  upper : h.numFds < 2 ^ 31
  fds : (h.fds.length : Int) ≤ h.numFds

variable {h : Handle} {s : State} {client : Client} {id : Nat}

theorem Fits.emptied (hf : Fits h) : Fits { h with fds := [] } where
  lower := hf.lower
  upper := hf.upper
  fds := hf.lower

structure Inv (s : State) : Prop extends Safe s where
  fits : ∀ h ∈ s.handles, Fits h

theorem inv_initial : Inv {} where
  writes := by simp
  fds := holds_nil
  records := holds_nil
  refs := holds_nil
  fits := by simp

theorem toInt32_of_lt {n : Int} (h0 : 0 ≤ n) (h : n < 2 ^ 31) : toInt32 n = n := by
  simp only [toInt32, Int.bmod]
  omega

/-- The conversion is of whole integers and their number fits an `int`. -/
def Convertible (h : Handle) : Prop :=
  h.ints.length % 4 = 0 ∧ (h.fds.length : Int) + (h.ints.length / 4 : Nat) < 2 ^ 31

/-- Every request that reaches the conversion of a handle names a convertible
one, and its import succeeds. -/
def WellBehaved (s : State) : Request → Prop
  | .createBuffer client _ width height (some hid) imported =>
    ∀ h, findHandle s client hid = some h → 1 ≤ width → 1 ≤ height →
      (h.fds.length : Int) = h.numFds → Convertible h ∧ imported = true
  | _ => True

theorem fillNative_writes (hf : Fits h) (hc : Convertible h) :
    ∀ w ∈ (fillNative h).2, 0 ≤ w.start ∧ w.stop ≤ 4 * w.integers := by
  obtain ⟨hmod, hsum⟩ := hc
  have h1 : toInt32 h.fds.length = h.fds.length :=
    toInt32_of_lt (by omega) (by have := hf.fds; have := hf.upper; omega)
  have h2 : toInt32 (h.ints.length / 4 : Nat) = (h.ints.length / 4 : Nat) :=
    toInt32_of_lt (by omega) (by omega)
  have h3 : toInt32 ((h.fds.length : Int) + (h.ints.length / 4 : Nat)) =
      (h.fds.length : Int) + (h.ints.length / 4 : Nat) := toInt32_of_lt (by omega) hsum
  intro w hw
  simp only [fillNative, h1, h2, h3, mem_cons, not_mem_nil, or_false] at hw
  rcases hw with rfl | rfl
  · constructor
    · exact Int.le_refl 0
    · simp only
      omega
  · constructor
    · simp only
      omega
    · simp only
      omega

/-- A successful conversion has a matching count and takes all descriptors. -/
theorem toNative_some {emptied : Handle} {native : NativeHandle} {writes : List Write} (hf : Fits h)
    (ht : toNative h = some (native, writes, emptied)) :
    (h.fds.length : Int) = h.numFds ∧ writes = (fillNative h).2 ∧ emptied = { h with fds := [] } ∧
      native.fds.take native.numFds.toNat = h.fds := by
  have hlen : toInt32 h.fds.length = h.fds.length :=
    toInt32_of_lt (by omega) (by have := hf.fds; have := hf.upper; omega)
  unfold toNative at ht
  split at ht
  · cases ht
  · rename_i hcount
    simp only [Option.some.injEq, Prod.mk.injEq] at ht
    obtain ⟨rfl, rfl, rfl⟩ := ht
    refine ⟨by rw [hlen] at hcount; omega, rfl, rfl, ?_⟩
    simp [fillNative, hlen]

theorem fdsOf_append (xs ys : List Handle) : fdsOf (xs ++ ys) = fdsOf xs ++ fdsOf ys :=
  flatMap_append

/-- What the descriptors of the live handles become when one handle changes or
goes. -/
theorem fdsOf_split (hfind : findHandle s client id = some h) :
    ∃ rest, (fdsOf s.handles).Perm (h.fds ++ rest) ∧
      (fdsOf (Registry.remove Handle.key (client, id) s.handles)).Perm rest ∧
      ∀ f, (fdsOf (Registry.modify Handle.key (client, id) f s.handles)).Perm
        ((f h).fds ++ rest) := by
  obtain ⟨before, after, hl, hr, hm⟩ := exists_split Handle.key hfind
  refine ⟨fdsOf before ++ fdsOf after, ?_, ?_, fun f => ?_⟩
  · rw [hl, fdsOf_append]
    exact perm_append_comm_assoc _ _ _
  · rw [hr, fdsOf_append]
  · rw [hm, fdsOf_append]
    exact perm_append_comm_assoc _ _ _

theorem fits_modify (hi : Inv s) {k : Client × Nat} {f : Handle → Handle}
    (hf : ∀ h, Registry.lookup Handle.key k s.handles = some h → Fits (f h)) :
    ∀ h ∈ Registry.modify Handle.key k f s.handles, Fits h := by
  intro h hm
  rcases mem_modify Handle.key hm with ⟨h', hfind, rfl⟩ | hm
  · exact hf h' hfind
  · exact hi.fits h hm

theorem fits_of_find (hi : Inv s) (hfind : findHandle s client id = some h) : Fits h :=
  hi.fits h (mem_of_lookup Handle.key hfind)

theorem key_of_find (hfind : findHandle s client id = some h) : h.key = (client, id) :=
  key_of_lookup Handle.key hfind

section
variable (hi : Inv s)
include hi

theorem Inv.postError (e : ProtocolError) : Inv (postError s e) :=
  ⟨⟨hi.writes, hi.fds, hi.records, hi.refs⟩, hi.fits⟩

theorem Inv.createHandle {numFds : Int} {ints : List UInt8} (hlt : numFds < 2 ^ 31) :
    Inv (createHandle s client id numFds ints) := by
  unfold Wlegl.createHandle
  split
  · exact hi.postError _
  · rename_i hneg
    refine ⟨⟨hi.writes, hi.fds, hi.records, hi.refs⟩, fun h hm => ?_⟩
    rcases mem_cons.mp hm with rfl | hm
    · exact ⟨by simpa using hneg, hlt, by simpa using hneg⟩
    · exact hi.fits h hm

theorem Inv.addFd (fd : Fd) (hfind : findHandle s client id = some h) : Inv (addFd s h fd) := by
  unfold Wlegl.addFd
  split
  · have hlog : Inv { s with fdLog := .give fd :: .take fd :: s.fdLog } :=
      ⟨⟨hi.writes, (hi.fds.take fd).give, hi.records, hi.refs⟩, hi.fits⟩
    exact hlog.postError _
  · rename_i hroom
    have hfits := fits_of_find hi hfind
    rw [key_of_find hfind]
    obtain ⟨rest, hold, -, hnew⟩ := fdsOf_split hfind
    refine ⟨⟨hi.writes, ?_, hi.records, hi.refs⟩, fits_modify hi fun h' hfind' => ?_⟩
    · have ht := (hi.fds.perm hold).take fd
      refine ht.perm (List.Perm.trans ?_ (hnew _).symm)
      simpa using (perm_middle.symm : (fd :: (h.fds ++ rest)).Perm (h.fds ++ fd :: rest))
    · have he : h' = h := by simpa [findHandle, hfind'] using hfind
      subst he
      refine ⟨hfits.lower, hfits.upper, ?_⟩
      simp only [length_append, length_singleton]
      omega

/-- A converted handle whose import succeeds: the descriptors leave the handle
and are closed, and one record and one reference come in. -/
theorem Inv.importNative {hid : Nat} {emptied : Handle} {native : NativeHandle} {writes : List Write}
    (hfind : findHandle s client hid = some h) (hconv : Convertible h) (hwrites : writes = (fillNative h).2)
    (hemptied : emptied = { h with fds := [] }) (htake : native.fds.take native.numFds.toNat = h.fds) :
    Inv (importNative s client id true (some (native, writes, emptied))) := by
  have hfits := fits_of_find hi hfind
  have hkey : emptied.key = (client, hid) := by
    rw [hemptied, ← key_of_find hfind]
    rfl
  obtain ⟨rest, hold, -, hnew⟩ := fdsOf_split hfind
  have hclosed : Holds (closeNative native s.fdLog) rest := by
    rw [closeNative, htake]
    exact (hi.fds.perm hold).give_all
  have hempty : (fdsOf (Registry.modify Handle.key (client, hid) (fun _ => emptied)
      s.handles)).Perm rest := by
    simpa [hemptied] using hnew fun _ => emptied
  simp only [Wlegl.importNative, bufferCreate, if_true, hkey]
  refine ⟨⟨fun w hm => ?_, hclosed.perm hempty.symm, hi.records.take s.fresh,
    hi.refs.take (some (s.fresh + 1))⟩, fits_modify hi fun _ _ => hemptied ▸ hfits.emptied⟩
  rcases mem_append.mp hm with hm | hm
  · exact fillNative_writes hfits hconv w (hwrites ▸ hm)
  · exact hi.writes w hm

theorem Inv.createBuffer {hid : Nat} {width height : Int} {imported : Bool}
    (hfind : findHandle s client hid = some h)
    (hw : WellBehaved s (.createBuffer client id width height (some hid) imported)) :
    Inv (createBuffer s client id width height (some h) imported) := by
  unfold Wlegl.createBuffer
  split
  · exact hi.postError _
  · rename_i hsize
    rw [bind_some]
    cases ht : toNative h with
    | none => exact hi.postError _
    | some found =>
      obtain ⟨native, writes, emptied⟩ := found
      obtain ⟨hcount, hwrites, hemptied, htake⟩ := toNative_some (fits_of_find hi hfind) ht
      obtain ⟨hconv, himported⟩ := hw h hfind (by omega) (by omega) hcount
      rw [himported]
      exact hi.importNative hfind hconv hwrites hemptied htake

theorem Inv.createBuffer_null {width height : Int} {imported : Bool} :
    Inv (Wlegl.createBuffer s client id width height none imported) := by
  unfold Wlegl.createBuffer
  split
  · exact hi.postError _
  · exact hi.postError _

theorem Inv.destroyHandle (hfind : findHandle s client id = some h) :
    Inv (handleDtor h { s with handles := Registry.remove Handle.key (client, id) s.handles }) := by
  obtain ⟨rest, hold, hgone, -⟩ := fdsOf_split hfind
  refine ⟨⟨hi.writes, (hi.fds.perm hold).give_all.perm hgone.symm, hi.records, hi.refs⟩,
    fun h' hm => hi.fits h' ((remove_sublist Handle.key _ _).subset hm)⟩

end

/-- The destructor of a buffer resource, as long as its record is allocated
and its window buffer referenced. -/
theorem bufferDtor_holds {b : BufferResource} {records : List Nat} {refs : List (Option Nat)}
    (hr : Holds s.recordLog (b.record :: records)) (hf : Holds s.refLog (b.buf :: refs)) :
    Holds (bufferDtor b s).recordLog records ∧ Holds (bufferDtor b s).refLog refs :=
  ⟨(hr.use mem_cons_self).give, hf.give⟩

theorem Inv.destroyBuffer (hi : Inv s) {b : BufferResource} (hfind : findBuffer s client id = some b) :
    Inv (bufferDtor b { s with buffers := Registry.remove BufferResource.key (client, id) s.buffers }) := by
  obtain ⟨before, after, hl, hr, -⟩ := exists_split BufferResource.key hfind
  have hperm : s.buffers.Perm (b :: (before ++ after)) := by
    rw [hl]
    exact perm_middle
  have hrecords := hi.records.perm (hperm.map BufferResource.record)
  have hrefs := hi.refs.perm (hperm.map BufferResource.buf)
  rw [hr]
  obtain ⟨h1, h2⟩ := bufferDtor_holds (s := { s with buffers := before ++ after }) hrecords hrefs
  exact ⟨⟨hi.writes, hi.fds, h1, h2⟩, hi.fits⟩

/-- All handle destructors of a client, run one after the other. -/
theorem foldl_handleDtor (gone : List Handle) (s : State) :
    gone.foldl (fun s h => handleDtor h s) s =
      { s with fdLog := ((fdsOf gone).map Event.give).reverse ++ s.fdLog } := by
  induction gone generalizing s with
  | nil => rfl
  | cons h gone ih =>
    rw [foldl_cons, ih]
    simp [handleDtor, fdsOf]

theorem foldl_bufferDtor (gone : List BufferResource) (s : State) {records : List Nat}
    {refs : List (Option Nat)} (hr : Holds s.recordLog (recordsOf gone ++ records))
    (hf : Holds s.refLog (refsOf gone ++ refs)) :
    ∃ recordLog refLog, gone.foldl (fun s b => bufferDtor b s) s = { s with recordLog, refLog } ∧
      Holds recordLog records ∧ Holds refLog refs := by
  induction gone generalizing s with
  | nil => exact ⟨s.recordLog, s.refLog, rfl, hr, hf⟩
  | cons b gone ih =>
    obtain ⟨h1, h2⟩ := bufferDtor_holds hr hf
    obtain ⟨recordLog, refLog, he, hr', hf'⟩ := ih (bufferDtor b s) h1 h2
    exact ⟨recordLog, refLog, by rw [foldl_cons, he]; rfl, hr', hf'⟩

theorem Inv.disconnect (hi : Inv s) (client : Client) : Inv (disconnect s client) := by
  have hhandles : (s.handles.filter (fun h => decide (h.client = client)) ++
      s.handles.filter (fun h => decide (h.client ≠ client))).Perm s.handles := by
    simpa using filter_append_perm (fun h : Handle => decide (h.client = client)) s.handles
  have hbuffers : (s.buffers.filter (fun b => decide (b.client = client)) ++
      s.buffers.filter (fun b => decide (b.client ≠ client))).Perm s.buffers := by
    simpa using
      filter_append_perm (fun b : BufferResource => decide (b.client = client)) s.buffers
  have hfds := hi.fds.perm (hhandles.symm.flatMap_right Handle.fds)
  rw [flatMap_append] at hfds
  have hrecords := hi.records.perm (hbuffers.symm.map BufferResource.record)
  have hrefs := hi.refs.perm (hbuffers.symm.map BufferResource.buf)
  rw [map_append] at hrecords hrefs
  obtain ⟨recordLog, refLog, he, hr, hf⟩ := foldl_bufferDtor
    (s.buffers.filter (fun b => decide (b.client = client)))
    { s with fdLog :=
        ((fdsOf (s.handles.filter (fun h => decide (h.client = client)))).map Event.give).reverse ++
        s.fdLog } hrecords hrefs
  unfold Wlegl.disconnect
  simp only [foldl_handleDtor, he]
  exact ⟨⟨hi.writes, hfds.give_all, hr, hf⟩,
    fun h hm => hi.fits h (mem_of_mem_filter hm)⟩

theorem Inv.step {s' : State} (hi : Inv s) (r : Request) (hw : WellBehaved s r)
    (h : step s r = some s') : Inv s' := by
  cases r with
  | createHandle client id numFds ints =>
    simp only [Wlegl.step] at h
    split at h
    · rename_i hok
      cases h
      exact hi.createHandle hok.2.2
    · cases h
  | addFd client id fd =>
    simp only [Wlegl.step] at h
    split at h
    · cases h
    · obtain ⟨hd, hfind, rfl⟩ := map_eq_some_iff.mp h
      exact hi.addFd fd hfind
  | createBuffer client id width height handle imported =>
    simp only [Wlegl.step] at h
    split at h
    · cases h
    · cases handle with
      | none =>
        cases h
        exact hi.createBuffer_null
      | some hid =>
        obtain ⟨hd, hfind, rfl⟩ := map_eq_some_iff.mp h
        exact hi.createBuffer hfind hw
  | destroyHandle client id =>
    obtain ⟨hd, hfind, rfl⟩ := map_eq_some_iff.mp h
    exact hi.destroyHandle hfind
  | destroyBuffer client id =>
    obtain ⟨b, hfind, rfl⟩ := map_eq_some_iff.mp h
    exact hi.destroyBuffer hfind
  | disconnect client =>
    cases h
    exact hi.disconnect client

/-- Whatever sequence of requests the clients make, if its conversions are of
whole integers and its imports succeed, the server is safe in every state. -/
theorem server_safe (requests : List Request) (u : State)
    (hw : Transition.Along step WellBehaved {} requests)
    (hrun : Transition.run step {} requests = some u) : Safe u :=
  (Transition.run_invariant_along (fun _ r _ (hi : Inv _) hw h => hi.step r hw h) requests {} u
    inv_initial hw hrun).toSafe

section Traces

/-- One descriptor and one integer, imported, then everything destroyed. -/
def sampleRequests : List Request :=
  [.createHandle 1 2 1 [0, 0, 0, 0], .addFd 1 2 7, .createBuffer 1 3 1 1 (some 2) true,
    .disconnect 1]

theorem server_safe_sample :
    ∃ u, Transition.run step {} sampleRequests = some u ∧ u.writes.length = 2 ∧ Safe u := by
  refine ⟨_, rfl, rfl, server_safe sampleRequests _ ?_ rfl⟩
  refine ⟨trivial, fun _ h1 => ?_⟩
  cases h1
  refine ⟨trivial, fun _ h2 => ?_⟩
  cases h2
  refine ⟨fun h hfind _ _ _ => ?_, fun _ h3 => ?_⟩
  · cases hfind
    exact ⟨⟨by decide, by decide⟩, rfl⟩
  · exact ⟨trivial, fun _ _ => trivial⟩

/-- Five bytes of integers are copied into an allocation of one integer; and
when the import fails, the destructor of the resource reads the record after
its deletion and drops a reference that was never taken. -/
theorem server_corrupted :
    (∃ u, Transition.run step {} [.createHandle 1 2 0 [0, 0, 0, 0, 0],
        .createBuffer 1 3 1 1 (some 2) true] = some u ∧
      ∃ w ∈ u.writes, w.stop = 5 ∧ w.integers = 1) ∧
    (∃ u, Transition.run step {} [.createHandle 1 2 0 [], .createBuffer 1 3 1 1 (some 2) false,
        .disconnect 1] = some u ∧
      ledger u.recordLog = none ∧ ledger u.refLog = none) :=
  ⟨⟨_, rfl, _, .tail _ (.head _), rfl, rfl⟩, ⟨_, rfl, by decide, by decide⟩⟩

end Traces

end Wlegl
