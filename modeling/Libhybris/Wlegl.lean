import Libhybris.Custody
import Libhybris.Registry
import Libhybris.Transition
import Mathlib.Algebra.Group.Int.Defs
import Mathlib.Algebra.Group.Nat.Defs

/-!
# The android_wlegl buffer server

The requests of the `android_wlegl` protocol on handles and buffers, and the
destructors of their resources. Four logs record what the server does to the
outside: the file descriptors it receives and closes, the buffer records it
allocates, reads and deletes, the references it takes on window buffers and
drops, and the byte ranges it writes into native handles.

Host allocations succeed; the result of the gralloc import is an argument of
the request. A resource is named by its client and its object id.
-/
namespace Wlegl

open Custody

abbrev Client := Nat
abbrev Fd := Int

/-- The conversion of a size to a 32-bit `int`. -/
def toInt32 (n : Int) : Int := n.bmod (2 ^ 32)

inductive ProtocolError where
  | numFdsNegative (numFds : Int)
  | tooManyFds
  | badSize (width height : Int)
  | badHandle
  | invalidNativeHandle
  deriving DecidableEq, Repr

def ProtocolError.message : ProtocolError → String
  | .numFdsNegative numFds => "num_fds is negative: " ++ toString numFds
  | .tooManyFds => "too many file descriptors"
  | .badSize width height =>
    "bad width (" ++ toString width ++ ") or height (" ++ toString height ++ ")"
  | .badHandle => "bad handle or fd count mismatch"
  | .invalidNativeHandle => "invalid native handle"

/-- `server_wlegl_handle` with its resource: descriptors arrive one by one, the
integers as the bytes of the client's array. -/
structure Handle where
  client : Client
  id : Nat
  numFds : Int
  fds : List Fd := []
  ints : List UInt8
  deriving DecidableEq, Repr

def Handle.key (h : Handle) : Client × Nat := (h.client, h.id)

/-- A buffer resource, the record it points to and the window buffer that the
record names, if it was ever filled in. -/
structure BufferResource where
  client : Client
  id : Nat
  record : Nat
  buf : Option Nat
  deriving DecidableEq, Repr

def BufferResource.key (b : BufferResource) : Client × Nat := (b.client, b.id)

/-- `native_handle_t`: the counts and the descriptors stored in it. -/
structure NativeHandle where
  numFds : Int
  numInts : Int
  fds : List Fd
  deriving DecidableEq, Repr

/-- Bytes `start` to `stop` written into an array of `integers` integers. -/
structure Write where
  start : Int
  stop : Int
  integers : Int
  deriving DecidableEq, Repr

structure State where
  handles : List Handle := []
  buffers : List BufferResource := []
  fdLog : List (Event Fd) := []
  recordLog : List (Event Nat) := []
  refLog : List (Event (Option Nat)) := []
  writes : List Write := []
  errors : List ProtocolError := []
  fresh : Nat := 0
  deriving DecidableEq, Repr

/-- `native_handle_create` and the two copies into it. -/
def fillNative (h : Handle) : NativeHandle × List Write :=
  let numFds := toInt32 h.fds.length
  let numInts := toInt32 (h.ints.length / 4 : Nat)
  let integers := toInt32 (numFds + numInts)
  (⟨numFds, numInts, h.fds⟩,
    [⟨0, 4 * h.fds.length, integers⟩, ⟨4 * numFds, 4 * numFds + h.ints.length, integers⟩])

/-- `server_wlegl_handle_to_native`: nothing on a count mismatch; otherwise the
descriptors move from the handle into the native handle. -/
def toNative (h : Handle) : Option (NativeHandle × List Write × Handle) :=
  if toInt32 h.fds.length ≠ h.numFds then none
  else
    let (native, writes) := fillNative h
    some (native, writes, { h with fds := [] })

/-- `native_handle_close`. -/
def closeNative (native : NativeHandle) (log : List (Event Fd)) : List (Event Fd) :=
  ((native.fds.take native.numFds.toNat).map Event.give).reverse ++ log

/-- `server_wlegl_handle_dtor` closes what the handle still has. -/
def handleDtor (h : Handle) (s : State) : State :=
  { s with fdLog := (h.fds.map Event.give).reverse ++ s.fdLog }

/-- `server_wlegl_buffer_dtor` reads the record, drops the reference to the
window buffer named there and deletes the record. -/
def bufferDtor (b : BufferResource) (s : State) : State :=
  { s with
    recordLog := .give b.record :: .use b.record :: s.recordLog
    refLog := .give b.buf :: s.refLog }

/-- `server_wlegl_buffer_create`: the resource points to the new record before
the import; a failed import deletes the record and leaves the resource. -/
def bufferCreate (s : State) (client : Client) (id : Nat) (imported : Bool) : Bool × State :=
  let record := s.fresh
  if imported then
    let buf := some (s.fresh + 1)
    (true, { s with
      buffers := ⟨client, id, record, buf⟩ :: s.buffers
      recordLog := .take record :: s.recordLog
      refLog := .take buf :: s.refLog
      fresh := s.fresh + 2 })
  else
    (false, { s with
      buffers := ⟨client, id, record, none⟩ :: s.buffers
      recordLog := .give record :: .take record :: s.recordLog
      fresh := s.fresh + 1 })

def postError (s : State) (e : ProtocolError) : State := { s with errors := e :: s.errors }

section
variable (s : State) (client : Client) (id : Nat)

def findHandle : Option Handle :=
  Registry.lookup Handle.key (client, id) s.handles

def findBuffer : Option BufferResource :=
  Registry.lookup BufferResource.key (client, id) s.buffers

/-- The object ids of a client that are in use. -/
def used : Bool :=
  (findHandle s client id).isSome || (findBuffer s client id).isSome

/-- `server_wlegl_create_handle`. -/
def createHandle (numFds : Int) (ints : List UInt8) : State :=
  if numFds < 0 then postError s (.numFdsNegative numFds)
  else { s with handles := { client, id, numFds, ints } :: s.handles }

end

/-- `add_fd`. -/
def addFd (s : State) (h : Handle) (fd : Fd) : State :=
  if 4 * (h.fds.length : Int) ≥ h.numFds * 4 then
    postError { s with fdLog := .give fd :: .take fd :: s.fdLog } .tooManyFds
  else
    { s with
      handles := Registry.modify Handle.key h.key (fun h => { h with fds := h.fds ++ [fd] }) s.handles
      fdLog := .take fd :: s.fdLog }

/-- The rest of `server_wlegl_create_buffer` once the handle is converted: the
raw native handle is closed and deleted whether or not the import succeeded. -/
def importNative (s : State) (client : Client) (id : Nat) (imported : Bool) :
    Option (NativeHandle × List Write × Handle) → State
  | none => postError s .badHandle
  | some (native, writes, emptied) =>
    let s := { s with
      handles := Registry.modify Handle.key emptied.key (fun _ => emptied) s.handles
      writes := writes ++ s.writes }
    let (created, s) := bufferCreate s client id imported
    let s := { s with fdLog := closeNative native s.fdLog }
    if created then s else postError s .invalidNativeHandle

/-- `server_wlegl_create_buffer`; the handle argument may be null. -/
def createBuffer (s : State) (client : Client) (id : Nat) (width height : Int)
    (handle : Option Handle) (imported : Bool) : State :=
  if width < 1 ∨ height < 1 then postError s (.badSize width height)
  else importNative s client id imported (handle.bind toNative)

/-- `wl_client_destroy`: every resource of the client is destroyed. The
destructors touch disjoint data, so their order does not matter. -/
def disconnect (s : State) (client : Client) : State :=
  let s := (s.handles.filter (fun h => h.client = client)).foldl (fun s h => handleDtor h s) s
  let s := (s.buffers.filter (fun b => b.client = client)).foldl (fun s b => bufferDtor b s) s
  { s with
    handles := s.handles.filter (fun h => h.client ≠ client)
    buffers := s.buffers.filter (fun b => b.client ≠ client) }

inductive Request where
  | createHandle (client : Client) (id : Nat) (numFds : Int) (ints : List UInt8)
  | addFd (client : Client) (id : Nat) (fd : Fd)
  | createBuffer (client : Client) (id : Nat) (width height : Int) (handle : Option Nat)
      (imported : Bool)
  | destroyHandle (client : Client) (id : Nat)
  | destroyBuffer (client : Client) (id : Nat)
  | disconnect (client : Client)
  deriving DecidableEq, Repr

/-- One request. The protocol library dispatches a request only to an object
of the client, creates objects only under unused ids and passes 32-bit
integers; the kernel delivers a descriptor under a number that is not open. -/
def step (s : State) : Request → Option State
  | .createHandle client id numFds ints =>
    if used s client id = false ∧ -2 ^ 31 ≤ numFds ∧ numFds < 2 ^ 31 then
      some (createHandle s client id numFds ints)
    else none
  | .addFd client id fd =>
    if fd ∈ (ledger s.fdLog).getD [] then none
    else (findHandle s client id).map fun h => addFd s h fd
  | .createBuffer client id width height handle imported =>
    if used s client id then none
    else match handle with
      | none => some (createBuffer s client id width height none imported)
      | some hid => (findHandle s client hid).map fun h =>
          createBuffer s client id width height (some h) imported
  | .destroyHandle client id =>
    (findHandle s client id).map fun h =>
      handleDtor h { s with handles := Registry.remove Handle.key (client, id) s.handles }
  | .destroyBuffer client id =>
    (findBuffer s client id).map fun b =>
      bufferDtor b { s with buffers := Registry.remove BufferResource.key (client, id) s.buffers }
  | .disconnect client => some (disconnect s client)

end Wlegl
