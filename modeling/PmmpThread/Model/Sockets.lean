/-
Socket objects of ext/sockets and the process-wide table of the
descriptors that were shared: src/ext_sockets_hacks.c, the functions for
`shared_sockets` in src/globals.c, and the sockets in src/store.c.

# Descriptors

A descriptor number names a socket while it is open; the system gives a new
socket any number that is not in use. The numbers of an object and of a
storage are what was in the object when it was made or stored. An invalid
descriptor is `none`. Closing and freeing are PHP's: `socket_close` closes
the descriptor and sets it to -1, the free handler closes it unless it is
-1.

# Ghost data

Every socket of the system has a number of its own, `SocketId`, which the
code does not have. It tells a socket from one that has its descriptor
later. `stored` are the sockets of which an object was stored.

# Threads

The table has a lock, and what a thread does to its objects between two
accesses to the table concerns no other thread, so operations of different
threads take turns.
-/
import Mathlib.Data.Finset.Insert
import Mathlib.Logic.Function.Basic

namespace PmmpThread.Model

abbrev SocketId := Nat

/-- The fields of a socket that are copied along. -/
structure SocketInfo where
  type : Int
  error : Int
  blocking : Int
  deriving DecidableEq, Repr

/-- `php_socket`. `zstream` says that there is one. -/
structure PhpSocket where
  bsdSocket : Option Nat
  info : SocketInfo
  zstream : Bool
  socket : SocketId
  deriving DecidableEq, Repr

/-- `pmmpthread_socket_storage_t`. -/
structure SocketStorage where
  bsdSocket : Option Nat
  info : SocketInfo
  socket : SocketId
  deriving DecidableEq, Repr

/-- The open descriptors, the Socket objects of all threads, the table
`shared_sockets` and the storages in ThreadSafe objects. -/
structure Sockets where
  os : Nat → Option SocketId
  objects : Nat → Option PhpSocket
  sharedSockets : Finset Nat
  storages : List SocketStorage
  next : SocketId
  stored : Finset SocketId

/-- What happens to sockets. An object is at an address that the operation
names. -/
inductive SocketOp where
  | create (a fd : Nat) (info : SocketInfo) (zstream : Bool)
  | store (a : Nat)
  | restore (i a : Nat)
  | close (a : Nat)
  | free (a : Nat)

namespace Sockets

/-- Before the first socket. -/
def init : Sockets where
  os := fun _ => none
  objects := fun _ => none
  sharedSockets := ∅
  storages := []
  next := 0
  stored := ∅

/-- `pmmpthread_globals_shared_socket_track`. -/
def sharedSocketTrack (shared : Finset Nat) : Option Nat → Finset Nat
  | none => shared
  | some n => insert n shared

/-- `pmmpthread_globals_socket_shared`. -/
def socketShared (shared : Finset Nat) : Option Nat → Bool
  | none => false
  | some n => n ∈ shared

/-- `close`. -/
def closeFd (os : Nat → Option SocketId) :
    Option Nat → Nat → Option SocketId
  | none => os
  | some n => Function.update os n none

/-- The Socket case of `pmmpthread_store_create`. A socket with a stream is
not stored. -/
def storeCreate (s : Sockets) (o : PhpSocket) : Sockets :=
  if o.zstream then s
  else
    { s with
      sharedSockets := sharedSocketTrack s.sharedSockets o.bsdSocket
      storages := s.storages ++ [⟨o.bsdSocket, o.info, o.socket⟩]
      stored := insert o.socket s.stored }

/-- The Socket case of `pmmpthread_store_restore_zval`. -/
def restored (st : SocketStorage) : PhpSocket :=
  ⟨st.bsdSocket, st.info, false, st.socket⟩

/-- What `pmmpthread_socket_free_obj_hook` leaves for the original
handler. -/
def freeObjHook (shared : Finset Nat) (o : PhpSocket) : PhpSocket :=
  if socketShared shared o.bsdSocket then { o with bsdSocket := none } else o

/-- An operation, unless it is about an object or a storage that is not
there, or the descriptor is in use. -/
def step (s : Sockets) : SocketOp → Option Sockets
  | .create a fd info zstream =>
      if (s.objects a).isNone && (s.os fd).isNone then
        some { s with
          os := Function.update s.os fd (some s.next)
          objects := Function.update s.objects a
            (some ⟨some fd, info, zstream, s.next⟩)
          next := s.next + 1 }
      else none
  | .store a => (s.objects a).map s.storeCreate
  | .restore i a =>
      if (s.objects a).isNone then
        s.storages[i]?.map fun st =>
          { s with objects := Function.update s.objects a (restored st) }
      else none
  | .close a =>
      (s.objects a).map fun o =>
        { s with
          os := closeFd s.os o.bsdSocket
          objects := Function.update s.objects a
            (some { o with bsdSocket := none }) }
  | .free a =>
      (s.objects a).map fun o =>
        { s with
          os := closeFd s.os (freeObjHook s.sharedSockets o).bsdSocket
          objects := Function.update s.objects a none }

/-- A run of operations. -/
def run (s : Sockets) : List SocketOp → Option Sockets
  | [] => some s
  | op :: ops => (s.step op).bind fun s => s.run ops

-- ======================================================= what is wanted

/-- Freeing the object at `a` closes the descriptor of a socket that was
never stored, so that the socket is not open any more, and closes nothing
if the socket was stored. -/
def FreesRight (s : Sockets) (a : Nat) : Prop :=
  ∀ o s', s.objects a = some o → s.step (.free a) = some s' →
    (o.socket ∉ s.stored → ∀ n, s'.os n ≠ some o.socket)
      ∧ (o.socket ∈ s.stored → s'.os = s.os)

/-- A new socket does not get a number that is in the table. -/
def Untracked (s : Sockets) : SocketOp → Prop
  | .create _ fd _ _ => fd ∉ s.sharedSockets
  | _ => True

end Sockets

end PmmpThread.Model
