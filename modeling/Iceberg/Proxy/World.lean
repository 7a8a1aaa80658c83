import Iceberg.Proxy.LruedQuery
import Mathlib.Logic.Function.Basic

/-!
# The proxy and its surroundings

The globals of the proxy, its event loop (`ae.c`, of which the proxy uses readable events and
one timer), and the system calls it makes. What a system call does is up to the surroundings:
every callback runs with a list of outcomes for each kind of call. At a call for which there
is none left it stops as waiting, so that a statement about all outcomes speaks about every
moment of a callback.

`errno` only matters where the code looks at it, right behind a failed call. It is part of
the outcome there, as any value: a `read` that returns `0` leaves what an earlier call has
left.
-/

namespace Iceberg

/-- The values of the global `state`. -/
inductive State where
  | start
  | syncStart
  | sync
  | running
  deriving DecidableEq

/-- The procedures that are registered for descriptors. They also name the four kinds of
descriptors: master, slave, queries and listening socket. -/
inductive Handler where
  | readFromMaster
  | readFromSlave
  | readDelValue
  | acceptTcpHandler
  deriving DecidableEq

/-- What the proxy does, as far as it is recorded: the bytes it reads and writes, the
descriptors it opens and closes, the calls of `closeFd`, the chunks that are given to
`processInputBuffer`, and the keys whose line has been written completely. With a descriptor
that is closed comes whether the event loop still has a mask for it, and with a key the place
of its command in all the bytes that `processInputBuffer` has been given. -/
inductive Event where
  | read (fd : Int) (bs : Bytes)
  | wrote (fd : Int) (bs : Bytes)
  | opened (fd : Int)
  | closed (fd : Int) (masked : Bool)
  | reset
  | scanned (bs : Bytes)
  | asked (place : Int) (key : Key)
  deriving DecidableEq

/-- Why a callback does not return: it waits in a system call, calls `exit`, stores behind
the end of a buffer, does something else that C gives no meaning to, or runs forever. -/
inductive Stop where
  | reading
  | writing
  | opening
  | registering
  | exit
  | fault
  | crash
  | hang
  deriving DecidableEq

/-- `EAGAIN` and `EWOULDBLOCK`, the `11` of `writeData`. -/
def eagain : Int := 11

def einprogress : Int := 115

def ebadf : Int := 9

/-- The errors after which `readData` and `writeData` do not give up. -/
def again (errno : Int) : Bool := errno == eagain || errno == einprogress

/-- The outcomes of the system calls of one callback: a `read` gets bytes, a `write` takes at
most `n + 1` of its bytes, a call that opens a descriptor of some kind yields its number and
`epoll_ctl` for one succeeds; or the call fails (`read` and `write` may also return `0`), with
some `errno`. The memory around the read buffer is part of it. -/
structure Outcomes where
  reads : List (Except Int (UInt8 × Bytes))
  writes : List (Except Int Nat)
  opens : Handler → List (Except Int Int)
  ctls : Handler → List Bool
  around : Int → UInt8

structure World where
  state : State
  bulkSize : Int
  masterFd : Int
  clientFd : Int
  readFd : Int
  listenFd : Int
  bufMasterCmd : Bytes
  answers : Answers
  cronloops : Nat
  /-- The open descriptors. -/
  fds : List Int
  /-- The descriptors that `epoll` watches. -/
  epoll : List Int
  /-- `eventLoop->events`: the `rfileProc` of a descriptor whose mask is not empty. -/
  events : Int → Option Handler
  /-- The rest of `eventLoop->fired`. -/
  fired : List Int
  outcomes : Outcomes
  trace : List Event
  /-- How many bytes `processInputBuffer` has been given, and the keys whose line has been
  written completely to the present `read_fd`. Both are only recorded. -/
  seen : Nat
  asked : List Key

abbrev Proxy := EStateM Stop World

/-- No outcomes: the first system call waits. -/
def Outcomes.none : Outcomes := ⟨[], [], fun _ => [], fun _ => [], fun _ => 0⟩

namespace World

/-- The globals as they are initialised, and an event loop without events. -/
def init : World where
  state := .start
  bulkSize := 0
  masterFd := -1
  clientFd := -1
  readFd := -1
  listenFd := -1
  bufMasterCmd := []
  answers := { q := initCirQueue, bufSlaveAnswer := [], calls := [] }
  cronloops := 0
  fds := []
  epoll := []
  events := fun _ => none
  fired := []
  outcomes := .none
  trace := []
  seen := 0
  asked := []

/-- `close`, which also takes the descriptor from the set that `epoll` watches. -/
def close (w : World) (fd : Int) : World :=
  { w with
    fds := w.fds.filter (· ≠ fd)
    epoll := w.epoll.filter (· ≠ fd)
    trace := w.trace ++ [Event.closed fd (w.events fd).isSome] }

/-- `aeDeleteFileEvent` for `AE_READABLE`, in a loop of 1024 descriptors. -/
def aeDeleteFileEvent (w : World) (fd : Int) : World :=
  if fd ≥ 1024 ∨ w.events fd = none then w
  else
    { w with
      epoll := w.epoll.filter (· ≠ fd)
      events := Function.update w.events fd none }

/-- The part of `closeFd` for one of the four descriptors. -/
def shut (w : World) (fd : Int) : World :=
  if fd ≠ -1 then (w.aeDeleteFileEvent fd).close fd else w

/-- `closeFd`. The timer, which it replaces by a new one, stays. -/
def closeFd (w : World) : World :=
  let w := { w with trace := w.trace ++ [Event.reset] }
  let w := { w.shut w.clientFd with clientFd := -1 }
  let w := { w.shut w.readFd with readFd := -1 }
  let w := { w.shut w.masterFd with masterFd := -1 }
  let w := { w.shut w.listenFd with listenFd := -1 }
  { w with
    state := .start
    bufMasterCmd := []
    answers := { w.answers with q := w.answers.q.clear, bufSlaveAnswer := [] }
    asked := [] }

end World

/-! ## System calls -/

/-- `read`. -/
def sysRead (fd : Int) (size : Nat) : Proxy (Except Int Bytes) := do
  let w ← get
  if fd ∉ w.fds then return .error ebadf
  else match w.outcomes.reads with
    | [] => throw .reading
    | .error e :: reads =>
      set { w with outcomes := { w.outcomes with reads := reads } }
      return .error e
    | .ok (b, bs) :: reads =>
      let bs := (b :: bs).take size
      set { w with
        outcomes := { w.outcomes with reads := reads }
        trace := w.trace ++ [Event.read fd bs] }
      return .ok bs

/-- How the loop of `writeData` ends: with all bytes written, with an error, or waiting. -/
inductive Sent where
  | all
  | failed
  | waiting
  deriving DecidableEq

/-- The loop of `writeData` over the outcomes of `write`: the pieces that were written, how
it ends, and the outcomes that are left. -/
def sendAll : List (Except Int Nat) → Bytes → List Bytes × Sent × List (Except Int Nat)
  | writes, [] => ([], .all, writes)
  | [], _ :: _ => ([], .waiting, [])
  | .error e :: writes, b :: bs =>
    if again e then sendAll writes (b :: bs) else ([], .failed, writes)
  | .ok n :: writes, b :: bs =>
    let rest := sendAll writes ((b :: bs).drop (n + 1))
    ((b :: bs).take (n + 1) :: rest.1, rest.2)

/-- A call that opens a descriptor: one that is not open yet, or `-1`. -/
def openFd (kind : Handler) : Proxy Int := do
  let w ← get
  match w.outcomes.opens kind with
  | [] => throw .opening
  | .error _ :: opens =>
    set { w with outcomes := { w.outcomes with
      opens := Function.update w.outcomes.opens kind opens } }
    return -1
  | .ok fd :: opens =>
    if fd < 0 ∨ fd ∈ w.fds then throw .opening
    else
      set { w with
        outcomes := { w.outcomes with opens := Function.update w.outcomes.opens kind opens }
        fds := fd :: w.fds
        trace := w.trace ++ [Event.opened fd] }
      return fd

/-- `aeCreateFileEvent` for `AE_READABLE`; the result is whether it is `AE_OK`. A descriptor
whose mask is set already is modified, which fails when `epoll` does not watch it. -/
def aeCreateFileEvent (fd : Int) (proc : Handler) : Proxy Bool := do
  let w ← get
  if fd ≥ 1024 then return false
  else if (w.events fd = none ∧ fd ∈ w.epoll) ∨ (w.events fd ≠ none ∧ fd ∉ w.epoll) then
    return false
  else match w.outcomes.ctls proc with
    | [] => throw .registering
    | done :: ctls =>
      let w := { w with outcomes := { w.outcomes with
        ctls := Function.update w.outcomes.ctls proc ctls } }
      if done then
        set { w with
          epoll := if fd ∈ w.epoll then w.epoll else fd :: w.epoll
          events := Function.update w.events fd (some proc) }
        return true
      else
        set w
        return false

end Iceberg
