import Iceberg.Proxy.World

/-!
# Connecting, reading and writing (`io.c`, `event.c`)

`readData` and `writeData` are the only places where the proxy reads and writes. Both first
connect to the master when there is no `master_fd`, and both reset everything through
`closeFd` on an error.
-/

namespace Iceberg

/-- `listenToPort`; the result is whether it returns `1`. -/
def listenToPort : Proxy Bool := do
  let fd ← openFd .acceptTcpHandler
  modify fun w => { w with listenFd := fd }
  if fd ≠ -1 then
    if ← aeCreateFileEvent fd .acceptTcpHandler then return true
    else
      modify (World.close · fd)
      return false
  else return false

/-- `connectToMaster`; the result is whether it returns `1`. -/
def connectToMaster : Proxy Bool := do
  let fd ← openFd .readFromMaster
  modify fun w => { w with masterFd := fd }
  if fd ≠ -1 then
    if ← aeCreateFileEvent fd .readFromMaster then
      if ← listenToPort then return true else throw .exit
    else
      -- `master_fd` keeps the number that is closed here
      modify (World.close · fd)
      return false
  else return false

/-- The head of `readData` and `writeData`. -/
def connectIfNone : Proxy Unit := do
  let w ← get
  if w.masterFd = -1 then discard connectToMaster

/-- `readData` for a buffer of `size` bytes: the bytes read, none of them when the call is to
be made again, and `none` for `-1`. -/
def readData (fd : Int) (size : Nat) : Proxy (Option Bytes) := do
  connectIfNone
  if fd = -1 then return none
  match ← sysRead fd size with
  | .ok bs => return some bs
  | .error e =>
    if again e then return some []
    else
      modify World.closeFd
      return none

/-- `writeData`; the result is whether all bytes were written, and otherwise it returns
`-1`. A `write` to a descriptor that is not open fails. -/
def writeData (fd : Int) (bs : Bytes) : Proxy Bool := do
  connectIfNone
  if fd = -1 then return false
  let w ← get
  if fd ∉ w.fds then
    modify World.closeFd
    return false
  else
    let sent := sendAll w.outcomes.writes bs
    modify fun w => { w with
      outcomes := { w.outcomes with writes := sent.2.2 }
      trace := w.trace ++ sent.1.map (Event.wrote fd) }
    match sent.2.1 with
    | .all => return true
    | .waiting => throw .writing
    | .failed =>
      modify World.closeFd
      return false

/-- `readDataFromSlave`. -/
def readDataFromSlave (fd : Int) : Proxy Unit := do
  if fd ≠ -1 then
    if ← aeCreateFileEvent fd .readFromSlave then
      let w ← get
      if w.readFd = -1 then
        let readFd ← openFd .readDelValue
        modify fun w => { w with readFd := readFd }
        if readFd = -1 then modify World.closeFd
        else if ← aeCreateFileEvent readFd .readDelValue then pure ()
        else modify World.closeFd
    else modify World.closeFd

/-- `acceptTcpHandler`. The old slave is closed, but stays in the table of the event loop. When
`accept` fails, `anetTcpAccept` writes the text of the error through the pointer it is given,
and that is the literal `""`. -/
def acceptTcpHandler : Proxy Unit := do
  let w ← get
  if w.masterFd ≠ -1 then
    if w.clientFd ≠ -1 then modify (World.close · w.clientFd)
    let fd ← openFd .readFromSlave
    -- an interrupted call is made again, so this is any other error
    if fd = -1 then throw .crash
    else
      modify fun w => { w with clientFd := fd }
      readDataFromSlave fd

/-- `timeEvent`, which tries to reconnect at every tenth call. -/
def timeEvent : Proxy Unit := do
  let w ← get
  if w.cronloops % 10 = 0 ∧ w.masterFd = -1 then discard connectToMaster
  modify fun w => { w with cronloops := w.cronloops + 1 }

end Iceberg
