import Iceberg.Proxy.Io

/-!
# The callbacks (`read_handler.c`) and `queryKey`

What the proxy does when one of its descriptors is readable. The loops of `readFromMaster`
use up an outcome of `read` in every round, so as many rounds as there are outcomes, and one
more, are enough.
-/

namespace Iceberg

open Iceberg.Parser (End)

/-! ## The query side of a chunk -/

/-- `queryKey`. The place of the command is only recorded. -/
def queryKey (place : Int) (key : Key) : Proxy Unit := do
  let w ← get
  if w.answers.q.isFull then pure ()
  else if ← writeData w.readFd (Scan.queryCmd key) then
    modify fun w =>
      { w with
        answers := { w.answers with q := w.answers.q.push key }
        asked := w.asked ++ [key]
        trace := w.trace ++ [Event.asked place key] }

/-- The calls of a scan, in order. `base` is the place of the scanned buffer. -/
def performScan (base : Int) : List Scan.Act → Proxy Unit
  | [] => pure ()
  | .query start key :: acts => do
    queryKey (base + start) key
    performScan base acts
  | .save buf :: acts => do
    modify fun w => { w with bufMasterCmd := buf }
    performScan base acts

/-- A scan or a parse that did not end normally. -/
def finish : End → Proxy Unit
  | .done | .unexpected => pure ()
  | .exit => throw .exit
  | .crash => throw .crash
  | .hang => throw .hang

/-- `processInputBuffer` on a read from the master. -/
def processInputBuffer (data : WData) : Proxy Unit := do
  let w ← get
  let scan := Scan.processInputBuffer w.bufMasterCmd data
  let base := (w.seen : Int) + data.len - (mergeCarry w.bufMasterCmd data).len
  modify fun w =>
    { w with
      bufMasterCmd := []
      seen := w.seen + data.data.length
      trace := w.trace ++ [Event.scanned data.data] }
  performScan base scan.1
  finish scan.2

/-! ## The header of the payload -/

/-- `strtoull` in base 10: blanks, a sign, and digits up to the first other byte. A number
that is too large gives the largest value, whatever its sign. -/
def strtoull (s : Bytes) : Nat :=
  let digits := fun ds : Bytes => ds.takeWhile fun c => 48 ≤ c && c ≤ 57
  let number := fun ds : Bytes => (digits ds).foldl (fun n c => n * 10 + (c.toNat - 48)) 0
  let value := fun ds : Bytes => min (number ds) (2 ^ 64 - 1)
  match (cstr s).dropWhile fun c => c == Byte.space || (9 ≤ c && c ≤ 13) with
  | [] => 0
  | c :: ds =>
    if c = Byte.plus then value ds
    else if c = Byte.minus then
      if number ds < 2 ^ 64 then (2 ^ 64 - number ds) % 2 ^ 64 else 2 ^ 64 - 1
    else value (c :: ds)

/-- A `long long` that an `unsigned long long` is assigned to. -/
def int64 (n : Nat) : Int := ((n : Int) + 2 ^ 63) % 2 ^ 64 - 2 ^ 63

/-- The loop of `SYNC_START_STATE`, which reads and passes on single bytes; `line` are the
bytes in front of `p`. The result is the header line without its line feed, and `none` when
the callback returns. A line feed at the start of the line is passed over. -/
def syncHeader (fd : Int) : Nat → Bytes → Proxy (Option Bytes)
  | 0, _ => throw .hang
  | fuel + 1, line => do
    match ← readData fd 1 with
    | none => return none
    | some [] => syncHeader fd fuel line
    | some (b :: _) =>
      if line.length ≥ maxRead then throw .fault
      else
        let w ← get
        if ← writeData w.clientFd [b] then
          if b = Byte.lf then
            if line ≠ [] then return some line else syncHeader fd fuel line
          else syncHeader fd fuel (line ++ [b])
        else return none

/-- The case `SYNC_START_STATE` of `readFromMaster`. -/
def syncStartCase (fd : Int) : Proxy Unit := do
  let w ← get
  match ← syncHeader fd (w.outcomes.reads.length + 1) [] with
  | none => pure ()
  | some line =>
    if line.head? = some Byte.minus then throw .exit
    else
      modify fun w => { w with bulkSize := int64 (strtoull line.tail), state := .sync }

/-! ## The payload -/

/-- The third argument of `readData` in `SYNC_STATE`, a `size_t`. -/
def payloadSize (bulkSize : Int) : Nat :=
  if bulkSize > maxRead then maxRead else (bulkSize % 2 ^ 64).toNat

/-- The loop of `SYNC_STATE`. -/
def syncPayload (fd : Int) : Nat → Proxy Unit
  | 0 => throw .hang
  | fuel + 1 => do
    let w ← get
    if w.bulkSize = 0 then modify fun w => { w with state := .running }
    else
      match ← readData fd (payloadSize w.bulkSize) with
      | none => pure ()
      | some [] => syncPayload fd fuel
      | some (b :: bs) =>
        if (b :: bs).length > maxRead then throw .fault
        else
          let w ← get
          if ← writeData w.clientFd (b :: bs) then
            modify fun w => { w with bulkSize := w.bulkSize - (b :: bs).length }
            syncPayload fd fuel
          else pure ()

/-- The case `SYNC_STATE` of `readFromMaster`. -/
def syncCase (fd : Int) : Proxy Unit := do
  let w ← get
  syncPayload fd (w.outcomes.reads.length + 1)

/-! ## Commands -/

/-- `"+CONTINUE"`. -/
def continueLine : Bytes := [43, 67, 79, 78, 84, 73, 78, 85, 69]

/-- `"+FULLRESYNC"`. -/
def fullresyncLine : Bytes := [43, 70, 85, 76, 76, 82, 69, 83, 89, 78, 67]

/-- The test for the answer to `PSYNC`. -/
def startsSync (data : WData) : Bool :=
  decide (9 < data.len ∧ data.len < 100)
    && (data.slice 0 9 == continueLine || data.slice 0 11 == fullresyncLine)

/-- The default case of `readFromMaster` looks at the bytes it has read. -/
def examine (data : WData) : Proxy Unit := do
  let w ← get
  if w.state = .running then processInputBuffer data
  else if startsSync data then modify fun w => { w with state := .syncStart }
  else pure ()

/-- Then it passes them on. -/
def handleChunk (data : WData) : Proxy Unit := do
  examine data
  let w ← get
  discard (writeData w.clientFd data.data)

/-- The default case of `readFromMaster`. -/
def defaultCase (fd : Int) : Proxy Unit := do
  match ← readData fd maxRead with
  | none => pure ()
  | some [] => pure ()
  | some (b :: bs) =>
    let w ← get
    handleChunk ⟨b :: bs, w.outcomes.around⟩

def readFromMaster (fd : Int) : Proxy Unit := do
  let w ← get
  match w.state with
  | .syncStart => syncStartCase fd
  | .sync => syncCase fd
  | .start | .running => defaultCase fd

/-! ## The other callbacks -/

/-- `"SYNC\r\n"`. -/
def syncLine : Bytes := [83, 89, 78, 67, 13, 10]

/-- `readFromSlave` looks for `SYNC`. -/
def noticeSync (bs : Bytes) : Proxy Unit :=
  if bs = syncLine then modify fun w => { w with state := .syncStart } else pure ()

/-- What `readFromSlave` does with the bytes it has read. -/
def passOn (bs : Bytes) : Proxy Unit := do
  noticeSync bs
  let w ← get
  discard (writeData w.masterFd bs)

def readFromSlave (fd : Int) : Proxy Unit := do
  match ← readData fd maxRead with
  | none => pure ()
  | some [] => pure ()
  | some (b :: bs) => passOn (b :: bs)

def readDelValue (fd : Int) : Proxy Unit := do
  match ← readData fd maxRead with
  | none => pure ()
  | some [] => pure ()
  | some (b :: bs) =>
    let w ← get
    let parsed := w.answers.parseReadData ⟨b :: bs, w.outcomes.around⟩
    modify fun w => { w with answers := parsed.1 }
    finish parsed.2

/-- The callback of a descriptor. -/
def callback : Handler → Int → Proxy Unit
  | .readFromMaster, fd => readFromMaster fd
  | .readFromSlave, fd => readFromSlave fd
  | .readDelValue, fd => readDelValue fd
  | .acceptTcpHandler, _ => acceptTcpHandler

end Iceberg
