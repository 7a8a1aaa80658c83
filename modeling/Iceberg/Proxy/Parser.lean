import Iceberg.Proxy.Basic
import Iceberg.Proxy.CirQueue

/-!
# The reply parser (`parser.c`)

`parseArray`, `parseBulkString` and `parseSimple` are pure scans of the buffer: none of
them looks at what the queue or `saveValue` answered. They are modelled as functions that
return the calls they make (`Act`) together with the index they return; `parseReadData`
makes the calls in that order. A call of `popHandle` on an empty queue ends the process,
and with it the scan.

The JSON library is outside the repository. An object under construction is the list of
the `json_object_set` calls made on it, each with the C strings it was given.
-/

namespace Iceberg

/-- The `json_object_set(object, item_key, json_string(item_value))` calls made on an
object, in order. -/
abbrev JsonSets := List (Bytes × Bytes)

/-- What `popHandle` is called with: an object, or, in `parseBulkString`, a `char *` that
is passed for one. -/
inductive Payload where
  | object (sets : JsonSets)
  | text (s : Bytes)
  deriving DecidableEq

/-- `item_key`: not assigned yet, freed, or a string of its own. -/
inductive CPtr where
  | uninit
  | freed
  | str (s : Bytes)
  deriving DecidableEq

namespace Parser

/-- A call made while parsing: `saveToBuf` into `buf_slave_answer`, the pop of
`parseSimple`, or `popHandle`. -/
inductive Act where
  | save (buf : Bytes)
  | pop
  | popHandle (p : Payload)
  deriving DecidableEq

/-- How a sub-parser ends: it returns an index, calls `exit(1)`, or does something that C
gives no meaning to (a use of a pointer that holds no string, a copy of negative length). -/
inductive Res where
  | ret (acts : List Act) (index : Int)
  | exit
  | crash
  deriving DecidableEq

/-- The exit that all sub-parsers take on an incomplete reply: save it from its first byte
and return `-1`. -/
def incomplete (w : WData) (start : Int) : Res :=
  match saveToBuf w start with
  | some buf => .ret [.save buf] (-1)
  | none => .crash

/-- The item loop of `parseArray`, for `arrayLen` items to come. `item_value` is assigned
right before it is tested, so only `item_key` is carried along. -/
def parseItems (w : WData) (start : Int) : Nat → Int → JsonSets → CPtr → Res
  | 0, index, object, _ => .ret [.popHandle (.object object)] index
  | arrayLen + 1, index, object, itemKey =>
    if w.get index ≠ Byte.dollar then .exit
    else if index + 1 ≥ w.len then incomplete w start
    else match lengthField w (index + 1) with
      | none => incomplete w start
      | some (itemLen, cr) =>
        let itemStart := cr + 2
        let index := int32 (cr + itemLen + 4)
        if index > w.len ∨ (index = w.len ∧ arrayLen + 1 > 1) then incomplete w start
        else if itemLen > 0 then
          let item := cstr (w.slice itemStart itemLen.toNat)
          if (arrayLen + 1) % 2 = 0 then parseItems w start arrayLen index object (.str item)
          else match itemKey with
            | .str key => parseItems w start arrayLen index (object ++ [(key, item)]) .freed
            | _ => .crash
        else parseItems w start arrayLen index object itemKey

/-- `parseArray`. -/
def parseArray (w : WData) (start : Int) : Res :=
  if start + 1 ≥ w.len then incomplete w start
  else match lengthField w (start + 1) with
    | none => incomplete w start
    | some (arrayLen, cr) =>
      let index := cr + 2
      if index > w.len ∨ (index = w.len ∧ arrayLen > 0) then incomplete w start
      else parseItems w start arrayLen.toNat index [] .uninit

/-- `parseBulkString`, which posts the string as if it were a JSON object. -/
def parseBulkString (w : WData) (start : Int) : Res :=
  match lengthField w (start + 1) with
  | none => incomplete w start
  | some (itemLen, cr) =>
    let dataStart := cr + 2
    let index := int32 (cr + itemLen + 4)
    if index > w.len then incomplete w start
    else if itemLen < 0 then .crash
    else .ret [.popHandle (.text (cstr (w.slice dataStart itemLen.toNat)))] index

/-- The search for `'\n'` in `parseSimple`. -/
def findLf (w : WData) : Nat → Int → Option Int
  | 0, _ => none
  | fuel + 1, index => if w.get index = Byte.lf then some index else findLf w fuel (index + 1)

/-- `parseSimple`. The byte tested for `'-'` is the one at the line end. -/
def parseSimple (w : WData) (start : Int) : Res :=
  match findLf w (w.len - (start + 1)).toNat (start + 1) with
  | some index =>
    if w.get index = Byte.minus then .ret [.pop] (index + 1)
    else if index - start > 5 then .ret [.pop] (index + 1)
    else .ret [] (index + 1)
  | none => incomplete w start

/-- The dispatch of `parseReadData` on the first byte of a reply; `none` is the branch
that reports unexpected data. -/
def parseReply (w : WData) (index : Int) : Option Res :=
  let b := w.get index
  if b = Byte.star then some (parseArray w index)
  else if b = Byte.dollar then some (parseBulkString w index)
  else if b = Byte.minus ∨ b = Byte.plus ∨ b = Byte.colon then some (parseSimple w index)
  else none

/-- How the loop of `parseReadData` ends: normally, in the branch that reports unexpected
data, in `exit(1)`, without a meaning, or never. -/
inductive End where
  | done
  | unexpected
  | exit
  | crash
  | hang
  deriving DecidableEq

/-- Whether the process goes on after a call of `parseReadData` that ended so. -/
def End.running : End → Bool
  | .done | .unexpected => true
  | .exit | .crash | .hang => false

/-- The loop of `parseReadData`: the calls it makes and how it ends. -/
def parseLoop (w : WData) : Nat → Int → List Act × End
  | 0, _ => ([], .hang)
  | fuel + 1, index =>
    if 0 ≤ index ∧ index < w.len then
      match parseReply w index with
      | none => ([], .unexpected)
      | some .exit => ([], .exit)
      | some .crash => ([], .crash)
      | some (.ret acts next) =>
        let rest := parseLoop w fuel next
        (acts ++ rest.1, rest.2)
    else ([], .done)

/-- Rounds after which the loop has ended: only `popHandle` can move the index back, and
it takes a queue entry each time. -/
def loopFuel (w : WData) : Nat := (w.data.length + 1) * (queSize + 1)

end Parser

/-! ## The state of the answer side -/

/-- What `popHandle` and `parseSimple` did, in order. -/
inductive Call where
  | pop (key : Option Key)
  | saveValue (object : Payload) (key : Key)
  deriving DecidableEq

/-- The globals that `parser.c` works on, and the history of its calls. -/
structure Answers where
  q : KeyQueue
  bufSlaveAnswer : Bytes
  calls : List Call

namespace Answers

/-- One call. `popHandle` (`pop_cir_queue`, then `saveValue`) on an empty queue is
`exit(1)`. -/
def perform (a : Answers) : Parser.Act → Answers × Parser.End
  | .save buf => ({ a with bufSlaveAnswer := buf }, .done)
  | .pop => ({ a with q := a.q.pop.2, calls := a.calls ++ [.pop a.q.pop.1] }, .done)
  | .popHandle p =>
    match a.q.pop.1 with
    | none => ({ a with calls := a.calls ++ [.pop none] }, .exit)
    | some key =>
      ({ a with
          q := a.q.pop.2
          calls := a.calls ++ [.pop (some key), .saveValue p key] }, .done)

/-- The calls in order, up to one that ends the process; `fin` is how the scan that makes
them ends. -/
def performAll (a : Answers) (fin : Parser.End) : List Parser.Act → Answers × Parser.End
  | [] => (a, fin)
  | act :: acts =>
    match a.perform act with
    | (a, .done) => performAll a fin acts
    | stop => stop

/-- `parseReadData`. -/
def parseReadData (a : Answers) (w : WData) : Answers × Parser.End :=
  let processData := mergeCarry a.bufSlaveAnswer w
  let scan := Parser.parseLoop processData (Parser.loopFuel processData) 0
  performAll { a with bufSlaveAnswer := [] } scan.2 scan.1

end Answers

end Iceberg
