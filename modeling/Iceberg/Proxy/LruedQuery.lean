import Iceberg.Proxy.Parser

/-!
# The command scanner (`lrued_query.c`)

`processInputBuffer` and `delParser` look for `DEL` commands in what the master sends.
Neither looks at what `queryKey` answers, so the two are modelled as functions that return
the calls they make (`Act`) and how they end; `queryKey` itself, which writes to a socket,
is in `ReadHandler`.

The `strcmp` of `processInputBuffer` runs on a `char[14]` without a terminator. It is read
as the comparison of these fourteen bytes.
-/

namespace Iceberg

namespace Scan

open Iceberg.Parser (End)

/-- `cmp1` of `processInputBuffer`: `"*2\r\n$3\r\nDEL\r\n$"`. -/
def delHeader : Bytes := [42, 50, 13, 10, 36, 51, 13, 10, 68, 69, 76, 13, 10, 36]

/-- A call made while scanning: `queryKey(el, len, key)`, where the key is a buffer of
`len` bytes, or `saveToBuf` into `buf_master_cmd`. The call of `queryKey` is noted with the
place of the command it is made for, which the source does not pass on. -/
inductive Act where
  | query (start : Int) (key : Bytes)
  | save (buf : Bytes)
  deriving DecidableEq

/-- How `delParser` ends: it returns an index, or copies a negative number of bytes. -/
inductive Res where
  | ret (acts : List Act) (index : Int)
  | crash
  deriving DecidableEq

/-- Save the buffer from `start` on, and return `index`. -/
def keep (w : WData) (start index : Int) : Res :=
  match saveToBuf w start with
  | some buf => .ret [.save buf] index
  | none => .crash

/-- `delParser`. -/
def delParser (w : WData) (start : Int) : Res :=
  let index := start + 13
  if w.get index = Byte.dollar then
    let index := index + 1
    if index ≥ w.len then keep w start (-1)
    else match lengthField w index with
      | none => keep w start (-1)
      | some (len, cr) =>
        let index := cr + 2
        if index ≥ w.len then keep w start (-1)
        else if int32 (index + len) ≤ w.len then
          if len < 0 then .crash
          else .ret [.query start (strncpy (w.slice index len.toNat))] (int32 (index + len + 2))
        else keep w start (int32 (index + len + 2))
  else .ret [] (-1)

/-- The inner loop of `processInputBuffer`, which skips to the next `'*'`. -/
def skipToStar (w : WData) : Nat → Int → Int
  | 0, index => index
  | fuel + 1, index =>
    if w.get index ≠ Byte.star ∧ index < w.len then skipToStar w fuel (index + 1) else index

/-- The outer loop of `processInputBuffer`: the calls it makes and how it ends. An index in
front of the buffer, which only an overflow in `delParser` can produce, is a read of memory
that is not there. -/
def scan (w : WData) : Nat → Int → List Act × End
  | 0, _ => ([], .hang)
  | fuel + 1, index =>
    if index < 0 then ([], .crash)
    else if index < w.len then
      let index := skipToStar w (w.len - index).toNat index
      if index < w.len then
        if w.len - 14 > 0 then
          if strncpy (w.slice index 14) = delHeader then
            match delParser w index with
            | .crash => ([], .crash)
            | .ret acts next =>
              if next = -1 then (acts, .done)
              else
                let rest := scan w fuel next
                (acts ++ rest.1, rest.2)
          else scan w fuel (index + 14)
        else
          -- the save starts one byte early, at `data[-1]` when the `'*'` comes first
          match saveToBuf w (index - 1) with
          | some buf => ([.save buf], .done)
          | none => ([], .crash)
      else scan w fuel index
    else ([], .done)

/-- The loop from `index` on. Every round takes the index at least one byte further. -/
def scanFrom (w : WData) (index : Int) : List Act × End :=
  scan w ((w.len - index).toNat + 1) index

/-- `processInputBuffer` with `carry` in `buf_master_cmd`, whose length it sets to zero
before the loop. -/
def processInputBuffer (carry : Bytes) (w : WData) : List Act × End :=
  scanFrom (mergeCarry carry w) 0

/-- The seven bytes `hgetall`. -/
def hgetall : Bytes := [104, 103, 101, 116, 97, 108, 108]

/-- The `8 + 2 + len` bytes of `cmd` in `queryKey`, for a key in a buffer of `len` bytes. -/
def queryCmd (key : Bytes) : Bytes := hgetall ++ Byte.space :: (strncpy key ++ crlf)

/-- The keys passed to `queryKey`, in order. -/
def keysOf (acts : List Act) : List Bytes :=
  acts.filterMap fun
    | .query _ key => some key
    | .save _ => none

/-- What a scan leaves in `buf_master_cmd`. -/
def carryOf (acts : List Act) : Bytes :=
  acts.foldl (fun buf act => match act with | .query _ _ => buf | .save s => s) []

end Scan

end Iceberg
