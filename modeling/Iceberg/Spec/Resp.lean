import Iceberg.Lib.Decimal
import Iceberg.Proxy.Basic

/-!
# The redis protocol on both sides of the proxy

What a master sends (commands, as arrays of bulk strings) and what a slave answers to
`hgetall` (an array of field/value pairs, or a status, error or integer line). This is
the reader's yardstick for the two scanners of the proxy; nothing here is taken from
its code.
-/

namespace Iceberg.Resp

open Decimal

/-! ## Decimal numbers -/

/-- The length loop of the proxy reads a decimal back. -/
theorem digitsVal_decimal {n : Nat} (h : n < 2 ^ 31) : digitsVal 0 (decimal n) = n := by
  induction n using Nat.strong_induction_on with
  | _ n ih =>
    -- one more digit
    have hlast : ∀ a : Int, a = (n / 10 : Nat) → digitsVal a [digit (n % 10)] = n := by
      intro a ha
      have hbyte := toNat_digit (Nat.mod_lt n (by omega : 0 < 10))
      have hchar : schar (digit (n % 10)) = 48 + (n % 10 : Nat) := by
        unfold schar
        rw [hbyte, if_pos (by omega)]
        omega
      simp only [digitsVal, List.foldl_cons, List.foldl_nil, hchar]
      rw [int32_of_bounds (by omega) (by omega)]
      omega
    rw [decimal_eq]
    by_cases hn : n < 10
    · rw [if_pos hn, List.nil_append]
      exact hlast 0 (by omega)
    · rw [if_neg hn]
      -- the digits in front of the last
      have hprev : digitsVal 0 (decimal (n / 10)) = (n / 10 : Nat) :=
        ih (n / 10) (by omega) (by omega)
      have hsplit : digitsVal 0 (decimal (n / 10) ++ [digit (n % 10)])
          = digitsVal (digitsVal 0 (decimal (n / 10))) [digit (n % 10)] := by
        simp [digitsVal]
      rw [hsplit]
      exact hlast _ hprev

/-! ## Bulk strings and arrays -/

/-- `$<length>` CRLF, the bytes, CRLF. -/
def bulk (s : Bytes) : Bytes :=
  Byte.dollar :: (decimal s.length ++ crlf ++ s ++ crlf)

/-- `*<count>` CRLF and the elements. -/
def array (items : List Bytes) : Bytes :=
  Byte.star :: (decimal items.length ++ crlf ++ items.flatMap bulk)

/-! ## Commands -/

/-- A command as a master sends it: the list of its arguments, the name included. -/
abbrev Command := List Bytes

/-- The three bytes `DEL`. -/
def delName : Bytes := [68, 69, 76]

/-- The key of a two-argument `DEL`, the only command the proxy looks for. -/
def Command.delKey? : Command → Option Bytes
  | [name, key] => if name = delName then some key else none
  | _ => none

/-- A deletion is a command of two words whose first is `DEL`. -/
theorem Command.delKey?_eq_some {c : Command} {key : Bytes} :
    c.delKey? = some key ↔ c = [delName, key] := by
  match c with
  | [] => simp [Command.delKey?]
  | [_] => simp [Command.delKey?]
  | [name, key'] =>
    simp only [Command.delKey?]
    split
    · rename_i hname
      simp [hname]
    · rename_i hname
      simp [hname]
  | _ :: _ :: _ :: _ => simp [Command.delKey?]

/-- The keys of the two-argument `DEL` commands. -/
def delKeys (cs : List Command) : List Bytes := cs.filterMap Command.delKey?

/-! ## Answers of the slave -/

/-- An answer: the pairs of a hash, or a line that starts with `marker`. -/
inductive Reply where
  | hash (pairs : List (Bytes × Bytes))
  | line (marker : UInt8) (text : Bytes)
  deriving DecidableEq

namespace Reply

/-- The bulk strings of a hash, fields and values in turn. -/
def items (pairs : List (Bytes × Bytes)) : List Bytes :=
  pairs.flatMap fun p => [p.1, p.2]

def enc : Reply → Bytes
  | hash pairs => array (items pairs)
  | line marker text => marker :: (text ++ crlf)

theorem enc_ne_nil (r : Reply) : enc r ≠ [] := by
  cases r <;> simp [enc, array]

/-- A hash without empty fields or values, or one line: a marker of the protocol and a
text without line feeds. -/
def Shape : Reply → Prop
  | hash pairs => ∀ item ∈ items pairs, item ≠ []
  | line marker text =>
    (marker = Byte.plus ∨ marker = Byte.minus ∨ marker = Byte.colon) ∧ Byte.lf ∉ text

instance : DecidablePred Shape
  | hash pairs => inferInstanceAs (Decidable (∀ item ∈ items pairs, item ≠ []))
  | line marker text => inferInstanceAs (Decidable
      ((marker = Byte.plus ∨ marker = Byte.minus ∨ marker = Byte.colon) ∧ Byte.lf ∉ text))

/-- Each pair makes two items. -/
@[simp] theorem length_items (pairs : List (Bytes × Bytes)) :
    (items pairs).length = 2 * pairs.length := by
  induction pairs with
  | nil => rfl
  | cons p pairs ih =>
    simp only [items, List.flatMap_cons, List.length_append, List.length_cons,
      List.length_nil] at ih ⊢
    omega

end Reply

end Iceberg.Resp
