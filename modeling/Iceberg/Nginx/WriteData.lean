import Iceberg.Lib.Percent
import Iceberg.Nginx.Hash

/-!
# Where a value is stored (`writeData.lua`, `sendToHost` of `store.c`)

The proxy posts a value with the escaped key as a query argument. The storage server
decodes the argument to choose the directories, and uses it as it came for the file name.
-/

namespace Iceberg

/-- The bytes that `curl_easy_escape` leaves alone: letters, digits, `-`, `.`, `_` and `~`. -/
def isUnreserved (b : UInt8) : Bool :=
  (48 ≤ b && b ≤ 57) || (65 ≤ b && b ≤ 90) || (97 ≤ b && b ≤ 122)
    || b = 45 || b = 46 || b = 95 || b = 126

/-- What is documented of `curl_easy_escape`, which makes the query argument of `sendToHost`: the
other bytes of the key are spelled by their escapes. -/
def Escapes (curlEasyEscape : Bytes → Bytes) (key : Bytes) : Prop :=
  curlEasyEscape key = Percent.encode isUnreserved key

theorem Escapes.slash_notMem {curlEasyEscape : Bytes → Bytes} {key : Bytes}
    (h : Escapes curlEasyEscape key) : Nginx.slash ∉ curlEasyEscape key := by
  rw [h]
  exact Percent.notMem_encode (by decide) (by decide) (by decide) key

namespace Nginx

open Decimal

/-- The file that `writeData.lua` opens for the query argument `key`: `ngx.var.arg_key` is
the argument as it came, and `unescapeUri` stands for `ngx.unescape_uri`. -/
def fileName (unescapeUri : Bytes → Bytes) (hash : Bytes → Nat → Nat) (beyond key : Bytes) :
    Option Bytes := do
  let newKey := unescapeUri key
  let (path, _) ← writeGetPath hash beyond newKey 1000
  return path ++ key

/-- The part of a path behind its last slash. -/
def lastSegment (path : Bytes) : Bytes := (path.reverse.takeWhile (· ≠ slash)).reverse

/-- The last segment stands behind the last slash. -/
theorem lastSegment_append {p t : Bytes} (ht : slash ∉ t) :
    lastSegment (p ++ slash :: t) = t := by
  have hall : ∀ b ∈ t.reverse, decide (b ≠ slash) = true := by
    intro b hb
    simpa using fun h : b = slash => ht (h ▸ List.mem_reverse.mp hb)
  rw [lastSegment, List.reverse_append, List.reverse_cons, List.append_assoc,
    List.takeWhile_append_of_pos hall]
  simp

/-- The path of a level or more ends in a slash. -/
theorem joined_levels_succ (hash : Bytes → Nat → Nat) (i : Nat) (s : Bytes) :
    ∃ p, joined (levels hash (i + 1) s) = p ++ [slash] := by
  induction i generalizing s with
  | zero => exact ⟨padded 3 (hash s 1000), by simp [levels, joined]⟩
  | succ i ih =>
    obtain ⟨p, hp⟩ := ih (s ++ padded 3 (hash s 1000))
    refine ⟨padded 3 (hash s 1000) ++ [slash] ++ p, ?_⟩
    rw [levels, joined, List.flatMap_cons, ← joined, hp]
    simp

/-- The file is named by the argument, whatever its directories are. -/
theorem lastSegment_fileName {hash : Bytes → Nat → Nat} (hhash : ∀ s, hash s 1000 < 1000)
    (unescapeUri : Bytes → Bytes) (beyond : Bytes) {key : Bytes} (hkey : slash ∉ key) :
    (fileName unescapeUri hash beyond key).map lastSegment = some key := by
  have hpath := getPath_eq hhash beyond filesDir (unescapeUri key)
  obtain ⟨p, hp⟩ := joined_levels_succ hash 2 (cstr (unescapeUri key))
  rw [hp, Option.map_eq_some_iff] at hpath
  obtain ⟨⟨path, opened⟩, hwrite, hfst⟩ := hpath
  have hfile : path ++ key = (filesDir ++ p) ++ slash :: key := by
    rw [show path = filesDir ++ (p ++ [slash]) from hfst]
    simp
  simp only [fileName, writeGetPath, hwrite, Option.bind_eq_bind, Option.bind_some,
    Option.pure_def, Option.map_some, hfile, lastSegment_append hkey]

end Nginx

end Iceberg
