import Mathlib.Logic.Function.Basic
import Iceberg.Nginx.WriteData

/-!
# What a request leaves in the file (`writeData.lua`)

The script opens the file of the key for writing, which empties it, and only then asks for
the body of the request. OpenResty hands the body out (`ngx.req.get_body_data`) if it is
held in memory. A body that is too large for `client_body_buffer_size` was spooled to a temporary
file, and the script gets `nil`.
-/

namespace Iceberg.Nginx

/-- `client_max_body_size 200m`. -/
def clientMaxBodySize : Nat := 200 * 1024 * 1024

/-- The contents of the files, by their paths; `none` for a file that does not exist. -/
abbrev Files := Bytes → Option Bytes

/-- How a request to `/writeData` ends. -/
inductive Outcome
  /-- nginx refuses the body. -/
  | tooLarge
  /-- `"file open fail"` and the name of the file. -/
  | openFail (name : Bytes)
  /-- `file:write(nil)` raises an error. -/
  | noBody
  | stored
  deriving DecidableEq

/-- `io.open(name, "w")`; `opens` says for which paths it returns a handle. -/
def openForWriting (opens : Bytes → Bool) (files : Files) (name : Bytes) : Option Files :=
  if opens name then some (Function.update files name (some [])) else none

/-- What is documented of `ngx.req.get_body_data`: it returns the body, and `nil` for one that was
spooled to a temporary file. -/
def HandsOut (getBodyData : Bytes → Option Bytes) (spooled : Bytes → Bool) : Prop :=
  ∀ body, body ≠ [] → getBodyData body = if spooled body then none else some body

section

variable (unescapeUri : Bytes → Bytes) (hash : Bytes → Nat → Nat) (beyond : Bytes)
  (opens : Bytes → Bool) (getBodyData : Bytes → Option Bytes)

/-- A request to `/writeData` with the query argument `key`. The writes to the file succeed, and so
does its closing. -/
def writeData (files : Files) (key body : Bytes) : Option (Files × Outcome) :=
  -- nginx looks at the length before it runs the script
  if clientMaxBodySize < body.length then some (files, .tooLarge)
  else do
    let fileName ← fileName unescapeUri hash beyond key
    match openForWriting opens files fileName with
    | none => some (files, .openFail fileName)
    | some files =>
      match getBodyData body with
      | none => some (files, .noBody)
      | some data => some (Function.update files fileName (some data), .stored)

/-- All or nothing for one file: it holds the body, or the handle or the body could not be
obtained and it holds what it held. -/
def AllOrNothing (name body : Bytes) (files files' : Files) : Prop :=
  files' name = some body
    ∨ ((opens name = false ∨ getBodyData body = none) ∧ files' name = files name)

end

/-! ## The outcomes -/

section

variable {unescapeUri : Bytes → Bytes} {hash : Bytes → Nat → Nat}
  (hhash : ∀ s, hash s 1000 < 1000) (beyond : Bytes) (opens : Bytes → Bool)
  (getBodyData : Bytes → Option Bytes) (files : Files) (key : Bytes)

include hhash in
theorem exists_fileName : ∃ name, fileName unescapeUri hash beyond key = some name := by
  have hpath := getPath_eq hhash beyond filesDir (unescapeUri key)
  obtain ⟨⟨path, opened⟩, hwrite, -⟩ := Option.map_eq_some_iff.mp hpath
  exact ⟨path ++ key, by simp [fileName, writeGetPath, hwrite]⟩

/-- What an admitted request does to the files. -/
theorem writeData_eq {name body : Bytes}
    (hname : fileName unescapeUri hash beyond key = some name)
    (hsize : body.length ≤ clientMaxBodySize) :
    writeData unescapeUri hash beyond opens getBodyData files key body
      = if opens name then
          match getBodyData body with
          | none => some (Function.update files name (some []), .noBody)
          | some data => some (Function.update files name (some data), .stored)
        else some (files, .openFail name) := by
  rw [writeData, if_neg (by omega), hname]
  simp only [Option.bind_eq_bind, Option.bind_some, openForWriting]
  by_cases hopens : opens name
  · rw [if_pos hopens, if_pos hopens]
    cases getBodyData body with
    | none => rfl
    | some data => simp
  · rw [if_neg hopens, if_neg hopens]

/-- A request changes no file but its own. -/
theorem writeData_frame {name body other : Bytes} {files' : Files} {outcome : Outcome}
    (hname : fileName unescapeUri hash beyond key = some name) (hother : other ≠ name)
    (h : writeData unescapeUri hash beyond opens getBodyData files key body
      = some (files', outcome)) :
    files' other = files other := by
  by_cases hsize : body.length ≤ clientMaxBodySize
  · rw [writeData_eq beyond opens getBodyData files key hname hsize] at h
    split at h
    · split at h
      · cases h
        exact Function.update_of_ne hother _ _
      · cases h
        exact Function.update_of_ne hother _ _
    · cases h
      rfl
  · rw [writeData, if_pos (by omega)] at h
    cases h
    rfl

end

/-! ## When storing is all or nothing -/

/-- **Storing is all or nothing** exactly if the file cannot be opened, the body was held in
memory, or the file was there and empty before. -/
theorem allOrNothing_iff {unescapeUri : Bytes → Bytes} {hash : Bytes → Nat → Nat}
    (hhash : ∀ s, hash s 1000 < 1000) (beyond : Bytes) (opens : Bytes → Bool)
    {getBodyData : Bytes → Option Bytes} {spooled : Bytes → Bool}
    (hlua : HandsOut getBodyData spooled) (files : Files) (key : Bytes) {body : Bytes}
    (hbody : body ≠ []) (hsize : body.length ≤ clientMaxBodySize) :
    ∃ name files' outcome, fileName unescapeUri hash beyond key = some name
      ∧ writeData unescapeUri hash beyond opens getBodyData files key body
        = some (files', outcome)
      ∧ (AllOrNothing opens getBodyData name body files files'
        ↔ opens name = false ∨ spooled body = false ∨ files name = some []) := by
  obtain ⟨name, hname⟩ := @exists_fileName unescapeUri _ hhash beyond key
  have hwrite := writeData_eq beyond opens getBodyData files key hname hsize
  have hdata := hlua body hbody
  cases hopens : opens name with
  | false =>
    rw [hopens, if_neg (by decide)] at hwrite
    refine ⟨name, files, .openFail name, hname, hwrite, ?_⟩
    simp [AllOrNothing, hopens]
  | true =>
    rw [hopens, if_pos rfl] at hwrite
    cases hspooled : spooled body with
    | true =>
      -- the file is empty, and stays so
      rw [hspooled, if_pos rfl] at hdata
      rw [hdata] at hwrite
      refine ⟨name, Function.update files name (some []), .noBody, hname, hwrite, ?_⟩
      rw [AllOrNothing, Function.update_self, hdata, hopens]
      constructor
      · rintro (h | ⟨-, h⟩)
        · exact absurd (Option.some.inj h).symm hbody
        · exact Or.inr (Or.inr h.symm)
      · rintro (h | h | h)
        · exact absurd h (by decide)
        · exact absurd h (by decide)
        · exact Or.inr ⟨Or.inr rfl, h.symm⟩
    | false =>
      rw [hspooled, if_neg (by decide)] at hdata
      rw [hdata] at hwrite
      refine ⟨name, Function.update files name (some body), .stored, hname, hwrite, ?_⟩
      exact ⟨fun _ => Or.inr (Or.inl rfl), fun _ => Or.inl (Function.update_self _ _ _)⟩

/-- nginx holds a body in memory that is shorter than the buffer and a quarter more. -/
def sampleBodyData (body : Bytes) : Option Bytes :=
  if body = [] ∨ 16384 + 16384 / 4 ≤ body.length then none else some body

theorem handsOut_sample :
    HandsOut sampleBodyData fun body => decide (16384 + 16384 / 4 ≤ body.length) := by
  intro body hbody
  simp [sampleBodyData, hbody]

theorem allOrNothing_iff_k :
    let hash : Bytes → Nat → Nat := fun s slot => s.length % slot
    ∃ name files' outcome, fileName id hash [] [107] = some name
      ∧ writeData id hash [] (fun _ => true) sampleBodyData (fun _ => none) [107] [123, 125]
        = some (files', outcome)
      ∧ (AllOrNothing (fun _ => true) sampleBodyData name [123, 125] (fun _ => none) files'
        ↔ true = false ∨ decide (16384 + 16384 / 4 ≤ [(123 : UInt8), 125].length) = false
          ∨ none = some ([] : Bytes)) :=
  allOrNothing_iff (fun s => Nat.mod_lt s.length (by decide)) [] (fun _ => true) handsOut_sample
    (fun _ => none) [107] (by decide) (by decide)

/-- A body of 40000 bytes over a file that holds a byte, with a buffer of 16 KB. -/
theorem not_allOrNothing :
    let hash : Bytes → Nat → Nat := fun s slot => s.length % slot
    ¬∀ (files : Files) (body : Bytes), body ≠ [] → body.length ≤ clientMaxBodySize →
      ∃ name files' outcome, fileName id hash [] [107] = some name
        ∧ writeData id hash [] (fun _ => true) sampleBodyData files [107] body
          = some (files', outcome)
        ∧ AllOrNothing (fun _ => true) sampleBodyData name body files files' := by
  intro hash h
  have hhash : ∀ s, hash s 1000 < 1000 := fun s => Nat.mod_lt s.length (by decide)
  let files : Files := fun _ => some [49]
  let body : Bytes := List.replicate 40000 120
  have hlen : body.length = 40000 := List.length_replicate
  have hmax : clientMaxBodySize = 209715200 := by decide
  have hbody : body ≠ [] := List.ne_nil_of_length_pos (by omega)
  have hdata : sampleBodyData body = none := if_pos (Or.inr (by omega))
  obtain ⟨name, files', outcome, hname, hwrite, hall⟩ := h files body hbody (by omega)
  rw [writeData_eq [] (fun _ => true) sampleBodyData files [107] hname (by omega), if_pos rfl,
    hdata] at hwrite
  cases hwrite
  rw [AllOrNothing, Function.update_self] at hall
  rcases hall with hall | ⟨-, hall⟩
  · exact hbody (Option.some.inj hall).symm
  · cases hall

end Iceberg.Nginx
