import Iceberg.Nginx.Hash

/-!
# The buffers of the directory builders

`Iceberg.Nginx.Hash` takes the path buffer as large enough. Here are the indices that
`writeGetPath` and `readGetPath` write in the two buffers, `url` of 45 bytes and the copy
of the key of `9 + strlen(key)`, and whether `hash` finds an end of the copy inside it.
-/

namespace Iceberg.Nginx

open Decimal

/-- `char url[45]`. -/
def urlSize : Nat := 45

/-- What a call does to its buffers: the indices it writes in `url` and in `str`, and for
each `hash(str, slot)` whether a zero is in the allocation of `str`. -/
structure Accesses where
  url : List Nat
  str : List Nat
  ended : List Bool

/-- One pass of the outer loop in front of the others. -/
def Accesses.append (a b : Accesses) : Accesses :=
  { url := a.url ++ b.url, str := a.str ++ b.str, ended := a.ended ++ b.ended }

/-- The places of `url` and `str` that the digit loop writes, pass by pass. -/
def digitWrites : Nat → Nat → Nat → Nat → List (Nat × Nat)
  | 0, _, _, _ => []
  | fuel + 1, anchor, index, cur =>
    if anchor > 1 then
      let anchor := anchor / 10
      if anchor = 0 then [] else (index, cur) :: digitWrites fuel anchor (index + 1) (cur + 1)
    else []

section

variable (hash : Bytes → Nat → Nat) (beyond : Bytes)

/-- The outer loop and the last terminator. `writeGetPath` also writes a terminator in each
round, for `opendir` and `mkdir` (`terminate`). -/
def roundsAccesses (terminate : Bool) (slot : Nat) : Nat → Nat → PathBuf → Accesses
  | 0, _, buf => { url := [buf.url.length], str := [], ended := [] }
  | i + 1, num, buf =>
    let written := digitWrites (slot + 1) slot buf.url.length buf.cur
    match digitLoop (slot + 1) slot num buf with
    | none => { url := written.map Prod.fst, str := written.map Prod.snd, ended := [] }
    | some buf =>
      let index := buf.url.length
      let round : Accesses :=
        { url := written.map Prod.fst ++ [index] ++ (if terminate then [index + 1] else [])
          str := written.map Prod.snd
          ended := [buf.str.contains Byte.nul] }
      round.append (roundsAccesses terminate slot i (hash (cstr (buf.str ++ beyond)) slot)
        { buf with url := buf.url ++ [slash] })

/-- Both `strncpy` and the outer loop. -/
def pathAccesses (terminate : Bool) (start key : Bytes) (slot : Nat) : Accesses :=
  let key := cstr key
  let copies : Accesses :=
    { url := List.range start.length, str := List.range key.length, ended := [] }
  copies.append (roundsAccesses hash beyond terminate slot 3 (hash key slot)
    { url := start, str := key ++ List.replicate 9 Byte.nul, cur := key.length })

/-- The accesses of `writeGetPath`. -/
def writeAccesses (key : Bytes) (slot : Nat) : Accesses :=
  pathAccesses hash beyond true filesDir key slot

/-- The accesses of `readGetPath`. -/
def readAccesses (key : Bytes) (slot : Nat) : Accesses :=
  pathAccesses hash beyond false filesUri key slot

/-- A call for `key` that stays inside its buffers. -/
structure Accesses.Inside (a : Accesses) (key : Bytes) : Prop where
  url : ∀ i ∈ a.url, i < urlSize
  str : ∀ i ∈ a.str, i < 9 + key.length
  ended : ∀ e ∈ a.ended, e = true

end

/-! ## The accesses for a thousand directories -/

theorem digitWrites_thousand (index cur : Nat) :
    digitWrites (1000 + 1) 1000 index cur
      = [(index, cur), (index + 1, cur + 1), (index + 2, cur + 2)] := rfl

section

variable {hash : Bytes → Nat → Nat} (hhash : ∀ s, hash s 1000 < 1000) (beyond : Bytes)
include hhash

/-- One round: three digits behind the path and behind the key, a slash, and a terminator
in `writeGetPath`. The next round finds a zero if this one has left one. -/
theorem roundsAccesses_succ (terminate : Bool) (i : Nat) (url : Bytes) {s : Bytes}
    (hs : Byte.nul ∉ s) :
    ∃ num' url' s', url'.length = url.length + 4 ∧ s'.length = s.length + 3 ∧ Byte.nul ∉ s'
      ∧ roundsAccesses hash beyond terminate 1000 (i + 1) (hash s 1000)
          (bufWith url s (3 * (i + 1)))
        = { url := [url.length, url.length + 1, url.length + 2, url.length + 3]
              ++ (if terminate then [url.length + 4] else [])
            str := [s.length, s.length + 1, s.length + 2]
            ended := [decide (0 < i)] : Accesses }.append
          (roundsAccesses hash beyond terminate 1000 i num' (bufWith url' s' (3 * i)))
      ∧ (0 < i → num' = hash s' 1000) := by
  have hdigits : Byte.nul ∉ padded 3 (hash s 1000) := notMem_padded (hhash s) (by decide)
  have hnext : Byte.nul ∉ s ++ padded 3 (hash s 1000) := by simp [hs, hdigits]
  have hloop : digitLoop (1000 + 1) 1000 (hash s 1000) (bufWith url s (3 + 3 * i))
      = some (bufWith (url ++ padded 3 (hash s 1000)) (s ++ padded 3 (hash s 1000)) (3 * i)) :=
    digitLoop_pow (k := 3) url s (3 * i) (hhash s) (by omega)
  have hspare : 3 * (i + 1) = 3 + 3 * i := by omega
  refine ⟨hash (cstr (s ++ padded 3 (hash s 1000) ++ List.replicate (3 * i) Byte.nul ++ beyond))
      1000, url ++ padded 3 (hash s 1000) ++ [slash], s ++ padded 3 (hash s 1000),
      by simp, by simp, hnext, ?_, ?_⟩
  · have hended : (s ++ padded 3 (hash s 1000) ++ List.replicate (3 * i) Byte.nul).contains
        Byte.nul = decide (0 < i) := by
      rw [Bool.eq_iff_iff]
      simp only [List.contains_iff_mem, List.mem_append, List.mem_replicate, decide_eq_true_eq]
      constructor
      · rintro ((h | h) | h)
        · exact absurd h hs
        · exact absurd h hdigits
        · omega
      · intro hi
        exact Or.inr ⟨by omega, trivial⟩
    rw [hspare, roundsAccesses, hloop]
    simp only [bufWith] at hended ⊢
    rw [digitWrites_thousand, hended]
    simp
  · intro hi
    -- a spare zero is left behind the digits
    obtain ⟨j, rfl⟩ : ∃ j, i = j + 1 := ⟨i - 1, by omega⟩
    rw [show 3 * (j + 1) = (3 * j + 2) + 1 from by omega, List.replicate_succ,
      List.append_assoc, List.cons_append, cstr_append_nul hnext]

/-- **All accesses of a call**, for a path that starts with `start`: twelve characters
behind it, and nine behind the key, which leave no zero for the last `hash`. -/
theorem pathAccesses_thousand (terminate : Bool) (start : Bytes) {key : Bytes}
    (hkey : Byte.nul ∉ key) :
    let n := start.length
    let t := fun i : Nat => if terminate then [i] else []
    pathAccesses hash beyond terminate start key 1000
      = { url := List.range n ++ ([n, n + 1, n + 2, n + 3] ++ t (n + 4)
            ++ ([n + 4, n + 5, n + 6, n + 7] ++ t (n + 8)
            ++ ([n + 8, n + 9, n + 10, n + 11] ++ t (n + 12) ++ [n + 12])))
          str := List.range key.length ++ (List.range 9).map (key.length + ·)
          ended := [true, true, false] } := by
  intro n t
  -- three rounds, each on what the one before left
  obtain ⟨num₁, url₁, s₁, hurl₁, hs₁, hnul₁, h₁, hnum₁⟩ :=
    roundsAccesses_succ hhash beyond terminate 2 start hkey
  obtain ⟨num₂, url₂, s₂, hurl₂, hs₂, hnul₂, h₂, hnum₂⟩ :=
    roundsAccesses_succ hhash beyond terminate 1 url₁ hnul₁
  obtain ⟨num₃, url₃, s₃, hurl₃, hs₃, -, h₃, -⟩ :=
    roundsAccesses_succ hhash beyond terminate 0 url₂ hnul₂
  rw [hnum₁ (by omega), h₂, hnum₂ (by omega), h₃] at h₁
  rw [pathAccesses, cstr_of_nulFree hkey]
  have hstart : (⟨start, key ++ List.replicate 9 Byte.nul, key.length⟩ : PathBuf)
      = bufWith start key (3 * (2 + 1)) := rfl
  rw [hstart, h₁]
  simp only [roundsAccesses, bufWith, Accesses.append, hurl₁, hurl₂, hurl₃, hs₁, hs₂, n, t]
  simp [List.range_succ]

/-- `writeGetPath` ends its path at index 50 of `url`, and the last `hash` runs over the end
of `str`. -/
theorem writeAccesses_thousand {key : Bytes} (hkey : Byte.nul ∉ key) :
    50 ∈ (writeAccesses hash beyond key 1000).url
      ∧ (∀ i ∈ (writeAccesses hash beyond key 1000).url, i ≤ 50)
      ∧ (∀ i ∈ (writeAccesses hash beyond key 1000).str, i < 9 + key.length)
      ∧ (writeAccesses hash beyond key 1000).ended = [true, true, false] := by
  have hlen : filesDir.length = 38 := rfl
  rw [writeAccesses, pathAccesses_thousand hhash beyond true filesDir hkey, hlen]
  refine ⟨by simp, ?_, ?_, rfl⟩
  · intro i hi
    simp only [List.mem_append, List.mem_range, List.mem_cons, List.not_mem_nil, or_false,
      if_true] at hi
    omega
  · intro i hi
    simp only [List.mem_append, List.mem_map, List.mem_range] at hi
    omega

/-- `readGetPath` keeps inside `url`; its last `hash` runs over the end of `str` too. -/
theorem readAccesses_thousand {key : Bytes} (hkey : Byte.nul ∉ key) :
    (∀ i ∈ (readAccesses hash beyond key 1000).url, i ≤ 19)
      ∧ (∀ i ∈ (readAccesses hash beyond key 1000).str, i < 9 + key.length)
      ∧ (readAccesses hash beyond key 1000).ended = [true, true, false] := by
  have hlen : filesUri.length = 7 := rfl
  rw [readAccesses, pathAccesses_thousand hhash beyond false filesUri hkey, hlen]
  refine ⟨?_, ?_, rfl⟩
  · intro i hi
    simp only [List.mem_append, List.mem_range, List.mem_cons, List.not_mem_nil, or_false,
      Bool.false_eq_true, if_false] at hi
    omega
  · intro i hi
    simp only [List.mem_append, List.mem_map, List.mem_range] at hi
    omega

end

/-- The calls of both functions for `key` and a thousand directories stay inside their
buffers. -/
def InsideBuffers (hash : Bytes → Nat → Nat) (beyond key : Bytes) : Prop :=
  (writeAccesses hash beyond key 1000).Inside key ∧ (readAccesses hash beyond key 1000).Inside key

/-- **The path builders leave their buffers for every key**: `writeGetPath` writes `url`
beyond its 45 bytes, and in both functions the last `hash` finds no end of `str`. -/
theorem leave_buffers {hash : Bytes → Nat → Nat} (hhash : ∀ s, hash s 1000 < 1000)
    (beyond : Bytes) {key : Bytes} (hkey : Byte.nul ∉ key) :
    ¬InsideBuffers hash beyond key
      ∧ (∃ i ∈ (writeAccesses hash beyond key 1000).url, urlSize ≤ i)
      ∧ false ∈ (writeAccesses hash beyond key 1000).ended
      ∧ false ∈ (readAccesses hash beyond key 1000).ended := by
  obtain ⟨hmem, -, -, hwrite⟩ := writeAccesses_thousand hhash beyond hkey
  obtain ⟨-, -, hread⟩ := readAccesses_thousand hhash beyond hkey
  have hsize : urlSize ≤ 50 := by decide
  refine ⟨?_, ⟨50, hmem, hsize⟩, by simp [hwrite], by simp [hread]⟩
  intro hinside
  have hlt := hinside.1.url 50 hmem
  omega

theorem leave_buffers_k :
    let hash : Bytes → Nat → Nat := fun s slot => s.length % slot
    ¬InsideBuffers hash [] [107]
      ∧ (∃ i ∈ (writeAccesses hash [] [107] 1000).url, urlSize ≤ i)
      ∧ false ∈ (writeAccesses hash [] [107] 1000).ended
      ∧ false ∈ (readAccesses hash [] [107] 1000).ended :=
  leave_buffers (fun s => Nat.mod_lt s.length (by decide)) [] (by decide)

/-- The key `"k"` and a hash below a thousand. -/
theorem not_insideBuffers :
    ¬∀ (hash : Bytes → Nat → Nat) (beyond key : Bytes), (∀ s, hash s 1000 < 1000) →
      Byte.nul ∉ key → InsideBuffers hash beyond key := by
  intro h
  have hhash : ∀ s : Bytes, (fun s slot => s.length % slot : Bytes → Nat → Nat) s 1000 < 1000 :=
    fun s => Nat.mod_lt s.length (by decide)
  have hinside := h _ [] [107] hhash (by decide)
  have hlt := hinside.1.url 50 (writeAccesses_thousand hhash [] (by decide)).1
  exact absurd hlt (by decide)

end Iceberg.Nginx
