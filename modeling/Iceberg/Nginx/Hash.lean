import Iceberg.Lib.Decimal
import Iceberg.Proxy.Basic

/-!
# The directory builders of the storage server (`nginx/c/hash.c`)

`writeGetPath` and `readGetPath` spread the keys over three levels of directories. The
number of a level is a hash of the key followed by the digits of the levels above it, and
the digits are written one by one, by dividing by `slot / 10`, `slot / 100` and so on, both
behind the path and behind the key.

The hash is a parameter here. The path buffer `url` is taken as large enough. The copy of
the key has the size the code allocates; `hash` looks for its end with `strlen`, so once
the nine spare bytes are used up it goes on in the memory behind it (`beyond`).
-/

namespace Iceberg.Nginx

open Decimal

/-- `'/'`. -/
abbrev slash : UInt8 := 47

/-- `"/usr/local/openresty/nginx/html/files/"`. -/
def filesDir : Bytes :=
  [47, 117, 115, 114, 47, 108, 111, 99, 97, 108, 47, 111, 112, 101, 110, 114, 101, 115, 116,
   121, 47, 110, 103, 105, 110, 120, 47, 104, 116, 109, 108, 47, 102, 105, 108, 101, 115, 47]

example : filesDir.length = 38 := rfl

/-- `"/files/"`. -/
def filesUri : Bytes := [47, 102, 105, 108, 101, 115, 47]

/-- The two output buffers: `url` up to `index`, and all of `str`, which is written at
`cur`. -/
structure PathBuf where
  url : Bytes
  str : Bytes
  cur : Nat

/-- The inner loop of both functions. `none` is a division by zero or a write behind `str`. -/
def digitLoop : Nat → Nat → Nat → PathBuf → Option PathBuf
  | 0, _, _, _ => none
  | fuel + 1, anchor, num, buf =>
    if anchor > 1 then
      let anchor := anchor / 10
      if anchor = 0 ∨ buf.str.length ≤ buf.cur then none
      else
        let c := UInt8.ofNat (num / anchor + 48)
        digitLoop fuel anchor (num % anchor)
          { url := buf.url ++ [c], str := buf.str.set buf.cur c, cur := buf.cur + 1 }
    else some buf

section

variable (hash : Bytes → Nat → Nat) (beyond : Bytes)

/-- The outer loop: the path after each round, and the buffers after the last one. -/
def rounds (slot : Nat) : Nat → Nat → PathBuf → Option (List Bytes × PathBuf)
  | 0, _, buf => some ([], buf)
  | i + 1, num, buf => do
    let buf ← digitLoop (slot + 1) slot num buf
    let buf := { buf with url := buf.url ++ [slash] }
    let (paths, last) ← rounds slot i (hash (cstr (buf.str ++ beyond)) slot) buf
    return (buf.url :: paths, last)

/-- What the two functions have in common: the final path and the ones on the way to it. -/
def getPath (start key : Bytes) (slot : Nat) : Option (Bytes × List Bytes) := do
  let key := cstr key
  let (paths, buf) ← rounds hash beyond slot 3 (hash key slot)
    { url := start, str := key ++ List.replicate 9 Byte.nul, cur := key.length }
  return (buf.url, paths)

/-- `writeGetPath`: the path it returns and the directories it makes. -/
def writeGetPath (key : Bytes) (slot : Nat) : Option (Bytes × List Bytes) :=
  getPath hash beyond filesDir key slot

/-- `readGetPath`. -/
def readGetPath (key : Bytes) (slot : Nat) : Option Bytes :=
  (getPath hash beyond filesUri key slot).map Prod.fst

end

/-! ## The digit loop writes a padded numeral -/

/-- The buffers with `s` in the copy of the key and `spare` zeros behind it. -/
def bufWith (url s : Bytes) (spare : Nat) : PathBuf :=
  { url := url, str := s ++ List.replicate spare Byte.nul, cur := s.length }

/-- **The digit loop.** For a power of ten it writes the padded numeral of that many
digits, into both buffers. -/
theorem digitLoop_pow {k num fuel : Nat} (url s : Bytes) (spare : Nat) (hnum : num < 10 ^ k)
    (hfuel : k < fuel) :
    digitLoop fuel (10 ^ k) num (bufWith url s (k + spare))
      = some (bufWith (url ++ padded k num) (s ++ padded k num) spare) := by
  induction k generalizing num fuel url s with
  | zero =>
    obtain ⟨fuel, rfl⟩ := Nat.exists_eq_add_of_lt hfuel
    simp [digitLoop, padded]
  | succ k ih =>
    obtain ⟨fuel, rfl⟩ : ∃ n, fuel = n + 1 := ⟨fuel - 1, by omega⟩
    have hpos : 0 < 10 ^ k := Nat.pow_pos (by omega)
    have hdiv : 10 ^ (k + 1) / 10 = 10 ^ k := by
      rw [Nat.pow_succ, Nat.mul_div_cancel _ (by omega)]
    have hlarge : 10 ^ (k + 1) > 1 := by
      rw [Nat.pow_succ]
      omega
    -- a digit is written and there is room for it
    have hroom : ¬(10 ^ k = 0 ∨ (bufWith url s (k + 1 + spare)).str.length
        ≤ (bufWith url s (k + 1 + spare)).cur) := by
      simp only [bufWith, List.length_append, List.length_replicate]
      omega
    have hdigit : UInt8.ofNat (num / 10 ^ k + 48) = digit (num / 10 ^ k) := by
      rw [digit, Nat.add_comm]
    have hset : (bufWith url s (k + 1 + spare)).str.set (bufWith url s (k + 1 + spare)).cur
          (digit (num / 10 ^ k))
        = (s ++ [digit (num / 10 ^ k)]) ++ List.replicate (k + spare) Byte.nul := by
      have hsucc : k + 1 + spare = (k + spare) + 1 := by omega
      rw [bufWith, hsucc, List.replicate_succ, List.set_append_right _ _ (Nat.le_refl _)]
      simp
    rw [digitLoop, if_pos hlarge]
    simp only [hdiv]
    rw [if_neg hroom, hdigit, hset]
    -- the rest of the digits
    have hstep := ih (url ++ [digit (num / 10 ^ k)]) (s ++ [digit (num / 10 ^ k)])
      (Nat.mod_lt num hpos) (by omega : k < fuel)
    simp only [bufWith, List.length_append, List.length_singleton, List.append_assoc,
      List.singleton_append] at hstep ⊢
    exact hstep

/-- A zero behind the key ends it. -/
theorem cstr_append_nul {s : Bytes} (hs : Byte.nul ∉ s) (t : Bytes) :
    cstr (s ++ Byte.nul :: t) = s := by
  unfold cstr
  rw [List.takeWhile_append_of_pos]
  · simp
  · intro b hb
    simpa using fun h : b = Byte.nul => hs (h ▸ hb)

/-! ## The directories -/

/-- The numerals of `i` levels: the number of each is the hash of the key followed by the
numerals above it. -/
def levels (hash : Bytes → Nat → Nat) : Nat → Bytes → List Bytes
  | 0, _ => []
  | i + 1, s =>
    let d := padded 3 (hash s 1000)
    d :: levels hash i (s ++ d)

/-- Each numeral is three digits. -/
theorem mem_levels {hash : Bytes → Nat → Nat} (hhash : ∀ s, hash s 1000 < 1000) {i : Nat}
    {s d : Bytes} (h : d ∈ levels hash i s) :
    d.length = 3 ∧ ∀ b ∈ d, 48 ≤ b.toNat ∧ b.toNat < 58 := by
  induction i generalizing s with
  | zero => simp [levels] at h
  | succ i ih =>
    rw [levels, List.mem_cons] at h
    rcases h with rfl | h
    · exact ⟨length_padded 3 _, fun b hb => mem_padded (hhash s) hb⟩
    · exact ih h

/-- A path of directories, each with a slash behind it. -/
def joined (dirs : List Bytes) : Bytes := dirs.flatMap fun d => d ++ [slash]

/-- The rounds append one directory each. Induction on them; a hash below a thousand has three
digits. -/
theorem rounds_eq {hash : Bytes → Nat → Nat} (hhash : ∀ s, hash s 1000 < 1000)
    (beyond : Bytes) (i : Nat) (url : Bytes) {s : Bytes} (hs : Byte.nul ∉ s) :
    (rounds hash beyond 1000 i (hash s 1000) (bufWith url s (3 * i))).map (fun r => r.2.url)
      = some (url ++ joined (levels hash i s)) := by
  induction i generalizing url s with
  | zero => simp [rounds, bufWith, levels, joined]
  | succ i ih =>
    have hdigits : Byte.nul ∉ padded 3 (hash s 1000) :=
      notMem_padded (hhash s) (by decide)
    have hnext : Byte.nul ∉ s ++ padded 3 (hash s 1000) := by simp [hs, hdigits]
    have hspare : 3 * (i + 1) = 3 + 3 * i := by omega
    have hloop : digitLoop (1000 + 1) 1000 (hash s 1000) (bufWith url s (3 + 3 * i))
        = some (bufWith (url ++ padded 3 (hash s 1000)) (s ++ padded 3 (hash s 1000)) (3 * i)) :=
      digitLoop_pow (k := 3) url s (3 * i) (hhash s) (by omega)
    have hurl : url ++ joined (levels hash (i + 1) s)
        = url ++ padded 3 (hash s 1000) ++ [slash]
          ++ joined (levels hash i (s ++ padded 3 (hash s 1000))) := by
      simp [levels, joined]
    rw [hspare, rounds, hloop, hurl]
    cases i with
    | zero =>
      -- the last number is not used
      simp [rounds, bufWith, levels, joined]
    | succ i =>
      have hend : cstr (s ++ padded 3 (hash s 1000)
            ++ List.replicate (3 * (i + 1)) Byte.nul ++ beyond)
          = s ++ padded 3 (hash s 1000) := by
        have hpos : 3 * (i + 1) = (3 * i + 2) + 1 := by omega
        rw [hpos, List.replicate_succ, List.append_assoc]
        exact cstr_append_nul hnext _
      have hih := ih (url ++ padded 3 (hash s 1000) ++ [slash]) hnext
      rw [← hih]
      simp only [bufWith, hend, Option.bind_eq_bind, Option.bind_some]
      cases rounds hash beyond 1000 (i + 1) _ _ <;> rfl

theorem nul_notMem_cstr (s : Bytes) : Byte.nul ∉ cstr s := fun h => by
  simpa using List.mem_takeWhile_imp h

/-- **Both functions append the numerals of three levels.** -/
theorem getPath_eq {hash : Bytes → Nat → Nat} (hhash : ∀ s, hash s 1000 < 1000)
    (beyond start key : Bytes) :
    (getPath hash beyond start key 1000).map Prod.fst
      = some (start ++ joined (levels hash 3 (cstr key))) := by
  have hrounds := rounds_eq hhash beyond 3 start (nul_notMem_cstr key)
  rw [← hrounds, getPath]
  simp only [bufWith, Option.bind_eq_bind]
  cases rounds hash beyond 1000 3 _ _ <;> rfl

end Iceberg.Nginx
