import Iceberg.Lib.SortedChain
import Iceberg.Proxy.Basic
import Mathlib.Logic.Function.Basic
import Mathlib.Tactic.Ring

/-!
# The table of backups (`hash_table.c`)

A chained hash table of C strings. `ht_hash` never initialises its accumulator, so each call
starts from whatever is on the stack: the value is an argument here (`start`). The last two
characters decide the bin, and shift everything before them out of it, unless the
accumulator happens to be `ULONG_MAX` before the last character: then the loop ends early.
-/

namespace Iceberg

/-! ## The code -/

/-- An `unsigned long`. -/
def ulong (x : Int) : Int := x % 2 ^ 64

def ulongMax : Int := 2 ^ 64 - 1

/-- The loop of `ht_hash`. -/
def htHashLoop : Bytes → Int → Int
  | [], hashval => hashval
  | c :: key, hashval =>
    if hashval < ulongMax then htHashLoop key (ulong (ulong (hashval * 2 ^ 8) + schar c))
    else hashval

/-- `hashtable_t`. -/
structure HashTable where
  size : Nat
  table : Nat → SortedChain Bytes Bytes

namespace HashTable

/-- `ht_create`. -/
def create (size : Nat) : HashTable := { size := size, table := fun _ => .empty }

/-- `ht_hash`; `start` is what `hashval` holds before its first assignment. -/
def hash (hashtable : HashTable) (start : UInt64) (key : Bytes) : Nat :=
  (htHashLoop key start.toNat % hashtable.size).toNat

/-- `ht_set`. -/
def set (hashtable : HashTable) (start : UInt64) (key value : Bytes) : HashTable :=
  let bin := hashtable.hash start key
  { hashtable with
    table := Function.update hashtable.table bin ((hashtable.table bin).set key value) }

/-- `ht_get`. -/
def get (hashtable : HashTable) (start : UInt64) (key : Bytes) : Option Bytes :=
  (hashtable.table (hashtable.hash start key)).get key

@[simp] theorem size_set (t : HashTable) (start : UInt64) (key value : Bytes) :
    (t.set start key value).size = t.size := rfl

/-- `ht_set` writes the key into the bin of its hash, and into no other. -/
theorem table_set_self (t : HashTable) (start : UInt64) (key value : Bytes) (bin : Nat) :
    ((t.set start key value).table bin).get key
      = if bin = t.hash start key then some value else (t.table bin).get key := by
  by_cases h : bin = t.hash start key
  · simp [set, h]
  · simp [set, h, Function.update_of_ne]

/-- `ht_set` leaves other keys as they were in every bin. -/
theorem table_set_of_ne (t : HashTable) (start : UInt64) {key key' : Bytes} (hne : key' ≠ key)
    (value : Bytes) (bin : Nat) :
    ((t.set start key value).table bin).get key' = (t.table bin).get key' := by
  by_cases h : bin = t.hash start key
  · subst h
    simp [set, SortedChain.get_set_of_ne _ hne]
  · simp [set, h, Function.update_of_ne]

end HashTable

/-! ## The accumulator -/

/-- The value of a string of signed characters in base 256. -/
def charSum (s : Bytes) : Int := s.foldl (fun n c => n * 256 + schar c) 0

/-- The accumulator behind the characters `s`, if the loop has not ended before. -/
def accumulated (start : Int) (s : Bytes) : Int := (start * 256 ^ s.length + charSum s) % 2 ^ 64

/-- Before one of the characters of the name the accumulator is `ULONG_MAX`. -/
def EndsEarly (start : Int) (name : Bytes) : Prop :=
  ∃ n < name.length, accumulated start (name.take n) = ulongMax

instance (start : Int) (name : Bytes) : Decidable (EndsEarly start name) :=
  inferInstanceAs (Decidable (∃ n < name.length, _ = ulongMax))

theorem accumulated_nil {start : Int} (hlo : 0 ≤ start) (hhi : start < 2 ^ 64) :
    accumulated start [] = start := by
  have hsum : start * 256 ^ ([] : Bytes).length + charSum [] = start := by simp [charSum]
  rw [accumulated, hsum, Int.emod_eq_of_lt hlo hhi]

/-- The sum with a start value is that value, shifted, plus the sum alone. Induction on the
string. -/
theorem charSum_foldl (s : Bytes) (n : Int) :
    s.foldl (fun n c => n * 256 + schar c) n = n * 256 ^ s.length + charSum s := by
  induction s generalizing n with
  | nil => simp [charSum]
  | cons c s ih =>
    have hzero : charSum (c :: s) = (0 * 256 + schar c) * 256 ^ s.length + charSum s := by
      rw [charSum, List.foldl_cons, ih]
    rw [List.foldl_cons, ih, hzero, List.length_cons]
    ring

theorem accumulated_cons (start : Int) (c : UInt8) (s : Bytes) :
    accumulated start (c :: s) = accumulated (start * 256 + schar c) s := by
  rw [accumulated, accumulated, ← charSum_foldl, List.foldl_cons, charSum_foldl]

theorem accumulated_congr {a b : Int} (h : a % 2 ^ 64 = b % 2 ^ 64) (s : Bytes) :
    accumulated a s = accumulated b s := by
  rw [accumulated, accumulated, Int.add_emod, Int.mul_emod, h, ← Int.mul_emod,
    ← Int.add_emod]

/-- **The loop.** It ends at the first `ULONG_MAX`, or with the whole string accumulated. -/
theorem htHashLoop_eq (s : Bytes) {h : Int} (hlo : 0 ≤ h) (hhi : h < 2 ^ 64) :
    htHashLoop s h = if EndsEarly h s then ulongMax else accumulated h s := by
  induction s generalizing h with
  | nil => simp [htHashLoop, EndsEarly, accumulated_nil hlo hhi]
  | cons c s ih =>
    have hstart := accumulated_nil hlo hhi
    by_cases hmax : h < ulongMax
    · -- the byte that is read moves from the string into the number
      have hstep : ∀ t, accumulated (ulong (ulong (h * 2 ^ 8) + schar c)) t
          = accumulated h (c :: t) := by
        intro t
        rw [accumulated_cons]
        refine accumulated_congr ?_ t
        unfold ulong
        omega
      -- the loop ends early here only if it does so later
      have hearly : EndsEarly h (c :: s)
          ↔ EndsEarly (ulong (ulong (h * 2 ^ 8) + schar c)) s := by
        simp only [EndsEarly, hstep]
        constructor
        · rintro ⟨n, hn, hacc⟩
          cases n with
          | zero =>
            rw [List.take_zero, hstart] at hacc
            omega
          | succ n => exact ⟨n, by simpa using hn, by simpa using hacc⟩
        · rintro ⟨n, hn, hacc⟩
          exact ⟨n + 1, by simpa using hn, by simpa using hacc⟩
      rw [htHashLoop, if_pos hmax, ih (by unfold ulong; omega) (by unfold ulong; omega)]
      simp only [hstep, hearly]
    · -- the loop stops at the largest number
      have heq : h = ulongMax := by
        unfold ulongMax at hmax ⊢
        omega
      have hearly : EndsEarly h (c :: s) := ⟨0, by simp, by rw [List.take_zero, hstart, heq]⟩
      rw [htHashLoop, if_neg hmax, if_pos hearly, heq]

/-! ## The bins of one name -/

theorem schar_bounds (b : UInt8) : -128 ≤ schar b ∧ schar b < 128 := by
  have hb : b.toNat < 256 := b.toNat_lt
  unfold schar
  split <;> omega

/-- Only the zero byte is zero as a `char`. -/
theorem schar_ne_zero {b : UInt8} (h : b ≠ Byte.nul) : schar b ≠ 0 := by
  have hb : b.toNat < 256 := b.toNat_lt
  have hne : b.toNat ≠ 0 := fun h0 => h (UInt8.toNat_inj.mp h0)
  unfold schar
  split <;> omega

/-- The bin of a name of two characters or more, in the table of the proxy. -/
theorem hash_eq_of_two {t : HashTable} (hsize : t.size = 65536) (start : UInt64) (s : Bytes)
    (a b : UInt8) :
    t.hash start (s ++ [a, b])
      = if EndsEarly start.toNat (s ++ [a, b]) then 65535
        else ((schar a * 256 + schar b) % 65536).toNat := by
  have hlo : (0 : Int) ≤ start.toNat := Int.natCast_nonneg _
  have hhi : (start.toNat : Int) < 2 ^ 64 := by
    have := start.toNat_lt
    omega
  rw [HashTable.hash, htHashLoop_eq _ hlo hhi, hsize]
  by_cases hearly : EndsEarly start.toNat (s ++ [a, b])
  · rw [if_pos hearly, if_pos hearly]
    rfl
  · rw [if_neg hearly, if_neg hearly, accumulated]
    have hlast : start.toNat * 256 ^ (s ++ [a, b]).length + charSum (s ++ [a, b])
        = (start.toNat * 256 ^ s.length + charSum s) * 65536 + (schar a * 256 + schar b) := by
      rw [← charSum_foldl, List.foldl_append, ← charSum_foldl s]
      simp only [List.foldl_cons, List.foldl_nil]
      ring
    rw [hlast]
    congr 1
    omega

/-- When a name lands in the same bin from both starts: for two characters or more, if the
loop ends early from both or from none; for a single one, if the starts agree modulo 256,
with the exceptions that `ULONG_MAX` makes. -/
def SameBin (start start' : UInt64) : Bytes → Prop
  | [] => start.toNat % 65536 = start'.toNat % 65536
  | [c] =>
    (start.toNat = 2 ^ 64 - 1 ∧ start'.toNat = 2 ^ 64 - 1)
      ∨ (start.toNat ≠ 2 ^ 64 - 1 ∧ start'.toNat ≠ 2 ^ 64 - 1
          ∧ start.toNat % 256 = start'.toNat % 256)
      ∨ (c = 255 ∧ start.toNat = 2 ^ 64 - 1 ∧ start'.toNat % 256 = 0)
      ∨ (c = 255 ∧ start'.toNat = 2 ^ 64 - 1 ∧ start.toNat % 256 = 0)
  | name => EndsEarly start.toNat name ↔ EndsEarly start'.toNat name

/-- The bin of a name of one character. -/
theorem hash_singleton {t : HashTable} (hsize : t.size = 65536) (start : UInt64) (c : UInt8) :
    t.hash start [c]
      = if start.toNat = 2 ^ 64 - 1 then 65535
        else ((start.toNat * 256 + schar c) % 65536).toNat := by
  have hlt := start.toNat_lt
  rw [HashTable.hash, hsize, htHashLoop]
  by_cases hmax : start.toNat = 2 ^ 64 - 1
  · have hend : ¬((start.toNat : Int) < ulongMax) := by
      unfold ulongMax
      omega
    rw [if_neg hend, if_pos hmax, hmax]
    rfl
  · have hgo : (start.toNat : Int) < ulongMax := by
      unfold ulongMax
      omega
    rw [if_pos hgo, if_neg hmax, htHashLoop]
    unfold ulong
    congr 1
    omega

/-- For a name of two characters or more, the bins agree exactly if both loops end early or
neither does. -/
theorem sameBin_of_two (start start' : UInt64) {name : Bytes} (h : 2 ≤ name.length) :
    SameBin start start' name
      ↔ (EndsEarly start.toNat name ↔ EndsEarly start'.toNat name) := by
  match name, h with
  | _ :: _ :: _, _ => exact Iff.rfl

/-- A name of two characters or more ends in two characters. -/
theorem exists_last_two {name : Bytes} (h : 2 ≤ name.length) :
    ∃ s a b, name = s ++ [a, b] := by
  have hne : name ≠ [] := List.ne_nil_of_length_pos (by omega)
  obtain ⟨t, b, rfl⟩ := (List.eq_nil_or_concat' name).resolve_left hne
  have ht : 1 ≤ t.length := by simpa using h
  have hne' : t ≠ [] := List.ne_nil_of_length_pos ht
  obtain ⟨s, a, rfl⟩ := (List.eq_nil_or_concat' t).resolve_left hne'
  exact ⟨s, a, b, by simp⟩

/-- **The bins of a name from two starts** are the same exactly under `SameBin`. -/
theorem hash_eq_iff {t : HashTable} (hsize : t.size = 65536) (start start' : UInt64)
    {name : Bytes} (hne : name ≠ []) (hnul : Byte.nul ∉ name) :
    t.hash start name = t.hash start' name ↔ SameBin start start' name := by
  by_cases htwo : 2 ≤ name.length
  · rw [sameBin_of_two _ _ htwo]
    obtain ⟨s, a, b, rfl⟩ := exists_last_two htwo
    have ha : a ≠ Byte.nul := fun h => hnul (by simp [h])
    have hzero := schar_ne_zero ha
    have hbounds := schar_bounds a
    have hbounds' := schar_bounds b
    rw [hash_eq_of_two hsize, hash_eq_of_two hsize]
    -- the bin of a loop that ends early is not that of the last two characters
    have hbin : ((schar a * 256 + schar b) % 65536).toNat ≠ 65535 := by omega
    by_cases h : EndsEarly start.toNat (s ++ [a, b])
    · by_cases h' : EndsEarly start'.toNat (s ++ [a, b])
      · simp [h, h']
      · simp [h, h', Ne.symm hbin]
    · by_cases h' : EndsEarly start'.toNat (s ++ [a, b])
      · simp [h, h', hbin]
      · simp [h, h']
  · obtain ⟨c, rfl⟩ : ∃ c, name = [c] := by
      rw [← List.length_eq_one_iff]
      have := List.length_pos_iff.mpr hne
      omega
    have hminus : c = 255 ↔ schar c = -1 := by
      rw [← UInt8.toNat_inj]
      have hlt : c.toNat < 256 := c.toNat_lt
      have h255 : (255 : UInt8).toNat = 255 := rfl
      unfold schar
      split <;> omega
    have hbounds := schar_bounds c
    have hlt := start.toNat_lt
    have hlt' := start'.toNat_lt
    rw [hash_singleton hsize, hash_singleton hsize, SameBin, hminus]
    split <;> split <;> omega

end Iceberg
