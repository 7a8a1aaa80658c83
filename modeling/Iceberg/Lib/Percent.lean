import Mathlib.Data.List.Basic
import Mathlib.Data.List.Count
import Mathlib.Tactic.Cases

/-!
# Percent encoding

A byte is written as itself or as `'%'` and two hexadecimal digits. An encoder is a function
from bytes to their spelling, a reader decodes once (`decode`), and what matters about an
encoder is the byte that each of its spellings stands for (`Spells`).
-/

namespace Percent

/-- `'%'`. -/
def percent : UInt8 := 37

/-- A hexadecimal digit, in upper case. -/
def hexDigit (d : Nat) : UInt8 := if d < 10 then UInt8.ofNat (48 + d) else UInt8.ofNat (55 + d)

/-- The value of a hexadecimal digit, in either case. -/
def hexVal? (b : UInt8) : Option Nat :=
  if 48 ≤ b ∧ b ≤ 57 then some (b.toNat - 48)
  else if 65 ≤ b ∧ b ≤ 70 then some (b.toNat - 55)
  else if 97 ≤ b ∧ b ≤ 102 then some (b.toNat - 87)
  else none

def escape (b : UInt8) : List UInt8 :=
  [percent, hexDigit (b.toNat / 16), hexDigit (b.toNat % 16)]

/-- The encoder that spells the bytes of `safe` as themselves. -/
def encode (safe : UInt8 → Bool) (s : List UInt8) : List UInt8 :=
  s.flatMap fun b => if safe b then [b] else escape b

/-- One decoding; `none` where a `'%'` is not followed by two digits. -/
def decode : List UInt8 → Option (List UInt8)
  | [] => some []
  | b :: s =>
    if b = percent then
      match s with
      | hi :: lo :: s => do
        let h ← hexVal? hi
        let l ← hexVal? lo
        let rest ← decode s
        return UInt8.ofNat (h * 16 + l) :: rest
      | _ => none
    else (decode s).map (b :: ·)

@[simp] theorem decode_nil : decode [] = some [] := by simp [decode]

/-- A byte that is no percent sign stands for itself. -/
theorem decode_cons {b : UInt8} (h : b ≠ percent) (s : List UInt8) :
    decode (b :: s) = (decode s).map (b :: ·) := by
  conv_lhs => unfold decode
  rw [if_neg h]

/-- The two digits of a byte read back. -/
theorem hexVal?_hexDigit : ∀ d < 16, hexVal? (hexDigit d) = some d := by decide

/-- An escape stands for its byte: both of its digits are read back, and nothing more. -/
theorem decode_escape (b : UInt8) (s : List UInt8) :
    decode (escape b ++ s) = (decode s).map (b :: ·) := by
  have hb : b.toNat < 256 := b.toNat_lt
  have hval : UInt8.ofNat (b.toNat / 16 * 16 + b.toNat % 16) = b := by
    rw [Nat.div_add_mod']
    simp
  simp only [escape, List.cons_append, List.nil_append]
  rw [decode, if_pos rfl]
  simp only [hexVal?_hexDigit _ (by omega : b.toNat / 16 < 16),
    hexVal?_hexDigit _ (by omega : b.toNat % 16 < 16), Option.bind_eq_bind, Option.bind_some,
    hval]
  cases decode s <;> rfl

/-- An escape holds nothing but `'%'` and hexadecimal digits. -/
theorem notMem_escape {b : UInt8} (hne : b ≠ percent) (hval : hexVal? b = none) (c : UInt8) :
    b ∉ escape c := by
  have hc : c.toNat < 256 := c.toNat_lt
  have hdigit : ∀ d < 16, b ≠ hexDigit d := by
    rintro d hd rfl
    rw [hexVal?_hexDigit d hd] at hval
    cases hval
  simp only [escape, List.mem_cons, List.not_mem_nil, or_false, not_or]
  exact ⟨hne, hdigit _ (by omega), hdigit _ (by omega)⟩

/-- A byte that is not safe, no percent sign and no hexadecimal digit does not occur in an
encoding. -/
theorem notMem_encode {safe : UInt8 → Bool} {b : UInt8} (hb : safe b = false)
    (hne : b ≠ percent) (hval : hexVal? b = none) (s : List UInt8) : b ∉ encode safe s := by
  simp only [encode, List.mem_flatMap, not_exists, not_and]
  intro c _
  by_cases hc : safe c
  · rw [if_pos hc, List.mem_singleton]
    rintro rfl
    rw [hb] at hc
    exact absurd hc (by decide)
  · rw [if_neg hc]
    exact notMem_escape hne hval c

/-- A spelling of the byte `b`: the byte itself, if it is not the escape, or its escape. -/
def Spells (spelling : List UInt8) (b : UInt8) : Prop :=
  (spelling = [b] ∧ b ≠ percent) ∨ spelling = escape b

/-- **Decoding an encoded text** gives the bytes that the spellings stand for. -/
theorem decode_flatMap {spell : UInt8 → List UInt8} {meaning : UInt8 → UInt8}
    (h : ∀ b, Spells (spell b) (meaning b)) (s : List UInt8) :
    decode (s.flatMap spell) = some (s.map meaning) := by
  induction s with
  | nil => simp
  | cons b s ih =>
    rw [List.flatMap_cons]
    rcases h b with ⟨hself, hne⟩ | hescape
    · rw [hself, List.singleton_append, decode_cons hne, ih]
      rfl
    · rw [hescape, decode_escape, ih]
      rfl

/-- Every byte that is not safe costs two more. -/
theorem length_encode (safe : UInt8 → Bool) (s : List UInt8) :
    (encode safe s).length = s.length + 2 * s.countP (fun b => !safe b) := by
  induction s with
  | nil => rfl
  | cons b s ih =>
    have hone : (if safe b then [b] else escape b).length = if safe b then 1 else 3 := by
      by_cases hb : safe b <;> simp [hb, escape]
    rw [encode] at ih ⊢
    rw [List.flatMap_cons, List.length_append, ih, hone, List.countP_cons, List.length_cons]
    by_cases hb : safe b
    · simp only [hb, if_true, Bool.not_true, Bool.false_eq_true, if_false]
      omega
    · simp only [hb, Bool.false_eq_true, if_false, Bool.not_false, if_true]
      omega

/-- Safe bytes are left alone, and only those. -/
theorem encode_eq_self_iff {safe : UInt8 → Bool} {s : List UInt8} :
    encode safe s = s ↔ ∀ b ∈ s, safe b = true := by
  constructor
  · intro h b hb
    have hlen := length_encode safe s
    rw [h] at hlen
    have hnone : s.countP (fun b => !safe b) = 0 := by omega
    simpa using List.countP_eq_zero.mp hnone b hb
  · intro h
    induction s with
    | nil => rfl
    | cons b s ih =>
      have htail := ih fun c hc => h c (List.mem_cons_of_mem _ hc)
      rw [encode] at htail ⊢
      rw [List.flatMap_cons, htail, if_pos (h b List.mem_cons_self)]
      rfl

end Percent
