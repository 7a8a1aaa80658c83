import Iceberg.Client.IcebergClient

/-!
# The names of the directories, for any number of them

The digit loop of `writeGetPath` and `readGetPath` divides by `slot / 10`, `slot / 100` and
so on, until the divisor is one. That the divisor comes to one, and that the quotients on
the way are digits, depends on `slot`; the client has three digits for every `dir_num`.
Here `slot` is any number, and the names are compared for all numbers below it.
-/

namespace Iceberg.Nginx

open Decimal

/-- What the digit loop of both functions writes for the number `num`, with room for `slot`
characters behind the key; `none` is a division by zero. -/
def dirName (slot num : Nat) : Option Bytes :=
  (digitLoop (slot + 1) slot num (bufWith [] [] slot)).map PathBuf.url

/-- The name of a directory as a string of digits. -/
def AllDigits (name : Bytes) : Prop := ∀ b ∈ name, 48 ≤ b.toNat ∧ b.toNat < 58

/-- A number of directories that the storage server and the client agree on: every number
below it has a name, made of digits, its own, and the one of the client. -/
structure NamesAgree (slot : Nat) : Prop where
  divides : ∀ num < slot, (dirName slot num).isSome
  digits : ∀ num < slot, ∀ name ∈ dirName slot num, AllDigits name
  injective : ∀ num < slot, ∀ num' < slot, dirName slot num = dirName slot num' → num = num'
  client : ∀ num < slot, dirName slot num = some (Client.format03d num)

/-! ## The loop without its buffers -/

/-- The characters of the digit loop. -/
def digits : Nat → Nat → Nat → Option Bytes
  | 0, _, _ => none
  | fuel + 1, anchor, num =>
    if anchor > 1 then
      if anchor / 10 = 0 then none
      else
        (digits fuel (anchor / 10) (num % (anchor / 10))).map
          (UInt8.ofNat (num / (anchor / 10) + 48) :: ·)
    else some []

/-- With room for `anchor` characters the loop appends them to the path. -/
theorem digitLoop_digits {fuel anchor num : Nat} (url s : Bytes) {room : Nat}
    (hroom : anchor ≤ room) :
    (digitLoop fuel anchor num (bufWith url s room)).map PathBuf.url
      = (digits fuel anchor num).map (url ++ ·) := by
  induction fuel generalizing anchor num url s room with
  | zero => rfl
  | succ fuel ih =>
    rw [digitLoop, digits]
    by_cases hlarge : anchor > 1
    · rw [if_pos hlarge, if_pos hlarge]
      by_cases hzero : anchor / 10 = 0
      · simp [hzero]
      · obtain ⟨room, rfl⟩ : ∃ n, room = n + 1 := ⟨room - 1, by omega⟩
        -- the buffer has room for one more digit
        have hspace : ¬(anchor / 10 = 0
            ∨ (bufWith url s (room + 1)).str.length ≤ (bufWith url s (room + 1)).cur) := by
          simp only [bufWith, List.length_append, List.length_replicate]
          omega
        have hset : ∀ c, (bufWith url s (room + 1)).str.set (bufWith url s (room + 1)).cur c
            = (s ++ [c]) ++ List.replicate room Byte.nul := by
          intro c
          rw [bufWith, List.replicate_succ, List.set_append_right _ _ (Nat.le_refl _)]
          simp
        -- the rest of the digits go behind it
        have hstep : ∀ c, (digitLoop fuel (anchor / 10) (num % (anchor / 10))
              (bufWith (url ++ [c]) (s ++ [c]) room)).map PathBuf.url
            = (digits fuel (anchor / 10) (num % (anchor / 10))).map (url ++ [c] ++ ·) := fun c =>
          ih (url ++ [c]) (s ++ [c]) (by omega)
        simp only [bufWith, List.length_append, List.length_singleton] at hstep hset hspace ⊢
        rw [if_neg hspace, if_neg hzero, hset, hstep, Option.map_map]
        congr 1
        funext name
        simp
    · rw [if_neg hlarge, if_neg hlarge]
      simp [bufWith]

theorem dirName_eq (slot num : Nat) : dirName slot num = digits (slot + 1) slot num := by
  rw [dirName, digitLoop_digits [] [] (Nat.le_refl slot)]
  simp

/-! ## When the divisor comes to one -/

/-- The divisor comes to one if `anchor` begins with the digit one; else it comes to zero. -/
theorem digits_isSome {fuel anchor : Nat} (num : Nat) (hpos : 0 < anchor)
    (hfuel : anchor < fuel) :
    (digits fuel anchor num).isSome ↔ ∃ k, 10 ^ k ≤ anchor ∧ anchor < 2 * 10 ^ k := by
  induction fuel generalizing anchor num with
  | zero => omega
  | succ fuel ih =>
    rw [digits]
    by_cases hlarge : anchor > 1
    · rw [if_pos hlarge]
      by_cases hzero : anchor / 10 = 0
      · rw [if_pos hzero]
        constructor
        · intro h
          simp at h
        · rintro ⟨k, hlow, hhigh⟩
          -- below ten only one itself begins with a one
          cases k with
          | zero => omega
          | succ k =>
            have hten : 1 ≤ 10 ^ k := Nat.one_le_pow _ _ (by omega)
            rw [Nat.pow_succ] at hlow
            omega
      · -- the next round has a power of ten less
        rw [if_neg hzero, Option.isSome_map, ih _ (by omega) (by omega)]
        constructor
        · rintro ⟨k, hlow, hhigh⟩
          refine ⟨k + 1, ?_, ?_⟩
          · rw [Nat.pow_succ]
            omega
          · rw [Nat.pow_succ]
            omega
        · rintro ⟨k, hlow, hhigh⟩
          cases k with
          | zero => omega
          | succ k =>
            rw [Nat.pow_succ] at hlow hhigh
            exact ⟨k, by omega, by omega⟩
    · rw [if_neg hlarge]
      constructor
      · intro _
        exact ⟨0, by omega, by omega⟩
      · intro _
        rfl

/-- **The loop ends without a division by zero** exactly for a number of directories that
begins with the digit one. -/
theorem dirName_isSome {slot : Nat} (num : Nat) (hslot : 0 < slot) :
    (dirName slot num).isSome ↔ ∃ k, 10 ^ k ≤ slot ∧ slot < 2 * 10 ^ k := by
  rw [dirName_eq]
  exact digits_isSome num hslot (Nat.lt_succ_self slot)

example : dirName 25 0 = none := by decide

/-! ## When the quotients are digits -/

theorem toNat_ofNat_add {q : Nat} (h : q < 200) : (UInt8.ofNat (q + 48)).toNat = q + 48 := by
  rw [UInt8.toNat_ofNat']
  omega

/-- If `anchor` is no power of ten, some number below it gets a character that is no digit. -/
theorem exists_not_allDigits {fuel anchor : Nat} (hpos : 0 < anchor) (hfuel : anchor < fuel)
    (hpow : ∀ k, anchor ≠ 10 ^ k) :
    ∃ num < anchor, ∀ name ∈ digits fuel anchor num, ¬AllDigits name := by
  induction fuel generalizing anchor with
  | zero => omega
  | succ fuel ih =>
    have hlarge : anchor > 1 := by
      have hone := hpow 0
      omega
    by_cases hzero : anchor / 10 = 0
    · refine ⟨0, by omega, ?_⟩
      intro name hname
      simp [digits, hlarge, hzero] at hname
    · by_cases hlast : anchor % 10 = 0
      · -- the last digit is a zero: the failing number of a tenth fails here too
        have hsmaller : ∀ k, anchor / 10 ≠ 10 ^ k := by
          intro k hk
          apply hpow (k + 1)
          rw [Nat.pow_succ]
          omega
        obtain ⟨num, hnum, hbad⟩ := ih (by omega) (by omega) hsmaller
        refine ⟨num, by omega, ?_⟩
        intro name hname hdigits
        rw [digits, if_pos hlarge, if_neg hzero, Nat.mod_eq_of_lt hnum] at hname
        obtain ⟨rest, hrest, rfl⟩ := Option.map_eq_some_iff.mp hname
        apply hbad rest hrest
        intro b hb
        exact hdigits b (List.mem_cons_of_mem _ hb)
      · -- the first quotient of the last number is ten or more
        refine ⟨anchor - 1, by omega, ?_⟩
        intro name hname hdigits
        rw [digits, if_pos hlarge, if_neg hzero] at hname
        obtain ⟨rest, hrest, rfl⟩ := Option.map_eq_some_iff.mp hname
        have hten : 10 ≤ (anchor - 1) / (anchor / 10) := by
          rw [Nat.le_div_iff_mul_le (by omega)]
          omega
        have hsmall : (anchor - 1) / (anchor / 10) < 200 := by
          rw [Nat.div_lt_iff_lt_mul (by omega)]
          omega
        have hchar := (hdigits _ List.mem_cons_self).2
        rw [toNat_ofNat_add hsmall] at hchar
        omega

/-- For a power of ten the name is the padded numeral. -/
theorem dirName_pow {k num : Nat} (hnum : num < 10 ^ k) :
    dirName (10 ^ k) num = some (padded k num) := by
  have hk : k < 10 ^ k := Nat.lt_pow_self (by omega)
  have hroom : 10 ^ k = k + (10 ^ k - k) := by omega
  have hloop := digitLoop_pow [] [] (10 ^ k - k) hnum (by omega : k < 10 ^ k + 1)
  rw [← hroom] at hloop
  rw [dirName, hloop]
  rfl

/-- **The names are made of digits** exactly for the powers of ten. -/
theorem dirName_allDigits_iff {slot : Nat} (hslot : 0 < slot) :
    (∀ num < slot, ∃ name ∈ dirName slot num, AllDigits name) ↔ ∃ k, slot = 10 ^ k := by
  constructor
  · intro h
    by_contra hpow
    have hne : ∀ k, slot ≠ 10 ^ k := fun k hk => hpow ⟨k, hk⟩
    obtain ⟨num, hnum, hbad⟩ :=
      exists_not_allDigits hslot (Nat.lt_succ_self slot) hne
    obtain ⟨name, hname, hdigits⟩ := h num hnum
    rw [dirName_eq] at hname
    exact hbad name hname hdigits
  · rintro ⟨k, rfl⟩ num hnum
    exact ⟨padded k num, dirName_pow hnum, fun b hb => mem_padded hnum hb⟩

/-! ## When the client has the same names -/

/-- **The storage server and the client agree on the names of a thousand directories**, and
of no other number of them. -/
theorem namesAgree_iff {slot : Nat} (hslot : 1 ≤ slot) : NamesAgree slot ↔ slot = 1000 := by
  constructor
  · intro h
    -- names of digits only are those of a power of ten
    have hdigits : ∀ num < slot, ∃ name ∈ dirName slot num, AllDigits name := by
      intro num hnum
      obtain ⟨name, hname⟩ := Option.isSome_iff_exists.mp (h.divides num hnum)
      exact ⟨name, hname, h.digits num hnum name hname⟩
    obtain ⟨k, rfl⟩ := (dirName_allDigits_iff hslot).mp hdigits
    -- the client's name of zero has three digits
    have hzero := h.client 0 hslot
    rw [dirName_pow hslot] at hzero
    have hlen := congrArg List.length (Option.some.inj hzero)
    rw [length_padded] at hlen
    subst hlen
    rfl
  · -- with 1000 slots both sides write the number with three digits
    rintro rfl
    have hname : ∀ num < 1000, dirName 1000 num = some (padded 3 num) := fun num hnum =>
      dirName_pow (k := 3) hnum
    constructor
    · intro num hnum
      rw [hname num hnum]
      rfl
    · intro num hnum name hmem
      rw [hname num hnum] at hmem
      rw [← Option.some.inj hmem]
      exact fun b hb => mem_padded (k := 3) hnum hb
    · intro num hnum num' hnum' heq
      rw [hname num hnum, hname num' hnum'] at heq
      exact padded_injective (k := 3) hnum hnum' (Option.some.inj heq)
    · intro num hnum
      rw [hname num hnum, Client.format03d, zeroFilled_eq_padded (k := 3) hnum (by omega)]

theorem namesAgree_iff_hundred : NamesAgree 100 ↔ 100 = 1000 := namesAgree_iff (by decide)

/-- With five directories the first divisor is zero. -/
theorem not_namesAgree : ¬∀ slot, 1 ≤ slot → NamesAgree slot := by
  intro h
  have hsome := (h 5 (by decide)).divides 0 (by decide)
  have hnone : dirName 5 0 = none := by decide
  rw [hnone] at hsome
  exact absurd hsome (by decide)

end Iceberg.Nginx
