import Mathlib.Algebra.Group.Int.Defs
import Mathlib.Algebra.Group.Nat.Defs
import Mathlib.Data.List.Basic
import Mathlib.Data.List.TakeDrop
import Mathlib.Data.List.TakeWhile
import Mathlib.Tactic.Cases

/-!
# Buffers of the proxy

`struct WData` of `basic.h`, the copies that C string functions make of it, and the two
places where bytes are kept from one read to the next: `saveToBuf` of `parser.c` and the
merge that opens both `parseReadData` and `processInputBuffer`.

A buffer is its `len` bytes together with whatever lies in memory around them: the code
examines bytes outside `[0, len)` in several places, and what it finds there is the
function `around`, about which nothing is assumed.
-/

namespace Iceberg

abbrev Bytes := List UInt8

/-- `MAX_READ` of `basic.h`: the size of every read buffer and of both carry buffers. -/
def maxRead : Nat := 10240

namespace Byte

abbrev nul : UInt8 := 0
abbrev lf : UInt8 := 10
abbrev cr : UInt8 := 13
abbrev space : UInt8 := 32
abbrev dollar : UInt8 := 36
abbrev star : UInt8 := 42
abbrev plus : UInt8 := 43
abbrev minus : UInt8 := 45
abbrev zero : UInt8 := 48
abbrev colon : UInt8 := 58

@[simp] theorem lf_ne_cr : lf ≠ cr := by decide

@[simp] theorem cr_ne_lf : cr ≠ lf := by decide

end Byte

/-- The line end of the protocol, `"\r\n"`. -/
abbrev crlf : Bytes := [Byte.cr, Byte.lf]

/-! ## C arithmetic -/

/-- A C `int`: the value modulo `2^32`, in two's complement. -/
def int32 (x : Int) : Int := (x + 2 ^ 31) % 2 ^ 32 - 2 ^ 31

theorem int32_of_bounds {x : Int} (hlo : -(2 ^ 31) ≤ x) (hhi : x < 2 ^ 31) :
    int32 x = x := by
  unfold int32
  omega

theorem int32_lt (x : Int) : int32 x < 2 ^ 31 := by
  unfold int32
  omega

theorem le_int32 (x : Int) : -(2 ^ 31) ≤ int32 x := by
  unfold int32
  omega

/-- The value of a `char`, which is signed. -/
def schar (b : UInt8) : Int := if b.toNat < 128 then b.toNat else b.toNat - 256

/-! ## C strings -/

/-- The bytes of a string up to its terminator. -/
def cstr (s : Bytes) : Bytes := s.takeWhile (· ≠ Byte.nul)

/-- `strncpy(dst, src, n)` for a source range of `n` bytes: the copy stops at the first
zero byte and what is left of the destination is filled with zeros. -/
def strncpy (src : Bytes) : Bytes :=
  cstr src ++ List.replicate (src.length - (cstr src).length) Byte.nul

/-- Without a zero byte the string is all of the bytes. -/
theorem cstr_of_nulFree {s : Bytes} (h : Byte.nul ∉ s) : cstr s = s := by
  unfold cstr
  rw [List.takeWhile_eq_self_iff]
  intro b hb
  simpa using fun hb0 : b = Byte.nul => h (hb0 ▸ hb)

@[simp] theorem length_strncpy (s : Bytes) : (strncpy s).length = s.length := by
  have hle : (cstr s).length ≤ s.length := (List.takeWhile_sublist _).length_le
  simp only [strncpy, List.length_append, List.length_replicate]
  omega

/-- The byte strings that `strncpy` copies as they are: behind a zero byte there are only
zero bytes. -/
def Copied (s : Bytes) : Prop := strncpy s = s

instance (s : Bytes) : Decidable (Copied s) := inferInstanceAs (Decidable (strncpy s = s))

theorem copied_of_nulFree {s : Bytes} (h : Byte.nul ∉ s) : Copied s := by
  simp [Copied, strncpy, cstr_of_nulFree h]

@[simp] theorem copied_nil : Copied [] := rfl

/-- **What `strncpy` copies** has no other byte behind a zero byte. -/
theorem copied_iff {s : Bytes} :
    Copied s ↔ ∀ before behind, s = before ++ Byte.nul :: behind → ∀ b ∈ behind, b = Byte.nul := by
  constructor
  · rintro h before behind rfl b hb
    have hstop : (cstr (before ++ Byte.nul :: behind)).length ≤ before.length := by
      unfold cstr
      rw [List.takeWhile_append]
      split
      · simp
      · exact (List.takeWhile_sublist _).length_le
    -- behind the terminator the copy is filled with zeros
    have hdrop := congrArg (List.drop (before.length + 1)) (show strncpy _ = _ from h)
    rw [strncpy, List.drop_append, List.drop_of_length_le (by omega), List.nil_append,
      List.drop_replicate, ← List.drop_drop, List.drop_left, List.drop_one, List.tail_cons] at hdrop
    rw [← hdrop] at hb
    exact List.eq_of_mem_replicate hb
  · intro h
    have hsplit : s = cstr s ++ s.dropWhile (· ≠ Byte.nul) := List.takeWhile_append_dropWhile.symm
    have hzeros : ∀ b ∈ s.dropWhile (· ≠ Byte.nul), b = Byte.nul := by
      cases hrest : s.dropWhile (· ≠ Byte.nul) with
      | nil => exact fun b hb => absurd hb List.not_mem_nil
      | cons b behind =>
        have hb : b = Byte.nul := by
          have := List.head?_dropWhile_not (fun x : UInt8 => decide (x ≠ Byte.nul)) s
          rw [hrest] at this
          simpa using this
        subst hb
        rw [hrest] at hsplit
        exact List.forall_mem_cons.mpr ⟨rfl, h _ _ hsplit⟩
    have hlen := congrArg List.length hsplit
    rw [List.length_append] at hlen
    unfold Copied
    conv => rhs; rw [hsplit, List.eq_replicate_of_mem hzeros]
    rw [strncpy]
    congr 2
    omega

theorem nul_notMem_append {s t : Bytes} :
    Byte.nul ∉ s ++ t ↔ Byte.nul ∉ s ∧ Byte.nul ∉ t := by
  simp

/-- What is copied keeps its length, and each byte is the old one or zero. -/
theorem strncpy_get {s : Bytes} {k : Nat} {b : UInt8} (h : (strncpy s)[k]? = some b) :
    b = Byte.nul ∨ s[k]? = some b := by
  obtain ⟨t, ht⟩ : cstr s <+: s := List.takeWhile_prefix _
  rw [strncpy, List.getElem?_append] at h
  split at h
  · right
    rwa [← ht, List.getElem?_append_left ‹_›]
  · left
    exact List.eq_of_mem_replicate (List.mem_of_getElem? h)

/-- A copy without zeros is exact. -/
theorem eq_of_strncpy {s t : Bytes} (h : strncpy s = t) (ht : Byte.nul ∉ t) : s = t := by
  have hlen : s.length = t.length := by rw [← h, length_strncpy]
  apply List.ext_getElem?
  intro k
  rcases Nat.lt_or_ge k t.length with hk | hk
  · have hb := List.getElem?_eq_getElem hk
    rw [hb]
    refine (strncpy_get (h ▸ hb)).resolve_left fun hnul => ht ?_
    exact hnul ▸ List.getElem_mem hk
  · rw [List.getElem?_eq_none hk, List.getElem?_eq_none (by omega)]

/-- What `strncpy` has written is copied as it is: behind its first zero there are only zeros. -/
theorem copied_strncpy (s : Bytes) : Copied (strncpy s) := by
  have hcstr : cstr (strncpy s) = cstr s := by
    have hpos : ∀ b ∈ cstr s, decide (b ≠ Byte.nul) = true := by
      intro b hb
      exact List.mem_takeWhile_imp (p := fun x : UInt8 => decide (x ≠ Byte.nul)) hb
    rw [strncpy]
    conv => lhs; rw [cstr, List.takeWhile_append_of_pos hpos]
    cases s.length - (cstr s).length <;> simp [List.replicate_succ]
  unfold Copied
  rw [strncpy, hcstr, length_strncpy]
  rfl

/-! ## `struct WData` -/

/-- A buffer of `data.length` bytes, and the memory around it. -/
structure WData where
  data : Bytes
  around : Int → UInt8

namespace WData

def len (w : WData) : Int := w.data.length

/-- `wdata->data[index]`, for any index the code computes. -/
def get (w : WData) (index : Int) : UInt8 :=
  if 0 ≤ index ∧ index < w.len then w.data.getD index.toNat 0 else w.around index

/-- The `n` bytes from `start` on. -/
def slice (w : WData) (start : Int) (n : Nat) : Bytes :=
  (List.range n).map fun k : Nat => w.get (start + k)

@[simp] theorem length_slice (w : WData) (start : Int) (n : Nat) :
    (w.slice start n).length = n := by
  simp [slice]

/-- A slice starts with the byte at its place. -/
theorem slice_succ (w : WData) (start : Int) (n : Nat) :
    w.slice start (n + 1) = w.get start :: w.slice (start + 1) n := by
  simp only [slice, List.range_succ_eq_map, List.map_cons, List.map_map, Int.natCast_zero,
    Int.add_zero]
  congr 1
  apply List.map_congr_left
  intro k _
  simp only [Function.comp_apply, Nat.succ_eq_add_one, Int.natCast_add, Int.natCast_one]
  congr 1
  omega

/-- From `index` on the buffer holds exactly `s`. The proofs walk the buffer with this
predicate, one byte or one field at a time. -/
def At (w : WData) (index : Int) (s : Bytes) : Prop :=
  0 ≤ index ∧ index + s.length = w.len ∧ w.data.drop index.toNat = s

theorem at_zero (w : WData) : w.At 0 w.data := by
  refine ⟨Int.le_refl 0, ?_, rfl⟩
  simp [len]

theorem At.cast {w : WData} {i j : Int} {s : Bytes} (h : w.At i s) (hij : i = j) :
    w.At j s := hij ▸ h

/-- The rest stands behind the front. -/
theorem At.append {w : WData} {index : Int} {s t : Bytes} (h : w.At index (s ++ t)) :
    w.At (index + s.length) t := by
  obtain ⟨hnn, hlen, hdrop⟩ := h
  refine ⟨by omega, ?_, ?_⟩
  · rw [← hlen]
    simp only [List.length_append, Int.natCast_add]
    omega
  · have hidx : (index + s.length).toNat = index.toNat + s.length := by omega
    rw [hidx, ← List.drop_drop, hdrop, List.drop_left']
    rfl

theorem At.tail {w : WData} {index : Int} {b : UInt8} {s : Bytes} (h : w.At index (b :: s)) :
    w.At (index + 1) s := by
  have := At.append (s := [b]) (t := s) (by simpa using h)
  simpa using this

/-- The byte at the place is the first one of what stands there. -/
theorem At.get {w : WData} {index : Int} {b : UInt8} {s : Bytes} (h : w.At index (b :: s)) :
    w.get index = b := by
  obtain ⟨hnn, hlen, hdrop⟩ := h
  have hin : index < w.len := by
    simp only [List.length_cons] at hlen
    omega
  have hhead : w.data[index.toNat]? = some b := by
    rw [← List.head?_drop, hdrop]
    rfl
  simp [WData.get, hnn, hin, List.getD, hhead]

/-- A place where bytes stand lies inside the data. -/
theorem At.lt_len {w : WData} {index : Int} {b : UInt8} {s : Bytes}
    (h : w.At index (b :: s)) : index < w.len := by
  have := h.2.1
  simp only [List.length_cons] at this
  omega

theorem At.le_len {w : WData} {index : Int} {s : Bytes} (h : w.At index s) :
    index ≤ w.len := by
  have := h.2.1
  omega

/-- Reading the field that the buffer holds at `index`. -/
theorem At.slice {w : WData} {index : Int} {s t : Bytes} (h : w.At index (s ++ t)) :
    w.slice index s.length = s := by
  apply List.ext_getElem
  · simp
  intro k hk hk'
  have hget := h
  rw [← List.take_append_drop k s, List.append_assoc] at hget
  have hdrop := List.drop_eq_getElem_cons hk'
  rw [hdrop, List.cons_append] at hget
  have hat := At.append hget
  have hlen : ((s.take k).length : Int) = k := by
    rw [List.length_take]
    omega
  rw [hlen] at hat
  simpa [WData.slice] using At.get hat

end WData

/-! ## Keeping an incomplete command -/

/-- `saveToBuf`: the new content of the carry buffer, which is dropped when it does not
fit. `none` is a start behind the buffer's end, where the negative count becomes a huge
`size_t` and `strncpy` runs off the memory. -/
def saveToBuf (w : WData) (start : Int) : Option Bytes :=
  let n := int32 (w.len - start)
  if n < maxRead then
    if n < 0 then none else some (strncpy (w.slice start n.toNat))
  else some []

/-- The merge at the head of `parseReadData` and `processInputBuffer`: a carried part is
put in front of the new read, in a buffer of its own. -/
def mergeCarry (carry : Bytes) (w : WData) : WData :=
  if 0 < carry.length ∧ carry.length + w.data.length < maxRead * 2 then
    { data := strncpy carry ++ strncpy w.data, around := w.around }
  else w

/-- A rest that fits into the buffer is saved, as far as `strncpy` copies it. -/
theorem saveToBuf_fit {w : WData} {start : Int} {s : Bytes} (h : w.At start s)
    (hfit : s.length < maxRead) : saveToBuf w start = some (strncpy s) := by
  have hn : w.len - start = s.length := by
    have := h.2.1
    omega
  have hbound : int32 (w.len - start) = s.length := by
    rw [hn]
    unfold maxRead at hfit
    exact int32_of_bounds (by omega) (by omega)
  have hslice : w.slice start s.length = s := WData.At.slice (t := []) (by simpa using h)
  simp only [saveToBuf, hbound]
  rw [if_pos (by omega), if_neg (by omega), Int.toNat_natCast, hslice]

theorem saveToBuf_at {w : WData} {start : Int} {s : Bytes} (h : w.At start s)
    (hfit : s.length < maxRead) (hcopy : Copied s) : saveToBuf w start = some s := by
  rw [saveToBuf_fit h hfit, hcopy]

/-- The merged buffer is the carried part followed by the read, when both are copied. -/
theorem mergeCarry_data {carry : Bytes} {w : WData}
    (hfit : carry.length + w.data.length < maxRead * 2)
    (hcopy : carry ≠ [] → Copied carry ∧ Copied w.data) :
    (mergeCarry carry w).data = carry ++ w.data := by
  unfold mergeCarry
  by_cases h0 : 0 < carry.length
  · obtain ⟨hcarry, hdata⟩ := hcopy (List.length_pos_iff.mp h0)
    rw [if_pos ⟨h0, hfit⟩, hcarry, hdata]
  · have hnil : carry = [] := by simpa using h0
    simp [hnil]

/-! ## Length fields -/

/-- The loop that reads a decimal length up to the next `'\r'`, used by `delParser`,
`parseArray` (twice) and `parseBulkString`: the digits are not checked and the sum is a C
`int`. `none` means that the buffer ended first. In the source some copies of the loop
test the bound inside, some in the condition (after the access) and some behind the loop;
the result is the same. -/
def digits (w : WData) : Nat → Int → Int → Option (Int × Int)
  | 0, _, _ => none
  | fuel + 1, acc, index =>
    if w.get index = Byte.cr then some (acc, index)
    else digits w fuel (int32 (acc * 10 + schar (w.get index) - 48)) (index + 1)

/-- The length field from `index` on: its value and the position of the `'\r'`. -/
def lengthField (w : WData) (index : Int) : Option (Int × Int) :=
  digits w (w.len - index).toNat 0 index

/-- The value that the loop gives to a run of bytes. -/
def digitsVal (acc : Int) (ds : Bytes) : Int :=
  ds.foldl (fun a b => int32 (a * 10 + schar b - 48)) acc

/-- The loop over a length field ends at the carriage return. Induction on the bytes before it. -/
theorem digits_at {w : WData} (ds : Bytes) {s : Bytes} {index acc : Int} {fuel : Nat}
    (hat : w.At index (ds ++ Byte.cr :: s)) (hcr : Byte.cr ∉ ds) (hfuel : ds.length < fuel) :
    digits w fuel acc index = some (digitsVal acc ds, index + ds.length) := by
  induction ds generalizing index acc fuel with
  | nil =>
    obtain ⟨fuel, rfl⟩ := Nat.exists_eq_add_of_lt hfuel
    have hget : w.get index = Byte.cr := WData.At.get (by simpa using hat)
    simp [digits, hget, digitsVal]
  | cons d ds ih =>
    obtain ⟨fuel, rfl⟩ : ∃ n, fuel = n + 1 := ⟨fuel - 1, by omega⟩
    rw [List.cons_append] at hat
    have hget : w.get index = d := hat.get
    have hd : d ≠ Byte.cr := fun h => hcr (by simp [h])
    rw [digits, hget, if_neg hd,
      ih hat.tail (fun h => hcr (List.mem_cons_of_mem _ h)) (by simpa using hfuel)]
    simp only [digitsVal, List.foldl_cons, List.length_cons, Int.natCast_add, Int.natCast_one]
    congr 2
    omega

/-- Without a `'\r'` in the rest of the buffer the field is incomplete. -/
theorem digits_eq_none {w : WData} {s : Bytes} {index acc : Int} {fuel : Nat}
    (hat : w.At index s) (hcr : Byte.cr ∉ s) (hfuel : fuel ≤ s.length) :
    digits w fuel acc index = none := by
  induction s generalizing index acc fuel with
  | nil =>
    obtain rfl : fuel = 0 := by simpa using hfuel
    rfl
  | cons d ds ih =>
    cases fuel with
    | zero => rfl
    | succ fuel =>
      have hget : w.get index = d := hat.get
      have hd : d ≠ Byte.cr := fun h => hcr (by simp [h])
      rw [digits, hget, if_neg hd]
      exact ih hat.tail (fun h => hcr (List.mem_cons_of_mem _ h)) (by simpa using hfuel)

/-- A length field that is whole is read. -/
theorem lengthField_at {w : WData} {ds s : Bytes} {index : Int}
    (hat : w.At index (ds ++ Byte.cr :: s)) (hcr : Byte.cr ∉ ds) :
    lengthField w index = some (digitsVal 0 ds, index + ds.length) := by
  have hlen := hat.2.1
  simp only [List.length_append, List.length_cons] at hlen
  exact digits_at ds hat hcr (by omega)

theorem lengthField_eq_none {w : WData} {s : Bytes} {index : Int} (hat : w.At index s)
    (hcr : Byte.cr ∉ s) : lengthField w index = none := by
  have hlen := hat.2.1
  exact digits_eq_none hat hcr (by omega)

end Iceberg
