import Iceberg.Lib.Strides
import Iceberg.Proxy.CarryOver

/-!
# Walks and reads in a buffer

The scanners of `lrued_query.c` and `parser.c` walk along a buffer in strides. They look at it
in loops that run up to some byte, and in `strncpy`, which runs up to a zero. Both read one
index after the other, and both may run out of the buffer before they find what they stop at.
-/

namespace Iceberg

open Strides

variable {w : WData}

/-! ## Places of a buffer -/

theorem drop_of_at {index : Int} {s : Bytes} (hat : w.At index s) (k : Nat) :
    w.data.drop (index + k).toNat = s.drop k := by
  have h0 := hat.1
  rw [show (index + k).toNat = index.toNat + k from by omega, ← List.drop_drop, hat.2.2]

theorem WData.drop_ne_nil {index : Int} (h0 : 0 ≤ index) (hin : index < w.len) :
    w.data.drop index.toNat ≠ [] := by
  apply List.ne_nil_of_length_pos
  rw [List.length_drop]
  simp only [WData.len] at hin
  omega

theorem WData.lt_len_of_drop {n : Nat} (h : w.data.drop n ≠ []) : (n : Int) < w.len := by
  have hpos := List.length_pos_iff.mpr h
  rw [List.length_drop] at hpos
  simp only [WData.len]
  omega

theorem at_get {index : Int} (h0 : 0 ≤ index) (hin : index < w.len) :
    ∃ s, w.At index (w.get index :: s) := by
  have hat := WData.at_drop h0 hin
  obtain ⟨b, s, hs⟩ := List.exists_cons_of_ne_nil (WData.drop_ne_nil h0 hin)
  rw [hs] at hat
  exact ⟨s, hat.get ▸ hat⟩

theorem WData.At.drop {index : Int} {s : Bytes} (hat : w.At index s) {k : Nat}
    (hk : k ≤ s.length) : w.At (index + k) (s.drop k) := by
  rw [← List.take_append_drop k s] at hat
  refine hat.append.cast ?_
  rw [List.length_take, Nat.min_eq_left hk]

/-- The bytes of a buffer from `start` on, one by one. -/
theorem get_of_at {start : Int} {s : Bytes} (hat : w.At start s) {k : Nat} (hk : k < s.length) :
    w.get (start + k) = s.get ⟨k, hk⟩ := by
  have hsplit : s = s.take k ++ s.get ⟨k, hk⟩ :: s.drop (k + 1) := by
    rw [List.get_eq_getElem, ← List.drop_eq_getElem_cons hk, List.take_append_drop]
  have htake : (s.take k).length = k := by
    rw [List.length_take]
    omega
  have hrest := hat
  rw [hsplit] at hrest
  have hbyte := hrest.append.get
  rwa [htake] at hbyte

theorem length_mergeCarry {carry : Bytes} (hread : w.data.length ≤ maxRead) :
    (mergeCarry carry w).len < 2 ^ 30 := by
  unfold mergeCarry WData.len
  unfold maxRead at *
  split
  · simp only [List.length_append, length_strncpy]
    omega
  · omega

/-! ## Length fields -/

/-- The bytes in front of the first `'\r'`, which are taken for a number. -/
def field (s : Bytes) : Bytes := s.takeWhile (· ≠ Byte.cr)

/-- The number that a run of bytes stands for, with every byte taken for a digit. -/
def claimed (ds : Bytes) : Int := ds.foldl (fun n b => n * 10 + schar b - 48) 0

/-- The value of a length field, as the `int` that the scanners get. -/
def fieldVal (s : Bytes) : Int := int32 (claimed (field s))

theorem int32_add_left (x y : Int) : int32 (int32 x * 10 + y) = int32 (x * 10 + y) := by
  unfold int32
  omega

/-- Reducing at every digit is reducing at the end. -/
theorem digitsVal_int32 (ds : Bytes) (n : Int) :
    digitsVal (int32 n) ds = int32 (ds.foldl (fun n b => n * 10 + schar b - 48) n) := by
  induction ds generalizing n with
  | nil => rfl
  | cons d ds ih =>
    rw [List.foldl_cons, ← ih, digitsVal, List.foldl_cons]
    congr 1
    have hred := int32_add_left n (schar d - 48)
    rwa [show int32 n * 10 + (schar d - 48) = int32 n * 10 + schar d - 48 from by omega,
      show n * 10 + (schar d - 48) = n * 10 + schar d - 48 from by omega] at hred

theorem digitsVal_claimed (ds : Bytes) : digitsVal 0 ds = int32 (claimed ds) :=
  digitsVal_int32 ds 0

theorem field_append {ds s : Bytes} (hcr : Byte.cr ∉ ds) : field (ds ++ Byte.cr :: s) = ds := by
  have hall : ∀ b ∈ ds, decide (b ≠ Byte.cr) = true := by
    intro b hb
    exact decide_eq_true fun h => hcr (h ▸ hb)
  rw [field, List.takeWhile_append_of_pos hall]
  simp

/-- The length field that a text begins with. -/
theorem lengthField_eq {index : Int} {s : Bytes} (hat : w.At index s) :
    lengthField w index
      = if Byte.cr ∈ s then some (fieldVal s, index + (field s).length) else none := by
  split
  · rename_i hmem
    obtain ⟨ds, rest, rfl, hcr⟩ := List.eq_append_cons_of_mem hmem
    rw [lengthField_at hat hcr, fieldVal, field_append hcr, digitsVal_claimed]
  · rename_i hmem
    exact lengthField_eq_none hat hmem

theorem length_field_lt {s : Bytes} (h : Byte.cr ∈ s) : (field s).length < s.length := by
  obtain ⟨ds, rest, rfl, hcr⟩ := List.eq_append_cons_of_mem h
  rw [field_append hcr]
  simp

theorem at_value {index : Int} {s : Bytes} (hat : w.At index s)
    (hmore : (field s).length + 2 ≤ s.length) :
    w.At (index + (field s).length + 2) (s.drop ((field s).length + 2)) :=
  (hat.drop hmore).cast (by omega)

/-! ## Walks -/

/-- Along the buffer from `index` on. -/
def AlongAt (w : WData) (stride : Bytes → Option Nat) (ok : Int → Bytes → Prop)
    (index : Int) : Prop :=
  Along stride ok 0 index (w.data.drop index.toNat)

section

variable {stride : Bytes → Option Nat} {ok : Int → Bytes → Prop}

theorem alongAt_iff {index : Int} {s : Bytes} (hat : w.At index s) :
    AlongAt w stride ok index ↔ Along stride ok 0 index s := by
  rw [AlongAt, hat.2.2]

theorem alongAt_behind {index : Int} (h : w.len ≤ index) : AlongAt w stride ok index := by
  rw [AlongAt, List.drop_eq_nil_of_le (by simp only [WData.len] at h; omega)]
  exact along_nil 0 index

theorem alongAt_stop {index : Int} {s : Bytes} (hat : w.At index s) (hne : s ≠ [])
    (hstride : stride s = none) : AlongAt w stride ok index ↔ ok index s := by
  rw [alongAt_iff hat, along_stop hne hstride]

theorem alongAt_stride {index : Int} {s : Bytes} {k : Nat} (hat : w.At index s) (hne : s ≠ [])
    (hpos : 0 < k) (hstride : stride s = some k) :
    AlongAt w stride ok index ↔ ok index s ∧ AlongAt w stride ok (index + k) := by
  rw [alongAt_iff hat, along_stride hne hpos hstride, AlongAt, drop_of_at hat]

end

/-! ## Reads -/

/-- The index lies in the buffer. -/
def WData.Inside (w : WData) (i : Int) : Prop := 0 ≤ i ∧ i < w.len

/-- A loop that begins at `first`, stops behind the first `stop` and goes no further than
`last` reads the byte at `i`. -/
def Reads (w : WData) (stop : UInt8) (first last i : Int) : Prop :=
  first ≤ i ∧ i ≤ last ∧ ∀ k < (i - first).toNat, w.get (first + k) ≠ stop

instance (w : WData) (stop : UInt8) (first last i : Int) :
    Decidable (Reads w stop first last i) :=
  inferInstanceAs (Decidable (first ≤ i ∧ i ≤ last ∧ ∀ k < (i - first).toNat, _))

/-- `strncpy(dst, data + start, n)` reads the byte at `i`. The count is a `size_t`, so that a
negative one is huge. -/
def Copies (w : WData) (start n i : Int) : Prop :=
  Reads w Byte.nul start (start + n % 2 ^ 64 - 1) i

/-- `saveToBuf` reads the byte at `i`. -/
def Saves (w : WData) (start i : Int) : Prop :=
  int32 (w.len - start) < maxRead ∧ Copies w start (int32 (w.len - start)) i

instance (w : WData) (start n i : Int) : Decidable (Copies w start n i) :=
  inferInstanceAs (Decidable (Reads w _ _ _ i))

instance (w : WData) (start i : Int) : Decidable (Saves w start i) :=
  inferInstanceAs (Decidable (_ ∧ _))

theorem reads_first {stop : UInt8} {first last : Int} (h : first ≤ last) :
    Reads w stop first last first := by
  refine ⟨Int.le_refl _, h, fun k hk => ?_⟩
  rw [Int.sub_self] at hk
  exact absurd hk (Nat.not_lt_zero k)

/-- A loop that reads on until `stop` keeps to the buffer exactly when its bound does, or when
there is a `stop` in the rest of the buffer. -/
theorem reads_inside_iff {stop : UInt8} {start last : Int} {s : Bytes} (hat : w.At start s) :
    (∀ i, Reads w stop start last i → w.Inside i) ↔ last < w.len ∨ stop ∈ s := by
  have h0 := hat.1
  have hend := hat.2.1
  constructor
  · intro h
    by_contra hno
    rw [not_or, Int.not_lt] at hno
    obtain ⟨hlast, hstop⟩ := hno
    -- the loop reaches the first byte behind the buffer
    have hread : Reads w stop start last w.len := by
      refine ⟨by omega, hlast, fun k hk heq => hstop ?_⟩
      have hk' : k < s.length := by omega
      rw [get_of_at hat hk'] at heq
      exact heq ▸ List.get_mem s ⟨k, hk'⟩
    exact absurd (h _ hread).2 (Int.lt_irrefl _)
  · rintro (hlast | hstop) i ⟨hfirst, hi, hpass⟩
    · exact ⟨by omega, by omega⟩
    · refine ⟨by omega, ?_⟩
      by_contra hout
      obtain ⟨k, hk⟩ := List.mem_iff_get.mp hstop
      have hbyte := get_of_at hat k.isLt
      exact hpass k (by omega) (hbyte.trans hk)

theorem copies_inside_iff {start n : Int} {s : Bytes} (hat : w.At start s) :
    (∀ i, Copies w start n i → w.Inside i) ↔ n % 2 ^ 64 ≤ s.length ∨ Byte.nul ∈ s := by
  have hend := hat.2.1
  refine (reads_inside_iff hat).trans (or_congr_left ?_)
  omega

/-- A copy of bytes that are there. -/
theorem copies_inside {start n i : Int} {s : Bytes} (hat : w.At start s) (h0 : 0 ≤ n)
    (hn : n ≤ s.length) (h : Copies w start n i) : w.Inside i := by
  have hstart := hat.1
  have hend := hat.2.1
  refine (copies_inside_iff hat).mpr (Or.inl ?_) i h
  omega

theorem saves_inside {start i : Int} {s : Bytes} (hat : w.At start s) (hlen : w.len < 2 ^ 30)
    (h : Saves w start i) : w.Inside i := by
  have hstart := hat.1
  have hend := hat.2.1
  have hcount : int32 (w.len - start) = s.length := by
    rw [int32_of_bounds (by omega) (by omega)]
    omega
  rw [Saves, hcount] at h
  exact copies_inside hat (by omega) (Int.le_refl _) h.2

end Iceberg
