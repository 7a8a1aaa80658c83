import Iceberg.Proxy.LruedQuery
import Iceberg.Spec.Resp

/-!
# The scanner, one star at a time

The equations of `scanFrom` that the later modules walk a buffer with: a byte that is no
`'*'` is passed, a `'*'` that opens no `DEL` is jumped over with the thirteen bytes behind
it, and a `DEL` is handed to `delParser`, whose outcome on a complete and on a broken
command is stated next. All of it is about buffers below `2^30` bytes, where the `int`
indices of the source do not overflow by themselves.
-/

namespace Iceberg

namespace Scan

open Iceberg.Parser (End)
open Resp (array delName)

variable {w : WData}

/-! ## Progress -/

/-- The loop over a length field goes forward, one byte a round. Induction on the rounds. -/
theorem digits_bounds {fuel : Nat} {acc index len cr : Int}
    (h : digits w fuel acc index = some (len, cr)) : index ≤ cr ∧ cr < index + fuel := by
  induction fuel generalizing acc index with
  | zero => cases h
  | succ fuel ih =>
    rw [digits] at h
    split at h
    · cases h
      omega
    · have := ih h
      omega

/-- The value of a length field fits an `int`, as each step is reduced to one. -/
theorem digits_int {fuel : Nat} {acc index len cr : Int}
    (hacc : -(2 ^ 31) ≤ acc ∧ acc < 2 ^ 31)
    (h : digits w fuel acc index = some (len, cr)) : -(2 ^ 31) ≤ len ∧ len < 2 ^ 31 := by
  induction fuel generalizing acc index with
  | zero => cases h
  | succ fuel ih =>
    rw [digits] at h
    split at h
    · cases h
      exact hacc
    · exact ih ⟨le_int32 _, int32_lt _⟩ h

theorem lengthField_bounds {index len cr : Int} (h : lengthField w index = some (len, cr)) :
    index ≤ cr ∧ cr < w.len := by
  have hb := digits_bounds h
  omega

theorem lengthField_int {index len cr : Int} (h : lengthField w index = some (len, cr)) :
    -(2 ^ 31) ≤ len ∧ len < 2 ^ 31 :=
  digits_int ⟨by decide, by decide⟩ h

/-- `keep` returns the index it is asked for. -/
theorem keep_index {start index next : Int} {acts : List Act}
    (h : keep w start index = .ret acts next) : next = index := by
  unfold keep at h
  split at h <;> cases h
  rfl

/-- `delParser` goes forward, unless it returns `-1` or an index that overflowed. -/
theorem delParser_index (hlen : w.len < 2 ^ 30) {start next : Int} {acts : List Act}
    (h0 : 0 ≤ start) (h : delParser w start = .ret acts next) : next < 0 ∨ start < next := by
  simp only [delParser] at h
  split at h
  · split at h
    · have := keep_index h
      omega
    · cases hf : lengthField w (start + 13 + 1) with
      | none =>
        simp only [hf] at h
        have := keep_index h
        omega
      | some field =>
        obtain ⟨len, cr⟩ := field
        have hb := lengthField_bounds hf
        have hint := lengthField_int hf
        simp only [hf] at h
        split at h
        · have := keep_index h
          omega
        · split at h
          · split at h
            · cases h
            · cases h
              unfold int32
              omega
          · -- the end that does not fit lies behind the buffer, so the length is positive
            have := keep_index h
            subst this
            unfold int32 at *
            omega
  · cases h
    omega

/-! ## The equations of the loop -/

/-- The search goes forward, one byte a round. Induction on the rounds. -/
theorem skipToStar_bounds {fuel : Nat} {index : Int} :
    index ≤ skipToStar w fuel index ∧ skipToStar w fuel index ≤ index + fuel := by
  induction fuel generalizing index with
  | zero => simp [skipToStar]
  | succ fuel ih =>
    rw [skipToStar]
    split
    · have := @ih (index + 1)
      omega
    · omega

theorem scan_negative {n : Nat} {index : Int} (hneg : index < 0) (hn : 0 < n) :
    scan w n index = ([], .crash) := by
  obtain ⟨n, rfl⟩ : ∃ k, n = k + 1 := ⟨n - 1, by omega⟩
  rw [scan, if_pos hneg]

/-- Fuel beyond the bytes that are left changes nothing. -/
theorem scan_fuel (hlen : w.len < 2 ^ 30) {n m : Nat} {index : Int}
    (hn : (w.len - index).toNat < n) (hm : (w.len - index).toNat < m) :
    scan w n index = scan w m index := by
  induction n generalizing m index with
  | zero => omega
  | succ n ih =>
    obtain ⟨m, rfl⟩ : ∃ k, m = k + 1 := ⟨m - 1, by omega⟩
    rw [scan, scan]
    split
    · rfl
    split
    · have hskip := @skipToStar_bounds w (w.len - index).toNat index
      generalize skipToStar w (w.len - index).toNat index = j at hskip
      simp only
      split
      · split
        · split
          · cases hd : delParser w j with
            | crash => rfl
            | ret acts next =>
              simp only
              split
              · rfl
              · rcases delParser_index hlen (by omega) hd with hneg | hfwd
                · rw [scan_negative hneg (show 0 < n from by omega),
                    scan_negative hneg (show 0 < m from by omega)]
                · rw [@ih m next (by omega) (by omega)]
          · exact ih (by omega) (by omega)
        · rfl
      · exact ih (by omega) (by omega)
    · rfl

theorem scanFrom_behind {index : Int} (h : w.len ≤ index) (h0 : 0 ≤ index) :
    scanFrom w index = ([], .done) := by
  rw [scanFrom, scan, if_neg (by omega), if_neg (by omega)]

/-- One round of the loop, from the next `'*'` on. -/
theorem scanFrom_star (hlen : w.len < 2 ^ 30) {index : Int} (h0 : 0 ≤ index)
    (hin : index < w.len) (hstar : w.get index = Byte.star) :
    scanFrom w index =
      if w.len - 14 > 0 then
        if strncpy (w.slice index 14) = delHeader then
          match delParser w index with
          | .crash => ([], .crash)
          | .ret acts next =>
            if next = -1 then (acts, .done)
            else (acts ++ (scanFrom w next).1, (scanFrom w next).2)
        else scanFrom w (index + 14)
      else
        match saveToBuf w (index - 1) with
        | some buf => ([.save buf], .done)
        | none => ([], .crash) := by
  have hskip : skipToStar w (w.len - index).toNat index = index := by
    cases (w.len - index).toNat with
    | zero => rfl
    | succ n => rw [skipToStar, if_neg (fun h => h.1 hstar)]
  rw [scanFrom, scan, if_neg (by omega), if_pos hin, hskip]
  simp only [if_pos hin]
  split
  · split
    · cases hd : delParser w index with
      | crash => rfl
      | ret acts next =>
        simp only
        split
        · rfl
        · rcases delParser_index hlen h0 hd with hneg | hfwd
          · rw [scan_negative hneg (by omega), scanFrom, scan_negative hneg (by omega)]
          · rw [scanFrom,
              @scan_fuel w hlen _ ((w.len - next).toNat + 1) next (by omega) (by omega)]
    · exact scan_fuel hlen (by omega) (by omega)
  · rfl

/-- The search stops at a star, or at the end. -/
theorem skipToStar_stop {fuel : Nat} {index : Int} (hfuel : w.len ≤ index + fuel)
    (hin : skipToStar w fuel index < w.len) : w.get (skipToStar w fuel index) = Byte.star := by
  induction fuel generalizing index with
  | zero =>
    rw [skipToStar] at hin
    omega
  | succ fuel ih =>
    rw [skipToStar] at hin ⊢
    split at hin
    · rename_i hgo
      rw [if_pos hgo]
      exact ih (by omega) hin
    · rename_i hstop
      rw [if_neg hstop]
      by_contra hstar
      exact hstop ⟨hstar, hin⟩

/-- The loop may as well begin at the next `'*'`. -/
theorem scanFrom_jump (hlen : w.len < 2 ^ 30) {index : Int} (h0 : 0 ≤ index) :
    scanFrom w index = scanFrom w (skipToStar w (w.len - index).toNat index) := by
  have hskip := @skipToStar_bounds w (w.len - index).toNat index
  rcases Int.lt_or_le index w.len with hin | hout
  · have hstop := @skipToStar_stop w (w.len - index).toNat index (by omega)
    generalize hj : skipToStar w (w.len - index).toNat index = j at hskip hstop ⊢
    rcases Int.lt_or_le j w.len with hjin | hjout
    · -- both rounds stand at the same star
      have hstay : skipToStar w (w.len - j).toNat j = j := by
        cases (w.len - j).toNat with
        | zero => rfl
        | succ n => rw [skipToStar, if_neg (fun h => h.1 (hstop hjin))]
      have hsame : scanFrom w index = scan w ((w.len - index).toNat + 1) j := by
        rw [scanFrom, scan, scan, if_neg (show ¬ index < 0 from by omega), if_pos hin, hj,
          if_neg (show ¬ j < 0 from by omega), if_pos hjin, hstay]
        simp only [if_pos hjin]
      rw [hsame]
      exact scan_fuel hlen (by omega) (by omega)
    · rw [scanFrom_behind hjout (by omega), scanFrom, scan, if_neg (by omega), if_pos hin, hj]
      simp only [if_neg (show ¬ j < w.len from by omega)]
      rw [@scan_fuel w hlen _ ((w.len - j).toNat + 1) j (by omega) (by omega)]
      exact scanFrom_behind hjout (by omega)
  · rw [show (w.len - index).toNat = 0 from by omega]
    rfl

/-- A byte that is no `'*'` is passed. -/
theorem scanFrom_skip (hlen : w.len < 2 ^ 30) {index : Int} (h0 : 0 ≤ index)
    (hin : index < w.len) (hstar : w.get index ≠ Byte.star) :
    scanFrom w index = scanFrom w (index + 1) := by
  rw [scanFrom_jump hlen h0, scanFrom_jump hlen (show 0 ≤ index + 1 from by omega),
    show (w.len - index).toNat = (w.len - (index + 1)).toNat + 1 from by omega, skipToStar,
    if_pos ⟨hstar, hin⟩]

/-! ## The text of a `DEL` -/

/-- A deletion is its header, its length field and its key. -/
theorem array_del (key : Bytes) :
    array [delName, key]
      = delHeader ++ (Decimal.decimal key.length ++ crlf ++ key ++ crlf) := by
  have h2 : Decimal.decimal 2 = [50] := by decide
  have h3 : Decimal.decimal 3 = [51] := by decide
  simp [array, Resp.bulk, delName, delHeader, h2, h3]

theorem at_field {start : Int} {s : Bytes} (hat : w.At start (delHeader ++ s)) :
    w.At (start + 14) s := hat.append

/-- Behind the header the length field decides. -/
theorem delParser_header {start : Int} {s : Bytes} (hat : w.At start (delHeader ++ s)) :
    delParser w start =
      match lengthField w (start + 14) with
      | none => keep w start (-1)
      | some (len, cr) =>
        if cr + 2 ≥ w.len then keep w start (-1)
        else if int32 (cr + 2 + len) ≤ w.len then
          if len < 0 then .crash
          else .ret [.query start (strncpy (w.slice (cr + 2) len.toNat))]
            (int32 (cr + 2 + len + 2))
        else keep w start (int32 (cr + 2 + len + 2)) := by
  have hdollar : w.get (start + 13) = Byte.dollar := by
    have hsplit : delHeader ++ s = delHeader.take 13 ++ (Byte.dollar :: s) := rfl
    rw [hsplit] at hat
    exact hat.append.get
  have hlen := hat.2.1
  rw [List.length_append, show delHeader.length = 14 from rfl] at hlen
  simp only [delParser, if_pos hdollar, show start + 13 + 1 = start + 14 from by omega]
  rcases Int.lt_or_le (start + 14) w.len with hmore | hend
  · rewrite [if_neg (show ¬ start + 14 ≥ w.len from by omega)]
    cases lengthField w (start + 14) <;> rfl
  · -- the buffer ends with the header, and the length field is empty
    rewrite [if_pos hend, lengthField, show (w.len - (start + 14)).toNat = 0 from by omega]
    rfl

theorem keep_at {start next : Int} {s : Bytes} (hat : w.At start s) (hfit : s.length < maxRead)
    (hcopy : Copied s) : keep w start next = .ret [.save s] next := by
  rw [keep, saveToBuf_at hat hfit hcopy]

theorem cr_notMem_decimal (n : Nat) : Byte.cr ∉ Decimal.decimal n :=
  Decimal.notMem_decimal n (Or.inl (by decide))

/-- The length field of a `DEL`, as far as the buffer holds it. -/
theorem lengthField_del {start : Int} {n : Nat} {s : Bytes}
    (hat : w.At start (delHeader ++ (Decimal.decimal n ++ Byte.cr :: s))) (hn : n < 2 ^ 31) :
    lengthField w (start + 14) = some ((n : Int), start + 14 + (Decimal.decimal n).length) := by
  have hfield := lengthField_at (at_field hat) (cr_notMem_decimal n)
  rwa [Resp.digitsVal_decimal hn] at hfield

/-- A complete key, with at least one byte in or behind its place, is queried. -/
theorem delParser_key {start : Int} {key s : Bytes}
    (hat : w.At start (delHeader ++ (Decimal.decimal key.length ++ crlf ++ key ++ s)))
    (hlen : w.len < 2 ^ 30) (hmore : key ++ s ≠ []) :
    delParser w start = .ret [.query start (strncpy key)]
      (start + 18 + (Decimal.decimal key.length).length + key.length) := by
  have hsum := hat.2.1
  have hpos := List.length_pos_iff.mpr hmore
  have hkey : w.At (start + 14 + (Decimal.decimal key.length).length + 2) (key ++ s) := by
    simp only [List.append_assoc] at hat
    exact (WData.At.append (s := crlf) hat.append.append).cast rfl
  have hslice := hkey.slice
  have h0 := hat.1
  simp only [List.length_append, List.length_cons, List.length_nil, Int.natCast_add,
    show delHeader.length = 14 from rfl] at hsum hpos
  rw [delParser_header hat,
    lengthField_del (n := key.length) (s := Byte.lf :: (key ++ s)) (by simpa using hat) (by omega)]
  simp only
  rw [if_neg (by omega), int32_of_bounds (by omega) (by omega), if_pos (by omega),
    if_neg (by omega), Int.toNat_natCast, hslice, int32_of_bounds (by omega) (by omega)]
  congr 1
  omega

/-- A command that breaks off before the end of its key is saved. -/
theorem delParser_broken {start : Int} {key s t : Bytes} (hat : w.At start (delHeader ++ s))
    (hst : s ++ t = Decimal.decimal key.length ++ crlf ++ key) (hbroken : t ≠ [] ∨ key = [])
    (hlen : w.len < 2 ^ 30) (hkey : key.length < 2 ^ 30) :
    ∃ next, delParser w start = keep w start next ∧ (next = -1 ∨ w.len ≤ next) := by
  have hsum := hat.2.1
  have h0 := hat.1
  rw [List.append_assoc] at hst
  rcases List.append_eq_append_iff.mp hst with ⟨d, hd, ht⟩ | ⟨c, rfl, hc⟩
  · -- inside the digits
    have hcr : Byte.cr ∉ s := fun h =>
      cr_notMem_decimal key.length (hd ▸ List.mem_append_left d h)
    rw [delParser_header hat, lengthField_eq_none (at_field hat) hcr]
    exact ⟨-1, rfl, Or.inl rfl⟩
  · rw [delParser_header hat]
    rcases c with _ | ⟨_, c⟩
    · rw [List.append_nil] at hat
      rw [lengthField_eq_none (at_field hat) (cr_notMem_decimal key.length)]
      exact ⟨-1, rfl, Or.inl rfl⟩
    · -- behind the first byte of the line end
      obtain ⟨rfl, hc'⟩ := List.cons_eq_cons.mp
        (show Byte.cr :: Byte.lf :: key = _ :: (c ++ t) from hc)
      rw [lengthField_del hat (by omega)]
      simp only [List.length_append, List.length_cons, Int.natCast_add,
        show delHeader.length = 14 from rfl] at hsum
      simp only
      rcases c with _ | ⟨_, k⟩
      · rw [if_pos (by simp only [List.length_nil] at hsum; omega)]
        exact ⟨-1, rfl, Or.inl rfl⟩
      · obtain ⟨rfl, hk⟩ := List.cons_eq_cons.mp (show Byte.lf :: key = _ :: (k ++ t) from hc')
        simp only [List.length_cons] at hsum
        split
        · exact ⟨-1, rfl, Or.inl rfl⟩
        · have hkt := congrArg List.length hk
          rw [List.length_append] at hkt
          have htpos : 0 < t.length := by
            rcases hbroken with ht | hnil
            · exact List.length_pos_iff.mpr ht
            · rw [hnil, List.length_nil] at hkt
              omega
          rw [int32_of_bounds (by omega) (by omega), if_neg (by omega),
            int32_of_bounds (by omega) (by omega)]
          exact ⟨_, rfl, Or.inr (by omega)⟩

/-! ## Stars and headers in a long buffer -/

theorem nul_notMem_delHeader : Byte.nul ∉ delHeader := by decide

/-- A copy is the header exactly if the text is, as no zeros are filled in. -/
theorem strncpy_eq_delHeader {s : Bytes} : strncpy s = delHeader ↔ s = delHeader := by
  constructor
  · intro h
    exact eq_of_strncpy h nul_notMem_delHeader
  · rintro rfl
    exact copied_of_nulFree nul_notMem_delHeader

/-- A `'*'` that opens no `DEL` is jumped over. -/
theorem scanFrom_other (hlen : w.len < 2 ^ 30) (hlong : 14 < w.len) {index : Int}
    {s t : Bytes} (hat : w.At index (s ++ t)) (hstar : s.head? = some Byte.star)
    (h14 : s.length = 14) (hne : s ≠ delHeader) :
    scanFrom w index = scanFrom w (index + 14) := by
  cases s with
  | nil => cases hstar
  | cons b s =>
    cases hstar
    have hslice := hat.slice
    rw [h14] at hslice
    rw [scanFrom_star hlen hat.1 hat.lt_len hat.get, if_pos (by omega), hslice,
      if_neg (strncpy_eq_delHeader.not.mpr hne)]

/-- A comparison that finds the header without fourteen bytes to find it in: `delParser` has
its `'$'` behind the buffer, and saves. -/
theorem delParser_brokenStar {index : Int} {s : Bytes} (hat : w.At index s)
    (h14 : s.length < 14) (hheader : strncpy (w.slice index 14) = delHeader) :
    delParser w index = .ret [.save (strncpy s)] (-1) := by
  have hend := hat.2.1
  have hslice := strncpy_eq_delHeader.mp hheader
  have hdollar : w.get (index + 13) = Byte.dollar := by
    have h13 : (w.slice index 14)[13]? = some Byte.dollar := by rw [hslice]; rfl
    simpa [WData.slice] using h13
  simp only [delParser, if_pos hdollar]
  rw [if_pos (by omega), keep, saveToBuf_fit hat (by unfold maxRead; omega)]

/-- At a `'*'` with fewer than fourteen bytes behind it the comparison runs past the end of
the buffer. Whatever it finds there, at most these bytes are saved. -/
theorem scanFrom_brokenStar (hlen : w.len < 2 ^ 30) (hlong : 14 < w.len) {index : Int}
    {s : Bytes} (hat : w.At index (Byte.star :: s)) (h14 : (Byte.star :: s).length < 14) :
    scanFrom w index = ([], .done)
      ∨ scanFrom w index = ([.save (strncpy (Byte.star :: s))], .done) := by
  have hend := hat.2.1
  have h0 := hat.1
  rw [scanFrom_star hlen hat.1 hat.lt_len hat.get, if_pos (by omega)]
  split
  · rename_i hheader
    right
    rw [delParser_brokenStar hat h14 hheader]
    rfl
  · left
    exact scanFrom_behind (by omega) (by omega)

/-- **The scan at a header** calls `delParser`, and goes on where it says. -/
theorem scanFrom_header (hlen : w.len < 2 ^ 30) (hlong : 14 < w.len) {index : Int} {s : Bytes}
    (hat : w.At index (delHeader ++ s)) :
    scanFrom w index =
      match delParser w index with
      | .crash => ([], .crash)
      | .ret acts next =>
        if next = -1 then (acts, .done)
        else (acts ++ (scanFrom w next).1, (scanFrom w next).2) := by
  have hslice : w.slice index 14 = delHeader := hat.slice
  have hhead : w.At index (Byte.star :: (delHeader.tail ++ s)) := hat
  rw [scanFrom_star hlen hat.1 hhead.lt_len hhead.get, if_pos (by omega), hslice,
    if_pos (strncpy_eq_delHeader.mpr rfl)]

/-- The length of a deletion. -/
theorem length_del (key : Bytes) :
    (array [delName, key]).length = 18 + (Decimal.decimal key.length).length + key.length := by
  rw [array_del]
  simp only [List.length_append, List.length_cons, List.length_nil,
    show delHeader.length = 14 from rfl]
  omega

/-- A complete `DEL` is queried, and the scan goes on behind it. -/
theorem scanFrom_del (hlen : w.len < 2 ^ 30) (hlong : 14 < w.len) {index : Int}
    {key s : Bytes} (hat : w.At index (array [delName, key] ++ s)) :
    scanFrom w index =
      (.query index (strncpy key) ::
          (scanFrom w (index + (array [delName, key]).length)).1,
        (scanFrom w (index + (array [delName, key]).length)).2) := by
  have h0 := hat.1
  rw [length_del]
  rw [array_del] at hat
  simp only [List.append_assoc] at hat
  rw [scanFrom_header hlen hlong hat,
    delParser_key (s := crlf ++ s) (by simpa using hat) hlen (by simp)]
  have hnext : index + 18 + (Decimal.decimal key.length).length + key.length
      = index + (18 + (Decimal.decimal key.length).length + key.length : Nat) := by omega
  simp only [hnext]
  rw [if_neg (by omega)]
  rfl

end Scan

end Iceberg
