import Iceberg.Proxy.Turns
import Iceberg.Proxy.World

/-!
# Behind a query that cannot be written

The scanner looks at the bytes of a chunk at the places of a walk, and at a place it either asks
for the key of a complete `DEL`, or keeps the rest of the chunk for a `DEL` that is not complete,
or goes on. So what a scan saves behind some query can be read off the bytes behind it.
-/

namespace Iceberg

namespace Scan

open Iceberg.Parser (End)
open Strides

variable {w : WData}

/-! ## Places -/

/-- The key of a `DEL` that is complete; `s` is the text behind its header. -/
def wholeKey (s : Bytes) : Option Bytes :=
  if Byte.cr ∈ s ∧ 0 ≤ fieldVal s ∧ (field s).length + 2 < s.length
      ∧ (field s).length + 2 + (fieldVal s).toNat ≤ s.length then
    some (strncpy ((s.drop ((field s).length + 2)).take (fieldVal s).toNat))
  else none

/-- The key of the complete `DEL` that a text begins with. -/
def wholeDel (s : Bytes) : Option Bytes :=
  if delHeader <+: s then wholeKey (s.drop 14) else none

/-- The text `s`, which is left of the buffer at `index`, begins with a `DEL` that is not
complete, and is short enough to be kept. The header may reach over the end of the buffer into
the memory behind it. -/
def BreaksOff (w : WData) (index : Int) (s : Bytes) : Prop :=
  w.slice index 14 = delHeader ∧ wholeKey (s.drop 14) = none ∧ s.length < maxRead

instance (w : WData) (index : Int) (s : Bytes) : Decidable (BreaksOff w index s) :=
  inferInstanceAs (Decidable (_ ∧ _ ∧ _))

/-- The places of the walk from `index` on. -/
def placesAt (w : WData) (index : Int) : List (Int × Bytes) :=
  places stride 0 index (w.data.drop index.toNat)

theorem placesAt_behind {index : Int} (h : w.len ≤ index) : placesAt w index = [] := by
  rw [placesAt, List.drop_eq_nil_of_le (by simp only [WData.len] at h; omega)]
  exact places_nil 0 index

theorem placesAt_stop {index : Int} {s : Bytes} (hat : w.At index s) (hne : s ≠ [])
    (hstride : stride s = none) : placesAt w index = [(index, s)] := by
  rw [placesAt, hat.2.2, places_stop hne hstride]

theorem placesAt_stride {index : Int} {s : Bytes} {k : Nat} (hat : w.At index s) (hne : s ≠ [])
    (hpos : 0 < k) (hstride : stride s = some k) :
    placesAt w index = (index, s) :: placesAt w (index + k) := by
  rw [placesAt, hat.2.2, places_stride hne hpos hstride, placesAt, drop_of_at hat]

/-! ## What the scanner does at a place -/

theorem wholeDel_header (s : Bytes) : wholeDel (delHeader ++ s) = wholeKey s := by
  rw [wholeDel, if_pos ⟨s, rfl⟩]
  rfl

theorem slice_header {index : Int} {s : Bytes} (hat : w.At index (delHeader ++ s)) :
    w.slice index 14 = delHeader := hat.slice

/-- A deletion breaks off where its key is not all there and what is there fits into the
buffer. -/
theorem breaksOff_header {index : Int} {s : Bytes} (hat : w.At index (delHeader ++ s)) :
    BreaksOff w index (delHeader ++ s)
      ↔ wholeKey s = none ∧ (delHeader ++ s).length < maxRead := by
  rw [BreaksOff, slice_header hat]
  exact and_iff_right rfl

/-- What is kept of a text: all of it, unless it is too long. -/
theorem keep_eq {index next : Int} {s : Bytes} (hat : w.At index s) (hlen : w.len < 2 ^ 30) :
    keep w index next = .ret [.save (if s.length < maxRead then strncpy s else [])] next := by
  split
  · rename_i hfit
    rw [keep, saveToBuf_fit hat hfit]
  · rename_i hlong
    have h0 := hat.1
    have hsum := hat.2.1
    rw [keep, saveToBuf, int32_of_bounds (by omega) (by omega), if_neg (by omega)]

theorem strncpy_ne_nil {s : Bytes} (h : s ≠ []) : strncpy s ≠ [] := by
  rw [← List.length_pos_iff] at h ⊢
  rwa [length_strncpy]

/-- At a place the scanner goes on, or asks for a key, or keeps the rest and ends. -/
inductive AtPlace (w : WData) (index : Int) (s : Bytes) : Prop where
  | passes (next : Int) (hnext : index < next)
      (hplaces : placesAt w index = (index, s) :: placesAt w next)
      (hnone : wholeDel s = none) (hbreak : ¬ BreaksOff w index s)
      (hscan : scanFrom w index = scanFrom w next)
  | asks (next : Int) (key : Bytes) (hnext : index < next)
      (hplaces : placesAt w index = (index, s) :: placesAt w next)
      (hsome : wholeDel s = some key) (hbreak : ¬ BreaksOff w index s)
      (hscan : scanFrom w index
        = (.query index key :: (scanFrom w next).1, (scanFrom w next).2))
  | keeps (buf : Bytes) (hplaces : placesAt w index = [(index, s)]) (hnone : wholeDel s = none)
      (hbuf : buf ≠ [] ↔ BreaksOff w index s)
      (hscan : (scanFrom w index).1 = [.save buf])

/-- A byte that is no `'*'`. -/
theorem atPlace_byte (hlen : w.len < 2 ^ 30) {index : Int} {b : UInt8} {s : Bytes}
    (hat : w.At index (b :: s)) (hb : b ≠ Byte.star) : AtPlace w index (b :: s) := by
  refine .passes (index + 1) (by omega)
    (placesAt_stride hat (List.cons_ne_nil _ _) Nat.one_pos (stride_byte hb)) ?_ ?_ ?_
  · rw [wholeDel, if_neg]
    rintro ⟨t, ht⟩
    exact hb (List.cons.inj ht).1.symm
  · rintro ⟨hslice, -⟩
    have hfirst : (w.slice index 14).head? = some Byte.star := by rw [hslice]; rfl
    rw [WData.slice_succ, hat.get] at hfirst
    exact hb (Option.some.inj hfirst)
  · exact scanFrom_skip hlen hat.1 hat.lt_len (by rw [hat.get]; exact hb)

/-- A `'*'` that opens no header in the buffer. -/
theorem atPlace_star (hlen : w.len < 2 ^ 30) (hlong : 14 < w.len) {index : Int} {s : Bytes}
    (hat : w.At index (Byte.star :: s)) (hpre : ¬ delHeader <+: Byte.star :: s) :
    AtPlace w index (Byte.star :: s) := by
  have hne : Byte.star :: s ≠ [] := List.cons_ne_nil _ _
  have hplaces := placesAt_stride hat hne (show 0 < 14 from by decide) (stride_star hpre)
  have hnone : wholeDel (Byte.star :: s) = none := if_neg hpre
  have hsum := hat.2.1
  have hscan := scanFrom_star hlen hat.1 hat.lt_len hat.get
  rw [if_pos (by omega)] at hscan
  rcases Decidable.em (w.slice index 14 = delHeader) with hslice | hslice
  · -- the header is completed by the memory behind the buffer
    have hshort : (Byte.star :: s).length < 14 := by
      by_contra hfull
      refine hpre ⟨(Byte.star :: s).drop 14, ?_⟩
      have htake : ((Byte.star :: s).take 14).length = 14 := by
        rw [List.length_take]
        omega
      rw [← List.take_append_drop 14 (Byte.star :: s)] at hat
      have := hat.slice
      rw [htake, hslice] at this
      conv => rhs; rw [← List.take_append_drop 14 (Byte.star :: s)]
      rw [← this]
    have hheader : strncpy (w.slice index 14) = delHeader := strncpy_eq_delHeader.mpr hslice
    rw [if_pos hheader, delParser_brokenStar hat hshort hheader] at hscan
    have hmaxRead : 14 < maxRead := by decide
    refine .keeps (strncpy (Byte.star :: s)) ?_ hnone ?_ (by rw [hscan]; rfl)
    · rw [hplaces, placesAt_behind (by omega)]
    · refine iff_of_true (strncpy_ne_nil hne) ⟨hslice, ?_, by omega⟩
      rw [List.drop_eq_nil_of_le (Nat.le_of_lt hshort)]
      rfl
  · rw [if_neg (strncpy_eq_delHeader.not.mpr hslice)] at hscan
    exact .passes (index + 14) (by omega) hplaces hnone (fun h => hslice h.1) hscan

/-- A header whose command is not complete. -/
theorem atPlace_broken (hlen : w.len < 2 ^ 30) (hlong : 14 < w.len) {index next : Int}
    {s : Bytes} (hat : w.At index (delHeader ++ s)) (hnone : wholeKey s = none)
    (hplaces : placesAt w index = [(index, delHeader ++ s)])
    (hcall : delParser w index = keep w index next) (hnext : next = -1 ∨ w.len ≤ next) :
    AtPlace w index (delHeader ++ s) := by
  have hne : delHeader ++ s ≠ [] := List.cons_ne_nil _ _
  have hscan := scanFrom_header hlen hlong hat
  rw [hcall, keep_eq hat hlen] at hscan
  refine .keeps (if (delHeader ++ s).length < maxRead then strncpy (delHeader ++ s) else [])
    hplaces ((wholeDel_header s).trans hnone) ?_ ?_
  · rw [breaksOff_header hat]
    split
    · rename_i hfit
      exact iff_of_true (strncpy_ne_nil hne) ⟨hnone, hfit⟩
    · rename_i hfull
      exact iff_of_false (fun h => h rfl) fun h => hfull h.2
  · rw [hscan]
    have h0 := hat.1
    rcases hnext with rfl | hbehind
    · rfl
    · simp only
      rw [if_neg (by omega), scanFrom_behind hbehind (by omega)]
      rfl

/-- A header, when the scan does not end in a crash. -/
theorem atPlace_header (hlen : w.len < 2 ^ 30) (hlong : 14 < w.len) {index : Int} {s : Bytes}
    (hat : w.At index (delHeader ++ s)) (hend : (scanFrom w index).2 ≠ .crash) :
    AtPlace w index (delHeader ++ s) := by
  have hne : delHeader ++ s ≠ [] := List.cons_ne_nil _ _
  have h0 := hat.1
  have hsum := hat.2.1
  rw [List.length_append, show delHeader.length = 14 from rfl] at hsum
  have hscan := scanFrom_header hlen hlong hat
  have hstride := stride_header s
  have hcall := delParser_header hat
  rw [lengthField_eq (at_field hat)] at hcall
  rcases Decidable.em (Byte.cr ∈ s) with hcr | hcr
  swap
  · -- the length field does not end
    rw [if_neg hcr] at hcall
    rw [if_neg fun h => hcr h.1] at hstride
    exact atPlace_broken hlen hlong hat (if_neg fun h => hcr h.1) (placesAt_stop hat hne hstride)
      hcall (Or.inl rfl)
  rw [if_pos hcr] at hcall
  simp only at hcall
  rcases Nat.lt_or_ge ((field s).length + 2) s.length with hmore | hshort
  swap
  · -- there is nothing behind its line end
    rw [if_pos (by omega)] at hcall
    refine atPlace_broken hlen hlong hat (if_neg fun h => by omega) ?_ hcall (Or.inl rfl)
    split at hstride
    · rw [placesAt_stride hat hne (by omega) hstride, placesAt_behind (by omega)]
    · exact placesAt_stop hat hne hstride
  rw [if_neg (show ¬ index + 14 + (field s).length + 2 ≥ w.len from by omega)] at hcall
  -- the length is not negative, and no index overflows
  have hpos : 0 ≤ fieldVal s := by
    by_contra hneg
    rw [delParser_negative hlen hat hcr hmore (by omega)] at hscan
    exact hend (by rw [hscan])
  have hfits : index + 18 + (field s).length + fieldVal s < 2 ^ 31 := by
    by_contra hover
    obtain ⟨acts, next, hret, hneg⟩ := delParser_overflow hlen hat hcr hmore (by omega)
    rw [hret] at hscan
    simp only [if_neg (show ¬ next = -1 from by omega)] at hscan
    refine hend ?_
    rw [hscan, scanFrom, scan_negative (by omega) (by omega)]
  rw [if_pos ⟨hcr, hpos⟩] at hstride
  have hplaces := placesAt_stride hat hne (by omega) hstride
  rw [int32_of_bounds (by omega) (by omega), int32_of_bounds (by omega) (by omega),
    if_neg (show ¬ fieldVal s < 0 from by omega)] at hcall
  rcases Nat.lt_or_ge s.length ((field s).length + 2 + (fieldVal s).toNat) with hover | hfit
  · -- the key does not end in the buffer
    rw [if_neg (by omega)] at hcall
    refine atPlace_broken hlen hlong hat (if_neg fun h => by omega) ?_ hcall (Or.inr (by omega))
    rw [hplaces, placesAt_behind (by omega)]
  · rw [if_pos (by omega)] at hcall
    have hkey := at_value (at_field hat) (by omega)
    have htake : ((s.drop ((field s).length + 2)).take (fieldVal s).toNat).length
        = (fieldVal s).toNat := by
      rw [List.length_take, List.length_drop]
      omega
    have hslice : w.slice (index + 14 + (field s).length + 2) (fieldVal s).toNat
        = (s.drop ((field s).length + 2)).take (fieldVal s).toNat := by
      rw [← List.take_append_drop (fieldVal s).toNat (s.drop _)] at hkey
      have := hkey.slice
      rwa [htake] at this
    have hsome : wholeKey s = some (strncpy (w.slice (index + 14 + (field s).length + 2)
        (fieldVal s).toNat)) := by
      rw [wholeKey, if_pos ⟨hcr, hpos, hmore, hfit⟩, hslice]
    rw [hcall] at hscan
    simp only at hscan
    rw [if_neg (by omega)] at hscan
    refine .asks _ _ (by omega) hplaces ((wholeDel_header s).trans hsome) (fun h => ?_) ?_
    · rw [breaksOff_header hat, hsome] at h
      cases h.1
    · rw [hscan, show index + 14 + ((field s).length : Int) + 2 + fieldVal s + 2
        = index + (18 + (field s).length + (fieldVal s).toNat : Nat) from by omega]
      rfl

/-- **What the scanner does at a place** of a long buffer. -/
theorem atPlace (hlen : w.len < 2 ^ 30) (hlong : 14 < w.len) {index : Int} (h0 : 0 ≤ index)
    (hin : index < w.len) (hend : (scanFrom w index).2 ≠ .crash) :
    ∃ s, AtPlace w index s := by
  obtain ⟨s, hat⟩ := at_get h0 hin
  rcases Decidable.em (w.get index = Byte.star) with hstar | hother
  · rw [hstar] at hat
    rcases Decidable.em (delHeader <+: Byte.star :: s) with ⟨t, ht⟩ | hpre
    · rw [← ht] at hat
      exact ⟨_, atPlace_header hlen hlong hat hend⟩
    · exact ⟨_, atPlace_star hlen hlong hat hpre⟩
  · exact ⟨_, atPlace_byte hlen hat hother⟩

/-! ## A query that cannot be written -/

/-- The calls behind the query whose line cannot be written, when there is one. -/
def behindFailure (q : KeyQueue) (writes : List (Except Int Nat)) : List Act → Option (List Act)
  | [] => none
  | .save _ :: acts => behindFailure q writes acts
  | .query _ key :: acts =>
    if q.isFull then behindFailure q writes acts
    else
      let sent := sendAll writes (queryCmd key)
      match sent.2.1 with
      | .all => behindFailure (q.push key) sent.2.2 acts
      | .failed => some acts
      | .waiting => none

/-- Along the places of a chunk, with the queue and the outcomes of the writes: there is a `DEL`
whose line cannot be written, and behind it another one breaks off. As long as the queue is full
nothing is written. -/
def FailsBefore (w : WData) : KeyQueue → List (Except Int Nat) → List (Int × Bytes) → Prop
  | _, _, [] => False
  | q, writes, p :: behind =>
    match wholeDel p.2 with
    | none => FailsBefore w q writes behind
    | some key =>
      if q.isFull then FailsBefore w q writes behind
      else match (sendAll writes (queryCmd key)).2.1 with
        | .all => FailsBefore w (q.push key) (sendAll writes (queryCmd key)).2.2 behind
        | .failed => ∃ p ∈ behind, BreaksOff w p.1 p.2
        | .waiting => False

instance decidableFailsBefore (w : WData) : ∀ (q : KeyQueue) (writes : List (Except Int Nat))
    (ps : List (Int × Bytes)), Decidable (FailsBefore w q writes ps)
  | _, _, [] => .isFalse id
  | q, writes, p :: behind =>
    have hnext := decidableFailsBefore w q writes behind
    show Decidable (match wholeDel p.2 with
      | none => FailsBefore w q writes behind
      | some key =>
        if q.isFull then FailsBefore w q writes behind
        else match (sendAll writes (queryCmd key)).2.1 with
          | .all => FailsBefore w (q.push key) (sendAll writes (queryCmd key)).2.2 behind
          | .failed => ∃ p ∈ behind, BreaksOff w p.1 p.2
          | .waiting => False) from
    match wholeDel p.2 with
    | none => hnext
    | some key =>
      have : Decidable (match (sendAll writes (queryCmd key)).2.1 with
          | .all => FailsBefore w (q.push key) (sendAll writes (queryCmd key)).2.2 behind
          | .failed => ∃ p ∈ behind, BreaksOff w p.1 p.2
          | .waiting => False) :=
        match (sendAll writes (queryCmd key)).2.1 with
        | .all => decidableFailsBefore w (q.push key) (sendAll writes (queryCmd key)).2.2 behind
        | .failed => inferInstanceAs (Decidable (∃ p ∈ behind, BreaksOff w p.1 p.2))
        | .waiting => .isFalse id
      inferInstanceAs (Decidable (if q.isFull then _ else _))

theorem carryOf_query (start : Int) (key : Bytes) (acts : List Act) :
    carryOf (.query start key :: acts) = carryOf acts := rfl

/-- A scan saves something exactly when a command breaks off. -/
theorem carryOf_ne_nil_iff (hlen : w.len < 2 ^ 30) (hlong : 14 < w.len) {n : Nat} {index : Int}
    (h0 : 0 ≤ index) (hn : (w.len - index).toNat < n) (hend : (scanFrom w index).2 ≠ .crash) :
    carryOf (scanFrom w index).1 ≠ [] ↔ ∃ p ∈ placesAt w index, BreaksOff w p.1 p.2 := by
  induction n generalizing index with
  | zero => omega
  | succ n ih =>
    rcases Int.lt_or_le index w.len with hin | hout
    · obtain ⟨s, hplace⟩ := atPlace hlen hlong h0 hin hend
      cases hplace with
      | passes next hnext hplaces hnone hbreak hscan =>
        rw [hscan] at hend
        rw [hscan, hplaces, ih (by omega) (by omega) hend]
        simp [hbreak]
      | asks next key hnext hplaces hsome hbreak hscan =>
        rw [hscan] at hend
        rw [hscan, hplaces, carryOf_query, ih (by omega) (by omega) hend]
        simp [hbreak]
      | keeps buf hplaces hnone hbuf hscan =>
        rw [hscan, hplaces]
        simpa [carryOf] using hbuf
    · rw [scanFrom_behind hout h0, placesAt_behind hout]
      simp [carryOf]

/-- **What is left of a failed scan** can be read off the bytes. -/
theorem failsBefore_iff (hlen : w.len < 2 ^ 30) (hlong : 14 < w.len) {n : Nat} {index : Int}
    (h0 : 0 ≤ index) (hn : (w.len - index).toNat < n) (hend : (scanFrom w index).2 ≠ .crash)
    {q : KeyQueue} {writes : List (Except Int Nat)} :
    FailsBefore w q writes (placesAt w index)
      ↔ ∃ rest ∈ behindFailure q writes (scanFrom w index).1, carryOf rest ≠ [] := by
  induction n generalizing index q writes with
  | zero => omega
  | succ n ih =>
    rcases Int.lt_or_le index w.len with hin | hout
    · obtain ⟨s, hplace⟩ := atPlace hlen hlong h0 hin hend
      cases hplace with
      -- nothing is sent here: one place further
      | passes next hnext hplaces hnone hbreak hscan =>
        rw [hscan] at hend
        rw [hscan, hplaces, FailsBefore, hnone]
        exact ih (by omega) (by omega) hend
      -- a query: dropped by a full queue, sent, or the first that fails
      | asks next key hnext hplaces hsome hbreak hscan =>
        rw [hscan] at hend
        have hrest := @ih next (by omega) (by omega) hend
        rw [hscan, hplaces, FailsBefore, hsome, behindFailure]
        simp only
        split
        · exact hrest
        · cases (sendAll writes (queryCmd key)).2.1 with
          | all => exact hrest
          | failed =>
            have hcarry := carryOf_ne_nil_iff hlen hlong (show 0 ≤ next from by omega)
              (Nat.lt_succ_self _) hend
            simpa using hcarry.symm
          | waiting => simp
      -- the carry is stored, and no place follows
      | keeps buf hplaces hnone hbuf hscan =>
        rw [hscan, hplaces, FailsBefore, hnone]
        simp [FailsBefore, behindFailure]
    · rw [scanFrom_behind hout h0, placesAt_behind hout]
      simp [FailsBefore, behindFailure]

/-- In a short buffer nothing is asked for. -/
theorem behindFailure_short (hshort : w.len ≤ 14) (q : KeyQueue)
    (writes : List (Except Int Nat)) : behindFailure q writes (scanFrom w 0).1 = none := by
  have hlen : w.len < 2 ^ 30 := Int.lt_of_le_of_lt hshort (by decide)
  have hskip := @skipToStar_bounds w (w.len - 0).toNat 0
  have hstop := @skipToStar_stop w (w.len - 0).toNat 0 (by omega)
  rw [scanFrom_jump hlen (Int.le_refl 0)]
  generalize skipToStar w (w.len - 0).toNat 0 = start at hskip hstop
  rcases Int.lt_or_le start w.len with hin | hout
  · rw [scanFrom_star hlen hskip.1 hin (hstop hin), if_neg (by omega)]
    cases saveToBuf w (start - 1) <;> rfl
  · rw [scanFrom_behind hout hskip.1]
    rfl

end Scan

end Iceberg
