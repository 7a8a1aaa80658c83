import Iceberg.Proxy.Accesses
import Iceberg.Proxy.Boundaries

/-!
# Progress of the command scanner

The rounds of the outer loop of `processInputBuffer`, with the calls of `delParser` made in
them. A call goes forward, or gives up, exactly when the number in front of the key is not
negative as an `int` and the index behind the key does not overflow. The number is any run of
bytes up to a `'\r'`.
-/

namespace Iceberg

namespace Scan

open Iceberg.Parser (End)
open Strides

variable {w : WData}

/-! ## The rounds of the loop -/

/-- What a round of the outer loop comes to: the next round begins at `index`, or the loop
is left. -/
inductive Turn where
  | go (acts : List Act) (index : Int)
  | stop (acts : List Act) (fin : End)

/-- The body of the outer loop of `processInputBuffer`. -/
def turn (w : WData) (index : Int) : Turn :=
  let index := skipToStar w (w.len - index).toNat index
  if index < w.len then
    if w.len - 14 > 0 then
      if strncpy (w.slice index 14) = delHeader then
        match delParser w index with
        | .crash => .stop [] .crash
        | .ret acts next => if next = -1 then .stop acts .done else .go acts next
      else .go [] (index + 14)
    else
      match saveToBuf w (index - 1) with
      | some buf => .stop [.save buf] .done
      | none => .stop [] .crash
  else .go [] index

/-- The loop makes these rounds. -/
theorem scan_turn {index : Int} (h0 : 0 ≤ index) (hin : index < w.len) (fuel : Nat) :
    scan w (fuel + 1) index =
      match turn w index with
      | .go acts next => (acts ++ (scan w fuel next).1, (scan w fuel next).2)
      | .stop acts fin => (acts, fin) := by
  rw [scan, if_neg (by omega), if_pos hin, turn]
  simp only
  split
  · split
    · split
      · cases delParser w (skipToStar w (w.len - index).toNat index) with
        | crash => rfl
        | ret acts next =>
          simp only
          split <;> rfl
      · rfl
    · cases saveToBuf w (skipToStar w (w.len - index).toNat index - 1) <;> rfl
  · rfl

/-- After `n` rounds of the loop the index is `index`. -/
inductive Visits (w : WData) : Nat → Int → Prop where
  | start : Visits w 0 0
  | round {n : Nat} {index next : Int} {acts : List Act} (before : Visits w n index)
      (nonneg : 0 ≤ index) (inside : index < w.len) (hturn : turn w index = .go acts next) :
      Visits w (n + 1) next

/-- The loop calls `delParser` with `start`. -/
def CallsAt (w : WData) (start : Int) : Prop :=
  ∃ n index, Visits w n index ∧ 0 ≤ index ∧ index < w.len
    ∧ start = skipToStar w (w.len - index).toNat index ∧ start < w.len ∧ 14 < w.len
    ∧ strncpy (w.slice start 14) = delHeader

/-- A call of `delParser` returns `-1` or goes forward, the length it computes is not
negative, and the key it copies lies in the buffer. -/
structure SoundCall (w : WData) (start : Int) : Prop where
  forward : ∃ acts next, delParser w start = .ret acts next ∧ (next = -1 ∨ start < next)
  length : ∀ len cr, lengthField w (start + 14) = some (len, cr) → 0 ≤ len
  key : ∀ key next len cr, delParser w start = .ret [.query start key] next →
    lengthField w (start + 14) = some (len, cr) → cr + 2 + len ≤ w.len

/-- **The scanner advances.** All its calls are sound, and it comes to its end in at most one
round for each byte. -/
structure Advances (carry : Bytes) (w : WData) : Prop where
  calls : ∀ start, CallsAt (mergeCarry carry w) start → SoundCall (mergeCarry carry w) start
  rounds : ∀ n index, Visits (mergeCarry carry w) n index →
    n ≤ (mergeCarry carry w).data.length
  ends : (processInputBuffer carry w).2 = .done

/-! ## The condition -/

/-- The text `s` behind a header, which begins at `index`: its length field, when it is
closed, is not negative, and the index behind the key, when it is computed, fits an `int`. -/
def Fits (index : Int) (s : Bytes) : Prop :=
  Byte.cr ∈ s → 0 ≤ fieldVal s
    ∧ (s.length ≤ (field s).length + 2 ∨ index + (field s).length + 4 + fieldVal s < 2 ^ 31)

/-- How far the scanner goes: over a `DEL` up to the line end behind its key, if it has a
length, over fourteen bytes from any other `'*'`, and over any other byte. -/
def stride : Bytes → Option Nat
  | [] => none
  | b :: s =>
    if b = Byte.star then
      if delHeader <+: b :: s then
        let s := s.drop 13
        if Byte.cr ∈ s ∧ 0 ≤ fieldVal s then some (18 + (field s).length + (fieldVal s).toNat)
        else none
      else some 14
    else some 1

/-- Behind a header that the scanner stands at, the length fits. -/
def StepFits (index : Int) (s : Bytes) : Prop :=
  delHeader <+: s → Fits (index + 14) (s.drop 14)

/-- The lengths that the scanner meets in a buffer fit. -/
def Steady (s : Bytes) : Prop := Along stride StepFits 0 0 s

instance (index : Int) (s : Bytes) : Decidable (Fits index s) :=
  inferInstanceAs (Decidable (Byte.cr ∈ s → 0 ≤ fieldVal s
    ∧ (s.length ≤ (field s).length + 2 ∨ index + (field s).length + 4 + fieldVal s < 2 ^ 31)))

instance (index : Int) (s : Bytes) : Decidable (StepFits index s) :=
  inferInstanceAs (Decidable (delHeader <+: s → Fits (index + 14) (s.drop 14)))

instance (s : Bytes) : Decidable (Steady s) :=
  inferInstanceAs (Decidable (Along stride StepFits 0 0 s))

/-! ## Strides of the scanner -/

theorem stride_byte {b : UInt8} {s : Bytes} (h : b ≠ Byte.star) : stride (b :: s) = some 1 :=
  if_neg h

theorem stride_star {s : Bytes} (h : ¬ delHeader <+: Byte.star :: s) :
    stride (Byte.star :: s) = some 14 := by
  rw [stride, if_pos rfl, if_neg h]

/-- The stride over a deletion. -/
theorem stride_header (s : Bytes) :
    stride (delHeader ++ s) =
      if Byte.cr ∈ s ∧ 0 ≤ fieldVal s then some (18 + (field s).length + (fieldVal s).toNat)
      else none := by
  have hpre : delHeader <+: Byte.star :: (delHeader.tail ++ s) := ⟨s, rfl⟩
  show stride (Byte.star :: (delHeader.tail ++ s)) = _
  rw [stride, if_pos rfl, if_pos hpre]
  rfl

/-- The search passes only bytes of the buffer that are no stars. Induction on the rounds. -/
theorem skipToStar_before {fuel : Nat} {index i : Int} (hi : index ≤ i)
    (hlt : i < skipToStar w fuel index) : w.get i ≠ Byte.star ∧ i < w.len := by
  induction fuel generalizing index with
  | zero =>
    rw [skipToStar] at hlt
    omega
  | succ fuel ih =>
    rw [skipToStar] at hlt
    split at hlt
    · rename_i hgo
      rcases Int.lt_or_eq_of_le hi with hlater | rfl
      · exact ih (by omega) hlt
      · exact hgo
    · omega

section

variable {ok : Int → Bytes → Prop}

/-- Up to the next `'*'` the walk goes byte by byte. -/
theorem alongAt_skipToStar {fuel : Nat} {index : Int} (h0 : 0 ≤ index) :
    AlongAt w stride ok index ↔
      (∀ i, index ≤ i → i < skipToStar w fuel index → ok i (w.data.drop i.toNat))
        ∧ AlongAt w stride ok (skipToStar w fuel index) := by
  induction fuel generalizing index with
  | zero =>
    rw [skipToStar]
    exact (and_iff_right fun i hi hlt => by omega).symm
  | succ fuel ih =>
    rw [skipToStar]
    split
    · rename_i hgo
      obtain ⟨s, hat⟩ := at_get h0 hgo.2
      have hskip := @skipToStar_bounds w fuel (index + 1)
      -- a byte that is no star is one step of the walk
      have hstep : AlongAt w stride ok index
          ↔ ok index (w.data.drop index.toNat) ∧ AlongAt w stride ok (index + 1) := by
        rw [hat.2.2]
        exact alongAt_stride (k := 1) hat (List.cons_ne_nil _ _) Nat.one_pos (stride_byte hgo.1)
      rw [hstep, ih (by omega), ← and_assoc]
      refine and_congr_left fun _ => ?_
      constructor
      · rintro ⟨hfirst, hrest⟩ i hi hlt
        rcases Int.lt_or_eq_of_le hi with hlater | rfl
        · exact hrest i (by omega) hlt
        · exact hfirst
      · intro h
        exact ⟨h index (Int.le_refl _) (by omega), fun i hi hlt => h i (by omega) hlt⟩
    · exact (and_iff_right fun i hi hlt => by omega).symm

theorem alongAt_star {start : Int} {s : Bytes} (hat : w.At start (Byte.star :: s))
    (hpre : ¬ delHeader <+: Byte.star :: s) :
    AlongAt w stride ok start ↔ ok start (Byte.star :: s) ∧ AlongAt w stride ok (start + 14) :=
  alongAt_stride (k := 14) hat (List.cons_ne_nil _ _) (by decide) (stride_star hpre)

/-- A condition along the walk, at a header. -/
theorem alongAt_header {start : Int} {s : Bytes} (hat : w.At start (delHeader ++ s)) :
    AlongAt w stride ok start ↔ ok start (delHeader ++ s)
      ∧ (Byte.cr ∈ s → 0 ≤ fieldVal s →
        AlongAt w stride ok (start + 18 + (field s).length + (fieldVal s).toNat)) := by
  have hne : delHeader ++ s ≠ [] := List.cons_ne_nil _ _
  have hstride := stride_header s
  split at hstride
  · rename_i hlen
    have hnext : start + (18 + (field s).length + (fieldVal s).toNat : Nat)
        = start + 18 + (field s).length + (fieldVal s).toNat := by omega
    rw [alongAt_stride hat hne (by omega) hstride, hnext]
    exact and_congr_right fun _ => ⟨fun h _ _ => h, fun h => h hlen.1 hlen.2⟩
  · rename_i hlen
    rw [alongAt_stop hat hne hstride]
    exact (and_iff_left fun hcr hpos => absurd ⟨hcr, hpos⟩ hlen).symm

end

/-- The lengths fit from `index` on. -/
def SteadyAt (w : WData) (index : Int) : Prop := AlongAt w stride StepFits index

/-- No header begins where the search for the next `'*'` passes. -/
theorem stepFits_before {fuel : Nat} {index i : Int} (h0 : 0 ≤ index) (hi : index ≤ i)
    (hlt : i < skipToStar w fuel index) : StepFits i (w.data.drop i.toNat) := by
  obtain ⟨hbyte, hin⟩ := skipToStar_before hi hlt
  obtain ⟨s, hat⟩ := at_get (show 0 ≤ i from by omega) hin
  rw [hat.2.2]
  rintro ⟨t, ht⟩
  exact absurd (List.cons.inj ht).1.symm hbyte

theorem stepFits_small (index : Int) (s : Bytes) (h : s.length ≤ 14) : StepFits index s := by
  intro _ hcr
  rw [List.drop_eq_nil_of_le h] at hcr
  exact absurd hcr List.not_mem_nil

theorem steadyAt_skipToStar {fuel : Nat} {index : Int} (h0 : 0 ≤ index) :
    SteadyAt w (skipToStar w fuel index) ↔ SteadyAt w index := by
  rw [SteadyAt, SteadyAt, @alongAt_skipToStar w _ fuel index h0]
  exact (and_iff_right fun i hi hlt => stepFits_before h0 hi hlt).symm

/-- The condition at a header. -/
theorem steadyAt_header {start : Int} {s : Bytes} (hat : w.At start (delHeader ++ s)) :
    SteadyAt w start ↔ Fits (start + 14) s
      ∧ (Byte.cr ∈ s → SteadyAt w (start + 18 + (field s).length + (fieldVal s).toNat)) := by
  have hok : StepFits start (delHeader ++ s) ↔ Fits (start + 14) s :=
    ⟨fun h => h ⟨s, rfl⟩, fun h _ => h⟩
  rw [SteadyAt, alongAt_header hat, hok]
  refine and_congr_right fun hfits => ?_
  exact ⟨fun h hcr => h hcr (hfits hcr).1, fun h hcr _ => h hcr⟩

/-! ## A call -/

/-- What `delParser` does with a length that fits, or that it does not get to use. -/
theorem delParser_goes (hlen : w.len < 2 ^ 30) {start : Int} {s : Bytes}
    (hat : w.At start (delHeader ++ s))
    (hfit : Byte.cr ∈ s → s.length ≤ (field s).length + 2
      ∨ (0 ≤ fieldVal s ∧ start + 18 + (field s).length + fieldVal s < 2 ^ 31)) :
    ∃ acts next, delParser w start = .ret acts next
      ∧ ((next = -1 ∧ (Byte.cr ∈ s → s.length ≤ (field s).length + 2))
        ∨ (Byte.cr ∈ s ∧ 0 ≤ fieldVal s
          ∧ next = start + 18 + (field s).length + (fieldVal s).toNat)) := by
  have h0 := hat.1
  have hsum := hat.2.1
  rw [List.length_append, show delHeader.length = 14 from rfl] at hsum
  have hkeep := keep_ret hat hlen
  rw [delParser_header hat, lengthField_eq (at_field hat)]
  split
  · rename_i hnone
    obtain ⟨buf, hret⟩ := hkeep (-1)
    -- the length is not complete
    have hcr : Byte.cr ∉ s := fun hcr => by simp [hcr] at hnone
    exact ⟨_, _, hret, Or.inl ⟨rfl, fun h => absurd h hcr⟩⟩
  · rename_i len cr hsome
    have hcr : Byte.cr ∈ s := by
      by_contra hno
      simp [hno] at hsome
    rw [if_pos hcr] at hsome
    cases hsome
    split
    · obtain ⟨buf, hret⟩ := hkeep (-1)
      exact ⟨_, _, hret, Or.inl ⟨rfl, fun _ => by omega⟩⟩
    · obtain ⟨hpos, hbound⟩ := (hfit hcr).resolve_left (by omega)
      -- the two indices do not overflow, and the second is the end of the command
      have hnext : start + 14 + (field s).length + 2 + fieldVal s + 2
          = start + 18 + (field s).length + (fieldVal s).toNat := by omega
      rw [int32_of_bounds (by omega) (by omega), int32_of_bounds (by omega) (by omega), hnext,
        if_neg (show ¬ fieldVal s < 0 from by omega)]
      split
      · exact ⟨_, _, rfl, Or.inr ⟨hcr, hpos, rfl⟩⟩
      · obtain ⟨buf, hret⟩ := hkeep (start + 18 + (field s).length + (fieldVal s).toNat)
        exact ⟨_, _, hret, Or.inr ⟨hcr, hpos, rfl⟩⟩

/-- An index that overflows is returned. -/
theorem delParser_overflow (hlen : w.len < 2 ^ 30) {start : Int} {s : Bytes}
    (hat : w.At start (delHeader ++ s)) (hcr : Byte.cr ∈ s)
    (hmore : (field s).length + 2 < s.length)
    (hover : 2 ^ 31 ≤ start + 18 + (field s).length + fieldVal s) :
    ∃ acts next, delParser w start = .ret acts next ∧ next < -1 := by
  have h0 := hat.1
  have hsum := hat.2.1
  rw [List.length_append, show delHeader.length = 14 from rfl] at hsum
  have hbound : fieldVal s < 2 ^ 31 := int32_lt _
  have hnext : int32 (start + 14 + (field s).length + 2 + fieldVal s + 2) < -1 := by
    unfold int32
    omega
  rw [delParser_header hat, lengthField_eq (at_field hat), if_pos hcr]
  simp only
  rw [if_neg (by omega), if_neg (show ¬ fieldVal s < 0 from by omega)]
  split
  · exact ⟨_, _, rfl, hnext⟩
  · obtain ⟨buf, hret⟩ := keep_ret hat hlen
      (int32 (start + 14 + (field s).length + 2 + fieldVal s + 2))
    exact ⟨_, _, hret, hnext⟩

/-- **A negative length** makes `delParser` crash: as a count of `strncpy` it is enormous. -/
theorem delParser_negative (hlen : w.len < 2 ^ 30) {start : Int} {s : Bytes}
    (hat : w.At start (delHeader ++ s)) (hcr : Byte.cr ∈ s)
    (hmore : (field s).length + 2 < s.length) (hneg : fieldVal s < 0) :
    delParser w start = .crash := by
  have h0 := hat.1
  have hsum := hat.2.1
  rw [List.length_append, show delHeader.length = 14 from rfl] at hsum
  have hbound : -(2 ^ 31) ≤ fieldVal s := le_int32 _
  rw [delParser_header hat, lengthField_eq (at_field hat), if_pos hcr]
  simp only
  rw [if_neg (by omega), int32_of_bounds (by omega) (by omega), if_pos (by omega), if_pos hneg]

/-- Behind a length that fits the index is an `int`. -/
theorem Fits.goes {index : Int} {s : Bytes} (h : Fits (index + 14) s) (hcr : Byte.cr ∈ s) :
    s.length ≤ (field s).length + 2
      ∨ (0 ≤ fieldVal s ∧ index + 18 + (field s).length + fieldVal s < 2 ^ 31) := by
  obtain ⟨hpos, hshort | hbound⟩ := h hcr
  · exact Or.inl hshort
  · exact Or.inr ⟨hpos, by omega⟩

/-- A call is sound exactly when the length fits. -/
theorem soundCall_iff {start : Int} {s : Bytes} (hat : w.At start (delHeader ++ s))
    (hlen : w.len < 2 ^ 30) : SoundCall w start ↔ Fits (start + 14) s := by
  have h0 := hat.1
  have hsum := hat.2.1
  rw [List.length_append, show delHeader.length = 14 from rfl] at hsum
  have hfield := lengthField_eq (at_field hat)
  constructor
  · intro h hcr
    rw [if_pos hcr] at hfield
    refine ⟨h.length _ _ hfield, ?_⟩
    by_contra hbad
    rw [not_or] at hbad
    -- an index that overflows goes backwards
    obtain ⟨acts, next, hres, hneg⟩ :=
      delParser_overflow hlen hat hcr (by omega) (by omega)
    obtain ⟨acts', next', hres', hnext⟩ := h.forward
    rw [hres] at hres'
    cases hres'
    omega
  · -- the length, the place and the copy of a key that fits
    intro hfits
    obtain ⟨acts, next, hres, hnext⟩ := delParser_goes hlen hat hfits.goes
    refine ⟨⟨acts, next, hres, ?_⟩, ?_, ?_⟩
    · rcases hnext with ⟨hone, -⟩ | ⟨hcr, -, hnext⟩
      · exact Or.inl hone
      · right
        omega
    · intro len cr hsome
      rw [hfield] at hsome
      split at hsome
      · rename_i hcr
        cases hsome
        exact (hfits hcr).1
      · cases hsome
    · -- the copy is made only if the end of the key is in the buffer
      intro key next' len cr hcall hsome
      rw [hfield] at hsome
      split at hsome
      · rename_i hcr
        cases hsome
        obtain ⟨hpos, hfit⟩ := hfits hcr
        rw [delParser_header hat, hfield, if_pos hcr] at hcall
        simp only at hcall
        split at hcall
        · obtain ⟨buf, hret⟩ := keep_ret hat hlen (-1)
          rw [hret] at hcall
          cases hcall
        · rw [int32_of_bounds (by omega) (by omega)] at hcall
          split at hcall
          · assumption
          · obtain ⟨buf, hret⟩ := keep_ret hat hlen
              (int32 (start + 14 + (field s).length + 2 + fieldVal s + 2))
            rw [hret] at hcall
            cases hcall
      · cases hsome

/-! ## A round -/

/-- The header found in a buffer, or partly behind its end. -/
theorem header_cases {start : Int} (h0 : 0 ≤ start)
    (hin : start < w.len) (hheader : strncpy (w.slice start 14) = delHeader) :
    (∃ s, w.At start (delHeader ++ s)) ∨ w.len < start + 14 := by
  have hat := WData.at_drop h0 hin
  have hlen := hat.2.1
  rcases Nat.lt_or_ge (w.data.drop start.toNat).length 14 with hlt | hge
  · right
    omega
  · left
    have hsplit := List.take_append_drop 14 (w.data.drop start.toNat)
    have htake : ((w.data.drop start.toNat).take 14).length = 14 := by
      rw [List.length_take]
      omega
    rw [← hsplit] at hat
    have hslice := hat.slice
    rw [htake, strncpy_eq_delHeader.mp hheader] at hslice
    rw [← hslice] at hat
    exact ⟨_, hat⟩

/-- The comparison that the code makes finds every header. -/
theorem not_header_of_ne {start : Int} {s : Bytes} (hat : w.At start s)
    (hother : strncpy (w.slice start 14) ≠ delHeader) : ¬ delHeader <+: s := by
  rintro ⟨t, rfl⟩
  apply hother
  rw [strncpy_eq_delHeader]
  exact hat.slice

/-- The condition at a star that opens no deletion. -/
theorem steadyAt_star {start : Int} (h0 : 0 ≤ start) (hin : start < w.len)
    (hstar : w.get start = Byte.star) (hheader : strncpy (w.slice start 14) ≠ delHeader) :
    SteadyAt w start ↔ SteadyAt w (start + 14) := by
  obtain ⟨s, hat⟩ := at_get h0 hin
  rw [hstar] at hat
  have hpre := not_header_of_ne hat hheader
  rw [SteadyAt, SteadyAt, alongAt_star hat hpre]
  exact and_iff_right fun h => absurd h hpre

/-- What a round does, from the next `'*'` on, at `start`. -/
theorem turn_cases (hlen : w.len < 2 ^ 30) {index start : Int} (h0 : 0 ≤ index)
    (hin : index < w.len) (hstart : start = skipToStar w (w.len - index).toNat index) :
    (w.len ≤ start ∧ turn w index = .go [] start)
      ∨ (w.len ≤ 14 ∧ ∃ buf, turn w index = .stop [.save buf] .done)
      ∨ (start < w.len ∧ 14 < w.len ∧ w.get start = Byte.star
        ∧ strncpy (w.slice start 14) ≠ delHeader ∧ turn w index = .go [] (start + 14))
      ∨ (start < w.len ∧ 14 < w.len ∧ w.len < start + 14
        ∧ strncpy (w.slice start 14) = delHeader
        ∧ ∃ buf, turn w index = .stop [.save buf] .done)
      ∨ (start < w.len ∧ 14 < w.len ∧ strncpy (w.slice start 14) = delHeader
        ∧ (∃ s, w.At start (delHeader ++ s))
        ∧ turn w index =
          match delParser w start with
          | .crash => .stop [] .crash
          | .ret acts next => if next = -1 then .stop acts .done else .go acts next) := by
  have hskip := @skipToStar_bounds w (w.len - index).toNat index
  have hstop := @skipToStar_stop w (w.len - index).toNat index (by omega)
  rw [turn, ← hstart]
  rw [← hstart] at hskip hstop
  rcases Int.lt_or_le start w.len with hstartin | hout
  · rw [if_pos hstartin]
    right
    rcases Int.lt_or_le 14 w.len with hlong | hsmall
    · rw [if_pos (by omega)]
      right
      -- in a long buffer the fourteen bytes at the star are compared
      rcases Decidable.em (strncpy (w.slice start 14) = delHeader) with hheader | hother
      · rw [if_pos hheader]
        right
        rcases header_cases (by omega) hstartin hheader with hfull | hbroken
        · exact Or.inr ⟨hstartin, hlong, hheader, hfull, rfl⟩
        · left
          have hat := WData.at_drop (show 0 ≤ start from by omega) hstartin
          have hsum := hat.2.1
          rw [delParser_brokenStar hat (by omega) hheader]
          exact ⟨hstartin, hlong, hbroken, hheader, _, rfl⟩
      · rw [if_neg hother]
        left
        exact ⟨hstartin, hlong, hstop hstartin, hother, rfl⟩
    · rw [if_neg (by omega)]
      left
      -- in a short one what is left is saved
      have hsave : ∃ buf, saveToBuf w (start - 1) = some buf := by
        rw [saveToBuf, int32_of_bounds (by omega) (by omega),
          if_neg (show ¬ w.len - (start - 1) < 0 from by omega)]
        split
        · exact ⟨_, rfl⟩
        · exact ⟨_, rfl⟩
      obtain ⟨buf, hbuf⟩ := hsave
      rw [hbuf]
      exact ⟨hsmall, buf, rfl⟩
  · rw [if_neg (by omega)]
    exact Or.inl ⟨hout, rfl⟩

/-- With lengths that fit a round goes forward or ends the loop. -/
theorem turn_steady (hlen : w.len < 2 ^ 30) {index : Int} (h0 : 0 ≤ index)
    (hin : index < w.len) (hsteady : SteadyAt w index) :
    (∃ acts next, turn w index = .go acts next ∧ index < next ∧ SteadyAt w next)
      ∨ ∃ acts, turn w index = .stop acts .done := by
  obtain ⟨start, hstart⟩ : ∃ start, start = skipToStar w (w.len - index).toNat index := ⟨_, rfl⟩
  have hskip := @skipToStar_bounds w (w.len - index).toNat index
  have hat := (@steadyAt_skipToStar w (w.len - index).toNat index h0).mpr hsteady
  rw [← hstart] at hskip hat
  rcases turn_cases hlen h0 hin hstart with ⟨hout, hturn⟩ | ⟨-, buf, hturn⟩
    | ⟨hstartin, -, hstar, hother, hturn⟩ | ⟨-, -, -, -, buf, hturn⟩
    | ⟨-, -, -, ⟨s, hhead⟩, hturn⟩
  · exact Or.inl ⟨_, _, hturn, by omega, alongAt_behind hout⟩
  · exact Or.inr ⟨_, hturn⟩
  · -- a star that begins no header
    have hjump := steadyAt_star (by omega) hstartin hstar hother
    exact Or.inl ⟨_, _, hturn, by omega, hjump.mp hat⟩
  · exact Or.inr ⟨_, hturn⟩
  · -- a header that fits, and the end of its command
    obtain ⟨hfits, hnext⟩ := (steadyAt_header hhead).mp hat
    obtain ⟨acts, next, hcall, hres⟩ := delParser_goes hlen hhead hfits.goes
    rw [hcall] at hturn
    simp only at hturn
    rcases hres with ⟨rfl, -⟩ | ⟨hcr, -, rfl⟩
    · exact Or.inr ⟨acts, hturn⟩
    · rw [if_neg (by omega)] at hturn
      exact Or.inl ⟨_, _, hturn, by omega, hnext hcr⟩

/-- All rounds, from lengths that fit. -/
theorem Visits.steady (hlen : w.len < 2 ^ 30) (hsteady : SteadyAt w 0) {n : Nat} {index : Int}
    (h : Visits w n index) : n ≤ index ∧ n ≤ w.data.length ∧ SteadyAt w index := by
  induction h with
  | start => exact ⟨Int.le_refl _, Nat.zero_le _, hsteady⟩
  | round before nonneg inside hturn ih =>
    obtain ⟨hle, -, hat⟩ := ih
    rcases turn_steady hlen nonneg inside hat with ⟨acts', next', hgo, hfwd, hnext⟩ | ⟨acts', hend⟩
    · rw [hturn] at hgo
      cases hgo
      simp only [WData.len] at inside
      exact ⟨by omega, by omega, hnext⟩
    · rw [hturn] at hend
      cases hend

/-- The loop comes to its end, from lengths that fit. -/
theorem scan_steady (hlen : w.len < 2 ^ 30) {fuel : Nat} {index : Int} (h0 : 0 ≤ index)
    (hsteady : SteadyAt w index) (hfuel : (w.len - index).toNat < fuel) :
    (scan w fuel index).2 = .done := by
  induction fuel generalizing index with
  | zero => omega
  | succ fuel ih =>
    rcases Int.lt_or_le index w.len with hin | hout
    · rw [scan_turn h0 hin]
      rcases turn_steady hlen h0 hin hsteady with ⟨acts, next, hgo, hfwd, hnext⟩ | ⟨acts, hend⟩
      · rw [hgo]
        exact ih (by omega) hnext (by omega)
      · rw [hend]
    · rw [scan, if_neg (by omega), if_neg (by omega)]

/-! ## From sound calls to lengths that fit -/

/-- Where all calls are sound, the lengths fit from every index on that a round begins at. -/
theorem steadyAt_of_calls (hlen : w.len < 2 ^ 30)
    (hcalls : ∀ start, CallsAt w start → SoundCall w start) {n : Nat} {index : Int}
    (h0 : 0 ≤ index) (hvisit : Visits w n index) : SteadyAt w index := by
  obtain ⟨left, hleft⟩ : ∃ left, left = (w.len - index).toNat := ⟨_, rfl⟩
  induction left using Nat.strong_induction_on generalizing n index with
  | _ left ih =>
    rcases Int.lt_or_le index w.len with hin | hout
    · obtain ⟨start, hstart⟩ : ∃ start, start = skipToStar w (w.len - index).toNat index :=
        ⟨_, rfl⟩
      have hskip := @skipToStar_bounds w (w.len - index).toNat index
      have hiff := @steadyAt_skipToStar w (w.len - index).toNat index h0
      rw [← hstart] at hskip hiff
      rw [← hiff]
      -- the rounds go forward, so the rest is the induction's
      have hnext : ∀ {acts next}, turn w index = .go acts next → index < next →
          SteadyAt w next := by
        intro acts next hturn hfwd
        exact ih _ (by omega) (by omega) (.round hvisit h0 hin hturn) rfl
      rcases turn_cases hlen h0 hin hstart with ⟨hbehind, -⟩ | ⟨hsmall, -⟩
        | ⟨hstartin, -, hstar, hother, hturn⟩ | ⟨hstartin, -, hbroken, -, -⟩
        | ⟨hstartin, hlong, hheader, ⟨s, hhead⟩, hturn⟩
      · exact alongAt_behind hbehind
      · apply along_of_small stepFits_small
        rw [List.length_drop]
        simp only [WData.len] at hsmall
        omega
      · -- a star that begins no header
        rw [steadyAt_star (by omega) hstartin hstar hother]
        exact hnext hturn (by omega)
      · have hat := WData.at_drop (show 0 ≤ start from by omega) hstartin
        have hsum := hat.2.1
        apply along_of_small stepFits_small
        omega
      · have hsound := hcalls start ⟨n, index, hvisit, h0, hin, hstart, hstartin, hlong, hheader⟩
        -- a header: the call there is sound, so its command fits
        have hfits := (soundCall_iff hhead hlen).mp hsound
        refine (steadyAt_header hhead).mpr ⟨hfits, fun hcr => ?_⟩
        have hsum := hhead.2.1
        rw [List.length_append, show delHeader.length = 14 from rfl] at hsum
        obtain ⟨acts, next, hcall, hres⟩ := delParser_goes hlen hhead hfits.goes
        rw [hcall] at hturn
        simp only at hturn
        rcases hres with ⟨-, hshort⟩ | ⟨-, -, rfl⟩
        · have := hshort hcr
          exact alongAt_behind (by omega)
        · rw [if_neg (by omega)] at hturn
          exact hnext hturn (by omega)
    · exact alongAt_behind hout

/-- **Progress.** Whatever the carry buffer and the read contain, the scanner advances
exactly when every length that it takes fits. -/
theorem advances_iff (carry : Bytes) (w : WData) (hread : w.data.length ≤ maxRead) :
    Advances carry w ↔ Steady (mergeCarry carry w).data := by
  have hlen : (mergeCarry carry w).len < 2 ^ 30 := length_mergeCarry hread
  show _ ↔ SteadyAt (mergeCarry carry w) 0
  constructor
  · intro h
    exact steadyAt_of_calls hlen h.calls (Int.le_refl 0) .start
  · intro hsteady
    refine ⟨?_, ?_, ?_⟩
    · rintro start ⟨n, index, hvisit, h0, hin, hstart, hstartin, -, hheader⟩
      have hat := (hvisit.steady hlen hsteady).2.2
      rw [← @steadyAt_skipToStar _ ((mergeCarry carry w).len - index).toNat index h0, ← hstart]
        at hat
      have hskip := @skipToStar_bounds (mergeCarry carry w)
        ((mergeCarry carry w).len - index).toNat index
      rw [← hstart] at hskip
      rcases header_cases (by omega) hstartin hheader with ⟨s, hhead⟩ | hbroken
      · exact (soundCall_iff hhead hlen).mpr ((steadyAt_header hhead).mp hat).1
      · -- a header that is cut off: no length is read
        have hdrop := WData.at_drop (show 0 ≤ start from by omega) hstartin
        have hsum := hdrop.2.1
        have hcall := delParser_brokenStar hdrop (by omega) hheader
        have hnone : lengthField (mergeCarry carry w) (start + 14) = none := by
          rw [lengthField,
            show ((mergeCarry carry w).len - (start + 14)).toNat = 0 from by omega]
          rfl
        refine ⟨⟨_, _, hcall, Or.inl rfl⟩, ?_, ?_⟩
        · intro len cr hsome
          rw [hnone] at hsome
          cases hsome
        · intro key next len cr _ hsome
          rw [hnone] at hsome
          cases hsome
    · intro n index hvisit
      exact (hvisit.steady hlen hsteady).2.1
    · exact scan_steady hlen (Int.le_refl 0) hsteady (Nat.lt_succ_self _)

/-- A carried header, whose length and key come with the read. -/
theorem advances_iff_carried :
    Advances delHeader ⟨[50, 13, 10, 107, 49, 13, 10], fun _ => 0⟩
      ↔ Steady (mergeCarry delHeader ⟨[50, 13, 10, 107, 49, 13, 10], fun _ => 0⟩).data :=
  advances_iff delHeader ⟨[50, 13, 10, 107, 49, 13, 10], fun _ => 0⟩ (by decide)

example : Steady (mergeCarry delHeader ⟨[50, 13, 10, 107, 49, 13, 10], fun _ => 0⟩).data := by
  decide

/-- **A negative length.** A value that looks like a `DEL` with the number `"-"` makes
`delParser` copy a key of `-3` bytes. -/
theorem not_advances :
    let cmds : List Resp.Command :=
      [[[83, 69, 84], [107], delHeader ++ [45, 13, 10, 97, 98]]]
    let w : WData := ⟨cmds.flatMap Resp.array, fun _ => 0⟩
    w.data.length ≤ maxRead ∧ CallsAt w 25 ∧ lengthField w 39 = some (-3, 40)
      ∧ delParser w 25 = .crash ∧ ¬Advances [] w := by
  have hcall : CallsAt ⟨Resp.array [[83, 69, 84], [107], delHeader ++ [45, 13, 10, 97, 98]],
      fun _ => 0⟩ 25 :=
    ⟨1, 14, .round .start (by decide) (by decide) rfl, by decide, by decide, by decide,
      by decide, by decide, by decide⟩
  refine ⟨by decide, hcall, by decide, by decide, fun h => ?_⟩
  exact absurd ((h.calls 25 hcall).length (-3) 40 (by decide)) (by decide)

end Scan

end Iceberg
