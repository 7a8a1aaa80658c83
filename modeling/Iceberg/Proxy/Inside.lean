import Iceberg.Proxy.Capture
import Iceberg.Proxy.Turns

/-!
# The bytes that the command scanner looks at

Every round of `processInputBuffer` reads the buffer in the search for the next `'*'`, in the
copy of fourteen bytes, in `delParser` and in `saveToBuf`. The search tests a byte before it
tests the bound, so that a buffer without a `'*'` behind the last command is read past its
end; the copy and the save of a short buffer leave it as well.
-/

namespace Iceberg

namespace Scan

open Iceberg.Parser (End)
open Strides

variable {w : WData}

/-! ## What is read -/

/-- `delParser`, called with `start`, reads the byte at `i`. -/
def DelReads (w : WData) (start i : Int) : Prop :=
  i = start + 13 ∨ (w.get (start + 13) = Byte.dollar ∧
    if start + 14 ≥ w.len then Saves w start i
    else Reads w Byte.cr (start + 14) (w.len - 1) i ∨
      match lengthField w (start + 14) with
      | none => Saves w start i
      | some (len, cr) =>
        if cr + 2 ≥ w.len then Saves w start i
        else if int32 (cr + 2 + len) ≤ w.len then Copies w (cr + 2) len i
        else Saves w start i)

/-- A round of the outer loop that begins at `index` reads the byte at `i`. -/
def TurnReads (w : WData) (index i : Int) : Prop :=
  let start := skipToStar w (w.len - index).toNat index
  Reads w Byte.star index w.len i ∨ (start < w.len ∧
    if w.len - 14 > 0 then
      Copies w start 14 i ∨ (strncpy (w.slice start 14) = delHeader ∧ DelReads w start i)
    else Saves w (start - 1) i)

instance (w : WData) (start i : Int) : Decidable (DelReads w start i) :=
  have : Decidable (match lengthField w (start + 14) with
      | none => Saves w start i
      | some (len, cr) =>
        if cr + 2 ≥ w.len then Saves w start i
        else if int32 (cr + 2 + len) ≤ w.len then Copies w (cr + 2) len i
        else Saves w start i) :=
    match lengthField w (start + 14) with
    | none => inferInstanceAs (Decidable (Saves w start i))
    | some (len, cr) => inferInstanceAs (Decidable (if cr + 2 ≥ w.len then Saves w start i
        else if int32 (cr + 2 + len) ≤ w.len then Copies w (cr + 2) len i
        else Saves w start i))
  inferInstanceAs (Decidable (i = start + 13 ∨ (w.get (start + 13) = Byte.dollar ∧
    if start + 14 ≥ w.len then Saves w start i
    else Reads w Byte.cr (start + 14) (w.len - 1) i ∨ _)))

instance (w : WData) (index i : Int) : Decidable (TurnReads w index i) :=
  inferInstanceAs (Decidable (Reads w Byte.star index w.len i
    ∨ (skipToStar w (w.len - index).toNat index < w.len ∧
      if w.len - 14 > 0 then
        Copies w (skipToStar w (w.len - index).toNat index) 14 i
          ∨ (strncpy (w.slice (skipToStar w (w.len - index).toNat index) 14) = delHeader
            ∧ DelReads w (skipToStar w (w.len - index).toNat index) i)
      else Saves w (skipToStar w (w.len - index).toNat index - 1) i)))

/-- **The scanner stays inside its buffer**, with `carry` in `buf_master_cmd`. -/
def StaysInside (carry : Bytes) (w : WData) : Prop :=
  ∀ n index, Visits (mergeCarry carry w) n index → index < (mergeCarry carry w).len →
    ∀ i, TurnReads (mergeCarry carry w) index i → (mergeCarry carry w).Inside i

/-- What holds of each read, with what the reads before it have left in `buf_master_cmd`, as
long as the process runs. -/
def Throughout (P : Bytes → WData → Prop) : Master → List WData → Prop
  | _, [] => True
  | m, w :: reads =>
    (m.ends.all End.running = true → P m.bufMasterCmd w) ∧ Throughout P (m.feed w) reads

/-! ## The condition -/

/-- The text `s` behind a header, which begins at `index`: the key is copied from the buffer,
or a zero ends the copy of a negative count. -/
def KeyCovered (index : Int) (s : Bytes) : Prop :=
  Byte.cr ∈ s → (field s).length + 2 < s.length →
    if fieldVal s < 0 then Byte.nul ∈ s.drop ((field s).length + 2)
    else index + (field s).length + 4 + fieldVal s < 2 ^ 31

/-- Where the scanner stands: at a header, whose key is covered; at another `'*'`, with
fourteen bytes or a zero to end the copy; or at another byte, which is not the last one. -/
def StepCovered (index : Int) : Bytes → Prop
  | [] => True
  | b :: s =>
    if b = Byte.star then
      if delHeader <+: b :: s then KeyCovered (index + 14) (s.drop 13)
      else 13 ≤ s.length ∨ Byte.nul ∈ s
    else s ≠ []

/-- The bytes of the buffer answer all that the scanner looks for. In a buffer of fourteen
bytes or fewer that is a `'*'`, which is not the first byte. -/
def Covered (carry : Bytes) (w : WData) : Prop :=
  let s := (mergeCarry carry w).data
  if 14 < s.length then Along stride StepCovered 0 0 s
  else s = [] ∨ (Byte.star ∈ s ∧ s.head? ≠ some Byte.star)

instance (index : Int) (s : Bytes) : Decidable (KeyCovered index s) :=
  inferInstanceAs (Decidable (Byte.cr ∈ s → (field s).length + 2 < s.length →
    if fieldVal s < 0 then Byte.nul ∈ s.drop ((field s).length + 2)
    else index + (field s).length + 4 + fieldVal s < 2 ^ 31))

instance decidableStepCovered : ∀ (index : Int) (s : Bytes), Decidable (StepCovered index s)
  | _, [] => .isTrue trivial
  | index, b :: s =>
    inferInstanceAs (Decidable (if b = Byte.star then
      if delHeader <+: b :: s then KeyCovered (index + 14) (s.drop 13)
      else 13 ≤ s.length ∨ Byte.nul ∈ s
    else s ≠ []))

instance (carry : Bytes) (w : WData) : Decidable (Covered carry w) :=
  inferInstanceAs (Decidable (if 14 < (mergeCarry carry w).data.length then
      Along stride StepCovered 0 0 (mergeCarry carry w).data
    else (mergeCarry carry w).data = []
      ∨ (Byte.star ∈ (mergeCarry carry w).data
        ∧ (mergeCarry carry w).data.head? ≠ some Byte.star)))

/-- The condition from `index` on, in a long buffer. -/
def CoveredAt (w : WData) (index : Int) : Prop := AlongAt w stride StepCovered index

/-! ## The search -/

/-- The search ends at a `'*'` if there is one. -/
theorem skipToStar_lt_iff {index : Int} (h0 : 0 ≤ index) (hin : index < w.len) :
    skipToStar w (w.len - index).toNat index < w.len
      ↔ Byte.star ∈ w.data.drop index.toNat := by
  have hat := WData.at_drop h0 hin
  have hsum := hat.2.1
  have hskip := @skipToStar_bounds w (w.len - index).toNat index
  constructor
  · intro hlt
    have hstar := @skipToStar_stop w (w.len - index).toNat index (by omega) hlt
    generalize skipToStar w (w.len - index).toNat index = start at hskip hlt hstar
    have hk : (start - index).toNat < (w.data.drop index.toNat).length := by omega
    have hget := get_of_at hat hk
    rw [show index + ((start - index).toNat : Int) = start from by omega, hstar] at hget
    rw [hget]
    exact List.get_mem _ _
  · intro hmem
    by_contra hout
    obtain ⟨k, hk⟩ := List.mem_iff_get.mp hmem
    have hget := (get_of_at hat k.isLt).trans hk
    exact (@skipToStar_before w (w.len - index).toNat index (index + k) (by omega)
      (by omega)).1 hget

/-- The search for a star stays inside exactly if it finds one. -/
theorem search_inside_iff {index : Int} (h0 : 0 ≤ index) (hin : index < w.len) :
    (∀ i, Reads w Byte.star index w.len i → w.Inside i)
      ↔ skipToStar w (w.len - index).toNat index < w.len := by
  rw [reads_inside_iff (WData.at_drop h0 hin), skipToStar_lt_iff h0 hin]
  exact or_iff_right (Int.lt_irrefl _)

/-- The condition passes from the beginning of a round to the star that its search finds.
Induction on the bytes in between, none of which is the last. -/
theorem coveredAt_search {index : Int} (h0 : 0 ≤ index) (hin : index < w.len) :
    CoveredAt w index ↔ skipToStar w (w.len - index).toNat index < w.len
      ∧ CoveredAt w (skipToStar w (w.len - index).toNat index) := by
  have hskip := @skipToStar_bounds w (w.len - index).toNat index
  rw [CoveredAt, @alongAt_skipToStar w _ (w.len - index).toNat index h0, CoveredAt]
  refine and_congr_left fun _ => ?_
  -- a byte that is passed is not the last one
  have hpass : ∀ i, index ≤ i → i < skipToStar w (w.len - index).toNat index →
      (StepCovered i (w.data.drop i.toNat) ↔ i + 1 < w.len) := by
    intro i hi hlt
    obtain ⟨hbyte, hiin⟩ := skipToStar_before hi hlt
    obtain ⟨s, hat⟩ := at_get (show 0 ≤ i from by omega) hiin
    have hsum := hat.2.1
    rw [List.length_cons] at hsum
    rw [hat.2.2, StepCovered, if_neg hbyte, ← List.length_pos_iff]
    omega
  constructor
  · intro h
    by_contra hout
    have hlast := (hpass (w.len - 1) (by omega) (by omega)).mp
      (h (w.len - 1) (by omega) (by omega))
    omega
  · intro hlt i hi hi'
    exact (hpass i hi hi').mpr (by omega)

/-! ## The copy of fourteen bytes -/

theorem prefix_inside_iff {start : Int} {s : Bytes} (hat : w.At start s) :
    (∀ i, Copies w start 14 i → w.Inside i) ↔ 14 ≤ s.length ∨ Byte.nul ∈ s := by
  refine (copies_inside_iff hat).trans (or_congr_left ?_)
  omega

/-- The condition at a star that opens no deletion: its copy is covered, and so is what stands
fourteen bytes on. -/
theorem coveredAt_star {start : Int} {s : Bytes} (hat : w.At start (Byte.star :: s))
    (hpre : ¬ delHeader <+: Byte.star :: s) :
    CoveredAt w start ↔ (∀ i, Copies w start 14 i → w.Inside i) ∧ CoveredAt w (start + 14) := by
  rw [CoveredAt, alongAt_star hat hpre, StepCovered, if_pos rfl, if_neg hpre,
    prefix_inside_iff hat]
  refine and_congr_left fun _ => or_congr ?_ ?_
  · rw [List.length_cons]
    omega
  · rw [List.mem_cons]
    exact (or_iff_right (by decide)).symm

/-- The comparison finds no header in a buffer that ends first. -/
theorem header_of_inside {start : Int} {s : Bytes} (hat : w.At start s)
    (hheader : strncpy (w.slice start 14) = delHeader)
    (hinside : ∀ i, Copies w start 14 i → w.Inside i) : 14 ≤ s.length := by
  by_contra hshort
  have hnul := ((prefix_inside_iff hat).mp hinside).resolve_left hshort
  obtain ⟨k, hk⟩ := List.mem_iff_get.mp hnul
  have hget := (get_of_at hat k.isLt).trans hk
  have hk14 : (k : Nat) < 14 := by
    have := k.isLt
    omega
  have hbyte : (w.slice start 14)[(k : Nat)]? = some Byte.nul := by
    simp [WData.slice, hk14, hget]
  rw [strncpy_eq_delHeader.mp hheader] at hbyte
  exact nul_notMem_delHeader (List.mem_of_getElem? hbyte)

/-! ## `delParser` -/

/-- Where `delParser` leaves the buffer: only in the copy of the key. -/
theorem delReads_inside_iff (hlen : w.len < 2 ^ 30) {start : Int} {s : Bytes}
    (hat : w.At start (delHeader ++ s)) :
    (∀ i, DelReads w start i → w.Inside i)
      ↔ (Byte.cr ∈ s → (field s).length + 2 < s.length →
        int32 (start + 14 + (field s).length + 2 + fieldVal s) ≤ w.len →
          fieldVal s % 2 ^ 64 ≤ (s.drop ((field s).length + 2)).length
            ∨ Byte.nul ∈ s.drop ((field s).length + 2)) := by
  have h0 := hat.1
  have hsum := hat.2.1
  rw [List.length_append, show delHeader.length = 14 from rfl] at hsum
  -- the saving and the search for the number always stay inside
  have hsave : ∀ i, Saves w start i → w.Inside i := fun i => saves_inside hat hlen
  have hfield : ∀ i, Reads w Byte.cr (start + 14) (w.len - 1) i → w.Inside i :=
    (reads_inside_iff (at_field hat)).mpr (Or.inl (by omega))
  have hdollar : w.get (start + 13) = Byte.dollar := by
    have hsplit : delHeader ++ s = delHeader.take 13 ++ (Byte.dollar :: s) := rfl
    rw [hsplit] at hat
    exact hat.append.get
  have hfirst : w.Inside (start + 13) := ⟨by omega, by omega⟩
  constructor
  · intro h hcr hmore hfit
    -- the copy of the key is one of the reads
    have hkey := at_value (at_field hat) (by omega)
    rw [← copies_inside_iff hkey]
    intro i hi
    apply h i
    refine Or.inr ⟨hdollar, ?_⟩
    rw [if_neg (by omega), lengthField_eq (at_field hat), if_pos hcr]
    simp only
    rw [if_neg (by omega), if_pos hfit]
    exact Or.inr hi
  · -- each read is the comparison's, the saving's, the search's or the copy's
    rintro h i (rfl | ⟨-, hi⟩)
    · exact hfirst
    · split at hi
      · exact hsave i hi
      · rcases hi with hi | hi
        · exact hfield i hi
        · rw [lengthField_eq (at_field hat)] at hi
          split at hi
          · exact hsave i hi
          · rename_i len cr hsome
            have hcr : Byte.cr ∈ s := by
              by_contra hno
              simp [hno] at hsome
            rw [if_pos hcr] at hsome
            cases hsome
            split at hi
            · exact hsave i hi
            · split at hi
              · rename_i hfit
                exact (copies_inside_iff (at_value (at_field hat) (by omega))).mpr
                  (h hcr (by omega) hfit) i hi
              · exact hsave i hi

/-! ## Rounds -/

/-- Behind a header: the reads of `delParser`, and the index that it returns if it has
overflowed. -/
theorem keyCovered_of_inside (hlen : w.len < 2 ^ 30) {start : Int} {s : Bytes}
    (hat : w.At start (delHeader ++ s)) (hreads : ∀ i, DelReads w start i → w.Inside i)
    (hnext : ∀ acts next, delParser w start = .ret acts next → -1 ≤ next) :
    KeyCovered (start + 14) s := by
  have h0 := hat.1
  have hsum := hat.2.1
  rw [List.length_append, show delHeader.length = 14 from rfl] at hsum
  intro hcr hmore
  split
  · rename_i hneg
    have hbound : -(2 ^ 31) ≤ fieldVal s := le_int32 _
    have hkey := (delReads_inside_iff hlen hat).mp hreads hcr hmore (by
      rw [int32_of_bounds (by omega) (by omega)]
      omega)
    refine hkey.resolve_left fun hle => ?_
    rw [List.length_drop] at hle
    omega
  · by_contra hover
    obtain ⟨acts, next, hcall, hneg⟩ := delParser_overflow hlen hat hcr hmore (by omega)
    have := hnext acts next hcall
    omega

/-- What `delParser` reads and does when the key is covered. -/
theorem KeyCovered.call (hlen : w.len < 2 ^ 30) {start : Int} {s : Bytes}
    (hat : w.At start (delHeader ++ s)) (h : KeyCovered (start + 14) s) :
    (∀ i, DelReads w start i → w.Inside i)
      ∧ (delParser w start = .crash ∨ ∃ acts next, delParser w start = .ret acts next
        ∧ (next = -1 ∨ (Byte.cr ∈ s ∧ 0 ≤ fieldVal s
          ∧ next = start + 18 + (field s).length + (fieldVal s).toNat))) := by
  have h0 := hat.1
  have hsum := hat.2.1
  rw [List.length_append, show delHeader.length = 14 from rfl] at hsum
  constructor
  · -- the reads: a key that is taken lies in the buffer
    rw [delReads_inside_iff hlen hat]
    intro hcr hmore hfit
    have hkey := h hcr hmore
    split at hkey
    · exact Or.inr hkey
    · left
      rw [int32_of_bounds (by omega) (by omega)] at hfit
      rw [List.length_drop]
      omega
  · -- the result: a negative length crashes, any other goes to its end or returns -1
    rcases Decidable.em (Byte.cr ∈ s ∧ (field s).length + 2 < s.length ∧ fieldVal s < 0)
      with ⟨hcr, hmore, hneg⟩ | hgo
    · exact Or.inl (delParser_negative hlen hat hcr hmore hneg)
    · right
      obtain ⟨acts, next, hcall, hres⟩ := delParser_goes hlen hat (by
        intro hcr
        rcases Nat.lt_or_ge ((field s).length + 2) s.length with hmore | hshort
        · have hpos : ¬ fieldVal s < 0 := fun hneg => hgo ⟨hcr, hmore, hneg⟩
          have hkey := h hcr hmore
          rw [if_neg hpos] at hkey
          exact Or.inr ⟨by omega, by omega⟩
        · exact Or.inl hshort)
      refine ⟨acts, next, hcall, ?_⟩
      rcases hres with ⟨hone, -⟩ | hgoes
      · exact Or.inl hone
      · exact Or.inr hgoes

/-- The condition at a header is that for the key behind it. -/
theorem stepCovered_header (start : Int) (s : Bytes) :
    StepCovered start (delHeader ++ s) ↔ KeyCovered (start + 14) s := by
  have hpre : delHeader <+: Byte.star :: (delHeader.tail ++ s) := ⟨s, rfl⟩
  rw [show delHeader ++ s = Byte.star :: (delHeader.tail ++ s) from rfl, StepCovered,
    if_pos rfl, if_pos hpre]
  rfl

/-- A round from a covered place on stays inside, and the next one begins at such a place. -/
theorem turn_covered (hlen : w.len < 2 ^ 30) (hlong : 14 < w.len) {index : Int}
    (h0 : 0 ≤ index) (hin : index < w.len) (hcovered : CoveredAt w index) :
    (∀ i, TurnReads w index i → w.Inside i)
      ∧ ∀ acts next, turn w index = .go acts next → 0 ≤ next ∧ CoveredAt w next := by
  obtain ⟨start, hstart⟩ : ∃ start, start = skipToStar w (w.len - index).toNat index := ⟨_, rfl⟩
  have hskip := @skipToStar_bounds w (w.len - index).toNat index
  have hsearch := search_inside_iff h0 hin
  have hat := (coveredAt_search h0 hin).mp hcovered
  rw [← hstart] at hskip hsearch hat
  obtain ⟨hstartin, hat⟩ := hat
  have hfound := hsearch.mpr hstartin
  have hlong' : w.len - 14 > 0 := by omega
  -- what the round reads behind the search
  have hreads : (∀ i, Copies w start 14 i → w.Inside i) →
      (strncpy (w.slice start 14) = delHeader → ∀ i, DelReads w start i → w.Inside i) →
      ∀ i, TurnReads w index i → w.Inside i := by
    intro hcopy hdel i hi
    simp only [TurnReads, ← hstart, if_pos hlong'] at hi
    rcases hi with hi | ⟨-, hi | ⟨hheader, hi⟩⟩
    · exact hfound i hi
    · exact hcopy i hi
    · exact hdel hheader i hi
  -- what the round finds: nothing, a short buffer, a star, a header cut off, a header
  rcases turn_cases hlen h0 hin hstart with ⟨hout, -⟩ | ⟨hsmall, -⟩
    | ⟨-, -, hstar, hother, hturn⟩ | ⟨-, -, hbroken, hheader, -⟩ | ⟨-, -, -, ⟨s, hhead⟩, hturn⟩
  · omega
  · omega
  · obtain ⟨s, hs⟩ := at_get (show 0 ≤ start from by omega) hstartin
    rw [hstar] at hs
    -- a star that begins no header: fourteen bytes further
    obtain ⟨hcopy, hnext⟩ := (coveredAt_star hs (not_header_of_ne hs hother)).mp hat
    refine ⟨hreads hcopy fun hheader => absurd hheader hother, fun acts next hgo => ?_⟩
    rw [hturn] at hgo
    cases hgo
    exact ⟨by omega, hnext⟩
  · -- the bytes behind the buffer would have to be read to find this header
    have hs := WData.at_drop (show 0 ≤ start from by omega) hstartin
    have hsum := hs.2.1
    obtain ⟨t, ht⟩ := at_get (show 0 ≤ start from by omega) hstartin
    have hstar : w.get start = Byte.star := by
      have h14 : (w.slice start 14)[0]? = some Byte.star := by
        rw [strncpy_eq_delHeader.mp hheader]
        rfl
      simpa [WData.slice] using h14
    rw [hstar] at ht
    have hend := ht.2.1
    have hpre : ¬ delHeader <+: Byte.star :: t := by
      intro hpre
      have hle := hpre.length_le
      rw [show delHeader.length = 14 from rfl] at hle
      omega
    have hcopy := ((coveredAt_star ht hpre).mp hat).1
    have hfull := header_of_inside ht hheader hcopy
    omega
  · -- a header: the fourteen bytes are there, and the key is covered
    have hcopy : ∀ i, Copies w start 14 i → w.Inside i := by
      rw [prefix_inside_iff hhead]
      left
      rw [List.length_append, show delHeader.length = 14 from rfl]
      omega
    obtain ⟨hstep, hnext⟩ := (alongAt_header hhead).mp hat
    have hkey := (stepCovered_header start s).mp hstep
    obtain ⟨hdel, hcall⟩ := hkey.call hlen hhead
    refine ⟨hreads hcopy fun _ => hdel, fun acts next hgo => ?_⟩
    rw [hturn] at hgo
    rcases hcall with hcrash | ⟨acts', next', hcall, hres⟩
    · rw [hcrash] at hgo
      cases hgo
    · rw [hcall] at hgo
      simp only at hgo
      rcases hres with hone | ⟨hcr, hpos, hres⟩
      · rw [if_pos hone] at hgo
        cases hgo
      · rw [if_neg (by omega)] at hgo
        cases hgo
        rw [hres]
        exact ⟨by omega, hnext hcr hpos⟩

/-- All rounds, from a covered place on. -/
theorem Visits.covered (hlen : w.len < 2 ^ 30) (hlong : 14 < w.len) (hcovered : CoveredAt w 0)
    {n : Nat} {index : Int} (h : Visits w n index) : 0 ≤ index ∧ CoveredAt w index := by
  induction h with
  | start => exact ⟨Int.le_refl 0, hcovered⟩
  | round before nonneg inside hturn ih =>
    exact (turn_covered hlen hlong nonneg inside ih.2).2 _ _ hturn

/-! ## From inside to covered -/

/-- Where every round stays inside, each begins at a covered place. -/
theorem coveredAt_of_inside (hlen : w.len < 2 ^ 30) (hlong : 14 < w.len)
    (hinside : ∀ n index, Visits w n index → index < w.len →
      ∀ i, TurnReads w index i → w.Inside i) {n : Nat} {index : Int} (h0 : 0 ≤ index)
    (hvisit : Visits w n index) : CoveredAt w index := by
  obtain ⟨left, hleft⟩ : ∃ left, left = (w.len - index).toNat := ⟨_, rfl⟩
  induction left using Nat.strong_induction_on generalizing n index with
  | _ left ih =>
    rcases Int.lt_or_le index w.len with hin | hout
    · obtain ⟨start, hstart⟩ : ∃ start, start = skipToStar w (w.len - index).toNat index :=
        ⟨_, rfl⟩
      have hskip := @skipToStar_bounds w (w.len - index).toNat index
      have hreads := hinside n index hvisit hin
      have hsearch := search_inside_iff h0 hin
      have hgoal := coveredAt_search h0 hin
      have hlong' : w.len - 14 > 0 := by omega
      simp only [TurnReads, ← hstart, if_pos hlong'] at hreads
      rw [← hstart] at hskip hsearch hgoal
      have hstartin := hsearch.mp fun i hi => hreads i (Or.inl hi)
      have hcopy : ∀ i, Copies w start 14 i → w.Inside i :=
        fun i hi => hreads i (Or.inr ⟨hstartin, Or.inl hi⟩)
      -- the rounds go forward, so what the next one needs is the induction's
      have hnext : ∀ {acts next}, turn w index = .go acts next → index < next →
          CoveredAt w next := by
        intro acts next hturn hfwd
        exact ih _ (by omega) (by omega) (.round hvisit h0 hin hturn) rfl
      refine hgoal.mpr ⟨hstartin, ?_⟩
      rcases turn_cases hlen h0 hin hstart with ⟨hbehind, -⟩ | ⟨hsmall, -⟩
        | ⟨-, -, hstar, hother, hturn⟩ | ⟨-, -, hbroken, hheader, -⟩
        | ⟨-, -, hheader, ⟨s, hhead⟩, hturn⟩
      · omega
      · omega
      · obtain ⟨s, hs⟩ := at_get (show 0 ≤ start from by omega) hstartin
        rw [hstar] at hs
        -- a star that begins no header
        rw [coveredAt_star hs (not_header_of_ne hs hother)]
        exact ⟨hcopy, hnext hturn (by omega)⟩
      · have hs := WData.at_drop (show 0 ≤ start from by omega) hstartin
        have hsum := hs.2.1
        -- a header whose bytes were all inside is no broken one
        have hfull := header_of_inside hs hheader hcopy
        omega
      · have hsum := hhead.2.1
        rw [List.length_append, show delHeader.length = 14 from rfl] at hsum
        -- a header: its key has to be covered
        have hkey : KeyCovered (start + 14) s := by
          apply keyCovered_of_inside hlen hhead
          · exact fun i hi => hreads i (Or.inr ⟨hstartin, Or.inr ⟨hheader, hi⟩⟩)
          · intro acts next hcall
            by_contra hback
            -- the next round would begin in front of the buffer
            rw [hcall] at hturn
            simp only at hturn
            rw [if_neg (by omega)] at hturn
            have hvisit' := Visits.round hvisit h0 hin hturn
            have hread := hinside _ next hvisit' (by omega) next
              (Or.inl (reads_first (by omega)))
            have := hread.1
            omega
        rw [CoveredAt, alongAt_header hhead, stepCovered_header]
        refine ⟨hkey, fun hcr hpos => ?_⟩
        rcases Nat.lt_or_ge ((field s).length + 2) s.length with hmore | hshort
        · have hbound := hkey hcr hmore
          rw [if_neg (by omega)] at hbound
          obtain ⟨acts, next, hcall, hres⟩ := delParser_goes hlen hhead
            fun _ => Or.inr ⟨hpos, by omega⟩
          rw [hcall] at hturn
          simp only at hturn
          rcases hres with ⟨-, hno⟩ | ⟨-, -, rfl⟩
          · have := hno hcr
            omega
          · rw [if_neg (by omega)] at hturn
            exact hnext hturn (by omega)
        · exact alongAt_behind (by omega)
    · exact alongAt_behind hout

/-! ## Short buffers -/

/-- The first round of a short buffer is the only one. -/
theorem visits_short (hsmall : w.len ≤ 14) {n : Nat} {index : Int} (h : Visits w n index)
    (hin : index < w.len) : index = 0 := by
  induction h with
  | start => rfl
  | round before nonneg inside hturn ih =>
    rcases turn_cases (by omega) nonneg inside rfl with ⟨hout, hgo⟩ | ⟨-, buf, hstop⟩
      | ⟨-, hlong, -⟩ | ⟨-, hlong, -⟩ | ⟨-, hlong, -⟩
    · rw [hturn] at hgo
      cases hgo
      omega
    · rw [hturn] at hstop
      cases hstop
    · omega
    · omega
    · omega

/-- In a buffer of fourteen bytes or fewer the first round is the only one. It stays inside
if it finds a star, unless that is the first byte: the rest is then saved from the place
before it on. -/
theorem short_inside_iff (hsmall : w.len ≤ 14) :
    (∀ n index, Visits w n index → index < w.len → ∀ i, TurnReads w index i → w.Inside i)
      ↔ w.data = [] ∨ (Byte.star ∈ w.data ∧ w.data.head? ≠ some Byte.star) := by
  have hat := WData.at_zero w
  have hsum := hat.2.1
  have hskip := @skipToStar_bounds w (w.len - 0).toNat 0
  have hshort : ¬ w.len - 14 > 0 := by omega
  rcases Nat.eq_zero_or_pos w.data.length with hnil | hpos
  · -- an empty buffer is not read at all
    refine iff_of_true (fun n index hvisit hin => ?_) (Or.inl (List.length_eq_zero_iff.mp hnil))
    have := visits_short hsmall hvisit hin
    omega
  · have hin : 0 < w.len := by omega
    have hsearch := search_inside_iff (Int.le_refl 0) hin
    have hstar := skipToStar_lt_iff (Int.le_refl 0) hin
    rw [show w.data.drop (0 : Int).toNat = w.data from rfl] at hstar
    have hne : w.data ≠ [] := List.ne_nil_of_length_pos hpos
    obtain ⟨b, s, hdata⟩ := List.exists_cons_of_ne_nil hne
    -- the search stands still exactly at a star that is the first byte
    have hhead : w.data.head? = some Byte.star
        ↔ skipToStar w (w.len - 0).toNat 0 = 0 := by
      have hget : w.get 0 = b := by
        rw [hdata] at hat
        exact hat.get
      have hfuel : (w.len - 0).toNat = (w.len - 1).toNat + 1 := by omega
      have hbound := @skipToStar_bounds w (w.len - 1).toNat (0 + 1)
      rw [hdata, List.head?_cons, Option.some_inj, hfuel, skipToStar, hget]
      split
      · rename_i hgo
        exact iff_of_false hgo.1 (by omega)
      · rename_i hstop
        refine iff_of_true ?_ rfl
        by_contra hb
        exact hstop ⟨hb, hin⟩
    constructor
    · intro h
      have hreads := h 0 0 .start hin
      have hlt := hsearch.mp fun i hi => hreads i (Or.inl hi)
      refine Or.inr ⟨hstar.mp hlt, fun hfirst => ?_⟩
      -- the save would begin at `data[-1]`
      have hzero := hhead.mp hfirst
      have hsave : TurnReads w 0 (-1) := by
        simp only [TurnReads, hzero, if_neg hshort]
        refine Or.inr ⟨hin, ?_⟩
        rw [Saves, int32_of_bounds (by omega) (by omega)]
        exact ⟨by unfold maxRead; omega, reads_first (by omega)⟩
      have := (hreads (-1) hsave).1
      omega
    · rintro (hempty | ⟨hmem, hfirst⟩) n index hvisit hindex i hi
      · exact absurd hempty hne
      · obtain rfl := visits_short hsmall hvisit hindex
        have hlt := hstar.mpr hmem
        have hpos' : skipToStar w (w.len - 0).toNat 0 ≠ 0 := fun h => hfirst (hhead.mpr h)
        simp only [TurnReads, if_neg hshort] at hi
        rcases hi with hi | ⟨-, hi⟩
        · exact hsearch.mpr hlt i hi
        · exact saves_inside (WData.at_drop (by omega) (by omega)) (by omega) hi

/-! ## A read, and a sequence of reads -/

/-- One call of `processInputBuffer`. -/
theorem staysInside_iff_covered (carry : Bytes) {w : WData} (hread : w.data.length ≤ maxRead) :
    StaysInside carry w ↔ Covered carry w := by
  have hlen : (mergeCarry carry w).len < 2 ^ 30 := length_mergeCarry hread
  have hdata : (mergeCarry carry w).len = (mergeCarry carry w).data.length := rfl
  rw [Covered]
  split
  · have hlong : 14 < (mergeCarry carry w).len := by omega
    show _ ↔ CoveredAt (mergeCarry carry w) 0
    constructor
    · intro h
      exact coveredAt_of_inside hlen hlong h (Int.le_refl 0) .start
    · intro h n index hvisit hin
      obtain ⟨h0, hat⟩ := hvisit.covered hlen hlong h
      exact (turn_covered hlen hlong h0 hin hat).1
  · exact short_inside_iff (by omega)

/-- Equivalent conditions on single reads are equivalent along a run. Induction on the reads. -/
theorem throughout_congr {P Q : Bytes → WData → Prop} {reads : List WData}
    (h : ∀ carry, ∀ w ∈ reads, P carry w ↔ Q carry w) (m : Master) :
    Throughout P m reads ↔ Throughout Q m reads := by
  induction reads generalizing m with
  | nil => exact Iff.rfl
  | cons w reads ih =>
    rw [Throughout, Throughout, h m.bufMasterCmd w List.mem_cons_self,
      ih (fun carry w' hw' => h carry w' (List.mem_cons_of_mem w hw'))]

/-- **Inside.** In a sequence of reads all rounds stay inside their buffer exactly when each
buffer, of what was carried and what is read, is covered. -/
theorem staysInside_iff {reads : List WData} (hreads : ∀ w ∈ reads, w.data.length ≤ maxRead) :
    Throughout StaysInside Master.start reads ↔ Throughout Covered Master.start reads :=
  throughout_congr (fun carry _ hw => staysInside_iff_covered carry (hreads _ hw)) Master.start

/-- Two commands without arguments in one read. -/
theorem staysInside_iff_pings :
    Throughout StaysInside Master.start
        [⟨[[[80, 73, 78, 71]], [[80, 73, 78, 71]]].flatMap Resp.array, fun _ => 0⟩]
      ↔ Throughout Covered Master.start
        [⟨[[[80, 73, 78, 71]], [[80, 73, 78, 71]]].flatMap Resp.array, fun _ => 0⟩] :=
  staysInside_iff (by decide)

example : Covered [] ⟨[[[80, 73, 78, 71]], [[80, 73, 78, 71]]].flatMap Resp.array, fun _ => 0⟩ := by
  decide

/-- **Reads in front of and behind the buffer.** One `PING` of fourteen bytes is saved from
`data[-1]` on, and behind a `SET` the search for a `'*'` reads `data[len]`. -/
theorem not_staysInside :
    let ping : WData := ⟨Resp.array [[80, 73, 78, 71]], fun _ => 0⟩
    let set : WData := ⟨Resp.array [[83, 69, 84], [107], [118]], fun _ => 0⟩
    (ping.len = 14 ∧ TurnReads ping 0 (-1) ∧ ¬Throughout StaysInside Master.start [ping])
      ∧ set.len = 27 ∧ Visits set 1 14 ∧ TurnReads set 14 27
        ∧ ¬Throughout StaysInside Master.start [set] := by
  have hping : TurnReads ⟨Resp.array [[80, 73, 78, 71]], fun _ => 0⟩ 0 (-1) := by decide
  have hvisit : Visits ⟨Resp.array [[83, 69, 84], [107], [118]], fun _ => 0⟩ 1 14 :=
    .round .start (by decide) (by decide) rfl
  have hset : TurnReads ⟨Resp.array [[83, 69, 84], [107], [118]], fun _ => 0⟩ 14 27 := by decide
  refine ⟨⟨by decide, hping, fun h => ?_⟩, by decide, hvisit, hset, fun h => ?_⟩
  · exact absurd (h.1 rfl 0 0 .start (by decide) (-1) hping) (by unfold WData.Inside; decide)
  · exact absurd (h.1 rfl 1 14 hvisit (by decide) 27 hset) (by unfold WData.Inside; decide)

end Scan

end Iceberg
