import Iceberg.Proxy.ReplyReads

/-!
# The bounds of the reply parser

One round of `parseReadData` stays inside the buffer and goes forward exactly when the reply
that it meets fits (`ReplyFits`), and then the next round begins where the bytes of the reply
end (`replyTakes`). So it is known for a whole buffer which replies are met.
-/

namespace Iceberg

namespace Parser

variable {w : WData} {start : Int} {t : Bytes}

/-! ## Arrays -/

/-- What is read of an array: its first byte, its header and its items. -/
theorem replyReads_array (hb : w.get start = Byte.star) (i : Int) :
    ReplyReads w start i ↔ i = start ∨ HeaderReads w start i
      ∨ ∃ r ∈ arrayRounds w start, ItemReads w start r.1 r.2 i := by
  rw [ReplyReads, hb]
  exact Iff.rfl

theorem replyLen_array (hb : w.get start = Byte.star) (v : Int) :
    ReplyLen w start v ↔ ∃ r ∈ arrayRounds w start, itemLen w r.2 = some v := by
  rw [ReplyLen, hb]
  exact Iff.rfl

theorem parseReply_array (hb : w.get start = Byte.star) :
    parseReply w start = some (parseArray w start) := by
  rw [parseReply, hb]
  rfl

/-- What becomes of the header of an array: it is saved, or the item loop begins. -/
theorem parseArray_cases (hlen : w.len < 2 ^ 30) (hat : w.At start (Byte.star :: t)) :
    (∀ i, HeaderReads w start i → w.Inside i)
      ∧ ((¬(Byte.cr ∈ t ∧ ((field t).length + 2 < t.length
            ∨ ((field t).length + 2 = t.length ∧ fieldVal t ≤ 0)))
          ∧ arrayRounds w start = [] ∧ parseArray w start = incomplete w start)
        ∨ (Byte.cr ∈ t ∧ ((field t).length + 2 < t.length
            ∨ ((field t).length + 2 = t.length ∧ fieldVal t ≤ 0))
          ∧ arrayRounds w start
            = itemRounds w (fieldVal t).toNat (start + (field t).length + 3) .uninit
          ∧ parseArray w start
            = parseItems w start (fieldVal t).toNat (start + (field t).length + 3) []
              .uninit)) := by
  have hsum := hat.2.1
  rw [List.length_cons] at hsum
  have hsave : ∀ i, Saves w start i → w.Inside i := fun i => saves_inside hat hlen
  have hfield : ∀ i, Reads w Byte.cr (start + 1) (w.len - 1) i → w.Inside i :=
    (reads_inside_iff hat.tail).mpr (Or.inl (by omega))
  have hcount : start + 1 + (field t).length + 2 = start + (field t).length + 3 := by omega
  have hlength := lengthField_eq hat.tail
  -- is there anything behind the star, and if so the end of the number?
  rcases Int.lt_or_le (start + 1) w.len with hin | hend
  · rcases Decidable.em (Byte.cr ∈ t) with hcr | hcr
    · rw [if_pos hcr] at hlength
      constructor
      · intro i hi
        -- no carriage return was found, and the search stays inside
        rw [HeaderReads, if_neg (by omega), hlength] at hi
        rcases hi with hi | ⟨-, hi⟩
        · exact hfield i hi
        · exact hsave i hi
      · rw [arrayRounds, if_neg (by omega), parseArray, if_neg (by omega), hlength]
        simp only [hcount]
        -- the number is complete: stop in front of the items, or go on with them
        rcases Decidable.em (start + (field t).length + 3 > w.len
          ∨ (start + (field t).length + 3 = w.len ∧ fieldVal t > 0)) with hstop | hgo
        · left
          rw [if_pos hstop, if_pos hstop]
          exact ⟨fun h => by omega, rfl, rfl⟩
        · right
          rw [if_neg hgo, if_neg hgo]
          exact ⟨hcr, by omega, rfl, rfl⟩
    · rw [if_neg hcr] at hlength
      constructor
      · intro i hi
        rw [HeaderReads, if_neg (by omega), hlength] at hi
        rcases hi with hi | hi
        · exact hfield i hi
        · exact hsave i hi
      · left
        rw [arrayRounds, if_neg (by omega), parseArray, if_neg (by omega), hlength]
        exact ⟨fun h => hcr h.1, rfl, rfl⟩
  · constructor
    · intro i hi
      rw [HeaderReads, if_pos hend] at hi
      exact hsave i hi
    · left
      -- the star is the last byte
      rw [arrayRounds, if_pos hend, parseArray, if_pos hend]
      refine ⟨fun h => ?_, rfl, rfl⟩
      have := length_field_lt h.1
      omega

theorem at_items (hat : w.At start (Byte.star :: t)) (hmore : (field t).length + 2 ≤ t.length) :
    w.At (start + (field t).length + 3) (t.drop ((field t).length + 2)) :=
  (at_value hat.tail hmore).cast (by omega)

/-- **An array** is parsed soundly exactly if its items fit. The cases are those of the header: at
the end of the buffer, not closed, without items in the buffer, and complete. -/
theorem soundReply_array (hlen : w.len < 2 ^ 30) (hat : w.At start (Byte.star :: t)) :
    SoundReply w start ↔ ReplyFits start (Byte.star :: t) := by
  have hself : w.Inside start := ⟨hat.1, hat.lt_len⟩
  have hfits : ReplyFits start (Byte.star :: t) ↔ (Byte.cr ∈ t → (field t).length + 2 < t.length →
      ItemsFit (fieldVal t).toNat false (start + (field t).length + 3)
        (t.drop ((field t).length + 2))) := Iff.rfl
  obtain ⟨hheader, ⟨hno, hrounds, hparse⟩ | ⟨hcr, hroom, hrounds, hparse⟩⟩ :=
    parseArray_cases hlen hat
  · -- the header is incomplete: the reply is saved and nothing else is read
    rw [hfits]
    refine iff_of_true ⟨?_, ?_, ?_⟩ fun hcr hmore => absurd ⟨hcr, Or.inl hmore⟩ hno
    · intro i hi
      rw [replyReads_array hat.get, hrounds] at hi
      rcases hi with rfl | hi | ⟨r, hr, -⟩
      · exact hself
      · exact hheader i hi
      · cases hr
    · intro v hv
      rw [replyLen_array hat.get, hrounds] at hv
      obtain ⟨r, hr, -⟩ := hv
      cases hr
    · intro r hr
      rw [parseReply_array hat.get, hparse] at hr
      cases hr
      exact forward_incomplete hlen hat
  · -- the header is complete, and the items decide
    have hitems := at_items hat (by omega)
    have hmore : t.drop ((field t).length + 2) ≠ [] ∨ (fieldVal t).toNat = 0 := by
      rcases hroom with hlt | ⟨-, hzero⟩
      · left
        apply List.ne_nil_of_length_pos
        rw [List.length_drop]
        omega
      · right
        omega
    have hsound := @soundItems_iff w start hlen _ hat _ _ _ [] .uninit (by omega) hitems hmore
    -- reads and lengths of the reply are those of its header and of its items
    have hiff : SoundReply w start ↔ SoundItems w start (fieldVal t).toNat
        (start + (field t).length + 3) [] .uninit := by
      constructor
      · intro h
        refine ⟨fun r hr i hi => ?_, fun r hr v hv => ?_, ?_⟩
        · apply h.reads i
          rw [replyReads_array hat.get, hrounds]
          exact Or.inr (Or.inr ⟨r, hr, hi⟩)
        · apply h.lengths v
          rw [replyLen_array hat.get, hrounds]
          exact ⟨r, hr, hv⟩
        · apply h.forward
          rw [parseReply_array hat.get, hparse]
      · intro h
        refine ⟨fun i hi => ?_, fun v hv => ?_, fun r hr => ?_⟩
        · rw [replyReads_array hat.get, hrounds] at hi
          rcases hi with rfl | hi | ⟨r, hr, hi⟩
          · exact hself
          · exact hheader i hi
          · exact h.reads r hr i hi
        · rw [replyLen_array hat.get, hrounds] at hv
          obtain ⟨r, hr, hv⟩ := hv
          exact h.lengths r hr v hv
        · rw [parseReply_array hat.get, hparse] at hr
          cases hr
          exact h.forward
    rw [hiff, hsound, hfits]
    constructor
    · exact fun h _ _ => h
    · intro h
      rcases hroom with hlt | ⟨-, hzero⟩
      · exact h hcr hlt
      · rw [show (fieldVal t).toNat = 0 from by omega]
        trivial

/-! ## Bulk strings -/

theorem replyReads_bulk (hb : w.get start = Byte.dollar) (i : Int) :
    ReplyReads w start i ↔ i = start ∨ BulkReads w start i := by
  rw [ReplyReads, hb]
  exact Iff.rfl

theorem replyLen_bulk (hb : w.get start = Byte.dollar) (v : Int) :
    ReplyLen w start v ↔ itemLen w start = some v := by
  rw [ReplyLen, hb]
  exact Iff.rfl

theorem parseReply_bulk (hb : w.get start = Byte.dollar) :
    parseReply w start = some (parseBulkString w start) := by
  rw [parseReply, hb]
  rfl

/-- A header that is complete and fits: the string is saved, or it is posted. -/
theorem parseBulkString_fits (hlen : w.len < 2 ^ 30) (hat : w.At start (Byte.dollar :: t))
    (hcr : Byte.cr ∈ t) (hpos : 0 ≤ fieldVal t)
    (hfit : start + (field t).length + fieldVal t + 5 < 2 ^ 31) :
    (∀ i, BulkReads w start i → w.Inside i)
      ∧ ((t.length < (field t).length + (fieldVal t).toNat + 4
          ∧ parseBulkString w start = incomplete w start)
        ∨ ((field t).length + (fieldVal t).toNat + 4 ≤ t.length
          ∧ ∃ text, parseBulkString w start = .ret [.popHandle (.text text)]
            (start + ((field t).length + (fieldVal t).toNat + 5 : Nat)))) := by
  have h0 := hat.1
  have hsum := hat.2.1
  rw [List.length_cons] at hsum
  have hsearch : ∀ i, Reads w Byte.cr (start + 1) w.len i → w.Inside i :=
    (reads_inside_iff hat.tail).mpr (Or.inr hcr)
  have hlength := lengthField_eq hat.tail
  rw [if_pos hcr] at hlength
  have hnext : int32 (start + 1 + (field t).length + fieldVal t + 4)
      = start + ((field t).length + (fieldVal t).toNat + 5 : Nat) := by
    rw [int32_of_bounds (by omega) (by omega)]
    omega
  constructor
  · -- the reads: the search for the number, then the saving or the copy
    intro i hi
    rw [BulkReads, hlength] at hi
    rcases hi with hi | hi
    · exact hsearch i hi
    · simp only [hnext] at hi
      split at hi
      · exact saves_inside hat hlen hi
      · have hvalue := at_value hat.tail (by omega)
        refine copies_inside hvalue hpos ?_ hi
        rw [List.length_drop]
        omega
  · -- the value is complete or not, by the same comparison as in the code
    rw [parseBulkString, hlength]
    simp only [hnext]
    rcases Nat.lt_or_ge t.length ((field t).length + (fieldVal t).toNat + 4) with hlt | hge
    · left
      rw [if_pos (by omega)]
      exact ⟨hlt, rfl⟩
    · right
      rw [if_neg (by omega), if_neg (by omega)]
      exact ⟨hge, _, rfl⟩

/-- **A bulk string** is parsed soundly exactly if its header fits. -/
theorem soundReply_bulk (hlen : w.len < 2 ^ 30) (hat : w.At start (Byte.dollar :: t)) :
    SoundReply w start ↔ ReplyFits start (Byte.dollar :: t) := by
  have h0 := hat.1
  have hsum := hat.2.1
  rw [List.length_cons] at hsum
  have hself : w.Inside start := ⟨h0, hat.lt_len⟩
  have hfits : ReplyFits start (Byte.dollar :: t) ↔ (Byte.cr ∈ t ∧ 0 ≤ fieldVal t
      ∧ start + (field t).length + fieldVal t + 5 < 2 ^ 31) := Iff.rfl
  rw [hfits]
  constructor
  · intro h
    -- the search for the carriage return stays inside only if there is one
    have hcr : Byte.cr ∈ t := by
      refine ((reads_inside_iff hat.tail).mp fun i hi => ?_).resolve_left (Int.lt_irrefl _)
      apply h.reads i
      rw [replyReads_bulk hat.get]
      exact Or.inr (Or.inl hi)
    -- the length that is copied is the one in the header
    have hpos : 0 ≤ fieldVal t := by
      apply h.lengths
      rw [replyLen_bulk hat.get, itemLen_header hat hcr]
    refine ⟨hcr, hpos, ?_⟩
    by_contra hover
    -- the index that is returned has overflowed
    have hlt := length_field_lt hcr
    have hval : fieldVal t < 2 ^ 31 := int32_lt _
    have hback : int32 (start + 1 + (field t).length + fieldVal t + 4) < -1 := by
      unfold int32
      omega
    have hforward := h.forward _ (parseReply_bulk hat.get)
    have hlength := lengthField_eq hat.tail
    rw [if_pos hcr] at hlength
    rw [parseBulkString, hlength] at hforward
    simp only at hforward
    rw [if_neg (by omega), if_neg (by omega)] at hforward
    rcases hforward with hexit | ⟨acts, next, hret, hnext⟩
    · cases hexit
    · cases hret
      omega
  · -- with the three facts every read is inside and the index goes forward
    rintro ⟨hcr, hpos, hfit⟩
    obtain ⟨hreads, hcases⟩ := parseBulkString_fits hlen hat hcr hpos hfit
    refine ⟨fun i hi => ?_, fun v hv => ?_, fun r hr => ?_⟩
    · rw [replyReads_bulk hat.get] at hi
      rcases hi with rfl | hi
      · exact hself
      · exact hreads i hi
    · rw [replyLen_bulk hat.get, itemLen_header hat hcr] at hv
      cases hv
      exact hpos
    · rw [parseReply_bulk hat.get] at hr
      cases hr
      rcases hcases with ⟨-, hsaved⟩ | ⟨hroom, text, hret⟩
      · rw [hsaved]
        exact forward_incomplete hlen hat
      · exact Or.inr ⟨_, _, hret, Or.inr ⟨by omega, by omega⟩⟩

/-! ## Lines -/

/-- A line is the text in front of its line feed. -/
theorem lineOf_append {line s : Bytes} (hlf : Byte.lf ∉ line) :
    lineOf (line ++ Byte.lf :: s) = line := by
  have hall : ∀ b ∈ line, decide (b ≠ Byte.lf) = true := by
    intro b hb
    exact decide_eq_true fun h => hlf (h ▸ hb)
  rw [lineOf, List.takeWhile_append_of_pos hall]
  simp

theorem length_lineOf_lt {s : Bytes} (h : Byte.lf ∈ s) : (lineOf s).length < s.length := by
  obtain ⟨line, rest, rfl, hlf⟩ := List.eq_append_cons_of_mem h
  rw [lineOf_append hlf]
  simp

/-- The search finds the end of the line, or nothing. -/
theorem findLf_eq {index : Int} {s : Bytes} (hat : w.At index s) :
    findLf w (w.len - index).toNat index
      = if Byte.lf ∈ s then some (index + (lineOf s).length) else none := by
  have hsum := hat.2.1
  split
  · rename_i hmem
    obtain ⟨line, rest, rfl, hlf⟩ := List.eq_append_cons_of_mem hmem
    rw [List.length_append, List.length_cons] at hsum
    rw [findLf_at line hat hlf (by omega), lineOf_append hlf]
  · rename_i hmem
    exact findLf_eq_none hat hmem (by omega)

/-- The byte that a line begins with. -/
def IsMarker (b : UInt8) : Prop := b = Byte.minus ∨ b = Byte.plus ∨ b = Byte.colon

theorem IsMarker.ne {b : UInt8} (h : IsMarker b) : b ≠ Byte.star ∧ b ≠ Byte.dollar := by
  rcases h with rfl | rfl | rfl <;> decide

variable {b : UInt8}

/-- What is read of a line. -/
theorem replyReads_line (hb : w.get start = b) (hmarker : IsMarker b) (i : Int) :
    ReplyReads w start i ↔ i = start ∨ SimpleReads w start i := by
  obtain ⟨hstar, hdollar⟩ := hmarker.ne
  rw [ReplyReads, hb]
  simp only
  rw [if_neg hstar, if_neg hdollar,
    if_pos (show b = Byte.minus ∨ b = Byte.plus ∨ b = Byte.colon from hmarker)]

/-- In a line no length is computed. -/
theorem not_replyLen_line (hb : w.get start = b) (hmarker : IsMarker b) (v : Int) :
    ¬ReplyLen w start v := by
  obtain ⟨hstar, hdollar⟩ := hmarker.ne
  rw [ReplyLen, hb, if_neg hstar, if_neg hdollar]
  exact not_false

/-- A line fits if there is a byte behind it, or a zero ends its copy. -/
theorem replyFits_line (hmarker : IsMarker b) (index : Int) (t : Bytes) :
    ReplyFits index (b :: t)
      ↔ (Byte.lf ∈ t → (lineOf t).length + 2 ≤ t.length ∨ Byte.nul ∈ t) := by
  obtain ⟨hstar, hdollar⟩ := hmarker.ne
  rw [ReplyFits, if_neg hstar, if_neg hdollar,
    if_pos (show b = Byte.minus ∨ b = Byte.plus ∨ b = Byte.colon from hmarker)]

/-- What `parseSimple` returns: the index behind the line, or it saves. -/
theorem parseSimple_cases (hat : w.At start (b :: t)) :
    (Byte.lf ∉ t ∧ parseSimple w start = incomplete w start)
      ∨ (Byte.lf ∈ t ∧ parseSimple w start
        = .ret (if 4 < (lineOf t).length then [.pop] else [])
          (start + ((lineOf t).length + 2 : Nat))) := by
  have hfind := findLf_eq hat.tail
  rcases Decidable.em (Byte.lf ∈ t) with hlf | hlf
  · right
    rw [if_pos hlf] at hfind
    -- the line ends at its first line feed
    have hend : w.get (start + 1 + (lineOf t).length) = Byte.lf := by
      obtain ⟨line, rest, rfl, hline⟩ := List.eq_append_cons_of_mem hlf
      rw [lineOf_append hline]
      exact hat.tail.append.get
    have hnext : start + 1 + (lineOf t).length + 1
        = start + ((lineOf t).length + 2 : Nat) := by omega
    rw [parseSimple, hfind]
    simp only [hend]
    rw [if_neg (by decide), hnext]
    -- only a line of more than three bytes takes a key
    rcases Nat.lt_or_ge 4 (lineOf t).length with hlong | hshort
    · rw [if_pos (by omega), if_pos hlong]
      exact ⟨hlf, rfl⟩
    · rw [if_neg (by omega), if_neg (by omega)]
      exact ⟨hlf, rfl⟩
  · left
    rw [if_neg hlf] at hfind
    rw [parseSimple, hfind]
    exact ⟨hlf, rfl⟩

/-- A marker opens a line. -/
theorem parseReply_marker (hb : w.get start = b) (hmarker : IsMarker b) :
    parseReply w start = some (parseSimple w start) := by
  apply parseReply_line
  rw [hb]
  exact or_left_comm.mp hmarker

/-- **A line** is parsed soundly exactly if it fits: its copy goes one byte too far. -/
theorem soundReply_line (hlen : w.len < 2 ^ 30) (hat : w.At start (b :: t))
    (hmarker : IsMarker b) : SoundReply w start ↔ ReplyFits start (b :: t) := by
  have h0 := hat.1
  have hsum := hat.2.1
  rw [List.length_cons] at hsum
  have hself : w.Inside start := ⟨h0, hat.lt_len⟩
  have hfind := findLf_eq hat.tail
  have hsearch : ∀ i, Reads w Byte.lf (start + 1) (w.len - 1) i → w.Inside i :=
    (reads_inside_iff hat.tail).mpr (Or.inl (by omega))
  have hcopy := copies_inside_iff (n := start + 1 + (lineOf t).length + 1 - start) hat.tail
  rw [replyFits_line hmarker]
  constructor
  · -- the copy of the line is one of the reads
    intro h hlf
    have hlt := length_lineOf_lt hlf
    rw [if_pos hlf] at hfind
    refine (hcopy.mp fun i hi => ?_).imp (fun hle => by omega) id
    apply h.reads i
    rw [replyReads_line hat.get hmarker, SimpleReads, hfind]
    exact Or.inr (Or.inr (Or.inl hi))
  · intro h
    refine ⟨fun i hi => ?_, fun v hv => absurd hv (not_replyLen_line hat.get hmarker v),
      fun r hr => ?_⟩
    · rw [replyReads_line hat.get hmarker, SimpleReads, hfind] at hi
      rcases hi with rfl | hi | hi
      · exact hself
      · exact hsearch i hi
      · split at hi
        · rename_i index hsome
          split at hsome
          · rename_i hlf
            cases hsome
            have hlt := length_lineOf_lt hlf
            rcases hi with hi | rfl
            · exact hcopy.mpr ((h hlf).imp (fun hle => by omega) id) i hi
            · exact ⟨by omega, by omega⟩
          · cases hsome
        · exact saves_inside hat hlen hi
    · rw [parseReply_marker hat.get hmarker] at hr
      cases hr
      -- saved if the line is not complete, else one line forward
      rcases parseSimple_cases hat with ⟨-, hsaved⟩ | ⟨hlf, hret⟩
      · rw [hsaved]
        exact forward_incomplete hlen hat
      · have hlt := length_lineOf_lt hlf
        exact Or.inr ⟨_, _, hret, Or.inr ⟨by omega, by omega⟩⟩

/-! ## Any reply -/

/-- **A round is sound exactly when the reply that it meets fits.** -/
theorem soundReply_iff (hlen : w.len < 2 ^ 30) {s : Bytes} (hat : w.At start s)
    (hne : s ≠ []) : SoundReply w start ↔ ReplyFits start s := by
  obtain ⟨b, t, rfl⟩ := List.exists_cons_of_ne_nil hne
  rcases Decidable.em (b = Byte.star) with rfl | hstar
  · exact soundReply_array hlen hat
  rcases Decidable.em (b = Byte.dollar) with rfl | hdollar
  · exact soundReply_bulk hlen hat
  rcases Decidable.em (b = Byte.minus ∨ b = Byte.plus ∨ b = Byte.colon) with hmarker | hother
  · exact soundReply_line hlen hat hmarker
  · -- unexpected data
    have hget := hat.get
    refine iff_of_true ⟨fun i hi => ?_, fun v hv => ?_, fun r hr => ?_⟩ ?_
    · rw [ReplyReads, hget] at hi
      simp only [if_neg hstar, if_neg hdollar, if_neg hother] at hi
      rcases hi with rfl | hi
      · exact ⟨hat.1, hat.lt_len⟩
      · exact hi
    · rw [ReplyLen, hget, if_neg hstar, if_neg hdollar] at hv
      exact absurd hv not_false
    · rw [parseReply, hget] at hr
      simp only [if_neg hstar, if_neg hdollar, if_neg hother] at hr
      cases hr
    · rw [ReplyFits, if_neg hstar, if_neg hdollar, if_neg hother]
      trivial

/-- The calls that a use of the queue stands for. -/
def Use.Calls : Use → List Act → Prop
  | .key, acts => ∃ p, acts = [.popHandle p]
  | .line, acts => acts = [.pop]
  | .nothing, acts => acts = []

/-- **The way on.** A reply that fits and is all there is used up; else the loop does not go
on behind it. -/
theorem parseReply_takes (hlen : w.len < 2 ^ 30) {s : Bytes} (hat : w.At start s)
    (hne : s ≠ []) (hfits : ReplyFits start s) :
    match replyTakes s with
    | some (k, use) => ∃ acts, parseReply w start = some (.ret acts (start + k)) ∧ use.Calls acts
    -- an item is not complete, or ends the process
    | none => ∀ acts next, parseReply w start = some (.ret acts next) → next = -1 := by
  -- wherever the reply is saved, the parser returns -1
  have hsaved : ∀ {p : Bytes}, w.At start p → ∀ acts next,
      some (incomplete w start) = some (.ret acts next) → next = -1 := by
    intro p hp acts next hret
    obtain ⟨acts', hinc⟩ := incomplete_eq hlen hp
    rw [hinc] at hret
    cases hret
    rfl
  obtain ⟨b, t, rfl⟩ := List.exists_cons_of_ne_nil hne
  have hsum := hat.2.1
  rw [List.length_cons] at hsum
  rw [replyTakes]
  -- the four kinds of replies, in the order of the code
  rcases Decidable.em (b = Byte.star) with rfl | hstar
  · rw [if_pos rfl, parseReply_array hat.get]
    rcases (parseArray_cases hlen hat).2 with ⟨hno, -, hparse⟩ | ⟨hcr, hroom, -, hparse⟩
    · rw [if_neg hno, hparse]
      exact hsaved hat
    · rw [if_pos ⟨hcr, hroom⟩, hparse]
      have hitems := at_items hat (by omega)
      have hmore : t.drop ((field t).length + 2) ≠ [] ∨ (fieldVal t).toNat = 0 := by
        rcases hroom with hlt | ⟨-, hzero⟩
        · left
          apply List.ne_nil_of_length_pos
          rw [List.length_drop]
          omega
        · right
          omega
      -- no items, or items that fit
      have hitemsFit : ItemsFit (fieldVal t).toNat (hasKey .uninit)
          (start + (field t).length + 3) (t.drop ((field t).length + 2)) := by
        rcases hroom with hlt | ⟨-, hzero⟩
        · exact hfits hcr hlt
        · rw [show (fieldVal t).toNat = 0 from by omega]
          trivial
      have htakes := @parseItems_takes w start hlen _ hat _ _ _ [] .uninit hitems hmore hitemsFit
      generalize itemsTake (fieldVal t).toNat (t.drop ((field t).length + 2)) = taken at htakes
      cases taken with
      | none =>
        intro acts next hret
        rcases htakes with hexit | ⟨acts', hsave⟩
        · rw [hexit] at hret
          cases hret
        · rw [hsave] at hret
          cases hret
          rfl
      | some k =>
        obtain ⟨sets, hret⟩ := htakes
        refine ⟨_, ?_, ⟨.object sets, rfl⟩⟩
        rw [hret]
        congr 2
        omega
  rw [if_neg hstar]
  rcases Decidable.em (b = Byte.dollar) with rfl | hdollar
  · obtain ⟨hcr, hpos, hfit⟩ := hfits
    rw [if_pos rfl, parseReply_bulk hat.get]
    rcases (parseBulkString_fits hlen hat hcr hpos hfit).2 with
      ⟨hshort, hparse⟩ | ⟨hroom, text, hparse⟩
    · rw [if_neg (by omega), hparse]
      exact hsaved hat
    · rw [if_pos ⟨hcr, hroom⟩]
      exact ⟨_, congrArg some hparse, .text text, rfl⟩
  rw [if_neg hdollar]
  rcases Decidable.em (b = Byte.minus ∨ b = Byte.plus ∨ b = Byte.colon) with hmarker | hother
  · rw [if_pos hmarker, parseReply_marker hat.get hmarker]
    rcases parseSimple_cases hat with ⟨hlf, hparse⟩ | ⟨hlf, hparse⟩
    · rw [if_neg hlf, hparse]
      exact hsaved hat
    · rw [if_pos hlf]
      refine ⟨_, congrArg some hparse, ?_⟩
      split
      · rfl
      · rfl
  · -- no marker at all: the process ends
    rw [if_neg hother]
    intro acts next hret
    rw [parseReply, hat.get] at hret
    simp only [if_neg hstar, if_neg hdollar, if_neg hother] at hret
    cases hret

end Parser

/-! ## A read -/

open Iceberg.Parser

/-- The calls of a scan in two parts. -/
theorem Answers.performAll_append (a : Answers) (fin : End) (acts acts' : List Act) :
    a.performAll fin (acts ++ acts')
      = match a.performAll .done acts with
        | (b, .done) => b.performAll fin acts'
        | stop => stop := by
  induction acts generalizing a with
  | nil => rfl
  | cons act acts ih =>
    rw [List.cons_append, performAll, performAll]
    split
    · exact ih _
    · rename_i stop
      rcases hstop : a.perform act with ⟨b, e⟩
      rw [hstop] at stop
      cases e with
      | done => exact absurd rfl (stop b)
      | unexpected => rfl
      | exit => rfl
      | crash => rfl
      | hang => rfl

/-- The rounds of the loop of `parseReadData`: the state of the answer side and the index in
front of each. -/
inductive ReplyRound (a : Answers) (w : WData) : Answers → Int → Prop where
  | start : ReplyRound a w { a with bufSlaveAnswer := [] } 0
  | next {b c : Answers} {index next : Int} {acts : List Act} (before : ReplyRound a w b index)
      (nonneg : 0 ≤ index) (inside : index < w.len)
      (reply : parseReply w index = some (.ret acts next))
      (calls : b.performAll .done acts = (c, .done)) : ReplyRound a w c next

/-- A round, as `parseReadData` makes its calls: those of the reply, and then those of the
rest of the loop. -/
theorem performAll_parseLoop (b : Answers) {w : WData} {index next : Int} {acts : List Act}
    (h0 : 0 ≤ index) (hin : index < w.len)
    (hreply : parseReply w index = some (.ret acts next)) (fuel : Nat) :
    b.performAll (parseLoop w (fuel + 1) index).2 (parseLoop w (fuel + 1) index).1
      = match b.performAll .done acts with
        | (c, .done) => c.performAll (parseLoop w fuel next).2 (parseLoop w fuel next).1
        | stop => stop := by
  rw [parseLoop, if_pos ⟨h0, hin⟩, hreply]
  exact Answers.performAll_append b _ acts _

/-- **The reply parser is sound** on a read: every round is. -/
def SoundThroughout (a : Answers) (w : WData) : Prop :=
  ∀ b index, ReplyRound a (mergeCarry a.bufSlaveAnswer w) b index → 0 ≤ index →
    index < (mergeCarry a.bufSlaveAnswer w).len →
      SoundReply (mergeCarry a.bufSlaveAnswer w) index

/-- With `keys` keys in the queue, a reply of the text `s` is looked for at place `n` with `c`
keys left. -/
inductive Meets (s : Bytes) (keys : Nat) : Nat → Nat → Prop where
  | start : Meets s keys 0 keys
  | next {n c k c' : Nat} {use : Use} (before : Meets s keys n c)
      (takes : replyTakes (s.drop n) = some (k, use)) (spend : use.spend c = some c') :
      Meets s keys (n + k) c'

/-- Every reply that is met in the buffer fits. -/
def Fitting (a : Answers) (w : WData) : Prop :=
  ∀ n c, Meets (mergeCarry a.bufSlaveAnswer w).data a.q.toList.length n c →
    ReplyFits n ((mergeCarry a.bufSlaveAnswer w).data.drop n)

/-- A reply finds the keys it needs, or ends the process. -/
theorem performAll_calls {use : Use} {acts : List Act} (h : use.Calls acts) (b : Answers) :
    (∀ c, use.spend b.q.toList.length = some c →
        ∃ b', b.performAll .done acts = (b', .done) ∧ b'.q.toList.length = c)
      ∧ (use.spend b.q.toList.length = none → ∀ b', b.performAll .done acts ≠ (b', .done)) := by
  cases use with
  | key =>
    obtain ⟨p, rfl⟩ := h
    rcases hq : b.q.toList with _ | ⟨key, keys⟩
    · -- no key is left: the call crashes
      refine ⟨fun c hc => (by cases hc), fun _ b' hb' => ?_⟩
      simp [Answers.performAll, Answers.perform, hq] at hb'
    · refine ⟨fun c hc => ?_, fun hnone => (by cases hnone)⟩
      cases hc
      refine ⟨_, by simp [Answers.performAll, Answers.perform, hq]; rfl, ?_⟩
      simp [hq]
  | line =>
    cases h
    refine ⟨fun c hc => ?_, fun hnone => (by cases hnone)⟩
    cases hc
    exact ⟨_, rfl, by simp⟩
  | nothing =>
    cases h
    refine ⟨fun c hc => ?_, fun hnone => (by cases hnone)⟩
    cases hc
    exact ⟨b, rfl, rfl⟩

/-- Where all replies fit, the rounds are at the replies that are met. -/
theorem ReplyRound.meets {a b : Answers} {w : WData} {index : Int} (hlen : w.len < 2 ^ 30)
    (hfit : ∀ n c, Meets w.data a.q.toList.length n c → ReplyFits n (w.data.drop n))
    (h : ReplyRound a w b index) (h0 : 0 ≤ index) :
    Meets w.data a.q.toList.length index.toNat b.q.toList.length := by
  induction h with
  | start => exact .start
  | @next b c index next acts before nonneg inside reply calls ih =>
    -- the reply stands where the earlier ones ended
    have hmeets := ih nonneg
    have hat := WData.at_drop nonneg inside
    have hne := WData.drop_ne_nil nonneg inside
    have hfits := hfit _ _ hmeets
    rw [Int.toNat_of_nonneg nonneg] at hfits
    have htakes := parseReply_takes hlen hat hne hfits
    rcases htaken : replyTakes (w.data.drop index.toNat) with _ | ⟨k, use⟩
    · rw [htaken] at htakes
      have := htakes acts next reply
      omega
    · rw [htaken] at htakes
      obtain ⟨acts', hret, huse⟩ := htakes
      rw [reply] at hret
      cases hret
      obtain ⟨hspend, hstop⟩ := performAll_calls huse b
      -- the keys the calls take are those the reply uses
      rcases hc : use.spend b.q.toList.length with _ | keys
      · exact absurd calls (hstop hc c)
      · obtain ⟨b', hcalls, hkeys⟩ := hspend keys hc
        rw [calls] at hcalls
        cases hcalls
        rw [show (index + (k : Int)).toNat = index.toNat + k from by omega, hkeys]
        exact .next hmeets htaken hc

/-- Where all rounds are sound, there is one at each reply that is met. -/
theorem Meets.round {a : Answers} {w : WData} (hlen : w.len < 2 ^ 30)
    (hsound : ∀ b index, ReplyRound a w b index → 0 ≤ index → index < w.len → SoundReply w index)
    {n c : Nat} (h : Meets w.data a.q.toList.length n c) :
    ∃ b, ReplyRound a w b n ∧ b.q.toList.length = c := by
  induction h with
  | start => exact ⟨_, .start, rfl⟩
  | @next n c k c' use before takes spend ih =>
    obtain ⟨b, hround, hkeys⟩ := ih
    have hne : w.data.drop n ≠ [] := by
      intro hnil
      rw [hnil] at takes
      cases takes
    have hin : (n : Int) < w.len := WData.lt_len_of_drop hne
    have hat : w.At n (w.data.drop n) := WData.at_drop (by omega) hin
    have hfits := (soundReply_iff hlen hat hne).mp (hsound b n hround (by omega) hin)
    have htakes := parseReply_takes hlen hat hne hfits
    rw [takes] at htakes
    obtain ⟨acts, hret, huse⟩ := htakes
    obtain ⟨b', hcalls, hleft⟩ := (performAll_calls huse b).1 c' (hkeys ▸ spend)
    exact ⟨b', hround.next (by omega) hin hret hcalls, hleft⟩

/-- **Bounds.** Whatever the read and the carry buffer contain, and whatever is in the queue,
the reply parser is sound exactly when every reply that is met fits. -/
theorem soundThroughout_iff (a : Answers) (w : WData) (hread : w.data.length ≤ maxRead) :
    SoundThroughout a w ↔ Fitting a w := by
  have hlen : (mergeCarry a.bufSlaveAnswer w).len < 2 ^ 30 := length_mergeCarry hread
  constructor
  · intro h n c hmeets
    rcases Decidable.em ((mergeCarry a.bufSlaveAnswer w).data.drop n = []) with hnil | hne
    · rw [hnil]
      trivial
    · obtain ⟨b, hround, -⟩ := hmeets.round hlen h
      have hin : (n : Int) < (mergeCarry a.bufSlaveAnswer w).len := WData.lt_len_of_drop hne
      exact (soundReply_iff hlen (WData.at_drop (by omega) hin) hne).mp
        (h b n hround (by omega) hin)
  · intro h b index hround h0 hin
    have hat := WData.at_drop h0 hin
    have hne := WData.drop_ne_nil h0 hin
    have hfits := h _ _ (hround.meets hlen h h0)
    rw [Int.toNat_of_nonneg h0] at hfits
    exact (soundReply_iff hlen hat hne).mpr hfits

/-- The hash `{f: v}`, the first half of which is left over, with one key in the queue. -/
theorem soundThroughout_iff_hash :
    let a : Answers := ⟨initCirQueue.push [107], [42, 50, 13, 10, 36, 49, 13, 10, 102], []⟩
    let w : WData := ⟨[13, 10, 36, 49, 13, 10, 118, 13, 10], fun _ => 0⟩
    Fitting a w ∧ SoundThroughout a w := by
  intro a w
  have hdata : (mergeCarry a.bufSlaveAnswer w).data
      = [42, 50, 13, 10, 36, 49, 13, 10, 102, 13, 10, 36, 49, 13, 10, 118, 13, 10] := by decide
  have htakes : replyTakes [42, 50, 13, 10, 36, 49, 13, 10, 102, 13, 10, 36, 49, 13, 10, 118, 13,
      10] = some (18, .key) := rfl
  have hfitting : Fitting a w := by
    intro n c hmeets
    rw [hdata] at hmeets ⊢
    -- a reply is looked for at the beginning and behind the hash
    have hplace : n = 0 ∨ n = 18 := by
      induction hmeets with
      | start => exact Or.inl rfl
      | next before takes spend ih =>
        rcases ih with rfl | rfl
        · obtain ⟨rfl, -⟩ := Prod.mk.inj (Option.some.inj (htakes.symm.trans takes))
          exact Or.inr rfl
        · cases takes
    rcases hplace with rfl | rfl
    · decide
    · trivial
  exact ⟨hfitting, (soundThroughout_iff a w (by decide)).mpr hfitting⟩

/-- **An error line and a nil.** The copy of the line `"-ERR\r\n"` ends one byte behind the
buffer, and the length of `"$-1\r\n"` is `-29`. -/
theorem not_soundThroughout :
    let line : WData := ⟨[45, 69, 82, 82, 13, 10], fun _ => 255⟩
    let nil : WData := ⟨[36, 45, 49, 13, 10], fun _ => 0⟩
    (line.len = 6 ∧ ReplyReads line 0 6 ∧ ¬SoundThroughout ⟨initCirQueue, [], []⟩ line)
      ∧ ReplyLen nil 0 (-29) ∧ ¬SoundThroughout ⟨initCirQueue, [], []⟩ nil := by
  have hread : ReplyReads ⟨[45, 69, 82, 82, 13, 10], fun _ => 255⟩ 0 6 :=
    (replyReads_line rfl (Or.inl rfl) 6).mpr (Or.inr (Or.inr (Or.inl (by decide))))
  have hlen : ReplyLen ⟨[36, 45, 49, 13, 10], fun _ => 0⟩ 0 (-29) :=
    (replyLen_bulk rfl (-29)).mpr (by decide)
  refine ⟨⟨rfl, hread, fun h => ?_⟩, hlen, fun h => ?_⟩
  · have hin := (h _ 0 .start (by decide) (by decide)).reads 6 hread
    exact absurd hin.2 (by decide)
  · exact absurd ((h _ 0 .start (by decide) (by decide)).lengths (-29) hlen) (by decide)

end Iceberg
