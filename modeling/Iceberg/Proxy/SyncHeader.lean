import Iceberg.Proxy.EndOfFile

/-!
# Arbitrary bytes for a header

In `SYNC_START_STATE` the master may send anything. The header goes byte by byte into a
buffer of `MAX_READ` bytes, without a test for its end, and the number behind its first byte
becomes a signed `bulk_size`. Here is when this stays in bounds.
-/

namespace Iceberg

open Triples Transfer

variable {m : Int} {line S U bs : Bytes} {w u v : World}

/-- The bytes that the reads of one byte get. -/
def delivered (reads : List (Except Int (UInt8 × Bytes))) : Bytes :=
  reads.filterMap fun
    | .ok (b, _) => some b
    | .error _ => none

/-- The header: the bytes behind the line feeds in front, up to the next one. -/
def headerLine (S : Bytes) : Bytes := (unfed S).takeWhile (· ≠ Byte.lf)

/-- The header line and its line feed fit into the buffer, as far as they have come, and the
number in it, if it is no error, is below `2^63`. -/
structure HeaderFits (S : Bytes) : Prop where
  room : (unfed S).length ≤ maxRead ∨ (headerLine S).length < maxRead
  number : Byte.lf ∈ unfed S → (headerLine S).head? ≠ some Byte.minus →
    strtoull (headerLine S).tail < 2 ^ 63

/-- Since the trace was `t`, at most `left` bytes were read from the master, and the size to be
asked for next fits into the buffer. -/
def Within (m : Int) (t : List Event) (left : Int) (w : World) : Prop :=
  payloadSize w.bulkSize ≤ maxRead
    ∧ ∃ es, w.trace = t ++ es ∧ ((readFrom m es).length : Int) ≤ left

/-- The loop over the payload asks for no more than fits, and has read at most `bulk_size`
bytes when it returns or stops, whatever the system calls do. -/
def PayloadFits (m : Int) (w : World) : Prop :=
  payloadSize w.bulkSize ≤ maxRead ∧ ∀ o,
    Triple (· = { w with outcomes := o }) (payloadLoop m)
      (fun _ => Within m w.trace w.bulkSize)
      fun e v => e ≠ .fault ∧ e ≠ .hang ∧ Within m w.trace w.bulkSize v

/-- What is to hold when the master sends `S` in `SYNC_START_STATE`: nothing is stored behind
the buffer, and `bulk_size` is a size that the payload can be read by. -/
def ParsedSafely (S : Bytes) : Prop :=
  ∀ (w : World) (s : Step), w.Reachable → s.Calls w .readFromMaster → w.state = .syncStart →
    delivered s.outcomes.reads = S →
    (∀ u, s.run w ≠ .error .fault u)
      ∧ ∀ u, s.run w = .ok ⟨⟩ u → u.state = .sync →
        0 ≤ u.bulkSize ∧ PayloadFits u.masterFd u

/-! ## The number -/

theorem int64_nonneg {n : Nat} (h : n < 2 ^ 64) : 0 ≤ int64 n ↔ n < 2 ^ 63 := by
  unfold int64
  omega

theorem int64_lt (n : Nat) : int64 n < 2 ^ 63 := by
  unfold int64
  omega

/-- `strtoull` stops at the greatest number of 64 bits. -/
theorem strtoull_lt (s : Bytes) : strtoull s < 2 ^ 64 := by
  unfold strtoull
  dsimp only
  split
  · decide
  · split
    · exact Nat.lt_of_le_of_lt (Nat.min_le_right _ _) (by decide)
    · split
      · split
        · exact Nat.mod_lt _ (by decide)
        · decide
      · exact Nat.lt_of_le_of_lt (Nat.min_le_right _ _) (by decide)

/-- A size below zero, as a `size_t`, is larger than the buffer. -/
theorem payloadSize_le_iff {bulkSize : Int} (hlo : -(2 ^ 63) ≤ bulkSize) (hhi : bulkSize < 2 ^ 63) :
    payloadSize bulkSize ≤ maxRead ↔ 0 ≤ bulkSize := by
  have hmax : maxRead = 10240 := rfl
  unfold payloadSize
  split <;> omega

/-! ## The loop over the header -/

/-- The header as far as it is known when `line` is in the buffer and `T` is to come. -/
def header (line T : Bytes) : Bytes := if line = [] then unfed T else line ++ T

/-- A byte that is no line feed moves into the buffer. -/
theorem header_cons {b : UInt8} (hb : b ≠ Byte.lf) (T : Bytes) :
    header line (b :: T) = header (line ++ [b]) T := by
  have hne : line ++ [b] ≠ [] := by simp
  rw [header, header, if_neg hne]
  split
  · next hline =>
    subst hline
    have hkeep : (b == Byte.lf) = false := by simpa using hb
    simp [unfed, hkeep]
  · simp

/-- A line without a line feed is the front of the header. -/
theorem takeWhile_line (hline : Byte.lf ∉ line) (T : Bytes) :
    (line ++ T).takeWhile (· ≠ Byte.lf) = line ++ T.takeWhile (· ≠ Byte.lf) := by
  rw [List.takeWhile_append_of_pos]
  intro b hb
  simpa using fun h : b = Byte.lf => hline (h ▸ hb)

/-- A line feed ends a line that is not empty. -/
theorem header_end (hline : Byte.lf ∉ line) (hne : line ≠ []) (T : Bytes) :
    Byte.lf ∈ header line (Byte.lf :: T)
      ∧ (header line (Byte.lf :: T)).takeWhile (· ≠ Byte.lf) = line := by
  rw [header, if_neg hne]
  refine ⟨by simp, ?_⟩
  rw [takeWhile_line hline]
  simp

/-- Where a byte more does not fit, the header has no room. -/
theorem room_of_full {b : UInt8} {T : Bytes} (hline : Byte.lf ∉ line)
    (hfull : maxRead ≤ line.length) :
    ¬((header line (b :: T)).length ≤ maxRead
      ∨ ((header line (b :: T)).takeWhile (· ≠ Byte.lf)).length < maxRead) := by
  have hne : line ≠ [] := by
    rintro rfl
    exact absurd hfull (by decide)
  rw [header, if_neg hne, takeWhile_line hline]
  simp only [List.length_append, List.length_cons]
  omega

/-- What the loop over the header leaves, when the header is `U`. -/
def Parsed (m : Int) (U : Bytes) (got : Option Bytes) (w : World) : Prop :=
  match got with
  | none => w.state ≠ .sync
  | some line => Byte.lf ∈ U ∧ line = U.takeWhile (· ≠ Byte.lf) ∧ Ready m w

/-- **The loop over the header** of a header with room stores nothing behind the buffer. -/
theorem headerLoop_parses (h : Ready m w) (hstate : w.state ≠ .sync) (hline : Byte.lf ∉ line)
    (hU : header line (delivered w.outcomes.reads) = U)
    (hroom : U.length ≤ maxRead ∨ (U.takeWhile (· ≠ Byte.lf)).length < maxRead) :
    Triple (· = w) (headerLoop m line) (Parsed m U) fun e _ => e ≠ .fault := by
  induction hr : w.outcomes.reads generalizing w line with
  | nil =>
    rintro v rfl
    rw [headerLoop_eq h, hr]
    exact fun h => by cases h
  | cons r reads ih =>
    rintro v rfl
    rw [headerLoop_eq h, hr]
    rw [hr] at hU
    cases r with
    | error e =>
      simp only
      cases again e with
      | true =>
        -- nothing to read yet: the loop tries again with the same line
        exact @ih line (v.leftReads reads) (h.same rfl rfl rfl) hstate hline hU rfl _ rfl
      | false =>
        show State.start ≠ .sync
        decide
    | ok got =>
      obtain ⟨b, bs⟩ := got
      have hU : header line (b :: delivered reads) = U := hU
      simp only
      by_cases hfull : line.length ≥ maxRead
      · -- the byte would be stored behind the buffer, which `hroom` excludes
        exact absurd (hU ▸ hroom) (room_of_full hline hfull)
      rw [if_neg hfull]
      by_cases hclient : v.clientFd = -1
      · rw [if_pos hclient]
        exact hstate
      rw [if_neg hclient]
      cases (sendAll v.outcomes.writes [b]).2.1 with
      | waiting => exact fun h => by cases h
      | failed =>
        show State.start ≠ .sync
        decide
      | all =>
        have hsent : Ready m (((v.leftReads reads).log [.read m [b]]).sent v.clientFd [b]) :=
          h.same rfl rfl rfl
        -- the byte has gone to the slave, the rest of the reads is the induction's
        have hgo := fun line => @ih line
          (((v.leftReads reads).log [.read m [b]]).sent v.clientFd [b]) hsent hstate
        simp only
        by_cases hb : b = Byte.lf
        · subst hb
          by_cases hnil : line = []
          · subst hnil
            -- a newline with nothing before it is skipped
            rw [if_pos rfl, if_neg (by simp)]
            exact hgo [] hline hU rfl _ rfl
          · rw [if_pos rfl, if_pos hnil]
            -- the newline ends the line
            obtain ⟨hmem, htake⟩ := header_end hline hnil (delivered reads)
            rw [hU] at hmem htake
            exact ⟨hmem, htake.symm, hsent⟩
        · rw [if_neg hb]
          -- any other byte joins it
          rw [header_cons hb] at hU
          refine hgo _ ?_ hU rfl _ rfl
          simp [hline, Ne.symm hb]

/-! ## The loop over the payload -/

/-- Events that are no reads of the master change nothing. -/
theorem Within.log {t : List Event} {left : Int} (h : Within m t left w) {es : List Event}
    (hbulk : v.bulkSize = w.bulkSize) (htrace : v.trace = w.trace ++ es)
    (hes : readFrom m es = []) : Within m t left v := by
  obtain ⟨hsize, es', htrace', hlen⟩ := h
  refine ⟨hbulk ▸ hsize, es' ++ es, by rw [htrace, htrace', List.append_assoc], ?_⟩
  rwa [readFrom_append, hes, List.append_nil]

/-- `closeFd` reads nothing. -/
theorem Within.closeFd {t : List Event} {left : Int} (h : Within m t left w) :
    Within m t left w.closeFd := by
  obtain ⟨es, htrace, hes⟩ := w.closeFd_reads m
  have hbulk : w.closeFd.bulkSize = w.bulkSize := by
    unfold World.closeFd World.shut World.aeDeleteFileEvent World.close
    simp only [apply_ite World.bulkSize]
    simp
  exact h.log hbulk htrace hes

/-- **The loop over the payload** reads at most `bulk_size` bytes, and asks for no more than
fits, if `bulk_size` is not negative. -/
theorem payloadLoop_within {t : List Event} {left : Int} (h : Ready m w) (hnn : 0 ≤ w.bulkSize)
    (hbig : w.bulkSize < 2 ^ 63)
    (hread : ∃ es, w.trace = t ++ es ∧ (readFrom m es).length + w.bulkSize ≤ left) :
    Triple (· = w) (payloadLoop m) (fun _ => Within m t left)
      fun e v => e ≠ .fault ∧ e ≠ .hang ∧ Within m t left v := by
  -- the read fits the buffer as long as `bulk_size` is not negative
  have hsize : ∀ {v : World}, 0 ≤ v.bulkSize → v.bulkSize < 2 ^ 63 →
      payloadSize v.bulkSize ≤ maxRead := fun hnn hbig =>
    (payloadSize_le_iff (by omega) hbig).mpr hnn
  have hwithin : Within m t left w := by
    obtain ⟨es, htrace, hlen⟩ := hread
    exact ⟨hsize hnn hbig, es, htrace, by omega⟩
  induction hr : w.outcomes.reads generalizing w with
  | nil =>
    rintro v rfl
    rw [payloadLoop_eq h, hr]
    by_cases hzero : v.bulkSize = 0
    · -- the payload is complete, and the loop ends
      rw [if_pos hzero]
      exact hwithin
    · rw [if_neg hzero]
      exact ⟨by decide, by decide, hwithin⟩
  | cons r reads ih =>
    rintro v rfl
    rw [payloadLoop_eq h, hr]
    by_cases hzero : v.bulkSize = 0
    · rw [if_pos hzero]
      exact hwithin
    rw [if_neg hzero]
    cases r with
    | error e =>
      simp only
      cases again e with
      | true => exact @ih (v.leftReads reads) (h.same rfl rfl rfl) hnn hbig hread hwithin rfl _ rfl
      | false => exact Within.closeFd (w := v.leftReads reads) hwithin
    | ok got =>
      obtain ⟨b, bs⟩ := got
      -- `recv` returns at most what was asked for, at most what is missing
      obtain ⟨hpos, hle, hbuf⟩ := payloadSize_bounds (show 0 < v.bulkSize by omega) hbig
      have hlen : ((b :: bs).take (payloadSize v.bulkSize)).length ≤ payloadSize v.bulkSize :=
        List.length_take_le _ _
      simp only
      generalize (b :: bs).take (payloadSize v.bulkSize) = got at hlen ⊢
      have hv : Ready m ((v.leftReads reads).log [.read m got]) := h.same rfl rfl rfl
      -- the bytes count as read, whether or not they can be passed on
      have hlog : ∃ es, ((v.leftReads reads).log [.read m got]).trace = t ++ es
          ∧ ((readFrom m es).length : Int) + (v.bulkSize - got.length) ≤ left := by
        obtain ⟨es, htrace, hes⟩ := hread
        refine ⟨es ++ [.read m got], ?_, ?_⟩
        · show v.trace ++ [.read m got] = _
          rw [htrace, List.append_assoc]
        · have hone : readFrom m [.read m got] = got := by simp [readFrom]
          rw [readFrom_append, hone, List.length_append]
          omega
      have hread' : Within m t left ((v.leftReads reads).log [.read m got]) := by
        obtain ⟨es, htrace, hes⟩ := hlog
        exact ⟨hsize hnn hbig, es, htrace, by omega⟩
      by_cases hnil : got = []
      · -- an empty read changes neither side
        rw [if_pos hnil]
        refine @ih _ hv hnn hbig ?_ hread' rfl _ rfl
        obtain ⟨es, htrace, hes⟩ := hlog
        rw [hnil, List.length_nil] at hes
        refine ⟨es, htrace, ?_⟩
        show ((readFrom m es).length : Int) + v.bulkSize ≤ left
        simpa using hes
      rw [if_neg hnil, if_neg (by omega)]
      by_cases hclient : v.clientFd = -1
      · rw [if_pos hclient]
        exact hread'
      rw [if_neg hclient]
      -- what goes to the slave is no read from the master
      have hsent : Within m t left
          (((v.leftReads reads).log [.read m got]).sent v.clientFd got) :=
        hread'.log rfl rfl (readFrom_wrote _ _ _)
      cases (sendAll v.outcomes.writes got).2.1 with
      | waiting => exact ⟨by decide, by decide, hsent⟩
      | failed => exact hsent.closeFd
      | all =>
        have hnn' : 0 ≤ v.bulkSize - got.length := by omega
        have hbig' : v.bulkSize - got.length < 2 ^ 63 := by omega
        -- `bulk_size` goes down by what came in
        refine @ih { ((v.leftReads reads).log [.read m got]).sent v.clientFd got with
          bulkSize := v.bulkSize - got.length } (h.same rfl rfl rfl) hnn' hbig' ?_
          ⟨hsize hnn' hbig', hsent.2⟩ rfl _ rfl
        obtain ⟨es, htrace, hes⟩ := hlog
        refine ⟨es ++ (sendAll v.outcomes.writes got).1.map (Event.wrote v.clientFd), ?_, ?_⟩
        · show (v.trace ++ [.read m got]) ++ _ = _
          rw [show v.trace ++ [.read m got] = t ++ es from htrace, List.append_assoc]
          rfl
        · rw [readFrom_append, readFrom_wrote, List.append_nil]
          exact hes

/-! ## The callback -/

/-- The master's callback in `SYNC_START_STATE`. -/
theorem Step.Calls.syncStart {s : Step} {w : World} (hcalls : s.Calls w .readFromMaster)
    (h : w.Reachable) (hstate : w.state = .syncStart) :
    ∃ fired, Ready w.masterFd { w with outcomes := s.outcomes, fired := fired }
      ∧ s.run w = syncStartCase w.masterFd { w with outcomes := s.outcomes, fired := fired } := by
  obtain ⟨fired, hready, hrun⟩ := hcalls.master h
  refine ⟨fired, hready _, (hrun s.outcomes).trans ?_⟩
  rw [readFromMaster, run_get_bind]
  simp only [hstate]

/-- **A header that fits is parsed safely.** -/
theorem parsedSafely_of_fits (h : HeaderFits S) : ParsedSafely S := by
  intro w s hreach hcalls hstate hS
  obtain ⟨fired, hready, hself⟩ := hcalls.syncStart hreach hstate
  have hne : w.state ≠ .sync := by
    rw [hstate]
    decide
  -- the loop takes the line of the stream
  have hloop := @headerLoop_parses w.masterFd [] (unfed S) _ hready hne List.not_mem_nil
    (congrArg unfed hS) h.room
  have hcase : Triple (· = { w with outcomes := s.outcomes, fired := fired })
      (syncStartCase w.masterFd)
      (fun _ u => u.state = .sync → 0 ≤ u.bulkSize ∧ PayloadFits u.masterFd u)
      (fun e _ => e ≠ .fault) := by
    rintro v rfl
    rw [syncStartCase_eq]
    refine Triple.bind hloop (fun got => ?_) _ rfl
    cases got with
    | none => exact Triple.pure fun u hu hsync => absurd hsync hu
    | some line =>
      refine Triple.ite (fun _ => Triple.throw fun _ _ => by decide) fun hminus => ?_
      -- a line with a length: the number is in range, and so is every read of the payload
      refine Triple.modify fun u hu _ => ?_
      obtain ⟨hlf, rfl, hu⟩ := hu
      have hnn : 0 ≤ int64 (strtoull (headerLine S).tail) :=
        (int64_nonneg (strtoull_lt _)).mpr (h.number hlf hminus)
      have hbig := int64_lt (strtoull (headerLine S).tail)
      have hsize := (payloadSize_le_iff (by omega) hbig).mpr hnn
      have hself : Ready u.masterFd u := by
        rw [hu.master]
        exact hu
      exact ⟨hnn, hsize, fun o => payloadLoop_within (hself.same rfl rfl rfl) hnn hbig
        ⟨[], (List.append_nil _).symm, by simp [readFrom]⟩⟩
  constructor
  · intro u hu
    rw [hself] at hu
    exact hcase.error rfl hu rfl
  · intro u hu
    rw [hself] at hu
    exact hcase.ok rfl hu

/-! ## A header that does not fit -/

/-- The outcomes of reads and writes that deliver `T` byte by byte. -/
def deliver (T : Bytes) : Outcomes :=
  { Outcomes.none with
    reads := T.map fun b => .ok (b, [])
    writes := T.map fun _ => .ok 0 }

/-- The sample outcomes deliver their bytes. -/
theorem delivered_deliver (T : Bytes) : delivered (deliver T).reads = T := by
  induction T with
  | nil => rfl
  | cons b T ih =>
    show b :: delivered (deliver T).reads = _
    rw [ih]

/-- What the loop over the header comes to when all its bytes are read and passed on. -/
theorem headerLoop_deliver {T : Bytes} (h : Ready m w) (hclient : w.clientFd ≠ -1)
    (hreads : w.outcomes.reads = (deliver T).reads)
    (hwrites : w.outcomes.writes = (deliver T).writes) (hline : Byte.lf ∉ line)
    (hlen : line.length ≤ maxRead) (hU : header line T = U) :
    (¬(U.length ≤ maxRead ∨ (U.takeWhile (· ≠ Byte.lf)).length < maxRead) →
        ∃ u, headerLoop m line w = .error .fault u)
      ∧ (U.length ≤ maxRead ∨ (U.takeWhile (· ≠ Byte.lf)).length < maxRead → Byte.lf ∈ U →
        ∃ u, headerLoop m line w = .ok (some (U.takeWhile (· ≠ Byte.lf))) u) := by
  induction T generalizing w line with
  | nil =>
    -- nothing left of the stream: the line so far is all there is
    have hnone : U = line := by
      rw [← hU, header]
      split
      · next hnil => rw [hnil]; rfl
      · exact List.append_nil line
    subst hnone
    exact ⟨fun hfull => absurd (Or.inl hlen) hfull, fun _ hmem => absurd hmem hline⟩
  | cons b T ih =>
    have hreads' : w.outcomes.reads = .ok (b, []) :: (deliver T).reads := hreads
    have hwrites' : w.outcomes.writes = .ok 0 :: (deliver T).writes := hwrites
    -- every write of `deliver` takes the one byte
    have hsend : sendAll w.outcomes.writes [b] = ([[b]], .all, (deliver T).writes) := by
      rw [hwrites']
      simp [sendAll]
    rw [headerLoop_eq h, hreads']
    simp only [hsend, if_neg hclient]
    have hsent : Ready m
        (((w.leftReads (deliver T).reads).log [.read m [b]]).sent w.clientFd [b]) :=
      h.same rfl rfl rfl
    have hleft : (((w.leftReads (deliver T).reads).log [.read m [b]]).sent
        w.clientFd [b]).outcomes.writes = (deliver T).writes := congrArg (·.2.2) hsend
    have hgo := fun line => @ih line _ hsent hclient rfl hleft
    by_cases hfull : line.length ≥ maxRead
    · -- the byte is stored behind the buffer
      have hroom := hU ▸ @room_of_full line b T hline hfull
      rw [if_pos hfull]
      exact ⟨fun _ => ⟨_, rfl⟩, fun h => absurd h hroom⟩
    rw [if_neg hfull]
    by_cases hb : b = Byte.lf
    · subst hb
      by_cases hnil : line = []
      · subst hnil
        rw [if_pos rfl, if_neg (by simp)]
        exact hgo [] hline hlen hU
      · rw [if_pos rfl, if_pos hnil]
        -- the line is complete at its newline
        have htake := hU ▸ (header_end hline hnil T).2
        rw [htake]
        exact ⟨fun h => absurd (Or.inr (by omega)) h, fun _ _ => ⟨_, rfl⟩⟩
    · rw [if_neg hb]
      rw [header_cons hb] at hU
      refine hgo _ ?_ ?_ hU
      · simp [hline, Ne.symm hb]
      · rw [List.length_append, List.length_singleton]
        omega

/-- A header that does not fit is not parsed safely, in some state and for some outcomes. -/
theorem fits_of_parsedSafely (h : ParsedSafely S) : HeaderFits S := by
  obtain ⟨w, u, hreach, hcalls, hstate, hclient, -⟩ := Waiting.exists_wait
  have hcalls' : Step.Calls ⟨.file, deliver S⟩ w .readFromMaster := hcalls
  obtain ⟨hfault, hsize⟩ := h w ⟨.file, deliver S⟩ hreach hcalls' hstate (delivered_deliver S)
  obtain ⟨fired, hready, hself⟩ := hcalls'.syncStart hreach hstate
  rw [syncStartCase_eq] at hself
  obtain ⟨hfull, hend⟩ := @headerLoop_deliver w.masterFd [] (unfed S) _ S hready hclient rfl rfl
    List.not_mem_nil (by decide) rfl
  have hroom : (unfed S).length ≤ maxRead ∨ (headerLine S).length < maxRead := by
    by_contra hno
    obtain ⟨v, hv⟩ := hfull hno
    exact hfault v (hself.trans (run_bind_error hv))
  refine ⟨hroom, fun hlf hminus => ?_⟩
  obtain ⟨v, hv⟩ := hend hroom hlf
  rw [run_bind_ok hv] at hself
  simp only [show ¬((unfed S).takeWhile (· ≠ Byte.lf)).head? = some Byte.minus from hminus,
    if_false] at hself
  exact (int64_nonneg (strtoull_lt _)).mp (hsize _ hself rfl).1

/-- **The header is parsed safely** exactly if it fits. -/
theorem parsedSafely_iff (S : Bytes) : ParsedSafely S ↔ HeaderFits S :=
  ⟨fits_of_parsedSafely, parsedSafely_of_fits⟩

/-- The header `"$-1"` makes `bulk_size` negative. -/
theorem not_parsedSafely : ¬∀ S, ParsedSafely S := by
  intro h
  have hnumber := (fits_of_parsedSafely (h [36, 45, 49, 13, 10])).number (by decide) (by decide)
  revert hnumber
  decide

end Iceberg
