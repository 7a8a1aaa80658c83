import Iceberg.Proxy.SyncRounds
import Iceberg.Proxy.Transfer

/-!
# The payload of a synchronisation

The two loops of `readFromMaster` cut the stream of a transfer exactly: nothing of the payload
is scanned, and scanning starts with the first byte behind it. The other callbacks leave the
transfer as it is, unless the slave asks for another one.
-/

namespace Iceberg

open Triples

variable {m c fd : Int} {t : List Event} {R F X bs stream : Bytes} {w w' : World} {T : Transfer}

/-! ## The loops -/

/-- A round of the loop over the header. -/
theorem syncHeader_round {fuel : Nat} {line : Bytes} (h : Linked m c w) :
    syncHeader m (fuel + 1) line w = match w.outcomes.reads with
      | [] => .error .reading w
      | .error e :: reads =>
        if again e then syncHeader m fuel line (w.leftReads reads)
        else .ok none (w.leftReads reads).closeFd
      | .ok (b, _) :: reads =>
        let v := (w.leftReads reads).log [.read m [b]]
        if line.length ≥ maxRead then .error .fault v
        else match (sendAll w.outcomes.writes [b]).2.1 with
          | .all =>
            (if b = Byte.lf then
              if line ≠ [] then pure (some line) else syncHeader m fuel line
            else syncHeader m fuel (line ++ [b])) (v.sent c [b])
          | .waiting => .error .writing (v.sent c [b])
          | .failed => .ok none (v.sent c [b]).closeFd := by
  rw [syncHeader_ready h.ready, h.client]
  simp only [if_neg h.clientUp]
  cases w.outcomes.reads with
  | nil => rfl
  | cons r reads =>
    cases r with
    | error e => rfl
    | ok got =>
      simp only
      split
      · rfl
      · cases (sendAll w.outcomes.writes [got.1]).2.1 with
        | waiting => rfl
        | failed => rfl
        | all =>
          simp only
          split
          · split <;> rfl
          · rfl

/-- A round of the loop over the payload. -/
theorem syncPayload_round {fuel : Nat} (h : Linked m c w) :
    syncPayload m (fuel + 1) w =
      if w.bulkSize = 0 then .ok ⟨⟩ { w with state := .running }
      else match w.outcomes.reads with
        | [] => .error .reading w
        | .error e :: reads =>
          if again e then syncPayload m fuel (w.leftReads reads)
          else .ok ⟨⟩ (w.leftReads reads).closeFd
        | .ok (b, bs) :: reads =>
          let got := (b :: bs).take (payloadSize w.bulkSize)
          let v := (w.leftReads reads).log [.read m got]
          if got = [] then syncPayload m fuel v
          else if got.length > maxRead then .error .fault v
          else match (sendAll w.outcomes.writes got).2.1 with
            | .all =>
              syncPayload m fuel { v.sent c got with bulkSize := w.bulkSize - got.length }
            | .waiting => .error .writing (v.sent c got)
            | .failed => .ok ⟨⟩ (v.sent c got).closeFd := by
  rw [syncPayload_ready h.ready, h.client]
  cases w.outcomes.reads with
  | nil => rfl
  | cons r reads =>
    cases r with
    | error e => rfl
    | ok got =>
      dsimp only
      rewrite [if_neg h.clientUp]
      rfl

/-! ## Framing -/

/-- A callback waits in `read` or `write`. -/
def Waits (stop : Option Stop) : Prop := stop = some .reading ∨ stop = some .writing

/-- Where the proxy is in the transfer when it has read `R`, passed on `F` and scanned `X`,
between the callbacks or, with `stop`, in one: the state tells the part of the transfer,
and `bulk_size` the bytes of the payload that are not passed on, but for a write under way.
A header or a payload is broken off only to wait. -/
def Framed (T : Transfer) (R F X : Bytes) (stop : Option Stop) (w : World) : Prop :=
  match w.state with
  | .start => False
  | .syncStart => X = [] ∧ F <+: R ∧ R.length ≤ T.head.length ∧ F.length < T.head.length
      ∧ (¬ Waits stop → R = [])
  | .sync => X = [] ∧ F <+: R ∧ T.head.length ≤ F.length
      ∧ R.length ≤ T.head.length + T.payload.length
      ∧ (T.payload = [] ∨ F.length < T.head.length + T.payload.length)
      ∧ 0 ≤ w.bulkSize
      ∧ (T.head.length + T.payload.length : Int) ≤ F.length + w.bulkSize
      ∧ (F = R → F.length + w.bulkSize = T.head.length + T.payload.length)
      ∧ (¬ Waits stop → R = F ∧ R.length = T.head.length)
  | .running => T.head ++ T.payload <+: F ∧ T.head.length + T.payload.length ≤ R.length
      ∧ X = R.drop (T.head.length + T.payload.length)

/-- A stop in the transfer. -/
def Halts (T : Transfer) (m : Int) (t : List Event) (e : Stop) (w : World) : Prop :=
  Gone T.stream m t w
    ∨ ∃ R F X, Streams m t R F X w ∧ R <+: T.stream ∧ Framed T R F X (some e) w

theorem keeps_gone_readData (fd : Int) (size : Nat) :
    Keeps (Gone stream m t) (Gone stream m t) (readData fd size) :=
  keeps_readData_of_grows Gone.grows fd size

theorem keeps_gone_writeData (fd : Int) (bs : Bytes) :
    Keeps (Gone stream m t) (Gone stream m t) (writeData fd bs) :=
  keeps_writeData_of_grows Gone.grows fd bs

/-! ## The header -/

/-- The header has been read as far as `R`, and `line` is what of it is in the buffer. -/
structure Heading (T : Transfer) (R line : Bytes) (w : World) : Prop where
  state : w.state = .syncStart
  agrees : R <+: T.stream
  unbroken : Byte.lf ∉ Transfer.unfed R
  line : line = Transfer.unfed R

theorem Heading.same (h : Heading T R bs w) (hstate : w'.state = w.state) : Heading T R bs w' :=
  ⟨hstate.trans h.state, h.agrees, h.unbroken, h.line⟩

/-- A callback that waits inside the header stops there. -/
theorem Heading.halts {line : Bytes} (h : Heading T R line w) (hs : Streams m t R R [] w) :
    Halts T m t .reading w := by
  refine Or.inr ⟨R, R, [], hs, h.agrees, ?_⟩
  have hlen := (Transfer.length_of_unbroken h.agrees h.unbroken).1
  unfold Framed
  rw [h.state]
  exact ⟨rfl, List.prefix_refl _, Nat.le_of_lt hlen, hlen, fun hw => absurd (Or.inl rfl) hw⟩

/-- The header is complete. -/
def Headed (T : Transfer) (m c : Int) (t : List Event) (w : World) : Prop :=
  ∃ R, Linked m c w ∧ Streams m t R R [] w ∧ R <+: T.stream ∧ R.length = T.head.length

/-- **The loop over the header.** It returns the line of the transfer when the whole header has
been read and passed on, or the transfer is gone. Induction on the rounds, one byte each. -/
theorem syncHeader_frames (fuel : Nat) (line : Bytes) :
    Triple (fun w => Linked m c w ∧ Streams m t R R [] w ∧ Heading T R line w
        ∧ w.outcomes.reads.length < fuel) (syncHeader m fuel line)
      (fun got w => Gone T.stream m t w ∨ (got = some T.line ∧ Headed T m c t w))
      (Halts T m t) := by
  induction fuel generalizing R line with
  | zero => exact Triple.throw fun w h => absurd h.2.2.2 (Nat.not_lt_zero _)
  | succ fuel ih =>
    rintro w ⟨hl, hs, hhead, hfuel⟩
    -- once the master has sent something else, everything goes
    have hgone : ∀ line, Keeps (Gone T.stream m t) (Gone T.stream m t) (syncHeader m fuel line) :=
      keeps_syncHeader (fun _ h => h) (.of_keeps keeps_gone_writeData _) (keeps_gone_readData m)
        fuel
    rw [syncHeader_round hl]
    cases hr : w.outcomes.reads with
    -- nothing left to read: the header stops in the middle of a read
    | nil => exact hhead.halts hs
    | cons r reads =>
      rw [hr] at hfuel
      cases r with
      | error e =>
        simp only
        -- `EAGAIN` and `EINTR` read again, any other error gives the master up
        cases again e with
        | true =>
          exact ih line (w.leftReads reads) ⟨hl.same rfl rfl rfl rfl, hs.same rfl, hhead.same rfl,
            Nat.lt_of_succ_lt_succ hfuel⟩
        | false => exact Or.inl hs.left.closed.gone
      | ok got =>
        obtain ⟨b, rest⟩ := got
        have hl : Linked m c ((w.leftReads reads).log [.read m [b]]) := hl.same rfl rfl rfl rfl
        have hs : Streams m t (R ++ [b]) R [] ((w.leftReads reads).log [.read m [b]]) :=
          hs.readMaster
        have hhead : Heading T R line ((w.leftReads reads).log [.read m [b]]) := hhead.same rfl
        have hleft : ((w.leftReads reads).log [.read m [b]]).outcomes.reads.length < fuel :=
          Nat.lt_of_succ_lt_succ hfuel
        have hwrites : w.outcomes.writes
          = ((w.leftReads reads).log [.read m [b]]).outcomes.writes := rfl
        simp only
        rw [hwrites]
        -- from here on only the world behind the read matters
        generalize ((w.leftReads reads).log [.read m [b]]) = v at hl hs hhead hleft ⊢
        have hsent := hs.sentOther [b] hl.distinct.symm
        rcases Decidable.em (R ++ [b] <+: T.stream) with hR | hR
        · -- the byte is the next one of the transfer, and the line still fits the buffer
          have hlen := Transfer.length_of_unbroken hhead.agrees hhead.unbroken
          have hshort := T.short
          rw [Transfer.length_line, ← hhead.line] at hlen
          rw [if_neg (by omega)]
          cases hend : (sendAll v.outcomes.writes [b]).2.1 with
          | failed => exact Or.inl hsent.closed.gone
          | waiting =>
            -- the slave took no byte: what was read is one ahead of what was passed on
            have hless := sendAll_waiting hend
            refine Or.inr ⟨_, _, _, hsent, hR, ?_⟩
            have hstate : (v.sent c [b]).state = .syncStart := hhead.state
            unfold Framed
            rw [hstate]
            refine ⟨rfl, (List.prefix_append_right_inj R).mpr (sendAll_begins _ _), ?_, ?_,
              fun hw => absurd (Or.inr rfl) hw⟩
            · rw [List.length_append]
              exact hlen.1
            · rw [List.length_append]
              simp only [List.length_singleton] at hless
              omega
          | all =>
            rw [sendAll_all hend] at hsent
            have hlsent : Linked m c (v.sent c [b]) := hl.same rfl rfl rfl rfl
            simp only
            rcases Decidable.em (b = Byte.lf) with rfl | hb
            · rcases Decidable.em (line = []) with hline | hline
              · -- an empty line is the master's ping, and the loop goes on with an empty line
                rw [if_pos rfl, if_neg (not_not_intro hline)]
                have hnil : Transfer.unfed (R ++ [Byte.lf]) = [] :=
                  Transfer.unfed_feed (hhead.line ▸ hline)
                refine ih line _ ⟨hlsent, hsent, ⟨hhead.state, hR, ?_, ?_⟩, hleft⟩
                · rw [hnil]
                  exact List.not_mem_nil
                · rw [hnil, hline]
              · rw [if_pos rfl, if_pos hline]
                -- the first line that is not empty is the line of the transfer
                obtain ⟨hcomplete, hlength⟩ := Transfer.line_of_prefix hR hhead.unbroken
                  (hhead.line ▸ hline)
                rw [← hhead.line] at hcomplete
                exact Or.inr ⟨congrArg some hcomplete, _, hlsent, hsent, hR, hlength⟩
            · rw [if_neg hb]
              -- inside the line: the byte joins it
              have hmore : Transfer.unfed (R ++ [b]) = line ++ [b] := by
                rw [Transfer.unfed_concat hb, hhead.line]
              refine ih _ _ ⟨hlsent, hsent, ⟨hhead.state, hR, ?_, hmore.symm⟩, hleft⟩
              rw [hmore, List.mem_append, List.mem_singleton, hhead.line]
              exact fun h => h.elim hhead.unbroken (Ne.symm hb)
        · -- the master sent something else, and whatever follows keeps it so
          have hv : Gone T.stream m t v := hs.gone hR
          have hvsent : Gone T.stream m t (v.sent c [b]) := hsent.gone hR
          rcases Decidable.em (line.length ≥ maxRead) with hline | hline
          · rw [if_pos hline]
            exact Or.inl hv
          rw [if_neg hline]
          cases (sendAll v.outcomes.writes [b]).2.1 with
          | failed => exact Or.inl hsent.closed.gone
          | waiting => exact Or.inl hvsent
          | all =>
            have hkeeps : Keeps (Gone T.stream m t) (Gone T.stream m t) (if b = Byte.lf then
                if line ≠ [] then pure (some line) else syncHeader m fuel line
              else syncHeader m fuel (line ++ [b])) :=
              Keeps.ite (Keeps.ite Keeps.pure (hgone _)) (hgone _)
            exact hkeeps.conseq (fun _ => id) (fun _ _ => Or.inl) (fun _ _ => Or.inl) _ hvsent

/-- Between the callbacks: the connections are there, and the transfer has got somewhere. -/
def Follows (T : Transfer) (m : Int) (t : List Event) (w : World) : Prop :=
  Gone T.stream m t w ∨ (w.masterFd = m ∧ w.clientFd ≠ -1
    ∧ ∃ R F X, Streams m t R F X w ∧ R <+: T.stream ∧ Framed T R F X none w)

/-- **The case for the header** ends in front of the payload, with its length in `bulk_size`. -/
theorem syncStartCase_frames :
    Triple (fun w => Linked m c w ∧ Streams m t [] [] [] w ∧ w.state = .syncStart)
      (syncStartCase m) (fun _ => Follows T m t) (Halts T m t) := by
  rintro w ⟨hl, hs, hstate⟩
  have hhead : Heading T [] [] w := ⟨hstate, List.nil_prefix, List.not_mem_nil, rfl⟩
  unfold syncStartCase
  rw [run_get_bind]
  refine Triple.bind (syncHeader_frames _ []) (fun got => ?_) w
    ⟨hl, hs, hhead, Nat.lt_succ_self _⟩
  cases got with
  -- no line: only a transfer that is gone returns none
  | none =>
    refine Triple.or (Triple.pure fun _ => Or.inl) ?_
    rintro v ⟨hnone, -⟩
    cases hnone
  | some line =>
  -- a line after the transfer is gone, or the line of the transfer
  refine Triple.or (Triple.ite (fun _ => Triple.throw fun _ => Or.inl)
    fun _ => Triple.modify fun w h => Or.inl (h.grows w _ (List.prefix_refl _))) ?_
  rintro v ⟨hline, R, hl, hs, hR, hlen⟩
  cases hline
  have hdollar : T.line.head? ≠ some Byte.minus := by
    show some Byte.dollar ≠ _
    decide
  simp only [if_neg hdollar]
  refine Or.inr ⟨hl.master, hl.client ▸ hl.clientUp, R, R, [], hs.same rfl, hR, ?_⟩
  -- the length the code reads is that of the payload
  have hbulk : int64 (strtoull T.line.tail) = T.payload.length := Transfer.strtoull_line
  refine ⟨rfl, List.prefix_refl _, Nat.le_of_eq hlen.symm, by omega, ?_, ?_, ?_, fun _ => ?_,
    fun _ => ⟨rfl, hlen⟩⟩
  · cases T.payload with
    | nil => exact Or.inl rfl
    | cons b bs => exact Or.inr (by simp only [List.length_cons]; omega)
  all_goals
    simp only [hbulk]
    omega

/-! ## The payload -/

/-- The payload has been read as far as `R`. -/
structure Loading (T : Transfer) (R : Bytes) (w : World) : Prop where
  state : w.state = .sync
  agrees : R <+: T.stream
  headed : T.head.length ≤ R.length
  left : (R.length + w.bulkSize : Int) = T.head.length + T.payload.length
  nonneg : 0 ≤ w.bulkSize

theorem Loading.same (h : Loading T R w) (hstate : w'.state = w.state)
    (hbulk : w'.bulkSize = w.bulkSize) : Loading T R w' :=
  ⟨hstate.trans h.state, h.agrees, h.headed, hbulk ▸ h.left, hbulk ▸ h.nonneg⟩

/-- A callback that waits inside the payload stops there. -/
theorem Loading.halts (h : Loading T R w) (hs : Streams m t R R [] w) (hmore : w.bulkSize ≠ 0) :
    Halts T m t .reading w := by
  obtain ⟨hstate, hR, hhead, hleft, hnn⟩ := h
  refine Or.inr ⟨R, R, [], hs, hR, ?_⟩
  unfold Framed
  rw [hstate]
  exact ⟨rfl, List.prefix_refl _, hhead, by omega, Or.inr (by omega), hnn, Int.le_of_eq hleft.symm,
    fun _ => hleft, fun hw => absurd (Or.inl rfl) hw⟩

/-- When enough has been read, header and payload have. -/
theorem Transfer.prefix_of_length {R : Bytes} (h : R <+: T.stream)
    (hlen : T.head.length + T.payload.length ≤ R.length) : T.head ++ T.payload <+: R := by
  refine List.prefix_of_prefix_length_le ?_ h (by rwa [List.length_append])
  rw [stream, ← List.append_assoc]
  exact List.prefix_append _ _

/-- The size that is asked for is positive and fits both the buffer and what is left of the
payload. -/
theorem payloadSize_bounds {bulkSize : Int} (hpos : 0 < bulkSize) (hbig : bulkSize < 2 ^ 63) :
    0 < payloadSize bulkSize ∧ (payloadSize bulkSize : Int) ≤ bulkSize
      ∧ payloadSize bulkSize ≤ maxRead := by
  unfold payloadSize
  split
  · exact ⟨by decide, by omega, Nat.le_refl _⟩
  · omega

/-- **The loop over the payload.** It ends when the payload has been passed on to its last byte.
Induction on the rounds. -/
theorem syncPayload_frames (fuel : Nat) :
    Triple (fun w => Linked m c w ∧ Streams m t R R [] w ∧ Loading T R w
        ∧ w.outcomes.reads.length < fuel) (syncPayload m fuel)
      (fun _ => Follows T m t) (Halts T m t) := by
  induction fuel generalizing R with
  | zero => exact Triple.throw fun w h => absurd h.2.2.2 (Nat.not_lt_zero _)
  | succ fuel ih =>
    rintro w ⟨hl, hs, hload, hfuel⟩
    have hgone : Keeps (Gone T.stream m t) (Gone T.stream m t) (syncPayload m fuel) :=
      keeps_syncPayload (fun _ h => h) (.of_keeps keeps_gone_writeData _) (keeps_gone_readData m)
        (stable_of_grows Gone.grows).settable.stateless fuel
    rw [syncPayload_round hl]
    rcases Decidable.em (w.bulkSize = 0) with hdone | hmore
    · rw [if_pos hdone]
      -- nothing left: the stream stands exactly behind the payload
      have hall : T.head.length + T.payload.length = R.length := by
        have := hload.left
        omega
      refine Or.inr ⟨hl.master, hl.client ▸ hl.clientUp, R, R, [], hs.same rfl, hload.agrees,
        T.prefix_of_length hload.agrees (by omega), by omega, ?_⟩
      rw [hall, List.drop_length]
    rw [if_neg hmore]
    cases hr : w.outcomes.reads with
    | nil => exact hload.halts hs hmore
    | cons r reads =>
      rw [hr] at hfuel
      -- the bounds on `bulk_size`, for the arithmetic below
      have hfits := T.fits
      rw [← T.length_payload] at hfits
      have hheaded := hload.headed
      have hrest := hload.left
      have hnn := hload.nonneg
      obtain ⟨hpos, hle, hbuf⟩ := payloadSize_bounds (show 0 < w.bulkSize by omega) (by omega)
      cases r with
      | error e =>
        simp only
        cases again e with
        | true =>
          exact ih (w.leftReads reads) ⟨hl.same rfl rfl rfl rfl, hs.same rfl, hload.same rfl rfl,
            Nat.lt_of_succ_lt_succ hfuel⟩
        | false => exact Or.inl hs.left.closed.gone
      | ok got =>
        obtain ⟨b, rest⟩ := got
        simp only
        -- a read is never empty and never longer than what is still missing
        have hsize : ((b :: rest).take (payloadSize w.bulkSize)).length ≤ payloadSize w.bulkSize :=
          List.length_take_le _ _
        have hne : (b :: rest).take (payloadSize w.bulkSize) ≠ [] := by
          intro hnil
          have := congrArg List.length hnil
          rw [List.length_take, List.length_cons, List.length_nil] at this
          omega
        generalize (b :: rest).take (payloadSize w.bulkSize) = got at hsize hne ⊢
        have hl : Linked m c ((w.leftReads reads).log [.read m got]) := hl.same rfl rfl rfl rfl
        have hs : Streams m t (R ++ got) R [] ((w.leftReads reads).log [.read m got]) :=
          hs.readMaster
        have hleft : ((w.leftReads reads).log [.read m got]).outcomes.reads.length < fuel :=
          Nat.lt_of_succ_lt_succ hfuel
        have hwrites : w.outcomes.writes
          = ((w.leftReads reads).log [.read m got]).outcomes.writes := rfl
        rw [if_neg hne, if_neg (by omega), hwrites]
        have hload : Loading T R ((w.leftReads reads).log [.read m got]) := hload.same rfl rfl
        have hbulk : w.bulkSize = ((w.leftReads reads).log [.read m got]).bulkSize := rfl
        have hgot : (got.length : Int) ≤ w.bulkSize := by omega
        rw [hbulk] at hmore hgot ⊢
        generalize ((w.leftReads reads).log [.read m got]) = v at hl hs hload hleft hmore hgot ⊢
        have hsent := hs.sentOther got hl.distinct.symm
        cases hend : (sendAll v.outcomes.writes got).2.1 with
        | failed => exact Or.inl hsent.closed.gone
        | waiting =>
          -- the slave takes only a part: read and passed on differ until the master is given up
          rcases Decidable.em (R ++ got <+: T.stream) with hR | hR
          · have hless := sendAll_waiting hend
            obtain ⟨hstate, -, hhead, hrest, hnn⟩ := hload
            refine Or.inr ⟨_, _, _, hsent, hR, ?_⟩
            have hstate : (v.sent c got).state = .sync := hstate
            have hsame : (v.sent c got).bulkSize = v.bulkSize := rfl
            unfold Framed
            rw [hstate]
            simp only [List.length_append, hsame]
            refine ⟨trivial, (List.prefix_append_right_inj R).mpr (sendAll_begins _ _), by omega,
              by omega, Or.inr (by omega), hnn, by omega, fun heq => ?_,
              fun hw => absurd (Or.inr rfl) hw⟩
            -- not all of it has been written
            rw [List.append_cancel_left heq] at hless
            omega
          · exact Or.inl (hsent.gone hR)
        | all =>
          rw [sendAll_all hend] at hsent
          rcases Decidable.em (R ++ got <+: T.stream) with hR | hR
          · -- all of the chunk is passed on, and `bulk_size` goes down by its length
            refine ih _ ⟨hl.same rfl rfl rfl rfl, hsent.same rfl,
              ⟨hload.state, hR, ?_, ?_, ?_⟩, hleft⟩
            · rw [List.length_append]
              exact Nat.le_trans hload.headed (Nat.le_add_right _ _)
            · have := hload.left
              have hsame : (v.sent c got).bulkSize = v.bulkSize := rfl
              simp only [List.length_append]
              omega
            · show 0 ≤ v.bulkSize - got.length
              omega
          · exact hgone.conseq (fun _ => id) (fun _ _ => Or.inl) (fun _ _ => Or.inl) _
              ((hsent.same rfl).gone hR)

/-! ## The commands -/

/-- The payload has been passed on, and `X` of what was read has been scanned. -/
def Scanning (T : Transfer) (m c : Int) (t : List Event) (R X : Bytes) (w : World) : Prop :=
  Gone T.stream m t w ∨ (Linked m c w ∧ w.state = .running
    ∧ ∃ F, T.head ++ T.payload <+: F ∧ Streams m t R F X w)

/-- Behind the payload, what has been scanned are the commands. -/
theorem Scanning.follows (h : Scanning T m c t R X w) (hR : R <+: T.stream)
    (hlen : T.head.length + T.payload.length ≤ R.length)
    (hX : X = R.drop (T.head.length + T.payload.length)) : Follows T m t w := by
  refine h.imp_right fun ⟨hl, hstate, F, hF, hs⟩ => ?_
  refine ⟨hl.master, hl.client ▸ hl.clientUp, R, F, X, hs, hR, ?_⟩
  unfold Framed
  rw [hstate]
  exact ⟨hF, hlen, hX⟩

/-- What holds between the callbacks holds at their stops. -/
theorem Framed.stopped {stop : Option Stop} (h : Framed T R F X none w)
    (hstate : w'.state = w.state) (hbulk : w'.bulkSize = w.bulkSize) :
    Framed T R F X stop w' := by
  have hnone : ¬ Waits none := by
    rintro (h | h) <;> cases h
  unfold Framed at h ⊢
  rw [hstate, hbulk]
  cases hw : w.state with
  | start => simp only [hw] at h
  | syncStart =>
    simp only [hw] at h ⊢
    obtain ⟨hX, hF, hR, hlt, hrest⟩ := h
    exact ⟨hX, hF, hR, hlt, fun _ => hrest hnone⟩
  | sync =>
    simp only [hw] at h ⊢
    obtain ⟨hX, hF, hhead, hR, hlt, hnn, hle, heq, hrest⟩ := h
    exact ⟨hX, hF, hhead, hR, hlt, hnn, hle, heq, fun _ => hrest hnone⟩
  | running =>
    simp only [hw] at h ⊢
    exact h

theorem Follows.halts {e : Stop} (h : Follows T m t w) : Halts T m t e w :=
  h.imp_right fun ⟨_, _, R, F, X, hs, hR, hframed⟩ => ⟨R, F, X, hs, hR, hframed.stopped rfl rfl⟩

/-- **A query** in the commands belongs to the scan: it writes to neither of the two ends. -/
theorem queryKey_scanning (place : Int) (key : Key) :
    Keeps (Scanning T m c t R X) (Scanning T m c t R X) (queryKey place key) := by
  refine Triple.or ?_ ?_
  · exact (keeps_queryKey (J := Gone T.stream m t) keeps_gone_writeData
      (stable_of_grows Gone.grows).scannable place key).conseq
        (fun _ => id) (fun _ _ => Or.inl) fun _ _ => Or.inl
  · rintro w ⟨hl, hstate, F, hF, hs⟩
    have hkeep : Scanning T m c t R X w := Or.inr ⟨hl, hstate, F, hF, hs⟩
    have hm := hl.masterFd_ne
    -- no connection to redis-server: the query is dropped
    rcases Decidable.em (w.readFd = -1) with hr | hr
    · rw [queryKey_none hm hr]
      exact hkeep
    obtain ⟨hin, hrm, -⟩ := hl.reader.resolve_left hr
    rw [queryKey_open hm hr hin]
    cases w.answers.q.isFull with
    | true => exact hkeep
    | false =>
      -- what is written goes to redis-server, neither side of the transfer
      have hsent := hs.sentOther (Scan.queryCmd key) hrm
      have hkeep : ∀ v, v.masterFd = w.masterFd → v.clientFd = w.clientFd → v.readFd = w.readFd →
          v.fds = w.fds → v.state = w.state →
          Streams m t R (F ++ (sendAll w.outcomes.writes (Scan.queryCmd key)).1.flatten) X v →
          Scanning T m c t R X v :=
        fun v hmaster hclient hreader hfds hv hs => Or.inr ⟨hl.same hmaster hclient hreader hfds,
          hv.trans hstate, _, hF.trans (List.prefix_append _ _), hs⟩
      rw [if_neg (by decide)]
      cases (sendAll w.outcomes.writes (Scan.queryCmd key)).2.1 with
      | all =>
        refine hkeep _ rfl rfl rfl rfl rfl (hsent.aside [.asked place key] rfl
          fun e he => ?_)
        exact Or.inr (Or.inr ⟨place, key, List.mem_singleton.mp he⟩)
      | waiting => exact hkeep _ rfl rfl rfl rfl rfl hsent
      | failed => exact Or.inl hsent.closed.gone

/-- The acts of a scan. Induction on them. -/
theorem performScan_scanning (base : Int) (acts : List Scan.Act) :
    Keeps (Scanning T m c t R X) (Scanning T m c t R X) (performScan base acts) := by
  induction acts with
  | nil => exact Keeps.pure
  | cons act acts ih =>
    cases act with
    | query start key => exact (queryKey_scanning _ _).bind fun _ => ih
    | save buf =>
      refine Keeps.bind (Keeps.modify fun w h => ?_) fun _ => ih
      exact h.imp (fun h => h.grows _ _ (List.prefix_refl _))
        fun ⟨hl, hstate, F, hF, hs⟩ => ⟨hl.same rfl rfl rfl rfl, hstate, F, hF, hs.same rfl⟩

/-- **The scan** adds its chunk to what has been scanned. -/
theorem processInputBuffer_scanning (data : WData) :
    Triple (Scanning T m c t R X) (processInputBuffer data)
      (fun _ => Scanning T m c t R (X ++ data.data))
      (fun _ => Scanning T m c t R (X ++ data.data)) := by
  refine Triple.bind Triple.get fun v => Triple.pre (P := Scanning T m c t R X) ?_ fun _ h => h.2
  refine Triple.bind (R := fun _ => Scanning T m c t R (X ++ data.data))
    (Triple.modify fun w h => ?_) fun _ => Keeps.bind (performScan_scanning _ _) fun _ => ?_
  · refine h.imp (fun h => h.grows _ _ (List.prefix_append _ _))
      fun ⟨hl, hstate, F, hF, hs⟩ => ⟨hl.same rfl rfl rfl rfl, hstate, F, hF, ?_⟩
    have hlog : Streams m t _ _ _ { w with
        bufMasterCmd := []
        seen := w.seen + data.data.length
        trace := w.trace ++ [Event.scanned data.data] } :=
      hs.log [.scanned data.data] rfl (by simp)
    simpa [readFrom, writtenPast, scannedIn] using hlog
  · cases (Scan.processInputBuffer v.bufMasterCmd data).2 with
    | done | unexpected => exact Keeps.pure
    | exit | crash | hang => exact Keeps.throw fun _ h => h

/-- To pass the chunk on to the slave adds to what has been passed on. -/
theorem writeClient_scanning :
    Keeps (Scanning T m c t R X) (Scanning T m c t R X) (do
      let w ← get
      discard (writeData w.clientFd bs)) := by
  refine Triple.or ?_ ?_
  · have hkeep : Keeps (Gone T.stream m t) (Gone T.stream m t) (do
        let w ← get
        discard (writeData w.clientFd bs)) :=
      Keeps.get fun w => (keeps_gone_writeData _ _).discard
    exact hkeep.conseq (fun _ => id) (fun _ _ => Or.inl) (fun _ _ => Or.inl)
  · rintro w ⟨hl, hstate, F, hF, hs⟩
    have hwrite : Triple (· = w) (writeData c bs) (fun _ => Scanning T m c t R X)
        (fun _ => Scanning T m c t R X) := by
      rintro v rfl
      have hsent := hs.sentOther bs hl.distinct.symm
      have hkeep : Scanning T m c t R X (v.sent c bs) :=
        Or.inr ⟨hl.same rfl rfl rfl rfl, hstate, _, hF.trans (List.prefix_append _ _), hsent⟩
      rw [writeData_open hl.masterFd_ne hl.clientUp hl.clientOpen]
      cases (sendAll v.outcomes.writes bs).2.1 with
      | all => exact hkeep
      | waiting => exact hkeep
      | failed => exact Or.inl hsent.closed.gone
    rw [run_get_bind, hl.client]
    exact hwrite.discard w rfl

/-- **A read behind the payload**: the chunk is scanned and passed on. -/
theorem defaultCase_frames {F : Bytes} (hF : T.head ++ T.payload <+: F)
    (hlen : T.head.length + T.payload.length ≤ R.length) :
    Triple (fun w => Linked m c w ∧ w.state = .running
        ∧ Streams m t R F (R.drop (T.head.length + T.payload.length)) w ∧ R <+: T.stream)
      (defaultCase m) (fun _ => Follows T m t) (Halts T m t) := by
  rintro w ⟨hl, hstate, hs, hR⟩
  -- before the read the callback has done nothing yet
  have hstart : Follows T m t w :=
    Scanning.follows (Or.inr ⟨hl, hstate, F, hF, hs⟩) hR hlen rfl
  rw [defaultCase_open hl.masterFd_ne hl.masterUp hl.masterOpen]
  cases w.outcomes.reads with
  | nil => exact hstart.halts
  | cons r reads =>
    cases r with
    | error e =>
      simp only
      cases again e with
      | true =>
        exact Scanning.follows (Or.inr ⟨hl.same rfl rfl rfl rfl, hstate, F, hF, hs.same rfl⟩)
          hR hlen rfl
      | false => exact Or.inl hs.left.closed.gone
    | ok got =>
      obtain ⟨b, rest⟩ := got
      simp only
      generalize (b :: rest).take maxRead = got
      have hread : Streams m t (R ++ got) F _ ((w.leftReads reads).log [.read m got]) :=
        hs.readMaster
      have hstate : ((w.leftReads reads).log [.read m got]).state = .running := hstate
      have hl : Linked m c ((w.leftReads reads).log [.read m got]) := hl.same rfl rfl rfl rfl
      generalize ((w.leftReads reads).log [.read m got]) = v at hread hstate hl
      -- the chunk is scanned and passed on as a whole, or the transfer is gone already
      rcases Decidable.em (R ++ got <+: T.stream) with hR | hR
      · have hfollows : ∀ w, Scanning T m c t (R ++ got)
            (R.drop (T.head.length + T.payload.length) ++ got) w → Follows T m t w := by
          intro w h
          refine h.follows hR ?_ ?_
          · rw [List.length_append]
            omega
          · rw [List.drop_append_of_le_length hlen]
        have hexamine : Triple (· = v) (examine ⟨got, w.outcomes.around⟩)
            (fun _ =>
              Scanning T m c t (R ++ got) (R.drop (T.head.length + T.payload.length) ++ got))
            (Halts T m t) := by
          rintro u rfl
          rw [examine_running hstate]
          exact (processInputBuffer_scanning _).conseq (fun _ => id) (fun _ _ => id)
            (fun _ w h => (hfollows w h).halts) u (Or.inr ⟨hl, hstate, F, hF, hread⟩)
        exact Triple.bind hexamine (fun _ => writeClient_scanning.conseq (fun _ => id)
          (fun _ => hfollows) fun _ w h => (hfollows w h).halts) v rfl
      · have hstable : Stable (Gone T.stream m t) := stable_of_grows Gone.grows
        exact ((keeps_handleChunk (.of_keeps keeps_gone_writeData _) hstable.settable.stateless
          (keeps_processInputBuffer (fun _ h => h) keeps_gone_writeData hstable _)).conseq
            (fun _ => id) (fun _ _ => Or.inl) (fun _ _ => Or.inl)) v (hread.gone hR)

/-! ## The other callbacks -/

/-- A callback that has nothing to do with the transfer leaves it as it is, or resets. -/
def Beside (m c : Int) (t : List Event) (R F X : Bytes) (state : State) (bulkSize : Int)
    (w : World) : Prop :=
  Over t w ∨ (w.masterFd = m ∧ w.clientFd = c ∧ w.state = state ∧ w.bulkSize = bulkSize
    ∧ Streams m t R F X w)

variable {state : State} {bulkSize : Int}

theorem Beside.follows (h : Beside m c t R F X w.state w.bulkSize w') (hc : c ≠ -1)
    (hR : R <+: T.stream) (hframed : Framed T R F X none w) : Follows T m t w' := by
  refine h.imp Over.gone fun ⟨hmaster, hclient, hstate, hbulk, hs⟩ => ?_
  exact ⟨hmaster, hclient ▸ hc, R, F, X, hs, hR, hframed.stopped hstate hbulk⟩

theorem Beside.halts {e : Stop} (h : Beside m c t R F X w.state w.bulkSize w')
    (hR : R <+: T.stream) (hframed : Framed T R F X none w) : Halts T m t e w' := by
  refine h.imp Over.gone fun ⟨_, _, hstate, hbulk, hs⟩ => ?_
  exact ⟨R, F, X, hs, hR, hframed.stopped hstate hbulk⟩

/-- It depends on the four fields and on what the events have to do with the streams. -/
theorem Beside.same (h : Beside m c t R F X state bulkSize w) (es : List Event)
    (hmaster : w'.masterFd = w.masterFd) (hclient : w'.clientFd = w.clientFd)
    (hstate : w'.state = w.state) (hbulk : w'.bulkSize = w.bulkSize)
    (htrace : w'.trace = w.trace ++ es)
    (hes : ∀ e ∈ es, (∃ fd, e = .opened fd) ∨ (∃ fd masked, e = .closed fd masked)
      ∨ ∃ place key, e = .asked place key) : Beside m c t R F X state bulkSize w' := by
  refine h.imp (fun h => h.grows _ _ (htrace ▸ List.prefix_append _ _)) fun h => ?_
  obtain ⟨h₁, h₂, h₃, h₄, hs⟩ := h
  exact ⟨hmaster.trans h₁, hclient.trans h₂, hstate.trans h₃, hbulk.trans h₄,
    hs.aside es htrace hes⟩

/-- A read from another descriptor than the master's. -/
theorem readData_beside (hfd : fd ≠ m) (size : Nat) (hl : Linked m c w)
    (hs : Streams m t R F X w) :
    match readData fd size w with
    | .ok _ w' => Beside m c t R F X w.state w.bulkSize w'
    | .error _ w' => Beside m c t R F X w.state w.bulkSize w' := by
  have hm := hl.masterFd_ne
  have hstay : Beside m c t R F X w.state w.bulkSize w :=
    Or.inr ⟨hl.master, hl.client, rfl, rfl, hs⟩
  rcases Decidable.em (fd = -1) with rfl | hne
  · rw [readData_none hm]
    exact hstay
  rcases Decidable.em (fd ∈ w.fds) with hin | hin
  · rw [readData_open hm hne hin]
    cases w.outcomes.reads with
    | nil => exact hstay
    | cons r reads =>
      cases r with
      | error e =>
        simp only
        cases again e with
        | true => exact Or.inr ⟨hl.master, hl.client, rfl, rfl, hs.same rfl⟩
        | false => exact Or.inl hs.left.closed
      | ok got => exact Or.inr ⟨hl.master, hl.client, rfl, rfl, hs.readOther hfd⟩
  · rw [readData_closed hm hne hin]
    exact Or.inl hs.closed

/-- **`readDelValue`** is beside the transfer. -/
theorem readDelValue_beside (hfd : fd ≠ m) (hl : Linked m c w) (hs : Streams m t R F X w) :
    Triple (· = w) (readDelValue fd) (fun _ => Beside m c t R F X w.state w.bulkSize)
      (fun _ => Beside m c t R F X w.state w.bulkSize) := by
  have hread : Triple (· = w) (readData fd maxRead)
      (fun _ => Beside m c t R F X w.state w.bulkSize)
      (fun _ => Beside m c t R F X w.state w.bulkSize) := by
    rintro v rfl
    have := readData_beside hfd maxRead hl hs
    split at this <;> simp only [*]
  refine Triple.bind hread fun got => ?_
  rcases got with _ | ⟨_ | ⟨b, bs⟩⟩
  · exact Keeps.pure
  · exact Keeps.pure
  · refine Keeps.get fun v => Keeps.bind (Keeps.modify fun u h => ?_) fun _ => ?_
    · exact h.same [] rfl rfl rfl rfl (List.append_nil _).symm (by simp)
    · cases (v.answers.parseReadData ⟨b :: bs, v.outcomes.around⟩).2 with
      | done | unexpected => exact Keeps.pure
      | exit | crash | hang => exact Keeps.throw fun _ h => h

/-- A write to the master is beside the transfer. -/
theorem writeMaster_beside (hl : Linked m c w) (hs : Streams m t R F X w) :
    Triple (· = w) (writeData m bs) (fun _ => Beside m c t R F X w.state w.bulkSize)
      (fun _ => Beside m c t R F X w.state w.bulkSize) := by
  rintro v rfl
  rw [writeData_open hl.masterFd_ne hl.masterUp hl.masterOpen]
  have hsent := hs.sentMaster bs
  have hkeep : Beside m c t R F X v.state v.bulkSize (v.sent m bs) :=
    Or.inr ⟨hl.master, hl.client, rfl, rfl, hsent⟩
  cases (sendAll v.outcomes.writes bs).2.1 with
  | all => exact hkeep
  | waiting => exact hkeep
  | failed => exact Or.inl hsent.closed

/-- The slave sends something else than `SYNC`. -/
theorem readFromSlave_beside (hl : Linked m c w) (hs : Streams m t R F X w)
    (hchunk : w.outcomes.chunk ≠ syncLine) :
    Triple (· = w) (readFromSlave c) (fun _ => Beside m c t R F X w.state w.bulkSize)
      (fun _ => Beside m c t R F X w.state w.bulkSize) := by
  rintro v rfl
  have hstay : Beside m c t R F X v.state v.bulkSize v :=
    Or.inr ⟨hl.master, hl.client, rfl, rfl, hs⟩
  rw [readFromSlave_open hl.masterFd_ne hl.clientUp hl.clientOpen]
  unfold Outcomes.chunk at hchunk
  cases hr : v.outcomes.reads with
  | nil => exact hstay
  | cons r reads =>
    cases r with
    | error e =>
      simp only
      cases again e with
      | true => exact Or.inr ⟨hl.master, hl.client, rfl, rfl, hs.same rfl⟩
      | false => exact Or.inl hs.left.closed
    | ok got =>
      obtain ⟨b, rest⟩ := got
      simp only [hr] at hchunk ⊢
      generalize (b :: rest).take maxRead = got at hchunk ⊢
      unfold passOn noticeSync
      rw [if_neg hchunk, run_pure_bind, run_get_bind]
      have hread : Streams m t R F X ((v.leftReads reads).log [.read c got]) :=
        hs.readOther hl.distinct.symm
      have hlr : Linked m c ((v.leftReads reads).log [.read c got]) := hl.same rfl rfl rfl rfl
      rw [hlr.master]
      exact Triple.discard (writeMaster_beside hlr hread) _ rfl

/-! ## Accepting a slave -/

/-- `closeFd` is a reset. -/
theorem keeps_beside_closeFd :
    Keeps (Beside m c t R F X state bulkSize) (Beside m c t R F X state bulkSize)
      (modify World.closeFd : Proxy Unit) := by
  refine Keeps.modify fun w h => Or.inl ?_
  rcases h with h | ⟨-, -, -, -, hs⟩
  · obtain ⟨es, htrace⟩ := w.closeFd_trace
    exact h.grows _ _ (htrace ▸ List.prefix_append _ _)
  · exact hs.closed

/-- To open a descriptor is beside the transfer. -/
theorem keeps_beside_openFd (kind : Handler) :
    Keeps (Beside m c t R F X state bulkSize) (Beside m c t R F X state bulkSize)
      (openFd kind) := by
  intro w h
  cases hrun : openFd kind w with
  | ok fd w' =>
    obtain ⟨opens, -, ⟨-, rfl⟩ | ⟨-, -, -, rfl⟩⟩ := openFd_cases hrun
    · exact h.same [] rfl rfl rfl rfl (List.append_nil _).symm (by simp)
    · exact h.same [.opened fd] rfl rfl rfl rfl rfl (by simp)
  | error e w' =>
    obtain rfl := openFd_stop hrun
    exact h

/-- To register a descriptor is beside the transfer. -/
theorem keeps_beside_aeCreateFileEvent (fd : Int) (proc : Handler) :
    Keeps (Beside m c t R F X state bulkSize) (Beside m c t R F X state bulkSize)
      (aeCreateFileEvent fd proc) := by
  intro w h
  cases hrun : aeCreateFileEvent fd proc w with
  | ok done w' =>
    obtain ⟨ctls, -, ⟨-, -, rfl⟩ | ⟨-, rfl, -⟩ | ⟨-, rfl, -⟩⟩ := aeCreateFileEvent_cases hrun
    · exact h.same [] rfl rfl rfl rfl (List.append_nil _).symm (by simp)
    · exact h.same [] rfl rfl rfl rfl (List.append_nil _).symm (by simp)
    · exact h
  | error e w' =>
    obtain rfl := aeCreateFileEvent_stop hrun
    exact h

/-- `readDataFromSlave` is beside the transfer. -/
theorem keeps_beside_readDataFromSlave (fd : Int) :
    Keeps (Beside m c t R F X state bulkSize) (Beside m c t R F X state bulkSize)
      (readDataFromSlave fd) := by
  refine Keeps.ite ((keeps_beside_aeCreateFileEvent fd _).bind fun done => ?_) Keeps.pure
  refine Keeps.ite (Keeps.get fun w => Keeps.ite ?_ Keeps.pure) keeps_beside_closeFd
  refine (keeps_beside_openFd _).bind fun readFd => Keeps.bind (Keeps.modify fun w h => ?_)
    fun _ => Keeps.ite keeps_beside_closeFd ?_
  · exact h.same [] rfl rfl rfl rfl (List.append_nil _).symm (by simp)
  · exact (keeps_beside_aeCreateFileEvent _ _).bind fun done =>
      Keeps.ite Keeps.pure keeps_beside_closeFd

/-- A new slave goes on where the old one was, and when `accept` fails the proxy crashes. -/
theorem acceptTcpHandler_frames (hm : w.masterFd = m) (hne : m ≠ -1)
    (hs : Streams m t R F X w) (hR : R <+: T.stream) (hframed : Framed T R F X none w) :
    Triple (· = w) acceptTcpHandler (fun _ => Follows T m t) (Halts T m t) := by
  rintro u rfl
  -- closing the old slave leaves the master's side alone
  have hclosed : Beside m u.clientFd t R F X u.state u.bulkSize u.slaveClosed := by
    have hstay : Beside m u.clientFd t R F X u.state u.bulkSize u := Or.inr ⟨hm, rfl, rfl, rfl, hs⟩
    unfold World.slaveClosed
    split
    · refine hstay.same [.closed u.clientFd (u.events u.clientFd).isSome] rfl rfl rfl rfl rfl ?_
      intro e he
      exact Or.inr (Or.inl ⟨_, _, List.mem_singleton.mp he⟩)
    · exact hstay
  rw [acceptTcpHandler_eq (hm ▸ hne)]
  cases hopen : openFd .readFromSlave u.slaveClosed with
  | error e v =>
    rw [run_bind_error hopen]
    obtain rfl := openFd_stop hopen
    exact hclosed.halts hR hframed
  | ok fd v =>
    have hopened := (keeps_beside_openFd .readFromSlave).ok hclosed hopen
    rw [run_bind_ok hopen]
    rcases Decidable.em (fd = -1) with hfd | hfd
    · rw [if_pos hfd]
      exact hopened.halts hR hframed
    -- the new slave takes the place of the old one, the transfer stays where it was
    have hnew : Beside m fd t R F X u.state u.bulkSize { v with clientFd := fd } := by
      rcases hopened with h | ⟨hmaster, -, hstate, hbulk, hs⟩
      · exact Or.inl (h.grows _ _ (List.prefix_refl _))
      · exact Or.inr ⟨hmaster, rfl, hstate, hbulk, hs.same rfl⟩
    rw [if_neg hfd, run_modify_bind]
    exact ((keeps_beside_readDataFromSlave fd).conseq (fun _ => id)
      (fun _ _ h => h.follows hfd hR hframed) fun _ _ h => h.halts hR hframed) _ hnew

/-! ## Runs -/

/-- The slave does not send `SYNC` in a read of its own. -/
def KeepsTransfer (w : World) (s : Step) : Prop :=
  s.Calls w .readFromSlave → s.outcomes.chunk ≠ syncLine

instance (w : World) (s : Step) : Decidable (KeepsTransfer w s) :=
  inferInstanceAs (Decidable (_ → s.outcomes.chunk ≠ syncLine))

/-- **A read of the master**, with one case for each state of the transfer. -/
theorem readFromMaster_frames (hl : Linked m c w) (hs : Streams m t R F X w) (hR : R <+: T.stream)
    (hframed : Framed T R F X none w) :
    Triple (· = w) (readFromMaster m) (fun _ => Follows T m t) (Halts T m t) := by
  rintro u rfl
  -- the callback starts with nothing left to write
  have hnone : ¬ Waits none := by
    rintro (h | h) <;> cases h
  unfold readFromMaster
  rw [run_get_bind]
  unfold Framed at hframed
  cases hstate : u.state with
  | start => simp only [hstate] at hframed
  | syncStart =>
    simp only [hstate] at hframed ⊢
    obtain ⟨rfl, hF, -, -, hnil⟩ := hframed
    obtain rfl := hnil hnone
    obtain rfl := List.prefix_nil.mp hF
    -- in the header: nothing has been read of it yet
    exact syncStartCase_frames u ⟨hl, hs, hstate⟩
  | sync =>
    simp only [hstate] at hframed ⊢
    obtain ⟨rfl, -, -, -, -, hnn, -, hbulk, hhead⟩ := hframed
    obtain ⟨rfl, hlen⟩ := hhead hnone
    -- in the payload: `bulk_size` is what is missing
    unfold syncCase
    rw [run_get_bind]
    exact syncPayload_frames _ u ⟨hl, hs, ⟨hstate, hR, Nat.le_of_eq hlen.symm, hbulk rfl, hnn⟩,
      Nat.lt_succ_self _⟩
  | running =>
    simp only [hstate] at hframed ⊢
    obtain ⟨hF, hlen, rfl⟩ := hframed
    exact defaultCase_frames hF hlen u ⟨hl, hstate, hs, hR⟩

/-- The entry of a slave that was closed may still be there. -/
theorem readFromSlave_gone (hl : Linked m c w) (hs : Streams m t R F X w) (hfd : fd ∉ w.fds) :
    Triple (· = w) (readFromSlave fd) (fun _ => Beside m c t R F X w.state w.bulkSize)
      (fun _ => Beside m c t R F X w.state w.bulkSize) := by
  rintro u rfl
  unfold readFromSlave
  rcases Decidable.em (fd = -1) with rfl | hne
  · rw [run_bind_ok (readData_none hl.masterFd_ne)]
    exact Or.inr ⟨hl.master, hl.client, rfl, rfl, hs⟩
  · rw [run_bind_ok (readData_closed hl.masterFd_ne hne hfd)]
    exact Or.inl hs.closed

/-- **Every callback** follows the transfer: the master's goes on in it, and the others are beside
it. -/
theorem callback_frames {handler : Handler} (hup : Up True w) (hclient : w.clientFd ≠ -1)
    (hs : Streams w.masterFd t R F X w) (hR : R <+: T.stream) (hframed : Framed T R F X none w)
    (hentry : w.events fd = some handler)
    (hsync : handler = .readFromSlave → w.outcomes.chunk ≠ syncLine) :
    Triple (· = w) (callback handler fd) (fun _ => Follows T w.masterFd t)
      (Halts T w.masterFd t) := by
  have hl := hup.linked hclient
  -- what leaves the master's side alone keeps the frame
  have hbeside : ∀ {prog : Proxy Unit},
      Triple (· = w) prog (fun _ => Beside w.masterFd w.clientFd t R F X w.state w.bulkSize)
        (fun _ => Beside w.masterFd w.clientFd t R F X w.state w.bulkSize) →
      Triple (· = w) prog (fun _ => Follows T w.masterFd t) (Halts T w.masterFd t) :=
    fun h => h.conseq (fun _ => id) (fun _ _ h => h.follows hclient hR hframed)
      fun _ _ h => h.halts hR hframed
  cases handler with
  | readFromMaster =>
    obtain ⟨-, rfl⟩ := Settled.master (Or.inr hup) hentry
    exact readFromMaster_frames hl hs hR hframed
  | readFromSlave =>
    rcases Decidable.em (fd ∈ w.fds) with hin | hin
    · -- the slave, or a number that was closed earlier in the turn
      have howner : fd = w.clientFd := hup.owner hin hentry
      rw [howner]
      exact hbeside (readFromSlave_beside hl hs (hsync rfl))
    · exact hbeside (readFromSlave_gone hl hs hin)
  | readDelValue =>
    refine hbeside (readDelValue_beside ?_ hl hs)
    -- redis-server's entry is not the master's
    rintro rfl
    rw [hup.master.entry] at hentry
    cases hentry
  | acceptTcpHandler => exact acceptTcpHandler_frames rfl hl.masterUp hs hR hframed

/-- **One step** follows the transfer, unless it is a `SYNC` of the slave. -/
theorem run_frames (s : Step) :
    Triple (fun w => (Follows T m t w ∧ Settled True w) ∧ KeepsTransfer w s) s.run
      (fun _ w => Follows T m t w ∧ Settled True w) (fun e => Halts T m t e) := by
  -- the bookkeeping holds by its own step lemma
  have hsettled : Triple (fun w => Settled True w) s.run
      (fun _ => Settled True) (fun _ _ => True) :=
    (step_settled s).pre fun _ h => ⟨h, Or.inl trivial, fun _ => Or.inl trivial⟩
  have hfollows : Triple (fun w => (Follows T m t w ∧ Settled True w) ∧ KeepsTransfer w s) s.run
      (fun _ => Follows T m t) (fun e => Halts T m t e) := by
    refine Triple.pre (P := fun w => (Gone T.stream m t w) ∨ ((w.masterFd = m ∧ w.clientFd ≠ -1
        ∧ ∃ R F X, Streams m t R F X w ∧ R <+: T.stream ∧ Framed T R F X none w)
        ∧ Settled True w ∧ KeepsTransfer w s)) ?_ fun w h => ?_
    · refine Triple.or ((keeps_run_of_grows Gone.grows s).conseq (fun _ => id) (fun _ _ => Or.inl)
        fun _ _ => Or.inl) ?_
      rintro w ⟨⟨rfl, hclient, R, F, X, hs, hR, hframed⟩, hset, hc⟩
      have hup : Up True w := hset.up hclient
      have hstay : Follows T w.masterFd t { w with outcomes := s.outcomes } :=
        Or.inr ⟨rfl, hclient, R, F, X, hs.same rfl, hR, hframed.stopped rfl rfl⟩
      -- a step without a callback, a callback of an entry, and the timer
      rcases s.run_cases w with ⟨fired, heq⟩ | ⟨fd, fired, handler, hcalls, hentry, heq⟩ | heq
      · rw [heq]
        exact Or.inr ⟨rfl, hclient, R, F, X, hs.same rfl, hR, hframed.stopped rfl rfl⟩
      · rw [heq]
        exact callback_frames (w := { w with outcomes := s.outcomes, fired := fired })
          (hup.same rfl rfl rfl rfl rfl rfl rfl) hclient (hs.same rfl) hR (hframed.stopped rfl rfl)
          hentry (fun h => hc (h ▸ hcalls)) _ rfl
      · rw [heq, timeEvent_up (w := { w with outcomes := s.outcomes }) hup.masterFd_ne]
        exact Or.inr ⟨rfl, hclient, R, F, X, hs.same rfl, hR, hframed.stopped rfl rfl⟩
    · rcases h with ⟨⟨hgone | hstay, hset⟩, hc⟩
      · exact Or.inl hgone
      · exact Or.inr ⟨hstay, hset, hc⟩
  exact (hfollows.and hsettled).conseq (fun _ h => ⟨h, h.1.2⟩) (fun _ _ h => h) fun _ _ h => h.1

/-- Every run from `SYNC_START_STATE` on. -/
theorem framed_moment {w₀ : World} (h : w₀.Reachable) (hclient : w₀.clientFd ≠ -1)
    (hstate : w₀.state = .syncStart) {stop : Option Stop}
    (hrun : Moment Step.run KeepsTransfer w₀ stop w) :
    Gone T.stream w₀.masterFd w₀.trace w ∨ ∃ R F X, Streams w₀.masterFd w₀.trace R F X w
      ∧ R <+: T.stream ∧ Framed T R F X stop w := by
  have hset := h.settled
  have hhead := T.length_head
  have hstreams : Streams w₀.masterFd w₀.trace [] [] [] w₀ :=
    ⟨[], (List.append_nil _).symm, List.not_mem_nil, rfl, rfl, rfl⟩
  have hframed : Framed T [] [] [] none w₀ := by
    unfold Framed
    rw [hstate]
    exact ⟨rfl, List.prefix_refl _, Nat.zero_le _, by rw [hhead]; exact Nat.zero_lt_succ _,
      fun _ => rfl⟩
  have hstart : Follows T w₀.masterFd w₀.trace w₀ :=
    Or.inr ⟨rfl, hclient, [], [], [], hstreams, List.nil_prefix, hframed⟩
  have hkeeps := hrun.keeps run_frames ⟨hstart, hset⟩
  cases stop with
  | none => exact hkeeps.1.imp_right fun ⟨_, _, h⟩ => h
  | some e => exact hkeeps

/-- **The payload is framed exactly.** -/
theorem framed_of_run {w₀ : World} (h : w₀.Reachable) (hclient : w₀.clientFd ≠ -1)
    (hstate : w₀.state = .syncStart) (T : Transfer) {stop : Option Stop}
    (hrun : Moment Step.run KeepsTransfer w₀ stop w) :
    ∃ es, w.trace = w₀.trace ++ es ∧ (Event.reset ∉ es → readFrom w₀.masterFd es <+: T.stream →
      Framed T (readFrom w₀.masterFd es) (writtenPast w₀.masterFd es) (scannedIn es) stop w) := by
  rcases framed_moment (T := T) h hclient hstate hrun with ⟨es, htrace, hes⟩
    | ⟨R, F, X, ⟨es, htrace, -, rfl, rfl, rfl⟩, -, hframed⟩
  · exact ⟨es, htrace, fun hreset hR => absurd hes (not_or.mpr ⟨hreset, not_not_intro hR⟩)⟩
  · exact ⟨es, htrace, fun _ _ => hframed⟩

namespace Transferring

/-- `$3`, three bytes, and `PING`. -/
def transfer : Transfer where
  keepalives := 0
  digits := [51]
  payload := [97, 98, 99]
  commands := [42, 49, 13, 10, 36, 52, 13, 10, 80, 73, 78, 71, 13, 10]
  digits_ok := fun b hb => by rw [List.mem_singleton.mp hb]; decide
  length_payload := rfl
  fits := by decide
  short := by decide

/-- The slave sends `SYNC`. -/
def sync : List Step := Accepting.ready 7 [.ok (83, [89, 78, 67, 13, 10])] [.ok 5]

/-- The master sends bytes that are read and written one by one. -/
def bytes (bs : Bytes) : List Step :=
  Accepting.ready 5 (bs.map fun b => .ok (b, [])) (bs.map fun _ => .ok 0)

/-- The whole transfer, and the command behind it. -/
def through : List Step :=
  bytes transfer.head ++ bytes transfer.payload
    ++ Accepting.ready 5 [.ok (42, transfer.commands.tail)] [.ok 13]

/-- The slave sends `SYNC` again when the header has been passed on. -/
def twice : List Step :=
  bytes transfer.head ++ sync ++ bytes (transfer.payload ++ transfer.commands.take 4)
    ++ bytes [] ++ Accepting.ready 5 [.ok (36, transfer.commands.drop 5)] [.ok 9]

end Transferring

theorem framed_of_run_three : ∃ w₀ w es, w₀.Reachable ∧ w₀.clientFd ≠ -1
    ∧ w₀.state = .syncStart ∧ Moment Step.run KeepsTransfer w₀ none w
    ∧ w.trace = w₀.trace ++ es ∧ readFrom w₀.masterFd es = Transferring.transfer.stream
    ∧ w.state = .running ∧ scannedIn es = Transferring.transfer.commands
    ∧ Framed Transferring.transfer (readFrom w₀.masterFd es) (writtenPast w₀.masterFd es)
      (scannedIn es) none w := by
  have hrun : ((World.start (Accepting.outcomes 7)).bind
      (runAll Step.run (fun _ _ => True) (Accepting.steps 7 ++ Transferring.sync))).any
        (fun w₀ => decide (w₀.clientFd ≠ -1 ∧ w₀.state = .syncStart)
          && (runAll Step.run KeepsTransfer Transferring.through w₀).any fun w =>
            let es := w.trace.drop w₀.trace.length
            decide (w.trace = w₀.trace ++ es ∧ Event.reset ∉ es
              ∧ readFrom w₀.masterFd es = Transferring.transfer.stream ∧ w.state = .running
              ∧ scannedIn es = Transferring.transfer.commands)) = true := by
    decide +kernel
  -- the evaluated run as a run of the model, with the header, the payload and the commands in it
  obtain ⟨w₀, hreach, hw₀⟩ := World.reachable_of_any hrun
  obtain ⟨hw, hany⟩ := Bool.and_eq_true_iff.mp hw₀
  obtain ⟨hclient, hstate⟩ := of_decide_eq_true hw
  obtain ⟨w, hlast, hlastw⟩ := Run.of_any hany
  obtain ⟨htrace, hreset, hread, hrunning, hscanned⟩ := of_decide_eq_true hlastw
  obtain ⟨es, hes, hframed⟩ := framed_of_run hreach hclient hstate Transferring.transfer
    (.reached hlast)
  obtain rfl := List.append_cancel_left (hes.symm.trans htrace)
  exact ⟨w₀, w, _, hreach, hclient, hstate, .reached hlast, hes, hread, hrunning, hscanned,
    hframed hreset (hread ▸ List.prefix_refl _)⟩

/-- **Another `SYNC` starts the transfer over.** The payload is taken for a header. -/
theorem not_framed_twice : ∃ w₀ w es, w₀.Reachable ∧ w₀.clientFd ≠ -1 ∧ w₀.state = .syncStart
    ∧ Run Step.run (fun _ _ => True) w₀ w ∧ w.trace = w₀.trace ++ es ∧ Event.reset ∉ es
    ∧ readFrom w₀.masterFd es = Transferring.transfer.stream
    ∧ w.state = .running ∧ (scannedIn es).head? ≠ Transferring.transfer.commands.head? := by
  have hrun : ((World.start (Accepting.outcomes 7)).bind
      (runAll Step.run (fun _ _ => True) (Accepting.steps 7 ++ Transferring.sync))).any
        (fun w₀ => decide (w₀.clientFd ≠ -1 ∧ w₀.state = .syncStart)
          && (runAll Step.run (fun _ _ => True) Transferring.twice w₀).any fun w =>
            let es := w.trace.drop w₀.trace.length
            decide (w.trace = w₀.trace ++ es ∧ Event.reset ∉ es
              ∧ readFrom w₀.masterFd es = Transferring.transfer.stream ∧ w.state = .running
              ∧ (scannedIn es).head? ≠ Transferring.transfer.commands.head?)) = true := by
    decide +kernel
  obtain ⟨w₀, hreach, hw₀⟩ := World.reachable_of_any hrun
  obtain ⟨hw, hany⟩ := Bool.and_eq_true_iff.mp hw₀
  obtain ⟨hclient, hstate⟩ := of_decide_eq_true hw
  obtain ⟨w, hlast, hw⟩ := Run.of_any hany
  exact ⟨w₀, w, _, hreach, hclient, hstate, hlast, of_decide_eq_true hw⟩

end Iceberg
