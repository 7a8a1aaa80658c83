import Iceberg.Proxy.Payload

/-!
# The hand-over to the transfer

In `START_STATE` the proxy passes everything on and waits for one of two reads that bring it
to `SYNC_START_STATE`: `SYNC` from the slave, or the answer to `PSYNC` from the master. It
looks at single reads, so the hand-over is right when these lines arrive in reads of their own
(`CutsWell`), and only for `+FULLRESYNC`: behind `+CONTINUE` there is no transfer.
-/

namespace Iceberg

open Triples

/-- What announces a transfer: the `SYNC` of the slave, behind what it sends before, or the line
of the master that begins with `+FULLRESYNC` and goes on like this. -/
inductive Announcement where
  | sync (before : Bytes)
  | fullresync (arguments : Bytes)

/-- What is sent around a transfer. The master sends its replies to earlier commands in front of
it. -/
structure Exchange where
  replies : Bytes
  announcement : Announcement
  transfer : Transfer

namespace Exchange

variable {E : Exchange} {R S : Bytes}

/-- What the master sends in front of the transfer. -/
def lead (E : Exchange) : Bytes :=
  match E.announcement with
  | .sync _ => E.replies
  | .fullresync arguments => E.replies ++ (fullresyncLine ++ arguments)

def stream (E : Exchange) : Bytes := E.lead ++ E.transfer.stream

/-- `R` is what the master sends in front of the transfer. The line feeds at its end may as
well belong to the transfer, and the line feeds behind it to `R`. -/
def Reached (E : Exchange) (R : Bytes) : Prop :=
  (∀ b ∈ E.lead.drop R.length, b = Byte.lf)
    ∧ R <+: E.lead ++ List.replicate E.transfer.keepalives Byte.lf

instance (E : Exchange) (R : Bytes) : Decidable (E.Reached R) :=
  inferInstanceAs (Decidable (_ ∧ _ <+: _))

/-- The transfer without the line feeds that are in `R`. -/
def rest (E : Exchange) (R : Bytes) : Transfer :=
  { E.transfer with keepalives := E.lead.length + E.transfer.keepalives - R.length }

theorem Reached.length_le (h : E.Reached R) :
    R.length ≤ E.lead.length + E.transfer.keepalives := by
  have := h.2.length_le
  rwa [List.length_append, List.length_replicate] at this

/-- The line feeds that are left make up, behind what has been reached, the front of the
stream. -/
theorem Reached.feeds (h : E.Reached R) :
    E.lead ++ List.replicate E.transfer.keepalives Byte.lf
      = R ++ List.replicate (E.rest R).keepalives Byte.lf := by
  obtain ⟨u, hu⟩ := h.2
  have hlen := congrArg List.length hu
  simp only [List.length_append, List.length_replicate] at hlen
  rw [← hu]
  congr 1
  refine List.eq_replicate_iff.mpr ⟨?_, fun b hb => ?_⟩
  · show u.length = E.lead.length + E.transfer.keepalives - R.length
    omega
  · have hdrop : u = (E.lead ++ List.replicate E.transfer.keepalives Byte.lf).drop R.length := by
      rw [← hu, List.drop_left']
      rfl
    rw [hdrop, List.drop_append] at hb
    rcases List.mem_append.mp hb with hb | hb
    · exact h.1 b hb
    · exact List.eq_of_mem_replicate (List.mem_of_mem_drop hb)

/-- The stream is what has been reached and then what is left. -/
theorem Reached.stream_eq (h : E.Reached R) : E.stream = R ++ (E.rest R).stream := by
  unfold stream Transfer.stream Transfer.head
  have hline : (E.rest R).line = E.transfer.line := rfl
  have hpayload : (E.rest R).payload = E.transfer.payload := rfl
  have hcommands : (E.rest R).commands = E.transfer.commands := rfl
  rw [hline, hpayload, hcommands]
  simp only [← List.append_assoc]
  rw [h.feeds]

/-- What is left of the front, by its length. -/
theorem Reached.length_head (h : E.Reached R) :
    R.length + (E.rest R).head.length = E.lead.length + E.transfer.head.length := by
  have hle := h.length_le
  have hline : (E.rest R).line = E.transfer.line := rfl
  rw [Transfer.length_head, Transfer.length_head, hline]
  show R.length + (E.lead.length + E.transfer.keepalives - R.length + _ + 1) = _
  omega

/-- The transfer has not been announced yet: when `R` has been read from the master and `S` from
the slave, the line that does it is not complete. -/
def Unannounced (E : Exchange) (R S : Bytes) : Prop :=
  R <+: E.lead ∧ match E.announcement with
    | .sync before => S <+: before ++ syncLine ∧ S ≠ before ++ syncLine
    | .fullresync _ => R ≠ E.lead

/-- How far the proxy is when it has read `R` from the master and `S` from the slave, and
scanned `X`: it is in `START_STATE` only until the transfer has been announced, header and
payload are taken for what they are, and every command behind them has been scanned. -/
def Handed (E : Exchange) (R S X : Bytes) (w : World) : Prop :=
  match w.state with
  | .start => X = [] ∧ E.Unannounced R S
  | .syncStart => X = [] ∧ (∀ b ∈ E.lead.drop R.length, b = Byte.lf)
      ∧ R.length ≤ E.lead.length + E.transfer.head.length
  | .sync => X = [] ∧ E.lead.length + E.transfer.head.length ≤ R.length
      ∧ R.length ≤ E.lead.length + E.transfer.head.length + E.transfer.payload.length
  | .running =>
      E.lead.length + E.transfer.head.length + E.transfer.payload.length ≤ R.length
      ∧ X = R.drop (E.lead.length + E.transfer.head.length + E.transfer.payload.length)

/-- What has been read when the state changes is not scanned. -/
theorem Reached.handed {w : World} (h : E.Reached R) (hstate : w.state = .syncStart) :
    E.Handed R S [] w := by
  have hle := h.length_le
  have hhead := Transfer.length_head (T := E.transfer)
  unfold Handed
  rw [hstate]
  exact ⟨rfl, h.1, by omega⟩

/-- The transfer goes on behind `R`. -/
theorem Reached.handed_append {w : World} {R' F X : Bytes} {stop : Option Stop}
    (h : E.Reached R) (hframed : Framed (E.rest R) R' F X stop w) : E.Handed (R ++ R') S X w := by
  have hhead := h.length_head
  have hpayload : (E.rest R).payload = E.transfer.payload := rfl
  unfold Framed at hframed
  unfold Handed
  cases hstate : w.state with
  | start => simp only [hstate] at hframed
  -- in the header the bytes behind the line have no newline that ends one
  | syncStart =>
    simp only [hstate] at hframed ⊢
    obtain ⟨hX, -, hR, -⟩ := hframed
    rw [List.length_append]
    refine ⟨hX, fun b hb => h.1 b ?_, by omega⟩
    rw [← List.drop_drop] at hb
    exact List.mem_of_mem_drop hb
  -- in the payload nothing has been scanned either
  | sync =>
    simp only [hstate] at hframed ⊢
    obtain ⟨hX, hF, hlen, hR, -⟩ := hframed
    have hle := hF.length_le
    rw [hpayload] at hR
    rw [List.length_append]
    exact ⟨hX, by omega, by omega⟩
  -- behind it the scanned bytes begin where the payload ends
  | running =>
    simp only [hstate] at hframed ⊢
    obtain ⟨-, hR, hX⟩ := hframed
    rw [hpayload] at hR hX
    rw [List.length_append]
    have hdrop : ∀ k, (R ++ R').drop (R.length + k) = R'.drop k := fun k => by
      rw [List.drop_append, List.drop_of_length_le (Nat.le_add_right _ _), List.nil_append,
        Nat.add_sub_cancel_left]
    rw [← hhead, Nat.add_assoc, hdrop]
    exact ⟨by omega, hX⟩

/-! ## How the bytes are cut into reads -/

/-- A read from the master in `START_STATE`, behind `R`. A read that passes the test for the
answer to `PSYNC` ends with that answer, and any other read ends before it is complete. Without
the slave's `SYNC` the master sends no transfer, and no read passes the test. -/
def MasterCut (E : Exchange) (R : Bytes) (o : Outcomes) : Prop :=
  match E.announcement with
  | .sync _ => startsSync ⟨o.chunk, o.around⟩ = false ∧ R ++ o.chunk <+: E.lead
  | .fullresync _ =>
    if startsSync ⟨o.chunk, o.around⟩ then E.Reached (R ++ o.chunk)
    else R ++ o.chunk <+: E.lead ∧ R ++ o.chunk ≠ E.lead

/-- A read from the slave in `START_STATE`, behind `S`, when `R` has been read from the master.
Its `SYNC` arrives in a read of its own, when the earlier replies of the master have been read,
and any other read ends before it is complete. -/
def SlaveCut (E : Exchange) (R S : Bytes) (o : Outcomes) : Prop :=
  match E.announcement with
  | .sync before =>
    if o.chunk = syncLine then S = before ∧ E.Reached R
    else S ++ o.chunk <+: before ++ syncLine ∧ S ++ o.chunk ≠ before ++ syncLine
  | .fullresync _ => o.chunk ≠ syncLine

instance (E : Exchange) (R : Bytes) (o : Outcomes) : Decidable (E.MasterCut R o) := by
  unfold MasterCut
  cases E.announcement <;> infer_instance

instance (E : Exchange) (R S : Bytes) (o : Outcomes) : Decidable (E.SlaveCut R S o) := by
  unfold SlaveCut
  cases E.announcement <;> infer_instance

/-- A short line of `+FULLRESYNC` passes the test when it is alone in its read. -/
theorem startsSync_fullresync {arguments : Bytes} (hshort : arguments.length < 89)
    (around : Int → UInt8) : startsSync ⟨fullresyncLine ++ arguments, around⟩ = true := by
  have hlen : (fullresyncLine ++ arguments).length = 11 + arguments.length :=
    List.length_append
  have hslice : WData.slice ⟨fullresyncLine ++ arguments, around⟩ 0 11 = fullresyncLine :=
    (WData.at_zero ⟨fullresyncLine ++ arguments, around⟩).slice
  unfold startsSync
  rw [hslice, Bool.and_eq_true, decide_eq_true_eq, Bool.or_eq_true]
  refine ⟨?_, Or.inr (beq_self_eq_true _)⟩
  show 9 < ((fullresyncLine ++ arguments).length : Int)
    ∧ ((fullresyncLine ++ arguments).length : Int) < 100
  omega

/-- So the answer to `PSYNC` may be cut anywhere in front of its line. -/
theorem masterCut_line {arguments : Bytes} (hline : E.announcement = .fullresync arguments)
    (hshort : arguments.length < 89) {o : Outcomes}
    (hchunk : o.chunk = fullresyncLine ++ arguments) : E.MasterCut E.replies o := by
  have hlead : E.replies ++ o.chunk = E.lead := by
    rw [hchunk, lead, hline]
  unfold MasterCut
  rw [hline, hchunk]
  simp only
  rw [if_pos (startsSync_fullresync hshort _), ← hchunk, hlead]
  refine ⟨fun b hb => ?_, List.prefix_append _ _⟩
  rw [List.drop_length] at hb
  exact absurd hb List.not_mem_nil

/-- A step that cuts well: for a slave that is not replaced before the transfer, and, from then
on, whose transfer is not broken off. -/
def CutsWell (E : Exchange) (w₀ : World) (w : World) (s : Step) : Prop :=
  let es := w.trace.drop w₀.trace.length
  let R := readFrom w₀.masterFd es
  let S := readFrom w₀.clientFd es
  if w.state = .start then
    AcceptsNone w s ∧ (s.Calls w .readFromMaster → E.MasterCut R s.outcomes)
      ∧ (s.Calls w .readFromSlave → E.SlaveCut R S s.outcomes)
  else KeepsTransfer w s

instance (E : Exchange) (w₀ w : World) (s : Step) : Decidable (E.CutsWell w₀ w s) :=
  inferInstanceAs (Decidable (if w.state = .start then AcceptsNone w s ∧ (_ → E.MasterCut _ _)
    ∧ (_ → E.SlaveCut _ _ _) else KeepsTransfer w s))

/-! ## In front of the transfer -/

/-- What has been read is in front of the transfer, and has been passed on. -/
def Awaiting (E : Exchange) (m c : Int) (t : List Event) (w : World) : Prop :=
  w.state = .start ∧ ∃ R S, Ledger m c t R R S S [] w ∧ E.Unannounced R S

/-- The state has changed between two callbacks. -/
def Changed (E : Exchange) (m : Int) (t : List Event) (w : World) : Prop :=
  w.state = .syncStart ∧ w.masterFd = m ∧ w.clientFd ≠ -1
    ∧ ∃ R F, Streams m t R F [] w ∧ E.Reached R

/-- A stop in a callback. -/
def Shown (E : Exchange) (m c : Int) (t : List Event) (w : World) : Prop :=
  Gone E.stream m t w ∨ ∃ es, w.trace = t ++ es ∧ Event.reset ∉ es
    ∧ E.Handed (readFrom m es) (readFrom c es) (scannedIn es) w

variable {m c fd : Int} {t : List Event} {F G X bs : Bytes} {w w' : World}

theorem streams_of_ledger (h : Ledger m c t R F S G X w) : ∃ F, Streams m t R F X w := by
  obtain ⟨es, htrace, hreset, hR, -, -, -, hX⟩ := h.streams
  exact ⟨_, es, htrace, hreset, hR, rfl, hX⟩

/-- What a ledger says of a stop in `START_STATE`. -/
theorem shown_of_unannounced (h : Ledger m c t R F S G [] w) (hstate : w.state = .start)
    (hleft : E.Unannounced R S) : E.Shown m c t w := by
  obtain ⟨es, htrace, hreset, hR, -, hS, -, hX⟩ := h.streams
  refine Or.inr ⟨es, htrace, hreset, ?_⟩
  unfold Handed
  rw [hstate, hR, hS, hX]
  exact ⟨rfl, hleft⟩

theorem Awaiting.shown (h : E.Awaiting m c t w) : E.Shown m c t w := by
  obtain ⟨hstate, R, S, h, hleft⟩ := h
  exact shown_of_unannounced h hstate hleft

theorem shown_of_reached (h : Ledger m c t R F S G [] w) (hstate : w.state = .syncStart)
    (hR : E.Reached R) : E.Shown m c t w := by
  obtain ⟨es, htrace, hreset, rfl, -, -, -, hX⟩ := h.streams
  exact Or.inr ⟨es, htrace, hreset, hX ▸ hR.handed hstate⟩

theorem changed_of_reached (h : Ledger m c t R F S G [] w) (hstate : w.state = .syncStart)
    (hR : E.Reached R) : E.Changed m t w := by
  obtain ⟨F, hs⟩ := streams_of_ledger h
  exact ⟨hstate, h.linked.master, h.linked.client ▸ h.linked.clientUp, R, F, hs, hR⟩

/-- What a callback leaves when it returns. -/
def Proceeds (E : Exchange) (m c : Int) (t : List Event) (w : World) : Prop :=
  Gone E.stream m t w ∨ E.Awaiting m c t w ∨ E.Changed m t w

/-- The master's callback passes on what it has read. -/
theorem awaiting_pass {got : Bytes} (h : Ledger m c t (R ++ got) R S S [] w)
    (hpass : (w.state = .start ∧ E.Unannounced (R ++ got) S)
      ∨ (w.state = .syncStart ∧ E.Reached (R ++ got))) :
    Triple (· = w) (writeData w.clientFd got) (fun _ => E.Proceeds m c t)
      (fun _ => E.Shown m c t) := by
  rintro v rfl
  rw [h.linked.client]
  have hsent := h.sentClient got
  rw [writeData_open h.linked.masterFd_ne h.linked.clientUp h.linked.clientOpen]
  cases hend : (sendAll v.outcomes.writes got).2.1 with
  | failed => exact Or.inl hsent.over.gone
  | waiting =>
    rcases hpass with ⟨hstate, hleft⟩ | ⟨hstate, hR⟩
    · exact shown_of_unannounced hsent hstate hleft
    · exact shown_of_reached hsent hstate hR
  | all =>
    rw [sendAll_all hend] at hsent
    rcases hpass with ⟨hstate, hleft⟩ | ⟨hstate, hR⟩
    · exact Or.inr (Or.inl ⟨hstate, _, _, hsent, hleft⟩)
    · exact Or.inr (Or.inr (changed_of_reached hsent hstate hR))

/-- What a read from the master that cuts well brings. -/
theorem MasterCut.next {o : Outcomes} (hcut : E.MasterCut R o) (hleft : E.Unannounced R S) :
    if startsSync ⟨o.chunk, o.around⟩ then E.Reached (R ++ o.chunk)
    else E.Unannounced (R ++ o.chunk) S := by
  unfold MasterCut at hcut
  unfold Unannounced at hleft ⊢
  cases hE : E.announcement with
  | sync before =>
    simp only [hE] at hcut hleft ⊢
    rw [hcut.1, if_neg Bool.false_ne_true]
    exact ⟨hcut.2, hleft.2⟩
  | fullresync arguments =>
    simp only [hE] at hcut ⊢
    split
    · rwa [if_pos ‹_›] at hcut
    · rwa [if_neg ‹_›] at hcut

/-- What a read from the slave that cuts well brings. -/
theorem SlaveCut.next {o : Outcomes} (hcut : E.SlaveCut R S o) (hleft : E.Unannounced R S) :
    if o.chunk = syncLine then E.Reached R else E.Unannounced R (S ++ o.chunk) := by
  unfold SlaveCut at hcut
  unfold Unannounced at hleft ⊢
  cases hE : E.announcement with
  | sync before =>
    simp only [hE] at hcut hleft ⊢
    split
    · rw [if_pos ‹_›] at hcut
      exact hcut.2
    · rw [if_neg ‹_›] at hcut
      exact ⟨hleft.1, hcut⟩
  | fullresync arguments =>
    simp only [hE] at hcut hleft ⊢
    rw [if_neg hcut]
    exact hleft

/-- **A read of the master** before the announcement: one that passes the test announces the
transfer, and every other one is passed on and leaves it unannounced. -/
theorem awaiting_master (hstate : w.state = .start) (h : Ledger m c t R R S S [] w)
    (hleft : E.Unannounced R S) (hcut : E.MasterCut R w.outcomes) :
    Triple (· = w) (readFromMaster m) (fun _ => E.Proceeds m c t) (fun _ => E.Shown m c t) := by
  rintro u rfl
  have hstay : E.Awaiting m c t u := ⟨hstate, R, S, h, hleft⟩
  have hl := h.linked
  have hnext := hcut.next hleft
  unfold readFromMaster
  rw [run_get_bind, hstate]
  simp only
  rw [defaultCase_open hl.masterFd_ne hl.masterUp hl.masterOpen]
  unfold Outcomes.chunk at hnext
  cases hr : u.outcomes.reads with
  -- nothing to read: the run stops in START_STATE
  | nil => exact hstay.shown
  | cons r reads =>
    have hsame : Ledger m c t R R S S [] (u.leftReads reads) := h.same (hl.same rfl rfl rfl rfl) rfl
    cases r with
    | error e =>
      simp only
      -- `EAGAIN` and `EINTR` leave the state alone, any other error ends the exchange
      cases again e with
      | true => exact Or.inr (Or.inl ⟨hstate, R, S, hsame, hleft⟩)
      | false => exact Or.inl hsame.over.gone
    | ok got =>
      obtain ⟨b, bs⟩ := got
      simp only [hr] at hnext ⊢
      generalize (b :: bs).take maxRead = got at hnext ⊢
      have hread : Ledger m c t (R ++ got) R S S [] ((u.leftReads reads).log [.read m got]) :=
        h.readMaster
      have hstate : ((u.leftReads reads).log [.read m got]).state = .start := hstate
      generalize ((u.leftReads reads).log [.read m got]) = v at hread hstate
      unfold handleChunk
      rw [run_bind_ok (examine_other (by rw [hstate]; decide)), run_get_bind]
      -- the state changes only at the read that ends the answer to `PSYNC`
      cases hstarts : startsSync ⟨got, u.outcomes.around⟩ with
      | true =>
        rw [hstarts, if_pos rfl] at hnext
        rw [if_pos rfl]
        exact Triple.discard (awaiting_pass (w := { v with state := .syncStart }) hread.update
          (Or.inr ⟨rfl, hnext⟩)) _ rfl
      | false =>
        rw [hstarts, if_neg Bool.false_ne_true] at hnext
        rw [if_neg Bool.false_ne_true]
        exact Triple.discard (awaiting_pass hread (Or.inl ⟨hstate, hnext⟩)) _ rfl

/-- The slave's callback passes on what it has read. -/
theorem awaiting_answer {got : Bytes} (h : Ledger m c t R R (S ++ got) S [] w)
    (hpass : (w.state = .start ∧ E.Unannounced R (S ++ got))
      ∨ (w.state = .syncStart ∧ E.Reached R)) :
    Triple (· = w) (writeData w.masterFd got) (fun _ => E.Proceeds m c t)
      (fun _ => E.Shown m c t) := by
  rintro v rfl
  rw [h.linked.master]
  have hsent := h.sentMaster got
  rw [writeData_open h.linked.masterFd_ne h.linked.masterUp h.linked.masterOpen]
  cases hend : (sendAll v.outcomes.writes got).2.1 with
  | failed => exact Or.inl hsent.over.gone
  | waiting =>
    rcases hpass with ⟨hstate, hleft⟩ | ⟨hstate, hR⟩
    · exact shown_of_unannounced hsent hstate hleft
    · exact shown_of_reached hsent hstate hR
  | all =>
    rw [sendAll_all hend] at hsent
    rcases hpass with ⟨hstate, hleft⟩ | ⟨hstate, hR⟩
    · exact Or.inr (Or.inl ⟨hstate, _, _, hsent, hleft⟩)
    · exact Or.inr (Or.inr (changed_of_reached hsent hstate hR))

/-- **A read of the slave** before the announcement: its `SYNC` in a read of its own announces the
transfer, and everything else is passed on. -/
theorem awaiting_slave (hstate : w.state = .start) (h : Ledger m c t R R S S [] w)
    (hleft : E.Unannounced R S) (hcut : E.SlaveCut R S w.outcomes) :
    Triple (· = w) (readFromSlave c) (fun _ => E.Proceeds m c t) (fun _ => E.Shown m c t) := by
  rintro u rfl
  have hstay : E.Awaiting m c t u := ⟨hstate, R, S, h, hleft⟩
  have hl := h.linked
  have hnext := hcut.next hleft
  rw [readFromSlave_open hl.masterFd_ne hl.clientUp hl.clientOpen]
  unfold Outcomes.chunk at hnext
  cases hr : u.outcomes.reads with
  -- nothing to read: the run stops in START_STATE
  | nil => exact hstay.shown
  | cons r reads =>
    have hsame : Ledger m c t R R S S [] (u.leftReads reads) := h.same (hl.same rfl rfl rfl rfl) rfl
    cases r with
    | error e =>
      simp only
      cases again e with
      | true => exact Or.inr (Or.inl ⟨hstate, R, S, hsame, hleft⟩)
      | false => exact Or.inl hsame.over.gone
    | ok got =>
      obtain ⟨b, bs⟩ := got
      simp only [hr] at hnext ⊢
      generalize (b :: bs).take maxRead = got at hnext ⊢
      have hread : Ledger m c t R R (S ++ got) S [] ((u.leftReads reads).log [.read c got]) :=
        h.readClient
      have hstate : ((u.leftReads reads).log [.read c got]).state = .start := hstate
      generalize ((u.leftReads reads).log [.read c got]) = v at hread hstate
      unfold passOn noticeSync
      -- the state changes at a read that is exactly the line `SYNC`
      rcases Decidable.em (got = syncLine) with hgot | hgot
      · rw [if_pos hgot] at hnext
        rw [if_pos hgot, run_modify_bind, run_get_bind]
        exact Triple.discard (awaiting_answer (w := { v with state := .syncStart }) hread.update
          (Or.inr ⟨rfl, hnext⟩)) _ rfl
      · rw [if_neg hgot] at hnext
        rw [if_neg hgot, run_pure_bind, run_get_bind]
        exact Triple.discard (awaiting_answer hread (Or.inl ⟨hstate, hnext⟩)) _ rfl

/-- The other callbacks read from other descriptors. -/
theorem awaiting_reader (hm : fd ≠ m) (hc : fd ≠ c) (h : E.Awaiting m c t w) :
    Triple (· = w) (readDelValue fd) (fun _ => E.Proceeds m c t) (fun _ => E.Shown m c t) := by
  obtain ⟨hstate, R, S, h, hleft⟩ := h
  obtain ⟨F, hs⟩ := streams_of_ledger h
  -- what comes from redis-server is on neither side of the exchange
  have htrack : Triple (· = w) (readDelValue fd) (fun _ => Track m c t R R S S [])
      (fun _ => Track m c t R R S S []) := by
    have hread : Triple (· = w) (readData fd maxRead) (fun _ => Track m c t R R S S [])
        (fun _ => Track m c t R R S S []) := by
      refine (readData_other hm hc maxRead).conseq (fun _ hw => hw ▸ h) (fun got w hgot => ?_)
        fun _ _ => Or.inl
      cases got with
      | none => exact hgot
      | some bs => exact Or.inl hgot
    refine Triple.bind hread fun got => ?_
    rcases got with _ | ⟨_ | ⟨b, bs⟩⟩
    · exact Keeps.pure
    · exact Keeps.pure
    · refine Keeps.get fun v => Keeps.bind (Keeps.modify fun u hu => ?_) fun _ => ?_
      · exact hu.imp (fun hu => hu.update) fun hu => hu.grows _ _ (List.prefix_refl _)
      · cases (v.answers.parseReadData ⟨b :: bs, v.outcomes.around⟩).2 with
        | done | unexpected => exact Keeps.pure
        | exit | crash | hang => exact Keeps.throw fun _ h => h
  -- and it does not change the state
  have hboth := htrack.and (readDelValue_beside hm h.linked hs)
  have hend : ∀ u, Track m c t R R S S [] u ∧ Beside m c t R F [] w.state w.bulkSize u →
      Gone E.stream m t u ∨ E.Awaiting m c t u := by
    rintro u ⟨hu | hu, hu'⟩
    · rcases hu' with hu' | ⟨-, -, hu', -⟩
      · exact Or.inl hu'.gone
      · exact Or.inr ⟨hu'.trans hstate, R, S, hu, hleft⟩
    · exact Or.inl hu.gone
  exact hboth.conseq (fun _ hw => ⟨hw, hw⟩) (fun _ u hu => (hend u hu).imp_right Or.inl)
    fun _ u hu => (hend u hu).elim Or.inl Awaiting.shown

/-- A callback of the slave for another descriptor, which is closed, does nothing or breaks the
connection. -/
theorem awaiting_gone (hfd : fd ∉ w.fds) (h : E.Awaiting m c t w) :
    Triple (· = w) (readFromSlave fd) (fun _ => E.Proceeds m c t) (fun _ => E.Shown m c t) := by
  rintro u rfl
  have hstay := h
  obtain ⟨-, R, S, h, -⟩ := h
  have hl := h.linked
  unfold readFromSlave
  rcases Decidable.em (fd = -1) with rfl | hne
  · rw [run_bind_ok (readData_none hl.masterFd_ne)]
    exact Or.inr (Or.inl hstay)
  · rw [run_bind_ok (readData_closed hl.masterFd_ne hne hfd)]
    exact Or.inl h.over.gone

/-! ## Runs -/

/-- From the change of the state on the transfer is followed. -/
theorem changed_shown (hreach : w.Reachable) (h : E.Changed m t w) {stop : Option Stop}
    (hrun : Moment Step.run KeepsTransfer w stop w') (c : Int) :
    Gone E.stream m t w' ∨ (w'.state ≠ .start ∧ E.Shown m c t w') := by
  obtain ⟨hstate, rfl, hclient, R, F, hs, hR⟩ := h
  rcases framed_moment (T := E.rest R) hreach hclient hstate hrun with ⟨es, htrace, hes⟩
    | ⟨R', F', X, hs', -, hframed⟩
  · obtain ⟨es₁, htrace₁, -, rfl, -⟩ := hs
    refine Or.inl ⟨es₁ ++ es, by rw [htrace, htrace₁, List.append_assoc], hes.imp ?_ ?_⟩
    · exact List.mem_append_right _
    · rw [hR.stream_eq, readFrom_append, List.prefix_append_right_inj]
      exact id
  · refine Or.inr ⟨fun hstart => ?_, ?_⟩
    · unfold Framed at hframed
      simp only [hstart] at hframed
    · have hall := hs.trans hs'
      rw [List.nil_append] at hall
      obtain ⟨es, htrace, hreset, hes, -, hX⟩ := hall
      exact Or.inr ⟨es, htrace, hreset, hes ▸ hX ▸ hR.handed_append hframed⟩

/-- Between the callbacks. -/
def Goes (E : Exchange) (w₀ w : World) : Prop :=
  Gone E.stream w₀.masterFd w₀.trace w ∨ E.Awaiting w₀.masterFd w₀.clientFd w₀.trace w
    ∨ ∃ w₁, w₁.Reachable ∧ E.Changed w₀.masterFd w₀.trace w₁ ∧ Run Step.run KeepsTransfer w₁ w

/-- A step in front of the transfer. -/
theorem awaiting_run {w₀ : World} (s : Step) (hreach : w.Reachable)
    (h : E.Awaiting w₀.masterFd w₀.clientFd w₀.trace w) (hcut : E.CutsWell w₀ w s) :
    Triple (· = w) s.run (fun _ => E.Proceeds w₀.masterFd w₀.clientFd w₀.trace)
      (fun _ => E.Shown w₀.masterFd w₀.clientFd w₀.trace) := by
  rintro v rfl
  obtain ⟨hstate, R, S, h, hleft⟩ := h
  obtain ⟨es, htrace, hreset, hes, -, hes', -, hX⟩ := h.streams
  have hdrop : v.trace.drop w₀.trace.length = es := by
    rw [htrace, List.drop_left']
    rfl
  unfold CutsWell at hcut
  -- the condition on the step, at what both sides have sent so far
  simp only [if_pos hstate, hdrop, hes, hes'] at hcut
  obtain ⟨hnone, hmaster, hslave⟩ := hcut
  have hl := h.linked
  have hup : Up True v := hreach.settled.up (hl.client ▸ hl.clientUp)
  have hw : ∀ fired, Ledger w₀.masterFd w₀.clientFd w₀.trace R R S S []
      { v with outcomes := s.outcomes, fired := fired } :=
    fun _ => h.same (hl.same rfl rfl rfl rfl) rfl
  rcases s.run_cases v with ⟨fired, heq⟩ | ⟨fd, fired, handler, hcalls, hentry, heq⟩ | heq
  · rw [heq]
    exact Or.inr (Or.inl ⟨hstate, R, S, hw fired, hleft⟩)
  · rw [heq]
    have hawait : E.Awaiting w₀.masterFd w₀.clientFd w₀.trace
        { v with outcomes := s.outcomes, fired := fired } := ⟨hstate, R, S, hw fired, hleft⟩
    cases handler with
    | readFromMaster =>
      -- the entry of the master's callback is the master's
      obtain ⟨-, howner⟩ := Settled.master (Or.inr hup) hentry
      rw [howner.trans hl.master]
      exact awaiting_master (w := { v with outcomes := s.outcomes, fired := fired }) hstate
        (hw fired) hleft (hmaster hcalls) _ rfl
    | readFromSlave =>
      -- the slave's descriptor, or one that was closed earlier in the turn
      rcases Decidable.em (fd ∈ v.fds) with hin | hin
      · have howner : fd = v.clientFd := hup.owner hin hentry
        rw [howner.trans hl.client]
        exact awaiting_slave (w := { v with outcomes := s.outcomes, fired := fired }) hstate
          (hw fired) hleft (hslave hcalls) _ rfl
      · exact awaiting_gone (w := { v with outcomes := s.outcomes, fired := fired })
          hin hawait _ rfl
    | readDelValue =>
      refine awaiting_reader ?_ ?_ hawait _ rfl
      · -- the entry of redis-server belongs to neither side
        rintro rfl
        rw [← hl.master, hup.master.entry] at hentry
        cases hentry
      · rintro rfl
        have hc := hup.client.resolve_left (hl.client ▸ hl.clientUp)
        rw [← hl.client, hc.entry] at hentry
        cases hentry
    | acceptTcpHandler =>
      -- no slave is accepted, so the callback stops
      obtain ⟨e, w', masked, hstop, hstart, htrace'⟩ :=
        acceptTcpHandler_none (w := { v with outcomes := s.outcomes, fired := fired })
          hup.masterFd_ne (hl.client ▸ hl.clientUp) (hnone hcalls)
      have hcallback : callback .acceptTcpHandler fd
          { v with outcomes := s.outcomes, fired := fired } = .error e w' := hstop
      rw [hcallback]
      refine Or.inr ⟨es ++ [.closed v.clientFd masked], ?_, ?_, ?_⟩
      · rw [htrace', htrace, List.append_assoc]
      · simp [hreset]
      · have hR : readFrom w₀.masterFd (es ++ [.closed v.clientFd masked]) = R := by
          rw [readFrom_append, hes]
          exact List.append_nil _
        have hS : readFrom w₀.clientFd (es ++ [.closed v.clientFd masked]) = S := by
          rw [readFrom_append, hes']
          exact List.append_nil _
        have hX' : scannedIn (es ++ [.closed v.clientFd masked]) = [] := by
          rw [scannedIn_append, hX]
          rfl
        unfold Handed
        rw [hR, hS, hX', hstart.trans hstate]
        exact ⟨rfl, hleft⟩
  · rw [heq, timeEvent_up (w := { v with outcomes := s.outcomes }) hup.masterFd_ne]
    exact Or.inr (Or.inl ⟨hstate, R, S, h.same (hl.same rfl rfl rfl rfl) rfl, hleft⟩)

/-- A step behind the change of the state. -/
theorem changed_run {w₀ w₁ : World} (s : Step) (hreach : w₁.Reachable)
    (h : E.Changed w₀.masterFd w₀.trace w₁) (hrun : Run Step.run KeepsTransfer w₁ w)
    (hcut : E.CutsWell w₀ w s) :
    Triple (· = w) s.run (fun _ => E.Goes w₀)
      (fun _ => E.Shown w₀.masterFd w₀.clientFd w₀.trace) := by
  have hgone : Triple (Gone E.stream w₀.masterFd w₀.trace) s.run (fun _ => E.Goes w₀)
      (fun _ => E.Shown w₀.masterFd w₀.clientFd w₀.trace) :=
    (keeps_run_of_grows Gone.grows s).conseq (fun _ => id) (fun _ _ => Or.inl) fun _ _ => Or.inl
  rintro v rfl
  rcases changed_shown hreach h (.reached hrun) w₀.clientFd with hlost | ⟨hstate, -⟩
  · exact hgone v hlost
  · unfold CutsWell at hcut
    simp only [if_neg hstate] at hcut
    cases hstep : s.run v with
    | ok a w' => exact Or.inr (Or.inr ⟨w₁, hreach, h, .step hrun hcut hstep⟩)
    | error e w' =>
      exact (changed_shown hreach h (.stopped hrun hcut hstep) _).elim Or.inl fun h => h.2

/-- **One step** of a run whose reads are cut as the condition says: what goes on is kept, and
what is shown at a stop is shown. -/
theorem run_goes {w₀ : World} (s : Step) :
    Triple (fun w => (w.Reachable ∧ E.Goes w₀ w) ∧ E.CutsWell w₀ w s) s.run
      (fun _ w => w.Reachable ∧ E.Goes w₀ w)
      (fun _ => E.Shown w₀.masterFd w₀.clientFd w₀.trace) := by
  rintro w ⟨⟨hreach, hcase⟩, hcut⟩
  have hgoes : Triple (· = w) s.run (fun _ w => w.Reachable → E.Goes w₀ w)
      (fun _ => E.Shown w₀.masterFd w₀.clientFd w₀.trace) := by
    -- over, still waiting, or the state has changed
    rcases hcase with hgone | hawait | ⟨w₁, hreach₁, hchanged, hrun⟩
    · exact (keeps_run_of_grows Gone.grows s).conseq (fun _ h => h ▸ hgone)
        (fun _ _ h _ => Or.inl h) fun _ _ => Or.inl
    · refine (awaiting_run s hreach hawait hcut).post fun _ v h hreach => ?_
      rcases h with h | h | h
      · exact Or.inl h
      · exact Or.inr (Or.inl h)
      · exact Or.inr (Or.inr ⟨v, hreach, h, .refl⟩)
    · exact (changed_run s hreach₁ hchanged hrun hcut).post fun _ _ h _ => h
  have hnext := hgoes w rfl
  cases hstep : s.run w with
  | ok a w' =>
    obtain ⟨w₁, hstart, hrun⟩ := hreach
    have hreach' : w'.Reachable := ⟨w₁, hstart, .step hrun trivial hstep⟩
    rw [hstep] at hnext
    exact ⟨hreach', hnext hreach'⟩
  | error e w' =>
    rw [hstep] at hnext
    exact hnext

/-- Nothing has been announced when nothing has been read. -/
theorem unannounced_nil : E.Unannounced [] [] := by
  refine ⟨List.nil_prefix, ?_⟩
  unfold lead
  cases E.announcement with
  | sync before =>
    refine ⟨List.nil_prefix, fun h => ?_⟩
    have := congrArg List.length h
    simp [syncLine] at this
  | fullresync arguments =>
    intro h
    have := congrArg List.length h
    simp [fullresyncLine] at this

end Exchange

/-- **The hand-over is right** when the lines that announce it arrive in reads of their own: in
every run from `START_STATE`, at every moment. -/
theorem handed_of_run {w₀ : World} (h : w₀.Reachable) (hclient : w₀.clientFd ≠ -1)
    (hstate : w₀.state = .start) (E : Exchange) {stop : Option Stop} {w : World}
    (hrun : Moment Step.run (E.CutsWell w₀) w₀ stop w) :
    ∃ es, w.trace = w₀.trace ++ es ∧ (Event.reset ∉ es → readFrom w₀.masterFd es <+: E.stream →
      E.Handed (readFrom w₀.masterFd es) (readFrom w₀.clientFd es) (scannedIn es) w) := by
  have hledger := (h.settled.up hclient).ledger hclient
  have hstart : E.Goes w₀ w₀ :=
    Or.inr (Or.inl ⟨hstate, [], [], hledger, Exchange.unannounced_nil⟩)
  have hkeeps := hrun.keeps Exchange.run_goes ⟨h, hstart⟩
  have hshown : E.Shown w₀.masterFd w₀.clientFd w₀.trace w := by
    cases stop with
    | some e => exact hkeeps
    | none =>
      obtain ⟨-, hgone | hawait | ⟨w₁, hreach, hchanged, hrun⟩⟩ := hkeeps
      · exact Or.inl hgone
      · exact hawait.shown
      · exact (Exchange.changed_shown hreach hchanged (.reached hrun) _).elim Or.inl fun h => h.2
  rcases hshown with ⟨es, htrace, hes⟩ | ⟨es, htrace, -, hhanded⟩
  · exact ⟨es, htrace, fun hreset hR => absurd hes (not_or.mpr ⟨hreset, not_not_intro hR⟩)⟩
  · exact ⟨es, htrace, fun _ _ => hhanded⟩

namespace Handing

/-- `DEL k`. -/
def del : Bytes := Resp.array [Resp.delName, [107]]

/-- `+OK`, `+FULLRESYNC a 1`, and the transfer of three bytes with a `DEL` behind it. -/
def exchange : Exchange where
  replies := [43, 79, 75, 13, 10]
  announcement := .fullresync [32, 97, 32, 49, 13, 10]
  transfer := { Transferring.transfer with commands := del }

/-- The reply, the line, the header and the payload, and the `DEL`, which is asked for. -/
def handsOver : List Step :=
  Accepting.ready 5 [.ok (43, [79, 75, 13, 10])] [.ok 4]
    ++ Accepting.ready 5 [.ok (43, fullresyncLine.tail ++ [32, 97, 32, 49, 13, 10])] [.ok 20]
    ++ Transferring.bytes Transferring.transfer.head
    ++ Transferring.bytes Transferring.transfer.payload
    ++ Accepting.ready 5 [.ok (42, del.tail)] [.ok 20, .ok 40]

/-- The master answers `+CONTINUE`, and goes on with a `DEL`. -/
def continues : List Step :=
  Accepting.ready 5 [.ok (43, continueLine.tail ++ crlf)] [.ok 10]
    ++ Transferring.bytes (del.take 4)
    ++ Accepting.ready 5 [.ok (36, del.drop 5)] [.ok 1]
    ++ Accepting.ready 5 [.ok (13, del.drop 7)] [.ok 20]

end Handing

theorem handed_of_run_fullresync : ∃ w₀ w es, w₀.Reachable ∧ w₀.clientFd ≠ -1
    ∧ w₀.state = .start ∧ Moment Step.run (Handing.exchange.CutsWell w₀) w₀ none w
    ∧ w.trace = w₀.trace ++ es ∧ readFrom w₀.masterFd es = Handing.exchange.stream
    ∧ w.state = .running ∧ scannedIn es = Handing.del ∧ w.asked = [[107]]
    ∧ Handing.exchange.Handed (readFrom w₀.masterFd es) (readFrom w₀.clientFd es)
      (scannedIn es) w := by
  have hrun : ((World.start (Accepting.outcomes 7)).bind
      (runAll Step.run (fun _ _ => True) (Accepting.steps 7))).any
        (fun w₀ => decide (w₀.clientFd ≠ -1 ∧ w₀.state = .start)
          && (runAll Step.run (Handing.exchange.CutsWell w₀) Handing.handsOver w₀).any fun w =>
            let es := w.trace.drop w₀.trace.length
            decide (w.trace = w₀.trace ++ es ∧ Event.reset ∉ es
              ∧ readFrom w₀.masterFd es = Handing.exchange.stream ∧ w.state = .running
              ∧ scannedIn es = Handing.del ∧ w.asked = [[107]])) = true := by
    decide +kernel
  -- the evaluated run as a run of the model, from the answer to a scanned command
  obtain ⟨w₀, hreach, hw₀⟩ := World.reachable_of_any hrun
  obtain ⟨hw, hany⟩ := Bool.and_eq_true_iff.mp hw₀
  obtain ⟨hclient, hstate⟩ := of_decide_eq_true hw
  obtain ⟨w, hlast, hlastw⟩ := Run.of_any hany
  obtain ⟨htrace, hreset, hread, hrunning, hscanned, hasked⟩ := of_decide_eq_true hlastw
  obtain ⟨es, hes, hhanded⟩ := handed_of_run hreach hclient hstate _ (.reached hlast)
  obtain rfl := List.append_cancel_left (hes.symm.trans htrace)
  exact ⟨w₀, w, _, hreach, hclient, hstate, .reached hlast, hes, hread, hrunning, hscanned,
    hasked, hhanded hreset (hread ▸ List.prefix_refl _)⟩

/-- **Behind `+CONTINUE` commands are lost.** They are taken for the header of a transfer: a
`DEL` is passed on to the slave, but not scanned as a whole, and its key is not asked for. -/
theorem not_handed_continue : ∃ w₀ w es, w₀.Reachable ∧ w₀.clientFd ≠ -1 ∧ w₀.state = .start
    ∧ Run Step.run (fun _ _ => True) w₀ w ∧ w.trace = w₀.trace ++ es ∧ Event.reset ∉ es
    ∧ readFrom w₀.masterFd es = continueLine ++ crlf ++ Handing.del
    ∧ writtenTo w₀.clientFd es = continueLine ++ crlf ++ Handing.del
    ∧ scannedIn es ≠ Handing.del ∧ ∀ e ∈ es, ¬ e matches .asked _ _ := by
  have hrun : ((World.start (Accepting.outcomes 7)).bind
      (runAll Step.run (fun _ _ => True) (Accepting.steps 7))).any
        (fun w₀ => decide (w₀.clientFd ≠ -1 ∧ w₀.state = .start)
          && (runAll Step.run (fun _ _ => True) Handing.continues w₀).any fun w =>
            let es := w.trace.drop w₀.trace.length
            decide (w.trace = w₀.trace ++ es ∧ Event.reset ∉ es
              ∧ readFrom w₀.masterFd es = continueLine ++ crlf ++ Handing.del
              ∧ writtenTo w₀.clientFd es = continueLine ++ crlf ++ Handing.del
              ∧ scannedIn es ≠ Handing.del ∧ ∀ e ∈ es, ¬ e matches .asked _ _)) = true := by
    decide +kernel
  obtain ⟨w₀, hreach, hw₀⟩ := World.reachable_of_any hrun
  obtain ⟨hw, hany⟩ := Bool.and_eq_true_iff.mp hw₀
  obtain ⟨hclient, hstate⟩ := of_decide_eq_true hw
  obtain ⟨w, hlast, hw⟩ := Run.of_any hany
  exact ⟨w₀, w, _, hreach, hclient, hstate, hlast, of_decide_eq_true hw⟩

end Iceberg
