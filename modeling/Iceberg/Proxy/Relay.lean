import Iceberg.Proxy.Bookkeeping

/-!
# The relay

What the proxy reads from the master it writes to the slave, and the other way round. The
`Ledger` of a connection holds the four streams since some moment; every read and every write
of a callback is an entry in it, and the callbacks differ only in how they alternate the two.
A reset ends the connection for good (`Over`).
-/

namespace Iceberg

open Triples

/-- The bytes that are read from a descriptor. -/
def readFrom (fd : Int) (es : List Event) : Bytes :=
  es.flatMap fun
    | .read x bs => if x = fd then bs else []
    | _ => []

/-- The bytes that are written to a descriptor. -/
def writtenTo (fd : Int) (es : List Event) : Bytes :=
  es.flatMap fun
    | .wrote x bs => if x = fd then bs else []
    | _ => []

/-- The bytes that are given to `processInputBuffer`. -/
def scannedIn (es : List Event) : Bytes :=
  es.flatMap fun
    | .scanned bs => bs
    | _ => []

@[simp] theorem readFrom_append (fd : Int) (es es' : List Event) :
    readFrom fd (es ++ es') = readFrom fd es ++ readFrom fd es' := List.flatMap_append

@[simp] theorem writtenTo_append (fd : Int) (es es' : List Event) :
    writtenTo fd (es ++ es') = writtenTo fd es ++ writtenTo fd es' := List.flatMap_append

@[simp] theorem scannedIn_append (es es' : List Event) :
    scannedIn (es ++ es') = scannedIn es ++ scannedIn es' := List.flatMap_append

theorem readFrom_wrote (fd x : Int) (pieces : List Bytes) :
    readFrom fd (pieces.map (Event.wrote x)) = [] := by
  simp [readFrom, List.flatMap_map]

theorem scannedIn_wrote (x : Int) (pieces : List Bytes) :
    scannedIn (pieces.map (Event.wrote x)) = [] := by
  simp [scannedIn, List.flatMap_map]

/-- The pieces of a write are what has been written. -/
theorem writtenTo_wrote (fd x : Int) (pieces : List Bytes) :
    writtenTo fd (pieces.map (Event.wrote x)) = if x = fd then pieces.flatten else [] := by
  induction pieces with
  | nil => simp [writtenTo]
  | cons piece pieces ih =>
    have hcons : writtenTo fd ((piece :: pieces).map (Event.wrote x))
        = (if x = fd then piece else []) ++ writtenTo fd (pieces.map (Event.wrote x)) := rfl
    rw [hcons, ih]
    split <;> simp

/-- The two ends of the relay are open. -/
structure Linked (m c : Int) (w : World) : Prop where
  master : w.masterFd = m
  client : w.clientFd = c
  masterUp : m ≠ -1
  clientUp : c ≠ -1
  masterOpen : m ∈ w.fds
  clientOpen : c ∈ w.fds
  distinct : m ≠ c
  reader : w.readFd = -1 ∨ (w.readFd ∈ w.fds ∧ w.readFd ≠ m ∧ w.readFd ≠ c)

/-- The streams of the connection since the trace was `t`: `R` was read from the master, `F`
written to the slave, `S` read from the slave and `G` written to the master. -/
structure Ledger (m c : Int) (t : List Event) (R F S G X : Bytes) (w : World) : Prop where
  linked : Linked m c w
  streams : ∃ es, w.trace = t ++ es ∧ Event.reset ∉ es ∧ readFrom m es = R ∧ writtenTo c es = F
    ∧ readFrom c es = S ∧ writtenTo m es = G ∧ scannedIn es = X

/-- There has been a reset since the trace was `t`. -/
def Over (t : List Event) (w : World) : Prop := ∃ es, w.trace = t ++ es ∧ Event.reset ∈ es

variable {m c fd : Int} {t : List Event} {R F S G X bs : Bytes} {w w' : World}

/-! ## Entries -/

/-- The link depends on the three globals and the open descriptors only. -/
theorem Linked.same (h : Linked m c w) (hmaster : w'.masterFd = w.masterFd)
    (hclient : w'.clientFd = w.clientFd) (hreader : w'.readFd = w.readFd)
    (hfds : w'.fds = w.fds) : Linked m c w' where
  master := hmaster.trans h.master
  client := hclient.trans h.client
  masterUp := h.masterUp
  clientUp := h.clientUp
  masterOpen := hfds ▸ h.masterOpen
  clientOpen := hfds ▸ h.clientOpen
  distinct := h.distinct
  reader := by
    rw [hreader, hfds]
    exact h.reader

theorem Linked.masterFd_ne (h : Linked m c w) : w.masterFd ≠ -1 := h.master ▸ h.masterUp

/-- More events make longer streams. -/
theorem Ledger.log (h : Ledger m c t R F S G X w) (es : List Event) (hl : Linked m c w')
    (htrace : w'.trace = w.trace ++ es) (hreset : Event.reset ∉ es) :
    Ledger m c t (R ++ readFrom m es) (F ++ writtenTo c es) (S ++ readFrom c es)
      (G ++ writtenTo m es) (X ++ scannedIn es) w' := by
  obtain ⟨es', htrace', hreset', rfl, rfl, rfl, rfl, rfl⟩ := h.streams
  refine ⟨hl, es' ++ es, by rw [htrace, htrace', List.append_assoc], ?_, ?_, ?_, ?_, ?_, ?_⟩
  · rw [List.mem_append]
    exact fun hmem => hmem.elim hreset' hreset
  · exact readFrom_append ..
  · exact writtenTo_append ..
  · exact readFrom_append ..
  · exact writtenTo_append ..
  · exact scannedIn_append ..

theorem Ledger.same (h : Ledger m c t R F S G X w) (hl : Linked m c w')
    (htrace : w'.trace = w.trace) : Ledger m c t R F S G X w' := by
  have := h.log [] hl (by rw [htrace, List.append_nil]) List.not_mem_nil
  simpa [readFrom, writtenTo, scannedIn] using this

/-- The fields that the callbacks set by themselves play no part in it. -/
theorem Ledger.update (h : Ledger m c t R F S G X w) {state : State} {bulkSize : Int} {buf : Bytes}
    {answers : Answers} {cronloops : Nat} {fired : List Int} {seen : Nat} {asked : List Key} :
    Ledger m c t R F S G X { w with
      state := state
      bulkSize := bulkSize
      bufMasterCmd := buf
      answers := answers
      cronloops := cronloops
      fired := fired
      seen := seen
      asked := asked } :=
  h.same (h.linked.same rfl rfl rfl rfl) rfl

/-- A read from the master. -/
theorem Ledger.readMaster {reads : List (Except Int (UInt8 × Bytes))}
    (h : Ledger m c t R F S G X w) :
    Ledger m c t (R ++ bs) F S G X ((w.leftReads reads).log [.read m bs]) := by
  have hlog : Ledger m c t _ _ _ _ _ ((w.leftReads reads).log [.read m bs]) :=
    h.log [.read m bs] (h.linked.same rfl rfl rfl rfl) rfl (by simp)
  simpa [readFrom, writtenTo, scannedIn, h.linked.distinct] using hlog

/-- A read from the slave. -/
theorem Ledger.readClient {reads : List (Except Int (UInt8 × Bytes))}
    (h : Ledger m c t R F S G X w) :
    Ledger m c t R F (S ++ bs) G X ((w.leftReads reads).log [.read c bs]) := by
  have hlog : Ledger m c t _ _ _ _ _ ((w.leftReads reads).log [.read c bs]) :=
    h.log [.read c bs] (h.linked.same rfl rfl rfl rfl) rfl (by simp)
  simpa [readFrom, writtenTo, scannedIn, h.linked.distinct.symm] using hlog

/-- A read from another descriptor. -/
theorem Ledger.readOther {reads : List (Except Int (UInt8 × Bytes))}
    (h : Ledger m c t R F S G X w) (hm : fd ≠ m) (hc : fd ≠ c) :
    Ledger m c t R F S G X ((w.leftReads reads).log [.read fd bs]) := by
  have hlog : Ledger m c t _ _ _ _ _ ((w.leftReads reads).log [.read fd bs]) :=
    h.log [.read fd bs] (h.linked.same rfl rfl rfl rfl) rfl (by simp)
  simpa [readFrom, writtenTo, scannedIn, hm, hc] using hlog

theorem reset_notMem_wrote (pieces : List Bytes) :
    Event.reset ∉ pieces.map (Event.wrote fd) := by
  simp

/-- A write to the slave, as far as it gets. -/
theorem Ledger.sentClient (h : Ledger m c t R F S G X w) (bs : Bytes) :
    Ledger m c t R (F ++ (sendAll w.outcomes.writes bs).1.flatten) S G X (w.sent c bs) := by
  have hlog : Ledger m c t _ _ _ _ _ (w.sent c bs) :=
    h.log _ (h.linked.same rfl rfl rfl rfl) rfl
      (reset_notMem_wrote (sendAll w.outcomes.writes bs).1)
  simpa [readFrom_wrote, writtenTo_wrote, scannedIn_wrote, h.linked.distinct.symm] using hlog

/-- A write to the master, as far as it gets. -/
theorem Ledger.sentMaster (h : Ledger m c t R F S G X w) (bs : Bytes) :
    Ledger m c t R F S (G ++ (sendAll w.outcomes.writes bs).1.flatten) X (w.sent m bs) := by
  have hlog : Ledger m c t _ _ _ _ _ (w.sent m bs) :=
    h.log _ (h.linked.same rfl rfl rfl rfl) rfl
      (reset_notMem_wrote (sendAll w.outcomes.writes bs).1)
  simpa [readFrom_wrote, writtenTo_wrote, scannedIn_wrote, h.linked.distinct] using hlog

/-- A write to another descriptor. -/
theorem Ledger.sentOther (h : Ledger m c t R F S G X w) (bs : Bytes) (hm : fd ≠ m) (hc : fd ≠ c) :
    Ledger m c t R F S G X (w.sent fd bs) := by
  have hlog : Ledger m c t _ _ _ _ _ (w.sent fd bs) :=
    h.log _ (h.linked.same rfl rfl rfl rfl) rfl
      (reset_notMem_wrote (sendAll w.outcomes.writes bs).1)
  simpa [readFrom_wrote, writtenTo_wrote, scannedIn_wrote, hm, hc] using hlog

/-! ## A reset is for good -/

/-- To shut a descriptor records its `close`. -/
theorem World.shut_trace (w : World) (fd : Int) :
    (w.shut fd).trace = w.trace
      ++ if fd ≠ -1 then [Event.closed fd ((w.aeDeleteFileEvent fd).events fd).isSome] else [] := by
  unfold World.shut
  split
  · show (w.aeDeleteFileEvent fd).trace ++ _ = _
    unfold World.aeDeleteFileEvent
    split <;> rfl
  · exact (List.append_nil _).symm

theorem World.closeFd_trace (w : World) : ∃ es, w.closeFd.trace = w.trace ++ Event.reset :: es := by
  unfold World.closeFd
  simp only [World.shut_trace, List.append_assoc]
  exact ⟨_, rfl⟩

/-- `closeFd` reads nothing. -/
theorem World.closeFd_reads (w : World) (m : Int) :
    ∃ es, w.closeFd.trace = w.trace ++ es ∧ readFrom m es = [] := by
  have hnone : ∀ c : Prop, ∀ _ : Decidable c, ∀ x : Int, ∀ masked : Bool,
      readFrom m (if c then [Event.closed x masked] else []) = [] := by
    intro c _ x masked
    split <;> rfl
  unfold World.closeFd
  simp only [World.shut_trace, List.append_assoc]
  refine ⟨_, rfl, ?_⟩
  simp only [readFrom_append, hnone, List.append_nil]
  rfl

-- what stands a longer trace, every step keeps
section Growing

variable {P : World → Prop} (hP : ∀ w w', P w → w.trace <+: w'.trace → P w')

include hP

theorem stable_of_grows : Stable P where
  set := fun w _ _ _ _ _ _ _ _ _ h => hP w _ h (List.prefix_append _ _)

/-- What stands more events stands connections and resets. -/
theorem robust_of_grows : Robust P where
  reconnects := by
    rintro w _ h - ⟨_, _, _, ⟨_, _, _, _, _, es, -, rfl⟩, rfl⟩
    exact hP w _ h (List.prefix_append _ _)
  relinks := by
    rintro w _ h ⟨_, _, _, ⟨_, _, _, _, _, es, -, rfl⟩, -, rfl⟩
    exact hP w _ h (List.prefix_append _ _)
  leftReads := fun w _ h => hP w _ h (List.prefix_refl _)
  sent := fun w _ _ h => hP w _ h (List.prefix_append _ _)
  closeFd := fun w h => by
    obtain ⟨es, htrace⟩ := w.closeFd_trace
    exact hP w _ h (htrace ▸ List.prefix_append _ _)

theorem keeps_readData_of_grows (fd : Int) (size : Nat) : Keeps P P (readData fd size) :=
  (robust_of_grows hP).enduring.keeps_readData (fun w _ h => hP w _ h (List.prefix_append _ _)) size

theorem keeps_writeData_of_grows (fd : Int) (bs : Bytes) : Keeps P P (writeData fd bs) :=
  (robust_of_grows hP).keeps_writeData fd bs

/-- It stands every callback. -/
theorem keeps_callback_of_grows (handler : Handler) (fd : Int) :
    Keeps P P (callback handler fd) := by
  have hstable := stable_of_grows hP
  have hread := keeps_readData_of_grows hP fd
  have hwrite := keeps_writeData_of_grows hP
  cases handler with
  | readFromMaster =>
    exact keeps_readFromMaster (fun _ h => h) (.of_keeps hwrite _) hread
      hstable.settable.stateless
      (keeps_processInputBuffer (fun _ h => h) hwrite hstable)
  | readFromSlave => exact keeps_readFromSlave hread (.of_keeps hwrite _) hstable.settable.stateless
  | readDelValue => exact keeps_readDelValue (fun _ h => h) hread hstable.settable
  | acceptTcpHandler => exact (robust_of_grows hP).keeps_acceptTcpHandler

/-- It stands every step. -/
theorem keeps_run_of_grows (s : Step) : Keeps P P s.run := by
  intro w h
  have hset : P { w with outcomes := s.outcomes } := hP w _ h (List.prefix_refl _)
  rcases s.run_cases w with ⟨fired, heq⟩ | ⟨fd, fired, handler, -, -, heq⟩ | heq
  · rw [heq]
    exact hP w _ h (List.prefix_refl _)
  · rw [heq]
    exact keeps_callback_of_grows hP handler fd _ (hP w _ h (List.prefix_refl _))
  · rw [heq]
    exact (robust_of_grows hP).enduring.keeps_timeEvent
      (fun w _ h => hP w _ h (List.prefix_refl _)) _ hset

end Growing

/-- A reset stays in the trace. -/
theorem Over.grows (w w' : World) (h : Over t w) (hmore : w.trace <+: w'.trace) : Over t w' := by
  obtain ⟨es, htrace, hreset⟩ := h
  obtain ⟨es', hes'⟩ := hmore
  exact ⟨es ++ es', by rw [← hes', htrace, List.append_assoc],
    List.mem_append_left _ hreset⟩

theorem World.over_closeFd (w : World) : Over w.trace w.closeFd := by
  obtain ⟨es, htrace⟩ := w.closeFd_trace
  exact ⟨_, htrace, List.mem_cons_self⟩

/-- A reset since a later moment is one since an earlier one. -/
theorem Over.of_trace {es : List Event} (h : Over w.trace w') (htrace : w.trace = t ++ es) :
    Over t w' := by
  obtain ⟨es', htrace', hreset⟩ := h
  refine ⟨es ++ es', ?_, List.mem_append_right _ hreset⟩
  rw [htrace', htrace, List.append_assoc]

theorem Ledger.over (h : Ledger m c t R F S G X w) : Over t w.closeFd := by
  obtain ⟨es, htrace, -⟩ := h.streams
  exact w.over_closeFd.of_trace htrace

/-! ## Single calls -/

/-- **`readData` from the master** enters its bytes into the ledger, or resets. -/
theorem readData_master (size : Nat) :
    Triple (Ledger m c t R F S G X) (readData m size) (fun got w => match got with
      | some bs => bs.length ≤ size ∧ Ledger m c t (R ++ bs) F S G X w
      | none => Over t w) (fun _ => Ledger m c t R F S G X) := by
  intro w h
  rw [readData_open h.linked.masterFd_ne h.linked.masterUp h.linked.masterOpen]
  cases w.outcomes.reads with
  | nil => exact h
  | cons r reads =>
    have hrest : Ledger m c t R F S G X (w.leftReads reads) :=
      h.same (h.linked.same rfl rfl rfl rfl) rfl
    cases r with
    | error e =>
      simp only
      cases again e with
      | true =>
        refine ⟨Nat.zero_le _, ?_⟩
        rwa [List.append_nil]
      | false => exact hrest.over
    | ok got => exact ⟨List.length_take_le _ _, h.readMaster⟩

/-- **`readData` from the slave** enters its bytes into the ledger, or resets. -/
theorem readData_client (size : Nat) :
    Triple (Ledger m c t R F S G X) (readData c size) (fun got w => match got with
      | some bs => Ledger m c t R F (S ++ bs) G X w
      | none => Over t w) (fun _ => Ledger m c t R F S G X) := by
  intro w h
  rw [readData_open h.linked.masterFd_ne h.linked.clientUp h.linked.clientOpen]
  cases w.outcomes.reads with
  | nil => exact h
  | cons r reads =>
    have hrest : Ledger m c t R F S G X (w.leftReads reads) :=
      h.same (h.linked.same rfl rfl rfl rfl) rfl
    cases r with
    | error e =>
      simp only
      cases again e with
      | true =>
        show Ledger m c t R F (S ++ []) G X _
        rwa [List.append_nil]
      | false => exact hrest.over
    | ok got => exact h.readClient

theorem sendAll_begins (writes : List (Except Int Nat)) (bs : Bytes) :
    (sendAll writes bs).1.flatten <+: bs := by
  obtain ⟨rest, hrest, -⟩ := sendAll_flatten writes bs
  exact ⟨rest, hrest⟩

theorem sendAll_all {writes : List (Except Int Nat)} (h : (sendAll writes bs).2.1 = .all) :
    (sendAll writes bs).1.flatten = bs := by
  obtain ⟨rest, hrest, hall⟩ := sendAll_flatten writes bs
  rwa [hall h, List.append_nil] at hrest

/-- **`writeData` to the slave** enters all bytes, or resets; while it waits, a beginning of them
has been entered. -/
theorem writeData_client (bs : Bytes) :
    Triple (Ledger m c t R F S G X) (writeData c bs) (fun done w => match done with
      | true => Ledger m c t R (F ++ bs) S G X w
      | false => Over t w) (fun _ w => ∃ p, p <+: bs ∧ Ledger m c t R (F ++ p) S G X w) := by
  intro w h
  rw [writeData_open h.linked.masterFd_ne h.linked.clientUp h.linked.clientOpen]
  have hsent := h.sentClient bs
  cases hend : (sendAll w.outcomes.writes bs).2.1 with
  | all =>
    rw [sendAll_all hend] at hsent
    exact hsent
  | waiting => exact ⟨_, sendAll_begins _ _, hsent⟩
  | failed => exact hsent.over

/-- **`writeData` to the master**, likewise. -/
theorem writeData_master (bs : Bytes) :
    Triple (Ledger m c t R F S G X) (writeData m bs) (fun done w => match done with
      | true => Ledger m c t R F S (G ++ bs) X w
      | false => Over t w) (fun _ w => ∃ p, p <+: bs ∧ Ledger m c t R F S (G ++ p) X w) := by
  intro w h
  rw [writeData_open h.linked.masterFd_ne h.linked.masterUp h.linked.masterOpen]
  have hsent := h.sentMaster bs
  cases hend : (sendAll w.outcomes.writes bs).2.1 with
  | all =>
    rw [sendAll_all hend] at hsent
    exact hsent
  | waiting => exact ⟨_, sendAll_begins _ _, hsent⟩
  | failed => exact hsent.over

/-! ## Querying -/

/-- The ledger, or a reset. -/
def Track (m c : Int) (t : List Event) (R F S G X : Bytes) (w : World) : Prop :=
  Ledger m c t R F S G X w ∨ Over t w

/-- A query writes to another descriptor: the ledger stays, or there is a reset. -/
theorem queryKey_track (place : Int) (key : Key) :
    Keeps (Track m c t R F S G X) (Track m c t R F S G X) (queryKey place key) := by
  refine Triple.or ?_ ?_
  · intro w h
    have hm := h.linked.masterFd_ne
    rcases h.linked.reader with hr | ⟨hin, hrm, hrc⟩
    · rw [queryKey_none hm hr]
      exact Or.inl h
    · rcases Decidable.em (w.readFd = -1) with hr | hr
      · rw [queryKey_none hm hr]
        exact Or.inl h
      rw [queryKey_open hm hr hin]
      cases w.answers.q.isFull with
      | true => exact Or.inl h
      | false =>
        -- the query goes to redis-server, neither side of the relay
        have hsent := h.sentOther (Scan.queryCmd key) hrm hrc
        rw [if_neg (by decide)]
        cases (sendAll w.outcomes.writes (Scan.queryCmd key)).2.1 with
        | all =>
          have hlog : Ledger m c t _ _ _ _ _ (w.queried place key) :=
            hsent.log [.asked place key] (hsent.linked.same rfl rfl rfl rfl) rfl (by simp)
          refine Or.inl ?_
          simpa [readFrom, writtenTo, scannedIn] using hlog
        | waiting => exact Or.inl hsent
        | failed => exact Or.inr hsent.over
  · have hquery := keeps_queryKey (keeps_writeData_of_grows (Over.grows (t := t)))
      (stable_of_grows Over.grows).scannable place key
    exact hquery.conseq (fun _ => id) (fun _ _ => Or.inr) (fun _ _ => Or.inr)

/-- The acts of a scan. Induction on them. -/
theorem performScan_track (base : Int) (acts : List Scan.Act) :
    Keeps (Track m c t R F S G X) (Track m c t R F S G X) (performScan base acts) := by
  induction acts with
  | nil => exact Keeps.pure
  | cons act acts ih =>
    cases act with
    | query start key => exact (queryKey_track _ _).bind fun _ => ih
    | save buf =>
      refine Keeps.bind (Keeps.modify fun w h => ?_) fun _ => ih
      exact h.imp (fun h => h.same (h.linked.same rfl rfl rfl rfl) rfl)
        fun h => h.grows _ _ (List.prefix_refl _)

/-- **The scan** adds its chunk to what has been scanned. -/
theorem processInputBuffer_track (data : WData) :
    Triple (Track m c t R F S G X) (processInputBuffer data)
      (fun _ => Track m c t R F S G (X ++ data.data))
      (fun _ => Track m c t R F S G (X ++ data.data)) := by
  refine Triple.bind Triple.get fun v => Triple.pre (P := Track m c t R F S G X) ?_ fun _ h => h.2
  refine Triple.bind (R := fun _ => Track m c t R F S G (X ++ data.data))
    (Triple.modify fun w h => ?_) fun _ => Keeps.bind (performScan_track _ _) fun _ => ?_
  · refine h.imp (fun h => ?_) fun h => h.grows _ _ (List.prefix_append _ _)
    have hlog : Ledger m c t _ _ _ _ _ { w with
        bufMasterCmd := []
        seen := w.seen + data.data.length
        trace := w.trace ++ [Event.scanned data.data] } :=
      h.log [.scanned data.data] (h.linked.same rfl rfl rfl rfl) rfl (by simp)
    simpa [readFrom, writtenTo, scannedIn] using hlog
  · cases (Scan.processInputBuffer v.bufMasterCmd data).2 with
    | done | unexpected => exact Keeps.pure
    | exit | crash | hang => exact Keeps.throw fun _ h => h

/-! ## The callbacks -/

/-- Everything that was read has been passed on. -/
def Even (m c : Int) (t : List Event) (w : World) : Prop :=
  (∃ R S X, Ledger m c t R R S S X w) ∨ Over t w

/-- A beginning of what was read has been passed on. -/
def Halted (m c : Int) (t : List Event) (w : World) : Prop :=
  (∃ R F S G X, F <+: R ∧ G <+: S ∧ Ledger m c t R F S G X w) ∨ Over t w

theorem Ledger.halted (h : Ledger m c t R F S G X w) (hF : F <+: R) (hG : G <+: S) :
    Halted m c t w := Or.inl ⟨R, F, S, G, X, hF, hG, h⟩

theorem Even.halted (h : Even m c t w) : Halted m c t w := by
  rcases h with ⟨R, S, X, h⟩ | h
  · exact h.halted (List.prefix_refl _) (List.prefix_refl _)
  · exact Or.inr h

/-- The chunk that was read is passed on to the slave. -/
theorem writeClient_track (bs : Bytes) :
    Triple (Track m c t (R ++ bs) R S S X) (do
      let w ← get
      discard (writeData w.clientFd bs)) (fun _ => Even m c t) (fun _ => Halted m c t) := by
  refine Triple.or ?_ ?_
  · intro w h
    rw [run_get_bind, h.linked.client]
    refine Triple.discard ((writeData_client bs).conseq (fun _ => id) (fun done w h => ?_) ?_) w h
    · cases done with
      | true => exact Or.inl ⟨_, _, _, h⟩
      | false => exact Or.inr h
    · rintro e w ⟨p, hp, h⟩
      exact h.halted ((List.prefix_append_right_inj R).mpr hp) (List.prefix_refl _)
  · have hkeep : Keeps (Over t) (Over t) (do
        let w ← get
        discard (writeData w.clientFd bs)) :=
      Keeps.get fun w => (keeps_writeData_of_grows Over.grows _ _).discard
    exact hkeep.conseq (fun _ => id) (fun _ _ => Or.inr) (fun _ _ => Or.inr)

/-- **A chunk of the master** is scanned or looked at, and passed on. -/
theorem handleChunk_relays (data : WData) :
    Triple (Ledger m c t (R ++ data.data) R S S X) (handleChunk data) (fun _ => Even m c t)
      (fun _ => Halted m c t) := by
  -- what was scanned is passed on at the end
  have hlast : ∀ X, Triple (Track m c t (R ++ data.data) R S S X) (do
      let w ← get
      discard (writeData w.clientFd data.data)) (fun _ => Even m c t) (fun _ => Halted m c t) :=
    fun X => writeClient_track data.data
  intro w h
  unfold handleChunk
  rcases Decidable.em (w.state = .running) with hstate | hstate
  · have hexamine : Triple (fun v => Ledger m c t (R ++ data.data) R S S X v ∧ v = w) (examine data)
        (fun _ => Track m c t (R ++ data.data) R S S (X ++ data.data)) (fun _ => Halted m c t) := by
      rintro v ⟨h, rfl⟩
      rw [examine_running hstate]
      refine (processInputBuffer_track data).conseq (fun _ => id) (fun _ _ => id) ?_ v (Or.inl h)
      rintro e w (h | h)
      · exact h.halted (List.prefix_append _ _) (List.prefix_refl _)
      · exact Or.inr h
    exact Triple.bind hexamine (fun _ => hlast _) w ⟨h, rfl⟩
  · -- outside RUNNING_STATE nothing is scanned
    rw [run_bind_ok (examine_other hstate)]
    refine hlast X _ (Or.inl ?_)
    split
    · exact h.update
    · exact h

theorem Ledger.waiting (h : Ledger m c t R R S S X w) : Halted m c t w :=
  h.halted (List.prefix_refl _) (List.prefix_refl _)

theorem Ledger.idle (h : Ledger m c t (R ++ []) R S S X w) : Ledger m c t R R S S X w := by
  rwa [List.append_nil] at h

/-- **The case for all states but the two of a transfer.** -/
theorem defaultCase_relays :
    Triple (Ledger m c t R R S S X) (defaultCase m) (fun _ => Even m c t)
      (fun _ => Halted m c t) := by
  refine Triple.bind ((readData_master maxRead).conseq (fun _ => id) (fun _ _ => id)
    fun _ _ h => h.waiting) fun got => ?_
  rcases got with _ | ⟨_ | ⟨b, bs⟩⟩
  · exact Triple.pure fun _ => Or.inr
  · exact Triple.pure fun w h => Or.inl ⟨R, S, X, h.2.idle⟩
  · exact Triple.bind Triple.get fun v => Triple.pre (handleChunk_relays _) fun _ h => h.2.2

/-- A byte of the header is passed on as it comes. -/
theorem syncHeader_relays (fuel : Nat) (line : Bytes) :
    Triple (Ledger m c t R R S S X) (syncHeader m fuel line) (fun got w => match got with
      | some _ => ∃ R, Ledger m c t R R S S X w
      | none => Over t w) (fun _ => Halted m c t) := by
  induction fuel generalizing R line with
  | zero => exact Triple.throw fun _ h => h.waiting
  | succ fuel ih =>
    refine Triple.bind ((readData_master 1).conseq (fun _ => id) (fun _ _ => id)
      fun _ _ h => h.waiting) fun got => ?_
    rcases got with _ | ⟨_ | ⟨b, bs⟩⟩
    · exact Triple.pure fun _ h => h
    · -- an empty read
      exact Triple.pre (ih line) fun w h => h.2.idle
    · -- one byte: read first, passed on next
      refine Triple.pre (P := Ledger m c t (R ++ [b]) R S S X) ?_ fun w h => ?_
      · refine Triple.ite (fun _ => Triple.throw fun _ h =>
          h.halted (List.prefix_append _ _) (List.prefix_refl _)) fun _ => ?_
        intro w h
        rw [run_get_bind, h.linked.client]
        refine Triple.bind ((writeData_client [b]).conseq (fun _ => id) (fun _ _ => id) ?_)
          (fun done => ?_) w h
        · rintro e w ⟨p, hp, h⟩
          exact h.halted ((List.prefix_append_right_inj R).mpr hp) (List.prefix_refl _)
        · cases done with
          -- passed on: the line is complete, or the loop goes on
          | true =>
            refine Triple.ite (fun _ => Triple.ite (fun _ => Triple.ite (fun _ => ?_)
              fun _ => ih line) fun _ => ih _) fun h => absurd rfl h
            exact Triple.pure fun _ h => ⟨_, h⟩
          | false =>
            exact Triple.ite (fun h => absurd h (by decide)) fun _ => Triple.pure fun _ h => h
      · obtain ⟨hlen, h⟩ := h
        obtain rfl : bs = [] := List.length_eq_zero_iff.mp (by simpa using hlen)
        exact h

/-- **The case for the header**, which is passed on byte by byte. -/
theorem syncStartCase_relays :
    Triple (Ledger m c t R R S S X) (syncStartCase m) (fun _ => Even m c t)
      (fun _ => Halted m c t) := by
  refine Triple.bind Triple.get fun v =>
    Triple.pre (P := Ledger m c t R R S S X) ?_ fun _ h => h.2
  refine Triple.bind (syncHeader_relays _ []) fun got => ?_
  cases got with
  | none => exact Triple.pure fun _ => Or.inr
  | some line =>
    refine Triple.exists fun R =>
      Triple.ite (fun _ => Triple.throw fun _ h => h.waiting) fun _ => ?_
    exact Triple.modify fun w h => Or.inl ⟨R, S, X, h.update⟩

/-- **The loop over the payload** passes on what it reads, before it reads on. Induction on the
rounds. -/
theorem syncPayload_relays (fuel : Nat) :
    Triple (Ledger m c t R R S S X) (syncPayload m fuel) (fun _ => Even m c t)
      (fun _ => Halted m c t) := by
  induction fuel generalizing R with
  | zero => exact Triple.throw fun _ h => h.waiting
  | succ fuel ih =>
    refine Triple.bind Triple.get fun v =>
      Triple.pre (P := Ledger m c t R R S S X) ?_ fun _ h => h.2
    refine Triple.ite (fun _ => Triple.modify fun w h => Or.inl ⟨R, S, X, h.update⟩) fun _ => ?_
    refine Triple.bind ((readData_master _).conseq (fun _ => id) (fun _ _ => id)
      fun _ _ h => h.waiting) fun got => ?_
    rcases got with _ | ⟨_ | ⟨b, bs⟩⟩
    · exact Triple.pure fun _ => Or.inr
    · -- an empty read
      exact Triple.pre ih fun w h => h.2.idle
    · refine Triple.pre (P := Ledger m c t (R ++ b :: bs) R S S X) ?_ fun w h => h.2
      refine Triple.ite (fun _ => Triple.throw fun _ h =>
        h.halted (List.prefix_append _ _) (List.prefix_refl _)) fun _ => ?_
      intro w h
      rw [run_get_bind, h.linked.client]
      refine Triple.bind ((writeData_client (b :: bs)).conseq (fun _ => id) (fun _ _ => id) ?_)
        (fun done => ?_) w h
      · rintro e w ⟨p, hp, h⟩
        exact h.halted ((List.prefix_append_right_inj R).mpr hp) (List.prefix_refl _)
      · cases done with
        -- all of the chunk is passed on, and the two sides are even again
        | true =>
          refine Triple.ite (fun _ => ?_) fun h => absurd rfl h
          refine Triple.bind (R := fun _ => Ledger m c t (R ++ b :: bs) (R ++ b :: bs) S S X)
            (Triple.modify fun w h => ?_) fun _ => ih
          have h : Ledger m c t (R ++ b :: bs) (R ++ b :: bs) S S X w := h
          exact h.update
        | false =>
          exact Triple.ite (fun h => absurd h (by decide)) fun _ => Triple.pure fun _ => Or.inr

/-- **A read of the master**, with one case for each state. -/
theorem readFromMaster_relays :
    Triple (Ledger m c t R R S S X) (readFromMaster m) (fun _ => Even m c t)
      (fun _ => Halted m c t) := by
  refine Triple.bind Triple.get fun v =>
    Triple.pre (P := Ledger m c t R R S S X) ?_ fun _ h => h.2
  cases v.state with
  | syncStart => exact syncStartCase_relays
  | sync => exact Triple.bind Triple.get fun v => Triple.pre (syncPayload_relays _) fun _ h => h.2
  | start => exact defaultCase_relays
  | running => exact defaultCase_relays

/-- **A chunk of the slave** is passed on to the master. -/
theorem passOn_relays :
    Triple (Ledger m c t R R (S ++ bs) S X) (passOn bs) (fun _ => Even m c t)
      (fun _ => Halted m c t) := by
  refine Triple.bind (R := fun _ => Ledger m c t R R (S ++ bs) S X) ?_ fun _ => ?_
  · exact Triple.ite (fun _ => Triple.modify fun w h => h.update) fun _ => Triple.pure fun _ h => h
  · intro w h
    rw [run_get_bind, h.linked.master]
    refine Triple.discard ((writeData_master bs).conseq (fun _ => id) (fun done w h => ?_) ?_) w h
    · cases done with
      | true => exact Or.inl ⟨_, _, _, h⟩
      | false => exact Or.inr h
    · rintro e w ⟨p, hp, h⟩
      exact h.halted (List.prefix_refl _) ((List.prefix_append_right_inj S).mpr hp)

/-- **A read of the slave.** -/
theorem readFromSlave_relays :
    Triple (Ledger m c t R R S S X) (readFromSlave c) (fun _ => Even m c t)
      (fun _ => Halted m c t) := by
  refine Triple.bind ((readData_client maxRead).conseq (fun _ => id) (fun _ _ => id)
    fun _ _ h => h.waiting) fun got => ?_
  rcases got with _ | ⟨_ | ⟨b, bs⟩⟩
  · exact Triple.pure fun _ => Or.inr
  · refine Triple.pure fun w h => Or.inl ⟨R, S, X, ?_⟩
    have h : Ledger m c t R R (S ++ []) S X w := h
    rwa [List.append_nil] at h
  · exact passOn_relays

/-- `readData` from another descriptor leaves the ledger, or resets. -/
theorem readData_other (hm : fd ≠ m) (hc : fd ≠ c) (size : Nat) :
    Triple (Ledger m c t R F S G X) (readData fd size) (fun got w => match got with
      | some _ => Ledger m c t R F S G X w
      | none => Track m c t R F S G X w) (fun _ => Ledger m c t R F S G X) := by
  intro w h
  have hmaster := h.linked.masterFd_ne
  rcases Decidable.em (fd = -1) with rfl | hfd
  · rw [readData_none hmaster]
    exact Or.inl h
  rcases Decidable.em (fd ∈ w.fds) with hin | hin
  · rw [readData_open hmaster hfd hin]
    cases w.outcomes.reads with
    | nil => exact h
    | cons r reads =>
      have hrest : Ledger m c t R F S G X (w.leftReads reads) :=
        h.same (h.linked.same rfl rfl rfl rfl) rfl
      cases r with
      | error e =>
        simp only
        cases again e with
        | true => exact hrest
        -- an error ends the relay
        | false => exact Or.inr hrest.over
      | ok got => exact h.readOther hm hc
  · rw [readData_closed hmaster hfd hin]
    exact Or.inr h.over

theorem Track.even (h : Track m c t R R S S X w) : Even m c t w := h.imp (fun h => ⟨R, S, X, h⟩) id

/-- **A read of replies** has nothing to do with the relay. -/
theorem readDelValue_relays (hm : fd ≠ m) (hc : fd ≠ c) :
    Triple (Ledger m c t R R S S X) (readDelValue fd) (fun _ => Even m c t)
      (fun _ => Halted m c t) := by
  refine Triple.bind ((readData_other hm hc maxRead).conseq (fun _ => id) (fun _ _ => id)
    fun _ _ h => h.waiting) fun got => ?_
  rcases got with _ | ⟨_ | ⟨b, bs⟩⟩
  · exact Triple.pure fun _ h => h.even
  · exact Triple.pure fun _ h => Or.inl ⟨R, S, X, h⟩
  · refine Triple.bind Triple.get fun v =>
      Triple.pre (P := Ledger m c t R R S S X) ?_ fun _ h => h.2
    refine Triple.bind (R := fun _ => Ledger m c t R R S S X) (Triple.modify fun _ h => h.update)
      fun _ => ?_
    cases (v.answers.parseReadData ⟨b :: bs, v.outcomes.around⟩).2 with
    | done | unexpected => exact Triple.pure fun _ h => Or.inl ⟨R, S, X, h⟩
    | exit | crash | hang => exact Triple.throw fun _ h => h.waiting

/-- The entry of a slave that was closed may still be there. -/
theorem readFromSlave_closed :
    Triple (fun w => Ledger m c t R R S S X w ∧ fd ∉ w.fds) (readFromSlave fd) (fun _ => Even m c t)
      (fun _ => Halted m c t) := by
  rintro w ⟨h, hfd⟩
  have hmaster := h.linked.masterFd_ne
  have hgot : ∃ v, readData fd maxRead w = .ok none v ∧ Track m c t R R S S X v := by
    rcases Decidable.em (fd = -1) with rfl | hne
    · exact ⟨w, readData_none hmaster, Or.inl h⟩
    · exact ⟨_, readData_closed hmaster hne hfd, Or.inr h.over⟩
  obtain ⟨v, hread, hv⟩ := hgot
  unfold readFromSlave
  rw [run_bind_ok hread]
  exact hv.even

/-! ## Runs -/

/-- While the proxy is up and there is a slave, the two are linked. -/
theorem Up.linked {L : Prop} (h : Up L w) (hclient : w.clientFd ≠ -1) :
    Linked w.masterFd w.clientFd w where
  master := rfl
  client := rfl
  masterUp := h.masterFd_ne
  clientUp := hclient
  masterOpen := h.master.isOpen
  clientOpen := (h.client.resolve_left hclient).isOpen
  distinct := h.registered_ne h.master (by decide)
  reader := h.reader.imp_right fun hr => by
    refine ⟨hr.isOpen, fun heq => ?_, h.registered_ne hr (by decide)⟩
    have hentry := hr.entry
    rw [heq, h.master.entry] at hentry
    cases hentry

theorem Settled.up {L : Prop} (h : Settled L w) (hclient : w.clientFd ≠ -1) : Up L w :=
  h.resolve_left fun hidle => hclient hidle.1.client

/-- A callback, unless it accepts. -/
theorem callback_relays {handler : Handler} (hno : handler ≠ .acceptTcpHandler) :
    Triple (fun w => Up True w ∧ Ledger m c t R R S S X w ∧ w.events fd = some handler)
      (callback handler fd) (fun _ => Even m c t) (fun _ => Halted m c t) := by
  rintro w ⟨hup, h, hentry⟩
  -- the entry of redis-server is neither the master's nor the slave's
  have hother : handler = .readDelValue → fd ≠ m ∧ fd ≠ c := by
    rintro rfl
    refine ⟨?_, ?_⟩
    · rintro rfl
      have := h.linked.master ▸ hup.master.entry
      rw [this] at hentry
      cases hentry
    · rintro rfl
      have hc := hup.client.resolve_left (h.linked.client ▸ h.linked.clientUp)
      have := h.linked.client ▸ hc.entry
      rw [this] at hentry
      cases hentry
  cases handler with
  | readFromMaster =>
    obtain ⟨-, rfl⟩ := Settled.master (Or.inr hup) hentry
    rw [h.linked.master]
    exact readFromMaster_relays w h
  | readFromSlave =>
    rcases Decidable.em (fd ∈ w.fds) with hin | hin
    · -- the slave, or a number that was closed earlier in the turn
      have howner : fd = w.clientFd := hup.owner hin hentry
      rw [howner, h.linked.client]
      exact readFromSlave_relays w h
    · exact readFromSlave_closed w ⟨h, hin⟩
  | readDelValue =>
    obtain ⟨hm, hc⟩ := hother rfl
    exact readDelValue_relays hm hc w h
  | acceptTcpHandler => exact absurd rfl hno

/-! ## Runs -/

/-- What was read since the trace was `t` has been passed on, in both directions. -/
def PassedOn (m c : Int) (t : List Event) (w : World) : Prop :=
  ∃ es, w.trace = t ++ es ∧ writtenTo c es = readFrom m es ∧ writtenTo m es = readFrom c es

/-- A beginning of what was read since the trace was `t` has been passed on. -/
def PassingOn (m c : Int) (t : List Event) (w : World) : Prop :=
  ∃ es, w.trace = t ++ es ∧ writtenTo c es <+: readFrom m es ∧ writtenTo m es <+: readFrom c es

theorem Halted.passingOn (h : Halted m c t w) : Over t w ∨ PassingOn m c t w := by
  rcases h with ⟨R, F, S, G, X, hF, hG, -, es, htrace, -, rfl, rfl, rfl, rfl, -⟩ | h
  · exact Or.inr ⟨es, htrace, hF, hG⟩
  · exact Or.inl h

/-- The step accepts no slave: when `accept` is called, it waits or fails. -/
def AcceptsNone (w : World) (s : Step) : Prop :=
  s.Calls w .acceptTcpHandler →
    ∀ next ∈ (s.outcomes.opens .readFromSlave).head?, ¬ next matches .ok _

instance (w : World) (s : Step) : Decidable (AcceptsNone w s) :=
  inferInstanceAs (Decidable (_ → ∀ next ∈ (s.outcomes.opens .readFromSlave).head?, _))

/-- When no slave is accepted, `acceptTcpHandler` does not return. The old slave is closed. -/
theorem acceptTcpHandler_none (hm : w.masterFd ≠ -1) (hc : w.clientFd ≠ -1)
    (hnone : ∀ next ∈ (w.outcomes.opens .readFromSlave).head?, ¬ next matches .ok _) :
    ∃ e w' masked, acceptTcpHandler w = .error e w' ∧ w'.state = w.state
      ∧ w'.trace = w.trace ++ [.closed w.clientFd masked] := by
  have hclosed : w.slaveClosed = w.close w.clientFd := if_pos hc
  rw [acceptTcpHandler_eq hm, hclosed]
  have houtcomes : (w.close w.clientFd).outcomes.opens = w.outcomes.opens := rfl
  cases hopens : w.outcomes.opens .readFromSlave with
  | nil =>
    -- no connection is there: the callback waits in `accept`
    have hopen : openFd .readFromSlave (w.close w.clientFd)
        = .error .opening (w.close w.clientFd) := by
      unfold openFd
      rewrite [run_get_bind, houtcomes, hopens]
      rfl
    exact ⟨.opening, w.close w.clientFd, _, run_bind_error hopen, rfl, rfl⟩
  | cons next opens =>
    cases next with
    | ok fd => exact absurd rfl (hnone (.ok fd) (by rw [hopens]; rfl))
    | error e =>
      -- `accept` fails: the process ends
      have hopen : openFd .readFromSlave (w.close w.clientFd)
          = .ok (-1) ((w.close w.clientFd).leftOpens .readFromSlave opens) := by
        unfold openFd
        rewrite [run_get_bind, houtcomes, hopens]
        rfl
      refine ⟨.crash, (w.close w.clientFd).leftOpens .readFromSlave opens, _, ?_, rfl, rfl⟩
      rewrite [run_bind_ok hopen, if_pos rfl]
      rfl

/-- Closing a descriptor reads and writes nothing. -/
theorem Ledger.passingOn_closed {masked : Bool} (h : Ledger m c t R R S S X w)
    (htrace : w'.trace = w.trace ++ [.closed fd masked]) : PassingOn m c t w' := by
  obtain ⟨es, hes, -, hR, hF, hS, hG, -⟩ := h.streams
  refine ⟨es ++ [.closed fd masked], by rw [htrace, hes, List.append_assoc], ?_, ?_⟩
  · rw [readFrom_append, writtenTo_append, hR, hF]
    exact List.prefix_refl _
  · rw [readFrom_append, writtenTo_append, hS, hG]
    exact List.prefix_refl _

/-- A step, until the next reset. At its stops a beginning has been passed on. -/
theorem run_relays (s : Step) :
    Triple (fun w => (Even m c t w ∧ Settled True w) ∧ AcceptsNone w s) s.run
      (fun _ w => Even m c t w ∧ Settled True w) (fun _ w => Over t w ∨ PassingOn m c t w) := by
  have hsettled : Triple (fun w => Settled True w) s.run
      (fun _ => Settled True) (fun _ _ => True) :=
    (step_settled s).pre fun _ h => ⟨h, Or.inl trivial, fun _ => Or.inl trivial⟩
  have heven : Triple (fun w => (Even m c t w ∧ Settled True w) ∧ AcceptsNone w s) s.run
      (fun _ => Even m c t) (fun _ w => Over t w ∨ PassingOn m c t w) := by
    rintro w ⟨⟨⟨R, S, X, h⟩ | hover, hset⟩, hnone⟩
    · have hup : Up True w := hset.up (h.linked.client ▸ h.linked.clientUp)
      have hw : Ledger m c t R R S S X { w with outcomes := s.outcomes } :=
        h.same (h.linked.same rfl rfl rfl rfl) rfl
      -- without a callback both sides stay where they are
      rcases s.run_cases w with ⟨fired, heq⟩ | ⟨fd, fired, handler, hcalls, hentry, heq⟩ | heq
      · rw [heq]
        exact Or.inl ⟨R, S, X, hw.update⟩
      · rw [heq]
        rcases Decidable.em (handler = .acceptTcpHandler) with rfl | hno
        · -- the callback stops, and the old slave has been closed
          obtain ⟨e, w', masked, hstop, -, htrace⟩ :=
            acceptTcpHandler_none (w := { w with outcomes := s.outcomes, fired := fired })
              hup.masterFd_ne (h.linked.client ▸ h.linked.clientUp) (hnone hcalls)
          have hcallback : callback .acceptTcpHandler fd
              { w with outcomes := s.outcomes, fired := fired } = .error e w' := hstop
          rw [hcallback]
          exact Or.inr (h.passingOn_closed htrace)
        · exact ((callback_relays hno).conseq (fun _ => id) (fun _ _ => id)
            fun _ _ h => h.passingOn) { w with outcomes := s.outcomes, fired := fired }
            ⟨hup.same rfl rfl rfl rfl rfl rfl rfl, hw.update, hentry⟩
      · rw [heq]
        rw [timeEvent_up (w := { w with outcomes := s.outcomes }) hup.masterFd_ne]
        exact Or.inl ⟨R, S, X, hw.update⟩
    · -- an exchange that is over stays so
      have hkeep := (keeps_run_of_grows (Over.grows (t := t)) s) w hover
      cases hrun : s.run w with
      | ok a w' =>
        rw [hrun] at hkeep
        exact Or.inr hkeep
      | error e w' =>
        rw [hrun] at hkeep
        exact Or.inl hkeep
  exact (heven.and hsettled).conseq (fun _ h => ⟨h, h.1.2⟩) (fun _ _ h => h)
    fun _ _ h => h.1

theorem Up.ledger {L : Prop} (h : Up L w) (hclient : w.clientFd ≠ -1) :
    Ledger w.masterFd w.clientFd w.trace [] [] [] [] [] w :=
  ⟨h.linked hclient, [], by rw [List.append_nil], List.not_mem_nil, rfl, rfl, rfl, rfl, rfl⟩

/-- **The relay is transparent** from any state with a slave on, until the next reset, as long
as no other slave is accepted: at every moment, and exactly between the steps. -/
theorem passedOn_of_run {w₀ : World} (h : w₀.Reachable) (hclient : w₀.clientFd ≠ -1) :
    (∀ w, Run Step.run AcceptsNone w₀ w →
      Over w₀.trace w ∨ PassedOn w₀.masterFd w₀.clientFd w₀.trace w)
    ∧ ∀ stop w, Moment Step.run AcceptsNone w₀ stop w →
      Over w₀.trace w ∨ PassingOn w₀.masterFd w₀.clientFd w₀.trace w := by
  have hset := h.settled
  have hstart : Even w₀.masterFd w₀.clientFd w₀.trace w₀ ∧ Settled True w₀ :=
    ⟨Or.inl ⟨[], [], [], (hset.up hclient).ledger hclient⟩, hset⟩
  refine ⟨fun w hrun => ?_, fun stop w hrun => ?_⟩
  · rcases (hrun.keeps run_relays hstart).1 with
      ⟨R, S, X, -, es, htrace, -, rfl, hF, rfl, hG, -⟩ | hover
    · exact Or.inr ⟨es, htrace, hF, hG⟩
    · exact Or.inl hover
  · have hkeeps := hrun.keeps run_relays hstart
    cases stop with
    | none => exact hkeeps.1.halted.passingOn
    | some e => exact hkeeps

/-- The master answers a `PING` of the slave, and the slave takes the answer in two writes. -/
theorem passedOn_of_run_pong : ∃ w₀ w, w₀.Reachable ∧ w₀.clientFd ≠ -1
    ∧ Run Step.run AcceptsNone w₀ w
    ∧ (Over w₀.trace w ∨ PassedOn w₀.masterFd w₀.clientFd w₀.trace w) := by
  have hrun : ((World.start (Accepting.outcomes 7)).bind
      (runAll Step.run (fun _ _ => True) (Accepting.steps 7))).any (fun w₀ => w₀.clientFd == 7
        && (runAll Step.run AcceptsNone
          (Accepting.ready 7 [.ok (80, [73, 78, 71, 13, 10])] [.ok 5]
            ++ Accepting.ready 5 [.ok (43, [80, 79, 78, 71, 13, 10])] [.ok 1, .ok 9]) w₀).isSome)
        = true := by decide +kernel
  obtain ⟨w₀, hreach, hboth⟩ := World.reachable_of_any hrun
  obtain ⟨hclient, hsome⟩ := Bool.and_eq_true_iff.mp hboth
  obtain ⟨w, hlast⟩ := Option.isSome_iff_exists.mp hsome
  have hne : w₀.clientFd ≠ -1 := by
    rw [eq_of_beq hclient]
    decide
  exact ⟨w₀, w, hreach, hne, .of_runAll hlast, (passedOn_of_run hreach hne).1 w (.of_runAll hlast)⟩

end Iceberg
