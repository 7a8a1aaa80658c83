import Iceberg.Proxy.BehindFailure
import Iceberg.Proxy.Bookkeeping

/-!
# What a reset leaves

`closeFd` clears the buffers, the queue and the state, but it is called inside of `readData`
and `writeData`, whose callers go on. All of them return without touching what was cleared,
with one exception: when a query cannot be written, the scan of the chunk goes on, and what
it saves at the end stays in `buf_master_cmd`.
-/

namespace Iceberg

open Triples

variable {w : World} {fd : Int} {t : List Event}

/-! ## Resets -/

/-- What a reset should leave behind. -/
structure Clean (w : World) : Prop where
  buf : w.bufMasterCmd = []
  answer : w.answers.bufSlaveAnswer = []
  queue : w.answers.q.toList = []
  state : w.state = .start

/-- There has been no reset since the trace was `t`. -/
def Calm (t : List Event) (w : World) : Prop := ∃ es, w.trace = t ++ es ∧ Event.reset ∉ es

/-- Events that are no resets leave it calm. -/
theorem Calm.log {es : List Event} {w' : World} (h : Calm t w) (htrace : w'.trace = w.trace ++ es)
    (hes : Event.reset ∉ es) : Calm t w' := by
  obtain ⟨es', htrace', hes'⟩ := h
  refine ⟨es' ++ es, by rw [htrace, htrace', List.append_assoc], ?_⟩
  rw [List.mem_append]
  exact fun h => h.elim hes' hes

theorem Calm.same {w' : World} (h : Calm t w) (htrace : w'.trace = w.trace) : Calm t w' :=
  h.log (by rw [htrace, List.append_nil]) List.not_mem_nil

theorem Calm.links {w' : World} (h : Calm t w) (hl : Links w w') : Calm t w' := by
  obtain ⟨_, _, _, _, _, es, hes, rfl⟩ := hl
  exact h.log rfl (reset_notMem_links hes)

theorem Calm.reconnects {w' : World} (h : Calm t w) (hr : Reconnects w w') : Calm t w' := by
  obtain ⟨_, _, _, hl, rfl⟩ := hr
  exact (h.links hl).same rfl

/-- What holds behind `closeFd` in the rest of a callback. -/
structure Down (w : World) : Prop where
  client : w.clientFd = -1
  reader : w.readFd = -1
  answer : w.answers.bufSlaveAnswer = []
  queue : w.answers.q.toList = []
  state : w.state = .start

theorem World.closeFd_eq (w : World) : w.closeFd.state = .start ∧ w.closeFd.bufMasterCmd = []
    ∧ w.closeFd.answers.bufSlaveAnswer = [] ∧ w.closeFd.answers.q.toList = [] := by
  exact ⟨rfl, rfl, rfl, Fifo.toList_clear _⟩

theorem clean_closeFd (w : World) : Clean w.closeFd :=
  have h := w.closeFd_eq
  ⟨h.2.1, h.2.2.1, h.2.2.2, h.1⟩

theorem down_closeFd (w : World) : Down w.closeFd :=
  have h := w.closeFd_eq
  ⟨World.closeFd_clientFd, World.closeFd_readFd, h.2.2.1, h.2.2.2, h.1⟩

theorem Down.reconnects {w' : World} {buf : Bytes} (h : Down w ∧ w.bufMasterCmd = buf)
    (hr : Reconnects w w') : Down w' ∧ w'.bufMasterCmd = buf := by
  obtain ⟨_, _, _, ⟨_, _, _, _, _, _, -, rfl⟩, rfl⟩ := hr
  exact ⟨⟨h.1.client, h.1.reader, h.1.answer, h.1.queue, h.1.state⟩, h.2⟩

theorem Down.clean_buf (h : Down w) : Clean w ↔ w.bufMasterCmd = [] :=
  ⟨fun hc => hc.buf, fun hbuf => ⟨hbuf, h.answer, h.queue, h.state⟩⟩

/-! ## Reading and writing -/

/-- A failed call of `readData` or `writeData` may have reset everything. -/
def Ended (t : List Event) (w : World) : Prop := Calm t w ∨ Clean w

/-- **`readData`**: the bytes come without a reset. -/
theorem readData_calm (fd : Int) (size : Nat) :
    Triple (Calm t) (readData fd size) (fun got w => match got with
      | some _ => Calm t w
      | none => Ended t w) (fun _ _ => True) := by
  refine Triple.bind (keeps_connectIfNone fun _ _ h => h.reconnects).forget fun _ => ?_
  refine Triple.ite (fun _ => Triple.pure fun _ => Or.inl) fun _ => ?_
  -- the system call itself closes nothing
  have hread : Keeps (Calm t) (fun _ => True) (sysRead fd size) := by
    intro w h
    unfold sysRead
    rw [run_get_bind]
    rcases Decidable.em (fd ∈ w.fds) with hin | hin
    · rw [if_neg (not_not_intro hin)]
      cases w.outcomes.reads with
      | nil => trivial
      | cons r reads =>
        cases r with
        | error e => exact h.same rfl
        | ok b => exact h.log rfl (by simp)
    · rw [if_pos hin]
      exact h
  refine Triple.bind hread fun got => ?_
  cases got with
  | ok bs => exact Triple.pure fun _ h => h
  | error e =>
    refine Triple.ite (fun _ => Triple.pure fun _ h => h) fun _ => ?_
    exact Triple.bind (R := fun _ => Clean) (Triple.modify fun w _ => clean_closeFd w)
      fun _ => Triple.pure fun _ => Or.inr

/-- **`writeData`**: a write that succeeds comes without a reset. -/
theorem writeData_calm (fd : Int) (bs : Bytes) :
    Triple (Calm t) (writeData fd bs) (fun done w => match done with
      | true => Calm t w
      | false => Ended t w) (fun _ _ => True) := by
  have hreset : Triple (Calm t) (do modify World.closeFd; return false : Proxy Bool)
      (fun done w => match done with
        | true => Calm t w
        | false => Ended t w) (fun _ _ => True) :=
    Triple.bind (R := fun _ => Clean) (Triple.modify fun w _ => clean_closeFd w)
      fun _ => Triple.pure fun _ => Or.inr
  refine Triple.bind (keeps_connectIfNone fun _ _ h => h.reconnects).forget fun _ => ?_
  refine Triple.ite (fun _ => Triple.pure fun _ => Or.inl) fun _ => ?_
  refine Triple.bind Triple.get fun v => Triple.pre (P := Calm t) ?_ fun _ h => h.2
  refine Triple.ite (fun _ => hreset) fun _ => ?_
  refine Triple.bind (R := fun _ => Calm t) (Triple.modify fun w h => h.log rfl (by simp)) ?_
  intro _
  cases (sendAll v.outcomes.writes bs).2.1 with
  | all => exact Triple.pure fun _ h => h
  | waiting => exact Triple.throw fun _ _ => trivial
  | failed => exact hreset

/-! ## The callbacks -/

/-- The last call of a callback. -/
theorem lastWrite_calm (fd : Int) (bs : Bytes) :
    Triple (Calm t) (discard (writeData fd bs)) (fun _ => Ended t) (fun _ _ => True) :=
  Triple.discard <| (writeData_calm fd bs).post fun done _ h => match done with
    | true => Or.inl h
    | false => h

/-- **The loop over the header**: a line comes without a reset. Induction on the rounds. -/
theorem syncHeader_calm (fd : Int) (fuel : Nat) (line : Bytes) :
    Triple (Calm t) (syncHeader fd fuel line) (fun got w => match got with
      | some _ => Calm t w
      | none => Ended t w) (fun _ _ => True) := by
  induction fuel generalizing line with
  | zero => exact Triple.throw fun _ _ => trivial
  | succ fuel ih =>
    refine Triple.bind (readData_calm fd 1) fun got => ?_
    rcases got with _ | ⟨_ | ⟨b, bs⟩⟩
    · exact Triple.pure fun _ h => h
    · exact ih line
    · refine Triple.ite (fun _ => Triple.throw fun _ _ => trivial) fun _ => ?_
      refine Triple.bind Triple.get fun v => Triple.pre (P := Calm t) ?_ fun _ h => h.2
      refine Triple.bind (writeData_calm _ _) fun done => ?_
      cases done with
      | true =>
        show Triple (Calm t) _ _ _
        rw [if_pos rfl]
        refine Triple.ite (fun _ => Triple.ite (fun _ => ?_) fun _ => ih line) fun _ => ih _
        exact Triple.pure fun _ h => h
      | false =>
        rw [if_neg (by decide)]
        exact Triple.pure fun _ h => h

/-- The case for the header: after a reset nothing is set any more. -/
theorem syncStartCase_calm (fd : Int) :
    Triple (Calm t) (syncStartCase fd) (fun _ => Ended t) (fun _ _ => True) := by
  refine Triple.bind Triple.get fun v => Triple.pre (P := Calm t) ?_ fun _ h => h.2
  refine Triple.bind (syncHeader_calm fd _ []) fun got => ?_
  cases got with
  | none => exact Triple.pure fun _ h => h
  | some line =>
    refine Triple.ite (fun _ => Triple.throw fun _ _ => trivial) fun _ => ?_
    exact Triple.modify fun _ h => Or.inl (h.same rfl)

/-- **The loop over the payload**: it is left at once after a reset. Induction on the rounds. -/
theorem syncPayload_calm (fd : Int) (fuel : Nat) :
    Triple (Calm t) (syncPayload fd fuel) (fun _ => Ended t) (fun _ _ => True) := by
  induction fuel with
  | zero => exact Triple.throw fun _ _ => trivial
  | succ fuel ih =>
    refine Triple.bind Triple.get fun v => Triple.pre (P := Calm t) ?_ fun _ h => h.2
    refine Triple.ite (fun _ => Triple.modify fun _ h => Or.inl (h.same rfl)) fun _ => ?_
    refine Triple.bind (readData_calm fd _) fun got => ?_
    rcases got with _ | ⟨_ | ⟨b, bs⟩⟩
    · exact Triple.pure fun _ h => h
    · exact ih
    · refine Triple.ite (fun _ => Triple.throw fun _ _ => trivial) fun _ => ?_
      refine Triple.bind Triple.get fun v => Triple.pre (P := Calm t) ?_ fun _ h => h.2
      refine Triple.bind (writeData_calm _ _) fun done => ?_
      cases done with
      | true =>
        show Triple (Calm t) _ _ _
        rw [if_pos rfl]
        exact Triple.bind (Triple.modify fun _ h => h.same rfl) fun _ => ih
      | false =>
        rw [if_neg (by decide)]
        exact Triple.pure fun _ h => h

theorem syncCase_calm (fd : Int) :
    Triple (Calm t) (syncCase fd) (fun _ => Ended t) (fun _ _ => True) :=
  Triple.bind Triple.get fun _ => Triple.pre (syncPayload_calm fd _) fun _ h => h.2

/-- A read of the slave: after a reset nothing is written. -/
theorem readFromSlave_calm (fd : Int) :
    Triple (Calm t) (readFromSlave fd) (fun _ => Ended t) (fun _ _ => True) := by
  refine Triple.bind (readData_calm fd maxRead) fun got => ?_
  rcases got with _ | ⟨_ | ⟨b, bs⟩⟩
  · exact Triple.pure fun _ h => h
  · exact Triple.pure fun _ => Or.inl
  · refine Triple.bind (R := fun _ => Calm t) ?_ fun _ => Triple.bind Triple.get fun v =>
      Triple.pre (lastWrite_calm _ _) fun _ h => h.2
    exact Triple.ite (fun _ => Triple.modify fun _ h => h.same rfl) fun _ => Triple.pure fun _ => id

/-- A read of replies: after a reset nothing is parsed. -/
theorem readDelValue_calm (fd : Int) :
    Triple (Calm t) (readDelValue fd) (fun _ => Ended t) (fun _ _ => True) := by
  refine Triple.bind (readData_calm fd maxRead) fun got => ?_
  rcases got with _ | ⟨_ | ⟨b, bs⟩⟩
  · exact Triple.pure fun _ h => h
  · exact Triple.pure fun _ => Or.inl
  · refine Triple.bind Triple.get fun v => Triple.pre (P := Calm t) ?_ fun _ h => h.2
    refine Triple.bind (R := fun _ => Calm t) (Triple.modify fun _ h => h.same rfl) fun _ => ?_
    cases (v.answers.parseReadData ⟨b :: bs, v.outcomes.around⟩).2 with
    | done | unexpected => exact Triple.pure fun _ => Or.inl
    | exit | crash | hang => exact Triple.throw fun _ _ => trivial

/-- **`acceptTcpHandler`**: a registration that fails, of the slave or of the connection for the
queries, resets at the end. -/
theorem acceptTcpHandler_calm :
    Triple (Calm t) acceptTcpHandler (fun _ => Ended t) (fun _ _ => True) := by
  have hP : ∀ w w', Calm t w → Links w w' → Calm t w' := fun _ _ h => h.links
  -- only giving everything up ends the connection, and it leaves no carry
  have hreset : Triple (Calm t) (modify World.closeFd : Proxy Unit) (fun _ => Ended t)
      (fun _ _ => True) :=
    Triple.modify fun w _ => Or.inr (clean_closeFd w)
  -- the registration of the new slave and the connection to redis-server
  have hslave : ∀ fd, Triple (Calm t) (readDataFromSlave fd) (fun _ => Ended t)
      (fun _ _ => True) := by
    intro fd
    refine Triple.ite (fun _ => ?_) fun _ => Triple.pure fun _ => Or.inl
    refine Triple.bind (keeps_aeCreateFileEvent hP fd _).forget fun done => Triple.ite (fun _ => ?_)
      fun _ => hreset
    refine Triple.bind Triple.get fun v => Triple.pre (P := Calm t) ?_ fun _ h => h.2
    refine Triple.ite (fun _ => ?_) fun _ => Triple.pure fun _ => Or.inl
    refine Triple.bind (keeps_openFd hP _).forget fun readFd =>
      Triple.bind (R := fun _ => Calm t) (Triple.modify fun _ h => h.same rfl) fun _ => ?_
    refine Triple.ite (fun _ => hreset) fun _ => ?_
    exact Triple.bind (keeps_aeCreateFileEvent hP _ _).forget fun done =>
      Triple.ite (fun _ => Triple.pure fun _ => Or.inl) fun _ => hreset
  -- a failed `accept` ends the run
  have hopen : Triple (Calm t) (do
      let fd ← openFd .readFromSlave
      if fd = -1 then throw .crash
      else
        modify fun w => { w with clientFd := fd }
        readDataFromSlave fd) (fun _ => Ended t) (fun _ _ => True) :=
    Triple.bind (keeps_openFd hP _).forget fun fd =>
      Triple.ite (fun _ => Triple.throw fun _ _ => trivial) fun _ =>
        Triple.bind (Triple.modify fun _ h => h.same rfl) fun _ => hslave fd
  -- the old slave is closed first
  refine Triple.bind Triple.get fun v => Triple.pre (P := Calm t) ?_ fun _ h => h.2
  refine Triple.ite (fun _ => ?_) fun _ => Triple.pure fun _ => Or.inl
  refine Triple.ite (fun _ => ?_) fun _ => hopen
  exact Triple.bind (keeps_close hP _).forget fun _ => hopen

theorem timeEvent_calm : Keeps (Calm t) (fun _ => True) timeEvent := by
  refine Keeps.get fun v => Keeps.ite ?_ (Keeps.modify fun _ h => h.same rfl)
  exact (keeps_connectToMaster fun _ _ h => h.reconnects).forget.discard.bind fun _ =>
    Keeps.modify fun _ h => h.same rfl

/-! ## Scanning on after a reset -/

namespace Scan

theorem carryOf_concat_query (acts : List Act) (start : Int) (key : Bytes) :
    carryOf (acts ++ [.query start key]) = carryOf acts := by
  simp [carryOf, List.foldl_append]

theorem carryOf_concat_save (acts : List Act) (buf : Bytes) :
    carryOf (acts ++ [.save buf]) = buf := by
  simp [carryOf, List.foldl_append]

end Scan

/-- Nothing is written to `read_fd` any more. -/
theorem writeData_down {buf : Bytes} (bs : Bytes) :
    Triple (fun w => Down w ∧ w.bufMasterCmd = buf) (writeData (-1) bs)
      (fun done w => done = false ∧ Down w ∧ w.bufMasterCmd = buf) (fun _ _ => True) := by
  refine Triple.bind (keeps_connectIfNone fun _ _ h hr => Down.reconnects h hr).forget fun _ => ?_
  exact Triple.ite (fun _ => Triple.pure fun _ h => ⟨rfl, h⟩) fun h => absurd rfl h

/-- Behind a reset a query is not written, and what is carried stays. -/
theorem queryKey_down {buf : Bytes} (place : Int) (key : Key) :
    Triple (fun w => Down w ∧ w.bufMasterCmd = buf) (queryKey place key)
      (fun _ w => Down w ∧ w.bufMasterCmd = buf) (fun _ _ => True) := by
  refine Triple.of_ok fun w _ w' h hrun => ?_
  unfold queryKey at hrun
  rw [run_get_bind] at hrun
  split at hrun
  · obtain ⟨-, rfl⟩ := EStateM.Result.ok.inj hrun
    exact h
  · rw [h.1.reader] at hrun
    cases hwrite : writeData (-1) (Scan.queryCmd key) w with
    | error e v =>
      rw [run_bind_error hwrite] at hrun
      cases hrun
    | ok done v =>
      obtain ⟨rfl, hv⟩ := (writeData_down _).ok h hwrite
      rw [run_bind_ok hwrite, if_neg (by decide)] at hrun
      obtain ⟨-, rfl⟩ := EStateM.Result.ok.inj hrun
      exact hv

/-- **The rest of a scan behind a reset** still saves what breaks off. Induction on its acts. -/
theorem performScan_down (base : Int) (before acts : List Scan.Act) :
    Triple (fun w => Down w ∧ w.bufMasterCmd = Scan.carryOf before) (performScan base acts)
      (fun _ w => Down w ∧ w.bufMasterCmd = Scan.carryOf (before ++ acts)) (fun _ _ => True) := by
  induction acts generalizing before with
  | nil =>
    rw [List.append_nil]
    exact Triple.pure fun _ h => h
  | cons act acts ih =>
    rw [List.append_cons]
    cases act with
    | query start key =>
      refine Triple.bind (queryKey_down _ _) fun _ => ?_
      have := ih (before ++ [.query start key])
      rwa [Scan.carryOf_concat_query] at this
    | save buf =>
      refine Triple.bind (R := fun _ w => Down w ∧ w.bufMasterCmd = buf)
        (Triple.modify fun w h => ?_) fun _ => ?_
      · exact ⟨⟨h.1.client, h.1.reader, h.1.answer, h.1.queue, h.1.state⟩, rfl⟩
      · have := ih (before ++ [.save buf])
        rwa [Scan.carryOf_concat_save] at this

/-- A scan resets nothing, or it resets at the query that cannot be written and keeps what is
saved behind it. -/
theorem performScan_calm {base : Int} {acts : List Scan.Act} {w' : World} (hm : w.masterFd ≠ -1)
    (hin : w.readFd ≠ -1 → w.readFd ∈ w.fds)
    (hrun : performScan base acts w = .ok ⟨⟩ w') :
    if w.readFd ≠ -1 then
      match Scan.behindFailure w.answers.q w.outcomes.writes acts with
      | none => Calm w.trace w'
      | some rest => Down w' ∧ w'.bufMasterCmd = Scan.carryOf rest
    else Calm w.trace w' := by
  induction acts generalizing w with
  | nil =>
    obtain ⟨-, rfl⟩ := EStateM.Result.ok.inj hrun
    have hcalm : Calm w.trace w := ⟨[], by rw [List.append_nil], List.not_mem_nil⟩
    split
    · exact hcalm
    · exact hcalm
  | cons act acts ih =>
    cases act with
    -- a carry is stored and nothing is sent
    | save buf => exact ih (w := { w with bufMasterCmd := buf }) hm hin hrun
    | query start key =>
      rw [performScan] at hrun
      rcases Decidable.em (w.readFd = -1) with hr | hr
      · -- no connection to redis-server: the query is dropped
        rw [run_bind_ok (queryKey_none hm hr)] at hrun
        have hrest := ih hm hin hrun
        rw [if_neg (not_not_intro hr)] at hrest ⊢
        exact hrest
      · rw [if_pos hr, Scan.behindFailure]
        have hquery := @queryKey_open w (base + start) key hm hr (hin hr)
        cases hfull : w.answers.q.isFull with
        | true =>
          -- a full queue: the query is dropped as well
          rw [hfull, if_pos rfl] at hquery
          rw [if_pos rfl]
          rw [run_bind_ok hquery] at hrun
          have hrest := ih hm hin hrun
          rwa [if_pos hr] at hrest
        | false =>
          rw [hfull, if_neg (by decide)] at hquery
          rw [if_neg (by decide)]
          cases hsent : (sendAll w.outcomes.writes (Scan.queryCmd key)).2.1 with
          | all =>
            rw [hsent] at hquery
            rw [run_bind_ok hquery] at hrun
            -- the line went out whole, the rest is the induction's
            have hrest := ih (w := w.queried (base + start) key) hm hin hrun
            rw [if_pos (show (w.queried (base + start) key).readFd ≠ -1 from hr)] at hrest
            simp only [hsent]
            -- what was calm since the query was calm since before it
            have hgrow : ∀ v, Calm (w.queried (base + start) key).trace v → Calm w.trace v := by
              rintro v ⟨es, htrace, hes⟩
              refine ⟨(sendAll w.outcomes.writes (Scan.queryCmd key)).1.map (Event.wrote w.readFd)
                ++ [.asked (base + start) key] ++ es, ?_, ?_⟩
              · rw [htrace]
                simp only [World.queried, World.sent, List.append_assoc]
              · simp [hes]
            show match Scan.behindFailure (w.answers.q.push key)
                (sendAll w.outcomes.writes (Scan.queryCmd key)).2.2 acts with
              | none => Calm w.trace w'
              | some rest => Down w' ∧ w'.bufMasterCmd = Scan.carryOf rest
            revert hrest
            show (match Scan.behindFailure (w.answers.q.push key)
                (sendAll w.outcomes.writes (Scan.queryCmd key)).2.2 acts with
              | none => Calm (w.queried (base + start) key).trace w'
              | some rest => Down w' ∧ w'.bufMasterCmd = Scan.carryOf rest) → _
            cases Scan.behindFailure (w.answers.q.push key)
                (sendAll w.outcomes.writes (Scan.queryCmd key)).2.2 acts with
            | none => exact hgrow w'
            | some rest => exact id
          | waiting =>
            rw [hsent] at hquery
            rw [run_bind_error hquery] at hrun
            cases hrun
          | failed =>
            rw [hsent] at hquery
            rw [run_bind_ok hquery] at hrun
            simp only [hsent]
            -- the write failed: everything is closed, and what follows only fills the carry
            have hdown := down_closeFd (w.sent w.readFd (Scan.queryCmd key))
            exact (performScan_down base [] acts).ok ⟨hdown, rfl⟩ hrun

/-! ## Every step -/

/-- What is left of the calls of the first scan when a query cannot be written. -/
def World.failedScan (w : World) : Option (List Scan.Act) :=
  if w.state = .running ∧ w.readFd ≠ -1 ∧ w.outcomes.chunk ≠ [] then
    Scan.behindFailure w.answers.q w.outcomes.writes
      (Scan.processInputBuffer w.bufMasterCmd ⟨w.outcomes.chunk, w.outcomes.around⟩).1
  else none

/-- `closeFd` runs in a step from `w` to `w'`. -/
def ResetIn (w w' : World) : Prop := ∃ es, w'.trace = w.trace ++ es ∧ Event.reset ∈ es

/-- Where it is calm there is no reset. -/
theorem Calm.not_resetIn {w' : World} (h : Calm w.trace w') : ¬ ResetIn w w' := by
  rintro ⟨es, htrace, hreset⟩
  obtain ⟨es', htrace', hes'⟩ := h
  rw [htrace', List.append_cancel_left_eq] at htrace
  exact hes' (htrace ▸ hreset)

/-- When the scan of a chunk returns, it has made all its calls, and it has not crashed. -/
theorem processInputBuffer_ok {data : WData} {w' : World}
    (hrun : processInputBuffer data w = .ok ⟨⟩ w') :
    (Scan.processInputBuffer w.bufMasterCmd data).2 ≠ .crash
    ∧ performScan ((w.seen : Int) + data.len - (mergeCarry w.bufMasterCmd data).len)
      (Scan.processInputBuffer w.bufMasterCmd data).1
      { w with
        bufMasterCmd := []
        seen := w.seen + data.data.length
        trace := w.trace ++ [Event.scanned data.data] } = .ok ⟨⟩ w' := by
  unfold processInputBuffer at hrun
  rw [run_get_bind, run_modify_bind] at hrun
  cases hscan : performScan ((w.seen : Int) + data.len - (mergeCarry w.bufMasterCmd data).len)
      (Scan.processInputBuffer w.bufMasterCmd data).1
      { w with
        bufMasterCmd := []
        seen := w.seen + data.data.length
        trace := w.trace ++ [Event.scanned data.data] } with
  | error e v =>
    rw [run_bind_error hscan] at hrun
    cases hrun
  | ok a v =>
    rw [run_bind_ok hscan] at hrun
    cases hend : (Scan.processInputBuffer w.bufMasterCmd data).2 with
    -- a scan that ends normally leaves the world as the actions did
    | done | unexpected =>
      rw [hend] at hrun
      obtain ⟨-, rfl⟩ := EStateM.Result.ok.inj hrun
      exact ⟨Iceberg.Parser.End.noConfusion, rfl⟩
    -- a scan that ends the process does not return
    | exit | crash | hang =>
      rw [hend] at hrun
      cases hrun

/-- What a failed scan leaves, the rest of the callback leaves too. -/
theorem handleChunk_calm {data : WData} {w' : World} (hm : w.masterFd ≠ -1)
    (hin : w.readFd ≠ -1 → w.readFd ∈ w.fds) (hrun : handleChunk data w = .ok ⟨⟩ w') :
    if w.state = .running ∧ w.readFd ≠ -1 then
      match Scan.behindFailure w.answers.q w.outcomes.writes
          (Scan.processInputBuffer w.bufMasterCmd data).1 with
      | none => Ended w.trace w'
      | some rest => Down w' ∧ w'.bufMasterCmd = Scan.carryOf rest
    else Ended w.trace w' := by
  have hself : Calm w.trace w := ⟨[], by rw [List.append_nil], List.not_mem_nil⟩
  -- the last thing the callback does is to pass the chunk on
  have hlast : Triple (Calm w.trace) (do
      let w ← get
      discard (writeData w.clientFd data.data)) (fun _ => Ended w.trace) (fun _ _ => True) :=
    Triple.bind Triple.get fun v => Triple.pre (lastWrite_calm _ _) fun _ h => h.2
  unfold handleChunk at hrun
  rcases Decidable.em (w.state = .running) with hstate | hstate
  · have hexamine := @examine_running w data hstate
    cases hproc : processInputBuffer data w with
    | error e v =>
      rw [run_bind_error (hexamine.trans hproc)] at hrun
      cases hrun
    | ok a v =>
      rw [run_bind_ok (hexamine.trans hproc)] at hrun
      -- the scan, from the world with the carry taken
      have hscan := performScan_calm (by exact hm) (by exact hin) (processInputBuffer_ok hproc).2
      have hgrow : ∀ u, Calm (w.trace ++ [Event.scanned data.data]) u → Calm w.trace u := by
        rintro u ⟨es, htrace, hes⟩
        exact ⟨.scanned data.data :: es, by rw [htrace, List.append_assoc]; rfl, by simp [hes]⟩
      rcases Decidable.em (w.readFd = -1) with hr | hr
      · -- no redis-server, so nothing could fail in the scan
        rw [if_neg (not_not_intro hr)] at hscan
        rw [if_neg fun h => h.2 hr]
        exact hlast.ok (hgrow _ hscan) hrun
      · rw [if_pos hr] at hscan
        rw [if_pos ⟨hstate, hr⟩]
        simp only at hscan
        cases hbehind : Scan.behindFailure w.answers.q w.outcomes.writes
            (Scan.processInputBuffer w.bufMasterCmd data).1 with
        | none =>
          simp only [hbehind] at hscan
          exact hlast.ok (hgrow _ hscan) hrun
        | some rest =>
          simp only [hbehind] at hscan
          -- behind a failed query there is no slave left to write to
          rw [run_get_bind, hscan.1.client] at hrun
          exact (Triple.discard ((writeData_down _).post fun _ _ h => h.2)).ok hscan hrun
  · -- outside RUNNING_STATE the chunk is not scanned
    rw [run_bind_ok (examine_other hstate)] at hrun
    rw [if_neg fun h => hstate h.1]
    refine hlast.ok ?_ hrun
    split
    · exact hself.same rfl
    · exact hself

/-- What a callback on the data of the master leaves. -/
theorem readFromMaster_calm {w' : World} (hm : w.masterFd ≠ -1) (hfd : fd ≠ -1)
    (hopen : fd ∈ w.fds) (hin : w.readFd ≠ -1 → w.readFd ∈ w.fds)
    (hrun : readFromMaster fd w = .ok ⟨⟩ w') :
    match w.failedScan with
    | none => Ended w.trace w'
    | some rest => Down w' ∧ w'.bufMasterCmd = Scan.carryOf rest := by
  have hself : Calm w.trace w := ⟨[], by rw [List.append_nil], List.not_mem_nil⟩
  -- the two states that share the default case
  have hdefault : defaultCase fd w = .ok ⟨⟩ w' → match w.failedScan with
      | none => Ended w.trace w'
      | some rest => Down w' ∧ w'.bufMasterCmd = Scan.carryOf rest := by
    intro hrun
    rw [defaultCase_open hm hfd hopen] at hrun
    cases hr : w.outcomes.reads with
    | nil =>
      simp only [hr] at hrun
      cases hrun
    | cons r reads =>
      cases r with
      | error e =>
        have hscan : w.failedScan = none := by simp [World.failedScan, Outcomes.chunk, hr]
        simp only [hr] at hrun
        simp only [hscan]
        split at hrun
        · -- nothing to read yet, or the connection is given up
          obtain ⟨-, rfl⟩ := EStateM.Result.ok.inj hrun
          exact Or.inl (hself.same rfl)
        · obtain ⟨-, rfl⟩ := EStateM.Result.ok.inj hrun
          exact Or.inr (clean_closeFd _)
      | ok got =>
        obtain ⟨b, bs⟩ := got
        simp only [hr] at hrun
        have hchunk : w.outcomes.chunk = (b :: bs).take maxRead := by
          simp only [Outcomes.chunk, hr]
        have hne : w.outcomes.chunk ≠ [] := by simp [hchunk, maxRead]
        -- a chunk has been read, and the rest of the callback is `handleChunk`
        have hrest := handleChunk_calm (by exact hm) (by exact hin) hrun
        have hgrow : ∀ u, Ended ((w.leftReads reads).log
            [.read fd ((b :: bs).take maxRead)]).trace u → Ended w.trace u := by
          rintro u (⟨es, htrace, hes⟩ | hclean)
          · refine Or.inl ⟨.read fd ((b :: bs).take maxRead) :: es, ?_, by simp [hes]⟩
            rw [htrace]
            simp [World.log, World.leftReads]
          · exact Or.inr hclean
        rw [← hchunk] at hrest hgrow
        rcases Decidable.em (w.state = .running ∧ w.readFd ≠ -1) with hc | hc
        · have hscan : w.failedScan = Scan.behindFailure w.answers.q w.outcomes.writes
              (Scan.processInputBuffer w.bufMasterCmd ⟨w.outcomes.chunk, w.outcomes.around⟩).1 := by
            rw [World.failedScan, if_pos ⟨hc.1, hc.2, hne⟩]
          rw [if_pos (by exact hc)] at hrest
          rw [hscan]
          cases hbehind : Scan.behindFailure w.answers.q w.outcomes.writes
              (Scan.processInputBuffer w.bufMasterCmd ⟨w.outcomes.chunk, w.outcomes.around⟩).1 with
          | none =>
            simp only [World.log, World.leftReads, hbehind] at hrest
            exact hgrow _ hrest
          | some rest =>
            simp only [World.log, World.leftReads, hbehind] at hrest
            exact hrest
        · have hscan : w.failedScan = none := by
            rw [World.failedScan, if_neg fun h => hc ⟨h.1, h.2.1⟩]
          rw [if_neg (by exact hc)] at hrest
          rw [hscan]
          exact hgrow _ hrest
  unfold readFromMaster at hrun
  rw [run_get_bind] at hrun
  -- a scan can fail only in RUNNING_STATE
  have hnone : w.state ≠ .running → w.failedScan = none := fun h => by
    rw [World.failedScan, if_neg fun hc => h hc.1]
  cases hstate : w.state with
  | syncStart =>
    rw [hstate] at hrun
    rw [hnone (by rw [hstate]; decide)]
    exact (syncStartCase_calm fd).ok hself hrun
  | sync =>
    rw [hstate] at hrun
    rw [hnone (by rw [hstate]; decide)]
    exact (syncCase_calm fd).ok hself hrun
  | start =>
    rw [hstate] at hrun
    exact hdefault hrun
  | running =>
    rw [hstate] at hrun
    exact hdefault hrun

/-- When the callback returns, the scan of the chunk has not crashed. -/
theorem readFromMaster_scan {w' : World} (hm : w.masterFd ≠ -1) (hfd : fd ≠ -1)
    (hopen : fd ∈ w.fds) (hstate : w.state = .running) (hchunk : w.outcomes.chunk ≠ [])
    (hrun : readFromMaster fd w = .ok ⟨⟩ w') :
    (Scan.processInputBuffer w.bufMasterCmd ⟨w.outcomes.chunk, w.outcomes.around⟩).2 ≠ .crash := by
  unfold readFromMaster at hrun
  rw [run_get_bind, hstate] at hrun
  simp only at hrun
  rw [defaultCase_open hm hfd hopen] at hrun
  unfold Outcomes.chunk at hchunk ⊢
  cases hr : w.outcomes.reads with
  -- without a chunk there is no scan
  | nil =>
    rw [hr] at hchunk
    exact absurd rfl hchunk
  | cons r reads =>
    rw [hr] at hchunk hrun
    cases r with
    | error e => exact absurd rfl hchunk
    | ok got =>
      unfold handleChunk at hrun
      simp only at hrun ⊢
      generalize hdata : (⟨(got.1 :: got.2).take maxRead, w.outcomes.around⟩ : WData) = data
        at hrun ⊢
      have hexamine := @examine_running ((w.leftReads reads).log [.read fd data.data]) data hstate
      subst hdata
      cases hproc : processInputBuffer _ ((w.leftReads reads).log _) with
      | error e v =>
        rw [run_bind_error (hexamine.trans hproc)] at hrun
        cases hrun
      | ok a v => exact (processInputBuffer_ok hproc).1

/-- The line for a `DEL` of the chunk cannot be written, and behind it another one breaks off. The
chunk comes with what is left over from the one before. -/
def LeavesCarry (w : World) (s : Step) : Prop :=
  let buf := mergeCarry w.bufMasterCmd ⟨s.outcomes.chunk, s.outcomes.around⟩
  s.Calls w .readFromMaster ∧ w.state = .running ∧ w.readFd ≠ -1 ∧ s.outcomes.chunk ≠ []
    ∧ 14 < buf.len ∧ Scan.FailsBefore buf w.answers.q s.outcomes.writes (Scan.placesAt buf 0)

instance (w : World) (s : Step) : Decidable (LeavesCarry w s) :=
  inferInstanceAs (Decidable (_ ∧ _ ∧ _ ∧ _ ∧ _ ∧ _))

/-- The same of the calls of the scan. -/
theorem leavesCarry_iff {s : Step} (hcalls : s.Calls w .readFromMaster)
    (hend : w.state = .running → s.outcomes.chunk ≠ [] →
      (Scan.processInputBuffer w.bufMasterCmd ⟨s.outcomes.chunk, s.outcomes.around⟩).2 ≠ .crash) :
    LeavesCarry w s ↔ ∃ rest ∈ World.failedScan { w with outcomes := s.outcomes },
      Scan.carryOf rest ≠ [] := by
  unfold LeavesCarry World.failedScan
  simp only
  rcases Decidable.em (w.state = .running ∧ w.readFd ≠ -1 ∧ s.outcomes.chunk ≠ []) with hc | hc
  · -- a chunk is scanned: the walk over its bytes and the scan agree
    rw [if_pos hc, Scan.processInputBuffer]
    have hchunk : s.outcomes.chunk.length ≤ maxRead := s.outcomes.length_chunk
    have hlen := @length_mergeCarry ⟨s.outcomes.chunk, s.outcomes.around⟩ w.bufMasterCmd hchunk
    rcases Int.lt_or_le 14 (mergeCarry w.bufMasterCmd ⟨s.outcomes.chunk, s.outcomes.around⟩).len
      with hlong | hshort
    · rw [← Scan.failsBefore_iff hlen hlong (Int.le_refl 0) (Nat.lt_succ_self _)
        (hend hc.1 hc.2.2)]
      simp [hcalls, hc, hlong]
    · -- in a short buffer nothing is asked for
      rw [Scan.behindFailure_short hshort]
      simp [show ¬ 14 < (mergeCarry w.bufMasterCmd ⟨s.outcomes.chunk, s.outcomes.around⟩).len from
        by omega]
  · rw [if_neg hc]
    constructor
    · rintro ⟨-, hstate, hread, hchunk, -⟩
      exact absurd ⟨hstate, hread, hchunk⟩ hc
    · rintro ⟨rest, hrest, -⟩
      cases hrest

/-- **A step with a reset leaves nothing behind, unless the scan goes on and saves.** -/
theorem clean_iff {w w' : World} (h : w.Reachable) (s : Step) (hrun : s.run w = .ok ⟨⟩ w')
    (hreset : ResetIn w w') : Clean w' ↔ ¬ LeavesCarry w s := by
  have hended : Ended w.trace w' → ¬ LeavesCarry w s → (Clean w' ↔ ¬ LeavesCarry w s) :=
    fun hend hno => iff_of_true (hend.resolve_left fun hcalm => hcalm.not_resetIn hreset) hno
  have hself : Calm w.trace { w with outcomes := s.outcomes } :=
    ⟨[], by rw [List.append_nil], List.not_mem_nil⟩
  rcases s.run_cases w with ⟨fired, heq⟩ | ⟨fd, fired, handler, hcalls, hentry, heq⟩ | heq
  · rw [heq] at hrun
    obtain ⟨-, rfl⟩ := EStateM.Result.ok.inj hrun
    exact absurd hreset (Calm.not_resetIn (hself.same rfl))
  · -- only the callback of the master scans
    have hother : handler ≠ .readFromMaster → ¬ LeavesCarry w s := by
      rintro hne ⟨⟨-, x, hx, hmaster⟩, -⟩
      obtain ⟨-, y, hy, hcall⟩ := hcalls
      obtain rfl := Option.mem_unique hx hy
      rw [hmaster] at hcall
      exact hne (Option.some.inj hcall).symm
    rw [heq] at hrun
    have hcalm : Calm w.trace { w with outcomes := s.outcomes, fired := fired } := hself.same rfl
    cases handler with
    | readFromSlave => exact hended ((readFromSlave_calm fd).ok hcalm hrun) (hother (by decide))
    | readDelValue => exact hended ((readDelValue_calm fd).ok hcalm hrun) (hother (by decide))
    | acceptTcpHandler => exact hended (acceptTcpHandler_calm.ok hcalm hrun) (hother (by decide))
    | readFromMaster =>
      -- the master's callback: what its scan leaves decides
      obtain ⟨hup, rfl⟩ := h.settled.master hentry
      have hrest := readFromMaster_calm (by exact hup.masterFd_ne) (by exact hup.masterFd_ne)
        (by exact hup.master.isOpen)
        (by exact fun hr => (hup.reader.resolve_left hr).isOpen) hrun
      have hend : w.state = .running → s.outcomes.chunk ≠ [] → (Scan.processInputBuffer
          w.bufMasterCmd ⟨s.outcomes.chunk, s.outcomes.around⟩).2 ≠ .crash := fun hstate hchunk =>
        readFromMaster_scan (w := { w with outcomes := s.outcomes, fired := fired })
          hup.masterFd_ne hup.masterFd_ne hup.master.isOpen hstate hchunk hrun
      cases hscan : World.failedScan { w with outcomes := s.outcomes } with
      -- no query failed, so a reset came from somewhere else and cleared the carry
      | none =>
        refine hended ?_ fun hleaves => ?_
        · have : World.failedScan { w with outcomes := s.outcomes, fired := fired } = none := hscan
          rw [this] at hrest
          exact hrest
        · obtain ⟨rest, hmem, -⟩ := (leavesCarry_iff hcalls hend).mp hleaves
          rw [hscan] at hmem
          cases hmem
      | some rest =>
        have : World.failedScan { w with outcomes := s.outcomes, fired := fired } = some rest :=
          hscan
        rw [this] at hrest
        -- the carry that is left is the one of the walk
        have hleaves : LeavesCarry w s ↔ Scan.carryOf rest ≠ [] := by
          rw [leavesCarry_iff hcalls hend, hscan]
          simp
        rw [hrest.1.clean_buf, hrest.2, hleaves, not_not]
  · rw [heq] at hrun
    exact absurd hreset (timeEvent_calm.ok hself hrun).not_resetIn

/-! ## A query that fails in the middle of a chunk -/

namespace Running

/-- A slave connects, asks for `SYNC` and gets an empty payload. -/
def steps : List Step :=
  Accepting.steps 7
    ++ Accepting.ready 7 [.ok (83, [89, 78, 67, 13, 10])] [.ok 5]
    ++ Accepting.ready 5 [.ok (36, []), .ok (48, []), .ok (13, []), .ok (10, [])]
      [.ok 0, .ok 0, .ok 0, .ok 0]
    ++ Accepting.ready 5 [] []

/-- `DEL k`, and the start of a command. -/
def chunk (start : Bytes) : UInt8 × Bytes :=
  (42, [50, 13, 10, 36, 51, 13, 10, 68, 69, 76, 13, 10, 36, 49, 13, 10, 107, 13, 10] ++ start)

/-- The query for `k` cannot be written: the master has reset the connection. -/
def last (start : Bytes) : Step := ⟨.file, Accepting.exchange [.ok (chunk start)] [.error 104]⟩

/-- What the last step leaves: whether it resets, and `buf_master_cmd`. -/
def left (start : Bytes) : Option (Bool × Bytes) :=
  (World.start (Accepting.outcomes 7)).bind fun w₀ =>
    (runAll Step.run (fun _ _ => True)
      (steps ++ [⟨.poll [5], Accepting.exchange [] []⟩]) w₀).bind fun w =>
      (runAll Step.run (fun _ _ => True) [last start] w).map fun w' =>
        (decide (w'.trace.take w.trace.length = w.trace
          ∧ Event.reset ∈ w'.trace.drop w.trace.length), w'.bufMasterCmd)

/-- What the last step of the sample run leaves, as a statement about reachable states. -/
theorem of_left {start : Bytes} {b : Bytes} (h : left start = some (true, b)) :
    ∃ w w', w.Reachable ∧ (last start).run w = .ok ⟨⟩ w' ∧ ResetIn w w'
      ∧ w'.bufMasterCmd = b := by
  unfold left at h
  obtain ⟨w₀, hstart, h⟩ := Option.bind_eq_some_iff.mp h
  obtain ⟨w, hrun, h⟩ := Option.bind_eq_some_iff.mp h
  obtain ⟨w', hlast, h⟩ := Option.map_eq_some_iff.mp h
  obtain ⟨hreset, hbuf⟩ := Prod.mk.inj h
  obtain ⟨hold, hnew⟩ := of_decide_eq_true hreset
  refine ⟨w, w', ⟨w₀, World.starts_of_start hstart, .of_runAll hrun⟩, ?_, ?_, hbuf⟩
  · rw [runAll, if_pos trivial] at hlast
    split at hlast
    · rename_i heq
      obtain rfl := Option.some.inj hlast
      exact heq
    · cases hlast
  · refine ⟨w'.trace.drop w.trace.length, ?_, hnew⟩
    conv => lhs; rw [← List.take_append_drop w.trace.length w'.trace]
    rw [hold]

end Running

theorem clean_iff_del : ∃ w w', ResetIn w w' ∧ (Clean w' ↔ ¬ LeavesCarry w (Running.last [])) := by
  obtain ⟨w, w', h, hrun, hreset, -⟩ := @Running.of_left [] [] (by decide +kernel)
  exact ⟨w, w', hreset, clean_iff h _ hrun hreset⟩

/-- The start of a `DEL` at the end of the chunk is kept for the next connection. -/
theorem not_clean_header : ∃ w s w', w.Reachable ∧ Step.run s w = .ok ⟨⟩ w' ∧ ResetIn w w'
    ∧ ¬ Clean w' := by
  obtain ⟨w, w', h, hrun, hreset, hbuf⟩ :=
    @Running.of_left Scan.delHeader Scan.delHeader (by decide +kernel)
  exact ⟨w, _, w', h, hrun, hreset, fun hclean => by rw [hclean.buf] at hbuf; cases hbuf⟩

end Iceberg
