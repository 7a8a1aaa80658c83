import Iceberg.Proxy.Relay
import Mathlib.Data.List.DropRight

/-!
# The lines on the connection for the queries

Besides `queryKey` no function writes to `read_fd`, and besides `readDelValue` none reads from it.
An invariant of this connection is kept by all steps when it stands the few things that happen to
it (`Watches`): it is opened, it is closed, a line is written to it, or a part of one. The first
such invariant is that the bytes on it are the lines of the keys that have been asked for.
-/

namespace Iceberg

open Triples

/-- The keys whose lines have been written completely. -/
def keysIn (es : List Event) : List Key :=
  es.filterMap fun
    | .asked _ key => some key
    | _ => none

namespace World

/-- What has happened since the present connection for the queries was opened. -/
def connection (w : World) : List Event :=
  if w.readFd = -1 then [] else w.trace.rtakeWhile (· ≠ .opened w.readFd)

/-- The bytes that have been written to it. -/
def written (w : World) : Bytes := writtenTo w.readFd w.connection

/-- The bytes of replies that have been read from it. -/
def received (w : World) : Bytes := readFrom w.readFd w.connection

end World

variable {w w' : World} {es : List Event} {fd : Int}

/-! ## Longer traces -/

@[simp] theorem keysIn_append (es es' : List Event) :
    keysIn (es ++ es') = keysIn es ++ keysIn es' := List.filterMap_append

theorem keysIn_wrote (fd : Int) (pieces : List Bytes) :
    keysIn (pieces.map (Event.wrote fd)) = [] := by
  simp [keysIn]

/-- The event does not belong to the connection `r`. -/
def Event.Elsewhere (r : Int) : Event → Prop
  | .read fd _ => fd ≠ r
  | .wrote fd _ => fd ≠ r
  | .opened fd => fd ≠ r
  | _ => True

/-- What happens elsewhere does not open the connection, nor is it read from it or written
to it. -/
theorem elsewhere_quiet {r : Int} (h : ∀ e ∈ es, e.Elsewhere r) :
    Event.opened r ∉ es ∧ readFrom r es = [] ∧ writtenTo r es = [] := by
  refine ⟨fun hmem => h _ hmem rfl, ?_, ?_⟩
  · apply List.flatMap_eq_nil_iff.mpr
    intro e he
    cases e with
    | read fd bs => exact if_neg (h _ he)
    | _ => rfl
  · apply List.flatMap_eq_nil_iff.mpr
    intro e he
    cases e with
    | wrote fd bs => exact if_neg (h _ he)
    | _ => rfl

/-- To open and close descriptors asks for no key. -/
theorem keysIn_links (h : ∀ e ∈ es, e.Links) : keysIn es = [] := by
  apply List.filterMap_eq_nil_iff.mpr
  intro e he
  cases e with
  | asked place key => exact absurd (h _ he) id
  | _ => rfl

namespace World

theorem connection_none (h : w.readFd = -1) : w.connection = [] := if_pos h

theorem written_none (h : w.readFd = -1) : w.written = [] := by
  unfold written
  rewrite [connection_none h]
  rfl

theorem received_none (h : w.readFd = -1) : w.received = [] := by
  unfold received
  rewrite [connection_none h]
  rfl

/-- The events of the connection are the last ones of the trace. -/
theorem connection_suffix (w : World) : w.connection <:+ w.trace := by
  unfold connection
  split
  · exact List.nil_suffix
  · exact List.rtakeWhile_suffix _ _

/-- The events since the connection was opened. -/
theorem connection_append (htrace : w'.trace = w.trace ++ es) (hreader : w'.readFd = w.readFd)
    (hr : w.readFd ≠ -1) (hes : Event.opened w.readFd ∉ es) :
    w'.connection = w.connection ++ es := by
  unfold connection
  rw [hreader, if_neg hr, if_neg hr, htrace, List.rtakeWhile, List.reverse_append,
    List.takeWhile_append_of_pos, List.reverse_append, List.reverse_reverse]
  · rfl
  · intro e he
    apply decide_eq_true
    rintro rfl
    exact hes (List.mem_reverse.mp he)

/-- A connection that has just been opened. -/
theorem connection_opened (htrace : w'.trace = w.trace ++ [.opened fd]) (hreader : w'.readFd = fd) :
    w'.connection = [] := by
  unfold connection
  split
  · rfl
  · rw [htrace, hreader]
    apply List.rtakeWhile_concat_neg
    simp

/-- The connection goes on with some events. -/
structure Continues (w w' : World) (es : List Event) : Prop where
  trace : w'.trace = w.trace ++ es
  keys : keysIn w'.connection = keysIn w.connection ++ keysIn es
  written : w'.written = w.written ++ writtenTo w.readFd es
  received : w'.received = w.received ++ readFrom w.readFd es

/-- The connection goes on as long as its descriptor is not opened again. -/
theorem continues (htrace : w'.trace = w.trace ++ es) (hreader : w'.readFd = w.readFd)
    (hr : w.readFd ≠ -1) (hes : Event.opened w.readFd ∉ es) : Continues w w' es := by
  have hconnection := connection_append htrace hreader hr hes
  refine ⟨htrace, ?_, ?_, ?_⟩
  · rw [hconnection, keysIn_append]
  · unfold written
    rw [hconnection, hreader, writtenTo_append]
  · unfold received
    rw [hconnection, hreader, readFrom_append]

end World

/-! ## What happens to the connection -/

/-- `P` stands everything that happens to the connection for the queries but the reading of
replies. In the loop of `writeData`, when a line has been begun, there is only `Q`. -/
structure Watches (P Q : World → Prop) : Prop where
  stop : ∀ w, P w → Q w
  down : ∀ w, P w → w.masterFd = -1 → w.readFd = -1
  log : ∀ (w w' : World) (es : List Event), P w → w'.trace = w.trace ++ es →
    w'.readFd = w.readFd → w'.answers = w.answers → keysIn es = [] →
    (w.readFd = -1 ∨ ∀ e ∈ es, e.Elsewhere w.readFd) →
    (w'.masterFd = -1 → w.masterFd = -1 ∨ w.readFd = -1) → P w'
  opened : ∀ (w w' : World) (fd : Int), P w → w.readFd = -1 →
    w'.trace = w.trace ++ [.opened fd] → w'.readFd = fd → w'.answers = w.answers →
    w'.masterFd ≠ -1 → P w'
  closeFd : ∀ w, P w → P w.closeFd
  cut : ∀ (w : World) (bs : Bytes), P w → P (w.sent w.readFd bs).closeFd
  begun : ∀ (w w' : World) (pieces : List Bytes) (key : Key), P w → w.readFd ≠ -1 →
    pieces.flatten <+: Scan.queryCmd key → pieces.flatten ≠ Scan.queryCmd key →
    w'.trace = w.trace ++ pieces.map (Event.wrote w.readFd) → w'.readFd = w.readFd →
    w'.answers = w.answers → Q w'
  asked : ∀ (w w' : World) (pieces : List Bytes) (place : Int) (key : Key), P w →
    w.readFd ≠ -1 → w.answers.q.isFull = false → pieces.flatten = Scan.queryCmd key →
    w'.trace = w.trace ++ (pieces.map (Event.wrote w.readFd) ++ [.asked place key]) →
    w'.readFd = w.readFd → w'.answers = { w.answers with q := w.answers.q.push key } →
    w'.masterFd = w.masterFd → P w'

variable {P Q : World → Prop}

/-- `fd` is another descriptor than that of the queries, and so are those that are written to. -/
def Apart (P : World → Prop) (fd : Int) (w : World) : Prop :=
  P w ∧ (w.readFd = -1 ∨ w.readFd ≠ fd ∧ w.readFd ≠ w.masterFd ∧ w.readFd ≠ w.clientFd)

/-- There is a master, and the connection for the queries is open if there is one. -/
def Standing (P : World → Prop) (w : World) : Prop :=
  P w ∧ w.masterFd ≠ -1 ∧ (w.readFd = -1 ∨ w.readFd ∈ w.fds)

/-- A write to another descriptor happens elsewhere. -/
theorem elsewhere_wrote {r : Int} (h : fd ≠ r) (pieces : List Bytes) :
    ∀ e ∈ pieces.map (Event.wrote fd), e.Elsewhere r := by
  intro e he
  obtain ⟨bs, -, rfl⟩ := List.mem_map.mp he
  exact h

namespace Watches

variable (hw : Watches P Q)

include hw

/-- The predicate does not depend on what the connection has nothing to do with. -/
theorem same (h : P w) (htrace : w'.trace = w.trace) (hreader : w'.readFd = w.readFd)
    (hanswers : w'.answers = w.answers) (hmaster : w'.masterFd = w.masterFd) : P w' := by
  apply hw.log w w' [] h
  · rw [htrace, List.append_nil]
  · exact hreader
  · exact hanswers
  · rfl
  · exact Or.inr fun e he => absurd he List.not_mem_nil
  · intro hm
    exact Or.inl (hmaster.symm.trans hm)

/-! ### The callbacks of the other descriptors -/

/-- A new connection to the master finds none for the queries. -/
theorem reconnects (h : P w) (hm : w.masterFd = -1) (hr : Reconnects w w') :
    P w' ∧ w'.readFd = -1 := by
  have hnone := hw.down w h hm
  obtain ⟨_, _, _, ⟨_, _, _, _, _, es, hes, rfl⟩, rfl⟩ := hr
  exact ⟨hw.log w _ es h rfl rfl rfl (keysIn_links hes) (Or.inl hnone) fun _ => Or.inr hnone,
    hnone⟩

theorem enduring : Enduring P where
  reconnects := fun _ _ h hm hr => (hw.reconnects h hm hr).1
  leftReads := fun _ _ h => hw.same h rfl rfl rfl rfl
  closeFd := hw.closeFd

theorem enduring_disconnected : Enduring fun w => P w ∧ w.readFd = -1 where
  reconnects := fun _ _ h hm hr => hw.reconnects h.1 hm hr
  leftReads := fun _ _ h => ⟨hw.same h.1 rfl rfl rfl rfl, h.2⟩
  closeFd := fun w h => ⟨hw.closeFd w h.1, World.closeFd_readFd⟩

/-- So it does when the descriptor is another one. -/
theorem enduring_apart (fd : Int) : Enduring (Apart P fd) where
  reconnects := fun _ _ h hm hr =>
    ⟨(hw.reconnects h.1 hm hr).1, Or.inl (hw.reconnects h.1 hm hr).2⟩
  leftReads := fun _ _ h => ⟨hw.same h.1 rfl rfl rfl rfl, h.2⟩
  closeFd := fun w h => ⟨hw.closeFd w h.1, Or.inl World.closeFd_readFd⟩

theorem stateless_apart (fd : Int) : Stateless (Apart P fd) :=
  fun _ _ _ h => ⟨hw.same h.1 rfl rfl rfl rfl, h.2⟩

/-- **`readData`** from another descriptor. -/
theorem keeps_readData (fd : Int) (size : Nat) : Keeps (Apart P fd) Q (readData fd size) := by
  refine ((hw.enduring_apart fd).keeps_readData ?_ size).conseq (fun _ => id) (fun _ _ => id)
    fun _ w h => hw.stop w h.1
  intro w bs h
  refine ⟨hw.log w _ _ h.1 rfl rfl rfl rfl (h.2.imp_right fun hr => ?_) Or.inl, h.2⟩
  intro e he
  rw [List.mem_singleton.mp he]
  exact hr.1.symm

/-- A write to the master or to the slave. -/
theorem sends_apart {target : World → Int}
    (htarget : ∀ w, w.readFd ≠ w.masterFd ∧ w.readFd ≠ w.clientFd → target w ≠ w.readFd) :
    Sends (Apart P fd) Q target := by
  rintro w bs v ⟨rfl, h⟩
  rcases Decidable.em (w.masterFd = -1) with hm | hm
  · -- without a master the write may reconnect first
    have hkeeps : ∀ u, P u ∧ u.readFd = -1 →
        P (u.sent (target w) bs) ∧ u.readFd = -1 := fun u hu =>
      ⟨hw.log u _ _ hu.1 rfl rfl rfl (keysIn_wrote _ _) (Or.inl hu.2) Or.inl, hu.2⟩
    exact ((hw.enduring_disconnected.keeps_writeData hkeeps).conseq (fun _ => id)
      (fun _ _ hu => ⟨hu.1, Or.inl hu.2⟩) fun _ u hu => hw.stop u hu.1) w ⟨h.1, hw.down w h.1 hm⟩
  · have hsent : Apart P fd (w.sent (target w) bs) := by
      refine ⟨hw.log w _ _ h.1 rfl rfl rfl (keysIn_wrote _ _) (h.2.imp_right fun hr => ?_) Or.inl,
        h.2⟩
      exact elsewhere_wrote (htarget w hr.2) _
    -- nothing written, an error, a line that went out, or a part of it
    rcases @writeData_up w (target w) bs hm with
      ⟨w', hrun, rfl | rfl | rfl⟩ | ⟨-, -, hrun⟩ | ⟨-, -, -, hrun⟩
    · rw [hrun]
      exact h
    · rw [hrun]
      exact (hw.enduring_apart fd).closeFd _ h
    · rw [hrun]
      exact (hw.enduring_apart fd).closeFd _ hsent
    · rw [hrun]
      exact hsent
    · rw [hrun]
      exact hw.stop _ hsent.1

/-- A key is queued behind its line, and not without it. -/
theorem keeps_queryKey (place : Int) (key : Key) :
    Keeps (Apart P fd) Q (queryKey place key) := by
  intro w h
  unfold queryKey
  rw [run_get_bind]
  rcases Decidable.em (w.answers.q.isFull = true) with hfull | hfull
  · rw [if_pos hfull]
    exact h
  rw [if_neg hfull]
  rcases Decidable.em (w.masterFd = -1) with hm | hm
  · rw [hw.down w h.1 hm]
    have hnone := ((hw.enduring_apart fd).keeps_writeData_none (Scan.queryCmd key)).conseq
      (fun _ => id) (fun _ _ => id) fun _ v hv => hw.stop v hv.1
    refine Triple.bind hnone (fun done => ?_) w h
    apply Triple.ite
    · -- a line that is not written is not queued
      intro hdone
      refine Triple.modify fun v hv => ?_
      rw [hv.2] at hdone
      cases hdone
    · intro _
      exact Triple.pure fun v hv => hv.1
  · have hroom : w.answers.q.isFull = false := by simpa using hfull
    rcases @writeData_up w w.readFd (Scan.queryCmd key) hm with
      ⟨w', hrun, hends⟩ | ⟨hr, hline, hrun⟩ | ⟨hr, hpre, hne, hrun⟩
    · rw [run_bind_ok hrun, if_neg (by decide)]
      rcases hends with rfl | rfl | rfl
      · exact h
      · exact ⟨hw.closeFd w h.1, Or.inl World.closeFd_readFd⟩
      · exact ⟨hw.cut w _ h.1, Or.inl World.closeFd_readFd⟩
    · rw [run_bind_ok hrun, if_pos rfl]
      exact ⟨hw.asked w _ _ place key h.1 hr hroom hline
        (List.append_assoc _ _ [Event.asked place key]) rfl rfl rfl, h.2⟩
    · rw [run_bind_error hrun]
      exact hw.begun w _ _ key h.1 hr hpre hne rfl rfl rfl

/-- **The scan** writes lines to the connection, each with its key, or breaks off in the middle of
one and resets. -/
theorem keeps_processInputBuffer (data : WData) :
    Keeps (Apart P fd) Q (processInputBuffer data) := by
  apply keeps_scan (fun w h => hw.stop w h.1) hw.keeps_queryKey
  · intro w buf h
    exact ⟨hw.same h.1 rfl rfl rfl rfl, h.2⟩
  · intro w h
    refine ⟨hw.log w _ _ h.1 rfl rfl rfl rfl (Or.inr ?_) Or.inl, h.2⟩
    simp [Event.Elsewhere]

/-- The callbacks of the master and of the slave. -/
theorem keeps_callback {handler : Handler}
    (hhandler : handler = .readFromMaster ∨ handler = .readFromSlave) :
    Keeps (Apart P fd) Q (callback handler fd) := by
  rcases hhandler with rfl | rfl
  · exact keeps_readFromMaster (fun w h => hw.stop w h.1) (hw.sends_apart fun _ h => h.2.symm)
      (hw.keeps_readData fd) (hw.stateless_apart fd) hw.keeps_processInputBuffer
  · exact keeps_readFromSlave (hw.keeps_readData fd) (hw.sends_apart fun _ h => h.1.symm)
      (hw.stateless_apart fd)

/-! ### Accepting a slave -/

/-- A descriptor is opened, another one than that of the queries. -/
theorem standing_opened (h : Standing P w) (hfresh : fd ∉ w.fds) : Standing P (w.opened fd) := by
  refine ⟨hw.log w _ _ h.1 rfl rfl rfl rfl (h.2.2.imp_right fun hr => ?_) Or.inl, h.2.1,
    h.2.2.imp_right (List.mem_cons_of_mem _)⟩
  intro e he
  rw [List.mem_singleton.mp he]
  rintro rfl
  exact hfresh hr

/-- To open a descriptor leaves the connection alone: a number that is open is not given out
again. -/
theorem keeps_openFd (kind : Handler) : Keeps (Standing P) P (openFd kind) := by
  intro w h
  cases hrun : openFd kind w with
  | ok fd w' =>
    obtain ⟨opens, -, ⟨-, rfl⟩ | ⟨-, hfresh, -, rfl⟩⟩ := openFd_cases hrun
    · exact ⟨hw.same h.1 rfl rfl rfl rfl, h.2⟩
    · have hleft : Standing P (w.leftOpens kind opens) := ⟨hw.same h.1 rfl rfl rfl rfl, h.2⟩
      exact hw.standing_opened hleft hfresh
  | error e w' =>
    obtain rfl := openFd_stop hrun
    exact h.1

/-- To register a descriptor leaves the connection alone. -/
theorem keeps_aeCreateFileEvent (fd : Int) (proc : Handler) :
    Keeps (Standing P) P (aeCreateFileEvent fd proc) := by
  intro w h
  cases hrun : aeCreateFileEvent fd proc w with
  | ok done w' =>
    obtain ⟨ctls, -, ⟨-, -, rfl⟩ | ⟨-, rfl, -⟩ | ⟨-, rfl, -⟩⟩ := aeCreateFileEvent_cases hrun
    · exact ⟨hw.same h.1 rfl rfl rfl rfl, h.2⟩
    · exact ⟨hw.same h.1 rfl rfl rfl rfl, h.2⟩
    · exact h
  | error e w' =>
    obtain rfl := aeCreateFileEvent_stop hrun
    exact h.1

/-- The connection for the queries is opened when there is none. -/
theorem openQueries :
    Triple (fun w => Standing P w ∧ w.readFd = -1) (openFd .readDelValue)
      (fun readFd w => Standing P { w with readFd := readFd }) (fun _ => P) := by
  intro w ⟨h, hnone⟩
  cases hrun : openFd .readDelValue w with
  | ok fd w' =>
    obtain ⟨opens, -, ⟨rfl, rfl⟩ | ⟨-, -, -, rfl⟩⟩ := openFd_cases hrun
    · exact ⟨hw.same h.1 rfl hnone.symm rfl rfl, h.2.1, Or.inl rfl⟩
    · exact ⟨hw.opened w _ fd h.1 hnone rfl rfl rfl h.2.1, h.2.1, Or.inr List.mem_cons_self⟩
  | error e w' =>
    obtain rfl := openFd_stop hrun
    exact h.1

/-- **`readDataFromSlave`** opens the connection for the queries where there is none. -/
theorem keeps_readDataFromSlave (fd : Int) :
    Triple (Standing P) (readDataFromSlave fd) (fun _ => P) (fun _ => P) := by
  have hclose : Triple (Standing P) (modify World.closeFd : Proxy Unit) (fun _ => P)
      (fun _ => P) := Triple.modify fun w h => hw.closeFd w h.1
  have hdone : Triple (Standing P) (pure ⟨⟩ : Proxy Unit) (fun _ => P) (fun _ => P) :=
    Triple.pure fun _ h => h.1
  refine Triple.ite (fun _ => ?_) fun _ => hdone
  refine Triple.bind (hw.keeps_aeCreateFileEvent fd _) fun done => ?_
  refine Triple.ite (fun _ => ?_) fun _ => hclose
  intro w h
  rw [run_get_bind]
  rcases Decidable.em (w.readFd = -1) with hnone | hsome
  · rw [if_pos hnone]
    refine Triple.bind hw.openQueries (fun readFd => Triple.bind
      (R := fun _ => Standing P) (Triple.modify fun _ h => h) fun _ => ?_) w ⟨h, hnone⟩
    refine Triple.ite (fun _ => hclose) fun _ => ?_
    exact Triple.bind (hw.keeps_aeCreateFileEvent readFd _) fun done =>
      Triple.ite (fun _ => hdone) fun _ => hclose
  · rw [if_neg hsome]
    exact h.1

/-- The old slave is closed, and a new one is accepted. -/
theorem keeps_acceptTcpHandler (hup : Up True w) (h : P w) :
    Triple (· = w) acceptTcpHandler (fun _ => P) (fun _ => P) := by
  have hclosed : Standing P w.slaveClosed := by
    obtain ⟨hmaster, hreader, -⟩ := @World.slaveClosed_same w
    refine ⟨?_, ?_, ?_⟩
    · unfold World.slaveClosed
      split
      · exact hw.log w _ _ h rfl rfl rfl rfl (Or.inr (by simp [Event.Elsewhere])) Or.inl
      · exact h
    · rw [hmaster]
      exact hup.masterFd_ne
    · rw [hreader, World.mem_fds_slaveClosed]
      exact hup.reader.imp_right fun hr =>
        ⟨hr.isOpen, Or.inr (hup.registered_ne hr (by decide))⟩
  rintro v rfl
  rw [acceptTcpHandler_eq hup.masterFd_ne]
  refine Triple.bind (hw.keeps_openFd _) (fun fd => ?_) _ hclosed
  refine Triple.ite (fun _ => Triple.throw fun _ h => h.1) fun _ => ?_
  refine Triple.bind (R := fun _ => Standing P) (Triple.modify fun w h => ?_) fun _ =>
    hw.keeps_readDataFromSlave fd
  exact ⟨hw.same h.1 rfl rfl rfl rfl, h.2⟩

/-! ### Steps -/

/-- A callback, when the one of the queries itself keeps `P`. -/
theorem step_callback {handler : Handler} (hset : Settled True w)
    (hentry : w.events fd = some handler) (h : P w)
    (hreply : handler = .readDelValue → w.readFd ≠ -1 → w.readFd ∈ w.fds →
      Triple (· = w) (readDelValue w.readFd) (fun _ => P) (fun _ => Q)) :
    Triple (· = w) (callback handler fd) (fun _ => P) (fun _ => Q) := by
  have hother : handler = .readFromMaster ∨ handler = .readFromSlave →
      Triple (· = w) (callback handler fd) (fun _ => P) (fun _ => Q) := by
    intro hhandler
    refine (hw.keeps_callback hhandler).conseq ?_ (fun _ _ h => h.1) fun _ _ => id
    rintro v rfl
    refine ⟨h, ?_⟩
    rcases hset with ⟨hidle, -⟩ | hup
    · exact Or.inl hidle.reader
    · refine hup.reader.imp_right fun hr => ⟨?_, ?_, ?_⟩
      · -- the descriptor of the queries has an entry of its own
        intro heq
        rw [← heq, hr.entry] at hentry
        obtain rfl := Option.some.inj hentry
        rcases hhandler with hmaster | hslave
        · cases hmaster
        · cases hslave
      · exact (hup.master.ne hr (by decide)).symm
      · exact hup.registered_ne hr (by decide)
  cases handler with
  | readFromMaster => exact hother (Or.inl rfl)
  | readFromSlave => exact hother (Or.inr rfl)
  | readDelValue =>
    obtain ⟨hup, hopen⟩ := hset.entry hentry (by decide)
    obtain rfl : fd = w.readFd := hup.owner hopen hentry
    have hr : w.readFd ≠ -1 := by
      have := (hup.owned _ hopen).1
      omega
    exact hreply rfl hr hopen
  | acceptTcpHandler =>
    exact (hw.keeps_acceptTcpHandler (hset.entry hentry (by decide)).1 h).conseq (fun _ => id)
      (fun _ _ => id) fun _ w h => hw.stop w h

/-- **A step keeps the invariant** when its read of replies, if it makes one, does. -/
theorem step (s : Step) {C : World → Prop}
    (hreply : ∀ w, P w → C w → s.Calls w .readDelValue → ∀ fired, w.readFd ≠ -1 →
      w.readFd ∈ w.fds → Triple (· = { w with outcomes := s.outcomes, fired := fired })
        (readDelValue w.readFd) (fun _ => P) (fun _ => Q)) :
    Triple (fun w => (P w ∧ Settled True w) ∧ C w) s.run
      (fun _ w => P w ∧ Settled True w) (fun _ => Q) := by
  have hsettled : Triple (Settled True) s.run (fun _ => Settled True) (fun _ _ => True) :=
    (step_settled s).pre fun _ h => ⟨h, Or.inl trivial, fun _ => Or.inl trivial⟩
  have hkeeps : Triple (fun w => (P w ∧ Settled True w) ∧ C w) s.run (fun _ => P)
      (fun _ => Q) := by
    intro w ⟨⟨h, hset⟩, hC⟩
    -- no callback, a callback, or the timer
    rcases s.run_cases w with ⟨fired, heq⟩ | ⟨fd, fired, handler, hcalls, hentry, heq⟩ | heq
    · rw [heq]
      exact hw.same h rfl rfl rfl rfl
    · rw [heq]
      -- the bookkeeping does not look at the outcomes
      have hnext : Settled True { w with outcomes := s.outcomes, fired := fired } := by
        rcases hset with ⟨hidle, hm⟩ | hup
        · exact Or.inl ⟨hidle.same rfl rfl rfl rfl rfl rfl, hm⟩
        · exact Or.inr (hup.same rfl rfl rfl rfl rfl rfl rfl)
      refine hw.step_callback hnext hentry (hw.same h rfl rfl rfl rfl) ?_ _ rfl
      rintro rfl
      exact hreply w h hC hcalls fired
    · rw [heq]
      have htimer := hw.enduring.keeps_timeEvent fun _ _ h => hw.same h rfl rfl rfl rfl
      exact htimer.conseq (fun _ => id) (fun _ _ => id) (fun _ w h => hw.stop w h) _
        (hw.same h rfl rfl rfl rfl)
  exact (hkeeps.and hsettled).conseq (fun _ h => ⟨h, h.1.2⟩) (fun _ _ => id) fun _ _ h => h.1

theorem starts (hinit : ∀ o, P { World.init with outcomes := o }) (h : w.Starts) : P w := by
  obtain ⟨o, hrun⟩ := h
  exact (hw.enduring.keeps_connectToMaster rfl).ok ⟨rfl, hinit o⟩ hrun

end Watches

/-! ## Lines only -/

/-- The bytes on the connection are the lines of the keys that have been asked for on it, and at
most a beginning of the next one. -/
def OnlyLines (w : World) : Prop :=
  ∃ key part, w.written = (keysIn w.connection).flatMap Scan.queryCmd ++ part
    ∧ part <+: Scan.queryCmd key ∧ part ≠ Scan.queryCmd key

/-- Between the steps no line is begun. -/
structure Lined (w : World) : Prop where
  lines : w.written = (keysIn w.connection).flatMap Scan.queryCmd
  down : w.masterFd = -1 → w.readFd = -1

theorem Lined.onlyLines (h : Lined w) : OnlyLines w := by
  refine ⟨[], [], ?_, List.nil_prefix, by decide⟩
  rw [h.lines, List.append_nil]

/-- Without a connection there is no line. -/
theorem Lined.disconnected (hnone : w.readFd = -1) : Lined w where
  lines := by
    rw [World.written_none hnone, World.connection_none hnone]
    rfl
  down := fun _ => hnone

/-- Events that neither ask nor write to the connection. -/
theorem Lined.goes (h : Lined w) (htrace : w'.trace = w.trace ++ es)
    (hreader : w'.readFd = w.readFd) (hkeys : keysIn es = [])
    (hes : w.readFd = -1 ∨ Event.opened w.readFd ∉ es ∧ writtenTo w.readFd es = [])
    (hmaster : w'.masterFd = -1 → w.masterFd = -1 ∨ w.readFd = -1) : Lined w' := by
  rcases hes with hr | ⟨hopened, hwrote⟩
  · exact .disconnected (hreader.trans hr)
  rcases Decidable.em (w.readFd = -1) with hr | hr
  · exact .disconnected (hreader.trans hr)
  have hnext := World.continues htrace hreader hr hopened
  refine ⟨?_, fun hm => ?_⟩
  · rw [hnext.written, hnext.keys, hwrote, hkeys, List.append_nil, List.append_nil]
    exact h.lines
  · rw [hreader]
    exact (hmaster hm).elim h.down id

/-- **Only lines are written** to the connection for the queries: every callback keeps this,
whatever becomes of its writes. -/
theorem watches_lined : Watches Lined OnlyLines where
  stop _ h := h.onlyLines
  down _ h := h.down
  log _ _ _ h htrace hreader _ hkeys hes hmaster :=
    h.goes htrace hreader hkeys
      (hes.imp_right fun hes => ⟨(elsewhere_quiet hes).1, (elsewhere_quiet hes).2.2⟩) hmaster
  opened _ w' _ _ _ htrace hreader _ hmaster := by
    have hconnection : w'.connection = [] := World.connection_opened htrace hreader
    refine ⟨?_, fun hm => absurd hm hmaster⟩
    unfold World.written
    rewrite [hconnection]
    rfl
  closeFd _ _ := .disconnected World.closeFd_readFd
  cut _ _ _ := .disconnected World.closeFd_readFd
  -- a line that is cut is a prefix of the one for its key
  begun _ _ pieces key h hr hpre hne htrace hreader _ := by
    have hnext := World.continues htrace hreader hr (by simp)
    refine ⟨key, pieces.flatten, ?_, hpre, hne⟩
    rw [hnext.written, hnext.keys, writtenTo_wrote, if_pos rfl, keysIn_wrote, List.append_nil,
      h.lines]
  -- a line that went out is the last one
  asked _ _ pieces place key h hr _ hline htrace hreader _ hmaster := by
    have hnext := World.continues htrace hreader hr (by simp)
    refine ⟨?_, fun hm => ?_⟩
    · rw [hnext.written, hnext.keys, keysIn_append, keysIn_wrote, writtenTo_append,
        writtenTo_wrote, if_pos rfl, hline, h.lines, List.flatMap_append]
      rfl
    · rw [hreader]
      exact h.down (hmaster.symm.trans hm)

/-- Reading replies writes nothing. -/
theorem readDelValue_lined (hr : w.readFd ≠ -1) (hopen : w.readFd ∈ w.fds) (h : Lined w) :
    Triple (· = w) (readDelValue w.readFd) (fun _ => Lined) (fun _ => OnlyLines) := by
  have hm : w.masterFd ≠ -1 := fun hm => hr (h.down hm)
  rintro v rfl
  rw [readDelValue_open hm hr hopen]
  cases v.outcomes.reads with
  | nil => exact h.onlyLines
  | cons next reads =>
    cases next with
    | error e =>
      simp only
      cases again e with
      | true => exact watches_lined.same h rfl rfl rfl rfl
      | false => exact .disconnected World.closeFd_readFd
    | ok got =>
      -- whatever the parser does, the events are the same
      refine keeps_finish (fun w' h' => Lined.onlyLines h') _ _ ?_
      exact h.goes rfl rfl rfl (Or.inr ⟨by simp, rfl⟩) Or.inl

/-- **One step** keeps it, as each callback does. -/
theorem step_lined (s : Step) :
    Triple (fun w => Lined w ∧ Settled True w) s.run (fun _ w => Lined w ∧ Settled True w)
      (fun _ => OnlyLines) := by
  have hstep := watches_lined.step s (C := fun _ => True) fun w h _ _ fired hr hopen =>
    readDelValue_lined (w := { w with outcomes := s.outcomes, fired := fired }) hr hopen
      (watches_lined.same h rfl rfl rfl rfl)
  exact hstep.pre fun w h => ⟨h, trivial⟩

/-- **Every run** keeps it. -/
theorem World.Reachable.lined (h : w.Reachable) : Lined w := by
  obtain ⟨w₀, hstart, hrun⟩ := h
  have hinit : Lined w₀ := watches_lined.starts (fun _ => .disconnected rfl) hstart
  exact (hrun.keeps (fun s => (step_lined s).pre fun _ h => h.1) ⟨hinit, Or.inr hstart.up⟩).1

/-- **What is written to `read_fd` are lines**, in every run and at every moment, and each of them
belongs to a query. -/
theorem onlyLines_of_moment {w₀ : World} (h : w₀.Reachable) {C : World → Step → Prop}
    {stop : Option Stop} (hrun : Moment Step.run C w₀ stop w) : OnlyLines w := by
  have hkeeps := hrun.keeps (fun s => (step_lined s).pre fun _ h => h.1) ⟨h.lined, h.settled⟩
  cases stop with
  | none => exact hkeeps.1.onlyLines
  | some e => exact hkeeps

end Iceberg
