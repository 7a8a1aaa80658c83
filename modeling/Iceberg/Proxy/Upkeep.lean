import Iceberg.Proxy.Relay
import Iceberg.Proxy.Sweep

/-!
# What every step keeps

Two things hold between the steps whatever has happened, resets included: outside of
`START_STATE` the proxy is connected, and `buf_master_cmd` holds bytes such as a scan carries
over.
-/

namespace Iceberg

open Triples

variable {w w' : World} {fd : Int} {s : State}

structure Kept (w : World) : Prop where
  connected : w.state = .start ∨ (w.masterFd ≠ -1 ∧ w.listenFd ≠ -1)
  carried : ∃ t, Scan.Carried t w.bufMasterCmd

/-- It depends on the state, two descriptors and the carry only. -/
theorem Kept.same (h : Kept w) (hstate : w'.state = w.state) (hmaster : w'.masterFd = w.masterFd)
    (hlisten : w'.listenFd = w.listenFd) (hbuf : w'.bufMasterCmd = w.bufMasterCmd) : Kept w' where
  connected := by
    rw [hstate, hmaster, hlisten]
    exact h.connected
  carried := by
    rw [hbuf]
    exact h.carried

/-- It stands connections and resets: `closeFd` sets the state back. -/
theorem robust_kept : Robust Kept where
  reconnects := by
    rintro w _ h hm ⟨_, _, _, ⟨_, _, _, _, _, _, -, rfl⟩, rfl⟩
    exact ⟨Or.inl (h.connected.resolve_right fun hup => hup.1 hm), h.carried⟩
  relinks := by
    rintro w _ h ⟨_, _, _, ⟨_, _, _, _, _, _, -, rfl⟩, -, rfl⟩
    exact ⟨h.connected, h.carried⟩
  leftReads := fun _ _ h => ⟨h.connected, h.carried⟩
  sent := fun _ _ _ h => ⟨h.connected, h.carried⟩
  closeFd := fun _ _ => ⟨Or.inl rfl, [], Scan.carried_nil []⟩

/-- What holds between the steps. -/
def Stands (w : World) : Prop := Fds True w ∧ Kept w

/-- Something is open only if the master is. -/
theorem Stands.up_of_mem (h : Stands w) (hin : fd ∈ w.fds) : Up True w := by
  refine h.1.1.resolve_left ?_
  rintro ⟨hidle, -⟩
  rw [hidle.fds] at hin
  exact List.not_mem_nil hin

theorem Stands.up (h : Stands w) (hstate : w.state ≠ .start) : Up True w := by
  refine h.1.1.resolve_left ?_
  rintro ⟨hidle, -⟩
  exact (h.2.connected.resolve_left hstate).2 hidle.listen

/-- It depends on the descriptors, the state and the carry only. -/
theorem Stands.same (h : Stands w) (hstate : w'.state = w.state)
    (hmaster : w'.masterFd = w.masterFd) (hclient : w'.clientFd = w.clientFd)
    (hreader : w'.readFd = w.readFd) (hlisten : w'.listenFd = w.listenFd)
    (hfds : w'.fds = w.fds) (hepoll : w'.epoll = w.epoll) (hevents : w'.events = w.events)
    (hbuf : w'.bufMasterCmd = w.bufMasterCmd) : Stands w' :=
  ⟨h.1.same hmaster hclient hreader hlisten hfds hepoll hevents (Or.inl trivial),
    h.2.same hstate hmaster hlisten hbuf⟩

/-- The proxy leaves `START_STATE` only when it is connected. -/
theorem Stands.setState (h : Stands w) (hup : Up True w) (state : State) (bulkSize : Int) :
    Stands { w with state := state, bulkSize := bulkSize } := by
  have hlisten : w.listenFd ≠ -1 := by
    have := (hup.owned _ hup.listen.isOpen).1
    omega
  exact ⟨h.1.same rfl rfl rfl rfl rfl rfl rfl (Or.inl trivial),
    Or.inr ⟨hup.masterFd_ne, hlisten⟩, h.2.carried⟩

/-! ## Reading and writing -/

/-- To connect leaves the state. -/
theorem keeps_state_connectIfNone :
    Keeps (fun w => w.state = s) (fun _ => True) connectIfNone := by
  refine (keeps_connectIfNone ?_).forget
  rintro w _ h ⟨_, _, _, ⟨_, _, _, _, _, _, -, rfl⟩, rfl⟩
  exact h

/-- A read that gets something finds its descriptor open. -/
theorem readData_some (fd : Int) (size : Nat) :
    Triple (fun w => w.state = s) (readData fd size) (fun got w => ∀ bs, got = some bs →
      w.state = s ∧ bs.length ≤ size ∧ (bs ≠ [] → fd ∈ w.fds)) (fun _ _ => True) := by
  refine Triple.bind keeps_state_connectIfNone fun _ => Triple.ite (fun _ => ?_) fun _ => ?_
  · -- no master: nothing is returned
    exact Triple.pure fun _ _ _ h => by cases h
  · refine Triple.bind (R := fun got w => w.state = s
      ∧ ∀ bs, got = .ok bs → bs.length ≤ size ∧ fd ∈ w.fds) ?_ fun got => ?_
    · intro w h
      unfold sysRead
      rw [run_get_bind]
      -- only an open descriptor gives bytes, at most as many as were asked for
      rcases Decidable.em (fd ∈ w.fds) with hin | hin
      · rw [if_neg (not_not_intro hin)]
        cases w.outcomes.reads with
        | nil => trivial
        | cons r reads =>
          cases r with
          | error e => exact ⟨h, fun _ hbs => by cases hbs⟩
          | ok got =>
            refine ⟨h, fun bs hbs => ⟨?_, hin⟩⟩
            rw [← Except.ok.inj hbs]
            exact List.length_take_le _ _
      · rw [if_pos hin]
        exact ⟨h, fun _ hbs => by cases hbs⟩
    · cases got with
      | ok got =>
        refine Triple.pure fun w h bs hbs => ?_
        obtain rfl := Option.some.inj hbs
        exact ⟨h.1, (h.2 got rfl).1, fun _ => (h.2 got rfl).2⟩
      | error e =>
        refine Triple.ite (fun _ => ?_) fun _ => ?_
        · refine Triple.pure fun w h bs hbs => ?_
          obtain rfl := Option.some.inj hbs
          exact ⟨h.1, Nat.zero_le _, fun hne => absurd rfl hne⟩
        · -- an error gives the connection up
          exact Triple.bind (R := fun _ _ => True) (Triple.modify fun _ _ => trivial) fun _ =>
            Triple.pure fun _ _ _ h => by cases h

/-- A write that gets everything through leaves the state as it is. -/
theorem writeData_all (fd : Int) (bs : Bytes) :
    Triple (fun w => w.state = s) (writeData fd bs) (fun done w => done = true → w.state = s)
      (fun _ _ => True) := by
  refine Triple.bind keeps_state_connectIfNone fun _ => Triple.ite (fun _ => ?_) fun _ => ?_
  · exact Triple.pure fun _ _ h => by cases h
  · intro w h
    rw [run_get_bind]
    rcases Decidable.em (fd ∈ w.fds) with hin | hin
    · rw [if_neg (not_not_intro hin), run_modify_bind]
      cases (sendAll w.outcomes.writes bs).2.1 with
      | all => exact fun _ => h
      | waiting => trivial
      | failed => exact fun hdone => by cases hdone
    · rw [if_pos hin]
      exact fun hdone => by cases hdone

/-- **`readData`**: where bytes come, the state is as before, and the proxy is up. -/
theorem readData_stands (fd : Int) (size : Nat) :
    Triple (fun w => Stands w ∧ w.state = s) (readData fd size) (fun got w => Stands w
      ∧ ∀ bs, got = some bs → w.state = s ∧ bs.length ≤ size ∧ (bs ≠ [] → Up True w))
      (fun _ _ => True) := by
  have hkept : Keeps Kept (fun _ => True) (readData fd size) :=
    (robust_kept.enduring.keeps_readData (fun _ _ h => ⟨h.connected, h.carried⟩) size).forget
  have hstands : Keeps Stands (fun _ => True) (readData fd size) :=
    (Triple.and (readData_fds fd size) hkept).conseq (fun _ => id) (fun _ _ => id)
      fun _ _ _ => trivial
  refine (Triple.and hstands (readData_some fd size)).conseq (fun _ => id) ?_ fun _ _ _ => trivial
  rintro got w ⟨h, hgot⟩
  refine ⟨h, fun bs hbs => ?_⟩
  obtain ⟨hstate, hlen, hin⟩ := hgot bs hbs
  exact ⟨hstate, hlen, fun hne => h.up_of_mem (hin hne)⟩

/-- **`writeData`** keeps what stands. -/
theorem keeps_writeData_stands (fd : Int) (bs : Bytes) :
    Keeps Stands (fun _ => True) (writeData fd bs) :=
  (Triple.and (writeData_fds fd bs) (robust_kept.keeps_writeData fd bs).forget).conseq
    (fun _ => id) (fun _ _ => id) fun _ _ _ => trivial

/-- Where a write succeeds, the state is as before. -/
theorem writeData_stands (fd : Int) (bs : Bytes) :
    Triple (fun w => Stands w ∧ w.state = s) (writeData fd bs)
      (fun done w => Stands w ∧ (done = true → w.state = s)) (fun _ _ => True) :=
  (Triple.and (keeps_writeData_stands fd bs) (writeData_all fd bs)).conseq (fun _ => id)
    (fun _ _ => id) fun _ _ _ => trivial

/-! ## The scan -/

/-- A query does not touch the carry. -/
theorem keeps_kept_queryKey (place : Int) (key : Key) :
    Keeps Kept (fun _ => True) (queryKey place key) := by
  refine Keeps.get fun w => Keeps.ite Keeps.pure ?_
  refine (robust_kept.keeps_writeData _ _).forget.bind fun done => Keeps.ite ?_ Keeps.pure
  exact Keeps.modify fun v h => ⟨h.connected, h.carried⟩

/-- What a scan saves may be carried. -/
theorem keeps_kept_performScan {data : WData} {index : Int} {acts : List Scan.Act}
    (h : Scan.Sweeps data index acts) (base : Int) :
    Keeps Kept (fun _ => True) (performScan base acts) := by
  induction h with
  | done => exact Keeps.pure
  | @save index buf h =>
    refine Keeps.bind (Keeps.modify fun w hw => ⟨hw.connected, ?_⟩) fun _ => Keeps.pure
    exact ⟨[] ++ data.data, h.carried (Scan.legible_self [] data.data)⟩
  | query _ _ _ _ _ _ ih => exact (keeps_kept_queryKey _ _).bind fun _ => ih

/-- **The scan** leaves a carry as it should be. -/
theorem keeps_kept_processInputBuffer {data : WData} (hread : data.data.length ≤ maxRead) :
    Keeps Kept (fun _ => True) (processInputBuffer data) := by
  intro w h
  obtain ⟨t, ht⟩ := h.carried
  have hscan := keeps_kept_performScan (ht.sweeps hread)
    ((w.seen : Int) + data.len - (mergeCarry w.bufMasterCmd data).len)
  have hrest : Keeps Kept (fun _ => True) (do
      modify fun w =>
        { w with
          bufMasterCmd := []
          seen := w.seen + data.data.length
          trace := w.trace ++ [Event.scanned data.data] }
      performScan ((w.seen : Int) + data.len - (mergeCarry w.bufMasterCmd data).len)
        (Scan.processInputBuffer w.bufMasterCmd data).1
      finish (Scan.processInputBuffer w.bufMasterCmd data).2) := by
    refine Keeps.bind (Keeps.modify fun v hv => ?_) fun _ =>
      hscan.bind fun _ => keeps_finish (fun _ _ => trivial) _
    exact ⟨hv.connected, [], Scan.carried_nil []⟩
  exact hrest w h

/-- So the scan keeps what stands. -/
theorem keeps_processInputBuffer_stands {data : WData} (hread : data.data.length ≤ maxRead) :
    Keeps Stands (fun _ => True) (processInputBuffer data) :=
  (Triple.and (keeps_processInputBuffer (fun _ _ => trivial) writeData_fds stable_fds data)
    (keeps_kept_processInputBuffer hread)).conseq (fun _ => id) (fun _ _ => id)
      fun _ _ _ => trivial

/-! ## The callbacks -/

/-- To look at a chunk sets the state only while the proxy is up. -/
theorem examine_stands {data : WData} (hread : data.data.length ≤ maxRead) :
    Triple (fun w => Stands w ∧ Up True w) (examine data) (fun _ => Stands)
      (fun _ _ => True) := by
  refine Triple.bind Triple.get fun v => Triple.ite (fun _ => ?_) fun _ => ?_
  · exact (keeps_processInputBuffer_stands hread).pre fun _ h => h.2.1
  · refine Triple.ite (fun _ => Triple.modify ?_) fun _ => Triple.pure fun _ h => h.2.1
    intro w h
    exact h.2.1.setState h.2.2 .syncStart w.bulkSize

/-- **The case for all states but the two of a transfer.** -/
theorem defaultCase_stands (fd : Int) : Keeps Stands (fun _ => True) (defaultCase fd) := by
  intro w h
  refine (Triple.bind (readData_stands (s := w.state) fd maxRead) fun got => ?_ :
    Triple _ _ _ _) w ⟨h, rfl⟩
  rcases got with _ | ⟨_ | ⟨b, bs⟩⟩
  · exact Triple.pure fun _ h => h.1
  · exact Triple.pure fun _ h => h.1
  · refine Triple.bind Triple.get fun v => ?_
    intro u ⟨_, hu, hgot⟩
    obtain ⟨-, hread, hup⟩ := hgot _ rfl
    refine (Triple.bind (examine_stands hread) fun _ => Triple.bind Triple.get fun v =>
      Triple.pre (keeps_writeData_stands _ _).discard fun _ h => h.2) u ⟨hu, hup (by simp)⟩

/-- **The loop over the header**: where a line comes, the state is as before. Induction on the
rounds. -/
theorem syncHeader_stands (fd : Int) (fuel : Nat) (line : Bytes) :
    Triple (fun w => Stands w ∧ w.state = s) (syncHeader fd fuel line)
      (fun got w => Stands w ∧ (got ≠ none → w.state = s)) (fun _ _ => True) := by
  induction fuel generalizing line with
  | zero => exact Triple.throw fun _ _ => trivial
  | succ fuel ih =>
    refine Triple.bind (readData_stands fd 1) fun got => ?_
    rcases got with _ | ⟨_ | ⟨b, bs⟩⟩
    · exact Triple.pure fun _ h => ⟨h.1, fun hne => absurd rfl hne⟩
    · exact (ih line).pre fun _ h => ⟨h.1, (h.2 _ rfl).1⟩
    · refine Triple.ite (fun _ => Triple.throw fun _ _ => trivial) fun _ => ?_
      refine Triple.bind Triple.get fun v => Triple.bind
        ((writeData_stands v.clientFd [b]).pre fun _ h => ⟨h.2.1, (h.2.2 _ rfl).1⟩) fun done => ?_
      refine Triple.ite (fun hdone => Triple.ite (fun _ => ?_) fun _ => ?_) fun _ => ?_
      · refine Triple.ite (fun _ => ?_) fun _ => ?_
        · exact Triple.pure fun _ h => ⟨h.1, fun _ => h.2 hdone⟩
        · exact (ih line).pre fun _ h => ⟨h.1, h.2 hdone⟩
      · exact (ih _).pre fun _ h => ⟨h.1, h.2 hdone⟩
      · exact Triple.pure fun _ h => ⟨h.1, fun hne => absurd rfl hne⟩

/-- **The case for the header** goes on to the payload while the proxy is up. -/
theorem syncStartCase_stands (fd : Int) :
    Triple (fun w => Stands w ∧ w.state = .syncStart) (syncStartCase fd) (fun _ => Stands)
      (fun _ _ => True) := by
  refine Triple.bind Triple.get fun v => Triple.bind
    ((syncHeader_stands fd _ []).pre fun _ h => h.2) fun line => ?_
  cases line with
  | none => exact Triple.pure fun _ h => h.1
  | some line =>
    refine Triple.ite (fun _ => Triple.throw fun _ _ => trivial) fun _ => Triple.modify ?_
    intro w ⟨h, hstate⟩
    have hne : w.state ≠ .start := by
      rw [hstate (Option.some_ne_none line)]
      decide
    exact h.setState (h.up hne) .sync _

/-- **The loop over the payload** goes on to `RUNNING_STATE` while the proxy is up. Induction on
the rounds. -/
theorem syncPayload_stands (fd : Int) (fuel : Nat) :
    Triple (fun w => Stands w ∧ w.state = .sync) (syncPayload fd fuel) (fun _ => Stands)
      (fun _ _ => True) := by
  -- a transfer is only under way while the connections stand
  have hup : ∀ w, Stands w ∧ w.state = .sync → Up True w := by
    intro w h
    apply h.1.up
    rw [h.2]
    decide
  induction fuel with
  | zero => exact Triple.throw fun _ _ => trivial
  | succ fuel ih =>
    refine Triple.bind Triple.get fun v => Triple.ite (fun _ => Triple.modify ?_) fun _ => ?_
    · intro w h
      exact h.2.1.setState (hup w h.2) .running w.bulkSize
    · refine Triple.bind ((readData_stands fd _).pre fun _ h => h.2) fun got => ?_
      rcases got with _ | ⟨_ | ⟨b, bs⟩⟩
      · exact Triple.pure fun _ h => h.1
      · -- an empty read
        exact ih.pre fun _ h => ⟨h.1, (h.2 _ rfl).1⟩
      · refine Triple.ite (fun _ => Triple.throw fun _ _ => trivial) fun _ => ?_
        refine Triple.bind Triple.get fun v => Triple.bind
          ((writeData_stands v.clientFd (b :: bs)).pre fun _ h => ⟨h.2.1, (h.2.2 _ rfl).1⟩)
            fun done => ?_
        refine Triple.ite (fun hdone => ?_) fun _ => Triple.pure fun _ h => h.1
        refine Triple.bind (R := fun _ w => Stands w ∧ w.state = .sync)
          (Triple.modify fun w h => ?_) fun _ => ih
        exact ⟨h.1.same rfl rfl rfl rfl rfl rfl rfl rfl rfl, h.2 hdone⟩

/-- **A read of the master**, with one case for each state. -/
theorem readFromMaster_stands (fd : Int) :
    Keeps Stands (fun _ => True) (readFromMaster fd) := by
  intro w h
  unfold readFromMaster
  rw [run_get_bind]
  cases hstate : w.state with
  | syncStart => exact syncStartCase_stands fd w ⟨h, hstate⟩
  | sync =>
    exact (Triple.bind Triple.get fun v => (syncPayload_stands fd _).pre fun _ h => h.2 :
      Triple _ (syncCase fd) _ _) w ⟨h, hstate⟩
  | start => exact defaultCase_stands fd w h
  | running => exact defaultCase_stands fd w h

/-- **A read of the slave** sets the state only while the proxy is up. -/
theorem readFromSlave_stands (fd : Int) : Keeps Stands (fun _ => True) (readFromSlave fd) := by
  intro w h
  refine (Triple.bind (readData_stands (s := w.state) fd maxRead) fun got => ?_ :
    Triple _ _ _ _) w ⟨h, rfl⟩
  rcases got with _ | ⟨_ | ⟨b, bs⟩⟩
  · exact Triple.pure fun _ h => h.1
  · exact Triple.pure fun _ h => h.1
  · refine Triple.bind (R := fun _ => Stands) ?_ fun _ => Triple.bind Triple.get fun v =>
      Triple.pre (keeps_writeData_stands _ _).discard fun _ h => h.2
    refine Triple.ite (fun _ => Triple.modify ?_) fun _ => Triple.pure fun _ h => h.1
    intro u ⟨hu, hgot⟩
    exact hu.setState ((hgot _ rfl).2.2 (by simp)) .syncStart u.bulkSize

/-- **A read of replies** leaves the state. -/
theorem readDelValue_stands (fd : Int) : Keeps Stands (fun _ => True) (readDelValue fd) := by
  intro w h
  refine (Triple.bind (readData_stands (s := w.state) fd maxRead) fun got => ?_ :
    Triple _ _ _ _) w ⟨h, rfl⟩
  rcases got with _ | ⟨_ | ⟨b, bs⟩⟩
  · exact Triple.pure fun _ h => h.1
  · exact Triple.pure fun _ h => h.1
  · refine Triple.bind Triple.get fun v => Triple.bind (R := fun _ => Stands)
      (Triple.modify fun u h => ?_) fun _ => keeps_finish (fun _ _ => trivial) _
    exact h.2.1.same rfl rfl rfl rfl rfl rfl rfl rfl rfl

/-- **Every callback** keeps what stands. -/
theorem callback_stands (handler : Handler) :
    Triple (fun w => Stands w ∧ w.events fd = some handler) (callback handler fd)
      (fun _ => Stands) (fun _ _ => True) := by
  cases handler with
  | readFromMaster => exact (readFromMaster_stands fd).pre fun _ h => h.1
  | readFromSlave => exact (readFromSlave_stands fd).pre fun _ h => h.1
  | readDelValue => exact (readDelValue_stands fd).pre fun _ h => h.1
  | acceptTcpHandler =>
    refine Triple.of_ok fun w a w' ⟨h, hentry⟩ hrun => ?_
    obtain rfl : a = ⟨⟩ := rfl
    exact ⟨callback_fds h.1 hentry (fun _ => Or.inl trivial) hrun,
      robust_kept.keeps_acceptTcpHandler.ok h.2 hrun⟩

/-! ## The steps -/

/-- **One step** keeps what stands. -/
theorem step_stands (s : Step) :
    Triple (fun w => Settled True w ∧ Kept w) s.run (fun _ w => Settled True w ∧ Kept w)
      (fun _ _ => True) := by
  intro w ⟨hset, hkept⟩
  have hfds : Fds True { w with outcomes := s.outcomes } := hset.fds (Or.inl trivial)
  have hstands : ∀ fired, Stands { w with outcomes := s.outcomes, fired := fired } := fun _ =>
    ⟨hfds.same rfl rfl rfl rfl rfl rfl rfl (Or.inl trivial), hkept.same rfl rfl rfl rfl⟩
  have hstep : Triple (· = w) s.run (fun _ => Stands) (fun _ _ => True) := by
    rintro v rfl
    rcases s.run_cases v with ⟨fired, heq⟩ | ⟨fd, fired, handler, -, hentry, heq⟩ | heq
    · rw [heq]
      exact hstands fired
    · rw [heq]
      exact callback_stands handler _ ⟨hstands fired, hentry⟩
    · rw [heq]
      have hcount : ∀ v n, Kept v → Kept { v with cronloops := n } := fun _ _ h =>
        h.same rfl rfl rfl rfl
      exact (Triple.and timeEvent_fds (robust_kept.enduring.keeps_timeEvent hcount).forget).conseq
        (fun _ => id) (fun _ _ => id) (fun _ _ _ => trivial) _ ⟨hfds, hkept.same rfl rfl rfl rfl⟩
  exact hstep.post (fun _ _ h => ⟨h.1.1, h.2⟩) w rfl

/-- It holds when `main` goes into its loop. -/
theorem World.Starts.kept (h : w.Starts) : Kept w := by
  obtain ⟨o, hrun⟩ := h
  have hinit : Kept { World.init with outcomes := o } :=
    ⟨Or.inl rfl, [], Scan.carried_nil []⟩
  exact (robust_kept.enduring.keeps_connectToMaster rfl).ok ⟨rfl, hinit⟩ hrun

/-- **Every run** keeps it. -/
theorem World.Reachable.kept (h : w.Reachable) : Settled True w ∧ Kept w := by
  obtain ⟨w₀, hstart, hrun⟩ := h
  exact hrun.keeps (fun s => (step_stands s).pre fun _ h => h.1) ⟨Or.inr hstart.up, hstart.kept⟩

/-- **Outside of `START_STATE` the proxy is connected.** -/
theorem Settled.up_of_state (h : Settled True w) (hkept : Kept w) (hstate : w.state ≠ .start) :
    Up True w := by
  have hstands : Stands { w with outcomes := .none } :=
    ⟨h.fds (Or.inl trivial), hkept.same rfl rfl rfl rfl⟩
  exact (hstands.up hstate).same rfl rfl rfl rfl rfl rfl rfl

end Iceberg
