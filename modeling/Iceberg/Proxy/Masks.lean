import Iceberg.Proxy.IoLemmas

/-!
# Masks of descriptors that are open

The event loop keeps a mask for every descriptor that is registered. `closeFd` deletes it before
it closes the descriptor, and a registration that fails leaves none, so the only place at which
a descriptor is closed while its mask stays is the head of `acceptTcpHandler`, when there is a
slave already.
-/

namespace Iceberg

open Triples

variable {w : World} {fd : Int}

/-- A descriptor that has a mask is open, and no descriptor has been closed while it had one. -/
structure MasksOpen (w : World) : Prop where
  opened : ∀ fd, w.events fd ≠ none → fd ∈ w.fds ∧ fd < 1024
  closed : ∀ fd, Event.closed fd true ∉ w.trace

/-- The other fields play no part in it, and other entries of the trace neither. -/
theorem MasksOpen.log {w' : World} (h : MasksOpen w) (es : List Event) (hfds : w'.fds = w.fds)
    (hevents : w'.events = w.events) (htrace : w'.trace = w.trace ++ es)
    (hes : ∀ fd, Event.closed fd true ∉ es) : MasksOpen w' where
  opened := by
    rw [hfds, hevents]
    exact h.opened
  closed := by
    intro fd hmem
    rw [htrace] at hmem
    exact (List.mem_append.mp hmem).elim (h.closed fd) (hes fd)

theorem MasksOpen.same {w' : World} (h : MasksOpen w) (hfds : w'.fds = w.fds)
    (hevents : w'.events = w.events) (htrace : w'.trace = w.trace) : MasksOpen w' :=
  h.log [] hfds hevents (by rw [htrace, List.append_nil]) fun _ => List.not_mem_nil

/-- A descriptor without a mask can be closed. -/
theorem MasksOpen.close (h : MasksOpen w) (hnone : w.events fd = none) :
    MasksOpen (w.close fd) where
  opened := by
    intro x hx
    have hne : x ≠ fd := by
      rintro rfl
      exact hx hnone
    obtain ⟨hin, hsmall⟩ := h.opened x hx
    exact ⟨List.mem_filter.mpr ⟨hin, decide_eq_true hne⟩, hsmall⟩
  closed := by
    intro x hmem
    rcases List.mem_append.mp hmem with hold | hnew
    · exact h.closed x hold
    · -- the mask that is recorded is the one of the table
      rw [List.mem_singleton, hnone] at hnew
      cases hnew

/-- `aeDeleteFileEvent` deletes every mask there can be. -/
theorem MasksOpen.aeDeleteFileEvent (h : MasksOpen w) (fd : Int) :
    MasksOpen (w.aeDeleteFileEvent fd) ∧ (w.aeDeleteFileEvent fd).events fd = none := by
  unfold World.aeDeleteFileEvent
  split
  · rename_i hskip
    refine ⟨h, ?_⟩
    rcases hskip with hlarge | hnone
    · -- a number behind the table was never registered
      by_contra hmask
      have := (h.opened fd hmask).2
      omega
    · exact hnone
  · refine ⟨⟨fun x hx => ?_, h.closed⟩, Function.update_self ..⟩
    rcases Decidable.em (x = fd) with rfl | hne
    · exact absurd (Function.update_self ..) hx
    · refine h.opened x fun hnone => hx ?_
      show Function.update w.events fd none x = none
      rw [Function.update_of_ne hne]
      exact hnone

/-- To shut a descriptor takes its mask away first, since its number is below that of the
table. -/
theorem MasksOpen.shut (h : MasksOpen w) (fd : Int) : MasksOpen (w.shut fd) := by
  obtain ⟨hdeleted, hnone⟩ := h.aeDeleteFileEvent fd
  unfold World.shut
  split
  · exact hdeleted.close hnone
  · exact h

theorem MasksOpen.globals (h : MasksOpen w) (masterFd clientFd readFd listenFd : Int) :
    MasksOpen { w with
      masterFd := masterFd, clientFd := clientFd, readFd := readFd, listenFd := listenFd } :=
  h.same rfl rfl rfl

/-- **`closeFd` closes no descriptor that still has a mask.** -/
theorem MasksOpen.closeFd (h : MasksOpen w) : MasksOpen w.closeFd := by
  have hreset : MasksOpen { w with trace := w.trace ++ [Event.reset] } :=
    h.log [.reset] rfl rfl rfl (by simp)
  have hclient : ∀ v, MasksOpen v → MasksOpen { v.shut v.clientFd with clientFd := -1 } :=
    fun v h => (h.shut _).globals ..
  have hreader : ∀ v, MasksOpen v → MasksOpen { v.shut v.readFd with readFd := -1 } :=
    fun v h => (h.shut _).globals ..
  have hmaster : ∀ v, MasksOpen v → MasksOpen { v.shut v.masterFd with masterFd := -1 } :=
    fun v h => (h.shut _).globals ..
  have hlisten : ∀ v, MasksOpen v → MasksOpen { v.shut v.listenFd with listenFd := -1 } :=
    fun v h => (h.shut _).globals ..
  exact (hlisten _ (hmaster _ (hreader _ (hclient _ hreset)))).same rfl rfl rfl

/-! ## Opening and registering -/

/-- The descriptor was just opened: it has no mask yet. -/
def Fresh (fd : Int) (w : World) : Prop := MasksOpen w ∧ fd ∈ w.fds ∧ w.events fd = none

/-- **A new descriptor** has no mask, as no closed one has kept its mask. -/
theorem openFd_masks (kind : Handler) :
    Triple MasksOpen (openFd kind) (fun fd w => MasksOpen w ∧ (fd ≠ -1 → Fresh fd w))
      (fun _ => MasksOpen) := by
  intro w h
  cases hrun : openFd kind w with
  | error e w' =>
    obtain rfl := openFd_stop hrun
    exact h
  | ok fd w' =>
    obtain ⟨opens, -, ⟨rfl, rfl⟩ | ⟨-, hfresh, -, rfl⟩⟩ := openFd_cases hrun
    · exact ⟨h.same rfl rfl rfl, fun hne => absurd rfl hne⟩
    · have hopened : MasksOpen ((w.leftOpens kind opens).opened fd) := by
        refine ⟨fun x hx => ?_, fun x hmem => ?_⟩
        · exact (h.opened x hx).imp_left (List.mem_cons_of_mem _)
        · rcases List.mem_append.mp hmem with hold | hnew
          · exact h.closed x hold
          · rw [List.mem_singleton] at hnew
            cases hnew
      refine ⟨hopened, fun _ => ⟨hopened, List.mem_cons_self, ?_⟩⟩
      -- what has a mask is open, and this number was not in use
      by_contra hmask
      exact hfresh (h.opened fd hmask).1

/-- Registering an open descriptor. When it fails, no mask is set. -/
theorem aeCreateFileEvent_masks (fd : Int) (proc : Handler) :
    Triple (Fresh fd) (aeCreateFileEvent fd proc)
      (fun done w => MasksOpen w ∧ (done = false → w.events fd = none)) (fun _ => MasksOpen) := by
  rintro w ⟨h, hin, hnone⟩
  cases hrun : aeCreateFileEvent fd proc w with
  | error e w' =>
    obtain rfl := aeCreateFileEvent_stop hrun
    exact h
  | ok done w' =>
    obtain ⟨ctls, -, ⟨rfl, hsmall, rfl⟩ | ⟨-, rfl, -⟩ | ⟨-, rfl, -⟩⟩ := aeCreateFileEvent_cases hrun
    · refine ⟨⟨fun x hx => ?_, h.closed⟩, fun hfailed => Bool.noConfusion hfailed⟩
      rcases Decidable.em (x = fd) with rfl | hne
      · exact ⟨hin, hsmall⟩
      · have hx : Function.update w.events fd (some proc) x ≠ none := hx
        rw [Function.update_of_ne hne] at hx
        exact h.opened x hx
    · exact ⟨h.same rfl rfl rfl, fun _ => hnone⟩
    · exact ⟨h, fun _ => hnone⟩

theorem Fresh.globals (h : Fresh fd w) (masterFd clientFd readFd listenFd : Int) :
    Fresh fd { w with
      masterFd := masterFd, clientFd := clientFd, readFd := readFd, listenFd := listenFd } :=
  ⟨h.1.globals .., h.2⟩

/-- **`closeFd`** takes each mask away before it closes the descriptor. -/
theorem keeps_masks_closeFd :
    Keeps MasksOpen MasksOpen (modify World.closeFd : Proxy Unit) :=
  Keeps.modify fun _ h => h.closeFd

/-- `listenToPort` registers what it has opened. -/
theorem listenToPort_masks : Keeps MasksOpen MasksOpen listenToPort := by
  refine Triple.bind (openFd_masks _) fun fd => ?_
  refine Triple.bind (R := fun _ w => MasksOpen w ∧ (fd ≠ -1 → Fresh fd w))
    (Triple.modify fun w h => ⟨h.1.globals .., fun hne => (h.2 hne).globals ..⟩) fun _ => ?_
  refine Triple.ite (fun hne => ?_) fun _ => Triple.pure fun _ h => h.1
  refine Triple.bind ((aeCreateFileEvent_masks fd _).pre fun w h => h.2 hne) fun done => ?_
  refine Triple.ite (fun _ => Triple.pure fun _ h => h.1) fun hdone => ?_
  refine Triple.bind (R := fun _ => MasksOpen) (Triple.modify fun w h => ?_) fun _ => Keeps.pure
  exact h.1.close (h.2 (Bool.eq_false_iff.mpr hdone))

/-- `connectToMaster` registers what it has opened, and closes what it could not register. -/
theorem connectToMaster_masks : Keeps MasksOpen MasksOpen connectToMaster := by
  refine Triple.bind (openFd_masks _) fun fd => ?_
  refine Triple.bind (R := fun _ w => MasksOpen w ∧ (fd ≠ -1 → Fresh fd w))
    (Triple.modify fun w h => ⟨h.1.globals .., fun hne => (h.2 hne).globals ..⟩) fun _ => ?_
  refine Triple.ite (fun hne => ?_) fun _ => Triple.pure fun _ h => h.1
  refine Triple.bind ((aeCreateFileEvent_masks fd _).pre fun w h => h.2 hne) fun done => ?_
  refine Triple.ite (fun _ => ?_) fun hdone => ?_
  · refine Triple.pre (P := MasksOpen) (Triple.bind listenToPort_masks fun listening => ?_)
      fun _ h => h.1
    exact Keeps.ite Keeps.pure (Keeps.throw fun _ h => h)
  · refine Triple.bind (R := fun _ => MasksOpen) (Triple.modify fun w h => ?_) fun _ => Keeps.pure
    exact h.1.close (h.2 (Bool.eq_false_iff.mpr hdone))

/-! ## The callbacks -/

theorem connectIfNone_masks : Keeps MasksOpen MasksOpen connectIfNone :=
  Keeps.get fun _ => Keeps.ite connectToMaster_masks.discard Keeps.pure

/-- `readData` closes all descriptors or none. -/
theorem readData_masks (fd : Int) (size : Nat) : Keeps MasksOpen MasksOpen (readData fd size) := by
  refine connectIfNone_masks.bind fun _ => Keeps.ite Keeps.pure (Keeps.bind ?_ fun got => ?_)
  · intro w h
    unfold sysRead
    rw [run_get_bind]
    rcases Decidable.em (fd ∈ w.fds) with hin | hin
    · rw [if_neg (not_not_intro hin)]
      cases w.outcomes.reads with
      | nil => exact h
      | cons r reads =>
        cases r with
        | error e => exact h.same rfl rfl rfl
        | ok b => exact h.log _ rfl rfl rfl (by simp)
    · rw [if_pos hin]
      exact h
  · cases got with
    | ok bs => exact Keeps.pure
    | error e => exact Keeps.ite Keeps.pure (keeps_masks_closeFd.bind fun _ => Keeps.pure)

/-- `writeData` closes all descriptors or none. -/
theorem writeData_masks (fd : Int) (bs : Bytes) : Keeps MasksOpen MasksOpen (writeData fd bs) := by
  refine connectIfNone_masks.bind fun _ => Keeps.ite Keeps.pure (Keeps.get fun w => ?_)
  refine Keeps.ite (keeps_masks_closeFd.bind fun _ => Keeps.pure) (Keeps.bind ?_ fun _ => ?_)
  · exact Keeps.modify fun v h => h.log _ rfl rfl rfl (by simp)
  · cases (sendAll w.outcomes.writes bs).2.1 with
    | all => exact Keeps.pure
    | waiting => exact Keeps.throw fun _ h => h
    | failed => exact keeps_masks_closeFd.bind fun _ => Keeps.pure

theorem settable_masks : Settable MasksOpen := fun _ _ _ _ _ _ h => h.same rfl rfl rfl

/-- A scan has nothing to do with the masks. -/
theorem scannable_masks : Scannable MasksOpen := by
  intro w buf answers asked es hes h
  refine h.log es rfl rfl rfl fun fd hmem => ?_
  rcases hes with rfl | ⟨place, key, rfl⟩
  · exact List.not_mem_nil hmem
  · rw [List.mem_singleton] at hmem
    cases hmem

/-- A scan writes, and nothing else. -/
theorem processInputBuffer_masks (data : WData) :
    Keeps MasksOpen MasksOpen (processInputBuffer data) := by
  refine keeps_scan (fun _ h => h) (keeps_queryKey writeData_masks scannable_masks)
    (fun w buf h => h.same rfl rfl rfl) data fun w h => ?_
  exact h.log [.scanned data.data] rfl rfl rfl (by simp)

/-- `readDataFromSlave`, called with a descriptor that was just opened, registers it. -/
theorem readDataFromSlave_masks (fd : Int) :
    Triple (fun w => fd ≠ -1 → Fresh fd w) (readDataFromSlave fd)
      (fun _ w => fd ≠ -1 → MasksOpen w) (fun _ => MasksOpen) := by
  refine Triple.ite (fun hne => ?_) fun hnone => Triple.pure fun _ _ hne => absurd hne hnone
  refine Triple.pre (P := Fresh fd) ?_ fun _ h => h hne
  refine Triple.post (Q := fun _ => MasksOpen) ?_ fun _ _ h _ => h
  refine Triple.bind (aeCreateFileEvent_masks fd _) fun done => ?_
  refine Triple.pre (P := MasksOpen) ?_ fun _ h => h.1
  refine Keeps.ite (Keeps.get fun w => Keeps.ite ?_ Keeps.pure) keeps_masks_closeFd
  refine Triple.bind (openFd_masks _) fun readFd => ?_
  refine Triple.bind (R := fun _ w => MasksOpen w ∧ (readFd ≠ -1 → Fresh readFd w))
    (Triple.modify fun w h => ⟨h.1.globals .., fun hne => (h.2 hne).globals ..⟩) fun _ => ?_
  refine Triple.ite (fun _ => keeps_masks_closeFd.pre fun _ h => h.1) fun hread => ?_
  refine Triple.bind ((aeCreateFileEvent_masks readFd _).pre fun w h => h.2 hread) fun done => ?_
  exact Triple.pre (Keeps.ite Keeps.pure keeps_masks_closeFd) fun _ h => h.1

/-- Accepting when there is no slave. -/
theorem acceptTcpHandler_masks :
    Triple (fun w => MasksOpen w ∧ w.clientFd = -1) acceptTcpHandler (fun _ => MasksOpen)
      (fun _ => MasksOpen) := by
  rintro w ⟨h, hnone⟩
  have hslave : Keeps MasksOpen MasksOpen (do
      let fd ← openFd .readFromSlave
      if fd = -1 then throw .crash
      else
        modify fun w => { w with clientFd := fd }
        readDataFromSlave fd) := by
    refine Triple.bind (openFd_masks _) fun fd => Triple.ite (fun _ => Triple.throw fun _ h => h.1)
      fun hne => ?_
    refine Triple.bind (R := fun _ w => fd ≠ -1 → Fresh fd w)
      (Triple.modify fun w h hne => (h.2 hne).globals ..) fun _ => ?_
    exact (readDataFromSlave_masks fd).post fun _ _ h => h hne
  unfold acceptTcpHandler
  rw [run_get_bind]
  rcases Decidable.em (w.masterFd = -1) with hm | hm
  · rw [if_neg (not_not_intro hm)]
    exact h
  · -- there is nothing to close
    rw [if_pos hm, if_neg (not_not_intro hnone)]
    exact hslave w h

/-- **A callback closes no descriptor that has a mask**, when it accepts no second slave. -/
theorem callback_masks {handler : Handler} (fd : Int) :
    Triple (fun w => MasksOpen w ∧ (handler = .acceptTcpHandler → w.clientFd = -1))
      (callback handler fd) (fun _ => MasksOpen) (fun _ => MasksOpen) := by
  have hJ : ∀ w, MasksOpen w → MasksOpen w := fun _ h => h
  cases handler with
  | readFromMaster =>
    exact Triple.pre (keeps_readFromMaster hJ (.of_keeps writeData_masks _) (readData_masks fd)
      settable_masks.stateless processInputBuffer_masks) fun _ h => h.1
  | readFromSlave =>
    exact Triple.pre (keeps_readFromSlave (readData_masks fd) (.of_keeps writeData_masks _)
      settable_masks.stateless) fun _ h => h.1
  | readDelValue =>
    exact Triple.pre (keeps_readDelValue hJ (readData_masks fd) settable_masks) fun _ h => h.1
  | acceptTcpHandler => exact acceptTcpHandler_masks.pre fun _ h => ⟨h.1, h.2 rfl⟩

theorem timeEvent_masks : Keeps MasksOpen MasksOpen timeEvent :=
  Keeps.get fun _ => Keeps.ite (connectToMaster_masks.discard.bind fun _ =>
    Keeps.modify fun _ h => h.same rfl rfl rfl) (Keeps.modify fun _ h => h.same rfl rfl rfl)

theorem masksOpen_init (o : Outcomes) : MasksOpen { World.init with outcomes := o } :=
  ⟨fun _ h => absurd rfl h, fun _ => List.not_mem_nil⟩

theorem World.Starts.masksOpen (h : w.Starts) : MasksOpen w := by
  obtain ⟨o, hrun⟩ := h
  exact connectToMaster_masks.ok (masksOpen_init o) hrun

/-- A step keeps the masks, whatever comes out of its system calls. -/
theorem step_masks (s : Step) :
    Triple (fun w => MasksOpen w ∧ (s.Calls w .acceptTcpHandler → w.clientFd = -1)) s.run
      (fun _ => MasksOpen) (fun _ => MasksOpen) := by
  rintro w ⟨h, hnone⟩
  rcases s.run_cases w with ⟨fired, heq⟩ | ⟨fd, fired, handler, hcalls, -, heq⟩ | heq
  · rw [heq]
    exact h.same rfl rfl rfl
  · rw [heq]
    refine callback_masks fd _ ⟨h.same rfl rfl rfl, fun haccept => ?_⟩
    subst haccept
    exact hnone hcalls
  · rw [heq]
    exact timeEvent_masks _ (h.same rfl rfl rfl)

end Iceberg
