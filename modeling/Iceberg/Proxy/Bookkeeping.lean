import Iceberg.Proxy.Descriptors
import Iceberg.Proxy.Masks

/-!
# Bookkeeping over whole runs

Every step of the event loop keeps `Fds`: with `True` whatever happens, and with `False` as
long as no master fails to be registered and no second slave leaves its entry behind. In the
second case the four globals and the table of the event loop always agree.
-/

namespace Iceberg

open Triples

variable {L : Prop} {w : World} {fd : Int}

/-! ## Accepting a slave -/

/-- Up, but for one kind of descriptor, which may not be registered. -/
structure UpBut (L : Prop) (skip : Handler) (w : World) : Prop where
  master : Registered w w.masterFd .readFromMaster
  listen : Registered w w.listenFd .acceptTcpHandler
  client : skip = .readFromSlave ∨ w.clientFd = -1 ∨ Registered w w.clientFd .readFromSlave
  reader : skip = .readDelValue ∨ w.readFd = -1 ∨ Registered w w.readFd .readDelValue
  owned : Owned w
  watched : Watched w
  entered : Entered L w

theorem UpBut.closable {skip : Handler} (h : UpBut L skip w) : Closable L w :=
  ⟨h.owned, h.watched, h.entered⟩

/-- Registering the accepted slave. -/
theorem UpBut.client_registered (h : UpBut L .readFromSlave w) (hopen : w.clientFd ∈ w.fds)
    (hsmall : w.clientFd < 1024) (hmaster : w.masterFd ≠ w.clientFd)
    (hlisten : w.listenFd ≠ w.clientFd) (hreader : w.readFd ≠ w.clientFd) :
    Up L (w.registered w.clientFd .readFromSlave) where
  master := h.master.keep hmaster
  listen := h.listen.keep hlisten
  client := Or.inr (registered_self hopen hsmall)
  reader := (h.reader.resolve_left Handler.noConfusion).imp_right fun hr => hr.keep hreader
  owned := h.owned
  watched := h.watched.registered .readFromSlave hopen
  entered := h.entered.registered .readFromSlave hopen hsmall

/-- Registering the connection for the queries. -/
theorem UpBut.reader_registered (h : UpBut L .readDelValue w) (hopen : w.readFd ∈ w.fds)
    (hsmall : w.readFd < 1024) (hmaster : w.masterFd ≠ w.readFd)
    (hlisten : w.listenFd ≠ w.readFd) (hclient : w.clientFd ≠ w.readFd) :
    Up L (w.registered w.readFd .readDelValue) where
  master := h.master.keep hmaster
  listen := h.listen.keep hlisten
  client := (h.client.resolve_left Handler.noConfusion).imp_right fun hc => hc.keep hclient
  reader := Or.inr (registered_self hopen hsmall)
  owned := h.owned
  watched := h.watched.registered .readDelValue hopen
  entered := h.entered.registered .readDelValue hopen hsmall

/-- The connection for the queries is opened and registered. -/
theorem openQueries_fds (hup : Up L w) (hsound : Sound L w.outcomes) (hnone : w.readFd = -1)
    {w' : World}
    (hrun : (do
      let readFd ← openFd .readDelValue
      modify fun w => { w with readFd := readFd }
      if readFd = -1 then modify World.closeFd
      else if ← aeCreateFileEvent readFd .readDelValue then pure ()
      else modify World.closeFd : Proxy Unit) w = .ok ⟨⟩ w') : Fds L w' := by
  cases hopen : openFd .readDelValue w with
  -- the run stops while the descriptor is opened
  | error e v =>
    rw [run_bind_error hopen] at hrun
    cases hrun
  | ok fd v =>
    rw [run_bind_ok hopen, run_modify_bind] at hrun
    obtain ⟨opens, hsub, ⟨rfl, rfl⟩ | ⟨hnn, hfresh, -, rfl⟩⟩ := openFd_cases hopen
    · -- no descriptor: everything is closed
      rw [if_pos rfl] at hrun
      obtain ⟨-, rfl⟩ := EStateM.Result.ok.inj hrun
      have hsame : Up L { w.leftOpens .readDelValue opens with readFd := -1 } :=
        hup.same rfl rfl hnone.symm rfl rfl rfl rfl
      exact hsame.closable.fds (sound_leftOpens hsound hsub)
    rw [if_neg (by omega)] at hrun
    have hopened := sound_leftOpens hsound hsub
    -- a new number is none that is registered
    have hother : ∀ {x : Int} {proc : Handler}, Registered w x proc → x ≠ fd := by
      rintro x proc hx rfl
      exact hfresh hx.isOpen
    -- the new descriptor is there, and may have an entry that was left behind
    have hbut : UpBut L .readDelValue
        { (w.leftOpens .readDelValue opens).opened fd with readFd := fd } :=
      { master := ⟨List.mem_cons_of_mem _ hup.master.isOpen, hup.master.watched,
          hup.master.entry, hup.master.small⟩
        listen := ⟨List.mem_cons_of_mem _ hup.listen.isOpen, hup.listen.watched,
          hup.listen.entry, hup.listen.small⟩
        client := Or.inr (hup.client.imp_right fun hc =>
          ⟨List.mem_cons_of_mem _ hc.isOpen, hc.watched, hc.entry, hc.small⟩)
        reader := Or.inl rfl
        owned := by
          intro x hx
          rcases List.mem_cons.mp hx with rfl | hx
          · exact ⟨hnn, Or.inr (Or.inr (Or.inl rfl))⟩
          · obtain ⟨hnn, howner⟩ := hup.owned x hx
            refine ⟨hnn, ?_⟩
            show x = w.masterFd ∨ x = w.clientFd ∨ x = fd ∨ x = w.listenFd
            omega
        watched := hup.watched.opened
        entered := hup.entered.opened }
    cases hctl : aeCreateFileEvent fd .readDelValue
        { (w.leftOpens .readDelValue opens).opened fd with readFd := fd } with
    | error e u =>
      rw [run_bind_error hctl] at hrun
      cases hrun
    | ok registered u =>
      rw [run_bind_ok hctl] at hrun
      obtain ⟨ctls, hctlsub, ⟨rfl, hsmall, rfl⟩ | ⟨rfl, rfl, -⟩ | ⟨rfl, rfl, -⟩⟩ :=
        aeCreateFileEvent_cases hctl
      · -- registered: all connections are as they should be
        obtain ⟨-, rfl⟩ := EStateM.Result.ok.inj hrun
        have hclient : w.clientFd ≠ fd := by
          rcases hup.client with hc | hc
          · omega
          · exact hother hc
        have hup' := hbut.reader_registered (List.mem_cons_self) hsmall (hother hup.master)
          (hother hup.listen) hclient
        exact ⟨Or.inr (hup'.same rfl rfl rfl rfl rfl rfl rfl),
          sound_leftCtls (w := { (w.leftOpens .readDelValue opens).opened fd with readFd := fd })
            hopened hctlsub⟩
      · obtain ⟨-, rfl⟩ := EStateM.Result.ok.inj hrun
        -- `epoll_ctl` failed, or the number is too large: everything is closed
        have hctls := sound_leftCtls
          (w := { (w.leftOpens .readDelValue opens).opened fd with readFd := fd }) hopened hctlsub
        have hc : Closable L (({ (w.leftOpens .readDelValue opens).opened fd with
            readFd := fd } : World).leftCtls .readDelValue ctls) :=
          ⟨hbut.owned, hbut.watched, hbut.entered⟩
        exact hc.fds hctls
      · obtain ⟨-, rfl⟩ := EStateM.Result.ok.inj hrun
        exact hbut.closable.fds hopened

/-- `readDataFromSlave` for the descriptor that was just accepted. -/
theorem readDataFromSlave_fds (hbut : UpBut L .readFromSlave w) (hsound : Sound L w.outcomes)
    (hopen : w.clientFd ∈ w.fds) (hmaster : w.masterFd ≠ w.clientFd)
    (hlisten : w.listenFd ≠ w.clientFd) (hreader : w.readFd ≠ w.clientFd) {w' : World}
    (hrun : readDataFromSlave w.clientFd w = .ok ⟨⟩ w') : Fds L w' := by
  have hsome : w.clientFd ≠ -1 := by
    have := (hbut.owned _ hopen).1
    omega
  unfold readDataFromSlave at hrun
  rw [if_pos hsome] at hrun
  cases hctl : aeCreateFileEvent w.clientFd .readFromSlave w with
  | error e v =>
    rw [run_bind_error hctl] at hrun
    cases hrun
  | ok registered v =>
    rw [run_bind_ok hctl] at hrun
    obtain ⟨ctls, hctlsub, ⟨rfl, hsmall, rfl⟩ | ⟨rfl, rfl, -⟩ | ⟨rfl, rfl, -⟩⟩ :=
      aeCreateFileEvent_cases hctl
    · -- the slave is registered, and redis-server is asked next
      have hup : Up L ((w.leftCtls .readFromSlave ctls).registered w.clientFd .readFromSlave) :=
        (hbut.client_registered hopen hsmall hmaster hlisten hreader).same
          rfl rfl rfl rfl rfl rfl rfl
      have hctls := sound_leftCtls hsound hctlsub
      rw [if_pos rfl, run_get_bind] at hrun
      rcases Decidable.em (((w.leftCtls .readFromSlave ctls).registered w.clientFd
        .readFromSlave).readFd = -1) with hr | hr
      · rw [if_pos hr] at hrun
        exact openQueries_fds hup hctls hr hrun
      · rw [if_neg hr] at hrun
        obtain ⟨-, rfl⟩ := EStateM.Result.ok.inj hrun
        exact ⟨Or.inr hup, hctls⟩
    · obtain ⟨-, rfl⟩ := EStateM.Result.ok.inj hrun
      -- the registration failed, and everything is closed
      have hc : Closable L (w.leftCtls .readFromSlave ctls) :=
        ⟨hbut.owned, hbut.watched, hbut.entered⟩
      exact hc.fds (sound_leftCtls hsound hctlsub)
    · obtain ⟨-, rfl⟩ := EStateM.Result.ok.inj hrun
      exact hbut.closable.fds hsound

/-- The state in which `acceptTcpHandler` calls `accept`. -/
def World.slaveClosed (w : World) : World :=
  if w.clientFd ≠ -1 then w.close w.clientFd else w

/-- The descriptors that are open after the slave's has been closed. -/
theorem World.mem_fds_slaveClosed (x : Int) :
    x ∈ w.slaveClosed.fds ↔ x ∈ w.fds ∧ (w.clientFd = -1 ∨ x ≠ w.clientFd) := by
  unfold slaveClosed
  split
  · rename_i h
    simp [close, h]
  · rename_i h
    simp [Decidable.not_not.mp h]

/-- The descriptors that are watched after the slave's has been closed. -/
theorem World.mem_epoll_slaveClosed (x : Int) :
    x ∈ w.slaveClosed.epoll ↔ x ∈ w.epoll ∧ (w.clientFd = -1 ∨ x ≠ w.clientFd) := by
  unfold slaveClosed
  split
  · rename_i h
    simp [close, h]
  · rename_i h
    simp [Decidable.not_not.mp h]

/-- Nothing else changes. -/
theorem World.slaveClosed_same : w.slaveClosed.masterFd = w.masterFd
    ∧ w.slaveClosed.readFd = w.readFd ∧ w.slaveClosed.listenFd = w.listenFd
    ∧ w.slaveClosed.events = w.events ∧ w.slaveClosed.outcomes = w.outcomes := by
  unfold slaveClosed
  split <;> exact ⟨rfl, rfl, rfl, rfl, rfl⟩

/-- `acceptTcpHandler` with a master: the slave's old descriptor is closed, and the new one
registered. -/
theorem acceptTcpHandler_eq (hm : w.masterFd ≠ -1) :
    acceptTcpHandler w = (do
      let fd ← openFd .readFromSlave
      if fd = -1 then throw .crash
      else
        modify fun w => { w with clientFd := fd }
        readDataFromSlave fd : Proxy Unit) w.slaveClosed := by
  unfold acceptTcpHandler World.slaveClosed
  rw [run_get_bind, if_pos hm]
  rcases Decidable.em (w.clientFd = -1) with hc | hc
  · rw [if_neg (not_not_intro hc), if_neg (not_not_intro hc)]
  · rewrite [if_pos hc, if_pos hc]
    rfl

/-- When `acceptTcpHandler` returns, a slave has been accepted. -/
theorem acceptTcpHandler_accepted (hm : w.masterFd ≠ -1) {w' : World}
    (hrun : acceptTcpHandler w = .ok ⟨⟩ w') :
    ∃ fd opens, 0 ≤ fd ∧ fd ∉ w.slaveClosed.fds
      ∧ (∀ o ∈ opens, o ∈ w.slaveClosed.outcomes.opens .readFromSlave)
      ∧ readDataFromSlave fd { (w.slaveClosed.leftOpens .readFromSlave opens).opened fd with
          clientFd := fd } = .ok ⟨⟩ w' := by
  rw [acceptTcpHandler_eq hm] at hrun
  cases hopen : openFd .readFromSlave w.slaveClosed with
  | error e v =>
    rw [run_bind_error hopen] at hrun
    cases hrun
  | ok fd v =>
    rw [run_bind_ok hopen] at hrun
    obtain ⟨opens, hsub, ⟨rfl, -⟩ | ⟨hnn, hfresh, -, rfl⟩⟩ := openFd_cases hopen
    · rw [if_pos rfl] at hrun
      cases hrun
    · rw [if_neg (by omega), run_modify_bind] at hrun
      exact ⟨fd, opens, hnn, hfresh, hsub, hrun⟩

/-- A descriptor that is registered for another procedure is not the slave's. -/
theorem Up.registered_ne (h : Up L w) {x : Int} {proc : Handler} (hx : Registered w x proc)
    (hproc : proc ≠ .readFromSlave) : x ≠ w.clientFd := by
  rcases h.client with hnone | hc
  · have := (h.owned _ hx.isOpen).1
    omega
  · exact hx.ne hc hproc

/-- To close the slave's descriptor leaves the others registered. -/
theorem Registered.slaveClosed {x : Int} {proc : Handler} (h : Registered w x proc)
    (hne : x ≠ w.clientFd) : Registered { w.slaveClosed with clientFd := -1 } x proc where
  isOpen := (World.mem_fds_slaveClosed x).mpr ⟨h.isOpen, Or.inr hne⟩
  watched := (World.mem_epoll_slaveClosed x).mpr ⟨h.watched, Or.inr hne⟩
  entry := by
    show w.slaveClosed.events x = some proc
    rw [World.slaveClosed_same.2.2.2.1]
    exact h.entry
  small := h.small

/-- An entry of the table when the old slave has been closed. Only that of the old slave can be
left over. -/
theorem Up.entered_slaveClosed (h : Up L w) (hclean : L ∨ w.clientFd = -1) :
    Entered L { w.slaveClosed with clientFd := -1 } := by
  intro x proc hx
  have hx : w.slaveClosed.events x = some proc := hx
  rw [World.slaveClosed_same.2.2.2.1] at hx
  rcases h.entered x proc hx with ⟨hin, hsmall⟩ | hstale
  · rcases Decidable.em (x = w.clientFd) with rfl | hne
    · have hsome : w.clientFd ≠ -1 := by
        have := (h.owned _ hin).1
        omega
      have hentry := (h.client.resolve_left hsome).entry
      rw [hx] at hentry
      exact Or.inr ⟨hclean.resolve_right hsome, Option.some.inj hentry⟩
    · exact Or.inl ⟨(World.mem_fds_slaveClosed x).mpr ⟨hin, Or.inr hne⟩, hsmall⟩
  · exact Or.inr hstale

/-- What is up when the old slave has been closed. -/
theorem Up.slaveClosed (h : Up L w) (hclean : L ∨ w.clientFd = -1) :
    UpBut L .readFromSlave { w.slaveClosed with clientFd := -1 } := by
  obtain ⟨hmaster, hreader, hlisten, -, -⟩ := @World.slaveClosed_same w
  exact
    -- every other descriptor keeps its registration, the slave's is gone
    { master := by
        show Registered _ w.slaveClosed.masterFd _
        rw [hmaster]
        exact h.master.slaveClosed (h.registered_ne h.master (by decide))
      listen := by
        show Registered _ w.slaveClosed.listenFd _
        rw [hlisten]
        exact h.listen.slaveClosed (h.registered_ne h.listen (by decide))
      client := Or.inl rfl
      reader := by
        show _ ∨ w.slaveClosed.readFd = -1 ∨ Registered _ w.slaveClosed.readFd _
        rw [hreader]
        exact Or.inr (h.reader.imp_right fun hr =>
          hr.slaveClosed (h.registered_ne hr (by decide)))
      owned := by
        intro x hx
        obtain ⟨hin, hne⟩ := (World.mem_fds_slaveClosed x).mp hx
        obtain ⟨hnn, howner⟩ := h.owned x hin
        refine ⟨hnn, ?_⟩
        show x = w.slaveClosed.masterFd ∨ x = -1 ∨ x = w.slaveClosed.readFd
          ∨ x = w.slaveClosed.listenFd
        omega
      watched := by
        intro x hx
        obtain ⟨hwatched, hne⟩ := (World.mem_epoll_slaveClosed x).mp hx
        exact (World.mem_fds_slaveClosed x).mpr ⟨h.watched x hwatched, hne⟩
      entered := h.entered_slaveClosed hclean }

/-- A slave is accepted, and not registered yet. -/
theorem UpBut.client_opened {kind : Handler} {opens : List (Except Int Int)}
    (h : UpBut L .readFromSlave { w with clientFd := -1 }) (hnn : 0 ≤ fd) :
    UpBut L .readFromSlave { (w.leftOpens kind opens).opened fd with clientFd := fd } := by
  have hgrow : ∀ {x : Int} {proc : Handler}, Registered { w with clientFd := -1 } x proc →
      Registered { (w.leftOpens kind opens).opened fd with clientFd := fd } x proc := fun hx =>
    ⟨List.mem_cons_of_mem _ hx.isOpen, hx.watched, hx.entry, hx.small⟩
  exact
    { master := hgrow h.master
      listen := hgrow h.listen
      client := Or.inl rfl
      reader := h.reader.imp_right fun hr => hr.imp_right hgrow
      owned := by
        intro x hx
        rcases List.mem_cons.mp hx with rfl | hx
        · exact ⟨hnn, Or.inr (Or.inl rfl)⟩
        · obtain ⟨hnn, howner⟩ := h.owned x hx
          refine ⟨hnn, ?_⟩
          show x = w.masterFd ∨ x = fd ∨ x = w.readFd ∨ x = w.listenFd
          have howner : x = w.masterFd ∨ x = -1 ∨ x = w.readFd ∨ x = w.listenFd := howner
          omega
      watched := h.watched.opened
      entered := h.entered.opened }

/-- **Accepting a slave.** With `False`, there must be none yet. -/
theorem acceptTcpHandler_fds (h : Up L w) (hsound : Sound L w.outcomes)
    (hclean : L ∨ w.clientFd = -1) {w' : World} (hrun : acceptTcpHandler w = .ok ⟨⟩ w') :
    Fds L w' := by
  obtain ⟨fd, opens, hnn, hfresh, hsub, hrun⟩ := acceptTcpHandler_accepted h.masterFd_ne hrun
  have hclosed := h.slaveClosed hclean
  have hs : Sound L (w.slaveClosed.leftOpens .readFromSlave opens).outcomes := by
    refine sound_leftOpens ?_ hsub
    rwa [World.slaveClosed_same.2.2.2.2]
  have hother : ∀ {x : Int} {proc : Handler},
      Registered { w.slaveClosed with clientFd := -1 } x proc → x ≠ fd := by
    rintro x proc hx rfl
    exact hfresh hx.isOpen
  refine readDataFromSlave_fds (hclosed.client_opened hnn) hs List.mem_cons_self
    (hother hclosed.master) (hother hclosed.listen) ?_ hrun
  rcases hclosed.reader.resolve_left Handler.noConfusion with hr | hr
  · have hr : w.slaveClosed.readFd = -1 := hr
    show w.slaveClosed.readFd ≠ fd
    omega
  · exact hother hr

/-! ## The steps of the event loop -/

/-- While the listening socket is registered, the proxy is up. -/
theorem Fds.up_of_accepts (h : Fds L w) (hentry : w.events fd = some .acceptTcpHandler) :
    Up L w := by
  rcases h.1 with ⟨hidle, -⟩ | hup
  · have := (hidle.stale fd _ hentry).2
    cases this
  · exact hup

/-- A callback of the event loop. -/
theorem callback_fds (h : Fds L w) {handler : Handler} (hentry : w.events fd = some handler)
    (hclean : handler = .acceptTcpHandler → L ∨ w.clientFd = -1) {w' : World}
    (hrun : callback handler fd w = .ok ⟨⟩ w') : Fds L w' := by
  have hJ : ∀ w, Fds L w → True := fun _ _ => trivial
  cases handler with
  | readFromMaster =>
    exact (keeps_readFromMaster hJ (.of_keeps writeData_fds _) (readData_fds fd)
      stable_fds.settable.stateless
      (keeps_processInputBuffer hJ writeData_fds stable_fds)).ok h hrun
  | readFromSlave =>
    exact (keeps_readFromSlave (readData_fds fd) (.of_keeps writeData_fds _)
      stable_fds.settable.stateless).ok h hrun
  | readDelValue => exact (keeps_readDelValue hJ (readData_fds fd) stable_fds.settable).ok h hrun
  | acceptTcpHandler => exact acceptTcpHandler_fds (h.up_of_accepts hentry) h.2 (hclean rfl) hrun

/-- The entry of an open descriptor says which of the four it is. -/
theorem Up.owner (h : Up L w) (hin : fd ∈ w.fds) {handler : Handler}
    (hentry : w.events fd = some handler) :
    match handler with
    | .readFromMaster => fd = w.masterFd
    | .readFromSlave => fd = w.clientFd
    | .readDelValue => fd = w.readFd
    | .acceptTcpHandler => fd = w.listenFd := by
  obtain ⟨hnn, rfl | rfl | rfl | rfl⟩ := h.owned fd hin
  · obtain rfl := Option.some.inj (h.master.entry.symm.trans hentry)
    rfl
  · have hc := h.client.resolve_left (by omega)
    obtain rfl := Option.some.inj (hc.entry.symm.trans hentry)
    rfl
  · have hr := h.reader.resolve_left (by omega)
    obtain rfl := Option.some.inj (hr.entry.symm.trans hentry)
    rfl
  · obtain rfl := Option.some.inj (h.listen.entry.symm.trans hentry)
    rfl

/-- **The timer** keeps the bookkeeping: it does nothing but connect where there is no master. -/
theorem timeEvent_fds : Keeps (Fds L) (fun _ => True) timeEvent := by
  intro w h
  have hlast : Keeps (Fds L) (fun _ => True)
      (modify fun w => { w with cronloops := w.cronloops + 1 } : Proxy Unit) :=
    Keeps.modify fun _ h => h.same rfl rfl rfl rfl rfl rfl rfl h.2
  unfold timeEvent
  rw [run_get_bind]
  rcases Decidable.em (w.cronloops % 10 = 0 ∧ w.masterFd = -1) with hc | hc
  · rw [if_pos hc]
    rcases h.1 with ⟨hidle, -⟩ | hup
    · exact Triple.bind (Triple.discard connectToMaster_fds) (fun _ => hlast) w ⟨hidle, h.2⟩
    · exact absurd hc.2 hup.masterFd_ne
  · rw [if_neg hc]
    exact hlast w h

/-- A step that leaves nothing behind: a connection to the master is registered when there is
one, and no slave is accepted while there is another. -/
def Orderly (L : Prop) (w : World) (s : Step) : Prop :=
  Sound L s.outcomes ∧ (s.Calls w .acceptTcpHandler → L ∨ w.clientFd = -1)

/-- The part of `Fds` that is about the state. -/
def Settled (L : Prop) (w : World) : Prop := (Idle L w ∧ (w.masterFd = -1 ∨ L)) ∨ Up L w

/-- The entry of a descriptor that is not a slave's is for an open one. -/
theorem Settled.entry (h : Settled L w) {proc : Handler} (hentry : w.events fd = some proc)
    (hproc : proc ≠ .readFromSlave) : Up L w ∧ fd ∈ w.fds := by
  rcases h with ⟨hidle, -⟩ | hup
  · exact absurd (hidle.stale fd _ hentry).2 hproc
  · rcases hup.entered fd _ hentry with ⟨hopen, -⟩ | ⟨-, hslave⟩
    · exact ⟨hup, hopen⟩
    · exact absurd hslave hproc

theorem Settled.master (h : Settled L w) (hentry : w.events fd = some .readFromMaster) :
    Up L w ∧ fd = w.masterFd := by
  obtain ⟨hup, hopen⟩ := h.entry hentry (by decide)
  exact ⟨hup, hup.owner hopen hentry⟩

/-- What holds between two callbacks holds when the next one starts, if its outcomes are sound. -/
theorem Settled.fds (h : Settled L w) {o : Outcomes} (hsound : Sound L o) :
    Fds L { w with outcomes := o } := by
  refine ⟨?_, hsound⟩
  rcases h with ⟨hidle, hm⟩ | hup
  · exact Or.inl ⟨hidle.same rfl rfl rfl rfl rfl rfl, hm⟩
  · exact Or.inr (hup.same rfl rfl rfl rfl rfl rfl rfl)

/-- **One step** keeps what holds between callbacks, with one case for each callback and one for
the timer. -/
theorem step_settled (s : Step) :
    Triple (fun w => Settled L w ∧ Orderly L w s) s.run (fun _ => Settled L)
      (fun _ _ => True) := by
  refine Triple.of_ok fun w _ w' ⟨h, hsound, hclean⟩ hrun => ?_
  have hfds : Fds L { w with outcomes := s.outcomes } := h.fds hsound
  rcases s.run_cases w with ⟨fired, heq⟩ | ⟨fd, fired, handler, hcalls, hentry, heq⟩ | heq
  · rw [heq] at hrun
    obtain ⟨-, rfl⟩ := EStateM.Result.ok.inj hrun
    have hnext : Fds L { w with outcomes := s.outcomes, fired := fired } :=
      hfds.same rfl rfl rfl rfl rfl rfl rfl hsound
    exact hnext.1
  · rw [heq] at hrun
    have hrest : Fds L { w with outcomes := s.outcomes, fired := fired } :=
      hfds.same rfl rfl rfl rfl rfl rfl rfl hsound
    refine (callback_fds hrest hentry ?_ hrun).1
    rintro rfl
    exact hclean hcalls
  · rw [heq] at hrun
    exact (timeEvent_fds.ok hfds hrun).1

theorem idle_init (o : Outcomes) : Idle L { World.init with outcomes := o } :=
  ⟨rfl, rfl, rfl, rfl, rfl, fun _ _ h => by cases h⟩

/-- Once `main` has gone into its loop, the proxy is up. -/
theorem World.Starts.up (h : w.Starts) : Up L w := by
  obtain ⟨o, hrun⟩ := h
  rcases connectToMaster_cases (idle_init o) hrun with ⟨-, hup⟩ | ⟨hdone, -⟩
  · exact hup
  · cases hdone

/-- **Every run of orderly steps keeps the bookkeeping.** -/
theorem settled_of_run {w₀ : World} (hstart : w₀.Starts)
    (hrun : Run Step.run (Orderly L) w₀ w) : Settled L w :=
  hrun.keeps step_settled (Or.inr hstart.up)

/-- What holds of the descriptors between callbacks: a global is `-1` or open and registered
for its own procedure, and nothing else has an entry in the table. -/
structure Booked (w : World) : Prop where
  master : w.masterFd = -1 ∨ Registered w w.masterFd .readFromMaster
  client : w.clientFd = -1 ∨ Registered w w.clientFd .readFromSlave
  reader : w.readFd = -1 ∨ Registered w w.readFd .readDelValue
  listen : w.listenFd = -1 ∨ Registered w w.listenFd .acceptTcpHandler
  others : ∀ fd, w.events fd ≠ none → fd ∈ w.fds
    ∧ (fd = w.masterFd ∨ fd = w.clientFd ∨ fd = w.readFd ∨ fd = w.listenFd)

/-- If nothing may be left behind, what holds between callbacks is that the books are kept. -/
theorem Settled.booked (h : Settled False w) : Booked w := by
  rcases h with ⟨hidle, hmaster⟩ | hup
  · refine ⟨Or.inl (hmaster.resolve_right id), Or.inl hidle.client, Or.inl hidle.reader,
      Or.inl hidle.listen, fun fd hfd => ?_⟩
    obtain ⟨proc, hproc⟩ := Option.ne_none_iff_exists'.mp hfd
    exact absurd (hidle.stale fd proc hproc).1 id
  · refine ⟨Or.inr hup.master, hup.client, hup.reader, Or.inr hup.listen, fun fd hfd => ?_⟩
    obtain ⟨proc, hproc⟩ := Option.ne_none_iff_exists'.mp hfd
    obtain ⟨hopen, -⟩ := (hup.entered fd proc hproc).resolve_right fun h => h.1
    exact ⟨hopen, (hup.owned fd hopen).2⟩

/-- In a run of orderly steps no descriptor is closed that has a mask, at any moment. -/
theorem masks_of_moment {w₀ : World} (hstart : w₀.Starts) {stop : Option Stop}
    (hrun : Moment Step.run (Orderly False) w₀ stop w) : MasksOpen w := by
  have hkeeps : ∀ s, Triple (fun w => MasksOpen w ∧ Orderly False w s) s.run (fun _ => MasksOpen)
      (fun _ => MasksOpen) := fun s =>
    (step_masks s).pre fun w h => ⟨h.1, fun hcalls => (h.2.2 hcalls).resolve_left id⟩
  have h := hrun.keeps hkeeps hstart.masksOpen
  cases stop <;> exact h

/-- **The bookkeeping is right in every run of orderly steps**: between the callbacks the globals
and the table agree, and at no moment has a descriptor been closed while its mask stays set. -/
theorem booked_of_run {w₀ : World} (hstart : w₀.Starts) :
    (∀ w, Run Step.run (Orderly False) w₀ w → Booked w)
    ∧ ∀ stop w, Moment Step.run (Orderly False) w₀ stop w →
      ∀ fd, Event.closed fd true ∉ w.trace :=
  ⟨fun _ hrun => (settled_of_run hstart hrun).booked,
    fun _ _ hrun => (masks_of_moment hstart hrun).closed⟩

/-- **Every run**, orderly or not, is settled at each of its steps, if a slave may leave entries
behind. -/
theorem World.Reachable.settled (h : w.Reachable) : Settled True w := by
  obtain ⟨w₀, hstart, hrun⟩ := h
  exact settled_of_run hstart
    (hrun.weaken fun _ _ _ => ⟨Or.inl trivial, fun _ => Or.inl trivial⟩)

/-! ## A master that cannot be registered, and a second slave -/

instance [Decidable L] (o : Outcomes) : Decidable (Sound L o) :=
  decidable_of_iff (L ∨ ((∀ done ∈ o.ctls .readFromMaster, done = true)
      ∧ ((o.opens .readFromMaster).all fun next => match next with
        | .ok fd => decide (fd < 1024)
        | .error _ => true) = true)) <| by
    refine or_congr_right (and_congr_right fun _ => ?_)
    rw [List.all_eq_true]
    refine ⟨fun h fd hfd => of_decide_eq_true (h _ hfd), fun h next hnext => ?_⟩
    cases next with
    | ok fd => exact decide_eq_true (h fd hnext)
    | error e => rfl

instance [Decidable L] (w : World) (s : Step) : Decidable (Orderly L w s) :=
  inferInstanceAs (Decidable (Sound L s.outcomes
    ∧ (s.Calls w .acceptTcpHandler → L ∨ w.clientFd = -1)))

namespace Accepting

/-- Every descriptor gets a number of its own, and is registered. -/
def outcomes (slave : Int) : Outcomes where
  reads := []
  writes := []
  opens := fun kind => match kind with
    | .readFromMaster => [.ok 5]
    | .acceptTcpHandler => [.ok 6]
    | .readFromSlave => [.ok slave]
    | .readDelValue => [.ok 8]
  ctls := fun _ => [true]
  around := fun _ => 0

/-- A slave connects. -/
def steps (slave : Int) : List Step :=
  [⟨.poll [6], outcomes slave⟩, ⟨.file, outcomes slave⟩]

/-- Reads and writes in a connection with master 5, slave 7 and queries 8. -/
def exchange (reads : List (Except Int (UInt8 × Bytes))) (writes : List (Except Int Nat)) :
    Outcomes :=
  { outcomes 7 with reads := reads, writes := writes }

/-- A descriptor is readable, and its callback runs. -/
def ready (fd : Int) (reads : List (Except Int (UInt8 × Bytes))) (writes : List (Except Int Nat)) :
    List Step :=
  [⟨.poll [fd], exchange [] []⟩, ⟨.file, exchange reads writes⟩]

/-- The connection to the master breaks, and the timer connects again. -/
def reconnect (o : Outcomes) : List Step := ready 5 [.error 104] [] ++ [⟨.timer, o⟩]

/-- The registration of the new master fails. -/
def refused : Outcomes := { outcomes 7 with ctls := fun _ => [false] }

/-- A slave connects and sends `SYNC`, the connection to the master breaks, and after the next
one a slave connects again. -/
def twice : List Step :=
  steps 7 ++ ready 7 [.ok (83, [89, 78, 67, 13, 10])] [.ok 5] ++ reconnect (outcomes 7) ++ steps 7

end Accepting

theorem booked_of_run_twice : ∃ w₀ w, World.start (Accepting.outcomes 7) = some w₀
    ∧ Run Step.run (Orderly False) w₀ w ∧ w.masterFd = 5 ∧ w.clientFd = 7
    ∧ Booked w ∧ ∀ fd, Event.closed fd true ∉ w.trace := by
  have hrun : ((World.start (Accepting.outcomes 7)).bind
      (runAll Step.run (Orderly False) Accepting.twice)).any
        (fun w => decide (w.masterFd = 5 ∧ w.clientFd = 7)) = true := by
    decide +kernel
  obtain ⟨w, hw, hfds⟩ := (Option.any_eq_true _ _).mp hrun
  obtain ⟨w₀, hstart, hsteps⟩ := Option.bind_eq_some_iff.mp hw
  obtain ⟨hmaster, hclient⟩ := of_decide_eq_true hfds
  have hbooked := booked_of_run (World.starts_of_start hstart)
  have hruns := Run.of_runAll hsteps
  exact ⟨w₀, w, hstart, hruns, hmaster, hclient, hbooked.1 w hruns,
    hbooked.2 none w (.reached hruns)⟩

/-- **When the new master cannot be registered**, `master_fd` keeps the number of a descriptor
that is closed, and the timer never connects again. And the descriptor of a slave is closed while
its mask is set when a second one connects; the new connection has the same number, and is reset
as it cannot be registered. -/
theorem not_booked_refused :
    (∃ w : World, w.Reachable ∧ w.masterFd = 5 ∧ 5 ∉ w.fds ∧ ¬ Booked w
      ∧ ∀ o, timeEvent { w with outcomes := o }
        = .ok ⟨⟩ { w with outcomes := o, cronloops := w.cronloops + 1 })
    ∧ ∃ w : World, w.Reachable ∧ Event.closed 7 true ∈ w.trace ∧ w.masterFd = -1 := by
  have hrefused : ((World.start (Accepting.outcomes 7)).bind (runAll Step.run (fun _ _ => True)
      (Accepting.reconnect Accepting.refused))).any
        (fun w => decide (w.masterFd = 5 ∧ 5 ∉ w.fds)) = true := by
    decide +kernel
  have hsecond : ((World.start (Accepting.outcomes 7)).bind (runAll Step.run (fun _ _ => True)
      (Accepting.steps 7 ++ Accepting.steps 7))).any
        (fun w => decide (Event.closed 7 true ∈ w.trace ∧ w.masterFd = -1)) = true := by
    decide +kernel
  obtain ⟨w, hreach, hw⟩ := World.reachable_of_any hrefused
  obtain ⟨hmaster, hclosed⟩ := of_decide_eq_true hw
  obtain ⟨v, hreach', hv⟩ := World.reachable_of_any hsecond
  refine ⟨⟨w, hreach, hmaster, hclosed, fun h => ?_, fun o => ?_⟩, v, hreach',
    of_decide_eq_true hv⟩
  · rcases h.master with hnone | hm
    · omega
    · exact hclosed (hmaster ▸ hm.isOpen)
  · exact timeEvent_up (by show w.masterFd ≠ -1; omega)

end Iceberg
