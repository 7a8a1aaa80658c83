import Iceberg.Proxy.IoLemmas

/-!
# Descriptor bookkeeping

Between the callbacks the proxy is idle, with nothing open, or up, with every descriptor it
has open registered for its own procedure. Two things can be left behind: an entry of the
table for a slave that was closed when another one was accepted, and the number of a master
that could not be registered. The predicates carry a proposition `L` under which this is
allowed: the invariant of all runs is the one with `True`, and the bookkeeping is clean with
`False`.
-/

namespace Iceberg

open Triples

/-- The descriptor is open, watched, and registered for `proc`. -/
structure Registered (w : World) (fd : Int) (proc : Handler) : Prop where
  isOpen : fd ∈ w.fds
  watched : fd ∈ w.epoll
  entry : w.events fd = some proc
  small : fd < 1024

/-- The open descriptors are among the four of the proxy. -/
def Owned (w : World) : Prop :=
  ∀ fd ∈ w.fds, 0 ≤ fd
    ∧ (fd = w.masterFd ∨ fd = w.clientFd ∨ fd = w.readFd ∨ fd = w.listenFd)

/-- `epoll` watches open descriptors only. -/
def Watched (w : World) : Prop := ∀ fd ∈ w.epoll, fd ∈ w.fds

/-- An entry of the table is for an open descriptor, or was left behind by a slave. -/
def Entered (L : Prop) (w : World) : Prop :=
  ∀ fd proc, w.events fd = some proc →
    (fd ∈ w.fds ∧ fd < 1024) ∨ (L ∧ proc = .readFromSlave)

structure Idle (L : Prop) (w : World) : Prop where
  client : w.clientFd = -1
  reader : w.readFd = -1
  listen : w.listenFd = -1
  fds : w.fds = []
  epoll : w.epoll = []
  stale : ∀ fd proc, w.events fd = some proc → L ∧ proc = .readFromSlave

structure Up (L : Prop) (w : World) : Prop where
  master : Registered w w.masterFd .readFromMaster
  listen : Registered w w.listenFd .acceptTcpHandler
  client : w.clientFd = -1 ∨ Registered w w.clientFd .readFromSlave
  reader : w.readFd = -1 ∨ Registered w w.readFd .readDelValue
  owned : Owned w
  watched : Watched w
  entered : Entered L w

/-- When nothing may be left behind, a new master can be registered. -/
def Sound (L : Prop) (o : Outcomes) : Prop :=
  L ∨ ((∀ done ∈ o.ctls .readFromMaster, done = true)
    ∧ ∀ fd : Int, .ok fd ∈ o.opens .readFromMaster → fd < 1024)

/-- **The descriptors between callbacks.** -/
def Fds (L : Prop) (w : World) : Prop :=
  ((Idle L w ∧ (w.masterFd = -1 ∨ L)) ∨ Up L w) ∧ Sound L w.outcomes

/-- What `closeFd` needs to leave nothing open. -/
structure Closable (L : Prop) (w : World) : Prop where
  owned : Owned w
  watched : Watched w
  entered : Entered L w

variable {L : Prop} {w : World} {fd : Int}

/-! ## `closeFd` -/

namespace World

/-- The descriptors that are open after one has been shut. -/
theorem mem_fds_shut (x : Int) : x ∈ (w.shut fd).fds ↔ x ∈ w.fds ∧ (fd = -1 ∨ x ≠ fd) := by
  unfold shut aeDeleteFileEvent close
  split
  · rename_i hfd
    split <;> simp [hfd]
  · rename_i hfd
    have : fd = -1 := by simpa using hfd
    simp [this]

/-- The descriptors that are watched after one has been shut. -/
theorem mem_epoll_shut (x : Int) :
    x ∈ (w.shut fd).epoll ↔ x ∈ w.epoll ∧ (fd = -1 ∨ x ≠ fd) := by
  unfold shut aeDeleteFileEvent close
  split
  · rename_i hfd
    split <;> simp [hfd]
  · rename_i hfd
    have : fd = -1 := by simpa using hfd
    simp [this]

/-- A descriptor that has been shut has no procedure, unless its number is beyond the loop's
table. -/
theorem events_shut {x : Int} {proc : Handler} (h : (w.shut fd).events x = some proc) :
    w.events x = some proc ∧ (fd = -1 ∨ x ≠ fd ∨ 1024 ≤ fd) := by
  unfold shut aeDeleteFileEvent close at h
  split at h
  · split at h
    · rename_i hskip
      refine ⟨h, ?_⟩
      rcases hskip with hlarge | hnone
      · exact Or.inr (Or.inr hlarge)
      · refine Or.inr (Or.inl ?_)
        rintro rfl
        simp [hnone] at h
    · rcases Decidable.em (x = fd) with rfl | hne
      · simp at h
      · simp only [Function.update_of_ne hne] at h
        exact ⟨h, Or.inr (Or.inl hne)⟩
  · rename_i hfd
    exact ⟨h, Or.inl (by simpa using hfd)⟩

@[simp] theorem shut_masterFd : (w.shut fd).masterFd = w.masterFd := by
  unfold shut aeDeleteFileEvent close
  split
  · split <;> rfl
  · rfl

@[simp] theorem shut_readFd : (w.shut fd).readFd = w.readFd := by
  unfold shut aeDeleteFileEvent close
  split
  · split <;> rfl
  · rfl

@[simp] theorem shut_listenFd : (w.shut fd).listenFd = w.listenFd := by
  unfold shut aeDeleteFileEvent close
  split
  · split <;> rfl
  · rfl

@[simp] theorem shut_outcomes : (w.shut fd).outcomes = w.outcomes := by
  unfold shut aeDeleteFileEvent close
  split
  · split <;> rfl
  · rfl

/-- `closeFd` leaves the descriptors open that are none of the four. -/
theorem mem_fds_closeFd (x : Int) :
    x ∈ w.closeFd.fds ↔ x ∈ w.fds ∧ (w.clientFd = -1 ∨ x ≠ w.clientFd)
      ∧ (w.readFd = -1 ∨ x ≠ w.readFd) ∧ (w.masterFd = -1 ∨ x ≠ w.masterFd)
      ∧ (w.listenFd = -1 ∨ x ≠ w.listenFd) := by
  simp only [closeFd, mem_fds_shut, shut_masterFd, shut_readFd, shut_listenFd, and_assoc]

/-- `closeFd` leaves those watched that are none of the four. -/
theorem mem_epoll_closeFd (x : Int) :
    x ∈ w.closeFd.epoll ↔ x ∈ w.epoll ∧ (w.clientFd = -1 ∨ x ≠ w.clientFd)
      ∧ (w.readFd = -1 ∨ x ≠ w.readFd) ∧ (w.masterFd = -1 ∨ x ≠ w.masterFd)
      ∧ (w.listenFd = -1 ∨ x ≠ w.listenFd) := by
  simp only [closeFd, mem_epoll_shut, shut_masterFd, shut_readFd, shut_listenFd, and_assoc]

/-- `closeFd` leaves no procedure for the four, unless their numbers are beyond the table. -/
theorem events_closeFd {x : Int} {proc : Handler} (h : w.closeFd.events x = some proc) :
    w.events x = some proc ∧ (w.clientFd = -1 ∨ x ≠ w.clientFd ∨ 1024 ≤ w.clientFd)
      ∧ (w.readFd = -1 ∨ x ≠ w.readFd ∨ 1024 ≤ w.readFd)
      ∧ (w.masterFd = -1 ∨ x ≠ w.masterFd ∨ 1024 ≤ w.masterFd)
      ∧ (w.listenFd = -1 ∨ x ≠ w.listenFd ∨ 1024 ≤ w.listenFd) := by
  obtain ⟨h, hlisten⟩ := events_shut h
  obtain ⟨h, hmaster⟩ := events_shut h
  obtain ⟨h, hread⟩ := events_shut h
  obtain ⟨h, hclient⟩ := events_shut h
  simp only [shut_masterFd, shut_readFd, shut_listenFd] at hlisten hmaster hread hclient
  exact ⟨h, hclient, hread, hmaster, hlisten⟩

@[simp] theorem shut_clientFd : (w.shut fd).clientFd = w.clientFd := by
  unfold shut aeDeleteFileEvent close
  split
  · split <;> rfl
  · rfl

@[simp] theorem shut_answers : (w.shut fd).answers = w.answers := by
  unfold shut aeDeleteFileEvent close
  split
  · split <;> rfl
  · rfl

@[simp] theorem closeFd_masterFd : w.closeFd.masterFd = -1 := by simp [closeFd]

@[simp] theorem closeFd_clientFd : w.closeFd.clientFd = -1 := by simp [closeFd]

@[simp] theorem closeFd_readFd : w.closeFd.readFd = -1 := by simp [closeFd]

@[simp] theorem closeFd_listenFd : w.closeFd.listenFd = -1 := by simp [closeFd]

@[simp] theorem closeFd_outcomes : w.closeFd.outcomes = w.outcomes := by
  simp [closeFd]

@[simp] theorem closeFd_answers : w.closeFd.answers
    = { w.answers with q := w.answers.q.clear, bufSlaveAnswer := [] } := by
  simp [closeFd]

end World

/-- **`closeFd` closes everything.** -/
theorem Closable.idle (h : Closable L w) : Idle L w.closeFd := by
  have hnone : ∀ x, x ∉ w.closeFd.fds := by
    intro x hx
    rw [World.mem_fds_closeFd] at hx
    obtain ⟨hmem, hclient, hread, hmaster, hlisten⟩ := hx
    obtain ⟨hnn, howner⟩ := h.owned x hmem
    omega
  refine ⟨World.closeFd_clientFd, World.closeFd_readFd, World.closeFd_listenFd,
    List.eq_nil_iff_forall_not_mem.mpr hnone,
    List.eq_nil_iff_forall_not_mem.mpr fun x hx => ?_, fun x proc hx => ?_⟩
  · rw [World.mem_epoll_closeFd] at hx
    refine hnone x ((World.mem_fds_closeFd x).mpr ⟨h.watched x hx.1, hx.2⟩)
  · obtain ⟨hentry, hclient, hread, hmaster, hlisten⟩ := World.events_closeFd hx
    rcases h.entered x proc hentry with ⟨hopen, hsmall⟩ | hstale
    · obtain ⟨hnn, howner⟩ := h.owned x hopen
      omega
    · exact hstale

theorem Up.closable (h : Up L w) : Closable L w := ⟨h.owned, h.watched, h.entered⟩

theorem Idle.closable (h : Idle L w) : Closable L w where
  owned := by simp [Owned, h.fds]
  watched := by simp [Watched, h.epoll]
  entered := fun fd proc hentry => Or.inr (h.stale fd proc hentry)

theorem Fds.closable (h : Fds L w) : Closable L w := by
  rcases h.1 with ⟨hidle, -⟩ | hup
  · exact hidle.closable
  · exact hup.closable

theorem Closable.fds (h : Closable L w) (ho : Sound L w.outcomes) : Fds L w.closeFd :=
  ⟨Or.inl ⟨h.idle, Or.inl World.closeFd_masterFd⟩, by rwa [World.closeFd_outcomes]⟩

/-- **`closeFd`** keeps the bookkeeping. -/
theorem Fds.closeFd (h : Fds L w) : Fds L w.closeFd := h.closable.fds h.2

/-! ## Outcomes for a new master -/

/-- The outcomes of `open` that are left are sound. -/
theorem sound_leftOpens {kind : Handler} {opens : List (Except Int Int)}
    (h : Sound L w.outcomes) (hsub : ∀ o ∈ opens, o ∈ w.outcomes.opens kind) :
    Sound L (w.leftOpens kind opens).outcomes := by
  rcases h with hL | ⟨hctls, hopens⟩
  · exact Or.inl hL
  · refine Or.inr ⟨hctls, fun fd hfd => ?_⟩
    rcases Decidable.em (Handler.readFromMaster = kind) with rfl | hne
    · simp only [World.leftOpens, Function.update_self] at hfd
      exact hopens fd (hsub _ hfd)
    · simp only [World.leftOpens, Function.update_of_ne hne] at hfd
      exact hopens fd hfd

/-- The outcomes of `epoll_ctl` that are left are sound. -/
theorem sound_leftCtls {proc : Handler} {ctls : List Bool}
    (h : Sound L w.outcomes) (hsub : ∀ b ∈ ctls, b ∈ w.outcomes.ctls proc) :
    Sound L (w.leftCtls proc ctls).outcomes := by
  rcases h with hL | ⟨hctls, hopens⟩
  · exact Or.inl hL
  · refine Or.inr ⟨fun b hb => ?_, hopens⟩
    rcases Decidable.em (Handler.readFromMaster = proc) with rfl | hne
    · simp only [World.leftCtls, Function.update_self] at hb
      exact hctls b (hsub b hb)
    · simp only [World.leftCtls, Function.update_of_ne hne] at hb
      exact hctls b hb

/-- To open a descriptor leaves sound outcomes. -/
theorem keeps_sound_openFd (kind : Handler) :
    Keeps (fun w => Sound L w.outcomes) (fun _ => True) (openFd kind) :=
  Triple.of_ok fun w fd w' h hrun => by
    obtain ⟨opens, hsub, ⟨-, rfl⟩ | ⟨-, -, -, rfl⟩⟩ := openFd_cases hrun
    · exact sound_leftOpens h hsub
    · exact sound_leftOpens h hsub

/-- To register a descriptor leaves sound outcomes. -/
theorem keeps_sound_aeCreateFileEvent (fd : Int) (proc : Handler) :
    Keeps (fun w => Sound L w.outcomes) (fun _ => True) (aeCreateFileEvent fd proc) :=
  Triple.of_ok fun w done w' h hrun => by
    obtain ⟨ctls, hsub, ⟨-, -, rfl⟩ | ⟨-, rfl, -⟩ | ⟨-, rfl, -⟩⟩ := aeCreateFileEvent_cases hrun
    · exact sound_leftCtls h hsub
    · exact sound_leftCtls h hsub
    · exact h

/-- To listen leaves sound outcomes. -/
theorem keeps_sound_listenToPort :
    Keeps (fun w => Sound L w.outcomes) (fun _ => True) listenToPort := by
  refine (keeps_sound_openFd _).bind fun fd => Keeps.bind (Keeps.modify fun _ h => h) fun _ => ?_
  refine Keeps.ite ((keeps_sound_aeCreateFileEvent _ _).bind fun done => ?_) Keeps.pure
  refine Keeps.ite Keeps.pure (Keeps.bind (Keeps.modify fun _ h => h) fun _ => Keeps.pure)

/-- To connect leaves sound outcomes. -/
theorem keeps_sound_connectToMaster :
    Keeps (fun w => Sound L w.outcomes) (fun _ => True) connectToMaster := by
  refine (keeps_sound_openFd _).bind fun fd => Keeps.bind (Keeps.modify fun _ h => h) fun _ => ?_
  refine Keeps.ite ((keeps_sound_aeCreateFileEvent _ _).bind fun done => Keeps.ite ?_ ?_) Keeps.pure
  · refine keeps_sound_listenToPort.bind fun listening => ?_
    exact Keeps.ite Keeps.pure (Keeps.throw fun _ _ => trivial)
  · exact Keeps.bind (Keeps.modify fun _ h => h) fun _ => Keeps.pure

/-! ## Registering -/

/-- A descriptor stays registered when another one is. -/
theorem Registered.keep {proc other : Handler} {x : Int} (h : Registered w fd proc)
    (hne : fd ≠ x) : Registered (w.registered x other) fd proc where
  isOpen := h.isOpen
  watched := by
    show fd ∈ if x ∈ w.epoll then w.epoll else x :: w.epoll
    split
    · exact h.watched
    · exact List.mem_cons_of_mem _ h.watched
  entry := by
    show Function.update w.events x (some other) fd = some proc
    rw [Function.update_of_ne hne]
    exact h.entry
  small := h.small

theorem Registered.ne {proc other : Handler} {x : Int} (h : Registered w fd proc)
    (hx : Registered w x other) (hne : proc ≠ other) : fd ≠ x := by
  rintro rfl
  exact hne (Option.some.inj (h.entry.symm.trans hx.entry))

theorem Registered.same {proc : Handler} {w' : World} (h : Registered w fd proc)
    (hfds : w'.fds = w.fds) (hepoll : w'.epoll = w.epoll) (hevents : w'.events = w.events) :
    Registered w' fd proc :=
  ⟨hfds ▸ h.isOpen, hepoll ▸ h.watched, hevents ▸ h.entry, h.small⟩

/-- What has just been registered is. -/
theorem registered_self {proc : Handler} (hopen : fd ∈ w.fds) (hsmall : fd < 1024) :
    Registered (w.registered fd proc) fd proc where
  isOpen := hopen
  watched := by
    show fd ∈ if fd ∈ w.epoll then w.epoll else fd :: w.epoll
    split
    · assumption
    · exact List.mem_cons_self
  entry := Function.update_self ..
  small := hsmall

/-- Only open descriptors are watched, also after a registration. -/
theorem Watched.registered (proc : Handler) (h : Watched w) (hopen : fd ∈ w.fds) :
    Watched (w.registered fd proc) := by
  intro x hx
  have hx : x ∈ if fd ∈ w.epoll then w.epoll else fd :: w.epoll := hx
  split at hx
  · exact h x hx
  · rcases List.mem_cons.mp hx with rfl | hx
    · exact hopen
    · exact h x hx

/-- The entries are still those of open descriptors after a registration. -/
theorem Entered.registered (proc : Handler) (h : Entered L w) (hopen : fd ∈ w.fds)
    (hsmall : fd < 1024) : Entered L (w.registered fd proc) := by
  intro x other hx
  have hx : Function.update w.events fd (some proc) x = some other := hx
  rcases Decidable.em (x = fd) with rfl | hne
  · exact Or.inl ⟨hopen, hsmall⟩
  · rw [Function.update_of_ne hne] at hx
    exact h x other hx

theorem Watched.opened (h : Watched w) : Watched (w.opened fd) := fun x hx =>
  List.mem_cons_of_mem _ (h x hx)

theorem Entered.opened (h : Entered L w) : Entered L (w.opened fd) := fun x proc hx =>
  (h x proc hx).imp_left (And.imp_left (List.mem_cons_of_mem _))

/-! ## Connecting to the master -/

/-- To be up depends on the four globals and the books only. -/
theorem Up.same {w' : World} (h : Up L w) (hmaster : w'.masterFd = w.masterFd)
    (hclient : w'.clientFd = w.clientFd) (hreader : w'.readFd = w.readFd)
    (hlisten : w'.listenFd = w.listenFd) (hfds : w'.fds = w.fds) (hepoll : w'.epoll = w.epoll)
    (hevents : w'.events = w.events) : Up L w' where
  master := hmaster ▸ h.master.same hfds hepoll hevents
  listen := hlisten ▸ h.listen.same hfds hepoll hevents
  client := by
    rw [hclient]
    exact h.client.imp_right fun hc => hc.same hfds hepoll hevents
  reader := by
    rw [hreader]
    exact h.reader.imp_right fun hr => hr.same hfds hepoll hevents
  owned := by
    intro x hx
    rw [hmaster, hclient, hreader, hlisten]
    exact h.owned x (hfds ▸ hx)
  watched := fun x hx => hfds ▸ h.watched x (hepoll ▸ hx)
  entered := fun x proc hx => hfds ▸ h.entered x proc (hevents ▸ hx)

/-- The master is registered, and nothing else is open. -/
structure MasterOnly (L : Prop) (w : World) : Prop where
  master : Registered w w.masterFd .readFromMaster
  nonneg : 0 ≤ w.masterFd
  client : w.clientFd = -1
  reader : w.readFd = -1
  fds : w.fds = [w.masterFd]
  watched : Watched w
  entered : Entered L w

/-- **`listenToPort`**: where it returns that it is done, the two descriptors that it opens are
registered besides the master's. In the other cases there is nothing to show. -/
theorem listenToPort_up : Triple (MasterOnly L) listenToPort
    (fun done w => done = true → Up L w) (fun _ _ => True) := by
  refine Triple.of_ok fun w done w' h hrun => ?_
  rintro rfl
  unfold listenToPort at hrun
  cases hopen : openFd .acceptTcpHandler w with
  | error e v =>
    rw [run_bind_error hopen] at hrun
    cases hrun
  | ok fd v =>
    rw [run_bind_ok hopen, run_modify_bind] at hrun
    obtain ⟨opens, hsub, ⟨rfl, rfl⟩ | ⟨hnn, hfresh, -, rfl⟩⟩ := openFd_cases hopen
    · -- without a descriptor it does not return true
      cases hrun
    rw [if_pos (by omega)] at hrun
    cases hctl : aeCreateFileEvent fd .acceptTcpHandler
        { (w.leftOpens .acceptTcpHandler opens).opened fd with listenFd := fd } with
    | error e u =>
      rw [run_bind_error hctl] at hrun
      cases hrun
    | ok registered u =>
      rw [run_bind_ok hctl] at hrun
      obtain ⟨ctls, hctlsub, ⟨rfl, hsmall, rfl⟩ | ⟨rfl, -⟩ | ⟨rfl, -⟩⟩ :=
        aeCreateFileEvent_cases hctl
      · obtain ⟨-, rfl⟩ := EStateM.Result.ok.inj hrun
        -- registered: the new descriptor beside the master's
        have hself : fd ∈ (w.opened fd).fds := List.mem_cons_self
        have hne : w.masterFd ≠ fd := fun heq => hfresh (heq ▸ h.master.isOpen)
        have hmaster : Registered (w.opened fd) w.masterFd .readFromMaster :=
          ⟨List.mem_cons_of_mem _ h.master.isOpen, h.master.watched, h.master.entry,
            h.master.small⟩
        -- there are only these two
        have howned : Owned { (w.opened fd).registered fd .acceptTcpHandler with
            listenFd := fd } := by
          intro x hx
          have hx : x ∈ fd :: w.fds := hx
          rw [h.fds] at hx
          simp only [List.mem_cons, List.not_mem_nil, or_false] at hx
          rcases hx with rfl | rfl
          · exact ⟨hnn, Or.inr (Or.inr (Or.inr rfl))⟩
          · exact ⟨h.nonneg, Or.inl rfl⟩
        have hup : Up L { (w.opened fd).registered fd .acceptTcpHandler with listenFd := fd } :=
          { master := (hmaster.keep hne).same rfl rfl rfl
            listen := (registered_self hself hsmall).same rfl rfl rfl
            client := Or.inl h.client
            reader := Or.inl h.reader
            owned := howned
            watched := h.watched.opened.registered .acceptTcpHandler hself
            entered := h.entered.opened.registered .acceptTcpHandler hself hsmall }
        exact hup.same rfl rfl rfl rfl rfl rfl rfl
      · cases hrun
      · cases hrun

/-- To be idle depends on three of the globals and the books only. -/
theorem Idle.same {w' : World} (h : Idle L w) (hclient : w'.clientFd = w.clientFd)
    (hreader : w'.readFd = w.readFd) (hlisten : w'.listenFd = w.listenFd)
    (hfds : w'.fds = w.fds) (hepoll : w'.epoll = w.epoll) (hevents : w'.events = w.events) :
    Idle L w' :=
  ⟨hclient.trans h.client, hreader.trans h.reader, hlisten.trans h.listen, hfds.trans h.fds,
    hepoll.trans h.epoll, hevents ▸ h.stale⟩

/-- A registration fails for a new master only if something may be left behind. -/
theorem lenient_of_failed (h : Idle L w) (hsound : Sound L w.outcomes)
    (hfd : .ok fd ∈ w.outcomes.opens .readFromMaster)
    (hfailed : false ∈ w.outcomes.ctls .readFromMaster
      ∨ 1024 ≤ fd ∨ w.events fd ≠ none ∨ fd ∈ w.epoll) : L := by
  rcases hfailed with hctl | hlarge | hentry | hwatched
  · exact hsound.resolve_right fun hs => absurd (hs.1 false hctl) (by decide)
  · exact hsound.resolve_right fun hs => absurd (hs.2 fd hfd) (by omega)
  · obtain ⟨proc, hproc⟩ := Option.ne_none_iff_exists'.mp hentry
    exact (h.stale fd proc hproc).1
  · rw [h.epoll] at hwatched
    exact absurd hwatched (by simp)

/-- What `connectToMaster` leaves: everything registered, or nothing open. -/
theorem connectToMaster_cases (h : Idle L w) {done : Bool} {w' : World}
    (hrun : connectToMaster w = .ok done w') :
    (done = true ∧ Up L w')
    ∨ (done = false ∧ Idle L w' ∧ (w'.masterFd = -1 ∨ (Sound L w.outcomes → L))) := by
  unfold connectToMaster at hrun
  cases hopen : openFd .readFromMaster w with
  | error e v =>
    rw [run_bind_error hopen] at hrun
    cases hrun
  | ok fd v =>
    rw [run_bind_ok hopen, run_modify_bind] at hrun
    obtain ⟨opens, -, ⟨rfl, rfl⟩ | ⟨hnn, hfresh, hfd, rfl⟩⟩ := openFd_cases hopen
    · obtain ⟨rfl, rfl⟩ := EStateM.Result.ok.inj hrun
      -- the connection failed, and `master_fd` is -1
      exact Or.inr ⟨rfl, h.same rfl rfl rfl rfl rfl rfl, Or.inl rfl⟩
    rw [if_pos (by omega)] at hrun
    cases hctl : aeCreateFileEvent fd .readFromMaster
        { (w.leftOpens .readFromMaster opens).opened fd with masterFd := fd } with
    | error e u =>
      rw [run_bind_error hctl] at hrun
      cases hrun
    | ok registered u =>
      rw [run_bind_ok hctl] at hrun
      have hself : fd ∈ (w.opened fd).fds := List.mem_cons_self
      -- after the close nothing is open and nothing is watched
      have hfds : (w.opened fd).fds.filter (· ≠ fd) = [] := by
        simp [World.opened, h.fds]
      have hepoll : w.epoll.filter (· ≠ fd) = [] := by
        rw [h.epoll]
        rfl
      obtain ⟨ctls, -, ⟨rfl, hsmall, rfl⟩ | ⟨rfl, rfl, hfalse⟩ | ⟨rfl, rfl, hfailed⟩⟩ :=
        aeCreateFileEvent_cases hctl
      · -- the master is registered, and the port is next
        have hregistered : Registered ((w.opened fd).registered fd .readFromMaster) fd
            .readFromMaster := registered_self hself hsmall
        have hentered : Entered L w := fun x proc hx => Or.inr (h.stale x proc hx)
        have hwatched : Watched w := by simp [Watched, h.epoll]
        have honly : MasterOnly L (({ (w.leftOpens .readFromMaster opens).opened fd with
            masterFd := fd } : World).leftCtls .readFromMaster ctls |>.registered fd
              .readFromMaster) :=
          { master := hregistered.same rfl rfl rfl
            nonneg := hnn
            client := h.client
            reader := h.reader
            fds := congrArg (fd :: ·) h.fds
            watched := hwatched.opened.registered .readFromMaster hself
            entered := hentered.opened.registered .readFromMaster hself hsmall }
        rw [if_pos rfl] at hrun
        cases hlisten : listenToPort (({ (w.leftOpens .readFromMaster opens).opened fd with
            masterFd := fd } : World).leftCtls .readFromMaster ctls |>.registered fd
              .readFromMaster) with
        | error e u =>
          rw [run_bind_error hlisten] at hrun
          cases hrun
        | ok listening u =>
          rw [run_bind_ok hlisten] at hrun
          cases listening with
          -- a port that cannot be listened to ends the process
          | false => cases hrun
          | true =>
            obtain ⟨rfl, rfl⟩ := EStateM.Result.ok.inj hrun
            exact Or.inl ⟨rfl, listenToPort_up.ok honly hlisten rfl⟩
      · -- the registration failed: the number is closed, and `master_fd` keeps it
        obtain ⟨rfl, rfl⟩ := EStateM.Result.ok.inj hrun
        exact Or.inr ⟨rfl, ⟨h.client, h.reader, h.listen, hfds, hepoll, h.stale⟩,
          Or.inr fun hsound => lenient_of_failed h hsound hfd (Or.inl hfalse)⟩
      · obtain ⟨rfl, rfl⟩ := EStateM.Result.ok.inj hrun
        exact Or.inr ⟨rfl, ⟨h.client, h.reader, h.listen, hfds, hepoll, h.stale⟩,
          Or.inr fun hsound => lenient_of_failed h hsound hfd (Or.inr hfailed)⟩

/-- **`connectToMaster`**, called while nothing is open, keeps the bookkeeping: after a failed
registration the descriptor is closed again. -/
theorem connectToMaster_fds :
    Triple (fun w => Idle L w ∧ Sound L w.outcomes) connectToMaster (fun _ => Fds L)
      (fun _ _ => True) := by
  refine Triple.of_ok fun w done w' ⟨h, hsound⟩ hrun => ?_
  refine ⟨?_, keeps_sound_connectToMaster.ok hsound hrun⟩
  rcases connectToMaster_cases h hrun with ⟨-, hup⟩ | ⟨-, hidle, hmaster⟩
  · exact Or.inr hup
  · exact Or.inl ⟨hidle, hmaster.imp_right fun hL => hL hsound⟩

/-! ## Reading and writing -/

theorem Up.masterFd_ne (h : Up L w) : w.masterFd ≠ -1 := by
  have := (h.owned _ h.master.isOpen).1
  omega

/-- The bookkeeping depends on the four globals, the books and the outcomes only. -/
theorem Fds.same {w' : World} (h : Fds L w) (hmaster : w'.masterFd = w.masterFd)
    (hclient : w'.clientFd = w.clientFd) (hreader : w'.readFd = w.readFd)
    (hlisten : w'.listenFd = w.listenFd) (hfds : w'.fds = w.fds) (hepoll : w'.epoll = w.epoll)
    (hevents : w'.events = w.events) (hsound : Sound L w'.outcomes) : Fds L w' := by
  refine ⟨?_, hsound⟩
  rcases h.1 with ⟨hidle, hm⟩ | hup
  · exact Or.inl ⟨hidle.same hclient hreader hlisten hfds hepoll hevents, hmaster ▸ hm⟩
  · exact Or.inr (hup.same hmaster hclient hreader hlisten hfds hepoll hevents)

theorem stable_fds : Stable (Fds L) where
  set := fun _ _ _ _ _ _ _ _ _ _ h => h.same rfl rfl rfl rfl rfl rfl rfl h.2

theorem keeps_closeFd : Keeps (Fds L) (fun _ => True) (modify World.closeFd : Proxy Unit) :=
  Keeps.modify fun _ h => h.closeFd

/-- To connect where there is no master keeps the bookkeeping. -/
theorem connectIfNone_fds : Keeps (Fds L) (fun _ => True) connectIfNone := by
  intro w h
  unfold connectIfNone
  rw [run_get_bind]
  rcases Decidable.em (w.masterFd = -1) with hm | hm
  · rw [if_pos hm]
    rcases h.1 with ⟨hidle, -⟩ | hup
    · exact Triple.discard connectToMaster_fds w ⟨hidle, h.2⟩
    · exact absurd hm hup.masterFd_ne
  · rw [if_neg hm]
    exact h

/-- **`readData`** keeps the bookkeeping: at the end of the file, and at an error, it calls
`closeFd`. -/
theorem readData_fds (fd : Int) (size : Nat) :
    Keeps (Fds L) (fun _ => True) (readData fd size) := by
  refine connectIfNone_fds.bind fun _ => Keeps.ite Keeps.pure (Keeps.bind ?_ fun got => ?_)
  · intro w h
    unfold sysRead
    rw [run_get_bind]
    rcases Decidable.em (fd ∈ w.fds) with hin | hin
    · rw [if_neg (not_not_intro hin)]
      cases w.outcomes.reads with
      | nil => trivial
      | cons r reads => cases r <;> exact h.same rfl rfl rfl rfl rfl rfl rfl h.2
    · rw [if_pos hin]
      exact h
  · cases got with
    | ok bs => exact Keeps.pure
    | error e => exact Keeps.ite Keeps.pure (keeps_closeFd.bind fun _ => Keeps.pure)

/-- **`writeData`** keeps the bookkeeping: at an error it calls `closeFd`. -/
theorem writeData_fds (fd : Int) (bs : Bytes) :
    Keeps (Fds L) (fun _ => True) (writeData fd bs) := by
  refine connectIfNone_fds.bind fun _ => Keeps.ite Keeps.pure (Keeps.get fun w => ?_)
  refine Keeps.ite (keeps_closeFd.bind fun _ => Keeps.pure) (Keeps.bind ?_ fun _ => ?_)
  · exact Keeps.modify fun v h => h.same rfl rfl rfl rfl rfl rfl rfl h.2
  · cases (sendAll w.outcomes.writes bs).2.1 with
    | all => exact Keeps.pure
    | waiting => exact Keeps.throw fun _ _ => trivial
    | failed => exact keeps_closeFd.bind fun _ => Keeps.pure

end Iceberg
