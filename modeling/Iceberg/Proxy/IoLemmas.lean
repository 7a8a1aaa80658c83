import Iceberg.Lib.Triple
import Iceberg.Proxy.EventLoop

/-!
# What reading and writing do to the proxy

While there is a master, `readData` and `writeData` make one attempt on their descriptor: the
equations of this module give the state they leave, outcome by outcome. Whatever the state
is, all that the callbacks do beyond reading, writing and accepting is to set fields that the
descriptors do not depend on; a predicate that stands this is kept by a callback when it is
kept by these three.
-/

namespace Iceberg

open Triples

namespace World

/-- The state after a `read`: the outcomes that are left. -/
def leftReads (w : World) (reads : List (Except Int (UInt8 × Bytes))) : World :=
  { w with outcomes := { w.outcomes with reads := reads } }

def log (w : World) (es : List Event) : World := { w with trace := w.trace ++ es }

/-- The state after the loop of `writeData`. -/
def sent (w : World) (fd : Int) (bs : Bytes) : World :=
  { w with
    outcomes := { w.outcomes with writes := (sendAll w.outcomes.writes bs).2.2 }
    trace := w.trace ++ (sendAll w.outcomes.writes bs).1.map (Event.wrote fd) }

/-- The state after a call that opens a descriptor: the outcomes that are left. -/
def leftOpens (w : World) (kind : Handler) (opens : List (Except Int Int)) : World :=
  { w with outcomes := { w.outcomes with opens := Function.update w.outcomes.opens kind opens } }

def opened (w : World) (fd : Int) : World :=
  { w with fds := fd :: w.fds, trace := w.trace ++ [.opened fd] }

/-- The state after an `epoll_ctl`: the outcomes that are left. -/
def leftCtls (w : World) (proc : Handler) (ctls : List Bool) : World :=
  { w with outcomes := { w.outcomes with ctls := Function.update w.outcomes.ctls proc ctls } }

def registered (w : World) (fd : Int) (proc : Handler) : World :=
  { w with
    epoll := if fd ∈ w.epoll then w.epoll else fd :: w.epoll
    events := Function.update w.events fd (some proc) }

end World

variable {w : World} {fd : Int}

/-! ## Opening and registering -/

/-- What a call that opens a descriptor has done when it returns. -/
theorem openFd_cases {kind : Handler} {w' : World} (h : openFd kind w = .ok fd w') :
    ∃ opens, (∀ o ∈ opens, o ∈ w.outcomes.opens kind)
      ∧ ((fd = -1 ∧ w' = w.leftOpens kind opens)
        ∨ (0 ≤ fd ∧ fd ∉ w.fds ∧ .ok fd ∈ w.outcomes.opens kind
          ∧ w' = (w.leftOpens kind opens).opened fd)) := by
  unfold openFd at h
  rw [run_get_bind] at h
  cases ho : w.outcomes.opens kind with
  | nil =>
    rw [ho] at h
    cases h
  | cons o opens =>
    rw [ho] at h
    refine ⟨opens, fun x hx => List.mem_cons_of_mem _ hx, ?_⟩
    cases o with
    -- no connection, or a new descriptor
    | error e =>
      obtain ⟨rfl, rfl⟩ := EStateM.Result.ok.inj h
      exact Or.inl ⟨rfl, rfl⟩
    | ok fd' =>
      simp only at h
      split at h
      · cases h
      · rename_i hfresh
        obtain ⟨rfl, rfl⟩ := EStateM.Result.ok.inj h
        exact Or.inr ⟨by omega, fun hmem => hfresh (Or.inr hmem), List.mem_cons_self, rfl⟩

/-- What `aeCreateFileEvent` has done when it returns. -/
theorem aeCreateFileEvent_cases {proc : Handler} {done : Bool} {w' : World}
    (h : aeCreateFileEvent fd proc w = .ok done w') :
    ∃ ctls, (∀ b ∈ ctls, b ∈ w.outcomes.ctls proc)
      ∧ ((done = true ∧ fd < 1024 ∧ w' = (w.leftCtls proc ctls).registered fd proc)
        ∨ (done = false ∧ w' = w.leftCtls proc ctls ∧ false ∈ w.outcomes.ctls proc)
        ∨ (done = false ∧ w' = w ∧ (1024 ≤ fd ∨ w.events fd ≠ none ∨ fd ∈ w.epoll))) := by
  unfold aeCreateFileEvent at h
  rw [run_get_bind] at h
  split at h
  · obtain ⟨rfl, rfl⟩ := EStateM.Result.ok.inj h
    -- a number too large for the table
    rename_i hlarge
    exact ⟨[], by simp, Or.inr (Or.inr ⟨rfl, rfl, Or.inl hlarge⟩)⟩
  split at h
  · obtain ⟨rfl, rfl⟩ := EStateM.Result.ok.inj h
    -- `epoll_ctl` adds a number that is watched, or modifies one that is not
    rename_i hclash
    refine ⟨[], by simp, Or.inr (Or.inr ⟨rfl, rfl, Or.inr ?_⟩)⟩
    rcases hclash with ⟨-, hwatched⟩ | ⟨hentry, -⟩
    · exact Or.inr hwatched
    · exact Or.inl hentry
  rename_i hsmall _
  cases hc : w.outcomes.ctls proc with
  | nil =>
    rw [hc] at h
    cases h
  | cons b ctls =>
    rw [hc] at h
    refine ⟨ctls, fun x hx => List.mem_cons_of_mem _ hx, ?_⟩
    cases b with
    | true =>
      obtain ⟨rfl, rfl⟩ := EStateM.Result.ok.inj h
      exact Or.inl ⟨rfl, by omega, rfl⟩
    | false =>
      obtain ⟨rfl, rfl⟩ := EStateM.Result.ok.inj h
      exact Or.inr (Or.inl ⟨rfl, rfl, List.mem_cons_self⟩)

/-- A call that waits changes nothing. -/
theorem openFd_stop {kind : Handler} {e : Stop} {w' : World} (h : openFd kind w = .error e w') :
    w' = w := by
  unfold openFd at h
  rw [run_get_bind] at h
  cases ho : w.outcomes.opens kind with
  | nil =>
    rw [ho] at h
    exact (EStateM.Result.error.inj h).2.symm
  | cons o opens =>
    rw [ho] at h
    cases o with
    | error e => cases h
    | ok fd =>
      simp only at h
      split at h
      · exact (EStateM.Result.error.inj h).2.symm
      · cases h

/-- A registration that waits changes nothing. -/
theorem aeCreateFileEvent_stop {proc : Handler} {e : Stop} {w' : World}
    (h : aeCreateFileEvent fd proc w = .error e w') : w' = w := by
  unfold aeCreateFileEvent at h
  rw [run_get_bind] at h
  split at h
  · cases h
  split at h
  · cases h
  cases hc : w.outcomes.ctls proc with
  | nil =>
    rw [hc] at h
    exact (EStateM.Result.error.inj h).2.symm
  | cons b ctls =>
    rw [hc] at h
    cases b <;> cases h

/-! ## Connecting changes little -/

/-- A descriptor is opened or closed. -/
def Event.Links : Event → Prop
  | .opened _ | .closed _ _ => True
  | _ => False

theorem reset_notMem_links {es : List Event} (h : ∀ e ∈ es, e.Links) : Event.reset ∉ es :=
  fun hmem => h _ hmem

/-- What opening, registering and closing a descriptor may change. -/
def Links (w w' : World) : Prop :=
  ∃ fds epoll events opens ctls es, (∀ e ∈ es, e.Links) ∧ w' = { w with
    fds := fds
    epoll := epoll
    events := events
    outcomes := { w.outcomes with opens := opens, ctls := ctls }
    trace := w.trace ++ es }

/-- What connecting to the master may change. -/
def Reconnects (w w' : World) : Prop :=
  ∃ masterFd listenFd u, Links w u ∧ w' = { u with masterFd := masterFd, listenFd := listenFd }

/-- What accepting a slave may change, unless it resets. The connection for the queries is
opened when there is none. -/
def Relinks (w w' : World) : Prop :=
  ∃ clientFd readFd u, Links w u ∧ (readFd = w.readFd ∨ w.readFd = -1)
    ∧ w' = { u with clientFd := clientFd, readFd := readFd }

theorem Links.refl (w : World) : Links w w :=
  ⟨w.fds, w.epoll, w.events, w.outcomes.opens, w.outcomes.ctls, [], by simp,
    by rw [List.append_nil]⟩

/-- The changes add up. -/
theorem Links.trans {w₁ w₂ w₃ : World} (h : Links w₁ w₂) (h' : Links w₂ w₃) : Links w₁ w₃ := by
  obtain ⟨_, _, _, _, _, es, hes, rfl⟩ := h
  obtain ⟨fds, epoll, events, opens, ctls, es', hes', rfl⟩ := h'
  refine ⟨fds, epoll, events, opens, ctls, es ++ es', ?_, ?_⟩
  · intro e he
    exact (List.mem_append.mp he).elim (hes e) (hes' e)
  · simp only [List.append_assoc]

theorem Links.close (w : World) (fd : Int) : Links w (w.close fd) :=
  ⟨_, _, w.events, w.outcomes.opens, w.outcomes.ctls, [.closed fd _],
    by simp [Event.Links], rfl⟩

/-- To open a descriptor changes no more than that. -/
theorem openFd_links {kind : Handler} {w' : World} (h : openFd kind w = .ok fd w') :
    Links w w' := by
  obtain ⟨opens, -, ⟨-, rfl⟩ | ⟨-, -, -, rfl⟩⟩ := openFd_cases h
  · exact ⟨w.fds, w.epoll, w.events, _, w.outcomes.ctls, [], by simp,
      by rw [List.append_nil]; rfl⟩
  · exact ⟨_, w.epoll, w.events, _, w.outcomes.ctls, [.opened fd], by simp [Event.Links], rfl⟩

/-- To register a descriptor changes no more than that. -/
theorem aeCreateFileEvent_links {proc : Handler} {done : Bool} {w' : World}
    (h : aeCreateFileEvent fd proc w = .ok done w') : Links w w' := by
  obtain ⟨ctls, -, ⟨-, -, rfl⟩ | ⟨-, rfl, -⟩ | ⟨-, rfl, -⟩⟩ := aeCreateFileEvent_cases h
  · exact ⟨w.fds, _, _, w.outcomes.opens, _, [], by simp, by rw [List.append_nil]; rfl⟩
  · exact ⟨w.fds, w.epoll, w.events, w.outcomes.opens, _, [], by simp,
      by rw [List.append_nil]; rfl⟩
  · exact .refl _

section Linking

variable {P : World → Prop} (hP : ∀ w w', P w → Links w w' → P w')

include hP

/-- The predicate survives a call that opens a descriptor. -/
theorem keeps_openFd (kind : Handler) : Keeps P P (openFd kind) := by
  intro w h
  cases hrun : openFd kind w with
  | ok fd w' => exact hP w w' h (openFd_links hrun)
  | error e w' =>
    obtain rfl := openFd_stop hrun
    exact h

/-- The predicate survives a registration. -/
theorem keeps_aeCreateFileEvent (fd : Int) (proc : Handler) :
    Keeps P P (aeCreateFileEvent fd proc) := by
  intro w h
  cases hrun : aeCreateFileEvent fd proc w with
  | ok done w' => exact hP w w' h (aeCreateFileEvent_links hrun)
  | error e w' =>
    obtain rfl := aeCreateFileEvent_stop hrun
    exact h

theorem keeps_close (fd : Int) : Keeps P P (modify (World.close · fd) : Proxy Unit) :=
  Keeps.modify fun w h => hP w _ h (.close w fd)

end Linking

theorem Reconnects.refl (w : World) : Reconnects w w := ⟨w.masterFd, w.listenFd, w, .refl w, rfl⟩

/-- The changes add up. -/
theorem Reconnects.trans {w₁ w₂ w₃ : World} (h : Reconnects w₁ w₂) (h' : Reconnects w₂ w₃) :
    Reconnects w₁ w₃ := by
  obtain ⟨_, _, u, hu, rfl⟩ := h
  obtain ⟨masterFd, listenFd, v, ⟨fds, epoll, events, opens, ctls, es, hes, rfl⟩, rfl⟩ := h'
  exact ⟨masterFd, listenFd, _, hu.trans ⟨fds, epoll, events, opens, ctls, es, hes, rfl⟩, rfl⟩

theorem Links.reconnects {w' : World} (h : Links w w') : Reconnects w w' :=
  ⟨w'.masterFd, w'.listenFd, w', h, rfl⟩

/-- The changes add up: a connection for the queries stays once it has been opened. -/
theorem Relinks.trans {w₁ w₂ w₃ : World} (h : Relinks w₁ w₂) (h' : Relinks w₂ w₃) :
    Relinks w₁ w₃ := by
  obtain ⟨_, r, u, hu, hr, rfl⟩ := h
  obtain ⟨clientFd, readFd, v, ⟨fds, epoll, events, opens, ctls, es, hes, rfl⟩, hr', rfl⟩ := h'
  refine ⟨clientFd, readFd, _, hu.trans ⟨fds, epoll, events, opens, ctls, es, hes, rfl⟩, ?_, rfl⟩
  have hr' : readFd = r ∨ r = -1 := hr'
  omega

theorem Links.relinks {w' : World} (h : Links w w') : Relinks w w' := by
  refine ⟨w'.clientFd, w'.readFd, w', h, Or.inl ?_, rfl⟩
  obtain ⟨_, _, _, _, _, _, -, rfl⟩ := h
  rfl

section Connecting

variable {P : World → Prop} (hP : ∀ w w', P w → Reconnects w w' → P w')

include hP

/-- The predicate survives `listenToPort`. -/
theorem keeps_listenToPort : Keeps P P listenToPort := by
  have hlinks : ∀ w w', P w → Links w w' → P w' := fun w w' h hl => hP w w' h hl.reconnects
  refine (keeps_openFd hlinks _).bind fun fd => Keeps.bind (Keeps.modify fun w h => ?_) fun _ => ?_
  · exact hP w _ h ⟨w.masterFd, fd, w, .refl w, rfl⟩
  · refine Keeps.ite ((keeps_aeCreateFileEvent hlinks _ _).bind fun done => ?_) Keeps.pure
    exact Keeps.ite Keeps.pure ((keeps_close hlinks _).bind fun _ => Keeps.pure)

/-- The predicate survives `connectToMaster`. -/
theorem keeps_connectToMaster : Keeps P P connectToMaster := by
  have hlinks : ∀ w w', P w → Links w w' → P w' := fun w w' h hl => hP w w' h hl.reconnects
  refine (keeps_openFd hlinks _).bind fun fd => Keeps.bind (Keeps.modify fun w h => ?_) fun _ => ?_
  · exact hP w _ h ⟨fd, w.listenFd, w, .refl w, rfl⟩
  · refine Keeps.ite ((keeps_aeCreateFileEvent hlinks _ _).bind fun done => ?_) Keeps.pure
    refine Keeps.ite ?_ ((keeps_close hlinks _).bind fun _ => Keeps.pure)
    exact (keeps_listenToPort hP).bind fun _ => Keeps.ite Keeps.pure (Keeps.throw fun _ h => h)

theorem keeps_connectIfNone : Keeps P P connectIfNone :=
  Keeps.get fun _ => Keeps.ite (keeps_connectToMaster hP).discard Keeps.pure

end Connecting

/-! ## The loop of `writeData` -/

/-- What has been written is a beginning of what was to be written, and all of it when the
loop ends so. -/
theorem sendAll_flatten (writes : List (Except Int Nat)) (bs : Bytes) :
    ∃ rest, (sendAll writes bs).1.flatten ++ rest = bs
      ∧ ((sendAll writes bs).2.1 = .all → rest = []) := by
  fun_induction sendAll writes bs with
  | case1 => exact ⟨[], rfl, fun _ => rfl⟩
  | case2 b bs => exact ⟨b :: bs, rfl, fun h => Sent.noConfusion h⟩
  | case3 e writes b bs hagain ih => exact ih
  | case4 e writes b bs hagain => exact ⟨b :: bs, rfl, fun h => Sent.noConfusion h⟩
  | case5 n writes b bs rest ih =>
    obtain ⟨left, hleft, hall⟩ := ih
    refine ⟨left, ?_, hall⟩
    rw [List.flatten_cons, List.append_assoc, hleft, List.take_append_drop]

/-- A loop that waits has not written everything. -/
theorem sendAll_waiting {writes : List (Except Int Nat)} {bs : Bytes}
    (h : (sendAll writes bs).2.1 = .waiting) :
    (sendAll writes bs).1.flatten.length < bs.length := by
  fun_induction sendAll writes bs with
  | case1 => cases h
  | case2 b bs => exact Nat.zero_lt_succ _
  | case3 e writes b bs hagain ih => exact ih h
  | case4 e writes b bs hagain => cases h
  | case5 n writes b bs rest ih =>
    have hrest := ih h
    rw [List.length_drop] at hrest
    show ((b :: bs).take (n + 1) :: (sendAll writes ((b :: bs).drop (n + 1))).1).flatten.length < _
    rw [List.flatten_cons, List.length_append, List.length_take]
    omega

/-! ## With a master -/

/-- The timer only counts. -/
theorem timeEvent_up (hm : w.masterFd ≠ -1) :
    timeEvent w = .ok ⟨⟩ { w with cronloops := w.cronloops + 1 } := by
  unfold timeEvent
  rewrite [run_get_bind, if_neg fun hc => hm hc.2]
  rfl

theorem connectIfNone_live (hm : w.masterFd ≠ -1) : connectIfNone w = .ok ⟨⟩ w := by
  simp [connectIfNone, hm]

/-- A `read` of an open descriptor, by its outcome. -/
theorem sysRead_open {size : Nat} (hin : fd ∈ w.fds) :
    sysRead fd size w = match w.outcomes.reads with
      | [] => .error .reading w
      | .error e :: reads => .ok (.error e) (w.leftReads reads)
      | .ok (b, bs) :: reads => .ok (.ok ((b :: bs).take size))
          ((w.leftReads reads).log [.read fd ((b :: bs).take size)]) := by
  unfold sysRead
  rw [run_get_bind, if_neg (not_not_intro hin)]
  cases w.outcomes.reads with
  | nil => rfl
  | cons r reads => cases r <;> rfl

/-- `readData` on an open descriptor. -/
theorem readData_open {size : Nat} (hm : w.masterFd ≠ -1) (hfd : fd ≠ -1) (hin : fd ∈ w.fds) :
    readData fd size w = match w.outcomes.reads with
      | [] => .error .reading w
      | .error e :: reads =>
        if again e then .ok (some []) (w.leftReads reads)
        else .ok none (w.leftReads reads).closeFd
      | .ok (b, bs) :: reads => .ok (some ((b :: bs).take size))
          ((w.leftReads reads).log [.read fd ((b :: bs).take size)]) := by
  have hread := @sysRead_open w fd size hin
  unfold readData
  rw [run_bind_ok (connectIfNone_live hm), if_neg hfd]
  cases hr : w.outcomes.reads with
  | nil =>
    rw [hr] at hread
    exact run_bind_error hread
  | cons r reads =>
    rw [hr] at hread
    cases r with
    | error e =>
      rw [run_bind_ok hread]
      simp only
      split <;> rfl
    | ok b =>
      rw [run_bind_ok hread]
      rfl

/-- On a descriptor that is not open, `read` fails. -/
theorem readData_closed {size : Nat} (hm : w.masterFd ≠ -1) (hfd : fd ≠ -1) (hin : fd ∉ w.fds) :
    readData fd size w = .ok none w.closeFd := by
  have hread : sysRead fd size w = .ok (.error ebadf) w := by
    unfold sysRead
    rewrite [run_get_bind, if_pos hin]
    rfl
  unfold readData
  rw [run_bind_ok (connectIfNone_live hm), if_neg hfd, run_bind_ok hread]
  rfl

/-- `readData` from `-1` returns at once. -/
theorem readData_none {size : Nat} (hm : w.masterFd ≠ -1) :
    readData (-1) size w = .ok none w := by
  unfold readData
  rewrite [run_bind_ok (connectIfNone_live hm), if_pos rfl]
  rfl

/-- `writeData` on an open descriptor. -/
theorem writeData_open {bs : Bytes} (hm : w.masterFd ≠ -1) (hfd : fd ≠ -1) (hin : fd ∈ w.fds) :
    writeData fd bs w = match (sendAll w.outcomes.writes bs).2.1 with
      | .all => .ok true (w.sent fd bs)
      | .waiting => .error .writing (w.sent fd bs)
      | .failed => .ok false (w.sent fd bs).closeFd := by
  unfold writeData
  rewrite [run_bind_ok (connectIfNone_live hm), if_neg hfd, run_get_bind,
    if_neg (not_not_intro hin), run_modify_bind]
  cases (sendAll w.outcomes.writes bs).2.1 <;> rfl

/-- `writeData` to `-1` fails at once. -/
theorem writeData_none {bs : Bytes} (hm : w.masterFd ≠ -1) :
    writeData (-1) bs w = .ok false w := by
  unfold writeData
  rewrite [run_bind_ok (connectIfNone_live hm), if_pos rfl]
  rfl

/-- How `writeData` ends when there is a master. -/
theorem writeData_up {bs : Bytes} (hm : w.masterFd ≠ -1) :
    (∃ w', writeData fd bs w = .ok false w'
      ∧ (w' = w ∨ w' = w.closeFd ∨ w' = (w.sent fd bs).closeFd))
    ∨ (fd ≠ -1 ∧ (sendAll w.outcomes.writes bs).1.flatten = bs
        ∧ writeData fd bs w = .ok true (w.sent fd bs))
    ∨ (fd ≠ -1 ∧ (sendAll w.outcomes.writes bs).1.flatten <+: bs
        ∧ (sendAll w.outcomes.writes bs).1.flatten ≠ bs
        ∧ writeData fd bs w = .error .writing (w.sent fd bs)) := by
  rcases Decidable.em (fd = -1) with rfl | hfd
  · exact Or.inl ⟨w, writeData_none hm, Or.inl rfl⟩
  rcases Decidable.em (fd ∈ w.fds) with hin | hin
  · -- an open descriptor: all, a part, or an error
    have hwrite := @writeData_open w fd bs hm hfd hin
    obtain ⟨rest, hrest, hall⟩ := sendAll_flatten w.outcomes.writes bs
    cases hsent : (sendAll w.outcomes.writes bs).2.1 with
    | all =>
      rw [hsent] at hwrite
      rw [hall hsent, List.append_nil] at hrest
      exact Or.inr (Or.inl ⟨hfd, hrest, hwrite⟩)
    | waiting =>
      rw [hsent] at hwrite
      have hless := sendAll_waiting hsent
      refine Or.inr (Or.inr ⟨hfd, ⟨rest, hrest⟩, ?_, hwrite⟩)
      intro heq
      rw [heq] at hless
      omega
    | failed =>
      rw [hsent] at hwrite
      exact Or.inl ⟨_, hwrite, Or.inr (Or.inr rfl)⟩
  · -- a closed one: `write` fails at once
    refine Or.inl ⟨w.closeFd, ?_, Or.inr (Or.inl rfl)⟩
    unfold writeData
    rewrite [run_bind_ok (connectIfNone_live hm), if_neg hfd, run_get_bind, if_pos hin]
    rfl

/-- What the first `read` of a callback gets. -/
def Outcomes.chunk (o : Outcomes) : Bytes :=
  match o.reads with
  | .ok (b, bs) :: _ => (b :: bs).take maxRead
  | _ => []

/-- A read gets no more than the buffer holds. -/
theorem Outcomes.length_chunk (o : Outcomes) : o.chunk.length ≤ maxRead := by
  unfold Outcomes.chunk
  split
  · rw [List.length_take]
    exact Nat.min_le_left _ _
  · exact Nat.zero_le _

/-- What comes behind a `readData` on an open descriptor. -/
theorem readData_bind {α : Type} {size : Nat} {k : Option Bytes → Proxy α}
    (hm : w.masterFd ≠ -1) (hfd : fd ≠ -1) (hin : fd ∈ w.fds) :
    (readData fd size >>= k) w = match w.outcomes.reads with
      | [] => .error .reading w
      | .error e :: reads =>
        if again e then k (some []) (w.leftReads reads) else k none (w.leftReads reads).closeFd
      | .ok (b, bs) :: reads => k (some ((b :: bs).take size))
          ((w.leftReads reads).log [.read fd ((b :: bs).take size)]) := by
  have hread := @readData_open w fd size hm hfd hin
  cases hr : w.outcomes.reads with
  | nil =>
    simp only [hr] at hread
    exact run_bind_error hread
  | cons r reads =>
    cases r with
    | error e =>
      simp only [hr] at hread
      simp only
      split at hread
      · rw [run_bind_ok hread, if_pos ‹_›]
      · rw [run_bind_ok hread, if_neg ‹_›]
    | ok got =>
      simp only [hr] at hread
      exact run_bind_ok hread

/-- What comes behind a `writeData` on an open descriptor. -/
theorem writeData_bind {α : Type} {bs : Bytes} {k : Bool → Proxy α} (hm : w.masterFd ≠ -1)
    (hfd : fd ≠ -1) (hin : fd ∈ w.fds) :
    (writeData fd bs >>= k) w = match (sendAll w.outcomes.writes bs).2.1 with
      | .all => k true (w.sent fd bs)
      | .waiting => .error .writing (w.sent fd bs)
      | .failed => k false (w.sent fd bs).closeFd := by
  have hwrite := @writeData_open w fd bs hm hfd hin
  cases hsent : (sendAll w.outcomes.writes bs).2.1 with
  | all =>
    simp only [hsent] at hwrite
    exact run_bind_ok hwrite
  | waiting =>
    simp only [hsent] at hwrite
    exact run_bind_error hwrite
  | failed =>
    simp only [hsent] at hwrite
    exact run_bind_ok hwrite

/-- `defaultCase` reads at most once. -/
theorem defaultCase_open (hm : w.masterFd ≠ -1) (hfd : fd ≠ -1) (hin : fd ∈ w.fds) :
    defaultCase fd w = match w.outcomes.reads with
      | [] => .error .reading w
      | .error e :: reads =>
        if again e then .ok ⟨⟩ (w.leftReads reads) else .ok ⟨⟩ (w.leftReads reads).closeFd
      | .ok (b, bs) :: reads => handleChunk ⟨(b :: bs).take maxRead, w.outcomes.around⟩
          ((w.leftReads reads).log [.read fd ((b :: bs).take maxRead)]) := by
  unfold defaultCase
  rewrite [readData_bind hm hfd hin]
  cases w.outcomes.reads with
  | nil => rfl
  | cons r reads => cases r <;> rfl

/-- **`readFromSlave`** for an open descriptor, by the outcome of its `read`. -/
theorem readFromSlave_open (hm : w.masterFd ≠ -1) (hfd : fd ≠ -1) (hin : fd ∈ w.fds) :
    readFromSlave fd w = match w.outcomes.reads with
      | [] => .error .reading w
      | .error e :: reads =>
        if again e then .ok ⟨⟩ (w.leftReads reads) else .ok ⟨⟩ (w.leftReads reads).closeFd
      | .ok (b, bs) :: reads => passOn ((b :: bs).take maxRead)
          ((w.leftReads reads).log [.read fd ((b :: bs).take maxRead)]) := by
  unfold readFromSlave
  rewrite [readData_bind hm hfd hin]
  cases w.outcomes.reads with
  | nil => rfl
  | cons r reads => cases r <;> rfl

/-- **`readDelValue`** for an open descriptor, by the outcome of its `read`. -/
theorem readDelValue_open (hm : w.masterFd ≠ -1) (hfd : fd ≠ -1) (hin : fd ∈ w.fds) :
    readDelValue fd w = match w.outcomes.reads with
      | [] => .error .reading w
      | .error e :: reads =>
        if again e then .ok ⟨⟩ (w.leftReads reads) else .ok ⟨⟩ (w.leftReads reads).closeFd
      | .ok (b, bs) :: reads =>
        let parsed := w.answers.parseReadData ⟨(b :: bs).take maxRead, w.outcomes.around⟩
        finish parsed.2 { (w.leftReads reads).log [.read fd ((b :: bs).take maxRead)] with
          answers := parsed.1 } := by
  unfold readDelValue
  rewrite [readData_bind hm hfd hin]
  cases w.outcomes.reads with
  | nil => rfl
  | cons r reads => cases r <;> rfl

theorem examine_running {data : WData} (h : w.state = .running) :
    examine data w = processInputBuffer data w := by
  unfold examine
  rw [run_get_bind, if_pos h]

/-- In the other states a chunk is only looked at for the beginning of a transfer. -/
theorem examine_other {data : WData} (h : w.state ≠ .running) :
    examine data w = .ok ⟨⟩ (if startsSync data then { w with state := .syncStart } else w) := by
  unfold examine
  rw [run_get_bind, if_neg h]
  split <;> rfl

/-- The state behind a query whose line was written. -/
def World.queried (w : World) (place : Int) (key : Key) : World :=
  { w.sent w.readFd (Scan.queryCmd key) with
    answers := { w.answers with q := w.answers.q.push key }
    asked := w.asked ++ [key]
    trace := (w.sent w.readFd (Scan.queryCmd key)).trace ++ [.asked place key] }

/-- What `queryKey` does while there is a master. -/
theorem queryKey_open {place : Int} {key : Key} (hm : w.masterFd ≠ -1) (hr : w.readFd ≠ -1)
    (hin : w.readFd ∈ w.fds) :
    queryKey place key w =
      if w.answers.q.isFull then .ok ⟨⟩ w
      else match (sendAll w.outcomes.writes (Scan.queryCmd key)).2.1 with
        | .all => .ok ⟨⟩ (w.queried place key)
        | .waiting => .error .writing (w.sent w.readFd (Scan.queryCmd key))
        | .failed => .ok ⟨⟩ (w.sent w.readFd (Scan.queryCmd key)).closeFd := by
  unfold queryKey
  rw [run_get_bind]
  split
  · rfl
  · rewrite [writeData_bind hm hr hin]
    cases (sendAll w.outcomes.writes (Scan.queryCmd key)).2.1 <;> rfl

/-- Without a descriptor for the queries nothing is asked. -/
theorem queryKey_none {place : Int} {key : Key} (hm : w.masterFd ≠ -1) (hr : w.readFd = -1) :
    queryKey place key w = .ok ⟨⟩ w := by
  unfold queryKey
  rw [run_get_bind]
  split
  · rfl
  · rw [hr]
    rewrite [run_bind_ok (writeData_none hm), if_neg (by decide)]
    rfl

/-! ## What the callbacks keep -/

/-- The predicate does not depend on the fields that the callbacks set besides those of the
scanner. -/
def Settable (I : World → Prop) : Prop :=
  ∀ w state bulkSize answers cronloops fired, I w →
    I { w with
        state := state
        bulkSize := bulkSize
        answers := answers
        cronloops := cronloops
        fired := fired }

/-- The predicate does not depend on how far the synchronisation is. -/
def Stateless (I : World → Prop) : Prop :=
  ∀ w state bulkSize, I w → I { w with state := state, bulkSize := bulkSize }

theorem Settable.stateless {I : World → Prop} (hI : Settable I) : Stateless I :=
  fun w state bulkSize h => hI w state bulkSize w.answers w.cronloops w.fired h

/-- The predicate does not depend on what a scan leaves behind and records. -/
def Scannable (I : World → Prop) : Prop :=
  ∀ w buf answers asked es, (es = [] ∨ ∃ place key, es = [.asked place key]) → I w →
    I { w with
        bufMasterCmd := buf
        answers := answers
        asked := asked
        trace := w.trace ++ es }

/-- The predicate does not depend on the fields that the callbacks set by themselves, and
stands more events. -/
structure Stable (I : World → Prop) : Prop where
  set : ∀ w state bulkSize buf answers cronloops fired seen asked es, I w →
    I { w with
        state := state
        bulkSize := bulkSize
        bufMasterCmd := buf
        answers := answers
        cronloops := cronloops
        fired := fired
        seen := seen
        asked := asked
        trace := w.trace ++ es }

theorem Stable.settable {I : World → Prop} (hI : Stable I) : Settable I := by
  intro w state bulkSize answers cronloops fired h
  have := hI.set w state bulkSize w.bufMasterCmd answers cronloops fired w.seen w.asked [] h
  rwa [List.append_nil] at this

theorem Stable.scannable {I : World → Prop} (hI : Stable I) : Scannable I := by
  intro w buf answers asked es _ h
  exact hI.set w w.state w.bulkSize buf answers w.cronloops w.fired w.seen asked es h

/-- The predicate stands a write to the descriptor that `target` is at that time. -/
def Sends (I J : World → Prop) (target : World → Int) : Prop :=
  ∀ w bs, Triple (fun v => w = v ∧ I v) (writeData (target w) bs) (fun _ => I) (fun _ => J)

section Keeping

variable {I J : World → Prop}

theorem Sends.of_keeps (h : ∀ fd bs, Keeps I J (writeData fd bs)) (target : World → Int) :
    Sends I J target := fun w bs => (h (target w) bs).pre fun _ hv => hv.2

theorem keeps_setState (hI : Stateless I) (state : State) :
    Keeps I J (modify fun w => { w with state := state } : Proxy Unit) :=
  Keeps.modify fun w h => hI w state w.bulkSize h

variable (hJ : ∀ w, I w → J w)

include hJ

theorem keeps_finish (e : Parser.End) : Keeps I J (finish e) := by
  cases e with
  | done | unexpected => exact Keeps.pure
  | exit | crash | hang => exact Keeps.throw hJ

variable (hwrite : ∀ fd bs, Keeps I J (writeData fd bs))

include hwrite

omit hJ in
/-- **`queryKey`**, if the write of the line keeps the predicate. -/
theorem keeps_queryKey (hI : Scannable I) (place : Int) (key : Key) :
    Keeps I J (queryKey place key) := by
  refine Keeps.get fun w => Keeps.ite Keeps.pure ((hwrite _ _).bind fun done => ?_)
  refine Keeps.ite (Keeps.modify fun w h => ?_) Keeps.pure
  exact hI w w.bufMasterCmd _ _ _ (Or.inr ⟨place, key, rfl⟩) h

omit hJ hwrite in
/-- **The acts of a scan**, one after the other. Induction on them. -/
theorem keeps_performScan (hquery : ∀ place key, Keeps I J (queryKey place key))
    (hsave : ∀ w buf, I w → I { w with bufMasterCmd := buf }) (base : Int)
    (acts : List Scan.Act) : Keeps I J (performScan base acts) := by
  induction acts with
  | nil => exact Keeps.pure
  | cons act acts ih =>
    cases act with
    | query start key => exact (hquery _ _).bind fun _ => ih
    | save buf => exact Keeps.bind (Keeps.modify fun w h => hsave w buf h) fun _ => ih

omit hwrite in
/-- A predicate that stands every query stands a scan. -/
theorem keeps_scan (hquery : ∀ place key, Keeps I J (queryKey place key))
    (hsave : ∀ w buf, I w → I { w with bufMasterCmd := buf }) (data : WData)
    (hstart : ∀ w, I w → I { w with
      bufMasterCmd := []
      seen := w.seen + data.data.length
      trace := w.trace ++ [.scanned data.data] }) : Keeps I J (processInputBuffer data) := by
  refine Keeps.get fun w => (Keeps.modify hstart).bind fun _ => ?_
  exact (keeps_performScan hquery hsave _ _).bind fun _ => keeps_finish hJ _

/-- **`processInputBuffer`**, for a stable predicate. -/
theorem keeps_processInputBuffer (hI : Stable I) (data : WData) :
    Keeps I J (processInputBuffer data) := by
  refine keeps_scan hJ (keeps_queryKey hwrite hI.scannable) (fun w buf h => ?_) data fun w h => ?_
  · have := hI.scannable w buf w.answers w.asked [] (Or.inl rfl) h
    rwa [List.append_nil] at this
  · exact hI.set w w.state w.bulkSize [] w.answers w.cronloops w.fired _ w.asked _ h

end Keeping

section Callbacks

variable {I J : World → Prop} (hJ : ∀ w, I w → J w)

theorem keeps_passOn (hmaster : Sends I J World.masterFd) (hI : Stateless I) (bs : Bytes) :
    Keeps I J (passOn bs) := by
  refine Keeps.bind ?_ fun _ => Triple.bind Triple.get fun w => (hmaster w _).discard
  exact Keeps.ite (keeps_setState hI .syncStart) Keeps.pure

section Reading

variable {fd : Int} (hread : ∀ size, Keeps I J (readData fd size))

include hread

/-- **`readFromSlave`**, if the write to the master keeps the predicate. -/
theorem keeps_readFromSlave (hmaster : Sends I J World.masterFd) (hI : Stateless I) :
    Keeps I J (readFromSlave fd) := by
  refine (hread maxRead).bind fun got => ?_
  rcases got with _ | ⟨_ | ⟨b, bs⟩⟩
  · exact Keeps.pure
  · exact Keeps.pure
  · exact keeps_passOn hmaster hI _

include hJ in
/-- **`readDelValue`** sets the answers only. -/
theorem keeps_readDelValue (hI : Settable I) : Keeps I J (readDelValue fd) := by
  refine (hread maxRead).bind fun got => ?_
  rcases got with _ | ⟨_ | ⟨b, bs⟩⟩
  · exact Keeps.pure
  · exact Keeps.pure
  · refine Keeps.get fun w => (Keeps.modify fun v h => ?_).bind fun _ => keeps_finish hJ _
    exact hI v v.state v.bulkSize _ v.cronloops v.fired h

end Reading

variable (hclient : Sends I J World.clientFd)

include hclient

/-- **A chunk of the master** is passed on and then scanned or looked at. -/
theorem keeps_handleChunk (hI : Stateless I) {data : WData}
    (hscan : Keeps I J (processInputBuffer data)) : Keeps I J (handleChunk data) := by
  refine Keeps.bind (Keeps.get fun w => ?_) fun _ =>
    Triple.bind Triple.get fun w => (hclient w _).discard
  exact Keeps.ite hscan (Keeps.ite (keeps_setState hI .syncStart) Keeps.pure)

variable {fd : Int} (hread : ∀ size, Keeps I J (readData fd size))

include hread

/-- The case for all states but the two of a transfer. -/
theorem keeps_defaultCase (hI : Stateless I)
    (hscan : ∀ data, Keeps I J (processInputBuffer data)) : Keeps I J (defaultCase fd) := by
  refine (hread maxRead).bind fun got => ?_
  rcases got with _ | ⟨_ | ⟨b, bs⟩⟩
  · exact Keeps.pure
  · exact Keeps.pure
  · exact Keeps.get fun w => keeps_handleChunk hclient hI (hscan _)

include hJ

/-- **The loop over the header**, which reads byte by byte. Induction on its rounds. -/
theorem keeps_syncHeader (fuel : Nat) (line : Bytes) : Keeps I J (syncHeader fd fuel line) := by
  induction fuel generalizing line with
  | zero => exact Keeps.throw hJ
  | succ fuel ih =>
    refine (hread 1).bind fun got => ?_
    rcases got with _ | ⟨_ | ⟨b, bs⟩⟩
    · exact Keeps.pure
    · exact ih line
    · refine Keeps.ite (Keeps.throw hJ) (Triple.bind Triple.get fun w =>
        Triple.bind (hclient w _) fun done => ?_)
      exact Keeps.ite (Keeps.ite (Keeps.ite Keeps.pure (ih line)) (ih _)) Keeps.pure

/-- The case for the header. -/
theorem keeps_syncStartCase (hI : Stateless I) : Keeps I J (syncStartCase fd) := by
  refine Keeps.get fun w => (keeps_syncHeader hJ hclient hread _ []).bind fun line => ?_
  cases line with
  | none => exact Keeps.pure
  | some line =>
    refine Keeps.ite (Keeps.throw hJ) (Keeps.modify fun w h => ?_)
    exact hI w .sync _ h

/-- **The loop over the payload.** Induction on its rounds. -/
theorem keeps_syncPayload (hI : Stateless I) (fuel : Nat) : Keeps I J (syncPayload fd fuel) := by
  induction fuel with
  | zero => exact Keeps.throw hJ
  | succ fuel ih =>
    refine Keeps.get fun w => Keeps.ite (keeps_setState hI .running) ((hread _).bind fun got => ?_)
    rcases got with _ | ⟨_ | ⟨b, bs⟩⟩
    · exact Keeps.pure
    · exact ih
    · refine Keeps.ite (Keeps.throw hJ) (Triple.bind Triple.get fun w =>
        Triple.bind (hclient w _) fun done => ?_)
      refine Keeps.ite ((Keeps.modify fun w h => ?_).bind fun _ => ih) Keeps.pure
      exact hI w w.state _ h

/-- **`readFromMaster`**, with one case for each state. -/
theorem keeps_readFromMaster (hI : Stateless I)
    (hscan : ∀ data, Keeps I J (processInputBuffer data)) : Keeps I J (readFromMaster fd) := by
  refine Keeps.get fun w => ?_
  cases w.state with
  | syncStart => exact keeps_syncStartCase hJ hclient hread hI
  | sync => exact Keeps.get fun w => keeps_syncPayload hJ hclient hread hI _
  | start => exact keeps_defaultCase hclient hread hI hscan
  | running => exact keeps_defaultCase hclient hread hI hscan

end Callbacks

/-! ## Predicates that stand the system calls -/

theorem connectToMaster_reconnects (w : World) :
    Triple (· = w) connectToMaster (fun _ => Reconnects w) (fun _ => Reconnects w) :=
  Triple.pre (keeps_connectToMaster fun _ _ h hr => h.trans hr) fun _ hv => hv ▸ .refl w

/-- The predicate stands the calls of `closeFd` and `connectToMaster`. Reading and writing are
not part of it. -/
structure Enduring (I : World → Prop) : Prop where
  reconnects : ∀ w w', I w → w.masterFd = -1 → Reconnects w w' → I w'
  leftReads : ∀ w reads, I w → I (w.leftReads reads)
  closeFd : ∀ w, I w → I w.closeFd

/-- The predicate stands the calls of `closeFd`, `connectToMaster` and `acceptTcpHandler`, and
the writes. Reading is not part of it. -/
structure Robust (I : World → Prop) : Prop where
  reconnects : ∀ w w', I w → w.masterFd = -1 → Reconnects w w' → I w'
  relinks : ∀ w w', I w → Relinks w w' → I w'
  leftReads : ∀ w reads, I w → I (w.leftReads reads)
  sent : ∀ w fd bs, I w → I (w.sent fd bs)
  closeFd : ∀ w, I w → I w.closeFd

namespace Enduring

variable {I : World → Prop} (hI : Enduring I)

include hI

theorem keeps_closeFd : Keeps I I (modify World.closeFd : Proxy Unit) :=
  Keeps.modify hI.closeFd

/-- **`connectToMaster`** is called where there is no master. -/
theorem keeps_connectToMaster (hm : w.masterFd = -1) :
    Triple (fun v => v = w ∧ I w) connectToMaster (fun _ => I) (fun _ => I) := by
  rintro v ⟨rfl, h⟩
  exact (connectToMaster_reconnects v).conseq (fun _ => id)
    (fun _ v' hr => hI.reconnects v v' h hm hr) (fun _ v' hr => hI.reconnects v v' h hm hr) v rfl

/-- A master is connected where there is none. -/
theorem keeps_connectIfNone : Keeps I I connectIfNone := by
  intro w h
  unfold connectIfNone
  rw [run_get_bind]
  rcases Decidable.em (w.masterFd = -1) with hm | hm
  · rw [if_pos hm]
    exact Triple.discard (hI.keeps_connectToMaster hm) w ⟨rfl, h⟩
  · rw [if_neg hm]
    exact h

/-- **`readData`**, if the predicate stands the bytes that are read. -/
theorem keeps_readData (hfd : ∀ w bs, I w → I (w.log [.read fd bs])) (size : Nat) :
    Keeps I I (readData fd size) := by
  refine hI.keeps_connectIfNone.bind fun _ => Keeps.ite Keeps.pure (Keeps.bind ?_ fun got => ?_)
  · intro w h
    unfold sysRead
    rw [run_get_bind]
    rcases Decidable.em (fd ∈ w.fds) with hin | hin
    · rw [if_neg (not_not_intro hin)]
      cases w.outcomes.reads with
      | nil => exact h
      | cons r reads =>
        cases r with
        | error e => exact hI.leftReads w reads h
        | ok b => exact hfd _ _ (hI.leftReads w reads h)
    · rw [if_pos hin]
      exact h
  · cases got with
    | ok bs => exact Keeps.pure
    | error e => exact Keeps.ite Keeps.pure (hI.keeps_closeFd.bind fun _ => Keeps.pure)

/-- **`writeData`**, if the predicate stands the bytes that are written. -/
theorem keeps_writeData {bs : Bytes} (hfd : ∀ w, I w → I (w.sent fd bs)) :
    Keeps I I (writeData fd bs) := by
  refine hI.keeps_connectIfNone.bind fun _ => Keeps.ite Keeps.pure ?_
  intro w h
  rw [run_get_bind]
  rcases Decidable.em (fd ∈ w.fds) with hin | hin
  · rw [if_neg (not_not_intro hin), run_modify_bind]
    have hsent := hfd w h
    cases (sendAll w.outcomes.writes bs).2.1 with
    | all => exact hsent
    | waiting => exact hsent
    | failed => exact hI.closeFd _ hsent
  · rw [if_pos hin]
    exact hI.closeFd w h

/-- Without a descriptor nothing is written. -/
theorem keeps_writeData_none (bs : Bytes) :
    Triple I (writeData (-1) bs) (fun done w => I w ∧ done = false) (fun _ => I) := by
  refine Triple.bind hI.keeps_connectIfNone fun _ => Triple.ite (fun _ => ?_) fun hne => ?_
  · exact Triple.pure fun _ h => ⟨h, rfl⟩
  · exact absurd rfl hne

/-- **`timeEvent`** counts, and connects where there is no master. -/
theorem keeps_timeEvent (hset : ∀ w n, I w → I { w with cronloops := n }) :
    Keeps I I timeEvent := by
  have hlast : Keeps I I (modify fun w => { w with cronloops := w.cronloops + 1 } : Proxy Unit) :=
    Keeps.modify fun w h => hset w _ h
  intro w h
  unfold timeEvent
  rw [run_get_bind]
  rcases Decidable.em (w.cronloops % 10 = 0 ∧ w.masterFd = -1) with hc | hc
  · rw [if_pos hc]
    exact Triple.bind (hI.keeps_connectToMaster hc.2).discard (fun _ => hlast) w ⟨rfl, h⟩
  · rw [if_neg hc]
    exact hlast w h

end Enduring

namespace Robust

variable {I : World → Prop} (hI : Robust I)

include hI

theorem enduring : Enduring I := ⟨hI.reconnects, hI.leftReads, hI.closeFd⟩

/-- **`writeData`** to any descriptor. -/
theorem keeps_writeData (fd : Int) (bs : Bytes) : Keeps I I (writeData fd bs) :=
  hI.enduring.keeps_writeData fun w => hI.sent w fd bs

/-- **`readDataFromSlave`**: where there is no connection for the queries, one is opened and
registered, or everything is closed. -/
theorem keeps_readDataFromSlave (fd : Int) : Keeps I I (readDataFromSlave fd) := by
  have hlinks : ∀ w w', I w → Links w w' → I w' := fun w w' h hl => hI.relinks w w' h hl.relinks
  refine Keeps.ite ((keeps_aeCreateFileEvent hlinks fd _).bind fun done => ?_) Keeps.pure
  refine Keeps.ite ?_ hI.enduring.keeps_closeFd
  intro w h
  rw [run_get_bind]
  rcases Decidable.em (w.readFd = -1) with hnone | hsome
  · -- the connection for the queries is opened
    have hopen : Keeps (fun v => I v ∧ v.readFd = -1) (fun v => I v ∧ v.readFd = -1)
        (openFd .readDelValue) := by
      refine keeps_openFd ?_ _
      intro v v' hv hl
      refine ⟨hlinks v v' hv.1 hl, ?_⟩
      obtain ⟨_, _, _, _, _, _, -, rfl⟩ := hl
      exact hv.2
    rw [if_pos hnone]
    refine Triple.bind (hopen.conseq (fun _ => id) (fun _ _ => id) fun _ _ h => h.1)
      (fun readFd => Triple.bind (R := fun _ => I) (Triple.modify ?_) fun _ => ?_) w ⟨h, hnone⟩
    · intro v hv
      exact hI.relinks v _ hv.1 ⟨v.clientFd, readFd, v, .refl v, Or.inr hv.2, rfl⟩
    · exact Keeps.ite hI.enduring.keeps_closeFd
        ((keeps_aeCreateFileEvent hlinks _ _).bind fun done =>
          Keeps.ite Keeps.pure hI.enduring.keeps_closeFd)
  · rw [if_neg hsome]
    exact h

/-- **`acceptTcpHandler`** closes the old slave and registers the new one, whatever comes of
it. -/
theorem keeps_acceptTcpHandler : Keeps I I acceptTcpHandler := by
  have hlinks : ∀ w w', I w → Links w w' → I w' := fun w w' h hl => hI.relinks w w' h hl.relinks
  have hopen : Keeps I I (do
      let fd ← openFd .readFromSlave
      if fd = -1 then throw .crash
      else
        modify fun w => { w with clientFd := fd }
        readDataFromSlave fd) := by
    refine (keeps_openFd hlinks _).bind fun fd => Keeps.ite (Keeps.throw fun _ h => h) ?_
    refine Keeps.bind (Keeps.modify fun w h => ?_) fun _ => hI.keeps_readDataFromSlave fd
    exact hI.relinks w _ h ⟨fd, w.readFd, w, .refl w, Or.inl rfl, rfl⟩
  refine Keeps.get fun v => Keeps.ite (Keeps.ite ?_ hopen) Keeps.pure
  exact (keeps_close hlinks _).bind fun _ => hopen

end Robust

end Iceberg
