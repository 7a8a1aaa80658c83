import Iceberg.Proxy.Payload

/-!
# When the peer has closed

A `read` that returns `0` leaves `errno` as it was, and `readData` takes the `errno` of some
earlier call for the reason. If that call was to be made again, the end of the file is not
noticed: `readData` returns `0`, and the loops of a synchronisation read once more.
-/

namespace Iceberg

open Triples

variable {m c fd e : Int} {line : Bytes} {w u v : World}

/-- **`readData` resets at the end of the file** unless the `errno` that is left over says to
try again. -/
theorem readData_closed_iff {size : Nat} {reads : List (Except Int (UInt8 × Bytes))}
    (hconnect : connectIfNone w = .ok ⟨⟩ v) (hfd : fd ≠ -1) (hopen : fd ∈ v.fds)
    (hreads : v.outcomes.reads = .error e :: reads) :
    readData fd size w = .ok none (v.leftReads reads).closeFd ↔ again e = false := by
  have hread := @sysRead_open v fd size hopen
  rw [hreads] at hread
  unfold readData
  rw [run_bind_ok hconnect, if_neg hfd, run_bind_ok hread]
  cases hagain : again e with
  | false =>
    simp only [hagain, Bool.false_eq_true, if_false, iff_true]
    rfl
  | true =>
    simp only [hagain, if_true, Bool.true_eq_false, iff_false]
    intro h
    cases h

/-! ## Going on with more reads -/

/-- The same state with more outcomes of `read` behind the ones that are there. -/
def World.more (w : World) (rs : List (Except Int (UInt8 × Bytes))) : World :=
  w.leftReads (w.outcomes.reads ++ rs)

theorem World.more_of_nil {rs : List (Except Int (UInt8 × Bytes))} (h : w.outcomes.reads = []) :
    w.more rs = w.leftReads rs := by
  rw [World.more, h, List.nil_append]

theorem World.leftReads_self {reads : List (Except Int (UInt8 × Bytes))}
    (h : w.outcomes.reads = reads) : w.leftReads reads = w := by
  subst h
  rfl

/-- A loop over the header that waits goes on with what is read next. -/
theorem headerLoop_resume (h : Ready m w) (hstop : headerLoop m line w = .error .reading u) :
    ∃ line', Ready m u ∧ u.outcomes.reads = []
      ∧ ∀ rs, headerLoop m line (w.more rs) = headerLoop m line' (u.more rs) := by
  induction hr : w.outcomes.reads generalizing w line with
  | nil =>
    rw [headerLoop_eq h, hr] at hstop
    -- out of reads: this is where the loop stopped
    cases hstop
    exact ⟨line, h, hr, fun rs => rfl⟩
  | cons r reads ih =>
    -- more reads come behind those that are there
    have hmore : ∀ rs, (w.more rs).outcomes.reads = r :: (reads ++ rs) := by
      intro rs
      show w.outcomes.reads ++ rs = _
      rw [hr, List.cons_append]
    have hready : ∀ rs, Ready m (w.more rs) := fun rs => h.same rfl rfl rfl
    rw [headerLoop_eq h, hr] at hstop
    cases r with
    | error e' =>
      cases hagain : again e' with
      | false =>
        simp only [hagain, Bool.false_eq_true, if_false] at hstop
        -- a read that fails for good does not stop the loop in a read
        cases hstop
      | true =>
        simp only [hagain, if_true] at hstop
        have hgo := fun hv => ih hv hstop rfl
        obtain ⟨line', hu, hnil, hrest⟩ := hgo (h.same rfl rfl rfl)
        refine ⟨line', hu, hnil, fun rs => ?_⟩
        rw [headerLoop_eq (hready rs), hmore rs]
        simp only [hagain, if_true]
        exact hrest rs
    | ok got =>
      obtain ⟨b, bs⟩ := got
      simp only at hstop
      split at hstop
      · cases hstop
      next hroom =>
      split at hstop
      · cases hstop
      next hclient =>
      cases hend : (sendAll w.outcomes.writes [b]).2.1 with
      -- nor does a write, whether it waits or fails
      | waiting =>
        simp only [hend] at hstop
        cases hstop
      | failed =>
        simp only [hend] at hstop
        cases hstop
      | all =>
        simp only [hend] at hstop
        have hclient' : ∀ rs, ¬(w.more rs).clientFd = -1 := fun _ => hclient
        have hend' : ∀ rs, (sendAll (w.more rs).outcomes.writes [b]).2.1 = .all := fun _ => hend
        -- the loop goes on with some line, or ends
        by_cases hb : b = Byte.lf
        · by_cases hline : line = []
          · -- an empty line
            rw [if_pos hb, if_neg (not_not_intro hline)] at hstop
            have hgo := fun hv => ih hv hstop rfl
            obtain ⟨line', hu, hnil, hrest⟩ := hgo (h.same rfl rfl rfl)
            refine ⟨line', hu, hnil, fun rs => ?_⟩
            rw [headerLoop_eq (hready rs), hmore rs]
            simp only [if_neg hroom, if_neg (hclient' rs), hend' rs]
            rw [if_pos hb, if_neg (not_not_intro hline)]
            exact hrest rs
          · -- a complete line ends the loop
            rw [if_pos hb, if_pos hline] at hstop
            cases hstop
        · -- the byte joins the line
          rw [if_neg hb] at hstop
          have hgo := fun hv => ih hv hstop rfl
          obtain ⟨line', hu, hnil, hrest⟩ := hgo (h.same rfl rfl rfl)
          refine ⟨line', hu, hnil, fun rs => ?_⟩
          rw [headerLoop_eq (hready rs), hmore rs]
          simp only [if_neg hroom, if_neg (hclient' rs), hend' rs]
          rw [if_neg hb]
          exact hrest rs

/-- A loop over the payload that waits goes on with what is read next. -/
theorem payloadLoop_resume (h : Ready m w) (hstop : payloadLoop m w = .error .reading u) :
    Ready m u ∧ u.outcomes.reads = [] ∧ u.bulkSize ≠ 0
      ∧ ∀ rs, payloadLoop m (w.more rs) = payloadLoop m (u.more rs) := by
  induction hr : w.outcomes.reads generalizing w with
  | nil =>
    rw [payloadLoop_eq h, hr] at hstop
    split at hstop
    · cases hstop
    -- out of reads with something missing: this is where the loop stopped
    next hmore =>
    cases hstop
    exact ⟨h, hr, hmore, fun rs => rfl⟩
  | cons r reads ih =>
    have hreads : ∀ rs, (w.more rs).outcomes.reads = r :: (reads ++ rs) := by
      intro rs
      show w.outcomes.reads ++ rs = _
      rw [hr, List.cons_append]
    have hready : ∀ rs, Ready m (w.more rs) := fun rs => h.same rfl rfl rfl
    rw [payloadLoop_eq h, hr] at hstop
    split at hstop
    · cases hstop
    -- a loop that has all of the payload does not stop in a read
    next hbulk =>
    have hbulk' : ∀ rs, ¬(w.more rs).bulkSize = 0 := fun _ => hbulk
    cases r with
    | error e' =>
      cases hagain : again e' with
      | false =>
        simp only [hagain, Bool.false_eq_true, if_false] at hstop
        cases hstop
      | true =>
        simp only [hagain, if_true] at hstop
        have hgo := fun hv => ih hv hstop rfl
        obtain ⟨hu, hnil, hmore, hrest⟩ := hgo (h.same rfl rfl rfl)
        refine ⟨hu, hnil, hmore, fun rs => ?_⟩
        rw [payloadLoop_eq (hready rs), if_neg (hbulk' rs), hreads rs]
        simp only [hagain, if_true]
        exact hrest rs
    | ok got =>
      obtain ⟨b, bs⟩ := got
      simp only at hstop
      have hsize : ∀ rs, payloadSize (w.more rs).bulkSize = payloadSize w.bulkSize := fun _ => rfl
      split at hstop
      -- an empty read goes round once more
      next hnone =>
        have hgo := fun hv => ih hv hstop rfl
        obtain ⟨hu, hnil, hmore, hrest⟩ := hgo (h.same rfl rfl rfl)
        refine ⟨hu, hnil, hmore, fun rs => ?_⟩
        rw [payloadLoop_eq (hready rs), if_neg (hbulk' rs), hreads rs]
        simp only [hsize rs, if_pos hnone]
        exact hrest rs
      next hsome =>
      split at hstop
      · cases hstop
      next hroom =>
      split at hstop
      · cases hstop
      next hclient =>
      cases hend : (sendAll w.outcomes.writes ((b :: bs).take (payloadSize w.bulkSize))).2.1 with
      -- a write that waits or fails is no stop in a read
      | waiting =>
        simp only [hend] at hstop
        cases hstop
      | failed =>
        simp only [hend] at hstop
        cases hstop
      | all =>
        simp only [hend] at hstop
        -- the chunk has been passed on, and the loop goes on behind it
        have hclient' : ∀ rs, ¬(w.more rs).clientFd = -1 := fun _ => hclient
        have hend' : ∀ rs, (sendAll (w.more rs).outcomes.writes
            ((b :: bs).take (payloadSize w.bulkSize))).2.1 = .all := fun _ => hend
        have hgo := fun hv => ih hv hstop rfl
        obtain ⟨hu, hnil, hmore, hrest⟩ := hgo (h.same rfl rfl rfl)
        refine ⟨hu, hnil, hmore, fun rs => ?_⟩
        rw [payloadLoop_eq (hready rs), if_neg (hbulk' rs), hreads rs]
        simp only [hsize rs, if_neg hsome, if_neg hroom, if_neg (hclient' rs), hend' rs]
        exact hrest rs

/-! ## The end of the file in a loop -/

/-- `n` reads at the end of the file, with the same `errno`. -/
def ends (e : Int) (n : Nat) : List (Except Int (UInt8 × Bytes)) := List.replicate n (.error e)

/-- Reads that are made again keep the loop over the header going. -/
theorem headerLoop_again (h : Ready m u) (hnil : u.outcomes.reads = []) (he : again e = true)
    (n : Nat) : headerLoop m line (u.leftReads (ends e n)) = .error .reading u := by
  have hready : ∀ rs, Ready m (u.leftReads rs) := fun rs => h.same rfl rfl rfl
  induction n with
  | zero =>
    rw [headerLoop_eq (hready _), ← World.leftReads_self hnil]
    rfl
  | succ n ih =>
    rw [headerLoop_eq (hready _)]
    show (if again e = true then headerLoop m line (u.leftReads (ends e n)) else _) = _
    rw [if_pos he, ih]

/-- As long as `read` says to try again, the loop waits for the next outcome. Induction on the
number of such reads. -/
theorem payloadLoop_again (h : Ready m u) (hnil : u.outcomes.reads = []) (hmore : u.bulkSize ≠ 0)
    (he : again e = true) (n : Nat) :
    payloadLoop m (u.leftReads (ends e n)) = .error .reading u := by
  have hready : ∀ rs, Ready m (u.leftReads rs) := fun rs => h.same rfl rfl rfl
  have hbulk : ∀ rs, ¬(u.leftReads rs).bulkSize = 0 := fun _ => hmore
  induction n with
  | zero =>
    rw [payloadLoop_eq (hready _), if_neg (hbulk _), ← World.leftReads_self hnil]
    rfl
  | succ n ih =>
    rw [payloadLoop_eq (hready _), if_neg (hbulk _)]
    show (if again e = true then payloadLoop m (u.leftReads (ends e n)) else _) = _
    rw [if_pos he, ih]

/-- One read that is not made again ends it. -/
theorem headerLoop_end (h : Ready m u) (he : again e = false) :
    headerLoop m line (u.leftReads (ends e 1)) = .ok none (u.leftReads []).closeFd := by
  have hready : Ready m (u.leftReads (ends e 1)) := h.same rfl rfl rfl
  rw [headerLoop_eq hready]
  show (if again e = true then _ else EStateM.Result.ok none (u.leftReads []).closeFd) = _
  rw [he, if_neg (by decide)]

/-- The end of the file closes all descriptors and leaves the loop. -/
theorem payloadLoop_end (h : Ready m u) (hmore : u.bulkSize ≠ 0) (he : again e = false) :
    payloadLoop m (u.leftReads (ends e 1)) = .ok ⟨⟩ (u.leftReads []).closeFd := by
  have hbulk : ¬(u.leftReads (ends e 1)).bulkSize = 0 := hmore
  have hready : Ready m (u.leftReads (ends e 1)) := h.same rfl rfl rfl
  rw [payloadLoop_eq hready, if_neg hbulk]
  show (if again e = true then _ else EStateM.Result.ok PUnit.unit (u.leftReads []).closeFd) = _
  rw [he, if_neg (by decide)]

/-! ## The callback -/

theorem readFromMaster_syncStart (h : w.state = .syncStart) :
    readFromMaster m w = syncStartCase m w := by
  rewrite [readFromMaster, run_get_bind, h]
  rfl

theorem readFromMaster_sync (h : w.state = .sync) : readFromMaster m w = syncCase m w := by
  rewrite [readFromMaster, run_get_bind, h]
  rfl

/-- A callback in a synchronisation that waits for the master, when the master closes. -/
theorem readFromMaster_ends (h : Ready m w) (hstate : w.state = .syncStart ∨ w.state = .sync)
    (hstop : readFromMaster m w = .error .reading u) :
    (again e = true → ∀ n, readFromMaster m (w.more (ends e n)) = .error .reading u)
      ∧ (again e = false → readFromMaster m (w.more (ends e 1)) = .ok ⟨⟩ u.closeFd) := by
  rcases hstate with hstate | hstate
  · -- stopped in the header
    rw [readFromMaster_syncStart hstate] at hstop
    rw [syncStartCase_eq] at hstop
    have hloop : headerLoop m [] w = .error .reading u := by
      -- what comes behind the loop does not read
      cases hrun : headerLoop m [] w with
      | error s x =>
        rw [run_bind_error hrun] at hstop
        cases hstop
        rfl
      | ok got x =>
        rw [run_bind_ok hrun] at hstop
        cases got with
        | none => cases hstop
        | some line =>
          simp only at hstop
          split at hstop <;> cases hstop
    obtain ⟨line', hu, hnil, hrest⟩ := headerLoop_resume h hloop
    constructor
    · intro he n
      have hrun : headerLoop m [] (w.more (ends e n)) = .error .reading u := by
        rw [hrest, World.more_of_nil hnil]
        exact headerLoop_again hu hnil he n
      rw [readFromMaster_syncStart (show (w.more (ends e n)).state = _ from hstate),
        syncStartCase_eq]
      exact run_bind_error hrun
    · intro he
      have hrun : headerLoop m [] (w.more (ends e 1)) = .ok none u.closeFd := by
        rw [hrest, World.more_of_nil hnil, headerLoop_end hu he, World.leftReads_self hnil]
      rw [readFromMaster_syncStart (show (w.more (ends e 1)).state = _ from hstate),
        syncStartCase_eq]
      exact run_bind_ok hrun
  · -- stopped in the payload
    rw [readFromMaster_sync hstate, syncCase_eq] at hstop
    obtain ⟨hu, hnil, hbulk, hrest⟩ := payloadLoop_resume h hstop
    constructor
    · intro he n
      rw [readFromMaster_sync (show (w.more (ends e n)).state = _ from hstate), syncCase_eq,
        hrest, World.more_of_nil hnil]
      exact payloadLoop_again hu hnil hbulk he n
    · intro he
      rw [readFromMaster_sync (show (w.more (ends e 1)).state = _ from hstate), syncCase_eq,
        hrest, World.more_of_nil hnil, payloadLoop_end hu hbulk he, World.leftReads_self hnil]

/-- The same step with more outcomes of `read`. -/
def Step.more (s : Step) (rs : List (Except Int (UInt8 × Bytes))) : Step :=
  { s with outcomes := { s.outcomes with reads := s.outcomes.reads ++ rs } }

/-- While the proxy is up, the master may be read. -/
theorem Up.ready {L : Prop} (h : Up L w) : Ready w.masterFd w where
  master := rfl
  masterUp := h.masterFd_ne
  masterOpen := h.master.isOpen
  client := h.client.imp_right fun hclient => hclient.isOpen

/-- The master's callback, with any outcomes. -/
theorem Step.Calls.master {s : Step} (hcalls : s.Calls w .readFromMaster) (h : w.Reachable) :
    ∃ fired, (∀ o, Ready w.masterFd { w with outcomes := o, fired := fired })
      ∧ ∀ o, ({ s with outcomes := o } : Step).run w
        = readFromMaster w.masterFd { w with outcomes := o, fired := fired } := by
  obtain ⟨fd, fired, hentry, hrun⟩ := hcalls.run
  obtain ⟨hup, rfl⟩ := h.settled.master hentry
  exact ⟨fired, fun _ => hup.ready.same rfl rfl rfl, hrun⟩

/-- **A step that waits for the master.** With more outcomes of the kind it has been waiting for
it waits on, and the end of the file ends the callback with `closeFd`. -/
theorem step_ends {s : Step} (h : w.Reachable) (hcalls : s.Calls w .readFromMaster)
    (hstate : w.state = .syncStart ∨ w.state = .sync) (hstop : s.run w = .error .reading u) :
    (again e = true → ∀ n, (s.more (ends e n)).run w = .error .reading u)
      ∧ (again e = false → (s.more (ends e 1)).run w = .ok ⟨⟩ u.closeFd) := by
  obtain ⟨fired, hready, hrun⟩ := hcalls.master h
  rw [show s.run w = readFromMaster w.masterFd _ from hrun s.outcomes] at hstop
  obtain ⟨hagain, hend⟩ := @readFromMaster_ends _ e _ _ (hready s.outcomes) hstate hstop
  exact ⟨fun he n => (hrun _).trans (hagain he n), fun he => (hrun _).trans (hend he)⟩

/-- **The end of the file is noticed** in every call of `readData` and in every wait of the
loops of a synchronisation exactly if the `errno` that is left over does not say to try
again. -/
theorem closed_noticed_iff (e : Int) :
    (∀ (w v : World) (fd : Int) (size : Nat) (reads : List (Except Int (UInt8 × Bytes))),
      connectIfNone w = .ok ⟨⟩ v → fd ≠ -1 → fd ∈ v.fds → v.outcomes.reads = .error e :: reads →
      (readData fd size w = .ok none (v.leftReads reads).closeFd ↔ again e = false))
    ∧ ∀ (w u : World) (s : Step), w.Reachable → s.Calls w .readFromMaster →
      w.state = .syncStart ∨ w.state = .sync → s.run w = .error .reading u →
      ((∃ n v, (s.more (ends e n)).run w = .ok ⟨⟩ v) ↔ again e = false) := by
  refine ⟨fun w v fd size reads hconnect hfd hopen hreads =>
    readData_closed_iff hconnect hfd hopen hreads, fun w u s h hcalls hstate hstop => ?_⟩
  obtain ⟨hagain, hend⟩ := @step_ends e _ _ s h hcalls hstate hstop
  constructor
  · rintro ⟨n, v, hrun⟩
    by_contra he
    rw [hagain (by simpa using he) n] at hrun
    cases hrun
  · intro he
    exact ⟨1, u.closeFd, hend he⟩

/-! ## A master that closes behind its answer to `SYNC` -/

namespace Waiting

/-- The master is ready to be read. -/
def steps : List Step := Accepting.steps 7 ++ Transferring.sync ++ [⟨.poll [5], .none⟩]

/-- The callback of the master, with nothing to read yet. -/
def wait : Step := ⟨.file, .none⟩

theorem exists_wait : ∃ w u, w.Reachable ∧ wait.Calls w .readFromMaster ∧ w.state = .syncStart
    ∧ w.clientFd ≠ -1 ∧ wait.run w = .error .reading u := by
  have hrun : ((World.start (Accepting.outcomes 7)).bind
      (runAll Step.run (fun _ _ => True) steps)).any (fun w =>
        decide (wait.Calls w .readFromMaster ∧ w.state = .syncStart ∧ w.clientFd ≠ -1)
          && match wait.run w with
            | .error .reading _ => true
            | _ => false) = true := by
    decide +kernel
  obtain ⟨w, hreach, hw⟩ := World.reachable_of_any hrun
  obtain ⟨hw, hstop⟩ := Bool.and_eq_true_iff.mp hw
  obtain ⟨hcalls, hstate, hclient⟩ := of_decide_eq_true hw
  cases hr : wait.run w with
  | ok a u =>
    rw [hr] at hstop
    cases hstop
  | error e u =>
    rw [hr] at hstop
    cases e <;> first | exact ⟨w, u, hreach, hcalls, hstate, hclient, hr⟩ | cases hstop

end Waiting

/-- With `ECONNRESET` left over. -/
theorem closed_noticed_iff_reset : ∃ w u, w.Reachable ∧ Waiting.wait.run w = .error .reading u
    ∧ ((∃ n v, (Waiting.wait.more (ends 104 n)).run w = .ok ⟨⟩ v) ↔ again 104 = false)
    ∧ (readData w.masterFd 1 (w.leftReads (ends 104 1))
        = .ok none ((w.leftReads (ends 104 1)).leftReads []).closeFd ↔ again 104 = false) := by
  obtain ⟨w, u, hreach, hcalls, hstate, -, hstop⟩ := Waiting.exists_wait
  obtain ⟨fd, fired, hentry, -⟩ := hcalls.run
  obtain ⟨hup, rfl⟩ := hreach.settled.master hentry
  exact ⟨w, u, hreach, hstop,
    (closed_noticed_iff 104).2 w u _ hreach hcalls (Or.inl hstate) hstop,
    (closed_noticed_iff 104).1 (w.leftReads (ends 104 1)) (w.leftReads (ends 104 1)) w.masterFd 1 []
      (connectIfNone_live hup.masterFd_ne) hup.masterFd_ne hup.master.isOpen rfl⟩

/-- With `EAGAIN` left over, from a read of the non-blocking connection to the master, the
end of the file is not noticed, and the loop over the header runs forever. -/
theorem not_closed_noticed : ∃ w, w.Reachable ∧ Waiting.wait.Calls w .readFromMaster
    ∧ w.state = .syncStart
    ∧ (∀ v, readData w.masterFd 1 (w.leftReads (ends eagain 1)) ≠ .ok none v)
    ∧ ∀ n v, (Waiting.wait.more (ends eagain n)).run w ≠ .ok ⟨⟩ v := by
  obtain ⟨w, u, hreach, hcalls, hstate, -, hstop⟩ := Waiting.exists_wait
  obtain ⟨fd, fired, hentry, -⟩ := hcalls.run
  obtain ⟨hup, rfl⟩ := hreach.settled.master hentry
  refine ⟨w, hreach, hcalls, hstate, fun v hread => ?_, fun n v hrun => ?_⟩
  · have hm : (w.leftReads (ends eagain 1)).masterFd ≠ -1 := hup.masterFd_ne
    have hin : w.masterFd ∈ (w.leftReads (ends eagain 1)).fds := hup.master.isOpen
    rw [readData_open hm hup.masterFd_ne hin] at hread
    cases hread
  · rw [(@step_ends eagain _ _ _ hreach hcalls (Or.inl hstate) hstop).1 rfl n] at hrun
    cases hrun

end Iceberg
