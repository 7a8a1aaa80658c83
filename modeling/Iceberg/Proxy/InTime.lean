import Iceberg.Proxy.Lines
import Iceberg.Proxy.Reset
import Iceberg.Proxy.Upkeep

/-!
# Queries come before the command is passed on

In `RUNNING_STATE` every chunk is scanned before it is passed on, and what a scan asks for
lies in the chunk, in its last byte at least: a command whose last byte has been passed on is
not carried over. So the value of a key is asked for before the slave is told to delete it,
and it is asked for once.
-/

namespace Iceberg

open Triples
open Resp (array delName)

/-- The places of the commands for which the line has been written. -/
def placesIn (es : List Event) : List Int :=
  es.filterMap fun
    | .asked place _ => some place
    | _ => none

/-- An event of a query to the descriptor `r`. -/
def Event.Asks (r : Int) : Event → Prop
  | .wrote fd _ => fd = r
  | .asked _ _ => True
  | _ => False

/-- The line for the command at `place` has just been written to the descriptor `r`, all of
it. When the present chunk was read, the last byte of the command had not been read, and
since then only lines of queries have been written: so this byte has not been passed on. The
stream of the master starts behind the first `seen` bytes. -/
structure InTime (m r : Int) (seen : Nat) (es : List Event) (place : Int) (key : Key) : Prop where
  line : ∃ (before : List Event) (pieces : List Bytes),
    es = before ++ pieces.map (Event.wrote r) ∧ pieces.flatten = Scan.queryCmd key
  reader : r ≠ -1
  early : ∃ before got asking, es = before ++ [.read m got, .scanned got] ++ asking
    ∧ (∀ e ∈ asking, e.Asks r)
    ∧ ∀ u key' v, (u.length : Int) = place - seen →
      readFrom m es <+: u ++ (array [delName, key'] ++ v) →
      (readFrom m before).length < u.length + (array [delName, key']).length

/-- Every query is in time, and none comes twice. -/
structure Timed (m r : Int) (seen : Nat) (es : List Event) : Prop where
  once : (placesIn es).Pairwise (· < ·)
  inTime : ∀ es' place key, es' ++ [.asked place key] <+: es → InTime m r seen es' place key

variable {m r r' : Int} {seen : Nat} {es es' : List Event} {w w' : World} {t : List Event}

/-! ## Longer traces -/

@[simp] theorem placesIn_append (es es' : List Event) :
    placesIn (es ++ es') = placesIn es ++ placesIn es' := List.filterMap_append

theorem placesIn_wrote (fd : Int) (pieces : List Bytes) :
    placesIn (pieces.map (Event.wrote fd)) = [] := by
  simp [placesIn]

/-- Where no place is recorded, nothing has been asked for. -/
theorem asked_notMem_of_placesIn (h : placesIn es = []) (place : Int) (key : Key) :
    Event.asked place key ∉ es := by
  intro hmem
  have hplace : place ∈ placesIn es := List.mem_filterMap.mpr ⟨_, hmem, rfl⟩
  rw [h] at hplace
  exact List.not_mem_nil hplace

/-- A prefix that ends in some event is a prefix of the first part, unless the event is in the
second. -/
theorem prefix_of_prefix_append {α : Type} {l l₁ l₂ : List α} {a : α}
    (h : l ++ [a] <+: l₁ ++ l₂) (ha : a ∉ l₂) : l ++ [a] <+: l₁ := by
  rcases List.prefix_or_prefix_of_prefix h (List.prefix_append l₁ l₂) with h₁ | ⟨c, hc⟩
  · exact h₁
  · rcases List.eq_nil_or_concat c with rfl | ⟨c', b, rfl⟩
    · exact ⟨[], by rw [← hc]; simp⟩
    · -- the event is the last one of what the prefix has of the second part
      have hb : b = a := by
        have := congrArg List.getLast? hc
        simpa using this
      rw [← hc, List.prefix_append_right_inj] at h
      exact absurd (h.subset (by simp [hb])) ha

theorem Timed.nil (m r : Int) (seen : Nat) : Timed m r seen [] where
  once := List.Pairwise.nil
  inTime := by
    intro es' place key h
    simpa using h.length_le

/-- Events that are no queries do not matter. -/
theorem Timed.append (h : Timed m r seen es) (hes : placesIn es' = []) :
    Timed m r seen (es ++ es') where
  once := by
    rw [placesIn_append, hes, List.append_nil]
    exact h.once
  inTime := by
    intro es₁ place key hpre
    exact h.inTime es₁ place key (prefix_of_prefix_append hpre (asked_notMem_of_placesIn hes _ _))

/-- The descriptor of the queries may be opened as long as there are none. -/
theorem Timed.reader (h : Timed m r seen es) (hr : r' = r ∨ r = -1) : Timed m r' seen es := by
  rcases hr with rfl | rfl
  · exact h
  · refine ⟨h.once, ?_⟩
    intro es₁ place key hpre
    exact absurd rfl (h.inTime es₁ place key hpre).reader

/-- One more query. -/
theorem Timed.asked (h : Timed m r seen es) {place : Int} {key : Key}
    (hplace : ∀ p ∈ placesIn es, p < place) (hin : InTime m r seen es place key) :
    Timed m r seen (es ++ [.asked place key]) where
  once := by
    rw [placesIn_append]
    refine List.pairwise_append.mpr ⟨h.once, List.pairwise_singleton _ _, ?_⟩
    intro p hp q hq
    rw [List.mem_singleton.mp hq]
    exact hplace p hp
  inTime := by
    intro es₁ p k hpre
    rcases List.prefix_concat_iff.mp hpre with heq | hpre
    · obtain ⟨rfl, hevent⟩ := List.append_inj' heq rfl
      obtain ⟨rfl, rfl⟩ := Event.asked.inj (List.singleton_inj.mp hevent)
      exact hin
    · exact h.inTime es₁ p k hpre

/-! ## The state between the steps, and in a scan -/

/-- The record of a connection since the trace was `t`: all that the master has sent has been
scanned, and all queries were in time. -/
structure Recorded (m : Int) (t : List Event) (seen : Nat) (es : List Event) (w : World) :
    Prop where
  trace : w.trace = t ++ es
  master : w.masterFd = m
  count : w.seen = seen + (scannedIn es).length
  read : readFrom m es = scannedIn es
  timed : Timed m w.readFd seen es

/-- Between the steps, what has been asked for lies in front of what is carried. `past` are
bytes in front of the stream. -/
structure Swept (m : Int) (t : List Event) (seen : Nat) (past : Bytes) (es : List Event)
    (w : World) : Prop extends Recorded m t seen es w where
  places : ∀ p ∈ placesIn es, p + 17 ≤ w.seen ∧ p < w.seen - w.bufMasterCmd.length
  carried : Scan.Carried (past ++ scannedIn es) w.bufMasterCmd

/-- In the scan of a chunk that was read behind `n` bytes of the stream, what has been asked
for lies in front of `place`, and only queries have been written since the chunk was read. -/
structure Asking (m : Int) (t : List Event) (seen n : Nat) (X : Bytes) (place : Int)
    (es : List Event) (w : World) : Prop extends Recorded m t seen es w where
  scanned : scannedIn es = X
  buf : w.bufMasterCmd = []
  places : ∀ p ∈ placesIn es, p + 17 ≤ w.seen ∧ p < place
  chunk : ∃ before got asking, es = before ++ [.read m got, .scanned got] ++ asking
    ∧ (∀ e ∈ asking, e.Asks w.readFd) ∧ (readFrom m before).length = n

def Sweeping (m : Int) (t : List Event) (seen : Nat) (past : Bytes) (w : World) : Prop :=
  Over t w ∨ ∃ es, Swept m t seen past es w

/-- At a moment of a callback. -/
def Underway (m : Int) (t : List Event) (seen : Nat) (w : World) : Prop :=
  Over t w ∨ ∃ es, w.trace = t ++ es ∧ Timed m w.readFd seen es

variable {past X : Bytes} {n : Nat} {place : Int}

theorem Recorded.underway (h : Recorded m t seen es w) : Underway m t seen w :=
  Or.inr ⟨es, h.trace, h.timed⟩

theorem Sweeping.underway (h : Sweeping m t seen past w) : Underway m t seen w := by
  rcases h with hover | ⟨es, h⟩
  · exact Or.inl hover
  · exact h.toRecorded.underway

/-- Events that are no queries, scan nothing and read nothing of the master. -/
theorem Swept.extend (h : Swept m t seen past es w) (htrace : w'.trace = w.trace ++ es')
    (hplaces : placesIn es' = []) (hscanned : scannedIn es' = []) (hread : readFrom m es' = [])
    (hmaster : w'.masterFd = w.masterFd) (hseen : w'.seen = w.seen)
    (hbuf : w'.bufMasterCmd = w.bufMasterCmd)
    (hreader : w'.readFd = w.readFd ∨ w.readFd = -1) :
    Swept m t seen past (es ++ es') w' where
  trace := by rw [htrace, h.trace, List.append_assoc]
  master := hmaster.trans h.master
  count := by rw [hseen, h.count, scannedIn_append, hscanned, List.append_nil]
  read := by rw [readFrom_append, scannedIn_append, hread, hscanned, h.read]
  timed := (h.timed.reader hreader).append hplaces
  places := by
    rw [placesIn_append, hplaces, List.append_nil, hseen, hbuf]
    exact h.places
  carried := by
    rw [scannedIn_append, hscanned, List.append_nil, hbuf]
    exact h.carried

/-- The record between the steps depends on the trace, the master, the reader, the count and the
carry only. -/
theorem Swept.same (h : Swept m t seen past es w) (htrace : w'.trace = w.trace)
    (hmaster : w'.masterFd = w.masterFd) (hseen : w'.seen = w.seen)
    (hbuf : w'.bufMasterCmd = w.bufMasterCmd) (hreader : w'.readFd = w.readFd) :
    Swept m t seen past es w' := by
  have := @Swept.extend m seen es [] w w' t past h (by rw [htrace, List.append_nil]) rfl rfl rfl
    hmaster hseen hbuf (Or.inl hreader)
  rwa [List.append_nil] at this

/-- To open and close descriptors asks for nothing, scans nothing and reads nothing. -/
theorem links_quiet {es : List Event} (h : ∀ e ∈ es, e.Links) (m : Int) :
    placesIn es = [] ∧ scannedIn es = [] ∧ readFrom m es = [] := by
  refine ⟨?_, ?_, ?_⟩
  · apply List.filterMap_eq_nil_iff.mpr
    intro e he
    cases e with
    | asked place key => exact absurd (h _ he) id
    | _ => rfl
  · apply List.flatMap_eq_nil_iff.mpr
    intro e he
    cases e with
    | scanned bs => exact absurd (h _ he) id
    | _ => rfl
  · apply List.flatMap_eq_nil_iff.mpr
    intro e he
    cases e with
    | read fd bs => exact absurd (h _ he) id
    | _ => rfl

/-- The record stands the rest of a callback: writes and connections add no queries, and a reset
ends it. -/
theorem robust_sweeping (hm : m ≠ -1) : Robust (Sweeping m t seen past) where
  -- a reconnect needs that there is no master
  reconnects := by
    rintro w w' (hover | ⟨es, h⟩) hnone hr
    · exact Or.inl ((robust_of_grows Over.grows).reconnects w w' hover hnone hr)
    · exact absurd (h.master.symm.trans hnone) hm
  relinks := by
    rintro w w' (hover | ⟨es, h⟩) hr
    · exact Or.inl ((robust_of_grows Over.grows).relinks w w' hover hr)
    · obtain ⟨_, _, _, ⟨_, _, _, _, _, es', hes', rfl⟩, hreader, rfl⟩ := hr
      obtain ⟨hplaces, hscanned, hread⟩ := links_quiet hes' m
      exact Or.inr ⟨_, h.extend rfl hplaces hscanned hread rfl rfl rfl hreader⟩
  leftReads := by
    rintro w reads (hover | ⟨es, h⟩)
    · exact Or.inl hover
    · exact Or.inr ⟨es, h.same rfl rfl rfl rfl rfl⟩
  sent := by
    rintro w fd bs (hover | ⟨es, h⟩)
    · exact Or.inl ((robust_of_grows Over.grows).sent w fd bs hover)
    · exact Or.inr ⟨_, h.extend rfl (placesIn_wrote _ _) (scannedIn_wrote _ _)
        (readFrom_wrote _ _ _) rfl rfl rfl (Or.inl rfl)⟩
  -- giving the connections up ends the sweep
  closeFd := by
    rintro w (hover | ⟨es, h⟩)
    · exact Or.inl ((robust_of_grows Over.grows).closeFd w hover)
    · exact Or.inl (w.over_closeFd.of_trace h.trace)

theorem settable_sweeping : Settable (Sweeping m t seen past) := by
  rintro w _ _ _ _ _ (hover | ⟨es, h⟩)
  · exact Or.inl hover
  · exact Or.inr ⟨es, h.same rfl rfl rfl rfl rfl⟩

/-! ## A query -/

/-- What has been asked for lies in front of every later place too. -/
theorem Asking.later {place' : Int} (h : Asking m t seen n X place es w)
    (hle : place ≤ place') : Asking m t seen n X place' es w where
  toRecorded := h.toRecorded
  scanned := h.scanned
  buf := h.buf
  places := fun p hp => ⟨(h.places p hp).1, by have := (h.places p hp).2; omega⟩
  chunk := h.chunk

/-- The writes of a query, and what records it. -/
theorem Asking.append (h : Asking m t seen n X place es w) (htrace : w'.trace = w.trace ++ es')
    (hplaces : placesIn es' = []) (hscanned : scannedIn es' = []) (hread : readFrom m es' = [])
    (hasks : ∀ e ∈ es', e.Asks w.readFd)
    (hmaster : w'.masterFd = w.masterFd) (hseen : w'.seen = w.seen)
    (hbuf : w'.bufMasterCmd = w.bufMasterCmd) (hreader : w'.readFd = w.readFd) :
    Asking m t seen n X place (es ++ es') w' where
  trace := by rw [htrace, h.trace, List.append_assoc]
  master := hmaster.trans h.master
  count := by rw [hseen, h.count, scannedIn_append, hscanned, List.append_nil]
  read := by rw [readFrom_append, scannedIn_append, hread, hscanned, h.read]
  timed := (h.timed.reader (Or.inl hreader)).append hplaces
  scanned := by rw [scannedIn_append, hscanned, List.append_nil, h.scanned]
  buf := hbuf.trans h.buf
  places := by
    rw [placesIn_append, hplaces, List.append_nil, hseen]
    exact h.places
  chunk := by
    obtain ⟨before, got, asking, rfl, hold, hn⟩ := h.chunk
    refine ⟨before, got, asking ++ es', by rw [List.append_assoc _ asking], ?_, hn⟩
    rw [hreader]
    intro e he
    exact (List.mem_append.mp he).elim (hold e) (hasks e)

/-- A write to the connection of the queries belongs to the asking. -/
theorem Asking.sent (h : Asking m t seen n X place es w) (bs : Bytes) :
    Asking m t seen n X place (es ++ (sendAll w.outcomes.writes bs).1.map (Event.wrote w.readFd))
      (w.sent w.readFd bs) := by
  refine h.append rfl (placesIn_wrote _ _) (scannedIn_wrote _ _) (readFrom_wrote _ _ _) ?_
    rfl rfl rfl rfl
  intro e he
  obtain ⟨bs, -, rfl⟩ := List.mem_map.mp he
  show w.readFd = w.readFd
  rfl

/-- A query whose line has been written. -/
theorem Asking.queried {place' : Int} {key : Key} (h : Asking m t seen n X place es w)
    (hline : ∃ (before : List Event) (pieces : List Bytes),
      es = before ++ pieces.map (Event.wrote w.readFd) ∧ pieces.flatten = Scan.queryCmd key)
    (hreader : w.readFd ≠ -1) (hle : place ≤ place') (hin : place' + 17 ≤ w.seen)
    (htime : ∀ u key' v, (u.length : Int) = place' - seen →
      X <+: u ++ (array [delName, key'] ++ v) → n < u.length + (array [delName, key']).length)
    (answers : Answers) (asked : List Key) :
    Asking m t seen n X (place' + 1) (es ++ [.asked place' key]) { w with
      answers := answers
      asked := asked
      trace := w.trace ++ [.asked place' key] } where
  trace := by
    show w.trace ++ _ = _
    rw [h.trace, List.append_assoc]
  master := h.master
  count := by
    rw [scannedIn_append]
    exact h.count.trans (by simp [scannedIn])
  read := by
    rw [readFrom_append, scannedIn_append, h.read]
    rfl
  -- the new query is in time if those before it were
  timed := by
    apply h.timed.asked
    · intro p hp
      have := (h.places p hp).2
      omega
    · obtain ⟨before, got, asking, heq, hasks, hn⟩ := h.chunk
      refine ⟨hline, hreader, before, got, asking, heq, hasks, ?_⟩
      intro u key' v hu hpre
      rw [h.read, h.scanned] at hpre
      exact hn ▸ htime u key' v hu hpre
  scanned := by
    rw [scannedIn_append, h.scanned]
    exact List.append_nil X
  buf := h.buf
  -- its place is the last one
  places := by
    intro p hp
    rw [placesIn_append] at hp
    rcases List.mem_append.mp hp with hp | hp
    · have := h.places p hp
      exact ⟨this.1, by omega⟩
    · rw [show p = place' from List.mem_singleton.mp hp]
      exact ⟨hin, by omega⟩
  chunk := by
    obtain ⟨before, got, asking, rfl, hasks, hn⟩ := h.chunk
    refine ⟨before, got, asking ++ [.asked place' key], by rw [List.append_assoc _ asking], ?_, hn⟩
    intro e he
    rcases List.mem_append.mp he with he | he
    · exact hasks e he
    · rw [List.mem_singleton.mp he]
      trivial

/-- **A query** from within the scan is in time: its place lies behind those before it, and the
last byte of its command was not among the bytes that had been read before this chunk. -/
theorem queryKey_asks {place' : Int} (hm : m ≠ -1) (key : Key) (hle : place ≤ place')
    (hin : place' + 17 ≤ seen + X.length)
    (htime : ∀ u key' v, (u.length : Int) = place' - seen →
      X <+: u ++ (array [delName, key'] ++ v) → n < u.length + (array [delName, key']).length) :
    Triple (fun w => Over t w ∨ ∃ es, Asking m t seen n X place es w) (queryKey place' key)
      (fun _ w => Over t w ∨ ∃ es, Asking m t seen n X (place' + 1) es w)
      (fun _ => Underway m t seen) := by
  refine Triple.or ?_ (Triple.exists fun es => ?_)
  · exact (keeps_queryKey (keeps_writeData_of_grows Over.grows)
      (stable_of_grows Over.grows).scannable place' key).conseq (fun _ => id)
        (fun _ _ => Or.inl) fun _ _ => Or.inl
  · intro w h
    have hup : w.masterFd ≠ -1 := h.master ▸ hm
    unfold queryKey
    rw [run_get_bind]
    -- a full queue: nothing is sent
    rcases Decidable.em (w.answers.q.isFull = true) with hfull | hfull
    · rw [if_pos hfull]
      exact Or.inr ⟨es, h.later (by omega)⟩
    · rw [if_neg hfull]
      -- the write fails, goes out whole, or waits
      rcases @writeData_up w w.readFd (Scan.queryCmd key) hup with
        ⟨w', hrun, hends⟩ | ⟨hr, hline, hrun⟩ | ⟨-, -, -, hrun⟩
      · rw [run_bind_ok hrun, if_neg (by decide)]
        rcases hends with rfl | rfl | rfl
        · exact Or.inr ⟨es, h.later (by omega)⟩
        · exact Or.inl (w.over_closeFd.of_trace h.trace)
        · exact Or.inl ((World.over_closeFd _).of_trace (h.sent _).trace)
      · rw [run_bind_ok hrun, if_pos rfl]
        have hsent := h.sent (Scan.queryCmd key)
        have hcount := hsent.count
        rw [hsent.scanned] at hcount
        exact Or.inr ⟨_, hsent.queried ⟨es, _, rfl, hline⟩ hr hle (by omega) htime _ _⟩
      · rw [run_bind_error hrun]
        exact (h.sent (Scan.queryCmd key)).toRecorded.underway

/-! ## A scan -/

/-- The scan of the buffer `data`, which ends where the stream `X` ends. -/
theorem performScan_asks (hm : m ≠ -1) {data : WData} {base index : Int} {acts : List Scan.Act}
    (h : Scan.Sweeps data index acts) (hbase : base + data.len = seen + X.length)
    (hleg : Scan.Legible data.data (past ++ X))
    (htime : ∀ p ∈ Scan.queriesOf acts, ∀ u key' v, (u.length : Int) = base + p.1 - seen →
      X <+: u ++ (array [delName, key'] ++ v) → n < u.length + (array [delName, key']).length) :
    Triple (fun w => Over t w ∨ ∃ es, Asking m t seen n X (base + index) es w)
      (performScan base acts) (fun _ => Sweeping m t seen past) (fun _ => Underway m t seen) := by
  induction h with
  -- the places so far lie in front of the end of what was scanned
  | done =>
    refine Triple.pure fun w hw => ?_
    rcases hw with hover | ⟨es, h⟩
    · exact Or.inl hover
    · refine Or.inr ⟨es, h.toRecorded, ?_, ?_⟩
      · intro p hp
        have := (h.places p hp).1
        rw [h.buf]
        exact ⟨this, by simp; omega⟩
      · rw [h.buf]
        exact Scan.carried_nil _
  | @save index buf h =>
    refine Triple.bind (R := fun _ => Sweeping m t seen past) (Triple.modify fun w hw => ?_)
      fun _ => Triple.pure fun _ hw => hw
    rcases hw with hover | ⟨es, ha⟩
    · exact Or.inl hover
    · refine Or.inr ⟨es, ⟨ha.trace, ha.master, ha.count, ha.read, ha.timed⟩, ?_, ?_⟩
      · intro p hp
        obtain ⟨hend, hplace⟩ := ha.places p hp
        have hcount := ha.count
        rw [ha.scanned] at hcount
        refine ⟨hend, ?_⟩
        show p < w.seen - buf.length
        -- a carry begins behind the last command that was asked for
        rcases h.length_le with hshort | hlong <;> omega
      · rw [ha.scanned]
        exact h.carried hleg
  | @query index q ds r key acts hle hat hcr hpos hr hrest ih =>
    have hsum := hat.2.1
    simp only [List.length_append, List.length_cons, show Scan.delHeader.length = 14 from rfl,
      Int.natCast_add] at hsum
    -- the header and the key are in the buffer, so the place is far enough from its end
    refine Triple.bind (queryKey_asks hm key (by omega) (by omega)
      (htime (q, key) List.mem_cons_self)) fun _ => ?_
    refine (ih fun p hp => htime p (List.mem_cons_of_mem _ hp)).pre fun w hw => ?_
    exact hw.imp_right fun ⟨es, ha⟩ => ⟨es, ha.later (by omega)⟩

/-- The state in which the scan of a chunk starts. -/
def World.scanning (w : World) (data : WData) : World :=
  { w with
    bufMasterCmd := []
    seen := w.seen + data.data.length
    trace := w.trace ++ [.scanned data.data] }

theorem scannedIn_chunk (fd : Int) (bs : Bytes) :
    scannedIn [.read fd bs, .scanned bs] = bs := by
  simp [scannedIn]

/-- The record at the beginning of a scan: the chunk has been read, nothing of it has been asked
for, and the carry of the reads before it is merged in front of it. -/
theorem Swept.asking {data : WData} {reads : List (Except Int (UInt8 × Bytes))}
    (h : Swept m t seen past es w) (hread : data.data.length ≤ maxRead) :
    Asking m t seen (scannedIn es).length (scannedIn es ++ data.data)
      ((w.seen : Int) + data.len - (mergeCarry w.bufMasterCmd data).len + 0)
      (es ++ [.read m data.data, .scanned data.data])
      (((w.leftReads reads).log [.read m data.data]).scanning data) where
  trace := by
    show w.trace ++ _ ++ _ = _
    rw [h.trace, List.append_assoc, List.append_assoc]
    rfl
  master := h.master
  count := by
    rw [scannedIn_append, scannedIn_chunk, List.length_append, ← Nat.add_assoc, ← h.count]
    rfl
  read := by
    rw [readFrom_append, scannedIn_append, scannedIn_chunk, h.read]
    simp [readFrom]
  timed := h.timed.append rfl
  scanned := by rw [scannedIn_append, scannedIn_chunk]
  buf := rfl
  places := by
    intro p hp
    rw [placesIn_append] at hp
    have hp : p ∈ placesIn es := by simpa [placesIn] using hp
    obtain ⟨hend, hplace⟩ := h.places p hp
    -- the carry is at the end of what has been scanned
    have hlen := h.carried.length_merge hread
    show p + 17 ≤ ((w.seen + data.data.length : Nat) : Int) ∧ _
    unfold WData.len
    omega
  chunk := by
    refine ⟨es, data.data, [], (List.append_nil _).symm, ?_, by rw [h.read]⟩
    intro e he
    exact absurd he List.not_mem_nil

/-- A chunk that has just been read is scanned. -/
theorem processInputBuffer_sweeps {data : WData} {reads : List (Except Int (UInt8 × Bytes))}
    (hm : m ≠ -1) (hread : data.data.length ≤ maxRead) (h : Swept m t seen past es w) :
    Triple (· = (w.leftReads reads).log [.read m data.data]) (processInputBuffer data)
      (fun _ => Sweeping m t seen past) (fun _ => Underway m t seen) := by
  have hlen := h.carried.length_merge hread
  have hcount := h.count
  -- the actions of the scan, with the times of their queries left to show
  have hscan := @performScan_asks m seen t past (scannedIn es ++ data.data) (scannedIn es).length
    hm _ ((w.seen : Int) + data.len - (mergeCarry w.bufMasterCmd data).len) 0 _
    (h.carried.sweeps hread)
    (by rw [List.length_append]; unfold WData.len; omega)
    (by rw [← List.append_assoc]; exact h.carried.legible_merge hread) ?_
  · rintro v rfl
    have hrest : Triple (· = ((w.leftReads reads).log [.read m data.data]).scanning data)
        (do
          performScan ((w.seen : Int) + data.len - (mergeCarry w.bufMasterCmd data).len)
            (Scan.processInputBuffer w.bufMasterCmd data).1
          finish (Scan.processInputBuffer w.bufMasterCmd data).2)
        (fun _ => Sweeping m t seen past) (fun _ => Underway m t seen) := by
      refine Triple.bind (hscan.pre fun v hv => ?_) fun _ =>
        keeps_finish (fun _ hv => Sweeping.underway hv) _
      exact hv ▸ Or.inr ⟨_, h.asking hread⟩
    exact hrest _ rfl
  · -- the carry and the chunk together say when a line is due
    intro p hp u key' v hu hpre
    have htime := @Scan.Carried.inTime data (past ++ scannedIn es) w.bufMasterCmd h.carried hread
      p hp (past ++ u) key' v
    rw [List.length_append, List.length_append, List.append_assoc, List.append_assoc,
      List.prefix_append_right_inj] at htime
    have := htime (by unfold WData.len at hu; omega) hpre
    omega

/-! ## The callbacks -/

/-- **A chunk** is scanned: every query that it makes is in time, and the new carry starts behind
the last of them. -/
theorem handleChunk_sweeps {data : WData} {reads : List (Except Int (UInt8 × Bytes))}
    (hm : m ≠ -1) (hread : data.data.length ≤ maxRead) (hstate : w.state = .running)
    (h : Swept m t seen past es w) :
    Triple (· = (w.leftReads reads).log [.read m data.data]) (handleChunk data)
      (fun _ => Sweeping m t seen past) (fun _ => Underway m t seen) := by
  have hexamine : Triple (· = (w.leftReads reads).log [.read m data.data]) (examine data)
      (fun _ => Sweeping m t seen past) (fun _ => Underway m t seen) := by
    rintro v rfl
    rw [examine_running (show ((w.leftReads reads).log [.read m data.data]).state = .running from
      hstate)]
    exact processInputBuffer_sweeps hm hread h _ rfl
  refine Triple.bind hexamine fun _ => Triple.bind Triple.get fun v => ?_
  exact (((robust_sweeping hm).keeps_writeData v.clientFd data.data).conseq (fun _ hv => hv.2)
    (fun _ _ => id) fun _ _ hv => hv.underway).discard

/-- **A read of the master**, with the cases of its outcomes: none, an error and a chunk. -/
theorem readFromMaster_sweeps (hm : m ≠ -1) :
    Triple (fun w => (m ∈ w.fds ∧ w.state = .running) ∧ ∃ es, Swept m t seen past es w)
      (readFromMaster m) (fun _ => Sweeping m t seen past) (fun _ => Underway m t seen) := by
  rintro w ⟨⟨hopen, hstate⟩, es, h⟩
  have hup : w.masterFd ≠ -1 := h.master ▸ hm
  have hleft : ∀ reads, Swept m t seen past es (w.leftReads reads) := fun _ =>
    h.same rfl rfl rfl rfl rfl
  unfold readFromMaster
  rw [run_get_bind]
  simp only [hstate]
  rw [defaultCase_open hup hm hopen]
  cases w.outcomes.reads with
  | nil => exact h.toRecorded.underway
  | cons r reads =>
    cases r with
    | error e =>
      simp only
      cases again e with
      | true => exact Or.inr ⟨es, hleft reads⟩
      | false => exact (robust_sweeping hm).closeFd _ (Or.inr ⟨es, hleft reads⟩)
    | ok got => exact handleChunk_sweeps hm (List.length_take_le _ _) hstate h _ rfl

/-- The other callbacks leave the stream of the master alone. -/
theorem callback_sweeps {fd : Int} {handler : Handler} (hm : m ≠ -1)
    (hhandler : handler ≠ .readFromMaster) (hfd : fd ≠ m) :
    Triple (Sweeping m t seen past) (callback handler fd) (fun _ => Sweeping m t seen past)
      (fun _ => Underway m t seen) := by
  have hrobust := @robust_sweeping m seen t past hm
  have hread : ∀ size, Keeps (Sweeping m t seen past) (Sweeping m t seen past)
      (readData fd size) := by
    refine hrobust.enduring.keeps_readData ?_
    rintro w bs (hover | ⟨es, h⟩)
    · exact Or.inl (Over.grows _ _ hover (List.prefix_append _ _))
    · exact Or.inr ⟨_, @Swept.extend m seen es [.read fd bs] w _ t past h rfl rfl rfl
        (by simp [readFrom, hfd]) rfl rfl rfl (Or.inl rfl)⟩
  have hkeeps : Keeps (Sweeping m t seen past) (Sweeping m t seen past) (callback handler fd) := by
    cases handler with
    | readFromMaster => exact absurd rfl hhandler
    | readFromSlave =>
      exact keeps_readFromSlave hread (.of_keeps hrobust.keeps_writeData _)
        settable_sweeping.stateless
    | readDelValue => exact keeps_readDelValue (fun _ => id) hread settable_sweeping
    | acceptTcpHandler => exact hrobust.keeps_acceptTcpHandler
  exact hkeeps.conseq (fun _ => id) (fun _ _ => id) fun _ _ h => h.underway

/-! ## Runs -/

/-- The step is taken in `RUNNING_STATE`. -/
def WhileRunning (w : World) (_ : Step) : Prop := w.state = .running

instance (w : World) (s : Step) : Decidable (WhileRunning w s) :=
  inferInstanceAs (Decidable (w.state = .running))

/-- **One step** of the running proxy, with one case for each callback. -/
theorem run_sweeps (hm : m ≠ -1) (s : Step) :
    Triple (fun w => (Sweeping m t seen past w ∧ Settled True w ∧ Kept w) ∧ WhileRunning w s) s.run
      (fun _ w => Sweeping m t seen past w ∧ Settled True w ∧ Kept w)
      (fun _ => Underway m t seen) := by
  have hsweep : Triple (fun w => (Sweeping m t seen past w ∧ Settled True w ∧ Kept w)
      ∧ WhileRunning w s) s.run (fun _ => Sweeping m t seen past) (fun _ => Underway m t seen) := by
    rintro w ⟨⟨hover | ⟨es, h⟩, hset, hkept⟩, hstate⟩
    · -- a sweep that is over stays so
      exact (keeps_run_of_grows (Over.grows (t := t)) s).conseq (fun _ => id)
        (fun _ _ => Or.inl) (fun _ _ => Or.inl) w hover
    · have hne : w.state ≠ .start := by
        rw [show w.state = .running from hstate]
        decide
      have hup := hset.up_of_state hkept hne
      have hw : ∀ fired, Swept m t seen past es
          { w with outcomes := s.outcomes, fired := fired } := fun _ =>
        h.same rfl rfl rfl rfl rfl
      rcases s.run_cases w with ⟨fired, heq⟩ | ⟨fd, fired, handler, hcalls, hentry, heq⟩ | heq
      · rw [heq]
        exact Or.inr ⟨es, hw fired⟩
      · rw [heq]
        -- only the master's callback scans
        rcases Decidable.em (handler = .readFromMaster) with rfl | hother
        · obtain ⟨-, howner⟩ := hset.master hentry
          rw [howner.trans h.master]
          exact readFromMaster_sweeps hm _ ⟨⟨h.master ▸ hup.master.isOpen, hstate⟩, es, hw fired⟩
        · refine callback_sweeps hm hother ?_ _ (Or.inr ⟨es, hw fired⟩)
          rintro rfl
          rw [← h.master, hup.master.entry] at hentry
          exact hother (Option.some.inj hentry).symm
      · rw [heq, timeEvent_up (w := { w with outcomes := s.outcomes }) (h.master ▸ hm)]
        exact Or.inr ⟨es, h.same rfl rfl rfl rfl rfl⟩
  exact (hsweep.and (step_stands s)).conseq (fun _ h => ⟨h, h.1.2⟩) (fun _ _ => id)
    fun _ _ h => h.1

/-- **Queries come in time, and once**, in every run in `RUNNING_STATE`, at every moment until
the next reset. There are no other lines on `read_fd` than those of the queries. -/
theorem timed_of_run {w₀ : World} (h : w₀.Reachable) (hstate : w₀.state = .running)
    (stop : Option Stop) {w : World} (hrun : Moment Step.run WhileRunning w₀ stop w) :
    ∃ es, w.trace = w₀.trace ++ es
      ∧ (Event.reset ∉ es → Timed w₀.masterFd w.readFd w₀.seen es) ∧ OnlyLines w := by
  obtain ⟨hset, hkept⟩ := h.kept
  obtain ⟨past, hpast⟩ := hkept.carried
  have hm : w₀.masterFd ≠ -1 := by
    apply Up.masterFd_ne (hset.up_of_state hkept _)
    rw [hstate]
    decide
  have hstart : Swept w₀.masterFd w₀.trace w₀.seen past [] w₀ :=
    { trace := (List.append_nil _).symm
      master := rfl
      count := rfl
      read := rfl
      timed := .nil _ _ _
      places := fun _ hp => absurd hp List.not_mem_nil
      carried := by
        show Scan.Carried (past ++ []) _
        rwa [List.append_nil] }
  have hunder : Underway w₀.masterFd w₀.trace w₀.seen w := by
    have hkeeps := hrun.keeps (run_sweeps hm) ⟨Or.inr ⟨[], hstart⟩, hset, hkept⟩
    cases stop with
    | none => exact hkeeps.1.underway
    | some e => exact hkeeps
  rcases hunder with ⟨es, htrace, hreset⟩ | ⟨es, htrace, htimed⟩
  · exact ⟨es, htrace, fun hno => absurd hreset hno, onlyLines_of_moment h hrun⟩
  · exact ⟨es, htrace, fun _ => htimed, onlyLines_of_moment h hrun⟩

/-- `DEL k` in two reads, the first of which ends behind the length of the key. -/
def cutDel : List Step :=
  Accepting.ready 5
      [.ok (42, [50, 13, 10, 36, 51, 13, 10, 68, 69, 76, 13, 10, 36, 49, 13, 10])] [.ok 99]
    ++ Accepting.ready 5 [.ok (107, [13, 10])] [.ok 99, .ok 99]

theorem timed_of_run_cutDel : ∃ w₀ w es, w₀.Reachable ∧ w₀.state = .running
    ∧ Moment Step.run WhileRunning w₀ none w ∧ w.trace = w₀.trace ++ es
    ∧ placesIn es = [(w₀.seen : Int)] ∧ Timed w₀.masterFd w.readFd w₀.seen es ∧ OnlyLines w := by
  have hrun : ((World.start (Accepting.outcomes 7)).bind
      (runAll Step.run (fun _ _ => True) Running.steps)).any
        (fun w₀ => decide (w₀.state = .running)
          && (runAll Step.run WhileRunning cutDel w₀).any fun w =>
            let es := w.trace.drop w₀.trace.length
            decide (Event.reset ∉ es ∧ placesIn es = [(w₀.seen : Int)])) = true := by
    decide +kernel
  obtain ⟨w₀, hreach, hw₀⟩ := World.reachable_of_any hrun
  obtain ⟨hstate, hany⟩ := Bool.and_eq_true_iff.mp hw₀
  have hstate := of_decide_eq_true hstate
  obtain ⟨w, hlast, hw⟩ := Run.of_any hany
  obtain ⟨hreset, hplaces⟩ := of_decide_eq_true hw
  obtain ⟨es, htrace, htimed, hlines⟩ := timed_of_run hreach hstate none (.reached hlast)
  rw [htrace, List.drop_left] at hreset hplaces
  exact ⟨w₀, w, es, hreach, hstate, .reached hlast, htrace, hplaces, htimed hreset, hlines⟩

end Iceberg
