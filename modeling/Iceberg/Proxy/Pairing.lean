import Iceberg.Proxy.HashObjects
import Iceberg.Proxy.Lines
import Iceberg.Proxy.OneAnswer
import Iceberg.Proxy.Reset

/-!
# Replies go to the keys they were asked for

The master, the connection for the queries and the one for the replies move on in any order.
Whatever they do, the queue holds the keys whose line has been written on the present
connection and whose reply has not been read completely: `queryKey` adds a key only behind
its line, `readDelValue` removes one for each reply that it completes, and a reset clears the
queue together with the connection.
-/

namespace Iceberg

open Triples Framing Resp
open Iceberg.Parser (pairSets pairSets_of_nulFree)
open Answers (HgetallAnswer TakesKey callsFor)

/-! ## The connection for the queries -/

namespace World

/-- The replies to the lines that have been written to it. The lines are counted from the
start of the proxy, and line `n` is answered by `slave n`. -/
def replies (slave : Nat → Reply) (w : World) : List Reply :=
  (List.range' ((keysIn w.trace).length - (keysIn w.connection).length)
    (keysIn w.connection).length).map slave

/-- The keys whose line has been written to it, and whose reply has not been read completely,
in the order of the lines. -/
def pending (slave : Nat → Reply) (w : World) : List Key :=
  (keysIn w.connection).drop (whole Reply.enc (w.replies slave) w.received.length)

end World

/-- A reply of at most `MAX_READ` bytes: a hash of strings that are neither empty nor contain
a zero byte, or an error line of at least seven bytes. -/
def Proper : Reply → Prop
  | .hash pairs => (Reply.hash pairs).enc.length ≤ maxRead
      ∧ ∀ item ∈ Reply.items pairs, item ≠ [] ∧ Byte.nul ∉ item
  | .line marker text => (Reply.line marker text).enc.length ≤ maxRead
      ∧ 7 ≤ (Reply.line marker text).enc.length ∧ marker = Byte.minus ∧ Byte.lf ∉ text

/-- Every object that has been handed to `saveValue` is the reply to a line for its key. -/
def OwnValues (slave : Nat → Reply) (w : World) : Prop :=
  ∀ object key, .saveValue object key ∈ w.answers.calls →
    ∃ n pairs, (keysIn w.trace)[n]? = some key ∧ slave n = .hash pairs ∧ object = .object pairs

/-- **The pairing.** What has been written to the connection are the lines of some keys, and at
most a beginning of the next one. The queue holds those of the keys that wait for their replies,
and every object that has been handed over is the reply to the line of its key. -/
structure Paired (slave : Nat → Reply) (w : World) : Prop where
  lines : ∃ key part, w.written = (keysIn w.connection).flatMap Scan.queryCmd ++ part
    ∧ part <+: Scan.queryCmd key ∧ part ≠ Scan.queryCmd key
  queue : w.answers.q.toList = w.pending slave
  values : OwnValues slave w

/-- The slave sends its replies in order, each of them once: what is read next on the
connection continues them. -/
def Served (slave : Nat → Reply) (w : World) (s : Step) : Prop :=
  s.Calls w .readDelValue →
    w.received ++ s.outcomes.chunk <+: (w.replies slave).flatMap Reply.enc

/-- When the reads before this one ended inside a reply, the copy of this one into the merged
buffer is exact; and when this one ends inside a reply, the copy of the part of the reply is. -/
def CopiesWhole (slave : Nat → Reply) (w : World) (s : Step) : Prop :=
  s.Calls w .readDelValue →
    (rest Reply.enc (w.replies slave) w.received.length ≠ [] → Copied s.outcomes.chunk)
    ∧ Copied (rest Reply.enc (w.replies slave) (w.received ++ s.outcomes.chunk).length)

variable {slave : Nat → Reply} {w w' : World} {es : List Event} {fd : Int}

/-! ## Longer traces -/

namespace World

theorem replies_none (h : w.readFd = -1) : w.replies slave = [] := by
  unfold replies
  rewrite [connection_none h]
  rfl

theorem pending_none (h : w.readFd = -1) : w.pending slave = [] := by
  unfold pending
  rewrite [connection_none h]
  exact List.drop_nil

theorem length_replies (slave : Nat → Reply) (w : World) :
    (w.replies slave).length = (keysIn w.connection).length := by
  simp [replies]

/-- The replies to new lines come behind all others. -/
theorem Continues.replies (h : w.Continues w' es) :
    w'.replies slave
      = w.replies slave ++ (List.range' (keysIn w.trace).length (keysIn es).length).map slave := by
  have hle : (keysIn w.connection).length ≤ (keysIn w.trace).length :=
    (w.connection_suffix.filterMap _).length_le
  unfold World.replies
  rw [h.keys, h.trace, keysIn_append, List.length_append, List.length_append,
    Nat.add_sub_add_right, ← List.range'_append_1, List.map_append, Nat.sub_add_cancel hle]

theorem Continues.replies_eq (h : w.Continues w' es) (hkeys : keysIn es = []) :
    w'.replies slave = w.replies slave := by
  rw [h.replies, hkeys]
  exact List.append_nil _

theorem Continues.pending_eq (h : w.Continues w' es) (hkeys : keysIn es = [])
    (hread : readFrom w.readFd es = []) : w'.pending slave = w.pending slave := by
  unfold pending
  rw [h.keys, h.replies_eq hkeys, h.received, hkeys, hread, List.append_nil, List.append_nil]

end World

/-! ## What holds between the steps -/

/-- Outside of the loop of `writeData` there is no beginning of a line, and `buf_slave_answer`
holds what has been read of the next reply. -/
structure Answering (slave : Nat → Reply) (w : World) : Prop extends Lined w where
  queue : w.answers.q.toList = w.pending slave
  values : OwnValues slave w
  stream : w.received <+: (w.replies slave).flatMap Reply.enc
  buf : w.answers.bufSlaveAnswer = rest Reply.enc (w.replies slave) w.received.length
  copied : Copied w.answers.bufSlaveAnswer

theorem Answering.paired (h : Answering slave w) : Paired slave w where
  lines := h.onlyLines
  queue := h.queue
  values := h.values

/-- More lines keep the values that have been handed over. -/
theorem OwnValues.append (h : OwnValues slave w) (htrace : w'.trace = w.trace ++ es)
    (hcalls : w'.answers.calls = w.answers.calls) : OwnValues slave w' := by
  intro object key hmem
  rw [hcalls] at hmem
  obtain ⟨n, pairs, hkey, hslave, hobject⟩ := h object key hmem
  refine ⟨n, pairs, ?_, hslave, hobject⟩
  obtain ⟨hlt, -⟩ := List.getElem?_eq_some_iff.mp hkey
  rw [htrace, keysIn_append, List.getElem?_append_left hlt, hkey]

/-- Without a connection nothing is waited for. -/
theorem Answering.disconnected (hnone : w.readFd = -1) (hqueue : w.answers.q.toList = [])
    (hbuf : w.answers.bufSlaveAnswer = [])
    (hvalues : OwnValues slave w) : Answering slave w where
  toLined := .disconnected hnone
  queue := by rw [hqueue, World.pending_none hnone]
  values := hvalues
  stream := by
    rw [World.received_none hnone]
    exact List.nil_prefix
  buf := by
    rw [World.replies_none hnone]
    exact hbuf
  copied := by
    rw [hbuf]
    exact copied_nil

theorem Answering.queue_nil (h : Answering slave w) (hnone : w.readFd = -1) :
    w.answers.q.toList = [] := by
  rw [h.queue, World.pending_none hnone]

theorem Answering.buf_nil (h : Answering slave w) (hnone : w.readFd = -1) :
    w.answers.bufSlaveAnswer = [] := by
  rw [h.buf, World.replies_none hnone]
  rfl

/-- Events that neither ask nor belong to the connection. -/
theorem Answering.log (h : Answering slave w) (htrace : w'.trace = w.trace ++ es)
    (hreader : w'.readFd = w.readFd) (hanswers : w'.answers = w.answers) (hkeys : keysIn es = [])
    (hes : w.readFd = -1 ∨ ∀ e ∈ es, e.Elsewhere w.readFd)
    (hmaster : w'.masterFd = -1 → w.masterFd = -1 ∨ w.readFd = -1) : Answering slave w' := by
  have hvalues : OwnValues slave w' := h.values.append htrace (congrArg Answers.calls hanswers)
  -- without a connection to redis-server there is nothing to keep
  rcases Decidable.em (w.readFd = -1) with hr | hr
  · apply Answering.disconnected (hreader.trans hr)
    · rw [hanswers]
      exact h.queue_nil hr
    · rw [hanswers]
      exact h.buf_nil hr
    · exact hvalues
  · -- nothing here was read on it, so what has been received is the same
    obtain ⟨hopened, hread, -⟩ := elsewhere_quiet (hes.resolve_left hr)
    have hnext : w.Continues w' es := World.continues htrace hreader hr hopened
    have hreceived : w'.received = w.received := by
      rw [hnext.received, hread, List.append_nil]
    refine
      { toLined := watches_lined.log w w' es h.toLined htrace hreader hanswers hkeys hes hmaster
        queue := ?_
        values := hvalues
        stream := ?_
        buf := ?_
        copied := ?_ }
    · rw [hanswers, hnext.pending_eq hkeys hread]
      exact h.queue
    · rw [hnext.replies_eq hkeys, hreceived]
      exact h.stream
    · rw [hanswers, hnext.replies_eq hkeys, hreceived]
      exact h.buf
    · rw [hanswers]
      exact h.copied

/-- A reset takes the queue with the connection. -/
theorem OwnValues.closeFd (h : OwnValues slave w) : Answering slave w.closeFd := by
  obtain ⟨es, htrace⟩ := w.closeFd_trace
  apply Answering.disconnected World.closeFd_readFd
  · rw [World.closeFd_answers]
    exact Fifo.toList_clear _
  · rw [World.closeFd_answers]
  · apply h.append htrace
    rw [World.closeFd_answers]

/-- The connection for the queries is opened. -/
theorem Answering.opened (h : Answering slave w) (hnone : w.readFd = -1)
    (htrace : w'.trace = w.trace ++ [.opened fd]) (hreader : w'.readFd = fd)
    (hanswers : w'.answers = w.answers) (hmaster : w'.masterFd ≠ -1) : Answering slave w' := by
  -- on a new connection nothing has been asked or received
  have hconnection : w'.connection = [] := World.connection_opened htrace hreader
  have hreceived : w'.received = [] := by
    unfold World.received
    rewrite [hconnection]
    rfl
  have hreplies : w'.replies slave = [] := by
    unfold World.replies
    rewrite [hconnection]
    rfl
  refine
    { toLined := watches_lined.opened w w' fd h.toLined hnone htrace hreader hanswers hmaster
      queue := ?_
      values := ?_
      stream := ?_
      buf := ?_
      copied := ?_ }
  · show _ = List.drop _ (keysIn w'.connection)
    rw [hanswers, h.queue_nil hnone, hconnection]
    exact List.drop_nil.symm
  · exact h.values.append htrace (congrArg Answers.calls hanswers)
  · rw [hreceived]
    exact List.nil_prefix
  · rw [hanswers, h.buf_nil hnone, hreplies]
    rfl
  · rw [hanswers]
    exact h.copied

/-- A line has been written, and its key is queued. -/
theorem Answering.asked (h : Answering slave w) (hr : w.readFd ≠ -1)
    (hfull : w.answers.q.isFull = false) {pieces : List Bytes} {place : Int} {key : Key}
    (hline : pieces.flatten = Scan.queryCmd key)
    (htrace : w'.trace = w.trace ++ (pieces.map (Event.wrote w.readFd) ++ [.asked place key]))
    (hreader : w'.readFd = w.readFd)
    (hanswers : w'.answers = { w.answers with q := w.answers.q.push key })
    (hmaster : w'.masterFd = w.masterFd) : Answering slave w' := by
  have hnext : w.Continues w' _ := World.continues htrace hreader hr (by simp)
  -- the one line that was written is the last of the connection
  have hnew : keysIn (pieces.map (Event.wrote w.readFd) ++ [.asked place key]) = [key] := by
    rw [keysIn_append, keysIn_wrote]
    rfl
  have hreceived : w'.received = w.received := by
    rw [hnext.received, readFrom_append, readFrom_wrote]
    exact List.append_nil _
  -- the reply to the new line comes behind all that has been read
  have hlen := h.stream.length_le
  have hdone : whole Reply.enc (w.replies slave) w.received.length
      ≤ (keysIn w.connection).length := by
    rw [← World.length_replies slave]
    exact whole_le_length _ _ _
  refine
    { toLined := watches_lined.asked w w' pieces place key h.toLined hr hfull hline htrace hreader
        hanswers hmaster
      queue := ?_
      values := ?_
      stream := ?_
      buf := ?_
      copied := ?_ }
  · -- the queue has the key of the new line at its end
    unfold World.pending
    rw [hreceived, hnext.replies, whole_append _ Reply.enc_ne_nil _ _ hlen, hnext.keys, hnew,
      List.drop_append_of_le_length hdone, hanswers, Fifo.toList_push _ hfull, h.queue]
    rfl
  · apply h.values.append htrace
    rw [hanswers]
  · rw [hreceived, hnext.replies, List.flatMap_append]
    exact h.stream.trans (List.prefix_append _ _)
  · rw [hreceived, hnext.replies, rest_append _ Reply.enc_ne_nil _ _ hlen, hanswers]
    exact h.buf
  · rw [hanswers]
    exact h.copied

/-- A beginning of a line has been written. -/
theorem Answering.begun (h : Answering slave w) (hr : w.readFd ≠ -1) {pieces : List Bytes}
    {key : Key} (hpre : pieces.flatten <+: Scan.queryCmd key)
    (hne : pieces.flatten ≠ Scan.queryCmd key)
    (htrace : w'.trace = w.trace ++ pieces.map (Event.wrote w.readFd))
    (hreader : w'.readFd = w.readFd) (hanswers : w'.answers = w.answers) : Paired slave w' := by
  have hnext : w.Continues w' _ := World.continues htrace hreader hr (by simp)
  refine ⟨watches_lined.begun w w' pieces key h.toLined hr hpre hne htrace hreader hanswers,
    ?_, ?_⟩
  · rw [hanswers, hnext.pending_eq (keysIn_wrote _ _) (readFrom_wrote _ _ _)]
    exact h.queue
  · exact h.values.append htrace (congrArg Answers.calls hanswers)

/-- The pairing survives everything but a read of replies: a written line puts its key into the
queue, and a reset empties it. -/
theorem watches_answering (slave : Nat → Reply) : Watches (Answering slave) (Paired slave) where
  stop _ h := h.paired
  down _ h := h.down
  log _ _ _ h := h.log
  opened _ _ _ h := h.opened
  closeFd _ h := h.values.closeFd
  cut _ _ h := OwnValues.closeFd (h.values.append rfl rfl)
  begun _ _ _ _ h hr hpre hne := h.begun hr hpre hne
  asked _ _ _ _ _ h hr hfull hline := h.asked hr hfull hline

/-! ## A read of replies -/

/-- What is proper is an answer to `hgetall` that takes a key, and fits into the buffer. -/
theorem readable_of_proper {r : Reply} (h : Proper r) :
    HgetallAnswer r ∧ TakesKey r ∧ r.enc.length ≤ maxRead := by
  cases r with
  | hash pairs => exact ⟨fun item hitem => (h.2 item hitem).1, trivial, h.1⟩
  | line marker text =>
    obtain ⟨hfit, hlong, hmarker, hline⟩ := h
    refine ⟨⟨hmarker, hline⟩, ?_, hfit⟩
    show 3 < text.length
    simp only [Reply.enc, List.length_cons, List.length_append, List.length_nil] at hlong
    omega

/-- The object of a proper hash has its pairs. -/
theorem pairSets_of_proper {pairs : List (Bytes × Bytes)} (h : Proper (.hash pairs)) :
    pairSets pairs = pairs := by
  apply pairSets_of_nulFree
  intro p hp
  have hitem : ∀ item ∈ [p.1, p.2], Byte.nul ∉ item := fun item hitem =>
    (h.2 item (List.mem_flatMap.mpr ⟨p, hp, hitem⟩)).2
  exact ⟨hitem p.1 (by simp), hitem p.2 (by simp)⟩

/-- What is paired in a part of two lists is paired in the lists. -/
theorem mem_zip_drop {α β : Type} {l : List α} {l' : List β} {k j : Nat} {x : α × β}
    (h : x ∈ (l.drop k).zip ((l'.drop k).take j)) : x ∈ l.zip l' := by
  obtain ⟨i, hi⟩ := List.mem_iff_getElem?.mp h
  rw [List.getElem?_zip_eq_some, List.getElem?_drop, List.getElem?_take] at hi
  obtain ⟨hleft, hright⟩ := hi
  split at hright
  · rw [List.getElem?_drop] at hright
    exact List.mem_of_getElem? (List.getElem?_zip_eq_some.mpr ⟨hleft, hright⟩)
  · cases hright

/-- A key of the connection, and the reply to its line. -/
theorem World.line_of_mem {key : Key} {r : Reply}
    (h : (key, r) ∈ (keysIn w.connection).zip (w.replies slave)) :
    ∃ n, (keysIn w.trace)[n]? = some key ∧ slave n = r := by
  obtain ⟨front, hfront⟩ := w.connection_suffix
  have hall : keysIn w.trace = keysIn front ++ keysIn w.connection := by
    rw [← keysIn_append, hfront]
  obtain ⟨i, hi⟩ := List.mem_iff_getElem?.mp h
  rw [List.getElem?_zip_eq_some] at hi
  obtain ⟨hkey, hreply⟩ := hi
  refine ⟨(keysIn front).length + i, ?_, ?_⟩
  · rw [hall, List.getElem?_append_right (Nat.le_add_right _ _), Nat.add_sub_cancel_left]
    exact hkey
  · unfold World.replies at hreply
    rw [hall, List.length_append, Nat.add_sub_cancel, List.getElem?_map,
      List.getElem?_range'] at hreply
    · simpa using hreply
    · exact (List.getElem?_eq_some_iff.mp hkey).1

/-- What a read leaves of a reply fits into the buffer. -/
theorem length_rest_lt {replies : List Reply} (h : ∀ r ∈ replies, Proper r) (n : Nat) :
    (rest Reply.enc replies n).length < maxRead := by
  rcases rest_prefix Reply.enc replies n with hnil | ⟨g, hg, -, hlt⟩
  · rw [hnil]
    decide
  · have := (readable_of_proper (h g (List.mem_of_getElem? hg))).2.2
    omega

/-- The parser takes the keys of the replies that the read completes, and saves what it leaves
of the next one. -/
theorem Answering.parse (hslave : ∀ n, Proper (slave n)) (h : Answering slave w) {data : WData}
    (hread : data.data.length ≤ maxRead)
    (hserved : w.received ++ data.data <+: (w.replies slave).flatMap Reply.enc)
    (hcopy : rest Reply.enc (w.replies slave) w.received.length ≠ [] → Copied data.data)
    (hrest : Copied (rest Reply.enc (w.replies slave) (w.received ++ data.data).length)) :
    w.answers.parseReadData data = ({ w.answers.consumeAll
        (between Reply.enc (w.replies slave) w.received.length data.data.length) with
        bufSlaveAnswer :=
          rest Reply.enc (w.replies slave) (w.received.length + data.data.length) }, .done) := by
  have hproper : ∀ r ∈ w.replies slave, Proper r := by
    intro r hr
    obtain ⟨n, -, rfl⟩ := List.mem_map.mp hr
    exact hslave n
  have hreadable : ∀ r ∈ w.replies slave, Parser.Readable r := fun r hr =>
    Answers.readable_of_hgetallAnswer (readable_of_proper (hproper r hr)).1
  -- the bytes of this read are the next ones of the replies
  have hdata : data.data = (((w.replies slave).flatMap Reply.enc).drop w.received.length).take
      data.data.length := by
    obtain ⟨tail, htail⟩ := hserved
    rw [← htail, List.append_assoc, List.drop_left, List.take_left]
  rw [List.length_append] at hrest
  apply Answers.parseReadData_stream
  · rw [h.buf, ← rest_append_chunk, ← hdata]
  · exact fun r hr => hreadable r (mem_of_mem_between _ hr)
  · -- what is left over after the read is the part of one reply, shorter than the buffer
    have hkept : Answers.Kept (rest Reply.enc (w.replies slave)
        (w.received.length + data.data.length)) none :=
      ⟨length_rest_lt hproper _, hrest, fun _ _ hnone => by cases hnone⟩
    apply Answers.carried_rest hreadable ?_ hkept
    intro r hr
    have := (readable_of_proper (hproper r hr)).2.2
    unfold maxRead at this
    omega
  · exact hread
  · rw [h.buf]
    exact length_rest_lt hproper _
  · intro hne
    refine ⟨h.copied, hcopy ?_⟩
    rwa [h.buf] at hne
  · rw [h.queue]
    show _ ≤ (List.drop _ _).length
    rw [List.length_drop, ← World.length_replies slave]
    exact length_between_le _ _ _ _

/-- The state behind the read. -/
theorem Answering.answered (hslave : ∀ n, Proper (slave n)) (h : Answering slave w)
    (hr : w.readFd ≠ -1) {bs : Bytes}
    (hserved : w.received ++ bs <+: (w.replies slave).flatMap Reply.enc)
    (hrest : Copied (rest Reply.enc (w.replies slave) (w.received ++ bs).length))
    (htrace : w'.trace = w.trace ++ [.read w.readFd bs]) (hreader : w'.readFd = w.readFd)
    (hanswers : w'.answers = { w.answers.consumeAll
        (between Reply.enc (w.replies slave) w.received.length bs.length) with
        bufSlaveAnswer := rest Reply.enc (w.replies slave) (w.received.length + bs.length) })
    (hmaster : w'.masterFd = w.masterFd) : Answering slave w' := by
  have hnext : w.Continues w' _ := World.continues htrace hreader hr (by simp)
  have hkeys : keysIn w'.connection = keysIn w.connection :=
    hnext.keys.trans (List.append_nil _)
  have hreplies : w'.replies slave = w.replies slave := hnext.replies_eq rfl
  have hreceived : w'.received = w.received ++ bs := by
    rw [hnext.received]
    simp [readFrom]
  have hlength : w'.received.length = w.received.length + bs.length := by
    rw [hreceived, List.length_append]
  -- the replies that the read completes, and the keys of their lines
  have hproper : ∀ r ∈ between Reply.enc (w.replies slave) w.received.length bs.length,
      Proper r := by
    intro r hr
    obtain ⟨n, -, rfl⟩ := List.mem_map.mp (mem_of_mem_between _ hr)
    exact hslave n
  have hcount : (between Reply.enc (w.replies slave) w.received.length bs.length).length
      ≤ w.answers.q.toList.length := by
    rw [h.queue]
    show _ ≤ (List.drop _ _).length
    rw [List.length_drop, ← World.length_replies slave]
    exact length_between_le _ _ _ _
  have hmono := whole_mono Reply.enc (w.replies slave)
    (Nat.le_add_right w.received.length bs.length)
  refine
    { toLined := h.goes htrace hreader rfl (Or.inr ⟨by simp, rfl⟩) fun hm =>
        Or.inl (hmaster.symm.trans hm)
      queue := ?_
      values := ?_
      stream := ?_
      buf := ?_
      copied := ?_ }
  · -- every reply that is complete takes one key off the queue
    have htakes : List.countP (fun r => decide (TakesKey r))
        (between Reply.enc (w.replies slave) w.received.length bs.length)
        = whole Reply.enc (w.replies slave) (w.received.length + bs.length)
          - whole Reply.enc (w.replies slave) w.received.length := by
      rw [← length_between, List.countP_eq_length]
      exact fun r hr => decide_eq_true (readable_of_proper (hproper r hr)).2.1
    show _ = List.drop _ (keysIn w'.connection)
    rw [hanswers, hreplies, hlength, hkeys]
    show (w.answers.consumeAll _).q.toList = _
    rw [Answers.toList_consumeAll, htakes, h.queue]
    show List.drop _ (List.drop _ _) = _
    rw [List.drop_drop, Nat.add_sub_cancel' hmono]
  · intro object key hmem
    rw [hanswers] at hmem
    rw [htrace, keysIn_append]
    show ∃ n pairs, (keysIn w.trace ++ [])[n]? = _ ∧ _
    rw [List.append_nil]
    have hmem : .saveValue object key ∈ (w.answers.consumeAll _).calls := hmem
    rw [Answers.calls_consumeAll (fun r hr => (readable_of_proper (hproper r hr)).1)
      (fun r hr => (readable_of_proper (hproper r hr)).2.1) hcount] at hmem
    -- the calls of the read: one store for each line whose reply is a hash
    rcases List.mem_append.mp hmem with hold | hnew
    · exact h.values object key hold
    · obtain ⟨⟨key', r⟩, hline, hcall⟩ := List.mem_flatMap.mp hnew
      rw [h.queue] at hline
      obtain ⟨n, hkey, hreply⟩ := World.line_of_mem (mem_zip_drop hline)
      cases r with
      | hash pairs =>
        have hpairs := pairSets_of_proper (hreply ▸ hslave n)
        rw [callsFor, hpairs] at hcall
        obtain ⟨rfl, rfl⟩ : object = .object pairs ∧ key = key' := by simpa using hcall
        exact ⟨n, pairs, hkey, hreply, rfl⟩
      -- an error or a number stores nothing
      | line marker text =>
        rw [callsFor] at hcall
        simp at hcall
  · rw [hreplies, hreceived]
    exact hserved
  · rw [hanswers, hreplies, hlength]
  · rw [hanswers]
    show Copied (rest Reply.enc (w.replies slave) (w.received.length + bs.length))
    rwa [List.length_append] at hrest

/-! ## Replies -/

/-- The callback of the connection for the queries. -/
theorem readDelValue_answering (hslave : ∀ n, Proper (slave n)) (hr : w.readFd ≠ -1)
    (hopen : w.readFd ∈ w.fds) (h : Answering slave w)
    (hserved : w.received ++ w.outcomes.chunk <+: (w.replies slave).flatMap Reply.enc)
    (hcopy : rest Reply.enc (w.replies slave) w.received.length ≠ [] → Copied w.outcomes.chunk)
    (hrest : Copied (rest Reply.enc (w.replies slave)
      (w.received ++ w.outcomes.chunk).length)) :
    Triple (· = w) (readDelValue w.readFd) (fun _ => Answering slave)
      (fun _ => Answering slave) := by
  have hm : w.masterFd ≠ -1 := fun hm => hr (h.down hm)
  have hleft : ∀ reads, Answering slave (w.leftReads reads) := fun _ =>
    (watches_answering slave).same h rfl rfl rfl rfl
  rintro v rfl
  rw [readDelValue_open hm hr hopen]
  unfold Outcomes.chunk at hserved hcopy hrest
  cases hreads : v.outcomes.reads with
  -- the run stops at the read
  | nil => exact h
  | cons next reads =>
    cases next with
    | error e =>
      simp only
      cases again e with
      | true => exact hleft reads
      -- the connection is given up, the stores stay what they were
      | false => exact (hleft reads).values.closeFd
    | ok got =>
      obtain ⟨b, bs⟩ := got
      rw [hreads] at hserved hcopy hrest
      -- the parser has taken what the replies say
      have hparse := @Answering.parse slave v hslave h ⟨(b :: bs).take maxRead, v.outcomes.around⟩
        (List.length_take_le _ _) hserved hcopy hrest
      simp only [hparse]
      exact h.answered hslave hr hserved hrest rfl rfl rfl rfl

/-! ## Runs -/

/-- **One step** keeps the pairing, if it reads what the slave sends next and copies it whole. -/
theorem run_answering (hslave : ∀ n, Proper (slave n)) (s : Step) :
    Triple (fun w => (Answering slave w ∧ Settled True w) ∧ Served slave w s
        ∧ CopiesWhole slave w s) s.run
      (fun _ w => Answering slave w ∧ Settled True w) (fun _ => Paired slave) := by
  apply (watches_answering slave).step
  intro w h hreply hcalls fired hr hopen
  have hnext : Answering slave { w with outcomes := s.outcomes, fired := fired } :=
    (watches_answering slave).same h rfl rfl rfl rfl
  obtain ⟨hcopy, hrest⟩ := hreply.2 hcalls
  exact (readDelValue_answering (w := { w with outcomes := s.outcomes, fired := fired }) hslave
    hr hopen hnext (hreply.1 hcalls) hcopy hrest).conseq (fun _ => id) (fun _ _ => id)
    fun _ _ h => h.paired

/-- The pairing holds when `main` goes into its loop. -/
theorem World.Starts.answering (h : w.Starts) : Answering slave w := by
  apply (watches_answering slave).starts ?_ h
  intro o
  refine Answering.disconnected rfl rfl rfl ?_
  intro object key hmem
  exact absurd hmem List.not_mem_nil

/-- **The pairing is kept at every moment**, in whatever order the steps come, as long as the
copies of broken replies are exact. -/
theorem paired_of_run (hslave : ∀ n, Proper (slave n)) {w₀ : World} (h : w₀.Starts)
    (stop : Option Stop)
    (hrun : Moment Step.run (fun w s => Served slave w s ∧ CopiesWhole slave w s) w₀ stop w) :
    Paired slave w := by
  have hkeeps := hrun.keeps (run_answering hslave) ⟨h.answering, Or.inr h.up⟩
  cases stop with
  | none => exact hkeeps.1.paired
  | some e => exact hkeeps

instance : DecidablePred Proper
  | .hash pairs => inferInstanceAs (Decidable ((Reply.hash pairs).enc.length ≤ maxRead
      ∧ ∀ item ∈ Reply.items pairs, item ≠ [] ∧ Byte.nul ∉ item))
  | .line marker text => inferInstanceAs (Decidable ((Reply.line marker text).enc.length ≤ maxRead
      ∧ 7 ≤ (Reply.line marker text).enc.length ∧ marker = Byte.minus ∧ Byte.lf ∉ text))

instance (slave : Nat → Reply) (w : World) (s : Step) : Decidable (Served slave w s) :=
  inferInstanceAs (Decidable (s.Calls w .readDelValue → _ <+: _))

instance (slave : Nat → Reply) (w : World) (s : Step) : Decidable (CopiesWhole slave w s) :=
  inferInstanceAs (Decidable (s.Calls w .readDelValue →
    (_ ≠ [] → strncpy s.outcomes.chunk = s.outcomes.chunk) ∧ strncpy _ = _))

namespace Replying

/-- The first line is answered by `first`, and all the others by `next`. -/
def answers (first next : Reply) : Nat → Reply
  | 0 => first
  | _ + 1 => next

/-- The sample replies are proper. -/
theorem proper_answers {first next : Reply} (h : Proper first) (h' : Proper next) (n : Nat) :
    Proper (answers first next n) := by
  cases n with
  | zero => exact h
  | succ n => exact h'

/-- `DEL k` and `DEL l`, and then some reads of replies. -/
def steps (reads : List (UInt8 × Bytes)) : List Step :=
  Running.steps
    ++ Accepting.ready 5 [.ok (Running.chunk (array [delName, [108]]))] [.ok 99, .ok 99, .ok 99]
    ++ reads.flatMap fun got => Accepting.ready 8 [.ok got] []

/-- The hash with the field `f` and the value `v`. -/
def fv : Reply := .hash [([102], [118])]

/-- `-ERR1`. -/
def err : Reply := .line Byte.minus [69, 82, 82, 49]

/-- The hash in two reads, the second of which goes on to the error line. -/
def cut : List (UInt8 × Bytes) :=
  [(42, [50, 13, 10, 36, 49, 13, 10, 102, 13, 10, 36, 49]), (13, [10, 118, 13, 10, 45])]

/-- An error line with a zero byte in its text. -/
def nulErr : Reply := .line Byte.minus [69, 0, 82, 82, 82, 82]

/-- The error line in two reads, and then the empty hash. -/
def nulCut : List (UInt8 × Bytes) :=
  [(45, []), (69, [0, 82, 82, 82, 82, 13, 10]), (42, [48, 13, 10])]

end Replying

theorem paired_of_run_cut : ∃ slave w₀ w, (∀ n, Proper (slave n)) ∧ w₀.Starts
    ∧ Moment Step.run (fun w s => Served slave w s ∧ CopiesWhole slave w s) w₀ none w
    ∧ w.answers.q.toList = [[108]] ∧ .saveValue (.object [([102], [118])]) [107] ∈ w.answers.calls
    ∧ Paired slave w := by
  have hslave : ∀ n, Proper (Replying.answers Replying.fv Replying.err n) :=
    Replying.proper_answers (by decide) (by decide)
  have hrun : (World.start (Accepting.outcomes 7)).any (fun w₀ =>
      (runAll Step.run (fun w s => Served (Replying.answers Replying.fv Replying.err) w s
        ∧ CopiesWhole (Replying.answers Replying.fv Replying.err) w s)
        (Replying.steps Replying.cut) w₀).any fun w => decide (w.answers.q.toList = [[108]]
          ∧ .saveValue (.object [([102], [118])]) [107] ∈ w.answers.calls)) = true := by
    decide +kernel
  obtain ⟨w₀, hstart, hany⟩ := (Option.any_eq_true _ _).mp hrun
  obtain ⟨w, hlast, hw⟩ := Run.of_any hany
  obtain ⟨hqueue, hcall⟩ := of_decide_eq_true hw
  have hstarts := World.starts_of_start hstart
  exact ⟨_, w₀, w, hslave, hstarts, .reached hlast, hqueue, hcall,
    paired_of_run hslave hstarts none (.reached hlast)⟩

/-- Of the error line only the bytes in front of the zero byte are put behind the part that was
saved, so its line end is lost, and the line ends with the next reply. One key is removed for
the two replies, and the next object would be saved under the second one. -/
theorem not_paired_nul : ∃ slave w₀ w, (∀ n, Proper (slave n)) ∧ w₀.Starts
    ∧ Run Step.run (Served slave) w₀ w ∧ ¬ Paired slave w := by
  have hslave : ∀ n, Proper (Replying.answers Replying.nulErr (.hash []) n) :=
    Replying.proper_answers (by decide) (by decide)
  have hrun : (World.start (Accepting.outcomes 7)).any (fun w₀ =>
      (runAll Step.run (Served (Replying.answers Replying.nulErr (.hash [])))
        (Replying.steps Replying.nulCut) w₀).any fun w => decide (w.answers.q.toList = [[108]]
          ∧ w.pending (Replying.answers Replying.nulErr (.hash [])) = [])) = true := by
    decide +kernel
  obtain ⟨w₀, hstart, hany⟩ := (Option.any_eq_true _ _).mp hrun
  obtain ⟨w, hlast, hw⟩ := Run.of_any hany
  obtain ⟨hqueue, hpending⟩ := of_decide_eq_true hw
  refine ⟨_, w₀, w, hslave, World.starts_of_start hstart, hlast, ?_⟩
  intro h
  rw [h.queue, hpending] at hqueue
  cases hqueue

end Iceberg
