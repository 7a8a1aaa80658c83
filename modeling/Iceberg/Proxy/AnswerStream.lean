import Iceberg.Lib.Framing
import Iceberg.Proxy.ParserLemmas

/-!
# The reply stream across reads

`parseReadData` is called once per read, wherever the read cuts the stream. This module
follows it over a whole stream: `consume` is what one complete answer does to the queue
and to the calls, and after any number of reads the state is that of the complete answers
consumed so far, with the broken one in `buf_slave_answer` (`Reached`).

A read is *kept* when the part of an answer that it leaves over survives the copies into
and out of the carry buffer. Answers of at most `MAX_READ` bytes without zero bytes are
kept at every cut; larger ones are kept as long as no cut is too deep inside them.
-/

namespace Iceberg

open Resp Iceberg.Parser Framing

namespace Answers

/-! ## Complete answers -/

/-- The effect of one complete answer on the queue and the calls. -/
def consume (a : Answers) : Reply → Answers
  | .hash pairs =>
    { a with
      q := a.q.pop.2
      calls := a.calls ++ .pop a.q.pop.1 ::
        (a.q.pop.1.map (Call.saveValue (.object (hashObject pairs)))).toList }
  | .line _ text =>
    if 3 < text.length then
      { a with q := a.q.pop.2, calls := a.calls ++ [.pop a.q.pop.1] }
    else a

def consumeAll (a : Answers) (rs : List Reply) : Answers := rs.foldl consume a

@[simp] theorem consumeAll_nil (a : Answers) : a.consumeAll [] = a := rfl

theorem consumeAll_append (a : Answers) (rs ss : List Reply) :
    a.consumeAll (rs ++ ss) = (a.consumeAll rs).consumeAll ss := List.foldl_append

/-- The carry buffer plays no part in it. -/
theorem consume_buf (a : Answers) (buf : Bytes) (r : Reply) :
    ({ a with bufSlaveAnswer := buf }).consume r
      = { a.consume r with bufSlaveAnswer := buf } := by
  cases r with
  | hash pairs => rfl
  | line marker text =>
    by_cases h : 3 < text.length
    · simp only [consume, if_pos h]
    · simp only [consume, if_neg h]

/-- The carry plays no part when replies are consumed. Induction on them. -/
theorem consumeAll_buf (a : Answers) (buf : Bytes) (rs : List Reply) :
    ({ a with bufSlaveAnswer := buf }).consumeAll rs
      = { a.consumeAll rs with bufSlaveAnswer := buf } := by
  induction rs generalizing a with
  | nil => rfl
  | cons r rs ih =>
    have hcons : ∀ b : Answers, b.consumeAll (r :: rs) = (b.consume r).consumeAll rs :=
      fun _ => rfl
    rw [hcons, hcons, consume_buf, ih]

/-- An answer takes at most one key. -/
theorem length_toList_consume (a : Answers) (r : Reply) :
    a.q.toList.length ≤ (a.consume r).q.toList.length + 1 := by
  cases r with
  | hash pairs =>
    simp only [consume, Fifo.toList_pop, List.length_tail]
    omega
  | line marker text =>
    by_cases h : 3 < text.length
    · simp only [consume, if_pos h, Fifo.toList_pop, List.length_tail]
      omega
    · simp only [consume, if_neg h]
      omega

/-- With a key in the queue, the calls of an answer are performed without stopping. -/
theorem performAll_reply (a : Answers) (fin : End) (r : Reply) (acts : List Act)
    (hkey : 0 < a.q.toList.length) :
    a.performAll fin (replyActs r ++ acts) = (a.consume r).performAll fin acts := by
  obtain ⟨key, keys, hq⟩ := List.exists_cons_of_length_pos hkey
  cases r with
  | hash pairs => simp [replyActs, performAll, perform, consume, hq]
  | line marker text =>
    by_cases h : 3 < text.length
    · simp [replyActs, performAll, perform, consume, if_pos h]
    · simp [replyActs, consume, if_neg h]

/-- The acts of whole replies consume them, as long as each has a key. Induction on the replies,
with one pop for each. -/
theorem performAll_replies (a : Answers) (fin : End) (rs : List Reply) (acts : List Act)
    (hkeys : rs.length ≤ a.q.toList.length) :
    a.performAll fin (rs.flatMap replyActs ++ acts)
      = (a.consumeAll rs).performAll fin acts := by
  induction rs generalizing a with
  | nil => rfl
  | cons r rs ih =>
    have hleft := length_toList_consume a r
    simp only [List.length_cons] at hkeys
    rw [List.flatMap_cons, List.append_assoc, performAll_reply a fin r _ (by omega),
      ih _ (by omega)]
    rfl

/-! ## One read -/

/-- **One read.** A carried part followed by the read, which together are complete
answers and a broken one: the complete ones are consumed and the broken one is carried. -/
theorem parseReadData_stream {a : Answers} {w : WData} {rs : List Reply} {p : Bytes}
    (hstream : a.bufSlaveAnswer ++ w.data = rs.flatMap Reply.enc ++ p)
    (hrs : ∀ r ∈ rs, Readable r) (hp : Carried p) (hread : w.data.length ≤ maxRead)
    (hcarry : a.bufSlaveAnswer.length < maxRead)
    (hcopy : a.bufSlaveAnswer ≠ [] → Copied a.bufSlaveAnswer ∧ Copied w.data)
    (hkeys : rs.length ≤ a.q.toList.length) :
    a.parseReadData w = ({ a.consumeAll rs with bufSlaveAnswer := p }, .done) := by
  have hdata : (mergeCarry a.bufSlaveAnswer w).data = rs.flatMap Reply.enc ++ p := by
    rw [mergeCarry_data (by omega) hcopy, hstream]
  have hat : (mergeCarry a.bufSlaveAnswer w).At 0 (rs.flatMap Reply.enc ++ p) :=
    hdata ▸ WData.at_zero _
  -- at most a carry and a read, so that no index overflows and the fuel is enough
  have hlen : (mergeCarry a.bufSlaveAnswer w).data.length < 2 * maxRead := by
    rw [hdata, ← hstream, List.length_append]
    omega
  have hcount : rs.length ≤ (mergeCarry a.bufSlaveAnswer w).data.length := by
    rw [hdata, List.length_append]
    have := length_le_stream Reply.enc Reply.enc_ne_nil rs
    omega
  have hfuel : rs.length + 1 < loopFuel (mergeCarry a.bufSlaveAnswer w) := by
    simp only [loopFuel, queSize]
    omega
  have hlen30 : (mergeCarry a.bufSlaveAnswer w).len < 2 ^ 30 := by
    simp only [WData.len, maxRead] at hlen ⊢
    omega
  rw [parseReadData]
  simp only [parseLoop_stream rs hat hrs hp hlen30 hfuel]
  rw [performAll_replies _ _ _ _ (by simpa using hkeys), consumeAll_buf]
  by_cases hnil : p = []
  · simp [carryActs, hnil, performAll]
  · simp [carryActs, hnil, performAll, perform]

/-! ## A sequence of reads -/

/-- The next read, if there still is a process to read it. -/
def feed (s : Answers × List End) (w : WData) : Answers × List End :=
  if s.2.all End.running then
    let r := s.1.parseReadData w
    (r.1, s.2 ++ [r.2])
  else s

theorem feed_running {s : Answers × List End} {w : WData} {a : Answers} {e : End}
    (hgo : s.2.all End.running = true) (hcall : s.1.parseReadData w = (a, e)) :
    feed s w = (a, s.2 ++ [e]) := by
  rw [feed, if_pos hgo, hcall]

/-- The reads in order: the final state, and how each call of `parseReadData` ended. -/
def feedAll (a : Answers) (reads : List WData) : Answers × List End :=
  reads.foldl feed (a, [])

/-- The part `p` of an answer, left over by one read and continued by the next, survives
the carry buffer. -/
def Kept (p : Bytes) (next : Option WData) : Prop :=
  p.length < maxRead ∧ Copied p ∧ (p ≠ [] → ∀ w ∈ next, Copied w.data)

/-- Every part that the cut leaves over is kept. -/
def CutKept (replies : List Reply) (reads : List WData) : Prop :=
  ∀ done todo, done ++ todo = reads →
    Kept (rest Reply.enc replies (boundary WData.data done)) todo.head?

/-- The state after `n` bytes of the reply stream. -/
def Reached (a : Answers) (replies : List Reply) (n : Nat) (s : Answers × List End) : Prop :=
  s.1 = { a.consumeAll (replies.take (whole Reply.enc replies n)) with
          bufSlaveAnswer := rest Reply.enc replies n }
    ∧ ∀ e ∈ s.2, e = .done

/-- Each reply takes one key at most. Induction on the replies. -/
theorem length_toList_consumeAll (a : Answers) (rs : List Reply) :
    a.q.toList.length ≤ (a.consumeAll rs).q.toList.length + rs.length := by
  induction rs generalizing a with
  | nil => simp
  | cons r rs ih =>
    have hone := length_toList_consume a r
    have hall := ih (a.consume r)
    have hcons : a.consumeAll (r :: rs) = (a.consume r).consumeAll rs := rfl
    rw [hcons, List.length_cons]
    omega

/-- The remainder of the stream at a cut is carried over, as it is below the bound of the
`int`s. -/
theorem carried_rest {replies : List Reply} {n : Nat} {next : Option WData}
    (hrs : ∀ r ∈ replies, Readable r) (hsize : ∀ r ∈ replies, r.enc.length < 2 ^ 29)
    (hkept : Kept (rest Reply.enc replies n) next) : Carried (rest Reply.enc replies n) := by
  refine ⟨hkept.1, hkept.2.1, fun hne => ?_⟩
  rcases rest_prefix Reply.enc replies n with hnil | ⟨g, hg, hpre, hlt⟩
  · exact absurd hnil hne
  · have hmem := List.mem_of_getElem? hg
    exact ⟨g, hrs g hmem, hsize g hmem, hpre, hlt⟩

/-- **Step.** A kept read takes the state from one position of the stream to the next. -/
theorem reached_feed {a : Answers} {replies : List Reply} {n : Nat}
    {s : Answers × List End} {w : WData} (hrs : ∀ r ∈ replies, Readable r)
    (hsize : ∀ r ∈ replies, r.enc.length < 2 ^ 29)
    (hkeys : replies.length ≤ a.q.toList.length) (hread : w.data.length ≤ maxRead)
    (hw : w.data = ((replies.flatMap Reply.enc).drop n).take w.data.length)
    (hkept : Kept (rest Reply.enc replies n) (some w)) {next : Option WData}
    (hnext : Kept (rest Reply.enc replies (n + w.data.length)) next)
    (h : Reached a replies n s) : Reached a replies (n + w.data.length) (feed s w) := by
  obtain ⟨hstate, hends⟩ := h
  obtain ⟨hfit, hcopy, hcont⟩ := hkept
  have hgo : s.2.all End.running = true := by
    rw [List.all_eq_true]
    intro e he
    rw [hends e he]
    rfl
  have hbuf : s.1.bufSlaveAnswer = rest Reply.enc replies n := by rw [hstate]
  -- what is in the buffer: the replies this read completes, and a part of the next one
  have hstream : s.1.bufSlaveAnswer ++ w.data
      = (between Reply.enc replies n w.data.length).flatMap Reply.enc
        ++ rest Reply.enc replies (n + w.data.length) := by
    rw [← rest_append_chunk, ← hw, hbuf]
  -- the keys that are left are enough for the replies that are left
  have hleft : replies.length - whole Reply.enc replies n ≤ s.1.q.toList.length := by
    have hlen := length_toList_consumeAll a (replies.take (whole Reply.enc replies n))
    have hle := whole_le_length Reply.enc replies n
    rw [List.length_take, Nat.min_eq_left hle] at hlen
    rw [hstate]
    simp only
    omega
  have hcall := parseReadData_stream hstream
    (fun r hr => hrs r (mem_of_mem_between Reply.enc hr))
    (carried_rest hrs hsize hnext) hread (hbuf ▸ hfit)
    (fun hne => ⟨hbuf ▸ hcopy, hcont (hbuf ▸ hne) w rfl⟩)
    (Nat.le_trans (length_between_le Reply.enc replies n _) hleft)
  rw [feed_running hgo hcall]
  refine ⟨?_, ?_⟩
  · simp only
    rw [take_whole_add, consumeAll_append, hstate, consumeAll_buf]
  · simp only [List.mem_append, List.mem_singleton]
    rintro e (he | rfl)
    · exact hends e he
    · rfl

/-- **Run.** A beginning of a stream of answers, cut so that every part is kept. -/
theorem reached_feedAll {a : Answers} {replies : List Reply} {reads : List WData}
    (hrs : ∀ r ∈ replies, Readable r) (hsize : ∀ r ∈ replies, r.enc.length < 2 ^ 29)
    (hkeys : replies.length ≤ a.q.toList.length) (hbuf : a.bufSlaveAnswer = [])
    (hreads : ∀ w ∈ reads, w.data.length ≤ maxRead)
    (hcut : reads.flatMap WData.data <+: replies.flatMap Reply.enc)
    (hkept : CutKept replies reads) :
    Reached a replies (boundary WData.data reads) (feedAll a reads) := by
  have hstart : Reached a replies 0 (a, []) := by
    refine ⟨?_, by simp⟩
    rw [whole_zero _ Reply.enc_ne_nil, rest_zero _ Reply.enc_ne_nil, ← hbuf]
    rfl
  refine foldl_chunks WData.data feed (replies.flatMap Reply.enc) reads (Reached a replies)
    hcut ?_ hstart
  intro done w todo s hsplit hw hinv
  have hnext := hkept (done ++ [w]) todo (by simpa using hsplit)
  rw [boundary_concat] at hnext
  exact reached_feed hrs hsize hkeys (hreads w (by simp [← hsplit])) hw
    (hkept done (w :: todo) hsplit) hnext hinv

/-- A whole stream of answers is consumed answer by answer, and nothing is left over. -/
theorem feedAll_stream {a : Answers} {replies : List Reply} {reads : List WData}
    (hrs : ∀ r ∈ replies, Readable r) (hsize : ∀ r ∈ replies, r.enc.length < 2 ^ 29)
    (hkeys : replies.length ≤ a.q.toList.length) (hbuf : a.bufSlaveAnswer = [])
    (hreads : ∀ w ∈ reads, w.data.length ≤ maxRead)
    (hcut : reads.flatMap WData.data = replies.flatMap Reply.enc)
    (hkept : CutKept replies reads) :
    (feedAll a reads).1 = { a.consumeAll replies with bufSlaveAnswer := [] }
      ∧ ∀ e ∈ (feedAll a reads).2, e = .done := by
  have hrun := reached_feedAll hrs hsize hkeys hbuf hreads (hcut ▸ List.prefix_rfl) hkept
  rw [boundary, hcut, Reached, whole_length, rest_length, List.take_length] at hrun
  exact hrun

end Answers

end Iceberg
