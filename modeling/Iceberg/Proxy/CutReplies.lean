import Iceberg.Proxy.AnswerStream
import Mathlib.Data.List.Forall2

/-!
# How reads may cut the replies

Replies of at most `MAX_READ` bytes without zero bytes can be cut anywhere: the calls are
those of one read per reply. Larger replies are a different matter. When a read ends
`MAX_READ` bytes or more into a reply, `saveToBuf` gives up what there is of it, and the
next read starts in the middle of the reply, where its bytes are taken for other replies.
-/

namespace Iceberg

open Resp Decimal Iceberg.Parser Framing

namespace Answers

/-! ## Replies that fit -/

/-- Without zero bytes only the lengths of the parts matter. -/
theorem cutKept_of_nulFree {replies : List Reply} {reads : List WData}
    (hnul : ∀ r ∈ replies, Byte.nul ∉ r.enc)
    (hcut : reads.flatMap WData.data = replies.flatMap Reply.enc)
    (hshort : ∀ done todo, done ++ todo = reads →
      (rest Reply.enc replies (boundary WData.data done)).length < maxRead) :
    CutKept replies reads := by
  have hstream : ∀ w ∈ reads, Byte.nul ∉ w.data := by
    intro w hw hmem
    have hin : Byte.nul ∈ replies.flatMap Reply.enc :=
      hcut ▸ List.mem_flatMap.mpr ⟨w, hw, hmem⟩
    obtain ⟨r, hr, hbyte⟩ := List.mem_flatMap.mp hin
    exact hnul r hr hbyte
  intro done todo hsplit
  have hnext : ∀ w ∈ todo.head?, Copied w.data := fun w hw =>
    copied_of_nulFree (hstream w (by rw [← hsplit]; simp [List.mem_of_head? hw]))
  refine ⟨hshort done todo hsplit, ?_, fun _ => hnext⟩
  rcases rest_prefix Reply.enc replies (boundary WData.data done) with hnil | ⟨g, hg, hpre, -⟩
  · rw [hnil]
    exact copied_nil
  · exact copied_of_nulFree fun h => hnul g (List.mem_of_getElem? hg) (hpre.subset h)

/-- Every part of a reply that fits and has no zero byte is kept. -/
theorem cutKept_of_fit {replies : List Reply} {reads : List WData}
    (hnul : ∀ r ∈ replies, Byte.nul ∉ r.enc) (hsize : ∀ r ∈ replies, r.enc.length ≤ maxRead)
    (hcut : reads.flatMap WData.data = replies.flatMap Reply.enc) : CutKept replies reads := by
  refine cutKept_of_nulFree hnul hcut fun done todo hsplit => ?_
  rcases rest_prefix Reply.enc replies (boundary WData.data done) with hnil | ⟨g, hg, -, hlt⟩
  · rw [hnil]
    decide
  · exact Nat.lt_of_lt_of_le hlt (hsize g (List.mem_of_getElem? hg))

/-- **Any cut, the same calls.** However the replies are cut into reads, the queue pops and
the saves are those of one read per reply, which are those that each reply leads to on its own
(`consumeAll`). Every call of `parseReadData` ends normally, and nothing is left in the carry
buffer. -/
theorem calls_eq_one_read_per_reply {a : Answers} {replies : List Reply}
    {reads single : List WData} (hshape : ∀ r ∈ replies, r.Shape)
    (hnul : ∀ r ∈ replies, Byte.nul ∉ r.enc) (hsize : ∀ r ∈ replies, r.enc.length ≤ maxRead)
    (hkeys : replies.length ≤ a.q.toList.length) (hbuf : a.bufSlaveAnswer = [])
    (hreads : ∀ w ∈ reads, w.data.length ≤ maxRead)
    (hcut : reads.flatMap WData.data = replies.flatMap Reply.enc)
    (hsingle : single.map WData.data = replies.map Reply.enc) :
    (feedAll a reads).1.calls = (feedAll a single).1.calls
      ∧ (feedAll a reads).1.calls = (a.consumeAll replies).calls
      ∧ (∀ e ∈ (feedAll a reads).2, e = .done)
      ∧ (feedAll a reads).1.bufSlaveAnswer = [] := by
  have hrs : ∀ r ∈ replies, Readable r := fun r hr => readable_of_shape (hshape r hr)
  have hbound : ∀ r ∈ replies, r.enc.length < 2 ^ 29 := fun r hr =>
    Nat.lt_of_le_of_lt (hsize r hr) (by decide)
  have hsinglecut : single.flatMap WData.data = replies.flatMap Reply.enc := by
    rw [List.flatMap_def, hsingle, ← List.flatMap_def]
  have hsinglereads : ∀ w ∈ single, w.data.length ≤ maxRead := by
    intro w hw
    have hmem : w.data ∈ replies.map Reply.enc := hsingle ▸ List.mem_map_of_mem hw
    obtain ⟨r, hr, henc⟩ := List.mem_map.mp hmem
    exact henc ▸ hsize r hr
  -- both ways of cutting end in the state after the replies
  obtain ⟨hstate, hends⟩ := feedAll_stream hrs hbound hkeys hbuf hreads hcut
    (cutKept_of_fit hnul hsize hcut)
  obtain ⟨hone, -⟩ := feedAll_stream hrs hbound hkeys hbuf hsinglereads hsinglecut
    (cutKept_of_fit hnul hsize hsinglecut)
  exact ⟨by rw [hstate, hone], by rw [hstate], hends, by rw [hstate]⟩

/-- A hash and a status line, cut in the middle of the first field's header. -/
theorem calls_eq_one_read_per_reply_two :
    let a : Answers :=
      { q := (initCirQueue.push [107]).push [108], bufSlaveAnswer := [], calls := [] }
    let replies := [Reply.hash [([102], [118])], Reply.line Byte.plus [79, 75]]
    let stream := replies.flatMap Reply.enc
    let reads : List WData := [⟨stream.take 7, fun _ => 0⟩, ⟨stream.drop 7, fun _ => 0⟩]
    let single : List WData := replies.map fun r => ⟨r.enc, fun _ => 0⟩
    (feedAll a reads).1.calls = (feedAll a single).1.calls
      ∧ (feedAll a reads).1.calls = (a.consumeAll replies).calls
      ∧ (∀ e ∈ (feedAll a reads).2, e = .done)
      ∧ (feedAll a reads).1.bufSlaveAnswer = [] := by
  intro a replies stream reads single
  have hshape : ∀ r ∈ replies, r.Shape := by decide
  exact calls_eq_one_read_per_reply hshape (by decide) (by decide) (by decide) rfl (by decide)
    (by decide) (by decide)

/-! ## Replies of any size -/

/-- The calls for one reply that is handed over with its own key. -/
def ownCalls (key : Key) (pairs : List (Bytes × Bytes)) : List Call :=
  [.pop (some key), .saveValue (.object (hashObject pairs)) key]

/-- What may happen for a hash: it is handed over with its own key, or, when it does not fit
in `MAX_READ` bytes, it is left out, with or without its key being popped. -/
def HashCalls (key : Key) (pairs : List (Bytes × Bytes)) (calls : List Call) : Prop :=
  calls = ownCalls key pairs
    ∨ (maxRead < (Reply.hash pairs).enc.length ∧ (calls = [.pop (some key)] ∨ calls = []))

/-- The calls that the reads lead to. -/
def newCalls (a : Answers) (reads : List WData) : List Call :=
  (feedAll a reads).1.calls.drop a.calls.length

/-- **The pairing is not broken.** The process is not stopped, and the calls are those for
the hashes received, in order: nothing is popped or saved for the rest of a hash. -/
structure PairingKept (a : Answers) (hashes : List (List (Bytes × Bytes)))
    (reads : List WData) : Prop where
  running : ∀ e ∈ (feedAll a reads).2, e.running = true
  calls : ∃ blocks, newCalls a reads = blocks.flatten
    ∧ List.Forall₂ (fun (kh : Key × List (Bytes × Bytes)) b => HashCalls kh.1 kh.2 b)
        (a.q.toList.zip hashes) blocks

/-- Replies with one hash each make the calls of their own keys, in order. Induction on the
hashes, with one key for each. -/
theorem calls_consumeAll_hashes (a : Answers) (hashes : List (List (Bytes × Bytes)))
    (hkeys : hashes.length ≤ a.q.toList.length) :
    (a.consumeAll (hashes.map .hash)).calls
      = a.calls ++ ((a.q.toList.zip hashes).map fun kh => ownCalls kh.1 kh.2).flatten := by
  induction hashes generalizing a with
  | nil => simp
  | cons pairs hashes ih =>
    obtain ⟨key, keys, hq⟩ := List.exists_cons_of_length_pos
      (Nat.lt_of_lt_of_le (Nat.succ_pos _) hkeys)
    have hnext : (a.consume (.hash pairs)).q.toList = keys := by simp [consume, hq]
    have hcons : a.consumeAll ((pairs :: hashes).map .hash)
        = (a.consume (.hash pairs)).consumeAll (hashes.map .hash) := rfl
    have hlen : hashes.length ≤ keys.length := by
      simpa [hq] using hkeys
    rw [hcons, ih _ (by rw [hnext]; exact hlen), hnext, hq]
    simp [consume, hq, ownCalls]

/-- Reads that keep every part of a reply never let a reply grow to twice `MAX_READ`. -/
theorem length_lt_of_cutKept {replies : List Reply} {reads : List WData}
    (hreads : ∀ w ∈ reads, w.data.length ≤ maxRead)
    (hcut : reads.flatMap WData.data = replies.flatMap Reply.enc)
    (hkept : CutKept replies reads) : ∀ r ∈ replies, r.enc.length < 2 * maxRead := by
  intro g hg
  obtain ⟨fs, gs, rfl⟩ := List.append_of_mem hg
  by_contra hlarge
  have htotal : boundary WData.data reads = ((fs ++ g :: gs).flatMap Reply.enc).length := by
    rw [boundary, hcut]
  simp only [List.flatMap_append, List.flatMap_cons, List.length_append] at htotal
  -- some read ends in the second `MAX_READ` bytes of the reply
  obtain ⟨done, todo, hsplit, hlo, hhi⟩ := exists_boundary WData.data (by decide) reads hreads
    (m := (fs.flatMap Reply.enc).length + maxRead) (by omega)
  obtain ⟨d, hd⟩ := Nat.exists_eq_add_of_le (Nat.le_trans (Nat.le_add_right _ maxRead) hlo)
  have hfit := (hkept done todo hsplit).1
  rw [hd, rest_inside Reply.enc fs g gs (by omega), List.length_take] at hfit
  omega

/-- The hashes that some reads have completed. -/
def received (hashes : List (List (Bytes × Bytes))) (reads : List WData) :
    List (List (Bytes × Bytes)) :=
  hashes.take (whole Reply.enc (hashes.map .hash) (boundary WData.data reads))

/-- **Replies of any size.** As long as no read ends too deep inside a reply, the pairing is
kept in every state that the reads lead to. -/
theorem pairingKept_of_cutKept {a : Answers} {hashes : List (List (Bytes × Bytes))}
    {reads : List WData} (hkeys : hashes.length ≤ a.q.toList.length)
    (hbuf : a.bufSlaveAnswer = []) (hreads : ∀ w ∈ reads, w.data.length ≤ maxRead)
    (hcut : reads.flatMap WData.data = (hashes.map Reply.hash).flatMap Reply.enc)
    (hnamed : ∀ pairs ∈ hashes, ValuesNamed false pairs)
    (hkept : CutKept (hashes.map Reply.hash) reads) (done todo : List WData)
    (hsplit : done ++ todo = reads) : PairingKept a (received hashes done) done := by
  have hrs : ∀ r ∈ hashes.map Reply.hash, Readable r := by
    intro r hr
    obtain ⟨pairs, hpairs, rfl⟩ := List.mem_map.mp hr
    exact readable_hash_iff.mpr (hnamed pairs hpairs)
  have hsize : ∀ r ∈ hashes.map Reply.hash, r.enc.length < 2 ^ 29 := fun r hr =>
    Nat.lt_of_lt_of_le (length_lt_of_cutKept hreads hcut hkept r hr) (by decide)
  -- the reads so far are a prefix of the replies
  have hdone : done.flatMap WData.data <+: (hashes.map Reply.hash).flatMap Reply.enc := by
    rw [← hcut, ← hsplit, List.flatMap_append]
    exact List.prefix_append _ _
  -- and their cuts are among those of all reads
  have hkeptDone : CutKept (hashes.map Reply.hash) done := by
    intro front back hfront
    obtain ⟨hfit, hcopy, hnext⟩ := hkept front (back ++ todo) (by
      rw [← List.append_assoc, hfront, hsplit])
    refine ⟨hfit, hcopy, fun hne w hw => hnext hne w ?_⟩
    rw [List.head?_append_of_ne_nil]
    · exact hw
    · rintro rfl
      simp at hw
  -- the queue has gone down by one key for each reply that is complete
  obtain ⟨hstate, hends⟩ := reached_feedAll hrs hsize (by simpa using hkeys) hbuf
    (fun w hw => hreads w (by rw [← hsplit]; exact List.mem_append_left _ hw)) hdone hkeptDone
  refine ⟨fun e he => by rw [hends e he]; rfl,
    (a.q.toList.zip (received hashes done)).map fun kh => ownCalls kh.1 kh.2, ?_, ?_⟩
  · have hlen : (received hashes done).length ≤ a.q.toList.length := by
      rw [received, List.length_take]
      exact Nat.le_trans (Nat.min_le_right _ _) hkeys
    rw [newCalls, hstate, ← List.map_take]
    exact (congrArg (List.drop a.calls.length)
      (calls_consumeAll_hashes a (received hashes done) hlen)).trans List.drop_left
  · rw [List.forall₂_map_right_iff]
    exact List.forall₂_same.mpr fun kh _ => Or.inl rfl

/-- What a hash with the field `f` and a value of `n` bytes starts with. -/
def valueHead (n : Nat) : Bytes :=
  Byte.star :: (decimal 2 ++ crlf ++ bulk [102] ++ Byte.dollar :: (decimal n ++ crlf))

theorem valueHash_enc (v : Bytes) :
    (Reply.hash [([102], v)]).enc = valueHead v.length ++ (v ++ crlf) := by
  simp [Reply.enc, array, Reply.items, bulk, valueHead]

theorem length_valueHash {v : Bytes} (h : v.length = 10300) :
    (Reply.hash [([102], v)]).enc.length = 10321 := by
  rw [valueHash_enc, h, List.length_append, List.length_append, h]
  rfl

/-- A hash of 10321 bytes, which is cut behind 10239 of them, and a small one. -/
theorem pairingKept_of_cutKept_two :
    let a : Answers :=
      { q := (initCirQueue.push [107]).push [108], bufSlaveAnswer := [], calls := [] }
    let hashes : List (List (Bytes × Bytes)) :=
      [[([102], List.replicate 10300 120)], [([103], [118])]]
    let stream := (hashes.map Reply.hash).flatMap Reply.enc
    let reads : List WData :=
      [⟨stream.take 10239, fun _ => 0⟩, ⟨stream.drop 10239, fun _ => 0⟩]
    received hashes reads = hashes ∧ PairingKept a hashes reads := by
  have hlen : (List.replicate 10300 (120 : UInt8)).length = 10300 := List.length_replicate
  have hfree : Byte.nul ∉ List.replicate 10300 (120 : UInt8) := fun h =>
    absurd (List.eq_of_mem_replicate h) (by decide)
  generalize List.replicate 10300 (120 : UInt8) = v at hlen hfree
  intro a hashes stream reads
  -- the value stays abstract, only its length and that it has no zeros is used
  have hlarge := length_valueHash hlen
  have hstream : stream.length = 10339 := by
    show ((Reply.hash [([102], v)]).enc ++ ((Reply.hash [([103], [118])]).enc ++ [])).length = _
    rw [List.length_append, hlarge]
    rfl
  have hcut : reads.flatMap WData.data = stream := by
    simp only [reads, List.flatMap_cons, List.flatMap_nil, List.append_nil,
      List.take_append_drop]
  have hreads : ∀ w ∈ reads, w.data.length ≤ maxRead := by
    rw [List.forall_mem_cons, List.forall_mem_singleton, List.length_take, List.length_drop,
      hstream]
    decide
  have hnul : ∀ r ∈ hashes.map Reply.hash, Byte.nul ∉ r.enc := by
    rw [List.map_cons, List.map_cons, List.map_nil, List.forall_mem_cons,
      List.forall_mem_singleton, valueHash_enc, hlen, nul_notMem_append, nul_notMem_append]
    exact ⟨⟨by decide, hfree, by decide⟩, by decide⟩
  -- what is left at each cut is shorter than the buffer
  have hshort : ∀ done todo, done ++ todo = reads →
      (rest Reply.enc (hashes.map Reply.hash) (boundary WData.data done)).length < maxRead := by
    intro done todo hsplit
    rcases done with _ | ⟨w, _ | ⟨u, done⟩⟩
    · rw [boundary_nil, rest_zero Reply.enc Reply.enc_ne_nil]
      decide
    · -- the cut is inside the large hash
      obtain rfl := (List.cons.inj hsplit).1
      have hat : boundary WData.data [(⟨stream.take 10239, fun _ => 0⟩ : WData)] = 10239 := by
        rw [boundary, List.flatMap_singleton, List.length_take, hstream]
        rfl
      rw [hat, List.map_cons, rest_cons_of_lt Reply.enc (by rw [hlarge]; decide),
        List.length_take]
      exact Nat.lt_of_le_of_lt (Nat.min_le_left _ _) (by decide)
    · -- behind the second read nothing is left
      obtain rfl : todo = [] := by
        have := congrArg List.length hsplit
        simp only [reads, List.length_append, List.length_cons, List.length_nil] at this
        exact List.eq_nil_of_length_eq_zero (by omega)
      rw [List.append_nil] at hsplit
      rw [hsplit, boundary, hcut, rest_length]
      decide
  have hnamed : ∀ pairs ∈ hashes, ValuesNamed false pairs := by
    have hne : v ≠ [] := List.ne_nil_of_length_pos (by omega)
    rw [List.forall_mem_cons, List.forall_mem_singleton]
    simp [ValuesNamed, hne]
  have hall : received hashes reads = hashes := by
    rw [received, boundary, hcut, whole_length, List.length_map, List.take_length]
  have hkeys : hashes.length ≤ a.q.toList.length := by
    show 2 ≤ a.q.toList.length
    decide
  have hpair := pairingKept_of_cutKept hkeys rfl hreads hcut hnamed
    (cutKept_of_nulFree hnul hcut hshort) reads [] (List.append_nil reads)
  exact ⟨hall, hall ▸ hpair⟩

/-- A read that fills the buffer and ends inside an answer is given up. -/
theorem parseReadData_outgrown {a : Answers} {w : WData} {r : Reply}
    (hbuf : a.bufSlaveAnswer = []) (hpre : w.data <+: r.enc)
    (hlt : w.data.length < r.enc.length) (hlen : w.data.length = maxRead)
    (hr : Readable r) (hsize : r.enc.length < 2 ^ 29) :
    a.parseReadData w = ({ a with bufSlaveAnswer := [] }, .done) := by
  have hmerge : mergeCarry a.bufSlaveAnswer w = w := by simp [mergeCarry, hbuf]
  have hlen' : w.len = maxRead := by simp [WData.len, hlen]
  have hpos : 0 < maxRead := by decide
  have hne : w.data ≠ [] := List.ne_nil_of_length_pos (by omega)
  -- a buffer of `MAX_READ` bytes is not saved
  have hsave : saveToBuf w 0 = some [] := by
    have hn : int32 (w.len - 0) = maxRead := by
      rw [hlen']
      rfl
    simp only [saveToBuf, hn]
    rw [if_neg (by omega)]
  obtain ⟨fuel, hfuel⟩ : ∃ fuel, loopFuel w = fuel + 2 :=
    ⟨loopFuel w - 2, by simp only [loopFuel, queSize]; omega⟩
  have hscan : parseLoop w (loopFuel w) 0 = ([.save []], .done) := by
    rw [hfuel, parseLoop, if_pos ⟨Int.le_refl 0, by omega⟩,
      parseReply_broken (WData.at_zero w) hpre hne hlt hr hsize
        (by rw [hlen']; decide), incomplete, hsave]
    simp only
    rw [parseLoop, if_neg (by omega)]
    rfl
  rw [parseReadData, hmerge]
  simp [hscan, performAll, perform]

/-- A read that starts with a byte that no answer starts with is dropped. -/
theorem parseReadData_unexpected {a : Answers} {w : WData} {b : UInt8} {s : Bytes}
    (hbuf : a.bufSlaveAnswer = []) (hdata : w.data = b :: s)
    (hb : b ∉ [Byte.star, Byte.dollar, Byte.minus, Byte.plus, Byte.colon]) :
    a.parseReadData w = ({ a with bufSlaveAnswer := [] }, .unexpected) := by
  have hmerge : mergeCarry a.bufSlaveAnswer w = w := by simp [mergeCarry, hbuf]
  have hat : w.At 0 (b :: s) := hdata ▸ WData.at_zero w
  simp only [List.mem_cons, List.not_mem_nil, or_false, not_or] at hb
  obtain ⟨hstar, hdollar, hminus, hplus, hcolon⟩ := hb
  have hreply : parseReply w 0 = none := by
    simp only [parseReply, hat.get, if_neg hstar, if_neg hdollar]
    rw [if_neg]
    rintro (h | h | h)
    · exact hminus h
    · exact hplus h
    · exact hcolon h
  obtain ⟨fuel, hfuel⟩ : ∃ fuel, loopFuel w = fuel + 1 :=
    ⟨loopFuel w - 1, by simp only [loopFuel, queSize]; omega⟩
  have hscan : parseLoop w (loopFuel w) 0 = ([], .unexpected) := by
    rw [hfuel, parseLoop, if_pos ⟨Int.le_refl 0, hat.lt_len⟩, hreply]
  rw [parseReadData, hmerge]
  simp [hscan, performAll]

/-- **A value that goes on after a full read.** What there is of its hash is given up, and
the next read is dropped when its first byte is not one that an answer starts with. -/
theorem feedAll_large {a : Answers} {front back next : Bytes} {b : UInt8}
    {g h : Int → UInt8} (hbuf : a.bufSlaveAnswer = [])
    (hfull : (valueHead (front ++ b :: back).length ++ front).length = maxRead)
    (hsize : (front ++ b :: back).length < 2 ^ 28)
    (hb : b ∉ [Byte.star, Byte.dollar, Byte.minus, Byte.plus, Byte.colon]) :
    a.feedAll [⟨valueHead (front ++ b :: back).length ++ front, g⟩,
        ⟨b :: (back ++ crlf ++ next), h⟩]
      = ({ a with bufSlaveAnswer := [] }, [.done, .unexpected]) := by
  have henc := valueHash_enc (front ++ b :: back)
  have hpre : valueHead (front ++ b :: back).length ++ front
      <+: (Reply.hash [([102], front ++ b :: back)]).enc := by
    rw [henc]
    exact ⟨b :: back ++ crlf, by simp⟩
  have hlen := congrArg List.length henc
  simp only [List.length_append, List.length_cons, List.length_nil] at hlen hfull hsize
  -- the first read is lost
  have hfirst := parseReadData_outgrown (w := ⟨valueHead (front ++ b :: back).length ++ front, g⟩)
    hbuf hpre
    (by simp only [List.length_append, List.length_cons]; omega)
    (by simp only [List.length_append, List.length_cons]; exact hfull)
    (readable_of_shape (by simp [Reply.Shape, Reply.items]))
    (by unfold maxRead at hfull; omega)
  -- and the second begins inside the value
  have hsecond := parseReadData_unexpected (a := { a with bufSlaveAnswer := [] })
    (w := ⟨b :: (back ++ crlf ++ next), h⟩) rfl rfl hb
  rw [feedAll, List.foldl_cons, feed_running rfl hfirst, List.foldl_cons,
    feed_running rfl hsecond]
  rfl

/-- **A large value breaks the pairing.** The first read is full and ends inside the value;
the second one starts there and is dropped, together with the small hash that it ends with,
whose key stays in the queue. -/
theorem pairing_broken :
    let a : Answers :=
      { q := (initCirQueue.push [107]).push [108], bufSlaveAnswer := [], calls := [] }
    let front : Bytes := List.replicate 10221 120
    let back : Bytes := List.replicate 78 120
    let hashes : List (List (Bytes × Bytes)) :=
      [[([102], front ++ 120 :: back)], [([103], [118])]]
    let reads : List WData :=
      [⟨valueHead (front ++ 120 :: back).length ++ front, fun _ => 0⟩,
       ⟨120 :: (back ++ crlf ++ (Reply.hash [([103], [118])]).enc), fun _ => 0⟩]
    reads.flatMap WData.data = (hashes.map Reply.hash).flatMap Reply.enc
      ∧ (∀ w ∈ reads, w.data.length ≤ maxRead) ∧ hashes.length ≤ a.q.toList.length
      ∧ ¬PairingKept a hashes reads := by
  intro a front back hashes reads
  have hfront : front.length = 10221 := List.length_replicate
  have hback : back.length = 78 := List.length_replicate
  have hvalue : (front ++ 120 :: back).length = 10300 := by
    rw [List.length_append, List.length_cons, hfront, hback]
  -- the first read is as long as the buffer, and the value is cut
  have hfull : (valueHead (front ++ 120 :: back).length ++ front).length = maxRead := by
    rw [hvalue, List.length_append, hfront]
    decide
  -- so what was read is dropped, and the next read begins with no marker
  have hrun : a.feedAll reads = (a, [.done, .unexpected]) :=
    feedAll_large rfl hfull (by rw [hvalue]; decide) (by decide)
  refine ⟨?_, ?_, by decide, ?_⟩
  · have hlarge := valueHash_enc (front ++ 120 :: back)
    simp only [reads, hashes, List.flatMap_cons, List.flatMap_nil, List.map_cons, List.map_nil,
      hlarge, List.append_assoc, List.cons_append, List.append_nil]
  · intro w hw
    simp only [reads, List.mem_cons, List.not_mem_nil, or_false] at hw
    rcases hw with rfl | rfl
    · exact Nat.le_of_eq hfull
    · simp only [List.length_cons, List.length_append, hback]
      decide
  · rintro ⟨-, blocks, hcalls, hblocks⟩
    -- no call was made, so the small hash was not handed over
    rw [newCalls, hrun] at hcalls
    have hnil : blocks.flatten = [] := by rw [← hcalls]; rfl
    have hzip : a.q.toList.zip hashes
        = [([107], [([102], front ++ 120 :: back)]), ([108], [([103], [118])])] := rfl
    rw [hzip] at hblocks
    obtain ⟨first, rest, -, hsecond, rfl⟩ := List.forall₂_cons_left_iff.mp hblocks
    obtain ⟨second, rest, hown, -, rfl⟩ := List.forall₂_cons_left_iff.mp hsecond
    have hempty : second = [] := by
      simp only [List.flatten_cons, List.append_eq_nil_iff] at hnil
      exact hnil.2.1
    rcases hown with h | ⟨hlarge, -⟩
    · rw [hempty] at h
      exact List.cons_ne_nil _ _ h.symm
    · exact absurd hlarge (by decide)

end Answers

end Iceberg
