import Iceberg.Proxy.AnswerStream

/-!
# One answer, one key

A read of complete answers. An array takes its key through `popHandle`; a line takes it in
`parseSimple`, which tests the byte at the line end for `'-'` and otherwise goes by the
length of the line. So an error line takes its key exactly when its text has four bytes or
more.
-/

namespace Iceberg

open Resp Iceberg.Parser

namespace Answers

/-- An answer to `hgetall`: a hash without empty strings, or an error line. -/
def HgetallAnswer : Reply → Prop
  | .hash pairs => ∀ item ∈ Reply.items pairs, item ≠ []
  | .line marker text => marker = Byte.minus ∧ Byte.lf ∉ text

instance : DecidablePred HgetallAnswer
  | .hash pairs => inferInstanceAs (Decidable (∀ item ∈ Reply.items pairs, item ≠ []))
  | .line marker text => inferInstanceAs (Decidable (marker = Byte.minus ∧ Byte.lf ∉ text))

/-- What is to happen for an answer to the query for `key`: the key leaves the queue, and
the hash is saved under it; an error line saves nothing. -/
def callsFor (key : Key) : Reply → List Call
  | .hash pairs => [.pop (some key), .saveValue (.object (pairSets pairs)) key]
  | .line _ _ => [.pop (some key)]

/-- **One answer, one key.** After the read, the queue has lost one key per answer, the
calls are those for the answers and these keys in order, and the process goes on. -/
structure OneKeyEach (a : Answers) (w : WData) (answers : List Reply) : Prop where
  queue : (a.parseReadData w).1.q.toList = a.q.toList.drop answers.length
  calls : (a.parseReadData w).1.calls
    = a.calls ++ (a.q.toList.zip answers).flatMap fun kr => callsFor kr.1 kr.2
  running : (a.parseReadData w).2.running = true

/-- The answers that take a key: all but the error lines with a text of less than four
bytes. -/
def TakesKey : Reply → Prop
  | .hash _ => True
  | .line _ text => 3 < text.length

instance : DecidablePred TakesKey
  | .hash _ => inferInstanceAs (Decidable True)
  | .line _ text => inferInstanceAs (Decidable (3 < text.length))

theorem readable_of_hgetallAnswer {r : Reply} (h : HgetallAnswer r) : Readable r := by
  cases r with
  | hash pairs => exact readable_of_shape (r := .hash pairs) h
  | line marker text => exact ⟨Or.inr (Or.inl h.1), h.2⟩

/-- Complete answers, in one read with nothing carried. -/
theorem parseReadData_answers {a : Answers} {w : WData} {answers : List Reply}
    (hanswers : ∀ r ∈ answers, HgetallAnswer r) (hw : w.data = answers.flatMap Reply.enc)
    (hread : w.data.length ≤ maxRead) (hbuf : a.bufSlaveAnswer = [])
    (hkeys : answers.length ≤ a.q.toList.length) :
    a.parseReadData w = ({ a.consumeAll answers with bufSlaveAnswer := [] }, .done) := by
  refine parseReadData_stream (p := []) ?_ (fun r hr => readable_of_hgetallAnswer (hanswers r hr))
    ⟨by decide, copied_nil, fun h => absurd rfl h⟩ hread ?_ ?_ hkeys
  · rw [hbuf, List.nil_append, hw, List.append_nil]
  · rw [hbuf]
    decide
  · exact fun hne => absurd hbuf hne

/-- The queue behind some answers has lost the keys of those that take one. -/
theorem toList_consumeAll (a : Answers) (answers : List Reply) :
    (a.consumeAll answers).q.toList
      = a.q.toList.drop (answers.countP fun r => decide (TakesKey r)) := by
  induction answers generalizing a with
  | nil => rfl
  | cons r answers ih =>
    have hcons : a.consumeAll (r :: answers) = (a.consume r).consumeAll answers := rfl
    have hone : (a.consume r).q.toList
        = a.q.toList.drop (if TakesKey r then 1 else 0) := by
      cases r with
      | hash pairs =>
        simp [consume, TakesKey]
      | line marker text =>
        rcases Decidable.em (3 < text.length) with hlong | hshort
        · simp [consume, TakesKey, hlong]
        · simp [consume, TakesKey, hshort]
    rw [hcons, ih, hone, List.drop_drop, List.countP_cons]
    simp only [decide_eq_true_eq]
    rw [Nat.add_comm]

/-- When all answers take a key, the calls are those for the answers and the keys. -/
theorem calls_consumeAll {a : Answers} {answers : List Reply}
    (hanswers : ∀ r ∈ answers, HgetallAnswer r) (htakes : ∀ r ∈ answers, TakesKey r)
    (hkeys : answers.length ≤ a.q.toList.length) :
    (a.consumeAll answers).calls
      = a.calls ++ (a.q.toList.zip answers).flatMap fun kr => callsFor kr.1 kr.2 := by
  induction answers generalizing a with
  | nil => simp
  | cons r answers ih =>
    obtain ⟨key, keys, hq⟩ := List.exists_cons_of_length_pos
      (Nat.lt_of_lt_of_le (Nat.succ_pos _) hkeys)
    have hcons : a.consumeAll (r :: answers) = (a.consume r).consumeAll answers := rfl
    -- the first answer takes the first key
    have hone : (a.consume r).q.toList = keys
        ∧ (a.consume r).calls = a.calls ++ callsFor key r := by
      cases r with
      | hash pairs =>
        have hobject := hashObject_eq (hanswers _ List.mem_cons_self)
        constructor
        · simp [consume, hq]
        · simp [consume, hq, callsFor, hobject]
      | line marker text =>
        have hlong : 3 < text.length := htakes _ List.mem_cons_self
        constructor
        · simp [consume, hq, hlong]
        · simp [consume, hq, callsFor, hlong]
    -- the other keys are enough for the other answers
    have hleft : answers.length ≤ (a.consume r).q.toList.length := by
      rw [hq] at hkeys
      rw [hone.1]
      exact Nat.le_of_succ_le_succ hkeys
    rw [hcons, ih (fun r' hr => hanswers r' (List.mem_cons_of_mem _ hr))
      (fun r' hr => htakes r' (List.mem_cons_of_mem _ hr)) hleft, hone.1, hone.2, hq,
      List.zip_cons_cons, List.flatMap_cons, List.append_assoc]

/-- **When every answer takes one key.** For a read of complete answers: exactly when no
error line among them has a text of less than four bytes. -/
theorem oneKeyEach_iff (a : Answers) (w : WData) (answers : List Reply)
    (hanswers : ∀ r ∈ answers, HgetallAnswer r) (hw : w.data = answers.flatMap Reply.enc)
    (hread : w.data.length ≤ maxRead) (hbuf : a.bufSlaveAnswer = [])
    (hkeys : answers.length ≤ a.q.toList.length) :
    OneKeyEach a w answers ↔ ∀ r ∈ answers, TakesKey r := by
  have hrun := parseReadData_answers hanswers hw hread hbuf hkeys
  constructor
  · -- as many keys are gone as there are answers, so each has taken one
    rintro ⟨hqueue, -, -⟩ r hr
    rw [hrun] at hqueue
    have hlen := congrArg List.length ((toList_consumeAll a answers).symm.trans hqueue)
    have hcount : answers.countP (fun r => decide (TakesKey r)) = answers.length := by
      have hle := List.countP_le_length (p := fun r => decide (TakesKey r)) (l := answers)
      rw [List.length_drop, List.length_drop] at hlen
      omega
    exact of_decide_eq_true (List.countP_eq_length.mp hcount r hr)
  · intro htakes
    have hcount : answers.countP (fun r => decide (TakesKey r)) = answers.length :=
      List.countP_eq_length.mpr fun r hr => decide_eq_true (htakes r hr)
    refine ⟨?_, ?_, by rw [hrun]; rfl⟩
    · rw [hrun]
      show (a.consumeAll answers).q.toList = _
      rw [toList_consumeAll, hcount]
    · rw [hrun]
      exact calls_consumeAll hanswers htakes hkeys

/-- A hash and an error line `-ERR!`. -/
theorem oneKeyEach_iff_two :
    let a : Answers :=
      { q := (initCirQueue.push [107]).push [108], bufSlaveAnswer := [], calls := [] }
    let answers := [Reply.hash [([102], [118])], Reply.line Byte.minus [69, 82, 82, 33]]
    OneKeyEach a ⟨answers.flatMap Reply.enc, fun _ => 0⟩ answers
      ↔ ∀ r ∈ answers, TakesKey r := by
  intro a answers
  exact oneKeyEach_iff a ⟨answers.flatMap Reply.enc, fun _ => 0⟩ answers (by decide) rfl
    (by decide) rfl (by decide)

/-- **A short error line takes no key.** After `-ERR` the queried key is still in the queue,
in front of those whose answers come next. -/
theorem not_oneKeyEach_err :
    let a : Answers :=
      { q := (initCirQueue.push [107]).push [108], bufSlaveAnswer := [], calls := [] }
    let answers := [Reply.line Byte.minus [69, 82, 82], Reply.hash [([102], [118])]]
    (∀ r ∈ answers, HgetallAnswer r) ∧ answers.length ≤ a.q.toList.length
      ∧ ¬OneKeyEach a ⟨answers.flatMap Reply.enc, fun _ => 0⟩ answers := by
  intro a answers
  have hanswers : ∀ r ∈ answers, HgetallAnswer r := by decide
  have hkeys : answers.length ≤ a.q.toList.length := by decide
  refine ⟨hanswers, hkeys, ?_⟩
  rintro ⟨hqueue, -, -⟩
  rw [parseReadData_answers hanswers rfl (by decide) rfl hkeys] at hqueue
  have hlen := congrArg List.length ((toList_consumeAll a answers).symm.trans hqueue)
  exact absurd hlen (by decide)

end Answers

end Iceberg
