import Iceberg.Lib.Simulation
import Iceberg.Proxy.CirQueue

/-!
# The circular queue is a bounded list

What the queue is for: a list of at most `capacity` elements, with the operations of
`cir_queue.h`. The circular queue answers every sequence of operations as that list does.
Emptiness is read off the indices there and fullness off the counter; the invariant that
keeps the two in step is `CirQueue.Valid`.
-/

namespace Iceberg

/-- The operations of `cir_queue.h`. -/
inductive QueueOp (α : Type) where
  | push (x : α)
  | pop
  | top
  | isEmpty
  | isFull
  | clear
  deriving DecidableEq

/-- What an operation returns: nothing, an element or the `0` that stands for none, or a
flag. -/
inductive QueueAnswer (α : Type) where
  | nothing
  | element (x : Option α)
  | flag (b : Bool)
  deriving DecidableEq

/-- The operations on a list of at most `capacity` elements, front first. -/
def boundedStep {α : Type} (capacity : Nat) (xs : List α) :
    QueueOp α → List α × QueueAnswer α
  | .push x => (if xs.length = capacity then xs else xs ++ [x], .nothing)
  | .pop => (xs.tail, .element xs.head?)
  | .top => (xs, .element xs.head?)
  | .isEmpty => (xs, .flag (decide (xs = [])))
  | .isFull => (xs, .flag (decide (xs.length = capacity)))
  | .clear => ([], .nothing)

namespace CirQueue

variable {α : Type} {size : Nat}

/-- The operations as the code computes them. -/
def step (size : Nat) (q : CirQueue α) : QueueOp α → CirQueue α × QueueAnswer α
  | .push x => (q.push size x, .nothing)
  | .pop => ((q.pop size).2, .element (q.pop size).1)
  | .top => (q, .element q.top)
  | .isEmpty => (q, .flag q.isEmpty)
  | .isFull => (q, .flag (q.isFull size))
  | .clear => (q.clear size, .nothing)

/-- A queue stands for a list: the counter is its length, the rear is that many cells behind
the front, and the cells from the front on hold its elements. -/
structure Holds (size : Nat) (q : CirQueue α) (xs : List α) : Prop where
  count_nonneg : 0 ≤ q.count
  count_le : q.count ≤ (size : Int) - 1
  front_lt : q.front < size
  rear_eq : q.rear = (q.front + q.count.toNat) % size
  count_eq : q.count = xs.length
  cell : ∀ i (hi : i < xs.length), q.data ((q.front + i) % size) = some xs[i]

/-- A queue that holds a list is valid. -/
theorem Holds.valid {q : CirQueue α} {xs : List α} (h : q.Holds size xs) : q.Valid size where
  count_nonneg := h.count_nonneg
  count_le := h.count_le
  front_lt := h.front_lt
  rear_eq := h.rear_eq
  filled := by
    intro i hi
    have hlt : i < xs.length := by
      have := h.count_eq
      omega
    exact ⟨xs[i], h.cell i hlt⟩

/-- The first `n` filled cells are the first `n` elements. -/
theorem getElem?_toList {q : CirQueue α} (h : q.Valid size) {i : Nat} (hi : i < q.count.toNat) :
    q.data ((q.front + i) % size) = (q.toList size)[i]? := by
  -- no cell in the range is empty, so the filter drops none
  have hall : ∀ n ≤ q.count.toNat, ∀ i < n, q.data ((q.front + i) % size)
      = ((List.range n).filterMap fun j => q.data ((q.front + j) % size))[i]?
      ∧ ((List.range n).filterMap fun j => q.data ((q.front + j) % size)).length = n := by
    intro n
    induction n with
    | zero => intro _ i hi; omega
    | succ n ih =>
      intro hn i hi
      obtain ⟨x, hx⟩ := h.filled n (by omega)
      have hlen : ((List.range n).filterMap
          fun j => q.data ((q.front + j) % size)).length = n := by
        rcases Nat.eq_zero_or_pos n with rfl | hpos
        · rfl
        · exact (ih (by omega) 0 hpos).2
      rw [List.range_succ, List.filterMap_append, List.length_append, hlen]
      refine ⟨?_, by simp [hx]⟩
      rcases Nat.lt_or_eq_of_le (Nat.lt_succ_iff.mp hi) with hlt | rfl
      · rw [List.getElem?_append_left (by rw [hlen]; exact hlt)]
        exact (ih (by omega) i hlt).1
      · rw [List.getElem?_append_right (by rw [hlen])]
        simp [hx, hlen]
  exact (hall _ (Nat.le_refl _) i hi).1

/-- A valid queue holds the list of its elements. -/
theorem Valid.holds {q : CirQueue α} (h : q.Valid size) : q.Holds size (q.toList size) where
  count_nonneg := h.count_nonneg
  count_le := h.count_le
  front_lt := h.front_lt
  rear_eq := h.rear_eq
  count_eq := by
    rw [length_toList h]
    have := h.count_nonneg
    omega
  cell := by
    intro i hi
    rw [getElem?_toList h (by rwa [length_toList h] at hi), List.getElem?_eq_getElem hi]

/-- The list a queue stands for is the one it is read as. -/
theorem Holds.toList_eq {q : CirQueue α} {xs : List α} (h : q.Holds size xs) :
    q.toList size = xs := by
  have hlen : (q.toList size).length = xs.length := by
    rw [length_toList h.valid]
    have := h.count_eq
    omega
  apply List.ext_getElem hlen
  intro i hi hi'
  have hcell := h.valid.holds.cell i hi
  rw [h.cell i hi'] at hcell
  exact (Option.some.inj hcell).symm

theorem Valid.holds_of_eq {q : CirQueue α} {xs : List α} (h : q.Valid size)
    (hxs : q.toList size = xs) : q.Holds size xs := hxs ▸ h.holds

/-- The queue is empty exactly if the list is. -/
theorem isEmpty_eq {q : CirQueue α} {xs : List α} (h : q.Holds size xs) :
    q.isEmpty = decide (xs = []) := by
  rw [Bool.eq_iff_iff, isEmpty_iff h.valid, h.count_eq, decide_eq_true_iff]
  show (xs.length : Int) = 0 ↔ xs = []
  rw [← List.length_eq_zero_iff]
  omega

/-- The queue is full exactly if the list is one short of the array. -/
theorem isFull_eq {q : CirQueue α} {xs : List α} (h : q.Holds size xs) :
    q.isFull size = decide (xs.length = size - 1) := by
  have hlt := h.front_lt
  rw [Bool.eq_iff_iff, CirQueue.isFull_iff h.valid, h.toList_eq, decide_eq_true_iff]
  omega

/-- The element in front is the head of the list. -/
theorem top_eq {q : CirQueue α} {xs : List α} (h : q.Holds size xs) : q.top = xs.head? := by
  have hpop : q.top = (q.pop size).1 := by
    unfold top pop
    split <;> rfl
  rw [hpop, pop_fst h.valid, h.toList_eq]

/-- **Step.** Every operation answers as on the list, and what it leaves stands for the list
that it leaves there. -/
theorem step_holds {q : CirQueue α} {xs : List α} (h : q.Holds size xs) (op : QueueOp α) :
    (q.step size op).1.Holds size (boundedStep (size - 1) xs op).1
      ∧ (q.step size op).2 = (boundedStep (size - 1) xs op).2 := by
  have hlist := h.toList_eq
  cases op with
  -- the full queue loses the element, as the bounded one does
  | push x =>
    refine ⟨?_, rfl⟩
    show (q.push size x).Holds size (if xs.length = size - 1 then xs else xs ++ [x])
    cases hfull : q.isFull size with
    | true =>
      rw [if_pos (of_decide_eq_true ((isFull_eq h).symm.trans hfull)), toList_push_full hfull]
      exact h
    | false =>
      rw [if_neg (of_decide_eq_false ((isFull_eq h).symm.trans hfull))]
      refine (h.valid.push x).holds_of_eq ?_
      rw [toList_push h.valid hfull, hlist]
  | pop =>
    refine ⟨h.valid.pop.holds_of_eq ?_, ?_⟩
    · rw [toList_pop h.valid, hlist]
      rfl
    · show QueueAnswer.element (q.pop size).1 = _
      rw [pop_fst h.valid, hlist]
      rfl
  | top =>
    refine ⟨h, ?_⟩
    show QueueAnswer.element q.top = _
    rw [top_eq h]
    rfl
  | isEmpty =>
    refine ⟨h, ?_⟩
    show QueueAnswer.flag q.isEmpty = _
    rw [isEmpty_eq h]
    rfl
  | isFull =>
    refine ⟨h, ?_⟩
    show QueueAnswer.flag (q.isFull size) = _
    rw [isFull_eq h]
    rfl
  | clear =>
    exact ⟨(h.valid.clearLoop size).holds_of_eq (toList_clear h.valid), rfl⟩

/-- **Refinement.** From `init_cir_queue` on, every sequence of operations is answered as by
a list of capacity `size - 1`; the queue then stands for that list, and is not empty and full
at once. -/
theorem run_refines_bounded (size : Nat) (hsize : 2 ≤ size) (ops : List (QueueOp α)) :
    let code := Machines.run (step size) (init : CirQueue α) ops
    let spec := Machines.run (boundedStep (size - 1)) [] ops
    code.2 = spec.2 ∧ code.1.Holds size spec.1
      ∧ ¬(code.1.isEmpty = true ∧ code.1.isFull size = true) := by
  intro code spec
  have hinit : (init : CirQueue α).Holds size [] :=
    (valid_init (by omega)).holds_of_eq (by simp [toList, init])
  obtain ⟨hholds, hanswers⟩ := Machines.run_related (R := Holds size)
    (fun _ _ op h => step_holds h op) hinit ops
  refine ⟨hanswers, hholds, ?_⟩
  rintro ⟨hempty, hfull⟩
  have hcount : code.1.count = 0 := (isEmpty_iff hholds.valid).mp hempty
  have hlast : code.1.count = (size : Int) - 1 := eq_of_beq hfull
  omega

/-- A queue of two cells, filled, overfilled, emptied and asked. -/
theorem run_refines_bounded_two :
    let ops : List (QueueOp Nat) := [.push 5, .push 6, .pop, .push 7, .isFull, .clear, .top]
    let code := Machines.run (step 2) (init : CirQueue Nat) ops
    let spec := Machines.run (boundedStep (2 - 1)) [] ops
    code.2 = spec.2 ∧ code.1.Holds 2 spec.1
      ∧ ¬(code.1.isEmpty = true ∧ code.1.isFull 2 = true) :=
  run_refines_bounded 2 (by decide) _

end CirQueue

end Iceberg
