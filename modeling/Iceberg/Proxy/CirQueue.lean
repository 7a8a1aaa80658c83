import Mathlib.Data.Nat.ModEq
import Mathlib.Data.List.Basic
import Mathlib.Logic.Function.Basic
import Mathlib.Tactic.Cases

/-!
# The circular queue of queried keys (`cir_queue.c`)

`CirQueue` is the C structure with the operations as the code computes them, over any
element type and any size. `Fifo` is a queue that carries its invariant; its operations
are those of the code, and `Fifo.toList` shows each of them as an operation on a plain
list of at most `size - 1` elements. The semaphore around each access never blocks in the
single-threaded proxy and is left out.
-/

namespace Iceberg

/-- `cir_queue_t`. A cell is `none` where the C array holds a null pointer. -/
structure CirQueue (α : Type) where
  data : Nat → Option α
  front : Nat
  rear : Nat
  count : Int

namespace CirQueue

variable {α : Type} (size : Nat)

/-- `init_cir_queue`. -/
def init : CirQueue α := { data := fun _ => none, front := 0, rear := 0, count := 0 }

/-- `is_empty_cir_queue`. -/
def isEmpty (q : CirQueue α) : Bool := q.front == q.rear

/-- `is_full_cir_queue`. -/
def isFull (q : CirQueue α) : Bool := q.count == (size : Int) - 1

/-- `push_cir_queue`. -/
def push (q : CirQueue α) (x : α) : CirQueue α :=
  if q.isFull size then q
  else { q with
    count := q.count + 1
    data := Function.update q.data q.rear (some x)
    rear := (q.rear + 1) % size }

/-- The three assignments that `pop_cir_queue` and `clear_queue` make to drop the front. -/
def drop (q : CirQueue α) : CirQueue α :=
  { q with
    data := Function.update q.data q.front none
    count := q.count - 1
    front := (q.front + 1) % size }

/-- `pop_cir_queue`, which returns `0` on an empty queue. -/
def pop (q : CirQueue α) : Option α × CirQueue α :=
  if q.isEmpty then (none, q) else (q.data q.front, q.drop size)

/-- `top_cir_queue`. -/
def top (q : CirQueue α) : Option α :=
  if q.isEmpty then none else q.data q.front

/-- The loop of `clear_queue`, which runs until the indices meet. -/
def clearLoop : Nat → CirQueue α → CirQueue α
  | 0, q => q
  | fuel + 1, q => if q.isEmpty then q else clearLoop fuel (q.drop size)

/-- `clear_queue`. A queue has at most `size` elements to drop. -/
def clear (q : CirQueue α) : CirQueue α := clearLoop size size q

/-- The elements, front to rear. -/
def toList (q : CirQueue α) : List α :=
  (List.range q.count.toNat).filterMap fun i => q.data ((q.front + i) % size)

/-- What holds of every queue the code builds. -/
structure Valid (q : CirQueue α) : Prop where
  count_nonneg : 0 ≤ q.count
  count_le : q.count ≤ (size : Int) - 1
  front_lt : q.front < size
  rear_eq : q.rear = (q.front + q.count.toNat) % size
  filled : ∀ i < q.count.toNat, ∃ x, q.data ((q.front + i) % size) = some x

/-- Cells at different distances from the front are different cells. -/
theorem cell_ne (front : Nat) {i j size : Nat} (hij : i < j) (hj : j < size) :
    (front + i) % size ≠ (front + j) % size := by
  intro h
  have hmod : i ≡ j [MOD size] := Nat.ModEq.add_left_cancel' front h
  have := Nat.ModEq.eq_of_lt_of_lt hmod (by omega) hj
  omega

variable {size}

/-- `front == rear` means that nothing is in the queue: with fewer than `size` elements the two
indices differ unless the count is zero. -/
theorem isEmpty_iff {q : CirQueue α} (h : q.Valid size) : q.isEmpty = true ↔ q.count = 0 := by
  have hn := h.count_nonneg
  have hle := h.count_le
  simp only [isEmpty, beq_iff_eq]
  constructor
  · intro heq
    by_contra hne
    refine cell_ne q.front (by omega : 0 < q.count.toNat)
      (by omega : q.count.toNat < size) ?_
    rw [← h.rear_eq, Nat.add_zero, Nat.mod_eq_of_lt h.front_lt]
    exact heq
  · intro h0
    rw [h.rear_eq, h0, Int.toNat_zero, Nat.add_zero, Nat.mod_eq_of_lt h.front_lt]

/-- The first queue is valid. -/
theorem valid_init (hsize : 0 < size) : (init : CirQueue α).Valid size where
  count_nonneg := by simp [init]
  count_le := by simp only [init]; omega
  front_lt := by simpa [init] using hsize
  rear_eq := by simp [init]
  filled := by simp [init]

/-- A push keeps the queue valid: either it is full and nothing happens, or both the count and
`rear` move on. -/
theorem Valid.push {q : CirQueue α} (h : q.Valid size) (x : α) : (q.push size x).Valid size := by
  have hn := h.count_nonneg
  have hle := h.count_le
  unfold CirQueue.push
  split
  · exact h
  · next hfull =>
    have hlt : q.count < (size : Int) - 1 := by
      have : q.count ≠ (size : Int) - 1 := by simpa [isFull] using hfull
      omega
    have hcount : (q.count + 1).toNat = q.count.toNat + 1 := by omega
    refine ⟨by simp only; omega, by simp only; omega, h.front_lt, ?_, ?_⟩
    · simp only [hcount, h.rear_eq, Nat.mod_add_mod, Nat.add_assoc]
    · intro i hi
      simp only [hcount] at hi
      simp only
      -- the new cell, or one that was filled before
      by_cases hlast : i = q.count.toNat
      · rw [hlast, h.rear_eq, Function.update_self]
        exact ⟨x, rfl⟩
      · have hne : (q.front + i) % size ≠ q.rear := by
          rw [h.rear_eq]
          exact cell_ne _ (by omega) (by omega)
        rw [Function.update_of_ne hne]
        exact h.filled i (by omega)

/-- Dropping the front of a non-empty queue: the remaining cells keep their content. -/
theorem drop_data {q : CirQueue α} (h : q.Valid size) {i : Nat} (hi : i + 1 < q.count.toNat) :
    (q.drop size).data (((q.drop size).front + i) % size)
      = q.data ((q.front + (i + 1)) % size) := by
  have hle := h.count_le
  have hcell : ((q.front + 1) % size + i) % size = (q.front + (i + 1)) % size := by
    rw [Nat.mod_add_mod, Nat.add_assoc, Nat.add_comm 1 i]
  have hne : (q.front + (i + 1)) % size ≠ q.front := by
    have := cell_ne q.front (Nat.succ_pos i) (by omega : i + 1 < size)
    rw [Nat.add_zero, Nat.mod_eq_of_lt h.front_lt] at this
    exact this.symm
  simp only [CirQueue.drop]
  rw [hcell, Function.update_of_ne hne]

/-- To take an element away keeps the queue valid. -/
theorem Valid.drop {q : CirQueue α} (h : q.Valid size) (hne : q.count ≠ 0) :
    (q.drop size).Valid size := by
  have hn := h.count_nonneg
  have hle := h.count_le
  have hcount : (q.count - 1).toNat + 1 = q.count.toNat := by omega
  refine ⟨by simp only [CirQueue.drop]; omega, by simp only [CirQueue.drop]; omega,
    Nat.mod_lt _ (Nat.lt_of_le_of_lt (Nat.zero_le _) h.front_lt), ?_, ?_⟩
  · simp only [CirQueue.drop, h.rear_eq]
    rw [Nat.mod_add_mod, ← hcount, Nat.add_assoc, Nat.add_comm 1]
  · intro i hi
    have hi' : i + 1 < q.count.toNat := by
      simp only [CirQueue.drop] at hi
      omega
    rw [drop_data h hi']
    exact h.filled (i + 1) hi'

/-- A pop keeps the queue valid, on an empty queue too. -/
theorem Valid.pop {q : CirQueue α} (h : q.Valid size) : (q.pop size).2.Valid size := by
  unfold CirQueue.pop
  split
  · exact h
  · next hempty => exact h.drop fun h0 => hempty ((isEmpty_iff h).mpr h0)

/-- The loop of `clear_queue` keeps the queue valid. Induction on its rounds. -/
theorem Valid.clearLoop {q : CirQueue α} (h : q.Valid size) (fuel : Nat) :
    (clearLoop size fuel q).Valid size := by
  induction fuel generalizing q with
  | zero => exact h
  | succ fuel ih =>
    unfold CirQueue.clearLoop
    split
    · exact h
    · next hempty => exact ih (h.drop fun h0 => hempty ((isEmpty_iff h).mpr h0))

/-! ## The queue as a list -/

/-- The count is the number of elements. -/
theorem length_toList {q : CirQueue α} (h : q.Valid size) :
    (q.toList size).length = q.count.toNat := by
  have hall : ∀ n ≤ q.count.toNat, ((List.range n).filterMap
      fun i => q.data ((q.front + i) % size)).length = n := by
    intro n hn
    induction n with
    | zero => rfl
    | succ n ih =>
      obtain ⟨x, hx⟩ := h.filled n (by omega)
      rw [List.range_succ, List.filterMap_append, List.length_append, ih (by omega)]
      simp [hx]
  exact hall _ (Nat.le_refl _)

/-- **Push** appends at the rear. The element goes into the slot behind those of the list, which
is none of theirs. -/
theorem toList_push {q : CirQueue α} (h : q.Valid size) {x : α} (hfull : q.isFull size = false) :
    (q.push size x).toList size = q.toList size ++ [x] := by
  have hn := h.count_nonneg
  have hlt : q.count < (size : Int) - 1 := by
    have hle := h.count_le
    have : q.count ≠ (size : Int) - 1 := by simpa [isFull] using hfull
    omega
  have hcount : (q.count + 1).toNat = q.count.toNat + 1 := by omega
  simp only [CirQueue.push, hfull, Bool.false_eq_true, if_false, toList, hcount]
  rw [List.range_succ, List.filterMap_append]
  congr 1
  · apply List.filterMap_congr
    intro i hi
    have hne : (q.front + i) % size ≠ q.rear := by
      rw [h.rear_eq]
      exact cell_ne _ (List.mem_range.mp hi) (by omega)
    rw [Function.update_of_ne hne]
  · simp [h.rear_eq]

theorem toList_push_full {q : CirQueue α} {x : α} (hfull : q.isFull size = true) :
    q.push size x = q := by
  simp [CirQueue.push, hfull]

/-- The queue is full one element before its array is. -/
theorem isFull_iff {q : CirQueue α} (h : q.Valid size) :
    q.isFull size = true ↔ (q.toList size).length + 1 = size := by
  have hn := h.count_nonneg
  have hle := h.count_le
  rw [length_toList h]
  simp only [isFull, beq_iff_eq]
  omega

/-- The element in front is the head of the list. -/
theorem toList_drop {q : CirQueue α} (h : q.Valid size) (hne : q.count ≠ 0) :
    ∃ x, q.data q.front = some x ∧ q.toList size = x :: (q.drop size).toList size := by
  have hn := h.count_nonneg
  have hcount : q.count.toNat = (q.count - 1).toNat + 1 := by omega
  obtain ⟨x, hx⟩ := h.filled 0 (by omega)
  rw [Nat.add_zero, Nat.mod_eq_of_lt h.front_lt] at hx
  refine ⟨x, hx, ?_⟩
  have htail : ((List.range (q.count - 1).toNat).filterMap
        fun i => q.data ((q.front + (i + 1)) % size)) = (q.drop size).toList size := by
    apply List.filterMap_congr
    intro i hi
    have hi' := List.mem_range.mp hi
    exact (drop_data h (by omega)).symm
  rw [toList, hcount, List.range_succ_eq_map, List.filterMap_cons, Nat.add_zero,
    Nat.mod_eq_of_lt h.front_lt, hx, ← htail, List.filterMap_map]
  rfl

/-- `pop_cir_queue` takes the head of the list, and returns `0` when there is none. -/
theorem pop_fst {q : CirQueue α} (h : q.Valid size) :
    (q.pop size).1 = (q.toList size).head? := by
  unfold CirQueue.pop
  split
  · next hempty =>
    have hnil : q.toList size = [] := by simp [toList, (isEmpty_iff h).mp hempty]
    simp [hnil]
  · next hempty =>
    obtain ⟨x, hx, hlist⟩ := toList_drop h fun h0 => hempty ((isEmpty_iff h).mpr h0)
    simp [hx, hlist]

/-- **Pop** takes the head away. -/
theorem toList_pop {q : CirQueue α} (h : q.Valid size) :
    (q.pop size).2.toList size = (q.toList size).tail := by
  unfold CirQueue.pop
  split
  · next hempty => simp [toList, (isEmpty_iff h).mp hempty]
  · next hempty =>
    obtain ⟨x, -, hlist⟩ := toList_drop h fun h0 => hempty ((isEmpty_iff h).mpr h0)
    simp [hlist]

/-- Enough rounds empty the queue. Induction on them: each takes one element. -/
theorem toList_clearLoop {q : CirQueue α} (h : q.Valid size) {fuel : Nat}
    (hfuel : q.count ≤ fuel) : (clearLoop size fuel q).toList size = [] := by
  induction fuel generalizing q with
  | zero =>
    have h0 : q.count = 0 := by
      have := h.count_nonneg
      omega
    simp [clearLoop, toList, h0]
  | succ fuel ih =>
    unfold clearLoop
    split
    · next hempty => simp [toList, (isEmpty_iff h).mp hempty]
    · next hempty =>
      refine ih (h.drop fun h0 => hempty ((isEmpty_iff h).mpr h0)) ?_
      simp only [CirQueue.drop]
      omega

/-- **Clear** leaves nothing. -/
theorem toList_clear {q : CirQueue α} (h : q.Valid size) :
    (q.clear size).toList size = [] := by
  refine toList_clearLoop h ?_
  have := h.count_le
  omega

end CirQueue

/-! ## A queue with its invariant -/

/-- A circular queue that the code can have built. -/
structure Fifo (α : Type) (size : Nat) where
  queue : CirQueue α
  valid : queue.Valid size

namespace Fifo

variable {α : Type} {size : Nat}

def init (hsize : 0 < size) : Fifo α size := ⟨.init, CirQueue.valid_init hsize⟩

def isFull (q : Fifo α size) : Bool := q.queue.isFull size

def push (q : Fifo α size) (x : α) : Fifo α size := ⟨q.queue.push size x, q.valid.push x⟩

def pop (q : Fifo α size) : Option α × Fifo α size :=
  ((q.queue.pop size).1, ⟨(q.queue.pop size).2, q.valid.pop⟩)

def clear (q : Fifo α size) : Fifo α size := ⟨q.queue.clear size, q.valid.clearLoop size⟩

def toList (q : Fifo α size) : List α := q.queue.toList size

@[simp] theorem toList_init (hsize : 0 < size) : (init hsize : Fifo α size).toList = [] := rfl

theorem isFull_iff (q : Fifo α size) : q.isFull = true ↔ q.toList.length + 1 = size :=
  CirQueue.isFull_iff q.valid

theorem toList_push (q : Fifo α size) {x : α} (h : q.isFull = false) :
    (q.push x).toList = q.toList ++ [x] := CirQueue.toList_push q.valid h

@[simp] theorem pop_fst (q : Fifo α size) : q.pop.1 = q.toList.head? := CirQueue.pop_fst q.valid

@[simp] theorem toList_pop (q : Fifo α size) : q.pop.2.toList = q.toList.tail :=
  CirQueue.toList_pop q.valid

@[simp] theorem toList_clear (q : Fifo α size) : q.clear.toList = [] :=
  CirQueue.toList_clear q.valid

end Fifo

/-! ## The queue of the proxy -/

/-- `QUE_SIZE` of `cir_queue.h`. -/
def queSize : Nat := 4096

/-- A queried key: the bytes of the allocation that the pointer in the queue refers to. -/
abbrev Key := List UInt8

/-- The type of the global `q`. -/
abbrev KeyQueue := Fifo Key queSize

def initCirQueue : KeyQueue := Fifo.init (by decide)

end Iceberg
