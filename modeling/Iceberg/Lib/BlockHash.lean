import Mathlib.Data.List.Basic
import Mathlib.Data.List.TakeDrop
import Mathlib.Tactic.Ring

/-!
# Absorbing a message block by block

A hash function compresses the whole blocks of its input one after another into a state
(`absorbed`), and an incremental implementation keeps the bytes behind the last whole block
(`pending`) until more come. The two lemmas about appending say what has to be done then:
keep the new bytes as well, or complete the block and go on with the rest.
-/

namespace BlockHash

variable {σ α : Type*} (compress : σ → List α → σ) (size : Nat)

/-- Compress the first `n` blocks. -/
def run : Nat → σ → List α → σ
  | 0, s, _ => s
  | n + 1, s, l => run n (compress s (l.take size)) (l.drop size)

/-- The state behind all whole blocks. -/
def absorbed (s : σ) (l : List α) : σ := run compress size (l.length / size) s l

/-- What is left behind the last whole block. -/
def pending (l : List α) : List α := l.drop (l.length / size * size)

/-- `n + m` rounds are `n` of them and then `m` more, behind the blocks that are gone. Induction
on `n`. -/
theorem run_add (n m : Nat) (s : σ) (l : List α) :
    run compress size (n + m) s l
      = run compress size m (run compress size n s l) (l.drop (n * size)) := by
  induction n generalizing s l with
  | zero => simp [run]
  | succ n ih =>
    have hdrop : size + n * size = (n + 1) * size := by ring
    rw [Nat.add_right_comm, run, run, ih, List.drop_drop, hdrop]

/-- What stands behind the blocks of the `n` rounds does not matter. Induction on `n`: each round
takes one block from the front. -/
theorem run_append {n : Nat} {l : List α} (h : n * size ≤ l.length) (s : σ) (t : List α) :
    run compress size n s (l ++ t) = run compress size n s l := by
  induction n generalizing s l with
  | zero => rfl
  | succ n ih =>
    have hmul : (n + 1) * size = n * size + size := by ring
    have hfirst : size ≤ l.length := by omega
    rw [run, run, List.take_append_of_le_length hfirst, List.drop_append_of_le_length hfirst, ih]
    rw [List.length_drop]
    omega

@[simp] theorem absorbed_nil (s : σ) : absorbed compress size s [] = s := by
  simp [absorbed, run]

@[simp] theorem pending_nil : pending size ([] : List α) = [] := by
  simp [pending]

/-- Fewer bytes than a block are all left over. -/
theorem absorbed_of_lt {l : List α} (h : l.length < size) (s : σ) :
    absorbed compress size s l = s ∧ pending size l = l := by
  have hdiv : l.length / size = 0 := Nat.div_eq_of_lt h
  rw [absorbed, pending, hdiv]
  exact ⟨rfl, by simp⟩

/-- The first block of at least one. -/
theorem absorbed_of_le {l : List α} (hsize : 0 < size) (h : size ≤ l.length) (s : σ) :
    absorbed compress size s l
        = absorbed compress size (compress s (l.take size)) (l.drop size)
      ∧ pending size l = pending size (l.drop size) := by
  have hdiv : l.length / size = (l.drop size).length / size + 1 := by
    rw [List.length_drop, Nat.div_eq_sub_div hsize h]
  rw [absorbed, pending, hdiv, absorbed, pending, run, Nat.succ_mul, Nat.add_comm _ size,
    ← List.drop_drop]
  exact ⟨rfl, rfl⟩

/-- Less than a block is pending: what the length leaves over. -/
@[simp] theorem length_pending (l : List α) : (pending size l).length = l.length % size := by
  have hdiv := Nat.div_add_mod' l.length size
  rw [pending, List.length_drop]
  omega

variable {size}

/-- **Too few bytes for a block** are kept with the pending ones. -/
theorem absorbed_append_of_lt {l t : List α} (h : l.length % size + t.length < size) (s : σ) :
    absorbed compress size s (l ++ t) = absorbed compress size s l
      ∧ pending size (l ++ t) = pending size l ++ t := by
  have hdiv := Nat.div_add_mod' l.length size
  have hblocks : (l ++ t).length / size = l.length / size := by
    have hlen : (l ++ t).length = (l.length % size + t.length) + l.length / size * size := by
      rw [List.length_append]
      omega
    rw [hlen, Nat.add_mul_div_right _ _ (by omega), Nat.div_eq_of_lt h, Nat.zero_add]
  refine ⟨?_, ?_⟩
  · rw [absorbed, hblocks, run_append compress size (by omega), absorbed]
  · rw [pending, hblocks, List.drop_append_of_le_length (by omega), pending]

/-- **Behind whole blocks** the new bytes are absorbed as they are. -/
theorem absorbed_append_of_whole {l : List α} (h : l.length % size = 0) (hsize : 0 < size)
    (t : List α) (s : σ) :
    absorbed compress size s (l ++ t)
        = absorbed compress size (absorbed compress size s l) t
      ∧ pending size (l ++ t) = pending size t := by
  have hdiv := Nat.div_add_mod' l.length size
  rw [h, Nat.add_zero] at hdiv
  have hblocks : (l ++ t).length / size = l.length / size + t.length / size := by
    have hlen : (l ++ t).length = t.length + l.length / size * size := by
      rw [List.length_append]
      omega
    rw [hlen, Nat.add_mul_div_right _ _ hsize, Nat.add_comm]
  have hdrop : (l ++ t).drop (l.length / size * size) = t := by
    rw [hdiv, List.drop_left]
  constructor
  · rw [absorbed, hblocks, run_add, run_append compress size (Nat.le_of_eq hdiv), hdrop]
    rfl
  · rw [pending, hblocks, Nat.add_mul, ← List.drop_drop, hdrop, pending]

/-- **The block is completed** by the first `k` of the new bytes; the rest is absorbed. -/
theorem absorbed_append_of_complete {l t : List α} {k : Nat} (hk : l.length % size + k = size)
    (hle : k ≤ t.length) (hsize : 0 < size) (s : σ) :
    absorbed compress size s (l ++ t)
        = absorbed compress size (compress (absorbed compress size s l)
            (pending size l ++ t.take k)) (t.drop k)
      ∧ pending size (l ++ t) = pending size (t.drop k) := by
  have hdiv := Nat.div_add_mod' l.length size
  have hlen : (l ++ t).length = (t.length - k) + (l.length / size + 1) * size := by
    rw [List.length_append, Nat.add_mul, Nat.one_mul]
    omega
  -- one block more than before, and those of the rest
  have hblocks : (l ++ t).length / size
      = l.length / size + (1 + (t.drop k).length / size) := by
    rw [hlen, Nat.add_mul_div_right _ _ hsize, List.length_drop]
    omega
  have hdrop : (l ++ t).drop (l.length / size * size) = pending size l ++ t := by
    rw [List.drop_append_of_le_length (by omega), pending]
  have hpend : (pending size l).length + k = size := by rw [length_pending, hk]
  have hrest : (pending size l ++ t).drop size = t.drop k := by
    rw [List.drop_append, List.drop_of_length_le (by omega), List.nil_append]
    congr 1
    omega
  refine ⟨?_, ?_⟩
  · -- the block that is completed
    have hblock : (pending size l ++ t).take size = pending size l ++ t.take k := by
      rw [List.take_append, List.take_of_length_le (by omega)]
      congr 2
      omega
    rw [absorbed, hblocks, run_add, run_append compress size (by omega), hdrop, Nat.add_comm 1,
      run, hblock, hrest]
    rfl
  · rw [pending, hblocks, pending]
    have hmul : (l.length / size + (1 + (t.drop k).length / size)) * size
        = l.length / size * size + (size + (t.drop k).length / size * size) := by ring
    rw [hmul, ← List.drop_drop, hdrop, ← List.drop_drop, hrest]

end BlockHash
