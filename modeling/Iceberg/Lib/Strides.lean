import Mathlib.Data.List.Basic

/-!
# Walking along a list in strides

A scanner looks at what lies in front of it and goes on by as many places as that says, or
stops. `Along` says that something holds at each place where it looks, and `places` are these
places in order.
-/

namespace Strides

universe u

variable {α : Type u}

section

variable (stride : List α → Option Nat) (ok : Int → List α → Prop)

/-- Along a list that begins at `index`, with `skip` places still to pass: at each place
where the walk looks, `ok` holds of the place and of what is left of the list. -/
def Along : Nat → Int → List α → Prop
  | _, _, [] => True
  | skip + 1, index, _ :: s => Along skip (index + 1) s
  | 0, index, a :: s => ok index (a :: s) ∧ ∀ k ∈ stride (a :: s), Along (k - 1) (index + 1) s

instance decidableAlong [∀ index s, Decidable (ok index s)] :
    ∀ (skip : Nat) (index : Int) (s : List α), Decidable (Along stride ok skip index s)
  | 0, _, [] | _ + 1, _, [] => .isTrue (by simp [Along])
  | skip + 1, index, _ :: s => decidableAlong skip (index + 1) s
  | 0, index, a :: s =>
    have := fun k : Nat => decidableAlong (k - 1) (index + 1) s
    inferInstanceAs (Decidable (ok index (a :: s)
      ∧ ∀ k ∈ stride (a :: s), Along stride ok (k - 1) (index + 1) s))

end

variable {stride : List α → Option Nat} {ok : Int → List α → Prop}

/-- At the end every walk is fine. -/
@[simp] theorem along_nil (skip : Nat) (index : Int) : Along stride ok skip index [] := by
  cases skip <;> simp [Along]

/-- What is passed does not matter. -/
theorem along_skip (skip : Nat) (index : Int) (s : List α) :
    Along stride ok skip index s ↔ Along stride ok 0 (index + skip) (s.drop skip) := by
  induction s generalizing skip index with
  | nil => simp
  | cons a s ih =>
    cases skip with
    | zero => simp
    | succ skip =>
      have hnext : index + 1 + (skip : Int) = index + (skip + 1 : Nat) := by omega
      rw [← hnext]
      exact ih skip (index + 1)

/-- The last place where the walk looks. -/
theorem along_stop {index : Int} {s : List α} (hne : s ≠ []) (hstride : stride s = none) :
    Along stride ok 0 index s ↔ ok index s := by
  cases s with
  | nil => exact absurd rfl hne
  | cons a s => simp [Along, hstride]

/-- One stride. -/
theorem along_stride {index : Int} {s : List α} {k : Nat} (hne : s ≠ []) (hpos : 0 < k)
    (hstride : stride s = some k) :
    Along stride ok 0 index s ↔ ok index s ∧ Along stride ok 0 (index + k) (s.drop k) := by
  cases s with
  | nil => exact absurd rfl hne
  | cons a s =>
    obtain ⟨k, rfl⟩ : ∃ n, k = n + 1 := ⟨k - 1, by omega⟩
    have hnext : index + 1 + (k : Int) = index + (k + 1 : Nat) := by omega
    rw [Along, hstride, List.drop_succ_cons, ← hnext, ← along_skip]
    simp

/-- Where `ok` holds of every short list, it holds along every short list. -/
theorem along_of_small {n skip : Nat} {index : Int} {s : List α}
    (hok : ∀ index s, s.length ≤ n → ok index s) (h : s.length ≤ n) :
    Along stride ok skip index s := by
  induction s generalizing skip index with
  | nil => simp
  | cons a s ih =>
    have hs : s.length ≤ n := Nat.le_of_succ_le h
    cases skip with
    | succ skip => exact ih hs
    | zero => exact ⟨hok index (a :: s) h, fun k _ => ih hs⟩

/-! ## The places -/

/-- The places where the walk looks, each with what is left of the list there. -/
def places (stride : List α → Option Nat) : Nat → Int → List α → List (Int × List α)
  | _, _, [] => []
  | skip + 1, index, _ :: s => places stride skip (index + 1) s
  | 0, index, a :: s =>
    (index, a :: s) :: ((stride (a :: s)).elim [] fun k => places stride (k - 1) (index + 1) s)

/-- A walk over nothing visits no place. -/
@[simp] theorem places_nil (skip : Nat) (index : Int) : places stride skip index [] = [] := by
  cases skip <;> rfl

/-- What is passed is no place. -/
theorem places_skip (skip : Nat) (index : Int) (s : List α) :
    places stride skip index s = places stride 0 (index + skip) (s.drop skip) := by
  induction s generalizing skip index with
  | nil => simp
  | cons a s ih =>
    cases skip with
    | zero => simp
    | succ skip =>
      have hnext : index + 1 + (skip : Int) = index + (skip + 1 : Nat) := by omega
      rw [← hnext]
      exact ih skip (index + 1)

/-- The last place. -/
theorem places_stop {index : Int} {s : List α} (hne : s ≠ []) (hstride : stride s = none) :
    places stride 0 index s = [(index, s)] := by
  cases s with
  | nil => exact absurd rfl hne
  | cons a s => rw [places, hstride, Option.elim_none]

/-- One stride. -/
theorem places_stride {index : Int} {s : List α} {k : Nat} (hne : s ≠ []) (hpos : 0 < k)
    (hstride : stride s = some k) :
    places stride 0 index s = (index, s) :: places stride 0 (index + k) (s.drop k) := by
  cases s with
  | nil => exact absurd rfl hne
  | cons a s =>
    obtain ⟨k, rfl⟩ : ∃ n, k = n + 1 := ⟨k - 1, by omega⟩
    have hnext : index + 1 + (k : Int) = index + (k + 1 : Nat) := by omega
    rw [places, hstride, List.drop_succ_cons, ← hnext, ← places_skip]
    rfl

end Strides
