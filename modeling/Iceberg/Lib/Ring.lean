import Mathlib.Data.Set.Basic
import Mathlib.Order.Basic
import Mathlib.Data.List.Pairwise

/-!
# Points on a ring

A linear order is bent to a ring: from a place one goes up, and behind the greatest point comes
the least. The owner of a place is the first point that one meets. A point that is added takes
its places from the owner of its own place, and a point that leaves gives away its own only.
-/

namespace Ring

universe u

variable {κ : Type u} [LinearOrder κ] {S P : Set κ} {q a b c p : κ}

/-- From `q` on, one meets `a` no later than `b`. -/
def Precedes (q a b : κ) : Prop := (q ≤ b → q ≤ a) ∧ ((q ≤ a → q ≤ b) → a ≤ b)

/-- Two points that come before each other on the way from `q` are one. -/
theorem precedes_antisymm (h : Precedes q a b) (h' : Precedes q b a) : a = b :=
  le_antisymm (h.2 h'.1) (h'.2 h.1)

/-- The first point that one meets from `q` on. -/
def IsOwner (S : Set κ) (q a : κ) : Prop := a ∈ S ∧ ∀ b ∈ S, Precedes q a b

/-- A place has at most one owner. -/
theorem IsOwner.unique (h : IsOwner S q a) (h' : IsOwner S q b) : a = b :=
  precedes_antisymm (h.2 b h'.1) (h'.2 a h.1)

/-- Among fewer points, the owner stays if it is one of them. -/
theorem IsOwner.mono (h : IsOwner S q a) (hP : P ⊆ S) (ha : a ∈ P) : IsOwner P q a :=
  ⟨ha, fun b hb => h.2 b (hP hb)⟩

/-- A new owner of a place takes it from the owner of its own place. -/
theorem IsOwner.handover (h : IsOwner S q p) (hP : P ⊆ S) (ha : IsOwner P q a) :
    IsOwner P p a := by
  refine ⟨ha.1, fun b hb => ?_⟩
  have hpa := h.2 a (hP ha.1)
  have hab := ha.2 b hb
  -- from `q` one meets `p`, then `a`, then `b`
  constructor
  · intro hle
    by_cases hq : q ≤ p
    · have hqa := hab.1 (le_trans hq hle)
      exact hpa.2 fun _ => hqa
    · exact hpa.2 fun h => absurd h hq
  · intro himp
    refine hab.2 fun hqa => ?_
    by_cases hq : q ≤ p
    · exact le_trans hq (himp (hpa.2 fun _ => hqa))
    · exact absurd (hpa.1 hqa) hq

/-- Between two points lies what the greater one owns; the rest of the ring is the other's. -/
theorem isOwner_pair (hab : a < b) (q : κ) :
    IsOwner {x | x = a ∨ x = b} q (if a < q ∧ q ≤ b then b else a) := by
  have hle := le_of_lt hab
  by_cases hbetween : a < q ∧ q ≤ b
  · rw [if_pos hbetween]
    refine ⟨Or.inr rfl, fun x hx => ⟨fun _ => hbetween.2, fun himp => ?_⟩⟩
    rcases hx with rfl | rfl
    · exact absurd (himp hbetween.2) (not_le_of_gt hbetween.1)
    · exact le_refl x
  · rw [if_neg hbetween]
    refine ⟨Or.inl rfl, fun x hx => ⟨fun hq => ?_, fun _ => ?_⟩⟩
    · rcases hx with rfl | rfl
      · exact hq
      · exact le_of_not_gt fun hlt => hbetween ⟨hlt, hq⟩
    · rcases hx with rfl | rfl
      · exact le_refl x
      · exact hle

/-! ## Points in order -/

/-- The first point in order that is not below `q`, or else the first one of all. -/
def owner (q : κ) (l : List κ) : Option κ := (l.find? fun a => q ≤ a).or l.head?

/-- In a list that ascends, this is the owner. -/
theorem isOwner_of_owner {l : List κ} (hl : l.Pairwise (· ≤ ·)) (h : owner q l = some a) :
    IsOwner {b | b ∈ l} q a := by
  rw [owner] at h
  cases hfind : l.find? fun b => q ≤ b with
  | some b =>
    rw [hfind, Option.some_or, Option.some.injEq] at h
    rw [← h]
    -- the first that is not less: those before it are less, those behind it not less than it
    obtain ⟨hb, before, after, rfl, hbefore⟩ := List.find?_eq_some_iff_append.mp hfind
    rw [decide_eq_true_eq] at hb
    refine ⟨by simp, fun c hc => ⟨fun _ => hb, fun himp => ?_⟩⟩
    rcases List.mem_append.mp hc with hc | hc
    · have := hbefore c hc
      rw [Bool.not_eq_true', decide_eq_false_iff_not] at this
      exact absurd (himp hb) this
    · rcases List.mem_cons.mp hc with rfl | hc
      · exact le_refl c
      · exact (List.pairwise_cons.mp (List.pairwise_append.mp hl).2.1).1 c hc
  -- all are less, and the least of them owns
  | none =>
    rw [hfind, Option.none_or] at h
    obtain ⟨l', rfl⟩ := List.head?_eq_some_iff.mp h
    refine ⟨List.mem_cons_self, fun c hc => ⟨fun hq => ?_, fun _ => ?_⟩⟩
    · exact absurd (decide_eq_true hq) (List.find?_eq_none.mp hfind c hc)
    · rcases List.mem_cons.mp hc with rfl | hc
      · exact le_refl c
      · exact (List.pairwise_cons.mp hl).1 c hc

end Ring
