import Mathlib.Data.List.Basic

/-!
# Sorted chains

A bin of a chained hash table: the entries in ascending order of their keys, at most one for
each key. A search walks over smaller keys only, which finds every entry because of the
order; the order is a field of `Chain`, so no search has to ask for it.
-/

namespace SortedChain

variable {κ β : Type} [Ord κ]

/-- The walk of an insertion: over smaller keys, then the entry is replaced or put in front
of the next one. -/
def insertEntry (k : κ) (v : β) : List (κ × β) → List (κ × β)
  | [] => [(k, v)]
  | e :: l =>
    match compare k e.1 with
    | .gt => e :: insertEntry k v l
    | .eq => (e.1, v) :: l
    | .lt => (k, v) :: e :: l

/-- The walk of a search. -/
def findEntry (k : κ) : List (κ × β) → Option β
  | [] => none
  | e :: l =>
    match compare k e.1 with
    | .gt => findEntry k l
    | .eq => some e.2
    | .lt => none

/-- The keys ascend. -/
def Ascending (l : List (κ × β)) : Prop := l.Pairwise fun a b => compare a.1 b.1 = .lt

/-- A search on a chain finds nothing behind a larger key. -/
theorem findEntry_of_lt {k : κ} {l : List (κ × β)} (h : ∀ e ∈ l, compare k e.1 = .lt) :
    findEntry k l = none := by
  cases l with
  | nil => rfl
  | cons e l => simp only [findEntry, h e List.mem_cons_self]

variable [Std.LawfulEqOrd κ]

/-- What has been inserted is found. Induction on the chain: the entries that the insertion passes
are passed by the search too. -/
theorem findEntry_insertEntry_self (k : κ) (v : β) (l : List (κ × β)) :
    findEntry k (insertEntry k v l) = some v := by
  induction l with
  | nil => simp [insertEntry, findEntry]
  | cons e l ih =>
    unfold insertEntry
    split
    · next hgt => simp only [findEntry, hgt, ih]
    · next heq => simp only [findEntry, heq]
    · simp [findEntry]

/-- An insertion adds no entries with other keys. -/
theorem mem_insertEntry {k : κ} {v : β} {l : List (κ × β)} {e : κ × β}
    (h : e ∈ insertEntry k v l) : e.1 = k ∨ e ∈ l := by
  induction l with
  | nil => exact Or.inl (by rw [List.mem_singleton.mp h])
  | cons e' l ih =>
    unfold insertEntry at h
    split at h
    · rcases List.mem_cons.mp h with rfl | h
      · exact Or.inr List.mem_cons_self
      · exact (ih h).imp_right (List.mem_cons_of_mem _)
    · next heq =>
      rcases List.mem_cons.mp h with rfl | h
      · exact Or.inl (Std.LawfulEqOrd.eq_of_compare heq).symm
      · exact Or.inr (List.mem_cons_of_mem _ h)
    · rcases List.mem_cons.mp h with rfl | h
      · exact Or.inl rfl
      · exact Or.inr h

variable [Std.TransOrd κ]

/-- An insertion keeps the order. In the case where the entry goes in front, it is below the first
key, and so below all. -/
theorem ascending_insertEntry {l : List (κ × β)} (h : Ascending l) (k : κ) (v : β) :
    Ascending (insertEntry k v l) := by
  induction l with
  | nil => exact List.pairwise_singleton _ _
  | cons e l ih =>
    obtain ⟨hhead, htail⟩ := List.pairwise_cons.mp h
    unfold insertEntry
    split
    · next hgt =>
      refine List.pairwise_cons.mpr ⟨fun e' he' => ?_, ih htail⟩
      rcases mem_insertEntry he' with hk | hmem
      · rw [hk]
        exact Std.OrientedCmp.gt_iff_lt.mp hgt
      · exact hhead e' hmem
    · exact List.pairwise_cons.mpr ⟨hhead, htail⟩
    · next hlt =>
      refine List.pairwise_cons.mpr ⟨fun e' he' => ?_, h⟩
      rcases List.mem_cons.mp he' with rfl | hmem
      · exact hlt
      · exact Std.TransCmp.lt_trans hlt (hhead e' hmem)

/-- The search for another key is not affected, as the chain is sorted: it stops at the first key
above, on whichever side of it the new entry stands. -/
theorem findEntry_insertEntry_of_ne {k k' : κ} (hne : k' ≠ k) (v : β) {l : List (κ × β)}
    (h : Ascending l) : findEntry k' (insertEntry k v l) = findEntry k' l := by
  induction l with
  | nil =>
    have hcmp : compare k' k ≠ .eq := fun heq => hne (Std.LawfulEqOrd.eq_of_compare heq)
    cases hc : compare k' k with
    | eq => exact absurd hc hcmp
    | gt => simp only [insertEntry, findEntry, hc]
    | lt => simp only [insertEntry, findEntry, hc]
  | cons e l ih =>
    obtain ⟨hhead, htail⟩ := List.pairwise_cons.mp h
    unfold insertEntry
    split
    · simp only [findEntry, ih htail]
    · next heq =>
      have hk : k = e.1 := Std.LawfulEqOrd.eq_of_compare heq
      have hcmp : compare k' e.1 ≠ .eq := fun h' =>
        hne (hk ▸ Std.LawfulEqOrd.eq_of_compare h')
      cases hc : compare k' e.1 with
      | eq => exact absurd hc hcmp
      | gt => simp only [findEntry, hc]
      | lt => simp only [findEntry, hc]
    · next hlt =>
      -- the new entry stands in front of all others
      have hcmp : compare k' k ≠ .eq := fun heq => hne (Std.LawfulEqOrd.eq_of_compare heq)
      cases hc : compare k' k with
      | eq => exact absurd hc hcmp
      | gt => simp only [findEntry, hc]
      | lt =>
        have hall : ∀ e' ∈ e :: l, compare k' e'.1 = .lt := by
          intro e' he'
          rcases List.mem_cons.mp he' with rfl | hmem
          · exact Std.TransCmp.lt_trans hc hlt
          · exact Std.TransCmp.lt_trans hc (Std.TransCmp.lt_trans hlt (hhead e' hmem))
        rw [findEntry_of_lt hall]
        simp only [findEntry, hc]

end SortedChain

/-- A chain of entries in ascending order of their keys. -/
structure SortedChain (κ β : Type) [Ord κ] where
  entries : List (κ × β)
  ascending : SortedChain.Ascending entries

namespace SortedChain

variable {κ β : Type} [Ord κ]

def empty : SortedChain κ β := ⟨[], List.Pairwise.nil⟩

def get (c : SortedChain κ β) (k : κ) : Option β := findEntry k c.entries

@[simp] theorem get_empty (k : κ) : (empty : SortedChain κ β).get k = none := rfl

variable [Std.TransOrd κ] [Std.LawfulEqOrd κ]

def set (c : SortedChain κ β) (k : κ) (v : β) : SortedChain κ β :=
  ⟨insertEntry k v c.entries, ascending_insertEntry c.ascending k v⟩

/-- A key has the value it was set to. -/
@[simp] theorem get_set_self (c : SortedChain κ β) (k : κ) (v : β) : (c.set k v).get k = some v :=
  findEntry_insertEntry_self k v c.entries

/-- To set a key leaves the others as they were. -/
theorem get_set_of_ne (c : SortedChain κ β) {k k' : κ} (h : k' ≠ k) (v : β) :
    (c.set k v).get k' = c.get k' :=
  findEntry_insertEntry_of_ne h v c.ascending

end SortedChain
