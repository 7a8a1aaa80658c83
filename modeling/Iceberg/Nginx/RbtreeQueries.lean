import Iceberg.Nginx.RbtreeInsert
import Iceberg.Nginx.RbtreeDelete

/-!
# Searches

What the searches find is a fact about the sequence of the nodes: a search finds a node with the
key, a lookup the first node whose key is not less, or else the first one of all. They go down
one path, so they take at most twice the logarithm of the number of nodes in rounds.
-/

namespace Iceberg.Nginx

open RedBlack RedBlack.ColorTree

variable {δ : Type} {M : Ptr → Option (RbNode δ)} {k : UInt32} {t : Rbtree δ} {up : Ptr}

/-- The address of a node that may be missing. -/
def ptrOf : Option (Entry δ) → Ptr
  | none => nullPtr
  | some a => a.ptr

/-- In a search tree the subtrees lie on either side of the root. -/
theorem ascending_node {c : Color} {l r : ColorTree (Entry δ)} {e : Entry δ}
    (h : Ascending (node c l e r).toList) :
    Ascending l.toList ∧ Ascending r.toList ∧ (∀ a ∈ l.toList, a.key ≤ e.key)
      ∧ ∀ a ∈ r.toList, e.key ≤ a.key := by
  obtain ⟨hl, hr, hlr⟩ := List.pairwise_append.mp h
  obtain ⟨her, hr⟩ := List.pairwise_cons.mp hr
  exact ⟨hl, hr, fun a ha => hlr a ha e List.mem_cons_self, her⟩

/-- The walk of a search. -/
theorem searchFrom_holds {x : ColorTree (Entry δ)} {q : Ptr} {fuel : Nat} (key : Int)
    (h : Holds t.mem q x) (hnamed : ∀ p ∈ ptrs x.toList, p ≠ nullPtr ∧ p ≠ sentinel)
    (hasc : Ascending x.toList) (hfuel : x.depth < fuel) :
    ∃ found, Rbtree.searchFrom fuel t key (addr x) = some (ptrOf found)
      ∧ (∀ a ∈ found, a ∈ x.toList ∧ a.key = key)
      ∧ (found = none → ∀ a ∈ x.toList, a.key ≠ key) := by
  induction x generalizing q fuel with
  | nil =>
    obtain ⟨fuel, rfl⟩ := Nat.exists_eq_add_of_lt hfuel
    exact ⟨none, rfl, fun a ha => absurd ha (Option.not_mem_none a),
      fun _ a ha => absurd ha List.not_mem_nil⟩
  | node c l e r ihl ihr =>
    obtain ⟨fuel, rfl⟩ : ∃ f, fuel = f + 1 := ⟨fuel - 1, by omega⟩
    simp only [depth] at hfuel
    have hfl : l.depth < fuel := by omega
    have hfr : r.depth < fuel := by omega
    obtain ⟨hcell, hl, hr⟩ := h
    obtain ⟨hne, hnl, hnr⟩ := forall_ptrs_node.mp hnamed
    -- the order of the sequence, on both sides of the node
    obtain ⟨hal, har, hle, hge⟩ := ascending_node hasc
    rw [Rbtree.searchFrom, addr_node, if_neg hne.2, hcell]
    show ∃ found, (if key < e.key then Rbtree.searchFrom fuel t key (addr l)
      else if key > e.key then Rbtree.searchFrom fuel t key (addr r) else some e.ptr) = _ ∧ _
    by_cases hlt : key < e.key
    · -- to the right of the node all keys are greater
      obtain ⟨found, hrun, hsome, hnone⟩ := ihl hl hnl hal hfl
      refine ⟨found, (if_pos hlt).trans hrun, fun a ha => ?_, fun hfound a ha => ?_⟩
      · exact ⟨List.mem_append_left _ (hsome a ha).1, (hsome a ha).2⟩
      · rcases List.mem_append.mp ha with ha | ha
        · exact hnone hfound a ha
        · rcases List.mem_cons.mp ha with rfl | ha
          · omega
          · have := hge a ha
            omega
    · -- to the left of the node all keys are less
      by_cases hgt : key > e.key
      · obtain ⟨found, hrun, hsome, hnone⟩ := ihr hr hnr har hfr
        refine ⟨found, (if_neg hlt).trans ((if_pos hgt).trans hrun), fun a ha => ?_,
          fun hfound a ha => ?_⟩
        · exact ⟨List.mem_append_right _ (List.mem_cons_of_mem _ (hsome a ha).1), (hsome a ha).2⟩
        · rcases List.mem_append.mp ha with ha | ha
          · have := hle a ha
            omega
          · rcases List.mem_cons.mp ha with rfl | ha
            · omega
            · exact hnone hfound a ha
      · -- the node has the key
        refine ⟨some e, (if_neg hlt).trans (if_neg hgt), fun a ha => ?_,
          fun hnone => absurd hnone (Option.some_ne_none e)⟩
        obtain rfl : e = a := Option.some.inj ha
        exact ⟨by simp, by omega⟩

/-- The walk of a lookup, with the best node so far. -/
theorem lookupFrom_holds {x : ColorTree (Entry δ)} {q : Ptr} {fuel : Nat} (key : Int)
    (h : Holds t.mem q x) (hnamed : ∀ p ∈ ptrs x.toList, p ≠ sentinel)
    (hasc : Ascending x.toList) (hfuel : x.depth < fuel) (best : Option (Entry δ)) :
    Rbtree.lookupFrom fuel t key (addr x) (ptrOf best)
      = some (ptrOf ((x.toList.find? fun a => key ≤ a.key).or best)) := by
  induction x generalizing q fuel best with
  | nil =>
    obtain ⟨fuel, rfl⟩ := Nat.exists_eq_add_of_lt hfuel
    rfl
  | node c l e r ihl ihr =>
    obtain ⟨fuel, rfl⟩ : ∃ f, fuel = f + 1 := ⟨fuel - 1, by omega⟩
    simp only [depth] at hfuel
    obtain ⟨hcell, hl, hr⟩ := h
    obtain ⟨hne, hnl, hnr⟩ := forall_ptrs_node.mp hnamed
    obtain ⟨hal, har, hle, -⟩ := ascending_node hasc
    rw [Rbtree.lookupFrom, addr_node, if_neg hne, hcell, toList_node, List.find?_append]
    show (if key ≤ e.key then Rbtree.lookupFrom fuel t key (addr l) (ptrOf (some e))
      else Rbtree.lookupFrom fuel t key (addr r) (ptrOf best)) = _
    by_cases hkey : key ≤ e.key
    · -- the node is a candidate, a better one can only be on its left
      rw [if_pos hkey, ihl hl hnl hal (by omega) (some e),
        List.find?_cons_of_pos (by exact decide_eq_true hkey), Option.or_assoc, Option.some_or]
    · -- the keys on the left are less too
      have hleft : l.toList.find? (fun a => key ≤ a.key) = none := by
        apply List.find?_eq_none.mpr
        intro a ha
        have := hle a ha
        simp only [decide_eq_true_eq]
        omega
      rw [if_neg hkey, ihr hr hnr har (by omega) best, hleft, Option.none_or,
        List.find?_cons_of_neg (by simpa using hkey)]

/-- A travel visits the nodes in order. -/
theorem midTravelFrom_holds {β : Type} {f : β → Int → δ → β} {x : ColorTree (Entry δ)} {q : Ptr}
    {fuel : Nat} (h : Holds t.mem q x) (hne : x ≠ .nil)
    (hnamed : ∀ p ∈ ptrs x.toList, p ≠ sentinel) (hfuel : x.depth < fuel) (data : β) :
    Rbtree.midTravelFrom (fun data n => f data n.key n.data) fuel t (addr x) data
      = some (x.toList.foldl (fun data a => f data a.key a.data) data) := by
  induction x generalizing q fuel data with
  | nil => exact absurd rfl hne
  | node c l e r ihl ihr =>
    obtain ⟨fuel, rfl⟩ : ∃ f, fuel = f + 1 := ⟨fuel - 1, by omega⟩
    simp only [depth] at hfuel
    obtain ⟨hcell, hl, hr⟩ := h
    obtain ⟨-, hnl, hnr⟩ := forall_ptrs_node.mp hnamed
    -- a child that is missing is not visited
    have hvisit : ∀ {y : ColorTree (Entry δ)}, (∀ p ∈ ptrs y.toList, p ≠ sentinel) →
        (y ≠ .nil → ∀ data, Rbtree.midTravelFrom (fun data n => f data n.key n.data) fuel t (addr y)
          data = some (y.toList.foldl (fun data a => f data a.key a.data) data)) →
        ∀ data, (if addr y ≠ sentinel then
            Rbtree.midTravelFrom (fun data n => f data n.key n.data) fuel t (addr y) data
          else some data) = some (y.toList.foldl (fun data a => f data a.key a.data) data) := by
      intro y hy ih data
      cases y with
      | nil => exact if_neg (not_not.mpr rfl)
      | node c' l' e' r' => exact (if_pos (hy _ (by simp))).trans (ih (node_ne_nil _ _ _ _) data)
    have hleft := hvisit hnl (fun hy data => ihl hl hy hnl (by omega) data) data
    have hright := hvisit hnr fun hy data => ihr hr hy hnr (by omega) data
    rw [Rbtree.midTravelFrom, addr_node, hcell, toList_node, List.foldl_append, List.foldl_cons]
    refine (congrArg (Option.bind · _) hleft).trans ?_
    exact hright (f (l.toList.foldl (fun data a => f data a.key a.data) data) e.key e.data)

section Linked

variable {T : ColorTree (Entry δ)} {key : Int} {fuel m : Nat}

/-- The root is the sentinel exactly if the tree is empty. -/
theorem Linked.root_eq_sentinel (h : Linked M k t up T) : t.root = sentinel ↔ T = .nil := by
  rw [h.root]
  cases T with
  | nil => exact iff_of_true rfl rfl
  | node c l e r => exact iff_of_false (h.named _ (by simp)).2 (node_ne_nil _ _ _ _)

/-- **A search** finds a node with the key, and `NULL` only if there is none. -/
theorem search_linked (h : Linked M k t up T) (hasc : Ascending T.toList)
    (hfuel : T.depth < fuel) :
    ∃ found, t.search fuel key = some (ptrOf found)
      ∧ (∀ a ∈ found, a ∈ T.toList ∧ a.key = key)
      ∧ (found = none → ∀ a ∈ T.toList, a.key ≠ key) := by
  rw [Rbtree.search, h.root]
  exact searchFrom_holds key h.holds h.named hasc hfuel

/-- The first node and the last one. -/
theorem subtreeMin_linked (h : Linked M k t up T) (hfuel : T.depth < fuel) :
    Rbtree.subtreeMin fuel t t.root = some (ptrOf T.toList.head?) := by
  by_cases hnil : T = .nil
  · obtain ⟨fuel, rfl⟩ := Nat.exists_eq_add_of_lt hfuel
    rw [Rbtree.subtreeMin, h.root_eq_sentinel.mpr hnil, hnil]
    rfl
  · obtain ⟨low, c, e, y, rfl, hsides, hrun⟩ :=
      subtreeEnd_eq .left h.holds hnil (fun p hp => (h.named p hp).2) (Nat.le_of_lt hfuel)
    rw [Rbtree.subtreeMin, h.root, hrun, toList_plug, before_eq_nil hsides]
    rfl

/-- **`util_rbsubtree_max`** goes down the right spine, to the last entry. -/
theorem subtreeMax_linked (h : Linked M k t up T) (hfuel : T.depth < fuel) :
    Rbtree.subtreeMax fuel t t.root = some (ptrOf T.toList.getLast?) := by
  by_cases hnil : T = .nil
  · obtain ⟨fuel, rfl⟩ := Nat.exists_eq_add_of_lt hfuel
    rw [Rbtree.subtreeMax, h.root_eq_sentinel.mpr hnil, hnil]
    rfl
  · obtain ⟨low, c, e, y, rfl, hsides, hrun⟩ :=
      subtreeEnd_eq .right h.holds hnil (fun p hp => (h.named p hp).2) (Nat.le_of_lt hfuel)
    have hlast : (plug low (branch .right c .nil e y)).toList
        = before low ++ y.toList ++ [e] := by
      rw [toList_plug, after_eq_nil hsides, List.append_nil, List.append_assoc]
      rfl
    rw [Rbtree.subtreeMax, h.root, hrun, hlast, List.getLast?_concat]
    rfl

/-- **A lookup** finds the first node whose key is not less than the given one, or else the
first node of all. -/
theorem lookup_linked (key : Int) (h : Linked M k t up T) (hasc : Ascending T.toList)
    (hfuel : T.depth < fuel) :
    t.lookup fuel key
      = some (ptrOf ((T.toList.find? fun a => key ≤ a.key).or T.toList.head?)) := by
  have hwalk := lookupFrom_holds key h.holds (fun p hp => (h.named p hp).2) hasc hfuel none
  rw [← h.root] at hwalk
  rw [Rbtree.lookup]
  by_cases hnil : T = .nil
  · rw [if_pos (h.root_eq_sentinel.mpr hnil), hnil]
    rfl
  · rw [if_neg fun hroot => hnil (h.root_eq_sentinel.mp hroot)]
    refine (congrArg (Option.bind · _) hwalk).trans ?_
    rw [Option.or_none]
    cases hfind : T.toList.find? fun a => key ≤ a.key with
    | none => exact subtreeMin_linked h hfuel
    | some a =>
      have hmem := List.mem_of_find?_eq_some hfind
      exact if_pos (h.named _ (List.mem_map_of_mem hmem)).1

/-- **A travel** visits the nodes in the order of their keys. -/
theorem midTravel_linked {β : Type} {f : β → Int → δ → β} (h : Linked M k t up T)
    (hfuel : T.depth < fuel) (data : β) :
    t.midTravel (fun data n => f data n.key n.data) fuel data
      = some (T.toList.foldl (fun data a => f data a.key a.data) data) := by
  rw [Rbtree.midTravel]
  by_cases hnil : T = .nil
  · rw [if_pos (h.root_eq_sentinel.mpr hnil), hnil]
    rfl
  · rw [if_neg fun hroot => hnil (h.root_eq_sentinel.mp hroot), h.root]
    exact midTravelFrom_holds h.holds hnil (fun p hp => (h.named p hp).2) hfuel data

end Linked

end Iceberg.Nginx
