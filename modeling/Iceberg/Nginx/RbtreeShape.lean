import Iceberg.Nginx.Rbtree
import Mathlib.Data.List.Nodup
import Mathlib.Tactic.Tauto

/-!
# The tree in memory

`Linked M k t up T`: the nodes that `t.root` leads to are the tree `T`, with parent links that
fit, the root's parent link holds `up`, all other memory is `M`, and `size` is `k`. A fix-up
loop works in the middle of the tree, so the same is said of a subtree and of what surrounds it
(`linked_plug`). Then each store of the code is a fact about one place.
-/

namespace Iceberg.Nginx

open RedBlack RedBlack.ColorTree

variable {δ : Type}

/-- A node of the tree: its address, and the fields that the tree never changes. -/
structure Entry (δ : Type) where
  ptr : Ptr
  key : Int
  data : δ

/-- The address that leads to a subtree. -/
def addr : ColorTree (Entry δ) → Ptr
  | .nil => sentinel
  | .node _ _ e _ => e.ptr

@[simp] theorem addr_nil : addr (.nil : ColorTree (Entry δ)) = sentinel := rfl

@[simp] theorem addr_node (c : Color) (l : ColorTree (Entry δ)) (e : Entry δ)
    (r : ColorTree (Entry δ)) : addr (.node c l e r) = e.ptr := rfl

/-- What is stored at the node of `e`, seen from the side `s`. -/
def cell (s : Side) (e : Entry δ) (c : Color) (up near far : Ptr) : RbNode δ where
  key := e.key
  parent := up
  right := match s with
    | .left => far
    | .right => near
  left := match s with
    | .left => near
    | .right => far
  color := colorCode c
  data := e.data

section Cell

variable (s : Side) (e : Entry δ) (c : Color) (up near far : Ptr)

@[simp] theorem child_cell : (cell s e c up near far).child s = near := by cases s <;> rfl

@[simp] theorem child_other_cell : (cell s e c up near far).child s.other = far := by
  cases s <;> rfl

@[simp] theorem parent_cell : (cell s e c up near far).parent = up := rfl

@[simp] theorem key_cell : (cell s e c up near far).key = e.key := rfl

@[simp] theorem data_cell : (cell s e c up near far).data = e.data := rfl

@[simp] theorem color_cell : (cell s e c up near far).color = colorCode c := rfl

@[simp] theorem setChild_cell (q : Ptr) :
    (cell s e c up near far).setChild q s = cell s e c up q far := by cases s <;> rfl

@[simp] theorem setChild_other_cell (q : Ptr) :
    (cell s e c up near far).setChild q s.other = cell s e c up near q := by cases s <;> rfl

end Cell

@[simp] theorem colorCode_beq_zero (c : Color) : (colorCode c == 0) = (c == .red) := by
  cases c <;> rfl

@[simp] theorem colorCode_beq_one (c : Color) : (colorCode c == 1) = (c == .black) := by
  cases c <;> rfl

/-- The addresses of some nodes. -/
abbrev ptrs (l : List (Entry δ)) : List Ptr := l.map Entry.ptr

theorem ptrs_append (l l' : List (Entry δ)) : ptrs (l ++ l') = ptrs l ++ ptrs l' :=
  List.map_append

theorem ptrs_cons (e : Entry δ) (l : List (Entry δ)) : ptrs (e :: l) = e.ptr :: ptrs l := rfl

theorem mem_ptrs_append_left {l : List (Entry δ)} (l' : List (Entry δ)) {p : Ptr}
    (h : p ∈ ptrs l) : p ∈ ptrs (l ++ l') := by
  rw [ptrs_append]
  exact List.mem_append_left _ h

theorem mem_ptrs_append_right (l : List (Entry δ)) {l' : List (Entry δ)} {p : Ptr}
    (h : p ∈ ptrs l') : p ∈ ptrs (l ++ l') := by
  rw [ptrs_append]
  exact List.mem_append_right _ h

/-- The addresses of a tree are that of its root and those of its subtrees. -/
theorem forall_ptrs_node {P : Ptr → Prop} {c : Color} {l r : ColorTree (Entry δ)} {e : Entry δ} :
    (∀ p ∈ ptrs (node c l e r).toList, P p)
      ↔ P e.ptr ∧ (∀ p ∈ ptrs l.toList, P p) ∧ ∀ p ∈ ptrs r.toList, P p := by
  simp only [toList_node, List.map_append, List.map_cons, List.mem_append, List.mem_cons,
    or_imp, forall_and, forall_eq]
  tauto

/-! ## Subtrees and their surroundings -/

/-- The subtree is in memory, below the node at `up`. -/
def Holds (m : Ptr → Option (RbNode δ)) : Ptr → ColorTree (Entry δ) → Prop
  | _, .nil => True
  | up, .node c l e r =>
    m e.ptr = some (cell .left e c up (addr l) (addr r)) ∧ Holds m e.ptr l ∧ Holds m e.ptr r

/-- What the parent link of the subtree in the hole holds. -/
def upLink (up : Ptr) : List (Frame (Entry δ)) → Ptr
  | [] => up
  | f :: _ => f.label.ptr

@[simp] theorem upLink_nil (up : Ptr) : upLink up ([] : List (Frame (Entry δ))) = up := rfl

@[simp] theorem upLink_cons (up : Ptr) (f : Frame (Entry δ)) (C : List (Frame (Entry δ))) :
    upLink up (f :: C) = f.label.ptr := rfl

/-- The surroundings of a hole are in memory, and lead to the address `hole`. -/
def HoldsAbove (m : Ptr → Option (RbNode δ)) (root up : Ptr) :
    Ptr → List (Frame (Entry δ)) → Prop
  | hole, [] => root = hole
  | hole, f :: C =>
    m f.label.ptr = some (cell f.side f.label f.color (upLink up C) hole (addr f.sibling))
      ∧ Holds m f.label.ptr f.sibling ∧ HoldsAbove m root up f.label.ptr C

/-- What memory holds of a branch, from either side. -/
theorem holds_branch {m : Ptr → Option (RbNode δ)} {up : Ptr} {s : Side} {c : Color}
    {x y : ColorTree (Entry δ)} {e : Entry δ} :
    Holds m up (branch s c x e y)
      ↔ m e.ptr = some (cell s e c up (addr x) (addr y)) ∧ Holds m e.ptr x ∧ Holds m e.ptr y := by
  cases s with
  | left => exact Iff.rfl
  | right =>
    show _ ∧ _ ∧ _ ↔ _ ∧ _ ∧ _
    rw [and_comm (a := Holds m e.ptr y)]
    exact Iff.rfl

@[simp] theorem addr_branch (s : Side) (c : Color) (x : ColorTree (Entry δ)) (e : Entry δ)
    (y : ColorTree (Entry δ)) : addr (branch s c x e y) = e.ptr := by cases s <;> rfl

@[simp] theorem addr_paint (c : Color) (x : ColorTree (Entry δ)) : addr (x.paint c) = addr x := by
  cases x <;> rfl

/-- A tree does not depend on memory outside of it. Induction on the tree. -/
theorem Holds.congr {m m' : Ptr → Option (RbNode δ)} {up : Ptr} {x : ColorTree (Entry δ)}
    (h : Holds m up x) (hm : ∀ p ∈ ptrs x.toList, m' p = m p) : Holds m' up x := by
  induction x generalizing up with
  | nil => exact trivial
  | node c l e r ihl ihr =>
    obtain ⟨he, hl, hr⟩ := forall_ptrs_node.mp hm
    exact ⟨he.trans h.1, ihl h.2.1 hl, ihr h.2.2 hr⟩

/-- A context does not depend on memory outside of it. Induction on the context. -/
theorem HoldsAbove.congr {m m' : Ptr → Option (RbNode δ)} {root up hole : Ptr}
    {C : List (Frame (Entry δ))} (h : HoldsAbove m root up hole C)
    (hm : ∀ p ∈ ptrs (above C), m' p = m p) : HoldsAbove m' root up hole C := by
  induction C generalizing hole with
  | nil => exact h
  | cons f C ih =>
    have hall : ∀ p, p = f.label.ptr ∨ p ∈ ptrs f.sibling.toList ∨ p ∈ ptrs (above C) →
        m' p = m p := by
      intro p hp
      apply hm
      simpa [or_assoc] using hp
    exact ⟨(hall _ (Or.inl rfl)).trans h.1, h.2.1.congr fun p hp => hall p (Or.inr (Or.inl hp)),
      ih h.2.2 fun p hp => hall p (Or.inr (Or.inr hp))⟩

theorem addr_eq_or_mem (x : ColorTree (Entry δ)) : addr x = sentinel ∨ addr x ∈ ptrs x.toList := by
  cases x with
  | nil => exact Or.inl rfl
  | node c l e r => exact Or.inr (by simp)

/-- The root lies among the surroundings, unless it is the hole. -/
theorem HoldsAbove.root_mem {m : Ptr → Option (RbNode δ)} {root up hole : Ptr}
    {f : Frame (Entry δ)} {C : List (Frame (Entry δ))}
    (h : HoldsAbove m root up hole (f :: C)) : root ∈ ptrs (above (f :: C)) := by
  induction C generalizing f hole with
  | nil =>
    obtain rfl : root = f.label.ptr := h.2.2
    simp
  | cons g C ih =>
    have := ih h.2.2
    simp only [above_cons, List.map_append, List.map_cons, List.mem_append, List.mem_cons] at this ⊢
    tauto

/-- The nodes that `t.root` leads to are the tree `T`; `up` is the root's parent link, `M` the
rest of the memory, `k` the size. -/
structure Linked (M : Ptr → Option (RbNode δ)) (k : UInt32) (t : Rbtree δ) (up : Ptr)
    (T : ColorTree (Entry δ)) : Prop where
  root : t.root = addr T
  holds : Holds t.mem up T
  apart : (ptrs T.toList).Nodup
  named : ∀ p ∈ ptrs T.toList, p ≠ nullPtr ∧ p ≠ sentinel
  outside : ∀ p, p ∉ ptrs T.toList → t.mem p = M p
  size : t.size = k

/-- The same, seen from a subtree. -/
structure Focused (M : Ptr → Option (RbNode δ)) (k : UInt32) (t : Rbtree δ) (up : Ptr)
    (C : List (Frame (Entry δ))) (x : ColorTree (Entry δ)) : Prop where
  holdsAbove : HoldsAbove t.mem t.root up (addr x) C
  holds : Holds t.mem (upLink up C) x
  apart : (ptrs (x.toList ++ above C)).Nodup
  named : ∀ p ∈ ptrs (x.toList ++ above C), p ≠ nullPtr ∧ p ≠ sentinel
  outside : ∀ p, p ∉ ptrs (x.toList ++ above C) → t.mem p = M p
  size : t.size = k

/-- A tree with a hole, and the subtree in it. -/
theorem holds_plug {m : Ptr → Option (RbNode δ)} {root up : Ptr} {C : List (Frame (Entry δ))}
    {x : ColorTree (Entry δ)} :
    (root = addr (plug C x) ∧ Holds m up (plug C x))
      ↔ HoldsAbove m root up (addr x) C ∧ Holds m (upLink up C) x := by
  induction C generalizing x with
  | nil => exact Iff.rfl
  | cons f C ih =>
    rw [plug_cons, ih, Frame.fill, addr_branch, holds_branch]
    simp only [HoldsAbove, upLink]
    tauto

/-- **The focus.** A tree that is linked is what is in the hole, linked, below a context
that is. -/
theorem linked_plug {M : Ptr → Option (RbNode δ)} {k : UInt32} {t : Rbtree δ} {up : Ptr}
    {C : List (Frame (Entry δ))} {x : ColorTree (Entry δ)} :
    Linked M k t up (plug C x) ↔ Focused M k t up C x := by
  have hperm : (ptrs (plug C x).toList).Perm (ptrs (x.toList ++ above C)) :=
    (perm_toList_plug C x).map _
  constructor
  · intro h
    obtain ⟨habove, hbelow⟩ := holds_plug.mp ⟨h.root, h.holds⟩
    exact ⟨habove, hbelow, hperm.nodup_iff.mp h.apart, fun p hp => h.named p (hperm.mem_iff.mpr hp),
      fun p hp => h.outside p (hp ∘ hperm.mem_iff.mp), h.size⟩
  · intro h
    obtain ⟨hroot, hholds⟩ := holds_plug.mpr ⟨h.holdsAbove, h.holds⟩
    exact ⟨hroot, hholds, hperm.nodup_iff.mpr h.apart, fun p hp => h.named p (hperm.mem_iff.mp hp),
      fun p hp => h.outside p (hp ∘ hperm.mem_iff.mpr), h.size⟩

/-! ## Single stores -/

namespace Rbtree

variable {t : Rbtree δ} {p q : Ptr} {n : RbNode δ}

theorem set_of_mem {f : RbNode δ → RbNode δ} (h : t.mem p = some n) :
    t.set p f = some { t with mem := Function.update t.mem p (some (f n)) } := by
  rw [set, h, Option.map_some]

/-- Two stores into the same node. -/
theorem set_set (t : Rbtree δ) (p : Ptr) (f g : RbNode δ → RbNode δ) :
    (t.set p f).bind (fun t => t.set p g) = t.set p (g ∘ f) := by
  cases h : t.mem p with
  | none => simp [set, h]
  | some n => simp [set, h]

theorem parent_of_mem (h : t.mem p = some n) : t.parent p = some n.parent := by
  rw [parent, h, Option.map_some]

theorem child_of_mem {s : Side} (h : t.mem p = some n) : t.child s p = some (n.child s) := by
  rw [child, h, Option.map_some]

theorem isRed_of_mem (h : t.mem p = some n) : t.isRed p = some (n.color == 0) := by
  rw [isRed, h, Option.map_some]

theorem isBlack_of_mem (h : t.mem p = some n) : t.isBlack p = some (n.color == 1) := by
  rw [isBlack, h, Option.map_some]

/-- `t'` comes from `t` by stores at the addresses `S`. -/
structure Stores (S : List Ptr) (t t' : Rbtree δ) : Prop where
  mem : ∀ p, p ∉ S → t'.mem p = t.mem p
  size : t'.size = t.size

theorem Stores.refl (S : List Ptr) (t : Rbtree δ) : Stores S t t := ⟨fun _ _ => rfl, rfl⟩

theorem Stores.trans {S : List Ptr} {t t' t'' : Rbtree δ} (h : Stores S t t')
    (h' : Stores S t' t'') : Stores S t t'' :=
  ⟨fun p hp => (h'.mem p hp).trans (h.mem p hp), h'.size.trans h.size⟩

theorem Stores.mono {S S' : List Ptr} {t t' : Rbtree δ} (h : Stores S t t') (hs : S ⊆ S') :
    Stores S' t t' :=
  ⟨fun p hp => h.mem p fun hin => hp (hs hin), h.size⟩

theorem stores_update (t : Rbtree δ) (p : Ptr) (n : Option (RbNode δ)) :
    Stores [p] t { t with mem := Function.update t.mem p n } :=
  ⟨fun q hq => Function.update_of_ne (by simpa using hq) _ _, rfl⟩

theorem Stores.holds {S : List Ptr} {t t' : Rbtree δ} {up : Ptr} {x : ColorTree (Entry δ)}
    (h : Stores S t t') (hx : Holds t.mem up x) (hS : ∀ p ∈ S, p ∉ ptrs x.toList) :
    Holds t'.mem up x :=
  hx.congr fun p hp => h.mem p fun hin => hS p hin hp

theorem Stores.holdsAbove {S : List Ptr} {t t' : Rbtree δ} {root up hole : Ptr}
    {C : List (Frame (Entry δ))} (h : Stores S t t') (hctx : HoldsAbove t.mem root up hole C)
    (hS : ∀ p ∈ S, p ∉ ptrs (above C)) : HoldsAbove t'.mem root up hole C :=
  hctx.congr fun p hp => h.mem p fun hin => hS p hin hp

/-- The link above the hole is made to lead to `q`. -/
theorem setChild_above {up hole : Ptr} {f : Frame (Entry δ)} {C : List (Frame (Entry δ))}
    (habove : HoldsAbove t.mem t.root up hole (f :: C))
    (hapart : (ptrs (above (f :: C))).Nodup) :
    ∃ t', t.setChild f.side f.label.ptr q = some t'
      ∧ HoldsAbove t'.mem t'.root up q (f :: C) ∧ t'.root = t.root
      ∧ Stores [f.label.ptr] t t' := by
  obtain ⟨hcell, hsibling, hrest⟩ := habove
  simp only [above_cons, List.map_append, List.map_cons, List.nodup_cons, List.mem_append,
    not_or, List.cons_append] at hapart
  obtain ⟨⟨hfs, hfc⟩, -⟩ := hapart
  have hrun : t.setChild f.side f.label.ptr q = some { t with
      mem := Function.update t.mem f.label.ptr
        (some (cell f.side f.label f.color (upLink up C) q (addr f.sibling))) } := by
    rw [setChild, set_of_mem hcell, setChild_cell]
  refine ⟨_, hrun, ⟨Function.update_self .., ?_, ?_⟩, rfl, stores_update _ _ _⟩
  · exact (stores_update _ _ _).holds hsibling (by simpa using hfs)
  · exact (stores_update _ _ _).holdsAbove hrest (by simpa using hfc)

/-- The link to `p` is found by a comparison. -/
theorem replaceBelow_above {up : Ptr} {f : Frame (Entry δ)} {C : List (Frame (Entry δ))}
    (habove : HoldsAbove t.mem t.root up p (f :: C)) (hp : t.mem p = some n)
    (hup : n.parent = f.label.ptr) (hapart : (p :: ptrs (above (f :: C))).Nodup)
    (hne : p ≠ sentinel) :
    ∃ t', t.replaceBelow p q = some t' ∧ HoldsAbove t'.mem t'.root up q (f :: C)
      ∧ t'.root = t.root ∧ Stores [f.label.ptr] t t' := by
  obtain ⟨hnot, hnodup⟩ := List.nodup_cons.mp hapart
  obtain ⟨t', hstore, hrest⟩ := setChild_above (q := q) habove hnodup
  have hrun : t.replaceBelow p q = t.setChild f.side f.label.ptr q := by
    rw [replaceBelow, parent_of_mem hp, hup]
    simp only [Option.bind_eq_bind, Option.bind_some, child_of_mem habove.1]
    cases hs : f.side with
    | left => exact if_pos rfl
    | right =>
      -- the sibling is on the left, and it is not `p`
      have hother : addr f.sibling ≠ p := by
        intro heq
        rcases addr_eq_or_mem f.sibling with h | h
        · exact hne (heq ▸ h)
        · refine hnot ?_
          rw [← heq]
          simp only [above_cons, List.map_append, List.cons_append, List.map_cons, List.mem_cons,
            List.mem_append]
          exact Or.inr (Or.inl h)
      exact if_neg hother
  exact ⟨t', hrun.trans hstore, hrest⟩

/-- **`replaceChild`** puts another node into the hole, whether that is the root or below a
frame. -/
theorem replaceChild_above {up : Ptr} {C : List (Frame (Entry δ))}
    (habove : HoldsAbove t.mem t.root up p C) (hp : t.mem p = some n)
    (hup : n.parent = upLink up C) (hapart : (p :: ptrs (above C)).Nodup)
    (hne : p ≠ sentinel) :
    ∃ t', t.replaceChild p q = some t' ∧ HoldsAbove t'.mem t'.root up q C
      ∧ Stores (ptrs (above C)) t t' := by
  cases C with
  | nil =>
    obtain rfl : t.root = p := habove
    exact ⟨{ t with root := q }, if_pos rfl, rfl, fun _ _ => rfl, rfl⟩
  | cons f C =>
    obtain ⟨t', hrun, habove', -, hstores⟩ := replaceBelow_above (q := q) habove hp hup hapart hne
    have hroot : p ≠ t.root := fun heq =>
      (List.nodup_cons.mp hapart).1 (heq ▸ habove.root_mem)
    refine ⟨t', (if_neg hroot).trans hrun, habove', hstores.mono ?_⟩
    simp

/-- A subtree gets another parent, unless it is empty. -/
theorem adopt_holds {up : Ptr} {x : ColorTree (Entry δ)} (hx : Holds t.mem up x)
    (hapart : (ptrs x.toList).Nodup) (hnamed : ∀ p ∈ ptrs x.toList, p ≠ sentinel) :
    ∃ t', t.adopt (addr x) q = some t'
      ∧ Holds t'.mem q x ∧ t'.root = t.root ∧ Stores (ptrs x.toList) t t' := by
  cases x with
  | nil => exact ⟨t, if_neg (by simp), trivial, rfl, .refl _ _⟩
  | node c l e r =>
    have hne : addr (.node c l e r) ≠ sentinel := hnamed _ (by simp)
    obtain ⟨hcell, hl, hr⟩ := hx
    have hperm : (ptrs (node c l e r).toList).Perm (e.ptr :: (ptrs l.toList ++ ptrs r.toList)) := by
      simp [List.perm_middle]
    have hnot : e.ptr ∉ ptrs l.toList ∧ e.ptr ∉ ptrs r.toList := by
      have := (List.nodup_cons.mp (hperm.nodup_iff.mp hapart)).1
      simpa only [List.mem_append, not_or] using this
    refine ⟨_, (if_pos hne).trans (set_of_mem hcell), ⟨?_, ?_, ?_⟩, rfl, ?_⟩
    · exact Function.update_self _ _ _
    · exact (stores_update _ _ _).holds hl (by simpa using hnot.1)
    · exact (stores_update _ _ _).holds hr (by simpa using hnot.2)
    · exact (stores_update _ _ _).mono (by simp)

end Rbtree

/-! ## Rotations -/

/-- The entries of a branch, in some order. -/
theorem perm_branch (s : Side) (c : Color) (x : ColorTree (Entry δ)) (e : Entry δ)
    (y : ColorTree (Entry δ)) : (branch s c x e y).toList.Perm (e :: (x.toList ++ y.toList)) := by
  cases s with
  | left => exact List.perm_middle
  | right => exact List.perm_middle.trans (List.perm_append_comm.cons e)

/-- The nodes of a focused branch, and its surroundings. -/
theorem perm_branch_above (s : Side) (c : Color) (x : ColorTree (Entry δ)) (e : Entry δ)
    (y : ColorTree (Entry δ)) (l : List (Entry δ)) :
    ((branch s c x e y).toList ++ l).Perm (e :: (x.toList ++ (y.toList ++ l))) := by
  refine ((perm_branch s c x e y).append_right l).trans ?_
  rw [List.cons_append, List.append_assoc]

/-- A subtree with the same nodes, after stores into these nodes and their surroundings. -/
theorem Focused.of_stores {M : Ptr → Option (RbNode δ)} {k : UInt32} {t t' : Rbtree δ} {up : Ptr}
    {C C' : List (Frame (Entry δ))} {x x' : ColorTree (Entry δ)} (h : Focused M k t up C x)
    (habove : HoldsAbove t'.mem t'.root up (addr x') C')
    (hholds : Holds t'.mem (upLink up C') x')
    (hperm : (x'.toList ++ above C').Perm (x.toList ++ above C))
    (hstores : Rbtree.Stores (ptrs (x.toList ++ above C)) t t') :
    Focused M k t' up C' x' := by
  have hptrs : (ptrs (x'.toList ++ above C')).Perm (ptrs (x.toList ++ above C)) :=
    hperm.map _
  refine ⟨habove, hholds, hptrs.nodup_iff.mpr h.apart,
    fun p hp => h.named p (hptrs.mem_iff.mp hp), fun p hp => ?_, hstores.size.trans h.size⟩
  have hp' : p ∉ ptrs (x.toList ++ above C) := hp ∘ hptrs.mem_iff.mpr
  exact (hstores.mem p hp').trans (h.outside p hp')

namespace Rbtree

/-- **`swapLinks`** turns the edge between two nodes around, and hands the inner subtree over. -/
theorem swapLinks_cells {t : Rbtree δ} {s : Side} {a b : Entry δ} {c c' : Color}
    {up up' near inner far hole : Ptr} (hab : a.ptr ≠ b.ptr)
    (ha : t.mem a.ptr = some (cell s a c up near hole))
    (hb : t.mem b.ptr = some (cell s b c' up' inner far)) :
    ∃ t', t.swapLinks s a.ptr b.ptr inner = some t'
      ∧ t'.mem a.ptr = some (cell s a c b.ptr near inner)
      ∧ t'.mem b.ptr = some (cell s b c' up' a.ptr far)
      ∧ t'.root = t.root ∧ Stores [a.ptr, b.ptr] t t' := by
  -- three stores: the parent of `a`, the child of `b`, the child of `a`
  let t₁ : Rbtree δ := { t with
    mem := Function.update t.mem a.ptr (some (cell s a c b.ptr near hole)) }
  have h₁ : t.setParent a.ptr b.ptr = some t₁ := set_of_mem ha
  have hb₁ : t₁.mem b.ptr = some (cell s b c' up' inner far) :=
    (Function.update_of_ne hab.symm ..).trans hb
  let t₂ : Rbtree δ := { t₁ with
    mem := Function.update t₁.mem b.ptr (some (cell s b c' up' a.ptr far)) }
  have h₂ : t₁.setChild s b.ptr a.ptr = some t₂ := by
    rw [setChild, set_of_mem hb₁, setChild_cell]
  have ha₂ : t₂.mem a.ptr = some (cell s a c b.ptr near hole) :=
    (Function.update_of_ne hab ..).trans (Function.update_self ..)
  let t₃ : Rbtree δ := { t₂ with
    mem := Function.update t₂.mem a.ptr (some (cell s a c b.ptr near inner)) }
  have h₃ : t₂.setChild s.other a.ptr inner = some t₃ := by
    rw [setChild, set_of_mem ha₂, setChild_other_cell]
  refine ⟨t₃, ?_, Function.update_self .., ?_, rfl, ?_⟩
  · simp only [swapLinks, Option.bind_eq_bind, h₁, h₂, h₃, Option.bind_some]
  · exact (Function.update_of_ne hab.symm ..).trans (Function.update_self ..)
  · have hs₁ : Stores [a.ptr, b.ptr] t t₁ := (stores_update _ _ _).mono (by simp)
    have hs₂ : Stores [a.ptr, b.ptr] t₁ t₂ := (stores_update _ _ _).mono (by simp)
    exact (hs₁.trans hs₂).trans ((stores_update _ _ _).mono (by simp))

end Rbtree

/-- **A rotation** at a focused node. -/
theorem Focused.rotate {M : Ptr → Option (RbNode δ)} {k : UInt32} {t : Rbtree δ} {up : Ptr}
    {C : List (Frame (Entry δ))} {s : Side} {c c' : Color} {x y z : ColorTree (Entry δ)}
    {a b : Entry δ} (h : Focused M k t up C (branch s c x a (branch s c' y b z))) :
    ∃ t', Rbtree.rotate s t a.ptr = some t'
      ∧ Focused M k t' up C (branch s c' (branch s c x a y) b z) := by
  have hperm : ((branch s c x a (branch s c' y b z)).toList ++ above C).Perm
      (a :: b :: (x.toList ++ (y.toList ++ (z.toList ++ above C)))) := by
    refine (perm_branch_above ..).trans ((List.Perm.trans ?_ List.perm_middle).cons a)
    exact (perm_branch_above ..).append_left _
  have hnamed : ∀ p ∈ ptrs (a :: b :: (x.toList ++ (y.toList ++ (z.toList ++ above C)))),
      p ≠ nullPtr ∧ p ≠ sentinel := fun p hp => h.named p ((hperm.map _).mem_iff.mpr hp)
  have hnodup := (hperm.map Entry.ptr).nodup_iff.mp h.apart
  simp only [List.map_cons, List.map_append, List.nodup_cons, List.nodup_append', List.mem_append,
    List.mem_cons, not_or, List.disjoint_append_right] at hnodup
  -- the two nodes, the three subtrees and the context share no cell
  obtain ⟨⟨hab, hax, hay, haz, haA⟩, ⟨hbx, hby, hbz, hbA⟩, -, ⟨hY, ⟨-, hA, hzA⟩, hyz, hyA⟩, hxy,
    hxz, hxA⟩ := hnodup
  obtain ⟨ha, hx, hb, hy, hz⟩ : _ ∧ _ ∧ _ ∧ _ ∧ _ := by
    have := h.holds
    rwa [holds_branch, holds_branch, addr_branch] at this
  have habove : HoldsAbove t.mem t.root up a.ptr C := by simpa using h.holdsAbove
  -- `b` gets the parent of `a`, and its place
  let t₁ : Rbtree δ := { t with
    mem := Function.update t.mem b.ptr (some (cell s b c' (upLink up C) (addr y) (addr z))) }
  have h₁ : t.setParent b.ptr (upLink up C) = some t₁ := Rbtree.set_of_mem hb
  have hs₁ : Rbtree.Stores [b.ptr] t t₁ := Rbtree.stores_update _ _ _
  have ha₁ : t₁.mem a.ptr = some (cell s a c (upLink up C) (addr x) b.ptr) :=
    (hs₁.mem _ (by simpa using hab)).trans ha
  obtain ⟨t₂, h₂, habove₂, hs₂⟩ := Rbtree.replaceChild_above (q := b.ptr)
    (hs₁.holdsAbove habove (by simpa using hbA)) ha₁ rfl (List.nodup_cons.mpr ⟨haA, hA⟩)
    (hnamed _ (by simp)).2
  -- `a` goes below `b`, and takes the inner subtree
  obtain ⟨t₃, h₃, ha₃, hb₃, hroot₃, hs₃⟩ := Rbtree.swapLinks_cells hab ((hs₂.mem _ haA).trans ha₁)
    ((hs₂.mem _ hbA).trans (Function.update_self ..))
  -- only the two nodes and the context have been written
  have hs : Rbtree.Stores (a.ptr :: b.ptr :: ptrs (above C)) t t₃ :=
    ((hs₁.mono (by simp)).trans (hs₂.mono (by simp))).trans (hs₃.mono (by simp))
  have haway : ∀ u : ColorTree (Entry δ), a.ptr ∉ ptrs u.toList → b.ptr ∉ ptrs u.toList →
      (ptrs u.toList).Disjoint (ptrs (above C)) →
      ∀ p ∈ a.ptr :: b.ptr :: ptrs (above C), p ∉ ptrs u.toList := by
    intro u hau hbu hu p hp hin
    rcases List.mem_cons.mp hp with rfl | hp
    · exact hau hin
    · rcases List.mem_cons.mp hp with rfl | hp
      · exact hbu hin
      · exact hu hin hp
  have hyNamed : ∀ p ∈ ptrs y.toList, p ≠ sentinel := by
    intro p hp
    refine (hnamed p ?_).2
    simp only [List.map_cons, List.map_append, List.mem_cons, List.mem_append]
    tauto
  -- the inner subtree gets its new parent
  obtain ⟨t₄, h₄, hy₄, hroot₄, hs₄⟩ :=
    Rbtree.adopt_holds (q := a.ptr) (hs.holds hy (haway y hay hby hyA)) hY hyNamed
  have hkeep : ∀ {p : Ptr}, p ∉ ptrs y.toList → t₄.mem p = t₃.mem p := fun hp => hs₄.mem _ hp
  -- the run, the context, the rotated tree, its sequence, and what was written
  refine ⟨t₄, ?_, h.of_stores ?_ ?_ ?_ ?_⟩
  · rw [Rbtree.rotate, Rbtree.child_of_mem ha, Rbtree.parent_of_mem ha]
    simp only [Option.bind_eq_bind, Option.bind_some, child_other_cell, parent_cell,
      Rbtree.child_of_mem hb, child_cell, h₁, h₂, h₃, h₄]
  · rw [addr_branch, hroot₄, hroot₃]
    have habove₃ := hs₃.holdsAbove habove₂ fun p hp => by
      rcases List.mem_pair.mp hp with rfl | rfl
      · exact haA
      · exact hbA
    exact hs₄.holdsAbove habove₃ fun p hp => hyA hp
  · rw [holds_branch, holds_branch, addr_branch, hkeep hby, hkeep hay]
    refine ⟨hb₃, ⟨ha₃, ?_, hy₄⟩, ?_⟩
    · exact hs₄.holds (hs.holds hx (haway x hax hbx hxA)) fun p hp hin => hxy hin hp
    · exact hs₄.holds (hs.holds hz (haway z haz hbz hzA)) fun p hp => hyz hp
  · rw [toList_rotate s c c' c' c]
  · have hsub : a.ptr :: b.ptr :: ptrs (above C)
        ⊆ ptrs (a :: b :: (x.toList ++ (y.toList ++ (z.toList ++ above C)))) := by
      intro p
      simp only [List.map_cons, List.map_append, List.mem_cons, List.mem_append]
      tauto
    have hsub' : ptrs y.toList
        ⊆ ptrs (a :: b :: (x.toList ++ (y.toList ++ (z.toList ++ above C)))) := by
      intro p
      simp only [List.map_cons, List.map_append, List.mem_cons, List.mem_append]
      tauto
    exact ((hs.mono hsub).trans (hs₄.mono hsub')).mono (hperm.map Entry.ptr).symm.subset

/-! ## Reading and painting -/

/-- What holds of the memory outside of every tree: nothing lives at `NULL`, and the sentinel is
black. -/
structure Ground (M : Ptr → Option (RbNode δ)) : Prop where
  null : M nullPtr = none
  sentinel : ∃ g, M sentinel = some g ∧ g.color = 1

section Linked

variable {M : Ptr → Option (RbNode δ)} {k : UInt32} {t : Rbtree δ} {up : Ptr}
  {C : List (Frame (Entry δ))} {s : Side} {c c' : Color} {x y z : ColorTree (Entry δ)}
  {e a b : Entry δ}

/-- Neither `NULL` nor the sentinel is a node. -/
theorem Linked.not_mem_named {T : ColorTree (Entry δ)} (h : Linked M k t up T) {p : Ptr}
    (hp : p = nullPtr ∨ p = sentinel) : p ∉ ptrs T.toList := by
  intro hin
  rcases hp with rfl | rfl
  · exact (h.named _ hin).1 rfl
  · exact (h.named _ hin).2 rfl

theorem Linked.mem_sentinel {T : ColorTree (Entry δ)} (h : Linked M k t up T) :
    t.mem sentinel = M sentinel :=
  h.outside _ (h.not_mem_named (Or.inr rfl))

theorem Linked.mem_branch (h : Linked M k t up (plug C (branch s c x e y))) :
    t.mem e.ptr = some (cell s e c (upLink up C) (addr x) (addr y)) :=
  (holds_branch.mp (linked_plug.mp h).holds).1

/-- The colour of a subtree's root, which may be missing. -/
theorem Linked.color (hM : Ground M) (h : Linked M k t up (plug C x)) :
    ∃ n, t.mem (addr x) = some n ∧ n.color = colorCode x.color := by
  cases x with
  | nil =>
    obtain ⟨g, hg, hblack⟩ := hM.sentinel
    exact ⟨g, h.mem_sentinel.trans hg, hblack⟩
  | node c l e r => exact ⟨_, h.mem_branch (s := .left), rfl⟩

theorem Linked.isRed (hM : Ground M) (h : Linked M k t up (plug C x)) :
    t.isRed (addr x) = some (x.color == .red) := by
  obtain ⟨n, hn, hcolor⟩ := h.color hM
  rw [Rbtree.isRed_of_mem hn, hcolor, colorCode_beq_zero]

theorem Linked.isBlack (hM : Ground M) (h : Linked M k t up (plug C x)) :
    t.isBlack (addr x) = some (x.color == .black) := by
  obtain ⟨n, hn, hcolor⟩ := h.color hM
  rw [Rbtree.isBlack_of_mem hn, hcolor, colorCode_beq_one]

/-- **A rotation** in memory is one of the tree. -/
theorem Linked.rotate (h : Linked M k t up (plug C (branch s c x a (branch s c' y b z)))) :
    ∃ t', Rbtree.rotate s t a.ptr = some t'
      ∧ Linked M k t' up (plug C (branch s c' (branch s c x a y) b z)) := by
  obtain ⟨t', hrun, h'⟩ := (linked_plug.mp h).rotate
  exact ⟨t', hrun, linked_plug.mpr h'⟩

/-- **A node is painted** in memory as in the tree. -/
theorem Linked.paint_branch (h : Linked M k t up (plug C (branch s c x e y))) (c' : Color) :
    ∃ t', t.paint e.ptr c' = some t' ∧ Linked M k t' up (plug C (branch s c' x e y)) := by
  have hf := linked_plug.mp h
  have hperm := (perm_branch_above s c x e y (above C)).map Entry.ptr
  have hnodup := hperm.nodup_iff.mp hf.apart
  simp only [List.map_cons, List.map_append, List.nodup_cons, List.mem_append, not_or] at hnodup
  obtain ⟨⟨hx, hy, hctx⟩, -⟩ := hnodup
  have hstores := Rbtree.stores_update t e.ptr (some (cell s e c' (upLink up C) (addr x) (addr y)))
  obtain ⟨hcell, hxm, hym⟩ := holds_branch.mp hf.holds
  refine ⟨_, Rbtree.set_of_mem hcell, linked_plug.mpr (hf.of_stores ?_ ?_ ?_ ?_)⟩
  · rw [addr_branch]
    refine hstores.holdsAbove (by simpa using hf.holdsAbove) fun p hp => ?_
    rwa [List.mem_singleton.mp hp]
  · refine holds_branch.mpr ⟨Function.update_self .., ?_, ?_⟩
    · refine hstores.holds hxm fun p hp => ?_
      rwa [List.mem_singleton.mp hp]
    · refine hstores.holds hym fun p hp => ?_
      rwa [List.mem_singleton.mp hp]
  · exact (perm_branch_above ..).trans (perm_branch_above ..).symm
  · exact hstores.mono fun p hp =>
      hperm.mem_iff.mpr (by rw [List.mem_singleton.mp hp]; exact List.mem_cons_self)

/-- Painting black what may be missing. -/
theorem Linked.blacken (hM : Ground M) (h : Linked M k t up (plug C x)) :
    ∃ t', t.paint (addr x) .black = some t' ∧ Linked M k t' up (plug C (x.paint .black)) := by
  cases x with
  | nil =>
    obtain ⟨g, hg, hblack⟩ := hM.sentinel
    have hmem : t.mem sentinel = some g := h.mem_sentinel.trans hg
    -- the sentinel is black already
    have hsame : ({ g with color := colorCode .black } : RbNode δ) = g := by
      rw [show colorCode .black = g.color from hblack.symm]
    refine ⟨t, ?_, h⟩
    rw [addr_nil, Rbtree.paint, Rbtree.set_of_mem hmem, hsame, ← hmem, Function.update_eq_self]
  | node c l e r => exact h.paint_branch (s := .left) .black

/-- A child is painted black, or the sentinel, which is black already. -/
theorem Linked.blacken_far (hM : Ground M) (h : Linked M k t up (plug C (branch s c x e y))) :
    ∃ t', t.paint (addr y) .black = some t'
      ∧ Linked M k t' up (plug C (branch s c x e (y.paint .black))) := by
  rw [← branch_other] at h ⊢
  exact Linked.blacken (C := ⟨s.other, c, e, x⟩ :: C) hM h

/-- The comparison with the left child finds the side of a node below its parent. -/
theorem side_of_cell {f : Side} {q : Ptr} (hne : addr x ≠ addr y) :
    (if addr x = (cell f e c q (addr x) (addr y)).child .left then Side.left else Side.right)
      = f := by
  cases f with
  | left => exact if_pos rfl
  | right => exact if_neg hne

/-- The children of a node are not the same node. -/
theorem Linked.children_ne (h : Linked M k t up (plug C (branch s c x e y)))
    (hx : x ≠ .nil) : addr x ≠ addr y := by
  have hf := linked_plug.mp h
  have hperm := (perm_branch_above s c x e y (above C)).map Entry.ptr
  have hmem : addr x ∈ ptrs x.toList := by
    cases x with
    | nil => exact absurd rfl hx
    | node => simp
  intro heq
  rcases addr_eq_or_mem y with hy | hy
  · refine (hf.named (addr x) (hperm.mem_iff.mpr ?_)).2 (heq.trans hy)
    simp only [List.map_cons, List.map_append, List.mem_cons, List.mem_append]
    exact Or.inr (Or.inl hmem)
  · have hnodup := (List.nodup_cons.mp (hperm.nodup_iff.mp hf.apart)).2
    rw [List.map_append, List.map_append] at hnodup
    exact (List.nodup_append'.mp hnodup).2.2 hmem (List.mem_append_left _ (heq ▸ hy))

end Linked

end Iceberg.Nginx
