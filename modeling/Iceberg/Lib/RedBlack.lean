import Mathlib.Data.List.Pairwise
import Mathlib.Data.List.Perm.Basic
import Mathlib.Data.Nat.Log
import Mathlib.Tactic.Ring

/-!
# Red-black trees with a focus

A program that balances a tree through parent links works at a node and moves up. The trees
here are taken apart the same way: a list of frames, innermost first, is a tree with a hole
(`plug`), and a subtree stands in the hole. The cases of the fix-up loops come in mirrored
pairs, so a node is built from the side of its near child (`branch`).

`Balanced t c n` is the invariant: the root of `t` has colour `c`, every path down passes `n`
black nodes, and no red node has a red child. `Accepts C c n` says that such a subtree may
stand in the hole of `C`. One lemma for each case of a fix-up loop says how the two advance.
-/

namespace RedBlack

inductive Color where
  | red
  | black
  deriving DecidableEq, Repr

inductive Side where
  | left
  | right
  deriving DecidableEq, Repr

def Side.other : Side → Side
  | .left => .right
  | .right => .left

@[simp] theorem Side.other_other (s : Side) : s.other.other = s := by cases s <;> rfl

@[simp] theorem Side.other_ne (s : Side) : s.other ≠ s := by cases s <;> decide

@[simp] theorem Side.ne_other (s : Side) : s ≠ s.other := by cases s <;> decide

/-- There are two sides only. -/
theorem Side.eq_other_of_ne {s s' : Side} (h : s ≠ s') : s = s'.other := by
  cases s <;> cases s' <;> first | rfl | exact absurd rfl h

inductive ColorTree (α : Type*) where
  | nil
  | node (color : Color) (l : ColorTree α) (a : α) (r : ColorTree α)

variable {α : Type*}

namespace ColorTree

/-- The labels from left to right. -/
def toList : ColorTree α → List α
  | nil => []
  | node _ l a r => l.toList ++ a :: r.toList

/-- The colour of the root; a missing node counts as black. -/
def color : ColorTree α → Color
  | nil => .black
  | node c _ _ _ => c

/-- The number of nodes on a longest path down. -/
def depth : ColorTree α → Nat
  | nil => 0
  | node _ l _ r => max l.depth r.depth + 1

/-- A node whose child on the side `s` is `near`. -/
def branch (s : Side) (c : Color) (near : ColorTree α) (a : α) (far : ColorTree α) : ColorTree α :=
  match s with
  | .left => node c near a far
  | .right => node c far a near

/-- The tree with another colour at the root. -/
def paint (c : Color) : ColorTree α → ColorTree α
  | nil => nil
  | node _ l a r => node c l a r

@[simp] theorem toList_nil : (nil : ColorTree α).toList = [] := rfl

@[simp] theorem toList_node (c : Color) (l : ColorTree α) (a : α) (r : ColorTree α) :
    (node c l a r).toList = l.toList ++ a :: r.toList := rfl

@[simp] theorem color_nil : (nil : ColorTree α).color = .black := rfl

@[simp] theorem color_node (c : Color) (l : ColorTree α) (a : α) (r : ColorTree α) :
    (node c l a r).color = c := rfl

@[simp] theorem color_branch (s : Side) (c : Color) (x : ColorTree α) (a : α) (y : ColorTree α) :
    (branch s c x a y).color = c := by cases s <;> rfl

@[simp] theorem paint_branch (s : Side) (c c' : Color) (x : ColorTree α) (a : α) (y : ColorTree α) :
    (branch s c x a y).paint c' = branch s c' x a y := by cases s <;> rfl

@[simp] theorem toList_paint (c : Color) (t : ColorTree α) : (t.paint c).toList = t.toList := by
  cases t <;> rfl

/-- Every node is a branch, seen from either side. -/
theorem exists_branch (s : Side) (c : Color) (l : ColorTree α) (a : α) (r : ColorTree α) :
    ∃ x y, node c l a r = branch s c x a y := by
  cases s with
  | left => exact ⟨l, r, rfl⟩
  | right => exact ⟨r, l, rfl⟩

/-- The mirror image of a branch. -/
theorem branch_other (s : Side) (c : Color) (x : ColorTree α) (a : α) (y : ColorTree α) :
    branch s.other c x a y = branch s c y a x := by cases s <;> rfl

/-- A branch, seen from a given side. -/
theorem branch_eq_branch (s s' : Side) (c : Color) (x : ColorTree α) (a : α) (y : ColorTree α) :
    ∃ x' y', branch s c x a y = branch s' c x' a y' := by
  cases s with
  | left => exact exists_branch s' c x a y
  | right => exact exists_branch s' c y a x

theorem node_ne_nil (c : Color) (l : ColorTree α) (a : α) (r : ColorTree α) :
    node c l a r ≠ nil := by
  intro h
  cases h

theorem branch_ne_nil (s : Side) (c : Color) (x : ColorTree α) (a : α) (y : ColorTree α) :
    branch s c x a y ≠ nil := by cases s <;> exact nofun

/-- What a branch holds does not depend on the side it is looked at from. -/
theorem mem_toList_branch {s : Side} {c : Color} {x : ColorTree α} {a : α} {y : ColorTree α}
    {b : α} : b ∈ (branch s c x a y).toList ↔ b = a ∨ b ∈ x.toList ∨ b ∈ y.toList := by
  cases s <;> simp only [branch, toList_node, List.mem_append, List.mem_cons] <;> tauto

/-- **A rotation** leaves the order of the labels as it is. -/
theorem toList_rotate (s : Side) (c c' d d' : Color) (x : ColorTree α) (a : α)
    (y : ColorTree α) (b : α) (z : ColorTree α) :
    (branch s c x a (branch s c' y b z)).toList
      = (branch s d (branch s d' x a y) b z).toList := by
  cases s <;> simp [branch]

/-- Subtrees with the same entries may be exchanged, and a branch recoloured. -/
theorem toList_branch_congr {s : Side} {c c' : Color} {x x' : ColorTree α} {a : α}
    {y y' : ColorTree α} (hx : x.toList = x'.toList) (hy : y.toList = y'.toList) :
    (branch s c x a y).toList = (branch s c' x' a y').toList := by
  cases s <;> simp [branch, hx, hy]

/-! ## Balance -/

/-- The root has the colour `c`, every path down passes `n` black nodes, and no red node has
a red child. -/
inductive Balanced : ColorTree α → Color → Nat → Prop
  | nil : Balanced nil .black 0
  | red {l r : ColorTree α} {a : α} {n : Nat} (hl : Balanced l .black n)
      (hr : Balanced r .black n) : Balanced (node .red l a r) .red n
  | black {l r : ColorTree α} {a : α} {c c' : Color} {n : Nat} (hl : Balanced l c n)
      (hr : Balanced r c' n) : Balanced (node .black l a r) .black (n + 1)

/-- The colour that a balanced tree is given is the one it has. -/
theorem Balanced.color_eq {t : ColorTree α} {c : Color} {n : Nat} (h : t.Balanced c n) :
    t.color = c := by
  cases h <;> rfl

/-- Below a red node there are black ones, and the black height stays. -/
theorem Balanced.branch_red {s : Side} {x y : ColorTree α} {a : α} {n : Nat}
    (hx : x.Balanced .black n) (hy : y.Balanced .black n) :
    (branch s .red x a y).Balanced .red n := by
  cases s with
  | left => exact .red hx hy
  | right => exact .red hy hx

/-- Below a black node there may be any, and the black height grows by one. -/
theorem Balanced.branch_black {s : Side} {x y : ColorTree α} {a : α} {c c' : Color} {n : Nat}
    (hx : x.Balanced c n) (hy : y.Balanced c' n) :
    (branch s .black x a y).Balanced .black (n + 1) := by
  cases s with
  | left => exact .black hx hy
  | right => exact .black hy hx

/-- A red branch is balanced exactly if both its subtrees are, and are black. -/
theorem balanced_branch_red {s : Side} {x y : ColorTree α} {a : α} {c : Color} {n : Nat} :
    (branch s .red x a y).Balanced c n
      ↔ c = .red ∧ x.Balanced .black n ∧ y.Balanced .black n := by
  constructor
  · intro h
    cases s with
    | left => cases h with | red hl hr => exact ⟨rfl, hl, hr⟩
    | right => cases h with | red hl hr => exact ⟨rfl, hr, hl⟩
  · rintro ⟨rfl, hx, hy⟩
    exact hx.branch_red hy

/-- A black branch is balanced exactly if its subtrees are, with the height below it. -/
theorem balanced_branch_black {s : Side} {x y : ColorTree α} {a : α} {c : Color} {n : Nat} :
    (branch s .black x a y).Balanced c n
      ↔ c = .black ∧ ∃ m d d', n = m + 1 ∧ x.Balanced d m ∧ y.Balanced d' m := by
  constructor
  · intro h
    cases s with
    | left => cases h with | black hl hr => exact ⟨rfl, _, _, _, rfl, hl, hr⟩
    | right => cases h with | black hl hr => exact ⟨rfl, _, _, _, rfl, hr, hl⟩
  · rintro ⟨rfl, m, d, d', rfl, hx, hy⟩
    exact hx.branch_black hy

/-- A red root may be painted black. -/
theorem Balanced.blacken {t : ColorTree α} {c : Color} {n : Nat} (h : t.Balanced c n) :
    ∃ m, (t.paint .black).Balanced .black m := by
  cases h with
  | nil => exact ⟨0, .nil⟩
  | red hl hr => exact ⟨_, .black hl hr⟩
  | black hl hr => exact ⟨_, .black hl hr⟩

/-- A balanced tree has many labels, -/
theorem Balanced.pow_le {t : ColorTree α} {c : Color} {n : Nat} (h : t.Balanced c n) :
    2 ^ n ≤ t.toList.length + 1 := by
  induction h with
  | nil => exact Nat.le_refl 1
  | red hl hr ihl ihr =>
    simp only [toList_node, List.length_append, List.length_cons]
    omega
  | black hl hr ihl ihr =>
    simp only [toList_node, List.length_append, List.length_cons, Nat.pow_succ]
    omega

/-- and short paths. -/
theorem Balanced.depth_le {t : ColorTree α} {c : Color} {n : Nat} (h : t.Balanced c n) :
    t.depth ≤ 2 * n + if c = .red then 1 else 0 := by
  induction h with
  | nil => exact Nat.le_refl 0
  | red hl hr ihl ihr =>
    simp only [depth, reduceCtorEq, if_false, if_true] at ihl ihr ⊢
    omega
  | @black l r a c c' n hl hr ihl ihr =>
    have hbit : ∀ d : Color, (if d = Color.red then 1 else 0) ≤ 1 := fun d => by split <;> omega
    have hc := hbit c
    have hc' := hbit c'
    simp only [depth, reduceCtorEq, if_false]
    omega

/-- **The logarithmic bound** on the paths of a tree with a black root. -/
theorem Balanced.depth_le_log {t : ColorTree α} {n : Nat} (h : t.Balanced .black n) :
    t.depth ≤ 2 * Nat.log 2 (t.toList.length + 1) := by
  have hdepth : t.depth ≤ 2 * n := by simpa using h.depth_le
  have hlog : n ≤ Nat.log 2 (t.toList.length + 1) := Nat.le_log_of_pow_le (by omega) h.pow_le
  omega

/-- A tree without black nodes has one node at most, since a red one has black children. -/
theorem Balanced.length_le_one {t : ColorTree α} {c : Color} (h : t.Balanced c 0) :
    t.toList.length ≤ 1 := by
  cases h with
  | nil => exact Nat.zero_le 1
  | red hl hr =>
    cases hl
    cases hr
    exact Nat.le_refl 1

/-- Next to a missing subtree there is at most one node. -/
theorem Balanced.length_le_of_nil {s : Side} {c d : Color} {a : α} {x : ColorTree α} {n : Nat}
    (h : (branch s c .nil a x).Balanced d n) : x.toList.length ≤ 1 := by
  cases c with
  | red =>
    obtain ⟨-, hnil, hx⟩ := balanced_branch_red.mp h
    cases hnil
    exact hx.length_le_one
  | black =>
    obtain ⟨-, m, e, e', -, hnil, hx⟩ := balanced_branch_black.mp h
    cases hnil
    exact hx.length_le_one

end ColorTree

open ColorTree

/-! ## Trees with a hole -/

/-- A node above the hole: on which side the hole is, and what is on the other side. -/
structure Frame (α : Type*) where
  side : Side
  color : Color
  label : α
  sibling : ColorTree α

/-- The frame with its hole filled. -/
def Frame.fill (f : Frame α) (t : ColorTree α) : ColorTree α :=
  branch f.side f.color t f.label f.sibling

/-- The whole tree. -/
def plug : List (Frame α) → ColorTree α → ColorTree α
  | [], t => t
  | f :: C, t => plug C (f.fill t)

/-- The labels around the hole. -/
def above (C : List (Frame α)) : List α := C.flatMap fun f => f.label :: f.sibling.toList

/-- The labels left of the hole. -/
def before : List (Frame α) → List α
  | [] => []
  | f :: C =>
    match f.side with
    | .left => before C
    | .right => before C ++ (f.sibling.toList ++ [f.label])

/-- The labels right of the hole. -/
def after : List (Frame α) → List α
  | [] => []
  | f :: C =>
    match f.side with
    | .left => f.label :: f.sibling.toList ++ after C
    | .right => after C

@[simp] theorem plug_nil (t : ColorTree α) : plug [] t = t := rfl

@[simp] theorem plug_cons (f : Frame α) (C : List (Frame α)) (t : ColorTree α) :
    plug (f :: C) t = plug C (f.fill t) := rfl

@[simp] theorem above_nil : above ([] : List (Frame α)) = [] := rfl

@[simp] theorem above_cons (f : Frame α) (C : List (Frame α)) :
    above (f :: C) = f.label :: f.sibling.toList ++ above C := rfl

/-- To plug two contexts is to plug the inner one first. -/
theorem plug_append (C C' : List (Frame α)) (t : ColorTree α) :
    plug (C ++ C') t = plug C' (plug C t) := by
  induction C generalizing t with
  | nil => rfl
  | cons f C ih => exact ih (f.fill t)

/-- The entries of the whole are those before the hole, those in it and those after it. -/
theorem toList_plug (C : List (Frame α)) (t : ColorTree α) :
    (plug C t).toList = before C ++ t.toList ++ after C := by
  induction C generalizing t with
  | nil => simp [before, after]
  | cons f C ih =>
    obtain ⟨side, c, a, sibling⟩ := f
    rw [plug_cons, ih]
    cases side <;> simp [Frame.fill, branch, before, after]

/-- The entries of the whole are, in some order, those in the hole and those of the context. -/
theorem perm_toList_plug (C : List (Frame α)) (t : ColorTree α) :
    (plug C t).toList.Perm (t.toList ++ above C) := by
  induction C generalizing t with
  | nil => simp
  | cons f C ih =>
    have hfill : (f.fill t).toList.Perm (t.toList ++ f.label :: f.sibling.toList) := by
      obtain ⟨side, c, a, sibling⟩ := f
      cases side with
      | left => exact List.Perm.refl _
      | right =>
        show (sibling.toList ++ a :: t.toList).Perm _
        exact List.perm_append_comm.trans (List.perm_middle.symm)
    refine (ih (f.fill t)).trans ((hfill.append_right _).trans ?_)
    simp

/-- An entry of the whole is one in the hole or one of the context. -/
theorem mem_toList_plug {C : List (Frame α)} {t : ColorTree α} {a : α} :
    a ∈ (plug C t).toList ↔ a ∈ t.toList ∨ a ∈ above C := by
  rw [(perm_toList_plug C t).mem_iff, List.mem_append]

/-- Every label is the root of a subtree. -/
theorem exists_plug_of_mem {t : ColorTree α} {a : α} (h : a ∈ t.toList) :
    ∃ C c l r, t = plug C (.node c l a r) := by
  induction t with
  | nil => cases h
  | node c l b r ihl ihr =>
    rcases List.mem_append.mp h with h | h
    · obtain ⟨C, c', l', r', hplug⟩ := ihl h
      refine ⟨C ++ [⟨.left, c, b, r⟩], c', l', r', ?_⟩
      rw [plug_append, ← hplug]
      rfl
    · rcases List.mem_cons.mp h with rfl | h
      · exact ⟨[], c, l, r, rfl⟩
      · obtain ⟨C, c', l', r', hplug⟩ := ihr h
        refine ⟨C ++ [⟨.right, c, b, l⟩], c', l', r', ?_⟩
        rw [plug_append, ← hplug]
        rfl

/-- Nothing stands before the hole at the end of the left spine. -/
theorem before_eq_nil {C : List (Frame α)} (h : ∀ f ∈ C, f.side = .left) :
    before C = [] := by
  induction C with
  | nil => rfl
  | cons f C ih =>
    simp only [before, h f List.mem_cons_self]
    exact ih fun g hg => h g (List.mem_cons_of_mem _ hg)

/-- Nothing stands after the hole at the end of the right spine. -/
theorem after_eq_nil {C : List (Frame α)} (h : ∀ f ∈ C, f.side = .right) : after C = [] := by
  induction C with
  | nil => rfl
  | cons f C ih =>
    simp only [after, h f List.mem_cons_self]
    exact ih fun g hg => h g (List.mem_cons_of_mem _ hg)

/-- What is in the hole may be exchanged for a tree with the same entries. -/
theorem toList_plug_congr {C : List (Frame α)} {t t' : ColorTree α} (h : t.toList = t'.toList) :
    (plug C t).toList = (plug C t').toList := by
  rw [toList_plug, toList_plug, h]

/-- A context is no longer than the whole tree is deep. -/
theorem length_le_depth_plug (C : List (Frame α)) (t : ColorTree α) :
    C.length + t.depth ≤ (plug C t).depth := by
  induction C generalizing t with
  | nil => simp
  | cons f C ih =>
    have hfill : t.depth + 1 ≤ (f.fill t).depth := by
      obtain ⟨side, c, a, sibling⟩ := f
      cases side <;> simp only [Frame.fill, branch, depth] <;> omega
    have := ih (f.fill t)
    rw [plug_cons, List.length_cons]
    omega

/-- The empty place that a walk down from a subtree ends at. -/
def seek (goLeft : α → Bool) : List (Frame α) → ColorTree α → List (Frame α)
  | C, .nil => C
  | C, .node c l a r =>
    if goLeft a then seek goLeft (⟨.left, c, a, r⟩ :: C) l
    else seek goLeft (⟨.right, c, a, l⟩ :: C) r

/-- A search takes the tree apart and loses nothing of it. -/
theorem plug_seek (goLeft : α → Bool) (C : List (Frame α)) (t : ColorTree α) :
    plug (seek goLeft C t) .nil = plug C t := by
  induction t generalizing C with
  | nil => rfl
  | node c l a r ihl ihr =>
    unfold seek
    split
    · exact ihl _
    · exact ihr _

/-- The last frame of a walk says where it went. -/
theorem seek_cons (goLeft : α → Bool) (C : List (Frame α)) {t : ColorTree α} (ht : t ≠ .nil) :
    ∃ f C', seek goLeft C t = f :: C'
      ∧ f.side = if goLeft f.label then Side.left else Side.right := by
  induction t generalizing C with
  | nil => exact absurd rfl ht
  | node c l a r ihl ihr =>
    unfold seek
    split
    · next hgo =>
      cases l with
      | nil => exact ⟨_, _, rfl, (if_pos hgo).symm⟩
      | node => exact ihl _ nofun
    · next hgo =>
      cases r with
      | nil => exact ⟨_, _, rfl, (if_neg hgo).symm⟩
      | node => exact ihr _ nofun

/-- **The place of a walk** in a tree whose labels ascend: it parts the labels into those that
send the walk to the right and those that send it to the left. -/
theorem before_after_seek {goLeft : α → Bool} {t : ColorTree α}
    (h : t.toList.Pairwise fun a b => goLeft a → goLeft b) (C : List (Frame α)) :
    before (seek goLeft C t) = before C ++ t.toList.filter (!goLeft ·)
      ∧ after (seek goLeft C t) = t.toList.filter goLeft ++ after C := by
  induction t generalizing C with
  | nil => simp [seek]
  | node c l a r ihl ihr =>
    obtain ⟨hl, har, hla⟩ := List.pairwise_append.mp h
    obtain ⟨hright, hr⟩ := List.pairwise_cons.mp har
    unfold seek
    split
    · next hgo =>
      -- everything on the right is to the right of the walk
      have hall : ∀ b ∈ r.toList, goLeft b = true := fun b hb => hright b hb hgo
      obtain ⟨hb, ha⟩ := ihl hl (⟨.left, c, a, r⟩ :: C)
      rw [hb, ha]
      simp only [before, after, toList_node, List.filter_append, List.filter_cons, hgo,
        List.filter_eq_self.mpr hall]
      have hnone : r.toList.filter (!goLeft ·) = [] :=
        List.filter_eq_nil_iff.mpr fun b hb => by simp [hall b hb]
      simp [hnone]
    · next hgo =>
      have hall : ∀ b ∈ l.toList, goLeft b = false := fun b hb => by
        have := hla b hb a List.mem_cons_self
        cases hb' : goLeft b
        · rfl
        · exact absurd (this hb') hgo
      obtain ⟨hb, ha⟩ := ihr hr (⟨.right, c, a, l⟩ :: C)
      rw [hb, ha]
      have hsome : l.toList.filter (!goLeft ·) = l.toList :=
        List.filter_eq_self.mpr fun b hb => by simp [hall b hb]
      have hnone : l.toList.filter goLeft = [] :=
        List.filter_eq_nil_iff.mpr fun b hb => by simp [hall b hb]
      simp [before, after, List.filter_append, hgo, hsome, hnone]

/-- A search passes no more nodes than the tree is deep. -/
theorem length_seek_le (goLeft : α → Bool) (C : List (Frame α)) (t : ColorTree α) :
    (seek goLeft C t).length ≤ C.length + t.depth := by
  induction t generalizing C with
  | nil => exact Nat.le_refl _
  | node c l a r ihl ihr =>
    unfold seek
    split
    · have := ihl (⟨.left, c, a, r⟩ :: C)
      simp only [List.length_cons, depth] at this ⊢
      omega
    · have := ihr (⟨.right, c, a, l⟩ :: C)
      simp only [List.length_cons, depth] at this ⊢
      omega

/-- A balanced subtree with this colour and height may stand in the hole, and then the root of
the whole tree is black. -/
inductive Accepts : List (Frame α) → Color → Nat → Prop
  | top {n : Nat} : Accepts [] .black n
  | red {f : Frame α} {C : List (Frame α)} {n : Nat} (hf : f.color = .red)
      (hsibling : f.sibling.Balanced .black n) (hctx : Accepts C .red n) :
      Accepts (f :: C) .black n
  | black {f : Frame α} {C : List (Frame α)} {c d : Color} {n : Nat} (hf : f.color = .black)
      (hsibling : f.sibling.Balanced d n) (hctx : Accepts C .black (n + 1)) :
      Accepts (f :: C) c n

/-- What the hole takes makes the whole balanced. Induction on the context. -/
theorem Accepts.plug {C : List (Frame α)} {c : Color} {n : Nat} {t : ColorTree α}
    (h : Accepts C c n) (ht : t.Balanced c n) : ∃ m, (plug C t).Balanced .black m := by
  induction h generalizing t with
  | top => exact ⟨_, ht⟩
  | @red f C n hf hsibling _ ih =>
    have hfill : (f.fill t).Balanced .red n := by
      rw [Frame.fill, hf]
      exact ht.branch_red hsibling
    exact ih hfill
  | @black f C c d n hf hsibling _ ih =>
    have hfill : (f.fill t).Balanced .black (n + 1) := by
      rw [Frame.fill, hf]
      exact ht.branch_black hsibling
    exact ih hfill

/-- Every subtree of a balanced tree is balanced, and its surroundings accept it. -/
theorem accepts_of_plug {C : List (Frame α)} {t : ColorTree α} {m : Nat}
    (h : (plug C t).Balanced .black m) : ∃ c n, t.Balanced c n ∧ Accepts C c n := by
  induction C generalizing t with
  | nil => exact ⟨_, _, h, .top⟩
  | cons f C ih =>
    obtain ⟨c, n, hfill, hctx⟩ := ih h
    obtain ⟨side, color, a, sibling⟩ := f
    cases color with
    | red =>
      obtain ⟨rfl, ht, hsibling⟩ := balanced_branch_red.mp hfill
      exact ⟨_, _, ht, .red rfl hsibling hctx⟩
    | black =>
      obtain ⟨rfl, k, d, d', rfl, ht, hsibling⟩ := balanced_branch_black.mp hfill
      exact ⟨_, _, ht, .black rfl hsibling hctx⟩

/-- Where a red subtree may stand, a black one may. -/
theorem Accepts.black_of_red {C : List (Frame α)} {n : Nat} (h : Accepts C .red n) :
    Accepts C .black n := by
  cases h with
  | black hf hsibling hctx => exact .black hf hsibling hctx

/-- A black tree is not changed when it is painted black. -/
theorem ColorTree.Balanced.paint_black {t : ColorTree α} {n : Nat} (h : t.Balanced .black n) :
    t.paint .black = t := by
  cases h with
  | nil => rfl
  | black hl hr => rfl

/-- A red subtree that is no leaf of the walk has black children of its own height. -/
theorem ColorTree.Balanced.paint_red {t : ColorTree α} {n : Nat} (h : t.Balanced .red n) :
    (t.paint .black).Balanced .black (n + 1) := by
  cases h with
  | red hl hr => exact .black hl hr

/-- Which labels the frames carry does not matter. -/
theorem Accepts.relabel {low C : List (Frame α)} {s : Side} {c d : Color} {a b : α}
    {w : ColorTree α} {n : Nat} (h : Accepts (low ++ ⟨s, c, a, w⟩ :: C) d n) :
    Accepts (low ++ ⟨s, c, b, w⟩ :: C) d n := by
  induction low generalizing d n with
  | nil =>
    cases h with
    | red hf hsibling hctx => exact .red hf hsibling hctx
    | black hf hsibling hctx => exact .black hf hsibling hctx
  | cons f low ih =>
    cases h with
    | red hf hsibling hctx => exact .red hf hsibling (ih hctx)
    | black hf hsibling hctx => exact .black hf hsibling (ih hctx)

/-! ## After an insertion

A red subtree `x` of height `n` stands where a black one of that height may stand. If its
parent `p` is red, there is a black grandparent `g`, and the sibling of `p` decides. -/

/-- Above a red node there is a black one. -/
theorem Accepts.of_red {p : Frame α} {C : List (Frame α)} {c : Color} {n : Nat}
    (h : Accepts (p :: C) c n) (hp : p.color = .red) :
    c = .black ∧ p.sibling.Balanced .black n ∧ ∃ g C', C = g :: C' ∧ g.color = .black
      ∧ (∃ d, g.sibling.Balanced d n) ∧ Accepts C' .black (n + 1) := by
  cases h with
  | black hblack _ _ => rw [hp] at hblack; cases hblack
  | red _ hsibling hctx =>
    cases hctx with
    | @black g C' _ d _ hg hgs hrest => exact ⟨rfl, hsibling, g, C', rfl, hg, ⟨d, hgs⟩, hrest⟩

/-- Below a black node a red subtree does no harm. -/
theorem Accepts.red_of_black {p : Frame α} {C : List (Frame α)} {c : Color} {n : Nat}
    (h : Accepts (p :: C) c n) (hp : p.color = .black) : Accepts (p :: C) .red n := by
  cases h with
  | black hblack hsibling hctx => exact .black hblack hsibling hctx
  | red hred _ _ => rw [hp] at hred; cases hred

/-- Parent and uncle are red: both turn black, and the grandparent takes the place of `x`. -/
theorem balanced_recolour {s s' : Side} {x y u : ColorTree α} {a b : α} {n : Nat}
    (hx : x.Balanced .red n) (hy : y.Balanced .black n) (hu : u.Balanced .red n) :
    (branch s .red (branch s' .black x a y) b (u.paint .black)).Balanced .red (n + 1) :=
  (hx.branch_black hy).branch_red hu.paint_red

/-! ## After a deletion

A subtree `x` stands where a black one of height `n + 1` belongs, and is one black node short.
If `x` is red, it is painted black. Otherwise its sibling has at least one node. -/

/-- A subtree that is one black node short of height `n + 1`. Below a red root, another red node
may be waiting for the root to turn black. -/
inductive Short (x : ColorTree α) (n : Nat) : Prop
  | black (h : x.Balanced .black n)
  | red (hred : x.color = .red) (h : (x.paint .black).Balanced .black (n + 1))

/-- A balanced tree counts as short by one after a black node above it is gone. -/
theorem short_of_balanced {x : ColorTree α} {c : Color} {n : Nat} (h : x.Balanced c n) :
    Short x n := by
  cases c with
  | black => exact .black h
  | red => exact .red h.color_eq h.paint_red

/-- A short tree with a black root is balanced. -/
theorem Short.balanced {x : ColorTree α} {n : Nat} (h : Short x n) (hx : x.color = .black) :
    x.Balanced .black n := by
  cases h with
  | black h => exact h
  | red hred _ => rw [hx] at hred; cases hred

/-- A short tree that is painted black is balanced, at some height. -/
theorem Short.blacken {x : ColorTree α} {n : Nat} (h : Short x n) :
    ∃ m, (x.paint .black).Balanced .black m := by
  cases h with
  | black h => exact h.blacken
  | red _ h => exact ⟨_, h⟩

/-- A short tree with a red root regains its height when the root is painted black. -/
theorem Short.paint_red {x : ColorTree α} {n : Nat} (h : Short x n) (hx : x.color = .red) :
    (x.paint .black).Balanced .black (n + 1) := by
  cases h with
  | black h => rw [h.color_eq] at hx; cases hx
  | red _ h => exact h

/-- A black node with one subtree leaves: the subtree is short at its place. -/
theorem short_of_leaving {s : Side} {a : α} {x : ColorTree α} {d : Color} {n : Nat}
    {C : List (Frame α)} (h : (branch s .black .nil a x).Balanced d n) (hctx : Accepts C d n) :
    ∃ m, Short x m ∧ Accepts C .black (m + 1) := by
  obtain ⟨rfl, m, e, e', rfl, -, hx⟩ := balanced_branch_black.mp h
  exact ⟨m, short_of_balanced hx, hctx⟩

/-- A red node with one subtree leaves: nothing is short. -/
theorem balanced_of_leaving {s : Side} {a : α} {x : ColorTree α} {d : Color} {n : Nat}
    {C : List (Frame α)} (h : (branch s .red .nil a x).Balanced d n) (hctx : Accepts C d n) :
    ∃ m, (plug C x).Balanced .black m := by
  obtain ⟨rfl, -, hx⟩ := balanced_branch_red.mp h
  exact hctx.black_of_red.plug hx

/-- The sibling of a subtree that is short is a node, black if the parent is red. -/
theorem Accepts.sibling {s : Side} {c : Color} {a : α} {w : ColorTree α} {n : Nat}
    {C : List (Frame α)} (h : Accepts (⟨s, c, a, w⟩ :: C) .black (n + 1)) (s' : Side) :
    ∃ d y b z, w = branch s' d y b z ∧ (c = .red → d = .black) := by
  have hw : ∃ d, w.Balanced d (n + 1) := by
    cases h with
    | red _ hsibling _ => exact ⟨_, hsibling⟩
    | black _ hsibling _ => exact ⟨_, hsibling⟩
  have hred : c = .red → w.color = .black := by
    rintro rfl
    cases h with
    | red _ hsibling _ => exact hsibling.color_eq
    | black hf _ _ => cases hf
  obtain ⟨d, hw⟩ := hw
  cases w with
  | nil => cases hw
  | node e l b r =>
    obtain ⟨y, z, hyz⟩ := exists_branch s' e l b r
    refine ⟨e, y, b, z, hyz, hred⟩

/-- A red sibling is rotated above the parent, which turns red; the new sibling is black. -/
theorem accepts_sibling_red {s : Side} {c : Color} {y z : ColorTree α} {a b : α} {n : Nat}
    {C : List (Frame α)}
    (h : Accepts (⟨s, c, a, branch s .red y b z⟩ :: C) .black (n + 1)) :
    y.Balanced .black (n + 1)
      ∧ Accepts (⟨s, .red, a, y⟩ :: ⟨s, .black, b, z⟩ :: C) .black (n + 1) := by
  cases h with
  | red hf hsibling hctx => exact absurd (balanced_branch_red.mp hsibling).1 (by decide)
  | black hf hsibling hctx =>
    obtain ⟨-, hy, hz⟩ := balanced_branch_red.mp hsibling
    exact ⟨hy, .red rfl hy (.black rfl hz hctx)⟩

/-- The children of a black sibling. -/
theorem Accepts.sibling_black {s s' : Side} {c : Color} {y z : ColorTree α} {a b : α} {n : Nat}
    {C : List (Frame α)}
    (h : Accepts (⟨s, c, a, branch s' .black y b z⟩ :: C) .black (n + 1)) :
    (∃ d, y.Balanced d n) ∧ (∃ d, z.Balanced d n)
      ∧ (c = .red → Accepts C .red (n + 1)) ∧ (c = .black → Accepts C .black (n + 2)) := by
  have hw : ∃ d, (branch s' .black y b z).Balanced d (n + 1) := by
    cases h with
    | red _ hsibling _ => exact ⟨_, hsibling⟩
    | black _ hsibling _ => exact ⟨_, hsibling⟩
  obtain ⟨d, hw⟩ := hw
  obtain ⟨-, m, e, e', hm, hy, hz⟩ := balanced_branch_black.mp hw
  obtain rfl : m = n := (Nat.succ.inj hm).symm
  refine ⟨⟨e, hy⟩, ⟨e', hz⟩, ?_, ?_⟩
  · rintro rfl
    cases h with
    | red _ _ hctx => exact hctx
    | black hf _ _ => cases hf
  · rintro rfl
    cases h with
    | red hf _ _ => cases hf
    | black _ _ hctx => exact hctx

/-- A black sibling with black children turns red, and what is short now is the parent. -/
theorem short_recolour {s : Side} {c : Color} {x y z : ColorTree α} {a b : α} {n : Nat}
    {C : List (Frame α)} (hx : x.Balanced .black n) (hy : y.color = .black)
    (hz : z.color = .black)
    (h : Accepts (⟨s, c, a, branch s .black y b z⟩ :: C) .black (n + 1)) :
    ∃ m, Short (branch s c x a (branch s .red y b z)) m ∧ Accepts C .black (m + 1) := by
  obtain ⟨⟨d, hyb⟩, ⟨d', hzb⟩, hred, hblack⟩ := h.sibling_black
  obtain rfl : d = .black := hyb.color_eq.symm.trans hy
  obtain rfl : d' = .black := hzb.color_eq.symm.trans hz
  have hw : (branch s .red y b z).Balanced .red n := hyb.branch_red hzb
  cases c with
  | red =>
    -- parent and sibling are both red until the parent turns black
    refine ⟨n, .red (color_branch ..) ?_, (hred rfl).black_of_red⟩
    rw [paint_branch]
    exact hx.branch_black hw
  | black => exact ⟨n + 1, .black (hx.branch_black hw), hblack rfl⟩

/-- The far child of the sibling is black and the near one is red: a rotation at the sibling
puts a red far child there. -/
theorem accepts_sibling_inner {s : Side} {c : Color} {y₁ y₂ z : ColorTree α} {a b e : α} {n : Nat}
    {C : List (Frame α)} (hz : z.color = .black)
    (h : Accepts (⟨s, c, a, branch s .black (branch s .red y₁ e y₂) b z⟩ :: C) .black (n + 1)) :
    Accepts (⟨s, c, a, branch s .black y₁ e (branch s .red y₂ b z)⟩ :: C) .black (n + 1) := by
  obtain ⟨⟨d, hy⟩, ⟨d', hzb⟩, hred, hblack⟩ := h.sibling_black
  obtain ⟨-, hy₁, hy₂⟩ := balanced_branch_red.mp hy
  obtain rfl : d' = .black := hzb.color_eq.symm.trans hz
  have hw : (branch s .black y₁ e (branch s .red y₂ b z)).Balanced .black (n + 1) :=
    hy₁.branch_black (hy₂.branch_red hzb)
  cases c with
  | red => exact .red rfl hw (hred rfl)
  | black => exact .black rfl hw (hblack rfl)

/-- The far child of the sibling is red: the rotation at the parent ends the repair. -/
theorem balanced_sibling_outer {s : Side} {c : Color} {x y z : ColorTree α} {a b : α} {n : Nat}
    {C : List (Frame α)} (hx : x.Balanced .black n) (hz : z.color = .red)
    (h : Accepts (⟨s, c, a, branch s .black y b z⟩ :: C) .black (n + 1)) :
    ∃ m, (plug C (branch s c (branch s .black x a y) b (z.paint .black))).Balanced .black m := by
  obtain ⟨⟨d, hy⟩, ⟨d', hzb⟩, hred, hblack⟩ := h.sibling_black
  obtain rfl : d' = .red := hzb.color_eq.symm.trans hz
  have hnear : (branch s .black x a y).Balanced .black (n + 1) := hx.branch_black hy
  cases c with
  | red => exact (hred rfl).plug (hnear.branch_red hzb.paint_red)
  | black => exact (hblack rfl).plug (hnear.branch_black hzb.paint_red)

end RedBlack
