import Iceberg.Nginx.RbtreeShape

/-!
# Deletion

A node with two children gives its place to the smallest node on its right, which has at most
one child. Where a black node has left, the tree below is one black node short; the fix-up loop
moves that place up until it can be filled.

The place may be empty. Then the loop finds its parent through the parent link of the sentinel,
which the deletion has set.
-/

namespace Iceberg.Nginx

open RedBlack RedBlack.ColorTree

variable {δ : Type} {M : Ptr → Option (RbNode δ)} {k : UInt32} {t : Rbtree δ} {up : Ptr}

/-- The parent link of an empty place is the one of the sentinel. -/
def LinkedUp (M : Ptr → Option (RbNode δ)) (q : Ptr) (x : ColorTree (Entry δ)) : Prop :=
  x = .nil → ∃ g, M sentinel = some g ∧ g.parent = q

section Round

variable {C : List (Frame (Entry δ))} {s : Side} {c d : Color} {x y z w : ColorTree (Entry δ)}
  {a b e : Entry δ}

/-- The parent of what is in the hole is the frame around it. -/
theorem Linked.parent (h : Linked M k t up (plug C x)) (hup : LinkedUp M (upLink up C) x) :
    t.parent (addr x) = some (upLink up C) := by
  cases x with
  | nil =>
    obtain ⟨g, hg, hparent⟩ := hup rfl
    rw [addr_nil, Rbtree.parent_of_mem (h.mem_sentinel.trans hg), hparent]
  | node c l e r => exact Rbtree.parent_of_mem (h.mem_branch (s := .left))

/-- The same tree, seen from the sibling. -/
theorem Linked.refocus (h : Linked M k t up (plug (⟨s, c, a, w⟩ :: C) x)) :
    Linked M k t up (plug (⟨s.other, c, a, x⟩ :: C) w) := by
  show Linked M k t up (plug C (branch s.other c w a x))
  rw [branch_other]
  exact h

theorem Linked.refocus' (h : Linked M k t up (plug (⟨s.other, c, a, x⟩ :: C) w)) :
    Linked M k t up (plug (⟨s, c, a, w⟩ :: C) x) := by
  have := h.refocus
  rwa [Side.other_other] at this

/-- What is below a frame is not the root. -/
theorem Linked.not_root {f : Frame (Entry δ)} (h : Linked M k t up (plug (f :: C) x)) :
    addr x ≠ t.root := by
  have hf := linked_plug.mp h
  have hroot := hf.holdsAbove.root_mem
  have hall : ∀ p ∈ ptrs (above (f :: C)), p ∈ ptrs (x.toList ++ above (f :: C)) := by
    intro p hp
    rw [ptrs_append]
    exact List.mem_append_right _ hp
  intro heq
  rcases addr_eq_or_mem x with hx | hx
  · exact (hf.named _ (hall _ hroot)).2 (heq.symm.trans hx)
  · have := hf.apart
    rw [ptrs_append] at this
    exact (List.nodup_append'.mp this).2.2 (heq ▸ hx) hroot

/-- The test of both children reads their colours. -/
theorem bothBlack_eq (hM : Ground M) (h : Linked M k t up (plug C (branch s c x e y))) :
    t.bothBlack e.ptr = some (x.color == .black && y.color == .black) := by
  have hcell := h.mem_branch
  have hx : t.isBlack (addr x) = some (x.color == .black) :=
    Linked.isBlack (C := ⟨s, c, e, y⟩ :: C) hM h
  have hy : t.isBlack (addr y) = some (y.color == .black) :=
    Linked.isBlack (C := ⟨s.other, c, e, x⟩ :: C) hM (Linked.refocus h)
  rw [Rbtree.bothBlack, Rbtree.child_of_mem hcell, Rbtree.child_of_mem hcell]
  cases s with
  | left =>
    show (t.isBlack (addr x)).bind _ = _
    rw [hx]
    show (if (x.color == .black) = true then t.isBlack (addr y) else some false) = _
    rw [hy]
    cases x.color <;> rfl
  | right =>
    show (t.isBlack (addr y)).bind _ = _
    rw [hy]
    show (if (y.color == .black) = true then t.isBlack (addr x) else some false) = _
    rw [hx, Bool.and_comm]
    cases y.color <;> rfl

/-- A red sibling: the parent is rotated down, and the near child of the sibling is the new
sibling. -/
theorem lowerParent_red (hup : LinkedUp M a.ptr x)
    (h : Linked M k t up (plug (⟨s, c, a, branch s .red y b z⟩ :: C) x)) :
    ∃ t', Rbtree.lowerParent s t (addr x) b.ptr = some (t', addr y)
      ∧ Linked M k t' up (plug (⟨s, .red, a, y⟩ :: ⟨s, .black, b, z⟩ :: C) x) := by
  have hred : t.isRed b.ptr = some true := Rbtree.isRed_of_mem h.refocus.mem_branch
  obtain ⟨t₁, h₁, hl₁⟩ := h.refocus.paint_branch .black
  have hp₁ : t₁.parent (addr x) = some a.ptr := hl₁.refocus'.parent hup
  obtain ⟨t₂, h₂, hl₂⟩ := Linked.paint_branch (C := C) hl₁.refocus' .red
  have hp₂ : t₂.parent (addr x) = some a.ptr :=
    Linked.parent (C := ⟨s, .red, a, _⟩ :: C) hl₂ hup
  obtain ⟨t₃, h₃, hl₃⟩ := hl₂.rotate
  have hl₃' : Linked M k t₃ up (plug (⟨s, .red, a, y⟩ :: ⟨s, .black, b, z⟩ :: C) x) := hl₃
  have hp₃ : t₃.parent (addr x) = some a.ptr := hl₃'.parent hup
  have hw : t₃.child s.other a.ptr = some (addr y) := by
    rw [Rbtree.child_of_mem (Linked.mem_branch (C := ⟨s, .black, b, z⟩ :: C) hl₃'),
      child_other_cell]
  refine ⟨t₃, ?_, hl₃'⟩
  rw [Rbtree.lowerParent, hred]
  simp only [Option.bind_eq_bind, Option.bind_some, if_true, h₁, hp₁, h₂, hp₂, h₃, hp₃, hw]
  rfl

/-- A black sibling stays where it is. -/
theorem lowerParent_black
    (h : Linked M k t up (plug (⟨s, c, a, branch s .black y b z⟩ :: C) x)) :
    Rbtree.lowerParent s t (addr x) b.ptr = some (t, b.ptr) := by
  rw [Rbtree.lowerParent, Rbtree.isRed_of_mem h.refocus.mem_branch]
  rfl

/-- Both children of the sibling are black: it turns red. -/
theorem repair_recolour (hM : Ground M) (hup : LinkedUp M a.ptr x)
    (h : Linked M k t up (plug (⟨s, c, a, branch s .black y b z⟩ :: C) x))
    (hy : y.color = .black) (hz : z.color = .black) :
    ∃ t', Rbtree.repair s t (addr x) b.ptr = some (t', a.ptr)
      ∧ Linked M k t' up (plug C (branch s c x a (branch s .red y b z))) := by
  obtain ⟨t₁, h₁, hl₁⟩ := h.refocus.paint_branch .red
  have hp₁ : t₁.parent (addr x) = some a.ptr := hl₁.refocus'.parent hup
  refine ⟨t₁, ?_, hl₁.refocus'⟩
  rw [Rbtree.repair, bothBlack_eq hM h.refocus, hy, hz]
  simp only [Option.bind_eq_bind, Option.bind_some, beq_self_eq_true, Bool.and_self, if_true, h₁,
    hp₁]
  rfl

/-- The near child of the sibling takes its place, when the far child is black. -/
theorem turnSibling_black (hM : Ground M) (hup : LinkedUp M a.ptr x)
    (h : Linked M k t up (plug (⟨s, c, a, branch s .black (branch s .red y e z) b w⟩ :: C) x))
    (hw : w.color = .black) :
    ∃ t', Rbtree.turnSibling s t (addr x) b.ptr = some (t', e.ptr)
      ∧ Linked M k t' up
        (plug (⟨s, c, a, branch s .black y e (branch s .red z b w)⟩ :: C) x) := by
  have hcell := h.refocus.mem_branch
  -- the far child is black, so the near one has to come up
  have hblack : t.isBlack (addr w) = some true := by
    have := Linked.isBlack (C := ⟨s.other, .black, b, branch s .red y e z⟩ ::
      ⟨s.other, c, a, x⟩ :: C) hM (Linked.refocus h.refocus)
    rw [this, hw]
    rfl
  -- two repaints and a rotation below the parent
  obtain ⟨t₁, h₁, hl₁⟩ := Linked.paint_branch
    (C := ⟨s, .black, b, w⟩ :: ⟨s.other, c, a, x⟩ :: C) h.refocus .black
  obtain ⟨t₂, h₂, hl₂⟩ := Linked.paint_branch (C := ⟨s.other, c, a, x⟩ :: C) hl₁ .red
  -- seen from the other side, the near child is the far one
  have hl₂' : Linked M k t₂ up (plug (⟨s.other, c, a, x⟩ :: C)
      (branch s.other .red w b (branch s.other .black z e y))) := by
    rwa [branch_other, branch_other]
  obtain ⟨t₃, h₃, hl₃⟩ := hl₂'.rotate
  rw [branch_other, branch_other] at hl₃
  -- the walk goes on from the parent, with its new child
  have hp₃ : t₃.parent (addr x) = some a.ptr := hl₃.refocus'.parent hup
  have hw₃ : t₃.child s.other a.ptr = some e.ptr := by
    rw [Rbtree.child_of_mem (Linked.mem_branch (C := C) hl₃.refocus'), child_other_cell,
      addr_branch]
  refine ⟨t₃, ?_, hl₃.refocus'⟩
  rw [Rbtree.turnSibling, Rbtree.child_of_mem hcell]
  simp only [Option.bind_eq_bind, Option.bind_some, child_other_cell, hblack, if_true,
    Rbtree.child_of_mem hcell, child_cell, addr_branch, h₁, h₂, h₃, hp₃, hw₃]
  rfl

/-- A sibling whose far child is red stays where it is. -/
theorem turnSibling_red (hM : Ground M)
    (h : Linked M k t up (plug (⟨s, c, a, branch s .black y b z⟩ :: C) x))
    (hz : z.color = .red) : Rbtree.turnSibling s t (addr x) b.ptr = some (t, b.ptr) := by
  have hblack : t.isBlack (addr z) = some false := by
    have := Linked.isBlack (C := ⟨s.other, .black, b, y⟩ :: ⟨s.other, c, a, x⟩ :: C) hM
      (Linked.refocus h.refocus)
    rw [this, hz]
    rfl
  rw [Rbtree.turnSibling, Rbtree.child_of_mem h.refocus.mem_branch]
  simp only [Option.bind_eq_bind, Option.bind_some, child_other_cell, hblack]
  rfl

/-- The last stores and the last rotation, with a red far child. -/
theorem repair_rotate (hM : Ground M) (hup : LinkedUp M a.ptr x) {w' : Ptr} {t₀ : Rbtree δ}
    (h : Linked M k t up (plug (⟨s, c, a, branch s .black y b z⟩ :: C) x))
    (hboth : t₀.bothBlack w' = some false)
    (hturn : Rbtree.turnSibling s t₀ (addr x) w' = some (t, b.ptr)) :
    ∃ t', Rbtree.repair s t₀ (addr x) w' = some (t', t'.root)
      ∧ Linked M k t' up (plug C
        (branch s c (branch s .black x a y) b (z.paint .black))) := by
  have hp : t.parent (addr x) = some a.ptr := h.parent hup
  have ha : t.mem a.ptr = _ := Linked.mem_branch (C := C) h
  obtain ⟨t₁, h₁, hl₁⟩ := h.refocus.paint_branch c
  obtain ⟨t₂, h₂, hl₂⟩ := Linked.paint_branch (C := C) hl₁.refocus' .black
  have hl₂' : Linked M k t₂ up (plug (⟨s, .black, a, branch s c y b z⟩ :: C) x) := hl₂
  have hw₂ : t₂.child s.other b.ptr = some (addr z) := by
    rw [Rbtree.child_of_mem hl₂'.refocus.mem_branch, child_other_cell]
  obtain ⟨t₃, h₃, hl₃⟩ := hl₂'.refocus.blacken_far hM
  obtain ⟨t₄, h₄, hl₄⟩ := Linked.rotate (C := C) hl₃.refocus'
  refine ⟨t₄, ?_, hl₄⟩
  rw [Rbtree.repair, hboth]
  simp only [Option.bind_eq_bind, Option.bind_some, hturn, hp, ha, Option.map_some, color_cell]
  rw [Rbtree.paint] at h₁
  simp only [Bool.false_eq_true, if_false, h₁, h₂, hw₂, h₃, h₄, Option.bind_some]
  rfl

/-- What a round comes to: the parent is one black node short now, or the tree is balanced. -/
theorem repair_linked {n : Nat} (hM : Ground M) (hup : LinkedUp M a.ptr x)
    (h : Linked M k t up (plug (⟨s, c, a, branch s .black y b z⟩ :: C) x))
    (hx : x.Balanced .black n)
    (hctx : Accepts (⟨s, c, a, branch s .black y b z⟩ :: C) .black (n + 1)) :
    (∃ t' m, Rbtree.repair s t (addr x) b.ptr = some (t', a.ptr)
        ∧ Linked M k t' up (plug C (branch s c x a (branch s .red y b z)))
        ∧ Short (branch s c x a (branch s .red y b z)) m ∧ Accepts C .black (m + 1))
      ∨ ∃ t' T', Rbtree.repair s t (addr x) b.ptr = some (t', t'.root) ∧ Linked M k t' up T'
        ∧ T'.toList = (plug (⟨s, c, a, branch s .black y b z⟩ :: C) x).toList
        ∧ ∃ m, T'.Balanced .black m := by
  -- three cases of `rbtree_delete_fixup`: the far nephew red, both black, only the near one red
  have hboth := bothBlack_eq hM h.refocus
  cases hz : z.color with
  | red =>
    obtain ⟨t', hrun, h'⟩ := repair_rotate hM hup h (by rw [hboth, hz]; cases y.color <;> rfl)
      (turnSibling_red hM h hz)
    refine Or.inr ⟨t', _, hrun, h', toList_plug_congr ?_, balanced_sibling_outer hx hz hctx⟩
    refine (toList_rotate s c c c .black x a y b (z.paint .black)).symm.trans ?_
    exact toList_branch_congr rfl (toList_branch_congr rfl (toList_paint ..))
  | black =>
    cases hy : y.color with
    | black =>
      -- the sibling takes a black off, and the shortage moves up to the parent
      obtain ⟨t', hrun, h'⟩ := repair_recolour hM hup h hy hz
      obtain ⟨m, hshort, haccepts⟩ := short_recolour hx hy hz hctx
      exact Or.inl ⟨t', m, hrun, h', hshort, haccepts⟩
    | red =>
      -- the near child comes between parent and sibling
      obtain ⟨y₁, e, y₂, rfl⟩ : ∃ y₁ e y₂, y = branch s .red y₁ e y₂ := by
        cases y with
        | nil => cases hy
        | node d l e r =>
          obtain rfl : d = .red := hy
          obtain ⟨y₁, y₂, hbranch⟩ := exists_branch s .red l e r
          exact ⟨y₁, e, y₂, hbranch⟩
      obtain ⟨t₁, hturn, h₁⟩ := turnSibling_black hM hup h hz
      obtain ⟨t', hrun, h'⟩ := repair_rotate hM hup h₁ (by rw [hboth, hy]; rfl) hturn
      have hctx' := accepts_sibling_inner hz hctx
      refine Or.inr ⟨t', _, hrun, h', toList_plug_congr ?_,
        balanced_sibling_outer hx (color_branch ..) hctx'⟩
      rw [paint_branch, ← toList_rotate s c c]
      refine toList_branch_congr rfl ?_
      exact toList_rotate s c .black .black .red y₁ e y₂ b z

/-- A red place is filled by painting it black. -/
theorem deleteFixup_red {f : Frame (Entry δ)} {n : Nat} (fuel : Nat) (hM : Ground M)
    (h : Linked M k t up (plug (f :: C) x)) (hred : x.color = .red) (hx : Short x n)
    (hctx : Accepts (f :: C) .black (n + 1)) :
    ∃ t' T', Rbtree.deleteFixup (fuel + 1) t (addr x) = some t' ∧ Linked M k t' up T'
      ∧ T'.toList = (plug (f :: C) x).toList ∧ ∃ m, T'.Balanced .black m := by
  obtain ⟨t', hrun, h'⟩ := h.blacken hM
  refine ⟨t', _, ?_, h', toList_plug_congr (toList_paint ..), hctx.plug (hx.paint_red hred)⟩
  rw [Rbtree.deleteFixup, if_neg h.not_root, h.isBlack hM, hred]
  exact hrun

/-- The root is painted black. -/
theorem deleteFixup_root {T : ColorTree (Entry δ)} {m : Nat} (fuel : Nat) (hM : Ground M)
    (h : Linked M k t up T) (hT : (T.paint .black).Balanced .black m) :
    ∃ t' T', Rbtree.deleteFixup (fuel + 1) t t.root = some t' ∧ Linked M k t' up T'
      ∧ T'.toList = T.toList ∧ ∃ m, T'.Balanced .black m := by
  obtain ⟨t', hrun, h'⟩ := Linked.blacken (C := []) hM h
  refine ⟨t', _, ?_, h', toList_paint .., m, hT⟩
  rw [Rbtree.deleteFixup, if_pos rfl, ← hrun]
  exact congrArg (t.paint · .black) h.root

/-- A round at a black place. -/
theorem deleteFixup_black {fuel : Nat} (hM : Ground M) (hup : LinkedUp M a.ptr x)
    (h : Linked M k t up (plug (⟨s, c, a, branch s d y b z⟩ :: C) x))
    (hx : x.color = .black) :
    Rbtree.deleteFixup (fuel + 1) t (addr x) = (do
      let (t, w) ← Rbtree.lowerParent s t (addr x) b.ptr
      let (t, low) ← Rbtree.repair s t (addr x) w
      Rbtree.deleteFixup fuel t low) := by
  have ha : t.mem a.ptr = _ := Linked.mem_branch (C := C) h
  have hne : addr x ≠ addr (branch s d y b z) := by
    have := Linked.children_ne (C := C) h.refocus (branch_ne_nil _ _ _ _ _)
    exact this.symm
  have hside := side_of_cell (e := a) (c := c) (q := upLink up C) (f := s) hne
  have hparent : t.parent (addr x) = some a.ptr := h.parent hup
  rw [addr_branch] at hside
  rw [Rbtree.deleteFixup, if_neg h.not_root, h.isBlack hM, hx]
  simp only [Option.bind_eq_bind, Option.bind_some, beq_self_eq_true, if_true, hparent,
    Rbtree.child_of_mem ha, hside, child_other_cell, addr_branch]

end Round

/-- **The fix-up loop** fills the place of the black node that has left, and leaves the order of
the nodes. -/
theorem deleteFixup_linked {C : List (Frame (Entry δ))} {x : ColorTree (Entry δ)} {n fuel : Nat}
    (hM : Ground M) (h : Linked M k t up (plug C x)) (hup : LinkedUp M (upLink up C) x)
    (hx : Short x n) (hctx : Accepts C .black (n + 1)) (hfuel : C.length < fuel) :
    ∃ t' T', Rbtree.deleteFixup fuel t (addr x) = some t' ∧ Linked M k t' up T'
      ∧ T'.toList = (plug C x).toList ∧ ∃ m, T'.Balanced .black m := by
  induction fuel generalizing C x t n with
  | zero => omega
  | succ fuel ih =>
    cases C with
    | nil =>
      obtain ⟨m, hm⟩ := hx.blacken
      -- at the root the shortage is harmless
      have hroot : t.root = addr x := h.root
      rw [← hroot]
      exact deleteFixup_root fuel hM h hm
    | cons f C =>
      cases hcolor : x.color with
      -- a red node is painted black, and the shortage is gone
      | red => exact deleteFixup_red fuel hM h hcolor hx hctx
      | black =>
        obtain ⟨s, c, a, w⟩ := f
        obtain ⟨fuel, rfl⟩ : ∃ f, fuel = f + 1 := by
          refine ⟨fuel - 1, ?_⟩
          simp only [List.length_cons] at hfuel
          omega
        obtain ⟨d, y, b, z, rfl, -⟩ := hctx.sibling s
        have hbalanced := hx.balanced hcolor
        rw [deleteFixup_black hM hup h hcolor]
        cases d with
        | black =>
          -- a black sibling: either the shortage moves up, or it is repaired here
          rw [lowerParent_black h]
          rcases repair_linked hM hup h hbalanced hctx with
            ⟨t₁, m, hrun, h₁, hshort, hrest⟩ | ⟨t₁, T₁, hrun, h₁, hsame, m, hm⟩
          · obtain ⟨t', T', hrun', hT', hlist, hbal⟩ :=
              ih (x := branch s c x a (branch s .red y b z))
              h₁ (fun hnil => absurd hnil (branch_ne_nil _ _ _ _ _)) hshort hrest
              (by simp only [List.length_cons] at hfuel; omega)
            refine ⟨t', T', ?_, hT', ?_, hbal⟩
            · simp only [Option.bind_eq_bind, Option.bind_some, hrun]
              rwa [addr_branch] at hrun'
            · exact hlist.trans (toList_plug_congr
                (toList_branch_congr rfl (toList_branch_congr rfl rfl)))
          · obtain ⟨t', T', hrun', hT', hlist, hbal⟩ :=
              deleteFixup_root fuel hM h₁ (hm.paint_black.symm ▸ hm)
            refine ⟨t', T', ?_, hT', hlist.trans hsame, hbal⟩
            simp only [Option.bind_eq_bind, Option.bind_some, hrun, hrun']
        | red =>
          -- a red sibling is rotated above the parent first, and the new one is black
          obtain ⟨t₀, hlower, h₀⟩ := lowerParent_red hup h
          obtain ⟨-, hctx₀⟩ := accepts_sibling_red hctx
          have hlist₀ : (plug (⟨s, .red, a, y⟩ :: ⟨s, .black, b, z⟩ :: C) x).toList
              = (plug (⟨s, c, a, branch s .red y b z⟩ :: C) x).toList :=
            toList_plug_congr (C := C) (toList_rotate ..).symm
          obtain ⟨d, y₁, e, y₂, rfl, hd⟩ := hctx₀.sibling s
          obtain rfl : d = .black := hd rfl
          rw [hlower, ← hlist₀]
          rcases repair_linked hM hup h₀ hbalanced hctx₀ with
            ⟨t₁, m, hrun, h₁, hshort, hrest⟩ | ⟨t₁, T₁, hrun, h₁, hsame, m, hm⟩
          · -- the parent is red now, and the next round paints it black
            obtain ⟨t', T', hrun', hT', hlist, hbal⟩ := deleteFixup_red fuel
              (x := branch s .red x a (branch s .red y₁ e y₂)) hM h₁ (color_branch ..) hshort hrest
            refine ⟨t', T', ?_, hT', ?_, hbal⟩
            · rw [addr_branch] at hrun' ⊢
              simp only [Option.bind_eq_bind, Option.bind_some, hrun, hrun']
            · exact hlist.trans (toList_plug_congr
                (toList_branch_congr rfl (toList_branch_congr rfl rfl)))
          · obtain ⟨t', T', hrun', hT', hlist, hbal⟩ :=
              deleteFixup_root fuel hM h₁ (hm.paint_black.symm ▸ hm)
            refine ⟨t', T', ?_, hT', hlist.trans hsame, hbal⟩
            rw [addr_branch]
            simp only [Option.bind_eq_bind, Option.bind_some, hrun, hrun']

/-! ## The node that leaves -/

/-- A tree with a hole inside of a subtree of a tree. -/
theorem holds_plug_append {m : Ptr → Option (RbNode δ)} {root : Ptr}
    {low C : List (Frame (Entry δ))} {x : ColorTree (Entry δ)} :
    (HoldsAbove m root up (addr x) (low ++ C) ∧ Holds m (upLink up (low ++ C)) x)
      ↔ HoldsAbove m root up (addr (plug low x)) C ∧ Holds m (upLink up C) (plug low x) := by
  induction low generalizing x with
  | nil => exact Iff.rfl
  | cons f low ih =>
    rw [plug_cons, ← ih, Frame.fill, addr_branch, holds_branch, List.cons_append]
    simp only [HoldsAbove, upLink_cons]
    tauto

/-- The first or the last node of a subtree. -/
theorem subtreeEnd_eq (s : Side) {x : ColorTree (Entry δ)} {q : Ptr} {fuel : Nat}
    (h : Holds t.mem q x) (hx : x ≠ .nil) (hnamed : ∀ p ∈ ptrs x.toList, p ≠ sentinel)
    (hfuel : x.depth ≤ fuel) :
    ∃ low c e y, x = plug low (branch s c .nil e y) ∧ (∀ f ∈ low, f.side = s)
      ∧ Rbtree.subtreeEnd s fuel t (addr x) = some e.ptr := by
  induction x generalizing q fuel with
  | nil => exact absurd rfl hx
  | node c l e r ihl ihr =>
    obtain ⟨fuel, rfl⟩ : ∃ f, fuel = f + 1 := ⟨fuel - 1, by simp only [depth] at hfuel; omega⟩
    obtain ⟨hne, hnl, hnr⟩ := forall_ptrs_node.mp hnamed
    obtain ⟨hcell, hl, hr⟩ := h
    simp only [depth] at hfuel
    -- the child that the walk goes to
    have hstep : ∀ {z y : ColorTree (Entry δ)}, node c l e r = branch s c z e y →
        Holds t.mem e.ptr z → (∀ p ∈ ptrs z.toList, p ≠ sentinel) →
        t.child s e.ptr = some (addr z) →
        (z ≠ .nil → ∃ low c' e' y', z = plug low (branch s c' .nil e' y')
          ∧ (∀ f ∈ low, f.side = s) ∧ Rbtree.subtreeEnd s fuel t (addr z) = some e'.ptr) →
        ∃ low c' e' y', node c l e r = plug low (branch s c' .nil e' y')
          ∧ (∀ f ∈ low, f.side = s)
          ∧ Rbtree.subtreeEnd s (fuel + 1) t (addr (node c l e r)) = some e'.ptr := by
      intro z y hbranch hz hnz hchild ih
      rw [Rbtree.subtreeEnd, addr_node, if_neg hne, hchild]
      cases z with
      -- no child on this side: the walk ends here
      | nil => exact ⟨[], c, e, y, hbranch, fun _ hf => absurd hf List.not_mem_nil, rfl⟩
      | node c' l' e' r' =>
        -- the child has an end, and this node is one more frame above it
        obtain ⟨low, c'', e'', y', hplug, hsides, hrun⟩ := ih (node_ne_nil _ _ _ _)
        refine ⟨low ++ [⟨s, c, e, y⟩], c'', e'', y', ?_, ?_, ?_⟩
        · rw [plug_append, ← hplug, hbranch]
          rfl
        · intro f hf
          rcases List.mem_append.mp hf with hf | hf
          · exact hsides f hf
          · rw [List.mem_singleton.mp hf]
        · have hz' : e'.ptr ≠ sentinel := hnz _ (by simp)
          simp only [Option.bind_eq_bind, Option.bind_some, addr_node, ne_eq, hz',
            not_false_eq_true, if_true]
          exact hrun
    cases s with
    | left => exact hstep rfl hl hnl (Rbtree.child_of_mem hcell) fun hz => ihl hl hz hnl (by omega)
    | right => exact hstep rfl hr hnr (Rbtree.child_of_mem hcell) fun hz => ihr hr hz hnr (by omega)

/-- The sentinel is black, and it leads to `q` if it stands for the subtree `x`. -/
def SentinelAt (t : Rbtree δ) (q : Ptr) (x : ColorTree (Entry δ)) : Prop :=
  ∃ g, t.mem sentinel = some g ∧ g.color = 1 ∧ (x = .nil → g.parent = q)

/-- A parent link is set, maybe the one of the sentinel. -/
theorem setParent_holds {x : ColorTree (Entry δ)} {p q : Ptr} (hx : Holds t.mem p x)
    (hapart : (ptrs x.toList).Nodup) (hnamed : ∀ p ∈ ptrs x.toList, p ≠ sentinel)
    (hsentinel : ∃ g, t.mem sentinel = some g ∧ g.color = 1) :
    ∃ t', t.setParent (addr x) q = some t' ∧ Holds t'.mem q x ∧ SentinelAt t' q x
      ∧ t'.root = t.root ∧ Rbtree.Stores (sentinel :: ptrs x.toList) t t' := by
  obtain ⟨g, hg, hblack⟩ := hsentinel
  cases x with
  | nil =>
    let t' : Rbtree δ := { t with
      mem := Function.update t.mem sentinel (some { g with parent := q }) }
    have hmem : t'.mem sentinel = some { g with parent := q } := by
      simp only [t', Function.update_self]
    exact ⟨t', Rbtree.set_of_mem hg, trivial, ⟨_, hmem, hblack, fun _ => rfl⟩, rfl,
      (Rbtree.stores_update _ _ _).mono (by simp)⟩
  | node c l e r =>
    have hne : addr (node c l e r) ≠ sentinel := hnamed _ (by simp)
    obtain ⟨t', hrun, hx', hroot, hstores⟩ := Rbtree.adopt_holds (q := q) hx hapart hnamed
    rw [Rbtree.adopt, if_pos hne] at hrun
    refine ⟨t', hrun, hx', ⟨g, ?_, hblack, nofun⟩, hroot, hstores.mono (by simp)⟩
    rw [hstores.mem _ fun hin => hnamed _ hin rfl, hg]

/-- The only subtree below a node takes its place; `q` is what its parent link gets. -/
theorem detach {f : Frame (Entry δ)} {C : List (Frame (Entry δ))} {s : Side} {c : Color}
    {a : Entry δ} {x : ColorTree (Entry δ)} {q : Ptr} (hM : Ground M)
    (h : Linked M k t up (plug (f :: C) (branch s c .nil a x))) :
    ∃ t₁ t₂, t.setParent (addr x) q = some t₁ ∧ t₁.replaceBelow a.ptr (addr x) = some t₂
      ∧ HoldsAbove t₂.mem t₂.root up (addr x) (f :: C) ∧ Holds t₂.mem q x ∧ SentinelAt t₂ q x
      ∧ t₂.mem a.ptr = t.mem a.ptr
      ∧ Rbtree.Stores (sentinel :: f.label.ptr :: ptrs x.toList) t t₂ := by
  have hf := linked_plug.mp h
  have hperm := (perm_branch_above s c .nil a x (above (f :: C))).map Entry.ptr
  have hnodup := hperm.nodup_iff.mp hf.apart
  have hnamed : ∀ p ∈ ptrs (a :: (x.toList ++ above (f :: C))), p ≠ nullPtr ∧ p ≠ sentinel :=
    fun p hp => hf.named p (hperm.mem_iff.mpr hp)
  simp only [toList_nil, List.nil_append, List.map_cons, List.map_append, List.nodup_cons,
    List.nodup_append', List.mem_append, not_or] at hnodup
  -- what no two duplicates means: the node, its child and the frames are apart
  obtain ⟨⟨hax, hactx⟩, hx, hctx, hxctx⟩ := hnodup
  obtain ⟨hcell, -, hbelow⟩ := holds_branch.mp hf.holds
  have hxn : ∀ p ∈ ptrs x.toList, p ≠ sentinel := fun p hp =>
    (hnamed p (List.mem_cons_of_mem _ (mem_ptrs_append_left _ hp))).2
  have hcn : ∀ p ∈ ptrs (above (f :: C)), p ≠ sentinel := fun p hp =>
    (hnamed p (List.mem_cons_of_mem _ (mem_ptrs_append_right _ hp))).2
  obtain ⟨g, hg, hblack⟩ := hM.sentinel
  -- the child gets its new parent, then the place of the node
  obtain ⟨t₁, h₁, hx₁, ⟨g₁, hg₁, hblack₁, hlink₁⟩, hroot₁, hs₁⟩ :=
    setParent_holds (q := q) hbelow hx hxn ⟨g, h.mem_sentinel.trans hg, hblack⟩
  have hfar : ∀ p ∈ sentinel :: ptrs x.toList, p ∉ ptrs (above (f :: C)) := by
    intro p hp
    rcases List.mem_cons.mp hp with rfl | hp
    · exact fun hin => hcn _ hin rfl
    · exact hxctx hp
  have ha₁ : t₁.mem a.ptr = some _ := (hs₁.mem _ (by
    simp only [List.mem_cons, not_or]
    exact ⟨(hnamed _ List.mem_cons_self).2, hax⟩)).trans hcell
  -- the frames do not see the first store
  have habove₁ : HoldsAbove t₁.mem t₁.root up a.ptr (f :: C) := by
    rw [hroot₁]
    exact hs₁.holdsAbove (by simpa using hf.holdsAbove) hfar
  obtain ⟨t₂, h₂, habove₂, hroot₂, hs₂⟩ := Rbtree.replaceBelow_above (q := addr x) habove₁ ha₁ rfl
    (List.nodup_cons.mpr ⟨hactx, hctx⟩) (hnamed _ List.mem_cons_self).2
  have hlabel : f.label.ptr ∈ ptrs (above (f :: C)) := by simp
  refine ⟨t₁, t₂, h₁, h₂, habove₂, ?_, ⟨g₁, ?_, hblack₁, hlink₁⟩, ?_, ?_⟩
  · refine hs₂.holds hx₁ fun p hp => ?_
    rw [List.mem_singleton.mp hp]
    exact fun hin => hxctx hin hlabel
  · rw [hs₂.mem _ fun hin => hcn _ hlabel (List.mem_singleton.mp hin).symm, hg₁]
  · rw [hs₂.mem a.ptr fun hin => hactx ((List.mem_singleton.mp hin).symm ▸ hlabel), ha₁, hcell]
  · exact (hs₁.mono (by intro p; simp; tauto)).trans (hs₂.mono (by simp))

/-- What a deletion leaves outside of the tree: the node, which is still there, and the
sentinel with another parent link. -/
structure Removed (M M' : Ptr → Option (RbNode δ)) (e : Entry δ) : Prop where
  ground : Ground M'
  other : ∀ p, p ≠ sentinel → p ≠ e.ptr → M' p = M p
  live : (M' e.ptr).isSome

/-- The memory outside, with this sentinel and this node. -/
def leftover (M : Ptr → Option (RbNode δ)) (g n : RbNode δ) (e : Entry δ) :
    Ptr → Option (RbNode δ) :=
  Function.update (Function.update M sentinel (some g)) e.ptr (some n)

/-- The node that was removed is cleared, and nothing else outside of the tree is touched. -/
theorem removed_leftover {g n : RbNode δ} {e : Entry δ} (hM : Ground M) (hg : g.color = 1)
    (he : e.ptr ≠ nullPtr ∧ e.ptr ≠ sentinel) : Removed M (leftover M g n e) e := by
  refine ⟨⟨?_, g, ?_, hg⟩, fun p hp hpe => ?_, ?_⟩
  · rw [leftover, Function.update_of_ne he.1.symm, Function.update_of_ne (by decide), hM.null]
  · rw [leftover, Function.update_of_ne he.2.symm, Function.update_self]
  · rw [leftover, Function.update_of_ne hpe, Function.update_of_ne hp]
  · rw [leftover, Function.update_self]
    rfl

/-- After the stores of a deletion: the tree without the node. -/
theorem linked_leftover {C C' : List (Frame (Entry δ))} {x x' y : ColorTree (Entry δ)} {q : Ptr}
    {t' : Rbtree δ} {e : Entry δ} {n : RbNode δ} (hM : Ground M) (h : Focused M k t up C x)
    (he : t'.mem e.ptr = some n)
    (habove : HoldsAbove t'.mem t'.root up (addr x') C') (hholds : Holds t'.mem (upLink up C') x')
    (hsentinel : SentinelAt t' q y)
    (hperm : (e :: (x'.toList ++ above C')).Perm (x.toList ++ above C))
    (hstores : Rbtree.Stores (sentinel :: ptrs (x.toList ++ above C)) t t') :
    ∃ M', Linked M' k t' up (plug C' x') ∧ LinkedUp M' q y ∧ Removed M M' e := by
  obtain ⟨g, hg, hblack, hlink⟩ := hsentinel
  have hptrs := hperm.map Entry.ptr
  obtain ⟨hnot, hnodup⟩ := List.nodup_cons.mp (hptrs.nodup_iff.mpr h.apart)
  have hnamed : ∀ p ∈ ptrs (e :: (x'.toList ++ above C')), p ≠ nullPtr ∧ p ≠ sentinel :=
    fun p hp => h.named p (hptrs.mem_iff.mp hp)
  have hene := hnamed _ List.mem_cons_self
  -- outside the tree only the freed node and the sentinel have changed
  refine ⟨leftover M g n e, linked_plug.mpr ⟨habove, hholds, hnodup,
    fun p hp => hnamed p (List.mem_cons_of_mem _ hp), fun p hp => ?_, hstores.size.trans h.size⟩,
    fun hnil => ⟨g, ?_, hlink hnil⟩, removed_leftover hM hblack hene⟩
  · -- the freed cell, the sentinel, and every other cell
    by_cases hpe : p = e.ptr
    · rw [hpe, he, leftover, Function.update_self]
    · rw [leftover, Function.update_of_ne hpe]
      by_cases hps : p = sentinel
      · rw [hps, hg, Function.update_self]
      · have hout : p ∉ ptrs (x.toList ++ above C) := by
          intro hin
          rcases List.mem_cons.mp (hptrs.mem_iff.mpr hin) with heq | hin
          · exact hpe heq
          · exact hp hin
        have hkept := hstores.mem p (by
          simp only [List.mem_cons, not_or]
          exact ⟨hps, hout⟩)
        rw [Function.update_of_ne hps, hkept]
        exact h.outside p hout
  · rw [leftover, Function.update_of_ne hene.2.symm, Function.update_self]

/-- A store outside of the tree. -/
theorem Linked.store {T : ColorTree (Entry δ)} {p : Ptr} {n : RbNode δ} (h : Linked M k t up T)
    (hp : p ∉ ptrs T.toList) (hn : M p = some n) (f : RbNode δ → RbNode δ) :
    ∃ t', t.set p f = some t' ∧ Linked (Function.update M p (some (f n))) k t' up T := by
  have hs := Rbtree.stores_update t p (some (f n))
  refine ⟨_, Rbtree.set_of_mem ((h.outside p hp).trans hn), h.root, ?_, h.apart, h.named,
    fun q hq => ?_, h.size⟩
  · exact hs.holds h.holds fun q hq => by rwa [List.mem_singleton.mp hq]
  · show Function.update t.mem p (some (f n)) q = _
    by_cases hqp : q = p
    · rw [hqp, Function.update_self, Function.update_self]
    · rw [Function.update_of_ne hqp, Function.update_of_ne hqp, h.outside q hq]

/-- At the end the links of the node are cleared. -/
theorem Linked.clear {M' : Ptr → Option (RbNode δ)} {T x : ColorTree (Entry δ)} {e : Entry δ}
    {q : Ptr}
    (h : Linked M' k t up T) (hremoved : Removed M M' e) (hup : LinkedUp M' q x)
    (he : e.ptr ∉ ptrs T.toList) (hne : e.ptr ≠ nullPtr ∧ e.ptr ≠ sentinel) :
    ∃ t' M'', t.clearNode e.ptr = some t' ∧ Linked M'' k t' up T ∧ LinkedUp M'' q x
      ∧ Removed M M'' e := by
  obtain ⟨n, hn⟩ := Option.isSome_iff_exists.mp hremoved.live
  obtain ⟨t', hrun, h'⟩ := h.store he hn
    fun n => { n with left := nullPtr, right := nullPtr, parent := nullPtr }
  obtain ⟨g, hg, hblack⟩ := hremoved.ground.sentinel
  have hkeep : ∀ n, Function.update M' e.ptr (some n) sentinel = some g := fun n => by
    rw [Function.update_of_ne hne.2.symm, hg]
  refine ⟨t', _, hrun, h', fun hnil => ?_, ⟨?_, g, hkeep _, hblack⟩, fun p hp hpe => ?_, ?_⟩
  · obtain ⟨g', hg', hlink⟩ := hup hnil
    obtain rfl : g = g' := Option.some.inj (hg.symm.trans hg')
    exact ⟨g, hkeep _, hlink⟩
  · rw [Function.update_of_ne hne.1.symm, hremoved.ground.null]
  · rw [Function.update_of_ne hpe, hremoved.other p hp hpe]
  · rw [Function.update_self]
    rfl

/-- A node with at most one child leaves its place below another one. -/
theorem delete_single {f : Frame (Entry δ)} {C : List (Frame (Entry δ))} {s : Side} {c : Color}
    {e : Entry δ} {x : ColorTree (Entry δ)} {fuel : Nat} (hM : Ground M)
    (h : Linked M k t up (plug (f :: C) (branch s c .nil e x)))
    (hleaving : Rbtree.leaving fuel ({ t with size := t.size - 1 } : Rbtree δ) e.ptr
      = some (e.ptr, addr x)) :
    ∃ t' M', t.delete fuel e.ptr
        = (if c = .black then Rbtree.deleteFixup fuel t' (addr x) else some t')
      ∧ Linked M' (k - 1) t' up (plug (f :: C) x) ∧ LinkedUp M' f.label.ptr x
      ∧ Removed M M' e := by
  have h₀ : Linked M (k - 1) { t with size := t.size - 1 } up
      (plug (f :: C) (branch s c .nil e x)) :=
    ⟨h.root, h.holds, h.apart, h.named, h.outside, congrArg (· - 1) h.size⟩
  have hf := linked_plug.mp h₀
  have hcell := h₀.mem_branch
  have hroot := h₀.not_root
  rw [addr_branch] at hroot
  -- the node leaves its place to its child
  obtain ⟨t₁, t₂, h₁, h₂, habove, hx, hsentinel, he₂, hs⟩ := detach (q := f.label.ptr) hM h₀
  have hperm := perm_branch_above s c .nil e x (above (f :: C))
  -- every cell that was written belongs to the old tree
  have hlabel : f.label.ptr ∈ ptrs ((branch s c .nil e x).toList ++ above (f :: C)) :=
    mem_ptrs_append_right _ (by simp)
  have hxs : ∀ p ∈ ptrs x.toList, p ∈ ptrs ((branch s c .nil e x).toList ++ above (f :: C)) :=
    fun p hp => (hperm.map Entry.ptr).mem_iff.mpr
      (List.mem_cons_of_mem _ (mem_ptrs_append_right _ (mem_ptrs_append_left _ hp)))
  have he : e.ptr ∈ ptrs ((branch s c .nil e x).toList ++ above (f :: C)) :=
    (hperm.map Entry.ptr).mem_iff.mpr List.mem_cons_self
  have hnodup := List.nodup_cons.mp ((hperm.map Entry.ptr).nodup_iff.mp hf.apart)
  obtain ⟨M₁, h₃, hup, hremoved⟩ := @linked_leftover δ M (k - 1) _ up _ (f :: C) _ x x
    f.label.ptr t₂ e _ hM hf (he₂.trans hcell) habove hx hsentinel hperm.symm (hs.mono (by
      intro p hp
      rcases List.mem_cons.mp hp with rfl | hp
      · exact List.mem_cons_self
      · rcases List.mem_cons.mp hp with rfl | hp
        · exact List.mem_cons_of_mem _ hlabel
        · exact List.mem_cons_of_mem _ (hxs p hp)))
  -- the node is not in the tree any more, and is cleared and freed
  have hnot : e.ptr ∉ ptrs (plug (f :: C) x).toList := fun hin =>
    hnodup.1 (((perm_toList_plug (f :: C) x).map Entry.ptr).mem_iff.mp hin)
  obtain ⟨t₃, M₂, h₄, hlinked, hup', hremoved'⟩ := h₃.clear hremoved hup hnot (hf.named _ he)
  refine ⟨t₃, M₂, ?_, hlinked, hup', hremoved'⟩
  have hblack := Rbtree.isBlack_of_mem hcell
  have hparent := Rbtree.parent_of_mem hcell
  rw [Rbtree.delete, if_neg (not_or.mpr (hf.named _ he))]
  simp only [Option.bind_eq_bind, hleaving, Option.bind_some, if_neg hroot, hblack, hparent,
    parent_cell, upLink_cons, color_cell, colorCode_beq_one]
  -- the node was its own replacement
  have hsame : (if f.label.ptr = e.ptr then e.ptr else f.label.ptr) = f.label.ptr := by
    split
    · next heq => exact heq.symm
    · rfl
  simp only [hsame, h₁, h₂, h₄, Option.bind_some, ne_eq, not_true_eq_false, if_false, beq_iff_eq]
  rfl

/-- Stores into the node that has left. -/
theorem removed_update {e : Entry δ} (hM : Ground M) (he : e.ptr ≠ nullPtr ∧ e.ptr ≠ sentinel)
    (n : RbNode δ) : Removed M (Function.update M e.ptr (some n)) e := by
  obtain ⟨g, hg, hblack⟩ := hM.sentinel
  refine ⟨⟨?_, g, ?_, hblack⟩, fun p _ hp => Function.update_of_ne hp .., ?_⟩
  · rw [Function.update_of_ne he.1.symm, hM.null]
  · rw [Function.update_of_ne he.2.symm, hg]
  · rw [Function.update_self]
    rfl

/-- A node with at most one child leaves the root. The parent link of the new root still leads
to the node that has left. -/
theorem delete_root {s : Side} {c : Color} {e : Entry δ} {x : ColorTree (Entry δ)} {fuel : Nat}
    (hM : Ground M) (h : Linked M k t up (branch s c .nil e x))
    (hleaving : Rbtree.leaving fuel ({ t with size := t.size - 1 } : Rbtree δ) e.ptr
      = some (e.ptr, addr x)) :
    ∃ t' M', t.delete fuel e.ptr = some t' ∧ Linked M' (k - 1) t' e.ptr (x.paint .black)
      ∧ Removed M M' e := by
  have hperm := (perm_branch s c .nil e x).map Entry.ptr
  have hnodup := List.nodup_cons.mp (hperm.nodup_iff.mp h.apart)
  have hnamed : ∀ p ∈ ptrs (e :: x.toList), p ≠ nullPtr ∧ p ≠ sentinel :=
    fun p hp => h.named p (hperm.mem_iff.mpr hp)
  have hene := hnamed _ List.mem_cons_self
  obtain ⟨n, hcell⟩ : ∃ n, t.mem e.ptr = some n := ⟨_, Linked.mem_branch (C := []) h⟩
  have hroot : e.ptr = t.root := by rw [h.root, addr_branch]
  -- without the node, the rest is a tree below a link to it
  let t₁ : Rbtree δ := { t with size := t.size - 1, root := addr x }
  have h₁ : Linked (Function.update M e.ptr (some n)) (k - 1) t₁ e.ptr x := by
    refine ⟨rfl, (holds_branch.mp h.holds).2.2, hnodup.2,
      fun p hp => hnamed p (List.mem_cons_of_mem _ hp), fun p hp => ?_, congrArg (· - 1) h.size⟩
    by_cases hpe : p = e.ptr
    · rw [hpe, Function.update_self]
      exact hcell
    · rw [Function.update_of_ne hpe]
      refine h.outside p fun hin => ?_
      rcases List.mem_cons.mp (hperm.mem_iff.mp hin) with heq | hin
      · exact hpe heq
      · exact hp hin
  obtain ⟨t₂, hpaint, h₂⟩ := Linked.blacken (C := []) (removed_update hM hene n).ground h₁
  have hnot : e.ptr ∉ ptrs (x.paint .black).toList := by
    rw [toList_paint]
    exact hnodup.1
  obtain ⟨t₃, hclear, h₃⟩ := Linked.store h₂ hnot (Function.update_self ..)
    fun n => { n with left := nullPtr, right := nullPtr, parent := nullPtr }
  rw [Function.update_idem] at h₃
  refine ⟨t₃, _, ?_, h₃, removed_update hM hene _⟩
  rw [Rbtree.delete, if_neg (not_or.mpr hene)]
  simp only [Option.bind_eq_bind, hleaving, Option.bind_some]
  rw [if_pos hroot]
  show (t₁.paint (addr x) .black).bind (·.clearNode e.ptr) = _
  rw [hpaint]
  exact hclear

/-- `temp` gets the children and the colour of the node. -/
theorem takeChildren_holds {l r : ColorTree (Entry δ)} {e a : Entry δ} {c c' : Color}
    {u v p q near far : Ptr} (he : t.mem e.ptr = some (cell .left e c u (addr l) (addr r)))
    (hl : Holds t.mem p l) (hr : Holds t.mem q r)
    (ha : t.mem a.ptr = some (cell .left a c' v near far))
    (hapart : (ptrs (e :: a :: (l.toList ++ r.toList))).Nodup)
    (hnamed : ∀ p ∈ ptrs (l.toList ++ r.toList), p ≠ sentinel) :
    ∃ t', t.takeChildren e.ptr a.ptr = some t' ∧ Holds t'.mem v (node c l a r)
      ∧ t'.root = t.root ∧ Rbtree.Stores (ptrs (a :: (l.toList ++ r.toList))) t t' := by
  simp only [List.map_cons, List.map_append, List.nodup_cons, List.nodup_append', List.mem_append,
    List.mem_cons, not_or] at hapart
  obtain ⟨⟨hea, hel, her⟩, ⟨hal, har⟩, hlnodup, hrnodup, hlr⟩ := hapart
  -- both child links are copied, the right one first
  let t₁ : Rbtree δ := { t with
    mem := Function.update t.mem a.ptr (some (cell .left a c' v near (addr r))) }
  have h₁ : t.setChild .right a.ptr (addr r) = some t₁ := Rbtree.set_of_mem ha
  have hs₁ : Rbtree.Stores [a.ptr] t t₁ := Rbtree.stores_update _ _ _
  have ha₁ : t₁.mem a.ptr = some (cell .left a c' v near (addr r)) := Function.update_self ..
  have he₁ : t₁.mem e.ptr = some _ := (hs₁.mem _ (by simpa using hea)).trans he
  let t₂ : Rbtree δ := { t₁ with
    mem := Function.update t₁.mem a.ptr (some (cell .left a c' v (addr l) (addr r))) }
  have h₂ : t₁.setChild .left a.ptr (addr l) = some t₂ := Rbtree.set_of_mem ha₁
  have hs₂ : Rbtree.Stores [a.ptr] t t₂ := hs₁.trans (Rbtree.stores_update _ _ _)
  have ha₂ : t₂.mem a.ptr = some (cell .left a c' v (addr l) (addr r)) := Function.update_self ..
  -- then each child, if it is a node, gets its new parent
  obtain ⟨t₃, h₃, hl₃, hroot₃, hs₃⟩ := Rbtree.adopt_holds (q := a.ptr)
    (hs₂.holds hl fun p hp => by rwa [List.mem_singleton.mp hp]) hlnodup
    fun p hp => hnamed p (mem_ptrs_append_left _ hp)
  have ha₃ : t₃.mem a.ptr = some _ := (hs₃.mem _ hal).trans ha₂
  obtain ⟨t₄, h₄, hr₄, hroot₄, hs₄⟩ := Rbtree.adopt_holds (q := a.ptr)
    (hs₃.holds (hs₂.holds hr fun p hp => by rwa [List.mem_singleton.mp hp]) fun p hp => hlr hp)
    hrnodup fun p hp => hnamed p (mem_ptrs_append_right _ hp)
  have he₄ : t₄.mem e.ptr = some _ := (hs₄.mem _ her).trans
    ((hs₃.mem _ hel).trans ((hs₂.mem _ (by simpa using hea)).trans he))
  have ha₄ : t₄.mem a.ptr = some _ := (hs₄.mem _ har).trans ha₃
  -- and the colour is copied
  let t₅ : Rbtree δ := { t₄ with
    mem := Function.update t₄.mem a.ptr (some (cell .left a c v (addr l) (addr r))) }
  have h₅ : t₄.set a.ptr (fun n => { n with color := colorCode c }) = some t₅ :=
    Rbtree.set_of_mem ha₄
  have hs₅ : Rbtree.Stores [a.ptr] t₄ t₅ := Rbtree.stores_update _ _ _
  have hr₅ := hs₅.holds hr₄ fun p hp => by rwa [List.mem_singleton.mp hp]
  have hl₅ := hs₅.holds (hs₄.holds hl₃ fun p hp hin => hlr hin hp)
    fun p hp => by rwa [List.mem_singleton.mp hp]
  refine ⟨t₅, ?_, ⟨Function.update_self .., hl₅, hr₅⟩, hroot₄.trans hroot₃, ?_⟩
  · rw [Rbtree.takeChildren, Rbtree.child_of_mem he]
    show (t.setChild .right a.ptr (addr r)).bind _ = _
    rw [h₁, Option.bind_some, Rbtree.child_of_mem he₁]
    show (t₁.setChild .left a.ptr (addr l)).bind _ = _
    rw [h₂, Option.bind_some, Rbtree.child_of_mem ha₂]
    show (t₂.adopt (addr l) a.ptr).bind _ = _
    rw [h₃, Option.bind_some, Rbtree.child_of_mem ha₃]
    show (t₃.adopt (addr r) a.ptr).bind _ = _
    rw [h₄, Option.bind_some, he₄]
    exact h₅
  · have hsub : ptrs l.toList ⊆ ptrs (a :: (l.toList ++ r.toList)) :=
      fun p hp => List.mem_cons_of_mem _ (mem_ptrs_append_left _ hp)
    have hsub' : ptrs r.toList ⊆ ptrs (a :: (l.toList ++ r.toList)) :=
      fun p hp => List.mem_cons_of_mem _ (mem_ptrs_append_right _ hp)
    exact (((hs₂.mono (by simp)).trans (hs₃.mono hsub)).trans (hs₄.mono hsub')).trans
      (hs₅.mono (by simp))

/-- `temp` gets the place of the node. -/
theorem takePlace_holds {C : List (Frame (Entry δ))} {l r : ColorTree (Entry δ)} {e a : Entry δ}
    {c c' : Color} {p q v near far : Ptr} (habove : HoldsAbove t.mem t.root up e.ptr C)
    (he : t.mem e.ptr = some (cell .left e c (upLink up C) (addr l) (addr r)))
    (hl : Holds t.mem p l) (hr : Holds t.mem q r)
    (ha : t.mem a.ptr = some (cell .left a c' v near far))
    (hapart : (ptrs (e :: a :: (l.toList ++ r.toList) ++ above C)).Nodup)
    (hnamed : ∀ p ∈ ptrs (e :: a :: (l.toList ++ r.toList) ++ above C), p ≠ sentinel) :
    ∃ t', t.takePlace e.ptr a.ptr = some t' ∧ HoldsAbove t'.mem t'.root up a.ptr C
      ∧ Holds t'.mem (upLink up C) (node c l a r)
      ∧ Rbtree.Stores (ptrs (a :: (l.toList ++ r.toList) ++ above C)) t t' := by
  rw [ptrs_append] at hapart
  -- the two subtrees, the two nodes and the frames are apart
  obtain ⟨hlow, hctx, hlowctx⟩ := List.nodup_append'.mp hapart
  have hectx : e.ptr ∉ ptrs (above C) := hlowctx List.mem_cons_self
  have hactx : a.ptr ∉ ptrs (above C) := hlowctx (List.mem_cons_of_mem _ List.mem_cons_self)
  have hea : e.ptr ≠ a.ptr := fun h => (List.nodup_cons.mp hlow).1 (h ▸ List.mem_cons_self)
  have hsubtree : ∀ p ∈ ptrs (l.toList ++ r.toList), p ∉ ptrs (above C) := fun p hp =>
    hlowctx (List.mem_cons_of_mem _ (List.mem_cons_of_mem _ hp))
  have hanot : a.ptr ∉ ptrs (l.toList ++ r.toList) :=
    (List.nodup_cons.mp (List.nodup_cons.mp hlow).2).1
  -- the replacement takes the parent of the node that goes, then its place
  let t₁ : Rbtree δ := { t with
    mem := Function.update t.mem a.ptr (some (cell .left a c' (upLink up C) near far)) }
  have h₁ : t.setParent a.ptr (upLink up C) = some t₁ := Rbtree.set_of_mem ha
  have hs₁ : Rbtree.Stores [a.ptr] t t₁ := Rbtree.stores_update _ _ _
  have ha₁ : t₁.mem a.ptr = some (cell .left a c' (upLink up C) near far) :=
    Function.update_self ..
  have he₁ : t₁.mem e.ptr = some _ := (hs₁.mem _ (by simpa using hea)).trans he
  obtain ⟨t₂, h₂, habove₂, hs₂⟩ := Rbtree.replaceChild_above (q := a.ptr)
    (hs₁.holdsAbove habove fun p hp => by rwa [List.mem_singleton.mp hp]) he₁ rfl
    (List.nodup_cons.mpr ⟨hectx, hctx⟩) (hnamed _ (mem_ptrs_append_left _ List.mem_cons_self))
  have hs : Rbtree.Stores (a.ptr :: ptrs (above C)) t t₂ :=
    (hs₁.mono (by simp)).trans (hs₂.mono (by simp))
  -- neither subtree is among the cells written so far
  have haway : ∀ {x : ColorTree (Entry δ)}, (∀ p ∈ ptrs x.toList, p ∈ ptrs (l.toList ++ r.toList)) →
      ∀ p ∈ a.ptr :: ptrs (above C), p ∉ ptrs x.toList := by
    intro x hx p hp hin
    rcases List.mem_cons.mp hp with rfl | hp
    · exact hanot (hx _ hin)
    · exact hsubtree p (hx p hin) hp
  -- then the children
  obtain ⟨t₃, h₃, hnode, hroot₃, hs₃⟩ := takeChildren_holds ((hs₂.mem _ hectx).trans he₁)
    (hs.holds hl (haway fun p hp => mem_ptrs_append_left _ hp))
    (hs.holds hr (haway fun p hp => mem_ptrs_append_right _ hp))
    ((hs₂.mem _ hactx).trans ha₁) hlow
    fun p hp =>
      hnamed p (mem_ptrs_append_left _ (List.mem_cons_of_mem _ (List.mem_cons_of_mem _ hp)))
  refine ⟨t₃, ?_, ?_, hnode, ?_⟩
  · rw [Rbtree.takePlace, Rbtree.parent_of_mem he]
    simp only [Option.bind_eq_bind, Option.bind_some, parent_cell, h₁, h₂, h₃]
  · rw [hroot₃]
    refine hs₃.holdsAbove habove₂ fun p hp => ?_
    exact hlowctx (List.mem_cons_of_mem _ hp)
  · refine (hs.mono ?_).trans (hs₃.mono fun p hp => mem_ptrs_append_left _ hp)
    intro p hp
    rcases List.mem_cons.mp hp with rfl | hp
    · exact List.mem_cons_self
    · exact mem_ptrs_append_right _ hp

/-- Stores elsewhere leave the sentinel's parent. -/
theorem SentinelAt.of_stores {S : List Ptr} {t t' : Rbtree δ} {q : Ptr} {x : ColorTree (Entry δ)}
    (h : SentinelAt t q x) (hs : Rbtree.Stores S t t') (hS : sentinel ∉ S) :
    SentinelAt t' q x := by
  obtain ⟨g, hg, hrest⟩ := h
  exact ⟨g, (hs.mem _ hS).trans hg, hrest⟩

/-- The node above the place that `temp` has left, and its two subtrees. Only the parent link of
the right one may lead elsewhere already. -/
theorem holds_below_right {m : Ptr → Option (RbNode δ)} {root : Ptr}
    {low C : List (Frame (Entry δ))} {c : Color} {e a : Entry δ} {l x : ColorTree (Entry δ)}
    (habove : HoldsAbove m root up (addr x) (low ++ ⟨.right, c, e, l⟩ :: C))
    (hx : Holds m (upLink up (low ++ ⟨.right, c, a, l⟩ :: C)) x) :
    HoldsAbove m root up e.ptr C
      ∧ m e.ptr = some (cell .left e c (upLink up C) (addr l) (addr (plug low x)))
      ∧ Holds m e.ptr l ∧ ∃ q, Holds m q (plug low x) := by
  cases low with
  | nil => exact ⟨habove.2.2, habove.1, habove.2.1, _, hx⟩
  | cons f low =>
    obtain ⟨hright, hsubtree⟩ := holds_plug_append.mp (And.intro habove hx)
    exact ⟨hright.2.2, hright.1, hright.2.1, _, hsubtree⟩

/-- A node with two children: the smallest node on its right takes its place. -/
theorem delete_double {C low : List (Frame (Entry δ))} {c d : Color} {e a : Entry δ}
    {l x : ColorTree (Entry δ)} {fuel : Nat} (hM : Ground M)
    (h : Linked M k t up (plug C (node c l e (plug low (branch .left d .nil a x)))))
    (hleaving : Rbtree.leaving fuel ({ t with size := t.size - 1 } : Rbtree δ) e.ptr
      = some (a.ptr, addr x)) :
    ∃ t' M', t.delete fuel e.ptr
        = (if d = .black then Rbtree.deleteFixup fuel t' (addr x) else some t')
      ∧ Linked M' (k - 1) t' up (plug (low ++ ⟨.right, c, a, l⟩ :: C) x)
      ∧ LinkedUp M' (upLink up (low ++ ⟨.right, c, a, l⟩ :: C)) x ∧ Removed M M' e := by
  have h₀ : Linked M (k - 1) { t with size := t.size - 1 } up
      (plug C (node c l e (plug low (branch .left d .nil a x)))) :=
    ⟨h.root, h.holds, h.apart, h.named, h.outside, congrArg (· - 1) h.size⟩
  -- the sequence with the node and its successor in front
  have hf := linked_plug.mp h₀
  have hlow : ((plug low (branch .left d .nil a x)).toList).Perm (a :: (plug low x).toList) := by
    refine (perm_toList_plug ..).trans ?_
    exact ((perm_toList_plug low x).symm.cons a)
  have hperm : ((node c l e (plug low (branch .left d .nil a x))).toList ++ above C).Perm
      (e :: a :: (l.toList ++ (plug low x).toList) ++ above C) := by
    refine List.Perm.append_right _ ?_
    refine List.perm_middle.trans (List.Perm.cons e ?_)
    exact (hlow.append_left _).trans List.perm_middle
  have hnodup := (hperm.map Entry.ptr).nodup_iff.mp hf.apart
  have hnamed : ∀ p ∈ ptrs (e :: a :: (l.toList ++ (plug low x).toList) ++ above C),
      p ≠ nullPtr ∧ p ≠ sentinel := fun p hp => hf.named p ((hperm.map Entry.ptr).mem_iff.mpr hp)
  have hene : e.ptr ≠ nullPtr ∧ e.ptr ≠ sentinel := hnamed _ (by simp)
  -- `temp` and what surrounds it
  obtain ⟨f, rest, hframes⟩ : ∃ f rest, low ++ ⟨.right, c, e, l⟩ :: C = f :: rest := by
    cases low with
    | nil => exact ⟨_, _, rfl⟩
    | cons f low => exact ⟨_, _, rfl⟩
  have hfocus : Linked M (k - 1) { t with size := t.size - 1 } up
      (plug (f :: rest) (branch .left d .nil a x)) := by
    rw [← hframes, plug_append]
    exact h₀
  have hcell := hfocus.mem_branch
  have hroot := hfocus.not_root
  rw [addr_branch] at hroot
  -- the successor's parent is the node itself if the walk took no step
  have hup : (if f.label.ptr = e.ptr then a.ptr else f.label.ptr)
      = upLink up (low ++ ⟨.right, c, a, l⟩ :: C) := by
    cases low with
    | nil =>
      obtain ⟨rfl, -⟩ := List.cons.inj hframes
      exact if_pos rfl
    | cons g low =>
      obtain ⟨rfl, -⟩ := List.cons.inj hframes
      refine if_neg fun heq => ?_
      have hin : g.label.ptr ∈ ptrs (plug (g :: low) x).toList :=
        ((perm_toList_plug (g :: low) x).map Entry.ptr).mem_iff.mpr
          (mem_ptrs_append_right _ (by simp))
      refine (List.nodup_cons.mp hnodup).1 (heq ▸ ?_)
      exact List.mem_cons_of_mem _ (mem_ptrs_append_left _ (mem_ptrs_append_right _ hin))
  -- the successor leaves its place to its child
  obtain ⟨t₁, t₂, h₁, h₂, habove, hx, hsentinel, ha₂, hs⟩ :=
    detach (q := upLink up (low ++ ⟨.right, c, a, l⟩ :: C)) hM hfocus
  rw [← hframes] at habove
  obtain ⟨habove₂, he₂, hl₂, q, hr₂⟩ := holds_below_right habove hx
  have hne : e.ptr ≠ a.ptr := fun heq => (List.nodup_cons.mp hnodup).1 (heq ▸ by simp)
  -- and takes the place of the node
  obtain ⟨t₃, h₃, habove₃, hnode₃, hs₃⟩ := takePlace_holds habove₂ he₂ hl₂ hr₂
    (ha₂.trans hcell) hnodup fun p hp => (hnamed p hp).2
  -- the node is not in the tree any more, and neither is the sentinel
  have henot : e.ptr ∉ ptrs (a :: (l.toList ++ (plug low x).toList) ++ above C) :=
    (List.nodup_cons.mp hnodup).1
  have hsnot : sentinel ∉ ptrs (a :: (l.toList ++ (plug low x).toList) ++ above C) := fun hin =>
    (hnamed _ (List.mem_cons_of_mem _ hin)).2 rfl
  have hnew : ((node c l a (plug low x)).toList ++ above C).Perm
      (a :: (l.toList ++ (plug low x).toList) ++ above C) :=
    List.perm_middle.append_right _
  -- all cells that were written belong to the old tree
  have hsame : plug (f :: rest) (branch .left d .nil a x)
      = plug C (node c l e (plug low (branch .left d .nil a x))) := by
    rw [← hframes, plug_append]
    rfl
  have hin : ∀ b, b ∈ above (f :: rest) ∨ b ∈ x.toList →
      b.ptr ∈ ptrs ((node c l e (plug low (branch .left d .nil a x))).toList ++ above C) := by
    intro b hb
    refine List.mem_map_of_mem ((perm_toList_plug C _).mem_iff.mp ?_)
    rw [← hsame, mem_toList_plug, mem_toList_branch]
    tauto
  have hmem : ∀ p ∈ sentinel :: f.label.ptr :: ptrs x.toList, p ∈ sentinel ::
      ptrs ((node c l e (plug low (branch .left d .nil a x))).toList ++ above C) := by
    intro p hp
    rcases List.mem_cons.mp hp with rfl | hp
    · exact List.mem_cons_self
    · refine List.mem_cons_of_mem _ ?_
      rcases List.mem_cons.mp hp with rfl | hp
      · exact hin _ (Or.inl (by simp))
      · obtain ⟨b, hb, rfl⟩ := List.mem_map.mp hp
        exact hin b (Or.inr hb)
  -- so the new tree is linked, with the node left over outside of it
  obtain ⟨M₁, h₄, hupx, hremoved⟩ := @linked_leftover δ M (k - 1) _ up _ C _
    (node c l a (plug low x)) x _ t₃ e _ hM hf ((hs₃.mem _ henot).trans he₂) habove₃ hnode₃
    (hsentinel.of_stores hs₃ hsnot) ((hnew.cons e).trans hperm.symm)
    ((hs.mono hmem).trans (hs₃.mono fun p hp => List.mem_cons_of_mem _
      ((hperm.map Entry.ptr).mem_iff.mpr (List.mem_cons_of_mem _ hp))))
  have hnot : e.ptr ∉ ptrs (plug C (node c l a (plug low x))).toList := fun hin =>
    henot (((perm_toList_plug C _).trans hnew |>.map Entry.ptr).mem_iff.mp hin)
  obtain ⟨t₄, M₂, h₅, hlinked, hup', hremoved'⟩ := h₄.clear hremoved hupx hnot hene
  -- the run of `rbtree_delete` is these steps in order
  refine ⟨t₄, M₂, ?_, ?_, hup', hremoved'⟩
  · have hblack := Rbtree.isBlack_of_mem hcell
    have hparent := Rbtree.parent_of_mem hcell
    rw [Rbtree.delete, if_neg (not_or.mpr hene)]
    simp only [Option.bind_eq_bind, hleaving, Option.bind_some, if_neg hroot, hblack, hparent,
      parent_cell, upLink_cons, color_cell, colorCode_beq_one, hup, h₁, h₂, ne_eq, Ne.symm hne,
      not_false_eq_true, if_true, h₃, h₅, beq_iff_eq]
    rfl
  · rw [plug_append]
    exact hlinked

/-! ## The whole deletion -/

theorem Linked.shrink {T : ColorTree (Entry δ)} (h : Linked M k t up T) :
    Linked M (k - 1) { t with size := t.size - 1 } up T :=
  ⟨h.root, h.holds, h.apart, h.named, h.outside, congrArg (· - 1) h.size⟩

/-- A node with at most one child leaves its own place. -/
theorem leaving_narrow {C : List (Frame (Entry δ))} {s : Side} {c : Color} {e : Entry δ}
    {x : ColorTree (Entry δ)} (h : Linked M k t up (plug C (branch s c .nil e x))) (fuel : Nat) :
    Rbtree.leaving fuel t e.ptr = some (e.ptr, addr x) := by
  have hcell := h.mem_branch
  rw [Rbtree.leaving, hcell]
  cases s with
  | left => rfl
  | right =>
    show (if addr x = sentinel then some (e.ptr, sentinel) else some (e.ptr, addr x)) = _
    split
    · next hx => rw [hx]
    · rfl

/-- A node with two children gets the place of the first node on its right. -/
theorem leaving_double {C : List (Frame (Entry δ))} {c : Color} {e : Entry δ}
    {l r : ColorTree (Entry δ)} (fuel : Nat) (h : Linked M k t up (plug C (node c l e r)))
    (hl : l ≠ .nil) (hr : r ≠ .nil) (hfuel : r.depth ≤ fuel) :
    ∃ low d a x, r = plug low (branch .left d .nil a x) ∧ (∀ f ∈ low, f.side = .left)
      ∧ Rbtree.leaving fuel t e.ptr = some (a.ptr, addr x) := by
  have hf := linked_plug.mp h
  obtain ⟨hcell, hlm, hrm⟩ := hf.holds
  have hnamed := forall_ptrs_node.mp fun p hp => hf.named p (mem_ptrs_append_left _ hp)
  -- neither child is the sentinel
  have hne : ∀ {y : ColorTree (Entry δ)}, y ≠ .nil →
      (∀ p ∈ ptrs y.toList, p ≠ nullPtr ∧ p ≠ sentinel) →
      addr y ≠ sentinel := by
    intro y hy hn
    cases y with
    | nil => exact absurd rfl hy
    | node c l e r => exact (hn _ (by simp)).2
  -- the node that goes is the first of the right subtree
  obtain ⟨low, d, a, x, rfl, hsides, hmin⟩ :=
    subtreeEnd_eq .left hrm hr (fun p hp => (hnamed.2.2 p hp).2) hfuel
  have hfocus : Linked M k t up
      (plug (low ++ ⟨.right, c, e, l⟩ :: C) (branch .left d .nil a x)) := by
    rw [plug_append]
    exact h
  refine ⟨low, d, a, x, rfl, hsides, ?_⟩
  rw [Rbtree.leaving, hcell]
  show (if addr l = sentinel then _ else if addr (plug low _) = sentinel then _ else
    (Rbtree.subtreeMin fuel t (addr (plug low _))).bind _) = _
  rw [if_neg (hne hl hnamed.2.1), if_neg (hne hr hnamed.2.2), Rbtree.subtreeMin, hmin,
    Option.bind_some, hfocus.mem_branch]
  rfl

/-- A black node has left a place, or a red one. -/
theorem deleteFixup_leaving {C : List (Frame (Entry δ))} {s : Side} {c d : Color} {a : Entry δ}
    {x : ColorTree (Entry δ)} {n : Nat} (fuel : Nat) (hM : Ground M)
    (h : Linked M k t up (plug C x)) (hup : LinkedUp M (upLink up C) x)
    (hx : (branch s c .nil a x).Balanced d n)
    (hctx : Accepts C d n) (hfuel : C.length < fuel) :
    ∃ t' T', (if c = .black then Rbtree.deleteFixup fuel t (addr x) else some t) = some t'
      ∧ Linked M k t' up T' ∧ T'.toList = (plug C x).toList ∧ ∃ m, T'.Balanced .black m := by
  cases c with
  | red => exact ⟨t, plug C x, if_neg nofun, h, rfl, balanced_of_leaving hx hctx⟩
  | black =>
    obtain ⟨m, hshort, haccepts⟩ := short_of_leaving hx hctx
    rw [if_pos rfl]
    exact deleteFixup_linked hM h hup hshort haccepts hfuel

/-- The other nodes. -/
def Entry.outOf (e : Entry δ) (l : List (Entry δ)) : List (Entry δ) :=
  l.filter fun b => b.ptr ≠ e.ptr

/-- A node is taken out of the middle of the list. -/
theorem outOf_append {e : Entry δ} {l l' : List (Entry δ)} (h : (ptrs (l ++ e :: l')).Nodup) :
    e.outOf (l ++ e :: l') = l ++ l' := by
  rw [ptrs_append, ptrs_cons] at h
  have hnot := (List.nodup_cons.mp (List.nodup_middle.mp h)).1
  have hkeep : ∀ b ∈ l ++ l', decide (b.ptr ≠ e.ptr) = true := by
    intro b hb
    refine decide_eq_true fun heq => hnot ?_
    rw [← heq, ← ptrs_append]
    exact List.mem_map_of_mem hb
  rw [Entry.outOf, List.filter_append, List.filter_cons_of_neg (by simp), ← List.filter_append]
  exact List.filter_eq_self.mpr hkeep

/-- One node less. -/
theorem length_outOf {e : Entry δ} {l : List (Entry δ)} (h : (ptrs l).Nodup) (he : e ∈ l) :
    (e.outOf l).length + 1 = l.length := by
  obtain ⟨l₁, l₂, rfl⟩ := List.append_of_mem he
  rw [outOf_append h, List.length_append, List.length_append, List.length_cons]
  omega

/-- What takes the place of a node, with the entries below it, leaves the list without the
node. -/
theorem toList_plug_outOf {C : List (Frame (Entry δ))} {c : Color} {e : Entry δ}
    {l r x : ColorTree (Entry δ)} (h : (ptrs (plug C (node c l e r)).toList).Nodup)
    (hx : x.toList = l.toList ++ r.toList) :
    (plug C x).toList = e.outOf (plug C (node c l e r)).toList := by
  have hmiddle : (plug C (node c l e r)).toList
      = (before C ++ l.toList) ++ e :: (r.toList ++ after C) := by
    rw [toList_plug, toList_node]
    simp only [List.append_assoc, List.cons_append]
  rw [hmiddle] at h ⊢
  rw [outOf_append h, toList_plug, hx]
  simp only [List.append_assoc]

theorem Linked.relink_nil (h : Linked M k t up (.nil : ColorTree (Entry δ))) (up' : Ptr) :
    Linked M k t up' .nil :=
  ⟨h.root, trivial, h.apart, h.named, h.outside, h.size⟩

/-- The parent link of the root after a deletion: of a tree with two nodes, the one that stays
still has the link to the one that was above it. -/
def upAfter (up : Ptr) (T : ColorTree (Entry δ)) (e : Entry δ) : Ptr :=
  if addr T = e.ptr ∧ T.toList.length = 2 then e.ptr else up

/-- What a deletion comes to. -/
def Deleted (M : Ptr → Option (RbNode δ)) (k : UInt32) (up : Ptr) (T : ColorTree (Entry δ))
    (e : Entry δ) (t' : Rbtree δ) : Prop :=
  ∃ M' T', Linked M' (k - 1) t' (upAfter up T e) T' ∧ Removed M M' e
    ∧ T'.toList = e.outOf T.toList ∧ ∃ m, T'.Balanced .black m

/-- A node with at most one child. -/
theorem delete_narrow {C : List (Frame (Entry δ))} {s : Side} {c : Color} {e : Entry δ}
    {x : ColorTree (Entry δ)} {m fuel : Nat} (hM : Ground M)
    (h : Linked M k t up (plug C (branch s c .nil e x)))
    (hT : (plug C (branch s c .nil e x)).Balanced .black m) (hfuel : C.length < fuel) :
    ∃ t', t.delete fuel e.ptr = some t'
      ∧ Deleted M k up (plug C (branch s c .nil e x)) e t' := by
  have hleaving := leaving_narrow h.shrink fuel
  -- the sequence is the old one without the node
  have hlist : (plug C x).toList = e.outOf (plug C (branch s c .nil e x)).toList := by
    cases s with
    | left => exact toList_plug_outOf h.apart rfl
    | right => exact toList_plug_outOf h.apart (List.append_nil _).symm
  obtain ⟨d, n, hx, hctx⟩ := accepts_of_plug hT
  cases C with
  | nil =>
    -- the node was the root, and its child becomes the root
    obtain ⟨t', M', hrun, h', hremoved⟩ := delete_root hM h hleaving
    have hle := hx.length_le_of_nil
    -- the child is at most one red node
    have hbalanced : ∃ m, (x.paint .black).Balanced .black m := by
      cases hctx
      cases c with
      | red => exact absurd (balanced_branch_red.mp hx).1 nofun
      | black =>
        obtain ⟨-, n, d, d', -, -, hx⟩ := balanced_branch_black.mp hx
        exact hx.blacken
    refine ⟨t', hrun, M', x.paint .black, ?_, hremoved, (toList_paint ..).trans hlist, hbalanced⟩
    have hlength : (plug [] (branch s c .nil e x)).toList.length = x.toList.length + 1 :=
      ((perm_branch s c .nil e x).length_eq).trans rfl
    rw [upAfter, hlength]
    cases x with
    | nil => exact h'.relink_nil _
    | node c' l a r =>
      have hone : (node c' l a r).toList.length = 1 := by
        simp only [toList_node, List.length_append, List.length_cons] at hle ⊢
        omega
      rw [if_pos ⟨addr_branch .., congrArg (· + 1) hone⟩]
      exact h'
  | cons f C =>
    -- below another node: its child takes its place, and the shortage is repaired
    obtain ⟨t₁, M', hrun, h₁, hup, hremoved⟩ := delete_single hM h hleaving
    obtain ⟨t', T', hfix, h', hlist', hbalanced⟩ :=
      deleteFixup_leaving fuel hremoved.ground h₁ hup hx hctx hfuel
    refine ⟨t', hrun.trans hfix, M', T', ?_, hremoved, hlist'.trans hlist, hbalanced⟩
    have hroot : addr (plug (f :: C) (branch s c .nil e x)) ≠ e.ptr := by
      rw [← h.root, ← addr_branch s c .nil e x]
      exact h.not_root.symm
    rw [upAfter, if_neg fun hroot' => hroot hroot'.1]
    exact h'

/-- **Deletion.** The other nodes stay in their order, the tree stays balanced, and the memory
outside changes at the sentinel and at the deleted node only. -/
theorem delete_linked {T : ColorTree (Entry δ)} {e : Entry δ} {m fuel : Nat} (hM : Ground M)
    (h : Linked M k t up T) (hT : T.Balanced .black m) (he : e ∈ T.toList)
    (hfuel : T.depth < fuel) :
    ∃ t', t.delete fuel e.ptr = some t' ∧ Deleted M k up T e t' := by
  obtain ⟨C, c, l, r, rfl⟩ := exists_plug_of_mem he
  have hdepth := length_le_depth_plug C (node c l e r)
  -- with at most one child the node itself leaves its place, with two its successor does
  by_cases hl : l = .nil
  · subst hl
    exact delete_narrow (s := .left) hM h hT (by omega)
  · by_cases hr : r = .nil
    · subst hr
      exact delete_narrow (s := .right) hM h hT (by omega)
    · simp only [depth] at hdepth
      obtain ⟨low, d, a, x, rfl, hsides, hleaving⟩ :=
        leaving_double fuel h.shrink hl hr (by omega)
      obtain ⟨t₁, M', hrun, h₁, hup, hremoved⟩ := delete_double hM h hleaving
      have hfocus : plug C (node c l e (plug low (branch .left d .nil a x)))
          = plug (low ++ ⟨.right, c, e, l⟩ :: C) (branch .left d .nil a x) := by
        rw [plug_append]
        rfl
      -- the loop of the repair starts at the depth of the successor
      have hlength := length_le_depth_plug (low ++ ⟨.right, c, e, l⟩ :: C)
        (branch .left d .nil a x)
      rw [← hfocus, List.length_append, List.length_cons] at hlength
      obtain ⟨d', n, hx, hctx⟩ := accepts_of_plug (hfocus ▸ hT)
      obtain ⟨t', T', hfix, h', hlist', hbalanced⟩ :=
        deleteFixup_leaving fuel hremoved.ground h₁ hup hx hctx.relabel
          (by rw [List.length_append, List.length_cons]; omega)
      -- the successor is the first of the right subtree, so the sequence only loses the node
      have hfirst : (plug low (branch .left d .nil a x)).toList = a :: (plug low x).toList := by
        rw [toList_plug, toList_plug, before_eq_nil hsides]
        rfl
      have hlist : (plug (low ++ ⟨.right, c, a, l⟩ :: C) x).toList
          = e.outOf (plug C (node c l e (plug low (branch .left d .nil a x)))).toList := by
        rw [plug_append]
        exact toList_plug_outOf (x := node c l a (plug low x)) h.apart (by rw [hfirst]; rfl)
      refine ⟨t', hrun.trans hfix, M', T', ?_, hremoved, hlist'.trans hlist, hbalanced⟩
      -- with two children there are three nodes
      have hthree :
          2 < (plug C (node c l e (plug low (branch .left d .nil a x)))).toList.length := by
        have hlpos : 0 < l.toList.length := by
          cases l with
          | nil => exact absurd rfl hl
          | node c l b r =>
            rw [toList_node, List.length_append, List.length_cons]
            omega
        rw [(perm_toList_plug ..).length_eq, List.length_append, toList_node, List.length_append,
          List.length_cons, hfirst, List.length_cons]
        omega
      rw [upAfter, if_neg fun htwo => by omega]
      exact h'

end Iceberg.Nginx
