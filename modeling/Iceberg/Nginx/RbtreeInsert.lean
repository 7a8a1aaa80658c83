import Iceberg.Nginx.RbtreeShape

/-!
# Insertion

The new node goes behind all nodes whose key is not greater, and the fix-up loop makes the tree
balanced again. A round of the loop ends it or moves it two nodes up, so its rounds are bounded
by the path to the root.

At the root the loop looks at the colour of what the root's parent link leads to. That is the
sentinel, as long as no deletion has left another link there. `climbs` tells which insertions
come so far.
-/

namespace Iceberg.Nginx

open RedBlack RedBlack.ColorTree

variable {δ : Type} {M : Ptr → Option (RbNode δ)} {k : UInt32} {t : Rbtree δ} {up : Ptr}

/-- What the root's parent link leads to lies outside of the tree and is not red. -/
structure TopBlack (M : Ptr → Option (RbNode δ)) (up : Ptr) (l : List (Entry δ)) : Prop where
  notMem : up ∉ ptrs l
  cell : ∃ g, M up = some g ∧ g.color ≠ 0

/-- From a red node in this hole, the loop recolours all the way up to the root. -/
def climbs : List (Frame (Entry δ)) → Bool
  | [] => true
  | [_] => false
  | p :: g :: C => p.color == .red && (g.sibling.color == .red && climbs C)

theorem climbs_cons_cons {p g : Frame (Entry δ)} {C : List (Frame (Entry δ))} :
    climbs (p :: g :: C) = true
      ↔ p.color = .red ∧ g.sibling.color = .red ∧ climbs C = true := by
  rw [climbs, Bool.and_eq_true, Bool.and_eq_true, beq_iff_eq, beq_iff_eq]

/-- A parent that is not red ends the loop. -/
theorem insertFixup_exit {T : ColorTree (Entry δ)} {m fuel : Nat} {node p : Ptr} (hM : Ground M)
    (h : Linked M k t up T) (hT : (T.paint .black).Balanced .black m)
    (hparent : t.parent node = some p) (hred : t.isRed p = some false) :
    ∃ t' T', Rbtree.insertFixup (fuel + 1) t node = some t' ∧ Linked M k t' up T'
      ∧ T'.toList = T.toList ∧ ∃ m, T'.Balanced .black m := by
  obtain ⟨t', hrun, h'⟩ := Linked.blacken (C := []) hM h
  refine ⟨t', T.paint .black, ?_, h', toList_paint .., m, hT⟩
  rw [Rbtree.insertFixup, hparent]
  simp only [Option.bind_eq_bind, Option.bind_some, hred]
  rw [← hrun]
  exact congrArg (t.paint · .black) h.root

/-- A black parent. -/
theorem insertFixup_parent_black {f : Frame (Entry δ)} {C : List (Frame (Entry δ))} {s : Side}
    {x y : ColorTree (Entry δ)} {e : Entry δ} {n : Nat} (fuel : Nat) (hM : Ground M)
    (h : Linked M k t up (plug (f :: C) (branch s .red x e y)))
    (hx : (branch s .red x e y).Balanced .red n) (hf : f.color = .black)
    (hctx : Accepts (f :: C) .black n) :
    ∃ t' T', Rbtree.insertFixup (fuel + 1) t e.ptr = some t' ∧ Linked M k t' up T'
      ∧ T'.toList = (plug (f :: C) (branch s .red x e y)).toList
      ∧ ∃ m, T'.Balanced .black m := by
  obtain ⟨m, hbalanced⟩ := (hctx.red_of_black hf).plug hx
  have hparent : t.parent e.ptr = some f.label.ptr := by
    rw [Rbtree.parent_of_mem h.mem_branch]
    rfl
  have hred : t.isRed f.label.ptr = some false := by
    have hcell := Linked.mem_branch (C := C) (s := f.side) (c := f.color) (e := f.label)
      (x := branch s .red x e y) (y := f.sibling) h
    rw [Rbtree.isRed_of_mem hcell, color_cell, hf]
    rfl
  exact insertFixup_exit hM h (hbalanced.paint_black.symm ▸ hbalanced) hparent hred

section Round

variable {C : List (Frame (Entry δ))} {s ps gs : Side} {x y z w u : ColorTree (Entry δ)}
  {e pa ga : Entry δ} {fuel : Nat}

/-- What a round reads before it decides: parent, grandparent, side and uncle of a node below a
red node. -/
theorem insertFixup_red (hM : Ground M)
    (h : Linked M k t up (plug C (branch gs .black (branch ps .red (branch s .red x e z) pa y)
      ga u))) :
    Rbtree.insertFixup (fuel + 1) t e.ptr
      = (if u.color = .red then do
          let t ← t.paint (addr u) .black
          let t ← t.paint pa.ptr .black
          let t ← t.paint ga.ptr .red
          Rbtree.insertFixup fuel t ga.ptr
        else do
          let (t, low) ← t.turnOut gs e.ptr pa.ptr
          let p ← t.parent low
          let t ← t.paint p .black
          let g ← t.parent p
          let t ← t.paint g .red
          let t ← Rbtree.rotate gs.other t g
          Rbtree.insertFixup fuel t low) := by
  have hg := h.mem_branch
  have hp := Linked.mem_branch (C := ⟨gs, .black, ga, u⟩ :: C) h
  have hx := Linked.mem_branch (C := ⟨ps, .red, pa, y⟩ :: ⟨gs, .black, ga, u⟩ :: C) h
  -- the side of the parent below the grandparent, as the code finds it
  have hside := side_of_cell (e := ga) (c := .black) (q := upLink up C) (f := gs)
    (h.children_ne (branch_ne_nil _ _ _ _ _))
  -- the colour of the uncle decides
  have hu : t.isRed (addr u) = some (u.color == .red) := by
    rw [← branch_other] at h
    exact Linked.isRed (C := ⟨gs.other, .black, ga, _⟩ :: C) hM h
  rw [addr_branch] at hside
  rw [Rbtree.insertFixup, Rbtree.parent_of_mem hx]
  simp only [Option.bind_eq_bind, Option.bind_some, parent_cell, upLink_cons,
    Rbtree.isRed_of_mem hp, color_cell, colorCode_beq_zero, Rbtree.parent_of_mem hp,
    Rbtree.child_of_mem hg, addr_branch, hside, child_other_cell, hu]
  cases u.color <;> rfl

/-- A red uncle: the round colours parent, uncle and grandparent. -/
theorem insertFixup_recolour (fuel : Nat) (hM : Ground M)
    (h : Linked M k t up (plug C (branch gs .black (branch ps .red (branch s .red x e z) pa y)
      ga u))) (hu : u.color = .red) :
    ∃ t', Rbtree.insertFixup (fuel + 1) t e.ptr = Rbtree.insertFixup fuel t' ga.ptr
      ∧ Linked M k t' up (plug C (branch gs .red (branch ps .black (branch s .red x e z) pa y)
        ga (u.paint .black))) := by
  obtain ⟨t₁, h₁, hl₁⟩ := h.blacken_far hM
  obtain ⟨t₂, h₂, hl₂⟩ := Linked.paint_branch (C := ⟨gs, .black, ga, u.paint .black⟩ :: C)
    hl₁ .black
  obtain ⟨t₃, h₃, hl₃⟩ := Linked.paint_branch (C := C) hl₂ .red
  refine ⟨t₃, ?_, hl₃⟩
  rw [insertFixup_red hM h, if_pos hu]
  simp only [Option.bind_eq_bind, h₁, h₂, h₃, Option.bind_some]

/-- The end of a round with a black uncle: parent and grandparent change colours and places. -/
theorem insertFixup_raise
    (h : Linked M k t up (plug C (branch gs .black (branch gs .red x pa y) ga u))) :
    ∃ t', (do
        let t ← t.paint pa.ptr .black
        let g ← t.parent pa.ptr
        let t ← t.paint g .red
        Rbtree.rotate gs.other t g) = some t'
      ∧ Linked M k t' up (plug C (branch gs .black x pa (branch gs .red y ga u))) := by
  obtain ⟨t₁, h₁, hl₁⟩ := Linked.paint_branch (C := ⟨gs, .black, ga, u⟩ :: C) h .black
  have hparent : t₁.parent pa.ptr = some ga.ptr :=
    Rbtree.parent_of_mem (Linked.mem_branch (C := ⟨gs, .black, ga, u⟩ :: C) hl₁)
  obtain ⟨t₂, h₂, hl₂⟩ := Linked.paint_branch (C := C) hl₁ .red
  -- seen from the other side, the parent is the far child
  have hl₂' : Linked M k t₂ up
      (plug C (branch gs.other .red u ga (branch gs.other .black y pa x))) := by
    rwa [branch_other, branch_other]
  obtain ⟨t₃, h₃, hl₃⟩ := hl₂'.rotate
  rw [branch_other, branch_other] at hl₃
  refine ⟨t₃, ?_, hl₃⟩
  simp only [Option.bind_eq_bind, h₁, hparent, h₂, h₃, Option.bind_some]

/-- A black uncle, and the node is on the outer side. -/
theorem insertFixup_outer (fuel : Nat) (hM : Ground M)
    (h : Linked M k t up (plug C (branch gs .black (branch gs .red (branch s .red x e z) pa y)
      ga u))) (hu : u.color = .black) :
    ∃ t', Rbtree.insertFixup (fuel + 1) t e.ptr = Rbtree.insertFixup fuel t' e.ptr
      ∧ Linked M k t' up (plug C (branch gs .black (branch s .red x e z) pa
        (branch gs .red y ga u))) := by
  have hp := Linked.mem_branch (C := ⟨gs, .black, ga, u⟩ :: C) h
  have hne := Linked.children_ne (C := ⟨gs, .black, ga, u⟩ :: C) h (branch_ne_nil _ _ _ _ _)
  have hx := Linked.mem_branch (C := ⟨gs, .red, pa, y⟩ :: ⟨gs, .black, ga, u⟩ :: C) h
  rw [addr_branch] at hne
  have hturn : t.turnOut gs e.ptr pa.ptr = some (t, e.ptr) := by
    rw [Rbtree.turnOut, Rbtree.child_of_mem hp]
    simp only [Option.bind_eq_bind, Option.bind_some, child_other_cell, if_neg hne]
    rfl
  have hparent : t.parent e.ptr = some pa.ptr := Rbtree.parent_of_mem hx
  obtain ⟨t', hrun, h'⟩ := insertFixup_raise h
  refine ⟨t', ?_, h'⟩
  have hblack : ¬u.color = .red := by rw [hu]; decide
  rw [insertFixup_red hM h, if_neg hblack, hturn]
  simp only [Option.bind_eq_bind, Option.bind_some, hparent] at hrun ⊢
  rw [← Option.bind_some t' (Rbtree.insertFixup fuel · e.ptr), ← hrun]
  simp only [Option.bind_assoc]

/-- A black uncle, and the node is on the inner side: it comes between parent and grandparent. -/
theorem insertFixup_inner (fuel : Nat) (hM : Ground M)
    (h : Linked M k t up (plug C (branch gs .black
      (branch gs.other .red (branch gs .red x e z) pa y) ga u))) (hu : u.color = .black) :
    ∃ t', Rbtree.insertFixup (fuel + 1) t e.ptr = Rbtree.insertFixup fuel t' pa.ptr
      ∧ Linked M k t' up (plug C (branch gs .black (branch gs .red y pa x) e
        (branch gs .red z ga u))) := by
  have hp := Linked.mem_branch (C := ⟨gs, .black, ga, u⟩ :: C) h
  have hout : Linked M k t up (plug (⟨gs, .black, ga, u⟩ :: C)
      (branch gs .red y pa (branch gs .red x e z))) := by
    rwa [branch_other] at h
  obtain ⟨t₁, h₁, hl₁⟩ := hout.rotate
  -- the inner grandchild is turned out below the parent
  have hturn : t.turnOut gs e.ptr pa.ptr = some (t₁, pa.ptr) := by
    have hchild := Rbtree.child_of_mem (s := gs.other) hp
    rw [child_cell, addr_branch] at hchild
    rw [Rbtree.turnOut, hchild]
    simp only [Option.bind_eq_bind, Option.bind_some, if_true, h₁]
    rfl
  have hparent : t₁.parent pa.ptr = some e.ptr :=
    Rbtree.parent_of_mem (Linked.mem_branch
      (C := ⟨gs, .red, e, z⟩ :: ⟨gs, .black, ga, u⟩ :: C) hl₁)
  -- from there on it is the outer case
  obtain ⟨t', hrun, h'⟩ := insertFixup_raise hl₁
  refine ⟨t', ?_, h'⟩
  have hblack : ¬u.color = .red := by rw [hu]; decide
  rw [insertFixup_red hM h, if_neg hblack, hturn]
  simp only [Option.bind_eq_bind, Option.bind_some, hparent] at hrun ⊢
  rw [← Option.bind_some t' (Rbtree.insertFixup fuel · pa.ptr), ← hrun]
  simp only [Option.bind_assoc]

end Round

/-- **The fix-up loop** makes the tree balanced, and leaves the order of the nodes. -/
theorem insertFixup_linked (hM : Ground M) {fuel n : Nat} {C : List (Frame (Entry δ))}
    {s : Side} {x z : ColorTree (Entry δ)} {e : Entry δ}
    (h : Linked M k t up (plug C (branch s .red x e z)))
    (hx : (branch s .red x e z).Balanced .red n) (hctx : Accepts C .black n)
    (htop : climbs C = true → TopBlack M up (plug C (branch s .red x e z)).toList)
    (hfuel : C.length < 2 * fuel) :
    ∃ t' T', Rbtree.insertFixup fuel t e.ptr = some t' ∧ Linked M k t' up T'
      ∧ T'.toList = (plug C (branch s .red x e z)).toList ∧ ∃ m, T'.Balanced .black m := by
  induction fuel generalizing C s x e z t n with
  | zero => omega
  | succ fuel ih =>
    cases C with
    | nil =>
      -- the node has become the root
      obtain ⟨m, hm⟩ := hx.blacken
      obtain ⟨hout, g, hg, hcolor⟩ := htop rfl
      have hparent : t.parent e.ptr = some up :=
        Rbtree.parent_of_mem (Linked.mem_branch (C := []) h)
      have hred : t.isRed up = some false := by
        rw [Rbtree.isRed_of_mem ((h.outside _ hout).trans hg)]
        simpa using hcolor
      exact insertFixup_exit hM h hm hparent hred
    | cons p C =>
      cases hp : p.color with
      -- a black parent: nothing to repair
      | black => exact insertFixup_parent_black fuel hM h hx hp hctx
      | red =>
        -- a red parent has a black grandparent
        obtain ⟨-, hps, g, C, rfl, hg, ⟨d, hgs⟩, hrest⟩ := hctx.of_red hp
        obtain ⟨ps, pc, pa, y⟩ := p
        obtain ⟨gs, gc, ga, u⟩ := g
        obtain rfl : pc = .red := hp
        obtain rfl : gc = .black := hg
        cases hu : u.color with
        | red =>
          obtain rfl : d = .red := hgs.color_eq.symm.trans hu
          -- a red uncle: recolour, and go on two levels up
          obtain ⟨t₁, hrun, h₁⟩ := insertFixup_recolour fuel hM h hu
          have hlist : (plug C (branch gs .red (branch ps .black (branch s .red x e z) pa y) ga
                (u.paint .black))).toList
              = (plug (⟨ps, .red, pa, y⟩ :: ⟨gs, .black, ga, u⟩ :: C)
                (branch s .red x e z)).toList :=
            toList_plug_congr (toList_branch_congr (toList_branch_congr rfl rfl) (toList_paint ..))
          obtain ⟨t', T', hrun', hT', hsame, hbalanced⟩ :=
            ih h₁ (balanced_recolour hx hps hgs) hrest
              (fun hclimbs => hlist ▸ htop (climbs_cons_cons.mpr ⟨rfl, hu, hclimbs⟩))
              (by simp only [List.length_cons] at hfuel; omega)
          exact ⟨t', T', hrun.trans hrun', hT', hsame.trans hlist, hbalanced⟩
        | black =>
          obtain rfl : d = .black := hgs.color_eq.symm.trans hu
          obtain ⟨fuel, rfl⟩ : ∃ f, fuel = f + 1 := by
            refine ⟨fuel - 1, ?_⟩
            simp only [List.length_cons] at hfuel
            omega
          by_cases hside : ps = gs
          · subst hside
            -- an outer grandchild: one rotation, and the parent is black
            obtain ⟨t₁, hrun, h₁⟩ := insertFixup_outer (fuel + 1) hM h hu
            have hnext : Accepts (⟨ps, .black, pa, branch ps .red y ga u⟩ :: C) .black n :=
              .black rfl (hps.branch_red hgs) hrest
            obtain ⟨t', T', hrun', hT', hsame, hbalanced⟩ :=
              insertFixup_parent_black fuel hM h₁ hx rfl hnext
            exact ⟨t', T', hrun.trans hrun', hT',
              hsame.trans (toList_plug_congr (toList_rotate ..)), hbalanced⟩
          · obtain rfl := Side.eq_other_of_ne hside
            -- seen from the side of the parent, the node has an inner child
            obtain ⟨x', z', hxz⟩ := branch_eq_branch s gs .red x e z
            rw [hxz] at h hx htop ⊢
            obtain ⟨-, hx', hz'⟩ := balanced_branch_red.mp hx
            obtain ⟨t₁, hrun, h₁⟩ := insertFixup_inner (fuel + 1) hM h hu
            have hnext : Accepts (⟨gs, .black, e, branch gs .red z' ga u⟩ :: C) .black n :=
              .black rfl (hz'.branch_red hgs) hrest
            obtain ⟨t', T', hrun', hT', hsame, hbalanced⟩ :=
              insertFixup_parent_black fuel hM h₁ (hps.branch_red hx') rfl hnext
            have hlist : (branch gs .black (branch gs .red y pa x') e
                  (branch gs .red z' ga u)).toList
                = (branch gs .black (branch gs.other .red (branch gs .red x' e z') pa y)
                  ga u).toList := by
              rw [branch_other, ← toList_rotate gs .black .red .black .red,
                ← toList_rotate gs .black .red .black .red]
              exact toList_branch_congr rfl (toList_rotate gs ..)
            exact ⟨t', T', hrun.trans hrun', hT',
              hsame.trans (toList_plug_congr (C := C) hlist), hbalanced⟩

/-- **A dangling link** above the root is followed by an insertion that climbs. -/
theorem insertFixup_dangling (hM : Ground M) {n : Nat} {C : List (Frame (Entry δ))} {s : Side}
    {x z : ColorTree (Entry δ)} {e : Entry δ}
    (h : Linked M k t up (plug C (branch s .red x e z)))
    (hx : (branch s .red x e z).Balanced .red n) (hctx : Accepts C .black n)
    (hclimbs : climbs C = true) (hup : up ∉ ptrs (plug C (branch s .red x e z)).toList)
    (hfreed : M up = none) (fuel : Nat) : Rbtree.insertFixup fuel t e.ptr = none := by
  induction fuel generalizing C s x e z t n with
  | zero => rfl
  | succ fuel ih =>
    cases C with
    | nil =>
      -- at the root: the parent link leads to memory that has been freed
      have hparent : t.parent e.ptr = some up :=
        Rbtree.parent_of_mem (Linked.mem_branch (C := []) h)
      rw [Rbtree.insertFixup, hparent]
      show (t.isRed up).bind _ = none
      rw [Rbtree.isRed, h.outside _ hup, hfreed]
      rfl
    | cons f C =>
      obtain ⟨ps, pc, pa, y⟩ := f
      cases C with
      | nil => exact absurd hclimbs Bool.false_ne_true
      | cons f C =>
        obtain ⟨gs, gc, ga, u⟩ := f
        -- below it: parent and uncle are red, and the loop climbs
        obtain ⟨hp, hu, hrec⟩ := climbs_cons_cons.mp hclimbs
        obtain ⟨-, hps, g, C', heq, hg, ⟨d, hgs⟩, hrest⟩ := hctx.of_red hp
        obtain ⟨rfl, rfl⟩ := List.cons.inj heq
        obtain rfl : pc = .red := hp
        obtain rfl : gc = .black := hg
        obtain rfl : d = .red := hgs.color_eq.symm.trans hu
        obtain ⟨t₁, hrun, h₁⟩ := insertFixup_recolour fuel hM h hu
        have hlist : (plug C (branch gs .red (branch ps .black (branch s .red x e z) pa y) ga
              (u.paint .black))).toList
            = (plug (⟨ps, .red, pa, y⟩ :: ⟨gs, .black, ga, u⟩ :: C)
                (branch s .red x e z)).toList :=
          toList_plug_congr (toList_branch_congr (toList_branch_congr rfl rfl) (toList_paint ..))
        exact hrun.trans (ih h₁ (balanced_recolour hx hps hgs) hrest hrec (hlist ▸ hup))

/-! ## The place of the new node -/

/-- The walk for a new node goes left at this one. -/
def Entry.goesLeft (e a : Entry δ) : Bool := decide (e.key < a.key)

/-- The walk of an insertion. -/
theorem insertPosition_eq {b : Entry δ} {x : ColorTree (Entry δ)} {C : List (Frame (Entry δ))}
    {up y : Ptr} {fuel : Nat} (h : Holds t.mem up x) (hnamed : ∀ p ∈ ptrs x.toList, p ≠ sentinel)
    (hfuel : x.depth < fuel) :
    Rbtree.insertPosition fuel t b.key (addr x) (upLink y C)
      = some (upLink y (seek b.goesLeft C x)) := by
  induction x generalizing C up fuel with
  | nil =>
    obtain ⟨fuel, rfl⟩ := Nat.exists_eq_add_of_lt hfuel
    rfl
  | node c l e r ihl ihr =>
    obtain ⟨fuel, rfl⟩ := Nat.exists_eq_add_of_lt hfuel
    obtain ⟨hcell, hl, hr⟩ := h
    obtain ⟨hne, hnl, hnr⟩ := forall_ptrs_node.mp hnamed
    rw [show (node c l e r).depth + fuel + 1 = (max l.depth r.depth + 1 + fuel) + 1 from rfl,
      Rbtree.insertPosition, addr_node, if_neg hne, hcell]
    show Rbtree.insertPosition _ t b.key (if b.key < e.key then addr l else addr r) e.ptr = _
    by_cases hlt : b.key < e.key
    · rw [if_pos hlt, seek, if_pos (show b.goesLeft e = true from decide_eq_true hlt)]
      exact ihl (C := ⟨.left, c, e, r⟩ :: C) hl hnl (by omega)
    · rw [if_neg hlt, seek, if_neg (by simpa [Entry.goesLeft] using hlt)]
      exact ihr (C := ⟨.right, c, e, l⟩ :: C) hr hnr (by omega)

/-- A node that is not in the tree, with the fields that its insertion keeps. -/
structure Detached (M : Ptr → Option (RbNode δ)) (e : Entry δ) (l : List (Entry δ)) : Prop where
  cell : ∃ n, M e.ptr = some n ∧ n.key = e.key ∧ n.data = e.data
  notMem : e.ptr ∉ ptrs l
  named : e.ptr ≠ nullPtr ∧ e.ptr ≠ sentinel

/-- The new node hangs at its place, and its own children and colour are still open. -/
structure Attached (M : Ptr → Option (RbNode δ)) (k : UInt32) (t : Rbtree δ) (up : Ptr)
    (C : List (Frame (Entry δ))) (e : Entry δ) : Prop where
  holdsAbove : HoldsAbove t.mem t.root up e.ptr C
  cell : ∃ n, t.mem e.ptr = some n ∧ n.key = e.key ∧ n.data = e.data ∧ n.parent = upLink up C
  apart : (ptrs (e :: above C)).Nodup
  named : ∀ p ∈ ptrs (e :: above C), p ≠ nullPtr ∧ p ≠ sentinel
  outside : ∀ p, p ∉ ptrs (e :: above C) → t.mem p = M p
  size : t.size = k

/-- The first node becomes the root. -/
theorem attach_nil {e : Entry δ} (h : Linked M k t up (.nil : ColorTree (Entry δ)))
    (he : Detached M e []) (fuel : Nat) :
    ∃ t', Rbtree.attach fuel t e.ptr = some t' ∧ Attached M k t' sentinel [] e := by
  obtain ⟨n, hn, hkey, hdata⟩ := he.cell
  have hmem : t.mem e.ptr = some n := (h.outside _ (by simp)).trans hn
  let t' : Rbtree δ := { t with
    root := e.ptr
    mem := Function.update t.mem e.ptr (some { n with parent := sentinel }) }
  refine ⟨t', ?_, rfl, ⟨_, Function.update_self .., hkey, hdata, rfl⟩, by simp, ?_, ?_, h.size⟩
  · rw [Rbtree.attach, if_pos (show t.root = sentinel from h.root)]
    exact Rbtree.set_of_mem (t := { t with root := e.ptr }) hmem
  · intro p hp
    obtain rfl : p = e.ptr := by simpa using hp
    exact he.named
  · intro p hp
    refine (Function.update_of_ne (by simpa using hp) ..).trans (h.outside p (by simp))

/-- Any other node goes where the walk ends. -/
theorem attach_above {e : Entry δ} {T : ColorTree (Entry δ)} {fuel : Nat} (h : Linked M k t up T)
    (hT : T ≠ .nil) (he : Detached M e T.toList) (hfuel : T.depth < fuel) :
    ∃ t', Rbtree.attach fuel t e.ptr = some t'
      ∧ Attached M k t' up (seek e.goesLeft [] T) e := by
  -- where the search ends: the frame `f`, with an empty place below it
  obtain ⟨f, C, hseek, hside⟩ := seek_cons e.goesLeft [] hT
  have hplug : plug (f :: C) .nil = T := by rw [← hseek, plug_seek, plug_nil]
  obtain ⟨n, hn, hkey, hdata⟩ := he.cell
  have hmem : t.mem e.ptr = some n := (h.outside _ he.notMem).trans hn
  have hroot : t.root ≠ sentinel := by
    cases T with
    | nil => exact absurd rfl hT
    | node c l a r =>
      rw [h.root]
      exact (h.named _ (by simp)).2
  -- the loop of `rbtree_insert` finds that frame
  have hwalk : Rbtree.insertPosition fuel t e.key t.root sentinel = some f.label.ptr := by
    have := insertPosition_eq (b := e) (C := []) (y := sentinel) h.holds
      (fun p hp => (h.named p hp).2) hfuel
    rwa [hseek, ← h.root] at this
  rw [← hplug] at h he
  have hf := linked_plug.mp h
  have hnot : e.ptr ∉ ptrs (above (f :: C)) := by
    have := he.notMem
    rwa [((perm_toList_plug (f :: C) .nil).map Entry.ptr).mem_iff] at this
  have hapart : (ptrs (above (f :: C))).Nodup := by simpa using hf.apart
  -- the parent link of the new node
  let t₁ : Rbtree δ := { t with
    mem := Function.update t.mem e.ptr (some { n with parent := f.label.ptr }) }
  have h₁ : t.setParent e.ptr f.label.ptr = some t₁ := Rbtree.set_of_mem hmem
  have hs₁ : Rbtree.Stores [e.ptr] t t₁ := Rbtree.stores_update _ _ _
  have habove₁ : HoldsAbove t₁.mem t₁.root up sentinel (f :: C) :=
    hs₁.holdsAbove hf.holdsAbove fun p hp => by rwa [List.mem_singleton.mp hp]
  -- the child link to it
  obtain ⟨t₂, h₂, habove₂, -, hs₂⟩ := Rbtree.setChild_above (q := e.ptr) habove₁ hapart
  have hne : e.ptr ≠ f.label.ptr := by
    rintro heq
    refine hnot ?_
    rw [heq]
    simp
  have hs : Rbtree.Stores (ptrs (e :: above (f :: C))) t t₂ :=
    (hs₁.mono (by simp)).trans (hs₂.mono (by simp))
  rw [hseek]
  refine ⟨t₂, ?_, habove₂, ⟨{ n with parent := f.label.ptr }, ?_, hkey, hdata, rfl⟩,
    List.nodup_cons.mpr ⟨hnot, hapart⟩, ?_, ?_, hs.size.trans h.size⟩
  · rw [Rbtree.attach, if_neg hroot, hmem]
    simp only [Option.map_some, Option.bind_eq_bind, Option.bind_some, hkey, hwalk, h₁]
    rw [habove₁.1]
    simp only [Option.map_some, Option.bind_some, key_cell]
    rw [← h₂, hside]
    -- the side the code takes is that of the frame
    by_cases hlt : e.key < f.label.key
    · rw [if_pos hlt, if_pos (show e.goesLeft f.label = true from decide_eq_true hlt)]
    · rw [if_neg hlt, if_neg (by simpa [Entry.goesLeft] using hlt)]
  · rw [hs₂.mem _ (by simpa using hne)]
    exact Function.update_self ..
  · intro p hp
    rcases List.mem_cons.mp hp with rfl | hp
    · exact he.named
    · exact hf.named p (by simpa using hp)
  · intro p hp
    refine (hs.mem p hp).trans (hf.outside p ?_)
    exact fun hin => hp (List.mem_cons_of_mem _ (by simpa using hin))

/-- The rest of the new node: a red leaf. -/
theorem Attached.makeLeaf {C : List (Frame (Entry δ))} {e : Entry δ}
    (h : Attached M k t up C e) :
    ∃ t', t.makeLeaf e.ptr = some t'
      ∧ Linked M k t' up (plug C (branch .left .red .nil e .nil)) := by
  obtain ⟨n, hn, hkey, hdata, hparent⟩ := h.cell
  -- the four stores make the cell a red leaf
  let leaf : RbNode δ := Nginx.cell .left e .red (upLink up C) sentinel sentinel
  let t' : Rbtree δ := { t with mem := Function.update t.mem e.ptr (some leaf) }
  have hs : Rbtree.Stores [e.ptr] t t' := Rbtree.stores_update _ _ _
  have hrun : t.makeLeaf e.ptr = some t' := by
    simp only [Rbtree.makeLeaf, Option.bind_eq_bind, Rbtree.setChild, Rbtree.paint,
      Rbtree.set_set]
    refine (Rbtree.set_of_mem hn).trans ?_
    show some { t with mem := Function.update t.mem e.ptr (some
      { key := n.key, parent := n.parent, right := sentinel, left := sentinel, color := _,
        data := n.data }) } = _
    rw [hkey, hdata, hparent]
    rfl
  refine ⟨t', hrun, linked_plug.mpr ⟨?_, ?_, h.apart, h.named, fun p hp => ?_, h.size⟩⟩
  · refine hs.holdsAbove h.holdsAbove fun p hp => ?_
    rw [List.mem_singleton.mp hp]
    exact (List.nodup_cons.mp h.apart).1
  · exact holds_branch.mpr ⟨Function.update_self .., trivial, trivial⟩
  · refine (hs.mem p fun hin => hp ?_).trans (h.outside p hp)
    rw [List.mem_singleton.mp hin]
    exact List.mem_cons_self

/-! ## The whole insertion -/

/-- The keys of the nodes from left to right do not descend. -/
def Ascending (l : List (Entry δ)) : Prop := l.Pairwise fun a b => a.key ≤ b.key

/-- The new node behind all those whose key is not greater. -/
def Entry.into (e : Entry δ) (l : List (Entry δ)) : List (Entry δ) :=
  l.filter (fun a => !e.goesLeft a) ++ e :: l.filter e.goesLeft

/-- A leaf in the hole that the search finds stands where the list has its place. -/
theorem toList_plug_seek {T : ColorTree (Entry δ)} (h : Ascending T.toList) (e : Entry δ)
    (c : Color) : (plug (seek e.goesLeft [] T) (.node c .nil e .nil)).toList
      = e.into T.toList := by
  have hmono : T.toList.Pairwise fun a b =>
      e.goesLeft a = true → e.goesLeft b = true := by
    refine h.imp fun hab hlt => ?_
    simp only [Entry.goesLeft, decide_eq_true_eq] at hlt ⊢
    omega
  obtain ⟨hbefore, hafter⟩ := before_after_seek hmono []
  rw [toList_plug, hbefore, hafter]
  simp [Entry.into, before, after]

theorem perm_into (e : Entry δ) (l : List (Entry δ)) : (e.into l).Perm (e :: l) := by
  refine List.perm_middle.trans (List.Perm.cons e ?_)
  refine List.perm_append_comm.trans ?_
  exact List.filter_append_perm e.goesLeft l

/-- The new leaf and the fix-up. -/
theorem Attached.insert {e : Entry δ} {C : List (Frame (Entry δ))} {t₁ : Rbtree δ} {fuel : Nat}
    (hM : Ground M) (h : Attached M k t₁ up C e)
    (hattach : Rbtree.attach fuel t e.ptr = some t₁) (hctx : Accepts C .black 0)
    (htop : climbs C = true → TopBlack M up (e :: above C)) (hfuel : C.length < 2 * fuel) :
    ∃ t' T', t.insert fuel e.ptr = some t' ∧ Linked M (k + 1) t' up T'
      ∧ T'.toList = (plug C (.node .red .nil e .nil)).toList ∧ ∃ m, T'.Balanced .black m := by
  obtain ⟨t₂, hleaf, h₂⟩ := h.makeLeaf
  have htop' : climbs C = true →
      TopBlack M up (plug C (branch .left .red .nil e .nil)).toList := by
    intro hclimbs
    refine ⟨fun hin => (htop hclimbs).notMem ?_, (htop hclimbs).cell⟩
    exact ((perm_toList_plug C _).map Entry.ptr).mem_iff.mp hin
  obtain ⟨t₃, T', hfix, hT', hlist, hbalanced⟩ :=
    insertFixup_linked hM h₂ (Balanced.nil.branch_red .nil) hctx htop' hfuel
  refine ⟨{ t₃ with size := t₃.size + 1 }, T', ?_, ?_, hlist, hbalanced⟩
  · rw [Rbtree.insert, if_neg (not_or.mpr (h.named _ List.mem_cons_self))]
    simp only [Option.bind_eq_bind, hattach, hleaf, hfix, Option.bind_some]
    rfl
  · exact ⟨hT'.root, hT'.holds, hT'.apart, hT'.named, hT'.outside, congrArg (· + 1) hT'.size⟩

/-- The hole for the new node. -/
theorem accepts_seek {T : ColorTree (Entry δ)} {m : Nat} (hT : T.Balanced .black m) (e : Entry δ) :
    Accepts (seek e.goesLeft [] T) .black 0 := by
  have hplug : (plug (seek e.goesLeft [] T) .nil).Balanced .black m := by
    rwa [plug_seek, plug_nil]
  obtain ⟨c, n, hleaf, haccepts⟩ := accepts_of_plug hplug
  cases hleaf
  exact haccepts

/-- **Insertion.** The new node goes behind all nodes whose key is not greater, the tree stays
balanced, and the memory outside is as before. -/
theorem insert_linked {e : Entry δ} {T : ColorTree (Entry δ)} {m fuel : Nat} (hM : Ground M)
    (h : Linked M k t up T) (hT : T.Balanced .black m) (hasc : Ascending T.toList)
    (he : Detached M e T.toList) (hfuel : T.depth < fuel)
    (hup : climbs (seek e.goesLeft [] T) = true → up = sentinel) :
    ∃ t' T', t.insert fuel e.ptr = some t' ∧ Linked M (k + 1) t' up T'
      ∧ T'.toList = e.into T.toList ∧ ∃ m, T'.Balanced .black m := by
  obtain ⟨g, hg, hblack⟩ := hM.sentinel
  have htop : ∀ {up : Ptr} {l : List (Entry δ)}, up = sentinel →
      (∀ p ∈ ptrs l, p ≠ nullPtr ∧ p ≠ sentinel) → TopBlack M up l := by
    intro up l heq hl
    rw [heq]
    exact ⟨fun hin => (hl _ hin).2 rfl, g, hg, by rw [hblack]; decide⟩
  rw [← toList_plug_seek hasc e .red]
  by_cases hnil : T = .nil
  · subst hnil
    rw [hup rfl] at h ⊢
    obtain ⟨t₁, hattach, h₁⟩ := attach_nil h he fuel
    exact h₁.insert hM hattach .top (fun _ => htop rfl h₁.named)
      (Nat.mul_pos (by decide) (by omega))
  · obtain ⟨t₁, hattach, h₁⟩ := attach_above h hnil he hfuel
    have hlength := length_seek_le e.goesLeft [] T
    exact h₁.insert hM hattach (accepts_seek hT e) (fun hclimbs => htop (hup hclimbs) h₁.named)
      (by simp only [List.length_nil] at hlength; omega)

/-- An insertion above whose root there is nothing any more has no result exactly if it climbs
to the root. -/
theorem insert_eq_none_iff {e : Entry δ} {T : ColorTree (Entry δ)} {m fuel : Nat} (hM : Ground M)
    (h : Linked M k t up T) (hT : T.Balanced .black m) (hasc : Ascending T.toList)
    (he : Detached M e T.toList) (hfuel : T.depth < fuel) (hne : T ≠ .nil)
    (hfreed : t.mem up = none) :
    t.insert fuel e.ptr = none ↔ climbs (seek e.goesLeft [] T) = true := by
  obtain ⟨n, hn, -⟩ := he.cell
  -- the freed node is not in the tree
  have hup : up ∉ ptrs T.toList := by
    intro hin
    obtain ⟨a, ha, rfl⟩ := List.mem_map.mp hin
    obtain ⟨C, c, l, r, rfl⟩ := exists_plug_of_mem ha
    rw [Linked.mem_branch (s := .left) h] at hfreed
    cases hfreed
  have hMup : M up = none := (h.outside _ hup).symm.trans hfreed
  constructor
  · intro hnone
    -- a fix-up that does not climb to the root returns
    by_contra hclimbs
    obtain ⟨t', T', hrun, -⟩ := insert_linked hM h hT hasc he hfuel fun hc => absurd hc hclimbs
    rw [hrun] at hnone
    cases hnone
  · intro hclimbs
    obtain ⟨t₁, hattach, h₁⟩ := attach_above h hne he hfuel
    obtain ⟨t₂, hleaf, h₂⟩ := h₁.makeLeaf
    -- nor is it in the tree with the new leaf
    have hup' : up ∉ ptrs (plug (seek e.goesLeft [] T) (branch .left .red .nil e .nil)).toList := by
      have hlist : (plug (seek e.goesLeft [] T) (branch .left .red .nil e .nil)).toList
          = e.into T.toList := toList_plug_seek hasc e .red
      rw [hlist, ((perm_into e T.toList).map Entry.ptr).mem_iff, List.map_cons, List.mem_cons]
      rintro (rfl | hin)
      · rw [hMup] at hn
        cases hn
      · exact hup hin
    have hfix := insertFixup_dangling hM h₂ (Balanced.nil.branch_red .nil) (accepts_seek hT e)
      hclimbs hup' hMup fuel
    rw [Rbtree.insert, if_neg (not_or.mpr he.named)]
    simp only [Option.bind_eq_bind, hattach, hleaf, hfix, Option.bind_some, Option.bind_none]

/-- The order of the keys is kept. -/
theorem ascending_into {e : Entry δ} {l : List (Entry δ)} (h : Ascending l) :
    Ascending (e.into l) := by
  refine List.pairwise_append.mpr ⟨h.filter _, List.pairwise_cons.mpr ⟨?_, h.filter _⟩, ?_⟩
  · intro a ha
    have := (List.mem_filter.mp ha).2
    simp only [Entry.goesLeft, decide_eq_true_eq] at this
    omega
  · intro a ha b hb
    have ha' := (List.mem_filter.mp ha).2
    simp only [Entry.goesLeft, Bool.not_eq_true', decide_eq_false_iff_not] at ha'
    rcases List.mem_cons.mp hb with rfl | hb
    · omega
    · have hb' := (List.mem_filter.mp hb).2
      simp only [Entry.goesLeft, decide_eq_true_eq] at hb'
      omega

end Iceberg.Nginx
