import Iceberg.Nginx.RbtreeQueries

/-!
# Histories of the red-black tree

Whatever calls have built a tree, it stands for the list of its nodes in the order of their keys,
and among equal keys in the order of insertion. The searches and the travel answer from this
list, and no walk is longer than twice the logarithm of its length. A deletion may leave the
root's parent link at the node that is gone, and an insertion that climbs to the root follows it.
-/

namespace Iceberg.Nginx

open RedBlack RedBlack.ColorTree

/-! ## Cells that come and go -/

section Cells

variable {δ : Type} {M M' : Ptr → Option (RbNode δ)} {k : UInt32} {t : Rbtree δ} {up p : Ptr}
  {T : ColorTree (Entry δ)}

theorem Linked.outside_congr (h : Linked M k t up T) (hM : ∀ p, p ∉ ptrs T.toList → M p = M' p) :
    Linked M' k t up T :=
  ⟨h.root, h.holds, h.apart, h.named, fun p hp => (h.outside p hp).trans (hM p hp), h.size⟩

theorem Linked.mem_of_entry (h : Linked M k t up T) {a : Entry δ} (ha : a ∈ T.toList) :
    ∃ n, t.mem a.ptr = some n ∧ n.key = a.key ∧ n.data = a.data := by
  obtain ⟨C, c, l, r, rfl⟩ := exists_plug_of_mem ha
  exact ⟨_, Linked.mem_branch (s := .left) h, rfl, rfl⟩

/-- A freed cell is outside of the tree. -/
theorem Linked.not_mem_of_none (h : Linked M k t up T) (hp : t.mem p = none) :
    p ∉ ptrs T.toList := by
  intro hin
  obtain ⟨a, ha, rfl⟩ := List.mem_map.mp hin
  obtain ⟨n, hn, -⟩ := h.mem_of_entry ha
  rw [hn] at hp
  cases hp

/-- A store outside of the tree, of a new cell or of none. -/
theorem Linked.update (h : Linked M k t up T) (hp : p ∉ ptrs T.toList) (n : Option (RbNode δ)) :
    Linked (Function.update M p n) k { t with mem := Function.update t.mem p n } up T := by
  refine ⟨h.root, ?_, h.apart, h.named, fun q hq => ?_, h.size⟩
  · refine (Rbtree.stores_update t p n).holds h.holds fun q hq => ?_
    rwa [List.mem_singleton.mp hq]
  · show Function.update t.mem p n q = Function.update M p n q
    by_cases hqp : q = p
    · rw [hqp, Function.update_self, Function.update_self]
    · rw [Function.update_of_ne hqp, Function.update_of_ne hqp, h.outside q hq]

end Cells

theorem mem_into {δ : Type} {a e : Entry δ} {l : List (Entry δ)} :
    a ∈ e.into l ↔ a = e ∨ a ∈ l := by
  rw [(perm_into e l).mem_iff, List.mem_cons]

/-! ## What a history leads to -/

section Built

variable {δ : Type} {t t' : Rbtree δ} {l : List (Entry δ)} {e : Entry δ} {fuel : Nat}

/-- The root's parent link is in order. -/
def Rbtree.Rooted (t : Rbtree δ) : Prop :=
  t.root = sentinel ∨ t.parent t.root = some sentinel

/-- A node that is filled in and not in the tree. -/
structure Rbtree.Fresh (t : Rbtree δ) (e : Entry δ) (l : List (Entry δ)) : Prop where
  cell : ∃ n, t.mem e.ptr = some n ∧ n.key = e.key ∧ n.data = e.data
  notMem : e.ptr ∉ ptrs l
  named : e.ptr ≠ nullPtr ∧ e.ptr ≠ sentinel

/-- The trees that a history of calls leads to, with their nodes. Between the calls the callers
allocate, write and free cells outside of the tree. While a link dangles, there are at most
three nodes. -/
inductive Built : Rbtree δ → List (Entry δ) → Prop
  | init {t t' : Rbtree δ} (hnull : t.mem nullPtr = none) (hrun : t.init = some t') : Built t' []
  | store {t : Rbtree δ} {l : List (Entry δ)} (h : Built t l) {p : Ptr} (hp : p ∉ ptrs l)
      (hnamed : p ≠ nullPtr ∧ p ≠ sentinel) (n : Option (RbNode δ)) :
      Built { t with mem := Function.update t.mem p n } l
  | insert {t t' : Rbtree δ} {l : List (Entry δ)} (h : Built t l) {e : Entry δ} {fuel : Nat}
      (he : t.Fresh e l) (hup : t.Rooted ∨ l.length < 3)
      (hfuel : 2 * Nat.log 2 (l.length + 1) < fuel) (hrun : t.insert fuel e.ptr = some t') :
      Built t' (e.into l)
  | delete {t t' : Rbtree δ} {l : List (Entry δ)} (h : Built t l) {e : Entry δ} {fuel : Nat}
      (he : e ∈ l) (hfuel : 2 * Nat.log 2 (l.length + 1) < fuel)
      (hrun : t.delete fuel e.ptr = some t') : Built t' (e.outOf l)

/-- The list is a balanced tree in memory. -/
def Stands (t : Rbtree δ) (l : List (Entry δ)) : Prop :=
  ∃ M up T m, Ground M ∧ Linked M (UInt32.ofNat l.length) t up T ∧ Balanced T .black m
    ∧ T.toList = l ∧ Ascending l

theorem depth_lt_of_log {T : ColorTree (Entry δ)} {m : Nat} (hT : T.Balanced .black m)
    (hfuel : 2 * Nat.log 2 (T.toList.length + 1) < fuel) : T.depth < fuel :=
  Nat.lt_of_le_of_lt hT.depth_le_log hfuel

/-- Only a tree that is not empty can have a dangling link. -/
theorem Linked.rooted_iff {M : Ptr → Option (RbNode δ)} {k : UInt32} {up : Ptr}
    {T : ColorTree (Entry δ)} (h : Linked M k t up T) : t.Rooted ↔ T = .nil ∨ up = sentinel := by
  rw [Rbtree.Rooted, h.root_eq_sentinel]
  cases T with
  | nil => exact iff_of_true (Or.inl rfl) (Or.inl rfl)
  | node c l a r =>
    have hparent : t.parent a.ptr = some up :=
      Rbtree.parent_of_mem (Linked.mem_branch (C := []) (s := .left) h)
    rw [h.root, addr_node, hparent, Option.some.injEq]

/-- To climb, there have to be a parent, an uncle and a grandparent. -/
theorem length_of_climbs {C : List (Frame (Entry δ))} (h : climbs C = true) (hne : C ≠ []) :
    3 ≤ (above C).length := by
  cases C with
  | nil => exact absurd rfl hne
  | cons p C =>
    cases C with
    | nil => exact absurd h Bool.false_ne_true
    | cons g C =>
      obtain ⟨-, hu, -⟩ := climbs_cons_cons.mp h
      have hred : 1 ≤ g.sibling.toList.length := by
        cases hsibling : g.sibling with
        | nil =>
          rw [hsibling] at hu
          cases hu
        | node c l a r =>
          rw [toList_node, List.length_append, List.length_cons]
          omega
      simp only [above_cons, List.length_append, List.length_cons]
      omega

/-- **`util_rbtree_init`** makes an empty tree. -/
theorem stands_init (hnull : t.mem nullPtr = none) (hrun : t.init = some t') :
    Stands t' ([] : List (Entry δ)) := by
  rw [Rbtree.init] at hrun
  cases hcell : t.mem sentinel with
  | none =>
    rw [Rbtree.paint, Rbtree.set, hcell] at hrun
    cases hrun
  | some g =>
    rw [Rbtree.paint, Rbtree.set_of_mem hcell] at hrun
    obtain rfl := Option.some.inj hrun
    let M := Function.update t.mem sentinel (some { g with color := 1 })
    refine ⟨M, sentinel, .nil, 0, ⟨?_, { g with color := 1 }, ?_, rfl⟩,
      ⟨rfl, trivial, .nil, fun _ hp => absurd hp List.not_mem_nil, fun _ _ => rfl, rfl⟩,
      .nil, rfl, .nil⟩
    · exact (Function.update_of_ne (by decide) ..).trans hnull
    · show Function.update t.mem sentinel _ sentinel = _
      simp only [Function.update_self]

/-- A store of the caller outside of the tree leaves it standing. -/
theorem Stands.store (h : Stands t l) {p : Ptr} (hp : p ∉ ptrs l)
    (hnamed : p ≠ nullPtr ∧ p ≠ sentinel) (n : Option (RbNode δ)) :
    Stands { t with mem := Function.update t.mem p n } l := by
  obtain ⟨M, up, T, m, hM, hT, hbalanced, rfl, hasc⟩ := h
  obtain ⟨g, hg, hblack⟩ := hM.sentinel
  refine ⟨_, up, T, m, ⟨?_, g, ?_, hblack⟩, hT.update hp n, hbalanced, rfl, hasc⟩
  · rw [Function.update_of_ne hnamed.1.symm]
    exact hM.null
  · rw [Function.update_of_ne hnamed.2.symm]
    exact hg

theorem length_into (e : Entry δ) (l : List (Entry δ)) : (e.into l).length = l.length + 1 := by
  rw [(perm_into e l).length_eq, List.length_cons]

/-- **Insertion** into a tree whose root is in order, or that is small. -/
theorem Stands.insert (h : Stands t l) (he : t.Fresh e l) (hup : t.Rooted ∨ l.length < 3)
    (hfuel : 2 * Nat.log 2 (l.length + 1) < fuel) :
    ∃ t', t.insert fuel e.ptr = some t' ∧ Stands t' (e.into l) := by
  obtain ⟨M, up, T, m, hM, hT, hbalanced, rfl, hasc⟩ := h
  have hdetached : Detached M e T.toList := by
    obtain ⟨n, hn, hfields⟩ := he.cell
    exact ⟨⟨n, (hT.outside _ he.notMem).symm.trans hn, hfields⟩, he.notMem, he.named⟩
  -- the parent link that the insertion keeps
  obtain ⟨up', hT', hclimbs⟩ : ∃ up', Linked M (UInt32.ofNat T.toList.length) t up' T
      ∧ (climbs (seek e.goesLeft [] T) = true → up' = sentinel) := by
    rcases hup with hrooted | hsmall
    · rcases hT.rooted_iff.mp hrooted with rfl | rfl
      · exact ⟨sentinel, hT.relink_nil _, fun _ => rfl⟩
      · exact ⟨sentinel, hT, fun _ => rfl⟩
    · cases T with
      | nil => exact ⟨sentinel, hT.relink_nil _, fun _ => rfl⟩
      | node c l a r =>
        refine ⟨up, hT, fun hclimbs => ?_⟩
        obtain ⟨f, C, hseek, -⟩ := seek_cons e.goesLeft [] (node_ne_nil c l a r)
        have hthree := length_of_climbs hclimbs (by rw [hseek]; exact List.cons_ne_nil f C)
        have hperm := (perm_toList_plug (seek e.goesLeft [] (node c l a r)) .nil).length_eq
        rw [plug_seek, plug_nil, toList_nil, List.nil_append] at hperm
        omega
  obtain ⟨t', T', hrun, hlinked, hlist, m', hm'⟩ :=
    insert_linked hM hT' hbalanced hasc hdetached (depth_lt_of_log hbalanced hfuel) hclimbs
  refine ⟨t', hrun, M, up', T', m', hM, ?_, hm', hlist, ascending_into hasc⟩
  rw [length_into, UInt32.ofNat_add]
  exact hlinked

/-- **Deletion.** -/
theorem Stands.delete (h : Stands t l) (he : e ∈ l)
    (hfuel : 2 * Nat.log 2 (l.length + 1) < fuel) :
    ∃ t', t.delete fuel e.ptr = some t' ∧ Stands t' (e.outOf l) := by
  obtain ⟨M, up, T, m, hM, hT, hbalanced, rfl, hasc⟩ := h
  obtain ⟨t', hrun, M', T', h', hremoved, hlist, m', hm'⟩ :=
    delete_linked hM hT hbalanced he (depth_lt_of_log hbalanced hfuel)
  refine ⟨t', hrun, M', upAfter up T e, T', m', hremoved.ground, ?_, hm', hlist, hasc.filter _⟩
  have hsize : UInt32.ofNat (e.outOf T.toList).length = UInt32.ofNat T.toList.length - 1 := by
    rw [← length_outOf hT.apart he, UInt32.ofNat_add]
    exact (UInt32.add_sub_cancel ..).symm
  rw [hsize]
  exact h'

/-- **Every history** leads to a balanced tree with the right nodes. -/
theorem Built.stands (h : Built t l) : Stands t l := by
  induction h with
  | init hnull hrun => exact stands_init hnull hrun
  | store _ hp hnamed n ih => exact ih.store hp hnamed n
  | insert _ he hup hfuel hrun ih =>
    obtain ⟨t₁, hrun₁, h₁⟩ := ih.insert he hup hfuel
    obtain rfl := Option.some.inj (hrun₁.symm.trans hrun)
    exact h₁
  | delete _ he hfuel hrun ih =>
    obtain ⟨t₁, hrun₁, h₁⟩ := ih.delete he hfuel
    obtain rfl := Option.some.inj (hrun₁.symm.trans hrun)
    exact h₁

end Built

/-! ## A small tree -/

/-- A tree before `util_rbtree_init`, with a node of its own key at every address. -/
def filled : Rbtree Unit :=
  { root := nullPtr, size := 0
    mem := fun p => if p = nullPtr then none else some ⟨p, nullPtr, nullPtr, nullPtr, 0, ()⟩ }

def entry (p : Ptr) : Entry Unit := ⟨p, p, ()⟩

def emptyTree : Rbtree Unit := filled.init.get rfl

theorem oneNode_isSome : (emptyTree.insert 9 2).isSome = true := rfl

def oneNode : Rbtree Unit := (emptyTree.insert 9 2).get oneNode_isSome

theorem twoNodes_isSome : (oneNode.insert 9 3).isSome = true := rfl

def twoNodes : Rbtree Unit := (oneNode.insert 9 3).get twoNodes_isSome

theorem leftNode_isSome : (twoNodes.delete 9 2).isSome = true := rfl

/-- The root of two nodes has been deleted, and its cell freed. -/
def leftNode : Rbtree Unit :=
  { (twoNodes.delete 9 2).get leftNode_isSome with
    mem := Function.update ((twoNodes.delete 9 2).get leftNode_isSome).mem 2 none }

theorem log_lt_nine {n : Nat} (h : n ≤ 3) : 2 * Nat.log 2 (n + 1) < 9 := by
  have hlog : Nat.log 2 (n + 1) ≤ Nat.log 2 (2 ^ 2) := Nat.log_mono_right (by omega)
  rw [Nat.log_pow (by decide)] at hlog
  omega

theorem fresh_entry {t : Rbtree Unit} {l : List (Entry Unit)} {p : Ptr}
    (hcell : t.mem p = some ⟨p, nullPtr, nullPtr, nullPtr, 0, ()⟩) (hp : p ∉ ptrs l)
    (hnamed : p ≠ nullPtr ∧ p ≠ sentinel) : t.Fresh (entry p) l :=
  ⟨⟨_, hcell, rfl, rfl⟩, hp, hnamed⟩

theorem built_emptyTree : Built emptyTree ([] : List (Entry Unit)) :=
  .init rfl (Option.some_get _).symm

theorem built_twoNodes : Built twoNodes ((entry 3).into ((entry 2).into [])) := by
  have hone : Built oneNode ((entry 2).into []) :=
    built_emptyTree.insert (fresh_entry rfl (by decide) (by decide)) (Or.inr (by decide))
      (log_lt_nine (by decide)) (Option.some_get oneNode_isSome).symm
  exact hone.insert (fresh_entry rfl (by decide) (by decide)) (Or.inr (by decide))
    (log_lt_nine (by decide)) (Option.some_get twoNodes_isSome).symm

theorem built_leftNode :
    Built leftNode ((entry 2).outOf ((entry 3).into ((entry 2).into []))) := by
  have hdeleted := built_twoNodes.delete (e := entry 2) List.mem_cons_self
    (log_lt_nine (by decide)) (Option.some_get leftNode_isSome).symm
  exact hdeleted.store (by decide) (by decide) none

section Built

variable {δ : Type} {t t' : Rbtree δ} {l : List (Entry δ)} {e : Entry δ} {fuel : Nat}

/-! ## What the callers may rely on -/

/-- **The searches and the travel** answer from the list. -/
theorem built_queries (h : Built t l) (hfuel : 2 * Nat.log 2 (l.length + 1) < fuel) :
    l.Pairwise (fun a b => a.key ≤ b.key)
      ∧ (∀ key, ∃ found, t.search fuel key = some (ptrOf found)
          ∧ (∀ a ∈ found, a ∈ l ∧ a.key = key) ∧ (found = none → ∀ a ∈ l, a.key ≠ key))
      ∧ (∀ key, t.lookup fuel key
          = some (ptrOf ((l.find? fun a => key ≤ a.key).or l.head?)))
      ∧ Rbtree.subtreeMin fuel t t.root = some (ptrOf l.head?)
      ∧ Rbtree.subtreeMax fuel t t.root = some (ptrOf l.getLast?)
      ∧ ∀ (β : Type) (f : β → Int → δ → β) (data : β),
          t.midTravel (fun data n => f data n.key n.data) fuel data
            = some (l.foldl (fun data a => f data a.key a.data) data) := by
  obtain ⟨M, up, T, m, -, hT, hbalanced, rfl, hasc⟩ := h.stands
  have hdepth := depth_lt_of_log hbalanced hfuel
  refine ⟨hasc, fun key => search_linked hT hasc hdepth,
    fun key => lookup_linked key hT hasc hdepth, ?_, ?_,
      fun β f data => midTravel_linked hT hdepth data⟩
  · exact subtreeMin_linked hT hdepth
  · exact subtreeMax_linked hT hdepth

theorem lookup_twoNodes : twoNodes.lookup 9 4
    = some (ptrOf ((((entry 3).into ((entry 2).into [])).find? fun a => 4 ≤ a.key).or
        ((entry 3).into ((entry 2).into [])).head?)) :=
  (built_queries built_twoNodes (log_lt_nine (by decide))).2.2.1 4

/-- **The dangling link is followed**, once its cell has been freed, by exactly those insertions
that climb to the root. -/
theorem insert_dangling_iff {up : Ptr} (h : Built t l) (hne : l ≠ [])
    (hparent : t.parent t.root = some up) (hfreed : t.mem up = none) (he : t.Fresh e l)
    (hfuel : 2 * Nat.log 2 (l.length + 1) < fuel) :
    ∃ T, T.toList = l ∧ t.root = addr T ∧ Holds t.mem up T
      ∧ (t.insert fuel e.ptr = none ↔ climbs (seek e.goesLeft [] T) = true) := by
  obtain ⟨M, up', T, m, hM, hT, hbalanced, rfl, hasc⟩ := h.stands
  cases T with
  | nil => exact absurd rfl hne
  | node c l a r =>
    have hup : t.parent a.ptr = some up' :=
      Rbtree.parent_of_mem (Linked.mem_branch (C := []) (s := .left) hT)
    rw [hT.root, addr_node, hup, Option.some.injEq] at hparent
    subst hparent
    have hdetached : Detached M e (node c l a r).toList := by
      obtain ⟨n, hn, hfields⟩ := he.cell
      exact ⟨⟨n, (hT.outside _ he.notMem).symm.trans hn, hfields⟩, he.notMem, he.named⟩
    refine ⟨node c l a r, rfl, hT.root, hT.holds, ?_⟩
    exact insert_eq_none_iff hM hT hbalanced hasc hdetached (depth_lt_of_log hbalanced hfuel)
      (node_ne_nil c l a r) hfreed

theorem insert_leftNode :
    ∃ T, T.toList = (entry 2).outOf ((entry 3).into ((entry 2).into []))
      ∧ leftNode.root = addr T ∧ Holds leftNode.mem 2 T
      ∧ (leftNode.insert 9 4 = none ↔ climbs (seek (entry 4).goesLeft [] T) = true) :=
  insert_dangling_iff (e := entry 4) built_leftNode (List.cons_ne_nil _ _) rfl rfl
    (fresh_entry rfl (by decide) (by decide)) (log_lt_nine (by decide))

end Built

end Iceberg.Nginx
