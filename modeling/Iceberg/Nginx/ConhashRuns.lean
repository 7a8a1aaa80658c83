import Iceberg.Nginx.ConhashRing
import Mathlib.Data.UInt

/-!
# Histories of the consistent hash

The ring after any history of `conhash_set_node`, `conhash_add_node` and `conhash_del_node`:
every point belongs to a node that is in the ring and is one of its hashes, nothing but the
virtual nodes is allocated, and no operation follows a dead pointer. The last holds of additions
only as long as the parent link of the tree's root is in order. A deletion that leaves a single
virtual node may spoil it.
-/

namespace Iceberg.Nginx

open RedBlack RedBlack.ColorTree

section Loops

variable {s s' : Conhash} {node : Ptr} {fuel : Nat} {points : Int → Option Ptr}

theorem SameCallers.replicaHash (h : SameCallers s s') (node : Ptr) :
    s'.replicaHash node = s.replicaHash node := by
  funext i
  rw [Conhash.replicaHash, h.nodes, h.cbHashfunc]
  rfl

/-- The loop of `__conhash_add_replicas`. -/
theorem Represents.addLoop (h : Represents s points) (hfuel : 64 < fuel) (hrooted : Rooted s)
    (a : Allocator) (node : Ptr) (I : List Nat) (hroom : s.ivnodes.toNat + I.length < 2 ^ 32) :
    ∃ s' added, I.foldlM (Conhash.addReplica fuel a node) s = some s'
      ∧ Represents s' (extended points node added) ∧ Rooted s' ∧ SameCallers s s'
      ∧ added ⊆ I.map (s.replicaHash node) ∧ (a.Roomy → added = I.map (s.replicaHash node)) := by
  induction I generalizing s points with
  | nil =>
    refine ⟨s, [], rfl, ?_, hrooted, ⟨rfl, rfl⟩, List.nil_subset _, fun _ => rfl⟩
    rw [extended_nil]
    exact h
  | cons i I ih =>
    rw [List.length_cons] at hroom
    -- one replica, then the others on what it leaves
    obtain ⟨s₁, added₁, hrun₁, h₁, hrooted₁, hsame₁, hcount, hsub₁, hall₁⟩ :=
      h.addReplica hfuel hrooted (by omega) a node i
    obtain ⟨s', added, hrun, h', hrooted', hsame, hsub, hall⟩ := ih h₁ hrooted₁ (by omega)
    rw [hsame₁.replicaHash node] at hsub hall
    refine ⟨s', added₁ ++ added, ?_, ?_, hrooted', hsame₁.trans hsame, ?_, fun hroomy => ?_⟩
    · rw [List.foldlM_cons]
      show (s.addReplica fuel a node i).bind _ = _
      rw [hrun₁, Option.bind_some, hrun]
    · rw [← extended_extended]
      exact h'
    · rw [List.map_cons, ← List.singleton_append]
      exact List.append_subset.mpr ⟨fun x hx => List.mem_append_left _ (hsub₁ hx),
        fun x hx => List.mem_append_right _ (hsub hx)⟩
    · rw [hall₁ hroomy, hall hroomy]
      rfl

/-- The loop of `__conhash_del_replicas`. -/
theorem Represents.delLoop (h : Represents s points) (hfuel : 64 < fuel) (node : Ptr)
    (I : List Nat) :
    ∃ s', I.foldlM (Conhash.delReplica fuel node) s = some s'
      ∧ Represents s' (without points node (I.map (s.replicaHash node))) ∧ SameCallers s s' := by
  induction I generalizing s points with
  | nil =>
    refine ⟨s, rfl, ?_, rfl, rfl⟩
    rw [List.map_nil, without_nil]
    exact h
  | cons i I ih =>
    obtain ⟨s₁, hrun₁, h₁, hsame₁⟩ := h.delReplica hfuel node i
    obtain ⟨s', hrun, h', hsame⟩ := ih h₁
    refine ⟨s', ?_, ?_, hsame₁.trans hsame⟩
    · rw [List.foldlM_cons]
      show (s.delReplica fuel node i).bind _ = _
      rw [hrun₁, Option.bind_some, hrun]
    · rw [without_without, hsame₁.replicaHash node] at h'
      exact h'

end Loops

/-! ## The operations -/

/-- `|= NODE_FLAG_IN` sets the flag. -/
theorem flagIn_of_or (flag : UInt32) : (flag ||| flagIn) &&& flagIn = flagIn := by
  apply UInt32.toBitVec_inj.1
  ext i hi
  simp [flagIn]
  grind

/-- It leaves the other one. -/
theorem flagInit_of_or (flag : UInt32) : (flag ||| flagIn) &&& flagInit = flag &&& flagInit := by
  apply UInt32.toBitVec_inj.1
  ext i hi
  simp [flagIn, flagInit, Bool.and_or_distrib_right]
  rcases i with _ | _ | i <;> simp

theorem flagIn_of_clear (flag : UInt32) : (flag &&& ~~~flagIn) &&& flagIn = 0 := by
  rw [UInt32.and_assoc, UInt32.not_and_self, UInt32.and_zero]

/-- The node is in the ring. -/
def Conhash.IsIn (s : Conhash) (node : Ptr) : Prop :=
  node ≠ nullPtr ∧ (s.nodes node).flag &&& flagInit ≠ 0 ∧ (s.nodes node).flag &&& flagIn ≠ 0

/-- The node may be added to the ring. -/
def Conhash.Ready (s : Conhash) (node : Ptr) : Prop :=
  node ≠ nullPtr ∧ (s.nodes node).flag &&& flagInit ≠ 0 ∧ (s.nodes node).flag &&& flagIn = 0

/-- Every point belongs to a node that is in the ring, and is one of its hashes. -/
def Owned (s : Conhash) (points : Int → Option Ptr) : Prop :=
  ∀ h node, points h = some node → s.IsIn node ∧ h ∈ s.hashes node

section Operations

variable {s : Conhash} {node : Ptr} {fuel : Nat} {points : Int → Option Ptr}

/-- A mark at a node is no change of the ring. -/
theorem Represents.of_eq {s' : Conhash} (h : Represents s points)
    (htree : s'.vnodeTree = s.vnodeTree) (hcount : s'.ivnodes = s.ivnodes) :
    Represents s' points := by
  obtain ⟨up, T, hs, hmaps⟩ := h
  exact ⟨up, T, ⟨htree ▸ hs.linked, hs.balanced, hs.ascending, hs.data, hcount ▸ hs.ivnodes,
    hs.few, hs.top⟩, hmaps⟩

/-- **`conhash_add_node`.** The node gets those of its points that are free and for which there
is memory. -/
theorem Represents.addNode (h : Represents s points) (hfuel : 64 < fuel) (hrooted : Rooted s)
    (hroom : s.ivnodes.toNat + (s.nodes node).replicas.toNat < 2 ^ 32) (a : Allocator)
    (hready : s.Ready node) :
    ∃ s' added, s.addNode fuel a node = some (0, s')
      ∧ Represents s' (extended points node added) ∧ Rooted s'
      ∧ SameCallers (s.setFlag node ((s.nodes node).flag ||| flagIn)) s'
      ∧ added ⊆ s.hashes node ∧ (a.Roomy → added = s.hashes node) := by
  obtain ⟨hnull, hinit, hout⟩ := hready
  let s₀ := s.setFlag node ((s.nodes node).flag ||| flagIn)
  have hnode : s₀.nodes node = { s.nodes node with flag := (s.nodes node).flag ||| flagIn } :=
    Conhash.nodes_setFlag_self ..
  -- the flag changes no hash
  have hhash : s₀.replicaHash node = s.replicaHash node := by
    funext i
    rw [Conhash.replicaHash, hnode]
    rfl
  have h₀ : Represents s₀ points := h.of_eq rfl rfl
  obtain ⟨s', added, hrun, h', hrooted', hsame, hsub, hall⟩ := h₀.addLoop hfuel hrooted a node
    (List.range (s₀.nodes node).replicas.toNat) (by
      rw [List.length_range, hnode]
      exact hroom)
  rw [hhash, hnode] at hsub hall
  refine ⟨s', added, ?_, h', hrooted', hsame, hsub, hall⟩
  rw [Conhash.addNode, if_neg hnull]
  simp only [hinit, hout, ne_eq, not_true_eq_false, or_self, if_false]
  show (s₀.addReplicas fuel a node).bind _ = _
  rw [Conhash.addReplicas, hrun]
  rfl

/-- **A node that is not ready** is refused, and nothing changes. -/
theorem addNode_refused (h : ¬s.Ready node) (a : Allocator) :
    s.addNode fuel a node = some (-1, s) := by
  rw [Conhash.addNode]
  by_cases hnull : node = nullPtr
  · exact if_pos hnull
  · rw [if_neg hnull]
    refine if_pos ?_
    by_contra hflags
    rw [not_or, not_not] at hflags
    exact h ⟨hnull, hflags⟩

/-- **`conhash_del_node`.** The node loses all its points. -/
theorem Represents.delNode (h : Represents s points) (hfuel : 64 < fuel) (hin : s.IsIn node) :
    ∃ s', s.delNode fuel node = some (0, s')
      ∧ Represents s' (without points node (s.hashes node))
      ∧ SameCallers (s.setFlag node ((s.nodes node).flag &&& ~~~flagIn)) s' := by
  obtain ⟨hnull, hinit, hmark⟩ := hin
  let s₀ := s.setFlag node ((s.nodes node).flag &&& ~~~flagIn)
  have hnode : s₀.nodes node = { s.nodes node with flag := (s.nodes node).flag &&& ~~~flagIn } :=
    Conhash.nodes_setFlag_self ..
  -- the flag changes no hash
  have hhash : s₀.replicaHash node = s.replicaHash node := by
    funext i
    rw [Conhash.replicaHash, hnode]
    rfl
  have h₀ : Represents s₀ points := h.of_eq rfl rfl
  obtain ⟨s', hrun, h', hsame⟩ :=
    h₀.delLoop hfuel node (List.range (s₀.nodes node).replicas.toNat)
  rw [hhash] at h'
  refine ⟨s', ?_, ?_, hsame⟩
  · rw [Conhash.delNode, if_neg hnull]
    simp only [hinit, hmark, or_self, if_false]
    show (s₀.delReplicas fuel node).bind _ = _
    rw [Conhash.delReplicas, hrun]
    rfl
  · rw [hnode] at h'
    exact h'

/-- **A node that is not in the ring** is refused, and nothing changes. -/
theorem delNode_refused (h : ¬s.IsIn node) : s.delNode fuel node = some (-1, s) := by
  rw [Conhash.delNode]
  by_cases hnull : node = nullPtr
  · exact if_pos hnull
  · rw [if_neg hnull]
    refine if_pos ?_
    by_contra hflags
    rw [not_or] at hflags
    exact h ⟨hnull, hflags⟩

end Operations

/-! ## What a history keeps -/

section Marks

variable {s s' : Conhash} {node node' : Ptr} {flag : UInt32} {points : Int → Option Ptr}

/-- The hashes of a node do not depend on its flags. -/
theorem hashes_setFlag (s : Conhash) (node node' : Ptr) (flag : UInt32) :
    (s.setFlag node flag).hashes node' = s.hashes node' := by
  by_cases heq : node' = node
  · subst heq
    unfold Conhash.hashes Conhash.replicaHash
    rw [Conhash.nodes_setFlag_self]
    rfl
  · unfold Conhash.hashes Conhash.replicaHash
    rw [Conhash.nodes_setFlag_of_ne heq]
    rfl

theorem SameCallers.hashes (h : SameCallers s s') (node : Ptr) :
    s'.hashes node = s.hashes node := by
  rw [Conhash.hashes, h.replicaHash, h.nodes]
  rfl

theorem SameCallers.isIn (h : SameCallers s s') (node : Ptr) : s'.IsIn node ↔ s.IsIn node := by
  rw [Conhash.IsIn, Conhash.IsIn, h.nodes]

theorem isIn_setFlag_of_ne (h : node' ≠ node) :
    (s.setFlag node flag).IsIn node' ↔ s.IsIn node' := by
  rw [Conhash.IsIn, Conhash.IsIn, Conhash.nodes_setFlag_of_ne h]

/-- Once its flag is set, a node that was ready is in the ring. -/
theorem Conhash.Ready.isIn (h : s.Ready node) :
    (s.setFlag node ((s.nodes node).flag ||| flagIn)).IsIn node := by
  rw [Conhash.IsIn, Conhash.nodes_setFlag_self]
  refine ⟨h.1, ?_, ?_⟩
  · rw [flagInit_of_or]
    exact h.2.1
  · rw [flagIn_of_or]
    decide

theorem not_isIn_cleared (s : Conhash) (node : Ptr) :
    ¬(s.setFlag node ((s.nodes node).flag &&& ~~~flagIn)).IsIn node := by
  rw [Conhash.IsIn, Conhash.nodes_setFlag_self]
  exact fun hin => hin.2.2 (flagIn_of_clear _)

theorem Conhash.Ready.not_isIn (h : s.Ready node) : ¬s.IsIn node := fun hin => hin.2.2 h.2.2

/-- The other nodes do not notice. -/
theorem setNode_of_ne (h : node' ≠ node) (s : Conhash) (iden : Bytes) (replica : UInt32) :
    ((s.setNode node iden replica).IsIn node' ↔ s.IsIn node')
      ∧ (s.setNode node iden replica).hashes node' = s.hashes node' := by
  constructor
  · rw [Conhash.IsIn, Conhash.IsIn, Conhash.nodes_setNode_of_ne h]
  · unfold Conhash.hashes Conhash.replicaHash
    rw [Conhash.nodes_setNode_of_ne h]
    rfl

/-- To set a node that is not in the ring leaves every place with its owner. -/
theorem Owned.setNode (h : Owned s points) (hout : ¬s.IsIn node) (iden : Bytes)
    (replica : UInt32) : Owned (s.setNode node iden replica) points := by
  intro x node' hpoint
  obtain ⟨hin, hhash⟩ := h x node' hpoint
  have hne : node' ≠ node := fun heq => hout (heq ▸ hin)
  obtain ⟨hisIn, hhashes⟩ := setNode_of_ne hne s iden replica
  rw [hisIn, hhashes]
  exact ⟨hin, hhash⟩

/-- The new places belong to the node that was added. -/
theorem Owned.addNode {added : List Int} (h : Owned s points) (hready : s.Ready node)
    (hsame : SameCallers (s.setFlag node ((s.nodes node).flag ||| flagIn)) s')
    (hadded : added ⊆ s.hashes node) : Owned s' (extended points node added) := by
  intro x node' hpoint
  rw [hsame.isIn, hsame.hashes, hashes_setFlag]
  rw [extended] at hpoint
  cases hold : points x with
  | some node₀ =>
    rw [hold, Option.some_or, Option.some.injEq] at hpoint
    subst hpoint
    obtain ⟨hin, hhash⟩ := h x node₀ hold
    have hne : node₀ ≠ node := fun heq => hready.not_isIn (heq ▸ hin)
    exact ⟨(isIn_setFlag_of_ne hne).mpr hin, hhash⟩
  | none =>
    rw [hold, Option.none_or] at hpoint
    split at hpoint
    · next hin =>
      obtain rfl := Option.some.inj hpoint
      exact ⟨hready.isIn, hadded hin⟩
    · cases hpoint

/-- The places that are left belong to other nodes. -/
theorem Owned.delNode (h : Owned s points)
    (hsame : SameCallers (s.setFlag node ((s.nodes node).flag &&& ~~~flagIn)) s') :
    Owned s' (without points node (s.hashes node)) := by
  intro x node' hpoint
  rw [hsame.isIn, hsame.hashes, hashes_setFlag]
  rw [without] at hpoint
  split at hpoint
  · cases hpoint
  · next hkept =>
    obtain ⟨hin, hhash⟩ := h x node' hpoint
    have hne : node' ≠ node := fun heq => hkept ⟨heq ▸ hhash, heq ▸ hpoint⟩
    exact ⟨(isIn_setFlag_of_ne hne).mpr hin, hhash⟩

end Marks

/-- **`conhash_init`** makes a ring without places. -/
theorem represents_init {hash : Bytes → Int} {nodes : Ptr → Node} :
    ∃ s, Conhash.init hash nodes = some s ∧ Represents s (fun _ => none)
      ∧ s.nodes = nodes ∧ s.cbHashfunc = hash := by
  let g : Cell := { zeroCell with color := 1 }
  let t : Rbtree (Option VirtualNode) := ⟨sentinel, 0, bare g⟩
  refine ⟨⟨t, 0, hash, nodes⟩, ?_, ⟨sentinel, .nil, ⟨⟨g, rfl, rfl, trivial, .nil,
    fun _ hp => absurd hp List.not_mem_nil, fun _ _ => rfl, rfl⟩, ⟨0, .nil⟩, .nil,
    fun _ ha => absurd ha List.not_mem_nil, rfl, by decide, Or.inl rfl⟩, ?_⟩, rfl, rfl⟩
  · have hzero : (Function.update (fun _ => none) sentinel (some zeroCell) : Ptr → Option Cell)
        sentinel = some zeroCell := by simp only [Function.update_self]
    rw [Conhash.init, Rbtree.init]
    simp only [Option.bind_eq_bind]
    rw [Rbtree.paint, Rbtree.set_of_mem hzero]
    show some (Conhash.mk ⟨sentinel, 0, Function.update (Function.update _ _ _) _ _⟩ 0 hash nodes)
      = _
    rw [Function.update_idem]
    rfl
  · intro h node
    refine iff_of_false (Option.some_ne_none node).symm ?_
    rintro ⟨a, ha, -⟩
    cases ha

theorem ivnodes_init {hash : Bytes → Int} {nodes : Ptr → Node} {s : Conhash}
    (hrun : Conhash.init hash nodes = some s) : s.ivnodes = 0 := by
  rw [Conhash.init, Option.bind_eq_bind, Option.bind_eq_some_iff] at hrun
  obtain ⟨t, -, hs⟩ := hrun
  rw [← Option.some.inj hs]

/-- The states that a history of calls leads to. No node is in the ring at first, a node in the
ring is not set anew, there are fewer than `2 ^ 32` virtual nodes, and the additions are
`allowed`. Nothing is added where a deletion has left a single virtual node with a dangling
link. -/
inductive Reaches (fuel : Nat) (hash : Bytes → Int)
    (allowed : Conhash → Allocator → Ptr → Prop) : Conhash → Prop
  | init {nodes : Ptr → Node} {s : Conhash} (hnodes : ∀ p, (nodes p).flag &&& flagIn = 0)
      (hrun : Conhash.init hash nodes = some s) : Reaches fuel hash allowed s
  | setNode {s : Conhash} (h : Reaches fuel hash allowed s) (node : Ptr) (iden : Bytes)
      (replica : UInt32) (hout : ¬s.IsIn node) :
      Reaches fuel hash allowed (s.setNode node iden replica)
  | addNode {s s' : Conhash} {result : Int} (h : Reaches fuel hash allowed s) (a : Allocator)
      (node : Ptr) (hone : s.ivnodes = 1 → Rooted s)
      (hroom : s.ivnodes.toNat + (s.nodes node).replicas.toNat < 2 ^ 32)
      (hallowed : allowed s a node) (hrun : s.addNode fuel a node = some (result, s')) :
      Reaches fuel hash allowed s'
  | delNode {s s' : Conhash} {result : Int} (h : Reaches fuel hash allowed s) (node : Ptr)
      (hrun : s.delNode fuel node = some (result, s')) : Reaches fuel hash allowed s'

section Histories

variable {fuel : Nat} {hash : Bytes → Int} {allowed : Conhash → Allocator → Ptr → Prop}
  {s : Conhash} {points : Int → Option Ptr}

/-- A ring of no or several virtual nodes has no dangling link. -/
theorem Represents.rooted (h : Represents s points) (hone : s.ivnodes = 1 → Rooted s) :
    Rooted s := by
  by_cases heq : s.ivnodes = 1
  · exact hone heq
  · obtain ⟨up, T, hs, -⟩ := h
    exact hs.rooted heq

/-- A property of the marks and the points that the operations keep holds after every history. -/
theorem Reaches.induct {I : Conhash → (Int → Option Ptr) → Prop} (hfuel : 64 < fuel)
    (h : Reaches fuel hash allowed s)
    (hinit : ∀ s : Conhash, (∀ p, (s.nodes p).flag &&& flagIn = 0) → I s fun _ => none)
    (hset : ∀ (s : Conhash) points node iden replica, I s points → ¬s.IsIn node →
      I (s.setNode node iden replica) points)
    (hadd : ∀ (s s' : Conhash) points node a added, I s points → s.Ready node → allowed s a node →
      SameCallers (s.setFlag node ((s.nodes node).flag ||| flagIn)) s' →
      added ⊆ s.hashes node → (a.Roomy → added = s.hashes node) →
      I s' (extended points node added))
    (hdel : ∀ (s s' : Conhash) points node, I s points → s.IsIn node →
      SameCallers (s.setFlag node ((s.nodes node).flag &&& ~~~flagIn)) s' →
      I s' (without points node (s.hashes node))) :
    ∃ points, Represents s points ∧ I s points ∧ s.cbHashfunc = hash := by
  induction h with
  | @init nodes s hnodes hrun =>
    obtain ⟨s₀, hrun₀, hrep, hsame, hhash⟩ := @represents_init hash nodes
    obtain rfl : s₀ = s := Option.some.inj (hrun₀.symm.trans hrun)
    exact ⟨_, hrep, hinit s₀ (hsame.symm ▸ hnodes), hhash⟩
  | setNode _ node iden replica hout ih =>
    obtain ⟨points, hrep, hI, hhash⟩ := ih
    -- setting a node that is out changes no point
    exact ⟨points, hrep.of_eq rfl rfl, hset _ _ node iden replica hI hout, hhash⟩
  | @addNode s s' result _ a node hone hroom hallowed hrun ih =>
    obtain ⟨points, hrep, hI, hhash⟩ := ih
    -- a node that is added, or refused
    by_cases hready : s.Ready node
    · obtain ⟨s₁, added, hrun₁, hrep₁, -, hsame, hsub, hall⟩ :=
        hrep.addNode hfuel (hrep.rooted hone) hroom a hready
      obtain rfl : s₁ = s' := congrArg Prod.snd (Option.some.inj (hrun₁.symm.trans hrun))
      exact ⟨_, hrep₁, hadd s s₁ points node a added hI hready hallowed hsame hsub hall,
        hsame.cbHashfunc.trans hhash⟩
    · rw [addNode_refused hready a] at hrun
      obtain rfl : s = s' := congrArg Prod.snd (Option.some.inj hrun)
      exact ⟨points, hrep, hI, hhash⟩
  | @delNode s s' result _ node hrun ih =>
    obtain ⟨points, hrep, hI, hhash⟩ := ih
    -- a node that is deleted, or refused
    by_cases hin : s.IsIn node
    · obtain ⟨s₁, hrun₁, hrep₁, hsame⟩ := hrep.delNode hfuel hin
      obtain rfl : s₁ = s' := congrArg Prod.snd (Option.some.inj (hrun₁.symm.trans hrun))
      exact ⟨_, hrep₁, hdel s s₁ points node hI hin hsame, hsame.cbHashfunc.trans hhash⟩
    · rw [delNode_refused hin] at hrun
      obtain rfl : s = s' := congrArg Prod.snd (Option.some.inj hrun)
      exact ⟨points, hrep, hI, hhash⟩

/-- The ring after any history. -/
theorem Reaches.owned (hfuel : 64 < fuel) (h : Reaches fuel hash allowed s) :
    ∃ points, Represents s points ∧ Owned s points ∧ s.cbHashfunc = hash :=
  h.induct hfuel (fun _ _ _ _ hpoint => absurd hpoint.symm (Option.some_ne_none _))
    (fun _ _ _ iden replica hI hout => hI.setNode hout iden replica)
    (fun _ _ _ _ _ _ hI hready _ hsame hsub _ => hI.addNode hready hsame hsub)
    (fun _ _ _ _ hI _ hsame => hI.delNode hsame)

end Histories

end Iceberg.Nginx
