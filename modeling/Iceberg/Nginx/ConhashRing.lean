import Iceberg.Lib.Ring
import Iceberg.Nginx.Conhash
import Iceberg.Nginx.RbtreeRuns

/-!
# The ring of the consistent hash

What the tree of the virtual nodes stands for is a finite map from hashes to nodes. `Represents`
says that it does, and that the memory holds nothing else; each operation of the source is then
an operation on the map.
-/

namespace Iceberg.Nginx

open RedBlack RedBlack.ColorTree

/-! ## What the tree stands for -/

/-- Memory with the sentinel and nothing else. -/
def bare (g : Cell) : Ptr → Option Cell := Function.update (fun _ => none) sentinel (some g)

theorem ground_bare {g : Cell} (hg : g.color = 1) : Ground (bare g) :=
  ⟨Function.update_of_ne (by decide) .., g, Function.update_self .., hg⟩

/-- The entries of the virtual nodes. -/
abbrev Vnodes := List (Entry (Option VirtualNode))

/-- The tree `T` of virtual nodes is in memory, and nothing else is. -/
structure Sound (s : Conhash) (up : Ptr) (T : ColorTree (Entry (Option VirtualNode))) : Prop where
  linked : ∃ g, g.color = 1 ∧ Linked (bare g) (UInt32.ofNat T.toList.length) s.vnodeTree up T
  balanced : ∃ m, T.Balanced .black m
  ascending : T.toList.Pairwise fun a b => a.key < b.key
  data : ∀ a ∈ T.toList, ∃ node, a.data = some ⟨a.key, node⟩
  ivnodes : s.ivnodes = UInt32.ofNat T.toList.length
  few : T.toList.length < 2 ^ 32
  /-- Only a single node may have a dangling parent link. -/
  top : up = sentinel ∨ T.toList.length ≤ 1

/-- The map of the virtual nodes. -/
def Maps (l : Vnodes) (points : Int → Option Ptr) : Prop :=
  ∀ h node, points h = some node ↔ ∃ a ∈ l, a.key = h ∧ a.data = some ⟨h, node⟩

/-- The tree stands for the points. -/
def Represents (s : Conhash) (points : Int → Option Ptr) : Prop :=
  ∃ up T, Sound s up T ∧ Maps T.toList points

/-- The root's parent link is in order. -/
def Rooted (s : Conhash) : Prop :=
  s.vnodeTree.root = sentinel ∨ s.vnodeTree.parent s.vnodeTree.root = some sentinel

namespace Sound

variable {s : Conhash} {up : Ptr} {T : ColorTree (Entry (Option VirtualNode))} {fuel : Nat}

theorem ascending_le (h : Sound s up T) : Ascending T.toList :=
  h.ascending.imp fun hab => Int.le_of_lt hab

theorem toNat_ivnodes (h : Sound s up T) : s.ivnodes.toNat = T.toList.length := by
  rw [h.ivnodes, UInt32.toNat_ofNat']
  exact Nat.mod_eq_of_lt h.few

/-- The walks are short. -/
theorem depth_lt (h : Sound s up T) (hfuel : 64 < fuel) : T.depth < fuel := by
  obtain ⟨m, hm⟩ := h.balanced
  have hlog : Nat.log 2 (T.toList.length + 1) ≤ 32 := by
    have hmono : Nat.log 2 (T.toList.length + 1) ≤ Nat.log 2 (2 ^ 32) :=
      Nat.log_mono_right h.few
    rwa [Nat.log_pow (by decide)] at hmono
  have := hm.depth_le_log
  omega

/-- Two nodes of the tree with one key are one. -/
theorem eq_of_key (h : Sound s up T) {a b : Entry (Option VirtualNode)} (ha : a ∈ T.toList)
    (hb : b ∈ T.toList) (hab : a.key = b.key) : a = b := by
  have hnodup : (T.toList.map Entry.key).Nodup :=
    List.pairwise_map.mpr (h.ascending.imp fun hab => Int.ne_of_lt hab)
  exact List.inj_on_of_nodup_map hnodup ha hb hab

/-- The search for a hash. -/
theorem search (h : Sound s up T) (hfuel : 64 < fuel) (key : Int) :
    ∃ found, s.vnodeTree.search fuel key = some (ptrOf found)
      ∧ (∀ a ∈ found, a ∈ T.toList ∧ a.key = key)
      ∧ (found = none → ∀ a ∈ T.toList, a.key ≠ key) := by
  obtain ⟨g, -, hlinked⟩ := h.linked
  exact search_linked hlinked h.ascending_le (h.depth_lt hfuel)

/-- Only a tree that is not empty can have a dangling link. -/
theorem rooted_iff (h : Sound s up T) : Rooted s ↔ T = .nil ∨ up = sentinel := by
  obtain ⟨g, -, hlinked⟩ := h.linked
  rw [Rooted, hlinked.root_eq_sentinel]
  cases T with
  | nil => exact iff_of_true (Or.inl rfl) (Or.inl rfl)
  | node c l a r =>
    have hparent : s.vnodeTree.parent a.ptr = some up :=
      Rbtree.parent_of_mem (Linked.mem_branch (C := []) (s := .left) hlinked)
    rw [hlinked.root, addr_node, hparent, Option.some.injEq]

/-- With any other number of virtual nodes than one, nothing dangles. -/
theorem rooted (h : Sound s up T) (hone : s.ivnodes ≠ 1) : Rooted s := by
  rcases h.top with hup | hle
  · exact h.rooted_iff.mpr (Or.inr hup)
  · refine h.rooted_iff.mpr (Or.inl ?_)
    have hlength : T.toList.length ≠ 1 := fun heq => hone (by rw [h.ivnodes, heq]; rfl)
    cases T with
    | nil => rfl
    | node c l a r =>
      simp only [toList_node, List.length_append, List.length_cons] at hle hlength
      omega

end Sound

/-! ## A virtual node is added -/

/-- A new key goes between the smaller and the greater ones. -/
theorem strict_into {δ : Type} {e : Entry δ} {l : List (Entry δ)}
    (h : l.Pairwise fun a b => a.key < b.key) (hne : ∀ a ∈ l, a.key ≠ e.key) :
    (e.into l).Pairwise fun a b => a.key < b.key := by
  have hless : ∀ a ∈ l.filter fun a => !e.goesLeft a, a.key < e.key := by
    intro a ha
    obtain ⟨ha, hleft⟩ := List.mem_filter.mp ha
    have := hne a ha
    simp only [Entry.goesLeft, Bool.not_eq_true', decide_eq_false_iff_not] at hleft
    omega
  have hgreater : ∀ a ∈ l.filter e.goesLeft, e.key < a.key := by
    intro a ha
    exact of_decide_eq_true (List.mem_filter.mp ha).2
  refine List.pairwise_append.mpr ⟨h.filter _, List.pairwise_cons.mpr ⟨hgreater, h.filter _⟩, ?_⟩
  intro a ha b hb
  rcases List.mem_cons.mp hb with rfl | hb
  · exact hless a ha
  · exact Int.lt_trans (hless a ha) (hgreater b hb)

/-- The points with those of a node among `added`, as far as their places are free. -/
def extended (points : Int → Option Ptr) (node : Ptr) (added : List Int) : Int → Option Ptr :=
  fun h => (points h).or (if h ∈ added then some node else none)

/-- The points without those of a node among `removed`. -/
def without (points : Int → Option Ptr) (node : Ptr) (removed : List Int) : Int → Option Ptr :=
  fun h => if h ∈ removed ∧ points h = some node then none else points h

section Steps

variable {s : Conhash} {up node : Ptr} {T : ColorTree (Entry (Option VirtualNode))} {fuel i : Nat}
  {points : Int → Option Ptr}

/-- A key that no node has is not taken. -/
theorem Maps.eq_none (h : Maps T.toList points) {key : Int} (hs : Sound s up T) :
    points key = none ↔ ∀ a ∈ T.toList, a.key ≠ key := by
  constructor
  · intro hnone a ha hkey
    obtain ⟨n, hn⟩ := hs.data a ha
    have := (h key n).mpr ⟨a, ha, hkey, hkey ▸ hn⟩
    rw [hnone] at this
    cases this
  · intro hnot
    cases hpoint : points key with
    | none => rfl
    | some n =>
      obtain ⟨a, ha, hkey, -⟩ := (h key n).mp hpoint
      exact absurd hkey (hnot a ha)

/-- The insertion of a new virtual node. -/
theorem Sound.insert {hash : Int} {p : Ptr} {n : Cell} (h : Sound s up T) (node : Ptr)
    (hfuel : 64 < fuel) (hup : T = .nil ∨ up = sentinel) (hroom : T.toList.length + 1 < 2 ^ 32)
    (hp : p ≠ nullPtr) (hfree : s.vnodeTree.mem p = none) (hnew : ∀ a ∈ T.toList, a.key ≠ hash) :
    ∃ t' T', Rbtree.insert fuel { s.vnodeTree with
          mem := Function.update s.vnodeTree.mem p (some { n with
            key := hash, data := some ⟨hash, node⟩ }) } p = some t'
      ∧ Sound { s with vnodeTree := t', ivnodes := s.ivnodes + 1 } sentinel T'
      ∧ T'.toList = Entry.into ⟨p, hash, some ⟨hash, node⟩⟩ T.toList := by
  obtain ⟨g, hg, hlinked⟩ := h.linked
  obtain ⟨m, hm⟩ := h.balanced
  let e : Entry (Option VirtualNode) := ⟨p, hash, some ⟨hash, node⟩⟩
  have hnot : p ∉ ptrs T.toList := hlinked.not_mem_of_none hfree
  -- a free address is not the sentinel's
  have hps : p ≠ sentinel := by
    rintro rfl
    rw [hlinked.mem_sentinel, bare, Function.update_self] at hfree
    cases hfree
  have htop : Linked (bare g) (UInt32.ofNat T.toList.length) s.vnodeTree sentinel T := by
    rcases hup with rfl | rfl
    · exact hlinked.relink_nil _
    · exact hlinked
  -- the new cell lies outside the tree
  have halloc := htop.update hnot (some { n with key := hash, data := some ⟨hash, node⟩ })
  have hM : Ground (Function.update (bare g) p
      (some { n with key := hash, data := some ⟨hash, node⟩ })) := by
    refine ⟨?_, g, ?_, hg⟩
    · rw [Function.update_of_ne hp.symm, (ground_bare hg).null]
    · rw [Function.update_of_ne hps.symm, bare, Function.update_self]
  have hdetached : Detached (Function.update (bare g) p (some { n with
      key := hash, data := some ⟨hash, node⟩ })) e T.toList :=
    ⟨⟨{ n with key := hash, data := some ⟨hash, node⟩ }, Function.update_self .., rfl, rfl⟩,
      hnot, hp, hps⟩
  obtain ⟨t', T', hrun, h', hlist, hbalanced⟩ := insert_linked hM halloc hm h.ascending_le hdetached
    (h.depth_lt hfuel) fun _ => rfl
  -- the count of virtual nodes goes up with the tree
  have hlength : T'.toList.length = T.toList.length + 1 := by
    rw [hlist, (perm_into e T.toList).length_eq, List.length_cons]
  refine ⟨t', T', hrun, ⟨⟨g, hg, ?_⟩, hbalanced, ?_, fun a ha => ?_, ?_, ?_, Or.inl rfl⟩, hlist⟩
  · rw [hlength, UInt32.ofNat_add]
    refine h'.outside_congr fun q hq => Function.update_of_ne (fun hqp => hq ?_) ..
    rw [hqp, hlist]
    exact List.mem_map_of_mem (f := Entry.ptr) (mem_into.mpr (Or.inl rfl))
  · rw [hlist]
    exact strict_into h.ascending hnew
  · rw [hlist] at ha
    rcases mem_into.mp ha with rfl | ha
    · exact ⟨node, rfl⟩
    · exact h.data a ha
  · show s.ivnodes + 1 = _
    rw [h.ivnodes, hlength, UInt32.ofNat_add]
    rfl
  · omega

theorem mem_outOf {a b : Entry (Option VirtualNode)} {l : Vnodes} :
    b ∈ a.outOf l ↔ b ∈ l ∧ b.ptr ≠ a.ptr := by
  rw [Entry.outOf, List.mem_filter, decide_eq_true_eq]

/-- A virtual node leaves the tree, and its cell is freed. -/
theorem Sound.remove {a : Entry (Option VirtualNode)} (h : Sound s up T) (hfuel : 64 < fuel)
    (ha : a ∈ T.toList) :
    ∃ t₁ t₂ up' T', s.vnodeTree.delete fuel a.ptr = some t₁
      ∧ Conhash.delRbnode t₁ a.ptr = some t₂
      ∧ Sound { s with vnodeTree := t₂, ivnodes := s.ivnodes - 1 } up' T'
      ∧ T'.toList = a.outOf T.toList := by
  obtain ⟨g, hg, hlinked⟩ := h.linked
  obtain ⟨m, hm⟩ := h.balanced
  obtain ⟨t₁, hrun, M', T', h', hremoved, hlist, hbalanced⟩ :=
    delete_linked (ground_bare hg) hlinked hm ha (h.depth_lt hfuel)
  -- the deleted node is outside the tree, so it can be freed
  have hnot : a.ptr ∉ ptrs T'.toList := by
    intro hin
    obtain ⟨b, hb, hptr⟩ := List.mem_map.mp hin
    rw [hlist] at hb
    exact (mem_outOf.mp hb).2 hptr
  obtain ⟨n, hn⟩ := Option.isSome_iff_exists.mp hremoved.live
  have hfree : Conhash.delRbnode t₁ a.ptr
      = some { t₁ with mem := Function.update t₁.mem a.ptr none } := by
    rw [Conhash.delRbnode, h'.outside _ hnot, hn, Option.map_some]
  obtain ⟨g', hg', hblack⟩ := hremoved.ground.sentinel
  have hne := (hlinked.named _ (List.mem_map_of_mem (f := Entry.ptr) ha)).2
  have hlength : T'.toList.length + 1 = T.toList.length := by
    rw [hlist]
    exact length_outOf hlinked.apart ha
  refine ⟨t₁, _, upAfter up T a, T', hrun, hfree,
    ⟨⟨g', hblack, ?_⟩, hbalanced, ?_, fun b hb => ?_, ?_, ?_, ?_⟩, hlist⟩
  · have hsize : UInt32.ofNat T'.toList.length = UInt32.ofNat T.toList.length - 1 := by
      rw [← hlength, UInt32.ofNat_add]
      exact (UInt32.add_sub_cancel ..).symm
    rw [hsize]
    refine (h'.update hnot none).outside_congr fun p _ => ?_
    -- the freed cell, the sentinel, and every other cell
    by_cases hpa : p = a.ptr
    · rw [hpa, Function.update_self, bare, Function.update_of_ne hne]
    · rw [Function.update_of_ne hpa]
      by_cases hps : p = sentinel
      · rw [hps, hg', bare, Function.update_self]
      · rw [hremoved.other p hps hpa, bare, bare, Function.update_of_ne hps,
          Function.update_of_ne hps]
  · rw [hlist]
    exact h.ascending.filter _
  · rw [hlist] at hb
    exact h.data b (mem_outOf.mp hb).1
  · show s.ivnodes - 1 = _
    rw [h.ivnodes, ← hlength, UInt32.ofNat_add]
    exact UInt32.add_sub_cancel ..
  · have := h.few
    omega
  · -- a parent link that is left dangling belongs to the last node but one
    rw [upAfter]
    split
    · next hcond =>
      right
      omega
    · rcases h.top with hup | hle
      · exact Or.inl hup
      · right
        omega

/-! ## Rounds -/

/-- What no change of the ring touches. -/
structure SameCallers (s s' : Conhash) : Prop where
  nodes : s'.nodes = s.nodes
  cbHashfunc : s'.cbHashfunc = s.cbHashfunc

theorem SameCallers.trans {s s' s'' : Conhash} (h : SameCallers s s') (h' : SameCallers s' s'') :
    SameCallers s s'' :=
  ⟨h'.nodes.trans h.nodes, h'.cbHashfunc.trans h.cbHashfunc⟩

/-- The hash of a virtual node. -/
def Conhash.replicaHash (s : Conhash) (node : Ptr) (i : Nat) : Int :=
  s.cbHashfunc (node2string (s.nodes node) i)

/-- The hashes of all virtual nodes of a node. -/
def Conhash.hashes (s : Conhash) (node : Ptr) : List Int :=
  (List.range (s.nodes node).replicas.toNat).map (s.replicaHash node)

theorem extended_nil (points : Int → Option Ptr) (node : Ptr) :
    extended points node [] = points := by
  funext h
  rw [extended, if_neg List.not_mem_nil, Option.or_none]

/-- Two additions for one node are one addition of all the places. -/
theorem extended_extended (points : Int → Option Ptr) (node : Ptr) (l l' : List Int) :
    extended (extended points node l) node l' = extended points node (l ++ l') := by
  funext h
  simp only [extended, List.mem_append, Option.or_assoc]
  congr 1
  by_cases hl : h ∈ l
  · rw [if_pos hl, if_pos (Or.inl hl), Option.some_or]
  · by_cases hl' : h ∈ l'
    · rw [if_neg hl, if_pos hl', if_pos (Or.inr hl'), Option.none_or]
    · rw [if_neg hl, if_neg hl', if_neg (not_or.mpr ⟨hl, hl'⟩), Option.none_or]

/-- A place that is taken is not added. -/
theorem extended_of_isSome {h : Int} {node' : Ptr} (hpoint : points h = some node') :
    extended points node [h] = points := by
  funext h'
  rw [extended]
  by_cases heq : h' = h
  · rw [heq, hpoint, Option.some_or]
  · rw [if_neg (by simpa using heq), Option.or_none]

theorem without_pos {h : Int} {l : List Int} (hin : h ∈ l ∧ points h = some node) :
    without points node l h = none := if_pos hin

theorem without_neg {h : Int} {l : List Int} (hin : ¬(h ∈ l ∧ points h = some node)) :
    without points node l h = points h := if_neg hin

theorem without_nil (points : Int → Option Ptr) (node : Ptr) :
    without points node [] = points := by
  funext h
  exact without_neg fun hin => List.not_mem_nil hin.1

/-- Two deletions for one node are one deletion of all the places. -/
theorem without_without (points : Int → Option Ptr) (node : Ptr) (l l' : List Int) :
    without (without points node l) node l' = without points node (l ++ l') := by
  funext h
  by_cases hl : h ∈ l ∧ points h = some node
  · have hgone := without_pos hl
    rw [without_pos ⟨List.mem_append_left _ hl.1, hl.2⟩, without_neg, hgone]
    rw [hgone]
    exact fun hin => absurd hin.2.symm (Option.some_ne_none node)
  · have hkept := without_neg hl
    by_cases hl' : h ∈ l' ∧ points h = some node
    · rw [without_pos ⟨hl'.1, hkept.trans hl'.2⟩,
        without_pos ⟨List.mem_append_right _ hl'.1, hl'.2⟩]
    · rw [without_neg, hkept, without_neg]
      · rintro ⟨hin, hpoint⟩
        rcases List.mem_append.mp hin with hin | hin
        · exact hl ⟨hin, hpoint⟩
        · exact hl' ⟨hin, hpoint⟩
      · rw [hkept]
        exact hl'

/-- A place of another node is not deleted. -/
theorem without_of_ne {h : Int} (hpoint : points h ≠ some node) :
    without points node [h] = points := by
  funext h'
  rw [without, if_neg]
  rintro ⟨hin, hsome⟩
  rw [List.mem_singleton.mp hin] at hsome
  exact hpoint hsome

/-- `malloc` does not fail while at most `2 ^ 32` cells are in use. -/
def Allocator.Roomy (a : Allocator) : Prop :=
  ∀ i mem (l : List Ptr), l.length ≤ 2 ^ 32 → (∀ p, p ∉ l → mem p = none) → a.malloc i mem ≠ none

/-- The cells in use. -/
theorem Sound.mem_eq_none (h : Sound s up T) {p : Ptr} (hp : p ∉ sentinel :: ptrs T.toList) :
    s.vnodeTree.mem p = none := by
  obtain ⟨g, -, hlinked⟩ := h.linked
  rw [List.mem_cons, not_or] at hp
  rw [hlinked.outside p hp.2, bare, Function.update_of_ne hp.1]

/-- **A round of `__conhash_add_replicas`.** -/
theorem Represents.addReplica (h : Represents s points) (hfuel : 64 < fuel) (hrooted : Rooted s)
    (hroom : s.ivnodes.toNat + 1 < 2 ^ 32) (a : Allocator) (node : Ptr) (i : Nat) :
    ∃ s' added, s.addReplica fuel a node i = some s'
      ∧ Represents s' (extended points node added) ∧ Rooted s' ∧ SameCallers s s'
      ∧ s'.ivnodes.toNat ≤ s.ivnodes.toNat + 1 ∧ added ⊆ [s.replicaHash node i]
      ∧ (a.Roomy → added = [s.replicaHash node i]) := by
  obtain ⟨up, T, hs, hmaps⟩ := h
  obtain ⟨found, hsearch, hsome, hnone⟩ := hs.search hfuel (s.replicaHash node i)
  obtain ⟨g, -, hlinked⟩ := hs.linked
  -- the search, the allocation and the insertion, one behind the other
  have hstep : s.addReplica fuel a node i = (s.vnodeTree.search fuel (s.replicaHash node i)).bind
      fun p => if p = nullPtr then
        (Conhash.getRbnode a i s.vnodeTree node (s.replicaHash node i)).elim (some s) fun x =>
          (x.1.insert fuel x.2).bind fun t =>
            some { s with vnodeTree := t, ivnodes := s.ivnodes + 1 }
      else some s := by
    have hhash : s.cbHashfunc (node2string (s.nodes node) i) = s.replicaHash node i := rfl
    rw [Conhash.addReplica, hhash]
    cases Conhash.getRbnode a i s.vnodeTree node (s.replicaHash node i) <;> rfl
  rw [hstep, hsearch, Option.bind_some]
  cases found with
  | some b =>
    -- the hash is taken
    obtain ⟨hb, hkey⟩ := hsome b rfl
    obtain ⟨node', hdata⟩ := hs.data b hb
    have hpoint : points (s.replicaHash node i) = some node' :=
      (hmaps _ _).mpr ⟨b, hb, hkey, hkey ▸ hdata⟩
    refine ⟨s, [s.replicaHash node i], if_neg ?_, ⟨up, T, hs, ?_⟩, hrooted, ⟨rfl, rfl⟩,
      Nat.le_succ _, fun x hx => hx, fun _ => rfl⟩
    · exact (hlinked.named _ (List.mem_map_of_mem (f := Entry.ptr) hb)).1
    · rw [extended_of_isSome hpoint]
      exact hmaps
  -- the hash is free
  | none =>
    rw [if_pos (show ptrOf (none : Option (Entry (Option VirtualNode))) = nullPtr from rfl),
      Conhash.getRbnode]
    cases hmalloc : a.malloc i s.vnodeTree.mem with
    -- no memory: nothing is added
    | none =>
      refine ⟨s, [], rfl, ⟨up, T, hs, ?_⟩, hrooted, ⟨rfl, rfl⟩, Nat.le_succ _,
        List.nil_subset _, fun hroomy => ?_⟩
      · rw [extended_nil]
        exact hmaps
      · refine absurd hmalloc (hroomy i _ (sentinel :: ptrs T.toList) ?_ fun p hp => ?_)
        · rw [List.length_cons, List.length_map]
          exact hs.few
        · exact hs.mem_eq_none hp
    | some block =>
      obtain ⟨p, n⟩ := block
      obtain ⟨hp, hfree⟩ := a.fresh hmalloc
      have hlength := hs.toNat_ivnodes
      -- the new virtual node goes into the tree
      obtain ⟨t', T', hrun, hs', hlist⟩ := hs.insert (n := n) node hfuel
        (hs.rooted_iff.mp hrooted) (by omega) hp hfree (hnone rfl)
      have hnot := (hmaps.eq_none hs).mpr (hnone rfl)
      refine ⟨_, [s.replicaHash node i], ?_, ⟨sentinel, T', hs', ?_⟩,
        hs'.rooted_iff.mpr (Or.inr rfl), ⟨rfl, rfl⟩, ?_, fun x hx => hx, fun _ => rfl⟩
      · show (Rbtree.insert fuel _ p).bind _ = _
        rw [hrun, Option.bind_some]
      · intro x node'
        rw [hlist, extended]
        simp only [mem_into, List.mem_singleton]
        constructor
        · intro hx
          -- the new point, or an old one
          by_cases heq : x = s.replicaHash node i
          · subst heq
            rw [hnot, if_pos rfl, Option.none_or, Option.some.injEq] at hx
            exact ⟨_, Or.inl rfl, rfl, by rw [hx]⟩
          · rw [if_neg heq, Option.or_none] at hx
            obtain ⟨b, hb, hrest⟩ := (hmaps x node').mp hx
            exact ⟨b, Or.inr hb, hrest⟩
        · rintro ⟨b, rfl | hb, hkey, hdata⟩
          · obtain rfl : s.replicaHash node i = x := hkey
            obtain rfl : node = node' := congrArg VirtualNode.node (Option.some.inj hdata)
            rw [hnot, if_pos rfl, Option.none_or]
          · rw [(hmaps x node').mpr ⟨b, hb, hkey, hdata⟩, Option.some_or]
      · have hlength' := hs'.toNat_ivnodes
        rw [hlist, (perm_into ..).length_eq, List.length_cons] at hlength'
        omega

/-- **A round of `__conhash_del_replicas`.** -/
theorem Represents.delReplica (h : Represents s points) (hfuel : 64 < fuel) (node : Ptr)
    (i : Nat) :
    ∃ s', s.delReplica fuel node i = some s'
      ∧ Represents s' (without points node [s.replicaHash node i]) ∧ SameCallers s s' := by
  obtain ⟨up, T, hs, hmaps⟩ := h
  obtain ⟨found, hsearch, hsome, hnone⟩ := hs.search hfuel (s.replicaHash node i)
  obtain ⟨g, -, hlinked⟩ := hs.linked
  -- the search, the check of the owner, the deletion and the release, one behind the other
  have hstep : s.delReplica fuel node i = (s.vnodeTree.search fuel (s.replicaHash node i)).bind
      fun p => if p = nullPtr then some s else
        (s.vnodeTree.mem p).bind fun n => n.data.bind fun v =>
        if v.hash = s.replicaHash node i ∧ v.node = node then
          (s.vnodeTree.delete fuel p).bind fun t => (Conhash.delRbnode t p).bind fun t =>
            some { s with vnodeTree := t, ivnodes := s.ivnodes - 1 }
        else some s := rfl
  rw [hstep, hsearch, Option.bind_some]
  cases found with
  | none =>
    -- no virtual node has this hash
    refine ⟨s, if_pos rfl, ⟨up, T, hs, ?_⟩, rfl, rfl⟩
    rw [without_of_ne]
    · exact hmaps
    · rw [(hmaps.eq_none hs).mpr (hnone rfl)]
      exact (Option.some_ne_none node).symm
  | some b =>
    obtain ⟨hb, hkey⟩ := hsome b rfl
    obtain ⟨node', hdata⟩ := hs.data b hb
    obtain ⟨n, hn, -, hndata⟩ := hlinked.mem_of_entry hb
    have hpoint : points (s.replicaHash node i) = some node' :=
      (hmaps _ _).mpr ⟨b, hb, hkey, hkey ▸ hdata⟩
    have hptr : ptrOf (some b) ≠ nullPtr :=
      (hlinked.named _ (List.mem_map_of_mem (f := Entry.ptr) hb)).1
    rw [if_neg hptr]
    show ∃ s', (s.vnodeTree.mem b.ptr).bind _ = some s' ∧ _
    rw [hn, Option.bind_some, hndata, hdata, Option.bind_some]
    -- the hash belongs to this node, or to another one
    by_cases hnode : node' = node
    · subst hnode
      obtain ⟨t₁, t₂, up', T', hdelete, hfree, hs', hlist⟩ := hs.remove hfuel hb
      refine ⟨_, ?_, ⟨up', T', hs', ?_⟩, rfl, rfl⟩
      · rw [if_pos ⟨hkey, rfl⟩]
        show (s.vnodeTree.delete fuel b.ptr).bind _ = _
        rw [hdelete, Option.bind_some]
        show (Conhash.delRbnode t₁ b.ptr).bind _ = _
        rw [hfree, Option.bind_some]
      · intro x node''
        rw [hlist, without]
        simp only [mem_outOf, List.mem_singleton]
        -- two entries of one cell are one, and so are two of one key
        have hinj := List.inj_on_of_nodup_map hlinked.apart
        by_cases hx : x = s.replicaHash node' i
        · subst hx
          rw [if_pos ⟨rfl, hpoint⟩]
          refine iff_of_false (Option.some_ne_none node'').symm ?_
          rintro ⟨c, ⟨hc, hcptr⟩, hckey, -⟩
          exact hcptr (congrArg Entry.ptr (hs.eq_of_key hc hb (hckey.trans hkey.symm)))
        · rw [if_neg fun hin => hx hin.1, hmaps]
          constructor
          · rintro ⟨c, hc, hckey, hcdata⟩
            refine ⟨c, ⟨hc, fun hcptr => hx ?_⟩, hckey, hcdata⟩
            rw [← hckey, hinj hc hb hcptr, hkey]
          · rintro ⟨c, ⟨hc, -⟩, hrest⟩
            exact ⟨c, hc, hrest⟩
    · -- another node's point stays where it is
      refine ⟨s, if_neg fun hcond => hnode hcond.2, ⟨up, T, hs, ?_⟩, rfl, rfl⟩
      rw [without_of_ne]
      · exact hmaps
      · rw [hpoint]
        exact fun heq => hnode (Option.some.inj heq)

end Steps

end Iceberg.Nginx
