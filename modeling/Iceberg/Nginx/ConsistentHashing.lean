import Iceberg.Nginx.ConhashLookup

/-!
# Consistent hashing

What the callers may rely on after any history of calls. Every call has a result, as long as
nothing is added where a deletion has left a dangling link, and no cell is leaked. A new node
takes objects from the owners of its own places, and a node that leaves gives away its own
objects only. If memory does not run out and no two nodes share a hash, a lookup depends on which
nodes are in the ring, and not on the order in which they came and went.
-/

namespace Iceberg.Nginx

/-- There is memory, and no node in the ring has a hash of the node. -/
def Clean (s : Conhash) (a : Allocator) (node : Ptr) : Prop :=
  a.Roomy ∧ ∀ node', s.IsIn node' → ∀ h ∈ s.hashes node, h ∉ s.hashes node'

/-- `conhash_set_node` takes a node out of the ring. -/
theorem not_isIn_setNode (s : Conhash) (node : Ptr) (iden : Bytes) (replica : UInt32) :
    ¬(s.setNode node iden replica).IsIn node := by
  intro hin
  apply hin.2.2
  rw [Conhash.nodes_setNode_self]
  show flagInit &&& flagIn = 0
  decide

/-! ## A small ring -/

/-- The first free address among the `n` from `p` on. -/
def firstFree (mem : Ptr → Option Cell) : Nat → Nat → Option Nat
  | 0, _ => none
  | n + 1, p => if (mem p).isNone then some p else firstFree mem n (p + 1)

/-- The address that is found is free. Induction on the addresses. -/
theorem firstFree_eq_some {mem : Ptr → Option Cell} {n p q : Nat}
    (h : firstFree mem n p = some q) : p ≤ q ∧ mem q = none := by
  induction n generalizing p with
  | zero => cases h
  | succ n ih =>
    rw [firstFree] at h
    split at h
    · next hfree =>
      obtain rfl := Option.some.inj h
      exact ⟨Nat.le_refl p, Option.isNone_iff_eq_none.mp hfree⟩
    · obtain ⟨hle, hq⟩ := ih h
      exact ⟨by omega, hq⟩

/-- Where none is found, all addresses are in use. Induction on the addresses. -/
theorem firstFree_eq_none {mem : Ptr → Option Cell} {n p : Nat}
    (h : firstFree mem n p = none) : ∀ q : Nat, p ≤ q → q < p + n → mem q ≠ none := by
  induction n generalizing p with
  | zero =>
    intro q hle hlt
    omega
  | succ n ih =>
    rw [firstFree] at h
    split at h
    · cases h
    · next hused =>
      intro q hle hlt
      by_cases heq : q = p
      · rw [heq]
        exact fun hnone => hused (Option.isNone_iff_eq_none.mpr hnone)
      · exact ih h q (by omega) (by omega)

/-- An allocator that takes the first free address behind the sentinel. -/
def firstFit : Allocator where
  malloc _ mem := (firstFree mem (2 ^ 32 + 1) (sentinel + 1)).map fun p => (p, zeroCell)
  fresh := by
    intro _ mem p n h
    obtain ⟨q, hq, heq⟩ := Option.map_eq_some_iff.mp h
    obtain ⟨rfl, -⟩ := Prod.mk.inj heq
    obtain ⟨hle, hfree⟩ := firstFree_eq_some hq
    exact ⟨Nat.ne_of_gt (Nat.lt_of_lt_of_le (by decide) hle), hfree⟩

/-- It has room for every ring: there are more addresses than virtual nodes. -/
theorem roomy_firstFit : firstFit.Roomy := by
  intro i mem l hl hmem hnone
  have hall := firstFree_eq_none (Option.map_eq_none_iff.mp hnone)
  -- more addresses would be in use than there are cells
  have hsub : List.range' (sentinel + 1) (2 ^ 32 + 1) ⊆ l := by
    intro q hq
    obtain ⟨hle, hlt⟩ := List.mem_range'_1.mp hq
    by_contra hnot
    exact hall q hle hlt (hmem q hnot)
  have hlength := ((List.nodup_range' 1).subperm hsub).length_le
  rw [List.length_range'] at hlength
  omega

/-- The sum of the bytes. -/
def byteSum (instr : Bytes) : Int := instr.foldl (fun sum b => sum + (b.toNat : Int)) 0

/-- The ring after a call. -/
def after (call : Option (Int × Conhash)) (h : call.isSome = true) : Conhash := (call.get h).2

theorem eq_some_after {call : Option (Int × Conhash)} {result : Int} (h : call.isSome = true)
    (hresult : (call.get h).1 = result) : call = some (result, after call h) := by
  rw [← hresult]
  exact (Option.some_get h).symm

def emptyRing : Conhash := (Conhash.init byteSum fun _ => ⟨[], 0, 0⟩).get rfl

/-- No node is in the ring, and one with two virtual nodes is ready. -/
def readyRing : Conhash := emptyRing.setNode 1 [65] 2

theorem readyRing_isSome : (readyRing.addNode 65 firstFit 1).isSome = true := rfl

/-- The node is in the ring, and another one with one virtual node is ready. -/
def smallRing : Conhash :=
  (after (readyRing.addNode 65 firstFit 1) readyRing_isSome).setNode 2 [68] 1

/-- No node is in a ring that has just been made. -/
theorem not_isIn_of_init {hash : Bytes → Int} {nodes : Ptr → Node} {s : Conhash}
    (hrun : Conhash.init hash nodes = some s) {node : Ptr}
    (hout : (nodes node).flag &&& flagIn = 0) : ¬s.IsIn node := by
  obtain ⟨s₀, hrun₀, -, hnodes, -⟩ := @represents_init hash nodes
  obtain rfl : s₀ = s := Option.some.inj (hrun₀.symm.trans hrun)
  intro hin
  apply hin.2.2
  rw [hnodes]
  exact hout

theorem not_isIn_emptyRing (node : Ptr) : ¬emptyRing.IsIn node :=
  not_isIn_of_init (Option.some_get _).symm rfl

theorem not_isIn_readyRing (node : Ptr) : ¬readyRing.IsIn node := by
  by_cases heq : node = 1
  · rw [heq]
    exact not_isIn_setNode _ 1 [65] 2
  · rw [readyRing, (setNode_of_ne heq _ [65] 2).1]
    exact not_isIn_emptyRing node

theorem reaches_emptyRing : Reaches 65 byteSum Clean emptyRing :=
  .init (fun _ => rfl) (Option.some_get _).symm

theorem reaches_readyRing : Reaches 65 byteSum Clean readyRing :=
  reaches_emptyRing.setNode 1 [65] 2 (not_isIn_emptyRing 1)

theorem reaches_smallRing : Reaches 65 byteSum Clean smallRing := by
  apply Reaches.setNode
  · apply reaches_readyRing.addNode firstFit 1 _ (by decide) _ (eq_some_after readyRing_isSome rfl)
    · intro hone
      exact absurd hone (by decide)
    · exact ⟨roomy_firstFit, fun node' hin => absurd hin (not_isIn_readyRing node')⟩
  · intro hin
    exact hin.2.2 rfl

theorem ivnodes_smallRing : smallRing.ivnodes = 2 := rfl

theorem room_smallRing :
    smallRing.ivnodes.toNat + (smallRing.nodes 2).replicas.toNat < 2 ^ 32 := by
  show (2 : UInt32).toNat + (1 : UInt32).toNat < 2 ^ 32
  decide

section Histories

variable {fuel : Nat} {hash : Bytes → Int} {allowed : Conhash → Allocator → Ptr → Prop}
  {s s' s'' : Conhash} {a : Allocator} {node : Ptr} {result : Int} {points : Int → Option Ptr}

/-! ## Every call has a result -/

/-- **No call follows a dead pointer.** -/
theorem calls_defined (hfuel : 64 < fuel) (h : Reaches fuel hash allowed s) :
    (∀ a node, (s.ivnodes = 1 → Rooted s) →
        s.ivnodes.toNat + (s.nodes node).replicas.toNat < 2 ^ 32 →
        ∃ result s', s.addNode fuel a node = some (result, s'))
      ∧ (∀ node, ∃ result s', s.delNode fuel node = some (result, s'))
      ∧ (∀ object, ∃ p, s.lookup fuel object = some p)
      ∧ (∀ size, ∃ values, s.getVnodes fuel size = some values)
      ∧ ∀ rounds, s.ivnodes.toNat ≤ rounds → ∃ mem, s.fini fuel rounds = some mem := by
  obtain ⟨points, hrep, -, -⟩ := h.owned hfuel
  refine ⟨fun a node hone hroom => ?_, fun node => ?_, fun object => ?_, fun size => ?_,
    fun rounds hrounds => ?_⟩
  · -- a call on a node in the wrong state returns -1
    by_cases hready : s.Ready node
    · obtain ⟨s', _, hrun, -⟩ := hrep.addNode hfuel (hrep.rooted hone) hroom a hready
      exact ⟨0, s', hrun⟩
    · exact ⟨-1, s, addNode_refused hready a⟩
  · by_cases hin : s.IsIn node
    · obtain ⟨s', hrun, -⟩ := hrep.delNode hfuel hin
      exact ⟨0, s', hrun⟩
    · exact ⟨-1, s, delNode_refused hin⟩
  · cases object with
    | none => exact ⟨nullPtr, rfl⟩
    | some object =>
      obtain ⟨p, hrun, -⟩ := hrep.lookup hfuel object
      exact ⟨p, hrun⟩
  · obtain ⟨l, hrun, -⟩ := hrep.getVnodes hfuel size
    exact ⟨l.take size.toNat, hrun⟩
  · obtain ⟨mem, hrun, -⟩ := hrep.fini hfuel hrounds
    exact ⟨mem, hrun⟩

theorem calls_defined_smallRing :
    (∃ result s', smallRing.addNode 65 firstFit 2 = some (result, s'))
      ∧ (∃ result s', smallRing.delNode 65 1 = some (result, s'))
      ∧ (∃ p, smallRing.lookup 65 (some [200]) = some p)
      ∧ (∃ values, smallRing.getVnodes 65 1 = some values)
      ∧ ∃ mem, smallRing.fini 65 2 = some mem := by
  obtain ⟨hadd, hdel, hlookup, hvnodes, hfini⟩ := calls_defined (by decide) reaches_smallRing
  -- two virtual nodes are in the ring, so no deletion has left a dangling link
  have hone : smallRing.ivnodes = 1 → Rooted smallRing :=
    fun hone => absurd (ivnodes_smallRing.symm.trans hone) (by decide)
  exact ⟨hadd firstFit 2 hone room_smallRing, hdel 1, hlookup (some [200]), hvnodes 1,
    hfini 2 (Nat.le_refl 2)⟩

/-- **No cell is leaked**, neither by a history nor by `conhash_fini`. -/
theorem cells_of_reaches (hfuel : 64 < fuel) (h : Reaches fuel hash allowed s) {rounds : Nat}
    (hrounds : s.ivnodes.toNat ≤ rounds) :
    (∃ l : List Ptr, l.Nodup ∧ l.length = s.ivnodes.toNat
        ∧ ∀ p, s.vnodeTree.mem p ≠ none ↔ p = sentinel ∨ p ∈ l)
      ∧ ∃ mem, s.fini fuel rounds = some mem ∧ ∀ p, mem p = none := by
  obtain ⟨points, hrep, -, -⟩ := h.owned hfuel
  exact ⟨hrep.cells, hrep.fini hfuel hrounds⟩

theorem cells_of_smallRing :
    ∃ mem, smallRing.fini 65 2 = some mem ∧ ∀ p, mem p = none :=
  (cells_of_reaches (by decide) reaches_smallRing (Nat.le_refl 2)).2

/-! ## Few objects move -/

/-- **A new node** takes objects from the owners of its own places, and no object moves between
other nodes. -/
theorem addNode_moves (hfuel : 64 < fuel) (h : Reaches fuel hash allowed s)
    (hone : s.ivnodes = 1 → Rooted s)
    (hroom : s.ivnodes.toNat + (s.nodes node).replicas.toNat < 2 ^ 32)
    (hrun : s.addNode fuel a node = some (result, s')) (object : Bytes) :
    ∃ p p', s.lookup fuel (some object) = some p ∧ s'.lookup fuel (some object) = some p'
      ∧ (p' = p ∨ p' = node ∧ ∃ i < (s.nodes node).replicas.toNat,
          s.lookup fuel (some (node2string (s.nodes node) i)) = some p) := by
  obtain ⟨points, hrep, -, -⟩ := h.owned hfuel
  obtain ⟨p, hlookup, hanswer⟩ := hrep.lookup hfuel object
  by_cases hready : s.Ready node
  · obtain ⟨s₁, added, hrun₁, hrep', -, hsame, hsub, -⟩ :=
      hrep.addNode hfuel (hrep.rooted hone) hroom a hready
    obtain rfl : s₁ = s' := congrArg Prod.snd (Option.some.inj (hrun₁.symm.trans hrun))
    obtain ⟨p', hlookup', hanswer'⟩ := hrep'.lookup hfuel object
    rw [hsame.cbHashfunc] at hanswer'
    refine ⟨p, p', hlookup, hlookup', ?_⟩
    rcases hanswer.of_extended hanswer' with heq | ⟨hnew, x, hx, howner⟩
    · exact Or.inl heq
    · -- the place `x` is the hash of one of the new virtual nodes
      obtain ⟨i, hi, rfl⟩ := List.mem_map.mp (hsub hx)
      refine Or.inr ⟨hnew, i, List.mem_range.mp hi, ?_⟩
      exact (hrep.lookup_iff hfuel _ p).mpr howner
  · rw [addNode_refused hready a] at hrun
    obtain rfl : s = s' := congrArg Prod.snd (Option.some.inj hrun)
    exact ⟨p, p, hlookup, hlookup, Or.inl rfl⟩

theorem smallRing_isSome : (smallRing.addNode 65 firstFit 2).isSome = true := rfl

/-- Both nodes are in the ring. -/
def bothRing : Conhash := after (smallRing.addNode 65 firstFit 2) smallRing_isSome

theorem smallRing_moves :
    ∃ p p', smallRing.lookup 65 (some [255, 1]) = some p
      ∧ bothRing.lookup 65 (some [255, 1]) = some p'
      ∧ (p' = p ∨ p' = 2 ∧ ∃ i < (smallRing.nodes 2).replicas.toNat,
          smallRing.lookup 65 (some (node2string (smallRing.nodes 2) i)) = some p) :=
  addNode_moves (by decide) reaches_smallRing
    (fun hone => absurd (ivnodes_smallRing.symm.trans hone) (by decide)) room_smallRing
    (eq_some_after smallRing_isSome rfl) [255, 1]

/-- **A node that leaves** gives away its own objects, all of them, and no others. -/
theorem delNode_moves (hfuel : 64 < fuel) (h : Reaches fuel hash allowed s)
    (hrun : s.delNode fuel node = some (result, s')) (object : Bytes) :
    ∃ p p', s.lookup fuel (some object) = some p ∧ s'.lookup fuel (some object) = some p'
      ∧ (p ≠ node → p' = p) ∧ (result = 0 → p' ≠ node) := by
  obtain ⟨points, hrep, howned, -⟩ := h.owned hfuel
  obtain ⟨p, hlookup, hanswer⟩ := hrep.lookup hfuel object
  by_cases hin : s.IsIn node
  · obtain ⟨s₁, hrun₁, hrep', hsame⟩ := hrep.delNode hfuel hin
    obtain rfl : s₁ = s' := congrArg Prod.snd (Option.some.inj (hrun₁.symm.trans hrun))
    obtain ⟨p', hlookup', hanswer'⟩ := hrep'.lookup hfuel object
    rw [hsame.cbHashfunc] at hanswer'
    refine ⟨p, p', hlookup, hlookup', fun hne => ?_, fun _ hnode => ?_⟩
    · exact hanswer'.unique (hanswer.without hne)
    · -- no point of the node is left
      rw [hnode] at hanswer'
      rcases hanswer' with ⟨hnull, -⟩ | ⟨x, -, hpoint⟩
      · exact hin.1 hnull
      · rw [without] at hpoint
        split at hpoint
        · cases hpoint
        · next hkept => exact hkept ⟨(howned x node hpoint).2, hpoint⟩
  · rw [delNode_refused hin] at hrun
    obtain ⟨hresult, rfl⟩ := Prod.mk.inj (Option.some.inj hrun)
    refine ⟨p, p, hlookup, hlookup, fun _ => rfl, fun hzero => ?_⟩
    rw [← hresult] at hzero
    exact absurd hzero (by decide)

theorem delNode_smallRing_isSome : (smallRing.delNode 65 1).isSome = true := rfl

theorem smallRing_delNode_moves :
    ∃ p p', smallRing.lookup 65 (some [200]) = some p
      ∧ (after (smallRing.delNode 65 1) delNode_smallRing_isSome).lookup 65 (some [200]) = some p'
      ∧ (p ≠ 1 → p' = p) ∧ p' ≠ 1 := by
  have hzero : ((smallRing.delNode 65 1).get delNode_smallRing_isSome).1 = 0 := rfl
  obtain ⟨p, p', hlookup, hlookup', hstay, hgone⟩ :=
    delNode_moves (by decide) reaches_smallRing (eq_some_after _ hzero) [200]
  exact ⟨p, p', hlookup, hlookup', hstay, hgone rfl⟩

/-- The points determine what `conhash_get_vnodes` lists. -/
theorem Represents.getVnodes_congr (h : Represents s points) (h' : Represents s' points)
    (hfuel : 64 < fuel) (size : Int) :
    s'.getVnodes fuel size = s.getVnodes fuel size ∧ s'.getVnodesNum = s.getVnodesNum := by
  obtain ⟨l, hrun, hl, hmem, hlength⟩ := h.getVnodes hfuel size
  obtain ⟨l', hrun', hl', hmem', hlength'⟩ := h'.getVnodes hfuel size
  have hperm : l'.Perm l := by
    apply (List.perm_ext_iff_of_nodup (hl'.imp Int.ne_of_lt) (hl.imp Int.ne_of_lt)).mpr
    intro x
    rw [hmem, hmem']
  have hsame : l' = l := hperm.eq_of_pairwise (fun a b _ _ hab hba => by omega) hl' hl
  constructor
  · rw [hrun, hrun', hsame]
  · apply UInt32.toNat_inj.mp
    rw [← hlength, ← hlength', hsame]

/-- **A node that comes and leaves again** leaves no trace. -/
theorem lookup_addNode_delNode (hfuel : 64 < fuel) (h : Reaches fuel hash allowed s)
    (hone : s.ivnodes = 1 → Rooted s)
    (hroom : s.ivnodes.toNat + (s.nodes node).replicas.toNat < 2 ^ 32)
    (hadd : s.addNode fuel a node = some (0, s'))
    (hdel : s'.delNode fuel node = some (result, s'')) :
    (∀ object, s''.lookup fuel (some object) = s.lookup fuel (some object))
      ∧ ∀ size, s''.getVnodes fuel size = s.getVnodes fuel size := by
  obtain ⟨points, hrep, howned, -⟩ := h.owned hfuel
  have hready : s.Ready node := by
    by_contra hnot
    rw [addNode_refused hnot a] at hadd
    obtain ⟨hresult, -⟩ := Prod.mk.inj (Option.some.inj hadd)
    exact absurd hresult (by decide)
  obtain ⟨s₁, added, hrun, hrep', -, hsame, hsub, -⟩ :=
    hrep.addNode hfuel (hrep.rooted hone) hroom a hready
  obtain rfl : s₁ = s' := congrArg Prod.snd (Option.some.inj (hrun.symm.trans hadd))
  have hin : s₁.IsIn node := (hsame.isIn node).mpr hready.isIn
  obtain ⟨s₂, hrun', hrep'', hsame'⟩ := hrep'.delNode hfuel hin
  obtain rfl : s₂ = s'' := congrArg Prod.snd (Option.some.inj (hrun'.symm.trans hdel))
  -- the points are those of the beginning
  rw [hsame.hashes, hashes_setFlag] at hrep''
  rw [without_extended hsub fun x hx => hready.not_isIn (howned x node hx).1] at hrep''
  have hhash : s₂.cbHashfunc = s.cbHashfunc := hsame'.cbHashfunc.trans hsame.cbHashfunc
  constructor
  · intro object
    obtain ⟨p, hlookup, hanswer⟩ := hrep.lookup hfuel object
    rw [hlookup, hrep''.lookup_iff hfuel, hhash]
    exact hanswer
  · intro size
    exact (hrep.getVnodes_congr hrep'' hfuel size).1

theorem bothRing_isSome : (bothRing.delNode 65 2).isSome = true := rfl

theorem smallRing_addNode_delNode :
    (after (bothRing.delNode 65 2) bothRing_isSome).lookup 65 (some [255, 1])
      = smallRing.lookup 65 (some [255, 1]) :=
  (lookup_addNode_delNode (by decide) reaches_smallRing
    (fun hone => absurd (ivnodes_smallRing.symm.trans hone) (by decide)) room_smallRing
    (eq_some_after smallRing_isSome rfl)
    (eq_some_after bothRing_isSome rfl)).1 [255, 1]

end Histories

/-! ## The order of the calls does not matter -/

/-- The hashes of the nodes that are in the ring. -/
def Conhash.places (s : Conhash) : Set Int := {h | ∃ node, s.IsIn node ∧ h ∈ s.hashes node}

/-- The points are all the hashes of the nodes that are in the ring. -/
def Exact (s : Conhash) (points : Int → Option Ptr) : Prop :=
  ∀ h node, points h = some node ↔ s.IsIn node ∧ h ∈ s.hashes node

section Exact

variable {fuel : Nat} {hash : Bytes → Int} {s s' : Conhash} {a : Allocator} {node : Ptr}
  {points : Int → Option Ptr}

theorem Exact.owned (h : Exact s points) : Owned s points := fun x node' => (h x node').mp

/-- In a new ring no node has a place. -/
theorem exact_init (hnodes : ∀ p, (s.nodes p).flag &&& flagIn = 0) :
    Exact s fun _ => none := by
  intro x node
  constructor
  · intro hpoint
    exact absurd hpoint.symm (Option.some_ne_none node)
  · intro hin
    exact absurd (hnodes node) hin.1.2.2

/-- To set a node that is not in the ring leaves the places exact. -/
theorem Exact.setNode (h : Exact s points) (hout : ¬s.IsIn node) (iden : Bytes)
    (replica : UInt32) : Exact (s.setNode node iden replica) points := by
  intro x node'
  by_cases heq : node' = node
  · -- the node has no points, and is not in the ring
    subst heq
    apply iff_of_false
    · intro hpoint
      exact hout (h.owned x node' hpoint).1
    · intro hin
      exact not_isIn_setNode s node' iden replica hin.1
  · obtain ⟨hisIn, hhashes⟩ := setNode_of_ne heq s iden replica
    rw [hisIn, hhashes]
    exact h x node'

/-- **A clean addition** adds all the places of its node: none of them is taken. -/
theorem Exact.addNode (h : Exact s points) (hready : s.Ready node)
    (hapart : ∀ node', s.IsIn node' → ∀ x ∈ s.hashes node, x ∉ s.hashes node')
    (hsame : SameCallers (s.setFlag node ((s.nodes node).flag ||| flagIn)) s') :
    Exact s' (extended points node (s.hashes node)) := by
  intro x node'
  constructor
  · exact h.owned.addNode hready hsame (fun _ hx => hx) x node'
  · rw [hsame.isIn, hsame.hashes, hashes_setFlag]
    rintro ⟨hin, hx⟩
    by_cases heq : node' = node
    · -- no other node has a point at this place
      subst heq
      have hfree : points x = none := by
        cases hpoint : points x with
        | none => rfl
        | some node₀ =>
          obtain ⟨hin₀, hx₀⟩ := h.owned x node₀ hpoint
          exact absurd hx₀ (hapart node₀ hin₀ x hx)
      rw [extended, hfree, Option.none_or, if_pos hx]
    · rw [isIn_setFlag_of_ne heq] at hin
      exact extended_of_some ((h x node').mpr ⟨hin, hx⟩)

/-- **A deletion** takes away all the places of its node, and no others. -/
theorem Exact.delNode (h : Exact s points)
    (hsame : SameCallers (s.setFlag node ((s.nodes node).flag &&& ~~~flagIn)) s') :
    Exact s' (without points node (s.hashes node)) := by
  intro x node'
  constructor
  · exact h.owned.delNode hsame x node'
  · rw [hsame.isIn, hsame.hashes, hashes_setFlag]
    rintro ⟨hin, hx⟩
    have hne : node' ≠ node := by
      intro heq
      rw [heq] at hin
      exact not_isIn_cleared s node hin
    rw [isIn_setFlag_of_ne hne] at hin
    have hpoint := (h x node').mpr ⟨hin, hx⟩
    rw [without_neg, hpoint]
    rw [hpoint]
    intro hgone
    exact hne (Option.some.inj hgone.2)

/-- The points after a history without collisions. -/
theorem Reaches.exact (hfuel : 64 < fuel) (h : Reaches fuel hash Clean s) :
    ∃ points, Represents s points ∧ Exact s points ∧ s.cbHashfunc = hash := by
  apply h.induct hfuel
  · intro s hnodes
    exact exact_init hnodes
  · intro s points node iden replica hI hout
    exact hI.setNode hout iden replica
  · intro s s' points node a added hI hready hclean hsame _ hall
    rw [hall hclean.1]
    exact hI.addNode hready hclean.2 hsame
  · intro s s' points node hI _ hsame
    exact hI.delNode hsame

/-- Where the points are. -/
theorem Exact.ne_none_iff (h : Exact s points) (x : Int) : points x ≠ none ↔ x ∈ s.places := by
  rw [Option.ne_none_iff_exists']
  constructor
  · rintro ⟨node, hpoint⟩
    exact ⟨node, (h x node).mp hpoint⟩
  · rintro ⟨node, hin⟩
    exact ⟨node, (h x node).mpr hin⟩

/-- The answer to a lookup, from the hashes of the nodes in the ring. -/
theorem Exact.answers_iff (h : Exact s points) (q : Int) (p : Ptr) :
    Answers points q p ↔ p = nullPtr ∧ s.places = ∅
      ∨ s.IsIn p ∧ ∃ x ∈ s.hashes p, Ring.IsOwner s.places q x := by
  have hplaces : {x | points x ≠ none} = s.places := Set.ext h.ne_none_iff
  have hempty : (∀ x, points x = none) ↔ s.places = ∅ := by
    rw [Set.eq_empty_iff_forall_notMem]
    apply forall_congr'
    intro x
    rw [← h.ne_none_iff, not_not]
  rw [Answers, hplaces, hempty]
  apply or_congr Iff.rfl
  constructor
  · rintro ⟨x, howner, hpoint⟩
    obtain ⟨hin, hx⟩ := (h x p).mp hpoint
    exact ⟨hin, x, hx, howner⟩
  · rintro ⟨hin, x, hx, howner⟩
    exact ⟨x, howner, (h x p).mpr ⟨hin, hx⟩⟩

/-- **A lookup** answers with the node in the ring that has the first hash from that of the
object on, round the ring. -/
theorem lookup_eq_iff (hfuel : 64 < fuel) (h : Reaches fuel hash Clean s) (object : Bytes)
    (p : Ptr) :
    s.lookup fuel (some object) = some p ↔ p = nullPtr ∧ s.places = ∅
      ∨ s.IsIn p ∧ ∃ x ∈ s.hashes p, Ring.IsOwner s.places (hash object) x := by
  obtain ⟨points, hrep, hexact, hhash⟩ := h.exact hfuel
  rw [hrep.lookup_iff hfuel, hexact.answers_iff, hhash]

theorem lookup_smallRing :
    smallRing.lookup 65 (some [200]) = some 1 ↔ (1 : Ptr) = nullPtr ∧ smallRing.places = ∅
      ∨ smallRing.IsIn 1 ∧ ∃ x ∈ smallRing.hashes 1,
          Ring.IsOwner smallRing.places (byteSum [200]) x :=
  lookup_eq_iff (by decide) reaches_smallRing [200] 1

/-- **`conhash_get_vnodes`** lists the least hashes of the nodes in the ring, in their order. -/
theorem getVnodes_eq (hfuel : 64 < fuel) (h : Reaches fuel hash Clean s) (size : Int) :
    ∃ l : List Int, s.getVnodes fuel size = some (l.take size.toNat) ∧ l.Pairwise (· < ·)
      ∧ (∀ x, x ∈ l ↔ x ∈ s.places) ∧ l.length = s.getVnodesNum.toNat := by
  obtain ⟨points, hrep, hexact, -⟩ := h.exact hfuel
  obtain ⟨l, hrun, hl, hmem, hlength⟩ := hrep.getVnodes hfuel size
  refine ⟨l, hrun, hl, fun x => ?_, hlength⟩
  rw [hmem, hexact.ne_none_iff]

theorem getVnodes_smallRing :
    ∃ l : List Int, smallRing.getVnodes 65 1 = some (l.take 1) ∧ l.Pairwise (· < ·)
      ∧ (∀ x, x ∈ l ↔ x ∈ smallRing.places) ∧ l.length = smallRing.getVnodesNum.toNat :=
  getVnodes_eq (by decide) reaches_smallRing 1

end Exact

end Iceberg.Nginx
