import Iceberg.Nginx.ConhashRuns

/-!
# Where the objects belong

A lookup answers with the owner of the object's hash on the ring. So a new node takes objects
from few others, and a node that leaves gives away its own objects and no others. At the end
`conhash_fini` frees every cell.
-/

namespace Iceberg.Nginx

open RedBlack RedBlack.ColorTree

/-- What a lookup answers for a hash: the node of the point that owns it, or `NULL` where there
is no point. -/
def Answers (points : Int → Option Ptr) (q : Int) (p : Ptr) : Prop :=
  (p = nullPtr ∧ ∀ h, points h = none)
    ∨ ∃ h, Ring.IsOwner {h | points h ≠ none} q h ∧ points h = some p

section Points

variable {points : Int → Option Ptr} {q : Int} {p p' node : Ptr} {l : List Int}

/-- A lookup has one answer. -/
theorem Answers.unique (h : Answers points q p) (h' : Answers points q p') : p = p' := by
  rcases h with ⟨rfl, hnone⟩ | ⟨x, hx, hpoint⟩
  · rcases h' with ⟨rfl, -⟩ | ⟨y, -, hpoint⟩
    · rfl
    · rw [hnone y] at hpoint
      cases hpoint
  · rcases h' with ⟨-, hnone⟩ | ⟨y, hy, hpoint'⟩
    · rw [hnone x] at hpoint
      cases hpoint
    · rw [hx.unique hy, hpoint'] at hpoint
      exact (Option.some.inj hpoint).symm

theorem extended_of_some (h : points q = some p) : extended points node l q = some p := by
  rw [extended, h, Option.some_or]

/-- No place is lost by an addition. -/
theorem subset_extended :
    {h | points h ≠ none} ⊆ {h | extended points node l h ≠ none} := by
  intro h hpoint
  obtain ⟨p, hp⟩ := Option.ne_none_iff_exists'.mp hpoint
  show extended points node l h ≠ none
  rw [extended_of_some hp]
  exact Option.some_ne_none p

/-- With more points, an object stays or goes to the new node, from the node to which one of the
new places belonged. -/
theorem Answers.of_extended (h : Answers points q p)
    (h' : Answers (extended points node l) q p') :
    p' = p ∨ p' = node ∧ ∃ x ∈ l, Answers points x p := by
  rcases h' with ⟨rfl, hnone⟩ | ⟨x, hx, hpoint⟩
  · -- no points, and none before
    have hbefore : ∀ y, points y = none := by
      intro y
      have := hnone y
      rw [extended, Option.or_eq_none_iff] at this
      exact this.1
    exact Or.inl (h.unique (Or.inl ⟨rfl, hbefore⟩)).symm
  · cases hold : points x with
    -- an old point: it was the owner before, since new points only come in between
    | some p₀ =>
      rw [extended_of_some hold] at hpoint
      have howner : Answers points q p' := by
        refine Or.inr ⟨x, hx.mono subset_extended ?_, hold.trans hpoint⟩
        show points x ≠ none
        rw [hold]
        exact Option.some_ne_none p₀
      exact Or.inl (howner.unique h)
    -- a new point: its node answers
    | none =>
      rw [extended, hold, Option.none_or] at hpoint
      split at hpoint
      · next hin =>
        refine Or.inr ⟨(Option.some.inj hpoint).symm, x, hin, ?_⟩
        rcases h with hempty | ⟨y, hy, hpoint'⟩
        · exact Or.inl hempty
        · exact Or.inr ⟨y, hx.handover subset_extended hy, hpoint'⟩
      · cases hpoint

/-- Where a node leaves, the objects of the others stay. -/
theorem Answers.without (h : Answers points q p) (hne : p ≠ node) :
    Answers (without points node l) q p := by
  have hsub : {h | Nginx.without points node l h ≠ none} ⊆ {h | points h ≠ none} := by
    intro x hx hnone
    refine hx ?_
    rw [without_neg, hnone]
    rw [hnone]
    exact fun hin => absurd hin.2.symm (Option.some_ne_none node)
  rcases h with ⟨rfl, hnone⟩ | ⟨x, hx, hpoint⟩
  · refine Or.inl ⟨rfl, fun y => ?_⟩
    by_contra hy
    exact hsub hy (hnone y)
  · have hkept : Nginx.without points node l x = some p := by
      rw [without_neg, hpoint]
      rw [hpoint]
      exact fun hin => hne (Option.some.inj hin.2)
    refine Or.inr ⟨x, hx.mono hsub ?_, hkept⟩
    show Nginx.without points node l x ≠ none
    rw [hkept]
    exact Option.some_ne_none p

/-- A node that has been added and leaves again. -/
theorem without_extended {added : List Int} (hsub : added ⊆ l)
    (hold : ∀ x, points x ≠ some node) :
    without (extended points node added) node l = points := by
  funext x
  cases hpoint : points x with
  | some p =>
    rw [without_neg, extended_of_some hpoint]
    rw [extended_of_some hpoint, ← hpoint]
    exact fun hin => hold x hin.2
  | none =>
    by_cases hx : x ∈ added
    · refine without_pos ⟨hsub hx, ?_⟩
      rw [extended, hpoint, Option.none_or, if_pos hx]
    · have hnone : extended points node added x = none := by
        rw [extended, hpoint, Option.none_or, if_neg hx]
      rw [without_neg, hnone]
      rw [hnone]
      exact fun hin => absurd hin.2.symm (Option.some_ne_none node)

end Points

section Queries

variable {s : Conhash} {fuel : Nat} {points : Int → Option Ptr}

/-- **`conhash_lookup`.** -/
theorem Represents.lookup (h : Represents s points) (hfuel : 64 < fuel) (object : Bytes) :
    ∃ p, s.lookup fuel (some object) = some p ∧ Answers points (s.cbHashfunc object) p := by
  obtain ⟨up, T, hs, hmaps⟩ := h
  obtain ⟨g, -, hlinked⟩ := hs.linked
  rw [Conhash.lookup]
  by_cases hzero : s.ivnodes = 0
  · -- no virtual nodes: the answer is no node, and there are no points
    have hlength : T.toList.length = 0 := by
      rw [← hs.toNat_ivnodes, hzero]
      rfl
    refine ⟨nullPtr, if_pos hzero, Or.inl ⟨rfl, fun x => (hmaps.eq_none hs).mpr ?_⟩⟩
    rw [List.eq_nil_of_length_eq_zero hlength]
    exact fun _ ha => absurd ha List.not_mem_nil
  · have hne : T.toList ≠ [] := by
      intro hnil
      refine hzero ?_
      rw [hs.ivnodes, hnil]
      rfl
    -- the first key that is not less, or the least of all: the owner on the ring
    have hrun := lookup_linked (s.cbHashfunc object) hlinked hs.ascending_le
      (hs.depth_lt hfuel)
    have howner : Ring.owner (s.cbHashfunc object) (T.toList.map Entry.key)
        = ((T.toList.find? fun a => s.cbHashfunc object ≤ a.key).or T.toList.head?).map
            Entry.key := by
      rw [Ring.owner, List.find?_map, List.head?_map, Option.map_or]
      rfl
    cases hfound : (T.toList.find? fun a => s.cbHashfunc object ≤ a.key).or T.toList.head? with
    | none =>
      rw [Option.or_eq_none_iff] at hfound
      -- a tree with nodes has a first one
      exact absurd (List.head?_eq_none_iff.mp hfound.2) hne
    | some a =>
      rw [hfound] at hrun howner
      have hkeys : (T.toList.map Entry.key).Pairwise (· ≤ ·) :=
        List.pairwise_map.mpr hs.ascending_le
      have hisOwner := Ring.isOwner_of_owner hkeys howner
      obtain ⟨b, hb, hkey⟩ := List.mem_map.mp hisOwner.1
      have ha : a ∈ T.toList := by
        rcases Option.or_eq_some_iff.mp hfound with hfind | ⟨-, hhead⟩
        · exact List.mem_of_find?_eq_some hfind
        · exact List.mem_of_mem_head? hhead
      obtain ⟨node, hdata⟩ := hs.data a ha
      -- the node the tree answers with carries the virtual node of that key
      obtain ⟨n, hn, -, hndata⟩ := hlinked.mem_of_entry ha
      have hptr := (hlinked.named _ (List.mem_map_of_mem (f := Entry.ptr) ha)).1
      refine ⟨node, ?_, Or.inr ⟨a.key, ?_, (hmaps _ _).mpr ⟨a, ha, rfl, hdata⟩⟩⟩
      · show (if s.ivnodes = 0 then some nullPtr
          else (s.vnodeTree.lookup fuel (s.cbHashfunc object)).bind fun p =>
            if p ≠ nullPtr then (s.vnodeTree.mem p).bind fun n => n.data.bind fun v => some v.node
            else some nullPtr) = _
        have hanswer : ptrOf (some a) = a.ptr := rfl
        rw [if_neg hzero, hrun, Option.bind_some, hanswer, if_pos hptr, hn, Option.bind_some,
          hndata, hdata, Option.bind_some]
      · -- the points are the keys of the tree
        have hset : {x | points x ≠ none} = {x | x ∈ T.toList.map Entry.key} := by
          ext x
          show points x ≠ none ↔ x ∈ T.toList.map Entry.key
          rw [Ne, hmaps.eq_none hs, List.mem_map]
          constructor
          · intro hnot
            by_contra hno
            exact hnot fun b hb hkey => hno ⟨b, hb, hkey⟩
          · rintro ⟨b, hb, hkey⟩ hall
            exact hall b hb hkey
        rw [hset]
        exact hisOwner

/-- The answer is the only one. -/
theorem Represents.lookup_iff (h : Represents s points) (hfuel : 64 < fuel) (object : Bytes)
    (p : Ptr) :
    s.lookup fuel (some object) = some p ↔ Answers points (s.cbHashfunc object) p := by
  obtain ⟨p₀, hrun, hanswer⟩ := h.lookup hfuel object
  rw [hrun, Option.some.injEq]
  constructor
  · intro heq
    rw [← heq]
    exact hanswer
  · intro hp
    exact hanswer.unique hp

/-- The callback fills the array up to its size. Induction on the keys. -/
theorem foldl_getVnode {size : Int} {keys values : List Int}
    (hroom : (values.length : Int) ≤ size) :
    keys.foldl (Conhash.getVnode size) values = (values ++ keys).take size.toNat := by
  induction keys generalizing values with
  | nil => rw [List.foldl_nil, List.append_nil, List.take_of_length_le (by omega)]
  | cons key keys ih =>
    rw [List.foldl_cons, Conhash.getVnode]
    by_cases hlt : (values.length : Int) < size
    · rw [if_pos hlt, ih (by rw [List.length_append, List.length_singleton]; omega),
        List.append_assoc, List.singleton_append]
    · have hfull : values.length = size.toNat := by omega
      rw [if_neg hlt, ih hroom, List.take_left' hfull, List.take_left' hfull]

/-- **`conhash_get_vnodes`** writes the least points in their order, as many as there is room
for. -/
theorem Represents.getVnodes (h : Represents s points) (hfuel : 64 < fuel) (size : Int) :
    ∃ l : List Int, s.getVnodes fuel size = some (l.take size.toNat) ∧ l.Pairwise (· < ·)
      ∧ (∀ x, x ∈ l ↔ points x ≠ none) ∧ l.length = s.getVnodesNum.toNat := by
  obtain ⟨up, T, hs, hmaps⟩ := h
  obtain ⟨g, -, hlinked⟩ := hs.linked
  refine ⟨T.toList.map Entry.key, ?_, List.pairwise_map.mpr hs.ascending, fun x => ?_, ?_⟩
  · rw [Conhash.getVnodes]
    by_cases hsize : size ≤ 0
    · rw [if_pos hsize, Int.toNat_of_nonpos hsize, List.take_zero]
    · have htravel := midTravel_linked (f := fun values key _ => Conhash.getVnode size values key)
        hlinked (hs.depth_lt hfuel) []
      rw [if_neg hsize, htravel, ← List.foldl_map (f := Entry.key) (g := Conhash.getVnode size)]
      rw [foldl_getVnode (by simp; omega), List.nil_append]
  · rw [Ne, hmaps.eq_none hs, List.mem_map]
    constructor
    · rintro ⟨b, hb, hkey⟩ hall
      exact hall b hb hkey
    · intro hnot
      by_contra hno
      exact hnot fun b hb hkey => hno ⟨b, hb, hkey⟩
  · rw [List.length_map, Conhash.getVnodesNum, hs.toNat_ivnodes]

/-- There are no more virtual nodes than places. -/
theorem Represents.ivnodes_le (h : Represents s points) (hfuel : 64 < fuel) (places : List Int)
    (hplaces : ∀ x, points x ≠ none → x ∈ places) : s.ivnodes.toNat ≤ places.length := by
  obtain ⟨l, -, hl, hmem, hlength⟩ := h.getVnodes hfuel 0
  have hnodup : l.Nodup := hl.imp Int.ne_of_lt
  have hsub : l ⊆ places := fun x hx => hplaces x ((hmem x).mp hx)
  rw [Conhash.getVnodesNum] at hlength
  rw [← hlength]
  exact (hnodup.subperm hsub).length_le

/-- Each virtual node has one cell, and there is no other cell but the sentinel. -/
theorem Represents.cells (h : Represents s points) :
    ∃ l : List Ptr, l.Nodup ∧ l.length = s.ivnodes.toNat
      ∧ ∀ p, s.vnodeTree.mem p ≠ none ↔ p = sentinel ∨ p ∈ l := by
  obtain ⟨up, T, hs, -⟩ := h
  obtain ⟨g, -, hlinked⟩ := hs.linked
  refine ⟨ptrs T.toList, hlinked.apart, ?_, fun p => ⟨fun hp => ?_, ?_⟩⟩
  · rw [List.length_map, hs.toNat_ivnodes]
  · by_contra hnot
    rw [← List.mem_cons] at hnot
    exact hp (hs.mem_eq_none hnot)
  · rintro (rfl | hp)
    · rw [hlinked.mem_sentinel, bare]
      simp only [Function.update_self]
      exact Option.some_ne_none g
    · obtain ⟨a, ha, rfl⟩ := List.mem_map.mp hp
      obtain ⟨n, hn, -⟩ := hlinked.mem_of_entry ha
      rw [hn]
      exact Option.some_ne_none n

/-- The loop of `conhash_fini` takes the root away until there is none. -/
theorem Sound.finiLoop {up : Ptr} {T : ColorTree (Entry (Option VirtualNode))} {rounds : Nat}
    (h : Sound s up T) (hfuel : 64 < fuel) (hrounds : T.toList.length ≤ rounds) :
    ∃ t g, Conhash.finiLoop fuel rounds s.vnodeTree = some t ∧ t.mem = bare g := by
  induction rounds generalizing s up T with
  | zero =>
    obtain ⟨g, -, hlinked⟩ := h.linked
    cases T with
    | nil =>
      refine ⟨s.vnodeTree, g, if_pos (hlinked.root_eq_sentinel.mpr rfl), funext fun p => ?_⟩
      exact hlinked.outside p List.not_mem_nil
    | node c l a r =>
      rw [toList_node, List.length_append, List.length_cons] at hrounds
      omega
  | succ rounds ih =>
    obtain ⟨g, -, hlinked⟩ := h.linked
    cases T with
    | nil =>
      refine ⟨s.vnodeTree, g, if_pos (hlinked.root_eq_sentinel.mpr rfl), funext fun p => ?_⟩
      exact hlinked.outside p List.not_mem_nil
    | node c l a r =>
      have ha : a ∈ (node c l a r).toList := by simp
      -- the root is deleted and freed, and one node less is left
      obtain ⟨t₁, t₂, up', T', hdelete, hfree, hs', hlist⟩ := h.remove hfuel ha
      have hlength : T'.toList.length ≤ rounds := by
        have hlt : (a.outOf (node c l a r).toList).length < (node c l a r).toList.length := by
          refine List.length_filter_lt_length_iff_exists.mpr ⟨a, ha, ?_⟩
          simp
        rw [hlist]
        omega
      obtain ⟨t, g', hrun, hmem⟩ := ih hs' hlength
      refine ⟨t, g', ?_, hmem⟩
      have hroot : s.vnodeTree.root = a.ptr := hlinked.root
      -- one round of the loop, as long as there is a root
      have hstep : Conhash.finiLoop fuel (rounds + 1) s.vnodeTree
          = (s.vnodeTree.delete fuel s.vnodeTree.root).bind fun t =>
            (Conhash.delRbnode t s.vnodeTree.root).bind (Conhash.finiLoop fuel rounds) :=
        if_neg fun hnil => absurd (hlinked.root_eq_sentinel.mp hnil) (node_ne_nil _ _ _ _)
      rw [hstep, hroot, hdelete, Option.bind_some, hfree]
      exact hrun

/-- **`conhash_fini`** frees every cell. -/
theorem Represents.fini {rounds : Nat} (h : Represents s points) (hfuel : 64 < fuel)
    (hrounds : s.ivnodes.toNat ≤ rounds) :
    ∃ mem, s.fini fuel rounds = some mem ∧ ∀ p, mem p = none := by
  obtain ⟨up, T, hs, -⟩ := h
  rw [hs.toNat_ivnodes] at hrounds
  obtain ⟨t, g, hrun, hmem⟩ := hs.finiLoop hfuel hrounds
  refine ⟨Function.update t.mem sentinel none, ?_, fun p => ?_⟩
  · rw [Conhash.fini, hrun]
    rfl
  · by_cases hp : p = sentinel
    · rw [hp]
      simp only [Function.update_self]
    · rw [Function.update_of_ne hp, hmem, bare, Function.update_of_ne hp]

end Queries

end Iceberg.Nginx
