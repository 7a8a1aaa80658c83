import Iceberg.Nginx.ConsistentHashing
import Iceberg.Nginx.Md5

/-!
# The host of a key (`hash.c`)

`getHost` makes a ring of the two servers for every call, looks the key up and frees the ring
again. Each server has one virtual node. So the first one is given the keys whose hash lies
between the two points, and the other one all the rest of the ring.
-/

namespace Iceberg.Nginx

/-- `"10.50.8.73"`. -/
def host73 : Bytes := [49, 48, 46, 53, 48, 46, 56, 46, 55, 51]

/-- `"10.50.8.74"`. -/
def host74 : Bytes := [49, 48, 46, 53, 48, 46, 56, 46, 55, 52]

/-- `"error"`. -/
def errorHost : Bytes := [101, 114, 114, 111, 114]

/-- `&route_nodes[0]` and `&route_nodes[1]`. -/
def routeNodes : List Ptr := [1, 2]

section

variable (fuel : Nat) (hash : Bytes → Int) (calloc : Bool) (a : Allocator) (nodes : Ptr → Node)

/-- `init_route`: `routehash`, which is `NULL` where `calloc` fails. -/
def initRoute : Option (Option Conhash) :=
  if calloc then do
    let s ← Conhash.init hash nodes
    let s := (s.setNode 1 host73 1).setNode 2 host74 1
    let s ← routeNodes.foldlM (fun s node => (s.addNode fuel a node).map Prod.snd) s
    return some s
  else return none

/-- `getHost`: the answer, and what is left of the memory. Both results of `init_route` count as
true. -/
def getHost (key : Bytes) : Option (Bytes × (Ptr → Option Cell)) := do
  match ← initRoute fuel hash calloc a nodes with
  | none => return (errorHost, fun _ => none)
  | some s =>
    let node ← s.lookup fuel (some key)
    let mem ← s.fini fuel s.ivnodes.toNat
    return (if node ≠ nullPtr then (s.nodes node).iden else errorHost, mem)

end

section

variable {fuel : Nat} {hash : Bytes → Int} {a : Allocator} {nodes : Ptr → Node}

/-- The only virtual node of a host hashes this, `"10.50.8.73-000"` or `"10.50.8.74-000"`. -/
def routeString (host : Bytes) : Bytes := host ++ [45, 48, 48, 48]

/-- A host that has been set anew is ready, with one hash. -/
theorem ready_of_nodes {s : Conhash} {node : Ptr} {host : Bytes} (hnull : node ≠ nullPtr)
    (hnode : s.nodes node = ⟨host, 1, flagInit⟩) :
    s.Ready node ∧ s.hashes node = [s.cbHashfunc (node2string ⟨host, 1, flagInit⟩ 0)] := by
  constructor
  · rw [Conhash.Ready, hnode]
    show node ≠ nullPtr ∧ flagInit &&& flagInit ≠ 0 ∧ flagInit &&& flagIn = 0
    exact ⟨hnull, by decide, by decide⟩
  · unfold Conhash.hashes Conhash.replicaHash
    rw [hnode]
    rfl

/-- **The ring** that `getHost` makes. -/
theorem initRoute_represents (hfuel : 64 < fuel) :
    ∃ s added73 added74, initRoute fuel hash true a nodes = some (some s)
      ∧ Represents s (extended (extended (fun _ => none) 1 added73) 2 added74)
      ∧ ((s.nodes 1).iden = host73 ∧ (s.nodes 2).iden = host74) ∧ s.cbHashfunc = hash
      ∧ (added73 ⊆ [hash (routeString host73)] ∧ added74 ⊆ [hash (routeString host74)])
      ∧ (a.Roomy →
          added73 = [hash (routeString host73)] ∧ added74 = [hash (routeString host74)]) := by
  obtain ⟨s₀, hrun₀, hrep₀, -, hhash₀⟩ := @represents_init hash nodes
  let s₁ := (s₀.setNode 1 host73 1).setNode 2 host74 1
  have hone₁ : s₁.nodes 1 = ⟨host73, 1, flagInit⟩ := by
    show ((s₀.setNode 1 host73 1).setNode 2 host74 1).nodes 1 = _
    rw [Conhash.nodes_setNode_of_ne (by decide), Conhash.nodes_setNode_self]
    rfl
  have htwo₁ : s₁.nodes 2 = ⟨host74, 1, flagInit⟩ := Conhash.nodes_setNode_self ..
  -- setting the two nodes does not touch the ring
  have hrep₁ : Represents s₁ fun _ => none := hrep₀.of_eq rfl rfl
  have hzero₁ : s₁.ivnodes = 0 := by
    show s₀.ivnodes = 0
    exact ivnodes_init hrun₀
  have hhash₁ : s₁.cbHashfunc = hash := hhash₀
  -- the first host
  obtain ⟨hready₁, hhashes₁⟩ := ready_of_nodes (by decide) hone₁
  obtain ⟨s₂, added73, hrun₂, hrep₂, hrooted₂, hsame₂, hsub₂, hall₂⟩ :=
    hrep₁.addNode hfuel (hrep₁.rooted fun hone => absurd (hzero₁.symm.trans hone) (by decide))
      (by rw [hzero₁, hone₁]; decide) a hready₁
  rw [hhashes₁, hhash₁] at hsub₂ hall₂
  have hone₂ : (s₂.nodes 1).iden = host73 := by
    rw [hsame₂.nodes, Conhash.nodes_setFlag_self, hone₁]
  have htwo₂ : s₂.nodes 2 = ⟨host74, 1, flagInit⟩ := by
    rw [hsame₂.nodes, Conhash.nodes_setFlag_of_ne (by decide), htwo₁]
  -- the second one
  obtain ⟨hready₂, hhashes₂⟩ := ready_of_nodes (by decide) htwo₂
  -- the first host has at most one point
  have hfew : s₂.ivnodes.toNat ≤ 1 := by
    apply hrep₂.ivnodes_le hfuel [hash (routeString host73)]
    intro x hx
    by_contra hout
    apply hx
    rw [extended, Option.none_or, if_neg fun hin => hout (hsub₂ hin)]
  obtain ⟨s, added74, hrun, hrep, -, hsame, hsub, hall⟩ :=
    hrep₂.addNode hfuel hrooted₂ (by rw [htwo₂]; show _ + 1 < _; omega) a hready₂
  have hhash₂ : s₂.cbHashfunc = hash := hsame₂.cbHashfunc.trans hhash₁
  rw [hhashes₂, hhash₂] at hsub hall
  refine ⟨s, added73, added74, ?_, hrep, ⟨?_, ?_⟩, hsame.cbHashfunc.trans hhash₂,
    ⟨hsub₂, hsub⟩, fun hroomy => ⟨hall₂ hroomy, hall hroomy⟩⟩
  · -- the run is these steps in order
    rw [initRoute, if_pos rfl]
    show (Conhash.init hash nodes).bind _ = _
    rw [hrun₀, Option.bind_some]
    show (((s₁.addNode fuel a 1).map Prod.snd).bind fun s =>
      ((s.addNode fuel a 2).map Prod.snd).bind some).bind _ = _
    rw [hrun₂, Option.map_some, Option.bind_some, hrun, Option.map_some]
    rfl
  · rw [hsame.nodes, Conhash.nodes_setFlag_of_ne (by decide), hone₂]
  · rw [hsame.nodes, Conhash.nodes_setFlag_self, htwo₂]

/-- The lookup and the end of `getHost`. -/
theorem getHost_of_lookup {s : Conhash} {points : Int → Option Ptr} {key : Bytes} {node : Ptr}
    (hfuel : 64 < fuel) (hrun : initRoute fuel hash true a nodes = some (some s))
    (hrep : Represents s points) (hlookup : s.lookup fuel (some key) = some node) :
    ∃ mem, getHost fuel hash true a nodes key
        = some (if node ≠ nullPtr then (s.nodes node).iden else errorHost, mem)
      ∧ ∀ p, mem p = none := by
  obtain ⟨mem, hfini, hfree⟩ := hrep.fini hfuel (Nat.le_refl s.ivnodes.toNat)
  refine ⟨mem, ?_, hfree⟩
  rw [getHost, hrun]
  show (s.lookup fuel (some key)).bind _ = _
  rw [hlookup, Option.bind_some]
  show (s.fini fuel s.ivnodes.toNat).bind _ = _
  rw [hfini]
  rfl

/-- The two points are apart, so a key belongs to one of the hosts. -/
theorem getHost_of_lt (hfuel : 64 < fuel) (hroomy : a.Roomy)
    (hlt : hash (routeString host74) < hash (routeString host73)) (key : Bytes) :
    ∃ mem, getHost fuel hash true a nodes key
        = some (if hash (routeString host74) < hash key ∧ hash key ≤ hash (routeString host73)
            then host73 else host74, mem)
      ∧ ∀ p, mem p = none := by
  obtain ⟨s, added73, added74, hrun, hrep, hidens, hhash, -, hall⟩ :=
    @initRoute_represents fuel hash a nodes hfuel
  obtain ⟨rfl, rfl⟩ := hall hroomy
  let points := extended (extended (fun _ => none) 1 [hash (routeString host73)]) 2
    [hash (routeString host74)]
  -- the two points, one for each host
  have h73 : points (hash (routeString host73)) = some 1 := by
    show Option.or (Option.or none (if _ then some 1 else none)) _ = _
    rw [if_pos List.mem_cons_self, Option.none_or, Option.some_or]
  have h74 : points (hash (routeString host74)) = some 2 := by
    show Option.or (Option.or none (if _ then some 1 else none)) (if _ then some 2 else none) = _
    rw [if_neg (by simpa using Int.ne_of_lt hlt), if_pos List.mem_cons_self]
    rfl
  -- and there are no others
  have hplaces : {x | points x ≠ none}
      = {x | x = hash (routeString host74) ∨ x = hash (routeString host73)} := by
    ext x
    show points x ≠ none ↔ _
    constructor
    · intro hx
      by_contra hout
      have hneither := not_or.mp hout
      apply hx
      show Option.or (Option.or none (if _ then some 1 else none)) (if _ then some 2 else none) = _
      rw [if_neg (by simpa using hneither.2), if_neg (by simpa using hneither.1)]
      rfl
    · rintro (rfl | rfl)
      · rw [h74]
        exact Option.some_ne_none 2
      · rw [h73]
        exact Option.some_ne_none 1
  have howner := Ring.isOwner_pair hlt (hash key)
  -- the key lies between the two, or around the end of the ring
  by_cases hbetween : hash (routeString host74) < hash key
      ∧ hash key ≤ hash (routeString host73)
  · rw [if_pos hbetween] at howner ⊢
    have hlookup : s.lookup fuel (some key) = some 1 := by
      rw [hrep.lookup_iff hfuel, hhash]
      exact Or.inr ⟨_, hplaces ▸ howner, h73⟩
    rw [← hidens.1]
    exact getHost_of_lookup hfuel hrun hrep hlookup
  · rw [if_neg hbetween] at howner ⊢
    have hlookup : s.lookup fuel (some key) = some 2 := by
      rw [hrep.lookup_iff hfuel, hhash]
      exact Or.inr ⟨_, hplaces ▸ howner, h74⟩
    rw [← hidens.2]
    exact getHost_of_lookup hfuel hrun hrep hlookup

/-- **The split of the keys.** With the digest of the library, the first host has the keys whose
hash lies in the gap between the two points, and the second one all others. -/
theorem getHost_eq (hfuel : 64 < fuel) (hroomy : a.Roomy) {buf : Bytes} (hbuf : buf.length = 64)
    (key : Bytes) :
    ∃ mem, getHost fuel (hashDef (conhashMd5Digest buf)) true a nodes key
        = some (if 8884310905 < hashDef (conhashMd5Digest buf) key
            ∧ hashDef (conhashMd5Digest buf) key ≤ 9449849894 then host73 else host74, mem)
      ∧ ∀ p, mem p = none := by
  have hdigest : ∀ host, (cstr (routeString host)).length < 2 ^ 28 →
      hashDef (conhashMd5Digest buf) (routeString host)
        = hashDef Rfc1321.md5 (cstr (routeString host)) := by
    intro host hlen
    rw [hashDef, conhashMd5Digest_eq hbuf hlen]
    rfl
  have h73 : hashDef (conhashMd5Digest buf) (routeString host73) = 9449849894 := by
    rw [hdigest host73 (by decide)]
    decide +kernel
  have h74 : hashDef (conhashMd5Digest buf) (routeString host74) = 8884310905 := by
    rw [hdigest host74 (by decide)]
    decide +kernel
  rw [← h73, ← h74]
  exact getHost_of_lt hfuel hroomy (by rw [h73, h74]; decide) key

theorem getHost_eq_firstFit :
    ∃ mem, getHost 65 (hashDef (conhashMd5Digest (List.replicate 64 0))) true firstFit
          (fun _ => ⟨[], 0, 0⟩) [97]
        = some (if 8884310905 < hashDef (conhashMd5Digest (List.replicate 64 0)) [97]
            ∧ hashDef (conhashMd5Digest (List.replicate 64 0)) [97] ≤ 9449849894
          then host73 else host74, mem)
      ∧ ∀ p, mem p = none :=
  getHost_eq (by decide) roomy_firstFit (by decide) [97]

end

end Iceberg.Nginx
