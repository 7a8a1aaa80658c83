import Iceberg.Lib.Decimal
import Iceberg.Proxy.Basic
import Iceberg.Nginx.Rbtree

/-!
# The consistent hash (`conhash.c`, `conhash_inter.c`, `conhash_util.c`)

Each node has a number of virtual nodes, which are points in a red-black tree; an object belongs
to the node of the point that a lookup of its hash finds.

The callers keep the nodes themselves, here `nodes`. A tree node and the `virtual_node_s` that
it points at are allocated and freed together, so they are one cell; a cell that has been freed
is gone. The hash is a parameter, as in the source.
-/

namespace Iceberg.Nginx

open Decimal

/-- `virtual_node_s`. -/
structure VirtualNode where
  hash : Int
  node : Ptr
  deriving DecidableEq

/-- A tree node with its virtual node, or with `NULL`. -/
abbrev Cell := RbNode (Option VirtualNode)

/-- `node_s`; `iden` is the string in the array, which ends in a zero. -/
structure Node where
  iden : Bytes
  replicas : UInt32
  flag : UInt32

/-- `NODE_FLAG_INIT`. -/
def flagInit : UInt32 := 1

/-- `NODE_FLAG_IN`. -/
def flagIn : UInt32 := 2

/-- `conhash_s`, and the callers' nodes. -/
structure Conhash where
  vnodeTree : Rbtree (Option VirtualNode)
  ivnodes : UInt32
  cbHashfunc : Bytes → Int
  nodes : Ptr → Node

/-- What `malloc` answers to the request for the virtual node `i`: a block that is not in use,
with what happens to be in it, or `NULL`. -/
structure Allocator where
  malloc : Nat → (Ptr → Option Cell) → Option (Ptr × Cell)
  fresh : ∀ {i mem p n}, malloc i mem = some (p, n) → p ≠ nullPtr ∧ mem p = none

/-- `%03d` of an unsigned number, which is printed as a signed one. -/
def printed03 (i : Nat) : Bytes :=
  if i < 2 ^ 31 then zeroFilled 3 i else Byte.minus :: zeroFilled 2 (2 ^ 32 - i)

/-- `__conhash_node2string`: `snprintf(buf, 127, "%s-%03d", …)`. -/
def node2string (node : Node) (replicaIdx : Nat) : Bytes :=
  (node.iden ++ Byte.minus :: printed03 replicaIdx).take 126

/-- `__conhash_hash_def`: the sum of the four words of the digest. -/
def hashDef (md5 : Bytes → Bytes) (instr : Bytes) : Int :=
  let digest := md5 instr
  (List.range 4).foldl (fun hash i =>
    hash + (((digest.getD (i * 4 + 3) 0).toNat <<< 24 ||| (digest.getD (i * 4 + 2) 0).toNat <<< 16
      ||| (digest.getD (i * 4 + 1) 0).toNat <<< 8 ||| (digest.getD (i * 4) 0).toNat : Nat) : Int)) 0

/-- `calloc` of the tree node inside the record. -/
def zeroCell : Cell := ⟨0, nullPtr, nullPtr, nullPtr, 0, none⟩

namespace Conhash

/-- `conhash_init`, where the allocation succeeds. -/
def init (cbHashfunc : Bytes → Int) (nodes : Ptr → Node) : Option Conhash := do
  let mem := Function.update (fun _ => none) sentinel (some zeroCell)
  let vnodeTree ← Rbtree.init { root := nullPtr, size := 0, mem := mem }
  return { vnodeTree := vnodeTree, ivnodes := 0, cbHashfunc := cbHashfunc, nodes := nodes }

/-- `conhash_set_node`. -/
def setNode (s : Conhash) (node : Ptr) (iden : Bytes) (replica : UInt32) : Conhash :=
  { s with
    nodes := Function.update s.nodes node
      { iden := (cstr iden).take 63, replicas := replica, flag := flagInit } }

def setFlag (s : Conhash) (node : Ptr) (flag : UInt32) : Conhash :=
  { s with nodes := Function.update s.nodes node { s.nodes node with flag := flag } }

@[simp] theorem nodes_setNode_self (s : Conhash) (node : Ptr) (iden : Bytes) (replica : UInt32) :
    (s.setNode node iden replica).nodes node
      = { iden := (cstr iden).take 63, replicas := replica, flag := flagInit } :=
  Function.update_self ..

theorem nodes_setNode_of_ne {node node' : Ptr} (h : node' ≠ node) (s : Conhash) (iden : Bytes)
    (replica : UInt32) : (s.setNode node iden replica).nodes node' = s.nodes node' :=
  Function.update_of_ne h ..

@[simp] theorem nodes_setFlag_self (s : Conhash) (node : Ptr) (flag : UInt32) :
    (s.setFlag node flag).nodes node = { s.nodes node with flag := flag } :=
  Function.update_self ..

theorem nodes_setFlag_of_ne {node node' : Ptr} (h : node' ≠ node) (s : Conhash) (flag : UInt32) :
    (s.setFlag node flag).nodes node' = s.nodes node' :=
  Function.update_of_ne h ..

/-- `__conhash_get_rbnode`. -/
def getRbnode (a : Allocator) (i : Nat) (t : Rbtree (Option VirtualNode)) (node : Ptr)
    (hash : Int) : Option (Rbtree (Option VirtualNode) × Ptr) :=
  (a.malloc i t.mem).map fun (p, n) =>
    ({ t with
      mem := Function.update t.mem p (some { n with key := hash, data := some ⟨hash, node⟩ }) }, p)

/-- `__conhash_del_rbnode`. -/
def delRbnode (t : Rbtree (Option VirtualNode)) (rbnode : Ptr) :
    Option (Rbtree (Option VirtualNode)) :=
  (t.mem rbnode).map fun _ => { t with mem := Function.update t.mem rbnode none }

/-- A round of `__conhash_add_replicas`. -/
def addReplica (fuel : Nat) (a : Allocator) (node : Ptr) (s : Conhash) (i : Nat) :
    Option Conhash := do
  let hash := s.cbHashfunc (node2string (s.nodes node) i)
  if (← s.vnodeTree.search fuel hash) = nullPtr then
    match getRbnode a i s.vnodeTree node hash with
    | none => return s
    | some (t, rbnode) =>
      let t ← t.insert fuel rbnode
      return { s with vnodeTree := t, ivnodes := s.ivnodes + 1 }
  else return s

/-- `__conhash_add_replicas`. -/
def addReplicas (fuel : Nat) (a : Allocator) (s : Conhash) (node : Ptr) : Option Conhash :=
  (List.range (s.nodes node).replicas.toNat).foldlM (addReplica fuel a node) s

/-- A round of `__conhash_del_replicas`. -/
def delReplica (fuel : Nat) (node : Ptr) (s : Conhash) (i : Nat) : Option Conhash := do
  let hash := s.cbHashfunc (node2string (s.nodes node) i)
  let rbnode ← s.vnodeTree.search fuel hash
  if rbnode = nullPtr then return s
  else
    let n ← s.vnodeTree.mem rbnode
    let vnode ← n.data
    if vnode.hash = hash ∧ vnode.node = node then
      let t ← s.vnodeTree.delete fuel rbnode
      let t ← delRbnode t rbnode
      return { s with vnodeTree := t, ivnodes := s.ivnodes - 1 }
    else return s

/-- `__conhash_del_replicas`. -/
def delReplicas (fuel : Nat) (s : Conhash) (node : Ptr) : Option Conhash :=
  (List.range (s.nodes node).replicas.toNat).foldlM (delReplica fuel node) s

/-- `conhash_add_node`. -/
def addNode (fuel : Nat) (a : Allocator) (s : Conhash) (node : Ptr) : Option (Int × Conhash) := do
  if node = nullPtr then return (-1, s)
  else
    let flag := (s.nodes node).flag
    if flag &&& flagInit = 0 ∨ flag &&& flagIn ≠ 0 then return (-1, s)
    else return (0, ← (s.setFlag node (flag ||| flagIn)).addReplicas fuel a node)

/-- `conhash_del_node`. -/
def delNode (fuel : Nat) (s : Conhash) (node : Ptr) : Option (Int × Conhash) := do
  if node = nullPtr then return (-1, s)
  else
    let flag := (s.nodes node).flag
    if flag &&& flagInit = 0 ∨ flag &&& flagIn = 0 then return (-1, s)
    else return (0, ← (s.setFlag node (flag &&& ~~~flagIn)).delReplicas fuel node)

/-- `conhash_lookup`. -/
def lookup (fuel : Nat) (s : Conhash) (object : Option Bytes) : Option Ptr :=
  match object with
  | none => some nullPtr
  | some object =>
    if s.ivnodes = 0 then some nullPtr
    else do
      let rbnode ← s.vnodeTree.lookup fuel (s.cbHashfunc object)
      if rbnode ≠ nullPtr then
        let n ← s.vnodeTree.mem rbnode
        let vnode ← n.data
        return vnode.node
      else return nullPtr

/-- `__get_vnodes`; the values that have been written are those up to `cur`. -/
def getVnode (size : Int) (values : List Int) (key : Int) : List Int :=
  if (values.length : Int) < size then values ++ [key] else values

/-- `conhash_get_vnodes`. -/
def getVnodes (fuel : Nat) (s : Conhash) (size : Int) : Option (List Int) :=
  if size ≤ 0 then some []
  else s.vnodeTree.midTravel (fun values n => getVnode size values n.key) fuel []

/-- `conhash_get_vnodes_num`. -/
def getVnodesNum (s : Conhash) : UInt32 := s.ivnodes

/-- The loop of `conhash_fini`. -/
def finiLoop (fuel : Nat) :
    Nat → Rbtree (Option VirtualNode) → Option (Rbtree (Option VirtualNode))
  | 0, t => if t.root = sentinel then some t else none
  | rounds + 1, t =>
    if t.root = sentinel then some t
    else do
      let rbnode := t.root
      let t ← t.delete fuel rbnode
      let t ← delRbnode t rbnode
      finiLoop fuel rounds t

/-- `conhash_fini`: what is left of the memory. -/
def fini (fuel rounds : Nat) (s : Conhash) : Option (Ptr → Option Cell) := do
  let t ← finiLoop fuel rounds s.vnodeTree
  return Function.update t.mem sentinel none

end Conhash

end Iceberg.Nginx
