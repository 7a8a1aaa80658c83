import Iceberg.Nginx.WriteData
import Iceberg.Proxy.HashTable

/-!
# Posting a value (`store.c`, `initHost` of `main.c`)

The configuration lists the storage servers in pairs, a master and its backup. A value goes
to the master that the hash of its key chooses and, if the hash table knows one, to that
master's backup.
-/

namespace Iceberg

/-- `host_masters` and `hashtable`; `host_master_num` is the length of the list. -/
structure Hosts where
  masters : List Bytes
  hashtable : HashTable

namespace Hosts

/-- The first loop of `initHost`: every other entry of the configuration is a master. -/
def mastersOf : List Bytes → List Bytes
  | master :: _ :: ips => master :: mastersOf ips
  | _ => []

/-- The second loop of `initHost`. `starts` are the values that `ht_hash` finds in its
accumulator, call by call. -/
def setBackups (starts : Nat → UInt64) : Nat → List Bytes → HashTable → HashTable
  | i, master :: slave :: ips, hashtable =>
    setBackups starts (i + 1) ips (hashtable.set (starts i) master slave)
  | _, _, hashtable => hashtable

end Hosts

/-- `initHost`. `load_conf` refuses a list `ips` of odd length. -/
def initHost (starts : Nat → UInt64) (ips : List Bytes) : Hosts :=
  { masters := Hosts.mastersOf ips
    hashtable := Hosts.setBackups starts 0 ips (HashTable.create 65536) }

/-- A request of `sendToHost`: the server, the URL and the body. -/
structure Post where
  host : Bytes
  url : Bytes
  body : Bytes

/-- `"http://"`. -/
def httpScheme : Bytes := [104, 116, 116, 112, 58, 47, 47]

/-- `":8090/writeData?key="`. -/
def writeDataQuery : Bytes :=
  [58, 56, 48, 57, 48, 47, 119, 114, 105, 116, 101, 68, 97, 116, 97, 63, 107, 101, 121, 61]

section

variable (curlEasyEscape : Bytes → Bytes)

/-- `sendToHost`; `curlEasyEscape` stands for `curl_easy_escape`. -/
def sendToHost (host key value : Bytes) : Post :=
  { host := host
    url := httpScheme ++ host ++ writeDataQuery ++ curlEasyEscape key
    body := value }

/-- `saveValue`: the requests it makes, and what it returns. `start` is what `ht_hash` finds
in its accumulator, `value` what `json_dumps` returned for the object. -/
def saveValue (hash : Bytes → Nat → Nat) (hosts : Hosts) (start : UInt64)
    (value : Option Bytes) (key : Bytes) : List Post × Int :=
  match value with
  | none => ([], -1)
  | some value =>
    match hosts.masters[hash key hosts.masters.length]? with
    | none => ([], 1)
    | some host =>
      match hosts.hashtable.get start host with
      | none => ([sendToHost curlEasyEscape host key value], 1)
      | some backup =>
        ([sendToHost curlEasyEscape host key value, sendToHost curlEasyEscape backup key value], 1)

end

namespace Hosts

/-- The list of the configuration for these pairs. -/
def ipsOf (pairs : List (Bytes × Bytes)) : List Bytes := pairs.flatMap fun p => [p.1, p.2]

/-- The masters are the addresses in the even places. -/
theorem mastersOf_ipsOf (pairs : List (Bytes × Bytes)) :
    mastersOf (ipsOf pairs) = pairs.map Prod.fst := by
  induction pairs with
  | nil => rfl
  | cons p pairs ih => exact congrArg (p.1 :: ·) ih

theorem setBackups_cons (starts : Nat → UInt64) (i : Nat) (p : Bytes × Bytes)
    (pairs : List (Bytes × Bytes)) (t : HashTable) :
    setBackups starts i (ipsOf (p :: pairs)) t
      = setBackups starts (i + 1) (ipsOf pairs) (t.set (starts i) p.1 p.2) := rfl

/-- The loop of `initHost` does not resize the table. -/
@[simp] theorem size_setBackups (starts : Nat → UInt64) (i : Nat) (pairs : List (Bytes × Bytes))
    (t : HashTable) : (setBackups starts i (ipsOf pairs) t).size = t.size := by
  induction pairs generalizing i t with
  | nil => rfl
  | cons p pairs ih => rw [setBackups_cons, ih, HashTable.size_set]

/-- A name that is not a master's stays as it is. -/
theorem table_setBackups_of_notMem {starts : Nat → UInt64} {i : Nat}
    {pairs : List (Bytes × Bytes)} {t : HashTable} {name : Bytes}
    (h : name ∉ pairs.map Prod.fst) (bin : Nat) :
    ((setBackups starts i (ipsOf pairs) t).table bin).get name = (t.table bin).get name := by
  induction pairs generalizing i t with
  | nil => rfl
  | cons p pairs ih =>
    rw [List.map_cons, List.mem_cons, not_or] at h
    rw [setBackups_cons, ih h.2, HashTable.table_set_of_ne _ _ h.1]

/-- **The backup of a master** is in the bin that its `ht_set` chose, and in no other. -/
theorem table_setBackups {starts : Nat → UInt64} {i j : Nat} {pairs : List (Bytes × Bytes)}
    {t : HashTable} {master slave : Bytes} (hnodup : (pairs.map Prod.fst).Nodup)
    (hnew : ∀ bin, (t.table bin).get master = none)
    (hpair : pairs[j]? = some (master, slave)) (bin : Nat) :
    ((setBackups starts i (ipsOf pairs) t).table bin).get master
      = if bin = t.hash (starts (i + j)) master then some slave else none := by
  induction pairs generalizing i j t with
  | nil => simp at hpair
  | cons p pairs ih =>
    obtain ⟨hnot, hrest⟩ := List.nodup_cons.mp hnodup
    rw [setBackups_cons]
    cases j with
    | zero =>
      -- this pair: no later one has its master
      obtain rfl : p = (master, slave) := by simpa using hpair
      rw [table_setBackups_of_notMem hnot, HashTable.table_set_self, hnew]
      rfl
    | succ j =>
      have hpair' : pairs[j]? = some (master, slave) := by simpa using hpair
      have hmem : master ∈ pairs.map Prod.fst :=
        List.mem_map_of_mem (f := Prod.fst) (List.mem_of_getElem? hpair')
      -- a later pair: this one has another master
      have hne : master ≠ p.1 := fun h => hnot (h ▸ hmem)
      have hnext : ∀ bin, ((t.set (starts i) p.1 p.2).table bin).get master = none := fun bin => by
        rw [HashTable.table_set_of_ne _ _ hne, hnew]
      have hindex : i + 1 + j = i + (j + 1) := by omega
      rw [ih hrest hnext hpair', hindex]
      rfl

end Hosts

/-- The backup that `ht_get` finds for the `j`-th master. -/
theorem get_initHost {starts : Nat → UInt64} {pairs : List (Bytes × Bytes)} {j : Nat}
    {p : Bytes × Bytes} (hnodup : (pairs.map Prod.fst).Nodup) (hpair : pairs[j]? = some p)
    (start : UInt64) :
    (initHost starts (Hosts.ipsOf pairs)).hashtable.get start p.1
      = if (HashTable.create 65536).hash start p.1
            = (HashTable.create 65536).hash (starts j) p.1
        then some p.2 else none := by
  have hsize : (initHost starts (Hosts.ipsOf pairs)).hashtable.hash start p.1
      = (HashTable.create 65536).hash start p.1 := by
    simp [HashTable.hash, initHost]
  rw [HashTable.get, hsize, initHost,
    Hosts.table_setBackups hnodup (fun _ => rfl) hpair, Nat.zero_add]

end Iceberg
