import Iceberg.Client.IcebergClient
import Iceberg.Proxy.Store
import Mathlib.Data.UInt

/-!
# The hosts of a key

The proxy sends a value to the master that the key's hash chooses and to that master's
backup, the client reads from the one or the other. The backup is looked up by name, so all
depends on whether `ht_get` looks into the bin that `ht_set` chose.
-/

namespace Iceberg.Client

/-- The client configured with the masters and the backups of these pairs. -/
def clientOf (pairs : List (Bytes × Bytes)) : IcebergClient :=
  { ips := [pairs.map Prod.fst, pairs.map Prod.snd], dirNum := 1000 }

/-- The pair that the hash of the key chooses. -/
def pairOf (hash : Bytes → Nat → Nat) (pairs : List (Bytes × Bytes)) (key : Bytes) :
    Bytes × Bytes := pairs.getD (hash key pairs.length) ([], [])

/-- The value goes to the two hosts of the key's pair, and the client reads from one of
them, whichever list it chooses. -/
structure SentWhereRead (curlEasyEscape : Bytes → Bytes) (hash : Bytes → Nat → Nat)
    (pairs : List (Bytes × Bytes)) (starts : Nat → UInt64) (start : UInt64)
    (value key : Bytes) : Prop where
  sent : (saveValue curlEasyEscape hash (initHost starts (Hosts.ipsOf pairs)) start (some value)
      key).1
    = [sendToHost curlEasyEscape (pairOf hash pairs key).1 key value,
       sendToHost curlEasyEscape (pairOf hash pairs key).2 key value]
  read : ∀ choice < 2, ∃ host, (clientOf pairs).getHost hash choice key = some host
    ∧ ∃ post ∈ (saveValue curlEasyEscape hash (initHost starts (Hosts.ipsOf pairs)) start
        (some value) key).1, post.host = host

section

variable {curlEasyEscape : Bytes → Bytes} {hash : Bytes → Nat → Nat}
  {pairs : List (Bytes × Bytes)}

/-- The hash selects one of the pairs. -/
theorem getElem?_pairOf (hhash : ∀ s n, 0 < n → hash s n < n) (hpairs : pairs ≠ [])
    (key : Bytes) :
    pairs[hash key pairs.length]? = some (pairOf hash pairs key) := by
  have hlt := hhash key pairs.length (List.length_pos_iff.mpr hpairs)
  simp [pairOf, hlt]

/-- The requests, with the backup's as far as `ht_get` finds it. -/
theorem saveValue_eq (hhash : ∀ s n, 0 < n → hash s n < n) (hpairs : pairs ≠ [])
    (hnodup : (pairs.map Prod.fst).Nodup) (starts : Nat → UInt64) (start : UInt64)
    (value key : Bytes) :
    saveValue curlEasyEscape hash (initHost starts (Hosts.ipsOf pairs)) start (some value) key
      = (sendToHost curlEasyEscape (pairOf hash pairs key).1 key value ::
          (if (HashTable.create 65536).hash start (pairOf hash pairs key).1
              = (HashTable.create 65536).hash (starts (hash key pairs.length))
                  (pairOf hash pairs key).1
            then [sendToHost curlEasyEscape (pairOf hash pairs key).2 key value] else []), 1) := by
  have hpair := getElem?_pairOf hhash hpairs key
  have hmasters : (initHost starts (Hosts.ipsOf pairs)).masters = pairs.map Prod.fst :=
    Hosts.mastersOf_ipsOf pairs
  have hhost : (pairs.map Prod.fst)[hash key pairs.length]? = some (pairOf hash pairs key).1 := by
    rw [List.getElem?_map, hpair]
    rfl
  -- what the table gives for the master
  have hget : (initHost starts (Hosts.ipsOf pairs)).hashtable.get start
      (pairOf hash pairs key).1 = _ := get_initHost hnodup hpair start
  rw [saveValue]
  simp only [hmasters, List.length_map, hhost]
  -- the slave is in the bin that is searched, or in another one
  by_cases hbin : (HashTable.create 65536).hash start (pairOf hash pairs key).1
      = (HashTable.create 65536).hash (starts (hash key pairs.length)) (pairOf hash pairs key).1
  · rw [if_pos hbin] at hget ⊢
    rw [hget]
  · rw [if_neg hbin] at hget ⊢
    rw [hget]

/-- The host that the client reads from. -/
theorem getHost_clientOf (hhash : ∀ s n, 0 < n → hash s n < n) (hpairs : pairs ≠ [])
    {choice : Nat} (hchoice : choice < 2) (key : Bytes) :
    (clientOf pairs).getHost hash choice key
      = some (if choice = 0 then (pairOf hash pairs key).1 else (pairOf hash pairs key).2) := by
  have hpair := getElem?_pairOf hhash hpairs key
  obtain rfl | rfl : choice = 0 ∨ choice = 1 := by omega
  · simp [clientOf, IcebergClient.getHost, hpair]
  · simp [clientOf, IcebergClient.getHost, hpair]

/-- **The value is sent to where it is read** exactly when the uninitialised accumulator
gives the master's name the same bin in `ht_set` and in `ht_get`. -/
theorem sentWhereRead_iff (hhash : ∀ s n, 0 < n → hash s n < n) (hpairs : pairs ≠ [])
    (hnodup : (pairs.map Prod.fst).Nodup) (hnames : ∀ p ∈ pairs, p.1 ≠ [] ∧ Byte.nul ∉ p.1)
    (starts : Nat → UInt64) (start : UInt64) (value key : Bytes) :
    SentWhereRead curlEasyEscape hash pairs starts start value key
      ↔ SameBin start (starts (hash key pairs.length)) (pairOf hash pairs key).1 := by
  obtain ⟨hne, hnul⟩ := hnames _
    (List.mem_of_getElem? (getElem?_pairOf hhash hpairs key))
  have hsave := @saveValue_eq curlEasyEscape _ _ hhash hpairs hnodup starts start value key
  rw [← hash_eq_iff (t := HashTable.create 65536) rfl _ _ hne hnul]
  constructor
  · rintro ⟨hsent, -⟩
    rw [hsave] at hsent
    by_contra hbin
    rw [if_neg hbin] at hsent
    simp at hsent
  · intro hbin
    rw [if_pos hbin] at hsave
    refine ⟨by rw [hsave], fun choice hchoice => ⟨_, getHost_clientOf hhash hpairs hchoice key, ?_⟩⟩
    rw [hsave]
    by_cases h0 : choice = 0
    · exact ⟨_, List.mem_cons_self, by rw [if_pos h0]; rfl⟩
    · exact ⟨_, List.mem_cons_of_mem _ List.mem_cons_self, by rw [if_neg h0]; rfl⟩

end

/-- `"10.50.8.73"` with the backup `"10.50.8.76"`, and `"10.50.8.74"` with `"10.50.8.77"`. -/
def samplePairs : List (Bytes × Bytes) :=
  [([49, 48, 46, 53, 48, 46, 56, 46, 55, 51], [49, 48, 46, 53, 48, 46, 56, 46, 55, 54]),
   ([49, 48, 46, 53, 48, 46, 56, 46, 55, 52], [49, 48, 46, 53, 48, 46, 56, 46, 55, 55])]

/-- Any other start than `ULONG_MAX` will do for the second name. -/
theorem sentWhereRead_sample :
    SentWhereRead (Percent.encode isUnreserved) (fun s n => s.length % n) samplePairs (fun _ => 7)
        12345 [123, 125] [107]
      ↔ SameBin 12345 7 [49, 48, 46, 53, 48, 46, 56, 46, 55, 52] :=
  sentWhereRead_iff (fun s n hn => Nat.mod_lt s.length hn) (by decide) (by decide) (by decide)
    (fun _ => 7) 12345 [123, 125] [107]

/-- From `ULONG_MAX` the loop of `ht_hash` does not start: `ht_get` looks into the last bin
and the backup gets nothing. -/
theorem not_sentWhereRead_ulongMax :
    ¬SentWhereRead (Percent.encode isUnreserved) (fun s n => s.length % n) samplePairs
      (fun _ => 0) (2 ^ 64 - 1) [123, 125] [107] := by
  rintro ⟨hsent, -⟩
  rw [saveValue_eq (fun s n hn => Nat.mod_lt s.length hn) (by decide) (by decide),
    if_neg (by decide +kernel)] at hsent
  exact absurd (congrArg List.length hsent) (by decide)

end Iceberg.Client
