import Iceberg.Lib.Percent
import Iceberg.Nginx.Hash

/-!
# The client (`IcebergClient.java`)

Where a client looks a key up: a host, chosen by hash from one of the two lists of the
configuration, and a path of three directories and the encoded key. The hash is a
parameter. Keys and the strings made of them are byte strings, in UTF-8; `URLEncoder` works
on characters, but leaves only ASCII characters alone and escapes the bytes of all others.
-/

namespace Iceberg.Client

open Decimal

/-- `'+'`, which `URLEncoder` writes for a blank. -/
abbrev plus : UInt8 := 43

def isAlnum (b : UInt8) : Bool := (48 ≤ b && b ≤ 57) || (65 ≤ b && b ≤ 90) || (97 ≤ b && b ≤ 122)

/-- The characters that `URLEncoder` leaves alone: letters, digits, `-`, `_`, `.` and `*`. -/
def isLeftAlone (b : UInt8) : Bool := isAlnum b || b = 45 || b = 95 || b = 46 || b = 42

/-- `URLEncoder.encode` on one byte. -/
def urlEncodeByte (b : UInt8) : Bytes :=
  if b = Byte.space then [plus] else if isLeftAlone b then [b] else Percent.escape b

/-- `URLEncoder.encode(key, "utf-8")`. -/
def urlEncode (key : Bytes) : Bytes := key.flatMap urlEncodeByte

/-- `String.format("%03d", n)`. -/
def format03d (n : Nat) : Bytes := zeroFilled 3 n

/-- The fields of `IcebergClient`: the lists of masters and of slaves, and the number of
directories of a level. -/
structure IcebergClient where
  ips : List (List Bytes)
  dirNum : Nat

namespace IcebergClient

variable (client : IcebergClient) (hash : Bytes → Nat → Nat)

/-- `getHost`; `choice` is what `random.nextInt(ips.size())` returns. -/
def getHost (choice : Nat) (key : Bytes) : Option Bytes := do
  let address ← client.ips[choice]?
  address[hash key address.length]?

/-- The three directories of `getPath`. -/
def dirs (key : Bytes) : List Bytes :=
  let dir₁ := hash key client.dirNum
  let newKey := key ++ format03d dir₁
  let dir₂ := hash newKey client.dirNum
  let newKey := newKey ++ format03d dir₂
  let dir₃ := hash newKey client.dirNum
  [format03d dir₁, format03d dir₂, format03d dir₃]

/-- `getPath`. -/
def getPath (key : Bytes) : Bytes :=
  Nginx.slash :: Nginx.joined (client.dirs hash key) ++ urlEncode key

end IcebergClient

/-! ## The same directories on all sides -/

/-- For a thousand directories the client's names are those of the storage server. -/
theorem dirs_eq_levels {hash : Bytes → Nat → Nat} (hhash : ∀ s, hash s 1000 < 1000)
    {client : IcebergClient} (hdirs : client.dirNum = 1000) (key : Bytes) :
    client.dirs hash key = Nginx.levels hash 3 key := by
  have hformat : ∀ s, format03d (hash s 1000) = padded 3 (hash s 1000) := fun s =>
    zeroFilled_eq_padded (k := 3) (hhash s) (by omega)
  simp [IcebergClient.dirs, Nginx.levels, hdirs, hformat]

/-- **The writer, the reader and the client choose the same directories**, three names of
three digits each. -/
theorem directories_agree {hash : Bytes → Nat → Nat} (hhash : ∀ s, hash s 1000 < 1000)
    {client : IcebergClient} (hdirs : client.dirNum = 1000) (beyond beyond' : Bytes)
    {key : Bytes} (hkey : Byte.nul ∉ key) :
    (Nginx.writeGetPath hash beyond key 1000).map Prod.fst
        = some (Nginx.filesDir ++ Nginx.joined (client.dirs hash key))
      ∧ Nginx.readGetPath hash beyond' key 1000
        = some (Nginx.filesUri ++ Nginx.joined (client.dirs hash key))
      ∧ client.getPath hash key
        = Nginx.slash :: Nginx.joined (client.dirs hash key) ++ urlEncode key
      ∧ (client.dirs hash key).length = 3
      ∧ ∀ dir ∈ client.dirs hash key, dir.length = 3 ∧ Nginx.slash ∉ dir := by
  refine ⟨?_, ?_, rfl, rfl, ?_⟩
  · have hpath := Nginx.getPath_eq hhash beyond Nginx.filesDir key
    rwa [cstr_of_nulFree hkey, ← dirs_eq_levels hhash hdirs] at hpath
  · have hpath := Nginx.getPath_eq hhash beyond' Nginx.filesUri key
    rwa [cstr_of_nulFree hkey, ← dirs_eq_levels hhash hdirs] at hpath
  · intro dir hdir
    rw [dirs_eq_levels hhash hdirs] at hdir
    obtain ⟨hlen, hbytes⟩ := Nginx.mem_levels hhash hdir
    refine ⟨hlen, fun hslash => ?_⟩
    have hlow : 48 ≤ Nginx.slash.toNat := (hbytes _ hslash).1
    exact absurd hlow (by decide)

theorem directories_agree_k :
    let hash : Bytes → Nat → Nat := fun s slot => s.length % slot
    let client : IcebergClient := { ips := [], dirNum := 1000 }
    (Nginx.writeGetPath hash [] [107] 1000).map Prod.fst
        = some (Nginx.filesDir ++ Nginx.joined (client.dirs hash [107]))
      ∧ Nginx.readGetPath hash [] [107] 1000
        = some (Nginx.filesUri ++ Nginx.joined (client.dirs hash [107]))
      ∧ client.getPath hash [107]
        = Nginx.slash :: Nginx.joined (client.dirs hash [107]) ++ urlEncode [107]
      ∧ (client.dirs hash [107]).length = 3
      ∧ ∀ dir ∈ client.dirs hash [107], dir.length = 3 ∧ Nginx.slash ∉ dir :=
  directories_agree (fun s => Nat.mod_lt s.length (by decide)) rfl [] [] (by decide)

end Iceberg.Client
