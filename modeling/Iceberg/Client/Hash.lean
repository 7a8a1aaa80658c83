import Iceberg.Proxy.Md5Lemmas

/-!
# One hash on all sides

The client takes the MD5 of the key from the Java library, the proxy and the storage server
compute it themselves; all of them reduce the sum of the digest's bytes.
-/

namespace Iceberg.Client

/-- `IcebergClient.hash`; the digest of the Java library is that of RFC 1321. The text of
the digest, which the method also builds, is not used. -/
def hash (input : Bytes) (slot : Nat) : Nat :=
  let messageDigest := Rfc1321.md5 input
  messageDigest.foldl (fun total b => total + b.toNat) 0 % slot

/-- **All sides hash alike**, whatever the context's buffer holds before. -/
theorem hash_agrees {buffer : Bytes} (hbuffer : buffer.length = 64) {key : Bytes}
    (hkey : Byte.nul ∉ key) (hlen : key.length < 2 ^ 29) {slot : Nat} (hslot : 1 ≤ slot) :
    Md5.hash buffer key slot = hash key slot ∧ Md5.hash buffer key slot < slot := by
  have hupdate := (Md5.holds_init hbuffer).update key (Nat.lt_trans hlen (by decide))
  have hdigest := hupdate.final
  rw [List.nil_append] at hdigest
  refine ⟨?_, Nat.mod_lt _ hslot⟩
  rw [Md5.hash, cstr_of_nulFree hkey, hdigest]
  rfl

/-- A key of more than one block. -/
theorem hash_agrees_k :
    Md5.hash (List.replicate 64 255) (List.replicate 100 107) 1000
        = hash (List.replicate 100 107) 1000
      ∧ Md5.hash (List.replicate 64 255) (List.replicate 100 107) 1000 < 1000 :=
  hash_agrees rfl (by decide) (by decide) (by decide)

end Iceberg.Client
