import Iceberg.Client.IcebergClient
import Iceberg.Nginx.WriteData

/-!
# The name of the file and the name in the URL

The proxy escapes the key once more than the storage server decodes it, so the file of a
key is named by the escaped key; the client's URL denotes the key itself, with blanks
turned into `'+'`. The two agree exactly on keys that need no escaping.
-/

namespace Iceberg.Client

/-- The decoded last segment of the client's path is the name of the file that the proxy's
post of the key was written to. -/
def FoundAgain (client : IcebergClient) (hash : Bytes → Nat → Nat)
    (unescapeUri curlEasyEscape : Bytes → Bytes) (beyond key : Bytes) : Prop :=
  ∃ file, Nginx.fileName unescapeUri hash beyond (curlEasyEscape key) = some file
    ∧ Percent.decode (Nginx.lastSegment (client.getPath hash key))
      = some (Nginx.lastSegment file)

/-- What one byte of the key is in the decoded URL. -/
def blankToPlus (b : UInt8) : UInt8 := if b = Byte.space then plus else b

/-- Java's encoding is decoded to the key, except that a blank comes back as the `+` that stands
for it in a form. Induction on the key, with one case for each kind of byte. -/
theorem decode_urlEncode (key : Bytes) :
    Percent.decode (urlEncode key) = some (key.map blankToPlus) := by
  refine Percent.decode_flatMap (fun b => ?_) key
  unfold urlEncodeByte blankToPlus
  by_cases hspace : b = Byte.space
  · exact Or.inl ⟨by simp [hspace], by simp only [if_pos hspace]; decide⟩
  · by_cases halone : isLeftAlone b
    · refine Or.inl ⟨by simp [hspace, halone], fun h => ?_⟩
      rw [if_neg hspace] at h
      rw [h] at halone
      exact absurd halone (by decide)
    · exact Or.inr (by simp [hspace, halone])

/-- An encoded key has no slash: it is neither left alone nor a hexadecimal digit. -/
theorem slash_notMem_urlEncode (key : Bytes) : Nginx.slash ∉ urlEncode key := by
  simp only [urlEncode, List.mem_flatMap, not_exists, not_and]
  intro b _
  unfold urlEncodeByte
  by_cases hspace : b = Byte.space
  · rw [if_pos hspace]
    decide
  by_cases halone : isLeftAlone b
  · rw [if_neg hspace, if_pos halone, List.mem_singleton]
    rintro rfl
    exact absurd halone (by decide)
  · rw [if_neg hspace, if_neg halone]
    exact Percent.notMem_escape (by decide) (by decide) b

/-- The last segment of the path is the encoded key, behind the three directories. -/
theorem lastSegment_getPath (client : IcebergClient) (hash : Bytes → Nat → Nat) (key : Bytes) :
    Nginx.lastSegment (client.getPath hash key) = urlEncode key := by
  have hsplit : client.getPath hash key
      = (Nginx.slash :: (client.dirs hash key).dropLast.flatMap (· ++ [Nginx.slash])
          ++ (client.dirs hash key).getLast (by simp [IcebergClient.dirs]))
        ++ Nginx.slash :: urlEncode key := by
    simp [IcebergClient.getPath, IcebergClient.dirs, Nginx.joined]
  rw [hsplit, Nginx.lastSegment_append (slash_notMem_urlEncode key)]

/-- Both names, as functions of the key. -/
theorem foundAgain_iff_names {hash : Bytes → Nat → Nat} (hhash : ∀ s, hash s 1000 < 1000)
    (client : IcebergClient) (unescapeUri : Bytes → Bytes) {curlEasyEscape : Bytes → Bytes}
    (beyond : Bytes) {key : Bytes} (hcurl : Escapes curlEasyEscape key) :
    FoundAgain client hash unescapeUri curlEasyEscape beyond key
      ↔ key.map blankToPlus = Percent.encode isUnreserved key := by
  have hfile := Nginx.lastSegment_fileName hhash unescapeUri beyond hcurl.slash_notMem
  rw [← show curlEasyEscape key = _ from hcurl]
  obtain ⟨file, hname, hlast⟩ := Option.map_eq_some_iff.mp hfile
  constructor
  · rintro ⟨file', hname', hdecode⟩
    obtain rfl : file = file' := by simpa [hname] using hname'
    rw [lastSegment_getPath, decode_urlEncode, hlast] at hdecode
    simpa using hdecode
  · intro h
    refine ⟨file, hname, ?_⟩
    rw [lastSegment_getPath, decode_urlEncode, hlast, h]

/-- **A stored value is found again exactly when its key needs no escaping.** -/
theorem foundAgain_iff {hash : Bytes → Nat → Nat} (hhash : ∀ s, hash s 1000 < 1000)
    (client : IcebergClient) (unescapeUri : Bytes → Bytes) {curlEasyEscape : Bytes → Bytes}
    (beyond : Bytes) {key : Bytes} (hcurl : Escapes curlEasyEscape key) :
    FoundAgain client hash unescapeUri curlEasyEscape beyond key
      ↔ ∀ b ∈ key, isUnreserved b = true := by
  rw [foundAgain_iff_names hhash client unescapeUri beyond hcurl]
  constructor
  · intro h b hb
    -- an escaped byte makes the file's name longer than the key
    have hlen := Percent.length_encode isUnreserved key
    have hcount : key.countP (fun b => !isUnreserved b) = 0 := by
      have := congrArg List.length h
      rw [List.length_map] at this
      omega
    simpa using List.countP_eq_zero.mp hcount b hb
  · intro h
    rw [Percent.encode_eq_self_iff.mpr h]
    have hkeep : ∀ b ∈ key, blankToPlus b = b := by
      intro b hb
      have hne : b ≠ Byte.space := by
        rintro rfl
        exact absurd (h _ hb) (by decide)
      rw [blankToPlus, if_neg hne]
    simpa using List.map_congr_left hkeep

/-- The key `k-1` and every hash that counts bytes. -/
theorem foundAgain_iff_k1 :
    FoundAgain ⟨[], 1000⟩ (fun s slot => s.length % slot) id (Percent.encode isUnreserved) []
        [107, 45, 49]
      ↔ ∀ b ∈ [107, 45, 49], isUnreserved b = true :=
  foundAgain_iff (fun s => Nat.mod_lt s.length (by decide)) ⟨[], 1000⟩ id [] rfl

/-- The key `a:b`: its file is named `a%3Ab`, its URL denotes `a:b`. -/
theorem not_foundAgain_colon :
    ¬FoundAgain ⟨[], 1000⟩ (fun s slot => s.length % slot) id (Percent.encode isUnreserved) []
        [97, 58, 98] := by
  rw [foundAgain_iff_names (fun s => Nat.mod_lt s.length (by decide)) _ _ _ rfl]
  decide

end Iceberg.Client
