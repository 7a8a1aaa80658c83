import Iceberg.Lib.Paths
import Iceberg.Nginx.WriteData

/-!
# Which file a request opens (`writeData.lua`)

The directory comes from the decoded key and the file name is the key as it came, so a raw
key with slashes leads on from the directory. Paths are followed by their segments: the
directories on the way are taken to exist, and not to be links.
-/

namespace Iceberg.Nginx

open Decimal Paths

/-- The directories of `filesDir`. -/
def filesRoot : List Bytes :=
  [[117, 115, 114], [108, 111, 99, 97, 108], [111, 112, 101, 110, 114, 101, 115, 116, 121],
   [110, 103, 105, 110, 120], [104, 116, 109, 108], [102, 105, 108, 101, 115]]

theorem filesDir_eq : filesDir = slash :: joined filesRoot := rfl

section

variable (unescapeUri : Bytes → Bytes) (hash : Bytes → Nat → Nat) (beyond : Bytes)

/-- The file that a request opens, by the names on the way to it. -/
def openedFile (key : Bytes) : Option (List Bytes) :=
  (fileName unescapeUri hash beyond key).bind (file? slash [])

/-- The directory that `writeGetPath` makes for the decoded key. -/
def directory (key : Bytes) : Option (List Bytes) :=
  (writeGetPath hash beyond (unescapeUri key) 1000).map fun r => walk [] (segments slash r.1)

/-- What a request opens is directly inside the directory of its key, three levels under
the root of the files. -/
def Confined (key : Bytes) : Prop :=
  ∀ file ∈ openedFile unescapeUri hash beyond key,
    ∃ dir ∈ directory unescapeUri hash beyond key,
      filesRoot <+: dir ∧ dir.length = filesRoot.length + 3 ∧ ∃ name, file = dir ++ [name]

/-- Two requests for different keys do not open the same file. -/
def Separate (key key' : Bytes) : Prop :=
  unescapeUri key ≠ unescapeUri key' →
    ∀ file ∈ openedFile unescapeUri hash beyond key,
      file ∉ openedFile unescapeUri hash beyond key'

/-- Two requests whose files stay where they belong. -/
structure StayApart (key key' : Bytes) : Prop where
  confined : Confined unescapeUri hash beyond key
  confined' : Confined unescapeUri hash beyond key'
  separate : Separate unescapeUri hash beyond key key'

/-- The directory of a key: three numerals under the root of the files. -/
def bucket (key : Bytes) : List Bytes := filesRoot ++ levels hash 3 (cstr (unescapeUri key))

/-- The raw key names a directory, or its segments before the last lead back to the
directory of the key. -/
def LeadsBack (key : Bytes) : Prop :=
  IsName (Paths.lastSegment slash key) →
    walk (bucket unescapeUri hash key) (way slash key) = bucket unescapeUri hash key

end

/-! ## The opened file -/

section

variable {unescapeUri : Bytes → Bytes} {hash : Bytes → Nat → Nat}
  (hhash : ∀ s, hash s 1000 < 1000) (beyond key : Bytes)

/-- A directory name of three digits is neither `.` nor `..` nor empty. -/
theorem isName_of_length {segment : Bytes} (h : segment.length = 3) : IsName segment := by
  refine ⟨?_, ?_, ?_⟩
  · rintro rfl
    cases h
  · rintro rfl
    cases h
  · rintro rfl
    cases h

include hhash

/-- Every directory on the way to a file is a name without a slash. -/
theorem mem_bucket {name : Bytes} (h : name ∈ bucket unescapeUri hash key) :
    IsName name ∧ slash ∉ name := by
  rw [bucket, List.mem_append] at h
  rcases h with h | h
  · have hroot : ∀ name ∈ filesRoot, IsName name ∧ slash ∉ name := by decide
    exact hroot name h
  · obtain ⟨hlen, hbytes⟩ := mem_levels hhash h
    refine ⟨isName_of_length hlen, fun hslash => ?_⟩
    have hlow : 48 ≤ slash.toNat := (hbytes _ hslash).1
    exact absurd hlow (by decide)

variable (unescapeUri) in
/-- The path to a file goes through the directory of the key, and on along the raw key. -/
theorem segments_path (rest : Bytes) :
    segments slash (filesDir ++ joined (levels hash 3 (cstr (unescapeUri key))) ++ rest)
      = [] :: (bucket unescapeUri hash key ++ segments slash rest) := by
  have hpath : filesDir ++ joined (levels hash 3 (cstr (unescapeUri key))) ++ rest
      = [] ++ slash :: ((bucket unescapeUri hash key).flatMap (fun name => name ++ [slash])
        ++ rest) := by
    rw [filesDir_eq, bucket, List.flatMap_append]
    simp [joined]
  have hslash : ∀ name ∈ bucket unescapeUri hash key, slash ∉ name := fun name hname =>
    (mem_bucket hhash key hname).2
  rw [hpath, segments_append, segments_flatMap hslash]
  rfl

variable (unescapeUri) in
/-- The walk along the path enters the bucket of the key, and goes on from there. -/
theorem walk_path (rest : Bytes) :
    walk [] (segments slash (filesDir ++ joined (levels hash 3 (cstr (unescapeUri key))) ++ rest))
      = walk (bucket unescapeUri hash key) (segments slash rest) := by
  have hnames : ∀ name ∈ bucket unescapeUri hash key, IsName name := fun name hname =>
    (mem_bucket hhash key hname).1
  have hfirst : enter [] [] = ([] : List Bytes) := rfl
  rw [segments_path unescapeUri hhash, walk, List.foldl_cons, hfirst, ← walk, walk_append,
    walk_names [] hnames, List.nil_append]

/-- The last segment of the path is the one of the raw key. -/
theorem lastSegment_path (rest : Bytes) :
    Paths.lastSegment slash
        (filesDir ++ joined (levels hash 3 (cstr (unescapeUri key))) ++ rest)
      = Paths.lastSegment slash rest := by
  simp only [Paths.lastSegment, segments_path unescapeUri hhash]
  rw [List.getLast_cons (by simp [segments_ne_nil]),
    List.getLast_append_of_ne_nil _ (segments_ne_nil rest)]

/-- The file is looked for in the bucket of the key. -/
theorem directory_eq :
    directory unescapeUri hash beyond key = some (bucket unescapeUri hash key) := by
  have hpath := getPath_eq hhash beyond filesDir (unescapeUri key)
  obtain ⟨⟨path, opened⟩, hwrite, hfst⟩ := Option.map_eq_some_iff.mp hpath
  have hwalk := walk_path unescapeUri hhash key []
  have hend : walk (bucket unescapeUri hash key) (segments slash ([] : Bytes))
      = bucket unescapeUri hash key := by simp [segments, walk, enter]
  rw [List.append_nil, hend, ← show path = _ from hfst] at hwalk
  rw [directory, writeGetPath, hwrite, Option.map_some, hwalk]

/-- **The opened file** has the name of the last segment of the raw key, in the directory
that the other segments lead to. -/
theorem openedFile_eq_some {file : List Bytes} :
    openedFile unescapeUri hash beyond key = some file
      ↔ IsName (Paths.lastSegment slash key)
        ∧ file = walk (bucket unescapeUri hash key) (way slash key)
          ++ [Paths.lastSegment slash key] := by
  have hpath := getPath_eq hhash beyond filesDir (unescapeUri key)
  obtain ⟨⟨path, opened⟩, hwrite, hfst⟩ := Option.map_eq_some_iff.mp hpath
  have hname : fileName unescapeUri hash beyond key
      = some (filesDir ++ joined (levels hash 3 (cstr (unescapeUri key))) ++ key) := by
    rw [← show path = _ from hfst]
    simp [fileName, writeGetPath, hwrite]
  rw [openedFile, hname, Option.bind_some, file?, lastSegment_path hhash,
    walk_path unescapeUri hhash, ← file?, file?_eq_some]

/-! ## When requests stay apart -/

/-- **The file stays in its bucket** exactly if the directories in the raw key lead back to it. -/
theorem confined_iff :
    Confined unescapeUri hash beyond key ↔ LeadsBack unescapeUri hash key := by
  have hlen : (bucket unescapeUri hash key).length = filesRoot.length + 3 := by
    simp [bucket, levels]
  constructor
  · intro h hname
    obtain ⟨dir, hdir, -, -, name, hfile⟩ :=
      h _ ((openedFile_eq_some hhash beyond key).mpr ⟨hname, rfl⟩)
    rw [directory_eq hhash, Option.mem_def, Option.some.injEq] at hdir
    subst hdir
    exact (List.append_inj' hfile rfl).1
  · intro h file hfile
    obtain ⟨hname, rfl⟩ := (openedFile_eq_some hhash beyond key).mp hfile
    refine ⟨bucket unescapeUri hash key, directory_eq hhash beyond key, ?_, hlen,
      Paths.lastSegment slash key, ?_⟩
    · exact List.prefix_append _ _
    · rw [h hname]

/-- **Two requests stay apart** exactly if each raw key leads back to the directory of its
key, and they do not meet there: for different keys with the same directories the last
segments differ. -/
theorem stayApart_iff (key' : Bytes) :
    StayApart unescapeUri hash beyond key key'
      ↔ LeadsBack unescapeUri hash key ∧ LeadsBack unescapeUri hash key'
        ∧ (unescapeUri key ≠ unescapeUri key' →
            bucket unescapeUri hash key = bucket unescapeUri hash key' →
            IsName (Paths.lastSegment slash key) →
            Paths.lastSegment slash key ≠ Paths.lastSegment slash key') := by
  constructor
  · intro h
    have hback := (confined_iff hhash beyond key).mp h.confined
    have hback' := (confined_iff hhash beyond key').mp h.confined'
    refine ⟨hback, hback', ?_⟩
    intro hkeys hbucket hname hlast
    -- two files of one name in one directory would be one file
    have hname' : IsName (Paths.lastSegment slash key') := hlast ▸ hname
    apply h.separate hkeys _ ((openedFile_eq_some hhash beyond key).mpr ⟨hname, rfl⟩)
    apply (openedFile_eq_some hhash beyond key').mpr
    rw [hback hname, hback' hname', hbucket, hlast]
    exact ⟨hname', rfl⟩
  · rintro ⟨hback, hback', hmeet⟩
    refine ⟨(confined_iff hhash beyond key).mpr hback, (confined_iff hhash beyond key').mpr hback',
      ?_⟩
    intro hkeys file hfile hfile'
    obtain ⟨hname, rfl⟩ := (openedFile_eq_some hhash beyond key).mp hfile
    obtain ⟨hname', heq⟩ := (openedFile_eq_some hhash beyond key').mp hfile'
    rw [hback hname, hback' hname'] at heq
    -- one file means one directory and one name
    obtain ⟨hbucket, hlast⟩ := List.append_inj' heq rfl
    exact hmeet hkeys hbucket hname (List.singleton_inj.mp hlast)

omit hhash in
theorem leadsBack_of_notMem (h : slash ∉ key) : LeadsBack unescapeUri hash key := by
  intro _
  rw [way_of_notMem h, walk_nil]

/-- Raw keys without a slash stay apart. -/
theorem stayApart_of_notMem {key' : Bytes} (h : slash ∉ key) (h' : slash ∉ key') :
    StayApart unescapeUri hash beyond key key' := by
  rw [stayApart_iff hhash]
  refine ⟨leadsBack_of_notMem key h, leadsBack_of_notMem key' h', ?_⟩
  intro hkeys _ _ hlast
  rw [lastSegment_of_notMem h, lastSegment_of_notMem h'] at hlast
  exact hkeys (congrArg unescapeUri hlast)

theorem stayApart_curlEasyEscape {curlEasyEscape : Bytes → Bytes} {key' : Bytes}
    (hcurl : Escapes curlEasyEscape key) (hcurl' : Escapes curlEasyEscape key') :
    StayApart unescapeUri hash beyond (curlEasyEscape key) (curlEasyEscape key') :=
  stayApart_of_notMem hhash beyond _ hcurl.slash_notMem hcurl'.slash_notMem

end

/-- The bytes of a raw query argument: no blank, no control byte and no `'&'`. -/
def RawArgument (key : Bytes) : Prop := ∀ b ∈ key, b ≠ 38 ∧ 32 < b.toNat ∧ b.toNat ≠ 127

theorem stayApart_iff_k :
    let hash : Bytes → Nat → Nat := fun s slot => s.length % slot
    let unescapeUri : Bytes → Bytes := fun s => s
    StayApart unescapeUri hash [] [107] [46, 46, 47, 107]
      ↔ LeadsBack unescapeUri hash [107] ∧ LeadsBack unescapeUri hash [46, 46, 47, 107]
        ∧ (unescapeUri [107] ≠ unescapeUri [46, 46, 47, 107] →
            bucket unescapeUri hash [107] = bucket unescapeUri hash [46, 46, 47, 107] →
            IsName (Paths.lastSegment slash [107]) →
            Paths.lastSegment slash [107] ≠ Paths.lastSegment slash [46, 46, 47, 107]) := by
  intro hash unescapeUri
  exact @stayApart_iff unescapeUri hash (fun s => Nat.mod_lt s.length (by decide)) [] [107]
    [46, 46, 47, 107]

/-- The raw key `"../k"` leads out of its directory. -/
theorem not_stayApart :
    let hash : Bytes → Nat → Nat := fun s slot => s.length % slot
    let unescapeUri : Bytes → Bytes := fun s => (Percent.decode s).getD s
    ¬∀ key key', RawArgument key → RawArgument key' →
      StayApart unescapeUri hash [] key key' := by
  intro hash unescapeUri h
  have hhash : ∀ s, hash s 1000 < 1000 := fun s => Nat.mod_lt s.length (by decide)
  have hapart := h [46, 46, 47, 107] [107] (by simp [RawArgument]) (by simp [RawArgument])
  have hback := (confined_iff hhash [] [46, 46, 47, 107]).mp hapart.confined (by decide)
  have hlen := congrArg List.length hback
  revert hlen
  decide

end Iceberg.Nginx
