import Mathlib.Data.List.Basic

/-!
# Where a path leads

A path is cut into segments at a separator. Walking along segments from a directory, which
is given by the names on the way to it, drops empty segments and `"."`, and goes up for
`".."`. A path names a file only if its last segment is a name.
-/

namespace Paths

/-- `'.'`. -/
def dot : UInt8 := 46

/-- A segment that is the name of an entry of a directory. -/
def IsName (segment : List UInt8) : Prop :=
  segment ≠ [] ∧ segment ≠ [dot] ∧ segment ≠ [dot, dot]

instance (segment : List UInt8) : Decidable (IsName segment) :=
  inferInstanceAs (Decidable (_ ∧ _ ∧ _))

/-- The segments of a path, cut at every `sep`. -/
def segments (sep : UInt8) : List UInt8 → List (List UInt8)
  | [] => [[]]
  | b :: path =>
    if b = sep then [] :: segments sep path
    else
      match segments sep path with
      | [] => [[b]]
      | first :: rest => (b :: first) :: rest

/-- One segment further, from the directory `dir`. -/
def enter (dir : List (List UInt8)) (segment : List UInt8) : List (List UInt8) :=
  if segment = [] ∨ segment = [dot] then dir
  else if segment = [dot, dot] then dir.dropLast
  else dir ++ [segment]

/-- Along all segments. -/
def walk (dir : List (List UInt8)) (segments : List (List UInt8)) : List (List UInt8) :=
  segments.foldl enter dir

variable {sep : UInt8}

@[simp] theorem walk_nil (dir : List (List UInt8)) : walk dir [] = dir := rfl

/-- A walk over two lists of segments is the one walk after the other. -/
@[simp] theorem walk_append (dir a b : List (List UInt8)) :
    walk dir (a ++ b) = walk (walk dir a) b := List.foldl_append

/-- A segment that is a name goes one directory down. -/
theorem enter_name (dir : List (List UInt8)) {segment : List UInt8} (h : IsName segment) :
    enter dir segment = dir ++ [segment] := by
  obtain ⟨hempty, hdot, hdots⟩ := h
  rw [enter, if_neg (by simp [hempty, hdot]), if_neg hdots]

/-- Names lead down. -/
theorem walk_names (dir : List (List UInt8)) {names : List (List UInt8)}
    (h : ∀ name ∈ names, IsName name) : walk dir names = dir ++ names := by
  induction names generalizing dir with
  | nil => simp
  | cons name names ih =>
    have hrest := ih (enter dir name) fun n hn => h n (List.mem_cons_of_mem _ hn)
    rw [walk, List.foldl_cons, ← walk, hrest, enter_name dir (h name List.mem_cons_self)]
    simp

/-- Every path has a last segment, which may be empty. -/
theorem segments_ne_nil (path : List UInt8) : segments sep path ≠ [] := by
  cases path with
  | nil => simp [segments]
  | cons b path =>
    rw [segments]
    split
    · simp
    · split <;> simp

/-- Without a separator a path is one segment. -/
theorem segments_of_notMem {path : List UInt8} (h : sep ∉ path) : segments sep path = [path] := by
  induction path with
  | nil => rfl
  | cons b path ih =>
    rw [List.mem_cons, not_or] at h
    rw [segments, if_neg (Ne.symm h.1), ih h.2]

/-- A separator splits the segments. -/
theorem segments_append (path rest : List UInt8) :
    segments sep (path ++ sep :: rest) = segments sep path ++ segments sep rest := by
  induction path with
  | nil => simp [segments]
  | cons b path ih =>
    rw [List.cons_append, segments, segments, ih]
    by_cases hb : b = sep
    · rw [if_pos hb, if_pos hb, List.cons_append]
    · rw [if_neg hb, if_neg hb]
      cases hsegs : segments sep path with
      | nil => exact absurd hsegs (segments_ne_nil path)
      | cons first others => rfl

/-- Names with a separator behind each, and a path behind them. -/
theorem segments_flatMap {names : List (List UInt8)} (h : ∀ name ∈ names, sep ∉ name)
    (rest : List UInt8) :
    segments sep (names.flatMap (fun name => name ++ [sep]) ++ rest)
      = names ++ segments sep rest := by
  induction names with
  | nil => rfl
  | cons name names ih =>
    have hrest := ih fun n hn => h n (List.mem_cons_of_mem _ hn)
    rw [List.flatMap_cons, List.append_assoc, List.append_assoc, List.singleton_append,
      segments_append, hrest, segments_of_notMem (h name List.mem_cons_self)]
    rfl

/-- The last segment of a path. -/
def lastSegment (sep : UInt8) (path : List UInt8) : List UInt8 :=
  (segments sep path).getLast (segments_ne_nil path)

/-- The segments in front of the last. -/
def way (sep : UInt8) (path : List UInt8) : List (List UInt8) := (segments sep path).dropLast

/-- The segments are the way and then the last one. -/
theorem segments_eq (path : List UInt8) :
    segments sep path = way sep path ++ [lastSegment sep path] :=
  (List.dropLast_append_getLast (segments_ne_nil path)).symm

/-- A path without a separator has no way. -/
theorem way_of_notMem {path : List UInt8} (h : sep ∉ path) : way sep path = [] := by
  rw [way, segments_of_notMem h]
  rfl

/-- A path without a separator is its own last segment. -/
theorem lastSegment_of_notMem {path : List UInt8} (h : sep ∉ path) :
    lastSegment sep path = path := by
  simp [lastSegment, segments_of_notMem h]

/-- The file that a path names from the directory `dir`: the names on the way to it.
A path whose last segment is no name leads to a directory. -/
def file? (sep : UInt8) (dir : List (List UInt8)) (path : List UInt8) :
    Option (List (List UInt8)) :=
  if IsName (lastSegment sep path) then some (walk dir (segments sep path)) else none

/-- A file is named by the last segment, in the directory that the others lead to. -/
theorem file?_eq_some {dir file : List (List UInt8)} {path : List UInt8} :
    file? sep dir path = some file
      ↔ IsName (lastSegment sep path)
        ∧ file = walk dir (way sep path) ++ [lastSegment sep path] := by
  rw [file?]
  by_cases hname : IsName (lastSegment sep path)
  · have hwalk : walk dir (segments sep path)
        = walk dir (way sep path) ++ [lastSegment sep path] := by
      rw [segments_eq, walk_append, walk_names _ (by simpa using hname)]
    rw [if_pos hname, hwalk, Option.some.injEq, eq_comm]
    simp [hname]
  · simp [hname]

end Paths
