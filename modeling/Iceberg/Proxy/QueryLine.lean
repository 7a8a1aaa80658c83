import Iceberg.Proxy.Scanner
import Iceberg.Proxy.Sds

/-!
# The line that asks for a key

`queryKey` pastes the key into a line between `hgetall` and the line end, without quoting
it. Redis splits the line at its first newline into arguments. It finds the key again when
nothing in it means something there.
-/

namespace Iceberg

open Resp Sds

namespace Scan

/-- **Redis reads one request.** One line, whose arguments are `args`. -/
def InlineRequest (s : Bytes) (args : List Bytes) : Prop :=
  ∃ line, s = line ++ [Byte.lf] ∧ Byte.lf ∉ line ∧ sdssplitargs line = some args

/-- What `delParser` makes `queryKey` write for the command at `start` asks for `key`. -/
def AsksFor (w : WData) (start : Int) (key : Bytes) : Prop :=
  ∃ buf next, delParser w start = .ret [.query start buf] next
    ∧ InlineRequest (queryCmd buf) [hgetall, key]

/-- The keys that stand for themselves in a request line: not empty, without zero bytes,
blanks, line ends and quotes, and not starting with a vertical tab or a form feed. -/
def PlainKey (key : Bytes) : Prop :=
  key ≠ [] ∧ (∀ b ∈ key, b ∉ [0, 9, 10, 13, 32, 34, 39])
    ∧ key.head? ≠ some 11 ∧ key.head? ≠ some 12

instance (key : Bytes) : Decidable (PlainKey key) :=
  inferInstanceAs (Decidable (key ≠ [] ∧ (∀ b ∈ key, b ∉ [0, 9, 10, 13, 32, 34, 39])
    ∧ key.head? ≠ some 11 ∧ key.head? ≠ some 12))

/-! ## Tokens of the line -/

/-- Tokens only ever get appended. -/
theorem splitLoop_prefix {fuel : Nat} {vector out : List Bytes} {p : Bytes}
    (h : splitLoop fuel vector p = some out) : vector <+: out := by
  induction fuel generalizing vector p with
  | zero => exact absurd h (by simp [splitLoop])
  | succ fuel ih =>
    rw [splitLoop] at h
    split at h
    · obtain rfl := Option.some.inj h
      exact List.prefix_rfl
    · split at h
      · exact absurd h (by simp)
      · exact (List.prefix_append vector _).trans (ih h)

/-- With one argument read and two in the end, the next token is the second one. -/
theorem token_of_splitLoop {fuel : Nat} {a b p : Bytes}
    (h : splitLoop fuel [a] p = some [a, b]) :
    p.dropWhile isspace ≠ [] ∧ ∃ rest, token [] (p.dropWhile isspace) = some (b, rest) := by
  cases fuel with
  | zero => exact absurd h (by simp [splitLoop])
  | succ fuel =>
    rw [splitLoop] at h
    split at h
    · exact absurd (Option.some.inj h) (by simp)
    · rename_i c s hdrop
      split at h
      · exact absurd h (by simp)
      · rename_i current rest htoken
        have hpre := splitLoop_prefix h
        obtain rfl : current = b := by
          simpa [List.cons_prefix_cons] using hpre
        rw [hdrop]
        exact ⟨by simp, rest, htoken⟩

/-- A round of the outer loop that finds a token. -/
theorem splitLoop_token {fuel : Nat} {vector : List Bytes} {p current rest : Bytes}
    (hne : p.dropWhile isspace ≠ [])
    (htoken : token [] (p.dropWhile isspace) = some (current, rest)) :
    splitLoop (fuel + 1) vector p = splitLoop fuel (vector ++ [current]) rest := by
  obtain ⟨b, s, hcons⟩ := List.exists_cons_of_ne_nil hne
  rw [hcons] at htoken
  rw [splitLoop, hcons]
  simp only [htoken]

/-- The first token is `hgetall`. -/
theorem sdssplitargs_hgetall (s : Bytes) :
    sdssplitargs (hgetall ++ Byte.space :: s)
      = splitLoop (hgetall.length + s.length + 1) [hgetall] (cstr s) := by
  have hcstr : cstr (hgetall ++ Byte.space :: s) = hgetall ++ Byte.space :: cstr s := by
    have hpos : ∀ b ∈ hgetall ++ [Byte.space], decide (b ≠ Byte.nul) = true :=
      List.all_eq_true.mp rfl
    have hsplit : hgetall ++ Byte.space :: s = (hgetall ++ [Byte.space]) ++ s := by simp
    rw [hsplit, cstr, List.takeWhile_append_of_pos hpos]
    simp [cstr]
  have hdrop : (hgetall ++ Byte.space :: cstr s).dropWhile isspace
      = hgetall ++ Byte.space :: cstr s := rfl
  have htaken : hgetall.all (fun b => decide (Taken b)) = true := rfl
  have htoken : token [] ((hgetall ++ Byte.space :: cstr s).dropWhile isspace)
      = some (hgetall, cstr s) := by
    rw [hdrop]
    exact token_taken (fun b hb => of_decide_eq_true (List.all_eq_true.mp htaken b hb)) rfl
  rw [sdssplitargs, hcstr, splitLoop_token (by rw [hdrop]; exact List.cons_ne_nil _ _) htoken,
    List.nil_append]
  congr 1
  simp only [List.length_append, List.length_cons]
  omega

/-- The blanks are the six of the C locale. -/
theorem isspace_iff (b : UInt8) :
    isspace b = true ↔ b = 9 ∨ b = 10 ∨ b = 11 ∨ b = 12 ∨ b = 13 ∨ b = 32 := by
  simp only [isspace, Byte.space, Bool.or_eq_true, beq_iff_eq, Bool.and_eq_true,
    decide_eq_true_eq, UInt8.le_iff_toNat_le, ← UInt8.toNat_inj, UInt8.reduceToNat]
  omega

theorem taken_iff (b : UInt8) : Taken b ↔ b ∉ [9, 10, 13, 32, 34, 39] := by
  simp only [Taken, endsToken, Bool.or_eq_false_iff, beq_eq_false_iff_ne, List.mem_cons,
    List.not_mem_nil, or_false, not_or]
  tauto

/-- A plain key starts with no blank. -/
theorem PlainKey.dropWhile {key : Bytes} (h : PlainKey key) (s : Bytes) :
    (key ++ s).dropWhile isspace = key ++ s := by
  obtain ⟨hne, hbytes, hvt, hff⟩ := h
  obtain ⟨b, rest, rfl⟩ := List.exists_cons_of_ne_nil hne
  have hb : isspace b = false := by
    rw [← Bool.not_eq_true, isspace_iff]
    have hmem := hbytes b List.mem_cons_self
    simp only [List.mem_cons, List.not_mem_nil, or_false, not_or] at hmem
    simp only [List.head?_cons, ne_eq, Option.some.injEq] at hvt hff
    tauto
  rw [List.cons_append, List.dropWhile_cons, hb]
  rfl

/-- A plain key is the second argument of its line. -/
theorem sdssplitargs_plain {key : Bytes} (h : PlainKey key) :
    sdssplitargs (hgetall ++ Byte.space :: (key ++ [Byte.cr])) = some [hgetall, key] := by
  have hnul : Byte.nul ∉ key ++ [Byte.cr] := by
    rw [nul_notMem_append]
    exact ⟨fun hmem => h.2.1 _ hmem (by decide), by decide⟩
  have htoken : token [] (key ++ [Byte.cr]) = some (key, []) := by
    have htaken : ∀ b ∈ key, Taken b := fun b hb =>
      (taken_iff b).mpr fun hmem => h.2.1 b hb (List.mem_cons_of_mem _ hmem)
    exact token_taken htaken (by decide)
  rw [sdssplitargs_hgetall, cstr_of_nulFree hnul, splitLoop, h.dropWhile]
  obtain ⟨b, rest, hcons⟩ := List.exists_cons_of_ne_nil h.1
  rw [hcons, List.cons_append] at htoken ⊢
  simp only [htoken]
  rw [show hgetall.length + (b :: (rest ++ [Byte.cr])).length
    = hgetall.length + (rest ++ [Byte.cr]).length + 1 from rfl, splitLoop]
  rfl

/-- A key that comes back as the second argument is plain. -/
theorem plainKey_of_split {key : Bytes} (hlf : Byte.lf ∉ strncpy key)
    (h : sdssplitargs (hgetall ++ Byte.space :: (strncpy key ++ [Byte.cr]))
      = some [hgetall, key]) : PlainKey key := by
  rw [sdssplitargs_hgetall] at h
  obtain ⟨hne, rest, htoken⟩ := token_of_splitLoop h
  rcases Decidable.em (Byte.nul ∈ key) with hnul | hnul
  · -- behind the zero byte the line ends, and what is in front of it is too short
    have hshort : (cstr (strncpy key ++ [Byte.cr])).length < key.length := by
      have hcstr : (cstr key).length < key.length := by
        refine Nat.lt_of_le_of_ne (List.takeWhile_sublist _).length_le fun heq => ?_
        have hall : cstr key = key := (List.takeWhile_sublist _).eq_of_length heq
        have := List.takeWhile_eq_self_iff.mp hall _ hnul
        simp at this
      -- up to the zero byte the line is the key
      have hpos : ∀ b ∈ cstr key, decide (b ≠ Byte.nul) = true := fun b hb =>
        List.mem_takeWhile_imp (p := fun x : UInt8 => decide (x ≠ Byte.nul)) hb
      obtain ⟨n, hn⟩ : ∃ n, key.length - (cstr key).length = n + 1 :=
        ⟨key.length - (cstr key).length - 1, by omega⟩
      have hcut : cstr (strncpy key ++ [Byte.cr]) = cstr key := by
        rw [strncpy, hn, List.append_assoc]
        conv => lhs; rw [cstr, List.takeWhile_append_of_pos hpos]
        simp [List.replicate_succ]
      rw [hcut]
      exact hcstr
    have hlen := token_le htoken
    have hdrop : ((cstr (strncpy key ++ [Byte.cr])).dropWhile isspace).length
        ≤ (cstr (strncpy key ++ [Byte.cr])).length := (List.dropWhile_sublist _).length_le
    simp only [List.length_nil] at hlen
    omega
  · -- without a zero byte the line is the whole key
    have hcopy : strncpy key = key := copied_of_nulFree hnul
    have hcstr : cstr (key ++ [Byte.cr]) = key ++ [Byte.cr] :=
      cstr_of_nulFree (nul_notMem_append.mpr ⟨hnul, by decide⟩)
    rw [hcopy, hcstr, List.dropWhile_append] at hne htoken
    rw [hcopy] at hlf
    have hblank : (key.dropWhile isspace).isEmpty = false := by
      rw [← Bool.not_eq_true]
      intro hempty
      rw [if_pos hempty] at hne
      exact hne rfl
    rw [hblank] at htoken
    obtain ⟨hle, hall⟩ := token_length (e := Byte.cr) (by decide) htoken
    simp only [List.length_nil, Nat.zero_add] at hle hall
    -- no byte was skipped in front of the key
    have hsub : (key.dropWhile isspace).Sublist key := List.dropWhile_sublist _
    have heq : key.dropWhile isspace = key :=
      hsub.eq_of_length (Nat.le_antisymm hsub.length_le hle)
    rw [heq] at hall hblank
    have htaken := hall rfl
    have hkey : key ≠ [] := by simpa using hblank
    obtain ⟨b, tail, rfl⟩ := List.exists_cons_of_ne_nil hkey
    -- the key does not begin with a blank
    have hb : isspace b = false := by
      rw [← Bool.not_eq_true]
      intro hspace
      rw [List.dropWhile_cons, if_pos hspace] at heq
      have hshort := (List.dropWhile_sublist (l := tail) isspace).length_le
      rw [heq, List.length_cons] at hshort
      omega
    refine ⟨hkey, fun c hc hmem => ?_, ?_, ?_⟩
    · -- each byte was taken as it is, so none is a blank or a quote
      rcases List.mem_cons.mp hmem with rfl | hmem
      · exact hnul hc
      · exact (taken_iff c).mp (htaken c hc) hmem
    · -- a vertical tab or a form feed would have been skipped
      rintro heq11
      obtain rfl := Option.some.inj heq11
      exact absurd hb (by decide)
    · rintro heq12
      obtain rfl := Option.some.inj heq12
      exact absurd hb (by decide)

/-! ## The query -/

/-- **When the query asks for the deleted key.** For a `DEL` command in the buffer: exactly
when its key is plain. -/
theorem asksFor_iff (w : WData) (start : Int) (key t : Bytes)
    (hat : w.At start (array [delName, key] ++ t)) (hlen : w.len < 2 ^ 30) :
    AsksFor w start key ↔ PlainKey key := by
  -- the scan asks for the copy of the key
  have hparse : delParser w start = .ret [.query start (strncpy key)]
      (start + 18 + (Decimal.decimal key.length).length + key.length) := by
    refine delParser_key (s := crlf ++ t) ?_ hlen (by simp)
    rw [array_del] at hat
    simpa using hat
  have hcmd : queryCmd (strncpy key)
      = hgetall ++ Byte.space :: (strncpy key ++ [Byte.cr]) ++ [Byte.lf] := by
    rw [queryCmd, show strncpy (strncpy key) = strncpy key from copied_strncpy key]
    simp
  constructor
  · -- redis-server reads the line that was sent
    rintro ⟨buf, next, hret, line, hline, hlf, hargs⟩
    rw [hparse] at hret
    simp only [Res.ret.injEq, List.cons.injEq, Act.query.injEq, true_and, and_true] at hret
    obtain ⟨rfl, -⟩ := hret
    rw [hcmd] at hline
    obtain rfl := List.append_cancel_right hline
    refine plainKey_of_split (fun h => hlf ?_) hargs
    simp [h]
  · -- a plain key is copied and split as it is
    intro hplain
    have hcopy : strncpy key = key :=
      copied_of_nulFree fun h => hplain.2.1 _ h (by decide)
    refine ⟨strncpy key, _, hparse, _, hcmd, ?_, ?_⟩
    · have hkey : Byte.lf ∉ key := fun h => hplain.2.1 _ h (by decide)
      have hfront : Byte.lf ∉ hgetall := by decide
      rw [hcopy]
      simp only [List.mem_append, List.mem_cons, List.not_mem_nil, not_or, or_false]
      exact ⟨hfront, by decide, hkey, by decide⟩
    · rw [hcopy]
      exact sdssplitargs_plain hplain

/-- `DEL k1`. -/
theorem asksFor_iff_k1 :
    AsksFor ⟨array [delName, [107, 49]], fun _ => 0⟩ 0 [107, 49] ↔ PlainKey [107, 49] :=
  asksFor_iff ⟨array [delName, [107, 49]], fun _ => 0⟩ 0 [107, 49] []
    (by rw [List.append_nil]; exact WData.at_zero _) (by decide)

/-- **A blank splits the key.** For `DEL "a b"` the line has three arguments. -/
theorem not_asksFor_blank :
    ¬AsksFor ⟨array [delName, [97, 32, 98]], fun _ => 0⟩ 0 [97, 32, 98] := by
  rintro ⟨buf, next, hret, line, hline, hlf, hargs⟩
  have hparse : delParser ⟨array [delName, [97, 32, 98]], fun _ => 0⟩ 0
      = .ret [.query 0 [97, 32, 98]] 22 := by decide
  rw [hparse] at hret
  simp only [Res.ret.injEq, List.cons.injEq, Act.query.injEq, true_and, and_true] at hret
  obtain ⟨rfl, -⟩ := hret
  have hcmd : queryCmd [97, 32, 98] = hgetall ++ [32, 97, 32, 98, 13] ++ [Byte.lf] := by decide
  rw [hcmd] at hline
  obtain rfl := List.append_cancel_right hline
  exact absurd hargs (by decide)

end Scan

end Iceberg
