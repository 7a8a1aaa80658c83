import Iceberg.Proxy.LruedQuery

/-!
# What the carry buffers carry

A part of a command or of an answer that a read leaves over passes through `strncpy` twice,
in `saveToBuf` and in the merge, and the read that continues it once. The copies stop at the
first zero byte. The carried bytes arrive as they were exactly when zeros only stand at the
end, of the part and of the read.
-/

namespace Iceberg

/-- **The carry is exact.** What `saveToBuf` keeps from `start` on is put in front of the
next read byte for byte, and either caller goes on as if that had been one read with nothing
carried. -/
structure CarriedExactly (w : WData) (start : Int) (next : WData) (buf : Bytes) : Prop where
  saved : saveToBuf w start = some buf
  merged : (mergeCarry buf next).data = w.data.drop start.toNat ++ next.data
  answers : ∀ a : Answers, a.bufSlaveAnswer = buf →
    a.parseReadData next = ({ a with bufSlaveAnswer := [] }).parseReadData
      ⟨w.data.drop start.toNat ++ next.data, next.around⟩
  commands : Scan.processInputBuffer buf next
    = Scan.processInputBuffer [] ⟨w.data.drop start.toNat ++ next.data, next.around⟩

theorem strncpy_strncpy (s : Bytes) : strncpy (strncpy s) = strncpy s := copied_strncpy s

theorem mergeCarry_nil (w : WData) : mergeCarry [] w = w := by
  simp [mergeCarry]

/-- The merge, with the part that was saved: both of its pieces are copies. -/
theorem mergeCarry_strncpy {s : Bytes} {next : WData} (hne : s ≠ [])
    (hfit : s.length + next.data.length < maxRead * 2) :
    mergeCarry (strncpy s) next = ⟨strncpy s ++ strncpy next.data, next.around⟩ := by
  have hpos : 0 < s.length := List.length_pos_iff.mpr hne
  rw [mergeCarry, length_strncpy, if_pos ⟨hpos, hfit⟩, strncpy_strncpy]

/-- The bytes from `start` on, as a position of the buffer. -/
theorem WData.at_drop {w : WData} {start : Int} (hnn : 0 ≤ start) (hlt : start < w.len) :
    w.At start (w.data.drop start.toNat) := by
  refine ⟨hnn, ?_, rfl⟩
  rw [List.length_drop]
  simp only [WData.len] at hlt ⊢
  omega

/-- **When the carry is exact.** The part that is left over and the read that continues it
both have zero bytes at their end only. -/
theorem carriedExactly_iff (w next : WData) (start : Int) (hnn : 0 ≤ start)
    (hlt : start < w.len) (hfit : w.len - start < maxRead)
    (hread : next.data.length ≤ maxRead) :
    (∃ buf, CarriedExactly w start next buf)
      ↔ Copied (w.data.drop start.toNat) ∧ Copied next.data := by
  have hat := WData.at_drop hnn hlt
  have hlen : ((w.data.drop start.toNat).length : Int) = w.len - start := by
    have := hat.2.1
    omega
  have hne : w.data.drop start.toNat ≠ [] := List.ne_nil_of_length_pos (by omega)
  -- what is saved and merged are the copies that `strncpy` makes
  have hsave : saveToBuf w start = some (strncpy (w.data.drop start.toNat)) :=
    saveToBuf_fit hat (by omega)
  have hmerge : mergeCarry (strncpy (w.data.drop start.toNat)) next
      = ⟨strncpy (w.data.drop start.toNat) ++ strncpy next.data, next.around⟩ :=
    mergeCarry_strncpy hne (by unfold maxRead at hfit hread ⊢; omega)
  constructor
  · -- the copies are the bytes themselves
    rintro ⟨buf, hsaved, hmerged, -, -⟩
    obtain rfl : strncpy (w.data.drop start.toNat) = buf :=
      Option.some.inj (hsave.symm.trans hsaved)
    rw [hmerge] at hmerged
    exact List.append_inj hmerged (length_strncpy _)
  · -- both calls are then made on the whole
    rintro ⟨hpart, hnext⟩
    have hwhole : mergeCarry (w.data.drop start.toNat) next
        = ⟨w.data.drop start.toNat ++ next.data, next.around⟩ := by
      rw [hpart, hnext] at hmerge
      exact hmerge
    refine ⟨w.data.drop start.toNat, ?_, by rw [hwhole], ?_, ?_⟩
    · rw [hsave, hpart]
    · intro a ha
      simp only [Answers.parseReadData, ha, hwhole, mergeCarry_nil]
    · simp only [Scan.processInputBuffer, hwhole, mergeCarry_nil]

/-- A part `"a"` of a read, continued by a read that ends in a zero byte. -/
theorem carriedExactly_iff_a :
    (∃ buf, CarriedExactly ⟨[42, 97], fun _ => 0⟩ 1 ⟨[98, 0], fun _ => 0⟩ buf)
      ↔ Copied ([42, 97].drop (1 : Int).toNat) ∧ Copied [98, 0] :=
  carriedExactly_iff ⟨[42, 97], fun _ => 0⟩ ⟨[98, 0], fun _ => 0⟩ 1 (by decide) (by decide)
    (by decide) (by decide)

/-- **Zero bytes erase what follows them.** Of the bulk string `"\0ab"`, the part up to `'a'` is
left over and continued by `"b\r\n"`; it arrives as two zeros and `'b'`. -/
theorem not_carriedExactly_nul :
    ¬∃ buf, CarriedExactly ⟨[36, 51, 13, 10, 0, 97], fun _ => 0⟩ 0 ⟨[98, 13, 10], fun _ => 0⟩
      buf := by
  rintro ⟨buf, hsaved, hmerged, -, -⟩
  have hbuf : saveToBuf ⟨[36, 51, 13, 10, 0, 97], fun _ => 0⟩ 0 = some [36, 51, 13, 10, 0, 0] := by
    decide
  obtain rfl : [36, 51, 13, 10, 0, 0] = buf := Option.some.inj (hbuf.symm.trans hsaved)
  exact absurd hmerged (by decide)

end Iceberg
