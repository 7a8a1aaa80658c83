import Mathlib.Data.List.Basic
import Mathlib.Data.List.TakeDrop

/-!
# Framed streams

A stream is the concatenation of frames, each encoded by at least one symbol. A reader
that has seen the first `n` symbols has seen some frames completely (`whole`) and holds
the opening symbols of the next one (`rest`). The facts below say how the two advance
when more symbols arrive, whatever the cut; `foldl_chunks` packages them as the
induction a carry-buffer reader needs.
-/

namespace Framing

variable {α β σ τ : Type*} (enc : β → List α)

/-- The number of frames that lie completely in the first `n` symbols. -/
def whole : List β → Nat → Nat
  | [], _ => 0
  | f :: fs, n => if (enc f).length ≤ n then whole fs (n - (enc f).length) + 1 else 0

/-- The symbols of the frame that the first `n` symbols break off in. -/
def rest : List β → Nat → List α
  | [], _ => []
  | f :: fs, n =>
    if (enc f).length ≤ n then rest fs (n - (enc f).length) else (enc f).take n

@[simp] theorem whole_nil (n : Nat) : whole enc [] n = 0 := rfl

@[simp] theorem rest_nil (n : Nat) : rest enc [] n = [] := rfl

/-- A frame that fits into the prefix counts, and the rest of the prefix lies in the later
ones. -/
theorem whole_cons_of_le {f : β} {fs : List β} {n : Nat} (h : (enc f).length ≤ n) :
    whole enc (f :: fs) n = whole enc fs (n - (enc f).length) + 1 := by
  simp [whole, h]

/-- A frame that fits into the prefix leaves the remainder to the later ones. -/
theorem rest_cons_of_le {f : β} {fs : List β} {n : Nat} (h : (enc f).length ≤ n) :
    rest enc (f :: fs) n = rest enc fs (n - (enc f).length) := by
  simp [rest, h]

/-- If the first frame does not fit, no frame is whole. -/
theorem whole_cons_of_lt {f : β} {fs : List β} {n : Nat} (h : n < (enc f).length) :
    whole enc (f :: fs) n = 0 := by
  simp [whole, Nat.not_le.mpr h]

/-- If the first frame does not fit, the prefix is all remainder. -/
theorem rest_cons_of_lt {f : β} {fs : List β} {n : Nat} (h : n < (enc f).length) :
    rest enc (f :: fs) n = (enc f).take n := by
  simp [rest, Nat.not_le.mpr h]

/-- There are never more whole frames than frames. -/
theorem whole_le_length (fs : List β) (n : Nat) : whole enc fs n ≤ fs.length := by
  induction fs generalizing n with
  | nil => simp
  | cons f fs ih =>
    by_cases h : (enc f).length ≤ n
    · rw [whole_cons_of_le enc h]
      simpa using ih (n - (enc f).length)
    · rw [whole_cons_of_lt enc (Nat.not_le.mp h)]
      omega

/-- The first `n` symbols are the whole frames followed by the broken one. -/
theorem take_stream (fs : List β) (n : Nat) :
    (fs.flatMap enc).take n
      = (fs.take (whole enc fs n)).flatMap enc ++ rest enc fs n := by
  induction fs generalizing n with
  | nil => simp
  | cons f fs ih =>
    by_cases h : (enc f).length ≤ n
    · rw [whole_cons_of_le enc h, rest_cons_of_le enc h, List.flatMap_cons,
        List.take_append, List.take_of_length_le h, ih, List.take_succ_cons,
        List.flatMap_cons, List.append_assoc]
    · have hlt := Nat.not_le.mp h
      rw [whole_cons_of_lt enc hlt, rest_cons_of_lt enc hlt, List.flatMap_cons,
        List.take_append_of_le_length (Nat.le_of_lt hlt)]
      simp

/-- A broken frame is a proper beginning of the frame that comes next. -/
theorem rest_prefix (fs : List β) (n : Nat) :
    rest enc fs n = [] ∨
      ∃ g, fs[whole enc fs n]? = some g ∧ rest enc fs n <+: enc g
        ∧ (rest enc fs n).length < (enc g).length := by
  induction fs generalizing n with
  | nil => exact Or.inl rfl
  | cons f fs ih =>
    by_cases h : (enc f).length ≤ n
    · rw [whole_cons_of_le enc h, rest_cons_of_le enc h, List.getElem?_cons_succ]
      exact ih (n - (enc f).length)
    · have hlt := Nat.not_le.mp h
      rw [whole_cons_of_lt enc hlt, rest_cons_of_lt enc hlt]
      refine Or.inr ⟨f, rfl, List.take_prefix _ _, ?_⟩
      rw [List.length_take]
      omega

/-- Reading to the end of the stream completes every frame. -/
theorem whole_length (fs : List β) : whole enc fs (fs.flatMap enc).length = fs.length := by
  induction fs with
  | nil => rfl
  | cons f fs ih =>
    have hle : (enc f).length ≤ ((f :: fs).flatMap enc).length := by simp
    rw [whole_cons_of_le enc hle, List.flatMap_cons, List.length_append,
      Nat.add_sub_cancel_left, ih, List.length_cons]

/-- The whole stream leaves no remainder. -/
theorem rest_length (fs : List β) : rest enc fs (fs.flatMap enc).length = [] := by
  induction fs with
  | nil => rfl
  | cons f fs ih =>
    have hle : (enc f).length ≤ ((f :: fs).flatMap enc).length := by simp
    rw [rest_cons_of_le enc hle, List.flatMap_cons, List.length_append,
      Nat.add_sub_cancel_left, ih]

section Nonempty

variable (hne : ∀ f, enc f ≠ [])
include hne

/-- Nothing is read before the first symbol. -/
theorem whole_zero (fs : List β) : whole enc fs 0 = 0 := by
  cases fs with
  | nil => rfl
  | cons f fs => exact whole_cons_of_lt enc (List.length_pos_iff.mpr (hne f))

/-- The empty prefix leaves no remainder. -/
theorem rest_zero (fs : List β) : rest enc fs 0 = [] := by
  cases fs with
  | nil => rfl
  | cons f fs =>
    rw [rest_cons_of_lt enc (List.length_pos_iff.mpr (hne f))]
    rfl

/-- A stream has at least one symbol for each frame. -/
theorem length_le_stream (fs : List β) : fs.length ≤ (fs.flatMap enc).length := by
  induction fs with
  | nil => simp
  | cons f fs ih =>
    have hpos := List.length_pos_iff.mpr (hne f)
    simp only [List.flatMap_cons, List.length_append, List.length_cons]
    omega

/-- Frames that come behind what has been read do not matter. -/
theorem whole_append (fs gs : List β) {n : Nat} (hn : n ≤ (fs.flatMap enc).length) :
    whole enc (fs ++ gs) n = whole enc fs n := by
  induction fs generalizing n with
  | nil =>
    have h0 : n = 0 := by simpa using hn
    subst h0
    simpa using whole_zero enc hne gs
  | cons f fs ih =>
    by_cases h : (enc f).length ≤ n
    · rw [List.cons_append, whole_cons_of_le enc h, whole_cons_of_le enc h, ih]
      simp only [List.flatMap_cons, List.length_append] at hn
      omega
    · have hlt := Nat.not_le.mp h
      rw [List.cons_append, whole_cons_of_lt enc hlt, whole_cons_of_lt enc hlt]

/-- Frames that are added behind a prefix do not change its remainder. -/
theorem rest_append (fs gs : List β) {n : Nat} (hn : n ≤ (fs.flatMap enc).length) :
    rest enc (fs ++ gs) n = rest enc fs n := by
  induction fs generalizing n with
  | nil =>
    have h0 : n = 0 := by simpa using hn
    subst h0
    simpa using rest_zero enc hne gs
  | cons f fs ih =>
    by_cases h : (enc f).length ≤ n
    · rw [List.cons_append, rest_cons_of_le enc h, rest_cons_of_le enc h, ih]
      simp only [List.flatMap_cons, List.length_append] at hn
      omega
    · have hlt := Nat.not_le.mp h
      rw [List.cons_append, rest_cons_of_lt enc hlt, rest_cons_of_lt enc hlt]

end Nonempty

/-- The number of completed frames only grows. -/
theorem whole_mono (fs : List β) {n m : Nat} (h : n ≤ m) :
    whole enc fs n ≤ whole enc fs m := by
  induction fs generalizing n m with
  | nil => simp
  | cons f fs ih =>
    by_cases hf : (enc f).length ≤ n
    · rw [whole_cons_of_le enc hf, whole_cons_of_le enc (Nat.le_trans hf h)]
      have := ih (Nat.sub_le_sub_right h (enc f).length)
      omega
    · rw [whole_cons_of_lt enc (Nat.not_le.mp hf)]
      omega

/-- The frames that `m` more symbols complete. -/
def between (fs : List β) (n m : Nat) : List β :=
  (fs.drop (whole enc fs n)).take (whole enc fs (n + m) - whole enc fs n)

/-- The frames that end between two places are frames of the stream. -/
theorem mem_of_mem_between {fs : List β} {n m : Nat} {f : β} (h : f ∈ between enc fs n m) :
    f ∈ fs :=
  List.mem_of_mem_drop (List.mem_of_mem_take h)

/-- As many frames end between two places as there are more whole ones at the second. -/
theorem length_between (fs : List β) (n m : Nat) :
    (between enc fs n m).length = whole enc fs (n + m) - whole enc fs n := by
  have hle := whole_le_length enc fs (n + m)
  rw [between, List.length_take, List.length_drop]
  omega

/-- No more frames end in a piece than were not whole before it. -/
theorem length_between_le (fs : List β) (n m : Nat) :
    (between enc fs n m).length ≤ fs.length - whole enc fs n := by
  rw [between, List.length_take, List.length_drop]
  exact Nat.min_le_right _ _

/-- The frames that are whole at the second place are those at the first, and those between. -/
theorem take_whole_add (fs : List β) (n m : Nat) :
    fs.take (whole enc fs (n + m)) = fs.take (whole enc fs n) ++ between enc fs n m := by
  have hmono := whole_mono enc fs (Nat.le_add_right n m)
  rw [between, ← List.take_add, Nat.add_sub_cancel' hmono]

/-- **One read.** What a reader holds, followed by the next chunk of the stream, is the
frames that the chunk completes followed by what is then held. -/
theorem rest_append_chunk (fs : List β) (n m : Nat) :
    rest enc fs n ++ ((fs.flatMap enc).drop n).take m
      = (between enc fs n m).flatMap enc ++ rest enc fs (n + m) := by
  induction fs generalizing n with
  | nil => simp [between]
  | cons f fs ih =>
    by_cases h : (enc f).length ≤ n
    · have h' : (enc f).length ≤ n + m := by omega
      have hsub : n + m - (enc f).length = (n - (enc f).length) + m := by omega
      rw [between, whole_cons_of_le enc h, rest_cons_of_le enc h, whole_cons_of_le enc h',
        rest_cons_of_le enc h', hsub, List.flatMap_cons, List.drop_append,
        List.drop_of_length_le h, List.nil_append, ih, List.drop_succ_cons,
        Nat.add_sub_add_right, between]
    · -- the frame was broken: the chunk continues it
      have hlt := Nat.not_le.mp h
      have hjoin : (enc f).take n ++ (((f :: fs).flatMap enc).drop n).take m
          = ((f :: fs).flatMap enc).take (n + m) := by
        rw [List.take_add, List.flatMap_cons,
          List.take_append_of_le_length (Nat.le_of_lt hlt)]
      rw [between, whole_cons_of_lt enc hlt, rest_cons_of_lt enc hlt, hjoin, take_stream,
        Nat.sub_zero, List.drop_zero]

/-- Inside the frame `g` a reader holds the symbols of `g` it has seen. -/
theorem rest_inside (fs : List β) (g : β) (gs : List β) {d : Nat} (h : d < (enc g).length) :
    rest enc (fs ++ g :: gs) ((fs.flatMap enc).length + d) = (enc g).take d := by
  induction fs with
  | nil => simpa using rest_cons_of_lt enc h
  | cons f fs ih =>
    have hsub : ((f :: fs).flatMap enc).length + d - (enc f).length
        = (fs.flatMap enc).length + d := by
      simp only [List.flatMap_cons, List.length_append]
      omega
    rw [List.cons_append, rest_cons_of_le enc (by simp [Nat.add_assoc]), hsub, ih]

/-- Inside the next frame the whole ones are those before it. -/
theorem whole_inside (fs : List β) (g : β) (gs : List β) {d : Nat} (h : d < (enc g).length) :
    whole enc (fs ++ g :: gs) ((fs.flatMap enc).length + d) = fs.length := by
  induction fs with
  | nil => simpa using whole_cons_of_lt enc h
  | cons f fs ih =>
    have hsub : ((f :: fs).flatMap enc).length + d - (enc f).length
        = (fs.flatMap enc).length + d := by
      simp only [List.flatMap_cons, List.length_append]
      omega
    rw [List.cons_append, whole_cons_of_le enc (by simp [Nat.add_assoc]), hsub, ih]
    rfl

/-! ## Streams cut into chunks -/

section Chunks

variable (bytes : τ → List α)

/-- The boundary behind some chunks. -/
def boundary (chunks : List τ) : Nat := (chunks.flatMap bytes).length

@[simp] theorem boundary_nil : boundary bytes [] = 0 := rfl

/-- A further chunk moves the boundary on by its length. -/
theorem boundary_concat (chunks : List τ) (c : τ) :
    boundary bytes (chunks ++ [c]) = boundary bytes chunks + (bytes c).length := by
  simp [boundary]

/-- Chunks of at most `size` symbols have a boundary in every window of that length. -/
theorem exists_boundary {size : Nat} (hpos : 0 < size) (chunks : List τ)
    (hsize : ∀ c ∈ chunks, (bytes c).length ≤ size) {m : Nat}
    (hm : m ≤ boundary bytes chunks) :
    ∃ done todo, done ++ todo = chunks ∧ m ≤ boundary bytes done
      ∧ boundary bytes done < m + size := by
  induction chunks generalizing m with
  | nil =>
    refine ⟨[], [], rfl, hm, ?_⟩
    rw [boundary_nil]
    omega
  | cons c chunks ih =>
    have hc := hsize c List.mem_cons_self
    have hsum : ∀ l, boundary bytes (c :: l) = (bytes c).length + boundary bytes l := by
      simp [boundary]
    by_cases h0 : m = 0
    · exact ⟨[], c :: chunks, rfl, by omega, by rw [boundary_nil]; omega⟩
    by_cases hin : m ≤ (bytes c).length
    · refine ⟨[c], chunks, rfl, ?_, ?_⟩ <;> rw [hsum, boundary_nil] <;> omega
    · obtain ⟨done, todo, rfl, hlo, hhi⟩ :=
        ih (fun d hd => hsize d (List.mem_cons_of_mem _ hd)) (m := m - (bytes c).length)
          (by rw [hsum] at hm; omega)
      refine ⟨c :: done, todo, rfl, ?_, ?_⟩ <;> rw [hsum] <;> omega

/-- **Induction over a cut.** An invariant indexed by the number of symbols read, kept by
every feeding of a chunk that continues the stream, holds when a beginning of the stream,
cut into chunks in any way, has been fed. -/
theorem foldl_chunks (feed : σ → τ → σ) (stream : List α) (chunks : List τ)
    (Inv : Nat → σ → Prop) (hcut : chunks.flatMap bytes <+: stream)
    (hstep : ∀ done c todo s, done ++ c :: todo = chunks →
      bytes c = (stream.drop (boundary bytes done)).take (bytes c).length →
      Inv (boundary bytes done) s →
      Inv (boundary bytes done + (bytes c).length) (feed s c))
    {s : σ} (h0 : Inv 0 s) : Inv (boundary bytes chunks) (chunks.foldl feed s) := by
  -- generalised over what has been fed, which is a prefix of the chunks
  suffices hrun : ∀ (done todo : List τ) (s : σ), done ++ todo = chunks →
      Inv (boundary bytes done) s → Inv (boundary bytes chunks) (todo.foldl feed s) from
    hrun [] chunks s rfl h0
  intro done todo
  induction todo generalizing done with
  | nil =>
    intro s hdone hinv
    rw [List.append_nil] at hdone
    rwa [List.foldl_nil, ← hdone]
  | cons c todo ih =>
    intro s hdone hinv
    obtain ⟨tail, htail⟩ := hcut
    have hstream : stream = done.flatMap bytes ++ (bytes c ++ (todo.flatMap bytes ++ tail)) := by
      rw [← htail, ← hdone]
      simp
    -- the next chunk is what the stream has at the boundary
    have hc : bytes c = (stream.drop (boundary bytes done)).take (bytes c).length := by
      rw [hstream, boundary, List.drop_left', List.take_left'] <;> rfl
    have hnext := hstep done c todo s hdone hc hinv
    rw [← boundary_concat] at hnext
    exact ih (done ++ [c]) (feed s c) (by simpa using hdone) hnext

end Chunks

end Framing
