import Mathlib.Tactic.Cases

/-!
# Triples for programs with a state and exceptions

`Triple P m Q E`: started in a state with `P`, the program `m` either returns a value in a
state with `Q`, or stops with an exception in a state with `E`. The rules follow the
structure of a program; `Keeps` is the case of one invariant that holds before, after and
at every stop.
-/

namespace Triples

variable {ε σ α β : Type} {P P' : σ → Prop} {E E' : ε → σ → Prop}

def Triple (P : σ → Prop) (m : EStateM ε σ α) (Q : α → σ → Prop) (E : ε → σ → Prop) : Prop :=
  ∀ s, P s → match m s with
    | .ok a t => Q a t
    | .error e t => E e t

/-- What a triple says of a run that returns. -/
theorem Triple.ok {m : EStateM ε σ α} {Q : α → σ → Prop} (h : Triple P m Q E) {s t : σ} {a : α}
    (hs : P s) (hrun : m s = .ok a t) : Q a t := by
  have := h s hs
  rwa [hrun] at this

/-- What a triple says of a run that is cut off. -/
theorem Triple.error {m : EStateM ε σ α} {Q : α → σ → Prop} (h : Triple P m Q E) {s t : σ}
    {e : ε} (hs : P s) (hrun : m s = .error e t) : E e t := by
  have := h s hs
  rwa [hrun] at this

/-- Nothing is said about the stops. -/
theorem Triple.of_ok {m : EStateM ε σ α} {Q : α → σ → Prop}
    (h : ∀ s a t, P s → m s = .ok a t → Q a t) : Triple P m Q fun _ _ => True := by
  intro s hs
  cases hm : m s with
  | ok a t => exact h s a t hs hm
  | error e t => trivial

/-- **Rule of consequence.** -/
theorem Triple.conseq {m : EStateM ε σ α} {Q Q' : α → σ → Prop} (h : Triple P m Q E)
    (hP : ∀ s, P' s → P s) (hQ : ∀ a s, Q a s → Q' a s) (hE : ∀ e s, E e s → E' e s) :
    Triple P' m Q' E' := by
  intro s hs
  have hrun := h s (hP s hs)
  cases hm : m s with
  | ok a t =>
    rw [hm] at hrun
    exact hQ a t hrun
  | error e t =>
    rw [hm] at hrun
    exact hE e t hrun

/-- A stronger precondition. -/
theorem Triple.pre {m : EStateM ε σ α} {Q : α → σ → Prop} (h : Triple P m Q E)
    (hP : ∀ s, P' s → P s) : Triple P' m Q E :=
  h.conseq hP (fun _ _ => id) (fun _ _ => id)

/-- A weaker postcondition. -/
theorem Triple.post {m : EStateM ε σ α} {Q Q' : α → σ → Prop} (h : Triple P m Q E)
    (hQ : ∀ a s, Q a s → Q' a s) : Triple P m Q' E :=
  h.conseq (fun _ => id) hQ (fun _ _ => id)

/-- Alternatives in front are separate triples. -/
theorem Triple.or {m : EStateM ε σ α} {Q : α → σ → Prop} (h : Triple P m Q E)
    (h' : Triple P' m Q E) : Triple (fun s => P s ∨ P' s) m Q E := by
  rintro s (hs | hs)
  · exact h s hs
  · exact h' s hs

/-- Two triples about one program, side by side. -/
theorem Triple.and {m : EStateM ε σ α} {Q Q' : α → σ → Prop} (h : Triple P m Q E)
    (h' : Triple P' m Q' E') :
    Triple (fun s => P s ∧ P' s) m (fun a s => Q a s ∧ Q' a s) (fun e s => E e s ∧ E' e s) := by
  rintro s ⟨hs, hs'⟩
  have hrun := h s hs
  have hrun' := h' s hs'
  cases hm : m s with
  | ok a t =>
    rw [hm] at hrun hrun'
    exact ⟨hrun, hrun'⟩
  | error e t =>
    rw [hm] at hrun hrun'
    exact ⟨hrun, hrun'⟩

/-- **Rule of sequence**: the postcondition of the first program, for the value it returns, is the
precondition of the second. -/
theorem Triple.bind {m : EStateM ε σ α} {f : α → EStateM ε σ β} {R : α → σ → Prop}
    {Q : β → σ → Prop} (hm : Triple P m R E) (hf : ∀ a, Triple (R a) (f a) Q E) :
    Triple P (m >>= f) Q E := by
  intro s hs
  have hrun := hm s hs
  have hbind : (m >>= f) s = match m s with
    | .ok a t => f a t
    | .error e t => .error e t := rfl
  rw [hbind]
  cases hm' : m s with
  | ok a t =>
    rw [hm'] at hrun
    exact hf a t hrun
  | error e t =>
    rw [hm'] at hrun
    exact hrun

theorem Triple.pure {Q : α → σ → Prop} {a : α} (h : ∀ s, P s → Q a s) :
    Triple P (pure a) Q E := h

theorem Triple.throw {Q : α → σ → Prop} {e : ε} (h : ∀ s, P s → E e s) :
    Triple P (throw e : EStateM ε σ α) Q E := h

/-- After `get` the value is the state, which has not changed. -/
theorem Triple.get : Triple P (get : EStateM ε σ σ) (fun a s => a = s ∧ P s) E :=
  fun _ hs => ⟨rfl, hs⟩

theorem Triple.set {Q : PUnit → σ → Prop} {t : σ} (h : ∀ s, P s → Q ⟨⟩ t) :
    Triple P (set t : EStateM ε σ PUnit) Q E := h

theorem Triple.modify {Q : PUnit → σ → Prop} {f : σ → σ} (h : ∀ s, P s → Q ⟨⟩ (f s)) :
    Triple P (modify f : EStateM ε σ PUnit) Q E := h

/-- A conditional, with the condition at hand in each branch. -/
theorem Triple.ite {m m' : EStateM ε σ α} {Q : α → σ → Prop} {c : Prop} [Decidable c]
    (ht : c → Triple P m Q E) (hf : ¬c → Triple P m' Q E) :
    Triple P (if c then m else m') Q E := by
  split
  · exact ht ‹_›
  · exact hf ‹_›

/-- A witness in the precondition may be fixed first. -/
theorem Triple.exists {ι : Sort*} {P : ι → σ → Prop} {m : EStateM ε σ α} {Q : α → σ → Prop}
    (h : ∀ i, Triple (P i) m Q E) : Triple (fun s => ∃ i, P i s) m Q E := by
  rintro s ⟨i, hs⟩
  exact h i s hs

/-- A result that is not used. -/
theorem Triple.discard {m : EStateM ε σ α} {Q : σ → Prop} (h : Triple P m (fun _ => Q) E) :
    Triple P (Functor.discard m) (fun _ => Q) E := by
  intro s hs
  have hrun := h s hs
  have hmap : Functor.discard m s = match m s with
    | .ok _ t => .ok ⟨⟩ t
    | .error e t => .error e t := rfl
  rw [hmap]
  cases hm : m s with
  | ok a t =>
    rw [hm] at hrun
    exact hrun
  | error e t =>
    rw [hm] at hrun
    exact hrun

/-! ## Invariants -/

/-- `I` holds again when the program returns, and `J` wherever it stops. -/
def Keeps (I J : σ → Prop) (m : EStateM ε σ α) : Prop := Triple I m (fun _ => I) (fun _ => J)

variable {I J : σ → Prop}

/-- Two programs that keep the invariant keep it one after the other. -/
theorem Keeps.bind {m : EStateM ε σ α} {f : α → EStateM ε σ β} (hm : Keeps I J m)
    (hf : ∀ a, Keeps I J (f a)) : Keeps I J (m >>= f) := Triple.bind hm hf

theorem Keeps.pure {a : α} : Keeps I J (pure a : EStateM ε σ α) := Triple.pure fun _ => id

theorem Keeps.throw {e : ε} (h : ∀ s, I s → J s) : Keeps I J (throw e : EStateM ε σ α) :=
  Triple.throw h

/-- What is read may be fixed first, if the rest keeps the invariant whatever it is. -/
theorem Keeps.get {f : σ → EStateM ε σ β} (h : ∀ s, Keeps I J (f s)) :
    Keeps I J (get >>= f) := by
  intro s hs
  exact h s s hs

/-- A change of the state, where it keeps the invariant. -/
theorem Keeps.modify {f : σ → σ} (h : ∀ s, I s → I (f s)) :
    Keeps I J (modify f : EStateM ε σ PUnit) := Triple.modify h

/-- Nothing is said about the stops. -/
theorem Keeps.forget {m : EStateM ε σ α} (h : Keeps I J m) : Keeps I (fun _ => True) m :=
  Triple.conseq h (fun _ => id) (fun _ _ => id) fun _ _ _ => trivial

theorem Keeps.discard {m : EStateM ε σ α} (h : Keeps I J m) : Keeps I J (Functor.discard m) :=
  Triple.discard h

theorem Keeps.ite {m m' : EStateM ε σ α} {c : Prop} [Decidable c] (ht : Keeps I J m)
    (hf : Keeps I J m') : Keeps I J (if c then m else m') :=
  Triple.ite (fun _ => ht) (fun _ => hf)

/-! ## Running a program -/

section Running

variable {s t : σ}

@[simp] theorem run_pure (a : α) : (pure a : EStateM ε σ α) s = .ok a s := rfl

@[simp] theorem run_throw (e : ε) : (throw e : EStateM ε σ α) s = .error e s := rfl

@[simp] theorem run_set (t : σ) : (set t : EStateM ε σ PUnit) s = .ok ⟨⟩ t := rfl

@[simp] theorem run_modify (g : σ → σ) :
    (modify g : EStateM ε σ PUnit) s = .ok ⟨⟩ (g s) := rfl

@[simp] theorem run_pure_bind (a : α) (f : α → EStateM ε σ β) : (pure a >>= f) s = f a s := rfl

@[simp] theorem run_throw_bind (e : ε) (f : α → EStateM ε σ β) :
    ((throw e : EStateM ε σ α) >>= f) s = .error e s := rfl

@[simp] theorem run_get_bind (f : σ → EStateM ε σ β) : (get >>= f) s = f s s := rfl

@[simp] theorem run_set_bind (t : σ) (f : PUnit → EStateM ε σ β) :
    (set t >>= f) s = f ⟨⟩ t := rfl

@[simp] theorem run_modify_bind (g : σ → σ) (f : PUnit → EStateM ε σ β) :
    (modify g >>= f) s = f ⟨⟩ (g s) := rfl

/-- A run whose first program returns goes on with the second. -/
theorem run_bind_ok {m : EStateM ε σ α} {f : α → EStateM ε σ β} {a : α} (h : m s = .ok a t) :
    (m >>= f) s = f a t := by
  show EStateM.bind m f s = f a t
  rw [EStateM.bind, h]

/-- A run whose first program is cut off is cut off there. -/
theorem run_bind_error {m : EStateM ε σ α} {f : α → EStateM ε σ β} {e : ε}
    (h : m s = .error e t) : (m >>= f) s = .error e t := by
  show EStateM.bind m f s = .error e t
  rw [EStateM.bind, h]

end Running

/-! ## Runs -/

section Runs

variable {ι : Type} (prog : ι → EStateM ε σ PUnit) (C : σ → ι → Prop)

/-- Programs run one after the other, each from a state in which `C` allows it. -/
inductive Run (s : σ) : σ → Prop where
  | refl : Run s s
  | step {t u : σ} {i : ι} (h : Run s t) (hc : C t i) (hrun : prog i t = .ok ⟨⟩ u) : Run s u

/-- The states that a run reaches, and those in which its last program stops, with the reason
for which it does. -/
inductive Moment (s : σ) : Option ε → σ → Prop where
  | reached {t : σ} (h : Run prog C s t) : Moment s none t
  | stopped {t u : σ} {i : ι} {e : ε} (h : Run prog C s t) (hc : C t i)
      (hrun : prog i t = .error e u) : Moment s (some e) u

variable {prog C}

/-- What every program keeps, every run keeps. -/
theorem Run.keeps (hI : ∀ i, Triple (fun s => I s ∧ C s i) (prog i) (fun _ => I) E) {s t : σ}
    (h : Run prog C s t) (hs : I s) : I t := by
  induction h with
  | refl => exact hs
  | step _ hc hrun ih => exact (hI _).ok ⟨ih, hc⟩ hrun

/-- **Rule of invariance.** What every single program keeps holds at every moment of a run, and
where the last program is cut off, what they promise in that case. Induction on the run. -/
theorem Moment.keeps (hI : ∀ i, Triple (fun s => I s ∧ C s i) (prog i) (fun _ => I) E)
    {s t : σ} {stop : Option ε} (h : Moment prog C s stop t) (hs : I s) :
    match stop with
    | none => I t
    | some e => E e t := by
  cases h with
  | reached h => exact h.keeps hI hs
  | stopped h hc hrun => exact (hI _).error ⟨h.keeps hI hs, hc⟩ hrun

/-- Runs compose. Induction on the second. -/
theorem Run.trans {s t u : σ} (h : Run prog C s t) (h' : Run prog C t u) : Run prog C s u := by
  induction h' with
  | refl => exact h
  | step _ hc hrun ih => exact .step ih hc hrun

/-- A run whose steps meet a condition meets a weaker one. -/
theorem Run.weaken {C' : σ → ι → Prop} (hC : ∀ s i, C s i → C' s i) {s t : σ}
    (h : Run prog C s t) : Run prog C' s t := by
  induction h with
  | refl => exact .refl
  | step _ hc hrun ih => exact .step ih (hC _ _ hc) hrun

/-- A run that is given by the list of its programs, when all of them are allowed and return. -/
def runAll (prog : ι → EStateM ε σ PUnit) (C : σ → ι → Prop) [∀ s i, Decidable (C s i)] :
    List ι → σ → Option σ
  | [], s => some s
  | i :: is, s =>
    if C s i then
      match prog i s with
      | .ok _ t => runAll prog C is t
      | .error _ _ => none
    else none

/-- A computed run is a run. Induction on the list of programs. -/
theorem Run.of_runAll [∀ s i, Decidable (C s i)] {is : List ι} {s t : σ}
    (h : runAll prog C is s = some t) : Run prog C s t := by
  induction is generalizing s with
  | nil =>
    obtain rfl := Option.some.inj h
    exact .refl
  | cons i is ih =>
    rw [runAll] at h
    split at h
    · rename_i hc
      cases hrun : prog i s with
      | ok a u =>
        rw [hrun] at h
        exact Run.trans (.step .refl hc hrun) (ih h)
      | error e u =>
        rw [hrun] at h
        cases h
    · cases h

/-- A computed run whose last state passes a test gives a state that is reached and passes it. -/
theorem Run.of_any [∀ s i, Decidable (C s i)] {is : List ι} {s : σ} {p : σ → Bool}
    (h : (runAll prog C is s).any p = true) : ∃ t, Run prog C s t ∧ p t = true := by
  obtain ⟨t, hrun, hp⟩ := (Option.any_eq_true _ _).mp h
  exact ⟨t, .of_runAll hrun, hp⟩

end Runs

end Triples
