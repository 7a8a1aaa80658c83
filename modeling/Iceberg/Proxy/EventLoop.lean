import Iceberg.Lib.Triple
import Iceberg.Proxy.ReadHandler

/-!
# The event loop (`ae.c`, `main.c`)

A round of `aeProcessEvents` polls, calls back for every descriptor that was reported and is
still in the table, and then runs the timer. The steps here are the single callbacks, with
any outcomes of the system calls they make.
-/

namespace Iceberg

open Triples

/-- The steps of the event loop. `epoll` reports some of the descriptors that it watches. -/
inductive Move where
  | poll (fds : List Int)
  | file
  | timer

/-- What a step does. A step that is not possible changes nothing. -/
def Move.perform : Move → Proxy Unit
  | .poll fds => modify fun w =>
      if w.fired = [] then { w with fired := fds.filter (· ∈ w.epoll) } else w
  | .file => do
    let w ← get
    match w.fired with
    | [] => pure ()
    | fd :: fired =>
      modify fun w => { w with fired := fired }
      match w.events fd with
      | none => pure ()
      | some handler => callback handler fd
  | .timer => do
    let w ← get
    if w.fired = [] then timeEvent

/-- A step, and what the surroundings do in it. -/
structure Step where
  move : Move
  outcomes : Outcomes

def Step.run (s : Step) : Proxy Unit := do
  modify fun w => { w with outcomes := s.outcomes }
  s.move.perform

/-- The step is a callback of this kind. -/
def Step.Calls (s : Step) (w : World) (handler : Handler) : Prop :=
  s.move matches .file ∧ ∃ fd ∈ w.fired.head?, w.events fd = some handler

instance (s : Step) (w : World) (handler : Handler) : Decidable (s.Calls w handler) :=
  inferInstanceAs (Decidable (_ ∧ ∃ fd ∈ w.fired.head?, w.events fd = some handler))

/-- A step is a callback, the timer, or nothing that matters. -/
theorem Step.run_cases (s : Step) (w : World) :
    (∃ fired, s.run w = .ok ⟨⟩ { w with outcomes := s.outcomes, fired := fired })
    ∨ (∃ fd fired handler, s.Calls w handler ∧ w.events fd = some handler
      ∧ s.run w = callback handler fd { w with outcomes := s.outcomes, fired := fired })
    ∨ s.run w = timeEvent { w with outcomes := s.outcomes } := by
  have hrun : s.run w = s.move.perform { w with outcomes := s.outcomes } := rfl
  rw [hrun]
  cases hmove : s.move with
  | poll fds =>
    refine Or.inl ⟨if w.fired = [] then fds.filter (· ∈ w.epoll) else w.fired, ?_⟩
    rw [Move.perform, run_modify]
    split <;> rfl
  | file =>
    rw [Move.perform, run_get_bind]
    cases hfired : w.fired with
    | nil => exact Or.inl ⟨[], rfl⟩
    | cons fd fired =>
      simp only [run_modify_bind]
      cases hentry : w.events fd with
      -- an entry that is gone is passed over
      | none => exact Or.inl ⟨fired, rfl⟩
      | some handler =>
        refine Or.inr (Or.inl ⟨fd, fired, handler, ⟨by rw [hmove], fd, ?_, hentry⟩, hentry, rfl⟩)
        rw [hfired]
        rfl
  | timer =>
    rw [Move.perform, run_get_bind]
    split
    · exact Or.inr (Or.inr rfl)
    · exact Or.inl ⟨w.fired, rfl⟩

/-- A callback, with any outcomes. -/
theorem Step.Calls.run {s : Step} {w : World} {handler : Handler} (h : s.Calls w handler) :
    ∃ fd fired, w.events fd = some handler ∧ ∀ o, ({ s with outcomes := o } : Step).run w
      = callback handler fd { w with outcomes := o, fired := fired } := by
  obtain ⟨hmove, fd, hhead, hentry⟩ := h
  obtain ⟨move, outcomes⟩ := s
  cases move with
  | poll fds => cases hmove
  | timer => cases hmove
  | file =>
    cases hfired : w.fired with
    | nil =>
      rw [hfired] at hhead
      cases hhead
    | cons next fired =>
      rw [hfired] at hhead
      obtain rfl : next = fd := Option.some.inj hhead
      refine ⟨next, fired, hentry, fun o => ?_⟩
      show (Move.perform .file : Proxy Unit) { w with outcomes := o } = _
      rw [Move.perform, run_get_bind]
      simp only [hfired, run_modify_bind, hentry]

namespace World

/-- The states in which `main` enters the loop, when it gets there. -/
def Starts (w : World) : Prop :=
  ∃ o, connectToMaster { init with outcomes := o } = .ok true w

/-- The state in which `main` enters the loop, when the system calls come out like this. -/
def start (o : Outcomes) : Option World :=
  match connectToMaster { init with outcomes := o } with
  | .ok true w => some w
  | _ => none

/-- The world that `start` computes is one that `main` goes into its loop with. -/
theorem starts_of_start {o : Outcomes} {w : World} (h : start o = some w) : w.Starts := by
  unfold start at h
  split at h
  · rename_i hrun
    obtain rfl := Option.some.inj h
    exact ⟨o, hrun⟩
  · cases h

/-- The states between the steps of the event loop. -/
def Reachable (w : World) : Prop :=
  ∃ w₀, Starts w₀ ∧ Triples.Run Step.run (fun _ _ => True) w₀ w

/-- A state that is reached by a list of steps. -/
theorem reachable_of_any {o : Outcomes} {steps : List Step} {p : World → Bool}
    (h : ((start o).bind (Triples.runAll Step.run (fun _ _ => True) steps)).any p = true) :
    ∃ w, w.Reachable ∧ p w = true := by
  obtain ⟨w, hw, hp⟩ := (Option.any_eq_true _ _).mp h
  obtain ⟨w₀, hstart, hsteps⟩ := Option.bind_eq_some_iff.mp hw
  exact ⟨w, ⟨w₀, starts_of_start hstart, .of_runAll hsteps⟩, hp⟩

end World

end Iceberg
