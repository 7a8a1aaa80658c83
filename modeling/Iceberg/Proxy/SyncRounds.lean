import Iceberg.Proxy.Relay

/-!
# Rounds of the loops of a synchronisation

What one round of the two loops of `readFromMaster` does, as long as the master is connected.
The loops have as much fuel as there are outcomes of `read`, so that a loop is what its first
round leaves of it.
-/

namespace Iceberg

open Triples

/-- The master is connected, and the slave if there is one. -/
structure Ready (m : Int) (w : World) : Prop where
  master : w.masterFd = m
  masterUp : m ≠ -1
  masterOpen : m ∈ w.fds
  client : w.clientFd = -1 ∨ w.clientFd ∈ w.fds

variable {m c : Int} {line : Bytes} {w w' : World}

theorem Ready.masterFd_ne (h : Ready m w) : w.masterFd ≠ -1 := h.master ▸ h.masterUp

/-- It depends on the two globals and the open descriptors only. -/
theorem Ready.same (h : Ready m w) (hmaster : w'.masterFd = w.masterFd)
    (hclient : w'.clientFd = w.clientFd) (hfds : w'.fds = w.fds) : Ready m w' where
  master := hmaster.trans h.master
  masterUp := h.masterUp
  masterOpen := hfds ▸ h.masterOpen
  client := by
    rw [hclient, hfds]
    exact h.client

/-- Where both ends are linked, the master may be read. -/
theorem Linked.ready (h : Linked m c w) : Ready m w where
  master := h.master
  masterUp := h.masterUp
  masterOpen := h.masterOpen
  client := Or.inr (h.client ▸ h.clientOpen)

/-- What comes behind a `writeData` to the slave. -/
theorem Ready.writeData_bind {α : Type} {bs : Bytes} {k : Bool → Proxy α} (h : Ready m w) :
    (writeData w.clientFd bs >>= k) w =
      if w.clientFd = -1 then k false w
      else match (sendAll w.outcomes.writes bs).2.1 with
        | .all => k true (w.sent w.clientFd bs)
        | .waiting => .error .writing (w.sent w.clientFd bs)
        | .failed => k false (w.sent w.clientFd bs).closeFd := by
  split
  · next hnone =>
    rw [hnone]
    exact run_bind_ok (writeData_none h.masterFd_ne)
  · next hne =>
    exact Iceberg.writeData_bind h.masterFd_ne hne (h.client.resolve_left hne)

/-! ## One round -/

/-- A round of the loop over the header. -/
theorem syncHeader_ready {fuel : Nat} (h : Ready m w) :
    syncHeader m (fuel + 1) line w = match w.outcomes.reads with
      | [] => .error .reading w
      | .error e :: reads =>
        if again e then syncHeader m fuel line (w.leftReads reads)
        else .ok none (w.leftReads reads).closeFd
      | .ok (b, _) :: reads =>
        let v := (w.leftReads reads).log [.read m [b]]
        if line.length ≥ maxRead then .error .fault v
        else if w.clientFd = -1 then .ok none v
        else match (sendAll w.outcomes.writes [b]).2.1 with
          | .all =>
            let u := v.sent w.clientFd [b]
            if b = Byte.lf then
              if line ≠ [] then .ok (some line) u else syncHeader m fuel line u
            else syncHeader m fuel (line ++ [b]) u
          | .waiting => .error .writing (v.sent w.clientFd [b])
          | .failed => .ok none (v.sent w.clientFd [b]).closeFd := by
  rw [syncHeader, readData_bind h.masterFd_ne h.masterUp h.masterOpen]
  cases w.outcomes.reads with
  | nil => rfl
  | cons r reads =>
    cases r with
    | error e => rfl
    | ok got =>
      obtain ⟨b, bs⟩ := got
      simp only [List.take_succ_cons, List.take_zero]
      have hv : Ready m ((w.leftReads reads).log [.read m [b]]) := h.same rfl rfl rfl
      split
      · rfl
      · -- the byte is there, and goes to the slave
        rewrite [run_get_bind, hv.writeData_bind]
        show (if w.clientFd = -1 then _ else match (sendAll w.outcomes.writes [b]).2.1 with
          | .all => _
          | .waiting => _
          | .failed => _) = _
        split
        · rfl
        · cases (sendAll w.outcomes.writes [b]).2.1 with
          | waiting => rfl
          | failed => rfl
          | all =>
            simp only [if_true]
            split
            · split <;> rfl
            · rfl

/-- A round of the loop over the payload. -/
theorem syncPayload_ready {fuel : Nat} (h : Ready m w) :
    syncPayload m (fuel + 1) w =
      if w.bulkSize = 0 then .ok ⟨⟩ { w with state := .running }
      else match w.outcomes.reads with
        | [] => .error .reading w
        | .error e :: reads =>
          if again e then syncPayload m fuel (w.leftReads reads)
          else .ok ⟨⟩ (w.leftReads reads).closeFd
        | .ok (b, bs) :: reads =>
          let got := (b :: bs).take (payloadSize w.bulkSize)
          let v := (w.leftReads reads).log [.read m got]
          if got = [] then syncPayload m fuel v
          else if got.length > maxRead then .error .fault v
          else if w.clientFd = -1 then .ok ⟨⟩ v
          else match (sendAll w.outcomes.writes got).2.1 with
            | .all =>
              syncPayload m fuel
                { v.sent w.clientFd got with bulkSize := w.bulkSize - got.length }
            | .waiting => .error .writing (v.sent w.clientFd got)
            | .failed => .ok ⟨⟩ (v.sent w.clientFd got).closeFd := by
  rw [syncPayload, run_get_bind]
  split
  · rfl
  rw [readData_bind h.masterFd_ne h.masterUp h.masterOpen]
  cases w.outcomes.reads with
  -- no bytes were asked for
  | nil => rfl
  | cons r reads =>
    cases r with
    | error e => rfl
    | ok got =>
      obtain ⟨b, bs⟩ := got
      simp only
      cases hgot : (b :: bs).take (payloadSize w.bulkSize) with
      | nil => rfl
      | cons x xs =>
        have hv : Ready m ((w.leftReads reads).log [.read m (x :: xs)]) := h.same rfl rfl rfl
        rw [if_neg (List.cons_ne_nil x xs)]
        simp only
        split
        · rfl
        · rewrite [run_get_bind, hv.writeData_bind]
          show (if w.clientFd = -1 then _ else match (sendAll w.outcomes.writes (x :: xs)).2.1 with
            | .all => _
            | .waiting => _
            | .failed => _) = _
          split
          · rfl
          · cases (sendAll w.outcomes.writes (x :: xs)).2.1 <;> rfl

/-! ## The loops -/

/-- The loop over the header, with the fuel it needs. -/
def headerLoop (m : Int) (line : Bytes) : Proxy (Option Bytes) := fun w =>
  syncHeader m (w.outcomes.reads.length + 1) line w

/-- The loop over the payload, with the fuel it needs. -/
def payloadLoop (m : Int) : Proxy Unit := fun w => syncPayload m (w.outcomes.reads.length + 1) w

/-- **A round of the loop over the header**, by the outcome of its `read`. -/
theorem headerLoop_eq (h : Ready m w) :
    headerLoop m line w = match w.outcomes.reads with
      | [] => .error .reading w
      | .error e :: reads =>
        if again e then headerLoop m line (w.leftReads reads)
        else .ok none (w.leftReads reads).closeFd
      | .ok (b, _) :: reads =>
        let v := (w.leftReads reads).log [.read m [b]]
        if line.length ≥ maxRead then .error .fault v
        else if w.clientFd = -1 then .ok none v
        else match (sendAll w.outcomes.writes [b]).2.1 with
          | .all =>
            let u := v.sent w.clientFd [b]
            if b = Byte.lf then
              if line ≠ [] then .ok (some line) u else headerLoop m line u
            else headerLoop m (line ++ [b]) u
          | .waiting => .error .writing (v.sent w.clientFd [b])
          | .failed => .ok none (v.sent w.clientFd [b]).closeFd := by
  rw [headerLoop, syncHeader_ready h]
  cases w.outcomes.reads with
  | nil => rfl
  | cons r reads => cases r <;> rfl

/-- **A round of the loop over the payload**, by the outcome of its `read`. -/
theorem payloadLoop_eq (h : Ready m w) :
    payloadLoop m w =
      if w.bulkSize = 0 then .ok ⟨⟩ { w with state := .running }
      else match w.outcomes.reads with
        | [] => .error .reading w
        | .error e :: reads =>
          if again e then payloadLoop m (w.leftReads reads)
          else .ok ⟨⟩ (w.leftReads reads).closeFd
        | .ok (b, bs) :: reads =>
          let got := (b :: bs).take (payloadSize w.bulkSize)
          let v := (w.leftReads reads).log [.read m got]
          if got = [] then payloadLoop m v
          else if got.length > maxRead then .error .fault v
          else if w.clientFd = -1 then .ok ⟨⟩ v
          else match (sendAll w.outcomes.writes got).2.1 with
            | .all =>
              payloadLoop m { v.sent w.clientFd got with bulkSize := w.bulkSize - got.length }
            | .waiting => .error .writing (v.sent w.clientFd got)
            | .failed => .ok ⟨⟩ (v.sent w.clientFd got).closeFd := by
  rw [payloadLoop, syncPayload_ready h]
  cases w.outcomes.reads with
  | nil => rfl
  | cons r reads => cases r <;> rfl

/-- The case `SYNC_START_STATE` is its loop, and what the header says. -/
theorem syncStartCase_eq : syncStartCase m w = (headerLoop m [] >>= fun got => match got with
    | none => pure ()
    | some line =>
      if line.head? = some Byte.minus then throw .exit
      else modify fun w =>
        { w with bulkSize := int64 (strtoull line.tail), state := .sync }) w := rfl

theorem syncCase_eq : syncCase m w = payloadLoop m w := rfl

end Iceberg
