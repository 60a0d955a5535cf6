import Keystroke.Command.Work

/-!
# What work does

Work has some outputs on a host and ends with a value or a message (`Work.Does`). One step after the
other, their outputs come one after the other, and work that fails ends there with the outputs so
far (`Work.Does.bind`, `Work.Does.bind_error`). Checks have no outputs.
-/

namespace Keystroke

namespace Work

variable {α β : Type} {host : Host} {work : Work α} {next : α → Work β} {before after : List Output}
  {message : String} {result : Except String β} {a : α}

/-- Work adds some outputs to the earlier ones, whatever these are, and ends with a result. -/
def Does (work : Work α) (host : Host) (outputs : List Output) (result : Except String α) : Prop :=
  ∀ earlier, (work.run host).run.run earlier = (result, earlier ++ outputs)

theorem does_pure (a : α) : Does (pure a) host [] (.ok a) := fun earlier => by
  rw [List.append_nil]
  rfl

theorem does_throw (message : String) : Does (throw message : Work α) host [] (.error message) :=
  fun earlier => by
    rw [List.append_nil]
    rfl

theorem does_read : Does read host [] (.ok host) := fun earlier => by
  rw [List.append_nil]
  rfl

theorem does_emit (output : Output) : Does (emit output) host [output] (.ok ()) := fun _ => rfl

theorem Does.bind (H : work.Does host before (.ok a)) (Hnext : (next a).Does host after result) :
    (work >>= next).Does host (before ++ after) result := by
  intro earlier
  rw [← List.append_assoc, ← Hnext]
  simp only [ReaderT.run_bind, ExceptT.run_bind, StateT.run_bind, H earlier]
  rfl

theorem Does.bind_error (H : work.Does host before (.error message)) :
    (work >>= next).Does host before (.error message) := by
  intro earlier
  simp only [ReaderT.run_bind, ExceptT.run_bind, StateT.run_bind, H earlier]
  rfl

/-! ## Reading, checking and writing -/

theorem Does.read_bind {next : Host → Work β} (H : (next host).Does host after result) :
    (read >>= next).Does host after result :=
  does_read.bind H

theorem Does.check_bind {value : Except Error α} (h : value = .ok a)
    (H : (next a).Does host after result) : (check value >>= next).Does host after result := by
  subst h
  exact (does_pure a).bind H

/-- Work that checks something first does nothing if that is not in order. -/
theorem does_check_bind_error {value : Except Error α} {error : Error} (h : value = .error error) :
    (check value >>= next).Does host [] (.error error.message) := by
  subst h
  exact (does_throw error.message).bind_error

variable {path text : String}

/-- A host that refuses a file leaves no trace of it. -/
theorem does_write_of_refused {error : Error} (h : host.write path text = .error error) :
    (write path text).Does host [] (.error error.message) :=
  .read_bind (does_check_bind_error h)

/-! ## Outcomes -/

theorem Does.outcome {work : Work Unit} {outputs : List Output}
    (H : work.Does host outputs (.ok ())) : work.outcome host = { outputs } := by
  rw [Work.outcome, H, List.nil_append]

theorem Does.outcome_of_error {work : Work Unit} {outputs : List Output}
    (H : work.Does host outputs (.error message)) :
    work.outcome host = { outputs, ending := .failure message } := by
  rw [Work.outcome, H, List.nil_append]

end Work

end Keystroke
