import Rootfinder.Session
import Rootfinder.Proofs.Progress

namespace Rootfinder.Session

variable {α β : Type} [Scalar α] {n : Nat}

@[simp]
theorem wp_on (x : (s : Session α n) → Act α (Iteration α n (s.algorithm.Memory n)) β)
    {s : Session α n} {post : β → Session α n → Prop} {broken : Fault α → Session α n → Prop} :
    (on x).wp post broken s ↔ (x s).wp (fun b it => post b { s with iteration := it })
      (fun e it => broken e { s with iteration := it }) s.iteration := Iff.rfl

/-- The run that a solve returns, unless it raises. -/
def outcome (s : Session α n) : Except (Fault α) (Run α n) := (solve.run s).result

def driven (s : Session α n) : Session α n := (solve.run s).state

theorem returns_solve {s : Session α n} {r : Run α n} (h : s.outcome = .ok r) :
    solve.Returns s r s.driven := ⟨h, rfl⟩

theorem method_advance_at (s : Session α n) (P : Problem α n) (k : Int) :
    s.method.advance.Keeps (Iteration.At P k) :=
  s.algorithm.keeps_at s.options P k

@[simp]
theorem driven_problem (s : Session α n) : s.driven.problem = s.problem :=
  Iteration.solve_problem s.method_advance_at s.iteration

/-- A run is the session that it was made from, at its end. -/
theorem outcome_snapshot {s : Session α n} {r : Run α n} (h : s.outcome = .ok r) :
    r = s.driven.snapshot :=
  Iteration.solve_result h

theorem outcome_of_isOk {s : Session α n} (h : s.outcome.isOk = true) :
    s.outcome = .ok s.driven.snapshot := by
  cases ho : s.outcome with
  | ok r => rw [outcome_snapshot ho]
  | error e => rw [ho] at h; cases h

theorem driven_terminated {s : Session α n} {r : Run α n} (h : s.outcome = .ok r) :
    s.driven.iteration.terminated = true :=
  Iteration.solve_terminated s.method_advance_at h

end Rootfinder.Session
