import Rootfinder.Polyalgorithm
import Rootfinder.Proofs.Act
import Rootfinder.Proofs.Ranking

namespace Rootfinder

namespace Fallback.Contest

variable {α κ : Type} [Scalar α] {n : Nat}

def Indexed (failures : List (Nat × Run α n)) : Prop :=
  ∀ (j : Nat) (f : Nat × Run α n), failures[j]? = some f → f.1 = j

/-- Among runs that stand at their indices, the choice by place is the choice by index. -/
theorem selectBest_indexed (measure : Run α n → α) {failures : List (Nat × Run α n)}
    (h : Indexed failures) :
    Selection.selectBest (fun f => measure f.2) failures =
      (Selection.selectBest measure (failures.map Prod.snd)).map fun b => (b.1, b.1, b.2) := by
  rw [Selection.selectBest_map]
  cases hs : Selection.selectBest (fun f => measure f.2) failures with
  | error e => rfl
  | ok b =>
    obtain ⟨i, f⟩ := b
    have hi : f.1 = i := h i f (Selection.selectBest_getElem? hs)
    show Except.ok (i, f) = Except.ok (i, i, f.2)
    rw [← hi]

variable (c : Contest α n κ)

theorem conclude_lost {failures : List (Nat × Run α n)} (h : Indexed failures) :
    c.conclude (.lost failures) = (do
      let b ← Act.ofExcept
        (Selection.selectBest (fun r => c.norm.of r.resid) (failures.map Prod.snd))
      Act.log (.allFailed failures.length b.1 b.2.solver (c.norm.of b.2.resid))
      c.hand b.1 b.2) := by
  rw [conclude, selectBest_indexed (fun r => c.norm.of r.resid) h]
  cases Selection.selectBest (fun r => c.norm.of r.resid) (failures.map Prod.snd) <;> rfl

/-- Four candidates are tried as a list of them is: the same attempts in the same order, up to the
first success or fault, and the same choice. -/
theorem solveFour_eq (first second third fourth : κ) :
    c.solveFour first second third fourth = c.solveInOrder [first, second, third, fourth] := by
  simp only [solveFour, solveInOrder, List.isEmpty_cons, Bool.false_eq_true, if_false, course,
    bind_assoc, Act.ite_bind, pure_bind, List.length_cons, List.length_nil]
  refine bind_congr fun r0 => ite_congr rfl (fun _ => rfl) fun _ => ?_
  refine bind_congr fun r1 => ite_congr rfl (fun _ => rfl) fun _ => ?_
  refine bind_congr fun r2 => ite_congr rfl (fun _ => rfl) fun _ => ?_
  refine bind_congr fun r3 => ite_congr rfl (fun _ => rfl) fun _ => ?_
  have hplace : Indexed [(0, r0), (1, r1), (2, r2), (3, r3)] := by
    intro j f hj
    match j with
    | 0 | 1 | 2 | 3 => exact congrArg Prod.fst (Option.some.inj hj).symm
    | j + 4 => cases hj
  exact (c.conclude_lost hplace).symm

def Course.Runs (Good : Run α n → Prop) : Course α n → Prop
  | .won _ run => Good run
  | .lost failures => ∀ f ∈ failures, Good f.2

variable {c} {Good : Run α n → Prop}

omit [Scalar α] in
theorem wp_attempt {candidate : κ}
    (h : (c.solve candidate).wp (fun r _ => Good r) (fun _ _ => True) ())
    (total failures index : Nat) (records : List (AttemptRecord α)) :
    (c.attempt total failures index candidate).wp (fun r _ => Good r) (fun _ _ => True)
      records := by
  rw [attempt, Act.wp_bind, Act.wp_within]
  refine h.mono (fun r _ hr => ?_) fun _ _ h => h
  rw [Act.wp_bind, Act.wp_update, Act.wp_bind]
  exact Act.wp_of_forall _ (fun _ _ => hr) fun _ _ => trivial

omit [Scalar α] in
theorem wp_course {candidates : List κ}
    (h : ∀ k ∈ candidates, (c.solve k).wp (fun r _ => Good r) (fun _ _ => True) ()) (total : Nat)
    {failures : List (Nat × Run α n)} (hf : ∀ f ∈ failures, Good f.2) (index : Nat)
    (records : List (AttemptRecord α)) :
    (c.course total failures candidates index).wp (fun course _ => course.Runs Good)
      (fun _ _ => True) records := by
  induction candidates generalizing failures index records with
  | nil => exact hf
  | cons k candidates ih =>
    obtain ⟨hk, hks⟩ := List.forall_mem_cons.mp h
    rw [course, Act.wp_bind]
    refine (wp_attempt hk _ _ _ _).mono (fun r records' hr => ?_) fun _ _ h => h
    split
    · exact hr
    · refine ih hks (fun f hm => ?_) _ _
      rcases List.mem_append.mp hm with hm | hm
      · exact hf f hm
      · rw [List.mem_singleton.mp hm]
        exact hr

/-- The result is the run of a candidate under its own code. -/
theorem wp_solveInOrder (Good : Run α n → Prop) {candidates : List κ}
    (h : ∀ k ∈ candidates, (c.solve k).wp (fun r _ => Good r) (fun _ _ => True) ())
    (records : List (AttemptRecord α)) :
    (c.solveInOrder candidates).wp (fun sol _ => ∃ run i attempts, Good run ∧
      sol = run.wrap c.owner (some c.problem) i attempts run.code) (fun _ _ => True) records := by
  unfold solveInOrder
  split
  · trivial
  · rw [Act.wp_bind]
    refine (wp_course h _ (by simp) _ _).mono (fun course records' hc => ?_) fun _ _ h => h
    cases course with
    | won i run => exact ⟨run, i, records', hc, rfl⟩
    | lost failures =>
      rw [conclude, Act.wp_bind]
      cases hb : Selection.selectBest (fun f => c.norm.of f.2.resid) failures with
      | error e => trivial
      | ok b =>
        obtain ⟨place, index, run⟩ := b
        have hm := List.mem_of_getElem? (Selection.selectBest_getElem? hb)
        exact ⟨run, index, records', hc _ hm, rfl⟩

end Fallback.Contest

namespace Polyalgorithm

variable {n : Nat}

variable [LinearRoutines Float]

/-- In place, the shortcuts drop out of the list of the fast preset and four candidates remain. -/
theorem solveFour_eq_solveList (configuration : Configuration) (call : Call)
    {problem : Problem Float n} (h : problem.system.isInPlace = true) :
    (⟨.fast, configuration⟩ : Polyalgorithm).solveFour call problem =
      (⟨.fast, configuration⟩ : Polyalgorithm).solveList call problem := by
  have hc : (⟨.fast, configuration⟩ : Polyalgorithm).candidates true false =
      [.newton none configuration, .newton (some Settings.initial) configuration,
        .customary .simple configuration, .customary .bastin configuration] := rfl
  rw [solveFour, solveList, h, hc, Fallback.Contest.solveFour_eq]

/-- The fast preset tries the candidates of its list, by whatever driver. -/
theorem solve_fast (configuration : Configuration) (call : Call) (problem : Problem Float n) :
    (⟨.fast, configuration⟩ : Polyalgorithm).solve call problem =
      (⟨.fast, configuration⟩ : Polyalgorithm).solveList call problem := by
  cases hplace : problem.system.isInPlace with
  | true =>
    rw [← solveFour_eq_solveList configuration call hplace, solve, hplace]
    rfl
  | false =>
    rw [solve, hplace]
    rfl

end Polyalgorithm

/-- The driver of four candidates does what the list driver does on a list of them, whatever the
candidates do; so an in-place system is solved by the fast preset as its list would solve it. -/
theorem fixed_arity_is_list_driver [LinearRoutines Float] :
    (∀ {α κ : Type} [Scalar α] {n : Nat} (c : Fallback.Contest α n κ)
      (first second third fourth : κ),
      c.solveFour first second third fourth = c.solveInOrder [first, second, third, fourth]) ∧
    ∀ {n : Nat} (configuration : Configuration) (call : Call)
      (f : Vec Float n → Parameter Float → Writes (Fin n) Float)
      (jacobian : Option (Vec Float n → Parameter Float → Writes (Fin n × Fin n) Float))
      (start : Vec Float n) (parameter : Parameter Float),
      (⟨.fast, configuration⟩ : Polyalgorithm).solve call ⟨.inPlace f jacobian, start, parameter⟩ =
          (⟨.fast, configuration⟩ : Polyalgorithm).solveFour call
            ⟨.inPlace f jacobian, start, parameter⟩ ∧
        (⟨.fast, configuration⟩ : Polyalgorithm).solve call
            ⟨.inPlace f jacobian, start, parameter⟩ =
          (⟨.fast, configuration⟩ : Polyalgorithm).solveList call
            ⟨.inPlace f jacobian, start, parameter⟩ := by
  refine ⟨fun c => c.solveFour_eq, fun configuration call f jacobian start parameter => ⟨rfl, ?_⟩⟩
  exact Polyalgorithm.solveFour_eq_solveList configuration call rfl

end Rootfinder
