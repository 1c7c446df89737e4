import Rootfinder.Proofs.Configurations
import Rootfinder.Proofs.Cursor

namespace Rootfinder

/-- Values that are no starting points for a number of unknowns, with the faults that say why. -/
inductive Value.Unfit (n : Nat) (v : Value) : Fault Float → Prop where
  | unreadable {m : Misreading} (h : v.array = .error m) : Unfit n v (.unreadable m)
  | empty {xs : List Float} (h : v.array = .ok ([0], xs)) : Unfit n v (.refused (.start [0]))
  | deep {shape : List Nat} {xs : List Float} (h : v.array = .ok (shape, xs))
    (hs : 2 ≤ shape.length) : Unfit n v (.refused (.start shape))
  | size {shape : List Nat} {xs : List Float} (h : v.array = .ok (shape, xs))
    (hs : shape.length ≤ 1 ∧ shape ≠ [0]) (hn : xs.length ≠ n) :
    Unfit n v (.refused (.size n xs.length))

variable {n : Nat} {v : Value} {e : Fault Float}

/-- An array with one extent at most is a starting point, unless it is empty. -/
theorem Value.startingPoint_of_array {shape : List Nat} {xs : List Float}
    (h : v.array = .ok (shape, xs)) (hs : shape.length ≤ 1 ∧ shape ≠ [0]) :
    (v.startingPoint : Except (Fault Float) (List Float)) = .ok xs := by
  rw [startingPoint, h]
  match shape, hs with
  | [], _ => rfl
  | [k], hs => exact if_neg fun hk : k = 0 => hs.2 (by rw [hk])

/-- A value that is unfit cannot be read as a starting point, or has another size. -/
theorem Value.Unfit.startingPoint (h : Unfit n v e) : v.startingPoint = .error e ∨
    ∃ xs, (v.startingPoint : Except (Fault Float) (List Float)) = .ok xs ∧ xs.length ≠ n ∧
      e = .refused (.size n xs.length) := by
  cases h with
  | unreadable h => exact .inl (by rw [Value.startingPoint, h])
  | empty h => exact .inl (by rw [Value.startingPoint, h]; rfl)
  | @deep shape xs h hs =>
    refine .inl ?_
    rw [Value.startingPoint, h]
    match shape, hs with
    | _ :: _ :: _, _ => rfl
  | size h hs hn => exact .inr ⟨_, startingPoint_of_array h hs, hn, rfl⟩

/-- Every other value is a starting point. -/
theorem Value.unfit_or_fits (n : Nat) (v : Value) : (∃ e, Unfit n v e) ∨
    ∃ xs, (v.startingPoint : Except (Fault Float) (List Float)) = .ok xs ∧ xs.length = n := by
  rcases ha : v.array with m | ⟨shape, xs⟩
  · exact .inl ⟨_, .unreadable ha⟩
  · by_cases hdeep : 2 ≤ shape.length
    · exact .inl ⟨_, .deep ha hdeep⟩
    · by_cases hempty : shape = [0]
      · exact .inl ⟨_, .empty (hempty ▸ ha)⟩
      · by_cases hn : xs.length = n
        · exact .inr ⟨xs, startingPoint_of_array ha ⟨by omega, hempty⟩, hn⟩
        · exact .inl ⟨_, .size ha ⟨by omega, hempty⟩ hn⟩

theorem Vec.ofList?_of_length_ne {α : Type} {xs : List α} (h : xs.length ≠ n) :
    Vec.ofList? n xs = none := dif_neg h

/-- A session refuses a point of another size before it changes anything. -/
theorem Session.reinit_size {α : Type} [Scalar α] {xs : List α} (hn : xs.length ≠ n)
    (parameter : Option (Parameter α)) (s : Session α n) : (reinit (some xs) parameter).run s =
      ⟨.error (.refused (.size n xs.length)), s, []⟩ := by
  have hremake : s.iteration.problem.remake (some xs) parameter =
      .error (.refused (.size n xs.length)) := by
    rw [Problem.remake]
    simp only [Vec.ofList?_of_length_ne hn]
  have hrun : (Iteration.reinit s.method (some xs) parameter).run s.iteration =
      ⟨.error (.refused (.size n xs.length)), s.iteration, []⟩ := by
    rw [Iteration.reinit, Act.run_read_bind, hremake]
    rfl
  change (⟨((Iteration.reinit s.method (some xs) parameter).run s.iteration).result,
    { s with iteration := ((Iteration.reinit s.method (some xs) parameter).run s.iteration).state },
    ((Iteration.reinit s.method (some xs) parameter).run s.iteration).trace⟩ :
    Outcome α (Session α n) Unit) = _
  rw [hrun]

namespace Warm

variable {w : Warm Float n}

/-- The first session refuses a point for all of them. -/
theorem reinit_size {xs : List Float} (hne : w.sessions ≠ []) (hn : xs.length ≠ n)
    (parameter : Option (Parameter Float)) : (reinit (some xs) parameter).run w =
      ⟨.error (.refused (.size n xs.length)), w, []⟩ := by
  obtain ⟨owner, sessions, current⟩ := w
  cases sessions with
  | nil => exact absurd rfl hne
  | cons s ss =>
    have hfirst : Session.reinit (some xs) parameter s =
        ⟨.error (.refused (.size n xs.length)), s, []⟩ := Session.reinit_size hn parameter s
    have heach : (Act.each (Session.reinit (some xs) parameter)).run (s :: ss) =
        ⟨.error (.refused (.size n xs.length)), s :: ss, []⟩ := by
      simp only [Act.run, Act.each, hfirst]
    rw [reinit, Act.run_zoom, heach]

/-- A restart from an unfit value raises and changes nothing. -/
theorem reinitAt_unfit (hne : w.sessions ≠ []) (hv : v ≠ .none) (h : v.Unfit n e)
    (parameter : Option (Parameter Float)) :
    (reinitAt v parameter).run w = ⟨.error e, w, []⟩ := by
  have hread : reinitAt (n := n) v parameter = (do
      let xs ← Act.ofExcept v.startingPoint
      reinit (some xs) parameter) := by
    cases v with
    | none => exact absurd rfl hv
    | _ => rfl
  rw [hread]
  obtain he | ⟨xs, hxs, hn, rfl⟩ := h.startingPoint
  · rw [he]
    rfl
  · rw [hxs]
    exact reinit_size hne hn parameter

theorem performStep_behind (hend : w.current = w.sessions.length) :
    performStep.run w = ⟨.error (.cannotStep w.current w.sessions.length), w, []⟩ := by
  have hnone : w.sessions[w.current]? = none := List.getElem?_eq_none_iff.mpr hend.ge
  exact on_none hnone Session.solve

theorem setCurrent_refused
    (hv : ∀ k, v.truncated = .ok k → ¬ (0 ≤ k ∧ k ≤ w.sessions.length)) :
    ∃ e, (setCurrent v).run w = ⟨.error e, w, []⟩ := by
  obtain ⟨k, hk, hle, -⟩ | ⟨e, hrun, -⟩ := setCurrent_cases w v
  · exact absurd ⟨Int.natCast_nonneg k, by omega⟩ (hv k hk)
  · exact ⟨e, hrun⟩

/-- There are sessions in every state that comes of a start. -/
theorem Fresh.reached_nonempty [LinearRoutines Float] {call : Call} {problem : Problem Float n}
    {owner : Solver} {cs : List Candidate} {w₀ : Warm Float n} (h₀ : Fresh call problem owner cs w₀)
    (h : Act.Reached serve (fun _ => True) w₀ w) : w.sessions ≠ [] := by
  have hpos : 0 < w₀.sessions.length := List.length_pos_iff.mpr h₀.nonempty
  have hplaced : w.Placed w₀.sessions.length :=
    h.keeps ⟨rfl, h₀.current ▸ Nat.zero_le _⟩ fun r _ => keeps_placed hpos r
  exact hplaced.ne_nil hpos

end Warm

namespace Polyalgorithm

variable {p : Polyalgorithm} {given : Keywords}

/-- Changes the configuration in place. -/
def change (given : Keywords) : Act Float Polyalgorithm Unit := do
  let p ← Act.read
  let p' ← Act.ofExcept (p.update given)
  Act.update fun _ => p'

/-- A configuration that a change asks for: it passes the checks, and its fields are the present
keywords and otherwise those of the old one. -/
structure Asks (p : Polyalgorithm) (given : Keywords) (c : Configuration) : Prop where
  known : given.Known
  checked : c.Checked
  holds : c.Holds (Settings.overlay p.configuration given.present)

/-- A change puts the configuration it asks for in the place of the old one, or there is none and it
raises and changes nothing. -/
theorem change_cases (hp : p.configuration.Checked) :
    (∃ c, (change given).run p = ⟨.ok (), { p with configuration := c }, []⟩ ∧ p.Asks given c) ∨
    ∃ e, (change given).run p = ⟨.error e, p, []⟩ ∧ ∀ c, ¬ p.Asks given c := by
  have hrun : (change given).run p =
      (Act.ofExcept (p.update given) >>= fun p' => Act.update fun _ => p').run p := rfl
  rw [hrun]
  cases hu : p.update given with
  | error e =>
    refine .inr ⟨e, rfl, fun c hc => ?_⟩
    have hok : p.update given = .ok { p with configuration := c } :=
      (Configuration.update_eq_ok hp).mpr ⟨rfl, hc.known, hc.checked, hc.holds⟩
    rw [hu] at hok
    cases hok
  | ok p' =>
    obtain ⟨preset, c⟩ := p'
    obtain ⟨hpreset, hknown, hchecked, hholds⟩ := (Configuration.update_eq_ok hp).mp hu
    obtain rfl : preset = p.preset := hpreset
    exact .inl ⟨c, rfl, hknown, hchecked, hholds⟩

end Polyalgorithm

/-- Refusals leave everything as it was. Whatever was asked of kept sessions before and whatever
that raised, a restart from a value that is no starting point for their unknowns, a cursor outside
their range, and a step behind the last of them raise and change nothing. A change of a facade's
configuration raises and changes nothing if a present keyword is no field, or if no configuration
with the fields it asks for passes the checks; otherwise it takes over that configuration. -/
theorem refusals_change_nothing [LinearRoutines Float] {call : Call} {problem : Problem Float n}
    {owner : Solver} {cs : List Candidate} {w₀ w : Warm Float n}
    (h₀ : ((Warm.ofCandidates owner cs call problem).run ()).result = .ok w₀)
    (h : Act.Reached Warm.serve (fun _ => True) w₀ w) {p : Polyalgorithm}
    (hp : p.configuration.Accepted) :
    (∀ (start : Value) (e : Fault Float), start ≠ .none → start.Unfit n e →
      ∀ parameter, (Warm.reinitAt start parameter).run w = ⟨.error e, w, []⟩) ∧
    (∀ start : Value, (∃ e, start.Unfit n e) ∨
      ∃ xs, (start.startingPoint : Except (Fault Float) (List Float)) = .ok xs ∧ xs.length = n) ∧
    (∀ v : Value, (∀ k, v.truncated = .ok k → ¬ (0 ≤ k ∧ k ≤ w.sessions.length)) →
      ∃ e, (Warm.setCurrent v).run w = ⟨.error e, w, []⟩) ∧
    (w.current = w.sessions.length →
      Warm.performStep.run w = ⟨.error (.cannotStep w.current w.sessions.length), w, []⟩) ∧
    ∀ given : Keywords,
      (∃ c, (Polyalgorithm.change given).run p = ⟨.ok (), { p with configuration := c }, []⟩ ∧
        p.Asks given c) ∨
      ∃ e, (Polyalgorithm.change given).run p = ⟨.error e, p, []⟩ ∧ ∀ c, ¬ p.Asks given c := by
  have hne := (Warm.fresh_ofCandidates h₀).reached_nonempty h
  exact ⟨fun start e hs he => Warm.reinitAt_unfit hne hs he, Value.unfit_or_fits n,
    fun v hv => Warm.setCurrent_refused hv, Warm.performStep_behind,
    fun given => Polyalgorithm.change_cases hp.checked⟩

theorem refusals_change_nothing_parabola : ∃ w₀ w : Warm Float 1,
    ((Warm.ofCandidates ⟨"pair", "pair"⟩ oddCouple .plain parabola).run ()).result = .ok w₀ ∧
    w = ((Warm.serve .solve).run w₀).state ∧
    (Warm.reinitAt (.list []) none).run w = ⟨.error (.refused (.start [0])), w, []⟩ ∧
    (Warm.reinitAt (.list [.num 1.0, .num 2.0]) (some (.scalar 3.0))).run w =
      ⟨.error (.refused (.size 1 2)), w, []⟩ ∧
    (∃ e, (Warm.setCurrent (.int (-1))).run w = ⟨.error e, w, []⟩) ∧
    ∃ e, (Polyalgorithm.change [("bogus", .plain (.int 1))]).run .standard =
      ⟨.error e, .standard, []⟩ := by
  have hok : ((Warm.ofCandidates ⟨"pair", "pair"⟩ oddCouple .plain parabola).run ()).result.isOk =
      true := by decide +kernel
  cases h₀ : ((Warm.ofCandidates ⟨"pair", "pair"⟩ oddCouple .plain parabola).run ()).result with
  | error e => rw [h₀] at hok; cases hok
  | ok w₀ =>
    have hreached : Act.Reached Warm.serve (fun _ => True) w₀ ((Warm.serve .solve).run w₀).state :=
      .after .start Warm.Request.solve trivial
    have hstandard : Polyalgorithm.standard.configuration.Accepted :=
      Configuration.checked_initial.accepted
    obtain ⟨hreinit, -, hcursor, -, hchange⟩ := refusals_change_nothing h₀ hreached hstandard
    have hempty : (Value.list []).Unfit 1 (.refused (.start [0])) := .empty rfl
    have hpair : (Value.list [.num 1.0, .num 2.0]).array = .ok ([2], [1.0, 2.0]) := rfl
    have hsize : (Value.list [.num 1.0, .num 2.0]).Unfit 1 (.refused (.size 1 2)) :=
      .size hpair ⟨by decide, by decide⟩ (by decide)
    refine ⟨w₀, _, rfl, rfl, hreinit _ _ (by nofun) hempty none, hreinit _ _ (by nofun) hsize _,
      hcursor _ fun k hk => ?_, ?_⟩
    · obtain rfl : -1 = k := Except.ok.inj hk
      omega
    · obtain ⟨c, -, hc⟩ | ⟨e, he, -⟩ := hchange [("bogus", .plain (.int 1))]
      · have hfield := hc.known.fields _ (List.mem_singleton_self _)
        exact absurd hfield (by decide)
      · exact ⟨e, he⟩

/-- A keyword that is no field is passed over where it stands for nothing. -/
theorem unknown_keyword_passed_over : "bogus" ∉ Settings.names Configuration ∧
    (Polyalgorithm.change [("bogus", .absent)]).run .standard = ⟨.ok (), .standard, []⟩ :=
  ⟨by decide, rfl⟩

end Rootfinder
