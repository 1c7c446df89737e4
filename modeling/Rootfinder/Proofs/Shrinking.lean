import Rootfinder.Linear.Textbook
import Rootfinder.Proofs.Budget
import Rootfinder.Proofs.RaisingSolves
import Rootfinder.Proofs.Regions

namespace Rootfinder.TrustRegion

open Exact Iteration

variable {n : ℕ} {scheme : Scheme} {t : Tuning} {l : Linearization Exact} {o : Options Exact}
  {y x : Iteration Exact n (Memory Exact n)}

/-- So many of the first `k` steps, the last ones, have a property, and the one before them has
not. -/
structure LastInRow (P : ℕ → Prop) (k c : ℕ) : Prop where
  le : c ≤ k
  all : ∀ j < k, k ≤ j + c → P j
  ends : c < k → ¬ P (k - c - 1)

section Rows

variable {P : ℕ → Prop} {k c : ℕ}

theorem LastInRow.next (h : LastInRow P k c) (hP : P k) : LastInRow P (k + 1) (c + 1) := by
  refine ⟨Nat.succ_le_succ h.le, fun j hj hjc => ?_, fun hc => ?_⟩
  · obtain rfl | hlt := Nat.eq_or_lt_of_le (Nat.le_of_lt_succ hj)
    · exact hP
    · exact h.all j hlt (by omega)
  · rw [Nat.add_sub_add_right]
    exact h.ends (Nat.lt_of_succ_lt_succ hc)

theorem LastInRow.over (hP : ¬ P k) : LastInRow P (k + 1) 0 :=
  ⟨Nat.zero_le _, fun j hj hk => absurd hk (by omega), fun _ => hP⟩

end Rows

section Runs

variable {b e : Iteration Exact n (Memory Exact n)} {k : ℕ}

theorem sound_begun {P : Problem Exact n} {fu : Vec Exact n} (hP : P.Finite l.differencing)
    (hfu : fu.allFinite = true) : Sound scheme l (begun (method scheme t.params l o n) P fu) := by
  obtain ⟨v, hv⟩ := allFinite_iff.mp hP.start
  obtain ⟨F, hF⟩ := allFinite_iff.mp hfu
  refine ⟨⟨hP, hP.start, hfu, fun J hJ => ?_⟩, coupled_begun P fu, ?_⟩
  · have hnone : (fresh scheme P.start fu).jacobian = none := by cases scheme <;> rfl
    cases hnone.symm.trans hJ
  · change Bounded scheme (fresh scheme P.start fu).region
    rw [hv, hF]
    exact bounded_fresh v F

theorem Sound.lap (h : Sound scheme l y)
    (hl : (lap (method scheme t.params l o n)).Returns y () x) : Sound scheme l x := by
  have hwhole : (Iteration.lap (method scheme t.params l o n)).wp (fun _ => Whole l)
      (fun _ _ => True) y := by
    rw [Iteration.lap, Act.wp_bind]
    exact (wp_advance_whole h.toWhole).mono (fun _ z hz => ⟨hz.problem, hz.u, hz.fu, hz.jacobian⟩)
      fun _ _ h => h
  exact (turn_of_lap hl).sound (hl.wp_iff.mp hwhole) h

/-- The test ends no run for too long a row of shrinking steps. -/
theorem tested_code_iff (m : Method Exact n (Memory Exact n)) :
    (x.tested m).code = .shrinkThresholdExceeded ↔ x.code = .shrinkThresholdExceeded := by
  obtain h | ⟨ho, code, hv, h⟩ := tested_cases (m := m) x
  · rw [h]
  · have hdefault : x.code = .default := by
      simpa [Iteration.terminated] using (Bool.or_eq_false_iff.mp ho).2
    rw [h, hdefault]
    refine iff_of_false (fun hc => ?_) fun hc => ReturnCode.noConfusion hc
    obtain rfl : code = .shrinkThresholdExceeded := hc
    obtain ⟨hc, -⟩ | ⟨-, ⟨hc, -⟩ | ⟨hc, -⟩⟩ := verdict_cases hv <;> cases hc

theorem Tallied.of_tested (h : Tallied t x) {m : Method Exact n (Memory Exact n)}
    (he : e.tested m = x.tested m) : Tallied t e := by
  have hmemory := congrArg Iteration.memory he
  have hcode := congrArg (·.code = .shrinkThresholdExceeded) he
  simp only [tested_memory, tested_code_iff, eq_iff_iff] at hmemory hcode
  rw [Tallied, hmemory, hcode]
  exact h

/-- What a run preserves, from its beginning on. -/
theorem sound_of_laps (hb : Sound scheme l b) (htb : Tallied t b)
    (h : Laps (method scheme t.params l o n) k b x) : Sound scheme l x ∧ Tallied t x := by
  induction h with
  | none => exact ⟨hb, htb⟩
  | @more k y z x ho hl h ih =>
    have hdefault : y.code = .default := by
      simpa [Iteration.terminated] using (Bool.or_eq_false_iff.mp (tested_eq_self ho).1).2
    exact ih (hb.lap hl) ((turn_of_lap hl).tallied hb hdefault htb)

/-- Where a run counts from zero, it counts the row that it is in. -/
theorem counts_of_laps (hb : Sound scheme l b) (htb : Tallied t b) (hzero : b.memory.shrinks = 0)
    (h : Laps (method scheme t.params l o n) k b x) {j : ℕ} (hj : j ≤ k) :
    LastInRow (fun i => Shrinks scheme t.params l
      (Iteration.after (method scheme t.params l o n) i b)) j
      (Iteration.after (method scheme t.params l o n) j b).memory.shrinks := by
  induction j with
  | zero => exact ⟨hzero.le, nofun, fun hlt => absurd hlt (by omega)⟩
  | succ j ih =>
    obtain ⟨z, hy, -, hl, he⟩ := h.at hj
    rw [he, tested_memory]
    rcases (turn_of_lap hl).counts (sound_of_laps hb htb hy).1 with ⟨hs, hc, -⟩ | ⟨hs, hc⟩
    · rw [hc]
      exact (ih (Nat.le_of_succ_le hj)).next hs
    · rw [hc]
      exact .over hs

theorem scaled_of_laps (hb : Sound scheme l b) (htb : Tallied t b)
    (h : Laps (method scheme t.params l o n) k b x) {j : ℕ} (hj : j < k)
    (hs : Shrinks scheme t.params l (Iteration.after (method scheme t.params l o n) j b)) :
    Scaled scheme t (Iteration.after (method scheme t.params l o n) j b).memory.region
      (Iteration.after (method scheme t.params l o n) (j + 1) b).memory.region := by
  obtain ⟨z, hy, -, hl, he⟩ := h.at hj
  rw [he, tested_memory]
  exact ((turn_of_lap hl).counts (sound_of_laps hb htb hy).1).elim (fun h => h.2.2)
    fun h => absurd hs h.1

structure Ran (scheme : Scheme) (t : Tuning) (l : Linearization Exact) (o : Options Exact)
    (s₀ e : Iteration Exact n (Memory Exact n)) : Prop where
  begins : s₀ = begun (method scheme t.params l o n) e.problem s₀.fu
  problem : e.problem.Finite l.differencing
  finite : s₀.fu.allFinite = true
  course : OnCourse (method scheme t.params l o n) s₀ e

variable {s₀ : Iteration Exact n (Memory Exact n)}

theorem ran_begun {P : Problem Exact n} {fu : Vec Exact n} (hP : P.Finite l.differencing)
    (hfu : fu.allFinite = true) : Ran scheme t l o (begun (method scheme t.params l o n) P fu)
      (begun (method scheme t.params l o n) P fu) :=
  ⟨rfl, hP, hfu, .refl _⟩

theorem Ran.sound_start (h : Ran scheme t l o s₀ e) : Sound scheme l s₀ ∧ Tallied t s₀ ∧
    s₀.memory.shrinks = 0 := by
  have hzero : s₀.memory.shrinks = 0 := by
    rw [h.begins]
    change (fresh scheme _ _).shrinks = 0
    cases scheme <;> rfl
  have hcode : s₀.code = .default := by rw [h.begins]; rfl
  refine ⟨?_, ⟨by omega, iff_of_false (by omega) (by rw [hcode]; nofun)⟩, hzero⟩
  rw [h.begins]
  exact sound_begun h.problem h.finite

theorem Sound.of_tested (h : Sound scheme l x) {m : Method Exact n (Memory Exact n)}
    (he : e.tested m = x.tested m) : Sound scheme l e := by
  have hproblem := congrArg Iteration.problem he
  have hu := congrArg Iteration.u he
  have hfu := congrArg Iteration.fu he
  have hmemory := congrArg Iteration.memory he
  simp only [tested_problem, tested_u, tested_fu, tested_memory] at hproblem hu hfu hmemory
  refine ⟨⟨hproblem ▸ h.problem, hu ▸ h.u, hfu ▸ h.fu, hmemory ▸ h.jacobian⟩, fun hfan => ?_,
    hmemory ▸ h.bounded⟩
  rw [hmemory, hfu]
  exact h.coupled hfan

/-- What holds of the laps of a run holds of its states. -/
theorem Ran.sound (h : Ran scheme t l o s₀ e) : Sound scheme l e ∧ Tallied t e := by
  obtain ⟨hs, ht, -⟩ := h.sound_start
  obtain ⟨k, x, hl, he⟩ := h.course
  obtain ⟨hx, htx⟩ := sound_of_laps hs ht hl
  exact ⟨hx.of_tested he, htx.of_tested he⟩

/-- Fan's radius is the one for `mu` and the present residual. -/
theorem Sound.fan (h : Sound .fan l e) : ∃ (mu : ℝ) (F : EuclideanSpace ℝ (Fin n)),
    e.memory.mu = real mu ∧ e.fu = vec F ∧
    e.memory.radius = real (max (mu * ‖F‖ ^ (0.99 : ℝ)) (1 / 2 ^ 1022)) := by
  obtain ⟨mu, hmu, -⟩ := h.bounded.fan rfl
  obtain ⟨F, hF⟩ := allFinite_iff.mp h.fu
  refine ⟨mu, F, hmu, hF, ?_⟩
  rw [h.coupled rfl, hF, ← fanRadius_vec]
  exact congrArg (fanRadius · (vec F)) hmu

/-- A run that has not ended is within the limit. -/
theorem Tallied.within (h : Tallied t e) (ho : e.terminated = false) :
    e.memory.shrinks ≤ t.times := by
  have hne : e.memory.shrinks ≠ t.times + 1 := fun hs => by
    have hc := h.2.mp hs
    rw [Iteration.terminated, hc] at ho
    exact absurd ho (by simp)
  have := h.1
  omega

/-- What the count of a state tells about its run: the number of shrinking steps in a row at the end,
each of which scaled the region. -/
structure CountsRow (scheme : Scheme) (t : Tuning) (l : Linearization Exact) (o : Options Exact)
    (s₀ e : Iteration Exact n (Memory Exact n)) (k : ℕ) : Prop where
  begins : s₀ = begun (method scheme t.params l o n) e.problem s₀.fu
  steps : e.stats.nsteps = k
  arrives : (Iteration.after (method scheme t.params l o n) k s₀).tested
    (method scheme t.params l o n) = e.tested (method scheme t.params l o n)
  row : LastInRow (fun i => Shrinks scheme t.params l
    (Iteration.after (method scheme t.params l o n) i s₀)) k e.memory.shrinks
  scaled : ∀ i < k, Shrinks scheme t.params l
      (Iteration.after (method scheme t.params l o n) i s₀) →
    Scaled scheme t (Iteration.after (method scheme t.params l o n) i s₀).memory.region
      (Iteration.after (method scheme t.params l o n) (i + 1) s₀).memory.region

theorem Ran.counts (h : Ran scheme t l o s₀ e) : ∃ k, CountsRow scheme t l o s₀ e k := by
  obtain ⟨hs, ht, hzero⟩ := h.sound_start
  obtain ⟨k, x, hl, he⟩ := h.course
  have harrives := hl.after.trans he.symm
  have hshrinks := congrArg (·.memory.shrinks) harrives
  have hstats := congrArg (·.stats.nsteps) he
  simp only [tested_memory, tested_stats] at hshrinks hstats
  refine ⟨k, h.begins, ?_, harrives, hshrinks ▸ counts_of_laps hs ht hzero hl le_rfl,
    fun i hi => scaled_of_laps hs ht hl hi⟩
  rw [hstats, hl.steps method_keeps_at, h.begins]
  exact zero_add _

/-- Every request that is granted stays on the course or begins anew. -/
theorem Ran.wp_serve (h : Ran scheme t l o s₀ e) (r : Request Exact) :
    (serve (method scheme t.params l o n) r).wp
      (fun _ e' => e'.problem.Finite l.differencing → ∃ s₁, Ran scheme t l o s₁ e')
      (fun _ _ => True) e := by
  have hgoes : ∀ {e'}, e'.problem = e.problem → OnCourse (method scheme t.params l o n) s₀ e' →
      e'.problem.Finite l.differencing → ∃ s₁, Ran scheme t l o s₁ e' := by
    intro e' hproblem hcourse he'
    exact ⟨s₀, by rw [hproblem]; exact h.begins, he', h.finite, hcourse⟩
  cases r with
  | step =>
    refine (Act.wp_self _ e).mono (fun _ e' hs => hgoes ?_ (h.course.step hs)) fun _ _ _ => trivial
    rw [← hs.2]
    exact step_problem method_keeps_at e
  | solve =>
    rw [serve, Act.wp_bind]
    refine (Act.wp_self _ e).mono (fun _ e' hs => ?_) fun _ _ _ => trivial
    rw [Act.wp_pure]
    refine hgoes ?_ (h.course.solve method_keeps_at hs)
    rw [← hs.2]
    exact solve_problem method_keeps_at e
  | reinit start parameter =>
    rw [serve, Act.wp_bind]
    cases start with
    | error f => trivial
    | ok start =>
      rw [Act.wp_ofExcept_ok]
      refine (wp_reinit_begun start parameter).mono (fun _ e' he hP => ?_) fun _ _ _ => trivial
      obtain ⟨P, -, hfault, rfl⟩ := he
      exact ⟨_, ran_begun hP (hP.residual _ _ hP.start h.sound.1.fu hfault)⟩

/-- Bounds and counts of a trust region. In every state that is reached without raising, on problems
whose values are finite, the radius is positive; under the simple rule it is at most the greatest
one, which is at least one; under Fan's rule `mu` is positive and at most `10 ^ 8`, and the radius is
that for `mu` and the present residual. The count of shrinking steps is the length of the row of them
at the end of the run that began last, each of which scales the region; it is within the limit unless
the run has ended, and one beyond it if and only if the code says so. -/
theorem regions_stay_sound {P : Problem Exact n} (hP : P.Finite l.differencing)
    (hb : (Iteration.start (method scheme t.params l o n) P).Returns () b ())
    {rs : List (Request Exact)}
    (h : Act.Served (serve (method scheme t.params l o n)) (fun it r =>
      Act.Granted (serve (method scheme t.params l o n)) it r ∧
        ((serve (method scheme t.params l o n) r).run it).state.problem.Finite l.differencing)
      b rs e) :
    Bounded scheme e.memory.region ∧
    (scheme = .fan → ∃ (mu : ℝ) (F : EuclideanSpace ℝ (Fin n)), e.memory.mu = real mu ∧
      e.fu = vec F ∧
      e.memory.radius = real (max (mu * ‖F‖ ^ (0.99 : ℝ)) (1 / 2 ^ 1022))) ∧
    (e.terminated = false → e.memory.shrinks ≤ t.times) ∧
    (e.memory.shrinks = t.times + 1 ↔ e.code = .shrinkThresholdExceeded) ∧
    ∃ s₀ k, CountsRow scheme t l o s₀ e k := by
  obtain ⟨hfault, rfl⟩ := hb.wp_iff.mp wp_start_begun
  have hran : ∃ s₀, Ran scheme t l o s₀ e := by
    have hfresh : Ran scheme t l o _ _ :=
      ran_begun hP (hP.residual _ _ hP.start allFinite_zero hfault)
    refine h.keeps (P := fun it => ∃ s₀, Ran scheme t l o s₀ it) ⟨_, hfresh⟩ ?_
    rintro it r ⟨s₀, hs₀⟩ ⟨hgranted, hfinite⟩
    exact (Act.returns_of_isOk hgranted).wp_iff.mp (hs₀.wp_serve r) hfinite
  obtain ⟨s₀, hs₀⟩ := hran
  obtain ⟨hsound, htallied⟩ := hs₀.sound
  refine ⟨hsound.bounded, ?_, htallied.within, htallied.2, s₀, hs₀.counts⟩
  rintro rfl
  exact hsound.fan

section Returning

variable (hl : l.preconditioner = none)

include hl

/-- Where the functions of a problem return, no step raises: without rounding, the linear system is
finite, and so is the square of the radius. -/
theorem Sound.returns (hy : Sound scheme l y) (hq : y.problem.Quiet) :
    ((advance scheme t.params l o).run y).result.isOk = true := by
  have hw : (advance scheme t.params l o).wp (fun _ _ => True)
      (fun e _ => Trips l y e ∨ Blocked t.params l y.problem e) y := wp_advance_confined hq hl
  cases hr : ((advance scheme t.params l o).run y).result with
  | ok _ => rfl
  | error f =>
    exfalso
    obtain ⟨v, hv⟩ := allFinite_iff.mp hy.fu
    obtain ⟨r, hradius, -⟩ := hy.bounded.radius
    rcases hw.of_error hr with (@⟨J, z, hJ, -, J', hJ', hinfinite⟩ | ⟨-, -, -, hlarge⟩) |
      ⟨hd, hstep⟩ | (hmem | hfactor)
    · cases hJ'
      rw [hv, neg_vec, allFinite_vec, Bool.and_true,
        (hJ.wp_iff.mp (wp_jacobian_whole hy.toWhole)).1] at hinfinite
      cases hinfinite
    · have hradius : y.memory.radius = real r := hradius
      rw [hradius] at hlarge
      cases hlarge
    · obtain ⟨h, -, hh⟩ := hy.problem.step hd
      cases hh.symm.trans hstep
    · simp [Params.thresholds, Tuning.params] at hmem
    · cases hfactor

theorem Ran.granted_solve (h : Ran scheme t l o s₀ e) (hq : e.problem.Quiet) :
    Act.Granted (serve (method scheme t.params l o n)) e .solve := by
  have hreturns : ((solve (method scheme t.params l o n)).run e).result.isOk = true := by
    cases hr : ((solve (method scheme t.params l o n)).run e).result with
    | ok _ => rfl
    | error f =>
      obtain ⟨k, x, hx, ho, hraises⟩ := (solve_raises_iff method_keeps_at).mp hr
      have hproblem := hx.problem method_keeps_at
      have hran : Ran scheme t l o s₀ x := by
        refine ⟨by rw [hproblem]; exact h.begins, hproblem ▸ h.problem, h.finite, ?_⟩
        have hcourse := h.course.laps hx
        rwa [(tested_eq_self ho).2.2] at hcourse
      have hok := hran.sound.1.returns hl (t := t) (o := o) (hproblem ▸ hq)
      have hraises : ((advance scheme t.params l o).run x).result = .error f := hraises
      rw [hraises] at hok
      cases hok
  change ((solve (method scheme t.params l o n) >>= fun _ => pure ()).run e).result.isOk = true
  rw [Act.run_bind_pure _ fun _ => ()]
  cases hr : ((solve (method scheme t.params l o n)).run e).result with
  | ok _ => rfl
  | error f => rw [hr] at hreturns; cases hreturns

end Returning

end Runs

/-- Customary parameters. -/
noncomputable def ordinary : Tuning :=
  ⟨0.0001, 0.25, 0.75, 0.25, 2.0, 32, by norm_num, by norm_num, by norm_num, by norm_num⟩

/-- A line through the origin, to be followed from one. -/
noncomputable def line : Problem Exact 1 :=
  ⟨.outOfPlace (fun u _ => .ok u) (some fun _ _ => .ok (mat 1)), vec (single 1), .absent⟩

/-- Elimination, with differences that the line has no need of. -/
noncomputable def eliminating : Linearization Exact :=
  ⟨⟨false, .ok (real 1)⟩, true, .lu, none, .textbook⟩

/-- At most five steps under Fan's rule, to a root and no nearer. -/
noncomputable def following : Method Exact 1 (Memory Exact 1) :=
  method .fan ordinary.params eliminating ⟨real 0, 5, Norm.l2⟩ 1

theorem line_finite (d : Differencing Exact) : line.Finite d := by
  refine ⟨allFinite_vec _, fun u _ hu _ _ => hu, fun u J _ hJ => ?_, nofun⟩
  obtain rfl := Except.ok.inj hJ
  exact allFinite_mat_iff.mpr ⟨1, rfl⟩

theorem line_quiet : line.Quiet := by
  refine ⟨fun _ => rfl, fun j hj u => ?_⟩
  obtain rfl := Option.some.inj hj
  rfl

/-- A run along the line. -/
theorem regions_stay_sound_line : ∃ b e : Iteration Exact 1 (Memory Exact 1),
    (Iteration.start following line).Returns () b () ∧
    Act.Served (serve following) (fun it r => Act.Granted (serve following) it r ∧
      ((serve following r).run it).state.problem.Finite eliminating.differencing) b [.solve] e ∧
    Bounded .fan e.memory.region ∧
    ∃ s₀ k, CountsRow .fan ordinary eliminating ⟨real 0, 5, Norm.l2⟩ s₀ e k := by
  have hP := line_finite eliminating.differencing
  have hfault := line_quiet.residualInto line.start (Vec.zero 1)
  have hb := returns_start (m := following) hfault
  have hran : Ran .fan ordinary eliminating ⟨real 0, 5, Norm.l2⟩ _ _ :=
    ran_begun hP (hP.residual _ _ hP.start allFinite_zero hfault)
  have hgranted := hran.granted_solve rfl line_quiet
  have hproblem : ∀ it, ((serve following .solve).run it).state.problem = it.problem := by
    intro it
    change ((solve following >>= fun _ => pure ()).run it).state.problem = _
    rw [Act.run_bind_pure _ fun _ => ()]
    exact solve_problem (m := following) method_keeps_at it
  have hserved : Act.Served (serve following) (fun it r => Act.Granted (serve following) it r ∧
      ((serve following r).run it).state.problem.Finite eliminating.differencing) _ [.solve] _ :=
    .more ⟨hgranted, by rw [hproblem]; exact hP⟩ (.none _)
  obtain ⟨hbounded, -, -, -, hcounts⟩ := regions_stay_sound hP hb hserved
  exact ⟨_, _, hb, hserved, hbounded, hcounts⟩

end Rootfinder.TrustRegion
