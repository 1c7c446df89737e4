import Rootfinder.Proofs.Armijo
import Rootfinder.Proofs.Candidates
import Rootfinder.Proofs.Endings

namespace Rootfinder

open Iteration Rounding

variable {α σ : Type} {n : ℕ}

namespace LineSearch

variable {prm : Params Float}

/-- The decrease that is asked for is none where the step length is zero, and never an increase. -/
theorem Params.Proper.demand_le (h : prm.Proper) {a c : Float} (ha : 0.0 ≤ a) (hone : a ≤ 1.0)
    (hc : 0.0 ≤ c) (hfinite : Scalar.isFinite c = true) : (1.0 - prm.armijo * a) * c ≤ c := by
  have harmijo := Rounding.le_of_lt h.armijo.2
  have hpos := Rounding.le_of_lt h.armijo.1
  obtain ⟨hshare, hle⟩ :=
    mul_le_self hpos (isFinite_of_le hpos harmijo worth_one.isFinite) ha hone
  obtain ⟨hrest, hrest'⟩ := sub_le_left hshare (Ranking.le_trans hle harmijo) worth_one.isFinite
  exact (mul_le_self' hc hfinite hrest hrest').2

namespace Search

variable {s : Search Float σ n} {I : σ → Prop}

structure Lowers (s : Search Float σ n) (b : Trial Float n) : Prop where
  norm : b.norm = s.norm.of b.residual
  finite : Scalar.isFinite b.norm = true
  le : b.norm ≤ s.current

theorem Lowers.better {best : Option (Trial Float n)} (hb : ∀ b ∈ best, s.Lowers b)
    {t : Trial Float n} (hnorm : t.norm = s.norm.of t.residual)
    (hfinite : Scalar.isFinite t.norm = true) : ∀ b ∈ s.better best t, s.Lowers b := by
  intro b hm
  unfold Search.better at hm
  split at hm
  · rename_i hlt
    obtain rfl := Option.some.inj hm
    refine ⟨hnorm, hfinite, ?_⟩
    cases best with
    | none => exact Rounding.le_of_lt hlt
    | some b => exact Ranking.le_trans (Rounding.le_of_lt hlt) (hb b rfl).le
  · exact hb b hm

/-- What a search returns lowers the norm, whatever the function does. -/
theorem wp_trials_lowers (hs : s.params.Proper) (hc : 0.0 ≤ s.current)
    (hfinite : Scalar.isFinite s.current = true) (hr : ∀ x, (s.residual x).Keeps I) (fuel : ℕ)
    {a : Float} (ha : 0.0 ≤ a) (hone : a ≤ 1.0) {best : Option (Trial Float n)}
    (hb : ∀ b ∈ best, s.Lowers b) {t : σ} (ht : I t) :
    (s.trials fuel a best).wp (fun b t' => I t' ∧ s.Lowers b) (fun _ => I) t := by
  induction fuel generalizing a best t with
  | zero => exact ht
  | succ fuel ih =>
    have hshort : ∀ best' : Option (Trial Float n), (∀ b ∈ best', s.Lowers b) → ∀ t', I t' →
        (if a * s.params.reduction < a then s.trials fuel (a * s.params.reduction) best'
        else Act.raise .endless).wp (fun b t' => I t' ∧ s.Lowers b) (fun _ => I) t' := by
      intro best' hb' t' ht'
      split
      · have hshrink := hs.shrinking
        obtain ⟨hle, hle'⟩ := mul_le_self ha (isFinite_of_le ha hone worth_one.isFinite)
          hshrink.nonneg hshrink.le_one
        exact ih hle (Ranking.le_trans hle' hone) hb' ht'
      · exact ht'
    rw [trials]
    split
    · rw [Act.wp_bind, trial, Act.wp_bind]
      refine ((hr _).wp ht).mono (fun r t' ht' => ?_) fun _ _ h => h
      rw [Act.wp_pure]
      split
      · rw [Act.wp_bind, Act.wp_log]
        exact hshort best hb t' ht'
      · rename_i hgood
        have hgood' : Scalar.isFinite (s.norm.of r) = true := by simpa using hgood
        split
        · rename_i hproductive
          have hle : s.norm.of r ≤ (1.0 - s.params.armijo * a) * s.current :=
            of_decide_eq_true hproductive
          rw [Act.wp_bind, Act.wp_log, Act.wp_pure]
          exact ⟨ht', rfl, hgood', Ranking.le_trans hle (hs.demand_le ha hone hc hfinite)⟩
        · have hbetter := Lowers.better hb
            (t := ⟨s.start + Vec.scale a s.delta, r, s.norm.of r, a⟩) rfl hgood'
          exact hshort _ hbetter t' ht'
    · cases best with
      | none => exact ht
      | some b =>
        rw [conclude, Act.wp_bind, Act.wp_log, Act.wp_pure]
        exact ⟨ht, hb b rfl⟩

end Search

end LineSearch

namespace Iteration

def Stays (y z : Iteration Float n σ) : Prop := z.u = y.u ∧ z.fu = y.fu

theorem Still.stays {y z : Iteration Float n σ} (h : Still y z) : Stays y z := ⟨h.u, h.fu⟩

theorem keeps_evaluate_still (y : Iteration Float n σ) (x : Vec Float n) :
    (evaluate x).Keeps (Still y) :=
  Act.keeps_of_wp fun z hz => (tells_evaluate y x z hz).mono (fun _ _ h => h.1) fun _ _ h => h.1

end Iteration

namespace Newton

variable {prm : LineSearch.Params Float} {l : Linearization Float} {o : Options Float}
  {y z : Iteration Float n Unit}

variable (o y z) in
/-- A step stays, or goes on with a finite norm that is no greater. -/
inductive Tread : Prop where
  | stays (h : Stays y z)
  | lowers (code : z.code = y.code) (finite : Scalar.isFinite (o.norm.of z.fu) = true)
    (le : o.norm.of z.fu ≤ o.norm.of y.fu)

theorem Tread.counted (h : Tread o y z) (s : Stats) : Tread o y { z with stats := s } := by
  cases h with
  | stays h => exact .stays h
  | lowers code finite le => exact .lowers code finite le

theorem wp_searched_lowers (hs : prm.Proper) (hc : 0.0 ≤ o.norm.of y.fu)
    (hfinite : Scalar.isFinite (o.norm.of y.fu) = true) (delta : Vec Float n) (hz : Still y z) :
    (searched o prm delta).wp (fun t x => Still y x ∧
      Scalar.isFinite (o.norm.of t.residual) = true ∧ o.norm.of t.residual ≤ o.norm.of y.fu)
      (fun _ => Still y) z := by
  rw [searched, Act.wp_bind, Act.wp_read, LineSearch.search, Act.wp_bind]
  obtain ⟨e, -, hraise⟩ | ⟨delta', hret⟩ := LineSearch.capped_cases prm delta
    (σ := Iteration Float n Unit)
  · rw [hraise]
    exact hz
  · rw [(hret z).wp_iff, hz.u, hz.fu]
    generalize LineSearch.patience = fuel
    refine (LineSearch.Search.wp_trials_lowers (s := ⟨prm, evaluate, o.norm, y.u, delta', _⟩) hs hc
      hfinite (keeps_evaluate_still y) fuel worth_one.nonneg ?_ (fun _ h => by cases h) hz).mono
      (fun t x ht => ⟨ht.1, ?_⟩) fun _ _ h => h
    · exact worth_one.near.le worth_one.near le_rfl
    · obtain ⟨hnorm, hfinite, hle⟩ := ht.2
      exact ⟨hnorm ▸ hfinite, hnorm ▸ hle⟩

/-- A step of Newton's method with a line search does not make the norm greater. -/
theorem wp_advance_tread (hs : prm.Proper) (hc : 0.0 ≤ o.norm.of y.fu)
    (hfinite : Scalar.isFinite (o.norm.of y.fu) = true) :
    (advance (some prm) l o).wp (fun _ => Tread o y) (fun _ _ => True) y := by
  have hquit : ∀ {x : Iteration Float n Unit} (code : ReturnCode), Still y x →
      (quit (some prm) o code).wp (fun _ => Tread o y) (fun _ _ => True) x := by
    intro x code hx
    rw [quit, wp_terminate]
    exact .stays ⟨hx.u, hx.fu⟩
  have hstill : Still y y := .refl y
  rw [advance, Act.wp_bind, Act.wp_read, Act.wp_bind, counting, Act.wp_zoom]
  refine Act.wp_of_forall _ (fun J s => ?_) fun _ _ => trivial
  rw [Act.wp_bind, Act.wp_attempt, counting, Act.wp_zoom]
  refine Act.wp_of_forall _ (fun delta s' => ?_) fun e s' => ?_
  · simp only
    split
    · rw [follow, Act.wp_bind, Act.wp_read, Act.wp_bind, Act.wp_attempt]
      refine (wp_searched_lowers hs hc hfinite delta (hstill.worked s' ())).mono
        (fun t x hx => ?_) fun e x hx => ?_
      · simp only [Iteration.adopt, Act.wp_update]
        exact .lowers hx.1.code hx.2.1 hx.2.2
      · simp only
        split
        · rw [Act.wp_bind, Act.wp_log]
          exact hquit .stalled hx
        · trivial
    · exact hquit .failure (hstill.worked s' ())
  · simp only
    split
    · rw [Act.wp_bind, Act.wp_log]
      exact hquit .failure (hstill.worked s' ())
    · trivial

end Newton

section Norms

theorem foldl_notBelow {β : Type} {f : β → Float} {xs : List β} (hxs : ∀ x ∈ xs, NotBelow (f x))
    {a : Float} (ha : NotBelow a) : NotBelow (xs.foldl (fun acc x => acc + f x) a) := by
  induction xs generalizing a with
  | nil => exact ha
  | cons x xs ih =>
    exact ih (fun y hy => hxs y (.tail x hy)) (notBelow_add ha (hxs x (.head xs)))

/-- The greatest magnitude is not below zero. -/
theorem notBelow_magnitude (r : List Float) : NotBelow (magnitude r) := by
  have hgo : ∀ (xs : List Float) (m : Float), NotBelow m → NotBelow (magnitude.go m xs) := by
    intro xs
    induction xs with
    | nil => exact fun _ hm => hm
    | cons x xs ih =>
      intro m hm
      have habs := notBelow_abs x
      rw [magnitude.go]
      split
      · exact habs
      · refine ih _ ?_
        split
        · exact habs
        · exact hm
  exact hgo r 0.0 (.inr worth_zero.nonneg)

/-- Nor is the Euclidean norm. -/
theorem notBelow_lengthScaled (r : List Float) : NotBelow (lengthScaled r) := by
  have hlargest := notBelow_magnitude r
  simp only [lengthScaled]
  split
  · exact hlargest
  · refine notBelow_mul hlargest (notBelow_sqrt (foldl_notBelow (fun x _ => ?_) ?_))
    · exact notBelow_square (x / magnitude r)
    · exact .inr worth_zero.nonneg

end Norms

namespace TrustRegion

/-- Sums of squares are not below zero. -/
theorem notBelow_dot (v : Vec Float n) : NotBelow (Vec.dot v v) := by
  rw [Vec.dot, Vec.total, ← Vector.foldl_toList, Vector.toList_zipWith, List.zipWith_self]
  refine foldl_notBelow (f := fun x => x) (fun x hx => ?_) (.inr worth_zero.nonneg)
  obtain ⟨a, -, rfl⟩ := List.mem_map.mp hx
  exact notBelow_square a

theorem notBelow_loss (v : Vec Float n) : NotBelow (loss v) :=
  notBelow_mul (.inr worth_half.nonneg) (notBelow_dot v)

/-- Less of the halved square is no greater length. -/
theorem euclid_le_of_loss_lt {v w : Vec Float n} (h : loss v < loss w) : v.euclid ≤ w.euclid := by
  have hlt : Vec.dot v v < Vec.dot w w := lt_of_half_lt (notBelow_dot w) h
  exact sqrt_mono ((notBelow_dot v).nonneg (not_nan_of_lt hlt).1) (Rounding.le_of_lt hlt)

/-- Only a trial with less loss has a ratio above zero, or one that is not a number. -/
theorem loss_lt_of_ratio {J : Mat Float n n} {fu s fuTrial : Vec Float n}
    (h : ¬ reductionRatio J fu s fuTrial ≤ 0.0) : loss fuTrial < loss fu := by
  by_contra hge
  refine h ?_
  simp only [reductionRatio]
  split
  · rename_i hused
    obtain ⟨hpos, hfinite⟩ := (Bool.and_eq_true _ _).mp hused
    have hpos := of_decide_eq_true hpos
    have hnan : (loss fu).isNaN = false := by
      obtain hn | hn := nan_or (loss fu)
      · have hp := (not_nan_of_lt hpos).2
        rw [parts_nan.mpr (nan_sub hn _)] at hp
        cases hp
      · exact hn
    have hle := (lt_or_le (not_nan_of_finite hfinite) hnan).resolve_left hge
    exact sub_div_nonpos ((notBelow_loss fu).nonneg hnan) hle hfinite hpos
  · decide +kernel

/-- A bound that is not below zero: zero is at or below it, and does not exceed it. -/
structure Threshold.Nonneg (t : Threshold Float) : Prop where
  kept : t.keptBy 0.0 = .ok true
  exceeded : t.exceededBy 0.0 = .ok false

theorem Threshold.nonneg_value {x : Float} (h : 0.0 ≤ x) : (Threshold.value x).Nonneg :=
  ⟨congrArg Except.ok (decide_eq_true h),
    congrArg Except.ok (decide_eq_false fun hlt => not_le_of_lt hlt h)⟩

theorem Threshold.nonneg_between {lo hi : Float} (h : 0.0 ≤ lo) (h' : ¬ hi ≤ 0.0) :
    (Threshold.between lo hi).Nonneg :=
  ⟨congrArg Except.ok (decide_eq_true h), congrArg Except.ok (decide_eq_false h')⟩

/-- Zero is not between a double and one of its neighbours, so it is enough that zero is at or below
the lower of the two. -/
theorem Threshold.nonneg_beside {x : Float} {beyond : Bool} :
    let y := Float.ofBits (if beyond then x.toBits - 1 else x.toBits + 1)
    let t : Threshold Float := if x < y then .between x y else .between y x
    t.keptBy 0.0 = .ok true → t.Nonneg := by
  intro y t h
  by_cases hlt : x < y
  · rw [show t = .between x y from if_pos hlt] at h ⊢
    have hlo : 0.0 ≤ x := of_decide_eq_true (Except.ok.inj h)
    exact nonneg_between hlo fun hle => not_le_of_lt hlt (Ranking.le_trans hle hlo)
  · rw [show t = .between y x from if_neg hlt] at h ⊢
    have hlo : 0.0 ≤ y := of_decide_eq_true (Except.ok.inj h)
    refine nonneg_between hlo fun hle => ?_
    obtain ⟨hx, hy⟩ := Ranking.not_nan_of_le (Ranking.le_trans hle hlo)
    have hge : y ≤ x := (lt_or_le hx hy).resolve_left hlt
    -- Both would be zero, and of the neighbours of the two zeros none is.
    have hzero := zero_of_le hle (Ranking.le_trans hlo hge)
    clear h hle hx hy hge t
    revert hlo hlt
    obtain rfl | rfl := hzero
    all_goals cases beyond <;> decide +kernel

/-- Of a whole number that was given for a bound it is enough that zero is at or below it. -/
theorem Threshold.nonneg_ofWhole {i : Int} (h : (Threshold.ofWhole i).keptBy 0.0 = .ok true) :
    (Threshold.ofWhole i).Nonneg := by
  unfold Threshold.ofWhole at h ⊢
  by_cases hexact : Value.wholeIs i (Float.ofInt i)
  · rw [if_pos hexact] at h ⊢
    exact nonneg_value (of_decide_eq_true (Except.ok.inj h))
  · rw [if_neg hexact] at h ⊢
    exact nonneg_beside h

/-- The same of any value that was given for a bound. -/
theorem Threshold.nonneg_of_kept {v : Value} (h : (Threshold.ofValue v).keptBy 0.0 = .ok true) :
    (Threshold.ofValue v).Nonneg := by
  unfold Threshold.ofValue at h ⊢
  split at h
  · exact nonneg_value (of_decide_eq_true (Except.ok.inj h))
  · split at h
    · exact nonneg_ofWhole h
    · cases h

def Threshold.Admits (t : Threshold Float) (rho : Float) : Prop :=
  t.exceededBy rho = .ok true ∨ t.keptBy rho = .ok false

/-- A ratio that such a bound admits is above zero, or not a number. -/
theorem Threshold.Nonneg.not_le {t : Threshold Float} (h : t.Nonneg) {rho : Float}
    (hr : t.Admits rho) : ¬ rho ≤ 0.0 := by
  intro hle
  obtain ⟨hkept, hexceeded⟩ := h
  cases t with
  | unordered => cases hkept
  | value x =>
    have hx : 0.0 ≤ x := of_decide_eq_true (Except.ok.inj hkept)
    obtain hr | hr := hr
    · have hlt : x < rho := of_decide_eq_true (Except.ok.inj hr)
      exact not_le_of_lt hlt (Ranking.le_trans hle hx)
    · exact of_decide_eq_false (Except.ok.inj hr) (Ranking.le_trans hle hx)
  | between lo hi =>
    have hlo : 0.0 ≤ lo := of_decide_eq_true (Except.ok.inj hkept)
    have hhi : ¬ hi ≤ 0.0 := of_decide_eq_false (Except.ok.inj hexceeded)
    obtain hr | hr := hr
    · exact hhi (Ranking.le_trans (of_decide_eq_true (Except.ok.inj hr)) hle)
    · exact of_decide_eq_false (Except.ok.inj hr) (Ranking.le_trans hle hlo)

variable {prm : Params Float} {scheme : Scheme} {l : Linearization Float} {o : Options Float}
  {rho size : Float} {y z : Iteration Float n (Memory Float n)} {s trial fuTrial fu : Vec Float n}
  {m : Memory Float n}

section Rules

/-- What a rule decides is whether the bound admits the ratio. -/
theorem wp_accepts : (accepts prm rho).wp
    (fun accepted _ => accepted = true → prm.stepThreshold.Admits rho) (fun _ _ => True) m := by
  rw [accepts]
  cases he : prm.stepThreshold.exceededBy rho with
  | error e => trivial
  | ok b =>
    rw [Act.wp_ofExcept_ok]
    intro hb
    exact .inl (by rw [he, hb])

/-- What a rule changes after its decision leaves the decision as it is. -/
theorem wp_accepts_bind {c : Bool → Bool} {x : Bool → Act Float (Memory Float n) Unit} :
    (accepts prm rho >>= fun accepted =>
      if c accepted then x accepted >>= fun _ => pure accepted else pure accepted).wp
      (fun accepted _ => accepted = true → prm.stepThreshold.Admits rho) (fun _ _ => True) m := by
  rw [Act.wp_bind]
  refine wp_accepts.mono (fun accepted m h => ?_) fun _ _ _ => trivial
  split
  · exact Act.wp_skip fun _ _ => h
  · exact h

theorem wp_updateSimple_admits : (updateSimple prm rho size).wp
    (fun accepted _ => accepted = true → prm.stepThreshold.Admits rho) (fun _ _ => True) m := by
  refine Act.wp_skip fun missed m => ?_
  split
  all_goals exact Act.wp_skip fun _ _ => wp_accepts_bind

theorem wp_updateNlsolve_admits : (updateNlsolve prm rho size).wp
    (fun accepted _ => accepted = true → prm.stepThreshold.Admits rho) (fun _ _ => True) m := by
  refine Act.wp_skip fun missed m => ?_
  split
  · exact Act.wp_skip fun _ _ => wp_accepts
  · exact Act.wp_skip fun _ _ => Act.wp_skip fun _ _ => wp_accepts

theorem wp_updateFan_admits : (updateFan prm rho fu).wp
    (fun accepted _ => accepted = true → prm.stepThreshold.Admits rho) (fun _ _ => True) m :=
  Act.wp_skip fun _ _ => wp_accepts_bind

end Rules

/-- A trial that is taken over: a dogleg step away, with a ratio that the bound admits and less
loss. -/
structure Accepted (t : Threshold Float) (P : Problem Float n) (u fu u' fu' : Vec Float n) :
    Prop where
  trial : ∃ J radius newton, let s := dogleg J fu radius newton
    u' = u + s ∧ t.Admits (reductionRatio J fu s fu')
  value : P.residual u' = .ok fu'
  less : loss fu' < loss fu

variable (prm y z) in
inductive Tread : Prop where
  | stays (h : Stays y z)
  | accepts (h : Accepted prm.stepThreshold y.problem y.u y.fu z.u z.fu)

/-- Nothing else of the state that was reached matters. -/
theorem Tread.congr (h : Tread prm y z) {x : Iteration Float n (Memory Float n)} (hu : x.u = z.u)
    (hfu : x.fu = z.fu) : Tread prm y x := by
  cases h with
  | stays h => exact .stays ⟨hu.trans h.1, hfu.trans h.2⟩
  | accepts h =>
    rw [← hu, ← hfu] at h
    exact .accepts h

theorem wp_remembering_admits {x : Act Float (Memory Float n) Bool} (hz : Still y z)
    (hx : x.wp (fun accepted _ => accepted = true → prm.stepThreshold.Admits rho)
      (fun _ _ => True) z.memory) :
    (remembering x).wp (fun accepted z' => if accepted then prm.stepThreshold.Admits rho
      else Still y z') (fun _ _ => True) z := by
  rw [remembering, Act.wp_zoom]
  refine hx.mono (fun accepted m h => ?_) fun _ _ _ => trivial
  cases accepted with
  | true => exact h rfl
  | false => exact hz.worked _ m

theorem wp_updateBastin_admits (hz : Still y z) : (updateBastin prm l rho s trial fuTrial).wp
    (fun accepted z' => if accepted then prm.stepThreshold.Admits rho else Still y z')
    (fun _ _ => True) z := by
  rw [updateBastin, Act.wp_bind]
  cases hk : prm.stepThreshold.keptBy rho with
  | error e => trivial
  | ok kept =>
    rw [Act.wp_ofExcept_ok]
    cases kept with
    | true =>
      rw [if_pos rfl, Act.wp_bind, remembering, Act.wp_zoom, shrink, Act.wp_update, Act.wp_pure]
      exact hz.worked _ _
    | false =>
      have hadmits : prm.stepThreshold.Admits rho := .inr hk
      iterate 6 refine Act.wp_skip fun _ _ => ?_
      exact hadmits

/-- Under every scheme a trial is accepted only if the bound admits its ratio, and nothing has moved
otherwise. -/
theorem wp_update_admits (hz : Still y z) : (update scheme prm l rho s trial fuTrial).wp
    (fun accepted z' => if accepted then prm.stepThreshold.Admits rho else Still y z')
    (fun _ _ => True) z := by
  cases scheme with
  | simple => exact wp_remembering_admits hz wp_updateSimple_admits
  | nlsolve => exact wp_remembering_admits hz wp_updateNlsolve_admits
  | bastin => exact wp_updateBastin_admits hz
  | fan =>
    rw [update, Act.wp_bind, Act.wp_read]
    exact wp_remembering_admits hz wp_updateFan_admits

/-- A trial that is accepted has less loss. -/
theorem wp_attemptStep_tread (hprm : prm.stepThreshold.Nonneg) {J : Mat Float n n}
    {newton : Option (Vec Float n)} {radius : Float} (hz : Still y z) :
    (attemptStep scheme prm l o J (dogleg J y.fu radius newton)).wp (fun _ => Tread prm y)
      (fun _ _ => True) z := by
  rw [attemptStep, Act.wp_bind, Act.wp_read, Act.wp_bind, hz.u, hz.fu]
  refine (tells_evaluate y _ z hz).mono (fun fuTrial x hx => ?_) fun _ _ _ => trivial
  obtain ⟨hx, hvalue⟩ := hx
  rw [Act.wp_bind]
  refine (wp_update_admits hx).mono (fun accepted x' hx' => ?_) fun _ _ _ => trivial
  cases accepted with
  | true =>
    have hless := loss_lt_of_ratio (hprm.not_le hx')
    rw [if_pos rfl, Act.wp_bind, adopt, Act.wp_update, Act.wp_bind, remembering, Act.wp_zoom,
      Act.wp_update, Act.wp_bind, Act.wp_read]
    exact wp_exhausted_of (.accepts ⟨⟨J, radius, newton, rfl, hx'⟩, hvalue, hless⟩)
      fun h => h.congr rfl rfl
  | false =>
    rw [if_neg (by simp), Act.wp_bind, Act.wp_read]
    exact wp_exhausted_of (.stays hx'.stays) fun h => h.congr rfl rfl

/-- A step of a trust region takes over a trial that has less loss, or stays. -/
theorem wp_advance_tread (hprm : prm.stepThreshold.Nonneg) :
    (advance scheme prm l o).wp (fun _ => Tread prm y) (fun _ _ => True) y := by
  rw [advance, Act.wp_bind]
  refine (keeps_jacobian_poised.wp ⟨.refl y, rfl, rfl⟩).mono (fun J z hz => ?_)
    fun _ _ _ => trivial
  rw [Act.wp_bind]
  refine ((keeps_newtonStep_poised J).wp hz).mono (fun newton z' hz' => ?_) fun _ _ _ => trivial
  rw [Act.wp_bind, Act.wp_read, hz'.fu, Act.wp_bind]
  refine wp_doglegStep ?_ fun _ _ => trivial
  split
  · exact wp_attemptStep_tread hprm hz'.toStill
  · rw [wp_terminate]
    exact .stays ⟨hz'.u, hz'.fu⟩

end TrustRegion

namespace Iteration

variable {m : Method Float n σ} {it : Iteration Float n σ}

/-- What a step of a method leads to is led to by a lap, if it does not depend on the statistics. -/
theorem wp_lap_of_advance {P : Iteration Float n σ → Prop}
    (h : m.advance.wp (fun _ => P) (fun _ _ => True) it)
    (hcounted : ∀ z s, P z → P { z with stats := s }) :
    (lap m).wp (fun _ => P) (fun _ _ => True) it := by
  rw [lap, Act.wp_bind]
  exact h.mono (fun _ z hz => hcounted z _ hz) fun _ _ _ => trivial

/-- A state that passes the test has a finite norm and no code yet. -/
theorem finite_of_passes (h : (it.tested m).terminated = false) :
    Scalar.isFinite (m.options.norm.of it.fu) = true ∧ it.code = .default := by
  obtain ⟨hrun, hv, -⟩ := tested_eq_self h
  obtain ⟨-, hcode⟩ : it.stopped = false ∧ it.code = .default := by simpa [terminated] using hrun
  refine ⟨?_, hcode⟩
  simp only [verdict] at hv
  split at hv
  · cases hv
  · rename_i hfinite
    simpa using hfinite

/-- The test does not make a step fail that led to a finite norm. -/
theorem tested_code (hcode : it.code = .default)
    (hfinite : Scalar.isFinite (m.options.norm.of it.fu) = true) :
    (it.tested m).code ≠ .stalled ∧ (it.tested m).code ≠ .failure := by
  obtain ht | ⟨-, code, hv, ht⟩ := tested_cases (m := m) it
  · rw [ht, hcode]
    decide
  · rw [ht]
    obtain ⟨-, hinfinite⟩ | ⟨-, ⟨rfl, -⟩ | ⟨rfl, -⟩⟩ := verdict_cases hv
    · rw [hfinite] at hinfinite
      cases hinfinite
    · exact ⟨nofun, nofun⟩
    · exact ⟨nofun, nofun⟩

end Iteration

def Session.Stays (s e : Session Float n) : Prop :=
  e.iteration.u = s.iteration.u ∧ e.iteration.fu = s.iteration.fu

namespace Candidate

variable (call : Call)

/-- A candidate that is safeguarded: a line search whose settings are accepted, under a norm that is
not negative, or a trust region with a bound on the ratio that zero is at or below. -/
def Globalised : Candidate → Prop
  | .newton (some search) _ => search.check = .ok () ∧ ∀ r, NotBelow (call.normOrDefault.eval r)
  | .trustRegion _ rule _ => rule.params.stepThreshold.keptBy 0.0 = .ok true
  | _ => False

/-- What a safeguard makes no greater. -/
def size (r : Vec Float n) : Candidate → Float
  | .trustRegion .. => r.euclid
  | _ => call.normOrDefault.of r

/-- What a step of a safeguarded candidate may do. -/
inductive Descends (s e : Session Float n) : Candidate → Prop
  | stays {c : Candidate} (h : s.Stays e) : Descends s e c
  | lowers {search : Option Backtracking} {configuration : Configuration}
    (code : e.iteration.code ≠ .stalled ∧ e.iteration.code ≠ .failure)
    (le : call.normOrDefault.of e.iteration.fu ≤ call.normOrDefault.of s.iteration.fu) :
    Descends s e (.newton search configuration)
  | accepts {scheme : TrustRegion.Scheme} {rule : RadiusRule} {configuration : Configuration}
    (h : TrustRegion.Accepted rule.params.stepThreshold s.problem s.iteration.u s.iteration.fu
      e.iteration.u e.iteration.fu) :
    Descends s e (.trustRegion scheme rule configuration)

/-- A residual that is that of another session, or no greater. -/
def NoWorse (s e : Session Float n) (c : Candidate) : Prop :=
  s.Stays e ∨ c.size call e.iteration.fu ≤ c.size call s.iteration.fu

variable {call : Call} {c : Candidate} {b e s s' : Session Float n}

/-- Only the iterate and its residual matter. -/
theorem NoWorse.congr (h : c.NoWorse call b s) (he : s.Stays e) : c.NoWorse call b e := by
  obtain ⟨hu, hfu⟩ := he
  rw [NoWorse, Session.Stays, hu, hfu]
  exact h

theorem NoWorse.trans (h : c.NoWorse call b s) (h' : c.NoWorse call s e) : c.NoWorse call b e := by
  obtain hstays | hle' := h'
  · exact h.congr hstays
  · obtain ⟨-, hfu⟩ | hle := h
    · exact .inr (hfu ▸ hle')
    · exact .inr (Ranking.le_trans hle' hle)

theorem Descends.noWorse (h : c.Descends call s e) : c.NoWorse call s e := by
  cases h with
  | stays h => exact .inl h
  | lowers _ hle => exact .inr hle
  | accepts h => exact .inr (TrustRegion.euclid_le_of_loss_lt h.less)

variable [LinearRoutines Float]

/-- A lap of a safeguarded candidate descends, or stays. -/
theorem lap_descends {o : Options Float} (ho : o.norm = call.normOrDefault)
    (hc : c.Globalised call) {y x : Iteration Float n (c.algorithm.Memory n)}
    (hy : (y.tested (c.algorithm.method o n)).terminated = false)
    (hl : (lap (c.algorithm.method o n)).Returns y () x) :
    c.Descends call ⟨c.algorithm, o, y⟩ ⟨c.algorithm, o, x.tested (c.algorithm.method o n)⟩ := by
  cases c with
  | newton search configuration =>
    cases search with
    | none => exact hc.elim
    | some search =>
      obtain ⟨hcheck, hnorm⟩ := hc
      obtain ⟨hfinite, hcode⟩ := finite_of_passes hy
      rw [Algorithm.method_options] at hfinite
      have hpos : 0.0 ≤ o.norm.of y.fu := by
        rw [ho]
        exact (hnorm _).nonneg (not_nan_of_finite (ho ▸ hfinite))
      have htread := hl.wp_iff.mp (wp_lap_of_advance
        (Newton.wp_advance_tread (l := configuration.linearization) (Backtracking.proper hcheck)
          hpos hfinite) fun _ s hz => hz.counted s)
      cases htread with
      | stays h => exact .stays ⟨(tested_u x).trans h.1, (tested_fu x).trans h.2⟩
      | lowers hsame hfinite hle =>
        refine .lowers (tested_code (hsame.trans hcode) ?_) ?_
        · rwa [Algorithm.method_options]
        · rw [tested_fu, ← ho]
          exact hle
  | trustRegion scheme rule configuration =>
    have hprm : rule.params.stepThreshold.Nonneg := TrustRegion.Threshold.nonneg_of_kept hc
    have htread := hl.wp_iff.mp (wp_lap_of_advance (TrustRegion.wp_advance_tread hprm)
      fun _ s hz => hz.congr rfl rfl)
    cases htread.congr (tested_u x) (tested_fu x) with
    | stays h => exact .stays h
    | accepts h => exact .accepts h
  | _ => exact hc.elim

/-- A step of a safeguarded candidate descends, or stays. -/
theorem Owns.step_descends (h : Owns call c s) (hc : c.Globalised call)
    (hs : Session.step.Returns s () e) : c.Descends call s e := by
  obtain ⟨a, o, y⟩ := s
  obtain rfl := h.algorithm
  obtain ⟨hok, rfl⟩ := hs
  have hstep : (Iteration.step (c.algorithm.method o n)).Returns y ()
      ((Iteration.step (c.algorithm.method o n)).run y).state := ⟨hok, rfl⟩
  obtain ⟨-, he⟩ | ⟨ho, x, hl, he⟩ := step_cases hstep
  · exact .stays ⟨(congrArg Iteration.u he).trans (tested_u y),
      (congrArg Iteration.fu he).trans (tested_fu y)⟩
  · have hd := lap_descends (Call.options_norm h.options) hc ho hl
    rw [← he] at hd
    exact hd

/-- No number of laps makes the residual worse. -/
theorem noWorse_of_laps {o : Options Float} (ho : o.norm = call.normOrDefault)
    (hc : c.Globalised call) {k : ℕ} {y x : Iteration Float n (c.algorithm.Memory n)}
    (h : Laps (c.algorithm.method o n) k y x) :
    c.NoWorse call ⟨c.algorithm, o, y⟩ ⟨c.algorithm, o, x⟩ := by
  induction h with
  | none it => exact .inl ⟨rfl, rfl⟩
  | @more k y z x hy hl h ih =>
    have hfirst : c.NoWorse call ⟨_, o, y⟩ ⟨_, o, z⟩ := (lap_descends ho hc hy hl).noWorse.congr
      ⟨(tested_u z).symm, (tested_fu z).symm⟩
    exact hfirst.trans ih

/-- Nor does a run that goes by steps and solves. -/
theorem Opens.noWorse (h : Opens call c b) (hc : c.Globalised call) (he : b.OnCourse e) :
    c.NoWorse call b e := by
  obtain ⟨a, o, y⟩ := b
  obtain rfl := h.algorithm
  obtain ⟨it, ⟨k, x, hl, ht⟩, rfl⟩ := he
  have hu := congrArg Iteration.u ht
  have hfu := congrArg Iteration.fu ht
  rw [tested_u, tested_u] at hu
  rw [tested_fu, tested_fu] at hfu
  exact (noWorse_of_laps (Call.options_norm h.options) hc hl).congr ⟨hu, hfu⟩

end Candidate

/-- Safeguarded candidates do not make the residual worse. Where a run that goes by steps and solves
has led, a step that returns leaves the iterate and its residual as they are, or else it descends:
with a line search to a norm that is no greater, and without having stalled or failed, in a trust
region to an accepted trial whose residual has a lesser halved square. So no residual that such a
run leads to, or that a solve returns, is greater than that at the beginning. -/
theorem safeguarded_runs_descend [LinearRoutines Float] {call : Call} {problem : Problem Float n}
    {c : Candidate} (hc : c.Globalised call) {b e : Session Float n} (hb : c.Begins call problem b)
    {rs : List Session.Request} (h : Act.Served Session.serve
      (fun s r => (r = .step ∨ r = .solve) ∧ Act.Granted Session.serve s r) b rs e) :
    (∀ e', Session.step.Returns e () e' → c.Descends call e e') ∧
      c.NoWorse call b e ∧
      ∀ r e', Session.solve.Returns e r e' → r = e'.snapshot ∧ c.NoWorse call b e' := by
  have hopens := hb.opens
  have hcourse : b.OnCourse e := h.keeps ⟨b.iteration, .refl _, rfl⟩ fun s r hs hr =>
    hs.serve hr.1 hr.2
  have howns : Candidate.Owns call c e := h.keeps hopens.toOwns fun s r hs _ =>
    Candidate.keeps_serve_owns r s hs
  refine ⟨fun e' hs => howns.step_descends hc hs, hopens.noWorse hc hcourse, fun r e' hr => ?_⟩
  obtain ⟨ho, rfl⟩ := hr
  exact ⟨Session.outcome_snapshot ho, hopens.noWorse hc (hcourse.solve ho)⟩

/-- A line search that stalls has come down by then, and stays where it is. -/
theorem safeguarded_runs_descend_rootless : ∃ b e : Session Float 1,
    damped.Globalised .plain ∧ damped.Begins .plain rootless b ∧
    Act.Served Session.serve (fun s r => (r = .step ∨ r = .solve) ∧ Act.Granted Session.serve s r) b
      [.step, .solve] e ∧
    e.iteration.code = .stalled ∧ e.iteration.u ≠ b.iteration.u ∧
    damped.size .plain e.iteration.fu ≤ damped.size .plain b.iteration.fu := by
  have hrun : ((damped.init .plain rootless).run ()).result.toOption.map (fun b =>
      let s := ((Session.serve .step).run b).state
      let e := ((Session.serve .solve).run s).state
      (((Session.serve .step).run b).result.isOk, ((Session.serve .solve).run s).result.isOk,
        e.iteration.code, decide (e.iteration.u = b.iteration.u))) =
      some (true, true, .stalled, false) := by decide +kernel
  have hc : damped.Globalised .plain := ⟨by rfl, notBelow_lengthScaled⟩
  cases hb : ((damped.init .plain rootless).run ()).result with
  | error e => rw [hb] at hrun; cases hrun
  | ok b =>
    rw [hb] at hrun
    simp only [Except.toOption, Option.map_some, Option.some.injEq, Prod.mk.injEq,
      decide_eq_false_iff_not] at hrun
    obtain ⟨h₁, h₂, hcode, hmoved⟩ := hrun
    have hserved : Act.Served Session.serve
        (fun s r => (r = .step ∨ r = .solve) ∧ Act.Granted Session.serve s r) b [.step, .solve] _ :=
      .more ⟨.inl rfl, h₁⟩ (.more ⟨.inr rfl, h₂⟩ (.none _))
    obtain ⟨-, ⟨hu, -⟩ | hle, -⟩ := safeguarded_runs_descend hc (.init hb) hserved
    · exact absurd hu hmoved
    · exact ⟨b, _, hc, .init hb, hserved, hcode, hmoved, hle⟩

end Rootfinder
