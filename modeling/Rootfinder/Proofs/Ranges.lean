import Rootfinder.Linear.Textbook
import Rootfinder.Proofs.Armijo
import Rootfinder.Proofs.Configurations
import Rootfinder.Proofs.Wholes

namespace Rootfinder

open Rounding

namespace Value

/-- A number with a property, which is asked of doubles as such and of whole numbers exactly. -/
inductive Meets (p : Float → Prop) (q : ℤ → Prop) : Value → Prop where
  | double {x : Float} (h : p x) : Meets p q (.num x)
  | whole {v : Value} {i : ℤ} (hv : v.whole? = some i) (h : q i) : Meets p q v

def IsPositive : Value → Prop := Meets (0.0 < ·) (0 < ·)

def ExceedsOne : Value → Prop := Meets (1.0 < ·) (1 < ·)

/-- Strictly between zero and one. -/
def IsFraction : Value → Prop := Meets (fun x => 0.0 < x ∧ x < 1.0) (fun i => 0 < i ∧ i < 1)

def IsShare : Value → Prop := Meets (fun x => 0.0 < x ∧ x ≤ 1.0) (fun i => 0 < i ∧ i ≤ 1)

/-- The double that is not a number. -/
def IsUndefined : Value → Prop := Meets (·.isNaN = true) (fun _ => False)

variable {v : Value} {p : Float → Prop} {q : ℤ → Prop}

theorem number?_eq_some_iff {x : Float} :
    v.number? = some x ↔ v = .num x ∨ ∃ i, v.whole? = some i ∧ Float.ofInt i = x := by
  cases v <;> simp [number?, whole?]

/-- Where doubles have a property exactly if the whole numbers that they stand for do, it can be
asked of the double of any number. -/
theorem meets_iff (h : ∀ i, p (Float.ofInt i) ↔ q i) :
    v.Meets p q ↔ ∃ x, v.number? = some x ∧ p x := by
  constructor
  · intro hv
    cases hv with
    | double hx => exact ⟨_, rfl, hx⟩
    | whole hw hi => exact ⟨_, number?_eq_some_iff.mpr (.inr ⟨_, hw, rfl⟩), (h _).mpr hi⟩
  · rintro ⟨x, hx, hp⟩
    obtain rfl | ⟨i, hw, rfl⟩ := number?_eq_some_iff.mp hx
    · exact .double hp
    · exact .whole hw ((h i).mp hp)

theorem isPositive_iff : v.IsPositive ↔ ∃ x, v.number? = some x ∧ 0.0 < x :=
  meets_iff fun _ => ofInt_pos_iff

theorem exceedsOne_iff : v.ExceedsOne ↔ ∃ x, v.number? = some x ∧ 1.0 < x :=
  meets_iff fun _ => one_lt_ofInt_iff

theorem isFraction_iff : v.IsFraction ↔ ∃ x, v.number? = some x ∧ 0.0 < x ∧ x < 1.0 :=
  -- No whole number is one, neither exactly nor rounded.
  meets_iff fun i => iff_of_false not_ofInt_between (by omega)

theorem isShare_iff : v.IsShare ↔ ∃ x, v.number? = some x ∧ 0.0 < x ∧ x ≤ 1.0 :=
  meets_iff fun _ => and_congr ofInt_pos_iff ofInt_le_one_iff

theorem isUndefined_iff : v.IsUndefined ↔ ∃ x, v.number? = some x ∧ x.isNaN = true :=
  meets_iff fun i => iff_of_false (fun h => Bool.false_ne_true ((not_nan_ofInt i).symm.trans h)) id

theorem not_undefined_of_lt {c x : Float} (hx : v.number? = some x) (h : c < x) :
    ¬ v.IsUndefined := by
  rw [isUndefined_iff]
  rintro ⟨y, hy, hnan⟩
  obtain rfl := Option.some.inj (hx.symm.trans hy)
  exact Bool.false_ne_true ((not_nan_of_lt h).2.symm.trans hnan)

theorem IsPositive.not_undefined (h : v.IsPositive) : ¬ v.IsUndefined := by
  obtain ⟨x, hx, hlt⟩ := isPositive_iff.mp h
  exact not_undefined_of_lt hx hlt

theorem ExceedsOne.not_undefined (h : v.ExceedsOne) : ¬ v.IsUndefined := by
  obtain ⟨x, hx, hlt⟩ := exceedsOne_iff.mp h
  exact not_undefined_of_lt hx hlt

/-- A test of what lies outside a range is passed by what is in it and by what is not a number. -/
theorem outside_iff {c : Float} (hc : c.isNaN = false) :
    (∃ x, v.number? = some x ∧ ¬ x ≤ c) ↔ (∃ x, v.number? = some x ∧ c < x) ∨ v.IsUndefined := by
  rw [isUndefined_iff, ← exists_or]
  refine exists_congr fun x => ?_
  rw [← and_or_left]
  refine and_congr_right fun _ => ⟨fun h => ?_, ?_⟩
  · cases hx : x.isNaN with
    | true => exact .inr rfl
    | false => exact .inl ((lt_or_le hc hx).resolve_right h)
  · rintro (h | h) hle
    · exact not_le_of_lt h hle
    · rw [(Ranking.not_nan_of_le hle).1] at h
      cases h

theorem not_le_one_iff : (∃ x, v.number? = some x ∧ ¬ x ≤ 1.0) ↔ v.ExceedsOne ∨ v.IsUndefined := by
  rw [exceedsOne_iff, outside_iff (by decide)]

theorem not_le_zero_iff : (∃ x, v.number? = some x ∧ ¬ x ≤ 0.0) ↔ v.IsPositive ∨ v.IsUndefined := by
  rw [isPositive_iff, outside_iff (by decide)]

end Value

theorem compared_iff {v : Value} {e : Refusal} {p : Float → Bool} : (do
    let x ← v.compared
    Refusal.unless e (p x) : Except (Fault Float) Unit) = .ok () ↔
      ∃ x, v.number? = some x ∧ p x = true := by
  simp only [Value.compared_bind_iff, Refusal.unless_eq_ok]

namespace Settings

variable {σ : Type} [Settings σ]

/-- The settings that callers can get: made from keywords, or merged with keywords from such. -/
inductive Accepted : σ → Prop where
  | made {given : Keywords} {c : σ} (h : make given = .ok c) : Accepted c
  | merged {given : Keywords} {c : σ} {m : Merged σ} (hc : Accepted c) (h : merge c given = .ok m) :
    Accepted m.settings

variable {P : σ → Prop} {given : Keywords} {c : σ}

theorem make_sound (hsound : ∀ get (c : σ), ofFields get = .ok c → P c)
    (h : make given = .ok c) : P c := by
  unfold make at h
  split at h
  · cases h
  · exact hsound _ _ h

/-- What is merged was checked anew, unless there was nothing to change. -/
theorem merge_sound (hsound : ∀ get (c : σ), ofFields get = .ok c → P c) {m : Merged σ}
    (hc : P c) (h : merge c given = .ok m) : P m.settings := by
  unfold merge at h
  split at h
  · cases h
  · simp only [mergePresent] at h
    split at h
    · cases h
    · split at h
      · obtain rfl := Except.ok.inj h
        exact hc
      · obtain ⟨c', hc', h⟩ := except_bind_ok h
        obtain rfl := Except.ok.inj h
        exact hsound _ _ hc'

theorem Accepted.sound (hsound : ∀ get (c : σ), ofFields get = .ok c → P c) (h : Accepted c) :
    P c := by
  induction h with
  | made h => exact make_sound hsound h
  | merged _ h ih => exact merge_sound hsound ih h

/-- Settings whose own fields are accepted are made from them. -/
theorem accepted_of_fields (hnames : (fields c).map (·.1) = names σ)
    (h : ofFields (overlay (initial : σ) (fields c)) = .ok c) : Accepted c := by
  have hknown : (fields c).find? (fun kv => !(names σ).contains kv.1) = none := by
    rw [List.find?_eq_none]
    intro kv hkv
    simpa [← hnames] using ⟨kv.2, hkv⟩
  have hmade : make (fields c) = .ok c := by
    rw [make, hknown]
    exact h
  exact .made hmade

/-- Where fields are only read before they are checked, what passes the check is accepted. -/
theorem accepted_iff_check {check : σ → Except (Fault Float) Unit} {read : (String → Setting) → σ}
    (hfields : ∀ get, ofFields get = (do check (read get); .ok (read get)))
    (hnames : (fields c).map (·.1) = names σ)
    (hread : read (overlay (initial : σ) (fields c)) = c) : Accepted c ↔ check c = .ok () := by
  refine ⟨Accepted.sound (P := fun c => check c = .ok ()) fun get c h => ?_,
    fun h => accepted_of_fields hnames ?_⟩
  · rw [hfields] at h
    obtain ⟨⟨⟩, hcheck, h⟩ := except_bind_ok h
    obtain rfl := Except.ok.inj h
    exact hcheck
  · rw [hfields, hread, h]
    rfl

end Settings

theorem Stencil.named?_eq_some {s : String} {stencil : Stencil} :
    Stencil.named? s = some stencil ↔ s = stencil.name := by
  constructor
  · intro h
    have hname : stencil.name = s := by simpa using List.find?_some h
    exact hname.symm
  · rintro rfl
    cases stencil <;> decide

namespace Differentiation

variable {d : Differentiation}

/-- The range of the relative step: none is given, or it is positive. -/
def InRange (d : Differentiation) : Prop := d.step = .none ∨ d.step.IsPositive

theorem inRange_iff :
    d.InRange ↔ d.step = .none ∨ ∃ x, d.step.number? = some x ∧ 0.0 < x := by
  rw [InRange, Value.isPositive_iff]

theorem step_check {stencil : Stencil} {step : Value} : (match step, step.number? with
      | .none, _ => .ok ⟨stencil, step⟩
      | _, none => .error .wrongType
      | _, some x => if 0.0 < x then .ok ⟨stencil, step⟩ else .error (.refused .step) :
      Except (Fault Float) Differentiation) = .ok d ↔
    (⟨stencil, step⟩ : Differentiation) = d ∧ d.InRange := by
  split
  · rw [Except.ok.injEq]
    exact (and_iff_left_of_imp fun h => h ▸ .inl rfl).symm
  · rename_i hne hx
    refine iff_of_false nofun ?_
    rintro ⟨rfl, h⟩
    obtain h | ⟨x, hx', -⟩ := inRange_iff.mp h
    · exact hne h
    · rw [hx] at hx'
      cases hx'
  · rename_i x hne hx
    split
    · rw [Except.ok.injEq]
      exact (and_iff_left_of_imp fun h => h ▸ inRange_iff.mpr (.inr ⟨x, hx, ‹_›⟩)).symm
    · rename_i hlt
      refine iff_of_false nofun ?_
      rintro ⟨rfl, h⟩
      obtain h | ⟨y, hy, hlt'⟩ := inRange_iff.mp h
      · exact hne h
      · obtain rfl := Option.some.inj (hx.symm.trans hy)
        exact hlt hlt'

/-- Fields are accepted exactly if one of the stencils is named, and the step is in its range. -/
theorem ofFields_eq_ok {get : String → Setting} : Settings.ofFields get = .ok d ↔
    (get "mode").value?.getD .none = .text d.stencil.name ∧
      (get "step").value?.getD .none = d.step ∧ d.InRange := by
  simp only [Settings.ofFields]
  generalize (get "mode").value?.getD .none = mode
  generalize (get "step").value?.getD .none = step
  split
  · rename_i s
    rw [Value.text.injEq]
    cases hs : Stencil.named? s with
    | none =>
      refine iff_of_false nofun fun h => ?_
      rw [Stencil.named?_eq_some.mpr h.1] at hs
      cases hs
    | some stencil =>
      obtain rfl := Stencil.named?_eq_some.mp hs
      refine step_check.trans ⟨?_, ?_⟩
      · rintro ⟨rfl, h⟩
        exact ⟨rfl, rfl, h⟩
      · rintro ⟨hname, rfl, h⟩
        rw [← Stencil.named?_eq_some, hs, Option.some.injEq] at hname
        exact ⟨hname ▸ rfl, h⟩
  · rename_i htext
    exact iff_of_false nofun fun h => htext _ h.1

theorem accepted_iff : Settings.Accepted d ↔ d.InRange := by
  refine ⟨Settings.Accepted.sound fun _ _ h => (ofFields_eq_ok.mp h).2.2, fun h => ?_⟩
  exact Settings.accepted_of_fields rfl (ofFields_eq_ok.mpr ⟨rfl, rfl, h⟩)

end Differentiation

namespace Backtracking

variable {b : Backtracking}

/-- The ranges of the factor between trials, the least length and the share of decrease. -/
structure InRange (b : Backtracking) : Prop where
  alphaReduction : b.alphaReduction.IsFraction
  minAlpha : b.minAlpha.IsShare
  armijo : b.armijo.IsFraction

/-- A cap that is accepted: none, a positive one, or one that is not a number. -/
def CapAccepted (b : Backtracking) : Prop :=
  b.maxDelta = .none ∨ b.maxDelta.IsPositive ∨ b.maxDelta.IsUndefined

theorem cap_check_eq_ok {v : Value} : (match v with
      | .none => .ok ()
      | v => do
        let cap ← v.compared
        Refusal.unless .maxDelta (!(cap ≤ 0.0)) : Except (Fault Float) Unit) = .ok () ↔
    v = .none ∨ v.IsPositive ∨ v.IsUndefined := by
  rw [← Value.not_le_zero_iff]
  split
  · simp
  · rename_i hne
    rw [compared_iff (p := fun x => !decide (x ≤ 0.0))]
    simp only [Bool.not_eq_true', decide_eq_false_iff_not]
    exact (or_iff_right hne).symm

theorem check_eq_ok : b.check = .ok () ↔ b.InRange ∧ b.CapAccepted := by
  rw [check, compared_then_iff (p := fun x => decide (0.0 < x) && decide (x < 1.0)),
    compared_then_iff (p := fun x => decide (0.0 < x) && decide (x ≤ 1.0)),
    compared_then_iff (p := fun x => decide (0.0 < x) && decide (x < 1.0))]
  simp only [Bool.and_eq_true, decide_eq_true_eq, ← Value.isFraction_iff, ← Value.isShare_iff]
  rw [CapAccepted, ← cap_check_eq_ok]
  constructor
  · rintro ⟨hreduction, hleast, harmijo, hcap⟩
    exact ⟨⟨hreduction, hleast, harmijo⟩, hcap⟩
  · rintro ⟨⟨hreduction, hleast, harmijo⟩, hcap⟩
    exact ⟨hreduction, hleast, harmijo, hcap⟩

theorem accepted_iff : Settings.Accepted b ↔ b.InRange ∧ b.CapAccepted := by
  rw [← check_eq_ok]
  exact Settings.accepted_iff_check (fun _ => rfl) rfl rfl

end Backtracking

namespace RadiusRule

variable {r : RadiusRule}

/-- The ranges of the factors of the radius and of the limit on shrinking. -/
structure InRange (r : RadiusRule) : Prop where
  shrinkFactor : r.shrinkFactor.IsFraction
  expandFactor : r.expandFactor.ExceedsOne
  maxShrinkTimes : r.maxShrinkTimes.IsPositive

theorem check_eq_ok : r.check = .ok () ↔ r.shrinkFactor.IsFraction ∧
    (r.expandFactor.ExceedsOne ∨ r.expandFactor.IsUndefined) ∧
    (r.maxShrinkTimes.IsPositive ∨ r.maxShrinkTimes.IsUndefined) := by
  rw [check, compared_then_iff (p := fun x => decide (0.0 < x) && decide (x < 1.0)),
    compared_then_iff (p := fun x => !decide (x ≤ 1.0)),
    compared_iff (p := fun x => !decide (x ≤ 0.0))]
  simp only [Bool.and_eq_true, Bool.not_eq_true', decide_eq_true_eq, decide_eq_false_iff_not,
    Value.isFraction_iff, Value.not_le_one_iff, Value.not_le_zero_iff]

theorem accepted_iff : Settings.Accepted r ↔ r.shrinkFactor.IsFraction ∧
    (r.expandFactor.ExceedsOne ∨ r.expandFactor.IsUndefined) ∧
    (r.maxShrinkTimes.IsPositive ∨ r.maxShrinkTimes.IsUndefined) := by
  rw [← check_eq_ok]
  exact Settings.accepted_iff_check (fun _ => rfl) rfl rfl

/-- An accepted rule is in its ranges exactly if neither of the two numbers is undefined whose ranges
are tested by what lies outside them. -/
theorem inRange_iff (h : Settings.Accepted r) :
    r.InRange ↔ ¬ r.expandFactor.IsUndefined ∧ ¬ r.maxShrinkTimes.IsUndefined := by
  obtain ⟨hshrink, hexpand, hlimit⟩ := accepted_iff.mp h
  constructor
  · intro hrange
    exact ⟨hrange.expandFactor.not_undefined, hrange.maxShrinkTimes.not_undefined⟩
  · rintro ⟨hfactor, htimes⟩
    exact ⟨hshrink, hexpand.resolve_right hfactor, hlimit.resolve_right htimes⟩

theorem inRange_ofScheme (scheme : TrustRegion.Scheme) : (ofScheme scheme).InRange := by
  cases scheme <;>
    exact ⟨.double ⟨by decide, by decide⟩, .double (by decide), .whole rfl (by decide)⟩

theorem inRange_of_ofValue {v : Value} (h : ofValue v = .ok r) : r.InRange := by
  unfold ofValue at h
  split at h
  · obtain rfl := Except.ok.inj h
    exact inRange_ofScheme _
  · cases h

theorem InRange.accepted (h : r.InRange) : Settings.Accepted r :=
  accepted_iff.mpr ⟨h.shrinkFactor, .inl h.expandFactor, .inl h.maxShrinkTimes⟩

end RadiusRule

namespace Value

variable {v : Value}

/-- A number that is not infinite or undefined. -/
def IsBounded (v : Value) : Prop := ∀ x, v = .num x → Scalar.isFinite x = true

theorem number?_of_double {x : Float} (h : v.double = .ok x) : v.number? = some x := by
  cases v with
  | num y => exact congrArg some (Except.ok.inj h)
  | bool b => cases b <;> exact congrArg some (Except.ok.inj h)
  | int i =>
    simp only [double, whole?] at h
    split at h
    · cases h
    · exact congrArg some (Except.ok.inj h)
  | _ => cases h

/-- A double that is a number can be used as such. -/
theorem double_of_undefined (h : v.IsUndefined) : ∃ x, v.double = .ok x ∧ x.isNaN = true := by
  cases h with
  | double hx => exact ⟨_, rfl, hx⟩
  | whole _ hfalse => exact hfalse.elim

/-- Exactly the bounded numbers can be cut to whole ones. -/
theorem truncates_iff {x : Float} (hx : v.number? = some x) :
    (∃ k, v.truncated = .ok k) ↔ v.IsBounded := by
  obtain rfl | ⟨i, hi, -⟩ := number?_eq_some_iff.mp hx
  · have hbounded : (num x).IsBounded ↔ Scalar.isFinite x = true :=
      ⟨fun h => h x rfl, fun h y hy => Value.num.inj hy ▸ h⟩
    rw [hbounded, ← isSome_ofFloat?_iff]
    cases hd : Decimal.Dyadic.ofFloat? x with
    | none => simp [truncated, hd]
    | some d => exact iff_of_true ⟨_, by rw [truncated, hd]⟩ rfl
  · cases v with
    | bool b => exact iff_of_true ⟨_, rfl⟩ nofun
    | int j => exact iff_of_true ⟨_, rfl⟩ nofun
    | _ => cases hi

end Value

namespace TrustRegion

/-- What the radius rules and the limit on shrinking rely on: shrinking makes a region less,
expanding makes none less, and a row of shrinking steps is too long sooner or later. -/
structure Params.Sound (prm : Params Float) : Prop where
  shrinks : ∀ y, Scalar.tiny < y → Scalar.isFinite y = true → y * prm.shrinkFactor < y
  expands : ∀ x, prm.expandFactor = .ok x → ∀ y, 0.0 < y → Scalar.isFinite y = true → y ≤ x * y
  ends : ∃ k, ∀ (n : ℕ) (m : Memory Float n), exhausted prm m = true ↔ k < m.shrinks

end TrustRegion

namespace RadiusRule

open TrustRegion

variable {r : RadiusRule}

theorem shrinks (h : r.shrinkFactor.IsFraction) {y : Float} (htiny : Scalar.tiny < y)
    (hfinite : Scalar.isFinite y = true) : y * r.params.shrinkFactor < y := by
  obtain ⟨c, hc, hpos, hone⟩ := Value.isFraction_iff.mp h
  have hfactor : r.params.shrinkFactor = c := by
    change r.shrinkFactor.number?.getD 0.0 = c
    rw [hc]
    rfl
  rw [hfactor]
  exact mul_lt_self htiny hfinite hpos hone

theorem expandFactor_eq_ok {x : Float} : r.params.expandFactor = .ok x ↔
    r.expandFactor.double = .ok x := by
  change r.expandFactor.double.mapError Fault.unreadable = .ok x ↔ _
  cases r.expandFactor.double <;> simp [Except.mapError]

theorem expands_iff (h : r.expandFactor.ExceedsOne ∨ r.expandFactor.IsUndefined) :
    (∀ x, r.params.expandFactor = .ok x → ∀ y, 0.0 < y → Scalar.isFinite y = true → y ≤ x * y) ↔
      ¬ r.expandFactor.IsUndefined := by
  constructor
  · intro hexpands hundefined
    obtain ⟨x, hx, hnan⟩ := Value.double_of_undefined hundefined
    have hle := hexpands x (expandFactor_eq_ok.mpr hx) 1.0 (by decide) worth_one.isFinite
    -- The product with one is no number either, so that one is not below it.
    have hproduct := parts_nan.mpr (nan_mul (b := 1.0) (.inl (parts_nan.mp hnan)))
    rw [(Ranking.not_nan_of_le hle).2] at hproduct
    cases hproduct
  · intro hdefined x hx y hy hfinite
    obtain ⟨x', hx', hone⟩ := Value.exceedsOne_iff.mp (h.resolve_right hdefined)
    have hnumber := Value.number?_of_double (expandFactor_eq_ok.mp hx)
    obtain rfl := Option.some.inj (hx'.symm.trans hnumber)
    exact le_mul_self hone hy hfinite

theorem ends_iff {x : Float} (hx : r.maxShrinkTimes.number? = some x) :
    (∃ k, ∀ (n : ℕ) (m : Memory Float n), exhausted r.params m = true ↔ k < m.shrinks) ↔
      r.maxShrinkTimes.IsBounded := by
  rw [← Value.truncates_iff hx]
  have hlimit : r.params.maxShrinkTimes = r.maxShrinkTimes.truncated.toOption.map Int.toNat := rfl
  cases ht : r.maxShrinkTimes.truncated with
  | ok k =>
    rw [ht] at hlimit
    refine iff_of_true ⟨k.toNat, fun n m => ?_⟩ ⟨k, rfl⟩
    simp [exhausted, hlimit, Except.toOption]
  | error e =>
    rw [ht] at hlimit
    refine iff_of_false ?_ nofun
    rintro ⟨k, hk⟩
    -- Without a limit, no row is too long, not even one that is longer than the bound.
    have hover := (hk 0 ⟨0.0, 0.0, 0.0, k + 1, none⟩).mpr k.lt_succ_self
    simp [exhausted, hlimit, Except.toOption] at hover

/-- What the radius rules rely on holds exactly if the factor is a number and the limit is a bounded
one. -/
theorem sound_iff (h : Settings.Accepted r) : r.params.Sound ↔
    ¬ r.expandFactor.IsUndefined ∧ r.maxShrinkTimes.IsBounded := by
  obtain ⟨hshrink, hexpand, hlimit⟩ := accepted_iff.mp h
  obtain ⟨x, hx, -⟩ := Value.not_le_zero_iff.mpr hlimit
  rw [← expands_iff hexpand, ← ends_iff hx]
  constructor
  · rintro ⟨-, hexpands, hends⟩
    exact ⟨hexpands, hends⟩
  · rintro ⟨hexpands, hends⟩
    exact ⟨fun _ => shrinks hshrink, hexpands, hends⟩

end RadiusRule

/-- The ranges of accepted settings. A differentiation is accepted exactly if it has no step or a
positive one. A line search is accepted exactly if its factor and its share of decrease are
fractions and its least length is a share of the full step, with a cap that is absent, positive or
undefined; its loop then has what it relies on. A radius rule is accepted exactly if its factors are
a fraction and a number above one and its limit is positive, except that the last two may also be
undefined, as their ranges are tested by what lies outside them; but for this it is in its ranges.
The customary rules are, and a trust region can rely on an accepted rule exactly if the factor that
expands is not undefined and the limit is bounded. -/
theorem accepted_settings_in_range (d : Differentiation) (b : Backtracking) (r : RadiusRule) :
    (Settings.Accepted d ↔ d.InRange) ∧
    (Settings.Accepted b ↔ b.InRange ∧ b.CapAccepted) ∧
    (Settings.Accepted b → b.params.Proper) ∧
    (Settings.Accepted r ↔ r.shrinkFactor.IsFraction ∧
      (r.expandFactor.ExceedsOne ∨ r.expandFactor.IsUndefined) ∧
      (r.maxShrinkTimes.IsPositive ∨ r.maxShrinkTimes.IsUndefined)) ∧
    (Settings.Accepted r → (r.InRange ↔
      ¬ r.expandFactor.IsUndefined ∧ ¬ r.maxShrinkTimes.IsUndefined)) ∧
    (∀ v, RadiusRule.ofValue v = .ok r → Settings.Accepted r ∧ r.InRange) ∧
    (Settings.Accepted r → (r.params.Sound ↔
      ¬ r.expandFactor.IsUndefined ∧ r.maxShrinkTimes.IsBounded)) := by
  refine ⟨Differentiation.accepted_iff, Backtracking.accepted_iff, fun hb => ?_,
    RadiusRule.accepted_iff, RadiusRule.inRange_iff, fun v hr => ?_, RadiusRule.sound_iff⟩
  · exact Backtracking.proper (Backtracking.check_eq_ok.mpr (Backtracking.accepted_iff.mp hb))
  · have hrange := RadiusRule.inRange_of_ofValue hr
    exact ⟨hrange.accepted, hrange⟩

/-- Bastin's rule by its name, and the customary line search. -/
theorem accepted_settings_in_range_bastin :
    RadiusRule.ofValue (.text "bastin") = .ok (RadiusRule.ofScheme .bastin) ∧
    (RadiusRule.ofScheme .bastin).InRange ∧ (RadiusRule.ofScheme .bastin).params.Sound ∧
    Backtracking.initial.params.Proper := by
  have hnamed : RadiusRule.ofValue (.text "bastin") = .ok (RadiusRule.ofScheme .bastin) := by rfl
  have hmade : Settings.make [] = .ok Backtracking.initial := by rfl
  obtain ⟨-, -, hproper, -, -, hcustomary, hsound⟩ :=
    accepted_settings_in_range Settings.initial Backtracking.initial (RadiusRule.ofScheme .bastin)
  obtain ⟨haccepted, hrange⟩ := hcustomary _ hnamed
  have hreliable := (hsound haccepted).mpr ⟨hrange.expandFactor.not_undefined, nofun⟩
  exact ⟨hnamed, hrange, hreliable, hproper (.made hmade)⟩

/-- What is not a number passes for a factor above one, and for a positive limit that is merged in.
The first expansion then loses the radius, and a trust region fails on a system that it solves by
the customary rule. -/
theorem undefined_settings_pass :
    let undefined : Value := .num (0.0 / 0.0)
    let r : RadiusRule := { RadiusRule.initial with expandFactor := undefined }
    let code (r : RadiusRule) :=
      (((Candidate.trustRegion .simple r Settings.initial).init .plain
        (ridge #v[3.0, 14.0])).run ()).result.toOption.bind fun b =>
          (Session.solve.run b).result.toOption.map (·.code)
    Settings.make [("expand_factor", .plain undefined)] = .ok r ∧
    Settings.merge r [("max_shrink_times", .plain undefined)] =
      .ok ⟨{ r with maxShrinkTimes := undefined }, false⟩ ∧
    ¬ undefined.ExceedsOne ∧ ¬ undefined.IsPositive ∧
    code r = some .failure ∧ code RadiusRule.initial = some .success := by
  have hnumber {c : Float} (hc : ¬ c < 0.0 / 0.0) :
      ¬ ∃ x, (Value.num (0.0 / 0.0)).number? = some x ∧ c < x := by
    rintro ⟨x, hx, hlt⟩
    obtain rfl := Option.some.inj hx
    exact hc hlt
  refine ⟨by rfl, by rfl, ?_, ?_, by decide +kernel, by decide +kernel⟩
  · rw [Value.exceedsOne_iff]
    exact hnumber (by decide)
  · rw [Value.isPositive_iff]
    exact hnumber (by decide)

end Rootfinder
