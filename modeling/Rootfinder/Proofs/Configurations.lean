import Rootfinder.Proofs.Candidates

namespace Rootfinder

theorem LinearMethod.named?_name (m : LinearMethod) : LinearMethod.named? m.name = some m := by
  cases m <;> decide

theorem LinearMethod.name_of_named? {s : String} {m : LinearMethod}
    (h : LinearMethod.named? s = some m) : m.name = s := by
  simpa using List.find?_some h

theorem Refusal.unless_eq_ok {α : Type} {reason : Refusal} {holds : Bool} :
    (Refusal.unless reason holds : Except (Fault α) Unit) = .ok () ↔ holds = true := by
  cases holds <;> simp [Refusal.unless]

/-- A value that may say whether Jacobians are materialised: none, or one that equals a truth
value. -/
def Value.IsTruth (v : Value) : Prop :=
  v = .none ∨ v.same (.bool true) = true ∨ v.same (.bool false) = true

namespace Configuration

variable {c c' : Configuration}

structure Checked (c : Configuration) : Prop where
  truth : c.concrete.IsTruth
  krylov : isFalse c.concrete = true → c.linear = some .gmres

def Holds (c : Configuration) (get : String → Setting) : Prop :=
  ∀ kv ∈ Settings.fields c, get kv.1 = kv.2

theorem holds_iff {get : String → Setting} : c.Holds get ↔
    get "autodiff" = .differentiation c.differentiation ∧
    get "linsolve" = .plain ((c.linear.map fun m => .text m.name).getD .none) ∧
    get "precs" = (c.preconditioning.map .preconditioning).getD .absent ∧
    get "concrete_jac" = .plain c.concrete := by
  simp [Holds, Settings.fields]

theorem readDifferentiation_eq_ok {s : Setting} {d : Differentiation} :
    readDifferentiation s = .ok d ↔ s = .differentiation d := by
  cases s <;> simp [readDifferentiation]

theorem readLinear_eq_ok {s : Setting} {m : Option LinearMethod} : readLinear s = .ok m ↔
    s = .plain ((m.map fun m => .text m.name).getD .none) := by
  constructor
  · intro h
    unfold readLinear at h
    split at h
    · obtain rfl := Except.ok.inj h
      rfl
    · split at h
      · rename_i s _ hs
        obtain rfl := Except.ok.inj h
        rw [Option.map_some, Option.getD_some, LinearMethod.name_of_named? hs]
      · cases h
    · cases h
    · cases h
  · rintro rfl
    cases m with
    | none => rfl
    | some m => simp [readLinear, LinearMethod.named?_name]

theorem readPreconditioning_eq_ok {s : Setting} {p : Option Preconditioning} :
    readPreconditioning s = .ok p ↔ s = (p.map .preconditioning).getD .absent := by
  constructor
  · intro h
    unfold readPreconditioning at h
    split at h
    · obtain rfl := Except.ok.inj h
      rfl
    · obtain rfl := Except.ok.inj h
      rfl
    · cases h
  · rintro rfl
    cases p <;> rfl

theorem readConcrete_eq_ok {s : Setting} {v : Value} :
    readConcrete s = .ok v ↔ s = .plain v ∧ v.IsTruth := by
  constructor
  · intro h
    unfold readConcrete at h
    split at h
    · obtain rfl := Except.ok.inj h
      exact ⟨rfl, .inl rfl⟩
    · split at h
      · rename_i ht
        obtain rfl := Except.ok.inj h
        exact ⟨rfl, .inr (by simpa using ht)⟩
      · cases h
    · cases h
  · rintro ⟨rfl, rfl | ht⟩
    · rfl
    · unfold readConcrete
      split
      · rename_i hv
        obtain rfl := Setting.plain.inj hv
        rfl
      · rename_i hv
        obtain rfl := Setting.plain.inj hv
        rw [if_pos (by simpa using ht)]
      · rename_i hv
        exact absurd rfl (hv v)

/-- Fields are accepted exactly if a configuration that passes the checks has them. -/
theorem ofFields_eq_ok {get : String → Setting} :
    Settings.ofFields get = .ok c ↔ c.Checked ∧ c.Holds get := by
  obtain ⟨d, m, p, v⟩ := c
  rw [holds_iff]
  constructor
  · intro h
    obtain ⟨d', hd, h⟩ := except_bind_ok h
    obtain ⟨m', hm, h⟩ := except_bind_ok h
    obtain ⟨p', hp, h⟩ := except_bind_ok h
    obtain ⟨v', hv, h⟩ := except_bind_ok h
    obtain ⟨_, hk, h⟩ := except_bind_ok h
    obtain ⟨rfl, rfl, rfl, rfl⟩ := Configuration.mk.inj (Except.ok.inj h)
    obtain ⟨hv, ht⟩ := readConcrete_eq_ok.mp hv
    have hk := Refusal.unless_eq_ok.mp hk
    refine ⟨⟨ht, fun hf => ?_⟩, readDifferentiation_eq_ok.mp hd, readLinear_eq_ok.mp hm,
      readPreconditioning_eq_ok.mp hp, hv⟩
    simpa [hf] using hk
  · rintro ⟨⟨ht, hk⟩, hd, hm, hp, hv⟩
    have hk : (!(isFalse v && m != some .gmres)) = true := by
      cases hf : isFalse v with
      | false => rfl
      | true =>
        obtain rfl : m = some .gmres := hk hf
        rfl
    simp only [Settings.ofFields, readDifferentiation_eq_ok.mpr hd, readLinear_eq_ok.mpr hm,
      readPreconditioning_eq_ok.mpr hp, readConcrete_eq_ok.mpr ⟨hv, ht⟩,
      Refusal.unless_eq_ok.mpr hk, bind, Except.bind]

/-- The fields determine the configuration. -/
theorem Holds.unique {get : String → Setting} (h : c.Holds get) (h' : c'.Holds get) : c = c' := by
  obtain ⟨d, m, p, v⟩ := c
  obtain ⟨d', m', p', v'⟩ := c'
  obtain ⟨hd, hm, hp, hv⟩ := holds_iff.mp h
  obtain ⟨hd', hm', hp', hv'⟩ := holds_iff.mp h'
  obtain rfl : d = d' := Setting.differentiation.inj (hd.symm.trans hd')
  obtain rfl : m = m' := by
    have hm := readLinear_eq_ok.mpr hm
    rw [readLinear_eq_ok.mpr hm'] at hm
    exact (Except.ok.inj hm).symm
  obtain rfl : p = p' := by
    have hp := readPreconditioning_eq_ok.mpr hp
    rw [readPreconditioning_eq_ok.mpr hp'] at hp
    exact (Except.ok.inj hp).symm
  obtain rfl : v = v' := Setting.plain.inj (hv.symm.trans hv')
  rfl

/-- A configuration holds its own fields. -/
theorem holds_overlay_nil (c : Configuration) : c.Holds (Settings.overlay c []) :=
  holds_iff.mpr ⟨rfl, rfl, rfl, rfl⟩

theorem checked_initial : initial.Checked := ⟨.inl rfl, fun h => by cases h⟩

end Configuration

def Keywords.present (given : Keywords) : Keywords := given.filter fun kv => !kv.2.isAbsent

/-- Keywords that a change of a configuration takes: none names the receiver, and those that are
present name fields. -/
structure Keywords.Known (given : Keywords) : Prop where
  unreserved : ∀ kv ∈ given, kv.1 ≠ Settings.receiver
  fields : ∀ kv ∈ given.present, kv.1 ∈ Settings.names Configuration

namespace Configuration

variable {c c' : Configuration} {given : Keywords}

theorem make_eq_ok : Settings.make given = .ok c ↔
    (∀ kv ∈ given, kv.1 ∈ Settings.names Configuration) ∧ c.Checked ∧
      c.Holds (Settings.overlay (Settings.initial : Configuration) given) := by
  rw [← ofFields_eq_ok, Settings.make]
  cases h : given.find? fun kv => !(Settings.names Configuration).contains kv.1 with
  | some kv =>
    have hkv := List.find?_some h
    simp only [Bool.not_eq_true', List.contains_eq_mem, decide_eq_false_iff_not] at hkv
    simp only [reduceCtorEq, false_iff, not_and]
    exact fun hg => absurd (hg kv (List.mem_of_find?_eq_some h)) hkv
  | none =>
    simp only [List.find?_eq_none, Bool.not_eq_true', List.contains_eq_mem,
      decide_eq_false_iff_not, not_not] at h
    exact (and_iff_right fun kv hkv => h kv hkv).symm

/-- The result of laying present keywords over a configuration that passes the checks: it passes
them too and holds the present keywords and otherwise the old fields. -/
theorem mergePresent_eq_ok (hc : c.Checked) :
    (Settings.mergePresent c given).map Settings.Merged.settings = .ok c' ↔
      (∀ kv ∈ given, kv.1 ∈ Settings.names Configuration) ∧ c'.Checked ∧
        c'.Holds (Settings.overlay c given) := by
  have hunknown : ((given.map (·.1)).filter fun name =>
      !(Settings.names Configuration).contains name).isEmpty = true ↔
      ∀ kv ∈ given, kv.1 ∈ Settings.names Configuration := by
    simp [List.isEmpty_iff, List.filter_eq_nil_iff]
  rw [Settings.mergePresent, ← hunknown]
  cases hu : ((given.map (·.1)).filter fun name =>
      !(Settings.names Configuration).contains name).isEmpty with
  | false => simp [Except.map]
  | true =>
    simp only [Bool.not_true, Bool.false_eq_true, if_false, true_and]
    cases given with
    | nil =>
      simp only [List.isEmpty_nil, if_true, Except.map, Except.ok.injEq]
      constructor
      · rintro rfl
        exact ⟨hc, holds_overlay_nil c⟩
      · exact fun h => (holds_overlay_nil c).unique h.2
    | cons kv given =>
      rw [← ofFields_eq_ok]
      simp only [List.isEmpty_cons, Bool.false_eq_true, if_false]
      cases (Settings.ofFields (Settings.overlay c (kv :: given)) :
        Except (Fault Float) Configuration) with
      | error e => simp [bind, Except.bind, Except.map]
      | ok c'' => simp [bind, Except.bind, Except.map]

theorem merge_eq_ok (hc : c.Checked) :
    (Settings.merge c given).map Settings.Merged.settings = .ok c' ↔
      given.Known ∧ c'.Checked ∧ c'.Holds (Settings.overlay c given.present) := by
  rw [Settings.merge]
  cases hr : given.any (·.1 == Settings.receiver) with
  | true =>
    obtain ⟨kv, hkv, hname⟩ := List.any_eq_true.mp hr
    simp only [if_true, Except.map, reduceCtorEq, false_iff, not_and]
    exact fun h => absurd (by simpa using hname) (h.unreserved kv hkv)
  | false =>
    have hunreserved : ∀ kv ∈ given, kv.1 ≠ Settings.receiver := by simpa using hr
    rw [if_neg Bool.false_ne_true]
    refine (mergePresent_eq_ok hc).trans (and_congr_left fun _ => ?_)
    exact ⟨fun h => ⟨hunreserved, h⟩, Keywords.Known.fields⟩

/-- A changed facade keeps its preset, and its configuration is a merged one. -/
theorem update_eq_ok {p p' : Polyalgorithm} (hp : p.configuration.Checked) :
    p.update given = .ok p' ↔ p'.preset = p.preset ∧ given.Known ∧ p'.configuration.Checked ∧
      p'.configuration.Holds (Settings.overlay p.configuration given.present) := by
  obtain ⟨preset, c⟩ := p
  obtain ⟨preset', c'⟩ := p'
  rw [← merge_eq_ok hp, Polyalgorithm.update]
  cases Settings.merge c given with
  | error e => simp [bind, Except.bind, Except.map]
  | ok m => simp [bind, Except.bind, Except.map, eq_comm]

/-- The configurations that callers can get. -/
inductive Accepted : Configuration → Prop where
  | made {given : Keywords} {c : Configuration} (h : Settings.make given = .ok c) : Accepted c
  | merged {given : Keywords} {c : Configuration} {m : Settings.Merged Configuration}
    (hc : Accepted c) (h : Settings.merge c given = .ok m) : Accepted m.settings
  | offered {preset : Preset} {base : Option Configuration} {given : Keywords} {p : Polyalgorithm}
    (hb : ∀ c ∈ base, Accepted c) (h : Polyalgorithm.make preset base given = .ok p) :
    Accepted p.configuration
  | updated {given : Keywords} {p p' : Polyalgorithm} (hp : Accepted p.configuration)
    (h : p.update given = .ok p') : Accepted p'.configuration

theorem Checked.merge {m : Settings.Merged Configuration} (hc : c.Checked)
    (h : Settings.merge c given = .ok m) : m.settings.Checked := by
  have hm : (Settings.merge c given).map Settings.Merged.settings = .ok m.settings := by
    rw [h]
    rfl
  exact ((merge_eq_ok hc).mp hm).2.1

theorem Accepted.checked (h : c.Accepted) : c.Checked := by
  induction h with
  | made h => exact (make_eq_ok.mp h).2.1
  | merged _ h ih => exact ih.merge h
  | @offered preset base given p _ h ih =>
    unfold Polyalgorithm.make at h
    split at h
    · cases h
    · obtain ⟨m, hm, h⟩ := except_bind_ok h
      obtain rfl := Except.ok.inj h
      cases base with
      | none => exact checked_initial.merge hm
      | some c => exact (ih c rfl).merge hm
  | updated _ h ih => exact ((update_eq_ok ih).mp h).2.2.1

/-- Every configuration that passes the checks is made from its own fields. -/
theorem Checked.accepted (h : c.Checked) : c.Accepted := by
  have hnames : Settings.names Configuration = (Settings.fields c).map (·.1) := rfl
  have hm : Settings.make (Settings.fields c) = .ok c := by
    refine make_eq_ok.mpr ⟨fun kv hkv => ?_, h, holds_iff.mpr ⟨rfl, rfl, rfl, rfl⟩⟩
    rw [hnames]
    exact List.mem_map_of_mem hkv
  exact .made hm

end Configuration

end Rootfinder
