import Mathlib.Data.Prod.Lex
import Mathlib.Order.Compare
import Mathlib.Data.Int.Order.Basic
import Mathlib.Algebra.Order.Group.Int
import Rootfinder.Fallback.Selection

namespace Rootfinder

open Float.Model

namespace Ranking

/-- Sign, exponent and mantissa as they are compared, and not a number at the end. -/
def unpacked : UnpackedFloat → ℤ ×ₗ ℤ ×ₗ ℤ
  | .infinity .negative => toLex (-2, toLex (0, 0))
  | .finite .negative m e _ => toLex (-1, toLex (-e, -m))
  | .zero _ => toLex (0, toLex (0, 0))
  | .finite .positive m e _ => toLex (1, toLex (e, m))
  | .infinity .positive => toLex (2, toLex (0, 0))
  | .notANumber => toLex (3, toLex (0, 0))

def rank (x : Float) : ℤ ×ₗ ℤ ×ₗ ℤ := unpacked x.toModel.unpack

theorem compare_triple (a b c d e f : ℤ) :
    compare (toLex (a, toLex (b, c))) (toLex (d, toLex (e, f))) =
      (compare a d).then ((compare b e).then (compare c f)) := by
  simp only [Prod.Lex.compare_def, compareLex, compareOn, ofLex_toLex]

theorem compare_neg (a b : ℤ) : compare (-a) (-b) = (compare a b).swap := by
  rcases lt_trichotomy a b with h | h | h
  · rw [compare_gt_iff_gt.mpr (Int.neg_lt_neg h), compare_lt_iff_lt.mpr h]
    rfl
  · simp [h]
  · rw [compare_lt_iff_lt.mpr (Int.neg_lt_neg h), compare_gt_iff_gt.mpr h]
    rfl

theorem compare_cast (a b : ℕ) : compare (a : ℤ) (b : ℤ) = compare a b := by
  rcases lt_trichotomy a b with h | h | h
  · rw [compare_lt_iff_lt.mpr h, compare_lt_iff_lt.mpr (Int.ofNat_lt.mpr h)]
  · simp [h]
  · rw [compare_gt_iff_gt.mpr h, compare_gt_iff_gt.mpr (Int.ofNat_lt.mpr h)]

theorem compare_unpacked {a b : UnpackedFloat} (ha : a ≠ .notANumber) (hb : b ≠ .notANumber) :
    a.compare b = some (compare (unpacked a) (unpacked b)) := by
  rcases a with (- | -) | - | - | ⟨- | -, m, e, h⟩ <;>
    rcases b with (- | -) | - | - | ⟨- | -, m', e', h'⟩ <;>
    first
    | exact absurd rfl ha
    | exact absurd rfl hb
    | (dsimp only [UnpackedFloat.compare, unpacked]
       simp only [compare_triple, compare_neg, compare_cast, Ordering.swap_then]
       rfl)

theorem isNaN_iff {x : Float} : x.isNaN = true ↔ x.toModel.unpack = .notANumber := by
  change x.toModel.unpack.isNaN = true ↔ _
  cases x.toModel.unpack with
  | notANumber => exact ⟨fun _ => rfl, fun _ => rfl⟩
  | _ => exact ⟨fun h => absurd h Bool.false_ne_true, fun h => by cases h⟩

theorem rank_nan {x : Float} (h : x.isNaN = true) : rank x = toLex (3, toLex (0, 0)) := by
  rw [rank, isNaN_iff.mp h]
  rfl

theorem rank_lt_nan {x y : Float} (hx : x.isNaN = false) (hy : y.isNaN = true) :
    rank x < rank y := by
  have hne : x.toModel.unpack ≠ .notANumber := fun h => by
    rw [isNaN_iff.mpr h] at hx
    cases hx
  rw [rank_nan hy, rank]
  revert hne
  rcases x.toModel.unpack with (- | -) | - | - | ⟨- | -, m, e, h⟩ <;> intro hne
  case notANumber => exact absurd rfl hne
  all_goals
    dsimp only [unpacked]
    simp [Prod.Lex.toLex_lt_toLex]

section Numbers

variable {x y : Float} (hx : x.isNaN = false) (hy : y.isNaN = false)

include hx hy

theorem compare_rank : x.toModel.unpack.compare y.toModel.unpack =
    some (compare (rank x) (rank y)) := by
  refine compare_unpacked (fun h => ?_) (fun h => ?_)
  · rw [isNaN_iff.mpr h] at hx
    cases hx
  · rw [isNaN_iff.mpr h] at hy
    cases hy

theorem lt_iff : x < y ↔ rank x < rank y := by
  have h : x < y ↔ x.toModel.unpack.lt y.toModel.unpack = true := by
    change (decide (x.toModel < y.toModel)) = true ↔ _
    rw [decide_eq_true_iff]
    rfl
  rw [h, UnpackedFloat.lt, compare_rank hx hy, ← compare_lt_iff_lt, beq_iff_eq, Option.some.injEq]

theorem le_iff : x ≤ y ↔ rank x ≤ rank y := by
  have h : x ≤ y ↔ x.toModel.unpack.le y.toModel.unpack = true := by
    change (decide (x.toModel ≤ y.toModel)) = true ↔ _
    rw [decide_eq_true_iff]
    rfl
  rw [h, UnpackedFloat.le, compare_rank hx hy, ← compare_le_iff_le, Option.any_some,
    Ordering.isLE_iff_ne_gt]

end Numbers

/-- What is not a number is not comparable. -/
theorem not_nan_of_le {x y : Float} (h : x ≤ y) : x.isNaN = false ∧ y.isNaN = false := by
  have hle : x.toModel.unpack.le y.toModel.unpack = true := by
    change (decide (x.toModel ≤ y.toModel)) = true at h
    rw [decide_eq_true_iff] at h
    exact h
  constructor
  · rw [← Bool.not_eq_true, isNaN_iff]
    intro hx
    rw [hx] at hle
    cases hle
  · rw [← Bool.not_eq_true, isNaN_iff]
    intro hy
    rw [hy] at hle
    revert hle
    rcases x.toModel.unpack with (- | -) | - | - | ⟨- | -, m, e, h⟩
    all_goals exact fun hle => by cases hle

theorem le_trans {x y z : Float} (h : x ≤ y) (h' : y ≤ z) : x ≤ z := by
  obtain ⟨hx, hy⟩ := not_nan_of_le h
  obtain ⟨-, hz⟩ := not_nan_of_le h'
  rw [le_iff hx hy] at h
  rw [le_iff hy hz] at h'
  rw [le_iff hx hz]
  exact h.trans h'

end Ranking

namespace Selection

section Entries

variable {α β γ : Type} [Scalar α]

theorem scan_map (measure : γ → α) (f : β → γ) (best : Nat × β) (i : Nat) (bs : List β) :
    scan measure (best.1, f best.2) i (bs.map f) =
      ((scan (fun b => measure (f b)) best i bs).1,
        f (scan (fun b => measure (f b)) best i bs).2) := by
  induction bs generalizing best i with
  | nil => rfl
  | cons b bs ih =>
    rw [List.map_cons, scan, scan]
    split
    · exact ih (i, b) (i + 1)
    · exact ih best (i + 1)

/-- A choice by what entries are mapped to is the choice among what they are mapped to. -/
theorem selectBest_map (measure : γ → α) (f : β → γ) (bs : List β) :
    selectBest measure (bs.map f) =
      (selectBest (fun b => measure (f b)) bs).map fun c => (c.1, f c.2) := by
  cases bs with
  | nil => rfl
  | cons b bs => exact congrArg Except.ok (scan_map measure f (0, b) 1 bs)

theorem scan_getElem? (measure : β → α) {before : List β} {best : Nat × β}
    (h : before[best.1]? = some best.2) (bs : List β) :
    (before ++ bs)[(scan measure best before.length bs).1]? =
      some (scan measure best before.length bs).2 := by
  induction bs generalizing before best with
  | nil => simpa only [scan, List.append_nil] using h
  | cons b bs ih =>
    have hlen : before.length + 1 = (before ++ [b]).length := by simp
    have hlt := (List.getElem?_eq_some_iff.mp h).1
    rw [scan, List.append_cons, hlen]
    split
    · exact ih (by simp)
    · exact ih (by rw [List.getElem?_append_left hlt, h])

/-- What is chosen stands at its place. -/
theorem selectBest_getElem? {measure : β → α} {bs : List β} {i : Nat} {b : β}
    (h : selectBest measure bs = .ok (i, b)) : bs[i]? = some b := by
  cases bs with
  | nil => cases h
  | cons a bs =>
    have hs : scan measure (0, a) [a].length bs = (i, b) := Except.ok.inj h
    have hg := scan_getElem? measure (show [a][(0, a).1]? = some (0, a).2 from rfl) bs
    rw [hs] at hg
    exact hg

theorem selectBest_ok (measure : β → α) {bs : List β} (hne : bs ≠ []) :
    ∃ i b, selectBest measure bs = .ok (i, b) := by
  cases bs with
  | nil => exact absurd rfl hne
  | cons b bs => exact ⟨_, _, rfl⟩

end Entries

open Ranking

/-- A norm that is no worse than another; one that is not a number is no better than any. -/
def NoWorse (x y : Float) : Prop := y.isNaN = true ∨ x.isNaN = false ∧ x ≤ y

/-- The first of the least entries, and its place. -/
structure Least {β : Type} (measure : β → Float) (bs : List β) (i : Nat) (b : β) : Prop where
  place : bs[i]? = some b
  least : ∀ c ∈ bs, NoWorse (measure b) (measure c)
  first : ∀ (j : Nat) (c : β), j < i → bs[j]? = some c → ¬ NoWorse (measure c) (measure b)

theorem precedes_iff {x y : Float} : precedes x y = true ↔ rank x < rank y := by
  change (!x.isNaN && (y.isNaN || decide (x < y))) = true ↔ _
  cases hx : x.isNaN with
  | true =>
    cases hy : y.isNaN with
    | true => simp [rank_nan hx, rank_nan hy]
    | false => simpa using (rank_lt_nan hy hx).le
  | false =>
    cases hy : y.isNaN with
    | true => simpa using rank_lt_nan hx hy
    | false => simpa using lt_iff hx hy

theorem noWorse_iff {x y : Float} : NoWorse x y ↔ rank x ≤ rank y := by
  unfold NoWorse
  cases hx : x.isNaN with
  | true =>
    cases hy : y.isNaN with
    | true => simp [rank_nan hx, rank_nan hy]
    | false => simpa using rank_lt_nan hy hx
  | false =>
    cases hy : y.isNaN with
    | true => simpa using (rank_lt_nan hx hy).le
    | false => simpa using le_iff hx hy

variable {β : Type} {measure : β → Float}

/-- No two places hold the first of the least. -/
theorem Least.unique {bs : List β} {i j : Nat} {b c : β} (h : Least measure bs i b)
    (h' : Least measure bs j c) : i = j ∧ b = c := by
  obtain rfl : i = j := by
    rcases Nat.lt_trichotomy i j with hlt | heq | hlt
    · exact absurd (h.least c (List.mem_of_getElem? h'.place)) (h'.first i b hlt h.place)
    · exact heq
    · exact absurd (h'.least b (List.mem_of_getElem? h.place)) (h.first j c hlt h'.place)
  exact ⟨rfl, Option.some.inj (h.place.symm.trans h'.place)⟩

/-- Where it is not among the entries in front, the first of the least is that of the others. -/
theorem Least.of_append {before bs : List β} {i : Nat} {b : β}
    (h : Least measure (before ++ bs) i b) (hi : before.length ≤ i) :
    Least measure bs (i - before.length) b := by
  have hplace := h.place
  rw [List.getElem?_append_right hi] at hplace
  refine ⟨hplace, fun c hc => h.least c (List.mem_append_right before hc), fun j c hj hc => ?_⟩
  refine h.first (before.length + j) c (by omega) ?_
  rw [List.getElem?_append_right (Nat.le_add_right _ _), Nat.add_sub_cancel_left]
  exact hc

/-- A further entry takes over where it precedes the best of those before it. -/
theorem Least.append {before : List β} {i : Nat} {a b : β} (h : Least measure before i a)
    (hp : precedes (measure b) (measure a) = true) :
    Least measure (before ++ [b]) before.length b := by
  rw [precedes_iff] at hp
  refine ⟨by simp, fun c hc => ?_, fun j c hj hc => ?_⟩
  · rw [noWorse_iff]
    rcases List.mem_append.mp hc with hm | hm
    · exact hp.le.trans (noWorse_iff.mp (h.least c hm))
    · rw [List.mem_singleton.mp hm]
  · rw [List.getElem?_append_left hj] at hc
    have hac := noWorse_iff.mp (h.least c (List.mem_of_getElem? hc))
    rw [noWorse_iff, not_le]
    exact hp.trans_le hac

theorem Least.append_worse {before : List β} {i : Nat} {a b : β} (h : Least measure before i a)
    (hp : ¬ precedes (measure b) (measure a) = true) : Least measure (before ++ [b]) i a := by
  rw [precedes_iff, not_lt] at hp
  have hi : i < before.length := (List.getElem?_eq_some_iff.mp h.place).1
  refine ⟨?_, fun c hc => ?_, fun j c hj hc => ?_⟩
  · rw [List.getElem?_append_left hi]
    exact h.place
  · rcases List.mem_append.mp hc with hm | hm
    · exact h.least c hm
    · rw [List.mem_singleton.mp hm]
      exact noWorse_iff.mpr hp
  · rw [List.getElem?_append_left (hj.trans hi)] at hc
    exact h.first j c hj hc

/-- The best of the entries seen so far goes on as the best of all. -/
theorem scan_least (bs : List β) {before : List β} {best : Nat × β}
    (h : Least measure before best.1 best.2) :
    Least measure (before ++ bs) (scan measure best before.length bs).1
      (scan measure best before.length bs).2 := by
  induction bs generalizing before best with
  | nil => simpa only [scan, List.append_nil] using h
  | cons b bs ih =>
    have hlen : before.length + 1 = (before ++ [b]).length := by simp
    rw [scan, List.append_cons, hlen]
    split
    · rename_i hp
      exact ih (h.append hp)
    · rename_i hp
      exact ih (h.append_worse hp)

/-- The choice is the first of the least, and there is one among any entries. -/
theorem selectBest_least {bs : List β} (hne : bs ≠ []) :
    ∃ i b, selectBest measure bs = .ok (i, b) ∧ Least measure bs i b := by
  cases bs with
  | nil => exact absurd rfl hne
  | cons b bs =>
    refine ⟨_, _, rfl, ?_⟩
    have hb : Least measure [b] (0, b).1 (0, b).2 := by
      refine ⟨rfl, fun c hc => ?_, fun j _ hj => absurd hj (Nat.not_lt_zero j)⟩
      rw [List.mem_singleton.mp hc, noWorse_iff]
    exact scan_least bs hb

section Numbers

variable {bs : List β} {i : Nat} {b : β} (h : Least measure bs i b)

include h

theorem Least.eq_zero (hnan : ∀ c ∈ bs, (measure c).isNaN = true) : i = 0 := by
  rcases Nat.eq_zero_or_pos i with hi | hi
  · exact hi
  · have hlt : 0 < bs.length := hi.trans (List.getElem?_eq_some_iff.mp h.place).1
    have hb : (measure b).isNaN = true := hnan b (List.mem_of_getElem? h.place)
    exact absurd (.inl hb) (h.first 0 bs[0] hi (List.getElem?_eq_getElem hlt))

theorem Least.isNaN_eq_false {c : β} (hc : c ∈ bs) (hnum : (measure c).isNaN = false) :
    (measure b).isNaN = false := by
  rcases h.least c hc with hnan | ⟨hb, -⟩
  · rw [hnum] at hnan
    cases hnan
  · exact hb

theorem Least.le {c : β} (hc : c ∈ bs) (hnum : (measure c).isNaN = false) :
    measure b ≤ measure c := by
  rcases h.least c hc with hnan | ⟨-, hle⟩
  · rw [hnum] at hnan
    cases hnan
  · exact hle

theorem Least.lt_or_nan {j : Nat} {c : β} (hj : j < i) (hc : bs[j]? = some c)
    (hb : (measure b).isNaN = false) : measure b < measure c ∨ (measure c).isNaN = true := by
  have hworse := h.first j c hj hc
  rw [noWorse_iff, not_le] at hworse
  cases hnan : (measure c).isNaN with
  | true => exact .inr rfl
  | false => exact .inl ((lt_iff hb hnan).mpr hworse)

end Numbers

/-- Only an empty list is refused. From any other list the first of the smallest norms is chosen,
whatever the norm and the key: norms that are not numbers count after all others, and where there
are no others the first entry is chosen. -/
theorem selectBest_first_minimum {γ : Type} (norm : γ → Float) (key : β → γ) (bs : List β) :
    (∀ fault, selectBest (fun b => norm (key b)) bs = .error fault ↔
      bs = [] ∧ fault = .refused .nothingToSelect) ∧
    (Fault.refused .nothingToSelect : Fault Float).kind = .value ∧
    (bs ≠ [] → ∃ i b, selectBest (fun b => norm (key b)) bs = .ok (i, b) ∧ bs[i]? = some b ∧
      ((∀ c ∈ bs, (norm (key c)).isNaN = true) → i = 0) ∧
      ((∃ c ∈ bs, (norm (key c)).isNaN = false) →
        (norm (key b)).isNaN = false ∧
        (∀ c ∈ bs, (norm (key c)).isNaN = false → norm (key b) ≤ norm (key c)) ∧
        ∀ j c, j < i → bs[j]? = some c →
          norm (key b) < norm (key c) ∨ (norm (key c)).isNaN = true)) := by
  refine ⟨fun fault => ?_, rfl, fun hne => ?_⟩
  · cases bs with
    | nil => exact ⟨fun h => ⟨rfl, (Except.error.inj h).symm⟩, fun h => h.2 ▸ rfl⟩
    | cons b bs => exact ⟨fun h => (by cases h), fun h => absurd h.1 (List.cons_ne_nil b bs)⟩
  · obtain ⟨i, b, hi, hleast⟩ : ∃ i b, selectBest (fun b => norm (key b)) bs = .ok (i, b) ∧
        Least (fun b => norm (key b)) bs i b := selectBest_least hne
    refine ⟨i, b, hi, hleast.place, hleast.eq_zero, fun ⟨c, hc, hnum⟩ => ?_⟩
    have hb := hleast.isNaN_eq_false hc hnum
    exact ⟨hb, fun c hc hnum => hleast.le hc hnum,
      fun j c hj hc => hleast.lt_or_nan hj hc hb⟩

/-- Of norms that are not a number, infinite, and twice less than zero, the third is chosen. -/
theorem selectBest_first_minimum_tie :
    ∃ i b, selectBest (fun b : Float => id (-b)) [0.0 / 0.0, -1.0 / 0.0, 1.0, 1.0] = .ok (i, b) ∧
      i = 2 ∧ -b ≤ -1.0 := by
  obtain ⟨-, -, hsome⟩ := selectBest_first_minimum id (fun b : Float => -b)
    [0.0 / 0.0, -1.0 / 0.0, 1.0, 1.0]
  obtain ⟨i, b, hi, hplace, -, hnum⟩ := hsome (List.cons_ne_nil _ _)
  obtain ⟨hb, hle, hlt⟩ := hnum ⟨1.0, by simp, by decide⟩
  have hone : -b ≤ -1.0 := hle 1.0 (by simp) (by decide)
  refine ⟨i, b, hi, ?_, hone⟩
  match i, hplace, hlt with
  | 0, hplace, _ =>
    obtain rfl := Option.some.inj hplace
    exact absurd hb (by decide)
  | 1, hplace, _ =>
    obtain rfl := Option.some.inj hplace
    exact absurd hone (by decide)
  | 2, _, _ => rfl
  | 3, hplace, hlt =>
    obtain rfl := Option.some.inj hplace
    exact absurd (hlt 2 1.0 (by omega) rfl) (by decide)
  | k + 4, hplace, _ => cases hplace

end Selection

end Rootfinder
