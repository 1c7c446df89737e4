import Rootfinder.Proofs.Counts
import Rootfinder.Proofs.Interleaving
import Rootfinder.Proofs.Shortcuts

namespace Rootfinder

variable {α β κ σ : Type} {n : Nat}

/-- The log records for callers, at level info and above. -/
def Event.trail (t : List (Event α)) : List (Note α) :=
  (notes t).filter fun note => Level.info.rank ≤ note.level.rank

@[simp]
theorem Event.trail_append (s t : List (Event α)) : trail (s ++ t) = trail s ++ trail t := by
  rw [trail, notes_append, List.filter_append]
  rfl

theorem Event.Orderly.trail {t : List (Event α)} (h : Orderly t) : Event.trail t = [] := by
  rw [Event.trail, List.filter_eq_nil_iff]
  intro note hn
  rw [h.debug note hn]
  decide

theorem Act.Orderly.shows {x : Act α σ β} (hx : x.Orderly) {s : σ} :
    x.shows (fun b s' t => x.Returns s b s' ∧ Event.trail t = []) s :=
  fun _ hb => ⟨⟨hb, rfl⟩, (hx s).trail⟩

open Act

namespace AttemptRecord

def setback (total : Nat) (a : AttemptRecord α) : Note α :=
  if a.index + 1 < total then .fallingBack a.index a.solver a.code a.norm
  else .lastFailed a.index a.solver a.code a.norm

def comeback (failures : Nat) (a : AttemptRecord α) : List (Note α) :=
  if 0 < failures then [.fallbackConverged a.index a.solver failures] else []

/-- How an attempt is logged, with the failures before it. -/
def story (total failures : Nat) (a : AttemptRecord α) : List (Note α) :=
  if a.code.isSuccess then a.comeback failures else [a.setback total]

theorem shows_report (total failures : Nat) (a : AttemptRecord α) (s : σ) :
    (a.report total failures : Act α σ Unit).shows
      (fun _ s' t => s' = s ∧ Event.trail t = a.story total failures) s := by
  rw [report, story]
  split
  · rw [comeback]
    split
    · exact (shows_log _).mpr ⟨rfl, rfl⟩
    · exact (shows_pure _).mpr ⟨rfl, rfl⟩
  · rw [setback]
    split <;> exact (shows_log _).mpr ⟨rfl, rfl⟩

end AttemptRecord

structure AttemptRecord.At (names : List String) (place : Nat) (a : AttemptRecord α) : Prop where
  index : a.index = place
  name : names[place]? = some a.solver

/-- A row of attempts and how they are logged: the place where it begins and how many failed before
it, which attempt won, if one did, and what came of it. Each attempt fails but for a last one that
wins. -/
inductive Tried (names : List String) :
    Nat → Nat → Option (AttemptRecord α) → List (AttemptRecord α) → List (Note α) → Prop where
  | none {place failures : Nat} : Tried names place failures none [] []
  | failed {place failures : Nat} {a : AttemptRecord α} {winner : Option (AttemptRecord α)}
    {as : List (AttemptRecord α)} {ns : List (Note α)} (made : a.At names place)
    (failure : a.code.isSuccess = false)
    (rest : Tried names (place + 1) (failures + 1) winner as ns) :
    Tried names place failures winner (a :: as) (a.story names.length failures ++ ns)
  | won {place failures : Nat} {a : AttemptRecord α} (made : a.At names place)
    (success : a.code.isSuccess = true) :
    Tried names place failures (some a) [a] (a.story names.length failures)

namespace Tried

variable {names : List String} {place failures : Nat} {winner : Option (AttemptRecord α)}
  {as : List (AttemptRecord α)} {ns : List (Note α)}

theorem made (h : Tried names place failures winner as ns) :
    ∀ (j : Nat) a, as[j]? = some a → a.At names (place + j) := by
  induction h with
  | none => exact fun j a ha => by simp at ha
  | @failed place _ _ _ _ _ hmade _ _ ih =>
    intro j b hb
    cases j with
    | zero =>
      obtain rfl := Option.some.inj hb
      exact hmade
    | succ j =>
      rw [Nat.add_left_comm, Nat.add_comm j]
      exact ih j b hb
  | won hmade =>
    intro j b hb
    cases j with
    | zero =>
      obtain rfl := Option.some.inj hb
      exact hmade
    | succ j => simp at hb

/-- All attempts failed but the winner, and they are logged in this order. -/
theorem split (h : Tried names place failures winner as ns) :
    ∃ fs, as = fs ++ winner.toList ∧ (∀ a ∈ fs, a.code.isSuccess = false) ∧
      (∀ a ∈ winner, a.code.isSuccess = true) ∧
      ns = fs.map (AttemptRecord.setback names.length) ++
        winner.elim [] (AttemptRecord.comeback (failures + fs.length)) := by
  induction h with
  | none => exact ⟨[], rfl, nofun, nofun, rfl⟩
  | @failed _ failures a _ _ _ _ hfailure _ ih =>
    obtain ⟨fs, rfl, hfs, hwinner, rfl⟩ := ih
    refine ⟨a :: fs, rfl, List.forall_mem_cons.mpr ⟨hfailure, hfs⟩, hwinner, ?_⟩
    rw [AttemptRecord.story, if_neg (ne_true_of_eq_false hfailure), List.length_cons,
      Nat.add_right_comm failures, Nat.add_assoc]
    rfl
  | won _ hsuccess =>
    refine ⟨[], rfl, nofun, fun b hb => ?_, if_pos hsuccess⟩
    obtain rfl := Option.some.inj hb
    exact hsuccess

end Tried

/-- What a solve logs that tries candidates under their names from the place `first` on, as its
solution tells. Each failed attempt is logged in order, worded differently for the last of all
candidates; then how often the solve fell back before one succeeded, if it did; or else that all
failed, and which is handed out. Where there was none to try, a warning stands in front. -/
inductive Solution.Trail (names : List String) (first : Nat) (norm : Norm α) (sol : Solution α n) :
    List (Note α) → Prop where
  | won {failures : List (AttemptRecord α)} {i : Nat} {r : Run α n}
    (candidate : sol.candidate = some i) (original : sol.original = some r)
    (attempts : sol.attempts = failures ++ [r.record norm i])
    (made : ∀ (j : Nat) a, sol.attempts[j]? = some a → a.At names (first + j))
    (failed : ∀ a ∈ failures, a.code.isSuccess = false) (success : r.code.isSuccess = true) :
    Trail names first norm sol (failures.map (AttemptRecord.setback names.length) ++
      (r.record norm i).comeback failures.length)
  | lost {i : Nat} {r : Run α n}
    (candidate : sol.candidate = some i) (original : sol.original = some r)
    (name : names[i]? = some r.solver) (all : first + sol.attempts.length = names.length)
    (made : ∀ (j : Nat) a, sol.attempts[j]? = some a → a.At names (first + j))
    (failed : ∀ a ∈ sol.attempts, a.code.isSuccess = false) :
    Trail names first norm sol ((if names.length ≤ first then [.exhausted] else []) ++
      sol.attempts.map (AttemptRecord.setback names.length) ++
      [.allFailed names.length i r.solver (norm.of r.resid)])

namespace Tried

variable {names : List String} {first i : Nat} {norm : Norm α} {sol : Solution α n} {r : Run α n}
  {ns : List (Note α)}

theorem trail_won (h : Tried names first 0 (some (r.record norm i)) sol.attempts ns)
    (hi : sol.candidate = some i) (hr : sol.original = some r) : sol.Trail names first norm ns := by
  obtain ⟨fs, has, hfs, hsuccess, rfl⟩ := h.split
  rw [Nat.zero_add]
  exact .won hi hr has h.made hfs (hsuccess _ rfl)

theorem trail_lost (h : Tried names first 0 Option.none sol.attempts ns)
    (hi : sol.candidate = some i) (hr : sol.original = some r) (hname : names[i]? = some r.solver)
    (hall : first + sol.attempts.length = names.length) :
    sol.Trail names first norm ((if names.length ≤ first then [.exhausted] else []) ++ ns ++
      [.allFailed names.length i r.solver (norm.of r.resid)]) := by
  obtain ⟨fs, has, hfs, -, rfl⟩ := h.split
  rw [Option.toList_none, List.append_nil] at has
  subst has
  rw [Option.elim_none, List.append_nil]
  exact .lost hi hr hname hall h.made hfs

end Tried

namespace Fallback.Contest

variable {c : Contest α n κ} {records : List (AttemptRecord α)}

def Course.winner (norm : Norm α) : Course α n → Option (AttemptRecord α)
  | .won i r => some (r.record norm i)
  | .lost _ => none

def Listed (names : List String) (failures : List (Nat × Run α n)) : Prop :=
  ∀ f ∈ failures, names[f.1]? = some f.2.solver

theorem listed_nil (names : List String) : Listed names ([] : List (Nat × Run α n)) :=
  fun _ hf => absurd hf List.not_mem_nil

section Trail

variable {name : κ → String} (hc : ∀ k, (c.solve k).Orderly)
  (hname : ∀ k r, ((c.solve k).run ()).result = .ok r → r.solver = name k)

include hc hname

theorem shows_attempt (total failures index : Nat) (candidate : κ) :
    (c.attempt total failures index candidate).shows (fun r records' t =>
      r.solver = name candidate ∧ records' = records ++ [r.record c.norm index] ∧
        Event.trail t = (r.record c.norm index).story total failures) records := by
  rw [attempt, shows_bind, shows_within]
  refine (hc candidate).shows.mono fun r _ t ht => ?_
  rw [shows_bind, shows_update, shows_bind]
  refine (AttemptRecord.shows_report _ _ _ _).mono fun _ records' u hu => ?_
  rw [shows_pure]
  refine ⟨hname _ _ ht.1.1, hu.1, ?_⟩
  simp only [Event.trail_append, ht.2, hu.2, List.nil_append, List.append_nil]

/-- A course is a row of attempts from its place on. -/
theorem shows_course {names : List String} {failures : List (Nat × Run α n)}
    (hfailures : Listed names failures) {candidates : List κ} {index : Nat}
    (hnames : names.drop index = candidates.map name) :
    (c.course names.length failures candidates index).shows (fun course records' t => ∃ as,
      records' = records ++ as ∧
      Tried names index failures.length (course.winner c.norm) as (Event.trail t) ∧
      ∀ fs, course = .lost fs → Listed names fs ∧
        fs.length = failures.length + candidates.length ∧ as.length = candidates.length)
      records := by
  induction candidates generalizing failures index records with
  | nil =>
    rw [course, shows_pure]
    refine ⟨[], (List.append_nil records).symm, .none, fun fs hfs => ?_⟩
    cases hfs
    exact ⟨hfailures, rfl, rfl⟩
  | cons candidate rest ih =>
    rw [List.map_cons] at hnames
    have hrest : names.drop (index + 1) = rest.map name := by
      rw [← List.tail_drop, hnames, List.tail_cons]
    rw [course, shows_bind]
    refine (shows_attempt hc hname _ _ index candidate).mono fun r records' t h => ?_
    obtain ⟨hsolver, rfl, ht⟩ := h
    have hplace : names[index]? = some r.solver := by
      rw [← List.head?_drop, hnames, List.head?_cons, hsolver]
    have hmade : (r.record c.norm index).At names index := ⟨rfl, hplace⟩
    cases hr : r.success with
    | true =>
      rw [if_pos rfl, shows_pure, List.append_nil, ht]
      exact ⟨[r.record c.norm index], rfl, .won hmade hr, fun fs hfs => by cases hfs⟩
    | false =>
      rw [if_neg Bool.false_ne_true]
      have hmore : Listed names (failures ++ [(index, r)]) :=
        List.forall_mem_append.mpr ⟨hfailures, List.forall_mem_singleton.mpr hplace⟩
      refine (ih hmore hrest).mono fun course records'' u h => ?_
      obtain ⟨as, rfl, htried, hlost⟩ := h
      refine ⟨r.record c.norm index :: as, by simp, ?_, fun fs hfs => ?_⟩
      · rw [Event.trail_append, ht]
        rw [List.length_append, List.length_singleton] at htried
        exact .failed hmade hr htried
      · obtain ⟨hlisted, hlength, has⟩ := hlost fs hfs
        rw [List.length_append, List.length_singleton] at hlength
        rw [List.length_cons, List.length_cons]
        exact ⟨hlisted, by omega, by omega⟩

variable [Scalar α]

/-- Candidates that are tried in order leave a trail. -/
theorem shows_solveInOrder (candidates : List κ) :
    (c.solveInOrder candidates).shows
      (fun sol _ t => sol.Trail (candidates.map name) 0 c.norm (Event.trail t)) [] := by
  unfold solveInOrder
  split
  · exact shows_raise _
  · rename_i hne
    have hlength : (candidates.map name).length = candidates.length := List.length_map _
    have hnames : (candidates.map name).drop 0 = candidates.map name := List.drop_zero
    rw [shows_bind, ← hlength]
    refine (shows_course hc hname (listed_nil _) hnames).mono fun course records t h => ?_
    obtain ⟨as, hrecords, htried, hlost⟩ := h
    obtain rfl : records = as := hrecords
    cases course with
    | won i r =>
      rw [conclude, hand, shows_bind, shows_read, shows_pure, List.append_nil, List.append_nil]
      exact htried.trail_won rfl rfl
    | lost runs =>
      obtain ⟨hlisted, hruns, has⟩ := hlost runs rfl
      rw [conclude, shows_bind, shows_ofExcept]
      rintro ⟨j, i, r⟩ hselect
      rw [shows_bind, shows_log, hand, shows_bind, shows_read, shows_pure]
      have hi := hlisted _ (List.mem_of_getElem? (Selection.selectBest_getElem? hselect))
      have hall : 0 + records.length = (candidates.map name).length := by omega
      have htrail : (r.wrap c.owner (some c.problem) i records r.code).Trail
          (candidates.map name) 0 c.norm _ := htried.trail_lost rfl rfl hi hall
      have hopen : ¬ (candidates.map name).length ≤ 0 := by simpa using hne
      rw [if_neg hopen, List.nil_append] at htrail
      rw [List.length_nil, Nat.zero_add, ← hlength] at hruns
      simp only [List.nil_append, List.append_nil, Event.trail_append, hruns]
      exact htrail

end Trail

end Fallback.Contest

variable [Scalar α]

theorem Algorithm.method_name (a : Algorithm α) (o : Options α) : (a.method o n).name = a.name := by
  cases a <;> rfl

namespace Session

def name (s : Session α n) : String := s.algorithm.name

theorem snapshot_solver (s : Session α n) : s.snapshot.solver = s.name :=
  s.algorithm.method_name s.options

theorem outcome_solver {s : Session α n} {r : Run α n} (h : s.outcome = .ok r) :
    r.solver = s.name := by
  rw [outcome_snapshot h]
  exact s.driven.snapshot_solver

end Session

namespace Candidate

variable [LinearRoutines Float]

theorem name_algorithm (c : Candidate) : c.algorithm.name = c.name := by
  cases c <;> rfl

/-- A candidate that is solved at once logs nothing above debugging. -/
theorem orderly_solve (c : Candidate) (call : Call) (problem : Problem Float n) :
    (c.solve call problem).Orderly :=
  (c.works_init call problem).orderly.bind fun s => Session.orderly_solve.within s

theorem solve_solver {c : Candidate} {call : Call} {problem : Problem Float n} {r : Run Float n}
    (h : ((c.solve call problem).run ()).result = .ok r) : r.solver = c.name := by
  obtain ⟨s, hs, hr⟩ := started_of_solve h
  rw [Session.outcome_solver hr, Session.name, hs.algorithm, name_algorithm]

end Candidate

namespace Warm

/-- The names of the sessions, in their order. -/
def names (w : Warm α n) : List String := w.sessions.map Session.name

variable {w : Warm α n}

theorem names_length (w : Warm α n) : w.names.length = w.sessions.length := List.length_map _

theorem names_getElem? {i : Nat} {s : Session α n} (hs : w.sessions[i]? = some s) :
    w.names[i]? = some s.name := by
  rw [names, List.getElem?_map, hs, Option.map_some]

theorem orderly_on {x : Act α (Session α n) β} (hx : x.Orderly) (i : Nat) :
    (on i x : Act α (Warm α n) β).Orderly := by
  intro w
  cases hs : w.sessions[i]? with
  | none =>
    rw [on_none hs]
    exact Event.orderly_nil
  | some s =>
    rw [on_some hs]
    exact hx s

/-- A session that is solved is one of the same name. -/
theorem on_solve_names (i : Nat) : ((on i Session.solve).run w).state.names = w.names := by
  cases hs : w.sessions[i]? with
  | none => rw [on_none hs]
  | some s =>
    obtain ⟨hlt, rfl⟩ := List.getElem?_eq_some_iff.mp hs
    have hlt' : i < (w.sessions.map Session.name).length := by rwa [List.length_map]
    have hname : (Session.solve.run w.sessions[i]).state.name = (w.sessions.map Session.name)[i] :=
      (List.getElem_map Session.name).symm
    rw [on_some hs, names, names, List.map_set, hname, List.set_getElem_self]

theorem shows_performStep (w : Warm α n) :
    (performStep : Act α (Warm α n) _).shows (fun r w' t => w'.current = w.current ∧
      w'.names = w.names ∧ w.names[w.current]? = some r.solver ∧ Event.trail t = []) w := by
  rw [performStep, shows_bind, shows_read]
  refine (orderly_on Session.orderly_solve w.current).shows.mono fun r w' t h => ?_
  obtain ⟨⟨hr, rfl⟩, ht⟩ := h
  refine ⟨on_current _ _, on_solve_names _, ?_, ht⟩
  cases hs : w.sessions[w.current]? with
  | none =>
    rw [on_none hs] at hr
    cases hr
  | some s =>
    rw [on_some hs] at hr
    rw [names_getElem? hs, Session.outcome_solver hr]

/-- Sessions that are driven from the cursor on are a row of attempts. -/
theorem shows_drive (norm : Norm α) (left : Nat) (records : List (AttemptRecord α))
    (w : Warm α n) :
    (drive norm left records).shows (fun driven w' t => w'.names = w.names ∧
      ∃ as, driven.2 = records ++ as ∧ as.length ≤ left ∧
        Tried w.names w.current records.length
          (driven.1.map fun won => won.2.record norm won.1) as (Event.trail t) ∧
        (driven.1 = none → as.length = left)) w := by
  induction left generalizing records w with
  | zero =>
    rw [drive, shows_pure]
    exact ⟨rfl, [], (List.append_nil _).symm, Nat.le_refl 0, .none, fun _ => rfl⟩
  | succ left ih =>
    rw [drive, shows_bind, shows_read, shows_bind]
    refine (shows_performStep w).mono fun r w' t h => ?_
    obtain ⟨hcurrent, hnames, hname, ht⟩ := h
    have hmade : (r.record norm w.current).At w.names w.current := ⟨rfl, hname⟩
    rw [shows_bind, ← names_length]
    refine (AttemptRecord.shows_report _ _ _ _).mono fun _ w'' u h => ?_
    obtain ⟨rfl, hu⟩ := h
    cases hr : r.success with
    | true =>
      rw [if_pos rfl, shows_pure]
      refine ⟨hnames, [r.record norm w.current], rfl, Nat.succ_le_succ (Nat.zero_le _), ?_,
        fun hn => by cases hn⟩
      simp only [List.nil_append, List.append_nil, Event.trail_append, ht, hu]
      exact .won hmade hr
    | false =>
      rw [if_neg Bool.false_ne_true, shows_bind, shows_update]
      refine (ih _ _).mono fun driven w''' v h => ?_
      obtain ⟨hnames', as, has, hle, htried, hlost⟩ := h
      refine ⟨hnames'.trans hnames, r.record norm w.current :: as, by simp [has],
        Nat.succ_le_succ hle, ?_, fun hn => congrArg Nat.succ (hlost hn)⟩
      have hsame : ({ w'' with current := w''.current + 1 } : Warm α n).names = w.names := hnames
      rw [List.length_append, List.length_singleton, hsame] at htried
      simp only [hcurrent] at htried
      simp only [List.nil_append, Event.trail_append, ht, hu]
      exact .failed hmade hr htried

/-- What follows the warning about a cursor behind the last session. -/
theorem shows_driven (hk : w.current ≤ w.sessions.length) :
    (drive w.norm (w.sessions.length - w.current) [] >>= w.conclude).shows (fun sol _ t =>
      sol.Trail w.names w.current w.norm
        ((if w.sessions.length ≤ w.current then [.exhausted] else []) ++ Event.trail t)) w := by
  rw [shows_bind]
  refine (shows_drive _ _ _ w).mono fun driven after t h => ?_
  obtain ⟨winner, records⟩ := driven
  obtain ⟨hnames, as, hrecords, hle, htried, hlost⟩ := h
  obtain rfl : records = as := hrecords
  cases winner with
  | some won =>
    obtain ⟨i, r⟩ := won
    have hopen : ¬ w.sessions.length ≤ w.current := by
      obtain ⟨fs, has, -⟩ := htried.split
      have hlen := congrArg List.length has
      simp only [Option.map_some, Option.toList_some, List.length_append, List.length_singleton]
        at hlen
      omega
    rw [conclude, shows_bind, shows_read, shows_pure, if_neg hopen]
    simp only [List.nil_append, List.append_nil]
    exact htried.trail_won rfl rfl
  | none =>
    rw [conclude, shows_bind, shows_read, shows_bind, shows_ofExcept]
    rintro ⟨i, s⟩ hselect
    rw [shows_bind, shows_log, shows_pure]
    have hi : w.names[i]? = some s.snapshot.solver := by
      rw [← hnames, names_getElem? (Selection.selectBest_getElem? hselect), s.snapshot_solver]
    have hall : w.current + records.length = w.names.length := by
      rw [hlost rfl, names_length]
      omega
    have htrail : (s.snapshot.wrap w.owner after.problem? i records .maxIters).Trail
        w.names w.current w.norm _ := htried.trail_lost rfl rfl hi hall
    have hcount : after.sessions.length = w.names.length := by rw [← hnames, names_length]
    simp only [List.nil_append, List.append_nil, Event.trail_append, hcount, ← names_length]
    rwa [List.append_assoc] at htrail

/-- A solve of sessions leaves a trail, wherever the cursor was. -/
theorem shows_solve (hk : w.current ≤ w.sessions.length) :
    (solve : Act α (Warm α n) _).shows (fun sol _ t =>
      sol.Trail w.names w.current w.norm (Event.trail t)) w := by
  have hdriven := shows_driven hk
  rw [solve, shows_bind, shows_read]
  split
  · rename_i hend
    rw [shows_bind, shows_log]
    rw [if_pos hend] at hdriven
    exact hdriven
  · rename_i hend
    rw [if_neg hend] at hdriven
    exact hdriven

/-- The attempts of a solve are the records of what its sessions returned. -/
theorem attempts_of_solve (hne : w.sessions ≠ []) (hk : w.current ≤ w.sessions.length)
    {sol : Solution α n} (h : (solve.run w).result = .ok sol) :
    ∃ runs stop, w.Arrives runs stop ∧ stop ≤ w.sessions.length ∧
      sol.attempts = w.records runs w.norm stop := by
  obtain ⟨d, -⟩ := List.exists_mem_of_ne_nil _ hne
  cases fate d hk with
  | won i hi hlt hf ha hw =>
    obtain rfl := Except.ok.inj (h.symm.trans (returns_solve_won hi hlt ha hw hf.failed).1)
    exact ⟨_, _, ha, hlt, rfl⟩
  | lost hf =>
    have hne' : (w.advanced w.sessions.length w.sessions.length).sessions ≠ [] := by
      rw [← List.length_pos_iff, advanced_length]
      exact List.length_pos_iff.mpr hne
    obtain ⟨b, s, hb⟩ := Selection.selectBest_ok
      (fun s : Session α n => s.residualNorm (some w.norm)) hne'
    obtain rfl := Except.ok.inj
      (h.symm.trans (returns_solve_lost hk hf.arrives hf.failed hb).1)
    exact ⟨_, _, hf.arrives, Nat.le_refl _, rfl⟩
  | raised i hi hf s hs e he =>
    rw [(solve_raises hi hf hs he).1] at h
    cases h

end Warm

section Polyalgorithms

variable {call : Call} {problem : Problem Float n}

namespace Warm

variable [LinearRoutines Float]

theorem Fresh.names {owner : Solver} {cs : List Candidate} {w : Warm Float n}
    (h : Fresh call problem owner cs w) : w.names = cs.map Candidate.name := by
  have hall := h.started
  clear h
  unfold Warm.names
  generalize w.sessions = ss at hall ⊢
  induction hall with
  | nil => rfl
  | @cons c s _ _ hs _ ih =>
    have hname : s.name = c.name := by rw [Session.name, hs.algorithm, c.name_algorithm]
    rw [List.map_cons, List.map_cons, ih, hname]

theorem orderly_ofCandidates (owner : Solver) (cs : List Candidate) :
    (ofCandidates owner cs call problem).Orderly := by
  refine Orderly.bind ?_ fun ss => (works_ofExcept _).orderly
  induction cs with
  | nil => exact (works_pure _).orderly
  | cons c cs ih =>
    rw [List.mapM_cons]
    refine (c.works_init call problem).orderly.bind fun s => ih.bind fun ss => ?_
    exact (works_pure _).orderly

end Warm

namespace Polyalgorithm

variable (p : Polyalgorithm)

variable [LinearRoutines Float]

theorem shows_solveList : (p.solveList call problem).shows (fun sol _ t =>
    sol.Trail ((p.candidates problem.system.isInPlace false).map Candidate.name) 0
      call.normOrDefault (Event.trail t)) () := by
  rw [solveList, shows_within]
  exact Fallback.Contest.shows_solveInOrder (fun c => c.orderly_solve call problem)
    (fun _ _ => Candidate.solve_solver) _

theorem shows_solveWarm : (p.solveWarm call problem).shows (fun sol _ t =>
    sol.Trail ((p.candidates problem.system.isInPlace true).map Candidate.name) 0
      call.normOrDefault (Event.trail t)) () := by
  rw [solveWarm, init, shows_bind]
  refine (Warm.orderly_ofCandidates _ _).shows.mono fun w _ t h => ?_
  obtain ⟨⟨hw, -⟩, ht⟩ := h
  have hfresh := Warm.fresh_ofCandidates hw
  have hsolve := Warm.shows_solve (hfresh.current.trans_le (Nat.zero_le w.sessions.length))
  rw [hfresh.names, hfresh.current, hfresh.norm] at hsolve
  rw [shows_within]
  refine hsolve.mono fun sol _ u hu => ?_
  rwa [Event.trail_append, ht]

/-- A polyalgorithm leaves the trail of its candidates, in whatever way it tries them. -/
theorem shows_solve : (p.solve call problem).shows (fun sol _ t =>
    sol.Trail ((p.candidates problem.system.isInPlace false).map Candidate.name) 0
      call.normOrDefault (Event.trail t)) () := by
  obtain ⟨preset, configuration⟩ := p
  cases preset with
  | robust => exact shows_solveWarm _
  | fast =>
    rw [solve_fast]
    exact shows_solveList _

end Polyalgorithm

end Polyalgorithms

/-- The log trail of a fallback. What a driver logs at level info and above, in a solve that
returns, is the trail of its solution: so it is for candidates that are tried in order, for four of
them, for sessions under a cursor, whose attempts are the records of what was returned, and for
polyalgorithms, whichever of these they use. -/
theorem fallbacks_leave_a_trail [LinearRoutines Float] (owner : Solver) (problem : Problem Float n)
    (norm : Norm Float) (call : Call) :
    let c := fallback owner problem norm call
    (∀ (candidates : List Candidate) sol,
      let o := (c.solveInOrder candidates).run []
      o.result = .ok sol → c.Settles candidates sol ∧
        sol.Trail (candidates.map Candidate.name) 0 norm (Event.trail o.trace)) ∧
    (∀ (first second third fourth : Candidate) sol,
      let o := (c.solveFour first second third fourth).run []
      o.result = .ok sol → c.Settles [first, second, third, fourth] sol ∧
        sol.Trail [first.name, second.name, third.name, fourth.name] 0 norm
          (Event.trail o.trace)) ∧
    (∀ (w : Warm Float n) sol,
      let o := Warm.solve.run w
      w.sessions ≠ [] → w.current ≤ w.sessions.length → o.result = .ok sol →
        (∃ runs stop, w.Arrives runs stop ∧ stop ≤ w.sessions.length ∧
          sol.attempts = w.records runs w.norm stop) ∧
        sol.Trail w.names w.current w.norm (Event.trail o.trace)) ∧
    ∀ (p : Polyalgorithm) sol,
      let o := (p.solve call problem).run ()
      o.result = .ok sol →
        sol.Trail ((p.candidates problem.system.isInPlace false).map Candidate.name) 0
          call.normOrDefault (Event.trail o.trace) := by
  intro c
  have hlist : ∀ (candidates : List Candidate) sol,
      ((c.solveInOrder candidates).run []).result = .ok sol → c.Settles candidates sol ∧
        sol.Trail (candidates.map Candidate.name) 0 norm
          (Event.trail ((c.solveInOrder candidates).run []).trace) := fun candidates sol h =>
    ⟨Fallback.Contest.settles_iff.mpr h, Fallback.Contest.shows_solveInOrder
      (fun k => k.orderly_solve call problem) (fun _ _ => Candidate.solve_solver) candidates sol h⟩
  refine ⟨hlist, fun first second third fourth sol => ?_, fun w sol => ?_, fun p sol h => ?_⟩
  · rw [Fallback.Contest.solveFour_eq]
    exact hlist [first, second, third, fourth] sol
  · exact fun hne hk h => ⟨Warm.attempts_of_solve hne hk h, Warm.shows_solve hk sol h⟩
  · exact p.shows_solve sol h

/-- A scripted candidate that stalls in its only step. -/
def stubborn (name : String) : Candidate :=
  .replay ⟨name, some .stalled, [1.0], [0.5], 1, true⟩ Settings.initial

/-- Two scripted sessions with none left to try. -/
def spent : Warm Float 1 := { Warm.staged .failure with current := 2 }

theorem fallbacks_leave_a_trail_listed :
    (∃ sol : Solution Float 1,
      let o := ((fallback ⟨"four", "four"⟩ line .l2 .single).solveInOrder
        [stubborn "a", .newton none Settings.initial]).run []
      o.result = .ok sol ∧ sol.Trail ["a", "NewtonRaphson"] 0 .l2 (Event.trail o.trace) ∧
        (Event.trail o.trace).map Note.line =
          ["INFO Candidate 0 (a) failed with Stalled (|F|=5.00e-01), falling back",
            "INFO Candidate 1 (NewtonRaphson) converged after 1 fallback(s)"]) ∧
    (∃ sol : Solution Float 1,
      let o := ((fallback ⟨"four", "four"⟩ line .l2 .single).solveFour (stubborn "a")
        (stubborn "b") (stubborn "c") (stubborn "d")).run []
      o.result = .ok sol ∧ sol.Trail ["a", "b", "c", "d"] 0 .l2 (Event.trail o.trace) ∧
        (Event.trail o.trace).map Note.line =
          ["INFO Candidate 0 (a) failed with Stalled (|F|=5.00e-01), falling back",
            "INFO Candidate 1 (b) failed with Stalled (|F|=5.00e-01), falling back",
            "INFO Candidate 2 (c) failed with Stalled (|F|=5.00e-01), falling back",
            "INFO Last candidate 3 (d) failed with Stalled (|F|=5.00e-01)",
            "WARNING All 4 candidates failed; returning candidate 0 (a, |F|=5.00e-01)"]) ∧
    (∃ sol : Solution Float 1,
      let o := Warm.solve.run spent
      o.result = .ok sol ∧ sol.Trail spent.names 2 spent.norm (Event.trail o.trace) ∧
        (Event.trail o.trace).map Note.line =
          ["WARNING All candidates already exhausted; call reinit and reset current to solve again",
            "WARNING All 2 candidates failed; returning candidate 0 (first, |F|=1.00e+00)"]) ∧
    ∃ sol : Solution Float 1,
      let o := (Polyalgorithm.standard.solve .single line).run ()
      o.result = .ok sol ∧
        sol.Trail ((Polyalgorithm.standard.candidates false false).map Candidate.name) 0 .l2
          (Event.trail o.trace) ∧
        (Event.trail o.trace).map Note.line =
          ["INFO Candidate 0 (Klement) failed with MaxIters (|F|=2.00e+00), falling back",
            "INFO Candidate 1 (Broyden) failed with MaxIters (|F|=2.00e+00), falling back",
            "INFO Candidate 2 (NewtonRaphson) converged after 2 fallback(s)"] := by
  obtain ⟨hlist, hfour, hwarm, hpoly⟩ :=
    fallbacks_leave_a_trail ⟨"four", "four"⟩ line .l2 .single
  refine ⟨?_, ?_, ?_, ?_⟩
  · obtain ⟨sol, hsol, -⟩ := except_shown (f := Solution.success) (c := true)
      (x := (((fallback ⟨"four", "four"⟩ line .l2 .single).solveInOrder
        [stubborn "a", .newton none Settings.initial]).run []).result) (by decide +kernel)
    exact ⟨sol, hsol, (hlist _ sol hsol).2, by decide +kernel⟩
  · obtain ⟨sol, hsol, -⟩ := except_shown (f := Solution.success) (c := false)
      (x := (((fallback ⟨"four", "four"⟩ line .l2 .single).solveFour (stubborn "a")
        (stubborn "b") (stubborn "c") (stubborn "d")).run []).result) (by decide +kernel)
    exact ⟨sol, hsol, (hfour _ _ _ _ sol hsol).2, by decide +kernel⟩
  · obtain ⟨sol, hsol, -⟩ := except_shown (f := Solution.success) (c := false)
      (x := (Warm.solve.run spent).result) (by decide +kernel)
    have hne : spent.sessions ≠ [] := List.cons_ne_nil _ _
    exact ⟨sol, hsol, (hwarm spent sol hne (Nat.le_refl 2) hsol).2, by decide +kernel⟩
  · obtain ⟨sol, hsol, -⟩ := except_shown (f := Solution.success) (c := true)
      (x := ((Polyalgorithm.standard.solve .single line).run ()).result) (by decide +kernel)
    exact ⟨sol, hsol, hpoly _ sol hsol, by decide +kernel⟩

end Rootfinder
