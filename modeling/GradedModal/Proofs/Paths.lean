import GradedModal.Syntax.Expr

/-!
This module contains the paths through expressions. A path takes one branch at each case and collects the
free occurrences of variables that it meets.
-/

namespace GradedModal

/--
A free occurrence of a variable, which may be inside of a promotion.
-/
structure Occurrence where
  name : String
  boxed : Bool
  deriving DecidableEq, Repr, Inhabited

abbrev Path := List Occurrence

namespace Path

/-- The number of free occurrences of a variable. -/
def uses (p : Path) (x : String) : Nat :=
  p.countP fun o => o.name = x

/-- The number of free occurrences of a variable that are not inside of a promotion. -/
def exposed (p : Path) (x : String) : Nat :=
  p.countP fun o => o.name = x ∧ o.boxed = false

/-- Some variables are bound further out. -/
def hide (p : Path) (vars : List String) : Path :=
  p.filter fun o => !vars.contains o.name

/-- The expression is promoted further out. -/
def box (p : Path) : Path :=
  p.map fun o => { o with boxed := true }

/-- One path after the other. -/
def sequence (ps qs : List Path) : List Path :=
  ps.flatMap fun p => qs.map fun q => p ++ q

variable {p q : Path} {x : String}

@[simp]
theorem uses_nil : uses [] x = 0 :=
  rfl

@[simp]
theorem exposed_nil : exposed [] x = 0 :=
  rfl

@[simp]
theorem uses_append : uses (p ++ q) x = p.uses x + q.uses x := by
  unfold uses
  rw [List.countP_append]

@[simp]
theorem exposed_append : exposed (p ++ q) x = p.exposed x + q.exposed x := by
  unfold exposed
  rw [List.countP_append]

theorem countP_hide {f : Occurrence → Bool} (hf : ∀ o, f o = true → o.name = x) (vars : List String)
    : (p.hide vars).countP f = if x ∈ vars then 0 else p.countP f := by
  unfold hide
  rw [List.countP_filter]
  split
  . next hx =>
    rw [List.countP_eq_zero]
    intro o _ ho
    rw [Bool.and_eq_true] at ho
    have hname := hf o ho.1
    simp [hname, hx] at ho
  . next hx =>
    apply List.countP_congr
    intro o _
    constructor
    . intro ho
      rw [Bool.and_eq_true] at ho
      exact ho.1
    . intro ho
      have hname := hf o ho
      simp [ho, hname, hx]

@[simp]
theorem uses_hide (vars : List String) : (p.hide vars).uses x = if x ∈ vars then 0 else p.uses x := by
  apply countP_hide
  simp

@[simp]
theorem exposed_hide (vars : List String) : (p.hide vars).exposed x = if x ∈ vars then 0 else p.exposed x := by
  apply countP_hide
  simp only [decide_eq_true_eq]
  intro o ho
  exact ho.1

@[simp]
theorem uses_box : p.box.uses x = p.uses x := by
  unfold uses box
  rw [List.countP_map]
  rfl

@[simp]
theorem exposed_box : p.box.exposed x = 0 := by
  unfold exposed box
  rw [List.countP_map, List.countP_eq_zero]
  simp

theorem exposed_le_uses : p.exposed x ≤ p.uses x := by
  apply List.countP_mono_left
  intro o _ ho
  simp only [decide_eq_true_eq] at ho ⊢
  exact ho.1

theorem mem_sequence {ps qs : List Path} {r : Path} : r ∈ sequence ps qs ↔ ∃ p ∈ ps, ∃ q ∈ qs, r = p ++ q := by
  unfold sequence
  simp only [List.mem_flatMap, List.mem_map]
  constructor
  . rintro ⟨p, hp, q, hq, rfl⟩
    exact ⟨p, hp, q, hq, rfl⟩
  . rintro ⟨p, hp, q, hq, rfl⟩
    exact ⟨p, hp, q, hq, rfl⟩

end Path

namespace Expr

open GradedModal.Path

mutual

/--
The paths through an expression. A case without branches is left after its scrutinee.
-/
def paths : Expr → List Path
  | .int _ _ => [[]]
  | .float _ _ => [[]]
  | .var _ name => [[⟨name, false⟩]]
  | .constructor _ _ => [[]]
  | .lam _ binder _ body => body.paths.map (·.hide [binder.name])
  | .app _ f a => sequence f.paths a.paths
  | .promote _ e => e.paths.map box
  | .lift _ e => e.paths
  | .binop _ _ a b => sequence a.paths b.paths
  | .pair _ a b => sequence a.paths b.paths
  | .case _ scrutinee branches =>
    sequence scrutinee.paths (if branches.isEmpty then [[]] else branchPaths branches)
  | .letDiamond _ binder _ value rest => sequence value.paths (rest.paths.map (·.hide [binder.name]))
  | .letBox _ binder _ value rest => sequence value.paths (rest.paths.map (·.hide [binder.name]))

def branchPaths : List (Pattern × Expr) → List Path
  | [] => []
  | (pattern, body) :: branches => body.paths.map (·.hide pattern.boundVars) ++ branchPaths branches

end

theorem mem_branchPaths {branches : List (Pattern × Expr)} {r : Path}
    : r ∈ branchPaths branches ↔ ∃ b ∈ branches, ∃ p ∈ b.2.paths, r = p.hide b.1.boundVars := by
  induction branches with
  | nil => simp [branchPaths]
  | cons b branches ih =>
    obtain ⟨pattern, body⟩ := b
    unfold branchPaths
    rw [List.mem_append, ih]
    simp only [List.mem_map, List.mem_cons, exists_eq_or_imp]
    constructor
    . rintro (⟨p, hp, rfl⟩ | h)
      . exact .inl ⟨p, hp, rfl⟩
      . exact .inr h
    . rintro (⟨p, hp, rfl⟩ | h)
      . exact .inl ⟨p, hp, rfl⟩
      . exact .inr h

theorem sequence_ne_nil {ps qs : List Path} (hps : ps ≠ []) (hqs : qs ≠ []) : sequence ps qs ≠ [] := by
  obtain ⟨p, hp⟩ := List.exists_mem_of_ne_nil _ hps
  obtain ⟨q, hq⟩ := List.exists_mem_of_ne_nil _ hqs
  exact List.ne_nil_of_mem (mem_sequence.mpr ⟨p, hp, q, hq, rfl⟩)

mutual

theorem paths_ne_nil (e : Expr) : e.paths ≠ [] := by
  cases e with
  | int pos n => simp [paths]
  | float pos x => simp [paths]
  | var pos name => simp [paths]
  | constructor pos name => simp [paths]
  | lam pos b declared body =>
    have := paths_ne_nil body
    simp [paths, this]
  | promote pos e =>
    have := paths_ne_nil e
    simp [paths, this]
  | lift pos e =>
    unfold paths
    exact paths_ne_nil e
  | app pos a b | binop pos op a b | pair pos a b =>
    unfold paths
    exact sequence_ne_nil (paths_ne_nil a) (paths_ne_nil b)
  | case pos scrutinee branches =>
    unfold paths
    apply sequence_ne_nil (paths_ne_nil scrutinee)
    split
    . simp
    . next h => exact branchPaths_ne_nil branches (by simpa using h)
  | letDiamond pos b declared value rest | letBox pos b ty value rest =>
    have := paths_ne_nil rest
    unfold paths
    exact sequence_ne_nil (paths_ne_nil value) (by simp [this])

theorem branchPaths_ne_nil (branches : List (Pattern × Expr)) (h : branches ≠ []) : branchPaths branches ≠ [] := by
  cases branches with
  | nil => exact absurd rfl h
  | cons b branches =>
    obtain ⟨pattern, body⟩ := b
    have := paths_ne_nil body
    simp [branchPaths, this]

end

theorem exists_path (e : Expr) : ∃ p, p ∈ e.paths :=
  List.exists_mem_of_ne_nil _ (paths_ne_nil e)

def Meet (ps : List Path) (x : String) : Prop :=
  ∃ p ∈ ps, 0 < p.uses x

theorem meet_sequence {ps qs : List Path} {x : String} (hps : ps ≠ []) (hqs : qs ≠ [])
    : Meet (sequence ps qs) x ↔ Meet ps x ∨ Meet qs x := by
  constructor
  . rintro ⟨r, hr, huses⟩
    obtain ⟨p, hp, q, hq, rfl⟩ := mem_sequence.mp hr
    rw [uses_append] at huses
    by_cases h : 0 < p.uses x
    . exact .inl ⟨p, hp, h⟩
    . exact .inr ⟨q, hq, by omega⟩
  . rintro (⟨p, hp, huses⟩ | ⟨q, hq, huses⟩)
    . obtain ⟨q, hq⟩ := List.exists_mem_of_ne_nil _ hqs
      refine ⟨p ++ q, mem_sequence.mpr ⟨p, hp, q, hq, rfl⟩, ?_⟩
      rw [uses_append]
      omega
    . obtain ⟨p, hp⟩ := List.exists_mem_of_ne_nil _ hps
      refine ⟨p ++ q, mem_sequence.mpr ⟨p, hp, q, hq, rfl⟩, ?_⟩
      rw [uses_append]
      omega

theorem meet_map {ps : List Path} {x : String} (f : Path → Path)
    : Meet (ps.map f) x ↔ ∃ p ∈ ps, 0 < (f p).uses x := by
  constructor
  . rintro ⟨r, hr, huses⟩
    obtain ⟨p, hp, rfl⟩ := List.mem_map.mp hr
    exact ⟨p, hp, huses⟩
  . rintro ⟨p, hp, huses⟩
    exact ⟨f p, List.mem_map_of_mem hp, huses⟩

theorem meet_map_hide {ps : List Path} {x : String} (vars : List String)
    : Meet (ps.map (·.hide vars)) x ↔ Meet ps x ∧ x ∉ vars := by
  rw [meet_map]
  unfold Meet
  by_cases hx : x ∈ vars
  . simp [hx]
  . simp [hx]

theorem meet_map_box {ps : List Path} {x : String} : Meet (ps.map box) x ↔ Meet ps x := by
  rw [meet_map]
  unfold Meet
  simp

theorem meet_append {ps qs : List Path} {x : String} : Meet (ps ++ qs) x ↔ Meet ps x ∨ Meet qs x := by
  unfold Meet
  simp only [List.mem_append, or_and_right, exists_or]

mutual

theorem meet_paths_iff (e : Expr) (x : String) : Meet e.paths x ↔ x ∈ e.freeOccurrences := by
  cases e with
  | int pos n | float pos y | constructor pos name => simp [Meet, paths, freeOccurrences]
  | var pos name =>
    simp only [Meet, paths, freeOccurrences, uses, List.mem_singleton, exists_eq_left, List.countP_pos_iff,
      decide_eq_true_eq]
    exact eq_comm
  | lam pos b declared body =>
    unfold paths freeOccurrences
    rw [meet_map_hide, meet_paths_iff body x]
    simp
  | promote pos e =>
    unfold paths freeOccurrences
    rw [meet_map_box, meet_paths_iff e x]
  | lift pos e =>
    unfold paths freeOccurrences
    exact meet_paths_iff e x
  | app pos a b | binop pos op a b | pair pos a b =>
    unfold paths freeOccurrences
    rw [meet_sequence (paths_ne_nil a) (paths_ne_nil b), meet_paths_iff a x, meet_paths_iff b x, List.mem_append]
  | case pos scrutinee branches =>
    unfold paths freeOccurrences
    rw [List.mem_append, ← meet_paths_iff scrutinee x, ← meet_branchPaths_iff branches x]
    cases branches with
    | nil =>
      rw [meet_sequence (paths_ne_nil scrutinee) (by simp)]
      simp [Meet, branchPaths]
    | cons b branches =>
      rw [meet_sequence (paths_ne_nil scrutinee) (by simp [branchPaths_ne_nil])]
      rfl
  | letDiamond pos b declared value rest | letBox pos b ty value rest =>
    unfold paths freeOccurrences
    rw [meet_sequence (paths_ne_nil value) (by simp [paths_ne_nil rest]), meet_map_hide, meet_paths_iff value x,
      meet_paths_iff rest x]
    simp

theorem meet_branchPaths_iff (branches : List (Pattern × Expr)) (x : String)
    : Meet (branchPaths branches) x ↔ x ∈ freeOccurrencesAll branches := by
  cases branches with
  | nil => simp [Meet, branchPaths, freeOccurrencesAll]
  | cons b branches =>
    obtain ⟨pattern, body⟩ := b
    unfold branchPaths freeOccurrencesAll
    rw [meet_append, meet_map_hide, meet_paths_iff body x, meet_branchPaths_iff branches x]
    simp

end

theorem uses_eq_zero_of_not_mem {e : Expr} {x : String} (h : x ∉ e.freeOccurrences) {p : Path} (hp : p ∈ e.paths)
    : p.uses x = 0 := by
  rw [← meet_paths_iff] at h
  by_cases huses : 0 < p.uses x
  . exact absurd ⟨p, hp, huses⟩ h
  . omega

end Expr
end GradedModal
