import Mathlib
import GradedModal.Proofs.ParallelInfer
import GradedModal.Proofs.Variables

/-!
This module says when a variable of a pattern may be called otherwise. Its name must not be that of a graded variable
from outside which a branch of the same case uses: the uses of the two are told apart by their names only.
-/

namespace GradedModal

open CheckM

namespace Relabeling

variable {n : Nat} {x y : String}

def fixed (n : Nat) (y : String) : Relabeling (fun z => Older n z ∧ z ≠ y) n 0 where
  map := id
  injective := Function.injective_id
  avoids _ _ _ := rfl
  wildcard _ _ := rfl
  apart k hk h := lt_irrefl _ (lt_of_lt_of_le (h.1 "_" k rfl) hk)

def swap (hx : Older n x) (hy : Older n y) : Relabeling (fun z => Older n z ∧ z ≠ y) n 0 where
  map := Equiv.swap x y
  injective := Equiv.injective _
  avoids := by
    intro z hz hmap
    by_cases hzx : z = x
    . rw [hzx, Equiv.swap_apply_left] at hmap
      exact (hmap.2 rfl).elim
    . exact Equiv.swap_apply_of_ne_of_ne hzx hz.2
  wildcard := by
    intro k hk
    apply Equiv.swap_apply_of_ne_of_ne
    . rintro rfl
      exact lt_irrefl _ (lt_of_lt_of_le (hx "_" k rfl) hk)
    . rintro rfl
      exact lt_irrefl _ (lt_of_lt_of_le (hy "_" k rfl) hk)
  apart := (fixed n y).apart

theorem swap_map_eq (hx : Older n x) (hy : Older n y) {z : String} (hz : z ≠ y)
    : (swap hx hy).map z = replacing x y z := by
  unfold replacing
  split
  . next hzx =>
    rw [hzx]
    exact Equiv.swap_apply_left x y
  . next hzx => exact Equiv.swap_apply_of_ne_of_ne hzx hz

end Relabeling

namespace Expr

/--
Rename the variables of a branch, in its pattern and in its body.
-/
def renameBranch (f : String → String) (branch : Pattern × Expr) : Pattern × Expr :=
  (branch.1.rename f, branch.2.rename f)

section

variable {branches : List (Pattern × Expr)}

theorem mem_freeOccurrencesAll {x : String}
    : x ∈ freeOccurrencesAll branches
        ↔
      ∃ branch ∈ branches, x ∈ branch.2.freeOccurrences ∧ x ∉ branch.1.boundVars := by
  induction branches with
  | nil => simp [freeOccurrencesAll]
  | cons branch branches ih =>
    obtain ⟨p, body⟩ := branch
    simp [freeOccurrencesAll, ih]

theorem forall_mem_namesAll {P : String → Prop}
    : (∀ x ∈ namesAll branches, P x)
        ↔
      ∀ branch ∈ branches, (∀ x ∈ branch.1.boundVars, P x) ∧ ∀ x ∈ branch.2.names, P x := by
  induction branches with
  | nil => simp [namesAll]
  | cons branch branches ih =>
    obtain ⟨p, body⟩ := branch
    simp only [namesAll, List.forall_mem_append, List.forall_mem_cons, ih]

theorem forall_mem_annotationsAll {P : Ty → Prop}
    : (∀ ty ∈ annotationsAll branches, P ty) ↔ ∀ branch ∈ branches, ∀ ty ∈ branch.2.annotations, P ty := by
  induction branches with
  | nil => simp [annotationsAll]
  | cons branch branches ih =>
    obtain ⟨p, body⟩ := branch
    simp only [annotationsAll, List.forall_mem_append, List.forall_mem_cons, ih]

end

section

variable {n : Nat} {W : Pairing} {x y : String} {before after : List (Pattern × Expr)} {p : Pattern} {body : Expr}

theorem renameBranch_replacing (hx : Older n x) (hy : Older n y) (hnamed : ∀ z ∈ body.names, Older n z ∧ z ≠ y)
    (hpattern : ∀ z ∈ p.boundVars, Older n z ∧ z ≠ y)
    : renameBranch (replacing x y) (p, body) = renameBranch (Relabeling.swap hx hy).map (p, body) := by
  unfold renameBranch
  rw [Pattern.rename_congr p fun z hz => Relabeling.swap_map_eq hx hy (hpattern z hz).2,
    rename_congr body fun z hz => Relabeling.swap_map_eq hx hy (hnamed z (mem_names_of_free body hz)).2]

theorem mem_freeOccurrences_renameBranch (hx : Older n x) (hy : Older n y) (hp : x ∈ p.boundVars)
    (hnamed : ∀ z ∈ body.names, Older n z ∧ z ≠ y) {z : String}
    : (z ∈ body.freeOccurrences ∧ z ∉ p.boundVars)
        ↔
      z ∈ (body.rename (Relabeling.swap hx hy).map).freeOccurrences ∧
        z ∉ (p.rename (Relabeling.swap hx hy).map).boundVars := by
  rw [freeOccurrences_rename (Relabeling.swap hx hy).avoids body hnamed, Pattern.boundVars_rename]
  have houtside : ∀ w ∈ body.freeOccurrences, w ∉ p.boundVars → (Relabeling.swap hx hy).map w = w := by
    intro w hw hwp
    apply Equiv.swap_apply_of_ne_of_ne
    . rintro rfl
      exact hwp hp
    . exact (hnamed w (mem_names_of_free body hw)).2
  constructor
  . rintro ⟨hz, hzp⟩
    have hfixed := houtside z hz hzp
    rw [← hfixed, List.mem_map_of_injective (Relabeling.swap hx hy).injective,
      List.mem_map_of_injective (Relabeling.swap hx hy).injective]
    exact ⟨hz, hzp⟩
  . rintro ⟨hz, hzp⟩
    obtain ⟨w, hw, rfl⟩ := List.mem_map.mp hz
    rw [List.mem_map_of_injective (Relabeling.swap hx hy).injective] at hzp
    rw [houtside w hw hzp]
    exact ⟨hw, hzp⟩

theorem branchPaired_self {info info' : CaseInfo} {branch : Pattern × Expr}
    (hnamed : ∀ z ∈ branch.2.names, Older n z ∧ z ≠ y) (hdeclared : ∀ ty ∈ branch.2.annotations, ty.Paired W ty)
    : BranchPaired (.fixed n y) (.fixed n y) W info info' branch branch where
  copy := by
    change branch = (branch.1.rename id, branch.2.rename id)
    rw [Pattern.rename_id, rename_id]
  admits := ⟨hnamed, hdeclared, fun _ _ hne => (hne rfl).elim⟩
  agree _ _ _ := rfl
  bound _ _ _ hne := (hne rfl).elim
  clear _ _ := .inl rfl

theorem branchPaired_renameBranch {info info' : CaseInfo} (hx : Older n x) (hy : Older n y) (hp : x ∈ p.boundVars)
    (hnamed : ∀ z ∈ body.names, Older n z ∧ z ≠ y) (hpattern : ∀ z ∈ p.boundVars, Older n z ∧ z ≠ y)
    (hdeclared : ∀ ty ∈ body.annotations, ty.Paired W ty) (huncontended : body.contends x = false)
    (hxbase : x ∉ info.baseline.names) (hybase : y ∉ info'.baseline.names)
    : BranchPaired (.fixed n y) (.swap hx hy) W info info' (p, body) (renameBranch (replacing x y) (p, body)) where
  copy := renameBranch_replacing hx hy hnamed hpattern
  admits := by
    refine ⟨hnamed, hdeclared, ?_⟩
    intro z hz hne
    obtain rfl : z = x := by
      by_contra hzx
      exact hne (Equiv.swap_apply_of_ne_of_ne hzx hz.2)
    exact huncontended
  agree := by
    intro z hz hzp
    apply Equiv.swap_apply_of_ne_of_ne
    . rintro rfl
      exact hzp hp
    . exact (hnamed z (mem_names_of_free body hz)).2
  bound _ _ _ hne := (hne rfl).elim
  clear := by
    intro z hz
    by_cases hzx : z = x
    . have hxy : (Relabeling.swap hx hy).map x = y := Equiv.swap_apply_left x y
      rw [hzx, hxy]
      exact .inr ⟨hxbase, hybase⟩
    . exact .inl (Equiv.swap_apply_of_ne_of_ne hzx (hpattern z hz).2)

theorem judgedAlike_renameBranch {env : Env} {c : Context} (pos : Nat) {scrutinee : Expr} (hx : Older n x)
    (hy : Older n y) (hp : x ∈ p.boundVars) (henv : env.Paired W env) (hc : c.Paired (Relabeling.fixed n y).pairing W c)
    (hnodup : c.names.Nodup) (hscrutinee : scrutinee.Admits (.fixed n y) W)
    (hnamed : ∀ branch ∈ before ++ (p, body) :: after,
      (∀ z ∈ branch.1.boundVars, Older n z ∧ z ≠ y) ∧ ∀ z ∈ branch.2.names, Older n z ∧ z ≠ y)
    (hdeclared : ∀ branch ∈ before ++ (p, body) :: after, ∀ ty ∈ branch.2.annotations, ty.Paired W ty)
    (hshared : ∀ ty g, c.lookup? x = some (.graded ty g) → x ∉ freeOccurrencesAll (before ++ (p, body) :: after))
    (hbody : body.contends x = false)
    : JudgedAlike n 0 (Relabeling.fixed n y).pairing W env env c c
        (.case pos scrutinee (before ++ (p, body) :: after))
        (.case pos scrutinee (before ++ renameBranch (replacing x y) (p, body) :: after)) := by
  have hmem : (p, body) ∈ before ++ (p, body) :: after := List.mem_append_right _ List.mem_cons_self
  obtain ⟨hpattern, hinner⟩ := hnamed _ hmem
  have hvars : ∀ z w, (Relabeling.fixed n y).pairing.rel z w →
      (z ∈ freeOccurrencesAll (before ++ (p, body) :: after) ↔
        w ∈ freeOccurrencesAll (before ++ renameBranch (replacing x y) (p, body) :: after)) := by
    rintro z _ rfl
    have hbranch := mem_freeOccurrences_renameBranch hx hy hp hinner (z := z)
    rw [renameBranch_replacing hx hy hinner hpattern]
    simp only [mem_freeOccurrencesAll, List.mem_append, List.mem_cons, or_and_right, exists_or, exists_eq_left]
    exact or_congr_right (or_congr_left hbranch)
  have hscrutinee := infer_parallel (.fixed n y) henv scrutinee hscrutinee hc hnodup fun _ _ hne => (hne rfl).elim
  rw [show scrutinee.rename (Relabeling.fixed n y).map = scrutinee from rename_id scrutinee] at hscrutinee
  apply JudgedAlike.case pos hc hnodup hscrutinee hvars
  rintro V hV info info' hinfo rfl hbase
  have hxbase : x ∉ info.baseline.names := by
    intro hx
    obtain ⟨hfree, ty, g, hlookup⟩ := hbase x hx
    exact hshared ty g hlookup hfree
  have hybase : y ∉ info'.baseline.names := by
    intro hy
    obtain ⟨z, hz, hzy⟩ := hinfo.baseline.exists_mem_names hy
    have hnamesAll := forall_mem_namesAll.mpr hnamed
    exact (hnamesAll z (mem_namesAll_of_free _ (hbase z hz).1)).2 hzy
  have hself : ∀ branches, (∀ branch ∈ branches, branch ∈ before ++ (p, body) :: after) →
      List.Forall₂ (fun branch branch' => ∃ σ, BranchPaired (.fixed n y) σ V info info' branch branch') branches
        branches := by
    intro branches hbranches
    apply List.forall₂_same.mpr
    intro branch hbranch
    have hbranch := hbranches branch hbranch
    refine ⟨.fixed n y, branchPaired_self (hnamed branch hbranch).2 ?_⟩
    exact fun ty hty => (hdeclared branch hbranch ty hty).mono hV
  apply inferBranches_parallel (.fixed n y) (henv.mono hV) hinfo hnodup
  . apply List.rel_append (hself before fun branch => List.mem_append_left _)
    refine .cons ⟨.swap hx hy, ?_⟩ (hself after fun branch hbranch => ?_)
    . exact branchPaired_renameBranch hx hy hp hinner hpattern (fun ty hty => (hdeclared _ hmem ty hty).mono hV) hbody
        hxbase hybase
    . exact List.mem_append_right _ (List.mem_cons_of_mem _ hbranch)
  . exact ⟨.none, .none⟩

end

end Expr

/--
The names that checking an expression may come across.
-/
def namesInPlay (env : Env) (s : State) (c : Context) (expected : Ty) (e : Expr) : List String :=
  env.varNames ++ s.varNames ++ c.varNames ++ expected.varNames ++ e.names ++ e.annotations.flatMap Ty.varNames

/--
A variable of a pattern can be renamed to one that the case does not mention, if no branch uses a graded variable of the
same name from outside, and no case in the body does so either. The names in play were not made up by checking, or
they were made up before.
-/
theorem pattern_variable_renamed (env : Env) (s : State) (c : Context) (polarity : Polarity) (topLevel : Bool)
    (expected : Ty) (pos : Nat) (scrutinee : Expr) (before after : List (Pattern × Expr)) (p : Pattern) (body : Expr)
    (x y : String) (hx : x ∈ p.boundVars)
    (hy : y ∉ (Expr.case pos scrutinee (before ++ (p, body) :: after)).names) (hnodup : c.names.Nodup)
    (holder : ∀ a ∈ y :: namesInPlay env s c expected (.case pos scrutinee (before ++ (p, body) :: after)),
      Older s.nextFresh a)
    (hshared : ∀ ty g, c.lookup? x = some (.graded ty g) → x ∉ Expr.freeOccurrencesAll (before ++ (p, body) :: after))
    (hbody : body.contends x = false)
    : (∃ r s', (Expr.case pos scrutinee (before ++ (p, body) :: after)).check env c polarity topLevel expected s
          = .ok r s')
        ↔
      ∃ r s', (Expr.case pos scrutinee (before ++ Expr.renameBranch (replacing x y) (p, body) :: after)).check env c
          polarity topLevel expected s
        = .ok r s' := by
  simp only [namesInPlay, List.forall_mem_cons, List.forall_mem_append, List.forall_mem_flatMap] at holder
  obtain ⟨hyolder, ⟨⟨⟨⟨henv, hs⟩, hc⟩, hexpected⟩, hnames⟩, hdeclared⟩ := holder
  have hself : ∀ {a}, Older s.nextFresh a → (Pairing.identity (Older s.nextFresh)).rel a a := fun ha => ⟨ha, rfl⟩
  have hnamed : ∀ z ∈ (Expr.case pos scrutinee (before ++ (p, body) :: after)).names, Older s.nextFresh z ∧ z ≠ y :=
    fun z hz => ⟨hnames z hz, fun hzy => hy (hzy ▸ hz)⟩
  have hdeclared : ∀ ty ∈ (Expr.case pos scrutinee (before ++ (p, body) :: after)).annotations,
      ty.Paired (.identity (Older s.nextFresh)) ty :=
    fun ty hty => Ty.paired_self fun a ha => hself (hdeclared ty hty a ha)
  obtain ⟨hscrutinee, hbranches⟩ := List.forall_mem_append.mp hnamed
  obtain ⟨hdeclared, hdeclared'⟩ := List.forall_mem_append.mp hdeclared
  have hbranches := Expr.forall_mem_namesAll.mp hbranches
  have hxolder : Older s.nextFresh x :=
    ((hbranches _ (List.mem_append_right _ List.mem_cons_self)).1 x hx).1
  have halike := Expr.judgedAlike_renameBranch pos hxolder hyolder hx
    (Env.paired_of_lookup?_eq rfl (fun _ => rfl) fun a ha => hself (henv a ha))
    (Context.paired_self (fun _ _ => rfl) fun a ha => hself (hc a ha)) hnodup
    ⟨hscrutinee, hdeclared, fun _ _ hne => (hne rfl).elim⟩ hbranches (Expr.forall_mem_annotationsAll.mp hdeclared')
    hshared hbody
  have hgoal : (Goal.check topLevel expected).Paired (.identity (Older s.nextFresh)) (.check topLevel expected) :=
    .check topLevel (Ty.paired_self fun a ha => hself (hexpected a ha))
  have hinfer := halike _ le_rfl polarity hgoal
  apply (hinfer.bind (S := fun _ _ _ => True) _).succeeds_iff (State.paired_self hs)
  intro V hV r r' _
  exact parallel_pure trivial

/-- One branch uses `x` from outside, the pattern of the other binds a variable. -/
def Expr.hiding (name : String) : Expr :=
  .case 0 (.int 0 1) [(.int 0 0, .var 0 "x"), (.var 0 name, .var 0 name)]

/-- A context in which `x` may be used twice. -/
def Context.twice : Context :=
  ⟨[("x", .graded (.const "Int") (.nat 2))]⟩

theorem pattern_variable_renamed_hiding
    : (∃ r s', (Expr.hiding "z").check ⟨.standard, []⟩ .twice .positive false (.const "Int") .start = .ok r s') ∧
      ((∃ r s', (Expr.hiding "z").check ⟨.standard, []⟩ .twice .positive false (.const "Int") .start = .ok r s')
          ↔
        ∃ r s', (Expr.hiding "y").check ⟨.standard, []⟩ .twice .positive false (.const "Int") .start = .ok r s') := by
  have hcheck : yields ((Expr.hiding "z").check ⟨.standard, []⟩ .twice .positive false (.const "Int")) .start
      (fun _ _ => true) = true := by
    cbv
  obtain ⟨r, s', h, _⟩ := exists_of_yields hcheck
  refine ⟨⟨r, s', h⟩, ?_⟩
  have hdotless : ("y" :: namesInPlay ⟨.standard, []⟩ .start .twice (.const "Int") (.hiding "z")).all isDotless
      = true := by
    decide +kernel
  exact pattern_variable_renamed ⟨.standard, []⟩ .start .twice .positive false (.const "Int") 0 (.int 0 1)
    [(.int 0 0, .var 0 "x")] [] (.var 0 "z") (.var 0 "z") "z" "y" (by decide) (by decide) (by decide)
    (fun a ha => older_of_isDotless (List.all_eq_true.mp hdotless a ha) _) (by intro ty g h; cases h) rfl

/-- The case in which the variable of the pattern is `x` as well, after it was renamed to `y`. -/
def Expr.hidingRenamed : Expr :=
  .case 0 (.int 0 1) [(.int 0 0, .var 0 "x"), renameBranch (replacing "x" "y") (.var 0 "x", .var 0 "x")]

/--
A pattern that binds `x` is refused as long as another branch uses a graded `x` from outside. It is accepted when its
variable is renamed.
-/
theorem pattern_variable_mixed_up
    : "y" ∉ (Expr.hiding "x").names ∧ "y" ∉ Context.twice.names ∧
      (¬∃ r s', (Expr.hiding "x").check ⟨.standard, []⟩ .twice .positive false (.const "Int") .start = .ok r s') ∧
      ∃ r s', Expr.hidingRenamed.check ⟨.standard, []⟩ .twice .positive false (.const "Int") .start = .ok r s' := by
  have hrefused : yields ((Expr.hiding "x").check ⟨.standard, []⟩ .twice .positive false (.const "Int")) .start
      (fun _ _ => true) = false := by
    cbv
  have haccepted : yields (Expr.hidingRenamed.check ⟨.standard, []⟩ .twice .positive false (.const "Int")) .start
      (fun _ _ => true) = true := by
    cbv
  obtain ⟨r, s', h, _⟩ := exists_of_yields haccepted
  refine ⟨by decide, by decide, ?_, r, s', h⟩
  rintro ⟨r, s', h⟩
  unfold yields at hrefused
  rw [h] at hrefused
  cases hrefused

end GradedModal
