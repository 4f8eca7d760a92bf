import Mathlib
import GradedModal.Proofs.KindedTypes

/-!
This module says when a comparison of types succeeds. Variables for types have a solution, and constraints have a
meaning. If types are alike under the solution, and their grades are related in this meaning, then the comparison finds
that they agree, and all constraints that it collects hold.
-/

namespace GradedModal

open CheckM

/--
What constraints mean in a state. On grades that have a kind, the order is a preorder, and equality is a congruence.
-/
structure Semantics (s : State) where
  Holds : Relation → GradeKind → Grade → Grade → Prop
  holds_resolve {relation : Relation} {k : GradeKind} {g h : Grade} :
    Holds relation (s.resolve k) g h ↔ Holds relation k g h
  refl {k : GradeKind} {g : Grade} : g.HasKind s k → Holds .eq k g g
  symm {k : GradeKind} {g h : Grade} : Holds .eq k g h → Holds .eq k h g
  trans {relation : Relation} {k : GradeKind} {g h i : Grade} : Holds relation k g h → Holds relation k h i →
    Holds relation k g i
  le_of_eq {k : GradeKind} {g h : Grade} : Holds .eq k g h → Holds .le k g h
  op_congr {o : Op} {k : GradeKind} {g g' h h' : Grade} : Holds .eq k g g' → Holds .eq k h h' →
    Holds .eq k (.op o g h) (.op o g' h')

namespace Semantics

variable {s : State} {k : GradeKind} {g h : Grade}

def Satisfies (M : Semantics s) (c : Constraint) : Prop :=
  M.Holds c.relation c.kind c.left c.right

theorem of_eq (M : Semantics s) (relation : Relation) (heq : M.Holds .eq k g h) : M.Holds relation k g h := by
  cases relation with
  | eq => exact heq
  | le => exact M.le_of_eq heq

theorem congr (M : Semantics s) {relation : Relation} {g' h' : Grade} (hg : M.Holds .eq k g' g)
    (hh : M.Holds .eq k h' h) (hholds : M.Holds relation k g h) : M.Holds relation k g' h' :=
  M.trans (M.of_eq relation hg) (M.trans hholds (M.of_eq relation (M.symm hh)))

end Semantics

theorem Grade.HasKind.unique {s : State} {g : Grade} {k l : GradeKind} (h : g.HasKind s k) (h' : g.HasKind s l)
    : k = l := by
  induction h with
  | var hx hk =>
    cases h' with
    | var hx' hk' =>
      cases hx.symm.trans hx'
      cases hk.symm.trans hk'
      rfl
  | op _ _ ih _ =>
    cases h' with
    | op hg _ => exact ih hg
  | _ =>
    cases h'
    rfl

namespace Ty

/--
How deep a type is nested. Indices are not compared part by part, so they do not count.
-/
def height : Ty → Nat
  | .arrow a b => max a.height b.height + 1
  | .app a b => max a.height b.height + 1
  | .pair a b => max a.height b.height + 1
  | .box _ ty => ty.height + 1
  | .diamond _ ty => ty.height + 1
  | _ => 1

theorem height_pos (ty : Ty) : 0 < ty.height := by
  cases ty with
  | _ => simp [height]

theorem exists_succ_of_height_le {ty : Ty} {n : Nat} (h : ty.height ≤ n) : ∃ m, n = m + 1 :=
  Nat.exists_eq_add_one.mpr (Nat.lt_of_lt_of_le ty.height_pos h)

def isVar : Ty → Bool
  | .var _ => true
  | _ => false

/--
Numbers and arithmetic, which are compared as indices.
-/
def isArithmetic : Ty → Bool
  | .index _ => true
  | .op _ _ _ => true
  | _ => false

theorem isVar_of_isArithmetic {ty : Ty} (h : ty.isArithmetic = true) : ty.isVar = false := by
  cases ty with
  | var x => cases h
  | _ => rfl

theorem isVar_of_ne {ty : Ty} (h : ∀ x, ty ≠ .var x) : ty.isVar = false := by
  cases ty with
  | var x => exact absurd rfl (h x)
  | _ => rfl

theorem eq_var_of_isVar {ty : Ty} (h : ty.isVar = true) : ∃ x, ty = .var x := by
  cases ty with
  | var x => exact ⟨x, rfl⟩
  | _ => cases h

end Ty

/--
A substitution solves variables for types that may be solved, and the solutions have their kinds.
-/
structure Substitution.Solves (env : Env) (s : State) (θ : Substitution) : Prop where
  kinds : θ.HasKinds env s
  solvable : ∀ x ty v, (x, ty) ∈ θ → s.lookup? x = some v → v.quantifier ≠ .universal ∧ v.kind.gradeKind? = none

namespace Ty

variable {env : Env} {s : State}

/--
A type stands for another one if it becomes this type when its variables are solved, up to equal indices and grades.
-/
inductive StandsFor (M : Semantics s) (θ : Substitution) : Ty → Ty → Prop where
  | var {x : String} {ty : Ty} : ty = (Ty.var x).substitute θ → StandsFor M θ (.var x) ty
  | index {ty ty' : Ty} {g h : Grade} {k : GradeKind} : ty.isArithmetic = true → ty.toGrade? = some g →
    ty'.toGrade? = some h → g.HasKind s k → h.HasKind s k → M.Holds .eq k g h → StandsFor M θ ty ty'
  | const (n : String) : StandsFor M θ (.const n) (.const n)
  | arrow {a a' b b' : Ty} : StandsFor M θ a a' → StandsFor M θ b b' → StandsFor M θ (.arrow a b) (.arrow a' b')
  | app {a a' b b' : Ty} : StandsFor M θ a a' → StandsFor M θ b b' → StandsFor M θ (.app a b) (.app a' b')
  | pair {a a' b b' : Ty} : StandsFor M θ a a' → StandsFor M θ b b' → StandsFor M θ (.pair a b) (.pair a' b')
  | box {g h : Grade} {k : GradeKind} {a a' : Ty} : g.HasKind s k → h.HasKind s k → M.Holds .eq k g h →
    StandsFor M θ a a' → StandsFor M θ (.box g a) (.box h a')
  | diamond {effects : List String} {a a' : Ty} : StandsFor M θ a a' →
    StandsFor M θ (.diamond effects a) (.diamond effects a')

/--
Types of one kind that agree if they are compared within the given depth. A variable agrees with the types that stand
for its solution.
-/
inductive Comparable (M : Semantics s) (env : Env) (θ : Substitution) : Nat → Relation → Ty → Ty → Kind → Prop where
  | varLeft {n : Nat} {relation : Relation} {x : String} {ty : Ty} {k : Kind} : (Ty.var x).HasKind env s k →
    ty.HasKind env s k → ty.StandsFor M θ ((Ty.var x).substitute θ) → ((Ty.var x).substitute θ).height ≤ n →
    Comparable M env θ n relation (.var x) ty k
  | varRight {n : Nat} {relation : Relation} {x : String} {ty : Ty} {k : Kind} : (Ty.var x).HasKind env s k →
    ty.HasKind env s k → ty.StandsFor M θ ((Ty.var x).substitute θ) → ((Ty.var x).substitute θ).height ≤ n →
    Comparable M env θ n relation ty (.var x) k
  | index {n : Nat} {relation : Relation} {left right : Ty} {g h : Grade} {k : GradeKind} : 0 < n →
    left.isArithmetic = true → right.isArithmetic = true → left.HasKind env s (.grade k) →
    right.HasKind env s (.grade k) → left.toGrade? = some g → right.toGrade? = some h → M.Holds .eq k g h →
    Comparable M env θ n relation left right (.grade k)
  | const {n : Nat} {relation : Relation} {name : String} {k : Kind} : 0 < n → (Ty.const name).HasKind env s k →
    Comparable M env θ n relation (.const name) (.const name) k
  | arrow {n : Nat} {relation : Relation} {a a' b b' : Ty} : Comparable M env θ n .le a' a .type →
    Comparable M env θ n relation b b' .type → Comparable M env θ (n + 1) relation (.arrow a b) (.arrow a' b') .type
  | app {n : Nat} {relation : Relation} {a a' b b' : Ty} {input output : Kind} :
    Comparable M env θ n relation a a' (.arrow input output) → Comparable M env θ n relation b b' input →
    Comparable M env θ (n + 1) relation (.app a b) (.app a' b') output
  | pair {n : Nat} {relation : Relation} {a a' b b' : Ty} : Comparable M env θ n relation a a' .type →
    Comparable M env θ n relation b b' .type → Comparable M env θ (n + 1) relation (.pair a b) (.pair a' b') .type
  | box {n : Nat} {relation : Relation} {g h : Grade} {k : GradeKind} {a a' : Ty} : g.HasKind s k → h.HasKind s k →
    M.Holds relation k g h → Comparable M env θ n .eq a a' .type →
    Comparable M env θ (n + 1) relation (.box g a) (.box h a') .type
  | diamond {n : Nat} {relation : Relation} {effects effects' : List String} {a a' : Ty} :
    effects.isPrefixOf effects' = true → Comparable M env θ n relation a a' .type →
    Comparable M env θ (n + 1) relation (.diamond effects a) (.diamond effects' a') .type

end Ty

/--
Each binding replaces a variable by a type of its kind that stands for its solution, and solutions are not too deep.
-/
structure Substitution.Sound {s : State} (M : Semantics s) (env : Env) (τ θ : Substitution) (n : Nat) : Prop where
  kinds : τ.HasKinds env s
  standsFor : ∀ x ty, (x, ty) ∈ τ → ty.StandsFor M θ ((Ty.var x).substitute θ)
  height_le : ∀ x ty, (x, ty) ∈ τ → ((Ty.var x).substitute θ).height ≤ n

section

variable {env : Env} {s : State} {M : Semantics s} {θ τ : Substitution} {n : Nat}

theorem Ty.HasKind.eq_grade {ty : Ty} {k : Kind} (h : ty.HasKind env s k) (hty : ty.isArithmetic = true)
    : ∃ l, k = .grade l := by
  cases h with
  | index n | op ha hb => exact ⟨_, rfl⟩
  | _ => cases hty

theorem Ty.HasKind.lookup?_of_grade {x : String} {k : GradeKind} (h : (Ty.var x).HasKind env s (.grade k))
    : ∃ v l, s.lookup? x = some v ∧ v.kind = .grade l ∧ k = s.resolve l := by
  generalize hkind : Kind.grade k = kind at h
  cases h with
  | @var _ v hx =>
    cases hv : v.kind with
    | grade l =>
      rw [hv] at hkind
      exact ⟨v, l, hx, hv, Kind.grade.inj hkind⟩
    | _ =>
      rw [hv] at hkind
      cases hkind

namespace Substitution

theorem Solves.substitute_var (hθ : θ.Solves env s) {x : String} {v : TypeVar} (hx : s.lookup? x = some v)
    (hv : v.quantifier = .universal ∨ v.kind.gradeKind? ≠ none) : (Ty.var x).substitute θ = .var x := by
  unfold Ty.substitute
  cases hlookup : θ.lookup x with
  | none => rfl
  | some ty =>
    obtain ⟨hquantifier, hkind⟩ := hθ.solvable x ty v (mem_of_lookup hlookup) hx
    exact absurd hv (by simp [hquantifier, hkind])

-- Variables for grades stand for themselves.
theorem Solves.substitute_gradeVar (hθ : θ.Solves env s) {x : String} {k : GradeKind}
    (hx : (Ty.var x).HasKind env s (.grade k)) : (Ty.var x).substitute θ = .var x := by
  obtain ⟨v, l, hv, hkind, _⟩ := hx.lookup?_of_grade
  refine hθ.substitute_var hv (.inr ?_)
  rw [hkind]
  simp [Kind.gradeKind?]

theorem Sound.nil : Sound M env [] θ n where
  kinds := .nil
  standsFor _ _ h := absurd h List.not_mem_nil
  height_le _ _ h := absurd h List.not_mem_nil

theorem Sound.mono {m : Nat} (h : τ.Sound M env θ m) (hmn : m ≤ n) : τ.Sound M env θ n :=
  ⟨h.kinds, h.standsFor, fun x ty hmem => (h.height_le x ty hmem).trans hmn⟩

theorem Sound.append {τ' : Substitution} (hτ : τ.Sound M env θ n) (hτ' : τ'.Sound M env θ n)
    : (τ ++ τ').Sound M env θ n where
  kinds := hτ.kinds.append hτ'.kinds
  standsFor x ty h := (List.mem_append.mp h).elim (hτ.standsFor x ty) (hτ'.standsFor x ty)
  height_le x ty h := (List.mem_append.mp h).elim (hτ.height_le x ty) (hτ'.height_le x ty)

theorem Sound.of_subset {τ' : Substitution} (hτ : τ.Sound M env θ n) (h : τ' ⊆ τ) : τ'.Sound M env θ n where
  kinds x ty hmem := hτ.kinds x ty (h hmem)
  standsFor x ty hmem := hτ.standsFor x ty (h hmem)
  height_le x ty hmem := hτ.height_le x ty (h hmem)

theorem Sound.toGrade? (hτ : τ.Sound M env θ n) (hθ : θ.Solves env s) {x : String} {ty : Ty} {k : GradeKind}
    (hmem : (x, ty) ∈ τ) (hx : (Grade.var x).HasKind s k)
    : ∃ g, ty.toGrade? = some g ∧ g.HasKind s k ∧ M.Holds .eq k g (.var x) := by
  obtain ⟨v, hv, hty⟩ := hτ.kinds x ty hmem
  have hstands := hτ.standsFor x ty hmem
  cases hx with
  | @var _ v' k' hv' hk' =>
    cases hv.symm.trans hv'
    have hvar : (Ty.var x).HasKind env s (s.resolveKind v.kind) := .var hv
    rw [hk'] at hty hvar
    rw [hθ.substitute_gradeVar hvar] at hstands
    cases hstands with
    | var heq =>
      rw [hθ.substitute_gradeVar hty] at heq
      cases heq
      exact ⟨_, rfl, .var hv hk', M.refl (.var hv hk')⟩
    | index _ hg hh hgkind hhkind hholds =>
      cases hh
      rw [hhkind.unique (.var hv hk')] at hgkind hholds
      exact ⟨_, hg, hgkind, hholds⟩

end Substitution

theorem Grade.HasKind.holds_substitute {g : Grade} {k : GradeKind} (hg : g.HasKind s k) (hτ : τ.Sound M env θ n)
    (hθ : θ.Solves env s) : (g.substitute τ).HasKind s k ∧ M.Holds .eq k (g.substitute τ) g := by
  induction hg with
  | @var x v k hx hk =>
    have hvar : (Grade.var x).HasKind s (s.resolve k) := .var hx hk
    unfold Grade.substitute
    cases hlookup : τ.lookup x with
    | none => exact ⟨hvar, M.refl hvar⟩
    | some ty =>
      obtain ⟨g, hg, hkind, hholds⟩ := hτ.toGrade? hθ (Substitution.mem_of_lookup hlookup) hvar
      rw [Option.bind_some, hg]
      exact ⟨hkind, hholds⟩
  | op _ _ ihg ihh => exact ⟨.op ihg.1 ihh.1, M.op_congr ihg.2 ihh.2⟩
  | nat m => exact ⟨.nat m, M.refl (.nat m)⟩
  | float x => exact ⟨.float x, M.refl (.float x)⟩
  | level l => exact ⟨.level l, M.refl (.level l)⟩
  | zero k => exact ⟨.zero k, M.refl (.zero k)⟩
  | one k => exact ⟨.one k, M.refl (.one k)⟩

namespace Ty

variable {ty ty' : Ty}

theorem toGrade?_substitute {g : Grade} {k : GradeKind} (hty : ty.toGrade? = some g) (hg : g.HasKind s k)
    (hτ : τ.Sound M env θ n) (hθ : θ.Solves env s) : (ty.substitute τ).toGrade? = some (g.substitute τ) := by
  replace hty := readsAs_of_toGrade? hty
  refine (hty.substitute ?_).toGrade?
  intro x hx image hlookup
  rw [hty.occurrences_eq] at hx
  obtain ⟨g, himage, _, _⟩ := hτ.toGrade? hθ (Substitution.mem_of_lookup hlookup) (hg.of_mem_occurrences hx)
  exact ⟨g, readsAs_of_toGrade? himage⟩

theorem isArithmetic_substitute (h : ty.isArithmetic = true) (τ : Substitution)
    : (ty.substitute τ).isArithmetic = true := by
  cases ty with
  | index | op => rfl
  | _ => cases h

theorem StandsFor.eq_substitute {x : String} (h : (Ty.var x).StandsFor M θ ty) : ty = (Ty.var x).substitute θ := by
  cases h with
  | var heq => exact heq
  | index harith => cases harith

theorem StandsFor.substitute (h : ty.StandsFor M θ ty') (hτ : τ.Sound M env θ n) (hθ : θ.Solves env s)
    : (ty.substitute τ).StandsFor M θ ty' := by
  induction h with
  | @var x ty heq =>
    unfold Ty.substitute
    cases hlookup : τ.lookup x with
    | none => exact .var heq
    | some ty =>
      rw [heq]
      exact hτ.standsFor x ty (Substitution.mem_of_lookup hlookup)
  | index harith hg hh hgkind hhkind hholds =>
    obtain ⟨hgkind', hholds'⟩ := hgkind.holds_substitute hτ hθ
    exact .index (isArithmetic_substitute harith τ) (toGrade?_substitute hg hgkind hτ hθ) hh hgkind' hhkind
      (M.trans hholds' hholds)
  | const n => exact .const n
  | arrow _ _ iha ihb => exact .arrow iha ihb
  | app _ _ iha ihb => exact .app iha ihb
  | pair _ _ iha ihb => exact .pair iha ihb
  | box hg hh hholds _ ih =>
    obtain ⟨hg', hholds'⟩ := hg.holds_substitute hτ hθ
    exact .box hg' hh (M.trans hholds' hholds) ih
  | diamond _ ih => exact .diamond ih

-- Types of functions on types have their kinds from their heads.
theorem StandsFor.kind_eq {k l : Kind} (h : ty.StandsFor M θ ty') (hs : s.IsAcyclic) (hθ : θ.Solves env s)
    (hty : ty.HasKind env s k) (hty' : ty'.HasKind env s l) (hk : k.gradeKind? = none) : k = l := by
  induction h generalizing k l with
  | var heq =>
    subst heq
    exact (hty.solve hs hθ.kinds).unique hty'
  | index harith _ _ _ _ _ =>
    obtain ⟨l, rfl⟩ := hty.eq_grade harith
    cases hk
  | const n => exact hty.unique hty'
  | app _ _ iha _ =>
    cases hty with
    | app ha hb =>
      cases hty' with
      | app ha' hb' => exact (Kind.arrow.inj (iha ha ha' rfl)).2
  | _ =>
    cases hty
    cases hty'
    rfl

theorem StandsFor.comparable_var {x : String} {origin : Ty} {k : Kind} (h : ty.StandsFor M θ origin)
    (heq : origin = (Ty.var x).substitute θ) (hty : ty.HasKind env s k) (hx : (Ty.var x).HasKind env s k)
    (hn : origin.height ≤ n) (relation : Relation)
    : Comparable M env θ n relation ty (.var x) k ∧ Comparable M env θ n relation (.var x) ty k := by
  subst heq
  exact ⟨.varRight hx hty h hn, .varLeft hx hty h hn⟩

theorem StandsFor.comparable {left right origin : Ty} {k l : Kind} (h : left.StandsFor M θ origin)
    (h' : right.StandsFor M θ origin) (hs : s.IsAcyclic) (hθ : θ.Solves env s) (hleft : left.HasKind env s k)
    (hright : right.HasKind env s k) (horigin : origin.HasKind env s l) (hn : origin.height ≤ n) (relation : Relation)
    : Comparable M env θ n relation left right k ∧ Comparable M env θ n relation right left k := by
  induction h generalizing right k l n relation with
  | var heq => exact (h'.comparable_var heq hright hleft hn relation).symm
  | @index left origin g h l harith hg hh hgkind hhkind hholds =>
    cases h' with
    | var heq => exact (index harith hg hh hgkind hhkind hholds).comparable_var heq hleft hright hn relation
    | @index _ _ g' h' l' harith' hg' hh' hgkind' hhkind' hholds' =>
      obtain ⟨m, rfl⟩ := hleft.eq_grade harith
      cases hh.symm.trans hh'
      cases hhkind.unique hhkind'
      cases hgkind.unique (hleft.toGrade? hg)
      have hpos := Nat.lt_of_lt_of_le origin.height_pos hn
      have hequal := M.trans hholds (M.symm hholds')
      exact ⟨.index hpos harith harith' hleft hright hg hg' hequal,
        .index hpos harith' harith hright hleft hg' hg (M.symm hequal)⟩
    | _ => cases hh
  | const m =>
    cases h' with
    | var heq => exact (const m).comparable_var heq hleft hright hn relation
    | index _ _ hh => cases hh
    | const => exact ⟨.const hn hleft, .const hn hleft⟩
  | arrow ha hb iha ihb =>
    cases h' with
    | var heq => exact (arrow ha hb).comparable_var heq hleft hright hn relation
    | index _ _ hh => cases hh
    | arrow ha' hb' =>
      obtain ⟨n, rfl⟩ := exists_succ_of_height_le hn
      obtain ⟨hna, hnb⟩ := Nat.max_le.mp (Nat.le_of_succ_le_succ hn)
      cases hleft with
      | arrow hleft hleft' =>
        cases hright with
        | arrow hright hright' =>
          cases horigin with
          | arrow horigin horigin' =>
            obtain ⟨hargs, hargs'⟩ := iha ha' hleft hright horigin hna .le
            obtain ⟨hresults, hresults'⟩ := ihb hb' hleft' hright' horigin' hnb relation
            exact ⟨.arrow hargs' hresults, .arrow hargs hresults'⟩
  | app ha hb iha ihb =>
    cases h' with
    | var heq => exact (app ha hb).comparable_var heq hleft hright hn relation
    | index _ _ hh => cases hh
    | app ha' hb' =>
      obtain ⟨n, rfl⟩ := exists_succ_of_height_le hn
      obtain ⟨hna, hnb⟩ := Nat.max_le.mp (Nat.le_of_succ_le_succ hn)
      cases hleft with
      | app hleft hleft' =>
        cases hright with
        | app hright hright' =>
          cases horigin with
          | app horigin horigin' =>
            cases ha.kind_eq hs hθ hleft horigin rfl
            cases ha'.kind_eq hs hθ hright horigin rfl
            obtain ⟨hheads, hheads'⟩ := iha ha' hleft hright horigin hna relation
            obtain ⟨hargs, hargs'⟩ := ihb hb' hleft' hright' horigin' hnb relation
            exact ⟨.app hheads hargs, .app hheads' hargs'⟩
  | pair ha hb iha ihb =>
    cases h' with
    | var heq => exact (pair ha hb).comparable_var heq hleft hright hn relation
    | index _ _ hh => cases hh
    | pair ha' hb' =>
      obtain ⟨n, rfl⟩ := exists_succ_of_height_le hn
      obtain ⟨hna, hnb⟩ := Nat.max_le.mp (Nat.le_of_succ_le_succ hn)
      cases hleft with
      | pair hleft hleft' =>
        cases hright with
        | pair hright hright' =>
          cases horigin with
          | pair horigin horigin' =>
            obtain ⟨hfirst, hfirst'⟩ := iha ha' hleft hright horigin hna relation
            obtain ⟨hsecond, hsecond'⟩ := ihb hb' hleft' hright' horigin' hnb relation
            exact ⟨.pair hfirst hsecond, .pair hfirst' hsecond'⟩
  | box hg hh hholds ha ih =>
    cases h' with
    | var heq => exact (box hg hh hholds ha).comparable_var heq hleft hright hn relation
    | index _ _ hh => cases hh
    | box hg' hh' hholds' ha' =>
      obtain ⟨n, rfl⟩ := exists_succ_of_height_le hn
      cases hleft with
      | box _ hleft =>
        cases hright with
        | box _ hright =>
          cases horigin with
          | box _ horigin =>
            cases hh.unique hh'
            have hequal := M.trans hholds (M.symm hholds')
            obtain ⟨hcontent, hcontent'⟩ := ih ha' hleft hright horigin (Nat.le_of_succ_le_succ hn) .eq
            exact ⟨.box hg hg' (M.of_eq relation hequal) hcontent,
              .box hg' hg (M.of_eq relation (M.symm hequal)) hcontent'⟩
  | diamond ha ih =>
    cases h' with
    | var heq => exact (diamond ha).comparable_var heq hleft hright hn relation
    | index _ _ hh => cases hh
    | diamond ha' =>
      obtain ⟨n, rfl⟩ := exists_succ_of_height_le hn
      cases hleft with
      | diamond hleft =>
        cases hright with
        | diamond hright =>
          cases horigin with
          | diamond horigin =>
            obtain ⟨hcontent, hcontent'⟩ := ih ha' hleft hright horigin (Nat.le_of_succ_le_succ hn) relation
            exact ⟨.diamond (by simp) hcontent, .diamond (by simp) hcontent'⟩

theorem Comparable.pos {relation : Relation} {left right : Ty} {k : Kind}
    (h : Comparable M env θ n relation left right k) : 0 < n := by
  cases h with
  | varLeft _ _ _ hn | varRight _ _ _ hn => exact Nat.lt_of_lt_of_le (height_pos _) hn
  | index hn | const hn => exact hn
  | _ => exact Nat.succ_pos _

theorem Comparable.substitute {m : Nat} {relation : Relation} {left right : Ty} {k : Kind}
    (h : Comparable M env θ n relation left right k) (hs : s.IsAcyclic) (hθ : θ.Solves env s)
    (hτ : τ.Sound M env θ m) : Comparable M env θ n relation (left.substitute τ) (right.substitute τ) k := by
  induction h with
  | @varLeft n relation x ty k hx hty hstands hn =>
    have hvar := (StandsFor.var (M := M) (x := x) rfl).substitute hτ hθ
    exact (hvar.comparable (hstands.substitute hτ hθ) hs hθ (hx.solve hs hτ.kinds) (hty.solve hs hτ.kinds)
      (hx.solve hs hθ.kinds) hn relation).1
  | @varRight n relation x ty k hx hty hstands hn =>
    have hvar := (StandsFor.var (M := M) (x := x) rfl).substitute hτ hθ
    exact (hvar.comparable (hstands.substitute hτ hθ) hs hθ (hx.solve hs hτ.kinds) (hty.solve hs hτ.kinds)
      (hx.solve hs hθ.kinds) hn relation).2
  | index hn harith harith' hleft hright hg hh hholds =>
    have hgkind := hleft.toGrade? hg
    have hhkind := hright.toGrade? hh
    have hequal := M.congr (hgkind.holds_substitute hτ hθ).2 (hhkind.holds_substitute hτ hθ).2 hholds
    exact .index hn (isArithmetic_substitute harith τ) (isArithmetic_substitute harith' τ) (hleft.solve hs hτ.kinds)
      (hright.solve hs hτ.kinds) (toGrade?_substitute hg hgkind hτ hθ) (toGrade?_substitute hh hhkind hτ hθ) hequal
  | const hn hname => exact .const hn hname
  | arrow _ _ iha ihb => exact .arrow iha ihb
  | app _ _ iha ihb => exact .app iha ihb
  | pair _ _ iha ihb => exact .pair iha ihb
  | box hg hh hholds _ ih =>
    obtain ⟨hg', hequal⟩ := hg.holds_substitute hτ hθ
    obtain ⟨hh', hequal'⟩ := hh.holds_substitute hτ hθ
    exact .box hg' hh' (M.congr hequal hequal' hholds) ih
  | diamond heffects _ ih => exact .diamond heffects ih

end Ty

end

namespace State

structure SameScope (s t : State) : Prop where
  typeVars : t.typeVars = s.typeVars
  kinds : t.kinds = s.kinds

theorem SameScope.keeps {s t : State} (h : s.SameScope t) : s.Keeps t where
  lookup? x v hx := by
    unfold State.lookup?
    rw [h.typeVars]
    exact hx
  kinds k l hkl := by
    rw [resolve_congr h.kinds, resolve_congr h.kinds, hkl]

theorem SameScope.symm {s t : State} (h : s.SameScope t) : t.SameScope s :=
  ⟨h.typeVars.symm, h.kinds.symm⟩

end State

namespace CheckM

variable {α β : Type} {s : State} {M : Semantics s}

/--
A computation succeeds wherever nothing more is known about variables and kinds. It learns nothing about them, and all
constraints that it collects hold.
-/
def Passes (M : Semantics s) (x : CheckM α) (P : α → Prop) : Prop :=
  ∀ t, s.SameScope t →
    ∃ a t', x t = .ok a t' ∧ s.SameScope t' ∧ t.Extends t' ∧ State.AllDemands M.Satisfies t t' ∧ P a

theorem passes_of_ok {x : CheckM α} {P : α → Prop} (h : ∀ t, s.SameScope t → ∃ a, x t = .ok a t ∧ P a)
    : Passes M x P := by
  intro t ht
  obtain ⟨a, ha, hP⟩ := h t ht
  refine ⟨a, t, ha, ht, State.extends_of_eq rfl rfl, ?_, hP⟩
  simp [State.AllDemands, State.demands, State.added, Predicate.demandsAll]

theorem passes_pure {P : α → Prop} {a : α} (h : P a) : Passes M (pure a) P :=
  passes_of_ok fun _ _ => ⟨a, rfl, h⟩

theorem passes_bind {P : α → Prop} {Q : β → Prop} {x : CheckM α} {f : α → CheckM β} (hx : Passes M x P)
    (hf : ∀ a, P a → Passes M (f a) Q) : Passes M (x >>= f) Q := by
  intro t ht
  obtain ⟨a, t₁, ha, ht₁, hextends₁, hdemands₁, hP⟩ := hx t ht
  obtain ⟨b, t₂, hb, ht₂, hextends₂, hdemands₂, hQ⟩ := hf a hP t₁ ht₁
  refine ⟨b, t₂, (bind_of_ok ha).trans hb, ht₂, hextends₁.trans hextends₂, ?_, hQ⟩
  unfold State.AllDemands
  rw [hextends₁.demands_append hextends₂, List.forall_mem_append]
  exact ⟨hdemands₁, hdemands₂⟩

theorem passes_constrain {c : Constraint} (h : M.Satisfies c) : Passes M (constrain c) fun _ => True := by
  intro t ht
  refine ⟨(), t.add (.atom c), rfl, ⟨?_, ?_⟩, State.extends_add _ _, ?_, trivial⟩
  . rw [State.add_typeVars, ht.typeVars]
  . rw [State.add_kinds, ht.kinds]
  . unfold State.AllDemands
    rw [State.demands_constrain (rfl : constrain c t = .ok () _), List.forall_mem_singleton]
    exact h

theorem passes_typeVar {pos : Nat} {x : String} {v : TypeVar} (hx : s.lookup? x = some v)
    : Passes M (typeVar pos x) (· = v) :=
  passes_of_ok fun _ ht => ⟨v, typeVar_of_lookup? (ht.keeps.lookup? x v hx), rfl⟩

theorem passes_discard {x : CheckM α} {P : α → Prop} (hx : Passes M x P) : Passes M (discard x) fun _ => True := by
  intro t ht
  obtain ⟨a, t', ha, ht', hextends, hdemands, _⟩ := hx t ht
  exact ⟨(), t', discard_of_ok ha, ht', hextends, hdemands, trivial⟩

end CheckM

section

variable {env : Env} {s : State} {M : Semantics s} {θ τ : Substitution} {n pos : Nat}

theorem Grade.HasKind.passes_inferKind {g : Grade} {k : GradeKind} (h : g.HasKind s k) (hs : s.IsAcyclic)
    : Passes M (g.inferKind pos) (· = k) := by
  refine passes_of_ok fun t ht => ⟨k, ?_, rfl⟩
  have hg := h.keeps hs ht.keeps
  rw [State.resolve_congr ht.kinds, h.resolve_eq hs] at hg
  exact hg.inferKind (hs.congr ht.kinds) pos

theorem GradeKind.passes_unify {k l : GradeKind} (h : s.resolve k = s.resolve l)
    : Passes M (GradeKind.unify pos k l) (· = s.resolve k) := by
  refine passes_of_ok fun t ht => ⟨s.resolve k, ?_, rfl⟩
  rw [← State.resolve_congr ht.kinds]
  exact GradeKind.unify_of_resolve_eq (by rw [State.resolve_congr ht.kinds, State.resolve_congr ht.kinds, h])

theorem Ty.HasKind.passes_inferKind {ty : Ty} {k : Kind} (h : ty.HasKind env s k) (hs : s.IsAcyclic)
    : Passes M (ty.inferKind env pos) (s.resolveKind · = k) := by
  refine passes_of_ok fun t ht => ?_
  obtain ⟨kind, hkind, heq⟩ := (h.keeps hs ht.keeps).inferKind (hs.congr ht.kinds) pos
  refine ⟨kind, hkind, ?_⟩
  rw [ht.symm.keeps.kinds.resolveKind heq, h.resolveKind_eq hs]

theorem Kind.passes_unify {k l : Kind} (h : s.resolveKind k = s.resolveKind l)
    : Passes M (Kind.unify pos k l) fun _ => True := by
  refine passes_of_ok fun t ht => ?_
  obtain ⟨kind, hkind⟩ := Kind.unify_of_resolveKind_eq (ht.keeps.kinds.resolveKind h)
  exact ⟨kind, hkind, trivial⟩

theorem Substitution.Sound.singleton {x : String} {ty : Ty} {k : Kind} (hx : (Ty.var x).HasKind env s k)
    (hty : ty.HasKind env s k) (hstands : ty.StandsFor M θ ((Ty.var x).substitute θ))
    (hn : ((Ty.var x).substitute θ).height ≤ n) : Sound M env [(x, ty)] θ n := by
  cases hx with
  | var hx =>
    refine ⟨.singleton hx hty, ?_, ?_⟩
    . intro y ty' hmem
      cases List.mem_singleton.mp hmem
      exact hstands
    . intro y ty' hmem
      cases List.mem_singleton.mp hmem
      exact hn

namespace Unify

/--
A comparison finds that the types agree, and what it learns is a part of the solution.
-/
def Agrees {s : State} (M : Semantics s) (env : Env) (θ : Substitution) (n : Nat) (u : Unified) : Prop :=
  u.agree = true ∧ u.subst.Sound M env θ n

theorem passes_vars {x y : String} {k : Kind} (hθ : θ.Solves env s) (hxy : x ≠ y)
    (hx : (Ty.var x).HasKind env s k) (hy : (Ty.var y).HasKind env s k)
    (heq : (Ty.var x).substitute θ = (Ty.var y).substitute θ) (hn : ((Ty.var x).substitute θ).height ≤ n)
    : Passes M (vars pos x y) (Agrees M env θ n) := by
  have hsolved : Agrees M env θ n ⟨true, .var x, [(x, .var y)]⟩ := ⟨rfl, .singleton hx hy (.var heq) hn⟩
  have hsolved' : Agrees M env θ n ⟨true, .var x, [(y, .var x)]⟩ := ⟨rfl, .singleton hy hx (.var heq.symm) (heq ▸ hn)⟩
  cases hx with
  | @var _ v hv =>
    generalize hk : s.resolveKind v.kind = k at hy
    cases hy with
    | @var _ w hw =>
      -- Variables that cannot be solved are solved by themselves, and so are equal only if they are the same.
      have hfixed : (v.quantifier = .universal ∨ v.kind.gradeKind? ≠ none) →
          ¬(w.quantifier = .universal ∨ w.kind.gradeKind? ≠ none) := by
        intro hfixed hfixed'
        rw [hθ.substitute_var hv hfixed, hθ.substitute_var hw hfixed'] at heq
        exact hxy (Ty.var.inj heq)
      unfold vars
      refine passes_bind (passes_typeVar hv) ?_
      rintro _ rfl
      refine passes_bind (passes_typeVar hw) ?_
      rintro _ rfl
      rw [if_neg fun h => hfixed (.inl h.1) (.inl h.2)]
      dsimp only
      split
      . next hkind hkind' =>
        exact absurd (.inr (by simp [hkind', Kind.gradeKind?])) (hfixed (.inr (by simp [hkind, Kind.gradeKind?])))
      . refine passes_bind (passes_discard (Kind.passes_unify hk)) fun _ _ => passes_pure ?_
        split
        . exact hsolved
        . exact hsolved'

theorem passes_var {x : String} {ty left : Ty} {k : Kind} (hs : s.IsAcyclic) (hθ : θ.Solves env s)
    (hvar : ty.isVar = false) (hx : (Ty.var x).HasKind env s k) (hty : ty.HasKind env s k)
    (hstands : ty.StandsFor M θ ((Ty.var x).substitute θ)) (hn : ((Ty.var x).substitute θ).height ≤ n)
    : Passes M (var env pos x ty left) (Agrees M env θ n) := by
  have hsolved : Agrees M env θ n ⟨true, left, [(x, ty)]⟩ := ⟨rfl, .singleton hx hty hstands hn⟩
  cases hx with
  | @var _ v hv =>
    -- A type stands for a variable that cannot be solved only if it is an index.
    have hfixed : v.quantifier = .universal ∨ v.kind.gradeKind? ≠ none →
        ∃ l g, v.kind = .grade l ∧ ty.toGrade? = some g ∧ M.Holds .eq (s.resolve l) (.var x) g := by
      intro hfixed
      rw [hθ.substitute_var hv hfixed] at hstands
      cases hstands with
      | var => cases hvar
      | index _ hg hh hgkind hhkind hholds =>
        cases hh
        cases hhkind with
        | var hv' hkind =>
          cases hv.symm.trans hv'
          exact ⟨_, _, hkind, hg, M.symm hholds⟩
    unfold var
    refine passes_bind (passes_typeVar hv) ?_
    rintro v rfl
    refine passes_bind (hty.passes_inferKind hs) fun kind hkind => ?_
    have hgrades : v.quantifier = .universal → ∃ l l', v.kind = .grade l ∧ kind = .grade l' := by
      intro huniversal
      obtain ⟨l, g, hkind', _, _⟩ := hfixed (.inl huniversal)
      rw [hkind'] at hkind
      cases kind with
      | grade l' => exact ⟨l, l', hkind', rfl⟩
      | _ => cases hkind
    dsimp only
    split
    . next l l' hkind' =>
      obtain ⟨m, g, heq, hg, hholds⟩ := hfixed (.inr (by simp [hkind', Kind.gradeKind?]))
      cases hkind'.symm.trans heq
      rw [hkind'] at hkind
      refine passes_bind (GradeKind.passes_unify (Kind.grade.inj hkind).symm) ?_
      rintro _ rfl
      rw [hg]
      exact passes_bind (passes_constrain hholds) fun _ _ => passes_pure hsolved
    . next hgrade =>
      split
      . next huniversal =>
        obtain ⟨l, l', hl, hl'⟩ := hgrades huniversal
        exact (hgrade l l' hl hl').elim
      . exact passes_bind (passes_discard (Kind.passes_unify hkind.symm)) fun _ _ => passes_pure hsolved

theorem passes_indices {left right : Ty} {g h : Grade} {k : GradeKind} (hs : s.IsAcyclic)
    (hleft : left.HasKind env s (.grade k)) (hright : right.HasKind env s (.grade k)) (hg : left.toGrade? = some g)
    (hh : right.toGrade? = some h) (hholds : M.Holds .eq k g h)
    : Passes M (indices env pos left right) (Agrees M env θ n) := by
  unfold indices
  refine passes_bind (hleft.passes_inferKind hs) fun kind hkind => ?_
  refine passes_bind (hright.passes_inferKind hs) fun kind' hkind' => ?_
  cases kind with
  | grade l =>
    cases kind' with
    | grade l' =>
      rw [hg, hh]
      dsimp only
      refine passes_bind (GradeKind.passes_unify (Kind.grade.inj (hkind.trans hkind'.symm))) ?_
      rintro _ rfl
      refine passes_bind (passes_constrain ?_) fun _ _ => passes_pure ⟨rfl, .nil⟩
      rw [Kind.grade.inj hkind]
      exact hholds
    | _ => cases hkind'
  | _ => cases hkind

theorem passes_merge {equal : Ty → Ty → CheckM Unified} {first second : Substitution} (hs : s.IsAcyclic)
    (hθ : θ.Solves env s)
    (hequal : ∀ l r k, l.Comparable M env θ n .eq r k → Passes M (equal l r) (Agrees M env θ n))
    (hfirst : first.Sound M env θ n) (hsecond : second.Sound M env θ n)
    : Passes M (merge equal pos first second) (·.Sound M env θ n) := by
  fun_induction merge equal pos first second with
  | case1 first => exact passes_pure hfirst
  | case2 first name ty second hlookup ih =>
    exact ih (hfirst.append (hsecond.of_subset (by simp))) (hsecond.of_subset (by simp))
  | case3 first name ty second known hlookup ih =>
    have hknown := Substitution.mem_of_lookup hlookup
    have hty : (name, ty) ∈ (name, ty) :: second := List.mem_cons_self
    obtain ⟨v, hv, hkind⟩ := hfirst.kinds name known hknown
    obtain ⟨_, hv', hkind'⟩ := hsecond.kinds name ty hty
    cases hv.symm.trans hv'
    have hcomparable := (hfirst.standsFor name known hknown).comparable (hsecond.standsFor name ty hty) hs hθ hkind
      hkind' (Ty.HasKind.solve (.var hv) hs hθ.kinds) (hfirst.height_le name known hknown) .eq
    refine passes_bind (hequal known ty _ hcomparable.1) fun unified hunified => ?_
    rw [if_pos hunified.1]
    exact ih hfirst (hsecond.of_subset (by simp))

theorem relate_var_left {depth : Nat} {relation : Relation} {x : String} {ty : Ty} (hvar : ty.isVar = false)
    : relate env pos (depth + 1) relation (.var x) ty = var env pos x ty (.var x) := by
  unfold relate
  cases ty with
  | var y => cases hvar
  | _ => rfl

theorem relate_var_right {depth : Nat} {relation : Relation} {x : String} {ty : Ty} (hvar : ty.isVar = false)
    : relate env pos (depth + 1) relation ty (.var x) = var env pos x ty ty := by
  unfold relate
  cases ty with
  | var y => cases hvar
  | _ => rfl

theorem relate_index {depth : Nat} {relation : Relation} {left right : Ty} (hleft : left.isArithmetic = true)
    (hright : right.isVar = false) : relate env pos (depth + 1) relation left right = indices env pos left right := by
  unfold relate
  cases right with
  | var y => cases hright
  | _ =>
    cases left with
    | index | op => rfl
    | _ => cases hleft

theorem passes_relate_vars {depth : Nat} {relation : Relation} {x y : String} {k : Kind} (hθ : θ.Solves env s)
    (hx : (Ty.var x).HasKind env s k) (hy : (Ty.var y).HasKind env s k)
    (heq : (Ty.var x).substitute θ = (Ty.var y).substitute θ) (hn : ((Ty.var x).substitute θ).height ≤ n)
    : Passes M (relate env pos (depth + 1) relation (.var x) (.var y)) (Agrees M env θ n) := by
  unfold relate
  dsimp only
  split
  . cases hx with
    | var hv => exact passes_bind (passes_discard (passes_typeVar hv)) fun _ _ => passes_pure ⟨rfl, .nil⟩
  . next hxy => exact passes_vars hθ hxy hx hy heq hn

section

variable {depth : Nat} {relation relation' : Relation} {a a' b b' : Ty} {k l : Kind}

theorem passes_components {α : Type} {f : Unified → Unified → Substitution → α} {P : α → Prop} (hs : s.IsAcyclic)
    (hθ : θ.Solves env s)
    (hrelate : ∀ relation left right k, Ty.Comparable M env θ n relation left right k →
      Passes M (relate env pos depth relation left right) (Agrees M env θ n))
    (ha : a.Comparable M env θ n relation a' k) (hb : b.Comparable M env θ n relation' b' l)
    (hf : ∀ first second subst, first.agree = true → second.agree = true → subst.Sound M env θ n →
      P (f first second subst))
    : Passes M (do
        let first ← relate env pos depth relation a a'
        let second ← relate env pos depth relation' (b.substitute first.subst) (b'.substitute first.subst)
        let subst ← merge (relate env pos depth .eq) pos first.subst second.subst
        return f first second subst) P := by
  refine passes_bind (hrelate _ _ _ _ ha) fun first hfirst => ?_
  refine passes_bind (hrelate _ _ _ _ (hb.substitute hs hθ hfirst.2)) fun second hsecond => ?_
  refine passes_bind (passes_merge hs hθ (hrelate .eq) hfirst.2 hsecond.2) fun subst hsubst => ?_
  exact passes_pure (hf first second subst hfirst.1 hsecond.1 hsubst)

theorem passes_relatePair (hs : s.IsAcyclic) (hθ : θ.Solves env s)
    (hrelate : ∀ relation left right k, Ty.Comparable M env θ n relation left right k →
      Passes M (relate env pos depth relation left right) (Agrees M env θ n))
    (ha : a.Comparable M env θ n relation a' k) (hb : b.Comparable M env θ n relation b' l)
    : Passes M (relate.relatePair env pos depth relation a b a' b')
        fun r => (r.1.agree && r.2.1.agree) = true ∧ r.2.2.Sound M env θ (n + 1) := by
  unfold relate.relatePair
  refine passes_components hs hθ hrelate ha hb fun first second subst hfirst hsecond hsubst => ?_
  exact ⟨Bool.and_eq_true_iff.mpr ⟨hfirst, hsecond⟩, hsubst.mono (Nat.le_succ n)⟩

end

theorem passes_relate {depth : Nat} {relation : Relation} {left right : Ty} {k : Kind} (hs : s.IsAcyclic)
    (hθ : θ.Solves env s) (h : left.Comparable M env θ n relation right k) (hn : n ≤ depth)
    : Passes M (relate env pos depth relation left right) (Agrees M env θ n) := by
  induction depth generalizing n relation left right k with
  | zero => exact absurd h.pos (Nat.not_lt.mpr hn)
  | succ depth ih =>
    cases h with
    | @varLeft _ _ x _ _ hx hty hstands hheight =>
      cases hvar : right.isVar with
      | false =>
        rw [relate_var_left hvar]
        exact passes_var hs hθ hvar hx hty hstands hheight
      | true =>
        obtain ⟨y, rfl⟩ := Ty.eq_var_of_isVar hvar
        exact passes_relate_vars hθ hx hty hstands.eq_substitute hheight
    | @varRight _ _ x _ _ hx hty hstands hheight =>
      cases hvar : left.isVar with
      | false =>
        rw [relate_var_right hvar]
        exact passes_var hs hθ hvar hx hty hstands hheight
      | true =>
        obtain ⟨y, rfl⟩ := Ty.eq_var_of_isVar hvar
        have heq := hstands.eq_substitute
        exact passes_relate_vars hθ hty hx heq.symm (heq ▸ hheight)
    | index _ harith harith' hleft hright hg hh hholds =>
      rw [relate_index harith (Ty.isVar_of_isArithmetic harith')]
      exact passes_indices hs hleft hright hg hh hholds
    | const _ _ =>
      unfold relate
      exact passes_pure ⟨decide_eq_true rfl, .nil⟩
    | @arrow n _ _ _ _ _ ha hb =>
      unfold relate
      refine passes_components hs hθ (fun _ _ _ _ h => ih h (Nat.le_of_succ_le_succ hn)) ha hb ?_
      intro args results subst hargs hresults hsubst
      exact ⟨Bool.and_eq_true_iff.mpr ⟨hargs, hresults⟩, hsubst.mono (Nat.le_succ n)⟩
    | app ha hb | pair ha hb =>
      unfold relate
      refine passes_bind (passes_relatePair hs hθ (fun _ _ _ _ h => ih h (Nat.le_of_succ_le_succ hn)) ha hb) ?_
      exact fun r hr => passes_pure hr
    | @box n _ g h l a a' hg hh hholds ha =>
      unfold relate
      refine passes_bind (hg.passes_inferKind hs) ?_
      rintro _ rfl
      refine passes_bind (hh.passes_inferKind hs) ?_
      rintro _ rfl
      refine passes_bind (GradeKind.passes_unify rfl) ?_
      rintro _ rfl
      refine passes_bind (passes_constrain (M.holds_resolve.mpr hholds)) fun _ _ => ?_
      refine passes_bind (ih ha (Nat.le_of_succ_le_succ hn)) fun inner hinner => ?_
      exact passes_pure ⟨hinner.1, hinner.2.mono (Nat.le_succ n)⟩
    | @diamond n _ effects effects' a a' heffects ha =>
      unfold relate
      refine passes_bind (ih ha (Nat.le_of_succ_le_succ hn)) fun inner hinner => ?_
      rw [if_pos heffects]
      exact passes_pure ⟨hinner.1, hinner.2.mono (Nat.le_succ n)⟩

end Unify

end

end GradedModal
