import GradedModal.Proofs.Confinement
import GradedModal.Proofs.Remainder

/-!
This module proves that in a confined expression no variable leaves the scope of the pattern that binds it. There is one
lemma for each form of expressions. What an expression uses of its context, once the scope of a pattern is left, has the
types of the context: a graded variable is covered by the baseline, and a linear one has kept its type.
-/

namespace GradedModal

open CheckM Context

def Goal.Within (A : String → Prop) : Goal → Prop
  | .synthesize => True
  | .check _ expected => expected.Within A

theorem Goal.eq_check_of_expected? {goal : Goal} {ty : Ty} (h : goal.expected? = some ty)
    : ∃ topLevel, goal = .check topLevel ty := by
  cases goal with
  | synthesize => cases h
  | check topLevel expected =>
    cases h
    exact ⟨topLevel, rfl⟩

structure Typed.Within (A : String → Prop) (r : Typed) : Prop where
  ty : r.ty.Within A
  used : r.used.Within A
  subst : r.subst.TypesWithin A

theorem State.Allows.of_closeBranch {A : String → Prop} {info : Expr.CaseInfo} {p : Pattern} {bodyPos : Nat}
    {matched : Matched} {used net : Context} {s s' : State} (hs' : s'.Allows A)
    (h : Expr.closeBranch info p bodyPos matched used s = .ok net s') : s.Allows A := by
  obtain ⟨_, _, s₁, s₂, hle, hle', hclose⟩ := Expr.closeBranch_eq_ok.mp h
  have hs₂ := hs'.of_typeVars_eq (State.closeScope_eq_ok hclose).1
  exact (hs₂.of_reaches (Context.le_reaching _ _ _ hle')).of_reaches (Context.le_reaching _ _ _ hle)

namespace Expr

section

variable {H : Prop} {A : String → Prop} {env : Env} {pos : Nat} {c used : Context} {polarity : Polarity} {goal : Goal}
  {s s' : State} {r : Typed}

theorem conclude_within {actual : Ty} (h : conclude env pos polarity goal actual used s = .ok r s')
    (hs' : s'.Allows A) (hgoal : goal.Within A) (hactual : actual.Within A) (hused : used.Within A)
    : s.Collects A s' ∧ r.Within A := by
  cases goal with
  | synthesize =>
    obtain ⟨rfl, rfl⟩ := conclude_synthesize h
    exact ⟨.refl, hactual, hused, Substitution.typesWithin_nil⟩
  | check topLevel expected =>
    obtain ⟨relation, unified, rfl, _, hrelate⟩ := conclude_check h
    cases polarity with
    | positive =>
      obtain ⟨hcollects, hunified⟩ :=
        (Ty.relate_confines (fun _ => hactual) (fun _ => hgoal)).collects hrelate hs'
      exact ⟨hcollects, hgoal, hused, hunified.2⟩
    | negative =>
      obtain ⟨hcollects, hunified⟩ :=
        (Ty.relate_confines (fun _ => hgoal) (fun _ => hactual)).collects hrelate hs'
      exact ⟨hcollects, hgoal, hused, hunified.2⟩

theorem checkDeclared_within {ty : Ty} {declared : Option Ty} (h : checkDeclared env pos ty declared s = .ok () s')
    (hs' : s'.Allows A) (hdeclared : declared.all Ty.isDotless = true) (hty : ty.Within A) : s.Collects A s' := by
  cases declared with
  | none =>
    cases h
    exact .refl
  | some declared =>
    unfold checkDeclared at h
    obtain ⟨unified, h, _⟩ := map_eq_ok.mp h
    exact ((Ty.equal_confines (fun _ => hs'.ty hdeclared) (fun _ => hty)).collects h hs').1

theorem boxDemand_confines {kind : GradeKind} {grade : Grade} {u : Option Assumption} (hgrade : H → grade.Within A)
    (hu : H → ∀ a, u = some a → a.Within A) : Confines H A (boxDemand pos kind grade u) (Grade.Within A) := by
  unfold boxDemand
  split
  . exact confines_pure fun hH => (hu hH _ rfl).2
  . exact confines_pure fun _ => Grade.within_one
  . apply confines_bind (confines_constrain hgrade fun _ => Grade.within_zero)
    intro _
    exact confines_pure fun h => hgrade h.1

theorem constructorTy_confines {name : String}
    (hscheme : H → ∀ scheme, env.builtins.constructors.lookup name = some scheme → scheme.ty.Within A)
    : Confines H A (constructorTy env pos name) (Ty.Within A) := by
  unfold constructorTy
  apply confines_ite
  . apply confines_bind (confines_freshTypeVar _ _ _)
    intro size
    apply confines_bind (confines_freshTypeVar _ _ _)
    intro result
    apply confines_bind
    . apply confines_constrain
      . rintro ⟨_, hresult⟩
        exact Grade.within_var.mpr (hresult (.inl rfl))
      . rintro ⟨⟨_, hsize⟩, _⟩
        exact Grade.within_op.mpr ⟨Grade.within_var.mpr (hsize (.inl rfl)), Grade.within_nat⟩
    . intro _
      apply confines_ite
      . apply confines_bind (confines_freshTypeVar _ _ _)
        intro elem
        apply confines_pure
        rintro ⟨⟨⟨⟨_, hsize⟩, hresult⟩, _⟩, helem⟩
        simp [Ty.list, hsize, hresult, helem]
      . apply confines_pure
        rintro ⟨⟨⟨_, hsize⟩, hresult⟩, _⟩
        simp [Builtins.number, hsize, hresult]
  . split
    . next scheme heq => exact Scheme.instantiate_confines fun hH => hscheme hH scheme heq
    . exact confines_fail

theorem varTy_confines {name : String} (hc : H → c.Within A)
    (hscheme : H → ∀ scheme, env.lookup? name = some scheme → scheme.ty.Within A)
    : Confines H A (varTy env c pos name) fun r => r.1.Within A ∧ r.2.Within A := by
  unfold varTy
  split
  . next ty hx => exact confines_pure fun hH => ⟨(hc hH).lookup? hx, within_singleton ((hc hH).lookup? hx)⟩
  . next ty grade hx =>
    apply confines_bind (Grade.inferKind_confines _ _)
    intro kind
    apply confines_pure
    rintro ⟨hH, _⟩
    have hty := ((hc hH).lookup? hx).1
    exact ⟨hty, within_singleton ⟨hty, Grade.within_one⟩⟩
  . split
    . next scheme heq =>
      apply confines_bind (Scheme.instantiate_confines fun hH => hscheme hH scheme heq)
      intro ty
      exact confines_pure fun h => ⟨h.2, within_empty⟩
    . exact confines_fail

theorem baseline_confines {branches : List (Pattern × Expr)} (hc : H → c.Within A)
    : Confines H A (baseline pos c branches) (Context.Within A) := by
  unfold baseline
  apply confines_bind (P := fun bindings => ∀ b ∈ bindings, b.2.Within A)
  . apply confines_filterMapM
    rintro ⟨x, a⟩ hb
    have hwithin : H → a.Within A := fun hH => ((hc hH).filter _).filter _ (x, a) hb
    cases a with
    | graded ty grade =>
      apply confines_bind (Grade.inferKind_confines _ _)
      intro kind
      apply confines_bind (confines_freshGrade _ _)
      intro upper
      apply confines_pure
      rintro ⟨⟨hH, _⟩, hupper⟩ _ ⟨⟩
      exact ⟨(hwithin hH).1, hupper⟩
    | linear ty => exact confines_pure fun _ _ h => nomatch h
  . intro bindings
    exact confines_pure fun h => within_empty.foldl_bind h.2

theorem branchTy_confines {info : CaseInfo} {previous : Option Ty} {ty : Ty}
    (hprevious : H → ∀ t, previous = some t → t.Within A) (hty : H → info.expected = none → ty.Within A)
    : Confines H A (branchTy env info pos previous ty) fun o => ∀ t, o = some t → t.Within A := by
  unfold branchTy
  split
  . apply confines_pure
    rintro _ _ ⟨⟩
  . next hexpected =>
    apply confines_pure
    rintro hH _ ⟨⟩
    exact hty hH hexpected
  . next t hexpected =>
    apply confines_bind (Ty.join_confines (fun hH => hprevious hH _ rfl) (fun hH => hty hH hexpected))
    intro upper
    apply confines_pure
    rintro ⟨_, hupper⟩ _ ⟨⟩
    exact hupper

theorem branchUsed_confines {info : CaseInfo} {previous : Option Context} {net : Context}
    (hprevious : H → ∀ u, previous = some u → u.Within A) (hnet : H → net.Within A)
    : Confines H A (branchUsed info previous net) (Context.Within A) := by
  unfold branchUsed
  split
  . exact confines_pure hnet
  . exact Context.join_confines (fun hH => hprevious hH _ rfl) hnet

end

structure Joined.Within (A : String → Prop) (joined : Joined) : Prop where
  ty : ∀ ty, joined.ty = some ty → ty.Within A
  used : ∀ used, joined.used = some used → used.Within A

mutual

-- The context need not be within: the type does not depend on it.
theorem infer_ground {A : String → Prop} {env : Env} (henv : env.IsDotless) (e : Expr) {c : Context}
    {polarity : Polarity} {r : Typed} {s s' : State} (h : infer env e c polarity .synthesize s = .ok r s')
    (hs' : s'.Allows A) (hground : e.isGround = true) (hdotless : e.isDotless = true) : r.ty.Within A := by
  cases e with
  | int pos n =>
    obtain ⟨_, _, hgoal, _⟩ | h := infer_int h
    . cases hgoal
    . rw [(conclude_synthesize h).1]
      exact Ty.within_const
  | float pos x =>
    obtain ⟨_, _, hgoal, _⟩ | h := infer_float h
    . cases hgoal
    . rw [(conclude_synthesize h).1]
      exact Ty.within_const
  | var pos name | app pos f a =>
    unfold isGround at hground
    cases hground
  | constructor pos name =>
    obtain ⟨ty, s₁, hty, h⟩ := infer_constructor h
    obtain ⟨rfl, rfl⟩ := conclude_synthesize h
    have hscheme := fun (_ : True) scheme hscheme => hs'.ty (henv.constructors name scheme hscheme)
    exact ((constructorTy_confines hscheme).collects hty hs').2
  | lam pos b declared body =>
    obtain ⟨_, _, _, _, _, hgoal, _⟩ | ⟨arg, inner, s₁, _, rfl, hbody, _, h⟩ := infer_lam h
    . cases hgoal
    . obtain ⟨rfl, rfl⟩ := conclude_synthesize h
      unfold isGround at hground
      unfold isDotless at hdotless
      rw [Bool.and_eq_true] at hdotless
      exact Ty.within_arrow.mpr ⟨hs'.ty hdotless.1, infer_ground henv body hbody hs' hground hdotless.2⟩
  | promote pos e =>
    obtain ⟨_, _, _, _, _, _, _, hgoal, _⟩ | ⟨kind, grade, inner, s₁, s₂, s₃, _, _, hgrade, he, h⟩ := infer_promote h
    . cases hgoal
    . obtain ⟨rfl, rfl⟩ := conclude_synthesize h
      unfold isGround at hground
      unfold isDotless at hdotless
      have hs₂ := hs'.of_reaches (infer_reaching _ _ _ _ _ he)
      have hgrade := ((confines_freshGrade _ _).collects hgrade hs₂).2
      exact Ty.within_box.mpr ⟨hgrade, infer_ground henv e he hs' hground hdotless⟩
  | lift pos e =>
    obtain ⟨_, _, _, _, hgoal, _⟩ | ⟨inner, s₁, _, he, h⟩ := infer_lift h
    . cases hgoal
    . obtain ⟨rfl, rfl⟩ := conclude_synthesize h
      unfold isGround at hground
      unfold isDotless at hdotless
      exact Ty.within_diamond.mpr (infer_ground henv e he hs' hground hdotless)
  | binop pos op a b =>
    obtain ⟨sig, hsig, _, _, _, _, _, _, _, _, _, _, _, _, h⟩ := infer_binop h
    rw [(conclude_synthesize h).1]
    exact (hs'.ty (henv.operators op sig hsig)).result
  | pair pos a b =>
    obtain ⟨_, _, _, _, _, _, _, _, _, _, hgoal, _⟩ | ⟨left, right, used, s₁, s₂, s₃, _, ha, hb, hused, h⟩ :=
      infer_pair h
    . cases hgoal
    . obtain ⟨rfl, rfl⟩ := conclude_synthesize h
      unfold isGround at hground
      unfold isDotless at hdotless
      rw [Bool.and_eq_true] at hground hdotless
      have hs₂ := hs'.of_reaches (Context.combine_reaching _ _ _ hused)
      have hs₁ := hs₂.of_reaches (infer_reaching _ _ _ _ _ hb)
      exact Ty.within_pair.mpr
        ⟨infer_ground henv a ha hs₁ hground.1 hdotless.1, infer_ground henv b hb hs₂ hground.2 hdotless.2⟩
  | case pos scrutinee branches =>
    obtain ⟨value, base, joined, used, s₁, s₂, s₃, s₄, _, _, hbranches, hused, hused', hty, _⟩ := infer_case h
    unfold isGround at hground
    unfold isDotless at hdotless
    rw [Bool.and_eq_true] at hdotless
    have hs₄ := hs'.of_reaches (Context.combine_reaching _ _ _ hused')
    have hs₃ := hs₄.of_reaches (Context.combine_reaching _ _ _ hused)
    exact inferBranches_ground henv branches hbranches hs₃ hground hdotless.2 rfl (fun _ h => nomatch h) r.ty hty
  | letDiamond pos b declared value rest =>
    obtain ⟨_, _, _, second, _, _, _, s₁, s₂, s₃, s₄, _, _, _, hrest, hty, _, hused, h⟩ := infer_letDiamond h
    obtain ⟨rfl, rfl⟩ := conclude_synthesize h
    unfold isGround at hground
    unfold isDotless at hdotless
    rw [Bool.and_eq_true] at hdotless
    have hs₃ := hs'.of_reaches (Context.combine_reaching _ _ _ hused)
    have hsecond := infer_ground henv rest hrest hs₃ hground hdotless.2
    rw [hty, Ty.within_diamond] at hsecond
    exact Ty.within_diamond.mpr hsecond
  | letBox pos b ty value rest =>
    obtain ⟨_, _, second, _, _, _, s₁, s₂, s₃, s₄, s₅, s₆, _, _, hrest, hdemand, hvalue, hused, h⟩ := infer_letBox h
    obtain ⟨rfl, rfl⟩ := conclude_synthesize h
    unfold isGround at hground
    unfold isDotless at hdotless
    rw [Bool.and_eq_true] at hdotless
    have hs₅ := hs'.of_reaches (Context.combine_reaching _ _ _ hused)
    have hs₄ := hs₅.of_reaches (infer_reaching _ _ _ _ _ hvalue)
    have hs₃ := hs₄.of_reaches (boxDemand_reaching _ _ _ _ hdemand)
    have hsecond := infer_ground henv rest hrest hs₃ hground hdotless.2
    exact hsecond

theorem inferBranches_ground {A : String → Prop} {env : Env} (henv : env.IsDotless)
    (branches : List (Pattern × Expr)) {info : CaseInfo} {joined result : Joined} {s s' : State}
    (h : inferBranches env info branches joined s = .ok result s') (hs' : s'.Allows A)
    (hground : areGround branches = true) (hdotless : areDotless branches = true) (hexpected : info.expected = none)
    (hjoined : ∀ ty, joined.ty = some ty → ty.Within A) : ∀ ty, result.ty = some ty → ty.Within A := by
  cases branches with
  | nil =>
    unfold inferBranches at h
    rw [pure_eq_ok] at h
    obtain ⟨rfl, _⟩ := h
    exact hjoined
  | cons branch branches =>
    obtain ⟨p, body⟩ := branch
    obtain ⟨matched, typed, ty, net, used, s₁, s₂, s₃, s₄, s₅, s₆, s₇, _, _, _, hbody, hty, hclose, hused, h⟩ :=
      inferBranches_cons h
    unfold areGround at hground
    unfold areDotless at hdotless
    rw [Bool.and_eq_true] at hground hdotless
    have hgoal : branchGoal info matched = .synthesize := by
      unfold branchGoal
      rw [hexpected]
    rw [hgoal] at hbody
    have hs₇ := hs'.of_reaches (inferBranches_reaching _ _ _ _ h)
    have hs₅ := (hs₇.of_reaches (branchUsed_reaching _ _ _ hused)).of_closeBranch hclose
    have hs₄ := hs₅.of_reaches (branchTy_reaching _ _ _ _ _ hty)
    have htyped := infer_ground henv body hbody hs₄ hground.1 hdotless.1
    apply inferBranches_ground henv branches h hs' hground.2 hdotless.2 hexpected
    exact ((branchTy_confines (fun _ => hjoined) (fun _ _ => htyped)).collects hty hs₅).2

end

/--
The conditions under which nothing escapes from an expression: they are about the expression, about what it is given,
and about what it uses of the linear variables that it is given.
-/
structure Scoped (env : Env) (A : String → Prop) (e : Expr) (c : Context) (goal : Goal) (used : Context) : Prop where
  dotless : e.isDotless = true
  confined : e.isConfined env goal.expected? = true
  context : c.Within A
  goal : goal.Within A
  nodup : c.names.Nodup
  linear : c.LinearKept used

/--
Whatever is answered about the expression mentions no variables but those of its surroundings.
-/
def KeepsScope (env : Env) (e : Expr) : Prop :=
  ∀ {A : String → Prop} {c : Context} {polarity : Polarity} {goal : Goal} {r : Typed} {s s' : State},
    infer env e c polarity goal s = .ok r s' → s'.Allows A → Scoped env A e c goal r.used →
      s.Collects A s' ∧ r.Within A

section

variable {env : Env} {pos : Nat}

theorem ungraded_of_isConsumed {x : String} {body : Expr} {c : Context} {ty : Ty} {polarity : Polarity} {goal : Goal}
    {r : Typed} {s s' : State} (h : infer env body (c.bind x (.linear ty)) polarity goal s = .ok r s')
    (hconsumed : isConsumed (r.used.lookup? x) = true) : r.used.Ungraded x := by
  have huses := infer_uses (K := fun _ => True) x body h (fun _ _ => trivial)
  rw [lookup?_bind, if_pos rfl] at huses
  obtain ⟨ty', hlinear⟩ := (huses.keptLinear rfl).nonZero.eq_linear hconsumed
  intro ty'' g hgraded
  rw [hlinear] at hgraded
  cases hgraded

theorem keepsScope_int (n : Int) : KeepsScope env (.int pos n) := by
  intro A c polarity goal r s s' h hs' hscoped
  obtain ⟨_, _, rfl, rfl, rfl⟩ | h := infer_int h
  . exact ⟨.refl, Ty.within_const, within_empty, Substitution.typesWithin_nil⟩
  . exact conclude_within h hs' hscoped.goal Ty.within_const within_empty

theorem keepsScope_float (x : Float) : KeepsScope env (.float pos x) := by
  intro A c polarity goal r s s' h hs' hscoped
  obtain ⟨_, _, rfl, rfl, rfl⟩ | h := infer_float h
  . exact ⟨.refl, Ty.within_const, within_empty, Substitution.typesWithin_nil⟩
  . exact conclude_within h hs' hscoped.goal Ty.within_const within_empty

theorem keepsScope_constructor (henv : env.IsDotless) (name : String) : KeepsScope env (.constructor pos name) := by
  intro A c polarity goal r s s' h hs' hscoped
  obtain ⟨ty, s₁, hty, h⟩ := infer_constructor h
  have hs₁ := hs'.of_reaches (conclude_reaches h)
  have hscheme := fun (_ : True) scheme hscheme => hs'.ty (henv.constructors name scheme hscheme)
  obtain ⟨hcollects, hty⟩ := (constructorTy_confines hscheme).collects hty hs₁
  obtain ⟨hconclude, hr⟩ := conclude_within h hs' hscoped.goal hty within_empty
  exact ⟨hcollects.trans hconclude, hr⟩

theorem keepsScope_var (henv : env.IsDotless) (name : String) : KeepsScope env (.var pos name) := by
  intro A c polarity goal r s s' h hs' hscoped
  obtain ⟨ty, used, s₁, hvar, h⟩ := infer_var h
  have hs₁ := hs'.of_reaches (conclude_reaches h)
  have hscheme := fun (_ : True) scheme hscheme => hs'.ty (henv.definitions name scheme hscheme)
  obtain ⟨hcollects, hty, hused⟩ := (varTy_confines (fun _ => hscoped.context) hscheme).collects hvar hs₁
  obtain ⟨hconclude, hr⟩ := conclude_within h hs' hscoped.goal hty hused
  exact ⟨hcollects.trans hconclude, hr⟩

theorem keepsScope_lam {b : Binder} {declared : Option Ty} {body : Expr} (hbody : KeepsScope env body)
    : KeepsScope env (.lam pos b declared body) := by
  intro A c polarity goal r s s' h hs' hscoped
  have hdotless := hscoped.dotless
  unfold isDotless at hdotless
  rw [Bool.and_eq_true] at hdotless
  have hnodup := hscoped.nodup
  obtain ⟨topLevel, arg, result, inner, s₁, rfl, hdeclared, hinfer, hconsumed, rfl⟩ |
    ⟨arg, inner, s₁, hgoal, rfl, hinfer, hconsumed, h⟩ := infer_lam h
  . obtain ⟨harg, hresult⟩ := Ty.within_arrow.mp hscoped.goal
    have hconfined : body.isConfined env (some result) = true := by
      have hconfined := hscoped.confined
      cases declared with
      | none | some declared =>
        unfold isConfined at hconfined
        exact hconfined
    have hs₁ := hs'.of_reaches (infer_reaching _ _ _ _ _ hinfer)
    have hcollects := checkDeclared_within hdeclared hs₁ hdotless.1 harg
    obtain ⟨hcollects', hinner⟩ := hbody hinfer hs' {
      dotless := hdotless.2
      confined := hconfined
      context := hscoped.context.bind harg
      goal := hresult
      nodup := nodup_names_bind hnodup
      linear := hscoped.linear.bind fun _ _ => ungraded_of_isConsumed hinfer hconsumed }
    exact ⟨hcollects.trans hcollects', hscoped.goal, hinner.used.filter _, hinner.subst⟩
  . have harg : arg.Within A := hs'.ty hdotless.1
    have hconfined : body.isConfined env none = true := by
      have hconfined := hscoped.confined
      unfold isConfined at hconfined
      apply partially_none hconfined
      intro ty hty
      obtain ⟨topLevel, rfl⟩ := Goal.eq_check_of_expected? hty
      cases ty with
      | arrow a b => exact absurd rfl (hgoal topLevel a b)
      | _ => rfl
    have hs₁ := hs'.of_reaches (conclude_reaches h)
    have hlinear := hscoped.linear
    rw [conclude_used h] at hlinear
    obtain ⟨hcollects, hinner⟩ := hbody hinfer hs₁ {
      dotless := hdotless.2
      confined := hconfined
      context := hscoped.context.bind harg
      goal := trivial
      nodup := nodup_names_bind hnodup
      linear := hlinear.bind fun _ _ => ungraded_of_isConsumed hinfer hconsumed }
    obtain ⟨hconclude, hr⟩ :=
      conclude_within h hs' hscoped.goal (Ty.within_arrow.mpr ⟨harg, hinner.ty⟩) (hinner.used.filter _)
    exact ⟨hcollects.trans hconclude, hr⟩

theorem keepsScope_app {f a : Expr} (hf : KeepsScope env f) (ha : KeepsScope env a)
    : KeepsScope env (.app pos f a) := by
  intro A c polarity goal r s s' h hs' hscoped
  have hdotless := hscoped.dotless
  unfold isDotless at hdotless
  rw [Bool.and_eq_true] at hdotless
  have hconfined := hscoped.confined
  have hnodup := hscoped.nodup
  obtain ⟨_, factor, inner, rfl, hscale, hinner, rfl⟩ |
    ⟨_, expected, arg, function, used, s₁, s₂, rfl, harg, hfunction, hused, rfl⟩ |
    ⟨argTy, resultTy, function, arg, used, s₁, s₂, rfl, hfunction, hty, harg, hused, rfl⟩ := infer_app h
  . obtain ⟨_, _, _, _, rfl⟩ := scaleFactor?_eq_some hscale
    change isConfined env _ (some _) = true at hconfined
    unfold isConfined at hconfined
    simp only [isScaling, Bool.and_eq_true, decide_true, Bool.not_true, Bool.false_or] at hconfined
    obtain ⟨hcollects, hinner⟩ := ha hinner hs' {
      dotless := hdotless.2
      confined := isConfined_mono a hconfined.2 ⟨_, _, rfl, trivial⟩
      context := hscoped.context
      goal := Ty.within_box.mpr ⟨Grade.within_float, Ty.within_const⟩
      nodup := hnodup
      linear := hscoped.linear }
    exact ⟨hcollects, Ty.within_const, hinner.used, hinner.subst⟩
  . change isConfined env _ (some expected) = true at hconfined
    unfold isConfined at hconfined
    rw [Bool.and_eq_true, Bool.and_eq_true] at hconfined
    obtain ⟨hlinear, hlinear'⟩ := hscoped.linear.of_combine hused
    have hs₂ := hs'.of_reaches (combine_reaching _ _ _ hused)
    have hs₁ := hs₂.of_reaches (infer_reaching _ _ _ _ _ hfunction)
    obtain ⟨hcollects, harg⟩ := ha harg hs₁ ⟨hdotless.2, hconfined.1.2, hscoped.context, trivial, hnodup, hlinear'⟩
    obtain ⟨hcollects', hfunction⟩ := hf hfunction hs₂ {
      dotless := hdotless.1
      confined := isConfined_mono f hconfined.1.1 ⟨_, _, rfl, Ty.outlines_refl expected⟩
      context := hscoped.context
      goal := Ty.within_arrow.mpr ⟨harg.ty, hscoped.goal⟩
      nodup := hnodup
      linear := hlinear }
    obtain ⟨hcombine, hused⟩ := (combine_confines (fun _ => hfunction.used) (fun _ => harg.used)).collects hused hs'
    exact ⟨(hcollects.trans hcollects').trans hcombine, hscoped.goal, hused, hfunction.subst⟩
  . change isConfined env _ none = true at hconfined
    unfold isConfined at hconfined
    rw [Bool.and_eq_true] at hconfined
    obtain ⟨hlinear, hlinear'⟩ := hscoped.linear.of_combine hused
    have hs₂ := hs'.of_reaches (combine_reaching _ _ _ hused)
    have hs₁ := hs₂.of_reaches (infer_reaching _ _ _ _ _ harg)
    obtain ⟨hcollects, hfunction⟩ :=
      hf hfunction hs₁ ⟨hdotless.1, hconfined.1, hscoped.context, trivial, hnodup, hlinear⟩
    have hfunctionTy := hfunction.ty
    rw [hty, Ty.within_arrow] at hfunctionTy
    obtain ⟨hcollects', harg⟩ := ha harg hs₂ {
      dotless := hdotless.2
      confined := isConfined_mono a hconfined.2 (Ty.outlines_unknown argTy)
      context := hscoped.context
      goal := hfunctionTy.1
      nodup := hnodup
      linear := hlinear' }
    obtain ⟨hcombine, hused⟩ := (combine_confines (fun _ => hfunction.used) (fun _ => harg.used)).collects hused hs'
    exact ⟨(hcollects.trans hcollects').trans hcombine, hfunctionTy.2.substitute harg.subst, hused,
      Substitution.typesWithin_nil⟩

theorem keepsScope_promote {e : Expr} (he : KeepsScope env e) : KeepsScope env (.promote pos e) := by
  intro A c polarity goal r s s' h hs' hscoped
  have hdotless := hscoped.dotless
  unfold isDotless at hdotless
  have hconfined := hscoped.confined
  unfold isConfined at hconfined
  have hnodup := hscoped.nodup
  obtain ⟨_, demand, content, fresh, inner, s₁, s₂, rfl, hfresh, hinner, hle, rfl⟩ |
    ⟨kind, grade, inner, s₁, s₂, s₃, hgoal, hkind, hgrade, hinner, h⟩ := infer_promote h
  . obtain ⟨hdemand, hcontent⟩ := Ty.within_box.mp hscoped.goal
    have hlinear : fresh.LinearKept inner.used := .of_freshen hfresh
    have hs₂ : s₂.Allows A := by
      cases polarity with
      | positive | negative => exact hs'.of_reaches (le_reaching _ _ _ hle)
    have hs₁ := hs₂.of_reaches (infer_reaching _ _ _ _ _ hinner)
    have hnodup : fresh.names.Nodup := by
      rw [names_freshen hfresh]
      exact nodup_names_filter hnodup _
    obtain ⟨hcollects, hfresh⟩ := (freshen_confines fun _ => hscoped.context).collects hfresh hs₁
    obtain ⟨hcollects', hwithin⟩ := he hinner hs₂ ⟨hdotless, hconfined, hfresh, hcontent, hnodup, hlinear⟩
    have hcollects'' : s₂.Collects A s' := by
      cases polarity with
      | positive => exact ((le_confines (fun _ => hwithin.used) (fun _ => hfresh)).collects hle hs').1
      | negative => exact ((le_confines (fun _ => hfresh) (fun _ => hwithin.used)).collects hle hs').1
    exact ⟨(hcollects.trans hcollects').trans hcollects'', hscoped.goal, hfresh.scale hdemand _, hwithin.subst⟩
  . have hconfined : e.isConfined env none = true := by
      apply partially_none hconfined
      intro ty hty
      obtain ⟨topLevel, rfl⟩ := Goal.eq_check_of_expected? hty
      cases ty with
      | box grade content => exact absurd rfl (hgoal topLevel grade content)
      | _ => rfl
    have hdrawn := infer_drawnFrom env e hinner hnodup
    have hlinear : c.LinearKept inner.used := by
      intro x ty hx ty' g hgraded
      have hkept := hscoped.linear x ty hx
      rw [conclude_used h] at hkept
      have hmem : x ∈ e.freeVars := by
        apply List.mem_eraseDups.mpr
        exact hdrawn.free x (isSome_lookup?_iff.mp (by simp [hgraded]))
      apply hkept ty' (.op .times grade g)
      rw [lookup?_scale, if_pos hmem, hgraded]
      rfl
    have hs₃ := hs'.of_reaches (conclude_reaches h)
    have hs₂ := hs₃.of_reaches (infer_reaching _ _ _ _ _ hinner)
    have hs₁ := hs₂.of_reaches (reaching_freshGrade _ _ hgrade)
    have hcollects := ((confines_freshGradeKind _).collects hkind hs₁).1
    obtain ⟨hcollects', hgrade⟩ := (confines_freshGrade _ _).collects hgrade hs₂
    obtain ⟨hcollects'', hinner⟩ := he hinner hs₃ ⟨hdotless, hconfined, hscoped.context, trivial, hnodup, hlinear⟩
    obtain ⟨hconclude, hr⟩ :=
      conclude_within h hs' hscoped.goal (Ty.within_box.mpr ⟨hgrade, hinner.ty⟩) (hinner.used.scale hgrade _)
    exact ⟨((hcollects.trans hcollects').trans hcollects'').trans hconclude, hr⟩

theorem keepsScope_lift {e : Expr} (he : KeepsScope env e) : KeepsScope env (.lift pos e) := by
  intro A c polarity goal r s s' h hs' hscoped
  have hdotless := hscoped.dotless
  unfold isDotless at hdotless
  have hconfined := hscoped.confined
  unfold isConfined at hconfined
  have hlinear := hscoped.linear
  obtain ⟨_, effects, content, inner, rfl, hinner, rfl⟩ | ⟨inner, s₁, hgoal, hinner, h⟩ := infer_lift h
  . obtain ⟨hcollects, hinner⟩ := he hinner hs'
      ⟨hdotless, hconfined, hscoped.context, Ty.within_diamond.mp hscoped.goal, hscoped.nodup, hlinear⟩
    exact ⟨hcollects, hscoped.goal, hinner.used, hinner.subst⟩
  . have hconfined : e.isConfined env none = true := by
      apply partially_none hconfined
      intro ty hty
      obtain ⟨topLevel, rfl⟩ := Goal.eq_check_of_expected? hty
      cases ty with
      | diamond effects content => exact absurd rfl (hgoal topLevel effects content)
      | _ => rfl
    rw [conclude_used h] at hlinear
    have hs₁ := hs'.of_reaches (conclude_reaches h)
    obtain ⟨hcollects, hinner⟩ := he hinner hs₁ ⟨hdotless, hconfined, hscoped.context, trivial, hscoped.nodup, hlinear⟩
    obtain ⟨hconclude, hr⟩ :=
      conclude_within h hs' hscoped.goal (Ty.within_diamond.mpr hinner.ty) hinner.used
    exact ⟨hcollects.trans hconclude, hr⟩

theorem keepsScope_binop (henv : env.IsDotless) {op : BinOp} {a b : Expr} (ha : KeepsScope env a)
    (hb : KeepsScope env b) : KeepsScope env (.binop pos op a b) := by
  intro A c polarity goal r s s' h hs' hscoped
  have hdotless := hscoped.dotless
  unfold isDotless at hdotless
  have hconfined := hscoped.confined
  unfold isConfined at hconfined
  rw [Bool.and_eq_true] at hdotless hconfined
  have hlinear := hscoped.linear
  obtain ⟨sig, hsig, left, right, first, second, used, s₁, s₂, s₃, hargs, hfirst, hsecond, hused, h⟩ := infer_binop h
  have hsig := hs'.ty (henv.operators op sig hsig)
  have hsigArgs := hsig.args
  rw [hargs, List.forall_mem_cons, List.forall_mem_singleton] at hsigArgs
  rw [conclude_used h] at hlinear
  obtain ⟨hlinear, hlinear'⟩ := hlinear.of_combine hused
  have hs₃ := hs'.of_reaches (conclude_reaches h)
  have hs₂ := hs₃.of_reaches (combine_reaching _ _ _ hused)
  have hs₁ := hs₂.of_reaches (infer_reaching _ _ _ _ _ hsecond)
  obtain ⟨hcollects, hfirst⟩ := ha hfirst hs₁ {
    dotless := hdotless.1
    confined := isConfined_mono a hconfined.1 (Ty.outlines_unknown left)
    context := hscoped.context
    goal := hsigArgs.1
    nodup := hscoped.nodup
    linear := hlinear }
  obtain ⟨hcollects', hsecond⟩ := hb hsecond hs₂ {
    dotless := hdotless.2
    confined := isConfined_mono b hconfined.2 (Ty.outlines_unknown right)
    context := hscoped.context
    goal := hsigArgs.2
    nodup := hscoped.nodup
    linear := hlinear' }
  obtain ⟨hcombine, hused⟩ := (combine_confines (fun _ => hfirst.used) (fun _ => hsecond.used)).collects hused hs₃
  obtain ⟨hconclude, hr⟩ := conclude_within h hs' hscoped.goal hsig.result hused
  exact ⟨((hcollects.trans hcollects').trans hcombine).trans hconclude, hr⟩

theorem keepsScope_pair {a b : Expr} (ha : KeepsScope env a) (hb : KeepsScope env b)
    : KeepsScope env (.pair pos a b) := by
  intro A c polarity goal r s s' h hs' hscoped
  have hdotless := hscoped.dotless
  unfold isDotless at hdotless
  have hconfined := hscoped.confined
  unfold isConfined at hconfined
  rw [Bool.and_eq_true] at hdotless hconfined
  have hlinear := hscoped.linear
  obtain ⟨_, aTy, bTy, left, right, used, subst, s₁, s₂, s₃, rfl, hleft, hright, hused, hsubst, rfl⟩ |
    ⟨left, right, used, s₁, s₂, s₃, hgoal, hleft, hright, hused, h⟩ := infer_pair h
  . obtain ⟨haTy, hbTy⟩ := Ty.within_pair.mp hscoped.goal
    obtain ⟨hlinear, hlinear'⟩ := hlinear.of_combine hused
    have hs₃ := hs'.of_reaches (Substitution.combine_reaching _ _ _ _ hsubst)
    have hs₂ := hs₃.of_reaches (combine_reaching _ _ _ hused)
    have hs₁ := hs₂.of_reaches (infer_reaching _ _ _ _ _ hright)
    obtain ⟨hcollects, hleft⟩ :=
      ha hleft hs₁ ⟨hdotless.1, hconfined.1, hscoped.context, haTy, hscoped.nodup, hlinear⟩
    obtain ⟨hcollects', hright⟩ := hb hright hs₂ {
      dotless := hdotless.2
      confined := isConfined_mono b (partially_some hconfined.2 rfl) (Ty.outlines_substitute bTy _)
      context := hscoped.context
      goal := hbTy.substitute hleft.subst
      nodup := hscoped.nodup
      linear := hlinear' }
    obtain ⟨hcombine, hused⟩ := (combine_confines (fun _ => hleft.used) (fun _ => hright.used)).collects hused hs₃
    obtain ⟨hcombine', hsubst⟩ :=
      (Substitution.combine_confines (fun _ => hleft.subst) (fun _ => hright.subst)).collects hsubst hs'
    exact ⟨((hcollects.trans hcollects').trans hcombine).trans hcombine', hscoped.goal, hused, hsubst⟩
  . have hpart : ∀ ty, goal.expected? = some ty → ty.first? = none ∧ ty.second? = none := by
      intro ty hty
      obtain ⟨topLevel, rfl⟩ := Goal.eq_check_of_expected? hty
      cases ty with
      | pair aTy bTy => exact absurd rfl (hgoal topLevel aTy bTy)
      | _ => exact ⟨rfl, rfl⟩
    rw [conclude_used h] at hlinear
    obtain ⟨hlinear, hlinear'⟩ := hlinear.of_combine hused
    have hs₃ := hs'.of_reaches (conclude_reaches h)
    have hs₂ := hs₃.of_reaches (combine_reaching _ _ _ hused)
    have hs₁ := hs₂.of_reaches (infer_reaching _ _ _ _ _ hright)
    obtain ⟨hcollects, hleft⟩ := ha hleft hs₁ {
      dotless := hdotless.1
      confined := partially_none hconfined.1 fun ty hty => (hpart ty hty).1
      context := hscoped.context
      goal := trivial
      nodup := hscoped.nodup
      linear := hlinear }
    obtain ⟨hcollects', hright⟩ := hb hright hs₂ {
      dotless := hdotless.2
      confined := partially_none hconfined.2 fun ty hty => (hpart ty hty).2
      context := hscoped.context
      goal := trivial
      nodup := hscoped.nodup
      linear := hlinear' }
    obtain ⟨hcombine, hused⟩ := (combine_confines (fun _ => hleft.used) (fun _ => hright.used)).collects hused hs₃
    obtain ⟨hconclude, hr⟩ :=
      conclude_within h hs' hscoped.goal (Ty.within_pair.mpr ⟨hleft.ty, hright.ty⟩) hused
    exact ⟨((hcollects.trans hcollects').trans hcombine).trans hconclude, hr⟩

theorem keepsScope_letDiamond {b : Binder} {declared : Option Ty} {value rest : Expr} (hvalue : KeepsScope env value)
    (hrest : KeepsScope env rest) : KeepsScope env (.letDiamond pos b declared value rest) := by
  intro A c polarity goal r s s' h hs' hscoped
  have hdotless := hscoped.dotless
  unfold isDotless at hdotless
  have hconfined := hscoped.confined
  unfold isConfined at hconfined
  rw [Bool.and_eq_true, Bool.and_eq_true] at hdotless
  rw [Bool.and_eq_true] at hconfined
  have hlinear := hscoped.linear
  obtain ⟨first, effects, content, second, effects', result, used, s₁, s₂, s₃, s₄, hfirst, hty, hdeclared, hsecond,
    hty', hconsumed, hused, h⟩ := infer_letDiamond h
  rw [conclude_used h] at hlinear
  obtain ⟨hlinear, hlinear'⟩ := hlinear.of_combine hused
  have hs₄ := hs'.of_reaches (conclude_reaches h)
  have hs₃ := hs₄.of_reaches (combine_reaching _ _ _ hused)
  have hs₂ := hs₃.of_reaches (infer_reaching _ _ _ _ _ hsecond)
  have hs₁ := hs₂.of_reaches (checkDeclared_reaching _ _ _ _ hdeclared)
  obtain ⟨hcollects, hfirst⟩ :=
    hvalue hfirst hs₁ ⟨hdotless.1.2, hconfined.1, hscoped.context, trivial, hscoped.nodup, hlinear⟩
  have hcontent := hfirst.ty
  rw [hty, Ty.within_diamond] at hcontent
  have hcollects' := checkDeclared_within hdeclared hs₂ hdotless.1.1 hcontent
  obtain ⟨hcollects'', hsecond⟩ := hrest hsecond hs₃ {
    dotless := hdotless.2
    confined := hconfined.2
    context := hscoped.context.bind hcontent
    goal := trivial
    nodup := nodup_names_bind hscoped.nodup
    linear := hlinear'.bind fun _ _ => ungraded_of_isConsumed hsecond hconsumed }
  have hresult := hsecond.ty
  rw [hty', Ty.within_diamond] at hresult
  obtain ⟨hcombine, hused⟩ :=
    (combine_confines (fun _ => hfirst.used) (fun _ => hsecond.used.filter _)).collects hused hs₄
  obtain ⟨hconclude, hr⟩ := conclude_within h hs' hscoped.goal (Ty.within_diamond.mpr hresult) hused
  exact ⟨(((hcollects.trans hcollects').trans hcollects'').trans hcombine).trans hconclude, hr⟩

theorem keepsScope_letBox {b : Binder} {ty : Ty} {value rest : Expr} (hvalue : KeepsScope env value)
    (hrest : KeepsScope env rest) : KeepsScope env (.letBox pos b ty value rest) := by
  intro A c polarity goal r s s' h hs' hscoped
  have hdotless := hscoped.dotless
  unfold isDotless at hdotless
  have hconfined := hscoped.confined
  unfold isConfined at hconfined
  rw [Bool.and_eq_true, Bool.and_eq_true] at hdotless
  rw [Bool.and_eq_true] at hconfined
  have hlinear := hscoped.linear
  obtain ⟨kind, grade, second, demand, first, used, s₁, s₂, s₃, s₄, s₅, s₆, hkind, hgrade, hsecond, hdemand, hfirst,
    hused, h⟩ := infer_letBox h
  rw [conclude_used h] at hlinear
  obtain ⟨hlinear, hlinear'⟩ := hlinear.of_combine hused
  have hs₆ := hs'.of_reaches (conclude_reaches h)
  have hs₅ := hs₆.of_reaches (combine_reaching _ _ _ hused)
  have hs₄ := hs₅.of_reaches (infer_reaching _ _ _ _ _ hfirst)
  have hs₃ := hs₄.of_reaches (boxDemand_reaching _ _ _ _ hdemand)
  have hs₂ := hs₃.of_reaches (infer_reaching _ _ _ _ _ hsecond)
  have hs₁ := hs₂.of_reaches (reaching_freshGrade _ _ hgrade)
  have hty : ty.Within A := hs'.ty hdotless.1.1
  have hcollects := ((confines_freshGradeKind _).collects hkind hs₁).1
  obtain ⟨hcollects₂, hgrade⟩ := (confines_freshGrade _ _).collects hgrade hs₂
  obtain ⟨hcollects₃, hsecond⟩ := hrest hsecond hs₃ {
    dotless := hdotless.2
    confined := hconfined.2
    context := hscoped.context.bind ⟨hty, hgrade⟩
    goal := trivial
    nodup := nodup_names_bind hscoped.nodup
    linear := hlinear'.bind fun _ h => nomatch h }
  obtain ⟨hcollects₄, hdemand⟩ :=
    (boxDemand_confines (fun _ => hgrade) (fun _ _ => hsecond.used.lookup?)).collects hdemand hs₄
  obtain ⟨hcollects₅, hfirst⟩ := hvalue hfirst hs₅ {
    dotless := hdotless.1.2
    confined := isConfined_mono value hconfined.1 ⟨_, _, rfl, Ty.outlines_refl ty⟩
    context := hscoped.context
    goal := Ty.within_box.mpr ⟨hdemand, hty⟩
    nodup := hscoped.nodup
    linear := hlinear }
  obtain ⟨hcombine, hused⟩ :=
    (combine_confines (fun _ => hfirst.used) (fun _ => hsecond.used.filter _)).collects hused hs₆
  obtain ⟨hconclude, hr⟩ := conclude_within h hs' hscoped.goal hsecond.ty hused
  have hs₃' := (hcollects.trans hcollects₂).trans hcollects₃
  exact ⟨(((hs₃'.trans hcollects₄).trans hcollects₅).trans hcombine).trans hconclude, hr⟩

end

/--
The conditions on what holds for all branches of a case. The graded variables of the context are apart from the linear
ones in that the baseline bounds them.
-/
structure CaseInfo.Scoped (A : String → Prop) (info : CaseInfo) (branches : List (Pattern × Expr)) : Prop where
  context : info.context.Within A
  scrutinee : info.scrutinee.Within A
  baseline : info.baseline.Within A
  expected : ∀ ty, info.expected = some ty → ty.Within A
  nodup : info.context.names.Nodup
  linear : ∀ x ty, info.context.lookup? x = some (.linear ty) → info.baseline.lookup? x = none
  graded : ∀ x ty g, info.context.lookup? x = some (.graded ty g) → x ∈ freeOccurrencesAll branches →
    (info.baseline.lookup? x).isSome

theorem CaseInfo.Scoped.tail {A : String → Prop} {info : CaseInfo} {branch : Pattern × Expr}
    {branches : List (Pattern × Expr)} (h : info.Scoped A (branch :: branches)) : info.Scoped A branches := {
  h with
  graded := by
    intro x ty g hx hmem
    apply h.graded x ty g hx
    unfold freeOccurrencesAll
    exact List.mem_append_right _ hmem }

def BranchesKeepScope (env : Env) (branches : List (Pattern × Expr)) : Prop :=
  ∀ {A : String → Prop} {info : CaseInfo} {joined result : Joined} {s s' : State},
    inferBranches env info branches joined s = .ok result s' → s'.Allows A → info.Scoped A branches →
      areDotless branches = true → areConfined env branches info.expected = true →
      info.context.LinearKept (result.used.getD .empty) → joined.Within A →
        s.Collects A s' ∧ result.Within A

theorem keepsScope_case {env : Env} {pos : Nat} {scrutinee : Expr} {branches : List (Pattern × Expr)}
    (hscrutinee : KeepsScope env scrutinee) (hbranches : BranchesKeepScope env branches)
    : KeepsScope env (.case pos scrutinee branches) := by
  intro A c polarity goal r s s' h hs' hscoped
  have hdotless := hscoped.dotless
  unfold isDotless at hdotless
  have hconfined := hscoped.confined
  unfold isConfined at hconfined
  rw [Bool.and_eq_true] at hdotless hconfined
  obtain ⟨value, base, joined, used, s₁, s₂, s₃, s₄, hvalue, hbase, hjoined, hused, hused', hty, hsubst⟩ := infer_case h
  obtain ⟨hlinear, _⟩ := hscoped.linear.of_combine hused'
  obtain ⟨hlinear, hlinear'⟩ := hlinear.of_combine hused
  have hs₄ := hs'.of_reaches (combine_reaching _ _ _ hused')
  have hs₃ := hs₄.of_reaches (combine_reaching _ _ _ hused)
  have hs₂ := hs₃.of_reaches (inferBranches_reaching _ _ _ _ hjoined)
  have hs₁ := hs₂.of_reaches (baseline_reaching _ _ _ hbase)
  obtain ⟨hcollects, hvalue⟩ :=
    hscrutinee hvalue hs₁ ⟨hdotless.1, hconfined.1, hscoped.context, trivial, hscoped.nodup, hlinear'⟩
  obtain ⟨hcollects₂, hbaseWithin⟩ := (baseline_confines fun _ => hscoped.context).collects hbase hs₂
  have hexpected : ∀ ty, goal.expected? = some ty → ty.Within A := by
    intro ty hty
    obtain ⟨topLevel, rfl⟩ := Goal.eq_check_of_expected? hty
    exact hscoped.goal
  have hinfo : CaseInfo.Scoped A ⟨pos, c, polarity, value.ty, base, goal.expected?⟩ branches := {
    context := hscoped.context
    scrutinee := hvalue.ty
    baseline := hbaseWithin
    expected := hexpected
    nodup := hscoped.nodup
    linear := by
      intro x ty hx
      apply lookup?_eq_none_iff.mpr
      intro hmem
      obtain ⟨_, _, _, hgraded⟩ := lookup?_of_baseline hscoped.nodup hbase hmem
      rw [hx] at hgraded
      cases hgraded
    graded := fun x ty g hx hmem => isSome_lookup?_baseline hbase hx (List.mem_eraseDups.mpr hmem) }
  have hnone : Joined.Within A ⟨none, none⟩ := ⟨fun _ h => (nomatch h), fun _ h => nomatch h⟩
  obtain ⟨hcollects₃, hjoined⟩ := hbranches hjoined hs₃ hinfo hdotless.2 hconfined.2 hlinear hnone
  have hjoinedUsed : (joined.used.getD .empty).Within A := by
    cases hu : joined.used with
    | none => exact within_empty
    | some u => exact hjoined.used u hu
  obtain ⟨hcollects₄, hused⟩ := (combine_confines (fun _ => hjoinedUsed) (fun _ => hvalue.used)).collects hused hs₄
  obtain ⟨hcollects₅, hused'⟩ := (combine_confines (fun _ => hused) (fun _ => hbaseWithin)).collects hused' hs'
  refine ⟨(((hcollects.trans hcollects₂).trans hcollects₃).trans hcollects₄).trans hcollects₅, ?_, hused', ?_⟩
  . cases hgoal : goal.expected? with
    | some ty =>
      rw [hgoal] at hty
      cases hty
      exact hexpected r.ty hgoal
    | none =>
      rw [hgoal] at hty
      exact hjoined.ty r.ty hty
  . rw [hsubst]
    exact Substitution.typesWithin_nil

section

variable {A : String → Prop} {env : Env} {info : CaseInfo} {p : Pattern} {body : Expr} {matched : Matched}
  {used net : Context} {bodyPos : Nat} {s s' : State}

theorem lookup?_net {x : String} (h : closeBranch info p bodyPos matched used s = .ok net s')
    (hbase : info.baseline.lookup? x = none) (hmatched : matched.context.lookup? x = none)
    : net.lookup? x = used.lookup? x := by
  obtain ⟨_, rfl, _⟩ := closeBranch_eq_ok.mp h
  rw [lookup?_subtract, lookup?_subtract, hbase, hmatched]
  rfl

theorem ungraded_of_branchUsed {x : String} {previous : Option Context}
    (h : branchUsed info previous net s = .ok used s') (hx : used.Ungraded x) : net.Ungraded x := by
  unfold branchUsed at h
  cases previous with
  | none =>
    rw [pure_eq_ok] at h
    rw [h.1]
    exact hx
  | some u => exact (hx.of_join h).2

theorem linearKept_bindAll (h : closeBranch info p bodyPos matched used s = .ok net s')
    (hmatched : matched.context.names.Nodup) (hnet : info.context.LinearKept net)
    (hbase : ∀ x ty, info.context.lookup? x = some (.linear ty) → info.baseline.lookup? x = none)
    : (info.context.bindAll matched.context).LinearKept used := by
  intro x ty hx ty' g hgraded
  rw [lookup?_bindAll hmatched] at hx
  cases hpattern : matched.context.lookup? x with
  | none =>
    rw [hpattern, Option.none_or] at hx
    apply hnet x ty hx ty' g
    rw [lookup?_net h (hbase x ty hx) hpattern]
    exact hgraded
  | some a =>
    rw [hpattern] at hx
    cases hx
    obtain ⟨_, _, s₁, _, hle, _⟩ := closeBranch_eq_ok.mp h
    exact LinearKept.of_le hle x ty hpattern ty' g hgraded

-- What is left of a branch is linear, since the baseline bounds what is graded.
theorem net_within {branches : List (Pattern × Expr)} {r : Typed} {s₁ s₂ s₃ s₄ : State}
    (hmatch : p.matchTy env info.scrutinee s₁ = .ok matched s₂)
    (hbody : infer env body (info.context.bindAll matched.context) info.polarity (branchGoal info matched) s₃
      = .ok r s₄)
    (h : closeBranch info p bodyPos matched r.used s = .ok net s') (hinfo : info.Scoped A ((p, body) :: branches))
    (hnet : info.context.LinearKept net) : net.Within A := by
  have hbinds := Pattern.matchTy_binds hmatch
  have hdrawn := infer_drawnFrom env body hbody (nodup_names_bindAll hinfo.nodup _)
  have hnodup : net.names.Nodup := by
    obtain ⟨_, rfl, _⟩ := closeBranch_eq_ok.mp h
    exact nodup_names_filter (nodup_names_filter hdrawn.nodup _) _
  rintro ⟨x, a⟩ hmem
  have hx := lookup?_of_mem hnodup hmem
  obtain ⟨hused, hbase, hmatched⟩ := mem_net h (List.mem_map_of_mem hmem)
  have hcontext : (info.context.bindAll matched.context).lookup? x = info.context.lookup? x := by
    rw [lookup?_bindAll hbinds.nodup, hmatched, Option.none_or]
  obtain ⟨b, hb⟩ := Option.isSome_iff_exists.mp (isSome_lookup?_iff.mpr (hdrawn.bound x hused))
  rw [hcontext] at hb
  cases b with
  | graded ty g =>
    exfalso
    have hp : x ∉ p.boundVars := fun hp => lookup?_eq_none_iff.mp hmatched (hbinds.bound x hp)
    have hfree : x ∈ freeOccurrencesAll ((p, body) :: branches) := by
      unfold freeOccurrencesAll
      exact List.mem_append_left _ (List.mem_filter.mpr ⟨hdrawn.free x hused, by simp [hp]⟩)
    have hcovered := hinfo.graded x ty g hb hfree
    rw [hbase] at hcovered
    cases hcovered
  | linear ty =>
    cases a with
    | graded ty' g => exact absurd hx (hnet x ty hb ty' g)
    | linear ty' =>
      have huses := infer_uses (K := fun _ => True) x body hbody (fun _ _ => trivial)
      rw [lookup?_net h hbase hmatched] at hx
      have hty := (huses.keptLinear (hcontext.trans hb)).ty_eq ty' hx
      rw [hty]
      exact hinfo.context.lookup? hb

theorem closeBranch_collects (h : closeBranch info p bodyPos matched used s = .ok net s') (hs' : s'.Allows A)
    (hused : used.Within A) (hmatched : matched.context.Within A) (hbaseline : info.baseline.Within A)
    : ∃ t, s.Collects A t ∧ closeScope matched.existentials t = .ok () s' := by
  obtain ⟨_, _, s₁, s₂, hle, hle', hclose⟩ := closeBranch_eq_ok.mp h
  have hs₂ := hs'.of_typeVars_eq (State.closeScope_eq_ok hclose).1
  have hs₁ := hs₂.of_reaches (le_reaching _ _ _ hle')
  have hpattern : (used.intersect matched.context).Within A := hused.filter _
  have hcovered : (used.intersect info.baseline).Within A := hused.filter _
  have hcollects := ((le_confines (fun _ => hpattern) (fun _ => hmatched)).collects hle hs₁).1
  have hcollects' := ((le_confines (fun _ => hcovered) (fun _ => hbaseline)).collects hle' hs₂).1
  exact ⟨s₂, hcollects.trans hcollects', hclose⟩

theorem branchGoal_within (hexpected : ∀ ty, info.expected = some ty → ty.Within A)
    (hmatched : matched.subst.TypesWithin A) : (branchGoal info matched).Within A := by
  unfold branchGoal
  split
  . next expected heq => exact (hexpected expected heq).substitute hmatched
  . trivial

theorem isConfined_branchGoal (h : body.isConfined env info.expected = true)
    : body.isConfined env (branchGoal info matched).expected? = true := by
  unfold branchGoal
  cases hexpected : info.expected with
  | none =>
    rw [hexpected] at h
    exact h
  | some expected =>
    rw [hexpected] at h
    exact isConfined_mono body h (Ty.outlines_substitute expected _)

-- The type that is synthesized for a branch does not mention what its pattern binds.
theorem synthesized_within {ty : Ty} {c : Context} {polarity : Polarity} {r : Typed} {s₁ s₂ s₃ s₄ : State}
    (henv : env.IsDotless) (hmatch : p.matchTy env ty s₁ = .ok matched s₂) (hs₂ : s₂.Allows A)
    (hbody : infer env body c polarity .synthesize s₃ = .ok r s₄) (hs₄ : s₄.Allows A)
    (hconfined : (p.isIndexFree env || body.isGround) = true) (hdotless : body.isDotless = true)
    (hr : r.ty.Within fun y => A y ∨ y ∈ matched.existentials.map (·.1)) : r.ty.Within A := by
  rw [Bool.or_eq_true] at hconfined
  cases hconfined with
  | inl hindexFree =>
    have hexistentials := Pattern.existentials_of_isIndexFree henv p hmatch hs₂ hindexFree
    refine hr.mono ?_
    rintro y (hy | hy)
    . exact hy
    . obtain ⟨b, hb, rfl⟩ := List.mem_map.mp hy
      exact hexistentials b hb
  | inr hground => exact infer_ground henv body hbody hs₄ hground hdotless

end

theorem branchesKeepScope_nil {env : Env} : BranchesKeepScope env [] := by
  intro A info joined result s s' h hs' hinfo hdotless hconfined hlinear hjoined
  unfold inferBranches at h
  rw [pure_eq_ok] at h
  obtain ⟨rfl, rfl⟩ := h
  exact ⟨.refl, hjoined⟩

theorem branchesKeepScope_cons {env : Env} (henv : env.IsDotless) {p : Pattern} {body : Expr}
    {branches : List (Pattern × Expr)} (hbody : KeepsScope env body) (hbranches : BranchesKeepScope env branches)
    : BranchesKeepScope env ((p, body) :: branches) := by
  intro A info joined result s s' h hs' hinfo hdotless hconfined hlinear hjoined
  unfold areDotless at hdotless
  unfold areConfined at hconfined
  rw [Bool.and_eq_true] at hdotless hconfined
  rw [Bool.and_eq_true] at hconfined
  obtain ⟨matched, typed, ty, net, used, s₁, s₂, s₃, s₄, s₅, s₆, s₇, hopen, hmatch, henter, htyped, hty, hclose, hused,
    h⟩ := inferBranches_cons h
  have hbinds := Pattern.matchTy_binds hmatch
  have hs₇ := hs'.of_reaches (inferBranches_reaching _ _ _ _ h)
  have hs₆ := hs₇.of_reaches (branchUsed_reaching _ _ _ hused)
  have hs₅ := hs₆.of_closeBranch hclose
  have hs₄ := hs₅.of_reaches (branchTy_reaching _ _ _ _ _ hty)
  have hs₃ := hs₄.of_reaches (infer_reaching _ _ _ _ _ htyped)
  have hs₂ := hs₃.of_typeVars_eq (State.enterConsequent_eq_ok henter).1
  -- What is left of the branch keeps the linear variables, since all branches together do.
  have hnet : info.context.LinearKept net := by
    intro x ty hx
    obtain ⟨u, hu, hungraded⟩ := inferBranches_ungraded h
    have hlinear := hlinear x ty hx
    rw [hu] at hlinear
    exact ungraded_of_branchUsed hused (hungraded x hlinear)
  -- Inside of the branch, the variables of the pattern are in scope too.
  let B := fun y => A y ∨ y ∈ matched.existentials.map (·.1)
  have hAB : ∀ y, A y → B y := fun _ => .inl
  have hB : ∀ b ∈ matched.existentials, B b.1 := fun b hb => .inr (List.mem_map_of_mem hb)
  obtain ⟨hantecedent, hmatched⟩ := Pattern.matchTy_within henv p hmatch (hs₂.mono hAB) hB (hinfo.scrutinee.mono hAB)
  have hscoped : Scoped env B body (info.context.bindAll matched.context) (branchGoal info matched) typed.used := {
    dotless := hdotless.1
    confined := isConfined_branchGoal hconfined.1.2
    context := (hinfo.context.mono hAB).bindAll hmatched.1
    goal := branchGoal_within (fun ty hty => (hinfo.expected ty hty).mono hAB) hmatched.2
    nodup := nodup_names_bindAll hinfo.nodup _
    linear := linearKept_bindAll hclose hbinds.nodup hnet hinfo.linear }
  obtain ⟨hconsequent, htypedWithin⟩ := hbody htyped (hs₄.mono hAB) hscoped
  have htypedTy : info.expected = none → typed.ty.Within A := by
    intro hexpected
    have hgoal : branchGoal info matched = .synthesize := by
      unfold branchGoal
      rw [hexpected]
    have hescape := hconfined.1.1
    rw [hexpected, Option.isSome_none, Bool.false_or] at hescape
    rw [hgoal] at htyped
    exact synthesized_within henv hmatch hs₂ htyped hs₄ hescape hdotless.1 htypedWithin.ty
  obtain ⟨hconsequent₂, hty⟩ := (branchTy_confines (fun _ => hjoined.ty) (fun _ => htypedTy)).collects hty hs₅
  have hnetWithin := net_within hmatch htyped hclose hinfo hnet
  obtain ⟨t, hconsequent₃, hcloseScope⟩ :=
    closeBranch_collects hclose (hs₆.mono hAB) htypedWithin.used hmatched.1 (hinfo.baseline.mono hAB)
  have hinside := (hconsequent.trans (hconsequent₂.mono hAB)).trans hconsequent₃
  have hbranch : s.Collects A s₆ := .imply hopen hantecedent henter hinside hcloseScope fun _ hy => hy
  obtain ⟨hcollects, hused⟩ := (branchUsed_confines (fun _ => hjoined.used) (fun _ => hnetWithin)).collects hused hs₇
  have hjoined' : Joined.Within A ⟨ty, some used⟩ := {
    ty := hty
    used := by
      rintro _ ⟨⟩
      exact hused }
  obtain ⟨hcollects', hresult⟩ := hbranches h hs' hinfo.tail hdotless.2 hconfined.2 hlinear hjoined'
  exact ⟨(hbranch.trans hcollects).trans hcollects', hresult⟩

mutual

theorem keepsScope {env : Env} (henv : env.IsDotless) (e : Expr) : KeepsScope env e := by
  cases e with
  | int pos n => exact keepsScope_int n
  | float pos x => exact keepsScope_float x
  | var pos name => exact keepsScope_var henv name
  | constructor pos name => exact keepsScope_constructor henv name
  | lam pos b declared body => exact keepsScope_lam (keepsScope henv body)
  | app pos f a => exact keepsScope_app (keepsScope henv f) (keepsScope henv a)
  | promote pos e => exact keepsScope_promote (keepsScope henv e)
  | lift pos e => exact keepsScope_lift (keepsScope henv e)
  | binop pos op a b => exact keepsScope_binop henv (keepsScope henv a) (keepsScope henv b)
  | pair pos a b => exact keepsScope_pair (keepsScope henv a) (keepsScope henv b)
  | case pos scrutinee branches =>
    exact keepsScope_case (keepsScope henv scrutinee) (branchesKeepScope henv branches)
  | letDiamond pos b declared value rest =>
    exact keepsScope_letDiamond (keepsScope henv value) (keepsScope henv rest)
  | letBox pos b ty value rest => exact keepsScope_letBox (keepsScope henv value) (keepsScope henv rest)

theorem branchesKeepScope {env : Env} (henv : env.IsDotless) (branches : List (Pattern × Expr))
    : BranchesKeepScope env branches := by
  cases branches with
  | nil => exact branchesKeepScope_nil
  | cons branch branches =>
    obtain ⟨p, body⟩ := branch
    exact branchesKeepScope_cons henv (keepsScope henv body) (branchesKeepScope henv branches)

end

end Expr
end GradedModal
