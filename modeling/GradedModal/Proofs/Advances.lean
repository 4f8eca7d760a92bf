import GradedModal.Proofs.Kinds

/-!
This module contains the steps that checking consists of. Each constraint is collected right after the kinds of its two
sides were inferred and unified, so wherever the knowledge about kinds has no cycles, both sides have the kind of the
constraint.
-/

namespace GradedModal

open CheckM

/--
Checking advances by steps that collect nothing, by constraints whose sides have one kind, and by implications whose
parts are collected in the same way.
-/
inductive State.Advances : State → State → Prop where
  | refl {s : State} : s.Advances s
  | quiet {s s₁ s₂ : State} : s.Advances s₁ → s₁.ReachesQuietly s₂ → s.Advances s₂
  | constrain {s s₁ s₂ : State} {c : Constraint} :
    s.Advances s₁ → (s.IsAcyclic → c.IsKinded s₁) → constrain c s₁ = .ok () s₂ → s.Advances s₂
  | imply {s s₁ s₂ s₃ s₄ s₅ s₆ : State} {bound : List (String × Kind)} :
    s.Advances s₁ → openScope s₁ = .ok () s₂ → s₂.Advances s₃ → enterConsequent s₃ = .ok () s₄ →
      s₄.Advances s₅ → closeScope bound s₅ = .ok () s₆ → s.Advances s₆

namespace State.Advances

variable {s s₁ s₂ : State}

theorem reaches (h : s.Advances s₁) : s.Reaches s₁ := by
  induction h with
  | refl => exact .refl
  | quiet _ h ih => exact ih.trans h.reaches
  | constrain _ _ h ih => exact .constrain ih h
  | imply _ hopen _ henter _ hclose ih ihantecedent ihconsequent =>
    exact .imply ih hopen ihantecedent henter ihconsequent hclose

theorem trans (h₁ : s.Advances s₁) (h₂ : s₁.Advances s₂) : s.Advances s₂ := by
  induction h₂ with
  | refl => exact h₁
  | quiet _ h ih => exact .quiet (ih h₁) h
  | constrain _ hc h ih => exact .constrain (ih h₁) (fun hs => hc (hs.of_reaches h₁.reaches)) h
  | imply _ hopen h₂ henter h₃ hclose ih _ _ => exact .imply (ih h₁) hopen h₂ henter h₃ hclose

theorem of_quiet (h : s.ReachesQuietly s₁) : s.Advances s₁ :=
  .quiet .refl h

end State.Advances

instance : Std.Refl State.Advances where
  refl _ := .refl

instance : Trans State.Advances State.Advances State.Advances where
  trans := .trans

abbrev CheckM.Advancing {α : Type} (x : CheckM α) : Prop :=
  Along State.Advances x

theorem CheckM.Quiet.advancing {α : Type} {x : CheckM α} (hx : Quiet x) : Advancing x :=
  fun _ _ _ h => .of_quiet (hx h)

theorem CheckM.Advancing.reaching {α : Type} {x : CheckM α} (hx : Advancing x) : Reaching x :=
  fun _ _ _ h => (hx h).reaches

section

variable {α : Type} {pos : Nat} {g g' : Grade}

theorem Context.commonKind_bind (f : GradeKind → CheckM α)
    : (do
        let k ← g.inferKind pos
        let k' ← g'.inferKind pos
        let kind ← GradeKind.unify pos k k'
        f kind) = commonKind pos g g' >>= f := by
  simp only [commonKind, bind_assoc]

theorem Context.compare_advancing (pos : Nat) (relation : Relation) (g g' : Grade)
    : Advancing (do
        let kind ← commonKind pos g g'
        constrain ⟨pos, relation, g, g', kind⟩) := by
  intro s s' a h
  rw [bind_eq_ok] at h
  obtain ⟨kind, s₁, hkind, hconstrain⟩ := h
  have hs₁ := commonKind_quiet _ _ _ hkind
  exact .constrain (.of_quiet hs₁) (fun hs => isOfKind_commonKind hs hkind) hconstrain

theorem Context.bound_advancing {hint : String} {f : Grade → CheckM α} (hf : ∀ upper, Advancing (f upper))
    : Advancing (do
        let kind ← commonKind pos g g'
        let upper ← freshGrade hint kind
        constrain (.le pos g upper kind)
        constrain (.le pos g' upper kind)
        f upper) := by
  intro s s' a h
  simp only [bind_eq_ok] at h
  obtain ⟨kind, s₁, hkind, upper, s₂, hupper, _, s₃, hle, _, s₄, hle', h⟩ := h
  have hs₁ := commonKind_quiet _ _ _ hkind
  have hs₂ := quiet_freshGrade _ _ hupper
  have hs₃ := reaching_constrain _ hle
  have hg : s.IsAcyclic → g.IsOfKind s₂ kind ∧ g'.IsOfKind s₂ kind := by
    intro hs
    obtain ⟨hg, hg'⟩ := isOfKind_commonKind hs hkind
    have hacyclic := hs.of_reaches hs₁.reaches
    exact ⟨hg.of_reaches hacyclic hs₂.reaches, hg'.of_reaches hacyclic hs₂.reaches⟩
  have hfresh := Grade.isOfKind_freshGrade hupper
  refine .trans (.constrain (.constrain (.of_quiet (Trans.trans hs₁ hs₂)) ?_ hle) ?_ hle') (hf upper h)
  . intro hs
    exact ⟨(hg hs).1, hfresh⟩
  . intro hs
    have hacyclic := hs.of_reaches (hs₁.reaches.trans hs₂.reaches)
    exact ⟨(hg hs).2.of_reaches hacyclic hs₃, hfresh.of_reaches hacyclic hs₃⟩

end

namespace Unify

theorem vars_advancing (pos : Nat) (left right : String) : Advancing (vars pos left right) := by
  intro s s' u h
  unfold vars at h
  rw [bind_eq_ok] at h
  obtain ⟨l, _, hl, h⟩ := h
  obtain ⟨hlmem, hlname, rfl⟩ := typeVar_eq_ok hl
  rw [bind_eq_ok] at h
  obtain ⟨r, _, hr, h⟩ := h
  obtain ⟨hrmem, hrname, rfl⟩ := typeVar_eq_ok hr
  split at h
  . exact closed_along.pure _ h
  . dsimp only at h
    generalize hk : l.kind = lkind at h
    generalize hk' : r.kind = rkind at h
    split at h
    . next k k' =>
      simp only [bind_eq_ok, pure_eq_ok] at h
      obtain ⟨kind, s₁, hunify, _, s₂, hconstrain, _, rfl⟩ := h
      refine .constrain (.of_quiet (GradeKind.unify_quiet _ _ _ hunify)) (fun hs => ?_) hconstrain
      obtain ⟨hl, hr⟩ := Grade.isOfKind_unify hs (Grade.isOfKind_var hlmem hk rfl) (Grade.isOfKind_var hrmem hk' rfl)
        hunify
      rw [hlname] at hl
      rw [hrname] at hr
      -- Whichever variable is solved, both have the kind.
      unfold Constraint.IsKinded Constraint.eq
      split
      . exact ⟨hr, hl⟩
      . exact ⟨hl, hr⟩
    . exact closed_along.bind (closed_along.map (Kind.unify_quiet _ _ _).advancing) (fun _ => closed_along.pure _) h

theorem var_advancing (env : Env) (pos : Nat) (name : String) (ty left : Ty)
    : Advancing (var env pos name ty left) := by
  intro s s' u h
  unfold var at h
  rw [bind_eq_ok] at h
  obtain ⟨v, _, hv, h⟩ := h
  obtain ⟨hmem, hname, rfl⟩ := typeVar_eq_ok hv
  rw [bind_eq_ok] at h
  obtain ⟨tyKind, s₁, hty, h⟩ := h
  have hs₁ := Ty.inferKind_quiet _ _ _ hty
  dsimp only at h
  generalize hk : v.kind = vkind at h
  split at h
  . next k k' =>
    rw [bind_eq_ok] at h
    obtain ⟨kind, s₂, hunify, h⟩ := h
    have hs₂ := GradeKind.unify_quiet _ _ _ hunify
    generalize hg : ty.toGrade? = g at h
    split at h
    . next g =>
      simp only [bind_eq_ok, pure_eq_ok] at h
      obtain ⟨_, s₃, hconstrain, _, rfl⟩ := h
      refine .constrain (.of_quiet (Trans.trans hs₁ hs₂)) (fun hs => ?_) hconstrain
      have hvar := (Grade.isOfKind_var hmem hk rfl).of_reaches hs hs₁.reaches
      rw [hname] at hvar
      exact Grade.isOfKind_unify (hs.of_reaches hs₁.reaches) hvar (Ty.isOfKind_inferKind hs hty hg) hunify
    . rw [bind_eq_ok] at h
      obtain ⟨_, _, h, _⟩ := h
      rw [fail_eq_ok] at h
      exact h.elim
  . refine .trans (.of_quiet hs₁) (Closed.ite (P := fun _ => Advancing) ?_ ?_ h)
    . exact closed_along.bind (closed_along.fail _ _) fun _ => closed_along.pure _
    . exact closed_along.bind (closed_along.map (Kind.unify_quiet _ _ _).advancing) fun _ => closed_along.pure _

theorem indices_advancing (env : Env) (pos : Nat) (left right : Ty)
    : Advancing (indices env pos left right) := by
  intro s s' u h
  unfold indices at h
  rw [bind_eq_ok] at h
  obtain ⟨leftKind, s₁, hleft, h⟩ := h
  rw [bind_eq_ok] at h
  obtain ⟨rightKind, s₂, hright, h⟩ := h
  have hs₁ := Ty.inferKind_quiet _ _ _ hleft
  have hs₂ := Ty.inferKind_quiet _ _ _ hright
  generalize hg : left.toGrade? = g at h
  generalize hg' : right.toGrade? = g' at h
  split at h
  . next k k' g g' =>
    simp only [bind_eq_ok, pure_eq_ok] at h
    obtain ⟨kind, s₃, hunify, _, s₄, hconstrain, _, rfl⟩ := h
    have hs₃ := GradeKind.unify_quiet _ _ _ hunify
    refine .constrain (.of_quiet (Trans.trans (Trans.trans hs₁ hs₂) hs₃)) (fun hs => ?_) hconstrain
    have hacyclic := hs.of_reaches hs₁.reaches
    exact Grade.isOfKind_unify (hacyclic.of_reaches hs₂.reaches)
      ((Ty.isOfKind_inferKind hs hleft hg).of_reaches hacyclic hs₂.reaches) (Ty.isOfKind_inferKind hacyclic hright hg')
      hunify
  . rw [fail_eq_ok] at h
    exact h.elim

end Unify

namespace Context

def useOrWeaken (pos : Nat) (own other : Option Assumption) : CheckM (Option Assumption) :=
  match own with
  | some a => pure (some a)
  | none => weaken pos other

def joinUses (pos : Nat) (x : String) : Option Assumption → Option Assumption → CheckM (Option Assumption)
  | none, _ => return none
  | _, none => return none
  | some (.linear ty), some (.linear _) => return some (.linear ty)
  | some (.graded ty g), some (.graded _ h) => do
    let kind ← commonKind pos g h
    let upper ← freshGrade x kind
    constrain (.le pos g upper kind)
    constrain (.le pos h upper kind)
    return some (.graded ty upper)
  | _, _ => fail pos (.linearity [x] .mixed)

theorem joinVar_eq (pos : Nat) (left right : Context) (x : String)
    : joinVar pos left right x = (do
        let l ← useOrWeaken pos (left.lookup? x) (right.lookup? x)
        let r ← useOrWeaken pos (right.lookup? x) (left.lookup? x)
        joinUses pos x l r) := by
  unfold joinVar
  unfold useOrWeaken
  cases left.lookup? x with
  | none | some a =>
    cases right.lookup? x with
    | none => rfl
    | some b => rfl

end Context

/--
What is demanded of a box, given what is used of its content. Where nothing is used, the grade of the content is zero.
-/
def Expr.boxDemand (pos : Nat) (kind : GradeKind) (grade : Grade) : Option Assumption → CheckM Grade
  | some (.graded _ usage) => return usage
  | some (.linear _) => return .one kind
  | none => do
    constrain (.eq pos grade (.zero kind) kind)
    return grade

/--
In addition, checks have the property that add constraints, each of them once the kinds of its sides are known, and
implications.
-/
structure CheckM.ClosedThroughout (P : (α : Type) → CheckM α → Prop) : Prop extends ClosedQuietly P where
  compare (pos : Nat) (relation : Relation) (g g' : Grade) : P Unit (do
    let kind ← Context.commonKind pos g g'
    constrain ⟨pos, relation, g, g', kind⟩)
  bound {α : Type} {pos : Nat} {hint : String} {g g' : Grade} {f : Grade → CheckM α} :
    (∀ upper, P α (f upper)) → P α (do
      let kind ← Context.commonKind pos g g'
      let upper ← freshGrade hint kind
      constrain (.le pos g upper kind)
      constrain (.le pos g' upper kind)
      f upper)
  vars (pos : Nat) (left right : String) : P Unified (Unify.vars pos left right)
  var (env : Env) (pos : Nat) (name : String) (ty left : Ty) : P Unified (Unify.var env pos name ty left)
  indices (env : Env) (pos : Nat) (left right : Ty) : P Unified (Unify.indices env pos left right)
  joinVars {env : Env} {pos : Nat} {left right : String} :
    P Ty (Ty.joinByEquality env pos (.var left) (.var right)) → P Ty (Ty.join env pos (.var left) (.var right))
  successor {α : Type} {pos : Nat} {f : String → String → CheckM α} : (∀ size result, P α (f size result)) → P α (do
    let size ← CheckM.freshTypeVar "n" (.grade .nat) .instantiated
    let result ← CheckM.freshTypeVar "m" (.grade .nat) .instantiated
    constrain (.eq pos (.var result) (.op .plus (.var size) (.nat 1)) .nat)
    f size result)
  unbox {α β : Type} {pos : Nat} {hint : String} {x : Grade → CheckM α} {used : α → Option Assumption}
    {f : α → Grade → CheckM β} : (∀ grade, P α (x grade)) → (∀ a demand, P β (f a demand)) → P β (do
      let kind ← freshGradeKind "k"
      let grade ← freshGrade hint kind
      let a ← x grade
      let demand ← Expr.boxDemand pos kind grade (used a)
      f a demand)
  imply {α β : Type} {x : CheckM α} {y : α → CheckM β} {bound : α → List (String × Kind)} :
    P α x → (∀ a, P β (y a)) → P β (do
      openScope
      let a ← x
      enterConsequent
      let b ← y a
      closeScope (bound a)
      return b)

section

variable {P : (α : Type) → CheckM α → Prop}

theorem Unify.merge_closed (hP : Closed P) {equal : Ty → Ty → CheckM Unified} (hequal : ∀ l r, P Unified (equal l r))
    (pos : Nat) (first second : Substitution) : P Substitution (merge equal pos first second) := by
  fun_induction merge equal pos first second with
  | case1 first => exact hP.pure _
  | case2 first name ty second hlookup ih => exact ih
  | case3 first name ty second known hlookup ih =>
    apply hP.bind (hequal _ _)
    intro unified
    exact Closed.ite ih (hP.fail _ _)

variable (hP : ClosedThroughout P)
include hP

theorem Unify.relate_closed (env : Env) (pos depth : Nat) (relation : Relation) (left right : Ty)
    : P Unified (relate env pos depth relation left right) := by
  induction depth generalizing relation left right with
  | zero =>
    unfold relate
    exact hP.fail _ _
  | succ depth ih =>
    have hmerge := merge_closed hP.toClosed (ih .eq) pos
    have hpair : ∀ a b a' b', P _ (relate.relatePair env pos depth relation a b a' b') := by
      intro a b a' b'
      unfold relate.relatePair
      apply hP.bind (ih _ _ _)
      intro first
      apply hP.bind (ih _ _ _)
      intro second
      exact hP.bind (hmerge _ _) fun _ => hP.pure _
    unfold relate
    split
    . apply hP.bind (ih _ _ _)
      intro args
      apply hP.bind (ih _ _ _)
      intro results
      exact hP.bind (hmerge _ _) fun _ => hP.pure _
    . exact hP.pure _
    . apply hP.bind (ih _ _ _)
      intro inner
      exact Closed.ite (hP.pure _) (hP.fail _ _)
    . rw [Context.commonKind_bind, ← bind_assoc]
      apply hP.bind (hP.compare _ _ _ _)
      intro _
      exact hP.bind (ih _ _ _) fun _ => hP.pure _
    . exact hP.bind (hpair _ _ _ _) fun _ => hP.pure _
    . exact hP.bind (hpair _ _ _ _) fun _ => hP.pure _
    . apply Closed.ite
      . exact hP.bind (hP.map (hP.typeVar _ _)) fun _ => hP.pure _
      . exact hP.vars _ _ _
    . exact hP.var _ _ _ _ _
    . exact hP.var _ _ _ _ _
    . exact hP.indices _ _ _ _

theorem Ty.relate_closed (env : Env) (pos : Nat) (relation : Relation) (left right : Ty)
    : P Unified (left.relate env pos relation right) :=
  Unify.relate_closed hP _ _ _ _ _ _

theorem Substitution.combine_closed (env : Env) (pos : Nat) (first second : Substitution)
    : P Substitution (Substitution.combine env pos first second) :=
  Unify.merge_closed hP.toClosed (Ty.relate_closed hP env pos .eq) _ _ _

theorem Ty.joinByEquality_closed (env : Env) (pos : Nat) (left right : Ty)
    : P Ty (left.joinByEquality env pos right) := by
  unfold joinByEquality
  apply hP.bind (relate_closed hP _ _ _ _ _)
  intro unified
  refine Closed.ite (hP.fail _ _) ?_
  split
  . exact hP.pure _
  . exact hP.pure _

theorem Ty.join_closed (env : Env) (pos : Nat) (left right : Ty) : P Ty (left.join env pos right) := by
  have hequality := joinByEquality_closed hP env pos
  fun_induction join env pos left right with
  | case2 => exact hP.pure _
  | case3 | case14 => exact hP.fail _ _
  | case4 effects ty effects' ty' ih =>
    apply hP.bind ih
    intro inner
    exact Closed.ite (hP.pure _) (Closed.ite (hP.pure _) (hP.fail _ _))
  | case5 grade ty grade' ty' ih =>
    rw [Context.commonKind_bind]
    exact hP.bound fun _ => hP.bind ih fun _ => hP.pure _
  | case1 a b a' b' iha ihb | case6 a b a' b' iha ihb | case7 a b a' b' iha ihb =>
    exact hP.bind iha fun _ => hP.bind ihb fun _ => hP.pure _
  | case9 left right hne =>
    have hjoin := hP.joinVars (hequality (.var left) (.var right))
    unfold join at hjoin
    rw [if_neg hne] at hjoin
    exact hjoin
  | case8 | case10 | case11 | case12 | case13 => exact hequality _ _

namespace Context

theorem leAssumption_closed (pos : Nat) (x : String) (a : Assumption) (b : Option Assumption)
    : P Unit (leAssumption pos x a b) := by
  unfold leAssumption
  split
  . exact hP.pure _
  . exact hP.pure _
  . exact hP.compare _ _ _ _
  . exact hP.fail _ _

theorem le_closed (pos : Nat) (left right : Context) : P Unit (le pos left right) :=
  hP.forM fun _ => leAssumption_closed hP _ _ _ _

theorem joinVar_closed (pos : Nat) (left right : Context) (x : String)
    : P (Option Assumption) (joinVar pos left right x) := by
  have huse : ∀ own other, P (Option Assumption) (useOrWeaken pos own other) := by
    intro own other
    unfold useOrWeaken
    split
    . exact hP.pure _
    . exact weaken_closed hP.toClosedQuietly _ _
  rw [joinVar_eq]
  apply hP.bind (huse _ _)
  intro l
  apply hP.bind (huse _ _)
  intro r
  unfold joinUses
  split
  . exact hP.pure _
  . exact hP.pure _
  . exact hP.pure _
  . exact hP.bound fun _ => hP.pure _
  . exact hP.fail _ _

theorem join_closed (pos : Nat) (left right : Context) : P Context (left.join pos right) := by
  unfold join
  refine hP.bind (hP.mapM ?_) fun _ => hP.pure _
  intro x
  exact hP.bind (joinVar_closed hP _ _ _ _) fun _ => hP.pure _

end Context

theorem Matched.merge_closed (env : Env) (pos : Nat) (left right : Matched)
    : P Matched (left.merge env pos right) := by
  unfold Matched.merge
  apply hP.bind (Context.combine_closed hP.toClosedQuietly _ _ _)
  intro context
  exact hP.bind (Substitution.combine_closed hP _ _ _ _) fun _ => hP.pure _

theorem Pattern.matchLiteral_closed (env : Env) (p : Pattern) (ty : Ty) (expected : String)
    : P Matched (p.matchLiteral env ty expected) := by
  unfold matchLiteral
  apply hP.bind (hP.mapError (Ty.relate_closed hP _ _ _ _ _))
  intro unified
  exact Closed.ite (hP.pure _) (hP.fail _ _)

mutual

theorem Pattern.matchTy_closed (env : Env) (p : Pattern) (ty : Ty) : P Matched (p.matchTy env ty) := by
  cases p with
  | var pos name =>
    unfold matchTy
    exact hP.pure _
  | wildcard pos =>
    unfold matchTy
    exact hP.bind (hP.freshName _) fun _ => hP.pure _
  | int pos n | float pos x =>
    unfold matchTy
    exact matchLiteral_closed hP _ _ _ _
  | box pos inner =>
    unfold matchTy
    split
    . exact hP.bind (Pattern.matchTy_closed env inner _) fun _ => hP.pure _
    . exact hP.fail _ _
  | pair pos a b =>
    unfold matchTy
    split
    . apply hP.bind (Pattern.matchTy_closed env a _)
      intro left
      exact hP.bind (Pattern.matchTy_closed env b _) fun _ => Matched.merge_closed hP _ _ _ _
    . exact hP.fail _ _
  | constructor pos name args =>
    unfold matchTy
    split
    . exact hP.fail _ _
    . apply hP.bind (Scheme.refresh_closed hP.toClosedQuietly _ _)
      rintro ⟨existentials, constructorTy⟩
      refine hP.guard ?_
      apply hP.bind (Ty.relate_closed hP _ _ _ _ _)
      intro unified
      exact hP.guard (Pattern.matchArgs_closed env pos args _ _)

theorem Pattern.matchArgs_closed (env : Env) (pos : Nat) (ps : List Pattern) (tys : List Ty) (matched : Matched)
    : P Matched (matchArgs env pos ps tys matched) := by
  cases ps with
  | nil =>
    unfold matchArgs
    exact hP.pure _
  | cons p ps =>
    cases tys with
    | nil =>
      unfold matchArgs
      exact hP.pure _
    | cons ty tys =>
      unfold matchArgs
      apply hP.bind (Pattern.matchTy_closed env p _)
      intro arg
      exact hP.bind (Matched.merge_closed hP _ _ _ _) fun _ => Pattern.matchArgs_closed env pos ps tys _

end

end

theorem joinVars_advancing {env : Env} {pos : Nat} {left right : String}
    (hequality : Advancing (Ty.joinByEquality env pos (.var left) (.var right)))
    : Advancing (Ty.join env pos (.var left) (.var right)) := by
  intro s s' ty h
  unfold Ty.join at h
  split at h
  . exact hequality h
  . rw [bind_eq_ok] at h
    obtain ⟨l, _, hl, h⟩ := h
    obtain ⟨hlmem, hlname, rfl⟩ := typeVar_eq_ok hl
    rw [bind_eq_ok] at h
    obtain ⟨r, _, hr, h⟩ := h
    obtain ⟨hrmem, hrname, rfl⟩ := typeVar_eq_ok hr
    generalize hk : l.kind = lkind at h
    generalize hk' : r.kind = rkind at h
    split at h
    . next k k' =>
      simp only [bind_eq_ok, pure_eq_ok] at h
      obtain ⟨kind, s₁, hunify, _, s₂, hconstrain, _, rfl⟩ := h
      refine .constrain (.of_quiet (GradeKind.unify_quiet _ _ _ hunify)) (fun hs => ?_) hconstrain
      rw [← hlname, ← hrname]
      exact Grade.isOfKind_unify hs (Grade.isOfKind_var hlmem hk rfl) (Grade.isOfKind_var hrmem hk' rfl) hunify
    . exact hequality h

section

variable {α β : Type} {pos : Nat}

theorem successor_advancing {f : String → String → CheckM α} (hf : ∀ size result, Advancing (f size result))
    : Advancing (do
        let size ← freshTypeVar "n" (.grade .nat) .instantiated
        let result ← freshTypeVar "m" (.grade .nat) .instantiated
        constrain (.eq pos (.var result) (.op .plus (.var size) (.nat 1)) .nat)
        f size result) := by
  intro s s' a h
  simp only [bind_eq_ok] at h
  obtain ⟨size, s₁, hsize, result, s₂, hresult, _, s₃, hconstrain, h⟩ := h
  have hs₁ := quiet_freshTypeVar _ _ _ hsize
  have hs₂ := quiet_freshTypeVar _ _ _ hresult
  have hs₃ : s.Advances s₃ := by
    refine .constrain (.of_quiet (Trans.trans hs₁ hs₂)) (fun hs => ?_) hconstrain
    have hsize := (Grade.isOfKind_freshTypeVar hsize).of_reaches (hs.of_reaches hs₁.reaches) hs₂.reaches
    exact ⟨Grade.isOfKind_freshTypeVar hresult, Grade.isOfKind_op hsize (Grade.isOfKind_of_literal rfl rfl rfl)⟩
  exact hs₃.trans (hf size result h)

theorem unbox_advancing {hint : String} {x : Grade → CheckM α} {used : α → Option Assumption}
    {f : α → Grade → CheckM β} (hx : ∀ grade, Advancing (x grade)) (hf : ∀ a demand, Advancing (f a demand))
    : Advancing (do
        let kind ← freshGradeKind "k"
        let grade ← freshGrade hint kind
        let a ← x grade
        let demand ← Expr.boxDemand pos kind grade (used a)
        f a demand) := by
  intro s s' b h
  simp only [bind_eq_ok] at h
  obtain ⟨kind, s₁, hkind, grade, s₂, hgrade, a, s₃, ha, demand, s₄, hdemand, h⟩ := h
  have hs₂ := ((quiet_freshGradeKind _).advancing hkind).trans ((quiet_freshGrade _ _).advancing hgrade)
  have hs₃ := hx grade ha
  have hs₄ : s.Advances s₄ := by
    generalize used a = u at hdemand
    unfold Expr.boxDemand at hdemand
    split at hdemand
    . exact (hs₂.trans hs₃).trans (closed_along.pure _ hdemand)
    . exact (hs₂.trans hs₃).trans (closed_along.pure _ hdemand)
    . simp only [bind_eq_ok, pure_eq_ok] at hdemand
      obtain ⟨_, _, hconstrain, _, rfl⟩ := hdemand
      refine .constrain (hs₂.trans hs₃) (fun hs => ⟨?_, Grade.isOfKind_of_literal rfl rfl rfl⟩) hconstrain
      exact (Grade.isOfKind_freshGrade hgrade).of_reaches (hs.of_reaches hs₂.reaches) hs₃.reaches
  exact hs₄.trans (hf a demand h)

theorem imply_advancing {x : CheckM α} {y : α → CheckM β} {bound : α → List (String × Kind)} (hx : Advancing x)
    (hy : ∀ a, Advancing (y a))
    : Advancing (do
        openScope
        let a ← x
        enterConsequent
        let b ← y a
        closeScope (bound a)
        return b) := by
  intro s s' b h
  simp only [bind_eq_ok, pure_eq_ok] at h
  obtain ⟨_, s₁, hopen, a, s₂, ha, _, s₃, henter, b, s₄, hb, _, s₅, hclose, rfl, rfl⟩ := h
  exact .imply .refl hopen (hx ha) henter (hy a hb) hclose

end

theorem CheckM.closedThroughout_advancing : ClosedThroughout (fun _ => Advancing) where
  toClosed := closed_along
  freshName _ := (quiet_freshName _).advancing
  freshTypeVar _ _ _ := (quiet_freshTypeVar _ _ _).advancing
  unify _ _ _ := (GradeKind.unify_quiet _ _ _).advancing
  compare := Context.compare_advancing
  bound := Context.bound_advancing
  vars := Unify.vars_advancing
  var := Unify.var_advancing
  indices := Unify.indices_advancing
  joinVars := joinVars_advancing
  successor := successor_advancing
  unbox := unbox_advancing
  imply := imply_advancing

namespace Unify

theorem merge_advancing {equal : Ty → Ty → CheckM Unified} (hequal : ∀ l r, Advancing (equal l r))
    (pos : Nat) (first second : Substitution) : Advancing (merge equal pos first second) :=
  merge_closed closed_along hequal _ _ _

theorem relate_advancing (env : Env) (pos depth : Nat) (relation : Relation) (left right : Ty)
    : Advancing (relate env pos depth relation left right) :=
  relate_closed closedThroughout_advancing _ _ _ _ _ _

end Unify

namespace Ty

theorem equal_reaching (env : Env) (pos : Nat) (left right : Ty) : Reaching (left.equal env pos right) :=
  (Unify.relate_advancing _ _ _ _ _ _).reaching

theorem joinByEquality_advancing (env : Env) (pos : Nat) (left right : Ty)
    : Advancing (left.joinByEquality env pos right) :=
  joinByEquality_closed closedThroughout_advancing _ _ _ _

theorem join_advancing (env : Env) (pos : Nat) (left right : Ty) : Advancing (left.join env pos right) :=
  join_closed closedThroughout_advancing _ _ _ _

end Ty

theorem Substitution.combine_reaching (env : Env) (pos : Nat) (first second : Substitution)
    : Reaching (Substitution.combine env pos first second) :=
  (Unify.merge_advancing (Unify.relate_advancing env pos Unify.maxDepth .eq) _ _ _).reaching

namespace Context

theorem leAssumption_reaching (pos : Nat) (x : String) (a : Assumption) (b : Option Assumption)
    : Reaching (leAssumption pos x a b) :=
  Advancing.reaching (leAssumption_closed closedThroughout_advancing _ _ _ _)

theorem le_advancing (pos : Nat) (left right : Context) : Advancing (le pos left right) :=
  le_closed closedThroughout_advancing _ _ _

theorem le_reaching (pos : Nat) (left right : Context) : Reaching (le pos left right) :=
  (le_advancing _ _ _).reaching

theorem joinVar_advancing (pos : Nat) (left right : Context) (x : String)
    : Advancing (joinVar pos left right x) :=
  joinVar_closed closedThroughout_advancing _ _ _ _

end Context

theorem Matched.merge_advancing (env : Env) (pos : Nat) (left right : Matched)
    : Advancing (left.merge env pos right) :=
  merge_closed closedThroughout_advancing _ _ _ _

theorem Matched.merge_reaching (env : Env) (pos : Nat) (left right : Matched) : Reaching (left.merge env pos right) :=
  (merge_advancing _ _ _ _).reaching

namespace Pattern

theorem matchTy_advancing (env : Env) (p : Pattern) (ty : Ty) : Advancing (p.matchTy env ty) :=
  matchTy_closed closedThroughout_advancing _ _ _

theorem matchTy_reaching (env : Env) (p : Pattern) (ty : Ty) : Reaching (p.matchTy env ty) :=
  (matchTy_advancing _ _ _).reaching

theorem matchArgs_reaching (env : Env) (pos : Nat) (ps : List Pattern) (tys : List Ty) (matched : Matched)
    : Reaching (matchArgs env pos ps tys matched) :=
  Advancing.reaching (matchArgs_closed closedThroughout_advancing _ _ _ _ _)

end Pattern

end GradedModal
