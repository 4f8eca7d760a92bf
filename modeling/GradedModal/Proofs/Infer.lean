import GradedModal.Proofs.Advances

/-!
This module says, for each form of expressions, what happened if the answer to a goal succeeded. Proofs
about checking start from here and do not open the checker again.
-/

namespace GradedModal

theorem Ty.eq_const_of_beq {ty : Ty} {n : String} (h : (ty == .const n) = true) : ty = .const n := by
  cases ty with
  | const m =>
    have hname : (m == n) = true := h
    rw [beq_iff_eq] at hname
    rw [hname]
  | _ => cases h

/--
The type that a goal asks for, if it asks for one.
-/
def Goal.expected? : Goal → Option Ty
  | .check _ expected => some expected
  | .synthesize => none

namespace Expr

open CheckM

variable {env : Env} {c : Context} {polarity : Polarity} {goal : Goal} {pos : Nat} {s s' : State} {r : Typed}

theorem checkConsumed_eq_ok {b : Binder} {ty : Ty} {used : Context} {u : Unit}
    : checkConsumed b ty used s = .ok u s'
        ↔
      Context.isConsumed (used.lookup? b.name) = true ∧ s = s' := by
  have hremaining : (Context.singleton b.name (.linear ty)).remainingLinear used
      = if Context.isConsumed (used.lookup? b.name) then [] else [b.name] := by
    simp [Context.singleton, Context.bind, Context.remove, Context.empty, Context.filter,
      Context.remainingLinear, Context.names, Assumption.isLinear, List.filter]
    cases Context.isConsumed (used.lookup? b.name) <;> rfl
  unfold checkConsumed
  simp only [hremaining, ite_fail_eq_ok]
  cases Context.isConsumed (used.lookup? b.name) <;> simp

theorem conclude_synthesize {actual : Ty} {used : Context}
    (h : conclude env pos polarity .synthesize actual used s = .ok r s')
    : r = ⟨actual, used, []⟩ ∧ s = s' := by
  unfold conclude at h
  rw [pure_eq_ok] at h
  exact ⟨h.1.symm, h.2⟩

theorem conclude_check {actual expected : Ty} {used : Context} {topLevel : Bool}
    (h : conclude env pos polarity (.check topLevel expected) actual used s = .ok r s')
    : ∃ relation unified,
        r = ⟨expected, used, unified.subst⟩ ∧ unified.agree = true ∧
        match polarity with
        | .positive => actual.relate env pos relation expected s = .ok unified s'
        | .negative => expected.relate env pos relation actual s = .ok unified s' := by
  unfold conclude at h
  cases polarity with
  | positive =>
    simp only [if_true, bind_eq_ok, mapError_eq_ok] at h
    obtain ⟨unified, s₁, hrelate, h⟩ := h
    split at h
    . next hagree =>
      rw [pure_eq_ok] at h
      obtain ⟨rfl, rfl⟩ := h
      exact ⟨_, unified, rfl, hagree, hrelate⟩
    . rw [throw_eq_ok] at h
      exact h.elim
  | negative =>
    simp only [reduceCtorEq, if_false, bind_eq_ok, mapError_eq_ok] at h
    obtain ⟨unified, s₁, hrelate, h⟩ := h
    split at h
    . next hagree =>
      rw [pure_eq_ok] at h
      obtain ⟨rfl, rfl⟩ := h
      exact ⟨_, unified, rfl, hagree, hrelate⟩
    . rw [throw_eq_ok] at h
      exact h.elim

theorem conclude_used {actual : Ty} {used : Context}
    (h : conclude env pos polarity goal actual used s = .ok r s') : r.used = used := by
  cases goal with
  | synthesize => rw [(conclude_synthesize h).1]
  | check topLevel expected =>
    obtain ⟨_, _, rfl, _⟩ := conclude_check h
    rfl

theorem conclude_closed {P : (α : Type) → CheckM α → Prop} (hP : ClosedThroughout P) (env : Env) (pos : Nat)
    (polarity : Polarity) (goal : Goal) (actual : Ty) (used : Context)
    : P Typed (conclude env pos polarity goal actual used) := by
  unfold conclude
  split
  . exact hP.pure _
  . apply hP.bind (hP.mapError (Ty.relate_closed hP _ _ _ _ _))
    intro unified
    exact Closed.ite (hP.pure _) (hP.throw _)

theorem conclude_reaches {actual : Ty} {used : Context}
    (h : conclude env pos polarity goal actual used s = .ok r s') : s.Reaches s' :=
  (conclude_closed closedThroughout_advancing _ _ _ _ _ _ h).reaches

theorem synthesize_eq_ok {e : Expr} {result : Ty × Context} (h : e.synthesize env c polarity s = .ok result s')
    : ∃ r, infer env e c polarity .synthesize s = .ok r s' ∧ result = (r.ty, r.used) := by
  unfold synthesize at h
  simp only [bind_eq_ok, pure_eq_ok] at h
  obtain ⟨r, _, hr, rfl, rfl⟩ := h
  exact ⟨r, hr, rfl⟩

theorem exists_synthesize {e : Expr} (ty : Ty)
    (h : yields (e.synthesize env c polarity) s (fun r _ => decide (r.1 = ty)) = true)
    : ∃ used s', e.synthesize env c polarity s = .ok (ty, used) s' := by
  obtain ⟨⟨ty', used⟩, s', hsynthesize, hty⟩ := exists_of_yields h
  cases of_decide_eq_true hty
  exact ⟨used, s', hsynthesize⟩

theorem check_eq_ok {e : Expr} {topLevel : Bool} {expected : Ty} {result : Context × Substitution}
    (h : e.check env c polarity topLevel expected s = .ok result s')
    : ∃ r, infer env e c polarity (.check topLevel expected) s = .ok r s' ∧ result = (r.used, r.subst) := by
  unfold check at h
  simp only [bind_eq_ok, pure_eq_ok] at h
  obtain ⟨r, _, hr, rfl, rfl⟩ := h
  exact ⟨r, hr, rfl⟩

-- The equations of `infer` take long to derive. A block is elaborated before what follows it, so they are derived
-- once, here, and not waited for by each of the lemmas below.
mutual

theorem infer_int {n : Int} (h : infer env (.int pos n) c polarity goal s = .ok r s')
    : (∃ topLevel name, goal = .check topLevel (.const name) ∧ r = ⟨.const name, .empty, []⟩ ∧ s = s') ∨
      conclude env pos polarity goal (.const "Int") .empty s = .ok r s' := by
  unfold infer at h
  split at h
  . next topLevel name =>
    split at h
    . rw [pure_eq_ok] at h
      exact .inl ⟨_, _, rfl, h.1.symm, h.2⟩
    . exact .inr h
  . exact .inr h

theorem infer_float {x : Float} (h : infer env (.float pos x) c polarity goal s = .ok r s')
    : (∃ topLevel name, goal = .check topLevel (.const name) ∧ r = ⟨.const name, .empty, []⟩ ∧ s = s') ∨
      conclude env pos polarity goal (.const "Float") .empty s = .ok r s' := by
  unfold infer at h
  split at h
  . next topLevel name =>
    split at h
    . rw [pure_eq_ok] at h
      exact .inl ⟨_, _, rfl, h.1.symm, h.2⟩
    . exact .inr h
  . exact .inr h

end

theorem infer_constructor {name : String}
    (h : infer env (.constructor pos name) c polarity goal s = .ok r s')
    : ∃ ty s₁, constructorTy env pos name s = .ok ty s₁ ∧
        conclude env pos polarity goal ty .empty s₁ = .ok r s' := by
  unfold infer at h
  rw [bind_eq_ok] at h
  exact h

theorem varTy_eq_ok {name : String} {ty : Ty} {used : Context} (h : varTy env c pos name s = .ok (ty, used) s')
    : (c.lookup? name = some (.linear ty) ∧ used = .singleton name (.linear ty)) ∨
      (∃ grade kind, c.lookup? name = some (.graded ty grade) ∧
        used = .singleton name (.graded ty (.one kind))) ∨
      (∃ scheme, c.lookup? name = none ∧ env.lookup? name = some scheme ∧ scheme.instantiate s = .ok ty s' ∧
        used = .empty) := by
  unfold varTy at h
  cases ha : c.lookup? name with
  | none =>
    simp only [ha] at h
    cases hscheme : env.lookup? name with
    | none => simp only [hscheme, fail_eq_ok] at h
    | some scheme =>
      simp only [hscheme, bind_eq_ok, pure_eq_ok] at h
      obtain ⟨_, _, hinst, h, rfl⟩ := h
      cases h
      exact .inr (.inr ⟨scheme, rfl, rfl, hinst, rfl⟩)
  | some a =>
    cases a with
    | linear ty' =>
      simp only [ha, pure_eq_ok] at h
      cases h.1
      exact .inl ⟨rfl, rfl⟩
    | graded ty' grade =>
      simp only [ha, bind_eq_ok, pure_eq_ok] at h
      obtain ⟨kind, _, _, h, _⟩ := h
      cases h
      exact .inr (.inl ⟨grade, kind, rfl, rfl⟩)

theorem infer_var {name : String} (h : infer env (.var pos name) c polarity goal s = .ok r s')
    : ∃ ty used s₁, varTy env c pos name s = .ok (ty, used) s₁ ∧
        conclude env pos polarity goal ty used s₁ = .ok r s' := by
  unfold infer at h
  rw [bind_eq_ok] at h
  obtain ⟨⟨ty, used⟩, s₁, hvar, h⟩ := h
  exact ⟨ty, used, s₁, hvar, h⟩

/--
Compare the annotation of a variable, if there is one, with the type of the variable.
-/
def checkDeclared (env : Env) (pos : Nat) (ty : Ty) : Option Ty → CheckM Unit
  | none => return ()
  | some declared => discard (declared.equal env pos ty)

theorem checkDeclared_reaching (env : Env) (pos : Nat) (ty : Ty) (declared : Option Ty)
    : Reaching (checkDeclared env pos ty declared) := by
  cases declared with
  | none => exact closed_along.pure _
  | some declared => exact closed_along.map (Ty.equal_reaching _ _ _ _)

theorem checkDeclared_some {ty declared : Ty} {unified : Unified} (h : declared.equal env pos ty s = .ok unified s')
    : checkDeclared env pos ty (some declared) s = .ok () s' := by
  unfold checkDeclared
  exact map_eq_ok.mpr ⟨unified, h, rfl⟩

def lamBody (env : Env) (b : Binder) (body : Expr) (c : Context) (polarity : Polarity) (topLevel : Bool)
    (arg result : Ty) : CheckM Typed := do
  let inner ← infer env body (c.bind b.name (.linear arg)) polarity (.check topLevel result)
  checkConsumed b arg inner.used
  return ⟨.arrow arg result, inner.used.remove b.name, inner.subst⟩

theorem infer_lam {b : Binder} {declared : Option Ty} {body : Expr}
    (h : infer env (.lam pos b declared body) c polarity goal s = .ok r s')
    : (∃ topLevel arg result inner s₁, goal = .check topLevel (.arrow arg result) ∧
        checkDeclared env b.pos arg declared s = .ok () s₁ ∧
        infer env body (c.bind b.name (.linear arg)) polarity (.check topLevel result) s₁ = .ok inner s' ∧
        Context.isConsumed (inner.used.lookup? b.name) = true ∧
        r = ⟨.arrow arg result, inner.used.remove b.name, inner.subst⟩) ∨
      (∃ arg inner s₁, (∀ topLevel arg result, goal ≠ .check topLevel (.arrow arg result)) ∧ declared = some arg ∧
        infer env body (c.bind b.name (.linear arg)) polarity .synthesize s = .ok inner s₁ ∧
        Context.isConsumed (inner.used.lookup? b.name) = true ∧
        conclude env pos polarity goal (.arrow arg inner.ty) (inner.used.remove b.name) s₁ = .ok r s') := by
  unfold infer at h
  split at h
  . next topLevel arg result =>
    dsimp only at h
    have hbody : ∃ s₁, checkDeclared env b.pos arg declared s = .ok () s₁ ∧
        lamBody env b body c polarity topLevel arg result s₁ = .ok r s' := by
      cases declared with
      | some declared =>
        simp only [bind_eq_ok (s := s), ite_fail_bind_eq_ok] at h
        obtain ⟨unified, s₁, hequal, _, h⟩ := h
        exact ⟨s₁, checkDeclared_some hequal, h⟩
      | none => exact ⟨s, rfl, h⟩
    obtain ⟨s₁, hdeclared, h⟩ := hbody
    simp only [lamBody, bind_eq_ok, checkConsumed_eq_ok, pure_eq_ok] at h
    obtain ⟨inner, s₂, hinner, _, _, ⟨hconsumed, rfl⟩, rfl, rfl⟩ := h
    exact .inl ⟨_, _, _, inner, s₁, rfl, hdeclared, hinner, hconsumed, rfl⟩
  . next hgoal =>
    split at h
    . rw [fail_eq_ok] at h
      exact h.elim
    . next arg =>
      simp only [bind_eq_ok, checkConsumed_eq_ok] at h
      obtain ⟨inner, s₁, hbody, _, _, ⟨hconsumed, rfl⟩, h⟩ := h
      exact .inr ⟨arg, inner, s₁, hgoal, rfl, hbody, hconsumed, h⟩

theorem scaleFactor?_eq_some {f : Expr} {factor : Float} (h : scaleFactor? c f = some factor)
    : c.lookup? "scale" = none ∧ ∃ p p₁ p₂, f = .app p (.var p₁ "scale") (.float p₂ factor) := by
  unfold scaleFactor? at h
  split at h
  . next p p₁ name p₂ x =>
    split at h
    . next hname =>
      obtain ⟨rfl, hcontains⟩ := hname
      simp only [Context.contains, Bool.not_eq_true', Option.isSome_eq_false_iff, Option.isNone_iff_eq_none]
        at hcontains
      cases h
      exact ⟨hcontains, p, p₁, p₂, rfl⟩
    . cases h
  . cases h

theorem infer_app {f a : Expr} (h : infer env (.app pos f a) c polarity goal s = .ok r s')
    : (∃ topLevel factor inner, goal = .check topLevel (.const "Float") ∧
        scaleFactor? c f = some factor ∧
        infer env a c polarity (.check false (.box (.float factor) (.const "Float"))) s = .ok inner s' ∧
        r = ⟨.const "Float", inner.used, inner.subst⟩) ∨
      (∃ topLevel expected arg function used s₁ s₂, goal = .check topLevel expected ∧
        infer env a c polarity .synthesize s = .ok arg s₁ ∧
        infer env f c polarity.flip (.check false (.arrow arg.ty expected)) s₁ = .ok function s₂ ∧
        Context.combine f.pos function.used arg.used s₂ = .ok used s' ∧
        r = ⟨expected, used, function.subst⟩) ∨
      (∃ argTy resultTy function arg used s₁ s₂, goal = .synthesize ∧
        infer env f c polarity .synthesize s = .ok function s₁ ∧
        function.ty = .arrow argTy resultTy ∧
        infer env a c polarity (.check false argTy) s₁ = .ok arg s₂ ∧
        Context.combine pos function.used arg.used s₂ = .ok used s' ∧
        r = ⟨resultTy.substitute arg.subst, used, []⟩) := by
  unfold infer at h
  split at h
  . next topLevel expected =>
    generalize hscale : (if expected == .const "Float" then scaleFactor? c f else none) = factor at h
    cases factor with
    | some factor =>
      split at hscale
      . next hfloat =>
        obtain rfl := Ty.eq_const_of_beq hfloat
        simp only [bind_eq_ok, pure_eq_ok] at h
        obtain ⟨inner, _, hinner, rfl, rfl⟩ := h
        exact .inl ⟨_, factor, inner, rfl, hscale, hinner, rfl⟩
      . cases hscale
    | none =>
      simp only [bind_eq_ok, pure_eq_ok] at h
      obtain ⟨arg, s₁, harg, function, s₂, hfunction, used, _, hcombine, rfl, rfl⟩ := h
      exact .inr (.inl ⟨_, _, arg, function, used, s₁, s₂, rfl, harg, hfunction, hcombine, rfl⟩)
  . rw [bind_eq_ok] at h
    obtain ⟨function, s₁, hfunction, h⟩ := h
    cases hty : function.ty with
    | arrow argTy resultTy =>
      simp only [hty, bind_eq_ok, pure_eq_ok] at h
      obtain ⟨arg, s₂, harg, used, _, hcombine, rfl, rfl⟩ := h
      exact .inr (.inr ⟨argTy, resultTy, function, arg, used, s₁, s₂, rfl, hfunction, hty, harg, hcombine, rfl⟩)
    | _ =>
      simp only [hty, fail_eq_ok] at h

theorem infer_promote {e : Expr} (h : infer env (.promote pos e) c polarity goal s = .ok r s')
    : (∃ topLevel demand content fresh inner s₁ s₂, goal = .check topLevel (.box demand content) ∧
        Context.freshen pos (e.freeVars.filter c.contains) c demand s = .ok fresh s₁ ∧
        infer env e fresh polarity (.check false content) s₁ = .ok inner s₂ ∧
        (match polarity with
          | .positive => Context.le pos inner.used fresh s₂ = .ok () s'
          | .negative => Context.le pos fresh inner.used s₂ = .ok () s') ∧
        r = ⟨.box demand content, fresh.scale (e.freeVars.filter c.contains) demand, inner.subst⟩) ∨
      (∃ kind grade inner s₁ s₂ s₃, (∀ topLevel demand content, goal ≠ .check topLevel (.box demand content)) ∧
        freshGradeKind "k" s = .ok kind s₁ ∧ freshGrade "r" kind s₁ = .ok grade s₂ ∧
        infer env e c polarity .synthesize s₂ = .ok inner s₃ ∧
        conclude env pos polarity goal (.box grade inner.ty) (inner.used.scale e.freeVars grade) s₃
          = .ok r s') := by
  unfold infer at h
  split at h
  . dsimp only at h
    simp only [bind_eq_ok] at h
    obtain ⟨fresh, s₁, hfresh, inner, s₂, hinner, h⟩ := h
    cases polarity with
    | positive | negative =>
      simp only [bind_eq_ok, pure_eq_ok] at h
      obtain ⟨_, _, hle, rfl, rfl⟩ := h
      exact .inl ⟨_, _, _, fresh, inner, s₁, s₂, rfl, hfresh, hinner, hle, rfl⟩
  . next hgoal =>
    simp only [bind_eq_ok] at h
    obtain ⟨kind, s₁, hkind, grade, s₂, hgrade, inner, s₃, hinner, h⟩ := h
    exact .inr ⟨kind, grade, inner, s₁, s₂, s₃, hgoal, hkind, hgrade, hinner, h⟩

theorem infer_lift {e : Expr} (h : infer env (.lift pos e) c polarity goal s = .ok r s')
    : (∃ topLevel effects content inner, goal = .check topLevel (.diamond effects content) ∧
        infer env e c polarity (.check false content) s = .ok inner s' ∧
        r = ⟨.diamond effects content, inner.used, inner.subst⟩) ∨
      (∃ inner s₁, (∀ topLevel effects content, goal ≠ .check topLevel (.diamond effects content)) ∧
        infer env e c polarity .synthesize s = .ok inner s₁ ∧
        conclude env pos polarity goal (.diamond [] inner.ty) inner.used s₁ = .ok r s') := by
  unfold infer at h
  split at h
  . next topLevel effects content =>
    simp only [bind_eq_ok, pure_eq_ok] at h
    obtain ⟨inner, _, hinner, rfl, rfl⟩ := h
    exact .inl ⟨_, effects, content, inner, rfl, hinner, rfl⟩
  . next hgoal =>
    rw [bind_eq_ok] at h
    obtain ⟨inner, s₁, hinner, h⟩ := h
    exact .inr ⟨inner, s₁, hgoal, hinner, h⟩

theorem infer_pair {a b : Expr} (h : infer env (.pair pos a b) c polarity goal s = .ok r s')
    : (∃ topLevel aTy bTy left right used subst s₁ s₂ s₃, goal = .check topLevel (.pair aTy bTy) ∧
        infer env a c polarity (.check false aTy) s = .ok left s₁ ∧
        infer env b c polarity (.check false (bTy.substitute left.subst)) s₁ = .ok right s₂ ∧
        Context.combine pos left.used right.used s₂ = .ok used s₃ ∧
        Substitution.combine env pos left.subst right.subst s₃ = .ok subst s' ∧
        r = ⟨.pair aTy bTy, used, subst⟩) ∨
      (∃ left right used s₁ s₂ s₃, (∀ topLevel aTy bTy, goal ≠ .check topLevel (.pair aTy bTy)) ∧
        infer env a c polarity .synthesize s = .ok left s₁ ∧
        infer env b c polarity .synthesize s₁ = .ok right s₂ ∧
        Context.combine pos left.used right.used s₂ = .ok used s₃ ∧
        conclude env pos polarity goal (.pair left.ty right.ty) used s₃ = .ok r s') := by
  unfold infer at h
  split at h
  . next topLevel aTy bTy =>
    simp only [bind_eq_ok, pure_eq_ok] at h
    obtain ⟨left, s₁, hleft, right, s₂, hright, used, s₃, hused, subst, _, hsubst, rfl, rfl⟩ := h
    exact .inl ⟨_, aTy, bTy, left, right, used, subst, s₁, s₂, s₃, rfl, hleft, hright, hused, hsubst, rfl⟩
  . next hgoal =>
    simp only [bind_eq_ok] at h
    obtain ⟨left, s₁, hleft, right, s₂, hright, used, s₃, hused, h⟩ := h
    exact .inr ⟨left, right, used, s₁, s₂, s₃, hgoal, hleft, hright, hused, h⟩

def letDiamondRest (env : Env) (pos : Nat) (b : Binder) (rest : Expr) (c : Context) (polarity : Polarity) (goal : Goal)
    (effects : List String) (content : Ty) (used : Context) : CheckM Typed := do
  let second ← infer env rest (c.bind b.name (.linear content)) polarity .synthesize
  match second.ty with
  | .diamond effects' result =>
    checkConsumed b content second.used
    let used ← Context.combine pos used (second.used.remove b.name)
    conclude env pos polarity goal (.diamond (effects ++ effects') result) used
  | ty => fail rest.pos (.notEffectful ty)

theorem infer_letDiamond {b : Binder} {declared : Option Ty} {value rest : Expr}
    (h : infer env (.letDiamond pos b declared value rest) c polarity goal s = .ok r s')
    : ∃ first effects content second effects' result used s₁ s₂ s₃ s₄,
        infer env value c polarity .synthesize s = .ok first s₁ ∧
        first.ty = .diamond effects content ∧ checkDeclared env b.pos content declared s₁ = .ok () s₂ ∧
        infer env rest (c.bind b.name (.linear content)) polarity .synthesize s₂ = .ok second s₃ ∧
        second.ty = .diamond effects' result ∧
        Context.isConsumed (second.used.lookup? b.name) = true ∧
        Context.combine pos first.used (second.used.remove b.name) s₃ = .ok used s₄ ∧
        conclude env pos polarity goal (.diamond (effects ++ effects') result) used s₄ = .ok r s' := by
  unfold infer at h
  rw [bind_eq_ok] at h
  obtain ⟨first, s₁, hfirst, h⟩ := h
  cases hty : first.ty with
  | diamond effects content =>
    simp only [hty] at h
    have hrest : ∃ s₂, checkDeclared env b.pos content declared s₁ = .ok () s₂ ∧
        letDiamondRest env pos b rest c polarity goal effects content first.used s₂ = .ok r s' := by
      cases declared with
      | some declared =>
        rw [bind_eq_ok] at h
        obtain ⟨unified, s₂, hequal, h⟩ := h
        rw [ite_fail_bind_eq_ok] at h
        exact ⟨s₂, checkDeclared_some hequal, h.2⟩
      | none => exact ⟨s₁, rfl, h⟩
    obtain ⟨s₂, hdeclared, h⟩ := hrest
    unfold letDiamondRest at h
    rw [bind_eq_ok] at h
    obtain ⟨second, s₃, hsecond, h⟩ := h
    cases hty' : second.ty with
    | diamond effects' result =>
      simp only [hty', bind_eq_ok, checkConsumed_eq_ok] at h
      obtain ⟨_, _, ⟨hconsumed, rfl⟩, used, s₄, hused, h⟩ := h
      exact ⟨first, effects, content, second, effects', result, used, s₁, s₂, s₃, s₄, hfirst, hty, hdeclared,
        hsecond, hty', hconsumed, hused, h⟩
    | _ =>
      simp only [hty', fail_eq_ok] at h
  | _ =>
    simp only [hty, fail_eq_ok] at h

theorem boxDemand_reaching (pos : Nat) (kind : GradeKind) (grade : Grade) (used : Option Assumption)
    : Reaching (boxDemand pos kind grade used) := by
  unfold boxDemand
  split
  . exact closed_along.pure _
  . exact closed_along.pure _
  . exact closed_along.bind (reaching_constrain _) fun _ => closed_along.pure _

theorem infer_letBox_eq (env : Env) (pos : Nat) (b : Binder) (ty : Ty) (value rest : Expr) (c : Context)
    (polarity : Polarity) (goal : Goal)
    : infer env (.letBox pos b ty value rest) c polarity goal
        =
      (do
        let kind ← freshGradeKind "k"
        let grade ← freshGrade b.name kind
        let second ← infer env rest (c.bind b.name (.graded ty grade)) polarity .synthesize
        let demand ← boxDemand b.pos kind grade (second.used.lookup? b.name)
        let first ← infer env value c polarity (.check false (.box demand ty))
        let used ← Context.combine pos first.used (second.used.remove b.name)
        conclude env pos polarity goal second.ty used) := by
  rw [infer]
  congr 1
  funext kind
  congr 1
  funext grade
  congr 1
  funext second
  -- what the rest demands of the value is found in one of three ways
  cases second.used.lookup? b.name with
  | none => rfl
  | some a => cases a <;> rfl

theorem infer_letBox {b : Binder} {ty : Ty} {value rest : Expr}
    (h : infer env (.letBox pos b ty value rest) c polarity goal s = .ok r s')
    : ∃ kind grade second demand first used s₁ s₂ s₃ s₄ s₅ s₆,
        freshGradeKind "k" s = .ok kind s₁ ∧ freshGrade b.name kind s₁ = .ok grade s₂ ∧
        infer env rest (c.bind b.name (.graded ty grade)) polarity .synthesize s₂ = .ok second s₃ ∧
        boxDemand b.pos kind grade (second.used.lookup? b.name) s₃ = .ok demand s₄ ∧
        infer env value c polarity (.check false (.box demand ty)) s₄ = .ok first s₅ ∧
        Context.combine pos first.used (second.used.remove b.name) s₅ = .ok used s₆ ∧
        conclude env pos polarity goal second.ty used s₆ = .ok r s' := by
  rw [infer_letBox_eq] at h
  simp only [bind_eq_ok] at h
  obtain ⟨kind, s₁, hkind, grade, s₂, hgrade, second, s₃, hsecond, demand, s₄, hdemand, first, s₅, hfirst, used, s₆,
    hused, h⟩ := h
  exact ⟨kind, grade, second, demand, first, used, s₁, s₂, s₃, s₄, s₅, s₆, hkind, hgrade, hsecond, hdemand,
    hfirst, hused, h⟩

theorem firstFit_eq_ok {fits : Ty → Ty → CheckM Context} {noFit : CheckM (Ty × Context)} {tys : List Ty}
    {rejection : Option Error} {ty : Ty} {used : Context}
    (hnoFit : ∀ s s' r, noFit s ≠ .ok r s')
    (h : firstFit fits noFit tys rejection s = .ok (ty, used) s')
    : ∃ sig ∈ tys, ∃ left right, sig.args = [left, right] ∧ ty = sig.result ∧
        fits left right s = .ok used s' := by
  induction tys generalizing rejection with
  | nil =>
    cases rejection with
    | none => exact (hnoFit _ _ _ h).elim
    | some e =>
      unfold firstFit at h
      rw [throw_eq_ok] at h
      exact h.elim
  | cons sig tys ih =>
    have hrest : (∃ rejection, firstFit fits noFit tys rejection s = .ok (ty, used) s') →
        ∃ sig' ∈ sig :: tys, ∃ left right, sig'.args = [left, right] ∧ ty = sig'.result ∧
          fits left right s = .ok used s' := by
      rintro ⟨rejection, h⟩
      obtain ⟨sig', hmem, hfits⟩ := ih h
      exact ⟨sig', List.mem_cons_of_mem _ hmem, hfits⟩
    unfold firstFit at h
    match hargs : sig.args with
    | [left, right] =>
      rw [hargs] at h
      rw [bind_eq_ok] at h
      obtain ⟨result, s₁, hattempt, h⟩ := h
      cases result with
      | ok used' =>
        rw [attempt_eq_ok] at hattempt
        rw [pure_eq_ok] at h
        obtain ⟨h, rfl⟩ := h
        cases h
        exact ⟨sig, List.mem_cons_self, left, right, hargs, rfl, hattempt⟩
      | error e =>
        rw [eq_of_attempt_error hattempt] at h
        exact hrest ⟨_, h⟩
    | [] =>
      rw [hargs] at h
      exact hrest ⟨_, h⟩
    | [_] =>
      rw [hargs] at h
      exact hrest ⟨_, h⟩
    | _ :: _ :: _ :: _ =>
      rw [hargs] at h
      exact hrest ⟨_, h⟩

theorem infer_binop {op : BinOp} {a b : Expr}
    (h : infer env (.binop pos op a b) c polarity goal s = .ok r s')
    : ∃ sig ∈ env.builtins.signatures op, ∃ left right first second used s₁ s₂ s₃, sig.args = [left, right] ∧
        infer env a c polarity (.check false left) s = .ok first s₁ ∧
        infer env b c polarity (.check false right) s₁ = .ok second s₂ ∧
        Context.combine pos first.used second.used s₂ = .ok used s₃ ∧
        conclude env pos polarity goal sig.result used s₃ = .ok r s' := by
  unfold infer at h
  rw [bind_eq_ok] at h
  obtain ⟨⟨ty, used⟩, s₃, hfirstFit, h⟩ := h
  have hfit := firstFit_eq_ok (by
    intro s s' r hnoFit
    rw [bind_eq_ok] at hnoFit
    obtain ⟨_, _, _, hfail⟩ := hnoFit
    rw [fail_eq_ok] at hfail
    exact hfail) hfirstFit
  obtain ⟨sig, hmem, left, right, hargs, rfl, hfit⟩ := hfit
  rw [bind_eq_ok] at hfit
  obtain ⟨first, s₁, hfirst, hfit⟩ := hfit
  rw [bind_eq_ok] at hfit
  obtain ⟨second, s₂, hsecond, hused⟩ := hfit
  exact ⟨sig, hmem, left, right, first, second, used, s₁, s₂, s₃, hargs, hfirst, hsecond, hused, h⟩

theorem infer_case {scrutinee : Expr} {branches : List (Pattern × Expr)}
    (h : infer env (.case pos scrutinee branches) c polarity goal s = .ok r s')
    : ∃ value base joined used s₁ s₂ s₃ s₄, infer env scrutinee c polarity .synthesize s = .ok value s₁ ∧
        baseline pos c branches s₁ = .ok base s₂ ∧
        inferBranches env ⟨pos, c, polarity, value.ty, base, goal.expected?⟩ branches ⟨none, none⟩ s₂
          = .ok joined s₃ ∧
        Context.combine pos (joined.used.getD .empty) value.used s₃ = .ok used s₄ ∧
        Context.combine pos used base s₄ = .ok r.used s' ∧
        goal.expected?.or joined.ty = some r.ty ∧ r.subst = [] := by
  unfold infer at h
  rw [bind_eq_ok] at h
  obtain ⟨value, s₁, hvalue, h⟩ := h
  rw [bind_eq_ok] at h
  obtain ⟨base, s₂, hbase, h⟩ := h
  rw [bind_eq_ok] at h
  obtain ⟨joined, s₃, hjoined, h⟩ := h
  rw [bind_eq_ok] at h
  obtain ⟨used, s₄, hused, h⟩ := h
  rw [bind_eq_ok] at h
  obtain ⟨used', s₅, hused', h⟩ := h
  generalize hty : Option.or _ joined.ty = ty at h
  cases ty with
  | none =>
    rw [fail_eq_ok] at h
    exact h.elim
  | some ty =>
    rw [pure_eq_ok] at h
    obtain ⟨rfl, rfl⟩ := h
    exact ⟨value, base, joined, used, s₁, s₂, s₃, s₄, hvalue, hbase, hjoined, hused, hused', hty, rfl⟩

theorem closeBranch_eq_ok {info : CaseInfo} {p : Pattern} {bodyPos : Nat} {matched : Matched} {used net : Context}
    : closeBranch info p bodyPos matched used s = .ok net s'
        ↔
      matched.context.remainingLinear used = [] ∧
      net = (used.subtract info.baseline).subtract matched.context ∧
      ∃ s₁ s₂, Context.le p.pos (used.intersect matched.context) matched.context s = .ok () s₁ ∧
        Context.le bodyPos (used.intersect info.baseline) info.baseline s₁ = .ok () s₂ ∧
        closeScope matched.existentials s₂ = .ok () s' := by
  unfold closeBranch
  dsimp only
  rw [ite_fail_bind_eq_ok]
  simp only [bind_eq_ok, pure_eq_ok]
  constructor
  . rintro ⟨hremaining, _, s₁, hle, _, s₂, hle', _, s₃, hclose, rfl, rfl⟩
    simp only [Bool.not_eq_true', Bool.not_eq_false, List.isEmpty_iff] at hremaining
    exact ⟨hremaining, rfl, s₁, s₂, hle, hle', hclose⟩
  . rintro ⟨hremaining, rfl, s₁, s₂, hle, hle', hclose⟩
    simp only [Bool.not_eq_true', Bool.not_eq_false, List.isEmpty_iff]
    exact ⟨hremaining, (), s₁, hle, (), s₂, hle', (), s', hclose, trivial, rfl⟩

def branchGoal (info : CaseInfo) (matched : Matched) : Goal :=
  match info.expected with
  | some ty => .check false (ty.substitute matched.subst)
  | none => .synthesize

def branchTy (env : Env) (info : CaseInfo) (pos : Nat) (previous : Option Ty) (ty : Ty) : CheckM (Option Ty) :=
  match info.expected, previous with
  | some _, _ => pure none
  | none, none => pure (some ty)
  | none, some previous => do pure (some (← previous.join env pos ty))

def branchUsed (info : CaseInfo) (previous : Option Context) (net : Context) : CheckM Context :=
  match previous with
  | none => pure net
  | some used => used.join info.pos net

theorem inferBranches_eq (env : Env) (info : CaseInfo) (p : Pattern) (body : Expr) (branches : List (Pattern × Expr))
    (joined : Joined)
    : inferBranches env info ((p, body) :: branches) joined
        =
      (do
        openScope
        let matched ← p.matchTy env info.scrutinee
        enterConsequent
        let typed ← infer env body (info.context.bindAll matched.context) info.polarity (branchGoal info matched)
        let ty ← branchTy env info body.pos joined.ty typed.ty
        let net ← closeBranch info p body.pos matched typed.used
        let used ← branchUsed info joined.used net
        inferBranches env info branches ⟨ty, some used⟩) := by
  obtain ⟨pos, context, polarity, scrutinee, baseline, expected⟩ := info
  obtain ⟨ty, used⟩ := joined
  rw [inferBranches]
  cases expected <;> cases ty <;> cases used <;>
    simp only [branchGoal, branchTy, branchUsed, pure_bind, bind_assoc]

-- The same in one piece that is an implication: the rest of what closes a branch adds to the consequent.
theorem inferBranches_eq_imply (env : Env) (info : CaseInfo) (p : Pattern) (body : Expr)
    (branches : List (Pattern × Expr)) (joined : Joined)
    : inferBranches env info ((p, body) :: branches) joined
        =
      (do
        let (ty, net) ← (do
          openScope
          let matched ← p.matchTy env info.scrutinee
          enterConsequent
          let result ← (do
            let typed ← infer env body (info.context.bindAll matched.context) info.polarity (branchGoal info matched)
            let ty ← branchTy env info body.pos joined.ty typed.ty
            let remaining := matched.context.remainingLinear typed.used
            if !remaining.isEmpty then
              fail p.pos (.linearity remaining .unused)
            Context.le p.pos (typed.used.intersect matched.context) matched.context
            Context.le body.pos (typed.used.intersect info.baseline) info.baseline
            return (ty, (typed.used.subtract info.baseline).subtract matched.context))
          closeScope matched.existentials
          return result)
        let used ← branchUsed info joined.used net
        inferBranches env info branches ⟨ty, some used⟩) := by
  have hite : ∀ {α β : Type} {p : Prop} [Decidable p] {x y : CheckM α} {f : α → CheckM β},
      (if p then x else y) >>= f = if p then x >>= f else y >>= f := apply_ite (· >>= _) _ _ _
  rw [inferBranches_eq]
  simp only [closeBranch, hite, bind_assoc, pure_bind]

theorem inferBranches_cons {info : CaseInfo} {p : Pattern} {body : Expr} {branches : List (Pattern × Expr)}
    {joined result : Joined} (h : inferBranches env info ((p, body) :: branches) joined s = .ok result s')
    : ∃ matched typed ty net used s₁ s₂ s₃ s₄ s₅ s₆ s₇, openScope s = .ok () s₁ ∧
        p.matchTy env info.scrutinee s₁ = .ok matched s₂ ∧
        enterConsequent s₂ = .ok () s₃ ∧
        infer env body (info.context.bindAll matched.context) info.polarity (branchGoal info matched) s₃
          = .ok typed s₄ ∧
        branchTy env info body.pos joined.ty typed.ty s₄ = .ok ty s₅ ∧
        closeBranch info p body.pos matched typed.used s₅ = .ok net s₆ ∧
        branchUsed info joined.used net s₆ = .ok used s₇ ∧
        inferBranches env info branches ⟨ty, some used⟩ s₇ = .ok result s' := by
  rw [inferBranches_eq] at h
  simp only [bind_eq_ok] at h
  obtain ⟨_, s₁, hopen, matched, s₂, hmatch, _, s₃, henter, typed, s₄, htyped, ty, s₅, hty, net, s₆, hclose, used, s₇,
    hused, h⟩ := h
  exact ⟨matched, typed, ty, net, used, s₁, s₂, s₃, s₄, s₅, s₆, s₇, hopen, hmatch, henter, htyped, hty, hclose, hused, h⟩

section

variable {P : (α : Type) → CheckM α → Prop} (hP : ClosedThroughout P)
include hP

omit hP in
theorem checkConsumed_closed (hP : Closed P) (b : Binder) (ty : Ty) (used : Context)
    : P Unit (checkConsumed b ty used) :=
  Closed.ite (hP.fail _ _) (hP.pure _)

theorem constructorTy_closed (env : Env) (pos : Nat) (name : String) : P Ty (constructorTy env pos name) := by
  unfold constructorTy
  apply Closed.ite
  . apply hP.successor
    intro size result
    exact Closed.ite (hP.bind (hP.freshTypeVar _ _ _) fun _ => hP.pure _) (hP.pure _)
  . split
    . exact Scheme.instantiate_closed hP.toClosedQuietly _
    . exact hP.fail _ _

omit hP in
theorem varTy_closed (hP : ClosedQuietly P) (env : Env) (c : Context) (pos : Nat) (name : String)
    : P (Ty × Context) (varTy env c pos name) := by
  unfold varTy
  split
  . exact hP.pure _
  . exact hP.bind (Grade.inferKind_closed hP _ _) fun _ => hP.pure _
  . split
    . exact hP.bind (Scheme.instantiate_closed hP _) fun _ => hP.pure _
    . exact hP.fail _ _

omit hP in
theorem firstFit_closed (hP : Closed P) {fits : Ty → Ty → CheckM Context} {noFit : CheckM (Ty × Context)}
    (hfits : ∀ left right, P Context (fits left right)) (hnoFit : P (Ty × Context) noFit) (tys : List Ty)
    (rejection : Option Error) : P (Ty × Context) (firstFit fits noFit tys rejection) := by
  induction tys generalizing rejection with
  | nil =>
    cases rejection with
    | none => exact hnoFit
    | some e => exact hP.throw _
  | cons ty tys ih =>
    unfold firstFit
    split
    . apply hP.bind (hP.attempt (hfits _ _))
      intro result
      split
      . exact hP.pure _
      . exact ih _
    . exact ih _

omit hP in
theorem baseline_closed (hP : ClosedQuietly P) (pos : Nat) (c : Context) (branches : List (Pattern × Expr))
    : P Context (baseline pos c branches) := by
  unfold baseline
  refine hP.bind (hP.filterMapM ?_) fun _ => hP.pure _
  rintro ⟨x, a⟩
  cases a with
  | linear ty => exact hP.pure _
  | graded ty grade =>
    apply hP.bind (Grade.inferKind_closed hP _ _)
    intro kind
    exact hP.bind (hP.freshGrade _ _) fun _ => hP.pure _

theorem branchTy_closed (env : Env) (info : CaseInfo) (pos : Nat) (previous : Option Ty) (ty : Ty)
    : P (Option Ty) (branchTy env info pos previous ty) := by
  unfold branchTy
  split
  . exact hP.pure _
  . exact hP.pure _
  . exact hP.bind (Ty.join_closed hP _ _ _ _) fun _ => hP.pure _

theorem branchUsed_closed (info : CaseInfo) (previous : Option Context) (net : Context)
    : P Context (branchUsed info previous net) := by
  unfold branchUsed
  split
  . exact hP.pure _
  . exact Context.join_closed hP _ _ _

mutual

theorem infer_closed (env : Env) (e : Expr) (c : Context) (polarity : Polarity) (goal : Goal)
    : P Typed (infer env e c polarity goal) := by
  have hconclude := fun pos => conclude_closed hP env pos polarity goal
  have hconsumed := checkConsumed_closed hP.toClosed
  have hcombine := Context.combine_closed hP.toClosedQuietly
  cases e with
  | int pos n | float pos x =>
    simp only [infer]
    split
    . exact Closed.ite (hP.pure _) (conclude_closed hP _ _ _ _ _ _)
    . exact hconclude _ _ _
  | constructor pos name =>
    simp only [infer]
    exact hP.bind (constructorTy_closed hP _ _ _) fun _ => hconclude _ _ _
  | var pos name =>
    simp only [infer]
    exact hP.bind (varTy_closed hP.toClosedQuietly _ _ _ _) fun _ => hconclude _ _ _
  | lam pos b declared body =>
    simp only [infer]
    split
    . next topLevel arg result =>
      have hbody : P Typed (lamBody env b body c polarity topLevel arg result) := by
        apply hP.bind (infer_closed env body _ _ _)
        intro inner
        exact hP.bind (hconsumed _ _ _) fun _ => hP.pure _
      split
      . apply hP.bind (Ty.relate_closed hP _ _ _ _ _)
        intro unified
        exact hP.guard hbody
      . exact hbody
    . split
      . exact hP.fail _ _
      . apply hP.bind (infer_closed env body _ _ _)
        intro inner
        exact hP.bind (hconsumed _ _ _) fun _ => hconclude _ _ _
  | app pos f a =>
    simp only [infer]
    split
    . split
      . exact hP.bind (infer_closed env a _ _ _) fun _ => hP.pure _
      . apply hP.bind (infer_closed env a _ _ _)
        intro arg
        apply hP.bind (infer_closed env f _ _ _)
        intro function
        exact hP.bind (hcombine _ _ _) fun _ => hP.pure _
    . apply hP.bind (infer_closed env f _ _ _)
      intro function
      split
      . apply hP.bind (infer_closed env a _ _ _)
        intro arg
        exact hP.bind (hcombine _ _ _) fun _ => hP.pure _
      . exact hP.fail _ _
  | promote pos e =>
    simp only [infer]
    split
    . apply hP.bind (Context.freshen_closed hP.toClosedQuietly _ _ _ _)
      intro fresh
      apply hP.bind (infer_closed env e _ _ _)
      intro inner
      cases polarity with
      | positive | negative => exact hP.bind (Context.le_closed hP _ _ _) fun _ => hP.pure _
    . apply hP.bind (hP.freshGradeKind _)
      intro kind
      apply hP.bind (hP.freshGrade _ _)
      intro grade
      exact hP.bind (infer_closed env e _ _ _) fun _ => hconclude _ _ _
  | lift pos e =>
    simp only [infer]
    split
    . exact hP.bind (infer_closed env e _ _ _) fun _ => hP.pure _
    . exact hP.bind (infer_closed env e _ _ _) fun _ => hconclude _ _ _
  | pair pos a b =>
    simp only [infer]
    split
    . apply hP.bind (infer_closed env a _ _ _)
      intro left
      apply hP.bind (infer_closed env b _ _ _)
      intro right
      apply hP.bind (hcombine _ _ _)
      intro used
      exact hP.bind (Substitution.combine_closed hP _ _ _ _) fun _ => hP.pure _
    . apply hP.bind (infer_closed env a _ _ _)
      intro left
      apply hP.bind (infer_closed env b _ _ _)
      intro right
      exact hP.bind (hcombine _ _ _) fun _ => hconclude _ _ _
  | binop pos op a b =>
    simp only [infer]
    refine hP.bind (firstFit_closed hP.toClosed ?_ ?_ _ _) fun _ => hconclude _ _ _
    . intro left right
      apply hP.bind (infer_closed env a _ _ _)
      intro l
      exact hP.bind (infer_closed env b _ _ _) fun _ => hcombine _ _ _
    . refine hP.bind (hP.dryRun ?_) fun _ => hP.fail _ _
      apply hP.bind (infer_closed env a _ _ _)
      intro l
      exact hP.bind (infer_closed env b _ _ _) fun _ => hP.pure _
  | case pos scrutinee branches =>
    unfold infer
    apply hP.bind (infer_closed env scrutinee _ _ _)
    intro value
    apply hP.bind (baseline_closed hP.toClosedQuietly _ _ _)
    intro base
    apply hP.bind (inferBranches_closed env _ branches _)
    intro joined
    apply hP.bind (hcombine _ _ _)
    intro used
    apply hP.bind (hcombine _ _ _)
    intro used'
    split
    . exact hP.pure _
    . exact hP.fail _ _
  | letDiamond pos b declared value rest =>
    simp only [infer]
    apply hP.bind (infer_closed env value _ _ _)
    intro first
    split
    . next effects content _ =>
      have hrest : P Typed (letDiamondRest env pos b rest c polarity goal effects content first.used) := by
        apply hP.bind (infer_closed env rest _ _ _)
        intro second
        split
        . apply hP.bind (hconsumed _ _ _)
          intro _
          exact hP.bind (hcombine _ _ _) fun _ => hconclude _ _ _
        . exact hP.fail _ _
      split
      . apply hP.bind (Ty.relate_closed hP _ _ _ _ _)
        intro unified
        exact hP.guard hrest
      . exact hrest
    . exact hP.fail _ _
  | letBox pos b ty value rest =>
    rw [infer_letBox_eq]
    refine hP.unbox (fun grade => infer_closed env rest _ _ _) fun second demand => ?_
    apply hP.bind (infer_closed env value _ _ _)
    intro first
    exact hP.bind (hcombine _ _ _) fun _ => hconclude _ _ _

theorem inferBranches_closed (env : Env) (info : CaseInfo) (branches : List (Pattern × Expr)) (joined : Joined)
    : P Joined (inferBranches env info branches joined) := by
  cases branches with
  | nil =>
    simp only [inferBranches]
    exact hP.pure _
  | cons branch branches =>
    obtain ⟨p, body⟩ := branch
    rw [inferBranches_eq_imply]
    refine hP.bind (hP.imply (Pattern.matchTy_closed hP _ _ _) fun matched => ?_) fun r => ?_
    . apply hP.bind (infer_closed env body _ _ _)
      intro typed
      apply hP.bind (branchTy_closed hP _ _ _ _ _)
      intro ty
      apply hP.guard
      apply hP.bind (Context.le_closed hP _ _ _)
      intro _
      exact hP.bind (Context.le_closed hP _ _ _) fun _ => hP.pure _
    . exact hP.bind (branchUsed_closed hP _ _ _) fun _ => inferBranches_closed env info branches _

end

end

theorem varTy_quiet (env : Env) (c : Context) (pos : Nat) (name : String) : Quiet (varTy env c pos name) :=
  varTy_closed closedQuietly_quiet _ _ _ _

theorem infer_advancing (env : Env) (e : Expr) (c : Context) (polarity : Polarity) (goal : Goal)
    : Advancing (infer env e c polarity goal) :=
  infer_closed closedThroughout_advancing _ _ _ _ _

theorem baseline_reaching (pos : Nat) (c : Context) (branches : List (Pattern × Expr))
    : Reaching (baseline pos c branches) :=
  Quiet.reaching (baseline_closed closedQuietly_quiet _ _ _)

theorem branchTy_reaching (env : Env) (info : CaseInfo) (pos : Nat) (previous : Option Ty) (ty : Ty)
    : Reaching (branchTy env info pos previous ty) :=
  Advancing.reaching (branchTy_closed closedThroughout_advancing _ _ _ _ _)

theorem branchUsed_reaching (info : CaseInfo) (previous : Option Context) (net : Context)
    : Reaching (branchUsed info previous net) :=
  Advancing.reaching (branchUsed_closed closedThroughout_advancing _ _ _)

theorem infer_reaching (env : Env) (e : Expr) (c : Context) (polarity : Polarity) (goal : Goal)
    : Reaching (infer env e c polarity goal) :=
  (infer_advancing _ _ _ _ _).reaching

theorem inferBranches_reaching (env : Env) (info : CaseInfo) (branches : List (Pattern × Expr)) (joined : Joined)
    : Reaching (inferBranches env info branches joined) :=
  Advancing.reaching (inferBranches_closed closedThroughout_advancing _ _ _ _)

/--
The expressions whose type is found in the same way, whatever is asked about them.
-/
def concludes : Expr → Bool
  | .constructor _ _ => true
  | .var _ _ => true
  | .letDiamond _ _ _ _ _ => true
  | .letBox _ _ _ _ _ => true
  | .binop _ _ _ _ => true
  | _ => false

theorem letDiamondRest_eq_conclude (env : Env) (pos : Nat) (b : Binder) (rest : Expr) (c : Context)
    (polarity : Polarity) (goal : Goal) (effects : List String) (content : Ty) (used : Context)
    : letDiamondRest env pos b rest c polarity goal effects content used
        =
      (do
        let r ← letDiamondRest env pos b rest c polarity .synthesize effects content used
        conclude env pos polarity goal r.ty r.used) := by
  unfold letDiamondRest
  rw [bind_assoc]
  congr 1
  funext second
  split
  . simp only [bind_assoc]
    rfl
  . rfl

theorem infer_eq_conclude {e : Expr} (he : e.concludes = true) (env : Env) (c : Context) (polarity : Polarity)
    (goal : Goal)
    : infer env e c polarity goal
        =
      (do
        let r ← infer env e c polarity .synthesize
        conclude env e.pos polarity goal r.ty r.used) := by
  cases e with
  | constructor pos name | var pos name | binop pos op a b =>
    unfold infer
    rw [bind_assoc]
    rfl
  | letBox pos b ty value rest =>
    rw [infer_letBox_eq, infer_letBox_eq]
    simp only [bind_assoc]
    rfl
  | letDiamond pos b declared value rest =>
    unfold infer
    rw [bind_assoc]
    congr 1
    funext first
    split
    . next effects content _ =>
      have hrest := letDiamondRest_eq_conclude env pos b rest c polarity goal effects content first.used
      cases declared with
      | none => exact hrest
      | some ty =>
        dsimp only
        rw [bind_assoc]
        congr 1
        funext unified
        split
        . rfl
        . exact hrest
    . rfl
  | _ => cases he

/--
Whether an expression hands a type that it is checked against on to its parts.
-/
def handsOn : Expr → Ty → Bool
  | .int _ _, .const _ => true
  | .float _ _, .const _ => true
  | .lam _ _ _ _, .arrow _ _ => true
  | .app _ _ _, _ => true
  | .promote _ _, .box _ _ => true
  | .lift _ _, .diamond _ _ => true
  | .pair _ _ _, .pair _ _ => true
  | .case _ _ _, _ => true
  | _, _ => false

theorem infer_check_eq_conclude {e : Expr} {ty : Ty} (h : e.handsOn ty = false) (env : Env) (c : Context)
    (polarity : Polarity) (topLevel : Bool)
    : infer env e c polarity (.check topLevel ty)
        =
      (do
        let r ← infer env e c polarity .synthesize
        conclude env e.pos polarity (.check topLevel ty) r.ty r.used) := by
  cases e with
  | app pos f a | case pos scrutinee branches => cases h
  | constructor pos name | var pos name | letDiamond pos b declared value rest | letBox pos b ty value rest
  | binop pos op a b => exact infer_eq_conclude rfl env c polarity _
  | int pos n | float pos x =>
    simp only [infer]
    cases ty with
    | const name => cases h
    | _ => rfl
  | lam pos b declared body =>
    simp only [infer]
    cases declared with
    | none =>
      cases ty with
      | arrow arg result => cases h
      | _ => rfl
    | some arg =>
      simp only [bind_assoc]
      cases ty with
      | arrow arg result => cases h
      | _ => rfl
  | promote pos e =>
    simp only [infer, bind_assoc]
    cases ty with
    | box grade content => cases h
    | _ => rfl
  | lift pos e =>
    simp only [infer, bind_assoc]
    cases ty with
    | diamond effects content => cases h
    | _ => rfl
  | pair pos a b =>
    simp only [infer, bind_assoc]
    cases ty with
    | pair a b => cases h
    | _ => rfl

end Expr
end GradedModal
