import Mathlib
import GradedModal.Proofs.Uses

/-!
This module says how the effects of an expression relate to the effects it is checked against. A comparison of
types is a prefix test of their effects. Which of the two has to be the prefix depends on how often the polarity
was flipped, and each application flips it.
-/

namespace GradedModal

open CheckM Context

namespace Ty

/--
The effects of a function after some arguments.
-/
def effectsAfter : Ty → Nat → Option (List String)
  | .diamond effects _, 0 => some effects
  | .arrow _ result, n + 1 => result.effectsAfter n
  | _, _ => none

variable {n : Nat} {ty left right : Ty} {effects effects' : List String}

theorem effectsAfter_zero (h : ty.effectsAfter 0 = some effects) : ∃ content, ty = .diamond effects content := by
  cases ty with
  | diamond effects' content =>
    cases h
    exact ⟨content, rfl⟩
  | _ => cases h

theorem effectsAfter_succ (h : ty.effectsAfter (n + 1) = some effects)
    : ∃ arg result, ty = .arrow arg result ∧ result.effectsAfter n = some effects := by
  cases ty with
  | arrow arg result => exact ⟨arg, result, rfl, h⟩
  | _ => cases h

theorem effectsAfter_substitute (h : ty.effectsAfter n = some effects) (subst : Substitution)
    : (ty.substitute subst).effectsAfter n = some effects := by
  induction n generalizing ty with
  | zero =>
    obtain ⟨content, rfl⟩ := effectsAfter_zero h
    rfl
  | succ n ih =>
    obtain ⟨arg, result, rfl, h⟩ := effectsAfter_succ h
    exact ih h

theorem effectsAfter_instantiate {scheme : Scheme} {s s' : State} (hinst : scheme.instantiate s = .ok ty s')
    (h : scheme.ty.effectsAfter n = some effects) : ty.effectsAfter n = some effects := by
  unfold Scheme.instantiate Scheme.refresh at hinst
  simp only [bind_eq_ok, pure_eq_ok] at hinst
  obtain ⟨_, _, ⟨_, _, _, rfl, rfl⟩, rfl, rfl⟩ := hinst
  exact effectsAfter_substitute h _

theorem prefix_of_unify {env : Env} {pos depth : Nat} {relation : Relation} {unified : Unified} {s s' : State}
    (h : Unify.relate env pos depth relation left right s = .ok unified s')
    (hleft : left.effectsAfter n = some effects) (hright : right.effectsAfter n = some effects')
    : effects <+: effects' := by
  induction depth generalizing n relation left right unified s s' with
  | zero =>
    unfold Unify.relate at h
    exact (fail_eq_ok.mp h).elim
  | succ depth ih =>
    cases n with
    | zero =>
      obtain ⟨content, rfl⟩ := effectsAfter_zero hleft
      obtain ⟨content', rfl⟩ := effectsAfter_zero hright
      unfold Unify.relate at h
      rw [bind_eq_ok] at h
      obtain ⟨inner, s₁, _, h⟩ := h
      split at h
      . next hinitial => exact List.isPrefixOf_iff_prefix.mp hinitial
      . exact (fail_eq_ok.mp h).elim
    | succ n =>
      obtain ⟨arg, result, rfl, hleft⟩ := effectsAfter_succ hleft
      obtain ⟨arg', result', rfl, hright⟩ := effectsAfter_succ hright
      unfold Unify.relate at h
      rw [bind_eq_ok] at h
      obtain ⟨args, s₁, _, h⟩ := h
      rw [bind_eq_ok] at h
      obtain ⟨results, s₂, hresults, _⟩ := h
      -- the results are compared in the order of the functions, only the arguments change sides
      exact ih hresults (effectsAfter_substitute hleft _) (effectsAfter_substitute hright _)

/--
The longer of the effects of the branches so far and those of one more. One of them has to be a prefix of the other.
-/
def longer : Option (List String) → List String → Option (List String)
  | none, effects => some effects
  | some known, effects =>
    if known.isPrefixOf effects then
      some effects
    else if effects.isPrefixOf known then
      some known
    else
      none

theorem longer_eq_some {known : Option (List String)} {longest : List String} (h : longer known effects = some longest)
    : effects <+: longest ∧ (∀ k, known = some k → k <+: longest) ∧ (longest = effects ∨ known = some longest) := by
  cases known with
  | none =>
    cases h
    exact ⟨List.prefix_rfl, by simp, .inl rfl⟩
  | some known =>
    unfold longer at h
    dsimp only at h
    split at h
    . next hinitial =>
      cases h
      refine ⟨List.prefix_rfl, ?_, .inl rfl⟩
      rintro k ⟨⟩
      exact List.isPrefixOf_iff_prefix.mp hinitial
    . split at h
      . next hinitial =>
        cases h
        refine ⟨List.isPrefixOf_iff_prefix.mp hinitial, ?_, .inr rfl⟩
        rintro k ⟨⟩
        exact List.prefix_rfl
      . cases h

theorem effectsAfter_join {env : Env} {pos : Nat} {s s' : State} (h : left.join env pos right s = .ok ty s')
    (hleft : left.effectsAfter n = some effects) (hright : right.effectsAfter n = some effects')
    : ty.effectsAfter n = longer (some effects) effects' := by
  induction n generalizing left right ty s s' with
  | zero =>
    obtain ⟨content, rfl⟩ := effectsAfter_zero hleft
    obtain ⟨content', rfl⟩ := effectsAfter_zero hright
    rw [join, bind_eq_ok] at h
    obtain ⟨inner, s₁, _, h⟩ := h
    split at h
    . next hinitial =>
      rw [pure_eq_ok] at h
      simp [← h.1, effectsAfter, longer, hinitial]
    . next hinitial =>
      split at h
      . next hinitial' =>
        rw [pure_eq_ok] at h
        simp [← h.1, effectsAfter, longer, hinitial, hinitial']
      . exact (fail_eq_ok.mp h).elim
  | succ n ih =>
    obtain ⟨arg, result, rfl, hleft⟩ := effectsAfter_succ hleft
    obtain ⟨arg', result', rfl, hright⟩ := effectsAfter_succ hright
    rw [join] at h
    simp only [bind_eq_ok, pure_eq_ok] at h
    obtain ⟨arg, s₁, _, result, s₂, hresult, rfl, rfl⟩ := h
    exact ih hresult hleft hright

end Ty

/--
Whether a pattern may bind a name: one of its variables, or a name that is made up for a wildcard.
-/
def Pattern.mayBind (p : Pattern) (x : String) : Bool :=
  p.boundVars.contains x || "_.".toList.isPrefixOf x.toList

theorem Pattern.lookup?_of_not_mayBind {env : Env} {p : Pattern} {ty : Ty} {m : Matched} {c : Context} {x : String}
    {s s' : State} (h : p.matchTy env ty s = .ok m s') (hx : p.mayBind x = false)
    : (c.bindAll m.context).lookup? x = c.lookup? x := by
  have hbinds := matchTy_binds h
  have hmem : x ∉ m.context.names := by
    intro hmem
    unfold mayBind at hx
    simp only [Bool.or_eq_false_iff, List.contains_eq_mem, decide_eq_false_iff_not] at hx
    obtain hvar | ⟨n, rfl⟩ := hbinds.named x hmem
    . exact hx.1 hvar
    . simp [String.toList_append] at hx
  rw [lookup?_bindAll hbinds.nodup, lookup?_eq_none_iff.mpr hmem, Option.none_or]

/--
The type a name was declared with.
-/
def declaredTy (env : Env) (c : Context) (x : String) : Option Ty :=
  match c.lookup? x with
  | some a => some a.ty
  | none => (env.lookup? x).map (·.ty)

/--
What is known about the types of names after one of them is bound.
-/
def rebind (types : String → Option Ty) (y : String) (ty : Option Ty) (x : String) : Option Ty :=
  if x = y then ty else types x

/--
What is known about the types of names after a pattern has bound some. The type of those is left open.
-/
def forget (types : String → Option Ty) (p : Pattern) (x : String) : Option Ty :=
  if p.mayBind x then none else types x

def Declared (env : Env) (c : Context) (types : String → Option Ty) : Prop :=
  ∀ x ty, types x = some ty → declaredTy env c x = some ty

namespace Declared

variable {env : Env} {c : Context} {types : String → Option Ty}

theorem bind {y : String} {a : Assumption} {declared : Option Ty} (h : Declared env c types)
    (hdeclared : ∀ ty, declared = some ty → a.ty = ty) : Declared env (c.bind y a) (rebind types y declared) := by
  intro x ty hx
  unfold rebind at hx
  unfold declaredTy
  rw [lookup?_bind]
  split at hx
  . next hxy =>
    rw [if_pos hxy, ← hdeclared ty hx]
  . next hxy =>
    rw [if_neg hxy]
    exact h x ty hx

theorem bindLinear (h : Declared env c types) (y : String) (ty : Ty)
    : Declared env (c.bind y (.linear ty)) (rebind types y none) :=
  h.bind (by simp)

theorem bindGraded (h : Declared env c types) (y : String) (ty : Ty) (grade : Grade)
    : Declared env (c.bind y (.graded ty grade)) (rebind types y (some ty)) :=
  h.bind (by simp [Assumption.ty])

theorem bindAll {p : Pattern} {ty : Ty} {m : Matched} {s s' : State} (h : Declared env c types)
    (hmatch : p.matchTy env ty s = .ok m s') : Declared env (c.bindAll m.context) (forget types p) := by
  intro x ty hx
  unfold forget at hx
  split at hx
  . cases hx
  . next hbind =>
    unfold declaredTy
    rw [Pattern.lookup?_of_not_mayBind hmatch (Bool.eq_false_iff.mpr hbind)]
    exact h x ty hx

end Declared

namespace Expr

mutual

/--
The effects of an expression after some arguments, if the declared types of the names in it tell them.
-/
def effectsAfter (env : Env) : Expr → (String → Option Ty) → Nat → Option (List String)
  | .var _ name, types, n => (types name).bind (·.effectsAfter n)
  | .constructor _ name, _, n =>
    if name = "Cons" ∨ name = "S" then
      none
    else
      (env.builtins.constructors.lookup name).bind (·.ty.effectsAfter n)
  | .app _ f _, types, n => f.effectsAfter env types (n + 1)
  | .lam _ b _ body, types, n + 1 => body.effectsAfter env (rebind types b.name none) n
  | .lift _ _, _, 0 => some []
  | .case _ _ branches, types, n => branchEffects env branches types n none
  | .letDiamond _ b _ value rest, types, 0 => do
    let first ← value.effectsAfter env types 0
    let second ← rest.effectsAfter env (rebind types b.name none) 0
    return first ++ second
  | .letBox _ b ty _ rest, types, n => rest.effectsAfter env (rebind types b.name (some ty)) n
  | _, _, _ => none

/--
The longest effects of branches, given those of the branches before.
-/
def branchEffects (env : Env)
    : List (Pattern × Expr) → (String → Option Ty) → Nat → Option (List String) → Option (List String)
  | [], _, _, known => known
  | (p, body) :: branches, types, n, known => do
    let effects ← body.effectsAfter env (forget types p) n
    let longest ← Ty.longer known effects
    branchEffects env branches types n (some longest)

end

mutual

/--
Whether the effects of an expression that is checked at a polarity have to be a prefix of the expected ones. Each
application on the way to them flips the polarity. A lifted expression has no effects.
-/
def keepsOrder : Expr → Polarity → Bool
  | .app _ f _, polarity => f.keepsOrder polarity.flip
  | .lam _ _ _ body, polarity => body.keepsOrder polarity
  | .lift _ _, _ => true
  | .case _ _ branches, polarity => branchesKeepOrder branches polarity
  | _, polarity => polarity = .positive

def branchesKeepOrder : List (Pattern × Expr) → Polarity → Bool
  | [], _ => true
  | (_, body) :: branches, polarity => body.keepsOrder polarity && branchesKeepOrder branches polarity

end

variable {env : Env} {c : Context} {types : String → Option Ty} {polarity : Polarity} {pos n : Nat}
variable {effects effects' : List String} {s s' : State}

theorem varTy_effects {name : String} {ty : Ty} {used : Context} (hc : Declared env c types)
    (h : varTy env c pos name s = .ok (ty, used) s') (he : (types name).bind (·.effectsAfter n) = some effects)
    : ty.effectsAfter n = some effects := by
  obtain ⟨declared, htypes, he⟩ := Option.bind_eq_some_iff.mp he
  have hdeclared := hc name declared htypes
  unfold declaredTy at hdeclared
  obtain ⟨hlookup, _⟩ | ⟨grade, kind, hlookup, _⟩ | ⟨scheme, hlookup, hscheme, hinst, _⟩ := varTy_eq_ok h
  . rw [hlookup] at hdeclared
    cases hdeclared
    exact he
  . rw [hlookup] at hdeclared
    cases hdeclared
    exact he
  . simp only [hlookup, hscheme, Option.map_some] at hdeclared
    cases hdeclared
    exact Ty.effectsAfter_instantiate hinst he

theorem constructorTy_effects {name : String} {ty : Ty} (h : constructorTy env pos name s = .ok ty s')
    (he : effectsAfter env (.constructor pos name) types n = some effects) : ty.effectsAfter n = some effects := by
  unfold effectsAfter at he
  unfold constructorTy at h
  split at he
  . cases he
  . next hname =>
    rw [if_neg hname] at h
    obtain ⟨scheme, hscheme, he⟩ := Option.bind_eq_some_iff.mp he
    rw [hscheme] at h
    exact Ty.effectsAfter_instantiate h he

theorem branchEffects_cons {p : Pattern} {body : Expr} {branches : List (Pattern × Expr)}
    {known : Option (List String)} (h : branchEffects env ((p, body) :: branches) types n known = some effects)
    : ∃ effects' longest, body.effectsAfter env (forget types p) n = some effects' ∧
        Ty.longer known effects' = some longest ∧
        branchEffects env branches types n (some longest) = some effects := by
  unfold branchEffects at h
  simp only [Option.bind_eq_bind, Option.bind_eq_some_iff] at h
  obtain ⟨effects', hbody, longest, hlongest, h⟩ := h
  exact ⟨effects', longest, hbody, hlongest, h⟩

theorem prefix_branchEffects {branches : List (Pattern × Expr)} {known : List String}
    (h : branchEffects env branches types n (some known) = some effects) : known <+: effects := by
  induction branches generalizing known with
  | nil =>
    unfold branchEffects at h
    cases h
    exact List.prefix_rfl
  | cons branch branches ih =>
    obtain ⟨p, body⟩ := branch
    obtain ⟨effects', longest, _, hlongest, h⟩ := branchEffects_cons h
    obtain ⟨_, hknown, _⟩ := Ty.longer_eq_some hlongest
    exact (hknown known rfl).trans (ih h)

theorem branchTy_effects {info : CaseInfo} {previous joined : Option Ty} {ty : Ty} {known : Option (List String)}
    (hexpected : info.expected = none) (h : branchTy env info pos previous ty s = .ok joined s')
    (hprevious : previous.map (·.effectsAfter n) = known.map some) (hty : ty.effectsAfter n = some effects)
    : joined.map (·.effectsAfter n) = some (Ty.longer known effects) := by
  unfold branchTy at h
  rw [hexpected] at h
  cases previous with
  | none =>
    rw [pure_eq_ok] at h
    cases known with
    | none => simp [← h.1, hty, Ty.longer]
    | some known => cases hprevious
  | some previous =>
    simp only [bind_eq_ok, pure_eq_ok] at h
    obtain ⟨joined', s₁, hjoin, rfl, rfl⟩ := h
    cases known with
    | none => cases hprevious
    | some known =>
      simp only [Option.map_some, Option.some.injEq] at hprevious
      simp [Ty.effectsAfter_join hjoin hprevious hty]

mutual

theorem synthesized_effects {env : Env} {c : Context} {types : String → Option Ty} {polarity : Polarity} {n : Nat}
    {effects : List String} {r : Typed} {s s' : State} (e : Expr) (hc : Declared env c types)
    (h : infer env e c polarity .synthesize s = .ok r s') (he : e.effectsAfter env types n = some effects)
    : r.ty.effectsAfter n = some effects := by
  cases e with
  | constructor pos name =>
    obtain ⟨ty, s₁, hty, h⟩ := infer_constructor h
    rw [(conclude_synthesize h).1]
    exact constructorTy_effects hty he
  | var pos name =>
    obtain ⟨ty, used, s₁, hty, h⟩ := infer_var h
    rw [(conclude_synthesize h).1]
    unfold effectsAfter at he
    exact varTy_effects hc hty he
  | lam pos b declared body =>
    obtain ⟨_, _, _, _, _, hgoal, _⟩ | ⟨arg, inner, s₁, _, _, hbody, _, h⟩ := infer_lam h
    . cases hgoal
    . rw [(conclude_synthesize h).1]
      cases n with
      | zero =>
        unfold effectsAfter at he
        cases he
      | succ n =>
        unfold effectsAfter at he
        have hinner := synthesized_effects body (hc.bindLinear _ _) hbody he
        exact hinner
  | app pos f a =>
    obtain ⟨_, _, _, hgoal, _⟩ | ⟨_, _, _, _, _, _, _, hgoal, _⟩ |
      ⟨argTy, resultTy, function, arg, used, s₁, s₂, _, hf, hty, _, _, rfl⟩ := infer_app h
    . cases hgoal
    . cases hgoal
    . unfold effectsAfter at he
      have hfunction := synthesized_effects f hc hf he
      rw [hty] at hfunction
      exact Ty.effectsAfter_substitute hfunction _
  | lift pos e =>
    obtain ⟨_, _, _, _, hgoal, _⟩ | ⟨inner, s₁, _, _, h⟩ := infer_lift h
    . cases hgoal
    . rw [(conclude_synthesize h).1]
      cases n with
      | zero =>
        unfold effectsAfter at he
        exact he
      | succ n =>
        unfold effectsAfter at he
        cases he
  | case pos scrutinee branches =>
    obtain ⟨value, base, joined, used, s₁, s₂, s₃, s₄, _, _, hbranches, _, _, hty, _⟩ := infer_case h
    unfold effectsAfter at he
    have hjoined := synthesized_branchEffects branches rfl hc hbranches he rfl
    change joined.ty = some r.ty at hty
    rw [hty] at hjoined
    exact Option.some.inj hjoined
  | letDiamond pos b declared value rest =>
    obtain ⟨first, _, _, second, _, _, _, s₁, s₂, s₃, s₄, hvalue, hty, _, hrest, hty', _, _, h⟩ := infer_letDiamond h
    rw [(conclude_synthesize h).1]
    cases n with
    | zero =>
      unfold effectsAfter at he
      simp only [Option.bind_eq_bind, Option.bind_eq_some_iff, Option.pure_def, Option.some.injEq] at he
      obtain ⟨effects₁, hvalue', effects₂, hrest', rfl⟩ := he
      have hfirst := synthesized_effects value hc hvalue hvalue'
      have hsecond := synthesized_effects rest (hc.bindLinear _ _) hrest hrest'
      rw [hty] at hfirst
      rw [hty'] at hsecond
      cases hfirst
      cases hsecond
      rfl
    | succ n =>
      unfold effectsAfter at he
      cases he
  | letBox pos b ty value rest =>
    obtain ⟨_, grade, second, _, _, _, s₁, s₂, s₃, s₄, s₅, s₆, _, _, hrest, _, _, _, h⟩ := infer_letBox h
    unfold effectsAfter at he
    have hsecond := synthesized_effects rest (hc.bindGraded _ _ _) hrest he
    rw [(conclude_synthesize h).1]
    exact hsecond
  | _ =>
    unfold effectsAfter at he
    cases he

theorem synthesized_branchEffects {env : Env} {info : CaseInfo} {types : String → Option Ty} {n : Nat}
    {known : Option (List String)} {effects : List String} {joined result : Joined} {s s' : State}
    (branches : List (Pattern × Expr)) (hexpected : info.expected = none) (hc : Declared env info.context types)
    (h : inferBranches env info branches joined s = .ok result s')
    (he : branchEffects env branches types n known = some effects)
    (hjoined : joined.ty.map (·.effectsAfter n) = known.map some)
    : result.ty.map (·.effectsAfter n) = some (some effects) := by
  cases branches with
  | nil =>
    unfold inferBranches at h
    rw [pure_eq_ok] at h
    unfold branchEffects at he
    rw [← h.1, hjoined, he]
    rfl
  | cons branch branches =>
    obtain ⟨p, body⟩ := branch
    obtain ⟨matched, typed, ty, _, _, s₁, s₂, s₃, s₄, s₅, s₆, s₇, _, hmatch, _, hbody, hty, _, _, h⟩ :=
      inferBranches_cons h
    obtain ⟨effects', longest, hbody', hlongest, he⟩ := branchEffects_cons he
    unfold branchGoal at hbody
    rw [hexpected] at hbody
    have heffects := synthesized_effects body (hc.bindAll hmatch) hbody hbody'
    have hty := branchTy_effects hexpected hty hjoined heffects
    rw [hlongest] at hty
    exact synthesized_branchEffects branches hexpected hc h he hty

end

def Ordered (kept : Bool) (effects effects' : List String) : Prop :=
  if kept then effects <+: effects' else effects' <+: effects

theorem Ordered.prefix_iff {kept : Bool} (h : Ordered kept effects effects')
    : (kept = false → effects' <+: effects) ∧ (effects <+: effects' ↔ kept = true ∨ effects = effects') := by
  cases kept with
  | true => exact ⟨by simp, fun _ => .inl rfl, fun _ => h⟩
  | false =>
    refine ⟨fun _ => h, ?_, ?_⟩
    . intro hinitial
      exact .inr (hinitial.eq_of_length_le (List.IsPrefix.length_le h))
    . intro heq
      obtain hkept | rfl := heq
      . cases hkept
      . exact List.prefix_rfl

theorem conclude_effects {actual expected : Ty} {used : Context} {topLevel : Bool} {r : Typed}
    (h : conclude env pos polarity (.check topLevel expected) actual used s = .ok r s')
    (hactual : actual.effectsAfter n = some effects) (hexpected : expected.effectsAfter n = some effects')
    : Ordered (decide (polarity = .positive)) effects effects' := by
  obtain ⟨relation, unified, _, _, h⟩ := conclude_check h
  cases polarity with
  | positive => exact Ty.prefix_of_unify h hactual hexpected
  | negative => exact Ty.prefix_of_unify h hexpected hactual

-- Both questions are answered from the same state, so the type that is compared is the one that is synthesized.
theorem exists_conclude {e : Expr} {topLevel : Bool} {expected : Ty} {r : Typed} (he : e.concludes = true)
    (h : infer env e c polarity (.check topLevel expected) s = .ok r s')
    : ∃ r₁ s₁, infer env e c polarity .synthesize s = .ok r₁ s₁ ∧
        conclude env e.pos polarity (.check topLevel expected) r₁.ty r₁.used s₁ = .ok r s' := by
  rw [infer_eq_conclude he, bind_eq_ok] at h
  exact h

theorem concluded_effects {e : Expr} {topLevel : Bool} {expected : Ty} {r : Typed} (hconcludes : e.concludes = true)
    (hc : Declared env c types) (h : infer env e c polarity (.check topLevel expected) s = .ok r s')
    (he : e.effectsAfter env types n = some effects) (hexpected : expected.effectsAfter n = some effects')
    : Ordered (decide (polarity = .positive)) effects effects' := by
  obtain ⟨r₁, s₁, hr₁, h⟩ := exists_conclude hconcludes h
  exact conclude_effects h (synthesized_effects e hc hr₁ he) hexpected

mutual

theorem checked_effects {env : Env} {c : Context} {types : String → Option Ty} {polarity : Polarity} {n : Nat}
    {effects effects' : List String} {topLevel : Bool} {expected : Ty} {r : Typed} {s s' : State} (e : Expr)
    (hc : Declared env c types) (h : infer env e c polarity (.check topLevel expected) s = .ok r s')
    (he : e.effectsAfter env types n = some effects) (hexpected : expected.effectsAfter n = some effects')
    : Ordered (e.keepsOrder polarity) effects effects' := by
  cases e with
  | constructor pos name | var pos name | letDiamond pos b declared value rest | letBox pos b ty value rest =>
    exact concluded_effects rfl hc h he hexpected
  | lam pos b declared body =>
    unfold keepsOrder
    cases n with
    | zero =>
      unfold effectsAfter at he
      cases he
    | succ n =>
      unfold effectsAfter at he
      obtain ⟨arg, result, rfl, hresult⟩ := Ty.effectsAfter_succ hexpected
      obtain ⟨_, _, _, inner, s₁, hgoal, _, hbody, _⟩ | ⟨_, _, _, hgoal, _⟩ := infer_lam h
      . cases hgoal
        exact checked_effects body (hc.bindLinear _ _) hbody he hresult
      . exact absurd rfl (hgoal topLevel arg result)
  | app pos f a =>
    unfold effectsAfter at he
    unfold keepsOrder
    obtain ⟨_, _, _, hgoal, _⟩ | ⟨_, _, arg, function, _, s₁, s₂, hgoal, _, hf, _⟩ | ⟨_, _, _, _, _, _, _, hgoal, _⟩ :=
      infer_app h
    . cases hgoal
      cases hexpected
    . cases hgoal
      have hexpected : (Ty.arrow arg.ty expected).effectsAfter (n + 1) = some effects' := hexpected
      exact checked_effects f hc hf he hexpected
    . cases hgoal
  | lift pos e =>
    cases n with
    | zero =>
      unfold effectsAfter at he
      cases he
      exact List.nil_prefix
    | succ n =>
      unfold effectsAfter at he
      cases he
  | case pos scrutinee branches =>
    obtain ⟨value, base, joined, used, s₁, s₂, s₃, s₄, _, _, hbranches, _⟩ := infer_case h
    unfold effectsAfter at he
    unfold keepsOrder
    exact checked_branchEffects branches rfl hc hbranches he hexpected (by simp)
  | _ =>
    unfold effectsAfter at he
    cases he

-- The longest effects are those of some branch, so they are bounded by the expected ones if those of all branches
-- are. A single branch that bounds the expected effects is enough for the other way round.
theorem checked_branchEffects {env : Env} {info : CaseInfo} {types : String → Option Ty} {n : Nat}
    {known : Option (List String)} {effects effects' : List String} {expected : Ty} {joined result : Joined}
    {s s' : State} (branches : List (Pattern × Expr)) (hinfo : info.expected = some expected)
    (hc : Declared env info.context types) (h : inferBranches env info branches joined s = .ok result s')
    (he : branchEffects env branches types n known = some effects)
    (hexpected : expected.effectsAfter n = some effects')
    (hknown : branchesKeepOrder branches info.polarity = true → ∀ k, known = some k → k <+: effects')
    : Ordered (branchesKeepOrder branches info.polarity) effects effects' := by
  cases branches with
  | nil =>
    unfold branchEffects at he
    exact hknown rfl effects he
  | cons branch branches =>
    obtain ⟨p, body⟩ := branch
    obtain ⟨matched, typed, _, _, _, s₁, s₂, s₃, s₄, s₅, s₆, s₇, _, hmatch, _, hbody, _, _, _, h⟩ :=
      inferBranches_cons h
    obtain ⟨effects₁, longest, hbody', hlongest, he⟩ := branchEffects_cons he
    obtain ⟨hlonger, _, hlongest⟩ := Ty.longer_eq_some hlongest
    unfold branchGoal at hbody
    rw [hinfo] at hbody
    have hordered := checked_effects body (hc.bindAll hmatch) hbody hbody' (Ty.effectsAfter_substitute hexpected _)
    have hbranches := checked_branchEffects branches hinfo hc h he hexpected
    unfold branchesKeepOrder at hknown ⊢
    cases hkeeps : body.keepsOrder info.polarity with
    | true =>
      rw [hkeeps] at hordered hknown
      apply hbranches
      rintro hall k ⟨⟩
      obtain rfl | rfl := hlongest
      . exact hordered
      . exact hknown hall _ rfl
    | false =>
      rw [hkeeps] at hordered
      exact (List.IsPrefix.trans hordered hlonger).trans (prefix_branchEffects he)

end

/--
Expressions that pass an expected type on to their parts: a function, or branches.
-/
def passesOn : Expr → Bool
  | .app _ _ _ => true
  | .case _ _ _ => true
  | _ => false

theorem concludes_or_nil {e : Expr} {r : Typed} {content : Ty} (he : e.passesOn = false)
    (h : infer env e c polarity .synthesize s = .ok r s') (hty : r.ty = .diamond effects content)
    : e.concludes = true ∨ effects = [] := by
  cases e with
  | int pos k =>
    obtain ⟨_, _, hgoal, _⟩ | h := infer_int h
    . cases hgoal
    . rw [(conclude_synthesize h).1] at hty
      cases hty
  | float pos x =>
    obtain ⟨_, _, hgoal, _⟩ | h := infer_float h
    . cases hgoal
    . rw [(conclude_synthesize h).1] at hty
      cases hty
  | lam pos b declared body =>
    obtain ⟨_, _, _, _, _, hgoal, _⟩ | ⟨_, _, _, _, _, _, _, h⟩ := infer_lam h
    . cases hgoal
    . rw [(conclude_synthesize h).1] at hty
      cases hty
  | promote pos e =>
    obtain ⟨_, _, _, _, _, _, _, hgoal, _⟩ | ⟨_, _, _, _, _, _, _, _, _, _, h⟩ := infer_promote h
    . cases hgoal
    . rw [(conclude_synthesize h).1] at hty
      cases hty
  | pair pos a b =>
    obtain ⟨_, _, _, _, _, _, _, _, _, _, hgoal, _⟩ | ⟨_, _, _, _, _, _, _, _, _, _, h⟩ := infer_pair h
    . cases hgoal
    . rw [(conclude_synthesize h).1] at hty
      cases hty
  | lift pos e =>
    obtain ⟨_, _, _, _, hgoal, _⟩ | ⟨_, _, _, _, h⟩ := infer_lift h
    . cases hgoal
    . rw [(conclude_synthesize h).1] at hty
      cases hty
      exact .inr rfl
  | app pos f a => cases he
  | case pos scrutinee branches => cases he
  | _ => exact .inl rfl

end Expr

/--
The effects of the type that is synthesized and of the type that is expected, when an expression is asked about
both at positive polarity. An expression that answers by its own type has effects that are a prefix of the
expected ones. One that passes the expected type on has them compared in its parts, and the other way round under
an odd number of applications.
-/
theorem effects_prefix_iff_keepsOrder {env : Env} {c used : Context} {e : Expr} {effects effects' : List String}
    {ty ty' : Ty} {topLevel : Bool} {result : Context × Substitution} {s s₁ s₂ : State}
    (hsynthesize : e.synthesize env c .positive s = .ok (.diamond effects ty, used) s₁)
    (hcheck : e.check env c .positive topLevel (.diamond effects' ty') s = .ok result s₂)
    : (e.passesOn = false → effects <+: effects') ∧
      (∀ declared, e.effectsAfter env (declaredTy env c) 0 = some declared →
        effects = declared ∧
        (e.keepsOrder .positive = false → effects' <+: effects) ∧
        (effects <+: effects' ↔ e.keepsOrder .positive = true ∨ effects = effects')) := by
  obtain ⟨r₁, hr₁, hresult⟩ := Expr.synthesize_eq_ok hsynthesize
  obtain ⟨r₂, hr₂, _⟩ := Expr.check_eq_ok hcheck
  have hty : r₁.ty = .diamond effects ty := (congrArg Prod.fst hresult).symm
  constructor
  . intro he
    obtain hconcludes | rfl := Expr.concludes_or_nil he hr₁ hty
    . obtain ⟨r, s', hr, h⟩ := Expr.exists_conclude hconcludes hr₂
      rw [hr₁] at hr
      cases hr
      rw [hty] at h
      exact Expr.conclude_effects (n := 0) h rfl rfl
    . exact List.nil_prefix
  . intro declared he
    have hdeclared : Declared env c (declaredTy env c) := fun _ _ h => h
    have heffects := Expr.synthesized_effects e hdeclared hr₁ he
    rw [hty] at heffects
    cases heffects
    exact ⟨rfl, (Expr.checked_effects e hdeclared hr₂ he rfl).prefix_iff⟩

/-- Read a number and write it. -/
def Expr.echo : Expr :=
  .letDiamond 0 ⟨0, "x"⟩ none (.var 0 "readInt") (.app 0 (.var 0 "writeInt") (.var 0 "x"))

theorem effects_prefix_iff_keepsOrder_echo
    : ∃ used s₁ result s₂,
        Expr.echo.synthesize ⟨.standard, []⟩ .empty .positive .start
          = .ok (.diamond ["R", "W"] (.const "Unit"), used) s₁ ∧
        Expr.echo.check ⟨.standard, []⟩ .empty .positive true (.diamond ["R", "W", "R"] (.const "Unit")) .start
          = .ok result s₂ ∧
        Expr.echo.passesOn = false ∧ ["R", "W"] <+: ["R", "W", "R"] ∧
        Expr.echo.effectsAfter ⟨.standard, []⟩ (declaredTy ⟨.standard, []⟩ .empty) 0 = some ["R", "W"] ∧
        Expr.echo.keepsOrder .positive = true := by
  have hsynthesize : yields (Expr.echo.synthesize ⟨.standard, []⟩ .empty .positive) .start
      (fun r _ => decide (r.1 = .diamond ["R", "W"] (.const "Unit"))) = true := by
    cbv
  have hcheck : yields (Expr.echo.check ⟨.standard, []⟩ .empty .positive true
      (.diamond ["R", "W", "R"] (.const "Unit"))) .start (fun _ _ => true) = true := by
    cbv
  obtain ⟨used, s₁, hsynthesize⟩ := Expr.exists_synthesize _ hsynthesize
  obtain ⟨result, s₂, hcheck, _⟩ := exists_of_yields hcheck
  have heffects : Expr.echo.effectsAfter ⟨.standard, []⟩ (declaredTy ⟨.standard, []⟩ .empty) 0 = some ["R", "W"] := by
    cbv
  have hinitial := ((effects_prefix_iff_keepsOrder hsynthesize hcheck).2 _ heffects).2.2.mpr (.inl rfl)
  exact ⟨used, s₁, result, s₂, hsynthesize, hcheck, rfl, hinitial, heffects, rfl⟩

/-- Write a number, by one application. -/
def Expr.writeOne : Expr :=
  .app 0 (.var 0 "writeInt") (.int 0 1)

theorem effects_hidden_by_application
    : ∃ used s₁ result s₂,
        Expr.writeOne.synthesize ⟨.standard, []⟩ .empty .positive .start
          = .ok (.diamond ["W"] (.const "Unit"), used) s₁ ∧
        Expr.writeOne.check ⟨.standard, []⟩ .empty .positive true (.diamond [] (.const "Unit")) .start
          = .ok result s₂ ∧
        ¬["W"] <+: [] := by
  have hsynthesize : yields (Expr.writeOne.synthesize ⟨.standard, []⟩ .empty .positive) .start
      (fun r _ => decide (r.1 = .diamond ["W"] (.const "Unit"))) = true := by
    cbv
  have hcheck : yields (Expr.writeOne.check ⟨.standard, []⟩ .empty .positive true (.diamond [] (.const "Unit")))
      .start (fun _ _ => true) = true := by
    cbv
  obtain ⟨used, s₁, hsynthesize⟩ := Expr.exists_synthesize _ hsynthesize
  obtain ⟨result, s₂, hcheck, _⟩ := exists_of_yields hcheck
  exact ⟨used, s₁, result, s₂, hsynthesize, hcheck, by decide⟩

end GradedModal
