import Mathlib
import GradedModal.Proofs.KindedTypes

/-!
This module says when synthesized types have the kind of types. The types of the context are given, and all other types
come from signatures, comparisons and bounds, except for those that an expression declares. These are never checked, so
they have to be given too.
-/

namespace GradedModal

open CheckM

theorem Ty.keeps_all {env : Env} {s s' : State} {tys : List Ty} (hs : s.IsAcyclic) (hkeeps : s.Keeps s')
    (h : ∀ ty ∈ tys, ty.HasKind env s .type) : ∀ ty ∈ tys, ty.HasKind env s' .type :=
  fun ty hty => (h ty hty).keeps hs hkeeps

theorem Context.combine_reaches {pos : Nat} {left right u : Context} {s s' : State}
    (h : Context.combine pos left right s = .ok u s') : s.Reaches s' :=
  Context.combine_reaching _ _ _ h

namespace Expr

variable {env : Env} {c : Context} {polarity : Polarity} {goal : Goal} {pos : Nat} {s s' : State} {r : Typed}

theorem infer_reaches {e : Expr} (h : infer env e c polarity goal s = .ok r s') : s.Reaches s' :=
  infer_reaching _ _ _ _ _ h

theorem conclude_hasKinds {actual : Ty} {used : Context} (hs : s.IsOrderly)
    (h : conclude env pos polarity goal actual used s = .ok r s') : r.subst.HasKinds env s' := by
  unfold conclude at h
  split at h
  . rw [pure_eq_ok] at h
    obtain ⟨rfl, rfl⟩ := h
    exact .nil
  . dsimp only at h
    rw [bind_eq_ok] at h
    obtain ⟨unified, s₁, hunified, h⟩ := h
    rw [mapError_eq_ok] at hunified
    split at h
    . rw [pure_eq_ok] at h
      obtain ⟨rfl, rfl⟩ := h
      exact (Unify.relate_settles hs hunified).subst
    . rw [throw_eq_ok] at h
      exact h.elim

theorem infer_hasKinds (env : Env) (e : Expr) {c : Context} {polarity : Polarity} {goal : Goal} {r : Typed}
    {s s' : State} (hs : s.IsOrderly) (h : infer env e c polarity goal s = .ok r s') : r.subst.HasKinds env s' := by
  cases e with
  | int pos n =>
    obtain ⟨_, _, _, rfl, _⟩ | h := infer_int h
    . exact .nil
    . exact conclude_hasKinds hs h
  | float pos x =>
    obtain ⟨_, _, _, rfl, _⟩ | h := infer_float h
    . exact .nil
    . exact conclude_hasKinds hs h
  | lam pos b declared body =>
    obtain ⟨_, _, _, _, _, _, hdeclared, hbody, _, rfl⟩ | ⟨_, _, _, _, _, hbody, _, h⟩ := infer_lam h
    . have hs₁ := hs.of_reaches (checkDeclared_reaching _ _ _ _ hdeclared)
      have hbody := infer_hasKinds env body hs₁ hbody
      exact hbody
    . exact conclude_hasKinds (hs.of_reaches (infer_reaches hbody)) h
  | app pos f a =>
    obtain ⟨_, _, _, _, _, ha, rfl⟩ | ⟨_, _, _, _, _, _, _, _, ha, hf, hused, rfl⟩ |
      ⟨_, _, _, _, _, _, _, _, hf, _, ha, hused, rfl⟩ := infer_app h
    . have ha := infer_hasKinds env a hs ha
      exact ha
    . have hs₁ := hs.of_reaches (infer_reaches ha)
      obtain ⟨_, hs₂⟩ := hs₁.step (infer_reaches hf)
      exact (infer_hasKinds env f hs₁ hf).keeps hs₂.acyclic (hs₂.keeps (Context.combine_reaches hused))
    . exact .nil
  | promote pos e =>
    obtain ⟨_, _, _, _, _, _, _, _, hfresh, he, hle, rfl⟩ | ⟨_, _, _, _, _, _, _, hkind, hgrade, he, h⟩ :=
      infer_promote h
    . have hs₁ := hs.of_reaches (Context.freshen_reaching _ _ _ _ hfresh)
      have hs₂ := hs₁.of_reaches (infer_reaches he)
      refine (infer_hasKinds env e hs₁ he).keeps hs₂.acyclic (hs₂.keeps ?_)
      cases polarity with
      | positive | negative => exact Context.le_reaching _ _ _ hle
    . have hs₂ := (hs.of_reaches (reaching_freshGradeKind _ hkind)).of_reaches (reaching_freshGrade _ _ hgrade)
      exact conclude_hasKinds (hs₂.of_reaches (infer_reaches he)) h
  | lift pos e =>
    obtain ⟨_, _, _, _, _, he, rfl⟩ | ⟨_, _, _, he, h⟩ := infer_lift h
    . have he := infer_hasKinds env e hs he
      exact he
    . exact conclude_hasKinds (hs.of_reaches (infer_reaches he)) h
  | pair pos a b =>
    obtain ⟨_, _, _, _, _, _, _, _, _, _, _, ha, hb, hused, hsubst, rfl⟩ | ⟨_, _, _, _, _, _, _, ha, hb, hused, h⟩ :=
      infer_pair h
    . have hs₁ := hs.of_reaches (infer_reaches ha)
      obtain ⟨hkeeps₂, hs₂⟩ := hs₁.step (infer_reaches hb)
      obtain ⟨hkeeps₃, hs₃⟩ := hs₂.step (Context.combine_reaches hused)
      have ha := (infer_hasKinds env a hs ha).keeps hs₁.acyclic (hkeeps₂.trans hkeeps₃)
      have hb := (infer_hasKinds env b hs₁ hb).keeps hs₂.acyclic hkeeps₃
      exact Unify.merge_hasKinds (Ty.equal_reaching env pos) hs₃ ha hb hsubst
    . have hs₂ := (hs.of_reaches (infer_reaches ha)).of_reaches (infer_reaches hb)
      exact conclude_hasKinds (hs₂.of_reaches (Context.combine_reaches hused)) h
  | case pos scrutinee branches =>
    obtain ⟨_, _, _, _, _, _, _, _, _, _, _, _, _, _, hsubst⟩ := infer_case h
    rw [hsubst]
    exact .nil
  | constructor pos name | var pos name | binop pos op a b | letDiamond pos b declared value rest
  | letBox pos b ty value rest =>
    rw [infer_eq_conclude rfl, bind_eq_ok] at h
    obtain ⟨_, _, hsynthesize, h⟩ := h
    exact conclude_hasKinds (hs.of_reaches (infer_reaches hsynthesize)) h

mutual

/--
The types that are declared for variables where the type of an expression comes from. What is only checked, such as an
argument, is left out.
-/
def declared : Expr → List Ty
  | .lam _ _ ty body => ty.toList ++ body.declared
  | .app _ f _ => f.declared
  | .promote _ e => e.declared
  | .lift _ e => e.declared
  | .pair _ a b => a.declared ++ b.declared
  | .case _ scrutinee branches => scrutinee.declared ++ declaredAll branches
  | .letDiamond _ _ _ value rest => value.declared ++ rest.declared
  | .letBox _ _ ty _ rest => ty :: rest.declared
  | .int _ _ | .float _ _ | .constructor _ _ | .var _ _ | .binop _ _ _ _ => []

def declaredAll : List (Pattern × Expr) → List Ty
  | [] => []
  | (_, body) :: branches => body.declared ++ declaredAll branches

end

theorem varTy_hasKind {name : String} {ty : Ty} {used : Context} (henv : env.IsKinded) (hs : s.IsOrderly)
    (hc : c.HasTypes env s) (h : varTy env c pos name s = .ok (ty, used) s') : ty.HasKind env s' .type := by
  have hkeeps := hs.keeps (varTy_quiet env c pos name h).reaches
  obtain ⟨hx, _⟩ | ⟨_, _, hx, _⟩ | ⟨scheme, _, hscheme, hty, _⟩ := varTy_eq_ok h
  . exact hc.keeps hs.acyclic hkeeps _ (mem_of_lookup hx)
  . exact hc.keeps hs.acyclic hkeeps _ (mem_of_lookup hx)
  . exact (henv.definitions name scheme hscheme).instantiate hty

theorem branchTy_hasKind {info : CaseInfo} {previous result : Option Ty} {ty : Ty} (hs : s.IsOrderly)
    (hprevious : ∀ ty, previous = some ty → ty.HasKind env s .type) (hty : ty.HasKind env s .type)
    (h : branchTy env info pos previous ty s = .ok result s') : ∀ ty, result = some ty → ty.HasKind env s' .type := by
  unfold branchTy at h
  generalize info.expected = expected at h
  split at h
  . rw [pure_eq_ok] at h
    obtain ⟨rfl, rfl⟩ := h
    rintro _ ⟨⟩
  . rw [pure_eq_ok] at h
    obtain ⟨rfl, rfl⟩ := h
    rintro _ ⟨⟩
    exact hty
  . simp only [bind_eq_ok, pure_eq_ok] at h
    obtain ⟨bound, _, hbound, rfl, rfl⟩ := h
    rintro _ ⟨⟩
    exact (Ty.join_hasKind hs (hprevious _ rfl) hty hbound).1

theorem closeBranch_keeps {info : CaseInfo} {p : Pattern} {matched : Matched} {used net : Context} (hs : s.IsOrderly)
    (h : closeBranch info p pos matched used s = .ok net s') : s.Keeps s' ∧ s'.IsOrderly := by
  obtain ⟨_, _, s₁, s₂, hle, hle', hclose⟩ := closeBranch_eq_ok.mp h
  obtain ⟨hkeeps, hs₂⟩ := hs.step ((Context.le_reaching _ _ _ hle).trans (Context.le_reaching _ _ _ hle'))
  obtain ⟨htypeVars, hkinds, hnextFresh⟩ := State.closeScope_eq_ok hclose
  obtain ⟨hkeeps', hs'⟩ := hs₂.step_of_eq htypeVars hkinds hnextFresh
  exact ⟨hkeeps.trans hkeeps', hs'⟩

mutual

theorem infer_hasKind {env : Env} (henv : env.IsKinded) (e : Expr) {c : Context} {polarity : Polarity} {r : Typed}
    {s s' : State} (hs : s.IsOrderly) (hc : c.HasTypes env s) (hdeclared : ∀ ty ∈ e.declared, ty.HasKind env s .type)
    (h : infer env e c polarity .synthesize s = .ok r s') : r.ty.HasKind env s' .type := by
  cases e with
  | int pos n =>
    obtain ⟨_, _, ⟨⟩, _⟩ | h := infer_int h
    obtain ⟨rfl, rfl⟩ := conclude_synthesize h
    exact .const henv.int
  | float pos x =>
    obtain ⟨_, _, ⟨⟩, _⟩ | h := infer_float h
    obtain ⟨rfl, rfl⟩ := conclude_synthesize h
    exact .const henv.float
  | constructor pos name =>
    obtain ⟨_, _, hty, h⟩ := infer_constructor h
    obtain ⟨rfl, rfl⟩ := conclude_synthesize h
    exact constructorTy_hasKind henv hs hty
  | var pos name =>
    obtain ⟨_, _, _, hty, h⟩ := infer_var h
    obtain ⟨rfl, rfl⟩ := conclude_synthesize h
    exact varTy_hasKind henv hs hc hty
  | lam pos b ty body =>
    obtain ⟨_, _, _, _, _, ⟨⟩, _⟩ | ⟨arg, inner, _, _, rfl, hbody, _, h⟩ := infer_lam h
    obtain ⟨rfl, rfl⟩ := conclude_synthesize h
    rw [declared, Option.toList_some, List.singleton_append, List.forall_mem_cons] at hdeclared
    have hbody' := infer_hasKind henv body hs (hc.bind b.name (.linear arg) hdeclared.1) hdeclared.2 hbody
    exact .arrow (hdeclared.1.keeps hs.acyclic (hs.keeps (infer_reaches hbody))) hbody'
  | app pos f a =>
    obtain ⟨_, _, _, ⟨⟩, _⟩ | ⟨_, _, _, _, _, _, _, ⟨⟩, _⟩ |
      ⟨_, _, function, arg, _, _, _, _, hf, hty, ha, hused, rfl⟩ := infer_app h
    rw [declared] at hdeclared
    have hs₁ := hs.of_reaches (infer_reaches hf)
    obtain ⟨hkeeps₂, hs₂⟩ := hs₁.step (infer_reaches ha)
    have hfunction := infer_hasKind henv f hs hc hdeclared hf
    rw [hty] at hfunction
    cases hfunction with
    | arrow _ hresult =>
      have hresult := (hresult.keeps hs₁.acyclic hkeeps₂).solve hs₂.acyclic (infer_hasKinds env a hs₁ ha)
      exact hresult.keeps hs₂.acyclic (hs₂.keeps (Context.combine_reaches hused))
  | promote pos e =>
    obtain ⟨_, _, _, _, _, _, _, ⟨⟩, _⟩ | ⟨kind, grade, inner, s₁, s₂, s₃, _, hkind, hgrade, he, h⟩ := infer_promote h
    obtain ⟨rfl, rfl⟩ := conclude_synthesize h
    rw [declared] at hdeclared
    have hreaches₂ := (reaching_freshGradeKind _ hkind).trans (reaching_freshGrade _ _ hgrade)
    obtain ⟨hkeeps₂, hs₂⟩ := hs.step hreaches₂
    have he' := infer_hasKind henv e hs₂ (hc.keeps hs.acyclic hkeeps₂)
      (Ty.keeps_all hs.acyclic hkeeps₂ hdeclared) he
    exact .box ((Grade.hasKind_freshGrade hgrade).keeps hs₂.acyclic (hs₂.keeps (infer_reaches he))) he'
  | lift pos e =>
    obtain ⟨_, _, _, _, ⟨⟩, _⟩ | ⟨_, _, _, he, h⟩ := infer_lift h
    obtain ⟨rfl, rfl⟩ := conclude_synthesize h
    rw [declared] at hdeclared
    exact .diamond (infer_hasKind henv e hs hc hdeclared he)
  | binop pos op a b =>
    obtain ⟨sig, hsig, _, _, _, _, _, _, _, _, _, ha, hb, hused, h⟩ := infer_binop h
    obtain ⟨rfl, rfl⟩ := conclude_synthesize h
    exact ((henv.operators op sig hsig).mono _).result
  | pair pos a b =>
    obtain ⟨_, _, _, _, _, _, _, _, _, _, ⟨⟩, _⟩ | ⟨_, _, _, _, _, _, _, ha, hb, hused, h⟩ := infer_pair h
    obtain ⟨rfl, rfl⟩ := conclude_synthesize h
    rw [declared, List.forall_mem_append] at hdeclared
    obtain ⟨hkeeps₁, hs₁⟩ := hs.step (infer_reaches ha)
    obtain ⟨hkeeps₂, hs₂⟩ := hs₁.step (infer_reaches hb)
    have hkeeps₃ := hs₂.keeps (Context.combine_reaches hused)
    have ha := infer_hasKind henv a hs hc hdeclared.1 ha
    have hb := infer_hasKind henv b hs₁ (hc.keeps hs.acyclic hkeeps₁)
      (Ty.keeps_all hs.acyclic hkeeps₁ hdeclared.2) hb
    exact .pair (ha.keeps hs₁.acyclic (hkeeps₂.trans hkeeps₃)) (hb.keeps hs₂.acyclic hkeeps₃)
  | case pos scrutinee branches =>
    obtain ⟨value, base, joined, used, s₁, s₂, s₃, s₄, hvalue, hbase, hbranches, hused, hused', hty, _⟩ := infer_case h
    rw [declared, List.forall_mem_append] at hdeclared
    obtain ⟨hkeeps₁, hs₁⟩ := hs.step (infer_reaches hvalue)
    obtain ⟨hkeeps₂, hs₂⟩ := hs₁.step (baseline_reaching _ _ _ hbase)
    have hs₃ := hs₂.of_reaches (inferBranches_reaching _ _ _ _ hbranches)
    have hkeeps := hkeeps₁.trans hkeeps₂
    have hvalue := (infer_hasKind henv scrutinee hs hc hdeclared.1 hvalue).keeps hs₁.acyclic hkeeps₂
    have hbound := inferBranches_hasKind henv branches hs₂ rfl (hc.keeps hs.acyclic hkeeps) hvalue
      (Ty.keeps_all hs.acyclic hkeeps hdeclared.2) (by rintro _ ⟨⟩) hbranches
    have hreaches := (Context.combine_reaches hused).trans (Context.combine_reaches hused')
    exact (hbound r.ty hty).keeps hs₃.acyclic (hs₃.keeps hreaches)
  | letDiamond pos b ty value rest =>
    obtain ⟨first, _, content, second, _, _, _, s₁, s₂, s₃, s₄, hvalue, hty, hchecked, hrest, hty', _, hused, h⟩ :=
      infer_letDiamond h
    obtain ⟨rfl, rfl⟩ := conclude_synthesize h
    rw [declared, List.forall_mem_append] at hdeclared
    obtain ⟨hkeeps₁, hs₁⟩ := hs.step (infer_reaches hvalue)
    obtain ⟨hkeeps₂, hs₂⟩ := hs₁.step (checkDeclared_reaching _ _ _ _ hchecked)
    obtain ⟨hkeeps₃, hs₃⟩ := hs₂.step (infer_reaches hrest)
    have hkeeps := hkeeps₁.trans hkeeps₂
    have hfirst := infer_hasKind henv value hs hc hdeclared.1 hvalue
    rw [hty] at hfirst
    cases hfirst with
    | diamond hcontent =>
      have hsecond := infer_hasKind henv rest hs₂
        ((hc.keeps hs.acyclic hkeeps).bind b.name (.linear content) (hcontent.keeps hs₁.acyclic hkeeps₂))
        (Ty.keeps_all hs.acyclic hkeeps hdeclared.2) hrest
      rw [hty'] at hsecond
      cases hsecond with
      | diamond hresult => exact .diamond (hresult.keeps hs₃.acyclic (hs₃.keeps (Context.combine_reaches hused)))
  | letBox pos b ty value rest =>
    obtain ⟨_, grade, _, _, _, _, _, s₂, s₃, _, _, _, hkind, hgrade, hrest, hdemand, hvalue, hused, h⟩ :=
      infer_letBox h
    obtain ⟨rfl, rfl⟩ := conclude_synthesize h
    rw [declared, List.forall_mem_cons] at hdeclared
    obtain ⟨hkeeps₂, hs₂⟩ := hs.step ((reaching_freshGradeKind _ hkind).trans (reaching_freshGrade _ _ hgrade))
    have hs₃ := hs₂.of_reaches (infer_reaches hrest)
    have hsecond := infer_hasKind henv rest hs₂
      ((hc.keeps hs.acyclic hkeeps₂).bind b.name (.graded ty grade) (hdeclared.1.keeps hs.acyclic hkeeps₂))
      (Ty.keeps_all hs.acyclic hkeeps₂ hdeclared.2) hrest
    have hs₄ := hs₃.of_reaches (boxDemand_reaching _ _ _ _ hdemand)
    have hreaches := (infer_reaches hvalue).trans (Context.combine_reaches hused)
    have hsecond := hsecond.keeps hs₃.acyclic (hs₃.keeps (boxDemand_reaching _ _ _ _ hdemand))
    exact hsecond.keeps hs₄.acyclic (hs₄.keeps hreaches)

theorem inferBranches_hasKind {env : Env} (henv : env.IsKinded) (branches : List (Pattern × Expr)) {info : CaseInfo}
    {joined result : Joined} {s s' : State} (hs : s.IsOrderly) (hinfo : info.expected = none)
    (hc : info.context.HasTypes env s) (hscrutinee : info.scrutinee.HasKind env s .type)
    (hdeclared : ∀ ty ∈ declaredAll branches, ty.HasKind env s .type)
    (hjoined : ∀ ty, joined.ty = some ty → ty.HasKind env s .type)
    (h : inferBranches env info branches joined s = .ok result s')
    : ∀ ty, result.ty = some ty → ty.HasKind env s' .type := by
  cases branches with
  | nil =>
    unfold inferBranches at h
    rw [pure_eq_ok] at h
    obtain ⟨rfl, rfl⟩ := h
    exact hjoined
  | cons branch branches =>
    obtain ⟨p, body⟩ := branch
    rw [declaredAll, List.forall_mem_append] at hdeclared
    obtain ⟨matched, typed, _, _, _, s₁, s₂, s₃, s₄, s₅, _, _, hopen, hmatch, henter, hbody, hty, hclose, hused, h⟩ :=
      inferBranches_cons h
    -- Scopes are opened and closed without a change to the variables and the kinds.
    have hopen : s.Keeps s₁ ∧ s₁.IsOrderly := by
      cases hopen
      exact hs.step_of_eq rfl rfl rfl
    obtain ⟨hkeeps₁, hs₁⟩ := hopen
    obtain ⟨hkeeps₂, hs₂⟩ := hs₁.step (Pattern.matchTy_reaching _ _ _ hmatch)
    obtain ⟨htypeVars, hkinds, hnextFresh⟩ := State.enterConsequent_eq_ok henter
    obtain ⟨hkeeps₃, hs₃⟩ := hs₂.step_of_eq htypeVars hkinds hnextFresh
    obtain ⟨hkeeps₄, hs₄⟩ := hs₃.step (infer_reaches hbody)
    obtain ⟨hkeeps₅, hs₅⟩ := hs₄.step (branchTy_reaching _ _ _ _ _ hty)
    obtain ⟨hkeeps₆, hs₆⟩ := closeBranch_keeps hs₅ hclose
    obtain ⟨hkeeps₇, hs₇⟩ := hs₆.step (branchUsed_reaching _ _ _ hused)
    have hkeeps' := hkeeps₁.trans (hkeeps₂.trans hkeeps₃)
    have hmatched := Pattern.matchTy_introduces henv p hs₁ (hscrutinee.keeps hs.acyclic hkeeps₁) hmatch
    have hcontext := (hmatched.keeps hs₂.acyclic hkeeps₃).context
    have hgoal : branchGoal info matched = .synthesize := by
      unfold branchGoal
      rw [hinfo]
    rw [hgoal] at hbody
    have htyped := infer_hasKind henv body hs₃ ((hc.keeps hs.acyclic hkeeps').bindAll hcontext)
      (Ty.keeps_all hs.acyclic hkeeps' hdeclared.1) hbody
    have hprevious := fun ty hty => (hjoined ty hty).keeps hs.acyclic (hkeeps'.trans hkeeps₄)
    have hbound := branchTy_hasKind hs₄ hprevious htyped hty
    have hkeeps := hkeeps'.trans (hkeeps₄.trans (hkeeps₅.trans (hkeeps₆.trans hkeeps₇)))
    exact inferBranches_hasKind henv branches hs₇ hinfo (hc.keeps hs.acyclic hkeeps)
      (hscrutinee.keeps hs.acyclic hkeeps) (Ty.keeps_all hs.acyclic hkeeps hdeclared.2)
      (fun ty hty => (hbound ty hty).keeps hs₅.acyclic (hkeeps₆.trans hkeeps₇)) h

end

end Expr

/--
Inferring the kind of a type succeeds with the kind of types, and has nothing to learn.
-/
def Ty.IsKinded (env : Env) (s : State) (ty : Ty) : Prop :=
  ∀ pos, ty.inferKind env pos s = .ok .type s

theorem Ty.isKinded_iff {env : Env} {s : State} {ty : Ty} (hs : s.IsAcyclic)
    : ty.IsKinded env s ↔ ty.HasKind env s .type := by
  constructor
  . intro h
    exact Ty.hasKind_inferKind hs (h 0)
  . intro h pos
    obtain ⟨kind, hkind, htype⟩ := h.inferKind hs pos
    rw [hkind, State.eq_type_of_resolveKind htype]

theorem Builtins.binary_isKinded {env : Env} {a b result : String} (ha : env.builtins.types.lookup a = some .type)
    (hb : env.builtins.types.lookup b = some .type) (hresult : env.builtins.types.lookup result = some .type)
    : (Scheme.mono (binary a b result)).IsKinded env := by
  refine ⟨List.nodup_nil, (Ty.isKinded_iff (Scheme.isAcyclic_scope _)).mpr ?_⟩
  exact .arrow (.const ha) (.arrow (.const hb) (.const hresult))

section

variable {definitions : List (String × Scheme)}

theorem Builtins.constructors_isKinded
    : ∀ c ∈ standard.constructors, c.2.IsKinded ⟨standard, definitions⟩ := by
  simp only [standard, List.forall_mem_cons]
  refine ⟨⟨?_, fun _ => rfl⟩, ⟨?_, fun _ => rfl⟩, ⟨?_, fun _ => rfl⟩, ⟨?_, fun _ => rfl⟩, ⟨?_, fun _ => rfl⟩,
    ⟨?_, fun _ => rfl⟩, ⟨?_, fun _ => rfl⟩, List.forall_mem_nil _⟩
  all_goals decide

theorem Builtins.operators_isKinded
    : ∀ o ∈ standard.operators, (Scheme.mono o.2).IsKinded ⟨standard, definitions⟩ := by
  intro o ho
  have hbinary : ∀ o ∈ standard.operators, ∃ a ∈ ["Int", "Float"], ∃ result ∈ ["Int", "Float", "Bool"],
      o.2 = binary a a result := by
    decide
  have hoperands : ∀ a ∈ ["Int", "Float"], standard.types.lookup a = some .type := by
    decide
  have hresults : ∀ result ∈ ["Int", "Float", "Bool"], standard.types.lookup result = some .type := by
    decide
  obtain ⟨a, ha, result, hresult, hty⟩ := hbinary o ho
  rw [hty]
  exact binary_isKinded (hoperands a ha) (hoperands a ha) (hresults result hresult)

theorem Builtins.definitions_isKinded
    : ∀ d ∈ standard.definitions, d.2.IsKinded ⟨standard, definitions⟩ := by
  simp only [standard, List.forall_mem_cons]
  refine ⟨⟨?_, fun _ => rfl⟩, ⟨?_, fun _ => rfl⟩, ⟨?_, fun _ => rfl⟩, List.forall_mem_nil _⟩
  all_goals decide

/--
The builtins of the language have signatures with kinds, so only those of the program remain to be checked.
-/
theorem Env.isKinded_standard (h : ∀ d ∈ definitions, d.2.IsKinded ⟨.standard, definitions⟩)
    : Env.IsKinded ⟨.standard, definitions⟩ where
  int := rfl
  float := rfl
  list := rfl
  number := rfl
  constructors := fun _ _ hlookup => Builtins.constructors_isKinded _ (mem_of_lookup hlookup)
  operators := by
    intro op ty hty
    obtain ⟨o, ho, rfl⟩ := List.mem_map.mp hty
    exact Builtins.operators_isKinded o (List.mem_of_mem_filter ho)
  definitions := by
    intro name scheme hlookup
    rcases Option.or_eq_some_iff.mp hlookup with hown | ⟨_, hbuiltin⟩
    . exact h _ (mem_of_lookup hown)
    . exact Builtins.definitions_isKinded _ (mem_of_lookup hbuiltin)

end

theorem State.IsOrderly.of_isDotless {s : State} (hkinds : s.kinds = [])
    (hvars : ∀ v ∈ s.typeVars, isDotless v.name = true) : s.IsOrderly where
  acyclic := by
    intro kind name _
    rw [hkinds]
    rfl
  fresh := by
    intro v hv hint k _ hname
    have hdotless := hvars v hv
    rw [hname, isDotless_freshName] at hdotless
    cases hdotless

/--
A synthesized type is kinded if the types of the context and the types that the expression declares are.
-/
theorem Expr.synthesized_type_isKinded (env : Env) (henv : env.IsKinded) (s : State) (hs : s.IsOrderly) (c : Context)
    (hc : ∀ b ∈ c.bindings, b.2.ty.IsKinded env s) (e : Expr) (he : ∀ ty ∈ e.declared, ty.IsKinded env s)
    (polarity : Polarity) (ty : Ty) (used : Context) (s' : State)
    (h : e.synthesize env c polarity s = .ok (ty, used) s') : ty.IsKinded env s' := by
  obtain ⟨r, hinfer, hresult⟩ := synthesize_eq_ok h
  cases hresult
  have hs' := hs.of_reaches (infer_reaches hinfer)
  have hc : c.HasTypes env s := fun b hb => (Ty.isKinded_iff hs.acyclic).mp (hc b hb)
  have he : ∀ ty ∈ e.declared, ty.HasKind env s .type := fun ty hty => (Ty.isKinded_iff hs.acyclic).mp (he ty hty)
  exact (Ty.isKinded_iff hs'.acyclic).mpr (infer_hasKind henv e hs hc he hinfer)

/-- Put an element in front of a list. -/
def Expr.prepend : Expr :=
  .lam 0 ⟨0, "y"⟩ (some (.var "a")) (.app 0 (.app 0 (.constructor 0 "Cons") (.var 0 "y")) (.var 0 "xs"))

/-- The type of the elements and the length of the list are in scope. -/
def State.lists : State :=
  ⟨[], [], [⟨"n", .grade .nat, .universal⟩, ⟨"a", .type, .universal⟩], [], 0⟩

theorem Expr.synthesized_type_isKinded_prepend
    : ∃ used s',
        Expr.prepend.synthesize ⟨.standard, []⟩ ⟨[("xs", .linear (.list (.var "n") (.var "a")))]⟩ .positive .lists
          = .ok (.arrow (.var "a") (.list (.var "m.1") (.var "a")), used) s' ∧
      Ty.IsKinded ⟨.standard, []⟩ s' (.arrow (.var "a") (.list (.var "m.1") (.var "a"))) := by
  have hsynthesize : yields (Expr.prepend.synthesize ⟨.standard, []⟩ ⟨[("xs", .linear (.list (.var "n") (.var "a")))]⟩
      .positive) .lists (fun r _ => decide (r.1 = .arrow (.var "a") (.list (.var "m.1") (.var "a")))) = true := by
    cbv
  obtain ⟨used, s', h⟩ := exists_synthesize _ hsynthesize
  have henv : Env.IsKinded ⟨.standard, []⟩ := Env.isKinded_standard (List.forall_mem_nil _)
  have hs : State.lists.IsOrderly := .of_isDotless rfl (by decide)
  refine ⟨used, s', h, synthesized_type_isKinded _ henv _ hs _ ?_ _ ?_ _ _ _ _ h⟩
  . exact List.forall_mem_singleton.mpr fun _ => rfl
  . exact List.forall_mem_singleton.mpr fun _ => rfl

/--
The types that an expression declares are never checked, so a type that does not exist can be synthesized.
-/
theorem Expr.synthesized_type_unknown
    : Env.IsKinded ⟨.standard, []⟩ ∧ State.IsOrderly .start ∧
      ∃ used s',
        Expr.synthesize ⟨.standard, []⟩ .empty .positive (.lam 0 ⟨0, "x"⟩ (some (.const "Foo")) (.var 0 "x")) .start
          = .ok (.arrow (.const "Foo") (.const "Foo"), used) s' ∧
        ∀ pos, ∃ e s'', (Ty.arrow (.const "Foo") (.const "Foo")).inferKind ⟨.standard, []⟩ pos s' = .error e s'' := by
  have hsynthesize : yields (Expr.synthesize ⟨.standard, []⟩ .empty .positive
      (.lam 0 ⟨0, "x"⟩ (some (.const "Foo")) (.var 0 "x"))) .start
      (fun r _ => decide (r.1 = .arrow (.const "Foo") (.const "Foo"))) = true := by
    cbv
  obtain ⟨used, s', h⟩ := exists_synthesize _ hsynthesize
  refine ⟨Env.isKinded_standard (List.forall_mem_nil _), .of_isDotless rfl (List.forall_mem_nil _), used, s', h, ?_⟩
  intro pos
  exact ⟨_, _, rfl⟩

end GradedModal
