import Mathlib
import GradedModal.Proofs.Kinding
import GradedModal.Proofs.Usage

/-!
This module says where types with kinds come from. What a comparison learns has the kinds of the variables that it
solves, because these kinds are unified. Types that agree have the same kind, and so has their bound. Instances of
signatures are types, and a pattern gives types to the variables that it binds.
-/

namespace GradedModal

open CheckM

section

variable {env : Env} {s s' : State} {ty : Ty} {g : Grade}

theorem State.IsOrderly.step (hs : s.IsOrderly) (h : s.Reaches s') : s.Keeps s' ∧ s'.IsOrderly :=
  ⟨hs.keeps h, hs.of_reaches h⟩

theorem State.IsOrderly.step_of_eq (hs : s.IsOrderly) (htypeVars : s'.typeVars = s.typeVars)
    (hkinds : s'.kinds = s.kinds) (hnextFresh : s'.nextFresh = s.nextFresh) : s.Keeps s' ∧ s'.IsOrderly := by
  refine ⟨⟨?_, ?_⟩, ⟨hs.acyclic.congr hkinds, ?_⟩⟩
  . intro x v hx
    unfold State.lookup?
    rw [htypeVars]
    exact hx
  . intro k l hkl
    rw [State.resolve_congr hkinds, State.resolve_congr hkinds, hkl]
  . rw [htypeVars, hnextFresh]
    exact hs.fresh

theorem Ty.HasKind.toGrade? {k : GradeKind} (h : ty.HasKind env s (.grade k)) (hg : ty.toGrade? = some g)
    : g.HasKind s k := by
  replace hg := readsAs_of_toGrade? hg
  induction hg with
  | var x =>
    generalize hkind : Kind.grade k = kind at h
    cases h with
    | @var _ v hx =>
      cases hv : v.kind with
      | grade l =>
        rw [hv] at hkind
        cases hkind
        exact .var hx hv
      | _ =>
        rw [hv] at hkind
        cases hkind
  | index n =>
    cases h
    exact .nat n
  | op _ _ iha ihb =>
    cases h with
    | op ha hb => exact .op (iha ha) (ihb hb)

theorem Ty.HasKind.eq_of_var {x : String} {v : TypeVar} {k : Kind} (h : (Ty.var x).HasKind env s k)
    (hx : s.lookup? x = some v) : k = s.resolveKind v.kind := by
  cases h with
  | var hx' =>
    cases hx.symm.trans hx'
    rfl

theorem Ty.HasKind.unique {k l : Kind} (h : ty.HasKind env s k) (h' : ty.HasKind env s l) : k = l := by
  induction h generalizing l with
  | const hn =>
    cases h' with
    | const hn' =>
      cases hn.symm.trans hn'
      rfl
  | var hx => exact (h'.eq_of_var hx).symm
  | op _ _ ih _ =>
    cases h' with
    | op ha _ => exact ih ha
  | app _ _ ih _ =>
    cases h' with
    | app ha _ => exact (Kind.arrow.inj (ih ha)).2
  | _ =>
    cases h'
    rfl

namespace Substitution

variable {first second subst : Substitution}

/--
Each solution has the kind of the variable that it solves.
-/
def HasKinds (env : Env) (s : State) (subst : Substitution) : Prop :=
  ∀ x ty, (x, ty) ∈ subst → ∃ v, s.lookup? x = some v ∧ ty.HasKind env s (s.resolveKind v.kind)

theorem HasKinds.nil : HasKinds env s [] :=
  fun _ _ h => absurd h List.not_mem_nil

theorem HasKinds.singleton {x : String} {v : TypeVar} (hx : s.lookup? x = some v)
    (hty : ty.HasKind env s (s.resolveKind v.kind)) : HasKinds env s [(x, ty)] := by
  intro y ty' hmem
  cases List.mem_singleton.mp hmem
  exact ⟨v, hx, hty⟩

theorem HasKinds.append (hfirst : first.HasKinds env s) (hsecond : second.HasKinds env s)
    : (first ++ second).HasKinds env s :=
  fun x ty hmem => (List.mem_append.mp hmem).elim (hfirst x ty) (hsecond x ty)

theorem HasKinds.keeps (h : subst.HasKinds env s) (hs : s.IsAcyclic) (hkeeps : s.Keeps s')
    : subst.HasKinds env s' := by
  intro x ty hmem
  obtain ⟨v, hx, hty⟩ := h x ty hmem
  exact ⟨v, hkeeps.lookup? x v hx, hty.keeps_resolveKind hs hkeeps⟩

theorem HasKinds.carries (h : subst.HasKinds env s) : subst.Carries env s s where
  kinds _ _ hkl := hkl
  var x v hx := by
    unfold Ty.substitute
    cases hlookup : subst.lookup x with
    | none => exact .var hx
    | some ty =>
      obtain ⟨v', hx', hty⟩ := h x ty (mem_of_lookup hlookup)
      cases hx.symm.trans hx'
      exact hty
  grade x v k hx hk := by
    unfold Grade.substitute
    cases hlookup : subst.lookup x with
    | none => exact .var hx hk
    | some ty =>
      obtain ⟨v', hx', hty⟩ := h x ty (mem_of_lookup hlookup)
      cases hx.symm.trans hx'
      rw [hk] at hty
      cases hg : ty.toGrade? with
      | none =>
        rw [Option.bind_some, hg]
        exact .var hx hk
      | some g =>
        rw [Option.bind_some, hg]
        exact hty.toGrade? hg

end Substitution

theorem Ty.HasKind.solve {k : Kind} {subst : Substitution} (h : ty.HasKind env s k) (hs : s.IsAcyclic)
    (hsubst : subst.HasKinds env s) : (ty.substitute subst).HasKind env s k := by
  have hty := h.substitute hs hsubst.carries
  rw [h.resolveKind_eq hs] at hty
  exact hty

end

theorem GradeKind.resolve_unify_constrain {pos : Nat} {s s₁ s₂ : State} {k l kind : GradeKind} {c : Constraint}
    {u : Unit} (hs : s.IsOrderly) (hunify : GradeKind.unify pos k l s = .ok kind s₁)
    (hconstrain : constrain c s₁ = .ok u s₂)
    : s.Keeps s₂ ∧ s₂.resolveKind (.grade k) = s₂.resolveKind (.grade l) := by
  have hreaches := (GradeKind.unify_quiet _ _ _ hunify).reaches
  have hkeeps := (hs.of_reaches hreaches).keeps (reaching_constrain _ hconstrain)
  obtain ⟨hk, hl⟩ := GradeKind.resolve_unify hs.acyclic hunify
  have heq := hkeeps.kinds _ _ (hk.trans hl.symm)
  exact ⟨(hs.keeps hreaches).trans hkeeps, congrArg Kind.grade heq⟩

namespace Unify

variable {env : Env} {pos : Nat} {s s' : State} {u : Unified}

structure Settles (env : Env) (left right : Ty) (s : State) (u : Unified) (s' : State) : Prop where
  subst : u.subst.HasKinds env s'
  kind : ∀ k l, u.agree = true → left.HasKind env s k → right.HasKind env s l → s'.resolveKind k = s'.resolveKind l

theorem vars_settles {left right : String} (hs : s.IsOrderly) (h : vars pos left right s = .ok u s')
    : Settles env (.var left) (.var right) s u s' := by
  have hkeeps := hs.keeps ((vars_advancing pos left right).reaching h)
  unfold vars at h
  rw [bind_eq_ok] at h
  obtain ⟨l, _, hl, h⟩ := h
  obtain ⟨hleft, rfl⟩ := lookup?_of_typeVar hl
  rw [bind_eq_ok] at h
  obtain ⟨r, _, hr, h⟩ := h
  obtain ⟨hright, rfl⟩ := lookup?_of_typeVar hr
  split at h
  . rw [pure_eq_ok] at h
    obtain ⟨rfl, rfl⟩ := h
    exact ⟨.nil, by rintro _ _ ⟨⟩⟩
  . generalize hvars : (if r.quantifier = .universal then (right, left) else (left, right)) = vars at h
    have hsolved : s'.resolveKind l.kind = s'.resolveKind r.kind ∧ u.subst = [(vars.2, .var vars.1)] := by
      dsimp only at h
      generalize l.kind = lkind at h ⊢
      generalize r.kind = rkind at h ⊢
      split at h
      . next k k' =>
        simp only [bind_eq_ok, pure_eq_ok] at h
        obtain ⟨kind, s₁, hunify, _, s₂, hconstrain, rfl, rfl⟩ := h
        exact ⟨(GradeKind.resolve_unify_constrain hs hunify hconstrain).2, rfl⟩
      . simp only [bind_eq_ok, discard_eq_ok, pure_eq_ok] at h
        obtain ⟨_, _, ⟨kind, hunify⟩, rfl, rfl⟩ := h
        obtain ⟨hk, hk'⟩ := Kind.resolveKind_unify hs.acyclic hunify
        exact ⟨hk.trans hk'.symm, rfl⟩
    obtain ⟨hkind, hsubst⟩ := hsolved
    have hleft' := hkeeps.lookup? left l hleft
    have hright' := hkeeps.lookup? right r hright
    constructor
    . rw [hsubst, ← hvars]
      split
      . exact .singleton hleft' (hkind ▸ .var hright')
      . exact .singleton hright' (hkind ▸ .var hleft')
    . intro k k' _ hk hk'
      rw [hk.eq_of_var hleft, hk'.eq_of_var hright, hkeeps.kinds.resolveKind_resolveKind hs.acyclic,
        hkeeps.kinds.resolveKind_resolveKind hs.acyclic, hkind]

theorem var_settles {name : String} {ty left : Ty} (hs : s.IsOrderly) (h : var env pos name ty left s = .ok u s')
    : u.subst.HasKinds env s' ∧ ∀ k l, (Ty.var name).HasKind env s k → ty.HasKind env s l →
        s'.resolveKind k = s'.resolveKind l := by
  have hkeeps := hs.keeps ((var_advancing env pos name ty left).reaching h)
  unfold var at h
  rw [bind_eq_ok] at h
  obtain ⟨v, _, hv, h⟩ := h
  obtain ⟨hname, rfl⟩ := lookup?_of_typeVar hv
  rw [bind_eq_ok] at h
  obtain ⟨tyKind, s₁, hty, h⟩ := h
  have hs₁ := hs.of_reaches (Ty.inferKind_quiet _ _ _ hty).reaches
  have hsolved : s₁.Keeps s' ∧ s'.resolveKind v.kind = s'.resolveKind tyKind ∧ u.subst = [(name, ty)] := by
    dsimp only at h
    generalize v.kind = vkind at h ⊢
    split at h
    . next k k' =>
      rw [bind_eq_ok] at h
      obtain ⟨kind, s₂, hunify, h⟩ := h
      generalize ty.toGrade? = grade at h
      split at h
      . next g =>
        simp only [bind_eq_ok, pure_eq_ok] at h
        obtain ⟨_, s₃, hconstrain, rfl, rfl⟩ := h
        obtain ⟨hkeeps₁, hkind⟩ := GradeKind.resolve_unify_constrain hs₁ hunify hconstrain
        exact ⟨hkeeps₁, hkind, rfl⟩
      . rw [bind_eq_ok] at h
        obtain ⟨_, _, h, _⟩ := h
        rw [fail_eq_ok] at h
        exact h.elim
    . split at h
      . rw [bind_eq_ok] at h
        obtain ⟨_, _, h, _⟩ := h
        rw [fail_eq_ok] at h
        exact h.elim
      . simp only [bind_eq_ok, discard_eq_ok, pure_eq_ok] at h
        obtain ⟨_, _, ⟨kind, hunify⟩, rfl, rfl⟩ := h
        obtain ⟨hk, hk'⟩ := Kind.resolveKind_unify hs₁.acyclic hunify
        exact ⟨hs₁.keeps (Kind.unify_quiet _ _ _ hunify).reaches, hk.trans hk'.symm, rfl⟩
  obtain ⟨hkeeps₁, hkind, hsubst⟩ := hsolved
  have hinferred := (Ty.hasKind_inferKind hs.acyclic hty).keeps_resolveKind hs₁.acyclic hkeeps₁
  rw [← hkind] at hinferred
  constructor
  . rw [hsubst]
    exact .singleton (hkeeps.lookup? name v hname) hinferred
  . intro k l hk hl
    rw [hk.eq_of_var hname, hkeeps.kinds.resolveKind_resolveKind hs.acyclic]
    exact hinferred.unique (hl.keeps hs.acyclic hkeeps)

theorem indices_settles {left right : Ty} (hs : s.IsOrderly) (h : indices env pos left right s = .ok u s')
    : Settles env left right s u s' := by
  have hkeeps := hs.keeps ((indices_advancing env pos left right).reaching h)
  unfold indices at h
  rw [bind_eq_ok] at h
  obtain ⟨leftKind, s₁, hleft, h⟩ := h
  rw [bind_eq_ok] at h
  obtain ⟨rightKind, s₂, hright, h⟩ := h
  have hs₁ := hs.of_reaches (Ty.inferKind_quiet _ _ _ hleft).reaches
  have hreaches₂ := (Ty.inferKind_quiet _ _ _ hright).reaches
  have hs₂ := hs₁.of_reaches hreaches₂
  generalize left.toGrade? = g at h
  generalize right.toGrade? = g' at h
  split at h
  . next k k' g g' =>
    simp only [bind_eq_ok, pure_eq_ok] at h
    obtain ⟨kind, s₃, hunify, _, s₄, hconstrain, rfl, rfl⟩ := h
    refine ⟨.nil, fun l r _ hl hr => ?_⟩
    obtain ⟨hkeeps₂, hkind⟩ := GradeKind.resolve_unify_constrain hs₂ hunify hconstrain
    have hkeeps₁ := (hs₁.keeps hreaches₂).trans hkeeps₂
    have hleft := (Ty.hasKind_inferKind hs.acyclic hleft).keeps_resolveKind hs₁.acyclic hkeeps₁
    have hright := (Ty.hasKind_inferKind hs₁.acyclic hright).keeps_resolveKind hs₂.acyclic hkeeps₂
    rw [(hl.keeps hs.acyclic hkeeps).unique hleft, (hr.keeps hs.acyclic hkeeps).unique hright]
    exact hkind
  . rw [fail_eq_ok] at h
    exact h.elim

theorem merge_hasKinds {equal : Ty → Ty → CheckM Unified} (hequal : ∀ l r, Reaching (equal l r))
    {first second subst : Substitution} (hs : s.IsOrderly) (hfirst : first.HasKinds env s)
    (hsecond : second.HasKinds env s) (h : merge equal pos first second s = .ok subst s') : subst.HasKinds env s' := by
  fun_induction merge equal pos first second generalizing s with
  | case1 first =>
    rw [pure_eq_ok] at h
    obtain ⟨rfl, rfl⟩ := h
    exact hfirst
  | case2 first name ty second hlookup ih =>
    obtain ⟨v, hv, hty⟩ := hsecond name ty List.mem_cons_self
    exact ih hs (hfirst.append (.singleton hv hty)) (fun x ty hmem => hsecond x ty (List.mem_cons_of_mem _ hmem)) h
  | case3 first name ty second known hlookup ih =>
    rw [bind_eq_ok] at h
    obtain ⟨unified, s₁, hunified, h⟩ := h
    obtain ⟨hkeeps, hs₁⟩ := hs.step (hequal _ _ hunified)
    split at h
    . refine ih hs₁ (hfirst.keeps hs.acyclic hkeeps) ?_ h
      exact fun x ty hmem => hsecond.keeps hs.acyclic hkeeps x ty (List.mem_cons_of_mem _ hmem)
    . rw [fail_eq_ok] at h
      exact h.elim

theorem relatePair_eq_ok {depth : Nat} {relation : Relation} {a b a' b' : Ty} {first second : Unified}
    {subst : Substitution} (h : relate.relatePair env pos depth relation a b a' b' s = .ok (first, second, subst) s')
    : ∃ s₁ s₂, relate env pos depth relation a a' s = .ok first s₁ ∧
        relate env pos depth relation (b.substitute first.subst) (b'.substitute first.subst) s₁ = .ok second s₂ ∧
        merge (relate env pos depth .eq) pos first.subst second.subst s₂ = .ok subst s' := by
  unfold relate.relatePair at h
  simp only [bind_eq_ok, pure_eq_ok] at h
  obtain ⟨_, s₁, hfirst, _, s₂, hsecond, _, _, hmerge, heq, rfl⟩ := h
  cases heq
  exact ⟨s₁, s₂, hfirst, hsecond, hmerge⟩

theorem relate_settles {depth : Nat} {relation : Relation} {left right : Ty} (hs : s.IsOrderly)
    (h : relate env pos depth relation left right s = .ok u s') : Settles env left right s u s' := by
  induction depth generalizing relation left right s s' u with
  | zero =>
    unfold relate at h
    rw [fail_eq_ok] at h
    exact h.elim
  | succ depth ih =>
    have hreaching : ∀ relation l r, Reaching (relate env pos depth relation l r) :=
      fun relation l r => (relate_advancing env pos depth relation l r).reaching
    -- Types of components that belong together are solved one after the other.
    have hboth : ∀ {relation relation' : Relation} {l r l' r' : Ty} {first second : Unified} {subst : Substitution}
        {s s₁ s₂ s' : State}, s.IsOrderly → relate env pos depth relation l r s = .ok first s₁ →
        relate env pos depth relation' l' r' s₁ = .ok second s₂ →
        merge (relate env pos depth .eq) pos first.subst second.subst s₂ = .ok subst s' → subst.HasKinds env s' := by
      intro relation relation' l r l' r' first second subst s s₁ s₂ s' hs hfirst hsecond hmerge
      have hs₁ := hs.of_reaches (hreaching _ _ _ hfirst)
      obtain ⟨hkeeps, hs₂⟩ := hs₁.step (hreaching _ _ _ hsecond)
      exact merge_hasKinds (hreaching _) hs₂ ((ih hs hfirst).subst.keeps hs₁.acyclic hkeeps)
        (ih hs₁ hsecond).subst hmerge
    unfold relate at h
    split at h
    . simp only [bind_eq_ok, pure_eq_ok] at h
      obtain ⟨args, s₁, hargs, results, s₂, hresults, subst, _, hmerge, rfl, rfl⟩ := h
      refine ⟨hboth hs hargs hresults hmerge, ?_⟩
      rintro _ _ _ ⟨⟩ ⟨⟩
      rfl
    . rw [pure_eq_ok] at h
      obtain ⟨rfl, rfl⟩ := h
      refine ⟨.nil, ?_⟩
      intro k l hagree hk hl
      rw [decide_eq_true_iff] at hagree
      subst hagree
      rw [hk.unique hl]
    . rw [bind_eq_ok] at h
      obtain ⟨inner, s₁, hinner, h⟩ := h
      split at h
      . rw [pure_eq_ok] at h
        obtain ⟨rfl, rfl⟩ := h
        refine ⟨(ih hs hinner).subst, ?_⟩
        rintro _ _ _ ⟨⟩ ⟨⟩
        rfl
      . rw [fail_eq_ok] at h
        exact h.elim
    . simp only [bind_eq_ok, pure_eq_ok] at h
      obtain ⟨k, s₁, hk, k', s₂, hk', kind, s₃, hunify, _, s₄, hconstrain, inner, _, hinner, rfl, rfl⟩ := h
      have hs₁ := hs.of_reaches (Grade.inferKind_quiet _ _ hk).reaches
      have hs₂ := hs₁.of_reaches (Grade.inferKind_quiet _ _ hk').reaches
      have hs₃ := hs₂.of_reaches (GradeKind.unify_quiet _ _ _ hunify).reaches
      refine ⟨(ih (hs₃.of_reaches (reaching_constrain _ hconstrain)) hinner).subst, ?_⟩
      rintro _ _ _ ⟨⟩ ⟨⟩
      rfl
    . rw [bind_eq_ok] at h
      obtain ⟨⟨first, second, subst⟩, _, hpair, h⟩ := h
      rw [pure_eq_ok] at h
      obtain ⟨rfl, rfl⟩ := h
      obtain ⟨s₁, s₂, hfirst, hsecond, hmerge⟩ := relatePair_eq_ok hpair
      refine ⟨hboth hs hfirst hsecond hmerge, ?_⟩
      rintro k l hagree hk hl
      cases hk with
      | app ha _ =>
        cases hl with
        | app ha' _ =>
          have hkind := (ih hs hfirst).kind _ _ (Bool.and_eq_true_iff.mp hagree).1 ha ha'
          have hs₁ := hs.of_reaches (hreaching _ _ _ hfirst)
          have hreaches := (hreaching _ _ _ hsecond).trans
            ((merge_advancing (fun l r => relate_advancing env pos depth .eq l r) _ _ _).reaching hmerge)
          exact (hs₁.keeps hreaches).kinds.resolveKind (Kind.arrow.inj hkind).2
    . rw [bind_eq_ok] at h
      obtain ⟨⟨first, second, subst⟩, _, hpair, h⟩ := h
      rw [pure_eq_ok] at h
      obtain ⟨rfl, rfl⟩ := h
      obtain ⟨s₁, s₂, hfirst, hsecond, hmerge⟩ := relatePair_eq_ok hpair
      refine ⟨hboth hs hfirst hsecond hmerge, ?_⟩
      rintro _ _ _ ⟨⟩ ⟨⟩
      rfl
    . split at h
      . next heq =>
        subst heq
        simp only [bind_eq_ok, discard_eq_ok, pure_eq_ok] at h
        obtain ⟨_, _, ⟨v, hv⟩, rfl, rfl⟩ := h
        obtain ⟨_, rfl⟩ := lookup?_of_typeVar hv
        refine ⟨.nil, fun k l _ hk hl => ?_⟩
        rw [hk.unique hl]
      . exact vars_settles hs h
    . obtain ⟨hsubst, hkind⟩ := var_settles hs h
      exact ⟨hsubst, fun k l _ hk hl => hkind k l hk hl⟩
    . obtain ⟨hsubst, hkind⟩ := var_settles hs h
      exact ⟨hsubst, fun k l _ hk hl => (hkind l k hl hk).symm⟩
    . exact indices_settles hs h

end Unify

section

variable {env : Env} {pos : Nat} {s s' : State} {left right ty : Ty} {k l : Kind}

theorem CheckM.lookup?_freshTypeVar {hint name : String} {quantifier : Quantifier}
    (h : freshTypeVar hint k quantifier s = .ok name s') : s'.lookup? name = some ⟨name, k, quantifier⟩ := by
  cases h
  exact List.find?_cons_of_pos (by simp)

theorem Grade.hasKind_freshGrade {hint : String} {kind : GradeKind} {g : Grade}
    (h : freshGrade hint kind s = .ok g s') : g.HasKind s' (s'.resolve kind) := by
  unfold freshGrade at h
  simp only [bind_eq_ok, pure_eq_ok] at h
  obtain ⟨_, _, hvar, rfl, rfl⟩ := h
  exact .var (lookup?_freshTypeVar hvar) rfl

theorem Ty.joinByEquality_eq_ok (h : left.joinByEquality env pos right s = .ok ty s')
    : ∃ u, left.equal env pos right s = .ok u s' ∧ u.agree = true ∧ (ty = left ∨ ty = right) := by
  unfold joinByEquality at h
  rw [bind_eq_ok] at h
  obtain ⟨u, s₁, hu, h⟩ := h
  split at h
  . rw [fail_eq_ok] at h
    exact h.elim
  . next hagree =>
    rw [Bool.not_eq_true, Bool.not_eq_false'] at hagree
    split at h
    . obtain ⟨rfl, rfl⟩ := pure_eq_ok.mp h
      exact ⟨u, hu, hagree, .inr rfl⟩
    . obtain ⟨rfl, rfl⟩ := pure_eq_ok.mp h
      exact ⟨u, hu, hagree, .inl rfl⟩

theorem Ty.joinByEquality_hasKind (hs : s.IsOrderly) (hleft : left.HasKind env s k) (hright : right.HasKind env s l)
    (h : left.joinByEquality env pos right s = .ok ty s')
    : ty.HasKind env s' (s'.resolveKind k) ∧ s'.resolveKind k = s'.resolveKind l := by
  obtain ⟨u, hu, hagree, hty⟩ := joinByEquality_eq_ok h
  have hkeeps := hs.keeps (equal_reaching env pos left right hu)
  have hkind := (Unify.relate_settles hs hu).kind k l hagree hleft hright
  refine ⟨?_, hkind⟩
  obtain rfl | rfl := hty
  . exact hleft.keeps hs.acyclic hkeeps
  . rw [hkind]
    exact hright.keeps hs.acyclic hkeeps

theorem Ty.join_hasKind (hs : s.IsOrderly) (hleft : left.HasKind env s k) (hright : right.HasKind env s l)
    (h : left.join env pos right s = .ok ty s')
    : ty.HasKind env s' (s'.resolveKind k) ∧ s'.resolveKind k = s'.resolveKind l := by
  fun_induction join env pos left right generalizing s s' ty k l with
  | case1 arg result arg' result' iharg ihresult =>
    simp only [bind_eq_ok, pure_eq_ok] at h
    obtain ⟨first, s₁, hfirst, second, _, hsecond, rfl, rfl⟩ := h
    cases hleft with
    | arrow harg hresult =>
      cases hright with
      | arrow harg' hresult' =>
        obtain ⟨hkeeps₁, hs₁⟩ := hs.step ((join_advancing _ _ _ _).reaching hfirst)
        have hkeeps₂ := hs₁.keeps ((join_advancing _ _ _ _).reaching hsecond)
        have hfirst := (iharg hs harg' harg hfirst).1.keeps hs₁.acyclic hkeeps₂
        have hsecond := (ihresult hs₁ (hresult.keeps hs.acyclic hkeeps₁) (hresult'.keeps hs.acyclic hkeeps₁) hsecond).1
        exact ⟨.arrow hfirst hsecond, rfl⟩
  | case2 =>
    rw [pure_eq_ok] at h
    obtain ⟨rfl, rfl⟩ := h
    have hkind := hleft.unique hright
    rw [← hkind, hleft.resolveKind_eq hs.acyclic]
    exact ⟨hleft, rfl⟩
  | case3 | case14 =>
    rw [fail_eq_ok] at h
    exact h.elim
  | case4 effects ty effects' ty' ih =>
    rw [bind_eq_ok] at h
    obtain ⟨inner, s₁, hinner, h⟩ := h
    cases hleft with
    | diamond hcontent =>
      cases hright with
      | diamond hcontent' =>
        have hinner := (ih hs hcontent hcontent' hinner).1
        split at h
        . rw [pure_eq_ok] at h
          obtain ⟨rfl, rfl⟩ := h
          exact ⟨.diamond hinner, rfl⟩
        . split at h
          . rw [pure_eq_ok] at h
            obtain ⟨rfl, rfl⟩ := h
            exact ⟨.diamond hinner, rfl⟩
          . rw [fail_eq_ok] at h
            exact h.elim
  | case5 grade ty grade' ty' ih =>
    rw [Context.commonKind_bind] at h
    simp only [bind_eq_ok, pure_eq_ok] at h
    obtain ⟨kind, s₁, hkind, upper, s₂, hupper, _, s₃, hle, _, s₄, hle', inner, _, hinner, rfl, rfl⟩ := h
    cases hleft with
    | box _ hcontent =>
      cases hright with
      | box _ hcontent' =>
        have hreaches₂ := (Context.commonKind_reaching _ _ _ hkind).trans (reaching_freshGrade _ _ hupper)
        have hreaches₄ := (reaching_constrain _ hle).trans (reaching_constrain _ hle')
        have hs₂ := hs.of_reaches hreaches₂
        obtain ⟨hkeeps₄, hs₄⟩ := hs.step (hreaches₂.trans hreaches₄)
        have hupper := (Grade.hasKind_freshGrade hupper).keeps hs₂.acyclic
          (hs₂.keeps (hreaches₄.trans ((join_advancing _ _ _ _).reaching hinner)))
        have hinner := ih hs₄ (hcontent.keeps hs.acyclic hkeeps₄) (hcontent'.keeps hs.acyclic hkeeps₄) hinner
        exact ⟨.box hupper hinner.1, rfl⟩
  | case6 a b a' b' iha ihb =>
    simp only [bind_eq_ok, pure_eq_ok] at h
    obtain ⟨first, s₁, hfirst, second, _, hsecond, rfl, rfl⟩ := h
    cases hleft with
    | app ha hb =>
      cases hright with
      | app ha' hb' =>
        obtain ⟨hkeeps₁, hs₁⟩ := hs.step ((join_advancing _ _ _ _).reaching hfirst)
        have hkeeps₂ := hs₁.keeps ((join_advancing _ _ _ _).reaching hsecond)
        obtain ⟨hfirst, hkind⟩ := iha hs ha ha' hfirst
        have hfirst := hfirst.keeps hs₁.acyclic hkeeps₂
        have hsecond := (ihb hs₁ (hb.keeps hs.acyclic hkeeps₁) (hb'.keeps hs.acyclic hkeeps₁) hsecond).1
        rw [hkeeps₂.kinds.resolveKind_resolveKind hs₁.acyclic] at hfirst hsecond
        exact ⟨.app hfirst hsecond, (Kind.arrow.inj (hkeeps₂.kinds.resolveKind hkind)).2⟩
  | case7 a b a' b' iha ihb =>
    simp only [bind_eq_ok, pure_eq_ok] at h
    obtain ⟨first, s₁, hfirst, second, _, hsecond, rfl, rfl⟩ := h
    cases hleft with
    | pair ha hb =>
      cases hright with
      | pair ha' hb' =>
        obtain ⟨hkeeps₁, hs₁⟩ := hs.step ((join_advancing _ _ _ _).reaching hfirst)
        have hkeeps₂ := hs₁.keeps ((join_advancing _ _ _ _).reaching hsecond)
        have hfirst := (iha hs ha ha' hfirst).1.keeps hs₁.acyclic hkeeps₂
        have hsecond := (ihb hs₁ (hb.keeps hs.acyclic hkeeps₁) (hb'.keeps hs.acyclic hkeeps₁) hsecond).1
        exact ⟨.pair hfirst hsecond, rfl⟩
  | case8 | case10 | case11 | case12 | case13 => exact joinByEquality_hasKind hs hleft hright h
  | case9 x y _ =>
    rw [bind_eq_ok] at h
    obtain ⟨v, _, hv, h⟩ := h
    obtain ⟨hx, rfl⟩ := lookup?_of_typeVar hv
    rw [bind_eq_ok] at h
    obtain ⟨w, _, hw, h⟩ := h
    obtain ⟨hy, rfl⟩ := lookup?_of_typeVar hw
    generalize hvkind : v.kind = vkind at h
    generalize hwkind : w.kind = wkind at h
    split at h
    . next k' l' =>
      simp only [bind_eq_ok, pure_eq_ok] at h
      obtain ⟨kind, s₁, hunify, _, s₂, hconstrain, rfl, rfl⟩ := h
      obtain ⟨hkeeps, heq⟩ := GradeKind.resolve_unify_constrain hs hunify hconstrain
      have hkind : s₂.resolveKind k = s₂.resolveKind l := by
        rw [hleft.eq_of_var hx, hright.eq_of_var hy, hvkind, hwkind, hkeeps.kinds.resolveKind_resolveKind hs.acyclic,
          hkeeps.kinds.resolveKind_resolveKind hs.acyclic]
        exact heq
      rw [hkind]
      exact ⟨hright.keeps hs.acyclic hkeeps, rfl⟩
    . exact joinByEquality_hasKind hs hleft hright h

end

namespace Scheme

variable {env : Env} {s s' : State} {scheme : Scheme} {quantifier : Quantifier}

/--
A state in which only the variables of a scheme are in scope.
-/
def scope (scheme : Scheme) : State :=
  { State.start with typeVars := (scheme.vars.map fun v => ⟨v.1, v.2, .universal⟩).reverse }

/--
A scheme whose variables are distinct, and whose type has the kind of types in their scope.
-/
structure IsKinded (env : Env) (scheme : Scheme) : Prop where
  distinct : (scheme.vars.map (·.1)).Nodup
  kinded : ∀ pos, scheme.ty.inferKind env pos scheme.scope = .ok .type scheme.scope

theorem isAcyclic_scope (scheme : Scheme) : scheme.scope.IsAcyclic :=
  fun _ _ _ => rfl

-- Nothing is known about kinds there, so kinds are the same only if they are equal.
theorem keepsKinds_scope (scheme : Scheme) (s : State) : scheme.scope.KeepsKinds s := by
  intro k l hkl
  have heq : k = l := hkl
  rw [heq]

theorem mem_vars_of_lookup?_scope {x : String} {v : TypeVar} (h : scheme.scope.lookup? x = some v)
    : (x, v.kind) ∈ scheme.vars := by
  obtain ⟨hmem, rfl⟩ := State.name_of_lookup? h
  obtain ⟨b, hb, rfl⟩ := List.mem_map.mp (List.mem_reverse.mp hmem)
  exact hb

theorem lookup?_of_refresh {vars : List (String × Kind)} {fresh : List (String × String × Kind)}
    (h : (vars.mapM fun (name, kind) => do return (name, ← freshTypeVar name kind quantifier, kind) : CheckM _) s
      = .ok fresh s')
    : fresh.map (fun f => (f.1, f.2.2)) = vars ∧
      ∀ f ∈ fresh, s'.lookup? f.2.1 = some ⟨f.2.1, f.2.2, quantifier⟩ := by
  induction vars generalizing s fresh with
  | nil =>
    rw [List.mapM_nil, pure_eq_ok] at h
    rw [← h.1]
    exact ⟨rfl, List.forall_mem_nil _⟩
  | cons v vars ih =>
    rw [List.mapM_cons] at h
    simp only [bind_eq_ok, pure_eq_ok] at h
    obtain ⟨_, _, ⟨name, s₁, hfresh, rfl, rfl⟩, rest, s₂, hrest, rfl, rfl⟩ := h
    have hreaches : s₁.Reaches s₂ :=
      (closed_along.mapM (fun _ => closed_along.bind (quiet_freshTypeVar _ _ _) fun _ => closed_along.pure _) hrest).reaches
    obtain ⟨hvars, hlookup⟩ := ih hrest
    constructor
    . rw [List.map_cons, hvars]
    . rw [List.forall_mem_cons]
      refine ⟨State.lookup?_of_reaches (lookup?_freshTypeVar hfresh) ?_ hreaches, hlookup⟩
      -- The counter has moved on.
      cases hfresh
      intro hint k hk heq
      exact absurd (freshName_inj heq) (Nat.ne_of_lt hk)

theorem exists_renames (hdistinct : (scheme.vars.map (·.1)).Nodup) {r : List (String × Kind) × Ty}
    (h : scheme.refresh quantifier s = .ok r s')
    : ∃ subst : Substitution, subst.Renames scheme.scope s' ∧ r.2 = scheme.ty.substitute subst := by
  unfold Scheme.refresh at h
  simp only [bind_eq_ok, pure_eq_ok] at h
  obtain ⟨fresh, s', hfresh, rfl, rfl⟩ := h
  refine ⟨fresh.map fun f => (f.1, Ty.var f.2.1), ?_, rfl⟩
  obtain ⟨hvars, hlookup⟩ := lookup?_of_refresh hfresh
  have hdomain : Substitution.domain (fresh.map fun f => (f.1, Ty.var f.2.1)) = scheme.vars.map (·.1) := by
    rw [← hvars]
    unfold Substitution.domain
    rw [List.map_map, List.map_map]
    rfl
  intro x v hx
  have hmem := mem_vars_of_lookup?_scope hx
  rw [← hvars] at hmem
  obtain ⟨f, hf, heq⟩ := List.mem_map.mp hmem
  obtain ⟨rfl, hkind⟩ := Prod.mk.inj heq
  have hlast := Substitution.lookup_of_mem (hdomain ▸ hdistinct)
    (List.mem_map_of_mem (f := fun f : String × String × Kind => (f.1, Ty.var f.2.1)) hf)
  exact ⟨f.2.1, _, hlast, hlookup f hf, hkind⟩

theorem IsKinded.refresh (hscheme : scheme.IsKinded env) {r : List (String × Kind) × Ty}
    (h : scheme.refresh quantifier s = .ok r s') : r.2.HasKind env s' .type := by
  obtain ⟨subst, hsubst, hr⟩ := exists_renames hscheme.distinct h
  have hty := Ty.hasKind_inferKind scheme.isAcyclic_scope (hscheme.kinded 0)
  rw [hr]
  exact hty.substitute scheme.isAcyclic_scope (hsubst.carries (scheme.keepsKinds_scope s'))

theorem IsKinded.instantiate (hscheme : scheme.IsKinded env) {ty : Ty} (h : scheme.instantiate s = .ok ty s')
    : ty.HasKind env s' .type := by
  unfold Scheme.instantiate at h
  simp only [bind_eq_ok, pure_eq_ok] at h
  obtain ⟨r, _, hrefresh, rfl, rfl⟩ := h
  exact hscheme.refresh hrefresh

theorem IsKinded.mono {ty : Ty} (h : (Scheme.mono ty).IsKinded env) (s : State) : ty.HasKind env s .type := by
  have hkeeps : (Scheme.mono ty).scope.Keeps s := by
    refine ⟨?_, keepsKinds_scope _ s⟩
    rintro x v ⟨⟩
  exact (Ty.hasKind_inferKind (isAcyclic_scope _) (h.kinded 0)).keeps (isAcyclic_scope _) hkeeps

end Scheme

namespace Context

variable {env : Env} {pos : Nat} {s s' : State} {c left right u : Context}

def HasTypes (env : Env) (s : State) (c : Context) : Prop :=
  ∀ b ∈ c.bindings, b.2.ty.HasKind env s .type

theorem HasTypes.keeps (h : c.HasTypes env s) (hs : s.IsAcyclic) (hkeeps : s.Keeps s') : c.HasTypes env s' :=
  fun b hb => (h b hb).keeps hs hkeeps

theorem HasTypes.empty : Context.empty.HasTypes env s :=
  List.forall_mem_nil _

theorem HasTypes.bind (h : c.HasTypes env s) (x : String) (a : Assumption) (ha : a.ty.HasKind env s .type)
    : (c.bind x a).HasTypes env s := by
  intro b hb
  obtain hb | hb := List.mem_append.mp hb
  . exact h b (List.mem_filter.mp hb).1
  . cases List.mem_singleton.mp hb
    exact ha

theorem HasTypes.bindAll (h : c.HasTypes env s) (hother : u.HasTypes env s) : (c.bindAll u).HasTypes env s := by
  obtain ⟨bindings⟩ := u
  unfold HasTypes at hother
  unfold Context.bindAll
  dsimp only at hother ⊢
  induction bindings generalizing c with
  | nil => exact h
  | cons b bindings ih =>
    rw [List.forall_mem_cons] at hother
    exact ih (h.bind b.1 b.2 hother.1) hother.2

theorem HasTypes.scale (h : c.HasTypes env s) (vars : List String) (grade : Grade)
    : (c.scale vars grade).HasTypes env s := by
  intro b hb
  obtain ⟨⟨x, a⟩, ha, rfl⟩ := List.mem_map.mp hb
  have hty := h _ (List.mem_filter.mp ha).1
  cases a <;> exact hty

theorem HasTypes.combine (hleft : left.HasTypes env s) (hright : right.HasTypes env s) (hs : s.IsOrderly)
    (h : Context.combine pos left right s = .ok u s') : u.HasTypes env s' := by
  have hadditive : IsAdditive fun _ a => a.ty.HasKind env s .type := by
    intro _ known a sum hknown ha _ hty
    obtain hty | hty := hty
    . exact hty ▸ hknown
    . exact hty ▸ ha
  have hu : u.HasTypes env s := hadditive.combine hleft hright h
  exact hu.keeps hs.acyclic (hs.keeps (combine_reaching _ _ _ h))

end Context

/--
The types that the language refers to have their kinds, and all signatures describe types.
-/
structure Env.IsKinded (env : Env) : Prop where
  int : env.builtins.types.lookup "Int" = some .type
  float : env.builtins.types.lookup "Float" = some .type
  list : env.builtins.types.lookup "List" = some (.arrow (.grade .nat) (.arrow .type .type))
  number : env.builtins.types.lookup "N" = some (.arrow (.grade .nat) .type)
  constructors : ∀ name scheme, env.builtins.constructors.lookup name = some scheme → scheme.IsKinded env
  operators : ∀ op, ∀ ty ∈ env.builtins.signatures op, (Scheme.mono ty).IsKinded env
  definitions : ∀ name scheme, env.lookup? name = some scheme → scheme.IsKinded env

section

variable {env : Env} {pos : Nat} {s s' : State} {ty : Ty}

theorem Ty.HasKind.args (h : ty.HasKind env s .type) : ∀ a ∈ ty.args, a.HasKind env s .type := by
  induction ty with
  | arrow a b _ ih =>
    cases h with
    | arrow ha hb =>
      unfold Ty.args
      rw [List.forall_mem_cons]
      exact ⟨ha, ih hb⟩
  | _ => exact List.forall_mem_nil _

theorem Ty.HasKind.result (h : ty.HasKind env s .type) : ty.result.HasKind env s .type := by
  induction ty with
  | arrow a b _ ih =>
    cases h with
    | arrow ha hb => exact ih hb
  | _ => exact h

theorem Env.IsKinded.number_hasKind (henv : env.IsKinded) {size : Ty} (hsize : size.HasKind env s (.grade .nat))
    : (Builtins.number size).HasKind env s .type := by
  have hnumber : (Ty.const "N").HasKind env s _ := .const henv.number
  simp only [State.resolveKind, State.resolve_nat] at hnumber
  exact .app hnumber hsize

theorem Env.IsKinded.list_hasKind (henv : env.IsKinded) {size elem : Ty} (hsize : size.HasKind env s (.grade .nat))
    (helem : elem.HasKind env s .type) : (Ty.list size elem).HasKind env s .type := by
  have hlist : (Ty.const "List").HasKind env s _ := .const henv.list
  simp only [State.resolveKind, State.resolve_nat] at hlist
  exact .app (.app hlist hsize) helem

theorem Expr.constructorTy_hasKind {name : String} (henv : env.IsKinded) (hs : s.IsOrderly)
    (h : constructorTy env pos name s = .ok ty s') : ty.HasKind env s' .type := by
  unfold constructorTy at h
  split at h
  . simp only [bind_eq_ok] at h
    obtain ⟨size, s₁, hsize, result, s₂, hresult, _, s₃, hconstrain, h⟩ := h
    have hs₁ := hs.of_reaches (quiet_freshTypeVar _ _ _ hsize).reaches
    have hreaches₂ := (quiet_freshTypeVar _ _ _ hresult).reaches
    have hs₂ := hs₁.of_reaches hreaches₂
    obtain ⟨hkeeps₃, hs₃⟩ := hs₂.step (reaching_constrain _ hconstrain)
    have hkeeps₂ := (hs₁.keeps hreaches₂).trans hkeeps₃
    have hsize : (Ty.var size).HasKind env s₃ _ := .var (hkeeps₂.lookup? _ _ (lookup?_freshTypeVar hsize))
    have hresult : (Ty.var result).HasKind env s₃ _ := .var (hkeeps₃.lookup? _ _ (lookup?_freshTypeVar hresult))
    simp only [State.resolveKind, State.resolve_nat] at hsize hresult
    split at h
    . simp only [bind_eq_ok, pure_eq_ok] at h
      obtain ⟨elem, s₄, helem, rfl, rfl⟩ := h
      have hkeeps₄ := hs₃.keeps (quiet_freshTypeVar _ _ _ helem).reaches
      have hsize := hsize.keeps hs₃.acyclic hkeeps₄
      have hresult := hresult.keeps hs₃.acyclic hkeeps₄
      simp only [State.resolveKind, State.resolve_nat] at hsize hresult
      have helem : (Ty.var elem).HasKind env s₄ _ := .var (lookup?_freshTypeVar helem)
      exact .arrow helem (.arrow (henv.list_hasKind hsize helem) (henv.list_hasKind hresult helem))
    . rw [pure_eq_ok] at h
      obtain ⟨rfl, rfl⟩ := h
      exact .arrow (henv.number_hasKind hsize) (henv.number_hasKind hresult)
  . cases hname : env.builtins.constructors.lookup name with
    | none =>
      rw [hname] at h
      rw [fail_eq_ok] at h
      exact h.elim
    | some scheme =>
      rw [hname] at h
      exact (henv.constructors name scheme hname).instantiate h

end

namespace Pattern

variable {env : Env} {pos : Nat} {s s' : State}

structure Introduces (env : Env) (s : State) (m : Matched) : Prop where
  context : m.context.HasTypes env s
  subst : m.subst.HasKinds env s

theorem Introduces.keeps {m : Matched} (h : Introduces env s m) (hs : s.IsAcyclic) (hkeeps : s.Keeps s')
    : Introduces env s' m :=
  ⟨h.context.keeps hs hkeeps, h.subst.keeps hs hkeeps⟩

theorem Introduces.merge {left right m : Matched} (hleft : Introduces env s left) (hright : Introduces env s right)
    (hs : s.IsOrderly) (h : left.merge env pos right s = .ok m s') : Introduces env s' m := by
  obtain ⟨context, subst, s₁, hcontext, hsubst, rfl⟩ := Matched.merge_eq_ok h
  obtain ⟨hkeeps₁, hs₁⟩ := hs.step (Context.combine_reaching _ _ _ hcontext)
  have hkeeps₂ := hs₁.keeps (Substitution.combine_reaching _ _ _ _ hsubst)
  constructor
  . exact (hleft.context.combine hright.context hs hcontext).keeps hs₁.acyclic hkeeps₂
  . exact Unify.merge_hasKinds (Ty.equal_reaching env pos) hs₁ (hleft.subst.keeps hs.acyclic hkeeps₁)
      (hright.subst.keeps hs.acyclic hkeeps₁) hsubst

mutual

theorem matchTy_introduces {env : Env} (henv : env.IsKinded) (p : Pattern) {ty : Ty} {m : Matched} {s s' : State}
    (hs : s.IsOrderly) (hty : ty.HasKind env s .type) (h : p.matchTy env ty s = .ok m s') : Introduces env s' m := by
  have hsingleton : ∀ {s : State} x, ty.HasKind env s .type →
      Introduces env s (.ofContext (.singleton x (.linear ty))) :=
    fun x hty => ⟨Context.HasTypes.empty.bind x _ hty, .nil⟩
  cases p with
  | var pos name =>
    unfold matchTy at h
    rw [pure_eq_ok] at h
    obtain ⟨rfl, rfl⟩ := h
    exact hsingleton name hty
  | wildcard pos =>
    have hreaches := matchTy_reaching _ _ _ h
    obtain ⟨rfl, _⟩ := matchTy_wildcard h
    exact hsingleton _ (hty.keeps hs.acyclic (hs.keeps hreaches))
  | int pos n | float pos x =>
    unfold matchTy at h
    obtain ⟨unified, hunified, rfl⟩ := matchLiteral_eq_ok h
    exact ⟨.empty, (Unify.relate_settles hs hunified).subst⟩
  | box pos inner =>
    obtain ⟨grade, content, matched, rfl, hinner, rfl⟩ := matchTy_boxed h
    cases hty with
    | box _ hcontent =>
      have hinner := matchTy_introduces henv inner hs hcontent hinner
      exact ⟨hinner.context.scale _ _, hinner.subst⟩
  | pair pos a b =>
    obtain ⟨aTy, bTy, left, right, s₁, s₂, rfl, hleft, hright, h⟩ := matchTy_pair h
    cases hty with
    | pair ha hb =>
      obtain ⟨hkeeps₁, hs₁⟩ := hs.step (matchTy_reaching _ _ _ hleft)
      obtain ⟨hkeeps₂, hs₂⟩ := hs₁.step (matchTy_reaching _ _ _ hright)
      have hleft := matchTy_introduces henv a hs ha hleft
      have hb := (hb.keeps hs.acyclic hkeeps₁).solve hs₁.acyclic hleft.subst
      exact (hleft.keeps hs₁.acyclic hkeeps₂).merge (matchTy_introduces henv b hs₁ hb hright) hs₂ h
  | constructor pos name args =>
    obtain ⟨scheme, existentials, constructorTy, unified, s₁, s₂, hscheme, hrefresh, _, hequal, h⟩ :=
      matchTy_constructor h
    have hs₁ := hs.of_reaches (Scheme.refresh_quiet _ _ hrefresh).reaches
    obtain ⟨hkeeps, hs₂⟩ := hs₁.step (Ty.equal_reaching _ _ _ _ hequal)
    have hconstructor := ((henv.constructors name scheme hscheme).refresh hrefresh).keeps hs₁.acyclic hkeeps
    have hstart : Introduces env s₂ ⟨.empty, existentials, unified.subst⟩ :=
      ⟨.empty, (Unify.relate_settles hs₁ hequal).subst⟩
    exact matchArgs_introduces henv args hs₂ hconstructor.args hstart h

theorem matchArgs_introduces {env : Env} (henv : env.IsKinded) {pos : Nat} (ps : List Pattern) {tys : List Ty}
    {matched m : Matched} {s s' : State} (hs : s.IsOrderly) (htys : ∀ ty ∈ tys, ty.HasKind env s .type)
    (hmatched : Introduces env s matched) (h : matchArgs env pos ps tys matched s = .ok m s')
    : Introduces env s' m := by
  cases ps with
  | nil =>
    unfold matchArgs at h
    rw [pure_eq_ok] at h
    obtain ⟨rfl, rfl⟩ := h
    exact hmatched
  | cons p ps =>
    cases tys with
    | nil =>
      unfold matchArgs at h
      rw [pure_eq_ok] at h
      obtain ⟨rfl, rfl⟩ := h
      exact hmatched
    | cons ty tys =>
      obtain ⟨arg, merged, s₁, s₂, harg, hmerge, h⟩ := matchArgs_cons h
      rw [List.forall_mem_cons] at htys
      obtain ⟨hkeeps₁, hs₁⟩ := hs.step (matchTy_reaching _ _ _ harg)
      obtain ⟨hkeeps₂, hs₂⟩ := hs₁.step (Matched.merge_reaching _ _ _ _ hmerge)
      have harg := matchTy_introduces henv p hs (htys.1.solve hs.acyclic hmatched.subst) harg
      have hmerged := (hmatched.keeps hs.acyclic hkeeps₁).merge harg hs₁ hmerge
      exact matchArgs_introduces henv ps hs₂
        (fun ty hty => ((htys.2 ty hty).keeps hs.acyclic hkeeps₁).keeps hs₁.acyclic hkeeps₂) hmerged h

end

end Pattern

end GradedModal
