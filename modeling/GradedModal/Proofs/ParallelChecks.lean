import Mathlib
import GradedModal.Proofs.Renaming

/-!
This module says that expressions are checked in parallel whatever their variables are called, unless a case has a
pattern whose variables hide variables that its other branches use.
-/

namespace GradedModal

open CheckM

structure Matched.Paired (T W : Pairing) (m m' : Matched) : Prop where
  context : m.context.Paired T W m'.context
  existentials : W.Tables (Kind.Paired W) m.existentials m'.existentials
  subst : Substitution.Paired W m.subst m'.subst

theorem Matched.Paired.mono {T W V : Pairing} {m m' : Matched} (h : m.Paired T W m') (hWV : W ≤ V) : m.Paired T V m' where
  context := h.context.mono hWV
  existentials := h.existentials.imp hWV fun _ _ h => h.mono hWV
  subst := Substitution.Paired.mono h.subst hWV

theorem Matched.merge_parallel {n d : Nat} {T W : Pairing} {env env' : Env} (henv : env.Paired W env') (pos : Nat)
    {left left' right right' : Matched} (hleft : left.Paired T W left') (hright : right.Paired T W right')
    : Parallel n d W (Matched.Paired T) (left.merge env pos right) (left'.merge env' pos right') := by
  apply (Context.combine_parallel pos hleft.context hright.context).bind
  intro V₁ hV₁ context context' hcontext
  apply (Substitution.combine_parallel (henv.mono hV₁) pos (Substitution.Paired.mono hleft.subst hV₁)
    (Substitution.Paired.mono hright.subst hV₁)).bind
  intro V₂ hV₂ subst subst' hsubst
  have hV := le_trans hV₁ hV₂
  exact parallel_pure ⟨hcontext.mono hV₂, List.rel_append (hleft.mono hV).existentials (hright.mono hV).existentials,
    hsubst⟩

namespace Pattern

theorem matchLiteral_parallel {n d : Nat} {T W : Pairing} {env env' : Env} (henv : env.Paired W env') (p : Pattern)
    {ty ty' : Ty} (hty : ty.Paired W ty') (expected : String)
    : Parallel n d W (Matched.Paired T) (matchLiteral env p ty expected) (matchLiteral env' p ty' expected) := by
  unfold matchLiteral
  refine ((Ty.equal_parallel henv p.pos (.const expected) hty).mapError ?_).bind ?_
  . intro _ _ _
    rfl
  . intro V hV unified unified' hunified
    apply parallel_ite (by rw [hunified.agree])
    . intro _ _
      exact parallel_pure ⟨Context.paired_empty, .nil, hunified.subst⟩
    . intro _ _
      exact parallel_fail rfl

mutual

theorem matchTy_parallel {N : String → Prop} {n d : Nat} (ρ : Relabeling N n d) {W : Pairing} {env env' : Env}
    (henv : env.Paired W env') (p : Pattern) {ty ty' : Ty} (hty : ty.Paired W ty')
    : Parallel n d W (Matched.Paired ρ.pairing) (p.matchTy env ty) ((p.rename ρ.map).matchTy env' ty') := by
  cases p with
  | var pos name =>
    simp only [rename, matchTy]
    exact parallel_pure ⟨Context.paired_singleton rfl (.linear hty), .nil, .nil⟩
  | wildcard pos =>
    simp only [rename, matchTy]
    apply (parallel_freshName "_" "_").bind
    rintro V hV _ _ ⟨_, k, hk, rfl, rfl⟩
    exact parallel_pure ⟨Context.paired_singleton (ρ.wildcard k hk) (.linear (hty.mono hV)), .nil, .nil⟩
  | int pos m | float pos x =>
    simp only [rename, matchTy]
    exact matchLiteral_parallel henv _ hty _
  | box pos inner =>
    simp only [rename, matchTy]
    cases hty with
    | box hg hcontent =>
      apply (matchTy_parallel ρ henv inner hcontent).bind
      intro V hV matched matched' hmatched
      refine parallel_pure { hmatched with context := hmatched.context.scale ?_ (hg.mono hV) }
      intro x y hxy
      exact hmatched.context.mem_names hxy
    | _ => exact parallel_fail rfl
  | pair pos a b =>
    simp only [rename, matchTy]
    cases hty with
    | pair ha hb =>
      apply (matchTy_parallel ρ henv a ha).bind
      intro V₁ hV₁ left left' hleft
      apply (matchTy_parallel ρ (henv.mono hV₁) b ((hb.mono hV₁).substitute hleft.subst)).bind
      intro V₂ hV₂ right right' hright
      exact Matched.merge_parallel (henv.mono (le_trans hV₁ hV₂)) pos (hleft.mono hV₂) hright
    | _ => exact parallel_fail rfl
  | constructor pos name args =>
    simp only [rename, matchTy]
    rw [henv.builtins]
    split
    . exact parallel_fail rfl
    . next scheme hlookup =>
      apply (Scheme.refresh_parallel .patternBound (henv.constructors name scheme hlookup)).bind
      rintro V₁ hV₁ ⟨existentials, constructorTy⟩ ⟨existentials', constructorTy'⟩ ⟨hexistentials, hconstructorTy⟩
      dsimp only at hexistentials hconstructorTy ⊢
      apply parallel_ite (by rw [hconstructorTy.args.length_eq, length_renameAll])
      . intro _ _
        exact parallel_fail_bind rfl
      . intro _ _
        apply (Ty.equal_parallel (henv.mono hV₁) pos hconstructorTy.result (hty.mono hV₁)).bind
        intro V₂ hV₂ unified unified' hunified
        apply parallel_ite (by rw [hunified.agree])
        . intro _ _
          exact parallel_fail_bind rfl
        . intro _ _
          apply matchArgs_parallel ρ (henv.mono (le_trans hV₁ hV₂)) pos args (hconstructorTy.mono hV₂).args
          exact ⟨Context.paired_empty, hexistentials.imp hV₂ fun _ _ h => h.mono hV₂, hunified.subst⟩

theorem matchArgs_parallel {N : String → Prop} {n d : Nat} (ρ : Relabeling N n d) {W : Pairing} {env env' : Env}
    (henv : env.Paired W env') (pos : Nat) (ps : List Pattern) {tys tys' : List Ty}
    (htys : List.Forall₂ (Ty.Paired W) tys tys') {matched matched' : Matched}
    (hmatched : matched.Paired ρ.pairing W matched')
    : Parallel n d W (Matched.Paired ρ.pairing) (matchArgs env pos ps tys matched)
        (matchArgs env' pos (renameAll ρ.map ps) tys' matched') := by
  cases ps with
  | nil =>
    simp only [renameAll, matchArgs]
    exact parallel_pure hmatched
  | cons p ps =>
    cases htys with
    | nil =>
      simp only [renameAll, matchArgs]
      exact parallel_pure hmatched
    | cons hty htys =>
      simp only [renameAll, matchArgs]
      apply (matchTy_parallel ρ henv p (hty.substitute hmatched.subst)).bind
      intro V₁ hV₁ arg arg' harg
      apply (Matched.merge_parallel (henv.mono hV₁) pos (hmatched.mono hV₁) harg).bind
      intro V₂ hV₂ merged merged' hmerged
      have hV := le_trans hV₁ hV₂
      exact matchArgs_parallel ρ (henv.mono hV) pos ps (htys.imp fun _ _ h => h.mono hV) hmerged

end

end Pattern

inductive Goal.Paired (W : Pairing) : Goal → Goal → Prop where
  | synthesize : Goal.Paired W .synthesize .synthesize
  | check {ty ty' : Ty} (topLevel : Bool) : ty.Paired W ty' → Goal.Paired W (.check topLevel ty) (.check topLevel ty')

structure Typed.Paired (T W : Pairing) (r r' : Typed) : Prop where
  ty : r.ty.Paired W r'.ty
  used : r.used.Paired T W r'.used
  subst : Substitution.Paired W r.subst r'.subst

namespace Expr

section

variable {n d : Nat} {T W : Pairing} {env env' : Env} {c c' used used' : Context} {ty ty' : Ty} {goal goal' : Goal}

theorem checkConsumed_eq (b : Binder) (ty : Ty) (used : Context)
    : checkConsumed b ty used
        =
      if Context.isConsumed (used.lookup? b.name) then pure () else fail b.pos (.linearity [b.name] .unused) := by
  have hremaining : (Context.singleton b.name (.linear ty)).remainingLinear used
      = if Context.isConsumed (used.lookup? b.name) then [] else [b.name] := by
    change (List.filter (fun p => p.2.isLinear && !Context.isConsumed (used.lookup? p.1))
      [(b.name, Assumption.linear ty)]).map Prod.fst = _
    cases hconsumed : Context.isConsumed (used.lookup? b.name) <;> simp [hconsumed, Assumption.isLinear]
  unfold checkConsumed
  rw [hremaining]
  cases Context.isConsumed (used.lookup? b.name) <;> rfl

theorem checkConsumed_parallel (b : Binder) (ty ty' : Ty)
    (hused : Option.Rel (Assumption.Paired W) (used.lookup? b.name) (used'.lookup? b.name))
    : Parallel n d W (fun _ _ _ => True) (checkConsumed b ty used) (checkConsumed b ty' used') := by
  rw [checkConsumed_eq, checkConsumed_eq, Context.isConsumed_eq hused]
  split
  . exact parallel_pure trivial
  . exact parallel_fail rfl

theorem conclude_parallel (henv : env.Paired W env') (pos : Nat) (polarity : Polarity) (hgoal : goal.Paired W goal')
    (hty : ty.Paired W ty') (hused : used.Paired T W used')
    : Parallel n d W (Typed.Paired T) (conclude env pos polarity goal ty used)
        (conclude env' pos polarity goal' ty' used') := by
  cases hgoal with
  | synthesize => exact parallel_pure ⟨hty, hused, .nil⟩
  | @check expected expected' topLevel hexpected =>
    have hcompare : ∀ {left left' right right' : Ty}, left.Paired W left' → right.Paired W right' →
        Parallel n d W (Typed.Paired T)
          (do
            let unified ← mapError (·.withHint (.comparing expected ty))
              (left.relate env pos (if topLevel then .eq else .le) right)
            if unified.agree then
              return ⟨expected, used, unified.subst⟩
            else
              throw ((Error.ofCause pos (.typeMismatch expected ty)).withHint (.comparing expected ty)))
          (do
            let unified ← mapError (·.withHint (.comparing expected' ty'))
              (left'.relate env' pos (if topLevel then .eq else .le) right')
            if unified.agree then
              return ⟨expected', used', unified.subst⟩
            else
              throw ((Error.ofCause pos (.typeMismatch expected' ty')).withHint (.comparing expected' ty'))) := by
      intro left left' right right' hleft hright
      refine ((Ty.relate_parallel henv pos _ hleft hright).mapError ?_).bind ?_
      . intro e e' he
        exact he
      . intro V hV unified unified' hunified
        apply parallel_ite (by rw [hunified.agree])
        . intro _ _
          exact parallel_pure ⟨hexpected.mono hV, hused.mono hV, hunified.subst⟩
        . intro _ _
          exact parallel_throw rfl
    cases polarity with
    | positive => exact hcompare hty hexpected
    | negative => exact hcompare hexpected hty

theorem constructorTy_parallel (henv : env.Paired W env') (pos : Nat) (name : String)
    : Parallel n d W Ty.Paired (constructorTy env pos name) (constructorTy env' pos name) := by
  unfold constructorTy
  apply parallel_ite Iff.rfl
  . intro _ _
    apply (parallel_freshTypeVar "n" "n" (.grade .nat) .instantiated).bind
    intro V₁ hV₁ size size' hsize
    apply (parallel_freshTypeVar "m" "m" (.grade .nat) .instantiated).bind
    intro V₂ hV₂ result result' hresult
    have hsize := hV₂ _ _ hsize
    apply (parallel_constrain (.var hresult) (.op .plus (.var hsize) (.nat 1)) .nat).bind
    intro V₃ hV₃ _ _ _
    have hsize := hV₃ _ _ hsize
    have hresult := hV₃ _ _ hresult
    apply parallel_ite Iff.rfl
    . intro _ _
      apply (parallel_freshTypeVar "a" "a" .type .instantiated).bind
      intro V₄ hV₄ elem elem' helem
      have hlist : ∀ {a a' : String}, V₃.rel a a' →
          (Ty.list (.var a) (.var elem)).Paired V₄ (Ty.list (.var a') (.var elem')) :=
        fun ha => .app (.app (.const _) (.var (hV₄ _ _ ha))) (.var helem)
      exact parallel_pure (.arrow (.var helem) (.arrow (hlist hsize) (hlist hresult)))
    . intro _ _
      exact parallel_pure (.arrow (.app (.const _) (.var hsize)) (.app (.const _) (.var hresult)))
  . intro _ _
    rw [henv.builtins]
    split
    . next scheme hlookup => exact Scheme.instantiate_parallel (henv.constructors name scheme hlookup)
    . exact parallel_fail rfl

theorem varTy_parallel (henv : env.Paired W env') (hc : c.Paired T W c') (pos : Nat) {x y : String} (hxy : T.rel x y)
    (hglobal : x ∉ c.names → x = y)
    : Parallel n d W (fun V r r' => r.1.Paired V r'.1 ∧ r.2.Paired T V r'.2) (varTy env c pos x)
        (varTy env' c' pos y) := by
  have hlookup := hc.lookup? hxy
  rw [← Context.lookup?_eq_none_iff] at hglobal
  unfold varTy
  generalize c.lookup? x = o at hlookup hglobal
  generalize c'.lookup? y = o' at hlookup
  cases hlookup with
  | some ha =>
    cases ha with
    | linear hty => exact parallel_pure ⟨hty, Context.paired_singleton hxy (.linear hty)⟩
    | graded hty hg =>
      apply (Grade.inferKind_parallel pos hg).bind
      intro V hV k k' hk
      exact parallel_pure ⟨hty.mono hV, Context.paired_singleton hxy (.graded (hty.mono hV) (.one hk))⟩
  | none =>
    rw [← hglobal rfl]
    dsimp only
    rw [henv.lookup x]
    split
    . next scheme hscheme =>
      apply (Scheme.instantiate_parallel (henv.definitions x scheme hscheme)).bind
      intro V hV ty ty' hty
      exact parallel_pure ⟨hty, Context.paired_empty⟩
    . exact parallel_fail rfl

theorem firstFit_parallel {fits fits' : Ty → Ty → CheckM Context} {noFit noFit' : CheckM (Ty × Context)}
    {tys tys' : List Ty} {rejection rejection' : Option Error} (htys : List.Forall₂ (Ty.Paired W) tys tys')
    (hfits : ∀ V, W ≤ V → ∀ {a a' b b' : Ty}, a.Paired V a' → b.Paired V b' →
      Parallel n d V (Context.Paired T) (fits a b) (fits' a' b'))
    (hnoFit : ∀ V, W ≤ V → Parallel n d V (fun V r r' => r.1.Paired V r'.1 ∧ r.2.Paired T V r'.2) noFit noFit')
    (hrejection : Option.Rel (fun e e' => e.cause.isShape = e'.cause.isShape) rejection rejection')
    : Parallel n d W (fun V r r' => r.1.Paired V r'.1 ∧ r.2.Paired T V r'.2) (firstFit fits noFit tys rejection)
        (firstFit fits' noFit' tys' rejection') := by
  induction tys generalizing tys' rejection rejection' W with
  | nil =>
    cases htys
    cases hrejection with
    | none => exact hnoFit W le_rfl
    | some he => exact parallel_throw he
  | cons ty tys ih =>
    obtain ⟨ty', tys', hty, hrest, rfl⟩ := List.forall₂_cons_left_iff.mp htys
    have hargs := hty.args
    unfold firstFit
    generalize ty.args = args at hargs
    generalize ty'.args = args' at hargs
    cases hargs with
    | nil => exact ih hrest hfits hnoFit hrejection
    | cons hleft hargs =>
      cases hargs with
      | nil => exact ih hrest hfits hnoFit hrejection
      | cons hright hargs =>
        cases hargs with
        | cons _ _ => exact ih hrest hfits hnoFit hrejection
        | nil =>
          apply (hfits W le_rfl hleft hright).attempt.bind
          intro V hV outcome outcome' houtcome
          cases houtcome with
          | ok hused => exact parallel_pure ⟨(hty.mono hV).result, hused⟩
          | error he =>
            apply ih (hrest.imp fun _ _ h => h.mono hV) (fun V' hV' => hfits V' (le_trans hV hV'))
              (fun V' hV' => hnoFit V' (le_trans hV hV'))
            -- the first error that is not about the form of a type stays
            cases hrejection with
            | some he' => exact .some he'
            | none =>
              rw [Option.none_or, Option.none_or, he]
              split
              . exact .none
              . exact .some he

theorem baseline_parallel {branches branches' : List (Pattern × Expr)} (pos : Nat) (hc : c.Paired T W c')
    (hvars : ∀ x y, T.rel x y → (x ∈ freeOccurrencesAll branches ↔ y ∈ freeOccurrencesAll branches'))
    : Parallel n d W (Context.Paired T) (baseline pos c branches) (baseline pos c' branches') := by
  have hshared : ∀ x y, T.rel x y → (x ∈ sharedVars branches ↔ y ∈ sharedVars branches') := by
    intro x y hxy
    unfold sharedVars
    rw [List.mem_eraseDups, List.mem_eraseDups]
    exact hvars x y hxy
  refine (parallel_filterMapM (P := fun V => T.Entries (Assumption.Paired V))
    (R := fun V => T.Entries (Assumption.Paired V)) ?_ ?_ (hc.gradedOnly.restrict hshared) ?_).bind ?_
  . intro W V p q hWV hpq
    exact ⟨hpq.1, hpq.2.mono hWV⟩
  . intro W V p q hWV hpq
    exact ⟨hpq.1, hpq.2.mono hWV⟩
  . rintro V hV ⟨x, a⟩ ⟨y, b⟩ ⟨hxy, hab⟩
    dsimp only at hxy hab ⊢
    cases hab with
    | linear _ => exact parallel_pure .none
    | graded hty hg =>
      apply (Grade.inferKind_parallel pos hg).bind
      intro V₁ hV₁ k k' hk
      apply (parallel_freshGrade x y hk).bind
      intro V₂ hV₂ upper upper' hupper
      exact parallel_pure (.some ⟨hxy, .graded (hty.mono (le_trans hV₁ hV₂)) hupper⟩)
  . intro V hV bindings bindings' hbindings
    exact parallel_pure (.ofList hbindings)

theorem closeBranch_parallel {S : Pairing} {info info' : CaseInfo} {p p' : Pattern} (hpos : p'.pos = p.pos)
    (bodyPos : Nat) {matched matched' : Matched} (hbase : info.baseline.Paired T W info'.baseline)
    (hmatched : matched.Paired S W matched') (hused : used.Paired S W used')
    (hshared : ∀ x y, x ∈ used.names → S.rel x y →
      T.rel x y ∨ x ∉ info.baseline.names ∧ y ∉ info'.baseline.names)
    (hrest : ∀ x y, x ∈ used.names → S.rel x y → x ∉ matched.context.names → T.rel x y)
    : Parallel n d W (Context.Paired T) (closeBranch info p bodyPos matched used)
        (closeBranch info' p' bodyPos matched' used') := by
  have hcontains : ∀ x y, x ∈ used.names → S.rel x y → info.baseline.contains x = info'.baseline.contains y := by
    intro x y hx hxy
    obtain hxy | ⟨hx, hy⟩ := hshared x y hx hxy
    . exact hbase.contains hxy
    . unfold Context.contains
      rw [Context.lookup?_eq_none_iff.mpr hx, Context.lookup?_eq_none_iff.mpr hy]
  have hinside : (used.intersect info.baseline).Paired T W (used'.intersect info'.baseline) := by
    apply hused.filter
    . intro x y _ _ hx hxy _
      exact hcontains x y hx hxy
    . intro x y _ hx hxy hbound
      exact (hshared x y hx hxy).resolve_right fun hunbound =>
        hunbound.1 (Context.isSome_lookup?_iff.mp hbound)
  have houtside : (used.subtract info.baseline).Paired S W (used'.subtract info'.baseline) := by
    apply hused.filter
    . intro x y _ _ hx hxy _
      rw [hcontains x y hx hxy]
    . intro x y _ _ hxy _
      exact hxy
  have hnet : ((used.subtract info.baseline).subtract matched.context).Paired T W
      ((used'.subtract info'.baseline).subtract matched'.context) := by
    apply houtside.filter
    . intro x y _ _ _ hxy _
      rw [hmatched.context.contains hxy]
    . intro x y _ hx hxy hunbound
      apply hrest x y ((List.filter_sublist.map _).subset hx) hxy
      rw [← Context.isSome_lookup?_iff]
      simpa [Context.contains] using hunbound
  unfold closeBranch
  rw [hpos]
  apply parallel_ite (by rw [hmatched.context.isEmpty_remainingLinear hused])
  . intro _ _
    exact parallel_fail_bind rfl
  . intro _ _
    apply (Context.le_parallel p.pos (hused.intersect hmatched.context) hmatched.context).bind
    intro V₁ hV₁ _ _ _
    apply (Context.le_parallel bodyPos (hinside.mono hV₁) (hbase.mono hV₁)).bind
    intro V₂ hV₂ _ _ _
    have hV := le_trans hV₁ hV₂
    apply (parallel_closeScope (hmatched.mono hV).existentials).bind
    intro V₃ hV₃ _ _ _
    exact parallel_pure (hnet.mono (le_trans hV hV₃))

end

end Expr

end GradedModal
