import Mathlib
import GradedModal.Proofs.Parallel

/-!
This module says that what is done with types does not depend on how their variables are called: kinds are inferred,
types are compared and joined, and schemes are instantiated in parallel.
-/

namespace GradedModal

open CheckM

structure Env.Paired (W : Pairing) (env env' : Env) : Prop where
  builtins : env'.builtins = env.builtins
  lookup : ∀ name, env'.lookup? name = env.lookup? name
  types : ∀ name kind, env.builtins.types.lookup name = some kind → kind.Paired W kind
  constructors : ∀ name scheme, env.builtins.constructors.lookup name = some scheme → scheme.Paired W scheme
  operators : ∀ op, ∀ ty ∈ env.builtins.signatures op, ty.Paired W ty
  definitions : ∀ name scheme, env.lookup? name = some scheme → scheme.Paired W scheme

theorem Env.Paired.mono {W V : Pairing} {env env' : Env} (h : env.Paired W env') (hWV : W ≤ V) : env.Paired V env' where
  builtins := h.builtins
  lookup := h.lookup
  types name kind hkind := (h.types name kind hkind).mono hWV
  constructors name scheme hscheme := (h.constructors name scheme hscheme).mono hWV
  operators op ty hty := (h.operators op ty hty).mono hWV
  definitions name scheme hscheme := (h.definitions name scheme hscheme).mono hWV

section

variable {n d : Nat} {W : Pairing} {env env' : Env}

theorem GradeKind.unify_parallel (pos : Nat) {k k' l l' : GradeKind} (hk : k.Paired W k') (hl : l.Paired W l')
    : Parallel n d W GradeKind.Paired (unify pos k l) (unify pos k' l') := by
  unfold unify
  apply (parallel_resolve hk).bind
  intro V₁ hV₁ k₁ k₁' hk₁
  apply (parallel_resolve (hl.mono hV₁)).bind
  intro V₂ hV₂ l₁ l₁' hl₁
  have hk₂ := hk₁.mono hV₂
  apply parallel_ite (hk₂.eq_iff hl₁)
  . intro _ _
    exact parallel_pure hk₂
  . intro _ _
    cases hk₂ with
    | var hname =>
      apply (parallel_bindGradeKind hname hl₁).bind
      intro V hV _ _ _
      exact parallel_pure (hl₁.mono hV)
    | nat =>
      cases hl₁ with
      | var hname => exact (parallel_bindGradeKind hname .nat).bind fun _ _ _ _ _ => parallel_pure .nat
      | _ => exact parallel_fail rfl
    | float =>
      cases hl₁ with
      | var hname => exact (parallel_bindGradeKind hname .float).bind fun _ _ _ _ _ => parallel_pure .float
      | _ => exact parallel_fail rfl
    | level =>
      cases hl₁ with
      | var hname => exact (parallel_bindGradeKind hname .level).bind fun _ _ _ _ _ => parallel_pure .level
      | _ => exact parallel_fail rfl

theorem Grade.inferKind_parallel (pos : Nat) {g g' : Grade} (h : g.Paired W g')
    : Parallel n d W GradeKind.Paired (g.inferKind pos) (g'.inferKind pos) := by
  induction g generalizing g' W with
  | var name =>
    cases h with
    | var hname =>
      apply (parallel_typeVar pos hname).bind
      intro V _ v v' hv
      have hkind := hv.kind
      generalize v.kind = kind at hkind
      generalize v'.kind = kind' at hkind
      cases hkind with
      | grade hk => exact parallel_resolve hk
      | _ => exact parallel_fail rfl
  | nat n =>
    cases h
    exact parallel_pure .nat
  | float x =>
    cases h
    exact parallel_pure .float
  | level l =>
    cases h
    exact parallel_pure .level
  | zero kind =>
    cases h with
    | zero hk => exact parallel_resolve hk
  | one kind =>
    cases h with
    | one hk => exact parallel_resolve hk
  | op o a b iha ihb =>
    cases h with
    | op _ ha hb =>
      apply (iha ha).bind
      intro V₁ hV₁ k k' hk
      apply (ihb (hb.mono hV₁)).bind
      intro V₂ hV₂ l l' hl
      exact GradeKind.unify_parallel pos (hk.mono hV₂) hl

theorem Kind.unify_parallel (pos : Nat) {k k' l l' : Kind} (hk : k.Paired W k') (hl : l.Paired W l')
    : Parallel n d W Kind.Paired (unify pos k l) (unify pos k' l') := by
  have hequal : ∀ {V : Pairing} {k k' l l' : Kind}, k.Paired V k' → l.Paired V l' →
      Parallel n d V Kind.Paired (if k = l then return k else fail pos (.kindMismatch k l))
        (if k' = l' then return k' else fail pos (.kindMismatch k' l')) :=
    fun hk hl => parallel_ite (hk.eq_iff hl) (fun _ _ => parallel_pure hk) fun _ _ => parallel_fail rfl
  induction k generalizing k' l l' W with
  | type =>
    cases hk
    exact hequal .type hl
  | effect =>
    cases hk
    exact hequal .effect hl
  | grade kind =>
    cases hk with
    | grade hk =>
      cases hl with
      | grade hl => exact (GradeKind.unify_parallel pos hk hl).bind fun _ _ _ _ h => parallel_pure (.grade h)
      | type => exact hequal (.grade hk) .type
      | effect => exact hequal (.grade hk) .effect
      | arrow ha hb => exact hequal (.grade hk) (.arrow ha hb)
  | arrow a b iha ihb =>
    cases hk with
    | arrow ha hb =>
      cases hl with
      | arrow hc he =>
        apply (iha ha hc).bind
        intro V₁ hV₁ input input' hinput
        apply (ihb (hb.mono hV₁) (he.mono hV₁)).bind
        intro V₂ hV₂ output output' houtput
        exact parallel_pure (.arrow (hinput.mono hV₂) houtput)
      | type => exact hequal (.arrow ha hb) .type
      | effect => exact hequal (.arrow ha hb) .effect
      | grade hk => exact hequal (.arrow ha hb) (.grade hk)

namespace Ty

theorem unify_type_parallel {α : Type} {R : Pairing → α → α → Prop} (pos : Nat) {x x' : CheckM Kind} {y y' : CheckM α}
    (hx : Parallel n d W Kind.Paired x x') (hy : ∀ V, W ≤ V → Parallel n d V R y y')
    : Parallel n d W R (do discard <| Kind.unify pos .type (← x); y) (do discard <| Kind.unify pos .type (← x'); y') := by
  apply hx.bind
  intro V₁ hV₁ k k' hk
  apply (Kind.unify_parallel pos .type hk).discard.bind
  intro V₂ hV₂ _ _ _
  exact hy V₂ (le_trans hV₁ hV₂)

theorem inferKind_parallel (henv : env.Paired W env') (pos : Nat) {ty ty' : Ty} (h : ty.Paired W ty')
    : Parallel n d W Kind.Paired (ty.inferKind env pos) (ty'.inferKind env' pos) := by
  induction ty generalizing ty' W with
  | const name =>
    cases h
    unfold inferKind
    rw [henv.builtins]
    split
    . next kind hlookup => exact parallel_pure (henv.types name kind hlookup)
    . exact parallel_fail rfl
  | var name =>
    cases h with
    | var hname => exact (parallel_typeVar pos hname).bind fun _ _ _ _ hv => parallel_pure hv.kind
  | index m =>
    cases h
    exact parallel_pure (.grade .nat)
  | op o a b iha ihb =>
    cases h with
    | op _ ha hb =>
      apply (iha henv ha).bind
      intro V₁ hV₁ left left' hleft
      apply (ihb (henv.mono hV₁) (hb.mono hV₁)).bind
      intro V₂ hV₂ right right' hright
      cases hleft.mono hV₂ with
      | grade hk =>
        cases hright with
        | grade hl => exact (GradeKind.unify_parallel pos hk hl).bind fun _ _ _ _ h => parallel_pure (.grade h)
        | _ => exact parallel_fail rfl
      | _ => exact parallel_fail rfl
  | arrow a b iha ihb =>
    cases h with
    | arrow ha hb =>
      apply unify_type_parallel pos (iha henv ha)
      intro V hV
      exact unify_type_parallel pos (ihb (henv.mono hV) (hb.mono hV)) fun _ _ => parallel_pure .type
  | pair a b iha ihb =>
    cases h with
    | pair ha hb =>
      apply unify_type_parallel pos (iha henv ha)
      intro V hV
      exact unify_type_parallel pos (ihb (henv.mono hV) (hb.mono hV)) fun _ _ => parallel_pure .type
  | box grade a ih =>
    cases h with
    | box hg ha =>
      apply (Grade.inferKind_parallel pos hg).discard.bind
      intro V₁ hV₁ _ _ _
      exact unify_type_parallel pos (ih (henv.mono hV₁) (ha.mono hV₁)) fun _ _ => parallel_pure .type
  | diamond effects a ih =>
    cases h with
    | diamond _ ha => exact unify_type_parallel pos (ih henv ha) fun _ _ => parallel_pure .type
  | app a b iha ihb =>
    cases h with
    | app ha hb =>
      apply (iha henv ha).bind
      intro V₁ hV₁ function function' hfunction
      apply (ihb (henv.mono hV₁) (hb.mono hV₁)).bind
      intro V₂ hV₂ arg arg' harg
      cases hfunction.mono hV₂ with
      | arrow hinput houtput =>
        apply (Kind.unify_parallel pos hinput harg).discard.bind
        intro V₃ hV₃ _ _ _
        exact parallel_pure (houtput.mono hV₃)
      | _ => exact parallel_fail rfl

theorem checkKind_parallel (henv : env.Paired W env') (pos : Nat) {ty ty' : Ty} (h : ty.Paired W ty') {k k' : Kind}
    (hk : k.Paired W k')
    : Parallel n d W (fun _ _ _ => True) (ty.checkKind env pos k) (ty'.checkKind env' pos k') :=
  (inferKind_parallel henv pos h).bind fun _ hV _ _ hl => (Kind.unify_parallel pos (hk.mono hV) hl).discard

end Ty

theorem Context.commonKind_parallel (pos : Nat) {g g' h h' : Grade} (hg : g.Paired W g') (hh : h.Paired W h')
    : Parallel n d W GradeKind.Paired (commonKind pos g h) (commonKind pos g' h') := by
  apply (Grade.inferKind_parallel pos hg).bind
  intro V₁ hV₁ k k' hk
  apply (Grade.inferKind_parallel pos (hh.mono hV₁)).bind
  intro V₂ hV₂ l l' hl
  exact GradeKind.unify_parallel pos (hk.mono hV₂) hl

namespace Unify

variable {left left' right right' : Ty}

theorem vars_parallel (pos : Nat) {a a' b b' : String} (ha : W.rel a a') (hb : W.rel b b')
    : Parallel n d W Unified.Paired (vars pos a b) (vars pos a' b') := by
  apply (parallel_typeVar pos ha).bind
  intro V₁ hV₁ l l' hl
  apply (parallel_typeVar pos (hV₁ _ _ hb)).bind
  intro V₂ hV₂ r r' hr
  have hl := hl.mono hV₂
  have ha := hV₂ _ _ (hV₁ _ _ ha)
  have hb := hV₂ _ _ (hV₁ _ _ hb)
  apply parallel_ite (by rw [hl.quantifier, hr.quantifier])
  . intro _ _
    exact parallel_pure ⟨rfl, .var ha, .nil⟩
  . intro _ _
    -- Whichever variable is solved, it is the same one on both sides.
    have hsolved : ∃ kept solved kept' solved' : String,
        (if r.quantifier = .universal then (b, a) else (a, b)) = (kept, solved) ∧
        (if r'.quantifier = .universal then (b', a') else (a', b')) = (kept', solved') ∧
        V₂.rel kept kept' ∧ V₂.rel solved solved' := by
      rw [hr.quantifier]
      split
      . exact ⟨b, a, b', a', rfl, rfl, hb, ha⟩
      . exact ⟨a, b, a', b', rfl, rfl, ha, hb⟩
    obtain ⟨kept, solved, kept', solved', heq, heq', hkept, hsolved⟩ := hsolved
    rw [heq, heq']
    have hlkind := hl.kind
    have hrkind := hr.kind
    dsimp only
    generalize l.kind = lkind at hlkind
    generalize l'.kind = lkind' at hlkind
    generalize r.kind = rkind at hrkind
    generalize r'.kind = rkind' at hrkind
    have hunified : ∀ V, V₂ ≤ V → Parallel n d V Unified.Paired (pure ⟨true, .var a, [(solved, .var kept)]⟩)
        (pure ⟨true, .var a', [(solved', .var kept')]⟩) :=
      fun V hV => parallel_pure ⟨rfl, .var (hV _ _ ha), .cons ⟨hV _ _ hsolved, .var (hV _ _ hkept)⟩ .nil⟩
    have hother := (Kind.unify_parallel (n := n) (d := d) pos hlkind hrkind).discard.bind fun V hV _ _ _ => hunified V hV
    cases hlkind with
    | grade hk =>
      cases hrkind with
      | grade hk' =>
        apply (GradeKind.unify_parallel pos hk hk').bind
        intro V₃ hV₃ kind kind' hkind
        apply (parallel_constrain (.var (hV₃ _ _ hkept)) (.var (hV₃ _ _ hsolved)) hkind).bind
        intro V₄ hV₄ _ _ _
        exact hunified V₄ (le_trans hV₃ hV₄)
      | _ => exact hother
    | _ => exact hother

theorem var_parallel (henv : env.Paired W env') (pos : Nat) {a a' : String} (ha : W.rel a a') {ty ty' : Ty}
    (hty : ty.Paired W ty') (hleft : left.Paired W left')
    : Parallel n d W Unified.Paired (var env pos a ty left) (var env' pos a' ty' left') := by
  apply (parallel_typeVar pos ha).bind
  intro V₁ hV₁ v v' hv
  apply (Ty.inferKind_parallel (henv.mono hV₁) pos (hty.mono hV₁)).bind
  intro V₂ hV₂ tyKind tyKind' htyKind
  have hV := le_trans hV₁ hV₂
  have ha := hV _ _ ha
  have hty := hty.mono hV
  have hvkind := (hv.mono hV₂).kind
  have hunified : ∀ V, V₂ ≤ V → Parallel n d V Unified.Paired (pure ⟨true, left, [(a, ty)]⟩)
      (pure ⟨true, left', [(a', ty')]⟩) :=
    fun V hV => parallel_pure ⟨rfl, hleft.mono (le_trans (le_trans hV₁ hV₂) hV), .cons ⟨hV _ _ ha, hty.mono hV⟩ .nil⟩
  have hother : Parallel n d V₂ Unified.Paired
      (if v.quantifier = .universal then do
        (fail pos (.rigidTypeVar a ty) : CheckM PUnit)
        return ⟨true, left, [(a, ty)]⟩
      else do
        discard (Kind.unify pos v.kind tyKind)
        return ⟨true, left, [(a, ty)]⟩)
      (if v'.quantifier = .universal then do
        (fail pos (.rigidTypeVar a' ty') : CheckM PUnit)
        return ⟨true, left', [(a', ty')]⟩
      else do
        discard (Kind.unify pos v'.kind tyKind')
        return ⟨true, left', [(a', ty')]⟩) := by
    apply parallel_ite (by rw [hv.quantifier])
    . intro _ _
      exact parallel_fail_bind rfl
    . intro _ _
      exact (Kind.unify_parallel pos hvkind htyKind).discard.bind fun V hV _ _ _ => hunified V hV
  dsimp only
  generalize v.kind = vkind at hvkind hother
  generalize v'.kind = vkind' at hvkind hother
  cases hvkind with
  | grade hk =>
    cases htyKind with
    | grade hk' =>
      apply (GradeKind.unify_parallel pos hk hk').bind
      intro V₃ hV₃ kind kind' hkind
      have hgrade := (hty.mono hV₃).toGrade?
      generalize ty.toGrade? = o at hgrade
      generalize ty'.toGrade? = o' at hgrade
      cases hgrade with
      | some hgrade =>
        apply (parallel_constrain (.var (hV₃ _ _ ha)) hgrade hkind).bind
        intro V₄ hV₄ _ _ _
        exact hunified V₄ (le_trans hV₃ hV₄)
      | none => exact parallel_fail_bind rfl
    | _ => exact hother
  | _ => exact hother

theorem indices_parallel (henv : env.Paired W env') (pos : Nat) (hleft : left.Paired W left')
    (hright : right.Paired W right')
    : Parallel n d W Unified.Paired (indices env pos left right) (indices env' pos left' right') := by
  apply (Ty.inferKind_parallel henv pos hleft).bind
  intro V₁ hV₁ leftKind leftKind' hleftKind
  apply (Ty.inferKind_parallel (henv.mono hV₁) pos (hright.mono hV₁)).bind
  intro V₂ hV₂ rightKind rightKind' hrightKind
  have hV := le_trans hV₁ hV₂
  have hgrade := (hleft.mono hV).toGrade?
  have hgrade' := (hright.mono hV).toGrade?
  generalize left.toGrade? = o at hgrade
  generalize left'.toGrade? = o' at hgrade
  generalize right.toGrade? = p at hgrade'
  generalize right'.toGrade? = p' at hgrade'
  cases hleftKind.mono hV₂ with
  | grade hk =>
    cases hrightKind with
    | grade hk' =>
      cases hgrade with
      | some hg =>
        cases hgrade' with
        | some hg' =>
          apply (GradeKind.unify_parallel pos hk hk').bind
          intro V₃ hV₃ kind kind' hkind
          apply (parallel_constrain (hg.mono hV₃) (hg'.mono hV₃) hkind).bind
          intro V₄ hV₄ _ _ _
          exact parallel_pure ⟨rfl, hleft.mono (le_trans hV (le_trans hV₃ hV₄)), .nil⟩
        | none => exact parallel_fail rfl
      | none => exact parallel_fail rfl
    | _ => exact parallel_fail rfl
  | _ => exact parallel_fail rfl

theorem merge_parallel {equal equal' : Ty → Ty → CheckM Unified} (pos : Nat) {first first' second second' : Substitution}
    (hequal : ∀ V, W ≤ V → ∀ {a a' b b' : Ty}, a.Paired V a' → b.Paired V b' →
      Parallel n d V Unified.Paired (equal a b) (equal' a' b'))
    (hfirst : Substitution.Paired W first first') (hsecond : Substitution.Paired W second second')
    : Parallel n d W Substitution.Paired (merge equal pos first second) (merge equal' pos first' second') := by
  induction second generalizing first first' second' W with
  | nil =>
    cases hsecond
    exact parallel_pure hfirst
  | cons binding second ih =>
    obtain ⟨name, ty⟩ := binding
    obtain ⟨⟨name', ty'⟩, second', hbinding, hsecond', rfl⟩ := List.forall₂_cons_left_iff.mp hsecond
    have hknown := hfirst.lookup hbinding.1
    unfold merge
    generalize first.lookup name = o at hknown
    generalize first'.lookup name' = o' at hknown
    cases hknown with
    | none => exact ih hequal (List.rel_append hfirst (.cons hbinding .nil)) hsecond'
    | some hknown =>
      apply (hequal W le_rfl hknown hbinding.2).bind
      intro V hV unified unified' hunified
      apply parallel_ite (by rw [hunified.agree])
      . intro _ _
        exact ih (fun V' hV' => hequal V' (le_trans hV hV')) (Substitution.Paired.mono hfirst hV)
          (Substitution.Paired.mono hsecond' hV)
      . intro _ _
        exact parallel_fail rfl

theorem relatePair_parallel {depth : Nat} (pos : Nat) (relation : Relation) {a a' b b' c c' e e' : Ty}
    (ih : ∀ {V : Pairing} {left left' right right' : Ty} (relation : Relation), W ≤ V → left.Paired V left' →
      right.Paired V right' →
        Parallel n d V Unified.Paired (relate env pos depth relation left right)
          (relate env' pos depth relation left' right'))
    (ha : a.Paired W a') (hb : b.Paired W b') (hc : c.Paired W c') (he : e.Paired W e')
    : Parallel n d W (fun V u u' => u.1.Paired V u'.1 ∧ u.2.1.Paired V u'.2.1 ∧ Substitution.Paired V u.2.2 u'.2.2)
        (relate.relatePair env pos depth relation a b c e) (relate.relatePair env' pos depth relation a' b' c' e') := by
  unfold relate.relatePair
  apply (ih relation le_rfl ha hc).bind
  intro V₁ hV₁ first first' hfirst
  apply (ih relation hV₁ ((hb.mono hV₁).substitute hfirst.subst) ((he.mono hV₁).substitute hfirst.subst)).bind
  intro V₂ hV₂ second second' hsecond
  have hV := le_trans hV₁ hV₂
  have hsubst := Substitution.Paired.mono hfirst.subst hV₂
  apply (merge_parallel pos (fun V hV' => ih .eq (le_trans hV hV')) hsubst hsecond.subst).bind
  intro V₃ hV₃ subst subst' hsubst
  exact parallel_pure ⟨hfirst.mono (le_trans hV₂ hV₃), hsecond.mono hV₃, hsubst⟩

theorem relate_parallel (henv : env.Paired W env') (pos depth : Nat) (relation : Relation) (hleft : left.Paired W left')
    (hright : right.Paired W right')
    : Parallel n d W Unified.Paired (relate env pos depth relation left right)
        (relate env' pos depth relation left' right') := by
  induction depth generalizing relation left left' right right' W with
  | zero =>
    unfold relate
    exact parallel_fail rfl
  | succ depth ih =>
    have ih' : ∀ {V : Pairing} {left left' right right' : Ty} (relation : Relation), W ≤ V → left.Paired V left' →
        right.Paired V right' →
          Parallel n d V Unified.Paired (relate env pos depth relation left right)
            (relate env' pos depth relation left' right') :=
      fun relation hV hleft hright => ih (henv.mono hV) relation hleft hright
    have hindices := indices_parallel (n := n) (d := d) henv pos hleft hright
    have hvar := fun {a a' : String} (ha : W.rel a a') {ty ty' : Ty} (hty : ty.Paired W ty') =>
      var_parallel (n := n) (d := d) henv pos ha hty hleft
    have hleft' := hleft
    unfold relate
    cases hleft with
    | arrow harg hresult =>
      cases hright with
      | arrow harg' hresult' =>
        apply (ih' .le le_rfl harg' harg).bind
        intro V₁ hV₁ args args' hargs
        have hresult := (hresult.mono hV₁).substitute hargs.subst
        have hresult' := (hresult'.mono hV₁).substitute hargs.subst
        apply (ih' relation hV₁ hresult hresult').bind
        intro V₂ hV₂ results results' hresults
        have hV := le_trans hV₁ hV₂
        have hsubst := Substitution.Paired.mono hargs.subst hV₂
        apply (merge_parallel pos (fun V hV' => ih' .eq (le_trans hV hV')) hsubst hresults.subst).bind
        intro V₃ hV₃ subst subst' hsubst
        refine parallel_pure ⟨?_, .arrow (harg.mono (le_trans hV hV₃)) (hresult.mono (le_trans hV₂ hV₃)), hsubst⟩
        rw [hargs.agree, hresults.agree]
      | var hname => exact hvar hname hleft'
      | _ => exact hindices
    | const name =>
      cases hright with
      | const name' => exact parallel_pure ⟨rfl, .const name, .nil⟩
      | var hname => exact hvar hname hleft'
      | _ => exact hindices
    | diamond effects hty =>
      cases hright with
      | diamond effects' hty' =>
        apply (ih' relation le_rfl hty hty').bind
        intro V hV inner inner' hinner
        apply parallel_ite Iff.rfl
        . intro _ _
          exact parallel_pure ⟨hinner.agree, .diamond effects hinner.ty, hinner.subst⟩
        . intro _ _
          exact parallel_fail rfl
      | var hname => exact hvar hname hleft'
      | _ => exact hindices
    | box hg hty =>
      cases hright with
      | box hg' hty' =>
        apply (Grade.inferKind_parallel pos hg).bind
        intro V₁ hV₁ k k' hk
        apply (Grade.inferKind_parallel pos (hg'.mono hV₁)).bind
        intro V₂ hV₂ l l' hl
        apply (GradeKind.unify_parallel pos (hk.mono hV₂) hl).bind
        intro V₃ hV₃ kind kind' hkind
        have hV := le_trans hV₁ (le_trans hV₂ hV₃)
        apply (parallel_constrain (hg.mono hV) (hg'.mono hV) hkind).bind
        intro V₄ hV₄ _ _ _
        have hV := le_trans hV hV₄
        apply (ih' .eq hV (hty.mono hV) (hty'.mono hV)).bind
        intro V₅ hV₅ inner inner' hinner
        exact parallel_pure ⟨hinner.agree, .box (hg.mono (le_trans hV hV₅)) hinner.ty, hinner.subst⟩
      | var hname => exact hvar hname hleft'
      | _ => exact hindices
    | app ha hb =>
      cases hright with
      | app hc he =>
        apply (relatePair_parallel pos relation ih' ha hb hc he).bind
        rintro V hV ⟨first, second, subst⟩ ⟨first', second', subst'⟩ ⟨hfirst, hsecond, hsubst⟩
        refine parallel_pure ⟨?_, .app hfirst.ty hsecond.ty, hsubst⟩
        exact congrArg₂ and hfirst.agree hsecond.agree
      | var hname => exact hvar hname hleft'
      | _ => exact hindices
    | pair ha hb =>
      cases hright with
      | pair hc he =>
        apply (relatePair_parallel pos relation ih' ha hb hc he).bind
        rintro V hV ⟨first, second, subst⟩ ⟨first', second', subst'⟩ ⟨hfirst, hsecond, hsubst⟩
        refine parallel_pure ⟨?_, .pair hfirst.ty hsecond.ty, hsubst⟩
        exact congrArg₂ and hfirst.agree hsecond.agree
      | var hname => exact hvar hname hleft'
      | _ => exact hindices
    | var hname =>
      have hright' := hright
      cases hright with
      | var hname' =>
        apply parallel_ite (W.eq_iff hname hname')
        . intro _ _
          exact (parallel_typeVar pos hname).discard.bind fun V hV _ _ _ =>
            parallel_pure ⟨rfl, .var (hV _ _ hname), .nil⟩
        . intro _ _
          exact vars_parallel pos hname hname'
      | _ => exact hvar hname hright'
    | index m | op o ha hb =>
      cases hright with
      | var hname => exact hvar hname hleft'
      | _ => exact hindices

end Unify

namespace Ty

variable {left left' right right' : Ty}

theorem relate_parallel (henv : env.Paired W env') (pos : Nat) (relation : Relation) (hleft : left.Paired W left')
    (hright : right.Paired W right')
    : Parallel n d W Unified.Paired (left.relate env pos relation right) (left'.relate env' pos relation right') :=
  Unify.relate_parallel henv pos _ relation hleft hright

theorem equal_parallel (henv : env.Paired W env') (pos : Nat) (hleft : left.Paired W left')
    (hright : right.Paired W right')
    : Parallel n d W Unified.Paired (left.equal env pos right) (left'.equal env' pos right') :=
  relate_parallel henv pos .eq hleft hright

theorem joinByEquality_parallel (henv : env.Paired W env') (pos : Nat) (hleft : left.Paired W left')
    (hright : right.Paired W right')
    : Parallel n d W Ty.Paired (left.joinByEquality env pos right) (left'.joinByEquality env' pos right') := by
  apply (equal_parallel henv pos hleft hright).bind
  intro V hV unified unified' hunified
  have hleft := hleft.mono hV
  have hright := hright.mono hV
  apply parallel_ite (by rw [hunified.agree])
  . intro _ _
    exact parallel_fail rfl
  . intro _ _
    have hleft' := hleft
    cases hleft with
    | var hname => exact parallel_pure hright
    | _ => exact parallel_pure hleft'

theorem join_components {f : Ty → Ty → Ty} {x x' : CheckM Ty} {y y' : CheckM Ty} (hx : Parallel n d W Ty.Paired x x')
    (hy : ∀ V, W ≤ V → Parallel n d V Ty.Paired y y')
    (hf : ∀ {V : Pairing} {a a' b b' : Ty}, a.Paired V a' → b.Paired V b' → (f a b).Paired V (f a' b'))
    : Parallel n d W Ty.Paired (do let a ← x; let b ← y; return f a b) (do let a ← x'; let b ← y'; return f a b) := by
  apply hx.bind
  intro V₁ hV₁ a a' ha
  apply (hy V₁ hV₁).bind
  intro V₂ hV₂ b b' hb
  exact parallel_pure (hf (ha.mono hV₂) hb)

theorem join_parallel (henv : env.Paired W env') (pos : Nat) (hleft : left.Paired W left') (hright : right.Paired W right')
    : Parallel n d W Ty.Paired (left.join env pos right) (left'.join env' pos right') := by
  -- The arguments of functions are joined the other way round, so the induction is on both types together.
  induction hsize : sizeOf left + sizeOf right using Nat.strong_induction_on
    generalizing left left' right right' W with
  | h size ih =>
    subst hsize
    have hequality := joinByEquality_parallel (n := n) (d := d) henv pos hleft hright
    rw [join.eq_def env, join.eq_def env']
    cases hleft with
    | arrow ha hb =>
      cases hright with
      | arrow hc he =>
        apply join_components (ih _ _ henv hc ha rfl) _ .arrow
        . simp
          omega
        . intro V hV
          apply ih _ _ (henv.mono hV) (hb.mono hV) (he.mono hV) rfl
          simp
          omega
      | var hname => exact hequality
      | _ => exact parallel_fail rfl
    | const name =>
      cases hright with
      | const name' =>
        exact parallel_ite Iff.rfl (fun _ _ => parallel_pure (.const name)) fun _ _ => parallel_fail rfl
      | var hname => exact hequality
      | _ => exact parallel_fail rfl
    | diamond effects ha =>
      cases hright with
      | diamond effects' hc =>
        apply (ih _ _ henv ha hc rfl).bind
        . intro V hV inner inner' hinner
          apply parallel_ite Iff.rfl
          . intro _ _
            exact parallel_pure (.diamond effects' hinner)
          . intro _ _
            apply parallel_ite Iff.rfl
            . intro _ _
              exact parallel_pure (.diamond effects hinner)
            . intro _ _
              exact parallel_fail rfl
        . simp
          omega
      | var hname => exact hequality
      | _ => exact parallel_fail rfl
    | box hg ha =>
      cases hright with
      | box hg' hc =>
        apply (Grade.inferKind_parallel pos hg).bind
        intro V₁ hV₁ k k' hk
        apply (Grade.inferKind_parallel pos (hg'.mono hV₁)).bind
        intro V₂ hV₂ l l' hl
        apply (GradeKind.unify_parallel pos (hk.mono hV₂) hl).bind
        intro V₃ hV₃ kind kind' hkind
        apply (parallel_freshGrade "join" "join" hkind).bind
        intro V₄ hV₄ upper upper' hupper
        have hV := le_trans hV₁ (le_trans hV₂ (le_trans hV₃ hV₄))
        apply (parallel_constrain (hg.mono hV) hupper (hkind.mono hV₄)).bind
        intro V₅ hV₅ _ _ _
        have hV := le_trans hV hV₅
        apply (parallel_constrain (hg'.mono hV) (hupper.mono hV₅) (hkind.mono (le_trans hV₄ hV₅))).bind
        intro V₆ hV₆ _ _ _
        have hV := le_trans hV hV₆
        apply (ih _ _ (henv.mono hV) (ha.mono hV) (hc.mono hV) rfl).bind
        . intro V₇ hV₇ inner inner' hinner
          exact parallel_pure (.box (hupper.mono (le_trans hV₅ (le_trans hV₆ hV₇))) hinner)
        . simp
          omega
      | var hname => exact hequality
      | _ => exact parallel_fail rfl
    | app ha hb =>
      cases hright with
      | app hc he =>
        apply join_components (ih _ _ henv ha hc rfl) _ .app
        . simp
          omega
        . intro V hV
          apply ih _ _ (henv.mono hV) (hb.mono hV) (he.mono hV) rfl
          simp
          omega
      | var hname => exact hequality
      | _ => exact parallel_fail rfl
    | pair ha hb =>
      cases hright with
      | pair hc he =>
        apply join_components (ih _ _ henv ha hc rfl) _ .pair
        . simp
          omega
        . intro V hV
          apply ih _ _ (henv.mono hV) (hb.mono hV) (he.mono hV) rfl
          simp
          omega
      | var hname => exact hequality
      | _ => exact parallel_fail rfl
    | var hname =>
      have hright' := hright
      cases hright with
      | var hname' =>
        apply parallel_ite (W.eq_iff hname hname')
        . intro _ _
          exact hequality
        . intro _ _
          apply (parallel_typeVar pos hname).bind
          intro V₁ hV₁ l l' hl
          apply (parallel_typeVar pos (hV₁ _ _ hname')).bind
          intro V₂ hV₂ r r' hr
          have hV := le_trans hV₁ hV₂
          have hother := joinByEquality_parallel (n := n) (d := d) (henv.mono hV) pos (.var (hV _ _ hname))
            (hright'.mono hV)
          have hlkind := (hl.mono hV₂).kind
          have hrkind := hr.kind
          generalize l.kind = lkind at hlkind
          generalize l'.kind = lkind' at hlkind
          generalize r.kind = rkind at hrkind
          generalize r'.kind = rkind' at hrkind
          cases hlkind with
          | grade hk =>
            cases hrkind with
            | grade hk' =>
              apply (GradeKind.unify_parallel pos hk hk').bind
              intro V₃ hV₃ kind kind' hkind
              have hV := le_trans hV hV₃
              apply (parallel_constrain (.var (hV _ _ hname)) (.var (hV _ _ hname')) hkind).bind
              intro V₄ hV₄ _ _ _
              exact parallel_pure (hright'.mono (le_trans hV hV₄))
            | _ => exact hother
          | _ => exact hother
      | _ => exact hequality
    | index m | op o ha hb => cases hright <;> exact hequality

end Ty

theorem Substitution.combine_parallel (henv : env.Paired W env') (pos : Nat) {first first' second second' : Substitution}
    (hfirst : Substitution.Paired W first first') (hsecond : Substitution.Paired W second second')
    : Parallel n d W Substitution.Paired (Substitution.combine env pos first second)
        (Substitution.combine env' pos first' second') :=
  Unify.merge_parallel pos (fun _ hV _ _ _ _ => Ty.equal_parallel (henv.mono hV) pos) hfirst hsecond

namespace Scheme

variable {scheme scheme' : Scheme}

theorem refresh_parallel (quantifier : Quantifier) (h : scheme.Paired W scheme')
    : Parallel n d W (fun V r r' => V.Tables (Kind.Paired V) r.1 r'.1 ∧ r.2.Paired V r'.2) (scheme.refresh quantifier)
        (scheme'.refresh quantifier) := by
  -- A variable, with the one that replaces it and the kind of both.
  have hfresh : Parallel n d W (fun V => V.Tables (V.Entries (Kind.Paired V)))
      (scheme.vars.mapM fun p => do return (p.1, ← freshTypeVar p.1 p.2 quantifier, p.2))
      (scheme'.vars.mapM fun p => do return (p.1, ← freshTypeVar p.1 p.2 quantifier, p.2)) := by
    apply parallel_mapM (P := fun V => V.Entries (Kind.Paired V)) _ _ h.vars
    . intro V hV p q hpq
      apply (parallel_freshTypeVar p.1 q.1 hpq.2 quantifier).bind
      intro V' hV' a b hab
      exact parallel_pure ⟨hV' _ _ hpq.1, hab, hpq.2.mono hV'⟩
    . intro W V p q hWV hpq
      exact ⟨hWV _ _ hpq.1, hpq.2.mono hWV⟩
    . intro W V p q hWV hpq
      exact ⟨hWV _ _ hpq.1, hWV _ _ hpq.2.1, hpq.2.2.mono hWV⟩
  apply hfresh.bind
  intro V hV fresh fresh' hfresh
  refine parallel_pure ⟨?_, (h.ty.mono hV).substitute ?_⟩
  . apply List.forall₂_map_left_iff.mpr
    apply List.forall₂_map_right_iff.mpr
    exact List.Forall₂.imp (fun _ _ h => h.2) hfresh
  . apply List.forall₂_map_left_iff.mpr
    apply List.forall₂_map_right_iff.mpr
    exact List.Forall₂.imp (fun _ _ h => ⟨h.1, .var h.2.1⟩) hfresh

theorem instantiate_parallel (h : scheme.Paired W scheme')
    : Parallel n d W Ty.Paired scheme.instantiate scheme'.instantiate :=
  (refresh_parallel .instantiated h).bind fun _ _ _ _ h => parallel_pure h.2

end Scheme

end

end GradedModal
