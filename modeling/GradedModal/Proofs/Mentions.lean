import GradedModal.Proofs.Advances
import GradedModal.Proofs.Scoping

/-!
This module says what comparisons of types and operations on contexts mention: nothing but the variables that they are
given and those that they make up for the solver.
-/

namespace GradedModal

open CheckM

section

variable {H : Prop} {A : String → Prop}

theorem GradeKind.unify_confines (pos : Nat) (expected actual : GradeKind)
    : Confines H A (GradeKind.unify pos expected actual) fun _ => True :=
  confines_of_quiet (GradeKind.unify_quiet _ _ _)

theorem Grade.inferKind_confines (pos : Nat) (g : Grade) : Confines H A (g.inferKind pos) fun _ => True :=
  confines_of_quiet (Grade.inferKind_quiet _ _)

theorem Kind.discard_unify_confines (pos : Nat) (k l : Kind)
    : Confines H A (discard (Kind.unify pos k l)) fun _ => True :=
  confines_of_quiet (closed_along.map (Kind.unify_quiet _ _ _))

theorem Ty.inferKind_confines (env : Env) (pos : Nat) (ty : Ty) : Confines H A (ty.inferKind env pos) fun _ => True :=
  confines_of_quiet (Ty.inferKind_quiet _ _ _)

namespace Unify

theorem vars_confines {pos : Nat} {left right : String} (hleft : H → A left) (hright : H → A right)
    : Confines H A (vars pos left right) (Unified.Within A) := by
  unfold vars
  apply confines_bind (confines_typeVar _ _)
  intro l
  apply confines_bind (confines_typeVar _ _)
  intro r
  -- Whichever variable is solved, both are allowed.
  have hboth : H → A (if r.quantifier = .universal then (right, left) else (left, right)).1 ∧
      A (if r.quantifier = .universal then (right, left) else (left, right)).2 := by
    intro hH
    split
    . exact ⟨hright hH, hleft hH⟩
    . exact ⟨hleft hH, hright hH⟩
  apply confines_ite
  . apply confines_pure
    rintro ⟨⟨hH, _⟩, _⟩
    exact ⟨Ty.within_var.mpr (hleft hH), Substitution.typesWithin_nil⟩
  . dsimp only
    split
    . apply confines_bind (GradeKind.unify_confines _ _ _)
      intro kind
      apply confines_bind
      . apply confines_constrain
        . rintro ⟨⟨⟨hH, _⟩, _⟩, _⟩
          exact Grade.within_var.mpr (hboth hH).1
        . rintro ⟨⟨⟨hH, _⟩, _⟩, _⟩
          exact Grade.within_var.mpr (hboth hH).2
      . intro _
        apply confines_pure
        rintro ⟨⟨⟨⟨hH, _⟩, _⟩, _⟩, _⟩
        exact ⟨Ty.within_var.mpr (hleft hH), Substitution.typesWithin_singleton (Ty.within_var.mpr (hboth hH).1)⟩
    . apply confines_bind (Kind.discard_unify_confines _ _ _)
      intro _
      apply confines_pure
      rintro ⟨⟨⟨hH, _⟩, _⟩, _⟩
      exact ⟨Ty.within_var.mpr (hleft hH), Substitution.typesWithin_singleton (Ty.within_var.mpr (hboth hH).1)⟩

theorem var_confines {env : Env} {pos : Nat} {name : String} {ty left : Ty} (hname : H → A name)
    (hty : H → ty.Within A) (hleft : H → left.Within A)
    : Confines H A (var env pos name ty left) (Unified.Within A) := by
  have hresult : H → (Unified.mk true left [(name, ty)]).Within A :=
    fun hH => ⟨hleft hH, Substitution.typesWithin_singleton (hty hH)⟩
  unfold var
  apply confines_bind (confines_typeVar _ _)
  intro v
  apply confines_bind (Ty.inferKind_confines _ _ _)
  intro tyKind
  dsimp only
  split
  . apply confines_bind (GradeKind.unify_confines _ _ _)
    intro kind
    split
    . next grade hgrade =>
      apply confines_bind
      . apply confines_constrain
        . rintro ⟨⟨⟨hH, _⟩, _⟩, _⟩
          exact Grade.within_var.mpr (hname hH)
        . rintro ⟨⟨⟨hH, _⟩, _⟩, _⟩
          exact (hty hH).toGrade? hgrade
      . intro _
        apply confines_pure
        rintro ⟨⟨⟨⟨hH, _⟩, _⟩, _⟩, _⟩
        exact hresult hH
    . exact confines_fail_bind
  . apply confines_ite
    . exact confines_fail_bind
    . apply confines_bind (Kind.discard_unify_confines _ _ _)
      intro _
      apply confines_pure
      rintro ⟨⟨⟨hH, _⟩, _⟩, _⟩
      exact hresult hH

theorem indices_confines {env : Env} {pos : Nat} {left right : Ty} (hleft : H → left.Within A)
    (hright : H → right.Within A) : Confines H A (indices env pos left right) (Unified.Within A) := by
  unfold indices
  apply confines_bind (Ty.inferKind_confines _ _ _)
  intro leftKind
  apply confines_bind (Ty.inferKind_confines _ _ _)
  intro rightKind
  split
  . next k k' g g' hg hg' =>
    apply confines_bind (GradeKind.unify_confines _ _ _)
    intro kind
    apply confines_bind
    . apply confines_constrain
      . rintro ⟨⟨⟨hH, _⟩, _⟩, _⟩
        exact (hleft hH).toGrade? hg
      . rintro ⟨⟨⟨hH, _⟩, _⟩, _⟩
        exact (hright hH).toGrade? hg'
    . intro _
      apply confines_pure
      rintro ⟨⟨⟨⟨hH, _⟩, _⟩, _⟩, _⟩
      exact ⟨hleft hH, Substitution.typesWithin_nil⟩
  . exact confines_fail

theorem merge_confines {equal : Ty → Ty → CheckM Unified} {pos : Nat} {first second : Substitution}
    (hequal : ∀ {H : Prop} {l r : Ty}, (H → l.Within A) → (H → r.Within A) →
      Confines H A (equal l r) (Unified.Within A))
    (hfirst : H → first.TypesWithin A) (hsecond : H → second.TypesWithin A)
    : Confines H A (merge equal pos first second) (Substitution.TypesWithin A) := by
  fun_induction merge equal pos first second generalizing H with
  | case1 first => exact confines_pure hfirst
  | case2 first name ty second hlookup ih =>
    apply ih
    . intro hH
      have hty := hsecond hH (name, ty) (by simp)
      exact List.forall_mem_append.mpr ⟨hfirst hH, List.forall_mem_singleton.mpr hty⟩
    . exact fun hH => (List.forall_mem_cons.mp (hsecond hH)).2
  | case3 first name ty second known hlookup ih =>
    apply confines_bind
    . exact hequal (fun hH => (hfirst hH).lookup hlookup) (fun hH => hsecond hH (name, ty) (by simp))
    . intro unified
      apply confines_ite
      . exact ih (fun h => hfirst h.1) (fun h => (List.forall_mem_cons.mp (hsecond h.1)).2)
      . exact confines_fail

def PairWithin (A : String → Prop) (r : Unified × Unified × Substitution) : Prop :=
  r.1.ty.Within A ∧ r.2.1.ty.Within A ∧ r.2.2.TypesWithin A

theorem relate_confines {env : Env} {pos depth : Nat} {relation : Relation} {left right : Ty}
    (hleft : H → left.Within A) (hright : H → right.Within A)
    : Confines H A (relate env pos depth relation left right) (Unified.Within A) := by
  induction depth generalizing H relation left right with
  | zero =>
    unfold relate
    exact confines_fail
  | succ depth ih =>
    have hpair : ∀ a b a' b', (H → a.Within A ∧ b.Within A) → (H → a'.Within A ∧ b'.Within A) →
        Confines H A (relate.relatePair env pos depth relation a b a' b') (PairWithin A) := by
      intro a b a' b' hab hab'
      unfold relate.relatePair
      apply confines_bind (ih (fun hH => (hab hH).1) (fun hH => (hab' hH).1))
      intro first
      apply confines_bind
      . apply ih
        . rintro ⟨hH, hfirst⟩
          exact (hab hH).2.substitute hfirst.2
        . rintro ⟨hH, hfirst⟩
          exact (hab' hH).2.substitute hfirst.2
      . intro second
        apply confines_bind
        . exact merge_confines ih (fun h => h.1.2.2) (fun h => h.2.2)
        . intro subst
          apply confines_pure
          rintro ⟨⟨⟨_, hfirst⟩, hsecond⟩, hsubst⟩
          exact ⟨hfirst.1, hsecond.1, hsubst⟩
    unfold relate
    split
    . next arg result arg' result' =>
      simp only [Ty.within_arrow] at hleft hright
      apply confines_bind (ih (fun hH => (hright hH).1) (fun hH => (hleft hH).1))
      intro args
      apply confines_bind
      . apply ih
        . rintro ⟨hH, hargs⟩
          exact (hleft hH).2.substitute hargs.2
        . rintro ⟨hH, hargs⟩
          exact (hright hH).2.substitute hargs.2
      . intro results
        apply confines_bind
        . exact merge_confines ih (fun h => h.1.2.2) (fun h => h.2.2)
        . intro subst
          apply confines_pure
          rintro ⟨⟨⟨hH, hargs⟩, _⟩, hsubst⟩
          exact ⟨Ty.within_arrow.mpr ⟨(hleft hH).1, (hleft hH).2.substitute hargs.2⟩, hsubst⟩
    . exact confines_pure fun hH => ⟨hleft hH, Substitution.typesWithin_nil⟩
    . simp only [Ty.within_diamond] at hleft hright
      apply confines_bind (ih hleft hright)
      intro inner
      apply confines_ite
      . apply confines_pure
        rintro ⟨_, hinner⟩
        exact ⟨Ty.within_diamond.mpr hinner.1, hinner.2⟩
      . exact confines_fail
    . simp only [Ty.within_box] at hleft hright
      apply confines_bind (Grade.inferKind_confines _ _)
      intro k
      apply confines_bind (Grade.inferKind_confines _ _)
      intro k'
      apply confines_bind (GradeKind.unify_confines _ _ _)
      intro kind
      apply confines_bind
      . exact confines_constrain (fun h => (hleft h.1.1.1).1) (fun h => (hright h.1.1.1).1)
      . intro _
        apply confines_bind
        . exact ih (fun h => (hleft h.1.1.1.1).2) (fun h => (hright h.1.1.1.1).2)
        . intro inner
          apply confines_pure
          rintro ⟨⟨⟨⟨⟨hH, _⟩, _⟩, _⟩, _⟩, hinner⟩
          exact ⟨Ty.within_box.mpr ⟨(hleft hH).1, hinner.1⟩, hinner.2⟩
    . simp only [Ty.within_app] at hleft hright
      apply confines_bind (hpair _ _ _ _ hleft hright)
      intro r
      apply confines_pure
      rintro ⟨_, hfirst, hsecond, hsubst⟩
      exact ⟨Ty.within_app.mpr ⟨hfirst, hsecond⟩, hsubst⟩
    . simp only [Ty.within_pair] at hleft hright
      apply confines_bind (hpair _ _ _ _ hleft hright)
      intro r
      apply confines_pure
      rintro ⟨_, hfirst, hsecond, hsubst⟩
      exact ⟨Ty.within_pair.mpr ⟨hfirst, hsecond⟩, hsubst⟩
    . apply confines_ite
      . apply confines_bind (confines_map (R := fun _ => True) (confines_typeVar _ _) fun _ _ _ => trivial)
        intro _
        apply confines_pure
        rintro ⟨hH, _⟩
        exact ⟨hleft hH, Substitution.typesWithin_nil⟩
      . exact vars_confines (fun hH => Ty.within_var.mp (hleft hH)) (fun hH => Ty.within_var.mp (hright hH))
    . exact var_confines (fun hH => Ty.within_var.mp (hleft hH)) hright hleft
    . exact var_confines (fun hH => Ty.within_var.mp (hright hH)) hleft hleft
    . exact indices_confines hleft hright

end Unify

namespace Ty

variable {env : Env} {pos : Nat} {left right : Ty}

theorem relate_confines {relation : Relation} (hleft : H → left.Within A) (hright : H → right.Within A)
    : Confines H A (left.relate env pos relation right) (Unified.Within A) :=
  Unify.relate_confines hleft hright

theorem equal_confines (hleft : H → left.Within A) (hright : H → right.Within A)
    : Confines H A (left.equal env pos right) (Unified.Within A) :=
  relate_confines hleft hright

theorem joinByEquality_confines (hleft : H → left.Within A) (hright : H → right.Within A)
    : Confines H A (left.joinByEquality env pos right) (Ty.Within A) := by
  unfold joinByEquality
  apply confines_bind (equal_confines hleft hright)
  intro unified
  apply confines_ite confines_fail
  split
  . exact confines_pure fun h => hright h.1
  . exact confines_pure fun h => hleft h.1

theorem join_confines (hleft : H → left.Within A) (hright : H → right.Within A)
    : Confines H A (left.join env pos right) (Ty.Within A) := by
  fun_induction join env pos left right generalizing H with
  | case1 arg result arg' result' iharg ihresult =>
    simp only [within_arrow] at hleft hright
    apply confines_bind (iharg (fun hH => (hright hH).1) (fun hH => (hleft hH).1))
    intro arg
    apply confines_bind (ihresult (fun h => (hleft h.1).2) (fun h => (hright h.1).2))
    intro result
    apply confines_pure
    rintro ⟨⟨_, harg⟩, hresult⟩
    exact within_arrow.mpr ⟨harg, hresult⟩
  | case2 => exact confines_pure hleft
  | case3 | case14 => exact confines_fail
  | case4 effects ty effects' ty' ih =>
    simp only [within_diamond] at hleft hright
    apply confines_bind (ih hleft hright)
    intro inner
    apply confines_ite
    . exact confines_pure fun h => within_diamond.mpr h.2
    . apply confines_ite
      . exact confines_pure fun h => within_diamond.mpr h.2
      . exact confines_fail
  | case5 grade ty grade' ty' ih =>
    simp only [within_box] at hleft hright
    apply confines_bind (Grade.inferKind_confines _ _)
    intro k
    apply confines_bind (Grade.inferKind_confines _ _)
    intro k'
    apply confines_bind (GradeKind.unify_confines _ _ _)
    intro kind
    apply confines_bind (confines_freshGrade _ _)
    intro upper
    apply confines_bind (confines_constrain (fun h => (hleft h.1.1.1.1).1) (fun h => h.2))
    intro _
    apply confines_bind
    . exact confines_constrain (fun h => (hright h.1.1.1.1.1).1) (fun h => h.1.2)
    . intro _
      apply confines_bind
      . exact ih (fun h => (hleft h.1.1.1.1.1.1).2)
          (fun h => (hright h.1.1.1.1.1.1).2)
      . intro inner
        apply confines_pure
        rintro ⟨⟨⟨⟨_, hupper⟩, _⟩, _⟩, hinner⟩
        exact within_box.mpr ⟨hupper, hinner⟩
  | case6 a b a' b' iha ihb =>
    simp only [within_app] at hleft hright
    apply confines_bind (iha (fun hH => (hleft hH).1) (fun hH => (hright hH).1))
    intro first
    apply confines_bind (ihb (fun h => (hleft h.1).2) (fun h => (hright h.1).2))
    intro second
    apply confines_pure
    rintro ⟨⟨_, hfirst⟩, hsecond⟩
    exact within_app.mpr ⟨hfirst, hsecond⟩
  | case7 a b a' b' iha ihb =>
    simp only [within_pair] at hleft hright
    apply confines_bind (iha (fun hH => (hleft hH).1) (fun hH => (hright hH).1))
    intro first
    apply confines_bind (ihb (fun h => (hleft h.1).2) (fun h => (hright h.1).2))
    intro second
    apply confines_pure
    rintro ⟨⟨_, hfirst⟩, hsecond⟩
    exact within_pair.mpr ⟨hfirst, hsecond⟩
  | case8 | case10 | case11 | case12 | case13 => exact joinByEquality_confines hleft hright
  | case9 =>
    apply confines_bind (confines_typeVar _ _)
    intro l
    apply confines_bind (confines_typeVar _ _)
    intro r
    split
    . apply confines_bind (GradeKind.unify_confines _ _ _)
      intro kind
      apply confines_bind
      . apply confines_constrain
        . rintro ⟨⟨⟨hH, _⟩, _⟩, _⟩
          exact Grade.within_var.mpr (within_var.mp (hleft hH))
        . rintro ⟨⟨⟨hH, _⟩, _⟩, _⟩
          exact Grade.within_var.mpr (within_var.mp (hright hH))
      . intro _
        apply confines_pure
        rintro ⟨⟨⟨⟨hH, _⟩, _⟩, _⟩, _⟩
        exact hright hH
    . exact joinByEquality_confines (fun h => hleft h.1.1) (fun h => hright h.1.1)

end Ty

theorem Substitution.combine_confines {env : Env} {pos : Nat} {first second : Substitution}
    (hfirst : H → first.TypesWithin A) (hsecond : H → second.TypesWithin A)
    : Confines H A (Substitution.combine env pos first second) (Substitution.TypesWithin A) :=
  Unify.merge_confines Ty.equal_confines hfirst hsecond

namespace Context

variable {pos : Nat} {c left right : Context} {x : String}

theorem addUses_confines {a b : Assumption} (ha : H → a.Within A) (hb : H → b.Within A)
    : Confines H A (addUses pos x a b) (Assumption.Within A) := by
  unfold addUses
  split
  . exact confines_fail
  . exact confines_pure fun hH => ⟨(ha hH).1, Grade.within_op.mpr ⟨(ha hH).2, (hb hH).2⟩⟩
  . apply confines_bind (Grade.inferKind_confines _ _)
    intro kind
    exact confines_pure fun h => ⟨(ha h.1).1, Grade.within_op.mpr ⟨(ha h.1).2, Grade.within_one⟩⟩
  . apply confines_bind (Grade.inferKind_confines _ _)
    intro kind
    exact confines_pure fun h => ⟨(hb h.1).1, Grade.within_op.mpr ⟨(hb h.1).2, Grade.within_one⟩⟩

theorem extend_confines {a : Assumption} (hc : H → c.Within A) (ha : H → a.Within A)
    : Confines H A (c.extend pos x a) (Context.Within A) := by
  unfold extend
  split
  . exact confines_pure fun hH => List.forall_mem_append.mpr ⟨hc hH, List.forall_mem_singleton.mpr (ha hH)⟩
  . next known hknown =>
    dsimp only
    apply confines_ite confines_fail_bind
    apply confines_bind (addUses_confines (fun hH => (hc hH).lookup? hknown) ha)
    intro sum
    apply confines_pure
    rintro ⟨hH, hsum⟩
    unfold Within
    simp only [List.forall_mem_map]
    intro b hb
    split
    . exact hsum
    . exact hc hH b hb

theorem combine_confines (hleft : H → left.Within A) (hright : H → right.Within A)
    : Confines H A (combine pos left right) (Context.Within A) :=
  confines_foldlM hright fun _ b hb => extend_confines And.right fun h => hleft h.1 b hb

theorem commonKind_confines (g h : Grade) : Confines H A (commonKind pos g h) fun _ => True := by
  unfold commonKind
  apply confines_bind (Grade.inferKind_confines _ _)
  intro k
  exact confines_bind (Grade.inferKind_confines _ _) fun _ => GradeKind.unify_confines _ _ _

theorem leAssumption_confines {a : Assumption} {b : Option Assumption} (ha : H → a.Within A)
    (hb : H → ∀ t, b = some t → t.Within A) : Confines H A (leAssumption pos x a b) fun _ => True := by
  unfold leAssumption
  split
  . exact confines_pure fun _ => trivial
  . exact confines_pure fun _ => trivial
  . apply confines_bind (commonKind_confines _ _)
    intro kind
    exact confines_constrain (fun h => (ha h.1).2) (fun h => (hb h.1 _ rfl).2)
  . exact confines_fail

theorem le_confines (hleft : H → left.Within A) (hright : H → right.Within A)
    : Confines H A (le pos left right) fun _ => True :=
  confines_forM fun b hb => leAssumption_confines (fun hH => hleft hH b hb) fun hH _ ht => (hright hH).lookup? ht

theorem useOrWeaken_confines {own other : Option Assumption} (hown : H → ∀ t, own = some t → t.Within A)
    (hother : H → ∀ t, other = some t → t.Within A)
    : Confines H A (useOrWeaken pos own other) fun o => ∀ t, o = some t → t.Within A := by
  unfold useOrWeaken
  split
  . exact confines_pure hown
  . unfold weaken
    split
    . apply confines_bind (Grade.inferKind_confines _ _)
      intro kind
      apply confines_pure
      rintro ⟨hH, _⟩ _ ⟨⟩
      exact ⟨(hother hH _ rfl).1, Grade.within_zero⟩
    . exact confines_pure fun _ _ h => nomatch h

theorem joinUses_confines {l r : Option Assumption} (hl : H → ∀ t, l = some t → t.Within A)
    (hr : H → ∀ t, r = some t → t.Within A)
    : Confines H A (joinUses pos x l r) fun o => ∀ t, o = some t → t.Within A := by
  unfold joinUses
  split
  . exact confines_pure fun _ _ h => nomatch h
  . exact confines_pure fun _ _ h => nomatch h
  . apply confines_pure
    rintro hH _ ⟨⟩
    exact hl hH _ rfl
  . apply confines_bind (commonKind_confines _ _)
    intro kind
    apply confines_bind (confines_freshGrade _ _)
    intro upper
    apply confines_bind (confines_constrain (fun h => (hl h.1.1 _ rfl).2) (fun h => h.2))
    intro _
    apply confines_bind (confines_constrain (fun h => (hr h.1.1.1 _ rfl).2) (fun h => h.1.2))
    intro _
    apply confines_pure
    rintro ⟨⟨⟨⟨hH, _⟩, hupper⟩, _⟩, _⟩ _ ⟨⟩
    exact ⟨(hl hH _ rfl).1, hupper⟩
  . exact confines_fail

theorem joinVar_confines (hleft : H → left.Within A) (hright : H → right.Within A)
    : Confines H A (joinVar pos left right x) fun o => ∀ t, o = some t → t.Within A := by
  rw [joinVar_eq]
  apply confines_bind
  . exact useOrWeaken_confines (fun hH _ => (hleft hH).lookup?) (fun hH _ => (hright hH).lookup?)
  . intro l
    apply confines_bind
    . exact useOrWeaken_confines (fun h _ => (hright h.1).lookup?) (fun h _ => (hleft h.1).lookup?)
    . intro r
      exact joinUses_confines (fun h => h.1.2) And.right

theorem join_confines (hleft : H → left.Within A) (hright : H → right.Within A)
    : Confines H A (left.join pos right) (Context.Within A) := by
  unfold join
  apply confines_bind (P := fun bindings => ∀ o ∈ bindings, ∀ b, o = some b → b.2.Within A)
  . apply confines_mapM
    intro x _
    apply confines_bind (joinVar_confines hleft hright)
    intro o
    apply confines_pure
    rintro ⟨_, ho⟩ b hb
    obtain ⟨a, ha, rfl⟩ := Option.map_eq_some_iff.mp hb
    exact ho a ha
  . intro bindings
    apply confines_pure
    rintro ⟨_, hbindings⟩ b hb
    obtain ⟨o, ho, hob⟩ := List.mem_filterMap.mp hb
    exact hbindings o ho b hob

theorem freshen_confines {vars : List String} {demand : Grade} (hc : H → c.Within A)
    : Confines H A (c.freshen pos vars demand) (Context.Within A) := by
  unfold freshen
  apply confines_bind (Grade.inferKind_confines _ _)
  intro kind
  apply confines_bind (P := fun bindings => ∀ b ∈ bindings, b.2.Within A)
  . apply confines_mapM
    intro b hb
    have hwithin : H → b.2.Within A := fun hH => (hc hH).filter _ b hb
    apply confines_bind (P := Assumption.Within A)
    . unfold freshenVar
      split
      . next ty grade heq =>
        rw [heq] at hwithin
        apply confines_bind (Grade.inferKind_confines _ _)
        intro k
        apply confines_bind (GradeKind.unify_confines _ _ _)
        intro l
        apply confines_bind (confines_freshGrade _ _)
        intro upper
        apply confines_pure
        rintro ⟨⟨⟨⟨hH, _⟩, _⟩, _⟩, hupper⟩
        exact ⟨(hwithin hH).1, hupper⟩
      . next ty heq =>
        rw [heq] at hwithin
        apply confines_pure
        rintro ⟨hH, _⟩
        exact ⟨hwithin hH, Grade.within_one⟩
    . intro a
      exact confines_pure And.right
  . intro bindings
    exact confines_pure And.right

end Context

namespace Scheme

/--
The fresh variables of a scheme have the property, unless they are pattern variables in place of grades, and if all of
them do so do the variables of the type.
-/
def RefreshedWithin (A : String → Prop) (quantifier : Quantifier) (r : List (String × Kind) × Ty) : Prop :=
  (∀ b ∈ r.1, quantifier = .instantiated ∨ b.2.gradeKind? = none → A b.1) ∧ ((∀ b ∈ r.1, A b.1) → r.2.Within A)

theorem refresh_confines {scheme : Scheme} {quantifier : Quantifier} (hty : H → scheme.ty.Within A)
    : Confines H A (scheme.refresh quantifier) (RefreshedWithin A quantifier) := by
  unfold refresh
  apply confines_bind (P := fun fresh : List (String × String × Kind) =>
    ∀ b ∈ fresh, quantifier = .instantiated ∨ b.2.2.gradeKind? = none → A b.2.1)
  . apply confines_mapM
    intro b _
    apply confines_bind (confines_freshTypeVar _ _ _)
    intro name
    exact confines_pure And.right
  . intro fresh
    apply confines_pure
    rintro ⟨hH, hfresh⟩
    unfold RefreshedWithin
    simp only [List.forall_mem_map]
    refine ⟨hfresh, fun hall => (hty hH).substitute ?_⟩
    unfold Substitution.TypesWithin
    simp only [List.forall_mem_map, Ty.within_var]
    exact hall

theorem instantiate_confines {scheme : Scheme} (hty : H → scheme.ty.Within A)
    : Confines H A scheme.instantiate (Ty.Within A) := by
  unfold instantiate
  apply confines_bind (refresh_confines hty)
  intro r
  apply confines_pure
  rintro ⟨_, hfresh, hr⟩
  exact hr fun b hb => hfresh b hb (.inl rfl)

end Scheme
end
end GradedModal
