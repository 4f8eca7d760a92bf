import Mathlib
import GradedModal.Proofs.LeastUpperBound

/-!
This module says which variables a comparison solves. They are in scope. A universal variable stands for something that
is chosen elsewhere and is not solved, unless it is for grades: then it is constrained to equal what it is bound to, so
that the solution is an obligation and not a choice.
-/

namespace GradedModal

open CheckM

namespace Predicate

mutual

theorem demands_subset (p : Predicate) : p.demands ⊆ p.constraints := by
  cases p with
  | atom c => exact fun _ hc => hc
  | conj items => exact demandsAll_subset items
  | impl bound antecedent consequent =>
    exact fun c hc => List.mem_append_right _ (demands_subset consequent hc)

theorem demandsAll_subset (ps : List Predicate) : demandsAll ps ⊆ constraintsAll ps := by
  cases ps with
  | nil => exact fun _ hc => hc
  | cons p ps =>
    intro c hc
    obtain hc | hc := List.mem_append.mp hc
    . exact List.mem_append_left _ (demands_subset p hc)
    . exact List.mem_append_right _ (demandsAll_subset ps hc)

end

end Predicate

namespace State

variable {s s₁ s₂ s' : State} {c : Constraint}

theorem mem_collected_of_mem_current {p : Predicate} (hp : p ∈ s.current) (hc : c ∈ p.constraints)
    : c ∈ s.collected.constraints := by
  obtain ⟨hpredicate, hscopes⟩ := forall_collected.mp fun c (hc : c ∈ s.collected.constraints) => hc
  unfold current at hp
  split at hp
  . exact hpredicate p hp c hc
  . next scope scopes heq =>
    refine hscopes scope (heq ▸ List.mem_cons_self) p ?_ c hc
    unfold Scope.current at hp
    split at hp
    . exact List.mem_append_right _ hp
    . exact List.mem_append_left _ hp

theorem Extends.mem_collected (h : s.Extends s') (hc : c ∈ s.demands s') : c ∈ s'.collected.constraints := by
  have hmem := Predicate.demandsAll_subset _ hc
  rw [Predicate.constraintsAll_eq_flatMap, List.mem_flatMap] at hmem
  obtain ⟨p, hp, hc⟩ := hmem
  apply mem_collected_of_mem_current _ hc
  rw [h.current_eq]
  exact List.mem_append_right _ hp

/--
A variable may be bound to a type: it is in scope, it is not universal unless it is for grades, and if it is for grades,
it was constrained to equal the type between two states.
-/
def Justifies (s s' : State) (b : String × Ty) : Prop :=
  ∃ v, s.lookup? b.1 = some v ∧ (v.quantifier = .universal → ∃ k, v.kind = .grade k) ∧
    ∀ k, v.kind = .grade k → ∃ g, b.2.toGrade? = some g ∧ ∃ c ∈ s.demands s', c.relation = .eq ∧
      (c.left = .var b.1 ∧ c.right = g ∨ c.left = g ∧ c.right = .var b.1)

variable {b : String × Ty}

theorem Justifies.widen (h : s₁.Justifies s₂ b) (hs₁ : s.Reaches s₁) (htypeVars : s₁.typeVars = s.typeVars)
    (hs₂ : s₁.Reaches s₂) (hs' : s₂.Reaches s') : s.Justifies s' b := by
  obtain ⟨v, hv, hrigid, hgrade⟩ := h
  refine ⟨v, lookup?_congr htypeVars _ ▸ hv, hrigid, ?_⟩
  intro k hk
  obtain ⟨g, hg, c, hc, hequates⟩ := hgrade k hk
  refine ⟨g, hg, c, ?_, hequates⟩
  rw [hs₁.extends.demands_append (hs₂.trans hs').extends, hs₂.extends.demands_append hs'.extends]
  exact List.mem_append_right _ (List.mem_append_left _ hc)

end State

namespace Unify

variable {env : Env} {pos depth : Nat} {relation : Relation} {s s' : State} {u : Unified}

theorem mem_demands_of_unify_constrain {k k' kind : GradeKind} {c : Constraint} {s₁ : State} {v : Unit}
    (hunify : GradeKind.unify pos k k' s = .ok kind s₁) (hconstrain : constrain c s₁ = .ok v s') : c ∈ s.demands s' := by
  have hs₁ := (GradeKind.unify_quiet _ _ _ hunify).reaches
  rw [hs₁.extends.demands_append (reaching_constrain c hconstrain).extends, State.demands_constrain hconstrain]
  exact List.mem_append_right _ List.mem_cons_self

theorem not_grade_of_unify {k k' kind : Kind} (h : Kind.unify pos k k' s = .ok kind s')
    (hkinds : ∀ a b, k = .grade a → k' = .grade b → False)
    : k.gradeKind?.isSome = false ∧ k'.gradeKind?.isSome = false := by
  have hgrade := ((Kind.ensures_unify pos k k' rfl).1 kind s' h).1
  cases k with
  | grade a =>
    cases k' with
    | grade b => exact (hkinds a b rfl rfl).elim
    | _ => cases hgrade
  | _ => exact ⟨rfl, hgrade.symm⟩

theorem vars_justifies {x y : String} (h : vars pos x y s = .ok u s') : ∀ b ∈ u.subst, s.Justifies s' b := by
  unfold vars at h
  rw [bind_eq_ok] at h
  obtain ⟨l, _, hl, h⟩ := h
  rw [bind_eq_ok] at h
  obtain ⟨r, _, hr, h⟩ := h
  obtain ⟨hleft, rfl⟩ := lookup?_of_typeVar hl
  obtain ⟨hright, rfl⟩ := lookup?_of_typeVar hr
  split at h
  . rw [pure_eq_ok] at h
    rw [← h.1]
    exact nofun
  . next hrigid =>
    have hsolved : ∀ kept solved v, s.lookup? solved = some v → v.quantifier ≠ .universal →
        (v.kind.gradeKind?.isSome = true → ∃ kind, ⟨pos, .eq, .var kept, .var solved, kind⟩ ∈ s.demands s') →
        s.Justifies s' (solved, .var kept) := by
      intro kept solved v hv hrigid hgrade
      refine ⟨v, hv, fun h => absurd h hrigid, fun k hk => ⟨.var kept, rfl, ?_⟩⟩
      obtain ⟨kind, hmem⟩ := hgrade (by rw [hk]; rfl)
      exact ⟨_, hmem, rfl, .inr ⟨rfl, rfl⟩⟩
    generalize hvars : (if r.quantifier = .universal then (y, x) else (x, y)) = vars at h
    obtain ⟨hsubst, hgrade⟩ : u.subst = [(vars.2, .var vars.1)] ∧
        (l.kind.gradeKind?.isSome = true ∨ r.kind.gradeKind?.isSome = true →
          ∃ kind, ⟨pos, .eq, .var vars.1, .var vars.2, kind⟩ ∈ s.demands s') := by
      dsimp only at h
      generalize l.kind = lkind at h ⊢
      generalize r.kind = rkind at h ⊢
      split at h
      . next k k' =>
        simp only [bind_eq_ok, pure_eq_ok] at h
        obtain ⟨kind, s₁, hunify, _, s₂, hconstrain, rfl, rfl⟩ := h
        exact ⟨rfl, fun _ => ⟨kind, mem_demands_of_unify_constrain hunify hconstrain⟩⟩
      . next hkinds =>
        simp only [bind_eq_ok, discard_eq_ok, pure_eq_ok] at h
        obtain ⟨_, _, ⟨kind, hunify⟩, rfl, rfl⟩ := h
        have hnone := not_grade_of_unify hunify hkinds
        exact ⟨rfl, fun h => by simp [hnone.1, hnone.2] at h⟩
    rw [hsubst, List.forall_mem_singleton]
    split at hvars
    . next huniversal =>
      subst hvars
      exact hsolved y x l hleft (fun h => hrigid ⟨h, huniversal⟩) fun h => hgrade (.inl h)
    . next huniversal =>
      subst hvars
      exact hsolved x y r hright huniversal fun h => hgrade (.inr h)

theorem var_justifies {x : String} {ty left : Ty} (h : var env pos x ty left s = .ok u s')
    : ∀ b ∈ u.subst, s.Justifies s' b := by
  unfold var at h
  rw [bind_eq_ok] at h
  obtain ⟨v, _, hv, h⟩ := h
  rw [bind_eq_ok] at h
  obtain ⟨tyKind, s₁, hty, h⟩ := h
  obtain ⟨hname, rfl⟩ := lookup?_of_typeVar hv
  have hs₁ := (Ty.inferKind_quiet _ _ _ hty).reaches
  dsimp only at h
  generalize hk : v.kind = vkind at h
  split at h
  . next k k' =>
    rw [bind_eq_ok] at h
    obtain ⟨kind, s₂, hunify, h⟩ := h
    generalize hg : ty.toGrade? = grade at h
    split at h
    . next g =>
      simp only [bind_eq_ok, pure_eq_ok] at h
      obtain ⟨_, s₃, hconstrain, rfl, rfl⟩ := h
      have hs₂ := (GradeKind.unify_quiet _ _ _ hunify).reaches
      have hmem : Constraint.eq pos (.var x) g kind ∈ s.demands s₃ := by
        rw [hs₁.extends.demands_append (hs₂.trans (reaching_constrain _ hconstrain)).extends]
        exact List.mem_append_right _ (mem_demands_of_unify_constrain hunify hconstrain)
      rw [List.forall_mem_singleton]
      exact ⟨v, hname, fun _ => ⟨k, hk⟩, fun _ _ => ⟨g, hg, _, hmem, rfl, .inl ⟨rfl, rfl⟩⟩⟩
    . rw [bind_eq_ok] at h
      obtain ⟨_, _, h, _⟩ := h
      exact (fail_eq_ok.mp h).elim
  . next hkinds =>
    split at h
    . rw [bind_eq_ok] at h
      obtain ⟨_, _, h, _⟩ := h
      exact (fail_eq_ok.mp h).elim
    . next hrigid =>
      simp only [bind_eq_ok, discard_eq_ok, pure_eq_ok] at h
      obtain ⟨_, s₂, ⟨kind, hunify⟩, rfl, rfl⟩ := h
      rw [List.forall_mem_singleton]
      refine ⟨v, hname, fun h => absurd h hrigid, ?_⟩
      intro k hk'
      have hnone := (not_grade_of_unify hunify hkinds).1
      rw [← hk, hk'] at hnone
      cases hnone

theorem indices_subst {left right : Ty} (h : indices env pos left right s = .ok u s') : u.subst = [] := by
  unfold indices at h
  rw [bind_eq_ok] at h
  obtain ⟨_, _, _, h⟩ := h
  rw [bind_eq_ok] at h
  obtain ⟨_, _, _, h⟩ := h
  generalize left.toGrade? = g at h
  generalize right.toGrade? = g' at h
  split at h
  . simp only [bind_eq_ok] at h
    obtain ⟨_, _, _, _, _, _, h⟩ := h
    rw [← (pure_eq_ok.mp h).1]
  . exact (fail_eq_ok.mp h).elim

theorem mem_of_merge {equal : Ty → Ty → CheckM Unified} {σ τ ρ : Substitution}
    (h : merge equal pos σ τ s = .ok ρ s') : ∀ b ∈ ρ, b ∈ σ ∨ b ∈ τ := by
  fun_induction merge equal pos σ τ generalizing s with
  | case1 σ =>
    obtain ⟨rfl, _⟩ := pure_eq_ok.mp h
    exact fun _ => .inl
  | case2 σ name ty τ hlookup ih =>
    intro b hb
    have hb := ih h b hb
    rw [List.mem_append, List.mem_singleton] at hb
    rw [List.mem_cons]
    tauto
  | case3 σ name ty τ known hlookup ih =>
    rw [bind_eq_ok] at h
    obtain ⟨unified, s₁, _, h⟩ := h
    split at h
    . intro b hb
      exact (ih h b hb).imp_right (List.mem_cons_of_mem _)
    . exact (fail_eq_ok.mp h).elim

theorem justifies_of_merge {a a' b b' : Ty} {relation' : Relation} {first second : Unified} {ρ : Substitution}
    {s₁ s₂ : State} (hfirst : relate env pos depth relation a a' s = .ok first s₁)
    (hsecond : relate env pos depth relation' b b' s₁ = .ok second s₂)
    (hmerge : merge (relate env pos depth .eq) pos first.subst second.subst s₂ = .ok ρ s')
    (ih₁ : ∀ b ∈ first.subst, s.Justifies s₁ b) (ih₂ : ∀ b ∈ second.subst, s₁.Justifies s₂ b)
    : ∀ b ∈ ρ, s.Justifies s' b := by
  have hs₁ := (relate_advancing env pos depth relation a a').reaching hfirst
  have hs₂ := (relate_advancing env pos depth relation' b b').reaching hsecond
  have hs' := (merge_advancing (fun l r => relate_advancing env pos depth .eq l r) pos _ _).reaching hmerge
  intro b hb
  obtain hb | hb := mem_of_merge hmerge b hb
  . exact (ih₁ b hb).widen .refl rfl hs₁ (hs₂.trans hs')
  . exact (ih₂ b hb).widen hs₁ (compared_of_relate hfirst).2 hs₂ hs'

theorem relatePair_justifies {a b a' b' : Ty} {r : Unified × Unified × Substitution}
    (ih : ∀ {relation left right u s s'}, relate env pos depth relation left right s = .ok u s' →
      ∀ b ∈ u.subst, s.Justifies s' b)
    (h : relate.relatePair env pos depth relation a b a' b' s = .ok r s') : ∀ b ∈ r.2.2, s.Justifies s' b := by
  unfold relate.relatePair at h
  simp only [bind_eq_ok] at h
  obtain ⟨first, s₁, hfirst, second, s₂, hsecond, ρ, s₃, hmerge, h⟩ := h
  obtain ⟨rfl, rfl⟩ := pure_eq_ok.mp h
  exact justifies_of_merge hfirst hsecond hmerge (ih hfirst) (ih hsecond)

theorem relate_justifies {left right : Ty} (h : relate env pos depth relation left right s = .ok u s')
    : ∀ b ∈ u.subst, s.Justifies s' b := by
  induction depth generalizing relation left right u s s' with
  | zero =>
    unfold relate at h
    exact (fail_eq_ok.mp h).elim
  | succ depth ih =>
    unfold relate at h
    split at h
    . simp only [bind_eq_ok] at h
      obtain ⟨args, s₁, hargs, results, s₂, hresults, ρ, s₃, hmerge, h⟩ := h
      obtain ⟨rfl, rfl⟩ := pure_eq_ok.mp h
      exact justifies_of_merge hargs hresults hmerge (ih hargs) (ih hresults)
    . obtain ⟨rfl, rfl⟩ := pure_eq_ok.mp h
      exact List.forall_mem_nil _
    . rw [bind_eq_ok] at h
      obtain ⟨inner, s₁, hinner, h⟩ := h
      split at h
      . obtain ⟨rfl, rfl⟩ := pure_eq_ok.mp h
        have hjustified := ih hinner
        exact hjustified
      . exact (fail_eq_ok.mp h).elim
    . next grade ty grade' ty' =>
      simp only [bind_eq_ok] at h
      obtain ⟨k, s₁, hk, k', s₂, hk', kind, s₃, hunify, _, s₄, hconstrain, inner, s₅, hinner, h⟩ := h
      obtain ⟨rfl, rfl⟩ := pure_eq_ok.mp h
      have hs₁ := (Grade.inferKind_quiet _ _ hk).reaches
      have hs₂ := (Grade.inferKind_quiet _ _ hk').reaches
      have hs₃ := (GradeKind.unify_quiet _ _ _ hunify).reaches
      have hs₄ := reaching_constrain _ hconstrain
      have htypeVars : s₄.typeVars = s.typeVars :=
        calc s₄.typeVars
          _ = s₃.typeVars := ((ensures_constrain (E := fun _ => True) _ rfl).1 _ _ hconstrain).2
          _ = s₂.typeVars := ((GradeKind.ensures_unify _ _ _ rfl).1 _ _ hunify).2
          _ = s₁.typeVars := ((Grade.ensures_inferKind _ _ rfl).1 _ _ hk').2
          _ = s.typeVars := ((Grade.ensures_inferKind _ _ rfl).1 _ _ hk).2
      have hinner' := (relate_advancing env pos depth .eq ty ty').reaching hinner
      intro b hb
      exact (ih hinner b hb).widen (((hs₁.trans hs₂).trans hs₃).trans hs₄) htypeVars hinner' .refl
    . rw [bind_eq_ok] at h
      obtain ⟨r, s₁, hpair, h⟩ := h
      obtain ⟨rfl, rfl⟩ := pure_eq_ok.mp h
      exact relatePair_justifies ih hpair
    . rw [bind_eq_ok] at h
      obtain ⟨r, s₁, hpair, h⟩ := h
      obtain ⟨rfl, rfl⟩ := pure_eq_ok.mp h
      exact relatePair_justifies ih hpair
    . split at h
      . rw [bind_eq_ok] at h
        obtain ⟨_, _, _, h⟩ := h
        obtain ⟨rfl, rfl⟩ := pure_eq_ok.mp h
        exact List.forall_mem_nil _
      . exact vars_justifies h
    . exact var_justifies h
    . exact var_justifies h
    . rw [indices_subst h]
      exact List.forall_mem_nil _

/--
Every variable that a comparison binds is in scope. It is not universal, unless it is for grades. If it is for grades,
what it is bound to is a grade, and an equation between the two is collected outside of antecedents.
-/
theorem subst_justified_of_relate {left right : Ty} (h : relate env pos depth relation left right s = .ok u s')
    : ∀ b ∈ u.subst, ∃ v, s'.lookup? b.1 = some v ∧ (v.quantifier = .universal → ∃ k, v.kind = .grade k) ∧
        ∀ k, v.kind = .grade k → ∃ g, b.2.toGrade? = some g ∧
          ∃ c ∈ s'.collected.constraints, c ∈ s.demands s' ∧ c.relation = .eq ∧
            (c.left = .var b.1 ∧ c.right = g ∨ c.left = g ∧ c.right = .var b.1) := by
  intro b hb
  obtain ⟨v, hv, hrigid, hgrade⟩ := relate_justifies h b hb
  refine ⟨v, State.lookup?_congr (compared_of_relate h).2 _ ▸ hv, hrigid, ?_⟩
  intro k hk
  obtain ⟨g, hg, c, hc, hequates⟩ := hgrade k hk
  have hs' := (relate_advancing env pos depth relation left right).reaching h
  exact ⟨g, hg, c, hs'.extends.mem_collected hc, hc, hequates⟩

end Unify

/--
The length of a list is chosen elsewhere, and the type of its elements is to be found.
-/
def State.rigidLength : State :=
  { State.start with typeVars := [⟨"a", .type, .instantiated⟩, ⟨"n", .grade .nat, .universal⟩] }

/-- `List (2 + 1) Int` is compared with `List n a`. -/
theorem subst_justified_rigidLength
    : ∃ u s', Ty.relate ⟨.standard, []⟩ 0 .le (.app (.app (.const "List") (.op .plus (.index 2) (.index 1))) (.const "Int"))
          (.app (.app (.const "List") (.var "n")) (.var "a")) .rigidLength = .ok u s' ∧
        u.subst = [("n", .op .plus (.index 2) (.index 1)), ("a", .const "Int")] ∧
        ∃ c ∈ s'.collected.constraints, c.relation = .eq ∧
          (c.left = .var "n" ∧ c.right = .op .plus (.nat 2) (.nat 1) ∨
            c.left = .op .plus (.nat 2) (.nat 1) ∧ c.right = .var "n") := by
  have hrelate : yields (Ty.relate ⟨.standard, []⟩ 0 .le
      (.app (.app (.const "List") (.op .plus (.index 2) (.index 1))) (.const "Int"))
      (.app (.app (.const "List") (.var "n")) (.var "a"))) .rigidLength (fun u _ => u.agree &&
        decide (u.subst = [("n", .op .plus (.index 2) (.index 1)), ("a", .const "Int")])) = true := by
    cbv
  obtain ⟨u, s', hrun, _, hsubst⟩ := exists_relate _ hrelate
  refine ⟨u, s', hrun, hsubst, ?_⟩
  have hb : ("n", .op .plus (.index 2) (.index 1)) ∈ u.subst := by
    rw [hsubst]
    exact List.mem_cons_self
  obtain ⟨v, hv, _, hgrade⟩ := Unify.subst_justified_of_relate hrun _ hb
  rw [State.lookup?_congr (Unify.compared_of_relate hrun).2] at hv
  cases hv
  obtain ⟨g, hg, c, hc, _, hequates⟩ := hgrade .nat rfl
  cases hg
  exact ⟨c, hc, hequates⟩

end GradedModal
