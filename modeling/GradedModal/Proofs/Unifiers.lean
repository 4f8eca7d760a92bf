import Mathlib
import GradedModal.Proofs.Unification

/-!
This module says when the substitution that a comparison learns makes the compared types agree. It is applied once, and
bindings that were learned early are not updated by later ones, so it does if and only if no variable that it solves
occurs in one of its solutions.
-/

namespace GradedModal

open CheckM

theorem Grade.substitute_nil (g : Grade) : g.substitute [] = g := by
  induction g with
  | op o a b iha ihb => simp only [substitute, iha, ihb]
  | _ => rfl

namespace Ty

/--
Forget what comparisons leave to constraints: the grades of boxes and the indices.
-/
def erase (grades : String → Bool) : Ty → Ty
  | .const n => .const n
  | .arrow a b => .arrow (a.erase grades) (b.erase grades)
  | .app a b => .app (a.erase grades) (b.erase grades)
  | .var x => if grades x then .index 0 else .var x
  | .box _ ty => .box (.nat 0) (ty.erase grades)
  | .diamond effects ty => .diamond effects (ty.erase grades)
  | .pair a b => .pair (a.erase grades) (b.erase grades)
  | .index _ => .index 0
  | .op o a b => if (op o a b).isIndex grades then .index 0 else .op o (a.erase grades) (b.erase grades)

/--
Two types agree up to effects, of which the left type may have fewer. Arguments of functions change sides.
-/
inductive Below : Ty → Ty → Prop where
  | refl (ty : Ty) : Below ty ty
  | arrow {arg arg' result result' : Ty} : Below arg' arg → Below result result' →
    Below (.arrow arg result) (.arrow arg' result')
  | app {a a' b b' : Ty} : Below a a' → Below b b' → Below (.app a b) (.app a' b')
  | pair {a a' b b' : Ty} : Below a a' → Below b b' → Below (.pair a b) (.pair a' b')
  | box {grade : Grade} {ty ty' : Ty} : Below ty ty' → Below (.box grade ty) (.box grade ty')
  | diamond {effects effects' : List String} {ty ty' : Ty} : effects <+: effects' → Below ty ty' →
    Below (.diamond effects ty) (.diamond effects' ty')

def dropEffects : Ty → Ty
  | .const n => .const n
  | .arrow a b => .arrow a.dropEffects b.dropEffects
  | .app a b => .app a.dropEffects b.dropEffects
  | .var x => .var x
  | .box grade ty => .box grade ty.dropEffects
  | .diamond _ ty => .diamond [] ty.dropEffects
  | .pair a b => .pair a.dropEffects b.dropEffects
  | .index n => .index n
  | .op o a b => .op o a.dropEffects b.dropEffects

variable {grades : String → Bool} {σ τ : Substitution} {ty left right : Ty} {x : String}

theorem Below.dropEffects_eq (h : Below left right) : left.dropEffects = right.dropEffects := by
  induction h with
  | refl ty => rfl
  | arrow _ _ ih ih' | app _ _ ih ih' | pair _ _ ih ih' => simp only [dropEffects, ih, ih']
  | box _ ih | diamond _ _ ih => simp only [dropEffects, ih]

theorem erase_of_isIndex (h : ty.isIndex grades = true) : ty.erase grades = .index 0 := by
  cases ty with
  | index n => rfl
  | var x | op o a b => exact if_pos h
  | _ => cases h

theorem erase_op {o : Op} {a b : Ty} (h : (op o a b).isIndex grades = false)
    : (op o a b).erase grades = .op o (a.erase grades) (b.erase grades) := by
  rw [erase, if_neg (by simp [h])]

theorem erase_substitute_congr {ρ : Substitution} (hσ : σ.WellKinded grades) (hτ : τ.WellKinded grades)
    (hρ : ρ.WellKinded grades) (ty : Ty)
    (h : ∀ x ∈ ty.typeVars grades,
      (((Ty.var x).substitute σ).substitute τ).erase grades = ((Ty.var x).substitute ρ).erase grades)
    : ((ty.substitute σ).substitute τ).erase grades = (ty.substitute ρ).erase grades := by
  have hindices : ∀ ty : Ty, ty.isIndex grades = true →
      ((ty.substitute σ).substitute τ).erase grades = (ty.substitute ρ).erase grades := by
    intro ty hindex
    rw [erase_of_isIndex (by rw [isIndex_substitute hτ, isIndex_substitute hσ, hindex]),
      erase_of_isIndex (by rw [isIndex_substitute hρ, hindex])]
  induction ty with
  | const n => rfl
  | index n => rfl
  | var x =>
    by_cases hgrade : grades x = true
    . exact hindices _ hgrade
    . exact h x (by simp [typeVars, hgrade])
  | arrow a b iha ihb | app a b iha ihb | pair a b iha ihb =>
    simp only [typeVars, List.mem_append] at h
    simp only [substitute, erase]
    rw [iha (fun x hx => h x (.inl hx)), ihb (fun x hx => h x (.inr hx))]
  | op o a b iha ihb =>
    by_cases hindex : (op o a b).isIndex grades = true
    . exact hindices _ hindex
    . rw [Bool.not_eq_true] at hindex
      have hleft := isIndex_substitute hτ ((op o a b).substitute σ)
      rw [isIndex_substitute hσ, hindex] at hleft
      have hright := isIndex_substitute hρ (op o a b)
      rw [hindex] at hright
      simp only [typeVars, List.mem_append] at h
      simp only [substitute] at hleft hright ⊢
      rw [erase_op hleft, erase_op hright, iha (fun x hx => h x (.inl hx)), ihb (fun x hx => h x (.inr hx))]
  | box grade ty ih | diamond effects ty ih =>
    simp only [substitute, erase]
    rw [ih h]

theorem substitute_nil (ty : Ty) : ty.substitute [] = ty := by
  induction ty with
  | box grade ty ih => simp only [substitute, Grade.substitute_nil, ih]
  | diamond effects ty ih => simp only [substitute, ih]
  | arrow a b iha ihb | app a b iha ihb | pair a b iha ihb | op o a b iha ihb => simp only [substitute, iha, ihb]
  | _ => rfl

theorem erase_substitute_of_disjoint (ty : Ty) (hτ : τ.WellKinded grades) (h : ∀ x ∈ ty.typeVars grades, x ∉ τ.domain)
    : (ty.substitute τ).erase grades = ty.erase grades := by
  have hnil : Substitution.WellKinded grades [] := nofun
  have hcongr := erase_substitute_congr hτ hnil hnil ty (by
    intro x hx
    obtain ⟨_, heq⟩ | ⟨ty, hmem, _⟩ := substitute_var_cases τ x
    . rw [heq]
    . exact absurd (Substitution.mem_domain_of_mem hmem) (h x hx))
  rw [substitute_nil, substitute_nil] at hcongr
  exact hcongr

theorem eq_var_of_dropEffects_erase (grades : String → Bool) (h : (ty.erase grades).dropEffects = .var x) : ty = .var x := by
  cases ty with
  | var y =>
    unfold erase at h
    split at h
    . cases h
    . exact h
  | op o a b =>
    unfold erase at h
    split at h
    . cases h
    . cases h
  | _ => cases h

theorem substitute_var_of_dropEffects_eq (hτ : τ.WellKinded grades)
    (h : ((ty.substitute τ).erase grades).dropEffects = (ty.erase grades).dropEffects)
    : ∀ x ∈ ty.typeVars grades, (Ty.var x).substitute τ = .var x := by
  induction ty with
  | const n | index n => exact List.forall_mem_nil _
  | var y =>
    intro x hx
    unfold typeVars at hx
    split at hx
    . cases hx
    . next hgrade =>
      obtain rfl := List.mem_singleton.mp hx
      apply eq_var_of_dropEffects_erase grades
      rw [h, erase, if_neg hgrade]
      rfl
  | arrow a b iha ihb =>
    simp only [substitute, erase, dropEffects, arrow.injEq] at h
    intro x hx
    obtain hx | hx := List.mem_append.mp hx
    . exact iha h.1 x hx
    . exact ihb h.2 x hx
  | app a b iha ihb =>
    simp only [substitute, erase, dropEffects, app.injEq] at h
    intro x hx
    obtain hx | hx := List.mem_append.mp hx
    . exact iha h.1 x hx
    . exact ihb h.2 x hx
  | pair a b iha ihb =>
    simp only [substitute, erase, dropEffects, pair.injEq] at h
    intro x hx
    obtain hx | hx := List.mem_append.mp hx
    . exact iha h.1 x hx
    . exact ihb h.2 x hx
  | op o a b iha ihb =>
    by_cases hindex : (op o a b).isIndex grades = true
    . rw [typeVars_of_isIndex hindex]
      exact List.forall_mem_nil _
    . rw [Bool.not_eq_true] at hindex
      have hindex' := isIndex_substitute hτ (op o a b)
      rw [hindex] at hindex'
      simp only [substitute] at h hindex'
      rw [erase_op hindex, erase_op hindex'] at h
      simp only [dropEffects, op.injEq, true_and] at h
      intro x hx
      obtain hx | hx := List.mem_append.mp hx
      . exact iha h.1 x hx
      . exact ihb h.2 x hx
  | box grade ty ih =>
    simp only [substitute, erase, dropEffects, box.injEq, true_and] at h
    exact ih h
  | diamond effects ty ih =>
    simp only [substitute, erase, dropEffects, diamond.injEq, true_and] at h
    exact ih h

end Ty

namespace Compared

variable {grades : String → Bool} {left right ty : Ty} {agree : Bool} {σ τ ρ : Substitution}

def Part (grades : String → Bool) (σ τ : Substitution) : Prop :=
  ∀ b ∈ σ, grades b.1 = false → b ∈ τ

/--
No variable that the second substitution solves occurs in a solution of the first one.
-/
def Resolved (grades : String → Bool) (σ τ : Substitution) : Prop :=
  ∀ b ∈ σ, ∀ x ∈ b.2.typeVars grades, x ∉ τ.domain

theorem substitute_of_part (hτ : τ.domain.Nodup) {b : String × Ty} (hpart : Part grades σ τ) (hb : b ∈ σ)
    (hgrade : grades b.1 = false) : (Ty.var b.1).substitute τ = b.2 := by
  unfold Ty.substitute
  rw [Substitution.lookup_of_mem hτ (hpart b hb hgrade)]
  rfl

/--
Nothing is lost if a part of a substitution is applied first, provided that its solutions need no solving.
-/
theorem erase_substitute_substitute (hσ : σ.WellKinded grades) (hτ : τ.WellKinded grades) (hnodup : τ.domain.Nodup)
    (hpart : Part grades σ τ) (hresolved : Resolved grades σ τ) (ty : Ty)
    : ((ty.substitute σ).substitute τ).erase grades = (ty.substitute τ).erase grades := by
  apply Ty.erase_substitute_congr hσ hτ hτ
  intro x hx
  obtain ⟨_, heq⟩ | ⟨ty, hmem, heq⟩ := Ty.substitute_var_cases σ x
  . rw [heq]
  . rw [heq, Ty.erase_substitute_of_disjoint ty hτ (hresolved _ hmem),
      substitute_of_part hnodup hpart hmem (Ty.grades_of_mem_typeVars hx)]

/--
What the second components teach about types is new if the solutions of the first ones need no solving.
-/
theorem part_second {a b a' b' : Ty} {agree' : Bool} (hfirst : Compared grades a a' agree σ)
    (hsecond : Compared grades (b.substitute σ) (b'.substitute σ) agree' τ) (hpart : Part grades (σ.union τ) ρ)
    (hresolved : Resolved grades σ ρ) : Part grades τ ρ := by
  intro c hc hgrade
  apply hpart c _ hgrade
  refine Substitution.mem_union.mpr (.inr ⟨hc, ?_⟩)
  intro hdomain
  -- The variable would occur in a solution of the first components, which are resolved.
  have habsent : ∀ ty : Ty, c.1 ∉ (ty.substitute σ).typeVars grades := by
    intro ty hmem
    obtain ⟨_, hnot⟩ | ⟨d, hd, _, h⟩ := Ty.mem_typeVars_substitute hfirst.wellKinded hmem
    . exact hnot hdomain
    . obtain ⟨e, he, heq⟩ := List.mem_map.mp hdomain
      have he : e ∈ ρ := hpart e (Substitution.mem_union.mpr (.inl he)) (heq ▸ hgrade)
      exact hresolved d hd c.1 h (heq ▸ Substitution.mem_domain_of_mem he)
  have hmem := (hsecond.within (List.subset_append_left _ _) (List.subset_append_right _ _) c hc).1 hgrade
  exact (List.mem_append.mp hmem).elim (habsent b) (habsent b')

theorem part_first (hpart : Part grades (σ.union τ) ρ) : Part grades σ ρ :=
  fun b hb => hpart b (Substitution.mem_union.mpr (.inl hb))

theorem Part.resolved (hσ : σ.WellKinded grades) (hpart : Part grades σ ρ) (hρ : Resolved grades ρ ρ)
    : Resolved grades σ ρ := by
  intro b hb x hx
  cases hgrade : grades b.1 with
  | true =>
    rw [Ty.typeVars_of_isIndex ((hσ b hb).trans hgrade)] at hx
    cases hx
  | false => exact hρ b (hpart b hb hgrade) x hx

section

variable (hρ : ρ.WellKinded grades) (hnodup : ρ.domain.Nodup)

include hρ hnodup

theorem below_of_resolved (h : Compared grades left right agree σ) (hagree : agree = true) (hpart : Part grades σ ρ)
    (hresolved : Resolved grades ρ ρ)
    : Ty.Below ((left.substitute ρ).erase grades) ((right.substitute ρ).erase grades) := by
  have hindices : ∀ {ty ty' : Ty}, ty.isIndex grades = true → ty'.isIndex grades = true →
      (ty.substitute ρ).erase grades = (ty'.substitute ρ).erase grades := by
    intro ty ty' hty hty'
    rw [Ty.erase_of_isIndex (by rw [Ty.isIndex_substitute hρ, hty]),
      Ty.erase_of_isIndex (by rw [Ty.isIndex_substitute hρ, hty'])]
  have hvar : ∀ {x : String} {ty : Ty}, ty.isIndex grades = grades x → Part grades [(x, ty)] ρ →
      ((Ty.var x).substitute ρ).erase grades = (ty.substitute ρ).erase grades := by
    intro x ty hkind hpart
    cases hgrade : grades x with
    | true => exact hindices hgrade (hkind.trans hgrade)
    | false =>
      have hmem := hpart (x, ty) List.mem_cons_self hgrade
      rw [substitute_of_part hnodup hpart List.mem_cons_self hgrade,
        Ty.erase_substitute_of_disjoint ty hρ (hresolved _ hmem)]
  induction h with
  | const n n' =>
    rw [decide_eq_true_eq] at hagree
    rw [hagree]
    exact .refl _
  | same x => exact .refl _
  | rigid x y => cases hagree
  | index hleft hright =>
    rw [hindices hleft hright]
    exact .refl _
  | left hkind _ | right hkind _ =>
    rw [hvar hkind hpart]
    exact .refl _
  | arrow h h' ih ih' =>
    rw [Bool.and_eq_true] at hagree
    have hfirst := (part_first hpart).resolved h.wellKinded hresolved
    have hsame := erase_substitute_substitute h.wellKinded hρ hnodup (part_first hpart) hfirst
    have hresults := ih' hagree.2 (part_second h h' hpart hfirst)
    rw [hsame, hsame] at hresults
    exact .arrow (ih hagree.1 (part_first hpart)) hresults
  | app h h' ih ih' =>
    rw [Bool.and_eq_true] at hagree
    have hfirst := (part_first hpart).resolved h.wellKinded hresolved
    have hsame := erase_substitute_substitute h.wellKinded hρ hnodup (part_first hpart) hfirst
    have hseconds := ih' hagree.2 (part_second h h' hpart hfirst)
    rw [hsame, hsame] at hseconds
    exact .app (ih hagree.1 (part_first hpart)) hseconds
  | pair h h' ih ih' =>
    rw [Bool.and_eq_true] at hagree
    have hfirst := (part_first hpart).resolved h.wellKinded hresolved
    have hsame := erase_substitute_substitute h.wellKinded hρ hnodup (part_first hpart) hfirst
    have hseconds := ih' hagree.2 (part_second h h' hpart hfirst)
    rw [hsame, hsame] at hseconds
    exact .pair (ih hagree.1 (part_first hpart)) hseconds
  | box _ ih => exact .box (ih hagree hpart)
  | diamond heffects _ ih => exact .diamond heffects (ih hagree hpart)

/--
If a substitution that contains what a comparison has learned makes the types agree, it solves no variable of what was
learned. At a variable, agreement says that its solution does not change when it is substituted again.
-/
theorem resolved_of_dropEffects_eq (h : Compared grades left right agree σ) (hne : ∀ b ∈ ρ, b.2 ≠ .var b.1)
    (hpart : Part grades σ ρ)
    (heq : ((left.substitute ρ).erase grades).dropEffects = ((right.substitute ρ).erase grades).dropEffects)
    : Resolved grades σ ρ := by
  have hvar : ∀ {x : String} {ty : Ty}, ty.isIndex grades = grades x → Part grades [(x, ty)] ρ →
      ((ty.substitute ρ).erase grades).dropEffects = (((Ty.var x).substitute ρ).erase grades).dropEffects →
      Resolved grades [(x, ty)] ρ := by
    intro x ty hkind hpart heq b hb y hy
    obtain rfl := List.mem_singleton.mp hb
    cases hgrade : grades x with
    | true =>
      rw [Ty.typeVars_of_isIndex (hkind.trans hgrade)] at hy
      cases hy
    | false =>
      rw [substitute_of_part hnodup hpart List.mem_cons_self hgrade] at heq
      have hfixed := Ty.substitute_var_of_dropEffects_eq hρ heq y hy
      intro hdomain
      obtain ⟨c, hc, rfl⟩ := List.mem_map.mp hdomain
      apply hne c hc
      rw [← hfixed]
      unfold Ty.substitute
      rw [Substitution.lookup_of_mem hnodup hc]
      rfl
  induction h with
  | left hkind _ => exact hvar hkind hpart heq.symm
  | right hkind _ => exact hvar hkind hpart heq
  | arrow h h' ih ih' =>
    simp only [Ty.substitute, Ty.erase, Ty.dropEffects, Ty.arrow.injEq] at heq
    have hfirst := ih (part_first hpart) heq.1.symm
    have hsame := erase_substitute_substitute h.wellKinded hρ hnodup (part_first hpart) hfirst
    apply Substitution.forall_mem_union hfirst
    apply ih' (part_second h h' hpart hfirst)
    rw [hsame, hsame]
    exact heq.2
  | app h h' ih ih' =>
    simp only [Ty.substitute, Ty.erase, Ty.dropEffects, Ty.app.injEq] at heq
    have hfirst := ih (part_first hpart) heq.1
    have hsame := erase_substitute_substitute h.wellKinded hρ hnodup (part_first hpart) hfirst
    apply Substitution.forall_mem_union hfirst
    apply ih' (part_second h h' hpart hfirst)
    rw [hsame, hsame]
    exact heq.2
  | pair h h' ih ih' =>
    simp only [Ty.substitute, Ty.erase, Ty.dropEffects, Ty.pair.injEq] at heq
    have hfirst := ih (part_first hpart) heq.1
    have hsame := erase_substitute_substitute h.wellKinded hρ hnodup (part_first hpart) hfirst
    apply Substitution.forall_mem_union hfirst
    apply ih' (part_second h h' hpart hfirst)
    rw [hsame, hsame]
    exact heq.2
  | box _ ih =>
    simp only [Ty.substitute, Ty.erase, Ty.dropEffects, Ty.box.injEq, true_and] at heq
    exact ih hpart heq
  | diamond _ _ ih =>
    simp only [Ty.substitute, Ty.erase, Ty.dropEffects, Ty.diamond.injEq, true_and] at heq
    exact ih hpart heq
  | _ => exact nofun

end

end Compared

/--
The substitution that a comparison of types returns makes them agree if and only if no variable that it solves occurs in
one of its solutions.
-/
theorem relate_below_iff (env : Env) (pos : Nat) (relation : Relation) (left right : Ty) (s s' : State) (u : Unified)
    (h : left.relate env pos relation right s = .ok u s') (hagree : u.agree = true)
    : Ty.Below ((left.substitute u.subst).erase s.isGradeVar) ((right.substitute u.subst).erase s.isGradeVar)
        ↔
      ∀ b ∈ u.subst, ∀ x ∈ b.2.typeVars s.isGradeVar, x ∉ u.subst.domain := by
  have hcompared := (Unify.compared_of_relate h).1
  have hpart : Compared.Part s.isGradeVar u.subst u.subst := fun _ hb _ => hb
  constructor
  . intro hbelow
    exact hcompared.resolved_of_dropEffects_eq hcompared.wellKinded hcompared.nodup hcompared.ne_var hpart
      hbelow.dropEffects_eq
  . intro hresolved
    exact hcompared.below_of_resolved hcompared.wellKinded hcompared.nodup hagree hpart hresolved

/-- Two variables for types and one for naturals, all up to the solver. -/
def State.threeVars : State :=
  { State.start with
    typeVars := [⟨"a", .type, .instantiated⟩, ⟨"b", .type, .instantiated⟩, ⟨"n", .grade .nat, .instantiated⟩] }

theorem exists_relate {env : Env} {pos : Nat} {relation : Relation} {left right : Ty} {s : State} (subst : Substitution)
    (h : yields (left.relate env pos relation right) s (fun u _ => u.agree && decide (u.subst = subst)) = true)
    : ∃ u s', left.relate env pos relation right s = .ok u s' ∧ u.agree = true ∧ u.subst = subst := by
  obtain ⟨u, s', hrelate, hu⟩ := exists_of_yields h
  rw [Bool.and_eq_true, decide_eq_true_eq] at hu
  exact ⟨u, s', hrelate, hu⟩

/-- `(a [1], List n b <R>)` -/
def Ty.openPair : Ty :=
  .pair (.box (.nat 1) (.var "a")) (.diamond ["R"] (.list (.var "n") (.var "b")))

/-- `(Int [2], List (n + 1) Bool <R, W>)` -/
def Ty.longerPair : Ty :=
  .pair (.box (.nat 2) (.const "Int"))
    (.diamond ["R", "W"] (.list (.op .plus (.var "n") (.index 1)) (.const "Bool")))

theorem relate_below_iff_pairs
    : ∃ u s',
        Ty.openPair.relate ⟨.standard, []⟩ 0 .le .longerPair .threeVars = .ok u s' ∧ u.agree = true ∧
        u.subst = [("a", .const "Int"), ("n", .op .plus (.var "n") (.index 1)), ("b", .const "Bool")] ∧
        Ty.Below ((Ty.openPair.substitute u.subst).erase State.threeVars.isGradeVar)
          ((Ty.longerPair.substitute u.subst).erase State.threeVars.isGradeVar) := by
  have hrun : yields (Ty.openPair.relate ⟨.standard, []⟩ 0 .le .longerPair) .threeVars (fun u _ => u.agree &&
      decide (u.subst = [("a", .const "Int"), ("n", .op .plus (.var "n") (.index 1)), ("b", .const "Bool")])) = true := by
    cbv
  obtain ⟨u, s', hrelate, hagree, hsubst⟩ := exists_relate _ hrun
  refine ⟨u, s', hrelate, hagree, hsubst, ?_⟩
  apply (relate_below_iff _ _ _ _ _ _ _ _ hrelate hagree).mpr
  rw [hsubst]
  decide

/--
`(a, b)` and `(b, Int)`: `b` is solved by `a` before `a` is solved by `Int`. One application of the substitution leaves
`a` in place of `b`.
-/
theorem relate_not_below_chain
    : ∃ u s',
        (Ty.pair (.var "a") (.var "b")).relate ⟨.standard, []⟩ 0 .eq (.pair (.var "b") (.const "Int")) .threeVars
          = .ok u s' ∧
        u.agree = true ∧ u.subst = [("b", .var "a"), ("a", .const "Int")] ∧
        (Ty.pair (.var "a") (.var "b")).substitute u.subst = .pair (.const "Int") (.var "a") ∧
        (Ty.pair (.var "b") (.const "Int")).substitute u.subst = .pair (.var "a") (.const "Int") ∧
        ¬Ty.Below (((Ty.pair (.var "a") (.var "b")).substitute u.subst).erase State.threeVars.isGradeVar)
          (((Ty.pair (.var "b") (.const "Int")).substitute u.subst).erase State.threeVars.isGradeVar) := by
  have hrun : yields ((Ty.pair (.var "a") (.var "b")).relate ⟨.standard, []⟩ 0 .eq (.pair (.var "b") (.const "Int")))
      .threeVars (fun u _ => u.agree && decide (u.subst = [("b", .var "a"), ("a", .const "Int")])) = true := by
    cbv
  obtain ⟨u, s', hrelate, hagree, hsubst⟩ := exists_relate _ hrun
  refine ⟨u, s', hrelate, hagree, hsubst, ?_⟩
  rw [hsubst]
  refine ⟨rfl, rfl, ?_⟩
  intro hbelow
  have heq := hbelow.dropEffects_eq
  cases heq

end GradedModal
