import GradedModal.Proofs.Mentions
import GradedModal.Proofs.Patterns

/-!
This module contains what patterns mention. A match makes up variables for those of constructors, and mentions nothing
else but the variables of the type it is given.
-/

namespace GradedModal

open CheckM Context

/-- No variable of the type has a dot in its name. -/
def Ty.isDotless (ty : Ty) : Bool :=
  ty.occurrences.all GradedModal.isDotless

/--
The types that a program refers to have no variables with a dot in their names.
-/
structure Env.IsDotless (env : Env) : Prop where
  constructors : ∀ name scheme, env.builtins.constructors.lookup name = some scheme → scheme.ty.isDotless = true
  definitions : ∀ name scheme, env.lookup? name = some scheme → scheme.ty.isDotless = true
  operators : ∀ op, ∀ ty ∈ env.builtins.signatures op, ty.isDotless = true

theorem State.Allows.ty {A : String → Prop} {s : State} {ty : Ty} (h : s.Allows A) (hty : ty.isDotless = true)
    : ty.Within A := by
  unfold Ty.isDotless at hty
  rw [List.all_eq_true] at hty
  exact fun x hx => h.dotless x (hty x hx)

theorem State.Allows.of_typeVars_eq {A : String → Prop} {s s' : State} (h : s'.Allows A)
    (htypeVars : s'.typeVars = s.typeVars) : s.Allows A where
  dotless := h.dotless
  vars := htypeVars ▸ h.vars

namespace Pattern

mutual

/--
Whether a pattern has no constructor with a variable in place of a grade.
-/
def isIndexFree (env : Env) : Pattern → Bool
  | .var _ _ => true
  | .wildcard _ => true
  | .int _ _ => true
  | .float _ _ => true
  | .box _ inner => inner.isIndexFree env
  | .pair _ a b => a.isIndexFree env && b.isIndexFree env
  | .constructor _ name args =>
    (env.builtins.constructors.lookup name).all (·.vars.all (·.2.gradeKind?.isNone)) && areIndexFree env args

def areIndexFree (env : Env) : List Pattern → Bool
  | [] => true
  | p :: ps => p.isIndexFree env && areIndexFree env ps

end

end Pattern

def Matched.Within (A : String → Prop) (m : Matched) : Prop :=
  m.context.Within A ∧ m.subst.TypesWithin A

section

variable {A : String → Prop} {env : Env} {pos : Nat} {s s' : State}

theorem CheckM.exists_of_mem_mapM {α β : Type} {l : List α} {f : α → CheckM β} {bs : List β}
    (h : l.mapM f s = .ok bs s') : ∀ b ∈ bs, ∃ a ∈ l, ∃ t t', f a t = .ok b t' := by
  induction l generalizing bs s s' with
  | nil =>
    rw [List.mapM_nil, pure_eq_ok] at h
    rw [← h.1]
    exact fun _ hb => nomatch hb
  | cons a l ih =>
    rw [List.mapM_cons] at h
    simp only [bind_eq_ok, pure_eq_ok] at h
    obtain ⟨b, s₁, hb, rest, s₂, hrest, rfl, _⟩ := h
    rw [List.forall_mem_cons]
    refine ⟨⟨a, by simp, s, s₁, hb⟩, fun b' hb' => ?_⟩
    obtain ⟨a', ha', hrun⟩ := ih hrest b' hb'
    exact ⟨a', List.mem_cons_of_mem _ ha', hrun⟩

theorem Scheme.refresh_kinds {scheme : Scheme} {quantifier : Quantifier} {r : List (String × Kind) × Ty}
    (h : scheme.refresh quantifier s = .ok r s') : ∀ b ∈ r.1, ∃ v ∈ scheme.vars, v.2 = b.2 := by
  unfold refresh at h
  rw [bind_eq_ok] at h
  obtain ⟨fresh, s₁, hfresh, h⟩ := h
  rw [pure_eq_ok] at h
  obtain ⟨rfl, _⟩ := h
  simp only [List.forall_mem_map]
  intro b hb
  obtain ⟨v, hv, t, t', hrun⟩ := exists_of_mem_mapM hfresh b hb
  simp only [bind_eq_ok, pure_eq_ok] at hrun
  obtain ⟨_, _, _, rfl, _⟩ := hrun
  exact ⟨v, hv, rfl⟩

theorem Matched.merge_existentials {left right m : Matched} (h : left.merge env pos right s = .ok m s')
    : m.existentials = left.existentials ++ right.existentials := by
  obtain ⟨_, _, _, _, _, rfl⟩ := merge_eq_ok h
  rfl

theorem Matched.merge_confines {H : Prop} {left right : Matched} (hleft : H → left.Within A)
    (hright : H → right.Within A) : Confines H A (left.merge env pos right) (Matched.Within A) := by
  unfold Matched.merge
  apply confines_bind (Context.combine_confines (fun hH => (hleft hH).1) (fun hH => (hright hH).1))
  intro context
  apply confines_bind (Substitution.combine_confines (fun h => (hleft h.1).2) (fun h => (hright h.1).2))
  intro subst
  apply confines_pure
  rintro ⟨⟨_, hcontext⟩, hsubst⟩
  exact ⟨hcontext, hsubst⟩

namespace Pattern

theorem matchLiteral_confines {H : Prop} {p : Pattern} {ty : Ty} {expected : String} (hty : H → ty.Within A)
    : Confines H A (p.matchLiteral env ty expected) (Matched.Within A) := by
  unfold matchLiteral
  apply confines_bind (confines_mapError (Ty.equal_confines (fun _ => Ty.within_const) hty))
  intro unified
  apply confines_ite
  . apply confines_pure
    rintro ⟨_, hunified⟩
    exact ⟨within_empty, hunified.2⟩
  . exact confines_fail

theorem matchArgs_existentials {ps : List Pattern} {tys : List Ty} {matched m : Matched}
    (h : matchArgs env pos ps tys matched s = .ok m s') : ∀ b ∈ matched.existentials, b ∈ m.existentials := by
  induction ps generalizing tys matched s with
  | nil =>
    unfold matchArgs at h
    rw [pure_eq_ok] at h
    obtain ⟨rfl, rfl⟩ := h
    exact fun _ hb => hb
  | cons p ps ih =>
    cases tys with
    | nil =>
      unfold matchArgs at h
      rw [pure_eq_ok] at h
      obtain ⟨rfl, rfl⟩ := h
      exact fun _ hb => hb
    | cons ty tys =>
      obtain ⟨arg, matched', s₁, s₂, harg, hmerge, h⟩ := matchArgs_cons h
      intro b hb
      apply ih h
      rw [Matched.merge_existentials hmerge]
      exact List.mem_append_left _ hb

mutual

-- The variables that a match makes up are known only when it is over, so they are a condition on its result.
theorem matchTy_within {A : String → Prop} {env : Env} (henv : env.IsDotless) (p : Pattern) {ty : Ty} {m : Matched}
    {s s' : State} (h : p.matchTy env ty s = .ok m s') (hs' : s'.Allows A) (hm : ∀ b ∈ m.existentials, A b.1)
    (hty : ty.Within A) : s.Collects A s' ∧ m.Within A := by
  cases p with
  | var pos name =>
    unfold matchTy at h
    rw [pure_eq_ok] at h
    obtain ⟨rfl, rfl⟩ := h
    exact ⟨.refl, within_singleton hty, Substitution.typesWithin_nil⟩
  | wildcard pos =>
    unfold matchTy at h
    rw [bind_eq_ok] at h
    obtain ⟨name, s₁, hname, h⟩ := h
    rw [pure_eq_ok] at h
    obtain ⟨rfl, rfl⟩ := h
    exact ⟨((confines_freshName _).collects hname hs').1, within_singleton hty, Substitution.typesWithin_nil⟩
  | int pos n | float pos x =>
    unfold matchTy at h
    exact (matchLiteral_confines fun _ => hty).collects h hs'
  | box pos inner =>
    obtain ⟨grade, content, matched, rfl, hinner, rfl⟩ := matchTy_boxed h
    rw [Ty.within_box] at hty
    obtain ⟨hcollects, hmatched⟩ := matchTy_within henv inner hinner hs' hm hty.2
    exact ⟨hcollects, hmatched.1.scale hty.1 _, hmatched.2⟩
  | pair pos a b =>
    obtain ⟨aTy, bTy, left, right, s₁, s₂, rfl, hleft, hright, h⟩ := matchTy_pair h
    rw [Ty.within_pair] at hty
    rw [Matched.merge_existentials h, List.forall_mem_append] at hm
    have hs₂ := hs'.of_reaches (Matched.merge_reaching _ _ _ _ h)
    have hs₁ := hs₂.of_reaches (matchTy_reaching _ _ _ hright)
    obtain ⟨hcollects, hleft⟩ := matchTy_within henv a hleft hs₁ hm.1 hty.1
    obtain ⟨hcollects', hright⟩ := matchTy_within henv b hright hs₂ hm.2 (hty.2.substitute hleft.2)
    obtain ⟨hmerge, hm⟩ := (Matched.merge_confines (fun _ => hleft) (fun _ => hright)).collects h hs'
    exact ⟨(hcollects.trans hcollects').trans hmerge, hm⟩
  | constructor pos name args =>
    obtain ⟨scheme, existentials, constructorTy, unified, s₁, s₂, hscheme, hrefresh, _, hequal, h⟩ :=
      matchTy_constructor h
    have hs₂ := hs'.of_reaches (matchArgs_reaching _ _ _ _ _ h)
    have hs₁ := hs₂.of_reaches (Ty.equal_reaching _ _ _ _ hequal)
    have hscheme := hs'.ty (henv.constructors name scheme hscheme)
    obtain ⟨hcollects, hfresh⟩ := (Scheme.refresh_confines fun _ => hscheme).collects hrefresh hs₁
    have hconstructor := hfresh.2 fun b hb => hm b (matchArgs_existentials h b hb)
    obtain ⟨hcollects', hunified⟩ :=
      (Ty.equal_confines (fun _ => hconstructor.result) (fun _ => hty)).collects hequal hs₂
    obtain ⟨hargs, hm⟩ :=
      matchArgs_within henv args h hs' hm hconstructor.args ⟨within_empty, hunified.2⟩
    exact ⟨(hcollects.trans hcollects').trans hargs, hm⟩

theorem matchArgs_within {A : String → Prop} {env : Env} {pos : Nat} (henv : env.IsDotless) (ps : List Pattern)
    {tys : List Ty} {matched m : Matched} {s s' : State} (h : matchArgs env pos ps tys matched s = .ok m s')
    (hs' : s'.Allows A) (hm : ∀ b ∈ m.existentials, A b.1) (htys : ∀ ty ∈ tys, ty.Within A)
    (hmatched : matched.Within A) : s.Collects A s' ∧ m.Within A := by
  cases ps with
  | nil =>
    unfold matchArgs at h
    rw [pure_eq_ok] at h
    obtain ⟨rfl, rfl⟩ := h
    exact ⟨.refl, hmatched⟩
  | cons p ps =>
    cases tys with
    | nil =>
      unfold matchArgs at h
      rw [pure_eq_ok] at h
      obtain ⟨rfl, rfl⟩ := h
      exact ⟨.refl, hmatched⟩
    | cons ty tys =>
      obtain ⟨arg, matched', s₁, s₂, harg, hmerge, h⟩ := matchArgs_cons h
      rw [List.forall_mem_cons] at htys
      have hs₂ := hs'.of_reaches (matchArgs_reaching _ _ _ _ _ h)
      have hs₁ := hs₂.of_reaches (Matched.merge_reaching _ _ _ _ hmerge)
      have hmatched' := fun b hb => hm b (matchArgs_existentials h b hb)
      rw [Matched.merge_existentials hmerge, List.forall_mem_append] at hmatched'
      obtain ⟨hcollects, harg⟩ := matchTy_within henv p harg hs₁ hmatched'.2 (htys.1.substitute hmatched.2)
      obtain ⟨hcollects', hmatched⟩ :=
        (Matched.merge_confines (fun _ => hmatched) (fun _ => harg)).collects hmerge hs₂
      obtain ⟨hargs, hm⟩ := matchArgs_within henv ps h hs' hm htys.2 hmatched
      exact ⟨(hcollects.trans hcollects').trans hargs, hm⟩

end

mutual

theorem existentials_of_isIndexFree {A : String → Prop} {env : Env} (henv : env.IsDotless) (p : Pattern) {ty : Ty}
    {m : Matched} {s s' : State} (h : p.matchTy env ty s = .ok m s') (hs' : s'.Allows A)
    (hp : p.isIndexFree env = true) : ∀ b ∈ m.existentials, A b.1 := by
  cases p with
  | var pos name =>
    unfold matchTy at h
    rw [pure_eq_ok] at h
    obtain ⟨rfl, rfl⟩ := h
    exact fun _ hb => nomatch hb
  | wildcard pos =>
    unfold matchTy at h
    rw [bind_eq_ok] at h
    obtain ⟨name, s₁, hname, h⟩ := h
    rw [pure_eq_ok] at h
    obtain ⟨rfl, rfl⟩ := h
    exact fun _ hb => nomatch hb
  | int pos n | float pos x =>
    unfold matchTy at h
    obtain ⟨unified, _, rfl⟩ := matchLiteral_eq_ok h
    exact fun _ hb => nomatch hb
  | box pos inner =>
    obtain ⟨grade, content, matched, rfl, hinner, rfl⟩ := matchTy_boxed h
    unfold isIndexFree at hp
    have hinner := existentials_of_isIndexFree henv inner hinner hs' hp
    exact hinner
  | pair pos a b =>
    obtain ⟨aTy, bTy, left, right, s₁, s₂, rfl, hleft, hright, h⟩ := matchTy_pair h
    unfold isIndexFree at hp
    rw [Bool.and_eq_true] at hp
    have hs₂ := hs'.of_reaches (Matched.merge_reaching _ _ _ _ h)
    have hs₁ := hs₂.of_reaches (matchTy_reaching _ _ _ hright)
    rw [Matched.merge_existentials h, List.forall_mem_append]
    exact ⟨existentials_of_isIndexFree henv a hleft hs₁ hp.1, existentials_of_isIndexFree henv b hright hs₂ hp.2⟩
  | constructor pos name args =>
    obtain ⟨scheme, existentials, constructorTy, unified, s₁, s₂, hscheme, hrefresh, _, hequal, h⟩ :=
      matchTy_constructor h
    unfold isIndexFree at hp
    simp only [hscheme, Option.all_some, Bool.and_eq_true, List.all_eq_true, Option.isNone_iff_eq_none] at hp
    have hs₂ := hs'.of_reaches (matchArgs_reaching _ _ _ _ _ h)
    have hs₁ := hs₂.of_reaches (Ty.equal_reaching _ _ _ _ hequal)
    have hty := hs'.ty (henv.constructors name scheme hscheme)
    obtain ⟨_, hfresh⟩ := (Scheme.refresh_confines fun _ => hty).collects hrefresh hs₁
    apply matchArgs_existentials_of_areIndexFree henv args h hs' hp.2
    intro b hb
    obtain ⟨v, hv, hkind⟩ := Scheme.refresh_kinds hrefresh b hb
    exact hfresh.1 b hb (.inr (hkind ▸ hp.1 v hv))

theorem matchArgs_existentials_of_areIndexFree {A : String → Prop} {env : Env} {pos : Nat} (henv : env.IsDotless)
    (ps : List Pattern) {tys : List Ty} {matched m : Matched} {s s' : State}
    (h : matchArgs env pos ps tys matched s = .ok m s') (hs' : s'.Allows A) (hps : areIndexFree env ps = true)
    (hmatched : ∀ b ∈ matched.existentials, A b.1) : ∀ b ∈ m.existentials, A b.1 := by
  cases ps with
  | nil =>
    unfold matchArgs at h
    rw [pure_eq_ok] at h
    obtain ⟨rfl, rfl⟩ := h
    exact hmatched
  | cons p ps =>
    cases tys with
    | nil =>
      unfold matchArgs at h
      rw [pure_eq_ok] at h
      obtain ⟨rfl, rfl⟩ := h
      exact hmatched
    | cons ty tys =>
      obtain ⟨arg, matched', s₁, s₂, harg, hmerge, h⟩ := matchArgs_cons h
      unfold areIndexFree at hps
      rw [Bool.and_eq_true] at hps
      have hs₂ := hs'.of_reaches (matchArgs_reaching _ _ _ _ _ h)
      have hs₁ := hs₂.of_reaches (Matched.merge_reaching _ _ _ _ hmerge)
      apply matchArgs_existentials_of_areIndexFree henv ps h hs' hps.2
      rw [Matched.merge_existentials hmerge, List.forall_mem_append]
      exact ⟨hmatched, existentials_of_isIndexFree henv p harg hs₁ hps.1⟩

end

end Pattern
end
end GradedModal
