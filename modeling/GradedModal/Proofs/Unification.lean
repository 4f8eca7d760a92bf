import GradedModal.Proofs.Advances

/-!
This module says what a comparison of types learns. It takes a successful comparison apart once, into the comparisons
of the components and the substitutions that come of them, so that nothing else has to look into its run.
-/

namespace GradedModal

open CheckM

/--
Whether a name is that of a variable for grades, which stands for an index and not for a type.
-/
def State.isGradeVar (s : State) (x : String) : Bool :=
  (s.lookup? x).any (·.kind.gradeKind?.isSome)

namespace Ty

/--
A type-level index: a number, a variable for grades, or arithmetic on indices.
-/
def isIndex (grades : String → Bool) : Ty → Bool
  | .index _ => true
  | .var x => grades x
  | .op _ a b => a.isIndex grades && b.isIndex grades
  | _ => false

/--
The variables that stand for types, with repetitions.
-/
def typeVars (grades : String → Bool) : Ty → List String
  | .const _ => []
  | .index _ => []
  | .var x => if grades x then [] else [x]
  | .arrow a b => a.typeVars grades ++ b.typeVars grades
  | .app a b => a.typeVars grades ++ b.typeVars grades
  | .pair a b => a.typeVars grades ++ b.typeVars grades
  | .op _ a b => a.typeVars grades ++ b.typeVars grades
  | .box _ ty => ty.typeVars grades
  | .diamond _ ty => ty.typeVars grades

end Ty

namespace Substitution

/--
The variables that a substitution replaces.
-/
def domain (σ : Substitution) : List String :=
  σ.map (·.1)

/--
Variables for grades are replaced by indices, and other variables by other types.
-/
def WellKinded (grades : String → Bool) (σ : Substitution) : Prop :=
  ∀ b ∈ σ, b.2.isIndex grades = grades b.1

def Within (grades : String → Bool) (V : List String) (σ : Substitution) : Prop :=
  ∀ b ∈ σ, (grades b.1 = false → b.1 ∈ V) ∧ b.2.typeVars grades ⊆ V

def union (σ τ : Substitution) : Substitution :=
  σ ++ τ.filter (·.1 ∉ σ.domain)

variable {grades : String → Bool} {σ τ : Substitution} {x : String} {ty : Ty} {b : String × Ty}

theorem mem_domain_of_mem (h : b ∈ σ) : b.1 ∈ σ.domain :=
  List.mem_map_of_mem h

theorem lookup_eq_none_iff : σ.lookup x = none ↔ x ∉ σ.domain := by
  rw [List.lookup_eq_none_iff]
  simp only [domain, List.mem_map, not_exists, not_and, bne_iff_ne]
  constructor
  . intro h b hb hx
    exact h b hb hx.symm
  . intro h b hb hx
    exact h b hb hx.symm

theorem mem_of_lookup (h : σ.lookup x = some ty) : (x, ty) ∈ σ := by
  obtain ⟨σ₁, σ₂, rfl, _⟩ := List.lookup_eq_some_iff.mp h
  simp

theorem lookup_of_mem (hnodup : σ.domain.Nodup) (h : b ∈ σ) : σ.lookup b.1 = some b.2 := by
  induction σ with
  | nil => cases h
  | cons b' σ ih =>
    unfold domain at hnodup
    rw [List.map_cons, List.nodup_cons] at hnodup
    rw [List.lookup_cons]
    obtain rfl | h := List.mem_cons.mp h
    . simp
    . have hne : b.1 ≠ b'.1 := by
        intro heq
        exact hnodup.1 (heq ▸ mem_domain_of_mem h)
      rw [beq_eq_false_iff_ne.mpr hne]
      exact ih hnodup.2 h

theorem mem_union : b ∈ σ.union τ ↔ b ∈ σ ∨ b ∈ τ ∧ b.1 ∉ σ.domain := by
  unfold union
  simp

theorem domain_union (σ τ : Substitution) : (σ.union τ).domain = σ.domain ++ τ.domain.filter (· ∉ σ.domain) := by
  unfold union
  simp only [domain, List.map_append, List.filter_map]
  rfl

theorem nodup_union (hσ : σ.domain.Nodup) (hτ : τ.domain.Nodup) : (σ.union τ).domain.Nodup := by
  rw [domain_union, List.nodup_append]
  refine ⟨hσ, hτ.filter _, ?_⟩
  intro x hx y hy hxy
  rw [List.mem_filter, decide_eq_true_eq] at hy
  exact hy.2 (hxy ▸ hx)

theorem union_cons_of_mem (hx : x ∈ σ.domain) : σ.union ((x, ty) :: τ) = σ.union τ := by
  unfold union
  rw [List.filter_cons_of_neg (by simpa using hx)]

theorem union_cons_of_not_mem (hx : x ∉ σ.domain) (hτ : x ∉ τ.domain)
    : σ.union ((x, ty) :: τ) = union (σ ++ [(x, ty)]) τ := by
  unfold union
  rw [List.filter_cons_of_pos (by simpa using hx), List.append_assoc, List.singleton_append]
  congr 2
  apply List.filter_congr
  intro b hb
  have hne : b.1 ≠ x := by
    rintro rfl
    exact hτ (mem_domain_of_mem hb)
  rw [decide_eq_decide]
  simp [domain, hne]

theorem forall_mem_union {P : String × Ty → Prop} (hσ : ∀ b ∈ σ, P b) (hτ : ∀ b ∈ τ, P b) : ∀ b ∈ σ.union τ, P b := by
  intro b hb
  obtain hb | ⟨hb, _⟩ := mem_union.mp hb
  . exact hσ b hb
  . exact hτ b hb

theorem Within.singleton {V : List String} (hx : (Ty.var x).typeVars grades ⊆ V) (hty : ty.typeVars grades ⊆ V)
    : Within grades V [(x, ty)] := by
  intro b hb
  obtain rfl := List.mem_singleton.mp hb
  refine ⟨?_, hty⟩
  intro hgrade
  apply hx
  simp [Ty.typeVars, hgrade]

end Substitution

namespace Ty

variable {grades : String → Bool} {σ : Substitution} {x : String} {ty : Ty}

theorem substitute_var_cases (σ : Substitution) (x : String)
    : (x ∉ σ.domain ∧ (Ty.var x).substitute σ = .var x) ∨ ∃ ty, (x, ty) ∈ σ ∧ (Ty.var x).substitute σ = ty := by
  unfold substitute
  cases h : σ.lookup x with
  | none => exact .inl ⟨Substitution.lookup_eq_none_iff.mp h, rfl⟩
  | some ty => exact .inr ⟨ty, Substitution.mem_of_lookup h, rfl⟩

theorem isIndex_substitute (hσ : σ.WellKinded grades) (ty : Ty)
    : (ty.substitute σ).isIndex grades = ty.isIndex grades := by
  induction ty with
  | var x =>
    obtain ⟨_, h⟩ | ⟨ty, hmem, h⟩ := substitute_var_cases σ x
    . rw [h]
    . rw [h]
      exact hσ _ hmem
  | op o a b iha ihb =>
    unfold substitute isIndex
    rw [iha, ihb]
  | _ => rfl

theorem typeVars_of_isIndex (h : ty.isIndex grades = true) : ty.typeVars grades = [] := by
  induction ty with
  | index n => rfl
  | var x => exact if_pos h
  | op o a b iha ihb =>
    unfold isIndex at h
    rw [Bool.and_eq_true] at h
    unfold typeVars
    rw [iha h.1, ihb h.2, List.append_nil]
  | _ => cases h

theorem grades_of_mem_typeVars (h : x ∈ ty.typeVars grades) : grades x = false := by
  have happend : ∀ {a b : Ty}, (x ∈ a.typeVars grades → grades x = false) → (x ∈ b.typeVars grades → grades x = false) →
      x ∈ a.typeVars grades ++ b.typeVars grades → grades x = false := by
    intro a b ha hb h
    exact (List.mem_append.mp h).elim ha hb
  induction ty with
  | const n => cases h
  | index n => cases h
  | var y =>
    unfold typeVars at h
    split at h
    . cases h
    . next hgrade =>
      rw [List.mem_singleton.mp h]
      exact Bool.eq_false_iff.mpr hgrade
  | arrow a b iha ihb | app a b iha ihb | pair a b iha ihb | op o a b iha ihb => exact happend iha ihb h
  | box grade ty ih => exact ih h
  | diamond effects ty ih => exact ih h

theorem mem_typeVars_substitute (hσ : σ.WellKinded grades) (h : x ∈ (ty.substitute σ).typeVars grades)
    : (x ∈ ty.typeVars grades ∧ x ∉ σ.domain) ∨ ∃ b ∈ σ, b.1 ∈ ty.typeVars grades ∧ x ∈ b.2.typeVars grades := by
  have happend : ∀ {a b : Ty},
      (x ∈ (a.substitute σ).typeVars grades → (x ∈ a.typeVars grades ∧ x ∉ σ.domain) ∨
        ∃ b ∈ σ, b.1 ∈ a.typeVars grades ∧ x ∈ b.2.typeVars grades) →
      (x ∈ (b.substitute σ).typeVars grades → (x ∈ b.typeVars grades ∧ x ∉ σ.domain) ∨
        ∃ b' ∈ σ, b'.1 ∈ b.typeVars grades ∧ x ∈ b'.2.typeVars grades) →
      x ∈ (a.substitute σ).typeVars grades ++ (b.substitute σ).typeVars grades →
      (x ∈ a.typeVars grades ++ b.typeVars grades ∧ x ∉ σ.domain) ∨
        ∃ b' ∈ σ, b'.1 ∈ a.typeVars grades ++ b.typeVars grades ∧ x ∈ b'.2.typeVars grades := by
    intro a b iha ihb h
    simp only [List.mem_append] at h ⊢
    obtain h | h := h
    . obtain ⟨h, hx⟩ | ⟨b', hb', h, hx⟩ := iha h
      . exact .inl ⟨.inl h, hx⟩
      . exact .inr ⟨b', hb', .inl h, hx⟩
    . obtain ⟨h, hx⟩ | ⟨b', hb', h, hx⟩ := ihb h
      . exact .inl ⟨.inr h, hx⟩
      . exact .inr ⟨b', hb', .inr h, hx⟩
  induction ty with
  | const n => cases h
  | index n => cases h
  | var y =>
    obtain ⟨hy, heq⟩ | ⟨ty, hmem, heq⟩ := substitute_var_cases σ y
    . rw [heq] at h
      unfold typeVars at h ⊢
      split at h
      . cases h
      . next hgrade =>
        rw [if_neg hgrade]
        obtain rfl := List.mem_singleton.mp h
        exact .inl ⟨h, hy⟩
    . rw [heq] at h
      refine .inr ⟨(y, ty), hmem, ?_, h⟩
      unfold typeVars
      split
      . next hgrade =>
        have hindex : ty.isIndex grades = true := by rw [hσ _ hmem, hgrade]
        rw [typeVars_of_isIndex hindex] at h
        cases h
      . exact List.mem_cons_self
  | arrow a b iha ihb | app a b iha ihb | pair a b iha ihb | op o a b iha ihb => exact happend iha ihb h
  | box grade ty ih => exact ih h
  | diamond effects ty ih => exact ih h

theorem typeVars_substitute_subset {V : List String} (hkinds : σ.WellKinded grades) (hσ : σ.Within grades V)
    (hty : ty.typeVars grades ⊆ V) : (ty.substitute σ).typeVars grades ⊆ V := by
  intro x hx
  obtain ⟨hx, _⟩ | ⟨b, hb, _, hx⟩ := mem_typeVars_substitute hkinds hx
  . exact hty hx
  . exact (hσ b hb).2 hx

end Ty

/--
What a comparison of two types finds: whether they agree, and a substitution. The second components are compared after
what the first ones have taught, and bindings that are learned twice are kept once.
-/
inductive Compared (grades : String → Bool) : Ty → Ty → Bool → Substitution → Prop where
  | const (n n' : String) : Compared grades (.const n) (.const n') (n = n') []
  | same (x : String) : Compared grades (.var x) (.var x) true []
  | rigid (x y : String) : Compared grades (.var x) (.var y) false []
  | index {left right : Ty} : left.isIndex grades = true → right.isIndex grades = true →
    Compared grades left right true []
  | left {x : String} {ty : Ty} : ty.isIndex grades = grades x → ty ≠ .var x →
    Compared grades (.var x) ty true [(x, ty)]
  | right {x : String} {ty : Ty} : ty.isIndex grades = grades x → ty ≠ .var x →
    Compared grades ty (.var x) true [(x, ty)]
  | arrow {arg arg' result result' : Ty} {agree agree' : Bool} {σ τ : Substitution} :
    Compared grades arg' arg agree σ → Compared grades (result.substitute σ) (result'.substitute σ) agree' τ →
    Compared grades (.arrow arg result) (.arrow arg' result') (agree && agree') (σ.union τ)
  | app {a a' b b' : Ty} {agree agree' : Bool} {σ τ : Substitution} :
    Compared grades a a' agree σ → Compared grades (b.substitute σ) (b'.substitute σ) agree' τ →
    Compared grades (.app a b) (.app a' b') (agree && agree') (σ.union τ)
  | pair {a a' b b' : Ty} {agree agree' : Bool} {σ τ : Substitution} :
    Compared grades a a' agree σ → Compared grades (b.substitute σ) (b'.substitute σ) agree' τ →
    Compared grades (.pair a b) (.pair a' b') (agree && agree') (σ.union τ)
  | box {grade grade' : Grade} {ty ty' : Ty} {agree : Bool} {σ : Substitution} :
    Compared grades ty ty' agree σ → Compared grades (.box grade ty) (.box grade' ty') agree σ
  | diamond {effects effects' : List String} {ty ty' : Ty} {agree : Bool} {σ : Substitution} :
    effects <+: effects' → Compared grades ty ty' agree σ →
    Compared grades (.diamond effects ty) (.diamond effects' ty') agree σ

namespace Compared

variable {grades : String → Bool} {left right : Ty} {agree : Bool} {σ : Substitution}

theorem nodup (h : Compared grades left right agree σ) : σ.domain.Nodup := by
  induction h with
  | arrow _ _ ih ih' | app _ _ ih ih' | pair _ _ ih ih' => exact Substitution.nodup_union ih ih'
  | box _ ih => exact ih
  | diamond _ _ ih => exact ih
  | _ => simp [Substitution.domain]

theorem wellKinded (h : Compared grades left right agree σ) : σ.WellKinded grades := by
  induction h with
  | left hkind | right hkind => simpa [Substitution.WellKinded] using hkind
  | arrow _ _ ih ih' | app _ _ ih ih' | pair _ _ ih ih' => exact Substitution.forall_mem_union ih ih'
  | box _ ih => exact ih
  | diamond _ _ ih => exact ih
  | _ => simp [Substitution.WellKinded]

theorem ne_var (h : Compared grades left right agree σ) : ∀ b ∈ σ, b.2 ≠ .var b.1 := by
  induction h with
  | left _ hne | right _ hne => simpa using hne
  | arrow _ _ ih ih' | app _ _ ih ih' | pair _ _ ih ih' => exact Substitution.forall_mem_union ih ih'
  | box _ ih => exact ih
  | diamond _ _ ih => exact ih
  | _ => simp

theorem within {V : List String} (h : Compared grades left right agree σ) (hleft : left.typeVars grades ⊆ V)
    (hright : right.typeVars grades ⊆ V) : σ.Within grades V := by
  induction h with
  | left _ _ => exact .singleton hleft hright
  | right _ _ => exact .singleton hright hleft
  | arrow h _ ih ih' =>
    rw [Ty.typeVars, List.append_subset] at hleft hright
    have hσ := ih hright.1 hleft.1
    exact Substitution.forall_mem_union hσ (ih' (Ty.typeVars_substitute_subset h.wellKinded hσ hleft.2)
      (Ty.typeVars_substitute_subset h.wellKinded hσ hright.2))
  | app h _ ih ih' | pair h _ ih ih' =>
    rw [Ty.typeVars, List.append_subset] at hleft hright
    have hσ := ih hleft.1 hright.1
    exact Substitution.forall_mem_union hσ (ih' (Ty.typeVars_substitute_subset h.wellKinded hσ hleft.2)
      (Ty.typeVars_substitute_subset h.wellKinded hσ hright.2))
  | box _ ih | diamond _ _ ih => exact ih hleft hright
  | _ => exact nofun

end Compared

theorem State.isGradeVar_congr {s s' : State} (h : s'.typeVars = s.typeVars) : s'.isGradeVar = s.isGradeVar := by
  unfold isGradeVar lookup?
  rw [h]

/--
Whether a comparison was given up because it is nested too deeply.
-/
def Cause.isEndless : Cause → Bool
  | .endlessComparison _ _ => true
  | _ => false

def Error.NotEndless (e : Error) : Prop :=
  e.cause.isEndless = false

def Cause.isKinding : Cause → Bool
  | .unboundTypeVar _ | .notAGrade _ _ | .gradeKindMismatch _ _ => true
  | _ => false

def Error.IsKinding (e : Error) : Prop :=
  e.cause.isKinding = true

theorem Error.IsKinding.notEndless {e : Error} (h : e.IsKinding) : e.NotEndless := by
  unfold IsKinding at h
  unfold NotEndless
  cases hcause : e.cause with
  | endlessComparison left right =>
    rw [hcause] at h
    cases h
  | _ => rfl

namespace CheckM

variable {α β : Type} {grades : String → Bool} {E : Error → Prop} {P : α → Prop} {Q : β → Prop}

/--
A check that brings no variables into scope, and whose result or error has a property wherever the same variables are
for grades.
-/
def Ensures (grades : String → Bool) (E : Error → Prop) (x : CheckM α) (P : α → Prop) : Prop :=
  ∀ ⦃s : State⦄, s.isGradeVar = grades →
    (∀ a s', x s = .ok a s' → P a ∧ s'.typeVars = s.typeVars) ∧ ∀ e s', x s = .error e s' → E e

theorem Ensures.imp {P' : α → Prop} {x : CheckM α} (hx : Ensures grades E x P) (h : ∀ a, P a → P' a)
    : Ensures grades E x P' := by
  intro s hs
  refine ⟨?_, (hx hs).2⟩
  intro a s' hrun
  obtain ⟨ha, hs'⟩ := (hx hs).1 a s' hrun
  exact ⟨h a ha, hs'⟩

theorem Ensures.impError {E' : Error → Prop} {x : CheckM α} (hx : Ensures grades E x P) (h : ∀ e, E e → E' e)
    : Ensures grades E' x P :=
  fun _ hs => ⟨(hx hs).1, fun e s' hrun => h e ((hx hs).2 e s' hrun)⟩

theorem Ensures.anyError {x : CheckM α} (hx : Ensures grades E x P) : Ensures grades (fun _ => True) x P :=
  hx.impError fun _ _ => trivial

theorem ensures_pure {a : α} (h : P a) : Ensures grades E (pure a) P := by
  intro s _
  constructor
  . intro b s' hrun
    rw [pure_eq_ok] at hrun
    rw [← hrun.1, hrun.2]
    exact ⟨h, rfl⟩
  . rintro _ _ ⟨⟩

theorem ensures_fail {pos : Nat} {cause : Cause} (h : E (.ofCause pos cause)) : Ensures grades E (fail pos cause) P := by
  intro s _
  refine ⟨nofun, ?_⟩
  intro e s' hrun
  cases hrun
  exact h

theorem ensures_bind {x : CheckM α} {f : α → CheckM β} (hx : Ensures grades E x P)
    (hf : ∀ a, P a → Ensures grades E (f a) Q) : Ensures grades E (x >>= f) Q := by
  intro s hs
  cases hxs : x s with
  | error e s₁ =>
    rw [bind_of_error hxs]
    refine ⟨nofun, ?_⟩
    rintro _ _ ⟨⟩
    exact (hx hs).2 e s₁ hxs
  | ok a s₁ =>
    obtain ⟨ha, hs₁⟩ := (hx hs).1 a s₁ hxs
    obtain ⟨hok, herror⟩ := hf a ha ((State.isGradeVar_congr hs₁).trans hs)
    rw [bind_of_ok hxs]
    refine ⟨?_, herror⟩
    intro b s' hb
    obtain ⟨hb, hs'⟩ := hok b s' hb
    exact ⟨hb, hs'.trans hs₁⟩

theorem ensures_fail_bind {pos : Nat} {cause : Cause} (h : E (.ofCause pos cause)) (f : α → CheckM β)
    : Ensures grades E (fail pos cause >>= f) Q := by
  have hfail : Ensures grades E (fail pos cause) (fun _ : α => False) := ensures_fail h
  exact ensures_bind hfail (fun _ h => h.elim)

theorem ensures_discard {p : Prop} {x : CheckM α} (hx : Ensures grades E x (fun _ => p))
    : Ensures grades E (discard x) (fun _ => p) :=
  ensures_bind hx (fun _ h => ensures_pure h)

theorem ensures_get : Ensures grades E (get : CheckM State) (·.isGradeVar = grades) := by
  intro s hs
  constructor
  . rintro t s' ⟨⟩
    exact ⟨hs, rfl⟩
  . rintro _ _ ⟨⟩

theorem ensures_modify {f : State → State} (hf : ∀ s, (f s).typeVars = s.typeVars)
    : Ensures grades E (modify f : CheckM Unit) (fun _ => True) := by
  intro s _
  constructor
  . rintro u s' ⟨⟩
    exact ⟨trivial, hf s⟩
  . rintro _ _ ⟨⟩

theorem ensures_bindGradeKind (name : String) (kind : GradeKind)
    : Ensures grades E (bindGradeKind name kind) (fun _ => True) :=
  ensures_modify (fun _ => rfl)

theorem ensures_constrain (c : Constraint) : Ensures grades E (constrain c) (fun _ => True) := by
  apply ensures_modify
  intro s
  unfold State.add
  split
  . rfl
  . rfl

theorem ensures_resolve (kind : GradeKind) : Ensures grades E (resolve kind) (fun _ => True) :=
  ensures_bind ensures_get (fun _ _ => ensures_pure trivial)

theorem typeVar_isKinding (pos : Nat) (x : String)
    : Ensures grades Error.IsKinding (typeVar pos x) (fun v => v.kind.gradeKind?.isSome = grades x) := by
  unfold typeVar
  apply ensures_bind ensures_get
  intro s hs
  split
  . next v hv =>
    apply ensures_pure
    rw [← hs]
    unfold State.isGradeVar
    rw [hv, Option.any_some]
  . exact ensures_fail rfl

theorem ensures_typeVar (pos : Nat) (x : String)
    : Ensures grades Error.NotEndless (typeVar pos x) (fun v => v.kind.gradeKind?.isSome = grades x) :=
  (typeVar_isKinding pos x).impError fun _ h => h.notEndless

end CheckM

section

variable {grades : String → Bool} {env : Env}

theorem GradeKind.unify_isKinding (pos : Nat) (k l : GradeKind)
    : Ensures grades Error.IsKinding (GradeKind.unify pos k l) (fun _ => True) := by
  unfold GradeKind.unify
  apply ensures_bind (ensures_resolve _)
  intro expected _
  apply ensures_bind (ensures_resolve _)
  intro actual _
  split
  . exact ensures_pure trivial
  . split
    . exact ensures_bind (ensures_bindGradeKind _ _) (fun _ _ => ensures_pure trivial)
    . exact ensures_bind (ensures_bindGradeKind _ _) (fun _ _ => ensures_pure trivial)
    . exact ensures_fail rfl

theorem GradeKind.ensures_unify (pos : Nat) (k l : GradeKind)
    : Ensures grades Error.NotEndless (GradeKind.unify pos k l) (fun _ => True) :=
  (unify_isKinding pos k l).impError fun _ h => h.notEndless

theorem Grade.inferKind_isKinding (pos : Nat) (g : Grade)
    : Ensures grades Error.IsKinding (g.inferKind pos) (fun _ => True) := by
  induction g with
  | var name =>
    unfold Grade.inferKind
    apply ensures_bind (typeVar_isKinding _ _)
    intro v _
    split
    . exact ensures_resolve _
    . exact ensures_fail rfl
  | zero kind | one kind => exact ensures_resolve _
  | op o a b iha ihb =>
    unfold Grade.inferKind
    exact ensures_bind iha (fun _ _ => ensures_bind ihb (fun _ _ => GradeKind.unify_isKinding _ _ _))
  | _ => exact ensures_pure trivial

theorem Grade.ensures_inferKind (pos : Nat) (g : Grade)
    : Ensures grades Error.NotEndless (g.inferKind pos) (fun _ => True) :=
  (inferKind_isKinding pos g).impError fun _ h => h.notEndless

theorem Kind.ensures_unify (pos : Nat) (k l : Kind)
    : Ensures grades Error.NotEndless (Kind.unify pos k l) (fun _ => k.gradeKind?.isSome = l.gradeKind?.isSome) := by
  fun_induction Kind.unify pos k l with
  | case1 a b => exact ensures_bind (GradeKind.ensures_unify _ _ _) (fun _ _ => ensures_pure rfl)
  | case2 a b a' b' iha ihb => exact ensures_bind iha (fun _ _ => ensures_bind ihb (fun _ _ => ensures_pure rfl))
  | case3 => exact ensures_pure rfl
  | case4 => exact ensures_fail rfl

/--
Indices have the kind of grades, and a type with such a kind that can be read as a grade is an index.
-/
def Ty.IndexKind (grades : String → Bool) (ty : Ty) (kind : Kind) : Prop :=
  (ty.isIndex grades = true → kind.gradeKind?.isSome = true) ∧
  (ty.toGrade?.isSome = true → kind.gradeKind?.isSome = true → ty.isIndex grades = true)

theorem Ty.indexKind_of_not_grade {ty : Ty} (hindex : ty.isIndex grades = false) (hgrade : ty.toGrade? = none)
    (kind : Kind) : ty.IndexKind grades kind := by
  simp [IndexKind, hindex, hgrade]

theorem Ty.ensures_inferKind (pos : Nat) (ty : Ty)
    : Ensures grades Error.NotEndless (ty.inferKind env pos) (ty.IndexKind grades) := by
  -- Both components of a type have to be types themselves.
  have hpair : ∀ {a b : Ty} {P Q : Kind → Prop}, Ensures grades Error.NotEndless (a.inferKind env pos) P →
      Ensures grades Error.NotEndless (b.inferKind env pos) Q → Ensures grades Error.NotEndless (do
        discard <| Kind.unify pos .type (← a.inferKind env pos)
        discard <| Kind.unify pos .type (← b.inferKind env pos)
        return Kind.type) (· = .type) := by
    intro a b P Q ha hb
    apply ensures_bind ha
    intro left _
    apply ensures_bind (ensures_discard (Kind.ensures_unify _ _ _))
    intro _ _
    apply ensures_bind hb
    intro right _
    exact ensures_bind (ensures_discard (Kind.ensures_unify _ _ _)) (fun _ _ => ensures_pure rfl)
  induction ty with
  | const n =>
    unfold inferKind
    split
    . exact ensures_pure (indexKind_of_not_grade rfl rfl _)
    . exact ensures_fail rfl
  | var name =>
    unfold inferKind
    apply ensures_bind (ensures_typeVar _ _)
    intro v hv
    apply ensures_pure
    unfold IndexKind isIndex
    rw [hv]
    exact ⟨id, fun _ => id⟩
  | index n => exact ensures_pure ⟨fun _ => rfl, fun _ _ => rfl⟩
  | op o a b iha ihb =>
    unfold inferKind
    apply ensures_bind iha
    intro left hleft
    apply ensures_bind ihb
    intro right hright
    split
    . apply ensures_bind (GradeKind.ensures_unify _ _ _)
      intro kind _
      apply ensures_pure
      refine ⟨fun _ => rfl, ?_⟩
      intro hgrade _
      obtain ⟨grade, hgrade⟩ := Option.isSome_iff_exists.mp hgrade
      unfold toGrade? at hgrade
      simp only [Option.bind_eq_bind, Option.bind_eq_some_iff] at hgrade
      obtain ⟨g, hg, g', hg', _⟩ := hgrade
      unfold isIndex
      rw [hleft.2 (Option.isSome_of_eq_some hg) rfl, hright.2 (Option.isSome_of_eq_some hg') rfl]
      rfl
    . exact ensures_fail rfl
    . exact ensures_fail rfl
  | arrow a b iha ihb | pair a b iha ihb => exact (hpair iha ihb).imp (fun _ _ => indexKind_of_not_grade rfl rfl _)
  | box grade ty ih =>
    unfold inferKind
    apply ensures_bind (ensures_discard (Grade.ensures_inferKind _ _))
    intro _ _
    apply ensures_bind ih
    intro kind _
    apply ensures_bind (ensures_discard (Kind.ensures_unify _ _ _))
    exact fun _ _ => ensures_pure (indexKind_of_not_grade rfl rfl _)
  | diamond effects ty ih =>
    unfold inferKind
    apply ensures_bind ih
    intro kind _
    apply ensures_bind (ensures_discard (Kind.ensures_unify _ _ _))
    exact fun _ _ => ensures_pure (indexKind_of_not_grade rfl rfl _)
  | app a b iha ihb =>
    unfold inferKind
    apply ensures_bind iha
    intro function _
    apply ensures_bind ihb
    intro arg _
    split
    . apply ensures_bind (ensures_discard (Kind.ensures_unify _ _ _))
      exact fun _ _ => ensures_pure (indexKind_of_not_grade rfl rfl _)
    . exact ensures_fail rfl

end

namespace Unify

variable {grades : String → Bool} {env : Env} {pos : Nat}

theorem ensures_vars {x y : String} (hxy : x ≠ y)
    : Ensures grades Error.NotEndless (vars pos x y) (fun u => Compared grades (.var x) (.var y) u.agree u.subst) := by
  have hne : Ty.var x ≠ .var y := by
    intro h
    cases h
    exact hxy rfl
  unfold vars
  apply ensures_bind (ensures_typeVar _ _)
  intro l hl
  apply ensures_bind (ensures_typeVar _ _)
  intro r hr
  split
  . exact ensures_pure (.rigid x y)
  . -- Whichever of the two variables is solved, both are for grades or none is.
    have hsolve : grades x = grades y → ∀ kept solved, (kept, solved) = (x, y) ∨ (kept, solved) = (y, x) →
        Compared grades (.var x) (.var y) true [(solved, .var kept)] := by
      intro hgrades kept solved h
      obtain h | h := h
      . cases h
        exact .right hgrades hne
      . cases h
        exact .left hgrades.symm hne.symm
    dsimp only
    split
    . next k k' hk hk' =>
      apply ensures_bind (GradeKind.ensures_unify _ _ _)
      intro kind _
      apply ensures_bind (ensures_constrain _)
      intro _ _
      apply ensures_pure
      apply hsolve
      . rw [← hl, ← hr, hk, hk']
        rfl
      . split
        . exact .inr rfl
        . exact .inl rfl
    . apply ensures_bind (ensures_discard (Kind.ensures_unify _ _ _))
      intro _ hkind
      apply ensures_pure
      apply hsolve
      . rw [← hl, ← hr, hkind]
      . split
        . exact .inr rfl
        . exact .inl rfl

theorem ensures_var {x : String} {ty left : Ty}
    : Ensures grades Error.NotEndless (var env pos x ty left)
        (fun u => u.agree = true ∧ u.subst = [(x, ty)] ∧ ty.isIndex grades = grades x) := by
  unfold var
  apply ensures_bind (ensures_typeVar _ _)
  intro v hv
  apply ensures_bind (Ty.ensures_inferKind _ _)
  intro tyKind hty
  dsimp only
  split
  . next _ _ k k' hk =>
    apply ensures_bind (GradeKind.ensures_unify _ _ _)
    intro kind _
    split
    . next grade hgrade =>
      apply ensures_bind (ensures_constrain _)
      intro _ _
      apply ensures_pure
      refine ⟨rfl, rfl, ?_⟩
      rw [← hv, hk, hty.2 (Option.isSome_of_eq_some hgrade) rfl]
      rfl
    . apply ensures_fail_bind
      rfl
  . next tyKind _ _ hkinds =>
    split
    . apply ensures_fail_bind
      rfl
    . apply ensures_bind (ensures_discard (Kind.ensures_unify _ _ _))
      intro _ hkind
      apply ensures_pure
      refine ⟨rfl, rfl, ?_⟩
      -- If one of the kinds were that of grades, the other one would be as well.
      have hv' : v.kind.gradeKind?.isSome = false := by
        cases hk : v.kind with
        | grade k =>
          rw [hk] at hkind
          cases htyKind : tyKind with
          | grade k' => exact (hkinds k k' hk htyKind).elim
          | _ =>
            rw [htyKind] at hkind
            cases hkind
        | _ => rfl
      rw [← hv, hv', Bool.eq_false_iff]
      intro hindex
      have hkind' := hty.1 hindex
      rw [← hkind, hv'] at hkind'
      cases hkind'

theorem ensures_indices {left right : Ty}
    : Ensures grades Error.NotEndless (indices env pos left right) (fun u => Compared grades left right u.agree u.subst) := by
  unfold indices
  apply ensures_bind (Ty.ensures_inferKind _ _)
  intro leftKind hleft
  apply ensures_bind (Ty.ensures_inferKind _ _)
  intro rightKind hright
  split
  . next k k' g g' hg hg' =>
    apply ensures_bind (GradeKind.ensures_unify _ _ _)
    intro kind _
    apply ensures_bind (ensures_constrain _)
    intro _ _
    apply ensures_pure
    exact .index (hleft.2 (Option.isSome_of_eq_some hg) rfl) (hright.2 (Option.isSome_of_eq_some hg') rfl)
  . exact ensures_fail rfl

theorem ensures_merge {equal : Ty → Ty → CheckM Unified} (hequal : ∀ l r, Ensures grades (fun _ => True) (equal l r) (fun _ => True))
    {σ τ : Substitution} (hτ : τ.domain.Nodup)
    : Ensures grades (fun _ => True) (merge equal pos σ τ) (· = σ.union τ) := by
  fun_induction merge equal pos σ τ with
  | case1 σ =>
    apply ensures_pure
    simp [Substitution.union]
  | case2 σ name ty τ hlookup ih =>
    unfold Substitution.domain at hτ
    rw [List.map_cons, List.nodup_cons] at hτ
    refine (ih hτ.2).imp ?_
    rintro ρ rfl
    exact (Substitution.union_cons_of_not_mem (Substitution.lookup_eq_none_iff.mp hlookup) hτ.1).symm
  | case3 σ name ty τ known hlookup ih =>
    unfold Substitution.domain at hτ
    rw [List.map_cons, List.nodup_cons] at hτ
    have hname : name ∈ σ.domain := Substitution.mem_domain_of_mem (Substitution.mem_of_lookup hlookup)
    apply ensures_bind (hequal _ _)
    intro unified _
    split
    . rw [Substitution.union_cons_of_mem hname]
      exact ih hτ.2
    . exact ensures_fail trivial

theorem ensures_relate (env : Env) (pos depth : Nat) (relation : Relation) (left right : Ty)
    : Ensures grades (fun _ => True) (relate env pos depth relation left right)
        (fun u => Compared grades left right u.agree u.subst) := by
  induction depth generalizing relation left right with
  | zero =>
    unfold relate
    exact ensures_fail trivial
  | succ depth ih =>
    have hmerge : ∀ {l r : Ty} {agree : Bool} {σ τ : Substitution}, Compared grades l r agree τ →
        Ensures grades (fun _ => True) (merge (relate env pos depth .eq) pos σ τ) (· = σ.union τ) := by
      intro l r agree σ τ h
      exact ensures_merge (fun l r => (ih .eq l r).imp (fun _ _ => trivial)) h.nodup
    have hpair : ∀ a b a' b', Ensures grades (fun _ => True) (relate.relatePair env pos depth relation a b a' b') (fun r =>
        Compared grades a a' r.1.agree r.1.subst ∧
        Compared grades (b.substitute r.1.subst) (b'.substitute r.1.subst) r.2.1.agree r.2.1.subst ∧
        r.2.2 = r.1.subst.union r.2.1.subst) := by
      intro a b a' b'
      unfold relate.relatePair
      apply ensures_bind (ih _ _ _)
      intro first hfirst
      apply ensures_bind (ih _ _ _)
      intro second hsecond
      apply ensures_bind (hmerge hsecond)
      rintro _ rfl
      exact ensures_pure ⟨hfirst, hsecond, rfl⟩
    unfold relate
    split
    . next arg result arg' result' =>
      apply ensures_bind (ih _ _ _)
      intro args hargs
      apply ensures_bind (ih _ _ _)
      intro results hresults
      apply ensures_bind (hmerge hresults)
      rintro _ rfl
      exact ensures_pure (.arrow hargs hresults)
    . next n n' => exact ensures_pure (.const n n')
    . next effects ty effects' ty' =>
      apply ensures_bind (ih _ _ _)
      intro inner hinner
      split
      . next hinitial => exact ensures_pure (.diamond (List.isPrefixOf_iff_prefix.mp hinitial) hinner)
      . exact ensures_fail trivial
    . next grade ty grade' ty' =>
      apply ensures_bind (Grade.ensures_inferKind _ _).anyError
      intro k _
      apply ensures_bind (Grade.ensures_inferKind _ _).anyError
      intro k' _
      apply ensures_bind (GradeKind.ensures_unify _ _ _).anyError
      intro kind _
      apply ensures_bind (ensures_constrain _)
      intro _ _
      apply ensures_bind (ih _ _ _)
      intro inner hinner
      exact ensures_pure (.box hinner)
    . next a b a' b' =>
      apply ensures_bind (hpair _ _ _ _)
      rintro ⟨first, second, subst⟩ ⟨hfirst, hsecond, hsubst⟩
      rw [show subst = first.subst.union second.subst from hsubst]
      exact ensures_pure (.app hfirst hsecond)
    . next a b a' b' =>
      apply ensures_bind (hpair _ _ _ _)
      rintro ⟨first, second, subst⟩ ⟨hfirst, hsecond, hsubst⟩
      rw [show subst = first.subst.union second.subst from hsubst]
      exact ensures_pure (.pair hfirst hsecond)
    . next x y =>
      split
      . next hxy =>
        apply ensures_bind (ensures_discard ((ensures_typeVar _ _).imp (fun _ _ => trivial)).anyError)
        intro _ _
        apply ensures_pure
        rw [hxy]
        exact .same y
      . next hxy => exact (ensures_vars hxy).anyError
    . next x hright =>
      refine ensures_var.anyError.imp ?_
      rintro ⟨_, _, _⟩ ⟨rfl, rfl, hkind⟩
      exact .left hkind (fun h => hright x h)
    . next x hleft =>
      refine ensures_var.anyError.imp ?_
      rintro ⟨_, _, _⟩ ⟨rfl, rfl, hkind⟩
      exact .right hkind (fun h => hleft x h)
    . exact ensures_indices.anyError

theorem compared_of_relate {env : Env} {pos depth : Nat} {relation : Relation} {left right : Ty} {u : Unified}
    {s s' : State} (h : relate env pos depth relation left right s = .ok u s')
    : Compared s.isGradeVar left right u.agree u.subst ∧ s'.typeVars = s.typeVars :=
  (ensures_relate env pos depth relation left right rfl).1 u s' h

end Unify
end GradedModal
