import GradedModal.Typing.Check
import GradedModal.Proofs.Run

/-!
This module contains the states that checking reaches. Whatever a check does to the state is composed of
a few steps, so an invariant of these steps is an invariant of checking.
-/

namespace GradedModal

open CheckM

/--
A state is reached from another by fresh names, new variables, kinds that become known, new constraints,
and implications whose parts are collected in the same way.
-/
inductive State.Reaches : State → State → Prop where
  | refl {s : State} : s.Reaches s
  | freshName {s s₁ s₂ : State} {hint name : String} :
    s.Reaches s₁ → freshName hint s₁ = .ok name s₂ → s.Reaches s₂
  | freshTypeVar {s s₁ s₂ : State} {hint name : String} {kind : Kind} {quantifier : Quantifier} :
    s.Reaches s₁ → freshTypeVar hint kind quantifier s₁ = .ok name s₂ → s.Reaches s₂
  | bindGradeKind {s s₁ s₂ : State} {name : String} {k l : GradeKind} :
    s.Reaches s₁ → s₁.resolve k = .var name → s₁.resolve l ≠ .var name →
      bindGradeKind name (s₁.resolve l) s₁ = .ok () s₂ → s.Reaches s₂
  | constrain {s s₁ s₂ : State} {c : Constraint} :
    s.Reaches s₁ → constrain c s₁ = .ok () s₂ → s.Reaches s₂
  | imply {s s₁ s₂ s₃ s₄ s₅ s₆ : State} {bound : List (String × Kind)} :
    s.Reaches s₁ → openScope s₁ = .ok () s₂ → s₂.Reaches s₃ → enterConsequent s₃ = .ok () s₄ →
      s₄.Reaches s₅ → closeScope bound s₅ = .ok () s₆ → s.Reaches s₆

theorem State.Reaches.trans {s s₁ s₂ : State} (h₁ : s.Reaches s₁) (h₂ : s₁.Reaches s₂)
    : s.Reaches s₂ := by
  induction h₂ with
  | refl => exact h₁
  | freshName _ h ih => exact .freshName (ih h₁) h
  | freshTypeVar _ h ih => exact .freshTypeVar (ih h₁) h
  | bindGradeKind _ hk hl h ih => exact .bindGradeKind (ih h₁) hk hl h
  | constrain _ h ih => exact .constrain (ih h₁) h
  | imply _ hopen h₂ henter h₃ hclose ih _ _ => exact .imply (ih h₁) hopen h₂ henter h₃ hclose

/--
A state is visited from another by single steps. Unlike what is reached, implications may be open.
-/
inductive State.Visits (s : State) : State → Prop where
  | start : s.Visits s
  | freshName {t t' : State} {hint name : String} :
    s.Visits t → freshName hint t = .ok name t' → s.Visits t'
  | freshTypeVar {t t' : State} {hint name : String} {kind : Kind} {quantifier : Quantifier} :
    s.Visits t → freshTypeVar hint kind quantifier t = .ok name t' → s.Visits t'
  | bindGradeKind {t t' : State} {name : String} {kind : GradeKind} :
    s.Visits t → bindGradeKind name kind t = .ok () t' → s.Visits t'
  | constrain {t t' : State} {c : Constraint} :
    s.Visits t → constrain c t = .ok () t' → s.Visits t'
  | openScope {t t' : State} :
    s.Visits t → openScope t = .ok () t' → s.Visits t'
  | enterConsequent {t t' : State} :
    s.Visits t → enterConsequent t = .ok () t' → s.Visits t'
  | closeScope {t t' : State} {bound : List (String × Kind)} :
    s.Visits t → closeScope bound t = .ok () t' → s.Visits t'

namespace State

theorem add_typeVars (s : State) (p : Predicate) : (s.add p).typeVars = s.typeVars := by
  unfold add
  cases s.scopes with
  | nil => rfl
  | cons scope scopes => rfl

theorem add_kinds (s : State) (p : Predicate) : (s.add p).kinds = s.kinds := by
  unfold add
  cases s.scopes with
  | nil => rfl
  | cons scope scopes => rfl

theorem add_nextFresh (s : State) (p : Predicate) : (s.add p).nextFresh = s.nextFresh := by
  unfold add
  cases s.scopes with
  | nil => rfl
  | cons scope scopes => rfl

theorem enterConsequent_eq_ok {s s' : State} (h : enterConsequent s = .ok () s')
    : s'.typeVars = s.typeVars ∧ s'.kinds = s.kinds ∧ s'.nextFresh = s.nextFresh := by
  unfold enterConsequent at h
  rw [modify_eq_ok] at h
  rw [← h]
  cases s.scopes with
  | nil | cons scope scopes => exact ⟨rfl, rfl, rfl⟩

theorem closeScope_eq_ok {s s' : State} {bound : List (String × Kind)} (h : closeScope bound s = .ok () s')
    : s'.typeVars = s.typeVars ∧ s'.kinds = s.kinds ∧ s'.nextFresh = s.nextFresh := by
  unfold closeScope at h
  rw [modify_eq_ok] at h
  rw [← h]
  cases s.scopes with
  | nil => exact ⟨rfl, rfl, rfl⟩
  | cons scope scopes => exact ⟨add_typeVars _ _, add_kinds _ _, add_nextFresh _ _⟩

theorem Visits.trans {s s₁ s₂ : State} (h₁ : s.Visits s₁) (h₂ : s₁.Visits s₂) : s.Visits s₂ := by
  induction h₂ with
  | start => exact h₁
  | freshName _ h ih => exact .freshName ih h
  | freshTypeVar _ h ih => exact .freshTypeVar ih h
  | bindGradeKind _ h ih => exact .bindGradeKind ih h
  | constrain _ h ih => exact .constrain ih h
  | openScope _ h ih => exact .openScope ih h
  | enterConsequent _ h ih => exact .enterConsequent ih h
  | closeScope _ h ih => exact .closeScope ih h

theorem Reaches.visits {s s' : State} (h : s.Reaches s') : s.Visits s' := by
  induction h with
  | refl => exact .start
  | freshName _ h ih => exact .freshName ih h
  | freshTypeVar _ h ih => exact .freshTypeVar ih h
  | bindGradeKind _ _ _ h ih => exact .bindGradeKind ih h
  | constrain _ h ih => exact .constrain ih h
  | imply _ hopen _ henter _ hclose ih ihantecedent ihconsequent =>
    have hantecedent := (Visits.openScope ih hopen).trans ihantecedent
    exact .closeScope ((Visits.enterConsequent hantecedent henter).trans ihconsequent) hclose

/--
What every step of checking keeps, as far as variables and the supply of names are concerned, checking keeps.
-/
theorem Visits.induct {motive : State → Prop} {s s' : State} (h : s.Visits s') (hs : motive s)
    (congr : ∀ t t', t'.typeVars = t.typeVars → t'.nextFresh = t.nextFresh → motive t → motive t')
    (freshName : ∀ t, motive t → motive { t with nextFresh := t.nextFresh + 1 })
    (freshTypeVar : ∀ t hint kind quantifier, motive t → motive { t with
      typeVars := ⟨hint ++ "." ++ toString t.nextFresh, kind, quantifier⟩ :: t.typeVars
      nextFresh := t.nextFresh + 1 })
    : motive s' := by
  induction h with
  | start => exact hs
  | freshName _ h ih =>
    cases h
    exact freshName _ ih
  | freshTypeVar _ h ih =>
    cases h
    exact freshTypeVar _ _ _ _ ih
  | @bindGradeKind t _ _ _ _ h ih | @openScope t _ _ h ih =>
    cases h
    exact congr t _ rfl rfl ih
  | constrain _ h ih =>
    cases h
    exact congr _ _ (add_typeVars _ _) (add_nextFresh _ _) ih
  | enterConsequent _ h ih =>
    obtain ⟨htypeVars, _, hnextFresh⟩ := enterConsequent_eq_ok h
    exact congr _ _ htypeVars hnextFresh ih
  | closeScope _ h ih =>
    obtain ⟨htypeVars, _, hnextFresh⟩ := closeScope_eq_ok h
    exact congr _ _ htypeVars hnextFresh ih

theorem Reaches.mem_typeVars {s s' : State} {v : TypeVar} (h : s.Reaches s') (hv : v ∈ s.typeVars)
    : v ∈ s'.typeVars := by
  apply h.visits.induct (motive := fun t => v ∈ t.typeVars) hv
  . intro t t' htypeVars _ hv
    rw [htypeVars]
    exact hv
  . intro t hv
    exact hv
  . intro t hint kind quantifier hv
    exact List.mem_cons_of_mem _ hv

end State

instance : Std.Refl State.Reaches where
  refl _ := .refl

instance : Trans State.Reaches State.Reaches State.Reaches where
  trans := .trans

structure State.ReachesQuietly (s s' : State) : Prop where
  reaches : s.Reaches s'
  predicate : s'.predicate = s.predicate
  scopes : s'.scopes = s.scopes

instance : Std.Refl State.ReachesQuietly where
  refl _ := ⟨.refl, rfl, rfl⟩

instance : Trans State.ReachesQuietly State.ReachesQuietly State.ReachesQuietly where
  trans h₁ h₂ := ⟨h₁.reaches.trans h₂.reaches, h₂.predicate.trans h₁.predicate, h₂.scopes.trans h₁.scopes⟩

def CheckM.Along {α : Type} (R : State → State → Prop) (x : CheckM α) : Prop :=
  ∀ ⦃s s' : State⦄ ⦃a : α⦄, x s = .ok a s' → R s s'

abbrev CheckM.Reaching {α : Type} (x : CheckM α) : Prop :=
  Along State.Reaches x

abbrev CheckM.Quiet {α : Type} (x : CheckM α) : Prop :=
  Along State.ReachesQuietly x

namespace CheckM

/--
A property of checks that composed checks have if their parts do.
-/
structure Closed (P : (α : Type) → CheckM α → Prop) : Prop where
  pure {α : Type} (a : α) : P α (pure a)
  throw {α : Type} (e : Error) : P α (throw e)
  get : P State get
  bind {α β : Type} {x : CheckM α} {f : α → CheckM β} : P α x → (∀ a, P β (f a)) → P β (x >>= f)
  mapError {α : Type} {f : Error → Error} {x : CheckM α} : P α x → P α (mapError f x)
  attempt {α : Type} {x : CheckM α} : P α x → P (Except Error α) (attempt x)
  dryRun {α : Type} {x : CheckM α} : P α x → P α (dryRun x)

/--
In addition, checks have the property that make up names or learn about kinds.
-/
structure ClosedQuietly (P : (α : Type) → CheckM α → Prop) : Prop extends Closed P where
  freshName (hint : String) : P String (freshName hint)
  freshTypeVar (hint : String) (kind : Kind) (quantifier : Quantifier) : P String (freshTypeVar hint kind quantifier)
  unify (pos : Nat) (expected actual : GradeKind) : P GradeKind (GradeKind.unify pos expected actual)

variable {α β : Type} {P : (α : Type) → CheckM α → Prop} {R : State → State → Prop}

namespace Closed

variable (hP : Closed P)
include hP

theorem fail (pos : Nat) (cause : Cause) : P α (fail pos cause) :=
  hP.throw _

theorem map {x : CheckM α} {f : α → β} (hx : P α x) : P β (f <$> x) := by
  rw [← bind_pure_comp]
  exact hP.bind hx fun _ => hP.pure _

omit hP in
theorem ite {p : Prop} [Decidable p] {x y : CheckM α} (hx : P α x) (hy : P α y) : P α (if p then x else y) := by
  split
  . exact hx
  . exact hy

theorem guard {p : Prop} [Decidable p] {pos : Nat} {cause : Cause} {f : PUnit → CheckM α} (hf : P α (f ()))
    : P α (if p then CheckM.fail pos cause >>= f else f ()) :=
  ite (hP.bind (hP.fail _ _) fun _ => hf) hf

theorem forM {l : List α} {f : α → CheckM PUnit} (hf : ∀ a, P PUnit (f a)) : P PUnit (l.forM f) := by
  rw [List.forM_eq_forM]
  induction l with
  | nil => exact hP.pure _
  | cons a l ih =>
    rw [List.forM_cons]
    exact hP.bind (hf a) fun _ => ih

theorem mapM {l : List α} {f : α → CheckM β} (hf : ∀ a, P β (f a)) : P (List β) (l.mapM f) := by
  induction l with
  | nil => exact hP.pure _
  | cons a l ih =>
    rw [List.mapM_cons]
    exact hP.bind (hf a) fun _ => hP.bind ih fun _ => hP.pure _

theorem filterMapM {l : List α} {f : α → CheckM (Option β)} (hf : ∀ a, P (Option β) (f a))
    : P (List β) (l.filterMapM f) := by
  induction l with
  | nil => exact hP.pure _
  | cons a l ih =>
    rw [List.filterMapM_cons]
    apply hP.bind (hf a)
    intro b
    cases b with
    | none => exact ih
    | some b => exact hP.bind ih fun _ => hP.pure _

theorem foldlM {l : List α} {f : β → α → CheckM β} {b : β} (hf : ∀ b a, P β (f b a)) : P β (l.foldlM f b) := by
  induction l generalizing b with
  | nil => exact hP.pure _
  | cons a l ih =>
    rw [List.foldlM_cons]
    exact hP.bind (hf b a) fun _ => ih

theorem resolve (kind : GradeKind) : P GradeKind (resolve kind) :=
  hP.bind hP.get fun _ => hP.pure _

theorem typeVar (pos : Nat) (name : String) : P TypeVar (typeVar pos name) := by
  unfold CheckM.typeVar
  apply hP.bind hP.get
  intro s
  split
  . exact hP.pure _
  . exact hP.fail _ _

end Closed

theorem ClosedQuietly.freshGrade (hP : ClosedQuietly P) (hint : String) (kind : GradeKind)
    : P Grade (freshGrade hint kind) :=
  hP.bind (hP.freshTypeVar _ _ _) fun _ => hP.pure _

theorem ClosedQuietly.freshGradeKind (hP : ClosedQuietly P) (hint : String) : P GradeKind (freshGradeKind hint) :=
  hP.bind (hP.freshName _) fun _ => hP.pure _

theorem closed_along [Std.Refl R] [Trans R R R] : Closed (fun _ => Along R) where
  pure a := by
    intro s s' b h
    rw [pure_eq_ok] at h
    rw [h.2]
    exact Std.Refl.refl _
  throw e := by
    intro s s' a h
    rw [throw_eq_ok] at h
    exact h.elim
  get := by
    intro s s' t h
    rw [get_eq_ok] at h
    rw [h.2]
    exact Std.Refl.refl _
  bind := by
    intro α β x f hx hf s s' b h
    rw [bind_eq_ok] at h
    obtain ⟨a, s₁, hxs, hfs⟩ := h
    exact Trans.trans (hx hxs) (hf a hfs)
  mapError := by
    intro α f x hx s s' a h
    rw [mapError_eq_ok] at h
    exact hx h
  attempt := by
    intro α x hx s s' r h
    cases r with
    | ok a => exact hx (attempt_eq_ok.mp h)
    | error e =>
      rw [eq_of_attempt_error h]
      exact Std.Refl.refl _
  dryRun := by
    intro α x _ s s' a h
    unfold CheckM.dryRun at h
    split at h
    . cases h
      exact Std.Refl.refl _
    . cases h

theorem Quiet.reaching {x : CheckM α} (hx : Quiet x) : Reaching x :=
  fun _ _ _ h => (hx h).reaches

theorem quiet_freshName (hint : String) : Quiet (freshName hint) := by
  intro s s' name h
  have hs' := State.Reaches.freshName .refl h
  cases h
  exact ⟨hs', rfl, rfl⟩

theorem quiet_freshTypeVar (hint : String) (kind : Kind) (quantifier : Quantifier)
    : Quiet (freshTypeVar hint kind quantifier) := by
  intro s s' name h
  have hs' := State.Reaches.freshTypeVar .refl h
  cases h
  exact ⟨hs', rfl, rfl⟩

theorem reaching_constrain (c : Constraint) : Reaching (constrain c) :=
  fun _ _ _ => .constrain .refl

theorem resolve_eq_ok {s s' : State} {kind kind' : GradeKind}
    : resolve kind s = .ok kind' s' ↔ s.resolve kind = kind' ∧ s = s' := by
  unfold resolve
  rw [bind_eq_ok]
  constructor
  . rintro ⟨t, s₁, ht, h⟩
    rw [get_eq_ok] at ht
    rw [pure_eq_ok] at h
    obtain ⟨rfl, rfl⟩ := ht
    exact h
  . rintro ⟨rfl, rfl⟩
    exact ⟨s, s, rfl, rfl⟩

end CheckM

def State.learn (s : State) (name : String) (kind : GradeKind) : State :=
  { s with kinds := (name, kind) :: s.kinds }

theorem State.ReachesQuietly.learn {s : State} {name : String} {k l : GradeKind} (hk : s.resolve k = .var name)
    (hl : s.resolve l ≠ .var name) : s.ReachesQuietly (s.learn name (s.resolve l)) :=
  ⟨.bindGradeKind .refl hk hl rfl, rfl, rfl⟩

namespace GradeKind

/--
What unifying two kinds comes to. Only a kind that is not determined is bound, and only to what the other one is.
-/
inductive Unifies (pos : Nat) (s : State) (k l : GradeKind) : EStateM.Result Error State GradeKind → Prop where
  | same (h : s.resolve k = s.resolve l) : Unifies pos s k l (.ok (s.resolve k) s)
  | left {name : String} (hk : s.resolve k = .var name) (hl : s.resolve l ≠ .var name) :
    Unifies pos s k l (.ok (s.resolve l) (s.learn name (s.resolve l)))
  | right {name : String} (hk : ∀ x, s.resolve k ≠ .var x) (hl : s.resolve l = .var name) :
    Unifies pos s k l (.ok (s.resolve k) (s.learn name (s.resolve k)))
  | clash (hk : ∀ x, s.resolve k ≠ .var x) (hl : ∀ x, s.resolve l ≠ .var x) (hne : s.resolve k ≠ s.resolve l) :
    Unifies pos s k l (.error (.ofCause pos (.gradeKindMismatch (s.resolve k) (s.resolve l))) s)

theorem unifies_unify (pos : Nat) (s : State) (k l : GradeKind) : Unifies pos s k l (GradeKind.unify pos k l s) := by
  have hresolve : ∀ {k}, resolve k s = .ok (s.resolve k) s := resolve_eq_ok.mpr ⟨rfl, rfl⟩
  unfold GradeKind.unify
  rw [bind_of_ok hresolve, bind_of_ok hresolve]
  by_cases heq : s.resolve k = s.resolve l
  . rw [if_pos heq]
    exact .same heq
  . rw [if_neg heq]
    generalize hk : s.resolve k = k' at heq ⊢
    generalize hl : s.resolve l = l' at heq ⊢
    split
    . subst hl
      exact .left hk fun h => heq h.symm
    . next hvar =>
      subst hk
      exact .right hvar hl
    . next hk' hl' =>
      subst hk hl
      exact .clash hk' hl' heq

theorem unify_eq_ok {pos : Nat} {s s' : State} {k l kind : GradeKind} (h : GradeKind.unify pos k l s = .ok kind s')
    : Unifies pos s k l (.ok kind s') :=
  h ▸ unifies_unify pos s k l

theorem unify_of_resolve_eq {pos : Nat} {s : State} {k l : GradeKind} (h : s.resolve k = s.resolve l)
    : GradeKind.unify pos k l s = .ok (s.resolve k) s := by
  have hunify := unifies_unify pos s k l
  generalize GradeKind.unify pos k l s = r at hunify ⊢
  cases hunify with
  | same => rfl
  | left hk hl => exact absurd (h.symm.trans hk) hl
  | right hk hl => exact absurd (h.trans hl) (hk _)
  | clash _ _ hne => exact absurd h hne

theorem unify_quiet (pos : Nat) (k l : GradeKind) : Quiet (GradeKind.unify pos k l) := by
  intro s s' kind h
  cases unify_eq_ok h with
  | same => exact Std.Refl.refl _
  | left hk hl => exact .learn hk hl
  | right hk hl => exact .learn hl (hk _)

end GradeKind

section

variable {P : (α : Type) → CheckM α → Prop} (hP : ClosedQuietly P)
include hP

theorem Grade.inferKind_closed (pos : Nat) (g : Grade) : P GradeKind (g.inferKind pos) := by
  induction g with
  | var name =>
    unfold Grade.inferKind
    apply hP.bind (hP.typeVar _ _)
    intro v
    split
    . exact hP.resolve _
    . exact hP.fail _ _
  | nat n | float x | level l => exact hP.pure _
  | zero kind | one kind => exact hP.resolve _
  | op o a b iha ihb =>
    unfold Grade.inferKind
    exact hP.bind iha fun _ => hP.bind ihb fun _ => hP.unify _ _ _

theorem Kind.unify_closed (pos : Nat) (k l : Kind) : P Kind (Kind.unify pos k l) := by
  fun_induction Kind.unify pos k l with
  | case1 a b => exact hP.bind (hP.unify _ _ _) fun _ => hP.pure _
  | case2 a b a' b' iha ihb => exact hP.bind iha fun _ => hP.bind ihb fun _ => hP.pure _
  | case3 => exact hP.pure _
  | case4 => exact hP.fail _ _

theorem Kind.discard_unify_closed (pos : Nat) (k l : Kind) : P PUnit (discard (Kind.unify pos k l)) :=
  hP.map (Kind.unify_closed hP _ _ _)

theorem Ty.inferKind_closed (env : Env) (pos : Nat) (ty : Ty) : P Kind (ty.inferKind env pos) := by
  have hdiscard := Kind.discard_unify_closed hP pos
  induction ty with
  | const n =>
    unfold inferKind
    split
    . exact hP.pure _
    . exact hP.fail _ _
  | var name => exact hP.bind (hP.typeVar _ _) fun _ => hP.pure _
  | index n => exact hP.pure _
  | op o a b iha ihb =>
    unfold inferKind
    apply hP.bind iha
    intro left
    apply hP.bind ihb
    intro right
    split
    . exact hP.bind (hP.unify _ _ _) fun _ => hP.pure _
    . exact hP.fail _ _
    . exact hP.fail _ _
  | arrow a b iha ihb | pair a b iha ihb =>
    unfold inferKind
    apply hP.bind iha
    intro left
    apply hP.bind (hdiscard _ _)
    intro _
    apply hP.bind ihb
    intro right
    exact hP.bind (hdiscard _ _) fun _ => hP.pure _
  | box grade ty ih =>
    unfold inferKind
    apply hP.bind (hP.map (Grade.inferKind_closed hP _ _))
    intro _
    apply hP.bind ih
    intro kind
    exact hP.bind (hdiscard _ _) fun _ => hP.pure _
  | diamond effects ty ih =>
    unfold inferKind
    apply hP.bind ih
    intro kind
    exact hP.bind (hdiscard _ _) fun _ => hP.pure _
  | app a b iha ihb =>
    unfold inferKind
    apply hP.bind iha
    intro function
    apply hP.bind ihb
    intro arg
    split
    . exact hP.bind (hdiscard _ _) fun _ => hP.pure _
    . exact hP.fail _ _

namespace Context

theorem extend_closed (pos : Nat) (c : Context) (x : String) (a : Assumption) : P Context (c.extend pos x a) := by
  have hadd : ∀ known, P Assumption (addUses pos x known a) := by
    intro known
    unfold addUses
    split
    . exact hP.fail _ _
    . exact hP.pure _
    . exact hP.bind (Grade.inferKind_closed hP _ _) fun _ => hP.pure _
    . exact hP.bind (Grade.inferKind_closed hP _ _) fun _ => hP.pure _
  unfold extend
  split
  . exact hP.pure _
  . dsimp only
    exact hP.guard (hP.bind (hadd _) fun _ => hP.pure _)

theorem combine_closed (pos : Nat) (left right : Context) : P Context (combine pos left right) :=
  hP.foldlM fun _ _ => extend_closed hP _ _ _ _

theorem commonKind_closed (pos : Nat) (g h : Grade) : P GradeKind (commonKind pos g h) := by
  unfold commonKind
  apply hP.bind (Grade.inferKind_closed hP _ _)
  intro k
  exact hP.bind (Grade.inferKind_closed hP _ _) fun _ => hP.unify _ _ _

theorem weaken_closed (pos : Nat) (a : Option Assumption) : P (Option Assumption) (weaken pos a) := by
  unfold weaken
  split
  . exact hP.bind (Grade.inferKind_closed hP _ _) fun _ => hP.pure _
  . exact hP.pure _

theorem freshen_closed (pos : Nat) (vars : List String) (c : Context) (demand : Grade)
    : P Context (c.freshen pos vars demand) := by
  unfold freshen
  apply hP.bind (Grade.inferKind_closed hP _ _)
  intro kind
  refine hP.bind (hP.mapM ?_) fun _ => hP.pure _
  intro b
  refine hP.bind ?_ fun _ => hP.pure _
  unfold freshenVar
  split
  . apply hP.bind (Grade.inferKind_closed hP _ _)
    intro k
    apply hP.bind (hP.unify _ _ _)
    intro l
    exact hP.bind (hP.freshGrade _ _) fun _ => hP.pure _
  . exact hP.pure _

end Context

theorem Scheme.refresh_closed (quantifier : Quantifier) (s : Scheme)
    : P (List (String × Kind) × Ty) (s.refresh quantifier) := by
  unfold refresh
  refine hP.bind (hP.mapM ?_) fun _ => hP.pure _
  rintro ⟨name, kind⟩
  exact hP.bind (hP.freshTypeVar _ _ _) fun _ => hP.pure _

theorem Scheme.instantiate_closed (s : Scheme) : P Ty s.instantiate :=
  hP.bind (Scheme.refresh_closed hP _ _) fun _ => hP.pure _

end

theorem CheckM.closedQuietly_quiet : ClosedQuietly (fun _ => Quiet) :=
  ⟨closed_along, quiet_freshName, quiet_freshTypeVar, GradeKind.unify_quiet⟩

theorem CheckM.quiet_typeVar (pos : Nat) (name : String) : Quiet (typeVar pos name) :=
  closed_along.typeVar _ _

theorem CheckM.quiet_freshGrade (hint : String) (kind : GradeKind) : Quiet (freshGrade hint kind) :=
  closedQuietly_quiet.freshGrade _ _

theorem CheckM.reaching_freshGrade (hint : String) (kind : GradeKind) : Reaching (freshGrade hint kind) :=
  (quiet_freshGrade _ _).reaching

theorem CheckM.quiet_freshGradeKind (hint : String) : Quiet (freshGradeKind hint) :=
  closedQuietly_quiet.freshGradeKind _

theorem CheckM.reaching_freshGradeKind (hint : String) : Reaching (freshGradeKind hint) :=
  (quiet_freshGradeKind _).reaching

theorem Grade.inferKind_quiet (pos : Nat) (g : Grade) : Quiet (g.inferKind pos) :=
  inferKind_closed closedQuietly_quiet _ _

theorem Kind.unify_quiet (pos : Nat) (k l : Kind) : Quiet (Kind.unify pos k l) :=
  unify_closed closedQuietly_quiet _ _ _

theorem Ty.inferKind_quiet (env : Env) (pos : Nat) (ty : Ty) : Quiet (ty.inferKind env pos) :=
  inferKind_closed closedQuietly_quiet _ _ _

namespace Context

theorem combine_reaching (pos : Nat) (left right : Context) : Reaching (combine pos left right) :=
  (show Quiet _ from combine_closed closedQuietly_quiet _ _ _).reaching

theorem commonKind_quiet (pos : Nat) (g h : Grade) : Quiet (commonKind pos g h) :=
  commonKind_closed closedQuietly_quiet _ _ _

theorem commonKind_reaching (pos : Nat) (g h : Grade) : Reaching (commonKind pos g h) :=
  (commonKind_quiet _ _ _).reaching

theorem weaken_quiet (pos : Nat) (a : Option Assumption) : Quiet (weaken pos a) :=
  weaken_closed closedQuietly_quiet _ _

theorem freshen_reaching (pos : Nat) (vars : List String) (c : Context) (demand : Grade)
    : Reaching (c.freshen pos vars demand) :=
  (show Quiet _ from freshen_closed closedQuietly_quiet _ _ _ _).reaching

end Context

namespace Scheme

theorem refresh_quiet (quantifier : Quantifier) (s : Scheme) : Quiet (s.refresh quantifier) :=
  refresh_closed closedQuietly_quiet _ _

theorem exists_mapM_freshTypeVar (quantifier : Quantifier) (vars : List (String × Kind)) (s : State)
    : ∃ fresh s',
        (vars.mapM fun (name, kind) => do return (name, ← freshTypeVar name kind quantifier, kind) : CheckM _) s
          = .ok fresh s' ∧
        s'.typeVars = (fresh.map fun f => ⟨f.2.1, f.2.2, quantifier⟩).reverse ++ s.typeVars := by
  induction vars generalizing s with
  | nil => exact ⟨[], s, rfl, rfl⟩
  | cons v vars ih =>
    obtain ⟨rest, s', hrest, htypeVars⟩ := ih { s with
      typeVars := ⟨v.1 ++ "." ++ toString s.nextFresh, v.2, quantifier⟩ :: s.typeVars
      nextFresh := s.nextFresh + 1 }
    refine ⟨(v.1, v.1 ++ "." ++ toString s.nextFresh, v.2) :: rest, s', ?_, ?_⟩
    . rw [List.mapM_cons]
      refine (bind_of_ok rfl).trans ?_
      rw [bind_of_ok hrest]
      rfl
    . rw [htypeVars, List.map_cons, List.reverse_cons, List.append_assoc]
      rfl

theorem exists_refresh (quantifier : Quantifier) (scheme : Scheme) (s : State)
    : ∃ r s', scheme.refresh quantifier s = .ok r s' ∧
        s'.typeVars = (r.1.map fun b => ⟨b.1, b.2, quantifier⟩).reverse ++ s.typeVars := by
  obtain ⟨fresh, s', hfresh, htypeVars⟩ := exists_mapM_freshTypeVar quantifier scheme.vars s
  unfold refresh
  rw [bind_of_ok hfresh]
  refine ⟨_, _, rfl, ?_⟩
  rw [htypeVars, List.map_map]
  rfl

end Scheme

end GradedModal
