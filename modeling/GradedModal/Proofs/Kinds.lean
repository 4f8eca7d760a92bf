import GradedModal.Proofs.Indices
import GradedModal.Proofs.Reaches

/-!
This module follows what checking learns about kinds. What is known about kinds has no cycles, so resolving a kind goes
as far as possible, and two kinds that are found to be the same stay the same. A grade whose kind was inferred therefore
has it in every later state.
-/

namespace GradedModal

open CheckM

namespace State

variable {s s' : State} {name : String} {kind k l : GradeKind}

/--
A kind about which nothing more is known.
-/
def IsResolved (s : State) (kind : GradeKind) : Prop :=
  ∀ name, kind = .var name → s.kinds.lookup name = none

/--
No chain of kinds is longer than what is known, so that resolving a kind never stops half way.
-/
def IsAcyclic (s : State) : Prop :=
  ∀ kind, s.IsResolved (s.resolve kind)

theorem IsResolved.go_eq (h : s.IsResolved kind) (n : Nat) : resolve.go s n kind = kind := by
  cases kind with
  | var name =>
    cases n with
    | zero => rfl
    | succ n => rw [resolve.go, h name rfl]
  | _ => cases n <;> rfl

theorem IsResolved.resolve_eq (h : s.IsResolved kind) : s.resolve kind = kind :=
  h.go_eq _

theorem resolve_of_ne_var (h : ∀ name, kind ≠ .var name) (s : State) : s.resolve kind = kind :=
  IsResolved.resolve_eq fun name hname => absurd hname (h name)

theorem settle_of_ne_var (h : ∀ name, kind ≠ .var name) (s : State) : s.settle kind = kind := by
  unfold settle
  rw [s.resolve_of_ne_var h]
  cases kind with
  | var name => exact absurd rfl (h name)
  | _ => rfl

theorem IsAcyclic.resolve_resolve (h : s.IsAcyclic) (kind : GradeKind) : s.resolve (s.resolve kind) = s.resolve kind :=
  (h kind).resolve_eq

theorem go_of_lookup {next : GradeKind} (h : s.kinds.lookup name = some next) (n : Nat)
    : resolve.go s (n + 1) (.var name) = resolve.go s n next := by
  rw [resolve.go, h]

theorem go_congr (hkinds : s'.kinds = s.kinds) (n : Nat) (kind : GradeKind)
    : resolve.go s' n kind = resolve.go s n kind := by
  induction n generalizing kind with
  | zero => cases kind <;> rfl
  | succ n ih =>
    cases kind with
    | var name =>
      rw [resolve.go, resolve.go, hkinds]
      cases s.kinds.lookup name with
      | none => rfl
      | some next => exact ih next
    | _ => rfl

theorem resolve_congr (hkinds : s'.kinds = s.kinds) (kind : GradeKind) : s'.resolve kind = s.resolve kind := by
  unfold resolve
  rw [hkinds]
  exact go_congr hkinds _ _

theorem lookup_learn {x : String} (hne : x ≠ name) (kind : GradeKind)
    : (s.learn name kind).kinds.lookup x = s.kinds.lookup x := by
  simp [learn, List.lookup_cons, beq_eq_false_iff_ne.mpr hne]

theorem IsResolved.learn (h : s.IsResolved k) (hne : k ≠ .var name) (kind : GradeKind)
    : (s.learn name kind).IsResolved k := by
  rintro x rfl
  rw [lookup_learn (fun heq => hne (congrArg _ heq))]
  exact h x rfl

-- What is learned is the last link of a chain, because nothing was known about the variable and nothing is known about
-- what it becomes. So one more step is enough.
theorem go_learn (hname : s.kinds.lookup name = none) (hkind : (s.learn name kind).IsResolved kind) (n : Nat)
    (hk : s.IsResolved (resolve.go s n k))
    : resolve.go (s.learn name kind) (n + 1) k
        = if resolve.go s n k = .var name then kind else resolve.go s n k := by
  have hend : ∀ k m, s.IsResolved k →
      resolve.go (s.learn name kind) (m + 1) k = if k = .var name then kind else k := by
    intro k m hk
    split
    . next heq =>
      rw [heq, resolve.go]
      simp only [State.learn, List.lookup_cons_self]
      exact hkind.go_eq m
    . next hne => exact (hk.learn hne kind).go_eq _
  induction n generalizing k with
  | zero =>
    have hgo : resolve.go s 0 k = k := by cases k <;> rfl
    rw [hgo] at hk ⊢
    exact hend k 0 hk
  | succ n ih =>
    cases k with
    | var x =>
      cases hx : s.kinds.lookup x with
      | none =>
        have hresolved : s.IsResolved (.var x) := by
          rintro _ ⟨⟩
          exact hx
        rw [hresolved.go_eq]
        exact hend _ (n + 1) hresolved
      | some next =>
        have hne : x ≠ name := by
          rintro rfl
          rw [hname] at hx
          cases hx
        have hx' : (s.learn name kind).kinds.lookup x = some next := by rw [lookup_learn hne, hx]
        rw [go_of_lookup hx] at hk ⊢
        rw [go_of_lookup hx']
        exact ih hk
    | _ => exact hend _ (n + 1) nofun

theorem IsAcyclic.resolve_learn (h : s.IsAcyclic) (hname : s.kinds.lookup name = none)
    (hkind : (s.learn name kind).IsResolved kind) (k : GradeKind)
    : (s.learn name kind).resolve k = if s.resolve k = .var name then kind else s.resolve k :=
  go_learn hname hkind _ (h k)

theorem IsAcyclic.learn (h : s.IsAcyclic) (hname : s.kinds.lookup name = none)
    (hkind : (s.learn name kind).IsResolved kind) : (s.learn name kind).IsAcyclic := by
  intro k
  rw [h.resolve_learn hname hkind]
  split
  . exact hkind
  . next hne => exact (h k).learn hne kind

theorem IsAcyclic.resolve_learn_eq (h : s.IsAcyclic) (hk : s.resolve k = .var name) (hl : s.resolve l ≠ .var name)
    : (s.learn name (s.resolve l)).resolve k = s.resolve l ∧ (s.learn name (s.resolve l)).resolve l = s.resolve l := by
  have hlearn := h.resolve_learn (h k name hk) ((h l).learn hl (s.resolve l))
  rw [hlearn, hlearn, if_pos hk, if_neg hl]
  exact ⟨rfl, rfl⟩

theorem Reaches.induct_kinds {motive : State → Prop} (h : s.Reaches s') (hs : motive s)
    (congr : ∀ t t', t'.kinds = t.kinds → motive t → motive t')
    (learn : ∀ t name k l, t.resolve k = .var name → t.resolve l ≠ .var name → motive t →
      motive (t.learn name (t.resolve l)))
    : motive s' := by
  induction h with
  | refl => exact hs
  | @freshName _ s₁ _ _ _ _ h ih | @freshTypeVar _ s₁ _ _ _ _ _ _ h ih =>
    cases h
    exact congr s₁ _ rfl (ih hs)
  | bindGradeKind _ hk hl h ih =>
    cases h
    exact learn _ _ _ _ hk hl (ih hs)
  | constrain _ h ih =>
    cases h
    exact congr _ _ (add_kinds _ _) (ih hs)
  | @imply _ s₁ _ _ _ _ _ _ _ hopen _ henter _ hclose ih ihantecedent ihconsequent =>
    cases hopen
    have hantecedent := ihantecedent (congr s₁ _ rfl (ih hs))
    have hconsequent := ihconsequent (congr _ _ (enterConsequent_eq_ok henter).2.1 hantecedent)
    exact congr _ _ (closeScope_eq_ok hclose).2.1 hconsequent

theorem IsAcyclic.congr (h : s.IsAcyclic) (hkinds : s'.kinds = s.kinds) : s'.IsAcyclic := by
  intro kind name hname
  rw [hkinds]
  rw [resolve_congr hkinds] at hname
  exact h kind name hname

theorem IsAcyclic.of_reaches (h : s.IsAcyclic) (hs' : s.Reaches s') : s'.IsAcyclic := by
  apply hs'.induct_kinds h
  . intro t t' hkinds ht
    exact ht.congr hkinds
  . intro t name k l hk hl ht
    exact ht.learn (ht k name hk) ((ht l).learn hl _)

theorem IsAcyclic.resolve_eq_of_reaches (h : s.IsAcyclic) (hs' : s.Reaches s') (heq : s.resolve k = s.resolve l)
    : s'.resolve k = s'.resolve l := by
  have hboth : s'.IsAcyclic ∧ s'.resolve k = s'.resolve l := by
    apply hs'.induct_kinds (motive := fun t => t.IsAcyclic ∧ t.resolve k = t.resolve l) ⟨h, heq⟩
    . rintro t t' hkinds ⟨ht, heq⟩
      rw [resolve_congr hkinds, resolve_congr hkinds]
      exact ⟨ht.congr hkinds, heq⟩
    . rintro t name k' l' hk' hl' ⟨ht, heq⟩
      have hname := ht k' name hk'
      have hresolved := (ht l').learn hl' (t.resolve l')
      rw [ht.resolve_learn hname hresolved, ht.resolve_learn hname hresolved, heq]
      exact ⟨ht.learn hname hresolved, rfl⟩
  exact hboth.2

end State

/--
The kinds of the literals and units of a grade, as they are written.
-/
def Grade.literalKinds : Grade → List GradeKind
  | .var _ => []
  | .nat _ => [.nat]
  | .float _ => [.float]
  | .level _ => [.level]
  | .zero kind => [kind]
  | .one kind => [kind]
  | .op _ g h => g.literalKinds ++ h.literalKinds

/--
A grade has a kind as far as a state knows: its variables are in scope with this kind, and all else in it has this kind.
-/
structure Grade.IsOfKind (s : State) (kind : GradeKind) (g : Grade) : Prop where
  vars : ∀ x ∈ g.occurrences, ∃ v ∈ s.typeVars, v.name = x ∧ ∃ k, v.kind = .grade k ∧ s.resolve k = s.resolve kind
  literals : ∀ k ∈ g.literalKinds, s.resolve k = s.resolve kind

namespace Grade

variable {s s' : State} {kind k l : GradeKind} {g h : Grade}

theorem isOfKind_var {v : TypeVar} (hv : v ∈ s.typeVars) (hk : v.kind = .grade k) (heq : s.resolve k = s.resolve kind)
    : (var v.name).IsOfKind s kind where
  vars := by
    rintro x hx
    obtain rfl := List.mem_singleton.mp hx
    exact ⟨v, hv, rfl, k, hk, heq⟩
  literals := by simp [literalKinds]

theorem isOfKind_op {o : Op} (hg : g.IsOfKind s kind) (hh : h.IsOfKind s kind) : (op o g h).IsOfKind s kind where
  vars := List.forall_mem_append.mpr ⟨hg.vars, hh.vars⟩
  literals := List.forall_mem_append.mpr ⟨hg.literals, hh.literals⟩

theorem isOfKind_of_literal (hg : g.occurrences = []) (hk : g.literalKinds = [k]) (heq : s.resolve k = s.resolve kind)
    : g.IsOfKind s kind where
  vars := by simp [hg]
  literals := by simpa [hk] using heq

theorem IsOfKind.congr (hg : g.IsOfKind s k) (heq : s.resolve k = s.resolve l) : g.IsOfKind s l where
  vars x hx := by
    obtain ⟨v, hv, hname, k', hk', hresolve⟩ := hg.vars x hx
    exact ⟨v, hv, hname, k', hk', hresolve.trans heq⟩
  literals k' hk' := (hg.literals k' hk').trans heq

theorem IsOfKind.of_eq (hg : g.IsOfKind s kind) (htypeVars : s'.typeVars = s.typeVars) (hkinds : s'.kinds = s.kinds)
    : g.IsOfKind s' kind where
  vars x hx := by
    obtain ⟨v, hv, hname, k, hk, hresolve⟩ := hg.vars x hx
    rw [← htypeVars] at hv
    rw [← State.resolve_congr hkinds, ← State.resolve_congr hkinds] at hresolve
    exact ⟨v, hv, hname, k, hk, hresolve⟩
  literals k hk := by
    rw [State.resolve_congr hkinds, State.resolve_congr hkinds]
    exact hg.literals k hk

theorem IsOfKind.of_reaches (hg : g.IsOfKind s kind) (hs : s.IsAcyclic) (hs' : s.Reaches s') : g.IsOfKind s' kind where
  vars x hx := by
    obtain ⟨v, hv, hname, k, hk, hresolve⟩ := hg.vars x hx
    exact ⟨v, hs'.mem_typeVars hv, hname, k, hk, hs.resolve_eq_of_reaches hs' hresolve⟩
  literals k hk := hs.resolve_eq_of_reaches hs' (hg.literals k hk)

end Grade

def Constraint.IsKinded (s : State) (c : Constraint) : Prop :=
  c.left.IsOfKind s c.kind ∧ c.right.IsOfKind s c.kind

theorem Constraint.IsKinded.of_eq {s s' : State} {c : Constraint} (hc : c.IsKinded s)
    (htypeVars : s'.typeVars = s.typeVars) (hkinds : s'.kinds = s.kinds) : c.IsKinded s' :=
  ⟨hc.1.of_eq htypeVars hkinds, hc.2.of_eq htypeVars hkinds⟩

theorem Constraint.IsKinded.of_reaches {s s' : State} {c : Constraint} (hc : c.IsKinded s) (hs : s.IsAcyclic)
    (hs' : s.Reaches s') : c.IsKinded s' :=
  ⟨hc.1.of_reaches hs hs', hc.2.of_reaches hs hs'⟩

section

variable {s s' : State} {pos : Nat} {kind k l : GradeKind}

theorem CheckM.typeVar_eq_ok {name : String} {v : TypeVar} (h : typeVar pos name s = .ok v s')
    : v ∈ s.typeVars ∧ v.name = name ∧ s = s' := by
  unfold typeVar at h
  rw [bind_eq_ok] at h
  obtain ⟨t, s₁, hget, h⟩ := h
  rw [get_eq_ok] at hget
  obtain ⟨rfl, rfl⟩ := hget
  cases hlookup : s.lookup? name with
  | none => simp only [hlookup, fail_eq_ok] at h
  | some w =>
    simp only [hlookup, pure_eq_ok] at h
    obtain ⟨rfl, rfl⟩ := h
    unfold State.lookup? at hlookup
    exact ⟨List.mem_of_find?_eq_some hlookup, by simpa using List.find?_some hlookup, rfl⟩

theorem GradeKind.resolve_unify_eq (hs : s.IsAcyclic) (h : GradeKind.unify pos k l s = .ok kind s')
    : s'.resolve k = kind ∧ s'.resolve l = kind := by
  cases unify_eq_ok h with
  | same heq => exact ⟨rfl, heq.symm⟩
  | left hk hl => exact hs.resolve_learn_eq hk hl
  | right hk hl => exact (hs.resolve_learn_eq hl (hk _)).symm

theorem GradeKind.resolve_unify (hs : s.IsAcyclic) (h : GradeKind.unify pos k l s = .ok kind s')
    : s'.resolve k = s'.resolve kind ∧ s'.resolve l = s'.resolve kind := by
  have hs' := hs.of_reaches (unify_quiet _ _ _ h).reaches
  obtain ⟨hk, hl⟩ := resolve_unify_eq hs h
  constructor
  . rw [← hk, hs'.resolve_resolve]
  . rw [← hl, hs'.resolve_resolve]

theorem Grade.isOfKind_unify {g g' : Grade} (hs : s.IsAcyclic) (hg : g.IsOfKind s k) (hg' : g'.IsOfKind s l)
    (h : GradeKind.unify pos k l s = .ok kind s') : g.IsOfKind s' kind ∧ g'.IsOfKind s' kind := by
  have hs' := (GradeKind.unify_quiet _ _ _ h).reaches
  obtain ⟨hk, hl⟩ := GradeKind.resolve_unify hs h
  exact ⟨(hg.of_reaches hs hs').congr hk, (hg'.of_reaches hs hs').congr hl⟩

theorem Grade.isOfKind_inferKind {g : Grade} (hs : s.IsAcyclic) (h : g.inferKind pos s = .ok kind s')
    : g.IsOfKind s' kind := by
  induction g generalizing s s' kind with
  | var name =>
    unfold Grade.inferKind at h
    rw [bind_eq_ok] at h
    obtain ⟨v, _, hv, h⟩ := h
    obtain ⟨hmem, rfl, rfl⟩ := typeVar_eq_ok hv
    cases hk : v.kind with
    | grade k =>
      simp only [hk, resolve_eq_ok] at h
      obtain ⟨rfl, rfl⟩ := h
      exact isOfKind_var hmem hk (hs.resolve_resolve k).symm
    | _ => simp only [hk, fail_eq_ok] at h
  | nat n | float x | level l =>
    obtain ⟨rfl, rfl⟩ := pure_eq_ok.mp h
    exact isOfKind_of_literal rfl rfl rfl
  | zero k | one k =>
    obtain ⟨rfl, rfl⟩ := resolve_eq_ok.mp h
    exact isOfKind_of_literal rfl rfl (hs.resolve_resolve k).symm
  | op o a b iha ihb =>
    unfold Grade.inferKind at h
    simp only [bind_eq_ok] at h
    obtain ⟨ka, s₁, ha, kb, s₂, hb, h⟩ := h
    have hs₁ := hs.of_reaches (inferKind_quiet pos a ha).reaches
    have hs₂ := (inferKind_quiet pos b hb).reaches
    obtain ⟨ha, hb⟩ := isOfKind_unify (hs₁.of_reaches hs₂) ((iha hs ha).of_reaches hs₁ hs₂) (ihb hs₁ hb) h
    exact isOfKind_op ha hb

theorem Ty.isOfKind_inferKind {env : Env} {ty : Ty} {g : Grade} (hs : s.IsAcyclic)
    (h : ty.inferKind env pos s = .ok (.grade kind) s') (hg : ty.toGrade? = some g) : g.IsOfKind s' kind := by
  replace hg := Ty.readsAs_of_toGrade? hg
  induction hg generalizing s s' kind with
  | var name =>
    unfold Ty.inferKind at h
    simp only [bind_eq_ok, pure_eq_ok] at h
    obtain ⟨v, _, hv, hkind, rfl⟩ := h
    obtain ⟨hmem, rfl, rfl⟩ := typeVar_eq_ok hv
    exact Grade.isOfKind_var hmem hkind rfl
  | index n =>
    obtain ⟨heq, rfl⟩ := pure_eq_ok.mp h
    cases heq
    exact Grade.isOfKind_of_literal rfl rfl rfl
  | @op o a b _ _ _ _ iha ihb =>
    unfold Ty.inferKind at h
    simp only [bind_eq_ok] at h
    obtain ⟨left, s₁, ha, right, s₂, hb, h⟩ := h
    split at h
    . simp only [bind_eq_ok, pure_eq_ok] at h
      obtain ⟨_, _, h, heq, rfl⟩ := h
      cases heq
      have hs₁ := hs.of_reaches (inferKind_quiet env pos a ha).reaches
      have hs₂ := (inferKind_quiet env pos b hb).reaches
      obtain ⟨ha, hb⟩ := Grade.isOfKind_unify (hs₁.of_reaches hs₂) ((iha hs ha).of_reaches hs₁ hs₂)
        (ihb hs₁ hb) h
      exact Grade.isOfKind_op ha hb
    . rw [fail_eq_ok] at h
      exact h.elim
    . rw [fail_eq_ok] at h
      exact h.elim

theorem Context.isOfKind_commonKind {g g' : Grade} (hs : s.IsAcyclic) (h : commonKind pos g g' s = .ok kind s')
    : g.IsOfKind s' kind ∧ g'.IsOfKind s' kind := by
  unfold commonKind at h
  simp only [bind_eq_ok] at h
  obtain ⟨k, s₁, hg, l, s₂, hg', h⟩ := h
  have hs₁ := hs.of_reaches (Grade.inferKind_quiet pos g hg).reaches
  have hs₂ := (Grade.inferKind_quiet pos g' hg').reaches
  exact Grade.isOfKind_unify (hs₁.of_reaches hs₂) ((Grade.isOfKind_inferKind hs hg).of_reaches hs₁ hs₂)
    (Grade.isOfKind_inferKind hs₁ hg') h

theorem Grade.isOfKind_freshTypeVar {hint name : String} {quantifier : Quantifier}
    (h : freshTypeVar hint (.grade kind) quantifier s = .ok name s') : (var name).IsOfKind s' kind := by
  cases h
  exact isOfKind_var (v := ⟨_, .grade kind, quantifier⟩) (List.mem_cons_self ..) rfl rfl

theorem Grade.isOfKind_freshGrade {hint : String} {g : Grade} (h : freshGrade hint kind s = .ok g s')
    : g.IsOfKind s' kind := by
  unfold freshGrade at h
  simp only [bind_eq_ok, pure_eq_ok] at h
  obtain ⟨_, _, hvar, rfl, rfl⟩ := h
  exact isOfKind_freshTypeVar hvar

end

end GradedModal
