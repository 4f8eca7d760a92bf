import Mathlib
import GradedModal.Proofs.Comparable
import GradedModal.Proofs.LeastUpperBound

/-!
This module says what the comparison of types means for types without variables. It is the relation that the shape of
the types gives: arguments are related the other way round, effects by what they start with, contents of boxes exactly,
and grades and indices by their values. Both equality and approximation are reflexive on types that have kinds, and both
are transitive.
-/

namespace GradedModal

open CheckM

theorem GradeKind.unify_discrete {k l kind : GradeKind} {pos : Nat} {s s' : State} (hk : k.IsDiscrete)
    (hl : l.IsDiscrete) : GradeKind.unify pos k l s = .ok kind s' ↔ k = l ∧ kind = k ∧ s = s' := by
  have hk' := State.resolve_of_ne_var hk.ne_var s
  have hl' := State.resolve_of_ne_var hl.ne_var s
  constructor
  . intro h
    cases unify_eq_ok h with
    | same heq =>
      rw [hk', hl'] at heq
      exact ⟨heq, hk', rfl⟩
    | left hvar => exact absurd (hk'.symm.trans hvar) (hk.ne_var _)
    | right _ hvar => exact absurd (hl'.symm.trans hvar) (hl.ne_var _)
  . rintro ⟨rfl, rfl, rfl⟩
    rw [unify_of_resolve_eq rfl, hk']

namespace Grade

/--
Whether a grade has no variables and no reals.
-/
def isGround : Grade → Bool
  | .nat _ => true
  | .level _ => true
  | .zero kind => kind.IsDiscrete
  | .one kind => kind.IsDiscrete
  | .op _ g h => g.isGround && h.isGround
  | _ => false

variable {g h : Grade} {k : GradeKind} {pos : Nat} {s s' : State}

theorem isGround_op {o : Op} : (op o g h).isGround = true ↔ g.isGround = true ∧ h.isGround = true :=
  Bool.and_eq_true_iff

theorem isDiscrete_of_mem_literalKinds (hg : g.isGround = true) : ∀ k ∈ g.literalKinds, k.IsDiscrete := by
  induction g with
  | nat n | level l => simp [literalKinds, GradeKind.IsDiscrete]
  | zero kind | one kind => simpa [literalKinds, isGround] using hg
  | op o g h ihg ihh =>
    rw [isGround_op] at hg
    exact List.forall_mem_append.mpr ⟨ihg hg.1, ihh hg.2⟩
  | _ => cases hg

theorem exists_mem_literalKinds (hg : g.isGround = true) : ∃ k, k ∈ g.literalKinds := by
  induction g with
  | op o g h ihg ihh =>
    obtain ⟨k, hk⟩ := ihg (isGround_op.mp hg).1
    exact ⟨k, List.mem_append_left _ hk⟩
  | var x | float x => cases hg
  | _ => exact ⟨_, List.mem_cons_self⟩

theorem isDiscrete_of_literalKinds (hg : g.isGround = true) (hkinds : ∀ l ∈ g.literalKinds, l = k)
    : k.IsDiscrete := by
  obtain ⟨l, hl⟩ := exists_mem_literalKinds hg
  exact hkinds l hl ▸ isDiscrete_of_mem_literalKinds hg l hl

theorem inferKind_ground (hg : g.isGround = true)
    : g.inferKind pos s = .ok k s' ↔ (∀ l ∈ g.literalKinds, l = k) ∧ s = s' := by
  induction g generalizing k s s' with
  | var x | float x => cases hg
  | nat n | level l =>
    rw [show inferKind pos _ = pure _ from rfl, pure_eq_ok]
    simp [literalKinds]
  | zero kind | one kind =>
    rw [show inferKind pos _ = resolve kind from rfl, resolve_eq_ok]
    have hkind : kind.IsDiscrete := of_decide_eq_true hg
    rw [State.resolve_of_ne_var hkind.ne_var]
    simp [literalKinds]
  | op o g h ihg ihh =>
    rw [isGround_op] at hg
    rw [literalKinds, List.forall_mem_append]
    constructor
    . intro h
      unfold inferKind at h
      simp only [bind_eq_ok, ihg hg.1, ihh hg.2] at h
      obtain ⟨l, _, ⟨hl, rfl⟩, l', _, ⟨hl', rfl⟩, h⟩ := h
      have hk := isDiscrete_of_literalKinds hg.1 hl
      have hk' := isDiscrete_of_literalKinds hg.2 hl'
      obtain ⟨rfl, rfl, rfl⟩ := (GradeKind.unify_discrete hk hk').mp h
      exact ⟨⟨hl, hl'⟩, rfl⟩
    . rintro ⟨⟨hl, hl'⟩, rfl⟩
      have hk := isDiscrete_of_literalKinds hg.1 hl
      unfold inferKind
      rw [bind_of_ok ((ihg hg.1).mpr ⟨hl, rfl⟩), bind_of_ok ((ihh hg.2).mpr ⟨hl', rfl⟩)]
      exact (GradeKind.unify_discrete hk hk).mpr ⟨rfl, rfl, rfl⟩

/--
The value of a grade without variables and reals, at the kind of all that is written in it.
-/
structure Denotes (g : Grade) (v : Value) : Prop where
  ground : g.isGround = true
  kinds : ∀ k ∈ g.literalKinds, k = v.kind
  evaluate : g.evaluate v.kind [] = .ok v

namespace Denotes

variable {v w : Value}

theorem isDiscrete (h : g.Denotes v) : v.kind.IsDiscrete :=
  isDiscrete_of_literalKinds h.ground h.kinds

theorem unique (hv : g.Denotes v) (hw : g.Denotes w) : v = w := by
  obtain ⟨k, hk⟩ := exists_mem_literalKinds hv.ground
  have hkind : v.kind = w.kind := (hv.kinds k hk).symm.trans (hw.kinds k hk)
  have hevaluate := hv.evaluate
  rw [hkind, hw.evaluate] at hevaluate
  exact (Except.ok.inj hevaluate).symm

theorem inferKind (h : g.Denotes v) (pos : Nat) (s : State) : g.inferKind pos s = .ok v.kind s :=
  (inferKind_ground h.ground).mpr ⟨h.kinds, rfl⟩

end Denotes

theorem exists_evaluate (hg : g.isGround = true) (hk : k.IsDiscrete) (hkinds : ∀ l ∈ g.literalKinds, l = k)
    : ∃ v, g.evaluate k [] = .ok v ∧ v.kind = k := by
  induction g with
  | var x | float x => cases hg
  | nat n =>
    obtain rfl := hkinds .nat List.mem_cons_self
    exact ⟨.nat n, rfl, rfl⟩
  | level l =>
    obtain rfl := hkinds .level List.mem_cons_self
    exact ⟨.level l, rfl, rfl⟩
  | zero kind | one kind =>
    obtain rfl | rfl := hk
    . exact ⟨_, rfl, rfl⟩
    . exact ⟨_, rfl, rfl⟩
  | op o g h ihg ihh =>
    rw [isGround_op] at hg
    rw [literalKinds, List.forall_mem_append] at hkinds
    obtain ⟨v, hv, hvkind⟩ := ihg hg.1 hkinds.1
    obtain ⟨w, hw, hwkind⟩ := ihh hg.2 hkinds.2
    obtain ⟨u, hu, hukind⟩ := o.apply_of_kind hvkind hwkind
    refine ⟨u, ?_, hukind⟩
    rw [evaluate, hv, hw]
    exact hu

theorem exists_denotes (hg : g.isGround = true) (hkinds : ∀ l ∈ g.literalKinds, l = k)
    : ∃ v, g.Denotes v ∧ v.kind = k := by
  obtain ⟨v, hv, rfl⟩ := exists_evaluate hg (isDiscrete_of_literalKinds hg hkinds) hkinds
  exact ⟨v, ⟨hg, hkinds, hv⟩, rfl⟩

end Grade

/--
Whether something of a kind is a type, or becomes one when it is applied.
-/
def Kind.returnsType : Kind → Bool
  | .type => true
  | .arrow _ b => b.returnsType
  | _ => false

namespace Ty

/--
Whether a type has no variables and no grades with variables or reals.
-/
def isGround : Ty → Bool
  | .const _ => true
  | .index _ => true
  | .var _ => false
  | .arrow a b => a.isGround && b.isGround
  | .app a b => a.isGround && b.isGround
  | .pair a b => a.isGround && b.isGround
  | .op _ a b => a.isGround && b.isGround
  | .box grade ty => grade.isGround && ty.isGround
  | .diamond _ ty => ty.isGround

inductive Related : Relation → Ty → Ty → Prop where
  | const {r : Relation} (n : String) : Related r (.const n) (.const n)
  | index {r : Relation} {left right : Ty} {g h : Grade} {v : Value} : left.toGrade? = some g → right.toGrade? = some h →
    g.Denotes v → h.Denotes v → Related r left right
  | arrow {r : Relation} {a b a' b' : Ty} : Related .le a' a → Related r b b' → Related r (.arrow a b) (.arrow a' b')
  | app {r : Relation} {a b a' b' : Ty} : Related r a a' → Related r b b' → Related r (.app a b) (.app a' b')
  | pair {r : Relation} {a b a' b' : Ty} : Related r a a' → Related r b b' → Related r (.pair a b) (.pair a' b')
  | box {r : Relation} {g h : Grade} {v w : Value} {ty ty' : Ty} : g.Denotes v → h.Denotes w → r.onValue v w →
    Related .eq ty ty' → Related r (.box g ty) (.box h ty')
  | diamond {r : Relation} {effects effects' : List String} {ty ty' : Ty} : effects <+: effects' → Related r ty ty' →
    Related r (.diamond effects ty) (.diamond effects' ty')

variable {env : Env} {pos depth : Nat} {r : Relation} {s s' : State} {ty left right : Ty} {g : Grade}

theorem height_of_toGrade? (h : ty.toGrade? = some g) : ty.height = 1 := by
  cases ty with
  | index n | var x | op o a b => rfl
  | _ => cases h

theorem Related.height_eq (h : Related r left right) : left.height = right.height := by
  induction h with
  | index hg hh _ _ => rw [height_of_toGrade? hg, height_of_toGrade? hh]
  | _ => simp_all [height]

theorem isGround_of_toGrade? (hty : ty.isGround = true) (h : ty.toGrade? = some g)
    : g.isGround = true ∧ (∀ k ∈ g.literalKinds, k = .nat) ∧ ty.isArithmetic = true := by
  replace h := readsAs_of_toGrade? h
  induction h with
  | index n => exact ⟨rfl, by simp [Grade.literalKinds], rfl⟩
  | op _ _ iha ihb =>
    obtain ⟨ha, hb⟩ := Bool.and_eq_true_iff.mp hty
    obtain ⟨hground, hkinds, _⟩ := iha ha
    obtain ⟨hground', hkinds', _⟩ := ihb hb
    exact ⟨Grade.isGround_op.mpr ⟨hground, hground'⟩, List.forall_mem_append.mpr ⟨hkinds, hkinds'⟩, rfl⟩
  | var x => cases hty

theorem inferKind_of_toGrade? (hty : ty.isGround = true) (h : ty.toGrade? = some g) (s : State)
    : ty.inferKind env pos s = .ok (.grade .nat) s := by
  replace h := readsAs_of_toGrade? h
  induction h with
  | index n => rfl
  | op _ _ iha ihb =>
    obtain ⟨ha, hb⟩ := Bool.and_eq_true_iff.mp hty
    unfold inferKind
    rw [bind_of_ok (iha ha), bind_of_ok (ihb hb)]
    dsimp only
    rw [bind_of_ok ((GradeKind.unify_discrete (.inl rfl) (.inl rfl)).mpr ⟨rfl, rfl, rfl⟩)]
    rfl
  | var x => cases hty

/--
Nothing that is built in makes an index: what has a kind is an index itself or can become a type.
-/
theorem exists_toGrade?_or_returnsType {k : Kind} (henv : env.builtins = .standard) (hty : ty.isGround = true)
    (h : ty.inferKind env pos s = .ok k s')
    : (∃ g, ty.toGrade? = some g) ∨ k.returnsType = true ∧ ty.isArithmetic = false := by
  induction ty generalizing k s s' with
  | const n =>
    unfold inferKind at h
    generalize hlookup : env.builtins.types.lookup n = found at h
    cases found with
    | none => exact (fail_eq_ok.mp h).elim
    | some kind =>
      obtain ⟨rfl, _⟩ := pure_eq_ok.mp h
      rw [henv] at hlookup
      have hstandard : ∀ b ∈ Builtins.standard.types, b.2.returnsType = true := by decide
      exact .inr ⟨hstandard _ (mem_of_lookup hlookup), rfl⟩
  | var x => cases hty
  | index n => exact .inl ⟨_, rfl⟩
  | op o a b iha ihb =>
    obtain ⟨ha, hb⟩ := Bool.and_eq_true_iff.mp hty
    unfold inferKind at h
    rw [bind_eq_ok] at h
    obtain ⟨l, s₁, hl, h⟩ := h
    rw [bind_eq_ok] at h
    obtain ⟨l', s₂, hl', h⟩ := h
    cases l with
    | grade k =>
      cases l' with
      | grade k' =>
        obtain ⟨g, hg⟩ | ⟨hreturns, _⟩ := iha ha hl
        . obtain ⟨g', hg'⟩ | ⟨hreturns, _⟩ := ihb hb hl'
          . exact .inl ⟨.op o g g', by simp [toGrade?, hg, hg']⟩
          . cases hreturns
        . cases hreturns
      | _ => exact (fail_eq_ok.mp h).elim
    | _ => exact (fail_eq_ok.mp h).elim
  | app a b iha _ =>
    unfold inferKind at h
    rw [bind_eq_ok] at h
    obtain ⟨function, s₁, hfunction, h⟩ := h
    rw [bind_eq_ok] at h
    obtain ⟨_, s₂, _, h⟩ := h
    cases function with
    | arrow input output =>
      simp only [bind_eq_ok, pure_eq_ok] at h
      obtain ⟨_, _, _, rfl, _⟩ := h
      have ha := (Bool.and_eq_true_iff.mp hty).1
      obtain ⟨g, hg⟩ | ⟨hreturns, _⟩ := iha ha hfunction
      . rw [inferKind_of_toGrade? ha hg s] at hfunction
        cases hfunction
      . exact .inr ⟨hreturns, rfl⟩
    | _ => exact (fail_eq_ok.mp h).elim
  | arrow a b _ _ | pair a b _ _ =>
    simp only [inferKind, bind_eq_ok, pure_eq_ok] at h
    obtain ⟨_, _, _, _, _, _, _, _, _, _, _, _, rfl, _⟩ := h
    exact .inr ⟨rfl, rfl⟩
  | box grade ty _ =>
    simp only [inferKind, bind_eq_ok, pure_eq_ok] at h
    obtain ⟨_, _, _, _, _, _, _, _, _, rfl, _⟩ := h
    exact .inr ⟨rfl, rfl⟩
  | diamond effects ty _ =>
    simp only [inferKind, bind_eq_ok, pure_eq_ok] at h
    obtain ⟨_, _, _, _, _, _, rfl, _⟩ := h
    exact .inr ⟨rfl, rfl⟩

theorem Related.of_toGrade? (hty : ty.isGround = true) (h : ty.toGrade? = some g) : Related r ty ty := by
  obtain ⟨hground, hkinds, _⟩ := isGround_of_toGrade? hty h
  obtain ⟨v, hv, _⟩ := Grade.exists_denotes hground hkinds
  exact .index h h hv hv

theorem related_self {k : Kind} (henv : env.builtins = .standard) (hty : ty.isGround = true)
    (h : ty.inferKind env pos s = .ok k s') (r : Relation) : Related r ty ty := by
  induction ty generalizing k s s' r with
  | const n => exact .const n
  | var x => cases hty
  | index n => exact .of_toGrade? hty rfl
  | op o a b _ _ =>
    obtain ⟨g, hg⟩ | ⟨_, hop⟩ := exists_toGrade?_or_returnsType henv hty h
    . exact .of_toGrade? hty hg
    . cases hop
  | app a b iha ihb =>
    obtain ⟨ha, hb⟩ := Bool.and_eq_true_iff.mp hty
    unfold inferKind at h
    simp only [bind_eq_ok] at h
    obtain ⟨_, s₁, hleft, _, s₂, hright, _⟩ := h
    exact .app (iha ha hleft r) (ihb hb hright r)
  | arrow a b iha ihb =>
    obtain ⟨ha, hb⟩ := Bool.and_eq_true_iff.mp hty
    simp only [inferKind, bind_eq_ok] at h
    obtain ⟨_, _, hleft, _, _, _, _, _, hright, _⟩ := h
    exact .arrow (iha ha hleft .le) (ihb hb hright r)
  | pair a b iha ihb =>
    obtain ⟨ha, hb⟩ := Bool.and_eq_true_iff.mp hty
    simp only [inferKind, bind_eq_ok] at h
    obtain ⟨_, _, hleft, _, _, _, _, _, hright, _⟩ := h
    exact .pair (iha ha hleft r) (ihb hb hright r)
  | box grade ty ih =>
    obtain ⟨hgrade, hty⟩ := Bool.and_eq_true_iff.mp hty
    simp only [inferKind, bind_eq_ok, discard_eq_ok] at h
    obtain ⟨_, _, ⟨l, hl⟩, _, _, hinner, _⟩ := h
    obtain ⟨v, hv, _⟩ := Grade.exists_denotes hgrade ((Grade.inferKind_ground hgrade).mp hl).1
    refine .box hv hv ?_ (ih hty hinner .eq)
    cases r with
    | eq => rfl
    | le => exact Value.le_refl hv.isDiscrete rfl
  | diamond effects ty ih =>
    simp only [inferKind, bind_eq_ok] at h
    obtain ⟨_, _, hinner, _⟩ := h
    exact .diamond (List.prefix_refl effects) (ih hty hinner r)

-- Arguments are related the other way round, so that both sides have to be replaced under one induction.
theorem Related.replace (h : Related r left right)
    : (∀ upper, Related r right upper → Related r left upper) ∧ ∀ lower, Related r lower left → Related r lower right := by
  induction h with
  | const n => exact ⟨fun _ h => h, fun _ h => h⟩
  | index hg hh hv hw =>
    constructor
    . intro upper h
      cases h with
      | index hg' hh' hv' hw' =>
        cases hh.symm.trans hg'
        exact .index hg hh' hv (hw.unique hv' ▸ hw')
      | _ => cases hh
    . intro lower h
      cases h with
      | index hg' hh' hv' hw' =>
        cases hg.symm.trans hh'
        exact .index hg' hh hv' (hv.unique hw' ▸ hw)
      | _ => cases hg
  | arrow _ _ iha ihb =>
    constructor
    . intro upper h
      cases h with
      | arrow ha hb => exact .arrow (iha.2 _ ha) (ihb.1 _ hb)
      | index hg => cases hg
    . intro lower h
      cases h with
      | arrow ha hb => exact .arrow (iha.1 _ ha) (ihb.2 _ hb)
      | index _ hh => cases hh
  | app _ _ iha ihb =>
    constructor
    . intro upper h
      cases h with
      | app ha hb => exact .app (iha.1 _ ha) (ihb.1 _ hb)
      | index hg => cases hg
    . intro lower h
      cases h with
      | app ha hb => exact .app (iha.2 _ ha) (ihb.2 _ hb)
      | index _ hh => cases hh
  | pair _ _ iha ihb =>
    constructor
    . intro upper h
      cases h with
      | pair ha hb => exact .pair (iha.1 _ ha) (ihb.1 _ hb)
      | index hg => cases hg
    . intro lower h
      cases h with
      | pair ha hb => exact .pair (iha.2 _ ha) (ihb.2 _ hb)
      | index _ hh => cases hh
  | box hg hh hrelation _ ih =>
    constructor
    . intro upper h
      cases h with
      | box hg' hh' hrelation' hty =>
        obtain rfl := hh.unique hg'
        exact .box hg hh' (Relation.onValue_trans hrelation hrelation') (ih.1 _ hty)
      | index hg => cases hg
    . intro lower h
      cases h with
      | box hg' hh' hrelation' hty =>
        obtain rfl := hg.unique hh'
        exact .box hg' hh (Relation.onValue_trans hrelation' hrelation) (ih.2 _ hty)
      | index _ hh => cases hh
  | diamond heffects _ ih =>
    constructor
    . intro upper h
      cases h with
      | diamond heffects' hty => exact .diamond (heffects.trans heffects') (ih.1 _ hty)
      | index hg => cases hg
    . intro lower h
      cases h with
      | diamond heffects' hty => exact .diamond (heffects'.trans heffects) (ih.2 _ hty)
      | index _ hh => cases hh

end Ty

/--
A constraint without variables is true.
-/
def Constraint.IsTrue (c : Constraint) : Prop :=
  c.holds [] = .ok true

theorem Constraint.isTrue_iff {c : Constraint} {v w : Value} (hleft : c.left.Denotes v) (hright : c.right.Denotes w)
    (hkind : c.kind = v.kind) (hkinds : v.kind = w.kind) : c.IsTrue ↔ c.relation.onValue v w := by
  unfold IsTrue
  rw [holds_iff (hkind ▸ hleft.isDiscrete), hkind, hleft.evaluate, hkinds, hright.evaluate]
  simp [hkinds]

namespace CheckM

variable {α β : Type} {P : α → Prop} {Q : β → Prop} {x : CheckM α}

def Succeeds (x : CheckM α) (P : α → Prop) : Prop :=
  ∀ s, ∃ a s', x s = .ok a s' ∧ s.Extends s' ∧ State.AllDemands Constraint.IsTrue s s' ∧ P a

theorem succeeds_of_ok {a : α} (h : ∀ s, x s = .ok a s) (ha : P a) : Succeeds x P := by
  intro s
  refine ⟨a, s, h s, State.extends_of_eq rfl rfl, ?_, ha⟩
  simp [State.AllDemands, State.demands, State.added, Predicate.demandsAll]

theorem succeeds_pure {a : α} (ha : P a) : Succeeds (pure a) P :=
  succeeds_of_ok (fun _ => rfl) ha

theorem succeeds_bind {f : α → CheckM β} (hx : Succeeds x P) (hf : ∀ a, P a → Succeeds (f a) Q)
    : Succeeds (x >>= f) Q := by
  intro s
  obtain ⟨a, s₁, hxs, hs₁, hdemands₁, ha⟩ := hx s
  obtain ⟨b, s₂, hfs, hs₂, hdemands₂, hb⟩ := hf a ha s₁
  refine ⟨b, s₂, (bind_of_ok hxs).trans hfs, hs₁.trans hs₂, ?_, hb⟩
  unfold State.AllDemands
  rw [hs₁.demands_append hs₂]
  exact List.forall_mem_append.mpr ⟨hdemands₁, hdemands₂⟩

theorem succeeds_constrain {c : Constraint} (hc : c.IsTrue) : Succeeds (constrain c) fun _ => True := by
  intro s
  refine ⟨(), s.add (.atom c), rfl, State.extends_add _ _, ?_, trivial⟩
  unfold State.AllDemands
  rw [State.demands_constrain rfl, List.forall_mem_singleton]
  exact hc

end CheckM

namespace Unify

variable {env : Env} {pos depth : Nat} {r r' : Relation} {s s' : State} {left right a b a' b' : Ty} {u : Unified}

def AgreesOutright (u : Unified) : Prop :=
  u.agree = true ∧ u.subst = []

theorem succeeds_components {α : Type} {P : α → Prop} {f : Unified → Unified → Substitution → α}
    (hfirst : Succeeds (relate env pos depth r a a') AgreesOutright)
    (hsecond : Succeeds (relate env pos depth r' b b') AgreesOutright)
    (hf : ∀ first second, first.agree = true → second.agree = true → P (f first second []))
    : Succeeds (do
        let first ← relate env pos depth r a a'
        let second ← relate env pos depth r' (b.substitute first.subst) (b'.substitute first.subst)
        let subst ← merge (relate env pos depth .eq) pos first.subst second.subst
        return f first second subst) P := by
  refine succeeds_bind hfirst fun first hfirst => ?_
  rw [hfirst.2, Ty.substitute_nil, Ty.substitute_nil]
  refine succeeds_bind hsecond fun second hsecond => ?_
  rw [hsecond.2]
  exact succeeds_bind (succeeds_pure rfl) fun subst hsubst => succeeds_pure (hsubst ▸ hf _ _ hfirst.1 hsecond.1)

theorem succeeds_relatePair (hfirst : Succeeds (relate env pos depth r a a') AgreesOutright)
    (hsecond : Succeeds (relate env pos depth r b b') AgreesOutright)
    : Succeeds (relate.relatePair env pos depth r a b a' b') fun x => (x.1.agree && x.2.1.agree) = true ∧ x.2.2 = [] := by
  unfold relate.relatePair
  exact succeeds_components hfirst hsecond fun _ _ hfirst hsecond => ⟨Bool.and_eq_true_iff.mpr ⟨hfirst, hsecond⟩, rfl⟩

theorem succeeds_indices {g h : Grade} {v : Value} (hleft : left.isGround = true) (hright : right.isGround = true)
    (hg : left.toGrade? = some g) (hh : right.toGrade? = some h) (hv : g.Denotes v) (hw : h.Denotes v)
    : Succeeds (indices env pos left right) AgreesOutright := by
  have hkind : .nat = v.kind := by
    obtain ⟨hground, hkinds, _⟩ := Ty.isGround_of_toGrade? hleft hg
    obtain ⟨k, hk⟩ := Grade.exists_mem_literalKinds hground
    exact (hkinds k hk).symm.trans (hv.kinds k hk)
  unfold indices
  refine succeeds_bind (succeeds_of_ok (Ty.inferKind_of_toGrade? hleft hg) rfl) ?_
  rintro _ rfl
  refine succeeds_bind (succeeds_of_ok (Ty.inferKind_of_toGrade? hright hh) rfl) ?_
  rintro _ rfl
  rw [hg, hh]
  have hunify : ∀ s, GradeKind.unify pos .nat .nat s = .ok .nat s :=
    fun s => (GradeKind.unify_discrete (.inl rfl) (.inl rfl)).mpr ⟨rfl, rfl, rfl⟩
  refine succeeds_bind (succeeds_of_ok hunify rfl) ?_
  rintro _ rfl
  have htrue : (Constraint.eq pos g h .nat).IsTrue := (Constraint.isTrue_iff hv hw hkind rfl).mpr rfl
  exact succeeds_bind (succeeds_constrain htrue) fun _ _ => succeeds_pure ⟨rfl, rfl⟩

theorem succeeds_relate (h : Ty.Related r left right) (hleft : left.isGround = true) (hright : right.isGround = true)
    (hdepth : left.height ≤ depth) : Succeeds (relate env pos depth r left right) AgreesOutright := by
  induction h generalizing depth with
  | const n =>
    obtain ⟨depth, rfl⟩ := Ty.exists_succ_of_height_le hdepth
    unfold relate
    exact succeeds_pure ⟨decide_eq_true rfl, rfl⟩
  | index hg hh hv hw =>
    obtain ⟨depth, rfl⟩ := Ty.exists_succ_of_height_le hdepth
    obtain ⟨_, _, hindex⟩ := Ty.isGround_of_toGrade? hleft hg
    obtain ⟨_, _, hindex'⟩ := Ty.isGround_of_toGrade? hright hh
    rw [relate_index hindex (Ty.isVar_of_isArithmetic hindex')]
    exact succeeds_indices hleft hright hg hh hv hw
  | arrow ha hb iha ihb =>
    obtain ⟨depth, rfl⟩ := Ty.exists_succ_of_height_le hdepth
    obtain ⟨hleft, hleft'⟩ := Bool.and_eq_true_iff.mp hleft
    obtain ⟨hright, hright'⟩ := Bool.and_eq_true_iff.mp hright
    simp only [Ty.height, ← ha.height_eq, Nat.add_le_add_iff_right, max_le_iff] at hdepth
    unfold relate
    refine succeeds_components (iha hright hleft hdepth.1) (ihb hleft' hright' hdepth.2) fun _ _ hfirst hsecond => ?_
    exact ⟨Bool.and_eq_true_iff.mpr ⟨hfirst, hsecond⟩, rfl⟩
  | app ha hb iha ihb | pair ha hb iha ihb =>
    obtain ⟨depth, rfl⟩ := Ty.exists_succ_of_height_le hdepth
    obtain ⟨hleft, hleft'⟩ := Bool.and_eq_true_iff.mp hleft
    obtain ⟨hright, hright'⟩ := Bool.and_eq_true_iff.mp hright
    simp only [Ty.height, Nat.add_le_add_iff_right, max_le_iff] at hdepth
    unfold relate
    refine succeeds_bind (succeeds_relatePair (iha hleft hright hdepth.1) (ihb hleft' hright' hdepth.2)) fun _ hpair => ?_
    exact succeeds_pure hpair
  | box hg hh hrelation hty ih =>
    obtain ⟨depth, rfl⟩ := Ty.exists_succ_of_height_le hdepth
    have hkinds := (Relation.kind_eq_of_onValue hrelation).symm
    have hunify : ∀ s, GradeKind.unify pos _ _ s = .ok _ s :=
      fun s => (GradeKind.unify_discrete hg.isDiscrete hh.isDiscrete).mpr ⟨hkinds, rfl, rfl⟩
    unfold relate
    refine succeeds_bind (succeeds_of_ok (hg.inferKind pos) rfl) ?_
    rintro _ rfl
    refine succeeds_bind (succeeds_of_ok (hh.inferKind pos) rfl) ?_
    rintro _ rfl
    refine succeeds_bind (succeeds_of_ok hunify rfl) ?_
    rintro _ rfl
    refine succeeds_bind (succeeds_constrain ((Constraint.isTrue_iff hg hh rfl hkinds).mpr hrelation)) fun _ _ => ?_
    refine succeeds_bind (ih (Bool.and_eq_true_iff.mp hleft).2 (Bool.and_eq_true_iff.mp hright).2
      (Nat.le_of_succ_le_succ hdepth)) fun inner hinner => ?_
    exact succeeds_pure hinner
  | diamond heffects hty ih =>
    obtain ⟨depth, rfl⟩ := Ty.exists_succ_of_height_le hdepth
    unfold relate
    refine succeeds_bind (ih hleft hright (Nat.le_of_succ_le_succ hdepth)) fun inner hinner => ?_
    rw [if_pos (List.isPrefixOf_iff_prefix.mpr heffects)]
    exact succeeds_pure hinner

structure Finds (depth : Nat) (r : Relation) (left right : Ty) (u : Unified) (s s' : State) : Prop where
  subst : u.subst = []
  height_left : left.height ≤ depth
  height_right : right.height ≤ depth
  related : u.agree = true → State.AllDemands Constraint.IsTrue s s' → Ty.Related r left right

theorem finds_components {first second : Unified} {ρ : Substitution} {s₁ s₂ : State}
    (ih : ∀ {r left right u s s'}, left.isGround = true → right.isGround = true →
      relate env pos depth r left right s = .ok u s' → Finds depth r left right u s s')
    (ha : a.isGround = true) (hb : b.isGround = true) (ha' : a'.isGround = true) (hb' : b'.isGround = true)
    (hfirst : relate env pos depth r a a' s = .ok first s₁)
    (hsecond : relate env pos depth r' (b.substitute first.subst) (b'.substitute first.subst) s₁ = .ok second s₂)
    (hmerge : merge (relate env pos depth .eq) pos first.subst second.subst s₂ = .ok ρ s')
    : ρ = [] ∧ Finds depth r a a' first s s₁ ∧ Finds depth r' b b' second s₁ s' ∧
      ∀ {K}, State.AllDemands K s s' → State.AllDemands K s s₁ ∧ State.AllDemands K s₁ s' := by
  have hfinds := ih ha ha' hfirst
  rw [hfinds.subst, Ty.substitute_nil, Ty.substitute_nil] at hsecond
  have hfinds' := ih hb hb' hsecond
  rw [hfinds.subst, hfinds'.subst] at hmerge
  obtain ⟨rfl, rfl⟩ := pure_eq_ok.mp hmerge
  have hs₁ := (relate_advancing env pos depth r a a').reaching hfirst
  have hs₂ := (relate_advancing env pos depth r' b b').reaching hsecond
  exact ⟨rfl, hfinds, hfinds', (hs₁.allDemands_iff hs₂).mp⟩

theorem finds_relatePair {x : Unified × Unified × Substitution}
    (ih : ∀ {r left right u s s'}, left.isGround = true → right.isGround = true →
      relate env pos depth r left right s = .ok u s' → Finds depth r left right u s s')
    (hleft : (a.isGround && b.isGround) = true) (hright : (a'.isGround && b'.isGround) = true)
    (h : relate.relatePair env pos depth r a b a' b' s = .ok x s')
    : x.2.2 = [] ∧ max a.height b.height + 1 ≤ depth + 1 ∧ max a'.height b'.height + 1 ≤ depth + 1 ∧
      ((x.1.agree && x.2.1.agree) = true → State.AllDemands Constraint.IsTrue s s' →
        Ty.Related r a a' ∧ Ty.Related r b b') := by
  obtain ⟨ha, hb⟩ := Bool.and_eq_true_iff.mp hleft
  obtain ⟨ha', hb'⟩ := Bool.and_eq_true_iff.mp hright
  unfold relate.relatePair at h
  simp only [bind_eq_ok, pure_eq_ok] at h
  obtain ⟨first, s₁, hfirst, second, s₂, hsecond, ρ, s₃, hmerge, rfl, rfl⟩ := h
  obtain ⟨rfl, hfinds, hfinds', hdemands⟩ := finds_components ih ha hb ha' hb' hfirst hsecond hmerge
  refine ⟨rfl, ?_, ?_, ?_⟩
  . simp only [Nat.add_le_add_iff_right, max_le_iff]
    exact ⟨hfinds.height_left, hfinds'.height_left⟩
  . simp only [Nat.add_le_add_iff_right, max_le_iff]
    exact ⟨hfinds.height_right, hfinds'.height_right⟩
  . intro hagree htrue
    obtain ⟨hfirst, hsecond⟩ := Bool.and_eq_true_iff.mp hagree
    obtain ⟨htrue, htrue'⟩ := hdemands htrue
    exact ⟨hfinds.related hfirst htrue, hfinds'.related hsecond htrue'⟩

theorem finds_indices (hleft : left.isGround = true) (hright : right.isGround = true)
    (h : indices env pos left right s = .ok u s') : Finds (depth + 1) r left right u s s' := by
  unfold indices at h
  rw [bind_eq_ok] at h
  obtain ⟨leftKind, s₁, hleftKind, h⟩ := h
  rw [bind_eq_ok] at h
  obtain ⟨rightKind, s₂, hrightKind, h⟩ := h
  generalize hg : left.toGrade? = g at h
  generalize hh : right.toGrade? = g' at h
  split at h
  . next k k' g h' =>
    rw [Ty.inferKind_of_toGrade? hleft hg] at hleftKind
    cases hleftKind
    rw [Ty.inferKind_of_toGrade? hright hh] at hrightKind
    cases hrightKind
    simp only [bind_eq_ok, pure_eq_ok, GradeKind.unify_discrete (k := .nat) (l := .nat) (.inl rfl) (.inl rfl)] at h
    obtain ⟨kind, _, ⟨_, rfl, rfl⟩, _, s₂, hconstrain, rfl, rfl⟩ := h
    refine ⟨rfl, ?_, ?_, fun _ hdemands => ?_⟩
    . rw [Ty.height_of_toGrade? hg]
      omega
    . rw [Ty.height_of_toGrade? hh]
      omega
    . obtain ⟨hground, hkinds, _⟩ := Ty.isGround_of_toGrade? hleft hg
      obtain ⟨hground', hkinds', _⟩ := Ty.isGround_of_toGrade? hright hh
      obtain ⟨v, hv, hvkind⟩ := Grade.exists_denotes hground hkinds
      obtain ⟨w, hw, hwkind⟩ := Grade.exists_denotes hground' hkinds'
      unfold State.AllDemands at hdemands
      rw [State.demands_constrain hconstrain, List.forall_mem_singleton] at hdemands
      obtain rfl := (Constraint.isTrue_iff hv hw hvkind.symm (hvkind.trans hwkind.symm)).mp hdemands
      exact .index hg hh hv hw
  . exact (fail_eq_ok.mp h).elim

theorem finds_relate (hleft : left.isGround = true) (hright : right.isGround = true)
    (h : relate env pos depth r left right s = .ok u s') : Finds depth r left right u s s' := by
  induction depth generalizing r left right u s s' with
  | zero =>
    unfold relate at h
    exact (fail_eq_ok.mp h).elim
  | succ depth ih =>
    unfold relate at h
    split at h
    . next a b a' b' =>
      obtain ⟨ha, hb⟩ := Bool.and_eq_true_iff.mp hleft
      obtain ⟨ha', hb'⟩ := Bool.and_eq_true_iff.mp hright
      simp only [bind_eq_ok, pure_eq_ok] at h
      obtain ⟨first, s₁, hfirst, second, s₂, hsecond, ρ, s₃, hmerge, rfl, rfl⟩ := h
      obtain ⟨rfl, hfinds, hfinds', hdemands⟩ := finds_components ih ha' hb ha hb' hfirst hsecond hmerge
      refine ⟨rfl, ?_, ?_, ?_⟩
      . simp only [Ty.height, Nat.add_le_add_iff_right, max_le_iff]
        exact ⟨hfinds.height_right, hfinds'.height_left⟩
      . simp only [Ty.height, Nat.add_le_add_iff_right, max_le_iff]
        exact ⟨hfinds.height_left, hfinds'.height_right⟩
      . intro hagree htrue
        obtain ⟨hfirst, hsecond⟩ := Bool.and_eq_true_iff.mp hagree
        obtain ⟨htrue, htrue'⟩ := hdemands htrue
        exact .arrow (hfinds.related hfirst htrue) (hfinds'.related hsecond htrue')
    . obtain ⟨rfl, rfl⟩ := pure_eq_ok.mp h
      refine ⟨rfl, Nat.succ_le_succ (Nat.zero_le _), Nat.succ_le_succ (Nat.zero_le _), ?_⟩
      intro hagree _
      obtain rfl := of_decide_eq_true hagree
      exact .const _
    . next effects ty effects' ty' =>
      change ty.isGround = true at hleft
      change ty'.isGround = true at hright
      rw [bind_eq_ok] at h
      obtain ⟨inner, s₁, hinner, h⟩ := h
      split at h
      . next heffects =>
        obtain ⟨rfl, rfl⟩ := pure_eq_ok.mp h
        have hfinds := ih hleft hright hinner
        refine ⟨hfinds.subst, Nat.succ_le_succ hfinds.height_left, Nat.succ_le_succ hfinds.height_right, ?_⟩
        intro hagree htrue
        exact .diamond (List.isPrefixOf_iff_prefix.mp heffects) (hfinds.related hagree htrue)
      . exact (fail_eq_ok.mp h).elim
    . next g ty g' ty' =>
      obtain ⟨hg, hty⟩ := Bool.and_eq_true_iff.mp hleft
      obtain ⟨hg', hty'⟩ := Bool.and_eq_true_iff.mp hright
      simp only [bind_eq_ok, pure_eq_ok, Grade.inferKind_ground hg, Grade.inferKind_ground hg'] at h
      obtain ⟨k, _, ⟨hk, rfl⟩, k', _, ⟨hk', rfl⟩, kind, s₁, hunify, _, s₂, hconstrain, inner, s₃, hinner, rfl, rfl⟩ := h
      obtain ⟨v, hv, rfl⟩ := Grade.exists_denotes hg hk
      obtain ⟨w, hw, rfl⟩ := Grade.exists_denotes hg' hk'
      obtain ⟨hkinds, rfl, rfl⟩ := (GradeKind.unify_discrete hv.isDiscrete hw.isDiscrete).mp hunify
      have hfinds := ih hty hty' hinner
      refine ⟨hfinds.subst, Nat.succ_le_succ hfinds.height_left, Nat.succ_le_succ hfinds.height_right, ?_⟩
      intro hagree htrue
      have hs₃ := (relate_advancing env pos depth .eq ty ty').reaching hinner
      obtain ⟨htrue, htrue'⟩ := ((reaching_constrain _ hconstrain).allDemands_iff hs₃).mp htrue
      unfold State.AllDemands at htrue
      rw [State.demands_constrain hconstrain, List.forall_mem_singleton] at htrue
      exact .box hv hw ((Constraint.isTrue_iff hv hw rfl hkinds).mp htrue) (hfinds.related hagree htrue')
    . next a b a' b' =>
      rw [bind_eq_ok] at h
      obtain ⟨x, s₁, hpair, h⟩ := h
      obtain ⟨rfl, rfl⟩ := pure_eq_ok.mp h
      obtain ⟨hsubst, hheight, hheight', hrelated⟩ := finds_relatePair ih hleft hright hpair
      refine ⟨hsubst, hheight, hheight', fun hagree htrue => ?_⟩
      obtain ⟨ha, hb⟩ := hrelated hagree htrue
      exact .app ha hb
    . next a b a' b' =>
      rw [bind_eq_ok] at h
      obtain ⟨x, s₁, hpair, h⟩ := h
      obtain ⟨rfl, rfl⟩ := pure_eq_ok.mp h
      obtain ⟨hsubst, hheight, hheight', hrelated⟩ := finds_relatePair ih hleft hright hpair
      refine ⟨hsubst, hheight, hheight', fun hagree htrue => ?_⟩
      obtain ⟨ha, hb⟩ := hrelated hagree htrue
      exact .pair ha hb
    . cases hleft
    . cases hleft
    . cases hright
    . exact finds_indices hleft hright h

/--
Two types are found to agree, and the constraints that are added are true.
-/
def Relates (env : Env) (pos depth : Nat) (s : State) (r : Relation) (left right : Ty) : Prop :=
  ∃ u s', relate env pos depth r left right s = .ok u s' ∧ u.agree = true ∧ State.AllDemands Constraint.IsTrue s s'

theorem relates_of_succeeds (h : Succeeds (relate env pos depth r left right) AgreesOutright) (s : State)
    : Relates env pos depth s r left right := by
  obtain ⟨u, s', hrelate, _, htrue, hagree, _⟩ := h s
  exact ⟨u, s', hrelate, hagree, htrue⟩

theorem Relates.related (h : Relates env pos depth s r left right) (hleft : left.isGround = true)
    (hright : right.isGround = true) : left.height ≤ depth ∧ Ty.Related r left right := by
  obtain ⟨u, s', hrelate, hagree, htrue⟩ := h
  have hfinds := finds_relate hleft hright hrelate
  exact ⟨hfinds.height_left, hfinds.related hagree htrue⟩

/--
On types without variables and reals, each of equality and approximation is a preorder. A type that has a kind is
related to itself, provided that the comparison may be as deep as the type, and related types can be chained, whatever
is known already when each of them is compared.
-/
theorem relates_isPreorder (henv : env.builtins = .standard) (pos depth : Nat) (r : Relation)
    : (∀ (ty : Ty) (s : State), ty.isGround = true → (∃ s₀ k s₁, ty.inferKind env pos s₀ = .ok k s₁) →
        ty.height ≤ depth → Relates env pos depth s r ty ty) ∧
      ∀ (a b c : Ty) (s₁ s₂ s₃ : State), a.isGround = true → b.isGround = true → c.isGround = true →
        Relates env pos depth s₁ r a b → Relates env pos depth s₂ r b c → Relates env pos depth s₃ r a c := by
  constructor
  . rintro ty s hty ⟨s₀, k, s₁, hkind⟩ hdepth
    exact relates_of_succeeds (succeeds_relate (Ty.related_self henv hty hkind r) hty hty hdepth) s
  . intro a b c s₁ s₂ s₃ ha hb hc hab hbc
    obtain ⟨hdepth, hab⟩ := hab.related ha hb
    obtain ⟨_, hbc⟩ := hbc.related hb hc
    exact relates_of_succeeds (succeeds_relate (hab.replace.1 c hbc) ha hc hdepth) s₃

theorem relates_of_yields (cs : List Constraint)
    (h : yields (relate env pos depth r left right) s (fun u s' => u.agree && decide (s.demands s' = cs)) = true)
    (hcs : ∀ c ∈ cs, c.holds [] = .ok true) : Relates env pos depth s r left right := by
  obtain ⟨u, s', hrelate, h⟩ := exists_of_yields h
  obtain ⟨hagree, hdemands⟩ := Bool.and_eq_true_iff.mp h
  refine ⟨u, s', hrelate, hagree, ?_⟩
  unfold State.AllDemands
  rw [of_decide_eq_true hdemands]
  exact hcs

/--
A function that may use its argument as a grade says and computes a list with effects.
-/
def reader (uses : Grade) (effects : List String) (length : Ty) : Ty :=
  .arrow (.box uses (.const "Int")) (.diamond effects (.list length (.const "Int")))

/-- A type of functions grows with the effects and when the grade of the argument gets smaller. -/
theorem relates_isPreorder_reader
    : Relates ⟨.standard, []⟩ 0 maxDepth .start .le (reader (.nat 3) ["R"] (.op .plus (.index 2) (.index 1)))
        (reader (.nat 3) ["R"] (.op .plus (.index 2) (.index 1))) ∧
      Relates ⟨.standard, []⟩ 0 maxDepth .start .le (reader (.nat 3) ["R"] (.op .plus (.index 2) (.index 1)))
        (reader (.op .plus (.one .nat) (.zero .nat)) ["R", "W"] (.op .times (.index 3) (.index 1))) := by
  have hpreorder := relates_isPreorder (rfl : (Env.mk .standard []).builtins = .standard) 0 maxDepth .le
  constructor
  . have hkind : yields (Ty.inferKind ⟨.standard, []⟩ 0 (reader (.nat 3) ["R"] (.op .plus (.index 2) (.index 1)))) .start
        (fun _ _ => true) = true := by
      cbv
    obtain ⟨k, s', hkind, _⟩ := exists_of_yields hkind
    exact hpreorder.1 _ .start rfl ⟨.start, k, s', hkind⟩ (by decide)
  . have hfirst : Relates ⟨.standard, []⟩ 0 maxDepth .start .le (reader (.nat 3) ["R"] (.op .plus (.index 2) (.index 1)))
        (reader (.nat 2) ["R", "W"] (.index 3)) :=
      relates_of_yields [.le 0 (.nat 2) (.nat 3) .nat, .eq 0 (.op .plus (.nat 2) (.nat 1)) (.nat 3) .nat] (by cbv)
        (by decide)
    have hsecond : Relates ⟨.standard, []⟩ 0 maxDepth .start .le (reader (.nat 2) ["R", "W"] (.index 3))
        (reader (.op .plus (.one .nat) (.zero .nat)) ["R", "W"] (.op .times (.index 3) (.index 1))) :=
      relates_of_yields [.le 0 (.op .plus (.one .nat) (.zero .nat)) (.nat 2) .nat,
        .eq 0 (.nat 3) (.op .times (.nat 3) (.nat 1)) .nat] (by cbv) (by decide)
    exact hpreorder.2 _ _ _ .start .start .start rfl rfl rfl hfirst hsecond

end Unify

end GradedModal
