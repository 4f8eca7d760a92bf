import Mathlib
import GradedModal.Proofs.Closure
import GradedModal.Proofs.Unifiers

/-!
This module says what it means that a type has a kind in a state. A type has a kind if and only if inferring its kind
succeeds and has nothing to learn. Later states keep the kinds of types, as long as they do not bind a name anew, and
substitution keeps them if it replaces each variable by a type of the same kind.
-/

namespace GradedModal

open CheckM

namespace State

variable {s s' s'' : State} {kind k l : Kind}

/--
A kind with what is known about the kinds of grades in it.
-/
def resolveKind (s : State) : Kind → Kind
  | .grade kind => .grade (s.resolve kind)
  | .arrow a b => .arrow (s.resolveKind a) (s.resolveKind b)
  | kind => kind

theorem IsAcyclic.resolveKind_resolveKind (h : s.IsAcyclic) (kind : Kind)
    : s.resolveKind (s.resolveKind kind) = s.resolveKind kind := by
  induction kind with
  | type | effect => rfl
  | grade k => exact congrArg Kind.grade (h.resolve_resolve k)
  | arrow a b iha ihb => exact congrArg₂ Kind.arrow iha ihb

theorem resolve_nat (s : State) : s.resolve .nat = .nat :=
  resolve_of_ne_var (by rintro _ ⟨⟩) s

theorem eq_type_of_resolveKind (h : s.resolveKind kind = .type) : kind = .type := by
  cases kind with
  | type => rfl
  | _ => cases h

def KeepsKinds (s s' : State) : Prop :=
  ∀ k l, s.resolve k = s.resolve l → s'.resolve k = s'.resolve l

theorem KeepsKinds.resolve_resolve (h : s.KeepsKinds s') (hs : s.IsAcyclic) (kind : GradeKind)
    : s'.resolve (s.resolve kind) = s'.resolve kind :=
  h _ _ (hs.resolve_resolve kind)

theorem KeepsKinds.resolveKind (h : s.KeepsKinds s') (hkl : s.resolveKind k = s.resolveKind l)
    : s'.resolveKind k = s'.resolveKind l := by
  induction k generalizing l with
  | type | effect =>
    cases l with
    | type | effect => exact hkl
    | _ => cases hkl
  | grade k =>
    cases l with
    | grade l => exact congrArg Kind.grade (h k l (Kind.grade.inj hkl))
    | _ => cases hkl
  | arrow a b iha ihb =>
    cases l with
    | arrow a' b' =>
      obtain ⟨ha, hb⟩ := Kind.arrow.inj hkl
      exact congrArg₂ Kind.arrow (iha ha) (ihb hb)
    | _ => cases hkl

theorem KeepsKinds.resolveKind_resolveKind (h : s.KeepsKinds s') (hs : s.IsAcyclic) (kind : Kind)
    : s'.resolveKind (s.resolveKind kind) = s'.resolveKind kind :=
  h.resolveKind (hs.resolveKind_resolveKind kind)

structure Keeps (s s' : State) : Prop where
  lookup? : ∀ x v, s.lookup? x = some v → s'.lookup? x = some v
  kinds : s.KeepsKinds s'

theorem Keeps.trans (h : s.Keeps s') (h' : s'.Keeps s'') : s.Keeps s'' where
  lookup? x v hx := h'.lookup? x v (h.lookup? x v hx)
  kinds k l hkl := h'.kinds k l (h.kinds k l hkl)

/--
What is known about kinds has no cycles, and no variable has a name that is still to be made up.
-/
structure IsOrderly (s : State) : Prop where
  acyclic : s.IsAcyclic
  fresh : ∀ v ∈ s.typeVars, ∀ hint k, s.nextFresh ≤ k → v.name ≠ hint ++ "." ++ toString k

theorem IsOrderly.of_reaches (hs : s.IsOrderly) (h : s.Reaches s') : s'.IsOrderly where
  acyclic := hs.acyclic.of_reaches h
  fresh := by
    apply h.visits.induct (motive := fun t => ∀ v ∈ t.typeVars, ∀ hint k, t.nextFresh ≤ k → v.name ≠ hint ++ "." ++ toString k)
      hs.fresh
    . intro t t' htypeVars hnextFresh ht
      rw [htypeVars, hnextFresh]
      exact ht
    . intro t ht v hv hint k hk
      exact ht v hv hint k (Nat.le_of_succ_le hk)
    . intro t hint' kind quantifier ht
      rw [List.forall_mem_cons]
      refine ⟨fun hint k hk heq => ?_, fun v hv hint k hk => ht v hv hint k (Nat.le_of_succ_le hk)⟩
      exact absurd (freshName_inj heq) (Nat.ne_of_lt hk)

theorem name_of_lookup? {x : String} {v : TypeVar} (h : s.lookup? x = some v) : v ∈ s.typeVars ∧ v.name = x :=
  ⟨List.mem_of_find?_eq_some h, by simpa using List.find?_some h⟩

/--
A variable is still what it was, unless its name is made up anew.
-/
theorem lookup?_of_reaches {x : String} {v : TypeVar} (hx : s.lookup? x = some v)
    (hfresh : ∀ hint k, s.nextFresh ≤ k → x ≠ hint ++ "." ++ toString k) (h : s.Reaches s')
    : s'.lookup? x = some v := by
  have hkept : s.nextFresh ≤ s'.nextFresh ∧ s'.lookup? x = some v := by
    apply h.visits.induct (motive := fun t => s.nextFresh ≤ t.nextFresh ∧ t.lookup? x = some v) ⟨le_rfl, hx⟩
    . rintro t t' htypeVars hnextFresh ⟨hle, ht⟩
      unfold State.lookup?
      rw [htypeVars, hnextFresh]
      exact ⟨hle, ht⟩
    . rintro t ⟨hle, ht⟩
      exact ⟨Nat.le_succ_of_le hle, ht⟩
    . rintro t hint kind quantifier ⟨hle, ht⟩
      refine ⟨Nat.le_succ_of_le hle, ?_⟩
      unfold State.lookup?
      rw [List.find?_cons_of_neg]
      . exact ht
      . simpa using (hfresh hint t.nextFresh hle).symm
  exact hkept.2

theorem IsOrderly.keeps (hs : s.IsOrderly) (h : s.Reaches s') : s.Keeps s' where
  kinds k l hkl := hs.acyclic.resolve_eq_of_reaches h hkl
  lookup? x v hx := by
    obtain ⟨hv, rfl⟩ := name_of_lookup? hx
    exact lookup?_of_reaches hx (hs.fresh v hv) h

theorem IsAcyclic.step (hs : s.IsAcyclic) (h : s.Reaches s') (htypeVars : s'.typeVars = s.typeVars)
    : s.Keeps s' ∧ s'.IsAcyclic := by
  refine ⟨⟨?_, fun k l hkl => hs.resolve_eq_of_reaches h hkl⟩, hs.of_reaches h⟩
  intro x v hx
  unfold State.lookup?
  rw [htypeVars]
  exact hx

end State

section

variable {s s' : State} {pos : Nat} {env : Env}

theorem CheckM.lookup?_of_typeVar {name : String} {v : TypeVar} (h : typeVar pos name s = .ok v s')
    : s.lookup? name = some v ∧ s = s' := by
  unfold typeVar at h
  rw [bind_eq_ok] at h
  obtain ⟨t, _, hget, h⟩ := h
  rw [get_eq_ok] at hget
  obtain ⟨rfl, rfl⟩ := hget
  cases hlookup : s.lookup? name with
  | none => simp only [hlookup, fail_eq_ok] at h
  | some w =>
    simp only [hlookup, pure_eq_ok] at h
    obtain ⟨rfl, rfl⟩ := h
    exact ⟨rfl, rfl⟩

theorem CheckM.typeVar_of_lookup? {name : String} {v : TypeVar} (h : s.lookup? name = some v)
    : typeVar pos name s = .ok v s := by
  unfold typeVar
  rw [bind_of_ok (rfl : (get : CheckM State) s = .ok s s), h]
  rfl

theorem CheckM.discard_eq_ok {α : Type} {x : CheckM α} {u : Unit} : discard x s = .ok u s' ↔ ∃ a, x s = .ok a s' := by
  change ((fun _ => ()) <$> x) s = .ok u s' ↔ _
  rw [map_eq_ok]
  simp

theorem CheckM.discard_of_ok {α : Type} {x : CheckM α} {a : α} (h : x s = .ok a s') : discard x s = .ok () s' :=
  discard_eq_ok.mpr ⟨a, h⟩

theorem GradeKind.keeps_unify {k l kind : GradeKind} (hs : s.IsAcyclic) (h : GradeKind.unify pos k l s = .ok kind s')
    : s.Keeps s' ∧ s'.IsAcyclic :=
  hs.step (GradeKind.unify_quiet _ _ _ h).reaches ((GradeKind.ensures_unify pos k l rfl).1 kind s' h).2

theorem Grade.keeps_inferKind {g : Grade} {kind : GradeKind} (hs : s.IsAcyclic) (h : g.inferKind pos s = .ok kind s')
    : s.Keeps s' ∧ s'.IsAcyclic :=
  hs.step (Grade.inferKind_quiet _ _ h).reaches ((Grade.ensures_inferKind pos g rfl).1 kind s' h).2

theorem Kind.keeps_unify {k l kind : Kind} (hs : s.IsAcyclic) (h : Kind.unify pos k l s = .ok kind s')
    : s.Keeps s' ∧ s'.IsAcyclic :=
  hs.step (Kind.unify_quiet _ _ _ h).reaches ((Kind.ensures_unify pos k l rfl).1 kind s' h).2

theorem Ty.keeps_inferKind {ty : Ty} {kind : Kind} (hs : s.IsAcyclic) (h : ty.inferKind env pos s = .ok kind s')
    : s.Keeps s' ∧ s'.IsAcyclic :=
  hs.step (Ty.inferKind_quiet _ _ _ h).reaches ((Ty.ensures_inferKind pos ty rfl).1 kind s' h).2

theorem Kind.resolveKind_unify {k l kind : Kind} (hs : s.IsAcyclic) (h : Kind.unify pos k l s = .ok kind s')
    : s'.resolveKind k = s'.resolveKind kind ∧ s'.resolveKind l = s'.resolveKind kind := by
  fun_induction Kind.unify pos k l generalizing s s' kind with
  | case1 a b =>
    rw [bind_eq_ok] at h
    obtain ⟨m, _, hunify, h⟩ := h
    rw [pure_eq_ok] at h
    obtain ⟨rfl, rfl⟩ := h
    obtain ⟨ha, hb⟩ := GradeKind.resolve_unify hs hunify
    exact ⟨congrArg Kind.grade ha, congrArg Kind.grade hb⟩
  | case2 a b a' b' iha ihb =>
    simp only [bind_eq_ok, pure_eq_ok] at h
    obtain ⟨input, s₁, hinput, output, _, houtput, rfl, rfl⟩ := h
    obtain ⟨_, hs₁⟩ := Kind.keeps_unify hs hinput
    obtain ⟨hkeeps, _⟩ := Kind.keeps_unify hs₁ houtput
    obtain ⟨ha, ha'⟩ := iha hs hinput
    obtain ⟨hb, hb'⟩ := ihb hs₁ houtput
    have ha := hkeeps.kinds.resolveKind ha
    have ha' := hkeeps.kinds.resolveKind ha'
    exact ⟨congrArg₂ Kind.arrow ha hb, congrArg₂ Kind.arrow ha' hb'⟩
  | case3 =>
    rw [pure_eq_ok] at h
    obtain ⟨rfl, rfl⟩ := h
    exact ⟨rfl, rfl⟩
  | case4 =>
    rw [fail_eq_ok] at h
    exact h.elim

-- Kinds that are the same already are unified without learning anything.
theorem Kind.unify_of_resolveKind_eq {k l : Kind} (h : s.resolveKind k = s.resolveKind l)
    : ∃ kind, Kind.unify pos k l s = .ok kind s := by
  induction k generalizing l with
  | type =>
    obtain rfl := State.eq_type_of_resolveKind h.symm
    exact ⟨.type, rfl⟩
  | effect =>
    cases l with
    | effect => exact ⟨.effect, rfl⟩
    | _ => cases h
  | grade k =>
    cases l with
    | grade l =>
      have hunify : GradeKind.unify pos k l s = _ := GradeKind.unify_of_resolve_eq (Kind.grade.inj h)
      refine ⟨.grade (s.resolve k), ?_⟩
      unfold Kind.unify
      rw [bind_of_ok hunify]
      rfl
    | _ => cases h
  | arrow a b iha ihb =>
    cases l with
    | arrow a' b' =>
      obtain ⟨ha, hb⟩ := Kind.arrow.inj h
      obtain ⟨input, hinput⟩ := iha ha
      obtain ⟨output, houtput⟩ := ihb hb
      refine ⟨.arrow input output, ?_⟩
      unfold Kind.unify
      rw [bind_of_ok hinput, bind_of_ok houtput]
      rfl
    | _ => cases h

end

/--
The kind of a grade, with what is known about it.
-/
inductive Grade.HasKind (s : State) : Grade → GradeKind → Prop where
  | var {x : String} {v : TypeVar} {k : GradeKind} (hx : s.lookup? x = some v) (hk : v.kind = .grade k) :
    HasKind s (.var x) (s.resolve k)
  | nat (n : Nat) : HasKind s (.nat n) .nat
  | float (x : Float) : HasKind s (.float x) .float
  | level (l : Level) : HasKind s (.level l) .level
  | zero (k : GradeKind) : HasKind s (.zero k) (s.resolve k)
  | one (k : GradeKind) : HasKind s (.one k) (s.resolve k)
  | op {o : Op} {g h : Grade} {k : GradeKind} (hg : g.HasKind s k) (hh : h.HasKind s k) : HasKind s (.op o g h) k

/--
The kind of a type, with what is known about it.
-/
inductive Ty.HasKind (env : Env) (s : State) : Ty → Kind → Prop where
  | const {n : String} {k : Kind} (hn : env.builtins.types.lookup n = some k) :
    HasKind env s (.const n) (s.resolveKind k)
  | var {x : String} {v : TypeVar} (hx : s.lookup? x = some v) : HasKind env s (.var x) (s.resolveKind v.kind)
  | index (n : Nat) : HasKind env s (.index n) (.grade .nat)
  | op {o : Op} {a b : Ty} {k : GradeKind} (ha : a.HasKind env s (.grade k)) (hb : b.HasKind env s (.grade k)) :
    HasKind env s (.op o a b) (.grade k)
  | arrow {a b : Ty} (ha : a.HasKind env s .type) (hb : b.HasKind env s .type) : HasKind env s (.arrow a b) .type
  | pair {a b : Ty} (ha : a.HasKind env s .type) (hb : b.HasKind env s .type) : HasKind env s (.pair a b) .type
  | box {g : Grade} {k : GradeKind} {a : Ty} (hg : g.HasKind s k) (ha : a.HasKind env s .type) :
    HasKind env s (.box g a) .type
  | diamond {effects : List String} {a : Ty} (ha : a.HasKind env s .type) : HasKind env s (.diamond effects a) .type
  | app {a b : Ty} {input output : Kind} (ha : a.HasKind env s (.arrow input output)) (hb : b.HasKind env s input) :
    HasKind env s (.app a b) output

section

variable {s s' t : State} {pos : Nat} {env : Env} {g : Grade} {ty : Ty}

theorem Grade.HasKind.resolve_eq {k : GradeKind} (h : g.HasKind s k) (hs : s.IsAcyclic) : s.resolve k = k := by
  induction h with
  | var _ _ => exact hs.resolve_resolve _
  | nat | float | level => exact State.resolve_of_ne_var (by rintro _ ⟨⟩) s
  | zero k | one k => exact hs.resolve_resolve k
  | op _ _ ih _ => exact ih

theorem Grade.HasKind.of_mem_occurrences {k : GradeKind} {x : String} (h : g.HasKind s k) (hx : x ∈ g.occurrences)
    : (Grade.var x).HasKind s k := by
  induction h with
  | var hy hk =>
    obtain rfl := List.mem_singleton.mp hx
    exact .var hy hk
  | op _ _ ihg ihh => exact (List.mem_append.mp hx).elim ihg ihh
  | _ => cases hx

theorem Grade.HasKind.inferKind {k : GradeKind} (h : g.HasKind s k) (hs : s.IsAcyclic) (pos : Nat)
    : g.inferKind pos s = .ok k s := by
  induction h with
  | var hx hk =>
    unfold Grade.inferKind
    rw [bind_of_ok (typeVar_of_lookup? hx), hk]
    exact resolve_eq_ok.mpr ⟨rfl, rfl⟩
  | nat | float | level => rfl
  | zero k | one k => exact resolve_eq_ok.mpr ⟨rfl, rfl⟩
  | op hg _ ihg ihh =>
    unfold Grade.inferKind
    rw [bind_of_ok ihg, bind_of_ok ihh, GradeKind.unify_of_resolve_eq rfl, hg.resolve_eq hs]

theorem Ty.HasKind.resolveKind_eq {k : Kind} (h : ty.HasKind env s k) (hs : s.IsAcyclic) : s.resolveKind k = k := by
  induction h with
  | const _ | var _ => exact hs.resolveKind_resolveKind _
  | index n => exact congrArg Kind.grade s.resolve_nat
  | op _ _ ih _ => exact ih
  | app _ _ ih _ => exact (Kind.arrow.inj ih).2
  | _ => rfl

theorem Ty.HasKind.inferKind {k : Kind} (h : ty.HasKind env s k) (hs : s.IsAcyclic) (pos : Nat)
    : ∃ kind, ty.inferKind env pos s = .ok kind s ∧ s.resolveKind kind = k := by
  have htype : ∀ {a : Ty}, (∃ kind, a.inferKind env pos s = .ok kind s ∧ s.resolveKind kind = .type) →
      a.inferKind env pos s = .ok .type s := by
    rintro a ⟨kind, ha, hkind⟩
    rw [ha, State.eq_type_of_resolveKind hkind]
  have hunify : Kind.unify pos .type .type s = .ok .type s := rfl
  induction h with
  | @const n k hn =>
    refine ⟨k, ?_, rfl⟩
    unfold Ty.inferKind
    rw [hn]
    rfl
  | @var x v hx =>
    refine ⟨v.kind, ?_, rfl⟩
    unfold Ty.inferKind
    rw [bind_of_ok (typeVar_of_lookup? hx)]
    rfl
  | index n => exact ⟨.grade .nat, rfl, congrArg Kind.grade s.resolve_nat⟩
  | @op o a b k ha hb iha ihb =>
    obtain ⟨left, ha, hleft⟩ := iha
    obtain ⟨right, hb, hright⟩ := ihb
    cases left with
    | grade l =>
      cases right with
      | grade r =>
        have heq := (Kind.grade.inj hleft).trans (Kind.grade.inj hright).symm
        refine ⟨.grade (s.resolve l), ?_, ?_⟩
        . unfold Ty.inferKind
          rw [bind_of_ok ha, bind_of_ok hb]
          dsimp only
          rw [bind_of_ok (GradeKind.unify_of_resolve_eq heq)]
          rfl
        . rw [← hleft]
          exact hs.resolveKind_resolveKind (.grade l)
      | _ => cases hright
    | _ => cases hleft
  | arrow _ _ iha ihb | pair _ _ iha ihb =>
    refine ⟨.type, ?_, rfl⟩
    unfold Ty.inferKind
    rw [bind_of_ok (htype iha), bind_of_ok (discard_of_ok hunify), bind_of_ok (htype ihb)]
    rfl
  | box hg _ ih =>
    refine ⟨.type, ?_, rfl⟩
    unfold Ty.inferKind
    rw [bind_of_ok (discard_of_ok (hg.inferKind hs pos)), bind_of_ok (htype ih)]
    rfl
  | diamond _ ih =>
    refine ⟨.type, ?_, rfl⟩
    unfold Ty.inferKind
    rw [bind_of_ok (htype ih)]
    rfl
  | @app a b input output ha hb iha ihb =>
    obtain ⟨function, ha, hfunction⟩ := iha
    obtain ⟨arg, hb, harg⟩ := ihb
    cases function with
    | arrow input' output' =>
      obtain ⟨hinput, houtput⟩ := Kind.arrow.inj hfunction
      obtain ⟨kind, hunify⟩ := Kind.unify_of_resolveKind_eq (hinput.trans harg.symm)
      refine ⟨output', ?_, houtput⟩
      unfold Ty.inferKind
      rw [bind_of_ok ha, bind_of_ok hb]
      dsimp only
      rw [bind_of_ok (discard_of_ok hunify)]
      rfl
    | _ => cases hfunction

/--
A substitution takes types of one state to types of another: kinds that are the same stay the same, and whatever
replaces a variable has its kind.
-/
structure Substitution.Carries (env : Env) (s s' : State) (subst : Substitution) : Prop where
  kinds : s.KeepsKinds s'
  var : ∀ x v, s.lookup? x = some v → ((Ty.var x).substitute subst).HasKind env s' (s'.resolveKind v.kind)
  grade : ∀ x v k, s.lookup? x = some v → v.kind = .grade k →
    ((Grade.var x).substitute subst).HasKind s' (s'.resolve k)

/--
A substitution replaces the variables of one state by variables of another that have the same kinds.
-/
def Substitution.Renames (s s' : State) (subst : Substitution) : Prop :=
  ∀ x v, s.lookup? x = some v → ∃ y w, subst.lookup x = some (.var y) ∧ s'.lookup? y = some w ∧ w.kind = v.kind

theorem Substitution.Renames.carries {subst : Substitution} (h : subst.Renames s s') (hkinds : s.KeepsKinds s')
    : subst.Carries env s s' := by
  refine ⟨hkinds, ?_, ?_⟩
  . intro x v hx
    obtain ⟨y, w, hy, hw, hkind⟩ := h x v hx
    unfold Ty.substitute
    rw [hy, ← hkind]
    exact .var hw
  . intro x v k hx hk
    obtain ⟨y, w, hy, hw, hkind⟩ := h x v hx
    unfold Grade.substitute
    rw [hy]
    exact .var hw (hkind.trans hk)

theorem Grade.HasKind.substitute {k : GradeKind} {subst : Substitution} (h : g.HasKind s k) (hs : s.IsAcyclic)
    (hsubst : subst.Carries env s s') : (g.substitute subst).HasKind s' (s'.resolve k) := by
  induction h with
  | var hx hk =>
    rw [hsubst.kinds.resolve_resolve hs]
    exact hsubst.grade _ _ _ hx hk
  | nat | float | level =>
    rw [State.resolve_of_ne_var (by rintro _ ⟨⟩)]
    constructor
  | zero k | one k =>
    rw [hsubst.kinds.resolve_resolve hs]
    constructor
  | op _ _ ihg ihh => exact .op ihg ihh

theorem Ty.HasKind.substitute {k : Kind} {subst : Substitution} (h : ty.HasKind env s k) (hs : s.IsAcyclic)
    (hsubst : subst.Carries env s s') : (ty.substitute subst).HasKind env s' (s'.resolveKind k) := by
  induction h with
  | const hn =>
    rw [hsubst.kinds.resolveKind_resolveKind hs]
    exact .const hn
  | var hx =>
    rw [hsubst.kinds.resolveKind_resolveKind hs]
    exact hsubst.var _ _ hx
  | index n =>
    unfold State.resolveKind
    rw [State.resolve_nat]
    exact .index n
  | op _ _ iha ihb => exact .op iha ihb
  | arrow _ _ iha ihb => exact .arrow iha ihb
  | pair _ _ iha ihb => exact .pair iha ihb
  | box hg _ ih => exact .box (hg.substitute hs hsubst) ih
  | diamond _ ih => exact .diamond ih
  | app _ _ iha ihb => exact .app iha ihb

theorem State.Keeps.carries (h : s.Keeps s') : Substitution.Carries env s s' [] where
  kinds := h.kinds
  var x v hx := .var (h.lookup? x v hx)
  grade x v _ hx hk := .var (h.lookup? x v hx) hk

theorem Ty.HasKind.keeps {k : Kind} (h : ty.HasKind env s k) (hs : s.IsAcyclic) (hkeeps : s.Keeps s')
    : ty.HasKind env s' (s'.resolveKind k) := by
  rw [← ty.substitute_nil]
  exact h.substitute hs hkeeps.carries

theorem Grade.HasKind.keeps {k : GradeKind} (h : g.HasKind s k) (hs : s.IsAcyclic) (hkeeps : s.Keeps s')
    : g.HasKind s' (s'.resolve k) := by
  rw [← g.substitute_nil]
  have hcarries : Substitution.Carries default s s' [] := hkeeps.carries
  exact h.substitute hs hcarries

-- What was known about a kind in the earlier state is known in the later one.
theorem Ty.HasKind.keeps_resolveKind {k : Kind} (h : ty.HasKind env s (s.resolveKind k)) (hs : s.IsAcyclic)
    (hkeeps : s.Keeps s') : ty.HasKind env s' (s'.resolveKind k) := by
  rw [← hkeeps.kinds.resolveKind_resolveKind hs]
  exact h.keeps hs hkeeps

theorem Grade.HasKind.keeps_resolve {k : GradeKind} (h : g.HasKind s (s.resolve k)) (hs : s.IsAcyclic)
    (hkeeps : s.Keeps s') : g.HasKind s' (s'.resolve k) := by
  rw [← hkeeps.kinds.resolve_resolve hs]
  exact h.keeps hs hkeeps

theorem Grade.hasKind_inferKind {k : GradeKind} (hs : s.IsAcyclic) (h : g.inferKind pos s = .ok k s')
    : g.HasKind s' (s'.resolve k) := by
  induction g generalizing s s' k with
  | var x =>
    unfold Grade.inferKind at h
    rw [bind_eq_ok] at h
    obtain ⟨v, _, hv, h⟩ := h
    obtain ⟨hx, rfl⟩ := lookup?_of_typeVar hv
    cases hk : v.kind with
    | grade kind =>
      simp only [hk, resolve_eq_ok] at h
      obtain ⟨rfl, rfl⟩ := h
      rw [hs.resolve_resolve]
      exact .var hx hk
    | _ => simp only [hk, fail_eq_ok] at h
  | nat | float | level =>
    obtain ⟨rfl, rfl⟩ := pure_eq_ok.mp h
    rw [State.resolve_of_ne_var (by rintro _ ⟨⟩)]
    constructor
  | zero kind | one kind =>
    obtain ⟨rfl, rfl⟩ := resolve_eq_ok.mp h
    rw [hs.resolve_resolve]
    constructor
  | op o a b iha ihb =>
    unfold Grade.inferKind at h
    simp only [bind_eq_ok] at h
    obtain ⟨left, s₁, ha, right, s₂, hb, h⟩ := h
    obtain ⟨_, hs₁⟩ := Grade.keeps_inferKind hs ha
    obtain ⟨hkeeps₂, hs₂⟩ := Grade.keeps_inferKind hs₁ hb
    obtain ⟨hkeeps, _⟩ := GradeKind.keeps_unify hs₂ h
    obtain ⟨hleft, hright⟩ := GradeKind.resolve_unify hs₂ h
    have ha := (iha hs ha).keeps_resolve hs₁ (hkeeps₂.trans hkeeps)
    have hb := (ihb hs₁ hb).keeps_resolve hs₂ hkeeps
    rw [hleft] at ha
    rw [hright] at hb
    exact .op ha hb

theorem Kind.eq_type_of_unify {k kind : Kind} (h : Kind.unify pos .type k s = .ok kind s') : k = .type ∧ s = s' := by
  unfold Kind.unify at h
  split at h
  . next heq =>
    rw [pure_eq_ok] at h
    exact ⟨heq.symm, h.2⟩
  . rw [fail_eq_ok] at h
    exact h.elim

theorem Ty.hasKind_inferKind {k : Kind} (hs : s.IsAcyclic) (h : ty.inferKind env pos s = .ok k s')
    : ty.HasKind env s' (s'.resolveKind k) := by
  induction ty generalizing s s' k with
  | const n =>
    unfold Ty.inferKind at h
    cases hn : env.builtins.types.lookup n with
    | none => simp only [hn, fail_eq_ok] at h
    | some kind =>
      simp only [hn, pure_eq_ok] at h
      obtain ⟨rfl, rfl⟩ := h
      exact .const hn
  | var x =>
    unfold Ty.inferKind at h
    simp only [bind_eq_ok, pure_eq_ok] at h
    obtain ⟨v, _, hv, rfl, rfl⟩ := h
    obtain ⟨hx, rfl⟩ := lookup?_of_typeVar hv
    exact .var hx
  | index n =>
    obtain ⟨rfl, rfl⟩ := pure_eq_ok.mp h
    unfold State.resolveKind
    rw [State.resolve_nat]
    exact .index n
  | op o a b iha ihb =>
    unfold Ty.inferKind at h
    simp only [bind_eq_ok] at h
    obtain ⟨left, s₁, ha, right, s₂, hb, h⟩ := h
    obtain ⟨_, hs₁⟩ := Ty.keeps_inferKind hs ha
    obtain ⟨hkeeps₂, hs₂⟩ := Ty.keeps_inferKind hs₁ hb
    split at h
    . next l r =>
      simp only [bind_eq_ok, pure_eq_ok] at h
      obtain ⟨kind, _, h, rfl, rfl⟩ := h
      obtain ⟨hkeeps, _⟩ := GradeKind.keeps_unify hs₂ h
      obtain ⟨hleft, hright⟩ := GradeKind.resolve_unify hs₂ h
      have ha := (iha hs ha).keeps_resolveKind hs₁ (hkeeps₂.trans hkeeps)
      have hb := (ihb hs₁ hb).keeps_resolveKind hs₂ hkeeps
      unfold State.resolveKind at ha hb ⊢
      rw [hleft] at ha
      rw [hright] at hb
      exact .op ha hb
    . rw [fail_eq_ok] at h
      exact h.elim
    . rw [fail_eq_ok] at h
      exact h.elim
  | arrow a b iha ihb | pair a b iha ihb =>
    unfold Ty.inferKind at h
    simp only [bind_eq_ok, discard_eq_ok, pure_eq_ok] at h
    obtain ⟨left, s₁, ha, _, _, ⟨_, hleft⟩, right, s₂, hb, _, _, ⟨_, hright⟩, rfl, rfl⟩ := h
    obtain ⟨rfl, rfl⟩ := Kind.eq_type_of_unify hleft
    obtain ⟨rfl, rfl⟩ := Kind.eq_type_of_unify hright
    obtain ⟨_, hs₁⟩ := Ty.keeps_inferKind hs ha
    obtain ⟨hkeeps, _⟩ := Ty.keeps_inferKind hs₁ hb
    have ha := (iha hs ha).keeps hs₁ hkeeps
    have hb := ihb hs₁ hb
    constructor
    . exact ha
    . exact hb
  | box grade a ih =>
    unfold Ty.inferKind at h
    simp only [bind_eq_ok, discard_eq_ok, pure_eq_ok] at h
    obtain ⟨_, s₁, ⟨kind, hgrade⟩, k, s₂, ha, _, _, ⟨_, hunify⟩, rfl, rfl⟩ := h
    obtain ⟨rfl, rfl⟩ := Kind.eq_type_of_unify hunify
    obtain ⟨_, hs₁⟩ := Grade.keeps_inferKind hs hgrade
    obtain ⟨hkeeps, _⟩ := Ty.keeps_inferKind hs₁ ha
    have hgrade := (Grade.hasKind_inferKind hs hgrade).keeps hs₁ hkeeps
    exact .box hgrade (ih hs₁ ha)
  | diamond effects a ih =>
    unfold Ty.inferKind at h
    simp only [bind_eq_ok, discard_eq_ok, pure_eq_ok] at h
    obtain ⟨k, s₁, ha, _, _, ⟨_, hunify⟩, rfl, rfl⟩ := h
    obtain ⟨rfl, rfl⟩ := Kind.eq_type_of_unify hunify
    exact .diamond (ih hs ha)
  | app a b iha ihb =>
    unfold Ty.inferKind at h
    simp only [bind_eq_ok] at h
    obtain ⟨function, s₁, ha, arg, s₂, hb, h⟩ := h
    obtain ⟨_, hs₁⟩ := Ty.keeps_inferKind hs ha
    obtain ⟨hkeeps₂, hs₂⟩ := Ty.keeps_inferKind hs₁ hb
    split at h
    . next input output =>
      simp only [bind_eq_ok, discard_eq_ok, pure_eq_ok] at h
      obtain ⟨_, _, ⟨kind, h⟩, rfl, rfl⟩ := h
      obtain ⟨hkeeps, _⟩ := Kind.keeps_unify hs₂ h
      obtain ⟨hinput, harg⟩ := Kind.resolveKind_unify hs₂ h
      have ha := (iha hs ha).keeps_resolveKind hs₁ (hkeeps₂.trans hkeeps)
      have hb := (ihb hs₁ hb).keeps_resolveKind hs₂ hkeeps
      rw [harg, ← hinput] at hb
      exact .app ha hb
    . rw [fail_eq_ok] at h
      exact h.elim

end
end GradedModal
