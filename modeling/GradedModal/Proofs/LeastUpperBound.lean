import Mathlib
import GradedModal.Proofs.KindedQueries
import GradedModal.Proofs.SynthesizedKinds

/-!
This module says what the join of two contexts means. Whatever values satisfy the constraints that are collected for
it, its grades are above those of both sides. That they can be the larger ones of the two, whatever values the
variables have that were there before, is where the names of its grades have to be new.
-/

namespace GradedModal

open CheckM

/--
The kinds of naturals and of levels.
-/
def GradeKind.IsDiscrete (kind : GradeKind) : Prop :=
  kind = .nat ∨ kind = .level

instance (kind : GradeKind) : Decidable kind.IsDiscrete :=
  inferInstanceAs (Decidable (_ ∨ _))

theorem GradeKind.IsDiscrete.ne_var {kind : GradeKind} (h : kind.IsDiscrete) (name : String) : kind ≠ .var name := by
  rintro rfl
  simp [IsDiscrete] at h

namespace Value

/--
Naturals are compared with naturals, and levels with levels.
-/
def atMost : Value → Value → Prop
  | .nat m, .nat n => m ≤ n
  | .level l, .level l' => l ≤ l'
  | _, _ => False

instance : LE Value where
  le := atMost

theorem nat_le_iff {m : Nat} {w : Value} : .nat m ≤ w ↔ ∃ n, w = .nat n ∧ m ≤ n := by
  constructor
  . intro h
    cases w with
    | nat n => exact ⟨n, rfl, h⟩
    | _ => cases h
  . rintro ⟨n, rfl, h⟩
    exact h

theorem level_le_iff {l : Level} {w : Value} : .level l ≤ w ↔ ∃ l', w = .level l' ∧ l ≤ l' := by
  constructor
  . intro h
    cases w with
    | level l' => exact ⟨l', rfl, h⟩
    | _ => cases h
  . rintro ⟨l', rfl, h⟩
    exact h

theorem le_total {kind : GradeKind} {v w : Value} (hkind : kind.IsDiscrete) (hv : v.kind = kind)
    (hw : w.kind = kind) : v ≤ w ∨ w ≤ v := by
  subst hv
  cases v with
  | nat m =>
    cases w with
    | nat n => exact Nat.le_total m n
    | _ => cases hw
  | level l =>
    cases w with
    | level l' => exact Nat.le_total l.rank l'.rank
    | _ => cases hw
  | float x => simp [GradeKind.IsDiscrete, Value.kind] at hkind

theorem le_refl {kind : GradeKind} {v : Value} (hkind : kind.IsDiscrete) (hv : v.kind = kind) : v ≤ v :=
  (le_total hkind hv hv).elim id id

end Value

def Relation.onValue : Relation → Value → Value → Prop
  | .eq, v, w => v = w
  | .le, v, w => v ≤ w

namespace Relation

theorem kind_eq_of_onValue {r : Relation} {v w : Value} (h : r.onValue v w) : w.kind = v.kind := by
  cases r with
  | eq =>
    cases h
    rfl
  | le =>
    cases v with
    | nat m =>
      obtain ⟨n, rfl, _⟩ := Value.nat_le_iff.mp h
      rfl
    | level l =>
      obtain ⟨l', rfl, _⟩ := Value.level_le_iff.mp h
      rfl
    | float x => cases h

theorem onValue_trans {r : Relation} {u v w : Value} (h : r.onValue u v) (h' : r.onValue v w) : r.onValue u w := by
  cases r with
  | eq => exact Eq.trans h h'
  | le =>
    cases u with
    | nat l =>
      obtain ⟨m, rfl, hlm⟩ := Value.nat_le_iff.mp h
      obtain ⟨n, rfl, hmn⟩ := Value.nat_le_iff.mp h'
      exact Nat.le_trans hlm hmn
    | level l =>
      obtain ⟨m, rfl, hlm⟩ := Value.level_le_iff.mp h
      obtain ⟨n, rfl, hmn⟩ := Value.level_le_iff.mp h'
      exact Nat.le_trans hlm hmn
    | float x => cases h

theorem onNat_iff {r : Relation} {m n : Nat} : r.onNat m n = true ↔ r.onValue (.nat m) (.nat n) := by
  cases r with
  | eq => simp [onNat, onValue]
  | le => exact decide_eq_true_iff

theorem onLevel_iff {r : Relation} {l l' : Level} : r.onLevel l l' = true ↔ r.onValue (.level l) (.level l') := by
  cases r with
  | eq => simp [onLevel, onValue]
  | le => exact decide_eq_true_iff

end Relation

namespace Constraint

variable {c : Constraint} {pos : Nat} {g h : Grade} {kind : GradeKind} {a : Assignment}

theorem holds_iff (hkind : c.kind.IsDiscrete)
    : c.holds a = .ok true ↔
        ∃ v w, c.left.evaluate c.kind a = .ok v ∧ c.right.evaluate c.kind a = .ok w ∧ v.kind = c.kind ∧
          c.relation.onValue v w := by
  obtain ⟨pos, relation, g, h, kind⟩ := c
  unfold holds
  change (g.evaluate kind a >>= fun v => h.evaluate kind a >>= fun w => _) = _ ↔ _
  cases g.evaluate kind a with
  | error e => exact ⟨fun h => (by cases h), fun h => (by simp at h)⟩
  | ok v =>
    cases h.evaluate kind a with
    | error e => exact ⟨fun h => (by cases h), fun h => (by simp at h)⟩
    | ok w =>
      simp only [Except.ok.injEq, exists_and_left, exists_eq_left', bind, Except.bind]
      obtain rfl | rfl := hkind
      . cases v with
        | nat m =>
          cases w with
          | nat n => simp [Value.nat?, Value.kind, pure, Except.pure, Relation.onNat_iff]
          | _ => exact ⟨fun h => (by cases h), fun h => (by cases Relation.kind_eq_of_onValue h.2)⟩
        | _ => simp [Value.nat?, Value.kind]
      . cases v with
        | level l =>
          cases w with
          | level l' => simp [Value.level?, Value.kind, pure, Except.pure, Relation.onLevel_iff]
          | _ => exact ⟨fun h => (by cases h), fun h => (by cases Relation.kind_eq_of_onValue h.2)⟩
        | _ => simp [Value.level?, Value.kind]

theorem holds_le_iff (hkind : kind.IsDiscrete)
    : (Constraint.le pos g h kind).holds a = .ok true ↔
        ∃ v w, g.evaluate kind a = .ok v ∧ h.evaluate kind a = .ok w ∧ v.kind = kind ∧ v ≤ w :=
  holds_iff (c := .le pos g h kind) hkind

end Constraint

/--
The value of what is used of a variable. What is not used has the value zero.
-/
def Assumption.evaluate (kind : GradeKind) (a : Assignment) : Option Assumption → Except EvalError Value
  | none => Value.zero kind
  | some (.linear _) => Value.one kind
  | some (.graded _ g) => g.evaluate kind a

namespace State

/--
An assignment has a value for each grade variable, of the kind that is known for the variable in a later state.
-/
def IsAssigned (s later : State) (a : Assignment) : Prop :=
  ∀ x v k, s.lookup? x = some v → v.kind = .grade k → ∃ value, a.lookup x = some value ∧ value.kind = later.settle k

/--
Two assignments have the same values for the variables in scope.
-/
def Agree (s : State) (a a' : Assignment) : Prop :=
  ∀ x v, s.lookup? x = some v → a'.lookup x = a.lookup x

theorem ReachesQuietly.demands_eq {s s' : State} (h : s.ReachesQuietly s') : s.demands s' = [] := by
  unfold demands added
  rw [current_congr h.predicate h.scopes, List.drop_length]
  rfl

theorem lookup?_congr {s s' : State} (h : s'.typeVars = s.typeVars) (x : String) : s'.lookup? x = s.lookup? x := by
  unfold lookup?
  rw [h]

theorem settle_nat (s : State) : s.settle .nat = .nat :=
  settle_of_ne_var (by simp) s

theorem isAssigned_of_naturals {s later : State} {a : Assignment}
    (h : ∀ v ∈ s.typeVars, ∀ k, v.kind = .grade k → k = .nat ∧ ∃ n, a.lookup v.name = some (.nat n))
    : s.IsAssigned later a := by
  intro x v k hx hk
  obtain ⟨hv, rfl⟩ := name_of_lookup? hx
  obtain ⟨rfl, n, hn⟩ := h v hv k hk
  exact ⟨.nat n, hn, later.settle_nat.symm⟩

/-- The state in which a universal variable stands for a natural. -/
def withNatural (name : String) : State :=
  { start with typeVars := [⟨name, .grade .nat, .universal⟩] }

theorem isAssigned_withNatural (name : String) (n : Nat) (later : State)
    : (withNatural name).IsAssigned later [(name, .nat n)] := by
  apply isAssigned_of_naturals
  simp [withNatural]

end State

namespace Grade.HasKind

variable {s later : State} {g : Grade} {k kind : GradeKind} {a a' : Assignment}

theorem evaluate_congr (hg : g.HasKind s k) (h : s.Agree a a') (kind : GradeKind)
    : g.evaluate kind a' = g.evaluate kind a := by
  induction hg with
  | var hx _ =>
    unfold evaluate
    rw [h _ _ hx]
  | op _ _ ihg ihh =>
    unfold evaluate
    rw [ihg, ihh]
  | _ => rfl

theorem exists_evaluate_settle (hg : g.HasKind s k) (hs : s.IsAcyclic) (hlater : s.Reaches later)
    (hkind : (later.settle k).IsDiscrete) (ha : s.IsAssigned later a)
    : ∃ v, g.evaluate (later.settle k) a = .ok v ∧ v.kind = later.settle k := by
  induction hg with
  | @var x v k hx hk =>
    obtain ⟨value, hvalue, hvaluekind⟩ := ha _ _ _ hx hk
    have hsettle := State.settle_congr (hs.resolve_eq_of_reaches hlater (hs.resolve_resolve k))
    refine ⟨value, ?_, hvaluekind.trans hsettle.symm⟩
    unfold evaluate
    rw [hvalue]
  | nat n =>
    rw [State.settle_of_ne_var (by simp)]
    exact ⟨.nat n, rfl, rfl⟩
  | level l =>
    rw [State.settle_of_ne_var (by simp)]
    exact ⟨.level l, rfl, rfl⟩
  | float x =>
    rw [State.settle_of_ne_var (by simp)] at hkind
    simp [GradeKind.IsDiscrete] at hkind
  | zero k | one k =>
    generalize later.settle (s.resolve k) = kind at hkind
    obtain rfl | rfl := hkind
    . exact ⟨_, rfl, rfl⟩
    . exact ⟨_, rfl, rfl⟩
  | @op o g h k _ _ ihg ihh =>
    obtain ⟨v, hv, hvkind⟩ := ihg hkind
    obtain ⟨w, hw, hwkind⟩ := ihh hkind
    obtain ⟨u, hu, hukind⟩ := o.apply_of_kind hvkind hwkind
    refine ⟨u, ?_, hukind⟩
    rw [evaluate, hv, hw]
    exact hu

theorem exists_evaluate (hg : g.HasKind s kind) (hs : s.IsAcyclic) (hlater : s.Reaches later)
    (hkind : kind.IsDiscrete) (ha : s.IsAssigned later a)
    : ∃ v, g.evaluate kind a = .ok v ∧ v.kind = kind := by
  have hsettle := later.settle_of_ne_var hkind.ne_var
  have hvalue := hg.exists_evaluate_settle hs hlater (hsettle.symm ▸ hkind) ha
  rw [hsettle] at hvalue
  exact hvalue

end Grade.HasKind

namespace Context

variable {pos : Nat} {left right u : Context} {x : String} {g h : Grade} {kind : GradeKind} {s s' : State}

theorem hasKind_commonKind (hs : s.IsAcyclic) (hcommon : commonKind pos g h s = .ok kind s')
    : g.HasKind s' (s'.resolve kind) ∧ h.HasKind s' (s'.resolve kind) := by
  unfold commonKind at hcommon
  simp only [bind_eq_ok] at hcommon
  obtain ⟨k, s₁, hg, l, s₂, hh, hunify⟩ := hcommon
  obtain ⟨_, hs₁⟩ := Grade.keeps_inferKind hs hg
  obtain ⟨hkeeps₂, hs₂⟩ := Grade.keeps_inferKind hs₁ hh
  obtain ⟨hkeeps, _⟩ := GradeKind.keeps_unify hs₂ hunify
  obtain ⟨hleft, hright⟩ := GradeKind.resolve_unify hs₂ hunify
  have hg := (Grade.hasKind_inferKind hs hg).keeps_resolve hs₁ (hkeeps₂.trans hkeeps)
  have hh := (Grade.hasKind_inferKind hs₁ hh).keeps_resolve hs₂ hkeeps
  rw [hleft] at hg
  rw [hright] at hh
  exact ⟨hg, hh⟩

theorem typeVars_commonKind (hcommon : commonKind pos g h s = .ok kind s') : s'.typeVars = s.typeVars := by
  unfold commonKind at hcommon
  simp only [bind_eq_ok] at hcommon
  obtain ⟨k, s₁, hg, l, s₂, hh, hunify⟩ := hcommon
  rw [((GradeKind.ensures_unify pos k l rfl).1 kind s' hunify).2, ((Grade.ensures_inferKind pos h rfl).1 l s₂ hh).2,
    ((Grade.ensures_inferKind pos g rfl).1 k s₁ hg).2]

-- A side that lacks a graded variable stands for a zero of the kind of the other side.
theorem useOrWeaken_eq_ok {own other o : Option Assumption} (huse : useOrWeaken pos own other s = .ok o s')
    : s.ReachesQuietly s' ∧ s'.typeVars = s.typeVars ∧
      ∀ ty g, o = some (.graded ty g) → ∀ kind a, Assumption.evaluate kind a own = g.evaluate kind a := by
  unfold useOrWeaken at huse
  cases own with
  | some b =>
    obtain ⟨rfl, rfl⟩ := pure_eq_ok.mp huse
    refine ⟨⟨.refl, rfl, rfl⟩, rfl, ?_⟩
    rintro ty g ⟨⟩ kind a
    rfl
  | none =>
    have hquiet := weaken_quiet _ _ huse
    cases other with
    | none =>
      obtain ⟨rfl, rfl⟩ := pure_eq_ok.mp huse
      exact ⟨hquiet, rfl, by simp⟩
    | some b =>
      cases b with
      | linear ty =>
        obtain ⟨rfl, rfl⟩ := pure_eq_ok.mp huse
        exact ⟨hquiet, rfl, by simp⟩
      | graded ty g =>
        unfold weaken at huse
        rw [bind_eq_ok] at huse
        obtain ⟨k, s₁, hk, huse⟩ := huse
        obtain ⟨rfl, rfl⟩ := pure_eq_ok.mp huse
        refine ⟨hquiet, ((Grade.ensures_inferKind pos g rfl).1 k s₁ hk).2, ?_⟩
        rintro ty g ⟨⟩ kind a
        rfl

theorem joinUses_eq_ok {ty : Ty} {upper : Grade} {l r : Option Assumption}
    (hjoin : joinUses pos x l r s = .ok (some (.graded ty upper)) s')
    : ∃ g ty' h kind s₁ s₂ s₃, l = some (.graded ty g) ∧ r = some (.graded ty' h) ∧
        commonKind pos g h s = .ok kind s₁ ∧ freshGrade x kind s₁ = .ok upper s₂ ∧
        constrain (.le pos g upper kind) s₂ = .ok () s₃ ∧ constrain (.le pos h upper kind) s₃ = .ok () s' := by
  unfold joinUses at hjoin
  split at hjoin
  . cases hjoin
  . cases hjoin
  . cases hjoin
  . simp only [bind_eq_ok, pure_eq_ok] at hjoin
    obtain ⟨kind, s₁, hkind, _, s₂, hupper, _, s₃, hle, _, _, hle', heq, rfl⟩ := hjoin
    cases heq
    exact ⟨_, _, _, kind, s₁, s₂, s₃, rfl, rfl, hkind, hupper, hle, hle'⟩
  . cases hjoin

/--
How a graded variable is joined: the grades of both sides get a common kind, and a new grade of this kind is required
to be above both of them.
-/
structure JoinsGraded (pos : Nat) (x : String) (left right : Option Assumption) (upper g h : Grade) (kind : GradeKind)
    (s s₁ s₂ s' : State) : Prop where
  left : ∀ k a, Assumption.evaluate k a left = g.evaluate k a
  right : ∀ k a, Assumption.evaluate k a right = h.evaluate k a
  reaches : s.Reaches s₁
  typeVars : s₁.typeVars = s.typeVars
  kinds : s.IsAcyclic → g.HasKind s₁ (s₁.resolve kind) ∧ h.HasKind s₁ (s₁.resolve kind)
  fresh : freshGrade x kind s₁ = .ok upper s₂
  reaches' : s₂.Reaches s'
  typeVars' : s'.typeVars = s₂.typeVars
  demands : s.demands s' = [.le pos g upper kind, .le pos h upper kind]

theorem joinVar_graded {ty : Ty} {upper : Grade}
    (hjoin : joinVar pos left right x s = .ok (some (.graded ty upper)) s')
    : ∃ g h kind s₁ s₂, JoinsGraded pos x (left.lookup? x) (right.lookup? x) upper g h kind s s₁ s₂ s' := by
  rw [joinVar_eq, bind_eq_ok] at hjoin
  obtain ⟨l, s₁, hl, hjoin⟩ := hjoin
  rw [bind_eq_ok] at hjoin
  obtain ⟨r, s₂, hr, hjoin⟩ := hjoin
  obtain ⟨g, ty', h, kind, s₃, s₄, s₅, rfl, rfl, hkind, hupper, hle, hle'⟩ := joinUses_eq_ok hjoin
  obtain ⟨hquiet₁, htypeVars₁, hleft⟩ := useOrWeaken_eq_ok hl
  obtain ⟨hquiet₂, htypeVars₂, hright⟩ := useOrWeaken_eq_ok hr
  have hquiet₂ := Trans.trans hquiet₁ hquiet₂
  have hquiet₃ := Trans.trans hquiet₂ (commonKind_quiet _ _ _ hkind)
  have hquiet₄ := Trans.trans hquiet₃ (quiet_freshGrade _ _ hupper)
  refine ⟨g, h, kind, s₃, s₄, hleft _ _ rfl, hright _ _ rfl, hquiet₃.reaches, ?_, fun hs => ?_, hupper, ?_, ?_, ?_⟩
  . rw [typeVars_commonKind hkind, htypeVars₂, htypeVars₁]
  . exact hasKind_commonKind (hs.of_reaches hquiet₂.reaches) hkind
  . exact (reaching_constrain _ hle).trans (reaching_constrain _ hle')
  . cases hle
    cases hle'
    rw [State.add_typeVars, State.add_typeVars]
  . rw [hquiet₄.reaches.extends.demands_append ((reaching_constrain _ hle).trans (reaching_constrain _ hle')).extends,
      (reaching_constrain _ hle).extends.demands_append (reaching_constrain _ hle').extends,
      State.demands_constrain hle, State.demands_constrain hle', hquiet₄.demands_eq]
    rfl

theorem joinVar_ungraded {o : Option Assumption} (hjoin : joinVar pos left right x s = .ok o s')
    (ho : ∀ ty g, o ≠ some (.graded ty g)) : s' = s := by
  have hjoins := joinsTo_joinVar hjoin
  rw [joinVar_eq] at hjoin
  generalize left.lookup? x = l at hjoin hjoins
  generalize right.lookup? x = r at hjoin hjoins
  cases hjoins with
  | gradedLeft ty g v | gradedRight ty g v | graded ty ty' g h v => exact absurd rfl (ho _ _)
  | _ =>
    cases hjoin
    rfl

/--
What two branches use of a variable has the values `v` and `w`, and a grade has the value `m`, in the kind of naturals
or of levels.
-/
def Evaluate (a : Assignment) (left right : Option Assumption) (g : Grade) (v w m : Value) : Prop :=
  ∃ kind, kind.IsDiscrete ∧ Assumption.evaluate kind a left = .ok v ∧
    Assumption.evaluate kind a right = .ok w ∧ g.evaluate kind a = .ok m

theorem JoinsGraded.bounds {l r : Option Assumption} {upper : Grade} {s₁ s₂ : State}
    (hjoins : JoinsGraded pos x l r upper g h kind s s₁ s₂ s') {a : Assignment}
    (hkinds : ∀ c ∈ s.demands s', c.kind.IsDiscrete) (ha : ∀ c ∈ s.demands s', c.holds a = .ok true)
    : ∃ v w m, Evaluate a l r upper v w m ∧ v ≤ m ∧ w ≤ m := by
  rw [hjoins.demands] at hkinds ha
  simp only [List.forall_mem_cons] at hkinds ha
  have hkind : kind.IsDiscrete := hkinds.1
  obtain ⟨v, m, hv, hm, _, hvm⟩ := (Constraint.holds_le_iff hkind).mp ha.1
  obtain ⟨w, m', hw, hm', _, hwm⟩ := (Constraint.holds_le_iff hkind).mp ha.2.1
  cases hm.symm.trans hm'
  exact ⟨v, w, m, ⟨kind, hkind, (hjoins.left _ _).trans hv, (hjoins.right _ _).trans hw, hm⟩, hvm, hwm⟩

/--
A value that is the larger one of two values.
-/
structure IsMax (v w m : Value) : Prop where
  left : v ≤ m
  right : w ≤ m
  eq : m = v ∨ m = w

theorem exists_isMax {v w : Value} (hkind : kind.IsDiscrete) (hv : v.kind = kind) (hw : w.kind = kind)
    : ∃ m, m.kind = kind ∧ IsMax v w m := by
  obtain hle | hle := Value.le_total hkind hv hw
  . exact ⟨w, hw, hle, Value.le_refl hkind hw, .inr rfl⟩
  . exact ⟨v, hv, Value.le_refl hkind hv, hle, .inl rfl⟩

/--
An assignment for one state can be extended to a later one, such that the constraints collected in between are
satisfied and a property holds, whatever the assignment is extended to after that.
-/
def Extends (s s' later : State) (a : Assignment) (P : Assignment → Prop) : Prop :=
  ∃ a', s.Agree a a' ∧ s'.IsAssigned later a' ∧
    ∀ a'', s'.Agree a' a'' → (∀ c ∈ s.demands s', c.holds a'' = .ok true) ∧ P a''

theorem freshGrade_eq {hint : String} {g : Grade} (h : freshGrade hint kind s = .ok g s')
    : g = .var (hint ++ "." ++ toString s.nextFresh) ∧
      s'.typeVars = ⟨hint ++ "." ++ toString s.nextFresh, .grade kind, .instantiated⟩ :: s.typeVars := by
  cases h
  exact ⟨rfl, rfl⟩

-- The new variable is given the larger one of the two values.
theorem JoinsGraded.extends {l r : Option Assumption} {upper : Grade} {s₁ s₂ later : State}
    (hjoins : JoinsGraded pos x l r upper g h kind s s₁ s₂ s') {a : Assignment} (hs : s.IsOrderly)
    (hkinds : ∀ c ∈ s.demands s', c.kind.IsDiscrete) (hlater : s'.Reaches later)
    (ha : s.IsAssigned later a)
    : Extends s s' later a fun a => ∃ v w m, Evaluate a l r upper v w m ∧ IsMax v w m := by
  rw [hjoins.demands] at hkinds
  have hkind : kind.IsDiscrete := hkinds _ List.mem_cons_self
  have hs₁ := hs.of_reaches hjoins.reaches
  have hlater₁ := ((reaching_freshGrade _ _ hjoins.fresh).trans hjoins.reaches').trans hlater
  obtain ⟨hg, hh⟩ := hjoins.kinds hs.acyclic
  rw [State.resolve_of_ne_var hkind.ne_var] at hg hh
  have ha₁ : s₁.IsAssigned later a := by
    intro y v k hy
    rw [State.lookup?_congr hjoins.typeVars] at hy
    exact ha y v k hy
  obtain ⟨v, hv, hvkind⟩ := hg.exists_evaluate hs₁.acyclic hlater₁ hkind ha₁
  obtain ⟨w, hw, hwkind⟩ := hh.exists_evaluate hs₁.acyclic hlater₁ hkind ha₁
  obtain ⟨m, hmkind, hmax⟩ := exists_isMax hkind hvkind hwkind
  obtain ⟨rfl, htypeVars₂⟩ := freshGrade_eq hjoins.fresh
  generalize hname : x ++ "." ++ toString s₁.nextFresh = name at hjoins htypeVars₂
  have hlookup : ∀ y, s'.lookup? y
      = if y = name then some ⟨name, .grade kind, .instantiated⟩ else s₁.lookup? y := by
    intro y
    unfold State.lookup?
    rw [hjoins.typeVars', htypeVars₂, List.find?_cons]
    by_cases hy : y = name
    . simp [hy]
    . simp [hy, Ne.symm hy]
  have hnew : ∀ y v, s₁.lookup? y = some v → y ≠ name := by
    intro y v hy heq
    obtain ⟨hmem, hyname⟩ := State.name_of_lookup? hy
    exact hs₁.fresh v hmem x s₁.nextFresh (Nat.le_refl _) (by rw [hyname, heq, hname])
  have hagree : s₁.Agree a ((name, m) :: a) := by
    intro y v hy
    rw [List.lookup_cons, beq_eq_false_iff_ne.mpr (hnew y v hy)]
  refine ⟨(name, m) :: a, ?_, ?_, ?_⟩
  . intro y v hy
    rw [← State.lookup?_congr hjoins.typeVars] at hy
    exact hagree y v hy
  . intro y v k hy hk
    rw [hlookup] at hy
    split at hy
    . next heq =>
      cases hy
      cases hk
      refine ⟨m, by simp [heq], ?_⟩
      rw [hmkind, State.settle_of_ne_var hkind.ne_var]
    . rw [hagree y v hy]
      exact ha₁ y v k hy hk
  . intro a'' ha''
    have hagree'' : s₁.Agree a a'' := by
      intro y v hy
      rw [← hagree y v hy]
      exact ha'' y v (by rw [hlookup, if_neg (hnew y v hy), hy])
    have hm : (Grade.var name).evaluate kind a'' = .ok m := by
      have hvalue := ha'' name _ (by rw [hlookup, if_pos rfl])
      unfold Grade.evaluate
      rw [hvalue]
      simp
    rw [← hg.evaluate_congr hagree''] at hv
    rw [← hh.evaluate_congr hagree''] at hw
    refine ⟨?_, v, w, m, ⟨kind, hkind, (hjoins.left _ _).trans hv, (hjoins.right _ _).trans hw, hm⟩, hmax⟩
    rw [hjoins.demands]
    simp only [List.forall_mem_cons]
    refine ⟨?_, ?_, by simp⟩
    . exact (Constraint.holds_le_iff hkind).mpr ⟨v, m, hv, hm, hvkind, hmax.left⟩
    . exact (Constraint.holds_le_iff hkind).mpr ⟨w, m, hw, hm, hwkind, hmax.right⟩

theorem Extends.refl {later : State} {a : Assignment} (ha : s.IsAssigned later a)
    : Extends s s later a fun _ => True := by
  refine ⟨a, fun _ _ _ => rfl, ha, fun _ _ => ⟨?_, trivial⟩⟩
  rw [State.ReachesQuietly.demands_eq ⟨.refl, rfl, rfl⟩]
  simp

theorem Extends.trans {s₁ later : State} {a : Assignment} {P Q : Assignment → Prop} (hs : s.IsOrderly)
    (hreaches : s.Reaches s₁) (hreaches' : s₁.Reaches s') (h : Extends s s₁ later a P)
    (h' : ∀ a₁, s₁.IsAssigned later a₁ → Extends s₁ s' later a₁ Q)
    : Extends s s' later a fun a => P a ∧ Q a := by
  obtain ⟨hkeeps, hs₁⟩ := hs.step hreaches
  have hkeeps' := hs₁.keeps hreaches'
  obtain ⟨a₁, hagree, ha₁, h⟩ := h
  obtain ⟨a₂, hagree', ha₂, h'⟩ := h' a₁ ha₁
  refine ⟨a₂, fun y v hy => ?_, ha₂, fun a'' ha'' => ?_⟩
  . rw [hagree' y v (hkeeps.lookup? y v hy), hagree y v hy]
  . have hagree'' : s₁.Agree a₁ a'' := by
      intro y v hy
      rw [ha'' y v (hkeeps'.lookup? y v hy), hagree' y v hy]
    obtain ⟨hdemands, hP⟩ := h a'' hagree''
    obtain ⟨hdemands', hQ⟩ := h' a'' ha''
    refine ⟨?_, hP, hQ⟩
    rw [hreaches.extends.demands_append hreaches'.extends]
    exact List.forall_mem_append.mpr ⟨hdemands, hdemands'⟩

theorem Extends.mono {later : State} {a : Assignment} {P Q : Assignment → Prop} (h : Extends s s' later a P)
    (hPQ : ∀ a, P a → Q a) : Extends s s' later a Q := by
  obtain ⟨a', hagree, ha', h⟩ := h
  exact ⟨a', hagree, ha', fun a'' ha'' => (h a'' ha'').imp id (hPQ a'')⟩

theorem joinVar_extends {o : Option Assumption} {later : State} {a : Assignment} (hs : s.IsOrderly)
    (hjoin : joinVar pos left right x s = .ok o s') (hkinds : ∀ c ∈ s.demands s', c.kind.IsDiscrete)
    (hlater : s'.Reaches later) (ha : s.IsAssigned later a)
    : Extends s s' later a fun a => ∀ ty g, o = some (.graded ty g) →
        ∃ v w m, Evaluate a (left.lookup? x) (right.lookup? x) g v w m ∧ IsMax v w m := by
  by_cases ho : ∃ ty g, o = some (.graded ty g)
  . obtain ⟨ty, upper, rfl⟩ := ho
    obtain ⟨g, h, kind, s₁, s₂, hjoins⟩ := joinVar_graded hjoin
    apply (hjoins.extends hs hkinds hlater ha).mono
    rintro a hmax _ _ ⟨⟩
    exact hmax
  . simp only [not_exists] at ho
    obtain rfl := joinVar_ungraded hjoin ho
    apply (Extends.refl ha).mono
    intro a _ ty g heq
    exact absurd heq (ho ty g)

theorem joinAll_reaching (pos : Nat) (left right : Context) (names : List String)
    : Reaching (names.mapM fun x => do return (← joinVar pos left right x).map fun a => (x, a)) := by
  refine closed_along.mapM fun x => ?_
  exact closed_along.bind (joinVar_advancing _ _ _ _).reaching fun _ => closed_along.pure _

theorem joinAll_extends {names : List String} {bindings : List (Option (String × Assumption))} {later : State}
    {a : Assignment} (hs : s.IsOrderly)
    (h : (names.mapM fun x => do return (← joinVar pos left right x).map fun a => (x, a) : CheckM _) s
      = .ok bindings s')
    (hkinds : ∀ c ∈ s.demands s', c.kind.IsDiscrete) (hlater : s'.Reaches later) (ha : s.IsAssigned later a)
    : Extends s s' later a fun a => ∀ x ty g, some (x, .graded ty g) ∈ bindings →
        ∃ v w m, Evaluate a (left.lookup? x) (right.lookup? x) g v w m ∧ IsMax v w m := by
  induction names generalizing bindings s a with
  | nil =>
    rw [List.mapM_nil] at h
    obtain ⟨rfl, rfl⟩ := pure_eq_ok.mp h
    apply (Extends.refl ha).mono
    simp
  | cons y names ih =>
    rw [List.mapM_cons] at h
    simp only [bind_eq_ok, pure_eq_ok] at h
    obtain ⟨_, s₁, ⟨o, _, hjoin, rfl, rfl⟩, rest, _, hrest, rfl, rfl⟩ := h
    have hreaches := (joinVar_advancing _ _ _ _).reaching hjoin
    have hreaches' := joinAll_reaching _ _ _ _ hrest
    rw [hreaches.extends.demands_append hreaches'.extends, List.forall_mem_append] at hkinds
    have hfirst := joinVar_extends hs hjoin hkinds.1 (hreaches'.trans hlater) ha
    apply (hfirst.trans hs hreaches hreaches' fun a₁ ha₁ => ih (hs.of_reaches hreaches) hrest hkinds.2 ha₁).mono
    rintro a ⟨hmax, hmax'⟩ x ty g hmem
    obtain heq | hmem := List.mem_cons.mp hmem
    . obtain ⟨_, rfl, heq⟩ := Option.map_eq_some_iff.mp heq.symm
      cases heq
      exact hmax ty g rfl
    . exact hmax' x ty g hmem

theorem joinAll_bounds {names : List String} {bindings : List (Option (String × Assumption))} {a : Assignment}
    (h : (names.mapM fun x => do return (← joinVar pos left right x).map fun a => (x, a) : CheckM _) s
      = .ok bindings s')
    (hkinds : ∀ c ∈ s.demands s', c.kind.IsDiscrete) (ha : ∀ c ∈ s.demands s', c.holds a = .ok true)
    {ty : Ty} (hmem : some (x, .graded ty g) ∈ bindings)
    : ∃ v w m, Evaluate a (left.lookup? x) (right.lookup? x) g v w m ∧ v ≤ m ∧ w ≤ m := by
  induction names generalizing bindings s with
  | nil =>
    rw [List.mapM_nil] at h
    obtain ⟨rfl, rfl⟩ := pure_eq_ok.mp h
    cases hmem
  | cons y names ih =>
    rw [List.mapM_cons] at h
    simp only [bind_eq_ok, pure_eq_ok] at h
    obtain ⟨_, s₁, ⟨o, _, hjoin, rfl, rfl⟩, rest, _, hrest, rfl, rfl⟩ := h
    have hreaches := (joinVar_advancing _ _ _ _).reaching hjoin
    rw [hreaches.extends.demands_append (joinAll_reaching _ _ _ _ hrest).extends, List.forall_mem_append] at hkinds ha
    obtain heq | hmem := List.mem_cons.mp hmem
    . obtain ⟨_, rfl, heq⟩ := Option.map_eq_some_iff.mp heq.symm
      cases heq
      obtain ⟨_, _, _, _, _, hjoins⟩ := joinVar_graded hjoin
      exact hjoins.bounds hkinds.1 ha.1
    . exact ih hrest hkinds.2 ha.2 hmem

theorem joinAll_names {names : List String} {bindings : List (Option (String × Assumption))}
    (h : (names.mapM fun x => do return (← joinVar pos left right x).map fun a => (x, a) : CheckM _) s
      = .ok bindings s')
    : ((bindings.filterMap id).map (·.1)).Sublist names := by
  induction names generalizing bindings s with
  | nil =>
    rw [List.mapM_nil] at h
    obtain ⟨rfl, rfl⟩ := pure_eq_ok.mp h
    exact .slnil
  | cons y names ih =>
    rw [List.mapM_cons] at h
    simp only [bind_eq_ok, pure_eq_ok] at h
    obtain ⟨_, s₁, ⟨o, _, _, rfl, rfl⟩, rest, _, hrest, rfl, rfl⟩ := h
    cases o with
    | none => exact (ih hrest).cons _
    | some b => exact (ih hrest).cons_cons _

theorem nodup_names_join (hleft : left.names.Nodup) (hright : right.names.Nodup) (h : left.join pos right s = .ok u s')
    : u.names.Nodup := by
  unfold join at h
  simp only [bind_eq_ok, pure_eq_ok] at h
  obtain ⟨bindings, _, hbindings, rfl, rfl⟩ := h
  refine (joinAll_names hbindings).nodup (List.Nodup.append hleft (hright.filter _) ?_)
  intro x hx hx'
  have hcontains : left.contains x = true := isSome_lookup?_iff.mpr hx
  simp [hcontains] at hx'

/--
A variable that has to be used exactly once.
-/
def IsLinear (c : Context) (x : String) : Prop :=
  ∃ ty, c.lookup? x = some (.linear ty)

/--
A variable that has a grade.
-/
def IsGraded (c : Context) (x : String) : Prop :=
  ∃ ty g, c.lookup? x = some (.graded ty g)

/--
The join of two contexts binds the variables that are linear in both of them and those that have a grade in one of
them, and no variable is both. If the grades are naturals or levels, then whatever satisfies the constraints gives each
grade of the join a value above those of both sides. If the names of these grades are new, then values of the variables
that were there before can be extended such that the constraints are satisfied and each grade of the join has the
larger one of the two values.
-/
theorem join_isLeastUpperBound (hleft : left.names.Nodup) (hright : right.names.Nodup)
    (h : left.join pos right s = .ok u s') (hkinds : ∀ c ∈ s.demands s', c.kind.IsDiscrete)
    : (u.names.Nodup ∧ ∀ x,
        (u.IsLinear x ↔ left.IsLinear x ∧ right.IsLinear x) ∧
        (u.IsGraded x ↔ left.IsGraded x ∨ right.IsGraded x) ∧
        ¬(left.IsLinear x ∧ right.IsGraded x) ∧ ¬(left.IsGraded x ∧ right.IsLinear x)) ∧
      (∀ a : Assignment, (∀ c ∈ s.demands s', c.holds a = .ok true) →
        ∀ x ty g, u.lookup? x = some (.graded ty g) →
          ∃ v w m, Evaluate a (left.lookup? x) (right.lookup? x) g v w m ∧ v ≤ m ∧ w ≤ m) ∧
      (s.IsOrderly → ∀ a : Assignment, s.IsAssigned s' a →
        ∃ a' : Assignment, s.Agree a a' ∧ s'.IsAssigned s' a' ∧ (∀ c ∈ s.demands s', c.holds a' = .ok true) ∧
          ∀ x ty g, u.lookup? x = some (.graded ty g) →
            ∃ v w m, Evaluate a' (left.lookup? x) (right.lookup? x) g v w m ∧ IsMax v w m) := by
  have hbindings := h
  unfold join at hbindings
  simp only [bind_eq_ok, pure_eq_ok] at hbindings
  obtain ⟨bindings, _, hbindings, hu, rfl⟩ := hbindings
  have hmem : ∀ x ty g, u.lookup? x = some (.graded ty g) → some (x, .graded ty g) ∈ bindings := by
    intro x ty g hx
    rw [← hu] at hx
    obtain ⟨_, hmem, rfl⟩ := List.mem_filterMap.mp (mem_of_lookup hx)
    exact hmem
  refine ⟨⟨nodup_names_join hleft hright h, fun x => ?_⟩, fun a ha x ty g hx => ?_, fun hs a ha => ?_⟩
  . have hjoins := lookup?_join h x
    unfold IsLinear IsGraded
    generalize left.lookup? x = l at hjoins
    generalize right.lookup? x = r at hjoins
    generalize u.lookup? x = t at hjoins
    cases hjoins with
    | _ => simp
  . exact joinAll_bounds hbindings hkinds ha (hmem x ty g hx)
  . obtain ⟨a', hagree, ha', hextends⟩ := joinAll_extends hs hbindings hkinds .refl ha
    obtain ⟨hdemands, hmax⟩ := hextends a' fun _ _ _ => rfl
    exact ⟨a', hagree, ha', hdemands, fun x ty g hx => hmax x ty g (hmem x ty g hx)⟩

/-- The context of a grade with a variable, of a linear variable and of a level. -/
def someGrades : Context :=
  ⟨[("x", .graded (.const "Int") (.op .plus (.var "n") (.nat 1))), ("y", .linear (.const "Int")),
    ("z", .graded (.const "Int") (.level .secret))]⟩

def otherGrades : Context :=
  ⟨[("y", .linear (.const "Int")), ("x", .graded (.const "Int") (.nat 3)),
    ("w", .graded (.const "Int") (.op .times (.var "n") (.var "n")))]⟩

theorem join_isLeastUpperBound_someGrades
    : someGrades.names.Nodup ∧ otherGrades.names.Nodup ∧ (State.withNatural "n").IsOrderly ∧
      ∃ u s', someGrades.join 0 otherGrades (.withNatural "n") = .ok u s' ∧
        (∀ c ∈ (State.withNatural "n").demands s', c.kind.IsDiscrete) ∧
        (State.withNatural "n").IsAssigned s' [("n", .nat 4)] ∧
        ∃ a', (State.withNatural "n").Agree [("n", .nat 4)] a' ∧
          (∀ c ∈ (State.withNatural "n").demands s', c.holds a' = .ok true) ∧
          ∃ ty g v w m, u.lookup? "x" = some (.graded ty g) ∧
            Evaluate a' (someGrades.lookup? "x") (otherGrades.lookup? "x") g v w m ∧ IsMax v w m := by
  have hjoin : yields (someGrades.join 0 otherGrades) (.withNatural "n")
      (fun _ s' => decide (∀ c ∈ (State.withNatural "n").demands s', c.kind.IsDiscrete)) = true := by
    cbv
  have hs : (State.withNatural "n").IsOrderly := .of_isDotless rfl (by decide)
  obtain ⟨u, s', hjoin, hkinds⟩ := exists_of_yields hjoin
  have hkinds := of_decide_eq_true hkinds
  have ha := State.isAssigned_withNatural "n" 4 s'
  obtain ⟨⟨_, hnames⟩, _, hextends⟩ := join_isLeastUpperBound (by decide) (by decide) hjoin hkinds
  obtain ⟨a', hagree, _, hdemands, hmax⟩ := hextends hs _ ha
  obtain ⟨ty, g, hx⟩ := (hnames "x").2.1.mpr (.inl ⟨_, _, rfl⟩)
  obtain ⟨v, w, m, hvalues, hmax⟩ := hmax "x" ty g hx
  exact ⟨by decide, by decide, hs, u, s', hjoin, hkinds, ha, a', hagree, hdemands, ty, g, v, w, m, hx, hvalues, hmax⟩

-- The name that is made up for the join is that of a variable in scope, so its value cannot be chosen.
theorem join_has_no_maximum_clashing
    : ∃ u s', Context.join 0 ⟨[("x", .graded (.const "Int") (.var "x.0"))]⟩ ⟨[("x", .graded (.const "Int") (.nat 5))]⟩
          (.withNatural "x.0") = .ok u s' ∧
        (∀ c ∈ (State.withNatural "x.0").demands s', c.kind.IsDiscrete) ∧
        (State.withNatural "x.0").IsAssigned s' [("x.0", .nat 0)] ∧
        ∀ a', (State.withNatural "x.0").Agree [("x.0", .nat 0)] a' →
          ¬∀ c ∈ (State.withNatural "x.0").demands s', c.holds a' = .ok true := by
  have hjoin : yields (Context.join 0 ⟨[("x", .graded (.const "Int") (.var "x.0"))]⟩
      ⟨[("x", .graded (.const "Int") (.nat 5))]⟩) (.withNatural "x.0")
      (fun _ s' => decide ((State.withNatural "x.0").demands s'
        = [.le 0 (.var "x.0") (.var "x.0") .nat, .le 0 (.nat 5) (.var "x.0") .nat])) = true := by
    cbv
  obtain ⟨u, s', hjoin, hdemands⟩ := exists_of_yields hjoin
  have hdemands := of_decide_eq_true hdemands
  refine ⟨u, s', hjoin, ?_, State.isAssigned_withNatural "x.0" 0 s', ?_⟩
  . rw [hdemands]
    decide
  . intro a' hagree hholds
    rw [hdemands] at hholds
    have hx : a'.lookup "x.0" = some (.nat 0) := hagree "x.0" _ rfl
    have hholds := hholds (.le 0 (.nat 5) (.var "x.0") .nat) (by simp)
    obtain ⟨_, _, ⟨⟩, hvalue, _, hle⟩ := (Constraint.holds_le_iff (.inl rfl)).mp hholds
    unfold Grade.evaluate at hvalue
    rw [hx] at hvalue
    cases hvalue
    obtain ⟨_, ⟨⟩, hle⟩ := Value.nat_le_iff.mp hle
    exact absurd hle (by decide)

end Context

end GradedModal
