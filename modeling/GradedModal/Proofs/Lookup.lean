import GradedModal.Proofs.Infer
import GradedModal.Proofs.Demands

/-!
This module follows one variable through the operations on contexts: each operation is described by what
looking the variable up gives before and after.
-/

namespace GradedModal

open CheckM

def Op.exact : Op → Nat → Nat → Nat
  | .plus, a, b => a + b
  | .times, a, b => a * b
  | .join, a, b => max a b
  | .meet, a, b => min a b

/--
The value of a grade of naturals, without an upper limit. Literals of other kinds count for nothing.
-/
def Grade.exact (σ : String → Nat) : Grade → Nat
  | .var x => σ x
  | .nat n => n
  | .zero _ => 0
  | .one _ => 1
  | .op o g h => o.exact (g.exact σ) (h.exact σ)
  | .float _ => 0
  | .level _ => 0

/--
Whether an assignment of naturals satisfies a constraint, without an upper limit.
-/
def Constraint.HoldsExactly (σ : String → Nat) (c : Constraint) : Prop :=
  match c.relation with
  | .eq => c.left.exact σ = c.right.exact σ
  | .le => c.left.exact σ ≤ c.right.exact σ

def Assumption.amount (σ : String → Nat) : Option Assumption → Nat
  | none => 0
  | some (.linear _) => 1
  | some (.graded _ grade) => grade.exact σ

namespace Context

theorem lookup_filter_name (p : String → Bool) (l : List (String × Assumption)) (x : String)
    : (l.filter fun b => p b.1).lookup x = if p x then l.lookup x else none := by
  induction l with
  | nil => simp
  | cons b l ih =>
    obtain ⟨y, a⟩ := b
    by_cases hxy : x = y
    . subst hxy
      cases hp : p x with
      | true => simp [hp]
      | false => simp [hp, ih]
    . have hbeq : (x == y) = false := by
        simp [hxy]
      cases hp : p y with
      | true | false => simp [hp, List.lookup_cons, hbeq, ih]

theorem lookup_map_value (f : String → Assumption → Assumption) (l : List (String × Assumption)) (x : String)
    : (l.map fun b => (b.1, f b.1 b.2)).lookup x = (l.lookup x).map (f x) := by
  induction l with
  | nil => rfl
  | cons b l ih =>
    obtain ⟨y, a⟩ := b
    by_cases hxy : x = y
    . subst hxy
      simp
    . have hbeq : (x == y) = false := by
        simp [hxy]
      simp [List.lookup_cons, hbeq, ih]

variable {pos : Nat} {c left right u : Context} {x y : String} {s s' : State}

theorem lookup?_eq_none_iff : c.lookup? x = none ↔ x ∉ c.names := by
  unfold lookup? names
  rw [List.lookup_eq_none_iff]
  simp only [List.mem_map, not_exists, not_and, bne_iff_ne]
  constructor
  . intro h b hb heq
    exact h b hb heq.symm
  . intro h b hb heq
    exact h b hb heq.symm

theorem isSome_lookup?_iff : (c.lookup? x).isSome ↔ x ∈ c.names := by
  rw [← Option.ne_none_iff_isSome, ne_eq, lookup?_eq_none_iff]
  simp

theorem lookup?_filter_names (p : String → Bool)
    : (c.filter fun y _ => p y).lookup? x = if p x then c.lookup? x else none :=
  lookup_filter_name p c.bindings x

theorem lookup?_remove : (c.remove y).lookup? x = if x = y then none else c.lookup? x := by
  unfold remove
  rw [lookup?_filter_names (· != y)]
  by_cases hxy : x = y
  . simp [hxy]
  . simp [hxy]

theorem lookup?_bind (a : Assumption)
    : (c.bind y a).lookup? x = if x = y then some a else c.lookup? x := by
  have happend : (c.bind y a).lookup? x = ((c.remove y).lookup? x).or (if x == y then some a else none) := by
    unfold bind
    unfold lookup?
    rw [List.lookup_append, List.lookup_cons]
    cases x == y <;> rfl
  rw [happend, lookup?_remove]
  by_cases hxy : x = y
  . simp [hxy]
  . simp [hxy]

theorem lookup?_singleton (a : Assumption)
    : (singleton y a).lookup? x = if x = y then some a else none :=
  lookup?_bind a

theorem lookup?_restrict (vars : List String)
    : (c.restrict vars).lookup? x = if x ∈ vars then c.lookup? x else none := by
  unfold restrict
  rw [lookup?_filter_names vars.contains]
  simp

theorem lookup?_subtract : (c.subtract u).lookup? x = if (u.lookup? x).isSome then none else c.lookup? x := by
  unfold subtract
  rw [lookup?_filter_names (!u.contains ·)]
  unfold contains
  cases u.lookup? x <;> simp

theorem lookup?_intersect : (c.intersect u).lookup? x = if (u.lookup? x).isSome then c.lookup? x else none :=
  lookup?_filter_names u.contains

theorem lookup?_scale (vars : List String) (grade : Grade)
    : (c.scale vars grade).lookup? x = if x ∈ vars then (c.lookup? x).map (·.scale grade) else none := by
  have hmap : (c.scale vars grade).lookup? x = ((c.restrict vars).lookup? x).map (·.scale grade) :=
    lookup_map_value (fun _ a => Assumption.scale grade a) (c.restrict vars).bindings x
  rw [hmap, lookup?_restrict]
  split
  . rfl
  . rfl

theorem names_scale (vars : List String) (grade : Grade) : (c.scale vars grade).names = (c.restrict vars).names := by
  simp [names, scale]

-- The names have to differ: the last binding of a name counts here, and the first one in a lookup.
theorem lookup?_bindAll (h : u.names.Nodup) : (c.bindAll u).lookup? x = (u.lookup? x).or (c.lookup? x) := by
  obtain ⟨bindings⟩ := u
  unfold bindAll
  unfold names at h
  simp only at h
  change (bindings.foldl (fun c b => c.bind b.1 b.2) c).lookup? x = (bindings.lookup x).or (c.lookup? x)
  induction bindings generalizing c with
  | nil => rfl
  | cons b bindings ih =>
    obtain ⟨y, a⟩ := b
    rw [List.map_cons, List.nodup_cons] at h
    rw [List.foldl_cons, ih h.2, lookup?_bind, List.lookup_cons]
    by_cases hxy : x = y
    . subst hxy
      have hnone : bindings.lookup x = none := by
        have := lookup?_eq_none_iff (c := ⟨bindings⟩) (x := x)
        exact this.mpr h.1
      simp [hnone]
    . have hbeq : (x == y) = false := by
        simp [hxy]
      simp [hxy, hbeq]

/--
What two terms together use of a variable, given what each of them uses. Only one of them may use it
linearly, unless the uses add up to a grade.
-/
inductive AddsUp : Option Assumption → Option Assumption → Option Assumption → Prop where
  | right (r : Option Assumption) : AddsUp none r r
  | left (l : Option Assumption) : AddsUp l none l
  | sum {a : Assumption} {r : Option Assumption} {ty : Ty} {g h : Grade} :
    (∀ σ, Assumption.amount σ (some a) + Assumption.amount σ r ≤ (Grade.op .plus g h).exact σ) →
      AddsUp (some a) r (some (.graded ty (.op .plus g h)))

namespace AddsUp

variable {l r t : Option Assumption}

theorem amount_le (h : AddsUp l r t) (σ : String → Nat)
    : Assumption.amount σ l + Assumption.amount σ r ≤ Assumption.amount σ t := by
  cases h with
  | right | left => simp [Assumption.amount]
  | sum h => exact h σ

theorem eq_linear {ty : Ty} (h : AddsUp l r (some (.linear ty)))
    : (l = some (.linear ty) ∧ r = none) ∨ (l = none ∧ r = some (.linear ty)) := by
  cases h with
  | right => exact .inr ⟨rfl, rfl⟩
  | left => exact .inl ⟨rfl, rfl⟩

theorem eq_right (h : AddsUp none r t) : t = r := by
  cases h with
  | right => rfl
  | left => rfl

theorem isSome_iff (h : AddsUp l r t) : t.isSome ↔ l.isSome ∨ r.isSome := by
  cases h with
  | right => simp
  | left => simp
  | sum => simp

theorem eq_none (h : AddsUp l r none) : l = none ∧ r = none := by
  cases h with
  | right | left => exact ⟨rfl, rfl⟩

theorem eq_graded {ty : Ty} {grade : Grade} (h : AddsUp l r (some (.graded ty grade)))
    : l = some (.graded ty grade) ∨ r = some (.graded ty grade) ∨ ∃ g h, grade = .op .plus g h := by
  cases h with
  | right => exact .inr (.inl rfl)
  | left => exact .inl rfl
  | sum => exact .inr (.inr ⟨_, _, rfl⟩)

-- Whatever else adds up to it, the first use is still among what is used.
theorem absorb {a : Assumption} {l' t' : Option Assumption} (h : AddsUp (some a) r t) (h' : AddsUp l' t t')
    : AddsUp (some a) r t' := by
  cases h' with
  | right => exact h
  | left => exact absurd h.eq_none.1 (by simp)
  | sum hsum =>
    apply AddsUp.sum
    intro σ
    have := h.amount_le σ
    have := hsum σ
    omega

end AddsUp

theorem addsUp_addUses {known a sum : Assumption} (h : addUses pos x known a s = .ok sum s')
    : AddsUp (some a) (some known) (some sum) := by
  cases known with
  | linear ty =>
    cases a with
    | linear ty' =>
      unfold addUses at h
      rw [fail_eq_ok] at h
      exact h.elim
    | graded ty' grade =>
      unfold addUses at h
      rw [bind_eq_ok] at h
      obtain ⟨kind, s₁, _, h⟩ := h
      rw [pure_eq_ok] at h
      obtain ⟨rfl, rfl⟩ := h
      exact .sum (fun σ => Nat.le_refl _)
  | graded ty grade =>
    cases a with
    | linear ty' =>
      unfold addUses at h
      rw [bind_eq_ok] at h
      obtain ⟨kind, s₁, _, h⟩ := h
      rw [pure_eq_ok] at h
      obtain ⟨rfl, rfl⟩ := h
      exact .sum (fun σ => Nat.le_of_eq (Nat.add_comm _ _))
    | graded ty' grade' =>
      unfold addUses at h
      rw [pure_eq_ok] at h
      obtain ⟨rfl, rfl⟩ := h
      exact .sum (fun σ => Nat.le_of_eq (Nat.add_comm _ _))

theorem extend_eq_ok {a : Assumption} (h : extend pos c y a s = .ok u s')
    : (c.lookup? y = none ∧ u = ⟨c.bindings ++ [(y, a)]⟩) ∨
      (∃ known sum s₁, c.lookup? y = some known ∧ addUses pos y known a s₁ = .ok sum s' ∧
        u = ⟨c.bindings.map fun b => (b.1, if b.1 = y then sum else b.2)⟩) := by
  unfold extend at h
  cases hy : c.lookup? y with
  | none =>
    rw [hy] at h
    rw [pure_eq_ok] at h
    exact .inl ⟨rfl, h.1.symm⟩
  | some known =>
    rw [hy] at h
    simp only [ite_fail_bind_eq_ok, bind_eq_ok, pure_eq_ok] at h
    obtain ⟨_, sum, s₁, hsum, rfl, rfl⟩ := h
    refine .inr ⟨known, sum, _, rfl, hsum, ?_⟩
    congr 1
    apply List.map_congr_left
    rintro ⟨z, b⟩ _
    by_cases hz : z = y
    . simp [hz]
    . simp [hz]

theorem lookup?_of_extend {a : Assumption} (h : extend pos c x a s = .ok u s')
    : (c.lookup? x = none ∧ u.lookup? x = some a) ∨
      (∃ known sum s₁, c.lookup? x = some known ∧ addUses pos x known a s₁ = .ok sum s' ∧
        u.lookup? x = some sum) := by
  obtain ⟨hnone, rfl⟩ | ⟨known, sum, s₁, hknown, hsum, rfl⟩ := extend_eq_ok h
  . refine .inl ⟨hnone, ?_⟩
    unfold lookup? at hnone ⊢
    simp [List.lookup_append, hnone]
  . refine .inr ⟨known, sum, s₁, hknown, hsum, ?_⟩
    change (c.bindings.map fun b => (b.1, if b.1 = x then sum else b.2)).lookup x = some sum
    rw [lookup_map_value (fun z b => if z = x then sum else b)]
    unfold lookup? at hknown
    simp [hknown]

theorem lookup?_extend_self {a : Assumption} (h : extend pos c x a s = .ok u s')
    : AddsUp (some a) (c.lookup? x) (u.lookup? x) := by
  obtain ⟨hnone, hu⟩ | ⟨known, sum, s₁, hknown, hsum, hu⟩ := lookup?_of_extend h
  . rw [hnone, hu]
    exact .left _
  . rw [hknown, hu]
    exact addsUp_addUses hsum

theorem lookup?_extend_of_ne {a : Assumption} (hxy : x ≠ y) (h : extend pos c y a s = .ok u s')
    : u.lookup? x = c.lookup? x := by
  obtain ⟨_, rfl⟩ | ⟨_, sum, _, _, _, rfl⟩ := extend_eq_ok h
  . have hbeq : (x == y) = false := by
      simp [hxy]
    unfold lookup?
    simp [List.lookup_append, List.lookup_cons, hbeq]
  . change (c.bindings.map fun b => (b.1, if b.1 = y then sum else b.2)).lookup x = c.bindings.lookup x
    rw [lookup_map_value (fun z b => if z = y then sum else b)]
    cases c.bindings.lookup x with
    | none => rfl
    | some b => simp [hxy]

-- By induction on the uses that are added, each of which meets what was collected so far.
theorem lookup?_combine (h : combine pos left right s = .ok u s') (x : String)
    : AddsUp (left.lookup? x) (right.lookup? x) (u.lookup? x) := by
  obtain ⟨bindings⟩ := left
  unfold combine at h
  change AddsUp (bindings.lookup x) (right.lookup? x) (u.lookup? x)
  induction bindings generalizing right s with
  | nil =>
    rw [List.foldlM_nil, pure_eq_ok] at h
    rw [h.1]
    exact .right _
  | cons b bindings ih =>
    obtain ⟨y, a⟩ := b
    rw [List.foldlM_cons, bind_eq_ok] at h
    obtain ⟨c, s₁, hextend, h⟩ := h
    have hrest := ih h
    by_cases hxy : x = y
    . subst hxy
      have hself := lookup?_extend_self hextend
      rw [List.lookup_cons_self]
      exact hself.absorb hrest
    . have hbeq : (x == y) = false := by
        simp [hxy]
      rw [lookup?_extend_of_ne hxy hextend] at hrest
      rw [List.lookup_cons, hbeq]
      exact hrest

/--
What is used of a variable is no more than what is allowed for it, given that all constraints with the
property `K` hold.
-/
inductive Below (K : Constraint → Prop) : Option Assumption → Option Assumption → Prop where
  | unused (r : Option Assumption) : Below K none r
  | unbounded (l : Option Assumption) : Below K l none
  | linear (ty ty' : Ty) : Below K (some (.linear ty)) (some (.linear ty'))
  | graded {ty ty' : Ty} {pos : Nat} {small big : Grade} {kind : GradeKind} :
    K (.le pos small big kind) → Below K (some (.graded ty small)) (some (.graded ty' big))

theorem below_leAssumption {K : Constraint → Prop} {a : Assumption} {allowed : Option Assumption}
    (h : leAssumption pos x a allowed s = .ok () s') (hK : State.AllDemands K s s')
    : Below K (some a) allowed := by
  cases allowed with
  | none => exact .unbounded _
  | some b =>
    cases a with
    | linear ty =>
      cases b with
      | linear ty' => exact .linear _ _
      | graded ty' big =>
        unfold leAssumption at h
        rw [fail_eq_ok] at h
        exact h.elim
    | graded ty small =>
      cases b with
      | linear ty' =>
        unfold leAssumption at h
        rw [fail_eq_ok] at h
        exact h.elim
      | graded ty' big =>
        unfold leAssumption at h
        rw [bind_eq_ok] at h
        obtain ⟨kind, s₁, hkind, h⟩ := h
        have hs₁ := commonKind_reaching _ _ _ hkind
        have hconstrain := ((hs₁.allDemands_iff (reaching_constrain _ h)).mp hK).2
        apply Below.graded
        apply hconstrain
        rw [State.demands_constrain h]
        exact List.mem_singleton.mpr rfl

theorem lookup?_le {K : Constraint → Prop} (h : le pos left right s = .ok () s') (hK : State.AllDemands K s s')
    (x : String) : Below K (left.lookup? x) (right.lookup? x) := by
  obtain ⟨bindings⟩ := left
  unfold le at h
  rw [List.forM_eq_forM] at h
  change Below K (bindings.lookup x) (right.lookup? x)
  induction bindings generalizing s with
  | nil => exact .unused _
  | cons b bindings ih =>
    obtain ⟨y, a⟩ := b
    rw [List.forM_cons, bind_eq_ok] at h
    obtain ⟨_, s₁, hle, h⟩ := h
    have hs₁ := leAssumption_reaching _ _ _ _ hle
    have hs' := le_reaching pos ⟨bindings⟩ right (by
      unfold le
      rw [List.forM_eq_forM]
      exact h)
    obtain ⟨hK₁, hK'⟩ := (hs₁.allDemands_iff hs').mp hK
    by_cases hxy : x = y
    . subst hxy
      rw [List.lookup_cons_self]
      exact below_leAssumption hle hK₁
    . have hbeq : (x == y) = false := by
        simp [hxy]
      rw [List.lookup_cons, hbeq]
      exact ih hK' h

/--
What is used of a variable by one of two branches, given what each of them uses.
-/
inductive JoinsTo : Option Assumption → Option Assumption → Option Assumption → Prop where
  | unused : JoinsTo none none none
  | leftOnly (ty : Ty) : JoinsTo (some (.linear ty)) none none
  | rightOnly (ty : Ty) : JoinsTo none (some (.linear ty)) none
  | linear (ty ty' : Ty) : JoinsTo (some (.linear ty)) (some (.linear ty')) (some (.linear ty))
  | gradedLeft (ty : Ty) (g : Grade) (v : String) :
    JoinsTo (some (.graded ty g)) none (some (.graded ty (.var v)))
  | gradedRight (ty : Ty) (h : Grade) (v : String) :
    JoinsTo none (some (.graded ty h)) (some (.graded ty (.var v)))
  | graded (ty ty' : Ty) (g h : Grade) (v : String) :
    JoinsTo (some (.graded ty g)) (some (.graded ty' h)) (some (.graded ty (.var v)))

theorem freshGrade_eq_ok {hint : String} {kind : GradeKind} {g : Grade} (h : freshGrade hint kind s = .ok g s')
    : ∃ v, g = .var v := by
  unfold freshGrade at h
  rw [bind_eq_ok] at h
  obtain ⟨v, s₁, _, h⟩ := h
  rw [pure_eq_ok] at h
  exact ⟨v, h.1.symm⟩

theorem joinUses_graded {ty ty' : Ty} {g h : Grade} {o : Option Assumption}
    (hjoin : joinUses pos x (some (.graded ty g)) (some (.graded ty' h)) s = .ok o s')
    : ∃ v, o = some (.graded ty (.var v)) := by
  unfold joinUses at hjoin
  simp only [bind_eq_ok, pure_eq_ok] at hjoin
  obtain ⟨kind, s₁, _, upper, s₂, hupper, _, _, _, _, _, _, rfl, rfl⟩ := hjoin
  obtain ⟨v, rfl⟩ := freshGrade_eq_ok hupper
  exact ⟨v, rfl⟩

theorem useOrWeaken_graded {ty : Ty} {g : Grade} {o : Option Assumption}
    (h : useOrWeaken pos none (some (.graded ty g)) s = .ok o s')
    : ∃ kind, o = some (.graded ty (.zero kind)) := by
  unfold useOrWeaken at h
  unfold weaken at h
  rw [bind_eq_ok] at h
  obtain ⟨kind, s₁, _, h⟩ := h
  rw [pure_eq_ok] at h
  exact ⟨kind, h.1.symm⟩

theorem joinsTo_joinVar {o : Option Assumption} (h : joinVar pos left right x s = .ok o s')
    : JoinsTo (left.lookup? x) (right.lookup? x) o := by
  rw [joinVar_eq, bind_eq_ok] at h
  obtain ⟨l, s₁, hl, h⟩ := h
  rw [bind_eq_ok] at h
  obtain ⟨r, s₂, hr, h⟩ := h
  cases hleft : left.lookup? x with
  | none =>
    cases hright : right.lookup? x with
    | none =>
      rw [hleft, hright] at hl
      cases hl
      cases h
      exact .unused
    | some b =>
      rw [hleft, hright] at hl hr
      cases hr
      cases b with
      | linear ty =>
        cases hl
        cases h
        exact .rightOnly _
      | graded ty g =>
        obtain ⟨kind, rfl⟩ := useOrWeaken_graded hl
        obtain ⟨v, rfl⟩ := joinUses_graded h
        exact .gradedRight _ _ _
  | some a =>
    cases hright : right.lookup? x with
    | none =>
      rw [hleft, hright] at hl hr
      cases hl
      cases a with
      | linear ty =>
        cases hr
        cases h
        exact .leftOnly _
      | graded ty g =>
        obtain ⟨kind, rfl⟩ := useOrWeaken_graded hr
        obtain ⟨v, rfl⟩ := joinUses_graded h
        exact .gradedLeft _ _ _
    | some b =>
      rw [hleft, hright] at hl hr
      cases hl
      cases hr
      cases a with
      | linear ty =>
        cases b with
        | linear ty' =>
          cases h
          exact .linear _ _
        | graded ty' g => cases h
      | graded ty g =>
        cases b with
        | linear ty' => cases h
        | graded ty' g' =>
          obtain ⟨v, rfl⟩ := joinUses_graded h
          exact .graded _ _ _ _ _

-- A variable that is bound twice on the left is joined twice, and the first result that is there counts.
theorem lookup_joined {names : List String} {bindings : List (Option (String × Assumption))}
    (h : (names.mapM fun x => do return (← joinVar pos left right x).map fun a => (x, a) : CheckM _) s
      = .ok bindings s')
    (x : String)
    : (x ∉ names → (bindings.filterMap id).lookup x = none) ∧
      (x ∈ names → JoinsTo (left.lookup? x) (right.lookup? x) ((bindings.filterMap id).lookup x)) := by
  induction names generalizing bindings s with
  | nil =>
    rw [List.mapM_nil, pure_eq_ok] at h
    rw [← h.1]
    simp
  | cons y names ih =>
    rw [List.mapM_cons] at h
    simp only [bind_eq_ok, pure_eq_ok] at h
    obtain ⟨_, _, ⟨o, _, hjoin, rfl, rfl⟩, rest, s₂, hrest, rfl, rfl⟩ := h
    have ih := ih hrest
    have hjoins := joinsTo_joinVar hjoin
    by_cases hxy : x = y
    . subst hxy
      refine ⟨fun hmem => absurd List.mem_cons_self hmem, fun _ => ?_⟩
      cases o with
      | some a => simpa using hjoins
      | none =>
        by_cases hmem : x ∈ names
        . exact ih.2 hmem
        . have hnone := ih.1 hmem
          change JoinsTo _ _ ((rest.filterMap id).lookup x)
          rw [hnone]
          exact hjoins
    . have hbeq : (x == y) = false := by
        simp [hxy]
      have hlookup : ((Option.map (fun a => (y, a)) o :: rest).filterMap id).lookup x
          = (rest.filterMap id).lookup x := by
        cases o with
        | none => rfl
        | some a => simp [List.lookup_cons, hbeq]
      rw [hlookup, List.mem_cons]
      simp only [hxy, false_or]
      exact ih

theorem lookup?_join (h : join pos left right s = .ok u s') (x : String)
    : JoinsTo (left.lookup? x) (right.lookup? x) (u.lookup? x) := by
  unfold join at h
  rw [bind_eq_ok] at h
  obtain ⟨bindings, s₁, hbindings, h⟩ := h
  rw [pure_eq_ok] at h
  obtain ⟨rfl, rfl⟩ := h
  obtain ⟨hnone, hjoins⟩ := lookup_joined hbindings x
  by_cases hmem : x ∈ left.names ++ right.names.filter (!left.contains ·)
  . exact hjoins hmem
  . have hleft : left.lookup? x = none := by
      rw [lookup?_eq_none_iff]
      exact fun h => hmem (List.mem_append_left _ h)
    have hright : right.lookup? x = none := by
      rw [lookup?_eq_none_iff]
      intro h
      apply hmem
      simp [h, contains, hleft]
    have hu : lookup? ⟨bindings.filterMap id⟩ x = none := hnone hmem
    rw [hleft, hright, hu]
    exact .unused

/--
What the contents of a box may use of a variable, given the assumption about it outside.
-/
inductive Freshens : Option Assumption → Option Assumption → Prop where
  | absent : Freshens none none
  | linear (ty : Ty) (kind : GradeKind) : Freshens (some (.linear ty)) (some (.graded ty (.one kind)))
  | graded (ty : Ty) (g : Grade) (v : String) : Freshens (some (.graded ty g)) (some (.graded ty (.var v)))

theorem freshens_freshenVar {demand : GradeKind} {a b : Assumption} (h : freshenVar pos demand x a s = .ok b s')
    : Freshens (some a) (some b) := by
  cases a with
  | linear ty =>
    unfold freshenVar at h
    rw [pure_eq_ok] at h
    obtain ⟨rfl, rfl⟩ := h
    exact .linear _ _
  | graded ty g =>
    unfold freshenVar at h
    simp only [bind_eq_ok, pure_eq_ok] at h
    obtain ⟨_, _, _, _, _, _, fresh, _, hfresh, rfl, rfl⟩ := h
    obtain ⟨v, rfl⟩ := freshGrade_eq_ok hfresh
    exact .graded _ _ _

theorem lookup?_freshen {vars : List String} {demand : Grade} (h : freshen pos vars c demand s = .ok u s')
    (x : String) : Freshens (if x ∈ vars then c.lookup? x else none) (u.lookup? x) := by
  rw [← lookup?_restrict vars]
  unfold freshen at h
  rw [bind_eq_ok] at h
  obtain ⟨kind, s₁, -, h⟩ := h
  rw [bind_eq_ok] at h
  obtain ⟨bindings, s₂, hbindings, h⟩ := h
  rw [pure_eq_ok] at h
  obtain ⟨rfl, rfl⟩ := h
  change Freshens ((c.restrict vars).bindings.lookup x) (bindings.lookup x)
  generalize (c.restrict vars).bindings = old at hbindings
  induction old generalizing bindings s₁ with
  | nil =>
    rw [List.mapM_nil, pure_eq_ok] at hbindings
    rw [← hbindings.1]
    exact .absent
  | cons b old ih =>
    obtain ⟨y, a⟩ := b
    rw [List.mapM_cons] at hbindings
    simp only [bind_eq_ok, pure_eq_ok] at hbindings
    obtain ⟨_, _, ⟨fresh, _, hfresh, rfl, rfl⟩, rest, _, hrest, rfl, rfl⟩ := hbindings
    by_cases hxy : x = y
    . subst hxy
      rw [List.lookup_cons_self, List.lookup_cons_self]
      exact freshens_freshenVar hfresh
    . have hbeq : (x == y) = false := by
        simp [hxy]
      rw [List.lookup_cons, List.lookup_cons, hbeq]
      exact ih _ rest hrest

theorem lookup?_ofList_eq_some {bindings : List (String × Assumption)} {a : Assumption}
    (h : (ofList bindings).lookup? x = some a) : (x, a) ∈ bindings := by
  have hmem : ∀ c : Context, (bindings.foldl (fun c b => c.bind b.1 b.2) c).lookup? x = some a →
      (x, a) ∈ bindings ∨ c.lookup? x = some a := by
    clear h
    induction bindings with
    | nil =>
      intro c h
      exact .inr h
    | cons b bindings ih =>
      intro c h
      obtain h | h := ih _ h
      . exact .inl (List.mem_cons_of_mem _ h)
      . rw [lookup?_bind] at h
        split at h
        . next hx =>
          cases h
          subst hx
          exact .inl List.mem_cons_self
        . exact .inr h
  obtain h | h := hmem empty h
  . exact h
  . cases h

theorem isSome_lookup?_ofList {bindings : List (String × Assumption)} (h : x ∈ bindings.map (·.1))
    : ((ofList bindings).lookup? x).isSome := by
  have hsome : ∀ c : Context, x ∈ bindings.map (·.1) ∨ (c.lookup? x).isSome →
      ((bindings.foldl (fun c b => c.bind b.1 b.2) c).lookup? x).isSome := by
    clear h
    induction bindings with
    | nil => simp
    | cons b bindings ih =>
      intro c h
      apply ih
      rw [lookup?_bind]
      rw [List.map_cons, List.mem_cons] at h
      split
      . exact .inr rfl
      . next hx =>
        obtain (h | h) | h := h
        . exact absurd h hx
        . exact .inl h
        . exact .inr h
  exact hsome empty (.inl h)

end Context

namespace Expr

variable {pos : Nat} {c base : Context} {branches : List (Pattern × Expr)} {s s' : State}

theorem mem_baseline {old new : List (String × Assumption)}
    (h : (old.filterMapM fun b => match b.2 with
      | .graded ty grade => do
        let kind ← grade.inferKind pos
        return some (b.1, Assumption.graded ty (← freshGrade b.1 kind))
      | .linear _ => return none : CheckM _) s = .ok new s')
    : (∀ x a, (x, a) ∈ new → ∃ ty g v, (x, Assumption.graded ty g) ∈ old ∧ a = .graded ty (.var v)) ∧
      (∀ x ty g, (x, Assumption.graded ty g) ∈ old → x ∈ new.map (·.1)) := by
  induction old generalizing new s with
  | nil =>
    rw [List.filterMapM_nil, pure_eq_ok] at h
    rw [← h.1]
    simp
  | cons b old ih =>
    obtain ⟨y, b⟩ := b
    rw [List.filterMapM_cons, bind_eq_ok] at h
    obtain ⟨o, s₁, ho, h⟩ := h
    cases b with
    | linear ty =>
      cases ho
      obtain ⟨hnew, hold⟩ := ih h
      constructor
      . intro x a hmem
        obtain ⟨ty', g, v, hx, ha⟩ := hnew x a hmem
        exact ⟨ty', g, v, List.mem_cons_of_mem _ hx, ha⟩
      . intro x ty' g hmem
        rw [List.mem_cons] at hmem
        obtain hmem | hmem := hmem
        . cases hmem
        . exact hold x ty' g hmem
    | graded ty g =>
      simp only [bind_eq_ok, pure_eq_ok] at ho
      obtain ⟨kind, _, _, fresh, _, hfresh, rfl, rfl⟩ := ho
      obtain ⟨v, rfl⟩ := Context.freshGrade_eq_ok hfresh
      simp only [bind_eq_ok, pure_eq_ok] at h
      obtain ⟨rest, _, hrest, rfl, rfl⟩ := h
      obtain ⟨hnew, hold⟩ := ih hrest
      constructor
      . intro x a hmem
        rw [List.mem_cons] at hmem
        obtain hmem | hmem := hmem
        . cases hmem
          exact ⟨ty, g, v, List.mem_cons_self, rfl⟩
        . obtain ⟨ty', g', v', hx, ha⟩ := hnew x a hmem
          exact ⟨ty', g', v', List.mem_cons_of_mem _ hx, ha⟩
      . intro x ty' g' hmem
        rw [List.mem_cons] at hmem
        obtain hmem | hmem := hmem
        . cases hmem
          exact List.mem_cons_self
        . exact List.mem_cons_of_mem _ (hold x ty' g' hmem)

theorem mem_names_of_mem_gradedOnly_restrict {vars : List String} {x : String}
    (h : x ∈ (c.gradedOnly.restrict vars).names) : x ∈ vars := by
  rw [← Context.isSome_lookup?_iff, Context.lookup?_restrict] at h
  split at h
  . next hmem => exact hmem
  . cases h

theorem mem_gradedOnly_restrict {vars : List String} {x : String} {ty : Ty} {g : Grade}
    (hx : c.lookup? x = some (.graded ty g)) (hmem : x ∈ vars)
    : (x, .graded ty g) ∈ (c.gradedOnly.restrict vars).bindings := by
  have hbinding : (x, Assumption.graded ty g) ∈ c.bindings := by
    unfold Context.lookup? at hx
    rw [List.lookup_eq_some_iff] at hx
    obtain ⟨before, after, hbindings, _⟩ := hx
    rw [hbindings]
    simp
  simp [Context.restrict, Context.gradedOnly, Context.filter, hbinding, hmem, Assumption.isLinear]

theorem lookup?_baseline_eq_some (h : baseline pos c branches s = .ok base s') {x : String} {a : Assumption}
    (ha : base.lookup? x = some a) : x ∈ sharedVars branches ∧ ∃ ty v, a = .graded ty (.var v) := by
  unfold baseline at h
  rw [bind_eq_ok] at h
  obtain ⟨bindings, s₁, hbindings, h⟩ := h
  rw [pure_eq_ok] at h
  obtain ⟨rfl, rfl⟩ := h
  obtain ⟨ty, g, v, hmem, rfl⟩ := (mem_baseline hbindings).1 x a (Context.lookup?_ofList_eq_some ha)
  exact ⟨mem_names_of_mem_gradedOnly_restrict (List.mem_map_of_mem hmem), ty, v, rfl⟩

theorem isSome_lookup?_baseline (h : baseline pos c branches s = .ok base s') {x : String} {ty : Ty} {g : Grade}
    (hx : c.lookup? x = some (.graded ty g)) (hmem : x ∈ sharedVars branches) : (base.lookup? x).isSome := by
  unfold baseline at h
  rw [bind_eq_ok] at h
  obtain ⟨bindings, s₁, hbindings, h⟩ := h
  rw [pure_eq_ok] at h
  obtain ⟨rfl, rfl⟩ := h
  apply Context.isSome_lookup?_ofList
  exact (mem_baseline hbindings).2 x ty g (mem_gradedOnly_restrict hx hmem)

end Expr
end GradedModal
