import GradedModal.Proofs.Linearity

/-!
This module says what the grades mean that checking finds for graded variables: whatever values satisfy the
constraints, the value of a grade is at least the number of uses on each path, those in promotions apart.
-/

namespace GradedModal

open CheckM Context GradedModal.Path

instance (σ : String → Nat) (c : Constraint) : Decidable (c.HoldsExactly σ) :=
  match h : c.relation with
  | .eq => decidable_of_iff (c.left.exact σ = c.right.exact σ) (by unfold Constraint.HoldsExactly; rw [h])
  | .le => decidable_of_iff (c.left.exact σ ≤ c.right.exact σ) (by unfold Constraint.HoldsExactly; rw [h])

def Covers (σ : String → Nat) (x : String) (ps : List Path) (u : Option Assumption) : Prop :=
  (∀ ty, u ≠ some (.linear ty)) ∧ ∀ p ∈ ps, p.exposed x ≤ Assumption.amount σ u

namespace Covers

variable {σ : String → Nat} {x : String} {ps qs : List Path} {l r u : Option Assumption}

theorem of_hidden (hu : ∀ ty, u ≠ some (.linear ty)) (h : ∀ p ∈ ps, p.exposed x = 0) : Covers σ x ps u := by
  refine ⟨hu, ?_⟩
  intro p hp
  rw [h p hp]
  exact Nat.zero_le _

theorem of_not_mem {e : Expr} (h : x ∉ e.freeOccurrences) : Covers σ x e.paths none := by
  apply of_hidden (by simp)
  intro p hp
  have := Expr.uses_eq_zero_of_not_mem h hp
  have := exposed_le_uses (p := p) (x := x)
  omega

theorem sequence (hl : Covers σ x ps l) (hr : Covers σ x qs r) (h : AddsUp l r u)
    : Covers σ x (sequence ps qs) u := by
  constructor
  . rintro ty rfl
    obtain ⟨hlinear, _⟩ | ⟨_, hlinear⟩ := h.eq_linear
    . exact hl.1 ty hlinear
    . exact hr.1 ty hlinear
  . intro path hpath
    obtain ⟨p, hp, q, hq, rfl⟩ := mem_sequence.mp hpath
    rw [exposed_append]
    have := hl.2 p hp
    have := hr.2 q hq
    have := h.amount_le σ
    omega

theorem bind (y : String) (h : x ≠ y → Covers σ x ps u)
    : Covers σ x (ps.map (·.hide [y])) (if x = y then none else u) := by
  split
  . next hx =>
    apply of_hidden (by simp)
    intro path hpath
    obtain ⟨p, hp, rfl⟩ := List.mem_map.mp hpath
    rw [exposed_hide, if_pos (by simp [hx])]
  . next hx =>
    refine ⟨(h hx).1, ?_⟩
    intro path hpath
    obtain ⟨p, hp, rfl⟩ := List.mem_map.mp hpath
    rw [exposed_hide, if_neg (by simp [hx])]
    exact (h hx).2 p hp

theorem box (hu : ∀ ty, u ≠ some (.linear ty)) : Covers σ x (ps.map Path.box) u := by
  apply of_hidden hu
  intro path hpath
  obtain ⟨p, hp, rfl⟩ := List.mem_map.mp hpath
  exact exposed_box

end Covers

theorem amount_le_of_below {σ : String → Nat} {l : Option Assumption} {a : Assumption}
    (h : Below (Constraint.HoldsExactly σ) l (some a)) (hl : ∀ ty, l ≠ some (.linear ty))
    : Assumption.amount σ l ≤ Assumption.amount σ (some a) := by
  cases h with
  | unused => exact Nat.zero_le _
  | linear ty ty' => exact absurd rfl (hl ty)
  | graded h => exact h

section

variable {σ : String → Nat} {x : String} {a base : Option Assumption} {bs : List BranchUse}

-- What a wildcard stands for may have the name of the variable. If that is linear, its use cannot be below the
-- baseline.
theorem covers_body {b : BranchUse} (hbase : Baseline x (bs.map BranchUse.branch) a base)
    (huses : Uses (Constraint.HoldsExactly σ) x (b.bound.or a) b.body b.used)
    (hcovers : (∃ ty g, b.bound.or a = some (.graded ty g)) → Covers σ x b.body.paths b.used)
    (hclosed : b.Closed (Constraint.HoldsExactly σ) x base) (ha : ∃ ty g, a = some (.graded ty g))
    (hsome : base.isSome) : Covers σ x b.body.paths b.used := by
  apply hcovers
  cases hbound : b.bound with
  | none => exact ha
  | some a' =>
    cases a' with
    | graded ty g => exact ⟨ty, g, rfl⟩
    | linear ty =>
      rw [hbound] at huses
      obtain ⟨ty', hlinear⟩ := (huses.keptLinear rfl).nonZero.eq_linear (hclosed.consumed ty hbound)
      obtain ⟨t, ht⟩ := Option.isSome_iff_exists.mp hsome
      obtain ⟨ty'', v, rfl⟩ := hbase.graded t ht
      have hbelow := hclosed.below
      rw [hlinear, ht] at hbelow
      cases hbelow

theorem exposed_le_baseline (hbase : Baseline x (bs.map BranchUse.branch) a base)
    (huses : ∀ b ∈ bs, Uses (Constraint.HoldsExactly σ) x (b.bound.or a) b.body b.used)
    (hcovers : ∀ b ∈ bs, (∃ ty g, b.bound.or a = some (.graded ty g)) → Covers σ x b.body.paths b.used)
    (hclosed : ∀ b ∈ bs, b.Closed (Constraint.HoldsExactly σ) x base) (ha : ∃ ty g, a = some (.graded ty g))
    {path : Path} (hpath : path ∈ Expr.branchPaths (bs.map BranchUse.branch))
    : path.exposed x ≤ Assumption.amount σ base := by
  by_cases hexposed : 0 < path.exposed x
  . have hfree : x ∈ Expr.freeOccurrencesAll (bs.map BranchUse.branch) := by
      rw [← Expr.meet_branchPaths_iff]
      exact ⟨path, hpath, Nat.lt_of_lt_of_le hexposed exposed_le_uses⟩
    obtain ⟨ty, g, rfl⟩ := ha
    have hsome := hbase.covers ty g rfl hfree
    obtain ⟨b, hb, hpath⟩ := BranchUse.mem_branchPaths.mp hpath
    obtain ⟨p, hp, rfl⟩ := List.mem_map.mp hpath
    have hbody := covers_body hbase (huses b hb) (hcovers b hb) (hclosed b hb) ⟨ty, g, rfl⟩ hsome
    have hhide : (p.hide b.pattern.boundVars).exposed x ≤ p.exposed x := by
      rw [exposed_hide]
      split
      . exact Nat.zero_le _
      . exact Nat.le_refl _
    obtain ⟨t, rfl⟩ := Option.isSome_iff_exists.mp hsome
    have hbelow := amount_le_of_below (hclosed b hb).below hbody.1
    have := hbody.2 p hp
    omega
  . omega

end

theorem Uses.covers {σ : String → Nat} {x : String} {a u : Option Assumption} {e : Expr}
    (h : Uses (Constraint.HoldsExactly σ) x a e u) (ha : ∃ ty g, a = some (.graded ty g))
    : Covers σ x e.paths u := by
  induction h with
  | int pos n | float pos y | constructor pos name => exact .of_not_mem (by simp [Expr.freeOccurrences])
  | other pos hname => exact .of_not_mem (by simpa [Expr.freeOccurrences] using hname)
  | global pos | linear pos ty =>
    obtain ⟨_, _, ha⟩ := ha
    cases ha
  | graded pos ty g kind =>
    refine ⟨by simp, ?_⟩
    intro p hp
    unfold Expr.paths at hp
    rw [List.mem_singleton] at hp
    simp [hp, exposed, Assumption.amount, Grade.exact]
  | lam pos declared _ ih =>
    unfold Expr.paths
    apply Covers.bind
    intro hname
    rw [if_neg hname] at ih
    exact ih ha
  | scale pos p p₁ p₂ factor hscale _ ih =>
    have hf := Expr.not_mem_scale hscale (by obtain ⟨_, _, rfl⟩ := ha; simp) p p₁ p₂ factor
    rw [Expr.paths]
    exact (Covers.of_not_mem hf).sequence (ih ha) (.right _)
  | promoteChecked pos demand _ _ _ =>
    unfold Expr.paths
    exact .box (fun ty => map_scale_ne_linear)
  | promote pos v _ _ =>
    unfold Expr.paths
    apply Covers.box
    intro ty
    split
    . exact map_scale_ne_linear
    . simp
  | lift pos _ ih =>
    unfold Expr.paths
    exact ih ha
  | app pos _ _ hadds iha ihb | binop pos op _ _ hadds iha ihb | pair pos _ _ hadds iha ihb =>
    unfold Expr.paths
    exact (iha ha).sequence (ihb ha) hadds
  | @case a base value joined t u scrutinee bs pos _ hbs hbase hclosed hjoins ht hu ih ihbs =>
    constructor
    . rintro ty rfl
      obtain ⟨rfl, _⟩ | ⟨_, hlinear⟩ := hu.eq_linear
      . obtain ⟨rfl, _⟩ | ⟨_, hlinear⟩ := ht.eq_linear
        . obtain ⟨hne, hlinear⟩ := hjoins.of_linear rfl
          obtain ⟨u, hu⟩ := List.exists_mem_of_ne_nil _ hne
          obtain ⟨b, hb, rfl⟩ := List.mem_map.mp hu
          obtain ⟨ty', hnet⟩ := hlinear _ hu
          obtain ⟨hbound, hused⟩ := BranchUse.net_eq_some hnet
          apply (ihbs b hb _).1 ty' hused
          rw [hbound]
          exact ha
        . exact (ih ha).1 ty hlinear
      . obtain ⟨_, _, h⟩ := hbase.graded _ hlinear
        cases h
    . intro path hpath
      unfold Expr.paths at hpath
      obtain ⟨p, hp, q, hq, rfl⟩ := mem_sequence.mp hpath
      have hbranch : q.exposed x ≤ Assumption.amount σ base := by
        split at hq
        . rw [List.mem_singleton] at hq
          rw [hq]
          exact Nat.zero_le _
        . exact exposed_le_baseline hbase hbs ihbs hclosed ha hq
      rw [exposed_append]
      have := (ih ha).2 p hp
      have := ht.amount_le σ
      have := hu.amount_le σ
      omega
  | letDiamond pos declared _ _ hadds ihvalue ihrest | letBox pos ty _ _ hadds ihvalue ihrest =>
    unfold Expr.paths
    apply (ihvalue ha).sequence _ hadds
    apply Covers.bind
    intro hname
    rw [if_neg hname] at ihrest
    exact ihrest ha

/--
If an assignment of naturals satisfies the constraints that checking collects, those in antecedents apart, then the
grade of each graded variable has a value of at least the number of its uses on each path, those in promotions apart.
-/
theorem graded_never_undercounted {env : Env} {c used : Context} {polarity : Polarity} {e : Expr} {s s' : State}
    (h : Expr.Answers env c polarity e s used s') {σ : String → Nat}
    (hσ : ∀ constraint ∈ s.demands s', constraint.HoldsExactly σ) {x : String} {ty : Ty} {g : Grade}
    (hx : c.lookup? x = some (.graded ty g))
    : (used.lookup? x = none → ∀ p ∈ e.paths, p.exposed x = 0) ∧
      (∀ a, used.lookup? x = some a → ∃ ty' g', a = .graded ty' g' ∧ ∀ p ∈ e.paths, p.exposed x ≤ g'.exact σ) := by
  have hcovers := (h.uses hσ x).covers ⟨ty, g, hx⟩
  constructor
  . intro hnone p hp
    have := hcovers.2 p hp
    rw [hnone] at this
    exact Nat.le_zero.mp this
  . intro a ha
    rw [ha] at hcovers
    cases a with
    | linear ty' => exact absurd rfl (hcovers.1 ty')
    | graded ty' g' => exact ⟨ty', g', rfl, hcovers.2⟩

theorem graded_never_undercounted_twice
    : ∃ used s', Expr.Answers ⟨.standard, []⟩ ⟨[("x", .graded (.const "Int") (.nat 2))]⟩ .positive
        (.binop 0 .add (.var 0 "x") (.agreeing "x")) .start used s' ∧
        (∀ constraint ∈ State.start.demands s', constraint.HoldsExactly fun _ => 1) ∧
        ∃ a ty g, used.lookup? "x" = some a ∧ a = .graded ty g ∧
          ∀ p ∈ (Expr.binop 0 .add (.var 0 "x") (.agreeing "x")).paths, p.exposed "x" ≤ g.exact fun _ => 1 := by
  have hcheck : yields (Expr.check ⟨.standard, []⟩ ⟨[("x", .graded (.const "Int") (.nat 2))]⟩ .positive false
      (.const "Int") (.binop 0 .add (.var 0 "x") (.agreeing "x"))) .start (fun r s' =>
        (State.start.demands s').all (fun constraint => decide (constraint.HoldsExactly fun _ => 1)) &&
          (r.1.lookup? "x").isSome) = true := by
    cbv
  obtain ⟨used, s', h, hp⟩ := Expr.exists_answers (fun used s' =>
    (State.start.demands s').all (fun constraint => decide (constraint.HoldsExactly fun _ => 1)) &&
      (used.lookup? "x").isSome) hcheck
  rw [Bool.and_eq_true, List.all_eq_true] at hp
  simp only [decide_eq_true_eq] at hp
  obtain ⟨a, ha⟩ := Option.isSome_iff_exists.mp hp.2
  obtain ⟨ty, g, hgraded⟩ := (graded_never_undercounted h hp.1 rfl).2 a ha
  exact ⟨used, s', h, hp.1, a, ty, g, ha, hgraded⟩

end GradedModal
