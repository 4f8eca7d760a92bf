import Mathlib
import GradedModal.Proofs.LeastUpperBound
import GradedModal.Proofs.LevelQueries

/-!
This module shows that the value of a grade of naturals or of levels grows with the values of its variables. The joins
of grades rest on it: they are variables on the right-hand sides of constraints, and a larger value for one of them
does not make such a constraint false.
-/

namespace GradedModal

/--
The variables have values of a kind in two assignments, in the first one at most those in the second one.
-/
def Assignment.AtMost (kind : GradeKind) (vars : List String) (a a' : Assignment) : Prop :=
  ∀ x ∈ vars, ∃ v w, a.lookup x = some v ∧ a'.lookup x = some w ∧ v.kind = kind ∧ w.kind = kind ∧ v ≤ w

theorem Assignment.AtMost.subset {kind : GradeKind} {vars vars' : List String} {a a' : Assignment}
    (h : AtMost kind vars a a') (hvars : vars' ⊆ vars) : AtMost kind vars' a a' :=
  fun x hx => h x (hvars hx)

namespace Op

variable {o : Op} {kind : GradeKind} {u v v' w w' : Value}

theorem onNat_mono (o : Op) {m m' n n' : Nat} (hm : m ≤ m') (hn : n ≤ n') : o.onNat m n ≤ o.onNat m' n' := by
  unfold onNat
  cases o with
  | plus | join | meet => dsimp only; omega
  | times =>
    have hmul : m * n ≤ m' * n' := Nat.mul_le_mul hm hn
    dsimp only
    omega

theorem onLevel_mono (o : Op) {l l' k k' : Level} (hl : l ≤ l') (hk : k ≤ k') : o.onLevel l k ≤ o.onLevel l' k' := by
  change l.rank ≤ l'.rank at hl
  change k.rank ≤ k'.rank at hk
  change (o.onLevel l k).rank ≤ (o.onLevel l' k').rank
  unfold onLevel
  cases o with
  | plus =>
    simp only [Level.plus, Level.rank_max]
    omega
  | times =>
    -- A product is zero if a factor is: nothing is below it, and a larger factor can only end this.
    simp only [Level.rank_times]
    split <;> split <;> omega
  | join =>
    simp only [Level.rank_max]
    omega
  | meet =>
    simp only [Level.rank_min]
    omega

theorem apply_nat_eq_ok : o.apply .nat v w = .ok u ↔ ∃ m n, v = .nat m ∧ w = .nat n ∧ u = .nat (o.onNat m n) := by
  constructor
  . intro h
    cases v with
    | nat m =>
      cases w with
      | nat n =>
        cases h
        exact ⟨m, n, rfl, rfl, rfl⟩
      | _ => cases h
    | _ => cases h
  . rintro ⟨m, n, rfl, rfl, rfl⟩
    rfl

theorem apply_level_eq_ok
    : o.apply .level v w = .ok u ↔ ∃ l k, v = .level l ∧ w = .level k ∧ u = .level (o.onLevel l k) := by
  constructor
  . intro h
    cases v with
    | level l =>
      cases w with
      | level k =>
        cases h
        exact ⟨l, k, rfl, rfl, rfl⟩
      | _ => cases h
    | _ => cases h
  . rintro ⟨l, k, rfl, rfl, rfl⟩
    rfl

theorem kind_of_apply (hkind : kind.IsDiscrete) (h : o.apply kind v w = .ok u)
    : v.kind = kind ∧ w.kind = kind ∧ u.kind = kind := by
  obtain rfl | rfl := hkind
  . obtain ⟨m, n, rfl, rfl, rfl⟩ := apply_nat_eq_ok.mp h
    exact ⟨rfl, rfl, rfl⟩
  . obtain ⟨l, k, rfl, rfl, rfl⟩ := apply_level_eq_ok.mp h
    exact ⟨rfl, rfl, rfl⟩

theorem apply_mono (hkind : kind.IsDiscrete) (h : o.apply kind v w = .ok u) (hv : v ≤ v') (hw : w ≤ w')
    : ∃ u', o.apply kind v' w' = .ok u' ∧ u ≤ u' := by
  obtain rfl | rfl := hkind
  . obtain ⟨m, n, rfl, rfl, rfl⟩ := apply_nat_eq_ok.mp h
    obtain ⟨m', rfl, hm⟩ := Value.nat_le_iff.mp hv
    obtain ⟨n', rfl, hn⟩ := Value.nat_le_iff.mp hw
    exact ⟨_, rfl, o.onNat_mono hm hn⟩
  . obtain ⟨l, k, rfl, rfl, rfl⟩ := apply_level_eq_ok.mp h
    obtain ⟨l', rfl, hl⟩ := Value.level_le_iff.mp hv
    obtain ⟨k', rfl, hk⟩ := Value.level_le_iff.mp hw
    exact ⟨_, rfl, o.onLevel_mono hl hk⟩

end Op

section

variable {kind : GradeKind} {a a' : Assignment} {g : Grade} {v : Value}

/--
A grade has a value under larger values of its variables as well. The value of a literal of another kind, with which
arithmetic does not go on, is the same then; every other value is at least as large.
-/
theorem Grade.exists_evaluate_le (hkind : kind.IsDiscrete) (ha : Assignment.AtMost kind g.occurrences a a')
    (h : g.evaluate kind a = .ok v)
    : ∃ w, g.evaluate kind a' = .ok w ∧ (v.kind = kind → v ≤ w) ∧ (v.kind ≠ kind → w = v) := by
  induction g generalizing v with
  | var x =>
    obtain ⟨u, w, hu, hw, hukind, _, hle⟩ := ha x List.mem_cons_self
    unfold evaluate at h
    rw [hu] at h
    cases h
    refine ⟨w, ?_, fun _ => hle, fun hne => absurd hukind hne⟩
    unfold evaluate
    rw [hw]
  | op o g g' ihg ihg' =>
    obtain ⟨v₁, v₂, hv₁, hv₂, h⟩ := evaluate_op_eq_ok.mp h
    obtain ⟨hkind₁, hkind₂, hv⟩ := Op.kind_of_apply hkind h
    obtain ⟨w₁, hw₁, hle₁, _⟩ := ihg (ha.subset (List.subset_append_left _ _)) hv₁
    obtain ⟨w₂, hw₂, hle₂, _⟩ := ihg' (ha.subset (List.subset_append_right _ _)) hv₂
    obtain ⟨w, hw, hle⟩ := Op.apply_mono hkind h (hle₁ hkind₁) (hle₂ hkind₂)
    exact ⟨w, evaluate_op_eq_ok.mpr ⟨w₁, w₂, hw₁, hw₂, hw⟩, fun _ => hle, fun hne => absurd hv hne⟩
  | _ => exact ⟨v, h, Value.le_refl hkind, fun _ => rfl⟩

theorem Constraint.holds_of_atMost {c : Constraint} (hkind : c.kind.IsDiscrete) (hle : c.relation = .le)
    (hleft : ∀ x ∈ c.left.occurrences, a.lookup x = a'.lookup x)
    (hright : Assignment.AtMost c.kind c.right.occurrences a a') (h : c.holds a = .ok true) : c.holds a' = .ok true := by
  rw [holds_iff hkind] at h ⊢
  obtain ⟨v, w, hv, hw, hvkind, h⟩ := h
  rw [Grade.evaluate_eq_of_occurrences c.kind c.left hleft] at hv
  have hwkind := (Relation.kind_eq_of_onValue h).trans hvkind
  obtain ⟨w', hw', hww', _⟩ := Grade.exists_evaluate_le hkind hright hw
  rw [hle] at h ⊢
  exact ⟨v, w', hv, hw', hvkind, Relation.onValue_trans (r := .le) h (hww' hwkind)⟩

/--
The value of a grade of naturals or of levels grows with the values of its variables: if it has a value, then it has
one under larger values of its variables, which is at least as large. The value of a literal of another kind, which is
no operand, stays. So a constraint is still true when the variables on its right-hand side get larger values.
-/
theorem Grade.evaluate_monotone (hkind : kind.IsDiscrete) (ha : Assignment.AtMost kind g.vars a a')
    (h : g.evaluate kind a = .ok v)
    : (∃ w, g.evaluate kind a' = .ok w ∧ (v.kind = kind → v ≤ w) ∧ (v.kind ≠ kind → w = v)) ∧
      ∀ c : Constraint, c.kind = kind → c.relation = .le → c.right = g →
        (∀ x ∈ c.left.vars, a.lookup x = a'.lookup x) → c.holds a = .ok true → c.holds a' = .ok true := by
  have ha : Assignment.AtMost kind g.occurrences a a' := ha.subset fun _ => List.mem_eraseDups.mpr
  refine ⟨exists_evaluate_le hkind ha h, ?_⟩
  rintro c rfl hle rfl hleft hc
  exact Constraint.holds_of_atMost hkind hle (fun x hx => hleft x (List.mem_eraseDups.mpr hx)) ha hc

/-- `(x * y) \/ (y + 1)` -/
def Grade.productOrSuccessor : Grade :=
  .op .join (.op .times (.var "x") (.var "y")) (.op .plus (.var "y") (.one .nat))

-- The product goes beyond the largest word.
theorem Grade.evaluate_monotone_saturated
    : Assignment.AtMost .nat productOrSuccessor.vars [("x", .nat 6), ("y", .nat 2)]
        [("x", .nat 9223372036854775808), ("y", .nat 3)] ∧
      productOrSuccessor.evaluate .nat [("x", .nat 6), ("y", .nat 2)] = .ok (.nat 12) ∧
      ∃ w, productOrSuccessor.evaluate .nat [("x", .nat 9223372036854775808), ("y", .nat 3)] = .ok w ∧ .nat 12 ≤ w := by
  have hvars : Assignment.AtMost .nat productOrSuccessor.vars [("x", .nat 6), ("y", .nat 2)]
      [("x", .nat 9223372036854775808), ("y", .nat 3)] := by
    have hvars : productOrSuccessor.vars = ["x", "y"] := by decide
    rw [hvars]
    refine List.forall_mem_cons.mpr ⟨?_, List.forall_mem_singleton.mpr ?_⟩
    . exact ⟨.nat 6, _, rfl, rfl, rfl, rfl, by simp [Value.nat_le_iff]⟩
    . exact ⟨.nat 2, _, rfl, rfl, rfl, rfl, by simp [Value.nat_le_iff]⟩
  have hvalue : productOrSuccessor.evaluate .nat [("x", .nat 6), ("y", .nat 2)] = .ok (.nat 12) := by decide
  obtain ⟨⟨w, hw, hle, _⟩, _⟩ := evaluate_monotone (.inl rfl) hvars hvalue
  exact ⟨hvars, hvalue, w, hw, hle rfl⟩

end

end GradedModal
