import GradedModal.Proofs.Grading
import GradedModal.Proofs.Search

/-!
This module compares the evaluation of constraints on naturals with exact arithmetic. Words stop at the largest
word, so a grade evaluates to the smaller of its exact value and the largest word, and a constraint whose sides
both go beyond it is decided as if they were the largest word.
-/

namespace GradedModal

/--
Whether a grade is built from variables, naturals, zero and one.
-/
def Grade.isNatural : Grade → Bool
  | .float _ | .level _ => false
  | .op _ g h => g.isNatural && h.isNatural
  | _ => true

/--
Whether a constraint compares grades of naturals whose literals are words.
-/
def Constraint.isNatural (c : Constraint) : Bool :=
  c.kind = .nat && c.left.isNatural && c.right.isNatural && c.left.isWord && c.right.isWord

/--
Under an assignment that makes a constraint saturate, the sides cannot be told apart in words: the right one is
at least the largest word, and so is the left one of an equation.
-/
def Constraint.Saturates (σ : String → Nat) (c : Constraint) : Prop :=
  maxWord ≤ c.right.exact σ ∧ (c.relation = .eq → maxWord ≤ c.left.exact σ)

theorem min_mul_min_right (a b m : Nat) : min (a * min b m) m = min (a * b) m := by
  rcases Nat.le_total b m with h | h
  . rw [Nat.min_eq_left h]
  . rw [Nat.min_eq_right h]
    rcases Nat.eq_zero_or_pos a with rfl | ha
    . simp
    . have h₁ : m ≤ a * m := Nat.le_mul_of_pos_left m ha
      have h₂ : a * m ≤ a * b := Nat.mul_le_mul_left a h
      omega

theorem Op.onNat_min (o : Op) (m n : Nat) : o.onNat (min m maxWord) (min n maxWord) = min (o.exact m n) maxWord := by
  unfold onNat exact
  cases o with
  | plus | join | meet => dsimp only; omega
  | times =>
    dsimp only
    rw [min_mul_min_right, Nat.mul_comm, min_mul_min_right, Nat.mul_comm]

variable {σ : String → Nat} {a : Assignment}

theorem Grade.evaluate_natural {g : Grade} (hg : g.isNatural = true) (hword : g.isWord = true)
    (ha : ∀ x ∈ g.occurrences, σ x ≤ maxWord ∧ a.lookup x = some (.nat (σ x)))
    : g.evaluate .nat a = .ok (.nat (min (g.exact σ) maxWord)) := by
  induction g with
  | var x =>
    obtain ⟨hle, hlookup⟩ := ha x List.mem_cons_self
    unfold evaluate exact
    rw [hlookup, Nat.min_eq_left hle]
  | nat n =>
    have hn : n ≤ maxWord := by simpa [isWord] using hword
    simp [evaluate, exact, Nat.min_eq_left hn]
  | zero kind | one kind => rfl
  | float x | level l => cases hg
  | op o g h ihg ihh =>
    simp only [isNatural, isWord, Bool.and_eq_true] at hg hword
    have hl := ihg hg.1 hword.1 fun x hx => ha x (List.mem_append_left _ hx)
    have hr := ihh hg.2 hword.2 fun x hx => ha x (List.mem_append_right _ hx)
    unfold evaluate exact
    rw [hl, hr, ← Op.onNat_min]
    rfl

theorem Relation.onNat_min_iff {c : Constraint}
    : c.relation.onNat (min (c.left.exact σ) maxWord) (min (c.right.exact σ) maxWord) = true ↔
        c.HoldsExactly σ ∨ c.Saturates σ := by
  unfold Relation.onNat Constraint.HoldsExactly Constraint.Saturates
  cases c.relation with
  | eq =>
    simp only [decide_eq_true_eq, true_implies]
    omega
  | le =>
    simp only [decide_eq_true_eq, reduceCtorEq, false_implies, and_true]
    omega

theorem Constraint.holds_natural {c : Constraint} (hc : c.isNatural = true)
    (ha : ∀ x ∈ c.vars, σ x ≤ maxWord ∧ a.lookup x = some (.nat (σ x)))
    : c.holds a = .ok (c.relation.onNat (min (c.left.exact σ) maxWord) (min (c.right.exact σ) maxWord)) := by
  simp only [isNatural, Bool.and_eq_true, decide_eq_true_eq] at hc
  obtain ⟨⟨⟨⟨hkind, hl⟩, hr⟩, hlword⟩, hrword⟩ := hc
  have hvars : ∀ x, x ∈ c.left.occurrences ∨ x ∈ c.right.occurrences → x ∈ c.vars := by
    intro x hx
    unfold vars
    rwa [List.mem_eraseDups, List.mem_append]
  unfold holds
  rw [hkind, Grade.evaluate_natural hl hlword fun x hx => ha x (hvars x (.inl hx)),
    Grade.evaluate_natural hr hrword fun x hx => ha x (hvars x (.inr hx))]
  rfl

/--
Evaluation decides a constraint on naturals, up to saturation: it accepts every constraint that is true in exact
arithmetic, and a false one exactly if it saturates. Likewise a constraint without variables counts as trivially
false exactly if it is false and does not saturate.
-/
theorem holds_natural_iff_exact_or_saturates {c : Constraint} (hc : c.isNatural = true)
    (ha : ∀ x ∈ c.vars, σ x ≤ maxWord ∧ a.lookup x = some (.nat (σ x)))
    : (∃ b, c.holds a = .ok b ∧ (b = true ↔ c.HoldsExactly σ ∨ c.Saturates σ)) ∧
        (c.vars = [] → (c.isTriviallyFalse = true ↔ ¬ c.HoldsExactly σ ∧ ¬ c.Saturates σ)) := by
  constructor
  . exact ⟨_, Constraint.holds_natural hc ha, Relation.onNat_min_iff⟩
  . intro hvars
    have hclosed
        : c.holds [] = .ok (c.relation.onNat (min (c.left.exact σ) maxWord) (min (c.right.exact σ) maxWord)) :=
      Constraint.holds_natural hc (by simp [hvars])
    unfold Constraint.isTriviallyFalse
    rw [hvars, hclosed, ← not_or, ← Relation.onNat_min_iff]
    simp

/--
Twice the largest word counts as at most the largest word.
-/
theorem holds_natural_iff_exact_or_saturates_double
    : ∃ c : Constraint, c = ⟨0, .le, .op .plus (.var "x") (.var "x"), .nat maxWord, .nat⟩ ∧ c.isNatural = true ∧
        (∃ b, c.holds [("x", .nat maxWord)] = .ok b ∧
          (b = true ↔ c.HoldsExactly (fun _ => maxWord) ∨ c.Saturates (fun _ => maxWord))) ∧
        (c.vars = [] → (c.isTriviallyFalse = true ↔
          ¬ c.HoldsExactly (fun _ => maxWord) ∧ ¬ c.Saturates (fun _ => maxWord))) := by
  refine ⟨_, rfl, by decide, holds_natural_iff_exact_or_saturates (by decide) ?_⟩
  intro x hx
  have hx : x = "x" := by simpa [Constraint.vars, Grade.occurrences] using hx
  subst hx
  exact ⟨Nat.le_refl _, rfl⟩

/--
The successor of the largest word is not the largest word, but evaluation makes them equal.
-/
theorem holds_successor_of_maxWord
    : ∃ c : Constraint, c = ⟨0, .eq, .op .plus (.nat maxWord) (.nat 1), .nat maxWord, .nat⟩ ∧
        c.isNatural = true ∧ c.vars = [] ∧ c.holds [] = .ok true ∧ c.isTriviallyFalse = false ∧
        ¬ c.HoldsExactly fun _ => 0 :=
  ⟨_, rfl, by decide, rfl, rfl, rfl, by decide⟩

end GradedModal
