import GradedModal.Proofs.Doubles
import GradedModal.Proofs.Saturation
import GradedModal.Proofs.SmtLib

/-!
This module says what the text of a constraint on naturals means to a solver. Literals are written as doubles, so it is
the constraint with each literal rounded to the nearest double, and the constraint itself if all literals are doubles.
-/

namespace GradedModal

/--
The naturals that are written in a grade.
-/
def Grade.naturals : Grade → List Nat
  | .nat n => [n]
  | .op _ g h => g.naturals ++ h.naturals
  | _ => []

def Constraint.naturals (c : Constraint) : List Nat :=
  c.left.naturals ++ c.right.naturals

/--
The grade with the words that the nearest doubles of its literals are cut off to.
-/
def Grade.rounded : Grade → Grade
  | .nat n => .nat (min (Double.nearest n) maxWord)
  | .op o g h => .op o g.rounded h.rounded
  | g => g

def Constraint.rounded (c : Constraint) : Constraint :=
  { c with left := c.left.rounded, right := c.right.rounded }

theorem Grade.rounded_eq {g : Grade} (hword : g.isWord = true)
    (h : ∀ n ∈ g.naturals, 2 ^ (n.log2 - 52) ∣ n ∨ n = maxWord) : g.rounded = g := by
  induction g with
  | nat n =>
    have hn : n ≤ maxWord := by simpa [isWord] using hword
    have hback := (Double.toUInt64_ofNat_eq_iff hn).mpr (h n List.mem_cons_self)
    rw [rounded, ← Double.toUInt64_ofNat hn, hback]
  | op o g g' ihg ihg' =>
    simp only [isWord, Bool.and_eq_true] at hword
    rw [rounded, ihg hword.1 fun n hn => h n (List.mem_append_left _ hn),
      ihg' hword.2 fun n hn => h n (List.mem_append_right _ hn)]
  | _ => rfl

namespace SmtLib

variable {scope : List String}

theorem operation_of_naturals {o : Op} {a b : SExpr} {m n : (String → Int) → Int}
    (ha : meaning? scope a = some (.integer m)) (hb : meaning? scope b = some (.integer n))
    : ∃ k, meaning? scope (Script.operation .nat o a b) = some (.integer k) ∧
        ∀ σ (i j : Nat), m σ = i → n σ = j → k σ = o.exact i j := by
  cases o with
  | plus =>
    refine ⟨_, meaning?_add ha hb, ?_⟩
    intro σ i j hi hj
    simp only [hi, hj, Op.exact, Nat.cast_add]
  | times =>
    refine ⟨_, meaning?_mul ha hb, ?_⟩
    intro σ i j hi hj
    simp only [hi, hj, Op.exact, Nat.cast_mul]
  | join =>
    refine ⟨_, meaning?_larger ha hb, ?_⟩
    intro σ i j hi hj
    simp only [hi, hj, Op.exact, Nat.cast_max]
  | meet =>
    refine ⟨_, meaning?_smaller ha hb, ?_⟩
    intro σ i j hi hj
    simp only [hi, hj, Op.exact, Nat.cast_min]

theorem term_of_naturals {g : Grade} (hg : g.isNatural = true) (hword : g.isWord = true)
    (hscope : ∀ x ∈ g.occurrences, x ∈ scope)
    : ∃ m, meaning? scope (Script.term .nat g) = some (.integer m) ∧
        ∀ σ : String → Nat, m (fun x => σ x) = g.rounded.exact σ := by
  induction g with
  | var x => exact ⟨_, meaning?_symbol (hscope x List.mem_cons_self), fun σ => rfl⟩
  | nat n =>
    have hn : n ≤ maxWord := by simpa [Grade.isWord] using hword
    refine ⟨_, meaning?_literal (by decide) (Float.ofNat n), fun σ => ?_⟩
    exact congrArg _ (Double.toUInt64_ofNat hn)
  | zero kind =>
    refine ⟨_, meaning?_literal (by decide) 0, fun σ => ?_⟩
    exact congrArg _ (Double.toUInt64_ofNat_of_lt (by decide : 0 < 2 ^ 53))
  | one kind =>
    refine ⟨_, meaning?_literal (by decide) 1, fun σ => ?_⟩
    exact congrArg _ (Double.toUInt64_ofNat_of_lt (by decide : 1 < 2 ^ 53))
  | float x => cases hg
  | level l => cases hg
  | op o g h ihg ihh =>
    simp only [Grade.isNatural, Grade.isWord, Bool.and_eq_true] at hg hword
    obtain ⟨m, hm, hleft⟩ := ihg hg.1 hword.1 fun x hx => hscope x (List.mem_append_left _ hx)
    obtain ⟨n, hn, hright⟩ := ihh hg.2 hword.2 fun x hx => hscope x (List.mem_append_right _ hx)
    obtain ⟨k, hk, hop⟩ := operation_of_naturals (o := o) hm hn
    exact ⟨k, hk, fun σ => hop _ _ _ (hleft σ) (hright σ)⟩

theorem meaning?_atom_of_naturals {c : Constraint} (hc : c.isNatural = true) (hscope : ∀ x ∈ c.vars, x ∈ scope)
    : ∃ p, meaning? scope (Script.formula (.atom c)) = some (.truth p) ∧
        ∀ σ : String → Nat, p (fun x => σ x) ↔ c.rounded.HoldsExactly σ := by
  simp only [Constraint.isNatural, Bool.and_eq_true, decide_eq_true_eq] at hc
  obtain ⟨⟨⟨⟨hkind, hl⟩, hr⟩, hlword⟩, hrword⟩ := hc
  have hvars : ∀ x ∈ c.left.occurrences ++ c.right.occurrences, x ∈ scope :=
    fun x hx => hscope x (List.mem_eraseDups.mpr hx)
  obtain ⟨m, hm, hleft⟩ := term_of_naturals hl hlword fun x hx => hvars x (List.mem_append_left _ hx)
  obtain ⟨n, hn, hright⟩ := term_of_naturals hr hrword fun x hx => hvars x (List.mem_append_right _ hx)
  unfold Constraint.HoldsExactly Constraint.rounded
  rw [Script.formula, hkind]
  cases c.relation with
  | eq =>
    refine ⟨_, meaning?_eq hm hn, fun σ => ?_⟩
    simp only [hleft, hright, Nat.cast_inj]
  | le =>
    refine ⟨_, meaning?_le hm hn, fun σ => ?_⟩
    simp only [hleft, hright, Nat.cast_le]

theorem statement?_atom {c : Constraint} {p : Condition} (hnames : ∀ x ∈ c.vars, IsName x)
    (h : meaning? scope (Script.formula (.atom c)) = some (.truth p))
    : statement? scope (Script.formula (.atom c)).render = some p := by
  have hlexical : IsLexical (Script.formula (.atom c)) := by
    apply isLexical_formula
    intro x hx
    unfold Formula.names at hx
    exact (hnames x (List.mem_eraseDups.mpr hx)).1
  unfold statement?
  rw [read_render hlexical]
  simp only [Option.bind_eq_bind, Option.bind_some, h]
  rfl

end SmtLib

open SmtLib

theorem Constraint.rounded_eq {c : Constraint} (hc : c.isNatural = true)
    (h : ∀ n ∈ c.naturals, 2 ^ (n.log2 - 52) ∣ n ∨ n = maxWord) : c.rounded = c := by
  simp only [isNatural, Bool.and_eq_true] at hc
  unfold rounded
  rw [Grade.rounded_eq hc.1.2 fun n hn => h n (List.mem_append_left _ hn),
    Grade.rounded_eq hc.2 fun n hn => h n (List.mem_append_right _ hn)]

/--
The text of a constraint on naturals says in exact arithmetic what the constraint does whose literals are rounded to
doubles. So it says the same as the constraint itself if all literals are doubles, which means that they have at most
53 binary digits before their last zeros, or the largest word.
-/
theorem atom_text_means_rounded {c : Constraint} (hc : c.isNatural = true) (hnames : ∀ x ∈ c.vars, IsName x)
    : ∃ p, statement? c.vars (Script.formula (.atom c)).render = some p ∧
        (∀ σ : String → Nat, p (fun x => σ x) ↔ c.rounded.HoldsExactly σ) ∧
        ((∀ n ∈ c.naturals, 2 ^ (n.log2 - 52) ∣ n ∨ n = maxWord) →
          ∀ σ : String → Nat, p (fun x => σ x) ↔ c.HoldsExactly σ) := by
  obtain ⟨p, hp, hholds⟩ := meaning?_atom_of_naturals hc fun _ hx => hx
  refine ⟨p, statement?_atom hnames hp, hholds, ?_⟩
  intro h
  rw [Constraint.rounded_eq hc h] at hholds
  exact hholds

theorem atom_text_means_rounded_sum
    : ∃ c : Constraint, c = ⟨0, .le, .op .join (.var "x") (.nat 9007199254740994), .op .plus (.var "y") (.one .nat), .nat⟩ ∧
        c.isNatural = true ∧
        ∃ p, statement? c.vars (Script.formula (.atom c)).render = some p ∧
          (∀ σ : String → Nat, p (fun x => σ x) ↔ c.rounded.HoldsExactly σ) ∧
          ((∀ n ∈ c.naturals, 2 ^ (n.log2 - 52) ∣ n ∨ n = maxWord) →
            ∀ σ : String → Nat, p (fun x => σ x) ↔ c.HoldsExactly σ) :=
  ⟨_, rfl, by decide, atom_text_means_rounded (by decide) (by decide)⟩

/--
The successor of a power of two with 54 binary digits is not a double. It is written like the power of two.
-/
theorem atom_text_of_successor
    : ∃ c : Constraint, c = ⟨0, .eq, .nat 9007199254740993, .nat 9007199254740992, .nat⟩ ∧ c.isNatural = true ∧
        (Script.formula (.atom c)).render = "(= 9007199254740992 9007199254740992)" ∧
        ∃ p, statement? c.vars (Script.formula (.atom c)).render = some p ∧
          ∀ σ : String → Nat, p (fun x => σ x) ∧ ¬ c.HoldsExactly σ := by
  refine ⟨_, rfl, by decide, by decide +kernel, ?_⟩
  obtain ⟨p, hp, hholds⟩ := meaning?_atom_of_naturals
    (c := ⟨0, .eq, .nat 9007199254740993, .nat 9007199254740992, .nat⟩) (by decide) fun _ hx => hx
  refine ⟨p, statement?_atom (by decide) hp, fun σ => ⟨(hholds σ).mpr ?_, ?_⟩⟩
  . rfl
  . change ¬ 9007199254740993 = 9007199254740992
    decide

end GradedModal
