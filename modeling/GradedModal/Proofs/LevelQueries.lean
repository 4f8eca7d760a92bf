import GradedModal.Proofs.Doubles
import GradedModal.Proofs.Quantifiers
import GradedModal.Proofs.SmtLib

/-!
This module says that the script of a query about levels asks for a counterexample to it. The levels are written as the
integers from zero to two, and what the script asserts of integers is what the query says of levels.
-/

namespace GradedModal

/--
Whether a grade is built from variables, levels, zero and one.
-/
def Grade.isOfLevels : Grade → Bool
  | .nat _ | .float _ => false
  | .op _ g h => g.isOfLevels && h.isOfLevels
  | _ => true

mutual

/--
Whether all constraints and quantifiers of a formula are about levels.
-/
def Formula.isOfLevels : Formula → Bool
  | .atom c => c.kind = .level && c.left.isOfLevels && c.right.isOfLevels
  | .and items => areOfLevels items
  | .implies p q => p.isOfLevels && q.isOfLevels
  | .forAll vars body => vars.all (·.2 = .level) && body.isOfLevels
  | .forSome vars body => vars.all (·.2 = .level) && body.isOfLevels

def Formula.areOfLevels : List Formula → Bool
  | [] => true
  | f :: fs => f.isOfLevels && areOfLevels fs

end

def Query.isOfLevels (q : Query) : Bool :=
  q.universals.all (·.2 = .level) && q.body.isOfLevels

mutual

/--
Whether every quantifier of a formula binds a variable.
-/
def Formula.bindsAlways : Formula → Bool
  | .atom _ => true
  | .and items => bindAlways items
  | .implies p q => p.bindsAlways && q.bindsAlways
  | .forAll vars body => !vars.isEmpty && body.bindsAlways
  | .forSome vars body => !vars.isEmpty && body.bindsAlways

def Formula.bindAlways : List Formula → Bool
  | [] => true
  | f :: fs => f.bindsAlways && bindAlways fs

end

/--
The script of a query can be read: all names are symbols that a script can declare, no universal is declared twice, and
no quantifier is empty.
-/
structure Query.IsWritable (q : Query) : Prop where
  names : ∀ x ∈ q.names, SmtLib.IsName x
  distinct : (q.universals.map (·.1)).Nodup
  binds : q.body.bindsAlways = true

namespace Level

theorem rank_inj {l l' : Level} : l.rank = l'.rank ↔ l = l' := by
  cases l <;> cases l' <;> decide

theorem rank_le_two (l : Level) : l.rank ≤ 2 := by
  cases l <;> decide

theorem exists_rank {n : Int} (h₀ : 0 ≤ n) (h₂ : n ≤ 2) : ∃ l : Level, n = l.rank := by
  obtain rfl | rfl | rfl : n = 0 ∨ n = 1 ∨ n = 2 := by omega
  . exact ⟨.unused, rfl⟩
  . exact ⟨.visible, rfl⟩
  . exact ⟨.secret, rfl⟩

theorem rank_max (l l' : Level) : (max l l').rank = max l.rank l'.rank := by
  cases l <;> cases l' <;> rfl

theorem rank_min (l l' : Level) : (min l l').rank = min l.rank l'.rank := by
  cases l <;> cases l' <;> rfl

theorem rank_times (l l' : Level)
    : (l.times l').rank = if l.rank = 0 ∨ l'.rank = 0 then 0 else max l.rank l'.rank := by
  cases l <;> cases l' <;> rfl

end Level

theorem Interpretation.not_forSome_iff {α : Type} {I : Interpretation α} {P : List (String × α) → Prop}
    {vars : List Bound} {a : List (String × α)}
    : ¬ I.ForSome P vars a ↔ I.ForAll (fun a => ¬ P a) vars a := by
  induction vars generalizing a with
  | nil => exact Iff.rfl
  | cons b vars ih => simp only [ForSome, ForAll, not_exists, not_and, ih]

namespace SmtLib

def Represents (scope : List String) (a : Assignment) (σ : String → Int) : Prop :=
  ∀ x ∈ scope, ∃ l, a.lookup x = some (.level l) ∧ σ x = l.rank

def InRange (x : String) : Condition :=
  fun σ => 0 ≤ σ x ∧ σ x ≤ 2

variable {scope : List String}

theorem meaning?_zero : meaning? scope (.atom "0") = some (.integer fun _ => 0) :=
  meaning?_numeral 0

theorem meaning?_range {x : String} (hx : x ∈ scope)
    : meaning? scope (Script.range x .level) = some (.truth (InRange x)) := by
  have hlow : meaning? scope (SExpr.app ">=" [Script.symbol x, .atom "0"]) = some (.truth fun σ => σ x ≥ 0) :=
    meaning?_ge (meaning?_symbol hx) meaning?_zero
  have hhigh : meaning? scope (SExpr.app "<=" [Script.symbol x, .atom "2"]) = some (.truth fun σ => σ x ≤ 2) :=
    meaning?_le (meaning?_symbol hx) (meaning?_numeral 2)
  exact meaning?_both hlow hhigh

theorem operation_of_levels {o : Op} {a b : SExpr} {m n : (String → Int) → Int}
    (ha : meaning? scope a = some (.integer m)) (hb : meaning? scope b = some (.integer n))
    : ∃ k, meaning? scope (Script.operation .level o a b) = some (.integer k) ∧
        ∀ σ l l', m σ = Level.rank l → n σ = Level.rank l' → k σ = (o.onLevel l l').rank := by
  cases o with
  | plus | join =>
    refine ⟨_, meaning?_larger ha hb, ?_⟩
    intro σ l l' hl hl'
    have hmax := Level.rank_max l l'
    dsimp only [Op.onLevel, Level.plus]
    omega
  | times =>
    have hzero := meaning?_or (meaning?_eq ha meaning?_zero) (meaning?_eq hb meaning?_zero)
    refine ⟨_, meaning?_ite meaning?_zero (meaning?_larger ha hb) hzero, ?_⟩
    intro σ l l' hl hl'
    have htimes := Level.rank_times l l'
    dsimp only [Op.onLevel]
    split at htimes
    . rw [if_pos (by omega)]
      omega
    . rw [if_neg (by omega)]
      omega
  | meet =>
    refine ⟨_, meaning?_smaller ha hb, ?_⟩
    intro σ l l' hl hl'
    have hmin := Level.rank_min l l'
    dsimp only [Op.onLevel]
    omega

theorem term_of_levels {g : Grade} (hg : g.isOfLevels = true) (hscope : ∀ x ∈ g.occurrences, x ∈ scope)
    : ∃ m, meaning? scope (Script.term .level g) = some (.integer m) ∧
        ∀ a σ, Represents scope a σ → ∃ l, g.evaluate .level a = .ok (.level l) ∧ m σ = l.rank := by
  induction g with
  | var x =>
    have hx := hscope x List.mem_cons_self
    refine ⟨_, meaning?_symbol hx, ?_⟩
    intro a σ h
    obtain ⟨l, hlookup, hl⟩ := h x hx
    refine ⟨l, ?_, hl⟩
    unfold Grade.evaluate
    rw [hlookup]
  | nat n => cases hg
  | float x => cases hg
  | level l => exact ⟨_, meaning?_numeral _, fun a σ h => ⟨l, rfl, rfl⟩⟩
  | zero kind =>
    refine ⟨_, meaning?_literal (by decide) 0, fun a σ h => ⟨.unused, rfl, ?_⟩⟩
    exact congrArg _ (Double.toUInt64_ofNat_of_lt (by decide : 0 < 2 ^ 53))
  | one kind =>
    refine ⟨_, meaning?_literal (by decide) 1, fun a σ h => ⟨.visible, rfl, ?_⟩⟩
    exact congrArg _ (Double.toUInt64_ofNat_of_lt (by decide : 1 < 2 ^ 53))
  | op o g h ihg ihh =>
    simp only [Grade.isOfLevels, Bool.and_eq_true] at hg
    obtain ⟨m, hm, hleft⟩ := ihg hg.1 fun x hx => hscope x (List.mem_append_left _ hx)
    obtain ⟨n, hn, hright⟩ := ihh hg.2 fun x hx => hscope x (List.mem_append_right _ hx)
    obtain ⟨k, hk, hop⟩ := operation_of_levels (o := o) hm hn
    refine ⟨k, hk, ?_⟩
    intro a σ hσ
    obtain ⟨l, hl, hlrank⟩ := hleft a σ hσ
    obtain ⟨l', hl', hlrank'⟩ := hright a σ hσ
    refine ⟨o.onLevel l l', ?_, hop σ l l' hlrank hlrank'⟩
    unfold Grade.evaluate
    rw [hl, hl']
    rfl

theorem relation_of_levels {r : Relation} {a b : SExpr} {m n : (String → Int) → Int}
    (ha : meaning? scope a = some (.integer m)) (hb : meaning? scope b = some (.integer n))
    : ∃ p, meaning? scope (SExpr.app r.render [a, b]) = some (.truth p) ∧
        ∀ σ l l', m σ = Level.rank l → n σ = Level.rank l' → (p σ ↔ r.onLevel l l' = true) := by
  cases r with
  | eq =>
    refine ⟨_, meaning?_eq ha hb, ?_⟩
    intro σ l l' hl hl'
    simp only [Relation.onLevel, decide_eq_true_eq, ← Level.rank_inj]
    omega
  | le =>
    refine ⟨_, meaning?_le ha hb, ?_⟩
    intro σ l l' hl hl'
    simp only [Relation.onLevel, decide_eq_true_eq]
    change _ ↔ l.rank ≤ l'.rank
    omega

def Stated (scope : List String) (f : Formula) : Prop :=
  ∃ p, meaning? scope (Script.formula f) = some (.truth p) ∧
    ∀ a σ, Represents scope a σ → (p σ ↔ f.IsTrue .standard a)

theorem stated_atom {c : Constraint} (hc : (Formula.atom c).isOfLevels = true)
    (hscope : ∀ x ∈ (Formula.atom c).names, x ∈ scope) : Stated scope (.atom c) := by
  simp only [Formula.isOfLevels, Bool.and_eq_true, decide_eq_true_eq] at hc
  unfold Formula.names at hscope
  obtain ⟨m, hm, hleft⟩ := term_of_levels hc.1.2 fun x hx => hscope x (List.mem_append_left _ hx)
  obtain ⟨n, hn, hright⟩ := term_of_levels hc.2 fun x hx => hscope x (List.mem_append_right _ hx)
  obtain ⟨p, hp, hholds⟩ := relation_of_levels (r := c.relation) hm hn
  refine ⟨p, ?_, ?_⟩
  . rw [Script.formula, hc.1.1]
    exact hp
  . intro a σ hσ
    obtain ⟨l, hl, hlrank⟩ := hleft a σ hσ
    obtain ⟨l', hl', hlrank'⟩ := hright a σ hσ
    rw [hholds σ l l' hlrank hlrank', Formula.IsTrue]
    change _ ↔ c.holds a = .ok true
    unfold Constraint.holds
    rw [hc.1.1, hl, hl']
    change _ ↔ Except.ok (c.relation.onLevel l l') = .ok true
    simp

theorem meaning?_true (h : "true" ∉ scope) : meaning? scope (.atom "true") = some (.truth fun _ => True) := by
  have hnumeral : numeral? "true" = none := by decide
  have hsymbol : symbol? "true" = some "true" := by decide
  rw [meaning?, hnumeral, hsymbol]
  simp [h]

theorem stated_and {fs : List Formula} (htrue : "true" ∉ scope) (h : ∀ f ∈ fs, Stated scope f)
    : Stated scope (.and fs) := by
  have hitems : ∃ ps : List Condition, meanings? scope (Script.formulas fs) = some (ps.map .truth) ∧
      ∀ a σ, Represents scope a σ → ((∀ p ∈ ps, p σ) ↔ ∀ f ∈ fs, f.IsTrue .standard a) := by
    induction fs with
    | nil =>
      refine ⟨[], ?_, by simp⟩
      rw [Script.formulas]
      exact meanings?_nil
    | cons f fs ih =>
      rw [List.forall_mem_cons] at h
      obtain ⟨p, hp, hf⟩ := h.1
      obtain ⟨ps, hps, hfs⟩ := ih h.2
      refine ⟨p :: ps, ?_, ?_⟩
      . rw [Script.formulas]
        exact meanings?_cons hp hps
      . intro a σ hσ
        rw [List.forall_mem_cons, List.forall_mem_cons, hf a σ hσ, hfs a σ hσ]
  unfold Stated
  simp only [Formula.IsTrue, Formula.allTrue_iff]
  rw [Script.formula]
  split
  . next hempty =>
    obtain rfl := List.isEmpty_iff.mp hempty
    exact ⟨_, meaning?_true htrue, by simp⟩
  . obtain ⟨ps, hps, hfs⟩ := hitems
    exact ⟨_, meaning?_and hps, hfs⟩

theorem stated_implies {f g : Formula} (hf : Stated scope f) (hg : Stated scope g) : Stated scope (.implies f g) := by
  obtain ⟨p, hp, hf⟩ := hf
  obtain ⟨q, hq, hg⟩ := hg
  unfold Stated
  rw [Script.formula]
  refine ⟨_, meaning?_implies hp hq, ?_⟩
  intro a σ hσ
  rw [Formula.IsTrue, hf a σ hσ, hg a σ hσ]

theorem Represents.mono {scope' : List String} {a : Assignment} {σ : String → Int} (h : Represents scope a σ)
    (hsub : ∀ x ∈ scope', x ∈ scope) : Represents scope' a σ :=
  fun x hx => h x (hsub x hx)

theorem Represents.cons {a : Assignment} {σ : String → Int} (h : Represents scope a σ) (x : String) (l : Level)
    : Represents (x :: scope) ((x, .level l) :: a) (Function.update σ x l.rank) := by
  intro y hy
  by_cases hyx : y = x
  . subst hyx
    exact ⟨l, List.lookup_cons_self, Function.update_self ..⟩
  . obtain ⟨l', hlookup, hl'⟩ := h y ((List.mem_cons.mp hy).resolve_left hyx)
    refine ⟨l', ?_, ?_⟩
    . rw [List.lookup_cons, beq_eq_false_iff_ne.mpr hyx]
      exact hlookup
    . rw [Function.update_of_ne hyx, hl']

theorem forAll_inRange_iff {vars : List Bound} (hvars : ∀ b ∈ vars, b.2 = .level) {p : Condition}
    {P : Assignment → Prop} (hP : ∀ a σ, Represents (vars.map (·.1) ++ scope) a σ → (p σ ↔ P a)) {a : Assignment}
    {σ : String → Int} (hσ : Represents scope a σ)
    : (∀ τ, (∀ y, y ∉ vars.map (·.1) → τ y = σ y) → (∀ b ∈ vars, InRange b.1 τ) → p τ) ↔
        Interpretation.standard.ForAll P vars a := by
  induction vars generalizing scope a σ with
  | nil =>
    simp only [Interpretation.ForAll]
    constructor
    . intro h
      exact (hP a σ hσ).mp (h σ (fun _ _ => rfl) (List.forall_mem_nil _))
    . intro h τ hτ _
      obtain rfl : τ = σ := funext fun y => hτ y List.not_mem_nil
      exact (hP a τ hσ).mpr h
  | cons b vars ih =>
    obtain ⟨x, kind⟩ := b
    rw [List.forall_mem_cons] at hvars
    obtain ⟨rfl, hvars⟩ := hvars
    have hlevel : ∀ l, _ := fun l => ih hvars (fun a σ h => hP a σ (h.mono (by simp; tauto))) (hσ.cons x l)
    simp only [Interpretation.ForAll]
    constructor
    . intro h v hv
      cases v with
      | level l =>
        apply (hlevel l).mp
        intro τ hτ hrange
        apply h τ
        . intro y hy
          rw [List.map_cons, List.mem_cons, not_or] at hy
          rw [hτ y hy.2, Function.update_of_ne hy.1]
        . rw [List.forall_mem_cons]
          refine ⟨?_, hrange⟩
          by_cases hx : x ∈ vars.map (·.1)
          . obtain ⟨b, hb, rfl⟩ := List.mem_map.mp hx
            exact hrange b hb
          . have hle := l.rank_le_two
            unfold InRange
            rw [hτ x hx, Function.update_self]
            omega
      | nat n => cases hv
      | float y => cases hv
    . intro h τ hτ hrange
      rw [List.forall_mem_cons] at hrange
      obtain ⟨l, hl⟩ := Level.exists_rank hrange.1.1 hrange.1.2
      apply (hlevel l).mpr (h (.level l) rfl) τ _ hrange.2
      intro y hy
      by_cases hyx : y = x
      . rw [hyx, Function.update_self, hl]
      . rw [Function.update_of_ne hyx, hτ y (by simp [hyx, hy])]

theorem forSome_inRange_iff {vars : List Bound} (hvars : ∀ b ∈ vars, b.2 = .level) {p : Condition}
    {P : Assignment → Prop} (hP : ∀ a σ, Represents (vars.map (·.1) ++ scope) a σ → (p σ ↔ P a)) {a : Assignment}
    {σ : String → Int} (hσ : Represents scope a σ)
    : (∃ τ, (∀ y, y ∉ vars.map (·.1) → τ y = σ y) ∧ (∀ b ∈ vars, InRange b.1 τ) ∧ p τ) ↔
        Interpretation.standard.ForSome P vars a := by
  rw [← not_iff_not, Interpretation.not_forSome_iff,
    ← forAll_inRange_iff hvars (fun a σ h => not_congr (hP a σ h)) hσ]
  simp only [not_exists, not_and]

theorem meaning?_ranges {vars : List Bound} (hvars : ∀ b ∈ vars, b.2 = .level) (hscope : ∀ b ∈ vars, b.1 ∈ scope)
    : meaning? scope (Script.ranges vars) = some (.truth fun σ => ∀ b ∈ vars, InRange b.1 σ) := by
  have hranges : meanings? scope (vars.map fun b => Script.range b.1 b.2) =
      some ((vars.map fun b => InRange b.1).map .truth) := by
    induction vars with
    | nil => exact meanings?_nil
    | cons b vars ih =>
      rw [List.forall_mem_cons] at hvars hscope
      apply meanings?_cons _ (ih hvars.2 hscope.2)
      dsimp only
      rw [hvars.1]
      exact meaning?_range hscope.1
  have h := meaning?_and hranges
  simp only [List.forall_mem_map] at h
  exact h

section

variable {vars : List Bound} {body : Formula} (hne : vars ≠ []) (hvars : ∀ b ∈ vars, b.2 = .level)
variable (hnames : ∀ b ∈ vars, b.1 ∉ theorySymbols) (hbody : Stated (vars.map (·.1) ++ scope) body)

include hne hvars hnames hbody

theorem stated_forAll : Stated scope (.forAll vars body) := by
  obtain ⟨p, hp, hbody⟩ := hbody
  have hbinders := binders?_binders hne (fun b hb => by simp [hvars b hb]) hnames
  have hranges := meaning?_ranges hvars fun b hb => List.mem_append_left scope (List.mem_map_of_mem hb)
  unfold Stated
  rw [Script.formula]
  refine ⟨_, meaning?_forAll hbinders (meaning?_implies hranges hp), ?_⟩
  intro a σ hσ
  rw [Formula.IsTrue, ← forAll_inRange_iff hvars hbody hσ, Condition.forAll_iff]

theorem stated_forSome : Stated scope (.forSome vars body) := by
  obtain ⟨p, hp, hbody⟩ := hbody
  have hbinders := binders?_binders hne (fun b hb => by simp [hvars b hb]) hnames
  have hranges := meaning?_ranges hvars fun b hb => List.mem_append_left scope (List.mem_map_of_mem hb)
  unfold Stated
  rw [Script.formula]
  refine ⟨_, meaning?_forSome hbinders (meaning?_both hranges hp), ?_⟩
  intro a σ hσ
  rw [Formula.IsTrue, ← forSome_inRange_iff hvars hbody hσ, Condition.forSome_iff]

end

end SmtLib

theorem Formula.areOfLevels_iff {fs : List Formula} : areOfLevels fs = true ↔ ∀ f ∈ fs, f.isOfLevels = true := by
  induction fs with
  | nil => simp [areOfLevels]
  | cons f fs ih => simp [areOfLevels, ih]

theorem Formula.bindAlways_iff {fs : List Formula} : bindAlways fs = true ↔ ∀ f ∈ fs, f.bindsAlways = true := by
  induction fs with
  | nil => simp [bindAlways]
  | cons f fs ih => simp [bindAlways, ih]

theorem Formula.mem_namesAll {fs : List Formula} {x : String} : x ∈ namesAll fs ↔ ∃ f ∈ fs, x ∈ f.names := by
  induction fs with
  | nil => simp [namesAll]
  | cons f fs ih => simp [namesAll, ih]

namespace SmtLib

theorem stated_quantified {vars : List Bound} {body : Formula} (hlevels : (Formula.forAll vars body).isOfLevels = true)
    (hbinds : (Formula.forAll vars body).bindsAlways = true)
    (hnames : ∀ x ∈ (Formula.forAll vars body).names, x ∉ theorySymbols) (hscope : ∀ x ∈ scope, x ∉ theorySymbols)
    (hfree : ∀ x, (Formula.forAll vars body).Free x → x ∈ scope)
    (hbody : body.isOfLevels = true → body.bindsAlways = true → (∀ x ∈ body.names, x ∉ theorySymbols) →
      (∀ x ∈ vars.map (·.1) ++ scope, x ∉ theorySymbols) → (∀ x, body.Free x → x ∈ vars.map (·.1) ++ scope) →
      Stated (vars.map (·.1) ++ scope) body)
    : Stated scope (.forAll vars body) ∧ Stated scope (.forSome vars body) := by
  simp only [Formula.isOfLevels, Formula.bindsAlways, Formula.names, Bool.and_eq_true, List.all_eq_true,
    decide_eq_true_eq, List.forall_mem_append, List.forall_mem_map, Bool.not_eq_true', List.isEmpty_eq_false_iff]
    at hlevels hbinds hnames
  have hstated : Stated (vars.map (·.1) ++ scope) body := by
    apply hbody hlevels.2 hbinds.2 hnames.2
    . rw [List.forall_mem_append, List.forall_mem_map]
      exact ⟨hnames.1, hscope⟩
    . intro x hx
      by_cases hbound : x ∈ vars.map (·.1)
      . exact List.mem_append_left _ hbound
      . exact List.mem_append_right _ (hfree x ⟨hbound, hx⟩)
  exact ⟨stated_forAll hbinds.1 hlevels.1 hnames.1 hstated, stated_forSome hbinds.1 hlevels.1 hnames.1 hstated⟩

theorem stated_of_levels {f : Formula} (hlevels : f.isOfLevels = true) (hbinds : f.bindsAlways = true)
    (hnames : ∀ x ∈ f.names, x ∉ theorySymbols) (hscope : ∀ x ∈ scope, x ∉ theorySymbols)
    (hfree : ∀ x, f.Free x → x ∈ scope) : Stated scope f := by
  induction f using Formula.induction generalizing scope with
  | atom c =>
    apply stated_atom hlevels
    intro x hx
    apply hfree
    unfold Formula.names at hx
    simpa [Formula.Free, Constraint.mentions, Constraint.vars, List.mem_eraseDups] using hx
  | and items ih =>
    unfold Formula.isOfLevels at hlevels
    unfold Formula.bindsAlways at hbinds
    unfold Formula.names at hnames
    unfold Formula.Free at hfree
    apply stated_and
    . intro h
      exact hscope _ h (by decide)
    . intro f hf
      apply ih f hf (Formula.areOfLevels_iff.mp hlevels f hf) (Formula.bindAlways_iff.mp hbinds f hf) _ hscope
      . exact fun x hx => hfree x (Formula.freeInSome_iff.mpr ⟨f, hf, hx⟩)
      . exact fun x hx => hnames x (Formula.mem_namesAll.mpr ⟨f, hf, hx⟩)
  | implies p q ihp ihq =>
    simp only [Formula.isOfLevels, Formula.bindsAlways, Formula.names, Bool.and_eq_true, List.forall_mem_append]
      at hlevels hbinds hnames
    unfold Formula.Free at hfree
    apply stated_implies
    . exact ihp hlevels.1 hbinds.1 hnames.1 hscope fun x hx => hfree x (.inl hx)
    . exact ihq hlevels.2 hbinds.2 hnames.2 hscope fun x hx => hfree x (.inr hx)
  | forAll vars body ih => exact (stated_quantified hlevels hbinds hnames hscope hfree ih).1
  | forSome vars body ih => exact (stated_quantified hlevels hbinds hnames hscope hfree ih).2

theorem run?_declarations {vars : List Bound} {s : Session} (hvars : ∀ b ∈ vars, b.2 = .level)
    (hnames : ∀ b ∈ vars, b.1 ∉ theorySymbols) (hdistinct : (vars.map (·.1)).Nodup) (hfresh : ∀ b ∈ vars, b.1 ∉ s.scope)
    : s.run? (vars.flatMap fun b => [SExpr.app "declare-const" [Script.symbol b.1, Script.sort b.2],
          SExpr.app "assert" [Script.range b.1 b.2]]) =
        some ⟨(vars.map (·.1)).reverse ++ s.scope, (vars.map fun b => InRange b.1).reverse ++ s.asserted, s.asked⟩ := by
  induction vars generalizing s with
  | nil => rfl
  | cons b vars ih =>
    obtain ⟨x, kind⟩ := b
    rw [List.forall_mem_cons] at hvars hnames hfresh
    rw [List.map_cons, List.nodup_cons] at hdistinct
    obtain ⟨rfl, hvars⟩ := hvars
    apply Session.run?_cons (Session.execute?_declare hnames.1 hfresh.1)
    apply Session.run?_cons (Session.execute?_assert (meaning?_range List.mem_cons_self))
    rw [List.map_cons, List.map_cons, List.reverse_cons, List.reverse_cons, List.append_assoc, List.append_assoc]
    apply ih hvars hnames.2 hdistinct.2
    intro b hb hmem
    rcases List.mem_cons.mp hmem with heq | hmem
    . exact hdistinct.1 (List.mem_map.mpr ⟨b, hb, heq⟩)
    . exact hfresh.2 b hb hmem

theorem run?_getValue {s : Session} {vars : List Bound} (hscope : ∀ b ∈ vars, b.1 ∈ s.scope)
    : s.run? (if vars.isEmpty then [] else [SExpr.app "get-value" [.list (vars.map fun b => Script.symbol b.1)]]) =
        some s := by
  split
  . exact Session.run?_nil
  . next hne =>
    have hsymbols : ∃ ms, meanings? s.scope (vars.map fun b => Script.symbol b.1) = some ms := by
      clear hne
      induction vars with
      | nil => exact ⟨[], meanings?_nil⟩
      | cons b vars ih =>
        rw [List.forall_mem_cons] at hscope
        obtain ⟨ms, hms⟩ := ih hscope.2
        exact ⟨_, meanings?_cons (meaning?_symbol hscope.1) hms⟩
    obtain ⟨ms, hms⟩ := hsymbols
    apply Session.run?_cons (Session.execute?_getValue _ hms) Session.run?_nil
    simpa using hne

theorem questions?_script {q : Query} (hq : q.IsWritable) (hvars : ∀ b ∈ q.universals, b.2 = .level) {p : Condition}
    (hp : meaning? (q.universals.map (·.1)).reverse (Script.formula q.body) = some (.truth p))
    : questions? q.script = some [(fun σ => ¬ p σ) :: (q.universals.map fun b => InRange b.1).reverse] := by
  have hnames : ∀ b ∈ q.universals, b.1 ∉ theorySymbols :=
    fun b hb => (hq.names b.1 (List.mem_append_left _ (List.mem_map_of_mem hb))).2
  have hdeclared := run?_declarations (s := .start) hvars hnames hq.distinct fun _ _ => List.not_mem_nil
  simp only [Session.start, List.append_nil] at hdeclared
  have hrun : Session.start.run? (Script.commands q) = some ⟨(q.universals.map (·.1)).reverse,
      (fun σ => ¬ p σ) :: (q.universals.map fun b => InRange b.1).reverse,
      [(fun σ => ¬ p σ) :: (q.universals.map fun b => InRange b.1).reverse]⟩ := by
    apply Session.run?_append
    . apply Session.run?_append hdeclared
      apply Session.run?_cons (Session.execute?_assert (meaning?_not hp))
      exact Session.run?_cons Session.execute?_checkSat Session.run?_nil
    . apply run?_getValue
      intro b hb
      simpa using ⟨_, hb⟩
  unfold questions?
  rw [read_script fun x hx => (hq.names x hx).1]
  change (Session.start.run? (Script.commands q)).bind _ = _
  rw [hrun]
  rfl

theorem not_satisfiable_iff {vars : List Bound} (hvars : ∀ b ∈ vars, b.2 = .level) {p : Condition}
    {P : Assignment → Prop} (hP : ∀ a σ, Represents (vars.map (·.1)) a σ → (p σ ↔ P a))
    : ¬ Satisfiable ((fun σ => ¬ p σ) :: (vars.map fun b => InRange b.1).reverse) ↔
        Interpretation.standard.ForAll P vars [] := by
  have hP : ∀ a σ, Represents (vars.map (·.1) ++ []) a σ → (p σ ↔ P a) := by simpa using hP
  have hlevels : ∀ σ : String → Int,
      (∀ τ, (∀ y, y ∉ vars.map (·.1) → τ y = σ y) → (∀ b ∈ vars, InRange b.1 τ) → p τ) ↔
        Interpretation.standard.ForAll P vars [] :=
    fun σ => forAll_inRange_iff hvars hP (List.forall_mem_nil _)
  simp only [Satisfiable, List.forall_mem_cons, List.mem_reverse, List.forall_mem_map, not_exists, not_and]
  constructor
  . intro h
    apply (hlevels fun _ => 0).mp
    intro τ _ hrange
    by_contra hp
    exact h τ hp hrange
  . intro h σ hp hrange
    exact hp ((hlevels σ).mpr h σ (fun _ _ => rfl) hrange)

end SmtLib

open SmtLib

/--
The script of a query about levels asks one question, and no integers satisfy what is asserted in it exactly if the
query is true of the levels.
-/
theorem script_unsatisfiable_iff_true {q : Query} (hlevels : q.isOfLevels = true) (hclosed : q.formula.Closed)
    (hq : q.IsWritable)
    : ∃ asserted, questions? q.script = some [asserted] ∧
        (¬ Satisfiable asserted ↔ q.formula.IsTrue .standard []) := by
  unfold Query.isOfLevels at hlevels
  rw [Bool.and_eq_true, List.all_eq_true] at hlevels
  have hvars : ∀ b ∈ q.universals, b.2 = .level := by simpa using hlevels.1
  obtain ⟨p, hp, hbody⟩ : Stated (q.universals.map (·.1)).reverse q.body := by
    apply stated_of_levels hlevels.2 hq.binds
    . exact fun x hx => (hq.names x (List.mem_append_right _ hx)).2
    . exact fun x hx => (hq.names x (List.mem_append_left _ (List.mem_reverse.mp hx))).2
    . intro x hx
      by_contra hbound
      exact hclosed x (Formula.free_mkForAll.mpr ⟨by simpa using hbound, hx⟩)
  refine ⟨_, questions?_script hq hvars hp, ?_⟩
  rw [Query.formula, Formula.isTrue_mkForAll]
  exact not_satisfiable_iff hvars fun a σ h => hbody a σ (h.mono (by simp))

/--
For all levels there is one that is at least as secret and whose product with it is unused only if it is itself.
-/
def alternatingQuery : Query :=
  ⟨[("x", .level)], .forSome [("y", .level)] (.and [
    .atom ⟨0, .le, .var "x", .var "y", .level⟩,
    .implies (.atom ⟨0, .eq, .op .times (.var "x") (.var "y"), .zero .level, .level⟩)
      (.atom ⟨0, .eq, .var "x", .level .unused, .level⟩)])⟩

theorem script_unsatisfiable_iff_true_alternating
    : alternatingQuery.isOfLevels = true ∧ alternatingQuery.formula.Closed ∧ alternatingQuery.IsWritable ∧
        ∃ asserted, questions? alternatingQuery.script = some [asserted] ∧
          (¬ Satisfiable asserted ↔ alternatingQuery.formula.IsTrue .standard []) := by
  have hlevels : alternatingQuery.isOfLevels = true := by decide
  have hclosed : alternatingQuery.formula.Closed := by
    intro x hx
    simp [alternatingQuery, Query.formula, Formula.mkForAll, Formula.Free, Formula.FreeInSome, Constraint.mentions,
      Constraint.vars, Grade.occurrences] at hx
    tauto
  have hwritable : alternatingQuery.IsWritable := ⟨by decide, by decide, by decide⟩
  exact ⟨hlevels, hclosed, hwritable, script_unsatisfiable_iff_true hlevels hclosed hwritable⟩

/--
A bar in a name ends the symbol, and what follows is not a script.
-/
theorem script_unreadable_bar
    : ∃ q : Query, q = ⟨[("a|b", .level)], .atom ⟨0, .le, .level .unused, .var "a|b", .level⟩⟩ ∧
        q.isOfLevels = true ∧ q.formula.Closed ∧ q.formula.IsTrue .standard [] ∧ questions? q.script = none := by
  refine ⟨_, rfl, by decide, ?_, ?_, ?_⟩
  . intro x hx
    simp [Query.formula, Formula.mkForAll, Formula.Free, Constraint.mentions, Constraint.vars, Grade.occurrences] at hx
  . intro v hv
    cases v with
    | level l => cases l <;> rfl
    | nat n => cases hv
    | float y => cases hv
  . have hlexemes : lexemes .between (Query.script ⟨[("a|b", .level)],
        .atom ⟨0, .le, .level .unused, .var "a|b", .level⟩⟩).toList = none := by
      decide +kernel
    unfold questions? SmtLib.read
    rw [hlexemes]
    rfl

end GradedModal
