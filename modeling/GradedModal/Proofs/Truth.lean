import GradedModal.Logic.Formula
import GradedModal.Logic.Value

/-!
This module says what formulas mean. A constraint is true or false under values of variables, and a quantifier
ranges over all values of a kind.
-/

namespace GradedModal

theorem Formula.induction {motive : Formula → Prop} (atom : ∀ c, motive (.atom c))
    (and : ∀ items, (∀ f ∈ items, motive f) → motive (.and items))
    (implies : ∀ p q, motive p → motive q → motive (.implies p q))
    (forAll : ∀ vars body, motive body → motive (.forAll vars body))
    (forSome : ∀ vars body, motive body → motive (.forSome vars body)) (f : Formula) : motive f :=
  @Formula.rec motive (fun fs => ∀ f ∈ fs, motive f) atom and implies forAll forSome (List.forall_mem_nil _)
    (fun _ _ hf hfs => List.forall_mem_cons.mpr ⟨hf, hfs⟩) f

/--
What kinds and constraints stand for.
-/
structure Interpretation (α : Type) where
  /-- The values that a variable of a kind can have. -/
  values : GradeKind → α → Prop
  /-- Whether a constraint is true under values of variables, the latest binding first. -/
  holds : Constraint → List (String × α) → Prop

namespace Interpretation

variable {α : Type} (I : Interpretation α)

/--
A property of all values of some variables.
-/
def ForAll (P : List (String × α) → Prop) : List Bound → List (String × α) → Prop
  | [], a => P a
  | (x, kind) :: vars, a => ∀ v, I.values kind v → ForAll P vars ((x, v) :: a)

/--
A property of some values of some variables.
-/
def ForSome (P : List (String × α) → Prop) : List Bound → List (String × α) → Prop
  | [], a => P a
  | (x, kind) :: vars, a => ∃ v, I.values kind v ∧ ForSome P vars ((x, v) :: a)

variable {I} {P Q : List (String × α) → Prop} {vars : List Bound} {a : List (String × α)}

theorem ForAll.of_forall (h : ∀ a, P a) : I.ForAll P vars a := by
  induction vars generalizing a with
  | nil => exact h a
  | cons b vars ih => exact fun _ _ => ih

theorem ForAll.imp (hPQ : ∀ a, P a → Q a) (h : I.ForAll P vars a) : I.ForAll Q vars a := by
  induction vars generalizing a with
  | nil => exact hPQ a h
  | cons b vars ih => exact fun v hv => ih (h v hv)

theorem ForSome.exists_choice (h : I.ForSome P vars a)
    : ∃ b, P b ∧ (∀ x, x ∉ vars.map (·.1) → b.lookup x = a.lookup x) ∧
        ∀ x ∈ vars.map (·.1), ∃ kind v, (x, kind) ∈ vars ∧ b.lookup x = some v ∧ I.values kind v := by
  induction vars generalizing a with
  | nil => exact ⟨a, h, fun _ _ => rfl, fun _ hx => nomatch hx⟩
  | cons bound vars ih =>
    obtain ⟨x, kind⟩ := bound
    obtain ⟨v, hv, h⟩ := h
    obtain ⟨b, hb, hkept, hchosen⟩ := ih h
    refine ⟨b, hb, ?_, ?_⟩
    . intro y hy
      rw [List.map_cons, List.mem_cons, not_or] at hy
      rw [hkept y hy.2, List.lookup_cons, beq_eq_false_iff_ne.mpr hy.1]
    . intro y hy
      by_cases hvars : y ∈ vars.map (·.1)
      . obtain ⟨kind', w, hmem, hw⟩ := hchosen y hvars
        exact ⟨kind', w, List.mem_cons_of_mem _ hmem, hw⟩
      . obtain rfl : y = x := by simpa [hvars] using hy
        exact ⟨kind, v, List.mem_cons_self, by rw [hkept y hvars, List.lookup_cons_self], hv⟩

theorem ForSome.of_forall (hvalues : ∀ b ∈ vars, ∃ v, I.values b.2 v) (h : ∀ a, P a) : I.ForSome P vars a := by
  induction vars generalizing a with
  | nil => exact h a
  | cons b vars ih =>
    obtain ⟨v, hv⟩ := hvalues b List.mem_cons_self
    exact ⟨v, hv, ih (fun b hb => hvalues b (List.mem_cons_of_mem _ hb))⟩

def assign (f : String → α) : List Bound → List (String × α) → List (String × α)
  | [], a => a
  | (x, _) :: vars, a => assign f vars ((x, f x) :: a)

theorem ForSome.of_assign {f : String → α} (hvalues : ∀ b ∈ vars, I.values b.2 (f b.1)) (h : P (assign f vars a))
    : I.ForSome P vars a := by
  induction vars generalizing a with
  | nil => exact h
  | cons b vars ih =>
    exact ⟨f b.1, hvalues b List.mem_cons_self, ih (fun b hb => hvalues b (List.mem_cons_of_mem _ hb)) h⟩

theorem lookup_assign {f : String → α} {x : String}
    : (assign f vars a).lookup x = if x ∈ vars.map (·.1) then some (f x) else a.lookup x := by
  induction vars generalizing a with
  | nil => simp [assign]
  | cons b vars ih =>
    obtain ⟨y, kind⟩ := b
    simp only [assign, ih, List.map_cons, List.mem_cons]
    by_cases hvars : x ∈ vars.map (·.1)
    . simp [hvars]
    . by_cases hx : x = y
      . subst hx
        simp [hvars]
      . simp [hvars, hx, beq_eq_false_iff_ne.mpr hx, List.lookup_cons]

end Interpretation

namespace Formula

variable {α : Type}

mutual

/--
Whether a formula is true under values of its free variables.
-/
def IsTrue (I : Interpretation α) : Formula → List (String × α) → Prop
  | .atom c, a => I.holds c a
  | .and items, a => AllTrue I items a
  | .implies p q, a => p.IsTrue I a → q.IsTrue I a
  | .forAll vars body, a => I.ForAll (fun a => body.IsTrue I a) vars a
  | .forSome vars body, a => I.ForSome (fun a => body.IsTrue I a) vars a

def AllTrue (I : Interpretation α) : List Formula → List (String × α) → Prop
  | [], _ => True
  | f :: fs, a => f.IsTrue I a ∧ AllTrue I fs a

end

variable {I : Interpretation α} {vars : List Bound} {body : Formula} {a : List (String × α)}

theorem allTrue_iff {fs : List Formula} : AllTrue I fs a ↔ ∀ f ∈ fs, f.IsTrue I a := by
  induction fs with
  | nil => simp [AllTrue]
  | cons f fs ih => simp [AllTrue, ih]

theorem isTrue_mkForAll
    : (mkForAll vars body).IsTrue I a ↔ I.ForAll (fun a => body.IsTrue I a) vars a := by
  unfold mkForAll
  cases vars with
  | nil => exact Iff.rfl
  | cons b vars => simp [IsTrue]

theorem isTrue_mkForSome
    : (mkForSome vars body).IsTrue I a ↔ I.ForSome (fun a => body.IsTrue I a) vars a := by
  unfold mkForSome
  cases vars with
  | nil => exact Iff.rfl
  | cons b vars => simp [IsTrue]

end Formula

def SameValues {α : Type} (a b : List (String × α)) : Prop :=
  ∀ x, a.lookup x = b.lookup x

theorem SameValues.cons {α : Type} {a b : List (String × α)} (h : SameValues a b) (x : String) (v : α)
    : SameValues ((x, v) :: a) ((x, v) :: b) := by
  intro y
  simp only [List.lookup_cons]
  split
  . rfl
  . exact h y

def Interpretation.Extensional {α : Type} (I : Interpretation α) : Prop :=
  ∀ c a b, SameValues a b → (I.holds c a ↔ I.holds c b)

namespace Interpretation

variable {α : Type} {I : Interpretation α} {P : List (String × α) → Prop} {vars : List Bound}
variable {a b : List (String × α)}

theorem forAll_congr (hP : ∀ a b, SameValues a b → (P a ↔ P b)) (h : SameValues a b)
    : I.ForAll P vars a ↔ I.ForAll P vars b := by
  induction vars generalizing a b with
  | nil => exact hP a b h
  | cons bound vars ih => exact forall_congr' fun v => imp_congr_right fun _ => ih (h.cons _ _)

theorem forSome_congr (hP : ∀ a b, SameValues a b → (P a ↔ P b)) (h : SameValues a b)
    : I.ForSome P vars a ↔ I.ForSome P vars b := by
  induction vars generalizing a b with
  | nil => exact hP a b h
  | cons bound vars ih => exact exists_congr fun v => and_congr_right fun _ => ih (h.cons _ _)

end Interpretation

namespace Formula

variable {α : Type} {I : Interpretation α}

theorem isTrue_congr (hI : I.Extensional) (f : Formula) {a b : List (String × α)} (h : SameValues a b)
    : f.IsTrue I a ↔ f.IsTrue I b := by
  induction f using Formula.induction generalizing a b with
  | atom c =>
    unfold IsTrue
    exact hI c a b h
  | and items ih =>
    unfold IsTrue
    rw [allTrue_iff, allTrue_iff]
    exact forall₂_congr fun f hf => ih f hf h
  | implies p q ihp ihq =>
    unfold IsTrue
    exact imp_congr (ihp h) (ihq h)
  | forAll vars body ih =>
    unfold IsTrue
    exact Interpretation.forAll_congr (fun a b h => ih h) h
  | forSome vars body ih =>
    unfold IsTrue
    exact Interpretation.forSome_congr (fun a b h => ih h) h

end Formula

/--
The values of a kind: words, levels and doubles. A kind that was never determined is that of naturals.
-/
def GradeKind.contains : GradeKind → Value → Bool
  | .level, .level _ => true
  | .float, .float _ => true
  | .nat, .nat n => n ≤ maxWord
  | .var _, .nat n => n ≤ maxWord
  | _, _ => false

/--
Variables range over all values of their kinds, and constraints are decided by evaluation.
-/
def Interpretation.standard : Interpretation Value where
  values kind v := kind.contains v = true
  holds c a := c.holds a = .ok true

theorem Grade.evaluate_op_eq_ok {kind : GradeKind} {a : Assignment} {o : Op} {g g' : Grade} {u : Value}
    : (Grade.op o g g').evaluate kind a = .ok u ↔
        ∃ v w, g.evaluate kind a = .ok v ∧ g'.evaluate kind a = .ok w ∧ o.apply kind v w = .ok u := by
  constructor
  . intro h
    unfold evaluate at h
    cases hv : g.evaluate kind a with
    | error e =>
      rw [hv] at h
      cases h
    | ok v =>
      cases hw : g'.evaluate kind a with
      | error e =>
        rw [hv, hw] at h
        cases h
      | ok w =>
        rw [hv, hw] at h
        exact ⟨v, w, rfl, rfl, h⟩
  . rintro ⟨v, w, hv, hw, h⟩
    unfold evaluate
    rw [hv, hw]
    exact h

theorem Grade.evaluate_eq_of_occurrences {a b : Assignment} (kind : GradeKind) (g : Grade)
    (h : ∀ x ∈ g.occurrences, a.lookup x = b.lookup x) : g.evaluate kind a = g.evaluate kind b := by
  induction g with
  | var x =>
    unfold evaluate
    rw [h x List.mem_cons_self]
  | op o g g' ihg ihg' =>
    unfold occurrences at h
    unfold evaluate
    rw [ihg fun x hx => h x (List.mem_append_left _ hx), ihg' fun x hx => h x (List.mem_append_right _ hx)]
  | _ => rfl

theorem Constraint.holds_eq_of_vars {c : Constraint} {a b : Assignment} (h : ∀ x ∈ c.vars, a.lookup x = b.lookup x)
    : c.holds a = c.holds b := by
  have hmem : ∀ x, x ∈ c.left.occurrences ∨ x ∈ c.right.occurrences → x ∈ c.vars := by
    intro x hx
    unfold vars
    rwa [List.mem_eraseDups, List.mem_append]
  unfold holds
  rw [Grade.evaluate_eq_of_occurrences c.kind c.left fun x hx => h x (hmem x (.inl hx)),
    Grade.evaluate_eq_of_occurrences c.kind c.right fun x hx => h x (hmem x (.inr hx))]

theorem Constraint.holds_congr {a b : Assignment} (h : SameValues a b) (c : Constraint) : c.holds a = c.holds b :=
  holds_eq_of_vars fun x _ => h x

theorem Interpretation.standard_extensional : Interpretation.standard.Extensional := by
  intro c a b h
  change c.holds a = .ok true ↔ c.holds b = .ok true
  rw [Constraint.holds_congr h]

theorem GradeKind.exists_contains (kind : GradeKind) : ∃ v, kind.contains v = true := by
  cases kind with
  | nat | var name => exact ⟨.nat 0, rfl⟩
  | float => exact ⟨.float 0, rfl⟩
  | level => exact ⟨.level .unused, rfl⟩

end GradedModal
