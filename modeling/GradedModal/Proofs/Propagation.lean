import GradedModal.Proofs.Refutation

/-!
This module says that solving equations loses no solution and invents none. Some values of the variables that remain
make the formula true if and only if some values of all variables did: every value that an equation gives is the only
one that the formula admits, and it is one that the variable can have.
-/

namespace GradedModal

namespace Interpretation

theorem standard_eq_over : standard = Interpretation.over (· ≤ maxWord) := by
  unfold standard Interpretation.over
  congr
  funext kind v
  cases kind <;> cases v <;> simp [GradeKind.contains]

theorem over_nonempty {S : Nat → Prop} (hS : S 0) (kind : GradeKind) : ∃ v, (Interpretation.over S).values kind v := by
  cases kind with
  | nat | var name => exact ⟨.nat 0, hS⟩
  | float => exact ⟨.float 0, trivial⟩
  | level => exact ⟨.level .unused, trivial⟩

variable {α : Type} {I : Interpretation α} {P : List (String × α) → Prop} {vars : List Bound}
variable {a b : List (String × α)} {x : String}

theorem forSome_congr_of_kept (hP : ∀ a b, SameValues a b → (P a ↔ P b))
    (h : ∀ x, x ∉ vars.map (·.1) → a.lookup x = b.lookup x) : I.ForSome P vars a ↔ I.ForSome P vars b := by
  induction vars generalizing a b with
  | nil => exact hP a b fun x => h x (List.not_mem_nil)
  | cons bound vars ih =>
    refine exists_congr fun v => and_congr_right fun _ => ih fun x hx => ?_
    rw [List.lookup_cons, List.lookup_cons]
    split
    . rfl
    . next hne => exact h x (by simpa [hx] using hne)

/--
A variable can be chosen before the others. If several have the same name, this is the first of them.
-/
theorem forSome_eraseP (hP : ∀ a b, SameValues a b → (P a ↔ P b)) (hx : x ∈ vars.map (·.1))
    : ∃ kind, (x, kind) ∈ vars ∧ ∀ a, I.ForSome P vars a ↔
        ∃ v, I.values kind v ∧ I.ForSome P (vars.eraseP (·.1 = x)) ((x, v) :: a) := by
  induction vars with
  | nil => cases hx
  | cons bound vars ih =>
    obtain ⟨y, kind⟩ := bound
    by_cases hyx : y = x
    . subst hyx
      refine ⟨kind, List.mem_cons_self, fun a => ?_⟩
      rw [List.eraseP_cons_of_pos (by simp)]
      exact Iff.rfl
    . obtain ⟨kind', hmem, hvars⟩ := ih (by simpa [Ne.symm hyx] using hx)
      refine ⟨kind', List.mem_cons_of_mem _ hmem, fun a => ?_⟩
      rw [List.eraseP_cons_of_neg (by simpa using hyx)]
      -- The two variables have different names, so that their order does not matter.
      have hswap : ∀ u v, SameValues ((x, u) :: (y, v) :: a) ((y, v) :: (x, u) :: a) := by
        intro u v z
        by_cases hz : z = x
        . simp [hz, List.lookup_cons, beq_eq_false_iff_ne.mpr (Ne.symm hyx)]
        . simp [List.lookup_cons, beq_eq_false_iff_ne.mpr hz]
      simp only [ForSome, hvars]
      constructor
      . rintro ⟨v, hv, u, hu, h⟩
        exact ⟨u, hu, v, hv, (forSome_congr hP (hswap u v)).mp h⟩
      . rintro ⟨u, hu, v, hv, h⟩
        exact ⟨v, hv, u, hu, (forSome_congr hP (hswap u v)).mpr h⟩

end Interpretation

def Value.IsIn (S : Nat → Prop) : Value → Prop
  | .nat n => S n
  | _ => True

def Assignment.AreIn (S : Nat → Prop) (a : Assignment) : Prop :=
  ∀ x v, a.lookup x = some v → v.IsIn S

def Constraint.StaysIn (S : Nat → Prop) (c : Constraint) : Prop :=
  ∀ (a : Assignment) (v : Value), a.AreIn S →
    c.left.evaluate c.kind a = .ok v ∨ c.right.evaluate c.kind a = .ok v → v.IsIn S

theorem Value.isIn_words_iff {v : Value} : v.IsIn (· ≤ maxWord) ↔ v.isWord = true := by
  cases v <;> simp [IsIn, isWord]

theorem Constraint.staysIn_univ (c : Constraint) : c.StaysIn fun _ => True := by
  intro a v _ _
  cases v <;> trivial

theorem Constraint.staysIn_words {c : Constraint} (hleft : c.left.isWord = true) (hright : c.right.isWord = true)
    : c.StaysIn (· ≤ maxWord) := by
  intro a v ha hv
  have ha : a.AreWords := fun x w hw => Value.isIn_words_iff.mp (ha x w hw)
  rw [Value.isIn_words_iff]
  obtain hv | hv := hv
  . exact Grade.evaluate_isWord ha hleft hv
  . exact Grade.evaluate_isWord ha hright hv

theorem Constraint.values_of_holds {c : Constraint} {a : Assignment} {S : Nat → Prop} {v : Value}
    (hkind : c.kind = .nat ∨ c.kind = .level) (h : c.holds a = .ok true) (hv : c.left.evaluate c.kind a = .ok v)
    (hS : v.IsIn S) : (Interpretation.over S).values c.kind v := by
  unfold holds at h
  rw [hv] at h
  cases hright : c.right.evaluate c.kind a with
  | error e =>
    rw [hright] at h
    cases h
  | ok w =>
    rw [hright] at h
    obtain hc | hc := hkind
    . rw [hc] at h ⊢
      cases v with
      | nat n => exact hS
      | _ => cases h
    . rw [hc] at h ⊢
      cases v with
      | level l => trivial
      | _ => cases h

namespace Search

open Interpretation (forSome_congr_of_kept forSome_eraseP over_extensional over_nonempty)

variable {equations : List Constraint} {pending vars rest : List Bound} {a a' b : Assignment} {c : Constraint}
variable {x : String} {v : Value} {S : Nat → Prop} {P : Assignment → Prop} {body : Formula}

/--
The known values are the only ones with which a property can be true, whatever the pending variables are.
-/
def Forced (P : Assignment → Prop) (pending : List Bound) (a : Assignment) : Prop :=
  ∀ b, P b → (∀ x, x ∉ pending.map (·.1) → b.lookup x = a.lookup x) →
    ∀ x v, a.lookup x = some v → b.lookup x = some v

theorem forced_of_new (hnew : ∀ b ∈ vars, a.lookup b.1 = none) : Forced P vars a := by
  intro b _ hkept x v hv
  rw [hkept x, hv]
  intro hx
  obtain ⟨bound, hbound, rfl⟩ := List.mem_map.mp hx
  rw [hnew bound hbound] at hv
  cases hv

theorem kept_of_kept_eraseP {u : Value} (hx : x ∈ pending.map (·.1))
    (hkept : ∀ y, y ∉ (pending.eraseP (·.1 = x)).map (·.1) → b.lookup y = List.lookup y ((x, u) :: a))
    : ∀ y, y ∉ pending.map (·.1) → b.lookup y = a.lookup y := by
  intro y hy
  have hyx : y ≠ x := by
    rintro rfl
    exact hy hx
  rw [hkept y fun hmem => hy ((List.eraseP_sublist.map _).subset hmem), List.lookup_cons,
    beq_eq_false_iff_ne.mpr hyx]

structure Implies (P : Assignment → Prop) (equations : List Constraint) : Prop where
  congr : ∀ a b, SameValues a b → (P a ↔ P b)
  holds : ∀ a, P a → ∀ c ∈ equations, c.relation = .eq ∧ c.holds a = .ok true

theorem implies_isTrue : Implies (body.IsTrue (Interpretation.over S)) body.equations where
  congr _ _ h := Formula.isTrue_congr over_extensional body h
  holds _ ha c hc := ⟨Formula.relation_of_mem_equations body hc, Formula.holds_of_mem_equations body ha c hc⟩

section

variable (hP : Implies P equations) (hc : c ∈ equations) (hkind : c.kind = .nat ∨ c.kind = .level)
variable (hforced : Forced P pending a) (hsolve : solve? pending a c = some (x, v))

include hP hc hkind hforced hsolve

theorem lookup_of_solve? (hb : P b) (hkept : ∀ y, y ∉ pending.map (·.1) → b.lookup y = a.lookup y)
    : b.lookup x = some v ∧ c.left.evaluate c.kind b = .ok v := by
  obtain ⟨g, hequates, _, hv⟩ := exists_equates_of_solve? hsolve
  obtain ⟨hrelation, hholds⟩ := hP.holds b hb c hc
  have hfloat : c.kind ≠ .float := by
    obtain hkind | hkind := hkind <;> simp [hkind]
  obtain ⟨w, hleft, hright⟩ := Constraint.exists_of_holds_eq hfloat hrelation hholds
  have hv := Grade.evaluate_mono (hforced b hb hkept) hv
  have hvar : (Grade.var x).evaluate c.kind b = .ok w ∧ w = v := by
    obtain ⟨hl, rfl⟩ | ⟨hr, rfl⟩ := hequates
    . rw [hright] at hv
      exact ⟨hl ▸ hleft, Except.ok.inj hv⟩
    . rw [hleft] at hv
      exact ⟨hr ▸ hright, Except.ok.inj hv⟩
  obtain ⟨hvar, rfl⟩ := hvar
  refine ⟨?_, hleft⟩
  unfold Grade.evaluate at hvar
  split at hvar
  . next u hu => rw [hu, Except.ok.inj hvar]
  . cases hvar

theorem Forced.step : Forced P (pending.eraseP (·.1 = x)) ((x, v) :: a) := by
  obtain ⟨_, _, hx, _⟩ := exists_equates_of_solve? hsolve
  intro b hb hkept y w hw
  have hkept := kept_of_kept_eraseP hx hkept
  rw [List.lookup_cons] at hw
  split at hw
  . next heq =>
    cases hw
    rw [eq_of_beq heq]
    exact (lookup_of_solve? hP hc hkind hforced hsolve hb hkept).1
  . exact hforced b hb hkept y w hw

theorem forSome_step (hS : S 0) (hvars : ∀ bound ∈ pending, bound.1 = x → bound.2 = c.kind) (hv : v.IsIn S)
    : (Interpretation.over S).ForSome P (pending.eraseP (·.1 = x)) ((x, v) :: a) ↔
        (Interpretation.over S).ForSome P pending a := by
  obtain ⟨_, _, hx, _⟩ := exists_equates_of_solve? hsolve
  obtain ⟨kind, hmem, hfirst⟩ := forSome_eraseP (I := Interpretation.over S) hP.congr hx
  obtain rfl := hvars _ hmem rfl
  rw [hfirst]
  by_cases hagain : x ∈ (pending.eraseP (·.1 = x)).map (·.1)
  . -- Another variable of the same name is chosen later, and the value of this one does not matter.
    have hany : ∀ u, (Interpretation.over S).ForSome P (pending.eraseP (·.1 = x)) ((x, v) :: a) ↔
        (Interpretation.over S).ForSome P (pending.eraseP (·.1 = x)) ((x, u) :: a) := by
      intro u
      apply forSome_congr_of_kept hP.congr
      intro y hy
      have hyx : y ≠ x := by
        rintro rfl
        exact hy hagain
      simp [List.lookup_cons, beq_eq_false_iff_ne.mpr hyx]
    obtain ⟨u, hu⟩ := over_nonempty hS c.kind
    exact ⟨fun h => ⟨u, hu, (hany u).mp h⟩, fun ⟨u, _, h⟩ => (hany u).mpr h⟩
  . -- The choice of the others shows which value this one has.
    have hvalue : ∀ u, (Interpretation.over S).ForSome P (pending.eraseP (·.1 = x)) ((x, u) :: a) →
        u = v ∧ (Interpretation.over S).values c.kind v := by
      intro u h
      obtain ⟨b, hb, hkept, _⟩ := h.exists_choice
      obtain ⟨hlookup, hleft⟩ :=
        lookup_of_solve? hP hc hkind hforced hsolve hb (kept_of_kept_eraseP hx hkept)
      rw [hkept x hagain, List.lookup_cons_self] at hlookup
      exact ⟨Option.some.inj hlookup, Constraint.values_of_holds hkind (hP.holds b hb c hc).2 hleft hv⟩
    constructor
    . intro h
      exact ⟨v, (hvalue v h).2, h⟩
    . rintro ⟨u, _, h⟩
      rwa [(hvalue u h).1] at h

end

/--
Equations are between naturals or levels, and so are the pending variables that they mention.
-/
def IsDiscrete (equations : List Constraint) (pending : List Bound) : Prop :=
  ∀ c ∈ equations, (c.kind = .nat ∨ c.kind = .level) ∧ ∀ b ∈ pending, b.1 ∈ c.vars → b.2 = c.kind

theorem mem_vars_of_equates {g : Grade} (h : Equates c x g) : x ∈ c.vars := by
  unfold Constraint.vars
  rw [List.mem_eraseDups, List.mem_append]
  obtain ⟨hl, _⟩ | ⟨hr, _⟩ := h
  . rw [hl]
    exact .inl List.mem_cons_self
  . rw [hr]
    exact .inr List.mem_cons_self

theorem forSome_propagate_go (hS : S 0) (hstays : ∀ c ∈ equations, c.StaysIn S) (hP : Implies P equations) (n : Nat)
    (hkinds : IsDiscrete equations pending) (ha : a.AreIn S) (hforced : Forced P pending a)
    : (Interpretation.over S).ForSome P (propagate.go equations n pending a).1 (propagate.go equations n pending a).2 ↔
        (Interpretation.over S).ForSome P pending a := by
  induction n generalizing pending a with
  | zero => exact Iff.rfl
  | succ n ih =>
    unfold propagate.go
    split
    . next x v hfind =>
      obtain ⟨c, hc, hsolve⟩ := List.exists_of_findSome?_eq_some hfind
      obtain ⟨g, hequates, _, _⟩ := exists_equates_of_solve? hsolve
      obtain ⟨hkind, hvars⟩ := hkinds c hc
      have hv : v.IsIn S := hstays c hc a v ha (solve?_eq_some hsolve).2.2.symm
      have ha' : Assignment.AreIn S ((x, v) :: a) := by
        intro y w hw
        rw [List.lookup_cons] at hw
        split at hw
        . cases hw
          exact hv
        . exact ha y w hw
      rw [ih (fun c hc => ⟨(hkinds c hc).1, fun b hb => (hkinds c hc).2 b (List.mem_of_mem_eraseP hb)⟩) ha'
        (hforced.step hP hc hkind hsolve)]
      apply forSome_step hP hc hkind hforced hsolve hS _ hv
      rintro bound hbound rfl
      exact hvars bound hbound (mem_vars_of_equates hequates)
    . exact Iff.rfl

/--
Solving the equations of a formula preserves whether some values of the variables make it true. The variables have no
values yet, and equations and the variables in them are of one kind, naturals or levels. This is so if variables range
over all naturals, and also if they range over words and words only are written in the equations.
-/
theorem forSome_propagate_iff (hnew : ∀ b ∈ vars, a.lookup b.1 = none) (hkinds : IsDiscrete body.equations vars)
    (h : propagate body.equations vars a = (rest, a'))
    : ((Interpretation.over fun _ => True).ForSome (body.IsTrue (Interpretation.over fun _ => True)) rest a' ↔
        (Interpretation.over fun _ => True).ForSome (body.IsTrue (Interpretation.over fun _ => True)) vars a) ∧
      (a.AreWords → (∀ c ∈ body.equations, c.left.isWord = true ∧ c.right.isWord = true) →
        (Interpretation.standard.ForSome (body.IsTrue .standard) rest a' ↔
          Interpretation.standard.ForSome (body.IsTrue .standard) vars a)) := by
  unfold propagate at h
  obtain ⟨rfl, rfl⟩ := Prod.mk.inj h
  constructor
  . apply forSome_propagate_go trivial (fun c _ => c.staysIn_univ) implies_isTrue _ hkinds _ (forced_of_new hnew)
    intro x v _
    cases v <;> trivial
  . intro ha hwords
    rw [Interpretation.standard_eq_over]
    exact forSome_propagate_go (S := (· ≤ maxWord)) (Nat.zero_le _)
      (fun c hc => Constraint.staysIn_words (hwords c hc).1 (hwords c hc).2) implies_isTrue _ hkinds
      (fun x v hv => Value.isIn_words_iff.mpr (ha x v hv)) (forced_of_new hnew)

/--
A variable is determined by another one, which is determined by an equation further inside.
-/
def chained : Formula :=
  .and [.atom ⟨0, .eq, .var "n", .op .plus (.var "m") (.nat 1), .nat⟩,
    .and [.atom ⟨0, .eq, .nat 40, .var "m", .nat⟩, .atom ⟨0, .le, .var "n", .var "p", .nat⟩]]

theorem forSome_propagate_chained
    : propagate chained.equations [("n", .nat), ("m", .nat), ("p", .nat)] [] =
        ([("p", .nat)], [("n", .nat 41), ("m", .nat 40)]) ∧
      Interpretation.standard.ForSome (chained.IsTrue .standard) [("n", .nat), ("m", .nat), ("p", .nat)] [] := by
  have hpropagate : propagate chained.equations [("n", .nat), ("m", .nat), ("p", .nat)] [] =
      ([("p", .nat)], [("n", .nat 41), ("m", .nat 40)]) := by decide
  have hkinds : IsDiscrete chained.equations [("n", .nat), ("m", .nat), ("p", .nat)] := by
    unfold IsDiscrete
    decide
  refine ⟨hpropagate, ((forSome_propagate_iff (by decide) hkinds hpropagate).2 ?_ (by decide)).mp ?_⟩
  . intro x v hv
    cases hv
  . refine ⟨.nat 41, rfl, ?_⟩
    simp only [Interpretation.ForSome, chained, Formula.IsTrue, Formula.AllTrue, and_true]
    exact ⟨rfl, rfl, rfl⟩

end Search

end GradedModal
