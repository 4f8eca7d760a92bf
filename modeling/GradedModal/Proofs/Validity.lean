import GradedModal.Proofs.Search

/-!
This module contains the proof that a predicate is true if there is nothing to prove of it or if the search finds
nothing against it. Its constraints have to be on naturals and levels, with variables of their own kinds.
-/

namespace GradedModal

/--
A constraint on naturals or levels with variables of its own kind, and with words as its naturals.
-/
structure Constraint.WellKinded (kinds : String → GradeKind) (c : Constraint) : Prop where
  kind : c.kind = .nat ∨ c.kind = .level
  vars : ∀ x ∈ c.vars, kinds x = c.kind
  left : c.left.isWord = true
  right : c.right.isWord = true

namespace Constraint

variable {kinds : String → GradeKind} {c : Constraint} {a : Assignment} {b : Bool} {x : String} {v : Value}

theorem WellKinded.exists_of_holds (hc : c.WellKinded kinds) (ha : a.AreWords) (h : c.holds a = .ok b)
    : ∃ v w, c.left.evaluate c.kind a = .ok v ∧ c.right.evaluate c.kind a = .ok w ∧
      c.kind.contains v = true ∧ c.kind.contains w = true := by
  unfold holds at h
  cases hleft : c.left.evaluate c.kind a with
  | error e =>
    rw [hleft] at h
    cases h
  | ok v =>
    cases hright : c.right.evaluate c.kind a with
    | error e =>
      rw [hleft, hright] at h
      cases h
    | ok w =>
      have hv := Grade.evaluate_isWord ha hc.left hleft
      have hw := Grade.evaluate_isWord ha hc.right hright
      rw [hleft, hright] at h
      refine ⟨v, w, rfl, rfl, ?_⟩
      obtain hkind | hkind := hc.kind
      . rw [hkind] at h ⊢
        cases v with
        | nat m =>
          cases w with
          | nat n => exact ⟨hv, hw⟩
          | _ => cases h
        | _ => cases h
      . rw [hkind] at h ⊢
        cases v with
        | level l =>
          cases w with
          | level l' => exact ⟨rfl, rfl⟩
          | _ => cases h
        | _ => cases h

theorem mem_vars_of_defines (h : Search.Defines c x) : x ∈ c.vars := by
  unfold vars
  rw [List.mem_eraseDups, List.mem_append]
  obtain h | h := h
  . rw [h]
    exact .inl List.mem_cons_self
  . rw [h]
    exact .inr List.mem_cons_self

theorem WellKinded.contains_of_defines (hc : c.WellKinded kinds) (ha : a.AreWords) (hx : Search.Defines c x)
    (hv : a.lookup x = some v) (h : c.holds a = .ok b) : (kinds x).contains v = true := by
  rw [hc.vars x (mem_vars_of_defines hx)]
  have hvar : (Grade.var x).evaluate c.kind a = .ok v := by
    unfold Grade.evaluate
    rw [hv]
  obtain ⟨l, r, hleft, hright, hl, hr⟩ := hc.exists_of_holds ha h
  obtain hx | hx := hx
  . rw [hx, hvar] at hleft
    cases hleft
    exact hl
  . rw [hx, hvar] at hright
    cases hright
    exact hr

end Constraint

namespace Formula

mutual

def isUniversal : Formula → Bool
  | .atom _ => true
  | .and items => areUniversal items
  | .implies p q => p.isUniversal && q.isUniversal
  | .forAll _ body => body.isUniversal
  | .forSome _ _ => false

def areUniversal : List Formula → Bool
  | [] => true
  | f :: fs => f.isUniversal && areUniversal fs

end

mutual

/--
The form of formulas that the search can be trusted with: constraints and existential quantifiers agree on the kinds of
variables, and no existential quantifier occurs in an antecedent.
-/
def Searchable (kinds : String → GradeKind) : Formula → Prop
  | .atom c => c.WellKinded kinds
  | .and items => AllSearchable kinds items
  | .implies p q => p.isUniversal = true ∧ p.Searchable kinds ∧ q.Searchable kinds
  | .forAll _ body => body.Searchable kinds
  | .forSome vars body => (∀ b ∈ vars, b.2 = kinds b.1) ∧ body.Searchable kinds

def AllSearchable (kinds : String → GradeKind) : List Formula → Prop
  | [] => True
  | f :: fs => f.Searchable kinds ∧ AllSearchable kinds fs

end

variable {kinds : String → GradeKind} {vars : List Bound} {body : Formula}

theorem searchable_mkForAll (h : body.Searchable kinds) : (mkForAll vars body).Searchable kinds := by
  unfold mkForAll
  split
  . exact h
  . exact h

theorem searchable_mkForSome (hvars : ∀ b ∈ vars, b.2 = kinds b.1) (h : body.Searchable kinds)
    : (mkForSome vars body).Searchable kinds := by
  unfold mkForSome
  split
  . exact h
  . exact ⟨hvars, h⟩

theorem isUniversal_mkForAll (h : body.isUniversal = true) : (mkForAll vars body).isUniversal = true := by
  unfold mkForAll
  split
  . exact h
  . exact h

theorem allSearchable_iff {fs : List Formula} : AllSearchable kinds fs ↔ ∀ f ∈ fs, f.Searchable kinds := by
  induction fs with
  | nil => simp [AllSearchable]
  | cons f fs ih => simp [AllSearchable, ih]

theorem areUniversal_iff {fs : List Formula} : areUniversal fs = true ↔ ∀ f ∈ fs, f.isUniversal = true := by
  induction fs with
  | nil => simp [areUniversal]
  | cons f fs ih => simp [areUniversal, ih]

theorem equationsAll_eq_flatMap {fs : List Formula} : equationsAll fs = fs.flatMap equations := by
  induction fs with
  | nil => rfl
  | cons f fs ih => simp [equationsAll, ih]

theorem of_mem_equations {c : Constraint} {motive : Formula → Prop} (atom : c.relation = .eq → motive (.atom c))
    (and : ∀ items, ∀ f ∈ items, motive f → motive (.and items)) (f : Formula) (hc : c ∈ f.equations) : motive f := by
  induction f using Formula.induction with
  | atom c' =>
    unfold equations at hc
    split at hc
    . next h =>
      obtain rfl := List.mem_singleton.mp hc
      exact atom h
    . cases hc
  | and items ih =>
    unfold equations at hc
    rw [equationsAll_eq_flatMap] at hc
    obtain ⟨f, hf, hc⟩ := List.mem_flatMap.mp hc
    exact and items f hf (ih f hf hc)
  | implies | forAll | forSome => cases hc

theorem relation_of_mem_equations (f : Formula) {c : Constraint} (hc : c ∈ f.equations) : c.relation = .eq :=
  of_mem_equations (motive := fun _ => c.relation = .eq) id (fun _ _ _ h => h) f hc

theorem wellKinded_of_mem_equations (f : Formula) (hf : f.Searchable kinds)
    : ∀ c ∈ f.equations, c.WellKinded kinds := by
  intro c hc
  apply of_mem_equations (motive := fun f => f.Searchable kinds → c.WellKinded kinds) (fun _ h => h) _ f hc hf
  intro items f hmem ih hitems
  exact ih (allSearchable_iff.mp hitems f hmem)

theorem holds_of_mem_equations {α : Type} {I : Interpretation α} {a : List (String × α)} (f : Formula)
    (hf : f.IsTrue I a) : ∀ c ∈ f.equations, I.holds c a := by
  intro c hc
  apply of_mem_equations (motive := fun f => f.IsTrue I a → I.holds c a) (fun _ h => h) _ f hc hf
  intro items f hmem ih hitems
  exact ih (allTrue_iff.mp hitems f hmem)

end Formula

namespace Search

open SearchM

variable {s : Search} {kinds : String → GradeKind} {vars : List Bound} {body : Formula} {a : Assignment}

structure Bounded (s : Search) : Prop where
  universal : s.universal.upper ≤ maxWord
  existential : s.existential.upper ≤ maxWord

/--
Values that make a body true, found by solving its equations and then by trying values, show that there are some. Those
that were solved for have the right kinds because the equations are true.
-/
theorem isTrue_forSome (hs : s.Bounded) (hvars : ∀ b ∈ vars, b.2 = kinds b.1) (hbody : body.Searchable kinds)
    (ha : a.AreWords)
    (ih : ∀ a : Assignment, a.AreWords → Returns (s.eval body a) true → body.IsTrue .standard a)
    (h : Returns (s.eval (.forSome vars body) a) true) : (Formula.forSome vars body).IsTrue .standard a := by
  have hequations := Formula.wellKinded_of_mem_equations body hbody
  unfold eval at h
  cases hsolve : propagate body.equations vars a with
  | mk rest a₁ =>
    rw [hsolve] at h
    have hsolved := propagate_solved (fun c hc => ⟨(hequations c hc).left, (hequations c hc).right⟩) ha hsolve
    obtain ⟨a₂, h, hfound⟩ := forSome_true hs.existential hsolved.words (fun a => sticky_eval body) h
    have htrue := ih a₂ hfound.words h
    have hvalue : ∀ x ∈ vars.map (·.1), ∃ v, a₂.lookup x = some v ∧ (kinds x).contains v = true := by
      intro x hx
      by_cases hrest : x ∈ rest.map (·.1)
      . obtain ⟨kind, v, hmem, hv, hcontains⟩ := hfound.found x hrest
        have hkind : kind = kinds x := hvars (x, kind) (hsolved.subset _ hmem)
        rw [hkind] at hcontains
        exact ⟨v, hv, hcontains⟩
      . obtain ⟨c, hc, hdefines, v, hv⟩ := hsolved.solved x hx hrest
        rw [← hfound.kept x hrest] at hv
        have hholds := Formula.holds_of_mem_equations body htrue c hc
        exact ⟨v, hv, (hequations c hc).contains_of_defines hfound.words hdefines hv hholds⟩
    -- The values that were found, in the order of the quantifier.
    let f : String → Value := fun x => (a₂.lookup x).getD (.nat 0)
    have hf : ∀ x ∈ vars.map (·.1), a₂.lookup x = some (f x) ∧ (kinds x).contains (f x) = true := by
      intro x hx
      obtain ⟨v, hv, hcontains⟩ := hvalue x hx
      simp only [f, hv, Option.getD_some, true_and]
      exact hcontains
    have hsame : SameValues a₂ (Interpretation.assign f vars a) := by
      intro x
      rw [Interpretation.lookup_assign]
      split
      . next hx => exact (hf x hx).1
      . next hx =>
        rw [hfound.kept x, hsolved.kept x hx]
        intro hrest
        obtain ⟨b, hb, rfl⟩ := List.mem_map.mp hrest
        exact hx (List.mem_map.mpr ⟨b, hsolved.subset b hb, rfl⟩)
    unfold Formula.IsTrue
    apply Interpretation.ForSome.of_assign
    . intro b hb
      change b.2.contains (f b.1) = true
      rw [hvars b hb]
      exact (hf b.1 (List.mem_map_of_mem hb)).2
    . exact (Formula.isTrue_congr Interpretation.standard_extensional body hsame).mp htrue

/--
A formula that the search finds to be true is true. One that it finds to be false is false if no existential quantifier
occurs in it: only values of existential variables can have been missed.
-/
theorem eval_sound (hs : s.Bounded) (f : Formula) (hf : f.Searchable kinds) {a : Assignment} (ha : a.AreWords)
    : (Returns (s.eval f a) true → f.IsTrue .standard a) ∧
      (f.isUniversal = true → Returns (s.eval f a) false → ¬f.IsTrue .standard a) := by
  induction f using Formula.induction generalizing a with
  | atom c =>
    unfold Formula.IsTrue
    refine ⟨reads_returns.eval_atom, ?_⟩
    intro _ h htrue
    have htrue : c.holds a = .ok true := htrue
    rw [reads_returns.eval_atom h] at htrue
    cases htrue
  | and items ih =>
    unfold Formula.Searchable at hf
    unfold eval Formula.IsTrue Formula.isUniversal
    rw [Formula.allSearchable_iff] at hf
    rw [Formula.allTrue_iff, Formula.areUniversal_iff]
    constructor
    . intro h f hmem
      exact (ih f hmem (hf f hmem) ha).1 (reads_returns.evalAll h f hmem)
    . intro hu h hall
      obtain ⟨f, hmem, h⟩ := reads_returns.evalAll h
      exact (ih f hmem (hf f hmem) ha).2 (hu f hmem) h (hall f hmem)
  | implies p q ihp ihq =>
    unfold Formula.Searchable at hf
    obtain ⟨huniversal, hp, hq⟩ := hf
    have hp := ihp hp ha
    have hq := ihq hq ha
    unfold Formula.IsTrue
    constructor
    . intro h htrue
      obtain ⟨_, h⟩ | ⟨hfalse, _⟩ := reads_returns.eval_implies h
      . exact hq.1 h
      . exact absurd htrue (hp.2 huniversal hfalse)
    . intro hu h himplies
      obtain ⟨htrue, h⟩ | ⟨_, heq⟩ := reads_returns.eval_implies h
      . unfold Formula.isUniversal at hu
        rw [Bool.and_eq_true] at hu
        exact hq.2 hu.2 h (himplies (hp.1 htrue))
      . cases heq
  | forAll vars body ih =>
    unfold Formula.Searchable at hf
    unfold eval Formula.IsTrue
    constructor
    . intro h
      exact forAll_true ha (fun a => sticky_eval body) (fun a ha => (ih hf ha).1) h
    . intro hu h
      exact forAll_false hs.universal ha (fun a => sticky_eval body) (fun a ha => (ih hf ha).2 hu) h
  | forSome vars body ih =>
    unfold Formula.Searchable at hf
    refine ⟨isTrue_forSome hs hf.1 hf.2 ha (fun a ha => (ih hf.2 ha).1), ?_⟩
    intro hu
    cases hu

theorem falsify_none (hs : s.Bounded) (hbody : body.Searchable kinds) (ha : a.AreWords)
    (h : Returns (s.falsify body vars a) none)
    : Interpretation.standard.ForAll (fun a => body.IsTrue .standard a) vars a := by
  induction vars generalizing a with
  | nil => exact (eval_sound hs body hbody ha).1 (reads_returns.falsify_nil h)
  | cons b vars ih =>
    obtain ⟨x, kind⟩ := b
    obtain ⟨hfound, hexhausted⟩ := reads_returns.falsify_cons h
    obtain ⟨u, hu⟩ := hexhausted rfl
    obtain rfl := eq_level_of_exhausted hu
    intro v hv
    exact ih (ha.cons x hv) (reads_returns.findFirst_none
      (fun _ => closed_sticky.falsify s.universal s.existential body vars _ s.limit) hfound v (Domain.mem_of_level hv))

theorem bounded_ofQuery {b : Bounds} (hb : b.nat ≤ maxWord) (q : Query) : (ofQuery b q).Bounded :=
  ⟨hb, Nat.le_of_lt_succ (Nat.mod_lt _ (Nat.succ_pos _))⟩

end Search

theorem Query.isTrue_of_search {q : Query} {b : Bounds} {kinds : String → GradeKind} (hq : q.body.Searchable kinds)
    (hb : b.nat ≤ maxWord) (h : q.search b = .valid) : q.formula.IsTrue .standard [] := by
  have hreturns : SearchM.Returns ((Search.ofQuery b q).falsify q.body q.universals []) none := by
    unfold search at h
    split at h
    . cases h
    . next p hrun =>
      split at h
      . cases h
      . next htruncated => exact ⟨_, p, hrun, Bool.eq_false_iff.mpr htruncated⟩
    . cases h
  unfold formula
  rw [Formula.isTrue_mkForAll]
  exact Search.falsify_none (Search.bounded_ofQuery hb q) hq (fun x v hv => by cases hv) hreturns

namespace Predicate

/--
Constraints on naturals and levels with variables of their own kinds. The kinds of variables are those that are listed.
-/
structure WellKinded (p : Predicate) (vars : List GradeVar) (kinds : String → GradeKind) : Prop where
  listed : ∀ x v, vars.find? (·.name = x) = some v → v.kind = kinds x
  constraints : ∀ c ∈ p.constraints, c.WellKinded kinds

variable {vars : List GradeVar} {kinds : String → GradeKind}

def Listed (vars : List GradeVar) (kinds : String → GradeKind) : Prop :=
  ∀ v ∈ vars, v.kind = kinds v.name

theorem name_of_find? {x : String} {v : GradeVar} (h : vars.find? (·.name = x) = some v) : v.name = x := by
  simpa using List.find?_some h

theorem kind_of_mem_bindAll {names : List String} (hvars : Listed vars kinds)
    : ∀ b ∈ bindAll vars names, b.2 = kinds b.1 := by
  intro b hb
  obtain ⟨x, _, hx⟩ := List.mem_filterMap.mp hb
  obtain ⟨v, hv, rfl⟩ := Option.map_eq_some_iff.mp hx
  change v.kind = kinds x
  rw [hvars v (List.mem_of_find?_eq_some hv), name_of_find? hv]

mutual

theorem isUniversal_quantify (vars : List GradeVar) (p : Predicate) : (quantify vars p []).isUniversal = true := by
  cases p with
  | atom c => rfl
  | conj items =>
    unfold quantify
    exact areUniversal_quantifyAll vars items
  | impl bound antecedent consequent =>
    unfold quantify
    apply Formula.isUniversal_mkForAll
    unfold Formula.isUniversal
    rw [Bool.and_eq_true]
    exact ⟨isUniversal_quantify vars antecedent, isUniversal_quantify vars consequent⟩

theorem areUniversal_quantifyAll (vars : List GradeVar) (ps : List Predicate)
    : Formula.areUniversal (quantifyAll vars ps []) = true := by
  cases ps with
  | nil => rfl
  | cons p ps =>
    unfold quantifyAll Formula.areUniversal
    rw [Bool.and_eq_true]
    exact ⟨isUniversal_quantify vars p, areUniversal_quantifyAll vars ps⟩

end

mutual

theorem searchable_quantify (hvars : Listed vars kinds) (p : Predicate)
    (hp : ∀ c ∈ p.constraints, c.WellKinded kinds) (pending : List String)
    : (quantify vars p pending).Searchable kinds := by
  cases p with
  | atom c =>
    unfold quantify
    exact Formula.searchable_mkForSome (kind_of_mem_bindAll hvars) (hp c List.mem_cons_self)
  | conj items =>
    unfold quantify
    apply Formula.searchable_mkForSome (kind_of_mem_bindAll hvars)
    exact searchable_quantifyAll hvars items hp _
  | impl bound antecedent consequent =>
    unfold constraints at hp
    unfold quantify
    apply Formula.searchable_mkForSome (kind_of_mem_bindAll hvars)
    apply Formula.searchable_mkForAll
    refine ⟨isUniversal_quantify vars antecedent, ?_, ?_⟩
    . exact searchable_quantify hvars antecedent (fun c hc => hp c (List.mem_append_left _ hc)) _
    . exact searchable_quantify hvars consequent (fun c hc => hp c (List.mem_append_right _ hc)) _

theorem searchable_quantifyAll (hvars : Listed vars kinds) (ps : List Predicate)
    (hps : ∀ c ∈ constraintsAll ps, c.WellKinded kinds) (sunk : List String)
    : Formula.AllSearchable kinds (quantifyAll vars ps sunk) := by
  cases ps with
  | nil => trivial
  | cons p ps =>
    unfold constraintsAll at hps
    unfold quantifyAll
    constructor
    . exact searchable_quantify hvars p (fun c hc => hps c (List.mem_append_left _ hc)) _
    . exact searchable_quantifyAll hvars ps (fun c hc => hps c (List.mem_append_right _ hc)) _

end

theorem listed_mention {seen : List GradeVar} {kind : GradeKind} {x : String}
    (hvars : ∀ x v, vars.find? (·.name = x) = some v → v.kind = kinds x) (hseen : Listed seen kinds)
    (hx : kinds x = kind) : Listed (mentionedVars.mention vars kind seen x) kinds := by
  unfold mentionedVars.mention
  split
  . exact hseen
  . intro v hv
    obtain hv | hv := List.mem_append.mp hv
    . exact hseen v hv
    . obtain rfl := List.mem_singleton.mp hv
      cases hfind : vars.find? (·.name = x) with
      | none => exact hx.symm
      | some w =>
        rw [Option.getD_some, hvars x w hfind, name_of_find? hfind]

theorem listed_mentionedVars {p : Predicate} (hp : p.WellKinded vars kinds) : Listed (p.mentionedVars vars) kinds := by
  have hvars : ∀ (kind : GradeKind) (names : List String) (seen : List GradeVar), (∀ x ∈ names, kinds x = kind) →
      Listed seen kinds → Listed (names.foldl (mentionedVars.mention vars kind) seen) kinds := by
    intro kind names
    induction names with
    | nil => exact fun seen _ hseen => hseen
    | cons x names ih =>
      intro seen hnames hseen
      exact ih _ (fun y hy => hnames y (List.mem_cons_of_mem _ hy))
        (listed_mention hp.listed hseen (hnames x List.mem_cons_self))
  have hconstraints : ∀ (cs : List Constraint) (seen : List GradeVar), (∀ c ∈ cs, c.WellKinded kinds) →
      Listed seen kinds → Listed (cs.foldl (fun seen c => c.vars.foldl (mentionedVars.mention vars c.kind) seen) seen) kinds := by
    intro cs
    induction cs with
    | nil => exact fun seen _ hseen => hseen
    | cons c cs ih =>
      intro seen hcs hseen
      exact ih _ (fun c hc => hcs c (List.mem_cons_of_mem _ hc)) (hvars _ _ _ (hcs c List.mem_cons_self).vars hseen)
  exact hconstraints _ _ hp.constraints (fun v hv => by cases hv)

theorem searchable_compile {p : Predicate} (hp : p.WellKinded vars kinds)
    : (p.compile vars).body.Searchable kinds :=
  searchable_quantify (listed_mentionedVars hp) p hp.constraints _

mutual

theorem isTrue_quantify_of_isTrivial (vars : List GradeVar) (p : Predicate) (hp : p.isTrivial = true)
    (pending : List String) (a : Assignment) : (quantify vars p pending).IsTrue .standard a := by
  cases p with
  | atom c => cases hp
  | conj items =>
    unfold quantify
    rw [Formula.isTrue_mkForSome]
    apply Interpretation.ForSome.of_forall (fun b _ => b.2.exists_contains)
    intro a
    exact allTrue_quantifyAll_of_areTrivial vars items hp _ a
  | impl bound antecedent consequent =>
    unfold quantify
    rw [Formula.isTrue_mkForSome]
    apply Interpretation.ForSome.of_forall (fun b _ => b.2.exists_contains)
    intro a
    rw [Formula.isTrue_mkForAll]
    apply Interpretation.ForAll.of_forall
    intro a _
    exact isTrue_quantify_of_isTrivial vars consequent hp _ a

theorem allTrue_quantifyAll_of_areTrivial (vars : List GradeVar) (ps : List Predicate) (hps : areTrivial ps = true)
    (sunk : List String) (a : Assignment) : Formula.AllTrue .standard (quantifyAll vars ps sunk) a := by
  cases ps with
  | nil => trivial
  | cons p ps =>
    unfold areTrivial at hps
    rw [Bool.and_eq_true] at hps
    unfold quantifyAll
    exact ⟨isTrue_quantify_of_isTrivial vars p hps.1 _ a, allTrue_quantifyAll_of_areTrivial vars ps hps.2 _ a⟩

end

theorem isTrue_of_isTrivial {p : Predicate} (hp : p.isTrivial = true) (vars : List GradeVar)
    : (p.compile vars).formula.IsTrue .standard [] := by
  unfold Query.formula
  rw [Formula.isTrue_mkForAll]
  exact Interpretation.ForAll.of_forall (isTrue_quantify_of_isTrivial _ p hp _)

/--
A predicate of which there is nothing to prove, or against which the search finds nothing, is true of all values of its
variables, however few of them the search may try.
-/
theorem isTrue_of_accepted (p : Predicate) (vars : List GradeVar) (kinds : String → GradeKind)
    (hp : p.WellKinded vars kinds) (b : Bounds) (hb : b.nat ≤ maxWord)
    (h : p.isTrivial = true ∨ (p.compile vars).search b = .valid)
    : (p.compile vars).formula.IsTrue .standard [] := by
  obtain h | h := h
  . exact isTrue_of_isTrivial h vars
  . exact Query.isTrue_of_search (searchable_compile hp) hb h

/-- For all levels `l` and some natural `n`: `n = 2 + 3`, and `l` is at most visible only if it is at most secret. -/
theorem isTrue_of_accepted_levels
    : ((Predicate.conj [.atom (.eq 0 (.var "n") (.op .plus (.nat 2) (.nat 3)) .nat),
          .impl [] (.atom (.le 0 (.var "l") (.level .visible) .level))
            (.atom (.le 0 (.var "l") (.level .secret) .level))]).compile
        [⟨"l", .level, .universal⟩, ⟨"n", .nat, .instantiated⟩]).formula.IsTrue .standard [] := by
  refine isTrue_of_accepted _ _ (fun x => if x = "l" then .level else .nat) ⟨?_, ?_⟩ ⟨1, 0.5, 100⟩ (by decide)
    (.inr rfl)
  . intro x v hv
    have hmem := List.mem_of_find?_eq_some hv
    rw [← name_of_find? hv]
    simp only [List.mem_cons, List.not_mem_nil, or_false] at hmem
    obtain rfl | rfl := hmem <;> rfl
  . intro c hc
    simp only [constraints, constraintsAll, List.append_nil, List.cons_append, List.nil_append, List.mem_cons,
      List.not_mem_nil, or_false] at hc
    obtain rfl | rfl | rfl := hc
    . exact ⟨.inl rfl, by decide, rfl, rfl⟩
    . exact ⟨.inr rfl, by decide, rfl, rfl⟩
    . exact ⟨.inr rfl, by decide, rfl, rfl⟩

end Predicate
end GradedModal
