import GradedModal.Proofs.Quantifiers

/-!
This module shows that binding variables inside of a predicate loses no solution: if one choice of their values makes
the predicate true, then the formula is true in which each of them is chosen only where it is needed.
-/

namespace GradedModal

/--
An interpretation in which every kind has a value, and in which constraints are about the variables that they mention.
-/
structure Model (α : Type) extends Interpretation α where
  nonempty : ∀ kind, ∃ v, values kind v
  congr : ∀ c a b, (∀ x ∈ c.vars, a.lookup x = b.lookup x) → (holds c a ↔ holds c b)

def Model.standard : Model Value where
  toInterpretation := .standard
  nonempty := GradeKind.exists_contains
  congr c a b h := by
    change c.holds a = .ok true ↔ c.holds b = .ok true
    rw [Constraint.holds_eq_of_vars h]

namespace Predicate

variable {α : Type}

mutual

/--
Whether a predicate is true under values of its variables. An implication is about all values of the variables that it
binds.
-/
def IsTrue (I : Interpretation α) (kinds : String → GradeKind) : Predicate → List (String × α) → Prop
  | .atom c, a => I.holds c a
  | .conj items, a => AllTrue I kinds items a
  | .impl bound antecedent consequent, a =>
    I.ForAll (fun a => antecedent.IsTrue I kinds a → consequent.IsTrue I kinds a)
      (bound.map fun b => (b.1, kinds b.1)) a

def AllTrue (I : Interpretation α) (kinds : String → GradeKind) : List Predicate → List (String × α) → Prop
  | [], _ => True
  | p :: ps, a => p.IsTrue I kinds a ∧ AllTrue I kinds ps a

end

theorem allTrue_iff {I : Interpretation α} {kinds : String → GradeKind} {ps : List Predicate}
    {a : List (String × α)} : AllTrue I kinds ps a ↔ ∀ p ∈ ps, p.IsTrue I kinds a := by
  induction ps with
  | nil => simp [AllTrue]
  | cons p ps ih => simp [AllTrue, ih]

/--
Two lists of values agree on the variables of a predicate, apart from the pending ones. For those the first list has
made a choice.
-/
structure Agree (M : Model α) (kinds : String → GradeKind) (p : Predicate) (pending : List String)
    (a b : List (String × α)) : Prop where
  same : ∀ x, p.mentions x = true → x ∉ pending → a.lookup x = b.lookup x
  chosen : ∀ x ∈ pending, ∃ v, a.lookup x = some v ∧ M.values (kinds x) v

namespace Agree

variable {M : Model α} {kinds : String → GradeKind} {p q : Predicate} {pending : List String}
variable {a b : List (String × α)} {x : String} {v : α} {P Q : List (String × α) → Prop}

theorem mono (h : Agree M kinds p pending a b) (hq : ∀ x, q.mentions x = true → p.mentions x = true)
    {rest : List String} (hrest : ∀ x ∈ rest, x ∈ pending) (hpending : ∀ x ∈ pending, q.mentions x = true → x ∈ rest)
    : Agree M kinds q rest a b where
  same x hx hx' := h.same x (hq x hx) fun hmem => hx' (hpending x hmem hx)
  chosen x hx := h.chosen x (hrest x hx)

theorem restrict (h : Agree M kinds p [] a b) (hq : ∀ x, q.mentions x = true → p.mentions x = true)
    : Agree M kinds q [] a b :=
  h.mono hq (fun _ hx => hx) (fun _ hx => nomatch hx)

theorem cons_left (h : Agree M kinds p pending a b) (hx : p.mentions x = false) (hv : M.values (kinds x) v)
    : Agree M kinds p pending ((x, v) :: a) b where
  same y hy hpending := by
    have hne : y ≠ x := by
      rintro rfl
      exact ne_true_of_eq_false hx hy
    rw [List.lookup_cons, beq_eq_false_iff_ne.mpr hne]
    exact h.same y hy hpending
  chosen y hy := by
    rw [List.lookup_cons]
    split
    . next heq =>
      rw [eq_of_beq heq]
      exact ⟨v, rfl, hv⟩
    . exact h.chosen y hy

theorem cons (h : Agree M kinds p pending a b) (hv : M.values (kinds x) v)
    : Agree M kinds p pending ((x, v) :: a) ((x, v) :: b) where
  same y hy hpending := by
    simp only [List.lookup_cons]
    split
    . rfl
    . exact h.same y hy hpending
  chosen y hy := by
    rw [List.lookup_cons]
    split
    . next heq =>
      rw [eq_of_beq heq]
      exact ⟨v, rfl, hv⟩
    . exact h.chosen y hy

theorem forSome (h : Agree M kinds p pending a b) {here : List String} (rest : List String)
    (hhere : ∀ x ∈ here, x ∈ pending) (hrest : ∀ x ∈ rest, x ∈ pending) (hcover : ∀ x ∈ pending, x ∈ here ∨ x ∈ rest)
    (hP : ∀ b, Agree M kinds p rest a b → P b) : M.ForSome P (here.map fun x => (x, kinds x)) b := by
  obtain ⟨default, _⟩ := M.nonempty .nat
  let f : String → α := fun x => (a.lookup x).getD default
  have hf : ∀ x ∈ here, a.lookup x = some (f x) ∧ M.values (kinds x) (f x) := by
    intro x hx
    obtain ⟨v, hlookup, hv⟩ := h.chosen x (hhere x hx)
    simp only [f, hlookup, Option.getD_some, true_and]
    exact hv
  apply Interpretation.ForSome.of_assign (f := f)
  . intro bound hbound
    obtain ⟨x, hx, rfl⟩ := List.mem_map.mp hbound
    exact (hf x hx).2
  . apply hP
    constructor
    . intro x hx hnot
      rw [Interpretation.lookup_assign, List.map_map]
      simp only [Function.comp_def, List.map_id']
      split
      . next hmem => exact (hf x hmem).1
      . next hmem => exact h.same x hx fun hpending => (hcover x hpending).elim hmem hnot
    . exact fun x hx => h.chosen x (hrest x hx)

theorem forAll (h : Agree M kinds p pending a b) {names : List String}
    (hPQ : ∀ a b, Agree M kinds p pending a b → P a → Q b) (hP : M.ForAll P (names.map fun x => (x, kinds x)) a)
    : M.ForAll Q ((names.filter (p.mentions ·)).map fun x => (x, kinds x)) b := by
  induction names generalizing a b with
  | nil => exact hPQ a b h hP
  | cons x names ih =>
    cases hx : p.mentions x with
    | true =>
      rw [List.filter_cons_of_pos hx]
      exact fun v hv => ih (h.cons hv) (hP v hv)
    | false =>
      rw [List.filter_cons_of_neg (ne_true_of_eq_false hx)]
      obtain ⟨v, hv⟩ := M.nonempty (kinds x)
      exact ih (h.cons_left hx hv) (hP v hv)

theorem forAll_of_mentioned (h : Agree M kinds p pending a b) {names : List String}
    (hQP : ∀ a b, Agree M kinds p pending a b → Q b → P a)
    (hQ : M.ForAll Q ((names.filter (p.mentions ·)).map fun x => (x, kinds x)) b)
    : M.ForAll P (names.map fun x => (x, kinds x)) a := by
  induction names generalizing a b with
  | nil => exact hQP a b h hQ
  | cons x names ih =>
    intro v hv
    cases hx : p.mentions x with
    | true =>
      rw [List.filter_cons_of_pos hx] at hQ
      exact ih (h.cons hv) (hQ v hv)
    | false =>
      rw [List.filter_cons_of_neg (ne_true_of_eq_false hx)] at hQ
      exact ih (h.cons_left hx hv) hQ

end Agree

variable {M : Model α} {kinds : String → GradeKind} {vars : List GradeVar}

theorem bindAll_eq_map (hvars : Listed vars kinds) (names : List String) (h : ∀ x ∈ names, x ∈ vars.map (·.name))
    : bindAll vars names = names.map fun x => (x, kinds x) := by
  have hbound : ∀ b ∈ bindAll vars names, b = (b.1, kinds b.1) := by
    intro b hb
    rw [← kind_of_mem_bindAll hvars b hb]
  calc bindAll vars names
    _ = (bindAll vars names).map fun b => (b.1, kinds b.1) := by rw [← List.map_congr_left hbound, List.map_id']
    _ = ((bindAll vars names).map (·.1)).map fun x => (x, kinds x) := by rw [List.map_map]; rfl
    _ = names.map fun x => (x, kinds x) := by rw [map_bindAll names h]

/--
A predicate and its formula are true of the same values as long as nothing is pending. If something is, then the formula
is true if some choice makes the predicate true.
-/
structure Faithful (M : Model α) (kinds : String → GradeKind) (vars : List GradeVar) (p : Predicate) : Prop where
  reflects : ∀ {a b}, Agree M kinds p [] a b → (quantify vars p []).IsTrue M.toInterpretation b →
    p.IsTrue M.toInterpretation kinds a
  preserves : ∀ {pending a b}, Ready vars p pending → Agree M kinds p pending a b →
    p.IsTrue M.toInterpretation kinds a → (quantify vars p pending).IsTrue M.toInterpretation b

theorem faithful_atom (hvars : Listed vars kinds) (c : Constraint) : Faithful M kinds vars (atom c) := by
  have hholds : ∀ {a b}, Agree M kinds (atom c) [] a b → (M.holds c a ↔ M.holds c b) := by
    intro a b hab
    apply M.congr
    intro x hx
    apply hab.same x _ List.not_mem_nil
    simpa [mentions, constraints, Constraint.mentions] using hx
  constructor
  . intro a b hab hb
    exact (hholds hab).mpr hb
  . intro pending a b h hab ha
    unfold quantify
    rw [Formula.isTrue_mkForSome, bindAll_eq_map hvars _ fun x hx => h.listed x (h.pending x hx)]
    apply hab.forSome [] (fun x hx => hx) (List.forall_mem_nil _) (fun x hx => .inl hx)
    intro b hab
    exact (hholds hab).mp ha

theorem faithful_conj (hvars : Listed vars kinds) {items : List Predicate}
    (hitems : ∀ p ∈ items, Faithful M kinds vars p) : Faithful M kinds vars (conj items) := by
  have hmentions : ∀ p ∈ items, ∀ x, p.mentions x = true → (conj items).mentions x = true := by
    intro p hp x hx
    rw [mentions_conj, List.any_eq_true]
    exact ⟨p, hp, hx⟩
  constructor
  . intro a b hab hb
    unfold quantify at hb
    rw [Formula.isTrue_mkForSome, quantifyAll_eq_map] at hb
    apply allTrue_iff.mpr
    intro p hp
    apply (hitems p hp).reflects (hab.restrict (hmentions p hp))
    exact Formula.allTrue_iff.mp hb _ (List.mem_map_of_mem hp)
  . intro pending a b h hab ha
    unfold quantify
    dsimp only
    rw [Formula.isTrue_mkForSome,
      bindAll_eq_map hvars _ fun x hx => h.listed x (h.pending x (List.mem_filter.mp hx).1), quantifyAll_eq_map]
    apply hab.forSome (pending.filter (sinks items)) (fun x hx => (List.mem_filter.mp hx).1)
      (fun x hx => (List.mem_filter.mp hx).1)
    . intro x hx
      cases hsinks : sinks items x <;> simp [hx, hsinks]
    . intro b hab
      apply Formula.allTrue_iff.mpr
      intro f hf
      obtain ⟨p, hp, rfl⟩ := List.mem_map.mp hf
      apply (hitems p hp).preserves (h.item hp) _ (allTrue_iff.mp ha p hp)
      exact hab.mono (hmentions p hp) (fun x hx => (List.mem_filter.mp hx).1)
        (fun x hx hmentions => List.mem_filter.mpr ⟨hx, hmentions⟩)

-- On the antecedent the two directions change places. Nothing is pending there, so that both are at hand.
theorem faithful_impl (hvars : Listed vars kinds) {bound : List (String × Kind)} {p q : Predicate}
    (hlisted : ∀ x, (impl bound p q).mentions x = true → x ∈ vars.map (·.name))
    (hp : Faithful M kinds vars p) (hq : Faithful M kinds vars q) : Faithful M kinds vars (impl bound p q) := by
  have hantecedent : ∀ x, p.mentions x = true → (impl bound p q).mentions x = true := by
    intro x hx
    simp [mentions_impl, hx]
  have hconsequent : ∀ x, q.mentions x = true → (impl bound p q).mentions x = true := by
    intro x hx
    simp [mentions_impl, hx]
  have hready : Ready vars p [] := ⟨fun x hx => hlisted x (hantecedent x hx), fun x hx => nomatch hx⟩
  have hbound : (bound.map fun b => (b.1, kinds b.1)) = (bound.map (·.1)).map fun x => (x, kinds x) := by
    rw [List.map_map]
    rfl
  have hmentioned : bindAll vars ((bound.map (·.1)).filter fun x => p.mentions x || q.mentions x)
      = ((bound.map (·.1)).filter ((impl bound p q).mentions ·)).map fun x => (x, kinds x) := by
    have hmentions : ∀ x, (p.mentions x || q.mentions x) = (impl bound p q).mentions x := fun _ => mentions_impl.symm
    simp only [hmentions]
    exact bindAll_eq_map hvars _ fun x hx => hlisted x (List.mem_filter.mp hx).2
  constructor
  . intro a b hab hb
    unfold quantify at hb
    dsimp only at hb
    rw [Formula.isTrue_mkForSome, hmentioned] at hb
    unfold IsTrue
    rw [hbound]
    apply hab.forAll_of_mentioned _ (Formula.isTrue_mkForAll.mp hb)
    intro a b hab himplies ha
    apply hq.reflects (hab.restrict hconsequent)
    apply himplies
    exact hp.preserves hready (hab.restrict hantecedent) ha
  . intro pending a b h hab ha
    unfold IsTrue at ha
    rw [hbound] at ha
    unfold quantify
    dsimp only
    rw [Formula.isTrue_mkForSome, hmentioned,
      bindAll_eq_map hvars _ fun x hx => h.listed x (h.pending x (List.mem_filter.mp hx).1)]
    apply hab.forSome (pending.filter (!p.mentions ·)) (fun x hx => (List.mem_filter.mp hx).1)
      (fun x hx => (List.mem_filter.mp hx).1)
    . intro x hx
      cases hmentions : p.mentions x <;> simp [hx, hmentions]
    . intro b hab
      rw [Formula.isTrue_mkForAll]
      apply hab.forAll _ ha
      intro a b hab himplies hb
      apply hq.preserves h.consequent (hab.mono hconsequent (fun x hx => hx) (fun x hx _ => hx))
      apply himplies
      apply hp.reflects _ hb
      refine hab.mono hantecedent (fun x hx => nomatch hx) ?_
      intro x hx hmentions
      simp [hmentions] at hx

theorem faithful (hvars : Listed vars kinds) (p : Predicate)
    (hlisted : ∀ x, p.mentions x = true → x ∈ vars.map (·.name)) : Faithful M kinds vars p := by
  induction p using Predicate.induction with
  | atom c => exact faithful_atom hvars c
  | conj items ih =>
    apply faithful_conj hvars
    intro p hp
    apply ih p hp
    intro x hx
    apply hlisted
    rw [mentions_conj, List.any_eq_true]
    exact ⟨p, hp, hx⟩
  | impl bound p q ihp ihq =>
    apply faithful_impl hvars hlisted
    . apply ihp
      intro x hx
      apply hlisted
      simp [mentions_impl, hx]
    . apply ihq
      intro x hx
      apply hlisted
      simp [mentions_impl, hx]

/--
The kind of a variable according to a list of variables, and otherwise according to constraints.
-/
def kindOf (p : Predicate) (vars : List GradeVar) (x : String) : GradeKind :=
  (p.varOf vars x).kind

/--
The variables of a predicate that are up to the solver.
-/
def solverVars (p : Predicate) (vars : List GradeVar) : List Bound :=
  ((p.mentionedVars vars).filter (·.quantifier = .instantiated)).map fun v => (v.name, v.kind)

theorem MentionedNames.solverVars {p : Predicate} {names : List String} (h : MentionedNames p vars names)
    : p.solverVars vars = (names.filter (quantifierOf vars · = .instantiated)).map fun x => (x, p.kindOf vars x) := by
  unfold Predicate.solverVars
  rw [h.mentionedVars, List.filter_map, List.map_map]
  simp [Function.comp_def, quantifier_varOf, name_varOf, kindOf]

theorem listed_varOf (p : Predicate) (vars : List GradeVar) (names : List String)
    : Listed (names.map (p.varOf vars)) (p.kindOf vars) := by
  intro v hv
  obtain ⟨x, _, rfl⟩ := List.mem_map.mp hv
  rw [name_varOf]
  rfl

/--
If for all values of the universal variables there is one choice of values for the variables that are up to the solver
under which the predicate is true, then its formula is true.
-/
theorem isTrue_formula_of_choice (M : Model α) (p : Predicate) (vars : List GradeVar)
    (h : M.ForAll
      (fun a => M.ForSome (fun a => p.IsTrue M.toInterpretation (p.kindOf vars) a) (p.solverVars vars) a)
      (p.compile vars).universals [])
    : (p.compile vars).formula.IsTrue M.toInterpretation [] := by
  obtain ⟨names, hnames⟩ := exists_mentionedNames p vars
  have hfaithful := faithful (M := M) (listed_varOf p vars names) p hnames.ready.listed
  unfold Query.formula
  rw [Formula.isTrue_mkForAll]
  apply h.imp
  intro a hchoice
  rw [hnames.solverVars] at hchoice
  obtain ⟨b, htrue, hkept, hchosen⟩ := hchoice.exists_choice
  rw [hnames.body]
  apply hfaithful.preserves hnames.ready ⟨?_, ?_⟩ htrue
  . intro x _ hx
    apply hkept
    simpa using hx
  . intro x hx
    obtain ⟨kind, v, hmem, hlookup, hv⟩ := hchosen x (by simpa using hx)
    obtain ⟨_, _, heq⟩ := List.mem_map.mp hmem
    cases heq
    exact ⟨v, hlookup, hv⟩

/-- `x` is chosen once for all `m` at most `n`, and the formula asks for one that depends on `m`. -/
theorem isTrue_formula_of_upper_bound
    : (Formula.forAll [("n", .nat)] (.and [.forAll [("m", .nat)] (.implies (.atom (.le 0 (.var "m") (.var "n") .nat))
        (.forSome [("x", .nat)] (.atom (.le 0 (.var "m") (.var "x") .nat))))])).IsTrue .standard [] := by
  apply isTrue_formula_of_choice .standard
    (.conj [.impl [("m", .grade .nat)] (.atom (.le 0 (.var "m") (.var "n") .nat))
      (.atom (.le 0 (.var "m") (.var "x") .nat))])
    [⟨"n", .nat, .universal⟩, ⟨"m", .nat, .patternBound⟩, ⟨"x", .nat, .instantiated⟩]
  intro n hn
  refine ⟨n, hn, ⟨?_, trivial⟩⟩
  intro m hm h
  exact h

end Predicate
end GradedModal
