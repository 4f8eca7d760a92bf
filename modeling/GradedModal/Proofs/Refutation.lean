import GradedModal.Proofs.Quantifiers

/-!
This module says what a counterexample of the search refutes. Under its values the formula is false over the naturals
that were tried. It is false over larger sets of naturals as well if no natural had to be guessed: the values of
existential variables follow from equations, and those of universal variables in antecedents are levels.
-/

namespace GradedModal

/--
Variables range over a set of naturals and over all levels, and constraints are decided by evaluation.
-/
def Interpretation.over (S : Nat → Prop) : Interpretation Value where
  values
    | .level, .level _ => True
    | .float, .float _ => True
    | .nat, .nat n => S n
    | .var _, .nat n => S n
    | _, _ => False
  holds c a := c.holds a = .ok true

theorem Interpretation.over_extensional {S : Nat → Prop} : (Interpretation.over S).Extensional := by
  intro c a b h
  change c.holds a = .ok true ↔ c.holds b = .ok true
  rw [Constraint.holds_congr h]

namespace SearchM

open CheckM (bind_eq_ok pure_eq_ok throw_eq_ok)

variable {α β : Type} {x : SearchM α} {f : α → SearchM β} {a : α} {b : β}

def Answers (x : SearchM α) (a : α) : Prop :=
  ∃ p p', x p = .ok a p'

theorem answers_pure {a' : α} (h : Answers (pure a) a') : a = a' := by
  obtain ⟨p, p', h⟩ := h
  rw [pure_eq_ok] at h
  exact h.1

theorem not_answers_throw {e : Doubt} : ¬Answers (throw e) a := by
  rintro ⟨p, p', h⟩
  rw [throw_eq_ok] at h
  exact h

theorem answers_bind (h : Answers (x >>= f) b) : ∃ a, Answers x a ∧ Answers (f a) b := by
  obtain ⟨p, p', h⟩ := h
  rw [bind_eq_ok] at h
  obtain ⟨a, p₁, hx, hf⟩ := h
  exact ⟨a, ⟨p, p₁, hx⟩, p₁, p', hf⟩

theorem reads_answers : Reads (fun _ _ => True) @Answers where
  closed := ⟨fun _ _ => trivial, fun _ _ => trivial, fun _ _ _ => trivial, fun _ => trivial, fun _ => trivial⟩
  pure := answers_pure
  throw := not_answers_throw
  bind _ := answers_bind

end SearchM

namespace Search

open SearchM

structure Knows (known : List String) (a : Assignment) : Prop where
  words : a.AreWords
  isSome_iff : ∀ x, (a.lookup x).isSome = true ↔ x ∈ known

namespace Knows

variable {known names : List String} {a : Assignment} {x : String} {v : Value} {kind : GradeKind}

theorem nil : Knows [] [] :=
  ⟨fun _ _ h => (nomatch h), fun _ => by simp⟩

theorem cons (h : Knows known a) (x : String) (hv : kind.contains v = true) : Knows (x :: known) ((x, v) :: a) where
  words := h.words.cons x hv
  isSome_iff y := by
    rw [List.lookup_cons, List.mem_cons, ← h.isSome_iff y]
    by_cases hy : y = x
    . simp [hy]
    . simp [hy, beq_eq_false_iff_ne.mpr hy]

theorem congr (h : Knows names a) (hnames : ∀ x, x ∈ names ↔ x ∈ known) : Knows known a :=
  ⟨h.words, fun x => (h.isSome_iff x).trans (hnames x)⟩

end Knows

/--
The values that are tried are among those that variables range over. For some kinds they are all of them.
-/
structure Tries (s : Search) (S : Nat → Prop) (exhausted : GradeKind → Prop) : Prop where
  bounded : s.Bounded
  values : ∀ kind v, v ∈ s.universal.values kind → (Interpretation.over S).values kind v
  universal : ∀ kind v, exhausted kind → (Interpretation.over S).values kind v → v ∈ s.universal.values kind
  existential : ∀ kind v, exhausted kind → (Interpretation.over S).values kind v → v ∈ s.existential.values kind

section

variable {s : Search} {S : Nat → Prop} {exhausted : GradeKind → Prop} {check : Assignment → SearchM Bool}
variable {vars : List Bound} {a : Assignment} {known : List String} {P : Assignment → Prop}

-- The order in which variables become known does not matter.
theorem forAll_answers_true (hs : s.Tries S exhausted) (hvars : ∀ b ∈ vars, exhausted b.2) (ha : Knows known a)
    (hP : ∀ a, Knows (vars.map (·.1) ++ known) a → Answers (check a) true → P a)
    (h : Answers (s.forAll check vars a) true) : (Interpretation.over S).ForAll P vars a := by
  induction vars generalizing a known with
  | nil => exact hP a ha h
  | cons b vars ih =>
    obtain ⟨x, kind⟩ := b
    rw [List.forall_mem_cons] at hvars
    intro v hv
    have hmem := hs.universal kind v hvars.1 hv
    apply ih hvars.2 (ha.cons x (Domain.contains_of_mem hs.bounded.universal hmem))
    . intro a ha
      exact hP a (ha.congr (by simp [or_left_comm]))
    . exact reads_answers.runThrough (fun _ => trivial) (reads_answers.forAll_cons h).1 v hmem

theorem forAll_answers_false (hs : s.Tries S exhausted) (ha : Knows known a)
    (hP : ∀ a, Knows (vars.map (·.1) ++ known) a → Answers (check a) false → ¬P a)
    (h : Answers (s.forAll check vars a) false) : ¬(Interpretation.over S).ForAll P vars a := by
  induction vars generalizing a known with
  | nil => exact hP a ha h
  | cons b vars ih =>
    obtain ⟨x, kind⟩ := b
    obtain ⟨v, hv, h⟩ := reads_answers.runThrough (fun _ => trivial) (reads_answers.forAll_cons h).1
    intro hall
    apply ih (ha.cons x (Domain.contains_of_mem hs.bounded.universal hv)) _ h (hall v (hs.values kind v hv))
    intro a ha
    exact hP a (ha.congr (by simp [or_left_comm]))

theorem forSome_answers_false {f : String → Value} (hf : ∀ b ∈ vars, f b.1 ∈ s.existential.values b.2)
    (h : Answers (s.forSome check vars a) false) : Answers (check (Interpretation.assign f vars a)) false := by
  induction vars generalizing a with
  | nil => exact h
  | cons b vars ih =>
    obtain ⟨x, kind⟩ := b
    rw [List.forall_mem_cons] at hf
    unfold forSome at h
    exact ih hf.2 (reads_answers.runThrough (fun _ => trivial) h _ hf.1)

end

/--
An equation between a variable and a grade.
-/
def Equates (c : Constraint) (x : String) (g : Grade) : Prop :=
  c.left = .var x ∧ c.right = g ∨ c.right = .var x ∧ c.left = g

/--
The variables whose values follow from equations and from the values of known variables.
-/
inductive Determined (equations : List Constraint) (known : List String) : String → Prop where
  | known {x : String} : x ∈ known → Determined equations known x
  | equation {c : Constraint} {x : String} {g : Grade} : c ∈ equations → Equates c x g →
    (∀ y ∈ g.occurrences, Determined equations known y) → Determined equations known x

end Search

theorem Grade.evaluate_mono {a b : Assignment} {kind : GradeKind} {g : Grade} {v : Value}
    (hab : ∀ x v, a.lookup x = some v → b.lookup x = some v) (h : g.evaluate kind a = .ok v)
    : g.evaluate kind b = .ok v := by
  induction g generalizing v with
  | var x =>
    unfold evaluate at h ⊢
    split at h
    . next w hw =>
      rw [hab x w hw]
      exact h
    . cases h
  | op o g g' ihg ihg' =>
    obtain ⟨w, w', hw, hw', h⟩ := evaluate_op_eq_ok.mp h
    exact evaluate_op_eq_ok.mpr ⟨w, w', ihg hw, ihg' hw', h⟩
  | _ => exact h

theorem Constraint.exists_of_holds_eq {c : Constraint} {a : Assignment} (hkind : c.kind ≠ .float)
    (hrelation : c.relation = .eq) (h : c.holds a = .ok true)
    : ∃ v, c.left.evaluate c.kind a = .ok v ∧ c.right.evaluate c.kind a = .ok v := by
  unfold holds at h
  rw [hrelation] at h
  cases hleft : c.left.evaluate c.kind a with
  | error e =>
    rw [hleft] at h
    cases h
  | ok v =>
    cases hright : c.right.evaluate c.kind a with
    | error e =>
      rw [hleft, hright] at h
      cases h
    | ok w =>
      rw [hleft, hright] at h
      refine ⟨v, rfl, ?_⟩
      cases hc : c.kind with
      | float => exact absurd hc hkind
      | level =>
        rw [hc] at h
        cases v <;> cases w <;> simp_all [bind, Except.bind, Value.level?, Relation.onLevel, pure, Except.pure]
      | nat | var name =>
        rw [hc] at h
        cases v <;> cases w <;> simp_all [bind, Except.bind, Value.nat?, Relation.onNat, pure, Except.pure]

namespace Search

variable {equations : List Constraint} {pending rest : List Bound} {a a' b : Assignment} {c : Constraint} {x : String}
variable {v : Value} {known : List String}

theorem exists_equates_of_solve? (h : solve? pending a c = some (x, v))
    : ∃ g, Equates c x g ∧ x ∈ pending.map (·.1) ∧ g.evaluate c.kind a = .ok v := by
  unfold solve? at h
  rw [Option.or_eq_some_iff] at h
  obtain h | ⟨_, h⟩ := h
  . obtain ⟨hleft, hx, hv⟩ := solveSide?_eq_some h
    exact ⟨c.right, .inl ⟨hleft, rfl⟩, hx, hv⟩
  . obtain ⟨hright, hx, hv⟩ := solveSide?_eq_some h
    exact ⟨c.left, .inr ⟨hright, rfl⟩, hx, hv⟩

theorem solve?_ne_none {g : Grade} (hc : Equates c x g) (hx : x ∈ pending.map (·.1)) (hg : g.evaluate c.kind a = .ok v)
    : solve? pending a c ≠ none := by
  have hany : pending.any (·.1 = x) = true := by
    obtain ⟨b, hb, rfl⟩ := List.mem_map.mp hx
    exact List.any_eq_true.mpr ⟨b, hb, by simp⟩
  have hside : solveSide? pending a c.kind (.var x) g = some (x, v) := by
    dsimp only [solveSide?]
    rw [if_pos hany, hg]
  unfold solve?
  obtain ⟨hleft, hright⟩ | ⟨hright, hleft⟩ := hc
  . rw [hleft, hright, hside]
    simp
  . rw [hleft, hright, hside]
    simp

theorem lookup_propagate_go (hequations : ∀ c ∈ equations, c.kind ≠ .float ∧ c.relation = .eq ∧ c.holds b = .ok true)
    (n : Nat) (pending : List Bound) (ha : ∀ x v, a.lookup x = some v → b.lookup x = some v)
    : ∀ x v, (propagate.go equations n pending a).2.lookup x = some v → b.lookup x = some v := by
  induction n generalizing pending a with
  | zero => exact ha
  | succ n ih =>
    unfold propagate.go
    split
    . next x v hfind =>
      obtain ⟨c, hc, hsolve⟩ := List.exists_of_findSome?_eq_some hfind
      obtain ⟨g, hequates, _, hv⟩ := exists_equates_of_solve? hsolve
      obtain ⟨hkind, hrelation, hholds⟩ := hequations c hc
      obtain ⟨w, hleft, hright⟩ := Constraint.exists_of_holds_eq hkind hrelation hholds
      have hv := Grade.evaluate_mono ha hv
      have hx : (Grade.var x).evaluate c.kind b = .ok v := by
        obtain ⟨hl, rfl⟩ | ⟨hr, rfl⟩ := hequates
        . rw [← hl, hleft, ← hright, hv]
        . rw [← hr, hright, ← hleft, hv]
      apply ih
      intro y w hw
      rw [List.lookup_cons] at hw
      split at hw
      . next heq =>
        cases hw
        rw [eq_of_beq heq]
        unfold Grade.evaluate at hx
        split at hx
        . cases hx
          assumption
        . cases hx
      . exact ha y w hw
    . exact ha

theorem solve?_propagate_go (equations : List Constraint) (a : Assignment) (n : Nat) (hn : pending.length ≤ n)
    : ∀ c ∈ equations,
        solve? (propagate.go equations n pending a).1 (propagate.go equations n pending a).2 c = none := by
  induction n generalizing pending a with
  | zero =>
    obtain rfl := List.eq_nil_of_length_eq_zero (Nat.le_zero.mp hn)
    intro c _
    unfold propagate.go
    cases hsolve : solve? [] a c with
    | none => rfl
    | some found =>
      obtain ⟨g, _, hx, _⟩ := exists_equates_of_solve? hsolve
      cases hx
  | succ n ih =>
    unfold propagate.go
    split
    . next x v hfind =>
      obtain ⟨c, _, hsolve⟩ := List.exists_of_findSome?_eq_some hfind
      obtain ⟨g, _, hx, _⟩ := exists_equates_of_solve? hsolve
      obtain ⟨b, hb, rfl⟩ := List.mem_map.mp hx
      apply ih
      have hlength := List.length_eraseP_of_mem (p := fun b' => decide (b'.1 = b.1)) hb (by simp)
      omega
    . next hfind => exact List.findSome?_eq_none_iff.mp hfind

theorem lookup_propagate_go_rest (equations : List Constraint) (n : Nat) (hnodup : (pending.map (·.1)).Nodup)
    (ha : ∀ x ∈ pending.map (·.1), a.lookup x = none)
    : ∀ x ∈ (propagate.go equations n pending a).1.map (·.1),
        (propagate.go equations n pending a).2.lookup x = none := by
  induction n generalizing pending a with
  | zero => exact ha
  | succ n ih =>
    unfold propagate.go
    split
    . next x v _ =>
      have herase : (pending.eraseP (·.1 = x)).map (·.1) = (pending.map (·.1)).erase x := by
        rw [List.erase_eq_eraseP', List.eraseP_map]
        rfl
      apply ih
      . rw [herase]
        exact hnodup.erase x
      . intro y hy
        rw [herase, hnodup.mem_erase_iff] at hy
        rw [List.lookup_cons, beq_eq_false_iff_ne.mpr hy.1]
        exact ha y hy.2
    . exact ha

theorem isSome_of_determined (hsolved : ∀ c ∈ equations, solve? rest a c = none)
    (hab : ∀ x v, a.lookup x = some v → b.lookup x = some v)
    (hrest : ∀ x, (b.lookup x).isSome = true → x ∈ rest.map (·.1) ∨ (a.lookup x).isSome = true)
    (hequations : ∀ c ∈ equations, ∃ v, c.left.evaluate c.kind b = .ok v ∧ c.right.evaluate c.kind b = .ok v)
    (hknown : ∀ x ∈ known, (a.lookup x).isSome = true) (h : Determined equations known x)
    : (a.lookup x).isSome = true := by
  induction h with
  | known hx => exact hknown _ hx
  | @equation c x g hc hequates _ ih =>
    obtain ⟨v, hleft, hright⟩ := hequations c hc
    have hvalues : (Grade.var x).evaluate c.kind b = .ok v ∧ g.evaluate c.kind b = .ok v := by
      obtain ⟨hl, hr⟩ | ⟨hr, hl⟩ := hequates
      . rw [hl] at hleft
        rw [hr] at hright
        exact ⟨hleft, hright⟩
      . rw [hl] at hleft
        rw [hr] at hright
        exact ⟨hright, hleft⟩
    have hg : g.evaluate c.kind a = .ok v := by
      rw [← hvalues.2]
      apply Grade.evaluate_eq_of_occurrences
      intro y hy
      obtain ⟨w, hw⟩ := Option.isSome_iff_exists.mp (ih y hy)
      rw [hw, hab y w hw]
    have hx : (b.lookup x).isSome = true := by
      have hvar := hvalues.1
      unfold Grade.evaluate at hvar
      split at hvar
      . next w hw => simp [hw]
      . cases hvar
    obtain hx | hx := hrest x hx
    . exact absurd (hsolved c hc) (solve?_ne_none hequates hx hg)
    . exact hx

end Search

namespace Formula

open Search (Determined)

mutual

/--
An answer of the search to a formula can be trusted, whatever naturals variables may range over. Existential variables
are determined by equations unless all values of their kinds are tried, and so are all values of universal variables
where one of them could show that the answer is wrong.
-/
def Decisive (exhausted : GradeKind → Prop) : Formula → Bool → List String → Prop
  | .atom _, _, _ => True
  | .and items, answer, known => AllDecisive exhausted items answer known
  | .implies p q, answer, known => p.Decisive exhausted (!answer) known ∧ q.Decisive exhausted answer known
  | .forAll vars body, answer, known =>
    (answer = true → ∀ b ∈ vars, exhausted b.2) ∧ body.Decisive exhausted answer (vars.map (·.1) ++ known)
  | .forSome vars body, answer, known =>
    answer = false ∧ (vars.map (·.1)).Nodup ∧
      (∀ b ∈ vars, b.1 ∉ known ∧ (exhausted b.2 ∨ Determined body.equations known b.1)) ∧
      body.Decisive exhausted answer (vars.map (·.1) ++ known)

def AllDecisive (exhausted : GradeKind → Prop) : List Formula → Bool → List String → Prop
  | [], _, _ => True
  | f :: fs, answer, known => f.Decisive exhausted answer known ∧ AllDecisive exhausted fs answer known

end

theorem allDecisive_iff {exhausted : GradeKind → Prop} {fs : List Formula} {answer : Bool} {known : List String}
    : AllDecisive exhausted fs answer known ↔ ∀ f ∈ fs, f.Decisive exhausted answer known := by
  induction fs with
  | nil => simp [AllDecisive]
  | cons f fs ih => simp [AllDecisive, ih]

end Formula

namespace Search

open SearchM

variable {s : Search} {S : Nat → Prop} {exhausted : GradeKind → Prop} {kinds : String → GradeKind}
variable {vars : List Bound} {body : Formula} {known : List String}

structure Agrees (equations : List Constraint) (known : List String) (b : Assignment) (rest : List Bound)
    (a : Assignment) : Prop where
  same : ∀ x v, a.lookup x = some v → b.lookup x = some v
  assigned : ∀ x, (b.lookup x).isSome = true → x ∈ rest.map (·.1) ∨ (a.lookup x).isSome = true
  undetermined : ∀ x ∈ rest.map (·.1), ¬Determined equations known x

theorem propagate_agrees {equations : List Constraint} {a b a' : Assignment} {rest : List Bound}
    (ha : Knows known a) (hnodup : (vars.map (·.1)).Nodup) (hvars : ∀ x ∈ vars.map (·.1), x ∉ known)
    (hequations : ∀ c ∈ equations, c.WellKinded kinds ∧ c.relation = .eq ∧ c.holds b = .ok true)
    (hkept : ∀ x, x ∉ vars.map (·.1) → b.lookup x = a.lookup x) (h : propagate equations vars a = (rest, a'))
    : Agrees equations known b rest a' := by
  have hfloat : ∀ c ∈ equations, c.kind ≠ .float ∧ c.relation = .eq ∧ c.holds b = .ok true := by
    intro c hc
    refine ⟨?_, (hequations c hc).2⟩
    obtain hkind | hkind := (hequations c hc).1.kind
    . simp [hkind]
    . simp [hkind]
  have hfresh : ∀ x ∈ vars.map (·.1), a.lookup x = none := by
    intro x hx
    rw [← Option.not_isSome_iff_eq_none, ha.isSome_iff]
    exact hvars x hx
  have hab : ∀ x v, a.lookup x = some v → b.lookup x = some v := by
    intro x v hv
    rw [hkept x, hv]
    intro hx
    rw [hfresh x hx] at hv
    cases hv
  have hsolved := propagate_solved (fun c hc => ⟨(hequations c hc).1.left, (hequations c hc).1.right⟩) ha.words h
  unfold propagate at h
  have hsame := lookup_propagate_go hfloat vars.length vars hab
  have hend := solve?_propagate_go equations a _ (Nat.le_refl vars.length)
  have hrest := lookup_propagate_go_rest equations vars.length hnodup hfresh
  rw [h] at hsame hend hrest
  have hassigned : ∀ x, (b.lookup x).isSome = true → x ∈ rest.map (·.1) ∨ (a'.lookup x).isSome = true := by
    intro x hx
    by_cases hxrest : x ∈ rest.map (·.1)
    . exact .inl hxrest
    . right
      by_cases hxvars : x ∈ vars.map (·.1)
      . obtain ⟨_, _, _, v, hv⟩ := hsolved.solved x hxvars hxrest
        simp [hv]
      . rw [hsolved.kept x hxvars, ← hkept x hxvars]
        exact hx
  have hknown : ∀ x ∈ known, (a'.lookup x).isSome = true := by
    intro x hx
    rw [hsolved.kept x fun hxvars => hvars x hxvars hx]
    exact (ha.isSome_iff x).mpr hx
  refine ⟨hsame, hassigned, ?_⟩
  intro x hx hdetermined
  have hsome := isSome_of_determined hend hsame hassigned
    (fun c hc => Constraint.exists_of_holds_eq (hfloat c hc).1 (hfloat c hc).2.1 (hfloat c hc).2.2) hknown hdetermined
  rw [hrest x hx] at hsome
  cases hsome

theorem exists_tried_of_isTrue (hs : s.Tries S exhausted) (hvars : ∀ b ∈ vars, b.2 = kinds b.1)
    (hbody : body.Searchable kinds) {a : Assignment} (ha : Knows known a) (hnodup : (vars.map (·.1)).Nodup)
    (hdetermined : ∀ b ∈ vars, b.1 ∉ known ∧ (exhausted b.2 ∨ Determined body.equations known b.1))
    {rest : List Bound} {a' : Assignment} (hsolve : propagate body.equations vars a = (rest, a'))
    (htrue : (Formula.forSome vars body).IsTrue (.over S) a)
    : ∃ f : String → Value, (∀ b ∈ rest, f b.1 ∈ s.existential.values b.2) ∧
        Knows (vars.map (·.1) ++ known) (Interpretation.assign f rest a') ∧
        body.IsTrue (.over S) (Interpretation.assign f rest a') := by
  obtain ⟨b, hb, hkept, hchosen⟩ := Interpretation.ForSome.exists_choice htrue
  have hequations : ∀ c ∈ body.equations, c.WellKinded kinds ∧ c.relation = .eq ∧ c.holds b = .ok true :=
    fun c hc => ⟨Formula.wellKinded_of_mem_equations body hbody c hc, Formula.relation_of_mem_equations body hc,
      Formula.holds_of_mem_equations body hb c hc⟩
  have hfresh : ∀ x ∈ vars.map (·.1), x ∉ known := by
    intro x hx
    obtain ⟨bound, hbound, rfl⟩ := List.mem_map.mp hx
    exact (hdetermined bound hbound).1
  have hsolved := propagate_solved (fun c hc => ⟨(hequations c hc).1.left, (hequations c hc).1.right⟩) ha.words hsolve
  have hagrees := propagate_agrees ha hnodup hfresh hequations hkept hsolve
  let f : String → Value := fun x => (b.lookup x).getD (.nat 0)
  have hf : ∀ bound ∈ rest, b.lookup bound.1 = some (f bound.1) ∧ f bound.1 ∈ s.existential.values bound.2 := by
    intro bound hbound
    have hmem := hsolved.subset bound hbound
    obtain ⟨kind, v, hkind, hlookup, hv⟩ := hchosen bound.1 (List.mem_map_of_mem hmem)
    have hexhausted := (hdetermined bound hmem).2.resolve_right (hagrees.undetermined _ (List.mem_map_of_mem hbound))
    rw [hvars bound hmem, ← hvars _ hkind] at hexhausted ⊢
    simp only [f, hlookup, Option.getD_some, true_and]
    exact hs.existential kind v hexhausted hv
  have hsame : SameValues b (Interpretation.assign f rest a') := by
    intro x
    rw [Interpretation.lookup_assign]
    split
    . next hx =>
      obtain ⟨bound, hbound, rfl⟩ := List.mem_map.mp hx
      exact (hf bound hbound).1
    . next hx =>
      cases hlookup : a'.lookup x with
      | some v => exact hagrees.same x v hlookup
      | none =>
        rw [← Option.not_isSome_iff_eq_none]
        intro hsome
        obtain hmem | hsome := hagrees.assigned x hsome
        . exact hx hmem
        . rw [hlookup] at hsome
          cases hsome
  refine ⟨f, fun bound hbound => (hf bound hbound).2, ⟨?_, ?_⟩, ?_⟩
  . intro x v hv
    rw [Interpretation.lookup_assign] at hv
    split at hv
    . next hx =>
      obtain ⟨bound, hbound, rfl⟩ := List.mem_map.mp hx
      cases hv
      exact GradeKind.isWord_of_contains (Domain.contains_of_mem hs.bounded.existential (hf bound hbound).2)
    . exact hsolved.words x v hv
  . intro x
    rw [← hsame x, List.mem_append]
    by_cases hx : x ∈ vars.map (·.1)
    . obtain ⟨_, v, _, hv, _⟩ := hchosen x hx
      simp [hx, hv]
    . rw [hkept x hx, ha.isSome_iff]
      simp [hx]
  . exact (Formula.isTrue_congr Interpretation.over_extensional body hsame).mp hb

theorem eval_decisive (hs : s.Tries S exhausted) (f : Formula) (hf : f.Searchable kinds) {a : Assignment}
    (ha : Knows known a) {answer : Bool} (hdecisive : f.Decisive exhausted answer known)
    (h : Answers (s.eval f a) answer) : f.IsTrue (.over S) a ↔ answer = true := by
  induction f using Formula.induction generalizing a known answer with
  | atom c =>
    change c.holds a = .ok true ↔ answer = true
    rw [reads_answers.eval_atom h]
    simp
  | and items ih =>
    unfold eval at h
    unfold Formula.Decisive at hdecisive
    unfold Formula.Searchable at hf
    unfold Formula.IsTrue
    rw [Formula.allDecisive_iff] at hdecisive
    rw [Formula.allSearchable_iff] at hf
    rw [Formula.allTrue_iff]
    have h := reads_answers.evalAll h
    cases answer with
    | true =>
      simp only [iff_true]
      intro f hmem
      exact (ih f hmem (hf f hmem) ha (hdecisive f hmem) (h f hmem)).mpr rfl
    | false =>
      obtain ⟨f, hmem, h⟩ := h
      simp only [Bool.false_eq_true, iff_false]
      intro htrue
      cases (ih f hmem (hf f hmem) ha (hdecisive f hmem) h).mp (htrue f hmem)
  | implies p q ihp ihq =>
    unfold Formula.Decisive at hdecisive
    unfold Formula.Searchable at hf
    unfold Formula.IsTrue
    obtain ⟨hfirst, h⟩ | ⟨hfirst, rfl⟩ := reads_answers.eval_implies h
    . have hq := ihq hf.2.2 ha hdecisive.2 h
      cases answer with
      | true => exact ⟨fun _ => rfl, fun _ _ => hq.mpr rfl⟩
      | false =>
        have hp := (ihp hf.2.1 ha hdecisive.1 hfirst).mpr rfl
        exact ⟨fun himplies => hq.mp (himplies hp), fun h => absurd h Bool.false_ne_true⟩
    . have hp := mt (ihp hf.2.1 ha hdecisive.1 hfirst).mp Bool.false_ne_true
      exact ⟨fun _ => rfl, fun _ htrue => absurd htrue hp⟩
  | forAll vars body ih =>
    unfold eval at h
    unfold Formula.Decisive at hdecisive
    unfold Formula.Searchable at hf
    unfold Formula.IsTrue
    cases answer with
    | true =>
      simp only [iff_true]
      exact forAll_answers_true hs (hdecisive.1 rfl) ha (fun a ha h => (ih hf ha hdecisive.2 h).mpr rfl) h
    | false =>
      simp only [Bool.false_eq_true, iff_false]
      exact forAll_answers_false hs ha (fun a ha h => mt (ih hf ha hdecisive.2 h).mp Bool.false_ne_true) h
  | forSome vars body ih =>
    unfold Formula.Decisive at hdecisive
    unfold Formula.Searchable at hf
    obtain ⟨rfl, hnodup, hdetermined, hdecisive⟩ := hdecisive
    simp only [Bool.false_eq_true, iff_false]
    intro htrue
    unfold eval at h
    cases hsolve : propagate body.equations vars a with
    | mk rest a' =>
      rw [hsolve] at h
      obtain ⟨f, htried, hknows, hbody⟩ :=
        exists_tried_of_isTrue hs hf.1 hf.2 ha hnodup hdetermined hsolve htrue
      cases (ih hf.2 hknows hdecisive (forSome_answers_false htried h)).mp hbody

theorem over_values_of_mem {d : Domain} {kind : GradeKind} {v : Value} (hS : ∀ n ≤ d.upper, S n)
    (hv : v ∈ d.values kind) : (Interpretation.over S).values kind v := by
  cases kind with
  | level =>
    simp only [Domain.values, List.mem_cons, List.not_mem_nil, or_false] at hv
    obtain rfl | rfl | rfl := hv <;> trivial
  | float =>
    obtain ⟨x, _, rfl⟩ := List.mem_map.mp hv
    trivial
  | nat | var name =>
    obtain ⟨n, hn, rfl⟩ := List.mem_map.mp hv
    rw [List.mem_range'_1] at hn
    apply hS
    omega

theorem mem_of_over_values {d : Domain} {kind : GradeKind} {v : Value} (hkind : kind ≠ .float)
    (hS : kind = .level ∨ ∀ n, S n → n ≤ d.upper) (hv : (Interpretation.over S).values kind v)
    : v ∈ d.values kind := by
  cases kind with
  | float => exact absurd rfl hkind
  | level =>
    cases v with
    | level l => exact Domain.mem_of_level rfl
    | _ => cases hv
  | nat | var name =>
    obtain hS | hS := hS
    . cases hS
    . cases v with
      | nat n =>
        apply List.mem_map_of_mem
        rw [List.mem_range'_1]
        have hn := hS n hv
        omega
      | _ => cases hv

theorem tries_levels {b : Bounds} (hb : b.nat ≤ maxWord) (q : Query) (hS : ∀ n ≤ b.nat, S n)
    : (ofQuery b q).Tries S (· = .level) where
  bounded := bounded_ofQuery hb q
  values _ _ hv := over_values_of_mem hS hv
  universal kind v hkind hv := mem_of_over_values (by simp [hkind]) (.inl hkind) hv
  existential kind v hkind hv := mem_of_over_values (by simp [hkind]) (.inl hkind) hv

theorem tries_interval {b : Bounds} (hb : 2 * b.nat < maxWord) (q : Query)
    : (ofQuery b q).Tries (· ≤ b.nat) (· ≠ .float) where
  bounded := bounded_ofQuery (by omega) q
  values _ _ hv := over_values_of_mem (fun _ hn => hn) hv
  universal kind v hkind hv := mem_of_over_values hkind (.inr fun _ hn => hn) hv
  existential kind v hkind hv := by
    apply mem_of_over_values hkind (.inr _) hv
    intro n hn
    change n ≤ (2 * b.nat + 1) % (maxWord + 1)
    rw [Nat.mod_eq_of_lt (by omega)]
    omega

theorem falsify_answers_some (hs : s.Bounded) {a r : Assignment} (ha : Knows known a)
    (h : Answers (s.falsify body vars a) (some r))
    : ∃ ce : Assignment, r = ce.reverse ++ a ∧
        List.Forall₂ (fun b e => e.1 = b.1 ∧ e.2 ∈ s.universal.values b.2) vars ce ∧
        Knows (vars.map (·.1) ++ known) r ∧ Answers (s.eval body r) false := by
  induction vars generalizing a known with
  | nil =>
    obtain ⟨hr, hanswer⟩ := reads_answers.falsify_nil h
    cases hr
    exact ⟨[], rfl, .nil, ha, hanswer⟩
  | cons b vars ih =>
    obtain ⟨x, kind⟩ := b
    obtain ⟨v, hv, hfound⟩ := reads_answers.findFirst_some (fun _ => trivial) (reads_answers.falsify_cons h).1
    obtain ⟨ce, rfl, hce, hknows, h⟩ := ih (ha.cons x (Domain.contains_of_mem hs.universal hv)) hfound
    refine ⟨(x, v) :: ce, by simp, .cons ⟨rfl, hv⟩ hce, hknows.congr (by simp [or_left_comm]), h⟩

end Search

namespace Query

variable {q : Query} {b : Bounds} {ce : Assignment}

theorem answers_of_search (h : q.search b = .invalid ce)
    : SearchM.Answers ((Search.ofQuery b q).falsify q.body q.universals []) (some ce.reverse) := by
  unfold search at h
  split at h
  . next a p hrun =>
    cases h
    rw [List.reverse_reverse]
    exact ⟨_, p, hrun⟩
  . split at h
    . cases h
    . cases h
  . cases h

theorem not_isTrue_of_search {kinds : String → GradeKind} {S : Nat → Prop} {exhausted : GradeKind → Prop}
    (hq : q.body.Searchable kinds) (hs : (Search.ofQuery b q).Tries S exhausted)
    (hdecisive : q.body.Decisive exhausted false (q.universals.map (·.1))) (h : q.search b = .invalid ce)
    : ¬q.body.IsTrue (.over S) ce.reverse := by
  obtain ⟨_, _, _, hknows, hanswer⟩ := Search.falsify_answers_some hs.bounded .nil (answers_of_search h)
  rw [List.append_nil] at hknows
  exact mt (Search.eval_decisive hs q.body hq hknows hdecisive hanswer).mp Bool.false_ne_true

theorem values_of_search (hb : b.nat ≤ maxWord) (h : q.search b = .invalid ce)
    : List.Forall₂ (fun u e => e.1 = u.1 ∧ (Interpretation.over (· ≤ b.nat)).values u.2 e.2) q.universals ce := by
  obtain ⟨ce', hce', hvalues, _⟩ :=
    Search.falsify_answers_some (Search.bounded_ofQuery hb q) .nil (answers_of_search h)
  rw [List.append_nil, List.reverse_inj] at hce'
  rw [hce']
  refine hvalues.imp ?_
  intro u e he
  exact ⟨he.1, Search.over_values_of_mem (fun _ hn => hn) he.2⟩

end Query

namespace Formula

variable {exhausted : GradeKind → Prop} {vars : List Bound} {body : Formula} {answer : Bool} {known : List String}

theorem decisive_mkForAll (hvars : ∀ b ∈ vars, exhausted b.2)
    (hbody : body.Decisive exhausted answer (vars.map (·.1) ++ known))
    : (mkForAll vars body).Decisive exhausted answer known := by
  cases vars with
  | nil => exact hbody
  | cons b vars => exact ⟨fun _ => hvars, hbody⟩

theorem decisive_mkForSome (hanswer : answer = true → vars = []) (hnodup : (vars.map (·.1)).Nodup)
    (hvars : ∀ b ∈ vars, b.1 ∉ known ∧ exhausted b.2)
    (hbody : body.Decisive exhausted answer (vars.map (·.1) ++ known))
    : (mkForSome vars body).Decisive exhausted answer known := by
  cases vars with
  | nil => exact hbody
  | cons b vars =>
    have hanswer : answer = false := by simpa using hanswer
    exact ⟨hanswer, hnodup, fun b hb => ⟨(hvars b hb).1, .inl (hvars b hb).2⟩, hbody⟩

end Formula

namespace Predicate

theorem boundVarsAll_eq_flatMap {ps : List Predicate} : boundVarsAll ps = ps.flatMap boundVars := by
  induction ps with
  | nil => rfl
  | cons p ps ih => simp [boundVarsAll, ih]

variable {vars : List GradeVar} {kinds : String → GradeKind} {exhausted : GradeKind → Prop}

/--
The variables that are to be bound existentially are neither known nor bound by implications.
-/
structure Unbound (p : Predicate) (pending known : List String) : Prop where
  nodup : pending.Nodup
  unknown : ∀ x ∈ pending, x ∉ known
  boundVars : ∀ x ∈ pending, x ∉ p.boundVars

namespace Unbound

variable {p q : Predicate} {pending known : List String}

theorem nil : Unbound p [] known :=
  ⟨List.nodup_nil, fun _ hx => (nomatch hx), fun _ hx => (nomatch hx)⟩

theorem item {items : List Predicate} (h : Unbound (conj items) pending known) (hp : p ∈ items) (sinks : String → Bool)
    : Unbound p ((pending.filter sinks).filter (p.mentions ·)) (pending.filter (!sinks ·) ++ known) where
  nodup := (h.nodup.filter _).filter _
  unknown x hx := by
    simp only [List.mem_filter] at hx
    simp [hx.1.2, h.unknown x hx.1.1]
  boundVars x hx hbound := by
    simp only [List.mem_filter] at hx
    apply h.boundVars x hx.1.1
    unfold Predicate.boundVars
    rw [boundVarsAll_eq_flatMap, List.mem_flatMap]
    exact ⟨p, hp, hbound⟩

theorem consequent {bound : List (String × Kind)} {names : List String} (h : Unbound (impl bound p q) pending known)
    (hnames : ∀ x ∈ names, x ∈ bound.map (·.1))
    : Unbound q (pending.filter (!p.mentions ·)) (names ++ (pending.filter (p.mentions ·) ++ known)) where
  nodup := h.nodup.filter _
  unknown x hx := by
    simp only [List.mem_filter, Bool.not_eq_true'] at hx
    simp only [List.mem_append, not_or]
    refine ⟨?_, by simp [hx.2], h.unknown x hx.1⟩
    intro hmem
    apply h.boundVars x hx.1
    unfold Predicate.boundVars
    exact List.mem_append_left _ (List.mem_append_left _ (hnames x hmem))
  boundVars x hx hbound := by
    apply h.boundVars x (List.mem_filter.mp hx).1
    unfold Predicate.boundVars
    exact List.mem_append_right _ hbound

end Unbound

theorem decisive_mkForSome_bindAll (hvars : Listed vars kinds) {p : Predicate} {pending known here : List String}
    {answer : Bool} {body : Formula} (hready : Ready vars p pending)
    (hkinds : ∀ x, p.mentions x = true → exhausted (kinds x)) (hunbound : Unbound p pending known)
    (hanswer : answer = true → pending = []) (hhere : here.Sublist pending)
    (hbody : body.Decisive exhausted answer (here ++ known))
    : (Formula.mkForSome (bindAll vars here) body).Decisive exhausted answer known := by
  have hmap := hready.map_bindAll fun x hx => hhere.subset hx
  apply Formula.decisive_mkForSome
  . intro h
    rw [hanswer h] at hhere
    rw [List.eq_nil_of_sublist_nil hhere]
    rfl
  . rw [hmap]
    exact hhere.nodup hunbound.nodup
  . intro b hb
    have hx : b.1 ∈ pending := by
      apply hhere.subset
      rw [← hmap]
      exact List.mem_map_of_mem hb
    rw [kind_of_mem_bindAll hvars b hb]
    exact ⟨hunbound.unknown _ hx, hkinds _ (hready.pending _ hx)⟩
  . rw [hmap]
    exact hbody

theorem decisive_quantify (hvars : Listed vars kinds) (p : Predicate) {pending known : List String} {answer : Bool}
    (hready : Ready vars p pending) (hkinds : ∀ x, p.mentions x = true → exhausted (kinds x))
    (hunbound : Unbound p pending known) (hanswer : answer = true → pending = [])
    : (quantify vars p pending).Decisive exhausted answer known := by
  induction p using Predicate.induction generalizing pending known answer with
  | atom c =>
    unfold quantify
    exact decisive_mkForSome_bindAll hvars hready hkinds hunbound hanswer (List.Sublist.refl _) trivial
  | conj items ih =>
    unfold quantify
    apply decisive_mkForSome_bindAll hvars hready hkinds hunbound hanswer List.filter_sublist
    unfold Formula.Decisive
    rw [Formula.allDecisive_iff, quantifyAll_eq_map]
    intro f hf
    obtain ⟨p, hp, rfl⟩ := List.mem_map.mp hf
    apply ih p hp (hready.item hp) _ (hunbound.item hp _)
    . intro h
      rw [hanswer h]
      rfl
    . intro x hx
      apply hkinds
      rw [mentions_conj, List.any_eq_true]
      exact ⟨p, hp, hx⟩
  | impl bound antecedent consequent iha ihc =>
    have hmentions : ∀ x, (antecedent.mentions x || consequent.mentions x) = true → exhausted (kinds x) := by
      intro x hx
      apply hkinds
      rw [mentions_impl]
      exact hx
    have hmap : (bindAll vars
        ((bound.map (·.1)).filter fun x => antecedent.mentions x || consequent.mentions x)).map (·.1)
          = (bound.map (·.1)).filter fun x => antecedent.mentions x || consequent.mentions x := by
      apply map_bindAll
      intro x hx
      apply hready.listed
      rw [mentions_impl]
      exact (List.mem_filter.mp hx).2
    unfold quantify
    apply decisive_mkForSome_bindAll hvars hready hkinds hunbound hanswer List.filter_sublist
    apply Formula.decisive_mkForAll
    . intro b hb
      have hx := List.mem_map_of_mem (f := (·.1)) hb
      rw [hmap] at hx
      rw [kind_of_mem_bindAll hvars b hb]
      exact hmentions _ (List.mem_filter.mp hx).2
    . rw [hmap]
      constructor
      . exact iha hready.antecedent (fun x hx => hmentions x (by simp [hx])) .nil (fun _ => rfl)
      . apply ihc hready.consequent (fun x hx => hmentions x (by simp [hx]))
        . exact hunbound.consequent fun x hx => (List.mem_filter.mp hx).1
        . intro h
          rw [hanswer h]
          rfl

theorem decisive_compile {p : Predicate} (hp : p.WellKinded vars kinds)
    (hbound : ∀ x ∈ p.boundVars, quantifierOf vars x ≠ .instantiated)
    : (p.compile vars).body.Decisive (· ≠ .float) false ((p.compile vars).universals.map (·.1)) := by
  obtain ⟨names, hnames⟩ := exists_mentionedNames p vars
  have hlisted := listed_mentionedVars hp
  rw [hnames.mentionedVars] at hlisted
  rw [hnames.body, hnames.map_universals]
  apply decisive_quantify hlisted p hnames.ready
  . intro x hx
    obtain ⟨c, hc, hx⟩ := List.any_eq_true.mp hx
    have hc := hp.constraints c hc
    rw [hc.vars x (List.contains_iff_mem.mp hx)]
    obtain hkind | hkind := hc.kind
    . simp [hkind]
    . simp [hkind]
  . refine ⟨hnames.nodup.filter _, ?_, ?_⟩
    . intro x hx
      simp only [List.mem_filter, decide_eq_true_eq] at hx
      simp [isOutermost, hx.2]
    . intro x hx hmem
      simp only [List.mem_filter, decide_eq_true_eq] at hx
      exact hbound x hmem hx.2
  . simp

/--
A counterexample gives values up to the bound to the universal variables, under which the body is false as long as
variables range over the naturals up to the bound. If the answer does not depend on a guess at a natural, then the body
is false over all larger sets of naturals as well.
-/
theorem not_isTrue_of_refuted (p : Predicate) (vars : List GradeVar) (kinds : String → GradeKind)
    (hp : p.WellKinded vars kinds) (b : Bounds) (hb : b.nat ≤ maxWord) (ce : Assignment)
    (h : (p.compile vars).search b = .invalid ce)
    : List.Forall₂ (fun u e => e.1 = u.1 ∧ (Interpretation.over (· ≤ b.nat)).values u.2 e.2)
        (p.compile vars).universals ce ∧
      (2 * b.nat < maxWord → (∀ x ∈ p.boundVars, quantifierOf vars x ≠ .instantiated) →
        ¬(p.compile vars).body.IsTrue (.over (· ≤ b.nat)) ce.reverse) ∧
      ((p.compile vars).body.Decisive (· = .level) false ((p.compile vars).universals.map (·.1)) →
        ∀ S : Nat → Prop, (∀ n ≤ b.nat, S n) → ¬(p.compile vars).body.IsTrue (.over S) ce.reverse) := by
  have hsearchable := searchable_compile hp
  refine ⟨Query.values_of_search hb h, ?_, ?_⟩
  . intro hb hbound
    exact Query.not_isTrue_of_search hsearchable (Search.tries_interval hb _) (decisive_compile hp hbound) h
  . intro hdecisive S hS
    exact Query.not_isTrue_of_search hsearchable (Search.tries_levels hb _ hS) hdecisive h

/-- `m = n + 1`, and `m <= 3` for each level `l` that is at most visible -/
def nextBelow : Predicate :=
  .conj [.atom (.eq 0 (.var "m") (.op .plus (.var "n") (.nat 1)) .nat),
    .impl [("l", .grade .level)] (.atom (.le 0 (.var "l") (.level .visible) .level))
      (.atom (.le 0 (.var "m") (.nat 3) .nat))]

/-- The only `m` that could be right for `n = 3` is 4, whether it is tried or not. -/
theorem not_isTrue_of_refuted_nextBelow
    : (nextBelow.compile [⟨"n", .nat, .universal⟩, ⟨"l", .level, .patternBound⟩]).search .standard
        = .invalid [("n", .nat 3)] ∧
      ¬(nextBelow.compile [⟨"n", .nat, .universal⟩, ⟨"l", .level, .patternBound⟩]).body.IsTrue (.over fun _ => True)
        [("n", .nat 3)] := by
  have hsearch : (nextBelow.compile [⟨"n", .nat, .universal⟩, ⟨"l", .level, .patternBound⟩]).search .standard
      = .invalid [("n", .nat 3)] := by decide +kernel
  refine ⟨hsearch, (not_isTrue_of_refuted nextBelow _ (fun x => if x = "l" then .level else .nat) ⟨?_, ?_⟩ .standard
    (by decide) _ hsearch).2.2 ?_ _ (fun _ _ => trivial)⟩
  . intro x v hv
    have hmem := List.mem_of_find?_eq_some hv
    rw [← name_of_find? hv]
    simp only [List.mem_cons, List.not_mem_nil, or_false] at hmem
    obtain rfl | rfl := hmem <;> rfl
  . intro c hc
    simp only [nextBelow, constraints, constraintsAll, List.append_nil, List.cons_append, List.nil_append,
      List.mem_cons, List.not_mem_nil, or_false] at hc
    obtain rfl | rfl | rfl := hc
    . exact ⟨.inl rfl, by decide, rfl, rfl⟩
    . exact ⟨.inr rfl, by decide, rfl, rfl⟩
    . exact ⟨.inl rfl, by decide, rfl, rfl⟩
  . refine ⟨rfl, by decide, ?_, trivial, ⟨by rintro ⟨⟩, trivial, trivial⟩, trivial⟩
    intro b hb
    obtain rfl := List.mem_singleton.mp hb
    refine ⟨by decide, .inr (.equation List.mem_cons_self (.inl ⟨rfl, rfl⟩) ?_)⟩
    intro y hy
    obtain rfl := List.mem_singleton.mp hy
    exact .known (by decide)

/-- `40 <= m` is true of some natural, but not of one that is tried. -/
theorem refuted_by_narrow_search
    : (compile (.atom (.le 0 (.nat 40) (.var "m") .nat)) [⟨"m", .nat, .instantiated⟩]).search .standard = .invalid [] ∧
      (compile (.atom (.le 0 (.nat 40) (.var "m") .nat)) [⟨"m", .nat, .instantiated⟩]).body.IsTrue
        (.over fun _ => True) [] :=
  ⟨by decide +kernel, .nat 40, trivial, rfl⟩

end Predicate
end GradedModal
