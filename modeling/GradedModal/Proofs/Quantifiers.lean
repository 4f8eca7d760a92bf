import Mathlib
import GradedModal.Proofs.Validity

/-!
This module says where compiling a predicate puts its quantifiers: each variable that is up to the solver is bound once,
as far inside as antecedents allow, and nothing is left free but variables that have left their implications.
-/

namespace GradedModal

theorem Predicate.induction {motive : Predicate → Prop} (atom : ∀ c, motive (.atom c))
    (conj : ∀ items, (∀ p ∈ items, motive p) → motive (.conj items))
    (impl : ∀ bound antecedent consequent, motive antecedent → motive consequent →
      motive (.impl bound antecedent consequent))
    (p : Predicate) : motive p :=
  @Predicate.rec motive (fun ps => ∀ p ∈ ps, motive p) atom conj impl (fun _ h => nomatch h)
    (fun _ _ hp hps => List.forall_mem_cons.mpr ⟨hp, hps⟩) p

namespace Formula

mutual

/--
What remains of a formula without its quantifiers.
-/
def matrix : Formula → Formula
  | .atom c => .atom c
  | .and items => .and (matrixAll items)
  | .implies p q => .implies p.matrix q.matrix
  | .forAll _ body => body.matrix
  | .forSome _ body => body.matrix

def matrixAll : List Formula → List Formula
  | [] => []
  | f :: fs => f.matrix :: matrixAll fs

end

mutual

/--
How many constraints mention a variable.
-/
def occurrences (x : String) : Formula → Nat
  | .atom c => if c.mentions x then 1 else 0
  | .and items => occurrencesAll x items
  | .implies p q => p.occurrences x + q.occurrences x
  | .forAll _ body => body.occurrences x
  | .forSome _ body => body.occurrences x

def occurrencesAll (x : String) : List Formula → Nat
  | [] => 0
  | f :: fs => f.occurrences x + occurrencesAll x fs

end

mutual

/--
The variables that existential quantifiers bind, one entry for each time that one is bound.
-/
def existentials : Formula → List String
  | .atom _ => []
  | .and items => existentialsAll items
  | .implies p q => p.existentials ++ q.existentials
  | .forAll _ body => body.existentials
  | .forSome vars body => vars.map (·.1) ++ body.existentials

def existentialsAll : List Formula → List String
  | [] => []
  | f :: fs => f.existentials ++ existentialsAll fs

end

mutual

/--
Some constraint mentions the variable outside of all quantifiers that bind it.
-/
def Free (x : String) : Formula → Prop
  | .atom c => c.mentions x = true
  | .and items => FreeInSome x items
  | .implies p q => p.Free x ∨ q.Free x
  | .forAll vars body => x ∉ vars.map (·.1) ∧ body.Free x
  | .forSome vars body => x ∉ vars.map (·.1) ∧ body.Free x

def FreeInSome (x : String) : List Formula → Prop
  | [] => False
  | f :: fs => f.Free x ∨ FreeInSome x fs

end

def Closed (f : Formula) : Prop :=
  ∀ x, ¬f.Free x

/--
The formulas that a formula is made of.
-/
inductive Part : Formula → Formula → Prop where
  | refl {f : Formula} : Part f f
  | item {f g : Formula} {items : List Formula} : f ∈ items → Part f g → Part (.and items) g
  | antecedent {p q g : Formula} : Part p g → Part (.implies p q) g
  | consequent {p q g : Formula} : Part q g → Part (.implies p q) g
  | forAll {vars : List Bound} {body g : Formula} : Part body g → Part (.forAll vars body) g
  | forSome {vars : List Bound} {body g : Formula} : Part body g → Part (.forSome vars body) g

/--
The parts of a formula that are not inside the antecedent of an implication.
-/
inductive OpenPart : Formula → Formula → Prop where
  | refl {f : Formula} : OpenPart f f
  | item {f g : Formula} {items : List Formula} : f ∈ items → OpenPart f g → OpenPart (.and items) g
  | consequent {p q g : Formula} : OpenPart q g → OpenPart (.implies p q) g
  | forAll {vars : List Bound} {body g : Formula} : OpenPart body g → OpenPart (.forAll vars body) g
  | forSome {vars : List Bound} {body g : Formula} : OpenPart body g → OpenPart (.forSome vars body) g

/--
A formula binds a variable by one existential quantifier, outside of antecedents and around all of its occurrences. No
consequent of an implication in the scope of the quantifier contains all of them, as far as `IsPart` looks for
implications there.
-/
structure BindsOnce (IsPart : Formula → Formula → Prop) (f : Formula) (x : String) : Prop where
  once : f.existentials.count x = 1
  innermost : ∃ vars scope, f.OpenPart (.forSome vars scope) ∧ x ∈ vars.map (·.1) ∧
    scope.occurrences x = f.occurrences x ∧
    ∀ p q, IsPart scope (.implies p q) → q.occurrences x ≠ f.occurrences x

variable {x : String} {vars : List Bound} {f g : Formula} {fs : List Formula}

theorem matrixAll_eq_map : matrixAll fs = fs.map matrix := by
  induction fs with
  | nil => rfl
  | cons f fs ih => simp [matrixAll, ih]

theorem occurrencesAll_eq_sum : occurrencesAll x fs = (fs.map (occurrences x)).sum := by
  induction fs with
  | nil => rfl
  | cons f fs ih => simp [occurrencesAll, ih]

theorem existentialsAll_eq_flatMap : existentialsAll fs = fs.flatMap existentials := by
  induction fs with
  | nil => rfl
  | cons f fs ih => simp [existentialsAll, ih]

theorem freeInSome_iff : FreeInSome x fs ↔ ∃ f ∈ fs, f.Free x := by
  induction fs with
  | nil => simp [FreeInSome]
  | cons f fs ih => simp [FreeInSome, ih]

theorem matrix_mkForAll : (mkForAll vars f).matrix = f.matrix := by
  unfold mkForAll
  split <;> rfl

theorem matrix_mkForSome : (mkForSome vars f).matrix = f.matrix := by
  unfold mkForSome
  split <;> rfl

theorem existentials_mkForAll : (mkForAll vars f).existentials = f.existentials := by
  unfold mkForAll
  split <;> rfl

theorem existentials_mkForSome : (mkForSome vars f).existentials = vars.map (·.1) ++ f.existentials := by
  cases vars <;> rfl

theorem free_mkForAll : (mkForAll vars f).Free x ↔ x ∉ vars.map (·.1) ∧ f.Free x := by
  cases vars with
  | nil => simp [mkForAll]
  | cons b vars => simp [mkForAll, Free]

theorem free_mkForSome : (mkForSome vars f).Free x ↔ x ∉ vars.map (·.1) ∧ f.Free x := by
  cases vars with
  | nil => simp [mkForSome]
  | cons b vars => simp [mkForSome, Free]

theorem occurrences_matrix (f : Formula) : f.matrix.occurrences x = f.occurrences x := by
  induction f using Formula.induction with
  | atom c => rfl
  | and items ih =>
    simp only [matrix, occurrences, matrixAll_eq_map, occurrencesAll_eq_sum, List.map_map]
    congr 1
    exact List.map_congr_left ih
  | implies p q ihp ihq => simp [matrix, occurrences, ihp, ihq]
  | forAll vars body ih => exact ih
  | forSome vars body ih => exact ih

namespace OpenPart

theorem occurrences_le (h : f.OpenPart g) : g.occurrences x ≤ f.occurrences x := by
  induction h with
  | refl => apply Nat.le_refl
  | item hmem _ ih =>
    simp only [occurrences, occurrencesAll_eq_sum]
    exact Nat.le_trans ih (List.le_sum_of_mem (List.mem_map_of_mem hmem))
  | consequent _ ih => exact Nat.le_trans ih (Nat.le_add_left _ _)
  | forAll _ ih => exact ih
  | forSome _ ih => exact ih

theorem of_mkForAll {p q : Formula} (h : (mkForAll vars f).OpenPart (.implies p q)) : f.OpenPart (.implies p q) := by
  unfold mkForAll at h
  split at h
  . exact h
  . cases h
    assumption

theorem of_mkForSome {p q : Formula} (h : (mkForSome vars f).OpenPart (.implies p q)) : f.OpenPart (.implies p q) := by
  unfold mkForSome at h
  split at h
  . exact h
  . cases h
    assumption

theorem mkForAll (h : f.OpenPart g) : (Formula.mkForAll vars f).OpenPart g := by
  unfold Formula.mkForAll
  split
  . exact h
  . exact .forAll h

theorem mkForSome (h : f.OpenPart g) : (Formula.mkForSome vars f).OpenPart g := by
  unfold Formula.mkForSome
  split
  . exact h
  . exact .forSome h

end OpenPart

end Formula

namespace Predicate

mutual

/--
A predicate as a formula without quantifiers.
-/
def matrix : Predicate → Formula
  | .atom c => .atom c
  | .conj items => .and (matrixAll items)
  | .impl _ antecedent consequent => .implies antecedent.matrix consequent.matrix

def matrixAll : List Predicate → List Formula
  | [] => []
  | p :: ps => p.matrix :: matrixAll ps

end

mutual

/--
Some constraint mentions the variable outside of all implications that bind it.
-/
def Free (x : String) : Predicate → Prop
  | .atom c => c.mentions x = true
  | .conj items => FreeInSome x items
  | .impl bound antecedent consequent => x ∉ bound.map (·.1) ∧ (antecedent.Free x ∨ consequent.Free x)

def FreeInSome (x : String) : List Predicate → Prop
  | [] => False
  | p :: ps => p.Free x ∨ FreeInSome x ps

end

/--
How a variable is to be quantified, according to a list of variables. One that is not listed is up to the solver.
-/
def quantifierOf (vars : List GradeVar) (x : String) : Quantifier :=
  ((vars.find? (·.name = x)).map (·.quantifier)).getD .instantiated

variable {x : String} {vars : List GradeVar} {pending : List String} {p : Predicate} {ps : List Predicate}

theorem matrixAll_eq_map : matrixAll ps = ps.map matrix := by
  induction ps with
  | nil => rfl
  | cons p ps ih => simp [matrixAll, ih]

theorem freeInSome_iff : FreeInSome x ps ↔ ∃ p ∈ ps, p.Free x := by
  induction ps with
  | nil => simp [FreeInSome]
  | cons p ps ih => simp [FreeInSome, ih]

theorem constraintsAll_eq_flatMap : constraintsAll ps = ps.flatMap constraints := by
  induction ps with
  | nil => rfl
  | cons p ps ih => simp [constraintsAll, ih]

theorem quantifyAll_eq_map {sunk : List String}
    : quantifyAll vars ps sunk = ps.map fun p => quantify vars p (sunk.filter (p.mentions ·)) := by
  induction ps with
  | nil => rfl
  | cons p ps ih => simp [quantifyAll, ih]

theorem mentions_conj : (conj ps).mentions x = ps.any (·.mentions x) := by
  simp [mentions, constraints, constraintsAll_eq_flatMap, List.any_flatMap]

theorem mentions_impl {bound : List (String × Kind)} {q : Predicate}
    : (impl bound p q).mentions x = (p.mentions x || q.mentions x) := by
  simp [mentions, constraints, List.any_append]

theorem mentions_of_free (p : Predicate) (h : p.Free x) : p.mentions x = true := by
  induction p using Predicate.induction with
  | atom c => simpa [mentions, constraints, Free] using h
  | conj items ih =>
    obtain ⟨p, hp, h⟩ := freeInSome_iff.mp h
    rw [mentions_conj, List.any_eq_true]
    exact ⟨p, hp, ih p hp h⟩
  | impl bound antecedent consequent iha ihc =>
    rw [mentions_impl, Bool.or_eq_true]
    exact h.2.imp iha ihc

theorem occurrences_pos_iff (p : Predicate) : 0 < p.matrix.occurrences x ↔ p.mentions x = true := by
  induction p using Predicate.induction with
  | atom c =>
    simp only [matrix, Formula.occurrences, mentions, constraints, List.any_cons, List.any_nil, Bool.or_false]
    split <;> simp_all
  | conj items ih =>
    simp only [matrix, Formula.occurrences, matrixAll_eq_map, Formula.occurrencesAll_eq_sum, mentions_conj,
      List.map_map, List.any_eq_true]
    rw [Nat.pos_iff_ne_zero, ne_eq, List.sum_eq_zero_iff]
    simp only [List.mem_map, not_forall]
    constructor
    . rintro ⟨_, ⟨p, hp, rfl⟩, h⟩
      exact ⟨p, hp, (ih p hp).mp (Nat.pos_of_ne_zero h)⟩
    . rintro ⟨p, hp, h⟩
      exact ⟨_, ⟨p, hp, rfl⟩, Nat.ne_of_gt ((ih p hp).mpr h)⟩
  | impl bound antecedent consequent iha ihc =>
    simp only [matrix, Formula.occurrences, mentions_impl, Bool.or_eq_true, ← iha, ← ihc]
    omega

theorem matrix_quantify (vars : List GradeVar) (p : Predicate) (pending : List String)
    : (quantify vars p pending).matrix = p.matrix := by
  induction p using Predicate.induction generalizing pending with
  | atom c =>
    unfold quantify
    apply Formula.matrix_mkForSome
  | conj items ih =>
    unfold quantify
    simp only [Formula.matrix_mkForSome, Formula.matrix, matrix, Formula.matrixAll_eq_map, matrixAll_eq_map,
      quantifyAll_eq_map, List.map_map]
    congr 1
    exact List.map_congr_left fun p hp => ih p hp _
  | impl bound antecedent consequent iha ihc =>
    unfold quantify
    simp only [Formula.matrix_mkForSome, Formula.matrix_mkForAll, Formula.matrix, matrix, iha, ihc]

theorem occurrences_quantify (vars : List GradeVar) (p : Predicate) (pending : List String)
    : (quantify vars p pending).occurrences x = p.matrix.occurrences x := by
  rw [← Formula.occurrences_matrix, matrix_quantify]

structure Ready (vars : List GradeVar) (p : Predicate) (pending : List String) : Prop where
  listed : ∀ x, p.mentions x = true → x ∈ vars.map (·.name)
  pending : ∀ x ∈ pending, p.mentions x = true

namespace Ready

variable {bound : List (String × Kind)} {q : Predicate}

theorem item {sunk : List String} (h : Ready vars (conj ps) pending) (hp : p ∈ ps)
    : Ready vars p (sunk.filter (p.mentions ·)) where
  listed x hx := by
    apply h.listed
    rw [mentions_conj, List.any_eq_true]
    exact ⟨p, hp, hx⟩
  pending x hx := (List.mem_filter.mp hx).2

theorem antecedent (h : Ready vars (impl bound p q) pending) : Ready vars p [] where
  listed x hx := by
    apply h.listed
    simp [mentions_impl, hx]
  pending x hx := nomatch hx

theorem consequent (h : Ready vars (impl bound p q) pending) : Ready vars q (pending.filter (!p.mentions ·)) where
  listed x hx := by
    apply h.listed
    simp [mentions_impl, hx]
  pending x hx := by
    simp only [List.mem_filter, Bool.not_eq_true'] at hx
    have hmention := h.pending x hx.1
    rw [mentions_impl, hx.2] at hmention
    exact hmention

end Ready

theorem map_bindAll (names : List String) (h : ∀ x ∈ names, x ∈ vars.map (·.name))
    : (bindAll vars names).map (·.1) = names := by
  induction names with
  | nil => rfl
  | cons x names ih =>
    rw [List.forall_mem_cons] at h
    obtain ⟨v, hv, rfl⟩ := List.mem_map.mp h.1
    have hfind : (vars.find? (·.name = v.name)).isSome := by
      rw [List.find?_isSome]
      exact ⟨v, hv, by simp⟩
    obtain ⟨w, hw⟩ := Option.isSome_iff_exists.mp hfind
    have ih := ih h.2
    unfold bindAll at ih ⊢
    simp [hw, ih]

theorem Ready.map_bindAll {p : Predicate} (h : Ready vars p pending) {names : List String}
    (hnames : ∀ x ∈ names, x ∈ pending) : (bindAll vars names).map (·.1) = names :=
  Predicate.map_bindAll names fun x hx => h.listed x (h.pending x (hnames x hx))

theorem count_filter_eq_ite (names : List String) (keep : String → Bool)
    : (names.filter keep).count x = if keep x then names.count x else 0 := by
  split
  . next h => exact List.count_filter h
  . next h => exact List.count_eq_zero.mpr fun hx => h (List.mem_filter.mp hx).2

theorem sum_map_ite {α : Type} (l : List α) (keep : α → Bool) (n : Nat)
    : (l.map fun a => if keep a then n else 0).sum = (l.filter keep).length * n := by
  induction l with
  | nil => simp
  | cons a l ih =>
    rw [List.map_cons, List.sum_cons, ih, List.filter_cons]
    split
    . rw [List.length_cons, Nat.succ_mul, Nat.add_comm]
    . rw [Nat.zero_add]

theorem exists_of_sinks {items : List Predicate} (h : sinks items x = true)
    : ∃ item, items.filter (·.mentions x) = [item] ∧ item.canSink x = true := by
  unfold sinks at h
  split at h
  . next item hitem => exact ⟨item, hitem, h⟩
  . cases h

theorem count_existentials_quantify (p : Predicate) (h : Ready vars p pending)
    : (quantify vars p pending).existentials.count x = pending.count x := by
  induction p using Predicate.induction generalizing pending with
  | atom c =>
    unfold quantify
    rw [Formula.existentials_mkForSome, h.map_bindAll fun _ hx => hx]
    simp [Formula.existentials]
  | conj items ih =>
    unfold quantify
    dsimp only
    rw [Formula.existentials_mkForSome, h.map_bindAll fun _ hx => (List.mem_filter.mp hx).1]
    simp only [Formula.existentials, Formula.existentialsAll_eq_flatMap, quantifyAll_eq_map, List.flatMap_map,
      List.count_append, List.count_flatMap]
    have hitems : ∀ sunk : List String,
        (items.map fun p => (quantify vars p (sunk.filter (p.mentions ·))).existentials.count x)
          = items.map fun p => if p.mentions x then sunk.count x else 0 := by
      intro sunk
      apply List.map_congr_left
      intro p hp
      rw [ih p hp (h.item hp), count_filter_eq_ite]
    simp only [Function.comp_def, hitems, sum_map_ite, count_filter_eq_ite]
    cases hsinks : sinks items x with
    | false => simp
    | true =>
      obtain ⟨item, hitem, _⟩ := exists_of_sinks hsinks
      simp [hitem]
  | impl bound antecedent consequent iha ihc =>
    unfold quantify
    dsimp only
    rw [Formula.existentials_mkForSome, h.map_bindAll fun _ hx => (List.mem_filter.mp hx).1]
    simp only [Formula.existentials_mkForAll, Formula.existentials, List.count_append, iha h.antecedent,
      ihc h.consequent, count_filter_eq_ite, List.count_nil]
    cases antecedent.mentions x <;> simp

-- The items that do not mention the variable count for nothing.
theorem occurrences_conj {items : List Predicate}
    : (conj items).matrix.occurrences x = ((items.filter (·.mentions x)).map (·.matrix.occurrences x)).sum := by
  simp only [matrix, Formula.occurrences, matrixAll_eq_map, Formula.occurrencesAll_eq_sum, List.map_map]
  induction items with
  | nil => rfl
  | cons p items ih =>
    rw [List.map_cons, List.sum_cons, ih, List.filter_cons]
    split
    . rw [List.map_cons, List.sum_cons]
      rfl
    . next hp =>
      have hzero := mt (occurrences_pos_iff p).mp hp
      simp only [Function.comp_apply]
      omega

theorem occurrences_le_conj {items : List Predicate} (hp : p ∈ items) (hx : p.mentions x = true)
    : p.matrix.occurrences x ≤ (conj items).matrix.occurrences x := by
  rw [occurrences_conj]
  apply List.le_sum_of_mem
  exact List.mem_map_of_mem (List.mem_filter.mpr ⟨hp, hx⟩)

theorem occurrences_lt_conj {items : List Predicate} (hp : p ∈ items) (hx : p.mentions x = true)
    (hne : items.filter (·.mentions x) ≠ [p]) : p.matrix.occurrences x < (conj items).matrix.occurrences x := by
  have hmem : p ∈ items.filter (·.mentions x) := List.mem_filter.mpr ⟨hp, hx⟩
  have hpos : ∀ q ∈ items.filter (·.mentions x), 0 < q.matrix.occurrences x :=
    fun q hq => (occurrences_pos_iff q).mpr (List.mem_filter.mp hq).2
  rw [occurrences_conj]
  generalize items.filter (·.mentions x) = holders at hne hmem hpos
  cases holders with
  | nil => cases hmem
  | cons q holders =>
    rw [List.map_cons, List.sum_cons]
    rw [List.forall_mem_cons] at hpos
    obtain rfl | hmem := List.mem_cons.mp hmem
    . cases holders with
      | nil => exact absurd rfl hne
      | cons r holders =>
        have hr := hpos.2 r List.mem_cons_self
        rw [List.map_cons, List.sum_cons]
        omega
    . have hle := List.le_sum_of_mem (List.mem_map_of_mem (f := (·.matrix.occurrences x)) hmem)
      omega

theorem occurrences_lt_impl {bound : List (String × Kind)} {antecedent consequent : Predicate}
    (hx : antecedent.mentions x = true) {names : List Bound} {sunk : List String} {f g : Formula}
    (h : (Formula.mkForAll names (.implies (quantify vars antecedent []) (quantify vars consequent sunk))).OpenPart
      (.implies f g))
    : g.occurrences x < (impl bound antecedent consequent).matrix.occurrences x := by
  have hpos := (occurrences_pos_iff antecedent).mpr hx
  have hle : g.occurrences x ≤ consequent.matrix.occurrences x := by
    rw [← occurrences_quantify vars consequent sunk]
    cases h.of_mkForAll with
    | refl => apply Nat.le_refl
    | consequent h => exact Nat.le_trans (Nat.le_add_left _ _) h.occurrences_le
  simp only [matrix, Formula.occurrences]
  omega

-- A variable stays in front of a conjunction if two items mention it, or one that cannot bind it inside.
theorem occurrences_lt_of_not_sinks {items : List Predicate} {sunk : List String} (hx : (conj items).mentions x = true)
    (hsinks : sinks items x = false) {f g : Formula}
    (h : (Formula.and (quantifyAll vars items sunk)).OpenPart (.implies f g))
    : g.occurrences x < (conj items).matrix.occurrences x := by
  rw [quantifyAll_eq_map] at h
  cases h with
  | item hmem h =>
    obtain ⟨item, hitem, rfl⟩ := List.mem_map.mp hmem
    have hle : g.occurrences x ≤ item.matrix.occurrences x := by
      rw [← occurrences_quantify vars item]
      exact Nat.le_trans (Nat.le_add_left _ _) h.occurrences_le
    by_cases hmentions : item.mentions x = true
    . by_cases hone : items.filter (·.mentions x) = [item]
      . have hsink : item.canSink x = false := by
          unfold sinks at hsinks
          rw [hone] at hsinks
          exact hsinks
        apply Nat.lt_of_lt_of_le (m := item.matrix.occurrences x)
        . cases item with
          | atom c =>
            unfold quantify at h
            cases h.of_mkForSome
          | conj items => cases hsink
          | impl bound antecedent consequent =>
            unfold quantify at h
            simp only [canSink, Bool.not_eq_false'] at hsink
            exact occurrences_lt_impl hsink h.of_mkForSome
        . exact occurrences_le_conj hitem hmentions
      . exact Nat.lt_of_le_of_lt hle (occurrences_lt_conj hitem hmentions hone)
    . have hzero := mt (occurrences_pos_iff item).mp hmentions
      have hpos := (occurrences_pos_iff (conj items)).mpr hx
      omega

/--
A pending variable is bound around all of its occurrences, and no consequent further inside contains all of them.
-/
def BindsInnermost (f : Formula) (p : Predicate) (x : String) : Prop :=
  ∃ names scope, f.OpenPart (.forSome names scope) ∧ x ∈ names.map (·.1) ∧
    scope.occurrences x = p.matrix.occurrences x ∧
    ∀ g h, scope.OpenPart (.implies g h) → h.occurrences x < p.matrix.occurrences x

theorem bindsInnermost_here {names : List Bound} {body : Formula} (hp : quantify vars p pending = .mkForSome names body)
    (hx : x ∈ names.map (·.1))
    (hinside : ∀ g h, body.OpenPart (.implies g h) → h.occurrences x < p.matrix.occurrences x)
    : BindsInnermost (quantify vars p pending) p x := by
  have hoccurrences : body.occurrences x = p.matrix.occurrences x := by
    rw [← occurrences_quantify vars p pending, hp, ← Formula.occurrences_matrix (Formula.mkForSome names body),
      Formula.matrix_mkForSome, Formula.occurrences_matrix]
  rw [hp]
  cases names with
  | nil => cases hx
  | cons b names => exact ⟨b :: names, body, .refl, hx, hoccurrences, hinside⟩

theorem bindsInnermost_quantify (p : Predicate) (h : Ready vars p pending) (hx : x ∈ pending)
    : BindsInnermost (quantify vars p pending) p x := by
  induction p using Predicate.induction generalizing pending with
  | atom c =>
    apply bindsInnermost_here (by rw [quantify])
    . rw [h.map_bindAll fun _ hx => hx]
      exact hx
    . intro f g hpart
      cases hpart
  | conj items ih =>
    cases hsinks : sinks items x with
    | false =>
      apply bindsInnermost_here (by rw [quantify])
      . rw [h.map_bindAll fun _ hx => (List.mem_filter.mp hx).1]
        simp [hx, hsinks]
      . intro f g
        exact occurrences_lt_of_not_sinks (h.pending x hx) hsinks
    | true =>
      obtain ⟨item, hone, _⟩ := exists_of_sinks hsinks
      have hitem : item ∈ items ∧ item.mentions x = true := by
        apply List.mem_filter.mp
        rw [hone]
        exact List.mem_singleton_self _
      have hsunk : x ∈ (pending.filter (sinks items)).filter (item.mentions ·) := by
        simp [hx, hsinks, hitem.2]
      have hoccurrences : (conj items).matrix.occurrences x = item.matrix.occurrences x := by
        rw [occurrences_conj, hone]
        simp
      obtain ⟨names, scope, hpart, hnames, hscope, hinside⟩ := ih item hitem.1 (h.item hitem.1) hsunk
      refine ⟨names, scope, ?_, hnames, hscope.trans hoccurrences.symm, ?_⟩
      . unfold quantify
        apply Formula.OpenPart.mkForSome
        rw [quantifyAll_eq_map]
        exact .item (List.mem_map_of_mem hitem.1) hpart
      . rw [hoccurrences]
        exact hinside
  | impl bound antecedent consequent iha ihc =>
    cases hantecedent : antecedent.mentions x with
    | true =>
      apply bindsInnermost_here (by rw [quantify])
      . rw [h.map_bindAll fun _ hx => (List.mem_filter.mp hx).1]
        simp [hx, hantecedent]
      . intro f g
        exact occurrences_lt_impl hantecedent
    | false =>
      have hinto : x ∈ pending.filter (!antecedent.mentions ·) := by
        simp [hx, hantecedent]
      have hzero := mt (occurrences_pos_iff antecedent).mp (ne_true_of_eq_false hantecedent)
      have hoccurrences : (impl bound antecedent consequent).matrix.occurrences x
          = consequent.matrix.occurrences x := by
        simp only [matrix, Formula.occurrences]
        omega
      obtain ⟨names, scope, hpart, hnames, hscope, hinside⟩ := ihc h.consequent hinto
      refine ⟨names, scope, ?_, hnames, hscope.trans hoccurrences.symm, ?_⟩
      . unfold quantify
        apply Formula.OpenPart.mkForSome
        apply Formula.OpenPart.mkForAll
        exact .consequent hpart
      . rw [hoccurrences]
        exact hinside

theorem free_quantify_iff (p : Predicate) (h : Ready vars p pending)
    : (quantify vars p pending).Free x ↔ p.Free x ∧ x ∉ pending := by
  induction p using Predicate.induction generalizing pending with
  | atom c =>
    unfold quantify
    rw [Formula.free_mkForSome, h.map_bindAll fun _ hx => hx, and_comm]
    exact Iff.rfl
  | conj items ih =>
    unfold quantify
    dsimp only
    rw [Formula.free_mkForSome, h.map_bindAll fun _ hx => (List.mem_filter.mp hx).1]
    -- an item in which the variable is free mentions it, so it is bound there if it is sunk at all
    have hitem : ∀ p ∈ items, ∀ sunk : List String,
        (quantify vars p (sunk.filter (p.mentions ·))).Free x ↔ p.Free x ∧ x ∉ sunk := by
      intro p hp sunk
      rw [ih p hp (h.item hp)]
      apply and_congr_right
      intro hfree
      simp [mentions_of_free p hfree]
    simp only [Formula.Free, Free, Formula.freeInSome_iff, freeInSome_iff, quantifyAll_eq_map, List.mem_map,
      exists_exists_and_eq_and]
    constructor
    . rintro ⟨hhere, p, hp, hfree⟩
      obtain ⟨hfree, hsunk⟩ := (hitem p hp _).mp hfree
      refine ⟨⟨p, hp, hfree⟩, ?_⟩
      intro hx
      cases hsinks : sinks items x <;> simp_all
    . rintro ⟨⟨p, hp, hfree⟩, hx⟩
      refine ⟨by simp [hx], p, hp, (hitem p hp _).mpr ⟨hfree, by simp [hx]⟩⟩
  | impl bound antecedent consequent iha ihc =>
    have hbound := map_bindAll ((bound.map (·.1)).filter fun x => antecedent.mentions x || consequent.mentions x)
      fun y hy => h.listed y (by rw [mentions_impl]; exact (List.mem_filter.mp hy).2)
    unfold quantify
    dsimp only
    rw [Formula.free_mkForSome, h.map_bindAll fun _ hx => (List.mem_filter.mp hx).1, Formula.free_mkForAll, hbound]
    simp only [Formula.Free, Free, iha h.antecedent, ihc h.consequent, List.mem_filter]
    have hantecedent := mentions_of_free (x := x) antecedent
    have hconsequent := mentions_of_free (x := x) consequent
    grind

/--
The variables that constraints mention, with the kinds of the constraints.
-/
def mentionKinds (p : Predicate) : List (String × GradeKind) :=
  p.constraints.flatMap fun c => c.vars.map (·, c.kind)

/--
What is known of a variable: what is listed, and otherwise the kind of the first constraint that mentions it.
-/
def varOf (p : Predicate) (vars : List GradeVar) (x : String) : GradeVar :=
  (vars.find? (·.name = x)).getD ⟨x, (p.mentionKinds.lookup x).getD .nat, .instantiated⟩

theorem mem_mentionKinds_iff : x ∈ p.mentionKinds.map (·.1) ↔ p.mentions x = true := by
  simp [mentionKinds, mentions, Constraint.mentions, List.map_flatMap, Function.comp_def]

theorem name_varOf (p : Predicate) (vars : List GradeVar) (x : String) : (p.varOf vars x).name = x := by
  unfold varOf
  cases h : vars.find? (·.name = x) with
  | none => rfl
  | some v => exact name_of_find? h

theorem quantifier_varOf (p : Predicate) (vars : List GradeVar) (x : String)
    : (p.varOf vars x).quantifier = quantifierOf vars x := by
  unfold varOf quantifierOf
  cases vars.find? (·.name = x) <;> rfl

theorem mention_map_varOf {names : List String} {done rest : List (String × GradeKind)} {kind : GradeKind}
    (hp : p.mentionKinds = done ++ (x, kind) :: rest) (hnames : ∀ y, y ∈ names ↔ y ∈ done.map (·.1))
    : mentionedVars.mention vars kind (names.map (p.varOf vars)) x
        = (if x ∈ names then names else names ++ [x]).map (p.varOf vars) := by
  have hany : (names.map (p.varOf vars)).any (·.name = x) = decide (x ∈ names) := by
    rw [Bool.eq_iff_iff]
    simp [name_varOf]
  unfold mentionedVars.mention
  rw [hany]
  by_cases hx : x ∈ names
  . simp [hx]
  . have hlookup : p.mentionKinds.lookup x = some kind := by
      have hdone : done.lookup x = none := by
        rw [List.lookup_eq_none_iff]
        intro k hk
        rw [bne_iff_ne]
        rintro rfl
        exact hx ((hnames _).mpr (List.mem_map_of_mem hk))
      rw [hp, List.lookup_append, hdone, Option.none_or, List.lookup_cons_self]
    simp [hx, varOf, hlookup]

theorem exists_foldl_mention (p : Predicate) (vars : List GradeVar) (ks done : List (String × GradeKind))
    {names : List String} (hp : p.mentionKinds = done ++ ks) (hnodup : names.Nodup)
    (hnames : ∀ y, y ∈ names ↔ y ∈ done.map (·.1))
    : ∃ all : List String, all.Nodup ∧ (∀ y, y ∈ all ↔ y ∈ p.mentionKinds.map (·.1)) ∧
        ks.foldl (fun seen k => mentionedVars.mention vars k.2 seen k.1) (names.map (p.varOf vars))
          = all.map (p.varOf vars) := by
  induction ks generalizing names done with
  | nil =>
    rw [List.append_nil] at hp
    rw [hp]
    exact ⟨names, hnodup, hnames, rfl⟩
  | cons k ks ih =>
    obtain ⟨x, kind⟩ := k
    rw [List.foldl_cons, mention_map_varOf hp hnames]
    apply ih (done ++ [(x, kind)])
    . simpa using hp
    . split
      . exact hnodup
      . next hx => exact List.nodup_append.mpr ⟨hnodup, by simp, by grind⟩
    . intro y
      split <;> grind

structure MentionedNames (p : Predicate) (vars : List GradeVar) (names : List String) : Prop where
  nodup : names.Nodup
  mem_iff : ∀ x, x ∈ names ↔ p.mentions x = true
  mentionedVars : p.mentionedVars vars = names.map (p.varOf vars)

theorem exists_mentionedNames (p : Predicate) (vars : List GradeVar) : ∃ names, MentionedNames p vars names := by
  obtain ⟨names, hnodup, hnames, heq⟩ :=
    exists_foldl_mention p vars p.mentionKinds [] (List.nil_append _).symm List.nodup_nil (by simp)
  refine ⟨names, hnodup, fun x => (hnames x).trans mem_mentionKinds_iff, ?_⟩
  rw [← heq]
  simp [mentionedVars, mentionKinds, List.foldl_flatMap, List.foldl_map]

def isOutermost (p : Predicate) (vars : List GradeVar) (x : String) : Bool :=
  match quantifierOf vars x with
  | .universal => true
  | .patternBound => !p.boundVars.contains x
  | .instantiated => false

namespace MentionedNames

variable {names : List String}

theorem universals (h : MentionedNames p vars names)
    : (p.compile vars).universals = (names.filter (p.isOutermost vars)).map fun x => (x, (p.varOf vars x).kind) := by
  unfold compile
  dsimp only
  rw [h.mentionedVars, List.filter_map, List.map_map]
  have hmap : (fun v : GradeVar => (v.name, v.kind)) ∘ p.varOf vars = fun x => (x, (p.varOf vars x).kind) := by
    funext x
    simp [name_varOf]
  rw [hmap]
  congr 1
  apply List.filter_congr
  intro x _
  simp only [Function.comp_apply, quantifier_varOf, name_varOf]
  rfl

theorem body (h : MentionedNames p vars names)
    : (p.compile vars).body
        = quantify (names.map (p.varOf vars)) p (names.filter (quantifierOf vars · = .instantiated)) := by
  unfold compile
  dsimp only
  rw [h.mentionedVars, List.filter_map, List.map_map]
  simp [Function.comp_def, quantifier_varOf, name_varOf]

theorem ready (h : MentionedNames p vars names)
    : Ready (names.map (p.varOf vars)) p (names.filter (quantifierOf vars · = .instantiated)) where
  listed x hx := by
    rw [List.map_map]
    simpa [Function.comp_def, name_varOf] using (h.mem_iff x).mpr hx
  pending x hx := (h.mem_iff x).mp (List.mem_filter.mp hx).1

theorem map_universals (h : MentionedNames p vars names)
    : (p.compile vars).universals.map (·.1) = names.filter (p.isOutermost vars) := by
  rw [h.universals, List.map_map]
  simp [Function.comp_def]

end MentionedNames

/--
The variables that are free in the formula are those that patterns bind and that occur outside of their implications.
-/
theorem free_formula_iff (p : Predicate) (vars : List GradeVar) (x : String)
    : (p.compile vars).formula.Free x ↔ p.Free x ∧ quantifierOf vars x = .patternBound ∧ x ∈ p.boundVars := by
  obtain ⟨names, h⟩ := exists_mentionedNames p vars
  unfold Query.formula
  rw [Formula.free_mkForAll, h.map_universals, h.body, free_quantify_iff p h.ready]
  constructor
  . rintro ⟨houtermost, hfree, hpending⟩
    have hx := (h.mem_iff x).mpr (mentions_of_free p hfree)
    refine ⟨hfree, ?_⟩
    cases hquantifier : quantifierOf vars x <;> simp_all [isOutermost]
  . rintro ⟨hfree, hquantifier, hbound⟩
    simp [hfree, hquantifier, isOutermost, hbound]

theorem closed_formula_iff (p : Predicate) (vars : List GradeVar)
    : (p.compile vars).formula.Closed
        ↔
      ∀ x ∈ p.boundVars, quantifierOf vars x = .patternBound → ¬p.Free x := by
  unfold Formula.Closed
  simp only [free_formula_iff]
  grind

/--
Compiling a predicate keeps its constraints, conjunctions and implications. It binds each variable that is up to the
solver once, outside of antecedents, around all of its occurrences, and in the innermost consequent that contains them
and is not itself inside an antecedent. The formula is closed if and only if the variables of patterns occur only inside
the implications that bind them.
-/
theorem compile_binds_innermost (p : Predicate) (vars : List GradeVar)
    : (p.compile vars).body.matrix = p.matrix ∧
      (∀ x, p.mentions x = true → quantifierOf vars x = .instantiated →
        (p.compile vars).body.BindsOnce Formula.OpenPart x) ∧
      ((p.compile vars).formula.Closed
          ↔
        ∀ x ∈ p.boundVars, quantifierOf vars x = .patternBound → ¬p.Free x) := by
  obtain ⟨names, h⟩ := exists_mentionedNames p vars
  refine ⟨by rw [h.body, matrix_quantify], ?_, closed_formula_iff p vars⟩
  intro x hmentions hquantifier
  have hx : x ∈ names.filter (quantifierOf vars · = .instantiated) := by
    simp [(h.mem_iff x).mpr hmentions, hquantifier]
  rw [h.body]
  constructor
  . rw [count_existentials_quantify p h.ready]
    rw [List.Nodup.count (h.nodup.filter _), if_pos hx]
  . obtain ⟨bound, scope, hpart, hbound, hscope, hinside⟩ := bindsInnermost_quantify p h.ready hx
    rw [occurrences_quantify]
    exact ⟨bound, scope, hpart, hbound, hscope, fun f g hfg => Nat.ne_of_lt (hinside f g hfg)⟩

/-- `(true -> x <= 1) -> true` -/
def hypothetical : Predicate :=
  .impl [] (.impl [] (.conj []) (.atom (.le 0 (.var "x") (.nat 1) .nat))) (.conj [])

/-- The consequent `x <= 1` contains all occurrences of `x`, but `x` is bound in front of everything. -/
theorem compile_binds_outside_antecedent
    : hypothetical.mentions "x" = true ∧ quantifierOf [⟨"x", .nat, .instantiated⟩] "x" = .instantiated ∧
      ¬(hypothetical.compile [⟨"x", .nat, .instantiated⟩]).body.BindsOnce Formula.Part "x" := by
  refine ⟨by decide, by decide, ?_⟩
  rintro ⟨_, vars, scope, hpart, _, _, hinside⟩
  have hbody : (hypothetical.compile [⟨"x", .nat, .instantiated⟩]).body
      = .forSome [("x", .nat)] (.implies (.implies (.and []) (.atom (.le 0 (.var "x") (.nat 1) .nat))) (.and [])) := rfl
  rw [hbody] at hpart hinside
  cases hpart with
  | refl => exact hinside _ _ (.antecedent .refl) rfl
  | forSome hpart =>
    cases hpart with
    | consequent hpart =>
      cases hpart with
      | item hmem _ => cases hmem

end Predicate
end GradedModal
