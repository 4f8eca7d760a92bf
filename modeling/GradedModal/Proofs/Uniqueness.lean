import Mathlib
import GradedModal.Proofs.KindedQueries
import GradedModal.Proofs.Quantifiers
import GradedModal.Proofs.Visits

/-!
This module says when a name denotes one variable. The supply never makes up a name twice, so two variables in scope
have the same name only if a signature binds the name twice, or binds a name that the supply makes up later. Then the
checker takes the latest variable of the name, and a prover the first.
-/

namespace GradedModal

open CheckM

namespace State

/--
The variables that have come into scope since an earlier state, latest first, with names that were made up for them.
-/
structure Mints (s t : State) (minted : List TypeVar) : Prop where
  typeVars : t.typeVars = minted ++ s.typeVars
  le : s.nextFresh ≤ t.nextFresh
  named : ∀ v ∈ minted, ∃ hint, ∃ k, s.nextFresh ≤ k ∧ k < t.nextFresh ∧ v.name = hint ++ "." ++ toString k
  nodup : (minted.map (·.name)).Nodup

namespace Mints

variable {s t t' : State} {minted : List TypeVar}

theorem congr (h : s.Mints t minted) (htypeVars : t'.typeVars = t.typeVars) (hnextFresh : t'.nextFresh = t.nextFresh)
    : s.Mints t' minted where
  typeVars := htypeVars.trans h.typeVars
  le := hnextFresh ▸ h.le
  named := hnextFresh ▸ h.named
  nodup := h.nodup

theorem freshName (h : s.Mints t minted) : s.Mints { t with nextFresh := t.nextFresh + 1 } minted where
  typeVars := h.typeVars
  le := Nat.le_succ_of_le h.le
  named v hv := by
    obtain ⟨hint, k, hle, hlt, hname⟩ := h.named v hv
    exact ⟨hint, k, hle, Nat.lt_succ_of_lt hlt, hname⟩
  nodup := h.nodup

theorem ne_fresh (h : s.Mints t minted) (hint : String)
    : ∀ v ∈ minted, v.name ≠ hint ++ "." ++ toString t.nextFresh := by
  intro v hv heq
  obtain ⟨hint', k, _, hlt, hname⟩ := h.named v hv
  rw [hname] at heq
  exact absurd (freshName_inj heq) (Nat.ne_of_lt hlt)

theorem freshTypeVar (h : s.Mints t minted) (hint : String) (kind : Kind) (quantifier : Quantifier)
    : s.Mints { t with
        typeVars := ⟨hint ++ "." ++ toString t.nextFresh, kind, quantifier⟩ :: t.typeVars
        nextFresh := t.nextFresh + 1 } (⟨hint ++ "." ++ toString t.nextFresh, kind, quantifier⟩ :: minted) where
  typeVars := by rw [h.typeVars, List.cons_append]
  le := Nat.le_succ_of_le h.le
  named := by
    rw [List.forall_mem_cons]
    exact ⟨⟨hint, t.nextFresh, h.le, Nat.lt_succ_self _, rfl⟩, h.freshName.named⟩
  nodup := by
    rw [List.map_cons, List.nodup_cons]
    refine ⟨?_, h.nodup⟩
    rw [List.mem_map]
    rintro ⟨v, hv, hname⟩
    exact h.ne_fresh hint v hv hname

theorem nodup_iff (h : s.Mints t minted)
    : (t.typeVars.map (·.name)).Nodup ↔
        (s.typeVars.map (·.name)).Nodup ∧ ∀ v ∈ minted, v.name ∉ s.typeVars.map (·.name) := by
  rw [h.typeVars, List.map_append, List.nodup_append']
  simp only [h.nodup, true_and, List.disjoint_left, List.forall_mem_map]

theorem mem_fresh_iff (h : s.Mints t minted) (hint : String)
    : hint ++ "." ++ toString t.nextFresh ∈ t.typeVars.map (·.name) ↔
        hint ++ "." ++ toString t.nextFresh ∈ s.typeVars.map (·.name) := by
  rw [h.typeVars, List.map_append, List.mem_append]
  constructor
  . rintro (hmem | hmem)
    . obtain ⟨v, hv, hname⟩ := List.mem_map.mp hmem
      exact absurd hname (h.ne_fresh hint v hv)
    . exact hmem
  . exact .inr

end Mints

theorem Visits.exists_mints {s t : State} (h : s.Visits t) : ∃ minted, s.Mints t minted := by
  apply h.induct (motive := fun t => ∃ minted, s.Mints t minted)
  . exact ⟨[], rfl, le_rfl, List.forall_mem_nil _, List.nodup_nil⟩
  . rintro t t' htypeVars hnextFresh ⟨minted, ht⟩
    exact ⟨minted, ht.congr htypeVars hnextFresh⟩
  . rintro t ⟨minted, ht⟩
    exact ⟨minted, ht.freshName⟩
  . rintro t hint kind quantifier ⟨minted, ht⟩
    exact ⟨_, ht.freshTypeVar hint kind quantifier⟩

def gradeVar? (s : State) (v : TypeVar) : Option GradeVar :=
  v.kind.gradeKind?.map fun kind => ⟨v.name, s.settle kind, v.quantifier⟩

theorem name_of_gradeVar? {s : State} {v : TypeVar} {w : GradeVar} (h : s.gradeVar? v = some w) : w.name = v.name := by
  obtain ⟨kind, _, rfl⟩ := Option.map_eq_some_iff.mp h
  rfl

theorem find?_gradeVars {s : State} (h : (s.typeVars.map (·.name)).Nodup) (x : String)
    : s.gradeVars.find? (·.name = x) = (s.lookup? x).bind s.gradeVar? := by
  change (s.typeVars.reverse.filterMap s.gradeVar?).find? (·.name = x) =
    (s.typeVars.find? (·.name = x)).bind s.gradeVar?
  generalize s.typeVars = vars at h
  induction vars with
  | nil => rfl
  | cons v vars ih =>
    rw [List.map_cons, List.nodup_cons] at h
    have hlast : ([v].filterMap s.gradeVar?).find? (·.name = x) = if v.name = x then s.gradeVar? v else none := by
      cases hv : s.gradeVar? v with
      | none => simp [hv]
      | some w => simp [hv, name_of_gradeVar? hv]
    rw [List.reverse_cons, List.filterMap_append, List.find?_append, ih h.2, hlast]
    by_cases hx : v.name = x
    . have hnone : vars.find? (·.name = x) = none := by
        rw [List.find?_eq_none]
        intro w hw hname
        rw [decide_eq_true_eq, ← hx] at hname
        exact h.1 (hname ▸ List.mem_map_of_mem hw)
      rw [hnone, if_pos hx, List.find?_cons_of_pos (by simpa using hx)]
      rfl
    . rw [if_neg hx, Option.or_none, List.find?_cons_of_neg (by simpa using hx)]

end State

theorem Predicate.eq_of_mem_mentionedVars {s : State} (h : (s.typeVars.map (·.name)).Nodup) {p : Predicate}
    {v : GradeVar} (hv : v ∈ p.mentionedVars s.gradeVars) {w : TypeVar} (hw : s.lookup? v.name = some w)
    {kind : GradeKind} (hkind : w.kind = .grade kind) : v = ⟨w.name, s.settle kind, w.quantifier⟩ := by
  obtain ⟨names, hnames⟩ := exists_mentionedNames p s.gradeVars
  rw [hnames.mentionedVars, List.mem_map] at hv
  obtain ⟨x, _, rfl⟩ := hv
  rw [name_varOf] at hw
  have hgrade : s.gradeVar? w = some ⟨w.name, s.settle kind, w.quantifier⟩ := by
    unfold State.gradeVar?
    rw [hkind]
    rfl
  unfold varOf
  rw [State.find?_gradeVars h, hw, Option.bind_some, hgrade, Option.getD_some]

namespace Definition

/--
The state in which the variables of the signature have come into scope, whatever was checked before.
-/
def entered (d : Definition) (s : State) : State :=
  { s.reset with typeVars := (d.scheme.vars.map fun b => ⟨b.1, b.2, .universal⟩).reverse }

theorem bindUniversals_reset (d : Definition) (s : State)
    : bindUniversals d.scheme.vars s.reset = .ok () (d.entered s) := by
  rw [bindUniversals_eq]
  simp [entered, State.reset, State.start]

theorem names_entered (d : Definition) (s : State)
    : (d.entered s).typeVars.map (·.name) = (d.scheme.vars.map (·.1)).reverse := by
  simp [entered, Function.comp_def]

/--
In all states that are visited while the body of a definition is checked, and that a check leaves behind if it fails:
names are unique exactly if the signature binds no name twice and none that has been made up for another variable. Then
a predicate is compiled with the kinds and quantifiers that the checker uses. A name that is made up next is in scope
only if the signature binds it.
-/
theorem one_name_one_variable (env : Env) (d : Definition) (s : State)
    : (d.entered s).Visits ((d.check env).endState s.reset) ∧
        ∀ t, (d.entered s).Visits t →
          (∃ minted, t.typeVars = minted ++ (d.entered s).typeVars ∧
            (∀ v ∈ minted, ∃ hint, ∃ k < t.nextFresh, v.name = hint ++ "." ++ toString k) ∧
            ((t.typeVars.map (·.name)).Nodup ↔
              (d.scheme.vars.map (·.1)).Nodup ∧ ∀ v ∈ minted, v.name ∉ d.scheme.vars.map (·.1))) ∧
          ((t.typeVars.map (·.name)).Nodup → ∀ p : Predicate, ∀ v ∈ p.mentionedVars t.gradeVars, ∀ w kind,
            t.lookup? v.name = some w → w.kind = .grade kind → v = ⟨w.name, t.settle kind, w.quantifier⟩) ∧
          (∀ hint, hint ++ "." ++ toString t.nextFresh ∈ t.typeVars.map (·.name) ↔
            hint ++ "." ++ toString t.nextFresh ∈ d.scheme.vars.map (·.1)) ∧
          (d.HasDistinctVars → (t.typeVars.map (·.name)).Nodup) := by
  refine ⟨check_visits env d (d.bindUniversals_reset s), fun t ht => ?_⟩
  obtain ⟨minted, hminted⟩ := ht.exists_mints
  have hnodup := hminted.nodup_iff
  rw [names_entered, List.nodup_reverse] at hnodup
  simp only [List.mem_reverse] at hnodup
  refine ⟨⟨minted, hminted.typeVars, ?_, hnodup⟩, ?_, ?_, ?_⟩
  . intro v hv
    obtain ⟨hint, k, _, hlt, hname⟩ := hminted.named v hv
    exact ⟨hint, k, hlt, hname⟩
  . intro ht p v hv w kind hw hkind
    exact Predicate.eq_of_mem_mentionedVars ht hv hw hkind
  . intro hint
    rw [hminted.mem_fresh_iff hint, names_entered, List.mem_reverse]
  . intro hd
    refine hnodup.mpr ⟨hd.1, fun v hv hmem => ?_⟩
    obtain ⟨hint, k, _, _, hname⟩ := hminted.named v hv
    obtain ⟨b, hb, hb'⟩ := List.mem_map.mp hmem
    have hdotless := hd.2 b hb
    rw [hb', hname, isDotless_freshName] at hdotless
    cases hdotless

/--
The predecessor of a number, with a signature that says it is the number itself.
-/
def stagnant (size : String) : Definition where
  binder := ⟨0, "f"⟩
  patterns := [.var 0 "v"]
  body := .case 0 (.var 0 "v") [(.constructor 0 "S" [.var 0 "k"], .var 0 "k")]
  scheme := ⟨[(size, .grade .nat)], .arrow (Builtins.number (.var size)) (Builtins.number (.var size))⟩

theorem one_name_one_variable_stagnant
    : (stagnant "n").HasDistinctVars ∧
        ∃ t, (stagnant "n").check ⟨.standard, []⟩ State.start.reset = .ok () t ∧
          ((stagnant "n").entered .start).Visits t ∧ t.typeVars.map (·.name) = ["n.0", "n"] ∧
          (t.typeVars.map (·.name)).Nodup := by
  have hvars : (stagnant "n").HasDistinctVars := ⟨by decide +kernel, by decide +kernel⟩
  have hcheck : yields ((stagnant "n").check ⟨.standard, []⟩) State.start.reset
      (fun _ t => decide (t.typeVars.map (·.name) = ["n.0", "n"])) = true := by
    cbv
  obtain ⟨_, t, hcheck, hnames⟩ := exists_of_yields hcheck
  obtain ⟨hvisits, hvisited⟩ := one_name_one_variable ⟨.standard, []⟩ (stagnant "n") .start
  rw [endState_of_ok hcheck] at hvisits
  exact ⟨hvars, t, hcheck, hvisits, by simpa using hnames, (hvisited t hvisits).2.2.2 hvars⟩

/--
The name that is made up for the size of the predecessor is the one in the signature. The checker takes it for a
variable of the pattern and a prover for one of the signature, and what is assumed holds of no number.
-/
theorem one_name_two_variables_stagnant
    : ∃ s t,
        Program.checkSignatures ⟨.standard, Program.signatures [stagnant "n.0"]⟩ [stagnant "n.0"] .start = .ok () s ∧
        (stagnant "n.0").check ⟨.standard, Program.signatures [stagnant "n.0"]⟩ s.reset = .ok () t ∧
        t.typeVars = [⟨"n.0", .grade .nat, .patternBound⟩, ⟨"n.0", .grade .nat, .universal⟩] ∧
        (t.lookup? "n.0").map (·.quantifier) = some .patternBound ∧
        (t.gradeVars.find? (·.name = "n.0")).map (·.quantifier) = some .universal ∧
        t.collected.constraints.head? = some (.eq 0 (.var "n.0") (.op .plus (.var "n.0") (.nat 1)) .nat) := by
  have hsignatures : yields
      (Program.checkSignatures ⟨.standard, Program.signatures [stagnant "n.0"]⟩ [stagnant "n.0"]) .start
        (fun _ s => decide (s.nextFresh = 0)) = true := by
    cbv
  obtain ⟨_, s, hsignatures, hfresh⟩ := exists_of_yields hsignatures
  have hreset : s.reset = State.start := by
    unfold State.reset
    rw [of_decide_eq_true hfresh]
    rfl
  have hcheck : yields ((stagnant "n.0").check ⟨.standard, Program.signatures [stagnant "n.0"]⟩) .start (fun _ t =>
      decide (t.typeVars = [⟨"n.0", .grade .nat, .patternBound⟩, ⟨"n.0", .grade .nat, .universal⟩]) &&
        decide (t.collected.constraints.head? = some (.eq 0 (.var "n.0") (.op .plus (.var "n.0") (.nat 1)) .nat))) =
          true := by
    cbv
  obtain ⟨_, t, hcheck, ht⟩ := exists_of_yields hcheck
  rw [Bool.and_eq_true, decide_eq_true_eq, decide_eq_true_eq] at ht
  refine ⟨s, t, hsignatures, ?_, ht.1, ?_, ?_, ht.2⟩
  . rw [hreset]
    exact hcheck
  . unfold State.lookup?
    rw [ht.1]
    rfl
  . unfold State.gradeVars
    rw [ht.1]
    rfl

end Definition
end GradedModal
