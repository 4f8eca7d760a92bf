import Mathlib
import GradedModal.Proofs.Closure

/-!
This module contains the proof that what is handed to a prover is well-kinded. A constraint has a kind of its own, its
variables are listed with this kind, and so it has a truth value wherever variables have values of their kinds.
-/

namespace GradedModal

open CheckM

namespace State

variable {s s' : State} {K : Constraint → Prop}

theorem forall_collected
    : (∀ c ∈ s.collected.constraints, K c)
        ↔
      (∀ p ∈ s.predicate, ∀ c ∈ p.constraints, K c) ∧
        ∀ scope ∈ s.scopes, ∀ p ∈ scope.antecedent ++ scope.consequent, ∀ c ∈ p.constraints, K c := by
  have hflatten : ∀ scope : Scope, (∀ c ∈ scope.flatten.constraints, K c) ↔
      ∀ p ∈ scope.antecedent ++ scope.consequent, ∀ c ∈ p.constraints, K c := by
    intro scope
    rw [Scope.flatten, Predicate.constraints, Predicate.constraintsAll_eq_flatMap, List.forall_mem_flatMap]
  rw [collected, Predicate.constraints, Predicate.constraintsAll_eq_flatMap, List.forall_mem_flatMap,
    List.forall_mem_append, List.forall_mem_map]
  simp only [List.mem_reverse, hflatten]

theorem forall_collected_add (p : Predicate)
    : (∀ c ∈ (s.add p).collected.constraints, K c)
        ↔
      (∀ c ∈ s.collected.constraints, K c) ∧ ∀ c ∈ p.constraints, K c := by
  rw [forall_collected, forall_collected]
  unfold add
  cases s.scopes with
  | nil =>
    rw [List.forall_mem_append, List.forall_mem_singleton]
    exact and_right_comm
  | cons scope scopes =>
    simp only [Scope.add]
    split
    . simp only [List.forall_mem_append, List.forall_mem_singleton, List.forall_mem_cons]
      tauto
    . simp only [List.forall_mem_append, List.forall_mem_singleton, List.forall_mem_cons]
      tauto

/--
What is known about kinds has no cycles, and all constraints collected so far compare grades of one kind.
-/
structure IsKinded (s : State) : Prop where
  acyclic : s.IsAcyclic
  constraints : ∀ c ∈ s.collected.constraints, c.IsKinded s

namespace IsKinded

theorem quiet (hs : s.IsKinded) (hs' : s.ReachesQuietly s') : s'.IsKinded where
  acyclic := hs.acyclic.of_reaches hs'.reaches
  constraints := by
    have hcollected : s'.collected = s.collected := by
      unfold collected
      rw [hs'.predicate, hs'.scopes]
    rw [hcollected]
    exact fun c hc => (hs.constraints c hc).of_reaches hs.acyclic hs'.reaches

theorem constrain {c : Constraint} (hs : s.IsKinded) (hc : c.IsKinded s) (h : constrain c s = .ok () s')
    : s'.IsKinded := by
  have hs' := reaching_constrain c h
  obtain rfl : s.add (.atom c) = s' := modify_eq_ok.mp h
  refine ⟨hs.acyclic.of_reaches hs', ?_⟩
  rw [forall_collected_add, Predicate.constraints, List.forall_mem_singleton]
  exact ⟨fun c' hc' => (hs.constraints c' hc').of_reaches hs.acyclic hs', hc.of_reaches hs.acyclic hs'⟩

theorem of_eq (hs : s.IsKinded) (htypeVars : s'.typeVars = s.typeVars) (hkinds : s'.kinds = s.kinds)
    (hconstraints : ∀ c ∈ s'.collected.constraints, c ∈ s.collected.constraints) : s'.IsKinded where
  acyclic := hs.acyclic.congr hkinds
  constraints c hc := (hs.constraints c (hconstraints c hc)).of_eq htypeVars hkinds

-- An implication is collected apart and moved as a whole, so opening and closing it adds no constraints.
theorem openScope (hs : s.IsKinded) (h : openScope s = .ok () s') : s'.IsKinded := by
  obtain rfl : { s with scopes := .start :: s.scopes } = s' := modify_eq_ok.mp h
  refine hs.of_eq rfl rfl ?_
  obtain ⟨hpredicate, hscopes⟩ := forall_collected.mp fun c (hc : c ∈ s.collected.constraints) => hc
  exact forall_collected.mpr ⟨hpredicate, List.forall_mem_cons.mpr ⟨nofun, hscopes⟩⟩

theorem enterConsequent (hs : s.IsKinded) (h : enterConsequent s = .ok () s') : s'.IsKinded := by
  obtain ⟨htypeVars, hkinds, _⟩ := enterConsequent_eq_ok h
  refine hs.of_eq htypeVars hkinds ?_
  unfold CheckM.enterConsequent at h
  rw [modify_eq_ok] at h
  obtain ⟨hpredicate, hscopes⟩ := forall_collected.mp fun c (hc : c ∈ s.collected.constraints) => hc
  cases hs : s.scopes with
  | nil =>
    simp only [hs] at h
    rw [← h]
    exact fun _ hc => hc
  | cons scope scopes =>
    simp only [hs] at h
    rw [← h]
    rw [hs, List.forall_mem_cons] at hscopes
    exact forall_collected.mpr ⟨hpredicate, List.forall_mem_cons.mpr hscopes⟩

theorem closeScope {bound : List (String × Kind)} (hs : s.IsKinded) (h : closeScope bound s = .ok () s')
    : s'.IsKinded := by
  obtain ⟨htypeVars, hkinds, _⟩ := closeScope_eq_ok h
  refine hs.of_eq htypeVars hkinds ?_
  unfold CheckM.closeScope at h
  rw [modify_eq_ok] at h
  obtain ⟨hpredicate, hscopes⟩ := forall_collected.mp fun c (hc : c ∈ s.collected.constraints) => hc
  cases hs : s.scopes with
  | nil =>
    simp only [hs] at h
    rw [← h]
    exact fun _ hc => hc
  | cons scope scopes =>
    simp only [hs] at h
    rw [← h, forall_collected_add, forall_collected]
    rw [hs, List.forall_mem_cons] at hscopes
    refine ⟨⟨hpredicate, hscopes.2⟩, ?_⟩
    simpa only [Predicate.constraints, Predicate.constraintsAll_eq_flatMap, ← List.flatMap_append,
      List.forall_mem_flatMap] using hscopes.1

theorem of_advances (hs : s.IsKinded) (hs' : s.Advances s') : s'.IsKinded := by
  induction hs' with
  | refl => exact hs
  | quiet _ h ih => exact (ih hs).quiet h
  | constrain _ hc h ih => exact (ih hs).constrain (hc hs.acyclic) h
  | imply _ hopen _ henter _ hclose ih ihantecedent ihconsequent =>
    have hantecedent := ihantecedent ((ih hs).openScope hopen)
    have hconsequent := ihconsequent (hantecedent.enterConsequent henter)
    exact hconsequent.closeScope hclose

theorem of_start (hpredicate : s.predicate = []) (hscopes : s.scopes = []) (hkinds : s.kinds = []) : s.IsKinded where
  acyclic kind name _ := by rw [hkinds, List.lookup_nil]
  constraints := by
    rw [forall_collected, hpredicate, hscopes]
    exact ⟨nofun, nofun⟩

end IsKinded

theorem Distinct.nodup_of_reaches (h : s.Distinct) (hnodup : (s.typeVars.map (·.name)).Nodup) (hs' : s.Reaches s')
    : (s'.typeVars.map (·.name)).Nodup := by
  have hboth : s'.Distinct ∧ (s'.typeVars.map (·.name)).Nodup := by
    apply hs'.visits.induct (motive := fun t => t.Distinct ∧ (t.typeVars.map (·.name)).Nodup) ⟨h, hnodup⟩
    . rintro t t' htypeVars hnextFresh ⟨ht, hnodup⟩
      rw [htypeVars]
      exact ⟨ht.congr htypeVars hnextFresh, hnodup⟩
    . rintro t ⟨ht, hnodup⟩
      exact ⟨ht.freshName, hnodup⟩
    . rintro t hint kind quantifier ⟨ht, hnodup⟩
      refine ⟨ht.freshTypeVar hint kind quantifier, List.nodup_cons.mpr ⟨?_, hnodup⟩⟩
      rw [List.mem_map]
      rintro ⟨v, hv, hname⟩
      exact ht.ne_fresh hint v hv hname
  exact hboth.2

end State

namespace Definition

variable {env : Env} {d : Definition} {s s' : State}

theorem bindUniversals_eq (vars : List (String × Kind)) (s : State)
    : bindUniversals vars s
        = .ok () { s with typeVars := (vars.map fun b => ⟨b.1, b.2, .universal⟩).reverse ++ s.typeVars } := by
  induction vars generalizing s with
  | nil => rfl
  | cons b vars ih =>
    refine (ih _).trans ?_
    simp only [List.map_cons, List.reverse_cons, List.append_assoc, List.singleton_append]

theorem check_advances (h : d.check env s = .ok () s')
    : ∃ s₁, bindUniversals d.scheme.vars s = .ok () s₁ ∧ s₁.Advances s' := by
  obtain ⟨matched, expected, used, subst, s₁, s₂, s₃, s₄, s₅, s₆, huniversals, hopen, hmatched, henter, hbody, _, hle,
    hclose⟩ := check_eq_ok h
  obtain ⟨hpatterns, _⟩ := bindParameters_eq_ok hmatched
  obtain ⟨r, hinfer, _⟩ := Expr.check_eq_ok hbody
  have hs₅ := Expr.infer_advancing _ _ _ _ _ hinfer
  have hs₆ := Context.le_advancing _ _ _ hle
  exact ⟨s₁, huniversals,
    .imply .refl hopen (bindPatterns_advancing _ _ _ hpatterns) henter (hs₅.trans hs₆) hclose⟩

/--
The variables of a signature have different names, none of which could be made up.
-/
def HasDistinctVars (d : Definition) : Prop :=
  (d.scheme.vars.map (·.1)).Nodup ∧ ∀ b ∈ d.scheme.vars, isDotless b.1 = true

theorem isKinded_check (h : d.check env s.reset = .ok () s') : s'.IsKinded := by
  obtain ⟨s₁, huniversals, hs'⟩ := check_advances h
  rw [bindUniversals_eq] at huniversals
  cases huniversals
  exact State.IsKinded.of_advances (.of_start rfl rfl rfl) hs'

theorem nodup_check (hd : d.HasDistinctVars) (h : d.check env s.reset = .ok () s')
    : (s'.typeVars.map (·.name)).Nodup := by
  obtain ⟨s₁, huniversals, hs'⟩ := check_advances h
  rw [bindUniversals_eq] at huniversals
  cases huniversals
  refine State.Distinct.nodup_of_reaches (.of_universals ?_) ?_ hs'.reaches
  . intro v hv
    simp only [State.reset, State.start, List.append_nil, List.mem_reverse, List.mem_map] at hv
    obtain ⟨b, hb, rfl⟩ := hv
    exact ⟨hd.2 b hb, rfl⟩
  . simp only [State.reset, State.start, List.append_nil, List.map_reverse, List.map_map, List.nodup_reverse]
    exact hd.1

end Definition

theorem Predicate.constraints_mapKinds (f : GradeKind → GradeKind) (p : Predicate)
    : (p.mapKinds f).constraints = p.constraints.map fun c => { c with kind := f c.kind } := by
  induction p using Predicate.induction with
  | atom c => rfl
  | conj items ih =>
    simp only [mapKinds, constraints, constraintsAll_eq_flatMap, mapKindsAll_eq_map, List.flatMap_map, List.map_flatMap]
    exact List.flatMap_congr ih
  | impl bound antecedent consequent iha ihc => simp only [mapKinds, constraints, iha, ihc, List.map_append]

def Value.kind : Value → GradeKind
  | .nat _ => .nat
  | .float _ => .float
  | .level _ => .level

namespace Constraint

/--
How a constraint is handed to a prover: it has a kind whose values are known, its variables are listed with this kind
and no other, and its literals and units have this kind.
-/
structure IsSettled (s : State) (vars : List GradeVar) (c : Constraint) : Prop where
  concrete : c.kind = .nat ∨ c.kind = .float ∨ c.kind = .level
  listed : ∀ x ∈ c.vars, (∃ v ∈ vars, v.name = x) ∧ ∀ v ∈ vars, v.name = x → v.kind = c.kind
  literals : ∀ kind ∈ c.left.literalKinds ++ c.right.literalKinds, s.settle kind = c.kind

/--
An assignment has a value for each variable of a constraint, of the kind that the variable is listed with.
-/
def IsAssigned (vars : List GradeVar) (c : Constraint) (a : Assignment) : Prop :=
  ∀ x ∈ c.vars, ∃ v, a.lookup x = some v ∧ ∀ w ∈ vars, w.name = x → v.kind = w.kind

end Constraint

namespace State

variable {s : State} {kind k l : GradeKind}

theorem settle_concrete (s : State) (kind : GradeKind)
    : s.settle kind = .nat ∨ s.settle kind = .float ∨ s.settle kind = .level := by
  unfold settle
  cases s.resolve kind with
  | var name | nat => exact .inl rfl
  | float => exact .inr (.inl rfl)
  | level => exact .inr (.inr rfl)

theorem settle_congr (h : s.resolve k = s.resolve l) : s.settle k = s.settle l := by
  unfold settle
  rw [h]

theorem mem_gradeVars {v : TypeVar} (hv : v ∈ s.typeVars) (hkind : v.kind = .grade kind)
    : ⟨v.name, s.settle kind, v.quantifier⟩ ∈ s.gradeVars := by
  unfold gradeVars
  rw [List.mem_filterMap]
  refine ⟨v, List.mem_reverse.mpr hv, ?_⟩
  rw [hkind]
  rfl

theorem exists_of_mem_gradeVars {w : GradeVar} (hw : w ∈ s.gradeVars)
    : ∃ v ∈ s.typeVars, ∃ k, v.kind = .grade k ∧ w = ⟨v.name, s.settle k, v.quantifier⟩ := by
  unfold gradeVars at hw
  obtain ⟨v, hv, hw⟩ := List.mem_filterMap.mp hw
  obtain ⟨k, hk, rfl⟩ := Option.map_eq_some_iff.mp hw
  refine ⟨v, List.mem_reverse.mp hv, k, ?_, rfl⟩
  cases hkind : v.kind with
  | grade k' =>
    rw [hkind] at hk
    cases hk
    rfl
  | _ =>
    rw [hkind] at hk
    cases hk

theorem IsKinded.isSettled (hs : s.IsKinded) (hnodup : (s.typeVars.map (·.name)).Nodup) {c : Constraint}
    (hc : c ∈ (s.collected.mapKinds s.settle).constraints) : c.IsSettled s s.gradeVars := by
  rw [Predicate.constraints_mapKinds, List.mem_map] at hc
  obtain ⟨c, hc, rfl⟩ := hc
  obtain ⟨hleft, hright⟩ := hs.constraints c hc
  have hvars : ∀ x ∈ c.left.occurrences ++ c.right.occurrences, ∃ v ∈ s.typeVars, v.name = x ∧
      ∃ k, v.kind = .grade k ∧ s.resolve k = s.resolve c.kind :=
    List.forall_mem_append.mpr ⟨hleft.vars, hright.vars⟩
  constructor
  . exact s.settle_concrete c.kind
  . intro x hx
    obtain ⟨v, hv, rfl, k, hk, hresolve⟩ := hvars x (List.mem_eraseDups.mp hx)
    refine ⟨⟨_, mem_gradeVars hv hk, rfl⟩, fun w hw hname => ?_⟩
    obtain ⟨v', hv', k', hk', rfl⟩ := exists_of_mem_gradeVars hw
    obtain rfl := List.inj_on_of_nodup_map hnodup hv' hv hname
    rw [hk] at hk'
    cases hk'
    exact settle_congr hresolve
  . have hliterals := List.forall_mem_append.mpr ⟨hleft.literals, hright.literals⟩
    exact fun kind hkind => settle_congr (hliterals kind hkind)

end State

theorem Op.apply_of_kind {kind : GradeKind} {v w : Value} (o : Op) (hv : v.kind = kind) (hw : w.kind = kind)
    : ∃ u, o.apply kind v w = .ok u ∧ u.kind = kind := by
  subst hv
  cases v with
  | nat m =>
    cases w with
    | nat n => exact ⟨_, rfl, rfl⟩
    | _ => cases hw
  | float x =>
    cases w with
    | float y => exact ⟨_, rfl, rfl⟩
    | _ => cases hw
  | level l =>
    cases w with
    | level l' => exact ⟨_, rfl, rfl⟩
    | _ => cases hw

theorem Grade.evaluate_of_kind {s : State} {kind : GradeKind} {a : Assignment} {g : Grade}
    (hkind : kind = .nat ∨ kind = .float ∨ kind = .level)
    (hvars : ∀ x ∈ g.occurrences, ∃ v, a.lookup x = some v ∧ v.kind = kind)
    (hliterals : ∀ k ∈ g.literalKinds, s.settle k = kind)
    : ∃ v, g.evaluate kind a = .ok v ∧ v.kind = kind := by
  induction g with
  | var x =>
    obtain ⟨v, hv, hvkind⟩ := hvars x (List.mem_singleton_self x)
    refine ⟨v, ?_, hvkind⟩
    rw [evaluate, hv]
  | nat n | float x | level l =>
    obtain rfl := hliterals _ (List.mem_singleton_self _)
    rw [State.settle_of_ne_var]
    . exact ⟨_, rfl, rfl⟩
    . exact nofun
  | zero k | one k =>
    obtain rfl | rfl | rfl := hkind
    . exact ⟨_, rfl, rfl⟩
    . exact ⟨_, rfl, rfl⟩
    . exact ⟨_, rfl, rfl⟩
  | op o g h ihg ihh =>
    obtain ⟨hgvars, hhvars⟩ := List.forall_mem_append.mp hvars
    obtain ⟨hgliterals, hhliterals⟩ := List.forall_mem_append.mp hliterals
    obtain ⟨v, hv, hvkind⟩ := ihg hgvars hgliterals
    obtain ⟨w, hw, hwkind⟩ := ihh hhvars hhliterals
    obtain ⟨u, hu, hukind⟩ := o.apply_of_kind hvkind hwkind
    refine ⟨u, ?_, hukind⟩
    rw [evaluate, hv, hw]
    exact hu

theorem Constraint.IsSettled.evaluate {s : State} {vars : List GradeVar} {c : Constraint} {a : Assignment}
    (hc : c.IsSettled s vars) (ha : c.IsAssigned vars a)
    : (∃ v, c.left.evaluate c.kind a = .ok v ∧ v.kind = c.kind) ∧
      ∃ v, c.right.evaluate c.kind a = .ok v ∧ v.kind = c.kind := by
  have hvars : ∀ x ∈ c.left.occurrences ++ c.right.occurrences, ∃ v, a.lookup x = some v ∧ v.kind = c.kind := by
    intro x hx
    have hx := List.mem_eraseDups.mpr hx
    obtain ⟨v, hv, hkind⟩ := ha x hx
    obtain ⟨⟨w, hw, hname⟩, hlisted⟩ := hc.listed x hx
    exact ⟨v, hv, (hkind w hw hname).trans (hlisted w hw hname)⟩
  obtain ⟨hleft, hright⟩ := List.forall_mem_append.mp hvars
  obtain ⟨hleft', hright'⟩ := List.forall_mem_append.mp hc.literals
  exact ⟨Grade.evaluate_of_kind hc.concrete hleft hleft', Grade.evaluate_of_kind hc.concrete hright hright'⟩

namespace Program

theorem settled_queries {σ : Type} (builtins : Builtins) (prover : Prover σ) (detailed : Bool) (defs : List Definition)
    (st : σ) (hdefs : ∀ d ∈ defs, d.HasDistinctVars)
    : ∀ q ∈ queries builtins prover detailed defs st,
        ∃ d ∈ defs, ∃ s s' : State,
          d.check ⟨builtins, signatures defs⟩ s.reset = .ok () s' ∧
          q = ((s'.obligation d.binder.name d.binder.pos).predicate, (s'.obligation d.binder.name d.binder.pos).vars) ∧
          ∀ c ∈ q.1.constraints, c.IsSettled s' q.2 ∧
            ∀ a : Assignment, c.IsAssigned q.2 a →
              (∃ v, c.left.evaluate c.kind a = .ok v ∧ v.kind = c.kind) ∧
              ∃ v, c.right.evaluate c.kind a = .ok v ∧ v.kind = c.kind := by
  intro q hq
  obtain ⟨d, hd, s, s', hcheck, rfl⟩ := check_recorded.2 q hq
  refine ⟨d, hd, s, s', hcheck, rfl, fun c hc => ?_⟩
  have hsettled : c.IsSettled s' s'.gradeVars :=
    (Definition.isKinded_check hcheck).isSettled (Definition.nodup_check (hdefs d hd) hcheck) hc
  exact ⟨hsettled, fun a ha => hsettled.evaluate ha⟩

/-- Take a box apart and use nothing of its content. The kind of zero is found only after zero is compared. -/
def ignore : Definition where
  binder := ⟨0, "ignore"⟩
  patterns := [.var 0 "b"]
  body := .letBox 0 ⟨0, "x"⟩ (.const "Int") (.var 0 "b") (.int 0 3)
  scheme := ⟨[("l", .grade .level)], .arrow (.box (.var "l") (.const "Int")) (.const "Int")⟩

theorem settled_queries_ignore
    : ∃ q ∈ queries .standard credulous false [ignore] (),
        ∃ c ∈ q.1.constraints, c = .eq 0 (.var "x.1") (.zero (.var "k.0")) .level ∧
          (∃ s : State, c.IsSettled s q.2) ∧ c.IsAssigned q.2 [("x.1", .level .secret)] ∧
          (∃ v, c.left.evaluate c.kind [("x.1", .level .secret)] = .ok v ∧ v.kind = c.kind) ∧
          ∃ v, c.right.evaluate c.kind [("x.1", .level .secret)] = .ok v ∧ v.kind = c.kind := by
  have hqueries : queries .standard credulous false [ignore] ()
      = [(.conj [.impl [] (.conj []) (.conj [
            .atom (.eq 0 (.var "x.1") (.zero (.var "k.0")) .level),
            .atom (.le 0 (.var "l") (.var "x.1") .level)])],
          [⟨"l", .level, .universal⟩, ⟨"x.1", .level, .instantiated⟩])] := by
    cbv
  have hvars : ∀ d ∈ [ignore], d.HasDistinctVars := by
    rw [List.forall_mem_singleton]
    exact ⟨by decide +kernel, by decide +kernel⟩
  have hsettled := settled_queries .standard credulous false [ignore] () hvars
  rw [hqueries] at hsettled ⊢
  obtain ⟨_, _, _, s, _, _, hconstraints⟩ := hsettled _ (List.mem_singleton_self _)
  obtain ⟨hc, hevaluate⟩ := hconstraints _ (List.mem_cons_self ..)
  have hassigned : Constraint.IsAssigned [⟨"l", .level, .universal⟩, ⟨"x.1", .level, .instantiated⟩]
      (.eq 0 (.var "x.1") (.zero (.var "k.0")) .level) [("x.1", .level .secret)] := by
    intro x hx
    obtain rfl : x = "x.1" := by simpa [Constraint.eq, Constraint.vars, Grade.occurrences] using hx
    exact ⟨.level .secret, rfl, by decide⟩
  exact ⟨_, List.mem_singleton_self _, _, List.mem_cons_self .., rfl, ⟨s, hc⟩, hassigned, hevaluate _ hassigned⟩

end Program

end GradedModal
