import Mathlib
import GradedModal.Proofs.Escape
import GradedModal.Typing.Program

/-!
This module says when the queries that a program leads to are closed. A run of the checker records what it asks its
prover. Only a variable that a pattern binds in place of a grade can be free in a query, and in a program whose
definitions are confined none is.
-/

namespace GradedModal

open CheckM Context

section

variable {hint hint' : String} {k k' : Nat}

theorem not_mem_toString (k : Nat) : '.' ∉ (toString k).toList := by
  intro h
  rw [Nat.toString_eq_repr, Nat.repr_eq_ofList_toDigits, String.toList_ofList] at h
  have hdigit := Nat.isDigit_of_mem_toDigits (by decide) (by decide) h
  cases hdigit

theorem toList_freshName : (hint ++ "." ++ toString k).toList = hint.toList ++ '.' :: (toString k).toList := by
  simp [String.toList_append]

theorem isDotless_freshName : isDotless (hint ++ "." ++ toString k) = false := by
  unfold isDotless
  rw [toList_freshName]
  simp

-- A number has no dot, so it is what follows the last one.
theorem takeWhile_freshName (hint : String) (k : Nat)
    : (hint ++ "." ++ toString k).toList.reverse.takeWhile (· ≠ '.') = (toString k).toList.reverse := by
  rw [toList_freshName, List.reverse_append, List.reverse_cons, List.append_assoc, List.singleton_append,
    List.takeWhile_append_of_pos]
  . simp
  . intro c hc
    have hne : c ≠ '.' := fun h => not_mem_toString k (h ▸ List.mem_reverse.mp hc)
    simpa using hne

theorem freshName_inj (h : hint ++ "." ++ toString k = hint' ++ "." ++ toString k') : k = k' := by
  have hdigits := takeWhile_freshName hint k
  rw [h, takeWhile_freshName hint' k'] at hdigits
  have hstring := String.toList_inj.mp (List.reverse_injective hdigits)
  exact (Nat.repr_inj.mp hstring).symm

end

namespace State

/--
Variables whose names are made up have names of their own. Apart from them, only the variables of a signature are in
scope.
-/
structure Distinct (s : State) : Prop where
  named : ∀ v ∈ s.typeVars, isDotless v.name = true ∧ v.quantifier = .universal ∨
    ∃ hint, ∃ k < s.nextFresh, v.name = hint ++ "." ++ toString k
  unique : ∀ v ∈ s.typeVars, ∀ w ∈ s.typeVars, isDotless v.name = false → v.name = w.name → v = w

namespace Distinct

variable {s s' : State}

theorem ne_fresh (h : s.Distinct) (hint : String)
    : ∀ v ∈ s.typeVars, v.name ≠ hint ++ "." ++ toString s.nextFresh := by
  intro v hv heq
  obtain ⟨hdotless, _⟩ | ⟨hint', k, hk, hname⟩ := h.named v hv
  . rw [heq, isDotless_freshName] at hdotless
    cases hdotless
  . rw [hname] at heq
    have hk' := freshName_inj heq
    omega

theorem freshTypeVar (h : s.Distinct) (hint : String) (kind : Kind) (quantifier : Quantifier)
    : Distinct { s with
        typeVars := ⟨hint ++ "." ++ toString s.nextFresh, kind, quantifier⟩ :: s.typeVars
        nextFresh := s.nextFresh + 1 } := by
  have hfresh := h.ne_fresh hint
  constructor
  . rw [List.forall_mem_cons]
    refine ⟨.inr ⟨hint, s.nextFresh, Nat.lt_succ_self _, rfl⟩, fun v hv => ?_⟩
    obtain huniversal | ⟨hint', k, hk, hname⟩ := h.named v hv
    . exact .inl huniversal
    . exact .inr ⟨hint', k, Nat.lt_succ_of_lt hk, hname⟩
  . intro v hv w hw hdotted hname
    obtain rfl | hv := List.mem_cons.mp hv
    . obtain rfl | hw := List.mem_cons.mp hw
      . rfl
      . exact absurd hname.symm (hfresh w hw)
    . obtain rfl | hw := List.mem_cons.mp hw
      . exact absurd hname (hfresh v hv)
      . exact h.unique v hv w hw hdotted hname

theorem freshName (h : s.Distinct) : Distinct { s with nextFresh := s.nextFresh + 1 } := by
  refine ⟨fun v hv => ?_, h.unique⟩
  obtain huniversal | ⟨hint, k, hk, hname⟩ := h.named v hv
  . exact .inl huniversal
  . exact .inr ⟨hint, k, Nat.lt_succ_of_lt hk, hname⟩

theorem congr (h : s.Distinct) (htypeVars : s'.typeVars = s.typeVars) (hnextFresh : s'.nextFresh = s.nextFresh)
    : s'.Distinct := by
  constructor
  . rw [htypeVars, hnextFresh]
    exact h.named
  . rw [htypeVars]
    exact h.unique

theorem of_reaches (h : s.Distinct) (hs' : s.Reaches s') : s'.Distinct := by
  apply hs'.visits.induct (motive := Distinct) h
  . intro t t' htypeVars hnextFresh ht
    exact ht.congr htypeVars hnextFresh
  . intro t ht
    exact ht.freshName
  . intro t hint kind quantifier ht
    exact ht.freshTypeVar hint kind quantifier

theorem of_universals (h : ∀ v ∈ s.typeVars, isDotless v.name = true ∧ v.quantifier = .universal) : s.Distinct where
  named v hv := .inl (h v hv)
  unique v hv w hw hdotted hname := by
    rw [(h v hv).1] at hdotted
    cases hdotted

-- A variable for the solver does not have the name of one that a pattern binds.
theorem allows (h : s.Distinct) : s.Allows fun x => Predicate.quantifierOf s.gradeVars x ≠ .patternBound := by
  have hbound : ∀ x, Predicate.quantifierOf s.gradeVars x = .patternBound →
      ∃ v ∈ s.typeVars, v.name = x ∧ v.quantifier = .patternBound ∧ v.kind.gradeKind? ≠ none := by
    intro x hx
    unfold Predicate.quantifierOf at hx
    cases hfind : s.gradeVars.find? (·.name = x) with
    | none =>
      rw [hfind] at hx
      cases hx
    | some w =>
      rw [hfind] at hx
      obtain ⟨v, hv, hw⟩ := List.mem_filterMap.mp (List.mem_of_find?_eq_some hfind)
      obtain ⟨kind, hkind, rfl⟩ := Option.map_eq_some_iff.mp hw
      exact ⟨v, List.mem_reverse.mp hv, Predicate.name_of_find? hfind, hx, by simp [hkind]⟩
  have hdotted : ∀ v ∈ s.typeVars, v.quantifier = .patternBound → isDotless v.name = false := by
    intro v hv hquantifier
    obtain ⟨_, huniversal⟩ | ⟨hint, k, _, hname⟩ := h.named v hv
    . rw [hquantifier] at huniversal
      cases huniversal
    . rw [hname]
      exact isDotless_freshName
  constructor
  . intro x hx hquantifier
    obtain ⟨v, hv, rfl, hv', _⟩ := hbound x hquantifier
    rw [hdotted v hv hv'] at hx
    cases hx
  . intro w hw hkind hquantifier
    obtain ⟨v, hv, hname, hv', hv''⟩ := hbound w.name hquantifier
    obtain rfl := h.unique v hv w hw (hdotted v hv hv') hname
    obtain hinstantiated | hkind := hkind
    . rw [hv'] at hinstantiated
      cases hinstantiated
    . exact hv'' hkind

end Distinct

theorem Extends.collected_eq {s s' : State} (h : s.Extends s') (hpredicate : s.predicate = []) (hscopes : s.scopes = [])
    : s'.collected = .conj (s.added s') := by
  obtain ⟨ps, _, hscopes'⟩ := h
  rw [(addAll_scopes_nil hscopes ps).2] at hscopes'
  simp [collected, added, current, hpredicate, hscopes, hscopes']

end State

namespace Predicate

theorem mapKindsAll_eq_map (f : GradeKind → GradeKind) (ps : List Predicate)
    : mapKindsAll f ps = ps.map (mapKinds f) := by
  induction ps with
  | nil => rfl
  | cons p ps ih => simp [mapKindsAll, ih]

theorem free_mapKinds {x : String} (f : GradeKind → GradeKind) (p : Predicate)
    : (p.mapKinds f).Free x ↔ p.Free x := by
  induction p using Predicate.induction with
  | atom c => rfl
  | conj items ih =>
    simp only [mapKinds, Free, freeInSome_iff, mapKindsAll_eq_map, List.mem_map, exists_exists_and_eq_and]
    exact exists_congr fun p => and_congr_right (ih p)
  | impl bound antecedent consequent iha ihc => simp only [mapKinds, Free, iha, ihc]

end Predicate

def Builtins.isDotless (b : Builtins) : Bool :=
  b.constructors.all (·.2.ty.isDotless) && b.operators.all (·.2.isDotless) && b.definitions.all (·.2.ty.isDotless)

namespace Definition

/--
The type that is left for the body, as the signature tells it.
-/
def bodyTy (d : Definition) : Ty :=
  (d.scheme.ty.args.drop d.patterns.length).foldr .arrow d.scheme.ty.result

/--
Whether no variable can leave the scope of a pattern that binds it in place of a grade. The names of a program have no
dots, so that they differ from those that are made up.
-/
def isConfined (env : Env) (d : Definition) : Bool :=
  d.scheme.vars.all (GradedModal.isDotless ·.1) && d.scheme.ty.isDotless && d.body.isDotless &&
    d.body.isConfined env (some d.bodyTy)

section

variable {A : String → Prop} {env : Env} {d : Definition} {s s' : State}

theorem isConfined_iff
    : d.isConfined env = true
        ↔
      (∀ b ∈ d.scheme.vars, GradedModal.isDotless b.1 = true) ∧ d.scheme.ty.isDotless = true ∧
        d.body.isDotless = true ∧ d.body.isConfined env (some d.bodyTy) = true := by
  simp [isConfined, and_assoc]

theorem bindPatterns_advancing (ps : List Pattern) (tys : List Ty) (matched : Matched)
    : Advancing (bindPatterns env ps tys matched) := by
  fun_induction bindPatterns env ps tys matched with
  | case1 p ps ty tys matched ih =>
    apply closed_along.bind (Pattern.matchTy_advancing _ _ _)
    intro arg
    apply closed_along.bind (Matched.merge_advancing _ _ _ _)
    exact ih
  | case2 => exact closed_along.pure _

theorem bindPatterns_existentials {ps : List Pattern} {tys : List Ty} {matched m : Matched}
    (h : bindPatterns env ps tys matched s = .ok m s') : ∀ b ∈ matched.existentials, b ∈ m.existentials := by
  fun_induction bindPatterns env ps tys matched generalizing s with
  | case1 p ps ty tys matched ih =>
    rw [bind_eq_ok] at h
    obtain ⟨arg, s₁, harg, h⟩ := h
    rw [bind_eq_ok] at h
    obtain ⟨matched', s₂, hmerge, h⟩ := h
    intro b hb
    apply ih matched' h
    rw [Matched.merge_existentials hmerge]
    exact List.mem_append_left _ hb
  | case2 =>
    rw [pure_eq_ok] at h
    obtain ⟨rfl, rfl⟩ := h
    exact fun _ hb => hb

theorem bindPatterns_within (henv : env.IsDotless) {ps : List Pattern} {tys : List Ty} {matched m : Matched}
    (h : bindPatterns env ps tys matched s = .ok m s') (hs' : s'.Allows A) (hm : ∀ b ∈ m.existentials, A b.1)
    (htys : ∀ ty ∈ tys, ty.Within A) (hmatched : matched.Within A) : s.Collects A s' ∧ m.Within A := by
  fun_induction bindPatterns env ps tys matched generalizing s with
  | case1 p ps ty tys matched ih =>
    rw [List.forall_mem_cons] at htys
    rw [bind_eq_ok] at h
    obtain ⟨arg, s₁, harg, h⟩ := h
    rw [bind_eq_ok] at h
    obtain ⟨matched', s₂, hmerge, h⟩ := h
    have hs₂ := hs'.of_reaches (bindPatterns_advancing _ _ _ h).reaches
    have hs₁ := hs₂.of_reaches (Matched.merge_reaching _ _ _ _ hmerge)
    have hmatched' := fun b hb => hm b (bindPatterns_existentials h b hb)
    rw [Matched.merge_existentials hmerge, List.forall_mem_append] at hmatched'
    obtain ⟨hcollects, harg⟩ := Pattern.matchTy_within henv p harg hs₁ hmatched'.2 (htys.1.substitute hmatched.2)
    obtain ⟨hcollects', hmatched⟩ :=
      (Matched.merge_confines (fun _ => hmatched) (fun _ => harg)).collects hmerge hs₂
    obtain ⟨hrest, hm⟩ := ih matched' h htys.2 hmatched
    exact ⟨(hcollects.trans hcollects').trans hrest, hm⟩
  | case2 =>
    rw [pure_eq_ok] at h
    obtain ⟨rfl, rfl⟩ := h
    exact ⟨.refl, hmatched⟩

theorem bindParameters_eq_ok {m : Matched} {expected : Ty} (h : d.bindParameters env s = .ok (m, expected) s')
    : bindPatterns env d.patterns d.scheme.ty.args ⟨.empty, [], []⟩ s = .ok m s' ∧
      expected = d.bodyTy.substitute m.subst := by
  unfold bindParameters at h
  dsimp only at h
  rw [ite_fail_bind_eq_ok, bind_eq_ok] at h
  obtain ⟨_, matched, s₁, hpatterns, h⟩ := h
  rw [pure_eq_ok] at h
  obtain ⟨h, rfl⟩ := h
  cases h
  exact ⟨hpatterns, rfl⟩

theorem bodyTy_within (h : d.scheme.ty.Within A) : d.bodyTy.Within A := by
  have hargs : ∀ ty ∈ d.scheme.ty.args.drop d.patterns.length, ty.Within A :=
    fun ty hty => h.args ty (List.mem_of_mem_drop hty)
  unfold bodyTy
  generalize d.scheme.ty.args.drop d.patterns.length = args at hargs
  induction args with
  | nil => exact h.result
  | cons ty args ih =>
    rw [List.forall_mem_cons] at hargs
    exact Ty.within_arrow.mpr ⟨hargs.1, ih hargs.2⟩

theorem bindUniversals_eq_ok {vars : List (String × Kind)} (h : bindUniversals vars s = .ok () s')
    : s'.predicate = s.predicate ∧ s'.scopes = s.scopes ∧
      ∀ v ∈ s'.typeVars, v ∈ s.typeVars ∨ v.name ∈ vars.map (·.1) ∧ v.quantifier = .universal := by
  induction vars generalizing s with
  | nil =>
    cases h
    exact ⟨rfl, rfl, fun _ => .inl⟩
  | cons b vars ih =>
    obtain ⟨hpredicate, hscopes, htypeVars⟩ := ih h
    refine ⟨hpredicate, hscopes, fun v hv => ?_⟩
    obtain hv | ⟨hname, hv⟩ := htypeVars v hv
    . obtain rfl | hv := List.mem_cons.mp hv
      . exact .inr ⟨List.mem_cons_self, rfl⟩
      . exact .inl hv
    . exact .inr ⟨List.mem_cons_of_mem _ hname, hv⟩

-- The parameters of a definition are like the pattern of a branch, and nothing surrounds them.
theorem check_within (henv : env.IsDotless) (hd : d.isConfined env = true) (h : d.check env s = .ok () s')
    : ∃ s₁, bindUniversals d.scheme.vars s = .ok () s₁ ∧ s₁.Reaches s' ∧ (s'.Allows A → s₁.Collects A s') := by
  obtain ⟨matched, expected, used, subst, s₁, s₂, s₃, s₄, s₅, s₆, huniversals, hopen, hmatched, henter, hbody, _, hle,
    hclose⟩ := check_eq_ok h
  obtain ⟨_, hty, hdotless, hconfined⟩ := isConfined_iff.mp hd
  have hbinds := bindParameters_binds hmatched
  obtain ⟨hpatterns, rfl⟩ := bindParameters_eq_ok hmatched
  obtain ⟨r, hinfer, hresult⟩ := Expr.check_eq_ok hbody
  cases hresult
  have hs₆ := Context.le_reaching _ _ _ hle
  have hs₅ := Expr.infer_reaching _ _ _ _ _ hinfer
  have hs₃ := (bindPatterns_advancing _ _ _ hpatterns).reaches
  refine ⟨s₁, huniversals, .imply .refl hopen hs₃ henter (hs₅.trans hs₆) hclose, fun hs' => ?_⟩
  let B := fun y => A y ∨ y ∈ matched.existentials.map (·.1)
  have hallows₆ : s₆.Allows B := (hs'.of_typeVars_eq (State.closeScope_eq_ok hclose).1).mono fun _ => .inl
  have hallows₅ := hallows₆.of_reaches hs₆
  have hallows₃ := (hallows₅.of_reaches hs₅).of_typeVars_eq (State.enterConsequent_eq_ok henter).1
  have hB : ∀ b ∈ matched.existentials, B b.1 := fun b hb => .inr (List.mem_map_of_mem hb)
  have htyWithin : d.scheme.ty.Within B := hallows₆.ty hty
  obtain ⟨hantecedent, hmatchedWithin⟩ := bindPatterns_within henv hpatterns hallows₃ hB htyWithin.args
    ⟨within_empty, Substitution.typesWithin_nil⟩
  obtain ⟨hconsequent, hr⟩ := Expr.keepsScope henv d.body hinfer hallows₅ {
    dotless := hdotless
    confined := Expr.isConfined_mono d.body hconfined (Ty.outlines_substitute d.bodyTy _)
    context := hmatchedWithin.1
    goal := (bodyTy_within htyWithin).substitute hmatchedWithin.2
    nodup := hbinds.nodup
    linear := .of_le hle }
  have hintersect : (r.used.intersect matched.context).Within B := hr.used.filter _
  have hconsequent' := ((le_confines (fun _ => hintersect) (fun _ => hmatchedWithin.1)).collects hle hallows₆).1
  exact .imply hopen hantecedent henter (hconsequent.trans hconsequent') hclose fun _ hy => hy

theorem closed_obligation (henv : env.IsDotless) (hd : d.isConfined env = true) {s s' : State}
    (h : d.check env s.reset = .ok () s') (name : String) (pos : Nat)
    : ((s'.obligation name pos).predicate.compile (s'.obligation name pos).vars).formula.Closed := by
  obtain ⟨s₁, huniversals, hreaches, hcollects⟩ :=
    check_within (A := fun x => Predicate.quantifierOf s'.gradeVars x ≠ .patternBound) henv hd h
  obtain ⟨hpredicate, hscopes, htypeVars⟩ := bindUniversals_eq_ok huniversals
  have hdistinct : s₁.Distinct := by
    apply State.Distinct.of_universals
    intro v hv
    obtain hv | ⟨hname, hv⟩ := htypeVars v hv
    . cases hv
    . obtain ⟨b, hb, hname⟩ := List.mem_map.mp hname
      rw [← hname]
      exact ⟨(isConfined_iff.mp hd).1 b hb, hv⟩
  have hwithin := Predicate.within_conj.mpr (hcollects (hdistinct.of_reaches hreaches).allows).within
  rw [← hreaches.extends.collected_eq hpredicate hscopes] at hwithin
  rw [Predicate.closed_formula_iff]
  intro x _ hx hfree
  exact hwithin x ((Predicate.free_mapKinds _ _).mp hfree) hx

end

end Definition

/--
A prover that also records what it is asked.
-/
def Prover.recorded {σ : Type} (prover : Prover σ) : Prover (σ × List (Predicate × List GradeVar)) :=
  fun p vars => do
    let (st, asked) ← get
    let (verdict, st) := prover p vars st
    set (st, asked ++ [(p, vars)])
    return verdict

section

variable {σ : Type} (prover : Prover σ) (st : σ) (asked : List (Predicate × List GradeVar))

theorem Obligation.discharge_recorded (o : Obligation)
    : ∃ new, o.discharge prover.recorded (st, asked)
          = ((o.discharge prover st).1, (o.discharge prover st).2, asked ++ new) ∧
        ∀ q ∈ new, q = (o.predicate, o.vars) := by
  unfold discharge
  split
  . exact ⟨[], by simp [pure, StateT.pure], fun _ h => nomatch h⟩
  . exact ⟨[(o.predicate, o.vars)], rfl, fun _ => List.mem_singleton.mp⟩

def Definition.Leaves (env : Env) (d : Definition) (q : Predicate × List GradeVar) : Prop :=
  ∃ s s' : State, d.check env s.reset = .ok () s' ∧
    q = ((s'.obligation d.binder.name d.binder.pos).predicate, (s'.obligation d.binder.name d.binder.pos).vars)

theorem StateM.bind_apply {α β : Type} (x : StateM σ α) (f : α → StateM σ β) : (x >>= f) st = f (x st).1 (x st).2 :=
  rfl

theorem Program.checkBodies_recorded (env : Env) (detailed : Bool) (defs : List Definition) (s : State)
    : ∃ new, checkBodies env prover.recorded detailed defs s (st, asked)
          = ((checkBodies env prover detailed defs s st).1, (checkBodies env prover detailed defs s st).2,
              asked ++ new) ∧
        ∀ q ∈ new, ∃ d ∈ defs, d.Leaves env q := by
  induction defs generalizing s st asked with
  | nil => exact ⟨[], by simp [checkBodies, pure, StateT.pure], fun _ h => nomatch h⟩
  | cons d defs ih =>
    unfold checkBodies
    cases hcheck : d.check env s.reset with
    | error e s' => exact ⟨[], by simp [pure, StateT.pure], fun _ h => nomatch h⟩
    | ok _ s' =>
      obtain ⟨new, hdischarge, hnew⟩ :=
        (s'.obligation d.binder.name d.binder.pos).discharge_recorded prover st asked
      have hleaves : ∀ q ∈ new, ∃ d' ∈ d :: defs, d'.Leaves env q :=
        fun q hq => ⟨d, List.mem_cons_self, s, s', hcheck, hnew q hq⟩
      dsimp only
      rw [StateM.bind_apply, StateM.bind_apply, hdischarge]
      generalize (s'.obligation d.binder.name d.binder.pos).discharge prover st = r
      obtain ⟨result, st'⟩ := r
      cases result with
      | error e => exact ⟨new, rfl, hleaves⟩
      | ok _ =>
        obtain ⟨rest, hrun, hrest⟩ := ih st' (asked ++ new) s'.reset
        dsimp only
        rw [StateM.bind_apply, StateM.bind_apply, hrun]
        refine ⟨new ++ rest, by simp [pure, StateT.pure], ?_⟩
        rw [List.forall_mem_append]
        refine ⟨hleaves, fun q hq => ?_⟩
        obtain ⟨d', hd', hleaves'⟩ := hrest q hq
        exact ⟨d', List.mem_cons_of_mem _ hd', hleaves'⟩

end

namespace Program

/--
What a run over definitions asks its prover.
-/
def queries {σ : Type} (builtins : Builtins) (prover : Prover σ) (detailed : Bool) (defs : List Definition) (st : σ) :
    List (Predicate × List GradeVar) :=
  ((check builtins prover.recorded detailed defs).run (st, [])).run.2.2

section

variable {σ : Type} {builtins : Builtins} {prover : Prover σ} {detailed : Bool} {defs : List Definition} {st : σ}

theorem check_recorded
    : ((check builtins prover.recorded detailed defs).run (st, [])).run.1
        = ((check builtins prover detailed defs).run st).run.1 ∧
      ∀ q ∈ queries builtins prover detailed defs st, ∃ d ∈ defs, d.Leaves ⟨builtins, signatures defs⟩ q := by
  unfold queries check
  dsimp only
  cases checkSignatures ⟨builtins, signatures defs⟩ defs .start with
  | error e s => exact ⟨rfl, fun _ h => nomatch h⟩
  | ok _ s =>
    obtain ⟨new, hrun, hnew⟩ := checkBodies_recorded prover st [] ⟨builtins, signatures defs⟩ detailed defs s
    dsimp only [StateT.run, Id.run]
    rw [hrun]
    exact ⟨rfl, hnew⟩

theorem isDotless_env (hbuiltins : builtins.isDotless = true)
    (hdefs : ∀ d ∈ defs, d.isConfined ⟨builtins, signatures defs⟩ = true)
    : Env.IsDotless ⟨builtins, signatures defs⟩ := by
  unfold Builtins.isDotless at hbuiltins
  simp only [Bool.and_eq_true, List.all_eq_true] at hbuiltins
  obtain ⟨⟨hconstructors, hoperators⟩, hdefinitions⟩ := hbuiltins
  refine ⟨fun name scheme h => hconstructors _ (mem_of_lookup h), ?_, ?_⟩
  . intro name scheme h
    obtain h | ⟨_, h⟩ := Option.or_eq_some_iff.mp h
    . obtain ⟨d, hd, heq⟩ := List.mem_map.mp (mem_of_lookup h)
      cases heq
      exact (Definition.isConfined_iff.mp (hdefs d (List.mem_reverse.mp hd))).2.1
    . exact hdefinitions _ (mem_of_lookup h)
  . intro op ty hty
    obtain ⟨b, hb, rfl⟩ := List.mem_map.mp hty
    exact hoperators b (List.mem_filter.mp hb).1

end

/--
Recording what the prover is asked does not change a run. A variable that is free in a query is bound by a pattern of
the program, and by an implication of the query that it has left. If all definitions are confined, queries are closed.
-/
theorem closed_queries {σ : Type} (builtins : Builtins) (prover : Prover σ) (detailed : Bool) (defs : List Definition)
    (st : σ)
    : ((check builtins prover.recorded detailed defs).run (st, [])).run.1
        = ((check builtins prover detailed defs).run st).run.1 ∧
      ∀ q ∈ queries builtins prover detailed defs st,
        (∀ x, (q.1.compile q.2).formula.Free x →
          q.1.Free x ∧ Predicate.quantifierOf q.2 x = .patternBound ∧ x ∈ q.1.boundVars) ∧
        (builtins.isDotless = true → (∀ d ∈ defs, d.isConfined ⟨builtins, signatures defs⟩ = true) →
          (q.1.compile q.2).formula.Closed) := by
  refine ⟨check_recorded.1, fun q hq => ⟨fun x => (Predicate.free_formula_iff q.1 q.2 x).mp, ?_⟩⟩
  intro hbuiltins hdefs
  obtain ⟨d, hd, s, s', hcheck, rfl⟩ := check_recorded.2 q hq
  exact Definition.closed_obligation (isDotless_env hbuiltins hdefs) (hdefs d hd) hcheck d.binder.name d.binder.pos

/-- A prover that believes everything. -/
def credulous : Prover Unit :=
  fun _ _ => return .valid

/-- Take a number apart and put it together again. -/
def rebuild : Definition where
  binder := ⟨0, "rebuild"⟩
  patterns := [.var 0 "v"]
  body :=
    .case 0 (.var 0 "v")
      [(.constructor 0 "Z" [], .constructor 0 "Z"),
        (.constructor 0 "S" [.var 0 "k"], .app 0 (.constructor 0 "S") (.var 0 "k"))]
  scheme := ⟨[("n", .grade .nat)], .arrow (Builtins.number (.var "n")) (Builtins.number (.var "n"))⟩

theorem closed_queries_rebuild
    : queries .standard credulous false [rebuild] () ≠ [] ∧
      ∀ q ∈ queries .standard credulous false [rebuild] (), (q.1.compile q.2).formula.Closed := by
  have hlength : (queries .standard credulous false [rebuild] ()).length = 1 := by cbv
  have hconfined : ∀ d ∈ [rebuild], d.isConfined ⟨.standard, signatures [rebuild]⟩ = true := by decide +kernel
  refine ⟨List.ne_nil_of_length_eq_add_one hlength, fun q hq => ?_⟩
  exact ((closed_queries .standard credulous false [rebuild] ()).2 q hq).2 (by decide +kernel) hconfined

/-- The type of `p` is that of `k`, whose size is known only to the pattern `S k`. -/
def predecessor : Definition where
  binder := ⟨0, "f"⟩
  patterns := [.var 0 "v"]
  body :=
    .case 0 (.case 0 (.var 0 "v") [(.constructor 0 "S" [.var 0 "k"], .var 0 "k")]) [(.var 0 "p", .var 0 "p")]
  scheme := ⟨[("n", .grade .nat)], .arrow (Builtins.number (.var "n")) (Builtins.number (.var "n"))⟩

/-- `(forall n.0. n = n.0 + 1 -> true) && (true -> n = n.0)` -/
def escaped : Predicate :=
  .conj [
    .impl [("n.0", .grade .nat)] (.conj [.atom (.eq 0 (.var "n") (.op .plus (.var "n.0") (.nat 1)) .nat)]) (.conj []),
    .impl [] (.conj []) (.conj [.atom (.eq 0 (.var "n") (.var "n.0") .nat)])]

theorem open_query_predecessor
    : ∃ q ∈ queries .standard credulous false [predecessor] (), ¬(q.1.compile q.2).formula.Closed := by
  have hqueries : queries .standard credulous false [predecessor] ()
      = [(.conj [.impl [] (.conj []) escaped], [⟨"n", .nat, .universal⟩, ⟨"n.0", .nat, .patternBound⟩])] := by
    cbv
  have hmentions : (Constraint.eq 0 (.var "n") (.var "n.0") .nat).mentions "n.0" = true := by decide
  rw [hqueries]
  refine ⟨_, List.mem_singleton_self _, fun hclosed => hclosed "n.0" ?_⟩
  rw [Predicate.free_formula_iff]
  exact ⟨.inl ⟨by simp, .inr (.inr (.inl ⟨by simp, .inr (.inl hmentions)⟩))⟩, by decide, by decide⟩

end Program
end GradedModal
