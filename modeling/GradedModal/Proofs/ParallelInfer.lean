import Mathlib
import GradedModal.Proofs.Remainder
import GradedModal.Proofs.ParallelChecks

/-!
This module checks an expression and its renamed copy in parallel. They are accepted together if no case has a pattern
that binds a renamed variable which one of its branches uses from outside.
-/

namespace GradedModal

open CheckM

namespace Context

variable {N : String → Prop} {n d : Nat} {W : Pairing} {c c' u u' : Context} {x y : String} {a : Assumption}
  {vars : List String}

theorem mem_names_bind : x ∈ (c.bind y a).names ↔ x ∈ c.names ∨ x = y := by
  rw [← isSome_lookup?_iff, ← isSome_lookup?_iff, lookup?_bind]
  split
  . next h => simp [h]
  . next h => simp [h]

theorem mem_names_bindAll : x ∈ (c.bindAll u).names ↔ x ∈ c.names ∨ x ∈ u.names := by
  obtain ⟨bindings⟩ := u
  unfold Context.bindAll
  induction bindings generalizing c with
  | nil => simp [names]
  | cons b bindings ih =>
    rw [List.foldl_cons, ih, mem_names_bind, or_assoc]
    simp [names]

/--
Contexts that are paired in one way are extended by contexts that are paired in another way. If the ways agree where it
matters, then the results are paired in the latter way, apart from bindings that do not matter.
-/
theorem exists_paired_bindAll {ρ σ : Relabeling N n d} (hc : c.Paired ρ.pairing W c') (hu : u.Paired σ.pairing W u')
    (hnodup : c.names.Nodup) (hagree : ∀ x ∈ vars, x ∉ u.names → σ.map x = ρ.map x)
    (hbound : ∀ x ∈ vars, x ∉ u.names → ρ.map x ≠ x → x ∈ c.names)
    : ∃ e e' : Context, AgreesOn vars (c.bindAll u) e ∧ AgreesOn (vars.map σ.map) (c'.bindAll u') e' ∧
        e.Paired σ.pairing W e' ∧ e.names.Nodup ∧ ∀ x ∈ vars, σ.map x ≠ x → x ∈ e.names := by
  let outer := vars.filter (· ∉ u.names)
  let outer' := (vars.map σ.map).filter (· ∉ u'.names)
  have houter : ∀ x, x ∈ outer ↔ x ∈ vars ∧ x ∉ u.names := by
    intro x
    simp [outer]
  have houter' : ∀ y, y ∈ outer' ↔ y ∈ vars.map σ.map ∧ y ∉ u'.names := by
    intro y
    simp only [outer', List.mem_filter, decide_eq_true_eq]
  have hnames : ∀ x, x ∈ u.names ↔ σ.map x ∈ u'.names := fun x => hu.mem_names rfl
  have hrel : ∀ x, x ∈ outer ↔ ρ.map x ∈ outer' := by
    intro x
    rw [houter, houter', List.mem_map]
    constructor
    . rintro ⟨hx, hxu⟩
      have hσρ := hagree x hx hxu
      exact ⟨⟨x, hx, hσρ⟩, by rwa [← hσρ, ← hnames]⟩
    . rintro ⟨⟨z, hz, hzx⟩, hxu⟩
      have hzu : z ∉ u.names := by rwa [hnames, hzx]
      have hxz : x = z := ρ.injective (by rw [← hzx, hagree z hz hzu])
      rw [hxz]
      exact ⟨hz, hzu⟩
  have hrestrict : (c.restrict outer).Paired σ.pairing W (c'.restrict outer') := by
    apply hc.filter
    . rintro x _ _ _ _ rfl _
      rw [Bool.eq_iff_iff, List.contains_iff_mem, List.contains_iff_mem]
      exact hrel x
    . rintro x _ _ _ rfl hx
      obtain ⟨hx, hxu⟩ := (houter x).mp (List.contains_iff_mem.mp hx)
      exact hagree x hx hxu
  have hself : ∀ (vars : List String) (c : Context), AgreesOn vars c (c.restrict vars) :=
    fun vars c => (restrict_restrict (fun _ => id) c).symm
  refine ⟨(c.restrict outer).bindAll u, (c'.restrict outer').bindAll u', (hself outer c).bindAll ?_,
    (hself outer' c').bindAll ?_, hrestrict.foldl_bind hu, nodup_names_bindAll (nodup_names_filter hnodup _) u, ?_⟩
  . intro x hx
    by_cases hxu : x ∈ u.names
    . exact .inr hxu
    . exact .inl ((houter x).mpr ⟨hx, hxu⟩)
  . intro y hy
    by_cases hyu : y ∈ u'.names
    . exact .inr hyu
    . exact .inl ((houter' y).mpr ⟨hy, hyu⟩)
  . intro x hx hne
    rw [mem_names_bindAll]
    by_cases hxu : x ∈ u.names
    . exact .inr hxu
    . left
      rw [hagree x hx hxu] at hne
      rw [← isSome_lookup?_iff, lookup?_restrict, if_pos ((houter x).mpr ⟨hx, hxu⟩), isSome_lookup?_iff]
      exact hbound x hx hxu hne

end Context

/--
The answers about the scope of a variable, seen from outside of it.
-/
structure Typed.PairedOutside (T : Pairing) (z : String) (W : Pairing) (r r' : Typed) : Prop where
  ty : r.ty.Paired W r'.ty
  own : Option.Rel (Assumption.Paired W) (r.used.lookup? z) (r'.used.lookup? z)
  used : (r.used.remove z).Paired T W (r'.used.remove z)
  subst : Substitution.Paired W r.subst r'.subst

structure Expr.CaseInfo.Paired (T W : Pairing) (info info' : CaseInfo) : Prop where
  pos : info.pos = info'.pos
  context : info.context.Paired T W info'.context
  polarity : info.polarity = info'.polarity
  scrutinee : info.scrutinee.Paired W info'.scrutinee
  baseline : info.baseline.Paired T W info'.baseline
  expected : Option.Rel (Ty.Paired W) info.expected info'.expected

structure Expr.Joined.Paired (T W : Pairing) (joined joined' : Joined) : Prop where
  ty : Option.Rel (Ty.Paired W) joined.ty joined'.ty
  used : Option.Rel (Context.Paired T W) joined.used joined'.used

namespace Expr

variable {N : String → Prop} {n d : Nat} {W V : Pairing} {env env' : Env} {c c' : Context} {polarity : Polarity}
  {goal goal' : Goal}

def JudgedAlike (n d : Nat) (T W : Pairing) (env env' : Env) (c c' : Context) (e e' : Expr) : Prop :=
  ∀ V, W ≤ V → ∀ (polarity : Polarity) {goal goal' : Goal}, goal.Paired V goal' →
    Parallel n d V (Typed.Paired T) (infer env e c polarity goal) (infer env' e' c' polarity goal')

def JudgedAlikeUnder (z : String) (n d : Nat) (T W : Pairing) (env env' : Env) (c c' : Context) (body body' : Expr)
    : Prop :=
  ∀ V, W ≤ V → ∀ (polarity : Polarity) {a a' : Assumption} {goal goal' : Goal}, a.Paired V a' → goal.Paired V goal' →
    Parallel n d V (Typed.PairedOutside T z) (infer env body (c.bind z a) polarity goal)
      (infer env' body' (c'.bind z a') polarity goal')

/--
An expression of the program whose renamed variables are not contended.
-/
structure Admits (ρ : Relabeling N n d) (W : Pairing) (e : Expr) : Prop where
  named : ∀ x ∈ e.names, N x
  declared : ∀ ty ∈ e.annotations, ty.Paired W ty
  uncontended : ∀ x, N x → ρ.map x ≠ x → e.contends x = false

namespace Admits

variable {ρ : Relabeling N n d} {e a b : Expr}

theorem mono (h : e.Admits ρ W) (hWV : W ≤ V) : e.Admits ρ V where
  named := h.named
  declared ty hty := (h.declared ty hty).mono hWV
  uncontended := h.uncontended

theorem split (h : e.Admits ρ W) (hnames : e.names = a.names ++ b.names)
    (hannotations : e.annotations = a.annotations ++ b.annotations)
    (hcontends : ∀ x, e.contends x = (a.contends x || b.contends x)) : a.Admits ρ W ∧ b.Admits ρ W := by
  obtain ⟨hnamed, hdeclared, huncontended⟩ := h
  simp only [hnames, List.forall_mem_append] at hnamed
  simp only [hannotations, List.forall_mem_append] at hdeclared
  simp only [hcontends, Bool.or_eq_false_iff] at huncontended
  exact ⟨⟨hnamed.1, hdeclared.1, fun x hx hne => (huncontended x hx hne).1⟩,
    ⟨hnamed.2, hdeclared.2, fun x hx hne => (huncontended x hx hne).2⟩⟩

theorem keep {kept : List String} {σ : Relabeling N n d} (hσ : ∀ x, N x → σ.map x = keeping kept ρ.map x)
    (hnamed : ∀ x ∈ e.names, N x) (hdeclared : ∀ ty ∈ e.annotations, ty.Paired W ty)
    (huncontended : ∀ x, N x → ρ.map x ≠ x → x ∉ kept → e.contends x = false) : e.Admits σ W where
  named := hnamed
  declared := hdeclared
  uncontended := by
    intro x hx hne
    rw [hσ x hx] at hne
    by_cases hkept : x ∈ kept
    . exact (hne (keeping_of_mem hkept)).elim
    . rw [keeping_of_not_mem hkept] at hne
      exact huncontended x hx hne hkept

end Admits

section

variable (ρ : Relabeling N n d) {e : Expr}

theorem mem_map_iff {vars : List String} {x y : String} (hxy : ρ.pairing.rel x y) : x ∈ vars ↔ y ∈ vars.map ρ.map := by
  obtain rfl : ρ.map x = y := hxy
  exact (List.mem_map_of_injective ρ.injective).symm

theorem mem_freeVars_iff (hnamed : ∀ x ∈ e.names, N x) {x y : String} (hxy : ρ.pairing.rel x y)
    : x ∈ e.freeVars ↔ y ∈ (e.rename ρ.map).freeVars := by
  unfold freeVars
  rw [List.mem_eraseDups, List.mem_eraseDups, freeOccurrences_rename ρ.avoids e hnamed]
  exact mem_map_iff ρ hxy

theorem scaleFactor?_rename {f : Expr} (hc : c.Paired ρ.pairing W c')
    (hbound : ∀ x ∈ f.freeOccurrences, ρ.map x ≠ x → x ∈ c.names)
    : scaleFactor? c f = scaleFactor? c' (f.rename ρ.map) := by
  cases f with
  | app pos g a =>
    cases g with
    | var pos' name =>
      cases a with
      | float pos'' factor =>
        have hcontains : c.contains name = c'.contains (ρ.map name) := hc.contains rfl
        by_cases hname : ρ.map name = name
        . simp only [scaleFactor?, rename, hname, hcontains]
        . have hlocal : c.contains name = true :=
            Context.isSome_lookup?_iff.mpr (hbound name List.mem_cons_self hname)
          simp [scaleFactor?, rename, ← hcontains, hlocal]
      | _ => rfl
    | _ => rfl
  | _ => rfl

theorem judgedAlikeUnder_keeping {body : Expr} {z : String} (hz : N z) (hnamed : ∀ x ∈ body.names, N x)
    (hdeclared : ∀ ty ∈ body.annotations, ty.Paired W ty)
    (huncontended : ∀ x, N x → ρ.map x ≠ x → z = x ∨ body.contends x = false)
    (hc : c.Paired ρ.pairing W c') (hnodup : c.names.Nodup)
    (hbound : ∀ x ∈ body.freeOccurrences.filter (· != z), ρ.map x ≠ x → x ∈ c.names)
    (hbody : ∀ V, W ≤ V → ∀ {e e' : Context} {σ : Relabeling N n d}, body.Admits σ V → e.Paired σ.pairing V e' →
      e.names.Nodup → (∀ x ∈ body.freeOccurrences, σ.map x ≠ x → x ∈ e.names) →
      JudgedAlike n d σ.pairing V env env' e e' body (body.rename σ.map))
    : JudgedAlikeUnder z n d ρ.pairing W env env' c c' body (body.rename (keeping [z] ρ.map)) := by
  intro V hV polarity a a' goal goal' ha hgoal
  have hkept : ∀ x ∈ [z], N x := List.forall_mem_singleton.mpr hz
  let σ := ρ.keep [z] hkept
  have hmap : ∀ x, N x → σ.map x = keeping [z] ρ.map x := fun x => ρ.keep_map hkept
  have hadmits : body.Admits σ V := by
    apply Admits.keep hmap hnamed fun ty hty => (hdeclared ty hty).mono hV
    intro x hx hne hxz
    exact (huncontended x hx hne).resolve_left fun h => hxz (by simp [h])
  have hfree : ∀ x ∈ body.freeOccurrences, N x := fun x hx => hnamed x (mem_names_of_free body hx)
  have hown : σ.pairing.rel z z := (hmap z hz).trans (keeping_of_mem List.mem_cons_self)
  have hother : ∀ x, N x → x ≠ z → σ.map x = ρ.map x := by
    intro x hx hxz
    rw [hmap x hx, keeping_of_not_mem (by simpa using hxz)]
  have hu : (Context.singleton z a).Paired σ.pairing V (Context.singleton z a') := Context.paired_singleton hown ha
  have hsingleton : ∀ x, x ∉ (Context.singleton z a).names → x ≠ z := by
    rintro x hx rfl
    exact hx List.mem_cons_self
  have hagree : ∀ x ∈ body.freeOccurrences, x ∉ (Context.singleton z a).names → σ.map x = ρ.map x :=
    fun x hx hxz => hother x (hfree x hx) (hsingleton x hxz)
  have hbound' : ∀ x ∈ body.freeOccurrences, x ∉ (Context.singleton z a).names → ρ.map x ≠ x → x ∈ c.names :=
    fun x hx hxz => hbound x (List.mem_filter.mpr ⟨hx, by simpa using hsingleton x hxz⟩)
  obtain ⟨e, e', he, he', hee', hnodup', hbound''⟩ :=
    Context.exists_paired_bindAll (hc.mono hV) hu hnodup hagree hbound'
  rw [← freeOccurrences_rename σ.avoids body hnamed] at he'
  rw [rename_congr body fun x hx => (hmap x (hfree x hx)).symm]
  change Parallel n d V _ (infer env body (c.bindAll (.singleton z a)) polarity goal)
    (infer env' (body.rename σ.map) (c'.bindAll (.singleton z a')) polarity goal')
  rw [infer_congr env body he, infer_congr env' (body.rename σ.map) he']
  -- what is used outside of the scope is free in it
  apply ((hbody V hV hadmits hee' hnodup' hbound'' V le_rfl polarity hgoal).and
    fun s s' r h => (infer_drawnFrom env body h hnodup').free).imp
  rintro V₁ hV₁ r r' ⟨hr, hused⟩
  refine ⟨hr.ty, hr.used.lookup? hown, ?_, hr.subst⟩
  apply hr.used.filter
  . intro x y _ _ _ hxy _
    unfold bne
    rw [σ.pairing.beq_eq hxy hown]
  . rintro x _ _ hx rfl hxz
    exact (hother x (hfree x (hused x hx)) (by simpa using hxz)).symm

end

section

variable {T : Pairing} {info info' : CaseInfo}

theorem CaseInfo.Paired.mono (h : info.Paired T W info') (hWV : W ≤ V) : info.Paired T V info' where
  pos := h.pos
  context := h.context.mono hWV
  polarity := h.polarity
  scrutinee := h.scrutinee.mono hWV
  baseline := h.baseline.mono hWV
  expected := rel_imp h.expected fun _ _ h => h.mono hWV

theorem branchGoal_paired {matched matched' : Matched} {S : Pairing} (hinfo : info.Paired T W info')
    (hmatched : matched.Paired S W matched') : (branchGoal info matched).Paired W (branchGoal info' matched') := by
  have hexpected := hinfo.expected
  unfold branchGoal
  generalize info.expected = o at hexpected
  generalize info'.expected = o' at hexpected
  cases hexpected with
  | none => exact .synthesize
  | some hty => exact .check false (hty.substitute hmatched.subst)

theorem branchTy_parallel (henv : env.Paired W env') (hinfo : info.Paired T W info') (pos : Nat)
    {previous previous' : Option Ty} (hprevious : Option.Rel (Ty.Paired W) previous previous') {ty ty' : Ty}
    (hty : ty.Paired W ty')
    : Parallel n d W (fun V => Option.Rel (Ty.Paired V)) (branchTy env info pos previous ty)
        (branchTy env' info' pos previous' ty') := by
  have hexpected := hinfo.expected
  unfold branchTy
  generalize info.expected = o at hexpected
  generalize info'.expected = o' at hexpected
  cases hexpected with
  | some _ => exact parallel_pure .none
  | none =>
    cases hprevious with
    | none => exact parallel_pure (.some hty)
    | some hprevious =>
      apply (Ty.join_parallel henv pos hprevious hty).bind
      intro V hV upper upper' hupper
      exact parallel_pure (.some hupper)

theorem branchUsed_parallel (hinfo : info.Paired T W info') {previous previous' : Option Context}
    (hprevious : Option.Rel (Context.Paired T W) previous previous') {net net' : Context} (hnet : net.Paired T W net')
    : Parallel n d W (Context.Paired T) (branchUsed info previous net) (branchUsed info' previous' net') := by
  unfold branchUsed
  rw [hinfo.pos]
  cases hprevious with
  | none => exact parallel_pure hnet
  | some hprevious => exact Context.join_parallel info'.pos hprevious hnet

end

/--
A branch and its copy. The copy is renamed by `σ`, which renames the variables from outside as `ρ` does. What it makes
of the variables of the pattern must not be mixed up with the baseline.
-/
structure BranchPaired (ρ σ : Relabeling N n d) (W : Pairing) (info info' : CaseInfo) (branch branch' : Pattern × Expr)
    : Prop where
  copy : branch' = (branch.1.rename σ.map, branch.2.rename σ.map)
  admits : branch.2.Admits σ W
  agree : ∀ x ∈ branch.2.freeOccurrences, x ∉ branch.1.boundVars → σ.map x = ρ.map x
  bound : ∀ x ∈ branch.2.freeOccurrences, x ∉ branch.1.boundVars → ρ.map x ≠ x → x ∈ info.context.names
  clear : ∀ x ∈ branch.1.boundVars,
    σ.map x = ρ.map x ∨ x ∉ info.baseline.names ∧ σ.map x ∉ info'.baseline.names

theorem BranchPaired.mono {ρ σ : Relabeling N n d} {info info' : CaseInfo} {branch branch' : Pattern × Expr}
    (h : BranchPaired ρ σ W info info' branch branch') (hWV : W ≤ V) : BranchPaired ρ σ V info info' branch branch' :=
  { h with admits := h.admits.mono hWV }

theorem forall₂_renameBranches {ρ : Relabeling N n d} {info info' : CaseInfo} (branches : List (Pattern × Expr))
    (hbase : info.baseline.Paired ρ.pairing W info'.baseline) (hinfo : ∀ x ∈ info.baseline.names, N x)
    (hnamed : ∀ x ∈ namesAll branches, N x) (hdeclared : ∀ ty ∈ annotationsAll branches, ty.Paired W ty)
    (huncontended : ∀ x, N x → ρ.map x ≠ x → contendsSome x branches = false)
    (hbound : ∀ x ∈ freeOccurrencesAll branches, ρ.map x ≠ x → x ∈ info.context.names)
    (hclear : ∀ x, ρ.map x ≠ x → x ∈ info.baseline.names → ∀ branch ∈ branches, x ∉ branch.1.boundVars)
    : List.Forall₂ (fun branch branch' => ∃ σ, BranchPaired ρ σ W info info' branch branch') branches
        (renameBranches ρ.map branches) := by
  induction branches with
  | nil => exact .nil
  | cons branch branches ih =>
    obtain ⟨p, body⟩ := branch
    simp only [namesAll, List.forall_mem_append] at hnamed
    simp only [annotationsAll, List.forall_mem_append] at hdeclared
    simp only [contendsSome, Bool.or_eq_false_iff] at huncontended
    simp only [freeOccurrencesAll, List.forall_mem_append] at hbound
    obtain ⟨⟨hkept, hbody⟩, hnamed⟩ := hnamed
    refine .cons ?_ (ih hnamed hdeclared.2 (fun x hx hne => (huncontended x hx hne).2) hbound.2
      fun x hne hx branch hmem => hclear x hne hx branch (List.mem_cons_of_mem _ hmem))
    have hσ : ∀ x, N x → (ρ.keep p.boundVars hkept).map x = keeping p.boundVars ρ.map x := fun x => ρ.keep_map hkept
    have hfree : ∀ x ∈ body.freeOccurrences, N x := fun x hx => hbody x (mem_names_of_free body hx)
    have hfixed : ∀ x ∈ p.boundVars, (ρ.keep p.boundVars hkept).map x = x :=
      fun x hx => (hσ x (hkept x hx)).trans (keeping_of_mem hx)
    refine ⟨ρ.keep p.boundVars hkept, ?_, ?_, ?_, ?_, ?_⟩
    . rw [Pattern.rename_of_fixed p hfixed, rename_congr body fun x hx => hσ x (hfree x hx)]
    . apply Admits.keep hσ hbody hdeclared.1
      intro x hx hne hxp
      simpa [hxp] using (huncontended x hx hne).1
    . intro x hx hxp
      rw [hσ x (hfree x hx), keeping_of_not_mem hxp]
    . intro x hx hxp
      exact hbound.1 x (List.mem_filter.mpr ⟨hx, by simpa using hxp⟩)
    . intro x hx
      rw [hfixed x hx]
      by_cases hne : ρ.map x = x
      . exact .inl hne.symm
      . have hxbase : x ∉ info.baseline.names := fun hxbase => hclear x hne hxbase _ List.mem_cons_self hx
        refine .inr ⟨hxbase, ?_⟩
        -- a variable that is renamed to `x` would have been a name of the program
        intro hxbase'
        obtain ⟨z, hz, hzx⟩ := hbase.exists_mem_names hxbase'
        obtain rfl : ρ.map z = x := hzx
        rw [ρ.avoids z (hinfo z hz) (hkept _ hx)] at hxbase
        exact hxbase hz

theorem boxDemand_parallel (pos : Nat) {kind kind' : GradeKind} {grade grade' : Grade} {o o' : Option Assumption}
    (hkind : kind.Paired W kind') (hgrade : grade.Paired W grade') (ho : Option.Rel (Assumption.Paired W) o o')
    : Parallel n d W Grade.Paired (boxDemand pos kind grade o) (boxDemand pos kind' grade' o') := by
  cases ho with
  | some ha =>
    cases ha with
    | linear _ => exact parallel_pure (.one hkind)
    | graded _ husage => exact parallel_pure husage
  | none =>
    apply (parallel_constrain hgrade (.zero hkind) hkind).bind
    intro V hV _ _ _
    exact parallel_pure (hgrade.mono hV)

/-! One lemma for each form of expression: it is judged alike if its parts are. -/

section

variable {T : Pairing} {e e' a a' b b' body body' value value' rest rest' : Expr}

namespace JudgedAlike

-- A goal that is not passed on to the parts of an expression is compared with what is found for the expression.
theorem of_synthesized (henv : env.Paired W env') (hpos : e.pos = e'.pos)
    (hsynthesized : ∀ V, W ≤ V → ∀ polarity : Polarity, Parallel n d V (Typed.Paired T)
      (infer env e c polarity .synthesize) (infer env' e' c' polarity .synthesize))
    (hchecked : ∀ V, W ≤ V → ∀ (polarity : Polarity) (topLevel : Bool) {ty ty' : Ty}, ty.Paired V ty' →
      e.handsOn ty = false ∧ e'.handsOn ty' = false ∨
      Parallel n d V (Typed.Paired T) (infer env e c polarity (.check topLevel ty))
        (infer env' e' c' polarity (.check topLevel ty')))
    : JudgedAlike n d T W env env' c c' e e' := by
  intro V hV polarity goal goal' hgoal
  cases hgoal with
  | synthesize => exact hsynthesized V hV polarity
  | check topLevel hty =>
    obtain ⟨he, he'⟩ | hparts := hchecked V hV polarity topLevel hty
    . rw [infer_check_eq_conclude he, infer_check_eq_conclude he', hpos]
      apply (hsynthesized V hV polarity).bind
      intro V₁ hV₁ r r' hr
      exact conclude_parallel (henv.mono (le_trans hV hV₁)) e'.pos polarity (.check topLevel (hty.mono hV₁)) hr.ty hr.used
    . exact hparts

theorem of_concludes (henv : env.Paired W env') (hpos : e.pos = e'.pos)
    (he : ∀ ty, e.handsOn ty = false) (he' : ∀ ty, e'.handsOn ty = false)
    (hsynthesized : ∀ V, W ≤ V → ∀ polarity : Polarity, Parallel n d V (Typed.Paired T)
      (infer env e c polarity .synthesize) (infer env' e' c' polarity .synthesize))
    : JudgedAlike n d T W env env' c c' e e' :=
  of_synthesized henv hpos hsynthesized fun _ _ _ _ _ _ _ => .inl ⟨he _, he' _⟩

theorem literal (henv : env.Paired W env') (pos : Nat) (name ty : String) (p : Prop) [Decidable p]
    : Parallel n d W (Typed.Paired T)
        (if p then return ⟨.const name, .empty, []⟩
          else conclude env pos polarity (.check topLevel (.const name)) (.const ty) .empty)
        (if p then return ⟨.const name, .empty, []⟩
          else conclude env' pos polarity (.check topLevel (.const name)) (.const ty) .empty) := by
  apply parallel_ite Iff.rfl
  . intro _ _
    exact parallel_pure ⟨.const name, Context.paired_empty, .nil⟩
  . intro _ _
    exact conclude_parallel henv pos polarity (.check topLevel (.const name)) (.const ty) Context.paired_empty

theorem int (henv : env.Paired W env') (pos : Nat) (m : Int)
    : JudgedAlike n d T W env env' c c' (.int pos m) (.int pos m) := by
  refine of_synthesized henv rfl ?_ ?_
  . intro V hV polarity
    simp only [infer]
    exact parallel_pure ⟨.const "Int", Context.paired_empty, .nil⟩
  . intro V hV polarity topLevel ty ty' hty
    cases hty with
    | const name =>
      simp only [infer]
      exact .inr (literal (henv.mono hV) pos name "Int" _)
    | _ => exact .inl ⟨rfl, rfl⟩

theorem float (henv : env.Paired W env') (pos : Nat) (x : Float)
    : JudgedAlike n d T W env env' c c' (.float pos x) (.float pos x) := by
  refine of_synthesized henv rfl ?_ ?_
  . intro V hV polarity
    simp only [infer]
    exact parallel_pure ⟨.const "Float", Context.paired_empty, .nil⟩
  . intro V hV polarity topLevel ty ty' hty
    cases hty with
    | const name =>
      simp only [infer]
      exact .inr (literal (henv.mono hV) pos name "Float" _)
    | _ => exact .inl ⟨rfl, rfl⟩

theorem constructor (henv : env.Paired W env') (pos : Nat) (name : String)
    : JudgedAlike n d T W env env' c c' (.constructor pos name) (.constructor pos name) := by
  refine of_concludes henv rfl (fun _ => rfl) (fun _ => rfl) ?_
  intro V hV polarity
  simp only [infer]
  apply (constructorTy_parallel (henv.mono hV) pos name).bind
  intro V₁ hV₁ ty ty' hty
  exact parallel_pure ⟨hty, Context.paired_empty, .nil⟩

theorem var (henv : env.Paired W env') (hc : c.Paired T W c') (pos : Nat) {x y : String} (hxy : T.rel x y)
    (hglobal : x ∉ c.names → x = y) : JudgedAlike n d T W env env' c c' (.var pos x) (.var pos y) := by
  refine of_concludes henv rfl (fun _ => rfl) (fun _ => rfl) ?_
  intro V hV polarity
  simp only [infer]
  apply (varTy_parallel (henv.mono hV) (hc.mono hV) pos hxy hglobal).bind
  rintro V₁ hV₁ ⟨ty, used⟩ ⟨ty', used'⟩ ⟨hty, hused⟩
  exact parallel_pure ⟨hty, hused, .nil⟩

theorem lam (henv : env.Paired W env') (pos : Nat) {b : Binder} {declared : Option Ty}
    (hdeclared : ∀ ty ∈ declared.toList, ty.Paired W ty)
    (hbody : JudgedAlikeUnder b.name n d T W env env' c c' body body')
    : JudgedAlike n d T W env env' c c' (.lam pos b declared body) (.lam pos b declared body') := by
  refine of_synthesized henv rfl ?_ ?_
  . intro V hV polarity
    simp only [infer]
    cases declared with
    | none => exact parallel_fail rfl
    | some ty =>
      have hty : ty.Paired V ty := (hdeclared ty List.mem_cons_self).mono hV
      apply (hbody V hV polarity (.linear hty) .synthesize).bind
      intro V₁ hV₁ inner inner' hinner
      apply (checkConsumed_parallel b ty ty hinner.own).bind
      intro V₂ hV₂ _ _ _
      exact parallel_pure ⟨.arrow (hty.mono (le_trans hV₁ hV₂)) (hinner.ty.mono hV₂), hinner.used.mono hV₂, .nil⟩
  . intro V hV polarity topLevel ty ty' hty
    have hchecked : ∀ V₁, V ≤ V₁ → ∀ {arg arg' result result' : Ty}, arg.Paired V₁ arg' → result.Paired V₁ result' →
        Parallel n d V₁ (Typed.Paired T) (lamBody env b body c polarity topLevel arg result)
          (lamBody env' b body' c' polarity topLevel arg' result') := by
      intro V₁ hV₁ arg arg' result result' harg hresult
      apply (hbody V₁ (le_trans hV hV₁) polarity (.linear harg) (.check topLevel hresult)).bind
      intro V₂ hV₂ inner inner' hinner
      apply (checkConsumed_parallel b arg arg' hinner.own).bind
      intro V₃ hV₃ _ _ _
      have hV' := le_trans hV₂ hV₃
      exact parallel_pure ⟨.arrow (harg.mono hV') (hresult.mono hV'), hinner.used.mono hV₃,
        Substitution.Paired.mono hinner.subst hV₃⟩
    cases hty with
    | arrow harg hresult =>
      right
      simp only [infer]
      cases declared with
      | none => exact hchecked V le_rfl harg hresult
      | some ty =>
        have hty : ty.Paired V ty := (hdeclared ty List.mem_cons_self).mono hV
        apply (Ty.equal_parallel (henv.mono hV) b.pos hty harg).bind
        intro V₁ hV₁ unified unified' hunified
        apply parallel_ite (by rw [hunified.agree])
        . intro _ _
          exact parallel_fail_bind rfl
        . intro _ _
          exact hchecked V₁ hV₁ (harg.mono hV₁) (hresult.mono hV₁)
    | _ => exact .inl ⟨rfl, rfl⟩

theorem app (pos : Nat) (hpos : a.pos = a'.pos) (hscale : scaleFactor? c a = scaleFactor? c' a')
    (ha : JudgedAlike n d T W env env' c c' a a') (hb : JudgedAlike n d T W env env' c c' b b')
    : JudgedAlike n d T W env env' c c' (.app pos a b) (.app pos a' b') := by
  intro V hV polarity goal goal' hgoal
  simp only [infer]
  cases hgoal with
  | synthesize =>
    apply (ha V hV polarity .synthesize).bind
    intro V₁ hV₁ function function' hfunction
    have hty := hfunction.ty
    generalize function.ty = ty at hty
    generalize function'.ty = ty' at hty
    cases hty with
    | arrow harg hresult =>
      apply (hb V₁ (le_trans hV hV₁) polarity (.check false harg)).bind
      intro V₂ hV₂ arg arg' harg
      apply (Context.combine_parallel pos (hfunction.used.mono hV₂) harg.used).bind
      intro V₃ hV₃ used used' hused
      exact parallel_pure ⟨((hresult.mono hV₂).substitute harg.subst).mono hV₃, hused, .nil⟩
    | _ => exact parallel_fail rfl
  | @check expected expected' topLevel hexpected =>
    have hfloat : (expected == .const "Float") = (expected' == .const "Float") := hexpected.beq_eq (.const "Float")
    simp only [← hscale, ← hfloat, ← hpos]
    split
    . next factor _ =>
      apply (hb V hV polarity (.check false (.box (.float factor) (.const "Float")))).bind
      intro V₁ hV₁ inner inner' hinner
      exact parallel_pure ⟨hexpected.mono hV₁, hinner.used, hinner.subst⟩
    . apply (hb V hV polarity .synthesize).bind
      intro V₁ hV₁ arg arg' harg
      apply (ha V₁ (le_trans hV hV₁) polarity.flip (.check false (.arrow harg.ty (hexpected.mono hV₁)))).bind
      intro V₂ hV₂ function function' hfunction
      apply (Context.combine_parallel a.pos hfunction.used (harg.used.mono hV₂)).bind
      intro V₃ hV₃ used used' hused
      exact parallel_pure ⟨hexpected.mono (le_trans hV₁ (le_trans hV₂ hV₃)), hused,
        Substitution.Paired.mono hfunction.subst hV₃⟩

theorem promote (henv : env.Paired W env') (hc : c.Paired T W c') (pos : Nat)
    (hfree : ∀ x y, T.rel x y → (x ∈ e.freeVars ↔ y ∈ e'.freeVars)) (he : JudgedAlike n d T W env env' c c' e e')
    (hfresh : ∀ V, W ≤ V → ∀ fresh fresh' : Context, fresh.Paired T V fresh' →
      fresh.names = (c.restrict (e.freeVars.filter c.contains)).names → JudgedAlike n d T V env env' fresh fresh' e e')
    : JudgedAlike n d T W env env' c c' (.promote pos e) (.promote pos e') := by
  refine of_synthesized henv rfl ?_ ?_
  . intro V hV polarity
    simp only [infer]
    apply (parallel_freshGradeKind "k" "k").bind
    intro V₁ hV₁ kind kind' hkind
    apply (parallel_freshGrade "r" "r" hkind).bind
    intro V₂ hV₂ grade grade' hgrade
    apply (he V₂ (le_trans hV (le_trans hV₁ hV₂)) polarity .synthesize).bind
    intro V₃ hV₃ inner inner' hinner
    have hgrade := hgrade.mono hV₃
    exact parallel_pure ⟨.box hgrade hinner.ty, hinner.used.scale hfree hgrade, .nil⟩
  . intro V hV polarity topLevel ty ty' hty
    cases hty with
    | @box demand demand' content content' hdemand hcontent =>
      right
      simp only [infer]
      have hvars : ∀ x y, T.rel x y → (x ∈ e.freeVars.filter c.contains ↔ y ∈ e'.freeVars.filter c'.contains) := by
        intro x y hxy
        rw [List.mem_filter, List.mem_filter, hfree x y hxy, hc.contains hxy]
      apply ((Context.freshen_parallel pos hvars (hc.mono hV) hdemand).and
        fun s s' fresh h => Context.names_freshen h).bind
      rintro V₁ hV₁ fresh fresh' ⟨hpaired, hnames⟩
      apply (hfresh V₁ (le_trans hV hV₁) fresh fresh' hpaired hnames V₁ le_rfl polarity
        (.check false (hcontent.mono hV₁))).bind
      intro V₂ hV₂ inner inner' hinner
      have hanswer : ∀ V₃, V₂ ≤ V₃ →
          Typed.Paired T V₃ ⟨.box demand content, fresh.scale (e.freeVars.filter c.contains) demand, inner.subst⟩
            ⟨.box demand' content', fresh'.scale (e'.freeVars.filter c'.contains) demand', inner'.subst⟩ := by
        intro V₃ hV₃
        have hV' := le_trans hV₁ (le_trans hV₂ hV₃)
        exact ⟨.box (hdemand.mono hV') (hcontent.mono hV'),
          (hpaired.mono (le_trans hV₂ hV₃)).scale hvars (hdemand.mono hV'), Substitution.Paired.mono hinner.subst hV₃⟩
      cases polarity with
      | positive =>
        apply (Context.le_parallel pos hinner.used (hpaired.mono hV₂)).bind
        intro V₃ hV₃ _ _ _
        exact parallel_pure (hanswer V₃ hV₃)
      | negative =>
        apply (Context.le_parallel pos (hpaired.mono hV₂) hinner.used).bind
        intro V₃ hV₃ _ _ _
        exact parallel_pure (hanswer V₃ hV₃)
    | _ => exact .inl ⟨rfl, rfl⟩

theorem lift (henv : env.Paired W env') (pos : Nat) (he : JudgedAlike n d T W env env' c c' e e')
    : JudgedAlike n d T W env env' c c' (.lift pos e) (.lift pos e') := by
  refine of_synthesized henv rfl ?_ ?_
  . intro V hV polarity
    simp only [infer]
    apply (he V hV polarity .synthesize).bind
    intro V₁ hV₁ inner inner' hinner
    exact parallel_pure ⟨.diamond [] hinner.ty, hinner.used, .nil⟩
  . intro V hV polarity topLevel ty ty' hty
    cases hty with
    | diamond effects hcontent =>
      right
      simp only [infer]
      apply (he V hV polarity (.check false hcontent)).bind
      intro V₁ hV₁ inner inner' hinner
      exact parallel_pure ⟨.diamond effects (hcontent.mono hV₁), hinner.used, hinner.subst⟩
    | _ => exact .inl ⟨rfl, rfl⟩

theorem pair (henv : env.Paired W env') (pos : Nat) (ha : JudgedAlike n d T W env env' c c' a a')
    (hb : JudgedAlike n d T W env env' c c' b b')
    : JudgedAlike n d T W env env' c c' (.pair pos a b) (.pair pos a' b') := by
  refine of_synthesized henv rfl ?_ ?_
  . intro V hV polarity
    simp only [infer]
    apply (ha V hV polarity .synthesize).bind
    intro V₁ hV₁ left left' hleft
    apply (hb V₁ (le_trans hV hV₁) polarity .synthesize).bind
    intro V₂ hV₂ right right' hright
    apply (Context.combine_parallel pos (hleft.used.mono hV₂) hright.used).bind
    intro V₃ hV₃ used used' hused
    exact parallel_pure ⟨.pair (hleft.ty.mono (le_trans hV₂ hV₃)) (hright.ty.mono hV₃), hused, .nil⟩
  . intro V hV polarity topLevel ty ty' hty
    cases hty with
    | pair haTy hbTy =>
      right
      simp only [infer]
      apply (ha V hV polarity (.check false haTy)).bind
      intro V₁ hV₁ left left' hleft
      apply (hb V₁ (le_trans hV hV₁) polarity (.check false ((hbTy.mono hV₁).substitute hleft.subst))).bind
      intro V₂ hV₂ right right' hright
      apply (Context.combine_parallel pos (hleft.used.mono hV₂) hright.used).bind
      intro V₃ hV₃ used used' hused
      have hV' := le_trans hV₁ (le_trans hV₂ hV₃)
      apply (Substitution.combine_parallel (henv.mono (le_trans hV hV')) pos
        (Substitution.Paired.mono hleft.subst (le_trans hV₂ hV₃)) (Substitution.Paired.mono hright.subst hV₃)).bind
      intro V₄ hV₄ subst subst' hsubst
      have hV' := le_trans hV' hV₄
      exact parallel_pure ⟨.pair (haTy.mono hV') (hbTy.mono hV'), hused.mono hV₄, hsubst⟩
    | _ => exact .inl ⟨rfl, rfl⟩

theorem binop (henv : env.Paired W env') (pos : Nat) (op : BinOp) (ha : JudgedAlike n d T W env env' c c' a a')
    (hb : JudgedAlike n d T W env env' c c' b b')
    : JudgedAlike n d T W env env' c c' (.binop pos op a b) (.binop pos op a' b') := by
  refine of_concludes henv rfl (fun _ => rfl) (fun _ => rfl) ?_
  intro V hV polarity
  have henv := henv.mono hV
  have hsignatures : List.Forall₂ (Ty.Paired V) (env.builtins.signatures op) (env'.builtins.signatures op) := by
    rw [henv.builtins]
    exact List.forall₂_same.mpr (henv.operators op)
  simp only [infer]
  refine (firstFit_parallel (T := T) hsignatures ?_ ?_ .none).bind ?_
  . intro V₁ hV₁ left left' right right' hleft hright
    have hV₁ := le_trans hV hV₁
    apply (ha V₁ hV₁ polarity (.check false hleft)).bind
    intro V₂ hV₂ l l' hl
    apply (hb V₂ (le_trans hV₁ hV₂) polarity (.check false (hright.mono hV₂))).bind
    intro V₃ hV₃ r r' hr
    exact Context.combine_parallel pos (hl.used.mono hV₃) hr.used
  . intro V₁ hV₁
    have hV₁ := le_trans hV hV₁
    refine Parallel.dryRun_fail (R := fun _ _ _ => True) ?_ ?_
    . apply (ha V₁ hV₁ polarity .synthesize).bind
      intro V₂ hV₂ l l' hl
      apply (hb V₂ (le_trans hV₁ hV₂) polarity .synthesize).bind
      intro V₃ hV₃ r r' hr
      exact parallel_pure trivial
    . intro _ _
      rfl
  . rintro V₁ hV₁ ⟨ty, used⟩ ⟨ty', used'⟩ ⟨hty, hused⟩
    exact parallel_pure ⟨hty, hused, .nil⟩

theorem letDiamond (henv : env.Paired W env') (pos : Nat) {b : Binder} {declared : Option Ty}
    (hdeclared : ∀ ty ∈ declared.toList, ty.Paired W ty) (hvalue : JudgedAlike n d T W env env' c c' value value')
    (hrest : JudgedAlikeUnder b.name n d T W env env' c c' rest rest')
    : JudgedAlike n d T W env env' c c' (.letDiamond pos b declared value rest)
        (.letDiamond pos b declared value' rest') := by
  refine of_concludes henv rfl (fun _ => rfl) (fun _ => rfl) ?_
  intro V hV polarity
  have hopened : ∀ V₁, V ≤ V₁ → ∀ {content content' : Ty} {used used' : Context} (effects : List String),
      content.Paired V₁ content' → used.Paired T V₁ used' →
      Parallel n d V₁ (Typed.Paired T) (letDiamondRest env pos b rest c polarity .synthesize effects content used)
        (letDiamondRest env' pos b rest' c' polarity .synthesize effects content' used') := by
    intro V₁ hV₁ content content' used used' effects hcontent hused
    apply (hrest V₁ (le_trans hV hV₁) polarity (.linear hcontent) .synthesize).bind
    intro V₂ hV₂ second second' hsecond
    have hty := hsecond.ty
    generalize second.ty = ty at hty
    generalize second'.ty = ty' at hty
    cases hty with
    | diamond effects' hresult =>
      apply (checkConsumed_parallel b content content' hsecond.own).bind
      intro V₃ hV₃ _ _ _
      apply (Context.combine_parallel pos (hused.mono (le_trans hV₂ hV₃)) (hsecond.used.mono hV₃)).bind
      intro V₄ hV₄ total total' htotal
      exact parallel_pure ⟨.diamond _ (hresult.mono (le_trans hV₃ hV₄)), htotal, .nil⟩
    | _ => exact parallel_fail rfl
  simp only [infer]
  apply (hvalue V hV polarity .synthesize).bind
  intro V₁ hV₁ first first' hfirst
  have hty := hfirst.ty
  generalize first.ty = ty at hty
  generalize first'.ty = ty' at hty
  cases hty with
  | diamond effects hcontent =>
    cases declared with
    | none => exact hopened V₁ hV₁ effects hcontent hfirst.used
    | some ty =>
      have hty : ty.Paired V₁ ty := (hdeclared ty List.mem_cons_self).mono (le_trans hV hV₁)
      apply (Ty.equal_parallel (henv.mono (le_trans hV hV₁)) b.pos hty hcontent).bind
      intro V₂ hV₂ unified unified' hunified
      apply parallel_ite (by rw [hunified.agree])
      . intro _ _
        exact parallel_fail_bind rfl
      . intro _ _
        exact hopened V₂ (le_trans hV₁ hV₂) effects (hcontent.mono hV₂) (hfirst.used.mono hV₂)
  | _ => exact parallel_fail rfl

theorem letBox (henv : env.Paired W env') (pos : Nat) {b : Binder} {ty : Ty} (hty : ty.Paired W ty)
    (hvalue : JudgedAlike n d T W env env' c c' value value')
    (hrest : JudgedAlikeUnder b.name n d T W env env' c c' rest rest')
    : JudgedAlike n d T W env env' c c' (.letBox pos b ty value rest) (.letBox pos b ty value' rest') := by
  refine of_concludes henv rfl (fun _ => rfl) (fun _ => rfl) ?_
  intro V hV polarity
  rw [infer_letBox_eq, infer_letBox_eq]
  apply (parallel_freshGradeKind "k" "k").bind
  intro V₁ hV₁ kind kind' hkind
  apply (parallel_freshGrade b.name b.name hkind).bind
  intro V₂ hV₂ grade grade' hgrade
  have hV' := le_trans hV (le_trans hV₁ hV₂)
  apply (hrest V₂ hV' polarity (.graded (hty.mono hV') hgrade) .synthesize).bind
  intro V₃ hV₃ second second' hsecond
  apply (boxDemand_parallel b.pos (hkind.mono (le_trans hV₂ hV₃)) (hgrade.mono hV₃) hsecond.own).bind
  intro V₄ hV₄ demand demand' hdemand
  have hV' := le_trans hV' (le_trans hV₃ hV₄)
  apply (hvalue V₄ hV' polarity (.check false (.box hdemand (hty.mono hV')))).bind
  intro V₅ hV₅ first first' hfirst
  apply (Context.combine_parallel pos hfirst.used (hsecond.used.mono (le_trans hV₄ hV₅))).bind
  intro V₆ hV₆ used used' hused
  exact parallel_pure ⟨hsecond.ty.mono (le_trans hV₄ (le_trans hV₅ hV₆)), hused, .nil⟩

theorem case {branches branches' : List (Pattern × Expr)} (pos : Nat) (hc : c.Paired T W c') (hnodup : c.names.Nodup)
    (he : JudgedAlike n d T W env env' c c' e e')
    (hvars : ∀ x y, T.rel x y → (x ∈ freeOccurrencesAll branches ↔ y ∈ freeOccurrencesAll branches'))
    (hbranches : ∀ V, W ≤ V → ∀ info info' : CaseInfo, info.Paired T V info' → info.context = c →
      (∀ x ∈ info.baseline.names, x ∈ freeOccurrencesAll branches ∧ ∃ ty g, c.lookup? x = some (.graded ty g)) →
      Parallel n d V (Joined.Paired T) (inferBranches env info branches ⟨none, none⟩)
        (inferBranches env' info' branches' ⟨none, none⟩))
    : JudgedAlike n d T W env env' c c' (.case pos e branches) (.case pos e' branches') := by
  intro V hV polarity goal goal' hgoal
  have hexpected : Option.Rel (Ty.Paired V) goal.expected? goal'.expected? := by
    cases hgoal with
    | synthesize => exact .none
    | check _ hty => exact .some hty
  unfold infer
  apply (he V hV polarity .synthesize).bind
  intro V₁ hV₁ value value' hvalue
  have hshared : ∀ s s' base, baseline pos c branches s = .ok base s' →
      ∀ x ∈ base.names, x ∈ freeOccurrencesAll branches ∧ ∃ ty g, c.lookup? x = some (.graded ty g) :=
    fun s s' base h x hx => lookup?_of_baseline hnodup h hx
  apply ((baseline_parallel pos (hc.mono (le_trans hV hV₁)) hvars).and hshared).bind
  rintro V₂ hV₂ base base' ⟨hbase, hnames⟩
  have hV' := le_trans hV₁ hV₂
  have hinfo : CaseInfo.Paired T V₂ ⟨pos, c, polarity, value.ty, base, goal.expected?⟩
      ⟨pos, c', polarity, value'.ty, base', goal'.expected?⟩ :=
    ⟨rfl, hc.mono (le_trans hV hV'), rfl, hvalue.ty.mono hV₂, hbase, rel_imp hexpected fun _ _ h => h.mono hV'⟩
  apply (hbranches V₂ (le_trans hV hV') _ _ hinfo rfl hnames).bind
  intro V₃ hV₃ joined joined' hjoined
  apply (Context.combine_parallel pos (rel_getD hjoined.used Context.paired_empty)
    (hvalue.used.mono (le_trans hV₂ hV₃))).bind
  intro V₄ hV₄ used used' hused
  apply (Context.combine_parallel pos hused (hbase.mono (le_trans hV₃ hV₄))).bind
  intro V₅ hV₅ total total' htotal
  have hty : Option.Rel (Ty.Paired V₅) (goal.expected?.or joined.ty) (goal'.expected?.or joined'.ty) := by
    revert hexpected
    generalize goal.expected? = o
    generalize goal'.expected? = o'
    rintro (hty | _)
    . exact .some (hty.mono (le_trans hV' (le_trans hV₃ (le_trans hV₄ hV₅))))
    . exact rel_imp hjoined.ty fun _ _ h => h.mono (le_trans hV₄ hV₅)
  generalize ho : Option.or _ joined.ty = o
  generalize ho' : Option.or _ joined'.ty = o'
  have hty : Option.Rel (Ty.Paired V₅) o o' := by
    rw [← ho, ← ho']
    exact hty
  cases hty with
  | some hty => exact parallel_pure ⟨hty, htotal, .nil⟩
  | none => exact parallel_fail rfl

end JudgedAlike

end

mutual

theorem infer_parallel (ρ : Relabeling N n d) {W : Pairing} {env env' : Env} (henv : env.Paired W env') (e : Expr)
    (he : e.Admits ρ W) {c c' : Context} (hc : c.Paired ρ.pairing W c') (hnodup : c.names.Nodup)
    (hbound : ∀ x ∈ e.freeOccurrences, ρ.map x ≠ x → x ∈ c.names)
    : JudgedAlike n d ρ.pairing W env env' c c' e (e.rename ρ.map) := by
  cases e with
  | int pos m => exact .int henv pos m
  | float pos x => exact .float henv pos x
  | constructor pos name => exact .constructor henv pos name
  | var pos name =>
    apply JudgedAlike.var henv hc pos rfl
    intro hglobal
    by_contra hne
    exact hglobal (hbound name List.mem_cons_self fun h => hne h.symm)
  | lam pos b declared body =>
    obtain ⟨hnamed, hdeclared, huncontended⟩ := he
    simp only [names, List.forall_mem_cons] at hnamed
    simp only [annotations, List.forall_mem_append] at hdeclared
    simp only [contends, Bool.and_eq_false_iff, bne_eq_false_iff_eq] at huncontended
    apply JudgedAlike.lam henv pos hdeclared.1
    apply judgedAlikeUnder_keeping ρ hnamed.1 hnamed.2 hdeclared.2 huncontended hc hnodup hbound
    intro V hV e e' σ hadmits hee' hnodup' hbound'
    exact infer_parallel σ (henv.mono hV) body hadmits hee' hnodup' hbound'
  | app pos f a =>
    obtain ⟨hf, ha⟩ := he.split rfl rfl fun _ => rfl
    obtain ⟨hboundf, hbounda⟩ := List.forall_mem_append.mp hbound
    exact .app pos (pos_rename ρ.map f).symm (scaleFactor?_rename ρ hc hboundf)
      (infer_parallel ρ henv f hf hc hnodup hboundf) (infer_parallel ρ henv a ha hc hnodup hbounda)
  | promote pos e =>
    have he : e.Admits ρ W := ⟨he.named, he.declared, he.uncontended⟩
    apply JudgedAlike.promote henv hc pos (fun x y => mem_freeVars_iff ρ he.named)
      (infer_parallel ρ henv e he hc hnodup hbound)
    intro V hV fresh fresh' hfresh hnames
    apply infer_parallel ρ (henv.mono hV) e (he.mono hV) hfresh
    . rw [hnames]
      exact Context.nodup_names_filter hnodup _
    . intro x hx hne
      have hxc : c.contains x = true := Context.isSome_lookup?_iff.mpr (hbound x hx hne)
      have hmem : x ∈ e.freeVars.filter c.contains := List.mem_filter.mpr ⟨List.mem_eraseDups.mpr hx, hxc⟩
      rw [hnames, ← Context.isSome_lookup?_iff, Context.lookup?_restrict, if_pos hmem]
      exact hxc
  | lift pos e =>
    have he : e.Admits ρ W := ⟨he.named, he.declared, he.uncontended⟩
    exact .lift henv pos (infer_parallel ρ henv e he hc hnodup hbound)
  | binop pos op a b =>
    obtain ⟨ha, hb⟩ := he.split rfl rfl fun _ => rfl
    obtain ⟨hbounda, hboundb⟩ := List.forall_mem_append.mp hbound
    exact .binop henv pos op (infer_parallel ρ henv a ha hc hnodup hbounda)
      (infer_parallel ρ henv b hb hc hnodup hboundb)
  | pair pos a b =>
    obtain ⟨ha, hb⟩ := he.split rfl rfl fun _ => rfl
    obtain ⟨hbounda, hboundb⟩ := List.forall_mem_append.mp hbound
    exact .pair henv pos (infer_parallel ρ henv a ha hc hnodup hbounda) (infer_parallel ρ henv b hb hc hnodup hboundb)
  | case pos scrutinee branches =>
    obtain ⟨hnamed, hdeclared, huncontended⟩ := he
    simp only [names, List.forall_mem_append] at hnamed
    simp only [annotations, List.forall_mem_append] at hdeclared
    simp only [contends, Bool.or_eq_false_iff, Bool.and_eq_false_iff] at huncontended
    simp only [freeOccurrences, List.forall_mem_append] at hbound
    have hscrutinee : scrutinee.Admits ρ W :=
      ⟨hnamed.1, hdeclared.1, fun x hx hne => (huncontended x hx hne).1.1⟩
    have hvars : ∀ x y, ρ.pairing.rel x y →
        (x ∈ freeOccurrencesAll branches ↔ y ∈ freeOccurrencesAll (renameBranches ρ.map branches)) := by
      intro x y hxy
      rw [freeOccurrencesAll_rename ρ.avoids branches hnamed.2]
      exact mem_map_iff ρ hxy
    apply JudgedAlike.case pos hc hnodup (infer_parallel ρ henv scrutinee hscrutinee hc hnodup hbound.1) hvars
    rintro V hV info info' hinfo rfl hbase
    have hN : ∀ x ∈ info.baseline.names, N x := fun x hx => hnamed.2 x (mem_namesAll_of_free branches (hbase x hx).1)
    apply inferBranches_parallel ρ (henv.mono hV) hinfo hnodup branches
    . apply forall₂_renameBranches branches hinfo.baseline hN hnamed.2 (fun ty hty => (hdeclared.2 ty hty).mono hV)
        (fun x hx hne => (huncontended x hx hne).2) hbound.2
      intro x hne hx branch hbranch hxp
      have hfree : x ∈ freeOccurrencesAll branches := (hbase x hx).1
      have hclash := (huncontended x (hN x hx) hne).1.2.resolve_left (by simpa using hfree)
      exact List.any_eq_false.mp hclash branch hbranch (List.contains_iff_mem.mpr hxp)
    . exact ⟨.none, .none⟩
  | letDiamond pos b declared value rest =>
    obtain ⟨hnamed, hdeclared, huncontended⟩ := he
    simp only [names, List.forall_mem_append, List.forall_mem_cons] at hnamed
    simp only [annotations, List.forall_mem_append] at hdeclared
    simp only [contends, Bool.or_eq_false_iff, Bool.and_eq_false_iff, bne_eq_false_iff_eq] at huncontended
    simp only [freeOccurrences, List.forall_mem_append] at hbound
    have hvalue : value.Admits ρ W := ⟨hnamed.1, hdeclared.1.2, fun x hx hne => (huncontended x hx hne).1⟩
    apply JudgedAlike.letDiamond henv pos hdeclared.1.1 (infer_parallel ρ henv value hvalue hc hnodup hbound.1)
    apply judgedAlikeUnder_keeping ρ hnamed.2.1 hnamed.2.2 hdeclared.2 (fun x hx hne => (huncontended x hx hne).2) hc
      hnodup hbound.2
    intro V hV e e' σ hadmits hee' hnodup' hbound'
    exact infer_parallel σ (henv.mono hV) rest hadmits hee' hnodup' hbound'
  | letBox pos b ty value rest =>
    obtain ⟨hnamed, hdeclared, huncontended⟩ := he
    simp only [names, List.forall_mem_append, List.forall_mem_cons] at hnamed
    simp only [annotations, List.forall_mem_append, List.forall_mem_cons] at hdeclared
    simp only [contends, Bool.or_eq_false_iff, Bool.and_eq_false_iff, bne_eq_false_iff_eq] at huncontended
    simp only [freeOccurrences, List.forall_mem_append] at hbound
    have hvalue : value.Admits ρ W := ⟨hnamed.1, hdeclared.1.2, fun x hx hne => (huncontended x hx hne).1⟩
    apply JudgedAlike.letBox henv pos hdeclared.1.1 (infer_parallel ρ henv value hvalue hc hnodup hbound.1)
    apply judgedAlikeUnder_keeping ρ hnamed.2.1 hnamed.2.2 hdeclared.2 (fun x hx hne => (huncontended x hx hne).2) hc
      hnodup hbound.2
    intro V hV e e' σ hadmits hee' hnodup' hbound'
    exact infer_parallel σ (henv.mono hV) rest hadmits hee' hnodup' hbound'

theorem inferBranches_parallel (ρ : Relabeling N n d) {W : Pairing} {env env' : Env} (henv : env.Paired W env')
    {info info' : CaseInfo} (hinfo : info.Paired ρ.pairing W info') (hnodup : info.context.names.Nodup)
    (branches : List (Pattern × Expr)) {branches' : List (Pattern × Expr)}
    (hbranches : List.Forall₂ (fun branch branch' => ∃ σ, BranchPaired ρ σ W info info' branch branch') branches
      branches')
    {joined joined' : Joined} (hjoined : joined.Paired ρ.pairing W joined')
    : Parallel n d W (Joined.Paired ρ.pairing) (inferBranches env info branches joined)
        (inferBranches env' info' branches' joined') := by
  cases branches with
  | nil =>
    cases hbranches
    simp only [inferBranches]
    exact parallel_pure hjoined
  | cons branch branches =>
    obtain ⟨branch', branches', ⟨σ, hbranch⟩, hrest, rfl⟩ := List.forall₂_cons_left_iff.mp hbranches
    obtain ⟨p, body⟩ := branch
    obtain rfl := hbranch.copy
    rw [inferBranches_eq, inferBranches_eq]
    simp only [Expr.pos_rename]
    apply parallel_openScope.bind
    intro V₁ hV₁ _ _ _
    apply ((Pattern.matchTy_parallel σ (henv.mono hV₁) p (hinfo.scrutinee.mono hV₁)).and
      fun s s' matched h => (Pattern.matchTy_binds h).bound).bind
    rintro V₂ hV₂ matched matched' ⟨hmatched, hvars⟩
    apply parallel_enterConsequent.bind
    intro V₃ hV₃ _ _ _
    have hV := le_trans hV₁ (le_trans hV₂ hV₃)
    have hmatched := hmatched.mono hV₃
    have hunbound : ∀ x, x ∉ matched.context.names → x ∉ p.boundVars := fun x hx hxp => hx (hvars x hxp)
    have hbranch := hbranch.mono hV
    obtain ⟨e, e', he, he', hee', hnodup', hbound'⟩ :=
      Context.exists_paired_bindAll (hinfo.context.mono hV) hmatched.context hnodup
        (fun x hx hxm => hbranch.agree x hx (hunbound x hxm)) fun x hx hxm => hbranch.bound x hx (hunbound x hxm)
    rw [← freeOccurrences_rename σ.avoids body hbranch.admits.named] at he'
    rw [infer_congr env body he, infer_congr env' (body.rename σ.map) he', ← hinfo.polarity]
    apply ((infer_parallel σ (henv.mono hV) body hbranch.admits hee' hnodup' hbound' V₃ le_rfl info.polarity
      (branchGoal_paired (hinfo.mono hV) hmatched)).and fun s s' r h => (infer_drawnFrom env body h hnodup').free).bind
    rintro V₄ hV₄ typed typed' ⟨htyped, hfree⟩
    have hV := le_trans hV hV₄
    apply (branchTy_parallel (henv.mono hV) (hinfo.mono hV) body.pos
      (rel_imp hjoined.ty fun _ _ h => h.mono hV) htyped.ty).bind
    intro V₅ hV₅ ty ty' hty
    have hV := le_trans hV hV₅
    refine (closeBranch_parallel (Pattern.pos_rename σ.map p) body.pos (hinfo.mono hV).baseline
      (hmatched.mono (le_trans hV₄ hV₅)) (htyped.used.mono hV₅) ?_ ?_).bind ?_
    . rintro x _ hx rfl
      by_cases hxp : x ∈ p.boundVars
      . exact (hbranch.clear x hxp).imp_left Eq.symm
      . exact .inl (hbranch.agree x (hfree x hx) hxp).symm
    . rintro x _ hx rfl hxm
      exact (hbranch.agree x (hfree x hx) (hunbound x hxm)).symm
    . intro V₆ hV₆ net net' hnet
      have hV := le_trans hV hV₆
      apply (branchUsed_parallel (hinfo.mono hV) (rel_imp hjoined.used fun _ _ h => h.mono hV) hnet).bind
      intro V₇ hV₇ used used' hused
      have hV := le_trans hV hV₇
      apply inferBranches_parallel ρ (henv.mono hV) (hinfo.mono hV) hnodup branches
      . apply hrest.imp
        rintro branch branch' ⟨σ, hbranch⟩
        exact ⟨σ, hbranch.mono hV⟩
      . exact ⟨rel_imp hty fun _ _ h => h.mono (le_trans hV₆ hV₇), .some hused⟩

end

end Expr

end GradedModal
