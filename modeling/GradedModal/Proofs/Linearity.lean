import Mathlib
import GradedModal.Proofs.Uses

/-!
This module says what checking guarantees about linear variables: none is discarded, and none is used twice as
long as the branches of each case agree on which variables they use.
-/

namespace GradedModal

open CheckM Context GradedModal.Path

def Exposes (x : String) (ps : List Path) (u : Option Assumption) : Prop :=
  ∀ ty, u = some (.linear ty) → ∀ p ∈ ps, 0 < p.exposed x

namespace Exposes

variable {x : String} {ps qs : List Path} {l r u : Option Assumption}

theorem none : Exposes x ps none := by
  intro ty h
  cases h

theorem sequence (hl : Exposes x ps l) (hr : Exposes x qs r) (h : AddsUp l r u)
    : Exposes x (sequence ps qs) u := by
  rintro ty rfl path hpath
  obtain ⟨p, hp, q, hq, rfl⟩ := mem_sequence.mp hpath
  rw [exposed_append]
  obtain ⟨hlinear, _⟩ | ⟨_, hlinear⟩ := h.eq_linear
  . have := hl ty hlinear p hp
    omega
  . have := hr ty hlinear q hq
    omega

theorem swap (h : Exposes x (Path.sequence ps qs) u) : Exposes x (Path.sequence qs ps) u := by
  intro ty hu path hpath
  obtain ⟨q, hq, p, hp, rfl⟩ := mem_sequence.mp hpath
  have hexposed := h ty hu (p ++ q) (mem_sequence.mpr ⟨p, hp, q, hq, rfl⟩)
  rw [exposed_append] at hexposed ⊢
  omega

theorem hide (h : Exposes x ps u) (y : String)
    : Exposes x (ps.map (·.hide [y])) (if x = y then Option.none else u) := by
  split
  . exact none
  . next hxy =>
    intro ty hu path hpath
    obtain ⟨p, hp, rfl⟩ := List.mem_map.mp hpath
    rw [exposed_hide, if_neg (by simp [hxy])]
    exact h ty hu p hp

end Exposes

theorem map_scale_ne_linear {u : Option Assumption} {grade : Grade} {ty : Ty}
    : u.map (·.scale grade) ≠ some (.linear ty) := by
  cases u with
  | none => simp
  | some a => cases a <;> simp [Assumption.scale]

-- A case uses a variable linearly if its scrutinee does, or all of its branches do and there is one.
theorem exposes_case {K : Constraint → Prop} {x : String} {base value joined t u : Option Assumption}
    {scrutinee : Expr} {bs : List BranchUse} {pos : Nat} (hvalue : Exposes x scrutinee.paths value)
    (hbs : ∀ b ∈ bs, Exposes x b.body.paths b.used) (hclosed : ∀ b ∈ bs, b.Closed K x base)
    (hgraded : ∀ t, base = some t → ∃ ty v, t = .graded ty (.var v))
    (hjoins : Joins (bs.map (BranchUse.net base)) joined) (ht : AddsUp joined value t) (hu : AddsUp t base u)
    : Exposes x (Expr.case pos scrutinee (bs.map BranchUse.branch)).paths u := by
  rintro ty rfl
  obtain ⟨rfl, rfl⟩ | ⟨_, hbase⟩ := hu.eq_linear
  . have hbranches : Exposes x (if (bs.map BranchUse.branch).isEmpty then [[]] else
        Expr.branchPaths (bs.map BranchUse.branch)) joined := by
      rintro ty rfl path hpath
      obtain ⟨hne, hlinear⟩ := hjoins.of_linear rfl
      rw [if_neg (by simpa using hne), BranchUse.mem_branchPaths] at hpath
      obtain ⟨b, hb, hpath⟩ := hpath
      obtain ⟨p, hp, rfl⟩ := List.mem_map.mp hpath
      obtain ⟨ty, hnet⟩ := hlinear _ (List.mem_map_of_mem hb)
      obtain ⟨hbound, hused⟩ := BranchUse.net_eq_some hnet
      have hx : x ∉ b.pattern.boundVars := by
        intro hx
        have := (hclosed b hb).bound hx
        simp [hbound] at this
      rw [exposed_hide, if_neg hx]
      exact hbs b hb ty hused p hp
    unfold Expr.paths
    exact (hbranches.sequence hvalue ht).swap ty rfl
  . obtain ⟨_, _, h⟩ := hgraded _ hbase
    cases h

theorem Uses.exposes {K : Constraint → Prop} {x : String} {a u : Option Assumption} {e : Expr} (h : Uses K x a e u)
    : Exposes x e.paths u := by
  induction h with
  | int pos n => exact .none
  | float pos y => exact .none
  | constructor pos name => exact .none
  | other pos hx => exact .none
  | global pos => exact .none
  | linear pos ty =>
    rintro _ _ p hp
    unfold Expr.paths at hp
    rw [List.mem_singleton] at hp
    simp [hp, exposed]
  | graded pos ty g kind =>
    rintro _ hu
    cases hu
  | lam pos declared _ ih =>
    unfold Expr.paths
    exact ih.hide _
  | app pos _ _ hadds ihf iha =>
    unfold Expr.paths
    exact ihf.sequence iha hadds
  | scale pos p p₁ p₂ factor hx _ ih =>
    unfold Expr.paths
    exact Exposes.none.sequence ih (.right _)
  | promoteChecked pos demand _ _ ih =>
    intro ty hu
    exact absurd hu map_scale_ne_linear
  | promote pos grade _ ih =>
    intro ty hu
    split at hu
    . exact absurd hu map_scale_ne_linear
    . cases hu
  | lift pos _ ih =>
    unfold Expr.paths
    exact ih
  | binop pos op _ _ hadds iha ihb | pair pos _ _ hadds iha ihb =>
    unfold Expr.paths
    exact iha.sequence ihb hadds
  | case pos _ _ hbase hclosed hjoins ht hu ih ihbs =>
    exact exposes_case ih ihbs hclosed hbase.graded hjoins ht hu
  | letDiamond pos declared _ _ hadds ihvalue ihrest | letBox pos ty _ _ hadds ihvalue ihrest =>
    unfold Expr.paths
    exact ihvalue.sequence (ihrest.hide _) hadds

def NonZero (u : Option Assumption) : Prop :=
  ∀ ty g, u = some (.graded ty g) → g.isZero = false

/--
What is used of a linear variable of the given type: the variable itself, or something with a grade.
-/
structure KeptLinear (ty : Ty) (u : Option Assumption) : Prop where
  nonZero : NonZero u
  ty_eq : ∀ ty', u = some (.linear ty') → ty' = ty

namespace KeptLinear

variable {ty : Ty} {l r u : Option Assumption}

theorem none : KeptLinear ty none :=
  ⟨nofun, nofun⟩

theorem graded {ty' : Ty} {g : Grade} (hg : g.isZero = false) : KeptLinear ty (some (.graded ty' g)) := by
  refine ⟨?_, nofun⟩
  rintro _ _ ⟨⟩
  exact hg

theorem add (hl : KeptLinear ty l) (hr : KeptLinear ty r) (h : AddsUp l r u) : KeptLinear ty u := by
  constructor
  . rintro ty g rfl
    obtain hl' | hr' | ⟨_, _, rfl⟩ := h.eq_graded
    . exact hl.nonZero ty g hl'
    . exact hr.nonZero ty g hr'
    . rfl
  . rintro ty' rfl
    obtain ⟨hl', _⟩ | ⟨_, hr'⟩ := h.eq_linear
    . exact hl.ty_eq ty' hl'
    . exact hr.ty_eq ty' hr'

theorem scale (u : Option Assumption) (v : String) : KeptLinear ty (u.map (·.scale (.var v))) := by
  cases u with
  | none => exact none
  | some a => cases a <;> exact graded rfl

-- A linear variable is used once inside of the box, and the demand for the box is not multiplied out.
theorem freshen {a a' : Option Assumption} (h : Freshens a a') (demand : Grade)
    : KeptLinear ty (a'.map (·.scale demand)) := by
  cases h with
  | absent => exact none
  | linear ty kind | graded ty g v => exact graded rfl

theorem join {us : List (Option Assumption)} (h : Joins us u) (hus : ∀ u ∈ us, KeptLinear ty u) : KeptLinear ty u := by
  induction h with
  | nil => exact none
  | single u => exact hus u List.mem_cons_self
  | snoc _ _ hjoins ih =>
    rw [List.forall_mem_append] at hus
    cases hjoins with
    | unused | leftOnly _ | rightOnly _ => exact none
    | linear _ _ => exact ih hus.1
    | gradedLeft _ _ _ | gradedRight _ _ _ | graded _ _ _ _ _ => exact graded rfl

end KeptLinear

theorem Uses.keptLinear {K : Constraint → Prop} {x : String} {a u : Option Assumption} {e : Expr} {ty : Ty}
    (h : Uses K x a e u) (ha : a = some (.linear ty)) : KeptLinear ty u := by
  induction h with
  | int pos n => exact .none
  | float pos y => exact .none
  | constructor pos name => exact .none
  | other pos hx => exact .none
  | global pos => exact .none
  | linear pos ty =>
    cases ha
    exact ⟨nofun, by rintro _ ⟨⟩; rfl⟩
  | graded pos ty g kind => cases ha
  | lam pos declared _ ih =>
    split
    . exact .none
    . next hx =>
      rw [if_neg hx] at ih
      exact ih ha
  | app pos _ _ hadds ihf iha => exact (ihf ha).add (iha ha) hadds
  | scale pos p p₁ p₂ factor hx _ ih => exact ih ha
  | promoteChecked pos demand hfresh _ ih => exact .freshen hfresh demand
  | promote pos v _ ih =>
    split
    . exact .scale _ _
    . exact .none
  | lift pos _ ih => exact ih ha
  | binop pos op _ _ hadds iha ihb | pair pos _ _ hadds iha ihb => exact (iha ha).add (ihb ha) hadds
  | @case a base value joined t u scrutinee bs pos _ _ hbase _ hjoins ht hu ih ihbs =>
    have hnets : ∀ u ∈ bs.map (BranchUse.net base), KeptLinear ty u := by
      rintro (_ | u) hu
      . exact .none
      . obtain ⟨b, hb, hnet⟩ := List.mem_map.mp hu
        obtain ⟨hbound, hused⟩ := BranchUse.net_eq_some hnet
        rw [← hused]
        apply ihbs b hb
        rw [hbound]
        exact ha
    have hbase : KeptLinear ty base := by
      cases base with
      | none => exact .none
      | some t =>
        obtain ⟨_, v, rfl⟩ := hbase.graded t rfl
        exact .graded rfl
    exact ((KeptLinear.join hjoins hnets).add (ih ha) ht).add hbase hu
  | letDiamond pos declared _ _ hadds ihvalue ihrest | letBox pos ty _ _ hadds ihvalue ihrest =>
    apply (ihvalue ha).add _ hadds
    split
    . exact .none
    . next hx =>
      rw [if_neg hx] at ihrest
      exact ihrest ha

theorem NonZero.eq_linear {u : Option Assumption} (h : NonZero u) (hu : isConsumed u = true)
    : ∃ ty, u = some (.linear ty) := by
  cases u with
  | none => cases hu
  | some a =>
    cases a with
    | linear ty => exact ⟨ty, rfl⟩
    | graded ty g =>
      have hzero : g.isZero = true := hu
      rw [h ty g rfl] at hzero
      cases hzero

/--
The variables that a pattern binds outside of boxes only.
-/
def Pattern.linearVars (p : Pattern) : List String :=
  p.boundVars.filter (!p.boxedVars.contains ·)

/--
The parameters of a definition that are bound outside of boxes only.
-/
def Definition.linearVars (d : Definition) : List String :=
  (Pattern.boundVarsAll d.patterns).filter (!(Pattern.boxedVarsAll d.patterns).contains ·)

namespace Expr

/--
The linear variables that an expression binds itself, with the expressions they are bound in.
-/
def linearScopes : Expr → List (String × Expr)
  | .lam _ binder _ body => [(binder.name, body)]
  | .letDiamond _ binder _ _ rest => [(binder.name, rest)]
  | .case _ _ branches => branches.flatMap fun (pattern, body) => pattern.linearVars.map fun x => (x, body)
  | _ => []

/--
Whether an expression binds by patterns. Only a wildcard of a pattern gets a name that is made up.
-/
def bindsPatterns : Expr → Bool
  | .case _ _ _ => true
  | _ => false

def UsesLinearly (x : String) (e : Expr) : Prop :=
  ∃ ty ty', Uses (fun _ => True) x (some (.linear ty)) e (some (.linear ty'))

theorem usesLinearly_of_isConsumed {x : String} {e : Expr} {ty : Ty} {u : Option Assumption}
    (h : Uses (fun _ => True) x (some (.linear ty)) e u) (hu : isConsumed u = true) : UsesLinearly x e := by
  obtain ⟨ty', rfl⟩ := (h.keptLinear rfl).nonZero.eq_linear hu
  exact ⟨ty, ty', h⟩

variable {env : Env} {c used : Context} {polarity : Polarity} {e : Expr} {x : String} {s s' : State}

theorem infer_usesLinearly {body : Expr} {y : String} {ty : Ty} {goal : Goal} {r : Typed}
    (h : infer env body (c.bind y (.linear ty)) polarity goal s = .ok r s')
    (hconsumed : isConsumed (r.used.lookup? y) = true) : UsesLinearly y body := by
  have huses := infer_uses (K := fun _ => True) y body h (fun _ _ => trivial)
  rw [lookup?_bind, if_pos rfl] at huses
  exact usesLinearly_of_isConsumed huses hconsumed

theorem Answers.usesLinearly {body : Expr} (h : Answers env c polarity e s used s')
    (hscope : (x, body) ∈ e.linearScopes) (hx : e.bindsPatterns = true → ¬Pattern.IsWildcardName x)
    : UsesLinearly x body := by
  obtain ⟨goal, r, hinfer, _⟩ := h.infer
  cases e with
  | lam pos b declared body' =>
    rw [linearScopes, List.mem_singleton] at hscope
    cases hscope
    obtain ⟨_, _, _, _, _, _, _, hbody, hconsumed, _⟩ | ⟨_, _, _, _, _, hbody, hconsumed, _⟩ := infer_lam hinfer
    . exact infer_usesLinearly hbody hconsumed
    . exact infer_usesLinearly hbody hconsumed
  | letDiamond pos b declared value rest =>
    rw [linearScopes, List.mem_singleton] at hscope
    cases hscope
    obtain ⟨_, _, _, _, _, _, _, _, _, _, _, _, _, _, hrest, _, hconsumed, _⟩ := infer_letDiamond hinfer
    exact infer_usesLinearly hrest hconsumed
  | case pos scrutinee branches =>
    obtain ⟨_, _, _, _, _, _, _, _, _, _, hbranches, _⟩ := infer_case hinfer
    obtain ⟨bs, rfl, hbs, hclosed, _⟩ := inferBranches_uses x branches hbranches (fun _ _ => trivial) [] rfl
    simp only [linearScopes, List.mem_flatMap, List.mem_map] at hscope
    obtain ⟨_, ⟨b, hb, rfl⟩, y, hy, h⟩ := hscope
    cases h
    simp only [BranchUse.branch, Pattern.linearVars, List.mem_filter, Bool.not_eq_true',
      List.contains_eq_mem, decide_eq_false_iff_not] at hy
    have hclosed := hclosed b hb
    have hlinear : ∃ ty, b.bound = some (.linear ty) := by
      cases hbound : b.bound with
      | none =>
        have := hclosed.bound hy.1
        simp [hbound] at this
      | some a =>
        cases a with
        | linear ty => exact ⟨ty, rfl⟩
        | graded ty g => exact absurd hbound (hclosed.ungraded hy.2 (hx rfl) ty g)
    obtain ⟨ty, hlinear⟩ := hlinear
    have huses := hbs b hb
    rw [hlinear] at huses
    exact usesLinearly_of_isConsumed huses (hclosed.consumed ty hlinear)
  | _ => simp [linearScopes] at hscope

end Expr

theorem Definition.check_eq_ok {env : Env} {d : Definition} {s s' : State} (h : d.check env s = .ok () s')
    : ∃ matched expected used subst s₁ s₂ s₃ s₄ s₅ s₆, bindUniversals d.scheme.vars s = .ok () s₁ ∧
        openScope s₁ = .ok () s₂ ∧ d.bindParameters env s₂ = .ok (matched, expected) s₃ ∧
        enterConsequent s₃ = .ok () s₄ ∧
        d.body.check env matched.context .positive true expected s₄ = .ok (used, subst) s₅ ∧
        matched.context.remainingLinear used = [] ∧
        Context.le d.body.pos (used.intersect matched.context) matched.context s₅ = .ok () s₆ ∧
        closeScope matched.existentials s₆ = .ok () s' := by
  unfold Definition.check at h
  rw [bind_eq_ok] at h
  obtain ⟨_, s₁, huniversals, h⟩ := h
  rw [bind_eq_ok] at h
  obtain ⟨_, s₂, hopen, h⟩ := h
  rw [bind_eq_ok] at h
  obtain ⟨⟨matched, expected⟩, s₃, hmatched, h⟩ := h
  rw [bind_eq_ok] at h
  obtain ⟨_, s₄, henter, h⟩ := h
  rw [bind_eq_ok] at h
  obtain ⟨⟨used, subst⟩, s₅, hbody, h⟩ := h
  dsimp only at h
  rw [ite_fail_bind_eq_ok, bind_eq_ok] at h
  obtain ⟨hremaining, _, s₆, hle, hclose⟩ := h
  simp only [Bool.not_eq_true', Bool.not_eq_false, List.isEmpty_iff] at hremaining
  exact ⟨matched, expected, used, subst, s₁, s₂, s₃, s₄, s₅, s₆, huniversals, hopen, hmatched, henter, hbody,
    hremaining, hle, hclose⟩

theorem Definition.usesLinearly {env : Env} {d : Definition} {x : String} {s s' : State}
    (h : d.check env s = .ok () s') (hmem : x ∈ d.linearVars) (hx : ¬Pattern.IsWildcardName x)
    : d.body.UsesLinearly x := by
  obtain ⟨matched, expected, used, subst, _, _, _, s₄, s₅, _, _, _, hmatched, _, hbody, hremaining, _⟩ := check_eq_ok h
  have hbinds := bindParameters_binds hmatched
  unfold linearVars at hmem
  simp only [List.mem_filter, Bool.not_eq_true', List.contains_eq_mem, decide_eq_false_iff_not] at hmem
  have hlinear : ∃ ty, matched.context.lookup? x = some (.linear ty) := by
    cases hlookup : matched.context.lookup? x with
    | none => exact absurd (hbinds.bound x hmem.1) (lookup?_eq_none_iff.mp hlookup)
    | some a =>
      cases a with
      | linear ty => exact ⟨ty, rfl⟩
      | graded ty g => exact absurd hlookup (hbinds.ungraded x hmem.2 hx ty g)
  obtain ⟨ty, hlinear⟩ := hlinear
  have hanswers : Expr.Answers env matched.context .positive d.body s₄ used s₅ := .inl ⟨_, _, _, hbody⟩
  have huses := hanswers.uses (K := fun _ => True) (fun _ _ => trivial) x
  rw [hlinear] at huses
  exact Expr.usesLinearly_of_isConsumed huses
    (Expr.isConsumed_of_not_mem_remainingLinear hlinear (by simp [hremaining]))

/--
A linear variable that counts as consumed occurs on every path, outside of promotions. The exception for zero
grades plays no part in it.
-/
theorem linear_never_discarded (env : Env) (s : State)
    : (∀ c polarity e used s', Expr.Answers env c polarity e s used s' →
        (∀ x ty, used.lookup? x = some (.linear ty) → ∀ p ∈ e.paths, 0 < p.exposed x) ∧
        (∀ x ty, c.lookup? x = some (.linear ty) →
          (∀ ty' g, used.lookup? x = some (.graded ty' g) → g.isZero = false) ∧
          (x ∉ c.remainingLinear used → ∀ p ∈ e.paths, 0 < p.exposed x)) ∧
        (∀ x body, (x, body) ∈ e.linearScopes → (e.bindsPatterns = true → ¬Pattern.IsWildcardName x) →
          ∀ p ∈ body.paths, 0 < p.exposed x)) ∧
      (∀ d s', Definition.check env d s = .ok () s' →
        ∀ x ∈ d.linearVars, ¬Pattern.IsWildcardName x → ∀ p ∈ d.body.paths, 0 < p.exposed x) := by
  constructor
  . intro c polarity e used s' h
    have huses := h.uses (K := fun _ => True) (fun _ _ => trivial)
    refine ⟨?_, ?_, ?_⟩
    . intro x ty hx
      exact (huses x).exposes ty hx
    . intro x ty hx
      have hnonZero := ((huses x).keptLinear hx).nonZero
      refine ⟨hnonZero, ?_⟩
      intro hremaining
      obtain ⟨ty', hlinear⟩ := hnonZero.eq_linear (Expr.isConsumed_of_not_mem_remainingLinear hx hremaining)
      exact (huses x).exposes ty' hlinear
    . intro x body hscope hx
      obtain ⟨_, ty', huses⟩ := h.usesLinearly hscope hx
      exact huses.exposes ty' rfl
  . intro d s' h x hmem hx
    obtain ⟨_, ty', huses⟩ := d.usesLinearly h hmem hx
    exact huses.exposes ty' rfl

/-- Both branches use the variable. -/
def Expr.agreeing (x : String) : Expr :=
  .case 0 (.constructor 0 "True")
    [(.constructor 0 "True" [], .var 0 x), (.constructor 0 "False" [], .binop 0 .add (.var 0 x) (.int 0 1))]

theorem Expr.answers_agreeing
    : ∃ used s', Answers ⟨.standard, []⟩ .empty .positive (.lam 0 ⟨0, "x"⟩ none (.agreeing "x")) .start used s' := by
  have hcheck : yields (check ⟨.standard, []⟩ .empty .positive false (.arrow (.const "Int") (.const "Int"))
      (.lam 0 ⟨0, "x"⟩ none (.agreeing "x"))) .start (fun _ _ => true) = true := by
    cbv
  obtain ⟨used, s', h, _⟩ := exists_answers (fun _ _ => true) hcheck
  exact ⟨used, s', h⟩

theorem linear_never_discarded_agreeing
    : ∃ used s', Expr.Answers ⟨.standard, []⟩ .empty .positive (.lam 0 ⟨0, "x"⟩ none (.agreeing "x")) .start used s' ∧
        ∀ p ∈ (Expr.agreeing "x").paths, 0 < p.exposed "x" := by
  obtain ⟨used, s', h⟩ := Expr.answers_agreeing
  have hscopes := ((linear_never_discarded _ _).1 _ _ _ _ _ h).2.2
  exact ⟨used, s', h, hscopes "x" _ List.mem_cons_self nofun⟩

end GradedModal
