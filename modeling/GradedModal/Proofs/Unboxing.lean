import Mathlib
import GradedModal.Proofs.Acceptance
import GradedModal.Proofs.Plain

/-!
This module compares the two ways to take a box apart, `let [x] : T = b in e` and `case b of [x] -> e`. They bound the
uses of the content from different sides: the first one asks for at least as many as the box allows, the second one
for at most as many.
-/

namespace GradedModal

open CheckM

/--
The kind of a grade without variables, if it is determined.
-/
def Grade.closedKind? : Grade → Option GradeKind
  | .nat _ => some .nat
  | .float _ => some .float
  | .level _ => some .level
  | .zero (.var _) => none
  | .one (.var _) => none
  | .zero kind => some kind
  | .one kind => some kind
  | .op _ a b => if a.closedKind? = b.closedKind? then a.closedKind? else none
  | .var _ => none

namespace Grade

variable {g : Grade} {kind : GradeKind}

theorem closedKind?_ne_var (h : g.closedKind? = some kind) (name : String) : kind ≠ .var name := by
  rintro rfl
  induction g with
  | zero kind | one kind =>
    cases kind with
    | var _ => cases h
    | _ => cases h
  | op o a b iha _ =>
    unfold closedKind? at h
    split at h
    . exact iha h
    . cases h
  | _ => cases h

theorem hasKind_of_closedKind? (h : g.closedKind? = some kind) (s : State) : s.HasKind g kind := by
  intro pos
  have hresolve := s.resolve_of_ne_var (closedKind?_ne_var h)
  induction g with
  | nat n | float x | level l =>
    cases h
    rfl
  | zero kind' | one kind' =>
    cases kind' with
    | var _ => cases h
    | _ =>
      cases h
      exact congrArg (EStateM.Result.ok · s) hresolve
  | op o a b iha ihb =>
    unfold closedKind? at h
    split at h
    . next heq =>
      unfold inferKind
      rw [bind_of_ok (iha h), bind_of_ok (ihb (heq ▸ h))]
      exact GradeKind.unify_self hresolve pos
    . cases h
  | var x => cases h

theorem occurrences_of_closedKind? (h : g.closedKind? = some kind) : g.occurrences = [] := by
  induction g with
  | op o a b iha ihb =>
    unfold closedKind? at h
    split at h
    . next heq =>
      unfold occurrences
      rw [iha h, ihb (heq ▸ h)]
      rfl
    . cases h
  | var x => cases h
  | _ => rfl

end Grade

/--
A definition of one parameter, which is a box. The body is an expression about the content of the box.
-/
structure Unboxing where
  pos : Nat
  name : String
  param : String
  /-- The variable that stands for the content. -/
  var : String
  grade : Grade
  content : Ty
  result : Ty
  body : Expr

namespace Unboxing

def scheme (u : Unboxing) : Scheme :=
  .mono (.arrow (.box u.grade u.content) u.result)

def define (u : Unboxing) (body : Expr) : Definition :=
  ⟨⟨u.pos, u.name⟩, [.var u.pos u.param], body, u.scheme⟩

/-- `f b = let [x] : T = b in e` -/
def byLet (u : Unboxing) : Definition :=
  u.define (.letBox u.pos ⟨u.pos, u.var⟩ u.content (.var u.pos u.param) u.body)

/-- `f b = case b of [x] -> e` -/
def byCase (u : Unboxing) : Definition :=
  u.define (.case u.pos (.var u.pos u.param) [(.box u.pos (.var u.pos u.var), u.body)])

def env (u : Unboxing) (builtins : Builtins) : Env :=
  ⟨builtins, [(u.name, u.scheme)]⟩

/-- The context of the body of the definition. -/
def context (u : Unboxing) : Context :=
  .singleton u.param (.linear (.box u.grade u.content))

/-- The context of the expression about the content, given the grade of the content. -/
def inner (u : Unboxing) (grade : Grade) : Context :=
  u.context.bind u.var (.graded u.content grade)

end Unboxing

theorem Context.singleton_eq (x : String) (a : Assumption) : Context.singleton x a = ⟨[(x, a)]⟩ := rfl

theorem Ty.foldr_args (ty : Ty) : ty.args.foldr .arrow ty.result = ty := by
  induction ty with
  | arrow a b _ ihb =>
    unfold args result
    rw [List.foldr_cons, ihb]
  | _ => rfl

namespace Unboxing

variable (u : Unboxing)

theorem bindParameters_define (env : Env) (body : Expr) (s : State)
    : (u.define body).bindParameters env s = .ok (⟨u.context, [], []⟩, u.result) s := by
  have hpatterns : Definition.bindPatterns env (u.define body).patterns (u.define body).scheme.ty.args
      ⟨.empty, [], []⟩ s = .ok ⟨u.context, [], []⟩ s := by
    change Definition.bindPatterns env [.var u.pos u.param] (.box u.grade u.content :: u.result.args) _ s = _
    unfold Definition.bindPatterns
    rw [Ty.substitute_nil]
    rfl
  have hlength : ¬(u.define body).scheme.ty.args.length < (u.define body).patterns.length := by
    simp [define, scheme, Scheme.mono, Ty.args]
  unfold Definition.bindParameters
  dsimp only
  rw [if_neg hlength, bind_of_ok hpatterns]
  change EStateM.Result.ok (_, (u.result.args.foldr .arrow u.result.result).substitute []) s = _
  rw [Ty.foldr_args, Ty.substitute_nil]

def start (n : Nat) : State :=
  ⟨[], [⟨[], [], true⟩], [], [], n⟩

theorem check_define (env : Env) (body : Expr) (s : State)
    : (u.define body).check env s.reset
        =
      (do
        let typed ← body.infer env u.context .positive (.check true u.result)
        if !(u.context.remainingLinear typed.used).isEmpty then
          fail u.pos (.linearity (u.context.remainingLinear typed.used) .unused)
        Context.le body.pos (typed.used.intersect u.context) u.context
        closeScope [] : CheckM Unit) (start s.nextFresh) := by
  have huniversals : bindUniversals (u.define body).scheme.vars s.reset = .ok () s.reset := rfl
  have hopen : openScope s.reset = .ok () ⟨[], [.start], [], [], s.nextFresh⟩ := rfl
  have henter : enterConsequent ⟨[], [.start], [], [], s.nextFresh⟩ = .ok () (start s.nextFresh) := rfl
  unfold Definition.check
  rw [bind_of_ok huniversals, bind_of_ok hopen, bind_of_ok (u.bindParameters_define env body _)]
  dsimp only
  rw [bind_of_ok henter]
  unfold Expr.check
  rw [bind_assoc]
  rfl

theorem check_define_of_ok (env : Env) {body : Expr} {s : State} {ps : List Predicate}
    {vars : List TypeVar} {kinds : List (String × GradeKind)} {n : Nat}
    (h : body.infer env u.context .positive (.check true u.result) (start s.nextFresh)
      = .ok ⟨u.result, u.context, []⟩ ⟨[], [⟨[], ps, true⟩], vars, kinds, n⟩)
    : (u.define body).check env s.reset = .ok () ⟨[.impl [] (.conj []) (.conj ps)], [], vars, kinds, n⟩ := by
  have hremaining : u.context.remainingLinear u.context = [] := by
    simp [context, Context.singleton_eq, Context.remainingLinear, Context.filter, Context.names, Context.lookup?,
      Context.isConsumed]
  have hle : ∀ t, Context.le body.pos (u.context.intersect u.context) u.context t = .ok () t := by
    intro t
    simp [context, Context.singleton_eq, Context.intersect, Context.filter, Context.contains, Context.lookup?,
      Context.le, Context.leAssumption]
    rfl
  rw [check_define, bind_of_ok h]
  dsimp only
  rw [hremaining, if_neg (by simp), bind_of_ok (hle _)]
  rfl

def used (u : Unboxing) : Option Grade → Context
  | none => .empty
  | some g => .singleton u.var (.graded u.content g)

def demand (u : Unboxing) (kind : GradeKind) : Option Grade → List Predicate
  | none => []
  | some g => [.atom (.le u.pos g u.grade kind)]

theorem matchTy_box (env : Env) (s : State)
    : (Pattern.box u.pos (.var u.pos u.var)).matchTy env (.box u.grade u.content) s
        = .ok ⟨.singleton u.var (.graded u.content u.grade), [], []⟩ s := by
  have hscale : (Context.singleton u.var (.linear u.content)).scale [u.var] u.grade
      = .singleton u.var (.graded u.content u.grade) := by
    simp [Context.singleton_eq, Context.scale, Context.restrict, Context.filter, Assumption.scale]
  unfold Pattern.matchTy
  change EStateM.Result.ok (Matched.mk ((Context.singleton u.var (.linear u.content)).scale [u.var] u.grade) [] []) s = _
  rw [hscale]

def inBranch (n : Nat) : State :=
  ⟨[], [⟨[], [], true⟩, ⟨[], [], true⟩], [], [], n⟩

theorem le_used {kind : GradeKind} {g : Option Grade} {n : Nat} (hg : ∀ g' ∈ g, (inBranch n).HasKind g' kind)
    (hgrade : (inBranch n).HasKind u.grade kind) (hkind : (inBranch n).resolve kind = kind)
    : Context.le u.pos ((u.used g).intersect (.singleton u.var (.graded u.content u.grade)))
        (.singleton u.var (.graded u.content u.grade)) (inBranch n)
        = .ok () ⟨[], [⟨[], u.demand kind g, true⟩, ⟨[], [], true⟩], [], [], n⟩ := by
  cases g with
  | none => rfl
  | some g =>
    have hcommon : Context.commonKind u.pos g u.grade (inBranch n) = .ok kind (inBranch n) := by
      unfold Context.commonKind
      rw [bind_of_ok (hg g rfl u.pos), bind_of_ok (hgrade u.pos)]
      exact GradeKind.unify_self hkind u.pos
    have hle : Context.leAssumption u.pos u.var (.graded u.content g) (some (.graded u.content u.grade)) (inBranch n)
        = .ok () ⟨[], [⟨[], u.demand kind (some g), true⟩, ⟨[], [], true⟩], [], [], n⟩ := by
      unfold Context.leAssumption
      dsimp only
      rw [bind_of_ok hcommon]
      rfl
    have hintersect : (u.used (some g)).intersect (.singleton u.var (.graded u.content u.grade))
        = u.used (some g) := by
      simp [used, Context.singleton_eq, Context.intersect, Context.filter, Context.contains, Context.lookup?]
    have hlookup : (Context.singleton u.var (.graded u.content u.grade)).lookup? u.var
        = some (.graded u.content u.grade) := by
      rw [Context.lookup?_singleton, if_pos rfl]
    rw [hintersect]
    change (do
      Context.leAssumption u.pos u.var (.graded u.content g)
        ((Context.singleton u.var (.graded u.content u.grade)).lookup? u.var)
      pure () : CheckM Unit) (inBranch n) = _
    rw [hlookup, bind_of_ok hle]
    rfl

theorem inferBranches_box {env : Env} {kind : GradeKind} {g : Option Grade} {n : Nat} {typed : Typed}
    (hg : ∀ g' ∈ g, (inBranch n).HasKind g' kind) (hgrade : (inBranch n).HasKind u.grade kind)
    (hkind : (inBranch n).resolve kind = kind)
    (h : u.body.infer env (u.inner u.grade) .positive (.check false u.result) (inBranch n) = .ok typed (inBranch n))
    (hused : typed.used = u.used g)
    : Expr.inferBranches env ⟨u.pos, u.context, .positive, .box u.grade u.content, .empty, some u.result⟩
        [(.box u.pos (.var u.pos u.var), u.body)] ⟨none, none⟩ (start n)
        = .ok ⟨none, some .empty⟩
            ⟨[], [⟨[], [.impl [] (.conj []) (.conj (u.demand kind g))], true⟩], [], [], n⟩ := by
  have hopen : openScope (start n) = .ok () ⟨[], [.start, ⟨[], [], true⟩], [], [], n⟩ := rfl
  have henter : enterConsequent ⟨[], [.start, ⟨[], [], true⟩], [], [], n⟩ = .ok () (inBranch n) := rfl
  have hbind : u.context.bindAll (.singleton u.var (.graded u.content u.grade)) = u.inner u.grade := rfl
  have hclose : Expr.closeBranch ⟨u.pos, u.context, .positive, .box u.grade u.content, .empty, some u.result⟩
      (.box u.pos (.var u.pos u.var)) u.body.pos ⟨.singleton u.var (.graded u.content u.grade), [], []⟩ typed.used
      (inBranch n)
        = .ok .empty ⟨[], [⟨[], [.impl [] (.conj []) (.conj (u.demand kind g))], true⟩], [], [], n⟩ := by
    have hbase : (u.used g).intersect .empty = .empty := by
      cases g with
      | none => rfl
      | some g => rfl
    have hnet : ((u.used g).subtract .empty).subtract (.singleton u.var (.graded u.content u.grade)) = .empty := by
      cases g with
      | none => rfl
      | some g =>
        simp [used, Context.singleton_eq, Context.subtract, Context.filter, Context.contains, Context.lookup?,
          Context.empty]
    unfold Expr.closeBranch
    rw [hused]
    dsimp only
    rw [if_neg (by simp [Context.singleton_eq, Context.remainingLinear, Context.filter, Context.names,
      Assumption.isLinear])]
    dsimp only [Pattern.pos]
    rw [bind_of_ok (u.le_used hg hgrade hkind), hbase, hnet]
    rfl
  unfold Expr.inferBranches
  rw [bind_of_ok hopen, bind_of_ok (u.matchTy_box env _), bind_of_ok henter]
  dsimp only
  rw [hbind, Ty.substitute_nil, bind_of_ok h, pure_bind, bind_of_ok hclose]
  rfl

theorem varTy_param (env : Env) (s : State)
    : Expr.varTy env u.context u.pos u.param s = .ok (.box u.grade u.content, u.context) s := by
  have hlookup : u.context.lookup? u.param = some (.linear (.box u.grade u.content)) := by
    unfold context
    rw [Context.lookup?_singleton, if_pos rfl]
  unfold Expr.varTy
  rw [hlookup]
  rfl

theorem synthesize_param (env : Env) (s : State)
    : Expr.infer env (.var u.pos u.param) u.context .positive .synthesize s
        = .ok ⟨.box u.grade u.content, u.context, []⟩ s := by
  unfold Expr.infer
  rw [bind_of_ok (u.varTy_param env s)]
  rfl

theorem baseline_case (s : State)
    : Expr.baseline u.pos u.context [(.box u.pos (.var u.pos u.var), u.body)] s = .ok .empty s := rfl

theorem byCase_eq_ok {env : Env} {s s' : State} (h : u.byCase.check env s.reset = .ok () s')
    : ∃ typed s₁, u.body.infer env (u.inner u.grade) .positive (.check false u.result) (inBranch s.nextFresh)
        = .ok typed s₁ := by
  unfold byCase at h
  rw [check_define, bind_eq_ok] at h
  obtain ⟨_, _, hinfer, _⟩ := h
  obtain ⟨value, base, joined, used, s₁, s₂, s₃, s₄, hvalue, hbase, hbranches, _⟩ := Expr.infer_case hinfer
  rw [synthesize_param] at hvalue
  cases hvalue
  rw [baseline_case] at hbase
  cases hbase
  obtain ⟨matched, typed, ty, net, used', s₁, s₂, s₃, s₄, s₅, s₆, s₇, hopen, hmatch, henter, hbody, _⟩ :=
    Expr.inferBranches_cons hbranches
  cases hopen
  rw [matchTy_box] at hmatch
  cases hmatch
  cases henter
  have hgoal : Expr.branchGoal ⟨u.pos, u.context, .positive, .box u.grade u.content, .empty, some u.result⟩
      ⟨.singleton u.var (.graded u.content u.grade), [], []⟩ = .check false u.result := by
    unfold Expr.branchGoal
    dsimp only
    rw [Ty.substitute_nil]
  exact ⟨typed, s₄, hgoal ▸ hbody⟩

def letKind (n : Nat) : GradeKind :=
  .var ("k." ++ toString n)

def letVar (u : Unboxing) (n : Nat) : String :=
  u.var ++ "." ++ toString (n + 1)

def inLet (u : Unboxing) (n : Nat) : State :=
  ⟨[], [⟨[], [], true⟩], [⟨u.letVar n, .grade (letKind n), .instantiated⟩], [], n + 2⟩

theorem freshGradeKind_start (n : Nat)
    : freshGradeKind "k" (start n) = .ok (letKind n) (start (n + 1)) := rfl

theorem freshGrade_start (n : Nat)
    : freshGrade u.var (letKind n) (start (n + 1)) = .ok (.var (u.letVar n)) (u.inLet n) := rfl

theorem hasKind_letVar (n : Nat) : (u.inLet n).HasKind (.var (u.letVar n)) (letKind n) := by
  intro pos
  have hvar : typeVar pos (u.letVar n) (u.inLet n)
      = .ok ⟨u.letVar n, .grade (letKind n), .instantiated⟩ (u.inLet n) := by
    have hget : (get : CheckM State) (u.inLet n) = .ok (u.inLet n) (u.inLet n) := rfl
    have hlookup : (u.inLet n).lookup? (u.letVar n) = some ⟨u.letVar n, .grade (letKind n), .instantiated⟩ := by
      simp [State.lookup?, inLet]
    unfold typeVar
    rw [bind_of_ok hget, hlookup]
    rfl
  unfold Grade.inferKind
  rw [bind_of_ok hvar]
  rfl

def Agree (env : Env) (depth : Nat) (left right : Ty) : Prop :=
  ∃ pos relation unified t t', Unify.relate env pos depth relation left right t = .ok unified t' ∧ unified.agree = true

theorem Agree.of_box {env : Env} {pos depth : Nat} {relation : Relation} {g h : Grade} {ty ty' : Ty}
    {unified : Unified} {s s' : State}
    (hrelate : Unify.relate env pos (depth + 1) relation (.box g ty) (.box h ty') s = .ok unified s')
    (hagree : unified.agree = true) : Agree env depth ty ty' := by
  simp only [Unify.relate, bind_eq_ok, pure_eq_ok] at hrelate
  obtain ⟨_, _, _, _, _, _, _, _, _, _, _, _, inner, s₁, hinner, rfl, _⟩ := hrelate
  exact ⟨pos, .eq, inner, _, s₁, hinner, hagree⟩

theorem byLet_eq_ok {env : Env} {s s' : State} (h : u.byLet.check env s.reset = .ok () s')
    : ∃ second s₁, u.body.infer env (u.inner (.var (u.letVar s.nextFresh))) .positive .synthesize (u.inLet s.nextFresh)
          = .ok second s₁ ∧
        Agree env Unify.maxDepth second.ty u.result ∧ Agree env (Unify.maxDepth - 1) u.content u.content := by
  unfold byLet at h
  rw [check_define, bind_eq_ok] at h
  obtain ⟨typed, _, hinfer, _⟩ := h
  obtain ⟨kind, grade, second, demand, first, used, s₁, s₂, s₃, s₄, s₅, s₆, hkind, hgrade, hsecond, _, hfirst, _,
    hconclude⟩ := Expr.infer_letBox hinfer
  cases hkind
  cases hgrade
  refine ⟨second, s₃, hsecond, ?_, ?_⟩
  . obtain ⟨relation, unified, _, hagree, hrelate⟩ := Expr.conclude_check hconclude
    exact ⟨_, relation, unified, _, _, hrelate, hagree⟩
  . obtain ⟨ty, used', s₇, hvar, hconclude⟩ := Expr.infer_var hfirst
    rw [u.varTy_param] at hvar
    cases hvar
    obtain ⟨relation, unified, _, hagree, hrelate⟩ := Expr.conclude_check hconclude
    exact .of_box hrelate hagree

theorem Agree.run {env : Env} {depth : Nat} {left right : Ty} (h : Agree env depth left right)
    (hleft : left.isPlain = true) (hright : right.isPlain = true) (pos : Nat) (relation : Relation) (s : State)
    : ∃ unified, Unify.relate env pos depth relation left right s = .ok unified s ∧ unified.agree = true ∧
        unified.subst = [] := by
  obtain ⟨pos', relation', unified, t, t', hrelate, hagree⟩ := h
  obtain ⟨_, _, hrun, rfl, hsubst⟩ := (Unify.together_relate pos' pos hleft hright depth relation' relation).of_ok hrelate
  exact ⟨unified, hrun, hagree, hsubst⟩

theorem Agree.conclude {env : Env} {actual expected : Ty} (h : Agree env Unify.maxDepth actual expected)
    (hactual : actual.isPlain = true) (hexpected : expected.isPlain = true) (pos : Nat) (topLevel : Bool)
    (used : Context) (s : State)
    : Expr.conclude env pos .positive (.check topLevel expected) actual used s = .ok ⟨expected, used, []⟩ s := by
  obtain ⟨unified, hrun, hagree, hsubst⟩ := h.run hactual hexpected pos (if topLevel then .eq else .le) s
  have hmap : mapError (·.withHint (.comparing expected actual))
      (actual.relate env pos (if topLevel then .eq else .le) expected) s = .ok unified s := by
    rw [mapError_eq_ok]
    exact hrun
  unfold Expr.conclude
  dsimp only
  rw [if_pos rfl]
  dsimp only
  rw [bind_of_ok hmap, if_pos hagree, hsubst]
  rfl

/--
The expression about the content is plain, and so are the types in the signature. The grade of the box has no variables.
-/
structure IsPlain (u : Unboxing) (builtins : Builtins) (kind : GradeKind) : Prop where
  grade : u.grade.closedKind? = some kind
  content : u.content.isPlain = true
  result : u.result.isPlain = true
  operators : ∀ o ∈ builtins.operators, o.2.isPlain = true
  body : u.body.isPlain (u.env builtins) u.param = true

structure Finds (u : Unboxing) (builtins : Builtins) (s : State) (kind : GradeKind) (grade : Grade) (goal : Goal)
    (ty : Ty) (g : Option Grade) : Prop where
  run : u.body.infer (u.env builtins) (u.inner grade) .positive goal s = .ok ⟨ty, u.used g, []⟩ s
  isPlain : ty.isPlain = true
  isSum : ∀ g' ∈ g, g'.IsSum kind

theorem used_eq {k l : GradeKind} {g : Grade} {count : String → Option Grade} {w w' : Context}
    (h : Context.Used k l u.param (u.inner g) count w w') : w = u.used (count u.var) := by
  have hcount : w.lookup? u.var = (count u.var).map (.graded u.content) := by
    apply h.counted u.var u.content g
    unfold inner
    rw [Context.lookup?_bind, if_pos rfl]
  have hnames : ∀ y ∈ w.names, y = u.var := by
    intro y hy
    obtain ⟨hparam, hmem⟩ := h.bound y hy
    by_contra hne
    unfold inner context at hmem
    rw [← Context.isSome_lookup?_iff, Context.lookup?_bind, if_neg hne, Context.lookup?_singleton, if_neg hparam] at hmem
    cases hmem
  have hnodup := h.nodup
  obtain ⟨bindings⟩ := w
  unfold Context.names at hnames hnodup
  cases bindings with
  | nil =>
    cases hused : count u.var with
    | none => rfl
    | some g' =>
      rw [hused] at hcount
      cases hcount
  | cons b bindings =>
    obtain ⟨y, a⟩ := b
    obtain rfl : y = u.var := hnames y (by simp)
    cases bindings with
    | nil =>
      unfold Context.lookup? at hcount
      rw [List.lookup_cons_self] at hcount
      cases hused : count u.var with
      | none =>
        rw [hused] at hcount
        cases hcount
      | some g' =>
        rw [hused] at hcount
        cases hcount
        rfl
    | cons b' bindings =>
      have hb' := hnames b'.1 (by simp)
      simp [hb'] at hnodup

theorem isSum_of_used {k l : GradeKind} {hidden : String} {c w w' : Context} {count : String → Option Grade}
    {g : Option Grade} (h : Context.Used k l hidden c count w w') (hw : w = u.used g) : ∀ g' ∈ g, g'.IsSum k := by
  rintro g' ⟨⟩
  have hlookup : w.lookup? u.var = some (.graded u.content g') := by
    rw [hw, used, Context.lookup?_singleton, if_pos rfl]
  obtain ⟨hnone, _⟩ | ⟨a, b, ha, _, hab⟩ := h.pointwise.lookup? u.var
  . rw [hlookup] at hnone
    cases hnone
  . rw [hlookup] at ha
    cases ha
    cases hab with
    | graded _ hg _ => exact hg

theorem finds {builtins : Builtins} {kind k l : GradeKind} {s s' t : State} {g h : Grade} {goal : Goal} {typed : Typed}
    (hu : u.IsPlain builtins kind) (hgoal : goal.isPlain = true) (hk : s.resolve k = k) (hl : t.resolve l = l)
    (hg : s.HasKind g k) (hh : t.HasKind h l)
    (hrun : u.body.infer (u.env builtins) (u.inner g) .positive goal s = .ok typed s')
    : u.Finds builtins s k g goal typed.ty (u.body.usage u.var k) ∧
      u.Finds builtins t l h goal typed.ty (u.body.usage u.var l) := by
  have hops : ∀ op, ∀ ty ∈ (u.env builtins).builtins.signatures op, ty.isPlain = true := by
    intro op ty hty
    obtain ⟨o, ho, rfl⟩ := List.mem_map.mp hty
    exact hu.operators o (List.mem_of_mem_filter ho)
  have hinner : ∀ {s t : State} {k l : GradeKind} {g h : Grade}, s.HasKind g k → t.HasKind h l →
      Context.Assumed s t k l u.param (u.inner g) (u.inner h) := by
    intro s t k l g h hg hh
    have hparam : Context.Assumed s t k l u.param u.context u.context :=
      Context.pointwise_singleton (fun hne => absurd rfl hne)
    exact hparam.bind (fun _ => .graded hu.content hg hh)
  have hside : ∀ {s s' t : State} {k l : GradeKind} {g h : Grade} {typed : Typed}, s.resolve k = k → t.resolve l = l →
      s.HasKind g k → t.HasKind h l →
      u.body.infer (u.env builtins) (u.inner g) .positive goal s = .ok typed s' →
      u.Finds builtins s k g goal typed.ty (u.body.usage u.var k) ∧
        ∃ typed', u.body.infer (u.env builtins) (u.inner h) .positive goal t = .ok typed' t ∧ typed'.ty = typed.ty := by
    intro s s' t k l g h typed hk hl hg hh hrun
    obtain ⟨rfl, typed', hrun', halike⟩ :=
      (Expr.together_infer hops hk hl u.body hu.body (hinner hg hh) .positive goal hgoal).of_ok hrun
    have hused := u.used_eq halike.used
    refine ⟨⟨?_, halike.isPlain, u.isSum_of_used halike.used hused⟩, typed', hrun', halike.ty.symm⟩
    rw [hrun]
    obtain ⟨ty, used, subst⟩ := typed
    obtain rfl : subst = [] := halike.left
    obtain rfl : used = _ := hused
    rfl
  -- each side counts its own uses, so both take the first place once
  obtain ⟨hfirst, typed', hrun', hty⟩ := hside hk hl hg hh hrun
  obtain ⟨hsecond, _⟩ := hside hl hk hh hg hrun'
  exact ⟨hfirst, hty ▸ hsecond⟩

theorem check_byCase {builtins : Builtins} {kind : GradeKind} {s : State} {ty : Ty} {g : Option Grade}
    (hu : u.IsPlain builtins kind)
    (h : u.Finds builtins (inBranch s.nextFresh) kind u.grade (.check false u.result) ty g)
    : u.byCase.check (u.env builtins) s.reset
        = .ok () ⟨[.impl [] (.conj []) (.conj [.impl [] (.conj []) (.conj (u.demand kind g))])], [], [], [],
            s.nextFresh⟩ := by
  have hkind := (inBranch s.nextFresh).resolve_of_ne_var (Grade.closedKind?_ne_var hu.grade)
  apply u.check_define_of_ok
  unfold Expr.infer
  rw [bind_of_ok (u.synthesize_param _ _), bind_of_ok (u.baseline_case _)]
  dsimp only
  rw [bind_of_ok (u.inferBranches_box (fun g' hg' => (h.isSum g' hg').hasKind hkind)
    (Grade.hasKind_of_closedKind? hu.grade _) hkind h.run rfl)]
  rfl

/--
The state of the let after its value has been checked. The kind is determined by the grade of the box, which has to be
at most the grade of the uses.
-/
def afterLet (u : Unboxing) (n : Nat) (kind : GradeKind) (g : Grade) : State :=
  ⟨[], [⟨[], [.atom (.le u.pos u.grade g kind)], true⟩], (u.inLet n).typeVars, [("k." ++ toString n, kind)], n + 2⟩

theorem check_param {builtins : Builtins} {kind : GradeKind} {n : Nat} {g : Grade} (hu : u.IsPlain builtins kind)
    (hg : g.IsSum (letKind n)) (hcontent : Agree (u.env builtins) (Unify.maxDepth - 1) u.content u.content)
    : Expr.infer (u.env builtins) (.var u.pos u.param) u.context .positive (.check false (.box g u.content)) (u.inLet n)
        = .ok ⟨.box g u.content, u.context, []⟩ (u.afterLet n kind g) := by
  have hvar := Grade.closedKind?_ne_var hu.grade
  have hunify : GradeKind.unify u.pos kind (letKind n) (u.inLet n)
      = .ok kind { u.inLet n with kinds := [("k." ++ toString n, kind)] } := by
    have hresolve : resolve kind (u.inLet n) = .ok kind (u.inLet n) :=
      congrArg (EStateM.Result.ok · (u.inLet n)) (State.resolve_of_ne_var hvar _)
    have hresolve' : resolve (letKind n) (u.inLet n) = .ok (letKind n) (u.inLet n) := rfl
    have hne : kind ≠ letKind n := hvar _
    unfold GradeKind.unify
    rw [bind_of_ok hresolve, bind_of_ok hresolve', if_neg hne]
    cases kind with
    | var name => exact absurd rfl (hvar name)
    | _ => rfl
  have hconstrain : constrain ⟨u.pos, .le, u.grade, g, kind⟩
      { u.inLet n with kinds := [("k." ++ toString n, kind)] } = .ok () (u.afterLet n kind g) := rfl
  obtain ⟨inner, hinner, hagree, hsubst⟩ := hcontent.run hu.content hu.content u.pos .eq (u.afterLet n kind g)
  have hrelate : (Ty.box u.grade u.content).relate (u.env builtins) u.pos .le (.box g u.content) (u.inLet n)
      = .ok ⟨inner.agree, .box u.grade inner.ty, []⟩ (u.afterLet n kind g) := by
    change Unify.relate _ _ (Unify.maxDepth - 1 + 1) _ _ _ _ = _
    simp only [Unify.relate]
    rw [bind_of_ok (Grade.hasKind_of_closedKind? hu.grade _ u.pos), bind_of_ok (hg.hasKind rfl u.pos), bind_of_ok hunify,
      bind_of_ok hconstrain, bind_of_ok hinner, hsubst]
    rfl
  have hmap : mapError (·.withHint (.comparing (.box g u.content) (.box u.grade u.content)))
      ((Ty.box u.grade u.content).relate (u.env builtins) u.pos .le (.box g u.content)) (u.inLet n)
      = .ok ⟨inner.agree, .box u.grade inner.ty, []⟩ (u.afterLet n kind g) := by
    rw [mapError_eq_ok]
    exact hrelate
  unfold Expr.infer
  rw [bind_of_ok (u.varTy_param _ _)]
  unfold Expr.conclude
  dsimp only
  rw [if_pos rfl, if_neg (by simp)]
  dsimp only
  rw [bind_of_ok hmap, if_pos hagree]
  rfl

theorem check_byLet {builtins : Builtins} {kind : GradeKind} {s : State} {ty : Ty} {g : Grade}
    (hu : u.IsPlain builtins kind)
    (h : u.Finds builtins (u.inLet s.nextFresh) (letKind s.nextFresh) (.var (u.letVar s.nextFresh)) .synthesize ty
      (some g))
    (hresult : Agree (u.env builtins) Unify.maxDepth ty u.result)
    (hcontent : Agree (u.env builtins) (Unify.maxDepth - 1) u.content u.content)
    : u.byLet.check (u.env builtins) s.reset
        = .ok () ⟨[.impl [] (.conj []) (.conj [.atom (.le u.pos u.grade g kind)])], [],
            (u.inLet s.nextFresh).typeVars, [("k." ++ toString s.nextFresh, kind)], s.nextFresh + 2⟩ := by
  have hlookup : (u.used (some g)).lookup? u.var = some (.graded u.content g) := by
    rw [used, Context.lookup?_singleton, if_pos rfl]
  have hremove : (u.used (some g)).remove u.var = .empty := by
    simp [used, Context.singleton_eq, Context.remove, Context.filter, Context.empty]
  have hcombine : ∀ t, Context.combine u.pos u.context .empty t = .ok u.context t := fun _ => rfl
  have hrest : u.body.infer (u.env builtins) (u.context.bind u.var (.graded u.content (.var (u.letVar s.nextFresh))))
      .positive .synthesize (u.inLet s.nextFresh) = .ok ⟨ty, u.used (some g), []⟩ (u.inLet s.nextFresh) := h.run
  apply u.check_define_of_ok
  unfold Expr.infer
  rw [bind_of_ok (freshGradeKind_start _), bind_of_ok (u.freshGrade_start _), bind_of_ok hrest]
  dsimp only
  rw [hlookup]
  dsimp only
  rw [pure_bind, bind_of_ok (u.check_param hu (h.isSum g rfl) hcontent)]
  dsimp only
  rw [hremove, bind_of_ok (hcombine _)]
  exact hresult.conclude h.isPlain hu.result _ _ _ _

end Unboxing

def Grade.atKind (kind : GradeKind) : Grade → Grade
  | .one _ => .one kind
  | .op o a b => .op o (a.atKind kind) (b.atKind kind)
  | g => g

theorem Grade.evaluate_atKind (k kind : GradeKind) (a : Assignment) (g : Grade)
    : (g.atKind k).evaluate kind a = g.evaluate kind a := by
  induction g with
  | op o g h ihg ihh =>
    unfold atKind evaluate
    rw [ihg, ihh]
  | _ => rfl

theorem Grade.addUses_atKind (k : GradeKind) (l r : Option Grade)
    : addUses (l.map (·.atKind k)) (r.map (·.atKind k)) = (addUses l r).map (·.atKind k) := by
  cases l with
  | none => rfl
  | some l =>
    cases r with
    | none => rfl
    | some r => rfl

theorem Expr.usage_atKind (x : String) (k l : GradeKind) (e : Expr) : e.usage x l = (e.usage x k).map (·.atKind l) := by
  cases e with
  | var pos name =>
    unfold usage
    split
    . rfl
    . rfl
  | lam pos b declared body =>
    unfold usage
    split
    . rfl
    . exact usage_atKind x k l body
  | lift pos e =>
    unfold usage
    exact usage_atKind x k l e
  | app pos a b | binop pos op a b | pair pos a b =>
    unfold usage
    rw [usage_atKind x k l a, usage_atKind x k l b, Grade.addUses_atKind]
  | letDiamond pos b declared value rest =>
    unfold usage
    rw [usage_atKind x k l value, ← Grade.addUses_atKind]
    split
    . rfl
    . rw [usage_atKind x k l rest]
  | _ => rfl

theorem Grade.IsSum.occurrences {g : Grade} {kind : GradeKind} (h : g.IsSum kind) : g.occurrences = [] := by
  induction h with
  | one => rfl
  | plus _ _ ihg ihh =>
    unfold Grade.occurrences
    rw [ihg, ihh]
    rfl

theorem Constraint.vars_le_closed {g h : Grade} (hg : g.occurrences = []) (hh : h.occurrences = []) (pos : Nat)
    (kind : GradeKind) : (Constraint.le pos g h kind).vars = [] := by
  unfold Constraint.vars Constraint.le
  rw [hg, hh]
  rfl

namespace Unboxing

variable {u : Unboxing} {builtins : Builtins} {kind : GradeKind} {s s' : State}

theorem IsPlain.settle (hu : u.IsPlain builtins kind) (s : State) : s.settle kind = kind :=
  s.settle_of_ne_var (Grade.closedKind?_ne_var hu.grade)

theorem isTrue_byLet {k : GradeKind} {g : Grade} {vars : List TypeVar} {kinds : List (String × GradeKind)} {n : Nat}
    (hu : u.IsPlain builtins kind) (hg : g.IsSum k)
    (hs' : s' = ⟨[.impl [] (.conj []) (.conj [.atom (.le u.pos u.grade g kind)])], [], vars, kinds, n⟩)
    : ((s'.collected.mapKinds s'.settle).compile s'.gradeVars).formula.IsTrue .standard []
        ↔
      (Constraint.le u.pos u.grade g kind).holds [] = .ok true := by
  have hclosed := Constraint.vars_le_closed (Grade.occurrences_of_closedKind? hu.grade) hg.occurrences u.pos kind
  have hpredicate : s'.collected.mapKinds s'.settle
      = .conj [.impl [] (.conj []) (.conj [.atom (.le u.pos u.grade g (s'.settle kind))])] := by
    subst hs'
    rfl
  rw [hpredicate, hu.settle, Predicate.isTrue_compile_closed]
  . simp [Predicate.Holds, Predicate.AllHold]
  . simpa [Predicate.constraints, Predicate.constraintsAll] using hclosed

theorem isTrue_byCase {g : Option Grade} {n : Nat} (hu : u.IsPlain builtins kind) (hg : ∀ g' ∈ g, g'.IsSum kind)
    (hs' : s' = ⟨[.impl [] (.conj []) (.conj [.impl [] (.conj []) (.conj (u.demand kind g))])], [], [], [], n⟩)
    : ((s'.collected.mapKinds s'.settle).compile s'.gradeVars).formula.IsTrue .standard []
        ↔
      ∀ g', g = some g' → (Constraint.le u.pos g' u.grade kind).holds [] = .ok true := by
  cases g with
  | none =>
    have htrivial : (s'.collected.mapKinds s'.settle).isTrivial = true := by
      subst hs'
      rfl
    exact ⟨fun _ => nofun, fun _ => Predicate.isTrue_of_isTrivial htrivial _⟩
  | some g =>
    have hclosed :=
      Constraint.vars_le_closed (hg g rfl).occurrences (Grade.occurrences_of_closedKind? hu.grade) u.pos kind
    have hpredicate : s'.collected.mapKinds s'.settle
        = .conj [.impl [] (.conj []) (.conj [.impl [] (.conj [])
            (.conj [.atom (.le u.pos g u.grade (s'.settle kind))])])] := by
      subst hs'
      rfl
    rw [hpredicate, hu.settle, Predicate.isTrue_compile_closed]
    . simp [Predicate.Holds, Predicate.AllHold]
    . simpa [Predicate.constraints, Predicate.constraintsAll] using hclosed

/--
The expression about the content checks against the declared type of the result, whatever the state is.
-/
def BodyChecks (u : Unboxing) (builtins : Builtins) : Prop :=
  ∃ s typed s', u.body.infer (u.env builtins) (u.inner u.grade) .positive (.check false u.result) s = .ok typed s'

theorem IsPlain.finds_of_bodyChecks (hu : u.IsPlain builtins kind) (h : u.BodyChecks builtins) (t : State)
    : ∃ ty, u.Finds builtins t kind u.grade (.check false u.result) ty (u.body.usage u.var kind) := by
  obtain ⟨s, typed, s', hrun⟩ := h
  have hkind := fun s : State => s.resolve_of_ne_var (Grade.closedKind?_ne_var hu.grade)
  have hgrade := Grade.hasKind_of_closedKind? hu.grade
  have hgoal : (Goal.check false u.result).isPlain = true := hu.result
  exact ⟨_, (u.finds hu hgoal (hkind s) (hkind t) (hgrade s) (hgrade t) hrun).2⟩

structure Typechecks (u : Unboxing) (builtins : Builtins) (kind : GradeKind) (s : State) (ty : Ty) : Prop where
  signature : Program.checkSignatures (u.env builtins) [u.byLet] .start = .ok () s
  rest : u.Finds builtins (u.inLet s.nextFresh) (letKind s.nextFresh) (.var (u.letVar s.nextFresh)) .synthesize ty
    (u.body.usage u.var (letKind s.nextFresh))
  branch : u.Finds builtins (inBranch s.nextFresh) kind u.grade .synthesize ty (u.body.usage u.var kind)
  result : Agree (u.env builtins) Unify.maxDepth ty u.result
  content : Agree (u.env builtins) (Unify.maxDepth - 1) u.content u.content

theorem IsPlain.typechecks (hu : u.IsPlain builtins kind)
    (hsignature : Program.checkSignatures (u.env builtins) [u.byLet] .start = .ok () s)
    (hcheck : u.byLet.check (u.env builtins) s.reset = .ok () s') : ∃ ty, u.Typechecks builtins kind s ty := by
  obtain ⟨second, s₁, hsecond, hresult, hcontent⟩ := u.byLet_eq_ok hcheck
  have hkind := (inBranch s.nextFresh).resolve_of_ne_var (Grade.closedKind?_ne_var hu.grade)
  have hgrade := Grade.hasKind_of_closedKind? hu.grade (inBranch s.nextFresh)
  obtain ⟨hrest, hbranch⟩ := u.finds hu rfl rfl hkind (u.hasKind_letVar s.nextFresh) hgrade hsecond
  exact ⟨second.ty, hsignature, hrest, hbranch, hresult, hcontent⟩

theorem Typechecks.bodyChecks {ty : Ty} (h : u.Typechecks builtins kind s ty) (hu : u.IsPlain builtins kind)
    (hconcludes : u.body.concludes = true) : u.BodyChecks builtins := by
  have hrun : u.body.infer (u.env builtins) (u.inner u.grade) .positive (.check false u.result) (inBranch s.nextFresh)
      = .ok ⟨u.result, u.used (u.body.usage u.var kind), []⟩ (inBranch s.nextFresh) := by
    rw [Expr.infer_eq_conclude hconcludes, bind_of_ok h.branch.run]
    exact h.result.conclude h.branch.isPlain hu.result _ _ _ _
  exact ⟨_, _, _, hrun⟩

section

variable {σ : Type} {prover : Prover σ} {detailed : Bool} {st : σ} {ty : Ty}

theorem accepts_define_iff {body : Expr} (hprover : prover.IsExact)
    (hsignature : Program.checkSignatures (u.env builtins) [u.byLet] .start = .ok () s)
    : Program.Accepts builtins prover detailed st (u.define body)
        ↔
      ∃ s', (u.define body).check (u.env builtins) s.reset = .ok () s' ∧
        ((s'.collected.mapKinds s'.settle).compile s'.gradeVars).formula.IsTrue .standard [] := by
  -- the signature is the same, whatever the body is
  have hsignature : Program.checkSignatures ⟨builtins, Program.signatures [u.define body]⟩ [u.define body] .start
      = .ok () s := hsignature
  rw [Program.accepts_iff hprover]
  constructor
  . rintro ⟨t, t', ht, hcheck, htrue⟩
    rw [hsignature] at ht
    cases ht
    exact ⟨t', hcheck, htrue⟩
  . rintro ⟨s', hcheck, htrue⟩
    exact ⟨s, s', hsignature, hcheck, htrue⟩

theorem accepts_define_of_ok {body : Expr} (hprover : prover.IsExact)
    (hsignature : Program.checkSignatures (u.env builtins) [u.byLet] .start = .ok () s)
    (hcheck : (u.define body).check (u.env builtins) s.reset = .ok () s')
    : Program.Accepts builtins prover detailed st (u.define body)
        ↔
      ((s'.collected.mapKinds s'.settle).compile s'.gradeVars).formula.IsTrue .standard [] := by
  rw [accepts_define_iff hprover hsignature]
  constructor
  . rintro ⟨t, ht, htrue⟩
    rw [hcheck] at ht
    cases ht
    exact htrue
  . intro htrue
    exact ⟨s', hcheck, htrue⟩

theorem accepts_byLet_iff {g : Grade} (hprover : prover.IsExact) (hu : u.IsPlain builtins kind)
    (h : u.Typechecks builtins kind s ty) (hg : u.body.usage u.var kind = some g)
    : Program.Accepts builtins prover detailed st u.byLet
        ↔
      (Constraint.le u.pos u.grade g kind).holds [] = .ok true := by
  -- the rest of a let is checked before the kind is determined
  rw [Expr.usage_atKind u.var (letKind s.nextFresh) kind, Option.map_eq_some_iff] at hg
  obtain ⟨g', hg', rfl⟩ := hg
  have hrest := h.rest
  rw [hg'] at hrest
  have hholds : (Constraint.le u.pos u.grade (g'.atKind kind) kind).holds []
      = (Constraint.le u.pos u.grade g' kind).holds [] := by
    unfold Constraint.holds Constraint.le
    rw [Grade.evaluate_atKind]
  rw [hholds]
  exact (accepts_define_of_ok hprover h.signature (u.check_byLet hu hrest h.result h.content)).trans
    (isTrue_byLet hu (hrest.isSum g' rfl) rfl)

theorem accepts_byCase_iff (hprover : prover.IsExact) (hu : u.IsPlain builtins kind)
    (hsignature : Program.checkSignatures (u.env builtins) [u.byLet] .start = .ok () s)
    : Program.Accepts builtins prover detailed st u.byCase
        ↔
      u.BodyChecks builtins ∧
        ∀ g, u.body.usage u.var kind = some g → (Constraint.le u.pos g u.grade kind).holds [] = .ok true := by
  have hiff : u.BodyChecks builtins → (Program.Accepts builtins prover detailed st u.byCase ↔
      ∀ g, u.body.usage u.var kind = some g → (Constraint.le u.pos g u.grade kind).holds [] = .ok true) := by
    intro hbody
    obtain ⟨ty, hfinds⟩ := hu.finds_of_bodyChecks hbody (inBranch s.nextFresh)
    exact (accepts_define_of_ok hprover hsignature (u.check_byCase hu hfinds)).trans
      (isTrue_byCase hu hfinds.isSum rfl)
  constructor
  . intro h
    obtain ⟨s', hcheck, _⟩ := (accepts_define_iff hprover hsignature).mp h
    obtain ⟨typed, s₁, hrun⟩ := u.byCase_eq_ok hcheck
    have hbody : u.BodyChecks builtins := ⟨_, typed, s₁, hrun⟩
    exact ⟨hbody, (hiff hbody).mp h⟩
  . rintro ⟨hbody, hle⟩
    exact (hiff hbody).mpr hle

end

end Unboxing

/--
Let a definition take its box apart by a let and be accepted. Then the content is used at least as often as the box
allows. By a case the definition is accepted if and only if the content is used at most as often as the box allows and
the expression about the content checks against the declared type. The latter is so for expressions whose type is
compared with the declared one only after it has been found.
-/
theorem unboxing_by_case_iff {σ : Type} (builtins : Builtins) (prover : Prover σ) (detailed : Bool) (st : σ)
    (u : Unboxing) (kind : GradeKind) (hprover : prover.IsExact) (hu : u.IsPlain builtins kind)
    (h : Program.Accepts builtins prover detailed st u.byLet)
    : (∀ g, u.body.usage u.var kind = some g → (Constraint.le u.pos u.grade g kind).holds [] = .ok true) ∧
      (Program.Accepts builtins prover detailed st u.byCase
          ↔
        u.BodyChecks builtins ∧
          ∀ g, u.body.usage u.var kind = some g → (Constraint.le u.pos g u.grade kind).holds [] = .ok true) ∧
      (u.body.concludes = true → u.BodyChecks builtins) := by
  have haccepts := h
  rw [Program.accepts_iff hprover] at haccepts
  obtain ⟨s, s', hsignature, hcheck, _⟩ := haccepts
  obtain ⟨ty, htypechecks⟩ := hu.typechecks hsignature hcheck
  refine ⟨?_, Unboxing.accepts_byCase_iff hprover hu hsignature, htypechecks.bodyChecks hu⟩
  intro g hg
  exact (Unboxing.accepts_byLet_iff hprover hu htypechecks hg).mp h

namespace Unboxing

/--
`f : Int [n] -> Int`, which adds the content of its box to itself.
-/
def double (n : Nat) : Unboxing where
  pos := 0
  name := "f"
  param := "b"
  var := "x"
  grade := .nat n
  content := .const "Int"
  result := .const "Int"
  body := .binop 0 .add (.var 0 "x") (.var 0 "x")

theorem isPlain_double (n : Nat) : (double n).IsPlain .standard .nat where
  grade := rfl
  content := rfl
  result := rfl
  operators := by decide
  body := by cbv

theorem typechecks_double (n : Nat) : ∃ s ty, (double n).Typechecks .standard .nat s ty := by
  have hrun : yields (do
      Program.checkSignatures ((double n).env .standard) [(double n).byLet]
      CheckM.reset
      (double n).byLet.check ((double n).env .standard)) .start (fun _ _ => true) = true := by
    cbv
  obtain ⟨_, s', hrun, _⟩ := exists_of_yields hrun
  rw [bind_eq_ok] at hrun
  obtain ⟨_, s, hsignature, hrun⟩ := hrun
  have hreset : CheckM.reset s = .ok () s.reset := rfl
  rw [bind_of_ok hreset] at hrun
  obtain ⟨ty, h⟩ := (isPlain_double n).typechecks hsignature hrun
  exact ⟨s, ty, h⟩

theorem accepts_double_iff (n : Nat)
    : (Program.Accepts .standard .oracle false () (double n).byLet
          ↔
        (Constraint.le 0 (.nat n) (.op .plus (.one .nat) (.one .nat)) .nat).holds [] = .ok true) ∧
      (Program.Accepts .standard .oracle false () (double n).byCase
          ↔
        (double n).BodyChecks .standard ∧
          ∀ g, (double n).body.usage "x" .nat = some g → (Constraint.le 0 g (.nat n) .nat).holds [] = .ok true) := by
  obtain ⟨s, ty, h⟩ := typechecks_double n
  exact ⟨accepts_byLet_iff Prover.isExact_oracle (isPlain_double n) h rfl,
    accepts_byCase_iff Prover.isExact_oracle (isPlain_double n) h.signature⟩

end Unboxing

/-- Two uses of a content that may be used twice. -/
theorem unboxing_by_case_iff_double
    : Program.Accepts .standard .oracle false () (Unboxing.double 2).byLet ∧
      Program.Accepts .standard .oracle false () (Unboxing.double 2).byCase := by
  have haccepts := (Unboxing.accepts_double_iff 2).1.mpr rfl
  obtain ⟨_, hcase, hbody⟩ :=
    unboxing_by_case_iff _ _ _ _ _ _ Prover.isExact_oracle (Unboxing.isPlain_double 2) haccepts
  refine ⟨haccepts, hcase.mpr ⟨hbody rfl, ?_⟩⟩
  rintro g ⟨⟩
  rfl

/--
Two uses of a content that may be used once: the let is accepted, the case is not.
-/
theorem unboxing_by_case_rejected
    : Program.Accepts .standard .oracle false () (Unboxing.double 1).byLet ∧
      ¬Program.Accepts .standard .oracle false () (Unboxing.double 1).byCase := by
  refine ⟨(Unboxing.accepts_double_iff 1).1.mpr rfl, ?_⟩
  rw [(Unboxing.accepts_double_iff 1).2]
  rintro ⟨_, h⟩
  have hle : (Constraint.le 0 (.op .plus (.one .nat) (.one .nat)) (.nat 1) .nat).holds [] = .ok false := rfl
  rw [h _ rfl] at hle
  cases hle

end GradedModal
