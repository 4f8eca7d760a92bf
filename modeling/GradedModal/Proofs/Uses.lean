import GradedModal.Proofs.Patterns
import GradedModal.Proofs.Paths

/-!
This module relates an expression to what it uses of one variable, without states and contexts. Whatever
checking answers about an expression is an instance of this relation, so a property of the relation is a
property of checking.
-/

namespace GradedModal

open CheckM Context

/--
What one branch of a case does with a variable: the assumption its pattern makes about it, if any, and what
its body uses of it.
-/
structure BranchUse where
  pattern : Pattern
  body : Expr
  bound : Option Assumption
  used : Option Assumption

namespace BranchUse

def branch (b : BranchUse) : Pattern × Expr :=
  (b.pattern, b.body)

def paths (b : BranchUse) : List Path :=
  b.body.paths.map (·.hide b.pattern.boundVars)

theorem mem_branchPaths {bs : List BranchUse} {p : Path}
    : p ∈ Expr.branchPaths (bs.map branch) ↔ ∃ b ∈ bs, p ∈ b.paths := by
  rw [Expr.mem_branchPaths]
  constructor
  . rintro ⟨_, hbranch, q, hq, rfl⟩
    obtain ⟨b, hb, rfl⟩ := List.mem_map.mp hbranch
    exact ⟨b, hb, List.mem_map_of_mem hq⟩
  . rintro ⟨b, hb, hp⟩
    obtain ⟨q, hq, rfl⟩ := List.mem_map.mp hp
    exact ⟨b.branch, List.mem_map_of_mem hb, q, hq, rfl⟩

theorem exists_path (b : BranchUse) : ∃ p, p ∈ b.paths := by
  obtain ⟨p, hp⟩ := b.body.exists_path
  exact ⟨_, List.mem_map_of_mem hp⟩

/--
What a branch uses apart from what its pattern binds and what the baseline covers.
-/
def net (base : Option Assumption) (b : BranchUse) : Option Assumption :=
  if base.isSome || b.bound.isSome then none else b.used

theorem net_eq_some {base : Option Assumption} {b : BranchUse} {a : Assumption} (h : b.net base = some a)
    : b.bound = none ∧ b.used = some a := by
  unfold net at h
  split at h
  . cases h
  . next hnone =>
    simp only [Bool.or_eq_true, not_or, Option.not_isSome_iff_eq_none] at hnone
    exact ⟨hnone.2, h⟩

structure Closed (K : Constraint → Prop) (x : String) (base : Option Assumption) (b : BranchUse) : Prop where
  bound : x ∈ b.pattern.boundVars → b.bound.isSome
  named : b.bound.isSome → x ∈ b.pattern.boundVars ∨ Pattern.IsWildcardName x
  ungraded : x ∉ b.pattern.boxedVars → ¬Pattern.IsWildcardName x → ∀ ty g, b.bound ≠ some (.graded ty g)
  consumed : ∀ ty, b.bound = some (.linear ty) → isConsumed b.used = true
  below : Below K b.used base

end BranchUse

/--
The bound of what several branches use. Without branches nothing is used.
-/
inductive Joins : List (Option Assumption) → Option Assumption → Prop where
  | nil : Joins [] none
  | single (u : Option Assumption) : Joins [u] u
  | snoc {us : List (Option Assumption)} {u t t' : Option Assumption} :
    Joins us t → us ≠ [] → JoinsTo t u t' → Joins (us ++ [u]) t'

namespace Joins

variable {us : List (Option Assumption)} {t : Option Assumption}

theorem of_linear {ty : Ty} (h : Joins us t) (ht : t = some (.linear ty))
    : us ≠ [] ∧ ∀ u ∈ us, ∃ ty, u = some (.linear ty) := by
  induction h generalizing ty with
  | nil => cases ht
  | single u =>
    refine ⟨by simp, ?_⟩
    intro u' hu
    rw [List.mem_singleton] at hu
    exact ⟨ty, hu.trans ht⟩
  | snoc _ _ hjoins ih =>
    subst ht
    cases hjoins with
    | linear ty ty' =>
      refine ⟨by simp, ?_⟩
      intro u hu
      rw [List.mem_append, List.mem_singleton] at hu
      obtain hu | rfl := hu
      . exact (ih rfl).2 u hu
      . exact ⟨ty', rfl⟩

theorem of_none (h : Joins us t) (ht : t = none)
    : (us ≠ [] → none ∈ us) ∧ ∀ u ∈ us, ∀ ty g, u ≠ some (.graded ty g) := by
  induction h with
  | nil => simp
  | single u =>
    subst ht
    simp
  | snoc hus hne hjoins ih =>
    subst ht
    cases hjoins with
    | unused =>
      obtain ⟨hmem, hgraded⟩ := ih rfl
      refine ⟨fun _ => by simp, ?_⟩
      intro u hu
      rw [List.mem_append, List.mem_singleton] at hu
      obtain hu | rfl := hu
      . exact hgraded u hu
      . simp
    | leftOnly ty =>
      refine ⟨fun _ => by simp, ?_⟩
      intro u hu
      rw [List.mem_append, List.mem_singleton] at hu
      obtain hu | rfl := hu
      . obtain ⟨ty', rfl⟩ := (hus.of_linear rfl).2 u hu
        simp
      . simp
    | rightOnly ty =>
      obtain ⟨hmem, hgraded⟩ := ih rfl
      refine ⟨fun _ => by simp [hmem hne], ?_⟩
      intro u hu
      rw [List.mem_append, List.mem_singleton] at hu
      obtain hu | rfl := hu
      . exact hgraded u hu
      . simp

end Joins

structure Baseline (x : String) (branches : List (Pattern × Expr)) (a base : Option Assumption) : Prop where
  graded : ∀ t, base = some t → ∃ ty v, t = .graded ty (.var v)
  covers : ∀ ty g, a = some (.graded ty g) → x ∈ Expr.freeOccurrencesAll branches → base.isSome

/--
What an expression uses of the variable `x`, given the assumption about it. The constraints with the property
`K` are those that are known to hold.
-/
inductive Uses (K : Constraint → Prop) (x : String) : Option Assumption → Expr → Option Assumption → Prop where
  | int {a : Option Assumption} (pos : Nat) (n : Int) : Uses K x a (.int pos n) none
  | float {a : Option Assumption} (pos : Nat) (y : Float) : Uses K x a (.float pos y) none
  | constructor {a : Option Assumption} (pos : Nat) (name : String) : Uses K x a (.constructor pos name) none
  | other {a : Option Assumption} {name : String} (pos : Nat) : x ≠ name → Uses K x a (.var pos name) none
  | global (pos : Nat) : Uses K x none (.var pos x) none
  | linear (pos : Nat) (ty : Ty) : Uses K x (some (.linear ty)) (.var pos x) (some (.linear ty))
  | graded (pos : Nat) (ty : Ty) (g : Grade) (kind : GradeKind) :
    Uses K x (some (.graded ty g)) (.var pos x) (some (.graded ty (.one kind)))
  | lam {a u : Option Assumption} {b : Binder} {body : Expr} {arg : Ty} (pos : Nat) (declared : Option Ty) :
    Uses K x (if x = b.name then some (.linear arg) else a) body u →
      Uses K x a (.lam pos b declared body) (if x = b.name then none else u)
  | app {a l r u : Option Assumption} {f e : Expr} (pos : Nat) :
    Uses K x a f l → Uses K x a e r → AddsUp l r u → Uses K x a (.app pos f e) u
  | scale {a u : Option Assumption} {e : Expr} (pos p p₁ p₂ : Nat) (factor : Float) :
    (x = "scale" → a = none) → Uses K x a e u →
      Uses K x a (.app pos (.app p (.var p₁ "scale") (.float p₂ factor)) e) u
  | promoteChecked {a a' u : Option Assumption} {e : Expr} (pos : Nat) (demand : Grade) :
    Freshens (if x ∈ e.freeVars then a else none) a' → Uses K x a' e u →
      Uses K x a (.promote pos e) (a'.map (·.scale demand))
  | promote {a u : Option Assumption} {e : Expr} (pos : Nat) (v : String) :
    Uses K x a e u → Uses K x a (.promote pos e) (if x ∈ e.freeVars then u.map (·.scale (.var v)) else none)
  | lift {a u : Option Assumption} {e : Expr} (pos : Nat) : Uses K x a e u → Uses K x a (.lift pos e) u
  | binop {a l r u : Option Assumption} {e e' : Expr} (pos : Nat) (op : BinOp) :
    Uses K x a e l → Uses K x a e' r → AddsUp l r u → Uses K x a (.binop pos op e e') u
  | pair {a l r u : Option Assumption} {e e' : Expr} (pos : Nat) :
    Uses K x a e l → Uses K x a e' r → AddsUp l r u → Uses K x a (.pair pos e e') u
  | case {a base value joined t u : Option Assumption} {scrutinee : Expr} {bs : List BranchUse} (pos : Nat) :
    Uses K x a scrutinee value →
      (∀ b ∈ bs, Uses K x (b.bound.or a) b.body b.used) →
      Baseline x (bs.map BranchUse.branch) a base →
      (∀ b ∈ bs, b.Closed K x base) →
      Joins (bs.map (BranchUse.net base)) joined → AddsUp joined value t → AddsUp t base u →
      Uses K x a (.case pos scrutinee (bs.map BranchUse.branch)) u
  | letDiamond {a l r u : Option Assumption} {b : Binder} {value rest : Expr} {content : Ty} (pos : Nat)
    (declared : Option Ty) :
    Uses K x a value l → Uses K x (if x = b.name then some (.linear content) else a) rest r →
      AddsUp l (if x = b.name then none else r) u → Uses K x a (.letDiamond pos b declared value rest) u
  | letBox {a l r u : Option Assumption} {b : Binder} {value rest : Expr} {grade : Grade} (pos : Nat) (ty : Ty) :
    Uses K x a value l → Uses K x (if x = b.name then some (.graded ty grade) else a) rest r →
      AddsUp l (if x = b.name then none else r) u → Uses K x a (.letBox pos b ty value rest) u

namespace Expr

theorem not_mem_scale {x : String} {a : Option Assumption} (hscale : x = "scale" → a = none) (ha : a ≠ none)
    (p p₁ p₂ : Nat) (factor : Float) : x ∉ (app p (var p₁ "scale") (float p₂ factor)).freeOccurrences := by
  intro hmem
  simp only [freeOccurrences, List.append_nil, List.mem_singleton] at hmem
  exact ha (hscale hmem)

section

variable {K : Constraint → Prop} {x : String} {env : Env} {c : Context} {pos : Nat} {s s' : State}

theorem varTy_uses {name : String} {ty : Ty} {used : Context}
    (h : varTy env c pos name s = .ok (ty, used) s') (p : Nat)
    : Uses K x (c.lookup? x) (.var p name) (used.lookup? x) := by
  obtain ⟨hlookup, rfl⟩ | ⟨grade, kind, hlookup, rfl⟩ | ⟨scheme, hlookup, _, _, rfl⟩ := varTy_eq_ok h
  . rw [lookup?_singleton]
    split
    . next hx =>
      rw [hx, hlookup]
      exact .linear _ _
    . next hx => exact .other _ hx
  . rw [lookup?_singleton]
    split
    . next hx =>
      rw [hx, hlookup]
      exact .graded _ _ _ _
    . next hx => exact .other _ hx
  . by_cases hx : x = name
    . rw [hx, hlookup]
      exact .global _
    . exact .other _ hx

theorem promote_uses {e : Expr} {fresh : Context} {demand : Grade} {u : Option Assumption}
    (h : freshen pos (e.freeVars.filter c.contains) c demand s = .ok fresh s')
    (he : Uses K x (fresh.lookup? x) e u)
    : Uses K x (c.lookup? x) (.promote pos e)
        ((fresh.scale (e.freeVars.filter c.contains) demand).lookup? x) := by
  have hfresh := lookup?_freshen h x
  have hvars : (if x ∈ e.freeVars.filter c.contains then c.lookup? x else none)
      = if x ∈ e.freeVars then c.lookup? x else none := by
    cases hx : c.lookup? x with
    | none => simp
    | some a => simp [contains, hx]
  have hscale : (fresh.scale (e.freeVars.filter c.contains) demand).lookup? x
      = (fresh.lookup? x).map (·.scale demand) := by
    rw [lookup?_scale]
    split
    . rfl
    . next hx =>
      rw [if_neg hx] at hfresh
      generalize fresh.lookup? x = f at hfresh
      cases hfresh
      rfl
  rw [hvars] at hfresh
  rw [hscale]
  exact .promoteChecked _ _ hfresh he

theorem baseline_uses {branches : List (Pattern × Expr)} {base : Context}
    (h : baseline pos c branches s = .ok base s')
    : Baseline x branches (c.lookup? x) (base.lookup? x) where
  graded := by
    intro t ht
    exact (lookup?_baseline_eq_some h ht).2
  covers := by
    intro ty g ha hx
    apply isSome_lookup?_baseline h ha
    unfold sharedVars
    rw [List.mem_eraseDups]
    exact hx

theorem isConsumed_of_not_mem_remainingLinear {used : Context} {ty : Ty} (hx : c.lookup? x = some (.linear ty))
    (h : x ∉ c.remainingLinear used) : isConsumed (used.lookup? x) = true := by
  unfold lookup? at hx
  rw [List.lookup_eq_some_iff] at hx
  obtain ⟨before, after, hbindings, _⟩ := hx
  cases hconsumed : isConsumed (used.lookup? x) with
  | true => rfl
  | false =>
    exfalso
    apply h
    unfold remainingLinear names filter
    rw [List.mem_map]
    refine ⟨(x, .linear ty), ?_, rfl⟩
    simp [hbindings, Assumption.isLinear, hconsumed]

theorem closeBranch_uses (x : String) (body : Expr) {info : CaseInfo} {p : Pattern} {matched : Matched}
    {used net : Context}
    {s₁ s₂ : State} (hmatch : p.matchTy env info.scrutinee s = .ok matched s')
    (hremaining : matched.context.remainingLinear used = [])
    (hnet : net = (used.subtract info.baseline).subtract matched.context)
    (hle : Context.le pos (used.intersect info.baseline) info.baseline s₁ = .ok () s₂)
    (hK : State.AllDemands K s₁ s₂)
    : (BranchUse.mk p body (matched.context.lookup? x) (used.lookup? x)).Closed K x (info.baseline.lookup? x) ∧
      (BranchUse.mk p body (matched.context.lookup? x) (used.lookup? x)).net (info.baseline.lookup? x)
        = net.lookup? x := by
  have hbinds := Pattern.matchTy_binds hmatch
  constructor
  . constructor
    . intro hx
      exact isSome_lookup?_iff.mpr (hbinds.bound x hx)
    . intro hx
      exact hbinds.named x (isSome_lookup?_iff.mp hx)
    . exact hbinds.ungraded x
    . intro ty hx
      exact isConsumed_of_not_mem_remainingLinear hx (by simp [hremaining])
    . have hbelow := lookup?_le hle hK x
      rw [lookup?_intersect] at hbelow
      cases hbase : info.baseline.lookup? x with
      | none => exact .unbounded _
      | some t =>
        rw [hbase] at hbelow
        exact hbelow
  . rw [hnet, lookup?_subtract, lookup?_subtract]
    unfold BranchUse.net
    cases info.baseline.lookup? x with
    | none => simp
    | some t => simp

end

def JoinedUses (x : String) (us : List (Option Assumption)) : Option Context → Prop
  | none => us = []
  | some used => us ≠ [] ∧ Joins us (used.lookup? x)

theorem JoinedUses.add {x : String} {us : List (Option Assumption)} {info : CaseInfo} {previous : Option Context}
    {net used : Context} {s s' : State} (hus : JoinedUses x us previous)
    (h : branchUsed info previous net s = .ok used s') : JoinedUses x (us ++ [net.lookup? x]) (some used) := by
  unfold branchUsed at h
  cases previous with
  | none =>
    rw [pure_eq_ok] at h
    obtain ⟨rfl, rfl⟩ := h
    unfold JoinedUses at hus
    subst hus
    exact ⟨by simp, .single _⟩
  | some previous =>
    exact ⟨by simp, .snoc hus.2 hus.1 (lookup?_join h x)⟩

theorem JoinedUses.joins {x : String} {us : List (Option Assumption)} {used : Option Context}
    (h : JoinedUses x us used) : Joins us ((used.getD .empty).lookup? x) := by
  cases used with
  | none =>
    unfold JoinedUses at h
    subst h
    exact .nil
  | some used => exact h.2

mutual

-- One case for each form of expressions; the demands of each part are among those of the whole.
theorem infer_uses {K : Constraint → Prop} (x : String) {env : Env} (e : Expr) {c : Context} {polarity : Polarity}
    {goal : Goal} {r : Typed} {s s' : State} (h : infer env e c polarity goal s = .ok r s')
    (hK : State.AllDemands K s s') : Uses K x (c.lookup? x) e (r.used.lookup? x) := by
  cases e with
  | int pos n =>
    obtain ⟨_, _, _, rfl, _⟩ | h := infer_int h
    . exact .int _ _
    . rw [conclude_used h]
      exact .int _ _
  | float pos y =>
    obtain ⟨_, _, _, rfl, _⟩ | h := infer_float h
    . exact .float _ _
    . rw [conclude_used h]
      exact .float _ _
  | var pos name =>
    obtain ⟨_, _, s₁, hvar, h⟩ := infer_var h
    rw [conclude_used h]
    exact varTy_uses hvar _
  | constructor pos name =>
    obtain ⟨_, s₁, _, h⟩ := infer_constructor h
    rw [conclude_used h]
    exact .constructor _ _
  | lam pos b declared body =>
    obtain ⟨_, arg, _, inner, s₁, _, hs₁, hbody, _, rfl⟩ | ⟨arg, inner, s₁, _, _, hbody, _, h⟩ := infer_lam h
    . have hs₁ := checkDeclared_reaching _ _ _ _ hs₁
      have hs' := infer_reaching env body _ _ _ hbody
      have huses := infer_uses x body hbody (hK.between hs₁ hs' .refl)
      rw [lookup?_bind] at huses
      rw [lookup?_remove]
      exact .lam _ _ huses
    . have hs₁ := infer_reaching env body _ _ _ hbody
      have huses := infer_uses x body hbody (hK.between .refl hs₁ (conclude_reaches h))
      rw [lookup?_bind] at huses
      rw [conclude_used h, lookup?_remove]
      exact .lam _ _ huses
  | app pos f a =>
    obtain ⟨_, factor, inner, _, hscale, ha, rfl⟩ | ⟨_, _, arg, function, used, s₁, s₂, _, ha, hf, hused, rfl⟩ |
      ⟨_, _, function, arg, used, s₁, s₂, _, hf, _, ha, hused, rfl⟩ := infer_app h
    . obtain ⟨hnone, p, p₁, p₂, rfl⟩ := scaleFactor?_eq_some hscale
      apply Uses.scale
      . rintro rfl
        exact hnone
      . have huses := infer_uses x a ha hK
        exact huses
    . have hs₁ := infer_reaching env a _ _ _ ha
      have hs₂ := infer_reaching env f _ _ _ hf
      have hs' := combine_reaching _ _ _ hused
      exact .app _ (infer_uses x f hf (hK.between hs₁ hs₂ hs'))
        (infer_uses x a ha (hK.between .refl hs₁ (hs₂.trans hs'))) (lookup?_combine hused x)
    . have hs₁ := infer_reaching env f _ _ _ hf
      have hs₂ := infer_reaching env a _ _ _ ha
      have hs' := combine_reaching _ _ _ hused
      exact .app _ (infer_uses x f hf (hK.between .refl hs₁ (hs₂.trans hs')))
        (infer_uses x a ha (hK.between hs₁ hs₂ hs')) (lookup?_combine hused x)
  | promote pos e =>
    obtain ⟨_, demand, _, fresh, inner, s₁, s₂, _, hfresh, he, hle, rfl⟩ |
      ⟨kind, grade, inner, s₁, s₂, s₃, _, hkind, hgrade, he, h⟩ := infer_promote h
    . have hs₁ := freshen_reaching _ _ _ _ hfresh
      have hs₂ := infer_reaching env e _ _ _ he
      have hs' : s₂.Reaches s' := by
        cases polarity with
        | positive | negative => exact le_reaching _ _ _ hle
      exact promote_uses hfresh (infer_uses x e he (hK.between hs₁ hs₂ hs'))
    . have hs₂ := (reaching_freshGradeKind _ hkind).trans (reaching_freshGrade _ _ hgrade)
      have hs₃ := infer_reaching env e _ _ _ he
      obtain ⟨v, rfl⟩ := freshGrade_eq_ok hgrade
      rw [conclude_used h, lookup?_scale]
      exact .promote _ _ (infer_uses x e he (hK.between hs₂ hs₃ (conclude_reaches h)))
  | lift pos e =>
    obtain ⟨_, _, _, inner, _, he, rfl⟩ | ⟨inner, s₁, _, he, h⟩ := infer_lift h
    . have huses := infer_uses x e he hK
      exact .lift _ huses
    . have hs₁ := infer_reaching env e _ _ _ he
      rw [conclude_used h]
      exact .lift _ (infer_uses x e he (hK.between .refl hs₁ (conclude_reaches h)))
  | binop pos op a b =>
    obtain ⟨_, _, _, _, first, second, used, s₁, s₂, s₃, _, ha, hb, hused, h⟩ := infer_binop h
    have hs₁ := infer_reaching env a _ _ _ ha
    have hs₂ := infer_reaching env b _ _ _ hb
    have hs' := (combine_reaching _ _ _ hused).trans (conclude_reaches h)
    rw [conclude_used h]
    exact .binop _ _ (infer_uses x a ha (hK.between .refl hs₁ (hs₂.trans hs')))
      (infer_uses x b hb (hK.between hs₁ hs₂ hs')) (lookup?_combine hused x)
  | pair pos a b =>
    obtain ⟨_, _, _, left, right, used, subst, s₁, s₂, s₃, _, ha, hb, hused, hsubst, rfl⟩ |
      ⟨left, right, used, s₁, s₂, s₃, _, ha, hb, hused, h⟩ := infer_pair h
    . have hs₁ := infer_reaching env a _ _ _ ha
      have hs₂ := infer_reaching env b _ _ _ hb
      have hs' := (combine_reaching _ _ _ hused).trans (Substitution.combine_reaching _ _ _ _ hsubst)
      exact .pair _ (infer_uses x a ha (hK.between .refl hs₁ (hs₂.trans hs')))
        (infer_uses x b hb (hK.between hs₁ hs₂ hs')) (lookup?_combine hused x)
    . have hs₁ := infer_reaching env a _ _ _ ha
      have hs₂ := infer_reaching env b _ _ _ hb
      have hs' := (combine_reaching _ _ _ hused).trans (conclude_reaches h)
      rw [conclude_used h]
      exact .pair _ (infer_uses x a ha (hK.between .refl hs₁ (hs₂.trans hs')))
        (infer_uses x b hb (hK.between hs₁ hs₂ hs')) (lookup?_combine hused x)
  | case pos scrutinee branches =>
    obtain ⟨value, base, joined, used, s₁, s₂, s₃, s₄, hvalue, hbase, hbranches, hused, hused', _⟩ := infer_case h
    have hs₁ := infer_reaching env scrutinee _ _ _ hvalue
    have hs₂ := baseline_reaching _ _ _ hbase
    have hs₃ := inferBranches_reaching env _ branches _ hbranches
    have hs' := (combine_reaching _ _ _ hused).trans (combine_reaching _ _ _ hused')
    have huses := infer_uses x scrutinee hvalue (hK.between .refl hs₁ ((hs₂.trans hs₃).trans hs'))
    obtain ⟨bs, rfl, hbs, hclosed, hjoined⟩ :=
      inferBranches_uses x branches hbranches (hK.between (hs₁.trans hs₂) hs₃ hs') [] rfl
    exact .case _ huses hbs (baseline_uses hbase) hclosed hjoined.joins (lookup?_combine hused x)
      (lookup?_combine hused' x)
  | letDiamond pos b declared value rest =>
    obtain ⟨first, _, _, second, _, _, used, s₁, s₂, s₃, s₄, hvalue, _, hs₂, hrest, _, _, hused, h⟩ :=
      infer_letDiamond h
    have hs₂ := checkDeclared_reaching _ _ _ _ hs₂
    have hs₁ := infer_reaching env value _ _ _ hvalue
    have hs₃ := infer_reaching env rest _ _ _ hrest
    have hs' := (combine_reaching _ _ _ hused).trans (conclude_reaches h)
    have hvalue := infer_uses x value hvalue (hK.between .refl hs₁ ((hs₂.trans hs₃).trans hs'))
    have hrest := infer_uses x rest hrest (hK.between (hs₁.trans hs₂) hs₃ hs')
    have hadds := lookup?_combine hused x
    rw [lookup?_bind] at hrest
    rw [lookup?_remove] at hadds
    rw [conclude_used h]
    exact .letDiamond _ _ hvalue hrest hadds
  | letBox pos b ty value rest =>
    obtain ⟨kind, grade, second, demand, first, used, s₁, s₂, s₃, s₄, s₅, s₆, hkind, hgrade, hrest, hs₄, hvalue,
      hused, h⟩ := infer_letBox h
    have hs₄ := boxDemand_reaching _ _ _ _ hs₄
    have hs₂ := (reaching_freshGradeKind _ hkind).trans (reaching_freshGrade _ _ hgrade)
    have hs₃ := infer_reaching env rest _ _ _ hrest
    have hs₅ := infer_reaching env value _ _ _ hvalue
    have hs' := (combine_reaching _ _ _ hused).trans (conclude_reaches h)
    have hrest := infer_uses x rest hrest (hK.between hs₂ hs₃ ((hs₄.trans hs₅).trans hs'))
    have hvalue := infer_uses x value hvalue (hK.between ((hs₂.trans hs₃).trans hs₄) hs₅ hs')
    have hadds := lookup?_combine hused x
    rw [lookup?_bind] at hrest
    rw [lookup?_remove] at hadds
    rw [conclude_used h]
    exact .letBox _ _ hvalue hrest hadds

theorem inferBranches_uses {K : Constraint → Prop} (x : String) {env : Env} {info : CaseInfo}
    (branches : List (Pattern × Expr)) {joined result : Joined} {s s' : State}
    (h : inferBranches env info branches joined s = .ok result s') (hK : State.AllDemands K s s')
    (us : List (Option Assumption)) (hus : JoinedUses x us joined.used)
    : ∃ bs : List BranchUse, branches = bs.map BranchUse.branch ∧
        (∀ b ∈ bs, Uses K x (b.bound.or (info.context.lookup? x)) b.body b.used) ∧
        (∀ b ∈ bs, b.Closed K x (info.baseline.lookup? x)) ∧
        JoinedUses x (us ++ bs.map (BranchUse.net (info.baseline.lookup? x))) result.used := by
  cases branches with
  | nil =>
    unfold inferBranches at h
    rw [pure_eq_ok] at h
    obtain ⟨rfl, rfl⟩ := h
    exact ⟨[], rfl, by simp, by simp, by simpa using hus⟩
  | cons branch branches =>
    obtain ⟨p, body⟩ := branch
    obtain ⟨matched, typed, _, net, used, s₁, s₂, s₃, s₄, s₅, s₆, s₇, hopen, hmatch, henter, hbody, hty, hclose,
      hused, h⟩ := inferBranches_cons h
    obtain ⟨hremaining, hnet, t₁, t₂, hle, hle', hclose⟩ := closeBranch_eq_ok.mp hclose
    have hs₂ := Pattern.matchTy_reaching _ _ _ hmatch
    have hs₄ := infer_reaching env body _ _ _ hbody
    have ht₁ := (branchTy_reaching _ _ _ _ _ hty).trans (le_reaching _ _ _ hle)
    have ht₂ := le_reaching _ _ _ hle'
    have hs₆ := State.Reaches.imply .refl hopen hs₂ henter ((hs₄.trans ht₁).trans ht₂) hclose
    have hs₇ := branchUsed_reaching _ _ _ hused
    have hs' := inferBranches_reaching env info branches _ h
    have himply := hK.between .refl hs₆ (hs₇.trans hs')
    have himply := State.allDemands_imply himply hopen hs₂ henter ((hs₄.trans ht₁).trans ht₂) hclose
    have huses := infer_uses x body hbody (himply.between .refl hs₄ (ht₁.trans ht₂))
    rw [lookup?_bindAll (Pattern.matchTy_binds hmatch).nodup] at huses
    obtain ⟨hclosed, hnet⟩ := closeBranch_uses x body hmatch hremaining hnet hle'
      (himply.between (hs₄.trans ht₁) ht₂ .refl)
    have hus := hus.add hused
    rw [← hnet] at hus
    obtain ⟨bs, hbranches, hbs, hbsClosed, hresult⟩ :=
      inferBranches_uses x branches h (hK.between (hs₆.trans hs₇) hs' .refl) _ hus
    refine ⟨⟨p, body, matched.context.lookup? x, typed.used.lookup? x⟩ :: bs, ?_, ?_, ?_, ?_⟩
    . rw [hbranches]
      rfl
    . intro b hb
      rw [List.mem_cons] at hb
      obtain rfl | hb := hb
      . exact huses
      . exact hbs b hb
    . intro b hb
      rw [List.mem_cons] at hb
      obtain rfl | hb := hb
      . exact hclosed
      . exact hbsClosed b hb
    . rw [List.append_assoc] at hresult
      exact hresult

end

/--
Checking an expression against a type, or synthesizing its type, leads from one state to another and finds what
the expression used.
-/
def Answers (env : Env) (c : Context) (polarity : Polarity) (e : Expr) (s : State) (used : Context) (s' : State) :
    Prop :=
  (∃ topLevel expected subst, e.check env c polarity topLevel expected s = .ok (used, subst) s') ∨
  (∃ ty, e.synthesize env c polarity s = .ok (ty, used) s')

theorem Answers.infer {env : Env} {c : Context} {polarity : Polarity} {e : Expr} {s s' : State} {used : Context}
    (h : Answers env c polarity e s used s')
    : ∃ goal r, infer env e c polarity goal s = .ok r s' ∧ r.used = used := by
  obtain ⟨topLevel, expected, subst, h⟩ | ⟨ty, h⟩ := h
  . obtain ⟨r, hinfer, hresult⟩ := check_eq_ok h
    cases hresult
    exact ⟨_, r, hinfer, rfl⟩
  . obtain ⟨r, hinfer, hresult⟩ := synthesize_eq_ok h
    cases hresult
    exact ⟨_, r, hinfer, rfl⟩

theorem Answers.uses {K : Constraint → Prop} {env : Env} {c : Context} {polarity : Polarity} {e : Expr}
    {s s' : State} {used : Context} (h : Answers env c polarity e s used s') (hK : State.AllDemands K s s') (x : String)
    : Uses K x (c.lookup? x) e (used.lookup? x) := by
  obtain ⟨goal, r, hinfer, rfl⟩ := h.infer
  exact infer_uses x e hinfer hK

theorem exists_answers {env : Env} {c : Context} {polarity : Polarity} {topLevel : Bool} {expected : Ty} {e : Expr}
    {s : State} (p : Context → State → Bool)
    (h : yields (e.check env c polarity topLevel expected) s (fun r s' => p r.1 s') = true)
    : ∃ used s', Answers env c polarity e s used s' ∧ p used s' = true := by
  obtain ⟨⟨used, subst⟩, s', hcheck, hp⟩ := exists_of_yields h
  exact ⟨used, s', .inl ⟨topLevel, expected, subst, hcheck⟩, hp⟩

end Expr
end GradedModal
