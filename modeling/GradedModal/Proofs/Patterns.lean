import Mathlib.Data.List.Nodup
import GradedModal.Typing.Program
import GradedModal.Proofs.Lookup

/-!
This module contains what patterns bind. A match binds the variables of the pattern and a name of its own for each
wildcard. Those outside of boxes are linear and bound once.
-/

namespace GradedModal

open CheckM

namespace Context

variable {pos : Nat} {c left right u : Context} {x y : String} {s s' : State}

theorem names_extend {a : Assumption} (h : extend pos c y a s = .ok u s')
    : u.names = if y ∈ c.names then c.names else c.names ++ [y] := by
  obtain ⟨hnone, rfl⟩ | ⟨known, sum, _, hknown, _, rfl⟩ := extend_eq_ok h
  . rw [lookup?_eq_none_iff] at hnone
    rw [if_neg hnone]
    simp [names]
  . have hmem : y ∈ c.names := by
      rw [← isSome_lookup?_iff, hknown]
      rfl
    rw [if_pos hmem]
    simp [names]

theorem nodup_names_combine (hright : right.names.Nodup) (h : combine pos left right s = .ok u s')
    : u.names.Nodup := by
  obtain ⟨bindings⟩ := left
  unfold combine at h
  induction bindings generalizing right s with
  | nil =>
    rw [List.foldlM_nil, pure_eq_ok] at h
    rw [← h.1]
    exact hright
  | cons b bindings ih =>
    rw [List.foldlM_cons, bind_eq_ok] at h
    obtain ⟨c, s₁, hextend, h⟩ := h
    apply ih _ h
    rw [names_extend hextend]
    split
    . exact hright
    . next hmem =>
      rw [List.nodup_append]
      refine ⟨hright, by simp, ?_⟩
      rintro y hy z hz rfl
      rw [List.mem_singleton] at hz
      rw [hz] at hy
      exact hmem hy

theorem mem_names_combine (h : combine pos left right s = .ok u s')
    : x ∈ u.names ↔ x ∈ left.names ∨ x ∈ right.names := by
  rw [← isSome_lookup?_iff, ← isSome_lookup?_iff, ← isSome_lookup?_iff]
  exact (lookup?_combine h x).isSome_iff

theorem scale_names (c : Context) (grade : Grade)
    : c.scale c.names grade = ⟨c.bindings.map fun b => (b.1, b.2.scale grade)⟩ := by
  have hall : c.restrict c.names = c := by
    unfold restrict filter names
    congr 1
    apply List.filter_eq_self.mpr
    rintro ⟨x, a⟩ hmem
    simp only [List.contains_iff_mem, List.mem_map]
    exact ⟨(x, a), hmem, rfl⟩
  unfold scale
  rw [hall]

theorem names_scale_names (c : Context) (grade : Grade) : (c.scale c.names grade).names = c.names := by
  rw [scale_names]
  simp [names]

def Ungraded (c : Context) (x : String) : Prop :=
  ∀ ty g, c.lookup? x ≠ some (.graded ty g)

theorem ungraded_extend {a : Assumption} (hc : c.Ungraded x) (ha : ∀ ty g, a ≠ .graded ty g)
    (h : extend pos c x a s = .ok u s') : u.Ungraded x := by
  cases a with
  | graded ty g => exact absurd rfl (ha ty g)
  | linear ty =>
    obtain ⟨hnone, rfl⟩ | ⟨known, sum, _, hknown, hsum, rfl⟩ := extend_eq_ok h
    . intro ty' g
      unfold lookup? at hnone ⊢
      simp [List.lookup_append, hnone]
    . cases known with
      | linear ty' =>
        unfold addUses at hsum
        rw [fail_eq_ok] at hsum
        exact hsum.elim
      | graded ty' g => exact absurd hknown (hc ty' g)

-- The names on the left have to differ, since a linear and a graded use of a variable would add up.
theorem ungraded_combine (hnodup : left.names.Nodup) (hleft : left.Ungraded x) (hright : right.Ungraded x)
    (h : combine pos left right s = .ok u s') : u.Ungraded x := by
  obtain ⟨bindings⟩ := left
  unfold combine at h
  induction bindings generalizing right s with
  | nil =>
    rw [List.foldlM_nil, pure_eq_ok] at h
    rw [← h.1]
    exact hright
  | cons b bindings ih =>
    obtain ⟨y, a⟩ := b
    rw [List.foldlM_cons, bind_eq_ok] at h
    obtain ⟨c, s₁, hextend, h⟩ := h
    have hnames : y ∉ names ⟨bindings⟩ ∧ (names ⟨bindings⟩).Nodup := List.nodup_cons.mp hnodup
    by_cases hxy : x = y
    . subst hxy
      have hrest : lookup? ⟨bindings⟩ x = none := lookup?_eq_none_iff.mpr hnames.1
      have hu := lookup?_combine (show combine pos ⟨bindings⟩ c s₁ = .ok u s' from h) x
      rw [hrest] at hu
      intro ty g
      rw [hu.eq_right]
      apply ungraded_extend hright _ hextend
      intro ty g ha
      apply hleft ty g
      rw [ha]
      exact List.lookup_cons_self
    . have hbeq : (x == y) = false := by
        simp [hxy]
      apply ih _ hnames.2 _ h
      . intro ty g hc
        rw [lookup?_extend_of_ne hxy hextend] at hc
        exact hright ty g hc
      . intro ty g hrest
        apply hleft ty g
        unfold lookup?
        rw [List.lookup_cons, hbeq]
        exact hrest

end Context

section

variable {env : Env} {pos : Nat} {ty : Ty} {m : Matched} {s s' : State}

theorem Matched.merge_eq_ok {left right : Matched} (h : left.merge env pos right s = .ok m s')
    : ∃ context subst s₁, Context.combine pos left.context right.context s = .ok context s₁ ∧
        Substitution.combine env pos left.subst right.subst s₁ = .ok subst s' ∧
        m = ⟨context, left.existentials ++ right.existentials, subst⟩ := by
  unfold merge at h
  simp only [bind_eq_ok, pure_eq_ok] at h
  obtain ⟨context, s₁, hcontext, subst, s₂, hsubst, rfl, rfl⟩ := h
  exact ⟨context, subst, s₁, hcontext, hsubst, rfl⟩

namespace Pattern

theorem matchLiteral_eq_ok {p : Pattern} {expected : String} (h : matchLiteral env p ty expected s = .ok m s')
    : ∃ unified, (Ty.const expected).equal env p.pos ty s = .ok unified s' ∧ m = ⟨.empty, [], unified.subst⟩ := by
  unfold matchLiteral mismatch at h
  rw [bind_eq_ok] at h
  obtain ⟨unified, s₁, hunified, h⟩ := h
  rw [mapError_eq_ok] at hunified
  split at h
  . rw [pure_eq_ok] at h
    obtain ⟨rfl, rfl⟩ := h
    exact ⟨unified, hunified, rfl⟩
  . rw [fail_eq_ok] at h
    exact h.elim

theorem matchTy_wildcard (h : matchTy env (.wildcard pos) ty s = .ok m s')
    : m = .ofContext (.singleton ("_." ++ toString s.nextFresh) (.linear ty)) ∧
      s' = { s with nextFresh := s.nextFresh + 1 } := by
  unfold matchTy at h
  rw [bind_eq_ok] at h
  obtain ⟨name, s₁, hname, h⟩ := h
  rw [pure_eq_ok] at h
  obtain ⟨rfl, rfl⟩ := h
  cases hname
  exact ⟨rfl, rfl⟩

theorem matchTy_boxed {inner : Pattern} (h : matchTy env (.box pos inner) ty s = .ok m s')
    : ∃ grade content matched, ty = .box grade content ∧ inner.matchTy env content s = .ok matched s' ∧
        m = { matched with context := matched.context.scale matched.context.names grade } := by
  unfold matchTy mismatch at h
  split at h
  . next grade content =>
    rw [bind_eq_ok] at h
    obtain ⟨matched, s₁, hinner, h⟩ := h
    rw [pure_eq_ok] at h
    obtain ⟨rfl, rfl⟩ := h
    exact ⟨grade, content, matched, rfl, hinner, rfl⟩
  . rw [fail_eq_ok] at h
    exact h.elim

theorem matchTy_pair {a b : Pattern} (h : matchTy env (.pair pos a b) ty s = .ok m s')
    : ∃ aTy bTy left right s₁ s₂, ty = .pair aTy bTy ∧ a.matchTy env aTy s = .ok left s₁ ∧
        b.matchTy env (bTy.substitute left.subst) s₁ = .ok right s₂ ∧ left.merge env pos right s₂ = .ok m s' := by
  unfold matchTy mismatch at h
  split at h
  . next aTy bTy =>
    simp only [bind_eq_ok] at h
    obtain ⟨left, s₁, hleft, right, s₂, hright, h⟩ := h
    exact ⟨aTy, bTy, left, right, s₁, s₂, rfl, hleft, hright, h⟩
  . rw [fail_eq_ok] at h
    exact h.elim

theorem matchTy_constructor {name : String} {args : List Pattern}
    (h : matchTy env (.constructor pos name args) ty s = .ok m s')
    : ∃ scheme existentials constructorTy unified s₁ s₂, env.builtins.constructors.lookup name = some scheme ∧
        scheme.refresh .patternBound s = .ok (existentials, constructorTy) s₁ ∧
        constructorTy.args.length = args.length ∧ constructorTy.result.equal env pos ty s₁ = .ok unified s₂ ∧
        matchArgs env pos args constructorTy.args ⟨.empty, existentials, unified.subst⟩ s₂ = .ok m s' := by
  unfold matchTy at h
  cases hscheme : env.builtins.constructors.lookup name with
  | none =>
    rw [hscheme] at h
    rw [fail_eq_ok] at h
    exact h.elim
  | some scheme =>
    rw [hscheme] at h
    rw [bind_eq_ok] at h
    obtain ⟨⟨existentials, constructorTy⟩, s₁, hrefresh, h⟩ := h
    unfold mismatch at h
    rw [ite_fail_bind_eq_ok, bind_eq_ok] at h
    obtain ⟨hlength, unified, s₂, hequal, h⟩ := h
    rw [ite_fail_bind_eq_ok] at h
    exact ⟨scheme, existentials, constructorTy, unified, s₁, s₂, rfl, hrefresh, by simpa using hlength, hequal, h.2⟩

theorem matchArgs_cons {p : Pattern} {ps : List Pattern} {tys : List Ty} {matched : Matched}
    (h : matchArgs env pos (p :: ps) (ty :: tys) matched s = .ok m s')
    : ∃ arg merged s₁ s₂, p.matchTy env (ty.substitute matched.subst) s = .ok arg s₁ ∧
        matched.merge env pos arg s₁ = .ok merged s₂ ∧ matchArgs env pos ps tys merged s₂ = .ok m s' := by
  unfold matchArgs at h
  simp only [bind_eq_ok] at h
  obtain ⟨arg, s₁, harg, merged, s₂, hmerge, h⟩ := h
  exact ⟨arg, merged, s₁, s₂, harg, hmerge, h⟩

end Pattern

end

theorem Context.AddsUp.eq_of_ungraded {l r t : Option Assumption} (h : AddsUp l r t)
    (ht : ∀ ty g, t ≠ some (.graded ty g)) : l = none ∧ t = r ∨ r = none ∧ t = l := by
  cases h with
  | right => exact .inl ⟨rfl, rfl⟩
  | left => exact .inr ⟨rfl, rfl⟩
  | sum => exact absurd rfl (ht _ _)

namespace Pattern

/--
A name that a wildcard may stand for.
-/
def IsWildcardName (x : String) : Prop :=
  ∃ n : Nat, x = "_." ++ toString n

theorem not_isWildcardName {x : String} (h : x.length < 2) : ¬IsWildcardName x := by
  rintro ⟨n, rfl⟩
  rw [String.length_append] at h
  have hlength : "_.".length = 2 := by
    decide
  omega

mutual

/--
The variables that a pattern binds inside of boxes.
-/
def boxedVars : Pattern → List String
  | .var _ _ => []
  | .wildcard _ => []
  | .int _ _ => []
  | .float _ _ => []
  | .box _ inner => inner.boundVars
  | .pair _ a b => a.boxedVars ++ b.boxedVars
  | .constructor _ _ args => boxedVarsAll args

def boxedVarsAll : List Pattern → List String
  | [] => []
  | p :: ps => p.boxedVars ++ boxedVarsAll ps

end

/--
A context binds the given variables, each once, and besides them only names of wildcards. What is not among
the boxed variables is linear.
-/
structure Binds (vars boxed : List String) (c : Context) : Prop where
  nodup : c.names.Nodup
  bound : ∀ x ∈ vars, x ∈ c.names
  named : ∀ x ∈ c.names, x ∈ vars ∨ IsWildcardName x
  ungraded : ∀ x, x ∉ boxed → ¬IsWildcardName x → c.Ungraded x

theorem binds_empty : Binds [] [] .empty where
  nodup := List.nodup_nil
  bound := by simp
  named := by simp [Context.names, Context.empty]
  ungraded := by
    intro x _ _ ty g h
    cases h

theorem binds_singleton {vars : List String} {x : String} {ty : Ty} (h : x ∈ vars ∨ IsWildcardName x)
    (hvars : ∀ y ∈ vars, y = x) : Binds vars [] (.singleton x (.linear ty)) := by
  have hnames : (Context.singleton x (.linear ty)).names = [x] := by
    simp [Context.names, Context.singleton, Context.bind, Context.remove, Context.filter, Context.empty]
  constructor
  . rw [hnames]
    simp
  . rw [hnames]
    simpa using hvars
  . rw [hnames]
    simpa using h
  . intro y _ _ ty' g hgraded
    rw [Context.lookup?_singleton] at hgraded
    split at hgraded
    . cases hgraded
    . cases hgraded

section

variable {env : Env} {vars vars' boxed boxed' : List String} {pos : Nat} {left right : Matched} {c : Context}
  {m : Matched} {s s' : State}

theorem Binds.merge (hleft : Binds vars boxed left.context) (hright : Binds vars' boxed' right.context)
    (h : left.merge env pos right s = .ok m s') : Binds (vars ++ vars') (boxed ++ boxed') m.context := by
  obtain ⟨context, subst, s₁, hcombine, _, rfl⟩ := Matched.merge_eq_ok h
  constructor
  . exact Context.nodup_names_combine hright.nodup hcombine
  . intro x hx
    rw [Context.mem_names_combine hcombine]
    rw [List.mem_append] at hx
    exact hx.imp (hleft.bound x) (hright.bound x)
  . intro x hx
    rw [Context.mem_names_combine hcombine] at hx
    rw [List.mem_append]
    obtain hx | hx := hx
    . exact (hleft.named x hx).imp_left .inl
    . exact (hright.named x hx).imp_left .inr
  . intro x hx hname
    rw [List.mem_append, not_or] at hx
    exact Context.ungraded_combine hleft.nodup (hleft.ungraded x hx.1 hname) (hright.ungraded x hx.2 hname) hcombine

theorem Binds.box (h : Binds vars boxed c) (grade : Grade) : Binds vars vars (c.scale c.names grade) := by
  constructor
  . rw [Context.names_scale_names]
    exact h.nodup
  . rw [Context.names_scale_names]
    exact h.bound
  . rw [Context.names_scale_names]
    exact h.named
  . intro x hx hname ty g hgraded
    have hmem : x ∈ (c.scale c.names grade).names := by
      rw [← Context.isSome_lookup?_iff, hgraded]
      rfl
    rw [Context.names_scale_names] at hmem
    exact (h.named x hmem).elim hx hname

end

mutual

/--
The number of wildcards in a pattern.
-/
def wildcards : Pattern → Nat
  | .var _ _ => 0
  | .wildcard _ => 1
  | .int _ _ => 0
  | .float _ _ => 0
  | .box _ inner => inner.wildcards
  | .pair _ a b => a.wildcards + b.wildcards
  | .constructor _ _ args => wildcardsAll args

def wildcardsAll : List Pattern → Nat
  | [] => 0
  | p :: ps => p.wildcards + wildcardsAll ps

end

mutual

/--
The number of wildcards inside of boxes.
-/
def boxedWildcards : Pattern → Nat
  | .var _ _ => 0
  | .wildcard _ => 0
  | .int _ _ => 0
  | .float _ _ => 0
  | .box _ inner => inner.wildcards
  | .pair _ a b => a.boxedWildcards + b.boxedWildcards
  | .constructor _ _ args => boxedWildcardsAll args

def boxedWildcardsAll : List Pattern → Nat
  | [] => 0
  | p :: ps => p.boxedWildcards + boxedWildcardsAll ps

end

/--
The name of one of the given variables, or one for a wildcard if there are any.
-/
def Names (vars : List String) (wildcards : Nat) (x : String) : Prop :=
  x ∈ vars ∨ 0 < wildcards ∧ IsWildcardName x

theorem names_append {vars vars' : List String} {n n' : Nat} {x : String}
    : Names (vars ++ vars') (n + n') x ↔ Names vars n x ∨ Names vars' n' x := by
  unfold Names
  rw [List.mem_append, Nat.add_pos_iff_pos_or_pos, or_and_right]
  exact or_or_or_comm

/--
A context that binds variables and wildcards, some of them boxed. The others have no grade, and what has no grade is
bound once.
-/
structure BindsOnce (vars boxed : List String) (wildcards boxedWildcards : Nat) (c : Context) : Prop
    extends Binds vars boxed c where
  only : ∀ x ∈ c.names, Names vars wildcards x
  unboxed : ∀ x, ¬Names boxed boxedWildcards x → c.Ungraded x
  once : ∀ x, c.Ungraded x → vars.count x ≤ 1

theorem bindsOnce_empty : BindsOnce [] [] 0 0 .empty where
  toBinds := binds_empty
  only := List.forall_mem_nil _
  unboxed _ _ _ _ := by rintro ⟨⟩
  once _ _ := Nat.zero_le _

section

variable {env : Env} {pos : Nat} {vars vars' boxed boxed' : List String} {n n' k k' : Nat}
variable {left right m : Matched} {c : Context} {s s' : State}

theorem bindsOnce_singleton {x : String} {ty : Ty} (hx : Names vars n x) (hvars : ∀ y ∈ vars, y = x)
    (hnodup : vars.Nodup) : BindsOnce vars [] n 0 (.singleton x (.linear ty)) where
  toBinds := binds_singleton (hx.imp_right (·.2)) hvars
  only := by
    intro y hy
    obtain rfl : y = x := List.mem_singleton.mp hy
    exact hx
  unboxed := by
    intro y _ ty' g hgraded
    rw [Context.lookup?_singleton] at hgraded
    split at hgraded
    . cases hgraded
    . cases hgraded
  once y _ := List.nodup_iff_count_le_one.mp hnodup y

theorem BindsOnce.merge (hleft : BindsOnce vars boxed n k left.context)
    (hright : BindsOnce vars' boxed' n' k' right.context) (h : left.merge env pos right s = .ok m s')
    : BindsOnce (vars ++ vars') (boxed ++ boxed') (n + n') (k + k') m.context := by
  have hbinds := hleft.toBinds.merge hright.toBinds h
  obtain ⟨context, subst, s₁, hcombine, _, rfl⟩ := Matched.merge_eq_ok h
  refine ⟨hbinds, ?_, ?_, ?_⟩
  . intro x hx
    rw [names_append]
    rw [Context.mem_names_combine hcombine] at hx
    exact hx.imp (hleft.only x) (hright.only x)
  . intro x hx
    rw [names_append, not_or] at hx
    exact Context.ungraded_combine hleft.nodup (hleft.unboxed x hx.1) (hright.unboxed x hx.2) hcombine
  . intro x hx
    rw [List.count_append]
    obtain ⟨hnone, heq⟩ | ⟨hnone, heq⟩ := (Context.lookup?_combine hcombine x).eq_of_ungraded hx
    . have hvars : x ∉ vars := fun hmem => Context.lookup?_eq_none_iff.mp hnone (hleft.bound x hmem)
      rw [List.count_eq_zero_of_not_mem hvars, Nat.zero_add]
      exact hright.once x fun ty g hgraded => hx ty g (heq.trans hgraded)
    . have hvars : x ∉ vars' := fun hmem => Context.lookup?_eq_none_iff.mp hnone (hright.bound x hmem)
      rw [List.count_eq_zero_of_not_mem hvars, Nat.add_zero]
      exact hleft.once x fun ty g hgraded => hx ty g (heq.trans hgraded)

theorem BindsOnce.box (h : BindsOnce vars boxed n k c) (grade : Grade)
    : BindsOnce vars vars n n (c.scale c.names grade) := by
  have hnames := c.names_scale_names grade
  refine ⟨h.toBinds.box grade, ?_, ?_, ?_⟩
  . rw [hnames]
    exact h.only
  . intro x hx ty g hgraded
    have hmem : x ∈ (c.scale c.names grade).names := by
      rw [← Context.isSome_lookup?_iff, hgraded]
      rfl
    rw [hnames] at hmem
    exact hx (h.only x hmem)
  . intro x hx
    have hvars : x ∉ vars := by
      intro hmem
      obtain ⟨a, ha⟩ := Option.isSome_iff_exists.mp (Context.isSome_lookup?_iff.mpr (h.bound x hmem))
      unfold Context.Ungraded at hx
      rw [Context.lookup?_scale, if_pos (h.bound x hmem), ha] at hx
      cases a with
      | linear ty => exact hx ty grade rfl
      | graded ty g => exact hx ty (.op .times grade g) rfl
    rw [List.count_eq_zero_of_not_mem hvars]
    exact Nat.zero_le 1

end

mutual

theorem matchTy_bindsOnce {env : Env} {p : Pattern} {ty : Ty} {m : Matched} {s s' : State}
    (h : p.matchTy env ty s = .ok m s')
    : BindsOnce p.boundVars p.boxedVars p.wildcards p.boxedWildcards m.context := by
  cases p with
  | var pos name =>
    unfold matchTy at h
    rw [pure_eq_ok] at h
    obtain ⟨rfl, rfl⟩ := h
    unfold boundVars boxedVars wildcards boxedWildcards
    exact bindsOnce_singleton (.inl List.mem_cons_self) (by simp) (List.nodup_singleton name)
  | wildcard pos =>
    obtain ⟨rfl, rfl⟩ := matchTy_wildcard h
    unfold boundVars boxedVars wildcards boxedWildcards
    exact bindsOnce_singleton (.inr ⟨Nat.one_pos, s.nextFresh, rfl⟩) (List.forall_mem_nil _) List.nodup_nil
  | int pos n | float pos x =>
    unfold matchTy at h
    obtain ⟨unified, _, rfl⟩ := matchLiteral_eq_ok h
    unfold boundVars boxedVars wildcards boxedWildcards
    exact bindsOnce_empty
  | box pos inner =>
    obtain ⟨grade, content, matched, rfl, hinner, rfl⟩ := matchTy_boxed h
    unfold boundVars boxedVars wildcards boxedWildcards
    exact (matchTy_bindsOnce hinner).box grade
  | pair pos a b =>
    obtain ⟨aTy, bTy, left, right, s₁, s₂, rfl, hleft, hright, hmerge⟩ := matchTy_pair h
    unfold boundVars boxedVars wildcards boxedWildcards
    exact (matchTy_bindsOnce hleft).merge (matchTy_bindsOnce hright) hmerge
  | constructor pos name args =>
    obtain ⟨scheme, existentials, constructorTy, unified, s₁, s₂, _, _, hlength, _, hargs⟩ := matchTy_constructor h
    unfold boundVars boxedVars wildcards boxedWildcards
    have hargs := matchArgs_bindsOnce hlength bindsOnce_empty hargs
    rw [Nat.zero_add, Nat.zero_add] at hargs
    exact hargs

theorem matchArgs_bindsOnce {env : Env} {pos : Nat} {ps : List Pattern} {tys : List Ty} {matched m : Matched}
    {vars boxed : List String} {n k : Nat} {s s' : State} (hlength : tys.length = ps.length)
    (hmatched : BindsOnce vars boxed n k matched.context) (h : matchArgs env pos ps tys matched s = .ok m s')
    : BindsOnce (vars ++ boundVarsAll ps) (boxed ++ boxedVarsAll ps) (n + wildcardsAll ps) (k + boxedWildcardsAll ps)
        m.context := by
  cases ps with
  | nil =>
    unfold matchArgs at h
    rw [pure_eq_ok] at h
    obtain ⟨rfl, rfl⟩ := h
    unfold boundVarsAll boxedVarsAll wildcardsAll boxedWildcardsAll
    rw [List.append_nil, List.append_nil]
    exact hmatched
  | cons p ps =>
    cases tys with
    | nil => cases hlength
    | cons ty tys =>
      obtain ⟨arg, merged, s₁, s₂, harg, hmerge, hargs⟩ := matchArgs_cons h
      unfold boundVarsAll boxedVarsAll wildcardsAll boxedWildcardsAll
      rw [← List.append_assoc, ← List.append_assoc, ← Nat.add_assoc, ← Nat.add_assoc]
      exact matchArgs_bindsOnce (Nat.succ.inj hlength) (hmatched.merge (matchTy_bindsOnce harg) hmerge) hargs

end

theorem matchTy_binds {env : Env} {p : Pattern} {ty : Ty} {m : Matched} {s s' : State}
    (h : p.matchTy env ty s = .ok m s') : Binds p.boundVars p.boxedVars m.context :=
  (matchTy_bindsOnce h).toBinds

end Pattern

namespace Definition

theorem bindPatterns_bindsOnce {env : Env} {ps : List Pattern} {tys : List Ty} {matched m : Matched}
    {vars boxed : List String} {n k : Nat} {s s' : State} (hlength : ps.length ≤ tys.length)
    (hmatched : Pattern.BindsOnce vars boxed n k matched.context) (h : bindPatterns env ps tys matched s = .ok m s')
    : Pattern.BindsOnce (vars ++ Pattern.boundVarsAll ps) (boxed ++ Pattern.boxedVarsAll ps)
        (n + Pattern.wildcardsAll ps) (k + Pattern.boxedWildcardsAll ps) m.context := by
  induction ps generalizing tys matched vars boxed n k s with
  | nil =>
    unfold bindPatterns at h
    rw [pure_eq_ok] at h
    obtain ⟨rfl, rfl⟩ := h
    unfold Pattern.boundVarsAll Pattern.boxedVarsAll Pattern.wildcardsAll Pattern.boxedWildcardsAll
    rw [List.append_nil, List.append_nil]
    exact hmatched
  | cons p ps ih =>
    cases tys with
    | nil => cases hlength
    | cons ty tys =>
      unfold bindPatterns at h
      simp only [bind_eq_ok] at h
      obtain ⟨arg, s₁, harg, merged, s₂, hmerge, h⟩ := h
      unfold Pattern.boundVarsAll Pattern.boxedVarsAll Pattern.wildcardsAll Pattern.boxedWildcardsAll
      rw [← List.append_assoc, ← List.append_assoc, ← Nat.add_assoc, ← Nat.add_assoc]
      exact ih (Nat.le_of_succ_le_succ hlength) (hmatched.merge (Pattern.matchTy_bindsOnce harg) hmerge) h

theorem bindParameters_bindsOnce {env : Env} {d : Definition} {m : Matched} {ty : Ty} {s s' : State}
    (h : d.bindParameters env s = .ok (m, ty) s')
    : Pattern.BindsOnce (Pattern.boundVarsAll d.patterns) (Pattern.boxedVarsAll d.patterns)
        (Pattern.wildcardsAll d.patterns) (Pattern.boxedWildcardsAll d.patterns) m.context := by
  unfold bindParameters at h
  dsimp only at h
  rw [ite_fail_bind_eq_ok, bind_eq_ok] at h
  obtain ⟨hlength, matched, s₁, hpatterns, h⟩ := h
  rw [pure_eq_ok] at h
  obtain ⟨h, rfl⟩ := h
  cases h
  have hbinds := bindPatterns_bindsOnce (by omega) Pattern.bindsOnce_empty hpatterns
  rw [Nat.zero_add, Nat.zero_add] at hbinds
  exact hbinds

theorem bindParameters_binds {env : Env} {d : Definition} {m : Matched} {ty : Ty} {s s' : State}
    (h : d.bindParameters env s = .ok (m, ty) s')
    : Pattern.Binds (Pattern.boundVarsAll d.patterns) (Pattern.boxedVarsAll d.patterns) m.context :=
  (bindParameters_bindsOnce h).toBinds

end Definition

end GradedModal
