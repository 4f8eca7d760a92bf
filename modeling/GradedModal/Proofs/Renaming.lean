import Mathlib
import GradedModal.Proofs.FreeVariables
import GradedModal.Proofs.ParallelContexts

/-!
This module renames the variables of terms. The variables that are free in an expression get other names, those that it
binds keep theirs.
-/

namespace GradedModal

open CheckM

/--
Rename no variable of a list.
-/
def keeping (kept : List String) (f : String → String) (x : String) : String :=
  if x ∈ kept then x else f x

section

variable {kept vars : List String} {f g : String → String} {x : String}

theorem keeping_of_mem (h : x ∈ kept) : keeping kept f x = x :=
  if_pos h

theorem keeping_of_not_mem (h : x ∉ kept) : keeping kept f x = f x :=
  if_neg h

theorem keeping_congr (kept : List String) (h : ∀ x ∈ vars, x ∉ kept → f x = g x)
    : ∀ x ∈ vars, keeping kept f x = keeping kept g x := by
  intro x hx
  unfold keeping
  split
  . rfl
  . next hkept => exact h x hx hkept

theorem keeping_id : keeping kept id = id := by
  funext x
  exact ite_self x

/--
A renaming takes the names of a program out of them or leaves them alone.
-/
def Avoids (N : String → Prop) (f : String → String) : Prop :=
  ∀ x, N x → N (f x) → f x = x

theorem Avoids.keeping {N : String → Prop} (hf : Avoids N f) (kept : List String) : Avoids N (keeping kept f) := by
  intro x hx hfx
  by_cases hkept : x ∈ kept
  . exact keeping_of_mem hkept
  . rw [keeping_of_not_mem hkept] at hfx ⊢
    exact hf x hx hfx

theorem Avoids.not_mem {N : String → Prop} (hf : Avoids N f) (hkept : ∀ z ∈ kept, N z) (hx : N x) (h : x ∉ kept)
    : f x ∉ kept := by
  intro hfx
  rw [hf x hx (hkept _ hfx)] at hfx
  exact h hfx

theorem filter_map_keeping {p : String → Bool} (hp : ∀ x, p x = true ↔ x ∉ kept)
    (hf : ∀ x ∈ vars, x ∉ kept → f x ∉ kept) : (vars.map (keeping kept f)).filter p = (vars.filter p).map f := by
  induction vars with
  | nil => rfl
  | cons x vars ih =>
    obtain ⟨hx, hvars⟩ := List.forall_mem_cons.mp hf
    rw [List.map_cons]
    by_cases hkept : x ∈ kept
    . have hpx : ¬p x = true := fun h => (hp x).mp h hkept
      rw [keeping_of_mem hkept, List.filter_cons_of_neg hpx, List.filter_cons_of_neg hpx]
      exact ih hvars
    . rw [keeping_of_not_mem hkept, List.filter_cons_of_pos ((hp x).mpr hkept),
        List.filter_cons_of_pos ((hp (f x)).mpr (hx hkept)), List.map_cons, ih hvars]

end

/--
Rename one variable.
-/
def replacing (x y : String) (z : String) : String :=
  if z = x then y else z

namespace Pattern

mutual

/--
Rename the variables that a pattern binds.
-/
def rename (f : String → String) : Pattern → Pattern
  | .var pos name => .var pos (f name)
  | .wildcard pos => .wildcard pos
  | .int pos n => .int pos n
  | .float pos x => .float pos x
  | .box pos inner => .box pos (inner.rename f)
  | .pair pos a b => .pair pos (a.rename f) (b.rename f)
  | .constructor pos name args => .constructor pos name (renameAll f args)

def renameAll (f : String → String) : List Pattern → List Pattern
  | [] => []
  | p :: ps => p.rename f :: renameAll f ps

end

@[simp] theorem pos_rename (f : String → String) (p : Pattern) : (p.rename f).pos = p.pos := by
  cases p <;> rfl

mutual

theorem rename_congr {f g : String → String} (p : Pattern) (h : ∀ x ∈ p.boundVars, f x = g x)
    : p.rename f = p.rename g := by
  cases p with
  | var pos name => simp only [rename, h name List.mem_cons_self]
  | wildcard pos => rfl
  | int pos n => rfl
  | float pos x => rfl
  | box pos inner => simp only [rename, rename_congr inner h]
  | pair pos a b =>
    obtain ⟨ha, hb⟩ := List.forall_mem_append.mp h
    simp only [rename, rename_congr a ha, rename_congr b hb]
  | constructor pos name args => simp only [rename, renameAll_congr args h]

theorem renameAll_congr {f g : String → String} (ps : List Pattern) (h : ∀ x ∈ boundVarsAll ps, f x = g x)
    : renameAll f ps = renameAll g ps := by
  cases ps with
  | nil => rfl
  | cons p ps =>
    obtain ⟨hp, hps⟩ := List.forall_mem_append.mp h
    simp only [renameAll, rename_congr p hp, renameAll_congr ps hps]

end

mutual

theorem rename_id (p : Pattern) : p.rename id = p := by
  cases p with
  | box pos inner => simp only [rename, rename_id inner]
  | pair pos a b => simp only [rename, rename_id a, rename_id b]
  | constructor pos name args => simp only [rename, renameAll_id args]
  | _ => rfl

theorem renameAll_id (ps : List Pattern) : renameAll id ps = ps := by
  cases ps with
  | nil => rfl
  | cons p ps => simp only [renameAll, rename_id p, renameAll_id ps]

end

theorem rename_of_fixed {f : String → String} (p : Pattern) (h : ∀ x ∈ p.boundVars, f x = x) : p.rename f = p :=
  (rename_congr p h).trans (rename_id p)

mutual

theorem boundVars_rename (f : String → String) (p : Pattern) : (p.rename f).boundVars = p.boundVars.map f := by
  cases p with
  | box pos inner => simp only [rename, boundVars, boundVars_rename f inner]
  | pair pos a b => simp only [rename, boundVars, boundVars_rename f a, boundVars_rename f b, List.map_append]
  | constructor pos name args => simp only [rename, boundVars, boundVarsAll_rename f args]
  | _ => rfl

theorem boundVarsAll_rename (f : String → String) (ps : List Pattern)
    : boundVarsAll (renameAll f ps) = (boundVarsAll ps).map f := by
  cases ps with
  | nil => rfl
  | cons p ps => simp only [renameAll, boundVarsAll, boundVars_rename f p, boundVarsAll_rename f ps, List.map_append]

end

theorem length_renameAll (f : String → String) (ps : List Pattern) : (renameAll f ps).length = ps.length := by
  induction ps with
  | nil => rfl
  | cons p ps ih => simp only [renameAll, List.length_cons, ih]

end Pattern

namespace Expr

mutual

/--
Rename the free variables of an expression.
-/
def rename (f : String → String) : Expr → Expr
  | .int pos n => .int pos n
  | .float pos x => .float pos x
  | .var pos name => .var pos (f name)
  | .constructor pos name => .constructor pos name
  | .lam pos binder ty body => .lam pos binder ty (body.rename (keeping [binder.name] f))
  | .app pos g a => .app pos (g.rename f) (a.rename f)
  | .promote pos e => .promote pos (e.rename f)
  | .lift pos e => .lift pos (e.rename f)
  | .binop pos op a b => .binop pos op (a.rename f) (b.rename f)
  | .pair pos a b => .pair pos (a.rename f) (b.rename f)
  | .case pos scrutinee branches => .case pos (scrutinee.rename f) (renameBranches f branches)
  | .letDiamond pos binder ty value rest =>
    .letDiamond pos binder ty (value.rename f) (rest.rename (keeping [binder.name] f))
  | .letBox pos binder ty value rest =>
    .letBox pos binder ty (value.rename f) (rest.rename (keeping [binder.name] f))

def renameBranches (f : String → String) : List (Pattern × Expr) → List (Pattern × Expr)
  | [] => []
  | (p, body) :: branches => (p, body.rename (keeping p.boundVars f)) :: renameBranches f branches

end

mutual

/--
The variables of an expression, bound or free.
-/
def names : Expr → List String
  | .int _ _ => []
  | .float _ _ => []
  | .var _ name => [name]
  | .constructor _ _ => []
  | .lam _ binder _ body => binder.name :: body.names
  | .app _ f a => f.names ++ a.names
  | .promote _ e => e.names
  | .lift _ e => e.names
  | .binop _ _ a b => a.names ++ b.names
  | .pair _ a b => a.names ++ b.names
  | .case _ scrutinee branches => scrutinee.names ++ namesAll branches
  | .letDiamond _ binder _ value rest => value.names ++ binder.name :: rest.names
  | .letBox _ binder _ value rest => value.names ++ binder.name :: rest.names

def namesAll : List (Pattern × Expr) → List String
  | [] => []
  | (p, body) :: branches => p.boundVars ++ body.names ++ namesAll branches

end

mutual

/--
The types that an expression declares.
-/
def annotations : Expr → List Ty
  | .int _ _ => []
  | .float _ _ => []
  | .var _ _ => []
  | .constructor _ _ => []
  | .lam _ _ ty body => ty.toList ++ body.annotations
  | .app _ f a => f.annotations ++ a.annotations
  | .promote _ e => e.annotations
  | .lift _ e => e.annotations
  | .binop _ _ a b => a.annotations ++ b.annotations
  | .pair _ a b => a.annotations ++ b.annotations
  | .case _ scrutinee branches => scrutinee.annotations ++ annotationsAll branches
  | .letDiamond _ _ ty value rest => ty.toList ++ value.annotations ++ rest.annotations
  | .letBox _ _ ty value rest => ty :: value.annotations ++ rest.annotations

def annotationsAll : List (Pattern × Expr) → List Ty
  | [] => []
  | (_, body) :: branches => body.annotations ++ annotationsAll branches

end

mutual

/--
Whether in the scope of a variable there is a case one of whose branches uses it while the pattern of another one binds a
variable of the same name.
-/
def contends (x : String) : Expr → Bool
  | .int _ _ => false
  | .float _ _ => false
  | .var _ _ => false
  | .constructor _ _ => false
  | .lam _ binder _ body => binder.name != x && body.contends x
  | .app _ f a => f.contends x || a.contends x
  | .promote _ e => e.contends x
  | .lift _ e => e.contends x
  | .binop _ _ a b => a.contends x || b.contends x
  | .pair _ a b => a.contends x || b.contends x
  | .case _ scrutinee branches =>
    scrutinee.contends x || ((freeOccurrencesAll branches).contains x && branches.any (·.1.boundVars.contains x)) ||
      contendsSome x branches
  | .letDiamond _ binder _ value rest => value.contends x || (binder.name != x && rest.contends x)
  | .letBox _ binder _ value rest => value.contends x || (binder.name != x && rest.contends x)

def contendsSome (x : String) : List (Pattern × Expr) → Bool
  | [] => false
  | (p, body) :: branches => (!p.boundVars.contains x && body.contends x) || contendsSome x branches

end

@[simp] theorem pos_rename (f : String → String) (e : Expr) : (e.rename f).pos = e.pos := by
  cases e <;> rfl

mutual

theorem mem_names_of_free {x : String} (e : Expr) (h : x ∈ e.freeOccurrences) : x ∈ e.names := by
  cases e with
  | int pos n => cases h
  | float pos y => cases h
  | var pos name => exact h
  | constructor pos name => cases h
  | lam pos b declared body =>
    unfold freeOccurrences at h
    exact List.mem_cons_of_mem _ (mem_names_of_free body (List.mem_filter.mp h).1)
  | promote pos e | lift pos e => exact mem_names_of_free e h
  | app pos a b | binop pos op a b | pair pos a b =>
    unfold freeOccurrences at h
    exact List.mem_append.mpr ((List.mem_append.mp h).imp (mem_names_of_free a) (mem_names_of_free b))
  | case pos scrutinee branches =>
    unfold freeOccurrences at h
    exact List.mem_append.mpr
      ((List.mem_append.mp h).imp (mem_names_of_free scrutinee) (mem_namesAll_of_free branches))
  | letDiamond pos b declared value rest | letBox pos b ty value rest =>
    unfold freeOccurrences at h
    apply List.mem_append.mpr
    apply (List.mem_append.mp h).imp (mem_names_of_free value)
    intro hrest
    exact List.mem_cons_of_mem _ (mem_names_of_free rest (List.mem_filter.mp hrest).1)

theorem mem_namesAll_of_free {x : String} (branches : List (Pattern × Expr)) (h : x ∈ freeOccurrencesAll branches)
    : x ∈ namesAll branches := by
  cases branches with
  | nil => cases h
  | cons branch branches =>
    obtain ⟨p, body⟩ := branch
    unfold freeOccurrencesAll at h
    apply List.mem_append.mpr
    apply (List.mem_append.mp h).imp _ (mem_namesAll_of_free branches)
    intro hbody
    exact List.mem_append_right _ (mem_names_of_free body (List.mem_filter.mp hbody).1)

end

mutual

theorem rename_congr {f g : String → String} (e : Expr) (h : ∀ x ∈ e.freeOccurrences, f x = g x)
    : e.rename f = e.rename g := by
  cases e with
  | int pos n => rfl
  | float pos y => rfl
  | constructor pos name => rfl
  | var pos name => simp only [rename, h name List.mem_cons_self]
  | lam pos b declared body =>
    have hbody := rename_congr body (keeping_congr [b.name] fun x hx hkept =>
      h x (List.mem_filter.mpr ⟨hx, by simpa using hkept⟩))
    simp only [rename, hbody]
  | promote pos e | lift pos e =>
    have he := rename_congr e h
    simp only [rename, he]
  | app pos a b | binop pos op a b | pair pos a b =>
    have ha := rename_congr a fun x hx => h x (List.mem_append_left _ hx)
    have hb := rename_congr b fun x hx => h x (List.mem_append_right _ hx)
    simp only [rename, ha, hb]
  | case pos scrutinee branches =>
    have hscrutinee := rename_congr scrutinee fun x hx => h x (List.mem_append_left _ hx)
    have hbranches := renameBranches_congr branches fun x hx => h x (List.mem_append_right _ hx)
    simp only [rename, hscrutinee, hbranches]
  | letDiamond pos b declared value rest | letBox pos b ty value rest =>
    have hvalue := rename_congr value fun x hx => h x (List.mem_append_left _ hx)
    have hrest := rename_congr rest (keeping_congr [b.name] fun x hx hkept =>
      h x (List.mem_append_right _ (List.mem_filter.mpr ⟨hx, by simpa using hkept⟩)))
    simp only [rename, hvalue, hrest]

theorem renameBranches_congr {f g : String → String} (branches : List (Pattern × Expr))
    (h : ∀ x ∈ freeOccurrencesAll branches, f x = g x) : renameBranches f branches = renameBranches g branches := by
  cases branches with
  | nil => rfl
  | cons branch branches =>
    obtain ⟨p, body⟩ := branch
    have hbody := rename_congr body (keeping_congr p.boundVars fun x hx hkept =>
      h x (List.mem_append_left _ (List.mem_filter.mpr ⟨hx, by simpa using hkept⟩)))
    have hbranches := renameBranches_congr branches fun x hx => h x (List.mem_append_right _ hx)
    simp only [renameBranches, hbody, hbranches]

end

mutual

theorem rename_id (e : Expr) : e.rename id = e := by
  cases e with
  | int pos n => rfl
  | float pos y => rfl
  | constructor pos name => rfl
  | var pos name => rfl
  | lam pos b declared body => simp only [rename, keeping_id, rename_id body]
  | promote pos e | lift pos e => simp only [rename, rename_id e]
  | app pos a b | binop pos op a b | pair pos a b => simp only [rename, rename_id a, rename_id b]
  | case pos scrutinee branches => simp only [rename, rename_id scrutinee, renameBranches_id branches]
  | letDiamond pos b declared value rest | letBox pos b ty value rest =>
    simp only [rename, keeping_id, rename_id value, rename_id rest]

theorem renameBranches_id (branches : List (Pattern × Expr)) : renameBranches id branches = branches := by
  cases branches with
  | nil => rfl
  | cons branch branches =>
    obtain ⟨p, body⟩ := branch
    simp only [renameBranches, keeping_id, rename_id body, renameBranches_id branches]

end

-- A renaming that avoids the names of an expression captures no variable.
mutual

theorem freeOccurrences_rename {N : String → Prop} {f : String → String} (hf : Avoids N f) (e : Expr)
    (hN : ∀ x ∈ e.names, N x) : (e.rename f).freeOccurrences = e.freeOccurrences.map f := by
  cases e with
  | int pos n => rfl
  | float pos y => rfl
  | constructor pos name => rfl
  | var pos name => rfl
  | lam pos b declared body =>
    obtain ⟨hb, hbody⟩ := List.forall_mem_cons.mp hN
    have hkept : ∀ z ∈ [b.name], N z := List.forall_mem_singleton.mpr hb
    simp only [rename, freeOccurrences, freeOccurrences_rename (hf.keeping [b.name]) body hbody]
    apply filter_map_keeping (by simp)
    intro x hx
    exact hf.not_mem hkept (hbody x (mem_names_of_free body hx))
  | promote pos e | lift pos e => exact freeOccurrences_rename hf e hN
  | app pos a b | binop pos op a b | pair pos a b =>
    obtain ⟨ha, hb⟩ := List.forall_mem_append.mp hN
    simp only [rename, freeOccurrences, freeOccurrences_rename hf a ha, freeOccurrences_rename hf b hb, List.map_append]
  | case pos scrutinee branches =>
    obtain ⟨hscrutinee, hbranches⟩ := List.forall_mem_append.mp hN
    simp only [rename, freeOccurrences, freeOccurrences_rename hf scrutinee hscrutinee,
      freeOccurrencesAll_rename hf branches hbranches, List.map_append]
  | letDiamond pos b declared value rest | letBox pos b ty value rest =>
    obtain ⟨hvalue, hN⟩ := List.forall_mem_append.mp hN
    obtain ⟨hb, hrest⟩ := List.forall_mem_cons.mp hN
    have hkept : ∀ z ∈ [b.name], N z := List.forall_mem_singleton.mpr hb
    simp only [rename, freeOccurrences, freeOccurrences_rename hf value hvalue,
      freeOccurrences_rename (hf.keeping [b.name]) rest hrest, List.map_append]
    congr 1
    apply filter_map_keeping (by simp)
    intro x hx
    exact hf.not_mem hkept (hrest x (mem_names_of_free rest hx))

theorem freeOccurrencesAll_rename {N : String → Prop} {f : String → String} (hf : Avoids N f)
    (branches : List (Pattern × Expr)) (hN : ∀ x ∈ namesAll branches, N x)
    : freeOccurrencesAll (renameBranches f branches) = (freeOccurrencesAll branches).map f := by
  cases branches with
  | nil => rfl
  | cons branch branches =>
    obtain ⟨p, body⟩ := branch
    obtain ⟨hbranch, hbranches⟩ := List.forall_mem_append.mp hN
    obtain ⟨hkept, hbody⟩ := List.forall_mem_append.mp hbranch
    simp only [renameBranches, freeOccurrencesAll, freeOccurrencesAll_rename hf branches hbranches,
      freeOccurrences_rename (hf.keeping p.boundVars) body hbody, List.map_append]
    congr 1
    apply filter_map_keeping (by simp)
    intro x hx
    exact hf.not_mem hkept (hbody x (mem_names_of_free body hx))

end

end Expr

/--
How the variables of the terms of two runs correspond. Names of the program are taken out of them or left alone. The name
that the `k`-th call makes up for a wildcard is that of the call `k + d` of the other run, whose supply is ahead by `d`.
-/
structure Relabeling (N : String → Prop) (n d : Nat) where
  map : String → String
  injective : Function.Injective map
  avoids : Avoids N map
  wildcard : ∀ k, n ≤ k → map ("_" ++ "." ++ toString k) = "_" ++ "." ++ toString (k + d)
  apart : ∀ k, n ≤ k → ¬N ("_" ++ "." ++ toString k)

namespace Relabeling

variable {N : String → Prop} {n d : Nat}

def pairing (ρ : Relabeling N n d) : Pairing :=
  .graph ρ.map ρ.injective

theorem swap_map (ρ : Relabeling N n d) {x z : String} (hz : N z) (hx : N x) (hxz : x ≠ z)
    : Equiv.swap (ρ.map z) z (ρ.map x) = ρ.map x := by
  apply Equiv.swap_apply_of_ne_of_ne
  . exact fun h => hxz (ρ.injective h)
  . intro h
    have hfixed := ρ.avoids x hx (h ▸ hz)
    exact hxz (hfixed.symm.trans h)

def keepOne (ρ : Relabeling N n d) (z : String) (hz : N z) : Relabeling N n d where
  map x := Equiv.swap (ρ.map z) z (ρ.map x)
  injective := (Equiv.injective _).comp ρ.injective
  avoids := by
    intro x hx hmap
    dsimp only at hmap ⊢
    by_cases hxz : x = z
    . rw [hxz, Equiv.swap_apply_left]
    . rw [ρ.swap_map hz hx hxz] at hmap ⊢
      exact ρ.avoids x hx hmap
  wildcard := by
    intro k hk
    have hne : ρ.map ("_" ++ "." ++ toString k) ≠ ρ.map z := by
      intro h
      exact ρ.apart k hk (ρ.injective h ▸ hz)
    have hne' : ρ.map ("_" ++ "." ++ toString k) ≠ z := by
      rw [ρ.wildcard k hk]
      rintro rfl
      exact ρ.apart (k + d) (by omega) hz
    rw [Equiv.swap_apply_of_ne_of_ne hne hne', ρ.wildcard k hk]
  apart := ρ.apart

def keep (ρ : Relabeling N n d) : (kept : List String) → (∀ z ∈ kept, N z) → Relabeling N n d
  | [], _ => ρ
  | z :: kept, h => (ρ.keep kept fun z hz => h z (List.mem_cons_of_mem _ hz)).keepOne z (h z List.mem_cons_self)

theorem keep_map (ρ : Relabeling N n d) {kept : List String} (h : ∀ z ∈ kept, N z) {x : String} (hx : N x)
    : (ρ.keep kept h).map x = keeping kept ρ.map x := by
  induction kept with
  | nil => rfl
  | cons z kept ih =>
    have hz : N z := h z List.mem_cons_self
    have hkept : ∀ z ∈ kept, N z := fun z hz => h z (List.mem_cons_of_mem _ hz)
    change Equiv.swap ((ρ.keep kept hkept).map z) z ((ρ.keep kept hkept).map x) = _
    by_cases hxz : x = z
    . rw [hxz, Equiv.swap_apply_left, keeping_of_mem List.mem_cons_self]
    . rw [swap_map _ hz hx hxz, ih hkept]
      unfold keeping
      simp only [List.mem_cons, hxz, false_or]

end Relabeling

end GradedModal
