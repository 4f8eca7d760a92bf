import Mathlib
import GradedModal.Proofs.ParallelContexts

/-!
This module lists the type, grade and kind variables of what checking deals with. A pairing under which all of these
correspond to themselves pairs everything with itself.
-/

namespace GradedModal

open CheckM

def GradeKind.varNames : GradeKind → List String
  | .var name => [name]
  | _ => []

def Kind.varNames : Kind → List String
  | .grade kind => kind.varNames
  | .arrow a b => a.varNames ++ b.varNames
  | _ => []

/--
The variables that a binding introduces and those of their kinds.
-/
def binderNames (binders : List (String × Kind)) : List String :=
  binders.flatMap fun b => b.1 :: b.2.varNames

def Grade.varNames : Grade → List String
  | .var name => [name]
  | .zero kind => kind.varNames
  | .one kind => kind.varNames
  | .op _ a b => a.varNames ++ b.varNames
  | _ => []

def Ty.varNames : Ty → List String
  | .const _ => []
  | .index _ => []
  | .var name => [name]
  | .arrow a b => a.varNames ++ b.varNames
  | .app a b => a.varNames ++ b.varNames
  | .pair a b => a.varNames ++ b.varNames
  | .op _ a b => a.varNames ++ b.varNames
  | .box grade ty => grade.varNames ++ ty.varNames
  | .diamond _ ty => ty.varNames

def Scheme.varNames (s : Scheme) : List String :=
  binderNames s.vars ++ s.ty.varNames

def Assumption.varNames : Assumption → List String
  | .linear ty => ty.varNames
  | .graded ty grade => ty.varNames ++ grade.varNames

/--
The variables of the types and grades in a context.
-/
def Context.varNames (c : Context) : List String :=
  c.bindings.flatMap (·.2.varNames)

def Constraint.varNames (c : Constraint) : List String :=
  c.left.varNames ++ c.right.varNames ++ c.kind.varNames

namespace Predicate

mutual

def varNames : Predicate → List String
  | .atom c => c.varNames
  | .conj items => varNamesAll items
  | .impl bound antecedent consequent => binderNames bound ++ antecedent.varNames ++ consequent.varNames

def varNamesAll : List Predicate → List String
  | [] => []
  | p :: ps => p.varNames ++ varNamesAll ps

end

theorem forall_mem_varNamesAll {P : String → Prop} {ps : List Predicate}
    : (∀ a ∈ varNamesAll ps, P a) ↔ ∀ p ∈ ps, ∀ a ∈ p.varNames, P a := by
  induction ps with
  | nil => simp [varNamesAll]
  | cons p ps ih => simp only [varNamesAll, List.forall_mem_append, List.forall_mem_cons, ih]

end Predicate

def Scope.varNames (scope : Scope) : List String :=
  Predicate.varNamesAll scope.antecedent ++ Predicate.varNamesAll scope.consequent

def TypeVar.varNames (v : TypeVar) : List String :=
  v.name :: v.kind.varNames

def State.varNames (s : State) : List String :=
  Predicate.varNamesAll s.predicate ++ s.scopes.flatMap Scope.varNames ++ s.typeVars.flatMap TypeVar.varNames ++
    s.kinds.flatMap fun b => b.1 :: b.2.varNames

def Builtins.varNames (b : Builtins) : List String :=
  b.types.flatMap (·.2.varNames) ++ b.constructors.flatMap (·.2.varNames) ++ b.operators.flatMap (·.2.varNames) ++
    b.definitions.flatMap (·.2.varNames)

def Env.varNames (env : Env) : List String :=
  env.builtins.varNames ++ env.definitions.flatMap (·.2.varNames)

section

variable {W : Pairing}

theorem GradeKind.paired_self {k : GradeKind} (h : ∀ a ∈ k.varNames, W.rel a a) : k.Paired W k := by
  cases k with
  | nat => exact .nat
  | float => exact .float
  | level => exact .level
  | var name => exact .var (h name List.mem_cons_self)

theorem Kind.paired_self {k : Kind} (h : ∀ a ∈ k.varNames, W.rel a a) : k.Paired W k := by
  induction k with
  | type => exact .type
  | effect => exact .effect
  | grade kind => exact .grade (GradeKind.paired_self h)
  | arrow a b iha ihb =>
    obtain ⟨ha, hb⟩ := List.forall_mem_append.mp h
    exact .arrow (iha ha) (ihb hb)

theorem tables_self {binders : List (String × Kind)} (h : ∀ a ∈ binderNames binders, W.rel a a)
    : W.Tables (Kind.Paired W) binders binders := by
  unfold binderNames at h
  simp only [List.forall_mem_flatMap, List.forall_mem_cons] at h
  exact List.forall₂_same.mpr fun b hb => ⟨(h b hb).1, Kind.paired_self (h b hb).2⟩

theorem Grade.paired_self {g : Grade} (h : ∀ a ∈ g.varNames, W.rel a a) : g.Paired W g := by
  induction g with
  | var name => exact .var (h name List.mem_cons_self)
  | nat n => exact .nat n
  | float x => exact .float x
  | level l => exact .level l
  | zero kind => exact .zero (GradeKind.paired_self h)
  | one kind => exact .one (GradeKind.paired_self h)
  | op o a b iha ihb =>
    obtain ⟨ha, hb⟩ := List.forall_mem_append.mp h
    exact .op o (iha ha) (ihb hb)

theorem Ty.paired_self {ty : Ty} (h : ∀ a ∈ ty.varNames, W.rel a a) : ty.Paired W ty := by
  induction ty with
  | const n => exact .const n
  | index n => exact .index n
  | var name => exact .var (h name List.mem_cons_self)
  | arrow a b iha ihb =>
    obtain ⟨ha, hb⟩ := List.forall_mem_append.mp h
    exact .arrow (iha ha) (ihb hb)
  | app a b iha ihb =>
    obtain ⟨ha, hb⟩ := List.forall_mem_append.mp h
    exact .app (iha ha) (ihb hb)
  | pair a b iha ihb =>
    obtain ⟨ha, hb⟩ := List.forall_mem_append.mp h
    exact .pair (iha ha) (ihb hb)
  | op o a b iha ihb =>
    obtain ⟨ha, hb⟩ := List.forall_mem_append.mp h
    exact .op o (iha ha) (ihb hb)
  | box grade ty ih =>
    obtain ⟨hgrade, hty⟩ := List.forall_mem_append.mp h
    exact .box (Grade.paired_self hgrade) (ih hty)
  | diamond effects ty ih => exact .diamond effects (ih h)

theorem Scheme.paired_self {s : Scheme} (h : ∀ a ∈ s.varNames, W.rel a a) : s.Paired W s := by
  obtain ⟨hvars, hty⟩ := List.forall_mem_append.mp h
  exact ⟨tables_self hvars, Ty.paired_self hty⟩

theorem Assumption.paired_self {a : Assumption} (h : ∀ x ∈ a.varNames, W.rel x x) : a.Paired W a := by
  cases a with
  | linear ty => exact .linear (Ty.paired_self h)
  | graded ty grade =>
    obtain ⟨hty, hgrade⟩ := List.forall_mem_append.mp h
    exact .graded (Ty.paired_self hty) (Grade.paired_self hgrade)

theorem Context.paired_self {T : Pairing} {c : Context} (hnames : ∀ x ∈ c.names, T.rel x x)
    (h : ∀ a ∈ c.varNames, W.rel a a) : c.Paired T W c := by
  unfold varNames at h
  simp only [List.forall_mem_flatMap] at h
  exact List.forall₂_same.mpr fun b hb => ⟨hnames b.1 (List.mem_map_of_mem hb), Assumption.paired_self (h b hb)⟩

theorem Constraint.paired_self {c : Constraint} (h : ∀ a ∈ c.varNames, W.rel a a) : c.Paired W c := by
  obtain ⟨h, hkind⟩ := List.forall_mem_append.mp h
  obtain ⟨hleft, hright⟩ := List.forall_mem_append.mp h
  exact ⟨rfl, rfl, Grade.paired_self hleft, Grade.paired_self hright, GradeKind.paired_self hkind⟩

theorem Predicate.paired_self {p : Predicate} (h : ∀ a ∈ p.varNames, W.rel a a) : p.Paired W p := by
  induction p using Predicate.induction with
  | atom c => exact .atom (Constraint.paired_self h)
  | conj items ih =>
    have h := forall_mem_varNamesAll.mp h
    exact .conj (List.forall₂_same.mpr fun p hp => ih p hp (h p hp))
  | impl bound antecedent consequent iha ihc =>
    obtain ⟨h, hconsequent⟩ := List.forall_mem_append.mp h
    obtain ⟨hbound, hantecedent⟩ := List.forall_mem_append.mp h
    exact .impl (tables_self hbound) (iha hantecedent) (ihc hconsequent)

theorem Predicate.forall₂_paired_self {ps : List Predicate} (h : ∀ a ∈ varNamesAll ps, W.rel a a)
    : List.Forall₂ (Predicate.Paired W) ps ps :=
  List.forall₂_same.mpr fun p hp => paired_self (forall_mem_varNamesAll.mp h p hp)

theorem Scope.paired_self {scope : Scope} (h : ∀ a ∈ scope.varNames, W.rel a a) : scope.Paired W scope := by
  obtain ⟨hantecedent, hconsequent⟩ := List.forall_mem_append.mp h
  exact ⟨Predicate.forall₂_paired_self hantecedent, Predicate.forall₂_paired_self hconsequent, rfl⟩

theorem TypeVar.paired_self {v : TypeVar} (h : ∀ a ∈ v.varNames, W.rel a a) : v.Paired W v := by
  obtain ⟨hname, hkind⟩ := List.forall_mem_cons.mp h
  exact ⟨hname, Kind.paired_self hkind, rfl⟩

theorem Env.paired_of_lookup?_eq {env env' : Env} (hbuiltins : env'.builtins = env.builtins)
    (hlookup : ∀ name, env'.lookup? name = env.lookup? name) (h : ∀ a ∈ env.varNames, W.rel a a)
    : env.Paired W env' := by
  unfold Env.varNames Builtins.varNames at h
  simp only [List.forall_mem_append, List.forall_mem_flatMap] at h
  obtain ⟨⟨⟨⟨htypes, hconstructors⟩, hoperators⟩, hbuiltin⟩, hdefinitions⟩ := h
  refine ⟨hbuiltins, hlookup, ?_, ?_, ?_, ?_⟩
  . intro name kind hkind
    exact Kind.paired_self (htypes _ (mem_of_lookup hkind))
  . intro name scheme hscheme
    exact Scheme.paired_self (hconstructors _ (mem_of_lookup hscheme))
  . intro op ty hty
    obtain ⟨signature, hsignature, rfl⟩ := List.mem_map.mp hty
    exact Ty.paired_self (hoperators _ (List.mem_filter.mp hsignature).1)
  . intro name scheme hscheme
    obtain h | ⟨_, h⟩ := Option.or_eq_some_iff.mp hscheme
    . exact Scheme.paired_self (hdefinitions _ (mem_of_lookup h))
    . exact Scheme.paired_self (hbuiltin _ (mem_of_lookup h))

theorem State.paired_self {s : State} (h : ∀ a ∈ s.varNames, Older s.nextFresh a)
    : s.Paired s.nextFresh 0 (.identity (Older s.nextFresh)) s := by
  unfold State.varNames at h
  simp only [List.forall_mem_append, List.forall_mem_flatMap] at h
  obtain ⟨⟨⟨hpredicate, hscopes⟩, htypeVars⟩, hkinds⟩ := h
  constructor
  . exact Predicate.forall₂_paired_self fun a ha => ⟨hpredicate a ha, rfl⟩
  . exact List.forall₂_same.mpr fun scope hscope => Scope.paired_self fun a ha => ⟨hscopes scope hscope a ha, rfl⟩
  . exact List.forall₂_same.mpr fun v hv => TypeVar.paired_self fun a ha => ⟨htypeVars v hv a ha, rfl⟩
  . apply List.forall₂_same.mpr
    intro b hb
    obtain ⟨hname, hkind⟩ := List.forall_mem_cons.mp (hkinds b hb)
    exact ⟨⟨hname, rfl⟩, GradeKind.paired_self fun a ha => ⟨hkind a ha, rfl⟩⟩
  . exact le_rfl
  . rfl
  . rintro a _ ⟨ha, rfl⟩
    exact ⟨ha, ha⟩

end

end GradedModal
