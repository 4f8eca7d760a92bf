import Mathlib
import GradedModal.Proofs.Acceptance
import GradedModal.Proofs.Closure
import GradedModal.Proofs.ParallelDefinitions

/-!
This module says that the definitions of a program are checked independently of each other. Checking one of them moves
the supply of names for the next, so what is left to be proved has other names. A prover that does not look at names
does not notice, and the order of definitions is irrelevant.
-/

namespace GradedModal

open CheckM

/-! Renaming what a prover is asked. -/

def GradeKind.rename (f : String → String) : GradeKind → GradeKind
  | .var name => .var (f name)
  | kind => kind

def Kind.rename (f : String → String) : Kind → Kind
  | .grade kind => .grade (kind.rename f)
  | .arrow a b => .arrow (a.rename f) (b.rename f)
  | kind => kind

def Grade.rename (f : String → String) : Grade → Grade
  | .var name => .var (f name)
  | .zero kind => .zero (kind.rename f)
  | .one kind => .one (kind.rename f)
  | .op o a b => .op o (a.rename f) (b.rename f)
  | grade => grade

def Constraint.rename (f : String → String) (c : Constraint) : Constraint :=
  ⟨c.pos, c.relation, c.left.rename f, c.right.rename f, c.kind.rename f⟩

namespace Predicate

mutual

/--
Rename the grade variables of a predicate, bound or free, and the variables in their kinds.
-/
def rename (f : String → String) : Predicate → Predicate
  | .atom c => .atom (c.rename f)
  | .conj items => .conj (renameAll f items)
  | .impl bound antecedent consequent =>
    .impl (bound.map fun b => (f b.1, b.2.rename f)) (antecedent.rename f) (consequent.rename f)

def renameAll (f : String → String) : List Predicate → List Predicate
  | [] => []
  | p :: ps => p.rename f :: renameAll f ps

end

theorem renameAll_eq_map (f : String → String) (ps : List Predicate) : renameAll f ps = ps.map (·.rename f) := by
  induction ps with
  | nil => rfl
  | cons p ps ih => rw [renameAll, ih, List.map_cons]

end Predicate

def GradeVar.rename (f : String → String) (v : GradeVar) : GradeVar :=
  ⟨f v.name, v.kind.rename f, v.quantifier⟩

def GradeVar.varNames (v : GradeVar) : List String :=
  v.name :: v.kind.varNames

structure GradeVar.Paired (W : Pairing) (v v' : GradeVar) : Prop where
  name : W.rel v.name v'.name
  kind : v.kind.Paired W v'.kind
  quantifier : v.quantifier = v'.quantifier

theorem Pairing.exists_injective (W : Pairing) (l : List String)
    : ∃ f : String → String, Function.Injective f ∧ ∀ a ∈ l, ∀ b, W.rel a b → f a = b := by
  suffices h : ∃ e : Equiv.Perm String, ∀ a ∈ l, ∀ b, W.rel a b → e a = b by
    obtain ⟨e, he⟩ := h
    exact ⟨e, e.injective, he⟩
  induction l with
  | nil => exact ⟨1, fun _ h => (List.not_mem_nil h).elim⟩
  | cons a l ih =>
    obtain ⟨e, he⟩ := ih
    by_cases h : ∃ b, W.rel a b
    . obtain ⟨b, hab⟩ := h
      refine ⟨Equiv.swap (e a) b * e, ?_⟩
      intro a' ha' b' hab'
      rw [Equiv.Perm.mul_apply]
      by_cases haa' : a' = a
      . rw [haa', Equiv.swap_apply_left]
        exact (W.eq_iff hab hab').mp haa'.symm
      . have hea' : e a' = b' := he a' (List.mem_of_ne_of_mem haa' ha') b' hab'
        rw [hea']
        apply Equiv.swap_apply_of_ne_of_ne
        . rw [← hea']
          exact fun h => haa' (e.injective h)
        . exact fun h => haa' ((W.eq_iff hab' hab).mpr h)
    . refine ⟨e, ?_⟩
      intro a' ha' b' hab'
      obtain rfl | ha' := List.mem_cons.mp ha'
      . exact (h ⟨b', hab'⟩).elim
      . exact he a' ha' b' hab'

section

variable {W : Pairing} {f : String → String}

theorem GradeKind.Paired.eq_rename {k k' : GradeKind} (h : k.Paired W k')
    (hf : ∀ a ∈ k.varNames, ∀ b, W.rel a b → f a = b) : k' = k.rename f := by
  cases h with
  | var h => rw [GradeKind.rename, hf _ List.mem_cons_self _ h]
  | _ => rfl

theorem Kind.Paired.eq_rename {k k' : Kind} (h : k.Paired W k') (hf : ∀ a ∈ k.varNames, ∀ b, W.rel a b → f a = b)
    : k' = k.rename f := by
  induction h with
  | type => rfl
  | effect => rfl
  | grade h => rw [Kind.rename, h.eq_rename hf]
  | arrow _ _ iha ihb =>
    obtain ⟨ha, hb⟩ := List.forall_mem_append.mp hf
    rw [Kind.rename, ← iha ha, ← ihb hb]

theorem Grade.Paired.eq_rename {g g' : Grade} (h : g.Paired W g') (hf : ∀ a ∈ g.varNames, ∀ b, W.rel a b → f a = b)
    : g' = g.rename f := by
  induction h with
  | var h => rw [Grade.rename, hf _ List.mem_cons_self _ h]
  | nat n => rfl
  | float x => rfl
  | level l => rfl
  | zero h | one h => rw [Grade.rename, h.eq_rename hf]
  | op o _ _ iha ihb =>
    obtain ⟨ha, hb⟩ := List.forall_mem_append.mp hf
    rw [Grade.rename, ← iha ha, ← ihb hb]

theorem Constraint.Paired.eq_rename {c c' : Constraint} (h : c.Paired W c')
    (hf : ∀ a ∈ c.varNames, ∀ b, W.rel a b → f a = b) : c' = c.rename f := by
  obtain ⟨hf, hkind⟩ := List.forall_mem_append.mp hf
  obtain ⟨hleft, hright⟩ := List.forall_mem_append.mp hf
  unfold Constraint.rename
  rw [h.pos, h.relation, ← h.left.eq_rename hleft, ← h.right.eq_rename hright, ← h.kind.eq_rename hkind]

theorem Pairing.Tables.eq_rename {l l' : List (String × Kind)} (h : W.Tables (Kind.Paired W) l l')
    (hf : ∀ a ∈ binderNames l, ∀ b, W.rel a b → f a = b) : l' = l.map fun b => (f b.1, b.2.rename f) := by
  unfold binderNames at hf
  simp only [List.forall_mem_flatMap, List.forall_mem_cons] at hf
  induction h with
  | nil => rfl
  | @cons b b' l l' hb _ ih =>
    obtain ⟨⟨hname, hkind⟩, hl⟩ := List.forall_mem_cons.mp hf
    rw [List.map_cons, ← ih hl, hname _ hb.1, ← hb.2.eq_rename hkind]

theorem Predicate.Paired.eq_rename {p p' : Predicate} (h : p.Paired W p')
    (hf : ∀ a ∈ p.varNames, ∀ b, W.rel a b → f a = b) : p' = p.rename f := by
  induction p using Predicate.induction generalizing p' with
  | atom c =>
    cases h with
    | atom h => rw [Predicate.rename, ← h.eq_rename hf]
  | conj items ih =>
    cases h with
    | @conj _ items' hitems =>
      replace hf := Predicate.forall_mem_varNamesAll.mp hf
      suffices hall : items' = Predicate.renameAll f items by rw [Predicate.rename, hall]
      induction hitems with
      | nil => rfl
      | @cons p p' ps ps' hp _ ihps =>
        obtain ⟨hfp, hfps⟩ := List.forall_mem_cons.mp hf
        obtain ⟨ihp, ihps'⟩ := List.forall_mem_cons.mp ih
        rw [Predicate.renameAll, ← ihp hp hfp, ← ihps ihps' hfps]
  | impl bound antecedent consequent iha ihc =>
    cases h with
    | impl hbound ha hc =>
      obtain ⟨hf, hconsequent⟩ := List.forall_mem_append.mp hf
      obtain ⟨hbinders, hantecedent⟩ := List.forall_mem_append.mp hf
      rw [Predicate.rename, ← hbound.eq_rename hbinders, ← iha ha hantecedent, ← ihc hc hconsequent]

theorem GradeVar.Paired.eq_rename {v v' : GradeVar} (h : v.Paired W v')
    (hf : ∀ a ∈ v.varNames, ∀ b, W.rel a b → f a = b) : v' = v.rename f := by
  obtain ⟨hname, hkind⟩ := List.forall_mem_cons.mp hf
  unfold GradeVar.rename
  rw [hname _ h.name, ← h.kind.eq_rename hkind, h.quantifier]

theorem GradeVar.Paired.eq_map_rename {vars vars' : List GradeVar} (h : List.Forall₂ (GradeVar.Paired W) vars vars')
    (hf : ∀ v ∈ vars, ∀ a ∈ v.varNames, ∀ b, W.rel a b → f a = b) : vars' = vars.map (·.rename f) := by
  induction h with
  | nil => rfl
  | cons hv _ ih =>
    obtain ⟨hfv, hfvs⟩ := List.forall_mem_cons.mp hf
    rw [List.map_cons, ← ih hfvs, ← hv.eq_rename hfv]

end

/-! What is left to be proved. -/

section

variable {n d : Nat} {W : Pairing}

theorem State.Paired.settle {s t : State} {k k' : GradeKind} (h : s.Paired n d W t) (hk : k.Paired W k')
    : (s.settle k).Paired W (t.settle k') := by
  have hresolved := h.resolve hk
  unfold State.settle
  generalize s.resolve k = l at hresolved
  generalize t.resolve k' = l' at hresolved
  cases hresolved <;> constructor

theorem Predicate.Paired.mapKinds {f g : GradeKind → GradeKind}
    (hfg : ∀ k k', GradeKind.Paired W k k' → (f k).Paired W (g k')) {p p' : Predicate} (h : p.Paired W p')
    : (p.mapKinds f).Paired W (p'.mapKinds g) := by
  induction p using Predicate.induction generalizing p' with
  | atom c =>
    cases h with
    | atom h => exact .atom { h with kind := hfg _ _ h.kind }
  | conj items ih =>
    cases h with
    | conj hitems =>
      simp only [Predicate.mapKinds, Predicate.mapKindsAll_eq_map]
      apply Predicate.Paired.conj
      apply List.forall₂_map_left_iff.mpr
      apply List.forall₂_map_right_iff.mpr
      induction hitems with
      | nil => exact .nil
      | cons hp _ ihps =>
        obtain ⟨ihp, ihps'⟩ := List.forall_mem_cons.mp ih
        exact .cons (ihp hp) (ihps ihps')
  | impl bound antecedent consequent iha ihc =>
    cases h with
    | impl hbound ha hc => exact .impl hbound (iha ha) (ihc hc)

theorem Predicate.Paired.isTrivial {p p' : Predicate} (h : p.Paired W p') : p.isTrivial = p'.isTrivial := by
  induction p using Predicate.induction generalizing p' with
  | atom c =>
    cases h with
    | atom _ => rfl
  | conj items ih =>
    cases h with
    | conj hitems =>
      simp only [Predicate.isTrivial]
      induction hitems with
      | nil => rfl
      | cons hp _ ihps =>
        obtain ⟨ihp, ihps'⟩ := List.forall_mem_cons.mp ih
        simp only [Predicate.areTrivial, ihp hp, ihps ihps']
  | impl bound antecedent consequent iha ihc =>
    cases h with
    | impl _ _ hc =>
      simp only [Predicate.isTrivial]
      exact ihc hc

theorem State.Paired.collected {s t : State} (h : s.Paired n d W t) : s.collected.Paired W t.collected := by
  apply Predicate.Paired.conj
  apply List.rel_append h.predicate
  apply List.forall₂_map_left_iff.mpr
  apply List.forall₂_map_right_iff.mpr
  apply List.Forall₂.imp _ (List.rel_reverse h.scopes)
  intro scope scope' hscope
  exact .conj (List.rel_append hscope.antecedent hscope.consequent)

theorem State.Paired.gradeVars {s t : State} (h : s.Paired n d W t)
    : List.Forall₂ (GradeVar.Paired W) s.gradeVars t.gradeVars := by
  apply List.rel_filterMap _ (List.rel_reverse h.typeVars)
  intro v v' hv
  exact rel_map hv.kind.gradeKind? fun _ _ hk => ⟨hv.name, h.settle hk, hv.quantifier⟩

end

/--
A prover that judges what it is asked whatever it was asked before and whatever variables are called.
-/
structure Prover.IgnoresNames {σ : Type} (prover : Prover σ) : Prop where
  stateless : ∀ p vars st st', ((prover p vars).run st).run.1 = ((prover p vars).run st').run.1
  nominal : ∀ f : String → String, Function.Injective f → ∀ p vars st,
    ((prover (p.rename f) (vars.map (·.rename f))).run st).run.1 = .valid
      ↔
    ((prover p vars).run st).run.1 = .valid

theorem Predicate.constraints_rename (f : String → String) (p : Predicate)
    : (p.rename f).constraints = p.constraints.map (·.rename f) := by
  induction p using Predicate.induction with
  | atom c => rfl
  | conj items ih =>
    simp only [rename, constraints, constraintsAll_eq_flatMap, renameAll_eq_map, List.flatMap_map, List.map_flatMap]
    exact List.flatMap_congr ih
  | impl bound antecedent consequent iha ihc => simp only [rename, constraints, iha, ihc, List.map_append]

namespace Obligation

def IsMet {σ : Type} (prover : Prover σ) (o : Obligation) : Prop :=
  o.predicate.isTrivial = true ∨ ∀ st, ((prover o.predicate o.vars).run st).run.1 = .valid

section

variable {σ : Type} {prover : Prover σ}

theorem isMet_iff (hprover : prover.IgnoresNames) (o : Obligation) (st : σ)
    : ((o.discharge prover).run st).run.1 = .ok () ↔ o.IsMet prover := by
  unfold discharge IsMet
  by_cases htrivial : o.predicate.isTrivial = true
  . rw [if_pos htrivial]
    exact ⟨fun _ => .inl htrivial, fun _ => rfl⟩
  . rw [if_neg htrivial]
    have hall : (∀ st, ((prover o.predicate o.vars).run st).run.1 = .valid)
        ↔ ((prover o.predicate o.vars).run st).run.1 = .valid := by
      constructor
      . intro h
        exact h st
      . intro h st'
        rw [hprover.stateless _ _ st' st, h]
    rw [hall]
    change o.settle ((prover o.predicate o.vars).run st).run.1 = .ok () ↔ _
    cases ((prover o.predicate o.vars).run st).run.1 with
    | valid => simp [settle]
    | invalid a | undecided doubt => simp [settle, htrivial]

theorem isMet_congr (hprover : prover.IgnoresNames) {W : Pairing} {o o' : Obligation}
    (hpredicate : o.predicate.Paired W o'.predicate) (hvars : List.Forall₂ (GradeVar.Paired W) o.vars o'.vars)
    : o.IsMet prover ↔ o'.IsMet prover := by
  obtain ⟨f, hf, hrel⟩ := W.exists_injective (o.predicate.varNames ++ o.vars.flatMap GradeVar.varNames)
  obtain ⟨hp, hvs⟩ := List.forall_mem_append.mp hrel
  simp only [List.forall_mem_flatMap] at hvs
  have hpredicate' : o'.predicate = o.predicate.rename f := hpredicate.eq_rename hp
  have hvars' : o'.vars = o.vars.map (·.rename f) := GradeVar.Paired.eq_map_rename hvars hvs
  unfold IsMet
  rw [← hpredicate.isTrivial, hpredicate', hvars']
  exact or_congr_right (forall_congr' fun st => (hprover.nominal f hf _ _ st).symm)

end

end Obligation

def State.startAt (k : Nat) : State :=
  { State.start with nextFresh := k }

def Pairing.dotless : Pairing :=
  .identity fun a => isDotless a = true

theorem State.paired_startAt (k : Nat) : (startAt 0).Paired 0 k .dotless (startAt k) where
  predicate := .nil
  scopes := .nil
  typeVars := .nil
  kinds := .nil
  started := le_rfl
  nextFresh := (Nat.zero_add k).symm
  older := by
    rintro a _ ⟨ha, rfl⟩
    exact ⟨older_of_isDotless ha _, older_of_isDotless ha _⟩

namespace Definition

section

variable {σ : Type} {prover : Prover σ} {env env' : Env} {d : Definition}

def Declares (env : Env) (k : Nat) (d : Definition) : Prop :=
  ∃ a s', d.scheme.checkKind env d.binder.pos (.startAt k) = .ok a s'

def Proves (env : Env) (prover : Prover σ) (k : Nat) (d : Definition) : Prop :=
  ∃ s', d.check env (.startAt k) = .ok () s' ∧ (s'.obligation d.binder.name d.binder.pos).IsMet prover

theorem declares_iff (henv : env.Paired .dotless env') (hd : ∀ a ∈ d.mentioned, isDotless a = true) (k : Nat)
    : d.Declares env 0 ↔ d.Declares env' k := by
  have hscheme : d.scheme.Paired .dotless d.scheme :=
    Scheme.paired_self fun a ha => ⟨hd a (List.mem_append_right _ ha), rfl⟩
  exact (Scheme.checkKind_parallel henv d.binder.pos hscheme).succeeds_iff (State.paired_startAt k)

theorem proves_iff (hprover : prover.IgnoresNames) (henv : env.Paired .dotless env')
    (hd : ∀ a ∈ d.mentioned, isDotless a = true) (k : Nat) : d.Proves env prover 0 ↔ d.Proves env' prover k := by
  have hparallel := check_parallel (k := k) henv fun a ha => ⟨hd a ha, hd a ha, rfl⟩
  unfold Proves
  obtain ⟨V, _, _, s, t, _, hs, ht, hst, _⟩ | ⟨e, e', s, t, hs, ht, _⟩ := hparallel _ _ (State.paired_startAt k)
  . rw [hs, ht]
    have hmet : (s.obligation d.binder.name d.binder.pos).IsMet prover
        ↔ (t.obligation d.binder.name d.binder.pos).IsMet prover :=
      Obligation.isMet_congr hprover (hst.collected.mapKinds fun _ _ hk => hst.settle hk) hst.gradeVars
    constructor
    . rintro ⟨_, h, hs⟩
      cases h
      exact ⟨t, rfl, hmet.mp hs⟩
    . rintro ⟨_, h, ht⟩
      cases h
      exact ⟨s, rfl, hmet.mpr ht⟩
  . rw [hs, ht]
    constructor
    . rintro ⟨_, h, _⟩
      cases h
    . rintro ⟨_, h, _⟩
      cases h

end

end Definition

namespace Program

section

variable {σ : Type} {prover : Prover σ} {env : Env} {defs : List Definition}

theorem checkSignatures_iff (hdefs : ∀ d ∈ defs, ∀ k, d.Declares env 0 ↔ d.Declares env k) (k : Nat)
    : (∃ a s', checkSignatures env defs (.startAt k) = .ok a s') ↔ ∀ d ∈ defs, d.Declares env 0 := by
  unfold checkSignatures
  rw [List.forM_eq_forM]
  induction defs generalizing k with
  | nil => exact ⟨fun _ _ h => (List.not_mem_nil h).elim, fun _ => ⟨_, _, rfl⟩⟩
  | cons d defs ih =>
    obtain ⟨hd, hdefs⟩ := List.forall_mem_cons.mp hdefs
    rw [List.forall_mem_cons, List.forM_cons, hd k]
    unfold Definition.Declares
    have hreset : ∀ a s', d.scheme.checkKind env d.binder.pos (.startAt k) = .ok a s' → s' = .startAt s'.nextFresh := by
      intro a s' h
      unfold Scheme.checkKind CheckM.thenReset at h
      split at h
      . cases h
        rfl
      . cases h
    constructor
    . rintro ⟨a, s', h⟩
      obtain ⟨b, s₁, hb, h⟩ := bind_eq_ok.mp h
      rw [hreset b s₁ hb] at h
      exact ⟨⟨b, s₁, hb⟩, (ih hdefs s₁.nextFresh).mp ⟨a, s', h⟩⟩
    . rintro ⟨⟨b, s₁, hb⟩, hrest⟩
      obtain ⟨a, s', h⟩ := (ih hdefs s₁.nextFresh).mpr hrest
      rw [← hreset b s₁ hb] at h
      exact ⟨a, s', bind_eq_ok.mpr ⟨b, s₁, hb, h⟩⟩

theorem checkBodies_iff (hprover : prover.IgnoresNames) (detailed : Bool)
    (hdefs : ∀ d ∈ defs, ∀ k, d.Proves env prover 0 ↔ d.Proves env prover k) (s : State) (st : σ)
    : ((checkBodies env prover detailed defs s).run st).run.1.result = .ok () ↔ ∀ d ∈ defs, d.Proves env prover 0 := by
  induction defs generalizing s st with
  | nil => exact ⟨fun _ _ h => (List.not_mem_nil h).elim, fun _ => rfl⟩
  | cons d defs ih =>
    obtain ⟨hd, hdefs⟩ := List.forall_mem_cons.mp hdefs
    rw [List.forall_mem_cons, hd s.nextFresh]
    unfold checkBodies Definition.Proves
    change _ ↔ (∃ s', d.check env s.reset = .ok () s' ∧ _) ∧ _
    cases hcheck : d.check env s.reset with
    | error e s' =>
      constructor
      . intro h
        cases h
      . rintro ⟨⟨_, h, _⟩, _⟩
        cases h
    | ok _ s' =>
      have hmet := Obligation.isMet_iff hprover (s'.obligation d.binder.name d.binder.pos) st
      dsimp only
      rw [StateT.run_bind]
      generalize StateT.run ((s'.obligation d.binder.name d.binder.pos).discharge prover) st = r at hmet ⊢
      obtain ⟨result, st'⟩ := r
      cases result with
      | error e =>
        constructor
        . intro h
          cases h
        . rintro ⟨⟨_, h, hs⟩, _⟩
          cases h
          cases hmet.mpr hs
      | ok _ =>
        have hrest := ih hdefs s'.reset st'
        constructor
        . intro h
          exact ⟨⟨s', rfl, hmet.mp rfl⟩, hrest.mp h⟩
        . rintro ⟨_, h⟩
          exact hrest.mpr h

theorem check_iff {builtins : Builtins} (hprover : prover.IgnoresNames) (detailed : Bool) (st : σ)
    (henv : Env.Paired .dotless ⟨builtins, signatures defs⟩ ⟨builtins, signatures defs⟩)
    (hdefs : ∀ d ∈ defs, ∀ a ∈ d.mentioned, isDotless a = true)
    : ((check builtins prover detailed defs).run st).run.1.result = .ok ()
        ↔
      (∀ d ∈ defs, d.Declares ⟨builtins, signatures defs⟩ 0) ∧
        ∀ d ∈ defs, d.Proves ⟨builtins, signatures defs⟩ prover 0 := by
  have hsignatures := checkSignatures_iff (fun d hd => d.declares_iff henv (hdefs d hd)) 0
  have hbodies := checkBodies_iff hprover detailed fun d hd => d.proves_iff hprover henv (hdefs d hd)
  rw [← hsignatures]
  unfold check
  dsimp only
  change _ ↔ (∃ a s', checkSignatures ⟨builtins, signatures defs⟩ defs .start = .ok a s') ∧ _
  cases checkSignatures ⟨builtins, signatures defs⟩ defs .start with
  | error e s =>
    constructor
    . intro h
      cases h
    . rintro ⟨⟨_, _, h⟩, _⟩
      cases h
  | ok a s =>
    constructor
    . intro h
      exact ⟨⟨a, s, rfl⟩, (hbodies s st).mp h⟩
    . rintro ⟨_, h⟩
      exact (hbodies s st).mpr h

end

theorem lookup_perm {α : Type} {l l' : List (String × α)} (h : l.Perm l') (hl : (l.map (·.1)).Nodup) (a : String)
    : l.lookup a = l'.lookup a := by
  induction h with
  | nil => rfl
  | cons b _ ih =>
    have htail := ih (List.nodup_cons.mp hl).2
    simp only [List.lookup, htail]
  | swap b c l =>
    have hne : c.1 ≠ b.1 := by
      intro h
      exact (List.nodup_cons.mp hl).1 (List.mem_map.mpr ⟨b, List.mem_cons_self, h.symm⟩)
    by_cases hb : a = b.1
    . have hc : (a == c.1) = false := beq_eq_false_iff_ne.mpr fun hc => hne (hc.symm.trans hb)
      simp only [List.lookup, hc]
    . have hb' : (a == b.1) = false := beq_eq_false_iff_ne.mpr hb
      simp only [List.lookup, hb']
  | trans h₁ _ ih₁ ih₂ => exact (ih₁ hl).trans (ih₂ ((h₁.map _).nodup hl))

theorem lookup?_signatures_perm (builtins : Builtins) {defs defs' : List Definition} (h : defs.Perm defs')
    (hdistinct : (defs.map (·.binder.name)).Nodup) (name : String)
    : Env.lookup? ⟨builtins, signatures defs'⟩ name = Env.lookup? ⟨builtins, signatures defs⟩ name := by
  have hperm : (signatures defs).Perm (signatures defs') :=
    ((List.reverse_perm defs).trans (h.trans (List.reverse_perm defs').symm)).map _
  have hnodup : ((signatures defs).map (·.1)).Nodup := by
    unfold signatures
    rw [List.map_map, List.map_reverse, List.nodup_reverse]
    exact hdistinct
  unfold Env.lookup?
  dsimp only
  rw [lookup_perm hperm hnodup name]

theorem paired_of_perm {builtins : Builtins} {defs defs' : List Definition} (hperm : defs.Perm defs')
    (hdistinct : (defs.map (·.binder.name)).Nodup) (hdefs : ∀ d ∈ defs, ∀ a ∈ d.mentioned, isDotless a = true)
    (hbuiltins : ∀ a ∈ builtins.varNames, isDotless a = true)
    : Env.Paired .dotless ⟨builtins, signatures defs⟩ ⟨builtins, signatures defs'⟩ := by
  have hlookup := lookup?_signatures_perm builtins hperm hdistinct
  refine Env.paired_of_lookup?_eq rfl hlookup ?_
  unfold Env.varNames
  rw [List.forall_mem_append, List.forall_mem_flatMap]
  refine ⟨fun a ha => ⟨hbuiltins a ha, rfl⟩, ?_⟩
  intro b hb a ha
  obtain ⟨d, hd, rfl⟩ := List.mem_map.mp hb
  exact ⟨hdefs d (List.mem_reverse.mp hd) a (List.mem_append_right _ ha), rfl⟩

/--
Definitions may come in any order, if they have different names and none of the names in them has a dot.
-/
theorem accepts_any_order {σ : Type} (builtins : Builtins) (prover : Prover σ) (detailed : Bool)
    (defs defs' : List Definition) (st : σ) (hperm : defs.Perm defs')
    (hdistinct : (defs.map (·.binder.name)).Nodup)
    (hdefs : ∀ d ∈ defs, ∀ a ∈ d.mentioned, isDotless a = true)
    (hbuiltins : ∀ a ∈ builtins.varNames, isDotless a = true) (hprover : prover.IgnoresNames)
    : ((check builtins prover detailed defs).run st).run.1.result = .ok ()
        ↔
      ((check builtins prover detailed defs').run st).run.1.result = .ok () := by
  have hdefs' : ∀ d ∈ defs', ∀ a ∈ d.mentioned, isDotless a = true := fun d hd => hdefs d (hperm.mem_iff.mpr hd)
  have hdistinct' : (defs'.map (·.binder.name)).Nodup := (hperm.map _).nodup hdistinct
  have hacross := paired_of_perm hperm hdistinct hdefs hbuiltins
  rw [check_iff hprover detailed st (paired_of_perm (.refl defs) hdistinct hdefs hbuiltins) hdefs,
    check_iff hprover detailed st (paired_of_perm (.refl defs') hdistinct' hdefs' hbuiltins) hdefs']
  apply and_congr
  . rw [forall₂_congr fun d hd => Definition.declares_iff hacross (hdefs d hd) 0]
    exact forall_congr' fun d => imp_congr_left hperm.mem_iff
  . rw [forall₂_congr fun d hd => Definition.proves_iff hprover hacross (hdefs d hd) 0]
    exact forall_congr' fun d => imp_congr_left hperm.mem_iff

theorem isDotless_standard : ∀ a ∈ Builtins.standard.varNames, isDotless a = true := by
  decide +kernel

/-- Count the questions, and find valid what has few constraints. -/
def hasty : Prover Nat :=
  fun p _ => do
    modify (· + 1)
    return if p.constraints.length ≤ 6 then .valid else .undecided (.gaveUp 6)

theorem hasty_ignoresNames : hasty.IgnoresNames where
  stateless _ _ _ _ := rfl
  nominal f _ p vars st := by
    change (if (p.rename f).constraints.length ≤ 6 then _ else _) = _ ↔ _
    rw [Predicate.constraints_rename, List.length_map]
    rfl

/-- Take a number apart and put it together again, and do so once more. -/
def rebuildTwice : Definition where
  binder := ⟨0, "rebuildTwice"⟩
  patterns := [.var 0 "v"]
  body := .app 0 (.var 0 "rebuild") (.app 0 (.var 0 "rebuild") (.var 0 "v"))
  scheme := rebuild.scheme

theorem accepts_any_order_rebuild
    : ((check .standard hasty false [rebuild, rebuildTwice]).run 0).run.1.result = .ok () ∧
      ((check .standard hasty false [rebuildTwice, rebuild]).run 0).run.1.result = .ok () := by
  have haccepted : ((check .standard hasty false [rebuild, rebuildTwice]).run 0).run.1.result = .ok () := by cbv
  have hdefs : ∀ d ∈ [rebuild, rebuildTwice], ∀ a ∈ d.mentioned, isDotless a = true := by decide +kernel
  refine ⟨haccepted, ?_⟩
  exact (accepts_any_order .standard hasty false _ _ 0 (.swap rebuildTwice rebuild []) (by decide) hdefs
    isDotless_standard hasty_ignoresNames).mp haccepted

end Program

end GradedModal
