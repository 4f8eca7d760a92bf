import GradedModal.Proofs.Demands
import GradedModal.Proofs.Indices
import GradedModal.Proofs.Quantifiers

/-!
This module keeps track of the type and grade variables that checking mentions: those of types, grades and contexts,
those that are free in what is collected, and those that are in scope.
-/

namespace GradedModal

open CheckM

/--
Whether a name has no dot. The names that checking makes up have one.
-/
def isDotless (name : String) : Bool :=
  !name.toList.contains '.'

theorem mem_of_lookup {α : Type} {l : List (String × α)} {name : String} {a : α} (h : l.lookup name = some a)
    : (name, a) ∈ l := by
  obtain ⟨before, after, heq, _⟩ := List.lookup_eq_some_iff.mp h
  simp [heq]

def Grade.Within (A : String → Prop) (g : Grade) : Prop :=
  ∀ x ∈ g.occurrences, A x

def Ty.Within (A : String → Prop) (ty : Ty) : Prop :=
  ∀ x ∈ ty.occurrences, A x

def Substitution.TypesWithin (A : String → Prop) (subst : Substitution) : Prop :=
  ∀ b ∈ subst, b.2.Within A

def Unified.Within (A : String → Prop) (u : Unified) : Prop :=
  u.ty.Within A ∧ u.subst.TypesWithin A

def Assumption.Within (A : String → Prop) : Assumption → Prop
  | .linear ty => ty.Within A
  | .graded ty grade => ty.Within A ∧ grade.Within A

def Context.Within (A : String → Prop) (c : Context) : Prop :=
  ∀ b ∈ c.bindings, b.2.Within A

def Predicate.Within (A : String → Prop) (p : Predicate) : Prop :=
  ∀ x, p.Free x → A x

section

variable {A B : String → Prop}

namespace Grade

variable {g h : Grade}

@[simp] theorem within_var {x : String} : (var x).Within A ↔ A x :=
  List.forall_mem_singleton

@[simp] theorem within_op {o : Op} : (op o g h).Within A ↔ g.Within A ∧ h.Within A :=
  List.forall_mem_append

@[simp] theorem within_nat {n : Nat} : (nat n).Within A :=
  List.forall_mem_nil _

@[simp] theorem within_float {x : Float} : (float x).Within A :=
  List.forall_mem_nil _

@[simp] theorem within_zero {kind : GradeKind} : (zero kind).Within A :=
  List.forall_mem_nil _

@[simp] theorem within_one {kind : GradeKind} : (one kind).Within A :=
  List.forall_mem_nil _

end Grade

namespace Ty

variable {ty a b : Ty}

@[simp] theorem within_const {n : String} : (const n).Within A :=
  List.forall_mem_nil _

@[simp] theorem within_index {n : Nat} : (index n).Within A :=
  List.forall_mem_nil _

@[simp] theorem within_var {x : String} : (var x).Within A ↔ A x :=
  List.forall_mem_singleton

@[simp] theorem within_arrow : (arrow a b).Within A ↔ a.Within A ∧ b.Within A :=
  List.forall_mem_append

@[simp] theorem within_app : (app a b).Within A ↔ a.Within A ∧ b.Within A :=
  List.forall_mem_append

@[simp] theorem within_pair : (pair a b).Within A ↔ a.Within A ∧ b.Within A :=
  List.forall_mem_append

@[simp] theorem within_op {o : Op} : (op o a b).Within A ↔ a.Within A ∧ b.Within A :=
  List.forall_mem_append

@[simp] theorem within_box {grade : Grade} : (box grade ty).Within A ↔ grade.Within A ∧ ty.Within A :=
  List.forall_mem_append

@[simp] theorem within_diamond {effects : List String} : (diamond effects ty).Within A ↔ ty.Within A :=
  Iff.rfl

theorem Within.mono (h : ty.Within A) (hAB : ∀ x, A x → B x) : ty.Within B :=
  fun x hx => hAB x (h x hx)

theorem Within.args (h : ty.Within A) : ∀ t ∈ ty.args, t.Within A := by
  induction ty with
  | arrow a b _ ih =>
    rw [within_arrow] at h
    unfold Ty.args
    rw [List.forall_mem_cons]
    exact ⟨h.1, ih h.2⟩
  | _ => simp [Ty.args]

theorem Within.result (h : ty.Within A) : ty.result.Within A := by
  induction ty with
  | arrow a b _ ih =>
    rw [within_arrow] at h
    exact ih h.2
  | _ => exact h

theorem Within.toGrade? {g : Grade} (h : ty.Within A) (hg : ty.toGrade? = some g) : g.Within A := by
  unfold Ty.Within at h
  rw [(readsAs_of_toGrade? hg).occurrences_eq] at h
  exact h

end Ty

namespace Substitution

variable {subst : Substitution}

theorem TypesWithin.lookup {x : String} {ty : Ty} (h : subst.TypesWithin A) (hx : subst.lookup x = some ty)
    : ty.Within A :=
  h _ (mem_of_lookup hx)

theorem typesWithin_nil : Substitution.TypesWithin A [] := by
  simp [TypesWithin]

theorem typesWithin_singleton {x : String} {ty : Ty} (h : ty.Within A) : Substitution.TypesWithin A [(x, ty)] := by
  simpa [TypesWithin] using h

end Substitution

theorem Grade.Within.substitute {g : Grade} {subst : Substitution} (h : g.Within A) (hsubst : subst.TypesWithin A)
    : (g.substitute subst).Within A := by
  induction g with
  | var x =>
    unfold Grade.substitute
    cases hx : subst.lookup x with
    | none => exact h
    | some ty =>
      cases hg : ty.toGrade? with
      | none => simpa [hg] using h
      | some g => simpa [hg] using (hsubst.lookup hx).toGrade? hg
  | op o g g' ihg ihg' =>
    rw [within_op] at h
    exact within_op.mpr ⟨ihg h.1, ihg' h.2⟩
  | _ => exact h

theorem Ty.Within.substitute {ty : Ty} {subst : Substitution} (h : ty.Within A) (hsubst : subst.TypesWithin A)
    : (ty.substitute subst).Within A := by
  induction ty with
  | var x =>
    unfold Ty.substitute
    cases hx : subst.lookup x with
    | none => exact h
    | some ty => exact hsubst.lookup hx
  | box grade ty ih =>
    rw [within_box] at h
    exact within_box.mpr ⟨h.1.substitute hsubst, ih h.2⟩
  | diamond effects ty ih =>
    rw [within_diamond] at h
    exact within_diamond.mpr (ih h)
  | arrow a b iha ihb =>
    rw [within_arrow] at h
    exact within_arrow.mpr ⟨iha h.1, ihb h.2⟩
  | app a b iha ihb =>
    rw [within_app] at h
    exact within_app.mpr ⟨iha h.1, ihb h.2⟩
  | pair a b iha ihb =>
    rw [within_pair] at h
    exact within_pair.mpr ⟨iha h.1, ihb h.2⟩
  | op o a b iha ihb =>
    rw [within_op] at h
    exact within_op.mpr ⟨iha h.1, ihb h.2⟩
  | _ => exact h

theorem Assumption.Within.mono {a : Assumption} (h : a.Within A) (hAB : ∀ x, A x → B x) : a.Within B := by
  cases a with
  | linear ty => exact Ty.Within.mono h hAB
  | graded ty grade => exact ⟨h.1.mono hAB, fun x hx => hAB x (h.2 x hx)⟩

theorem Assumption.Within.scale {a : Assumption} {grade : Grade} (h : a.Within A) (hgrade : grade.Within A)
    : (a.scale grade).Within A := by
  cases a with
  | linear ty => exact ⟨h, hgrade⟩
  | graded ty used => exact ⟨h.1, Grade.within_op.mpr ⟨hgrade, h.2⟩⟩

namespace Context

variable {c d : Context} {x : String} {a : Assumption}

theorem Within.mono (h : c.Within A) (hAB : ∀ x, A x → B x) : c.Within B :=
  fun b hb => (h b hb).mono hAB

theorem Within.lookup? (h : c.Within A) (hx : c.lookup? x = some a) : a.Within A := by
  unfold Context.lookup? at hx
  exact h _ (mem_of_lookup hx)

theorem within_empty : empty.Within A := by
  simp [Within, empty]

theorem Within.filter (h : c.Within A) (keep : String → Assumption → Bool) : (c.filter keep).Within A :=
  fun b hb => h b (List.mem_filter.mp hb).1

theorem Within.bind (h : c.Within A) (ha : a.Within A) : (c.bind x a).Within A := by
  unfold Within Context.bind
  rw [List.forall_mem_append, List.forall_mem_singleton]
  exact ⟨h.filter _, ha⟩

theorem within_singleton (ha : a.Within A) : (singleton x a).Within A :=
  within_empty.bind ha

theorem Within.foldl_bind {bindings : List (String × Assumption)} (h : c.Within A)
    (hbindings : ∀ b ∈ bindings, b.2.Within A)
    : (bindings.foldl (fun c (x, a) => c.bind x a) c).Within A := by
  induction bindings generalizing c with
  | nil => exact h
  | cons b bindings ih =>
    rw [List.forall_mem_cons] at hbindings
    exact ih (h.bind hbindings.1) hbindings.2

theorem Within.bindAll (h : c.Within A) (hd : d.Within A) : (c.bindAll d).Within A :=
  h.foldl_bind hd

theorem Within.scale {grade : Grade} (h : c.Within A) (hgrade : grade.Within A) (vars : List String)
    : (c.scale vars grade).Within A := by
  unfold Within Context.scale
  simp only [List.forall_mem_map]
  exact fun b hb => (h.filter _ b hb).scale hgrade

end Context

namespace Predicate

theorem within_atom {pos : Nat} {relation : Relation} {left right : Grade} {kind : GradeKind} (hleft : left.Within A)
    (hright : right.Within A) : (atom ⟨pos, relation, left, right, kind⟩).Within A := by
  intro x hx
  unfold Free at hx
  simp only [Constraint.mentions, Constraint.vars, List.contains_eq_mem, decide_eq_true_eq, List.mem_eraseDups,
    List.mem_append] at hx
  exact hx.elim (hleft x) (hright x)

theorem within_conj {ps : List Predicate} : (conj ps).Within A ↔ ∀ p ∈ ps, p.Within A := by
  unfold Within
  constructor
  . intro h p hp x hx
    exact h x (freeInSome_iff.mpr ⟨p, hp, hx⟩)
  . intro h x hx
    obtain ⟨p, hp, hx⟩ := freeInSome_iff.mp hx
    exact h p hp x hx

-- The variables that an implication binds need not have the property.
theorem within_impl {bound : List (String × Kind)} {antecedent consequent : Predicate}
    (hB : ∀ x, B x → A x ∨ x ∈ bound.map (·.1)) (hantecedent : antecedent.Within B) (hconsequent : consequent.Within B)
    : (impl bound antecedent consequent).Within A := by
  rintro x ⟨hbound, hx⟩
  have hBx := hx.elim (hantecedent x) (hconsequent x)
  exact (hB x hBx).resolve_right hbound

theorem Within.mono {p : Predicate} (h : p.Within A) (hAB : ∀ x, A x → B x) : p.Within B :=
  fun x hx => hAB x (h x hx)

end Predicate

end

namespace State

/--
A property of names holds of all names without a dot, and of all variables in scope but those that patterns bind in
place of grades.
-/
structure Allows (s : State) (A : String → Prop) : Prop where
  dotless : ∀ x, isDotless x = true → A x
  vars : ∀ v ∈ s.typeVars, v.quantifier = .instantiated ∨ v.kind.gradeKind? = none → A v.name

structure Collects (A : String → Prop) (s s' : State) : Prop where
  reaches : s.Reaches s'
  within : ∀ p ∈ s.added s', p.Within A

variable {A B : String → Prop} {s s₁ s₂ s' : State}

theorem Allows.of_reaches (h : s'.Allows A) (hs : s.Reaches s') : s.Allows A where
  dotless := h.dotless
  vars v hv := h.vars v (hs.mem_typeVars hv)

theorem Allows.mono (h : s.Allows A) (hAB : ∀ x, A x → B x) : s.Allows B where
  dotless x hx := hAB x (h.dotless x hx)
  vars v hv hkind := hAB v.name (h.vars v hv hkind)

namespace Collects

theorem of_current_eq (h : s.Reaches s') (hcurrent : s'.current = s.current) : s.Collects A s' where
  reaches := h
  within := by
    simp [added, hcurrent]

theorem refl : s.Collects A s :=
  of_current_eq .refl rfl

theorem trans (h₁ : s.Collects A s₁) (h₂ : s₁.Collects A s₂) : s.Collects A s₂ where
  reaches := h₁.reaches.trans h₂.reaches
  within := by
    rw [h₁.reaches.extends.added_append h₂.reaches.extends, List.forall_mem_append]
    exact ⟨h₁.within, h₂.within⟩

theorem mono (h : s.Collects A s') (hAB : ∀ x, A x → B x) : s.Collects B s' where
  reaches := h.reaches
  within p hp := (h.within p hp).mono hAB

-- What is collected inside may mention the variables that the implication binds.
theorem imply {s₃ s₄ s₅ : State} {bound : List (String × Kind)} (hopen : openScope s = .ok () s₁)
    (hantecedent : s₁.Collects B s₂) (henter : enterConsequent s₂ = .ok () s₃) (hconsequent : s₃.Collects B s₄)
    (hclose : closeScope bound s₄ = .ok () s₅) (hB : ∀ x, B x → A x ∨ x ∈ bound.map (·.1)) : s.Collects A s₅ where
  reaches := .imply .refl hopen hantecedent.reaches henter hconsequent.reaches hclose
  within := by
    rw [added_imply hopen hantecedent.reaches henter hconsequent.reaches hclose, List.forall_mem_singleton]
    exact Predicate.within_impl hB (Predicate.within_conj.mpr hantecedent.within)
      (Predicate.within_conj.mpr hconsequent.within)

end Collects

end State

/--
If the hypothesis holds, a check that succeeds collects only predicates whose free variables have the property `A`,
and its result satisfies a condition. All variables that it brings into scope for the solver have to have the property.
-/
def CheckM.Confines (H : Prop) (A : String → Prop) {α : Type} (x : CheckM α) (Q : α → Prop) : Prop :=
  ∀ ⦃s s' : State⦄ ⦃a : α⦄, x s = .ok a s' → s.Reaches s' ∧ (s'.Allows A → H → s.Collects A s' ∧ Q a)

namespace CheckM

variable {α β : Type} {H H' : Prop} {A : String → Prop} {P Q : α → Prop} {R : β → Prop}

theorem Confines.collects {x : CheckM α} (h : Confines True A x Q) {s s' : State} {a : α} (hx : x s = .ok a s')
    (hs' : s'.Allows A) : s.Collects A s' ∧ Q a :=
  (h hx).2 hs' trivial

theorem Confines.imp {x : CheckM α} (h : Confines H A x P) (hH : H' → H) (hQ : ∀ a, H' → P a → Q a)
    : Confines H' A x Q := by
  intro s s' a hx
  obtain ⟨hreaches, hcollects⟩ := h hx
  refine ⟨hreaches, fun hs' hH' => ?_⟩
  obtain ⟨hcollects, ha⟩ := hcollects hs' (hH hH')
  exact ⟨hcollects, hQ a hH' ha⟩

theorem confines_pure {a : α} (ha : H → Q a) : Confines H A (pure a) Q := by
  intro s s' b h
  rw [pure_eq_ok] at h
  obtain ⟨rfl, rfl⟩ := h
  exact ⟨.refl, fun _ hH => ⟨.refl, ha hH⟩⟩

theorem confines_fail {pos : Nat} {cause : Cause} : Confines H A (fail pos cause : CheckM α) Q := by
  intro s s' a h
  rw [fail_eq_ok] at h
  exact h.elim

theorem confines_fail_bind {pos : Nat} {cause : Cause} {f : β → CheckM α}
    : Confines H A (fail pos cause >>= f) Q := by
  intro s s' a h
  simp only [bind_eq_ok, fail_eq_ok, false_and, exists_false] at h

-- The variables that the first check mentions are in scope for the second one.
theorem confines_bind {x : CheckM α} {f : α → CheckM β} (hx : Confines H A x P)
    (hf : ∀ a, Confines (H ∧ P a) A (f a) R) : Confines H A (x >>= f) R := by
  intro s s' b h
  rw [bind_eq_ok] at h
  obtain ⟨a, s₁, hxs, hfs⟩ := h
  obtain ⟨hs₁, hxcollects⟩ := hx hxs
  obtain ⟨hs', hfcollects⟩ := hf a hfs
  refine ⟨hs₁.trans hs', fun hallows hH => ?_⟩
  obtain ⟨hcollects, ha⟩ := hxcollects (hallows.of_reaches hs') hH
  obtain ⟨hcollects', hb⟩ := hfcollects hallows ⟨hH, ha⟩
  exact ⟨hcollects.trans hcollects', hb⟩

theorem confines_map {x : CheckM α} {f : α → β} (hx : Confines H A x P) (hf : ∀ a, H → P a → R (f a))
    : Confines H A (f <$> x) R := by
  intro s s' b h
  rw [map_eq_ok] at h
  obtain ⟨a, hxs, rfl⟩ := h
  exact hx.imp id hf hxs

theorem confines_ite {p : Prop} [Decidable p] {x y : CheckM α} (hx : Confines H A x Q) (hy : Confines H A y Q)
    : Confines H A (if p then x else y) Q := by
  split
  . exact hx
  . exact hy

theorem confines_mapError {f : Error → Error} {x : CheckM α} (hx : Confines H A x Q)
    : Confines H A (mapError f x) Q := by
  intro s s' a h
  rw [mapError_eq_ok] at h
  exact hx h

theorem confines_forM {l : List α} {f : α → CheckM PUnit} (hf : ∀ a ∈ l, Confines H A (f a) fun _ => True)
    : Confines H A (l.forM f) fun _ => True := by
  rw [List.forM_eq_forM]
  induction l with
  | nil => exact confines_pure fun _ => trivial
  | cons a l ih =>
    rw [List.forall_mem_cons] at hf
    rw [List.forM_cons]
    exact confines_bind hf.1 fun _ => (ih hf.2).imp And.left fun _ _ h => h

theorem confines_mapM {l : List α} {f : α → CheckM β} (hf : ∀ a ∈ l, Confines H A (f a) R)
    : Confines H A (l.mapM f) fun bs => ∀ b ∈ bs, R b := by
  induction l with
  | nil => exact confines_pure fun _ => by simp
  | cons a l ih =>
    rw [List.forall_mem_cons] at hf
    rw [List.mapM_cons]
    apply confines_bind hf.1
    intro b
    apply confines_bind ((ih hf.2).imp And.left fun _ _ h => h)
    intro bs
    exact confines_pure fun ⟨⟨_, hb⟩, hbs⟩ => List.forall_mem_cons.mpr ⟨hb, hbs⟩

theorem confines_filterMapM {l : List α} {f : α → CheckM (Option β)}
    (hf : ∀ a ∈ l, Confines H A (f a) fun o => ∀ b, o = some b → R b)
    : Confines H A (l.filterMapM f) fun bs => ∀ b ∈ bs, R b := by
  induction l with
  | nil => exact confines_pure fun _ => by simp
  | cons a l ih =>
    rw [List.forall_mem_cons] at hf
    rw [List.filterMapM_cons]
    apply confines_bind hf.1
    intro o
    cases o with
    | none => exact (ih hf.2).imp And.left fun _ _ h => h
    | some b =>
      apply confines_bind ((ih hf.2).imp And.left fun _ _ h => h)
      intro bs
      exact confines_pure fun ⟨⟨_, hb⟩, hbs⟩ => List.forall_mem_cons.mpr ⟨hb b rfl, hbs⟩

theorem confines_foldlM {l : List α} {f : β → α → CheckM β} {b : β} (hb : H → R b)
    (hf : ∀ b, ∀ a ∈ l, Confines (H ∧ R b) A (f b a) R) : Confines H A (l.foldlM f b) R := by
  induction l generalizing b H with
  | nil => exact confines_pure hb
  | cons a l ih =>
    rw [List.foldlM_cons]
    have hfirst := hf b a (by simp)
    apply confines_bind (hfirst.imp (fun hH => ⟨hH, hb hH⟩) fun _ _ h => h)
    intro b'
    apply ih And.right
    intro b'' a' ha'
    exact (hf b'' a' (by simp [ha'])).imp (fun h => ⟨h.1.1, h.2⟩) fun _ _ h => h

-- A check that collects nothing is confined, whatever it is given.
theorem confines_of_quiet {x : CheckM α} (hx : Quiet x) : Confines H A x fun _ => True := by
  intro s s' a h
  have hs' := hx h
  exact ⟨hs'.reaches, fun _ _ => ⟨.of_current_eq hs'.reaches (State.current_congr hs'.predicate hs'.scopes), trivial⟩⟩

theorem confines_freshName (hint : String) : Confines H A (freshName hint) fun _ => True :=
  confines_of_quiet (quiet_freshName _)

theorem confines_freshTypeVar (hint : String) (kind : Kind) (quantifier : Quantifier)
    : Confines H A (freshTypeVar hint kind quantifier) fun name =>
        quantifier = .instantiated ∨ kind.gradeKind? = none → A name := by
  intro s s' name h
  have hs' := (quiet_freshTypeVar _ _ _ h).reaches
  cases h
  exact ⟨hs', fun hallows _ => ⟨.of_current_eq hs' rfl, hallows.vars _ (List.mem_cons_self ..)⟩⟩

theorem confines_freshGrade (hint : String) (kind : GradeKind)
    : Confines H A (freshGrade hint kind) (Grade.Within A) := by
  unfold freshGrade
  apply confines_bind (confines_freshTypeVar _ _ _)
  intro name
  exact confines_pure fun ⟨_, hname⟩ => Grade.within_var.mpr (hname (.inl rfl))

theorem confines_freshGradeKind (hint : String) : Confines H A (freshGradeKind hint) fun _ => True :=
  confines_bind (confines_freshName _) fun _ => confines_pure fun _ => trivial

theorem confines_constrain {pos : Nat} {relation : Relation} {left right : Grade} {kind : GradeKind}
    (hleft : H → left.Within A) (hright : H → right.Within A)
    : Confines H A (constrain ⟨pos, relation, left, right, kind⟩) fun _ => True := by
  intro s s' _ h
  have hs' := reaching_constrain _ h
  cases h
  refine ⟨hs', fun _ hH => ⟨⟨hs', ?_⟩, trivial⟩⟩
  change ∀ p ∈ s.added (s.add _), p.Within A
  rw [State.added_add, List.forall_mem_singleton]
  exact Predicate.within_atom (hleft hH) (hright hH)

theorem confines_typeVar (pos : Nat) (name : String) : Confines H A (typeVar pos name) fun _ => True :=
  confines_of_quiet (quiet_typeVar _ _)

end CheckM

end GradedModal
