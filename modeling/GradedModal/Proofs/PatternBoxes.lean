import Mathlib
import GradedModal.Proofs.Frame
import GradedModal.Proofs.KindSolutions
import GradedModal.Proofs.PatternRepeats
import GradedModal.Proofs.Remainder
import GradedModal.Proofs.Saturation

/-!
This module describes the context of a pattern by the places of its variables. The grade of a variable is the product of
the grades of the boxes around it, as they are in the types that the parts of the pattern meet.
-/

namespace GradedModal

open CheckM

namespace Grade

def product (g : Grade) : List Grade → Grade
  | [] => g
  | h :: gs => .op .times g (product h gs)

/--
The value of a grade is the product of the values of others, all of which it needs. A product of words stops at the
largest word.
-/
structure IsProduct (g : Grade) (gs : List Grade) : Prop where
  defined : ∀ kind a v, g.evaluate kind a = .ok v → ∀ h ∈ gs, ∃ w, h.evaluate kind a = .ok w
  nat : ∀ a ns, List.Forall₂ (fun h n => h.evaluate .nat a = .ok (.nat n) ∧ n ≤ maxWord) gs ns →
    g.evaluate .nat a = .ok (.nat (min ns.prod maxWord))
  level : ∀ a ls, List.Forall₂ (fun h l => h.evaluate .level a = .ok (.level l)) gs ls →
    g.evaluate .level a = .ok (.level (ls.foldr Level.times .one))

theorem isProduct_product (g : Grade) (gs : List Grade) : (g.product gs).IsProduct (g :: gs) := by
  induction gs generalizing g with
  | nil =>
    refine ⟨?_, ?_, ?_⟩
    . intro kind a v hv h hh
      obtain rfl := List.mem_singleton.mp hh
      exact ⟨v, hv⟩
    . intro a ns hns
      obtain ⟨n, _, ⟨hg, hn⟩, ⟨⟩, rfl⟩ := List.forall₂_cons_left_iff.mp hns
      rw [List.prod_singleton, min_eq_left hn]
      exact hg
    . intro a ls hls
      obtain ⟨l, _, hg, ⟨⟩, rfl⟩ := List.forall₂_cons_left_iff.mp hls
      have hone : l.times .one = l := by
        cases l <;> rfl
      rw [List.foldr_cons, List.foldr_nil, hone]
      exact hg
  | cons h gs ih =>
    refine ⟨?_, ?_, ?_⟩
    . intro kind a v hv
      obtain ⟨w, u, hg, hrest, _⟩ := evaluate_op_eq_ok.mp hv
      exact List.forall_mem_cons.mpr ⟨⟨w, hg⟩, (ih h).defined kind a u hrest⟩
    . intro a ns hns
      obtain ⟨n, ns, ⟨hg, _⟩, hrest, rfl⟩ := List.forall₂_cons_left_iff.mp hns
      unfold product evaluate
      rw [hg, (ih h).nat a ns hrest, List.prod_cons, ← min_mul_min_right]
      rfl
    . intro a ls hls
      obtain ⟨l, ls, hg, hrest, rfl⟩ := List.forall₂_cons_left_iff.mp hls
      unfold product evaluate
      rw [hg, (ih h).level a ls hrest]
      rfl

end Grade

/--
What is assumed about a variable of a type inside of boxes, the outermost first.
-/
def Assumption.inside (ty : Ty) : List Grade → Assumption
  | [] => .linear ty
  | g :: gs => (inside ty gs).scale g

theorem Assumption.inside_cons (ty : Ty) (g : Grade) (gs : List Grade)
    : inside ty (g :: gs) = .graded ty (g.product gs) := by
  induction gs generalizing g with
  | nil => rfl
  | cons h gs ih =>
    unfold inside
    rw [ih]
    rfl

namespace Context

variable {pos : Nat} {left right : Context}

-- No use meets an earlier one, so that all of them are appended.
theorem combine_of_disjoint (hnodup : left.names.Nodup) (hdisjoint : ∀ x ∈ left.names, x ∉ right.names) (s : State)
    : combine pos left right s = .ok ⟨right.bindings ++ left.bindings⟩ s := by
  obtain ⟨bindings⟩ := left
  unfold combine
  unfold names at hnodup hdisjoint
  dsimp only at hnodup hdisjoint ⊢
  induction bindings generalizing right with
  | nil =>
    rw [List.append_nil]
    rfl
  | cons b bindings ih =>
    rw [List.map_cons, List.nodup_cons] at hnodup
    rw [List.map_cons, List.forall_mem_cons] at hdisjoint
    have hextend : extend pos right b.1 b.2 s = .ok ⟨right.bindings ++ [b]⟩ s := by
      unfold extend
      rw [lookup?_eq_none_iff.mpr hdisjoint.1]
      rfl
    have hrest : ∀ x ∈ bindings.map (·.1), x ∉ (right.bindings ++ [b]).map (·.1) := by
      intro x hx
      rw [List.map_append, List.mem_append, not_or, List.map_singleton, List.mem_singleton]
      refine ⟨hdisjoint.2 x hx, ?_⟩
      rintro rfl
      exact hnodup.1 hx
    rw [List.foldlM_cons, bind_of_ok hextend, @ih ⟨right.bindings ++ [b]⟩ hnodup.2 hrest, List.append_assoc]
    rfl

end Context

def State.KeepsTypeVars (s s' : State) : Prop :=
  s'.typeVars = s.typeVars

instance : Std.Refl State.KeepsTypeVars where
  refl _ := rfl

instance : Trans State.KeepsTypeVars State.KeepsTypeVars State.KeepsTypeVars where
  trans h₁ h₂ := Eq.trans h₂ h₁

theorem Ty.equal_keepsTypeVars (env : Env) (pos : Nat) (left right : Ty)
    : Along State.KeepsTypeVars (left.equal env pos right) :=
  fun _ _ _ h => (Unify.compared_of_relate h).2

theorem Substitution.combine_keepsTypeVars (env : Env) (pos : Nat) (first second : Substitution)
    : Along State.KeepsTypeVars (Substitution.combine env pos first second) :=
  Unify.merge_closed closed_along (Ty.equal_keepsTypeVars env pos) _ _ _

namespace Pattern

mutual

/--
A pattern that is matched against a type binds a variable to a value of type `content`, inside of boxes with the given
grades, the outermost first. What a part of the pattern is matched against depends on what earlier parts have taught.
-/
inductive BindsInside (env : Env) : Pattern → Ty → State → String → Ty → List Grade → Prop where
  | var {pos : Nat} {x : String} {ty : Ty} {s : State} : BindsInside env (.var pos x) ty s x ty []
  | wildcard {pos : Nat} {ty : Ty} {s : State} :
    BindsInside env (.wildcard pos) ty s ("_." ++ toString s.nextFresh) ty []
  | box {pos : Nat} {inner : Pattern} {grade : Grade} {ty content : Ty} {s : State} {x : String} {boxes : List Grade} :
    BindsInside env inner ty s x content boxes →
      BindsInside env (.box pos inner) (.box grade ty) s x content (grade :: boxes)
  | left {pos : Nat} {a b : Pattern} {aTy bTy content : Ty} {s : State} {x : String} {boxes : List Grade} :
    BindsInside env a aTy s x content boxes → BindsInside env (.pair pos a b) (.pair aTy bTy) s x content boxes
  | right {pos : Nat} {a b : Pattern} {aTy bTy content : Ty} {s s₁ : State} {x : String} {boxes : List Grade}
      {left : Matched} :
    a.matchTy env aTy s = .ok left s₁ → BindsInside env b (bTy.substitute left.subst) s₁ x content boxes →
      BindsInside env (.pair pos a b) (.pair aTy bTy) s x content boxes
  | constructor {pos : Nat} {name : String} {args : List Pattern} {ty constructorTy content : Ty} {s s₁ s₂ : State}
      {x : String} {boxes : List Grade} {scheme : Scheme} {existentials : List (String × Kind)} {unified : Unified} :
    env.builtins.constructors.lookup name = some scheme →
      scheme.refresh .patternBound s = .ok (existentials, constructorTy) s₁ →
      constructorTy.result.equal env pos ty s₁ = .ok unified s₂ →
      ArgsBindInside env pos args constructorTy.args ⟨.empty, existentials, unified.subst⟩ s₂ x content boxes →
      BindsInside env (.constructor pos name args) ty s x content boxes

/--
One of the arguments of a constructor binds a variable inside of boxes.
-/
inductive ArgsBindInside (env : Env) :
    Nat → List Pattern → List Ty → Matched → State → String → Ty → List Grade → Prop where
  | head {pos : Nat} {p : Pattern} {ps : List Pattern} {ty content : Ty} {tys : List Ty} {matched : Matched}
      {s : State} {x : String} {boxes : List Grade} :
    BindsInside env p (ty.substitute matched.subst) s x content boxes →
      ArgsBindInside env pos (p :: ps) (ty :: tys) matched s x content boxes
  | tail {pos : Nat} {p : Pattern} {ps : List Pattern} {ty content : Ty} {tys : List Ty}
      {matched arg merged : Matched} {s s₁ s₂ : State} {x : String} {boxes : List Grade} :
    p.matchTy env (ty.substitute matched.subst) s = .ok arg s₁ → matched.merge env pos arg s₁ = .ok merged s₂ →
      ArgsBindInside env pos ps tys merged s₂ x content boxes →
      ArgsBindInside env pos (p :: ps) (ty :: tys) matched s x content boxes

end

section

variable {env : Env} {pos : Nat} {s s₁ s₂ : State} {x : String} {content : Ty} {boxes : List Grade}

theorem bindsInside_box {inner : Pattern} {grade : Grade} {ty : Ty}
    : BindsInside env (.box pos inner) (.box grade ty) s x content boxes ↔
        ∃ rest, boxes = grade :: rest ∧ BindsInside env inner ty s x content rest := by
  constructor
  . intro h
    cases h with
    | box h => exact ⟨_, rfl, h⟩
  . rintro ⟨rest, rfl, h⟩
    exact .box h

theorem bindsInside_pair {a b : Pattern} {aTy bTy : Ty} {left : Matched} (hleft : a.matchTy env aTy s = .ok left s₁)
    : BindsInside env (.pair pos a b) (.pair aTy bTy) s x content boxes ↔
        BindsInside env a aTy s x content boxes ∨
          BindsInside env b (bTy.substitute left.subst) s₁ x content boxes := by
  constructor
  . intro h
    cases h with
    | left h => exact .inl h
    | right hleft' h =>
      cases hleft.symm.trans hleft'
      exact .inr h
  . rintro (h | h)
    . exact .left h
    . exact .right hleft h

theorem bindsInside_constructor {name : String} {args : List Pattern} {ty constructorTy : Ty} {scheme : Scheme}
    {existentials : List (String × Kind)} {unified : Unified}
    (hscheme : env.builtins.constructors.lookup name = some scheme)
    (hrefresh : scheme.refresh .patternBound s = .ok (existentials, constructorTy) s₁)
    (hequal : constructorTy.result.equal env pos ty s₁ = .ok unified s₂)
    : BindsInside env (.constructor pos name args) ty s x content boxes ↔
        ArgsBindInside env pos args constructorTy.args ⟨.empty, existentials, unified.subst⟩ s₂ x content boxes := by
  constructor
  . intro h
    cases h with
    | constructor hscheme' hrefresh' hequal' h =>
      cases hscheme.symm.trans hscheme'
      cases hrefresh.symm.trans hrefresh'
      cases hequal.symm.trans hequal'
      exact h
  . exact .constructor hscheme hrefresh hequal

theorem argsBindInside_cons {p : Pattern} {ps : List Pattern} {ty : Ty} {tys : List Ty} {matched arg merged : Matched}
    (harg : p.matchTy env (ty.substitute matched.subst) s = .ok arg s₁)
    (hmerge : matched.merge env pos arg s₁ = .ok merged s₂)
    : ArgsBindInside env pos (p :: ps) (ty :: tys) matched s x content boxes ↔
        BindsInside env p (ty.substitute matched.subst) s x content boxes ∨
          ArgsBindInside env pos ps tys merged s₂ x content boxes := by
  constructor
  . intro h
    cases h with
    | head h => exact .inl h
    | tail harg' hmerge' h =>
      cases harg.symm.trans harg'
      cases hmerge.symm.trans hmerge'
      exact .inr h
  . rintro (h | h)
    . exact .head h
    . exact .tail harg hmerge h

end

-- The names of wildcards are made up from an underscore.
theorem isDotless_wildcardName (k : Nat) : isDotless ("_." ++ toString k) = false := by
  rw [show "_." = "_" ++ "." by decide]
  exact isDotless_freshName

theorem wildcardName_inj {k k' : Nat} (h : "_." ++ toString k = "_." ++ toString k') : k = k' := by
  rw [show "_." = "_" ++ "." by decide] at h
  exact freshName_inj h

/--
A match binds the given variables and, for each wildcard, a name that was made up on the way from one state to another.
Its assumptions are those of the places that satisfy `P`, and its existentials are the type variables that were put in
scope on the way.
-/
structure Describes (P : String → Ty → List Grade → Prop) (vars : List String) (wildcards : Nat) (s s' : State)
    (m : Matched) : Prop where
  nodup : m.context.names.Nodup
  names : ∃ fresh : List Nat, fresh.length = wildcards ∧ (∀ k ∈ fresh, s.nextFresh ≤ k ∧ k < s'.nextFresh) ∧
    m.context.names.Perm (vars ++ fresh.map fun k => "_." ++ toString k)
  bindings : ∀ x a, (x, a) ∈ m.context.bindings ↔ ∃ ty boxes, P x ty boxes ∧ a = .inside ty boxes
  scope : s'.typeVars = (m.existentials.map fun b => ⟨b.1, b.2, .patternBound⟩).reverse ++ s.typeVars

section

variable {env : Env} {pos : Nat} {P P' Q : String → Ty → List Grade → Prop} {vars vars' : List String} {n n' : Nat}
variable {s s₁ s₂ s' : State} {left right m : Matched}

theorem Describes.congr (h : Describes P vars n s s' m) (hPQ : ∀ x ty boxes, P x ty boxes ↔ Q x ty boxes)
    : Describes Q vars n s s' m :=
  ⟨h.nodup, h.names, by simpa only [hPQ] using h.bindings, h.scope⟩

theorem Describes.mem_names (h : Describes P vars n s s' m) {x : String} (hx : x ∈ m.context.names)
    : x ∈ vars ∨ ∃ k, s.nextFresh ≤ k ∧ k < s'.nextFresh ∧ x = "_." ++ toString k := by
  obtain ⟨fresh, _, hfresh, hperm⟩ := h.names
  rw [hperm.mem_iff, List.mem_append, List.mem_map] at hx
  obtain hx | ⟨k, hk, rfl⟩ := hx
  . exact .inl hx
  . exact .inr ⟨k, (hfresh k hk).1, (hfresh k hk).2, rfl⟩

theorem Describes.disjoint (hleft : Describes P vars n s s₁ left) (hright : Describes P' vars' n' s₁ s₂ right)
    (hvars : (vars ++ vars').Nodup) (hdotless : ∀ x ∈ vars ++ vars', isDotless x = true)
    : ∀ x ∈ left.context.names, x ∉ right.context.names := by
  intro x hx hx'
  obtain hx | ⟨k, _, hlt, rfl⟩ := hleft.mem_names hx
  . obtain hx' | ⟨k', _, _, rfl⟩ := hright.mem_names hx'
    . exact List.disjoint_of_nodup_append hvars hx hx'
    . have hdot := hdotless _ (List.mem_append_left _ hx)
      rw [isDotless_wildcardName] at hdot
      cases hdot
  . obtain hx' | ⟨k', hle, _, heq⟩ := hright.mem_names hx'
    . have hdot := hdotless _ (List.mem_append_right _ hx')
      rw [isDotless_wildcardName] at hdot
      cases hdot
    . have hk := wildcardName_inj heq
      omega

theorem Describes.merge (hleft : Describes P vars n s s₁ left) (hright : Describes P' vars' n' s₁ s₂ right)
    (hvars : (vars ++ vars').Nodup) (hdotless : ∀ x ∈ vars ++ vars', isDotless x = true)
    (hs₁ : s.nextFresh ≤ s₁.nextFresh) (hs₂ : s₁.nextFresh ≤ s₂.nextFresh)
    (h : left.merge env pos right s₂ = .ok m s')
    : Describes (fun x ty boxes => P x ty boxes ∨ P' x ty boxes) (vars ++ vars') (n + n') s s' m := by
  have hs' := (Matched.merge_reaching _ _ _ _ h).nextFresh_le
  obtain ⟨context, subst, s₃, hcombine, hsubst, rfl⟩ := Matched.merge_eq_ok h
  have hnodup := Context.nodup_names_combine hright.nodup hcombine
  rw [Context.combine_of_disjoint hleft.nodup (hleft.disjoint hright hvars hdotless)] at hcombine
  cases hcombine
  obtain ⟨fresh, hlength, hfresh, hperm⟩ := hleft.names
  obtain ⟨fresh', hlength', hfresh', hperm'⟩ := hright.names
  refine ⟨hnodup, ⟨fresh ++ fresh', ?_, ?_, ?_⟩, ?_, ?_⟩
  . rw [List.length_append, hlength, hlength']
  . rw [List.forall_mem_append]
    constructor
    . intro k hk
      have := hfresh k hk
      omega
    . intro k hk
      have := hfresh' k hk
      omega
  . unfold Context.names at hperm hperm' ⊢
    rw [List.map_append, List.map_append, List.append_assoc]
    apply List.perm_append_comm.trans
    apply (hperm.append hperm').trans
    rw [List.append_assoc]
    exact List.perm_append_comm_assoc _ _ _ |>.append_left vars
  . intro x a
    rw [List.mem_append, hleft.bindings, hright.bindings]
    simp only [or_and_right, exists_or]
    exact or_comm
  . have hscope : s'.typeVars = s₂.typeVars := Substitution.combine_keepsTypeVars _ _ _ _ hsubst
    rw [hscope, hright.scope, hleft.scope, List.map_append, List.reverse_append, List.append_assoc]

theorem Describes.box (h : Describes P vars n s s' m) (grade : Grade)
    : Describes (fun x ty boxes => ∃ rest, boxes = grade :: rest ∧ P x ty rest) vars n s s'
        { m with context := m.context.scale m.context.names grade } := by
  have hnames := m.context.names_scale_names grade
  refine ⟨?_, ?_, ?_, h.scope⟩
  . rw [hnames]
    exact h.nodup
  . rw [hnames]
    exact h.names
  . intro x a
    rw [m.context.scale_names grade, List.mem_map]
    constructor
    . rintro ⟨⟨y, b⟩, hb, ⟨⟩⟩
      obtain ⟨ty, boxes, hP, rfl⟩ := (h.bindings y b).mp hb
      exact ⟨ty, grade :: boxes, ⟨boxes, rfl, hP⟩, rfl⟩
    . rintro ⟨ty, _, ⟨boxes, rfl, hP⟩, rfl⟩
      exact ⟨(x, .inside ty boxes), (h.bindings x _).mpr ⟨ty, boxes, hP, rfl⟩, rfl⟩

theorem describes_empty {existentials : List (String × Kind)} {subst : Substitution} (hP : ∀ x ty boxes, ¬P x ty boxes)
    (hscope : s'.typeVars = (existentials.map fun b => ⟨b.1, b.2, .patternBound⟩).reverse ++ s.typeVars)
    : Describes P [] 0 s s' ⟨.empty, existentials, subst⟩ where
  nodup := List.nodup_nil
  names := ⟨[], rfl, List.forall_mem_nil _, List.Perm.refl _⟩
  bindings x a := by simp [Context.empty, hP]
  scope := hscope

theorem describes_singleton {x : String} {ty : Ty} (fresh : List Nat)
    (hP : ∀ y content boxes, P y content boxes ↔ y = x ∧ content = ty ∧ boxes = [])
    (hx : [x] = vars ++ fresh.map fun k => "_." ++ toString k)
    (hfresh : ∀ k ∈ fresh, s.nextFresh ≤ k ∧ k < s'.nextFresh) (hscope : s'.typeVars = s.typeVars)
    : Describes P vars fresh.length s s' (.ofContext (.singleton x (.linear ty))) where
  nodup := List.nodup_singleton x
  names := ⟨fresh, rfl, hfresh, List.Perm.of_eq hx⟩
  bindings y a := by
    have hmem : (y, a) ∈ (Context.singleton x (.linear ty)).bindings ↔ y = x ∧ a = .linear ty := by
      simp [Context.singleton, Context.bind, Context.remove, Context.filter, Context.empty]
    rw [Matched.ofContext, hmem]
    constructor
    . rintro ⟨rfl, rfl⟩
      exact ⟨ty, [], (hP _ _ _).mpr ⟨rfl, rfl, rfl⟩, rfl⟩
    . rintro ⟨content, boxes, hplace, rfl⟩
      obtain ⟨rfl, rfl, rfl⟩ := (hP _ _ _).mp hplace
      exact ⟨rfl, rfl⟩
  scope := hscope

end

mutual

theorem matchTy_describes {env : Env} {p : Pattern} {ty : Ty} {m : Matched} {s s' : State}
    (hvars : p.boundVars.Nodup) (hdotless : ∀ x ∈ p.boundVars, isDotless x = true)
    (h : p.matchTy env ty s = .ok m s')
    : Describes (p.BindsInside env ty s) p.boundVars p.wildcards s s' m := by
  cases p with
  | var pos name =>
    unfold matchTy at h
    rw [pure_eq_ok] at h
    obtain ⟨rfl, rfl⟩ := h
    unfold boundVars wildcards
    apply describes_singleton [] _ rfl (List.forall_mem_nil _) rfl
    intro y content boxes
    constructor
    . rintro ⟨⟩
      exact ⟨rfl, rfl, rfl⟩
    . rintro ⟨rfl, rfl, rfl⟩
      exact .var
  | wildcard pos =>
    obtain ⟨rfl, rfl⟩ := matchTy_wildcard h
    unfold boundVars wildcards
    refine describes_singleton [s.nextFresh] ?_ rfl ?_ rfl
    . intro y content boxes
      constructor
      . rintro ⟨⟩
        exact ⟨rfl, rfl, rfl⟩
      . rintro ⟨rfl, rfl, rfl⟩
        exact .wildcard
    . intro k hk
      obtain rfl := List.mem_singleton.mp hk
      exact ⟨le_rfl, Nat.lt_succ_self _⟩
  | int pos n | float pos x =>
    unfold matchTy at h
    obtain ⟨unified, hequal, rfl⟩ := matchLiteral_eq_ok h
    unfold boundVars wildcards
    exact describes_empty (by rintro _ _ _ ⟨⟩) (Ty.equal_keepsTypeVars _ _ _ _ hequal)
  | box pos inner =>
    obtain ⟨grade, content, matched, rfl, hinner, rfl⟩ := matchTy_boxed h
    unfold boundVars at hvars hdotless ⊢
    unfold wildcards
    exact ((matchTy_describes hvars hdotless hinner).box grade).congr fun _ _ _ => bindsInside_box.symm
  | pair pos a b =>
    obtain ⟨aTy, bTy, left, right, s₁, s₂, rfl, hleft, hright, hmerge⟩ := matchTy_pair h
    unfold boundVars at hvars hdotless ⊢
    unfold wildcards
    obtain ⟨hvars₁, hvars₂, _⟩ := List.nodup_append'.mp hvars
    obtain ⟨hdotless₁, hdotless₂⟩ := List.forall_mem_append.mp hdotless
    have hdescribes := (matchTy_describes hvars₁ hdotless₁ hleft).merge (matchTy_describes hvars₂ hdotless₂ hright)
      hvars hdotless (matchTy_reaching _ _ _ hleft).nextFresh_le (matchTy_reaching _ _ _ hright).nextFresh_le hmerge
    exact hdescribes.congr fun _ _ _ => (bindsInside_pair hleft).symm
  | constructor pos name args =>
    obtain ⟨scheme, existentials, constructorTy, unified, s₁, s₂, hscheme, hrefresh, hlength, hequal, hargs⟩ :=
      matchTy_constructor h
    unfold boundVars at hvars hdotless ⊢
    unfold wildcards
    obtain ⟨_, _, hexists, htypeVars⟩ := scheme.exists_refresh .patternBound s
    cases hexists.symm.trans hrefresh
    have hs₁ := (Scheme.refresh_quiet _ _ hrefresh).reaches
    have hs₂ := hs₁.trans (Ty.equal_reaching _ _ _ _ hequal)
    have hscope : s₂.typeVars = s₁.typeVars := Ty.equal_keepsTypeVars _ _ _ _ hequal
    have hstart : Describes (fun _ _ _ => False) [] 0 s s₂ ⟨.empty, existentials, unified.subst⟩ :=
      describes_empty (fun _ _ _ => id) (hscope.trans htypeVars)
    have hdescribes := matchArgs_describes hlength hstart hvars hdotless hs₂.nextFresh_le hargs
    rw [List.nil_append, Nat.zero_add] at hdescribes
    apply hdescribes.congr
    intro x content boxes
    rw [bindsInside_constructor hscheme hrefresh hequal, false_or]

theorem matchArgs_describes {env : Env} {pos : Nat} {ps : List Pattern} {tys : List Ty} {matched m : Matched}
    {P : String → Ty → List Grade → Prop} {vars : List String} {n : Nat} {s₀ s s' : State}
    (hlength : tys.length = ps.length) (hmatched : Describes P vars n s₀ s matched)
    (hvars : (vars ++ boundVarsAll ps).Nodup) (hdotless : ∀ x ∈ vars ++ boundVarsAll ps, isDotless x = true)
    (hs : s₀.nextFresh ≤ s.nextFresh) (h : matchArgs env pos ps tys matched s = .ok m s')
    : Describes (fun x content boxes => P x content boxes ∨ ArgsBindInside env pos ps tys matched s x content boxes)
        (vars ++ boundVarsAll ps) (n + wildcardsAll ps) s₀ s' m := by
  cases ps with
  | nil =>
    unfold matchArgs at h
    rw [pure_eq_ok] at h
    obtain ⟨rfl, rfl⟩ := h
    unfold boundVarsAll wildcardsAll
    rw [List.append_nil]
    apply hmatched.congr
    intro x content boxes
    constructor
    . exact .inl
    . rintro (hplace | hplace)
      . exact hplace
      . cases hplace
  | cons p ps =>
    cases tys with
    | nil => cases hlength
    | cons ty tys =>
      obtain ⟨arg, merged, s₁, s₂, harg, hmerge, hargs⟩ := matchArgs_cons h
      unfold boundVarsAll at hvars hdotless ⊢
      unfold wildcardsAll
      rw [← List.append_assoc] at hvars hdotless ⊢
      rw [← Nat.add_assoc]
      have hs₁ := (matchTy_reaching _ _ _ harg).nextFresh_le
      have hs₂ := (Matched.merge_reaching _ _ _ _ hmerge).nextFresh_le
      obtain ⟨hvars₁, _⟩ := List.nodup_append'.mp hvars
      obtain ⟨hdotless₁, _⟩ := List.forall_mem_append.mp hdotless
      have harg' := matchTy_describes (List.nodup_append'.mp hvars₁).2.1 (List.forall_mem_append.mp hdotless₁).2 harg
      have hmerged := hmatched.merge harg' hvars₁ hdotless₁ hs hs₁ hmerge
      have hdescribes := matchArgs_describes (Nat.succ.inj hlength) hmerged hvars hdotless (by omega) hargs
      apply hdescribes.congr
      intro x content boxes
      rw [argsBindInside_cons harg hmerge, or_assoc]

end

variable {env : Env} {p : Pattern} {ty : Ty} {m : Matched} {s s' : State}

/--
A pattern whose variables are distinct binds each of them, and a new name for each wildcard. What stands in no box is
linear. What stands in boxes is graded with the product of their grades. The existentials of the match are the type
variables that it has put in scope.
-/
theorem graded_by_enclosing_boxes (hvars : p.boundVars.Nodup) (hdotless : ∀ x ∈ p.boundVars, isDotless x = true)
    (h : p.matchTy env ty s = .ok m s')
    : (m.context.names.Nodup ∧
        ∃ fresh : List Nat, fresh.length = p.wildcards ∧ (∀ k ∈ fresh, s.nextFresh ≤ k ∧ k < s'.nextFresh) ∧
          m.context.names.Perm (p.boundVars ++ fresh.map fun k => "_." ++ toString k)) ∧
      (∀ x ∈ m.context.names, ∃ content boxes, p.BindsInside env ty s x content boxes) ∧
      (∀ x content boxes, p.BindsInside env ty s x content boxes →
        (boxes = [] → m.context.lookup? x = some (.linear content)) ∧
        (boxes ≠ [] → ∃ g, m.context.lookup? x = some (.graded content g) ∧ g.IsProduct boxes)) ∧
      s'.typeVars = (m.existentials.map fun b => ⟨b.1, b.2, .patternBound⟩).reverse ++ s.typeVars := by
  have hm := matchTy_describes hvars hdotless h
  refine ⟨⟨hm.nodup, hm.names⟩, ?_, ?_, hm.scope⟩
  . intro x hx
    obtain ⟨⟨_, a⟩, hmem, rfl⟩ := List.mem_map.mp hx
    obtain ⟨content, boxes, hplace, _⟩ := (hm.bindings _ a).mp hmem
    exact ⟨content, boxes, hplace⟩
  . intro x content boxes hplace
    have hlookup := Context.lookup?_of_mem hm.nodup ((hm.bindings x _).mpr ⟨content, boxes, hplace, rfl⟩)
    constructor
    . rintro rfl
      exact hlookup
    . intro hboxes
      obtain ⟨g, gs, rfl⟩ := List.exists_cons_of_ne_nil hboxes
      rw [Assumption.inside_cons] at hlookup
      exact ⟨g.product gs, hlookup, g.isProduct_product gs⟩

/-- `([[x]], Cons [y] _)` -/
def boxedHead : Pattern :=
  .pair 0 (.box 1 (.box 2 (.var 3 "x"))) (.constructor 8 "Cons" [.box 13 (.var 14 "y"), .wildcard 17])

theorem graded_by_enclosing_boxes_boxedHead
    : ∃ m s', boxedHead.matchTy ⟨.standard, []⟩
          (.pair (.box (.nat 2) (.box (.nat 3) (.const "Int"))) (.list (.index 5) (.box (.nat 4) (.const "Int"))))
          .start
        = .ok m s' ∧
      (∃ fresh : List Nat, fresh.length = 1 ∧
        m.context.names.Perm (["x", "y"] ++ fresh.map fun k => "_." ++ toString k)) ∧
      (∃ g, m.context.lookup? "x" = some (.graded (.const "Int") g) ∧ g.IsProduct [.nat 2, .nat 3]) ∧
      s'.typeVars.map (·.quantifier) = [.patternBound, .patternBound] := by
  have hrun : yields (boxedHead.matchTy ⟨.standard, []⟩
      (.pair (.box (.nat 2) (.box (.nat 3) (.const "Int"))) (.list (.index 5) (.box (.nat 4) (.const "Int"))))) .start
      (fun m _ => m.existentials.length == 2) = true := by
    cbv
  obtain ⟨m, s', hmatch, hlength⟩ := exists_of_yields hrun
  obtain ⟨⟨_, fresh, hfresh, _, hperm⟩, _, hplaces, hscope⟩ := graded_by_enclosing_boxes (by decide) (by decide) hmatch
  refine ⟨m, s', hmatch, ⟨fresh, hfresh, hperm⟩, ?_, ?_⟩
  . exact (hplaces _ _ _ (.left (.box (.box .var)))).2 (by decide)
  . obtain ⟨b, c, hexistentials⟩ := List.length_eq_two.mp (beq_iff_eq.mp hlength)
    rw [hscope, hexistentials]
    rfl

end Pattern

end GradedModal
