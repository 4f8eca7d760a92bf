import Mathlib
import GradedModal.Proofs.Lockstep
import GradedModal.Proofs.Uses

/-!
This module runs the checker on one expression in two states and two contexts. An expression without boxes, cases and
polymorphic names asks nothing of the state, and of the grades around it only their kind. So it is accepted in both
runs or in none, with the same type, and it uses a graded variable once for each occurrence.
-/

namespace GradedModal

open CheckM

/--
A grade has a kind, and finding it leaves no trace in the state.
-/
def State.HasKind (s : State) (g : Grade) (kind : GradeKind) : Prop :=
  ∀ pos, g.inferKind pos s = .ok kind s

theorem GradeKind.unify_self {s : State} {kind : GradeKind} (hkind : s.resolve kind = kind) (pos : Nat)
    : GradeKind.unify pos kind kind s = .ok kind s := by
  rw [unify_of_resolve_eq rfl, hkind]

/--
The grade of a variable that is used once or more often: a sum of ones.
-/
inductive Grade.IsSum (kind : GradeKind) : Grade → Prop where
  | one : IsSum kind (.one kind)
  | plus {g h : Grade} : IsSum kind g → IsSum kind h → IsSum kind (.op .plus g h)

theorem Grade.IsSum.hasKind {s : State} {g : Grade} {kind : GradeKind} (h : g.IsSum kind) (hkind : s.resolve kind = kind)
    : s.HasKind g kind := by
  intro pos
  induction h with
  | one =>
    change EStateM.Result.ok (s.resolve kind) s = _
    rw [hkind]
  | plus _ _ ihg ihh =>
    unfold Grade.inferKind
    rw [bind_of_ok ihg, bind_of_ok ihh]
    exact GradeKind.unify_self hkind pos

namespace Assumption

/--
What two contexts assume about a variable differs in nothing but the grade, which has the kind of its side.
-/
inductive Assumed (s t : State) (k l : GradeKind) : Assumption → Assumption → Prop where
  | linear {ty : Ty} : ty.isPlain = true → Assumed s t k l (.linear ty) (.linear ty)
  | graded {ty : Ty} {g h : Grade} : ty.isPlain = true → s.HasKind g k → t.HasKind h l →
    Assumed s t k l (.graded ty g) (.graded ty h)

inductive Used (k l : GradeKind) : Assumption → Assumption → Prop where
  | linear (ty : Ty) : Used k l (.linear ty) (.linear ty)
  | graded (ty : Ty) {g h : Grade} : g.IsSum k → h.IsSum l → Used k l (.graded ty g) (.graded ty h)

end Assumption

namespace Context

variable {R : String → Assumption → Assumption → Prop} {c d : Context} {x : String} {a b : Assumption}

def Pointwise (R : String → Assumption → Assumption → Prop) (c d : Context) : Prop :=
  List.Forall₂ (fun b b' => b.1 = b'.1 ∧ R b.1 b.2 b'.2) c.bindings d.bindings

theorem pointwise_empty : Pointwise R empty empty :=
  .nil

theorem Pointwise.lookup? (h : Pointwise R c d) (x : String)
    : (c.lookup? x = none ∧ d.lookup? x = none) ∨
      (∃ a b, c.lookup? x = some a ∧ d.lookup? x = some b ∧ R x a b) := by
  obtain ⟨bindings⟩ := c
  obtain ⟨bindings'⟩ := d
  unfold Context.lookup?
  dsimp only [Pointwise] at h ⊢
  induction h with
  | nil => exact .inl ⟨rfl, rfl⟩
  | @cons b b' bindings bindings' hb _ ih =>
    obtain ⟨y, a⟩ := b
    obtain ⟨y', a'⟩ := b'
    obtain ⟨rfl, hR⟩ := hb
    simp only [List.lookup_cons]
    split
    . next hx =>
      rw [beq_iff_eq] at hx
      exact .inr ⟨a, a', rfl, rfl, hx ▸ hR⟩
    . exact ih

theorem Pointwise.remove (h : Pointwise R c d) (x : String) : Pointwise R (c.remove x) (d.remove x) := by
  obtain ⟨bindings⟩ := c
  obtain ⟨bindings'⟩ := d
  unfold Context.remove Context.filter
  dsimp only [Pointwise] at h ⊢
  induction h with
  | nil => exact .nil
  | @cons b b' bindings bindings' hb _ ih =>
    obtain ⟨y, a⟩ := b
    obtain ⟨y', a'⟩ := b'
    obtain ⟨rfl, hR⟩ := hb
    simp only [List.filter_cons]
    split
    . exact .cons ⟨rfl, hR⟩ ih
    . exact ih

theorem Pointwise.bind (h : Pointwise R c d) (hab : R x a b) : Pointwise R (c.bind x a) (d.bind x b) :=
  List.rel_append (h.remove x) (.cons ⟨rfl, hab⟩ .nil)

theorem pointwise_singleton (hab : R x a b) : Pointwise R (singleton x a) (singleton x b) :=
  pointwise_empty.bind hab

def Assumed (s t : State) (k l : GradeKind) (hidden : String) : Context → Context → Prop :=
  Pointwise (fun x a b => x ≠ hidden → Assumption.Assumed s t k l a b)

section

variable {s t : State} {k l : GradeKind} (hk : s.resolve k = k) (hl : t.resolve l = l)
include hk hl

theorem together_addUses {a' b' : Assumption} (pos : Nat) (x : String) (ha : Assumption.Used k l a a')
    (hb : Assumption.Used k l b b')
    : Together s t (addUses pos x a b) (addUses pos x a' b') (Assumption.Used k l) := by
  cases ha with
  | linear ty =>
    cases hb with
    | linear ty' => exact together_fail
    | graded ty' hg hh =>
      exact .inl ⟨_, _, bind_of_ok (hg.hasKind hk pos), bind_of_ok (hh.hasKind hl pos),
        .graded _ (.plus hg .one) (.plus hh .one)⟩
  | graded ty hg hh =>
    cases hb with
    | linear ty' =>
      exact .inl ⟨_, _, bind_of_ok (hg.hasKind hk pos), bind_of_ok (hh.hasKind hl pos),
        .graded _ (.plus hg .one) (.plus hh .one)⟩
    | graded ty' hg' hh' => exact together_pure (.graded _ (.plus hg hg') (.plus hh hh'))

theorem together_extend (pos : Nat) (x : String) (h : Pointwise (fun _ => Assumption.Used k l) c d)
    (hab : Assumption.Used k l a b)
    : Together s t (extend pos c x a) (extend pos d x b) (Pointwise (fun _ => Assumption.Used k l)) := by
  unfold extend
  obtain ⟨hc, hd⟩ | ⟨known, known', hc, hd, hknown⟩ := h.lookup? x
  . simp only [hc, hd]
    exact together_pure (List.rel_append h (.cons ⟨rfl, hab⟩ .nil))
  . have hty : known.ty = known'.ty ∧ a.ty = b.ty := by
      constructor
      . cases hknown <;> rfl
      . cases hab <;> rfl
    simp only [hc, hd, hty.1, hty.2]
    split
    . exact together_fail_bind
    . apply together_bind (together_addUses hk hl pos x hknown hab)
      intro sum sum' hsum
      apply together_pure
      unfold Pointwise
      rw [List.forall₂_map_left_iff, List.forall₂_map_right_iff]
      apply List.Forall₂.imp _ h
      rintro ⟨y, u⟩ ⟨y', u'⟩ ⟨rfl, hu⟩
      dsimp only
      split
      . exact ⟨rfl, hsum⟩
      . exact ⟨rfl, hu⟩

theorem together_combine (pos : Nat) {c' d' : Context} (h : Pointwise (fun _ => Assumption.Used k l) c d)
    (h' : Pointwise (fun _ => Assumption.Used k l) c' d')
    : Together s t (combine pos c c') (combine pos d d') (Pointwise (fun _ => Assumption.Used k l)) := by
  obtain ⟨bindings⟩ := c
  obtain ⟨bindings'⟩ := d
  unfold combine
  dsimp only [Pointwise] at h ⊢
  induction h generalizing c' d' with
  | nil => exact together_pure h'
  | @cons b b' bindings bindings' hb _ ih =>
    obtain ⟨y, a⟩ := b
    obtain ⟨y', a'⟩ := b'
    obtain ⟨rfl, hab⟩ := hb
    rw [List.foldlM_cons, List.foldlM_cons]
    apply together_bind (together_extend hk hl pos _ h' hab)
    intro u u' hu
    exact ih hu

end

end Context

/--
The grade of a variable that two terms use, given the grades of their own uses.
-/
def Grade.addUses : Option Grade → Option Grade → Option Grade
  | none, r => r
  | l, none => l
  | some l, some r => some (.op .plus r l)

/--
The grade of a variable in an expression without boxes and cases: a one for each occurrence.
-/
def Expr.usage (x : String) (kind : GradeKind) : Expr → Option Grade
  | .var _ name => if x = name then some (.one kind) else none
  | .lam _ b _ body => if x = b.name then none else body.usage x kind
  | .app _ f a => Grade.addUses (f.usage x kind) (a.usage x kind)
  | .lift _ e => e.usage x kind
  | .binop _ _ a b => Grade.addUses (a.usage x kind) (b.usage x kind)
  | .pair _ a b => Grade.addUses (a.usage x kind) (b.usage x kind)
  | .letDiamond _ b _ value rest =>
    Grade.addUses (value.usage x kind) (if x = b.name then none else rest.usage x kind)
  | _ => none

namespace Context

variable {pos : Nat} {c left right u v : Context} {x : String} {s s' t : State} {ty : Ty}

theorem lookup?_extend_graded {g : Grade} {r : Option Grade} (h : extend pos c x (.graded ty g) s = .ok u s')
    (hc : c.lookup? x = r.map (.graded ty))
    : u.lookup? x = (Grade.addUses (some g) r).map (.graded ty) := by
  obtain ⟨hnone, hu⟩ | ⟨known, sum, s₁, hknown, hsum, hu⟩ := lookup?_of_extend h
  . cases r with
    | some g' =>
      rw [hc] at hnone
      cases hnone
    | none => exact hu
  . cases r with
    | none =>
      rw [hc] at hknown
      cases hknown
    | some g' =>
      rw [hc] at hknown
      cases hknown
      unfold Context.addUses at hsum
      rw [pure_eq_ok] at hsum
      rw [hu, ← hsum.1]
      rfl

theorem lookup?_combine_graded {l r : Option Grade} (hnodup : left.names.Nodup)
    (h : combine pos left right s = .ok u s') (hleft : left.lookup? x = l.map (.graded ty))
    (hright : right.lookup? x = r.map (.graded ty))
    : u.lookup? x = (Grade.addUses l r).map (.graded ty) := by
  obtain ⟨bindings⟩ := left
  unfold combine at h
  change bindings.lookup x = _ at hleft
  change (bindings.map (·.1)).Nodup at hnodup
  induction bindings generalizing right s l r with
  | nil =>
    rw [List.foldlM_nil, pure_eq_ok] at h
    cases l with
    | none =>
      rw [← h.1, hright]
      rfl
    | some g => cases hleft
  | cons b bindings ih =>
    obtain ⟨y, a⟩ := b
    rw [List.map_cons, List.nodup_cons] at hnodup
    rw [List.foldlM_cons, bind_eq_ok] at h
    obtain ⟨c, s₁, hextend, h⟩ := h
    by_cases hxy : x = y
    . subst hxy
      -- the variable does not occur in the rest, so nothing more is added to it
      have hrest : bindings.lookup x = (none : Option Grade).map (.graded ty) :=
        lookup?_eq_none_iff.mpr hnodup.1
      rw [List.lookup_cons_self] at hleft
      cases l with
      | none => cases hleft
      | some g =>
        cases hleft
        exact ih (l := none) (lookup?_extend_graded hextend hright) h hrest hnodup.2
    . have hbeq : (x == y) = false := by
        simp [hxy]
      rw [List.lookup_cons, hbeq] at hleft
      rw [← lookup?_extend_of_ne hxy hextend] at hright
      exact ih hright h hleft hnodup.2

/--
What is used on two sides of the variables of a context: the first side uses graded variables as often as the count
says, and does not use the hidden variable.
-/
structure Used (k l : GradeKind) (hidden : String) (c : Context) (count : String → Option Grade) (u v : Context) :
    Prop where
  pointwise : Pointwise (fun _ => Assumption.Used k l) u v
  nodup : u.names.Nodup
  bound : ∀ x ∈ u.names, x ≠ hidden ∧ x ∈ c.names
  counted : ∀ x ty g, c.lookup? x = some (.graded ty g) → u.lookup? x = (count x).map (.graded ty)

namespace Used

variable {k l : GradeKind} {hidden : String} {count count' : String → Option Grade} {u' v' : Context}

theorem empty : Used k l hidden c (fun _ => none) .empty .empty :=
  ⟨pointwise_empty, .nil, nofun, fun _ _ _ _ => rfl⟩

theorem singleton {name : String} {a b : Assumption} (hname : name ≠ hidden) (hc : (c.lookup? name).isSome = true)
    (hab : Assumption.Used k l a b)
    (hcount : ∀ ty g, c.lookup? name = some (.graded ty g) → some a = (count name).map (.graded ty))
    (hother : ∀ x, x ≠ name → count x = none) : Used k l hidden c count (.singleton name a) (.singleton name b) where
  pointwise := pointwise_singleton hab
  nodup := by simp [Context.singleton, Context.bind, Context.remove, Context.empty, Context.filter, Context.names]
  bound := by
    intro x hx
    rw [← isSome_lookup?_iff, lookup?_singleton] at hx
    split at hx
    . next hxname =>
      rw [hxname, ← isSome_lookup?_iff]
      exact ⟨hname, hc⟩
    . cases hx
  counted := by
    intro x ty g hx
    rw [lookup?_singleton]
    by_cases hxname : x = name
    . subst hxname
      rw [if_pos rfl]
      exact hcount ty g hx
    . rw [if_neg hxname, hother x hxname]
      rfl

theorem isConsumed (h : Used k l hidden c count u v) (x : String)
    : Context.isConsumed (u.lookup? x) = Context.isConsumed (v.lookup? x) := by
  obtain ⟨hu, hv⟩ | ⟨a, b, hu, hv, hab⟩ := h.pointwise.lookup? x
  . rw [hu, hv]
  . rw [hu, hv]
    cases hab with
    | linear ty => rfl
    | graded ty hg hh =>
      cases hg with
      | one | plus =>
        cases hh with
        | one => rfl
        | plus => rfl

theorem remove {y : String} (h : Used k l hidden (c.bind y (.linear ty)) count u v)
    : Used k l hidden c (fun x => if x = y then none else count x) (u.remove y) (v.remove y) where
  pointwise := h.pointwise.remove y
  nodup := h.nodup.sublist (List.filter_sublist.map _)
  bound := by
    intro x hx
    rw [← isSome_lookup?_iff, lookup?_remove] at hx
    split at hx
    . cases hx
    . next hxy =>
      obtain ⟨hhidden, hmem⟩ := h.bound x (isSome_lookup?_iff.mp hx)
      rw [← isSome_lookup?_iff, lookup?_bind, if_neg hxy, isSome_lookup?_iff] at hmem
      exact ⟨hhidden, hmem⟩
  counted := by
    intro x ty' g hx
    rw [lookup?_remove]
    split
    . rfl
    . next hxy =>
      apply h.counted x ty' g
      rw [lookup?_bind, if_neg hxy]
      exact hx

theorem together_combine (h : Used k l hidden c count u v) (h' : Used k l hidden c count' u' v')
    (hk : s.resolve k = k) (hl : t.resolve l = l) (pos : Nat)
    : Together s t (combine pos u u') (combine pos v v')
        (Used k l hidden c (fun x => Grade.addUses (count x) (count' x))) := by
  apply (Context.together_combine hk hl pos h.pointwise h'.pointwise).imp
  intro w w' hw hww'
  constructor
  . exact hww'
  . exact nodup_names_combine h'.nodup hw
  . intro x hx
    rw [mem_names_combine hw] at hx
    exact hx.elim (h.bound x) (h'.bound x)
  . intro x ty g hx
    exact lookup?_combine_graded h.nodup hw (h.counted x ty g hx) (h'.counted x ty g hx)

end Used

end Context

/-- A plain type, as it stands. -/
def Scheme.isPlain (s : Scheme) : Bool :=
  s.vars.isEmpty && s.ty.isPlain

theorem Scheme.instantiate_of_isPlain {scheme : Scheme} (h : scheme.isPlain = true) (s : State)
    : scheme.instantiate s = .ok scheme.ty s := by
  obtain ⟨vars, ty⟩ := scheme
  unfold isPlain at h
  rw [Bool.and_eq_true, List.isEmpty_iff] at h
  obtain rfl : vars = [] := h.1
  change EStateM.Result.ok (ty.substitute []) s = .ok ty s
  rw [Ty.substitute_nil]

def Goal.isPlain : Goal → Bool
  | .synthesize => true
  | .check _ expected => expected.isPlain

namespace Expr

/--
An expression without boxes and cases, whose names have plain types. It does not refer to the hidden variable.
-/
def isPlain (env : Env) (hidden : String) : Expr → Bool
  | .int _ _ => true
  | .float _ _ => true
  | .constructor _ name =>
    name ≠ "Cons" && name ≠ "S" && (env.builtins.constructors.lookup name).all Scheme.isPlain
  | .var _ name => name ≠ hidden && name ≠ "scale" && (env.lookup? name).all Scheme.isPlain
  | .lam _ _ declared body => declared.all Ty.isPlain && body.isPlain env hidden
  | .app _ f a => f.isPlain env hidden && a.isPlain env hidden
  | .lift _ e => e.isPlain env hidden
  | .binop _ _ a b => a.isPlain env hidden && b.isPlain env hidden
  | .pair _ a b => a.isPlain env hidden && b.isPlain env hidden
  | .letDiamond _ _ declared value rest =>
    declared.all Ty.isPlain && value.isPlain env hidden && rest.isPlain env hidden
  | _ => false

structure Alike (k l : GradeKind) (hidden : String) (c : Context) (count : String → Option Grade) (r r' : Typed) :
    Prop where
  ty : r.ty = r'.ty
  isPlain : r.ty.isPlain = true
  used : Context.Used k l hidden c count r.used r'.used
  left : r.subst = []
  right : r'.subst = []

section

variable {env : Env} {hidden : String} {s t : State} {k l : GradeKind} {u v c d : Context}
  {count : String → Option Grade}

theorem together_checkConsumed (h : Context.Used k l hidden c count u v) (b : Binder) (ty : Ty)
    : Together s t (checkConsumed b ty u) (checkConsumed b ty v) (fun _ _ => True) := by
  unfold checkConsumed Context.remainingLinear
  simp only [h.isConsumed]
  split
  . exact together_fail
  . exact together_pure trivial

theorem together_conclude (pos : Nat) (polarity : Polarity) {goal : Goal} (hgoal : goal.isPlain = true) {actual : Ty}
    (hactual : actual.isPlain = true) (h : Context.Used k l hidden c count u v)
    : Together s t (conclude env pos polarity goal actual u) (conclude env pos polarity goal actual v)
        (Alike k l hidden c count) := by
  unfold conclude
  cases goal with
  | synthesize => exact together_pure ⟨rfl, hactual, h, rfl, rfl⟩
  | check topLevel expected =>
    have hsides : ∀ left right : Ty, left.isPlain = true → right.isPlain = true → ∀ relation hint,
        Together s t
          (do
            let unified ← mapError (·.withHint hint) (left.relate env pos relation right)
            if unified.agree then
              return ⟨expected, u, unified.subst⟩
            else
              throw ((Error.ofCause pos (.typeMismatch expected actual)).withHint hint) : CheckM Typed)
          (do
            let unified ← mapError (·.withHint hint) (left.relate env pos relation right)
            if unified.agree then
              return ⟨expected, v, unified.subst⟩
            else
              throw ((Error.ofCause pos (.typeMismatch expected actual)).withHint hint) : CheckM Typed)
          (Alike k l hidden c count) := by
      intro left right hleft hright relation hint
      apply together_bind (together_mapError (Unify.together_relate _ _ hleft hright _ relation relation))
      rintro unified _ ⟨rfl, hsubst⟩
      split
      . exact together_pure ⟨rfl, hgoal, h, hsubst, hsubst⟩
      . exact .inr ⟨⟨_, _, rfl⟩, _, _, rfl⟩
    cases polarity with
    | positive => exact hsides _ _ hactual hgoal _ _
    | negative => exact hsides _ _ hgoal hactual _ _

theorem together_instantiate {scheme : Scheme} (h : scheme.isPlain = true)
    : Together s t scheme.instantiate scheme.instantiate (fun ty ty' => ty = ty' ∧ ty.isPlain = true) := by
  have hty := h
  unfold Scheme.isPlain at hty
  rw [Bool.and_eq_true] at hty
  exact .inl ⟨_, _, Scheme.instantiate_of_isPlain h s, Scheme.instantiate_of_isPlain h t, rfl, hty.2⟩

theorem together_varTy (pos : Nat) {name : String} (hname : name ≠ hidden)
    (hplain : (env.lookup? name).all Scheme.isPlain = true) (h : Context.Assumed s t k l hidden c d)
    : Together s t (varTy env c pos name) (varTy env d pos name)
        (fun r r' => r.1 = r'.1 ∧ r.1.isPlain = true ∧
          Context.Used k l hidden c (fun x => (var pos name).usage x k) r.2 r'.2) := by
  have hother : ∀ x, x ≠ name → (var pos name).usage x k = none := fun _ hx => if_neg hx
  unfold varTy
  obtain ⟨hc, hd⟩ | ⟨a, b, hc, hd, hab⟩ := h.lookup? name
  . simp only [hc, hd]
    cases hscheme : env.lookup? name with
    | none => exact together_fail
    | some scheme =>
      rw [hscheme] at hplain
      have hplain : scheme.isPlain = true := hplain
      apply together_bind (together_instantiate hplain)
      rintro ty _ ⟨rfl, hty⟩
      refine together_pure ⟨rfl, hty, Context.pointwise_empty, .nil, nofun, ?_⟩
      intro x ty' g hx
      have hne : x ≠ name := by
        rintro rfl
        rw [hc] at hx
        cases hx
      rw [hother x hne]
      rfl
  . simp only [hc, hd]
    have hbound : (c.lookup? name).isSome = true := Option.isSome_of_eq_some hc
    cases hab hname with
    | linear hty =>
      refine together_pure ⟨rfl, hty, .singleton hname hbound (.linear _) ?_ hother⟩
      intro ty' g hgraded
      rw [hc] at hgraded
      cases hgraded
    | graded hty hg hh =>
      refine .inl ⟨_, _, bind_of_ok (hg pos), bind_of_ok (hh pos), rfl, hty,
        .singleton hname hbound (.graded _ .one .one) ?_ hother⟩
      intro ty' g hgraded
      rw [hc] at hgraded
      cases hgraded
      rw [usage, if_pos rfl]
      rfl

theorem together_firstFit {fits fits' : Ty → Ty → CheckM Context} {noFit noFit' : CheckM (Ty × Context)}
    (hfits : ∀ left right, left.isPlain = true → right.isPlain = true →
      Together s t (fits left right) (fits' left right) (Context.Used k l hidden c count))
    (hnoFit : Fails noFit s) (hnoFit' : Fails noFit' t) {tys : List Ty} (htys : ∀ ty ∈ tys, ty.isPlain = true)
    (rejection rejection' : Option Error)
    : Together s t (firstFit fits noFit tys rejection) (firstFit fits' noFit' tys rejection')
        (fun r r' => r.1 = r'.1 ∧ r.1.isPlain = true ∧ Context.Used k l hidden c count r.2 r'.2) := by
  induction tys generalizing rejection rejection' with
  | nil =>
    -- whatever the rejections are, nothing fits
    right
    constructor
    . cases rejection with
      | none => exact hnoFit
      | some e => exact ⟨_, _, rfl⟩
    . cases rejection' with
      | none => exact hnoFit'
      | some e => exact ⟨_, _, rfl⟩
  | cons ty tys ih =>
    rw [List.forall_mem_cons] at htys
    have hargs := Ty.isPlain_args htys.1
    unfold firstFit
    split
    . next left right hty =>
      rw [hty] at hargs
      apply together_bind (together_attempt (hfits left right (hargs left (by simp)) (hargs right (by simp))))
      rintro _ _ (⟨used, used', rfl, rfl, hused⟩ | ⟨e, e', rfl, rfl⟩)
      . exact together_pure ⟨rfl, Ty.isPlain_result htys.1, hused⟩
      . exact ih htys.2 _ _
    . exact ih htys.2 _ _

variable (env s t k l hidden) in
def InferredTogether (e : Expr) : Prop :=
  ∀ ⦃c d : Context⦄, Context.Assumed s t k l hidden c d → ∀ (polarity : Polarity) (goal : Goal), goal.isPlain = true →
    Together s t (infer env e c polarity goal) (infer env e d polarity goal)
      (Alike k l hidden c (fun x => e.usage x k))

variable {pos : Nat} {b : Binder} {declared : Option Ty} {e f a value rest body : Expr}

theorem inferredTogether_constructor {name : String} (he : (constructor pos name).isPlain env hidden = true)
    : InferredTogether env hidden s t k l (constructor pos name) := by
  intro c d _ polarity goal hgoal
  simp only [isPlain, Bool.and_eq_true, decide_eq_true_eq] at he
  unfold infer constructorTy
  rw [if_neg (by simp [he.1.1, he.1.2])]
  cases hscheme : env.builtins.constructors.lookup name with
  | none => exact together_fail_bind
  | some scheme =>
    rw [hscheme] at he
    have hscheme : scheme.isPlain = true := he.2
    apply together_bind (together_instantiate hscheme)
    rintro ty _ ⟨rfl, hty⟩
    exact together_conclude _ _ hgoal hty .empty

theorem inferredTogether_lam (hdeclared : declared.all Ty.isPlain = true)
    (ihbody : InferredTogether env hidden s t k l body)
    : InferredTogether env hidden s t k l (lam pos b declared body) := by
  intro c d h polarity goal hgoal
  have hbind : ∀ {arg : Ty}, arg.isPlain = true →
      Context.Assumed s t k l hidden (c.bind b.name (.linear arg)) (d.bind b.name (.linear arg)) :=
    fun harg => h.bind (fun _ => .linear harg)
  unfold infer
  split
  . next topLevel arg result =>
    simp only [Goal.isPlain, Ty.isPlain, Bool.and_eq_true] at hgoal
    have hbody : Together s t (lamBody env b body c polarity topLevel arg result)
        (lamBody env b body d polarity topLevel arg result)
        (Alike k l hidden c (fun x => (lam pos b declared body).usage x k)) := by
      apply together_bind (ihbody (hbind hgoal.1) polarity (.check topLevel result) hgoal.2)
      intro inner inner' hinner
      apply together_bind (together_checkConsumed hinner.used b arg)
      intro _ _ _
      apply together_pure
      exact ⟨rfl, by simp [Ty.isPlain, hgoal], hinner.used.remove, hinner.left, hinner.right⟩
    cases declared with
    | none => exact hbody
    | some ty =>
      apply together_bind (Unify.together_relate _ _ hdeclared hgoal.1 _ .eq .eq)
      rintro unified _ ⟨rfl, _⟩
      split
      . exact together_fail_bind
      . exact hbody
  . cases declared with
    | none => exact together_fail
    | some arg =>
      have harg : arg.isPlain = true := hdeclared
      apply together_bind (ihbody (hbind harg) polarity .synthesize rfl)
      intro inner inner' hinner
      apply together_bind (together_checkConsumed hinner.used b arg)
      intro _ _ _
      rw [← hinner.ty]
      exact together_conclude _ _ hgoal (by simp [Ty.isPlain, harg, hinner.isPlain]) hinner.used.remove

theorem inferredTogether_app (hk : s.resolve k = k) (hl : t.resolve l = l) (hf : f.isPlain env hidden = true)
    (ihf : InferredTogether env hidden s t k l f) (iha : InferredTogether env hidden s t k l a)
    : InferredTogether env hidden s t k l (app pos f a) := by
  intro c d h polarity goal hgoal
  unfold infer
  cases goal with
  | synthesize =>
    apply together_bind (ihf h polarity .synthesize rfl)
    rintro function function' hfunction
    rw [← hfunction.ty]
    split
    . next argTy resultTy hty =>
      have hplain := hfunction.isPlain
      rw [hty] at hplain
      simp only [Ty.isPlain, Bool.and_eq_true] at hplain
      apply together_bind (iha h polarity (.check false argTy) hplain.1)
      intro arg arg' harg
      apply together_bind (hfunction.used.together_combine harg.used hk hl pos)
      intro used used' hused
      rw [harg.left, harg.right, Ty.substitute_nil]
      exact together_pure ⟨rfl, hplain.2, hused, rfl, rfl⟩
    . exact together_fail
  | check topLevel expected =>
    -- no variable of a plain expression is called `scale`
    have hscale : ∀ c : Context, scaleFactor? c f = none := by
      intro c
      cases hfactor : scaleFactor? c f with
      | none => rfl
      | some factor =>
        obtain ⟨_, _, _, _, rfl⟩ := scaleFactor?_eq_some hfactor
        simp [isPlain] at hf
    simp only [hscale, ite_self]
    apply together_bind (iha h polarity .synthesize rfl)
    intro arg arg' harg
    rw [← harg.ty]
    have hfunction : (Goal.check false (.arrow arg.ty expected)).isPlain = true := by
      simp only [Goal.isPlain, Ty.isPlain, Bool.and_eq_true]
      exact ⟨harg.isPlain, hgoal⟩
    apply together_bind (ihf h polarity.flip _ hfunction)
    intro function function' hfunction
    apply together_bind (hfunction.used.together_combine harg.used hk hl f.pos)
    intro used used' hused
    exact together_pure ⟨rfl, hgoal, hused, hfunction.left, hfunction.right⟩

theorem inferredTogether_lift (ihe : InferredTogether env hidden s t k l e)
    : InferredTogether env hidden s t k l (lift pos e) := by
  intro c d h polarity goal hgoal
  unfold infer
  split
  . next topLevel effects content =>
    apply together_bind (ihe h polarity (.check false content) hgoal)
    intro inner inner' hinner
    exact together_pure ⟨rfl, hgoal, hinner.used, hinner.left, hinner.right⟩
  . apply together_bind (ihe h polarity .synthesize rfl)
    intro inner inner' hinner
    rw [← hinner.ty]
    exact together_conclude _ _ hgoal hinner.isPlain hinner.used

theorem inferredTogether_pair (hk : s.resolve k = k) (hl : t.resolve l = l)
    (iha : InferredTogether env hidden s t k l a) (ihe : InferredTogether env hidden s t k l e)
    : InferredTogether env hidden s t k l (pair pos a e) := by
  intro c d h polarity goal hgoal
  unfold infer
  split
  . next topLevel aTy bTy =>
    have hpair := hgoal
    simp only [Goal.isPlain, Ty.isPlain, Bool.and_eq_true] at hpair
    apply together_bind (iha h polarity (.check false aTy) hpair.1)
    intro left left' hleft
    rw [hleft.left, hleft.right, Ty.substitute_nil]
    apply together_bind (ihe h polarity (.check false bTy) hpair.2)
    intro right right' hright
    rw [hright.left, hright.right]
    apply together_bind (hleft.used.together_combine hright.used hk hl pos)
    intro used used' hused
    exact together_pure ⟨rfl, hgoal, hused, rfl, rfl⟩
  . apply together_bind (iha h polarity .synthesize rfl)
    intro left left' hleft
    apply together_bind (ihe h polarity .synthesize rfl)
    intro right right' hright
    rw [← hleft.ty, ← hright.ty]
    apply together_bind (hleft.used.together_combine hright.used hk hl pos)
    intro used used' hused
    exact together_conclude _ _ hgoal (by simp [Ty.isPlain, hleft.isPlain, hright.isPlain]) hused

theorem together_letDiamondRest (hk : s.resolve k = k) (hl : t.resolve l = l) (pos : Nat) (b : Binder)
    (ihrest : InferredTogether env hidden s t k l rest) (h : Context.Assumed s t k l hidden c d) (polarity : Polarity)
    {goal : Goal} (hgoal : goal.isPlain = true) (effects : List String) {content : Ty} (hcontent : content.isPlain = true)
    (hused : Context.Used k l hidden c count u v)
    : Together s t (letDiamondRest env pos b rest c polarity goal effects content u)
        (letDiamondRest env pos b rest d polarity goal effects content v)
        (Alike k l hidden c (fun x => Grade.addUses (count x) (if x = b.name then none else rest.usage x k))) := by
  unfold letDiamondRest
  have hbind := h.bind (a := .linear content) (b := .linear content) (x := b.name) (fun _ => .linear hcontent)
  apply together_bind (ihrest hbind polarity .synthesize rfl)
  intro second second' hsecond
  rw [← hsecond.ty]
  split
  . next effects' result hty =>
    have hresult := hsecond.isPlain
    rw [hty] at hresult
    apply together_bind (together_checkConsumed hsecond.used b content)
    intro _ _ _
    apply together_bind (hused.together_combine hsecond.used.remove hk hl pos)
    intro used used' hused
    exact together_conclude _ _ hgoal hresult hused
  . exact together_fail

theorem inferredTogether_letDiamond (hk : s.resolve k = k) (hl : t.resolve l = l)
    (hdeclared : declared.all Ty.isPlain = true) (ihvalue : InferredTogether env hidden s t k l value)
    (ihrest : InferredTogether env hidden s t k l rest)
    : InferredTogether env hidden s t k l (letDiamond pos b declared value rest) := by
  intro c d h polarity goal hgoal
  unfold infer
  apply together_bind (ihvalue h polarity .synthesize rfl)
  intro first first' hfirst
  rw [← hfirst.ty]
  split
  . next effects content hty =>
    have hcontent := hfirst.isPlain
    rw [hty] at hcontent
    have hcontent : content.isPlain = true := hcontent
    have hrest := together_letDiamondRest hk hl pos b ihrest h polarity hgoal effects hcontent hfirst.used
    cases declared with
    | none => exact hrest
    | some ty =>
      apply together_bind (Unify.together_relate _ _ hdeclared hcontent _ .eq .eq)
      rintro unified _ ⟨rfl, _⟩
      split
      . exact together_fail_bind
      . exact hrest
  . exact together_fail

theorem inferredTogether_binop (hk : s.resolve k = k) (hl : t.resolve l = l) {op : BinOp}
    (hop : ∀ ty ∈ env.builtins.signatures op, ty.isPlain = true)
    (iha : InferredTogether env hidden s t k l a) (ihe : InferredTogether env hidden s t k l e)
    : InferredTogether env hidden s t k l (binop pos op a e) := by
  intro c d h polarity goal hgoal
  unfold infer
  dsimp only
  have hfits : ∀ left right : Ty, left.isPlain = true → right.isPlain = true →
      Together s t
        (do
          let l ← infer env a c polarity (.check false left)
          let r ← infer env e c polarity (.check false right)
          Context.combine pos l.used r.used)
        (do
          let l ← infer env a d polarity (.check false left)
          let r ← infer env e d polarity (.check false right)
          Context.combine pos l.used r.used)
        (Context.Used k l hidden c (fun x => (binop pos op a e).usage x k)) := by
    intro left right hleft hright
    apply together_bind (iha h polarity (.check false left) hleft)
    intro x x' hx
    apply together_bind (ihe h polarity (.check false right) hright)
    intro y y' hy
    exact hx.used.together_combine hy.used hk hl pos
  apply together_bind (together_firstFit hfits _ _ hop none none)
  . rintro ⟨ty, used⟩ ⟨_, used'⟩ ⟨rfl, hty, hused⟩
    exact together_conclude _ _ hgoal hty hused
  . exact fails_bind_of_ok (fun _ _ _ => fails_fail _ _)
  . exact fails_bind_of_ok (fun _ _ _ => fails_fail _ _)

theorem together_infer (hops : ∀ op, ∀ ty ∈ env.builtins.signatures op, ty.isPlain = true) (hk : s.resolve k = k)
    (hl : t.resolve l = l) (e : Expr) (he : e.isPlain env hidden = true) : InferredTogether env hidden s t k l e := by
  cases e with
  | int pos n | float pos n =>
    intro c d _ polarity goal hgoal
    unfold infer
    cases goal with
    | synthesize => exact together_conclude _ _ rfl rfl .empty
    | check topLevel expected =>
      cases expected with
      | const name =>
        dsimp only
        split
        . exact together_pure ⟨rfl, rfl, .empty, rfl, rfl⟩
        . exact together_conclude _ _ rfl rfl .empty
      | _ => exact together_conclude _ _ hgoal rfl .empty
  | constructor pos name => exact inferredTogether_constructor he
  | var pos name =>
    intro c d h polarity goal hgoal
    simp only [isPlain, Bool.and_eq_true, decide_eq_true_eq] at he
    unfold infer
    apply together_bind (together_varTy pos he.1.1 he.2 h)
    rintro ⟨ty, used⟩ ⟨_, used'⟩ ⟨rfl, hty, hused⟩
    exact together_conclude _ _ hgoal hty hused
  | lam pos b declared body =>
    simp only [isPlain, Bool.and_eq_true] at he
    exact inferredTogether_lam he.1 (together_infer hops hk hl body he.2)
  | app pos f a =>
    simp only [isPlain, Bool.and_eq_true] at he
    exact inferredTogether_app hk hl he.1 (together_infer hops hk hl f he.1) (together_infer hops hk hl a he.2)
  | lift pos e => exact inferredTogether_lift (together_infer hops hk hl e he)
  | pair pos a b =>
    simp only [isPlain, Bool.and_eq_true] at he
    exact inferredTogether_pair hk hl (together_infer hops hk hl a he.1) (together_infer hops hk hl b he.2)
  | letDiamond pos b declared value rest =>
    simp only [isPlain, Bool.and_eq_true] at he
    exact inferredTogether_letDiamond hk hl he.1.1 (together_infer hops hk hl value he.1.2)
      (together_infer hops hk hl rest he.2)
  | binop pos op a b =>
    simp only [isPlain, Bool.and_eq_true] at he
    exact inferredTogether_binop hk hl (hops op) (together_infer hops hk hl a he.1) (together_infer hops hk hl b he.2)
  | promote pos e => cases he
  | case pos scrutinee branches => cases he
  | letBox pos b ty value rest => cases he

end

end Expr
end GradedModal
