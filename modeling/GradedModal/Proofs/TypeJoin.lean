import Mathlib
import GradedModal.Proofs.Comparable
import GradedModal.Proofs.LeastUpperBound

/-!
This module says when the join of two types is above both of them. Whatever values satisfy the constraints of a join
also satisfy those that a comparison with the join collects, as long as boxes are where the comparison goes upward and
variables have one solution.
-/

namespace GradedModal

open CheckM

namespace Ty

/--
Arithmetic in a type is that of indices.
-/
def isRegular : Ty → Bool
  | .op o a b => (Ty.op o a b).toGrade?.isSome
  | .arrow a b => a.isRegular && b.isRegular
  | .app a b => a.isRegular && b.isRegular
  | .pair a b => a.isRegular && b.isRegular
  | .box _ ty => ty.isRegular
  | .diamond _ ty => ty.isRegular
  | _ => true

/--
A variable has an index opposite, or a type that is the same when variables are solved.
-/
def isOpposite (θ : Substitution) (x : String) (ty : Ty) : Bool :=
  (ty.isArithmetic && ty.toGrade?.isSome) || (ty.isRegular && ty.substitute θ = (Ty.var x).substitute θ)

/--
Two types whose join is above both of them, or below both of them where the comparison is flipped. A join only goes
upward, so there are no boxes where the comparison is flipped or exact, and effects are the same where it is flipped.
-/
def isBounded (θ : Substitution) : Bool → Relation → Ty → Ty → Bool
  | flipped, relation, .arrow a b, .arrow a' b' => isBounded θ (!flipped) .le a a' && isBounded θ flipped relation b b'
  | flipped, relation, .app a b, .app a' b' => isBounded θ flipped relation a a' && isBounded θ flipped relation b b'
  | flipped, relation, .pair a b, .pair a' b' => isBounded θ flipped relation a a' && isBounded θ flipped relation b b'
  | flipped, relation, .box _ a, .box _ a' => !flipped && relation = .le && isBounded θ flipped .eq a a'
  | flipped, relation, .diamond effects a, .diamond effects' a' =>
    (!flipped || effects = effects') && isBounded θ flipped relation a a'
  | _, _, .var x, ty => ty.isOpposite θ x
  | _, _, ty, .var x => ty.isOpposite θ x
  | _, _, _, _ => true

theorem isBounded_comm (θ : Substitution) (flipped : Bool) (relation : Relation) (left right : Ty)
    : isBounded θ flipped relation left right = isBounded θ flipped relation right left := by
  fun_induction isBounded θ flipped relation left right with
  | case1 flipped relation a b a' b' iha ihb | case2 flipped relation a b a' b' iha ihb
  | case3 flipped relation a b a' b' iha ihb => simp only [isBounded, iha, ihb]
  | case4 flipped relation g a g' a' ih => simp only [isBounded, ih]
  | case5 flipped relation effects a effects' a' ih => simp only [isBounded, ih, eq_comm]
  | case6 flipped relation x ty =>
    cases ty with
    | var y => simp [isBounded, isOpposite, isArithmetic, isRegular, eq_comm]
    | _ => simp only [isBounded]
  | case7 flipped relation ty x hvar =>
    cases ty with
    | var y => exact absurd rfl (hvar y)
    | _ => simp only [isBounded]
  | case8 flipped relation left right =>
    cases right with
    | _ => cases left <;> simp_all [isBounded]

end Ty

section

variable {env : Env} {s : State} {M : Semantics s} {θ : Substitution} {n : Nat}

theorem Substitution.Solves.substitute_grade (hθ : θ.Solves env s) {g : Grade} {k : GradeKind} (hg : g.HasKind s k)
    : g.substitute θ = g := by
  induction hg with
  | @var x v k hx hk =>
    unfold Grade.substitute
    cases hlookup : θ.lookup x with
    | none => rfl
    | some ty =>
      have hsolvable := (hθ.solvable x ty v (mem_of_lookup hlookup) hx).2
      rw [hk] at hsolvable
      cases hsolvable
  | op _ _ ihg ihh =>
    unfold Grade.substitute
    rw [ihg, ihh]
  | _ => rfl

theorem Substitution.Solves.toGrade?_substitute (hθ : θ.Solves env s) {ty : Ty} {g : Grade} {k : GradeKind}
    (hty : ty.toGrade? = some g) (hg : g.HasKind s k) : (ty.substitute θ).toGrade? = some g := by
  replace hty := Ty.readsAs_of_toGrade? hty
  rw [(hty.substitute ?_).toGrade?, hθ.substitute_grade hg]
  intro x hx image hlookup
  rw [hty.occurrences_eq] at hx
  cases hg.of_mem_occurrences hx with
  | var hx hk =>
    have hvar : (Ty.var x).HasKind env s _ := .var hx
    rw [hk] at hvar
    have himage := hθ.substitute_gradeVar hvar
    unfold Ty.substitute at himage
    rw [hlookup] at himage
    cases himage
    exact ⟨_, .var x⟩

namespace Ty

variable {ty bound : Ty} {k : Kind} {flipped : Bool} {relation : Relation}

theorem HasKind.standsFor_substitute (h : ty.HasKind env s k) (hθ : θ.Solves env s) (hregular : ty.isRegular = true)
    : ty.StandsFor M θ (ty.substitute θ) := by
  induction h with
  | const _ => exact .const _
  | var _ => exact .var rfl
  | index m => exact .index rfl rfl rfl (.nat m) (.nat m) (M.refl (.nat m))
  | op ha hb =>
    obtain ⟨g, hg⟩ := Option.isSome_iff_exists.mp hregular
    have hkind := (HasKind.op ha hb).toGrade? hg
    exact .index rfl hg (hθ.toGrade?_substitute hg hkind) hkind hkind (M.refl hkind)
  | arrow _ _ iha ihb =>
    obtain ⟨ha, hb⟩ := Bool.and_eq_true_iff.mp hregular
    exact .arrow (iha ha) (ihb hb)
  | app _ _ iha ihb =>
    obtain ⟨ha, hb⟩ := Bool.and_eq_true_iff.mp hregular
    exact .app (iha ha) (ihb hb)
  | pair _ _ iha ihb =>
    obtain ⟨ha, hb⟩ := Bool.and_eq_true_iff.mp hregular
    exact .pair (iha ha) (ihb hb)
  | box hg _ ih =>
    unfold Ty.substitute
    rw [hθ.substitute_grade hg]
    exact .box hg hg (M.refl hg) (ih hregular)
  | diamond _ ih => exact .diamond (ih hregular)

/--
A comparison of a type with its bound succeeds, in the direction that is given.
-/
def BoundedBy (M : Semantics s) (env : Env) (θ : Substitution) (n : Nat) (flipped : Bool) (relation : Relation)
    (ty bound : Ty) (k : Kind) : Prop :=
  match flipped with
  | false => ty.Comparable M env θ n relation bound k
  | true => bound.Comparable M env θ n relation ty k

theorem StandsFor.boundedBy {origin : Ty} {l : Kind} (h : ty.StandsFor M θ origin) (h' : bound.StandsFor M θ origin)
    (hs : s.IsAcyclic) (hθ : θ.Solves env s) (hty : ty.HasKind env s k) (hbound : bound.HasKind env s k)
    (horigin : origin.HasKind env s l) (hn : origin.height ≤ n)
    : ty.BoundedBy M env θ n flipped relation bound k := by
  obtain ⟨hle, hge⟩ := h.comparable h' hs hθ hty hbound horigin hn relation
  cases flipped with
  | false => exact hle
  | true => exact hge

variable {a b a' b' : Ty}

theorem BoundedBy.arrow (ha : a.BoundedBy M env θ n (!flipped) .le a' .type)
    (hb : b.BoundedBy M env θ n flipped relation b' .type)
    : (Ty.arrow a b).BoundedBy M env θ (n + 1) flipped relation (.arrow a' b') .type := by
  cases flipped with
  | false | true => exact .arrow ha hb

theorem BoundedBy.app {input output : Kind}
    (ha : a.BoundedBy M env θ n flipped relation a' (.arrow input output))
    (hb : b.BoundedBy M env θ n flipped relation b' input)
    : (Ty.app a b).BoundedBy M env θ (n + 1) flipped relation (.app a' b') output := by
  cases flipped with
  | false | true => exact .app ha hb

theorem BoundedBy.pair (ha : a.BoundedBy M env θ n flipped relation a' .type)
    (hb : b.BoundedBy M env θ n flipped relation b' .type)
    : (Ty.pair a b).BoundedBy M env θ (n + 1) flipped relation (.pair a' b') .type := by
  cases flipped with
  | false | true => exact .pair ha hb

theorem BoundedBy.diamond {effects effects' : List String} (heffects : effects.isPrefixOf effects' = true)
    (hflipped : flipped = true → effects = effects') (ha : a.BoundedBy M env θ n flipped relation a' .type)
    : (Ty.diamond effects a).BoundedBy M env θ (n + 1) flipped relation (.diamond effects' a') .type := by
  cases flipped with
  | false => exact .diamond heffects ha
  | true =>
    cases hflipped rfl
    exact .diamond heffects ha

end Ty

end

section

variable {env : Env} {pos : Nat} {s s₁ s' t : State} {M : Semantics t} {θ : Substitution} {n : Nat}

theorem Semantics.satisfies_of_constrain {c : Constraint} (hM : State.AllDemands M.Satisfies s s')
    (hreaches : s.Reaches s₁) {s₂ : State} {u : Unit} (h : constrain c s₁ = .ok u s₂) (hreaches' : s₂.Reaches s')
    : M.Satisfies c := by
  have hdemands := hM.between hreaches (reaching_constrain _ h) hreaches'
  unfold State.AllDemands at hdemands
  rw [State.demands_constrain h] at hdemands
  exact hdemands c List.mem_cons_self

theorem Semantics.holds_of_unify {k l kind : GradeKind} {c : Constraint} {u : Unit} (hs : s₁.IsOrderly)
    (hM : State.AllDemands M.Satisfies s s') (hreaches : s.Reaches s₁) {s₂ : State}
    (hunify : GradeKind.unify pos k l s₁ = .ok kind s₂) (h : constrain { c with kind := kind } s₂ = .ok u s')
    (hkeeps : s'.Keeps t) : M.Holds c.relation (t.resolve k) c.left c.right := by
  have hunified := (GradeKind.unify_quiet _ _ _ hunify).reaches
  have hs₂ := hs.of_reaches hunified
  have hkeeps₂ := (hs₂.keeps (reaching_constrain _ h)).trans hkeeps
  rw [hkeeps₂.kinds _ _ (GradeKind.resolve_unify hs.acyclic hunify).1, M.holds_resolve]
  exact M.satisfies_of_constrain hM (hreaches.trans hunified) h .refl

structure Semantics.Bounds (M : Semantics t) (kind : GradeKind) (g g' upper : Grade) : Prop where
  left : g.HasKind t kind
  right : g'.HasKind t kind
  bound : upper.HasKind t kind
  left_le : M.Holds .le kind g upper
  right_le : M.Holds .le kind g' upper

theorem Semantics.bounds_of_join {g g' upper : Grade} {kind : GradeKind} {hint : String} {u u' : Unit}
    {s₂ s₃ s₄ : State} (hs : s.IsOrderly) (hkind : Context.commonKind pos g g' s = .ok kind s₁)
    (hupper : freshGrade hint kind s₁ = .ok upper s₂) (hle : constrain (.le pos g upper kind) s₂ = .ok u s₃)
    (hle' : constrain (.le pos g' upper kind) s₃ = .ok u' s₄) (hreaches : s₄.Reaches s') (hkeeps : s'.Keeps t)
    (hM : State.AllDemands M.Satisfies s s')
    : M.Bounds (t.resolve kind) g g' upper ∧ (s.Keeps s₄ ∧ s₄.IsOrderly) ∧
        State.AllDemands M.Satisfies s₄ s' := by
  have hreaches₁ := Context.commonKind_reaching _ _ _ hkind
  have hreaches₂ := reaching_freshGrade _ _ hupper
  have hreaches₃ := reaching_constrain _ hle
  have hreaches₄ := reaching_constrain _ hle'
  have hs₁ := hs.of_reaches hreaches₁
  have hs₂ := hs₁.of_reaches hreaches₂
  have hkeeps₂ := (hs₂.keeps (hreaches₃.trans (hreaches₄.trans hreaches))).trans hkeeps
  have hkeeps₁ := (hs₁.keeps hreaches₂).trans hkeeps₂
  obtain ⟨hg, hg'⟩ := Context.hasKind_commonKind hs.acyclic hkind
  have hholds := M.satisfies_of_constrain hM (hreaches₁.trans hreaches₂) hle (hreaches₄.trans hreaches)
  have hholds' := M.satisfies_of_constrain hM (hreaches₁.trans (hreaches₂.trans hreaches₃)) hle' hreaches
  have hjoined := hreaches₁.trans (hreaches₂.trans (hreaches₃.trans hreaches₄))
  refine ⟨⟨?_, ?_, ?_, ?_, ?_⟩, hs.step hjoined, hM.between hjoined hreaches .refl⟩
  . exact hg.keeps_resolve hs₁.acyclic hkeeps₁
  . exact hg'.keeps_resolve hs₁.acyclic hkeeps₁
  . exact (Grade.hasKind_freshGrade hupper).keeps_resolve hs₂.acyclic hkeeps₂
  . exact M.holds_resolve.mpr hholds
  . exact M.holds_resolve.mpr hholds'

namespace Unify

theorem holds_of_var {x : String} {ty left : Ty} {g : Grade} {k l : GradeKind} {u : Unified} (hs : s.IsOrderly)
    (hx : (Ty.var x).HasKind env s (.grade k)) (hty : ty.HasKind env s (.grade l)) (hg : ty.toGrade? = some g)
    (h : var env pos x ty left s = .ok u s') (hkeeps : s'.Keeps t) (hM : State.AllDemands M.Satisfies s s')
    : M.Holds .eq (t.resolve k) (.var x) g := by
  have hkeeps₀ := (hs.keeps ((var_advancing env pos x ty left).reaching h)).trans hkeeps
  obtain ⟨v, k', hv, hkind, rfl⟩ := hx.lookup?_of_grade
  unfold var at h
  rw [bind_of_ok (typeVar_of_lookup? hv), bind_eq_ok] at h
  obtain ⟨tyKind, s₁, hinfer, h⟩ := h
  obtain ⟨hkeeps₁, hs₁⟩ := hs.step (Ty.inferKind_quiet _ _ _ hinfer).reaches
  have hinferred := (Ty.hasKind_inferKind hs.acyclic hinfer).unique (hty.keeps hs.acyclic hkeeps₁)
  cases tyKind with
  | grade l' =>
    rw [hkind, hg] at h
    simp only [bind_eq_ok, pure_eq_ok] at h
    obtain ⟨kind, s₂, hunify, _, _, hconstrain, _, rfl⟩ := h
    rw [hkeeps₀.kinds.resolve_resolve hs.acyclic]
    exact M.holds_of_unify (c := .eq pos (.var x) g kind) hs₁ hM (Ty.inferKind_quiet _ _ _ hinfer).reaches hunify
      hconstrain hkeeps
  | _ => cases hinferred

theorem holds_of_indices {left right : Ty} {k : GradeKind} {u : Unified} (hs : s.IsOrderly)
    (hleft : left.HasKind env s (.grade k)) (h : indices env pos left right s = .ok u s') (hkeeps : s'.Keeps t)
    (hM : State.AllDemands M.Satisfies s s')
    : ∃ g g', left.toGrade? = some g ∧ right.toGrade? = some g' ∧ M.Holds .eq (t.resolve k) g g' := by
  have hkeeps₀ := (hs.keeps ((indices_advancing env pos left right).reaching h)).trans hkeeps
  unfold indices at h
  rw [bind_eq_ok] at h
  obtain ⟨leftKind, s₁, hinfer, h⟩ := h
  rw [bind_eq_ok] at h
  obtain ⟨rightKind, s₂, hinfer', h⟩ := h
  have hreaches₁ := (Ty.inferKind_quiet _ _ _ hinfer).reaches
  have hreaches₂ := (Ty.inferKind_quiet _ _ _ hinfer').reaches
  have hs₁ := hs.of_reaches hreaches₁
  have hs₂ := hs₁.of_reaches hreaches₂
  generalize left.toGrade? = leftGrade at h ⊢
  generalize right.toGrade? = rightGrade at h ⊢
  split at h
  . next l l' g g' =>
    simp only [bind_eq_ok, pure_eq_ok] at h
    obtain ⟨kind, s₃, hunify, _, _, hconstrain, _, rfl⟩ := h
    have hreaches₃ := (GradeKind.unify_quiet _ _ _ hunify).reaches.trans (reaching_constrain _ hconstrain)
    have hkeeps₁ := (hs₁.keeps (hreaches₂.trans hreaches₃)).trans hkeeps
    have hleft' := (Ty.hasKind_inferKind hs.acyclic hinfer).keeps_resolveKind hs₁.acyclic hkeeps₁
    have hkind := Kind.grade.inj ((hleft.keeps hs.acyclic hkeeps₀).unique hleft')
    refine ⟨g, g', rfl, rfl, ?_⟩
    rw [hkind]
    exact M.holds_of_unify (c := .eq pos g g' kind) hs₂ hM (hreaches₁.trans hreaches₂) hunify hconstrain hkeeps
  . rw [fail_eq_ok] at h
    exact h.elim

end Unify

theorem State.eq_grade_of_resolveKind {k : Kind} {l : GradeKind} (h : s.resolveKind k = .grade l)
    : ∃ k', k = .grade k' := by
  cases k with
  | grade k' => exact ⟨k', rfl⟩
  | _ => cases h

namespace Ty

variable {left right ty origin : Ty} {x : String} {k l m : Kind} {flipped : Bool} {relation : Relation}

theorem standsFor_of_isOpposite (hs : s.IsOrderly) (hθ : θ.Solves env t) (hopposite : ty.isOpposite θ x = true)
    (hx : (Ty.var x).HasKind env s k) (hty : ty.HasKind env s l) (hkind : s'.resolveKind k = s'.resolveKind l)
    (hvar : ty.isVar = false → ∃ left u, Unify.var env pos x ty left s = .ok u s') (hkeeps₀ : s.Keeps t)
    (hkeeps : s'.Keeps t) (hM : State.AllDemands M.Satisfies s s') : ty.StandsFor M θ ((Ty.var x).substitute θ) := by
  have hty' := hty.keeps hs.acyclic hkeeps₀
  unfold isOpposite at hopposite
  rw [Bool.or_eq_true_iff, Bool.and_eq_true_iff, Bool.and_eq_true_iff, decide_eq_true_iff] at hopposite
  obtain ⟨harith, hgrade⟩ | ⟨hregular, heq⟩ := hopposite
  . obtain ⟨g, hg⟩ := Option.isSome_iff_exists.mp hgrade
    obtain ⟨l, rfl⟩ := hty.eq_grade harith
    obtain ⟨k, rfl⟩ := State.eq_grade_of_resolveKind hkind
    obtain ⟨left, u, hrun⟩ := hvar (isVar_of_isArithmetic harith)
    have hx' := hx.keeps hs.acyclic hkeeps₀
    have hholds := Unify.holds_of_var hs hx hty hg hrun hkeeps hM
    have hgkind := hty'.toGrade? hg
    rw [← hkeeps.kinds k l (Kind.grade.inj hkind)] at hgkind
    rw [hθ.substitute_gradeVar hx']
    exact .index harith hg rfl hgkind (hx'.toGrade? rfl) (M.symm hholds)
  . rw [← heq]
    exact hty'.standsFor_substitute hθ hregular

theorem joinByEquality_boundedBy (hs : s.IsOrderly) (ht : t.IsAcyclic) (hθ : θ.Solves env t)
    (hleft : left.HasKind env s k) (hright : right.HasKind env s l)
    (h : left.joinByEquality env pos right s = .ok ty s') (hkeeps : s'.Keeps t)
    (hstands : left.StandsFor M θ origin) (hstands' : right.StandsFor M θ origin) (horigin : origin.HasKind env t m)
    (hn : origin.height ≤ n)
    : left.BoundedBy M env θ n flipped relation ty (t.resolveKind k) ∧
      right.BoundedBy M env θ n flipped relation ty (t.resolveKind k) := by
  have hkeeps₀ := (hs.keeps ((joinByEquality_advancing _ _ _ _).reaching h)).trans hkeeps
  have hkind := hkeeps.kinds.resolveKind (joinByEquality_hasKind hs hleft hright h).2
  have hleft := hleft.keeps hs.acyclic hkeeps₀
  have hright := hright.keeps hs.acyclic hkeeps₀
  rw [← hkind] at hright
  obtain ⟨u, _, _, rfl | rfl⟩ := joinByEquality_eq_ok h
  . exact ⟨hstands.boundedBy hstands ht hθ hleft hleft horigin hn,
      hstands'.boundedBy hstands ht hθ hright hleft horigin hn⟩
  . exact ⟨hstands.boundedBy hstands' ht hθ hleft hright horigin hn,
      hstands'.boundedBy hstands' ht hθ hright hright horigin hn⟩

theorem equal_var_left (hvar : ty.isVar = false) : (Ty.var x).equal env pos ty = Unify.var env pos x ty (.var x) :=
  Unify.relate_var_left hvar

theorem equal_var_right (hvar : ty.isVar = false) : ty.equal env pos (.var x) = Unify.var env pos x ty ty :=
  Unify.relate_var_right hvar

theorem equal_index (hleft : left.isArithmetic = true) (hright : right.isVar = false)
    : left.equal env pos right = Unify.indices env pos left right :=
  Unify.relate_index hleft hright

theorem joinByEquality_var_left (hs : s.IsOrderly) (ht : t.IsAcyclic) (hθ : θ.Solves env t)
    (hopposite : ty.isOpposite θ x = true) (hx : (Ty.var x).HasKind env s k) (hty : ty.HasKind env s l)
    (hn : ((Ty.var x).substitute θ).height ≤ n) {bound : Ty}
    (h : (Ty.var x).joinByEquality env pos ty s = .ok bound s') (hkeeps : s'.Keeps t)
    (hM : State.AllDemands M.Satisfies s s')
    : (Ty.var x).BoundedBy M env θ n flipped relation bound (t.resolveKind k) ∧
      ty.BoundedBy M env θ n flipped relation bound (t.resolveKind k) := by
  obtain ⟨u, hequal, _⟩ := joinByEquality_eq_ok h
  have hkeeps₀ := (hs.keeps ((joinByEquality_advancing _ _ _ _).reaching h)).trans hkeeps
  have hstands := standsFor_of_isOpposite hs hθ hopposite hx hty (joinByEquality_hasKind hs hx hty h).2
    (fun hvar => ⟨_, u, equal_var_left hvar ▸ hequal⟩) hkeeps₀ hkeeps hM
  exact joinByEquality_boundedBy hs ht hθ hx hty h hkeeps (.var rfl) hstands
    ((hx.keeps hs.acyclic hkeeps₀).solve ht hθ.kinds) hn

theorem joinByEquality_var_right (hs : s.IsOrderly) (ht : t.IsAcyclic) (hθ : θ.Solves env t)
    (hopposite : ty.isOpposite θ x = true) (hty : ty.HasKind env s k) (hx : (Ty.var x).HasKind env s l)
    (hn : ((Ty.var x).substitute θ).height ≤ n) {bound : Ty}
    (h : ty.joinByEquality env pos (.var x) s = .ok bound s') (hkeeps : s'.Keeps t)
    (hM : State.AllDemands M.Satisfies s s')
    : ty.BoundedBy M env θ n flipped relation bound (t.resolveKind k) ∧
      (Ty.var x).BoundedBy M env θ n flipped relation bound (t.resolveKind k) := by
  obtain ⟨u, hequal, _⟩ := joinByEquality_eq_ok h
  have hkeeps₀ := (hs.keeps ((joinByEquality_advancing _ _ _ _).reaching h)).trans hkeeps
  have hstands := standsFor_of_isOpposite hs hθ hopposite hx hty (joinByEquality_hasKind hs hty hx h).2.symm
    (fun hvar => ⟨_, u, equal_var_right hvar ▸ hequal⟩) hkeeps₀ hkeeps hM
  exact joinByEquality_boundedBy hs ht hθ hty hx h hkeeps hstands (.var rfl)
    ((hx.keeps hs.acyclic hkeeps₀).solve ht hθ.kinds) hn

theorem joinByEquality_index (hs : s.IsOrderly) (ht : t.IsAcyclic) (hθ : θ.Solves env t)
    (hleft : left.HasKind env s k) (hright : right.HasKind env s l) (harith : left.isArithmetic = true)
    (hvar : right.isVar = false) (hn : 0 < n) (h : left.joinByEquality env pos right s = .ok ty s')
    (hkeeps : s'.Keeps t) (hM : State.AllDemands M.Satisfies s s')
    : left.BoundedBy M env θ n flipped relation ty (t.resolveKind k) ∧
      right.BoundedBy M env θ n flipped relation ty (t.resolveKind k) := by
  obtain ⟨u, hequal, _⟩ := joinByEquality_eq_ok h
  have hkeeps₀ := (hs.keeps ((joinByEquality_advancing _ _ _ _).reaching h)).trans hkeeps
  have hkind := (joinByEquality_hasKind hs hleft hright h).2
  obtain ⟨k, rfl⟩ := hleft.eq_grade harith
  obtain ⟨l, rfl⟩ := State.eq_grade_of_resolveKind hkind.symm
  rw [equal_index harith hvar] at hequal
  obtain ⟨g, g', hg, hg', hholds⟩ := Unify.holds_of_indices hs hleft hequal hkeeps hM
  have hleft' := hleft.keeps hs.acyclic hkeeps₀
  have hgkind := hleft'.toGrade? hg
  have hgkind' := (hright.keeps hs.acyclic hkeeps₀).toGrade? hg'
  rw [← hkeeps.kinds k l (Kind.grade.inj hkind)] at hgkind'
  have hrightArith : right.isArithmetic = true := by
    cases right with
    | index | op => rfl
    | var y => cases hvar
    | _ => cases hg'
  have hheight : left.height = 1 := by
    cases left with
    | index | op => rfl
    | _ => cases harith
  exact joinByEquality_boundedBy hs ht hθ hleft hright h hkeeps (.index harith hg hg hgkind hgkind (M.refl hgkind))
    (.index hrightArith hg' hg hgkind' hgkind (M.symm hholds)) hleft' (hheight ▸ hn)

-- What is known and what is demanded between two joins that follow one another.
theorem joins_in_turn {a b a' b' first second : Ty} (hs : s.IsOrderly) (hfirst : a.join env pos a' s = .ok first s₁)
    (hsecond : b.join env pos b' s₁ = .ok second s') (hkeeps : s'.Keeps t) (hM : State.AllDemands M.Satisfies s s')
    : (s.Keeps s₁ ∧ s₁.IsOrderly) ∧ s₁.Keeps t ∧ State.AllDemands M.Satisfies s s₁ ∧
        State.AllDemands M.Satisfies s₁ s' := by
  have hreaches := (join_advancing _ _ _ _).reaching hfirst
  have hreaches' := (join_advancing _ _ _ _).reaching hsecond
  have hs₁ := hs.of_reaches hreaches
  exact ⟨⟨hs.keeps hreaches, hs₁⟩, (hs₁.keeps hreaches').trans hkeeps, (hreaches.allDemands_iff hreaches').mp hM⟩

theorem join_boundedBy (hs : s.IsOrderly) (ht : t.IsAcyclic) (hθ : θ.Solves env t) (hleft : left.HasKind env s k)
    (hright : right.HasKind env s l) (hbounded : isBounded θ flipped relation left right = true)
    (hn : (left.substitute θ).height ≤ n) (hn' : (right.substitute θ).height ≤ n)
    (h : left.join env pos right s = .ok ty s') (hkeeps : s'.Keeps t) (hM : State.AllDemands M.Satisfies s s')
    : left.BoundedBy M env θ n flipped relation ty (t.resolveKind k) ∧
      right.BoundedBy M env θ n flipped relation ty (t.resolveKind k) := by
  fun_induction join env pos left right generalizing s s' ty k l n flipped relation with
  | case1 arg result arg' result' iharg ihresult =>
    simp only [bind_eq_ok, pure_eq_ok] at h
    obtain ⟨first, s₁, hfirst, second, _, hsecond, rfl, rfl⟩ := h
    obtain ⟨⟨hkeeps₁, hs₁⟩, hkeeps₂, hM₁, hM₂⟩ := joins_in_turn hs hfirst hsecond hkeeps hM
    obtain ⟨hargs, hresults⟩ := Bool.and_eq_true_iff.mp hbounded
    rw [isBounded_comm] at hargs
    obtain ⟨n, rfl⟩ := exists_succ_of_height_le hn
    obtain ⟨hn₁, hn₂⟩ := Nat.max_le.mp (Nat.le_of_succ_le_succ hn)
    obtain ⟨hn₁', hn₂'⟩ := Nat.max_le.mp (Nat.le_of_succ_le_succ hn')
    cases hleft with
    | arrow harg hresult =>
      cases hright with
      | arrow harg' hresult' =>
        obtain ⟨hfirst', hfirst⟩ := iharg hs harg' harg hargs hn₁' hn₁ hfirst hkeeps₂ hM₁
        obtain ⟨hsecond, hsecond'⟩ := ihresult hs₁ (hresult.keeps hs.acyclic hkeeps₁)
          (hresult'.keeps hs.acyclic hkeeps₁) hresults hn₂ hn₂' hsecond hkeeps hM₂
        exact ⟨.arrow hfirst hsecond, .arrow hfirst' hsecond'⟩
  | case2 name =>
    obtain ⟨rfl, rfl⟩ := pure_eq_ok.mp h
    have hconst := hleft.keeps hs.acyclic hkeeps
    have hbound : (Ty.const name).BoundedBy M env θ n flipped relation (.const name) (t.resolveKind k) :=
      (StandsFor.const name).boundedBy (.const name) ht hθ hconst hconst hconst hn
    exact ⟨hbound, hbound⟩
  | case3 | case14 =>
    rw [fail_eq_ok] at h
    exact h.elim
  | case4 effects ty effects' ty' ih =>
    rw [bind_eq_ok] at h
    obtain ⟨inner, s₁, hinner, h⟩ := h
    obtain ⟨heffects, hcontent⟩ := Bool.and_eq_true_iff.mp hbounded
    have hflipped : flipped = true → effects = effects' := by
      rintro rfl
      simpa using heffects
    obtain ⟨n, rfl⟩ := exists_succ_of_height_le hn
    have hn := Nat.le_of_succ_le_succ hn
    have hn' := Nat.le_of_succ_le_succ hn'
    cases hleft with
    | diamond hleft =>
      cases hright with
      | diamond hright =>
        split at h
        . next hprefix =>
          obtain ⟨rfl, rfl⟩ := pure_eq_ok.mp h
          obtain ⟨hinner, hinner'⟩ := ih hs hleft hright hcontent hn hn' hinner hkeeps hM
          exact ⟨.diamond hprefix hflipped hinner, .diamond (by simp) (fun _ => rfl) hinner'⟩
        . split at h
          . next hprefix =>
            obtain ⟨rfl, rfl⟩ := pure_eq_ok.mp h
            obtain ⟨hinner, hinner'⟩ := ih hs hleft hright hcontent hn hn' hinner hkeeps hM
            exact ⟨.diamond (by simp) (fun _ => rfl) hinner, .diamond hprefix (fun h => (hflipped h).symm) hinner'⟩
          . rw [fail_eq_ok] at h
            exact h.elim
  | case5 grade ty grade' ty' ih =>
    rw [Context.commonKind_bind] at h
    simp only [bind_eq_ok, pure_eq_ok] at h
    obtain ⟨kind, s₁, hkind, upper, s₂, hupper, _, s₃, hle, _, s₄, hle', inner, _, hinner, rfl, rfl⟩ := h
    have hreaches := (join_advancing _ _ _ _).reaching hinner
    obtain ⟨hbounds, ⟨hkeeps₄, hs₄⟩, hM₄⟩ := M.bounds_of_join hs hkind hupper hle hle' hreaches hkeeps hM
    simp only [isBounded, Bool.and_eq_true, Bool.not_eq_true', decide_eq_true_eq] at hbounded
    obtain ⟨⟨rfl, rfl⟩, hcontent⟩ := hbounded
    obtain ⟨n, rfl⟩ := exists_succ_of_height_le hn
    cases hleft with
    | box _ hleft =>
      cases hright with
      | box _ hright =>
        obtain ⟨hinner, hinner'⟩ := ih hs₄ (hleft.keeps hs.acyclic hkeeps₄) (hright.keeps hs.acyclic hkeeps₄) hcontent
          (Nat.le_of_succ_le_succ hn) (Nat.le_of_succ_le_succ hn') hinner hkeeps hM₄
        exact ⟨Comparable.box hbounds.left hbounds.bound hbounds.left_le hinner,
          Comparable.box hbounds.right hbounds.bound hbounds.right_le hinner'⟩
  | case6 a b a' b' iha ihb =>
    simp only [bind_eq_ok, pure_eq_ok] at h
    obtain ⟨first, s₁, hfirst, second, _, hsecond, rfl, rfl⟩ := h
    obtain ⟨⟨hkeeps₁, hs₁⟩, hkeeps₂, hM₁, hM₂⟩ := joins_in_turn hs hfirst hsecond hkeeps hM
    obtain ⟨hheads, hargs⟩ := Bool.and_eq_true_iff.mp hbounded
    obtain ⟨n, rfl⟩ := exists_succ_of_height_le hn
    obtain ⟨hn₁, hn₂⟩ := Nat.max_le.mp (Nat.le_of_succ_le_succ hn)
    obtain ⟨hn₁', hn₂'⟩ := Nat.max_le.mp (Nat.le_of_succ_le_succ hn')
    cases hleft with
    | app ha hb =>
      cases hright with
      | app ha' hb' =>
        obtain ⟨hfirst, hfirst'⟩ := iha hs ha ha' hheads hn₁ hn₁' hfirst hkeeps₂ hM₁
        obtain ⟨hsecond, hsecond'⟩ := ihb hs₁ (hb.keeps hs.acyclic hkeeps₁) (hb'.keeps hs.acyclic hkeeps₁) hargs hn₂
          hn₂' hsecond hkeeps hM₂
        rw [hkeeps₂.kinds.resolveKind_resolveKind hs₁.acyclic] at hsecond hsecond'
        exact ⟨.app hfirst hsecond, .app hfirst' hsecond'⟩
  | case7 a b a' b' iha ihb =>
    simp only [bind_eq_ok, pure_eq_ok] at h
    obtain ⟨first, s₁, hfirst, second, _, hsecond, rfl, rfl⟩ := h
    obtain ⟨⟨hkeeps₁, hs₁⟩, hkeeps₂, hM₁, hM₂⟩ := joins_in_turn hs hfirst hsecond hkeeps hM
    obtain ⟨hfirsts, hseconds⟩ := Bool.and_eq_true_iff.mp hbounded
    obtain ⟨n, rfl⟩ := exists_succ_of_height_le hn
    obtain ⟨hn₁, hn₂⟩ := Nat.max_le.mp (Nat.le_of_succ_le_succ hn)
    obtain ⟨hn₁', hn₂'⟩ := Nat.max_le.mp (Nat.le_of_succ_le_succ hn')
    cases hleft with
    | pair ha hb =>
      cases hright with
      | pair ha' hb' =>
        obtain ⟨hfirst, hfirst'⟩ := iha hs ha ha' hfirsts hn₁ hn₁' hfirst hkeeps₂ hM₁
        obtain ⟨hsecond, hsecond'⟩ := ihb hs₁ (hb.keeps hs.acyclic hkeeps₁) (hb'.keeps hs.acyclic hkeeps₁) hseconds
          hn₂ hn₂' hsecond hkeeps hM₂
        exact ⟨.pair hfirst hsecond, .pair hfirst' hsecond'⟩
  | case8 x | case10 x ty hvar => exact joinByEquality_var_left hs ht hθ hbounded hleft hright hn h hkeeps hM
  | case9 x y hxy =>
    rw [bind_eq_ok] at h
    obtain ⟨v, _, hv, h⟩ := h
    obtain ⟨hx, rfl⟩ := lookup?_of_typeVar hv
    rw [bind_eq_ok] at h
    obtain ⟨w, _, hw, h⟩ := h
    obtain ⟨hy, rfl⟩ := lookup?_of_typeVar hw
    generalize hvkind : v.kind = vkind at h
    generalize hwkind : w.kind = wkind at h
    split at h
    . -- Variables for grades are only solved by themselves.
      simp only [bind_eq_ok, pure_eq_ok] at h
      obtain ⟨kind, s₁, hunify, _, _, hconstrain, _, rfl⟩ := h
      have hkeeps₀ := (GradeKind.resolve_unify_constrain hs hunify hconstrain).1.trans hkeeps
      have hx := hθ.substitute_var (hkeeps₀.lookup? x v hx) (.inr (by simp [hvkind, Kind.gradeKind?]))
      have hy := hθ.substitute_var (hkeeps₀.lookup? y w hy) (.inr (by simp [hwkind, Kind.gradeKind?]))
      have heq : (Ty.var y).substitute θ = (Ty.var x).substitute θ := by
        simpa [isBounded, isOpposite, isArithmetic, isRegular] using hbounded
      rw [hx, hy] at heq
      exact absurd (Ty.var.inj heq).symm hxy
    . exact joinByEquality_var_left hs ht hθ hbounded hleft hright hn h hkeeps hM
  | case11 ty x hvar =>
    rw [isBounded_comm] at hbounded
    exact joinByEquality_var_right hs ht hθ hbounded hleft hright hn' h hkeeps hM
  | case12 m right hvar | case13 o a b right hvar =>
    have hpos := Nat.lt_of_lt_of_le (height_pos _) hn
    exact joinByEquality_index hs ht hθ hleft hright rfl (isVar_of_ne hvar) hpos h hkeeps hM

end Ty

end

/--
Whether an assignment of naturals and levels satisfies a constraint, at the kind that a state settles for it. Doubles
are left alone.
-/
def Constraint.IsSatisfied (s : State) (a : Assignment) (c : Constraint) : Prop :=
  (s.settle c.kind).IsDiscrete → { c with kind := s.settle c.kind }.holds a = .ok true

theorem Constraint.isSatisfied_iff_of_nat {s : State} {a : Assignment} {c : Constraint} (hkind : c.kind = .nat)
    : c.IsSatisfied s a ↔ c.holds a = .ok true := by
  obtain ⟨pos, relation, left, right, kind⟩ := c
  cases hkind
  unfold IsSatisfied
  rw [s.settle_nat]
  exact ⟨fun h => h (.inl rfl), fun h _ => h⟩

namespace Semantics

variable {s : State} {a : Assignment}

/--
What constraints mean under an assignment. Doubles are equal up to a tolerance, which is no congruence.
-/
def ofAssignment (hs : s.IsAcyclic) (ha : s.IsAssigned s a) : Semantics s where
  Holds relation k g h := Constraint.IsSatisfied s a ⟨0, relation, g, h, k⟩
  holds_resolve {relation k g h} := by
    unfold Constraint.IsSatisfied
    dsimp only
    rw [State.settle_congr (hs.resolve_resolve k)]
  refl {k g} hg hkind := by
    obtain ⟨v, hv, hvkind⟩ := hg.exists_evaluate_settle hs .refl hkind ha
    exact (Constraint.holds_iff hkind).mpr ⟨v, v, hv, hv, hvkind, rfl⟩
  symm {k g h} hholds hkind := by
    obtain ⟨v, _, hv, hw, hvkind, rfl⟩ := (Constraint.holds_iff hkind).mp (hholds hkind)
    exact (Constraint.holds_iff hkind).mpr ⟨v, v, hw, hv, hvkind, rfl⟩
  trans {relation k g h i} hholds hholds' hkind := by
    obtain ⟨u, v, hu, hv, hukind, huv⟩ := (Constraint.holds_iff hkind).mp (hholds hkind)
    obtain ⟨_, w, hv', hw, _, hvw⟩ := (Constraint.holds_iff hkind).mp (hholds' hkind)
    cases hv.symm.trans hv'
    exact (Constraint.holds_iff hkind).mpr ⟨u, w, hu, hw, hukind, Relation.onValue_trans huv hvw⟩
  le_of_eq {k g h} hholds hkind := by
    obtain ⟨v, _, hv, hw, hvkind, rfl⟩ := (Constraint.holds_iff hkind).mp (hholds hkind)
    exact (Constraint.holds_iff hkind).mpr ⟨v, v, hv, hw, hvkind, Value.le_refl hkind hvkind⟩
  op_congr {o k g g' h h'} hholds hholds' hkind := by
    obtain ⟨v, _, hv, hv', hvkind, rfl⟩ := (Constraint.holds_iff hkind).mp (hholds hkind)
    obtain ⟨w, _, hw, hw', hwkind, rfl⟩ := (Constraint.holds_iff hkind).mp (hholds' hkind)
    obtain ⟨u, hu, hukind⟩ := o.apply_of_kind hvkind hwkind
    refine (Constraint.holds_iff hkind).mpr ⟨u, u, ?_, ?_, hukind, rfl⟩
    . rw [Grade.evaluate, hv, hw]
      exact hu
    . rw [Grade.evaluate, hv', hw']
      exact hu

end Semantics

theorem Substitution.Solves.keeps {env : Env} {s s' : State} {θ : Substitution} (h : θ.Solves env s)
    (hs : s.IsAcyclic) (hkeeps : s.Keeps s') : θ.Solves env s' where
  kinds := h.kinds.keeps hs hkeeps
  solvable x ty v hmem hx := by
    obtain ⟨w, hw, _⟩ := h.kinds x ty hmem
    cases hx.symm.trans (hkeeps.lookup? x w hw)
    exact h.solvable x ty v hmem hw

/-- The state in which one variable stands for a type and one for a natural. -/
def State.withTypeAndNatural : State :=
  { start with typeVars := [⟨"a", .type, .instantiated⟩, ⟨"n", .grade .nat, .universal⟩] }

namespace Ty

variable {env : Env} {pos : Nat} {s s' : State} {θ : Substitution} {left right ty : Ty} {k l : Kind}

-- A comparison that passes collects constraints that the assignment satisfies.
theorem Comparable.approx {a : Assignment} (hs : s.IsAcyclic) (ha : s.IsAssigned s a) (hθ : θ.Solves env s)
    (h : left.Comparable (.ofAssignment hs ha) env θ Unify.maxDepth .le right k) (pos : Nat)
    : ∃ u t, left.approx env pos right s = .ok u t ∧ u.agree = true ∧ ∀ c ∈ s.demands t, c.IsSatisfied t a := by
  obtain ⟨u, t, hu, hscope, _, hholds, hagrees⟩ := Unify.passes_relate hs hθ h le_rfl s ⟨rfl, rfl⟩
  refine ⟨u, t, hu, hagrees.1, fun c hc => ?_⟩
  have hsatisfied : c.IsSatisfied s a := hholds c hc
  unfold Constraint.IsSatisfied State.settle at hsatisfied ⊢
  rw [State.resolve_congr hscope.kinds]
  exact hsatisfied

/--
The join of two types is an upper bound. Whatever assignment satisfies the constraints that it collects, comparing
either type with the join finds that they agree, and collects constraints that the assignment satisfies.
-/
theorem join_isUpperBound (hs : s.IsOrderly) (hleft : left.HasKind env s k) (hright : right.HasKind env s l)
    (hθ : θ.Solves env s) (hbounded : isBounded θ false .le left right = true)
    (hheight : (left.substitute θ).height ≤ Unify.maxDepth) (hheight' : (right.substitute θ).height ≤ Unify.maxDepth)
    (h : left.join env pos right s = .ok ty s') {a : Assignment} (ha : s'.IsAssigned s' a)
    (hdemands : ∀ c ∈ s.demands s', c.IsSatisfied s' a)
    : ∀ branch ∈ [left, right], ∀ pos', ∃ u t, branch.approx env pos' ty s' = .ok u t ∧ u.agree = true ∧
        ∀ c ∈ s'.demands t, c.IsSatisfied t a := by
  obtain ⟨hkeeps, hs'⟩ := hs.step ((join_advancing _ _ _ _).reaching h)
  have hθ' := hθ.keeps hs.acyclic hkeeps
  obtain ⟨hle, hle'⟩ := join_boundedBy (M := .ofAssignment hs'.acyclic ha) hs hs'.acyclic hθ' hleft hright hbounded
    hheight hheight' h ⟨fun _ _ hx => hx, fun _ _ hkl => hkl⟩ hdemands
  rw [List.forall_mem_cons, List.forall_mem_singleton]
  exact ⟨hle.approx hs'.acyclic ha hθ', hle'.approx hs'.acyclic ha hθ'⟩

/-- Functions from a number that a variable stands for. -/
def someBranch : Ty :=
  .arrow (Builtins.number (.var "n")) (.box (.nat 1) (.var "a"))

def otherBranch : Ty :=
  .arrow (Builtins.number (.index 3)) (.box (.nat 4) (.const "Int"))

theorem join_isUpperBound_someBranch
    : ∃ ty s', someBranch.join ⟨.standard, []⟩ 0 otherBranch .withTypeAndNatural = .ok ty s' ∧
        s'.IsAssigned s' [("n", .nat 3), ("join.0", .nat 5)] ∧
        (∀ c ∈ State.withTypeAndNatural.demands s', c.IsSatisfied s' [("n", .nat 3), ("join.0", .nat 5)]) ∧
        ∃ u t, someBranch.approx ⟨.standard, []⟩ 0 ty s' = .ok u t ∧ u.agree = true ∧
          ∀ c ∈ s'.demands t, c.IsSatisfied t [("n", .nat 3), ("join.0", .nat 5)] := by
  have hjoin : yields (someBranch.join ⟨.standard, []⟩ 0 otherBranch) .withTypeAndNatural
      (fun _ s' => decide (
        s'.typeVars = ⟨"join.0", .grade .nat, .instantiated⟩ :: State.withTypeAndNatural.typeVars ∧
        State.withTypeAndNatural.demands s' = [.eq 0 (.var "n") (.nat 3) .nat, .le 0 (.nat 1) (.var "join.0") .nat,
          .le 0 (.nat 4) (.var "join.0") .nat])) = true := by
    cbv
  obtain ⟨ty, s', hjoin, hs'⟩ := exists_of_yields hjoin
  obtain ⟨htypeVars, hdemands⟩ := of_decide_eq_true hs'
  have hs : State.withTypeAndNatural.IsOrderly := .of_isDotless rfl (by decide)
  have hsolves : Substitution.Solves ⟨.standard, []⟩ .withTypeAndNatural [("a", .const "Int")] := by
    refine ⟨.singleton rfl (.const rfl), ?_⟩
    intro x ty v hmem hx
    cases List.mem_singleton.mp hmem
    cases hx
    exact ⟨by decide, rfl⟩
  have ha : s'.IsAssigned s' [("n", .nat 3), ("join.0", .nat 5)] := by
    apply State.isAssigned_of_naturals
    rw [htypeVars]
    simp [State.withTypeAndNatural, List.lookup_cons]
  have hsatisfied : ∀ c ∈ State.withTypeAndNatural.demands s',
      c.IsSatisfied s' [("n", .nat 3), ("join.0", .nat 5)] := by
    rw [hdemands]
    simp only [List.forall_mem_cons, Constraint.isSatisfied_iff_of_nat, Constraint.eq, Constraint.le]
    exact ⟨rfl, rfl, rfl, List.forall_mem_nil _⟩
  refine ⟨ty, s', hjoin, ha, hsatisfied, ?_⟩
  exact join_isUpperBound hs ((isKinded_iff hs.acyclic).mp fun _ => rfl) ((isKinded_iff hs.acyclic).mp fun _ => rfl)
    hsolves (by decide) (by decide) (by decide) hjoin ha hsatisfied someBranch List.mem_cons_self 0

/-- Functions that use their argument at most as often as is given. -/
def user (n : Nat) : Ty :=
  .arrow (.box (.nat n) (.const "Int")) (.const "Int")

-- The grade of an argument is joined upward too, so that no bound is above either function.
theorem join_not_above_user
    : ∃ ty s' u t, (user 1).join ⟨.standard, []⟩ 0 (user 4) .start = .ok ty s' ∧
        s'.IsAssigned s' [("join.0", .nat 4)] ∧
        (∀ c ∈ State.start.demands s', c.IsSatisfied s' [("join.0", .nat 4)]) ∧
        (user 1).approx ⟨.standard, []⟩ 0 ty s' = .ok u t ∧
        ∀ a, (∀ c ∈ State.start.demands s', c.IsSatisfied s' a) → ¬∀ c ∈ s'.demands t, c.IsSatisfied t a := by
  have hjoin : yields ((user 1).join ⟨.standard, []⟩ 0 (user 4)) .start
      (fun ty s' => decide (
        s'.typeVars = [⟨"join.0", .grade .nat, .instantiated⟩] ∧
        State.start.demands s' = [.le 0 (.nat 4) (.var "join.0") .nat, .le 0 (.nat 1) (.var "join.0") .nat]) &&
        yields ((user 1).approx ⟨.standard, []⟩ 0 ty) s' fun _ t =>
          decide (s'.demands t = [.le 0 (.var "join.0") (.nat 1) .nat])) = true := by
    cbv
  obtain ⟨ty, s', hjoin, hs'⟩ := exists_of_yields hjoin
  obtain ⟨hs', happrox⟩ := Bool.and_eq_true_iff.mp hs'
  obtain ⟨htypeVars, hdemands⟩ := of_decide_eq_true hs'
  obtain ⟨u, t, happrox, ht⟩ := exists_of_yields happrox
  refine ⟨ty, s', u, t, hjoin, ?_, ?_, happrox, ?_⟩
  . apply State.isAssigned_of_naturals
    rw [htypeVars]
    simp
  . rw [hdemands]
    simp only [List.forall_mem_cons, Constraint.isSatisfied_iff_of_nat, Constraint.le]
    exact ⟨rfl, rfl, List.forall_mem_nil _⟩
  . intro a hjoined
    rw [hdemands, List.forall_mem_cons, Constraint.isSatisfied_iff_of_nat rfl] at hjoined
    rw [of_decide_eq_true ht, List.forall_mem_singleton, Constraint.isSatisfied_iff_of_nat rfl]
    intro hcompared
    obtain ⟨_, v, ⟨⟩, hv, _, hlower⟩ := (Constraint.holds_le_iff (.inl rfl)).mp hjoined.1
    obtain ⟨w, _, hw, ⟨⟩, _, hupper⟩ := (Constraint.holds_le_iff (.inl rfl)).mp hcompared
    cases hv.symm.trans hw
    exact absurd (Relation.onValue_trans (r := .le) hlower hupper) (by simp [Relation.onValue, Value.nat_le_iff])

end Ty

end GradedModal
