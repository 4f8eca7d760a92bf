import Mathlib
import GradedModal.Proofs.ParallelTypes

/-!
This module says that what is done with contexts does not depend on how variables are called. The variables of a context
are paired independently of the variables of its types.
-/

namespace GradedModal

open CheckM

inductive Assumption.Paired (W : Pairing) : Assumption → Assumption → Prop where
  | linear {ty ty' : Ty} : ty.Paired W ty' → Assumption.Paired W (.linear ty) (.linear ty')
  | graded {ty ty' : Ty} {g g' : Grade} :
    ty.Paired W ty' → g.Paired W g' → Assumption.Paired W (.graded ty g) (.graded ty' g')

namespace Assumption.Paired

variable {W V : Pairing} {a a' : Assumption}

theorem mono (h : a.Paired W a') (hWV : W ≤ V) : a.Paired V a' := by
  cases h with
  | linear h => exact .linear (h.mono hWV)
  | graded h hg => exact .graded (h.mono hWV) (hg.mono hWV)

theorem ty (h : a.Paired W a') : a.ty.Paired W a'.ty := by
  cases h with
  | linear h => exact h
  | graded h _ => exact h

theorem isLinear (h : a.Paired W a') : a.isLinear = a'.isLinear := by
  cases h <;> rfl

theorem scale {g g' : Grade} (h : a.Paired W a') (hg : g.Paired W g') : (a.scale g).Paired W (a'.scale g') := by
  cases h with
  | linear h => exact .graded h hg
  | graded h hused => exact .graded h (.op .times hg hused)

end Assumption.Paired

/--
Contexts that bind corresponding variables in the same order. The names of variables correspond by `T`, those of the
variables in their types by `W`.
-/
def Context.Paired (T W : Pairing) (c c' : Context) : Prop :=
  T.Tables (Assumption.Paired W) c.bindings c'.bindings

theorem forall₂_filter {α β : Type} {R S : α → β → Prop} {p : α → Bool} {q : β → Bool} {l : List α} {l' : List β}
    (h : List.Forall₂ R l l') (hpq : ∀ a ∈ l, ∀ b, R a b → p a = q b)
    (hS : ∀ a ∈ l, ∀ b, R a b → p a = true → S a b) : List.Forall₂ S (l.filter p) (l'.filter q) := by
  induction h with
  | nil => exact .nil
  | @cons a b l l' hab _ ih =>
    have hrest := ih (fun a ha => hpq a (List.mem_cons_of_mem _ ha)) fun a ha => hS a (List.mem_cons_of_mem _ ha)
    rw [List.filter_cons, List.filter_cons, ← hpq a List.mem_cons_self b hab]
    split
    . next hp => exact .cons (hS a List.mem_cons_self b hab hp) hrest
    . exact hrest

theorem forall₂_filterMap_id {α β : Type} {R : α → β → Prop} {l : List (Option α)} {l' : List (Option β)}
    (h : List.Forall₂ (Option.Rel R) l l') : List.Forall₂ R (l.filterMap id) (l'.filterMap id) := by
  induction h with
  | nil => exact .nil
  | cons hab _ ih =>
    cases hab with
    | none => exact ih
    | some hab => exact .cons hab ih

namespace Context

theorem isConsumed_eq {W : Pairing} {o o' : Option Assumption} (h : Option.Rel (Assumption.Paired W) o o')
    : isConsumed o = isConsumed o' := by
  cases h with
  | none => rfl
  | some h =>
    cases h with
    | linear _ => rfl
    | graded _ hg => exact hg.isZero

theorem paired_empty {T W : Pairing} : empty.Paired T W empty :=
  .nil

theorem paired_singleton {T W : Pairing} {x y : String} {a b : Assumption} (hxy : T.rel x y) (hab : a.Paired W b)
    : (singleton x a).Paired T W (singleton y b) :=
  .cons ⟨hxy, hab⟩ .nil

namespace Paired

variable {T T' W V : Pairing} {c c' u u' : Context} {x y : String} {a b : Assumption}

theorem mono (h : c.Paired T W c') (hWV : W ≤ V) : c.Paired T V c' :=
  Pairing.Tables.imp h le_rfl fun _ _ hab => hab.mono hWV

theorem lookup? (h : c.Paired T W c') (hxy : T.rel x y)
    : Option.Rel (Assumption.Paired W) (c.lookup? x) (c'.lookup? y) :=
  Pairing.Tables.lookup h hxy

theorem contains (h : c.Paired T W c') (hxy : T.rel x y) : c.contains x = c'.contains y := by
  have hlookup := h.lookup? hxy
  unfold Context.contains
  generalize c.lookup? x = o at hlookup
  generalize c'.lookup? y = o' at hlookup
  cases hlookup <;> rfl

theorem names (h : c.Paired T W c') : List.Forall₂ T.rel c.names c'.names := by
  apply List.forall₂_map_left_iff.mpr
  apply List.forall₂_map_right_iff.mpr
  exact List.Forall₂.imp (fun _ _ hpq => hpq.1) h

theorem mem_names (h : c.Paired T W c') (hxy : T.rel x y) : x ∈ c.names ↔ y ∈ c'.names := by
  rw [← isSome_lookup?_iff, ← isSome_lookup?_iff]
  have hcontains := h.contains hxy
  unfold Context.contains at hcontains
  rw [hcontains]

theorem exists_mem_names (h : c.Paired T W c') (hy : y ∈ c'.names) : ∃ x ∈ c.names, T.rel x y := by
  have hnames := h.names
  generalize c.names = l at hnames
  generalize c'.names = l' at hnames hy
  induction hnames with
  | nil => cases hy
  | @cons a b l l' hab _ ih =>
    obtain rfl | hy := List.mem_cons.mp hy
    . exact ⟨a, List.mem_cons_self, hab⟩
    . obtain ⟨x, hx, hxy⟩ := ih hy
      exact ⟨x, List.mem_cons_of_mem _ hx, hxy⟩

theorem filter {p q : String → Assumption → Bool} (h : c.Paired T W c')
    (hpq : ∀ x y a b, x ∈ c.names → T.rel x y → a.Paired W b → p x a = q y b)
    (hT : ∀ x y a, x ∈ c.names → T.rel x y → p x a = true → T'.rel x y) : (c.filter p).Paired T' W (c'.filter q) := by
  have hname : ∀ r ∈ c.bindings, r.1 ∈ c.names := fun r hr => List.mem_map_of_mem hr
  apply forall₂_filter h
  . rintro ⟨x, a⟩ hx ⟨y, b⟩ hxy
    exact hpq x y a b (hname _ hx) hxy.1 hxy.2
  . rintro ⟨x, a⟩ hx ⟨y, b⟩ hxy hp
    exact ⟨hT x y a (hname _ hx) hxy.1 hp, hxy.2⟩

theorem gradedOnly (h : c.Paired T W c') : c.gradedOnly.Paired T W c'.gradedOnly := by
  apply h.filter
  . intro x y a b _ _ hab
    rw [hab.isLinear]
  . intro x y a _ hxy _
    exact hxy

theorem remove (h : c.Paired T W c') (hxy : T.rel x y) : (c.remove x).Paired T W (c'.remove y) := by
  apply h.filter
  . intro z w a b _ hzw _
    unfold bne
    rw [T.beq_eq hzw hxy]
  . intro z w a _ hzw _
    exact hzw

theorem bind (h : c.Paired T W c') (hxy : T.rel x y) (hab : a.Paired W b) : (c.bind x a).Paired T W (c'.bind y b) :=
  List.rel_append (h.remove hxy) (.cons ⟨hxy, hab⟩ .nil)

theorem foldl_bind {l l' : List (String × Assumption)} (h : c.Paired T W c') (hl : T.Tables (Assumption.Paired W) l l')
    : Context.Paired T W (l.foldl (fun c p => c.bind p.1 p.2) c) (l'.foldl (fun c p => c.bind p.1 p.2) c') := by
  induction hl generalizing c c' with
  | nil => exact h
  | cons hpq _ ih => exact ih (h.bind hpq.1 hpq.2)

theorem ofList {l l' : List (String × Assumption)} (hl : T.Tables (Assumption.Paired W) l l')
    : (Context.ofList l).Paired T W (Context.ofList l') :=
  foldl_bind paired_empty hl

theorem restrict {vars vars' : List String} (h : c.Paired T W c') (hvars : ∀ x y, T.rel x y → (x ∈ vars ↔ y ∈ vars'))
    : (c.restrict vars).Paired T W (c'.restrict vars') := by
  apply h.filter
  . intro x y a b _ hxy _
    rw [Bool.eq_iff_iff, List.contains_iff_mem, List.contains_iff_mem]
    exact hvars x y hxy
  . intro x y a _ hxy _
    exact hxy

theorem intersect (h : c.Paired T W c') (hu : u.Paired T W u') : (c.intersect u).Paired T W (c'.intersect u') := by
  apply h.filter
  . intro x y a b _ hxy _
    exact hu.contains hxy
  . intro x y a _ hxy _
    exact hxy

theorem scale {vars vars' : List String} {g g' : Grade} (h : c.Paired T W c')
    (hvars : ∀ x y, T.rel x y → (x ∈ vars ↔ y ∈ vars')) (hg : g.Paired W g')
    : (c.scale vars g).Paired T W (c'.scale vars' g') := by
  apply List.forall₂_map_left_iff.mpr
  apply List.forall₂_map_right_iff.mpr
  exact List.Forall₂.imp (fun _ _ hpq => ⟨hpq.1, hpq.2.scale hg⟩) (h.restrict hvars)

theorem remainingLinear (h : c.Paired T W c') (hu : u.Paired T W u')
    : List.Forall₂ T.rel (c.remainingLinear u) (c'.remainingLinear u') := by
  apply names (W := W)
  apply h.filter
  . intro x y a b _ hxy hab
    rw [hab.isLinear, isConsumed_eq (hu.lookup? hxy)]
  . intro x y a _ hxy _
    exact hxy

theorem isEmpty_remainingLinear (h : c.Paired T W c') (hu : u.Paired T W u')
    : (c.remainingLinear u).isEmpty = (c'.remainingLinear u').isEmpty := by
  rw [Bool.eq_iff_iff, List.isEmpty_iff_length_eq_zero, List.isEmpty_iff_length_eq_zero,
    (h.remainingLinear hu).length_eq]

end Paired

section

variable {n d : Nat} {T W : Pairing} {c c' u u' : Context} {x y : String} {a a' b b' : Assumption}

theorem addUses_parallel (pos : Nat) (x y : String) (ha : a.Paired W a') (hb : b.Paired W b')
    : Parallel n d W Assumption.Paired (addUses pos x a b) (addUses pos y a' b') := by
  cases ha with
  | linear hty =>
    cases hb with
    | linear _ => exact parallel_fail rfl
    | graded hty' hg =>
      apply (Grade.inferKind_parallel pos hg).bind
      intro V hV k k' hk
      exact parallel_pure (.graded (hty'.mono hV) (.op .plus (hg.mono hV) (.one hk)))
  | graded hty hg =>
    cases hb with
    | linear _ =>
      apply (Grade.inferKind_parallel pos hg).bind
      intro V hV k k' hk
      exact parallel_pure (.graded (hty.mono hV) (.op .plus (hg.mono hV) (.one hk)))
    | graded _ hg' => exact parallel_pure (.graded hty (.op .plus hg hg'))

theorem extend_parallel (pos : Nat) (hc : c.Paired T W c') (hxy : T.rel x y) (ha : a.Paired W a')
    : Parallel n d W (Context.Paired T) (c.extend pos x a) (c'.extend pos y a') := by
  have hlookup := hc.lookup? hxy
  unfold extend
  generalize c.lookup? x = o at hlookup
  generalize c'.lookup? y = o' at hlookup
  cases hlookup with
  | none => exact parallel_pure (List.rel_append hc (.cons ⟨hxy, ha⟩ .nil))
  | some hknown =>
    apply parallel_ite
    . unfold bne
      rw [hknown.ty.beq_eq ha.ty]
    . intro _ _
      exact parallel_fail_bind rfl
    . intro _ _
      apply (addUses_parallel pos x y hknown ha).bind
      intro V hV sum sum' hsum
      apply parallel_pure
      apply List.forall₂_map_left_iff.mpr
      apply List.forall₂_map_right_iff.mpr
      refine List.Forall₂.imp ?_ (hc.mono hV)
      rintro ⟨z, b⟩ ⟨w, b'⟩ ⟨hzw, hb⟩
      have heq := T.eq_iff hzw hxy
      dsimp only at heq ⊢
      by_cases hzx : z = x
      . rw [if_pos hzx, if_pos (heq.mp hzx)]
        exact ⟨hzw, hsum⟩
      . rw [if_neg hzx, if_neg fun hwy => hzx (heq.mpr hwy)]
        exact ⟨hzw, hb⟩

theorem combine_parallel (pos : Nat) (hc : c.Paired T W c') (hu : u.Paired T W u')
    : Parallel n d W (Context.Paired T) (combine pos c u) (combine pos c' u') := by
  apply parallel_foldlM (P := fun V => T.Entries (Assumption.Paired V)) _ hc hu
  . rintro V hV u u' ⟨x, a⟩ ⟨y, b⟩ hu hxy
    exact extend_parallel pos hu hxy.1 hxy.2
  . intro W V p q hWV hpq
    exact ⟨hpq.1, hpq.2.mono hWV⟩

theorem leAssumption_parallel (pos : Nat) (x y : String) {o o' : Option Assumption} (ha : a.Paired W a')
    (ho : Option.Rel (Assumption.Paired W) o o')
    : Parallel n d W (fun _ _ _ => True) (leAssumption pos x a o) (leAssumption pos y a' o') := by
  cases ho with
  | none => cases ha <;> exact parallel_pure trivial
  | some hb =>
    cases ha with
    | linear _ =>
      cases hb with
      | linear _ => exact parallel_pure trivial
      | graded _ _ => exact parallel_fail rfl
    | graded _ hg =>
      cases hb with
      | linear _ => exact parallel_fail rfl
      | graded _ hh =>
        apply (commonKind_parallel pos hg hh).bind
        intro V hV kind kind' hkind
        exact parallel_constrain (hg.mono hV) (hh.mono hV) hkind

theorem le_parallel (pos : Nat) (hc : c.Paired T W c') (hu : u.Paired T W u')
    : Parallel n d W (fun _ _ _ => True) (le pos c u) (le pos c' u') := by
  apply parallel_forM (P := fun V => T.Entries (Assumption.Paired V)) _ hc
  . rintro V hV ⟨x, a⟩ ⟨y, b⟩ hxy
    exact leAssumption_parallel pos x y hxy.2 ((hu.mono hV).lookup? hxy.1)
  . intro W V p q hWV hpq
    exact ⟨hpq.1, hpq.2.mono hWV⟩

theorem useOrWeaken_parallel (pos : Nat) {o o' p p' : Option Assumption} (ho : Option.Rel (Assumption.Paired W) o o')
    (hp : Option.Rel (Assumption.Paired W) p p')
    : Parallel n d W (fun V => Option.Rel (Assumption.Paired V)) (useOrWeaken pos o p) (useOrWeaken pos o' p') := by
  cases ho with
  | some ha => exact parallel_pure (.some ha)
  | none =>
    cases hp with
    | none => exact parallel_pure .none
    | some hb =>
      cases hb with
      | linear _ => exact parallel_pure .none
      | graded hty hg =>
        apply (Grade.inferKind_parallel pos hg).bind
        intro V hV k k' hk
        exact parallel_pure (.some (.graded (hty.mono hV) (.zero hk)))

theorem joinUses_parallel (pos : Nat) (x y : String) {o o' p p' : Option Assumption}
    (ho : Option.Rel (Assumption.Paired W) o o') (hp : Option.Rel (Assumption.Paired W) p p')
    : Parallel n d W (fun V => Option.Rel (Assumption.Paired V)) (joinUses pos x o p) (joinUses pos y o' p') := by
  cases ho with
  | none => exact parallel_pure .none
  | some ha =>
    cases hp with
    | none => cases ha <;> exact parallel_pure .none
    | some hb =>
      cases ha with
      | linear hty =>
        cases hb with
        | linear _ => exact parallel_pure (.some (.linear hty))
        | graded _ _ => exact parallel_fail rfl
      | graded hty hg =>
        cases hb with
        | linear _ => exact parallel_fail rfl
        | graded _ hh =>
          apply (commonKind_parallel pos hg hh).bind
          intro V₁ hV₁ kind kind' hkind
          apply (parallel_freshGrade x y hkind).bind
          intro V₂ hV₂ upper upper' hupper
          have hV := le_trans hV₁ hV₂
          apply (parallel_constrain (hg.mono hV) hupper (hkind.mono hV₂)).bind
          intro V₃ hV₃ _ _ _
          have hV := le_trans hV hV₃
          apply (parallel_constrain (hh.mono hV) (hupper.mono hV₃) (hkind.mono (le_trans hV₂ hV₃))).bind
          intro V₄ hV₄ _ _ _
          exact parallel_pure (.some (.graded (hty.mono (le_trans hV hV₄)) (hupper.mono (le_trans hV₃ hV₄))))

theorem joinVar_parallel (pos : Nat) (hc : c.Paired T W c') (hu : u.Paired T W u') (hxy : T.rel x y)
    : Parallel n d W (fun V => Option.Rel (Assumption.Paired V)) (joinVar pos c u x) (joinVar pos c' u' y) := by
  rw [joinVar_eq, joinVar_eq]
  apply (useOrWeaken_parallel pos (hc.lookup? hxy) (hu.lookup? hxy)).bind
  intro V₁ hV₁ l l' hl
  apply (useOrWeaken_parallel pos ((hu.mono hV₁).lookup? hxy) ((hc.mono hV₁).lookup? hxy)).bind
  intro V₂ hV₂ r r' hr
  exact joinUses_parallel pos x y (rel_imp hl fun _ _ h => h.mono hV₂) hr

theorem join_parallel (pos : Nat) (hc : c.Paired T W c') (hu : u.Paired T W u')
    : Parallel n d W (Context.Paired T) (c.join pos u) (c'.join pos u') := by
  have hnames : List.Forall₂ T.rel (c.names ++ u.names.filter (!c.contains ·))
      (c'.names ++ u'.names.filter (!c'.contains ·)) := by
    apply List.rel_append hc.names
    apply forall₂_filter hu.names
    . intro x _ y hxy
      rw [hc.contains hxy]
    . intro x _ y hxy _
      exact hxy
  apply (parallel_mapM (P := fun _ => T.rel) (R := fun V => Option.Rel (T.Entries (Assumption.Paired V))) _ _ hnames
    _).bind
  . intro V hV bindings bindings' hbindings
    exact parallel_pure (forall₂_filterMap_id hbindings)
  . intro W V x y _ hxy
    exact hxy
  . intro W V p q hWV hpq
    exact rel_imp hpq fun _ _ h => ⟨h.1, h.2.mono hWV⟩
  . intro V hV x y hxy
    apply (joinVar_parallel pos (hc.mono hV) (hu.mono hV) hxy).bind
    intro V' hV' o o' ho
    exact parallel_pure (rel_map ho fun _ _ hab => ⟨hxy, hab⟩)

theorem freshenVar_parallel (pos : Nat) (x y : String) {k k' : GradeKind} (hk : k.Paired W k') (ha : a.Paired W a')
    : Parallel n d W Assumption.Paired (freshenVar pos k x a) (freshenVar pos k' y a') := by
  cases ha with
  | linear hty => exact parallel_pure (.graded hty (.one hk))
  | graded hty hg =>
    apply (Grade.inferKind_parallel pos hg).bind
    intro V₁ hV₁ l l' hl
    apply (GradeKind.unify_parallel pos hl (hk.mono hV₁)).bind
    intro V₂ hV₂ kind kind' hkind
    apply (parallel_freshGrade x y hkind).bind
    intro V₃ hV₃ upper upper' hupper
    exact parallel_pure (.graded (hty.mono (le_trans hV₁ (le_trans hV₂ hV₃))) hupper)

theorem freshen_parallel (pos : Nat) {vars vars' : List String} {g g' : Grade}
    (hvars : ∀ x y, T.rel x y → (x ∈ vars ↔ y ∈ vars')) (hc : c.Paired T W c') (hg : g.Paired W g')
    : Parallel n d W (Context.Paired T) (freshen pos vars c g) (freshen pos vars' c' g') := by
  apply (Grade.inferKind_parallel pos hg).bind
  intro V₁ hV₁ k k' hk
  apply (parallel_mapM (P := fun V => T.Entries (Assumption.Paired V)) (R := fun V => T.Entries (Assumption.Paired V))
    _ _ ((hc.mono hV₁).restrict hvars) _).bind
  . intro V hV bindings bindings' hbindings
    exact parallel_pure hbindings
  . intro W V p q hWV hpq
    exact ⟨hpq.1, hpq.2.mono hWV⟩
  . intro W V p q hWV hpq
    exact ⟨hpq.1, hpq.2.mono hWV⟩
  . rintro V hV ⟨x, a⟩ ⟨y, b⟩ ⟨hxy, hab⟩
    apply (freshenVar_parallel pos x y (hk.mono hV) hab).bind
    intro V' hV' a' b' hab'
    exact parallel_pure ⟨hxy, hab'⟩

end

end Context

end GradedModal
