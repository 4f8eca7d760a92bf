import Mathlib
import GradedModal.Proofs.Pairing

/-!
This module runs two checks side by side in states that correspond to each other. Both make up names as they go, and
the pairing of their names grows along. If the checks ask for the same things in the same order, they succeed together,
with results that correspond, or they fail together.
-/

namespace GradedModal

open CheckM

/--
A name that is not made up from a supply that starts at `n`.
-/
def Older (n : Nat) (a : String) : Prop :=
  ∀ hint k, a = hint ++ "." ++ toString k → k < n

section

variable {n m : Nat} {a : String}

theorem Older.mono (h : Older n a) (hnm : n ≤ m) : Older m a :=
  fun hint k ha => lt_of_lt_of_le (h hint k ha) hnm

theorem older_of_isDotless (h : isDotless a = true) (n : Nat) : Older n a := by
  rintro hint k rfl
  rw [isDotless_freshName] at h
  cases h

theorem older_freshName (hint : String) {k : Nat} (hk : k < n) : Older n (hint ++ "." ++ toString k) := by
  intro hint' k' h
  rw [← freshName_inj h]
  exact hk

end

/--
Two states are the same up to their names. The supply of names of the second is ahead by `d` of that of the first,
which started at `n`.
-/
structure State.Paired (n d : Nat) (W : Pairing) (s t : State) : Prop where
  predicate : List.Forall₂ (Predicate.Paired W) s.predicate t.predicate
  scopes : List.Forall₂ (Scope.Paired W) s.scopes t.scopes
  typeVars : List.Forall₂ (TypeVar.Paired W) s.typeVars t.typeVars
  kinds : W.Tables (GradeKind.Paired W) s.kinds t.kinds
  started : n ≤ s.nextFresh
  nextFresh : t.nextFresh = s.nextFresh + d
  older : ∀ a b, W.rel a b → Older s.nextFresh a ∧ Older t.nextFresh b

namespace State.Paired

variable {n d : Nat} {W V : Pairing} {s t : State}

theorem resolve {k k' : GradeKind} (h : s.Paired n d W t) (hk : k.Paired W k')
    : (s.resolve k).Paired W (t.resolve k') := by
  have hgo : ∀ fuel {k k' : GradeKind}, k.Paired W k' →
      (State.resolve.go s fuel k).Paired W (State.resolve.go t fuel k') := by
    intro fuel
    induction fuel with
    | zero =>
      intro k k' hk
      cases hk with
      | var hk => exact .var hk
      | _ => constructor
    | succ fuel ih =>
      intro k k' hk
      cases hk with
      | @var a b hk =>
        have hlookup := h.kinds.lookup hk
        simp only [State.resolve.go]
        revert hlookup
        generalize s.kinds.lookup a = o
        generalize t.kinds.lookup b = o'
        rintro (hnext | _)
        . exact ih hnext
        . exact .var hk
      | _ => constructor
  have hlength : s.kinds.length = t.kinds.length := h.kinds.length_eq
  unfold State.resolve
  rw [hlength]
  exact hgo _ hk

theorem lookup? {a b : String} (h : s.Paired n d W t) (hab : W.rel a b)
    : Option.Rel (TypeVar.Paired W) (s.lookup? a) (t.lookup? b) := by
  unfold State.lookup?
  have htypeVars := h.typeVars
  generalize s.typeVars = vs at htypeVars
  generalize t.typeVars = vs' at htypeVars
  induction htypeVars with
  | nil => exact .none
  | @cons v v' vs vs' hv _ ih =>
    have hname := W.eq_iff hv.name hab
    by_cases hva : v.name = a
    . rw [List.find?_cons_of_pos (by simpa using hva), List.find?_cons_of_pos (by simpa using hname.mp hva)]
      exact .some hv
    . rw [List.find?_cons_of_neg (by simpa using hva),
        List.find?_cons_of_neg (by simpa using fun hvb => hva (hname.mpr hvb))]
      exact ih

theorem add {p p' : Predicate} (h : s.Paired n d W t) (hp : p.Paired W p') : (s.add p).Paired n d W (t.add p') := by
  obtain ⟨predicate, scopes, typeVars, kinds, nextFresh⟩ := s
  obtain ⟨predicate', scopes', typeVars', kinds', nextFresh'⟩ := t
  have hscopes := h.scopes
  dsimp only at hscopes
  have happend : ∀ {ps ps' : List Predicate}, List.Forall₂ (Predicate.Paired W) ps ps' →
      List.Forall₂ (Predicate.Paired W) (ps ++ [p]) (ps' ++ [p']) :=
    fun hps => List.rel_append hps (.cons hp .nil)
  cases hscopes with
  | nil => exact { h with predicate := happend h.predicate }
  | @cons scope scope' scopes scopes' hscope hscopes =>
    refine { h with scopes := .cons ?_ hscopes }
    unfold Scope.add
    rw [← hscope.inConsequent]
    split
    . exact ⟨hscope.antecedent, happend hscope.consequent, rfl⟩
    . exact ⟨happend hscope.antecedent, hscope.consequent, rfl⟩

end State.Paired

namespace CheckM

/--
Two checks end in the same way in states that are paired by `W`: with results that are related by `R` in a pairing that
extends `W`, or with errors of which both or none are about the form of a type.
-/
def Parallel {α β : Type} (n d : Nat) (W : Pairing) (R : Pairing → α → β → Prop) (x : CheckM α) (y : CheckM β) : Prop :=
  ∀ s t, s.Paired n d W t →
    (∃ V a b s' t', W ≤ V ∧ x s = .ok a s' ∧ y t = .ok b t' ∧ s'.Paired n d V t' ∧ R V a b) ∨
      ∃ e e' s' t', x s = .error e s' ∧ y t = .error e' t' ∧ e.cause.isShape = e'.cause.isShape

section

variable {α β γ δ : Type} {n d : Nat} {W : Pairing} {R : Pairing → α → β → Prop} {S : Pairing → γ → δ → Prop}
  {x : CheckM α} {y : CheckM β}

theorem parallel_pure {a : α} {b : β} (h : R W a b) : Parallel n d W R (pure a) (pure b) :=
  fun s t hst => .inl ⟨W, a, b, s, t, le_rfl, rfl, rfl, hst, h⟩

theorem parallel_throw {e e' : Error} (h : e.cause.isShape = e'.cause.isShape)
    : Parallel n d W R (throw e) (throw e') :=
  fun s t _ => .inr ⟨e, e', s, t, rfl, rfl, h⟩

theorem parallel_fail {pos pos' : Nat} {cause cause' : Cause} (h : cause.isShape = cause'.isShape)
    : Parallel n d W R (fail pos cause) (fail pos' cause') :=
  parallel_throw h

theorem parallel_fail_bind {pos pos' : Nat} {cause cause' : Cause} {f : α → CheckM γ} {g : β → CheckM δ}
    (h : cause.isShape = cause'.isShape) : Parallel n d W S (fail pos cause >>= f) (fail pos' cause' >>= g) :=
  fun s t _ => .inr ⟨_, _, s, t, rfl, rfl, h⟩

theorem Parallel.bind {f : α → CheckM γ} {g : β → CheckM δ} (h : Parallel n d W R x y)
    (hfg : ∀ V, W ≤ V → ∀ a b, R V a b → Parallel n d V S (f a) (g b)) : Parallel n d W S (x >>= f) (y >>= g) := by
  intro s t hst
  obtain ⟨V, a, b, s', t', hWV, hx, hy, hst', hab⟩ | ⟨e, e', s', t', hx, hy, he⟩ := h s t hst
  . rw [bind_of_ok hx, bind_of_ok hy]
    obtain ⟨V', c, c', s₁, t₁, hVV', hf⟩ | hfails := hfg V hWV a b hab s' t' hst'
    . exact .inl ⟨V', c, c', s₁, t₁, le_trans hWV hVV', hf⟩
    . exact .inr hfails
  . rw [bind_of_error hx, bind_of_error hy]
    exact .inr ⟨e, e', s', t', rfl, rfl, he⟩

theorem Parallel.imp {R' : Pairing → α → β → Prop} (h : Parallel n d W R x y)
    (hR : ∀ V, W ≤ V → ∀ a b, R V a b → R' V a b) : Parallel n d W R' x y := by
  intro s t hst
  obtain ⟨V, a, b, s', t', hWV, hx, hy, hst', hab⟩ | hfails := h s t hst
  . exact .inl ⟨V, a, b, s', t', hWV, hx, hy, hst', hR V hWV a b hab⟩
  . exact .inr hfails

theorem Parallel.and {P : α → Prop} (h : Parallel n d W R x y) (hP : ∀ s s' a, x s = .ok a s' → P a)
    : Parallel n d W (fun V a b => R V a b ∧ P a) x y := by
  intro s t hst
  obtain ⟨V, a, b, s', t', hWV, hx, hy, hst', hab⟩ | hfails := h s t hst
  . exact .inl ⟨V, a, b, s', t', hWV, hx, hy, hst', hab, hP s s' a hx⟩
  . exact .inr hfails

theorem Parallel.map {f : α → γ} {g : β → δ} (h : Parallel n d W R x y)
    (hfg : ∀ V, W ≤ V → ∀ a b, R V a b → S V (f a) (g b)) : Parallel n d W S (f <$> x) (g <$> y) := by
  rw [map_eq_pure_bind, map_eq_pure_bind]
  exact h.bind fun V hWV a b hab => parallel_pure (hfg V hWV a b hab)

theorem Parallel.discard (h : Parallel n d W R x y)
    : Parallel n d W (fun _ _ _ => True) (discard x) (discard y) :=
  h.map fun _ _ _ _ _ => trivial

theorem Parallel.succeeds_iff {s t : State} (h : Parallel n d W R x y) (hst : s.Paired n d W t)
    : (∃ a s', x s = .ok a s') ↔ ∃ b t', y t = .ok b t' := by
  obtain ⟨V, a, b, s', t', _, hx, hy, _, _⟩ | ⟨e, e', s', t', hx, hy, _⟩ := h s t hst
  . exact ⟨fun _ => ⟨b, t', hy⟩, fun _ => ⟨a, s', hx⟩⟩
  . constructor
    . rintro ⟨_, _, h⟩
      rw [hx] at h
      cases h
    . rintro ⟨_, _, h⟩
      rw [hy] at h
      cases h

theorem parallel_ite {p q : Prop} [Decidable p] [Decidable q] {x' : CheckM α} {y' : CheckM β} (hpq : p ↔ q)
    (h : p → q → Parallel n d W R x y) (h' : ¬p → ¬q → Parallel n d W R x' y')
    : Parallel n d W R (if p then x else x') (if q then y else y') := by
  by_cases hp : p
  . rw [if_pos hp, if_pos (hpq.mp hp)]
    exact h hp (hpq.mp hp)
  . rw [if_neg hp, if_neg fun hq => hp (hpq.mpr hq)]
    exact h' hp fun hq => hp (hpq.mpr hq)

theorem Parallel.mapError {f g : Error → Error} (h : Parallel n d W R x y)
    (hfg : ∀ e e', e.cause.isShape = e'.cause.isShape → (f e).cause.isShape = (g e').cause.isShape)
    : Parallel n d W R (mapError f x) (mapError g y) := by
  intro s t hst
  unfold CheckM.mapError
  obtain ⟨V, a, b, s', t', hWV, hx, hy, hst', hab⟩ | ⟨e, e', s', t', hx, hy, he⟩ := h s t hst
  . rw [hx, hy]
    exact .inl ⟨V, a, b, s', t', hWV, rfl, rfl, hst', hab⟩
  . rw [hx, hy]
    exact .inr ⟨_, _, s', t', rfl, rfl, hfg e e' he⟩

inductive Settled (R : α → β → Prop) : Except Error α → Except Error β → Prop where
  | ok {a : α} {b : β} : R a b → Settled R (.ok a) (.ok b)
  | error {e e' : Error} : e.cause.isShape = e'.cause.isShape → Settled R (.error e) (.error e')

theorem Parallel.attempt (h : Parallel n d W R x y)
    : Parallel n d W (fun V => Settled (R V)) (attempt x) (attempt y) := by
  intro s t hst
  unfold CheckM.attempt
  obtain ⟨V, a, b, s', t', hWV, hx, hy, hst', hab⟩ | ⟨e, e', s', t', hx, hy, he⟩ := h s t hst
  . rw [hx, hy]
    exact .inl ⟨V, _, _, s', t', hWV, rfl, rfl, hst', .ok hab⟩
  . rw [hx, hy]
    exact .inl ⟨W, _, _, s, t, le_rfl, rfl, rfl, hst, .error he⟩

theorem Parallel.dryRun_fail {pos pos' : Nat} {cause : α → Cause} {cause' : β → Cause} (h : Parallel n d W R x y)
    (hcause : ∀ a b, (cause a).isShape = (cause' b).isShape)
    : Parallel n d W S (dryRun x >>= fun a => fail pos (cause a)) (dryRun y >>= fun b => fail pos' (cause' b)) := by
  intro s t hst
  obtain ⟨V, a, b, s', t', _, hx, hy, _, _⟩ | ⟨e, e', s', t', hx, hy, he⟩ := h s t hst
  . have hdry : dryRun x s = .ok a s := by
      rw [dryRun, hx]
    have hdry' : dryRun y t = .ok b t := by
      rw [dryRun, hy]
    rw [bind_of_ok hdry, bind_of_ok hdry']
    exact .inr ⟨_, _, s, t, rfl, rfl, hcause a b⟩
  . have hdry : dryRun x s = .error e s := by
      rw [dryRun, hx]
    have hdry' : dryRun y t = .error e' t := by
      rw [dryRun, hy]
    rw [bind_of_error hdry, bind_of_error hdry']
    exact .inr ⟨e, e', s, t, rfl, rfl, he⟩

theorem parallel_get : Parallel n d W (State.Paired n d) (get : CheckM State) (get : CheckM State) :=
  fun s t hst => .inl ⟨W, s, t, s, t, le_rfl, rfl, rfl, hst, hst⟩

theorem parallel_modify {f g : State → State} (h : ∀ s t, s.Paired n d W t → (f s).Paired n d W (g t))
    : Parallel n d W (fun _ _ _ => True) (modify f : CheckM Unit) (modify g : CheckM Unit) :=
  fun s t hst => .inl ⟨W, (), (), f s, g t, le_rfl, rfl, rfl, h s t hst, trivial⟩

end

section

/-!
Lists are gone through element by element. What corresponds at first still does later, when the pairing has grown.
-/

variable {α β γ δ : Type} {n d : Nat} {W : Pairing} {P : Pairing → α → β → Prop} {R : Pairing → γ → δ → Prop}
  {l : List α} {l' : List β}

theorem parallel_forM {f : α → CheckM PUnit} {g : β → CheckM PUnit}
    (hP : ∀ W V a b, W ≤ V → P W a b → P V a b) (hl : List.Forall₂ (P W) l l')
    (hfg : ∀ V, W ≤ V → ∀ a b, P V a b → Parallel n d V (fun _ _ _ => True) (f a) (g b))
    : Parallel n d W (fun _ _ _ => True) (l.forM f) (l'.forM g) := by
  rw [List.forM_eq_forM, List.forM_eq_forM]
  induction l generalizing l' W with
  | nil =>
    cases hl
    exact parallel_pure trivial
  | cons a l ih =>
    obtain ⟨b, l', hab, hrest, rfl⟩ := List.forall₂_cons_left_iff.mp hl
    rw [List.forM_cons, List.forM_cons]
    apply (hfg W le_rfl a b hab).bind
    intro V hWV _ _ _
    exact ih (hrest.imp fun _ _ => hP _ _ _ _ hWV) fun V' hVV' => hfg V' (le_trans hWV hVV')

theorem parallel_mapM {f : α → CheckM γ} {g : β → CheckM δ}
    (hP : ∀ W V a b, W ≤ V → P W a b → P V a b) (hR : ∀ W V a b, W ≤ V → R W a b → R V a b)
    (hl : List.Forall₂ (P W) l l') (hfg : ∀ V, W ≤ V → ∀ a b, P V a b → Parallel n d V R (f a) (g b))
    : Parallel n d W (fun V => List.Forall₂ (R V)) (l.mapM f) (l'.mapM g) := by
  induction l generalizing l' W with
  | nil =>
    cases hl
    exact parallel_pure .nil
  | cons a l ih =>
    obtain ⟨b, l', hab, hrest, rfl⟩ := List.forall₂_cons_left_iff.mp hl
    rw [List.mapM_cons, List.mapM_cons]
    apply (hfg W le_rfl a b hab).bind
    intro V hWV c c' hc
    apply (ih (hrest.imp fun _ _ => hP _ _ _ _ hWV) fun V' hVV' => hfg V' (le_trans hWV hVV')).bind
    intro V' hVV' cs cs' hcs
    exact parallel_pure (.cons (hR _ _ _ _ hVV' hc) hcs)

theorem parallel_filterMapM {f : α → CheckM (Option γ)} {g : β → CheckM (Option δ)}
    (hP : ∀ W V a b, W ≤ V → P W a b → P V a b) (hR : ∀ W V a b, W ≤ V → R W a b → R V a b)
    (hl : List.Forall₂ (P W) l l')
    (hfg : ∀ V, W ≤ V → ∀ a b, P V a b → Parallel n d V (fun V => Option.Rel (R V)) (f a) (g b))
    : Parallel n d W (fun V => List.Forall₂ (R V)) (l.filterMapM f) (l'.filterMapM g) := by
  induction l generalizing l' W with
  | nil =>
    cases hl
    exact parallel_pure .nil
  | cons a l ih =>
    obtain ⟨b, l', hab, hrest, rfl⟩ := List.forall₂_cons_left_iff.mp hl
    rw [List.filterMapM_cons, List.filterMapM_cons]
    apply (hfg W le_rfl a b hab).bind
    intro V hWV c c' hc
    have htail := ih (hrest.imp fun _ _ => hP _ _ _ _ hWV) fun V' hVV' => hfg V' (le_trans hWV hVV')
    cases hc with
    | none => exact htail
    | some hc => exact htail.bind fun V' hVV' _ _ hcs => parallel_pure (.cons (hR _ _ _ _ hVV' hc) hcs)

theorem parallel_foldlM {f : γ → α → CheckM γ} {g : δ → β → CheckM δ} {c : γ} {c' : δ}
    (hP : ∀ W V a b, W ≤ V → P W a b → P V a b) (hl : List.Forall₂ (P W) l l') (hc : R W c c')
    (hfg : ∀ V, W ≤ V → ∀ c c' a b, R V c c' → P V a b → Parallel n d V R (f c a) (g c' b))
    : Parallel n d W R (l.foldlM f c) (l'.foldlM g c') := by
  induction l generalizing l' W c c' with
  | nil =>
    cases hl
    exact parallel_pure hc
  | cons a l ih =>
    obtain ⟨b, l', hab, hrest, rfl⟩ := List.forall₂_cons_left_iff.mp hl
    rw [List.foldlM_cons, List.foldlM_cons]
    apply (hfg W le_rfl c c' a b hc hab).bind
    intro V hWV c₁ c₁' hc₁
    exact ih (hrest.imp fun _ _ => hP _ _ _ _ hWV) hc₁ fun V' hVV' => hfg V' (le_trans hWV hVV')

end

section

variable {n d : Nat} {W : Pairing} {a b hint hint' : String}

structure MadeUp (n d : Nat) (hint hint' : String) (W : Pairing) (a b : String) : Prop where
  rel : W.rel a b
  numbered : ∃ k, n ≤ k ∧ a = hint ++ "." ++ toString k ∧ b = hint' ++ "." ++ toString (k + d)

theorem parallel_freshName (hint hint' : String)
    : Parallel n d W (MadeUp n d hint hint') (freshName hint) (freshName hint') := by
  intro s t hst
  have hnew : ∀ b', ¬W.rel (hint ++ "." ++ toString s.nextFresh) b' :=
    fun b' h => lt_irrefl _ ((hst.older _ _ h).1 _ _ rfl)
  have hnew' : ∀ a', ¬W.rel a' (hint' ++ "." ++ toString t.nextFresh) :=
    fun a' h => lt_irrefl _ ((hst.older _ _ h).2 _ _ rfl)
  have hWV : W ≤ W.insert _ _ hnew hnew' := fun _ _ h => .inl h
  refine .inl ⟨W.insert _ _ hnew hnew', _, _, _, _, hWV, rfl, rfl, ?_, .inr ⟨rfl, rfl⟩, ?_⟩
  . constructor
    . exact hst.predicate.imp fun _ _ h => h.mono hWV
    . exact hst.scopes.imp fun _ _ h => h.mono hWV
    . exact hst.typeVars.imp fun _ _ h => h.mono hWV
    . exact hst.kinds.imp hWV fun _ _ h => h.mono hWV
    . exact le_trans hst.started (Nat.le_succ _)
    . change t.nextFresh + 1 = s.nextFresh + 1 + d
      rw [hst.nextFresh]
      omega
    . rintro a b (h | ⟨rfl, rfl⟩)
      . exact (hst.older a b h).imp (·.mono (Nat.le_succ _)) (·.mono (Nat.le_succ _))
      . exact ⟨older_freshName _ (Nat.lt_succ_self _), older_freshName _ (Nat.lt_succ_self _)⟩
  . exact ⟨s.nextFresh, hst.started, rfl, by rw [hst.nextFresh]⟩

theorem parallel_bindTypeVar {kind kind' : Kind} (hab : W.rel a b) (hkind : kind.Paired W kind')
    (quantifier : Quantifier)
    : Parallel n d W (fun _ _ _ => True) (bindTypeVar a kind quantifier) (bindTypeVar b kind' quantifier) :=
  parallel_modify fun _ _ hst => { hst with typeVars := .cons ⟨hab, hkind, rfl⟩ hst.typeVars }

theorem parallel_freshTypeVar (hint hint' : String) {kind kind' : Kind} (hkind : kind.Paired W kind')
    (quantifier : Quantifier)
    : Parallel n d W (fun V => V.rel) (freshTypeVar hint kind quantifier) (freshTypeVar hint' kind' quantifier) := by
  apply (parallel_freshName hint hint').bind
  intro V hWV a b hab
  apply (parallel_bindTypeVar hab.rel (hkind.mono hWV) quantifier).bind
  intro V' hVV' _ _ _
  exact parallel_pure (hVV' _ _ hab.rel)

theorem parallel_freshGrade (hint hint' : String) {kind kind' : GradeKind} (hkind : kind.Paired W kind')
    : Parallel n d W Grade.Paired (freshGrade hint kind) (freshGrade hint' kind') :=
  (parallel_freshTypeVar hint hint' (.grade hkind) .instantiated).bind fun _ _ _ _ hab => parallel_pure (.var hab)

theorem parallel_freshGradeKind (hint hint' : String)
    : Parallel n d W GradeKind.Paired (freshGradeKind hint) (freshGradeKind hint') :=
  (parallel_freshName hint hint').bind fun _ _ _ _ hab => parallel_pure (.var hab.rel)

theorem parallel_typeVar (pos : Nat) (hab : W.rel a b)
    : Parallel n d W TypeVar.Paired (typeVar pos a) (typeVar pos b) := by
  apply parallel_get.bind
  intro V hWV s t hst
  have hlookup := hst.lookup? (hWV _ _ hab)
  revert hlookup
  generalize s.lookup? a = o
  generalize t.lookup? b = o'
  rintro (hv | _)
  . exact parallel_pure hv
  . exact parallel_fail rfl

theorem parallel_resolve {k k' : GradeKind} (hk : k.Paired W k')
    : Parallel n d W GradeKind.Paired (resolve k) (resolve k') :=
  parallel_get.bind fun _ hWV _ _ hst => parallel_pure (hst.resolve (hk.mono hWV))

theorem parallel_bindGradeKind {k k' : GradeKind} (hab : W.rel a b) (hk : k.Paired W k')
    : Parallel n d W (fun _ _ _ => True) (bindGradeKind a k) (bindGradeKind b k') :=
  parallel_modify fun _ _ hst => { hst with kinds := .cons ⟨hab, hk⟩ hst.kinds }

theorem parallel_constrain {pos : Nat} {relation : Relation} {g g' h h' : Grade} {k k' : GradeKind}
    (hg : g.Paired W g') (hh : h.Paired W h') (hk : k.Paired W k')
    : Parallel n d W (fun _ _ _ => True) (constrain ⟨pos, relation, g, h, k⟩) (constrain ⟨pos, relation, g', h', k'⟩) :=
  parallel_modify fun _ _ hst => hst.add (.atom ⟨rfl, rfl, hg, hh, hk⟩)

theorem parallel_openScope : Parallel n d W (fun _ _ _ => True) openScope openScope :=
  parallel_modify fun _ _ hst => { hst with scopes := .cons ⟨.nil, .nil, rfl⟩ hst.scopes }

theorem parallel_enterConsequent : Parallel n d W (fun _ _ _ => True) enterConsequent enterConsequent := by
  apply parallel_modify
  intro s t hst
  obtain ⟨predicate, scopes, typeVars, kinds, nextFresh⟩ := s
  obtain ⟨predicate', scopes', typeVars', kinds', nextFresh'⟩ := t
  have hscopes := hst.scopes
  dsimp only at hscopes
  cases hscopes with
  | nil => exact hst
  | cons hscope hscopes => exact { hst with scopes := .cons { hscope with inConsequent := rfl } hscopes }

theorem parallel_closeScope {bound bound' : List (String × Kind)} (hbound : W.Tables (Kind.Paired W) bound bound')
    : Parallel n d W (fun _ _ _ => True) (closeScope bound) (closeScope bound') := by
  apply parallel_modify
  intro s t hst
  obtain ⟨predicate, scopes, typeVars, kinds, nextFresh⟩ := s
  obtain ⟨predicate', scopes', typeVars', kinds', nextFresh'⟩ := t
  have hscopes := hst.scopes
  dsimp only at hscopes
  cases hscopes with
  | nil => exact hst
  | @cons scope scope' scopes scopes' hscope hscopes =>
    have hrest : State.Paired n d W ⟨predicate, scopes, typeVars, kinds, nextFresh⟩
        ⟨predicate', scopes', typeVars', kinds', nextFresh'⟩ := { hst with scopes := hscopes }
    exact hrest.add (.impl hbound (.conj hscope.antecedent) (.conj hscope.consequent))

end

end CheckM

end GradedModal
