import Mathlib
import GradedModal.Proofs.Unifiers

/-!
This module says when the comparison of two types comes to an end. There is no check whether a variable occurs in the
type that solves it, so the comparison may go on for ever. It does not if the types could be identified with each other
without identifying a variable with a type around it.
-/

namespace GradedModal

open CheckM

namespace CheckM

variable {α β : Type}

/--
A check ends because comparisons are nested too deeply.
-/
def GivesUp (r : EStateM.Result Error State α) : Prop :=
  ∃ e s, r = .error e s ∧ e.cause.isEndless = true

def Refines (x y : CheckM α) : Prop :=
  ∀ s, GivesUp (x s) ∨ x s = y s

def Increasing (x : Nat → CheckM α) : Prop :=
  ∀ n, Refines (x n) (x (n + 1))

/--
At some depth a check does not give up.
-/
def Ends (x : Nat → CheckM α) (s : State) : Prop :=
  ∃ n, ¬GivesUp (x n s)

theorem not_givesUp_ok {a : α} {s : State} : ¬GivesUp (.ok a s : EStateM.Result Error State α) := by
  rintro ⟨e, s', h, _⟩
  cases h

theorem givesUp_bind {x : CheckM α} {f : α → CheckM β} {s : State} (h : GivesUp (x s)) : GivesUp ((x >>= f) s) := by
  obtain ⟨e, s', h, he⟩ := h
  exact ⟨e, s', bind_of_error h, he⟩

theorem refines_refl (x : CheckM α) : Refines x x :=
  fun _ => .inr rfl

theorem Refines.trans {x y z : CheckM α} (hxy : Refines x y) (hyz : Refines y z) : Refines x z := by
  intro s
  obtain h | h := hxy s
  . exact .inl h
  . rw [h]
    exact hyz s

theorem refines_bind {x y : CheckM α} {f g : α → CheckM β} (hxy : Refines x y) (hfg : ∀ a, Refines (f a) (g a))
    : Refines (x >>= f) (y >>= g) := by
  intro s
  obtain h | h := hxy s
  . exact .inl (givesUp_bind h)
  . cases hy : y s with
    | ok a s' =>
      rw [bind_of_ok (h.trans hy), bind_of_ok hy]
      exact hfg a s'
    | error e s' =>
      rw [bind_of_error (h.trans hy), bind_of_error hy]
      exact .inr rfl

theorem Increasing.refines {x : Nat → CheckM α} (hx : Increasing x) {m n : Nat} (h : n ≤ m) : Refines (x n) (x m) := by
  induction h with
  | refl => exact refines_refl _
  | step _ ih => exact ih.trans (hx _)

theorem Increasing.eq_of_not_givesUp {x : Nat → CheckM α} (hx : Increasing x) {m n : Nat} (h : n ≤ m) {s : State}
    (hn : ¬GivesUp (x n s)) : x m s = x n s := by
  obtain hgives | heq := hx.refines h s
  . exact absurd hgives hn
  . exact heq.symm

theorem Ends.bind {x : Nat → CheckM α} {f : Nat → α → CheckM β} {s : State} (hx : Increasing x)
    (hf : ∀ a, Increasing (fun n => f n a)) (h : Ends x s)
    (hnext : ∀ n a s', x n s = .ok a s' → Ends (fun n => f n a) s') : Ends (fun n => x n >>= f n) s := by
  obtain ⟨n, hn⟩ := h
  cases hrun : x n s with
  | error e s' =>
    refine ⟨n, ?_⟩
    dsimp only
    rw [bind_of_error hrun]
    rintro ⟨e', s'', h, he⟩
    cases h
    exact hn ⟨e, s', hrun, he⟩
  | ok a s' =>
    obtain ⟨n', hn'⟩ := hnext n a s' hrun
    refine ⟨max n n', ?_⟩
    have hfirst : x (max n n') s = .ok a s' := by
      rw [hx.eq_of_not_givesUp (Nat.le_max_left _ _) hn, hrun]
    have hsecond := (hf a).eq_of_not_givesUp (Nat.le_max_right n n') hn'
    dsimp only
    rw [bind_of_ok hfirst, hsecond]
    exact hn'

theorem Ends.of_succ {x : Nat → CheckM α} {s : State} (h : Ends (fun n => x (n + 1)) s) : Ends x s := by
  obtain ⟨n, hn⟩ := h
  exact ⟨n + 1, hn⟩

theorem ends_pure (a : α) (s : State) : Ends (fun _ => pure a) s :=
  ⟨0, not_givesUp_ok⟩

theorem increasing_const (x : CheckM α) : Increasing (fun _ => x) :=
  fun _ => refines_refl x

theorem Ensures.not_givesUp {grades : String → Bool} {x : CheckM α} {P : α → Prop} {s : State}
    (hx : Ensures grades Error.NotEndless x P) (hs : s.isGradeVar = grades) : ¬GivesUp (x s) := by
  rintro ⟨e, s', h, he⟩
  have hne := (hx hs).2 e s' h
  rw [Error.NotEndless, he] at hne
  cases hne

theorem Ends.after {grades : String → Bool} {x : CheckM α} {P : α → Prop} {f : Nat → α → CheckM β} {s : State}
    (hx : Ensures grades Error.NotEndless x P) (hs : s.isGradeVar = grades) (hf : ∀ a, Increasing (fun n => f n a))
    (hnext : ∀ a s', s'.isGradeVar = grades → Ends (fun n => f n a) s') : Ends (fun n => x >>= f n) s := by
  apply Ends.bind (increasing_const x) hf
  . exact ⟨0, hx.not_givesUp hs⟩
  . intro n a s' hrun
    exact hnext a s' ((State.isGradeVar_congr ((hx hs).1 a s' hrun).2).trans hs)

end CheckM

namespace Unify

variable {env : Env} {pos : Nat} {relation : Relation} {left right : Ty} {grades : String → Bool}

theorem refines_merge {equal equal' : Ty → Ty → CheckM Unified} (h : ∀ l r, Refines (equal l r) (equal' l r))
    (σ τ : Substitution) : Refines (merge equal pos σ τ) (merge equal' pos σ τ) := by
  induction τ generalizing σ with
  | nil => exact refines_refl _
  | cons b τ ih =>
    obtain ⟨x, ty⟩ := b
    unfold merge
    split
    . exact ih _
    . apply refines_bind (h _ _)
      intro unified
      split
      . exact ih _
      . exact refines_refl _

theorem refines_relate (env : Env) (pos n : Nat) (relation : Relation) (left right : Ty)
    : Refines (relate env pos n relation left right) (relate env pos (n + 1) relation left right) := by
  induction n generalizing relation left right with
  | zero =>
    intro s
    refine .inl ⟨.ofCause pos (.endlessComparison left right), s, ?_, rfl⟩
    unfold relate
    rfl
  | succ n ih =>
    have hpair : ∀ a b a' b', Refines (relate.relatePair env pos n relation a b a' b')
        (relate.relatePair env pos (n + 1) relation a b a' b') := by
      intro a b a' b'
      unfold relate.relatePair
      apply refines_bind (ih _ _ _)
      intro first
      apply refines_bind (ih _ _ _)
      intro second
      exact refines_bind (refines_merge (ih _) _ _) (fun _ => refines_refl _)
    -- Where nothing is compared in turn, the depth does not matter.
    cases left with
    | arrow arg result =>
      cases right with
      | arrow arg' result' =>
        unfold relate
        apply refines_bind (ih _ _ _)
        intro args
        apply refines_bind (ih _ _ _)
        intro results
        exact refines_bind (refines_merge (ih _) _ _) (fun _ => refines_refl _)
      | _ =>
        unfold relate
        exact refines_refl _
    | diamond effects ty =>
      cases right with
      | diamond effects' ty' =>
        unfold relate
        exact refines_bind (ih _ _ _) (fun _ => refines_refl _)
      | _ =>
        unfold relate
        exact refines_refl _
    | box grade ty =>
      cases right with
      | box grade' ty' =>
        unfold relate
        apply refines_bind (refines_refl _)
        intro k
        apply refines_bind (refines_refl _)
        intro k'
        apply refines_bind (refines_refl _)
        intro kind
        apply refines_bind (refines_refl _)
        intro _
        exact refines_bind (ih _ _ _) (fun _ => refines_refl _)
      | _ =>
        unfold relate
        exact refines_refl _
    | app a b =>
      cases right with
      | app a' b' =>
        unfold relate
        exact refines_bind (hpair _ _ _ _) (fun _ => refines_refl _)
      | _ =>
        unfold relate
        exact refines_refl _
    | pair a b =>
      cases right with
      | pair a' b' =>
        unfold relate
        exact refines_bind (hpair _ _ _ _) (fun _ => refines_refl _)
      | _ =>
        unfold relate
        exact refines_refl _
    | _ =>
      cases right with
      | _ =>
        unfold relate
        exact refines_refl _

theorem increasing_relate (env : Env) (pos : Nat) (relation : Relation) (left right : Ty)
    : Increasing (fun n => relate env pos n relation left right) :=
  fun n => refines_relate env pos n relation left right

def alike : Ty → Ty → Bool
  | .arrow _ _, .arrow _ _ => true
  | .app _ _, .app _ _ => true
  | .pair _ _, .pair _ _ => true
  | .box _ _, .box _ _ => true
  | .diamond _ _, .diamond _ _ => true
  | _, _ => false

theorem ends_of_not_alike {s : State} (h : alike left right = false)
    : Ends (fun n => relate env pos n relation left right) s := by
  have hleaf : Ensures s.isGradeVar Error.NotEndless (relate env pos 1 relation left right) (fun _ => True) := by
    unfold relate
    split
    . cases h
    . exact ensures_pure trivial
    . cases h
    . cases h
    . cases h
    . cases h
    . split
      . exact ensures_bind (ensures_discard ((ensures_typeVar _ _).imp (fun _ _ => trivial)))
          (fun _ _ => ensures_pure trivial)
      . next hne => exact (ensures_vars hne).imp (fun _ _ => trivial)
    . exact ensures_var.imp (fun _ _ => trivial)
    . exact ensures_var.imp (fun _ _ => trivial)
    . exact ensures_indices.imp (fun _ _ => trivial)
  exact ⟨1, hleaf.not_givesUp rfl⟩

theorem not_alike_of_isIndex (h : left.isIndex grades = true) : alike left right = false := by
  cases left with
  | index n => rfl
  | var x => rfl
  | op o a b => rfl
  | _ => cases h

theorem ends_merge {σ τ : Substitution} (hτ : τ.domain.Nodup)
    (h : ∀ b ∈ τ, ∀ ty, (b.1, ty) ∈ σ → ∀ s, s.isGradeVar = grades → Ends (fun n => relate env pos n .eq ty b.2) s)
    {s : State} (hs : s.isGradeVar = grades) : Ends (fun n => merge (relate env pos n .eq) pos σ τ) s := by
  induction τ generalizing σ s with
  | nil =>
    unfold merge
    exact ends_pure _ _
  | cons b τ ih =>
    obtain ⟨x, ty⟩ := b
    unfold Substitution.domain at hτ
    rw [List.map_cons, List.nodup_cons] at hτ
    unfold merge
    cases hlookup : σ.lookup x with
    | none =>
      apply ih hτ.2 _ hs
      intro b hb ty' hty'
      obtain hty' | hty' := List.mem_append.mp hty'
      . exact h b (List.mem_cons_of_mem _ hb) ty' hty'
      . -- The binding that was added just now is not met again.
        cases List.mem_singleton.mp hty'
        exact absurd (Substitution.mem_domain_of_mem hb) hτ.1
    | some known =>
      have hnext : ∀ s : State, s.isGradeVar = grades → Ends (fun n => merge (relate env pos n .eq) pos σ τ) s :=
        fun s hs => ih hτ.2 (fun b hb => h b (List.mem_cons_of_mem _ hb)) hs
      apply Ends.bind (increasing_relate env pos .eq known ty)
      . intro unified n
        split
        . exact refines_merge (refines_relate env pos n .eq) σ τ
        . exact refines_refl _
      . exact h (x, ty) List.mem_cons_self known (Substitution.mem_of_lookup hlookup) s hs
      . intro n unified s' hrun
        have hs' := (State.isGradeVar_congr (compared_of_relate hrun).2).trans hs
        have hfail : Ensures grades Error.NotEndless (fail pos (.typeMismatch known ty))
            (fun _ : Substitution => True) := ensures_fail rfl
        split
        . exact hnext s' hs'
        . exact ⟨0, hfail.not_givesUp hs'⟩

end Unify

/--
A way to identify types that agrees with their structure: types of one form are identified if and only if their
components are. Indices are all the same, and so are grades and effects. No variable is identified with a type in which
it occurs, other than itself.
-/
structure Identifies (grades : String → Bool) (R : Ty → Ty → Prop) : Prop where
  equivalence : Equivalence R
  index : ∀ {a b : Ty}, a.isIndex grades = true → b.isIndex grades = true → R a b
  arrow : ∀ {a b a' b' : Ty}, R (.arrow a b) (.arrow a' b') ↔ R a a' ∧ R b b'
  app : ∀ {a b a' b' : Ty}, R (.app a b) (.app a' b') ↔ R a a' ∧ R b b'
  pair : ∀ {a b a' b' : Ty}, R (.pair a b) (.pair a' b') ↔ R a a' ∧ R b b'
  box : ∀ {grade grade' : Grade} {a a' : Ty}, R (.box grade a) (.box grade' a') ↔ R a a'
  diamond : ∀ {effects effects' : List String} {a a' : Ty}, R (.diamond effects a) (.diamond effects' a') ↔ R a a'
  op : ∀ {o : Op} {a b a' b' : Ty}, R a a' → R b b' → R (.op o a b) (.op o a' b')
  acyclic : ∀ {x : String} {ty : Ty}, R (.var x) ty → x ∈ ty.typeVars grades → ty = .var x

namespace Identifies

variable {grades : String → Bool} {R : Ty → Ty → Prop} {σ : Substitution} {left right : Ty} {agree : Bool}

theorem substitute (hR : Identifies grades R) (hσ : ∀ b ∈ σ, R (.var b.1) b.2) (ty : Ty) : R ty (ty.substitute σ) := by
  induction ty with
  | const n | index n => exact hR.equivalence.refl _
  | var x =>
    obtain ⟨_, h⟩ | ⟨ty, hmem, h⟩ := Ty.substitute_var_cases σ x
    . rw [h]
      exact hR.equivalence.refl _
    . rw [h]
      exact hσ _ hmem
  | arrow a b iha ihb => exact hR.arrow.mpr ⟨iha, ihb⟩
  | app a b iha ihb => exact hR.app.mpr ⟨iha, ihb⟩
  | pair a b iha ihb => exact hR.pair.mpr ⟨iha, ihb⟩
  | box grade ty ih => exact hR.box.mpr ih
  | diamond effects ty ih => exact hR.diamond.mpr ih
  | op o a b iha ihb => exact hR.op iha ihb

theorem substitute_both (hR : Identifies grades R) (hσ : ∀ b ∈ σ, R (.var b.1) b.2) (h : R left right)
    : R (left.substitute σ) (right.substitute σ) :=
  hR.equivalence.trans (hR.equivalence.symm (hR.substitute hσ left)) (hR.equivalence.trans h (hR.substitute hσ right))

theorem compared (hR : Identifies grades R) (h : Compared grades left right agree σ) (hlr : R left right)
    : ∀ b ∈ σ, R (.var b.1) b.2 := by
  induction h with
  | left _ _ => simpa using hlr
  | right _ _ => simpa using hR.equivalence.symm hlr
  | arrow _ _ ih ih' =>
    obtain ⟨harg, hresult⟩ := hR.arrow.mp hlr
    have hσ := ih (hR.equivalence.symm harg)
    exact Substitution.forall_mem_union hσ (ih' (hR.substitute_both hσ hresult))
  | app _ _ ih ih' =>
    obtain ⟨hfirst, hsecond⟩ := hR.app.mp hlr
    have hσ := ih hfirst
    exact Substitution.forall_mem_union hσ (ih' (hR.substitute_both hσ hsecond))
  | pair _ _ ih ih' =>
    obtain ⟨hfirst, hsecond⟩ := hR.pair.mp hlr
    have hσ := ih hfirst
    exact Substitution.forall_mem_union hσ (ih' (hR.substitute_both hσ hsecond))
  | box _ ih => exact ih (hR.box.mp hlr)
  | diamond _ _ ih => exact ih (hR.diamond.mp hlr)
  | _ => exact nofun

end Identifies

theorem Ty.not_mem_typeVars_substitute {grades : String → Bool} {σ : Substitution} {x : String}
    (hσ : σ.WellKinded grades) (hx : x ∈ σ.domain) (h : ∀ b ∈ σ, x ∉ b.2.typeVars grades) (ty : Ty)
    : x ∉ (ty.substitute σ).typeVars grades := by
  intro hmem
  obtain ⟨_, hnot⟩ | ⟨b, hb, _, hmem⟩ := mem_typeVars_substitute hσ hmem
  . exact hnot hx
  . exact h b hb hmem

/--
A substitution replaces a variable for types that it does not bring in again, or none at all.
-/
def Substitution.Eliminates (grades : String → Bool) (σ : Substitution) : Prop :=
  (∀ b ∈ σ, grades b.1 = true) ∨ ∃ x ∈ σ.domain, grades x = false ∧ ∀ b ∈ σ, x ∉ b.2.typeVars grades

namespace Compared

variable {grades : String → Bool} {R : Ty → Ty → Prop} {σ τ : Substitution} {left right a a' b b' : Ty}
variable {agree agree' : Bool}

/--
What the first components eliminate does not occur in the second components any more. If they eliminate nothing, the
second ones may.
-/
theorem eliminates_union (h : Compared grades a a' agree σ)
    (h' : Compared grades (b.substitute σ) (b'.substitute σ) agree' τ) (hσ : σ.Eliminates grades)
    (hτ : τ.Eliminates grades) : (σ.union τ).Eliminates grades := by
  obtain hσ | ⟨x, hx, hgrade, hσ⟩ := hσ
  . obtain hτ | ⟨x, hx, hgrade, hτ⟩ := hτ
    . exact .inl (Substitution.forall_mem_union hσ hτ)
    . have hnot : x ∉ σ.domain := by
        intro hdomain
        obtain ⟨c, hc, rfl⟩ := List.mem_map.mp hdomain
        rw [hσ c hc] at hgrade
        cases hgrade
      have hindex : ∀ c ∈ σ, x ∉ c.2.typeVars grades := by
        intro c hc hmem
        rw [Ty.typeVars_of_isIndex ((h.wellKinded c hc).trans (hσ c hc))] at hmem
        cases hmem
      refine .inr ⟨x, ?_, hgrade, Substitution.forall_mem_union hindex hτ⟩
      rw [Substitution.domain_union, List.mem_append, List.mem_filter]
      exact .inr ⟨hx, by simpa using hnot⟩
  . have hgone := Ty.not_mem_typeVars_substitute h.wellKinded hx hσ
    have hwithin := h'.within (List.subset_append_left _ _) (List.subset_append_right _ _)
    refine .inr ⟨x, ?_, hgrade, Substitution.forall_mem_union hσ ?_⟩
    . rw [Substitution.domain_union]
      exact List.mem_append_left _ hx
    . intro c hc hmem
      obtain hmem | hmem := List.mem_append.mp ((hwithin c hc).2 hmem)
      . exact hgone b hmem
      . exact hgone b' hmem

theorem eliminates (hR : Identifies grades R) (h : Compared grades left right agree σ) (hlr : R left right)
    : σ.Eliminates grades := by
  have hvar : ∀ {x : String} {ty : Ty}, R (.var x) ty → ty ≠ .var x → Substitution.Eliminates grades [(x, ty)] := by
    intro x ty hx hne
    cases hgrade : grades x with
    | true => exact .inl (by simpa using hgrade)
    | false =>
      refine .inr ⟨x, List.mem_cons_self, hgrade, ?_⟩
      intro b hb hmem
      obtain rfl := List.mem_singleton.mp hb
      exact hne (hR.acyclic hx hmem)
  induction h with
  | left _ hne => exact hvar hlr hne
  | right _ hne => exact hvar (hR.equivalence.symm hlr) hne
  | arrow h h' ih ih' =>
    obtain ⟨harg, hresult⟩ := hR.arrow.mp hlr
    have harg := hR.equivalence.symm harg
    exact h.eliminates_union h' (ih harg) (ih' (hR.substitute_both (hR.compared h harg) hresult))
  | app h h' ih ih' =>
    obtain ⟨hfirst, hsecond⟩ := hR.app.mp hlr
    exact h.eliminates_union h' (ih hfirst) (ih' (hR.substitute_both (hR.compared h hfirst) hsecond))
  | pair h h' ih ih' =>
    obtain ⟨hfirst, hsecond⟩ := hR.pair.mp hlr
    exact h.eliminates_union h' (ih hfirst) (ih' (hR.substitute_both (hR.compared h hfirst) hsecond))
  | box _ ih => exact ih (hR.box.mp hlr)
  | diamond _ _ ih => exact ih (hR.diamond.mp hlr)
  | _ => exact .inl nofun

end Compared

namespace Unify

variable {env : Env} {pos : Nat} {grades : String → Bool} {R : Ty → Ty → Prop}

variable (env pos grades R) in
/--
Comparisons of identified types end, as long as their variables are among the given ones.
-/
def EndsWithin (V : List String) : Prop :=
  ∀ (relation : Relation) (l r : Ty) (s : State), s.isGradeVar = grades → R l r → l.typeVars grades ⊆ V →
    r.typeVars grades ⊆ V → Ends (fun n => relate env pos n relation l r) s

section

variable {V : List String} {a b a' b' : Ty} {relation relation' : Relation} {s : State}

/--
Once the first components have been compared, the second ones can be compared, and so can the solutions that they share
with the first ones: either a variable is gone or nothing but indices has changed.
-/
theorem ends_second {agree : Bool} {σ : Substitution} (hR : Identifies grades R) (hs : s.isGradeVar = grades)
    (ha : R a a') (hb : R b b') (haV : a.typeVars grades ⊆ V) (haV' : a'.typeVars grades ⊆ V)
    (hbV : b.typeVars grades ⊆ V) (hbV' : b'.typeVars grades ⊆ V)
    (hfewer : ∀ V' : List String, V'.length < V.length → EndsWithin env pos grades R V')
    (hsecond : ∀ (l r : Ty) (s : State), s.isGradeVar = grades → R l r → l.typeVars grades ⊆ V →
      r.typeVars grades ⊆ V → l.erase grades = b.erase grades → r.erase grades = b'.erase grades →
      Ends (fun n => relate env pos n relation' l r) s)
    (h : Compared grades a a' agree σ)
    : Ends (fun n => relate env pos n relation' (b.substitute σ) (b'.substitute σ)) s ∧
      ∀ {agree : Bool} {τ : Substitution}, Compared grades (b.substitute σ) (b'.substitute σ) agree τ →
        ∀ c ∈ τ, ∀ ty, (c.1, ty) ∈ σ → ∀ s, s.isGradeVar = grades → Ends (fun n => relate env pos n .eq ty c.2) s := by
  have hσ := hR.compared h ha
  have hwithin := h.within haV haV'
  have hbR := hR.substitute_both hσ hb
  have hbV := Ty.typeVars_substitute_subset h.wellKinded hwithin hbV
  have hbV' := Ty.typeVars_substitute_subset h.wellKinded hwithin hbV'
  obtain hindices | ⟨x, hx, hgrade, hgone⟩ := h.eliminates hR ha
  . have hdisjoint : ∀ (ty : Ty), ∀ x ∈ ty.typeVars grades, x ∉ σ.domain := by
      intro ty x hx hdomain
      obtain ⟨c, hc, rfl⟩ := List.mem_map.mp hdomain
      have hgrade := Ty.grades_of_mem_typeVars hx
      rw [hindices c hc] at hgrade
      cases hgrade
    constructor
    . apply hsecond _ _ s hs hbR hbV hbV'
      . exact Ty.erase_substitute_of_disjoint b h.wellKinded (hdisjoint b)
      . exact Ty.erase_substitute_of_disjoint b' h.wellKinded (hdisjoint b')
    . intro agree τ _ c _ ty hty s _
      have hindex : ty.isIndex grades = true := (h.wellKinded _ hty).trans (hindices _ hty)
      exact ends_of_not_alike (not_alike_of_isIndex hindex)
  . have hlength : (V.filter (· ≠ x)).length < V.length := by
      obtain ⟨c, hc, rfl⟩ := List.mem_map.mp hx
      rw [List.length_filter_lt_length_iff_exists]
      exact ⟨c.1, (hwithin c hc).1 hgrade, by simp⟩
    have hfilter : ∀ {ty : Ty}, ty.typeVars grades ⊆ V → x ∉ ty.typeVars grades →
        ty.typeVars grades ⊆ V.filter (· ≠ x) := by
      intro ty hty hnot y hy
      rw [List.mem_filter, decide_eq_true_eq]
      refine ⟨hty hy, ?_⟩
      rintro rfl
      exact hnot hy
    have hends := hfewer _ hlength
    have hgone' := Ty.not_mem_typeVars_substitute h.wellKinded hx hgone
    have hbV := hfilter hbV (hgone' b)
    have hbV' := hfilter hbV' (hgone' b')
    refine ⟨hends _ _ _ s hs hbR hbV hbV', ?_⟩
    intro agree τ hτ c hc ty hty s hs
    have htyR := hR.equivalence.trans (hR.equivalence.symm (hσ _ hty)) (hR.compared hτ hbR c hc)
    exact hends _ _ _ s hs htyR (hfilter (hwithin _ hty).2 (hgone _ hty)) (hτ.within hbV hbV' c hc).2

/--
Two components on each side can be compared if the first ones can, and if the second ones can when something is gone or
when nothing but indices has changed. Solutions that meet have lost a variable.
-/
theorem ends_components {γ : Type} (hR : Identifies grades R) (result : Unified → Unified → Substitution → γ)
    (hs : s.isGradeVar = grades) (ha : R a a') (hb : R b b') (haV : a.typeVars grades ⊆ V)
    (haV' : a'.typeVars grades ⊆ V) (hbV : b.typeVars grades ⊆ V) (hbV' : b'.typeVars grades ⊆ V)
    (hfewer : ∀ V' : List String, V'.length < V.length → EndsWithin env pos grades R V')
    (hfirst : Ends (fun n => relate env pos n relation a a') s)
    (hsecond : ∀ (l r : Ty) (s : State), s.isGradeVar = grades → R l r → l.typeVars grades ⊆ V →
      r.typeVars grades ⊆ V → l.erase grades = b.erase grades → r.erase grades = b'.erase grades →
      Ends (fun n => relate env pos n relation' l r) s)
    : Ends (fun n => do
        let first ← relate env pos n relation a a'
        let second ← relate env pos n relation' (b.substitute first.subst) (b'.substitute first.subst)
        let subst ← merge (relate env pos n .eq) pos first.subst second.subst
        return result first second subst) s := by
  apply Ends.bind (increasing_relate _ _ _ _ _)
  . intro first n
    apply refines_bind (refines_relate _ _ _ _ _ _)
    intro second
    exact refines_bind (refines_merge (refines_relate env pos n .eq) _ _) (fun _ => refines_refl _)
  . exact hfirst
  . intro n first s₁ hrun
    obtain ⟨hcompared, hvars⟩ := compared_of_relate hrun
    rw [hs] at hcompared
    have hs₁ : s₁.isGradeVar = grades := (State.isGradeVar_congr hvars).trans hs
    obtain ⟨hnext, hshared⟩ := ends_second hR hs₁ ha hb haV haV' hbV hbV' hfewer hsecond hcompared
    apply Ends.bind (increasing_relate _ _ _ _ _)
    . intro second n
      exact refines_bind (refines_merge (refines_relate env pos n .eq) _ _) (fun _ => refines_refl _)
    . exact hnext
    . intro n second s₂ hrun₂
      obtain ⟨hcompared₂, hvars₂⟩ := compared_of_relate hrun₂
      rw [hs₁] at hcompared₂
      have hs₂ : s₂.isGradeVar = grades := (State.isGradeVar_congr hvars₂).trans hs₁
      apply Ends.bind (fun n => refines_merge (refines_relate env pos n .eq) _ _)
      . exact fun _ => increasing_const _
      . exact ends_merge hcompared₂.nodup (hshared hcompared₂) hs₂
      . exact fun _ _ _ _ => ends_pure _ _

end

theorem ends_box {grade grade' : Grade} {relation : Relation} {ty ty' : Ty} {s : State} (hs : s.isGradeVar = grades)
    (h : ∀ s, s.isGradeVar = grades → Ends (fun n => relate env pos n .eq ty ty') s)
    : Ends (fun n => relate env pos (n + 1) relation (.box grade ty) (.box grade' ty')) s := by
  have hinner : Increasing (fun n => do
      let inner ← relate env pos n .eq ty ty'
      return (⟨inner.agree, .box grade inner.ty, inner.subst⟩ : Unified)) :=
    fun n => refines_bind (refines_relate _ _ _ _ _ _) (fun _ => refines_refl _)
  simp only [relate]
  apply Ends.after (Grade.ensures_inferKind _ _) hs
  . exact fun _ n => refines_bind (refines_refl _) fun _ => refines_bind (refines_refl _) fun _ =>
      refines_bind (refines_refl _) (fun _ => hinner n)
  intro k s hs
  apply Ends.after (Grade.ensures_inferKind _ _) hs
  . exact fun _ n => refines_bind (refines_refl _) fun _ => refines_bind (refines_refl _) (fun _ => hinner n)
  intro k' s hs
  apply Ends.after (GradeKind.ensures_unify _ _ _) hs
  . exact fun _ n => refines_bind (refines_refl _) (fun _ => hinner n)
  intro kind s hs
  apply Ends.after (ensures_constrain _) hs
  . exact fun _ => hinner
  intro _ s hs
  apply Ends.bind (increasing_relate _ _ _ _ _)
  . exact fun _ => increasing_const _
  . exact h s hs
  . exact fun _ _ _ _ => ends_pure _ _

theorem ends_diamond {effects effects' : List String} {relation : Relation} {ty ty' : Ty} {s : State}
    (h : Ends (fun n => relate env pos n relation ty ty') s)
    : Ends (fun n => relate env pos (n + 1) relation (.diamond effects ty) (.diamond effects' ty')) s := by
  simp only [relate]
  apply Ends.bind (increasing_relate _ _ _ _ _)
  . exact fun _ => increasing_const _
  . exact h
  . intro n inner s' _
    have hcompare : Ensures s'.isGradeVar Error.NotEndless
        (if effects.isPrefixOf effects' then
          return (⟨inner.agree, .diamond effects inner.ty, inner.subst⟩ : Unified)
        else
          fail pos (.effectMismatch effects' effects)) (fun _ => True) := by
      split
      . exact ensures_pure trivial
      . exact ensures_fail rfl
    exact ⟨0, hcompare.not_givesUp rfl⟩

/--
Comparisons of identified types end. Each comparison within another one is of types with fewer variables, or of smaller
types with no more variables.
-/
theorem ends_relate {V : List String} {relation : Relation} {left right : Ty} {s : State} (hR : Identifies grades R)
    (hs : s.isGradeVar = grades) (hlr : R left right) (hleft : left.typeVars grades ⊆ V)
    (hright : right.typeVars grades ⊆ V) : Ends (fun n => relate env pos n relation left right) s := by
  induction hk : V.length using Nat.strongRecOn generalizing V relation left right s with
  | _ k ihV =>
    induction hN : sizeOf (left.erase grades) + sizeOf (right.erase grades) using Nat.strongRecOn
      generalizing relation left right s with
    | _ N ihN =>
      subst hk
      have hfewer : ∀ V' : List String, V'.length < V.length → EndsWithin env pos grades R V' :=
        fun V' hlt _ _ _ _ hs hlr hl hr => ihV V'.length hlt hs hlr hl hr rfl
      have hsmaller : ∀ {relation : Relation} {l r : Ty} {s : State}, s.isGradeVar = grades → R l r →
          l.typeVars grades ⊆ V → r.typeVars grades ⊆ V → sizeOf (l.erase grades) + sizeOf (r.erase grades) < N →
          Ends (fun n => relate env pos n relation l r) s :=
        fun hs hlr hl hr hlt => ihN _ hlt hs hlr hl hr rfl
      -- Both components of a type are smaller than the type, also after a change of indices.
      have hcomponents : ∀ {γ : Type} {a b a' b' : Ty} {relation relation' : Relation}
          (result : Unified → Unified → Substitution → γ), R a a' → R b b' →
          a.typeVars grades ⊆ V → a'.typeVars grades ⊆ V → b.typeVars grades ⊆ V → b'.typeVars grades ⊆ V →
          sizeOf (a.erase grades) + sizeOf (a'.erase grades) < N →
          sizeOf (b.erase grades) + sizeOf (b'.erase grades) < N →
          Ends (fun n => do
            let first ← relate env pos n relation a a'
            let second ← relate env pos n relation' (b.substitute first.subst) (b'.substitute first.subst)
            let subst ← merge (relate env pos n .eq) pos first.subst second.subst
            return result first second subst) s := by
        intro γ a b a' b' relation relation' result ha hb haV haV' hbV hbV' hfirst hsecond
        apply ends_components hR result hs ha hb haV haV' hbV hbV' hfewer
        . exact hsmaller hs ha haV haV' hfirst
        . intro l r s hs hlr hl hr hb hb'
          rw [← hb, ← hb'] at hsecond
          exact hsmaller hs hlr hl hr hsecond
      by_cases halike : alike left right = true
      . apply Ends.of_succ
        cases left with
        | arrow arg result =>
          cases right with
          | arrow arg' result' =>
            obtain ⟨harg, hresult⟩ := hR.arrow.mp hlr
            simp only [Ty.erase, Ty.arrow.sizeOf_spec] at hN
            rw [Ty.typeVars, List.append_subset] at hleft hright
            simp only [relate]
            exact hcomponents _ (hR.equivalence.symm harg) hresult hright.1 hleft.1 hleft.2 hright.2 (by omega) (by omega)
          | _ => cases halike
        | app a b =>
          cases right with
          | app a' b' =>
            obtain ⟨hfirst, hsecond⟩ := hR.app.mp hlr
            simp only [Ty.erase, Ty.app.sizeOf_spec] at hN
            rw [Ty.typeVars, List.append_subset] at hleft hright
            simp only [relate, relate.relatePair, bind_assoc, pure_bind]
            exact hcomponents _ hfirst hsecond hleft.1 hright.1 hleft.2 hright.2 (by omega) (by omega)
          | _ => cases halike
        | pair a b =>
          cases right with
          | pair a' b' =>
            obtain ⟨hfirst, hsecond⟩ := hR.pair.mp hlr
            simp only [Ty.erase, Ty.pair.sizeOf_spec] at hN
            rw [Ty.typeVars, List.append_subset] at hleft hright
            simp only [relate, relate.relatePair, bind_assoc, pure_bind]
            exact hcomponents _ hfirst hsecond hleft.1 hright.1 hleft.2 hright.2 (by omega) (by omega)
          | _ => cases halike
        | box grade ty =>
          cases right with
          | box grade' ty' =>
            simp only [Ty.erase, Ty.box.sizeOf_spec] at hN
            exact ends_box hs (fun s hs => hsmaller hs (hR.box.mp hlr) hleft hright (by omega))
          | _ => cases halike
        | diamond effects ty =>
          cases right with
          | diamond effects' ty' =>
            simp only [Ty.erase, Ty.diamond.sizeOf_spec] at hN
            exact ends_diamond (hsmaller hs (hR.diamond.mp hlr) hleft hright (by omega))
          | _ => cases halike
        | _ => cases halike
      . exact ends_of_not_alike (Bool.not_eq_true _ ▸ halike)

end Unify

/--
The comparison of types that can be identified comes to an end: from some depth on, more depth changes nothing, and the
comparison is not given up.
-/
theorem relate_ends_of_identifies (env : Env) (pos : Nat) (relation : Relation) (left right : Ty) (s : State)
    (R : Ty → Ty → Prop) (hR : Identifies s.isGradeVar R) (hlr : R left right)
    : ∃ n, ∀ m, n ≤ m →
        Unify.relate env pos m relation left right s = Unify.relate env pos n relation left right s ∧
        ¬GivesUp (Unify.relate env pos m relation left right s) := by
  obtain ⟨n, hn⟩ := Unify.ends_relate hR rfl hlr (List.subset_append_left _ (right.typeVars s.isGradeVar))
    (List.subset_append_right _ _)
  refine ⟨n, ?_⟩
  intro m hm
  have heq := (Unify.increasing_relate env pos relation left right).eq_of_not_givesUp hm hn
  dsimp only at heq hn
  rw [heq]
  exact ⟨rfl, hn⟩

namespace Ty

variable {grades : String → Bool} {θ : Substitution} {x : String} {ty : Ty}

/--
What is left of an instance of a type without grades, indices and effects.
-/
def shape (grades : String → Bool) (θ : Substitution) (ty : Ty) : Ty :=
  ((ty.substitute θ).erase grades).dropEffects

theorem isIndex_of_shape (hθ : θ.WellKinded grades) (h : ty.shape grades θ = .index 0) : ty.isIndex grades = true := by
  rw [← isIndex_substitute hθ]
  unfold shape at h
  generalize ty.substitute θ = ty at h
  cases ty with
  | index n => rfl
  | var y =>
    unfold erase at h
    split at h
    . next hgrade => exact hgrade
    . cases h
  | op o a b =>
    unfold erase at h
    split at h
    . next hindex => exact hindex
    . cases h
  | _ => cases h

theorem shape_of_isIndex (hθ : θ.WellKinded grades) (h : ty.isIndex grades = true) : ty.shape grades θ = .index 0 := by
  unfold shape
  rw [erase_of_isIndex (by rw [isIndex_substitute hθ, h])]
  rfl

theorem shape_op (hθ : θ.WellKinded grades) {o : Op} {a b : Ty} (h : (op o a b).isIndex grades = false)
    : (op o a b).shape grades θ = .op o (a.shape grades θ) (b.shape grades θ) := by
  have hindex := isIndex_substitute hθ (op o a b)
  rw [h] at hindex
  unfold shape
  simp only [substitute] at hindex ⊢
  rw [erase_op hindex]
  rfl

theorem sizeOf_shape_lt (hθ : θ.WellKinded grades) (h : x ∈ ty.typeVars grades)
    : ty = .var x ∨ sizeOf ((Ty.var x).shape grades θ) < sizeOf (ty.shape grades θ) := by
  have hle : ∀ {a : Ty}, (a = .var x ∨ sizeOf ((Ty.var x).shape grades θ) < sizeOf (a.shape grades θ)) →
      sizeOf ((Ty.var x).shape grades θ) ≤ sizeOf (a.shape grades θ) := by
    rintro a (rfl | h)
    . exact Nat.le_refl _
    . exact Nat.le_of_lt h
  -- One of two components contains the variable, and the type is larger than both.
  have happend : ∀ {a b : Ty} {n : Nat},
      (x ∈ a.typeVars grades → a = .var x ∨ sizeOf ((Ty.var x).shape grades θ) < sizeOf (a.shape grades θ)) →
      (x ∈ b.typeVars grades → b = .var x ∨ sizeOf ((Ty.var x).shape grades θ) < sizeOf (b.shape grades θ)) →
      x ∈ a.typeVars grades ++ b.typeVars grades → sizeOf (a.shape grades θ) < n → sizeOf (b.shape grades θ) < n →
      sizeOf ((Ty.var x).shape grades θ) < n := by
    intro a b n iha ihb h ha hb
    obtain h | h := List.mem_append.mp h
    . exact Nat.lt_of_le_of_lt (hle (iha h)) ha
    . exact Nat.lt_of_le_of_lt (hle (ihb h)) hb
  induction ty with
  | const n => cases h
  | index n => cases h
  | var y =>
    unfold typeVars at h
    split at h
    . cases h
    . rw [List.mem_singleton.mp h]
      exact .inl rfl
  | arrow a b iha ihb =>
    have hshape : (arrow a b).shape grades θ = .arrow (a.shape grades θ) (b.shape grades θ) := rfl
    rw [hshape, arrow.sizeOf_spec]
    exact .inr (happend iha ihb h (by omega) (by omega))
  | app a b iha ihb =>
    have hshape : (app a b).shape grades θ = .app (a.shape grades θ) (b.shape grades θ) := rfl
    rw [hshape, app.sizeOf_spec]
    exact .inr (happend iha ihb h (by omega) (by omega))
  | pair a b iha ihb =>
    have hshape : (pair a b).shape grades θ = .pair (a.shape grades θ) (b.shape grades θ) := rfl
    rw [hshape, pair.sizeOf_spec]
    exact .inr (happend iha ihb h (by omega) (by omega))
  | op o a b iha ihb =>
    by_cases hindex : (op o a b).isIndex grades = true
    . rw [typeVars_of_isIndex hindex] at h
      cases h
    . rw [shape_op hθ (Bool.eq_false_iff.mpr hindex), op.sizeOf_spec]
      exact .inr (happend iha ihb h (by omega) (by omega))
  | box grade ty ih =>
    have hshape : (box grade ty).shape grades θ = .box (.nat 0) (ty.shape grades θ) := rfl
    rw [hshape, box.sizeOf_spec]
    exact .inr (Nat.lt_of_le_of_lt (hle (ih h)) (by omega))
  | diamond effects ty ih =>
    have hshape : (diamond effects ty).shape grades θ = .diamond [] (ty.shape grades θ) := rfl
    rw [hshape, diamond.sizeOf_spec]
    exact .inr (Nat.lt_of_le_of_lt (hle (ih h)) (by omega))

end Ty

theorem identifies_of_substitution {grades : String → Bool} {θ : Substitution} (hθ : θ.WellKinded grades)
    : Identifies grades (fun a b => a.shape grades θ = b.shape grades θ) where
  equivalence := ⟨fun _ => rfl, Eq.symm, Eq.trans⟩
  index := by
    intro a b ha hb
    rw [Ty.shape_of_isIndex hθ ha, Ty.shape_of_isIndex hθ hb]
  arrow := by
    intro a b a' b'
    simp only [Ty.shape, Ty.substitute, Ty.erase, Ty.dropEffects, Ty.arrow.injEq]
  app := by
    intro a b a' b'
    simp only [Ty.shape, Ty.substitute, Ty.erase, Ty.dropEffects, Ty.app.injEq]
  pair := by
    intro a b a' b'
    simp only [Ty.shape, Ty.substitute, Ty.erase, Ty.dropEffects, Ty.pair.injEq]
  box := by
    intro grade grade' a a'
    simp only [Ty.shape, Ty.substitute, Ty.erase, Ty.dropEffects, Ty.box.injEq, true_and]
  diamond := by
    intro effects effects' a a'
    simp only [Ty.shape, Ty.substitute, Ty.erase, Ty.dropEffects, Ty.diamond.injEq, true_and]
  op := by
    intro o a b a' b' ha hb
    have hsame : ∀ {t t' : Ty}, t.shape grades θ = t'.shape grades θ → t.isIndex grades = t'.isIndex grades := by
      intro t t' h
      rw [Bool.eq_iff_iff]
      constructor
      . intro ht
        exact Ty.isIndex_of_shape hθ (h ▸ Ty.shape_of_isIndex hθ ht)
      . intro ht
        exact Ty.isIndex_of_shape hθ (h ▸ Ty.shape_of_isIndex hθ ht)
    have hop : (Ty.op o a b).isIndex grades = (Ty.op o a' b').isIndex grades := by
      unfold Ty.isIndex
      rw [hsame ha, hsame hb]
    cases hindex : (Ty.op o a b).isIndex grades with
    | true => rw [Ty.shape_of_isIndex hθ hindex, Ty.shape_of_isIndex hθ (hop ▸ hindex)]
    | false => rw [Ty.shape_op hθ hindex, Ty.shape_op hθ (hop ▸ hindex), ha, hb]
  acyclic := by
    intro x ty h hx
    obtain heq | hlt := Ty.sizeOf_shape_lt hθ hx
    . exact heq
    . rw [h] at hlt
      exact absurd hlt (Nat.lt_irrefl _)

/-- `(a, b)` and `(b, Int)` are made equal if both variables are `Int`. -/
theorem relate_ends_chain
    : ∃ n, ∀ m, n ≤ m →
        Unify.relate ⟨.standard, []⟩ 0 m .eq (.pair (.var "a") (.var "b")) (.pair (.var "b") (.const "Int")) .threeVars
          = Unify.relate ⟨.standard, []⟩ 0 n .eq (.pair (.var "a") (.var "b")) (.pair (.var "b") (.const "Int"))
              .threeVars ∧
        ¬GivesUp (Unify.relate ⟨.standard, []⟩ 0 m .eq (.pair (.var "a") (.var "b"))
          (.pair (.var "b") (.const "Int")) .threeVars) := by
  have hθ : Substitution.WellKinded State.threeVars.isGradeVar [("a", .const "Int"), ("b", .const "Int")] := by
    unfold Substitution.WellKinded
    decide
  exact relate_ends_of_identifies _ _ _ _ _ _ _ (identifies_of_substitution hθ) rfl

/--
`(a, a)` and `((a, a), (a, a))`: when `a` is solved by `(a, a)`, the second components become the types that are being
compared.
-/
theorem relate_endless_pair
    : ¬Ends (fun n => Unify.relate ⟨.standard, []⟩ 0 n .eq (.pair (.var "a") (.var "a"))
        (.pair (.pair (.var "a") (.var "a")) (.pair (.var "a") (.var "a")))) .threeVars := by
  rintro ⟨n, hn⟩
  apply hn
  clear hn
  dsimp only
  induction n with
  | zero =>
    unfold Unify.relate
    exact ⟨_, _, rfl, rfl⟩
  | succ n ih =>
    unfold Unify.relate Unify.relate.relatePair
    apply givesUp_bind
    cases n with
    | zero =>
      apply givesUp_bind
      unfold Unify.relate
      exact ⟨_, _, rfl, rfl⟩
    | succ n =>
      have hfirst : Unify.relate ⟨.standard, []⟩ 0 (n + 1) .eq (.var "a") (.pair (.var "a") (.var "a")) .threeVars
          = .ok ⟨true, .var "a", [("a", .pair (.var "a") (.var "a"))]⟩ .threeVars := by
        unfold Unify.relate
        rfl
      rw [bind_of_ok hfirst]
      exact givesUp_bind ih

end GradedModal
