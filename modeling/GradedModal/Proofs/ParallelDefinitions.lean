import Mathlib
import GradedModal.Proofs.ParallelInfer
import GradedModal.Proofs.Variables

/-!
This module checks a definition twice, from different supplies of names. Its own names have no dot, so they are not
mixed up with the names that either run makes up, and what remains to be proved is the same up to these.
-/

namespace GradedModal

open CheckM

namespace Relabeling

open Classical in
noncomputable def shift (d : Nat) : Relabeling (fun a => isDotless a = true) 0 d where
  map a := if h : ∃ k : Nat, a = "_" ++ "." ++ toString k then "_" ++ "." ++ toString (h.choose + d) else a
  injective := by
    intro a b hab
    dsimp only at hab
    split at hab
    . next ha =>
      split at hab
      . next hb =>
        have hk := Nat.add_right_cancel (freshName_inj hab)
        rw [ha.choose_spec, hb.choose_spec, hk]
      . next hb => exact (hb ⟨_, hab.symm⟩).elim
    . next ha =>
      split at hab
      . next hb => exact (ha ⟨_, hab⟩).elim
      . exact hab
  avoids := by
    intro a ha _
    apply dif_neg
    rintro ⟨k, rfl⟩
    rw [isDotless_freshName] at ha
    cases ha
  wildcard := by
    intro k _
    have h : ∃ k' : Nat, "_" ++ "." ++ toString k = "_" ++ "." ++ toString k' := ⟨k, rfl⟩
    rw [dif_pos h, ← freshName_inj h.choose_spec]
  apart := by
    intro k _ h
    rw [isDotless_freshName] at h
    cases h

theorem shift_map {d : Nat} {a : String} (ha : isDotless a = true) : (shift d).map a = a := by
  apply dif_neg
  rintro ⟨k, rfl⟩
  rw [isDotless_freshName] at ha
  cases ha

end Relabeling

section

variable {n d : Nat} {W : Pairing}

theorem State.Paired.reset {s t : State} (h : s.Paired n d W t) : s.reset.Paired n d W t.reset :=
  ⟨.nil, .nil, .nil, .nil, h.started, h.nextFresh, h.older⟩

theorem CheckM.Parallel.thenReset {α β : Type} {R : Pairing → α → β → Prop} {x : CheckM α} {y : CheckM β}
    (h : Parallel n d W R x y) : Parallel n d W R (thenReset x) (thenReset y) := by
  intro s t hst
  unfold CheckM.thenReset
  obtain ⟨V, a, b, s', t', hWV, hx, hy, hst', hab⟩ | ⟨e, e', s', t', hx, hy, he⟩ := h s t hst
  . rw [hx, hy]
    exact .inl ⟨V, a, b, s'.reset, t'.reset, hWV, rfl, rfl, hst'.reset, hab⟩
  . rw [hx, hy]
    exact .inr ⟨e, e', s'.reset, t'.reset, rfl, rfl, he⟩

theorem CheckM.parallel_bindUniversals {vars vars' : List (String × Kind)} (hvars : W.Tables (Kind.Paired W) vars vars')
    : Parallel n d W (fun _ _ _ => True) (bindUniversals vars) (bindUniversals vars') := by
  induction vars generalizing vars' W with
  | nil =>
    cases hvars
    exact parallel_pure trivial
  | cons b vars ih =>
    obtain ⟨b', vars', hb, hrest, rfl⟩ := List.forall₂_cons_left_iff.mp hvars
    apply (parallel_bindTypeVar hb.1 hb.2 .universal).bind
    intro V hV _ _ _
    exact ih (Pairing.Tables.imp hrest hV fun _ _ h => Kind.Paired.mono h hV)

theorem Scheme.checkKind_parallel {env env' : Env} (henv : env.Paired W env') (pos : Nat) {s s' : Scheme}
    (hs : s.Paired W s')
    : Parallel n d W (fun _ _ _ => True) (s.checkKind env pos) (s'.checkKind env' pos) := by
  apply Parallel.thenReset
  apply (parallel_bindUniversals hs.vars).bind
  intro V hV _ _ _
  exact Ty.checkKind_parallel (henv.mono hV) pos (hs.ty.mono hV) .type

end

namespace Definition

/--
The names that a definition mentions in its patterns, its body and its types.
-/
def mentioned (d : Definition) : List String :=
  Pattern.boundVarsAll d.patterns ++ d.body.names ++ d.body.annotations.flatMap Ty.varNames ++ d.scheme.varNames

section

variable {k : Nat} {W : Pairing} {env env' : Env}

theorem bindPatterns_parallel (henv : env.Paired W env') (ps : List Pattern)
    (hps : ∀ x ∈ Pattern.boundVarsAll ps, isDotless x = true) {tys tys' : List Ty}
    (htys : List.Forall₂ (Ty.Paired W) tys tys') {matched matched' : Matched}
    (hmatched : matched.Paired (Relabeling.shift k).pairing W matched')
    : Parallel 0 k W (Matched.Paired (Relabeling.shift k).pairing) (bindPatterns env ps tys matched)
        (bindPatterns env' ps tys' matched') := by
  induction ps generalizing tys tys' matched matched' W with
  | nil =>
    simp only [bindPatterns]
    exact parallel_pure hmatched
  | cons p ps ih =>
    obtain ⟨hp, hps⟩ := List.forall_mem_append.mp hps
    cases htys with
    | nil =>
      simp only [bindPatterns]
      exact parallel_pure hmatched
    | cons hty htys =>
      simp only [bindPatterns]
      have hmatch := Pattern.matchTy_parallel (Relabeling.shift k) henv p (hty.substitute hmatched.subst)
      rw [Pattern.rename_of_fixed p fun x hx => Relabeling.shift_map (hp x hx)] at hmatch
      apply hmatch.bind
      intro V₁ hV₁ arg arg' harg
      apply (Matched.merge_parallel (henv.mono hV₁) p.pos (hmatched.mono hV₁) harg).bind
      intro V₂ hV₂ merged merged' hmerged
      have hV := le_trans hV₁ hV₂
      exact ih (henv.mono hV) hps (htys.imp fun _ _ h => h.mono hV) hmerged

theorem bindParameters_parallel (henv : env.Paired W env') {d : Definition}
    (hpatterns : ∀ x ∈ Pattern.boundVarsAll d.patterns, isDotless x = true) (hty : d.scheme.ty.Paired W d.scheme.ty)
    : Parallel 0 k W (fun V r r' => r.1.Paired (Relabeling.shift k).pairing V r'.1 ∧ r.2.Paired V r'.2)
        (d.bindParameters env) (d.bindParameters env') := by
  unfold bindParameters
  apply parallel_ite Iff.rfl
  . intro _ _
    exact parallel_fail_bind rfl
  . intro _ _
    have hempty : Matched.Paired (Relabeling.shift k).pairing W ⟨.empty, [], []⟩ ⟨.empty, [], []⟩ :=
      ⟨Context.paired_empty, .nil, .nil⟩
    apply (bindPatterns_parallel henv d.patterns hpatterns hty.args hempty).bind
    intro V hV matched matched' hmatched
    have hremaining : ∀ {tys : List Ty}, List.Forall₂ (Ty.Paired V) tys tys →
        (tys.foldr .arrow d.scheme.ty.result).Paired V (tys.foldr .arrow d.scheme.ty.result) := by
      intro tys htys
      induction tys with
      | nil => exact (hty.mono hV).result
      | cons ty tys ih =>
        obtain ⟨hty, htys⟩ := List.forall₂_cons.mp htys
        exact .arrow hty (ih htys)
    have hargs := (hty.mono hV).args
    exact parallel_pure ⟨hmatched, (hremaining (List.forall₂_drop _ hargs)).substitute hmatched.subst⟩

theorem check_parallel (henv : env.Paired W env') {d : Definition}
    (hd : ∀ a ∈ d.mentioned, isDotless a = true ∧ W.rel a a)
    : Parallel 0 k W (fun _ _ _ => True) (d.check env) (d.check env') := by
  unfold mentioned at hd
  simp only [List.forall_mem_append, List.forall_mem_flatMap] at hd
  obtain ⟨⟨⟨hpatterns, hbody⟩, hannotations⟩, hscheme⟩ := hd
  have hscheme : d.scheme.Paired W d.scheme := Scheme.paired_self fun a ha => (hscheme a ha).2
  have hbody : ∀ x ∈ d.body.names, isDotless x = true := fun x hx => (hbody x hx).1
  have hadmits : d.body.Admits (Relabeling.shift k) W :=
    ⟨hbody, fun ty hty => Ty.paired_self fun a ha => (hannotations ty hty a ha).2,
      fun x hx hne => (hne (Relabeling.shift_map hx)).elim⟩
  have hfixed : ∀ x ∈ d.body.freeOccurrences, (Relabeling.shift k).map x = x :=
    fun x hx => Relabeling.shift_map (hbody x (Expr.mem_names_of_free d.body hx))
  have hrename : d.body.rename (Relabeling.shift k).map = d.body :=
    (Expr.rename_congr d.body hfixed).trans (Expr.rename_id d.body)
  unfold check
  apply (parallel_bindUniversals hscheme.vars).bind
  intro V₁ hV₁ _ _ _
  apply parallel_openScope.bind
  intro V₂ hV₂ _ _ _
  have hV := le_trans hV₁ hV₂
  have hparameters := bindParameters_parallel (k := k) (henv.mono hV) (fun x hx => (hpatterns x hx).1)
    (hscheme.ty.mono hV)
  apply (hparameters.and fun s s' r h => (bindParameters_binds h).nodup).bind
  rintro V₃ hV₃ ⟨matched, expected⟩ ⟨matched', expected'⟩ ⟨⟨hmatched, hexpected⟩, hnodup⟩
  apply parallel_enterConsequent.bind
  intro V₄ hV₄ _ _ _
  have hV := le_trans hV (le_trans hV₃ hV₄)
  have hinfer := Expr.infer_parallel (Relabeling.shift k) (henv.mono hV) d.body (hadmits.mono hV)
    (hmatched.context.mono hV₄) hnodup (fun x hx hne => (hne (hfixed x hx)).elim) V₄ le_rfl
    .positive (.check true (hexpected.mono hV₄))
  rw [hrename] at hinfer
  have hcheck : Parallel 0 k V₄ (fun V r r' => r.1.Paired (Relabeling.shift k).pairing V r'.1)
      (d.body.check env matched.context .positive true expected)
      (d.body.check env' matched'.context .positive true expected') :=
    hinfer.bind fun V _ r r' hr => parallel_pure hr.used
  apply hcheck.bind
  rintro V₅ hV₅ ⟨used, subst⟩ ⟨used', subst'⟩ hused
  have hmatched := hmatched.mono (le_trans hV₄ hV₅)
  apply parallel_ite (by rw [hmatched.context.isEmpty_remainingLinear hused])
  . intro _ _
    exact parallel_fail_bind rfl
  . intro _ _
    apply (Context.le_parallel d.body.pos (hused.intersect hmatched.context) hmatched.context).bind
    intro V₆ hV₆ _ _ _
    exact parallel_closeScope (hmatched.mono hV₆).existentials

end

end Definition

end GradedModal
