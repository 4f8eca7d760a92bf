import GradedModal.Proofs.Grading
import GradedModal.Proofs.Usage

/-!
This module says what a promotion `[e]` against a box demands of the variables of `e`. Each of them is found to be used
as often as the box demands times a grade that stands for its uses in `e`; the polarity decides whether that grade is
a bound on them from above or from below.
-/

namespace GradedModal

open CheckM Context

namespace Context

variable {pos : Nat} {c fresh used : Context} {demand : Grade} {vars : List String} {x : String} {ty : Ty} {g : Grade}
  {s s' : State}

theorem nodup_names_freshen (hc : c.names.Nodup) (h : freshen pos vars c demand s = .ok fresh s')
    : fresh.names.Nodup := by
  rw [names_freshen h]
  exact nodup_names_filter hc _

theorem eq_graded_of_freshen (h : freshen pos vars c demand s = .ok fresh s') {a : Assumption}
    (ha : fresh.lookup? x = some a) : x ∈ vars ∧ ∃ ty g, a = .graded ty g := by
  have hfreshens := lookup?_freshen h x
  rw [ha] at hfreshens
  split at hfreshens
  . next hx =>
    refine ⟨hx, ?_⟩
    generalize c.lookup? x = outside at hfreshens
    cases hfreshens with
    | linear ty kind => exact ⟨ty, .one kind, rfl⟩
    | graded ty g v => exact ⟨ty, .var v, rfl⟩
  . cases hfreshens

-- Everything in a box has a grade, and so has whatever is used of it.
theorem AllFit.eq_graded_of_freshen (hused : used.AllFit fresh) (h : freshen pos vars c demand s = .ok fresh s')
    {a : Assumption} (ha : used.lookup? x = some a)
    : ∃ ty u g, x ∈ vars ∧ a = .graded ty u ∧ fresh.lookup? x = some (.graded ty g) := by
  obtain ⟨b, hb, hty, hlinear⟩ := hused.lookup? ha
  obtain ⟨hx, ty, g, rfl⟩ := Context.eq_graded_of_freshen h hb
  cases a with
  | linear ty' => exact absurd (hlinear rfl) (by simp [Assumption.isLinear])
  | graded ty' u =>
    cases hty
    exact ⟨ty, u, g, hx, rfl, hb⟩

theorem exact_le_of_le {σ : String → Nat} {left right : Context} {ty' : Ty} {g' : Grade}
    (h : le pos left right s = .ok () s') (hσ : State.AllDemands (Constraint.HoldsExactly σ) s s')
    (hleft : left.lookup? x = some (.graded ty g)) (hright : right.lookup? x = some (.graded ty' g'))
    : g.exact σ ≤ g'.exact σ := by
  have hbelow := lookup?_le h hσ x
  rw [hleft, hright] at hbelow
  exact amount_le_of_below hbelow (by simp)

end Context

/--
If an assignment of naturals satisfies the constraints that checking a promotion against a box collects, those in
antecedents apart, then whatever the content uses has a grade, and is found to be used at least the demand of the box
times that often at positive polarity, and at most that often at negative polarity.
-/
theorem Expr.promotion_scales_use {env : Env} {c : Context} {polarity : Polarity} {topLevel : Bool} {demand : Grade}
    {content : Ty} {pos : Nat} {e : Expr} {s s' : State} {returned : Context} {subst : Substitution}
    (hc : c.names.Nodup)
    (h : (Expr.promote pos e).check env c polarity topLevel (.box demand content) s = .ok (returned, subst) s')
    {σ : String → Nat} (hσ : ∀ constraint ∈ s.demands s', constraint.HoldsExactly σ)
    : ∃ fresh used s₁ s₂,
        Context.freshen pos (e.freeVars.filter c.contains) c demand s = .ok fresh s₁ ∧
        e.check env fresh polarity false content s₁ = .ok (used, subst) s₂ ∧
        ∀ x a, used.lookup? x = some a →
          ∃ ty u g, a = .graded ty u ∧ returned.lookup? x = some (.graded ty g) ∧
            (polarity = .positive → demand.exact σ * u.exact σ ≤ g.exact σ) ∧
            (polarity = .negative → g.exact σ ≤ demand.exact σ * u.exact σ) := by
  have hdemands : State.AllDemands (Constraint.HoldsExactly σ) s s' := hσ
  obtain ⟨r, hinfer, hresult⟩ := check_eq_ok h
  cases hresult
  obtain ⟨_, _, _, fresh, inner, s₁, s₂, hgoal, hfresh, hinner, hle, rfl⟩ | ⟨_, _, _, _, _, _, hgoal, _⟩ :=
    infer_promote hinfer
  . cases hgoal
    have hfaithful := infer_isFaithful env e hinner (nodup_names_freshen hc hfresh)
    have hcheck : e.check env fresh polarity false content s₁ = .ok (inner.used, inner.subst) s₂ := by
      unfold check
      rw [bind_of_ok hinner]
      rfl
    refine ⟨fresh, inner.used, s₁, s₂, hfresh, hcheck, fun x a ha => ?_⟩
    obtain ⟨ty, u, g, hx, rfl, hg⟩ := hfaithful.fits.eq_graded_of_freshen hfresh ha
    refine ⟨ty, u, .op .times demand g, rfl, ?_, ?_⟩
    . rw [lookup?_scale, if_pos hx, hg]
      rfl
    . have hs₁ := freshen_reaching _ _ _ _ hfresh
      have hs₂ := infer_reaching env e _ _ _ hinner
      cases polarity with
      | positive =>
        have hs₃ := le_reaching _ _ _ hle
        have hused := exact_le_of_le hle (hdemands.between (hs₁.trans hs₂) hs₃ .refl) ha hg
        exact ⟨fun _ => Nat.mul_le_mul_left _ hused, by simp⟩
      | negative =>
        have hs₃ := le_reaching _ _ _ hle
        have hused := exact_le_of_le hle (hdemands.between (hs₁.trans hs₂) hs₃ .refl) hg ha
        exact ⟨by simp, fun _ => Nat.mul_le_mul_left _ hused⟩
  . exact absurd rfl (hgoal _ _ _)

/-- The context of a variable that may be used five times and of a linear one. -/
def Context.gradedAndLinear : Context :=
  ⟨[("x", .graded (.const "Int") (.nat 5)), ("y", .linear (.const "Int"))]⟩

/-- The graded variable twice and the linear one once. -/
def Expr.threeTerms : Expr :=
  .binop 0 .add (.var 0 "x") (.binop 0 .add (.var 0 "y") (.var 0 "x"))

theorem Expr.promotion_scales_use_threeTerms
    : Context.gradedAndLinear.names.Nodup ∧
      ∃ returned subst s',
        (Expr.promote 0 .threeTerms).check ⟨.standard, []⟩ .gradedAndLinear .positive false
          (.box (.nat 3) (.const "Int")) .start = .ok (returned, subst) s' ∧
        (∀ constraint ∈ State.start.demands s', constraint.HoldsExactly fun _ => 2) ∧
        ∃ fresh used s₁ s₂,
          Context.freshen 0 ["x", "y"] .gradedAndLinear (.nat 3) .start = .ok fresh s₁ ∧
          Expr.threeTerms.check ⟨.standard, []⟩ fresh .positive false (.const "Int") s₁ = .ok (used, subst) s₂ ∧
          ∃ ty u g, used.lookup? "x" = some (.graded ty u) ∧ returned.lookup? "x" = some (.graded ty g) ∧
            3 * u.exact (fun _ => 2) ≤ g.exact fun _ => 2 := by
  have hc : Context.gradedAndLinear.names.Nodup := by decide
  have hcheck : yields ((Expr.promote 0 .threeTerms).check ⟨.standard, []⟩ .gradedAndLinear .positive false
      (.box (.nat 3) (.const "Int"))) .start
      (fun _ s' => decide (∀ constraint ∈ State.start.demands s', constraint.HoldsExactly fun _ => 2)) = true := by
    cbv
  have hinner : yields (do
      let fresh ← Context.freshen 0 ["x", "y"] .gradedAndLinear (.nat 3)
      Expr.threeTerms.check ⟨.standard, []⟩ fresh .positive false (.const "Int")) .start
      (fun r _ => (r.1.lookup? "x").isSome) = true := by
    cbv
  obtain ⟨⟨returned, subst⟩, s', hcheck, hσ⟩ := exists_of_yields hcheck
  have hσ := of_decide_eq_true hσ
  refine ⟨hc, returned, subst, s', hcheck, hσ, ?_⟩
  obtain ⟨fresh, used, s₁, s₂, hfresh, hused, hscales⟩ := Expr.promotion_scales_use hc hcheck hσ
  have hvars : Expr.threeTerms.freeVars.filter Context.gradedAndLinear.contains = ["x", "y"] := by decide
  rw [hvars] at hfresh
  refine ⟨fresh, used, s₁, s₂, hfresh, hused, ?_⟩
  obtain ⟨_, _, hrun, hx⟩ := exists_of_yields hinner
  rw [bind_of_ok hfresh, hused] at hrun
  cases hrun
  obtain ⟨a, ha⟩ := Option.isSome_iff_exists.mp hx
  obtain ⟨ty, u, g, rfl, hg, hpositive, _⟩ := hscales "x" a ha
  exact ⟨ty, u, g, ha, hg, hpositive rfl⟩

-- One use, which the box demands twice, is found to be none.
theorem Expr.promotion_undercounts_at_negative
    : ∃ returned subst s' fresh used s₁ s₂,
        (Expr.promote 0 (.var 0 "x")).check ⟨.standard, []⟩ .gradedAndLinear .negative false
          (.box (.nat 2) (.const "Int")) .start = .ok (returned, subst) s' ∧
        Context.freshen 0 ["x"] .gradedAndLinear (.nat 2) .start = .ok fresh s₁ ∧
        (Expr.var 0 "x").check ⟨.standard, []⟩ fresh .negative false (.const "Int") s₁ = .ok (used, subst) s₂ ∧
        (∀ constraint ∈ State.start.demands s', constraint.HoldsExactly fun _ => 0) ∧
        ∃ u g, used.lookup? "x" = some (.graded (.const "Int") u) ∧
          returned.lookup? "x" = some (.graded (.const "Int") g) ∧ g.exact (fun _ => 0) < 2 * u.exact fun _ => 0 := by
  have hcheck : yields ((Expr.promote 0 (.var 0 "x")).check ⟨.standard, []⟩ .gradedAndLinear .negative false
      (.box (.nat 2) (.const "Int"))) .start
      (fun r s' => decide (r = (⟨[("x", .graded (.const "Int") (.op .times (.nat 2) (.var "x.0")))]⟩, []) ∧
        ∀ constraint ∈ State.start.demands s', constraint.HoldsExactly fun _ => 0)) = true := by
    cbv
  have hinner : yields (do
      let fresh ← Context.freshen 0 ["x"] .gradedAndLinear (.nat 2)
      (Expr.var 0 "x").check ⟨.standard, []⟩ fresh .negative false (.const "Int")) .start
      (fun r _ => decide (r = (⟨[("x", .graded (.const "Int") (.one .nat))]⟩, []))) = true := by
    cbv
  obtain ⟨_, s', hcheck, hresult⟩ := exists_of_yields hcheck
  obtain ⟨rfl, hσ⟩ := of_decide_eq_true hresult
  obtain ⟨_, s₂, hrun, hresult⟩ := exists_of_yields hinner
  cases of_decide_eq_true hresult
  rw [bind_eq_ok] at hrun
  obtain ⟨fresh, s₁, hfresh, hused⟩ := hrun
  exact ⟨_, _, s', fresh, _, s₁, s₂, hcheck, hfresh, hused, hσ, _, _, rfl, rfl, by decide⟩

end GradedModal
