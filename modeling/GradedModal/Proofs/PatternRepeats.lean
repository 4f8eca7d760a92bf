import Mathlib
import GradedModal.Proofs.Patterns

/-!
This module says which variables a pattern can bind more than once. Two linear uses of a variable cannot be added, so a
variable that stands under no box is bound once. The uses of a variable under a box do add up, and a pattern that binds
it again is accepted.
-/

namespace GradedModal

open CheckM

namespace Pattern

section

variable {vars boxed : List String} {n k : Nat} {c : Context}

theorem BindsOnce.nodup_iff (h : BindsOnce vars boxed n k c)
    : vars.Nodup ↔ ∀ x, Names boxed k x → vars.count x ≤ 1 := by
  rw [List.nodup_iff_count_le_one]
  constructor
  . intro hcount x _
    exact hcount x
  . intro hboxed x
    by_cases hx : Names boxed k x
    . exact hboxed x hx
    . exact h.once x (h.unboxed x hx)

theorem BindsOnce.graded_of_repeated (h : BindsOnce vars boxed n k c) {x : String} (hx : 1 < vars.count x)
    : ∃ ty g, c.lookup? x = some (.graded ty g) := by
  by_contra hgraded
  push Not at hgraded
  exact absurd (h.once x hgraded) (Nat.not_le_of_lt hx)

end

end Pattern

/--
The variables of a pattern that is accepted are distinct if and only if those under boxes are bound once. If there is a
wildcard under a box, then this is also asked of variables that have one of the names that are made up for wildcards. A
variable that is bound again has a grade. The same goes for the parameters of a definition.
-/
theorem repeated_only_in_boxes (env : Env)
    : (∀ p ty s m s', Pattern.matchTy env p ty s = .ok m s' →
        (p.boundVars.Nodup ↔ ∀ x, Pattern.Names p.boxedVars p.boxedWildcards x → p.boundVars.count x ≤ 1) ∧
          ∀ x, 1 < p.boundVars.count x → ∃ ty g, m.context.lookup? x = some (.graded ty g)) ∧
      ∀ d s m ty s', Definition.bindParameters env d s = .ok (m, ty) s' →
        ((Pattern.boundVarsAll d.patterns).Nodup ↔
          ∀ x, Pattern.Names (Pattern.boxedVarsAll d.patterns) (Pattern.boxedWildcardsAll d.patterns) x →
            (Pattern.boundVarsAll d.patterns).count x ≤ 1) ∧
          ∀ x, 1 < (Pattern.boundVarsAll d.patterns).count x → ∃ ty g, m.context.lookup? x = some (.graded ty g) := by
  constructor
  . intro p ty s m s' h
    have hbinds := Pattern.matchTy_bindsOnce h
    exact ⟨hbinds.nodup_iff, fun x hx => hbinds.graded_of_repeated hx⟩
  . intro d s m ty s' h
    have hbinds := Definition.bindParameters_bindsOnce h
    exact ⟨hbinds.nodup_iff, fun x hx => hbinds.graded_of_repeated hx⟩

/-- `([x], (y, [_]))` -/
def Pattern.halfBoxed : Pattern :=
  .pair 0 (.box 1 (.var 2 "x")) (.pair 6 (.var 7 "y") (.box 10 (.wildcard 11)))

/-- `f ([x], [x]) = x + x` for two numbers, each of which may be used once -/
def Definition.addTwins : Definition where
  binder := ⟨0, "f"⟩
  patterns := [.pair 2 (.box 3 (.var 4 "x")) (.box 8 (.var 9 "x"))]
  body := .binop 14 .add (.var 14 "x") (.var 18 "x")
  scheme := .mono (.arrow (.pair (.box (.nat 1) (.const "Int")) (.box (.nat 1) (.const "Int"))) (.const "Int"))

theorem repeated_only_in_boxes_halfBoxed
    : (∃ m s', Pattern.halfBoxed.matchTy ⟨.standard, []⟩
          (.pair (.box (.nat 2) (.const "Int")) (.pair (.const "Int") (.box (.nat 0) (.const "Int")))) .start
        = .ok m s') ∧
      Pattern.halfBoxed.boundVars.Nodup ∧
      ∃ m ty s' ty' g, Definition.addTwins.bindParameters ⟨.standard, []⟩ .start = .ok (m, ty) s' ∧
        m.context.lookup? "x" = some (.graded ty' g) := by
  have hmatched : yields (Pattern.halfBoxed.matchTy ⟨.standard, []⟩
      (.pair (.box (.nat 2) (.const "Int")) (.pair (.const "Int") (.box (.nat 0) (.const "Int"))))) .start
      (fun _ _ => true) = true := by
    cbv
  obtain ⟨m, s', hmatched, _⟩ := exists_of_yields hmatched
  have hparameters : yields (Definition.addTwins.bindParameters ⟨.standard, []⟩) .start (fun _ _ => true) = true := by
    cbv
  obtain ⟨⟨m', ty⟩, t', hparameters, _⟩ := exists_of_yields hparameters
  obtain ⟨hpatterns, hdefinitions⟩ := repeated_only_in_boxes ⟨.standard, []⟩
  refine ⟨⟨m, s', hmatched⟩, (hpatterns _ _ _ _ _ hmatched).1.mpr ?_, ?_⟩
  . rintro x (hx | ⟨_, hx⟩)
    . obtain rfl : x = "x" := List.mem_singleton.mp hx
      decide
    . have hfresh : x ∉ Pattern.halfBoxed.boundVars := by
        intro hmem
        have hlength : ∀ y ∈ Pattern.halfBoxed.boundVars, y.length < 2 := by
          decide
        exact Pattern.not_isWildcardName (hlength x hmem) hx
      rw [List.count_eq_zero_of_not_mem hfresh]
      exact Nat.zero_le 1
  . obtain ⟨ty', g, hgraded⟩ := (hdefinitions _ _ _ _ _ hparameters).2 "x" (by decide)
    exact ⟨m', ty, t', ty', g, hparameters, hgraded⟩

/--
A pattern may bind a variable twice if both stand under boxes, and so may the parameters of a definition.
-/
theorem twins_bound_twice
    : (∃ m s', Pattern.matchTy ⟨.standard, []⟩ (.pair 2 (.box 3 (.var 4 "x")) (.box 8 (.var 9 "x")))
          (.pair (.box (.nat 1) (.const "Int")) (.box (.nat 1) (.const "Int"))) .start
        = .ok m s') ∧
      ¬(Pattern.boundVars (.pair 2 (.box 3 (.var 4 "x")) (.box 8 (.var 9 "x")))).Nodup ∧
      (∃ r s', Definition.addTwins.bindParameters ⟨.standard, []⟩ .start = .ok r s') ∧
      ¬(Pattern.boundVarsAll Definition.addTwins.patterns).Nodup := by
  have hmatched : yields (Pattern.matchTy ⟨.standard, []⟩ (.pair 2 (.box 3 (.var 4 "x")) (.box 8 (.var 9 "x")))
      (.pair (.box (.nat 1) (.const "Int")) (.box (.nat 1) (.const "Int")))) .start (fun _ _ => true) = true := by
    cbv
  have hparameters : yields (Definition.addTwins.bindParameters ⟨.standard, []⟩) .start (fun _ _ => true) = true := by
    cbv
  obtain ⟨m, s', hmatched, _⟩ := exists_of_yields hmatched
  obtain ⟨r, t', hparameters, _⟩ := exists_of_yields hparameters
  exact ⟨⟨m, s', hmatched⟩, by decide, ⟨r, t', hparameters⟩, by decide⟩

end GradedModal
