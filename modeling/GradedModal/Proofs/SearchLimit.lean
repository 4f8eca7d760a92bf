import GradedModal.Proofs.Search

/-!
This module says what the limit of the search does. Each search takes a number of evaluations that does not depend on
the limit. With a limit below this number the search gives up, and with any other one it gives the same answer.
-/

namespace GradedModal

open CheckM (bind_of_ok bind_of_error)

namespace SearchM

def IsFinal {α : Type} : EStateM.Result Doubt Search.Progress α → Prop
  | .ok _ _ => True
  | .error doubt _ => doubt.isGaveUp = false

def evaluations {α : Type} : EStateM.Result Doubt Search.Progress α → Nat
  | .ok _ p => p.steps
  | .error _ p => p.steps

/--
What a search with a limit does, if it ends with `r` when there is none.
-/
structure EndsWithin {α : Type} (r : EStateM.Result Doubt Search.Progress α) (limit : Nat)
    (r' : EStateM.Result Doubt Search.Progress α) : Prop where
  answers : evaluations r ≤ limit → r' = r
  givesUp : limit < evaluations r → ∃ p, r' = .error (.gaveUp limit) p

/--
The limit decides about nothing but whether a search comes to its end.
-/
def Metered {α : Type} (x : Nat → SearchM α) : Prop :=
  ∀ p : Search.Progress, ∃ r, IsFinal r ∧ p.steps ≤ evaluations r ∧
    ∀ limit, p.steps ≤ limit → EndsWithin r limit (x limit p)

variable {α β : Type}

theorem metered_pure (a : α) : Metered fun _ => pure a := by
  intro p
  refine ⟨.ok a p, trivial, Nat.le_refl _, ?_⟩
  intro limit hlimit
  exact ⟨fun _ => rfl, fun hlt => absurd hlimit (Nat.not_le_of_lt hlt)⟩

theorem metered_throw {doubt : Doubt} (h : doubt.isGaveUp = false) : Metered fun _ => (throw doubt : SearchM α) := by
  intro p
  refine ⟨.error doubt p, h, Nat.le_refl _, ?_⟩
  intro limit hlimit
  exact ⟨fun _ => rfl, fun hlt => absurd hlimit (Nat.not_le_of_lt hlt)⟩

theorem metered_modify {f : Search.Progress → Search.Progress} (h : ∀ p, (f p).steps = p.steps)
    : Metered fun _ => (modify f : SearchM Unit) := by
  intro p
  have hsteps : evaluations (.ok () (f p)) = p.steps := h p
  refine ⟨.ok () (f p), trivial, Nat.le_of_eq hsteps.symm, ?_⟩
  intro limit hlimit
  rw [← hsteps] at hlimit
  exact ⟨fun _ => rfl, fun hlt => absurd hlimit (Nat.not_le_of_lt hlt)⟩

theorem metered_bind {x : Nat → SearchM α} {f : Nat → α → SearchM β} (hx : Metered x)
    (hf : ∀ a, Metered fun limit => f limit a) : Metered fun limit => x limit >>= f limit := by
  intro p
  obtain ⟨r, hr, hle, hends⟩ := hx p
  cases r with
  | error doubt p₁ =>
    refine ⟨.error doubt p₁, hr, hle, ?_⟩
    intro limit hlimit
    constructor
    . intro hsteps
      exact bind_of_error ((hends limit hlimit).answers hsteps)
    . intro hsteps
      obtain ⟨q, hq⟩ := (hends limit hlimit).givesUp hsteps
      exact ⟨q, bind_of_error hq⟩
  | ok a p₁ =>
    obtain ⟨r', hr', hle', hends'⟩ := hf a p₁
    refine ⟨r', hr', Nat.le_trans hle hle', ?_⟩
    intro limit hlimit
    have hrest : p₁.steps ≤ limit → (x limit >>= f limit) p = f limit a p₁ :=
      fun hsteps => bind_of_ok ((hends limit hlimit).answers hsteps)
    constructor
    . intro hsteps
      have hsteps₁ := Nat.le_trans hle' hsteps
      exact (hrest hsteps₁).trans ((hends' limit hsteps₁).answers hsteps)
    . intro hsteps
      by_cases hsteps₁ : p₁.steps ≤ limit
      . obtain ⟨q, hq⟩ := (hends' limit hsteps₁).givesUp hsteps
        exact ⟨q, (hrest hsteps₁).trans hq⟩
      . obtain ⟨q, hq⟩ := (hends limit hlimit).givesUp (Nat.lt_of_not_le hsteps₁)
        exact ⟨q, bind_of_error hq⟩

end SearchM

namespace Search

open SearchM

variable {universal existential : Domain} {kind : GradeKind}

theorem metered_step : Metered fun limit => step ⟨universal, existential, limit⟩ := by
  intro p
  refine ⟨.ok () { p with steps := p.steps + 1 }, trivial, Nat.le_succ _, ?_⟩
  intro limit _
  have hstep : step ⟨universal, existential, limit⟩ p
      = (if limit < p.steps + 1 then throw (.gaveUp limit) else pure () : SearchM Unit)
          { p with steps := p.steps + 1 } := rfl
  constructor
  . intro (hsteps : p.steps + 1 ≤ limit)
    rw [if_neg (Nat.not_lt_of_le hsteps)] at hstep
    exact hstep
  . intro (hsteps : limit < p.steps + 1)
    rw [if_pos hsteps] at hstep
    exact ⟨_, hstep⟩

theorem metered_exhausted : Metered fun _ => exhausted kind := by
  unfold exhausted
  split
  . exact metered_pure ()
  . exact metered_modify fun _ => rfl

theorem closed_metered : Closed fun _ x => Metered x :=
  ⟨metered_pure, metered_throw, metered_bind, metered_step, metered_exhausted⟩

end Search

namespace Query

theorem exists_cost (q : Query) (bound : Nat) (step : Float)
    : ∃ cost verdict, (∀ limit, verdict ≠ .undecided (.gaveUp limit)) ∧
        (∀ limit, cost ≤ limit → q.search ⟨bound, step, limit⟩ = verdict) ∧
        ∀ limit, limit < cost → q.search ⟨bound, step, limit⟩ = .undecided (.gaveUp limit) := by
  obtain ⟨r, hr, _, hends⟩ := Search.closed_metered.falsify (Search.ofQuery ⟨bound, step, 0⟩ q).universal
    (Search.ofQuery ⟨bound, step, 0⟩ q).existential q.body q.universals [] .start
  -- The values to try do not depend on the limit.
  have hends : ∀ limit, SearchM.EndsWithin r limit
      ((Search.ofQuery ⟨bound, step, limit⟩ q).falsify q.body q.universals [] .start) :=
    fun limit => hends limit (Nat.zero_le _)
  refine ⟨SearchM.evaluations r, q.search ⟨bound, step, SearchM.evaluations r⟩, ?_, ?_, ?_⟩
  . intro limit h
    unfold search EStateM.run at h
    rw [(hends _).answers (Nat.le_refl _)] at h
    cases r with
    | ok found p =>
      cases found with
      | some a => cases h
      | none =>
        dsimp only at h
        split at h
        . cases h
        . cases h
    | error doubt p =>
      cases h
      cases hr
  . intro limit hlimit
    unfold search EStateM.run
    rw [(hends limit).answers hlimit, (hends _).answers (Nat.le_refl _)]
  . intro limit hlimit
    obtain ⟨p, hp⟩ := (hends limit).givesUp hlimit
    unfold search EStateM.run
    rw [hp]

/--
A limit has no influence on the verdict of the search but that it makes the search give up. It does so if and only if
it is below some number.
-/
theorem search_same_of_not_gaveUp (q : Query) (bound : Nat) (step : Float)
    : (∀ limit limit', limit ≤ limit' → q.search ⟨bound, step, limit⟩ ≠ .undecided (.gaveUp limit) →
        q.search ⟨bound, step, limit'⟩ = q.search ⟨bound, step, limit⟩) ∧
      ∃ cost, ∀ limit, q.search ⟨bound, step, limit⟩ = .undecided (.gaveUp limit) ↔ limit < cost := by
  obtain ⟨cost, verdict, hverdict, hanswer, hgaveUp⟩ := q.exists_cost bound step
  constructor
  . intro limit limit' hle h
    have hcost : cost ≤ limit := Nat.le_of_not_lt fun hlt => h (hgaveUp limit hlt)
    rw [hanswer limit hcost, hanswer limit' (Nat.le_trans hcost hle)]
  . refine ⟨cost, fun limit => ⟨?_, hgaveUp limit⟩⟩
    intro h
    apply Nat.lt_of_not_le
    intro hle
    rw [hanswer limit hle] at h
    exact hverdict limit h

/-- For all levels `l`, some level `m` is at least `l`, and `l` is at most visible. -/
def visibleLevels : Query :=
  ⟨[("l", .level)], .and [.forSome [("m", .level)] (.atom (.le 0 (.var "l") (.var "m") .level)),
    .atom (.le 0 (.var "l") (.level .visible) .level)]⟩

/-- The search needs nine evaluations to find that secret is not visible. -/
theorem search_visibleLevels
    : visibleLevels.search ⟨8, 0.5, 8⟩ = .undecided (.gaveUp 8) ∧
      visibleLevels.search ⟨8, 0.5, 9⟩ = .invalid [("l", .level .secret)] ∧
      visibleLevels.search ⟨8, 0.5, 5000000⟩ = .invalid [("l", .level .secret)] := by
  have hsearch : visibleLevels.search ⟨8, 0.5, 9⟩ = .invalid [("l", .level .secret)] := rfl
  refine ⟨rfl, hsearch, ?_⟩
  have hanswered : visibleLevels.search ⟨8, 0.5, 9⟩ ≠ .undecided (.gaveUp 9) := by
    intro h
    rw [hsearch] at h
    cases h
  rw [(visibleLevels.search_same_of_not_gaveUp 8 0.5).1 9 5000000 (by decide) hanswered]
  exact hsearch

end Query
end GradedModal
