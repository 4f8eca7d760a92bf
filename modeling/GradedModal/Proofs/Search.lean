import GradedModal.Logic.Search
import GradedModal.Proofs.Run
import GradedModal.Proofs.Truth

/-!
This module says what the answers of the search mean. A formula that is found to be true is true, unless the search
has left out values of a universal variable on the way, and it does not forget that it has.
-/

namespace GradedModal

open CheckM (bind_eq_ok pure_eq_ok throw_eq_ok)

/--
Whether a value is not a natural beyond the largest word.
-/
def Value.isWord : Value → Bool
  | .nat n => n ≤ maxWord
  | _ => true

/--
Whether all naturals that are written in a grade are words.
-/
def Grade.isWord : Grade → Bool
  | .nat n => n ≤ maxWord
  | .op _ a b => a.isWord && b.isWord
  | _ => true

/--
No variable has a natural beyond the largest word as its value.
-/
def Assignment.AreWords (a : Assignment) : Prop :=
  ∀ x v, a.lookup x = some v → v.isWord = true

theorem GradeKind.isWord_of_contains {kind : GradeKind} {v : Value} (h : kind.contains v = true) : v.isWord = true := by
  cases v with
  | nat n =>
    cases kind with
    | nat => exact h
    | var name => exact h
    | _ => cases h
  | _ => rfl

theorem Assignment.AreWords.cons {a : Assignment} {kind : GradeKind} {v : Value} (ha : a.AreWords) (x : String)
    (hv : kind.contains v = true) : AreWords ((x, v) :: a) := by
  intro y w hw
  rw [List.lookup_cons] at hw
  split at hw
  . cases hw
    exact kind.isWord_of_contains hv
  . exact ha y w hw

theorem Op.onNat_le {o : Op} {m n : Nat} (hm : m ≤ maxWord) (hn : n ≤ maxWord) : o.onNat m n ≤ maxWord := by
  cases o with
  | plus | times => exact Nat.min_le_right _ _
  | join => exact Nat.max_le.mpr ⟨hm, hn⟩
  | meet => exact Nat.le_trans (Nat.min_le_left _ _) hm

theorem Op.apply_isWord {o : Op} {kind : GradeKind} {v w u : Value} (hv : v.isWord = true) (hw : w.isWord = true)
    (h : o.apply kind v w = .ok u) : u.isWord = true := by
  cases kind with
  | nat =>
    cases v with
    | nat m =>
      cases w with
      | nat n =>
        cases h
        simp only [Value.isWord, decide_eq_true_eq] at hv hw ⊢
        exact onNat_le hv hw
      | _ => cases h
    | _ => cases h
  | float =>
    cases v with
    | level l => cases h
    | _ =>
      cases w with
      | level l => cases h
      | _ =>
        cases h
        rfl
  | level =>
    cases v with
    | level l =>
      cases w with
      | level l' =>
        cases h
        rfl
      | _ => cases h
    | _ => cases h
  | var name => cases h

theorem Grade.evaluate_isWord {kind : GradeKind} {a : Assignment} {g : Grade} {v : Value} (ha : a.AreWords)
    (hg : g.isWord = true) (h : g.evaluate kind a = .ok v) : v.isWord = true := by
  induction g generalizing v with
  | var x =>
    unfold evaluate at h
    split at h
    . next w hw =>
      cases h
      exact ha x _ hw
    . cases h
  | nat n =>
    unfold evaluate at h
    cases h
    split
    . rfl
    . exact hg
  | float x | level l =>
    cases h
    rfl
  | zero kind' | one kind' =>
    unfold evaluate at h
    cases kind <;> cases h <;> rfl
  | op o g g' ihg ihg' =>
    simp only [isWord, Bool.and_eq_true] at hg
    obtain ⟨w, w', hw, hw', h⟩ := evaluate_op_eq_ok.mp h
    exact Op.apply_isWord (ihg hg.1 hw) (ihg' hg.2 hw') h

def Doubt.isGaveUp : Doubt → Bool
  | .gaveUp _ => true
  | _ => false

namespace SearchM

variable {α β : Type} {x : SearchM α} {f : α → SearchM β} {a : α} {b : β}

def Sticky (x : SearchM α) : Prop :=
  ∀ ⦃p p' : Search.Progress⦄ ⦃a : α⦄, x p = .ok a p' → p'.truncated = false → p.truncated = false

def Returns (x : SearchM α) (a : α) : Prop :=
  ∃ p p', x p = .ok a p' ∧ p'.truncated = false

theorem sticky_pure (a : α) : Sticky (pure a) := by
  intro p p' b h hp
  rw [pure_eq_ok] at h
  rw [h.2]
  exact hp

theorem sticky_throw (e : Doubt) : Sticky (throw e : SearchM α) := by
  intro p p' b h
  rw [throw_eq_ok] at h
  exact h.elim

theorem sticky_bind (hx : Sticky x) (hf : ∀ a, Sticky (f a)) : Sticky (x >>= f) := by
  intro p p' b h hp
  rw [bind_eq_ok] at h
  obtain ⟨a, p₁, hxp, hfp⟩ := h
  exact hx hxp (hf a hfp hp)

theorem returns_pure {a' : α} (h : Returns (pure a) a') : a = a' := by
  obtain ⟨p, p', h, _⟩ := h
  rw [pure_eq_ok] at h
  exact h.1

theorem not_returns_throw {e : Doubt} : ¬Returns (throw e) a := by
  rintro ⟨p, p', h, _⟩
  rw [throw_eq_ok] at h
  exact h

theorem returns_bind (hf : ∀ a, Sticky (f a)) (h : Returns (x >>= f) b) : ∃ a, Returns x a ∧ Returns (f a) b := by
  obtain ⟨p, p', h, hp⟩ := h
  rw [bind_eq_ok] at h
  obtain ⟨a, p₁, hxp, hfp⟩ := h
  exact ⟨a, ⟨p, p₁, hxp, hf a hfp hp⟩, p₁, p', hfp, hp⟩

/--
A property of searches by their limit that a composed search has if its parts have it.
-/
structure Closed (P : (α : Type) → (Nat → SearchM α) → Prop) : Prop where
  pure {α : Type} (a : α) : P α fun _ => pure a
  throw {α : Type} {doubt : Doubt} : doubt.isGaveUp = false → P α fun _ => throw doubt
  bind {α β : Type} {x : Nat → SearchM α} {f : Nat → α → SearchM β} :
    P α x → (∀ a, P β fun limit => f limit a) → P β fun limit => x limit >>= f limit
  step {universal existential : Search.Domain} : P Unit fun limit => Search.step ⟨universal, existential, limit⟩
  exhausted {kind : GradeKind} : P Unit fun _ => Search.exhausted kind

end SearchM

namespace Search

open SearchM

variable {α : Type} {s : Search} {kind : GradeKind} {f : Value → SearchM (Option α)} {d : Domain} {r : α}

theorem sticky_step : Sticky s.step := by
  intro p p' a h hp
  unfold step at h
  simp only [bind_eq_ok] at h
  obtain ⟨q, _, hget, _, _, hset, h⟩ := h
  cases hget
  cases hset
  split at h
  . rw [throw_eq_ok] at h
    exact h.elim
  . rw [pure_eq_ok] at h
    rw [← h.2] at hp
    exact hp

theorem sticky_exhausted : Sticky (exhausted kind) := by
  unfold exhausted
  split
  . exact sticky_pure _
  . intro p p' a h hp
    cases h
    cases hp

theorem eq_level_of_exhausted {u : Unit} (h : Returns (exhausted kind) u) : kind = .level := by
  unfold exhausted at h
  split at h
  . assumption
  . obtain ⟨p, p', h, hp⟩ := h
    cases h
    cases hp

-- Naturals are not listed before they are tried, but trying them is running through their list.
theorem findFirstNat_eq (f : Value → SearchM (Option α)) (first count : Nat)
    : findFirstNat f first count = findFirst f ((List.range' first count).map .nat) := by
  induction count generalizing first with
  | zero => rfl
  | succ count ih =>
    simp only [List.range'_succ, List.map_cons, findFirstNat, findFirst, ih]

def Domain.values (d : Domain) : GradeKind → List Value
  | .level => [.level .unused, .level .visible, .level .secret]
  | .float => d.floats.get.map .float
  | .nat => (List.range' 0 (d.upper + 1)).map .nat
  | .var _ => (List.range' 0 (d.upper + 1)).map .nat

theorem Domain.findFirst_eq (d : Domain) (kind : GradeKind) (f : Value → SearchM (Option α))
    : d.findFirst kind f = Search.findFirst f (d.values kind) := by
  cases kind with
  | level => rfl
  | float => rfl
  | nat | var name => exact findFirstNat_eq _ _ _

theorem Domain.contains_of_mem (hd : d.upper ≤ maxWord) {v : Value} (hv : v ∈ d.values kind)
    : kind.contains v = true := by
  cases kind with
  | level =>
    simp only [values, List.mem_cons, List.not_mem_nil, or_false] at hv
    obtain rfl | rfl | rfl := hv <;> rfl
  | float =>
    obtain ⟨x, _, rfl⟩ := List.mem_map.mp hv
    rfl
  | nat | var name =>
    obtain ⟨n, hn, rfl⟩ := List.mem_map.mp hv
    simp only [List.mem_range'_1] at hn
    simp only [GradeKind.contains, decide_eq_true_eq]
    omega

theorem Domain.mem_of_level {v : Value} (hv : GradeKind.level.contains v = true) : v ∈ d.values .level := by
  cases v with
  | level l => cases l <;> simp [values]
  | _ => cases hv

end Search

namespace SearchM

namespace Closed

variable {α : Type} {P : (α : Type) → (Nat → SearchM α) → Prop} (hP : Closed P)
variable {universal existential d : Search.Domain} {kind : GradeKind}
include hP

theorem findFirst {f : Nat → Value → SearchM (Option α)} (hf : ∀ v, P _ fun limit => f limit v) (vs : List Value)
    : P _ fun limit => Search.findFirst (f limit) vs := by
  induction vs with
  | nil => exact hP.pure none
  | cons v vs ih =>
    unfold Search.findFirst
    apply hP.bind (hf v)
    intro found
    cases found with
    | none => exact ih
    | some found => exact hP.pure _

theorem findFirst_values {f : Nat → Value → SearchM (Option α)} (hf : ∀ v, P _ fun limit => f limit v)
    : P _ fun limit => d.findFirst kind (f limit) := by
  simp only [Search.Domain.findFirst_eq]
  exact hP.findFirst hf _

theorem runThrough {g : Nat → Value → SearchM Bool} {stop : Bool} (hg : ∀ v, P _ fun limit => g limit v)
    : P _ fun limit => d.runThrough kind stop (g limit) := by
  unfold Search.Domain.runThrough
  apply hP.bind
  . apply hP.findFirst_values
    intro v
    exact hP.bind (hg v) fun _ => hP.pure _
  . intro found
    cases found with
    | none | some u => exact hP.pure _

theorem forAll {check : Nat → Assignment → SearchM Bool} (hcheck : ∀ a, P _ fun limit => check limit a)
    (vars : List Bound) (a : Assignment)
    : P _ fun limit => Search.forAll ⟨universal, existential, limit⟩ (check limit) vars a := by
  induction vars generalizing a with
  | nil => exact hcheck a
  | cons b vars ih =>
    unfold Search.forAll
    apply hP.bind
    . exact hP.runThrough fun v => ih _
    . intro all
      cases all with
      | true => exact hP.bind hP.exhausted fun _ => hP.pure _
      | false => exact hP.pure _

theorem forSome {check : Nat → Assignment → SearchM Bool} (hcheck : ∀ a, P _ fun limit => check limit a)
    (vars : List Bound) (a : Assignment)
    : P _ fun limit => Search.forSome ⟨universal, existential, limit⟩ (check limit) vars a := by
  induction vars generalizing a with
  | nil => exact hcheck a
  | cons b vars ih =>
    unfold Search.forSome
    exact hP.runThrough fun v => ih _

mutual

theorem eval (f : Formula) (a : Assignment)
    : P _ fun limit => Search.eval ⟨universal, existential, limit⟩ f a := by
  cases f with
  | atom c =>
    unfold Search.eval
    apply hP.bind hP.step
    intro _
    split
    . exact hP.pure _
    . exact hP.throw rfl
  | and items =>
    unfold Search.eval
    exact evalAll items a
  | implies p q =>
    unfold Search.eval
    apply hP.bind (eval p a)
    intro holds
    cases holds with
    | true => exact eval q a
    | false => exact hP.pure _
  | forAll vars body =>
    unfold Search.eval
    exact hP.forAll (fun a => eval body a) vars a
  | forSome vars body =>
    unfold Search.eval
    exact hP.forSome (fun a => eval body a) _ _

theorem evalAll (fs : List Formula) (a : Assignment)
    : P _ fun limit => Search.evalAll ⟨universal, existential, limit⟩ fs a := by
  cases fs with
  | nil =>
    unfold Search.evalAll
    exact hP.pure true
  | cons f fs =>
    unfold Search.evalAll
    apply hP.bind (eval f a)
    intro holds
    cases holds with
    | true => exact evalAll fs a
    | false => exact hP.pure _

end

theorem falsify (universal existential : Search.Domain) (body : Formula) (vars : List Bound) (a : Assignment)
    : P _ fun limit => Search.falsify ⟨universal, existential, limit⟩ body vars a := by
  induction vars generalizing a with
  | nil =>
    unfold Search.falsify
    apply hP.bind (hP.eval body a)
    intro holds
    cases holds with
    | true | false => exact hP.pure _
  | cons b vars ih =>
    unfold Search.falsify
    apply hP.bind
    . exact hP.findFirst_values fun v => ih _
    . intro found
      cases found with
      | some found => exact hP.pure _
      | none => exact hP.bind hP.exhausted fun _ => hP.pure _

end Closed

theorem closed_sticky : Closed fun _ x => ∀ limit, Sticky (x limit) where
  pure a _ := sticky_pure a
  throw _ _ := sticky_throw _
  bind hx hf limit := sticky_bind (hx limit) fun a => hf a limit
  step _ := Search.sticky_step
  exhausted _ := Search.sticky_exhausted

/--
The answers that searches with the property `S` can give, and the answers of their parts that they come from.
-/
structure Reads (S : (α : Type) → SearchM α → Prop) (R : (α : Type) → SearchM α → α → Prop) : Prop where
  closed : Closed fun α x => ∀ limit, S α (x limit)
  pure {α : Type} {a a' : α} : R α (pure a) a' → a = a'
  throw {α : Type} {doubt : Doubt} {a : α} : ¬R α (throw doubt) a
  bind {α β : Type} {x : SearchM α} {f : α → SearchM β} {b : β} :
    (∀ a, S β (f a)) → R β (x >>= f) b → ∃ a, R α x a ∧ R β (f a) b

theorem reads_returns : Reads @Sticky @Returns :=
  ⟨closed_sticky, returns_pure, not_returns_throw, returns_bind⟩

namespace Reads

variable {S : (α : Type) → SearchM α → Prop} {R : (α : Type) → SearchM α → α → Prop} (hR : Reads S R)
variable {d : Search.Domain} {kind : GradeKind} {s : Search} {a : Assignment}
include hR

theorem kept_pure {α : Type} (a : α) : S α (Pure.pure a) :=
  hR.closed.pure a 0

theorem kept_bind {α β : Type} {x : SearchM α} {f : α → SearchM β} (hx : S α x) (hf : ∀ a, S β (f a))
    : S β (x >>= f) :=
  hR.closed.bind (x := fun _ => x) (f := fun _ => f) (fun _ => hx) (fun a _ => hf a) 0

section

variable {α : Type} {f : Value → SearchM (Option α)} (hf : ∀ v, S _ (f v)) {vs : List Value} {r : α}
include hf

theorem findFirst_cons {v : Value} {r : Option α} (h : R _ (Search.findFirst f (v :: vs)) r)
    : (∃ found, some found = r ∧ R _ (f v) r) ∨ R _ (f v) none ∧ R _ (Search.findFirst f vs) r := by
  unfold Search.findFirst at h
  obtain ⟨found, hv, h⟩ := hR.bind (by
    intro found
    cases found with
    | none => exact hR.closed.findFirst (f := fun _ => f) (fun v _ => hf v) vs 0
    | some found => exact hR.kept_pure _) h
  cases found with
  | none => exact .inr ⟨hv, h⟩
  | some found =>
    have h := hR.pure h
    rw [h] at hv
    exact .inl ⟨found, h, hv⟩

theorem findFirst_some (h : R _ (Search.findFirst f vs) (some r)) : ∃ v ∈ vs, R _ (f v) (some r) := by
  induction vs with
  | nil => cases hR.pure h
  | cons v vs ih =>
    obtain ⟨_, _, hv⟩ | ⟨_, h⟩ := hR.findFirst_cons hf h
    . exact ⟨v, List.mem_cons_self, hv⟩
    . obtain ⟨w, hw, h⟩ := ih h
      exact ⟨w, List.mem_cons_of_mem _ hw, h⟩

theorem findFirst_none (h : R _ (Search.findFirst f vs) none) : ∀ v ∈ vs, R _ (f v) none := by
  induction vs with
  | nil => simp
  | cons v vs ih =>
    obtain ⟨_, hsome, _⟩ | ⟨hv, h⟩ := hR.findFirst_cons hf h
    . cases hsome
    . exact List.forall_mem_cons.mpr ⟨hv, ih h⟩

end

theorem runThrough {g : Value → SearchM Bool} {stop answer : Bool} (hg : ∀ v, S _ (g v))
    (h : R _ (d.runThrough kind stop g) answer)
    : if answer = stop then ∃ v ∈ d.values kind, R _ (g v) stop else ∀ v ∈ d.values kind, R _ (g v) answer := by
  have hkept : ∀ v, S _ (do return if (← g v) == stop then some () else none : SearchM (Option Unit)) :=
    fun v => hR.kept_bind (hg v) (fun _ => hR.kept_pure _)
  unfold Search.Domain.runThrough at h
  rw [Search.Domain.findFirst_eq] at h
  obtain ⟨found, hfound, h⟩ := hR.bind (by
    intro found
    cases found with
    | none | some u => exact hR.kept_pure _) h
  cases found with
  | some u =>
    obtain rfl := hR.pure h
    rw [if_pos rfl]
    obtain ⟨v, hv, h⟩ := hR.findFirst_some hkept hfound
    obtain ⟨answer, hanswer, h⟩ := hR.bind (fun _ => hR.kept_pure _) h
    have h := hR.pure h
    split at h
    . next heq =>
      rw [beq_iff_eq] at heq
      rw [heq] at hanswer
      exact ⟨v, hv, hanswer⟩
    . cases h
  | none =>
    obtain rfl := hR.pure h
    rw [if_neg (by cases stop <;> simp)]
    intro v hv
    obtain ⟨answer, hanswer, h⟩ := hR.bind (fun _ => hR.kept_pure _) (hR.findFirst_none hkept hfound v hv)
    have h := hR.pure h
    split at h
    . cases h
    . next hne =>
      have heq : answer = !stop := by
        cases answer <;> cases stop <;> simp_all
      rw [heq] at hanswer
      exact hanswer

theorem forAll_cons {check : Assignment → SearchM Bool} {x : String} {vars : List Bound} {answer : Bool}
    (h : R _ (s.forAll check ((x, kind) :: vars) a) answer)
    : R _ (s.universal.runThrough kind false fun v => s.forAll check vars ((x, v) :: a)) answer ∧
      (answer = true → ∃ u, R _ (Search.exhausted kind) u) := by
  unfold Search.forAll at h
  obtain ⟨all, hall, h⟩ := hR.bind (by
    intro all
    split
    . exact hR.kept_bind (hR.closed.exhausted 0) (fun _ => hR.kept_pure _)
    . exact hR.kept_pure _) h
  cases all with
  | true =>
    rw [if_pos rfl] at h
    obtain ⟨u, hu, h⟩ := hR.bind (fun _ => hR.kept_pure _) h
    obtain rfl := hR.pure h
    exact ⟨hall, fun _ => ⟨u, hu⟩⟩
  | false =>
    obtain rfl := hR.pure h
    exact ⟨hall, by simp⟩

theorem eval_atom {c : Constraint} {answer : Bool} (h : R _ (s.eval (.atom c) a) answer) : c.holds a = .ok answer := by
  unfold Search.eval at h
  obtain ⟨_, _, h⟩ := hR.bind (by
    intro _
    split
    . exact hR.kept_pure _
    . exact hR.closed.throw rfl 0) h
  split at h
  . next truth htruth => rw [htruth, hR.pure h]
  . exact absurd h hR.throw

theorem eval_implies {p q : Formula} {answer : Bool} (h : R _ (s.eval (.implies p q) a) answer)
    : R _ (s.eval p a) true ∧ R _ (s.eval q a) answer ∨ R _ (s.eval p a) false ∧ answer = true := by
  unfold Search.eval at h
  obtain ⟨first, hfirst, h⟩ := hR.bind (by
    intro first
    split
    . exact hR.closed.eval q a s.limit
    . exact hR.kept_pure _) h
  cases first with
  | true => exact .inl ⟨hfirst, h⟩
  | false => exact .inr ⟨hfirst, (hR.pure h).symm⟩

theorem evalAll {fs : List Formula} {answer : Bool} (h : R _ (s.evalAll fs a) answer)
    : if answer then ∀ f ∈ fs, R _ (s.eval f a) true else ∃ f ∈ fs, R _ (s.eval f a) false := by
  induction fs with
  | nil =>
    unfold Search.evalAll at h
    rw [← hR.pure h]
    simp
  | cons f fs ih =>
    unfold Search.evalAll at h
    obtain ⟨first, hfirst, h⟩ := hR.bind (by
      intro first
      split
      . exact hR.closed.evalAll fs a s.limit
      . exact hR.kept_pure _) h
    cases first with
    | true =>
      have ih := ih h
      cases answer with
      | true => exact List.forall_mem_cons.mpr ⟨hfirst, ih⟩
      | false =>
        obtain ⟨g, hg, ih⟩ := ih
        exact ⟨g, List.mem_cons_of_mem _ hg, ih⟩
    | false =>
      rw [← hR.pure h]
      exact ⟨f, List.mem_cons_self, hfirst⟩

theorem falsify_nil {body : Formula} {r : Option Assignment} (h : R _ (s.falsify body [] a) r)
    : if r = none then R _ (s.eval body a) true else r = some a ∧ R _ (s.eval body a) false := by
  unfold Search.falsify at h
  obtain ⟨answer, hanswer, h⟩ := hR.bind (by
    intro answer
    split
    . exact hR.kept_pure _
    . exact hR.kept_pure _) h
  cases answer with
  | true =>
    rw [← hR.pure h]
    exact hanswer
  | false =>
    rw [← hR.pure h]
    exact ⟨rfl, hanswer⟩

theorem falsify_cons {body : Formula} {x : String} {vars : List Bound} {r : Option Assignment}
    (h : R _ (s.falsify body ((x, kind) :: vars) a) r)
    : R _ (Search.findFirst (fun v => s.falsify body vars ((x, v) :: a)) (s.universal.values kind)) r ∧
      (r = none → ∃ u, R _ (Search.exhausted kind) u) := by
  unfold Search.falsify at h
  rw [Search.Domain.findFirst_eq] at h
  obtain ⟨found, hfound, h⟩ := hR.bind (by
    intro found
    cases found with
    | none => exact hR.kept_bind (hR.closed.exhausted 0) (fun _ => hR.kept_pure _)
    | some found => exact hR.kept_pure _) h
  cases found with
  | none =>
    obtain ⟨u, hu, h⟩ := hR.bind (fun _ => hR.kept_pure _) h
    rw [← hR.pure h]
    exact ⟨hfound, fun _ => ⟨u, hu⟩⟩
  | some found =>
    rw [← hR.pure h]
    exact ⟨hfound, by simp⟩

end Reads
end SearchM

namespace Search

open SearchM

variable {s : Search} {kind : GradeKind}

theorem sticky_eval {a : Assignment} (f : Formula) : Sticky (s.eval f a) :=
  closed_sticky.eval f a s.limit

section

variable {check : Assignment → SearchM Bool} {vars : List Bound} {a : Assignment}

theorem sticky_forAll (hcheck : ∀ a, Sticky (check a)) : Sticky (s.forAll check vars a) :=
  closed_sticky.forAll (fun a _ => hcheck a) vars a s.limit

variable {P : Assignment → Prop}

theorem forAll_true (ha : a.AreWords) (hcheck : ∀ a, Sticky (check a))
    (hP : ∀ a, a.AreWords → Returns (check a) true → P a) (h : Returns (s.forAll check vars a) true)
    : Interpretation.standard.ForAll P vars a := by
  induction vars generalizing a with
  | nil => exact hP a ha h
  | cons b vars ih =>
    obtain ⟨x, kind⟩ := b
    obtain ⟨h, hexhausted⟩ := reads_returns.forAll_cons h
    obtain ⟨u, hu⟩ := hexhausted rfl
    obtain rfl := eq_level_of_exhausted hu
    intro v hv
    exact ih (ha.cons x hv) (reads_returns.runThrough (fun _ => sticky_forAll hcheck) h v (Domain.mem_of_level hv))

theorem forAll_false (hs : s.universal.upper ≤ maxWord) (ha : a.AreWords) (hcheck : ∀ a, Sticky (check a))
    (hP : ∀ a, a.AreWords → Returns (check a) false → ¬P a) (h : Returns (s.forAll check vars a) false)
    : ¬Interpretation.standard.ForAll P vars a := by
  induction vars generalizing a with
  | nil => exact hP a ha h
  | cons b vars ih =>
    obtain ⟨x, kind⟩ := b
    obtain ⟨v, hv, h⟩ := reads_returns.runThrough (fun _ => sticky_forAll hcheck) (reads_returns.forAll_cons h).1
    have hv := Domain.contains_of_mem hs hv
    intro hall
    exact ih (ha.cons x hv) h (hall v hv)

/--
The values of variables after a search for some of them: those that were searched for have a value of their kind, and
all others have kept theirs.
-/
structure Found (vars : List Bound) (a a' : Assignment) : Prop where
  words : a'.AreWords
  found : ∀ x ∈ vars.map (·.1), ∃ kind v, (x, kind) ∈ vars ∧ a'.lookup x = some v ∧ kind.contains v = true
  kept : ∀ x, x ∉ vars.map (·.1) → a'.lookup x = a.lookup x

theorem forSome_true (hs : s.existential.upper ≤ maxWord) (ha : a.AreWords) (hcheck : ∀ a, Sticky (check a))
    (h : Returns (s.forSome check vars a) true) : ∃ a', Returns (check a') true ∧ Found vars a a' := by
  induction vars generalizing a with
  | nil => exact ⟨a, h, ha, by simp, by simp⟩
  | cons b vars ih =>
    obtain ⟨y, kind⟩ := b
    unfold forSome at h
    obtain ⟨v, hv, h⟩ := reads_returns.runThrough
      (fun _ => closed_sticky.forSome (fun a _ => hcheck a) vars _ s.limit) h
    have hv := Domain.contains_of_mem hs hv
    obtain ⟨a', h, hfound⟩ := ih (ha.cons y hv) h
    refine ⟨a', h, hfound.words, ?_, ?_⟩
    . intro x hx
      by_cases hvars : x ∈ vars.map (·.1)
      . obtain ⟨kind', w, hmem, hw⟩ := hfound.found x hvars
        exact ⟨kind', w, List.mem_cons_of_mem _ hmem, hw⟩
      . obtain rfl : x = y := by simpa [hvars] using hx
        exact ⟨kind, v, List.mem_cons_self, by simp [hfound.kept x hvars], hv⟩
    . intro x hx
      simp only [List.map_cons, List.mem_cons, not_or] at hx
      rw [hfound.kept x hx.2, List.lookup_cons, beq_eq_false_iff_ne.mpr hx.1]

end

def Defines (c : Constraint) (x : String) : Prop :=
  c.left = .var x ∨ c.right = .var x

section

variable {equations : List Constraint} {pending rest : List Bound} {a a' : Assignment} {c : Constraint} {x : String}
variable {v : Value}

theorem solveSide?_eq_some {g g' : Grade} (h : solveSide? pending a kind g g' = some (x, v))
    : g = .var x ∧ x ∈ pending.map (·.1) ∧ g'.evaluate kind a = .ok v := by
  unfold solveSide? at h
  split at h
  . next y g' =>
    split at h
    . next hany =>
      split at h
      . next w hw =>
        cases h
        refine ⟨rfl, ?_, hw⟩
        obtain ⟨b, hb, hbx⟩ := List.any_eq_true.mp hany
        exact List.mem_map.mpr ⟨b, hb, of_decide_eq_true hbx⟩
      . cases h
    . cases h
  . cases h

theorem solve?_eq_some (h : solve? pending a c = some (x, v))
    : Defines c x ∧ x ∈ pending.map (·.1) ∧
      (c.right.evaluate c.kind a = .ok v ∨ c.left.evaluate c.kind a = .ok v) := by
  unfold solve? at h
  rw [Option.or_eq_some_iff] at h
  obtain h | ⟨_, h⟩ := h
  . obtain ⟨hleft, hx, hv⟩ := solveSide?_eq_some h
    exact ⟨.inl hleft, hx, .inl hv⟩
  . obtain ⟨hright, hx, hv⟩ := solveSide?_eq_some h
    exact ⟨.inr hright, hx, .inr hv⟩

structure Solved (equations : List Constraint) (pending : List Bound) (a : Assignment) (rest : List Bound)
    (a' : Assignment) : Prop where
  words : a'.AreWords
  subset : ∀ b ∈ rest, b ∈ pending
  solved : ∀ x ∈ pending.map (·.1), x ∉ rest.map (·.1) →
    ∃ c ∈ equations, Defines c x ∧ ∃ v, a'.lookup x = some v
  kept : ∀ x, x ∉ pending.map (·.1) → a'.lookup x = a.lookup x

theorem propagate_go_solved (hequations : ∀ c ∈ equations, c.left.isWord = true ∧ c.right.isWord = true)
    (n : Nat) (pending : List Bound) (ha : a.AreWords)
    : Solved equations pending a (propagate.go equations n pending a).1 (propagate.go equations n pending a).2 := by
  induction n generalizing pending a with
  | zero => exact ⟨ha, fun _ hb => hb, fun _ hx hrest => absurd hx hrest, fun _ _ => rfl⟩
  | succ n ih =>
    unfold propagate.go
    split
    . next x v hfind =>
      obtain ⟨c, hc, hsolve⟩ := List.exists_of_findSome?_eq_some hfind
      obtain ⟨hdefines, hx, hv⟩ := solve?_eq_some hsolve
      have hword : v.isWord = true := by
        obtain hv | hv := hv
        . exact Grade.evaluate_isWord ha (hequations c hc).2 hv
        . exact Grade.evaluate_isWord ha (hequations c hc).1 hv
      have ha' : Assignment.AreWords ((x, v) :: a) := by
        intro y w hw
        rw [List.lookup_cons] at hw
        split at hw
        . cases hw
          exact hword
        . exact ha y w hw
      have hsub : ∀ b ∈ pending.eraseP (·.1 = x), b ∈ pending := fun b hb => List.mem_of_mem_eraseP hb
      obtain ⟨hwords, hrest, hsolved, hkept⟩ := ih (pending.eraseP (·.1 = x)) ha'
      refine ⟨hwords, fun b hb => hsub b (hrest b hb), ?_, ?_⟩
      . intro y hy hyrest
        by_cases hyx : y ∈ (pending.eraseP (·.1 = x)).map (·.1)
        . exact hsolved y hyx hyrest
        . obtain rfl : y = x := by
            obtain ⟨b, hb, rfl⟩ := List.mem_map.mp hy
            by_cases hbx : b.1 = x
            . exact hbx
            . exact absurd (List.mem_map.mpr ⟨b, (List.mem_eraseP_of_neg (by simpa using hbx)).mpr hb, rfl⟩) hyx
          exact ⟨c, hc, hdefines, v, by rw [hkept y hyx]; simp⟩
      . intro y hy
        have hyx : y ≠ x := by
          rintro rfl
          exact hy hx
        rw [hkept y, List.lookup_cons, beq_eq_false_iff_ne.mpr hyx]
        intro hmem
        obtain ⟨b, hb, rfl⟩ := List.mem_map.mp hmem
        exact hy (List.mem_map.mpr ⟨b, hsub b hb, rfl⟩)
    . exact ⟨ha, fun _ hb => hb, fun _ hx hrest => absurd hx hrest, fun _ _ => rfl⟩

theorem propagate_solved (hequations : ∀ c ∈ equations, c.left.isWord = true ∧ c.right.isWord = true)
    (ha : a.AreWords) (h : propagate equations pending a = (rest, a')) : Solved equations pending a rest a' := by
  have hgo := propagate_go_solved hequations pending.length pending ha
  unfold propagate at h
  rw [h] at hgo
  exact hgo

end

end Search
end GradedModal
