import GradedModal.Proofs.Linearity

/-!
This module says which linear variables may be used twice. A case forgets a linear variable that one of its
branches does not use, so an accepted expression uses a variable at most once on each path if and only if the
branches of each case agree on using it.
-/

namespace GradedModal

open CheckM Context GradedModal.Path

namespace Expr

/--
Whether a branch uses a variable that is bound outside.
-/
def branchUses (x : String) (branch : Pattern × Expr) : Bool :=
  !branch.1.boundVars.contains x && branch.2.freeOccurrences.contains x

mutual

/--
Whether each case in the scope of a variable uses it in all of its branches or in none.
-/
def uniform (x : String) : Expr → Bool
  | .int _ _ => true
  | .float _ _ => true
  | .var _ _ => true
  | .constructor _ _ => true
  | .lam _ binder _ body => x == binder.name || body.uniform x
  | .app _ f a => f.uniform x && a.uniform x
  | .promote _ e => e.uniform x
  | .lift _ e => e.uniform x
  | .binop _ _ a b => a.uniform x && b.uniform x
  | .pair _ a b => a.uniform x && b.uniform x
  | .case _ scrutinee branches =>
    scrutinee.uniform x &&
      (uniformBranches x branches && (branches.all (branchUses x) || branches.all (!branchUses x ·)))
  | .letDiamond _ binder _ value rest => value.uniform x && (x == binder.name || rest.uniform x)
  | .letBox _ binder _ value rest => value.uniform x && (x == binder.name || rest.uniform x)

def uniformBranches (x : String) : List (Pattern × Expr) → Bool
  | [] => true
  | (pattern, body) :: branches => (pattern.boundVars.contains x || body.uniform x) && uniformBranches x branches

end

theorem uniformBranches_eq_all (x : String) (branches : List (Pattern × Expr))
    : uniformBranches x branches = branches.all fun b => b.1.boundVars.contains x || b.2.uniform x := by
  induction branches with
  | nil => rfl
  | cons b branches ih =>
    obtain ⟨pattern, body⟩ := b
    unfold uniformBranches
    rw [ih, List.all_cons]

mutual

theorem uniform_of_not_mem {x : String} {e : Expr} (h : x ∉ e.freeOccurrences) : e.uniform x = true := by
  cases e with
  | int pos n => rfl
  | float pos y => rfl
  | var pos name => rfl
  | constructor pos name => rfl
  | lam pos b declared body =>
    unfold uniform
    unfold freeOccurrences at h
    by_cases hx : x = b.name
    . simp [hx]
    . have hbody := uniform_of_not_mem (e := body) (by simpa [hx] using h)
      rw [hbody, Bool.or_true]
  | app pos f a | binop pos op a b | pair pos a b =>
    unfold freeOccurrences at h
    rw [List.mem_append, not_or] at h
    unfold uniform
    rw [uniform_of_not_mem h.1, uniform_of_not_mem h.2, Bool.and_true]
  | promote pos e | lift pos e =>
    unfold freeOccurrences at h
    unfold uniform
    exact uniform_of_not_mem h
  | case pos scrutinee branches =>
    unfold freeOccurrences at h
    rw [List.mem_append, not_or] at h
    obtain ⟨hbranches, hnone⟩ := uniformBranches_of_not_mem h.2
    unfold uniform
    rw [uniform_of_not_mem h.1, hbranches, hnone, Bool.or_true, Bool.and_true, Bool.and_true]
  | letDiamond pos b declared value rest | letBox pos b ty value rest =>
    unfold freeOccurrences at h
    rw [List.mem_append, not_or] at h
    unfold uniform
    rw [uniform_of_not_mem h.1, Bool.true_and]
    by_cases hx : x = b.name
    . simp [hx]
    . have hrest := uniform_of_not_mem (e := rest) (by simpa [hx] using h.2)
      rw [hrest, Bool.or_true]

theorem uniformBranches_of_not_mem {x : String} {branches : List (Pattern × Expr)}
    (h : x ∉ freeOccurrencesAll branches)
    : uniformBranches x branches = true ∧ branches.all (!branchUses x ·) = true := by
  cases branches with
  | nil => exact ⟨rfl, rfl⟩
  | cons b branches =>
    obtain ⟨pattern, body⟩ := b
    unfold freeOccurrencesAll at h
    rw [List.mem_append, not_or] at h
    obtain ⟨hbranches, hnone⟩ := uniformBranches_of_not_mem h.2
    unfold uniformBranches
    rw [hbranches, Bool.and_true, List.all_cons, hnone, Bool.and_true]
    unfold branchUses
    by_cases hx : x ∈ pattern.boundVars
    . simp [hx]
    . have hbody : x ∉ body.freeOccurrences := by
        simpa [hx] using h.1
      simp [hbody, uniform_of_not_mem hbody]

end

theorem branchUses_eq_true {x : String} {branch : Pattern × Expr}
    : branchUses x branch = true ↔ Meet (branch.2.paths.map (·.hide branch.1.boundVars)) x := by
  rw [meet_map_hide, meet_paths_iff]
  unfold branchUses
  simp [and_comm]

end Expr

def usedTimes : Option Assumption → Option Nat
  | none => some 0
  | some (.linear _) => some 1
  | some (.graded _ _) => none

/--
How the known number of uses compares to the occurrences on the paths: it is never too large, and it is right on
all of them if and only if the expression is uniform.
-/
def Tally (x : String) (ps : List Path) (uniform : Bool) (u : Option Assumption) : Prop :=
  ∀ n, usedTimes u = some n →
    (∀ p ∈ ps, n ≤ p.uses x) ∧ if uniform then ∀ p ∈ ps, p.uses x = n else ∃ p ∈ ps, n < p.uses x

theorem usedTimes_addsUp {l r u : Option Assumption} {n : Nat} (h : AddsUp l r u) (hu : usedTimes u = some n)
    : ∃ n₁ n₂, usedTimes l = some n₁ ∧ usedTimes r = some n₂ ∧ n = n₁ + n₂ := by
  cases h with
  | right => exact ⟨0, n, rfl, hu, by omega⟩
  | left => exact ⟨n, 0, hu, rfl, by omega⟩
  | sum => cases hu

namespace Tally

variable {x : String} {ps qs : List Path} {b b' : Bool} {l r u : Option Assumption}

theorem graded (ty : Ty) (g : Grade) : Tally x ps b (some (.graded ty g)) := by
  intro n hn
  cases hn

theorem of_not_meet (h : ¬Expr.Meet ps x) : Tally x ps true none := by
  intro n hn
  cases hn
  refine ⟨fun _ _ => Nat.zero_le _, ?_⟩
  rw [if_pos rfl]
  intro p hp
  by_cases huses : 0 < p.uses x
  . exact absurd ⟨p, hp, huses⟩ h
  . omega

theorem sequence (hps : ps ≠ []) (hqs : qs ≠ []) (hl : Tally x ps b l) (hr : Tally x qs b' r) (h : AddsUp l r u)
    : Tally x (sequence ps qs) (b && b') u := by
  intro n hn
  obtain ⟨n₁, n₂, hn₁, hn₂, rfl⟩ := usedTimes_addsUp h hn
  obtain ⟨hps', hl⟩ := hl n₁ hn₁
  obtain ⟨hqs', hr⟩ := hr n₂ hn₂
  constructor
  . intro path hpath
    obtain ⟨p, hp, q, hq, rfl⟩ := mem_sequence.mp hpath
    rw [uses_append]
    have := hps' p hp
    have := hqs' q hq
    omega
  . obtain ⟨p₀, hp₀⟩ := List.exists_mem_of_ne_nil _ hps
    obtain ⟨q₀, hq₀⟩ := List.exists_mem_of_ne_nil _ hqs
    cases b with
    | false =>
      -- one path on the left has too many occurrences, whatever follows
      obtain ⟨p, hp, huses⟩ := hl
      refine ⟨p ++ q₀, mem_sequence.mpr ⟨p, hp, q₀, hq₀, rfl⟩, ?_⟩
      rw [uses_append]
      have := hqs' q₀ hq₀
      omega
    | true =>
      cases b' with
      | false =>
        obtain ⟨q, hq, huses⟩ := hr
        refine ⟨p₀ ++ q, mem_sequence.mpr ⟨p₀, hp₀, q, hq, rfl⟩, ?_⟩
        rw [uses_append]
        have := hps' p₀ hp₀
        omega
      | true =>
        intro path hpath
        obtain ⟨p, hp, q, hq, rfl⟩ := mem_sequence.mp hpath
        rw [uses_append, hl p hp, hr q hq]

-- Only the numbers of occurrences matter.
theorem congr (h : Tally x ps b u) (hps : ∀ p ∈ ps, ∃ q ∈ qs, q.uses x = p.uses x)
    (hqs : ∀ q ∈ qs, ∃ p ∈ ps, p.uses x = q.uses x) : Tally x qs b u := by
  intro n hn
  obtain ⟨hle, h⟩ := h n hn
  constructor
  . intro q hq
    obtain ⟨p, hp, heq⟩ := hqs q hq
    rw [← heq]
    exact hle p hp
  . cases b with
    | true =>
      intro q hq
      obtain ⟨p, hp, heq⟩ := hqs q hq
      rw [← heq]
      exact h p hp
    | false =>
      obtain ⟨p, hp, hlt⟩ := h
      obtain ⟨q, hq, heq⟩ := hps p hp
      refine ⟨q, hq, ?_⟩
      rw [heq]
      exact hlt

theorem swap (h : Tally x (Path.sequence ps qs) b u) : Tally x (Path.sequence qs ps) b u := by
  apply h.congr
  . intro path hpath
    obtain ⟨p, hp, q, hq, rfl⟩ := mem_sequence.mp hpath
    refine ⟨q ++ p, mem_sequence.mpr ⟨q, hq, p, hp, rfl⟩, ?_⟩
    rw [uses_append, uses_append, Nat.add_comm]
  . intro path hpath
    obtain ⟨q, hq, p, hp, rfl⟩ := mem_sequence.mp hpath
    refine ⟨p ++ q, mem_sequence.mpr ⟨p, hp, q, hq, rfl⟩, ?_⟩
    rw [uses_append, uses_append, Nat.add_comm]

theorem map {f : Path → Path} (hf : ∀ p, (f p).uses x = p.uses x) (h : Tally x ps b u) : Tally x (ps.map f) b u := by
  apply h.congr
  . intro p hp
    exact ⟨f p, List.mem_map_of_mem hp, hf p⟩
  . intro path hpath
    obtain ⟨p, hp, rfl⟩ := List.mem_map.mp hpath
    exact ⟨p, hp, (hf p).symm⟩

theorem hide (vars : List String) (h : x ∉ vars → Tally x ps b u)
    : Tally x (ps.map (·.hide vars)) (vars.contains x || b) (if x ∈ vars then none else u) := by
  by_cases hx : x ∈ vars
  . have hcontains : vars.contains x = true := by
      simpa using hx
    rw [if_pos hx, hcontains, Bool.true_or]
    apply of_not_meet
    rw [Expr.meet_map_hide]
    exact fun h => h.2 hx
  . have hcontains : vars.contains x = false := by
      simpa using hx
    rw [if_neg hx, hcontains, Bool.false_or]
    apply map _ (h hx)
    intro p
    rw [uses_hide, if_neg hx]

theorem bind (y : String) (h : x ≠ y → Tally x ps b u)
    : Tally x (ps.map (·.hide [y])) (x == y || b) (if x = y then none else u) := by
  have hhide := hide [y] (fun hx => h (by simpa using hx))
  simp only [List.contains_cons, List.contains_nil, Bool.or_false, List.mem_singleton] at hhide
  exact hhide

end Tally

namespace BranchUse

def uniform (x : String) (b : BranchUse) : Bool :=
  b.pattern.boundVars.contains x || b.body.uniform x

theorem uniformBranches_eq_all (x : String) (bs : List BranchUse)
    : Expr.uniformBranches x (bs.map branch) = bs.all (uniform x) := by
  rw [Expr.uniformBranches_eq_all, List.all_map]
  rfl

end BranchUse

def agree (x : String) (bs : List BranchUse) : Bool :=
  (bs.map BranchUse.branch).all (Expr.branchUses x) || (bs.map BranchUse.branch).all (!Expr.branchUses x ·)

theorem agree_eq_true {x : String} {bs : List BranchUse}
    : agree x bs = true
        ↔
      (∀ b ∈ bs, Expr.Meet b.paths x) ∨ (∀ b ∈ bs, ¬Expr.Meet b.paths x) := by
  unfold agree
  rw [Bool.or_eq_true, List.all_map, List.all_map, List.all_eq_true, List.all_eq_true]
  simp only [Function.comp_apply, Bool.not_eq_true', Bool.eq_false_iff, ne_eq, Expr.branchUses_eq_true]
  rfl

section

variable {x : String} {bs : List BranchUse}

-- All branches use the variable, so they agree, and only a branch itself can fail to be uniform.
theorem tally_branches_linear (hbs : ∀ b ∈ bs, Tally x b.paths (b.uniform x) (b.net none)) {ty : Ty}
    (hlinear : ∀ b ∈ bs, ∃ ty, b.net none = some (.linear ty))
    : Tally x (Expr.branchPaths (bs.map BranchUse.branch)) (bs.all (BranchUse.uniform x) && agree x bs)
        (some (.linear ty)) := by
  have hbs : ∀ b ∈ bs, (∀ p ∈ b.paths, 1 ≤ p.uses x) ∧
      if b.uniform x then ∀ p ∈ b.paths, p.uses x = 1 else ∃ p ∈ b.paths, 1 < p.uses x := by
    intro b hb
    obtain ⟨ty, hnet⟩ := hlinear b hb
    apply hbs b hb
    rw [hnet]
    rfl
  have hagree : agree x bs = true := by
    rw [agree_eq_true]
    apply Or.inl
    intro b hb
    obtain ⟨p, hp⟩ := b.exists_path
    exact ⟨p, hp, (hbs b hb).1 p hp⟩
  rw [hagree, Bool.and_true]
  intro n hn
  cases hn
  constructor
  . intro p hp
    obtain ⟨b, hb, hp⟩ := BranchUse.mem_branchPaths.mp hp
    exact (hbs b hb).1 p hp
  . cases huniform : bs.all (BranchUse.uniform x) with
    | true =>
      rw [List.all_eq_true] at huniform
      intro p hp
      obtain ⟨b, hb, hp⟩ := BranchUse.mem_branchPaths.mp hp
      have h := (hbs b hb).2
      rw [if_pos (huniform b hb)] at h
      exact h p hp
    | false =>
      rw [List.all_eq_false] at huniform
      obtain ⟨b, hb, hnot⟩ := huniform
      have h := (hbs b hb).2
      rw [if_neg hnot] at h
      obtain ⟨p, hp, hlt⟩ := h
      exact ⟨p, BranchUse.mem_branchPaths.mpr ⟨b, hb, hp⟩, hlt⟩

-- A branch that does not use the variable is left, so the branches agree only if none uses it.
theorem tally_branches_none (hbs : ∀ b ∈ bs, Tally x b.paths (b.uniform x) (b.net none))
    (hnone : ∃ b ∈ bs, b.net none = none) (hgraded : ∀ b ∈ bs, ∀ ty g, b.net none ≠ some (.graded ty g))
    : Tally x (Expr.branchPaths (bs.map BranchUse.branch)) (bs.all (BranchUse.uniform x) && agree x bs) none := by
  intro n hn
  cases hn
  refine ⟨fun _ _ => Nat.zero_le _, ?_⟩
  cases huniform : bs.all (BranchUse.uniform x) with
  | false =>
    rw [List.all_eq_false] at huniform
    obtain ⟨b, hb, hnot⟩ := huniform
    have hknown : ∃ n, usedTimes (b.net none) = some n := by
      cases hnet : b.net none with
      | none => exact ⟨0, rfl⟩
      | some a =>
        cases a with
        | linear ty => exact ⟨1, rfl⟩
        | graded ty g => exact absurd hnet (hgraded b hb ty g)
    obtain ⟨n, hn⟩ := hknown
    have h := (hbs b hb n hn).2
    rw [if_neg hnot] at h
    obtain ⟨p, hp, hlt⟩ := h
    exact ⟨p, BranchUse.mem_branchPaths.mpr ⟨b, hb, hp⟩, by omega⟩
  | true =>
    rw [List.all_eq_true] at huniform
    cases hagree : agree x bs with
    | true =>
      obtain ⟨b₀, hb₀, hnet⟩ := hnone
      have hunused : ¬Expr.Meet b₀.paths x := by
        rintro ⟨p, hp, huses⟩
        have h := (hbs b₀ hb₀ 0 (by rw [hnet]; rfl)).2
        rw [if_pos (huniform b₀ hb₀)] at h
        have := h p hp
        omega
      rw [agree_eq_true] at hagree
      obtain hall | hnone := hagree
      . exact absurd (hall b₀ hb₀) hunused
      . intro p hp
        obtain ⟨b, hb, hp⟩ := BranchUse.mem_branchPaths.mp hp
        by_cases huses : 0 < p.uses x
        . exact absurd ⟨p, hp, huses⟩ (hnone b hb)
        . omega
    | false =>
      have hsome : ∃ b ∈ bs, Expr.Meet b.paths x := by
        apply Classical.byContradiction
        intro h
        have : agree x bs = true := by
          rw [agree_eq_true]
          exact .inr (fun b hb hmeet => h ⟨b, hb, hmeet⟩)
        rw [hagree] at this
        cases this
      obtain ⟨b, hb, p, hp, huses⟩ := hsome
      exact ⟨p, BranchUse.mem_branchPaths.mpr ⟨b, hb, hp⟩, huses⟩

theorem tally_branches {joined : Option Assumption} (hbs : ∀ b ∈ bs, Tally x b.paths (b.uniform x) (b.net none))
    (hjoins : Joins (bs.map (BranchUse.net none)) joined)
    : Tally x (if (bs.map BranchUse.branch).isEmpty then [[]] else Expr.branchPaths (bs.map BranchUse.branch))
        (bs.all (BranchUse.uniform x) && agree x bs) joined := by
  cases joined with
  | some a =>
    cases a with
    | graded ty g => exact .graded _ _
    | linear ty =>
      obtain ⟨hne, hlinear⟩ := hjoins.of_linear rfl
      rw [if_neg (by simpa using hne)]
      exact tally_branches_linear hbs (fun b hb => hlinear _ (List.mem_map_of_mem hb))
  | none =>
    obtain ⟨hmem, hgraded⟩ := hjoins.of_none rfl
    cases bs with
    | nil =>
      apply Tally.of_not_meet
      simp [Expr.Meet]
    | cons b bs =>
      rw [if_neg (by simp)]
      apply tally_branches_none hbs
      . obtain ⟨b', hb', hnet⟩ := List.mem_map.mp (hmem (by simp))
        exact ⟨b', hb', hnet⟩
      . intro b' hb'
        exact hgraded _ (List.mem_map_of_mem hb')

end

theorem tally_of_not_mem {x : String} {e : Expr} (h : x ∉ e.freeOccurrences) : Tally x e.paths (e.uniform x) none := by
  rw [Expr.uniform_of_not_mem h]
  apply Tally.of_not_meet
  rw [Expr.meet_paths_iff]
  exact h

theorem mem_freeVars {x : String} {e : Expr} : x ∈ e.freeVars ↔ x ∈ e.freeOccurrences := by
  unfold Expr.freeVars
  rw [List.mem_eraseDups]

theorem BranchUse.Closed.net_eq {K : Constraint → Prop} {x : String} {b : BranchUse} (h : b.Closed K x none)
    (hx : ¬Pattern.IsWildcardName x) : b.net none = if x ∈ b.pattern.boundVars then none else b.used := by
  unfold BranchUse.net
  by_cases hmem : x ∈ b.pattern.boundVars
  . rw [if_pos hmem, h.bound hmem]
    rfl
  . rw [if_neg hmem, if_neg]
    intro hbound
    exact (h.named (by simpa using hbound)).elim hmem hx

theorem Uses.tally {K : Constraint → Prop} {x : String} {a u : Option Assumption} {e : Expr} (h : Uses K x a e u)
    (hx : ¬Pattern.IsWildcardName x) (ha : ∃ ty, a = some (.linear ty)) : Tally x e.paths (e.uniform x) u := by
  induction h with
  | int pos n | float pos y | constructor pos name => exact tally_of_not_mem (by simp [Expr.freeOccurrences])
  | other pos hname => exact tally_of_not_mem (by simpa [Expr.freeOccurrences] using hname)
  | global pos =>
    obtain ⟨_, ha⟩ := ha
    cases ha
  | linear pos ty =>
    intro n hn
    cases hn
    simp [Expr.paths, Expr.uniform, uses]
  | graded pos ty g kind => exact .graded _ _
  | lam pos declared _ ih =>
    unfold Expr.paths Expr.uniform
    apply Tally.bind
    intro hname
    rw [if_neg hname] at ih
    exact ih ha
  | scale pos p p₁ p₂ factor hscale _ ih =>
    have hf := Expr.not_mem_scale hscale (by obtain ⟨_, rfl⟩ := ha; simp) p p₁ p₂ factor
    rw [Expr.paths, Expr.uniform]
    exact .sequence (Expr.paths_ne_nil _) (Expr.paths_ne_nil _) (tally_of_not_mem hf) (ih ha) (.right _)
  | promoteChecked pos demand hfresh _ ih =>
    obtain ⟨ty, rfl⟩ := ha
    split at hfresh
    . cases hfresh
      exact .graded _ _
    . next hmem =>
      rw [mem_freeVars] at hmem
      cases hfresh
      exact tally_of_not_mem hmem
  | @promote a u e pos v _ ih =>
    split
    . cases u with
      | none =>
        unfold Expr.paths Expr.uniform
        exact (ih ha).map (fun _ => uses_box)
      | some a' =>
        cases a' with
        | linear ty | graded ty g => exact .graded _ _
    . next hmem =>
      rw [mem_freeVars] at hmem
      exact tally_of_not_mem hmem
  | lift pos _ ih =>
    unfold Expr.paths Expr.uniform
    exact ih ha
  | app pos _ _ hadds iha ihb | binop pos op _ _ hadds iha ihb | pair pos _ _ hadds iha ihb =>
    unfold Expr.paths Expr.uniform
    exact .sequence (Expr.paths_ne_nil _) (Expr.paths_ne_nil _) (iha ha) (ihb ha) hadds
  | @case a base value joined t u scrutinee bs pos _ _ hbase hclosed hjoins ht hu ih ihbs =>
    cases base with
    | some g =>
      -- what the baseline covers is graded
      obtain ⟨ty, v, rfl⟩ := hbase.graded g rfl
      cases hu with
      | right | sum => exact .graded _ _
    | none =>
      have hbs : ∀ b ∈ bs, Tally x b.paths (b.uniform x) (b.net none) := by
        intro b hb
        rw [(hclosed b hb).net_eq hx]
        apply Tally.hide
        intro hmem
        apply ihbs b hb
        have hbound : b.bound = none := by
          cases hbound : b.bound with
          | none => rfl
          | some a' => exact ((hclosed b hb).named (by rw [hbound]; rfl)).elim (fun h => absurd h hmem) (absurd · hx)
        rw [hbound]
        exact ha
      have hne : (if (bs.map BranchUse.branch).isEmpty then [[]] else
          Expr.branchPaths (bs.map BranchUse.branch)) ≠ [] := by
        split
        . simp
        . next h => exact Expr.branchPaths_ne_nil _ (by simpa using h)
      have htally := ((tally_branches hbs hjoins).sequence hne (Expr.paths_ne_nil _) (ih ha) ht).swap
      unfold Expr.paths Expr.uniform
      rw [Bool.and_comm, BranchUse.uniformBranches_eq_all]
      cases hu with
      | right => exact htally
      | left => exact htally
      | sum => exact .graded _ _
  | letDiamond pos declared _ _ hadds ihvalue ihrest | letBox pos ty _ _ hadds ihvalue ihrest =>
    unfold Expr.paths Expr.uniform
    apply Tally.sequence (Expr.paths_ne_nil _) (by simp [Expr.paths_ne_nil]) (ihvalue ha) _ hadds
    apply Tally.bind
    intro hname
    rw [if_neg hname] at ihrest
    exact ihrest ha

theorem Expr.UsesLinearly.atMostOnce_iff {x : String} {e : Expr} (h : e.UsesLinearly x)
    (hx : ¬Pattern.IsWildcardName x) : (∀ p ∈ e.paths, p.uses x ≤ 1) ↔ e.uniform x = true := by
  obtain ⟨ty, ty', huses⟩ := h
  have htally := (huses.tally hx ⟨ty, rfl⟩ 1 rfl).2
  cases huniform : e.uniform x with
  | true =>
    rw [huniform, if_pos rfl] at htally
    constructor
    . intro _
      rfl
    . intro _ p hp
      exact Nat.le_of_eq (htally p hp)
  | false =>
    rw [huniform] at htally
    obtain ⟨p, hp, hlt⟩ := htally
    constructor
    . intro h
      have := h p hp
      omega
    . intro h
      cases h

/--
The linear variables that an accepted expression or definition binds occur at most once on each path through their
scope if and only if the branches of each case in it agree on using them.
-/
theorem linear_atMostOnce_iff_uniform (env : Env) (s : State) {x : String} (hx : ¬Pattern.IsWildcardName x)
    : (∀ c polarity e used s' body, Expr.Answers env c polarity e s used s' → (x, body) ∈ e.linearScopes →
        ((∀ p ∈ body.paths, p.uses x ≤ 1) ↔ body.uniform x = true)) ∧
      (∀ d s', Definition.check env d s = .ok () s' → x ∈ d.linearVars →
        ((∀ p ∈ d.body.paths, p.uses x ≤ 1) ↔ d.body.uniform x = true)) := by
  constructor
  . intro c polarity e used s' body h hscope
    exact (h.usesLinearly hscope fun _ => hx).atMostOnce_iff hx
  . intro d s' h hmem
    exact (d.usesLinearly h hmem hx).atMostOnce_iff hx

theorem linear_atMostOnce_iff_uniform_agreeing
    : ¬Pattern.IsWildcardName "x" ∧
      ∃ used s', Expr.Answers ⟨.standard, []⟩ .empty .positive (.lam 0 ⟨0, "x"⟩ none (.agreeing "x")) .start used s' ∧
        ((∀ p ∈ (Expr.agreeing "x").paths, p.uses "x" ≤ 1) ↔ (Expr.agreeing "x").uniform "x" = true) := by
  have hx : ¬Pattern.IsWildcardName "x" := Pattern.not_isWildcardName (by decide)
  obtain ⟨used, s', h⟩ := Expr.answers_agreeing
  refine ⟨hx, used, s', h, ?_⟩
  exact (linear_atMostOnce_iff_uniform _ _ hx).1 _ _ _ _ _ _ h List.mem_cons_self

/-- The variable, and then a case whose branches do not agree on using it. -/
def Expr.disagreeing (x : String) : Expr :=
  .binop 0 .add (.var 0 x) (.case 0 (.constructor 0 "True")
    [(.constructor 0 "True" [], .var 0 x), (.constructor 0 "False" [], .int 0 1)])

theorem linear_used_twice
    : (∃ used s',
        Expr.Answers ⟨.standard, []⟩ .empty .positive (.lam 0 ⟨0, "x"⟩ none (.disagreeing "x")) .start used s') ∧
      ∃ p ∈ (Expr.disagreeing "x").paths, p.uses "x" = 2 := by
  have hcheck : yields (Expr.check ⟨.standard, []⟩ .empty .positive false (.arrow (.const "Int") (.const "Int"))
      (.lam 0 ⟨0, "x"⟩ none (.disagreeing "x"))) .start (fun _ _ => true) = true := by
    cbv
  constructor
  . obtain ⟨used, s', h, _⟩ := Expr.exists_answers (fun _ _ => true) hcheck
    exact ⟨used, s', h⟩
  . exact ⟨[⟨"x", false⟩, ⟨"x", false⟩], by decide, by decide⟩

end GradedModal
