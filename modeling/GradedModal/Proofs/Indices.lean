import GradedModal.Syntax.Ty

/-!
This module relates type-level indices with the grades they are read as. The grade has the variables of the index, and
replacing variables in the index is replacing them in the grade, as long as the types that come in are indices too.
-/

namespace GradedModal
namespace Ty

/--
An index and the grade it is read as.
-/
inductive ReadsAs : Ty → Grade → Prop
  | index (n : Nat) : ReadsAs (.index n) (.nat n)
  | var (x : String) : ReadsAs (.var x) (.var x)
  | op {o : Op} {a b : Ty} {g h : Grade} : ReadsAs a g → ReadsAs b h → ReadsAs (.op o a b) (.op o g h)

variable {ty : Ty} {g g' : Grade} {s : Substitution}

theorem readsAs_of_toGrade? (h : ty.toGrade? = some g) : ty.ReadsAs g := by
  induction ty generalizing g with
  | index n =>
    cases h
    exact .index n
  | var x =>
    cases h
    exact .var x
  | op o a b iha ihb =>
    obtain ⟨ga, hga, h⟩ := Option.bind_eq_some_iff.mp h
    obtain ⟨gb, hgb, h⟩ := Option.bind_eq_some_iff.mp h
    cases h
    exact .op (iha hga) (ihb hgb)
  | _ => cases h

theorem ReadsAs.toGrade? (h : ty.ReadsAs g) : ty.toGrade? = some g := by
  induction h with
  | index n | var x => rfl
  | op _ _ iha ihb =>
    unfold Ty.toGrade?
    rw [iha, ihb]
    rfl

theorem toGrade?_eq_some_iff : ty.toGrade? = some g ↔ ty.ReadsAs g :=
  ⟨readsAs_of_toGrade?, ReadsAs.toGrade?⟩

theorem isSome_toGrade?_iff : ty.toGrade?.isSome = true ↔ ∃ g, ty.ReadsAs g := by
  simp only [Option.isSome_iff_exists, toGrade?_eq_some_iff]

namespace ReadsAs

theorem occurrences_eq (h : ty.ReadsAs g) : ty.occurrences = g.occurrences := by
  induction h with
  | index n | var x => rfl
  | op _ _ iha ihb =>
    unfold Ty.occurrences Grade.occurrences
    rw [iha, ihb]

theorem substitute (h : ty.ReadsAs g)
    (hs : ∀ x ∈ ty.occurrences, ∀ image, s.lookup x = some image → ∃ g, image.ReadsAs g)
    : (ty.substitute s).ReadsAs (g.substitute s) := by
  induction h with
  | index n => exact .index n
  | var x =>
    unfold Ty.substitute Grade.substitute
    cases hx : s.lookup x with
    | none => exact .var x
    | some image =>
      obtain ⟨g, hg⟩ := hs x List.mem_cons_self image hx
      rw [Option.bind_some, hg.toGrade?]
      exact hg
  | op _ _ iha ihb =>
    apply op
    . exact iha fun x hx => hs x (List.mem_append_left _ hx)
    . exact ihb fun x hx => hs x (List.mem_append_right _ hx)

theorem of_substitute (h : ty.ReadsAs g) (hsubst : (ty.substitute s).ReadsAs g')
    : ∀ x ∈ ty.occurrences, ∀ image, s.lookup x = some image → ∃ g, image.ReadsAs g := by
  induction h generalizing g' with
  | index n => simp [Ty.occurrences]
  | var x =>
    intro y hy image himage
    obtain rfl := List.mem_singleton.mp hy
    unfold Ty.substitute at hsubst
    rw [himage] at hsubst
    exact ⟨g', hsubst⟩
  | op _ _ iha ihb =>
    cases hsubst with
    | op ha hb => exact List.forall_mem_append.mpr ⟨iha ha, ihb hb⟩

end ReadsAs

/--
Replacing variables in an index leaves an index exactly if every variable that is replaced, by its first binding, is
replaced by an index. What is left then reads as the grade in which the variables are replaced. The index and the grade
have the same variables, in the same order.
-/
theorem index_substitution_commutes (h : ty.toGrade? = some g) (s : Substitution)
    : ((ty.substitute s).toGrade?.isSome = true ↔
        ∀ x ∈ ty.vars, ∀ image, s.lookup x = some image → image.toGrade?.isSome = true) ∧
      ((ty.substitute s).toGrade?.isSome = true → (ty.substitute s).toGrade? = some (g.substitute s)) ∧
      ty.vars = g.vars := by
  have hreads := readsAs_of_toGrade? h
  have hiff : (ty.substitute s).toGrade?.isSome = true ↔
      ∀ x ∈ ty.occurrences, ∀ image, s.lookup x = some image → ∃ g, image.ReadsAs g := by
    rw [isSome_toGrade?_iff]
    constructor
    . rintro ⟨g', hg'⟩
      exact hreads.of_substitute hg'
    . intro hs
      exact ⟨_, hreads.substitute hs⟩
  refine ⟨?_, ?_, ?_⟩
  . simp only [hiff, vars, List.mem_eraseDups, isSome_toGrade?_iff]
  . intro hsome
    exact (hreads.substitute (hiff.mp hsome)).toGrade?
  . unfold vars Grade.vars
    rw [hreads.occurrences_eq]

/-- `(n + 1) * m` -/
def sizes : Ty :=
  .op .times (.op .plus (.var "n") (.index 1)) (.var "m")

-- The second binding of `n` is not an index, but the first one is.
theorem index_substitution_commutes_sizes
    : sizes.toGrade? = some (.op .times (.op .plus (.var "n") (.nat 1)) (.var "m")) ∧
      (sizes.substitute [("n", .op .join (.var "m") (.index 3)), ("n", .const "Bool"), ("k", .const "Int")]).toGrade? =
        some (.op .times (.op .plus (.op .join (.var "m") (.nat 3)) (.nat 1)) (.var "m")) := by
  have hsizes : sizes.toGrade? = some (.op .times (.op .plus (.var "n") (.nat 1)) (.var "m")) := rfl
  exact ⟨hsizes, (index_substitution_commutes hsizes _).2.1 rfl⟩

end Ty
end GradedModal
