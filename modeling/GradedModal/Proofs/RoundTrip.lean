import GradedModal.Syntax.Decode

/-!
This module says that syntax which is written as JSON can be read again, and that reading gives back what was written.
All that can go wrong is a number that does not fit into a machine word, which no program that was read has.
-/

namespace GradedModal

/--
A number in a program: a word, such as an offset or a grade, a signed word, or a double.
-/
inductive Numeral where
  | word (n : Nat)
  | signed (n : Int)
  | double (x : Float)

namespace Numeral

/--
Whether a number is one that the program can hold.
-/
def isInRange : Numeral → Bool
  | .word n => n ≤ maxWord
  | .signed n => -(Nat.pow 2 63 : Nat) ≤ n && n < (Nat.pow 2 63 : Nat)
  | .double _ => true

def isDouble : Numeral → Bool
  | .double _ => true
  | _ => false

def LackDoubles (ns : List Numeral) : Prop :=
  ∀ n ∈ ns, n.isDouble = false

instance (ns : List Numeral) : Decidable (LackDoubles ns) :=
  inferInstanceAs (Decidable (∀ n ∈ ns, n.isDouble = false))

variable {ns ms : List Numeral}

theorem lackDoubles_append : LackDoubles (ns ++ ms) ↔ LackDoubles ns ∧ LackDoubles ms :=
  List.forall_mem_append

theorem LackDoubles.tail {n : Numeral} (h : LackDoubles (n :: ns)) : LackDoubles ns :=
  (List.forall_mem_cons.mp h).2

theorem not_lackDoubles_double {x : Float} : ¬LackDoubles [.double x] := by
  intro h
  cases h _ List.mem_cons_self

/--
What is read back of something with the given numbers: the thing itself, if all of them are in range.
-/
def recover {α : Type} (ns : List Numeral) (a : α) : Option α :=
  if ns.all isInRange then some a else none

variable {α β : Type} {a : α} {b : β}

theorem recover_eq_some_iff : recover ns a = some a ↔ ∀ n ∈ ns, n.isInRange = true := by
  simp [recover]

theorem recover_nil : recover [] a = some a :=
  rfl

-- What is read one after the other has the numbers of all that was read.
theorem recover_bind {f : α → Option β} (h : f a = recover ms b) : (recover ns a >>= f) = recover (ns ++ ms) b := by
  unfold recover at h ⊢
  cases hns : ns.all isInRange with
  | false => simp [hns]
  | true => simpa [hns] using h

theorem recover_map (f : α → β) : (recover ns a >>= fun a => pure (f a)) = recover ns (f a) := by
  unfold recover
  cases ns.all isInRange <;> rfl

theorem list?_arr {write : α → Json} {read : Json → Option α} {numerals : α → List Numeral} {l : List α}
    (h : ∀ a ∈ l, read (write a) = recover (numerals a) a)
    : Json.list? read (.arr (l.map write)) = recover (l.flatMap numerals) l := by
  change (l.map write).mapM read = _
  induction l with
  | nil => rfl
  | cons a l ih =>
    rw [List.forall_mem_cons] at h
    rw [List.map_cons, List.mapM_cons, h.1, ih h.2]
    exact recover_bind (recover_map _)

theorem list?_arr_of_some {write : α → Json} {read : Json → Option α} (h : ∀ a, read (write a) = some a) (l : List α)
    : Json.list? read (.arr (l.map write)) = some l := by
  have hlist : Json.list? read (.arr (l.map write)) = recover (l.flatMap fun _ => []) l := list?_arr fun a _ => h a
  rw [hlist, List.flatMap_eq_nil_iff.mpr fun _ _ => rfl, recover_nil]

end Numeral

open Numeral

namespace Json

theorem word?_ofNat (n : Nat) : (ofNat n).word? = recover [.word n] n := by
  simp [ofNat, word?, Number.ofNat, Number.word?, recover, isInRange]

theorem signed?_ofInt (n : Int) : (ofInt n).signed? = recover [.signed n] n := by
  unfold ofInt signed? recover
  simp only [Number.ofInt, Number.signed?, isInRange, Nat.pow_eq, List.all_cons, List.all_nil, Bool.and_true,
    Bool.and_eq_true, decide_eq_true_eq, Bool.not_true, Bool.false_eq_true, if_false]
  by_cases hn : n < 0
  . have hcond : (0 < n.natAbs ∧ n.natAbs ≤ 2 ^ 63) ↔ (-(2 ^ 63 : Nat) ≤ n ∧ n < (2 ^ 63 : Nat)) := by omega
    have hvalue : -(n.natAbs : Int) = n := by omega
    simp only [hn, if_true, hcond, hvalue]
  . have hcond : n.natAbs < 2 ^ 63 ↔ (-(2 ^ 63 : Nat) ≤ n ∧ n < (2 ^ 63 : Nat)) := by omega
    have hvalue : (n.natAbs : Int) = n := by omega
    simp only [hn, if_false, hcond, hvalue]

theorem member?_of_mem {members : List (String × Json)} {m : String × Json} (h : (members.map (·.1)).Nodup)
    (hm : m ∈ members) : member? m.1 members = some (some ⟨m.2, m, hm, rfl⟩) := by
  have hfilter : members.filter (·.1 = m.1) = [m] := by
    induction members with
    | nil => cases hm
    | cons m' members ih =>
      rw [List.map_cons, List.nodup_cons] at h
      obtain rfl | hm := List.mem_cons.mp hm
      . have hrest : members.filter (·.1 = m.1) = [] := by
          rw [List.filter_eq_nil_iff]
          intro m' hm' heq
          rw [decide_eq_true_eq] at heq
          exact h.1 (heq ▸ List.mem_map_of_mem hm')
        rw [List.filter_cons_of_pos (by simp), hrest]
      . have hne : m'.1 ≠ m.1 := fun heq => h.1 (heq ▸ List.mem_map_of_mem hm)
        rw [List.filter_cons_of_neg (by simpa using hne)]
        exact ih h.2 hm
  unfold member?
  split
  . next hnil => rw [hfilter] at hnil; cases hnil
  . next m' hsingle =>
    rw [hfilter] at hsingle
    cases hsingle
    rfl
  . next hnil hsingle => exact absurd hfilter (hsingle m)

theorem sizeOf_lt_of_member {members : List (String × Json)} {m : String × Json} (h : m ∈ members)
    : sizeOf m.2 < sizeOf (obj members) := by
  have := List.sizeOf_lt_of_mem h
  cases m
  simp at *
  omega

theorem record?_obj {names : List String} {members : List (String × Json)} (hnames : members.map (·.1) = names)
    (h : names.Nodup)
    : record? names (.obj members) =
        some (members.attach.map fun m => some ⟨m.val.2, sizeOf_lt_of_member m.property⟩) := by
  subst hnames
  have hnames : members.map (·.1) = members.attach.map (·.val.1) := by
    calc
      members.map (·.1) = (members.attach.map (·.val)).map (·.1) := by rw [List.attach_map_subtype_val]
      _ = members.attach.map (·.val.1) := List.map_map
  unfold record?
  dsimp only
  rw [hnames, List.mapM_map, ← Option.pure_def, ← List.mapM_pure]
  congr 1
  funext m
  rw [Function.comp_apply, member?_of_mem h m.property]
  rfl

theorem fields?_obj {names : List String} {members : List (String × Json)} {listed : Bool}
    (hnames : members.map (·.1) = names) (h : names.Nodup)
    : fields? listed names (.obj members) =
        some (members.attach.map fun m => some ⟨m.val.2, sizeOf_lt_of_member m.property⟩) :=
  record?_obj hnames h

theorem sizeOf_item_lt (pos : Nat) (item : Json) : sizeOf item < sizeOf (located pos item) :=
  sizeOf_lt_of_member (m := ("item", item)) (List.mem_cons_of_mem _ List.mem_cons_self)

theorem located?_located (pos : Nat) (item : Json)
    : (located pos item).located? = recover [.word pos] (pos, ⟨item, sizeOf_item_lt pos item⟩) := by
  unfold located? located
  rw [record?_obj (by rfl) (by decide)]
  change (ofNat pos).word? >>= _ = _
  rw [word?_ofNat]
  exact recover_map _

end Json

theorem Level.ofJson?_toJson (l : Level) : Level.ofJson? l.toJson = some l := by
  cases l <;> rfl

theorem Op.ofJson?_tag (o : Op) : Op.ofJson? (.str o.tag) = some o := by
  cases o <;> rfl

theorem BinOp.ofJson?_tag (o : BinOp) : BinOp.ofJson? (.str o.tag) = some o := by
  cases o <;> rfl

theorem GradeKind.ofJson?_toJson (kind : GradeKind) : GradeKind.ofJson? kind.toJson = some kind := by
  cases kind <;> rfl

theorem Kind.ofJson?_toJson (kind : Kind) : Kind.ofJson? kind.toJson = some kind := by
  induction kind with
  | type | effect => rfl
  | grade kind =>
    rw [toJson, Json.tag, ofJson?, GradeKind.ofJson?_toJson]
    rfl
  | arrow a b iha ihb =>
    rw [toJson, Json.tag, ofJson?, iha, ihb]
    rfl

def Grade.numerals : Grade → List Numeral
  | .nat n => [.word n]
  | .float x => [.double x]
  | .op _ a b => a.numerals ++ b.numerals
  | _ => []

def Ty.numerals : Ty → List Numeral
  | .const _ => []
  | .var _ => []
  | .index n => [.word n]
  | .arrow a b => a.numerals ++ b.numerals
  | .app a b => a.numerals ++ b.numerals
  | .pair a b => a.numerals ++ b.numerals
  | .op _ a b => a.numerals ++ b.numerals
  | .box grade ty => grade.numerals ++ ty.numerals
  | .diamond _ ty => ty.numerals

mutual

def Pattern.numerals : Pattern → List Numeral
  | .var pos _ => [.word pos]
  | .wildcard pos => [.word pos]
  | .int pos n => [.word pos, .signed n]
  | .float pos x => [.word pos, .double x]
  | .box pos inner => .word pos :: inner.numerals
  | .pair pos a b => .word pos :: (a.numerals ++ b.numerals)
  | .constructor pos _ args => .word pos :: Pattern.numeralsAll args

def Pattern.numeralsAll : List Pattern → List Numeral
  | [] => []
  | p :: ps => p.numerals ++ Pattern.numeralsAll ps

end

/-- The numbers of an annotation that may be missing. -/
def Ty.optionalNumerals : Option Ty → List Numeral
  | none => []
  | some ty => ty.numerals

mutual

def Expr.numerals : Expr → List Numeral
  | .int pos n => [.word pos, .signed n]
  | .float pos x => [.word pos, .double x]
  | .var pos _ => [.word pos]
  | .constructor pos _ => [.word pos]
  | .lam pos binder ty body => .word pos :: (.word binder.pos :: (Ty.optionalNumerals ty ++ body.numerals))
  | .app pos f a => .word pos :: (f.numerals ++ a.numerals)
  | .promote pos e => .word pos :: e.numerals
  | .lift pos e => .word pos :: e.numerals
  | .binop pos _ a b => .word pos :: (a.numerals ++ b.numerals)
  | .pair pos a b => .word pos :: (a.numerals ++ b.numerals)
  | .case pos scrutinee branches => .word pos :: (scrutinee.numerals ++ Expr.branchNumerals branches)
  | .letDiamond pos binder ty value rest =>
    .word pos :: (.word binder.pos :: (Ty.optionalNumerals ty ++ (value.numerals ++ rest.numerals)))
  | .letBox pos binder ty value rest =>
    .word pos :: (.word binder.pos :: (ty.numerals ++ (value.numerals ++ rest.numerals)))

def Expr.branchNumerals : List (Pattern × Expr) → List Numeral
  | [] => []
  | (pattern, body) :: branches => pattern.numerals ++ (body.numerals ++ Expr.branchNumerals branches)

end

/--
All numbers of a definition, the offsets of its parts included.
-/
def Definition.numerals (d : Definition) : List Numeral :=
  .word d.binder.pos :: (Pattern.numeralsAll d.patterns ++ (d.body.numerals ++ d.scheme.ty.numerals))

section

variable (float : Float → Json)

theorem Grade.ofJson?_toJson (g : Grade) (h : LackDoubles g.numerals)
    : Grade.ofJson? (g.toJson float) = recover g.numerals g := by
  induction g with
  | var name => rfl
  | nat n =>
    rw [toJson, Json.tag, ofJson?, Json.word?_ofNat]
    exact recover_map _
  | float x => exact absurd h not_lackDoubles_double
  | level l =>
    rw [toJson, Json.tag, ofJson?, Level.ofJson?_toJson]
    rfl
  | zero kind | one kind =>
    rw [toJson, Json.tag, ofJson?, GradeKind.ofJson?_toJson]
    rfl
  | op o a b iha ihb =>
    obtain ⟨ha, hb⟩ := lackDoubles_append.mp h
    have hread : Grade.ofJson? ((op o a b).toJson float)
        = do return .op o (← Grade.ofJson? (a.toJson float)) (← Grade.ofJson? (b.toJson float)) := by
      cases o <;> simp [toJson, Json.tag, Op.tag, ofJson?, Op.ofTag?]
    rw [hread, iha ha, ihb hb]
    exact recover_bind (recover_map _)

theorem Ty.ofJson?_toJson (ty : Ty) (h : LackDoubles ty.numerals)
    : Ty.ofJson? (ty.toJson float) = recover ty.numerals ty := by
  induction ty with
  | const n | var n => rfl
  | index n =>
    rw [toJson, Json.tag, ofJson?, Json.word?_ofNat]
    exact recover_map _
  | arrow a b iha ihb | app a b iha ihb | pair a b iha ihb =>
    obtain ⟨ha, hb⟩ := lackDoubles_append.mp h
    rw [toJson, Json.tag, ofJson?, iha ha, ihb hb]
    exact recover_bind (recover_map _)
  | op o a b iha ihb =>
    obtain ⟨ha, hb⟩ := lackDoubles_append.mp h
    rw [toJson, Json.tag, ofJson?, Op.ofJson?_tag, iha ha, ihb hb]
    exact recover_bind (recover_map _)
  | box grade ty ih =>
    obtain ⟨hgrade, hty⟩ := lackDoubles_append.mp h
    rw [toJson, Json.tag, ofJson?, Grade.ofJson?_toJson float grade hgrade, ih hty]
    exact recover_bind (recover_map _)
  | diamond effects ty ih =>
    have heffects : Json.list? Json.str? (.arr (effects.map .str)) = some effects := by
      apply list?_arr_of_some
      exact fun _ => rfl
    rw [toJson, Json.tag, ofJson?, heffects, ih h]
    exact recover_map _

theorem Ty.ofOptionalJson?_annotationToJson (ty : Option Ty) (h : LackDoubles (Ty.optionalNumerals ty))
    : Ty.ofOptionalJson? (some (Expr.annotationToJson float ty)) = recover (Ty.optionalNumerals ty) ty := by
  cases ty with
  | none => rfl
  | some ty =>
    have hread : Ty.ofOptionalJson? (some (ty.toJson float)) = (Ty.ofJson? (ty.toJson float)).map some := by
      cases ty <;> rfl
    change Ty.ofOptionalJson? (some (ty.toJson float)) = _
    rw [hread, Ty.ofJson?_toJson float ty h, Option.map_eq_bind]
    exact recover_map _

theorem Scheme.ofJson?_toJson (s : Scheme) (h : LackDoubles s.ty.numerals)
    : Scheme.ofJson? (s.toJson float) = recover s.ty.numerals s := by
  have hvars : Kind.bindersOfJson? (.arr (s.vars.map fun b => .arr [.str b.1, b.2.toJson])) = some s.vars := by
    apply list?_arr_of_some
    intro b
    change Kind.ofJson? b.2.toJson >>= _ = _
    rw [Kind.ofJson?_toJson]
    rfl
  unfold toJson ofJson?
  rw [Json.record?_obj (by rfl) (by decide)]
  change Kind.bindersOfJson? (.arr (s.vars.map fun b => .arr [.str b.1, b.2.toJson])) >>= _ = _
  rw [hvars]
  change Ty.ofJson? (s.ty.toJson float) >>= _ = _
  rw [Ty.ofJson?_toJson float s.ty h]
  exact recover_map _

theorem Binder.ofJson?_toJson (b : Binder) : Binder.ofJson? b.toJson = recover [.word b.pos] b := by
  unfold toJson ofJson?
  rw [Json.located?_located]
  exact recover_bind rfl

variable (listed : Bool)

theorem Pattern.ofJson?_of_item {p : Pattern} {ns : List Numeral}
    (h : Pattern.ofItem? listed p.pos (p.itemToJson float) = recover ns p)
    : Pattern.ofJson? listed (p.toJson float) = recover (.word p.pos :: ns) p := by
  rw [toJson, ofJson?, Json.located?_located]
  exact recover_bind h

mutual

theorem Pattern.ofJson?_toJson (p : Pattern) (h : LackDoubles p.numerals)
    : Pattern.ofJson? listed (p.toJson float) = recover p.numerals p := by
  cases p with
  | var pos name =>
    apply ofJson?_of_item
    rw [itemToJson, Json.tag, ofItem?]
    rfl
  | wildcard pos =>
    apply ofJson?_of_item
    rw [itemToJson, ofItem?]
    rfl
  | int pos n =>
    apply ofJson?_of_item
    rw [itemToJson, Json.tag, ofItem?, Json.signed?_ofInt]
    exact recover_map _
  | float pos x => exact absurd h.tail not_lackDoubles_double
  | box pos inner =>
    apply ofJson?_of_item
    rw [itemToJson, Json.tag, ofItem?, ofJson?_toJson inner h.tail]
    exact recover_map _
  | pair pos a b =>
    obtain ⟨ha, hb⟩ := lackDoubles_append.mp h.tail
    apply ofJson?_of_item
    rw [itemToJson, Json.tag, ofItem?, ofJson?_toJson a ha, ofJson?_toJson b hb]
    exact recover_bind (recover_map _)
  | constructor pos name args =>
    apply ofJson?_of_item
    rw [itemToJson, Json.tag, ofItem?]
    rw [Json.fields?_obj (by rfl) (by decide)]
    change Pattern.listOfJson? listed (Pattern.toJsonAll float args) >>= _ = _
    rw [listOfJson?_toJsonAll args h.tail]
    exact recover_map _

theorem Pattern.listOfJson?_toJsonAll (ps : List Pattern) (h : LackDoubles (Pattern.numeralsAll ps))
    : Pattern.listOfJson? listed (Pattern.toJsonAll float ps) = recover (Pattern.numeralsAll ps) ps := by
  cases ps with
  | nil =>
    rw [toJsonAll, listOfJson?]
    rfl
  | cons p ps =>
    obtain ⟨hp, hps⟩ := lackDoubles_append.mp h
    rw [toJsonAll, listOfJson?, ofJson?_toJson p hp, listOfJson?_toJsonAll ps hps]
    exact recover_bind (recover_map _)

end

theorem Expr.ofJson?_of_item {e : Expr} {ns : List Numeral}
    (h : Expr.ofItem? listed e.pos (e.itemToJson float) = recover ns e)
    : Expr.ofJson? listed (e.toJson float) = recover (.word e.pos :: ns) e := by
  rw [toJson, ofJson?, Json.located?_located]
  exact recover_bind h

mutual

theorem Expr.ofJson?_toJson (e : Expr) (h : LackDoubles e.numerals)
    : Expr.ofJson? listed (e.toJson float) = recover e.numerals e := by
  cases e with
  | int pos n =>
    apply ofJson?_of_item
    rw [itemToJson, Json.tag, ofItem?, Json.signed?_ofInt]
    exact recover_map _
  | float pos x => exact absurd h.tail not_lackDoubles_double
  | var pos name | constructor pos name =>
    apply ofJson?_of_item
    rw [itemToJson, Json.tag, ofItem?]
    rfl
  | lam pos binder ty body =>
    obtain ⟨hty, hbody⟩ := lackDoubles_append.mp h.tail.tail
    apply ofJson?_of_item
    rw [itemToJson, Json.tag, ofItem?, Json.fields?_obj (by rfl) (by decide)]
    change Binder.ofJson? binder.toJson >>= _ = _
    rw [Binder.ofJson?_toJson]
    apply recover_bind
    change Ty.ofOptionalJson? (some (annotationToJson float ty)) >>= _ = _
    rw [Ty.ofOptionalJson?_annotationToJson float ty hty, ofJson?_toJson body hbody]
    exact recover_bind (recover_map _)
  | promote pos e | lift pos e =>
    apply ofJson?_of_item
    rw [itemToJson, Json.tag, ofItem?, ofJson?_toJson e h.tail]
    exact recover_map _
  | binop pos op a b =>
    obtain ⟨ha, hb⟩ := lackDoubles_append.mp h.tail
    apply ofJson?_of_item
    rw [itemToJson, Json.tag, ofItem?, BinOp.ofJson?_tag, ofJson?_toJson a ha, ofJson?_toJson b hb]
    exact recover_bind (recover_map _)
  | app pos a b | pair pos a b =>
    obtain ⟨ha, hb⟩ := lackDoubles_append.mp h.tail
    apply ofJson?_of_item
    rw [itemToJson, Json.tag, ofItem?, ofJson?_toJson a ha, ofJson?_toJson b hb]
    exact recover_bind (recover_map _)
  | case pos scrutinee branches =>
    obtain ⟨hscrutinee, hbranches⟩ := lackDoubles_append.mp h.tail
    apply ofJson?_of_item
    rw [itemToJson, Json.tag, ofItem?, ofJson?_toJson scrutinee hscrutinee,
      branchesOfJson?_branchesToJson branches hbranches]
    exact recover_bind (recover_map _)
  | letDiamond pos binder ty value rest =>
    obtain ⟨hty, hparts⟩ := lackDoubles_append.mp h.tail.tail
    obtain ⟨hvalue, hrest⟩ := lackDoubles_append.mp hparts
    apply ofJson?_of_item
    rw [itemToJson, Json.tag, ofItem?, Json.fields?_obj (by rfl) (by decide)]
    change Binder.ofJson? binder.toJson >>= _ = _
    rw [Binder.ofJson?_toJson]
    apply recover_bind
    change Ty.ofOptionalJson? (some (annotationToJson float ty)) >>= _ = _
    rw [Ty.ofOptionalJson?_annotationToJson float ty hty, ofJson?_toJson value hvalue, ofJson?_toJson rest hrest]
    exact recover_bind (recover_bind (recover_map _))
  | letBox pos binder ty value rest =>
    obtain ⟨hty, hparts⟩ := lackDoubles_append.mp h.tail.tail
    obtain ⟨hvalue, hrest⟩ := lackDoubles_append.mp hparts
    apply ofJson?_of_item
    rw [itemToJson, Json.tag, ofItem?, Json.fields?_obj (by rfl) (by decide)]
    change Binder.ofJson? binder.toJson >>= _ = _
    rw [Binder.ofJson?_toJson]
    apply recover_bind
    change Ty.ofJson? (ty.toJson float) >>= _ = _
    rw [Ty.ofJson?_toJson float ty hty, ofJson?_toJson value hvalue, ofJson?_toJson rest hrest]
    exact recover_bind (recover_bind (recover_map _))

theorem Expr.branchesOfJson?_branchesToJson (branches : List (Pattern × Expr))
    (h : LackDoubles (Expr.branchNumerals branches))
    : Expr.branchesOfJson? listed (Expr.branchesToJson float branches)
        = recover (Expr.branchNumerals branches) branches := by
  cases branches with
  | nil =>
    rw [branchesToJson, branchesOfJson?]
    rfl
  | cons branch branches =>
    obtain ⟨pattern, body⟩ := branch
    obtain ⟨hpattern, hrest⟩ := lackDoubles_append.mp h
    obtain ⟨hbody, hbranches⟩ := lackDoubles_append.mp hrest
    rw [branchesToJson, branchesOfJson?, Json.record?_obj (by rfl) (by decide)]
    change Pattern.ofJson? listed (pattern.toJson float) >>= _ = _
    rw [Pattern.ofJson?_toJson float listed pattern hpattern, ofJson?_toJson body hbody,
      branchesOfJson?_branchesToJson branches hbranches]
    exact recover_bind (recover_bind (recover_map _))

end

theorem Pattern.toJsonAll_eq_map (ps : List Pattern) : Pattern.toJsonAll float ps = ps.map (Pattern.toJson float) := by
  induction ps with
  | nil => rw [toJsonAll, List.map_nil]
  | cons p ps ih => rw [toJsonAll, List.map_cons, ih]

theorem Pattern.numeralsAll_eq_flatMap (ps : List Pattern) : Pattern.numeralsAll ps = ps.flatMap Pattern.numerals := by
  induction ps with
  | nil => rfl
  | cons p ps ih => rw [numeralsAll, List.flatMap_cons, ih]

theorem Definition.ofJson?_toJson (d : Definition) (h : LackDoubles d.numerals)
    : Definition.ofJson? listed (d.toJson float) = recover d.numerals d := by
  obtain ⟨hpatterns, hrest⟩ := lackDoubles_append.mp h.tail
  obtain ⟨hbody, hscheme⟩ := lackDoubles_append.mp hrest
  have hlist : Json.list? (Pattern.ofJson? listed) (.arr (Pattern.toJsonAll float d.patterns))
      = recover (Pattern.numeralsAll d.patterns) d.patterns := by
    rw [Pattern.toJsonAll_eq_map, Pattern.numeralsAll_eq_flatMap]
    rw [Pattern.numeralsAll_eq_flatMap] at hpatterns
    apply list?_arr
    intro p hp
    apply Pattern.ofJson?_toJson
    exact fun n hn => hpatterns n (List.mem_flatMap.mpr ⟨p, hp, hn⟩)
  unfold toJson ofJson?
  rw [Json.record?_obj (by rfl) (by decide)]
  change Binder.ofJson? d.binder.toJson >>= _ = _
  rw [Binder.ofJson?_toJson]
  apply recover_bind
  change Json.list? (Pattern.ofJson? listed) (.arr (Pattern.toJsonAll float d.patterns)) >>= _ = _
  rw [hlist, Expr.ofJson?_toJson float listed d.body hbody, Scheme.ofJson?_toJson float d.scheme hscheme]
  exact recover_bind (recover_bind (recover_map _))

/--
Definitions without doubles are read back as they were written, if and only if each of their numbers is one that the
program can hold. This is so whether or not the fields of constructors may be listed.
-/
theorem Definition.reads_back_iff_numbers_fit {defs : List Definition} (h : ∀ d ∈ defs, LackDoubles d.numerals)
    : Definition.listOfJson? listed (.arr (defs.map (Definition.toJson float))) = some defs
        ↔
      ∀ d ∈ defs, ∀ n ∈ d.numerals, n.isInRange = true := by
  have hlist : Definition.listOfJson? listed (.arr (defs.map (Definition.toJson float)))
      = recover (defs.flatMap Definition.numerals) defs :=
    list?_arr fun d hd => Definition.ofJson?_toJson float listed d (h d hd)
  rw [hlist, recover_eq_some_iff]
  simp only [List.mem_flatMap]
  constructor
  . intro hns d hd n hn
    exact hns n ⟨d, hd, hn⟩
  . rintro hns n ⟨d, hd, hn⟩
    exact hns d hd n hn

end

/--
A definition with every form of kinds, grades, types, patterns and expressions, and with numbers at the limits.
-/
def Definition.sampler : Definition where
  binder := ⟨18446744073709551615, "f"⟩
  patterns :=
    [.box 0 (.var 1 "x"), .pair 2 (.wildcard 3) (.int 4 (-9223372036854775808)), .constructor 5 "Cons" [.var 6 "y"]]
  body :=
    .case 7 (.app 8 (.var 9 "g") (.pair 10 (.int 11 9223372036854775807) (.constructor 12 "Nil")))
      [ (.wildcard 13,
          .letDiamond 14 ⟨15, "a"⟩ none (.lift 16 (.var 17 "x")) (.promote 18 (.binop 19 .le (.var 20 "a") (.int 21 0))))
      , (.var 22 "z",
          .letBox 23 ⟨24, "b"⟩ (.const "Int") (.var 25 "z") (.lam 26 ⟨27, "c"⟩ (some (.var "t")) (.var 28 "c"))) ]
  scheme :=
    { vars := [("t", .type), ("e", .effect), ("m", .arrow .type (.grade .nat)), ("l", .grade (.var "k"))]
      ty :=
        .arrow (.box (.op .times (.nat 18446744073709551615) (.op .join (.zero .level) (.var "l"))) (.var "t"))
          (.diamond ["R", "W"] (.pair (.app (.const "N") (.op .plus (.index 1) (.var "m")))
            (.box (.op .meet (.one .float) (.level .secret)) (.const "Int")))) }

theorem Definition.reads_back_iff_numbers_fit_sampler
    : (∀ d ∈ [Definition.sampler], LackDoubles d.numerals) ∧
      (∀ d ∈ [Definition.sampler], ∀ n ∈ d.numerals, n.isInRange = true) ∧
      Definition.listOfJson? false (.arr ([Definition.sampler].map (Definition.toJson fun _ => .null)))
        = some [Definition.sampler] :=
  ⟨by decide, by decide, (Definition.reads_back_iff_numbers_fit _ _ (by decide)).mpr (by decide)⟩

end GradedModal
