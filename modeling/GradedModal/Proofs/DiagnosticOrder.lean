import Mathlib
import GradedModal.Report.Diagnostic

/-!
This module says in which order messages come out. The located ones are sorted by their offsets, and stay in the order
in which they were added where the offsets are equal. Rendering keeps this order and asks for each text when its source
comes up for the first time.
-/

namespace GradedModal
namespace Report

namespace Source

/--
What tells sources apart: the steps of a path, or a label.
-/
def identity : Source → List String ⊕ String
  | .file path => .inl (Path.steps path)
  | .interactive label => .inr label

theorem same_iff {a b : Source} : a.same b = true ↔ a.identity = b.identity := by
  cases a <;> cases b <;> simp [same, identity, Path.same]

theorem same_self (a : Source) : a.same a = true :=
  same_iff.mpr rfl

theorem same_comm (a b : Source) : a.same b = b.same a := by
  rw [Bool.eq_iff_iff, same_iff, same_iff, eq_comm]

end Source

namespace Diagnostic

section

variable {a b c : Option Nat}

theorem notAfter_refl (a : Option Nat) : notAfter a a = true := by
  cases a <;> simp [notAfter]

theorem notAfter_trans (hab : notAfter a b = true) (hbc : notAfter b c = true) : notAfter a c = true := by
  cases a <;> cases b <;> cases c <;> simp_all [notAfter]
  omega

theorem notAfter_total (a b : Option Nat) : (notAfter a b || notAfter b a) = true := by
  cases a <;> cases b <;> simp [notAfter]
  omega

theorem notAfter_antisymm (hab : notAfter a b = true) (hba : notAfter b a = true) : a = b := by
  cases a <;> cases b <;> simp_all [notAfter]
  omega

end

/--
The order of located messages.
-/
def inOrder (a b : Location × Message) : Bool :=
  notAfter a.1.offset b.1.offset

theorem inOrder_trans (a b c : Location × Message) (hab : inOrder a b = true) (hbc : inOrder b c = true)
    : inOrder a c = true :=
  notAfter_trans hab hbc

theorem inOrder_total (a b : Location × Message) : (inOrder a b || inOrder b a) = true :=
  notAfter_total _ _

/--
What has been collected after some messages were added in turn.
-/
def collect (calls : List (Option Location × Message)) : Diagnostic :=
  calls.foldl (fun d call => d.add call.1 call.2) .empty

/--
The messages that are added with a location, in turn.
-/
def locatedCalls (calls : List (Option Location × Message)) : List (Location × Message) :=
  calls.filterMap fun call => call.1.map (·, call.2)

/--
The messages that are added without a location, in turn.
-/
def unlocatedCalls (calls : List (Option Location × Message)) : List Message :=
  calls.filterMap fun call => if call.1.isNone then some call.2 else none

/--
What a search for an offset among ordered ones answers: the place of the last one that equals it, or the place where it
belongs.
-/
inductive FindsLast (offset : Option Nat) : List (Option Nat) → Except Nat Nat → Prop
  | found {before after : List (Option Nat)} : offset ∉ after →
    FindsLast offset (before ++ offset :: after) (.ok before.length)
  | missing {before after : List (Option Nat)} : offset ∉ before ++ after →
    (∀ o ∈ before, notAfter o offset = true) → (∀ o ∈ after, notAfter offset o = true) →
    FindsLast offset (before ++ after) (.error before.length)

/--
Behind what was found, or where it belongs.
-/
def place : Except Nat Nat → Nat
  | .ok i => i + 1
  | .error i => i

section

variable {location : Location} {m : Message} {items before after : List (Location × Message)}

theorem insert_append (hbefore : ∀ item ∈ before, notAfter item.1.offset location.offset = true)
    (hafter : ∀ item ∈ after, notAfter item.1.offset location.offset = false)
    : insert location m (before ++ after) = (before ++ after).insertIdx before.length (location, m) := by
  induction before with
  | nil =>
    rw [List.nil_append, List.length_nil, List.insertIdx_zero]
    cases after with
    | nil => rfl
    | cons item after => rw [insert, if_neg (by simp [hafter item List.mem_cons_self])]
  | cons item before ih =>
    obtain ⟨hitem, hbefore⟩ := List.forall_mem_cons.mp hbefore
    rw [List.cons_append, List.length_cons, List.insertIdx_succ_cons, insert, if_pos hitem, ih hbefore]

theorem insert_eq_insertIdx {r : Except Nat Nat} (hsorted : items.Pairwise (inOrder · · = true))
    (h : FindsLast location.offset (items.map (·.1.offset)) r)
    : insert location m items = items.insertIdx (place r) (location, m) := by
  -- What stands behind the offset and differs from it is after it.
  have hlater : ∀ {o : Option Nat}, notAfter location.offset o = true → o ≠ location.offset →
      notAfter o location.offset = false := by
    intro o ho hne
    rw [Bool.eq_false_iff]
    exact fun ho' => hne (notAfter_antisymm ho' ho)
  generalize hoffsets : items.map (·.1.offset) = offsets at h
  cases h with
  | found hnone =>
    obtain ⟨before, rest, rfl, rfl, hrest⟩ := List.map_eq_append_iff.mp hoffsets
    obtain ⟨item, after, rfl, hitem, rfl⟩ := List.map_eq_cons_iff.mp hrest
    obtain ⟨_, hafter, hbefore⟩ := List.pairwise_append.mp hsorted
    have hsplit : before ++ item :: after = (before ++ [item]) ++ after := by simp
    rw [hsplit, insert_append]
    . simp [place]
    . intro other hother
      rw [← hitem]
      rcases List.mem_append.mp hother with hother | hother
      . exact hbefore other hother item List.mem_cons_self
      . obtain rfl := List.mem_singleton.mp hother
        exact notAfter_refl _
    . intro other hother
      apply hlater
      . rw [← hitem]
        exact List.rel_of_pairwise_cons hafter hother
      . exact fun heq => hnone (List.mem_map.mpr ⟨other, hother, heq⟩)
  | missing hnone hbefore hafter =>
    obtain ⟨before, after, rfl, rfl, rfl⟩ := List.map_eq_append_iff.mp hoffsets
    rw [insert_append]
    . simp [place]
    . exact fun other hother => hbefore _ (List.mem_map_of_mem hother)
    . intro other hother
      apply hlater (hafter _ (List.mem_map_of_mem hother))
      exact fun heq => hnone (List.mem_append_right _ (List.mem_map.mpr ⟨other, hother, heq⟩))

end

section

variable {location : Location} {m : Message} {items before after : List (Location × Message)}
  {item : Location × Message}

theorem insert_cons (location : Location) (m : Message) (item : Location × Message) (items : List (Location × Message))
    : insert location m (item :: items) =
        if inOrder item (location, m) = true then item :: insert location m items
        else (location, m) :: item :: items :=
  rfl

/--
It does not matter which of two messages is put in first, the earlier one before or the later one behind those with its
offset.
-/
theorem insert_orderedInsert (location : Location) (m : Message) (item : Location × Message)
    (items : List (Location × Message))
    : insert location m (items.orderedInsert (inOrder · · = true) item) =
        (insert location m items).orderedInsert (inOrder · · = true) item := by
  induction items with
  | nil =>
    change insert location m [item] = List.orderedInsert _ item [(location, m)]
    rw [List.orderedInsert_cons, insert_cons]
    rfl
  | cons other items ih =>
    rw [List.orderedInsert_cons, insert_cons]
    by_cases hitem : inOrder item other = true
    . rw [if_pos hitem, insert_cons, insert_cons]
      by_cases hother : inOrder other (location, m) = true
      . rw [if_pos (inOrder_trans _ _ _ hitem hother), if_pos hother, List.orderedInsert_cons, if_pos hitem]
      . rw [if_neg hother, List.orderedInsert_cons, List.orderedInsert_cons, if_pos hitem]
    . rw [if_neg hitem, insert_cons]
      by_cases hother : inOrder other (location, m) = true
      . rw [if_pos hother, if_pos hother, List.orderedInsert_cons, if_neg hitem, ih]
      . -- The new message comes before the other one, and this one before the item.
        have hnew : ¬ inOrder item (location, m) = true := by
          intro h
          have hswapped : inOrder other item = true := by simpa [hitem] using inOrder_total item other
          exact hother (inOrder_trans _ _ _ hswapped h)
        rw [if_neg hother, if_neg hother, List.orderedInsert_cons, if_neg hnew, List.orderedInsert_cons, if_neg hitem]

theorem insertionSort_append_singleton (location : Location) (m : Message) (items : List (Location × Message))
    : (items ++ [(location, m)]).insertionSort (inOrder · · = true) =
        insert location m (items.insertionSort (inOrder · · = true)) := by
  induction items with
  | nil => rfl
  | cons item items ih =>
    rw [List.cons_append, List.insertionSort_cons, List.insertionSort_cons, ih, insert_orderedInsert]

theorem orderedInsert_append (hbefore : ∀ other ∈ before, (!inOrder item other) = true)
    (hafter : ∀ other ∈ after, inOrder item other = true)
    : (before ++ after).orderedInsert (inOrder · · = true) item = before ++ item :: after := by
  induction before with
  | nil =>
    cases after with
    | nil => rfl
    | cons other after => exact (List.orderedInsert_cons _ _ _ _).trans (if_pos (hafter other List.mem_cons_self))
  | cons other before ih =>
    obtain ⟨hother, hbefore⟩ := List.forall_mem_cons.mp hbefore
    rw [List.cons_append, List.orderedInsert_cons, if_neg (by simpa using hother), ih hbefore]
    rfl

-- The order is not antisymmetric, so that the two sorts agree because both are stable.
theorem mergeSort_eq_insertionSort (items : List (Location × Message))
    : items.mergeSort inOrder = items.insertionSort (inOrder · · = true) := by
  induction items with
  | nil => exact List.mergeSort_nil
  | cons item items ih =>
    obtain ⟨before, after, hsort, hrest, hbefore⟩ := List.mergeSort_cons inOrder_trans inOrder_total item items
    have hsorted := List.pairwise_mergeSort inOrder_trans inOrder_total (item :: items)
    rw [hsort] at hsorted
    have hafter := (List.pairwise_append.mp hsorted).2.1
    rw [List.insertionSort_cons, ← ih, hsort, hrest, orderedInsert_append hbefore]
    exact fun other hother => List.rel_of_pairwise_cons hafter hother

end

section

variable (calls : List (Option Location × Message))

theorem collect_append_singleton (call : Option Location × Message)
    : collect (calls ++ [call]) = (collect calls).add call.1 call.2 :=
  List.foldl_append

theorem located_collect : (collect calls).located = (locatedCalls calls).mergeSort inOrder := by
  rw [mergeSort_eq_insertionSort]
  induction calls using List.reverseRecOn with
  | nil => rfl
  | append_singleton calls call ih =>
    obtain ⟨location, m⟩ := call
    rw [collect_append_singleton]
    cases location with
    | none => simpa [locatedCalls, add] using ih
    | some location =>
      have hcalls : locatedCalls (calls ++ [(some location, m)]) = locatedCalls calls ++ [(location, m)] := by
        simp [locatedCalls]
      rw [hcalls, insertionSort_append_singleton, ← ih]
      rfl

theorem items_collect : (collect calls).items = unlocatedCalls calls := by
  induction calls using List.reverseRecOn with
  | nil => rfl
  | append_singleton calls call ih =>
    obtain ⟨location, m⟩ := call
    rw [collect_append_singleton]
    cases location with
    | none => simp [unlocatedCalls, add, ih]
    | some location => simpa [unlocatedCalls, add] using ih

end

/--
The questions for texts, with their answers, in turn.
-/
abbrev Transcript := List (Source × Option String)

/--
Ask for the text of a source. The answer may depend on what was asked before.
-/
def ask (answer : Transcript → Source → Option String) (source : Source) : StateM Transcript (Option String) :=
  fun transcript => (answer transcript source, transcript ++ [(source, answer transcript source)])

/--
The sources that are not the same as one before them.
-/
def firstAppearances (sources : List Source) : List Source :=
  (sources.zipIdx.filter fun entry => !(sources.take entry.2).any entry.1.same).map (·.1)

section

variable (sources : List Source) (source : Source)

theorem firstAppearances_append_singleton
    : firstAppearances (sources ++ [source]) =
        firstAppearances sources ++ if sources.any source.same = true then [] else [source] := by
  unfold firstAppearances
  rw [List.zipIdx_append, List.filter_append, List.map_append]
  congr 1
  . congr 1
    apply List.filter_congr
    intro entry hentry
    have hlt := List.snd_lt_of_mem_zipIdx hentry
    rw [List.take_append_of_le_length (by omega)]
  . cases h : sources.any source.same <;> simp [h]

theorem any_firstAppearances : (firstAppearances sources).any source.same = sources.any source.same := by
  induction sources using List.reverseRecOn with
  | nil => rfl
  | append_singleton sources other ih =>
    rw [firstAppearances_append_singleton, List.any_append, List.any_append, ih]
    cases h : sources.any other.same with
    | false => simp
    | true =>
      obtain ⟨first, hfirst, hsame⟩ := List.any_eq_true.mp h
      cases hother : source.same other with
      | false => simp [hother]
      | true =>
        have hany : sources.any source.same = true := by
          rw [List.any_eq_true]
          rw [Source.same_iff] at hother hsame
          exact ⟨first, hfirst, Source.same_iff.mpr (hother.trans hsame)⟩
        simp [hany]

theorem pairwise_firstAppearances : (firstAppearances sources).Pairwise fun a b => a.same b = false := by
  induction sources using List.reverseRecOn with
  | nil => exact .nil
  | append_singleton sources other ih =>
    rw [firstAppearances_append_singleton]
    split
    . rwa [List.append_nil]
    . next hnew =>
      rw [← any_firstAppearances, List.any_eq_true] at hnew
      refine List.pairwise_append.mpr ⟨ih, List.pairwise_singleton _ _, ?_⟩
      intro first hfirst _ hother
      obtain rfl := List.mem_singleton.mp hother
      rw [Bool.eq_false_iff, Source.same_comm]
      exact fun hsame => hnew ⟨first, hfirst, hsame⟩

end

section

variable (answer : Transcript → Source → Option String)

/--
How a located message comes out, given the answers: with the text of its source.
-/
def IsRendered (transcript : Transcript) (item : Location × Message) (text : String) : Prop :=
  ∃ entry ∈ transcript, entry.1.same item.1.source = true ∧ text = item.2.renderAt item.1 entry.2

theorem IsRendered.mono {before after : Transcript} {item : Location × Message} {text : String}
    (hkept : before <+: after) (h : IsRendered before item text) : IsRendered after item text := by
  obtain ⟨entry, hentry, hrendered⟩ := h
  exact ⟨entry, hkept.mem hentry, hrendered⟩

/--
A text is kept for exactly those sources that have come up.
-/
theorem isSome_find?_transcript {transcript : Transcript} {seen : List Source}
    (hseen : transcript.map (·.1) = firstAppearances seen) (source : Source)
    : (transcript.find? (·.1.same source)).isSome = seen.any source.same := by
  rw [← any_firstAppearances, ← hseen, List.any_map, Bool.eq_iff_iff, List.find?_isSome, List.any_eq_true]
  simp only [Function.comp_apply, Source.same_comm source]

theorem run_map {x : StateM Transcript (List String)} {before after : Transcript} {texts : List String}
    (h : x.run before = (texts, after)) (f : List String → List String)
    : (x >>= fun texts => pure (f texts)).run before = (f texts, after) := by
  rw [StateT.run_bind, h]
  rfl

/--
As long as the cache is the transcript, every message comes out with the text of its source, and only a new source is
asked for.
-/
theorem renderLocated_ask (items : List (Location × Message)) {cache : Transcript} {seen : List Source}
    (hseen : cache.map (·.1) = firstAppearances seen)
    : ∃ texts transcript, (renderLocated (ask answer) cache items).run cache = (texts, transcript) ∧
        cache <+: transcript ∧ List.Forall₂ (IsRendered transcript) items texts ∧
        transcript.map (·.1) = firstAppearances (seen ++ items.map (·.1.source)) := by
  induction items generalizing cache seen with
  | nil => exact ⟨[], cache, rfl, List.prefix_rfl, .nil, by simpa using hseen⟩
  | cons item items ih =>
    obtain ⟨location, message⟩ := item
    have hseen' := firstAppearances_append_singleton seen location.source
    have hfound := isSome_find?_transcript hseen location.source
    rw [List.map_cons, List.append_cons]
    cases hcached : cache.find? (·.1.same location.source) with
    | some entry =>
      rw [← hfound, hcached, if_pos (by simp), List.append_nil, ← hseen] at hseen'
      obtain ⟨texts, transcript, hrun, hkept, hrendered, hasked⟩ := ih hseen'.symm
      have hsame := List.find?_some hcached
      have hitem : IsRendered cache (location, message) (message.renderAt location entry.2) :=
        ⟨entry, List.mem_of_find?_eq_some hcached, hsame, rfl⟩
      refine ⟨_ :: texts, transcript, ?_, hkept, .cons (hitem.mono hkept) hrendered, hasked⟩
      rw [renderLocated, hcached]
      exact run_map hrun _
    | none =>
      let entry := (location.source, answer cache location.source)
      rw [← hfound, hcached, if_neg (by simp), ← hseen] at hseen'
      have hnew : (cache ++ [entry]).map (·.1) = firstAppearances (seen ++ [location.source]) := by
        rw [List.map_append, hseen']
        rfl
      obtain ⟨texts, transcript, hrun, hkept, hrendered, hasked⟩ := ih hnew
      have hitem : IsRendered (cache ++ [entry]) (location, message) (message.renderAt location entry.2) :=
        ⟨entry, by simp, Source.same_self _, rfl⟩
      refine ⟨_ :: texts, transcript, ?_, (List.prefix_append _ _).trans hkept, .cons (hitem.mono hkept) hrendered,
        hasked⟩
      rw [renderLocated, hcached]
      exact run_map hrun _

theorem renderWith_ask (d : Diagnostic)
    : ∃ texts transcript, (d.renderWith (ask answer)).run [] = (d.items.map Message.render ++ texts, transcript) ∧
        List.Forall₂ (IsRendered transcript) d.located texts ∧
        transcript.map (·.1) = firstAppearances (d.located.map (·.1.source)) := by
  have hstart : ([] : Transcript).map (·.1) = firstAppearances [] := rfl
  obtain ⟨texts, transcript, hrun, -, hrendered, hasked⟩ := renderLocated_ask answer d.located hstart
  exact ⟨texts, transcript, run_map hrun _, hrendered, hasked⟩

/--
Messages come out in the stable order of their offsets. However messages are added: the located ones are those that
were added with a location, sorted stably by offset, without an offset first. A further one is put behind the last one
that a search finds at its offset, or where the search says that it belongs. Rendering gives one text for each message,
first those without a location as they were added, then the located ones in their order, each with the text of its
source. The text of each source is asked for once, when the source comes up for the first time in that order.
-/
theorem comes_out_in_stable_order (calls : List (Option Location × Message))
    : (collect calls).located = (locatedCalls calls).mergeSort inOrder ∧
      (∀ location m r, FindsLast location.offset ((collect calls).located.map (·.1.offset)) r →
        ((collect calls).add (some location) m).located =
          (collect calls).located.insertIdx (place r) (location, m)) ∧
      ∃ texts transcript,
        ((collect calls).renderWith (ask answer)).run [] =
          ((unlocatedCalls calls).map Message.render ++ texts, transcript) ∧
        ((unlocatedCalls calls).map Message.render ++ texts).length = (collect calls).size ∧
        List.Forall₂ (IsRendered transcript) (collect calls).located texts ∧
        transcript.map (·.1) = firstAppearances ((collect calls).located.map (·.1.source)) ∧
        (transcript.map (·.1)).Pairwise fun a b => a.same b = false := by
  have hlocated := located_collect calls
  obtain ⟨texts, transcript, hrun, hrendered, hasked⟩ := renderWith_ask answer (collect calls)
  refine ⟨hlocated, ?_, texts, transcript, ?_, ?_, hrendered, hasked, ?_⟩
  . intro location m r hfinds
    refine insert_eq_insertIdx ?_ hfinds
    rw [hlocated]
    exact List.pairwise_mergeSort inOrder_trans inOrder_total _
  . rw [← items_collect]
    exact hrun
  . rw [← items_collect, List.length_append, List.length_map, ← hrendered.length_eq]
    rfl
  . rw [hasked]
    exact pairwise_firstAppearances _

/-- Two messages at one offset of a file, one without an offset and one without a location. -/
def mixedCalls : List (Option Location × Message) :=
  [(some ⟨.file "a/b", some 4⟩, ⟨"first", none⟩), (none, ⟨"unlocated", none⟩),
    (some ⟨.interactive "test", none⟩, ⟨"start", none⟩), (some ⟨.file "a//b", some 4⟩, ⟨"second", none⟩)]

theorem comes_out_in_stable_order_mixed
    : FindsLast (some 4) ((collect mixedCalls).located.map (·.1.offset)) (.ok 2) ∧
      ((collect mixedCalls).add (some ⟨.file "a/b", some 4⟩) ⟨"third", none⟩).located =
        (collect mixedCalls).located.insertIdx 3 (⟨.file "a/b", some 4⟩, ⟨"third", none⟩) := by
  have hfinds : FindsLast (some 4) ([none, some 4] ++ some 4 :: []) (.ok 2) := .found List.not_mem_nil
  have hoffsets : (collect mixedCalls).located.map (·.1.offset) = [none, some 4] ++ some 4 :: [] := rfl
  rw [hoffsets]
  refine ⟨hfinds, (comes_out_in_stable_order (fun _ _ => none) mixedCalls).2.1 _ _ (.ok 2) ?_⟩
  rw [hoffsets]
  exact hfinds

end

end Diagnostic
end Report
end GradedModal
