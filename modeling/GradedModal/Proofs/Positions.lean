import Mathlib
import GradedModal.Report.Position

/-!
This module shows that offsets and positions are inverse. The position of an offset names the line that the offset lies
in, and the bytes before it add up to the offset, moved back to the start of a character. The offset of a place in a
line lies in that line.
-/

namespace GradedModal
namespace Report

/--
The lines of a text, without the newlines between them.
-/
def lines (text : String) : List String :=
  (text.toList.splitOn '\n').map String.ofList

/--
The number of bytes before a line, counted from zero, with the newlines.
-/
def bytesBefore (text : String) (n : Nat) : Nat :=
  (((lines text).take n).map fun line => line.utf8ByteSize + 1).sum

/--
A position and its line point at a byte of a text: the bytes before the line and those of the characters before the
column add up to it.
-/
structure Position.PointsAt (text : String) (position : Position) (line : String) (o : Nat) : Prop where
  line_pos : 1 ≤ position.line
  column_pos : 1 ≤ position.column
  line_eq : (lines text)[position.line - 1]? = some line
  column_le : position.column ≤ line.length + 1
  bytes_eq : bytesBefore text (position.line - 1) +
    (String.ofList (line.toList.take (position.column - 1))).utf8ByteSize = o

theorem utf8Len_toList (text : String) : String.utf8Len text.toList = text.utf8ByteSize := by
  rw [← String.utf8ByteSize_ofList, String.ofList_toList]

theorem isValid_iff {text : String} {o : Nat}
    : String.Pos.Raw.IsValid text ⟨o⟩ ↔ ∃ before after, text.toList = before ++ after ∧ String.utf8Len before = o := by
  rw [String.Pos.Raw.isValid_iff_exists_append]
  constructor
  . rintro ⟨before, after, rfl, ho⟩
    refine ⟨before.toList, after.toList, String.toList_append, ?_⟩
    rw [utf8Len_toList]
    exact (congrArg String.Pos.Raw.byteIdx ho).symm
  . rintro ⟨before, after, htext, rfl⟩
    refine ⟨String.ofList before, String.ofList after, ?_, ?_⟩
    . rw [← String.ofList_append, ← htext, String.ofList_toList]
    . rw [← String.utf8ByteSize_ofList]
      rfl

section

variable {n : Nat} {c : Char} {cs before after : List Char}

theorem splitBytes_cons_of_le (h : c.utf8Size ≤ n)
    : splitBytes n (c :: cs) = (c :: (splitBytes (n - c.utf8Size) cs).1, (splitBytes (n - c.utf8Size) cs).2) := by
  rw [splitBytes, if_pos h]

theorem splitBytes_cons_of_lt (h : n < c.utf8Size) : splitBytes n (c :: cs) = ([], c :: cs) := by
  rw [splitBytes, if_neg (by omega)]

theorem splitBytes_append (n : Nat) (cs : List Char) : (splitBytes n cs).1 ++ (splitBytes n cs).2 = cs := by
  induction cs generalizing n with
  | nil => rfl
  | cons c cs ih =>
    rcases Nat.lt_or_ge n c.utf8Size with h | h
    . rw [splitBytes_cons_of_lt h, List.nil_append]
    . rw [splitBytes_cons_of_le h, List.cons_append, ih]

theorem utf8Len_splitBytes_le (n : Nat) (cs : List Char) : String.utf8Len (splitBytes n cs).1 ≤ n := by
  induction cs generalizing n with
  | nil => exact Nat.zero_le n
  | cons c cs ih =>
    rcases Nat.lt_or_ge n c.utf8Size with h | h
    . rw [splitBytes_cons_of_lt h]
      exact Nat.zero_le n
    . have hrest := ih (n - c.utf8Size)
      rw [splitBytes_cons_of_le h, String.utf8Len_cons]
      omega

theorem le_utf8Len_splitBytes (hcs : cs = before ++ after) (hn : String.utf8Len before ≤ n)
    : String.utf8Len before ≤ String.utf8Len (splitBytes n cs).1 := by
  subst hcs
  induction before generalizing n with
  | nil => exact Nat.zero_le _
  | cons c before ih =>
    rw [String.utf8Len_cons] at hn ⊢
    have hrest := @ih (n - c.utf8Size) (by omega)
    rw [List.cons_append, splitBytes_cons_of_le (by omega), String.utf8Len_cons]
    omega

theorem isGreatest_splitBytes (text : String) (offset : Nat)
    : IsGreatest { o | String.Pos.Raw.IsValid text ⟨o⟩ ∧ o ≤ min offset text.utf8ByteSize }
        (String.utf8Len (splitBytes offset text.toList).1) := by
  have hsplit := splitBytes_append offset text.toList
  constructor
  . refine ⟨isValid_iff.mpr ⟨_, _, hsplit.symm, rfl⟩, Nat.le_min.mpr ⟨utf8Len_splitBytes_le _ _, ?_⟩⟩
    rw [← utf8Len_toList]
    exact String.utf8Len_le_of_prefix ⟨_, hsplit⟩
  . rintro o ⟨hvalid, hle⟩
    obtain ⟨before, after, htext, rfl⟩ := isValid_iff.mp hvalid
    exact le_utf8Len_splitBytes htext (by omega)

end

/--
A part of a text that lies between newlines or the ends of the text and holds none.
-/
structure IsLine (cs before line after : List Char) : Prop where
  eq : cs = before ++ (line ++ after)
  starts : before = [] ∨ ∃ front, before = front ++ ['\n']
  ends : after = [] ∨ ∃ rest, after = '\n' :: rest
  newline : '\n' ∉ line

section

variable {cs before line after : List Char}

theorem length_splitOn_newline (cs : List Char) : (cs.splitOn '\n').length = cs.count '\n' + 1 := by
  induction cs with
  | nil => rfl
  | cons c cs ih =>
    rw [List.splitOn_cons_eq_if_modifyHead, List.count_cons]
    split
    . rw [List.length_cons, ih]
    . rw [List.length_modifyHead, ih]

theorem sum_splitOn_newline (cs : List Char)
    : ((cs.splitOn '\n').map (String.utf8Len · + 1)).sum = String.utf8Len cs + 1 := by
  induction cs with
  | nil => rfl
  | cons c cs ih =>
    rw [List.splitOn_cons_eq_if_modifyHead, String.utf8Len_cons]
    split
    . next hc =>
      have hsize : c.utf8Size = 1 := by
        rw [eq_of_beq hc]
        rfl
      rw [List.map_cons, List.sum_cons, ih, String.utf8Len_nil]
      omega
    . obtain ⟨first, rest, hsplit⟩ := List.exists_cons_of_ne_nil (List.splitOn_ne_nil '\n' cs)
      rw [hsplit, List.map_cons, List.sum_cons] at ih
      rw [hsplit, List.modifyHead_cons, List.map_cons, List.sum_cons, String.utf8Len_cons]
      omega

theorem IsLine.getElem?_splitOn (h : IsLine cs before line after)
    : (cs.splitOn '\n')[before.count '\n']? = some line ∧
      (((cs.splitOn '\n').take (before.count '\n')).map (String.utf8Len · + 1)).sum = String.utf8Len before := by
  obtain ⟨rfl, hstarts, hends, hnewline⟩ := h
  obtain ⟨rest, hrest⟩ : ∃ rest, (line ++ after).splitOn '\n' = line :: rest := by
    obtain rfl | ⟨tail, rfl⟩ := hends
    . rw [List.append_nil]
      exact ⟨[], List.splitOn_eq_singleton hnewline⟩
    . exact ⟨_, List.splitOn_append_cons_self_of_not_mem hnewline tail⟩
  obtain rfl | ⟨front, rfl⟩ := hstarts
  . rw [List.nil_append, hrest]
    exact ⟨rfl, rfl⟩
  . have hcount : (front ++ ['\n']).count '\n' = (front.splitOn '\n').length := by
      rw [length_splitOn_newline, List.count_append]
      rfl
    rw [hcount, List.append_assoc, List.singleton_append, List.splitOn_append_cons_self, hrest, List.take_left,
      sum_splitOn_newline, String.utf8Len_append]
    exact ⟨by simp, rfl⟩

theorem exists_isLine {n : Nat} (h : (cs.splitOn '\n')[n]? = some line)
    : ∃ before after, IsLine cs before line after ∧ before.count '\n' = n := by
  induction n generalizing cs with
  | zero =>
    by_cases hcs : '\n' ∈ cs
    . obtain ⟨first, rest, rfl, hfirst⟩ := List.eq_append_cons_of_mem hcs
      rw [List.splitOn_append_cons_self_of_not_mem hfirst] at h
      cases h
      exact ⟨[], '\n' :: rest, ⟨rfl, .inl rfl, .inr ⟨rest, rfl⟩, hfirst⟩, rfl⟩
    . rw [List.splitOn_eq_singleton hcs] at h
      cases h
      exact ⟨[], [], ⟨by simp, .inl rfl, .inl rfl, hcs⟩, rfl⟩
  | succ n ih =>
    by_cases hcs : '\n' ∈ cs
    . obtain ⟨first, rest, rfl, hfirst⟩ := List.eq_append_cons_of_mem hcs
      rw [List.splitOn_append_cons_self_of_not_mem hfirst] at h
      obtain ⟨before, after, ⟨rfl, hstarts, hends, hnewline⟩, rfl⟩ := ih h
      refine ⟨first ++ '\n' :: before, after, ⟨by simp, .inr ?_, hends, hnewline⟩, ?_⟩
      . obtain rfl | ⟨front, rfl⟩ := hstarts
        . exact ⟨first, rfl⟩
        . exact ⟨first ++ '\n' :: front, by simp⟩
      . simp [List.count_eq_zero.mpr hfirst]
    . rw [List.splitOn_eq_singleton hcs] at h
      cases h

end

section

variable {before line after : List Char} {text : String}

theorem utf8ByteSize_lines (text : String)
    : (lines text).map (·.utf8ByteSize + 1) = (text.toList.splitOn '\n').map (String.utf8Len · + 1) := by
  unfold lines
  rw [List.map_map]
  apply List.map_congr_left
  intro line _
  rw [← String.utf8ByteSize_ofList]
  rfl

theorem IsLine.getElem?_lines (h : IsLine text.toList before line after)
    : (lines text)[before.count '\n']? = some (String.ofList line) ∧
      bytesBefore text (before.count '\n') = String.utf8Len before := by
  obtain ⟨hline, hbytes⟩ := h.getElem?_splitOn
  constructor
  . unfold lines
    rw [List.getElem?_map, hline]
    rfl
  . unfold bytesBefore
    rw [List.map_take, utf8ByteSize_lines, ← List.map_take, hbytes]

theorem exists_isLine_of_lines {n : Nat} {line : String} (h : (lines text)[n]? = some line)
    : ∃ before after, IsLine text.toList before line.toList after ∧ before.count '\n' = n := by
  unfold lines at h
  rw [List.getElem?_map] at h
  obtain ⟨cs, hcs, rfl⟩ := Option.map_eq_some_iff.mp h
  rw [String.toList_ofList]
  exact exists_isLine hcs

theorem bytesBefore_add_lt {m n : Nat} {line : String} (hmn : m < n) (h : (lines text)[m]? = some line)
    : bytesBefore text m + line.utf8ByteSize < bytesBefore text n := by
  obtain ⟨k, rfl⟩ := Nat.exists_eq_add_of_le (Nat.succ_le_of_lt hmn)
  unfold bytesBefore
  rw [List.take_add, List.take_add_one, h]
  simp only [Option.toList_some, List.map_append, List.sum_append, List.map_cons, List.map_nil, List.sum_singleton]
  omega

theorem firstLine_spec (cs : List Char)
    : ∃ rest, cs = firstLine cs ++ rest ∧ (rest = [] ∨ ∃ tail, rest = '\n' :: tail) ∧ '\n' ∉ firstLine cs := by
  refine ⟨cs.dropWhile (· != '\n'), List.takeWhile_append_dropWhile.symm, ?_, ?_⟩
  . cases hrest : cs.dropWhile (· != '\n') with
    | nil => exact .inl rfl
    | cons c tail =>
      have hne : cs.dropWhile (· != '\n') ≠ [] := by simp [hrest]
      have hc := List.head_dropWhile_not _ hne
      simp only [hrest, List.head_cons, bne_eq_false_iff_eq] at hc
      exact .inr ⟨tail, by rw [hc]⟩
  . intro hmem
    simpa using List.mem_takeWhile_imp hmem

theorem lastLine_spec (cs : List Char)
    : ∃ front, cs = front ++ lastLine cs ∧ (front = [] ∨ ∃ head, front = head ++ ['\n']) ∧ '\n' ∉ lastLine cs := by
  obtain ⟨rest, hsplit, hrest, hnewline⟩ := firstLine_spec cs.reverse
  refine ⟨rest.reverse, ?_, ?_, ?_⟩
  . unfold lastLine
    rw [← List.reverse_append]
    exact List.reverse_eq_iff.mp hsplit
  . obtain rfl | ⟨tail, rfl⟩ := hrest
    . exact .inl rfl
    . exact .inr ⟨tail.reverse, by simp⟩
  . unfold lastLine
    rwa [List.mem_reverse]

theorem bytesOfLines_append (hstarts : before = [] ∨ ∃ front, before = front ++ ['\n']) (rest : List Char)
    : bytesOfLines (before.count '\n') (before ++ rest) = String.utf8Len before := by
  induction before with
  | nil =>
    unfold bytesOfLines
    rfl
  | cons c before ih =>
    have hbefore : before = [] ∧ c = '\n' ∨ ∃ front, before = front ++ ['\n'] := by
      obtain hstarts | ⟨front, hfront⟩ := hstarts
      . cases hstarts
      . cases front with
        | nil =>
          cases hfront
          exact .inl ⟨rfl, rfl⟩
        | cons d front =>
          cases hfront
          exact .inr ⟨front, rfl⟩
    have hrest := ih (hbefore.imp And.left id)
    by_cases hc : c = '\n'
    . rw [hc, List.count_cons_self, List.cons_append, bytesOfLines, if_pos rfl, hrest, String.utf8Len_cons, Nat.add_comm]
    . -- The line has not ended yet, so there is a newline left.
      obtain ⟨k, hk⟩ : ∃ k, before.count '\n' = k + 1 := by
        obtain ⟨_, hnewline⟩ | ⟨front, rfl⟩ := hbefore
        . exact absurd hnewline hc
        . exact ⟨front.count '\n', by simp⟩
      rw [hk] at hrest
      rw [List.count_cons_of_ne hc, hk, List.cons_append, bytesOfLines, if_neg hc, hrest, String.utf8Len_cons,
        Nat.add_comm]

theorem pointsAt_ofOffset (text : String) (offset : Nat)
    : Position.PointsAt text (Position.ofOffset text offset).1 (Position.ofOffset text offset).2
        (String.utf8Len (splitBytes offset text.toList).1) := by
  have hsplit := splitBytes_append offset text.toList
  unfold Position.ofOffset
  generalize splitBytes offset text.toList = parts at hsplit
  obtain ⟨before, after⟩ := parts
  obtain ⟨front, hbefore, hstarts, hlast⟩ := lastLine_spec before
  obtain ⟨rest, hafter, hends, hfirst⟩ := firstLine_spec after
  have hline : IsLine text.toList front (lastLine before ++ firstLine after) rest := by
    refine ⟨?_, hstarts, hends, by simp [hlast, hfirst]⟩
    calc text.toList = before ++ after := hsplit.symm
      _ = (front ++ lastLine before) ++ (firstLine after ++ rest) := by rw [← hbefore, ← hafter]
      _ = front ++ ((lastLine before ++ firstLine after) ++ rest) := by simp
  have hcount : before.count '\n' = front.count '\n' := by
    rw [hbefore, List.count_append, List.count_eq_zero.mpr hlast, Nat.add_zero]
  obtain ⟨hget, hbytes⟩ := hline.getElem?_lines
  constructor
  . exact Nat.le_add_left _ _
  . exact Nat.le_add_left _ _
  . dsimp only
    rw [Nat.add_sub_cancel, hcount, hget]
  . dsimp only
    rw [String.length_ofList, List.length_append]
    omega
  . dsimp only
    rw [Nat.add_sub_cancel, Nat.add_sub_cancel, hcount, hbytes, String.toList_ofList, List.take_left,
      String.utf8ByteSize_ofList, ← String.utf8Len_append, ← hbefore]

theorem offsetOf_eq {n column : Nat} {line : String} (h : (lines text)[n]? = some line)
    (hcolumn : column ≤ line.utf8ByteSize) : offsetOf text (n + 1) (column + 1) = bytesBefore text n + column := by
  obtain ⟨before, after, hline, rfl⟩ := exists_isLine_of_lines h
  have hsize : String.utf8Len before + line.utf8ByteSize ≤ text.utf8ByteSize := by
    rw [← utf8Len_toList, ← utf8Len_toList, hline.eq, String.utf8Len_append, String.utf8Len_append]
    omega
  unfold offsetOf
  rw [Nat.add_sub_cancel, Nat.add_sub_cancel, hline.getElem?_lines.2, hline.eq, bytesOfLines_append hline.starts]
  omega

theorem isValid_bytesBefore_add {n o : Nat} {line : String} (h : (lines text)[n]? = some line)
    (ho : String.Pos.Raw.IsValid line ⟨o⟩) : String.Pos.Raw.IsValid text ⟨bytesBefore text n + o⟩ := by
  obtain ⟨before, after, hline, rfl⟩ := exists_isLine_of_lines h
  obtain ⟨head, tail, hsplit, rfl⟩ := isValid_iff.mp ho
  refine isValid_iff.mpr ⟨before ++ head, tail ++ after, ?_, ?_⟩
  . rw [hline.eq, hsplit]
    simp
  . rw [String.utf8Len_append, hline.getElem?_lines.2]

theorem Position.PointsAt.line_unique {position : Position} {line line' : String} {n o : Nat}
    (h : position.PointsAt text line' o) (hline : (lines text)[n]? = some line) (hle : bytesBefore text n ≤ o)
    (hge : o ≤ bytesBefore text n + line.utf8ByteSize) : position.line = n + 1 ∧ line' = line := by
  obtain ⟨hpos, _, hline', _, hbytes⟩ := h
  have hcut : (String.ofList (line'.toList.take (position.column - 1))).utf8ByteSize ≤ line'.utf8ByteSize := by
    rw [String.utf8ByteSize_ofList, ← utf8Len_toList]
    exact String.utf8Len_le_of_prefix (List.take_prefix _ _)
  rcases Nat.lt_trichotomy (position.line - 1) n with hlt | heq | hgt
  . have hstart := bytesBefore_add_lt hlt hline'
    omega
  . rw [heq, hline] at hline'
    cases hline'
    exact ⟨by omega, rfl⟩
  . have hstart := bytesBefore_add_lt hgt hline
    omega

/--
Offsets and positions are inverse. For every offset, with `o` the last boundary between characters that is neither
behind it nor behind the end of the text: the position names the line that is returned, and the bytes before this line
and those of the characters before the column add up to `o`. For every line of the text and every byte in it or at its
end, the position of the offset is in that line. If the byte is a boundary between characters, then it is where the
position points at.
-/
theorem offsets_and_positions_inverse (text : String)
    : (∀ offset, ∃ o, IsGreatest { o | String.Pos.Raw.IsValid text ⟨o⟩ ∧ o ≤ min offset text.utf8ByteSize } o ∧
        Position.PointsAt text (Position.ofOffset text offset).1 (Position.ofOffset text offset).2 o) ∧
      ∀ number column line, 1 ≤ number → (lines text)[number - 1]? = some line →
        1 ≤ column → column ≤ line.utf8ByteSize + 1 →
        (Position.ofOffset text (offsetOf text number column)).1.line = number ∧
        (Position.ofOffset text (offsetOf text number column)).2 = line ∧
        (String.Pos.Raw.IsValid line ⟨column - 1⟩ →
          Position.PointsAt text (Position.ofOffset text (offsetOf text number column)).1 line
            (offsetOf text number column)) := by
  have hforward : ∀ offset, ∃ o,
      IsGreatest { o | String.Pos.Raw.IsValid text ⟨o⟩ ∧ o ≤ min offset text.utf8ByteSize } o ∧
      Position.PointsAt text (Position.ofOffset text offset).1 (Position.ofOffset text offset).2 o :=
    fun offset => ⟨_, isGreatest_splitBytes text offset, pointsAt_ofOffset text offset⟩
  refine ⟨hforward, ?_⟩
  intro number column line hnumber hline hcolumn hle
  obtain ⟨n, rfl⟩ := Nat.exists_eq_add_of_le' hnumber
  obtain ⟨k, rfl⟩ := Nat.exists_eq_add_of_le' hcolumn
  rw [Nat.add_sub_cancel] at hline ⊢
  have hk : k ≤ line.utf8ByteSize := by omega
  have hoffset := offsetOf_eq hline hk
  obtain ⟨o, ⟨⟨_, hmin⟩, hgreatest⟩, hpoints⟩ := hforward (offsetOf text (n + 1) (k + 1))
  -- Every boundary of the line up to the offset is one of the text.
  have hboundary : ∀ b, String.Pos.Raw.IsValid line ⟨b⟩ → b ≤ k → bytesBefore text n + b ≤ o := by
    intro b hb hbk
    have hvalid := isValid_bytesBefore_add hline hb
    have hsize := hvalid.le_utf8ByteSize
    refine hgreatest ⟨hvalid, ?_⟩
    simp only at hsize
    omega
  have hstart := hboundary 0 String.Pos.Raw.isValid_zero (Nat.zero_le k)
  obtain ⟨hnumber, hreturned⟩ := hpoints.line_unique hline (by omega) (by omega)
  refine ⟨hnumber, hreturned, ?_⟩
  intro hvalid
  have ho : o = offsetOf text (n + 1) (k + 1) := by
    have hk := hboundary k hvalid (Nat.le_refl k)
    omega
  rw [hreturned, ho] at hpoints
  exact hpoints

-- Behind the first character of the last line, which has two bytes, as has one in the first line.
theorem offsets_and_positions_inverse_umlauts
    : (lines "xä\n\nöy")[2]? = some "öy" ∧ String.Pos.Raw.IsValid "öy" ⟨2⟩ ∧
      (Position.ofOffset "xä\n\nöy" (offsetOf "xä\n\nöy" 3 3)).1.line = 3 ∧
      (Position.ofOffset "xä\n\nöy" (offsetOf "xä\n\nöy" 3 3)).2 = "öy" ∧
      Position.PointsAt "xä\n\nöy" (Position.ofOffset "xä\n\nöy" (offsetOf "xä\n\nöy" 3 3)).1 "öy"
        (offsetOf "xä\n\nöy" 3 3) := by
  have hline : (lines "xä\n\nöy")[2]? = some "öy" := by decide
  have hvalid : String.Pos.Raw.IsValid "öy" ⟨2⟩ := isValid_iff.mpr ⟨['ö'], ['y'], by decide, by decide⟩
  have hsize : 3 ≤ "öy".utf8ByteSize + 1 := by decide
  obtain ⟨hnumber, hreturned, hpoints⟩ :=
    (offsets_and_positions_inverse "xä\n\nöy").2 3 3 "öy" (by decide) hline (by decide) hsize
  exact ⟨hline, hvalid, hnumber, hreturned, hpoints hvalid⟩

end

end Report
end GradedModal
