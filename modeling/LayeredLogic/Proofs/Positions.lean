import LayeredLogic.Text.Position
import LayeredLogic.Proofs.Spans
import Mathlib.Data.List.DropRight

/-!
# Lines and columns

A position leads back to the offset that it was made from: past the lines before
its own, each with the line feed at its end, and then past the characters before
its column.  Positions of a source are in the order of their offsets, and all
offsets past the end have the position of the end.
-/

namespace LayeredLogic

/-- A text split behind a number of its lines, each of which ends with a line
feed. -/
def splitLines? : Nat → List Char → Option (List Char × List Char)
  | 0, cs => some ([], cs)
  | _ + 1, [] => none
  | n + 1, c :: cs =>
      (splitLines? (if c = '\n' then n else n + 1) cs).map fun (lines, rest) =>
        (c :: lines, rest)

private theorem splitLines?_append {lines : List Char}
    (h : ∀ c ∈ lines.getLast?, c = '\n') (rest : List Char) :
    splitLines? (lines.count '\n') (lines ++ rest) = some (lines, rest) := by
  induction lines with
  | nil => rw [List.count_nil, List.nil_append, splitLines?]
  | cons c cs ih =>
      have hcs : ∀ d ∈ cs.getLast?, d = '\n' := by
        intro d hd
        apply h
        rw [List.getLast?_cons, Option.mem_def.mp hd]
        rfl
      by_cases hc : c = '\n'
      · subst hc
        rw [List.count_cons_self, List.cons_append, splitLines?, if_pos rfl,
          ih hcs]
        rfl
      · -- The line goes on, so that there is a line feed further behind.
        have hmem : '\n' ∈ cs := by
          cases hlast : cs.getLast? with
          | none =>
              obtain rfl := List.getLast?_eq_none_iff.mp hlast
              exact absurd (h c rfl) hc
          | some d =>
              rw [← hcs d hlast]
              exact List.mem_of_getLast? hlast
        obtain ⟨n, hn⟩ := Nat.exists_eq_add_of_le' (List.count_pos_iff.mpr hmem)
        have hsplit := ih hcs
        rw [hn] at hsplit
        rw [List.count_cons_of_ne hc, hn, List.cons_append, splitLines?,
          if_neg hc, hsplit]
        rfl

private theorem charsBefore?_append (before after : List Char) :
    charsBefore? (bytes before) (before ++ after) = some before := by
  induction before with
  | nil => cases after <;> rfl
  | cons c cs ih =>
      have hpos := c.utf8Size_pos
      obtain ⟨n, hn⟩ :=
        Nat.exists_eq_add_of_le' (show 1 ≤ bytes (c :: cs) by rw [bytes]; omega)
      have hsize : bytes (c :: cs) = c.utf8Size + bytes cs := rfl
      have hrest : n + 1 - c.utf8Size = bytes cs := by omega
      rw [hn, List.cons_append, charsBefore?, if_pos (by omega), hrest, ih]
      rfl

private theorem charsBefore?_of_bytes_lt {cs : List Char} {offset : Nat}
    (h : bytes cs < offset) : charsBefore? offset cs = none := by
  obtain ⟨n, rfl⟩ :=
    Nat.exists_eq_add_of_le' (Nat.lt_of_le_of_lt (Nat.zero_le _) h)
  induction cs generalizing n with
  | nil => rfl
  | cons c cs ih =>
      have hsize : bytes (c :: cs) = c.utf8Size + bytes cs := rfl
      rw [charsBefore?]
      split
      · obtain ⟨k, hk⟩ :=
          Nat.exists_eq_add_of_le' (show 1 ≤ n + 1 - c.utf8Size by omega)
        rw [hk, ih k (by omega)]
        rfl
      · rfl

namespace Position

instance : LT Position where
  lt p q := p.line < q.line ∨ p.line = q.line ∧ p.column < q.column

/-- The offset that a position leads to: behind the lines before its own and
behind the characters before its column. -/
def offset? (source : List Char) (p : Position) : Option Nat := do
  let (lines, rest) ← splitLines? (p.line - 1) source
  if p.column - 1 ≤ rest.length then
    some (bytes (lines ++ rest.take (p.column - 1))) else none

theorem ofOffset_bytes (before after : List Char) :
    ofOffset (before ++ after) (bytes before) = .after before := by
  rw [ofOffset, charsBefore?_append]
  rfl

theorem ofOffset_of_bytes_le {source : List Char} {offset : Nat}
    (h : bytes source ≤ offset) : ofOffset source offset = .after source := by
  rcases Nat.eq_or_lt_of_le h with rfl | h
  · have hend := ofOffset_bytes source []
    rwa [List.append_nil] at hend
  · rw [ofOffset, charsBefore?_of_bytes_lt h]
    rfl

private theorem column_after (before : List Char) :
    (after before).column = (before.rtakeWhile (· != '\n')).length + 1 := by
  rw [after, List.rtakeWhile, List.length_reverse]

private theorem count_rdropWhile (before : List Char) :
    (before.rdropWhile (· != '\n')).count '\n' = before.count '\n' := by
  have hline : (before.rtakeWhile (· != '\n')).count '\n' = 0 := by
    rw [List.count_eq_zero]
    intro hmem
    simpa using List.mem_rtakeWhile_imp hmem
  have hcount := congrArg (List.count '\n')
    (List.rdropWhile_append_rtakeWhile (p := (· != '\n')) (l := before))
  rwa [List.count_append, hline, Nat.add_zero] at hcount

private theorem offset?_after (before rest : List Char) :
    offset? (before ++ rest) (after before) = some (bytes before) := by
  have hlast : ∀ c ∈ (before.rdropWhile (· != '\n')).getLast?, c = '\n' := by
    intro c hc
    obtain ⟨hne, rfl⟩ := List.mem_getLast?_eq_getLast hc
    simpa using List.rdropWhile_last_not _ _ hne
  have hbefore :
      before.rdropWhile (· != '\n') ++ before.rtakeWhile (· != '\n') = before :=
    List.rdropWhile_append_rtakeWhile
  have hsplit : splitLines? (before.count '\n') (before ++ rest) =
      some (before.rdropWhile (· != '\n'),
        before.rtakeWhile (· != '\n') ++ rest) := by
    have h := splitLines?_append hlast (before.rtakeWhile (· != '\n') ++ rest)
    rwa [count_rdropWhile, ← List.append_assoc, hbefore] at h
  have hline : (after before).line - 1 = before.count '\n' := rfl
  have hcolumn :
      (after before).column - 1 = (before.rtakeWhile (· != '\n')).length := by
    rw [column_after, Nat.add_sub_cancel]
  rw [offset?, hline, hsplit, hcolumn]
  simp [hbefore]

private theorem after_lt_after_append {before piece : List Char}
    (h : piece ≠ []) : after before < after (before ++ piece) := by
  have hcount : (after (before ++ piece)).line =
      (after before).line + piece.count '\n' := by
    simp only [after, List.count_append]
    omega
  rcases Nat.eq_zero_or_pos (piece.count '\n') with hzero | hpos
  · -- The piece stays in the line, and all of it is before the new column.
    have hpiece : ∀ c ∈ piece.reverse, (c != '\n') = true := by
      intro c hc
      rw [bne_iff_ne]
      rintro rfl
      exact List.count_eq_zero.mp hzero (List.mem_reverse.mp hc)
    have hcolumn : (after (before ++ piece)).column =
        piece.length + (after before).column := by
      simp only [after, List.reverse_append,
        List.takeWhile_append_of_pos hpiece, List.length_append,
        List.length_reverse]
      omega
    have hlength := List.length_pos_iff.mpr h
    exact .inr ⟨by omega, by omega⟩
  · exact .inl (by omega)

end Position

namespace Diagnostic

/-- A diagnostic at a boundary between two characters has as many lines before
its own as there are line feeds before it, and its line and column lead back to
it.  Diagnostics further on in a source have later positions, and those past its
end have the position of the end. -/
theorem position_ofSpan (source message : String) :
    (∀ (span : Span) (before after : List Char),
      source.toList = before ++ after →
      span.start = bytes before →
        (ofSpan source span message).position.line = before.count '\n' + 1 ∧
        0 < (ofSpan source span message).position.column ∧
        (ofSpan source span message).position.offset? source.toList =
          some span.start) ∧
    (∀ span span' : Span, Boundary source span.start →
      Boundary source span'.start →
      span.start < span'.start →
        (ofSpan source span message).position <
          (ofSpan source span' message).position) ∧
    (∀ span : Span, source.utf8ByteSize < span.start →
      (ofSpan source span message).position =
        (ofSpan source ⟨source.utf8ByteSize, source.utf8ByteSize⟩
          message).position) := by
  have hposition : ∀ (span : Span) (before after : List Char),
      source.toList = before ++ after →
      span.start = bytes before → (ofSpan source span message).position =
        .after before := by
    intro span before after hsource hstart
    rw [ofSpan, hsource, hstart, Position.ofOffset_bytes]
  refine ⟨?_, ?_, ?_⟩
  · intro span before after hsource hstart
    rw [hposition span before after hsource hstart]
    refine ⟨rfl, Nat.succ_pos _, ?_⟩
    rw [hsource, hstart]
    exact Position.offset?_after before after
  · rintro span span' ⟨before, after, hsource, hstart⟩
      ⟨before', after', hsource', hstart'⟩ hlt
    rw [hposition span before after hsource hstart,
      hposition span' before' after' hsource' hstart']
    rcases List.append_eq_append_iff.mp (hsource.symm.trans hsource') with
      ⟨piece, rfl, -⟩ | ⟨piece, rfl, -⟩
    · apply Position.after_lt_after_append
      rintro rfl
      rw [List.append_nil] at hstart'
      omega
    · rw [bytes_append] at hstart
      omega
  · intro span hend
    have hsize : source.utf8ByteSize = bytes source.toList := by
      rw [← utf8ByteSize_ofList, String.ofList_toList]
    rw [hsize] at hend ⊢
    exact (Position.ofOffset_of_bytes_le (Nat.le_of_lt hend)).trans
      (Position.ofOffset_of_bytes_le (Nat.le_refl _)).symm

theorem position_ofSpan_lines :
    (ofSpan "é\n\nöx\n" ⟨6, 7⟩ "").position = ⟨3, 2⟩ ∧
    (ofSpan "é\n\nöx\n" ⟨6, 7⟩ "").position.offset? "é\n\nöx\n".toList =
      some 6 ∧
    (ofSpan "é\n\nöx\n" ⟨3, 3⟩ "").position <
      (ofSpan "é\n\nöx\n" ⟨6, 7⟩ "").position ∧
    (ofSpan "é\n\nöx\n" ⟨9, 9⟩ "").position =
      (ofSpan "é\n\nöx\n" ⟨8, 8⟩ "").position := by
  obtain ⟨hback, horder, hend⟩ := position_ofSpan "é\n\nöx\n" ""
  have hthird : "é\n\nöx\n".toList = ['é', '\n', '\n', 'ö'] ++ ['x', '\n'] := by
    decide
  have hsecond :
      "é\n\nöx\n".toList = ['é', '\n'] ++ ['\n', 'ö', 'x', '\n'] := by decide
  refine ⟨by decide, (hback ⟨6, 7⟩ _ _ hthird rfl).2.2, ?_, ?_⟩
  · exact horder ⟨3, 3⟩ ⟨6, 7⟩ ⟨_, _, hsecond, rfl⟩ ⟨_, _, hthird, rfl⟩
      (by decide)
  · exact hend ⟨9, 9⟩ (by decide)

end Diagnostic

end LayeredLogic
