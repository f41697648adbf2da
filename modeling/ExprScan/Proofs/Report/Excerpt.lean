import ExprScan.Proofs.Scan.Layout
import ExprScan.Proofs.Scan.Tiling
import ExprScan.Proofs.Text.Newlines
import ExprScan.Report.Excerpt

/-! What an excerpt shows, in terms of the text in front of a diagnostic, the text that it is about and
the text behind. The shown line has no carriage returns but the padding counts them, so the carets
stand one column too far to the right for each carriage return in front of them. -/
namespace ExprScan

def beforeBreak (text : List Char) : List Char := text.takeWhile fun c => c ≠ '\n' && c ≠ '\r'

def shown (line : List Char) : List Char := line.filter fun c => c ≠ '\r' && c ≠ '\n'

namespace Excerpt

def around (fault : Fault) (before text after : List Char) : Excerpt where
  number := before.count '\n' + 1
  text := String.ofList (shown (lastLine before ++ firstLine (text ++ after)))
  padding := (lastLine before).length
  carets := max (beforeBreak text).length 1
  message := fault.describe

/-- The part of the shown line that starts at a column and is as long as the mark. -/
def under (excerpt : Excerpt) (column : Nat) : List Char :=
  (excerpt.text.toList.drop column).take excerpt.carets

end Excerpt

variable {dialect : Dialect} {source : String} {diagnostic : Diagnostic}
  {before text after line : List Char}

/-- An excerpt is settled by the three parts of the text. -/
theorem Excerpt.of?_eq (fault : Fault) (h : source.toList = before ++ (text ++ after)) :
    Excerpt.of? source ⟨fault, ⟨byteSize before, byteSize before + byteSize text⟩⟩ =
      some (Excerpt.around fault before text after) := by
  simp only [Excerpt.of?, Excerpt.below?, at?_byteSize h, slice?_lastLine h, slice?_append h,
    Option.bind_eq_bind, Option.bind_some, String.toList_ofList]
  rfl

private theorem exists_text_of_mem_diagnostics
    (h : diagnostic ∈ (Scan.ofString dialect source).diagnostics) :
    ∃ before first more after, source.toList = before ++ (first :: more ++ after) ∧
      isBlank first = false ∧ diagnostic.span =
        ⟨byteSize before, byteSize before + byteSize (first :: more)⟩ := by
  obtain ⟨done, piece, later, hs, hlabel, hspan⟩ := exists_split_of_mem_diagnostics h
  obtain ⟨first, rest, htext, rfl, -⟩ := pieces_split hs
  refine ⟨_, first, _, (Cut.of dialect first rest).rest, ?_, ?_, hspan.symm⟩
  · rw [htext, List.cons_append, Cut.of_more_append_rest]
  · by_contra hb
    change (Cut.of dialect first rest).label = _ at hlabel
    rw [Cut.of_blank (by simpa using hb)] at hlabel
    cases hlabel

theorem shown_append (line more : List Char) : shown (line ++ more) = shown line ++ shown more :=
  List.filter_append ..

private theorem length_shown_add_count (h : '\n' ∉ line) :
    (shown line).length + line.count '\r' = line.length := by
  induction line with
  | nil => rfl
  | cons c line ih =>
    obtain ⟨hc, hm⟩ := not_or.mp (mt List.mem_cons.mpr h)
    have hrest := ih hm
    by_cases hr : c = '\r'
    · subst hr
      rw [List.count_cons_self, List.length_cons, ← hrest]
      rfl
    · have hshown : shown (c :: line) = c :: shown line := by simp [shown, hr, Ne.symm hc]
      rw [hshown, List.count_cons_of_ne hr, List.length_cons, List.length_cons, ← hrest,
        Nat.add_right_comm]

private theorem not_mem_beforeBreak (text : List Char) :
    '\n' ∉ beforeBreak text ∧ '\r' ∉ beforeBreak text := by
  constructor <;>
  · intro hm
    have := List.mem_takeWhile_imp hm
    simp at this

private theorem exists_shown_firstLine (text after : List Char) :
    ∃ rest, shown (firstLine (text ++ after)) = beforeBreak text ++ rest := by
  obtain ⟨rest, hrest⟩ : beforeBreak text <+: text := List.takeWhile_prefix _
  obtain ⟨hnewline, hreturn⟩ := not_mem_beforeBreak text
  have hshown : shown (beforeBreak text) = beforeBreak text := by
    apply List.filter_eq_self.mpr
    intro c hc
    have hplain := List.mem_takeWhile_imp hc
    rwa [Bool.and_comm] at hplain
  refine ⟨shown (firstLine (rest ++ after)), ?_⟩
  conv => lhs; rw [← hrest]
  rw [List.append_assoc, firstLine_append_of_not_mem hnewline, shown_append, hshown]

private theorem ne_break_of_not_isBlank {c : Char} (h : isBlank c = false) :
    c ≠ '\n' ∧ c ≠ '\r' := by
  constructor <;>
  · rintro rfl
    revert h
    decide

namespace Excerpt

private theorem carets_around {first : Char} (hb : isBlank first = false) (fault : Fault)
    (before more after : List Char) :
    (around fault before (first :: more) after).carets = (beforeBreak (first :: more)).length := by
  obtain ⟨hnewline, hreturn⟩ := ne_break_of_not_isBlank hb
  simp [around, beforeBreak, hnewline, hreturn]

/-- The carets cover what they are about from the column on at which the line before it ends as it is
shown. -/
private theorem under_around {first : Char} (hb : isBlank first = false) (fault : Fault)
    (before more after : List Char) :
    (around fault before (first :: more) after).under (shown (lastLine before)).length =
      beforeBreak (first :: more) := by
  obtain ⟨rest, hrest⟩ := exists_shown_firstLine (first :: more) after
  rw [under, carets_around hb, around, String.toList_ofList, shown_append, List.drop_left, hrest,
    List.take_left]

end Excerpt

/-- The carets cover the text of a diagnostic up to its first line break, counted from the column at
which the text is shown. Only carriage returns in front of it in its line lead the padding past that
column. -/
theorem excerpt_under (dialect : Dialect) (source : String) (diagnostic : Diagnostic)
    (h : diagnostic ∈ (Scan.ofString dialect source).diagnostics) :
    ∃ line before text excerpt,
      Line.at? source diagnostic.span.start = some line ∧
      Span.slice? ⟨line.span.start, diagnostic.span.start⟩ source = some before ∧
      diagnostic.span.slice? source = some text ∧
      Excerpt.of? source diagnostic = some excerpt ∧
      diagnostic.render source = excerpt.render ∧
      excerpt.carets = (beforeBreak text.toList).length ∧
      excerpt.under (excerpt.padding - before.toList.count '\r') = beforeBreak text.toList ∧
      ('\r' ∉ before.toList → excerpt.under excerpt.padding = beforeBreak text.toList) := by
  obtain ⟨before, first, more, after, htext, hb, hspan⟩ := exists_text_of_mem_diagnostics h
  obtain ⟨fault, span⟩ := diagnostic
  obtain rfl := hspan
  have hexcerpt := Excerpt.of?_eq fault htext
  have hcount := length_shown_add_count (not_mem_lastLine before)
  have hcolumn : (lastLine before).length - (lastLine before).count '\r' =
      (shown (lastLine before)).length := by omega
  have hunder := Excerpt.under_around hb fault before more after
  rw [← hcolumn] at hunder
  refine ⟨_, _, _, _, at?_byteSize htext, slice?_lastLine htext, slice?_append htext, hexcerpt, ?_,
    ?_, ?_, ?_⟩
  · rw [Diagnostic.render, hexcerpt]
  · rw [String.toList_ofList]
    exact Excerpt.carets_around hb fault before more after
  · rw [String.toList_ofList, String.toList_ofList]
    exact hunder
  · rw [String.toList_ofList, String.toList_ofList]
    intro hreturn
    rwa [List.count_eq_zero.mpr hreturn, Nat.sub_zero] at hunder

theorem excerpt_under_tail : ∃ line before text excerpt,
    Line.at? "é \"a\r\nb" 3 = some line ∧ Span.slice? ⟨line.span.start, 3⟩ "é \"a\r\nb" = some before ∧
    Span.slice? ⟨3, 8⟩ "é \"a\r\nb" = some text ∧
    Excerpt.of? "é \"a\r\nb" ⟨.unterminatedString, ⟨3, 8⟩⟩ = some excerpt ∧
    excerpt.under (excerpt.padding - before.toList.count '\r') = beforeBreak text.toList := by
  obtain ⟨line, before, text, excerpt, hline, hbefore, htext, hexcerpt, -, -, hunder, -⟩ :=
    excerpt_under .standard "é \"a\r\nb" ⟨.unterminatedString, ⟨3, 8⟩⟩ (by decide +kernel)
  exact ⟨line, before, text, excerpt, hline, hbefore, htext, hexcerpt, hunder⟩

/-- Behind a carriage return the carets stand too far to the right. -/
theorem excerpt_under_padding_return :
    ⟨.unknownCharacter, ⟨2, 3⟩⟩ ∈ (Scan.ofString .standard "a\r$").diagnostics ∧
    Span.slice? ⟨2, 3⟩ "a\r$" = some "$" ∧
    ∃ excerpt, Excerpt.of? "a\r$" ⟨.unknownCharacter, ⟨2, 3⟩⟩ = some excerpt ∧
      excerpt.text = "a$" ∧ excerpt.under 1 = beforeBreak ['$'] ∧ excerpt.padding = 2 ∧
      excerpt.under excerpt.padding ≠ beforeBreak ['$'] := by
  refine ⟨by decide +kernel, by decide +kernel, ⟨1, "a$", 2, 1, "Unknown character"⟩, ?_⟩
  decide +kernel

/-- A diagnostic that is shown below its line: the line reaches over the place where the diagnostic
starts, every slice is cut between characters, and no caret stands for nothing. -/
structure Diagnostic.ShownBelow (source : String) (diagnostic : Diagnostic) (line : Line)
    (excerpt : Excerpt) : Prop where
  found : Line.at? source diagnostic.span.start = some line
  inside : line.span.start ≤ diagnostic.span.start ∧ diagnostic.span.start < line.span.stop
  boundary : ∀ offset ∈ [line.span.start, diagnostic.span.start, diagnostic.span.stop],
    String.Pos.Raw.IsValid source ⟨offset⟩
  padding : ∃ before, Span.slice? ⟨line.span.start, diagnostic.span.start⟩ source = some before ∧
    excerpt.padding = before.toList.length
  marked : ∃ text, diagnostic.span.slice? source = some text ∧
    diagnostic.length? = some text.utf8ByteSize ∧
    (∃ first, text.toList.head? = some first ∧ first ≠ '\n' ∧ first ≠ '\r') ∧
    1 ≤ (beforeBreak text.toList).length ∧ excerpt.carets = (beforeBreak text.toList).length
  rendered : diagnostic.render source = excerpt.render

private theorem Diagnostic.show?_eq {line : Line} {excerpt : Excerpt}
    (hline : Line.search? source diagnostic.span.start = some (some line))
    (hfound : Line.at? source diagnostic.span.start = some line)
    (hexcerpt : Excerpt.of? source diagnostic = some excerpt) :
    diagnostic.show? source = some excerpt.render := by
  rw [Excerpt.of?, hfound] at hexcerpt
  have hbelow : Excerpt.below? source diagnostic line = some excerpt := hexcerpt
  simp only [Diagnostic.show?, hline, hbelow, Option.bind_eq_bind, Option.bind_some]
  rfl

private theorem Diagnostic.shownBelow_of_parts {first : Char} {more : List Char} (fault : Fault)
    (h : source.toList = before ++ (first :: more ++ after)) (hb : isBlank first = false) :
    ∃ line, Diagnostic.ShownBelow source
      ⟨fault, ⟨byteSize before, byteSize before + byteSize (first :: more)⟩⟩ line
      (Excerpt.around fault before (first :: more) after) := by
  have hsplit : before.rdropWhile (· ≠ '\n') ++ lastLine before = before :=
    List.rdropWhile_append_rtakeWhile
  have hbreak := ne_break_of_not_isBlank hb
  have hcarets := Excerpt.carets_around hb fault before more after
  refine ⟨_, at?_byteSize h, ?inside, ?boundary, ⟨_, slice?_lastLine h, ?padding⟩,
    ⟨_, slice?_append h, ?length, ?first, ?least, ?carets⟩, ?rendered⟩
  case inside =>
    have hle : byteSize (before.rdropWhile (· ≠ '\n')) ≤ byteSize before :=
      byteSize_le_of_prefix ⟨_, hsplit⟩
    have hpos : 0 < byteSize (firstLine (first :: more ++ after)) :=
      byteSize_firstLine_pos (List.cons_ne_nil _ _)
    exact ⟨hle, Nat.lt_add_of_pos_right hpos⟩
  case boundary =>
    have hline : source.toList = before.rdropWhile (· ≠ '\n') ++
        (lastLine before ++ (first :: more ++ after)) := by
      rw [← List.append_assoc, hsplit, h]
    have hstop : source.toList = (before ++ first :: more) ++ after := by
      rw [h, List.append_assoc]
    have hend := isValid_byteSize hstop
    rw [byteSize_append] at hend
    simp only [List.forall_mem_cons]
    exact ⟨isValid_byteSize hline, isValid_byteSize h, hend, List.forall_mem_nil _⟩
  case padding => rw [String.toList_ofList]; rfl
  case length =>
    rw [← byteSize_toList, String.toList_ofList]
    simp [Diagnostic.length?, Span.length?, Offset.sub?]
  case first =>
    rw [String.toList_ofList]
    exact ⟨first, rfl, hbreak⟩
  case least =>
    rw [String.toList_ofList]
    simp [beforeBreak, hbreak]
  case carets =>
    rw [String.toList_ofList]
    exact hcarets
  case rendered => rw [Diagnostic.render, Excerpt.of?_eq fault h]

/-- Every diagnostic of a scan is shown below its line. As long as the end of the text is a word no check
fails on the way, and the case in which there is no line does not come up. -/
theorem diagnostic_shown (dialect : Dialect) (source : String) (diagnostic : Diagnostic)
    (h : diagnostic ∈ (Scan.ofString dialect source).diagnostics) :
    ∃ line excerpt, diagnostic.ShownBelow source line excerpt ∧
      (source.utf8ByteSize < Offset.bound →
        Line.search? source diagnostic.span.start = some (some line) ∧
        diagnostic.show? source = some excerpt.render) := by
  obtain ⟨before, first, more, after, htext, hb, hspan⟩ := exists_text_of_mem_diagnostics h
  obtain ⟨fault, span⟩ := diagnostic
  obtain rfl := hspan
  obtain ⟨line, hshown⟩ := Diagnostic.shownBelow_of_parts fault htext hb
  refine ⟨line, _, hshown, ?_⟩
  intro hfits
  have hline := Line.search?_eq hfits (byteSize before)
  rw [hshown.found] at hline
  exact ⟨hline, Diagnostic.show?_eq hline hshown.found (Excerpt.of?_eq fault htext)⟩

theorem diagnostic_shown_tail : "é\n \"a\r\nb".utf8ByteSize < Offset.bound ∧
    ⟨.unterminatedString, ⟨4, 9⟩⟩ ∈ (Scan.ofString .standard "é\n \"a\r\nb").diagnostics ∧
    ∃ line excerpt, Diagnostic.ShownBelow "é\n \"a\r\nb" ⟨.unterminatedString, ⟨4, 9⟩⟩ line excerpt ∧
      Line.search? "é\n \"a\r\nb" 4 = some (some line) ∧
      Diagnostic.show? "é\n \"a\r\nb" ⟨.unterminatedString, ⟨4, 9⟩⟩ = some excerpt.render := by
  have hfits : "é\n \"a\r\nb".utf8ByteSize < Offset.bound := by decide
  have hmem : ⟨.unterminatedString, ⟨4, 9⟩⟩ ∈
      (Scan.ofString .standard "é\n \"a\r\nb").diagnostics := by decide +kernel
  obtain ⟨line, excerpt, hshown, hchecked⟩ := diagnostic_shown .standard "é\n \"a\r\nb" _ hmem
  exact ⟨hfits, hmem, line, excerpt, hshown, hchecked hfits⟩

end ExprScan
