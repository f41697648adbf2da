import ExprScan.Proofs.Scan.Tiling
import ExprScan.Scan.Escape
import Mathlib.Order.Bounds.Image

/-! Where a string closes. Reading takes escapes off in pairs from the left, and still the quote that
closes a string can be told from the right: it is the first one behind an even number of backslashes. -/
namespace ExprScan

variable {text body after : List Char} {c : Char} {index : Nat}

private theorem trailingBackslashes_append (before text : List Char) :
    trailingBackslashes (before ++ text) =
      if trailingBackslashes text = text.length then trailingBackslashes before + text.length
      else trailingBackslashes text := by
  rw [trailingBackslashes, List.reverse_append, List.takeWhile_append, List.length_reverse,
    apply_ite List.length, List.length_append, List.length_reverse, Nat.add_comm]
  rfl

private theorem trailingBackslashes_cons_of_ne (h : c ≠ '\\') (text : List Char) :
    trailingBackslashes (c :: text) = trailingBackslashes text := by
  have happend := trailingBackslashes_append [c] text
  have hone : trailingBackslashes [c] = 0 := by simp [trailingBackslashes, h]
  rw [List.singleton_append, hone, Nat.zero_add] at happend
  rw [happend]
  split
  · next he => exact he.symm
  · rfl

/-- Whether what follows a text is escaped does not depend on an escape in front of the text. -/
private theorem trailingBackslashes_escape (c : Char) (text : List Char) :
    trailingBackslashes ('\\' :: c :: text) % 2 = trailingBackslashes text % 2 := by
  have happend := trailingBackslashes_append ['\\', c] text
  have hpair : trailingBackslashes ['\\', c] % 2 = 0 := by
    by_cases h : c = '\\' <;> simp [trailingBackslashes, h]
  rw [List.cons_append, List.singleton_append] at happend
  rw [happend]
  split
  · next he => rw [he, Nat.add_mod, hpair, Nat.zero_add, Nat.mod_mod]
  · rfl

private theorem plainQuoteAt_cons_iff (h : c ≠ '\\') : PlainQuoteAt (c :: text) index ↔
    index = 0 ∧ c = '"' ∨ ∃ later, PlainQuoteAt text later ∧ later + 1 = index := by
  cases index with
  | zero => simp [PlainQuoteAt, trailingBackslashes]
  | succ later => simp [PlainQuoteAt, trailingBackslashes_cons_of_ne h]

private theorem plainQuoteAt_escape_iff : PlainQuoteAt ('\\' :: c :: text) index ↔
    ∃ later, PlainQuoteAt text later ∧ later + 2 = index := by
  match index with
  | 0 => simp [PlainQuoteAt]
  | 1 => simp [PlainQuoteAt, trailingBackslashes]
  | later + 2 => simp [PlainQuoteAt, trailingBackslashes_escape]

private theorem isLeast_add {s t : Set Nat} {least count : Nat} (h : IsLeast s least)
    (ht : ∀ i, i ∈ t ↔ ∃ j, j ∈ s ∧ j + count = i) : IsLeast t (least + count) := by
  have himage : t = (· + count) '' s := Set.ext ht
  have hshift : Monotone (· + count) := fun _ _ hle => Nat.add_le_add_right hle count
  rw [himage]
  exact hshift.map_isLeast h

private theorem isLeast_plainQuoteAt (h : Cut.closeString? text = some (body, after)) :
    ∃ index, body.length = index + 1 ∧ IsLeast {i | PlainQuoteAt text i} index := by
  fun_induction Cut.closeString? text generalizing body with
  | case1 => cases h
  | case2 text =>
    cases h
    refine ⟨0, rfl, (plainQuoteAt_cons_iff (by decide)).mpr (.inl ⟨rfl, rfl⟩), ?_⟩
    intro i _
    exact Nat.zero_le i
  | case3 c text ih =>
    obtain ⟨⟨inner, behind⟩, hr, he⟩ := Option.map_eq_some_iff.mp h
    cases he
    obtain ⟨index, hlength, hleast⟩ := ih hr
    exact ⟨index + 2, by simp [hlength], isLeast_add hleast fun _ => plainQuoteAt_escape_iff⟩
  | case4 c text hq he ih =>
    obtain ⟨⟨inner, behind⟩, hr, hb⟩ := Option.map_eq_some_iff.mp h
    cases hb
    obtain ⟨index, hlength, hleast⟩ := ih hr
    have hc : c ≠ '\\' := by
      rintro rfl
      cases text with
      | nil => cases hr
      | cons d text => exact he d text rfl rfl
    refine ⟨index + 1, by simp [hlength], isLeast_add hleast ?_⟩
    intro i
    exact (plainQuoteAt_cons_iff hc).trans (or_iff_right fun hz => hq hz.2)

private theorem not_plainQuoteAt (h : Cut.closeString? text = none) :
    ¬ PlainQuoteAt text index := by
  fun_induction Cut.closeString? text generalizing index with
  | case1 => simp [PlainQuoteAt]
  | case2 text => cases h
  | case3 c text ih =>
    rw [plainQuoteAt_escape_iff]
    rintro ⟨later, hl, -⟩
    exact ih (Option.map_eq_none_iff.mp h) hl
  | case4 c text hq he ih =>
    have hlater := Option.map_eq_none_iff.mp h
    by_cases hc : c = '\\'
    · cases text with
      | nil => simp [PlainQuoteAt, hc, List.getElem?_cons]
      | cons d text => exact (he d text hc rfl).elim
    · rw [plainQuoteAt_cons_iff hc]
      rintro (⟨-, rfl⟩ | ⟨later, hl, -⟩)
      · exact hq rfl
      · exact ih hlater hl

private theorem closesAt_quote_iff : ClosesAt ('"' :: text) index ↔
    ∃ later, PlainQuoteAt text later ∧ later + 1 = index := by
  rw [ClosesAt, plainQuoteAt_cons_iff (by decide)]
  constructor
  · rintro ⟨hpos, ⟨rfl, -⟩ | hlater⟩
    · exact (Nat.not_succ_le_zero 0 hpos).elim
    · exact hlater
  · rintro ⟨later, hl, rfl⟩
    exact ⟨Nat.succ_le_succ (Nat.zero_le later), .inr ⟨later, hl, rfl⟩⟩

/-- What a piece is that starts with a quote, by the text from there on and the offset of it. -/
structure StringPiece (text : List Char) (start : Offset) (piece : Piece) : Prop where
  closed : ∀ index, IsLeast {i | ClosesAt text i} index → piece.text = text.take (index + 1) ∧
    piece.token? = some ⟨.string, String.ofList (text.take (index + 1))⟩ ∧
    piece.diagnostic? = none
  opened : (∀ index, ¬ ClosesAt text index) → piece.text = text ∧ piece.token? = none ∧
    piece.diagnostic? = some ⟨.unterminatedString, ⟨start, start + byteSize text⟩⟩

private theorem stringPiece (dialect : Dialect) (text : List Char) (start : Offset) :
    StringPiece ('"' :: text) start ((Cut.of dialect '"' text).piece '"' start) := by
  rw [Cut.of_quote, Cut.string]
  cases hc : Cut.closeString? text with
  | none =>
    have hnone (index : Nat) : ¬ ClosesAt ('"' :: text) index := by
      rw [closesAt_quote_iff]
      rintro ⟨later, hl, -⟩
      exact not_plainQuoteAt hc hl
    exact ⟨fun index hleast => (hnone index hleast.1).elim, fun _ => ⟨rfl, rfl, rfl⟩⟩
  | some cut =>
    obtain ⟨last, hlength, hleast⟩ := isLeast_plainQuoteAt hc
    have hfirst : IsLeast {i | ClosesAt ('"' :: text) i} cut.1.length := by
      rw [hlength]
      exact isLeast_add hleast fun _ => closesAt_quote_iff
    have htake : ('"' :: text).take (cut.1.length + 1) = '"' :: cut.1 := by
      rw [List.take_succ_cons, ← Cut.append_of_closeString? hc, List.take_left]
    refine ⟨?_, fun hnone => (hnone _ hfirst.1).elim⟩
    intro index hindex
    rw [hindex.unique hfirst, htake]
    exact ⟨rfl, rfl, rfl⟩

/-- A string ends right behind the first quote that an even number of backslashes stands in front of,
apart from the one that opens it. Where there is none it is a report about all of the rest. -/
theorem scan_string_parity (dialect : Dialect) (source : String) :
    (∀ done piece later, (Scan.ofString dialect source).pieces = done ++ piece :: later →
      piece.text.head? = some '"' →
      StringPiece ((piece :: later).flatMap (·.text)) (byteSize (done.flatMap (·.text))) piece) ∧
    (source.utf8ByteSize < Offset.bound → ∀ scanner : Scanner, scanner.Reached dialect source →
      scanner.reader.peek? = some '"' → ∃ piece after, scanner.Next after ∧
        scanner.Reads piece after ∧
        StringPiece scanner.reader.rest scanner.reader.offset piece) := by
  refine ⟨?_, ?_⟩
  · intro done piece later h hq
    obtain ⟨first, rest, -, rfl, rfl⟩ := pieces_split h
    obtain rfl : first = '"' := Option.some.inj hq
    have hpiece := stringPiece dialect rest (byteSize (done.flatMap (·.text)))
    rw [List.flatMap_cons, Piece.flatMap_text_place, flatMap_text_segments]
    dsimp only [Cut.piece] at hpiece ⊢
    rwa [List.cons_append, Cut.of_more_append_rest]
  · intro hfits scanner hreached hq
    have hrest : scanner.reader.rest ≠ [] := by
      intro hnil
      rw [Reader.peek?, hnil] at hq
      cases hq
    obtain ⟨done, first, text, hcons, hb⟩ := hreached.between_cons hfits hrest
    obtain rfl : first = '"' := by
      rw [Reader.peek?, hcons] at hq
      exact Option.some.inj hq
    rw [hcons]
    exact ⟨_, _, hb.next_iff.mpr rfl, hb.reads, stringPiece dialect text _⟩

/-- A string with an escaped quote and an escaped backslash, and one whose last backslash has nothing
left to escape. -/
theorem scan_string_parity_escapes :
    (∃ piece after, (Scanner.start .standard "\"\\\"\\\\\"x").Next after ∧
      (Scanner.start .standard "\"\\\"\\\\\"x").Reads piece after ∧
      piece.token? = some ⟨.string, "\"\\\"\\\\\""⟩) ∧
    (∃ first last, (Scan.ofString .standard "é\"\\\\\\").pieces = [first, last] ∧
      last.text = "\"\\\\\\".toList ∧
      last.diagnostic? = some ⟨.unterminatedString, ⟨2, 6⟩⟩) := by
  constructor
  · obtain ⟨piece, after, hnext, hreads, hpiece⟩ :=
      (scan_string_parity .standard "\"\\\"\\\\\"x").2 (by decide) _ .refl rfl
    have hleast : IsLeast {i | ClosesAt "\"\\\"\\\\\"x".toList i} 5 := by
      refine ⟨by decide, ?_⟩
      intro i hi
      by_contra hlt
      have hnone : ∀ i < 5, ¬ ClosesAt "\"\\\"\\\\\"x".toList i := by decide
      exact hnone i (Nat.lt_of_not_le hlt) hi
    exact ⟨piece, after, hnext, hreads, (hpiece.closed 5 hleast).2.1⟩
  · have hpieces : (Scan.ofString .standard "é\"\\\\\\").pieces =
        [⟨⟨.fault .unknownCharacter, ['é']⟩, ⟨0, 2⟩⟩] ++
          ⟨⟨.fault .unterminatedString, "\"\\\\\\".toList⟩, ⟨2, 6⟩⟩ :: [] := by
      decide +kernel
    have hnone : ∀ index, ¬ ClosesAt "\"\\\\\\".toList index := by
      intro index h
      have hshort : ∀ i < 4, ¬ ClosesAt "\"\\\\\\".toList i := by decide
      exact hshort index (List.getElem?_eq_some_iff.mp h.2.1).1 h
    obtain ⟨htext, -, hdiagnostic⟩ :=
      ((scan_string_parity .standard "é\"\\\\\\").1 _ _ _ hpieces rfl).opened hnone
    exact ⟨_, _, hpieces, htext, hdiagnostic⟩

end ExprScan
