import ExprScan.Text.Span

/-! Slices by bytes. A span that is laid along some characters of a text takes out these
characters. -/
namespace ExprScan

/-- Bytes are counted as the UTF-8 form of a text counts them. -/
theorem byteSize_toList (source : String) : byteSize source.toList = source.utf8ByteSize := by
  have hlist (text : List Char) : byteSize text = (String.ofList text).utf8ByteSize := by
    induction text with
    | nil => rfl
    | cons c text ih =>
      rw [byteSize_cons, ih]
      simp
  rw [hlist, String.ofList_toList]

/-- The bytes of the first characters of a text end between two characters. -/
theorem isValid_byteSize {source : String} {before more : List Char}
    (h : source.toList = before ++ more) : String.Pos.Raw.IsValid source ⟨byteSize before⟩ := by
  rw [String.Pos.Raw.isValid_iff_exists_append]
  refine ⟨String.ofList before, String.ofList more, ?_, ?_⟩
  · rw [← String.ofList_append, ← h, String.ofList_toList]
  · rw [← String.toList_ofList (l := before), byteSize_toList, String.toList_ofList]
    rfl

theorem byteSize_le_of_prefix {text longer : List Char} (h : text <+: longer) :
    byteSize text ≤ byteSize longer := by
  obtain ⟨rest, rfl⟩ := h
  rw [byteSize_append]
  exact Nat.le_add_right _ _

private theorem splitAtByte?_append (before rest : List Char) :
    splitAtByte? (byteSize before) (before ++ rest) = some (before, rest) := by
  induction before with
  | nil => simp [splitAtByte?]
  | cons c before ih =>
    obtain ⟨count, hc⟩ : ∃ count, c.utf8Size + byteSize before = count + 1 :=
      Nat.exists_eq_succ_of_ne_zero (by have := c.utf8Size_pos; omega)
    have hle : c.utf8Size ≤ count + 1 := by omega
    have hrest : count + 1 - c.utf8Size = byteSize before := by omega
    simp [hc, splitAtByte?, hle, hrest, ih]

private theorem readTo?_append (before rest : List Char) (offset : Nat) :
    Reader.readTo? ⟨before ++ rest, offset⟩ (offset + byteSize before) =
      some (before, ⟨rest, offset + byteSize before⟩) := by
  simp [Reader.readTo?, Offset.sub?, splitAtByte?_append]

/-- The bytes behind `before` that `text` fills are a slice, and it is `text`. -/
theorem slice?_append {source : String} {before text after : List Char}
    (h : source.toList = before ++ (text ++ after)) :
    Span.slice? ⟨byteSize before, byteSize before + byteSize text⟩ source =
      some (String.ofList text) := by
  have hfirst := readTo?_append before (text ++ after) 0
  rw [Nat.zero_add] at hfirst
  simp [Span.slice?, Reader.ofString, h, hfirst, readTo?_append]

end ExprScan
