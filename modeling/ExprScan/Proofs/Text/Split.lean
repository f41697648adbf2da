import ExprScan.Proofs.Scan.Loops
import ExprScan.Proofs.Text.Slice
import ExprScan.Text.Split

/-! A reader that looks ahead gives the answers of a text that is cut in two. What it holds never
shows: it reads as a scanner does that looks at the text itself, and that one moves the cut. -/
namespace ExprScan

namespace Reader

namespace Buffered

variable {reader ahead : Buffered} {c : Char}

private theorem peek_eq (reader : Buffered) :
    reader.peek.1 = reader.place.peek? ∧ reader.peek.2.place = reader.place := by
  obtain ⟨hhead, htext⟩ := reader.characters.look_eq
  constructor
  · rw [peek, hhead, List.head?_eq_getElem?]
    rfl
  · exact congrArg (Reader.mk · reader.offset) htext

private theorem peekSecond?_eq (reader : Buffered) :
    reader.peekSecond? = reader.place.peekSecond? := by
  rw [peekSecond?, (Lookahead.read_eq _).1, (Lookahead.read_eq _).2, List.head?_tail]
  rfl

private theorem place_next? (reader : Buffered) :
    reader.next?.map (Prod.map id place) = reader.place.advance? := by
  obtain ⟨hhead, htail⟩ := reader.characters.read_eq
  rw [next?, place, advance?]
  split
  · next characters he =>
    rw [he] at hhead htail
    have hnil := List.head?_eq_none_iff.mp hhead.symm
    simp only [hnil] at htail ⊢
    simp [place, htail]
  · next c characters he =>
    rw [he] at hhead htail
    obtain ⟨rest, hcons⟩ := List.head?_eq_some_iff.mp hhead.symm
    simp only [hcons] at htail ⊢
    cases reader.offset.add? c.utf8Size <;> simp [place, htail]

private theorem place_accept? (reader : Buffered) (c : Char) :
    (reader.accept? c).map (Prod.map id place) = reader.place.advanceIf? c := by
  obtain ⟨hpeek, hplace⟩ := reader.peek_eq
  have hnext := reader.peek.2.place_next?
  rw [hplace] at hnext
  simp only [accept?, advanceIf?, hpeek]
  split
  · rw [← hnext]
    cases reader.peek.2.next? <;> simp
  · simp [hplace]

private theorem place_of_peek {c? : Option Char} (h : reader.peek = (c?, ahead)) :
    reader.place.peek? = c? ∧ ahead.place = reader.place := by
  obtain ⟨hpeek, hplace⟩ := reader.peek_eq
  rw [h] at hpeek hplace
  exact ⟨hpeek.symm, hplace⟩

private theorem advanceWhile?_round (p : Char → Bool) (reader : Reader) :
    Reader.advanceWhile? p reader.rest reader.offset =
      if reader.peek?.any p then
        reader.advance?.bind fun found => Reader.advanceWhile? p found.2.rest found.2.offset
      else some reader := by
  obtain ⟨rest, offset⟩ := reader
  cases rest with
  | nil => rfl
  | cons c rest =>
    by_cases hc : p c
    · cases ho : offset.add? c.utf8Size <;>
        simp [Reader.advanceWhile?, advance?, Reader.peek?, hc, ho]
    · simp [Reader.advanceWhile?, Reader.peek?, hc]

private theorem place_advanceWhile? (p : Char → Bool) (reader : Buffered) :
    (reader.advanceWhile? p).map place =
      Reader.advanceWhile? p reader.place.rest reader.place.offset := by
  -- each round looks first, which leaves the place as it is, and so the rounds of both are the same
  fun_induction Buffered.advanceWhile? p reader with
  | case1 reader ahead hp =>
    obtain ⟨hpeek, hplace⟩ := place_of_peek hp
    rw [advanceWhile?_round, hpeek, Option.map_some, hplace]
    rfl
  | case2 reader c ahead hp hc hn =>
    obtain ⟨hpeek, hplace⟩ := place_of_peek hp
    rw [advanceWhile?_round, hpeek, Option.any_some, if_pos hc, ← hplace, ← place_next?, hn]
    rfl
  | case3 reader c ahead hp hc c? after hn ih =>
    obtain ⟨hpeek, hplace⟩ := place_of_peek hp
    rw [advanceWhile?_round, hpeek, Option.any_some, if_pos hc, ← hplace, ← place_next?, hn]
    exact ih
  | case4 reader c ahead hp hc =>
    obtain ⟨hpeek, hplace⟩ := place_of_peek hp
    rw [advanceWhile?_round, hpeek, Option.any_some, if_neg hc, Option.map_some, hplace]

private theorem place_skipWhile? (reader : Buffered) (p : Char → Bool) :
    (reader.skipWhile? p).map (Prod.map id place) = reader.place.countWhile? p := by
  have hadvance := place_advanceWhile? p reader
  rw [skipWhile?, countWhile?, ← hadvance]
  cases reader.advanceWhile? p with
  | none => rfl
  | some after => cases ho : after.offset.sub? reader.offset <;> simp [place, ho]

end Buffered

end Reader

namespace Split

variable {text : List Char} {c : Char}

private theorem fits_place (h : byteSize text < Offset.bound) (split : Split text) :
    split.place.Fits := by
  rw [place, Reader.fits_mk, ← byteSize_append, split.joined]
  exact h

private theorem place_advance (split : Split text) (count : Nat) : (split.advance count).place =
    ⟨split.rest.drop count, split.place.offset + byteSize (split.rest.take count)⟩ := by
  simp [place, advance]

private theorem advance?_place (h : byteSize text < Offset.bound) (split : Split text) :
    split.place.advance? = some (split.rest[0]?, (split.advance 1).place) := by
  have hfits := split.fits_place h
  rw [place_advance]
  rw [place] at hfits ⊢
  cases hrest : split.rest with
  | nil => rfl
  | cons c rest =>
    rw [hrest] at hfits
    simp [Reader.advance?_cons hfits]

private theorem advanceIf?_place (h : byteSize text < Offset.bound) (split : Split text)
    (c : Char) :
    split.place.advanceIf? c =
      some (if split.rest[0]? = some c then (true, (split.advance 1).place)
        else (false, split.place)) := by
  have hpeek : split.place.peek? = split.rest[0]? := rfl
  rw [Reader.advanceIf?, hpeek, advance?_place h]
  split <;> rfl

private theorem countWhile?_place (h : byteSize text < Offset.bound) (split : Split text)
    (p : Char → Bool) :
    split.place.countWhile? p = some (byteSize (split.rest.takeWhile p),
      (split.advance (split.rest.takeWhile p).length).place) := by
  have htake : (split.rest.takeWhile p ++ split.rest.dropWhile p).take
      (split.rest.takeWhile p).length = split.rest.takeWhile p := List.take_left
  have hdrop : (split.rest.takeWhile p ++ split.rest.dropWhile p).drop
      (split.rest.takeWhile p).length = split.rest.dropWhile p := List.drop_left
  rw [List.takeWhile_append_dropWhile] at htake hdrop
  rw [place_advance, htake, hdrop]
  exact Reader.countWhile?_eq p (split.fits_place h)

end Split

namespace Reader

variable {text : List Char} {state after : Backtrack Buffered} {split : Backtrack (Split text)}
  {cut : Split text} {reader : Buffered}

/-- A reader and a cut stand at the same place, and so do all their marks. -/
def Follows (state : Backtrack Buffered) (split : Backtrack (Split text)) : Prop :=
  state.map Buffered.place = split.map Split.place

private theorem Follows.current (h : Follows state split) :
    state.current.place = split.current.place :=
  congrArg Backtrack.current h

private theorem Follows.move (h : Follows state split) (hp : reader.place = cut.place) :
    Follows ⟨reader, state.marks⟩ ⟨cut, split.marks⟩ := by
  have hmarks := congrArg Backtrack.marks h
  simp only [Backtrack.map] at hmarks
  simp [Follows, Backtrack.map, hp, hmarks]

private theorem Follows.take {α : Type} {result : Option (α × Buffered)} {found : α}
    (h : Follows state split)
    (hr : result.map (Prod.map id Buffered.place) = some (found, cut.place)) (answer : α → Answer) :
    ∃ after, (result.bind fun taken => some (answer taken.1, Backtrack.mk taken.2 state.marks)) =
      some (answer found, after) ∧ Follows after ⟨cut, split.marks⟩ := by
  obtain ⟨⟨taken, reader⟩, rfl, he⟩ := Option.map_eq_some_iff.mp hr
  obtain ⟨rfl, hp⟩ := Prod.mk.inj he
  exact ⟨_, rfl, h.move hp⟩

private theorem Follows.perform? (hfits : byteSize text < Offset.bound) (h : Follows state split)
    (move : Move) : ∃ after, perform? state move = some ((Split.perform split move).1, after) ∧
      Follows after (Split.perform split move).2 := by
  have hcurrent := h.current
  cases move with
  | next =>
    have hnext := state.current.place_next?
    rw [hcurrent, Split.advance?_place hfits] at hnext
    exact h.take hnext .character
  | peek =>
    obtain ⟨hpeek, hplace⟩ := state.current.peek_eq
    rw [hcurrent] at hpeek hplace
    refine ⟨⟨state.current.peek.2, state.marks⟩, ?_, h.move hplace⟩
    exact congrArg (fun c? => some (Answer.character c?, _)) hpeek
  | peekSecond =>
    have hpeek := state.current.peekSecond?_eq
    rw [hcurrent] at hpeek
    exact ⟨state, congrArg (fun c? => some (Answer.character c?, _)) hpeek, h⟩
  | accept c =>
    have haccept := state.current.place_accept? c
    rw [hcurrent, Split.advanceIf?_place hfits] at haccept
    rw [Split.perform]
    split at haccept
    · next hc =>
      rw [if_pos hc]
      exact h.take haccept .accepted
    · next hc =>
      rw [if_neg hc]
      exact h.take haccept .accepted
  | skipWhile p =>
    have hskip := state.current.place_skipWhile? p
    rw [hcurrent, Split.countWhile?_place hfits] at hskip
    exact h.take hskip .skipped
  | save =>
    have hsave := congrArg Backtrack.save h
    rw [Backtrack.map_save, Backtrack.map_save, Prod.mk.injEq] at hsave
    obtain ⟨hdepth, hafter⟩ := hsave
    exact ⟨state.save.2, congrArg (fun depth => some (Answer.saved depth, _)) hdepth, hafter⟩
  | restore =>
    have hrestore := congrArg Backtrack.restore h
    rw [Backtrack.map_restore, Backtrack.map_restore, Prod.mk.injEq] at hrestore
    obtain ⟨hanswer, hafter⟩ := hrestore
    exact ⟨state.restore.2, congrArg (fun answer => some (Answer.restored answer, _)) hanswer,
      hafter⟩

private theorem Follows.offset_of_mem {source : String} {split : Backtrack (Split source.toList)}
    (h : Follows state split) (hm : reader ∈ state.positions) :
    String.Pos.Raw.IsValid source ⟨reader.offset⟩ ∧ reader.offset ≤ source.utf8ByteSize := by
  have hpositions : state.positions.map Buffered.place = split.positions.map Split.place :=
    congrArg Backtrack.positions h
  obtain ⟨cut, -, hcut⟩ := List.mem_map.mp (hpositions ▸ List.mem_map_of_mem hm)
  have hoffset : reader.offset = byteSize cut.consumed := (congrArg Reader.offset hcut).symm
  rw [hoffset, ← byteSize_toList]
  exact ⟨isValid_byteSize cut.joined.symm, byteSize_le_of_prefix ⟨_, cut.joined⟩⟩

/-- What holds after one move holds after all of them. -/
theorem Follows.run (hfits : byteSize text < Offset.bound) (h : Follows state split)
    (moves : List Move) : answers state moves = Split.answers split moves ∧
      ∃ after, reach? state moves = some after ∧ Follows after (Split.reach split moves) := by
  induction moves generalizing state split with
  | nil => exact ⟨rfl, state, rfl, h⟩
  | cons move moves ih =>
    obtain ⟨between, hperform, hbetween⟩ := h.perform? hfits move
    obtain ⟨hanswers, after, hreach, hafter⟩ := ih hbetween
    refine ⟨?_, after, ?_, hafter⟩
    · have hoffset := congrArg Reader.offset hbetween.current
      rw [answers, hperform]
      exact List.cons_eq_cons.mpr ⟨congrArg (Prod.mk _) hoffset, hanswers⟩
    · rw [reach?, List.foldlM_cons, hperform]
      exact hreach

private theorem reach?_append (state : Backtrack Buffered) (moves more : List Move) :
    reach? state (moves ++ more) = (reach? state moves).bind (reach? · more) :=
  List.foldlM_append

private theorem marks_of_perform? {move : Move} {answer : Answer} (hs : move ≠ .save)
    (hr : move ≠ .restore) (h : perform? state move = some (answer, after)) :
    after.marks = state.marks := by
  cases move with
  | next | accept _ | skipWhile _ =>
    obtain ⟨_, -, he⟩ := Option.bind_eq_some_iff.mp h
    cases he
    rfl
  | peek | peekSecond =>
    cases h
    rfl
  | save => exact (hs rfl).elim
  | restore => exact (hr rfl).elim

/-- Going back to a mark gives the reader that was marked, whatever it has done since. -/
theorem reach?_marked {inner : List Move} (more : List Move)
    (hm : ∀ after, reach? state.save.2 inner = some after → after.marks = state.save.2.marks) :
    reach? state (.save :: (inner ++ .restore :: more)) =
      (reach? state.save.2 inner).bind fun _ => reach? state more := by
  have hsave : reach? state (.save :: (inner ++ .restore :: more)) =
      reach? state.save.2 (inner ++ .restore :: more) := rfl
  rw [hsave, reach?_append]
  cases hi : reach? state.save.2 inner with
  | none => rfl
  | some after =>
    have hrestore : after.restore.2 = state := by
      simp [Backtrack.restore, hm after hi, Backtrack.save]
    have hmore : reach? after (.restore :: more) = reach? after.restore.2 more := rfl
    rw [Option.bind_some, Option.bind_some, hmore, hrestore]

private theorem Balanced.marks {moves : List Move} (hb : Balanced moves)
    (h : reach? state moves = some after) : after.marks = state.marks := by
  induction hb generalizing state after with
  | nil =>
    cases h
    rfl
  | move hs hr _ ih =>
    obtain ⟨between, hbetween, hlater⟩ := Option.bind_eq_some_iff.mp h
    obtain ⟨⟨answer, _⟩, hperform, rfl⟩ := Option.map_eq_some_iff.mp hbetween
    exact (ih hlater).trans (marks_of_perform? hs hr hperform)
  | marked _ _ ihInner ihLater =>
    rw [reach?_marked _ fun _ hi => ihInner hi] at h
    obtain ⟨_, -, hlater⟩ := Option.bind_eq_some_iff.mp h
    exact ihLater hlater

end Reader

private theorem Split.eraseIdx_answers_insertIdx {text : List Char} {state : Backtrack (Split text)}
    {look : Reader.Move} (hl : ∀ state : Backtrack (Split text), (perform state look).2 = state)
    (moves : List Reader.Move) (i : Nat) :
    (answers state (moves.insertIdx i look)).eraseIdx i = answers state moves := by
  induction moves generalizing state i with
  | nil =>
    cases i with
    | zero => rfl
    | succ i => rfl
  | cons move moves ih =>
    cases i with
    | zero => exact congrArg (answers · (move :: moves)) (hl state)
    | succ i => exact congrArg _ (ih i)

/-- A reader cannot be told from a text that is cut in two. A look gives what is behind the cut,
wherever it is made, and all other moves are answered as without it. No offset fails to be a word:
at every step the reader and all its marks stand at cuts, each as many bytes into the text as are in
front of the cut. A reader that goes back to a mark is the one that set it. -/
theorem reader_refines_split (source : String) (h : source.utf8ByteSize < Offset.bound)
    (moves : List Reader.Move) :
    Reader.answers (.start (.ofString source)) moves =
      Split.answers (.start (.start source.toList)) moves ∧
    (∀ look, look = .peek ∨ look = .peekSecond → ∀ i,
      (Reader.answers (.start (.ofString source)) (moves.insertIdx i look)).eraseIdx i =
        Reader.answers (.start (.ofString source)) moves) ∧
    ∃ state, Reader.reach? (.start (.ofString source)) moves = some state ∧
      state.map Reader.Buffered.place =
        (Split.reach (.start (.start source.toList)) moves).map Split.place ∧
      (∀ reader ∈ state.positions, String.Pos.Raw.IsValid source ⟨reader.offset⟩ ∧
        reader.offset ≤ source.utf8ByteSize) ∧
      ∀ inner, Reader.Balanced inner →
        Reader.reach? state (.save :: (inner ++ [.restore])) = some state := by
  have hfits : byteSize source.toList < Offset.bound := by rwa [byteSize_toList]
  have hstart : Reader.Follows (.start (.ofString source)) (.start (.start source.toList)) := rfl
  obtain ⟨hanswers, state, hreach, hfollows⟩ := hstart.run hfits moves
  refine ⟨hanswers, ?_, state, hreach, hfollows, ?_, ?_⟩
  · intro look hlook i
    have hstill (split : Backtrack (Split source.toList)) : (Split.perform split look).2 = split := by
      rcases hlook with rfl | rfl <;> rfl
    rw [(hstart.run hfits _).1, hanswers, Split.eraseIdx_answers_insertIdx hstill]
  · intro reader hm
    exact hfollows.offset_of_mem hm
  · intro inner hb
    obtain ⟨-, after, hafter, -⟩ := hfollows.run hfits (.save :: inner)
    have hinner : Reader.reach? state.save.2 inner = some after := hafter
    rw [Reader.reach?_marked [] fun _ hi => hb.marks hi, hinner]
    rfl

/-- The second mark is given up in front of the digits. The first one was set when the first character
was held already. -/
theorem reader_refines_split_marks : "é12".utf8ByteSize < Offset.bound ∧
    Reader.answers (.start (.ofString "é12"))
        [.peek, .save, .next, .save, .peekSecond, .restore, .skipWhile Char.isDigit, .restore,
          .accept 'é'] =
      [(.character 'é', 0), (.saved 1, 0), (.character 'é', 2), (.saved 2, 2), (.character '2', 2),
        (.restored true, 2), (.skipped 2, 4), (.restored true, 0), (.accepted true, 2)] ∧
    (Reader.answers (.start (.ofString "é12")) [.peekSecond, .next]).eraseIdx 0 =
      Reader.answers (.start (.ofString "é12")) [.next] ∧
    ∃ state, Reader.reach? (.start (.ofString "é12")) [.peek] = some state ∧
      Reader.reach? state [.save, .next, .restore] = some state := by
  have hfits : "é12".utf8ByteSize < Offset.bound := by decide
  refine ⟨hfits, ?_, ?_, ?_⟩
  · exact (reader_refines_split "é12" hfits _).1.trans (by decide)
  · exact (reader_refines_split "é12" hfits [.next]).2.1 .peekSecond (.inr rfl) 0
  · obtain ⟨-, -, state, hreach, -, -, hmarked⟩ := reader_refines_split "é12" hfits [.peek]
    exact ⟨state, hreach, hmarked [.next] (.move (by simp) (by simp) .nil)⟩

end ExprScan
