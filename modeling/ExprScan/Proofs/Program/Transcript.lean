import ExprScan.Program.Transcript
import ExprScan.Proofs.Scan.Tiling

/-! The flags of a run do not change what comes of it. They choose among the records of the run that
tells all, and the log of that run is in the order of the text. -/
namespace ExprScan

variable {dialect : Dialect} {source : String} {options others : Options}
  {records : List (Offset × Record)} {entry : Offset × Record} {pieces : List Piece}

section merge

variable {later : List (Offset × Record)}

private theorem mergeByOffset_cons_left (h : ∀ other ∈ records, entry.1 ≤ other.1) :
    mergeByOffset (entry :: later) records = entry.2 :: mergeByOffset later records := by
  cases records with
  | nil => simp [mergeByOffset]
  | cons other records =>
    rw [mergeByOffset, List.cons_merge_cons_pos _ _ _ (decide_eq_true (h other List.mem_cons_self))]
    rfl

/-- At equal offsets the first list goes first, so here the others must start further on. -/
private theorem mergeByOffset_cons_right (h : ∀ other ∈ records, entry.1 < other.1) :
    mergeByOffset records (entry :: later) = entry.2 :: mergeByOffset records later := by
  cases records with
  | nil => simp [mergeByOffset]
  | cons other records =>
    have hlt : ¬ other.1 ≤ entry.1 := Nat.not_le.mpr (h other List.mem_cons_self)
    rw [mergeByOffset, List.cons_merge_cons_neg _ _ _ (by simpa using hlt)]
    rfl

end merge

namespace Scan

private theorem traces_cons (piece : Piece) (later : List Piece) : (mk (piece :: later)).traces =
    (piece.token?.map fun token => (piece.span.start, .log .trace token.display)).toList ++
      (mk later).traces := by
  rw [traces, placedTokens, filterMap_cons_toList]
  cases piece.token? <;> rfl

private theorem reports_cons (piece : Piece) (later : List Piece) : (mk (piece :: later)).reports =
    (piece.diagnostic?.map fun diagnostic =>
      (diagnostic.span.start, .log .debug diagnostic.display)).toList ++ (mk later).reports := by
  rw [reports, diagnostics, filterMap_cons_toList]
  cases piece.diagnostic? <;> rfl

private theorem exists_piece_of_mem_traces (h : entry ∈ (mk pieces).traces) :
    ∃ piece ∈ pieces, entry.1 = piece.span.start := by
  obtain ⟨placed, hm, rfl⟩ := List.mem_map.mp h
  obtain ⟨piece, hp, hplaced⟩ := List.mem_filterMap.mp hm
  obtain ⟨token, -, rfl⟩ := Option.map_eq_some_iff.mp hplaced
  exact ⟨piece, hp, rfl⟩

private theorem exists_piece_of_mem_reports (h : entry ∈ (mk pieces).reports) :
    ∃ piece ∈ pieces, entry.1 = piece.span.start := by
  obtain ⟨diagnostic, hm, rfl⟩ := List.mem_map.mp h
  obtain ⟨piece, hp, hd⟩ := List.mem_filterMap.mp hm
  refine ⟨piece, hp, ?_⟩
  rw [(Piece.diagnostic?_eq_some_iff.mp hd).2]

private theorem filterMap_record?_eq_merge
    (h : pieces.Pairwise fun earlier later => earlier.span.start < later.span.start) :
    pieces.filterMap Piece.record? = mergeByOffset (mk pieces).traces (mk pieces).reports := by
  induction pieces with
  | nil => simp [traces, reports, placedTokens, diagnostics, mergeByOffset]
  | cons piece later ih =>
    obtain ⟨hfirst, hlater⟩ := List.pairwise_cons.mp h
    rw [filterMap_cons_toList, ih hlater, traces_cons, reports_cons]
    -- whatever the first piece is, all records of the other kind are about pieces further on
    cases hl : piece.label with
    | blank => simp [Piece.record?, Piece.token?, Piece.diagnostic?, hl]
    | token kind =>
      simp only [Piece.record?, Piece.token?, Piece.diagnostic?, hl, Option.map_some,
        Option.map_none, Option.toList_some, Option.toList_none, List.nil_append,
        List.singleton_append]
      rw [mergeByOffset_cons_left]
      intro other ho
      obtain ⟨behind, hb, he⟩ := exists_piece_of_mem_reports ho
      rw [he]
      exact Nat.le_of_lt (hfirst behind hb)
    | fault fault =>
      simp only [Piece.record?, Piece.token?, Piece.diagnostic?, hl, Option.map_some,
        Option.map_none, Option.toList_some, Option.toList_none, List.nil_append,
        List.singleton_append]
      rw [mergeByOffset_cons_right]
      intro other ho
      obtain ⟨behind, hb, he⟩ := exists_piece_of_mem_traces ho
      rw [he]
      exact hfirst behind hb

private theorem starts_increasing (dialect : Dialect) (source : String) :
    (ofString dialect source).pieces.Pairwise fun earlier later =>
      earlier.span.start < later.span.start := by
  have htiling := scan_pieces_tiling dialect source
  refine htiling.increasing.imp_of_mem ?_
  intro earlier later hm _ hle
  obtain ⟨done, behind, hs⟩ := List.append_of_mem hm
  exact Nat.lt_of_lt_of_le (htiling.inside hs).1 hle

/-- The log of a scan tells of the tokens and the diagnostics by offset. -/
theorem records_eq_merge (dialect : Dialect) (source : String) :
    (ofString dialect source).records =
      mergeByOffset (ofString dialect source).traces (ofString dialect source).reports ++
        [(ofString dialect source).summary] := by
  rw [records, filterMap_record?_eq_merge (starts_increasing dialect source)]
  rfl

end Scan

/-- A scanner has found the tokens and diagnostics of some first pieces of its text, and has said this
by offset and nothing else. -/
structure Scanner.Tells (dialect : Dialect) (source : String) (found : Scan) (scanner : Scanner) :
    Prop where
  pieces : found.pieces <+: (Scan.ofString dialect source).pieces
  tokens : scanner.tokens = found.tokens
  diagnostics : scanner.diagnostics = found.diagnostics
  records : scanner.records = mergeByOffset found.traces found.reports

/-- A scanner never says more or less than what it has found. -/
theorem Scanner.Reached.tells {scanner : Scanner} (hfits : source.utf8ByteSize < Offset.bound)
    (h : scanner.Reached dialect source) : ∃ found, scanner.Tells dialect source found := by
  rw [← byteSize_toList] at hfits
  obtain ⟨done, rest, hb⟩ := h.between hfits
  have hprefix : done <+: (Scan.ofString dialect source).pieces := ⟨_, hb.pieces.symm⟩
  have hstarts := (Scan.starts_increasing dialect source).sublist hprefix.sublist
  refine ⟨⟨done⟩, hprefix, ?_, ?_, ?_⟩
  · exact (congrArg Scanner.tokens hb.notes).trans (by simp [note, moveTo, start, Scan.tokens])
  · exact (congrArg Scanner.diagnostics hb.notes).trans
      (by simp [note, moveTo, start, Scan.diagnostics])
  · rw [← Scan.filterMap_record?_eq_merge hstarts]
    exact (congrArg Scanner.records hb.notes).trans (by simp [note, moveTo, start])

private def LogOnly (list : List Record) : Prop :=
  ∀ record ∈ list, ∃ level message, record = .log level message

private theorem logOnly_append_log {list : List Record} (h : LogOnly list) (level : Level)
    (message : String) : LogOnly (list ++ [.log level message]) := by
  intro record hm
  rcases List.mem_append.mp hm with hm | hm
  · exact h record hm
  · exact ⟨level, message, List.mem_singleton.mp hm⟩

private theorem Scan.logOnly_log (scan : Scan) : LogOnly scan.log := by
  refine logOnly_append_log (logOnly_append_log ?_ _ _) _ _
  intro record hm
  obtain ⟨piece, -, hp⟩ := List.mem_filterMap.mp hm
  rw [Piece.record?] at hp
  split at hp
  · exact ⟨_, _, (Option.some.inj hp).symm⟩
  · exact ⟨_, _, (Option.some.inj hp).symm⟩
  · cases hp

private theorem Reading.logOnly_log {start : Cursor} (reading : Reading start) :
    LogOnly reading.log := by
  refine logOnly_append_log (logOnly_append_log ?_ _ _) _ _
  intro record hm
  obtain ⟨step, -, rfl⟩ := List.mem_map.mp hm
  exact ⟨_, _, rfl⟩

private theorem Scan.filter_rendered {p : Record → Bool} {admitted : Bool} (scan : Scan)
    (source : String) (h : ∀ lines, p (.diagnostic lines) = admitted) :
    (scan.rendered source).filter p = if admitted then scan.rendered source else [] := by
  cases admitted with
  | true =>
    have hall : ∀ record ∈ scan.rendered source, p record = true :=
      List.forall_mem_map.mpr fun _ _ => h _
    rw [if_pos rfl, List.filter_eq_self.mpr hall]
  | false =>
    have hnone : ∀ record ∈ scan.rendered source, ¬ p record = true :=
      List.forall_mem_map.mpr fun _ _ => by simp [h]
    rw [if_neg Bool.false_ne_true, List.filter_eq_nil_iff.mpr hnone]

private theorem Verdict.filter_failure {p : Record → Bool} (h : ∀ text, p (.failure text) = true)
    (verdict : Verdict) : verdict.failure.filter p = verdict.failure := by
  cases verdict with
  | accepted => rfl
  | rejected failure => simp [Verdict.failure, h]

namespace Options

private theorem outspoken_admits (options : Options) (record : Record) :
    options.outspoken.admits record := by
  cases record with
  | log level message => cases level <;> rfl
  | diagnostic lines => rfl
  | failure text => rfl

/-- A run keeps of its log what its flags admit. -/
theorem keeps_log (options : Options) (level : Level) (message : String) :
    options.keeps (.log level message) = options.admits (.log level message) := by
  cases level <;> rfl

private theorem filter_keeps {list : List Record} (h : LogOnly list) :
    list.filter options.keeps = list.filter options.admits := by
  apply List.filter_congr
  intro record hm
  obtain ⟨level, message, rfl⟩ := h record hm
  exact options.keeps_log level message

/-- The records of a run, part by part: diagnostics are shown between the log of the scan and the log
of the reading, and the failure comes last. -/
theorem records_evaluate (options : Options) (source : String) :
    (options.evaluate source).records =
      (Scan.ofString options.dialect source).log.filter options.admits ++
      (if options.diagnostics then (Scan.ofString options.dialect source).rendered source else []) ++
      (recognize (Scan.ofString options.dialect source).tokens).log.filter options.admits ++
      (recognize (Scan.ofString options.dialect source).tokens).verdict.failure := by
  have hparts : (options.evaluate source).records =
      ((Scan.ofString options.dialect source).log ++
        (if options.diagnostics then (Scan.ofString options.dialect source).rendered source
          else []) ++
        (recognize (Scan.ofString options.dialect source).tokens).log ++
        (recognize (Scan.ofString options.dialect source).tokens).verdict.failure).filter
          options.keeps := by
    rw [evaluate]
    split <;> simp [Scan.log, Reading.log, Scan.rendered]
  have hrendered := Scan.filter_rendered (p := options.keeps)
    (Scan.ofString options.dialect source) source (fun _ => rfl)
  rw [hparts, List.filter_append, List.filter_append, List.filter_append,
    filter_keeps (Scan.logOnly_log _), filter_keeps (Reading.logOnly_log _),
    Verdict.filter_failure fun _ => rfl]
  split
  · rw [hrendered, if_pos rfl]
  · rfl

/-- What a run tells is what its flags admit of what it tells with all flags set. -/
theorem filter_admits_outspoken (options others : Options) (source : String)
    (h : options.noPrintKeyword = others.noPrintKeyword) :
    (others.outspoken.evaluate source).records.filter options.admits =
      (options.evaluate source).records := by
  have hdialect : others.outspoken.dialect = options.dialect := congrArg (Dialect.mk !·) h.symm
  have hall (list : List Record) : list.filter others.outspoken.admits = list :=
    List.filter_eq_self.mpr fun record _ => others.outspoken_admits record
  have hflag : others.outspoken.diagnostics = true := rfl
  rw [records_evaluate, records_evaluate, hdialect, hall, hall, if_pos hflag, List.filter_append,
    List.filter_append, List.filter_append, Verdict.filter_failure fun _ => rfl,
    Scan.filter_rendered _ _ fun _ => rfl]

private theorem run_of_read {m : Type → Type} [Monad m] [LawfulMonad m] {host : Host m}
    (h : options.origin.read host = pure (.ok source)) :
    options.run host = pure (options.evaluate source) := by
  simp [run, h]

end Options

/-- Flags change neither the output nor the code of a run. They choose among the records that the run
has with all flags set. Those are the log of the scan, by offset, then the diagnostics, one for each
and in the order of the text, then the log of the reading, and then the failure. -/
theorem run_observability {m : Type → Type} [Monad m] [LawfulMonad m] (host elsewhere : Host m)
    (options others : Options) (source : String)
    (hread : options.origin.read host = pure (.ok source))
    (hother : others.origin.read elsewhere = pure (.ok source))
    (h : options.noPrintKeyword = others.noPrintKeyword) :
    options.run host = pure (options.evaluate source) ∧
    others.run elsewhere = pure (others.evaluate source) ∧
    others.outspoken.run elsewhere = pure (others.outspoken.evaluate source) ∧
    (options.evaluate source).stdout = (others.evaluate source).stdout ∧
    (options.evaluate source).code = (others.evaluate source).code ∧
    (options.evaluate source).records =
      (others.outspoken.evaluate source).records.filter options.admits ∧
    (options.evaluate source).records =
      (Scan.ofString options.dialect source).log.filter options.admits ++
      (if options.diagnostics then (Scan.ofString options.dialect source).rendered source else []) ++
      (recognize (Scan.ofString options.dialect source).tokens).log.filter options.admits ++
      (recognize (Scan.ofString options.dialect source).tokens).verdict.failure ∧
    (Scan.ofString options.dialect source).log =
      mergeByOffset (Scan.ofString options.dialect source).traces
        (Scan.ofString options.dialect source).reports ++
      [(Scan.ofString options.dialect source).summary, .log .info "Scanner finished"] ∧
    ((Scan.ofString options.dialect source).diagnostics.Pairwise fun earlier later =>
      earlier.span.stop ≤ later.span.start) ∧
    (source.utf8ByteSize < Offset.bound →
      ∀ scanner : Scanner, scanner.Reached options.dialect source →
        (∃ found, scanner.Tells options.dialect source found) ∧
        (scanner.reader.rest = [] →
          scanner.finish.records = (Scan.ofString options.dialect source).records)) := by
  have houtspoken : others.outspoken.origin.read elsewhere = pure (.ok source) := hother
  have hdialect : options.dialect = others.dialect := congrArg (Dialect.mk !·) h
  refine ⟨Options.run_of_read hread, Options.run_of_read hother, Options.run_of_read houtspoken,
    ?_, ?_, (Options.filter_admits_outspoken options others source h).symm,
    Options.records_evaluate options source, ?_,
    (scan_pieces_tiling options.dialect source).inPlace.increasing, ?_⟩
  · rw [Outcome.stdout, Outcome.stdout, Options.evaluate, Options.evaluate, hdialect]
  · rw [Options.evaluate, Options.evaluate, hdialect]
  · rw [Scan.log, Scan.records_eq_merge, List.append_assoc]
    rfl
  · intro hfits scanner hreached
    have hcompletes : Scanner.Completes options.dialect source := .of_fits hfits
    exact ⟨hreached.tells hfits, fun hrest => (hcompletes.result scanner hreached hrest).2.2.2⟩

/-- At verbosity 1 only what is for information is left of the log. Under quiet nothing is, whatever the
verbosity, but diagnostics are still shown. -/
theorem run_observability_input :
    Options.run (m := Id) ⟨fun _ => .error .notFound, .ok "1 $".toUTF8⟩ { verbosity := 1 } =
      Options.evaluate { verbosity := 1 } "1 $" ∧
    (Options.evaluate { verbosity := 1 } "1 $").stdout =
      (Options.evaluate { diagnostics := true, quiet := true, verbosity := 3 } "1 $").stdout ∧
    (Options.evaluate { verbosity := 1 } "1 $").records =
      (Options.evaluate { diagnostics := true, verbosity := 3 } "1 $").records.filter
        (Options.admits { verbosity := 1 }) ∧
    (Options.evaluate { verbosity := 1 } "1 $").records =
      [.log .info "Scanner finished", .log .info "Recognizer finished"] ∧
    (Options.evaluate { diagnostics := true, quiet := true, verbosity := 3 } "1 $").records =
      (Options.evaluate { diagnostics := true, verbosity := 3 } "1 $").records.filter
        (Options.admits { diagnostics := true, quiet := true, verbosity := 3 }) ∧
    (Options.evaluate { diagnostics := true, quiet := true, verbosity := 3 } "1 $").records =
      [.diagnostic ["1| 1 $", " |   ^--- Unknown character"]] := by
  obtain ⟨hrun, -, -, hstdout, -, hterse, -⟩ := run_observability (m := Id)
    ⟨fun _ => .error .notFound, .ok "1 $".toUTF8⟩ ⟨fun _ => .error .notFound, .error .notUtf8⟩
    { verbosity := 1 }
    { expression? := some "1 $", diagnostics := true, quiet := true, verbosity := 3 } "1 $"
    rfl rfl rfl
  obtain ⟨-, -, -, -, -, hquiet, -⟩ := run_observability (m := Id)
    ⟨fun _ => .error .notFound, .error .notUtf8⟩ ⟨fun _ => .error .notFound, .ok "1 $".toUTF8⟩
    { expression? := some "1 $", diagnostics := true, quiet := true, verbosity := 3 }
    { verbosity := 1 } "1 $" rfl rfl rfl
  exact ⟨hrun, hstdout, hterse, by decide +kernel, hquiet, by decide +kernel⟩

end ExprScan
