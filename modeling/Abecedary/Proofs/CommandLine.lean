import Abecedary.Proofs.Legibility
import Abecedary.Proofs.Lines
import Abecedary.Proofs.RoundTrip
import Abecedary.Proofs.StackHeight
import Abecedary.Proofs.Streaming
import Abecedary.Report

/-!
# The contract of the command line

A report is made of lines (`Text.ofLines`): no token, no error and no list of bytes is written with
a line break in it (`Text.IsLine`). A source that is refused is answered by the tokens that were
read and a line that says what is wrong, and by no other section (`Report.Refuses`); the last token
is the one that is refused, or stands in front of the lexical error. A program is answered by all of
its tokens, its outline and its code (`Report.Accepts`), unless a node of it lies deeper than lines
can be written: then the report ends in the outline (`Report.BreaksOff`). Whether the listing of the
code is logged makes no difference (`command_line_contract`).
-/

namespace Abecedary

/-! ## What is written on a line -/

section Words

open Text

@[simp] theorem Keyword.isLine_spelling (k : Keyword) : IsLine k.spelling := by
  cases k <;> decide

theorem Mark.symbol_ne_newline (m : Mark) : m.symbol ≠ '\n' := by
  cases m <;> decide

@[simp] theorem Position.isLine_wording (p : Position) : IsLine p.wording := by
  simp +decide [wording]

@[simp] theorem TokenKind.isLine_describe (k : TokenKind) : IsLine k.describe := by
  cases k with
  | mark m =>
    rw [describe, isLine_ofList]
    simp [m.symbol_ne_newline.symm]
  | _ => simp +decide [describe]

@[simp] theorem TokenKind.isLine_listing (k : TokenKind) : IsLine k.listing := by
  cases k with
  | mark m => exact isLine_toString_char.2 m.symbol_ne_newline
  | _ => simp +decide [listing]

@[simp] theorem Code.isLine_byteList (c : Code) : IsLine c.byteList := by
  have hbytes : IsLine (", ".intercalate (c.bytes.toList.map fun b => toString b.toNat)) :=
    isLine_intercalate (by decide) (by simp)
  rw [byteList, isLine_append, isLine_append]
  exact ⟨⟨by decide, hbytes⟩, by decide⟩

/-- No syntax error is worded with a line break. -/
theorem SyntaxDefect.isLine_message (d : SyntaxDefect) : IsLine d.message := by
  cases d with
  | expected wanted found =>
    show IsLine ("Expected " ++ wanted.describe ++ ", found " ++ found.describe)
    simp only [isLine_append, TokenKind.isLine_describe, and_true]
    decide
  | trailing found =>
    show IsLine ("Unexpected " ++ found.describe ++ " after program")
    simp only [isLine_append, TokenKind.isLine_describe, and_true]
    decide
  | tooDeep =>
    show IsLine ("Nesting deeper than " ++ nestingLimit.repr ++ " levels")
    simp only [isLine_append, isLine_repr_nat, and_true]
    decide

/-- What is wrong at a place of a text is worded without a line break. -/
theorem LexDefect.Refuses.isLine_message {d : LexDefect} {before rest : List Char}
    (h : d.Refuses before rest) : IsLine d.message := by
  have hquoted (front : String) {word : String} (hfront : IsLine front) (hword : IsLine word) :
      IsLine (front ++ word ++ "'") :=
    isLine_append.2 ⟨isLine_append.2 ⟨hfront, hword⟩, by decide⟩
  cases d with
  | strayCharacter c =>
    refine hquoted "Unexpected character '" (by decide) (isLine_toString_char.2 ?_)
    rintro rfl
    cases h.2.1
  | unknownWord word =>
    obtain ⟨cs, post, -, hrun, rfl, -⟩ := h
    refine hquoted "Unknown identifier '" (by decide) (isLine_ofList.2 fun hmem => ?_)
    obtain ⟨c, hc, hlower⟩ := List.mem_map.1 hmem
    obtain ⟨v, hv⟩ := Text.exists_letter (hrun.all c hc)
    exact v.letter_ne_newline (hv.symm.trans hlower)
  | numberTooLarge digits =>
    obtain ⟨cs, post, -, hrun, rfl, -⟩ := h
    refine hquoted "Invalid integer literal '" (by decide) (isLine_ofList.2 fun hmem => ?_)
    cases hrun.all _ hmem
  | unclosedText => decide
  | badEncoding => exact h.elim

end Words

/-! ## Reports -/

open Text

/-- The line of a token. -/
def Token.line (t : Token) : String := "  " ++ t.kind.listing

/-- The line of an error. -/
def ParseError.line : ParseError → String
  | lexical e => "Lexer error: " ++ e.message
  | syntactic defect position =>
    "Parser error: " ++ (ParseError.syntactic defect position).message

theorem Token.isLine_line (t : Token) : IsLine t.line :=
  isLine_append.2 ⟨by decide, t.kind.isLine_listing⟩

namespace ParseError

theorem isLine_line_syntactic (d : SyntaxDefect) (p : Position) :
    IsLine (syntactic d p).line := by
  show IsLine ("Parser error: " ++ (d.message ++ " at " ++ p.wording))
  simp only [isLine_append, d.isLine_message, p.isLine_wording, and_true, true_and]
  decide

theorem isLine_line_lexical {e : LexError} (h : IsLine e.defect.message) :
    IsLine (lexical e).line := by
  show IsLine ("Lexer error: " ++ (e.defect.message ++ " at " ++ e.position.wording))
  simp only [isLine_append, h, e.position.isLine_wording, and_true, true_and]
  decide

end ParseError

theorem isLine_line_of_tokenize {source : String} {e : LexError} (h : tokenize source = .error e) :
    IsLine (ParseError.lexical e).line := by
  obtain ⟨front, behind, blanks, rest, -, -, -, hd, -⟩ := tokenize_eq_error_iff.1 h
  exact ParseError.isLine_line_lexical hd.isLine_message

namespace Report

/-- The lines that head what comes behind the tokens. -/
def laterHeadings : List String := ["Tree:", "Bytecode:"]

/-- The lines of the token section. -/
def tokenSection (ts : List Token) : List String := "Tokens:" :: ts.map Token.line

/-- A report on a source that is refused: the lines it prints, nothing but tokens and an error among
them, and the exit code of a failure. -/
structure Refuses (r : Report) (lines : List String) : Prop where
  output : r.output = ofLines lines
  isLine : ∀ l ∈ lines, IsLine l
  noHeading : ∀ l ∈ lines, l ∉ laterHeadings
  exitCode : r.exitCode = 1

/-- A report on a program: all of its tokens, its outline and its code, and the exit code of a
success. -/
structure Accepts (r : Report) (ts : List Token) (p : Program) : Prop where
  output : ∃ outline, p.outline? = some outline ∧
    r.output = ofLines (tokenSection ts ++ ["Tree:"]) ++ outline ++
      ofLines ["Bytecode:", p.compile.byteList]
  isLine : ∀ l ∈ tokenSection ts ++ [p.compile.byteList], IsLine l
  exitCode : r.exitCode = 0

/-- A report that breaks off in the outline of a program: all of the tokens, the lines of the tree
in front of the first that is too deep and no section behind them, and the exit code of a run that
breaks off. -/
structure BreaksOff (r : Report) (ts : List Token) (p : Program) : Prop where
  output : ∃ shown deep hidden, p.tree.lines 0 = shown ++ deep :: hidden ∧
    (∀ l ∈ shown, l.depth ≤ Outline.deepest) ∧ Outline.deepest < deep.depth ∧
    r.output = ofLines (tokenSection ts ++ "Tree:" :: shown.map Outline.Line.text)
  isLine : ∀ l ∈ tokenSection ts ++ (p.tree.lines 0).map Outline.Line.text,
    IsLine l ∧ l ∉ laterHeadings
  exitCode : r.exitCode = 101

theorem notMem_laterHeadings {front : String} {c : Char} (back : String)
    (hfront : front.toList.head? = some c) (hc : c ≠ 'T' ∧ c ≠ 'B') :
    front ++ back ∉ laterHeadings := by
  intro hmem
  have hhead : (front ++ back).toList.head? = some c := by
    rw [String.toList_append, List.head?_append, hfront]
    rfl
  simp only [laterHeadings, List.mem_cons, List.not_mem_nil, or_false] at hmem
  rcases hmem with h | h
  · rw [h] at hhead
    exact hc.1 (Option.some.inj hhead).symm
  · rw [h] at hhead
    exact hc.2 (Option.some.inj hhead).symm

theorem line_notMem_laterHeadings (e : ParseError) : e.line ∉ laterHeadings := by
  cases e with
  | lexical e => exact notMem_laterHeadings _ rfl (by decide)
  | syntactic d p => exact notMem_laterHeadings _ rfl (by decide)

theorem forall_mem_tokenSection (ts : List Token) :
    ∀ l ∈ tokenSection ts, IsLine l ∧ l ∉ laterHeadings := by
  rw [tokenSection, List.forall_mem_cons, List.forall_mem_map]
  exact ⟨by decide, fun t _ => ⟨t.isLine_line, notMem_laterHeadings _ rfl (by decide)⟩⟩

/-- Lines that are no later headings, and the line of an error behind them. -/
theorem refuses_of_error {before : List String} {e : ParseError}
    (hbefore : ∀ l ∈ before, IsLine l ∧ l ∉ laterHeadings) (he : IsLine e.line) :
    Refuses ⟨ofLines before ++ errorLine e, 1, none⟩ (before ++ [e.line]) := by
  have herror : errorLine e = e.line ++ "\n" := by cases e <;> rfl
  refine ⟨?_, ?_, ?_, rfl⟩
  · simp [herror]
  · rw [List.forall_mem_append, List.forall_mem_singleton]
    exact ⟨fun l hl => (hbefore l hl).1, he⟩
  · rw [List.forall_mem_append, List.forall_mem_singleton]
    exact ⟨fun l hl => (hbefore l hl).2, line_notMem_laterHeadings e⟩

theorem join_tokenLine (items : List Item) :
    String.join (items.map tokenLine) =
      ofLines ((items.filterMap Except.toOption).map Token.line) := by
  induction items with
  | nil => rfl
  | cons item items ih =>
    rw [List.map_cons, String.join_cons, ih]
    cases item with
    | ok t =>
      have hline : tokenLine (.ok t) = t.line ++ "\n" := rfl
      simp [Except.toOption, hline]
    | error e => exact String.empty_append

theorem filterMap_map_ok (ts : List Token) :
    (ts.map .ok : List Item).filterMap Except.toOption = ts := by
  rw [List.filterMap_map]
  exact List.filterMap_some

/-- Short code can be listed, so that it makes no difference whether the listing is logged. -/
theorem ofCode_eq {p : Program} (hsize : p.compile.size < 2 ^ 32) (logged : Bool)
    (before : String) : ∃ log, ofCode logged before p.compile =
      ⟨before ++ "Bytecode:\n" ++ p.compile.byteList ++ "\n", 0, log⟩ := by
  obtain ⟨listing, hlisting⟩ : ∃ listing, p.compile.listing = .ok listing := by
    rw [Code.listing, p.instructions_compile hsize]
    exact ⟨_, rfl⟩
  cases logged with
  | false => exact ⟨none, rfl⟩
  | true =>
    refine ⟨some listing, ?_⟩
    simp only [ofCode, hlisting]
    rfl

theorem ofProgram_of_le {p : Program} (hheight : p.tree.height ≤ Outline.deepest) (logged : Bool)
    (before : String) : ofProgram logged before p =
      ofCode logged (before ++ "Tree:\n" ++ p.tree.render "") p.compile := by
  rw [ofProgram, if_pos (Program.isWritable_iff.2 hheight), Program.outline_of_le hheight]

theorem ofProgram_of_lt {p : Program} (hheight : Outline.deepest < p.tree.height) (logged : Bool)
    (before : String) : ofProgram logged before p =
      ⟨before ++ "Tree:\n" ++ p.outline, 101, none⟩ := by
  rw [ofProgram, Program.isWritable_eq_false hheight]
  rfl

/-- The report on a text with a program in it. -/
theorem exists_ofText_eq {source : String} {p : Program} (h : parse source = .ok p) :
    ∃ before, ∀ logged, ofText logged source = ofProgram logged before p := by
  have houtcome : (parseItems (Lexer.ofString source).items).outcome = .ok p := h
  simp only [ofText, houtcome]
  exact ⟨_, fun _ => rfl⟩

/-- Whether the listing of short code is logged makes no difference to what is printed. -/
theorem ofText_logged {source : String} (logged : Bool)
    (hshort : ∀ p, parse source = .ok p → p.compile.size < 2 ^ 32) :
    (ofText logged source).output = (ofText false source).output ∧
      (ofText logged source).exitCode = (ofText false source).exitCode := by
  cases hparse : parse source with
  | error e =>
    have houtcome : (parseItems (Lexer.ofString source).items).outcome = .error e := hparse
    simp only [ofText, houtcome]
    exact ⟨trivial, trivial⟩
  | ok p =>
    obtain ⟨before, hreport⟩ := exists_ofText_eq hparse
    rw [hreport, hreport]
    by_cases hheight : p.tree.height ≤ Outline.deepest
    · obtain ⟨log, hlog⟩ :=
        ofCode_eq (hshort p hparse) logged (before ++ "Tree:\n" ++ p.tree.render "")
      rw [ofProgram_of_le hheight, ofProgram_of_le hheight, hlog]
      exact ⟨rfl, rfl⟩
    · have hlt := Nat.lt_of_not_le hheight
      rw [ofProgram_of_lt hlt, ofProgram_of_lt hlt]
      exact ⟨rfl, rfl⟩

/-- The lines of a program are lines, and none of them is a heading. -/
theorem text_of_mem_lines {p : Program} {l : Outline.Line} (hl : l ∈ p.tree.lines 0) :
    IsLine l.text ∧ l.text ∉ laterHeadings := by
  have hindent (depth : Nat) : IsLine (Outline.indent depth) := by
    simp [Outline.indent, isLine_ofList]
  rw [Program.tree, Tree.lines_node, List.mem_cons] at hl
  rcases hl with rfl | hl
  · exact ⟨by decide, by decide⟩
  · obtain ⟨t, ht, hl⟩ := Tree.mem_linesAll.1 hl
    obtain rfl := List.mem_singleton.1 ht
    obtain ⟨hlabel, hdepth⟩ := p.body.legible_tree.of_mem_lines hl
    refine ⟨isLine_append.2 ⟨hindent l.depth, hlabel.isLine⟩, ?_⟩
    -- the line begins with a blank
    obtain ⟨depth, hdepth⟩ : ∃ depth, l.depth = depth + 1 := ⟨l.depth - 1, by omega⟩
    refine notMem_laterHeadings (c := ' ') l.label ?_ (by decide)
    rw [hdepth, Outline.indent, String.toList_ofList, Nat.mul_succ, List.replicate_succ]
    rfl

section Read

variable {logged : Bool} {source : String} {items : List Item} {ts : List Token} {k : Nat}
  (hitems : (Lexer.ofString source).items = items)
  (htokens : (items.take k).filterMap Except.toOption = ts)
include hitems htokens

theorem ofText_of_error {e : ParseError} (hparse : parseItems items = ⟨.error e, k⟩)
    (he : IsLine e.line) : (ofText logged source).Refuses (tokenSection ts ++ [e.line]) := by
  have hreport : ofText logged source =
      ⟨"Tokens:\n" ++ String.join ((items.take k).map tokenLine) ++ errorLine e, 1, none⟩ := by
    simp only [ofText, hitems, hparse]
  have hsection : "Tokens:\n" ++ ofLines (ts.map Token.line) = ofLines (tokenSection ts) := by
    rw [tokenSection, ofLines_cons]
    rfl
  rw [hreport, join_tokenLine, htokens, hsection]
  exact refuses_of_error (forall_mem_tokenSection ts) he

theorem ofText_of_ok {p : Program} (hparse : parseItems items = ⟨.ok p, k⟩) :
    ofText logged source = ofProgram logged (ofLines (tokenSection ts)) p := by
  have hreport : ofText logged source =
      ofProgram logged ("Tokens:\n" ++ String.join ((items.take k).map tokenLine)) p := by
    simp only [ofText, hitems, hparse]
  rw [hreport, join_tokenLine, htokens, tokenSection, ofLines_cons]
  rfl

end Read

theorem accepts_ofProgram {p : Program} (hheight : p.tree.height ≤ Outline.deepest)
    (hsize : p.compile.size < 2 ^ 32) (logged : Bool) (ts : List Token) :
    (ofProgram logged (ofLines (tokenSection ts)) p).Accepts ts p := by
  rw [ofProgram_of_le hheight]
  obtain ⟨log, hlog⟩ :=
    ofCode_eq hsize logged (ofLines (tokenSection ts) ++ "Tree:\n" ++ p.tree.render "")
  rw [hlog]
  refine ⟨⟨_, Program.outline?_of_le hheight, ?_⟩, ?_, rfl⟩
  · simp [String.append_assoc]
  · rw [List.forall_mem_append, List.forall_mem_singleton]
    exact ⟨fun l hl => (forall_mem_tokenSection ts l hl).1, p.compile.isLine_byteList⟩

theorem breaksOff_ofProgram {p : Program} (hheight : Outline.deepest < p.tree.height)
    (logged : Bool) (ts : List Token) :
    (ofProgram logged (ofLines (tokenSection ts)) p).BreaksOff ts p := by
  rw [ofProgram_of_lt hheight]
  have hfits : p.lines.all Outline.Line.fits = false := Program.isWritable_eq_false hheight
  obtain ⟨shown, deep, hidden, hlines, hshown, hdeep, hwrite⟩ := Outline.exists_write_eq hfits
  rw [p.lines_eq] at hlines
  refine ⟨⟨shown, deep, hidden, hlines, hshown, hdeep, ?_⟩, ?_, rfl⟩
  · simp [Program.outline, hwrite, String.append_assoc]
  · rw [List.forall_mem_append, List.forall_mem_map]
    exact ⟨forall_mem_tokenSection ts, fun l hl => text_of_mem_lines hl⟩

/-- The report on bytes that are no text is one line. -/
theorem refuses_badEncoding (p : Position) :
    Refuses ⟨errorLine (.lexical ⟨.badEncoding, p⟩), 1, none⟩
      ["Lexer error: Source is not valid UTF-8 at " ++ p.wording] := by
  have hline : (ParseError.lexical ⟨.badEncoding, p⟩).line =
      "Lexer error: Source is not valid UTF-8 at " ++ p.wording := by
    show "Lexer error: " ++ ("Source is not valid UTF-8" ++ " at " ++ p.wording) = _
    rw [← String.append_assoc, ← String.append_assoc]
    rfl
  have he : IsLine (ParseError.lexical ⟨.badEncoding, p⟩).line :=
    ParseError.isLine_line_lexical (by show IsLine LexDefect.badEncoding.message; decide)
  have hnil : ∀ l ∈ ([] : List String), IsLine l ∧ l ∉ laterHeadings := nofun
  have hrefuses := refuses_of_error hnil he
  rwa [ofLines_nil, String.empty_append, List.nil_append, hline] at hrefuses

end Report

/-! ## Sources -/

open Abecedary.Parser Abecedary.Report in
/-- **The contract of the command line.** Bytes that are no text and texts that are no program are
refused; a program is answered in full if none of its nodes lies too deep, and otherwise the report
breaks off in the outline. Whether the listing of the code is logged makes no difference. -/
theorem command_line_contract (logged : Bool) (input : ByteArray) :
    (¬ input.IsValidUTF8 → (ofSource logged input).Refuses
        ["Lexer error: Source is not valid UTF-8 at " ++
          (Position.after (wellFormedPrefix input)).wording]) ∧
      (∀ source : String, source.toByteArray = input → match parse source with
        | .error (.lexical e) => ∃ front : List Token,
            (Lexer.ofString source).items = front.map .ok ++ [.error e] ∧
            (ofSource logged input).Refuses
              (tokenSection front ++ ["Lexer error: " ++ e.message])
        | .error (.syntactic d position) => ∃ before t rest,
            (Lexer.ofString source).items = before.map .ok ++ .ok t :: rest ∧
            (∀ t ∈ before, t.kind ≠ .eof) ∧ d.At t.kind ∧ position = t.span.position ∧
            (ofSource logged input).Refuses (tokenSection (before ++ [t]) ++
              ["Parser error: " ++ (d.message ++ " at " ++ position.wording)])
        | .ok p => ∃ front last,
            (∀ t ∈ front, t.kind ≠ .eof) ∧ last.kind = .eof ∧
            tokenize source = .ok (front ++ [last]) ∧
            (p.tree.height ≤ Outline.deepest → p.compile.size < 2 ^ 32 →
              (ofSource logged input).Accepts (front ++ [last]) p) ∧
            (Outline.deepest < p.tree.height →
              (ofSource logged input).BreaksOff (front ++ [last]) p)) ∧
      ((∀ source p, source.toByteArray = input → parse source = .ok p → p.compile.size < 2 ^ 32) →
        (ofSource logged input).output = (ofSource false input).output ∧
        (ofSource logged input).exitCode = (ofSource false input).exitCode) := by
  refine ⟨fun hinput => ?_, ?_, fun hshort => ?_⟩
  · have hdecode : decodeSource input = .error ⟨.badEncoding, .after (wellFormedPrefix input)⟩ := by
      rw [decodeSource, String.fromUTF8?, dif_neg hinput]
    rw [ofSource, hdecode]
    exact refuses_badEncoding _
  · rintro source rfl
    rw [ofSource, decodeSource_eq_ok_iff.2 rfl]
    obtain ⟨front, last, hitems, hfront, hlast, htokens⟩ := exists_items_eq source
    have hends := ends_parseItems hfront hlast []
    rw [parse, hitems]
    generalize hparse : parseItems (front.map .ok ++ [last]) = r at hends
    cases hends with
    | @accepted p t h =>
      subst h
      have hitems' : (Lexer.ofString source).items = (front ++ [t]).map .ok := by simpa using hitems
      have hread : (((front ++ [t]).map .ok : List Item).take (front.length + 1)).filterMap
          Except.toOption = front ++ [t] := by
        rw [List.take_of_length_le (by simp), filterMap_map_ok]
      have hparse' : parseItems ((front ++ [t]).map .ok) = ⟨.ok p, front.length + 1⟩ := by
        simpa using hparse
      have hreport : ofText logged source =
          ofProgram logged (ofLines (tokenSection (front ++ [t]))) p :=
        ofText_of_ok hitems' hread hparse'
      refine ⟨front, t, hfront, hlast, htokens, fun hheight hsize => ?_, fun hheight => ?_⟩
      · show (ofText logged source).Accepts (front ++ [t]) p
        rw [hreport]
        exact accepts_ofProgram hheight hsize logged (front ++ [t])
      · show (ofText logged source).BreaksOff (front ++ [t]) p
        rw [hreport]
        exact breaksOff_ofProgram hheight logged (front ++ [t])
    | @lexical e h =>
      subst h
      have hread : ((front.map .ok ++ [.error e] : List Item).take (front.length + 1)).filterMap
          Except.toOption = front := by
        rw [List.take_of_length_le (by simp), List.filterMap_append, filterMap_map_ok]
        exact List.append_nil front
      exact ⟨front, rfl, ofText_of_error hitems hread hparse (isLine_line_of_tokenize htokens)⟩
    | @syntactic d before t rest h hbefore hd =>
      have hread : ((front.map .ok ++ [last] : List Item).take (before.length + 1)).filterMap
          Except.toOption = before ++ [t] := by
        have hsplit : front.map .ok ++ [last] = (before ++ [t]).map .ok ++ rest := by simpa using h
        rw [hsplit, List.take_left' (by simp), filterMap_map_ok]
      exact ⟨before, t, rest, h, hbefore, hd, rfl,
        ofText_of_error hitems hread hparse (ParseError.isLine_line_syntactic d _)⟩
  · unfold ofSource
    cases hdecode : decodeSource input with
    | error e => exact ⟨rfl, rfl⟩
    | ok source =>
      exact ofText_logged logged fun p hp => hshort source p (decodeSource_eq_ok_iff.1 hdecode) hp

/-- The report on `while (a) a = "é";`, with the listing of its code logged. -/
theorem command_line_contract_of_loop :
    let a : Variable := ⟨0⟩
    let p : Program := ⟨.whileDo (.var a) (.expr (.assign a (.text "é")))⟩
    p.tree.height ≤ Outline.deepest ∧ p.compile.size < 2 ^ 32 ∧ parse p.print = .ok p ∧
      ∃ front last, last.kind = .eof ∧ tokenize p.print = .ok (front ++ [last]) ∧
        (Report.ofSource true p.print.toByteArray).Accepts (front ++ [last]) p := by
  intro a p
  have hheight : p.tree.height ≤ Outline.deepest := by decide
  have hsize : p.compile.size < 2 ^ 32 := by
    rw [Program.size_compile]
    decide
  have hparse : parse p.print = .ok p :=
    parse_print (by simp [p, Stmt.Canonical, Expr.Spellable]) (by decide)
  have hreport := (command_line_contract true p.print.toByteArray).2.1 p.print rfl
  rw [hparse] at hreport
  obtain ⟨front, last, -, hlast, htokens, haccepts, -⟩ := hreport
  exact ⟨hheight, hsize, hparse, front, last, hlast, htokens, haccepts hheight hsize⟩

/-! ### Blocks that are too long -/

namespace Stmt

theorem canonical_empties (n : Nat) :
    (empties n).Canonical ∧ (empties n).innermost = empty ∧ (empties n).within ≤ 1 := by
  induction n with
  | zero => exact ⟨trivial, rfl, Nat.zero_le 1⟩
  | succ n ih =>
    obtain ⟨hcanonical, hinnermost, hwithin⟩ := ih
    exact ⟨⟨hinnermost, hcanonical, trivial⟩, hinnermost, Nat.max_le.2 ⟨hwithin, Nat.le_refl 1⟩⟩

theorem blockTokens_empties (n : Nat) :
    (empties n).blockTokens = List.replicate n (.mark .semicolon) := by
  induction n with
  | zero => rfl
  | succ n ih => rw [empties, blockTokens, ih, List.replicate_succ', tokens]

theorem width_empties (n : Nat) : (empties n).width = 0 := by
  induction n with
  | zero => rfl
  | succ n ih => rw [empties, width, ih]; rfl

end Stmt

/-- The text of a block of some empty statements, with a blank behind every character. -/
def emptiesText (n : Nat) : String :=
  "\x7b " ++ String.join (List.replicate n "; ") ++ "\x7d "

namespace Program

theorem print_empties (n : Nat) : (mk (.empties (n + 1))).print = emptiesText (n + 1) := by
  have htokens : (Stmt.empties (n + 1)).tokens =
      .mark .openBrace :: List.replicate (n + 1) (.mark .semicolon) ++ [.mark .closeBrace] := by
    rw [← Stmt.blockTokens_empties]
    rfl
  have hjoin : (String.join (List.replicate (n + 1) "; ")).toList =
      (List.replicate (n + 1) [';', ' ']).flatten := by
    simp [List.flatMap_replicate]
  rw [← String.toList_inj, print, htokens, render, String.toList_ofList, renderChars, emptiesText]
  simp only [List.cons_append, List.flatMap_cons, List.flatMap_append, List.flatMap_replicate,
    String.toList_append, hjoin]
  rfl

theorem parse_empties (n : Nat) : parse (emptiesText (n + 1)) = .ok ⟨.empties (n + 1)⟩ := by
  obtain ⟨hcanonical, -, hwithin⟩ := Stmt.canonical_empties (n + 1)
  rw [← print_empties]
  exact parse_print hcanonical (Nat.le_trans (Nat.succ_le_succ hwithin) (by decide))

end Program

/-- A block of 32767 statements is a program of one byte of code, and the report on it breaks
off. -/
theorem report_on_long_block :
    let source := emptiesText 32767
    let p : Program := ⟨.empties 32767⟩
    parse source = .ok p ∧ p.compile.size = 1 ∧
      (Report.ofSource false source.toByteArray).exitCode = 101 := by
  intro source p
  have hparse : parse source = .ok p := Program.parse_empties 32766
  have hsize : p.compile.size = 1 := by
    rw [Program.size_compile, Stmt.width_empties]
  obtain ⟨before, hreport⟩ := Report.exists_ofText_eq hparse
  refine ⟨hparse, hsize, ?_⟩
  rw [Report.ofSource, decodeSource_eq_ok_iff.2 rfl]
  show (Report.ofText false source).exitCode = 101
  rw [hreport, Report.ofProgram_of_lt]
  rw [Program.height_empties]
  decide

end Abecedary
