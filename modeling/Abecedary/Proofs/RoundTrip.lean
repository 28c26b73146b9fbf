import Abecedary.Proofs.Brevity
import Abecedary.Proofs.FirstOffence
import Abecedary.Proofs.Spelling

/-!
# The image of parsing

The trees that some text is parsed to are the canonical ones whose nesting is within the limit, and
each of them is parsed back from the text that it is printed as (`parse_image`). The printer writes
no parentheses that could be left out: no shorter word derives the tree.
-/

namespace Abecedary

/-- A program as a text: sequences are blocks, and the only parentheses are those without which it
would be parsed to something else. -/
def Program.print (p : Program) : String := render p.body.tokens

theorem parse_print {p : Program} (h : p.body.Canonical) (hn : p.body.nesting ≤ nestingLimit) :
    parse p.print = .ok p := by
  have hspell := (Stmt.spellable_tokens h).1
  have hrest : (Lexer.ofString p.print).rest = [] ++ renderChars p.body.tokens := by
    simp [Lexer.ofString, Program.print, render]
  obtain ⟨ts, hts, hkinds⟩ := items_renderChars hspell (by simp) hrest
  have hsentence : sentence ts = p.body.tokens := by
    rw [sentence, hkinds]
    exact Parser.takeWhile_append_eof [] fun heof => hspell _ heof
  have hparse : parse p.print = parseTokens ts := by rw [parse, hts, parseTokens]
  rw [hparse]
  exact Parser.parseTokens_of_derives (hsentence ▸ Stmt.statement_tokens h hn)

theorem canonical_of_parse {source : String} {p : Program} (h : parse source = .ok p) :
    p.body.Canonical ∧ p.body.nesting ≤ nestingLimit := by
  obtain ⟨before, hbefore, hp⟩ := Parser.derives_of_parseItems h
  refine Grammar.Statement.needs hp ?_
  intro k hk
  obtain ⟨t, ht, rfl⟩ := List.mem_map.1 hk
  exact spellable_of_mem_items (hbefore t ht).1 (hbefore t ht).2

/-- **The image of parsing**, and printing back what is in it. -/
theorem parse_image (p : Program) :
    ((∃ source, parse source = .ok p) ↔
        p.body.Canonical ∧ p.body.nesting ≤ nestingLimit) ∧
      (p.body.Canonical → p.body.nesting ≤ nestingLimit → parse p.print = .ok p) ∧
      ∀ n w, Grammar.Statement n w p.body → p.body.tokens.length ≤ w.length := by
  refine ⟨⟨?_, ?_⟩, parse_print, fun n w hw => hw.length_tokens_le⟩
  · rintro ⟨source, h⟩
    exact canonical_of_parse h
  · rintro ⟨h, hn⟩
    exact ⟨p.print, parse_print h hn⟩

/-- A dangling `if` inside a block, and operands that are printed between parentheses. -/
theorem parse_image_of_nested_branches :
    let a : Variable := ⟨0⟩
    let b : Variable := ⟨1⟩
    let value : Expr := .binary (.assign b (.constant 1)) .add
      (.binary (.constant 2) .subtract (.binary (.var a) .less (.text "x")))
    let p : Program := ⟨.whileDo (.var a)
      (.ifElse (.var b) (.seq .empty (.ifThen (.var a) .empty)) (.expr (.assign a value)))⟩
    p.body.Canonical ∧ p.body.nesting ≤ nestingLimit ∧ parse p.print = .ok p := by
  intro a b value p
  have hcanonical : p.body.Canonical := by
    simp [p, value, Stmt.Canonical, Expr.Spellable, Stmt.innermost, Stmt.endsOpen]
  have hnesting : p.body.nesting ≤ nestingLimit := by decide
  exact ⟨hcanonical, hnesting, (parse_image p).2.1 hcanonical hnesting⟩

end Abecedary
