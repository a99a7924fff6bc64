import CallExpr.Proofs.Lossless
import CallExpr.Source.Peg
import Mathlib.Data.List.ReduceOption

/-!
# The grammar of lexemes and the scanner

* `Peg.Parses.unique`: a parsing expression has one result.
* `Lexeme.exists_parses`: what the grammar finds from some byte on, by induction from quote to quote.
* `Lexeme.scanned_iff`: the grammar matches every source, and finds in it what the scanner finds.
* `Lexeme.scan_lossless`: scanning and writing lexemes are inverse to each other, and a source is refused just if its
  last quote has no partner.
-/

namespace CallExpr

/-! ## Parsing expressions -/

namespace Peg

variable {ρ : Type} {rules : Rules ρ} {e : Peg ρ} {offset : Nat} {cs : List Char} {r r' : Option (Match ρ)}

/-- **A parsing expression has one result.** -/
theorem Parses.unique (h : Parses rules e offset cs r) (h' : Parses rules e offset cs r') : r = r' := by
  induction h generalizing r' with
  | start cs =>
    cases h' with
    | start => rfl
    | start_later hne => exact absurd rfl hne
  | start_later hne =>
    cases h' with
    | start => exact absurd rfl hne
    | start_later => rfl
  | finish | finish_cons | any | any_nil => cases h'; rfl
  | char =>
    cases h' with
    | char => rfl
    | char_ne hne => exact absurd rfl hne
  | char_ne hne =>
    cases h' with
    | char => exact absurd rfl hne
    | char_ne => rfl
  | seq _ _ iha ihb =>
    cases h' with
    | seq ha hb =>
      obtain rfl := Option.some.inj (iha ha)
      rw [ihb hb]
    | seq_fail ha => cases iha ha
  | seq_fail _ iha =>
    cases h' with
    | seq ha _ => cases iha ha
    | seq_fail => rfl
  | choice_first _ iha =>
    cases h' with
    | choice_first ha => exact iha ha
    | choice_second ha _ => cases iha ha
  | choice_second _ _ iha ihb =>
    cases h' with
    | choice_first ha => cases iha ha
    | choice_second _ hb => exact ihb hb
  | star_cons _ _ ihe ihstar =>
    cases h' with
    | star_cons he hstar =>
      obtain rfl := Option.some.inj (ihe he)
      rw [ihstar hstar]
    | star_nil he => cases ihe he
  | star_nil _ ihe =>
    cases h' with
    | star_cons he _ => cases ihe he
    | star_nil => rfl
  | optional _ ihe =>
    cases h' with
    | optional he => exact ihe he
    | optional_none he => cases ihe he
  | optional_none _ ihe =>
    cases h' with
    | optional he => cases ihe he
    | optional_none => rfl
  | notAhead _ ihe =>
    cases h' with
    | notAhead => rfl
    | notAhead_fail he => cases ihe he
  | notAhead_fail _ ihe =>
    cases h' with
    | notAhead he => cases ihe he
    | notAhead_fail => rfl
  | rule _ ih =>
    cases h' with
    | rule h => rw [ih h]

theorem Parses.andThen {a b : Peg ρ} {m n : Match ρ} (ha : Parses rules a offset cs (some m))
    (hb : Parses rules b (offset + Lexeme.byteSize m.taken) m.rest (some n)) :
    Parses rules (.seq a b) offset cs (some (m.andThen n)) :=
  .seq ha hb

/-- A repetition of any character takes all of them. -/
theorem parses_star_any (rules : Rules ρ) (cs : List Char) (offset : Nat) :
    Parses rules (.star .any) offset cs (some ⟨[], cs, []⟩) := by
  induction cs generalizing offset with
  | nil => exact .star_nil (.any_nil offset)
  | cons c cs ih => exact .star_cons (.any offset c cs) (ih _)

end Peg

namespace Lexeme

open Peg (Parses)

variable {offset : Nat} {c : Char} {cs content rest : List Char}

/-! ## Rules that match -/

/-- A rule that matches gives one part. -/
theorem parses_part (name : Rule) {m : Peg.Match Rule} (h : Parses grammar (grammar.body name) offset cs (some m)) :
    Parses grammar (.rule name) offset cs (some (m.asPart grammar name offset)) :=
  .rule h

theorem parses_unquoted (hc : c ≠ quoteMark) : Parses grammar unquoted offset (c :: cs) (some (.one c cs)) := by
  have hne : (c :: cs).head? ≠ some quoteMark := fun h => hc (Option.some.inj h)
  exact .seq (.notAhead (.char_ne hne)) (.any offset c cs)

/-- The end of a text: a quote, or the end of the source. -/
def EndsText (rest : List Char) : Prop :=
  ∀ c ∈ rest.head?, c = quoteMark

theorem endsText_nil : EndsText [] :=
  nofun

theorem unquoted_fails (h : EndsText rest) : Parses grammar unquoted offset rest none := by
  cases rest with
  | nil => exact .seq (.notAhead (.char_ne (by simp))) (.any_nil offset)
  | cons c rest =>
    obtain rfl := h c rfl
    exact .seq_fail (.notAhead_fail (.char offset quoteMark rest))

/-- A repetition goes on up to the next quote. -/
theorem parses_star_unquoted (hcs : quoteMark ∉ cs) (hrest : EndsText rest) (offset : Nat) :
    Parses grammar (.star unquoted) offset (cs ++ rest) (some ⟨[], cs, rest⟩) := by
  induction cs generalizing offset with
  | nil => exact .star_nil (unquoted_fails hrest)
  | cons c cs ih =>
    simp only [List.mem_cons, not_or] at hcs
    exact .star_cons (parses_unquoted (Ne.symm hcs.1)) (ih hcs.2 _)

theorem parses_text (hcs : quoteMark ∉ c :: cs) (hrest : EndsText rest) (offset : Nat) :
    Parses grammar (.rule .text) offset (c :: cs ++ rest) (some ⟨[.mk .text offset (c :: cs) []], c :: cs, rest⟩) := by
  simp only [List.mem_cons, not_or] at hcs
  have hfirst : Parses grammar unquoted offset (c :: cs ++ rest) (some _) := parses_unquoted (Ne.symm hcs.1)
  exact parses_part .text (hfirst.andThen (parses_star_unquoted hcs.2 hrest _))

theorem parses_literal (hcontent : quoteMark ∉ content) (rest : List Char) (offset : Nat) :
    Parses grammar (.rule .literal) offset (quoteMark :: (content ++ quoteMark :: rest))
      (some ⟨[.mk .literal offset (quoteMark :: content ++ [quoteMark])
        [.mk .content (offset + byteSize [quoteMark]) content []]], quoteMark :: content ++ [quoteMark], rest⟩) := by
  have hends : EndsText (quoteMark :: rest) := fun _ h => (Option.some.inj h).symm
  have hopening : Parses grammar quote offset (quoteMark :: (content ++ quoteMark :: rest)) (some _) :=
    .char offset quoteMark _
  have hstar := parses_part .content (parses_star_unquoted hcontent hends (offset + byteSize [quoteMark]))
  have hclosing : Parses grammar quote (offset + byteSize (quoteMark :: content)) (quoteMark :: rest) (some _) :=
    .char _ quoteMark rest
  exact parses_part .literal ((hopening.andThen hstar).andThen hclosing)

theorem parses_unterminated (cs : List Char) (offset : Nat) :
    Parses grammar (.rule .unterminated) offset (quoteMark :: cs)
      (some ⟨[.mk .unterminated offset (quoteMark :: cs) []], quoteMark :: cs, []⟩) := by
  have hopening : Parses grammar quote offset (quoteMark :: cs) (some _) := .char offset quoteMark cs
  exact parses_part .unterminated (hopening.andThen (Peg.parses_star_any grammar cs _))

theorem parses_finish (offset : Nat) :
    Parses grammar (.rule .finish) offset [] (some ⟨[.mk .finish offset [] []], [], []⟩) :=
  parses_part .finish (.finish offset)

/-! ## Rules that fail -/

theorem rule_fails (name : Rule) (h : Parses grammar (grammar.body name) offset cs none) :
    Parses grammar (.rule name) offset cs none :=
  .rule h

theorem text_fails (h : EndsText rest) : Parses grammar (.rule .text) offset rest none :=
  rule_fails .text (.seq_fail (unquoted_fails h))

theorem literal_fails (h : cs.head? ≠ some quoteMark) : Parses grammar (.rule .literal) offset cs none :=
  rule_fails .literal (.seq_fail (.seq_fail (.char_ne h)))

theorem unterminated_fails (h : cs.head? ≠ some quoteMark) : Parses grammar (.rule .unterminated) offset cs none :=
  rule_fails .unterminated (.seq_fail (.char_ne h))

/-- A literal needs a second quote. -/
theorem literal_fails_of_unclosed (hcontent : quoteMark ∉ content) (offset : Nat) :
    Parses grammar (.rule .literal) offset (quoteMark :: content) none := by
  have hopening : Parses grammar quote offset (quoteMark :: content) (some _) := .char offset quoteMark content
  have hstar := parses_star_unquoted hcontent endsText_nil (offset + byteSize [quoteMark])
  rw [List.append_nil] at hstar
  have hclosing : Parses grammar quote (offset + byteSize (quoteMark :: content)) [] none := .char_ne nofun
  exact rule_fails .literal (.seq (hopening.andThen (parses_part .content hstar)) hclosing)

/-! ## The parts of a source -/

theorem ofParts_append (xs ys : List (Peg.Part Rule)) :
    ofParts (xs ++ ys) = (ofParts xs).bind fun lexemes => (ofParts ys).map (lexemes ++ ·) := by
  rw [ofParts, ofParts, ofParts, List.mapM_append]
  cases xs.mapM ofPart with
  | error e => rfl
  | ok lexemes =>
    cases ys.mapM ofPart with
    | error e => rfl
    | ok more => exact congrArg Except.ok (List.reduceOption_append lexemes more)

/-- The part for a text, if there is any. -/
def textParts (offset : Nat) (cs : List Char) : List (Peg.Part Rule) :=
  if cs.isEmpty then [] else [.mk .text offset cs []]

theorem ofParts_textParts (offset : Nat) (cs : List Char) : ofParts (textParts offset cs) = .ok (ofText cs) := by
  unfold textParts ofText
  split <;> rfl

/-- The part at the end of a source has no lexeme. -/
theorem ofParts_append_finish (parts : List (Peg.Part Rule)) (offset : Nat) :
    ofParts (parts ++ [.mk .finish offset [] []]) = ofParts parts := by
  rw [ofParts_append]
  cases ofParts parts with
  | error e => rfl
  | ok lexemes => exact congrArg Except.ok (List.append_nil lexemes)

/-- Literals and texts, as many as there are. -/
def lexemeStar : Peg Rule :=
  .star (.choice (.rule .literal) (.rule .text))

/-- Text in front of what is matched. -/
theorem parses_text_append {m : Peg.Match Rule} (hcs : quoteMark ∉ cs) (hrest : EndsText rest)
    (h : Parses grammar lexemeStar (offset + byteSize cs) rest (some m)) :
    Parses grammar lexemeStar offset (cs ++ rest) (some ⟨textParts offset cs ++ m.parts, cs ++ m.taken, m.rest⟩) := by
  cases cs with
  | nil => exact h
  | cons c cs =>
    have hne : (c :: cs ++ rest).head? ≠ some quoteMark := by
      rintro ⟨⟩
      exact hcs List.mem_cons_self
    exact .star_cons (.choice_second (literal_fails hne) (parses_text hcs hrest offset)) h

theorem star_ends (h : Parses grammar (.rule .literal) offset rest none) (hrest : EndsText rest) :
    Parses grammar lexemeStar offset rest (some (.before rest)) :=
  .star_nil (.choice_second h (text_fails hrest))

/-- **What the grammar finds** from some byte on: literals and texts, and what is left if a quote has no partner. -/
theorem exists_parses (cs : List Char) (offset : Nat) : ∃ parts taken rest more last,
    Parses grammar lexemeStar offset cs (some ⟨parts, taken, rest⟩) ∧
      Parses grammar (.optional (.rule .unterminated)) (offset + byteSize taken) rest (some ⟨more, last, []⟩) ∧
      ofParts (parts ++ more) = scanFrom offset cs := by
  induction cs using quoted_induction generalizing offset with
  | text cs hcs =>
    have hnone : ([] : List Char).head? ≠ some quoteMark := nofun
    have htext := parses_text_append hcs endsText_nil
      (star_ends (literal_fails hnone) endsText_nil : Parses grammar lexemeStar (offset + byteSize cs) [] _)
    rw [List.append_nil] at htext
    refine ⟨_, _, _, [], [], htext, .optional_none (unterminated_fails hnone), ?_⟩
    rw [scanFrom_text offset hcs, ← ofParts_textParts offset]
    simp [Peg.Match.before]
  | unclosed cs content hcs hcontent =>
    have hends : EndsText (quoteMark :: content) := fun _ h => (Option.some.inj h).symm
    have hfails := literal_fails_of_unclosed hcontent (offset + byteSize cs)
    have htext := parses_text_append hcs hends (star_ends hfails hends)
    refine ⟨_, _, _, _, _, htext, .optional (parses_unterminated content _), ?_⟩
    rw [scanFrom_unclosed offset hcs hcontent, ofParts_append, ofParts_append, ofParts_textParts]
    simp only [Peg.Match.before, List.append_nil]
    rfl
  | literal cs content rest hcs hcontent ih =>
    have hends : EndsText (quoteMark :: (content ++ quoteMark :: rest)) := fun _ h => (Option.some.inj h).symm
    obtain ⟨parts, taken, left, more, last, hstar, hlast, hparts⟩ :=
      ih (offset + byteSize cs + byteSize (quoteMark :: content ++ [quoteMark]))
    have htext := parses_text_append hcs hends
      (.star_cons (.choice_first (parses_literal hcontent rest (offset + byteSize cs))) hstar)
    refine ⟨_, _, _, more, last, htext, ?_, ?_⟩
    · rw [byteSize_append, Peg.Match.andThen, byteSize_append, ← Nat.add_assoc, ← Nat.add_assoc]
      exact hlast
    · rw [scanFrom_literal offset hcs hcontent, ← hparts, List.append_assoc, ofParts_append, ofParts_textParts,
        Peg.Match.andThen, List.append_assoc, ofParts_append]
      cases ofParts (parts ++ more) <;> rfl

/-- **The grammar matches every source**, and finds what the scanner finds. -/
theorem scanned_iff {source : String} {r : Option (Except Nat (List Lexeme))} :
    Scanned source r ↔ r = some (scan source) := by
  have hscan : Scanned source (some (scan source)) := by
    obtain ⟨parts, taken, rest, more, last, hstar, hlast, hparts⟩ := exists_parses source.toList 0
    have hstart : Parses grammar (.seq .start lexemeStar) 0 source.toList (some ⟨parts, taken, rest⟩) :=
      .seq (.start source.toList) hstar
    refine ⟨_, parses_part .source ((hstart.andThen hlast).andThen (parses_finish _)), ?_⟩
    exact congrArg some (hparts.symm.trans (ofParts_append_finish (parts ++ more) _).symm)
  constructor
  · rintro ⟨m, hm, rfl⟩
    obtain ⟨m', hm', hsame⟩ := hscan
    rw [hm.unique hm', hsame]
  · rintro rfl
    exact hscan

/-- **Scanning loses nothing.** The grammar matches every source, with the lexemes of the scanner. If the quotes of a
source come in pairs it has lexemes; else the error is the byte of its last quote. The lexemes of a source are the
well-formed lexemes that make it up. -/
theorem scan_lossless (source : String) :
    (∀ r, Scanned source r ↔ r = some (scan source)) ∧
      ((∃ lexemes, scan source = .ok lexemes) ↔ Even (source.toList.count quoteMark)) ∧
      (Even (source.toList.count quoteMark) ∨ ∃ before after, source.toList = before ++ quoteMark :: after ∧
        quoteMark ∉ after ∧ scan source = .error (String.ofList before).utf8ByteSize) ∧
      ∀ lexemes, scan source = .ok lexemes ↔ WellFormed lexemes ∧ writeAll lexemes = source := by
  refine ⟨fun r => scanned_iff, ⟨fun ⟨lexemes, h⟩ => even_of_scan h, exists_scan_of_even⟩, ?_, fun lexemes =>
    scan_eq_ok_iff⟩
  by_cases heven : Even (source.toList.count quoteMark)
  · exact .inl heven
  · obtain ⟨before, after, hsource, hafter, hscan⟩ := scanFrom_of_odd heven 0
    refine .inr ⟨before, after, hsource, hafter, ?_⟩
    rw [← byteSize_eq, ← Nat.zero_add (byteSize before)]
    exact hscan

/-- The byte of the last quote, after a character of two bytes. -/
example : scan "'é' '" = .error 5 := by decide

end Lexeme

end CallExpr
