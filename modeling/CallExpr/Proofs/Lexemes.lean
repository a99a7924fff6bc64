import CallExpr.Proofs.Scanning

/-!
# The lexemes of a source

* `Lexeme.Clean`: no quote stands in the text of the lexeme or in the content of the literal.
* `Lexeme.clean_of_scan`, `Lexeme.flatMap_write_of_scan`: the lexemes of a source are clean, and written one after the
  other they are the source.
-/

namespace CallExpr

namespace Lexeme

/-- No quote is in it. -/
def Clean : Lexeme → Prop
  | text s => quoteMark ∉ s.toList
  | literal content => quoteMark ∉ content.toList

variable {cs : List Char} {source : String} {lexemes : List Lexeme}

theorem flatMap_write_ofText (cs : List Char) : (ofText cs).flatMap write = cs := by
  cases cs with
  | nil => rfl
  | cons c cs => simp [ofText, write]

theorem clean_ofText (h : quoteMark ∉ cs) : ∀ l ∈ ofText cs, l.Clean := by
  intro l hl
  rw [ofText] at hl
  split at hl
  · cases hl
  · rw [List.mem_singleton.mp hl, Clean, String.toList_ofList]
    exact h

/-- The stretches with the quotes between them are the written lexemes. -/
theorem write_ofStretches {offset : Nat} : ∀ {stretches : List (List Char)} {lexemes : List Lexeme},
    (∀ cs ∈ stretches, quoteMark ∉ cs) → ofStretches offset stretches = .ok lexemes →
    (∀ l ∈ lexemes, l.Clean) ∧ lexemes.flatMap write = [quoteMark].intercalate stretches
  | [], _, _, h => by
    cases h
    exact ⟨by simp, rfl⟩
  | [last], _, hquotes, h => by
    cases h
    exact ⟨clean_ofText (hquotes last List.mem_cons_self), by rw [flatMap_write_ofText, List.intercalate_singleton]⟩
  | [_, _], _, _, h => by cases h
  | before :: content :: stretch :: stretches, _, hquotes, h => by
    rw [ofStretches_cons_cons (List.cons_ne_nil _ _)] at h
    obtain ⟨hbefore, hquotes⟩ := List.forall_mem_cons.mp hquotes
    obtain ⟨hcontent, hquotes⟩ := List.forall_mem_cons.mp hquotes
    cases hrest : ofStretches (offset + byteSize before + quoteMark.utf8Size + byteSize content + quoteMark.utf8Size)
        (stretch :: stretches) with
    | error e =>
      rw [hrest] at h
      cases h
    | ok rest =>
      rw [hrest] at h
      cases h
      obtain ⟨hclean, hwrite⟩ := write_ofStretches hquotes hrest
      constructor
      · intro l hl
        rcases List.mem_append.mp hl with hl | hl
        · exact clean_ofText hbefore l hl
        · rcases List.mem_cons.mp hl with rfl | hl
          · rwa [Clean, String.toList_ofList]
          · exact hclean l hl
      · rw [List.flatMap_append, flatMap_write_ofText, List.flatMap_cons, hwrite]
        simp [write, List.intercalate_cons_cons]

theorem not_quote_of_mem_splitOn {cs piece : List Char} (h : piece ∈ cs.splitOn quoteMark) : quoteMark ∉ piece := by
  intro hquote
  rw [List.splitOn_eq_splitOnP] at h
  have := eq_false_of_mem_splitOnP h _ hquote
  simp at this

/-- No quote stands in a lexeme. -/
theorem clean_of_scan (h : scan source = .ok lexemes) : ∀ l ∈ lexemes, l.Clean :=
  (write_ofStretches (fun _ => not_quote_of_mem_splitOn) h).1

/-- **The lexemes make up the source.** -/
theorem flatMap_write_of_scan (h : scan source = .ok lexemes) : lexemes.flatMap write = source.toList := by
  rw [(write_ofStretches (fun _ => not_quote_of_mem_splitOn) h).2, List.intercalate_splitOn]

end Lexeme

end CallExpr
