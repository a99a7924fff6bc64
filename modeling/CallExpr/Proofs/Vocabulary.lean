import CallExpr.Proofs.RoundTrip

/-!
# What the store of a source holds

* `Dialect.writable_of_read`: the forest of a source can be written.
* `Dialect.read_vocabulary`: the names and contents that can be in its store.
-/

namespace CallExpr

theorem Grammar.IsPlain.ne {d : Char} {cs : List Char} (h : IsPlain d cs) {c : Char} (hc : c ∈ cs) :
    c ≠ '(' ∧ c ≠ ')' ∧ c ≠ d := by
  obtain ⟨⟨hopen, hclose⟩, hd⟩ := Argument.isStructural_eq_false_iff.mp (h c hc)
  exact ⟨hopen, hclose, hd⟩

namespace Dialect

variable {d : Dialect} {source : String} {f : Forest}

/-- **The forest of a source can be written.** -/
theorem writable_of_read (h : (d.read source).result = .ok f) : f.Writable d.delimiter := by
  obtain ⟨-, lexemes, terms, hscan, hterms, -, hf⟩ := read_eq_ok_iff.mp h
  have htokens := tokensAll_of_readTerms hscan hterms
  have hroots : f.roots.map f.store.termAt = terms := by rw [← hf, Forest.map_termAt_roots htokens]
  refine (hf ▸ Forest.linear_ofTerms htokens).writable fun u hu => writable_of_readTerms hscan hterms _ ?_
  rw [← hroots]
  exact List.mem_map_of_mem hu

/-- **What the store of a source holds.** A call has a function name, and is not given an empty variable alone. A
literal has no quotes. A variable has no quotes, parentheses and delimiters; its blanks are single spaces, and none is
at an end. At the top level it is not empty and has no spaces. -/
theorem read_vocabulary (h : (d.read source).result = .ok f) :
    (∀ t name arguments, f.store.get? t = some (.call name arguments) → Grammar.IsName name.toList ∧
      ∀ u, arguments = [u] → f.store.get? u ≠ some (.variable "")) ∧
    (∀ t content, f.store.get? t = some (.literal content) → quoteMark ∉ content.toList) ∧
    (∀ t name, f.store.get? t = some (.variable name) →
      (∀ c ∈ name.toList, c ≠ quoteMark ∧ c ≠ '(' ∧ c ≠ ')' ∧ c ≠ d.delimiter ∧
        (Text.isBlank c = true → c = ' ')) ∧
      ¬ [' ', ' '] <:+: name.toList ∧ name.toList.head? ≠ some ' ' ∧ name.toList.getLast? ≠ some ' ') ∧
    ∀ u ∈ f.roots, ∀ name, f.store.get? u = some (.variable name) → name ≠ "" ∧ ' ' ∉ name.toList := by
  have hwritable := writable_of_read h
  refine ⟨fun t name arguments ht => ⟨hwritable.names t name arguments ht, ?_⟩, hwritable.literals, ?_, ?_⟩
  · rintro u rfl
    exact hwritable.arguments t name u ht
  · intro t name ht
    obtain ⟨⟨hplain, hhead, hlast⟩, hcollapsed, hquote⟩ := hwritable.phrases t name ht
    refine ⟨fun c hc => ?_, hcollapsed.not_infix, hhead, hlast⟩
    obtain ⟨hopen, hclose, hdelimiter⟩ := hplain.ne hc
    exact ⟨ne_of_mem_of_not_mem hc hquote, hopen, hclose, hdelimiter, hcollapsed.blank c hc⟩
  · intro u hu name hname
    obtain ⟨hne, hspace⟩ := hwritable.words u hu name hname
    refine ⟨?_, hspace⟩
    rintro rfl
    exact hne rfl

/-- There are blanks of three kinds, an empty argument, and the delimiter in a literal. -/
theorem read_vocabulary_blanks : ∃ f, (Dialect.read ⟨3, ';'⟩ "f( a\u00a0\tb ;; 'x;'; g( )) c").result = .ok f ∧
    f.store.get? ⟨2⟩ = some (.variable "a b") ∧ f.store.get? ⟨3⟩ = some (.variable "") ∧
    (∀ t name, f.store.get? t = some (.variable name) → ';' ∉ name.toList ∧ ¬ [' ', ' '] <:+: name.toList) ∧
    ∀ u ∈ f.roots, f.store.get? u ≠ some (.variable "") := by
  have hread : (Dialect.read ⟨3, ';'⟩ "f( a\u00a0\tb ;; 'x;'; g( )) c").result =
      .ok ⟨⟨#[.literal "x;", .call "g" [], .variable "a b", .variable "", .call "f" [⟨2⟩, ⟨3⟩, ⟨0⟩, ⟨1⟩],
        .variable "c"]⟩, [⟨4⟩, ⟨5⟩]⟩ := rfl
  obtain ⟨-, -, hvariables, hroots⟩ := read_vocabulary hread
  refine ⟨_, hread, rfl, rfl, fun t name ht => ?_, fun u hu hempty => (hroots u hu "" hempty).1 rfl⟩
  obtain ⟨hchars, hspaces, -⟩ := hvariables t name ht
  exact ⟨fun hc => (hchars _ hc).2.2.2.1 rfl, hspaces⟩

end Dialect

end CallExpr
