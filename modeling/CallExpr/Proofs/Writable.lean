import CallExpr.Proofs.Derivations
import CallExpr.Proofs.Reading
import CallExpr.Proofs.Scanning

/-!
# Terms that a source can stand for

* `Term.Writable`: no quote in a literal, a name for each call, and for each variable a phrase with single spaces; no
  call has an empty variable as its only argument.
* `Term.IsRoot`: at the top level a variable is a word.
* `writable_of_readTerms`: the terms that are read from a source are such terms.
-/

namespace CallExpr

open Grammar

namespace Term

mutual

/-- The names and literals of the term can be written. -/
def Writable (d : Char) : Term → Prop
  | literal content => quoteMark ∉ content.toList
  | .variable name => IsPhrase d name.toList ∧ Text.Collapsed name.toList ∧ quoteMark ∉ name.toList
  | call name arguments => IsName name.toList ∧ arguments ≠ [.variable ""] ∧ WritableAll d arguments
  | missing _ => False

def WritableAll (d : Char) : List Term → Prop
  | [] => True
  | t :: ts => Writable d t ∧ WritableAll d ts

end

/-- If the term is a variable, it is a word. -/
def IsRoot (d : Char) : Term → Prop
  | .variable name => IsWord d name.toList
  | _ => True

variable {d : Char}

theorem writableAll_iff {ts : List Term} : WritableAll d ts ↔ ∀ t ∈ ts, Writable d t := by
  induction ts with
  | nil => simp [WritableAll]
  | cons t ts ih => rw [WritableAll, ih, List.forall_mem_cons]

mutual

theorem tokens_of_writable : ∀ {t : Term}, Writable d t → tokens t = []
  | literal _, _ => rfl
  | .variable _, _ => rfl
  | call _ _, h => tokensAll_of_writable h.2.2
  | missing _, h => h.elim

/-- No token stands for a part of such terms. -/
theorem tokensAll_of_writable : ∀ {ts : List Term}, WritableAll d ts → tokensAll ts = []
  | [], _ => rfl
  | _ :: _, h => by rw [tokensAll, tokens_of_writable h.1, tokensAll_of_writable h.2, List.append_nil]

end

end Term

/-! ## The terms of a derivation -/

/-- The items are spaced, and each token is a literal without quotes. -/
def Plain (items : List (Item Term)) : Prop :=
  Item.Spaced items ∧ ∀ t ∈ Item.tokens items, ∃ content, t = .literal content ∧ quoteMark ∉ content.toList

theorem Plain.append {xs ys : List (Item Term)} (h : Plain (xs ++ ys)) : Plain xs ∧ Plain ys := by
  obtain ⟨hspaced, htokens⟩ := h
  rw [Item.tokens_append] at htokens
  exact ⟨⟨hspaced.append.1, fun t ht => htokens t (List.mem_append_left _ ht)⟩,
    ⟨hspaced.append.2, fun t ht => htokens t (List.mem_append_right _ ht)⟩⟩

theorem Plain.tail {x : Item Term} {items : List (Item Term)} (h : Plain (x :: items)) : Plain items := by
  rw [← List.singleton_append] at h
  exact h.append.2

theorem Plain.token {t : Term} {items : List (Item Term)} (h : Plain (.token t :: items)) :
    ∃ content, t = .literal content ∧ quoteMark ∉ content.toList :=
  h.2 t List.mem_cons_self

theorem Plain.chars {cs : List Char} (h : Plain (cs.map .char)) : Text.Collapsed cs ∧ quoteMark ∉ cs :=
  Item.spaced_map_char.mp h.1

namespace Grammar

variable {d : Char} {items : List (Item Term)} {t : Term} {terms : List Term}

/-- Spaces are no argument but an empty variable. -/
theorem IsArguments.ne_empty (h : IsArguments d items terms) (hplain : Plain items)
    (hspace : ∃ x ∈ items, x.isSpace = false) : terms ≠ [.variable ""] := by
  rintro rfl
  cases h with
  | cons _ hrest => cases hrest
  | one harg =>
    generalize hempty : Term.variable "" = t at harg
    cases harg with
    | known m n t =>
      obtain ⟨content, hcontent, -⟩ := hplain.append.2.token
      rw [hcontent] at hempty
      cases hempty
    | call m n hcall =>
      subst hempty
      cases hcall
    | @phrase m n cs _ =>
      have hnil : cs = [] := by
        have := congrArg String.toList (Term.variable.inj hempty)
        simpa using this.symm
      obtain ⟨x, hx, hspace⟩ := hspace
      rw [hnil, List.map_nil, List.append_nil] at hx
      rcases List.mem_append.mp hx with hx | hx <;>
      · rw [isSpace_of_mem_spaces hx] at hspace
        cases hspace

mutual

theorem IsCall.writable : ∀ {items : List (Item Term)} {t : Term}, IsCall d items t → Plain items → t.Writable d
  | _, _, .mk hname hbody, h => by
    obtain ⟨hne, hwritable⟩ := hbody.writableAll h.append.1.append.2.tail
    exact ⟨by rwa [String.toList_ofList], hne, hwritable⟩

theorem IsBody.writableAll : ∀ {items : List (Item Term)} {ts : List Term}, IsBody d items ts → Plain items →
    ts ≠ [.variable ""] ∧ Term.WritableAll d ts
  | _, _, .empty _, _ => ⟨by simp, trivial⟩
  | _, _, .arguments hargs hspace, h => ⟨hargs.ne_empty h hspace, hargs.writableAll h⟩

theorem IsArguments.writableAll : ∀ {items : List (Item Term)} {ts : List Term}, IsArguments d items ts →
    Plain items → Term.WritableAll d ts
  | _, _, .one harg, h => ⟨harg.writable h, trivial⟩
  | _, _, .cons harg hrest, h => ⟨harg.writable h.append.1, hrest.writableAll h.append.2.tail⟩

theorem IsArgument.writable : ∀ {items : List (Item Term)} {t : Term}, IsArgument d items t → Plain items →
    t.Writable d
  | _, _, .known m n t, h => by
    obtain ⟨content, rfl, hquote⟩ := h.append.2.token
    exact hquote
  | _, _, .call _ _ hcall, h => hcall.writable h.append.1.append.2
  | _, _, .phrase _ _ hphrase, h => by
    rw [Term.Writable, String.toList_ofList]
    exact ⟨hphrase, h.append.1.append.2.chars⟩

end

theorem IsTop.writable (h : IsTop d items t) (hplain : Plain items) : t.Writable d ∧ t.IsRoot d := by
  cases h with
  | known t =>
    obtain ⟨content, rfl, hquote⟩ := hplain.token
    exact ⟨hquote, trivial⟩
  | call hcall =>
    refine ⟨hcall.writable hplain, ?_⟩
    cases hcall
    trivial
  | @word cs hword =>
    have hphrase : IsPhrase d cs := by
      refine ⟨hword.1, fun hhead => ?_, fun hlast => ?_⟩
      · exact hword.2.2 (List.mem_of_mem_head? hhead)
      · exact hword.2.2 (List.mem_of_getLast? hlast)
    rw [Term.Writable, Term.IsRoot, String.toList_ofList]
    exact ⟨⟨hphrase, hplain.chars⟩, hword⟩

/-- The terms of a derivation can be written. -/
theorem IsForest.writable (h : IsForest d items terms) (hplain : Plain items) :
    ∀ t ∈ terms, t.Writable d ∧ t.IsRoot d := by
  obtain ⟨n, rest, rfl, hsequence⟩ := h
  replace hplain := hplain.append.2
  induction hsequence with
  | nil => simp
  | last htop => simpa using htop.writable hplain
  | cons n htop _ ih =>
    exact List.forall_mem_cons.mpr ⟨htop.writable hplain.append.1.append.1, ih hplain.append.2⟩

end Grammar

section Sources

variable {d : Char} {source : String} {lexemes : List Lexeme} {terms : List Term}

theorem plain_literalItems (h : Lexeme.scan source = .ok lexemes) : Plain (literalItems (Item.ofLexemes lexemes)) := by
  obtain ⟨hspaced, hliterals⟩ := Item.spaced_ofLexemes h
  refine ⟨(Item.spaced_map Term.literal).mpr hspaced, fun t ht => ?_⟩
  obtain ⟨x, hx, hxt⟩ := List.mem_filterMap.mp ht
  obtain ⟨y, hy, rfl⟩ := List.mem_map.mp hx
  cases y with
  | char c => cases hxt
  | token content =>
    exact ⟨content, (Option.some.inj hxt).symm, hliterals content (List.mem_filterMap.mpr ⟨_, hy, rfl⟩)⟩

/-- **The terms of a source can be written.** -/
theorem writable_of_readTerms (h : Lexeme.scan source = .ok lexemes)
    (hterms : readTerms d (literalItems (Item.ofLexemes lexemes)) = some terms) :
    ∀ t ∈ terms, t.Writable d ∧ t.IsRoot d :=
  (isForest_of_readTerms hterms).writable (plain_literalItems h)

theorem tokensAll_of_readTerms (h : Lexeme.scan source = .ok lexemes)
    (hterms : readTerms d (literalItems (Item.ofLexemes lexemes)) = some terms) : Term.tokensAll terms = [] :=
  Term.tokensAll_of_writable (Term.writableAll_iff.mpr fun t ht => (writable_of_readTerms h hterms t ht).1)

end Sources

end CallExpr
