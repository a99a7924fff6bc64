import CallExpr.Proofs.Conservation
import CallExpr.Proofs.ErrorSources
import CallExpr.Proofs.OpaqueLiterals
import CallExpr.Proofs.PassCounts

/-!
# The passes make progress

* `Text.unquoted`: the characters of a text outside of its quotes. The items of a source have as many of each
  (`Lexeme.count_ofLexemes`), but for blanks.
* `Chunk.Becomes`: what a pass leaves of a chunk (`Dialect.becomes_of_resolve`). So each call that a pass finds takes
  one parenthesis of either kind with it (`Dialect.count_of_resolve`), and none is added (`Dialect.sublist_of_resolve`).
* `Dialect.avoids_passes`, `Dialect.length_trace_passes_le`: as many passes find a call as there are open parentheses,
  at most.
* `Dialect.calls_passes`: calls in the store and parentheses among the items are as many after the passes as before.
* `Dialect.read_progress`: what that means for a source.
-/

namespace CallExpr

namespace Text

/-- Deletes the quotes and what is inside of them; `inQuotes` says whether the characters start inside of a literal. -/
def unquotedFrom : (inQuotes : Bool) → List Char → List Char
  | _, [] => []
  | inQuotes, c :: cs =>
    if c = quoteMark then unquotedFrom (!inQuotes) cs
    else if inQuotes then unquotedFrom inQuotes cs
    else c :: unquotedFrom inQuotes cs

/-- The characters of a text outside of its quotes. -/
def unquoted (s : String) : List Char :=
  unquotedFrom false s.toList

variable {c : Char} {cs : List Char}

theorem unquotedFrom_append (h : quoteMark ∉ cs) (rest : List Char) :
    unquotedFrom false (cs ++ rest) = cs ++ unquotedFrom false rest := by
  induction cs with
  | nil => rfl
  | cons c cs ih =>
    simp only [List.mem_cons, not_or] at h
    rw [List.cons_append, unquotedFrom, if_neg (Ne.symm h.1), if_neg Bool.false_ne_true, ih h.2, List.cons_append]

theorem unquotedFrom_literal (h : quoteMark ∉ cs) (rest : List Char) :
    unquotedFrom false (quoteMark :: cs ++ quoteMark :: rest) = unquotedFrom false rest := by
  rw [List.cons_append, unquotedFrom, if_pos rfl, Bool.not_false]
  induction cs with
  | nil => rw [List.nil_append, unquotedFrom, if_pos rfl, Bool.not_true]
  | cons c cs ih =>
    simp only [List.mem_cons, not_or] at h
    rw [List.cons_append, unquotedFrom, if_neg (Ne.symm h.1), if_pos rfl, ih h.2]

/-- Collapsing keeps the characters that are not blank. -/
theorem count_collapseFrom (hc : isBlank c = false) (inRun : Bool) (cs : List Char) :
    (collapseFrom inRun cs).count c = cs.count c := by
  have hspace : (c != ' ') = true := by
    rw [bne_iff_ne]
    rintro rfl
    rw [isBlank_space] at hc
    cases hc
  rw [← List.count_filter (p := (· != ' ')) hspace, filter_collapseFrom, List.count_filter (by simp [hc])]

end Text

/-- The items of lexemes have as many of a character as stand outside of quotes. -/
theorem Lexeme.count_ofLexemes {lexemes : List Lexeme} {c : Char} (hclean : ∀ l ∈ lexemes, l.Clean)
    (hc : Text.isBlank c = false) :
    (Item.ofLexemes lexemes).count (.char c) = (Text.unquotedFrom false (lexemes.flatMap write)).count c := by
  induction lexemes with
  | nil => rfl
  | cons l lexemes ih =>
    obtain ⟨hl, hclean⟩ := List.forall_mem_cons.mp hclean
    have hitems : Item.ofLexemes (l :: lexemes) = Item.ofLexeme l ++ Item.ofLexemes lexemes := rfl
    rw [List.flatMap_cons, hitems, List.count_append, ih hclean]
    cases l with
    | text s =>
      rw [write, Text.unquotedFrom_append hl, List.count_append, Item.ofLexeme,
        List.count_map_of_injective _ _ fun _ _ => Item.char.inj, Text.collapse, String.toList_ofList,
        Text.count_collapseFrom hc]
    | literal content =>
      have hwrite : write (.literal content) ++ lexemes.flatMap write =
          quoteMark :: content.toList ++ quoteMark :: lexemes.flatMap write := by
        simp [write]
      rw [hwrite, Text.unquotedFrom_literal hl, Item.ofLexeme]
      simp

/-- Storing the literals keeps the characters. -/
theorem Store.count_insertLiterals (s : Store) (items : List (Item String)) (c : Char) :
    (s.insertLiterals items).2.count (.char c) = items.count (.char c) := by
  induction items generalizing s with
  | nil => rfl
  | cons x items ih =>
    cases x with
    | char c' => simp [insertLiterals, List.count_cons, ih]
    | token content => simp [insertLiterals, ih]

/-! ## Parentheses among chunks -/

namespace Chunk

variable {α : Type} {left items : List (Item α)} {chunks : List (Chunk α)} {name : List Char} {body : List (Item α)}

/-- A call has a name, and no other parentheses than its own. -/
def Tight : Chunk α → Prop
  | item _ => True
  | call name body => Grammar.IsName name ∧ ∀ x ∈ body, x.isParen = false

theorem Exact.tight (h : Exact left chunks) : ∀ chunk ∈ chunks, chunk.Tight := by
  induction chunks generalizing left with
  | nil => exact List.forall_mem_nil _
  | cons chunk chunks ih =>
    cases chunk with
    | item x => exact List.forall_mem_cons.mpr ⟨trivial, ih h.2⟩
    | call name body => exact List.forall_mem_cons.mpr ⟨⟨h.1, h.2.1⟩, ih h.2.2.2⟩

/-- The parentheses of a call. -/
theorem Tight.filter_spelling (h : (call name body).Tight) :
    (call name body).spelling.filter Item.isParen = [.char '(', .char ')'] := by
  obtain ⟨hname, hbody⟩ := h
  have hnone : ∀ items : List (Item α), (∀ x ∈ items, x.isParen = false) → items.filter Item.isParen = [] := by
    intro items hitems
    rw [List.filter_eq_nil_iff]
    intro x hx
    rw [hitems x hx]
    exact Bool.false_ne_true
  rw [spelling, group, List.filter_append, hnone _ (isParen_of_isNameChar hname.isNameChar), List.filter_append,
    List.filter_cons_of_pos rfl, hnone body hbody]
  rfl

section Counts

variable [DecidableEq α] {p : Char}

/-- A parenthesis stands alone, or it is that of a call. -/
theorem count_spelling (hp : p = '(' ∨ p = ')') (h : ∀ chunk ∈ chunks, chunk.Tight) :
    (chunks.flatMap spelling).count (.char p) = chunks.count (.item (.char p)) + chunks.countP isCall := by
  induction chunks with
  | nil => rfl
  | cons chunk chunks ih =>
    obtain ⟨hchunk, h⟩ := List.forall_mem_cons.mp h
    rw [List.flatMap_cons, List.count_append, ih h]
    cases chunk with
    | item x =>
      rw [spelling, List.countP_cons_of_neg Bool.false_ne_true]
      simp only [List.count_cons, List.count_nil, beq_iff_eq, item.injEq]
      omega
    | call name body =>
      have hone : (call name body).spelling.count (.char p) = 1 := by
        obtain rfl | rfl := hp
        · rw [← List.count_filter (p := Item.isParen) rfl, hchunk.filter_spelling]
          rfl
        · rw [← List.count_filter (p := Item.isParen) rfl, hchunk.filter_spelling]
          rfl
      rw [hone, List.countP_cons_of_pos rfl, List.count_cons_of_ne (by simp)]
      omega

/-- There are no more innermost calls than parentheses of either kind. -/
theorem calls_le_count (hp : p = '(' ∨ p = ')') (items : List (Item α)) :
    (scan items).countP isCall ≤ items.count (.char p) := by
  have hcount := count_spelling hp (exact_scan items).tight
  rw [flatMap_spelling_scan] at hcount
  omega

end Counts

/-- What a pass leaves of a chunk: a token in place of a call. -/
def Becomes : Chunk α → Item α → Prop
  | item y, x => x = y
  | call _ _, x => ∃ a, x = .token a

/-- The parentheses of calls are gone, and the others are left. -/
theorem count_of_becomes [DecidableEq α] (h : List.Forall₂ Becomes chunks items) (c : Char) :
    items.count (.char c) = chunks.count (.item (.char c)) := by
  induction h with
  | nil => rfl
  | @cons chunk x chunks items hx _ ih =>
    rw [List.count_cons, List.count_cons, ih]
    cases chunk with
    | item y =>
      obtain rfl : x = y := hx
      simp only [beq_iff_eq, item.injEq]
    | call name body =>
      obtain ⟨a, rfl⟩ := hx
      simp

/-- No parenthesis is added or moved. -/
theorem sublist_of_becomes (h : List.Forall₂ Becomes chunks items) :
    (items.filter Item.isParen).Sublist ((chunks.flatMap spelling).filter Item.isParen) := by
  induction h with
  | nil => exact .slnil
  | @cons chunk x chunks items hx _ ih =>
    rw [List.flatMap_cons, List.filter_append]
    cases chunk with
    | item y =>
      obtain rfl : x = y := hx
      rw [spelling, ← List.singleton_append, List.filter_append]
      exact ih.append_left _
    | call name body =>
      obtain ⟨a, rfl⟩ := hx
      rw [List.filter_cons_of_neg (by simp [Item.isParen_token])]
      exact List.sublist_append_of_sublist_right ih

end Chunk

/-! ## One pass -/

/-- The limit of nesting was exceeded. -/
def ReadError.IsTooDeep (e : ReadError) : Prop :=
  ∃ limit, e = .tooDeep limit

theorem Traced.avoids_ofExcept {ω ε ε' α : Type} {P : ε → Prop} {f : ε' → ε} (hf : ∀ e, ¬ P (f e))
    (r : Except ε' α) : (ofExcept (r.mapError f) : Traced ω ε α).Avoids P := by
  cases r with
  | error e => exact avoids_fail (hf e)
  | ok a => exact .of_ok rfl

namespace Dialect

variable {d : Dialect} {s s' : Store} {items items' : List (Item Token)} {chunks : List (Chunk Token)} {p : Char}
  {left done : Nat}

/-- What a pass leaves of its chunks. -/
theorem becomes_of_resolve (h : (d.resolve s chunks).result = .ok (s', items')) :
    List.Forall₂ Chunk.Becomes chunks items' := by
  induction chunks generalizing s items' with
  | nil =>
    cases h
    exact .nil
  | cons chunk chunks ih =>
    cases chunk with
    | item x =>
      obtain ⟨rest, hrest, rfl⟩ := exists_of_resolve_item h
      exact .cons rfl (ih hrest)
    | call name body =>
      obtain ⟨arguments, rest, -, hrest, rfl⟩ := exists_of_resolve_call h
      exact .cons ⟨_, rfl⟩ (ih hrest)

/-- **Each call of a pass takes one parenthesis of either kind with it.** -/
theorem count_of_resolve (hp : p = '(' ∨ p = ')')
    (h : (d.resolve s (Chunk.scan items)).result = .ok (s', items')) :
    items.count (.char p) = items'.count (.char p) + (Chunk.scan items).countP Chunk.isCall := by
  have hcount := Chunk.count_spelling hp (Chunk.exact_scan items).tight
  rwa [Chunk.flatMap_spelling_scan, ← Chunk.count_of_becomes (becomes_of_resolve h)] at hcount

/-- A pass adds no parentheses. -/
theorem sublist_of_resolve (h : (d.resolve s (Chunk.scan items)).result = .ok (s', items')) :
    (items'.filter Item.isParen).Sublist (items.filter Item.isParen) := by
  have hsublist := Chunk.sublist_of_becomes (becomes_of_resolve h)
  rwa [Chunk.flatMap_spelling_scan] at hsublist

/-- A pass does not count levels. -/
theorem avoids_resolve (d : Dialect) (s : Store) (chunks : List (Chunk Token)) :
    (d.resolve s chunks).Avoids ReadError.IsTooDeep := by
  induction chunks generalizing s with
  | nil => exact .of_ok rfl
  | cons chunk chunks ih =>
    cases chunk with
    | item x => exact (ih s).bind fun _ => .of_ok rfl
    | call name body =>
      refine (Traced.avoids_ofExcept (by rintro _ ⟨_, ⟨⟩⟩) _).bind fun arguments => ?_
      refine (Traced.Avoids.of_ok rfl).bind fun _ => ?_
      exact (ih _).bind fun _ => .of_ok rfl

/-! ## All passes -/

/-- **With more passes than parentheses the limit is not exceeded.** -/
theorem avoids_passes (h : items.count (.char '(') < left) :
    (d.passes left done s items).Avoids ReadError.IsTooDeep := by
  induction left generalizing done s items with
  | zero => exact absurd h (Nat.not_lt_zero _)
  | succ left ih =>
    by_cases hcalls : (Chunk.scan items).countP Chunk.isCall = 0
    · exact .of_ok (passes_of_no_calls hcalls)
    · intro e he
      rw [passes_of_calls hcalls] at he
      cases hresolve : (d.resolve s (Chunk.scan items)).result with
      | error e' =>
        rw [hresolve] at he
        cases he
        exact avoids_resolve d s _ e hresolve
      | ok r =>
        rw [hresolve] at he
        have hcount := count_of_resolve (.inl rfl) hresolve
        exact ih (by omega) e he

/-- **At most as many passes find a call as there are parentheses.** -/
theorem length_trace_passes_le (d : Dialect) (left done : Nat) (s : Store) (items : List (Item Token)) :
    ((d.passes left done s items).trace.filterMap Stage.pass?).length ≤ items.count (.char '(') := by
  induction left generalizing done s items with
  | zero => exact Nat.zero_le _
  | succ left ih =>
    by_cases hcalls : (Chunk.scan items).countP Chunk.isCall = 0
    · rw [passes]
      simp only [hcalls]
      exact Nat.zero_le _
    · cases hresolve : (d.resolve s (Chunk.scan items)).result with
      | error e =>
        rw [trace_passes_of_calls hcalls, hresolve, List.length_singleton]
        exact (Nat.pos_of_ne_zero hcalls).trans_le (Chunk.calls_le_count (.inl rfl) items)
      | ok r =>
        have hcount := count_of_resolve (.inl rfl) hresolve
        have hrest := ih (done + 1) r.1 r.2
        rw [trace_passes_of_calls hcalls, hresolve, List.length_cons]
        dsimp only
        omega

/-- **Calls and parentheses are as many after the passes as before.** -/
theorem calls_passes (hp : p = '(' ∨ p = ')') (h : (d.passes left done s items).result = .ok (s', items')) :
    s'.toList.countP Entry.isCall + items'.count (.char p) = s.toList.countP Entry.isCall + items.count (.char p) := by
  let total (s : Store) (items : List (Item Token)) := s.toList.countP Entry.isCall + items.count (.char p)
  refine (passes_invariant (R := fun r rest => total r rest = total s items) ?_ h rfl).1
  intro t rest r hresolve htotal
  obtain ⟨more, hmore, hnew⟩ := exists_entries_of_resolve hresolve
  have hcount := count_of_resolve hp hresolve
  rw [← htotal]
  simp only [total, hmore, List.countP_append, hnew, hcount]
  omega

/-! ## Sources -/

variable {source : String} {forest : Forest} {lexemes : List Lexeme}

/-- The items before the first pass have the parentheses of the source. -/
theorem count_stored (hp : p = '(' ∨ p = ')') (hscan : Lexeme.scan source = .ok lexemes)
    (s : Store) :
    (s.insertLiterals (Item.ofLexemes lexemes)).2.count (.char p) = (Text.unquoted source).count p := by
  have hblank : Text.isBlank p = false := by
    obtain rfl | rfl := hp
    · decide
    · decide
  rw [Store.count_insertLiterals, Lexeme.count_ofLexemes (Lexeme.clean_of_scan hscan) hblank,
    Lexeme.flatMap_write_of_scan hscan, Text.unquoted]

/-- Reading is refused at once, or it is the passes and then something that neither counts levels nor is a pass. -/
theorem read_cases (d : Dialect) (source : String) :
    ((d.read source).Avoids ReadError.IsTooDeep ∧ (d.read source).trace = []) ∨
    ∃ lexemes finish, Lexeme.scan source = .ok lexemes ∧
      d.read source = d.passes d.maxDepth 0 (Store.empty.insertLiterals (Item.ofLexemes lexemes)).1
        (Store.empty.insertLiterals (Item.ofLexemes lexemes)).2 >>= finish ∧
      ∀ r, (finish r).Avoids ReadError.IsTooDeep ∧ (finish r).trace.filterMap Stage.pass? = [] := by
  unfold read
  split
  · cases hscan : Lexeme.scan source with
    | error offset => exact Or.inl ⟨Traced.avoids_fail (by rintro ⟨_, ⟨⟩⟩), rfl⟩
    | ok lexemes =>
      refine Or.inr ⟨lexemes, _, rfl, rfl, fun r => ⟨?_, ?_⟩⟩
      · refine (Traced.avoids_ofExcept (by rintro _ ⟨_, ⟨⟩⟩) _).bind fun arguments => ?_
        exact (Traced.Avoids.of_ok rfl).bind fun _ => .of_ok rfl
      · exact Traced.filterMap_trace_bind rfl fun _ => Traced.filterMap_trace_bind rfl fun _ => rfl
  · exact Or.inl ⟨Traced.avoids_fail (by rintro ⟨_, ⟨⟩⟩), rfl⟩

/-- A dialect with more levels than parentheses is deep enough. -/
theorem avoids_read (h : (Text.unquoted source).count '(' < d.maxDepth) :
    (d.read source).Avoids ReadError.IsTooDeep := by
  obtain ⟨havoids, -⟩ | ⟨lexemes, finish, hscan, hread, hfinish⟩ := d.read_cases source
  · exact havoids
  · rw [← count_stored (.inl rfl) hscan .empty] at h
    rw [hread]
    exact (avoids_passes h).bind fun r => (hfinish r).1

theorem length_trace_read_le (d : Dialect) (source : String) :
    ((d.read source).trace.filterMap Stage.pass?).length ≤ (Text.unquoted source).count '(' := by
  obtain ⟨-, htrace⟩ | ⟨lexemes, finish, hscan, hread, hfinish⟩ := d.read_cases source
  · rw [htrace]
    exact Nat.zero_le _
  · rw [← count_stored (.inl rfl) hscan .empty, hread, Traced.filterMap_trace_bind_left fun r => (hfinish r).2]
    exact length_trace_passes_le d _ _ _ _

/-- A forest has as many calls as its source has parentheses of either kind. -/
theorem calls_read (hp : p = '(' ∨ p = ')') (h : (d.read source).result = .ok forest) :
    forest.store.toList.countP Entry.isCall = (Text.unquoted source).count p := by
  obtain ⟨-, lexemes, s, items, arguments, hscan, hpasses, harguments, rfl⟩ := read_eq_ok_iff_passes.mp h
  have hbefore : (Store.empty.insertLiterals (Item.ofLexemes lexemes)).1.toList.countP Entry.isCall = 0 := by
    rw [Store.toList_insertLiterals, List.countP_eq_zero]
    intro e he
    obtain ⟨content, -, rfl⟩ := List.mem_map.mp he
    exact Bool.false_ne_true
  have hafter : items.count (.char p) = 0 := by
    refine List.count_eq_zero_of_not_mem fun hmem => ?_
    obtain ⟨hopen, hclose⟩ := Item.isParen_char.mp (not_paren_of_ofTopLevel harguments _ hmem)
    exact hp.elim hopen hclose
  obtain ⟨words, hwords, hnone⟩ := s.exists_entries_insertTerms arguments
  have hcalls := calls_passes hp hpasses
  rw [hbefore, hafter, count_stored hp hscan] at hcalls
  rw [Store.insertWords_eq, hwords, List.countP_append, hnone]
  omega

/-- **The passes make progress, whatever the limit.** A pass that does not fail takes one parenthesis of either kind
away for each call that it found, and adds none. So at most as many passes find a call as the source has open
parentheses outside of quotes, a limit above that is never exceeded, and a forest has as many calls as its source has
parentheses of either kind. -/
theorem read_progress (d : Dialect) :
    (∀ s items s' items', (d.resolve s (Chunk.scan items)).result = .ok (s', items') →
      (∀ p, p = '(' ∨ p = ')' →
        items.count (.char p) = items'.count (.char p) + (Chunk.scan items).countP Chunk.isCall) ∧
      (items'.filter Item.isParen).Sublist (items.filter Item.isParen)) ∧
    ∀ source, ((d.read source).trace.filterMap Stage.pass?).length ≤ (Text.unquoted source).count '(' ∧
      ((Text.unquoted source).count '(' < d.maxDepth → ∀ limit, (d.read source).result ≠ .error (.tooDeep limit)) ∧
      ∀ forest, (d.read source).result = .ok forest → ∀ p, p = '(' ∨ p = ')' →
        forest.store.toList.countP Entry.isCall = (Text.unquoted source).count p := by
  refine ⟨fun s items s' items' h => ⟨fun p hp => count_of_resolve hp h, sublist_of_resolve h⟩, fun source => ?_⟩
  refine ⟨length_trace_read_le d source, fun h limit hlimit => ?_, fun forest h p hp => calls_read hp h⟩
  exact avoids_read h _ hlimit ⟨limit, rfl⟩

/-- The items of the first pass are not balanced. In the sources the parentheses in quotes do not count, and three
levels are enough to exceed a limit that is no more than the parentheses. -/
theorem read_progress_unbalanced :
    let items : List (Item Token) := "f(g())(".toList.map .char
    (∃ s items', (Dialect.resolve {} .empty (Chunk.scan items)).result = .ok (s, items') ∧
      items.count (.char '(') = items'.count (.char '(') + 1 ∧ items.count (.char ')') = items'.count (.char ')') + 1) ∧
    (∃ forest, (Dialect.read ⟨4, ','⟩ "f('((', g(h()))").result = .ok forest ∧
      forest.store.toList.countP Entry.isCall = 3) ∧
    (∀ limit, (Dialect.read ⟨5, ','⟩ "f((g(h())), '('").result ≠ .error (.tooDeep limit)) ∧
    (Dialect.read ⟨3, ','⟩ "f(g(h()))").result = .error (.tooDeep 3) := by
  intro items
  have hresolve : (Dialect.resolve {} .empty (Chunk.scan items)).result =
      .ok (⟨#[.call "g" []]⟩, [.char 'f', .char '(', .token ⟨0⟩, .char ')', .char '(']) := by decide
  have hread : (Dialect.read ⟨4, ','⟩ "f('((', g(h()))").result =
      .ok ⟨⟨#[.literal "((", .call "h" [], .call "g" [⟨1⟩], .call "f" [⟨0⟩, ⟨2⟩]]⟩, [⟨3⟩]⟩ := by decide
  have hcount := ((read_progress {}).1 _ _ _ _ hresolve).1
  have hcalls := ((read_progress ⟨4, ','⟩).2 _).2.2 _ hread ')' (.inr rfl)
  have hlimit := ((read_progress ⟨5, ','⟩).2 "f((g(h())), '('").2.1 (by decide)
  exact ⟨⟨_, _, hresolve, hcount _ (.inl rfl), hcount _ (.inr rfl)⟩, ⟨_, hread, hcalls⟩, hlimit, by decide⟩

end Dialect

end CallExpr
