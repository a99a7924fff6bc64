import CallExpr.Proofs.Placing
import CallExpr.Source.Reading

/-!
# Passes and rounds

* One pass over the items is one round of the numbering of the terms that the items are read to in one go
  (`Dialect.resolve_simulates`, `Dialect.readTerms_resolve`).
* A pass that finds no call leaves items that stand for the terms (`Dialect.readTerms_eq_some_iff_of_no_calls`).
* What each pass keeps, all passes keep (`Dialect.passes_invariant`).
* The passes need one more than the height of the terms (`Dialect.passes_of_lt`, `Dialect.passes_of_le`). Items without
  terms are refused at the end, if not before (`Dialect.passes_of_none`).
-/

namespace CallExpr

/-- The items with tokens that are not looked up. -/
def openItems (items : List (Item Token)) : List (Item Term) :=
  items.map (Item.map .missing)

/-- Arguments as terms, their tokens not looked up. -/
def openTerms (arguments : List (Argument Token)) : List Term :=
  (arguments.map (Argument.map .missing)).map Argument.term

theorem openItems_append (xs ys : List (Item Token)) : openItems (xs ++ ys) = openItems xs ++ openItems ys :=
  List.map_append

/-- Storing the words is storing the terms of the arguments. -/
theorem Store.insertWords_eq (s : Store) (arguments : List (Argument Token)) :
    s.insertWords arguments = s.insertTerms (openTerms arguments) := by
  induction arguments generalizing s with
  | nil => rfl
  | cons a arguments ih =>
    cases a with
    | token t => simp only [insertWords, ih]; rfl
    | word w => simp only [insertWords, ih]; rfl

theorem Argument.height_openTerms (arguments : List (Argument Token)) : Term.heights (openTerms arguments) = 0 := by
  rw [Term.heights_eq_zero_iff]
  intro t ht
  obtain ⟨_, ha, rfl⟩ := List.mem_map.mp ht
  obtain ⟨a, -, rfl⟩ := List.mem_map.mp ha
  cases a <;> rfl

/-- A part that ends with a parenthesis and stands for a call. -/
def IsGroup (inside : List (Item Term)) (t : Term) : Prop :=
  t.height ≠ 0 ∧ ∃ init, inside = init ++ [.char ')']

theorem closed_isGroup (d : Char) : Groups.Closed d IsGroup := by
  intro name items inside arguments _ _ _
  exact ⟨Nat.succ_ne_zero _, _, rfl⟩

/-- Items whose arguments have no calls in them cover themselves. -/
theorem Covers.eq_of_heights {items text : List (Item Term)} {arguments : List (Argument Term)}
    (h : Covers IsGroup items text) (htokens : Argument.tokens arguments = Item.tokens items)
    (hzero : Term.heights (arguments.map Argument.term) = 0) : text = items := by
  refine h.eq_of_tokens fun t ht inside hgroup => hgroup.1 ?_
  rw [← htokens] at ht
  obtain ⟨a, ha, hat⟩ := List.mem_filterMap.mp ht
  refine Term.heights_eq_zero_iff.mp hzero t (List.mem_map.mpr ⟨a, ha, ?_⟩)
  cases a with
  | token u => exact Option.some.inj hat
  | word w => cases hat

theorem isInnermost_eq_false {name : String} {arguments : List Term} (h : Term.heights arguments ≠ 0) :
    Term.isInnermost (.call name arguments) = false := by
  simp [Term.isInnermost, h]

namespace Dialect

variable {d : Dialect} {s s₀ s' : Store} {g g' h h' : Groups} {left items items' : List (Item Token)}
  {chunks : List (Chunk Token)} {terms : List Term}

/-! ## One pass, chunk by chunk -/

theorem resolve_item (d : Dialect) (s : Store) (x : Item Token) (chunks : List (Chunk Token)) :
    (d.resolve s (.item x :: chunks)).result = (d.resolve s chunks).result.map fun r => (r.1, x :: r.2) := by
  rw [resolve]
  cases h : (d.resolve s chunks).result with
  | error e => rw [Traced.bind_of_error h]; rfl
  | ok r => rw [Traced.bind_of_ok h]; rfl

/-- A call in a pass: its words are stored, then the call itself. -/
theorem resolve_call (d : Dialect) (s : Store) (name : List Char) (body : List (Item Token))
    (chunks : List (Chunk Token)) : (d.resolve s (.call name body :: chunks)).result =
      match Argument.ofBody d.delimiter body with
      | .error piece => .error (malformed piece)
      | .ok arguments =>
        let stored := s.insertTerm (.call (.ofList name) (openTerms arguments))
        (d.resolve stored.1 chunks).result.map fun r => (r.1, .token stored.2 :: r.2) := by
  rw [resolve]
  cases hbody : Argument.ofBody d.delimiter body with
  | error piece => rfl
  | ok arguments =>
    rw [Traced.bind_of_ok (a := arguments) rfl]
    simp only [Store.insertWords_eq]
    rw [Traced.bind_of_ok (a := ()) rfl, Store.insertTerm]
    dsimp only
    cases h : (d.resolve ((s.insertTerms (openTerms arguments)).1.insert
        (.call (.ofList name) (s.insertTerms (openTerms arguments)).2)).1 chunks).result with
    | error e => rw [Traced.bind_of_error h]; rfl
    | ok r => rw [Traced.bind_of_ok h]; rfl

/-- What a pass does with an item, if it does not fail. -/
theorem exists_of_resolve_item {x : Item Token} (h : (d.resolve s (.item x :: chunks)).result = .ok (s', items')) :
    ∃ rest, (d.resolve s chunks).result = .ok (s', rest) ∧ items' = x :: rest := by
  rw [resolve_item] at h
  cases hrest : (d.resolve s chunks).result with
  | error e =>
    rw [hrest] at h
    cases h
  | ok r =>
    rw [hrest] at h
    cases h
    exact ⟨r.2, rfl, rfl⟩

/-- What a pass does with a call, if it does not fail. -/
theorem exists_of_resolve_call {name : List Char} {body : List (Item Token)}
    (h : (d.resolve s (.call name body :: chunks)).result = .ok (s', items')) :
    ∃ arguments rest, Argument.ofBody d.delimiter body = .ok arguments ∧
      (d.resolve (s.insertTerm (.call (.ofList name) (openTerms arguments))).1 chunks).result = .ok (s', rest) ∧
      items' = .token (s.insertTerm (.call (.ofList name) (openTerms arguments))).2 :: rest := by
  rw [resolve_call] at h
  cases hbody : Argument.ofBody d.delimiter body with
  | error piece =>
    rw [hbody] at h
    cases h
  | ok arguments =>
    rw [hbody] at h
    dsimp only at h
    cases hrest : (d.resolve (s.insertTerm (.call (.ofList name) (openTerms arguments))).1 chunks).result with
    | error e =>
      rw [hrest] at h
      cases h
    | ok r =>
      rw [hrest] at h
      cases h
      exact ⟨arguments, r.2, rfl, hrest, rfl⟩

/-- A `)` outside of the chunks' calls closes no innermost call. -/
theorem not_innermost_of_close (hexact : Chunk.Exact left (.item (.char ')') :: chunks))
    (hcovers : g.Covers IsGroup (openItems left.reverse)) (hclose : g.close d.delimiter = some h) {name : String}
    {arguments : List Term} {rest : List (Item Term)} (hinner : h.inner = .token (.call name arguments) :: rest) :
    Term.isInnermost (.call name arguments) = false := by
  refine isInnermost_eq_false fun hzero => ?_
  obtain ⟨cs, before, outer, read, houter, hname, hnil, hbody, rfl⟩ := Groups.close_eq_some_iff.mp hclose
  obtain ⟨inner, _⟩ := g
  dsimp only at houter hbody hinner
  subst houter
  obtain ⟨hcall, -⟩ := List.cons.inj hinner
  obtain ⟨-, rfl⟩ := Term.call.inj (Item.token.inj hcall)
  generalize htext : openItems left.reverse = text at hcovers
  cases hcovers with
  | @group _ inside _ text _ hin hrest =>
    -- Without a call in the group its text has no parenthesis, so the name before it would be empty.
    have hin_eq := hin.eq_of_heights (Argument.tokens_ofBody hbody) hzero
    have hleft : left.map (Item.map Term.missing) = inner ++ .char '(' :: text.reverse := by
      have := congrArg List.reverse htext
      simpa [openItems, hin_eq] using this
    obtain ⟨body, rest', rfl, hbody', hrest'⟩ := List.map_eq_append_iff.mp hleft
    obtain ⟨x, before', rfl, hx, hbefore'⟩ := List.map_eq_cons_iff.mp hrest'
    obtain rfl : x = .char '(' := by
      cases x with
      | char c => simpa [Item.map] using hx
      | token t => cases hx
    have hparen : ∀ y ∈ body, y.isParen = false := by
      intro y hy
      rw [← Item.isParen_map Term.missing, hin.not_paren]
      rw [List.mem_reverse, ← hbody']
      exact List.mem_map_of_mem hy
    have hnone := hexact.1 body before' rfl rfl hparen
    have hsome := hrest.nameBefore_eq fun hp => hp.2
    rw [← hbefore', nameBefore_map, hnone, nameBefore_name hname hnil] at hsome
    exact hname.ne_nil hsome.symm

/-- One item outside of the calls: both readings go on, or neither does. -/
theorem step_simulates {x : Item Token} (hexact : Chunk.Exact left (.item x :: chunks))
    (hcovers : g.Covers IsGroup (openItems left.reverse)) (hplaced : Groups.Placed Term.isInnermost s₀ g s g') :
    Option.Rel (fun h h' => Groups.Placed Term.isInnermost s₀ h s h')
      (g.step d.delimiter (x.map .missing)) (g'.step d.delimiter (x.map .missing)) := by
  cases x with
  | token t => exact .some (hplaced.push_token rfl)
  | char c =>
    refine hplaced.step_char (fun _ => rfl) ?_
    rintro rfl h name arguments rest hclose hinner
    exact not_innermost_of_close hexact hcovers hclose hinner

/-- An innermost call: the first reading makes it a token, if its arguments can be read. -/
theorem run_innermost {name : List Char} {body : List (Item Token)}
    (hexact : Chunk.Exact left (.call name body :: chunks)) (hcovers : g.Covers IsGroup (openItems left.reverse)) :
    g.run d.delimiter (openItems (Chunk.call name body).spelling) =
      (Argument.ofBody d.delimiter body).toOption.map fun arguments =>
        g.push (.token (.call (.ofList name) (openTerms arguments))) := by
  obtain ⟨hname, hbody, hleft, -⟩ := hexact
  have hinner : nameBefore g.inner = [] := by
    rw [← hcovers.nameBefore_eq fun hp => hp.2, openItems, ← List.map_reverse, List.reverse_reverse, nameBefore_map,
      hleft]
  have hparen : ∀ x ∈ openItems body, x.isParen = false := by
    intro x hx
    obtain ⟨y, hy, rfl⟩ := List.mem_map.mp hx
    rw [Item.isParen_map, hbody y hy]
  have hrun : ∀ outer,
      Groups.run d.delimiter ⟨[], outer⟩ (openItems body) = some ⟨(openItems body).reverse, outer⟩ := by
    intro outer
    rw [Groups.run_of_not_paren hparen, List.append_nil]
  have hspelling : openItems (Chunk.call name body).spelling =
      name.map .char ++ .char '(' :: openItems body ++ [.char ')'] := by
    simp [Chunk.spelling, Chunk.group, openItems, Item.map]
  rw [hspelling, Groups.run_call hname hinner hrun, openItems, Argument.ofBody_map]
  cases Argument.ofBody d.delimiter body <;> rfl

/-- What a pass gives and what the items before it are read to: if the pass fails there is no reading, else the items
after it are read in step, from `g'` on. -/
def Agrees (d : Dialect) (s₀ : Store) (first : Option Groups) (g' : Groups) :
    Except ReadError (Store × List (Item Token)) → Prop
  | .error _ => first = none
  | .ok r => Option.Rel (fun h h' => Groups.Placed Term.isInnermost s₀ h r.1 h') first
      (g'.run d.delimiter (openItems r.2))

theorem Agrees.cons {first : Option Groups} {x : Item Token} {r : Except ReadError (Store × List (Item Token))}
    (hstep : g'.step d.delimiter (x.map .missing) = some h') (h : d.Agrees s₀ first h' r) :
    d.Agrees s₀ first g' (r.map fun r => (r.1, x :: r.2)) := by
  cases r with
  | error e => exact h
  | ok r =>
    rw [Except.map, Agrees, openItems, List.map_cons, Groups.run_cons, hstep]
    exact h

theorem agrees_none {x : Item Token} (hstep : g'.step d.delimiter (x.map .missing) = none)
    (r : Except ReadError (Store × List (Item Token))) :
    d.Agrees s₀ none g' (r.map fun r => (r.1, x :: r.2)) := by
  cases r with
  | error e => exact (rfl : (none : Option Groups) = none)
  | ok r =>
    rw [Except.map, Agrees, openItems, List.map_cons, Groups.run_cons, hstep]
    exact .none

/-- **One pass is one round.** While the pass goes through the chunks, the items before and after it are read in
step. -/
theorem resolve_simulates (hexact : Chunk.Exact left chunks) (hcovers : g.Covers IsGroup (openItems left.reverse))
    (hplaced : Groups.Placed Term.isInnermost s₀ g s g') :
    d.Agrees s₀ (g.run d.delimiter (openItems (chunks.flatMap Chunk.spelling))) g' (d.resolve s chunks).result := by
  induction chunks generalizing left s g g' with
  | nil => exact .some hplaced
  | cons chunk chunks ih =>
    have hcovers' : ∀ h, g.run d.delimiter (openItems chunk.spelling) = some h →
        h.Covers IsGroup (openItems (chunk.spelling.reverse ++ left).reverse) := by
      intro h hrun
      rw [List.reverse_append, List.reverse_reverse, openItems_append]
      exact Groups.covers_run (closed_isGroup d.delimiter) hcovers hrun
    rw [List.flatMap_cons, openItems_append, Groups.run_append]
    cases chunk with
    | item x =>
      have hrun : g.run d.delimiter (openItems (Chunk.item x).spelling) = g.step d.delimiter (x.map .missing) := by
        rw [Chunk.spelling, openItems, List.map_singleton, Groups.run_cons]
        cases g.step d.delimiter (x.map .missing) <;> rfl
      have hstep := step_simulates (d := d) hexact hcovers hplaced
      rw [hrun] at hcovers' ⊢
      rw [resolve_item]
      generalize g.step d.delimiter (x.map .missing) = next at hstep hcovers' ⊢
      generalize hnext' : g'.step d.delimiter (x.map .missing) = next' at hstep
      cases hstep with
      | none => exact agrees_none hnext' _
      | some hplaced' => exact .cons hnext' (ih hexact.2 (hcovers' _ rfl) hplaced')
    | call name body =>
      have hrun := run_innermost (d := d) hexact hcovers
      rw [hrun] at hcovers' ⊢
      rw [resolve_call]
      cases hread : Argument.ofBody d.delimiter body with
      | error piece => exact (rfl : (none : Option Groups) = none)
      | ok arguments =>
        rw [hread] at hcovers'
        have hplace : s.place Term.isInnermost (.call (.ofList name) (openTerms arguments)) =
            s.replace (.call (.ofList name) (openTerms arguments)) :=
          Store.place_of_pos (by simp [Term.isInnermost, Argument.height_openTerms])
        exact .cons rfl (ih hexact.2.2.2 (hcovers' _ rfl) (hplaced.push_token hplace))

/-! ## The terms of a pass -/

/-- A pass fails only if the items have no terms. -/
theorem readTerms_of_resolve_error {e : ReadError} (h : (d.resolve s (Chunk.scan items)).result = .error e) :
    readTerms d.delimiter (openItems items) = none := by
  have hagrees := resolve_simulates (d := d) (Chunk.exact_scan items) (.top .nil)
    (Groups.placed_start Term.isInnermost s)
  rw [h, Chunk.flatMap_spelling_scan] at hagrees
  rw [readTerms, show Groups.run d.delimiter {} (openItems items) = none from hagrees, Option.bind_none]

/-- **A pass places the innermost calls of the terms**, if there are terms before it and after it. -/
theorem readTerms_resolve (h : (d.resolve s (Chunk.scan items)).result = .ok (s', items')) :
    Option.Rel (fun ts ts' => s.placeAll Term.isInnermost ts = (s', ts'))
      (readTerms d.delimiter (openItems items)) (readTerms d.delimiter (openItems items')) := by
  have hagrees := resolve_simulates (d := d) (Chunk.exact_scan items) (.top .nil)
    (Groups.placed_start Term.isInnermost s)
  rw [h, Chunk.flatMap_spelling_scan, Agrees] at hagrees
  rw [readTerms, readTerms]
  generalize Groups.run d.delimiter {} (openItems items) = first at hagrees ⊢
  generalize Groups.run d.delimiter {} (openItems items') = second at hagrees ⊢
  cases hagrees with
  | none => exact .none
  | some hplaced => exact hplaced.finish fun _ => rfl

/-- Without calls a pass changes nothing. -/
theorem resolve_of_no_calls (h : (Chunk.scan items).countP Chunk.isCall = 0) :
    (d.resolve s (Chunk.scan items)).result = .ok (s, items) := by
  have hresolve : ∀ chunks : List (Chunk Token), chunks.countP Chunk.isCall = 0 →
      (d.resolve s chunks).result = .ok (s, chunks.flatMap Chunk.spelling) := by
    intro chunks hchunks
    induction chunks with
    | nil => rfl
    | cons chunk chunks ih =>
      cases chunk with
      | call name body => exact absurd hchunks (by simp [Chunk.isCall])
      | item x =>
        rw [resolve_item, ih (by simpa [Chunk.isCall] using hchunks)]
        rfl
  rw [hresolve _ h, Chunk.flatMap_spelling_scan]

/-- Items with parentheses do not stand for terms without calls. -/
theorem not_paren_of_heights (h : readTerms d.delimiter (openItems items) = some terms)
    (hzero : Term.heights terms = 0) : ∀ x ∈ items, x.isParen = false := by
  obtain ⟨inner, arguments, hrun, hargs, rfl⟩ := readTerms_eq_some_iff.mp h
  have hcovers := Groups.covers_run (closed_isGroup d.delimiter) (.top .nil) hrun
  rw [List.nil_append] at hcovers
  cases hcovers with
  | top hcovers =>
    have hitems := hcovers.eq_of_heights (Argument.tokens_ofTopLevel hargs) hzero
    intro x hx
    rw [← Item.isParen_map Term.missing]
    exact hcovers.not_paren _ (hitems ▸ List.mem_map_of_mem hx)

/-- Items that are read at the top level have no parentheses. -/
theorem not_paren_of_ofTopLevel {arguments : List (Argument Token)}
    (h : Argument.ofTopLevel d.delimiter items = .ok arguments) : ∀ x ∈ items, x.isParen = false := by
  intro x hx
  cases hspace : x.isSpace with
  | true =>
    rw [Item.isSpace_eq_true_iff.mp hspace]
    rfl
  | false =>
    obtain ⟨piece, hpiece, hx⟩ := exists_mem_splitOnP hx hspace
    have hkept : piece ∈ (items.splitOnP Item.isSpace).filter fun piece => !piece.isEmpty :=
      List.mem_filter.mpr ⟨hpiece, by simpa using List.ne_nil_of_mem hx⟩
    obtain ⟨a, -, ha⟩ := Argument.exists_ofPiece_of_mem h hkept
    rcases Argument.ofPiece_eq_ok_iff.mp ha with ⟨t, rfl, -⟩ | ⟨cs, rfl, hcs, -⟩
    · rw [List.mem_singleton.mp hx]
      rfl
    · obtain ⟨c, hc, rfl⟩ := List.mem_map.mp hx
      exact Item.isParen_char.mpr (Argument.isStructural_eq_false_iff.mp (hcs c hc)).1

/-- Without calls the items stand for terms just if they are read at the top level. -/
theorem readTerms_eq_some_iff_of_no_calls (hcalls : (Chunk.scan items).countP Chunk.isCall = 0) :
    readTerms d.delimiter (openItems items) = some terms ↔
      ∃ arguments, Argument.ofTopLevel d.delimiter items = .ok arguments ∧ openTerms arguments = terms := by
  have hread : (∀ x ∈ items, x.isParen = false) → readTerms d.delimiter (openItems items) =
      (Argument.ofTopLevel d.delimiter items).toOption.map openTerms := by
    intro hparen
    have hparen : ∀ x ∈ openItems items, x.isParen = false := by
      intro x hx
      obtain ⟨y, hy, rfl⟩ := List.mem_map.mp hx
      rw [Item.isParen_map, hparen y hy]
    rw [readTerms, Groups.run_of_not_paren hparen, Option.bind_some, Groups.finish]
    simp only [List.append_nil, List.reverse_reverse, List.isEmpty_nil, if_true]
    rw [openItems, Argument.ofTopLevel_map]
    cases Argument.ofTopLevel d.delimiter items <;> rfl
  constructor
  · intro h
    -- The pass stores nothing, so there is no call in the terms.
    have hrel := readTerms_resolve (d := d) (resolve_of_no_calls (s := .empty) hcalls)
    rw [h] at hrel
    have hheights : Term.heights terms = 0 := by
      cases hrel with
      | some hplace =>
        have hround : Term.heights terms = Term.heights terms - 1 := by
          rw [← Store.heights_placeAll .empty terms, hplace]
        omega
    rw [hread (not_paren_of_heights h hheights)] at h
    cases hargs : Argument.ofTopLevel d.delimiter items with
    | error e => simp [hargs, Except.toOption] at h
    | ok arguments => exact ⟨arguments, rfl, by simpa [hargs, Except.toOption] using h⟩
  · rintro ⟨arguments, hargs, rfl⟩
    rw [hread (not_paren_of_ofTopLevel hargs), hargs]
    rfl

/-- A pass that finds calls has calls in its terms. -/
theorem heights_ne_zero_of_calls (hcalls : (Chunk.scan items).countP Chunk.isCall ≠ 0)
    (h : readTerms d.delimiter (openItems items) = some terms) : Term.heights terms ≠ 0 := by
  intro hzero
  refine hcalls (List.countP_eq_zero.mpr fun chunk hchunk => ?_)
  cases chunk with
  | item x => exact Bool.false_ne_true
  | call name body =>
    have hmem : Item.char '(' ∈ (Chunk.scan items).flatMap Chunk.spelling :=
      List.mem_flatMap.mpr ⟨_, hchunk, by simp [Chunk.spelling, Chunk.group]⟩
    rw [Chunk.flatMap_spelling_scan] at hmem
    have hparen := not_paren_of_heights h hzero _ hmem
    simp [Item.isParen, Item.is] at hparen

/-! ## All passes -/

variable {passesLeft done : Nat}

theorem passes_of_no_calls (hcalls : (Chunk.scan items).countP Chunk.isCall = 0) :
    (d.passes (passesLeft + 1) done s items).result = .ok (s, items) := by
  rw [passes]
  simp only [hcalls]
  rfl

theorem passes_of_calls (hcalls : (Chunk.scan items).countP Chunk.isCall ≠ 0) :
    (d.passes (passesLeft + 1) done s items).result = match (d.resolve s (Chunk.scan items)).result with
      | .error e => .error e
      | .ok r => (d.passes passesLeft (done + 1) r.1 r.2).result := by
  rw [passes]
  dsimp only
  split
  · next h => exact absurd h hcalls
  · rw [Traced.bind_of_ok (a := ()) rfl]
    cases h : (d.resolve s (Chunk.scan items)).result with
    | error e => rw [Traced.bind_of_error h]
    | ok r => rw [Traced.bind_of_ok h]

/-- **What each pass keeps, all passes keep.** After them no call is left. -/
theorem passes_invariant {R : Store → List (Item Token) → Prop}
    (hkeeps : ∀ {s items r}, (d.resolve s (Chunk.scan items)).result = .ok r → R s items → R r.1 r.2)
    (h : (d.passes passesLeft done s items).result = .ok (s', items')) (hR : R s items) :
    R s' items' ∧ (Chunk.scan items').countP Chunk.isCall = 0 := by
  induction passesLeft generalizing done s items with
  | zero => cases h
  | succ passesLeft ih =>
    by_cases hcalls : (Chunk.scan items).countP Chunk.isCall = 0
    · rw [passes_of_no_calls hcalls] at h
      cases h
      exact ⟨hR, hcalls⟩
    · rw [passes_of_calls hcalls] at h
      cases hresolve : (d.resolve s (Chunk.scan items)).result with
      | error e =>
        rw [hresolve] at h
        cases h
      | ok r =>
        rw [hresolve] at h
        exact ih h (hkeeps hresolve hR)

/-- The innermost calls of terms are placed by the pass over their items, and what is left has terms again. -/
theorem exists_resolve (h : readTerms d.delimiter (openItems items) = some terms) :
    ∃ items', (d.resolve s (Chunk.scan items)).result = .ok ((s.placeAll Term.isInnermost terms).1, items') ∧
      readTerms d.delimiter (openItems items') = some (s.placeAll Term.isInnermost terms).2 := by
  cases hresolve : (d.resolve s (Chunk.scan items)).result with
  | error e =>
    rw [readTerms_of_resolve_error hresolve] at h
    cases h
  | ok r =>
    have hrel := readTerms_resolve (d := d) hresolve
    rw [h] at hrel
    generalize hafter : readTerms d.delimiter (openItems r.2) = after at hrel
    cases hrel with
    | some hplace =>
      rw [hplace]
      exact ⟨r.2, rfl, hafter⟩

/-- A pass that finds calls in items with terms: the innermost calls of the terms are placed. -/
theorem exists_pass (hcalls : (Chunk.scan items).countP Chunk.isCall ≠ 0)
    (h : readTerms d.delimiter (openItems items) = some terms) :
    ∃ items', (∀ passesLeft done, (d.passes (passesLeft + 1) done s items).result =
        (d.passes passesLeft (done + 1) (s.placeAll Term.isInnermost terms).1 items').result) ∧
      readTerms d.delimiter (openItems items') = some (s.placeAll Term.isInnermost terms).2 := by
  obtain ⟨items', hresolve, hafter⟩ := exists_resolve (s := s) h
  exact ⟨items', fun passesLeft done => by rw [passes_of_calls hcalls, hresolve], hafter⟩

/-- **Enough passes settle the terms.** -/
theorem passes_of_lt (h : readTerms d.delimiter (openItems items) = some terms)
    (hlt : Term.heights terms < passesLeft) :
    ∃ items' arguments,
      (d.passes passesLeft done s items).result = .ok ((s.settle (Term.heights terms) terms).1, items') ∧
      Argument.ofTopLevel d.delimiter items' = .ok arguments ∧
      openTerms arguments = (s.settle (Term.heights terms) terms).2 := by
  induction passesLeft generalizing done s items terms with
  | zero => exact absurd hlt (Nat.not_lt_zero _)
  | succ passesLeft ih =>
    by_cases hcalls : (Chunk.scan items).countP Chunk.isCall = 0
    · obtain ⟨arguments, hargs, rfl⟩ := (readTerms_eq_some_iff_of_no_calls hcalls).mp h
      rw [Argument.height_openTerms]
      exact ⟨items, arguments, passes_of_no_calls hcalls, hargs, rfl⟩
    · obtain ⟨items', hpass, hafter⟩ := exists_pass (s := s) hcalls h
      have hne := heights_ne_zero_of_calls hcalls h
      have hround := Store.heights_placeAll s terms
      have hheights : Term.heights terms = Term.heights (s.placeAll Term.isInnermost terms).2 + 1 := by omega
      rw [hpass, hheights, Store.settle]
      exact ih hafter (by omega)

/-- Too few passes fail. -/
theorem passes_of_le (h : readTerms d.delimiter (openItems items) = some terms)
    (hle : passesLeft ≤ Term.heights terms) :
    (d.passes passesLeft done s items).result = .error (.tooDeep d.maxDepth) := by
  induction passesLeft generalizing done s items terms with
  | zero => rfl
  | succ passesLeft ih =>
    by_cases hcalls : (Chunk.scan items).countP Chunk.isCall = 0
    · obtain ⟨arguments, -, rfl⟩ := (readTerms_eq_some_iff_of_no_calls hcalls).mp h
      rw [Argument.height_openTerms] at hle
      exact absurd hle (Nat.not_succ_le_zero _)
    · obtain ⟨items', hpass, hafter⟩ := exists_pass (s := s) hcalls h
      have hround := Store.heights_placeAll s terms
      rw [hpass]
      exact ih hafter (by omega)

/-- Items without terms are not read at the top level after the passes. -/
theorem passes_of_none (h : readTerms d.delimiter (openItems items) = none)
    (hok : (d.passes passesLeft done s items).result = .ok (s', items')) (arguments : List (Argument Token)) :
    Argument.ofTopLevel d.delimiter items' ≠ .ok arguments := by
  obtain ⟨hnone, hcalls⟩ : readTerms d.delimiter (openItems items') = none ∧ _ := by
    refine passes_invariant (R := fun _ items => readTerms d.delimiter (openItems items) = none) ?_ hok h
    intro s items r hresolve h
    have hrel := readTerms_resolve (d := d) hresolve
    rw [h] at hrel
    generalize readTerms d.delimiter (openItems r.2) = after at hrel
    cases hrel
    rfl
  intro hargs
  rw [(readTerms_eq_some_iff_of_no_calls hcalls).mpr ⟨arguments, hargs, rfl⟩] at hnone
  cases hnone

end Dialect

end CallExpr
